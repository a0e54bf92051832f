import Lsmdb.Spec.SkipListCorrect

/-!
# The memory of the memtable

`ApproximateMemoryUsage` is a running counter, adjusted by every `Insert`. It is the sum,
in 64 bits, of what `Insert` counts for the nodes that are in the list now
(`Accounted`), however often their values have been replaced. So while that sum is below
`2 ^ 64` the counter is exact, and what the overwrite path subtracts has been added before.

The destructor follows the bottom level, which links every node once. So it frees all that has
been allocated, and nothing twice (`destructor_frees_each_node_once`).
-/

namespace Lsmdb

namespace SkipList

/-- What `Insert` counts for a node: its key, its current value, and the node itself with one
    pointer for each of its levels. -/
def Node.footprint (n : Node) : Nat :=
  n.key.length + n.value.length + sizeofNode.toNat + n.forward.length * sizeofPtr.toNat

/-- The nodes from an address on, along the bottom level. The number bounds the walk. -/
def walk (nodes : List Node) : Nat → Option Nat → List Node
  | n + 1, some a =>
    match nodes[a]? with
    | some node => node :: walk nodes n (node.forward[0]?.join)
    | none => []
  | _, _ => []

/-- The nodes that are in the list, as the destructor visits them. -/
def linkedNodes (l : SkipList) : List Node := walk l.nodes l.nodes.length (l.forwardAt 0 0).join

/-- The memory of the nodes that are in the list. -/
def totalMemory (l : SkipList) : Nat := (l.linkedNodes.map Node.footprint).sum

variable {l l' : SkipList} {order pre post : List Nat}

/-! ## The nodes of the chain -/

/-- Following the pointers of level 0 visits the nodes of the chain. -/
private theorem walk_chain (hc : Chain l (pre ++ post)) {n : Nat} (hn : post.length ≤ n) :
    (walk l.nodes n post.head?).map some = post.map (l.nodes[·]?) := by
  induction post generalizing pre n with
  | nil => cases n <;> rfl
  | cons a post ih =>
    cases n with
    | zero => simp at hn
    | succ n =>
      obtain ⟨node, hnode⟩ : ∃ node, l.nodes[a]? = some node :=
        ⟨_, List.getElem?_eq_getElem (hc.valid a (by simp))⟩
      -- on level 0 every node points to the next one of the chain
      have hnext : node.forward[0]? = some post.head? := by
        have hfwd := hc.forwardAt_zero (P := 0 :: pre) (R := post) (a := a) (by simp)
        simpa [forwardAt, hnode] using hfwd
      have hrest := @ih (pre ++ [a]) (by simpa using hc) n (by simpa using hn)
      simp only [List.head?_cons, walk, hnode, hnext, Option.join_some, List.map_cons, hrest]

/-- The size of a node, from its shape. -/
def shapeSize (shape : Option (Bytes × Bytes × Bool × Nat)) : Nat :=
  (shape.map fun p =>
    p.1.length + p.2.1.length + sizeofNode.toNat + p.2.2.2 * sizeofPtr.toNat).getD 0

/-- The memory of the linked nodes is the sum over the chain. -/
private theorem Chain.totalMemory_eq (hc : Chain l order) :
    l.totalMemory = ((order.map (shapeAt l.nodes)).map shapeSize).sum := by
  have hwalk := walk_chain (show Chain l ([] ++ order) from hc)
    (show order.length ≤ l.nodes.length by rw [hc.length_eq]; omega)
  have hnext : l.forwardAt 0 0 = some order.head? := hc.forwardAt_zero (P := []) rfl
  have hshapes : order.map (shapeAt l.nodes) =
      ((walk l.nodes l.nodes.length order.head?).map some).map (Option.map Node.shape) := by
    rw [hwalk, List.map_map]
    rfl
  rw [totalMemory, linkedNodes, hnext, Option.join_some, hshapes, List.map_map, List.map_map]
  rfl

/-! ## The counter -/

/-- The counter is the memory of the nodes in the list, in 64 bits. -/
structure Accounted (l : SkipList) (order : List Nat) : Prop where
  chain : Chain l order
  memUsage_eq : l.memUsage = ((order.map (shapeAt l.nodes)).map shapeSize).sum.toUInt64

/-- A new list has no node but its head. -/
private theorem accounted_new (rng : Nat → Fin kMaxLevel) : Accounted (new rng) [] := by
  obtain ⟨order, hc, hes⟩ := holds_new rng
  obtain rfl : order = [] := List.map_eq_nil_iff.mp hes.symm
  exact ⟨hc, rfl⟩

/-- `Insert` keeps the account. A new node is added to the sum; of an overwritten one the old value
    is taken out and the new value put in. -/
theorem Accounted.insert (h : Accounted l order) (key value : Bytes) (tombstone : Bool) :
    ∃ l' order', l.insert key value tombstone = some l' ∧ Accounted l' order' := by
  obtain ⟨hc, hmem⟩ := h
  rcases insert_cases hc key value tombstone with
    ⟨pre, post, update, rfl, hs, hnew, hlen, hupdate, heq⟩ | ⟨pre, a, post, rfl, hs, -, heq⟩
  · -- a node more: the count goes up by what it takes
    have hht := (l.rng l.drawn).isLt
    have hc' : Chain { l with drawn := l.drawn + 1 } (pre ++ post) :=
      ⟨hc.1, hc.2, hc.3, hc.4, hc.5, hc.6, hc.7, hc.8, hc.9, hc.10⟩
    obtain ⟨l', hl', hchain, husage, hmap⟩ := addNode_spec hc' ⟨hs.lt, hs.ge⟩ hnew value tombstone
      hlen hupdate (show 1 ≤ (l.rng l.drawn).val + 1 by omega) (by omega)
    refine ⟨l', _, heq.trans hl', hchain, ?_⟩
    have hsum : ((pre ++ l.nodes.length :: post).map (shapeAt l'.nodes) |>.map shapeSize).sum =
        (((pre ++ post).map (shapeAt l.nodes)).map shapeSize).sum + (key.length + value.length +
          sizeofNode.toNat + ((l.rng l.drawn).val + 1) * sizeofPtr.toNat) := by
      rw [hmap]
      simp only [List.map_append, List.map_cons, List.sum_append, List.sum_cons, shapeSize,
        Option.map_some, Option.getD_some]
      omega
    rw [hsum, husage]
    show l.memUsage + _ = _
    rw [hmem]
    simp [Nat.toUInt64]
  · -- an overwritten value: the difference of the lengths, modulo `2 ^ 64`
    obtain ⟨l', n, hl', hchain, hn, husage, hmap⟩ := overwrite_spec hc value tombstone
    refine ⟨l', _, heq.trans hl', hchain, ?_⟩
    -- the sum without the value that is replaced
    obtain ⟨rest, hold, hnew⟩ : ∃ rest,
        (((pre ++ a :: post).map (shapeAt l.nodes)).map shapeSize).sum = rest + n.value.length ∧
        (((pre ++ a :: post).map (shapeAt l'.nodes)).map shapeSize).sum = rest + value.length := by
      refine ⟨((pre.map (shapeAt l.nodes)).map shapeSize).sum + (n.key.length + sizeofNode.toNat +
        n.forward.length * sizeofPtr.toNat) + ((post.map (shapeAt l.nodes)).map shapeSize).sum,
        ?_, ?_⟩
      · simp only [List.map_append, List.map_cons, List.sum_append, List.sum_cons, shapeSize,
          shapeAt_eq hn, Node.shape, Option.map_some, Option.getD_some]
        omega
      · rw [hmap]
        simp only [List.map_append, List.map_cons, List.sum_append, List.sum_cons, shapeSize,
          Option.map_some, Option.getD_some]
        omega
    rw [husage, hmem, hold, hnew]
    simp [Nat.toUInt64]

/-- The account after any sequence of writes, for any heights of the nodes. -/
private theorem accounted_writes (rng : Nat → Fin kMaxLevel) (writes : List Write) :
    ∃ l order, writes.foldlM Write.apply (new rng) = some l ∧ Accounted l order := by
  induction writes using List.reverseRecOn with
  | nil => exact ⟨new rng, [], rfl, accounted_new rng⟩
  | append_singleton writes w ih =>
    obtain ⟨l, order, hrun, hl⟩ := ih
    obtain ⟨l', order', hstep, hl'⟩ : ∃ l' order', w.apply l = some l' ∧ Accounted l' order' := by
      cases w with
      | put key value => exact hl.insert key value false
      | delete key => exact hl.insert key [] true
    refine ⟨l', order', ?_, hl'⟩
    rw [List.foldlM_append, hrun]
    simp [hstep]

/-- `ApproximateMemoryUsage` is exact: after any sequence of writes, and for any heights of the
    nodes, it is the memory of the nodes in the list, as long as that is below `2 ^ 64`. The value of
    a node, which is what an overwrite subtracts, is then never larger than the counter. -/
theorem memory_usage_exact (rng : Nat → Fin kMaxLevel) (writes : List Write) :
    ∃ l, writes.foldlM Write.apply (new rng) = some l ∧
      l.approximateMemoryUsage.toNat = l.totalMemory % 2 ^ 64 ∧
      (l.totalMemory < 2 ^ 64 → l.approximateMemoryUsage.toNat = l.totalMemory ∧
        ∀ n ∈ l.linkedNodes, n.value.length ≤ l.approximateMemoryUsage.toNat) := by
  obtain ⟨l, order, hrun, hl⟩ := accounted_writes rng writes
  have husage : l.approximateMemoryUsage.toNat = l.totalMemory % 2 ^ 64 := by
    rw [approximateMemoryUsage, hl.memUsage_eq, ← hl.chain.totalMemory_eq]
    exact UInt64.toNat_ofNat'
  refine ⟨l, hrun, husage, fun hlt => ?_⟩
  rw [Nat.mod_eq_of_lt hlt] at husage
  refine ⟨husage, fun n hn => ?_⟩
  -- the value is part of the footprint of its node
  have hle : n.footprint ≤ l.totalMemory := List.le_sum_of_mem (List.mem_map_of_mem hn)
  rw [husage]
  unfold Node.footprint at hle
  omega

/-- A key that is written twice and deleted, behind another one. -/
theorem memory_usage_exact_overwritten :
    let rng : Nat → Fin kMaxLevel := fun _ => ⟨1, by decide⟩
    let writes : List Write := [.put [1] [2], .put [3] [4, 5], .put [1] [6, 7, 8], .delete [3]]
    ∃ l, writes.foldlM Write.apply (new rng) = some l ∧
      l.approximateMemoryUsage.toNat = l.totalMemory := by
  intro rng writes
  obtain ⟨l, hrun, -, hexact⟩ := memory_usage_exact rng writes
  have hlt : (writes.foldlM Write.apply (new rng)).all
      (fun l => decide (l.totalMemory < 2 ^ 64)) = true := by decide +kernel
  rw [hrun] at hlt
  exact ⟨l, hrun, (hexact (of_decide_eq_true hlt)).1⟩

/-! ## The destructor -/

variable {nodes : List Node} {gone : List Nat} {a : Nat}

/-- The heap without the nodes that have been deleted. -/
def without (nodes : List Node) (gone : List Nat) : List (Option Node) :=
  nodes.mapIdx fun i n => if i ∈ gone then none else some n

/-- A node that is not freed is where it was. -/
theorem getElem?_without (nodes : List Node) (gone : List Nat) (a : Nat) :
    (without nodes gone)[a]? = nodes[a]?.map fun n => if a ∈ gone then none else some n := by
  rw [without, List.getElem?_mapIdx]

/-- A node that has not been deleted can be read. -/
theorem join_getElem?_without (ha : a ∉ gone) : (without nodes gone)[a]?.join = nodes[a]? := by
  rw [getElem?_without]
  simp only [ha, if_false]
  cases nodes[a]? <;> rfl

/-- A node that has not been deleted can be deleted. -/
private theorem free_without (ha : a ∉ gone) (hlt : a < nodes.length) :
    free (without nodes gone) a = some (without nodes (gone ++ [a])) := by
  rw [free, join_getElem?_without ha, List.getElem?_eq_getElem hlt]
  refine congrArg some (List.ext_getElem? fun i => ?_)
  rw [List.getElem?_set, getElem?_without, getElem?_without]
  by_cases hi : a = i
  · subst hi
    simp [without, hlt]
  · have hi' : i ≠ a := fun h => hi h.symm
    simp [hi, hi']

/-- The loop deletes the nodes of the chain one after the other. -/
private theorem destroyLoop_chain (hc : Chain l (pre ++ post)) {fuel : Nat} (hfuel : post.length ≤ fuel) :
    destroyLoop fuel (without l.nodes pre) post.head? = some (without l.nodes (pre ++ post)) := by
  induction post generalizing pre fuel with
  | nil => cases fuel <;> simp [destroyLoop]
  | cons a post ih =>
    cases fuel with
    | zero => simp at hfuel
    | succ fuel =>
      have hgone : a ∉ pre := by
        have hnodup := (List.nodup_cons.mp hc.nodup).2
        exact fun ha => List.disjoint_of_nodup_append hnodup ha List.mem_cons_self
      have hlt : a < l.nodes.length := hc.valid a (by simp)
      -- the pointer is read before the node is deleted
      have hnext : (l.nodes[a]?.bind fun n => n.forward[0]?) = some post.head? :=
        hc.forwardAt_zero (P := 0 :: pre) (R := post) (by simp)
      have hrest := @ih (pre ++ [a]) (by simpa using hc) fuel (by simpa using hfuel)
      rw [List.append_assoc, List.singleton_append] at hrest
      obtain ⟨n, hn, hforward⟩ := Option.bind_eq_some_iff.mp hnext
      simp only [List.head?_cons, destroyLoop, join_getElem?_without hgone, free_without hgone hlt, hn,
        hforward, bind, Option.bind, hrest]

/-- Every node that has been allocated is the head or in the chain. -/
private theorem Chain.mem_of_lt (hc : Chain l order) (ha : a < l.nodes.length) : a ∈ 0 :: order := by
  have hsub : 0 :: order ⊆ List.range l.nodes.length :=
    fun b hb => List.mem_range.mpr (hc.lt_length b hb)
  have hperm := (List.subperm_of_subset hc.nodup hsub).perm_of_length_le (by
    rw [List.length_range, hc.length_eq, List.length_cons])
  exact hperm.mem_iff.mpr (List.mem_range.mpr ha)

/-- The destructor frees every node. -/
private theorem Chain.destroy_eq (hc : Chain l order) :
    l.destroy = some (List.replicate l.nodes.length none) := by
  have hhead : (l.nodes[0]?.bind fun n => n.forward[0]?) = some order.head? :=
    hc.forwardAt_zero (P := []) rfl
  obtain ⟨n, hn, hforward⟩ := Option.bind_eq_some_iff.mp hhead
  have hheap : l.nodes.map some = without l.nodes [] := by
    refine List.ext_getElem? fun i => ?_
    simp [getElem?_without]
  -- the loop frees the nodes of the chain
  have hloop : destroyLoop l.nodes.length (without l.nodes []) order.head? = some (without l.nodes order) :=
    destroyLoop_chain (show Chain l ([] ++ order) from hc) (by rw [hc.length_eq]; omega)
  -- and the head comes last
  have hlast : free (without l.nodes order) 0 = some (without l.nodes (order ++ [0])) :=
    free_without (List.nodup_cons.mp hc.nodup).1 (hc.lt_length 0 List.mem_cons_self)
  -- there are no other nodes
  have hall : without l.nodes (order ++ [0]) = List.replicate l.nodes.length none := by
    refine List.eq_replicate_iff.mpr ⟨by simp [without], fun x hx => ?_⟩
    obtain ⟨i, hi, rfl⟩ := List.getElem_of_mem hx
    have hlt : i < l.nodes.length := by simpa [without] using hi
    have hmem := hc.mem_of_lt hlt
    simp only [without, List.getElem_mapIdx]
    rw [if_pos]
    simpa [or_comm] using hmem
  simp only [destroy, hheap, join_getElem?_without List.not_mem_nil, hn, hforward, hloop, hlast, hall,
    bind, Option.bind]

/-- After any sequence of writes, and for any heights of the nodes, the destructor reads and
    deletes only nodes that are still there, and deletes all of them. -/
theorem destructor_frees_each_node_once (rng : Nat → Fin kMaxLevel) (writes : List Write) :
    ∃ l, writes.foldlM Write.apply (new rng) = some l ∧
      l.destroy = some (List.replicate l.nodes.length none) := by
  obtain ⟨l, es, hrun, ⟨order, hc, -⟩, -⟩ := holds_writes rng writes
  exact ⟨l, hrun, hc.destroy_eq⟩

end SkipList

end Lsmdb
