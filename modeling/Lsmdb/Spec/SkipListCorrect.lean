import Lsmdb.Native.SkipList
import Lsmdb.Spec.KeyValueMap

/-!
# The skip list is a sorted map

The nodes of a skip list form a chain in key order behind the head. On level `i` the
nodes of height more than `i` are linked in the order of the chain (`Linked`), so the
search of one level can be described without pointers: it stops at the last node of
the level whose key is smaller than the target (`advance_eq`). From this follows that
`Insert` is insertion into the sorted map of the chain's records, and that lookup and
iteration are those of the map, whatever heights are drawn.
-/

namespace Lsmdb

namespace SkipList

open SortedMap Cursor

/-! ## The chain -/

/-- The height of the node at an address. -/
def height (nodes : List Node) (a : Nat) : Nat := (nodes[a]?.map (·.forward.length)).getD 0

/-- The key of the node at an address. -/
def keyAt (nodes : List Node) (a : Nat) : Bytes := (nodes[a]?.map (·.key)).getD []

/-- Whether a node is linked on level `i`. -/
def onLevel (nodes : List Node) (i a : Nat) : Bool := decide (i < height nodes a)

/-- The pointer of a node on level `i`. -/
def pointer (nodes : List Node) (a i : Nat) : Option (Option Nat) := nodes[a]?.bind (·.forward[i]?)

/-- Every pointer leads to the next node of its level. -/
def Linked (nodes : List Node) (chain : List Nat) : Prop :=
  ∀ P a R, chain = P ++ a :: R → ∀ i < height nodes a,
    pointer nodes a i = some (R.filter (onLevel nodes i)).head?

/-- The last node of level `i` in a part of the chain. -/
def lastAt (nodes : List Node) (i : Nat) (chain : List Nat) : Option Nat :=
  (chain.filter (onLevel nodes i)).getLast?

/-- The nodes behind the head, in order. -/
structure Chain (l : SkipList) (order : List Nat) : Prop where
  head_height : height l.nodes 0 = kMaxLevel
  length_eq : l.nodes.length = order.length + 1
  nodup : (0 :: order).Nodup
  valid : ∀ a ∈ order, a < l.nodes.length
  heights : ∀ a ∈ order, 1 ≤ height l.nodes a ∧ height l.nodes a ≤ l.level
  level_pos : 1 ≤ l.level
  level_le : l.level ≤ kMaxLevel
  sorted : order.Pairwise fun a b => keyAt l.nodes a < keyAt l.nodes b
  linked : Linked l.nodes (0 :: order)
  count_eq : l.count = order.length

variable {l : SkipList} {nodes : List Node} {order pre post : List Nat} {key : Bytes}

/-- A node is on the levels below its height. -/
theorem onLevel_iff {i a : Nat} : onLevel nodes i a = true ↔ i < height nodes a := by
  simp [onLevel]

/-- The last node of a level, seen from a node that is on it. -/
theorem lastAt_append_cons {P R : List Nat} {a i : Nat} (ha : i < height nodes a) :
    lastAt nodes i (P ++ a :: R) = some ((R.filter (onLevel nodes i)).getLast?.getD a) := by
  have hf : (P ++ a :: R).filter (onLevel nodes i) =
      P.filter (onLevel nodes i) ++ a :: R.filter (onLevel nodes i) := by
    rw [List.filter_append, List.filter_cons_of_pos (onLevel_iff.mpr ha)]
  rw [lastAt, hf, List.getLast?_append, List.getLast?_cons]
  rfl

/-- The last node of a level splits the chain. -/
theorem exists_of_lastAt {chain : List Nat} {i a : Nat} (h : lastAt nodes i chain = some a) :
    i < height nodes a ∧ ∃ P R, chain = P ++ a :: R ∧ R.filter (onLevel nodes i) = [] := by
  obtain ⟨ys, hys⟩ := List.getLast?_eq_some_iff.mp h
  obtain ⟨L, Q, rfl, -, hQ⟩ := List.filter_eq_append_iff.mp hys
  obtain ⟨M, R, rfl, hM, ha, hR⟩ := List.filter_eq_cons_iff.mp hQ
  exact ⟨onLevel_iff.mp ha, L ++ M, R, by simp, hR⟩

/-! ## The search of one level -/

/-- The chain is split at a key: smaller keys before, the others behind. -/
structure Splits (l : SkipList) (pre post : List Nat) (key : Bytes) : Prop where
  lt : ∀ a ∈ pre, keyAt l.nodes a < key
  ge : ∀ a ∈ post, key ≤ keyAt l.nodes a

/-- The search of a level, from a node of it among the smaller ones, stops at the last node of
    the level among the smaller ones. -/
private theorem advance_eq (h : Chain l (pre ++ post)) (hs : Splits l pre post key) {i : Nat}
    {P R : List Nat} {x fuel : Nat} (hx : 0 :: pre = P ++ x :: R) (hi : i < height l.nodes x)
    (hfuel : R.length < fuel) :
    l.advance key i fuel x = lastAt l.nodes i (0 :: pre) := by
  -- induction on the fuel, which bounds the nodes still ahead of `x`
  induction fuel generalizing P R x with
  | zero => omega
  | succ fuel ih =>
    have hchain : 0 :: (pre ++ post) = P ++ x :: (R ++ post) := by
      rw [← List.cons_append, hx]
      simp
    have hfwd : l.forwardAt x i = some ((R ++ post).filter (onLevel l.nodes i)).head? :=
      h.linked P x (R ++ post) hchain i hi
    have hvalid {a : Nat} (ha : a ∈ pre ++ post) : ∃ n, l.nodes[a]? = some n ∧ n.key =
        keyAt l.nodes a := by
      refine ⟨_, List.getElem?_eq_getElem (h.valid a ha), ?_⟩
      simp [keyAt, List.getElem?_eq_getElem (h.valid a ha)]
    rw [List.filter_append] at hfwd
    rw [hx, lastAt_append_cons hi]
    rcases hRf : R.filter (onLevel l.nodes i) with _ | ⟨y, R₂f⟩
    · -- nothing left on this level before the key: the next node is not smaller
      rw [hRf, List.nil_append] at hfwd
      simp only [advance, hfwd, bind, Option.bind]
      rcases hpf : (post.filter (onLevel l.nodes i)).head? with _ | z
      · rfl
      · have hz : z ∈ post := (List.mem_filter.mp (List.mem_of_mem_head? hpf)).1
        obtain ⟨n, hn, hkey⟩ := hvalid (List.mem_append_right _ hz)
        have hnot : ¬ n.key < key := by
          rw [hkey]
          exact not_lt.mpr (hs.ge z hz)
        simp only [hn, if_neg hnot]
        rfl
    · -- the next node of the level is smaller: go on from there
      rw [hRf] at hfwd
      obtain ⟨R₁, R₂, hR, hR₁, hy, hR₂⟩ := List.filter_eq_cons_iff.mp hRf
      -- `y` is not the head, which stands first and only once
      have hypre : y ∈ 0 :: pre := by
        rw [hx, hR]
        simp
      have hy0 : y ≠ 0 := by
        have hnd := h.nodup
        rw [hchain, hR] at hnd
        rintro rfl
        rcases P with _ | ⟨p, P⟩
        · cases hx
          simp at hnd
        · cases hx
          simp at hnd
      have hypre' : y ∈ pre := (List.mem_cons.mp hypre).resolve_left hy0
      obtain ⟨n, hn, hkey⟩ := hvalid (List.mem_append_left _ hypre')
      have hlt : n.key < key := by
        rw [hkey]
        exact hs.lt y hypre'
      have hsplit : 0 :: pre = (P ++ x :: R₁) ++ y :: R₂ := by
        rw [hx, hR]
        simp
      have hlen : R₂.length < fuel := by
        rw [hR, List.length_append, List.length_cons] at hfuel
        omega
      have := ih hsplit (onLevel_iff.mp hy) hlen
      simp only [advance, hfwd, bind, Option.bind, List.cons_append, List.head?_cons, hn,
        if_pos hlt, this]
      rw [hsplit, lastAt_append_cons (onLevel_iff.mp hy), hR₂]
      simp [List.getLast?_cons]

/-! ## The search of all levels -/

/-- Every level has a last node before the key, because the head is on all of them. -/
private theorem lastAt_isSome (h : Chain l (pre ++ post)) {i : Nat} (hi : i < kMaxLevel) :
    ∃ x P R, lastAt l.nodes i (0 :: pre) = some x ∧ 0 :: pre = P ++ x :: R ∧
      i < height l.nodes x := by
  have h0 : i < height l.nodes 0 := h.head_height ▸ hi
  obtain ⟨x, hx⟩ : ∃ x, lastAt l.nodes i (0 :: pre) = some x := ⟨_, lastAt_append_cons (P := []) h0⟩
  obtain ⟨hxi, P, R, heq, -⟩ := exists_of_lastAt hx
  exact ⟨x, P, R, hx, heq, hxi⟩

/-- The search of the levels below `n`: `update` records the last smaller node of each. -/
private theorem descend_eq (h : Chain l (pre ++ post)) (hs : Splits l pre post key) {n : Nat}
    {P R : List Nat} {x : Nat} {update : List Nat} (hx : 0 :: pre = P ++ x :: R)
    (hn : n ≤ height l.nodes x) (hmax : n ≤ kMaxLevel) (hlen : update.length = kMaxLevel) :
    ∃ x' update', l.descend key n x update = some (x', update') ∧ update'.length = kMaxLevel ∧
      (∀ j < n, update'[j]? = lastAt l.nodes j (0 :: pre)) ∧
      (∀ j, n ≤ j → update'[j]? = update[j]?) ∧
      (0 < n → lastAt l.nodes 0 (0 :: pre) = some x') := by
  induction n generalizing P R x update with
  | zero => exact ⟨x, update, rfl, hlen, by simp, by simp, by simp⟩
  | succ n ih =>
    -- on level `n` the walk ends at the last smaller node, which is where the next level starts
    obtain ⟨y, P', R', hy, hsplit, hny⟩ := lastAt_isSome h (show n < kMaxLevel by omega)
    -- the nodes ahead are fewer than the nodes of the list, which is the fuel
    have hR : R.length < l.nodes.length := by
      have h₁ := congrArg List.length hx
      have h₂ := h.length_eq
      simp only [List.length_cons, List.length_append] at h₁ h₂
      omega
    have hadv : l.advance key n l.nodes.length x = some y := by
      rw [advance_eq h hs hx (by omega) hR, hy]
    obtain ⟨x', update', hdesc, hlen', hlow, hhigh, hlast⟩ :=
      ih hsplit hny.le (by omega) (show (update.set n y).length = kMaxLevel by simpa using hlen)
    refine ⟨x', update', ?_, hlen', fun j hj => ?_, fun j hj => ?_, fun _ => ?_⟩
    · simp only [descend, hadv, bind, Option.bind]
      exact hdesc
    · -- level `n` was recorded just now, the lower ones below
      rcases Nat.lt_succ_iff_lt_or_eq.mp hj with hj | rfl
      · exact hlow j hj
      · rw [hhigh j le_rfl, List.getElem?_set_self (by omega), hy]
    -- the levels above are not touched
    · rw [hhigh j (by omega), List.getElem?_set_ne (by omega)]
    · cases n with
      | zero =>
        simp only [descend] at hdesc
        cases hdesc
        exact hy
      | succ n => exact hlast (by omega)

/-- The search of `Insert`, `Get` and `Seek`: all levels record their last smaller node, and the
    node behind the place where the search ends is the first that is not smaller. -/
theorem search_eq (h : Chain l (pre ++ post)) (hs : Splits l pre post key) :
    ∃ x update, l.descend key l.level 0 (List.replicate kMaxLevel 0) = some (x, update) ∧
      update.length = kMaxLevel ∧
      (∀ j < kMaxLevel, update[j]? = lastAt l.nodes j (0 :: pre)) ∧
      l.forwardAt x 0 = some post.head? := by
  obtain ⟨x, update, hdesc, hlen, hlow, hhigh, hlast⟩ := descend_eq h hs (P := []) (x := 0) rfl
    (by rw [h.head_height]; exact h.level_le) h.level_le (List.length_replicate)
  refine ⟨x, update, hdesc, hlen, fun j hj => ?_, ?_⟩
  · by_cases hjl : j < l.level
    · exact hlow j hjl
    · -- no node but the head is that high
      have hnone : pre.filter (onLevel l.nodes j) = [] := by
        rw [List.filter_eq_nil_iff]
        intro a ha
        have := (h.heights a (List.mem_append_left _ ha)).2
        simp only [onLevel_iff]
        omega
      have h0 : j < height l.nodes 0 := by rw [h.head_height]; exact hj
      have hlast0 := lastAt_append_cons (P := []) (R := pre) h0
      rw [hnone] at hlast0
      rw [hhigh j (by omega), List.getElem?_replicate, if_pos hj]
      exact hlast0.symm
  · -- on the lowest level every node counts, so the next one is the first that is not smaller
    obtain ⟨hx0, P, R, hsplit, hR⟩ := exists_of_lastAt (hlast h.level_pos)
    have hchain : 0 :: (pre ++ post) = P ++ x :: (R ++ post) := by
      rw [← List.cons_append, hsplit]
      simp
    have hpost : post.filter (onLevel l.nodes 0) = post := by
      rw [List.filter_eq_self]
      intro a ha
      exact onLevel_iff.mpr (h.heights a (List.mem_append_right _ ha)).1
    have hfwd := h.linked P x (R ++ post) hchain 0 hx0
    rwa [List.filter_append, hR, List.nil_append, hpost] at hfwd

/-- Every key splits the chain. -/
theorem exists_splits (h : Chain l order) (key : Bytes) :
    ∃ pre post, order = pre ++ post ∧ Splits l pre post key := by
  -- by induction on the nodes in their order
  have hpart : ∀ order : List Nat, order.Pairwise (fun a b => keyAt l.nodes a < keyAt l.nodes b) →
      ∃ pre post, order = pre ++ post ∧ Splits l pre post key := by
    intro order hsorted
    induction order with
    | nil => exact ⟨[], [], rfl, by simp, by simp⟩
    | cons a order ih =>
      obtain ⟨ha, horder⟩ := List.pairwise_cons.mp hsorted
      by_cases hlt : keyAt l.nodes a < key
      · obtain ⟨pre, post, rfl, hpre, hpost⟩ := ih horder
        refine ⟨a :: pre, post, rfl, ?_, hpost⟩
        intro b hb
        rcases List.mem_cons.mp hb with rfl | hb
        · exact hlt
        · exact hpre b hb
      · refine ⟨[], a :: order, rfl, by simp, ?_⟩
        have hge : key ≤ keyAt l.nodes a := not_lt.mp hlt
        intro b hb
        rcases List.mem_cons.mp hb with rfl | hb
        · exact hge
        · exact hge.trans (ha b hb).le
  exact hpart order h.sorted

/-! ## The map of the chain -/

/-- The record of the node at an address. -/
def entryAt (nodes : List Node) (a : Nat) : Entry :=
  (nodes[a]?.map Node.entry).getD ⟨[], [], .value⟩

/-- The entry of an address is that of the node there. -/
theorem entryAt_eq {a : Nat} {n : Node} (h : nodes[a]? = some n) : entryAt nodes a = n.entry := by
  simp [entryAt, h]

/-- The flag of a node is the type of its entry. -/
private theorem isTombstone_entry (n : Node) : n.entry.isTombstone = n.isTombstone := by
  cases hn : n.isTombstone <;> simp [Node.entry, Entry.isTombstone, hn, ValueType.value,
    ValueType.tombstone]

/-- The key of the entry is the key of the node. -/
theorem key_entryAt (nodes : List Node) (a : Nat) : (entryAt nodes a).key = keyAt nodes a := by
  cases h : nodes[a]? <;> simp [entryAt, keyAt, h, Node.entry]

/-- The skip list holds the sorted map `es`. -/
def Holds (l : SkipList) (es : List Entry) : Prop :=
  ∃ order, Chain l order ∧ es = order.map (entryAt l.nodes)

/-- The entries of the chain are in ascending order. -/
theorem Holds.sorted {es : List Entry} (h : Holds l es) : Sorted Entry.key es := by
  obtain ⟨order, hc, rfl⟩ := h
  rw [Sorted, List.pairwise_map]
  simpa only [key_entryAt] using hc.sorted

/-- `Size()` is the number of entries. -/
theorem Holds.size_eq {es : List Entry} (h : Holds l es) : l.size = es.length := by
  obtain ⟨order, hc, rfl⟩ := h
  rw [size, hc.count_eq, List.length_map]

/-- Every record has a node, and so has the head. -/
theorem Holds.length_lt {es : List Entry} (h : Holds l es) : es.length < l.nodes.length := by
  obtain ⟨order, hc, rfl⟩ := h
  rw [List.length_map, hc.length_eq]
  exact Nat.lt_succ_self _

/-- The empty list. -/
theorem holds_new (rng : Nat → Fin kMaxLevel) : Holds (new rng) [] := by
  refine ⟨[], ⟨rfl, rfl, by simp, by simp, by simp, le_rfl, ?_, List.Pairwise.nil, ?_, rfl⟩,
    rfl⟩
  · show 1 ≤ 16
    decide
  -- the chain has only the head, with null pointers on every level
  intro P a R heq i hi
  obtain ⟨rfl, rfl, rfl⟩ : P = [] ∧ a = 0 ∧ R = [] := by
    rcases P with _ | ⟨p, P⟩
    · cases heq
      exact ⟨rfl, rfl, rfl⟩
    · simp at heq
  have hi' : i < kMaxLevel := hi
  show (List.replicate kMaxLevel none)[i]? = some none
  rw [List.getElem?_replicate, if_pos hi']

/-! ## Lookup and iteration -/

/-- The key is not among the nodes before it. -/
private theorem Splits.find_pre (hs : Splits l pre post key) :
    find Entry.key key (pre.map (entryAt l.nodes)) = none := by
  refine find_eq_none_of_gt fun e he => ?_
  obtain ⟨a, ha, rfl⟩ := List.mem_map.mp he
  rw [key_entryAt]
  exact hs.lt a ha

/-- `Get` is lookup in the map. -/
theorem Holds.get_eq {es : List Entry} (h : Holds l es) (k : Bytes) :
    l.get k = some (lookup es k) := by
  obtain ⟨order, hc, rfl⟩ := h
  obtain ⟨pre, post, rfl, hs⟩ := exists_splits hc k
  obtain ⟨x, update, hdesc, -, -, hnext⟩ := search_eq hc hs
  rw [List.map_append, lookup_append_of_absent hs.find_pre]
  simp only [SkipList.get, hdesc, hnext, bind, Option.bind]
  cases post with
  | nil => rfl
  | cons a post =>
    -- the node the search has stopped at
    obtain ⟨n, hn⟩ : ∃ n, l.nodes[a]? = some n :=
      ⟨_, List.getElem?_eq_getElem (hc.valid a (by simp))⟩
    have hkey : (entryAt l.nodes a).key = n.key := by rw [entryAt_eq hn]; rfl
    simp only [List.head?_cons, hn, List.map_cons, lookup, find_cons, hkey, pure]
    by_cases heq : n.key = k
    · rw [if_pos heq, if_pos heq, Option.elim_some, entryAt_eq hn, Entry.result,
        isTombstone_entry]
      rfl
    · -- the first node that is not smaller has another key, and the others are larger
      have hnone : find Entry.key k (post.map (entryAt l.nodes)) = none := by
        refine find_eq_none_of_lt fun e he => ?_
        obtain ⟨b, hb, rfl⟩ := List.mem_map.mp he
        have hab := (List.pairwise_cons.mp (List.pairwise_append.mp hc.sorted).2.1).1 b hb
        rw [key_entryAt]
        exact (hs.ge a List.mem_cons_self).trans_lt hab
      rw [if_neg heq, if_neg heq, hnone]
      rfl

/-- The bottom level links all nodes. -/
theorem Chain.forwardAt_zero (hc : Chain l order) {P R : List Nat} {a : Nat}
    (h : 0 :: order = P ++ a :: R) : l.forwardAt a 0 = some R.head? := by
  -- every node is on level 0
  have hheight : ∀ b ∈ 0 :: order, 0 < height l.nodes b := by
    intro b hb
    rcases List.mem_cons.mp hb with rfl | hb
    · rw [hc.head_height]
      decide
    · exact (hc.heights b hb).1
  have hfwd := hc.linked P a R h 0 (hheight a (by rw [h]; simp))
  have hall : R.filter (onLevel l.nodes 0) = R := by
    rw [List.filter_eq_self]
    intro b hb
    exact onLevel_iff.mpr (hheight b (by rw [h]; simp [hb]))
  rw [hall] at hfwd
  exact hfwd

/-- An iterator on the first node of a part of the chain yields that part. -/
private theorem yields_of_chain (hc : Chain l (pre ++ post)) :
    Yields Status.OK (⟨l, post.head?⟩ : Iterator) (post.map (entryAt l.nodes)) .OK := by
  induction post generalizing pre with
  | nil => exact ⟨rfl, rfl⟩
  | cons a post ih =>
    obtain ⟨n, hn⟩ : ∃ n, l.nodes[a]? = some n :=
      ⟨_, List.getElem?_eq_getElem (hc.valid a (by simp))⟩
    have hnext : l.forwardAt a 0 = some post.head? := hc.forwardAt_zero (P := 0 :: pre) (by simp)
    have hc' : Chain l ((pre ++ [a]) ++ post) := by simpa using hc
    refine ⟨?_, rfl, ⟨l, post.head?⟩, ?_, ih hc'⟩
    · simp [Cursor.head, hn, entryAt_eq hn]
    · simp [Cursor.next, Iterator.next, hnext]

/-- `SeekToFirst` and `Next` visit the map in order. -/
theorem Holds.seekToFirst_yields {es : List Entry} (h : Holds l es) :
    ∃ it, l.newIterator.seekToFirst = some it ∧ Yields .OK it es .OK := by
  obtain ⟨order, hc, rfl⟩ := h
  have hnext : l.forwardAt 0 0 = some order.head? := hc.forwardAt_zero (P := []) rfl
  refine ⟨⟨l, order.head?⟩, ?_, yields_of_chain (show Chain l ([] ++ order) from hc)⟩
  simp [Iterator.seekToFirst, newIterator, hnext]

/-- `Seek` positions the iterator on the part of the map from the target on. -/
theorem Holds.seek_yields {es : List Entry} (h : Holds l es) (target : Bytes)
    {it : Iterator} (hit : it.list = l) :
    ∃ it', it.seek target = some it' ∧ Yields .OK it' (fromKey Entry.key target es) .OK := by
  obtain ⟨order, hc, rfl⟩ := h
  obtain ⟨pre, post, rfl, hs⟩ := exists_splits hc target
  obtain ⟨x, update, hdesc, -, -, hnext⟩ := search_eq hc hs
  -- the nodes before the target are dropped and the others are kept
  have hfrom : fromKey Entry.key target ((pre ++ post).map (entryAt l.nodes)) =
      post.map (entryAt l.nodes) := by
    rw [List.map_append, fromKey_append_of_lt, fromKey, List.filter_eq_self]
    · intro e he
      obtain ⟨a, ha, rfl⟩ := List.mem_map.mp he
      simpa [key_entryAt] using hs.ge a ha
    · intro e he
      obtain ⟨a, ha, rfl⟩ := List.mem_map.mp he
      rw [key_entryAt]
      exact hs.lt a ha
  refine ⟨⟨l, post.head?⟩, ?_, ?_⟩
  · subst hit
    simp [Iterator.seek, hdesc, hnext]
  · rw [hfrom]
    exact yields_of_chain hc

/-! ## Insertion -/

/-- A node less its pointers. -/
def Node.shape (n : Node) : Bytes × Bytes × Bool × Nat :=
  (n.key, n.value, n.isTombstone, n.forward.length)

/-- Nodes that differ in their pointers only. -/
def SameShape (nodes nodes' : List Node) : Prop :=
  ∀ a : Nat, nodes'[a]?.map Node.shape = nodes[a]?.map Node.shape

/-- No pointer set. -/
theorem SameShape.refl (nodes : List Node) : SameShape nodes nodes := fun _ => rfl

/-- Pointers set one after the other. -/
theorem SameShape.trans {n₁ n₂ n₃ : List Node} (h₁ : SameShape n₁ n₂) (h₂ : SameShape n₂ n₃) :
    SameShape n₁ n₃ := fun a => (h₂ a).trans (h₁ a)

/-- The node at an address, less its pointers. -/
def shapeAt (nodes : List Node) (a : Nat) : Option (Bytes × Bytes × Bool × Nat) :=
  nodes[a]?.map Node.shape

/-- The shape of an address is that of the node there. -/
theorem shapeAt_eq {a : Nat} {n : Node} (h : nodes[a]? = some n) :
    shapeAt nodes a = some n.shape := by
  rw [shapeAt, h, Option.map_some]

/-- The height is part of the shape. -/
private theorem height_eq_shape (nodes : List Node) (a : Nat) :
    height nodes a = ((shapeAt nodes a).map fun p => p.2.2.2).getD 0 := by
  rw [shapeAt, Option.map_map]
  rfl

/-- The record that a node holds, from its shape. -/
def shapeEntry (shape : Option (Bytes × Bytes × Bool × Nat)) : Entry :=
  (shape.map fun p => ⟨p.1, p.2.1, if p.2.2.1 then .tombstone else .value⟩).getD ⟨[], [], .value⟩

/-- The entry is determined by the shape. -/
private theorem entryAt_eq_shape (nodes : List Node) (a : Nat) :
    entryAt nodes a = shapeEntry (shapeAt nodes a) := by
  rw [shapeAt, shapeEntry, Option.map_map]
  rfl

/-- The records of a chain, from the shapes of its nodes. -/
theorem map_entryAt (nodes : List Node) (order : List Nat) :
    order.map (entryAt nodes) = (order.map (shapeAt nodes)).map shapeEntry := by
  rw [List.map_map]
  exact List.map_congr_left fun a _ => entryAt_eq_shape nodes a

/-- The keys of a chain are determined by the shapes of its nodes. -/
theorem map_keyAt (nodes : List Node) (order : List Nat) :
    order.map (keyAt nodes) = (order.map (shapeAt nodes)).map fun shape => (shapeEntry shape).key := by
  rw [List.map_map]
  apply List.map_congr_left
  intro a _
  rw [Function.comp, ← entryAt_eq_shape, key_entryAt]

/-- Only pointers change, so every shape is the same. -/
theorem SameShape.shapeAt_eq {nodes' : List Node} (h : SameShape nodes nodes') (a : Nat) :
    shapeAt nodes' a = shapeAt nodes a := h a

/-- Heights are part of the shape. -/
theorem SameShape.height_eq {nodes' : List Node} (h : SameShape nodes nodes') (a : Nat) :
    height nodes' a = height nodes a := by
  rw [height_eq_shape, h.shapeAt_eq, height_eq_shape]

/-- So are the levels a node is on. -/
private theorem SameShape.onLevel_eq {nodes' : List Node} (h : SameShape nodes nodes') (i : Nat) :
    onLevel nodes' i = onLevel nodes i := by
  funext a
  rw [onLevel, onLevel, h.height_eq]

/-- No node is added. -/
theorem SameShape.length_eq {nodes' : List Node} (h : SameShape nodes nodes') :
    nodes'.length = nodes.length := by
  apply Nat.le_antisymm <;> refine Nat.le_of_not_lt fun hlt => ?_
  · have := h nodes.length
    rw [List.getElem?_eq_none le_rfl, List.getElem?_eq_getElem hlt] at this
    simp at this
  · have := h nodes'.length
    rw [List.getElem?_eq_none le_rfl, List.getElem?_eq_getElem hlt] at this
    simp at this

/-- Setting `x->forward[i]` changes nothing but a pointer. -/
private theorem sameShape_setForward (nodes : List Node) (x i : Nat) (next : Option Nat) :
    SameShape nodes (setForward nodes x i next) := by
  intro a
  rw [setForward, List.getElem?_modify]
  cases nodes[a]? with
  | none => rfl
  | some n =>
    by_cases hx : x = a <;> simp [hx, Node.shape]

/-- Setting `x->forward[i]` changes that pointer and no other. -/
private theorem pointer_setForward {x i : Nat} (hi : i < height nodes x) (next : Option Nat) (a j : Nat) :
    pointer (setForward nodes x i next) a j =
      if a = x ∧ j = i then some next else pointer nodes a j := by
  simp only [pointer, setForward, List.getElem?_modify]
  by_cases hx : x = a
  · subst hx
    cases hn : nodes[x]? with
    | none => simp [height, hn] at hi
    | some n =>
      have hi' : i < n.forward.length := by simpa [height, hn] using hi
      -- the same pointer, or another one of the node
      by_cases hj : j = i
      · subst hj
        simp [hi']
      · simp [List.getElem?_set_ne (Ne.symm hj), hj]
  · cases nodes[a]? <;> simp [hx, Ne.symm hx]

/-- The pointers after the first `n` levels of a new node `a` were linked: its own lead to the
    first nodes that are not smaller, and the last smaller nodes lead to it. -/
structure LinkedUpTo (nodes : List Node) (pre post : List Nat) (a n : Nat) (nodes' : List Node) :
    Prop where
  shape : SameShape nodes nodes'
  new_pointer : ∀ j < n, pointer nodes' a j = some (post.filter (onLevel nodes j)).head?
  pointer_eq : ∀ b j, b ≠ a → pointer nodes' b j =
    if j < n ∧ lastAt nodes j (0 :: pre) = some b then some (some a) else pointer nodes b j

/-- The linking loop. On each level the last smaller node still has its old pointer when its turn
    comes, since the loop has only touched lower levels. -/
private theorem foldlM_linkAt {a h : Nat} {update : List Nat} (hlinked : Linked nodes (0 :: (pre ++ post)))
    (ha : a ∉ 0 :: pre) (hheight : height nodes a = h)
    (hupdate : ∀ j < h, ∃ u, update[j]? = some u ∧ lastAt nodes j (0 :: pre) = some u) {n : Nat}
    (hn : n ≤ h) :
    ∃ nodes', (List.range n).foldlM (linkAt update a) nodes = some nodes' ∧
      LinkedUpTo nodes pre post a n nodes' := by
  induction n with
  | zero => exact ⟨nodes, rfl, SameShape.refl _, by simp, by simp⟩
  | succ n ih =>
    obtain ⟨nodes', hfold, hshape, hnew, hptr⟩ := ih (by omega)
    obtain ⟨u, hu, hlast⟩ := hupdate n (by omega)
    obtain ⟨hun, P, R, hsplit, hR⟩ := exists_of_lastAt hlast
    -- the predecessor is an old node
    have hua : u ≠ a := by
      rintro rfl
      exact ha (hsplit ▸ by simp)
    -- the pointer that the new node takes over
    have hnext : pointer nodes' u n = some (post.filter (onLevel nodes n)).head? := by
      have hchain : 0 :: (pre ++ post) = P ++ u :: (R ++ post) := by
        rw [← List.cons_append, hsplit]
        simp
      rw [hptr u n hua, if_neg (by simp), hlinked P u (R ++ post) hchain n hun, List.filter_append,
        hR, List.nil_append]
    set next := (post.filter (onLevel nodes n)).head? with hnextDef
    have hlink : linkAt update a nodes' n =
        some (setForward (setForward nodes' a n next) u n (some a)) := by
      obtain ⟨node, hnode, hfwd⟩ := Option.bind_eq_some_iff.mp hnext
      simp only [linkAt, hu, hnode, hfwd, bind, Option.bind]
      rfl
    -- the two assignments change one pointer each
    have hshape' := hshape.trans (sameShape_setForward nodes' a n next)
    have hptr' (b j : Nat) := pointer_setForward
      (show n < height nodes' a by rw [hshape.height_eq, hheight]; omega) next b j
    have hptr'' (b j : Nat) := pointer_setForward
      (show n < height (setForward nodes' a n next) u by rw [hshape'.height_eq]; exact hun)
      (some a) b j
    refine ⟨_, ?_, hshape'.trans (sameShape_setForward _ u n (some a)), fun j hj => ?_,
      fun b j hb => ?_⟩
    · rw [List.range_succ, List.foldlM_append, hfold]
      simp only [bind, Option.bind, List.foldlM_cons, List.foldlM_nil, hlink]
      rfl
    -- the pointers of the new node: this level has just been set
    · rw [hptr'', if_neg fun h => hua h.1.symm, hptr']
      rcases Nat.lt_succ_iff_lt_or_eq.mp hj with hj | rfl
      · rw [if_neg (by omega)]
        exact hnew j hj
      · rw [if_pos ⟨rfl, rfl⟩]
    -- the pointers of the others: on this level only the predecessor's is new
    · rw [hptr'', hptr', hptr b j hb]
      by_cases hj : j = n
      · subst hj
        by_cases hbu : b = u
        · subst hbu
          simp [hlast]
        · have hne : lastAt nodes j (0 :: pre) ≠ some b := by
            rw [hlast]
            exact fun h => hbu (Option.some.inj h).symm
          simp [hbu, hb, hne]
      · have hiff : j < n + 1 ↔ j < n := by omega
        simp [hj, hiff]

/-- A new node does not disturb the others. -/
theorem getElem?_append_node {a : Nat} (ha : a < nodes.length) (n : Node) :
    (nodes ++ [n])[a]? = nodes[a]? := List.getElem?_append_left ha

/-- A new node does not change the heights of the others. -/
theorem height_append {a : Nat} (ha : a < nodes.length) (n : Node) :
    height (nodes ++ [n]) a = height nodes a := by
  rw [height, height, getElem?_append_node ha]

/-- Nor the levels of a chain that does not contain it. -/
private theorem filter_onLevel_append {chain : List Nat} (hc : ∀ a ∈ chain, a < nodes.length) (n : Node)
    (i : Nat) : chain.filter (onLevel (nodes ++ [n]) i) = chain.filter (onLevel nodes i) := by
  refine List.filter_congr fun a ha => ?_
  rw [onLevel, onLevel, height_append (hc a ha)]

/-- The heap with a new node that is not linked yet keeps the chain linked. -/
theorem Linked.append {chain : List Nat} (h : Linked nodes chain)
    (hc : ∀ a ∈ chain, a < nodes.length) (n : Node) : Linked (nodes ++ [n]) chain := by
  intro P a R heq i hi
  have ha : a < nodes.length := hc a (heq ▸ by simp)
  have hR : ∀ b ∈ R, b < nodes.length := fun b hb => hc b (heq ▸ by simp [hb])
  rw [height_append ha] at hi
  rw [pointer, getElem?_append_node ha, filter_onLevel_append hR]
  exact h P a R heq i hi

/-- A node that was linked on all its levels extends the chain. -/
private theorem linked_of_linkedUpTo {nodes' : List Node} {a : Nat}
    (hlinked : Linked nodes (0 :: (pre ++ post))) (hnd : (0 :: (pre ++ a :: post)).Nodup)
    (h : LinkedUpTo nodes pre post a (height nodes a) nodes') :
    Linked nodes' (0 :: (pre ++ a :: post)) := by
  intro Q b S heq i hi
  rw [h.shape.height_eq] at hi
  rw [h.shape.onLevel_eq]
  have heq' : (0 :: pre) ++ a :: post = Q ++ b :: S := heq
  rcases List.append_eq_append_iff.mp heq' with ⟨M, rfl, hpost⟩ | ⟨M, hpre, hsuf⟩
  · rcases M with _ | ⟨m, M⟩
    · -- the new node itself
      simp only [List.nil_append, List.cons.injEq] at hpost
      obtain ⟨rfl, rfl⟩ := hpost
      exact h.new_pointer i hi
    · -- a node behind the new one: none of its pointers has changed
      simp only [List.cons_append, List.cons.injEq] at hpost
      obtain ⟨rfl, rfl⟩ := hpost
      have hba : b ≠ a := by
        rintro rfl
        have hnd' : ((0 :: pre) ++ b :: (M ++ b :: S)).Nodup := hnd
        exact (List.nodup_cons.mp (List.nodup_append.mp hnd').2.1).1 (by simp)
      have hold : 0 :: (pre ++ (M ++ b :: S)) = (0 :: pre ++ M) ++ b :: S := by simp
      rw [h.pointer_eq b i hba, if_neg, hlinked _ b S hold i hi]
      rintro ⟨-, hlast⟩
      obtain ⟨-, P, R, hsplit, -⟩ := exists_of_lastAt hlast
      have hbpre : b ∈ 0 :: pre := hsplit ▸ by simp
      have hnd' : ((0 :: pre) ++ a :: (M ++ b :: S)).Nodup := hnd
      exact (List.nodup_append.mp hnd').2.2 b hbpre b (by simp) rfl
  · rcases M with _ | ⟨m, M⟩
    · simp only [List.nil_append, List.cons.injEq] at hsuf
      obtain ⟨rfl, rfl⟩ := hsuf
      exact h.new_pointer i hi
    · -- a smaller node
      simp only [List.cons_append, List.cons.injEq] at hsuf
      obtain ⟨rfl, rfl⟩ := hsuf
      have hba : b ≠ a := by
        rintro rfl
        have hnd' : ((0 :: pre) ++ b :: post).Nodup := hnd
        exact (List.nodup_append.mp hnd').2.2 b (hpre ▸ by simp) b (by simp) rfl
      have hold : 0 :: (pre ++ post) = Q ++ b :: (M ++ post) := by
        rw [← List.cons_append, hpre]
        simp
      have hlast : lastAt nodes i (0 :: pre) =
          some ((M.filter (onLevel nodes i)).getLast?.getD b) := by
        rw [hpre, lastAt_append_cons hi]
      rw [h.pointer_eq b i hba, hlast, hlinked Q b (M ++ post) hold i hi, List.filter_append,
        List.filter_append]
      rcases hM : M.filter (onLevel nodes i) with _ | ⟨c, Mf⟩
      -- the last smaller node of the level points to the new node if that is high enough
      · by_cases hia : i < height nodes a
        · rw [if_pos ⟨hia, rfl⟩, List.filter_cons_of_pos (onLevel_iff.mpr hia)]
          rfl
        · rw [if_neg fun h => hia h.1, List.filter_cons_of_neg (by simpa [onLevel_iff] using hia)]
      · -- another smaller node of the level follows, so this is not the last one
        rw [if_neg]
        · rfl
        rintro ⟨-, hb⟩
        have hbM : b ∈ M := by
          have hmem : (c :: Mf).getLast?.getD b ∈ c :: Mf := by
            rw [List.getLast?_cons]
            simp only [Option.getD_some]
            cases hl : Mf.getLast? with
            | none => simp
            | some d => simp [List.mem_of_getLast? hl]
          -- it would occur twice in the chain
          rw [Option.some.inj hb, ← hM] at hmem
          exact (List.mem_filter.mp hmem).1
        have hnd' : ((0 :: pre) ++ a :: post).Nodup := hnd
        rw [hpre] at hnd'
        have := (List.nodup_append.mp (List.nodup_append.mp hnd').1).2.1
        exact (List.nodup_cons.mp this).1 hbM

/-- Setting the entries of a range of levels to the head. -/
private theorem getElem?_foldl_set (update : List Nat) (s n j : Nat) (hlen : s + n ≤ update.length) :
    ((List.range' s n).foldl (fun update i => update.set i 0) update)[j]? =
      if s ≤ j ∧ j < s + n then some 0 else update[j]? := by
  induction n generalizing s update with
  | zero => simp
  | succ n ih =>
    rw [List.range'_succ, List.foldl_cons, ih (update.set s 0) (s + 1) (by simp; omega)]
    by_cases hj : j = s
    · subst hj
      have : j < update.length := by omega
      simp [this]
    · rw [List.getElem?_set_ne (Ne.symm hj)]
      have hiff : (s + 1 ≤ j ∧ j < s + 1 + n) ↔ (s ≤ j ∧ j < s + (n + 1)) := by omega
      simp only [hiff]

/-- The search path of `Insert`, with the levels that are populated for the first time. -/
private theorem update_eq (h : Chain l (pre ++ post)) {update : List Nat}
    (hlen : update.length = kMaxLevel)
    (hupdate : ∀ j < kMaxLevel, update[j]? = lastAt l.nodes j (0 :: pre)) {ht : Nat}
    (hmax : ht ≤ kMaxLevel) {j : Nat} (hj : j < ht) :
    (if ht > l.level then
        (List.range' l.level (ht - l.level)).foldl (fun update i => update.set i 0) update
      else update)[j]? = lastAt l.nodes j (0 :: pre) := by
  have hold := hupdate j (by omega)
  split
  · rw [getElem?_foldl_set _ _ _ _ (by omega)]
    split
    · -- only the head is that high
      rename_i hjl
      have hnone : pre.filter (onLevel l.nodes j) = [] := by
        rw [List.filter_eq_nil_iff]
        intro b hb
        have := (h.heights b (List.mem_append_left _ hb)).2
        simp only [onLevel_iff]
        omega
      have h0 : j < height l.nodes 0 := by rw [h.head_height]; omega
      have hlast := lastAt_append_cons (P := []) (R := pre) h0
      rw [hnone] at hlast
      exact hlast.symm
    · exact hold
  · exact hold

/-- Every address of the chain has a node. -/
theorem Chain.lt_length (h : Chain l order) : ∀ a ∈ 0 :: order, a < l.nodes.length := by
  intro a ha
  rcases List.mem_cons.mp ha with rfl | ha
  · rw [h.length_eq]
    omega
  · exact h.valid a ha

/-- The address of a new node is not in the chain. -/
private theorem Chain.nodup_insert (h : Chain l (pre ++ post)) :
    (0 :: (pre ++ l.nodes.length :: post)).Nodup := by
  have hperm : (0 :: pre ++ l.nodes.length :: post).Perm
      (l.nodes.length :: (0 :: pre ++ post)) := List.perm_middle
  have hnew : l.nodes.length ∉ 0 :: (pre ++ post) := fun hmem => (h.lt_length _ hmem).ne rfl
  exact hperm.nodup_iff.mpr (List.nodup_cons.mpr ⟨hnew, h.nodup⟩)

/-- The loop of `Insert` links a new node of height `ht` into the chain. -/
private theorem Chain.exists_linked (h : Chain l (pre ++ post)) {update : List Nat}
    (hlen : update.length = kMaxLevel)
    (hupdate : ∀ j < kMaxLevel, update[j]? = lastAt l.nodes j (0 :: pre)) {node : Node} {ht : Nat}
    (hnode : node.forward.length = ht) (hmax : ht ≤ kMaxLevel) :
    ∃ nodes', (List.range ht).foldlM (linkAt (if ht > l.level then
          (List.range' l.level (ht - l.level)).foldl (fun update i => update.set i 0) update
        else update) l.nodes.length) (l.nodes ++ [node]) = some nodes' ∧
      SameShape (l.nodes ++ [node]) nodes' ∧
      Linked nodes' (0 :: (pre ++ l.nodes.length :: post)) := by
  have hheight : height (l.nodes ++ [node]) l.nodes.length = ht := by
    simp [height, hnode]
  have hpre : ∀ b ∈ 0 :: pre, b < l.nodes.length := fun b hb =>
    h.lt_length b (by rcases List.mem_cons.mp hb with rfl | hb <;> simp [*])
  -- above the old height the path is the head, as the loop that raises the level sets it
  have hpath : ∀ j < ht, ∃ u, (if ht > l.level then
        (List.range' l.level (ht - l.level)).foldl (fun update i => update.set i 0) update
      else update)[j]? = some u ∧ lastAt (l.nodes ++ [node]) j (0 :: pre) = some u := by
    intro j hj
    obtain ⟨u, -, -, hu, -, -⟩ := lastAt_isSome h (show j < kMaxLevel by omega)
    refine ⟨u, by rw [update_eq h hlen hupdate hmax hj, hu], ?_⟩
    rw [lastAt, filter_onLevel_append hpre, ← lastAt, hu]
  have hlinked := h.linked.append h.lt_length node
  obtain ⟨nodes', hfold, hlink⟩ := foldlM_linkAt hlinked (fun hmem => (hpre _ hmem).ne rfl) hheight
    hpath le_rfl
  exact ⟨nodes', hfold, hlink.shape,
    linked_of_linkedUpTo hlinked h.nodup_insert (hheight.symm ▸ hlink)⟩

/-- The nodes of the chain and the new one, less their pointers. -/
private theorem Chain.map_shapeAt (h : Chain l (pre ++ post)) {node : Node} {nodes' : List Node}
    (hshape : SameShape (l.nodes ++ [node]) nodes') :
    (pre ++ l.nodes.length :: post).map (shapeAt nodes') =
      pre.map (shapeAt l.nodes) ++ some node.shape :: post.map (shapeAt l.nodes) := by
  have hold {b : Nat} (hb : b ∈ pre ++ post) : shapeAt nodes' b = shapeAt l.nodes b := by
    rw [hshape.shapeAt_eq, shapeAt, getElem?_append_node (h.valid b hb), shapeAt]
  have hnew : shapeAt nodes' l.nodes.length = some node.shape := by
    rw [hshape.shapeAt_eq]
    exact shapeAt_eq (by simp)
  have hpre : pre.map (shapeAt nodes') = pre.map (shapeAt l.nodes) :=
    List.map_congr_left fun b hb => hold (List.mem_append_left _ hb)
  have hpost : post.map (shapeAt nodes') = post.map (shapeAt l.nodes) :=
    List.map_congr_left fun b hb => hold (List.mem_append_right _ hb)
  rw [List.map_append, List.map_cons, hpre, hpost, hnew]

/-- A new key between the smaller and the larger ones. -/
private theorem Chain.sorted_insert (h : Chain l (pre ++ post)) (hs : Splits l pre post key)
    (hnew : ∀ a ∈ post, key < keyAt l.nodes a) :
    (pre.map (keyAt l.nodes) ++ key :: post.map (keyAt l.nodes)).Pairwise (· < ·) := by
  -- the old keys are ascending, on both sides of the new one
  have hold : ((pre ++ post).map (keyAt l.nodes)).Pairwise (· < ·) := List.pairwise_map.mpr h.sorted
  rw [List.map_append, List.pairwise_append] at hold
  obtain ⟨hpre, hpost, hcross⟩ := hold
  refine List.pairwise_append.mpr ⟨hpre, List.pairwise_cons.mpr ⟨?_, hpost⟩, ?_⟩
  · exact List.forall_mem_map.mpr hnew
  · intro x hx y hy
    rcases List.mem_cons.mp hy with rfl | hy
    · obtain ⟨a, ha, rfl⟩ := List.mem_map.mp hx
      exact hs.lt a ha
    · exact hcross x hx y hy

/-- The part of `Insert` that adds a node extends the chain at the place of the key. -/
theorem addNode_spec (h : Chain l (pre ++ post)) (hs : Splits l pre post key)
    (hnew : ∀ a ∈ post, key < keyAt l.nodes a) (value : Bytes) (tombstone : Bool)
    {update : List Nat} (hlen : update.length = kMaxLevel)
    (hupdate : ∀ j < kMaxLevel, update[j]? = lastAt l.nodes j (0 :: pre)) {ht : Nat}
    (hht : 1 ≤ ht) (hmax : ht ≤ kMaxLevel) :
    ∃ l', l.addNode key value tombstone update ht = some l' ∧
      Chain l' (pre ++ l.nodes.length :: post) ∧
      l'.memUsage = l.memUsage + (key.length.toUInt64 + value.length.toUInt64 + sizeofNode +
        ht.toUInt64 * sizeofPtr) ∧
      (pre ++ l.nodes.length :: post).map (shapeAt l'.nodes) =
        pre.map (shapeAt l.nodes) ++ some (key, value, tombstone, ht) ::
          post.map (shapeAt l.nodes) := by
  set node : Node := ⟨key, value, tombstone, List.replicate ht none⟩ with hnode
  have hforward : node.forward.length = ht := List.length_replicate
  obtain ⟨nodes', hfold, hshape, hlinked⟩ := h.exists_linked hlen hupdate hforward hmax
  have hshapes := h.map_shapeAt hshape
  rw [Node.shape, hforward] at hshapes
  have hkeys : (pre ++ l.nodes.length :: post).map (keyAt nodes') =
      pre.map (keyAt l.nodes) ++ key :: post.map (keyAt l.nodes) := by
    rw [map_keyAt nodes', hshapes, List.map_append, List.map_cons, ← map_keyAt, ← map_keyAt]
    rfl
  have hlength : nodes'.length = l.nodes.length + 1 := by
    rw [hshape.length_eq, List.length_append, List.length_singleton]
  -- heights, of an old node and of the new one
  have hheightOld {b : Nat} (hb : b ∈ 0 :: (pre ++ post)) : height nodes' b = height l.nodes b := by
    rw [hshape.height_eq, height_append (h.lt_length b hb)]
  have hheightNew : height nodes' l.nodes.length = ht := by
    rw [hshape.height_eq, height]
    simp [hforward]
  have hmem {b : Nat} (hb : b ∈ pre ++ l.nodes.length :: post) :
      b = l.nodes.length ∨ b ∈ pre ++ post := by
    simp only [List.mem_append, List.mem_cons] at hb ⊢
    tauto
  refine ⟨{ l with
    nodes := nodes'
    level := if ht > l.level then ht else l.level
    count := l.count + 1
    memUsage := l.memUsage + (key.length.toUInt64 + value.length.toUInt64 + sizeofNode +
      ht.toUInt64 * sizeofPtr) }, ?_, ?_, rfl, hshapes⟩
  · simp only [addNode, ← hnode, hfold, bind, Option.bind]
    rfl
  · refine ⟨?_, ?_, h.nodup_insert, fun b hb => ?_, fun b hb => ?_, ?_, ?_, ?_, hlinked, ?_⟩
    · exact (hheightOld List.mem_cons_self).trans h.head_height
    · have := h.length_eq
      simp only [hlength, List.length_append, List.length_cons] at this ⊢
      omega
    · show b < nodes'.length
      rcases hmem hb with rfl | hb
      · omega
      · have := h.valid b hb
        omega
    · show 1 ≤ height nodes' b ∧ height nodes' b ≤ if ht > l.level then ht else l.level
      rcases hmem hb with rfl | hb
      · rw [hheightNew]
        split <;> omega
      · rw [hheightOld (List.mem_cons_of_mem _ hb)]
        have := h.heights b hb
        split <;> omega
    · show 1 ≤ if ht > l.level then ht else l.level
      have := h.level_pos
      split <;> omega
    · show (if ht > l.level then ht else l.level) ≤ kMaxLevel
      have := h.level_le
      split <;> omega
    · apply List.pairwise_map.mp
      rw [hkeys]
      exact h.sorted_insert hs hnew
    · show l.count + 1 = (pre ++ l.nodes.length :: post).length
      rw [h.count_eq]
      simp
      omega

/-- What an overwrite of one node leaves as it is in that node, it leaves in all. -/
private theorem map_getElem?_modify {β : Type} {g : Node → Node} (f : Node → β) (hf : ∀ n, f (g n) = f n)
    (nodes : List Node) (a b : Nat) : (nodes.modify a g)[b]?.map f = nodes[b]?.map f := by
  rw [List.getElem?_modify]
  cases nodes[b]? with
  | none => rfl
  | some n => by_cases hab : a = b <;> simp [hab, hf]

/-- Overwriting a node in place keeps the chain. -/
theorem overwrite_spec {a : Nat} (h : Chain l (pre ++ a :: post)) (value : Bytes)
    (tombstone : Bool) :
    ∃ l' n, l.overwrite a value tombstone = some l' ∧ Chain l' (pre ++ a :: post) ∧
      l.nodes[a]? = some n ∧
      l'.memUsage = l.memUsage - n.value.length.toUInt64 + value.length.toUInt64 ∧
      (pre ++ a :: post).map (shapeAt l'.nodes) = pre.map (shapeAt l.nodes) ++
        some (n.key, value, tombstone, n.forward.length) :: post.map (shapeAt l.nodes) := by
  obtain ⟨n, hn⟩ : ∃ n, l.nodes[a]? = some n :=
    ⟨_, List.getElem?_eq_getElem (h.valid a (by simp))⟩
  set nodes' := l.nodes.modify a fun n => { n with value := value, isTombstone := tombstone }
    with hnodes'
  -- only the node at `a` changes
  have hget (b : Nat) (hb : b ≠ a) : nodes'[b]? = l.nodes[b]? := by
    rw [hnodes', List.getElem?_modify]
    simp [Ne.symm hb]
  have hgetA : nodes'[a]? = some { n with value := value, isTombstone := tombstone } := by
    rw [hnodes', List.getElem?_modify, hn]
    simp
  -- what does not read the value or the flag is the same at every node
  have hsame {β : Type} (f : Node → β)
      (hf : ∀ n : Node, f { n with value := value, isTombstone := tombstone } = f n) (b : Nat) :
      nodes'[b]?.map f = l.nodes[b]?.map f := map_getElem?_modify f hf ..
  have hheight : height nodes' = height l.nodes := by
    funext b
    rw [height, height, hsame (·.forward.length) fun _ => rfl]
  have hkey : keyAt nodes' = keyAt l.nodes := by
    funext b
    rw [keyAt, keyAt, hsame (·.key) fun _ => rfl]
  have hptr : pointer nodes' = pointer l.nodes := by
    funext b i
    have hbind := congrArg (·.bind (·[i]?)) (hsame (·.forward) (fun _ => rfl) b)
    rw [Option.bind_map, Option.bind_map] at hbind
    exact hbind
  have hlevel : onLevel nodes' = onLevel l.nodes := by
    funext i b
    rw [onLevel, onLevel, hheight]
  refine ⟨{ l with
    nodes := nodes'
    memUsage := l.memUsage - n.value.length.toUInt64 + value.length.toUInt64 }, n, ?_, ?_, hn, rfl, ?_⟩
  · simp only [overwrite, hn, bind, Option.bind, ← hnodes']
    rfl
  · refine ⟨?_, ?_, h.nodup, fun b hb => ?_, fun b hb => ?_, h.level_pos, h.level_le, ?_, ?_,
      h.count_eq⟩
    · simpa only [hheight] using h.head_height
    · simpa [hnodes'] using h.length_eq
    · simpa [hnodes'] using h.valid b hb
    · simpa only [hheight] using h.heights b hb
    · simpa only [hkey] using h.sorted
    · intro P b R heq i hi
      simp only [hheight, hptr, hlevel] at hi ⊢
      exact h.linked P b R heq i hi
  · have hold {b : Nat} (hb : b ≠ a) : shapeAt nodes' b = shapeAt l.nodes b := by
      rw [shapeAt, shapeAt, hget b hb]
    -- `a` occurs once, so the other entries are as before
    have hnd : (pre ++ a :: post).Nodup := (List.nodup_cons.mp h.nodup).2
    have hpre : pre.map (shapeAt nodes') = pre.map (shapeAt l.nodes) :=
      List.map_congr_left fun b hb => hold fun hba =>
        (List.nodup_append.mp hnd).2.2 b hb a List.mem_cons_self hba
    have hpost : post.map (shapeAt nodes') = post.map (shapeAt l.nodes) :=
      List.map_congr_left fun b hb => hold fun hba =>
        (List.nodup_cons.mp (List.nodup_append.mp hnd).2.1).1 (hba ▸ hb)
    rw [List.map_append, List.map_cons, hpre, hpost, shapeAt_eq hgetA]
    rfl

/-- What `Insert` can do: it adds a node where the key belongs, of the height that is drawn, or it
    overwrites the node that has the key. -/
theorem insert_cases (hc : Chain l order) (key value : Bytes) (tombstone : Bool) :
    (∃ pre post update, order = pre ++ post ∧ Splits l pre post key ∧
        (∀ a ∈ post, key < keyAt l.nodes a) ∧ update.length = kMaxLevel ∧
        (∀ j < kMaxLevel, update[j]? = lastAt l.nodes j (0 :: pre)) ∧
        l.insert key value tombstone = addNode { l with drawn := l.drawn + 1 } key value tombstone
          update ((l.rng l.drawn).val + 1)) ∨
      ∃ pre a post, order = pre ++ a :: post ∧ Splits l pre (a :: post) key ∧
        keyAt l.nodes a = key ∧ l.insert key value tombstone = l.overwrite a value tombstone := by
  obtain ⟨pre, post, rfl, hs⟩ := exists_splits hc key
  obtain ⟨x, update, hdesc, hlen, hupdate, hnext⟩ := search_eq hc hs
  cases post with
  -- every key of the list is smaller
  | nil =>
    left
    refine ⟨pre, [], update, rfl, hs, by simp, hlen, hupdate, ?_⟩
    simp only [SkipList.insert, hdesc, hnext, bind, Option.bind]
    rfl
  | cons a post =>
    obtain ⟨n, hn⟩ : ∃ n, l.nodes[a]? = some n :=
      ⟨_, List.getElem?_eq_getElem (hc.valid a (by simp))⟩
    have hkey : keyAt l.nodes a = n.key := by simp [keyAt, hn]
    by_cases heq : n.key = key
    · right
      refine ⟨pre, a, post, rfl, hs, hkey.trans heq, ?_⟩
      simp only [SkipList.insert, hdesc, hnext, bind, Option.bind, List.head?_cons, hn, if_pos heq]
    · left
      refine ⟨pre, a :: post, update, rfl, hs, fun b hb => ?_, hlen, hupdate, ?_⟩
      -- the next node is larger, and so are those after it
      · have hlt : key < keyAt l.nodes a :=
          lt_of_le_of_ne (hs.ge a List.mem_cons_self) (by rw [hkey]; exact Ne.symm heq)
        rcases List.mem_cons.mp hb with rfl | hb
        · exact hlt
        · exact hlt.trans ((List.pairwise_cons.mp (List.pairwise_append.mp hc.sorted).2.1).1 b hb)
      · simp only [SkipList.insert, hdesc, hnext, bind, Option.bind, List.head?_cons, hn,
          if_neg heq]
        rfl

/-- The nodes before the key are smaller. -/
private theorem Splits.key_lt (hs : Splits l pre post key) :
    ∀ e ∈ pre.map (entryAt l.nodes), e.key < key := by
  intro e he
  obtain ⟨a, ha, rfl⟩ := List.mem_map.mp he
  rw [key_entryAt]
  exact hs.lt a ha

/-- `Insert` is insertion into the map, whatever height is drawn. -/
theorem Holds.insert {es : List Entry} (h : Holds l es) (key value : Bytes) (tombstone : Bool) :
    ∃ l', l.insert key value tombstone = some l' ∧
      Holds l' (SortedMap.insert Entry.key
        ⟨key, value, if tombstone then .tombstone else .value⟩ es) := by
  obtain ⟨order, hc, rfl⟩ := h
  rcases insert_cases hc key value tombstone with
    ⟨pre, post, update, rfl, hs, hnew, hlen, hupdate, heq⟩ | ⟨pre, a, post, rfl, hs, hkey, heq⟩
  · -- a key that is not in the map yet
    have hht := (l.rng l.drawn).isLt
    have hc' : Chain { l with drawn := l.drawn + 1 } (pre ++ post) :=
      ⟨hc.1, hc.2, hc.3, hc.4, hc.5, hc.6, hc.7, hc.8, hc.9, hc.10⟩
    obtain ⟨l', hl', hchain, -, hmap⟩ := addNode_spec hc' ⟨hs.lt, hs.ge⟩ hnew value tombstone hlen
      hupdate (show 1 ≤ (l.rng l.drawn).val + 1 by omega) (by omega)
    refine ⟨l', heq.trans hl', _, hchain, ?_⟩
    rw [map_entryAt l'.nodes, hmap, List.map_append, List.map_append, List.map_cons,
      ← map_entryAt, ← map_entryAt, insert_append hs.key_lt, insert_of_lt]
    · rfl
    · intro e he
      obtain ⟨a, ha, rfl⟩ := List.mem_map.mp he
      rw [key_entryAt]
      exact hnew a ha
  · obtain ⟨l', n, hl', hchain, hn, -, hmap⟩ := overwrite_spec hc value tombstone
    have hkey' : n.key = key := by rw [← hkey, keyAt, hn, Option.map_some, Option.getD_some]
    refine ⟨l', heq.trans hl', _, hchain, ?_⟩
    rw [map_entryAt l'.nodes, hmap, List.map_append, List.map_append, List.map_cons,
      List.map_cons, ← map_entryAt, ← map_entryAt, insert_append hs.key_lt, insert_of_eq, hkey']
    · rfl
    · rw [key_entryAt, hkey]

/-- `Put`. -/
theorem Holds.put {es : List Entry} (h : Holds l es) (key value : Bytes) :
    ∃ l', l.put key value = some l' ∧
      Holds l' (SortedMap.insert Entry.key ⟨key, value, .value⟩ es) :=
  h.insert key value false

/-- `Delete`. -/
theorem Holds.delete {es : List Entry} (h : Holds l es) (key : Bytes) :
    ∃ l', l.delete key = some l' ∧
      Holds l' (SortedMap.insert Entry.key ⟨key, [], .tombstone⟩ es) :=
  h.insert key [] true

/-! ## Sequences of writes -/

/-- A call that changes the list. -/
inductive Write
  | put (key value : Bytes)
  | delete (key : Bytes)
  deriving DecidableEq, Repr

/-- The record that a call leaves. -/
def Write.entry : Write → Entry
  | put key value => ⟨key, value, .value⟩
  | delete key => ⟨key, [], .tombstone⟩

/-- The call. -/
def Write.apply (l : SkipList) : Write → Option SkipList
  | put key value => l.put key value
  | delete key => l.delete key

/-- The record of the last write to a key. -/
def lastWrite (k : Bytes) (writes : List Write) : Option Entry :=
  (writes.map Write.entry).reverse.find? fun e => decide (e.key = k)

/-- The last write is the one that counts. -/
private theorem lastWrite_append_singleton (k : Bytes) (writes : List Write) (w : Write) :
    lastWrite k (writes ++ [w]) =
      if w.entry.key = k then some w.entry else lastWrite k writes := by
  rw [lastWrite, List.map_append, List.reverse_append, List.map_singleton, List.reverse_singleton,
    List.singleton_append, List.find?_cons]
  by_cases hk : w.entry.key = k
  · simp [hk]
  · simp [hk, lastWrite]

/-- One write inserts its entry. -/
theorem Holds.apply {es : List Entry} (h : Holds l es) (w : Write) :
    ∃ l', w.apply l = some l' ∧ Holds l' (SortedMap.insert Entry.key w.entry es) := by
  cases w with
  | put key value => exact h.put key value
  | delete key => exact h.delete key

/-- A list that has been written to holds the last write to each key. The induction is on the
    last write. -/
theorem holds_writes (rng : Nat → Fin kMaxLevel) (writes : List Write) :
    ∃ l es, writes.foldlM Write.apply (new rng) = some l ∧ Holds l es ∧
      ∀ k, find Entry.key k es = lastWrite k writes := by
  -- a write more at the end
  induction writes using List.reverseRecOn with
  | nil => exact ⟨new rng, [], rfl, holds_new rng, fun k => rfl⟩
  | append_singleton writes w ih =>
    obtain ⟨l, es, hrun, hl, hfind⟩ := ih
    obtain ⟨l', hstep, hl'⟩ := hl.apply w
    refine ⟨l', SortedMap.insert Entry.key w.entry es, ?_, hl', fun k => ?_⟩
    · rw [List.foldlM_append, hrun]
      simp [hstep]
    · rw [find_insert, hfind, lastWrite_append_singleton]
      split_ifs <;> rfl

/-- The keys of a sorted map are those it has an element for. -/
private theorem length_eq_card {es : List Entry} (hs : Sorted Entry.key es) {keys : List Bytes}
    (h : ∀ k, k ∈ keys ↔ (find Entry.key k es).isSome) : es.length = keys.toFinset.card := by
  -- distinct entries have distinct keys
  have hnodup : (es.map Entry.key).Nodup := List.pairwise_map.mpr (hs.imp fun hlt => hlt.ne)
  have hset : keys.toFinset = (es.map Entry.key).toFinset := by
    ext k
    rw [List.mem_toFinset, List.mem_toFinset, h, Option.isSome_iff_exists, List.mem_map]
    constructor
    · rintro ⟨e, he⟩
      exact ⟨e, find_some he⟩
    · rintro ⟨e, he⟩
      exact ⟨e, hs.find_eq_some_iff.mpr he⟩
  rw [hset, List.toFinset_card_of_nodup hnodup, List.length_map]

/-- A key has a last write if it was written. -/
private theorem mem_keys_iff (k : Bytes) (writes : List Write) :
    k ∈ writes.map (·.entry.key) ↔ (lastWrite k writes).isSome := by
  induction writes using List.reverseRecOn with
  | nil => simp [lastWrite]
  | append_singleton writes w ih =>
    rw [List.map_append, List.mem_append, ih, lastWrite_append_singleton]
    by_cases hk : w.entry.key = k
    · simp [hk]
    · simp [hk, Ne.symm hk]

/-- The memtable is a sorted map: after any sequence of writes, and for any heights of the nodes,
    lookups, iteration from the start and from a target, and the size are those of the map from
    keys to the last write. -/
theorem memtable_writes (rng : Nat → Fin kMaxLevel) (writes : List Write) :
    ∃ l es it, writes.foldlM Write.apply (new rng) = some l ∧
      (∀ k, l.get k = some ((lastWrite k writes).elim .notFound Entry.result)) ∧
      l.newIterator.seekToFirst = some it ∧ Yields .OK it es .OK ∧
      (es.map Entry.key).Pairwise (· < ·) ∧ (∀ e, e ∈ es ↔ lastWrite e.key writes = some e) ∧
      (∀ target, ∃ it', l.newIterator.seek target = some it' ∧
        head it' = es.find? fun e => decide (target ≤ e.key)) ∧
      l.size = (writes.map (·.entry.key)).toFinset.card := by
  obtain ⟨l, es, hrun, hl, hfind⟩ := holds_writes rng writes
  obtain ⟨it, hfirst, hy⟩ := hl.seekToFirst_yields
  refine ⟨l, es, it, hrun, ?_, hfirst, hy, List.pairwise_map.mpr hl.sorted, ?_, ?_, ?_⟩
  · -- `Get` answers from the last write
    intro k
    rw [hl.get_eq, lookup, hfind]
  · -- the iterator yields exactly the last writes
    intro e
    rw [← hfind, hl.sorted.find_eq_some_iff]
    exact ⟨fun he => ⟨he, rfl⟩, fun he => he.1⟩
  · -- `Seek` stops at the first key that is not smaller
    intro target
    obtain ⟨it', hseek, hy'⟩ := hl.seek_yields target (show l.newIterator.list = l from rfl)
    refine ⟨it', hseek, ?_⟩
    rw [hy'.head_eq, fromKey, List.head?_filter]
  · -- `Size()` counts the distinct keys written
    rw [hl.size_eq, length_eq_card hl.sorted]
    intro k
    rw [mem_keys_iff, hfind]

end SkipList

end Lsmdb
