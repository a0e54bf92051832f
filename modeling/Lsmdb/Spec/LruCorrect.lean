import Lsmdb.ForStd.Recency
import Lsmdb.Spec.CacheCorrect

/-!
# The block cache over whole runs

What `Lookup` and `Insert` do to a cache whose map and list agree is said once
(`lookup_cases`, `insert_cases`); the invariant, the recency of what is resident, its
contents and the byte budget follow from that. The budget is kept by every call but one:
an `Insert` that refreshes a resident block does not evict.
-/

namespace Lsmdb

/-- A call to the cache. -/
inductive CacheCall
  | lookup (file : Nat) (offset : UInt64)
  | insert (file : Nat) (offset : UInt64) (block : Bytes)
  deriving DecidableEq, Repr

namespace BlockCache

/-- The cache after a call. -/
def apply (c : BlockCache) : CacheCall → BlockCache
  | .lookup file offset => (c.lookup file offset).1
  | .insert file offset block => c.insert file offset block

/-- The cache after a sequence of calls. -/
def run (capacity : UInt64) (calls : List CacheCall) : BlockCache :=
  calls.foldl apply { capacityBytes := capacity }

/-- One call more. -/
theorem run_concat (capacity : UInt64) (calls : List CacheCall) (call : CacheCall) :
    run capacity (calls ++ [call]) = (run capacity calls).apply call := by
  rw [run, List.foldl_concat, run]

/-! ## The map and the list -/

/-- The bytes of resident blocks. -/
def totalBytes (lru : List CacheEntry) : Nat := (lru.map (·.block.length)).sum

/-- The keys of resident blocks, in the order of the list. -/
def keys (c : BlockCache) : List CacheKey := c.lru.map (·.key)

/-- The map and the recency list agree, and the counter is the sum of the sizes in 64 bits. -/
structure Coherent (c : BlockCache) : Prop where
  map_perm : c.map.Perm (c.lru.map fun e => (e.key, e.node))
  keys_nodup : c.keys.Nodup
  nodes_nodup : (c.lru.map (·.node)).Nodup
  node_lt : ∀ e ∈ c.lru, e.node < c.nextNode
  bytes_eq : ∀ e ∈ c.lru, e.bytes = e.block.length.toUInt64
  used_eq : c.usedBytes = (totalBytes c.lru).toUInt64
  no_budget : c.capacityBytes = 0 → c.lru = []

/-- A new cache. -/
private theorem coherent_empty (capacity : UInt64) : Coherent { capacityBytes := capacity } where
  map_perm := List.Perm.nil
  keys_nodup := List.nodup_nil
  nodes_nodup := List.nodup_nil
  node_lt := by simp
  bytes_eq := by simp
  used_eq := rfl
  no_budget _ := rfl

variable {c : BlockCache} {file : Nat} {offset : UInt64} {block : Bytes}

@[simp] theorem totalBytes_cons (e : CacheEntry) (lru : List CacheEntry) :
    totalBytes (e :: lru) = e.block.length + totalBytes lru := by
  simp [totalBytes]

@[simp] theorem totalBytes_append (xs ys : List CacheEntry) :
    totalBytes (xs ++ ys) = totalBytes xs + totalBytes ys := by
  simp [totalBytes]

/-- An entry counts the same wherever it stands. -/
private theorem totalBytes_middle (pre post : List CacheEntry) (e : CacheEntry) :
    totalBytes (pre ++ e :: post) = e.block.length + totalBytes (pre ++ post) := by
  simp only [totalBytes_append, totalBytes_cons]
  omega

/-- A search in the map finds the node of the key. -/
theorem Coherent.find_cases (h : Coherent c) (key : CacheKey) :
    (∃ pre e post, c.lru = pre ++ e :: post ∧ e.key = key ∧ c.find key = some e.node) ∨
      (key ∉ c.keys ∧ c.find key = none) := by
  cases hfind : c.find key with
  -- every entry of the list is in the map
  | none =>
    right
    refine ⟨fun hmem => ?_, rfl⟩
    obtain ⟨e, he, rfl⟩ := List.mem_map.mp hmem
    have hitem : (e.key, e.node) ∈ c.map := h.map_perm.mem_iff.mpr (List.mem_map_of_mem he)
    have hne := List.lookup_eq_none_iff.mp hfind _ hitem
    simp at hne
  | some node =>
    left
    -- and every item of the map is in the list
    have hitem := h.map_perm.mem_iff.mp (mem_of_find hfind)
    obtain ⟨e, he, heq⟩ := List.mem_map.mp hitem
    obtain ⟨rfl, rfl⟩ := Prod.mk.inj heq
    obtain ⟨pre, post, hlru⟩ := List.append_of_mem he
    exact ⟨pre, e, post, hlru, rfl, rfl⟩

/-- The other entries have other nodes and other keys. -/
theorem Coherent.ne_of_mem (h : Coherent c) {pre post : List CacheEntry} {e : CacheEntry}
    (hlru : c.lru = pre ++ e :: post) {x : CacheEntry} (hx : x ∈ pre ++ post) :
    x.node ≠ e.node ∧ x.key ≠ e.key := by
  have hperm : (pre ++ e :: post).Perm (e :: (pre ++ post)) := List.perm_middle
  have hnodes := h.nodes_nodup
  have hkeys := h.keys_nodup
  rw [hlru, (hperm.map _).nodup_iff, List.map_cons, List.nodup_cons] at hnodes
  rw [keys, hlru, (hperm.map _).nodup_iff, List.map_cons, List.nodup_cons] at hkeys
  exact ⟨fun heq => hnodes.1 (heq ▸ List.mem_map_of_mem hx),
    fun heq => hkeys.1 (heq ▸ List.mem_map_of_mem hx)⟩

/-- Moving a node to the front. -/
private theorem spliceFront_eq {pre post : List CacheEntry} {e : CacheEntry}
    (hne : ∀ x ∈ pre ++ post, x.node ≠ e.node) :
    spliceFront (pre ++ e :: post) e.node = e :: (pre ++ post) := by
  have hpre : ∀ x ∈ pre, x.node ≠ e.node := fun x hx => hne x (List.mem_append_left _ hx)
  have hpost : ∀ x ∈ post, x.node ≠ e.node := fun x hx => hne x (List.mem_append_right _ hx)
  have hnone {l : List CacheEntry} (hl : ∀ x ∈ l, x.node ≠ e.node) :
      l.filter (fun x => decide (x.node = e.node)) = [] ∧
        l.filter (fun x => decide (x.node ≠ e.node)) = l := by
    rw [List.filter_eq_nil_iff, List.filter_eq_self]
    exact ⟨fun x hx => by simpa using hl x hx, fun x hx => by simpa using hl x hx⟩
  rw [spliceFront, List.filter_append, List.filter_append, List.filter_cons_of_pos (by simp),
    List.filter_cons_of_neg (by simp), (hnone hpre).1, (hnone hpost).1, (hnone hpre).2,
    (hnone hpost).2]
  rfl

/-- A node is found under its number. -/
private theorem find?_node_eq {pre post : List CacheEntry} {e : CacheEntry}
    (hne : ∀ x ∈ pre ++ post, x.node ≠ e.node) :
    (pre ++ e :: post).find? (fun x => decide (x.node = e.node)) = some e := by
  rw [List.find?_append, List.find?_eq_none.mpr, Option.none_or, List.find?_cons_of_pos (by simp)]
  intro x hx
  simpa using hne x (List.mem_append_left _ hx)

/-- What `Lookup` can do: the block of the key moves to the front, or nothing happens. -/
theorem Coherent.lookup_cases (h : Coherent c) (file : Nat) (offset : UInt64) :
    (∃ pre e post, c.lru = pre ++ e :: post ∧ e.key = ⟨file, offset⟩ ∧
        c.lookup file offset = ({ c with lru := e :: (pre ++ post) }, some e.block)) ∨
      (⟨file, offset⟩ ∉ c.keys ∧ c.lookup file offset = (c, none)) := by
  rcases h.find_cases ⟨file, offset⟩ with ⟨pre, e, post, hlru, hkey, hfind⟩ | ⟨hkey, hfind⟩
  · left
    refine ⟨pre, e, post, hlru, hkey, ?_⟩
    have hne : ∀ x ∈ pre ++ post, x.node ≠ e.node := fun x hx => (h.ne_of_mem hlru hx).1
    simp only [lookup, hfind, hlru, spliceFront_eq hne, find?_node_eq hne, Option.map_some]
  · right
    refine ⟨hkey, ?_⟩
    simp only [lookup, hfind]

/-- The eviction loop drops entries from the back, with their items in the map, until the budget
    holds or one entry is left. -/
private theorem evict_spec (capacity : UInt64) {back : List CacheEntry} {map : List (CacheKey × Nat)}
    (hne : back ≠ []) (hbytes : ∀ e ∈ back, e.bytes = e.block.length.toUInt64) :
    ∃ dropped kept, back = dropped ++ kept ∧ kept ≠ [] ∧
      evict capacity back (totalBytes back).toUInt64 map =
        (kept, (totalBytes kept).toUInt64,
          map.filter fun p => decide (p.1 ∉ dropped.map (·.key))) ∧
      ((totalBytes kept).toUInt64 ≤ capacity ∨ kept.length = 1) := by
  induction back generalizing map with
  | nil => exact absurd rfl hne
  | cons victim rest ih =>
    cases rest with
    | nil => exact ⟨[], [victim], rfl, by simp, by simp [evict], .inr rfl⟩
    | cons e rest =>
      by_cases hover : (totalBytes (victim :: e :: rest)).toUInt64 > capacity
      · obtain ⟨dropped, kept, hsplit, hkept, hevict, hbudget⟩ :=
          @ih (map.filter (·.1 ≠ victim.key)) (by simp)
            fun x hx => hbytes x (List.mem_cons_of_mem _ hx)
        refine ⟨victim :: dropped, kept, by rw [hsplit]; rfl, hkept, ?_, hbudget⟩
        -- what is subtracted is what the victim had added
        have hused : (totalBytes (victim :: e :: rest)).toUInt64 - victim.bytes =
            (totalBytes (e :: rest)).toUInt64 := by
          rw [hbytes victim List.mem_cons_self, totalBytes_cons, Nat.add_comm]
          simp [Nat.toUInt64]
        rw [evict, if_pos hover, hused, hevict, List.filter_filter]
        simp only [List.map_cons, List.mem_cons, not_or, Bool.decide_and, ne_eq, Bool.and_comm]
      · refine ⟨[], victim :: e :: rest, rfl, by simp, ?_, .inl (UInt64.not_lt.mp hover)⟩
        rw [evict, if_neg hover]
        simp

/-- What `Insert` can do: nothing, if there is no budget; replace the block of a resident key and
    move it to the front, whatever its size; or put a new block in front and drop entries from the
    back. -/
theorem Coherent.insert_cases (h : Coherent c) (file : Nat) (offset : UInt64) (block : Bytes) :
    (c.capacityBytes = 0 ∧ c.insert file offset block = c) ∨
      (c.capacityBytes ≠ 0 ∧ ∃ pre e post, c.lru = pre ++ e :: post ∧ e.key = ⟨file, offset⟩ ∧
        c.insert file offset block = { c with
          usedBytes := (block.length + totalBytes (pre ++ post)).toUInt64
          lru := { e with block := block, bytes := block.length.toUInt64 } :: (pre ++ post) }) ∨
      (c.capacityBytes ≠ 0 ∧ ⟨file, offset⟩ ∉ c.keys ∧ ∃ kept dropped,
        ⟨c.nextNode, ⟨file, offset⟩, block, block.length.toUInt64⟩ :: c.lru = kept ++ dropped ∧
        kept ≠ [] ∧ ((totalBytes kept).toUInt64 ≤ c.capacityBytes ∨ kept.length = 1) ∧
        c.insert file offset block = { c with
          usedBytes := (totalBytes kept).toUInt64
          lru := kept
          map := ((⟨file, offset⟩, c.nextNode) :: c.map).filter
            fun p => decide (p.1 ∉ dropped.map (·.key))
          nextNode := c.nextNode + 1 }) := by
  by_cases hcap : c.capacityBytes = 0
  · exact .inl ⟨hcap, if_pos hcap⟩
  right
  rcases h.find_cases ⟨file, offset⟩ with ⟨pre, e, post, hlru, hkey, hfind⟩ | ⟨hkey, hfind⟩
  · -- the key is resident: its node is rewritten and spliced to the front, and nothing is evicted
    left
    refine ⟨hcap, pre, e, post, hlru, hkey, ?_⟩
    have hne : ∀ x ∈ pre ++ post, x.node ≠ e.node := fun x hx => (h.ne_of_mem hlru hx).1
    -- the other nodes are not rewritten
    have hsame {l : List CacheEntry} (hl : ∀ x ∈ l, x ∈ pre ++ post) :
        (l.map fun x => if x.node = e.node
          then { x with block := block, bytes := block.length.toUInt64 } else x) = l := by
      conv_rhs => rw [← List.map_id l]
      apply List.map_congr_left
      intro x hx
      exact if_neg (hne x (hl x hx))
    have hmap : (c.lru.map fun x => if x.node = e.node
          then { x with block := block, bytes := block.length.toUInt64 } else x) =
        pre ++ { e with block := block, bytes := block.length.toUInt64 } :: post := by
      rw [hlru, List.map_append, List.map_cons, if_pos rfl,
        hsame fun x hx => List.mem_append_left _ hx, hsame fun x hx => List.mem_append_right _ hx]
    have hsplice := @spliceFront_eq pre post
      { e with block := block, bytes := block.length.toUInt64 } hne
    have hused : c.usedBytes - e.bytes + block.length.toUInt64 =
        (block.length + totalBytes (pre ++ post)).toUInt64 := by
      rw [h.used_eq, hlru, totalBytes_middle, h.bytes_eq e (by rw [hlru]; simp)]
      simp [Nat.toUInt64, UInt64.add_comm]
    simp only [insert, if_neg hcap, hfind, hmap, hsplice]
    rw [hlru, find?_node_eq hne, Option.map_some, Option.getD_some, hused]
  · -- a new key: the loop evicts from the back, so it is described on the reversed list
    right
    set entry : CacheEntry := ⟨c.nextNode, ⟨file, offset⟩, block, block.length.toUInt64⟩
      with hentry
    have hbytes : ∀ e ∈ (entry :: c.lru).reverse, e.bytes = e.block.length.toUInt64 := by
      intro e he
      rcases List.mem_cons.mp (List.mem_reverse.mp he) with rfl | he
      · rfl
      · exact h.bytes_eq e he
    obtain ⟨dropped, kept, hsplit, hkept, hevict, hbudget⟩ := @evict_spec c.capacityBytes
      (entry :: c.lru).reverse ((⟨file, offset⟩, c.nextNode) :: c.map) (by simp) hbytes
    refine ⟨hcap, hkey, kept.reverse, dropped.reverse, ?_, by simpa using hkept, ?_, ?_⟩
    · rw [← List.reverse_append, ← hsplit, List.reverse_reverse]
    · simpa [totalBytes] using hbudget
    -- the count of bytes, modulo `2 ^ 64`
    · have hused : c.usedBytes + block.length.toUInt64 =
          (totalBytes (entry :: c.lru).reverse).toUInt64 := by
        rw [h.used_eq]
        simp [totalBytes, hentry, Nat.toUInt64]
      simp only [insert, if_neg hcap, hfind, hused, ← hentry, hevict]
      simp [totalBytes]

/-! ## The invariant -/

/-- The order of the list does not matter to the invariant. -/
private theorem Coherent.of_perm (h : Coherent c) {lru : List CacheEntry} (hperm : c.lru.Perm lru) :
    Coherent { c with lru := lru } where
  map_perm := h.map_perm.trans (hperm.map _)
  keys_nodup := (hperm.map _).nodup_iff.mp h.keys_nodup
  nodes_nodup := (hperm.map _).nodup_iff.mp h.nodes_nodup
  node_lt e he := h.node_lt e (hperm.mem_iff.mpr he)
  bytes_eq e he := h.bytes_eq e (hperm.mem_iff.mpr he)
  used_eq := by
    show c.usedBytes = (totalBytes lru).toUInt64
    rw [h.used_eq, totalBytes, totalBytes, (hperm.map _).sum_eq]
  no_budget hcap := List.nil_perm.mp (h.no_budget hcap ▸ hperm)

/-- A block of another size in place of one at the front. -/
private theorem Coherent.refresh {e : CacheEntry} {rest : List CacheEntry} (h : Coherent c)
    (hlru : c.lru = e :: rest) (block : Bytes) :
    Coherent { c with
      usedBytes := (block.length + totalBytes rest).toUInt64
      lru := { e with block := block, bytes := block.length.toUInt64 } :: rest } := by
  obtain ⟨hmap, hkeys, hnodes, hlt, hbytes, -, hcap⟩ := h
  rw [hlru] at hmap hnodes hlt hbytes hcap
  rw [keys, hlru] at hkeys
  refine ⟨hmap, hkeys, hnodes, fun x hx => ?_, fun x hx => ?_, by rw [totalBytes_cons],
    fun h0 => nomatch hcap h0⟩
  · rcases List.mem_cons.mp hx with rfl | hx
    · exact hlt e List.mem_cons_self
    · exact hlt x (List.mem_cons_of_mem _ hx)
  · rcases List.mem_cons.mp hx with rfl | hx
    · rfl
    · exact hbytes x (List.mem_cons_of_mem _ hx)

/-- A new block at the front. -/
theorem Coherent.cons (h : Coherent c) (hcap : c.capacityBytes ≠ 0) {key : CacheKey}
    (hkey : key ∉ c.keys) (block : Bytes) :
    Coherent { c with
      usedBytes := (block.length + totalBytes c.lru).toUInt64
      lru := ⟨c.nextNode, key, block, block.length.toUInt64⟩ :: c.lru
      map := (key, c.nextNode) :: c.map
      nextNode := c.nextNode + 1 } where
  map_perm := h.map_perm.cons _
  keys_nodup := List.nodup_cons.mpr ⟨hkey, h.keys_nodup⟩
  nodes_nodup := by
    -- the node is new
    refine List.nodup_cons.mpr ⟨fun hmem => ?_, h.nodes_nodup⟩
    obtain ⟨e, he, heq⟩ := List.mem_map.mp hmem
    exact (h.node_lt e he).ne heq
  node_lt e he := by
    rcases List.mem_cons.mp he with rfl | he
    · exact Nat.lt_succ_self _
    · exact Nat.lt_succ_of_lt (h.node_lt e he)
  bytes_eq e he := by
    rcases List.mem_cons.mp he with rfl | he
    · rfl
    · exact h.bytes_eq e he
  used_eq := by rw [totalBytes_cons]
  no_budget h0 := absurd h0 hcap

/-- Entries dropped from the back, with their items in the map. -/
theorem Coherent.drop {kept dropped : List CacheEntry} (h : Coherent c)
    (hlru : c.lru = kept ++ dropped) :
    Coherent { c with
      usedBytes := (totalBytes kept).toUInt64
      lru := kept
      map := c.map.filter fun p => decide (p.1 ∉ dropped.map (·.key)) } := by
  obtain ⟨hmap, hkeys, hnodes, hlt, hbytes, -, hcap⟩ := h
  rw [hlru] at hmap hnodes hlt hbytes hcap
  rw [keys, hlru, List.map_append] at hkeys
  rw [List.map_append] at hnodes
  have hdisjoint := (List.nodup_append.mp hkeys).2.2
  refine ⟨?_, (List.nodup_append.mp hkeys).1, (List.nodup_append.mp hnodes).1,
    fun e he => hlt e (List.mem_append_left _ he), fun e he => hbytes e (List.mem_append_left _ he),
    rfl, fun h0 => (List.append_eq_nil_iff.mp (hcap h0)).1⟩
  -- of the items in the map, those of the kept entries are left
  have hkept : (kept.map fun e => (e.key, e.node)).filter
      (fun p => decide (p.1 ∉ dropped.map (·.key))) = kept.map fun e => (e.key, e.node) := by
    rw [List.filter_eq_self]
    intro p hp
    obtain ⟨e, he, rfl⟩ := List.mem_map.mp hp
    rw [decide_eq_true_eq]
    exact fun hmem => hdisjoint _ (List.mem_map_of_mem he) _ hmem rfl
  have hdropped : (dropped.map fun e => (e.key, e.node)).filter
      (fun p => decide (p.1 ∉ dropped.map (·.key))) = [] := by
    rw [List.filter_eq_nil_iff]
    intro p hp
    obtain ⟨e, he, rfl⟩ := List.mem_map.mp hp
    simpa using ⟨e, he, rfl⟩
  have hfilter := hmap.filter fun p => decide (p.1 ∉ dropped.map (·.key))
  rwa [List.map_append, List.filter_append, hkept, hdropped, List.append_nil] at hfilter

/-- Every call keeps the list, the map and the count of bytes in step. -/
theorem Coherent.apply (h : Coherent c) (call : CacheCall) : Coherent (c.apply call) := by
  cases call with
  | lookup file offset =>
    rcases h.lookup_cases file offset with ⟨pre, e, post, hlru, -, heq⟩ | ⟨-, heq⟩
    · -- a hit moves its node
      rw [BlockCache.apply, heq]
      exact h.of_perm (hlru ▸ List.perm_middle)
    · rw [BlockCache.apply, heq]
      exact h
  | insert file offset block =>
    rw [BlockCache.apply]
    rcases h.insert_cases file offset block with ⟨-, heq⟩ | ⟨-, pre, e, post, hlru, -, heq⟩ |
      ⟨hcap, hkey, kept, dropped, hsplit, -, -, heq⟩
    · rw [heq]
      exact h
    · -- a refresh moves its node and rewrites it
      rw [heq]
      exact (h.of_perm (hlru ▸ List.perm_middle)).refresh rfl block
    · -- a new node is put in front, and nodes are dropped from the back
      rw [heq]
      exact (h.cons hcap hkey block).drop hsplit

/-- So they are after any calls. -/
theorem coherent_run (capacity : UInt64) (calls : List CacheCall) : Coherent (run capacity calls) := by
  induction calls using List.reverseRecOn with
  | nil => exact coherent_empty capacity
  | append_singleton calls call ih =>
    rw [run_concat]
    exact ih.apply call

/-! ## Recency and contents -/

/-- The key that a call uses: the one it inserts, or the one it finds. -/
def used (c : BlockCache) : CacheCall → List CacheKey
  | .lookup file offset => if (c.lookup file offset).2.isSome then [⟨file, offset⟩] else []
  | .insert file offset _ => [⟨file, offset⟩]

/-- The keys that a sequence of calls uses, in turn. -/
def usesFrom (c : BlockCache) : List CacheCall → List CacheKey
  | [] => []
  | call :: calls => c.used call ++ (c.apply call).usesFrom calls

/-- The uses of a run on a new cache. -/
def uses (capacity : UInt64) (calls : List CacheCall) : List CacheKey :=
  usesFrom { capacityBytes := capacity } calls

/-- The block that a call inserts for the key. -/
def insertedBy (key : CacheKey) : CacheCall → Option Bytes
  | .lookup _ _ => none
  | .insert file offset block => if (⟨file, offset⟩ : CacheKey) = key then some block else none

/-- The block that was inserted last for the key. -/
def lastInserted (key : CacheKey) (calls : List CacheCall) : Option Bytes :=
  calls.reverse.findSome? (insertedBy key)

/-- The uses of one call more. -/
private theorem uses_concat (capacity : UInt64) (calls : List CacheCall) (call : CacheCall) :
    uses capacity (calls ++ [call]) = uses capacity calls ++ (run capacity calls).used call := by
  have hfrom (c : BlockCache) : c.usesFrom (calls ++ [call]) =
      c.usesFrom calls ++ (calls.foldl BlockCache.apply c).used call := by
    induction calls generalizing c with
    | nil => simp [usesFrom]
    | cons first calls ih =>
      rw [List.cons_append, usesFrom, usesFrom, ih, List.append_assoc, List.foldl_cons]
  exact hfrom _

/-- The last insertion counts. -/
theorem lastInserted_concat (key : CacheKey) (calls : List CacheCall) (call : CacheCall) :
    lastInserted key (calls ++ [call]) = (insertedBy key call).or (lastInserted key calls) := by
  rw [lastInserted, List.reverse_concat, List.findSome?_cons, lastInserted]
  cases insertedBy key call with
  | none => rw [Option.none_or]
  | some block => rw [Option.some_or]

/-- What is resident: the keys are an initial segment of an order of recency, and the blocks are
    those a table gives for them. -/
structure Resident (order : List CacheKey) (blocks : CacheKey → Option Bytes) (c : BlockCache) :
    Prop where
  keys_isPrefix : c.keys <+: order
  block_eq : ∀ e ∈ c.lru, blocks e.key = some e.block

/-- Using a key that is resident. -/
private theorem Coherent.keys_touch (h : Coherent c) {pre post : List CacheEntry} {e : CacheEntry}
    (hlru : c.lru = pre ++ e :: post) :
    e.key :: (pre ++ post).map (·.key) = Recency.touch e.key c.keys := by
  have hnodup := h.keys_nodup
  rw [keys, hlru, List.map_append, List.map_cons] at hnodup
  rw [keys, hlru, List.map_append, List.map_append, List.map_cons,
    Recency.touch_append_cons hnodup]

/-- One call: what it uses goes to the front of the order, and what it inserts into the table. -/
theorem Resident.apply {order : List CacheKey} {calls : List CacheCall} (h : Coherent c)
    (hr : Resident order (lastInserted · calls) c) (call : CacheCall) :
    Resident ((c.used call).foldl (fun l a => Recency.touch a l) order)
      (lastInserted · (calls ++ [call])) (c.apply call) := by
  cases call with
  | lookup file offset =>
    have hblocks : (lastInserted · (calls ++ [.lookup file offset])) =
        (lastInserted · calls) := by
      funext key
      rw [lastInserted_concat, insertedBy, Option.none_or]
    rw [hblocks]
    rcases h.lookup_cases file offset with ⟨pre, e, post, hlru, hkey, heq⟩ | ⟨-, heq⟩
    · -- a hit moves the key to the front
      simp only [used, BlockCache.apply, heq, Option.isSome_some, if_true, List.foldl_cons,
        List.foldl_nil, ← hkey]
      refine ⟨?_, fun x hx => hr.block_eq x ?_⟩
      · show e.key :: (pre ++ post).map (·.key) <+: _
        rw [h.keys_touch hlru]
        exact Recency.isPrefix_touch hr.keys_isPrefix
      · rw [hlru]
        exact List.perm_middle.mem_iff.mpr hx
    · simpa only [used, BlockCache.apply, heq, Option.isSome_none, Bool.false_eq_true, if_false,
        List.foldl_nil] using hr
  | insert file offset block =>
    -- the block inserted now is the last one of its key, and nothing changes for the others
    have hnew : lastInserted ⟨file, offset⟩ (calls ++ [.insert file offset block]) = some block := by
      rw [lastInserted_concat, insertedBy, if_pos rfl, Option.some_or]
    have hold {key : CacheKey} (hne : key ≠ ⟨file, offset⟩) :
        lastInserted key (calls ++ [.insert file offset block]) = lastInserted key calls := by
      rw [lastInserted_concat, insertedBy, if_neg (Ne.symm hne), Option.none_or]
    rw [BlockCache.apply, used, List.foldl_cons, List.foldl_nil]
    rcases h.insert_cases file offset block with ⟨hcap, heq⟩ | ⟨-, pre, e, post, hlru, hkey, heq⟩ |
      ⟨-, hkey, kept, dropped, hsplit, -, -, heq⟩
    · -- a cache without a budget stays empty
      have hnil := h.no_budget hcap
      rw [heq]
      exact ⟨by simp [keys, hnil], by simp [hnil]⟩
    · -- a refresh is a hit that brings a new block
      rw [heq]
      refine ⟨?_, fun x hx => ?_⟩
      · show e.key :: (pre ++ post).map (·.key) <+: _
        rw [h.keys_touch hlru, hkey]
        exact Recency.isPrefix_touch hr.keys_isPrefix
      · rcases List.mem_cons.mp hx with rfl | hx
        · show lastInserted e.key _ = some block
          rw [hkey, hnew]
        · show lastInserted x.key _ = some x.block
          rw [hold (hkey ▸ (h.ne_of_mem hlru hx).2)]
          exact hr.block_eq x (hlru ▸ List.perm_middle.mem_iff.mpr (List.mem_cons_of_mem _ hx))
    · rw [heq]
      -- the kept entries are in front of the dropped ones
      have hkeys : kept.map (·.key) <+: Recency.touch ⟨file, offset⟩ c.keys := by
        rw [Recency.touch_of_notMem hkey]
        exact ⟨dropped.map (·.key), by rw [← List.map_append, ← hsplit]; rfl⟩
      refine ⟨hkeys.trans (Recency.isPrefix_touch hr.keys_isPrefix), fun x hx => ?_⟩
      have hmem : x ∈ kept ++ dropped := List.mem_append_left _ hx
      rw [← hsplit] at hmem
      show lastInserted x.key _ = some x.block
      rcases List.mem_cons.mp hmem with rfl | hmem
      · exact hnew
      · rw [hold fun heq => hkey (heq ▸ List.mem_map_of_mem hmem)]
        exact hr.block_eq x hmem

/-- The resident keys are the most recently used ones, with the blocks inserted last. -/
private theorem resident_run (capacity : UInt64) (calls : List CacheCall) :
    Resident (Recency.order (uses capacity calls)) (lastInserted · calls) (run capacity calls) := by
  induction calls using List.reverseRecOn with
  | nil => exact ⟨List.nil_prefix, fun e he => nomatch he⟩
  | append_singleton calls call ih =>
    rw [run_concat, uses_concat, Recency.order, List.foldl_append]
    exact ih.apply (coherent_run capacity calls) call

/-- A key that is found is resident, with the block that is returned. -/
private theorem Coherent.mem_of_lookup (h : Coherent c)
    (hit : (c.lookup file offset).2 = some block) :
    ∃ e ∈ c.lru, e.key = ⟨file, offset⟩ ∧ e.block = block := by
  rcases h.lookup_cases file offset with ⟨pre, e, post, hlru, hkey, heq⟩ | ⟨-, heq⟩
  · rw [heq, Option.some.injEq] at hit
    exact ⟨e, by rw [hlru]; simp, hkey, hit⟩
  · rw [heq] at hit
    cases hit

/-- The keys that are used are those that have been inserted. -/
private theorem mem_uses {capacity : UInt64} {calls : List CacheCall} {key : CacheKey} :
    key ∈ uses capacity calls ↔ ∃ block, .insert key.file key.offset block ∈ calls := by
  induction calls using List.reverseRecOn with
  | nil => simp [uses, usesFrom]
  | append_singleton calls call ih =>
    rw [uses_concat, List.mem_append]
    cases call with
    | insert file offset block =>
      simp only [used, List.mem_singleton, List.mem_append, CacheCall.insert.injEq, exists_or, ih]
      apply or_congr_right
      constructor
      · rintro rfl
        exact ⟨block, rfl, rfl, rfl⟩
      · rintro ⟨_, rfl, rfl, -⟩
        rfl
    | lookup file offset =>
      simp only [List.mem_append, List.mem_singleton, reduceCtorEq, or_false, ← ih, used]
      refine or_iff_left_of_imp fun hmem => ?_
      -- a hit is on a key that was used before
      split at hmem
      · rename_i hit
        obtain ⟨block, hblock⟩ := Option.isSome_iff_exists.mp hit
        obtain ⟨e, he, hkey, -⟩ := (coherent_run capacity calls).mem_of_lookup hblock
        have hinit := (resident_run capacity calls).keys_isPrefix
        rw [List.mem_singleton.mp hmem, ← hkey, ← Recency.mem_order]
        exact hinit.subset (List.mem_map_of_mem he)
      · cases hmem

/-- The block cache is an LRU cache: after any calls, the map and the recency list hold the same
    keys, each once; the byte counter is the sum of the sizes of the resident blocks, in 64 bits; a
    hit returns the block that was inserted last for its key; and the resident keys, in the order of
    the list, are the first of all keys that were ever inserted, ordered by their last insertion or
    hit. -/
theorem cache_is_lru (capacity : UInt64) (calls : List CacheCall) :
    let c := run capacity calls
    let recency := Recency.order (uses capacity calls)
    (c.map.map Prod.fst).Perm c.keys ∧ c.keys.Nodup ∧
      c.sizeBytes.toNat = (c.lru.map (·.block.length)).sum % 2 ^ 64 ∧
      (∀ key block, (c.lookup key.file key.offset).2 = some block →
        lastInserted key calls = some block) ∧
      c.keys <+: recency ∧ recency.Nodup ∧
      ∀ key, key ∈ recency ↔ ∃ block, .insert key.file key.offset block ∈ calls := by
  intro c recency
  -- coherence for the structure of the cache, residence for what it holds
  have hc : Coherent c := coherent_run capacity calls
  have hr := resident_run capacity calls
  refine ⟨?_, hc.keys_nodup, ?_, fun key block hit => ?_, hr.keys_isPrefix, Recency.nodup_order _,
    fun key => Recency.mem_order.trans mem_uses⟩
  · have hperm := hc.map_perm.map Prod.fst
    rwa [List.map_map] at hperm
  · rw [sizeBytes, hc.used_eq]
    exact UInt64.toNat_ofNat'
  · obtain ⟨e, he, hkey, rfl⟩ := hc.mem_of_lookup hit
    rw [show key = e.key from hkey.symm]
    exact hr.block_eq e he

/-- A budget of `2 ^ 64 - 1` bytes is never exceeded by a counter of 64 bits. -/
private theorem evict_unbounded (back : List CacheEntry) (used : UInt64)
    (map : List (CacheKey × Nat)) :
    evict 0xFFFFFFFFFFFFFFFF back used map = (back, used, map) := by
  have hle : ¬ used > 0xFFFFFFFFFFFFFFFF := UInt64.not_lt.mpr (UInt64.le_iff_toNat_le.mpr
    (Nat.le_of_lt_succ used.toNat_lt))
  unfold evict
  split
  · rw [if_neg hle]
  · rfl

/-- Without eviction, a new key goes in front of the others. -/
private theorem Coherent.lru_insert_unbounded (h : Coherent c)
    (hcap : c.capacityBytes = 0xFFFFFFFFFFFFFFFF) (hkey : ⟨file, offset⟩ ∉ c.keys)
    (block : Bytes) : (c.insert file offset block).lru =
      ⟨c.nextNode, ⟨file, offset⟩, block, block.length.toUInt64⟩ :: c.lru := by
  have hfind : c.find ⟨file, offset⟩ = none := by
    rcases h.find_cases ⟨file, offset⟩ with ⟨pre, e, post, hlru, he, -⟩ | ⟨-, hnone⟩
    · exact absurd (by simp [keys, hlru, he]) hkey
    · exact hnone
  simp [insert, hcap, hfind, evict_unbounded]

/-- One block, inserted for the first `n` offsets of a file. -/
def sharing (n : Nat) (block : Bytes) : List CacheCall :=
  (List.range n).map fun i => .insert 1 i.toUInt64 block

/-- The capacity is fixed. -/
private theorem capacityBytes_run (capacity : UInt64) (calls : List CacheCall) :
    (run capacity calls).capacityBytes = capacity := by
  induction calls using List.reverseRecOn with
  | nil => rfl
  | append_singleton calls call ih =>
    rw [run_concat]
    cases call with
    | lookup file offset =>
      rw [apply, lookup]
      split
      · exact ih
      · exact ih
    | insert file offset block =>
      rw [apply]
      -- whatever an insertion does, the budget stays
      rcases (coherent_run capacity calls).insert_cases file offset block with
        ⟨-, heq⟩ | ⟨-, pre, e, post, -, -, heq⟩ | ⟨-, -, kept, dropped, -, -, -, heq⟩
      all_goals rw [heq]; exact ih

/-- All of the blocks stay, and each key counts its block again. -/
private theorem lru_run_sharing (block : Bytes) {n : Nat} (hn : n ≤ 2 ^ 64) :
    let c := run 0xFFFFFFFFFFFFFFFF (sharing n block)
    c.lru.map (·.block) = List.replicate n block ∧
      ∀ key ∈ c.keys, ∃ i < n, key = ⟨1, i.toUInt64⟩ := by
  induction n with
  | zero => exact ⟨rfl, by simp [sharing, run, keys]⟩
  | succ n ih =>
    obtain ⟨hblocks, hkeys⟩ := ih (by omega)
    have hc := coherent_run 0xFFFFFFFFFFFFFFFF (sharing n block)
    -- the offsets are distinct up to `2 ^ 64`
    have hfresh : (⟨1, n.toUInt64⟩ : CacheKey) ∉
        (run 0xFFFFFFFFFFFFFFFF (sharing n block)).keys := by
      intro hmem
      obtain ⟨i, hi, heq⟩ := hkeys _ hmem
      have hoffset := congrArg (UInt64.toNat ∘ CacheKey.offset) heq
      simp only [Function.comp_apply, Nat.toUInt64_eq, UInt64.toNat_ofNat'] at hoffset
      omega
    have hlru := hc.lru_insert_unbounded (capacityBytes_run _ _) hfresh block
    have hrun : sharing (n + 1) block = sharing n block ++ [.insert 1 n.toUInt64 block] := by
      rw [sharing, List.range_succ, List.map_append, sharing]
      rfl
    rw [hrun, run_concat, apply]
    refine ⟨?_, fun key hkey => ?_⟩
    · rw [hlru, List.map_cons, hblocks, List.replicate_succ]
    · rw [keys, hlru, List.map_cons, List.mem_cons] at hkey
      rcases hkey with rfl | hkey
      · exact ⟨n, Nat.lt_succ_self n, rfl⟩
      · obtain ⟨i, hi, rfl⟩ := hkeys key hkey
        exact ⟨i, Nat.lt_succ_of_lt hi, rfl⟩

/-- The blocks of a cache in which every key has the same block. -/
private theorem totalBytes_run_sharing (block : Bytes) {n : Nat} (hn : n ≤ 2 ^ 64) :
    totalBytes (run 0xFFFFFFFFFFFFFFFF (sharing n block)).lru = n * block.length := by
  have hblocks := congrArg (List.map List.length) (lru_run_sharing block hn).1
  rw [List.map_map] at hblocks
  rw [totalBytes, show (fun e : CacheEntry => e.block.length) = List.length ∘ (·.block) from rfl,
    hblocks, List.map_replicate, List.sum_replicate, smul_eq_mul]

/-- The counter wraps: one block of `2 ^ 36` bytes, shared by `2 ^ 28` keys, counts as nothing. -/
theorem cache_counter_wraps : ∃ block : Bytes, block.length = 2 ^ 36 ∧
    let c := run 0xFFFFFFFFFFFFFFFF (sharing (2 ^ 28) block)
    c.sizeBytes = 0 ∧ (c.lru.map (·.block.length)).sum = 2 ^ 64 := by
  obtain ⟨block, hblock⟩ : ∃ block : Bytes, block.length = 2 ^ 36 :=
    ⟨List.replicate (2 ^ 36) 0, List.length_replicate⟩
  have hsum : totalBytes (run 0xFFFFFFFFFFFFFFFF (sharing (2 ^ 28) block)).lru = 2 ^ 64 := by
    rw [totalBytes_run_sharing block (by norm_num), hblock]
    norm_num
  refine ⟨block, hblock, ?_, hsum⟩
  rw [sizeBytes, (coherent_run _ _).used_eq, hsum]
  rfl

/-! ## The budget -/

/-- The resident blocks fit the budget, or there is one block only. -/
def WithinBudget (c : BlockCache) : Prop := c.sizeBytes ≤ c.capacityBytes ∨ c.lru.length = 1

instance (c : BlockCache) : Decidable c.WithinBudget := inferInstanceAs (Decidable (_ ∨ _))

/-- A block that is inserted for a resident key fits next to the other blocks, or is the only
    one. -/
def RefreshFits (c : BlockCache) (key : CacheKey) (block : Bytes) : Prop :=
  key ∈ c.keys →
    (block.length + totalBytes (c.lru.filter (·.key ≠ key))).toUInt64 ≤ c.capacityBytes ∨
      c.lru.length = 1

/-- The other blocks of a resident key. -/
private theorem Coherent.filter_key_ne (h : Coherent c) {pre post : List CacheEntry} {e : CacheEntry}
    (hlru : c.lru = pre ++ e :: post) : c.lru.filter (·.key ≠ e.key) = pre ++ post := by
  rw [hlru, List.filter_append, List.filter_cons_of_neg (by simp), ← List.filter_append,
    List.filter_eq_self]
  intro x hx
  exact decide_eq_true (h.ne_of_mem hlru hx).2

/-- `Lookup` does not change what is resident. -/
private theorem withinBudget_lookup (h : Coherent c) (hb : c.WithinBudget) (file : Nat) (offset : UInt64) :
    (c.lookup file offset).1.WithinBudget := by
  rcases h.lookup_cases file offset with ⟨pre, e, post, hlru, -, heq⟩ | ⟨-, heq⟩
  · rw [heq]
    refine hb.imp_right fun hone => ?_
    rw [hlru, List.length_append, List.length_cons] at hone
    show (e :: (pre ++ post)).length = 1
    rw [List.length_cons, List.length_append]
    omega
  · rw [heq]
    exact hb

/-- `Insert` keeps the budget if and only if it does not refresh a resident block by one that is too
    large. -/
private theorem withinBudget_insert_iff (h : Coherent c) (hb : c.WithinBudget) (file : Nat)
    (offset : UInt64) (block : Bytes) :
    (c.insert file offset block).WithinBudget ↔ c.RefreshFits ⟨file, offset⟩ block := by
  rcases h.insert_cases file offset block with ⟨hcap, heq⟩ | ⟨-, pre, e, post, hlru, hkey, heq⟩ |
    ⟨-, hkey, kept, dropped, -, -, hbudget, heq⟩
  · -- without a budget nothing is resident
    have hnil : c.keys = [] := by rw [keys, h.no_budget hcap, List.map_nil]
    rw [heq]
    exact iff_of_true hb fun hmem => by rw [hnil] at hmem; cases hmem
  · -- a refresh evicts nothing, so its block has to fit
    have hmem : (⟨file, offset⟩ : CacheKey) ∈ c.keys := by
      rw [← hkey, keys, hlru]
      simp
    have hlen : c.lru.length = (pre ++ post).length + 1 := by
      rw [hlru, List.length_append, List.length_append, List.length_cons]
      omega
    rw [heq, RefreshFits, ← hkey, h.filter_key_ne hlru, hlen]
    exact ⟨fun hfits _ => hfits, fun hfits => hfits (hkey ▸ hmem)⟩
  · -- a new entry evicts until it fits or is alone
    rw [heq]
    exact iff_of_true hbudget fun hmem => absurd hmem hkey

/-- The cache is within its budget after every call if and only if every `Insert` that refreshes a
    resident block fits: this is the one path that adds bytes without evicting. -/
theorem cache_budget_iff (capacity : UInt64) (calls : List CacheCall) :
    (∀ done, done <+: calls → (run capacity done).WithinBudget) ↔
      ∀ done file offset block, done ++ [.insert file offset block] <+: calls →
        (run capacity done).RefreshFits ⟨file, offset⟩ block := by
  constructor
  · -- an insertion that leaves the cache within its budget fits it
    intro h done file offset block hinit
    rw [← withinBudget_insert_iff (coherent_run capacity done)
      (h done ((List.prefix_append _ _).trans hinit))]
    have hnext := h _ hinit
    rwa [run_concat] at hnext
  · -- and the other way round, call by call
    intro h done hinit
    induction done using List.reverseRecOn with
    | nil => exact .inl (UInt64.zero_le)
    | append_singleton done call ih =>
      have hb := ih ((List.prefix_append _ _).trans hinit)
      have hc := coherent_run capacity done
      rw [run_concat]
      cases call with
      | lookup file offset => exact withinBudget_lookup hc hb file offset
      | insert file offset block =>
        exact (withinBudget_insert_iff hc hb file offset block).mpr (h done file offset block hinit)

/-- Two small blocks, one of which is replaced by a block larger than the budget. -/
theorem cache_over_budget :
    let c := run 10 [.insert 1 0 [0, 0], .insert 1 1 [0, 0], .insert 1 0 (List.replicate 20 0)]
    c.sizeBytes = 22 ∧ c.capacityBytes = 10 ∧ c.lru.length = 2 := by
  decide +kernel

end BlockCache

end Lsmdb
