import Lsmdb.Native.Cache

/-!
# Block cache contents

Whatever is true of every block that is inserted under a key is true of every block
that a lookup of the key returns (`Holds`). Eviction and recency only ever remove and
reorder entries.
-/

namespace Lsmdb

namespace BlockCache

/-- Every resident block satisfies `P` for its key, and the map leads to entries of its key. -/
structure Holds (P : CacheKey → Bytes → Prop) (c : BlockCache) : Prop where
  entries : ∀ e ∈ c.lru, P e.key e.block
  map_key : ∀ k n, (k, n) ∈ c.map → ∀ e ∈ c.lru, e.node = n → e.key = k
  node_lt : ∀ e ∈ c.lru, e.node < c.nextNode
  map_lt : ∀ k n, (k, n) ∈ c.map → n < c.nextNode

variable {P Q : CacheKey → Bytes → Prop} {c : BlockCache}

/-- A new cache holds nothing. -/
theorem holds_empty (P : CacheKey → Bytes → Prop) (capacity : UInt64) :
    Holds P { capacityBytes := capacity } where
  entries := by simp
  map_key := by simp
  node_lt := by simp
  map_lt := by simp

/-- The condition on the blocks may change as long as it covers what is resident. -/
theorem Holds.mono (h : Holds P c) (himp : ∀ e ∈ c.lru, P e.key e.block → Q e.key e.block) :
    Holds Q c where
  entries e he := himp e he (h.entries e he)
  map_key := h.map_key
  node_lt := h.node_lt
  map_lt := h.map_lt

/-- Moving an entry to the front neither adds nor drops one. -/
theorem mem_spliceFront {lru : List CacheEntry} {node : Nat} {e : CacheEntry} :
    e ∈ spliceFront lru node ↔ e ∈ lru := by
  simp only [spliceFront, List.mem_append, List.mem_filter, decide_eq_true_eq]
  tauto

/-- What the map finds is in the map. -/
theorem mem_of_find {key : CacheKey} {node : Nat} (h : c.find key = some node) :
    (key, node) ∈ c.map := by
  obtain ⟨l₁, l₂, heq, -⟩ := List.lookup_eq_some_iff.mp h
  rw [heq]
  simp

/-- `Lookup` only reorders, and what it returns satisfies the condition. -/
theorem Holds.lookup (h : Holds P c) (file : Nat) (offset : UInt64) :
    Holds P (c.lookup file offset).1 ∧
      ∀ block, (c.lookup file offset).2 = some block → P ⟨file, offset⟩ block := by
  unfold BlockCache.lookup
  split
  · exact ⟨h, by simp⟩
  · rename_i node hfind
    refine ⟨⟨fun e he => h.entries e (mem_spliceFront.mp he),
      fun k n hk e he => h.map_key k n hk e (mem_spliceFront.mp he),
      fun e he => h.node_lt e (mem_spliceFront.mp he), h.map_lt⟩, ?_⟩
    intro block hblock
    obtain ⟨e, he, rfl⟩ := Option.map_eq_some_iff.mp hblock
    have hmem := List.mem_of_find?_eq_some he
    -- the node that the map points to has the key of the map
    have hnode : e.node = node := by simpa using List.find?_some he
    have hkey := h.map_key _ _ (mem_of_find hfind) e hmem hnode
    exact hkey ▸ h.entries e hmem

/-- Eviction drops entries, and map items with them. -/
private theorem evict_sublist (capacity : UInt64) (back : List CacheEntry) (used : UInt64)
    (map : List (CacheKey × Nat)) :
    (∀ e ∈ (evict capacity back used map).1, e ∈ back) ∧
      ∀ p ∈ (evict capacity back used map).2.2, p ∈ map := by
  fun_induction evict capacity back used map with
  | case1 victim e rest used map hgt ih =>
    exact ⟨fun x hx => List.mem_cons_of_mem _ (ih.1 x hx),
      fun p hp => (List.mem_filter.mp (ih.2 p hp)).1⟩
  | case2 victim e rest used map hle => exact ⟨fun x hx => hx, fun p hp => hp⟩
  | case3 lru used map hshort => exact ⟨fun x hx => hx, fun p hp => hp⟩

/-- `Insert` of a block that satisfies the condition. -/
theorem Holds.insert (h : Holds P c) {file : Nat} {offset : UInt64} {block : Bytes}
    (hP : P ⟨file, offset⟩ block) : Holds P (c.insert file offset block) := by
  unfold BlockCache.insert
  split
  · exact h
  · dsimp only
    split
    · -- the entry is refreshed in place
      rename_i node hfind
      have hmem := mem_of_find hfind
      -- every entry is an old one, or the old one of this key with the new block
      have hpre {e : CacheEntry} (he : e ∈ spliceFront (c.lru.map fun e =>
          if e.node = node then { e with block := block, bytes := block.length.toUInt64 } else e)
          node) :
          ∃ e₀ ∈ c.lru, e.node = e₀.node ∧ e.key = e₀.key ∧
            (e.block = e₀.block ∨ e₀.node = node ∧ e.block = block) := by
        rw [mem_spliceFront, List.mem_map] at he
        obtain ⟨e₀, he₀, rfl⟩ := he
        refine ⟨e₀, he₀, ?_⟩
        split
        · exact ⟨rfl, rfl, .inr ⟨‹_›, rfl⟩⟩
        · exact ⟨rfl, rfl, .inl rfl⟩
      refine ⟨fun e he => ?_, fun k n hk e he hn => ?_, fun e he => ?_, h.map_lt⟩
      · obtain ⟨e₀, he₀, -, hkey, hblock | ⟨hnode, hblock⟩⟩ := hpre he
        · rw [hkey, hblock]
          exact h.entries e₀ he₀
        · rw [hkey, hblock, h.map_key _ _ hmem e₀ he₀ hnode]
          exact hP
      · obtain ⟨e₀, he₀, hnode, hkey, -⟩ := hpre he
        rw [hkey]
        exact h.map_key k n hk e₀ he₀ (hnode ▸ hn)
      · obtain ⟨e₀, he₀, hnode, -⟩ := hpre he
        rw [hnode]
        exact h.node_lt e₀ he₀
    · -- a new entry, with a node of its own
      set entry : CacheEntry := ⟨c.nextNode, ⟨file, offset⟩, block, block.length.toUInt64⟩
        with hentry
      obtain ⟨hback, hmap⟩ := evict_sublist c.capacityBytes (entry :: c.lru).reverse
        (c.usedBytes + block.length.toUInt64) ((⟨file, offset⟩, c.nextNode) :: c.map)
      -- eviction only drops entries, so what is left is the new entry or an old one
      have hlru {e : CacheEntry} (he : e ∈ (evict c.capacityBytes (entry :: c.lru).reverse
          (c.usedBytes + block.length.toUInt64)
          ((⟨file, offset⟩, c.nextNode) :: c.map)).1.reverse) : e = entry ∨ e ∈ c.lru := by
        have := hback e (List.mem_reverse.mp he)
        simpa [or_comm] using this
      refine ⟨fun e he => ?_, fun k n hk e he hn => ?_, fun e he => ?_, fun k n hk => ?_⟩
      · rcases hlru he with rfl | he
        · exact hP
        · exact h.entries e he
      -- a node number is used once, so the key of a node is the one of its entry
      · rcases List.mem_cons.mp (hmap _ hk) with heq | hk <;> rcases hlru he with rfl | he
        · cases heq
          rfl
        · cases heq
          exact absurd hn (h.node_lt e he).ne
        · exact absurd hn.symm (h.map_lt k n hk).ne
        · exact h.map_key k n hk e he hn
      · rcases hlru he with rfl | he
        · exact Nat.lt_succ_self _
        · exact Nat.lt_succ_of_lt (h.node_lt e he)
      · rcases List.mem_cons.mp (hmap _ hk) with heq | hk
        · cases heq
          exact Nat.lt_succ_self _
        · exact Nat.lt_succ_of_lt (h.map_lt k n hk)

end BlockCache

end Lsmdb
