import Lsmdb.Spec.CacheCorrect
import Lsmdb.Spec.KeyValueMap
import Lsmdb.Spec.SSTableOpen

/-!
# SSTable reads

What the reader's iterator and its point lookup return, for a reader that serves a
list of blocks (`Serves`): a block either reads back or fails with a status, so the
results cover tables whose blocks have become unreadable. The iterator yields the
entries up to the first unreadable block and ends with its status (`stream`); the
lookup returns what the entry of the key says if the block that holds it can be read.
-/

namespace Lsmdb

open SortedMap Cursor SSTableReader

/-! ## The comparison of the block scan -/

/-- The comparison of two bytes. -/
private theorem compare_byte (a b : UInt8) :
    compare a b = if a = b then .eq else if a < b then .lt else .gt := by
  simp only [compare, compareOfLessAndEq]
  split_ifs with hlt heq heq
  · exact absurd (heq ▸ hlt) (lt_irrefl b)
  all_goals rfl

/-- `memcmp` followed by a length comparison is the lexicographic order. -/
private theorem compare_take (key k : Bytes) :
    (match compare (key.take (min key.length k.length)) (k.take (min key.length k.length)) with
      | .eq => compare key.length k.length
      | o => o) = if key = k then .eq else if key < k then .lt else .gt := by
  induction key generalizing k with
  | nil =>
    cases k with
    | nil => simp
    | cons b k => simp [Nat.compare_eq_lt]
  | cons a key ih =>
    cases k with
    | nil => simp [Nat.compare_eq_gt]
    | cons b k =>
      have ih := ih k
      simp only [List.length_cons, Nat.succ_min_succ, List.take_succ_cons,
        List.compare_cons_cons, compare_byte, List.cons.injEq, List.cons_lt_cons_iff]
      -- the first byte decides unless it is the same
      by_cases hab : a = b
      · subst hab
        simp only [if_true, Ordering.then, true_and, lt_irrefl, false_or]
        rw [← ih]
        simp only [Nat.compare_eq_ite_lt, Nat.add_lt_add_iff_right]
      · by_cases hlt : a < b
        · simp [hab, hlt]
        · simp [hab, hlt]

/-- `memcmp` and the lengths decide like the order of the keys. -/
private theorem compareKey_append (key k rest : Bytes) :
    compareKey key (k ++ rest) k.length =
      some (if key = k then .eq else if key < k then .lt else .gt) := by
  have hload : loadBytes (k ++ rest) (min key.length k.length) =
      some (k.take (min key.length k.length)) := by
    have hle : min key.length k.length ≤ (k ++ rest).length := by simp
    rw [loadBytes, if_pos hle, List.take_append_of_le_length (by simp)]
  have hlen : (k.take (min key.length k.length)).length = min key.length k.length := by simp
  simp only [compareKey, hload, bind, Option.bind, pure, hlen]
  exact congrArg some (compare_take key k)

/-! ## The block scan -/

/-- The scan of `Get` at a record: it stops at the key or behind its place. -/
theorem scanBlock_appendRecord {e : Entry} (hfit : 9 + e.key.length + e.value.length < 2 ^ 32)
    (k rest : Bytes) :
    scanBlock k (appendRecord e ++ rest) =
      if k = e.key then some e.result
      else if k < e.key then some .notFound
      else scanBlock k rest := by
  obtain ⟨q, hq, hklen, hvlen, hdrop, hk, hv⟩ := record_fields hfit rest
  have hvptr : (e.key ++ (e.value ++ rest)).drop e.key.length = e.value ++ rest :=
    List.drop_left' rfl
  have hnext : (e.value ++ rest).drop e.value.length = rest := List.drop_left' rfl
  have hload : loadBytes (e.value ++ rest) e.value.length = some e.value := loadBytes_append rfl
  rw [hq, scanBlock]
  simp only [hklen, hvlen, hdrop, hk, hv, hvptr, hnext, hload, compareKey_append]
  -- the key, a larger one, or one to be skipped
  by_cases heq : k = e.key
  · simp only [if_pos heq, Entry.result, Entry.isTombstone, beq_iff_eq]
    split <;> rfl
  · rw [if_neg heq, if_neg heq]
    by_cases hlt : k < e.key
    · simp only [if_pos hlt]
    · simp only [if_neg hlt]

/-- The scan of a sorted block is map lookup in it. -/
private theorem scanBlock_blockBytes {b : List Entry} (hs : Sorted Entry.key b)
    (hfit : (blockBytes b).length < 2 ^ 32) (k : Bytes) :
    scanBlock k (blockBytes b) = some (lookup b k) := by
  induction b with
  | nil =>
    rw [blockBytes_nil, scanBlock]
    rfl
  | cons e b ih =>
    obtain ⟨he, hb⟩ := sorted_cons.mp hs
    rw [blockBytes_cons, List.length_append, length_appendRecord] at hfit
    rw [blockBytes_cons, scanBlock_appendRecord (by omega), lookup, find_cons]
    by_cases heq : k = e.key
    · rw [if_pos heq, if_pos heq.symm]
      rfl
    · rw [if_neg heq, if_neg (Ne.symm heq)]
      by_cases hlt : k < e.key
      · -- the records behind are larger still
        have hnone : find Entry.key k b = none :=
          find_eq_none_of_lt fun x hx => hlt.trans (he x hx)
        rw [if_pos hlt, hnone]
        rfl
      · rw [if_neg hlt]
        exact ih hb (by omega)

/-! ## Serving blocks -/

/-- A block of the table reads back, or reading it fails. -/
def BlockServed (r : SSTableReader) (i : Nat) (b : List Entry) : Prop :=
  r.readBlock i = some (.ok (blockBytes b)) ∨
    ∃ s : Status, r.readBlock i = some (.error s) ∧ s.ok = false

/-- A reader that serves the entries of a sorted table, up to blocks that cannot be read. -/
structure Serves (r : SSTableReader) (bs : List (List Entry)) : Prop where
  index_eq : r.index = indexFrom 0 bs
  sorted : Sorted Entry.key bs.flatten
  ne_nil : ∀ b ∈ bs, b ≠ []
  fits : BlocksFit bs
  length_lt : (dataBytes bs).length < 2 ^ 64
  filter_total : ∀ k, ∃ a, r.filter.mayContain k = some a
  filter_mem : ∀ e ∈ bs.flatten, r.filter.mayContain e.key = some true
  served : ∀ i b, bs[i]? = some b → BlockServed r i b

/-- All blocks read back. -/
def Intact (r : SSTableReader) (bs : List (List Entry)) : Prop :=
  ∀ i b, bs[i]? = some b → r.readBlock i = some (.ok (blockBytes b))

/-- What an iterator sees of the blocks from index `i` on: the entries up to the first block
    that cannot be read, and the status it ends with. -/
def stream (r : SSTableReader) : Nat → List (List Entry) → List Entry × Status
  | _, [] => ([], .OK)
  | i, b :: bs =>
    match r.readBlock i with
    | some (.error s) => ([], s)
    | _ => (b ++ (stream r (i + 1) bs).1, (stream r (i + 1) bs).2)

variable {r : SSTableReader} {bs : List (List Entry)}

/-- The stream is a prefix of the entries, and all of them if it ends with `OK`. -/
theorem stream_spec (r : SSTableReader) (i : Nat) (bs : List (List Entry))
    (hserved : ∀ j b, bs[j]? = some b → BlockServed r (i + j) b) :
    (stream r i bs).1 <+: bs.flatten ∧
      ((stream r i bs).2.ok = true → (stream r i bs).1 = bs.flatten ∧ (stream r i bs).2 = .OK) := by
  induction bs generalizing i with
  | nil => simp [stream]
  | cons b bs ih =>
    have hrest := ih (i + 1) fun j c hc => by
      have := hserved (j + 1) c (by simpa using hc)
      rwa [show i + (j + 1) = i + 1 + j by omega] at this
    rcases hserved 0 b rfl with hok | ⟨s, hs, hbad⟩
    · -- the block is read: its records come next
      rw [Nat.add_zero] at hok
      simp only [stream, hok, List.flatten_cons]
      refine ⟨(List.prefix_append_right_inj b).mpr hrest.1, fun h => ?_⟩
      rw [(hrest.2 h).1]
      exact ⟨rfl, (hrest.2 h).2⟩
    · -- the block is not read: the stream ends here
      rw [Nat.add_zero] at hs
      simp only [stream, hs]
      refine ⟨List.nil_prefix, fun h => ?_⟩
      rw [hbad] at h
      cases h

/-- An intact reader streams all entries. -/
theorem stream_of_intact (i : Nat) (h : ∀ j b, bs[j]? = some b →
    r.readBlock (i + j) = some (.ok (blockBytes b))) : stream r i bs = (bs.flatten, .OK) := by
  induction bs generalizing i with
  | nil => rfl
  | cons b bs ih =>
    have hrest := ih (i + 1) fun j c hc => by
      have := h (j + 1) c (by simpa using hc)
      rwa [show i + (j + 1) = i + 1 + j by omega] at this
    have h0 := h 0 b rfl
    rw [Nat.add_zero] at h0
    simp [stream, h0, hrest]

/-! ## The block that can hold a key -/

/-- Entries before a block are smaller than its first key. -/
private theorem lt_firstKey {init tail : List (List Entry)} {b : List Entry}
    (hs : Sorted Entry.key (init ++ b :: tail).flatten) (hb : b ≠ []) {e : Entry}
    (he : e ∈ init.flatten) : e.key < firstKey b := by
  obtain ⟨x, b', rfl⟩ := List.exists_cons_of_ne_nil hb
  rw [List.flatten_append] at hs
  exact (sorted_append.mp hs).2.2 e he x (by simp)

/-- Entries of a block and behind it are at least its first key. -/
private theorem firstKey_le {init tail : List (List Entry)} {b : List Entry}
    (hs : Sorted Entry.key (init ++ b :: tail).flatten) (hb : b ≠ []) {e : Entry}
    (he : e ∈ (b :: tail).flatten) : firstKey b ≤ e.key := by
  obtain ⟨x, b', rfl⟩ := List.exists_cons_of_ne_nil hb
  rw [List.flatten_append] at hs
  have hs' := (sorted_append.mp hs).2.1
  simp only [List.flatten_cons, List.cons_append, List.mem_cons] at he hs'
  rcases he with rfl | he
  · exact le_rfl
  · exact ((sorted_cons.mp hs').1 e he).le

/-- The index splits at a key: the blocks before the candidate block are smaller, those behind
    it larger. -/
private theorem boundary_index (h : Sorted Entry.key bs.flatten) (hne : ∀ b ∈ bs, b ≠ []) (k : Bytes)
    (hindex : r.index = indexFrom 0 bs) :
    let p : IndexEntry → Bool := fun e => decide (e.firstKey ≤ k)
    BinarySearch.Partitioned p r.index ∧
      ((BinarySearch.boundary p r.index = 0 ∧ ∀ e ∈ bs.flatten, k < e.key) ∨
        ∃ init b tail, bs = init ++ b :: tail ∧
          BinarySearch.boundary p r.index = init.length + 1 ∧
          (∀ e ∈ init.flatten, e.key < k) ∧ ∀ e ∈ tail.flatten, k < e.key) := by
  intro p
  set q : List Entry → Bool := fun b => decide (firstKey b ≤ k) with hq
  have hmap : r.index.map (·.firstKey) = bs.map firstKey := by
    rw [hindex, map_firstKey_indexFrom]
  -- first keys ascend, so the predicate holds on an initial segment
  have hpairs : bs.Pairwise fun b c => firstKey b < firstKey c := by
    have hflat := (List.pairwise_flatten.mp h).2
    refine hflat.imp_of_mem fun {b c} hb hc hlt => ?_
    obtain ⟨x, b', rfl⟩ := List.exists_cons_of_ne_nil (hne b hb)
    obtain ⟨y, c', rfl⟩ := List.exists_cons_of_ne_nil (hne c hc)
    exact hlt x List.mem_cons_self y List.mem_cons_self
  have hpart : BinarySearch.Partitioned q bs := by
    refine hpairs.imp fun {b c} hlt hc => ?_
    simp only [hq, decide_eq_true_eq] at hc ⊢
    exact hlt.le.trans hc
  have hpart' : BinarySearch.Partitioned p r.index := by
    have : ((r.index.map (·.firstKey)).Pairwise (· < ·)) := by
      rw [hmap]
      exact hpairs.map _ fun _ _ hlt => hlt
    refine (List.pairwise_map.mp this).imp fun {a b} hlt hb => ?_
    simp only [p, decide_eq_true_eq] at hb ⊢
    exact hlt.le.trans hb
  -- the index has the first keys of the blocks, so the search ends at the same place
  have hbound : BinarySearch.boundary p r.index = BinarySearch.boundary q bs := by
    have h₁ := BinarySearch.boundary_map (fun key : Bytes => decide (key ≤ k))
      (fun e : IndexEntry => e.firstKey) r.index
    have h₂ := BinarySearch.boundary_map (fun key : Bytes => decide (key ≤ k)) firstKey bs
    rw [hmap, h₂] at h₁
    exact h₁.symm
  refine ⟨hpart', ?_⟩
  rw [hbound]
  obtain ⟨bs₁, bs₂, rfl, hlen, hle, hgt⟩ := BinarySearch.exists_append_of_boundary hpart
  simp only [hq, decide_eq_true_eq] at hle hgt
  -- behind the boundary every key is larger
  have htail : ∀ e ∈ bs₂.flatten, k < e.key := by
    cases bs₂ with
    | nil => simp
    | cons c tail =>
      intro e he
      exact (not_le.mp (hgt c List.mem_cons_self)).trans_le
        (firstKey_le h (hne c (by simp)) he)
  rcases List.eq_nil_or_concat' bs₁ with rfl | ⟨init, b, rfl⟩
  · exact .inl ⟨hlen.symm, htail⟩
  · refine .inr ⟨init, b, bs₂, by simp, by simpa using hlen.symm, fun e he => ?_, htail⟩
    rw [List.append_assoc] at h
    exact (lt_firstKey h (hne b (by simp)) he).trans_le (hle b (by simp))

/-! ## The iterator -/

namespace SSTableReader.Iterator

/-- The iterator is positioned in block `i` and `rest` is what is left of the block. -/
structure At (r : SSTableReader) (i : Nat) (rest : List Entry) (it : Iterator) : Prop where
  reader_eq : it.reader = r
  status_eq : it.status = .OK
  blockIdx_eq : it.blockIdx = i
  pos_le : it.pos ≤ it.block.length
  drop_eq : it.block.drop it.pos = blockBytes rest
  fits : (blockBytes rest).length < 2 ^ 32

variable {r : SSTableReader} {i : Nat} {it : Iterator}

/-- `ParseCurrent` on a block that is not exhausted parses its next record. -/
theorem At.parseRecord {e : Entry} {rest : List Entry} (h : At r i (e :: rest) it) :
    ∃ it', it.parseCurrent = some it' ∧ At r i rest it' ∧ it'.valid = true ∧ it'.key = e.key ∧
      it'.value = e.value ∧ it'.type = e.type := by
  have hfit := h.fits
  rw [blockBytes_cons, List.length_append, length_appendRecord] at hfit
  obtain ⟨q, hq, hklen, hvlen, hdrop, hk, hv⟩ :=
    record_fields (e := e) (by omega) (blockBytes rest)
  -- there is room for the whole record in the block
  have hlen : it.block.length = it.pos + (9 + e.key.length + e.value.length) +
      (blockBytes rest).length := by
    have hl := congrArg List.length h.drop_eq
    rw [List.length_drop, blockBytes_cons, List.length_append, length_appendRecord] at hl
    have := h.pos_le
    omega
  have hcur : it.block.drop it.pos = e.type.raw :: q := by rw [h.drop_eq, blockBytes_cons, hq]
  have hdrop4 : (q.drop 4).drop 4 = e.key ++ (e.value ++ blockBytes rest) := by
    rw [List.drop_drop]
    exact hdrop
  have hkey : loadBytes (e.key ++ (e.value ++ blockBytes rest)) e.key.length = some e.key :=
    loadBytes_append rfl
  have hval : loadBytes (e.value ++ blockBytes rest) e.value.length = some e.value :=
    loadBytes_append rfl
  set it' : Iterator := { it with
    type := e.type, key := e.key, value := e.value, valid := true
    pos := it.pos + 1 + 4 + 4 + e.key.length + e.value.length } with hit'
  have hparse : it.parseRecord = some it' := by
    simp only [Iterator.parseRecord, hcur, List.getElem?_cons_zero, bind, Option.bind,
      List.drop_succ_cons, List.drop_zero, hklen, hvlen, hdrop4, hk, hv, hkey, hval,
      List.drop_left, pure, hit']
  refine ⟨it', ?_, ?_, rfl, rfl, rfl, rfl⟩
  · have hs : ¬ ((!it.status.ok) = true) := by simp [h.status_eq]
    rw [parseCurrent, if_neg hs, if_neg (by omega), hparse]
  · refine ⟨h.reader_eq, h.status_eq, h.blockIdx_eq, ?_, ?_, by omega⟩
    · rw [hit']
      dsimp only
      omega
    · rw [hit']
      dsimp only
      rw [show it.pos + 1 + 4 + 4 + e.key.length + e.value.length =
        it.pos + (9 + e.key.length + e.value.length) by omega, ← List.drop_drop, h.drop_eq,
        blockBytes_cons, List.drop_left' (length_appendRecord e)]

/-- `LoadBlock` of a block that reads back. -/
theorem at_loadBlock {b : List Entry} (hr : it.reader = r)
    (hread : r.readBlock i = some (.ok (blockBytes b))) (hfit : (blockBytes b).length < 2 ^ 32) :
    ∃ it', it.loadBlock i = some it' ∧ At r i b it' := by
  refine ⟨{ it with blockIdx := i, pos := 0, block := blockBytes b, status := .OK }, ?_,
    ⟨hr, rfl, rfl, Nat.zero_le _, rfl, hfit⟩⟩
  simp only [loadBlock, hr, hread, bind, Option.bind, pure]

/-- `LoadBlock` of a block that cannot be read leaves an iterator that `ParseCurrent` ends. -/
private theorem loadBlock_error {s : Status} (hr : it.reader = r)
    (hread : r.readBlock i = some (.error s)) (hbad : s.ok = false) :
    ∃ it' it'', it.loadBlock i = some it' ∧ it'.parseCurrent = some it'' ∧
      it''.valid = false ∧ it''.status = s := by
  refine ⟨{ it with blockIdx := i, pos := 0, status := s },
    { it with blockIdx := i, pos := 0, status := s, valid := false }, ?_, ?_, rfl, rfl⟩
  · simp only [loadBlock, hr, hread, bind, Option.bind, pure]
  · rw [parseCurrent, if_pos (by simp [hbad])]

/-- What `ParseCurrent` makes of an exhausted block follows the records of the block. -/
private theorem At.yields_append {rest l : List Entry} {s : Status}
    (hend : ∀ it, At r i [] it → ∃ it', it.parseCurrent = some it' ∧ Yields .OK it' l s)
    (h : At r i rest it) :
    ∃ it', it.parseCurrent = some it' ∧ Yields .OK it' (rest ++ l) s := by
  induction rest generalizing it with
  | nil => exact hend it h
  | cons e rest ih =>
    obtain ⟨it', hparse, hat, hv, hkey, hval, htype⟩ := h.parseRecord
    obtain ⟨it'', hnext, hy⟩ := ih hat
    refine ⟨it', hparse, ?_, hat.status_eq, it'', ?_, hy⟩
    · simp [Cursor.head, hv, hkey, hval, htype]
    · simpa [Cursor.next, next, hv] using hnext

/-- `ParseCurrent` on an exhausted block: the guards of its loop. -/
private theorem At.exhausted (h : At r i [] it) :
    ¬ ((!it.status.ok) = true) ∧ it.pos ≥ it.block.length := by
  refine ⟨by simp [h.status_eq], ?_⟩
  have hl := congrArg List.length h.drop_eq
  rw [List.length_drop, blockBytes_nil, List.length_nil] at hl
  omega

/-- `ParseCurrent` on an exhausted block that is not the last one: the loop continues in the block it
    loads. -/
theorem parseCurrent_exhausted (hs : it.status.ok = true) (hpos : it.pos ≥ it.block.length)
    (hmore : it.blockIdx + 1 < it.reader.index.length) :
    it.parseCurrent = (it.loadBlock (it.blockIdx + 1)).bind parseCurrent := by
  rw [parseCurrent, if_neg (by simp [hs]), if_pos hpos, dif_neg (by omega)]
  split <;> simp_all

/-- `ParseCurrent` positions the iterator on what is left of the block and of the blocks behind
    it. -/
private theorem At.yields {later : List (List Entry)} {rest : List Entry} (h : At r i rest it)
    (hlen : r.index.length = i + 1 + later.length) (hfit : BlocksFit later)
    (hserved : ∀ j b, later[j]? = some b → BlockServed r (i + 1 + j) b) :
    ∃ it', it.parseCurrent = some it' ∧
      Yields .OK it' (rest ++ (stream r (i + 1) later).1) (stream r (i + 1) later).2 := by
  induction later generalizing i it rest with
  | nil =>
    -- the last block: the iterator becomes invalid
    refine h.yields_append fun it h => ?_
    obtain ⟨hs, hpos⟩ := h.exhausted
    have hlast : it.blockIdx + 1 ≥ it.reader.index.length := by
      rw [h.blockIdx_eq, h.reader_eq, hlen]
      simp
    refine ⟨{ it with valid := false }, ?_, rfl, h.status_eq⟩
    rw [parseCurrent, if_neg hs, if_pos hpos, dif_pos hlast]
  | cons b later ih =>
    refine h.yields_append fun it h => ?_
    obtain ⟨hs, hpos⟩ := h.exhausted
    have hmore : it.blockIdx + 1 < it.reader.index.length := by
      rw [h.blockIdx_eq, h.reader_eq, hlen]
      simp
    have hparse (it' : Iterator) (hload : it.loadBlock (i + 1) = some it') :
        it.parseCurrent = it'.parseCurrent := by
      rw [parseCurrent_exhausted (by simp [h.status_eq]) hpos hmore, h.blockIdx_eq, hload,
        Option.bind_some]
    -- the next block is read or not
    rcases hserved 0 b rfl with hread | ⟨s, hread, hbad⟩
    · obtain ⟨it', hload, hat⟩ := at_loadBlock h.reader_eq hread
        (lt_of_le_of_lt (hfit b List.mem_cons_self) (by omega))
      obtain ⟨it'', hnext, hy⟩ := ih hat (by rw [hlen, List.length_cons]; omega)
        (fun c hc => hfit c (List.mem_cons_of_mem _ hc)) fun j c hc => by
          have := hserved (j + 1) c (by simpa using hc)
          rwa [show i + 1 + (j + 1) = i + 1 + 1 + j by omega] at this
      refine ⟨it'', (hparse it' hload).trans hnext, ?_⟩
      have hread' : r.readBlock (i + 1) = some (.ok (blockBytes b)) := hread
      simpa [stream, hread'] using hy
    · obtain ⟨it', it'', hload, hnext, hv, hst⟩ := loadBlock_error h.reader_eq hread hbad
      refine ⟨it'', (hparse it' hload).trans hnext, ?_⟩
      have hread' : r.readBlock (i + 1) = some (.error s) := hread
      simp [stream, hread', Yields, Cursor.head, Cursor.status, hv, hst]

/-- The loop of `Seek` skips the smaller keys of what `ParseCurrent` yields. -/
private theorem seekLoop_yields {l : List Entry} {s : Status} {it it' : Iterator} (target : Bytes)
    (hparse : it.parseCurrent = some it') (hy : Yields .OK it' l s) :
    ∃ it'', seekLoop target it = some it'' ∧
      Yields .OK it'' (l.dropWhile fun e => decide (e.key < target)) s := by
  induction l generalizing it it' with
  | nil =>
    -- nothing is left
    have hv : it'.valid = false := by
      have := hy.1
      simp only [Cursor.head] at this
      simpa using this
    refine ⟨it', ?_, hy⟩
    rw [seekLoop]
    split <;> simp_all
  | cons e l ih =>
    obtain ⟨hhead, hstatus, it'', hnext, hy'⟩ := hy
    have hv : it'.valid = true := by
      by_contra hv
      simp [Cursor.head, hv] at hhead
    have hkey : it'.key = e.key := by
      simp only [Cursor.head, hv, if_true, Option.some.injEq] at hhead
      rw [← hhead]
    -- one turn of the loop
    have hloop : seekLoop target it =
        if e.key ≥ target then some it' else seekLoop target it' := by
      rw [seekLoop]
      split
      · simp_all
      · rename_i it₁ hparse'
        rw [hparse] at hparse'
        cases hparse'
        rw [dif_pos hv, hkey]
    have hnext' : it'.parseCurrent = some it'' := by simpa [Cursor.next, next, hv] using hnext
    rw [hloop]
    by_cases hge : e.key ≥ target
    · rw [if_pos hge, List.dropWhile_cons_of_neg (by simpa using hge)]
      exact ⟨it', rfl, hhead, hstatus, it'', hnext, hy'⟩
    · rw [if_neg hge, List.dropWhile_cons_of_pos (by simpa using hge)]
      exact ih hnext' hy'

/-- Loading a block positions the iterator on the stream from there. -/
private theorem loadBlock_yields {bs : List (List Entry)} (h : Serves r bs) (hr : it.reader = r)
    (hi : i < bs.length) :
    ∃ it' it'', it.loadBlock i = some it' ∧ it'.parseCurrent = some it'' ∧
      Yields .OK it'' (stream r i (bs.drop i)).1 (stream r i (bs.drop i)).2 := by
  rw [List.drop_eq_getElem_cons hi]
  have hbi : bs[i]? = some bs[i] := List.getElem?_eq_getElem hi
  -- the block is read, and the others follow; or its error is the status
  rcases h.served i _ hbi with hread | ⟨s, hread, hbad⟩
  · have hfit := h.fits _ (List.getElem_mem hi)
    obtain ⟨it', hload, hat⟩ := at_loadBlock hr hread (by omega)
    have hlen : r.index.length = i + 1 + (bs.drop (i + 1)).length := by
      rw [h.index_eq, length_indexFrom, List.length_drop]
      omega
    obtain ⟨it'', hparse, hy⟩ := hat.yields hlen
      (fun b hb => h.fits b (List.mem_of_mem_drop hb))
      (fun j b hb => h.served _ b (by simpa using hb))
    exact ⟨it', it'', hload, hparse, by simpa [stream, hread] using hy⟩
  · obtain ⟨it', it'', hload, hnext, hv, hst⟩ := loadBlock_error hr hread hbad
    refine ⟨it', it'', hload, hnext, ?_⟩
    simp [stream, hread, Yields, Cursor.head, Cursor.status, hv, hst]

/-- `SeekToFirst`. An iterator over a table without blocks keeps its status. -/
theorem seekToFirst_yields {bs : List (List Entry)} (h : Serves r bs) (hr : it.reader = r)
    (hstatus : bs = [] → it.status = .OK) :
    ∃ it', it.seekToFirst = some it' ∧ Yields .OK it' (stream r 0 bs).1 (stream r 0 bs).2 := by
  rcases hbs : bs with _ | ⟨b, bs'⟩
  · have hnil : it.reader.index = [] := by rw [hr, h.index_eq, hbs]; rfl
    exact ⟨{ it with valid := false }, by rw [seekToFirst, if_pos hnil], rfl, hstatus hbs⟩
  · have hcons : it.reader.index ≠ [] := by rw [hr, h.index_eq, hbs]; simp [indexFrom]
    obtain ⟨it', it'', hload, hparse, hy⟩ := loadBlock_yields h hr (i := 0) (by simp [hbs])
    refine ⟨it'', by rw [seekToFirst, if_neg hcons, hload]; exact hparse, ?_⟩
    simpa [hbs] using hy

/-- `Seek` positions the iterator on a prefix of the entries from the target on, and on all of
    them if the iteration ends with `OK`, as it does if all blocks read back. -/
theorem seek_yields {bs : List (List Entry)} (h : Serves r bs) (hr : it.reader = r)
    (hstatus : bs = [] → it.status = .OK) (target : Bytes) :
    ∃ it' l s, it.seek target = some it' ∧ Yields .OK it' l s ∧
      l <+: fromKey Entry.key target bs.flatten ∧
      (s.ok = true → l = fromKey Entry.key target bs.flatten ∧ s = .OK) ∧
      (Intact r bs → s = .OK) := by
  by_cases hbs : bs = []
  · -- an empty table
    have hnil : it.reader.index = [] := by rw [hr, h.index_eq, hbs]; rfl
    refine ⟨{ it with valid := false }, [], .OK, ?_, ⟨rfl, hstatus hbs⟩, List.nil_prefix,
      fun _ => ⟨by rw [hbs]; rfl, rfl⟩, fun _ => rfl⟩
    rw [seek, if_pos hnil]
    rfl
  -- everything before the block where the search starts is smaller than the target
  have hstart : ∃ idx, (∀ it₁, it.loadBlock idx = some it₁ →
      it.seek target = seekLoop target it₁) ∧ idx < bs.length ∧
      ∀ e ∈ (bs.take idx).flatten, e.key < target := by
    have hcons : it.reader.index ≠ [] := by
      rw [hr, h.index_eq]
      intro hnil
      have := congrArg List.length hnil
      simp [hbs] at this
    obtain ⟨hpart, hcase⟩ := boundary_index h.sorted h.ne_nil target h.index_eq
    have hsearch := BinarySearch.loop_eq_boundary hpart 0 r.index.length (Nat.zero_le _)
      (BinarySearch.boundary_le _ _) le_rfl
    rcases hcase with ⟨hzero, -⟩ | ⟨init, b, tail, rfl, hsucc, hlt, -⟩
    · refine ⟨0, fun it₁ hload => ?_, List.length_pos_of_ne_nil hbs, by simp⟩
      rw [seek, if_neg hcons, hr, hsearch, hzero]
      simp only [bind, Option.bind, if_true, hload]
    · refine ⟨init.length, fun it₁ hload => ?_, by simp, by simpa using hlt⟩
      rw [seek, if_neg hcons, hr, hsearch, hsucc]
      simp only [bind, Option.bind, Nat.add_one_ne_zero, if_false, Nat.add_sub_cancel, hload]
  obtain ⟨idx, hseek, hidx, hlt⟩ := hstart
  obtain ⟨it', it'', hload, hparse, hy⟩ := loadBlock_yields h hr hidx
  obtain ⟨it₃, hloop, hy₃⟩ := seekLoop_yields target hparse hy
  obtain ⟨hpre, hall⟩ := stream_spec r idx (bs.drop idx)
    fun j b hb => h.served _ b (by simpa using hb)
  -- the blocks from `idx` on are sorted, so skipping the smaller keys is filtering them
  have hsorted : Sorted Entry.key (stream r idx (bs.drop idx)).1 := by
    refine h.sorted.sublist (hpre.sublist.trans ?_)
    exact List.Sublist.flatten (List.drop_sublist idx bs)
  have hfrom : fromKey Entry.key target bs.flatten =
      fromKey Entry.key target (bs.drop idx).flatten := by
    conv_lhs => rw [← List.take_append_drop idx bs, List.flatten_append]
    exact fromKey_append_of_lt hlt _
  have hdrop : (stream r idx (bs.drop idx)).1.dropWhile (fun e => decide (e.key < target)) =
      fromKey Entry.key target (stream r idx (bs.drop idx)).1 := by
    convert hsorted.dropWhile_eq target
  rw [hdrop] at hy₃
  refine ⟨it₃, _, _, (hseek it' hload).trans hloop, hy₃, ?_, fun hok => ?_, fun hint => ?_⟩
  · rw [hfrom]
    exact hpre.filter _
  · obtain ⟨heq, hst⟩ := hall hok
    rw [hfrom, heq]
    exact ⟨rfl, hst⟩
  · rw [stream_of_intact idx fun j b hb => hint _ b (by simpa using hb)]

/-! ### Where an iterator can stand -/

/-- An iterator over the table, wherever calls of its functions have left it. -/
inductive Positioned (r : SSTableReader) : Iterator → Prop
  | new : Positioned r r.newIterator
  | seekToFirst {it it' : Iterator} (h : Positioned r it) (hseek : it.seekToFirst = some it') :
    Positioned r it'
  | seek {it it' : Iterator} (h : Positioned r it) {target : Bytes}
    (hseek : it.seek target = some it') : Positioned r it'
  | next {it it' : Iterator} (h : Positioned r it) (hnext : it.next = some it') : Positioned r it'

/-- The iterator stays on its table. -/
theorem parseCurrent_reader {it it' : Iterator} (h : it.parseCurrent = some it') :
    it'.reader = it.reader := by
  fun_induction parseCurrent it with
  | case1 | case2 => cases h; rfl
  | case3 => cases h
  | case4 it _ _ _ it₁ hload ih => exact (ih h).trans (loadBlock_eq hload).1
  | case5 => exact (parseRecord_eq h).1

/-- So does the loop of `Seek`. -/
private theorem seekLoop_reader {target : Bytes} {it it' : Iterator} (h : seekLoop target it = some it') :
    it'.reader = it.reader := by
  fun_induction seekLoop target it with
  | case1 => cases h
  | case2 it it₁ hparse => cases h; exact parseCurrent_reader hparse
  | case3 it it₁ hparse _ _ ih => exact (ih h).trans (parseCurrent_reader hparse)
  | case4 it it₁ hparse => cases h; exact parseCurrent_reader hparse

/-- An iterator stays with its table, and without blocks it stays where it began. -/
theorem Positioned.spec {r : SSTableReader} {it : Iterator} (h : Positioned r it) :
    it.reader = r ∧ (r.index = [] → it.valid = false ∧ it.status = .OK) := by
  induction h with
  | new => exact ⟨rfl, fun _ => ⟨rfl, rfl⟩⟩
  | @seekToFirst it it' _ hseek ih =>
    obtain ⟨hr, hempty⟩ := ih
    rw [Iterator.seekToFirst, hr] at hseek
    split at hseek
    -- on an empty table the call leaves the iterator invalid
    next hnil =>
      cases hseek
      exact ⟨rfl, fun _ => ⟨rfl, (hempty hnil).2⟩⟩
    next hne =>
      obtain ⟨it₁, hload, hparse⟩ := Option.bind_eq_some_iff.mp hseek
      rw [parseCurrent_reader hparse, (loadBlock_eq hload).1]
      exact ⟨hr, fun hnil => absurd hnil hne⟩
  | @seek it it' _ target hseek ih =>
    obtain ⟨hr, hempty⟩ := ih
    rw [Iterator.seek, hr] at hseek
    split at hseek
    next hnil =>
      cases hseek
      exact ⟨rfl, fun _ => ⟨rfl, (hempty hnil).2⟩⟩
    next hne =>
      obtain ⟨lo, -, hseek⟩ := Option.bind_eq_some_iff.mp hseek
      obtain ⟨it₁, hload, hloop⟩ := Option.bind_eq_some_iff.mp hseek
      rw [seekLoop_reader hloop, (loadBlock_eq hload).1]
      exact ⟨hr, fun hnil => absurd hnil hne⟩
  | @next it it' _ hnext ih =>
    obtain ⟨hr, hempty⟩ := ih
    rw [Iterator.next] at hnext
    split at hnext
    next =>
      cases hnext
      exact ⟨hr, hempty⟩
    next hvalid =>
      refine ⟨(parseCurrent_reader hnext).trans hr, fun hnil => ?_⟩
      rw [(hempty hnil).1] at hvalid
      exact absurd rfl hvalid

end SSTableReader.Iterator

/-! ## Point lookup -/

/-- The block that the cache holds for block `i` of the table. -/
def cachedBlock (r : SSTableReader) (cache : Option BlockCache) (i : Nat) : Option Bytes := do
  let c ← cache
  let e ← r.index[i]?
  (c.lookup r.fileNumber e.offset).2

/-- Block `i` of the table can be fetched, from the cache or from the file. -/
def Fetchable (r : SSTableReader) (cache : Option BlockCache) (i : Nat) : Prop :=
  (cachedBlock r cache i).isSome ∨ ∃ block, r.readBlock i = some (.ok block)

/-- The block that holds the key, if there is one, can be fetched. -/
def Readable (r : SSTableReader) (cache : Option BlockCache) (bs : List (List Entry))
    (k : Bytes) : Prop :=
  ∀ i b, bs[i]? = some b → (∃ e ∈ b, e.key = k) → Fetchable r cache i

/-- A condition on cached blocks that says, for the table's blocks, that they are the right
    ones. -/
def CachesTable (P : CacheKey → Bytes → Prop) (r : SSTableReader) (bs : List (List Entry)) : Prop :=
  ∀ (i : Nat) (b : List Entry) (e : IndexEntry), bs[i]? = some b → r.index[i]? = some e →
    ∀ block, P ⟨r.fileNumber, e.offset⟩ block ↔ block = blockBytes b

variable {P : CacheKey → Bytes → Prop} {cache : Option BlockCache}

/-- The right blocks of a table, under their offsets. -/
def IsTableBlock (r : SSTableReader) (bs : List (List Entry)) (offset : UInt64) (block : Bytes) :
    Prop :=
  ∃ (i : Nat) (b : List Entry) (e : IndexEntry), bs[i]? = some b ∧ r.index[i]? = some e ∧
    e.offset = offset ∧ block = blockBytes b

/-- The blocks of a table start at different offsets. -/
private theorem Serves.offset_inj (h : Serves r bs) {i j : Nat} {e f : IndexEntry}
    (he : r.index[i]? = some e) (hf : r.index[j]? = some f) (heq : e.offset = f.offset) : i = j := by
  rw [h.index_eq, getElem?_indexFrom, Option.map_eq_some_iff] at he hf
  obtain ⟨b, hb, rfl⟩ := he
  obtain ⟨c, hc, rfl⟩ := hf
  have hi := (List.getElem?_eq_some_iff.mp hb).1
  have hj := (List.getElem?_eq_some_iff.mp hc).1
  -- a longer list of blocks takes more bytes
  have hgrow {m n : Nat} (hmn : m < n) (hn : n ≤ bs.length) :
      (dataBytes (bs.take m)).length < (dataBytes (bs.take n)).length := by
    obtain ⟨d, rfl⟩ : ∃ d, n = m + 1 + d := ⟨n - (m + 1), by omega⟩
    rw [List.take_add, List.take_add_one, List.getElem?_eq_getElem (by omega)]
    simp only [Option.toList_some, dataBytes_append, dataBytes_cons, List.length_append,
      length_sectionBytes]
    omega
  have hle {n : Nat} (hn : n < bs.length) : (dataBytes (bs.take n)).length < 2 ^ 64 := by
    have := hgrow hn le_rfl
    rw [List.take_length] at this
    exact this.trans h.length_lt
  have hnat := congrArg UInt64.toNat heq
  simp only [Nat.zero_add] at hnat
  rw [toNat_toUInt64_of_lt (hle hi), toNat_toUInt64_of_lt (hle hj)] at hnat
  rcases Nat.lt_trichotomy i j with hlt | heq | hlt
  · exact absurd hnat (hgrow hlt hj.le).ne
  · exact heq
  · exact absurd hnat (hgrow hlt hi.le).ne'

/-- A condition that agrees with `IsTableBlock` on the table's file number is right for it. -/
theorem Serves.cachesTable (h : Serves r bs)
    (hP : ∀ offset block, P ⟨r.fileNumber, offset⟩ block ↔ IsTableBlock r bs offset block) :
    CachesTable P r bs := by
  intro i b e hb he block
  rw [hP]
  constructor
  · rintro ⟨j, c, f, hc, hf, hoff, rfl⟩
    obtain rfl := h.offset_inj hf he hoff
    rw [hb] at hc
    cases hc
    rfl
  · rintro rfl
    exact ⟨i, b, e, hb, he, rfl, rfl⟩

/-- `GetBlock` returns the cached block, or what `ReadBlock` returns; the cache keeps a condition that
    the block meets. -/
theorem getBlock_holds (hc : ∀ c ∈ cache, BlockCache.Holds P c) {i : Nat} {e : IndexEntry}
    {x : Except Status Bytes} (he : r.index[i]? = some e) (hread : r.readBlock i = some x)
    (hP : ∀ block, x = .ok block → P ⟨r.fileNumber, e.offset⟩ block) :
    ∃ y cache', r.getBlock cache i = some (y, cache') ∧ cache'.isSome = cache.isSome ∧
      (∀ c ∈ cache', BlockCache.Holds P c) ∧
      ((∃ block, cachedBlock r cache i = some block ∧ y = .ok block ∧
          P ⟨r.fileNumber, e.offset⟩ block) ∨
        cachedBlock r cache i = none ∧ y = x) := by
  rcases cache with _ | c
  · -- straight from the file
    refine ⟨x, none, ?_, rfl, by simp, .inr ⟨rfl, rfl⟩⟩
    simp only [getBlock, he, hread, bind, Option.bind, pure]
  · obtain ⟨hlook, hval⟩ := (hc c rfl).lookup r.fileNumber e.offset
    have hcached : cachedBlock r (some c) i = (c.lookup r.fileNumber e.offset).2 := by
      simp [cachedBlock, he]
    cases hl : c.lookup r.fileNumber e.offset with
    | mk c' hit =>
      rw [hl] at hlook hval hcached
      cases hit with
      | some block =>
        refine ⟨.ok block, some c', ?_, rfl, by simpa using hlook,
          .inl ⟨block, hcached, rfl, hval block rfl⟩⟩
        simp only [getBlock, he, hl, bind, Option.bind, pure]
      | none =>
        cases x with
        | error s =>
          refine ⟨.error s, some c', ?_, rfl, by simpa using hlook, .inr ⟨hcached, rfl⟩⟩
          simp only [getBlock, he, hl, hread, bind, Option.bind, pure]
        | ok block =>
          -- the block goes into the cache
          refine ⟨.ok block, some (c'.insert r.fileNumber e.offset block), ?_, rfl, ?_,
            .inr ⟨hcached, rfl⟩⟩
          · simp only [getBlock, he, hl, hread, bind, Option.bind, pure]
          · simpa using BlockCache.Holds.insert hlook (hP block rfl)

/-- `GetBlock` returns the block if it can be fetched and fails otherwise; the cache stays
    sound. -/
private theorem getBlock_spec (h : Serves r bs) (hP : CachesTable P r bs)
    (hc : ∀ c ∈ cache, BlockCache.Holds P c) {i : Nat} {b : List Entry} (hb : bs[i]? = some b) :
    ∃ x cache', r.getBlock cache i = some (x, cache') ∧ cache'.isSome = cache.isSome ∧
      (∀ c ∈ cache', BlockCache.Holds P c) ∧
      ((Fetchable r cache i ∧ x = .ok (blockBytes b)) ∨
        (¬ Fetchable r cache i ∧ ∃ s : Status, x = .error s ∧ r.readBlock i = some (.error s))) := by
  obtain ⟨e, he⟩ : ∃ e, r.index[i]? = some e := by
    rw [h.index_eq, getElem?_indexFrom, hb]
    exact ⟨_, rfl⟩
  have hPb := hP i b e hb he
  rcases h.served i b hb with hread | ⟨s, hread, -⟩
  · obtain ⟨y, cache', hget, hsome, hcache, hcases⟩ := getBlock_holds hc he hread
      fun block hblock => (hPb block).mpr (Except.ok.inj hblock).symm
    refine ⟨y, cache', hget, hsome, hcache, .inl ⟨.inr ⟨_, hread⟩, ?_⟩⟩
    rcases hcases with ⟨block, -, rfl, hblock⟩ | ⟨-, rfl⟩
    · -- a cached block is the one of the file
      rw [(hPb block).mp hblock]
    · rfl
  · obtain ⟨y, cache', hget, hsome, hcache, hcases⟩ := getBlock_holds hc he hread (by simp)
    refine ⟨y, cache', hget, hsome, hcache, ?_⟩
    rcases hcases with ⟨block, hcached, rfl, hblock⟩ | ⟨hcached, rfl⟩
    · exact .inl ⟨.inl (by simp [hcached]), by rw [(hPb block).mp hblock]⟩
    · exact .inr ⟨by simp [Fetchable, hcached, hread], s, rfl, hread⟩

/-- What is known about the outcome of a lookup: the value of the map if the block of the key can
    be fetched, `kNotFound` with the error otherwise, and `OK` if all blocks read back. -/
structure GetOutcome (P : CacheKey → Bytes → Prop) (r : SSTableReader) (cache : Option BlockCache)
    (bs : List (List Entry)) (k : Bytes) (out : (LookupResult × Status) × Option BlockCache) :
    Prop where
  readable : Readable r cache bs k → out.1.1 = lookup bs.flatten k
  unreadable : ¬ Readable r cache bs k → out.1.1 = .notFound
  status : Intact r bs → out.1.2 = .OK
  result : out.1 = (lookup bs.flatten k, .OK) ∨
    out.1.1 = .notFound ∧ ∃ i, r.readBlock i = some (.error out.1.2)
  isSome_eq : out.2.isSome = cache.isSome
  cache : ∀ c ∈ out.2, BlockCache.Holds P c

/-- A lookup that stops before it fetches a block, because the table does not have the key. -/
private theorem getOutcome_of_absent (hc : ∀ c ∈ cache, BlockCache.Holds P c) {k : Bytes}
    (hk : ∀ e ∈ bs.flatten, e.key ≠ k) :
    GetOutcome P r cache bs k ((.notFound, .OK), cache) where
  readable _ := by rw [lookup, find_eq_none_iff.mpr hk]; rfl
  unreadable _ := rfl
  status _ := rfl
  result := .inl (by rw [lookup, find_eq_none_iff.mpr hk]; rfl)
  isSome_eq := rfl
  cache := hc

/-- A key can only be in the block that the index leads to. -/
private theorem holder_index {init tail : List (List Entry)} {b c : List Entry} {k : Bytes}
    (hbefore : ∀ e ∈ init.flatten, e.key < k) (hafter : ∀ e ∈ tail.flatten, k < e.key) {i : Nat}
    (hi : (init ++ b :: tail)[i]? = some c) {e : Entry} (he : e ∈ c) (hek : e.key = k) :
    i = init.length := by
  rcases Nat.lt_trichotomy i init.length with hlt | heq | hgt
  · rw [List.getElem?_append_left hlt] at hi
    have := hbefore e (List.mem_flatten_of_mem (List.mem_of_getElem? hi) he)
    exact absurd hek this.ne
  · exact heq
  · obtain ⟨j, rfl⟩ : ∃ j, i = init.length + (j + 1) := ⟨i - init.length - 1, by omega⟩
    rw [List.getElem?_append_right (by omega), Nat.add_sub_cancel_left,
      List.getElem?_cons_succ] at hi
    have := hafter e (List.mem_flatten_of_mem (List.mem_of_getElem? hi) he)
    exact absurd hek this.ne'

/-- `Get`, with the filter on or off, through a cache or not. -/
theorem get_spec (h : Serves r bs) (hP : CachesTable P r bs)
    (hc : ∀ c ∈ cache, BlockCache.Holds P c) (k : Bytes) :
    ∃ out, r.get cache k = some out ∧ GetOutcome P r cache bs k out := by
  by_cases hbs : bs = []
  · -- an empty table has no key
    have hnil : r.index = [] := by rw [h.index_eq, hbs]; rfl
    exact ⟨_, if_pos hnil, getOutcome_of_absent hc (by simp [hbs])⟩
  have hcons : r.index ≠ [] := by
    rw [h.index_eq]
    intro hnil
    have := congrArg List.length hnil
    simp [hbs] at this
  -- the filter
  obtain ⟨a, ha⟩ := h.filter_total k
  -- a filter that rules the key out is right
  obtain ⟨ruledOut, hruled, hout⟩ : ∃ ruledOut, r.ruledOut k = some ruledOut ∧
      (ruledOut = true → ∀ e ∈ bs.flatten, e.key ≠ k) := by
    rw [SSTableReader.ruledOut, ha]
    split
    · refine ⟨!a, rfl, fun hna e he hek => ?_⟩
      rw [← hek, h.filter_mem e he] at ha
      cases ha
      simp at hna
    · exact ⟨false, rfl, by simp⟩
  simp only [SSTableReader.get, if_neg hcons, hruled, bind, Option.bind]
  by_cases hro : ruledOut = true
  · rw [if_pos hro]
    exact ⟨_, rfl, getOutcome_of_absent hc (hout hro)⟩
  rw [if_neg hro]
  -- the index
  have hpred : (fun e : IndexEntry => decide (¬ k < e.firstKey)) =
      fun e => decide (e.firstKey ≤ k) := by
    funext e
    simp only [not_lt]
  obtain ⟨hpart, hcase⟩ := boundary_index h.sorted h.ne_nil k h.index_eq
  have hsearch := BinarySearch.upperBoundLoop_eq_boundary hpart 0 r.index.length (Nat.zero_le _)
    (by simpa using BinarySearch.boundary_le _ _) (by simp)
  rw [hpred, hsearch]
  rcases hcase with ⟨hzero, hlt⟩ | ⟨init, b, tail, rfl, hsucc, hbefore, hafter⟩
  · simp only [hzero, if_true]
    exact ⟨_, rfl, getOutcome_of_absent hc fun e he => (hlt e he).ne'⟩
  simp only [hsucc, Nat.add_one_ne_zero, if_false, Nat.add_sub_cancel]
  -- the block
  have hget : (init ++ b :: tail)[init.length]? = some b := by simp
  have hbmem : b ∈ init ++ b :: tail := by simp
  have hsb : Sorted Entry.key b :=
    h.sorted.sublist (List.sublist_flatten_of_mem hbmem)
  -- the blocks before have smaller keys and those behind larger ones
  have hlookup : lookup (init ++ b :: tail).flatten k = lookup b k := by
    have hinit : find Entry.key k init.flatten = none := find_eq_none_of_gt hbefore
    have htail : find Entry.key k tail.flatten = none := find_eq_none_of_lt hafter
    simp only [lookup, List.flatten_append, List.flatten_cons, find_append, hinit, htail,
      Option.none_or, Option.or_none]
  have hscan := scanBlock_blockBytes hsb
    (lt_of_le_of_lt (h.fits b hbmem) (by omega)) k
  obtain ⟨x, cache', hx, hsome, hcache, ⟨hfetch, rfl⟩ | ⟨hfetch, s, rfl, hread⟩⟩ :=
    getBlock_spec h hP hc hget
  · rw [hx]
    simp only [hscan]
    refine ⟨_, rfl, fun _ => hlookup.symm, fun hun => ?_, fun _ => rfl,
      .inl (by rw [hlookup]), hsome, hcache⟩
    -- the only block that can hold the key was fetched
    refine absurd (fun i c hi hmem => ?_) hun
    obtain ⟨e, he, hek⟩ := hmem
    rwa [holder_index hbefore hafter hi he hek]
  · rw [hx]
    refine ⟨_, rfl, fun hread => ?_, fun _ => rfl, fun hint => ?_, .inr ⟨rfl, _, hread⟩, hsome,
      hcache⟩
    · -- the block cannot be fetched, so it does not hold the key
      have hnone : find Entry.key k b = none := by
        refine find_eq_none_iff.mpr fun e he hek => hfetch ?_
        exact hread _ _ hget ⟨e, he, hek⟩
      rw [hlookup, lookup, hnone]
      rfl
    · exact absurd (Or.inr ⟨_, hint _ _ hget⟩) hfetch

/-- A lookup in an intact table, with any sound cache. -/
theorem get_intact (h : Serves r bs) (hP : CachesTable P r bs)
    (hc : ∀ c ∈ cache, BlockCache.Holds P c) (hint : Intact r bs) (k : Bytes) :
    ∃ cache', r.get cache k = some ((lookup bs.flatten k, .OK), cache') ∧
      cache'.isSome = cache.isSome := by
  obtain ⟨⟨⟨result, status⟩, cache'⟩, hget, hout⟩ := get_spec h hP hc k
  have hresult : result = _ := hout.readable fun i b hb _ => .inr ⟨_, hint i b hb⟩
  have hstatus : status = _ := hout.status hint
  exact ⟨cache', by rw [hget, hresult, hstatus], hout.isSome_eq⟩

/-- A lookup in an intact table, without a cache. -/
theorem get_uncached (h : Serves r bs) (hint : Intact r bs) (k : Bytes) :
    r.get none k = some ((lookup bs.flatten k, .OK), none) := by
  have hnone : ∀ c ∈ (none : Option BlockCache),
      BlockCache.Holds (fun key => IsTableBlock r bs key.offset) c := by
    simp
  obtain ⟨cache', hget, hcache⟩ := get_intact h (h.cachesTable fun _ _ => Iff.rfl) hnone hint k
  rw [Option.isSome_none, Option.isSome_eq_false_iff, Option.isNone_iff_eq_none] at hcache
  rw [hget, hcache]

/-! ## Written tables -/

variable {blockSize : Nat} {bitsPerKey : Int} {es : List Entry}

/-- Every block of a written file reads back. -/
theorem intact_tableReader (hfit : TableFits blockSize bitsPerKey es) (n : Nat) :
    Intact (tableReader blockSize bitsPerKey es n) (blocksOf blockSize es) :=
  fun _ _ hb => readBlock_eq rfl rfl hfit.blocks hfit.length hb

/-- The reader of a written file serves the file's entries. -/
theorem serves_tableReader (hs : Sorted Entry.key es) (hfit : TableFits blockSize bitsPerKey es)
    (n : Nat) : Serves (tableReader blockSize bitsPerKey es n) (blocksOf blockSize es) where
  index_eq := rfl
  sorted := by rwa [flatten_blocksOf]
  ne_nil _ hb := ne_nil_of_mem_blocksOf hb
  fits := hfit.blocks
  length_lt := by
    have := hfit.length
    simp only [tableBytes, List.length_append] at this
    omega
  filter_total := mayContain_tableFilter_isSome hfit.filter
  filter_mem e he := mayContain_tableFilter hfit.filter (by rwa [flatten_blocksOf] at he)
  served i b hb := .inl (intact_tableReader hfit n i b hb)

/-- Serving does not depend on whether the filter is on. -/
theorem Serves.setFilterEnabled (h : Serves r bs) (on : Bool) :
    Serves { r with filterEnabled := on } bs :=
  ⟨h.index_eq, h.sorted, h.ne_nil, h.fits, h.length_lt, h.filter_total, h.filter_mem, h.served⟩

/-- A lookup in a written table, without a cache. -/
theorem get_tableReader (hs : Sorted Entry.key es) (hfit : TableFits blockSize bitsPerKey es)
    (n : Nat) (on : Bool) (k : Bytes) :
    SSTableReader.get { tableReader blockSize bitsPerKey es n with filterEnabled := on } none k =
      some ((lookup es k, .OK), none) := by
  have hserves := (serves_tableReader hs hfit n).setFilterEnabled on
  rw [get_uncached hserves (intact_tableReader hfit n), flatten_blocksOf]

/-- Every nine bytes of the records make at most one record. -/
theorem nine_mul_length_le_blockBytes (b : List Entry) : 9 * b.length ≤ (blockBytes b).length := by
  induction b with
  | nil => simp
  | cons e b ih =>
    rw [blockBytes_cons, List.length_append, length_appendRecord, List.length_cons]
    omega

/-- There are no more records than bytes. -/
private theorem length_flatten_le_dataBytes (bs : List (List Entry)) :
    bs.flatten.length ≤ (dataBytes bs).length := by
  induction bs with
  | nil => simp
  | cons b bs ih =>
    have := nine_mul_length_le_blockBytes b
    rw [List.flatten_cons, List.length_append, dataBytes_cons, List.length_append,
      length_sectionBytes]
    omega

/-- A table has at most as many entries as its file has bytes. -/
theorem length_le_tableBytes (blockSize : Nat) (bitsPerKey : Int) (es : List Entry) :
    es.length ≤ (tableBytes blockSize bitsPerKey es).length := by
  have hdata := length_flatten_le_dataBytes (blocksOf blockSize es)
  rw [flatten_blocksOf] at hdata
  simp only [tableBytes, List.length_append]
  omega

/-- A table that fits has a number of records that fits its field. -/
private theorem length_lt_of_tableFits (hfit : TableFits blockSize bitsPerKey es) : es.length < 2 ^ 64 :=
  (length_le_tableBytes blockSize bitsPerKey es).trans_lt hfit.length

/-- Reading undoes writing: `Open` accepts the file that `Add` for each entry and `Finish`
    produce, with the right entry count, key range and file size, and iterating from
    `SeekToFirst` yields the entries with status `OK`. -/
theorem iterate_writeTable (blockSize : Nat) (bitsPerKey : Int) (es : List Entry)
    (hs : Sorted Entry.key es) (hblocks : BlocksFit (blocksOf blockSize es))
    (hfilter : FilterFits es.length bitsPerKey)
    (hfile : (SSTableWriter.writeTable blockSize bitsPerKey es).2.length < 2 ^ 64)
    (path : String) (fileNumber : Nat) :
    ∃ r it, SSTableReader.open path (SSTableWriter.writeTable blockSize bitsPerKey es).2
        fileNumber = some (.ok r) ∧
      r.numEntries.toNat = es.length ∧
      (∀ e ∈ es.head?, r.smallestKey = e.key) ∧ (∀ e ∈ es.getLast?, r.largestKey = e.key) ∧
      (SSTableWriter.writeTable blockSize bitsPerKey es).1.fileSize.toNat =
        (SSTableWriter.writeTable blockSize bitsPerKey es).2.length ∧
      r.newIterator.seekToFirst = some it ∧ Yields .OK it es .OK := by
  obtain ⟨-, hsize, -⟩ := writeTable_eq blockSize bitsPerKey es hblocks
  obtain ⟨hbytes, hfit, hopen⟩ := open_writeTable hblocks hfilter hfile path fileNumber
  have hserves := serves_tableReader hs hfit fileNumber
  have hnew : (tableReader blockSize bitsPerKey es fileNumber).newIterator.reader =
      tableReader blockSize bitsPerKey es fileNumber := rfl
  obtain ⟨it, hseek, hy⟩ := Iterator.seekToFirst_yields hserves hnew fun _ => rfl
  -- every block can be read, so the stream is the whole table
  rw [stream_of_intact 0 fun j b hb => by
    rw [Nat.zero_add]; exact intact_tableReader hfit fileNumber j b hb, flatten_blocksOf] at hy
  refine ⟨tableReader blockSize bitsPerKey es fileNumber, it, hopen, ?_, ?_, ?_, ?_, hseek, hy⟩
  · exact toNat_toUInt64_of_lt (length_lt_of_tableFits hfit)
  · intro e he
    simp [tableReader, Option.mem_def.mp he]
  · intro e he
    simp [tableReader, Option.mem_def.mp he]
  · rw [hsize, ← hbytes, toNat_toUInt64_of_lt hfile]

/-- The table of a value and a tombstone, in a block each. -/
theorem iterate_writeTable_pair :
    ∃ r it, SSTableReader.open "t" (SSTableWriter.writeTable 1 10
        [⟨[1], [2], .value⟩, ⟨[3], [], .tombstone⟩]).2 7 = some (.ok r) ∧
      r.numEntries.toNat = 2 ∧ r.smallestKey = [1] ∧ r.largestKey = [3] ∧
      r.newIterator.seekToFirst = some it ∧
      Yields .OK it [⟨[1], [2], .value⟩, ⟨[3], [], .tombstone⟩] .OK := by
  obtain ⟨r, it, hopen, hnum, hsmall, hlarge, -, hseek, hy⟩ := iterate_writeTable 1 10
    [⟨[1], [2], .value⟩, ⟨[3], [], .tombstone⟩] (by decide) (by decide +kernel)
    (by decide +kernel) (by decide +kernel) "t" 7
  exact ⟨r, it, hopen, hnum, hsmall _ rfl, hlarge _ rfl, hseek, hy⟩

/-- Point lookup in a written table is map lookup in its entries, with the filter on or off. -/
theorem get_writeTable (blockSize : Nat) (bitsPerKey : Int) (es : List Entry)
    (hs : Sorted Entry.key es) (hblocks : BlocksFit (blocksOf blockSize es))
    (hfilter : FilterFits es.length bitsPerKey)
    (hfile : (SSTableWriter.writeTable blockSize bitsPerKey es).2.length < 2 ^ 64)
    (path : String) (fileNumber : Nat) :
    ∃ r, SSTableReader.open path (SSTableWriter.writeTable blockSize bitsPerKey es).2
        fileNumber = some (.ok r) ∧
      ∀ on k, SSTableReader.get { r with filterEnabled := on } none k =
        some ((lookup es k, .OK), none) := by
  obtain ⟨-, hfit, hopen⟩ := open_writeTable hblocks hfilter hfile path fileNumber
  exact ⟨tableReader blockSize bitsPerKey es fileNumber, hopen, get_tableReader hs hfit fileNumber⟩

/-- Lookups of a value, of a tombstone and of an absent key. -/
theorem get_writeTable_pair :
    ∃ r, SSTableReader.open "t" (SSTableWriter.writeTable 1 10
        [⟨[1], [2], .value⟩, ⟨[3], [], .tombstone⟩]).2 7 = some (.ok r) ∧
      SSTableReader.get { r with filterEnabled := true } none [1] =
        some ((.found [2], .OK), none) ∧
      SSTableReader.get { r with filterEnabled := true } none [3] =
        some ((.deleted, .OK), none) ∧
      SSTableReader.get { r with filterEnabled := false } none [2] =
        some ((.notFound, .OK), none) := by
  obtain ⟨r, hopen, hget⟩ := get_writeTable 1 10 [⟨[1], [2], .value⟩, ⟨[3], [], .tombstone⟩]
    (by decide) (by decide +kernel) (by decide +kernel) (by decide +kernel) "t" 7
  exact ⟨r, hopen, hget true [1], hget true [3], hget false [2]⟩

end Lsmdb
