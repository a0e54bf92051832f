import Lsmdb.Spec.SSTableCorrect

/-!
# Reads outside of the buffers

`Open`, `Get` and the iterator on files of arbitrary bytes. The model returns `none`
where the code would read outside of the file or of the block that it parses. Three
things are trusted without a check, or with one that wraps: that the ranges named by
the footer and the index end in the file, that a block with a matching checksum is a
sequence of complete records, and that the filter has the bytes which its header
announces. `Reliable` says so for the parts of a file that the reader gets to see. That is
enough (`open_ne_none`, `opened_reliable`), and it is needed (`reliable_of_inBounds`).
-/

namespace Lsmdb

open Cursor SSTableReader BinarySearch

/-! ## Sections and blocks -/

/-- An index entry is rejected by the check of `ReadBlock`, or its block ends in the file. -/
def EntryInFile (file : Bytes) (e : IndexEntry) : Prop :=
  e.offset + e.length.toUInt64 + 4 > file.length.toUInt64 ∨
    e.offset.toNat + e.length.toNat + 4 ≤ file.length

/-- The read of a block is defined if the block and its checksum are in the file. -/
theorem readBlock_ne_none_iff {r : SSTableReader} {i : Nat} {e : IndexEntry}
    (he : r.index[i]? = some e) : r.readBlock i ≠ none ↔ EntryInFile r.base e := by
  simp only [readBlock, he, bind, Option.bind, EntryInFile]
  split
  · rename_i hpast
    simp [hpast]
  · rename_i hpast
    rw [checkedSection_ne_none_iff]
    simp only [hpast, false_or]

/-- A read returns a failure or a block whose length is a 32-bit one. -/
private theorem readBlock_cases {r : SSTableReader} {i : Nat} {x : Except Status Bytes}
    (h : r.readBlock i = some x) :
    (∃ s, x = .error s ∧ s.ok = false) ∨ ∃ block, x = .ok block ∧ block.length < 2 ^ 32 := by
  simp only [readBlock, bind, Option.bind_eq_some_iff] at h
  obtain ⟨e, -, h⟩ := h
  split at h
  · cases h
    exact .inl ⟨_, rfl, rfl⟩
  · rcases checkedSection_cases h with rfl | ⟨block, post, rfl, hlen, -⟩
    · exact .inl ⟨_, rfl, rfl⟩
    · exact .inr ⟨block, rfl, hlen ▸ e.length.toNat_lt⟩

/-- The length of a block is a 32-bit field of the index. -/
theorem length_lt_of_readBlock {r : SSTableReader} {i : Nat} {block : Bytes}
    (h : r.readBlock i = some (.ok block)) : block.length < 2 ^ 32 := by
  obtain ⟨s, hs, -⟩ | ⟨block', hb, hlen⟩ := readBlock_cases h
  · cases hs
  · cases hb
    exact hlen

/-- A read that fails does not report success. -/
theorem ok_of_readBlock_error {r : SSTableReader} {i : Nat} {s : Status}
    (h : r.readBlock i = some (.error s)) : s.ok = false := by
  obtain ⟨s', hs, hbad⟩ | ⟨block, hb, -⟩ := readBlock_cases h
  · cases hs
    exact hbad
  · cases hb

/-! ## Records -/

/-- The bytes are a sequence of complete records. -/
def Records (block : Bytes) : Prop := ∃ es, block = blockBytes es

/-- Fields that could be loaded one behind the other are those of a record. -/
private theorem record_of_fields {p : Bytes} {type : UInt8} {klen vlen : UInt32} {key value : Bytes}
    (htype : p[0]? = some type) (hklen : decodeFixed32 (p.drop 1) = some klen)
    (hvlen : decodeFixed32 ((p.drop 1).drop 4) = some vlen)
    (hkey : loadBytes (((p.drop 1).drop 4).drop 4) klen.toNat = some key)
    (hvalue : loadBytes ((((p.drop 1).drop 4).drop 4).drop klen.toNat) vlen.toNat = some value) :
    p = appendRecord ⟨key, value, ⟨type⟩⟩ ++
      ((((p.drop 1).drop 4).drop 4).drop klen.toNat).drop vlen.toNat := by
  obtain ⟨hkey, hkeyLen⟩ := eq_append_of_loadBytes hkey
  obtain ⟨hvalue, hvalueLen⟩ := eq_append_of_loadBytes hvalue
  -- the lengths were loaded from 32 bits, so writing them again does not cut them
  have hk : key.length.toUInt32 = klen := by
    rw [← UInt32.toNat_inj, toNat_toUInt32_of_lt (hkeyLen ▸ klen.toNat_lt), hkeyLen]
  have hv : value.length.toUInt32 = vlen := by
    rw [← UInt32.toNat_inj, toNat_toUInt32_of_lt (hvalueLen ▸ vlen.toNat_lt), hvalueLen]
  cases p with
  | nil => simp at htype
  | cons a q =>
    obtain rfl : a = type := by simpa using htype
    rw [List.drop_succ_cons, List.drop_zero] at *
    rw [appendRecord, hk, hv]
    simp only [List.append_assoc, List.cons_append, List.nil_append]
    rw [← hvalue, ← hkey, ← eq_putFixed32_of_decodeFixed32 hvlen,
      ← eq_putFixed32_of_decodeFixed32 hklen]

/-- A record that was parsed stands complete in the block. -/
private theorem SSTableReader.Iterator.parseRecord_complete {it it' : Iterator} (h : it.parseRecord = some it') :
    it'.status = it.status ∧ it'.valid = true ∧ it'.block = it.block ∧
      ∃ e, it.block.drop it.pos = appendRecord e ++ it.block.drop it'.pos := by
  simp only [Iterator.parseRecord, bind, Option.bind_eq_some_iff, pure, Option.some.injEq] at h
  obtain ⟨type, htype, klen, hklen, vlen, hvlen, key, hkey, value, hvalue, rfl⟩ := h
  refine ⟨rfl, rfl, rfl, ⟨key, value, ⟨type⟩⟩, ?_⟩
  have hrecord := record_of_fields htype hklen hvlen hkey hvalue
  simpa only [List.drop_drop] using hrecord

/-- The block scan of `Get` stays within complete records. -/
private theorem scanBlock_ne_none {es : List Entry} (hfit : (blockBytes es).length < 2 ^ 32) (k : Bytes) :
    scanBlock k (blockBytes es) ≠ none := by
  induction es with
  | nil => simp [scanBlock]
  | cons e es ih =>
    rw [blockBytes_cons, List.length_append, length_appendRecord] at hfit
    rw [blockBytes_cons, scanBlock_appendRecord (by omega)]
    split
    · simp
    · split
      · simp
      · exact ih (by omega)

/-! ## The blocks that calls can lead to -/

/-- `Seek` and `Get` search the index for the first entry behind the key. -/
def searchIndex (r : SSTableReader) (key : Bytes) : Option Nat :=
  loop (fun e : IndexEntry => decide (e.firstKey ≤ key)) r.index 0 r.index.length

/-- The blocks that calls of `Get` and of the iterator can lead to: the first one, those in front of
    the end of a search, and those behind a block that was read. -/
inductive Reached (r : SSTableReader) : Nat → Prop
  | first (h : r.index ≠ []) : Reached r 0
  | search {key : Bytes} {i : Nat} (h : searchIndex r key = some (i + 1)) : Reached r i
  | next {i : Nat} {block : Bytes} (h : Reached r i) (hread : r.readBlock i = some (.ok block))
    (hi : i + 1 < r.index.length) : Reached r (i + 1)

/-- The end of the search is a position of the index. -/
private theorem searchIndex_le (r : SSTableReader) (key : Bytes) :
    ∃ lo ≤ r.index.length, searchIndex r key = some lo :=
  loop_isSome _ _ (Nat.zero_le _) le_rfl

/-- Only blocks of the index are reached. -/
theorem Reached.lt {r : SSTableReader} {i : Nat} (h : Reached r i) : i < r.index.length := by
  cases h with
  | first h => exact List.length_pos_iff.mpr h
  | @search key i h =>
    obtain ⟨lo, hle, hlo⟩ := searchIndex_le r key
    rw [h, Option.some.injEq] at hlo
    omega
  | next _ _ hi => exact hi

/-- The blocks that can be reached depend on the bytes and the index of the reader only. -/
theorem Reached.congr {r r' : SSTableReader} {i : Nat} (h : Reached r i) (hbase : r'.base = r.base)
    (hindex : r'.index = r.index) : Reached r' i := by
  induction h with
  | first h => exact .first (hindex ▸ h)
  | search h => exact .search (by rwa [searchIndex, hindex])
  | next _ hread hi ih =>
    exact .next ih ((readBlock_congr hbase hindex _).trans hread) (hindex ▸ hi)

/-- Every block that calls can lead to is rejected by a check, or lies in the file and is a sequence
    of complete records. -/
def BlocksReliable (r : SSTableReader) : Prop :=
  ∀ i, Reached r i → (∀ e, r.index[i]? = some e → EntryInFile r.base e) ∧
    ∀ block, r.readBlock i = some (.ok block) → Records block

/-- Whether the blocks can be read depends on the file and the index only. -/
theorem BlocksReliable.congr {r r' : SSTableReader} (h : BlocksReliable r)
    (hbase : r'.base = r.base) (hindex : r'.index = r.index) : BlocksReliable r' := by
  intro i hi
  obtain ⟨hin, hrecords⟩ := h i (hi.congr hbase.symm hindex.symm)
  rw [hbase, hindex]
  exact ⟨hin, fun block hread =>
    hrecords block ((readBlock_congr hbase.symm hindex.symm i).trans hread)⟩

/-- No read of a reached block leaves the file. -/
private theorem BlocksReliable.readBlock_ne_none {r : SSTableReader} (h : BlocksReliable r) {i : Nat}
    (hi : Reached r i) : r.readBlock i ≠ none := by
  have he := List.getElem?_eq_getElem hi.lt
  exact (readBlock_ne_none_iff he).mpr ((h i hi).1 _ he)

namespace SSTableReader.Iterator

variable {r : SSTableReader} {it it' : Iterator}

/-- All calls that lead from an iterator to another one are defined. -/
def Safe (r : SSTableReader) : Prop :=
  ∀ it, Positioned r it → it.seekToFirst ≠ none ∧ (∀ target, it.seek target ≠ none) ∧ it.next ≠ none

/-! ### Reliable blocks are enough -/

/-- An iterator that can be advanced: it has failed, or what is left of its block is a sequence of
    records. -/
structure Ready (r : SSTableReader) (it : Iterator) : Prop where
  reader_eq : it.reader = r
  failed_or : it.status.ok = false ∨ Reached r it.blockIdx ∧
    r.readBlock it.blockIdx = some (.ok it.block) ∧ ∃ rest, At r it.blockIdx rest it

/-- Loading a reached block leaves the iterator in front of its records. -/
theorem ready_loadBlock (hr : BlocksReliable r) {i : Nat} (hi : Reached r i)
    (hreader : it.reader = r) : ∃ it', it.loadBlock i = some it' ∧ Ready r it' := by
  have hread := hr.readBlock_ne_none hi
  have hrecords := (hr i hi).2
  rcases hblock : r.readBlock i with _ | s | block
  · exact absurd hblock hread
  · refine ⟨{ it with blockIdx := i, pos := 0, status := s }, ?_, hreader,
      .inl (ok_of_readBlock_error hblock)⟩
    simp only [loadBlock, hreader, hblock, bind, Option.bind, pure]
  · obtain ⟨es, rfl⟩ := hrecords block hblock
    -- a block of complete records: the iterator stands in front of the first
    obtain ⟨it', hload, hat⟩ := at_loadBlock hreader hblock (length_lt_of_readBlock hblock)
    refine ⟨it', hload, hat.reader_eq, .inr ?_⟩
    have hloaded := hload
    simp only [loadBlock, hreader, hblock, bind, Option.bind, pure, Option.some.injEq] at hloaded
    subst hloaded
    exact ⟨hi, hblock, es, hat⟩

/-- `ParseCurrent` is defined in front of whole records, and leaves the iterator in front of whole
    records. -/
theorem ready_parseCurrent (hr : BlocksReliable r) (h : Ready r it) :
    ∃ it', it.parseCurrent = some it' ∧ Ready r it' := by
  fun_induction parseCurrent it with
  | case1 it hs => exact ⟨_, rfl, h.reader_eq, .inl (by simpa using hs)⟩
  | case2 it hs hpos hlast =>
    refine ⟨_, rfl, h.reader_eq, h.failed_or.imp_right ?_⟩
    intro hready
    obtain ⟨hi, hread, rest, hat⟩ := hready
    exact ⟨hi, hread, rest, hat.1, hat.2, hat.3, hat.4, hat.5, hat.6⟩
  -- the end of a block, and another one behind it: it counts as reached, since this one was read
  | case3 it hs hpos hlast hload =>
    obtain ⟨hi, hread, -⟩ := h.failed_or.resolve_left (by simpa using hs)
    rw [h.reader_eq] at hlast
    obtain ⟨it', hload', -⟩ := ready_loadBlock hr (.next hi hread (by omega)) h.reader_eq
    simp [hload] at hload'
  | case4 it hs hpos hlast it₁ hload ih =>
    obtain ⟨hi, hread, -⟩ := h.failed_or.resolve_left (by simpa using hs)
    rw [h.reader_eq] at hlast
    obtain ⟨it', hload', hready⟩ := ready_loadBlock hr (.next hi hread (by omega)) h.reader_eq
    rw [hload, Option.some.injEq] at hload'
    exact ih (hload' ▸ hready)
  | case5 it hs hpos =>
    obtain ⟨hi, hread, rest, hat⟩ := h.failed_or.resolve_left (by simpa using hs)
    -- there are bytes left, so there is a record left
    cases rest with
    | nil =>
      have := congrArg List.length hat.drop_eq
      rw [List.length_drop, blockBytes_nil, List.length_nil] at this
      omega
    | cons e rest =>
      obtain ⟨it', hparse, hat', -⟩ := hat.parseRecord
      rw [parseCurrent, if_neg hs, if_neg hpos] at hparse
      obtain ⟨hreader, hidx, hblock, -⟩ := parseRecord_eq hparse
      refine ⟨it', hparse, hreader.trans h.reader_eq, .inr ?_⟩
      rw [hidx, hblock]
      exact ⟨hi, hread, rest, hat'⟩

/-- So is the loop of `Seek`, which parses until it finds the target. -/
private theorem ready_seekLoop (hr : BlocksReliable r) (target : Bytes) (h : Ready r it) :
    ∃ it', seekLoop target it = some it' ∧ Ready r it' := by
  fun_induction seekLoop target it with
  -- the parse is defined, so the loop does not stop here
  | case1 it hnone =>
    obtain ⟨it', hparse, -⟩ := ready_parseCurrent hr h
    simp [hnone] at hparse
  | case2 it it' hsome hv hge =>
    obtain ⟨it'', hparse, hready⟩ := ready_parseCurrent hr h
    rw [hsome, Option.some.injEq] at hparse
    exact ⟨it', rfl, hparse ▸ hready⟩
  -- a smaller key: the loop goes on from the next record
  | case3 it it' hsome hv hlt ih =>
    obtain ⟨it'', hparse, hready⟩ := ready_parseCurrent hr h
    rw [hsome, Option.some.injEq] at hparse
    exact ih (hparse ▸ hready)
  | case4 it it' hsome hv =>
    obtain ⟨it'', hparse, hready⟩ := ready_parseCurrent hr h
    rw [hsome, Option.some.injEq] at hparse
    exact ⟨it', rfl, hparse ▸ hready⟩

/-- The search of the index ends, and in front of its end is a block that can be reached. -/
private theorem exists_searchIndex (hne : r.index ≠ []) (key : Bytes) :
    ∃ lo, searchIndex r key = some lo ∧ Reached r (if lo = 0 then 0 else lo - 1) := by
  obtain ⟨lo, -, hlo⟩ := searchIndex_le r key
  refine ⟨lo, hlo, ?_⟩
  cases lo with
  | zero => exact .first hne
  | succ i => exact .search hlo

/-- `Seek` loads the block in front of the end of its search. -/
private theorem seek_eq (hreader : it.reader = r) (hne : r.index ≠ []) {target : Bytes} {lo : Nat}
    (hlo : searchIndex r target = some lo) :
    it.seek target =
      (it.loadBlock (if lo = 0 then 0 else lo - 1)).bind (seekLoop target) := by
  rw [searchIndex, ← hreader] at hlo
  rw [seek, if_neg (hreader ▸ hne), hlo]
  rfl

/-- The calls on an iterator that is ready if it is valid. -/
theorem ready_calls (hr : BlocksReliable r) (hreader : it.reader = r)
    (hready : it.valid = true → Ready r it) :
    (∃ it', it.seekToFirst = some it' ∧ it'.reader = r ∧ (it'.valid = true → Ready r it')) ∧
      (∀ target, ∃ it', it.seek target = some it' ∧ it'.reader = r ∧
        (it'.valid = true → Ready r it')) ∧
      ∃ it', it.next = some it' ∧ it'.reader = r ∧ (it'.valid = true → Ready r it') := by
  refine ⟨?_, fun target => ?_, ?_⟩
  · -- `SeekToFirst` loads the first block
    unfold seekToFirst
    rw [hreader]
    split
    · exact ⟨_, rfl, rfl, by simp⟩
    · rename_i hne
      obtain ⟨it₁, hload, h₁⟩ := ready_loadBlock hr (.first hne) hreader
      obtain ⟨it₂, hparse, h₂⟩ := ready_parseCurrent hr h₁
      exact ⟨it₂, by rw [hload]; exact hparse, h₂.reader_eq, fun _ => h₂⟩
  · -- `Seek` loads the block that the search of the index has found
    by_cases hne : r.index = []
    · exact ⟨_, if_pos (hreader ▸ hne), hreader, by simp⟩
    · obtain ⟨lo, hlo, hreached⟩ := exists_searchIndex hne target
      obtain ⟨it₁, hload, h₁⟩ := ready_loadBlock hr hreached hreader
      obtain ⟨it₂, hloop, h₂⟩ := ready_seekLoop hr target h₁
      refine ⟨it₂, ?_, h₂.reader_eq, fun _ => h₂⟩
      rw [seek_eq hreader hne hlo, hload]
      exact hloop
  · -- `Next` parses on in the block, if there is a record to leave
    unfold next
    split
    · exact ⟨it, rfl, hreader, hready⟩
    · rename_i hv
      obtain ⟨it₁, hparse, h₁⟩ := ready_parseCurrent hr (hready (by simpa using hv))
      exact ⟨it₁, hparse, h₁.reader_eq, fun _ => h₁⟩

/-- What is known of an iterator between calls. -/
private theorem Positioned.ready (hr : BlocksReliable r) (h : Positioned r it) :
    it.reader = r ∧ (it.valid = true → Ready r it) := by
  induction h with
  -- a new iterator is not valid, so nothing is asked of it
  | new => exact ⟨rfl, fun hv => by cases hv⟩
  | @seekToFirst it it' _ hseek ih =>
    obtain ⟨⟨it'', hseek', h⟩, -, -⟩ := ready_calls hr ih.1 ih.2
    rw [hseek, Option.some.injEq] at hseek'
    exact hseek' ▸ h
  | @seek it it' _ target hseek ih =>
    obtain ⟨-, hcalls, -⟩ := ready_calls hr ih.1 ih.2
    obtain ⟨it'', hseek', h⟩ := hcalls target
    rw [hseek, Option.some.injEq] at hseek'
    exact hseek' ▸ h
  | @next it it' _ hnext ih =>
    obtain ⟨-, -, it'', hnext', h⟩ := ready_calls hr ih.1 ih.2
    rw [hnext, Option.some.injEq] at hnext'
    exact hnext' ▸ h

/-- If every block that can be reached is in the file and made of whole records, then no call on an
    iterator leaves the mapping. -/
theorem safe_of_blocksReliable (hr : BlocksReliable r) : Safe r := by
  intro it hit
  obtain ⟨hreader, hready⟩ := hit.ready hr
  obtain ⟨⟨it₁, h₁, -⟩, hseek, it₃, h₃, -⟩ := ready_calls hr hreader hready
  refine ⟨by simp [h₁], fun target => ?_, by simp [h₃]⟩
  obtain ⟨it₂, h₂, -⟩ := hseek target
  simp [h₂]

/-! ### Reliable blocks are needed -/

/-- `ParseCurrent` finds a record. -/
def Parses (it it' : Iterator) : Prop := it.parseCurrent = some it' ∧ it'.valid = true

/-- However often `ParseCurrent` is called from here on, it is defined. -/
def Total (it : Iterator) : Prop :=
  ∀ it', Relation.ReflTransGen Parses it it' → it'.parseCurrent ≠ none

/-- Every parse from here on is defined if the next one and those after it are. -/
theorem total_of_parse (hne : it.parseCurrent ≠ none) (h : ∀ it', Parses it it' → Total it') :
    Total it := by
  intro it' hchain
  rcases Relation.ReflTransGen.cases_head hchain with rfl | ⟨it₁, hp, hrest⟩
  · exact hne
  · exact h it₁ hp it' hrest

/-- The next parse is defined. -/
private theorem Total.parse (h : Total it) : it.parseCurrent ≠ none := h it .refl

/-- What is left after one parse. -/
theorem Total.step (h : Total it) (hp : Parses it it') : Total it' :=
  fun it'' hchain => h it'' (.head hp hchain)

/-- `Next` calls `ParseCurrent` on a valid iterator. -/
private theorem next_of_valid (hv : it.valid = true) : it.next = it.parseCurrent := by
  rw [next, if_neg (by simp [hv])]

/-- An iterator that `Next` can be called on parses to the end. -/
private theorem total_of_positioned (hsafe : Safe r) (hit : Positioned r it) (hv : it.valid = true) :
    Total it := by
  intro it' hchain
  -- every iterator of the chain is one that `Next` has left
  have hpos : Positioned r it' ∧ it'.valid = true := by
    induction hchain with
    | refl => exact ⟨hit, hv⟩
    | tail _ hp ih => exact ⟨.next ih.1 ((next_of_valid ih.2).trans hp.1), hp.2⟩
  rw [← next_of_valid hpos.2]
  exact (hsafe it' hpos.1).2.2

/-- So does one that the loop of `Seek` has come through. -/
private theorem total_of_seekLoop (hsafe : Safe r) {target : Bytes} (hne : seekLoop target it ≠ none)
    (hpos : ∀ it', seekLoop target it = some it' → Positioned r it') : Total it := by
  fun_induction seekLoop target it with
  -- the loop is defined, so every parse of it is
  | case1 => exact absurd rfl hne
  | case2 it it' hsome hv hge =>
    refine total_of_parse (by simp [hsome]) fun it'' hp => ?_
    obtain rfl : it' = it'' := Option.some.inj (hsome.symm.trans hp.1)
    exact total_of_positioned hsafe (hpos it' rfl) hv
  | case3 it it' hsome hv hlt ih =>
    refine total_of_parse (by simp [hsome]) fun it'' hp => ?_
    obtain rfl : it' = it'' := Option.some.inj (hsome.symm.trans hp.1)
    exact ih hne hpos
  -- the loop ends here because nothing is left to parse
  | case4 it it' hsome hv =>
    refine total_of_parse (by simp [hsome]) fun it'' hp => ?_
    obtain rfl : it' = it'' := Option.some.inj (hsome.symm.trans hp.1)
    exact absurd hp.2 hv

/-- An iterator that was sent to a block, and that can be advanced from there as long as it is
    valid. -/
def CanLoad (r : SSTableReader) (i : Nat) : Prop :=
  ∃ it it' : Iterator, it.reader = r ∧ it.loadBlock i = some it' ∧ Total it'

/-- Where every parse is defined, the rest of the block is a sequence of records, and the iterator
    goes on to the next block. -/
theorem Total.block (h : Total it) (hr : it.reader = r) (hs : it.status.ok = true) :
    Records (it.block.drop it.pos) ∧
      (it.blockIdx + 1 < r.index.length → CanLoad r (it.blockIdx + 1)) := by
  -- the induction is on what is left of the block
  induction hn : it.block.length - it.pos using Nat.strong_induction_on generalizing it with
  | _ n ih =>
    have hparse := h.parse
    by_cases hpos : it.pos ≥ it.block.length
    · refine ⟨⟨[], List.drop_of_length_le hpos⟩, fun hi => ?_⟩
      -- the parse is the one of the next block
      have hexhausted := parseCurrent_exhausted hs hpos (hr ▸ hi)
      rw [hexhausted] at hparse
      cases hload : it.loadBlock (it.blockIdx + 1) with
      | none => simp [hload] at hparse
      | some it₁ =>
        rw [hload, Option.bind_some] at hparse hexhausted
        refine ⟨it, it₁, hr, hload, total_of_parse hparse fun it' hp => ?_⟩
        exact h.step ⟨hexhausted.trans hp.1, hp.2⟩
    · rw [parseCurrent, if_neg (by simp [hs]), if_neg hpos] at hparse
      obtain ⟨it', hrecord⟩ := Option.ne_none_iff_exists'.mp hparse
      obtain ⟨hstatus, hvalid, hblock, e, he⟩ := parseRecord_complete hrecord
      obtain ⟨hreader, hidx, -, hlt⟩ := parseRecord_eq hrecord
      have hstep : Parses it it' := by
        refine ⟨?_, hvalid⟩
        rw [parseCurrent, if_neg (by simp [hs]), if_neg hpos, hrecord]
      -- a record, and records behind it
      obtain ⟨⟨es, hes⟩, hnext⟩ := ih _ (by rw [hblock]; omega) (h.step hstep) (hreader.trans hr)
        (hstatus ▸ hs) rfl
      rw [hblock] at hes
      rw [hidx] at hnext
      exact ⟨⟨e :: es, by rw [he, hes, blockBytes_cons]⟩, hnext⟩

/-- If no call leaves the mapping, then every reached block can be loaded and parsed. -/
private theorem canLoad_of_reached (hsafe : Safe r) {i : Nat} (h : Reached r i) : CanLoad r i := by
  -- the induction follows the calls of a new iterator: `SeekToFirst`, `Seek`, and `Next` from there
  obtain ⟨hfirst, hseek, -⟩ := hsafe r.newIterator .new
  induction h with
  | first hne =>
    have hcall : r.newIterator.seekToFirst = (r.newIterator.loadBlock 0).bind parseCurrent :=
      if_neg hne
    cases hload : r.newIterator.loadBlock 0 with
    | none => simp [hcall, hload] at hfirst
    | some it =>
      rw [hload, Option.bind_some] at hcall
      refine ⟨r.newIterator, it, rfl, hload, total_of_parse (hcall ▸ hfirst) fun it' hp => ?_⟩
      exact total_of_positioned hsafe (.seekToFirst .new (hcall.trans hp.1)) hp.2
  | @search key i hsearch =>
    have hne : r.index ≠ [] := by
      intro hnil
      simp [searchIndex, hnil, loop] at hsearch
    have hcall : r.newIterator.seek key = (r.newIterator.loadBlock i).bind (seekLoop key) := by
      rw [seek_eq (show r.newIterator.reader = r from rfl) hne hsearch]
      rfl
    cases hload : r.newIterator.loadBlock i with
    | none => exact absurd (by rw [hcall, hload]; rfl) (hseek key)
    | some it =>
      rw [hload, Option.bind_some] at hcall
      exact ⟨r.newIterator, it, rfl, hload, total_of_seekLoop hsafe (hcall ▸ hseek key)
        fun it' hit' => .seek .new (hcall.trans hit')⟩
  -- the block in front was read and parsed to its end, where `ParseCurrent` loads this one
  | @next i block _ hread hi ih =>
    obtain ⟨it, it', hr, hload, htotal⟩ := ih
    have hloaded := hload
    simp only [loadBlock, hr, hread, bind, Option.bind, pure, Option.some.injEq] at hloaded
    subst hloaded
    exact (htotal.block rfl rfl).2 hi

/-- The calls on iterators over a table are defined if and only if its blocks are reliable. -/
theorem safe_iff : Safe r ↔ BlocksReliable r := by
  refine ⟨fun hsafe i hi => ?_, safe_of_blocksReliable⟩
  obtain ⟨it, it', hr, hload, htotal⟩ := canLoad_of_reached hsafe hi
  refine ⟨fun e he => (readBlock_ne_none_iff he).mp fun hnone => ?_, fun block hread => ?_⟩
  · simp [loadBlock, hr, hnone] at hload
  · simp only [loadBlock, hr, hread, bind, Option.bind, pure, Option.some.injEq] at hload
    subst hload
    exact (htotal.block rfl rfl).1

end SSTableReader.Iterator

/-! ## Point lookup -/

/-- A block that can be scanned. -/
def Scannable (block : Bytes) : Prop := Records block ∧ block.length < 2 ^ 32

/-- The cached blocks of a file can be scanned. -/
def CachesScannable (fileNumber : Nat) (cache : Option BlockCache) : Prop :=
  ∀ c ∈ cache, BlockCache.Holds
    (fun key block => key.file = fileNumber → Scannable block) c

variable {r : SSTableReader} {cache : Option BlockCache}

/-- `GetBlock` returns whole records, whether they come from the cache or from the file. -/
private theorem getBlock_scannable (hc : CachesScannable r.fileNumber cache) {i : Nat}
    (hread : r.readBlock i ≠ none)
    (hrecords : ∀ block, r.readBlock i = some (.ok block) → Records block) :
    ∃ x cache', r.getBlock cache i = some (x, cache') ∧ CachesScannable r.fileNumber cache' ∧
      ∀ block, x = .ok block → Scannable block := by
  obtain ⟨x, hx⟩ := Option.ne_none_iff_exists'.mp hread
  have hscan : ∀ block, x = .ok block → Scannable block := by
    rintro block rfl
    exact ⟨hrecords block hx, length_lt_of_readBlock hx⟩
  obtain ⟨e, he⟩ : ∃ e, r.index[i]? = some e := by
    simp only [readBlock, bind, Option.bind_eq_some_iff] at hx
    exact hx.imp fun _ h => h.1
  obtain ⟨y, cache', hget, -, hcache, hcases⟩ :=
    getBlock_holds hc he hx fun block hblock _ => hscan block hblock
  refine ⟨y, cache', hget, hcache, ?_⟩
  -- the block is from the cache, or it has been read
  rcases hcases with ⟨block, -, rfl, hblock⟩ | ⟨-, rfl⟩
  · intro block' heq
    cases heq
    exact hblock rfl
  · exact hscan

/-- `Get` searches the index as `Seek` does. -/
private theorem upperBoundLoop_eq_searchIndex (r : SSTableReader) (k : Bytes) :
    upperBoundLoop (fun e : IndexEntry => decide (¬ k < e.firstKey)) r.index 0 r.index.length =
      searchIndex r k := by
  have hpred : (fun e : IndexEntry => decide (¬ k < e.firstKey)) =
      fun e => decide (e.firstKey ≤ k) := by
    funext e
    simp only [not_lt]
  rw [hpred, upperBoundLoop_eq_loop, Nat.zero_add, searchIndex]

/-- A lookup in a table with reliable blocks and a filter that can be probed is defined. -/
private theorem get_ne_none (hr : BlocksReliable r) (hc : CachesScannable r.fileNumber cache) (k : Bytes)
    (hfilter : r.index ≠ [] → ∃ a, r.filter.mayContain k = some a) :
    ∃ out, r.get cache k = some out ∧ CachesScannable r.fileNumber out.2 := by
  unfold SSTableReader.get
  split
  -- an empty table has no block to look into
  · exact ⟨_, rfl, hc⟩
  rename_i hne
  obtain ⟨a, ha⟩ := hfilter hne
  obtain ⟨ruledOut, hruled⟩ : ∃ ruledOut, r.ruledOut k = some ruledOut := by
    rw [SSTableReader.ruledOut, ha]
    split <;> exact ⟨_, rfl⟩
  -- behind the filter `Get` goes to the block in front of the end of its search
  obtain ⟨lo, hlo, -⟩ := Iterator.exists_searchIndex hne k
  rw [upperBoundLoop_eq_searchIndex]
  simp only [hruled, hlo, bind, Option.bind]
  split
  · exact ⟨_, rfl, hc⟩
  split
  · exact ⟨_, rfl, hc⟩
  cases lo with
  | zero => contradiction
  | succ i =>
    have hi : Reached r i := .search hlo
    obtain ⟨x, cache', hx, hc', hscan⟩ :=
      getBlock_scannable hc (hr.readBlock_ne_none hi) (hr i hi).2
    rw [Nat.add_sub_cancel, hx]
    cases x with
    | error s => exact ⟨_, rfl, hc'⟩
    | ok block =>
      obtain ⟨⟨es, rfl⟩, hlen⟩ := hscan block rfl
      obtain ⟨result, hresult⟩ := Option.ne_none_iff_exists'.mp (scanBlock_ne_none hlen k)
      simp only [hresult]
      exact ⟨_, rfl, hc'⟩

/-! ## `Open` -/

/-- The checks of `ParseIndex` precede the reads, so no step leaves the index section. -/
private theorem indexStep_ne_none (p : Bytes) : indexStep p ≠ none := by
  unfold indexStep
  split
  · simp
  rename_i hlen
  -- the first check leaves four bytes for the length of the key
  obtain ⟨klen, hklen⟩ := decodeFixed32_isSome (p := p) (by omega)
  simp only [hklen, bind, Option.bind]
  split
  · simp
  rename_i hrest
  have hkey : loadBytes (p.drop 4) klen.toNat = some ((p.drop 4).take klen.toNat) :=
    if_pos (by omega)
  -- the second check leaves room for the key and the two fields behind it
  obtain ⟨offset, hoffset⟩ := decodeFixed64_isSome (p := (p.drop 4).drop klen.toNat) (by
    rw [List.length_drop]
    omega)
  obtain ⟨length, hlength⟩ := decodeFixed32_isSome (p := ((p.drop 4).drop klen.toNat).drop 8) (by
    rw [List.length_drop, List.length_drop]
    omega)
  simp only [hkey, hoffset, hlength]
  simp

/-- The index loop of `Open` checks what it reads. -/
private theorem parseIndex_ne_none (p : Bytes) : parseIndex p ≠ none := by
  fun_induction parseIndex p with
  | case1 => simp
  | case2 p hne hnone => exact absurd hnone (indexStep_ne_none p)
  | case3 => simp
  | case4 p hne e rest hstep ih => simpa using ih

/-- A stage behind another one is defined if it is for whatever the first one returns. -/
theorem onOk_ne_none_iff {α β : Type} {x : Option (Except Status α)}
    {f : α → Option (Except Status β)} :
    onOk x f ≠ none ↔ x ≠ none ∧ ∀ a, x = some (.ok a) → f a ≠ none := by
  rcases x with _ | _ | a
  · simp [onOk]
  · simp
  · simp

/-- The last bytes of a file that is long enough are those of a footer. -/
theorem exists_footer {file : Bytes} (h : kFooterSize ≤ file.length) :
    ∃ (body : Bytes) (ft : Footer), file = body ++ ft.bytes := by
  set p := file.drop (file.length - kFooterSize) with hp
  have hlen : p.length = 44 := by
    rw [hp, List.length_drop]
    change file.length - (file.length - 44) = 44
    change 44 ≤ file.length at h
    omega
  -- 44 bytes are five fields of eight and the magic number, and nothing is left over
  obtain ⟨a, ha⟩ := decodeFixed64_isSome (p := p) (by omega)
  obtain ⟨b, hb⟩ := decodeFixed64_isSome (p := p.drop 8) (by rw [List.length_drop]; omega)
  obtain ⟨c, hc⟩ := decodeFixed64_isSome (p := (p.drop 8).drop 8) (by
    simp only [List.length_drop]
    omega)
  obtain ⟨d, hd⟩ := decodeFixed64_isSome (p := ((p.drop 8).drop 8).drop 8) (by
    simp only [List.length_drop]
    omega)
  obtain ⟨e, he⟩ := decodeFixed64_isSome (p := (((p.drop 8).drop 8).drop 8).drop 8) (by
    simp only [List.length_drop]
    omega)
  obtain ⟨f, hf⟩ := decodeFixed32_isSome (p := ((((p.drop 8).drop 8).drop 8).drop 8).drop 8) (by
    simp only [List.length_drop]
    omega)
  have hnil : (((((p.drop 8).drop 8).drop 8).drop 8).drop 8).drop 4 = [] := by
    rw [← List.length_eq_zero_iff]
    simp only [List.length_drop]
    omega
  refine ⟨file.take (file.length - kFooterSize), ⟨a, b, c, d, e, f⟩, ?_⟩
  have hbytes : p = Footer.bytes ⟨a, b, c, d, e, f⟩ := by
    rw [eq_putFixed64_of_decodeFixed64 ha, eq_putFixed64_of_decodeFixed64 hb,
      eq_putFixed64_of_decodeFixed64 hc, eq_putFixed64_of_decodeFixed64 hd,
      eq_putFixed64_of_decodeFixed64 he, eq_putFixed32_of_decodeFixed32 hf, hnil]
    simp only [Footer.bytes, List.append_assoc, List.append_nil]
  rw [← hbytes, hp, List.take_append_drop]

/-- A search for a key that is not smaller than any first key ends behind the last block. -/
private theorem reached_last (hne : r.index ≠ []) : Reached r (r.index.length - 1) := by
  -- the index of a damaged file need not be sorted, but it has a largest first key
  obtain ⟨key, hkey⟩ : ∃ key, ∀ e ∈ r.index, e.firstKey ≤ key := by
    induction r.index with
    | nil => exact ⟨[], by simp⟩
    | cons e es ih =>
      obtain ⟨key, hkey⟩ := ih
      refine ⟨max e.firstKey key, fun x hx => ?_⟩
      rcases List.mem_cons.mp hx with rfl | hx
      · exact le_max_left _ _
      · exact (hkey x hx).trans (le_max_right _ _)
  set p : IndexEntry → Bool := fun e => decide (e.firstKey ≤ key) with hp
  have hall : ∀ e ∈ r.index, p e = true := fun e he => by simpa [hp] using hkey e he
  have hpart : Partitioned p r.index :=
    List.pairwise_of_forall_mem_list fun a ha b _ _ => hall a ha
  have hbound : boundary p r.index = r.index.length := by
    rw [boundary, List.takeWhile_eq_self_iff.mpr hall]
  have hsearch := loop_eq_boundary hpart 0 r.index.length (Nat.zero_le _) hbound.le le_rfl
  have hpos := List.length_pos_iff.mpr hne
  refine @Reached.search r key _ ?_
  rw [searchIndex, hsearch, hbound, Nat.sub_add_cancel hpos]

/-- The reader that `Open` has built once it has accepted the index and the filter. -/
def Loaded (path : String) (file : Bytes) (fileNumber : Nat) (ft : Footer) (r : SSTableReader) :
    Prop :=
  ∃ entries, openIndex path file ft = some (.ok entries) ∧
    SSTableReader.open.loadFilter path
      { base := file, fileNumber := fileNumber, index := entries, numEntries := ft.numEntries }
      ft.filterOffset ft.filterLength = some (.ok r)

/-- What the reader relies on in a file with a footer that has the magic number: as far as it gets
    with the file, every range that passes the 64-bit check ends in the file, every block with a
    matching checksum is a sequence of complete records, and the filter has the bytes that its
    header announces. -/
structure Reliable (path : String) (file : Bytes) (fileNumber : Nat) (ft : Footer) : Prop where
  index : ft.indexOffset + ft.indexLength + 4 ≤ file.length.toUInt64 →
    ft.filterOffset + ft.filterLength + 4 ≤ file.length.toUInt64 →
    ft.indexOffset.toNat + ft.indexLength.toNat + 4 ≤ file.length
  filter : ∀ entries, openIndex path file ft = some (.ok entries) → 0 < ft.filterLength →
    ft.filterOffset.toNat + ft.filterLength.toNat + 4 ≤ file.length
  last : ∀ r, Loaded path file fileNumber ft r → ∀ e ∈ r.index.getLast?, EntryInFile file e
  rest : ∀ r, Loaded path file fileNumber ft r →
    (∃ block, r.readBlock (r.index.length - 1) = some (.ok block)) →
      FilterComplete r.filter ∧ BlocksReliable r

/-- `Open`, and every call on the reader that it returns, stays within the file and the blocks that
    it parses. -/
structure InBounds (path : String) (file : Bytes) (fileNumber : Nat) : Prop where
  opened : SSTableReader.open path file fileNumber ≠ none
  get : ∀ r, SSTableReader.open path file fileNumber = some (.ok r) → ∀ on cache k,
    CachesScannable r.fileNumber cache →
      ∃ out, SSTableReader.get { r with filterEnabled := on } cache k = some out ∧
        CachesScannable r.fileNumber out.2
  iterate : ∀ r, SSTableReader.open path file fileNumber = some (.ok r) → Iterator.Safe r

section

variable {path : String} {file : Bytes} {fileNumber : Nat} {ft : Footer}

/-- Reading the index is defined if the section is in the file; the check for it is done in 64 bits
    and can wrap around. -/
theorem openIndex_ne_none_iff : openIndex path file ft ≠ none ↔
    (ft.indexOffset + ft.indexLength + 4 ≤ file.length.toUInt64 →
      ft.filterOffset + ft.filterLength + 4 ≤ file.length.toUInt64 →
      ft.indexOffset.toNat + ft.indexLength.toNat + 4 ≤ file.length) := by
  unfold openIndex
  split
  · -- `Open` rejects the footer and reads nothing
    rename_i hpast
    simp only [ne_eq, reduceCtorEq, not_false_eq_true, true_iff]
    intro hi hf
    rcases hpast with h | h
    · exact absurd hi (UInt64.not_le.mpr h)
    · exact absurd hf (UInt64.not_le.mpr h)
  · -- the check has passed, so the section is read
    rename_i hpast
    rw [not_or, gt_iff_lt, gt_iff_lt, UInt64.not_lt, UInt64.not_lt] at hpast
    rw [onOk_ne_none_iff, checkedSection_ne_none_iff]
    exact ⟨fun h _ _ => h.1, fun h => ⟨h hpast.1 hpast.2, fun data _ => parseIndex_ne_none data⟩⟩

/-- The filter section is read only if it has a length, and then it has to be in the file. -/
private theorem loadFilter_ne_none_iff {offset length : UInt64} :
    SSTableReader.open.loadFilter path r offset length ≠ none ↔
      (0 < length → offset.toNat + length.toNat + 4 ≤ r.base.length) := by
  rw [loadFilter_eq]
  split
  · rename_i hpos
    rw [onOk_ne_none_iff, checkedSection_ne_none_iff]
    refine ⟨fun h _ => h.1, fun h => ⟨h hpos, fun data _ => ?_⟩⟩
    obtain ⟨f, hf, -⟩ := exists_reset data
    simp [hf]
  · rename_i hpos
    simp only [ne_eq, reduceCtorEq, not_false_eq_true, true_iff]
    exact fun h => absurd h hpos

/-- A reader whose filter was loaded has the bytes and the index it had before. -/
theorem Loaded.spec (h : Loaded path file fileNumber ft r) :
    r.base = file ∧ r.fileNumber = fileNumber ∧
      ((∀ k, ∃ a, r.filter.mayContain k = some a) ↔ FilterComplete r.filter) := by
  obtain ⟨entries, -, hload⟩ := h
  rw [loadFilter_eq] at hload
  split at hload
  · -- with a filter section: what `Reset` has made of it
    rcases hsec : checkedSection file ft.filterOffset.toNat ft.filterLength.toNat
      (.corruption ("filter CRC mismatch in " ++ path)) with _ | _ | data
    · simp [hsec, onOk] at hload
    · simp [hsec] at hload
    · rw [hsec, onOk_ok, Option.map_eq_some_iff] at hload
      obtain ⟨f, hf, hr⟩ := hload
      cases hr
      exact ⟨rfl, rfl, mayContain_total_iff hf⟩
  · -- without one the filter is off and answers true
    cases hload
    exact ⟨rfl, rfl, iff_of_true (fun k => ⟨true, rfl⟩) (.inl rfl)⟩

/-- The last block of a table with reliable blocks can be scanned for its keys. -/
private theorem lastKeyLoop_ne_none (h : BlocksReliable r) {block : Bytes}
    (hread : r.readBlock (r.index.length - 1) = some (.ok block)) : lastKeyLoop block [] ≠ none := by
  by_cases hne : r.index = []
  · simp [readBlock, hne] at hread
  · obtain ⟨es, rfl⟩ := (h _ (reached_last hne)).2 block hread
    rw [lastKeyLoop_blockBytes (length_lt_of_readBlock hread)]
    simp

/-- The last stage of `Open` adds the key range to the reader. -/
private theorem deriveRange_cases {x : Except Status SSTableReader}
    (h : SSTableReader.open.deriveRange r = some x) :
    (∃ s, x = .error s) ∨ ∃ smallest largest,
      x = .ok { r with smallestKey := smallest, largestKey := largest } ∧
        (r.index = [] ∨ ∃ block, r.readBlock (r.index.length - 1) = some (.ok block)) := by
  by_cases hnil : r.index = []
  · rw [deriveRange_nil hnil] at h
    cases h
    exact .inr ⟨r.smallestKey, r.largestKey, rfl, .inl hnil⟩
  · obtain ⟨first, rest, hindex⟩ := List.exists_cons_of_ne_nil hnil
    rw [deriveRange_cons hindex] at h
    -- the last block is loaded for its last key
    rcases hread : r.readBlock (r.index.length - 1) with _ | s | block
    · simp [hread, onOk] at h
    · rw [hread, onOk_error] at h
      cases h
      exact .inl ⟨s, rfl⟩
    · rw [hread, onOk_ok, Option.map_eq_some_iff] at h
      obtain ⟨largest, -, rfl⟩ := h
      exact .inr ⟨first.firstKey, largest, rfl, .inr ⟨block, rfl⟩⟩

/-- The stages of `Open` on a file with the magic number. -/
theorem open_of_magic {body : Bytes} (hfile : file = body ++ ft.bytes)
    (hmagic : ft.magic = kSSTableMagic) :
    SSTableReader.open path file fileNumber =
      onOk (openIndex path file ft) fun entries =>
        onOk (SSTableReader.open.loadFilter path
          { base := file, fileNumber := fileNumber, index := entries, numEntries := ft.numEntries }
          ft.filterOffset ft.filterLength) SSTableReader.open.deriveRange := by
  rw [hfile, open_append_bytes, if_neg (by simp [hmagic])]

/-- A reader that `Open` returns went through the stages. -/
private theorem open_ok_cases {body : Bytes} (hfile : file = body ++ ft.bytes)
    (hmagic : ft.magic = kSSTableMagic) {r' : SSTableReader}
    (h : SSTableReader.open path file fileNumber = some (.ok r')) :
    ∃ r smallest largest, Loaded path file fileNumber ft r ∧
      r' = { r with smallestKey := smallest, largestKey := largest } ∧
        (r.index = [] ∨ ∃ block, r.readBlock (r.index.length - 1) = some (.ok block)) := by
  rw [open_of_magic hfile hmagic] at h
  -- every stage has to succeed: the index, then the filter, then the key range
  rcases hindex : openIndex path file ft with _ | _ | entries
  · simp [hindex, onOk] at h
  · simp [hindex] at h
  rw [hindex, onOk_ok] at h
  rcases hload : SSTableReader.open.loadFilter path
      { base := file, fileNumber := fileNumber, index := entries, numEntries := ft.numEntries }
      ft.filterOffset ft.filterLength with _ | _ | r
  · simp [hload, onOk] at h
  · simp [hload] at h
  rw [hload, onOk_ok] at h
  obtain ⟨s, hs⟩ | ⟨smallest, largest, heq, hread⟩ := deriveRange_cases h
  · cases hs
  · cases heq
    exact ⟨r, smallest, largest, ⟨entries, hindex, hload⟩, rfl, hread⟩

/-! ## The reader -/

/-- The lookups of a reader probe its filter. -/
private theorem mayContain_of_get (hne : r.index ≠ []) {k : Bytes}
    {out : (LookupResult × Status) × Option BlockCache}
    (h : SSTableReader.get { r with filterEnabled := true } cache k = some out) :
    ∃ a, r.filter.mayContain k = some a := by
  by_cases hvalid : r.filter.valid = true
  · rw [SSTableReader.get, if_neg hne, SSTableReader.ruledOut, if_pos (by simpa using hvalid)] at h
    cases hmay : r.filter.mayContain k with
    | none => simp [hmay] at h
    | some a => exact ⟨a, rfl⟩
  · have hzero : r.filter.numBits = 0 := by
      simpa [BloomFilter.valid, UInt32.pos_iff_ne_zero] using hvalid
    exact ⟨true, by rw [BloomFilter.mayContain, if_pos hzero]⟩

/-- If `Open` and all calls on its reader stay in the mapping, then the sections and the blocks are
    in the file. -/
private theorem reliable_of_inBounds {body : Bytes} (h : InBounds path file fileNumber)
    (hfile : file = body ++ ft.bytes) (hmagic : ft.magic = kSSTableMagic) :
    Reliable path file fileNumber ft := by
  have hopen : SSTableReader.open path file fileNumber = _ := open_of_magic hfile hmagic
  have hstages := h.opened
  rw [hopen, onOk_ne_none_iff] at hstages
  obtain ⟨hindex, hfilter⟩ := hstages
  -- what is left of `Open` for a reader that has been loaded
  have hrange : ∀ r, Loaded path file fileNumber ft r → SSTableReader.open.deriveRange r ≠ none ∧
      SSTableReader.open path file fileNumber = SSTableReader.open.deriveRange r := by
    intro r ⟨entries, hentries, hload⟩
    refine ⟨(onOk_ne_none_iff.mp (hfilter entries hentries)).2 r hload, ?_⟩
    rw [hopen, hentries, onOk_ok, hload, onOk_ok]
  refine ⟨openIndex_ne_none_iff.mp hindex, fun entries hentries => ?_, fun r hr e he => ?_,
    fun r hr hread => ?_⟩
  · exact loadFilter_ne_none_iff.mp (onOk_ne_none_iff.mp (hfilter entries hentries)).1
  · -- `Open` reads the last block for the largest key
    have hne : r.index ≠ [] := by
      rintro hnil
      simp [hnil] at he
    obtain ⟨first, rest, hcons⟩ := List.exists_cons_of_ne_nil hne
    have hderive := (hrange r hr).1
    rw [deriveRange_cons hcons, onOk_ne_none_iff] at hderive
    rw [Option.mem_def, List.getLast?_eq_getElem?] at he
    rw [← hr.spec.1]
    exact (readBlock_ne_none_iff he).mp hderive.1
  · -- `Open` returns a reader, and the calls on it are defined
    obtain ⟨block, hread⟩ := hread
    obtain ⟨hderive, hopened⟩ := hrange r hr
    have hne : r.index ≠ [] := by
      rintro hnil
      simp [readBlock, hnil] at hread
    obtain ⟨first, rest, hcons⟩ := List.exists_cons_of_ne_nil hne
    rw [deriveRange_cons hcons, hread, onOk_ok] at hderive hopened
    cases hlargest : lastKeyLoop block [] with
    | none => simp [hlargest] at hderive
    | some largest =>
      rw [hlargest, Option.map_some] at hopened
      refine ⟨hr.spec.2.2.mp fun k => ?_, ?_⟩
      · obtain ⟨out, hget, -⟩ := h.get _ hopened true none k (by simp [CachesScannable])
        exact mayContain_of_get hne hget
      · exact (Iterator.safe_iff.mp (h.iterate _ hopened)).congr rfl rfl

/-- On a reliable file `Open` is defined. -/
private theorem open_ne_none {body : Bytes} (h : Reliable path file fileNumber ft)
    (hfile : file = body ++ ft.bytes) (hmagic : ft.magic = kSSTableMagic) :
    SSTableReader.open path file fileNumber ≠ none := by
  rw [open_of_magic hfile hmagic, onOk_ne_none_iff]
  refine ⟨openIndex_ne_none_iff.mpr h.index, fun entries hentries => ?_⟩
  rw [onOk_ne_none_iff]
  refine ⟨loadFilter_ne_none_iff.mpr (h.filter entries hentries), fun r hload => ?_⟩
  have hr : Loaded path file fileNumber ft r := ⟨entries, hentries, hload⟩
  by_cases hnil : r.index = []
  · simp [deriveRange_nil hnil]
  · obtain ⟨first, rest, hcons⟩ := List.exists_cons_of_ne_nil hnil
    rw [deriveRange_cons hcons, onOk_ne_none_iff]
    refine ⟨?_, fun block hread => ?_⟩
    -- the last block is the one the index ends with
    · have hlast : r.index[r.index.length - 1]? = some (r.index.getLast hnil) := by
        rw [← List.getLast?_eq_getElem?, List.getLast?_eq_getLast_of_ne_nil hnil]
      rw [readBlock_ne_none_iff hlast, hr.spec.1]
      exact h.last r hr _ (List.getLast?_eq_getLast_of_ne_nil hnil)
    · simpa using lastKeyLoop_ne_none (h.rest r hr ⟨block, hread⟩).2 hread

/-- A reader that `Open` returns for a reliable file has reliable blocks, and a filter that can be
    probed. -/
private theorem opened_reliable {body : Bytes} (h : Reliable path file fileNumber ft)
    (hfile : file = body ++ ft.bytes) (hmagic : ft.magic = kSSTableMagic)
    (hopen : SSTableReader.open path file fileNumber = some (.ok r)) :
    BlocksReliable r ∧ (r.index ≠ [] → ∀ k, ∃ a, r.filter.mayContain k = some a) := by
  obtain ⟨r₀, smallest, largest, hr, rfl, hread⟩ := open_ok_cases hfile hmagic hopen
  rcases hread with hnil | hread
  · refine ⟨fun i hi => ?_, fun hne => absurd hnil hne⟩
    have hlt := hi.lt
    simp [hnil] at hlt
  · obtain ⟨hfilter, hblocks⟩ := h.rest r₀ hr hread
    exact ⟨hblocks.congr rfl rfl, fun _ => hr.spec.2.2.mpr hfilter⟩

/-- A block of one record that announces a key of 255 bytes, and has none. -/
def cutRecord : Bytes := [0, 255, 0, 0, 0, 0, 0, 0, 0]

/-- A file with a single block, and checksums and offsets as they should be. -/
def tableOfBlock (block : Bytes) : Bytes :=
  let indexBuf := SSTableWriter.indexBytes ⟨[], 0, block.length.toUInt32⟩
  (sectionBytes block ++ sectionBytes indexBuf) ++
    Footer.bytes ⟨0, 0, (block.length + 4).toUInt64, indexBuf.length.toUInt64, 1, kSSTableMagic⟩

end

end Lsmdb
