import Lsmdb.Spec.CrcCorrect
import Lsmdb.Spec.TableFiles

/-!
# SSTables with a changed byte

A byte of a written file is replaced by another one. In front of the footer every byte
belongs to a checksummed section, and `Open` or the read of the section's block notices
the change before it uses the bytes: `Open` fails, or its reader is that of the original
file but for one block that cannot be read (`open_changed`). The footer has no checksum of
its own; there a change is caught if no other range of the file is followed by its
checksum.
-/

namespace Lsmdb

open Cursor SSTableReader

/-! ## Changed sections -/

/-- A changed section fails its check, whether the data or the stored checksum was changed. -/
theorem checkedSection_changed {data changed : Bytes}
    (h : OneByteChanged (sectionBytes data) changed) (pre post : Bytes) (bad : Status) :
    checkedSection (pre ++ (changed ++ post)) pre.length data.length bad = some (.error bad) := by
  have hdrop : (pre ++ (changed ++ post)).drop pre.length = changed ++ post := List.drop_left' rfl
  simp only [checkedSection, hdrop]
  rcases h.of_append with ⟨data', hdata, rfl⟩ | ⟨crc', hcrc, rfl⟩
  · -- a byte of the data: its checksum is another one
    have hlen := hdata.length_eq
    rw [List.append_assoc, List.drop_left' hlen, loadBytes_append hlen, decodeFixed32_putFixed32]
    simp [hdata.crc32_ne]
  · -- a byte of the checksum: it is not that of the data
    have hlen : 4 ≤ (crc' ++ post).length := by
      rw [List.length_append, hcrc.length_eq, length_putFixed32]
      omega
    obtain ⟨c, hc⟩ := decodeFixed32_isSome hlen
    have hne : crc32 data ≠ c := by
      rintro rfl
      have heq := eq_putFixed32_of_decodeFixed32 hc
      exact hcrc.ne (List.append_inj_left heq (by rw [hcrc.length_eq]))
    rw [List.append_assoc, List.drop_left' rfl, loadBytes_append rfl, hc]
    simp [hne]

/-- A change in the data blocks spoils one block. -/
private theorem readBlock_changed {r : SSTableReader} {bs : List (List Entry)} {data post : Bytes}
    (hindex : r.index = indexFrom 0 bs) (hdata : OneByteChanged (dataBytes bs) data)
    (hbase : r.base = data ++ post) (hfit : BlocksFit bs) (hlen : r.base.length < 2 ^ 64) {i : Nat}
    {b : List Entry} (hb : bs[i]? = some b) :
    r.readBlock i = some (.ok (blockBytes b)) ∨
      r.readBlock i = some (.error (.corruption "block CRC mismatch")) := by
  obtain ⟨hi, rfl⟩ := List.getElem?_eq_some_iff.mp hb
  have hle : (dataBytes bs).length ≤ r.base.length := by
    rw [hbase, List.length_append, hdata.length_eq]
    omega
  rw [readBlock_eq_checkedSection hindex hle hfit hlen hi, hbase]
  rw [dataBytes_split hi] at hdata
  -- the change lies before the block, in it or behind it
  rcases hdata.of_append with ⟨before, hbefore, rfl⟩ | ⟨rest, hrest, rfl⟩
  · refine .inl ?_
    rw [← hbefore.length_eq, List.append_assoc, List.append_assoc]
    exact checkedSection_sectionBytes _ _ _ _
  rw [List.append_assoc]
  rcases hrest.of_append with ⟨block, hblock, rfl⟩ | ⟨behind, hbehind, rfl⟩
  · refine .inr ?_
    rw [List.append_assoc]
    exact checkedSection_changed hblock _ _ _
  · refine .inl ?_
    rw [List.append_assoc]
    exact checkedSection_sectionBytes _ _ _ _

/-! ## `Open` -/

variable {blockSize : Nat} {bitsPerKey : Int} {es : List Entry} {file : Bytes}

/-- A change in the index is noticed by `Open`. -/
private theorem open_changed_index (hfit : TableFits blockSize bitsPerKey es) {data filter index : Bytes}
    (h : LaidOut blockSize bitsPerKey es data filter index file)
    (hindex : OneByteChanged (sectionBytes (indexBuf (blocksOf blockSize es))) index)
    (path : String) (fileNumber : Nat) :
    SSTableReader.open path file fileNumber =
      some (.error (.corruption ("index CRC mismatch in " ++ path))) := by
  rw [h.open_eq, h.openIndex_eq (h.length_tableBytes ▸ hfit.length)]
  nth_rewrite 1 [h.eq]
  rw [← List.append_assoc, checkedSection_changed hindex, onOk_error, onOk_error]

/-- A change in the filter is noticed by `Open`. -/
private theorem open_changed_filter (hfit : TableFits blockSize bitsPerKey es) {data filter : Bytes}
    (h : LaidOut blockSize bitsPerKey es data filter
      (sectionBytes (indexBuf (blocksOf blockSize es))) file)
    (hfilter : OneByteChanged (sectionBytes (filterBytes bitsPerKey es)) filter)
    (path : String) (fileNumber : Nat) :
    SSTableReader.open path file fileNumber =
      some (.error (.corruption ("filter CRC mismatch in " ++ path))) := by
  have hlen : file.length < 2 ^ 64 := h.length_tableBytes ▸ hfit.length
  rw [h.open_eq, h.openIndex_eq_ok hfit, onOk_ok, h.loadFilter_eq hlen path rfl]
  nth_rewrite 1 [h.eq]
  rw [checkedSection_changed hfilter, onOk_error, onOk_error]

/-- A change in the data blocks is noticed by `Open`, or it spoils one block. -/
private theorem open_changed_data (hfit : TableFits blockSize bitsPerKey es) {data : Bytes}
    (h : LaidOut blockSize bitsPerKey es data (sectionBytes (filterBytes bitsPerKey es))
      (sectionBytes (indexBuf (blocksOf blockSize es))) file)
    (hdata : OneByteChanged (dataBytes (blocksOf blockSize es)) data)
    (path : String) (fileNumber : Nat) :
    (∃ s, SSTableReader.open path file fileNumber = some (.error s) ∧ s.ok = false) ∨
      ∃ r, SSTableReader.open path file fileNumber = some (.ok r) ∧
        (tableReader blockSize bitsPerKey es fileNumber).Damaged r := by
  have hlen : file.length < 2 ^ 64 := h.length_tableBytes ▸ hfit.length
  set r : SSTableReader := { tableReader blockSize bitsPerKey es fileNumber with base := file }
    with hr
  -- a block is read as it was written, or its checksum fails
  have hread : ∀ i b, (blocksOf blockSize es)[i]? = some b →
      r.readBlock i = some (.ok (blockBytes b)) ∨
        r.readBlock i = some (.error (.corruption "block CRC mismatch")) :=
    fun i b hb => readBlock_changed rfl hdata h.eq hfit.blocks hlen hb
  have hdamaged : (tableReader blockSize bitsPerKey es fileNumber).Damaged r := by
    refine ⟨rfl, h.length_tableBytes, fun i => ?_⟩
    cases hb : (blocksOf blockSize es)[i]? with
    -- there is no such block in either file
    | none =>
      have hnone : (indexFrom 0 (blocksOf blockSize es))[i]? = none := by
        rw [getElem?_indexFrom, hb, Option.map_none]
      refine .inl ?_
      simp only [readBlock, hr, tableReader, hnone, bind, Option.bind]
    | some b =>
      rw [intact_tableReader hfit fileNumber i b hb]
      exact hread i b hb
  -- `Open` reads the last block
  by_cases hlast : r.readBlock ((blocksOf blockSize es).length - 1) =
      some (.error (.corruption "block CRC mismatch"))
  · refine .inl ⟨_, open_of_last_error hfit h path fileNumber ?_ hlast, rfl⟩
    intro hnil
    rw [hnil] at hdata
    obtain ⟨pre, a, b, post, -, hpre, -⟩ := hdata
    simp at hpre
  · refine .inr ⟨r, open_of_last_ok hfit h path fileNumber fun b hb => ?_, hdamaged⟩
    rw [Option.mem_def, List.getLast?_eq_getElem?] at hb
    exact (hread _ b hb).resolve_right hlast

/-- The sections of a table in front of its footer. -/
def tableBody (blockSize : Nat) (bitsPerKey : Int) (es : List Entry) : Bytes :=
  dataBytes (blocksOf blockSize es) ++ (sectionBytes (filterBytes bitsPerKey es) ++
    sectionBytes (indexBuf (blocksOf blockSize es)))

/-- The length of the sections of a table. -/
theorem length_tableBody (blockSize : Nat) (bitsPerKey : Int) (es : List Entry) :
    (tableBody blockSize bitsPerKey es).length = (dataBytes (blocksOf blockSize es)).length +
      ((filterBytes bitsPerKey es).length + 4 +
        ((indexBuf (blocksOf blockSize es)).length + 4)) := by
  simp only [tableBody, List.length_append, length_sectionBytes]

/-- A table is its sections and the footer. -/
private theorem tableBytes_eq (blockSize : Nat) (bitsPerKey : Int) (es : List Entry) :
    tableBytes blockSize bitsPerKey es =
      tableBody blockSize bitsPerKey es ++ (tableFooter blockSize bitsPerKey es).bytes := by
  rw [tableBody, List.append_assoc, List.append_assoc]
  rfl

/-- A change of one byte in front of the footer is noticed by `Open`, or it spoils one block. -/
private theorem open_changed (hfit : TableFits blockSize bitsPerKey es) {body : Bytes}
    (hbody : OneByteChanged (tableBody blockSize bitsPerKey es) body)
    (path : String) (fileNumber : Nat) :
    let opened := SSTableReader.open path (body ++ (tableFooter blockSize bitsPerKey es).bytes)
      fileNumber
    (∃ s, opened = some (.error s) ∧ s.ok = false) ∨
      ∃ r, opened = some (.ok r) ∧ (tableReader blockSize bitsPerKey es fileNumber).Damaged r := by
  rcases hbody.of_append with ⟨data, hdata, rfl⟩ | ⟨rest, hrest, rfl⟩
  · -- a byte of a block
    have h : LaidOut blockSize bitsPerKey es data _ _ _ :=
      ⟨rfl, hdata.length_eq, length_sectionBytes _, length_sectionBytes _⟩
    rw [List.append_assoc, List.append_assoc]
    exact open_changed_data hfit h hdata path fileNumber
  rw [List.append_assoc]
  rcases hrest.of_append with ⟨filter, hfilter, rfl⟩ | ⟨index, hindex, rfl⟩
  · -- a byte of the filter
    have h : LaidOut blockSize bitsPerKey es _ filter _ _ :=
      ⟨rfl, rfl, hfilter.length_eq.trans (length_sectionBytes _), length_sectionBytes _⟩
    rw [List.append_assoc]
    exact .inl ⟨_, open_changed_filter hfit h hfilter path fileNumber, rfl⟩
  · -- a byte of the index
    have h : LaidOut blockSize bitsPerKey es _ _ index _ :=
      ⟨rfl, rfl, length_sectionBytes _, hindex.length_eq.trans (length_sectionBytes _)⟩
    rw [List.append_assoc]
    exact .inl ⟨_, open_changed_index hfit h hindex path fileNumber, rfl⟩

/-! ## What a caller sees -/

/-- A reader with intact blocks fails on none of them. -/
private theorem readBlock_ne_error {r : SSTableReader} {bs : List (List Entry)} (h : Serves r bs)
    (hint : Intact r bs) (i : Nat) (s : Status) : r.readBlock i ≠ some (.error s) := by
  cases hb : bs[i]? with
  | none =>
    have hnone : r.index[i]? = none := by
      rw [h.index_eq, getElem?_indexFrom, hb, Option.map_none]
    simp [readBlock, hnone]
  | some b =>
    rw [hint i b hb]
    simp

/-- A lookup in a damaged table answers as in the table, or it finds nothing and reports the
    corruption. -/
private theorem get_damaged {r r' : SSTableReader} {bs : List (List Entry)} (h : Serves r bs)
    (hint : Intact r bs) (hd : r.Damaged r') (on : Bool) (k : Bytes) :
    ∃ out, SSTableReader.get { r' with filterEnabled := on } none k = some (out, none) ∧
      (out = (lookup bs.flatten k, .OK) ∨
        out = (.notFound, .corruption "block CRC mismatch")) := by
  have hserves := (h.damaged hd).setFilterEnabled on
  have hnone : ∀ c ∈ (none : Option BlockCache), BlockCache.Holds
      (fun key => IsTableBlock { r' with filterEnabled := on } bs key.offset) c := by
    simp
  obtain ⟨⟨⟨result, status⟩, cache⟩, hget, hout⟩ :=
    get_spec hserves (hserves.cachesTable fun _ _ => Iff.rfl) hnone k
  have hcache := hout.isSome_eq
  rw [Option.isSome_none, Option.isSome_eq_false_iff, Option.isNone_iff_eq_none] at hcache
  refine ⟨(result, status), by rw [hget, ← hcache], ?_⟩
  rcases hout.result with hsame | ⟨hnot, i, hread⟩
  · exact .inl hsame
  · -- the failure is not one of the table that was damaged
    have hbad : r'.readBlock i = some (.error status) :=
      (readBlock_congr rfl rfl i).trans hread
    rcases hd.readBlock i with hsame | hcrc
    · exact absurd (hsame.symm.trans hbad) (readBlock_ne_error h hint i status)
    · rw [hcrc, Option.some.injEq, Except.error.injEq] at hbad
      refine .inr (Prod.ext hnot hbad.symm)

/-- One byte of a written table in front of the footer is changed: `Open` fails, or every lookup
    answers as in the original file unless it reports the corruption, and an iterator that is sent
    to the start of the table yields a prefix of the entries, all of them if it ends with `OK`. -/
theorem changed_byte_caught (blockSize : Nat) (bitsPerKey : Int) (es : List Entry)
    (hs : SortedMap.Sorted Entry.key es) (hblocks : BlocksFit (blocksOf blockSize es))
    (hfilter : FilterFits es.length bitsPerKey)
    (hfile : (SSTableWriter.writeTable blockSize bitsPerKey es).2.length < 2 ^ 64)
    (path : String) (fileNumber pos : Nat) (v : UInt8)
    (hpos : pos + kFooterSize < (SSTableWriter.writeTable blockSize bitsPerKey es).2.length)
    (hv : (SSTableWriter.writeTable blockSize bitsPerKey es).2[pos]? ≠ some v) :
    let file := (SSTableWriter.writeTable blockSize bitsPerKey es).2
    ∃ r, SSTableReader.open path file fileNumber = some (.ok r) ∧
      ((∃ s, SSTableReader.open path (file.set pos v) fileNumber = some (.error s) ∧
          s.ok = false) ∨
        ∃ r', SSTableReader.open path (file.set pos v) fileNumber = some (.ok r') ∧
          (∀ on k, ∃ out out',
            SSTableReader.get { r with filterEnabled := on } none k = some (out, none) ∧
            SSTableReader.get { r' with filterEnabled := on } none k = some (out', none) ∧
            (out' = out ∨ out'.2.isCorruption = true ∧ ∀ value, out'.1 ≠ .found value)) ∧
          ∀ it, Iterator.Positioned r' it → ∃ it' l s, it.seekToFirst = some it' ∧
            Yields .OK it' l s ∧ l <+: es ∧ (s.ok = true → l = es)) := by
  intro file
  obtain ⟨hbytes, hfit, hopened⟩ := open_writeTable hblocks hfilter hfile path fileNumber
  rw [hbytes] at hpos hv
  have hserves := serves_tableReader hs hfit fileNumber
  have hint := intact_tableReader hfit fileNumber
  refine ⟨tableReader blockSize bitsPerKey es fileNumber, hopened, ?_⟩
  -- the changed byte lies in the body of the file
  set body := tableBody blockSize bitsPerKey es
  have hsplit : tableBytes blockSize bitsPerKey es =
      body ++ (tableFooter blockSize bitsPerKey es).bytes := tableBytes_eq _ _ _
  have hin : pos < body.length := by
    rw [hsplit, List.length_append, Footer.length_bytes] at hpos
    omega
  rw [hsplit, List.getElem?_append_left hin] at hv
  have hset : file.set pos v = body.set pos v ++ (tableFooter blockSize bitsPerKey es).bytes := by
    rw [show file = _ from hbytes, hsplit, List.set_append_left _ _ hin]
  rw [hset]
  refine (open_changed hfit (oneByteChanged_set hin hv) path fileNumber).imp_right ?_
  intro ⟨r', hopen, hd⟩
  refine ⟨r', hopen, fun on k => ?_, fun it hit => ?_⟩
  · -- `Get` on the changed file
    obtain ⟨out', hget', hout'⟩ := get_damaged hserves hint hd on k
    rw [flatten_blocksOf] at hout'
    refine ⟨_, out', get_tableReader hs hfit fileNumber on k, hget', hout'.imp_right ?_⟩
    rintro rfl
    exact ⟨rfl, by simp⟩
  · -- the iterator on the changed file
    obtain ⟨it', hseek, l, hy, hpre, hall⟩ := (hserves.damaged hd).seekToFirst_reads hit
    rw [flatten_blocksOf] at hpre hall
    exact ⟨it', l, _, hseek, hy, hpre, fun hok => (hall hok).1⟩

/-- The type byte of the first record of a table is changed. -/
theorem changed_byte_caught_first :
    let file := (SSTableWriter.writeTable 1 10 [⟨[1], [2], .value⟩, ⟨[3], [], .tombstone⟩]).2
    file[0]? = some 0 ∧ ∃ r, SSTableReader.open "t" file 7 = some (.ok r) ∧
      ((∃ s, SSTableReader.open "t" (file.set 0 255) 7 = some (.error s) ∧ s.ok = false) ∨
        ∃ r', SSTableReader.open "t" (file.set 0 255) 7 = some (.ok r') ∧
          ∃ it l s, r'.newIterator.seekToFirst = some it ∧ Yields .OK it l s ∧
            l <+: [⟨[1], [2], .value⟩, ⟨[3], [], .tombstone⟩]) := by
  intro file
  refine ⟨by decide +kernel, ?_⟩
  obtain ⟨r, hopen, hout⟩ := changed_byte_caught 1 10 [⟨[1], [2], .value⟩, ⟨[3], [], .tombstone⟩]
    (by decide) (by decide +kernel) (by decide +kernel) (by decide +kernel) "t" 7 0 255
    (by decide +kernel) (by decide +kernel)
  refine ⟨r, hopen, hout.imp_right ?_⟩
  intro ⟨r', hopen', _, hiter⟩
  obtain ⟨it, l, s, hseek, hy, hpre, -⟩ := hiter _ .new
  exact ⟨r', hopen', it, l, s, hseek, hy, hpre⟩

/-! ## The footer -/

/-- A range of the file that is followed by its checksum. -/
def Checksummed (file : Bytes) (offset length : UInt64) : Prop :=
  ∃ pre data post, file = pre ++ (sectionBytes data ++ post) ∧ pre.length = offset.toNat ∧
    data.length = length.toNat

/-- A section that is followed by its checksum is read. -/
private theorem Checksummed.checkedSection_eq {file : Bytes} {offset length : UInt64}
    (h : Checksummed file offset length) (bad : Status) :
    ∃ data, checkedSection file offset.toNat length.toNat bad = some (.ok data) := by
  obtain ⟨pre, data, post, rfl, hpre, hdata⟩ := h
  rw [← hpre, ← hdata]
  exact ⟨data, checkedSection_sectionBytes _ _ _ _⟩

/-- Within the file, the check of a section tells whether it is followed by its checksum. -/
private theorem checkedSection_in_bounds {file : Bytes} {offset length : UInt64}
    (h : offset.toNat + length.toNat + 4 ≤ file.length) (bad : Status) :
    checkedSection file offset.toNat length.toNat bad = some (.error bad) ∨
      Checksummed file offset length := by
  obtain ⟨x, hx⟩ := Option.ne_none_iff_exists'.mp
    ((checkedSection_ne_none_iff file offset.toNat length.toNat bad).mpr h)
  rcases checkedSection_cases hx with rfl | ⟨data, post, rfl, hlen, hdrop⟩
  · exact .inl hx
  · refine .inr ⟨file.take offset.toNat, data, post, ?_, ?_, hlen⟩
    · rw [← hdrop, List.take_append_drop]
    · rw [List.length_take]
      omega

/-- A sum of 64-bit numbers that does not wrap. -/
private theorem toNat_add_add_four {a b : UInt64} (h : a.toNat + b.toNat + 4 < 2 ^ 64) :
    (a + b + 4).toNat = a.toNat + b.toNat + 4 := by
  simp only [UInt64.toNat_add, UInt64.reduceToNat]
  omega

/-- The little-endian value of two parts. -/
private theorem leValue_append (xs ys : Bytes) :
    leValue (xs ++ ys) = leValue xs + 256 ^ xs.length * leValue ys := by
  induction xs with
  | nil => simp [leValue]
  | cons x xs ih =>
    rw [List.cons_append, leValue, ih, leValue, List.length_cons]
    ring

/-- A changed byte adds at most 255 in the top place. -/
private theorem leValue_changed {xs ys : Bytes} (h : OneByteChanged xs ys) (hlen : xs.length ≤ 8) :
    leValue ys ≤ leValue xs + 255 * 2 ^ 56 := by
  obtain ⟨pre, a, b, post, -, rfl, rfl⟩ := h
  have hpow : 256 ^ pre.length ≤ 256 ^ 7 := by
    rw [List.length_append, List.length_cons] at hlen
    exact Nat.pow_le_pow_right (by decide) (by omega)
  have hb : b.toNat ≤ 255 := Nat.le_of_lt_succ b.toNat_lt
  simp only [leValue_append, leValue, Nat.mul_add]
  have hmul : 256 ^ pre.length * b.toNat ≤ 256 ^ 7 * 255 := Nat.mul_le_mul hpow hb
  omega

/-- A change of one byte in an offset and a length moves the end of the range by less than
    `2 ^ 64`. -/
private theorem sum_changed {a b a' b' : UInt64}
    (h : OneByteChanged (putFixed64 a ++ putFixed64 b) (putFixed64 a' ++ putFixed64 b')) :
    a'.toNat + b'.toNat ≤ a.toNat + b.toNat + 255 * 2 ^ 56 := by
  have hinj : ∀ {x y : UInt64}, putFixed64 x = putFixed64 y → x.toNat = y.toNat := by
    intro x y hxy
    rw [← leValue_putFixed64, hxy, leValue_putFixed64]
  -- one byte changes a field by at most `255 * 2 ^ 56`
  have hle : ∀ {x y : UInt64}, OneByteChanged (putFixed64 x) (putFixed64 y) →
      y.toNat ≤ x.toNat + 255 * 2 ^ 56 := by
    intro x y hxy
    simpa only [leValue_putFixed64] using leValue_changed hxy (by simp)
  rcases h.append_cases (by simp) with ⟨ha, hb⟩ | ⟨ha, hb⟩
  · have := hle ha
    have := hinj hb
    omega
  · have := hle hb
    have := hinj ha
    omega

/-- With one byte changed, the ranges that a footer names end below `2 ^ 64` if they ended below
    `2 ^ 56`. -/
private theorem Footer.sums_changed {ft ft' : Footer} (h : OneByteChanged ft.bytes ft'.bytes)
    (hindex : ft.indexOffset.toNat + ft.indexLength.toNat + 4 < 2 ^ 56)
    (hfilter : ft.filterOffset.toNat + ft.filterLength.toNat + 4 < 2 ^ 56) :
    ft'.indexOffset.toNat + ft'.indexLength.toNat + 4 < 2 ^ 64 ∧
      ft'.filterOffset.toNat + ft'.filterLength.toNat + 4 < 2 ^ 64 := by
  -- the footer in pairs of an offset and a length
  have hbytes : ∀ ft : Footer, ft.bytes = (putFixed64 ft.filterOffset ++ putFixed64 ft.filterLength) ++
      ((putFixed64 ft.indexOffset ++ putFixed64 ft.indexLength) ++
        (putFixed64 ft.numEntries ++ putFixed32 ft.magic)) := by
    intro ft
    simp only [Footer.bytes, List.append_assoc]
  rw [hbytes, hbytes] at h
  have hsame : ∀ {a b a' b' : UInt64}, putFixed64 a' ++ putFixed64 b' = putFixed64 a ++ putFixed64 b →
      a'.toNat + b'.toNat = a.toNat + b.toNat := by
    intro a b a' b' heq
    obtain ⟨ha, hb⟩ := List.append_inj heq (by simp)
    rw [← leValue_putFixed64 a', ha, ← leValue_putFixed64 b', hb, leValue_putFixed64,
      leValue_putFixed64]
  rcases h.append_cases (by simp) with ⟨hf, hrest⟩ | ⟨hf, hrest⟩
  · -- the range of the filter has changed
    have := sum_changed hf
    have := hsame (List.append_inj_left hrest (by simp))
    omega
  · have := hsame hf
    -- the range of the index has changed, or neither
    rcases hrest.append_cases (by simp) with ⟨hi, -⟩ | ⟨hi, -⟩
    · have := sum_changed hi
      omega
    · have := hsame hi
      omega

section

variable (hlen : (tableBody blockSize bitsPerKey es).length < 2 ^ 64) (post : Bytes) (bad : Status)
include hlen

/-- The footer of the table names its index. -/
private theorem checkedSection_index :
    checkedSection (tableBody blockSize bitsPerKey es ++ post)
      (tableFooter blockSize bitsPerKey es).indexOffset.toNat
      (tableFooter blockSize bitsPerKey es).indexLength.toNat bad =
        some (.ok (indexBuf (blocksOf blockSize es))) := by
  rw [length_tableBody] at hlen
  have hsec := checkedSection_sectionBytes (dataBytes (blocksOf blockSize es) ++
    sectionBytes (filterBytes bitsPerKey es)) (indexBuf (blocksOf blockSize es)) post bad
  rw [List.length_append, length_sectionBytes, ← Nat.add_assoc] at hsec
  simp only [tableFooter, footerOf]
  rw [toNat_toUInt64_of_lt (by omega), toNat_toUInt64_of_lt (by omega)]
  simpa only [tableBody, List.append_assoc] using hsec

/-- The footer of the table names its filter. -/
private theorem checkedSection_filter :
    checkedSection (tableBody blockSize bitsPerKey es ++ post)
      (tableFooter blockSize bitsPerKey es).filterOffset.toNat
      (tableFooter blockSize bitsPerKey es).filterLength.toNat bad =
        some (.ok (filterBytes bitsPerKey es)) := by
  rw [length_tableBody] at hlen
  have hsec := checkedSection_sectionBytes (dataBytes (blocksOf blockSize es))
    (filterBytes bitsPerKey es) (sectionBytes (indexBuf (blocksOf blockSize es)) ++ post) bad
  simp only [tableFooter, footerOf]
  rw [toNat_toUInt64_of_lt (by omega), toNat_toUInt64_of_lt (by omega)]
  simpa only [tableBody, List.append_assoc] using hsec

end

/-- The blocks of a table read back, whatever stands behind its sections. -/
private theorem intact_of_body {r : SSTableReader} {post : Bytes}
    (hblocks : BlocksFit (blocksOf blockSize es))
    (hbase : r.base = tableBody blockSize bitsPerKey es ++ post)
    (hindex : r.index = indexFrom 0 (blocksOf blockSize es)) (hlen : r.base.length < 2 ^ 64) :
    Intact r (blocksOf blockSize es) := by
  rw [tableBody, List.append_assoc] at hbase
  exact fun i b hb => readBlock_eq hindex hbase hblocks hlen hb

section

variable {ft : Footer} (hfit : TableFits blockSize bitsPerKey es)
  (hfile : file = tableBody blockSize bitsPerKey es ++ ft.bytes) (hlen : file.length < 2 ^ 64)
include hfit hfile hlen

/-- The index that `Open` reads through a changed footer, if it reads one. -/
private theorem openIndex_changed_footer
    (hindexSum : ft.indexOffset.toNat + ft.indexLength.toNat + 4 < 2 ^ 64)
    (hfilterSum : ft.filterOffset.toNat + ft.filterLength.toNat + 4 < 2 ^ 64)
    (hindex : Checksummed file ft.indexOffset ft.indexLength →
      ft.indexOffset = (tableFooter blockSize bitsPerKey es).indexOffset ∧
        ft.indexLength = (tableFooter blockSize bitsPerKey es).indexLength) (path : String) :
    (∃ s, openIndex path file ft = some (.error s) ∧ s.ok = false) ∨
      openIndex path file ft = some (.ok (indexFrom 0 (blocksOf blockSize es))) ∧
        ft.filterOffset.toNat + ft.filterLength.toNat + 4 ≤ file.length := by
  unfold openIndex
  split
  · exact .inl ⟨_, rfl, rfl⟩
  rename_i hbounds
  simp only [gt_iff_lt, UInt64.lt_iff_toNat_lt, toNat_add_add_four hindexSum,
    toNat_add_add_four hfilterSum, toNat_toUInt64_of_lt hlen, not_or, not_lt] at hbounds
  obtain ⟨hin, hfilterIn⟩ := hbounds
  rcases checkedSection_in_bounds hin (.corruption ("index CRC mismatch in " ++ path))
    with hbad | hsec
  · exact .inl ⟨_, by rw [hbad, onOk_error], rfl⟩
  -- the range is that of the index
  obtain ⟨hoffset, hlength⟩ := hindex hsec
  have hbody : (tableBody blockSize bitsPerKey es).length < 2 ^ 64 := by
    rw [hfile, List.length_append] at hlen
    omega
  rw [hoffset, hlength, hfile, checkedSection_index hbody, onOk_ok]
  exact .inr ⟨parseIndex_flatMap fun e he => firstKey_length_lt hfit.blocks he, by
    rwa [← hfile]⟩

/-- The filter that `Open` loads through a changed footer, if it loads one. -/
private theorem loadFilter_changed_footer {r : SSTableReader} (hr : r.base = file)
    (hin : ft.filterOffset.toNat + ft.filterLength.toNat + 4 ≤ file.length)
    (hfilter : 0 < ft.filterLength → Checksummed file ft.filterOffset ft.filterLength →
      ft.filterOffset = (tableFooter blockSize bitsPerKey es).filterOffset ∧
        ft.filterLength = (tableFooter blockSize bitsPerKey es).filterLength) (path : String) :
    let loaded := SSTableReader.open.loadFilter path r ft.filterOffset ft.filterLength
    (∃ s, loaded = some (.error s) ∧ s.ok = false) ∨ loaded = some (.ok r) ∨
      loaded = some (.ok { r with filter := tableFilter bitsPerKey es }) := by
  intro loaded
  have hloaded : loaded = _ := Lsmdb.loadFilter_eq path r ft.filterOffset ft.filterLength
  split at hloaded
  · rename_i hpos
    -- the section at the new range is rejected, or it is the old one
    rcases checkedSection_in_bounds hin (.corruption ("filter CRC mismatch in " ++ path))
      with hbad | hsec
    · exact .inl ⟨_, by rw [hloaded, hr, hbad, onOk_error], rfl⟩
    obtain ⟨hoffset, hlength⟩ := hfilter hpos hsec
    have hbody : (tableBody blockSize bitsPerKey es).length < 2 ^ 64 := by
      rw [hfile, List.length_append] at hlen
      omega
    rw [hr.trans hfile, hoffset, hlength, checkedSection_filter hbody, onOk_ok,
      reset_filterBytes hfit.filter] at hloaded
    rw [hloaded, ← hfile, ← hr]
    exact .inr (.inr rfl)
  · -- a length of zero means no filter
    exact .inr (.inl hloaded)

/-- A file with a changed footer that names no other checksummed range: `Open` fails, or its reader
    has the index of the table, and its filter or none. -/
private theorem open_changed_footer
    (hindexSum : ft.indexOffset.toNat + ft.indexLength.toNat + 4 < 2 ^ 64)
    (hfilterSum : ft.filterOffset.toNat + ft.filterLength.toNat + 4 < 2 ^ 64)
    (hindex : Checksummed file ft.indexOffset ft.indexLength →
      ft.indexOffset = (tableFooter blockSize bitsPerKey es).indexOffset ∧
        ft.indexLength = (tableFooter blockSize bitsPerKey es).indexLength)
    (hfilter : 0 < ft.filterLength → Checksummed file ft.filterOffset ft.filterLength →
      ft.filterOffset = (tableFooter blockSize bitsPerKey es).filterOffset ∧
        ft.filterLength = (tableFooter blockSize bitsPerKey es).filterLength)
    (path : String) (fileNumber : Nat) :
    (∃ s, SSTableReader.open path file fileNumber = some (.error s) ∧ s.ok = false) ∨
      ∃ r, SSTableReader.open path file fileNumber = some (.ok r) ∧ r.base = file ∧
        r.index = indexFrom 0 (blocksOf blockSize es) ∧
        (r.filter = {} ∨ r.filter = tableFilter bitsPerKey es) := by
  have hopen := open_append_bytes path (tableBody blockSize bitsPerKey es) ft fileNumber
  rw [← hfile] at hopen
  split at hopen
  -- the magic number has changed
  · exact .inl ⟨_, hopen, rfl⟩
  rcases openIndex_changed_footer hfit hfile hlen hindexSum hfilterSum hindex path
    with ⟨s, hs, hbad⟩ | ⟨hok, hin⟩
  · exact .inl ⟨s, by rw [hopen, hs, onOk_error], hbad⟩
  rw [hok, onOk_ok] at hopen
  -- the key range is derived from the last block, which is where it was
  have hrange : ∀ r : SSTableReader, r.base = file →
      r.index = indexFrom 0 (blocksOf blockSize es) → r.smallestKey = [] → r.largestKey = [] →
      SSTableReader.open.deriveRange r = some (.ok { r with
        smallestKey := (es.head?.map (·.key)).getD []
        largestKey := (es.getLast?.map (·.key)).getD [] }) := by
    intro r hbase hidx hsmallest hlargest
    refine deriveRange_of_ok hfit.blocks hidx hsmallest hlargest fun b hb => ?_
    rw [Option.mem_def, List.getLast?_eq_getElem?] at hb
    exact intact_of_body hfit.blocks (hbase.trans hfile) hidx (hbase ▸ hlen) _ b hb
  rcases loadFilter_changed_footer hfit hfile hlen
      (r := { base := file, fileNumber := fileNumber, index := indexFrom 0 (blocksOf blockSize es)
              numEntries := ft.numEntries }) rfl hin hfilter path
    with ⟨s, hs, hbad⟩ | hnone | hsome
  · exact .inl ⟨s, by rw [hopen, hs, onOk_error], hbad⟩
  · rw [hnone, onOk_ok, hrange _ rfl rfl rfl rfl] at hopen
    exact .inr ⟨_, hopen, rfl, rfl, .inl rfl⟩
  · rw [hsome, onOk_ok, hrange _ rfl rfl rfl rfl] at hopen
    exact .inr ⟨_, hopen, rfl, rfl, .inr rfl⟩

end

/-- The reader of `open_changed_footer` serves the table. -/
private theorem serves_changed_footer {r : SSTableReader} (hs : SortedMap.Sorted Entry.key es)
    (hfit : TableFits blockSize bitsPerKey es)
    (hindex : r.index = indexFrom 0 (blocksOf blockSize es))
    (hfilter : r.filter = {} ∨ r.filter = tableFilter bitsPerKey es)
    (hint : Intact r (blocksOf blockSize es)) : Serves r (blocksOf blockSize es) := by
  have h := serves_tableReader hs hfit 0
  refine ⟨hindex, h.sorted, h.ne_nil, h.fits, h.length_lt, ?_, ?_, fun i b hb => .inl (hint i b hb)⟩
  · rcases hfilter with hnone | hsome
    · exact fun k => ⟨true, by rw [hnone]; rfl⟩
    · rw [hsome]
      exact h.filter_total
  · rcases hfilter with hnone | hsome
    · exact fun e _ => by rw [hnone]; rfl
    · rw [hsome]
      exact h.filter_mem

/-- The changed footer `ft'` names no range of the file that passes for an index or a filter, but for
    those of the footer `ft`. A filter of length 0 is none. -/
structure NotRedirected (file : Bytes) (ft ft' : Footer) : Prop where
  index : Checksummed file ft'.indexOffset ft'.indexLength →
    ft'.indexOffset = ft.indexOffset ∧ ft'.indexLength = ft.indexLength
  filter : 0 < ft'.filterLength → Checksummed file ft'.filterOffset ft'.filterLength →
    ft'.filterOffset = ft.filterOffset ∧ ft'.filterLength = ft.filterLength

/-- One byte of the footer of a written table is changed, such that the footer names no other
    checksummed range: `Open` fails, or every lookup answers as in the original file. -/
theorem changed_footer_caught (blockSize : Nat) (bitsPerKey : Int) (es : List Entry)
    (hs : SortedMap.Sorted Entry.key es) (hblocks : BlocksFit (blocksOf blockSize es))
    (hfilter : FilterFits es.length bitsPerKey)
    (hfile : (SSTableWriter.writeTable blockSize bitsPerKey es).2.length < 2 ^ 56)
    (path : String) (fileNumber pos : Nat) (v : UInt8) (ft ft' : Footer)
    (hpos : pos < (SSTableWriter.writeTable blockSize bitsPerKey es).2.length)
    (hfooter : (SSTableWriter.writeTable blockSize bitsPerKey es).2.length ≤ pos + kFooterSize)
    (hv : (SSTableWriter.writeTable blockSize bitsPerKey es).2[pos]? ≠ some v)
    (hft : (SSTableWriter.writeTable blockSize bitsPerKey es).2.drop
      ((SSTableWriter.writeTable blockSize bitsPerKey es).2.length - kFooterSize) = ft.bytes)
    (hft' : ((SSTableWriter.writeTable blockSize bitsPerKey es).2.set pos v).drop
      ((SSTableWriter.writeTable blockSize bitsPerKey es).2.length - kFooterSize) = ft'.bytes)
    (hrange : NotRedirected ((SSTableWriter.writeTable blockSize bitsPerKey es).2.set pos v) ft ft') :
    let file := (SSTableWriter.writeTable blockSize bitsPerKey es).2
    ∃ r, SSTableReader.open path file fileNumber = some (.ok r) ∧
      ((∃ s, SSTableReader.open path (file.set pos v) fileNumber = some (.error s) ∧
          s.ok = false) ∨
        ∃ r', SSTableReader.open path (file.set pos v) fileNumber = some (.ok r') ∧
          ∀ on k, ∃ out,
            SSTableReader.get { r with filterEnabled := on } none k = some (out, none) ∧
            SSTableReader.get { r' with filterEnabled := on } none k = some (out, none)) := by
  intro file
  obtain ⟨hbytes, hfit, hopened⟩ :=
    open_writeTable hblocks hfilter (hfile.trans (by decide)) path fileNumber
  refine ⟨tableReader blockSize bitsPerKey es fileNumber, hopened, ?_⟩
  rw [hbytes] at hfile hpos hfooter hv hft hft' hrange
  rw [show file = _ from hbytes]
  -- the changed byte lies in the footer
  set body := tableBody blockSize bitsPerKey es with hbody
  have hsplit : tableBytes blockSize bitsPerKey es =
      body ++ (tableFooter blockSize bitsPerKey es).bytes := tableBytes_eq _ _ _
  have hsize : (tableBytes blockSize bitsPerKey es).length = body.length + kFooterSize := by
    rw [hsplit, List.length_append, Footer.length_bytes]
  have hge : body.length ≤ pos := by omega
  rw [hsize, Nat.add_sub_cancel, hsplit] at hft hft'
  rw [List.drop_left' rfl] at hft
  obtain rfl := Footer.bytes_inj hft
  rw [List.set_append_right _ _ hge, List.drop_left' rfl] at hft'
  have hset : (tableBytes blockSize bitsPerKey es).set pos v = body ++ ft'.bytes := by
    rw [hsplit, List.set_append_right _ _ hge, hft']
  have hchanged : OneByteChanged (tableFooter blockSize bitsPerKey es).bytes ft'.bytes := by
    rw [hsplit, List.getElem?_append_right hge] at hv
    rw [← hft']
    refine oneByteChanged_set ?_ hv
    rw [Footer.length_bytes]
    omega
  -- the sums of its fields do not wrap
  have htotal := length_tableBody blockSize bitsPerKey es
  rw [← hbody] at htotal
  have hsums := Footer.sums_changed hchanged (by
    simp only [tableFooter, footerOf]
    rw [toNat_toUInt64_of_lt (by omega), toNat_toUInt64_of_lt (by omega)]
    omega) (by
    simp only [tableFooter, footerOf]
    rw [toNat_toUInt64_of_lt (by omega), toNat_toUInt64_of_lt (by omega)]
    omega)
  have hlen : (body ++ ft'.bytes).length < 2 ^ 64 := by
    rw [List.length_append, Footer.length_bytes]
    omega
  rw [hset] at hrange ⊢
  refine (open_changed_footer hfit rfl hlen hsums.1 hsums.2 hrange.index hrange.filter path
    fileNumber).imp_right ?_
  intro hopened'
  obtain ⟨r', hopen, hbase, hindex, hfilter'⟩ := hopened'
  have hint := intact_of_body hblocks hbase hindex (hbase ▸ hlen)
  have hserves := serves_changed_footer hs hfit hindex hfilter' hint
  refine ⟨r', hopen, fun on k => ⟨_, get_tableReader hs hfit fileNumber on k, ?_⟩⟩
  rw [get_uncached (hserves.setFilterEnabled on) hint, flatten_blocksOf]

/-- A table of two blocks. -/
def twoBlocks : Bytes := (SSTableWriter.writeTable 1 10 [⟨[1], [2], .value⟩, ⟨[3], [], .tombstone⟩]).2

/-- With another offset of the index, the table is not opened. With a filter length of zero it has
    no filter, and lookups answer as before. -/
theorem changed_footer_caught_ranges :
    (∃ s, SSTableReader.open "t" (twoBlocks.set (twoBlocks.length - 28) 0) 7 = some (.error s) ∧
        s.ok = false) ∧
      ∃ r r', SSTableReader.open "t" twoBlocks 7 = some (.ok r) ∧
        SSTableReader.open "t" (twoBlocks.set (twoBlocks.length - 36) 0) 7 = some (.ok r') ∧
        ∀ on k, ∃ out,
          SSTableReader.get { r with filterEnabled := on } none k = some (out, none) ∧
          SSTableReader.get { r' with filterEnabled := on } none k = some (out, none) := by
  set ft := tableFooter 1 10 [⟨[1], [2], .value⟩, ⟨[3], [], .tombstone⟩]
  constructor
  · have hrange : NotRedirected (twoBlocks.set (twoBlocks.length - 28) 0) ft
        { ft with indexOffset := 0 } := by
      refine ⟨fun hsec => ?_, fun _ _ => ⟨rfl, rfl⟩⟩
      -- the first 34 bytes are not followed by their checksum
      obtain ⟨data, hok⟩ := hsec.checkedSection_eq .OK
      have hbad : (checkedSection (twoBlocks.set (twoBlocks.length - 28) 0) 0 34 .OK).all
          (fun x => !x.isOk) = true := by decide +kernel
      rw [show checkedSection _ 0 34 .OK = _ from hok] at hbad
      cases hbad
    obtain ⟨r, -, herror | ⟨r', hopen', -⟩⟩ := changed_footer_caught 1 10
      [⟨[1], [2], .value⟩, ⟨[3], [], .tombstone⟩] (by decide) (by decide +kernel) (by decide +kernel)
      (by decide +kernel) "t" 7 (twoBlocks.length - 28) 0 ft { ft with indexOffset := 0 }
      (by decide +kernel) (by decide +kernel) (by decide +kernel) (by decide +kernel)
      (by decide +kernel) hrange
    · exact herror
    · have hbad : (SSTableReader.open "t" (twoBlocks.set (twoBlocks.length - 28) 0) 7).all
          (fun x => !x.isOk) = true := by decide +kernel
      rw [show SSTableReader.open "t" (twoBlocks.set _ 0) 7 = _ from hopen'] at hbad
      cases hbad
  · obtain ⟨r, hopen, ⟨s, herror, -⟩ | ⟨r', hopen', hget⟩⟩ := changed_footer_caught 1 10
      [⟨[1], [2], .value⟩, ⟨[3], [], .tombstone⟩] (by decide) (by decide +kernel) (by decide +kernel)
      (by decide +kernel) "t" 7 (twoBlocks.length - 36) 0 ft { ft with filterLength := 0 }
      (by decide +kernel) (by decide +kernel) (by decide +kernel) (by decide +kernel)
      (by decide +kernel) ⟨fun _ => ⟨rfl, rfl⟩, fun hpos => absurd hpos (by decide)⟩
    · -- the footer is accepted, since a table may have no filter
      have hgood : (SSTableReader.open "t" (twoBlocks.set (twoBlocks.length - 36) 0) 7).any
          (fun x => x.isOk) = true := by decide +kernel
      rw [show SSTableReader.open "t" (twoBlocks.set _ 0) 7 = _ from herror] at hgood
      cases hgood
    · exact ⟨r, r', hopen, hopen', hget⟩

/-- The length of an index is changed to 0 where the index starts with an empty key: its length
    field passes for the checksum of nothing, and the table opens without blocks. -/
theorem changed_footer_loses_key :
    let file := (SSTableWriter.writeTable 1 10 [⟨[], [7], .value⟩]).2
    ∃ r r', SSTableReader.open "t" file 7 = some (.ok r) ∧
      file[file.length - 20]? = some 16 ∧
      SSTableReader.open "t" (file.set (file.length - 20) 0) 7 = some (.ok r') ∧
      r.get none [] = some ((.found [7], .OK), none) ∧
      r'.get none [] = some ((.notFound, .OK), none) := by
  intro file
  set es : List Entry := [⟨[], [7], .value⟩] with hes
  have hfit : TableFits 1 10 es := by decide +kernel
  set ft : Footer := { tableFooter 1 10 es with indexLength := 0 } with hft
  have hfile : file = tableBytes 1 10 es := (writeTable_eq 1 10 es hfit.blocks).1
  have hset : file.set (file.length - 20) 0 = tableBody 1 10 es ++ ft.bytes := by decide +kernel
  have hlen : (tableBody 1 10 es).length < 2 ^ 64 := by decide +kernel
  -- the first four bytes of the index are zero, as is the checksum of the empty string
  have hindex : openIndex "t" (tableBody 1 10 es ++ ft.bytes) ft = some (.ok []) := by
    have hsec : checkedSection (tableBody 1 10 es ++ ft.bytes) ft.indexOffset.toNat 0
        (.corruption ("index CRC mismatch in " ++ "t")) = some (.ok []) := by decide +kernel
    unfold openIndex
    rw [if_neg (by decide +kernel), show ft.indexLength.toNat = 0 from rfl, hsec, onOk_ok, parseIndex,
      if_pos rfl]
  have hopen := open_append_bytes "t" (tableBody 1 10 es) ft 7
  rw [if_neg (by decide), hindex, onOk_ok, Lsmdb.loadFilter_eq, if_pos (by decide +kernel),
    checkedSection_filter hlen, onOk_ok, reset_filterBytes hfit.filter, Option.map_some, onOk_ok,
    deriveRange_nil rfl, ← hset] at hopen
  refine ⟨tableReader 1 10 es 7, _, ?_, by decide +kernel, hopen, ?_, rfl⟩
  · rw [hfile, open_tableBytes hfit]
  · exact get_tableReader (by decide) hfit 7 true []

end Lsmdb
