import Lsmdb.Spec.SSTableLayout

/-!
# Opening a written SSTable

`Open` accepts every file that `SSTableWriter` produced within the limits of the
format (`TableFits`), and the reader it returns is known completely (`tableReader`):
its index is the writer's, its filter holds every key, and each of its blocks reads
back.
-/

namespace Lsmdb

open SSTableWriter SSTableReader

/-! ## Checksummed sections -/

/-- A section whose checksum was written behind it reads back. -/
theorem checkedSection_sectionBytes (pre data post : Bytes) (bad : Status) :
    checkedSection (pre ++ (sectionBytes data ++ post)) pre.length data.length bad =
      some (.ok data) := by
  have hdrop : (pre ++ (sectionBytes data ++ post)).drop pre.length = sectionBytes data ++ post :=
    List.drop_left' rfl
  have hcrc : decodeFixed32 ((sectionBytes data ++ post).drop data.length) =
      some (crc32 data) := by
    rw [sectionBytes, List.append_assoc, List.drop_left' rfl, decodeFixed32_putFixed32]
  have hload : loadBytes (sectionBytes data ++ post) data.length = some data := by
    rw [sectionBytes, List.append_assoc, loadBytes_append rfl]
  simp only [checkedSection, hdrop, hcrc, hload, bind, Option.bind]
  simp

/-- The check of a section is defined if the section and its checksum lie in the file. -/
theorem checkedSection_ne_none_iff (file : Bytes) (offset length : Nat) (bad : Status) :
    checkedSection file offset length bad ≠ none ↔ offset + length + 4 ≤ file.length := by
  have hlen : ((file.drop offset).drop length).length = file.length - offset - length := by
    rw [List.length_drop, List.length_drop]
  -- the file ends behind the checksum or before it
  by_cases hin : offset + length + 4 ≤ file.length
  · obtain ⟨crc, hcrc⟩ := decodeFixed32_isSome (p := (file.drop offset).drop length) (by omega)
    have hload : loadBytes (file.drop offset) length = some ((file.drop offset).take length) :=
      if_pos (by rw [List.length_drop]; omega)
    simp only [checkedSection, hcrc, hload, bind, Option.bind, pure]
    simp [hin]
  · have hnone : decodeFixed32 ((file.drop offset).drop length) = none := if_neg (by omega)
    simp only [checkedSection, hnone, bind, Option.bind]
    simp [hin]

/-- A section passes its check if it is followed by its checksum. -/
theorem checkedSection_cases {file : Bytes} {offset length : Nat} {bad : Status}
    {x : Except Status Bytes} (h : checkedSection file offset length bad = some x) :
    x = .error bad ∨ ∃ data post, x = .ok data ∧ data.length = length ∧
      file.drop offset = sectionBytes data ++ post := by
  simp only [checkedSection, bind, Option.bind_eq_some_iff, pure, Option.some.injEq] at h
  obtain ⟨crc, hcrc, data, hload, rfl⟩ := h
  obtain ⟨hdrop, hlen⟩ := eq_append_of_loadBytes hload
  split
  · exact .inl rfl
  · rename_i hne
    refine .inr ⟨data, ((file.drop offset).drop length).drop 4, rfl, hlen, ?_⟩
    rw [sectionBytes, not_ne_iff.mp hne, List.append_assoc, ← eq_putFixed32_of_decodeFixed32 hcrc]
    exact hdrop

/-! ## The index -/

/-- An entry of the index is read back. -/
private theorem indexStep_indexBytes {e : IndexEntry} (h : e.firstKey.length < 2 ^ 32) (rest : Bytes) :
    indexStep (indexBytes e ++ rest) = some (.ok (e, rest)) := by
  have hklen : e.firstKey.length.toUInt32.toNat = e.firstKey.length := toNat_toUInt32_of_lt h
  have hbytes : indexBytes e ++ rest = putFixed32 e.firstKey.length.toUInt32 ++
      (e.firstKey ++ (putFixed64 e.offset ++ (putFixed32 e.length ++ rest))) := by
    simp [indexBytes, putLengthPrefixed]
  -- both bounds checks pass
  have hlen : ¬ (putFixed32 e.firstKey.length.toUInt32 ++
      (e.firstKey ++ (putFixed64 e.offset ++ (putFixed32 e.length ++ rest)))).length < 4 := by
    simp
  have hlen' : ¬ (e.firstKey ++ (putFixed64 e.offset ++ (putFixed32 e.length ++ rest))).length <
      e.firstKey.length + 12 := by
    simp
    omega
  simp only [indexStep, hbytes, if_neg hlen, bind, Option.bind, pure, decodeFixed32_putFixed32,
    List.drop_left' (length_putFixed32 _), hklen, if_neg hlen', loadBytes_append,
    List.drop_left, decodeFixed64_putFixed64, List.drop_left' (length_putFixed64 _)]

/-- The index loop undoes the serialization of the index. -/
theorem parseIndex_flatMap {es : List IndexEntry} (h : ∀ e ∈ es, e.firstKey.length < 2 ^ 32) :
    parseIndex (es.flatMap indexBytes) = some (.ok es) := by
  induction es with
  | nil =>
    rw [parseIndex]
    rfl
  | cons e es ih =>
    have hne : (e :: es).flatMap indexBytes ≠ [] := by
      simp [indexBytes, putLengthPrefixed, putFixed32]
    have hstep : indexStep ((e :: es).flatMap indexBytes) =
        some (.ok (e, es.flatMap indexBytes)) :=
      indexStep_indexBytes (h e List.mem_cons_self) _
    rw [parseIndex, if_neg hne]
    -- only the case of a further entry is possible
    split
    · simp_all
    · simp_all
    · rename_i e' rest hstep'
      rw [hstep] at hstep'
      cases hstep'
      rw [ih fun e he => h e (List.mem_cons_of_mem _ he)]
      rfl

/-- Index entry `i` locates block `i`. -/
theorem getElem?_indexFrom (offset : Nat) (bs : List (List Entry)) (i : Nat) :
    (indexFrom offset bs)[i]? = bs[i]?.map fun b =>
      ⟨firstKey b, (offset + (dataBytes (bs.take i)).length).toUInt64,
        (blockBytes b).length.toUInt32⟩ := by
  induction bs generalizing offset i with
  | nil => simp [indexFrom]
  | cons b bs ih =>
    cases i with
    | zero => simp [indexFrom]
    | succ i =>
      rw [indexFrom, List.getElem?_cons_succ, ih, List.getElem?_cons_succ, List.take_succ_cons,
        dataBytes_cons, List.length_append, length_sectionBytes]
      simp only [Nat.add_assoc]

/-- The index lists the first keys of the blocks. -/
theorem map_firstKey_indexFrom (offset : Nat) (bs : List (List Entry)) :
    (indexFrom offset bs).map (·.firstKey) = bs.map firstKey := by
  induction bs generalizing offset with
  | nil => rfl
  | cons b bs ih => simp [indexFrom, ih]

/-- A key is shorter than its block. -/
theorem firstKey_length_lt {bs : List (List Entry)} (hfit : BlocksFit bs) {e : IndexEntry}
    {offset : Nat} (he : e ∈ indexFrom offset bs) : e.firstKey.length < 2 ^ 32 := by
  have hmem : e.firstKey ∈ bs.map firstKey := by
    rw [← map_firstKey_indexFrom offset]
    exact List.mem_map_of_mem he
  obtain ⟨b, hb, hkey⟩ := List.mem_map.mp hmem
  rw [← hkey]
  -- the first key is part of the first record
  cases b with
  | nil => simp [firstKey]
  | cons x b =>
    have := hfit _ hb
    have := length_record_le_of_mem (List.mem_cons_self (a := x) (l := b))
    rw [firstKey_cons]
    omega

/-! ## Records -/

/-- The fields of the record at the start of a buffer. -/
theorem record_fields {e : Entry} (hfit : 9 + e.key.length + e.value.length < 2 ^ 32)
    (rest : Bytes) :
    ∃ q, appendRecord e ++ rest = e.type.raw :: q ∧
      decodeFixed32 q = some e.key.length.toUInt32 ∧
      decodeFixed32 (q.drop 4) = some e.value.length.toUInt32 ∧
      q.drop 8 = e.key ++ (e.value ++ rest) ∧
      e.key.length.toUInt32.toNat = e.key.length ∧
      e.value.length.toUInt32.toNat = e.value.length := by
  refine ⟨putFixed32 e.key.length.toUInt32 ++ (putFixed32 e.value.length.toUInt32 ++
    (e.key ++ (e.value ++ rest))), by simp [appendRecord], by simp, ?_, ?_,
    toNat_toUInt32_of_lt (by omega), toNat_toUInt32_of_lt (by omega)⟩
  · rw [List.drop_left' (length_putFixed32 _), decodeFixed32_putFixed32]
  · rw [← List.append_assoc, List.drop_left' (by simp)]

/-- The scan of the last block ends with its last key. -/
theorem lastKeyLoop_blockBytes {b : List Entry} (hfit : (blockBytes b).length < 2 ^ 32)
    (largest : Bytes) :
    lastKeyLoop (blockBytes b) largest = some ((b.getLast?.map (·.key)).getD largest) := by
  induction b generalizing largest with
  | nil =>
    rw [blockBytes_nil, lastKeyLoop]
    rfl
  | cons e b ih =>
    rw [blockBytes_cons, List.length_append, length_appendRecord] at hfit
    obtain ⟨q, hq, hklen, hvlen, hdrop, hk, hv⟩ :=
      record_fields (e := e) (by omega) (blockBytes b)
    -- the two lengths are added in 32 bits
    have hsum : (e.key.length.toUInt32 + e.value.length.toUInt32).toNat =
        e.key.length + e.value.length := by
      rw [UInt32.toNat_add, hk, hv, Nat.mod_eq_of_lt (by omega)]
    have hload : loadBytes (e.key ++ (e.value ++ blockBytes b)) e.key.length = some e.key :=
      loadBytes_append rfl
    have hrest : (e.key ++ (e.value ++ blockBytes b)).drop (e.key.length + e.value.length) =
        blockBytes b := by
      rw [← List.append_assoc, List.drop_left' (by simp)]
    rw [blockBytes_cons, hq, lastKeyLoop]
    simp only [hklen, hvlen, hdrop, hk, hload, hsum, hrest]
    rw [ih (by omega)]
    cases b with
    | nil => rfl
    | cons x b => simp [List.getLast?_cons]

/-! ## The reader of a written file -/

/-- The limits of the format: every finished block keeps its length within 32 bits, the filter's
    bit count fits its header, and the file its 64-bit offsets. -/
structure TableFits (blockSize : Nat) (bitsPerKey : Int) (es : List Entry) : Prop where
  blocks : BlocksFit (blocksOf blockSize es)
  filter : FilterFits es.length bitsPerKey
  length : (tableBytes blockSize bitsPerKey es).length < 2 ^ 64

instance (blockSize : Nat) (bitsPerKey : Int) (es : List Entry) :
    Decidable (TableFits blockSize bitsPerKey es) :=
  decidable_of_iff (BlocksFit (blocksOf blockSize es) ∧ FilterFits es.length bitsPerKey ∧
      (tableBytes blockSize bitsPerKey es).length < 2 ^ 64)
    ⟨fun ⟨h₁, h₂, h₃⟩ => ⟨h₁, h₂, h₃⟩, fun ⟨h₁, h₂, h₃⟩ => ⟨h₁, h₂, h₃⟩⟩

/-- The filter that `Open` loads from a written file. -/
def tableFilter (bitsPerKey : Int) (es : List Entry) : BloomFilter where
  data := filterBytes bitsPerKey es
  bits := (filterBytes bitsPerKey es).drop 5
  numBits := (BloomBuilder.arrayBytes es.length bitsPerKey * 8).toUInt32
  numProbes := BloomBuilder.probesForBitsPerKey bitsPerKey

/-- The reader that `Open` returns for a written file. -/
def tableReader (blockSize : Nat) (bitsPerKey : Int) (es : List Entry) (fileNumber : Nat) :
    SSTableReader where
  base := tableBytes blockSize bitsPerKey es
  fileNumber := fileNumber
  index := indexFrom 0 (blocksOf blockSize es)
  filter := tableFilter bitsPerKey es
  numEntries := es.length.toUInt64
  smallestKey := (es.head?.map (·.key)).getD []
  largestKey := (es.getLast?.map (·.key)).getD []

/-- The builder of a table's filter. -/
private def tableBloom (bitsPerKey : Int) (es : List Entry) : BloomBuilder :=
  ⟨bitsPerKey, es.map fun e => murmurHash128 e.key⟩

/-- The filter of a table has one hash per record. -/
private theorem tableBloom_fits {bitsPerKey : Int} {es : List Entry}
    (h : FilterFits es.length bitsPerKey) :
    FilterFits (tableBloom bitsPerKey es).hashes.length (tableBloom bitsPerKey es).bitsPerKey := by
  simpa [tableBloom] using h

/-- The number of probes fits a byte. -/
private theorem probes_lt (bitsPerKey : Int) :
    BloomBuilder.probesForBitsPerKey bitsPerKey < 256 :=
  lt_of_le_of_lt (probesForBitsPerKey_bounds bitsPerKey).2 (by decide)

/-- The filter of a table is read back. -/
theorem reset_filterBytes {bitsPerKey : Int} {es : List Entry}
    (h : FilterFits es.length bitsPerKey) :
    BloomFilter.reset (filterBytes bitsPerKey es) = some (tableFilter bitsPerKey es) := by
  have hreset := reset_finishWith (b := tableBloom bitsPerKey es) (probes_lt bitsPerKey)
    (header_ne_zero (tableBloom_fits h))
  have hlen : (tableBloom bitsPerKey es).hashes.length = es.length := by simp [tableBloom]
  rw [hlen] at hreset
  exact hreset

/-- The filter of a table never rules one of its keys out. -/
theorem mayContain_tableFilter {bitsPerKey : Int} {es : List Entry}
    (h : FilterFits es.length bitsPerKey) {e : Entry} (he : e ∈ es) :
    (tableFilter bitsPerKey es).mayContain e.key = some true :=
  mayContain_of_mem (b := tableBloom bitsPerKey es) (tableBloom_fits h) (probes_lt bitsPerKey)
    (List.mem_map_of_mem he) (reset_filterBytes h)

/-- A probe of it stays within its bits. -/
theorem mayContain_tableFilter_isSome {bitsPerKey : Int} {es : List Entry}
    (h : FilterFits es.length bitsPerKey) (key : Bytes) :
    ∃ r, (tableFilter bitsPerKey es).mayContain key = some r :=
  mayContain_isSome (b := tableBloom bitsPerKey es) (tableBloom_fits h) (probes_lt bitsPerKey)
    (reset_filterBytes h) key

/-- It has at least the byte with the number of probes. -/
private theorem length_filterBytes_pos (bitsPerKey : Int) (es : List Entry) :
    0 < (filterBytes bitsPerKey es).length := by
  rw [filterBytes, BloomBuilder.finish, length_finishWith]
  omega

/-! ## `ReadBlock` -/

/-- The file around a block. -/
theorem dataBytes_split {bs : List (List Entry)} {i : Nat} (hi : i < bs.length) :
    dataBytes bs = dataBytes (bs.take i) ++
      (sectionBytes (blockBytes bs[i]) ++ dataBytes (bs.drop (i + 1))) := by
  have hbs : bs = bs.take i ++ bs[i] :: bs.drop (i + 1) := by
    rw [← List.drop_eq_getElem_cons hi, List.take_append_drop]
  nth_rewrite 1 [hbs]
  rw [dataBytes_append, dataBytes_cons]

/-- A reader whose index is that of the blocks checks a block where its bytes should stand. -/
theorem readBlock_eq_checkedSection {r : SSTableReader} {bs : List (List Entry)}
    (hindex : r.index = indexFrom 0 bs) (hdata : (dataBytes bs).length ≤ r.base.length)
    (hfit : BlocksFit bs) (hlen : r.base.length < 2 ^ 64) {i : Nat} (hi : i < bs.length) :
    r.readBlock i = checkedSection r.base (dataBytes (bs.take i)).length (blockBytes bs[i]).length
      (.corruption "block CRC mismatch") := by
  have hblock := hfit bs[i] (List.getElem_mem hi)
  have htotal := congrArg List.length (dataBytes_split hi)
  simp only [List.length_append, length_sectionBytes] at htotal
  have hoff : (dataBytes (bs.take i)).length.toUInt64.toNat = (dataBytes (bs.take i)).length :=
    toNat_toUInt64_of_lt (by omega)
  have hblk : (blockBytes bs[i]).length.toUInt32.toNat = (blockBytes bs[i]).length :=
    toNat_toUInt32_of_lt (by omega)
  -- the block lies within the file, also in 64-bit arithmetic
  have hbound : ¬ ((dataBytes (bs.take i)).length.toUInt64 +
      (blockBytes bs[i]).length.toUInt32.toUInt64 + 4 > r.base.length.toUInt64) := by
    rw [gt_iff_lt, UInt64.lt_iff_toNat_lt, UInt64.toNat_add, UInt64.toNat_add, hoff,
      UInt32.toNat_toUInt64, hblk, toNat_toUInt64_of_lt hlen]
    simp only [UInt64.reduceToNat]
    omega
  rw [readBlock, hindex, getElem?_indexFrom, List.getElem?_eq_getElem hi, Nat.zero_add]
  simp only [Option.map_some, bind, Option.bind, if_neg hbound]
  rw [hoff, hblk]

/-- A reader whose index is that of the blocks reads a block from where its bytes stand. -/
theorem readBlock_eq {r : SSTableReader} {bs : List (List Entry)} {post : Bytes}
    (hindex : r.index = indexFrom 0 bs) (hbase : r.base = dataBytes bs ++ post)
    (hfit : BlocksFit bs) (hlen : r.base.length < 2 ^ 64) {i : Nat} {b : List Entry}
    (hb : bs[i]? = some b) : r.readBlock i = some (.ok (blockBytes b)) := by
  obtain ⟨hi, rfl⟩ := List.getElem?_eq_some_iff.mp hb
  rw [readBlock_eq_checkedSection hindex (by simp [hbase]) hfit hlen hi, hbase, dataBytes_split hi,
    List.append_assoc, List.append_assoc]
  exact checkedSection_sectionBytes _ _ _ _

/-! ## The stages of `Open` -/

namespace Footer

/-- The fields as `Open` decodes them. -/
private theorem decode_bytes (ft : Footer) :
    decodeFixed64 ft.bytes = some ft.filterOffset ∧
      decodeFixed64 (ft.bytes.drop 8) = some ft.filterLength ∧
      decodeFixed64 (ft.bytes.drop 16) = some ft.indexOffset ∧
      decodeFixed64 (ft.bytes.drop 24) = some ft.indexLength ∧
      decodeFixed64 (ft.bytes.drop 32) = some ft.numEntries ∧
      decodeFixed32 (ft.bytes.drop 40) = some ft.magic := by
  have hlast : decodeFixed32 (putFixed32 ft.magic) = some ft.magic := by
    simpa using decodeFixed32_putFixed32 ft.magic []
  -- each field stands behind those before it
  refine ⟨?_, ?_, ?_, ?_, ?_, ?_⟩ <;> simp only [bytes, List.append_assoc]
  · exact decodeFixed64_putFixed64 _ _
  · rw [List.drop_left' (length_putFixed64 _), decodeFixed64_putFixed64]
  · rw [← List.append_assoc, List.drop_left' (by simp), decodeFixed64_putFixed64]
  · rw [← List.append_assoc, ← List.append_assoc, List.drop_left' (by simp),
      decodeFixed64_putFixed64]
  · rw [← List.append_assoc, ← List.append_assoc, ← List.append_assoc,
      List.drop_left' (by simp), decodeFixed64_putFixed64]
  · rw [← List.append_assoc, ← List.append_assoc, ← List.append_assoc, ← List.append_assoc,
      List.drop_left' (by simp), hlast]

/-- The bytes of a footer determine it. -/
theorem bytes_inj {ft ft' : Footer} (h : ft.bytes = ft'.bytes) : ft = ft' := by
  obtain ⟨h0, h8, h16, h24, h32, h40⟩ := ft.decode_bytes
  obtain ⟨h0', h8', h16', h24', h32', h40'⟩ := ft'.decode_bytes
  rw [h] at h0 h8 h16 h24 h32 h40
  cases ft
  cases ft'
  simp_all

end Footer

/-- Run the next stage unless the one before it failed. -/
def onOk {α β : Type} (x : Option (Except Status α)) (f : α → Option (Except Status β)) :
    Option (Except Status β) :=
  x.bind fun
    | .error s => some (.error s)
    | .ok a => f a

section onOk

variable {α β : Type} {f : α → Option (Except Status β)}

@[simp] theorem onOk_ok (a : α) : onOk (some (.ok a)) f = f a := rfl

@[simp] theorem onOk_error (s : Status) : onOk (some (.error s)) f = some (.error s) := rfl

end onOk

/-- The index of a file, as `Open` reads it once the magic number matches. -/
def openIndex (path : String) (file : Bytes) (ft : Footer) :
    Option (Except Status (List IndexEntry)) :=
  if ft.indexOffset + ft.indexLength + 4 > file.length.toUInt64 ∨
      ft.filterOffset + ft.filterLength + 4 > file.length.toUInt64 then
    some (.error (.corruption ("metadata extends past EOF in " ++ path)))
  else
    onOk (checkedSection file ft.indexOffset.toNat ft.indexLength.toNat
      (.corruption ("index CRC mismatch in " ++ path))) parseIndex

/-- The filter stage of `Open`. -/
theorem loadFilter_eq (path : String) (r : SSTableReader) (offset length : UInt64) :
    SSTableReader.open.loadFilter path r offset length =
      if length > 0 then
        onOk (checkedSection r.base offset.toNat length.toNat
          (.corruption ("filter CRC mismatch in " ++ path))) fun bytes =>
            (BloomFilter.reset bytes).map fun filter => .ok { r with filter := filter }
      else some (.ok r) := by
  unfold SSTableReader.open.loadFilter
  split
  · rcases checkedSection r.base offset.toNat length.toNat
        (.corruption ("filter CRC mismatch in " ++ path)) with _ | _ | bytes
    · rfl
    · rfl
    simp only [onOk_ok, bind, Option.bind, pure]
    cases BloomFilter.reset bytes <;> rfl
  · rfl

/-- The last stage of `Open`, for a table without blocks. -/
theorem deriveRange_nil {r : SSTableReader} (h : r.index = []) :
    SSTableReader.open.deriveRange r = some (.ok r) := by
  unfold SSTableReader.open.deriveRange
  split
  · rfl
  · simp_all

/-- The last stage of `Open`. -/
theorem deriveRange_cons {r : SSTableReader} {first : IndexEntry} {rest : List IndexEntry}
    (h : r.index = first :: rest) :
    SSTableReader.open.deriveRange r = onOk (r.readBlock (r.index.length - 1)) fun lastBlock =>
      (lastKeyLoop lastBlock []).map fun largest =>
        .ok { r with smallestKey := first.firstKey, largestKey := largest } := by
  unfold SSTableReader.open.deriveRange
  split
  · simp_all
  · rename_i hindex
    obtain ⟨rfl, rfl⟩ := List.cons.inj (h.symm.trans hindex)
    rcases r.readBlock (r.index.length - 1) with _ | _ | lastBlock
    · rfl
    · rfl
    simp only [onOk_ok, bind, Option.bind, pure]
    cases lastKeyLoop lastBlock [] <;> rfl

/-- `Open` as a sequence of stages: the footer, the index, the filter, the key range. -/
theorem open_append_bytes (path : String) (pre : Bytes) (ft : Footer) (fileNumber : Nat) :
    SSTableReader.open path (pre ++ ft.bytes) fileNumber =
      if ft.magic ≠ kSSTableMagic then some (.error (.corruption ("bad SSTable magic in " ++ path)))
      else onOk (openIndex path (pre ++ ft.bytes) ft) fun index =>
        onOk (SSTableReader.open.loadFilter path
          { base := pre ++ ft.bytes, fileNumber := fileNumber, index := index
            numEntries := ft.numEntries }
          ft.filterOffset ft.filterLength) SSTableReader.open.deriveRange := by
  have hlen : (pre ++ ft.bytes).length = pre.length + kFooterSize := by simp
  have hsmall : ¬ (pre ++ ft.bytes).length < kFooterSize := by omega
  have hdrop : (pre ++ ft.bytes).drop ((pre ++ ft.bytes).length - kFooterSize) = ft.bytes :=
    List.drop_left' (by omega)
  obtain ⟨h0, h8, h16, h24, h32, h40⟩ := ft.decode_bytes
  rw [SSTableReader.open]
  simp only [if_neg hsmall, hdrop, h0, h8, h16, h24, h32, h40, bind, Option.bind, pure]
  -- the checks of the source in their order; each failing one is the result of both sides
  unfold openIndex
  split
  · rfl
  split
  · rfl
  rcases checkedSection (pre ++ ft.bytes) ft.indexOffset.toNat ft.indexLength.toNat
      (.corruption ("index CRC mismatch in " ++ path)) with _ | _ | data
  · rfl
  · rfl
  simp only [onOk_ok]
  rcases parseIndex data with _ | _ | index
  · rfl
  · rfl
  simp only [onOk_ok]
  rcases SSTableReader.open.loadFilter path _ ft.filterOffset ft.filterLength with _ | _ | r <;> rfl

/-! ## `Open` -/

/-- A file with the footer of a table, and with bytes of the right number in front of it. -/
structure LaidOut (blockSize : Nat) (bitsPerKey : Int) (es : List Entry)
    (data filter index file : Bytes) : Prop where
  eq : file = data ++ (filter ++ (index ++ (tableFooter blockSize bitsPerKey es).bytes))
  data_length : data.length = (dataBytes (blocksOf blockSize es)).length
  filter_length : filter.length = (filterBytes bitsPerKey es).length + 4
  index_length : index.length = (indexBuf (blocksOf blockSize es)).length + 4

/-- What the writer has written is laid out. -/
private theorem laidOut_tableBytes (blockSize : Nat) (bitsPerKey : Int) (es : List Entry) :
    LaidOut blockSize bitsPerKey es (dataBytes (blocksOf blockSize es))
      (sectionBytes (filterBytes bitsPerKey es)) (sectionBytes (indexBuf (blocksOf blockSize es)))
      (tableBytes blockSize bitsPerKey es) :=
  ⟨rfl, rfl, length_sectionBytes _, length_sectionBytes _⟩

namespace LaidOut

variable {blockSize : Nat} {bitsPerKey : Int} {es : List Entry} {data filter index file : Bytes}

/-- The length of such a file. -/
theorem length_eq (h : LaidOut blockSize bitsPerKey es data filter index file) :
    file.length = (dataBytes (blocksOf blockSize es)).length +
      ((filterBytes bitsPerKey es).length + 4) +
      ((indexBuf (blocksOf blockSize es)).length + 4) + kFooterSize := by
  rw [h.eq, List.length_append, List.length_append, List.length_append, Footer.length_bytes,
    h.data_length, h.filter_length, h.index_length]
  omega

/-- Damage does not change it. -/
theorem length_tableBytes (h : LaidOut blockSize bitsPerKey es data filter index file) :
    file.length = (tableBytes blockSize bitsPerKey es).length := by
  rw [h.length_eq, (laidOut_tableBytes blockSize bitsPerKey es).length_eq]

/-- Opening such a file reads the index, the filter and the range. -/
theorem open_eq (h : LaidOut blockSize bitsPerKey es data filter index file) (path : String)
    (fileNumber : Nat) :
    SSTableReader.open path file fileNumber =
      onOk (openIndex path file (tableFooter blockSize bitsPerKey es)) fun entries =>
        onOk (SSTableReader.open.loadFilter path
          { base := file, fileNumber := fileNumber, index := entries
            numEntries := es.length.toUInt64 }
          (tableFooter blockSize bitsPerKey es).filterOffset
          (tableFooter blockSize bitsPerKey es).filterLength) SSTableReader.open.deriveRange := by
  have hopen := open_append_bytes path (data ++ (filter ++ index))
    (tableFooter blockSize bitsPerKey es) fileNumber
  rw [if_neg (by simp [tableFooter, footerOf])] at hopen
  simp only [List.append_assoc, ← h.eq] at hopen
  exact hopen

/-- `Open` checks the index where it should stand. -/
theorem openIndex_eq (h : LaidOut blockSize bitsPerKey es data filter index file)
    (hlen : file.length < 2 ^ 64) (path : String) :
    openIndex path file (tableFooter blockSize bitsPerKey es) =
      onOk (checkedSection file (data ++ filter).length (indexBuf (blocksOf blockSize es)).length
        (.corruption ("index CRC mismatch in " ++ path))) parseIndex := by
  have htotal := h.length_eq
  have hoffset : (data ++ filter).length = (dataBytes (blocksOf blockSize es)).length +
      (filterBytes bitsPerKey es).length + 4 := by
    rw [List.length_append, h.data_length, h.filter_length]
    omega
  -- no offset wraps around
  have nD := toNat_toUInt64_of_lt
    (show (dataBytes (blocksOf blockSize es)).length < 2 ^ 64 by omega)
  have nF := toNat_toUInt64_of_lt (show (filterBytes bitsPerKey es).length < 2 ^ 64 by omega)
  have nI := toNat_toUInt64_of_lt
    (show (indexBuf (blocksOf blockSize es)).length < 2 ^ 64 by omega)
  have nO := toNat_toUInt64_of_lt (show (dataBytes (blocksOf blockSize es)).length +
    (filterBytes bitsPerKey es).length + 4 < 2 ^ 64 by omega)
  unfold openIndex
  rw [if_neg]
  · simp only [tableFooter, footerOf, nO, nI, hoffset]
  · simp only [tableFooter, footerOf, gt_iff_lt, UInt64.lt_iff_toNat_lt, UInt64.toNat_add, nD, nF, nI, nO,
      toNat_toUInt64_of_lt hlen, UInt64.reduceToNat]
    omega

/-- `Open` reads an undamaged index. -/
theorem openIndex_eq_ok (hfit : TableFits blockSize bitsPerKey es)
    (h : LaidOut blockSize bitsPerKey es data filter
      (sectionBytes (indexBuf (blocksOf blockSize es))) file) (path : String) :
    openIndex path file (tableFooter blockSize bitsPerKey es) =
      some (.ok (indexFrom 0 (blocksOf blockSize es))) := by
  rw [h.openIndex_eq (h.length_tableBytes ▸ hfit.length), h.eq, ← List.append_assoc,
    checkedSection_sectionBytes, onOk_ok]
  exact parseIndex_flatMap fun e he => firstKey_length_lt hfit.blocks he

/-- `Open` checks the filter where it should stand. -/
theorem loadFilter_eq (h : LaidOut blockSize bitsPerKey es data filter index file)
    (hlen : file.length < 2 ^ 64) (path : String) {r : SSTableReader} (hr : r.base = file) :
    SSTableReader.open.loadFilter path r (tableFooter blockSize bitsPerKey es).filterOffset
        (tableFooter blockSize bitsPerKey es).filterLength =
      onOk (checkedSection file data.length (filterBytes bitsPerKey es).length
        (.corruption ("filter CRC mismatch in " ++ path))) fun bytes =>
          (BloomFilter.reset bytes).map fun filter => .ok { r with filter := filter } := by
  have htotal := h.length_eq
  have hpos := length_filterBytes_pos bitsPerKey es
  have nD := toNat_toUInt64_of_lt
    (show (dataBytes (blocksOf blockSize es)).length < 2 ^ 64 by omega)
  have nF := toNat_toUInt64_of_lt (show (filterBytes bitsPerKey es).length < 2 ^ 64 by omega)
  have hpos' : (filterBytes bitsPerKey es).length.toUInt64 > 0 := by
    rw [gt_iff_lt, UInt64.lt_iff_toNat_lt, nF]
    exact hpos
  rw [Lsmdb.loadFilter_eq]
  simp only [tableFooter, footerOf, if_pos hpos', nD, nF, hr, h.data_length]

end LaidOut

/-- `Open` derives the key range from the first index entry and the last block. -/
theorem deriveRange_of_ok {blockSize : Nat} {es : List Entry} {r : SSTableReader}
    (hfit : BlocksFit (blocksOf blockSize es)) (hindex : r.index = indexFrom 0 (blocksOf blockSize es))
    (hsmallest : r.smallestKey = []) (hlargest : r.largestKey = [])
    (hread : ∀ b ∈ (blocksOf blockSize es).getLast?,
      r.readBlock ((blocksOf blockSize es).length - 1) = some (.ok (blockBytes b))) :
    SSTableReader.open.deriveRange r = some (.ok { r with
      smallestKey := (es.head?.map (·.key)).getD []
      largestKey := (es.getLast?.map (·.key)).getD [] }) := by
  have hflat := flatten_blocksOf blockSize es
  -- split on the blocks, from the front for the first key and from the back for the last one
  rcases hbs : blocksOf blockSize es with _ | ⟨b, bs⟩
  · have hes : es = [] := blocksOf_eq_nil_iff.mp hbs
    have hnil : r.index = [] := by rw [hindex, hbs]; rfl
    have hr : { r with smallestKey := [], largestKey := [] } = r := by
      cases r
      simp_all
    rw [deriveRange_nil hnil, hes]
    exact congrArg (fun r => some (Except.ok r)) hr.symm
  · have hb : b ≠ [] := ne_nil_of_mem_blocksOf (hbs ▸ List.mem_cons_self)
    obtain ⟨e, b', rfl⟩ := List.exists_cons_of_ne_nil hb
    obtain ⟨init, last, hlast⟩ := List.eq_nil_or_concat' (( e :: b') :: bs) |>.resolve_left (by simp)
    have hlastMem : last ∈ blocksOf blockSize es := by rw [hbs, hlast]; simp
    have hlastFit := hfit last hlastMem
    have hread := hread last (by rw [hbs, hlast]; simp)
    rw [← length_indexFrom 0, ← hindex] at hread
    have hfirst : (es.head?.map (·.key)).getD [] = e.key := by
      rw [← hflat, hbs]
      rfl
    have hlast' : (es.getLast?.map (·.key)).getD [] = (last.getLast?.map (·.key)).getD [] := by
      have hne : last ≠ [] := ne_nil_of_mem_blocksOf hlastMem
      rw [← hflat, hbs, hlast, List.flatten_append, List.flatten_singleton,
        List.getLast?_append_of_ne_nil _ hne]
    have hcons : r.index = ⟨e.key, (0 : Nat).toUInt64, (blockBytes (e :: b')).length.toUInt32⟩ ::
        indexFrom (0 + (blockBytes (e :: b')).length + 4) bs := by
      rw [hindex, hbs]
      rfl
    have hscan := lastKeyLoop_blockBytes (show (blockBytes last).length < 2 ^ 32 by omega) []
    rw [deriveRange_cons hcons, hread, onOk_ok, hscan, Option.map_some, hfirst, hlast']

/-- `Open` fails if it cannot read the last block. -/
private theorem deriveRange_of_error {bs : List (List Entry)} {r : SSTableReader} {s : Status}
    (hindex : r.index = indexFrom 0 bs) (hne : bs ≠ [])
    (hread : r.readBlock (bs.length - 1) = some (.error s)) :
    SSTableReader.open.deriveRange r = some (.error s) := by
  obtain ⟨b, bs', rfl⟩ := List.exists_cons_of_ne_nil hne
  rw [← length_indexFrom 0, ← hindex] at hread
  rw [indexFrom] at hindex
  rw [deriveRange_cons hindex, hread, onOk_error]

/-- `ReadBlock` looks at the bytes and the index of the reader only. -/
theorem readBlock_congr {r r' : SSTableReader} (hbase : r.base = r'.base)
    (hindex : r.index = r'.index) (i : Nat) : r.readBlock i = r'.readBlock i := by
  rw [readBlock, readBlock, hbase, hindex]

section

variable {blockSize : Nat} {bitsPerKey : Int} {es : List Entry} {data file : Bytes}

/-- The reader of a file whose filter and index are those of a table, before its key range is
    known. -/
private def metaReader (blockSize : Nat) (bitsPerKey : Int) (es : List Entry) (file : Bytes)
    (fileNumber : Nat) : SSTableReader where
  base := file
  fileNumber := fileNumber
  index := indexFrom 0 (blocksOf blockSize es)
  filter := tableFilter bitsPerKey es
  numEntries := es.length.toUInt64

/-- `Open` of a file whose filter and index are those of a table. -/
private theorem open_eq_deriveRange (hfit : TableFits blockSize bitsPerKey es)
    (h : LaidOut blockSize bitsPerKey es data (sectionBytes (filterBytes bitsPerKey es))
      (sectionBytes (indexBuf (blocksOf blockSize es))) file) (path : String) (fileNumber : Nat) :
    SSTableReader.open path file fileNumber =
      SSTableReader.open.deriveRange (metaReader blockSize bitsPerKey es file fileNumber) := by
  have hlen : file.length < 2 ^ 64 := h.length_tableBytes ▸ hfit.length
  rw [h.open_eq, h.openIndex_eq_ok hfit, onOk_ok, h.loadFilter_eq hlen path rfl]
  nth_rewrite 1 [h.eq]
  rw [checkedSection_sectionBytes, onOk_ok, reset_filterBytes hfit.filter]
  rfl

/-- `Open` accepts a file whose filter and index are those of a table if it can read the last
    block. -/
theorem open_of_last_ok (hfit : TableFits blockSize bitsPerKey es)
    (h : LaidOut blockSize bitsPerKey es data (sectionBytes (filterBytes bitsPerKey es))
      (sectionBytes (indexBuf (blocksOf blockSize es))) file) (path : String) (fileNumber : Nat)
    (hread : ∀ b ∈ (blocksOf blockSize es).getLast?,
      readBlock { tableReader blockSize bitsPerKey es fileNumber with base := file }
        ((blocksOf blockSize es).length - 1) = some (.ok (blockBytes b))) :
    SSTableReader.open path file fileNumber =
      some (.ok { tableReader blockSize bitsPerKey es fileNumber with base := file }) := by
  rw [open_eq_deriveRange hfit h, deriveRange_of_ok hfit.blocks rfl rfl rfl]
  · rfl
  · intro b hb
    exact (readBlock_congr rfl rfl _).trans (hread b hb)

/-- `Open` rejects a file whose last block it cannot read. -/
theorem open_of_last_error (hfit : TableFits blockSize bitsPerKey es)
    (h : LaidOut blockSize bitsPerKey es data (sectionBytes (filterBytes bitsPerKey es))
      (sectionBytes (indexBuf (blocksOf blockSize es))) file) (path : String) (fileNumber : Nat)
    {s : Status} (hne : blocksOf blockSize es ≠ [])
    (hread : readBlock { tableReader blockSize bitsPerKey es fileNumber with base := file }
        ((blocksOf blockSize es).length - 1) = some (.error s)) :
    SSTableReader.open path file fileNumber = some (.error s) := by
  rw [open_eq_deriveRange hfit h]
  exact deriveRange_of_error rfl hne ((readBlock_congr rfl rfl _).trans hread)

/-- `Open` accepts a written file. -/
theorem open_tableBytes (hfit : TableFits blockSize bitsPerKey es) (path : String)
    (fileNumber : Nat) :
    SSTableReader.open path (tableBytes blockSize bitsPerKey es) fileNumber =
      some (.ok (tableReader blockSize bitsPerKey es fileNumber)) := by
  refine open_of_last_ok hfit (laidOut_tableBytes blockSize bitsPerKey es) path fileNumber
    fun b hb => ?_
  refine readBlock_eq rfl rfl hfit.blocks hfit.length ?_
  rw [← List.getLast?_eq_getElem?]
  exact hb

/-- Writing within the limits of the format, and opening what was written. -/
theorem open_writeTable (hblocks : BlocksFit (blocksOf blockSize es))
    (hfilter : FilterFits es.length bitsPerKey)
    (hfile : (writeTable blockSize bitsPerKey es).2.length < 2 ^ 64) (path : String)
    (fileNumber : Nat) :
    (writeTable blockSize bitsPerKey es).2 = tableBytes blockSize bitsPerKey es ∧
      TableFits blockSize bitsPerKey es ∧
      SSTableReader.open path (writeTable blockSize bitsPerKey es).2 fileNumber =
        some (.ok (tableReader blockSize bitsPerKey es fileNumber)) := by
  obtain ⟨hbytes, -, -⟩ := writeTable_eq blockSize bitsPerKey es hblocks
  rw [hbytes] at hfile ⊢
  have hfit : TableFits blockSize bitsPerKey es := ⟨hblocks, hfilter, hfile⟩
  exact ⟨rfl, hfit, open_tableBytes hfit path fileNumber⟩

end

end Lsmdb
