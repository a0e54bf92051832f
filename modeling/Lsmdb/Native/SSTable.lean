import Lsmdb.ForStd.BinarySearch
import Lsmdb.ForStd.Cursor
import Lsmdb.Native.Bloom
import Lsmdb.Native.Cache

/-!
# SSTables (`sstable.cpp`)

The writer, the reader and the reader's iterator, at the level of bytes.

`SSTableWriter` hands bytes to `WriteRaw`; each of its operations returns the bytes
it writes next to the new state of the writer, and the file-system calls are made by
`Lsmdb.Native.DB`. The reader works on the bytes of the mapped file. Where the code
reads outside of a buffer the model returns `none`; a status is a value inside of it.
-/

namespace Lsmdb

/-- `AppendRecord`: the bytes appended to the block buffer. -/
def appendRecord (e : Entry) : Bytes :=
  [e.type.raw] ++ putFixed32 e.key.length.toUInt32 ++ putFixed32 e.value.length.toUInt32 ++
    e.key ++ e.value

def kSSTableMagic : UInt32 := 0x4C534D42
def kFooterSize : Nat := 8 + 8 + 8 + 8 + 8 + 4

/-- One entry of the sparse index, of the writer and of the reader alike. -/
structure IndexEntry where
  firstKey : Bytes
  offset : UInt64
  length : UInt32
  deriving DecidableEq, Repr

/-! ## Writer -/

structure SSTableWriter where
  blockSize : Nat
  bloom : BloomBuilder
  offset : UInt64 := 0
  numEntries : UInt64 := 0
  blockBuf : Bytes := []
  blockFirstKey : Bytes := []
  index : List IndexEntry := []
  finished : Bool := false

namespace SSTableWriter

/-- The constructor. -/
def new (blockSize : Nat) (bloomBitsPerKey : Int) : SSTableWriter :=
  { blockSize := blockSize, bloom := { bitsPerKey := bloomBitsPerKey } }

/-- `FileSize()`. -/
def fileSize (w : SSTableWriter) : UInt64 := w.offset

/-- `FlushBlock`: write the block and its checksum. The running offset advances by a 32-bit
    sum. -/
def flushBlock (w : SSTableWriter) : SSTableWriter × Bytes :=
  if w.blockBuf = [] then (w, [])
  else
    let blockLen := w.blockBuf.length.toUInt32
    ({ w with
        offset := w.offset + (blockLen + 4).toUInt64
        index := w.index ++ [⟨w.blockFirstKey, w.offset, blockLen⟩]
        blockBuf := [] },
      w.blockBuf ++ putFixed32 (crc32 w.blockBuf))

/-- `Add`. -/
def add (w : SSTableWriter) (e : Entry) : SSTableWriter × Bytes :=
  let w := if w.blockBuf = [] then { w with blockFirstKey := e.key } else w
  let w := { w with
    blockBuf := w.blockBuf ++ appendRecord e
    bloom := w.bloom.add e.key
    numEntries := w.numEntries + 1 }
  if w.blockBuf.length ≥ w.blockSize then w.flushBlock else (w, [])

/-- The bytes of one index entry. -/
def indexBytes (e : IndexEntry) : Bytes :=
  putLengthPrefixed e.firstKey ++ putFixed64 e.offset ++ putFixed32 e.length

/-- `Finish` up to its `fsync`: the tail block, the filter, the index and the footer. -/
def finish (w : SSTableWriter) : SSTableWriter × Bytes :=
  if w.finished then (w, [])
  else
    let (w, tailBlock) := flushBlock { w with finished := true }
    let filterBuf := w.bloom.finish
    let filterOffset := w.offset
    let filterLength := filterBuf.length.toUInt64
    -- the filter, with its checksum
    let w := { w with
      bloom := { w.bloom with hashes := [] }
      offset := w.offset + (filterLength + 4) }
    let indexBuf := w.index.flatMap indexBytes
    let indexOffset := w.offset
    let indexLength := indexBuf.length.toUInt64
    -- the index, with its checksum
    let w := { w with offset := w.offset + (indexLength + 4) }
    let footer := putFixed64 filterOffset ++ putFixed64 filterLength ++ putFixed64 indexOffset ++
      putFixed64 indexLength ++ putFixed64 w.numEntries ++ putFixed32 kSSTableMagic
    let w := { w with offset := w.offset + footer.length.toUInt64 }
    (w, tailBlock ++ (filterBuf ++ putFixed32 (crc32 filterBuf)) ++
      (indexBuf ++ putFixed32 (crc32 indexBuf)) ++ footer)

/-- `Add` for each entry in turn. -/
def addAll (w : SSTableWriter) : List Entry → SSTableWriter × Bytes
  | [] => (w, [])
  | e :: es =>
    let (w, out) := w.add e
    let (w, rest) := w.addAll es
    (w, out ++ rest)

/-- A whole table: `Add` for each entry, then `Finish`. The bytes are those of the file. -/
def writeTable (blockSize : Nat) (bloomBitsPerKey : Int) (es : List Entry) :
    SSTableWriter × Bytes :=
  let (w, out) := (new blockSize bloomBitsPerKey).addAll es
  let (w, rest) := w.finish
  (w, out ++ rest)

end SSTableWriter

/-! ## Reader -/

structure SSTableReader where
  base : Bytes
  fileNumber : Nat := 0
  index : List IndexEntry := []
  filter : BloomFilter := {}
  numEntries : UInt64 := 0
  smallestKey : Bytes := []
  largestKey : Bytes := []
  filterEnabled : Bool := true

namespace SSTableReader

/-- `Crc32(p, n)` together with the stored checksum behind the `n` bytes, as the three
    checksummed sections are read: the data if the two agree. -/
def checkedSection (base : Bytes) (offset length : Nat) (bad : Status) :
    Option (Except Status Bytes) := do
  let p := base.drop offset
  let storedCrc ← decodeFixed32 (p.drop length)
  let data ← loadBytes p length
  return if crc32 data ≠ storedCrc then .error bad else .ok data

/-- `ReadBlock`. Offset and length are added in 64 bits. -/
def readBlock (r : SSTableReader) (blockIdx : Nat) : Option (Except Status Bytes) := do
  let e ← r.index[blockIdx]?
  if e.offset + e.length.toUInt64 + 4 > r.base.length.toUInt64 then
    return .error (.corruption "block extends past EOF")
  checkedSection r.base e.offset.toNat e.length.toNat (.corruption "block CRC mismatch")

/-- One iteration of the index loop of `Open`; `p` is what lies between `p` and `end`. -/
def indexStep (p : Bytes) : Option (Except Status (IndexEntry × Bytes)) := do
  if p.length < 4 then return .error (.corruption "truncated index entry")
  let klen ← decodeFixed32 p
  let p := p.drop 4
  if p.length < klen.toNat + 12 then return .error (.corruption "truncated index entry")
  let firstKey ← loadBytes p klen.toNat
  let p := p.drop klen.toNat
  let offset ← decodeFixed64 p
  let p := p.drop 8
  let length ← decodeFixed32 p
  return .ok (⟨firstKey, offset, length⟩, p.drop 4)

/-- Every index entry takes bytes from the input, which is why the loop of `ParseIndex` ends. -/
theorem indexStep_length_lt {p rest : Bytes} {e : IndexEntry}
    (h : indexStep p = some (.ok (e, rest))) : rest.length < p.length := by
  simp only [indexStep, bind, Option.bind_eq_some_iff, Option.pure_def, ite_eq_iff,
    Option.some.injEq, reduceCtorEq, and_false, false_or, Except.ok.injEq, Prod.mk.injEq] at h
  obtain ⟨hlen, _, _, _, _, _, _, _, _, _, _, rfl⟩ := h
  simp only [List.length_drop]
  omega

/-- The index loop of `Open`. -/
def parseIndex (p : Bytes) : Option (Except Status (List IndexEntry)) :=
  if p = [] then some (.ok [])
  else
    match _h : indexStep p with
    | none => none
    | some (.error s) => some (.error s)
    | some (.ok (e, rest)) => (parseIndex rest).map fun r => r.map (e :: ·)
termination_by p.length
decreasing_by exact indexStep_length_lt _h

/-- The scan of the last block in `Open`, which derives the largest key. It has no bounds
    checks, and it advances by the 32-bit sum of the two lengths. -/
def lastKeyLoop (q : Bytes) (largest : Bytes) : Option Bytes :=
  match q with
  | [] => some largest
  | _ :: q =>
    match decodeFixed32 q, decodeFixed32 (q.drop 4) with
    | some klen, some vlen =>
      match loadBytes (q.drop 8) klen.toNat with
      | some key => lastKeyLoop ((q.drop 8).drop (klen + vlen).toNat) key
      | none => none
    | _, _ => none
termination_by q.length
decreasing_by simp

/-- `Open`, on the bytes of the mapped file. -/
def «open» (path : String) (file : Bytes) (fileNumber : Nat) :
    Option (Except Status SSTableReader) := do
  let size := file.length.toUInt64
  if file.length < kFooterSize then
    return .error (.corruption ("file too small to be an SSTable: " ++ path))
  let footer := file.drop (file.length - kFooterSize)
  let filterOffset ← decodeFixed64 footer
  let filterLength ← decodeFixed64 (footer.drop 8)
  let indexOffset ← decodeFixed64 (footer.drop 16)
  let indexLength ← decodeFixed64 (footer.drop 24)
  let numEntries ← decodeFixed64 (footer.drop 32)
  let magic ← decodeFixed32 (footer.drop 40)
  if magic ≠ kSSTableMagic then
    return .error (.corruption ("bad SSTable magic in " ++ path))
  -- the sums may wrap around
  if indexOffset + indexLength + 4 > size ∨ filterOffset + filterLength + 4 > size then
    return .error (.corruption ("metadata extends past EOF in " ++ path))
  match ← checkedSection file indexOffset.toNat indexLength.toNat
      (.corruption ("index CRC mismatch in " ++ path)) with
  | .error s => return .error s
  | .ok indexData =>
    match ← parseIndex indexData with
    | .error s => return .error s
    | .ok index =>
      let reader : SSTableReader :=
        { base := file, fileNumber := fileNumber, index := index, numEntries := numEntries }
      let loaded ← loadFilter reader filterOffset filterLength
      match loaded with
      | .error s => return .error s
      | .ok reader => deriveRange reader
where
  /-- Load the filter block, if there is one. -/
  loadFilter (r : SSTableReader) (offset length : UInt64) :
      Option (Except Status SSTableReader) := do
    if length > 0 then
      match ← checkedSection r.base offset.toNat length.toNat
          (.corruption ("filter CRC mismatch in " ++ path)) with
      | .error s => return .error s
      | .ok data => return .ok { r with filter := ← BloomFilter.reset data }
    else return .ok r
  /-- Derive the smallest and the largest key. -/
  deriveRange (r : SSTableReader) : Option (Except Status SSTableReader) := do
    match r.index with
    | [] => return .ok r
    | first :: _ =>
      match ← r.readBlock (r.index.length - 1) with
      | .error s => return .error s
      | .ok lastBlock =>
        let largest ← lastKeyLoop lastBlock []
        return .ok { r with smallestKey := first.firstKey, largestKey := largest }

/-- `GetBlock`: the cache-aware block fetch of point lookups. -/
def getBlock (r : SSTableReader) (cache : Option BlockCache) (blockIdx : Nat) :
    Option (Except Status Bytes × Option BlockCache) := do
  let offset := (← r.index[blockIdx]?).offset
  match cache with
  | none => return (← r.readBlock blockIdx, none)
  | some c =>
    match c.lookup r.fileNumber offset with
    | (c, some cached) => return (.ok cached, some c)
    | (c, none) =>
      match ← r.readBlock blockIdx with
      | .error s => return (.error s, some c)
      | .ok block => return (.ok block, some (c.insert r.fileNumber offset block))

/-- `key.compare(0, key.size(), kptr, klen)`: at most `key.size()` bytes are read. -/
def compareKey (key kptr : Bytes) (klen : Nat) : Option Ordering := do
  let k ← loadBytes kptr (min key.length klen)
  return match compare (key.take k.length) k with
    | .eq => compare key.length klen
    | o => o

/-- The block scan of `Get`. -/
def scanBlock (key : Bytes) (p : Bytes) : Option LookupResult :=
  match p with
  | [] => some .notFound
  | type :: p =>
    match decodeFixed32 p, decodeFixed32 (p.drop 4) with
    | some klen, some vlen =>
      let kptr := p.drop 8
      let vptr := kptr.drop klen.toNat
      match compareKey key kptr klen.toNat with
      | none => none
      | some .eq =>
        if (⟨type⟩ : ValueType) = .tombstone then some .deleted
        else (loadBytes vptr vlen.toNat).map .found
      -- records are sorted: the target would have appeared already
      | some .lt => some .notFound
      | some .gt => scanBlock key (vptr.drop vlen.toNat)
    | _, _ => none
termination_by p.length
decreasing_by simp

/-- The bloom short-circuit of `Get`: the filter is on, present, and rules the key out. -/
def ruledOut (r : SSTableReader) (key : Bytes) : Option Bool :=
  if r.filterEnabled && r.filter.valid then (r.filter.mayContain key).map not else some false

/-- `Get`: the result with its status, and the cache afterwards. -/
def get (r : SSTableReader) (cache : Option BlockCache) (key : Bytes) :
    Option ((LookupResult × Status) × Option BlockCache) := do
  if r.index = [] then return ((.notFound, .OK), cache)
  if ← r.ruledOut key then return ((.notFound, .OK), cache)
  let it ← BinarySearch.upperBoundLoop (fun e : IndexEntry => decide (¬ key < e.firstKey))
    r.index 0 r.index.length
  if it = 0 then return ((.notFound, .OK), cache)
  match ← r.getBlock cache (it - 1) with
  | (.error s, cache) => return ((.notFound, s), cache)
  | (.ok block, cache) => return ((← scanBlock key block, .OK), cache)

/-! ### Iterator -/

/-- `SSTableReader::Iterator`. -/
structure Iterator where
  reader : SSTableReader
  blockIdx : Nat := 0
  pos : Nat := 0
  block : Bytes := []
  valid : Bool := false
  key : Bytes := []
  value : Bytes := []
  type : ValueType := .value
  status : Status := .OK

/-- `NewIterator`. -/
def newIterator (r : SSTableReader) : Iterator := { reader := r }

namespace Iterator

/-- `IsTombstone`. -/
def isTombstone (it : Iterator) : Bool := it.type == .tombstone

/-- `LoadBlock`. A block that cannot be read leaves `block_` as it was. -/
def loadBlock (it : Iterator) (blockIdx : Nat) : Option Iterator := do
  match ← it.reader.readBlock blockIdx with
  | .ok block =>
    return { it with blockIdx := blockIdx, pos := 0, block := block, status := .OK }
  | .error s => return { it with blockIdx := blockIdx, pos := 0, status := s }

/-- `LoadBlock` keeps the reader and moves to the block it is given. -/
theorem loadBlock_eq {it it' : Iterator} {i : Nat} (h : it.loadBlock i = some it') :
    it'.reader = it.reader ∧ it'.blockIdx = i := by
  simp only [loadBlock, bind, Option.bind_eq_some_iff] at h
  obtain ⟨r, -, h⟩ := h
  cases r <;> cases h <;> exact ⟨rfl, rfl⟩

/-- The record at `pos_`. The code checks none of its lengths; a load beyond the block is `none`. -/
def parseRecord (it : Iterator) : Option Iterator := do
  let p := it.block.drop it.pos
  let type ← p[0]?
  let p := p.drop 1
  let klen ← decodeFixed32 p
  let p := p.drop 4
  let vlen ← decodeFixed32 p
  let p := p.drop 4
  let key ← loadBytes p klen.toNat
  let p := p.drop klen.toNat
  let value ← loadBytes p vlen.toNat
  return { it with
    type := ⟨type⟩, key := key, value := value, valid := true
    pos := it.pos + 1 + 4 + 4 + klen.toNat + vlen.toNat }

/-- `ParseCurrent`: advance across exhausted blocks until a record is found or the blocks
    run out. -/
def parseCurrent (it : Iterator) : Option Iterator :=
  if !it.status.ok then some { it with valid := false }
  else if it.pos ≥ it.block.length then
    if _h : it.blockIdx + 1 ≥ it.reader.index.length then some { it with valid := false }
    else
      match _h' : it.loadBlock (it.blockIdx + 1) with
      | none => none
      | some it' => parseCurrent it'
  else it.parseRecord
termination_by it.reader.index.length - it.blockIdx
decreasing_by
  obtain ⟨hr, hi⟩ := loadBlock_eq _h'
  rw [hr, hi]
  omega

/-- `SeekToFirst`. -/
def seekToFirst (it : Iterator) : Option Iterator :=
  if it.reader.index = [] then some { it with valid := false }
  else (it.loadBlock 0).bind parseCurrent

/-- `ParseCurrent` advances by at least the nine bytes of the header. -/
theorem parseRecord_eq {it it' : Iterator} (h : it.parseRecord = some it') :
    it'.reader = it.reader ∧ it'.blockIdx = it.blockIdx ∧ it'.block = it.block ∧
      it.pos < it'.pos := by
  simp only [parseRecord, bind, Option.bind_eq_some_iff, Option.pure_def, Option.some.injEq] at h
  obtain ⟨_, -, _, -, _, -, _, -, _, -, rfl⟩ := h
  exact ⟨rfl, rfl, rfl, by dsimp only; omega⟩

/-- `ParseCurrent` either parses a record of the current block, or it has moved on to a
    later block, or it has become invalid. -/
theorem parseCurrent_progress {it it' : Iterator} (h : it.parseCurrent = some it')
    (hv : it'.valid = true) :
    it'.reader = it.reader ∧
      ((it'.blockIdx = it.blockIdx ∧ it'.block = it.block ∧ it.pos < it.block.length ∧
          it.pos < it'.pos) ∨
        (it.blockIdx < it'.blockIdx ∧ it'.blockIdx < it.reader.index.length)) := by
  induction it using parseCurrent.induct with
  | case1 it hs =>
    -- a stopped iterator is not valid
    rw [parseCurrent, if_pos hs] at h
    cases h
    cases hv
  | case2 it hs hpos hlast =>
    -- at the end of the last block the iterator becomes invalid
    rw [parseCurrent, if_neg hs, if_pos hpos, dif_pos hlast] at h
    cases h
    cases hv
  | case3 it hs hpos hlast hload =>
    rw [parseCurrent, if_neg hs, if_pos hpos, dif_neg hlast] at h
    split at h <;> simp_all
  | case4 it hs hpos hlast it₁ hload ih =>
    rw [parseCurrent, if_neg hs, if_pos hpos, dif_neg hlast] at h
    split at h
    · simp at h
    · rename_i it₂ hload'
      rw [hload] at hload'
      cases hload'
      obtain ⟨hr, hi⟩ := loadBlock_eq hload
      obtain ⟨hr', hcase⟩ := ih h
      rw [hr, hi] at hcase
      -- the record found is in a later block, or in the block just loaded
      refine ⟨hr'.trans hr, .inr ?_⟩
      rcases hcase with ⟨hidx, -⟩ | ⟨hlt, hle⟩ <;> omega
  | case5 it hs hpos =>
    rw [parseCurrent, if_neg hs, if_neg hpos] at h
    obtain ⟨hr, hi, hb, hp⟩ := parseRecord_eq h
    exact ⟨hr, .inl ⟨hi, hb, by omega, hp⟩⟩

/-- The forward scan of `Seek`, crossing blocks if needed. -/
def seekLoop (target : Bytes) (it : Iterator) : Option Iterator :=
  match _h : it.parseCurrent with
  | none => none
  | some it' =>
    if _hv : it'.valid = true then
      if it'.key ≥ target then some it' else seekLoop target it'
    else some it'
termination_by (it.reader.index.length - it.blockIdx, it.block.length - it.pos)
decreasing_by
  obtain ⟨hr, ⟨hi, hb, hlt, hp⟩ | ⟨hi, hle⟩⟩ := parseCurrent_progress _h _hv
  · rw [hr, hi, hb]
    exact Prod.Lex.right _ (by omega)
  · rw [hr]
    exact Prod.Lex.left _ _ (by omega)

/-- `Seek`: the last block whose first key is at most `target`, or the first block, and from
    there to the first key that is at least `target`. The search adds indices as `int`s, which is
    exact for tables of at most `2 ^ 30` blocks. -/
def seek (it : Iterator) (target : Bytes) : Option Iterator := do
  if it.reader.index = [] then return { it with valid := false }
  let lo ← BinarySearch.loop (fun e : IndexEntry => decide (e.firstKey ≤ target))
    it.reader.index 0 it.reader.index.length
  let idx := if lo = 0 then 0 else lo - 1
  seekLoop target (← it.loadBlock idx)

/-- `Next`. -/
def next (it : Iterator) : Option Iterator :=
  if !it.valid then some it else it.parseCurrent

/-- The iterator as callers see it: `Valid`, `key`, `value` and `type`, `Next`, `status`. -/
instance : Cursor Iterator Entry Status where
  head it := if it.valid then some ⟨it.key, it.value, it.type⟩ else none
  next := next
  status it := it.status

end Iterator

end SSTableReader

end Lsmdb
