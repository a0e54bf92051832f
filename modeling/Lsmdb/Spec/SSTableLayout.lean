import Lsmdb.Native.SSTable
import Lsmdb.Spec.BloomCorrect

/-!
# The layout of an SSTable file

`writeTable` interleaves block cutting, checksums and offset bookkeeping. Here the
file is described as a whole: the entries are cut into blocks (`blocksOf`), each
block becomes a checksummed section, and the filter, the index and the footer follow
(`tableBytes`). `writeTable_eq` shows that this is the file the writer produces,
for every block size, as long as no finished block outgrows the 32-bit arithmetic
of its length.
-/

namespace Lsmdb

open SSTableWriter

/-! ## Blocks -/

/-- The bytes of a data block. -/
def blockBytes (b : List Entry) : Bytes := b.flatMap appendRecord

@[simp] theorem blockBytes_nil : blockBytes [] = [] := rfl

@[simp] theorem blockBytes_cons (e : Entry) (b : List Entry) :
    blockBytes (e :: b) = appendRecord e ++ blockBytes b := rfl

@[simp] theorem blockBytes_append (a b : List Entry) :
    blockBytes (a ++ b) = blockBytes a ++ blockBytes b := by
  simp [blockBytes]

@[simp] theorem length_appendRecord (e : Entry) :
    (appendRecord e).length = 9 + e.key.length + e.value.length := by
  simp [appendRecord]
  omega

/-- A record is never empty. -/
theorem blockBytes_eq_nil_iff {b : List Entry} : blockBytes b = [] ↔ b = [] := by
  cases b with
  | nil => simp
  | cons e b => simp [appendRecord]

/-- A record is part of its block. -/
theorem length_record_le_of_mem {b : List Entry} {e : Entry} (h : e ∈ b) :
    9 + e.key.length + e.value.length ≤ (blockBytes b).length := by
  induction b with
  | nil => simp at h
  | cons x b ih =>
    rw [blockBytes_cons, List.length_append, length_appendRecord]
    rcases List.mem_cons.mp h with rfl | h
    · omega
    · have := ih h
      omega

/-- The first key of a block. -/
def firstKey (b : List Entry) : Bytes := (b.head?.map (·.key)).getD []

@[simp] theorem firstKey_cons (e : Entry) (b : List Entry) : firstKey (e :: b) = e.key := rfl

/-- Cut entries into full blocks behind the pending block `cur`; the second component is the
    block that stays pending. -/
def cut (blockSize : Nat) : List Entry → List Entry → List (List Entry) × List Entry
  | cur, [] => ([], cur)
  | cur, e :: es =>
    if (blockBytes (cur ++ [e])).length ≥ blockSize then
      let (full, tail) := cut blockSize [] es
      ((cur ++ [e]) :: full, tail)
    else cut blockSize (cur ++ [e]) es

/-- The blocks of a table. -/
def blocksOf (blockSize : Nat) (es : List Entry) : List (List Entry) :=
  let (full, tail) := cut blockSize [] es
  if tail = [] then full else full ++ [tail]

/-- No record is lost between the blocks. -/
private theorem flatten_cut (blockSize : Nat) (cur es : List Entry) :
    (cut blockSize cur es).1.flatten ++ (cut blockSize cur es).2 = cur ++ es := by
  induction es generalizing cur with
  | nil => simp [cut]
  | cons e es ih =>
    rw [cut]
    split
    · have := ih []
      simp_all
    · rw [ih]
      simp

/-- A block that is closed has a record. -/
private theorem ne_nil_of_mem_cut {blockSize : Nat} {cur es b : List Entry}
    (h : b ∈ (cut blockSize cur es).1) : b ≠ [] := by
  induction es generalizing cur with
  | nil => simp [cut] at h
  | cons e es ih =>
    rw [cut] at h
    split at h
    · rcases List.mem_cons.mp h with rfl | h
      · simp
      · exact ih h
    · exact ih h

@[simp] theorem flatten_blocksOf (blockSize : Nat) (es : List Entry) :
    (blocksOf blockSize es).flatten = es := by
  have h := flatten_cut blockSize [] es
  unfold blocksOf
  dsimp only
  split
  · simp_all
  · simpa using h

/-- No block is empty. -/
theorem ne_nil_of_mem_blocksOf {blockSize : Nat} {es b : List Entry}
    (h : b ∈ blocksOf blockSize es) : b ≠ [] := by
  unfold blocksOf at h
  dsimp only at h
  split at h
  · exact ne_nil_of_mem_cut h
  · rename_i htail
    rcases List.mem_append.mp h with h | h
    · exact ne_nil_of_mem_cut h
    · rw [List.mem_singleton] at h
      rw [h]
      exact htail

/-- Only an empty table has no block. -/
theorem blocksOf_eq_nil_iff {blockSize : Nat} {es : List Entry} :
    blocksOf blockSize es = [] ↔ es = [] := by
  constructor
  · intro h
    rw [← flatten_blocksOf blockSize es, h]
    rfl
  · rintro rfl
    rfl

/-! ## The file -/

/-- A checksummed section: a data block, the filter or the index. -/
def sectionBytes (data : Bytes) : Bytes := data ++ putFixed32 (crc32 data)

@[simp] theorem length_sectionBytes (data : Bytes) :
    (sectionBytes data).length = data.length + 4 := by
  simp [sectionBytes]

/-- The data blocks of a file. -/
def dataBytes (bs : List (List Entry)) : Bytes := bs.flatMap fun b => sectionBytes (blockBytes b)

@[simp] theorem dataBytes_nil : dataBytes [] = [] := rfl

@[simp] theorem dataBytes_cons (b : List Entry) (bs : List (List Entry)) :
    dataBytes (b :: bs) = sectionBytes (blockBytes b) ++ dataBytes bs := rfl

@[simp] theorem dataBytes_append (as bs : List (List Entry)) :
    dataBytes (as ++ bs) = dataBytes as ++ dataBytes bs := by
  simp [dataBytes]

/-- The sparse index of blocks that start at byte `offset`. -/
def indexFrom (offset : Nat) : List (List Entry) → List IndexEntry
  | [] => []
  | b :: bs => ⟨firstKey b, offset.toUInt64, (blockBytes b).length.toUInt32⟩ ::
      indexFrom (offset + (blockBytes b).length + 4) bs

@[simp] theorem length_indexFrom (offset : Nat) (bs : List (List Entry)) :
    (indexFrom offset bs).length = bs.length := by
  induction bs generalizing offset with
  | nil => rfl
  | cons b bs ih => simp [indexFrom, ih]

/-- The offsets of later blocks count the earlier ones. -/
private theorem indexFrom_append (offset : Nat) (as bs : List (List Entry)) :
    indexFrom offset (as ++ bs) =
      indexFrom offset as ++ indexFrom (offset + (dataBytes as).length) bs := by
  induction as generalizing offset with
  | nil => simp [indexFrom]
  | cons a as ih =>
    simp only [List.cons_append, indexFrom, ih, dataBytes_cons, List.length_append,
      length_sectionBytes]
    rw [show offset + (blockBytes a).length + 4 + (dataBytes as).length =
      offset + ((blockBytes a).length + 4 + (dataBytes as).length) by omega]

/-- The serialized filter of a table. -/
def filterBytes (bitsPerKey : Int) (es : List Entry) : Bytes :=
  BloomBuilder.finish ⟨bitsPerKey, es.map fun e => murmurHash128 e.key⟩

/-- The serialized index of a table. -/
def indexBuf (bs : List (List Entry)) : Bytes := (indexFrom 0 bs).flatMap indexBytes

/-- The fields of the footer. -/
structure Footer where
  filterOffset : UInt64
  filterLength : UInt64
  indexOffset : UInt64
  indexLength : UInt64
  numEntries : UInt64
  magic : UInt32
  deriving DecidableEq

def Footer.bytes (ft : Footer) : Bytes :=
  putFixed64 ft.filterOffset ++ putFixed64 ft.filterLength ++ putFixed64 ft.indexOffset ++
    putFixed64 ft.indexLength ++ putFixed64 ft.numEntries ++ putFixed32 ft.magic

@[simp] theorem Footer.length_bytes (ft : Footer) : ft.bytes.length = kFooterSize := by
  simp [bytes, kFooterSize]

/-- The footer of a file whose data blocks take `dataLen` bytes. -/
def footerOf (dataLen filterLen indexLen numEntries : Nat) : Footer where
  filterOffset := dataLen.toUInt64
  filterLength := filterLen.toUInt64
  indexOffset := (dataLen + filterLen + 4).toUInt64
  indexLength := indexLen.toUInt64
  numEntries := numEntries.toUInt64
  magic := kSSTableMagic

/-- The footer of a table. -/
def tableFooter (blockSize : Nat) (bitsPerKey : Int) (es : List Entry) : Footer :=
  footerOf (dataBytes (blocksOf blockSize es)).length (filterBytes bitsPerKey es).length
    (indexBuf (blocksOf blockSize es)).length es.length

/-- The file of a table. -/
def tableBytes (blockSize : Nat) (bitsPerKey : Int) (es : List Entry) : Bytes :=
  let bs := blocksOf blockSize es
  dataBytes bs ++ (sectionBytes (filterBytes bitsPerKey es) ++ (sectionBytes (indexBuf bs) ++
    (tableFooter blockSize bitsPerKey es).bytes))

/-- Every finished block keeps its length plus the checksum within 32 bits. -/
def BlocksFit (bs : List (List Entry)) : Prop :=
  ∀ b ∈ bs, (blockBytes b).length ≤ 2 ^ 32 - 5

instance (bs : List (List Entry)) : Decidable (BlocksFit bs) :=
  inferInstanceAs (Decidable (∀ b ∈ bs, _))

/-- The sum modulo `2 ^ 64`. -/
theorem toUInt64_add (a b : Nat) : (a + b).toUInt64 = a.toUInt64 + b.toUInt64 := by
  simp [Nat.toUInt64]

/-- One more, modulo `2 ^ 64`. -/
private theorem length_concat_toUInt64 {α : Type} (xs : List α) (x : α) :
    (xs ++ [x]).length.toUInt64 = xs.length.toUInt64 + 1 := by
  rw [List.length_append, List.length_singleton, toUInt64_add]
  rfl

/-- The 32-bit sum by which `FlushBlock` advances the offset is exact for a block that fits. -/
private theorem blockLen_add_four {n : Nat} (h : n ≤ 2 ^ 32 - 5) :
    (n.toUInt32 + 4).toUInt64 = (n + 4).toUInt64 := by
  rw [← UInt64.toNat_inj, UInt32.toNat_toUInt64, UInt32.toNat_add,
    toNat_toUInt32_of_lt (by omega), toNat_toUInt64_of_lt (by omega)]
  simp only [UInt32.reduceToNat]
  omega

/-! ## The writer -/

/-- Records one after the other. -/
theorem addAll_append (w : SSTableWriter) (es fs : List Entry) :
    w.addAll (es ++ fs) = (((w.addAll es).1.addAll fs).1,
      (w.addAll es).2 ++ ((w.addAll es).1.addAll fs).2) := by
  induction es generalizing w with
  | nil => rfl
  | cons e es ih =>
    simp only [List.cons_append, SSTableWriter.addAll, ih, List.append_assoc]

/-- The builder of the filter has the hashes of all keys. -/
theorem bloom_addAll (w : SSTableWriter) (es : List Entry) :
    (w.addAll es).1.bloom =
      { w.bloom with hashes := w.bloom.hashes ++ es.map fun e => murmurHash128 e.key } := by
  induction es generalizing w with
  | nil => simp [SSTableWriter.addAll]
  | cons e es ih =>
    have hadd : (w.add e).1.bloom = w.bloom.add e.key := by
      unfold SSTableWriter.add SSTableWriter.flushBlock
      dsimp only
      split_ifs <;> rfl
    rw [SSTableWriter.addAll, ih, hadd]
    simp [BloomBuilder.add]

/-- The footer that `Finish` writes behind the data blocks. -/
def SSTableWriter.footer (w : SSTableWriter) : Footer where
  filterOffset := w.offset
  filterLength := w.bloom.finish.length.toUInt64
  indexOffset := w.offset + (w.bloom.finish.length.toUInt64 + 4)
  indexLength := (w.index.flatMap indexBytes).length.toUInt64
  numEntries := w.numEntries
  magic := kSSTableMagic

/-- `Finish` writes the tail block, and behind it the filter, the index and the footer. -/
theorem finish_eq {w w₁ : SSTableWriter} {tailBlock : Bytes} (hfin : w.finished = false)
    (hflush : SSTableWriter.flushBlock { w with finished := true } = (w₁, tailBlock)) :
    w.finish = ({ w₁ with
        bloom := { w₁.bloom with hashes := [] }
        offset := w₁.offset + (w₁.bloom.finish.length.toUInt64 + 4) +
          ((w₁.index.flatMap indexBytes).length.toUInt64 + 4) + w₁.footer.bytes.length.toUInt64 },
      tailBlock ++ (sectionBytes w₁.bloom.finish ++
        (sectionBytes (w₁.index.flatMap indexBytes) ++ w₁.footer.bytes))) := by
  rw [SSTableWriter.finish, hfin, if_neg (by simp), hflush]
  simp only [SSTableWriter.footer, Footer.bytes, sectionBytes, List.append_assoc]

/-- What the writer knows after the blocks `done` were written and while `cur` is pending. -/
structure WriterAt (blockSize : Nat) (bitsPerKey : Int) (done : List (List Entry))
    (cur : List Entry) (w : SSTableWriter) : Prop where
  blockSize_eq : w.blockSize = blockSize
  bitsPerKey_eq : w.bloom.bitsPerKey = bitsPerKey
  offset_eq : w.offset = (dataBytes done).length.toUInt64
  index_eq : w.index = indexFrom 0 done
  blockBuf_eq : w.blockBuf = blockBytes cur
  firstKey_eq : cur ≠ [] → w.blockFirstKey = firstKey cur
  hashes_eq : w.bloom.hashes = (done.flatten ++ cur).map fun e => murmurHash128 e.key
  numEntries_eq : w.numEntries = (done.flatten ++ cur).length.toUInt64

/-- A new writer. -/
private theorem writerAt_new (blockSize : Nat) (bitsPerKey : Int) :
    WriterAt blockSize bitsPerKey [] [] (new blockSize bitsPerKey) where
  blockSize_eq := rfl
  bitsPerKey_eq := rfl
  offset_eq := rfl
  index_eq := rfl
  blockBuf_eq := rfl
  firstKey_eq h := absurd rfl h
  hashes_eq := rfl
  numEntries_eq := rfl

variable {blockSize : Nat} {bitsPerKey : Int} {done : List (List Entry)} {cur : List Entry}
  {w : SSTableWriter}

/-- `FlushBlock` turns the pending block into a finished one. -/
theorem WriterAt.flushBlock (h : WriterAt blockSize bitsPerKey done cur w) (hne : cur ≠ [])
    (hfit : (blockBytes cur).length ≤ 2 ^ 32 - 5) :
    WriterAt blockSize bitsPerKey (done ++ [cur]) [] w.flushBlock.1 ∧
      w.flushBlock.2 = sectionBytes (blockBytes cur) ∧
      w.flushBlock.1.finished = w.finished := by
  have hbuf : w.blockBuf ≠ [] := by
    rw [h.blockBuf_eq]
    exact fun h0 => hne (blockBytes_eq_nil_iff.mp h0)
  simp only [SSTableWriter.flushBlock, if_neg hbuf]
  refine ⟨⟨h.blockSize_eq, h.bitsPerKey_eq, ?_, ?_, rfl, fun h0 => absurd rfl h0, ?_, ?_⟩, ?_,
    trivial⟩
  · -- the offset, in 32-bit and then in 64-bit arithmetic
    dsimp only
    rw [h.offset_eq, h.blockBuf_eq, blockLen_add_four hfit, ← toUInt64_add]
    simp
  · -- the entry of the block in the index
    dsimp only
    rw [h.index_eq, h.firstKey_eq hne, h.blockBuf_eq, h.offset_eq, indexFrom_append]
    simp [indexFrom]
  · simpa using h.hashes_eq
  · simpa using h.numEntries_eq
  · rw [h.blockBuf_eq, sectionBytes]

/-- `Add` appends to the pending block and finishes it at the size threshold. -/
theorem WriterAt.add (h : WriterAt blockSize bitsPerKey done cur w) (e : Entry)
    (hfit : (blockBytes (cur ++ [e])).length ≥ blockSize →
      (blockBytes (cur ++ [e])).length ≤ 2 ^ 32 - 5) :
    (w.add e).1.finished = w.finished ∧
    if (blockBytes (cur ++ [e])).length ≥ blockSize then
      WriterAt blockSize bitsPerKey (done ++ [cur ++ [e]]) [] (w.add e).1 ∧
        (w.add e).2 = sectionBytes (blockBytes (cur ++ [e]))
    else WriterAt blockSize bitsPerKey done (cur ++ [e]) (w.add e).1 ∧ (w.add e).2 = [] := by
  -- the state once the record is in the buffer
  set w₁ : SSTableWriter := if w.blockBuf = [] then { w with blockFirstKey := e.key } else w
    with hw₁
  set w₂ : SSTableWriter := { w₁ with
    blockBuf := w₁.blockBuf ++ appendRecord e
    bloom := w₁.bloom.add e.key
    numEntries := w₁.numEntries + 1 } with hw₂
  have hadd : w.add e = if w₂.blockBuf.length ≥ w₂.blockSize then w₂.flushBlock else (w₂, []) := rfl
  have h₂ : WriterAt blockSize bitsPerKey done (cur ++ [e]) w₂ ∧ w₂.finished = w.finished := by
    by_cases hcur : cur = []
    · -- the first record of a block sets its first key
      have hbuf : w.blockBuf = [] := by rw [h.blockBuf_eq, hcur]; rfl
      rw [if_pos hbuf] at hw₁
      subst hcur
      refine ⟨⟨?_, ?_, ?_, ?_, ?_, ?_, ?_, ?_⟩, ?_⟩ <;>
        simp only [hw₂, hw₁, BloomBuilder.add, hbuf]
      · exact h.blockSize_eq
      · exact h.bitsPerKey_eq
      · exact h.offset_eq
      · exact h.index_eq
      · simp
      · simp
      · simp [h.hashes_eq]
      · rw [h.numEntries_eq, ← List.append_assoc, length_concat_toUInt64]
    · -- the others do not
      have hbuf : w.blockBuf ≠ [] := by
        rw [h.blockBuf_eq]
        exact fun h0 => hcur (blockBytes_eq_nil_iff.mp h0)
      rw [if_neg hbuf] at hw₁
      refine ⟨⟨?_, ?_, ?_, ?_, ?_, ?_, ?_, ?_⟩, ?_⟩ <;> simp only [hw₂, hw₁, BloomBuilder.add]
      · exact h.blockSize_eq
      · exact h.bitsPerKey_eq
      · exact h.offset_eq
      · exact h.index_eq
      · simp [h.blockBuf_eq]
      · intro _
        rw [h.firstKey_eq hcur]
        cases cur with
        | nil => exact absurd rfl hcur
        | cons x xs => rfl
      · simp [h.hashes_eq]
      · rw [h.numEntries_eq, ← List.append_assoc, length_concat_toUInt64]
  obtain ⟨hat, hfin⟩ := h₂
  rw [hadd, hat.blockBuf_eq, hat.blockSize_eq]
  split
  · -- the block is full and is written
    rename_i hge
    obtain ⟨hat', hout, hfin'⟩ := hat.flushBlock (by simp) (hfit hge)
    exact ⟨hfin'.trans hfin, hat', hout⟩
  · exact ⟨hfin, hat, rfl⟩

/-- `Add` for each entry cuts the entries into blocks as `cut` does. -/
theorem WriterAt.addAll (h : WriterAt blockSize bitsPerKey done cur w) (es : List Entry)
    (hfit : BlocksFit (cut blockSize cur es).1) :
    WriterAt blockSize bitsPerKey (done ++ (cut blockSize cur es).1) (cut blockSize cur es).2
        (w.addAll es).1 ∧
      (w.addAll es).2 = dataBytes (cut blockSize cur es).1 ∧
      (w.addAll es).1.finished = w.finished := by
  induction es generalizing done cur w with
  | nil => simpa [cut, SSTableWriter.addAll] using h
  | cons e es ih =>
    rw [cut] at hfit ⊢
    -- the record closes the block or does not
    by_cases hge : (blockBytes (cur ++ [e])).length ≥ blockSize
    · simp only [if_pos hge] at hfit ⊢
      obtain ⟨hfin, hstep⟩ := h.add e fun _ => hfit _ List.mem_cons_self
      rw [if_pos hge] at hstep
      obtain ⟨hat, hout⟩ := hstep
      obtain ⟨hat', hout', hfin'⟩ := ih hat fun b hb => hfit b (List.mem_cons_of_mem _ hb)
      refine ⟨?_, ?_, hfin'.trans hfin⟩
      · simpa [SSTableWriter.addAll] using hat'
      · simp [SSTableWriter.addAll, hout, hout']
    · simp only [if_neg hge] at hfit ⊢
      obtain ⟨hfin, hstep⟩ := h.add e fun hge' => absurd hge' hge
      rw [if_neg hge] at hstep
      obtain ⟨hat, hout⟩ := hstep
      obtain ⟨hat', hout', hfin'⟩ := ih hat hfit
      refine ⟨?_, ?_, hfin'.trans hfin⟩
      · simpa [SSTableWriter.addAll] using hat'
      · simp [SSTableWriter.addAll, hout, hout']

/-- `Finish` turns the tail block into a finished one, if there is one. -/
private theorem WriterAt.flushTail (h : WriterAt blockSize bitsPerKey done cur w)
    (hfit : cur ≠ [] → (blockBytes cur).length ≤ 2 ^ 32 - 5) :
    let bs := if cur = [] then done else done ++ [cur]
    ∃ w₁ tailBlock, SSTableWriter.flushBlock { w with finished := true } = (w₁, tailBlock) ∧
      WriterAt blockSize bitsPerKey bs [] w₁ ∧ bs.flatten = done.flatten ++ cur ∧
      dataBytes done ++ tailBlock = dataBytes bs := by
  intro bs
  have h' : WriterAt blockSize bitsPerKey done cur { w with finished := true } :=
    ⟨h.1, h.2, h.3, h.4, h.5, h.6, h.7, h.8⟩
  by_cases hcur : cur = []
  · -- there is no tail block
    have hbuf : w.blockBuf = [] := by rw [h.blockBuf_eq, hcur]; rfl
    subst hcur
    exact ⟨_, _, if_pos hbuf, h', by simp [bs], by simp [bs]⟩
  · obtain ⟨hat, hout, -⟩ := h'.flushBlock hcur (hfit hcur)
    simp only [bs, if_neg hcur]
    exact ⟨_, _, Prod.mk.eta.symm, hat, by simp, by rw [hout]; simp⟩

/-- `Finish` behind the last full block. -/
theorem WriterAt.finish (h : WriterAt blockSize bitsPerKey done cur w) (hfin : w.finished = false)
    (hfit : cur ≠ [] → (blockBytes cur).length ≤ 2 ^ 32 - 5) :
    let bs := if cur = [] then done else done ++ [cur]
    let es := done.flatten ++ cur
    let tail := sectionBytes (filterBytes bitsPerKey es) ++ (sectionBytes (indexBuf bs) ++
      (footerOf (dataBytes bs).length (filterBytes bitsPerKey es).length (indexBuf bs).length
        es.length).bytes)
    dataBytes done ++ w.finish.2 = dataBytes bs ++ tail ∧
      w.finish.1.offset = (dataBytes bs ++ tail).length.toUInt64 ∧
      w.finish.1.numEntries = es.length.toUInt64 ∧ w.finish.1.index = indexFrom 0 bs := by
  intro bs es tail
  -- the state once the tail block is out
  obtain ⟨w₁, tailBlock, hflush, hat, hflat, hout⟩ := h.flushTail hfit
  -- the filter is over the keys of all records
  have hfilter : w₁.bloom.finish = filterBytes bitsPerKey es := by
    have : w₁.bloom = ⟨bitsPerKey, es.map fun e => murmurHash128 e.key⟩ := by
      have hhashes := hat.hashes_eq
      rw [List.append_nil, hflat] at hhashes
      rw [← hat.bitsPerKey_eq, ← hhashes]
    rw [this, filterBytes]
  have hindex : w₁.index.flatMap indexBytes = indexBuf bs := by rw [hat.index_eq, indexBuf]
  have hoffset : w₁.offset = (dataBytes bs).length.toUInt64 := hat.offset_eq
  have hnum : w₁.numEntries = es.length.toUInt64 := by
    rw [hat.numEntries_eq, hflat, List.append_nil]
  have hfooter : w₁.footer = footerOf (dataBytes bs).length (filterBytes bitsPerKey es).length
      (indexBuf bs).length es.length := by
    rw [SSTableWriter.footer, hfilter, hindex, footerOf, hoffset, hnum, Nat.add_assoc,
      toUInt64_add, toUInt64_add]
    rfl
  rw [finish_eq hfin hflush, hfilter, hindex, hfooter]
  refine ⟨by rw [← List.append_assoc, hout], ?_, hnum, hat.index_eq⟩
  simp only [hoffset, tail, List.length_append, length_sectionBytes, Footer.length_bytes,
    toUInt64_add, ← Nat.add_assoc]
  simp only [show (4 : UInt64) = Nat.toUInt64 4 from rfl, ← UInt64.add_assoc]

/-- The writer produces the file described by `tableBytes`, it counts its bytes and its
    entries exactly, and its index is that of the blocks. -/
theorem writeTable_eq (blockSize : Nat) (bitsPerKey : Int) (es : List Entry)
    (hfit : BlocksFit (blocksOf blockSize es)) :
    (writeTable blockSize bitsPerKey es).2 = tableBytes blockSize bitsPerKey es ∧
      (writeTable blockSize bitsPerKey es).1.fileSize =
        (tableBytes blockSize bitsPerKey es).length.toUInt64 ∧
      (writeTable blockSize bitsPerKey es).1.numEntries = es.length.toUInt64 ∧
      (writeTable blockSize bitsPerKey es).1.index = indexFrom 0 (blocksOf blockSize es) := by
  -- the blocks written by `Add` and the tail fit, because they are blocks of the table
  have hsub : ∀ b ∈ (cut blockSize [] es).1, b ∈ blocksOf blockSize es := by
    intro b hb
    unfold blocksOf
    dsimp only
    split
    · exact hb
    · exact List.mem_append_left _ hb
  have htail : (cut blockSize [] es).2 ≠ [] →
      (blockBytes (cut blockSize [] es).2).length ≤ 2 ^ 32 - 5 := by
    intro hne
    apply hfit
    unfold blocksOf
    dsimp only
    rw [if_neg hne]
    simp
  obtain ⟨hat, hout, hfin⟩ := (writerAt_new blockSize bitsPerKey).addAll es
    fun b hb => hfit b (hsub b hb)
  obtain ⟨hbytes, hoffset, hnum, hindex⟩ := hat.finish hfin htail
  have hflat : (cut blockSize [] es).1.flatten ++ (cut blockSize [] es).2 = es := by
    simpa using flatten_cut blockSize [] es
  simp only [List.nil_append, hflat] at hbytes hoffset hnum hindex
  have hblocks : (if (cut blockSize [] es).2 = [] then (cut blockSize [] es).1
      else (cut blockSize [] es).1 ++ [(cut blockSize [] es).2]) = blocksOf blockSize es := rfl
  rw [hblocks] at hbytes hoffset hindex
  refine ⟨?_, hoffset, hnum, hindex⟩
  simp only [writeTable, hout]
  exact hbytes

end Lsmdb
