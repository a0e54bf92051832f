import Lsmdb.Spec.SSTableOpen

/-!
# The offsets that the table writer keeps

The writer counts the bytes of its file in `offset`, by sums that are narrowed to 32 bits
for a data block and wrap at 64 bits for the file. The count is never ahead of the file,
and it falls behind for good at the first block whose length and checksum do not fit in
32 bits (`Advance`). `offsetsExact_iff` says that the count, the index and the final size
are exact if and only if no block is that large and the file is shorter than `2 ^ 64` bytes.
-/

namespace Lsmdb

open SSTableWriter

/-! ## The count falls behind -/

/-- The offset advances by at most the number of bytes written, and by less if one of the
    blocks among them does not fit. -/
structure Advance (w w' : SSTableWriter) (out : Bytes) (bs : List (List Entry)) : Prop where
  le : w'.offset.toNat ≤ w.offset.toNat + out.length
  lt : ¬ BlocksFit bs → w'.offset.toNat < w.offset.toNat + out.length

variable {blockSize : Nat} {bitsPerKey : Int} {cur : List Entry} {w w₁ w₂ : SSTableWriter}

/-- Blocks of two lists. -/
private theorem blocksFit_append {as bs : List (List Entry)} :
    BlocksFit (as ++ bs) ↔ BlocksFit as ∧ BlocksFit bs := List.forall_mem_append

/-- What is written in two steps. -/
theorem Advance.trans {out out' : Bytes} {bs bs' : List (List Entry)}
    (h : Advance w w₁ out bs) (h' : Advance w₁ w₂ out' bs') :
    Advance w w₂ (out ++ out') (bs ++ bs') where
  le := by
    have := h.le
    have := h'.le
    rw [List.length_append]
    omega
  lt hfit := by
    rw [blocksFit_append, not_and_or] at hfit
    have := h.le
    have := h'.le
    rw [List.length_append]
    -- the block that does not fit is one of the first or of the second part
    cases hfit with
    | inl hfit => have := h.lt hfit; omega
    | inr hfit => have := h'.lt hfit; omega

/-- The offset advances by a sum of 64 bits, and no block is written. -/
theorem Advance.of_add {out : Bytes} {n : UInt64} (hoffset : w₁.offset = w.offset + n)
    (hn : n.toNat ≤ out.length) : Advance w w₁ out [] where
  le := by
    rw [hoffset, UInt64.toNat_add]
    omega
  lt hfit := absurd (List.forall_mem_nil _) hfit

/-- The narrowed sum by which `FlushBlock` advances. -/
private theorem toNat_blockLen_add_four (n : Nat) :
    (n.toUInt32 + 4).toUInt64.toNat = (n + 4) % 2 ^ 32 := by
  rw [UInt32.toNat_toUInt64, UInt32.toNat_add]
  simp [Nat.toUInt32]

/-- The writer is in the middle of a table, with `cur` as its pending block. -/
structure Pending (blockSize : Nat) (cur : List Entry) (w : SSTableWriter) : Prop where
  blockSize_eq : w.blockSize = blockSize
  blockBuf_eq : w.blockBuf = blockBytes cur
  finished_eq : w.finished = false

/-- Writing a block advances the offset by its length modulo `2 ^ 32`. -/
private theorem advance_flushBlock (hbuf : w.blockBuf = blockBytes cur) (hcur : cur ≠ []) :
    Advance w w.flushBlock.1 w.flushBlock.2 [cur] ∧ w.flushBlock.1.blockBuf = [] ∧
      w.flushBlock.1.blockSize = w.blockSize ∧ w.flushBlock.1.finished = w.finished := by
  have hne : w.blockBuf ≠ [] := by
    rw [hbuf]
    exact fun h => hcur (blockBytes_eq_nil_iff.mp h)
  -- the length of the block is a `uint32_t` before it is added
  have hoffset : w.flushBlock.1.offset.toNat =
      (w.offset.toNat + ((blockBytes cur).length + 4) % 2 ^ 32) % 2 ^ 64 := by
    rw [SSTableWriter.flushBlock, if_neg hne, ← hbuf, ← toNat_blockLen_add_four,
      ← UInt64.toNat_add]
  have hlength : w.flushBlock.2.length = (blockBytes cur).length + 4 := by
    rw [SSTableWriter.flushBlock, if_neg hne, ← hbuf]
    simp
  refine ⟨⟨?_, fun hfit => ?_⟩, ?_⟩
  · rw [hoffset, hlength]
    omega
  -- the sum wraps around if the block is too large
  · have hlarge : ¬ (blockBytes cur).length ≤ 2 ^ 32 - 5 := fun h =>
      hfit (List.forall_mem_singleton.mpr h)
    rw [hoffset, hlength]
    omega
  · simp [SSTableWriter.flushBlock, hne]

/-- `Add` writes the pending block if it is full with the record. -/
private theorem advance_add (h : Pending blockSize cur w) (e : Entry) :
    if (blockBytes (cur ++ [e])).length ≥ blockSize then
      Pending blockSize [] (w.add e).1 ∧ Advance w (w.add e).1 (w.add e).2 [cur ++ [e]]
    else Pending blockSize (cur ++ [e]) (w.add e).1 ∧ Advance w (w.add e).1 (w.add e).2 [] := by
  -- the writer once the record is in its buffer
  obtain ⟨w₁, hbuf, hsize, hfin, hoffset, hadd⟩ : ∃ w₁ : SSTableWriter,
      w₁.blockBuf = blockBytes (cur ++ [e]) ∧ w₁.blockSize = blockSize ∧ w₁.finished = false ∧
      w₁.offset = w.offset ∧
      w.add e = if w₁.blockBuf.length ≥ w₁.blockSize then w₁.flushBlock else (w₁, []) := by
    refine ⟨_, ?_, ?_, ?_, ?_, rfl⟩
    all_goals split
    all_goals simp [h.blockBuf_eq, h.blockSize_eq, h.finished_eq]
  rw [hadd, hbuf, hsize]
  split
  · obtain ⟨⟨hle, hlt⟩, hbuf', hsize', hfin'⟩ := advance_flushBlock hbuf (by simp)
    exact ⟨⟨hsize'.trans hsize, hbuf', hfin'.trans hfin⟩, hoffset ▸ hle, hoffset ▸ hlt⟩
  · exact ⟨⟨hsize, hbuf, hfin⟩, .of_add (n := 0) (by simp [hoffset]) (by simp)⟩

/-- The loop over the records. -/
private theorem advance_addAll (h : Pending blockSize cur w) (es : List Entry) :
    Pending blockSize (cut blockSize cur es).2 (w.addAll es).1 ∧
      Advance w (w.addAll es).1 (w.addAll es).2 (cut blockSize cur es).1 := by
  induction es generalizing cur w with
  | nil => exact ⟨h, .of_add (n := 0) (by simp [SSTableWriter.addAll]) (by simp)⟩
  | cons e es ih =>
    -- one record, which may complete a block
    have hstep := advance_add h e
    rw [cut]
    by_cases hge : (blockBytes (cur ++ [e])).length ≥ blockSize
    · rw [if_pos hge] at hstep ⊢
      obtain ⟨hpending, hadvance⟩ := ih hstep.1
      exact ⟨hpending, hstep.2.trans hadvance⟩
    · rw [if_neg hge] at hstep ⊢
      obtain ⟨hpending, hadvance⟩ := ih hstep.1
      exact ⟨hpending, hstep.2.trans hadvance⟩

/-- `Finish` writes the last block and the sections behind it. -/
private theorem advance_finish (h : Pending blockSize cur w) :
    Advance w w.finish.1 w.finish.2 (if cur = [] then [] else [cur]) := by
  -- the tail block, if there is one
  obtain ⟨w₁, tailBlock, hflush, hblock⟩ : ∃ w₁ tailBlock,
      SSTableWriter.flushBlock { w with finished := true } = (w₁, tailBlock) ∧
      Advance w w₁ tailBlock (if cur = [] then [] else [cur]) := by
    refine ⟨_, _, Prod.mk.eta.symm, ?_⟩
    split
    next hcur =>
      rw [SSTableWriter.flushBlock, if_pos (by rw [h.blockBuf_eq, hcur, blockBytes_nil])]
      exact .of_add (n := 0) (UInt64.add_zero _).symm (Nat.zero_le _)
    next hcur =>
      obtain ⟨⟨hle, hlt⟩, -⟩ := advance_flushBlock (w := { w with finished := true })
        h.blockBuf_eq hcur
      exact ⟨hle, hlt⟩
  -- the filter, the index and the footer
  rw [finish_eq h.finished_eq hflush, ← List.append_nil (if cur = [] then [] else [cur])]
  apply hblock.trans
  apply Advance.of_add
  · dsimp only
    rw [UInt64.add_assoc, UInt64.add_assoc]
  · simp only [UInt64.toNat_add, List.length_append, length_sectionBytes, Nat.toUInt64,
      UInt64.toNat_ofNat', UInt64.reduceToNat]
    omega

/-- Behind the blocks that are full so far, over the rest of a table. -/
private theorem advance_addAll_finish (h : Pending blockSize cur w) (es : List Entry) :
    Advance w (w.addAll es).1.finish.1 ((w.addAll es).2 ++ (w.addAll es).1.finish.2)
      (let (full, tail) := cut blockSize cur es
        if tail = [] then full else full ++ [tail]) := by
  obtain ⟨hpending, hadvance⟩ := advance_addAll h es
  have htrans := hadvance.trans (advance_finish hpending)
  dsimp only
  split
  next htail => rwa [if_pos htail, List.append_nil] at htrans
  next htail => rwa [if_neg htail] at htrans

/-- A new writer has nothing pending. -/
private theorem pending_new (blockSize : Nat) (bitsPerKey : Int) :
    Pending blockSize [] (new blockSize bitsPerKey) := ⟨rfl, rfl, rfl⟩

/-! ## Exact offsets -/

/-- The offsets of a table that is written: after each `Add` the offset is the number of bytes in
    the file, every entry of the index spans its block, and the final size is that of the file. -/
structure OffsetsExact (blockSize : Nat) (bitsPerKey : Int) (es : List Entry) : Prop where
  -- after every record
  running : ∀ es', es' <+: es → ((new blockSize bitsPerKey).addAll es').1.offset.toNat =
    ((new blockSize bitsPerKey).addAll es').2.length
  index_length : (writeTable blockSize bitsPerKey es).1.index.length =
    (blocksOf blockSize es).length
  -- for every entry of the index
  index : ∀ (i : Nat) (x : IndexEntry), (writeTable blockSize bitsPerKey es).1.index[i]? = some x →
    ∃ b rest, (blocksOf blockSize es)[i]? = some b ∧
      (writeTable blockSize bitsPerKey es).2 =
        dataBytes ((blocksOf blockSize es).take i) ++ (blockBytes b ++ rest) ∧
      x.offset.toNat = (dataBytes ((blocksOf blockSize es).take i)).length ∧
      x.length.toNat = (blockBytes b).length
  -- at the end
  fileSize : (writeTable blockSize bitsPerKey es).1.fileSize.toNat =
    (writeTable blockSize bitsPerKey es).2.length

/-- If the size is exact in the end, then the offset has been exact all the time. -/
private theorem running_of_fileSize {es es' : List Entry} (hinit : es' <+: es)
    (hsize : (writeTable blockSize bitsPerKey es).1.fileSize.toNat =
      (writeTable blockSize bitsPerKey es).2.length) :
    ((new blockSize bitsPerKey).addAll es').1.offset.toNat =
      ((new blockSize bitsPerKey).addAll es').2.length := by
  obtain ⟨fs, rfl⟩ := hinit
  obtain ⟨hpending, hadvance⟩ := advance_addAll (pending_new blockSize bitsPerKey) es'
  have hle := hadvance.le
  have hrest := (advance_addAll_finish hpending fs).le
  simp only [writeTable, addAll_append, SSTableWriter.fileSize, List.length_append] at hsize hrest
  have hzero : (new blockSize bitsPerKey).offset.toNat = 0 := rfl
  omega

/-- The offsets are exact if and only if every block fits in 32 bits together with its checksum,
    and the file is shorter than `2 ^ 64` bytes. -/
theorem offsetsExact_iff (blockSize : Nat) (bitsPerKey : Int) (es : List Entry) :
    OffsetsExact blockSize bitsPerKey es ↔
      (∀ b ∈ blocksOf blockSize es, (blockBytes b).length + 4 < 2 ^ 32) ∧
        (writeTable blockSize bitsPerKey es).2.length < 2 ^ 64 := by
  have hfit_iff : (∀ b ∈ blocksOf blockSize es, (blockBytes b).length + 4 < 2 ^ 32) ↔
      BlocksFit (blocksOf blockSize es) := by
    apply forall₂_congr
    intro b _
    omega
  rw [hfit_iff]
  constructor
  · intro h
    constructor
    · -- a block that is too large leaves the offset behind for good
      by_contra hfit
      have hlt := (advance_addAll_finish (pending_new blockSize bitsPerKey) es).lt hfit
      have hsize := h.fileSize
      have hzero : (new blockSize bitsPerKey).offset.toNat = 0 := rfl
      simp only [writeTable, SSTableWriter.fileSize] at hsize
      omega
    · -- the size is a 64-bit value
      rw [← h.fileSize]
      exact UInt64.toNat_lt _
  · rintro ⟨hfit, hlen⟩
    obtain ⟨hbytes, hsize, -, hindex⟩ := writeTable_eq blockSize bitsPerKey es hfit
    have hexact : (writeTable blockSize bitsPerKey es).1.fileSize.toNat =
        (writeTable blockSize bitsPerKey es).2.length := by
      rw [hsize, ← hbytes, toNat_toUInt64_of_lt hlen]
    refine ⟨fun es' hinit => running_of_fileSize hinit hexact, ?_, ?_, hexact⟩
    · rw [hindex, length_indexFrom]
    · intro i x hx
      rw [hindex, getElem?_indexFrom, Option.map_eq_some_iff] at hx
      obtain ⟨b, hb, rfl⟩ := hx
      -- the file up to the block, the block, and the rest
      have hsplit : blocksOf blockSize es =
          (blocksOf blockSize es).take i ++ b :: (blocksOf blockSize es).drop (i + 1) := by
        obtain ⟨hi, rfl⟩ := List.getElem?_eq_some_iff.mp hb
        rw [← List.drop_eq_getElem_cons hi, List.take_append_drop]
      obtain ⟨rest, hfile⟩ : ∃ rest, (writeTable blockSize bitsPerKey es).2 =
          dataBytes ((blocksOf blockSize es).take i) ++ (blockBytes b ++ rest) := by
        have hdata : dataBytes (blocksOf blockSize es) = dataBytes ((blocksOf blockSize es).take i) ++
            (blockBytes b ++ (putFixed32 (crc32 (blockBytes b)) ++
              dataBytes ((blocksOf blockSize es).drop (i + 1)))) := by
          conv_lhs => rw [hsplit]
          rw [dataBytes_append, dataBytes_cons, sectionBytes, List.append_assoc]
        rw [hbytes, tableBytes, hdata, List.append_assoc, List.append_assoc]
        exact ⟨_, rfl⟩
      have hblock := hfit b (List.mem_of_getElem? hb)
      have hinit := congrArg List.length hfile
      rw [List.length_append] at hinit
      refine ⟨b, rest, hb, hfile, ?_, toNat_toUInt32_of_lt (by omega)⟩
      rw [toNat_toUInt64_of_lt (by omega), Nat.zero_add]

/-- A record that fills a block by itself is written at once. -/
private theorem addAll_singleton {e : Entry} (hfull : blockSize ≤ (appendRecord e).length) :
    ((new blockSize bitsPerKey).addAll [e]).2 = sectionBytes (appendRecord e) ∧
      ((new blockSize bitsPerKey).addAll [e]).1.offset =
        ((appendRecord e).length.toUInt32 + 4).toUInt64 := by
  have hne : appendRecord e ≠ [] := List.ne_nil_of_length_pos (by rw [length_appendRecord]; omega)
  simp only [SSTableWriter.addAll, SSTableWriter.add, new, SSTableWriter.flushBlock, if_true,
    List.nil_append, List.append_nil, ge_iff_le, if_pos hfull, if_neg hne, UInt64.zero_add]
  exact ⟨rfl, trivial⟩

/-- A record of `2 ^ 32 - 4` bytes fills a block by itself. The file grows by `2 ^ 32` bytes, and the
    offset stays where it is. -/
theorem offset_not_advanced :
    ∃ e : Entry, ((new 4096 10).addAll [e]).2.length = 2 ^ 32 ∧
      ((new 4096 10).addAll [e]).1.offset = 0 ∧ ¬ OffsetsExact 4096 10 [e] := by
  obtain ⟨value, hvalue⟩ : ∃ value : Bytes, value.length = 2 ^ 32 - 13 :=
    ⟨List.replicate (2 ^ 32 - 13) 0, List.length_replicate⟩
  let e : Entry := ⟨[], value, .value⟩
  -- the block and its checksum have exactly `2 ^ 32` bytes
  have hlen : (appendRecord e).length = 2 ^ 32 - 4 := by
    rw [length_appendRecord]
    show 9 + 0 + value.length = _
    omega
  have hfull : 4096 ≤ (appendRecord e).length := by omega
  obtain ⟨hout, hoffset⟩ := @addAll_singleton 4096 10 e hfull
  have hwritten : ((new 4096 10).addAll [e]).2.length = 2 ^ 32 := by
    rw [hout, length_sectionBytes, hlen, Nat.sub_add_cancel (by decide)]
  have hzero : ((new 4096 10).addAll [e]).1.offset = 0 := by
    rw [hoffset, hlen]
    rfl
  refine ⟨e, hwritten, hzero, fun h => ?_⟩
  have hrunning := h.running [e] List.prefix_rfl
  rw [hwritten, hzero] at hrunning
  exact absurd hrunning (by decide)

end Lsmdb
