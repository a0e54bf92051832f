import Lsmdb.ForStd.Lfsr
import Lsmdb.Native.Checksum

/-!
# CRC32

Two buffers that differ in up to four bytes in a row have different checksums. The top
byte of a table entry names the entry, and the shifted state does not reach that byte
(`crcStep_inj`). So the table entries of four steps can be read off the state behind them,
the last one first, and with these the bytes (`eq_of_foldl_crcStep`); and the bytes that
follow keep different states apart (`foldl_crcStep_inj`).

A step of the loop also is eight shifts of the register that defines CRC-32
(`toBitVec_crcStep`), so that the table-driven checksum is the one that takes the bits of
the data one at a time.
-/

namespace Lsmdb

/-! ## One byte changed -/

/-- `ys` is `xs` with one byte replaced by a different one. -/
def OneByteChanged (xs ys : Bytes) : Prop :=
  ∃ pre a b post, a ≠ b ∧ xs = pre ++ a :: post ∧ ys = pre ++ b :: post

/-- Setting a byte to another value. -/
theorem oneByteChanged_set {xs : Bytes} {pos : Nat} {v : UInt8} (hpos : pos < xs.length)
    (hv : xs[pos]? ≠ some v) : OneByteChanged xs (xs.set pos v) := by
  refine ⟨xs.take pos, xs[pos], v, xs.drop (pos + 1), ?_, ?_, ?_⟩
  · rwa [List.getElem?_eq_getElem hpos, ne_eq, Option.some.injEq] at hv
  · rw [← List.drop_eq_getElem_cons hpos, List.take_append_drop]
  · rw [List.set_eq_take_append_cons_drop, if_pos hpos]

namespace OneByteChanged

variable {xs ys zs : Bytes}

/-- The length stays. -/
theorem length_eq (h : OneByteChanged xs ys) : ys.length = xs.length := by
  obtain ⟨pre, a, b, post, -, rfl, rfl⟩ := h
  simp

/-- The bytes are not the same. -/
theorem ne (h : OneByteChanged xs ys) : ys ≠ xs := by
  obtain ⟨pre, a, b, post, hne, rfl, rfl⟩ := h
  simpa using hne.symm

/-- The changed byte lies in one of the parts of the string. -/
theorem of_append (h : OneByteChanged (xs ++ ys) zs) :
    (∃ xs', OneByteChanged xs xs' ∧ zs = xs' ++ ys) ∨
      ∃ ys', OneByteChanged ys ys' ∧ zs = xs ++ ys' := by
  obtain ⟨pre, a, b, post, hne, heq, rfl⟩ := h
  -- either the first part ends before the changed byte, or it reaches it; with `mid = []` it ends
  -- right there, and the byte is the first of the second part
  rcases List.append_eq_append_iff.mp heq with ⟨mid, rfl, rfl⟩ | ⟨mid, rfl, hmid⟩
  · exact .inr ⟨mid ++ b :: post, ⟨mid, a, b, post, hne, rfl, rfl⟩, by simp⟩
  · cases mid with
    | nil => exact .inr ⟨b :: post, ⟨[], a, b, post, hne, by simpa using hmid.symm, rfl⟩, by simp⟩
    | cons c mid =>
      simp only [List.cons_append, List.cons.injEq] at hmid
      obtain ⟨rfl, rfl⟩ := hmid
      exact .inl ⟨pre ++ b :: mid, ⟨pre, a, b, mid, hne, rfl, rfl⟩, by simp⟩

/-- Of two strings that are cut alike, one part differs. -/
theorem append_cases {xs' ys' : Bytes} (h : OneByteChanged (xs ++ ys) (xs' ++ ys'))
    (hlen : xs'.length = xs.length) :
    OneByteChanged xs xs' ∧ ys' = ys ∨ xs' = xs ∧ OneByteChanged ys ys' := by
  rcases h.of_append with ⟨zs, hzs, heq⟩ | ⟨zs, hzs, heq⟩
  · obtain ⟨rfl, rfl⟩ := List.append_inj heq (hlen.trans hzs.length_eq.symm)
    exact .inl ⟨hzs, rfl⟩
  · obtain ⟨rfl, rfl⟩ := List.append_inj heq hlen
    exact .inr ⟨rfl, hzs⟩

end OneByteChanged

/-! ## The table -/

/-- The index of the table entry that a step uses. -/
private def crcIndex (crc : UInt32) (b : UInt8) : Nat := crc.toNat % 256 ^^^ b.toNat

private def topByte (c : UInt32) : UInt32 := c >>> 24

/-- One step of the checksum, with the table looked up by the mixed low byte. -/
private theorem crcStep_eq (crc : UInt32) (b : UInt8) :
    crcStep crc b = buildTable.getD (crcIndex crc b) 0 ^^^ (crc >>> 8) := by
  have hidx : ((crc ^^^ b.toUInt32) &&& 0xff).toNat = crcIndex crc b := by
    have hb : b.toNat % 2 ^ 8 = b.toNat := Nat.mod_eq_of_lt b.toNat_lt
    rw [UInt32.toNat_and, UInt32.toNat_xor, UInt8.toNat_toUInt32,
      show UInt32.toNat 0xff = 2 ^ 8 - 1 from rfl, Nat.and_two_pow_sub_one_eq_mod,
      Nat.xor_mod_two_pow, hb, crcIndex]
  rw [crcStep, hidx]

/-- The index of the table is a byte. -/
private theorem crcIndex_lt (crc : UInt32) (b : UInt8) : crcIndex crc b < 2 ^ 8 :=
  Nat.xor_lt_two_pow (Nat.mod_lt _ (by decide)) b.toNat_lt

/-- A round of `BuildTable` backwards. -/
private def unround (c : UInt32) : UInt32 :=
  if c >>> 31 ≠ 0 then ((c ^^^ kPoly) <<< 1) ||| 1 else c <<< 1

/-- The rounds of `BuildTable` backwards, from the top byte of an entry to its index. -/
private def indexOfTop (t : UInt32) : Nat :=
  ((List.range 8).foldl (fun c _ => unround c) (t <<< 24)).toNat % 256

/-- The top byte of a table entry names the entry. -/
private theorem map_indexOfTop :
    buildTable.map (fun e => indexOfTop (topByte e)) = List.range 256 := by
  decide +kernel

/-- The shifted state does not reach the top byte. -/
private theorem topByte_crcStep (crc : UInt32) (b : UInt8) :
    topByte (crcStep crc b) = topByte (buildTable.getD (crcIndex crc b) 0) := by
  have hzero : (crc >>> 8) >>> 24 = 0 := by
    have := crc.toNat_lt
    rw [← UInt32.toNat_inj]
    simp [Nat.shiftRight_eq_div_pow]
    omega
  rw [crcStep_eq, topByte, UInt32.shiftRight_xor, hzero, UInt32.xor_zero, topByte]

/-- The top byte of the new state tells which entry of the table was used. -/
private theorem indexOfTop_crcStep (crc : UInt32) (b : UInt8) :
    indexOfTop (topByte (crcStep crc b)) = crcIndex crc b := by
  have hlt : crcIndex crc b < 256 := crcIndex_lt crc b
  have hget : (buildTable.map fun e => indexOfTop (topByte e))[crcIndex crc b]? =
      some (crcIndex crc b) := by
    rw [map_indexOfTop, List.getElem?_range hlt]
  rw [List.getElem?_map, Option.map_eq_some_iff] at hget
  obtain ⟨e, he, hidx⟩ := hget
  rw [topByte_crcStep, List.getD_eq_getElem?_getD, he]
  exact hidx

/-- The bytes of a step above the lowest `j` determine the table entry that was used, and all but
    the lowest `j + 1` bytes of the state before. -/
private theorem crcStep_inj {c c' : UInt32} {b b' : UInt8} {j : Nat} (hj : j ≤ 3)
    (h : (crcStep c b).toNat >>> (8 * j) = (crcStep c' b').toNat >>> (8 * j)) :
    crcIndex c b = crcIndex c' b' ∧ c.toNat >>> (8 * (j + 1)) = c'.toNat >>> (8 * (j + 1)) := by
  have htop : topByte (crcStep c b) = topByte (crcStep c' b') := by
    have hshift (x : UInt32) : (topByte x).toNat = x.toNat >>> (8 * j) >>> (24 - 8 * j) := by
      rw [← Nat.shiftRight_add, show 8 * j + (24 - 8 * j) = 24 by omega]
      rfl
    rw [← UInt32.toNat_inj, hshift, hshift, h]
  have hidx : crcIndex c b = crcIndex c' b' := by
    rw [← indexOfTop_crcStep, htop, indexOfTop_crcStep]
  refine ⟨hidx, ?_⟩
  -- both steps used the same table entry, so it cancels and the shifted states are left
  rw [crcStep_eq, crcStep_eq, hidx, UInt32.toNat_xor, UInt32.toNat_xor, Nat.shiftRight_xor_distrib,
    Nat.shiftRight_xor_distrib, Nat.xor_right_inj] at h
  rw [show 8 * (j + 1) = 8 + 8 * j by omega, Nat.shiftRight_add, Nat.shiftRight_add]
  exact h

/-- The state after a byte determines the state before it. -/
private theorem crcStep_left_inj {c c' : UInt32} {b : UInt8} (h : crcStep c b = crcStep c' b) : c = c' := by
  obtain ⟨hlow, hhigh⟩ := @crcStep_inj c c' b b 0 (by decide) (by rw [h])
  -- the index gives the low byte of the state, the shift the other three
  have hmod : c.toNat % 256 = c'.toNat % 256 := Nat.xor_left_inj.mp hlow
  rw [Nat.shiftRight_eq_div_pow, Nat.shiftRight_eq_div_pow] at hhigh
  rw [← UInt32.toNat_inj]
  omega

/-! ## Detection -/

/-- The bytes that follow keep two different states apart. -/
private theorem foldl_crcStep_inj {c c' : UInt32} (data : Bytes)
    (h : data.foldl crcStep c = data.foldl crcStep c') : c = c' := by
  induction data generalizing c c' with
  | nil => exact h
  | cons b data ih => exact crcStep_left_inj (ih h)

/-- The bytes of the state above the lowest `j` determine the `4 - j` bytes that led to it. The
    induction is on the last byte: it is found from its table entry once the bytes before it are
    known. -/
private theorem eq_of_foldl_crcStep {c : UInt32} {xs ys : Bytes} {j : Nat} (hlen : xs.length = ys.length)
    (hj : xs.length + j ≤ 4)
    (h : (xs.foldl crcStep c).toNat >>> (8 * j) = (ys.foldl crcStep c).toNat >>> (8 * j)) :
    xs = ys := by
  -- induction from the last byte, which is the one that the top of the state tells
  induction xs using List.reverseRecOn generalizing ys j with
  | nil => exact (List.length_eq_zero_iff.mp hlen.symm).symm
  | append_singleton xs x ih =>
    rcases List.eq_nil_or_concat' ys with rfl | ⟨ys, y, rfl⟩
    · simp at hlen
    · rw [List.length_append, List.length_singleton] at hj
      rw [List.foldl_concat, List.foldl_concat] at h
      obtain ⟨hidx, hstate⟩ := crcStep_inj (by omega) h
      obtain rfl := ih (by simpa using hlen) (by omega) hstate
      have hbyte : x = y := UInt8.toNat_inj.mp (Nat.xor_right_inj.mp hidx)
      rw [hbyte]

/-- Up to four bytes can be recovered from the checksum and what surrounds them. -/
private theorem eq_of_crc32_eq {p xs ys s : Bytes} (hlen : xs.length = ys.length) (h4 : xs.length ≤ 4)
    (h : crc32 (p ++ xs ++ s) = crc32 (p ++ ys ++ s)) : xs = ys := by
  simp only [crc32, List.foldl_append, UInt32.xor_left_inj] at h
  have hstate := foldl_crcStep_inj s h
  exact eq_of_foldl_crcStep (j := 0) hlen h4 (by rw [hstate])

/-- A change of one byte changes the checksum. -/
theorem OneByteChanged.crc32_ne {xs ys : Bytes} (h : OneByteChanged xs ys) :
    crc32 ys ≠ crc32 xs := by
  obtain ⟨pre, a, b, post, hne, rfl, rfl⟩ := h
  intro heq
  have hbytes : [b] = [a] := by
    apply @eq_of_crc32_eq pre [b] [a] post rfl (by simp)
    simpa using heq
  exact hne (List.singleton_inj.mp hbytes).symm

/-- CRC32 detects every burst of up to four bytes, whatever surrounds it. -/
theorem crc32_burst_ne {p s w w' : Bytes} (hlen : w.length = w'.length) (h4 : w.length ≤ 4)
    (hne : w ≠ w') : crc32 (p ++ w ++ s) ≠ crc32 (p ++ w' ++ s) :=
  fun h => hne (eq_of_crc32_eq hlen h4 h)

/-- Four bytes in another order. -/
theorem crc32_burst_ne_swapped :
    crc32 ([1, 2] ++ [3, 4, 5, 6] ++ [7]) ≠ crc32 ([1, 2] ++ [6, 5, 4, 3] ++ [7]) :=
  crc32_burst_ne rfl (by decide) (by decide)

/-! ## The bitwise definition -/

/-- The register of the checksum. -/
private def crcShift : BitVec 32 → BitVec 32 := Lfsr.shift kPoly.toBitVec

/-- One round of the table is one shift of the register. -/
private theorem toBitVec_tableRound (c : UInt32) :
    (tableRound c).toBitVec = crcShift c.toBitVec := by
  -- the test of the lowest bit
  have hbit : c &&& 1 ≠ 0 ↔ c.toBitVec.getLsbD 0 = true := by
    rw [ne_eq, ← UInt32.toBitVec_inj, UInt32.toBitVec_and]
    show ¬ c.toBitVec &&& 1#32 = 0#32 ↔ _
    rw [BitVec.and_one_eq_setWidth_ofBool_getLsbD]
    cases c.toBitVec.getLsbD 0 <;> simp
  rw [tableRound, crcShift, Lfsr.shift]
  by_cases h : c.toBitVec.getLsbD 0 = true
  · rw [if_pos (hbit.mpr h), if_pos h]
    rfl
  · rw [if_neg (mt hbit.mp h), if_neg h]
    rfl

/-- The table holds the register after eight shifts of its index. -/
private theorem getD_buildTable {i : Nat} (hi : i < 256) :
    (buildTable.getD i 0).toBitVec = crcShift^[8] i.toUInt32.toBitVec := by
  have hround (n : Nat) (c : UInt32) : (tableRound^[n] c).toBitVec = crcShift^[n] c.toBitVec := by
    induction n with
    | zero => rfl
    | succ n ih =>
      rw [Function.iterate_succ_apply', Function.iterate_succ_apply', toBitVec_tableRound, ih]
  have hget : buildTable.getD i 0 = tableRound^[8] i.toUInt32 := by
    rw [buildTable, List.getD_eq_getElem?_getD, List.getElem?_map, List.getElem?_range hi]
    exact List.foldl_const ..
  rw [hget, hround]

/-- A byte is shifted out by eight places. -/
private theorem ushiftRight_eight {c : UInt32} (h : c.toNat < 256) : c.toBitVec >>> 8 = 0#32 := by
  apply BitVec.eq_of_toNat_eq
  rw [BitVec.toNat_ushiftRight, UInt32.toNat_toBitVec, Nat.shiftRight_eq_div_pow,
    Nat.div_eq_of_lt h]
  rfl

/-- A byte is below 256 in any width. -/
private theorem toNat_toUInt32_lt (b : UInt8) : b.toUInt32.toNat < 256 := by
  rw [UInt8.toNat_toUInt32]
  exact b.toNat_lt

/-- A step of the loop shifts the register eight times. -/
private theorem toBitVec_crcStep (crc : UInt32) (b : UInt8) :
    (crcStep crc b).toBitVec = crcShift^[8] (crc ^^^ b.toUInt32).toBitVec := by
  set d := crc ^^^ b.toUInt32 with hd
  have hlow : (d &&& 0xff).toNat.toUInt32 = d &&& 0xff := UInt32.ofNat_toNat
  have hlt : (d &&& 0xff).toNat < 256 := by
    rw [UInt32.toNat_and]
    exact Nat.lt_of_le_of_lt Nat.and_le_right (by decide)
  have hsplit := Lfsr.iterate_shift_eq kPoly.toBitVec (n := 8) (a := (d &&& 0xff).toBitVec)
    (d := d.toBitVec) (by
      intro i hi
      rw [UInt32.toBitVec_and, BitVec.getLsbD_and]
      interval_cases i <;> simp)
  -- nothing is left of the index, and the byte does not reach above it
  have hindex : (d &&& 0xff).toBitVec >>> 8 = 0#32 := ushiftRight_eight hlt
  have hhigh : d.toBitVec >>> 8 = (crc >>> 8).toBitVec := by
    rw [hd, UInt32.toBitVec_xor, BitVec.ushiftRight_xor_distrib,
      ushiftRight_eight (toNat_toUInt32_lt b), BitVec.xor_zero]
    rfl
  rw [crcStep, UInt32.toBitVec_xor, getD_buildTable hlt, hlow, ← hhigh]
  rw [hindex, BitVec.xor_zero] at hsplit
  calc crcShift^[8] (d &&& 0xff).toBitVec ^^^ d.toBitVec >>> 8
      = crcShift^[8] d.toBitVec ^^^ d.toBitVec >>> 8 ^^^ d.toBitVec >>> 8 := by
        rw [crcShift, hsplit]
    _ = crcShift^[8] d.toBitVec := by rw [BitVec.xor_assoc, BitVec.xor_self, BitVec.xor_zero]

/-- CRC-32 one bit at a time: the bits of each byte, least significant first, enter a register with
    the reflected polynomial that starts with all ones and is complemented at the end. -/
def bitwiseCrc32 (data : Bytes) : UInt32 :=
  .ofBitVec (~~~ (data.flatMap fun b => Lfsr.lowBits 8 b.toBitVec).foldl
    (Lfsr.feed 0xEDB88320#32) 0xFFFFFFFF#32)

/-- The bytes of the message are fed to the register bit by bit, the lowest first. -/
private theorem foldl_crcStep_eq (c : UInt32) (data : Bytes) :
    (data.foldl crcStep c).toBitVec =
      (data.flatMap fun b => Lfsr.lowBits 8 b.toBitVec).foldl (Lfsr.feed 0xEDB88320#32)
        c.toBitVec := by
  induction data generalizing c with
  | nil => rfl
  | cons b data ih =>
    -- the low eight bits are those of the byte
    have hbits : Lfsr.lowBits 8 b.toBitVec = Lfsr.lowBits 8 b.toUInt32.toBitVec := by
      rw [Lfsr.lowBits, Lfsr.lowBits, List.map_inj_left]
      intro i hi
      have hi : i < 8 := List.mem_range.mp hi
      simp [show i < 32 by omega]
    rw [List.foldl_cons, ih, toBitVec_crcStep, List.flatMap_cons, List.foldl_append, hbits,
      Lfsr.foldl_feed, ushiftRight_eight (toNat_toUInt32_lt b), BitVec.xor_zero]
    rfl

/-- The table of `Crc32` does not change the checksum. -/
theorem crc32_eq_bitwiseCrc32 (data : Bytes) : crc32 data = bitwiseCrc32 data := by
  rw [crc32, bitwiseCrc32, ← UInt32.toBitVec_inj, UInt32.toBitVec_xor, foldl_crcStep_eq]
  exact BitVec.xor_allOnes

/-- The check value of CRC-32: the digits from 1 to 9. -/
example : crc32 [0x31, 0x32, 0x33, 0x34, 0x35, 0x36, 0x37, 0x38, 0x39] = 0xCBF43926 := by
  decide +kernel

end Lsmdb
