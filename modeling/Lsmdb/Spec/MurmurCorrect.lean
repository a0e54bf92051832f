import Lsmdb.ForStd.WordMix
import Lsmdb.Native.Checksum

/-!
# MurmurHash3 loses no difference within a block

Every stage of `MurmurHash3_x64_128` can be undone: multiplications by odd constants,
rotations, shifts that are xored in, and additions of one half to the other. So the two
halves behind a stage determine the two halves before it, and the 16 bytes that a stage
mixes in as well. Two strings of one length that differ within one block, or within the
bytes behind the last whole block, have different hashes.
-/

namespace Lsmdb

/-! ## Words -/

/-- Multiplication by an odd constant loses nothing. -/
private theorem mul_inj {m inv : UInt64} (h : m * inv = 1) {x y : UInt64} (heq : x * m = y * m) :
    x = y := by
  have hinv : m.toBitVec * inv.toBitVec = 1#64 := congrArg UInt64.toBitVec h
  exact UInt64.toBitVec_inj.mp (WordMix.mul_injective hinv (congrArg UInt64.toBitVec heq))

/-- Nor does `x ^= x >> 33`. -/
private theorem xorShift_inj {x y : UInt64} (heq : x ^^^ (x >>> 33) = y ^^^ (y >>> 33)) : x = y :=
  UInt64.toBitVec_inj.mp <| WordMix.xorShift_injective (s := 33) (by decide)
    (congrArg UInt64.toBitVec heq)

/-- Nor does a rotation. -/
private theorem rotl64_inj {r : UInt64} (hr : r = 27 ∨ r = 31 ∨ r = 33) {x y : UInt64}
    (heq : rotl64 x r = rotl64 y r) : x = y := by
  have hrot (z : UInt64) : (rotl64 z r).toBitVec = z.toBitVec.rotateLeft r.toNat := by
    rcases hr with rfl | rfl | rfl <;> rfl
  apply UInt64.toBitVec_inj.mp
  apply WordMix.rotateLeft_injective r.toNat
  show x.toBitVec.rotateLeft r.toNat = y.toBitVec.rotateLeft r.toNat
  rw [← hrot, ← hrot, heq]

/-- The inverse of the first constant modulo `2 ^ 64`. -/
private theorem murmurC1_inv : murmurC1 * 0xa98409e882ce4d7d = 1 := by decide

/-- The inverse of the second one. -/
private theorem murmurC2_inv : murmurC2 * 0xa81e14edd9de2c7f = 1 := by decide

/-- The mixing of the first word of a block. -/
private theorem mixK1_injective : Function.Injective mixK1 := fun _ _ h =>
  mul_inj murmurC1_inv (rotl64_inj (by decide) (mul_inj murmurC2_inv h))

/-- The mixing of the second word of a block. -/
private theorem mixK2_injective : Function.Injective mixK2 := fun _ _ h =>
  mul_inj murmurC2_inv (rotl64_inj (by decide) (mul_inj murmurC1_inv h))

/-- The final mixing of a half of the state. -/
private theorem fmix64_injective : Function.Injective fmix64 := by
  intro x y h
  have h₁ := xorShift_inj h
  have h₂ := mul_inj (show 0xc4ceb9fe1a85ec53 * 0x9cb4b2f8129337db = (1 : UInt64) by decide) h₁
  have h₃ := xorShift_inj h₂
  have h₄ := mul_inj (show 0xff51afd7ed558ccd * 0x4f74430c22a54005 = (1 : UInt64) by decide) h₃
  exact xorShift_inj h₄

/-! ## The body -/

/-- The halves behind a block determine what was multiplied, rotated and added. -/
private theorem murmurBlock_eq {h h' : UInt64 × UInt64} {k1 k2 k1' k2' : UInt64}
    (heq : murmurBlock h k1 k2 = murmurBlock h' k1' k2') :
    rotl64 (h.1 ^^^ mixK1 k1) 27 + h.2 = rotl64 (h'.1 ^^^ mixK1 k1') 27 + h'.2 ∧
      h.2 ^^^ mixK2 k2 = h'.2 ^^^ mixK2 k2' := by
  have hfive : (5 : UInt64) * 0xcccccccccccccccd = 1 := by decide
  obtain ⟨hfst, hsnd⟩ := Prod.mk.inj heq
  rw [hfst] at hsnd
  have hmul := mul_inj hfive ((UInt64.add_left_inj _).mp hsnd)
  exact ⟨mul_inj hfive ((UInt64.add_left_inj _).mp hfst),
    rotl64_inj (by decide) ((UInt64.add_left_inj _).mp hmul)⟩

/-- A block does not make two states equal. -/
private theorem murmurBlock_injective (k1 k2 : UInt64) :
    Function.Injective fun h => murmurBlock h k1 k2 := by
  intro h h' heq
  obtain ⟨hfst, hsnd⟩ := murmurBlock_eq heq
  have hsnd : h.2 = h'.2 := (UInt64.xor_left_inj _).mp hsnd
  rw [hsnd, UInt64.add_left_inj] at hfst
  have hfst : h.1 = h'.1 := (UInt64.xor_left_inj _).mp (rotl64_inj (by decide) hfst)
  exact Prod.ext hfst hsnd

/-- A block mixes in both of its words. -/
private theorem words_of_murmurBlock {h : UInt64 × UInt64} {k1 k2 k1' k2' : UInt64}
    (heq : murmurBlock h k1 k2 = murmurBlock h k1' k2') : k1 = k1' ∧ k2 = k2' := by
  obtain ⟨hfst, hsnd⟩ := murmurBlock_eq heq
  have hrot := rotl64_inj (by decide) ((UInt64.add_left_inj _).mp hfst)
  exact ⟨mixK1_injective ((UInt64.xor_right_inj _).mp hrot),
    mixK2_injective ((UInt64.xor_right_inj _).mp hsnd)⟩

/-- A word depends on its eight bytes. -/
private theorem getBlock64_congr {p q : Bytes} {i : Nat}
    (h : ∀ j, i * 8 ≤ j → j < i * 8 + 8 → p[j]? = q[j]?) : getBlock64 p i = getBlock64 q i := by
  have hbytes : (p.drop (i * 8)).take 8 = (q.drop (i * 8)).take 8 := by
    apply List.ext_getElem?
    intro j
    rw [List.getElem?_take, List.getElem?_take]
    split
    · rw [List.getElem?_drop, List.getElem?_drop]
      exact h _ (by omega) (by omega)
    · rfl
  rw [getBlock64, getBlock64, hbytes]

/-- A word that is there determines its eight bytes. -/
private theorem bytes_of_getBlock64 {p q : Bytes} {i : Nat} (hp : i * 8 + 8 ≤ p.length)
    (hq : i * 8 + 8 ≤ q.length) (h : getBlock64 p i = getBlock64 q i) {j : Nat}
    (hlo : i * 8 ≤ j) (hhi : j < i * 8 + 8) : p[j]? = q[j]? := by
  -- eight bytes fit the word
  have hlt {b : Bytes} (hb : b.length = 8) : leValue b < 2 ^ 64 := by
    have := leValue_lt b
    rwa [hb] at this
  have hlenP : ((p.drop (i * 8)).take 8).length = 8 := by simp; omega
  have hlenQ : ((q.drop (i * 8)).take 8).length = 8 := by simp; omega
  have hvalue : leValue ((p.drop (i * 8)).take 8) = leValue ((q.drop (i * 8)).take 8) := by
    have := congrArg UInt64.toNat h
    rwa [getBlock64, getBlock64, UInt64.toNat_ofNat_of_lt' (hlt hlenP),
      UInt64.toNat_ofNat_of_lt' (hlt hlenQ)] at this
  have hbytes := congrArg (·[j - i * 8]?) (leValue_inj (hlenP.trans hlenQ.symm) hvalue)
  simp only [List.getElem?_take, List.getElem?_drop, show j - i * 8 < 8 by omega, if_true] at hbytes
  rwa [show i * 8 + (j - i * 8) = j by omega] at hbytes

/-! ## The tail -/

/-- A byte of the tail, zero if there is none. -/
private theorem tailByte_eq (tail : Bytes) (i : Nat) (s : UInt64) :
    tailByte tail i s = (tail.getD i 0).toUInt64 <<< s := by
  rw [tailByte, List.getD_eq_getElem?_getD]
  cases tail[i]? with
  | none => simp
  | some b => rfl

/-- Setting the low byte by `^=`. -/
private theorem mul_256_xor (v : Nat) (b : UInt8) : v * 256 ^^^ b.toNat = v * 256 + b.toNat := by
  apply Nat.eq_of_testBit_eq
  intro i
  -- bit by bit: the byte has the low eight, the product the others
  have hb : b.toNat < 2 ^ 8 := b.toNat_lt
  have hadd := Nat.testBit_two_pow_mul_add v hb i
  have hmul := Nat.testBit_two_pow_mul_add v (show 0 < 2 ^ 8 by decide) i
  rw [Nat.mul_comm v 256, Nat.testBit_xor, show 256 = 2 ^ 8 from rfl, hadd]
  rw [Nat.add_zero] at hmul
  rw [hmul]
  split
  · simp
  · rename_i hi
    rw [Nat.testBit_lt_two_pow (hb.trans_le (Nat.pow_le_pow_right (by decide) (by omega))),
      Bool.xor_false]

/-- A byte that is xored in below the bytes that are there. -/
private theorem toNat_xor_byte {x s : UInt64} {v : Nat} (hx : x.toNat = v * 2 ^ (s.toNat + 8))
    (hs : s.toNat + 8 ≤ 64) (b : UInt8) :
    (x ^^^ (b.toUInt64 <<< s)).toNat = (v * 256 + b.toNat) * 2 ^ s.toNat := by
  -- the byte is not shifted out
  have hb : b.toNat * 2 ^ s.toNat < 2 ^ 64 := by
    calc b.toNat * 2 ^ s.toNat < 2 ^ 8 * 2 ^ s.toNat :=
          Nat.mul_lt_mul_of_pos_right b.toNat_lt (Nat.two_pow_pos _)
      _ = 2 ^ (s.toNat + 8) := by rw [Nat.pow_add, Nat.mul_comm]
      _ ≤ 2 ^ 64 := Nat.pow_le_pow_right (by decide) hs
  have hbyte : (b.toUInt64 <<< s).toNat = b.toNat * 2 ^ s.toNat := by
    rw [UInt64.toNat_shiftLeft, UInt8.toNat_toUInt64, Nat.mod_eq_of_lt (show s.toNat < 64 by omega),
      Nat.shiftLeft_eq, Nat.mod_eq_of_lt hb]
  -- the words do not overlap, so the exclusive or is a sum
  calc (x ^^^ (b.toUInt64 <<< s)).toNat
      = (v * 256) <<< s.toNat ^^^ b.toNat <<< s.toNat := by
        rw [UInt64.toNat_xor, hbyte, hx, Nat.shiftLeft_eq, Nat.shiftLeft_eq, Nat.pow_add,
          Nat.mul_comm (2 ^ s.toNat), ← Nat.mul_assoc]
    _ = (v * 256 + b.toNat) * 2 ^ s.toNat := by
        rw [← Nat.shiftLeft_xor_distrib, mul_256_xor, Nat.shiftLeft_eq]

/-- The bytes of a tail from a position on, with zeros behind its end. -/
private def tailBytes (tail : Bytes) (lo n : Nat) : Bytes := (List.range' lo n).map (tail.getD · 0)

/-- The first byte of a word of the tail. -/
private theorem toNat_tailByte (tail : Bytes) (i : Nat) {s : UInt64} (hs : s.toNat + 8 ≤ 64) :
    (tailByte tail i s).toNat = (tail.getD i 0).toNat * 2 ^ s.toNat := by
  have h := @toNat_xor_byte 0 s 0 (by simp) hs (tail.getD i 0)
  rwa [UInt64.zero_xor, ← tailByte_eq, Nat.zero_mul, Nat.zero_add] at h

/-- Each of the further ones. -/
private theorem toNat_xor_tailByte {x s : UInt64} {v : Nat} (tail : Bytes) (i : Nat)
    (hx : x.toNat = v * 2 ^ (s.toNat + 8)) (hs : s.toNat + 8 ≤ 64) :
    (x ^^^ tailByte tail i s).toNat = (v * 256 + (tail.getD i 0).toNat) * 2 ^ s.toNat := by
  rw [tailByte_eq]
  exact toNat_xor_byte hx hs _

/-- The first eight bytes of the tail, as the cases 8 down to 1 collect them. -/
private def tailK1 (tail : Bytes) : UInt64 :=
  tailByte tail 7 56 ^^^ tailByte tail 6 48 ^^^ tailByte tail 5 40 ^^^ tailByte tail 4 32 ^^^
    tailByte tail 3 24 ^^^ tailByte tail 2 16 ^^^ tailByte tail 1 8 ^^^ tailByte tail 0 0

/-- The other bytes, as the cases 15 down to 9 collect them. -/
private def tailK2 (tail : Bytes) : UInt64 :=
  tailByte tail 14 48 ^^^ tailByte tail 13 40 ^^^ tailByte tail 12 32 ^^^ tailByte tail 11 24 ^^^
    tailByte tail 10 16 ^^^ tailByte tail 9 8 ^^^ tailByte tail 8 0

/-- The fall-through of the `switch` mixes the words that have a byte. -/
private theorem murmurTail_eq (h : UInt64 × UInt64) (tail : Bytes) :
    murmurTail h tail =
      (if 1 ≤ tail.length then h.1 ^^^ mixK1 (tailK1 tail) else h.1,
        if 9 ≤ tail.length then h.2 ^^^ mixK2 (tailK2 tail) else h.2) := rfl

/-- The first word of the tail, in little-endian order. -/
private theorem toNat_tailK1 (tail : Bytes) : (tailK1 tail).toNat = leValue (tailBytes tail 0 8) := by
  -- from the last byte to the first, as the cases of the `switch` fall through
  have h7 := toNat_tailByte tail 7 (show (56 : UInt64).toNat + 8 ≤ 64 by decide)
  have h6 := toNat_xor_tailByte (s := 48) tail 6 h7 (by decide)
  have h5 := toNat_xor_tailByte (s := 40) tail 5 h6 (by decide)
  have h4 := toNat_xor_tailByte (s := 32) tail 4 h5 (by decide)
  have h3 := toNat_xor_tailByte (s := 24) tail 3 h4 (by decide)
  have h2 := toNat_xor_tailByte (s := 16) tail 2 h3 (by decide)
  have h1 := toNat_xor_tailByte (s := 8) tail 1 h2 (by decide)
  have h0 := toNat_xor_tailByte (s := 0) tail 0 h1 (by decide)
  rw [tailK1, h0]
  simp only [tailBytes, List.range', List.map_cons, List.map_nil, leValue, UInt64.toNat_zero,
    Nat.zero_add, Nat.reduceAdd]
  ring

/-- The second word of the tail, in little-endian order. -/
private theorem toNat_tailK2 (tail : Bytes) : (tailK2 tail).toNat = leValue (tailBytes tail 8 7) := by
  have h14 := toNat_tailByte tail 14 (show (48 : UInt64).toNat + 8 ≤ 64 by decide)
  have h13 := toNat_xor_tailByte (s := 40) tail 13 h14 (by decide)
  have h12 := toNat_xor_tailByte (s := 32) tail 12 h13 (by decide)
  have h11 := toNat_xor_tailByte (s := 24) tail 11 h12 (by decide)
  have h10 := toNat_xor_tailByte (s := 16) tail 10 h11 (by decide)
  have h9 := toNat_xor_tailByte (s := 8) tail 9 h10 (by decide)
  have h8 := toNat_xor_tailByte (s := 0) tail 8 h9 (by decide)
  rw [tailK2, h8]
  simp only [tailBytes, List.range', List.map_cons, List.map_nil, leValue, UInt64.toNat_zero,
    Nat.reduceAdd]
  ring

/-- The tail does not make two states equal. -/
private theorem murmurTail_injective (tail : Bytes) : Function.Injective fun h => murmurTail h tail := by
  intro h h' heq
  have heq : murmurTail h tail = murmurTail h' tail := heq
  rw [murmurTail_eq, murmurTail_eq, Prod.mk.injEq] at heq
  apply Prod.ext
  -- each half is mixed in by an exclusive or with something that depends on the tail only
  · have hfst := heq.1
    split at hfst
    · exact (UInt64.xor_left_inj _).mp hfst
    · exact hfst
  · have hsnd := heq.2
    split at hsnd
    · exact (UInt64.xor_left_inj _).mp hsnd
    · exact hsnd

/-- Equal words of the tail have equal bytes. -/
private theorem getD_of_tailBytes {tail tail' : Bytes} {lo n j : Nat}
    (h : leValue (tailBytes tail lo n) = leValue (tailBytes tail' lo n)) (hlo : lo ≤ j)
    (hhi : j < lo + n) : tail.getD j 0 = tail'.getD j 0 := by
  have hbytes : tailBytes tail lo n = tailBytes tail' lo n := leValue_inj (by simp [tailBytes]) h
  exact List.map_inj_left.mp hbytes j (List.mem_range'_1.mpr ⟨hlo, hhi⟩)

/-- The tail mixes in all of its bytes. -/
private theorem tail_of_murmurTail {h : UInt64 × UInt64} {tail tail' : Bytes}
    (hlen : tail.length = tail'.length) (h16 : tail.length < 16)
    (heq : murmurTail h tail = murmurTail h tail') : tail = tail' := by
  rw [murmurTail_eq, murmurTail_eq, Prod.mk.injEq, ← hlen] at heq
  have hbyte (j : Nat) (hj : j < tail.length) : tail.getD j 0 = tail'.getD j 0 := by
    -- the low eight bytes are in the first word, the others in the second
    by_cases hj8 : j < 8
    · have hfst := heq.1
      rw [if_pos (by omega), if_pos (by omega), UInt64.xor_right_inj] at hfst
      have hk := congrArg UInt64.toNat (mixK1_injective hfst)
      rw [toNat_tailK1, toNat_tailK1] at hk
      exact getD_of_tailBytes hk (Nat.zero_le j) (by omega)
    · have hsnd := heq.2
      rw [if_pos (by omega), if_pos (by omega), UInt64.xor_right_inj] at hsnd
      have hk := congrArg UInt64.toNat (mixK2_injective hsnd)
      rw [toNat_tailK2, toNat_tailK2] at hk
      exact getD_of_tailBytes hk (by omega) (by omega)
  apply List.ext_getElem hlen
  intro j hj hj'
  have hget := hbyte j hj
  rwa [List.getD_eq_getElem _ _ hj, List.getD_eq_getElem _ _ hj'] at hget

/-! ## The hash -/

/-- The finalization, for a string of the given length. -/
private def finalize (len : UInt64) (h : UInt64 × UInt64) : UInt64 × UInt64 :=
  let h1 := (h.1 ^^^ len) + (h.2 ^^^ len)
  let h2 := (h.2 ^^^ len) + h1
  (fmix64 h1 + fmix64 h2, fmix64 h2 + (fmix64 h1 + fmix64 h2))

/-- The finalization does not make two states equal. -/
private theorem finalize_injective (len : UInt64) : Function.Injective (finalize len) := by
  intro h h' heq
  obtain ⟨hfst, hsnd⟩ := Prod.mk.inj heq
  -- the second half of each sum is what was added to the first
  rw [hfst, UInt64.add_left_inj] at hsnd
  rw [hsnd, UInt64.add_left_inj] at hfst
  have h1 := fmix64_injective hfst
  have h2 := fmix64_injective hsnd
  rw [h1, UInt64.add_left_inj] at h2
  rw [h2, UInt64.add_left_inj] at h1
  exact Prod.ext ((UInt64.xor_left_inj _).mp h1) ((UInt64.xor_left_inj _).mp h2)

/-- The turn of the body for block `i`. -/
private def bodyTurn (data : Bytes) (i : Nat) (h : UInt64 × UInt64) : UInt64 × UInt64 :=
  murmurBlock h (getBlock64 data (i * 2)) (getBlock64 data (i * 2 + 1))

/-- The hash in its three stages: the blocks, the tail and the finalization. -/
private theorem murmurHash3_eq (data : Bytes) (seed : UInt32) :
    murmurHash3 data seed = finalize data.length.toUInt64 (murmurTail
      ((List.range (data.length / 16)).foldl (fun h i => bodyTurn data i h)
        (seed.toUInt64, seed.toUInt64)) (data.drop (data.length / 16 * 16))) := rfl

/-- Two strings of one length that differ within one aligned block of 16 bytes only, which may be
    the part behind the last whole block, have different hashes. -/
theorem murmurHash3_ne {data data' : Bytes} (hlen : data.length = data'.length)
    (hne : data ≠ data') {i : Nat} (hblock : ∀ j, data[j]? ≠ data'[j]? → j / 16 = i)
    (seed : UInt32) : murmurHash3 data seed ≠ murmurHash3 data' seed := by
  -- outside of the block the keys are the same
  have hsame (j : Nat) (hj : j / 16 ≠ i) : data[j]? = data'[j]? :=
    not_not.mp (mt (hblock j) hj)
  have hturn (j : Nat) (hj : j ≠ i) : bodyTurn data j = bodyTurn data' j := by
    funext h
    rw [bodyTurn, bodyTurn, getBlock64_congr fun k hlo hhi => hsame k (by omega),
      getBlock64_congr fun k hlo hhi => hsame k (by omega)]
  intro heq
  rw [murmurHash3_eq, murmurHash3_eq, ← hlen] at heq
  have htail := finalize_injective _ heq
  by_cases hi : i < data.length / 16
  · -- the tails are the same, and the block has told the loops apart
    have hdrop : data.drop (data.length / 16 * 16) = data'.drop (data.length / 16 * 16) := by
      apply List.ext_getElem?
      intro j
      rw [List.getElem?_drop, List.getElem?_drop]
      exact hsame _ (by omega)
    rw [hdrop] at htail
    refine WordMix.foldl_range_ne (fun j => murmurBlock_injective _ _) hturn (fun h hh => hne ?_)
      hi _ (murmurTail_injective _ htail)
    obtain ⟨h1, h2⟩ := words_of_murmurBlock hh
    apply List.ext_getElem?
    intro j
    by_cases hj : j / 16 = i
    · by_cases hlow : j % 16 < 8
      · exact bytes_of_getBlock64 (by omega) (by omega) h1 (by omega) (by omega)
      · exact bytes_of_getBlock64 (by omega) (by omega) h2 (by omega) (by omega)
    · exact hsame j hj
  · -- the loops do the same, so the tails are the same too
    rw [WordMix.foldl_range_eq hturn (by omega)] at htail
    have hdrop := tail_of_murmurTail (by simp [hlen]) (by simp; omega) htail
    apply hne
    apply List.ext_getElem?
    intro j
    by_cases hj : j / 16 = i
    · have hbyte := congrArg (·[j - data.length / 16 * 16]?) hdrop
      simp only [List.getElem?_drop] at hbyte
      rwa [show data.length / 16 * 16 + (j - data.length / 16 * 16) = j by omega] at hbyte
    · exact hsame j hj

/-- Two keys of at most 16 bytes. -/
theorem murmurHash3_ne_short : murmurHash3 [1, 2, 3] 7 ≠ murmurHash3 [1, 2, 4] 7 := by
  apply @murmurHash3_ne [1, 2, 3] [1, 2, 4] rfl (by decide) 0
  intro j hj
  by_contra hge
  have hout (b : UInt8) : [1, 2, b][j]? = none := List.getElem?_eq_none (by simp; omega)
  exact hj ((hout 3).trans (hout 4).symm)

end Lsmdb
