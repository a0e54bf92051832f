import Lsmdb.Native.Bloom

/-!
# Bloom filter correctness

A filter has no false negatives as long as its bit count fits the `u32` of the
header: the builder and the reader then take the probes modulo the same number, and
a bit that was set stays set (`testBit_setBit`). In general the reader finds exactly
those keys whose probes, modulo the header, are bits that the builder has set
(`mayContain_finishWith_iff`). `Reset` bounds the probes by the size of the array
unless its own arithmetic wraps (`exists_reset`).
-/

namespace Lsmdb

open BloomBuilder BloomFilter

/-! ## Bits of the array -/

/-- Setting a bit does not resize the array. -/
theorem length_setBit (array : Bytes) (bit : UInt64) :
    (setBit array bit).length = array.length := by
  simp [setBit]

/-- A bit that is set stays set when others are. -/
private theorem and_or_ne_zero_left {x y m : UInt8} (h : x &&& m ≠ 0) : (x ||| y) &&& m ≠ 0 := by
  intro h0
  apply h
  rw [← UInt8.toBitVec_inj] at h0 ⊢
  ext i hi
  have hbit := congrArg (fun v : BitVec 8 => v[i]) h0
  simp only [UInt8.toBitVec_and, UInt8.toBitVec_or, BitVec.getElem_and, BitVec.getElem_or] at hbit ⊢
  cases hx : x.toBitVec[i] <;> simp_all

/-- The bits of the mask are set after the `|=`. -/
private theorem or_and_self_ne_zero {x m : UInt8} (h : m ≠ 0) : (x ||| m) &&& m ≠ 0 := by
  rw [UInt8.or_comm]
  exact and_or_ne_zero_left (by simpa using h)

/-- `1 << (bit & 7)` is not truncated to zero. -/
private theorem mask_ne_zero (s : UInt8) (hs : s < 8) : (1 : UInt8) <<< s ≠ 0 := by
  have hlt : s.toNat < 8 := by simpa [UInt8.lt_iff_toNat_lt] using hs
  intro h0
  have h1 := congrArg UInt8.toNat h0
  rw [UInt8.toNat_shiftLeft, Nat.mod_eq_of_lt hlt, Nat.shiftLeft_eq] at h1
  have hpow : 2 ^ s.toNat < 2 ^ 8 := Nat.pow_lt_pow_right (by decide) hlt
  have hpos : 0 < 2 ^ s.toNat := Nat.two_pow_pos _
  simp only [UInt8.toNat_one, one_mul, UInt8.toNat_zero] at h1
  omega

/-- The place of a bit within its byte. -/
private theorem low_bits_lt (bit : UInt64) : (bit &&& 7).toUInt8 < 8 := by
  have h : (bit &&& 7).toNat ≤ 7 := by
    rw [UInt64.toNat_and]
    exact Nat.and_le_right
  rw [UInt8.lt_iff_toNat_lt, UInt64.toNat_toUInt8]
  exact lt_of_le_of_lt (Nat.mod_le _ _) (by simpa using Nat.lt_succ_of_le h)

/-- The bit that was just set is set. -/
private theorem testBit_setBit_self {array : Bytes} {bit : UInt64}
    (h : (bit >>> 3).toNat < array.length) : testBit (setBit array bit) bit = some true := by
  simp only [testBit, setBit, List.getElem?_modify, if_true, List.getElem?_eq_getElem h,
    Option.map_eq_map, Option.map_some, Option.some.injEq, bne_iff_ne]
  exact or_and_self_ne_zero (mask_ne_zero _ (low_bits_lt bit))

/-- Setting a bit leaves every set bit set. -/
private theorem testBit_setBit {array : Bytes} {bit bit' : UInt64}
    (h : testBit array bit = some true) : testBit (setBit array bit') bit = some true := by
  simp only [testBit, setBit, Option.map_eq_some_iff, bne_iff_ne] at h ⊢
  obtain ⟨b, hb, hne⟩ := h
  by_cases heq : (bit' >>> 3).toNat = (bit >>> 3).toNat
  · refine ⟨b ||| ((1 : UInt8) <<< (bit' &&& 7).toUInt8), ?_, and_or_ne_zero_left hne⟩
    rw [List.getElem?_modify, hb, heq]
    simp
  · refine ⟨b, ?_, hne⟩
    rw [List.getElem?_modify, hb, Option.map_eq_map, Option.map_some, if_neg heq]

/-! ## The probe loops -/

/-- Setting the probes of a key does not resize the array. -/
theorem length_setProbes (bits : UInt64) (k : Nat) (a b : UInt64) (array : Bytes) :
    (setProbes bits k a b array).length = array.length := by
  induction k generalizing a array with
  | zero => rfl
  | succ k ih => rw [setProbes, ih, length_setBit]

/-- No probe clears a bit. -/
private theorem testBit_setProbes {bits : UInt64} {array : Bytes} {bit : UInt64}
    (h : testBit array bit = some true) (k : Nat) (a b : UInt64) :
    testBit (setProbes bits k a b array) bit = some true := by
  induction k generalizing a array with
  | zero => exact h
  | succ k ih => exact ih (testBit_setBit h) (a + b)

/-- Every probe of a key lands inside an array that has the bits. -/
private theorem probe_lt {bits a : UInt64} {n : Nat} (hbits : bits.toNat ≤ n * 8)
    (hpos : 0 < bits.toNat) : ((a % bits) >>> 3).toNat < n := by
  have hlt : (a % bits).toNat < bits.toNat := by
    rw [UInt64.toNat_mod]
    exact Nat.mod_lt _ hpos
  rw [UInt64.toNat_shiftRight]
  simp only [UInt64.reduceToNat, Nat.reduceMod, Nat.shiftRight_eq_div_pow]
  omega

/-- The probes of a key are all set once the probe loop has run for it. -/
private theorem testProbes_setProbes {bits : UInt64} {array : Bytes}
    (hbits : bits.toNat = array.length * 8) (hpos : 0 < array.length) (k : Nat) (a b : UInt64) :
    ∀ array', (∀ bit, testBit (setProbes bits k a b array) bit = some true →
      testBit array' bit = some true) → testProbes array' bits k a b = some true := by
  induction k generalizing a array with
  | zero => intros; rfl
  | succ k ih =>
    intro array' hmono
    -- the bit of the first probe is set and none of the later ones clears it
    have hset : testBit (setProbes bits (k + 1) a b array) (a % bits) = some true :=
      testBit_setProbes (testBit_setBit_self (probe_lt hbits.le (by omega))) k (a + b) b
    rw [testProbes, hmono _ hset]
    have hlen := length_setBit array (a % bits)
    exact ih (by rw [hlen]; exact hbits) (by rw [hlen]; exact hpos) (a + b) array' hmono

/-- Probing an array that the bit count fits stays inside of the array. -/
theorem testProbes_isSome {bits : UInt64} {array : Bytes} (hbits : bits.toNat ≤ array.length * 8)
    (hpos : 0 < bits.toNat) (k : Nat) (a b : UInt64) :
    ∃ r, testProbes array bits k a b = some r := by
  induction k generalizing a with
  | zero => exact ⟨true, rfl⟩
  | succ k ih =>
    -- a probe is below the number of bits, so the byte it reads exists
    obtain ⟨r, hr⟩ : ∃ r, testBit array (a % bits) = some r := by
      rw [testBit, List.getElem?_eq_getElem (probe_lt hbits hpos)]
      exact ⟨_, rfl⟩
    rw [testProbes, hr]
    cases r with
    | true => exact ih (a + b)
    | false => exact ⟨false, rfl⟩

/-- The probe loops for all keys of a table. -/
private theorem testProbes_foldl {bits : UInt64} {k : Nat} {hs : List (UInt64 × UInt64)}
    {array : Bytes} (hbits : bits.toNat = array.length * 8) (hpos : 0 < array.length)
    {h : UInt64 × UInt64} (hmem : h ∈ hs) :
    testProbes (hs.foldl (fun array h => setProbes bits k h.1 h.2 array) array) bits k h.1 h.2 =
      some true := by
  -- the keys added later keep the bits of this one
  have hkeep (hs : List (UInt64 × UInt64)) (array : Bytes) (bit : UInt64)
      (hb : testBit array bit = some true) :
      testBit (hs.foldl (fun array h => setProbes bits k h.1 h.2 array) array) bit =
        some true := by
    induction hs generalizing array with
    | nil => exact hb
    | cons g gs ih => exact ih _ (testBit_setProbes hb k g.1 g.2)
  induction hs generalizing array with
  | nil => simp at hmem
  | cons g gs ih =>
    rw [List.foldl_cons]
    rcases List.mem_cons.mp hmem with rfl | hmem
    · exact testProbes_setProbes hbits hpos k h.1 h.2 _ fun bit hb => hkeep gs _ bit hb
    · have hlen := length_setProbes bits k g.1 g.2 array
      exact ih (by rw [hlen]; exact hbits) (by rw [hlen]; exact hpos) hmem

/-! ## The serialized filter -/

/-- The bit count of a filter over `n` keys fits the `u32` of its header. -/
def FilterFits (n : Nat) (bitsPerKey : Int) : Prop :=
  (wantedBits n bitsPerKey).toNat ≤ 2 ^ 32 - 8

instance (n : Nat) (bitsPerKey : Int) : Decidable (FilterFits n bitsPerKey) :=
  inferInstanceAs (Decidable (_ ≤ _))

/-- The builder asks for at least 64 bits. -/
private theorem wantedBits_ge (n : Nat) (bitsPerKey : Int) :
    64 ≤ (wantedBits n bitsPerKey).toNat := by
  unfold wantedBits
  dsimp only
  split
  · exact le_rfl
  · rename_i h
    rw [UInt64.lt_iff_toNat_lt] at h
    simpa using h

/-- The number of bytes is rounded up without wrapping around. -/
private theorem toNat_arrayBytes {n : Nat} {bitsPerKey : Int} (h : FilterFits n bitsPerKey) :
    (arrayBytes n bitsPerKey).toNat = ((wantedBits n bitsPerKey).toNat + 7) / 8 := by
  unfold FilterFits at h
  rw [arrayBytes, UInt64.toNat_div, UInt64.toNat_add]
  simp only [UInt64.reduceToNat]
  rw [Nat.mod_eq_of_lt (by omega)]

/-- The facts about the size of a filter that fits its header. -/
theorem arrayBytes_bounds {n : Nat} {bitsPerKey : Int} (h : FilterFits n bitsPerKey) :
    8 ≤ (arrayBytes n bitsPerKey).toNat ∧
      (arrayBytes n bitsPerKey * 8).toNat = (arrayBytes n bitsPerKey).toNat * 8 ∧
      (arrayBytes n bitsPerKey).toNat * 8 < 2 ^ 32 := by
  have hge := wantedBits_ge n bitsPerKey
  have heq := toNat_arrayBytes h
  unfold FilterFits at h
  have hlt : (arrayBytes n bitsPerKey).toNat * 8 < 2 ^ 32 := by omega
  refine ⟨by omega, ?_, hlt⟩
  rw [UInt64.toNat_mul]
  simp only [UInt64.reduceToNat]
  rw [Nat.mod_eq_of_lt (by omega)]

/-- A filter that fits its header has bits to take the probes modulo of. -/
theorem finishDefined_of_fits {b : BloomBuilder} (h : FilterFits b.hashes.length b.bitsPerKey) :
    b.finishDefined = true := by
  have hge := (arrayBytes_bounds h).1
  rw [finishDefined, Bool.or_eq_true, bne_iff_ne]
  refine .inr fun hzero => ?_
  rw [hzero, UInt64.toNat_zero] at hge
  omega

/-- The array keeps its size over the whole loop of `Finish`. -/
private theorem length_foldl_setProbes (bits : UInt64) (k : Nat) (hs : List (UInt64 × UInt64))
    (array : Bytes) :
    (hs.foldl (fun array h => setProbes bits k h.1 h.2 array) array).length = array.length := by
  induction hs generalizing array with
  | nil => rfl
  | cons g gs ih => rw [List.foldl_cons, ih, length_setProbes]

/-- A serialized filter is a header of five bytes and the array. -/
theorem length_finishWith (k : Nat) (b : BloomBuilder) :
    (finishWith k b).length = 5 + (arrayBytes b.hashes.length b.bitsPerKey).toNat := by
  simp only [finishWith, List.length_append, length_putFixed32, List.length_singleton,
    length_foldl_setProbes, List.length_replicate]

/-- The number of bits in 64 bits. -/
private theorem toNat_bits (n : Nat) (bitsPerKey : Int) :
    (arrayBytes n bitsPerKey * 8).toNat = (arrayBytes n bitsPerKey).toNat * 8 := by
  have hle : (arrayBytes n bitsPerKey).toNat ≤ (2 ^ 64 - 1) / 8 := by
    rw [arrayBytes, UInt64.toNat_div]
    have := (wantedBits n bitsPerKey + 7).toNat_lt
    simp only [UInt64.reduceToNat]
    omega
  rw [UInt64.toNat_mul]
  simp only [UInt64.reduceToNat]
  omega

/-- The header keeps the number of bits modulo `2 ^ 32`. -/
theorem toNat_header (n : Nat) (bitsPerKey : Int) :
    (arrayBytes n bitsPerKey * 8).toUInt32.toNat =
      (arrayBytes n bitsPerKey).toNat * 8 % 2 ^ 32 := by
  rw [UInt64.toNat_toUInt32, toNat_bits]

/-- `Reset` accepts what `Finish` wrote, with the bit count of the header, unless that is zero. -/
theorem reset_finishWith {k : Nat} {b : BloomBuilder} (hk : k < 256)
    (hne : (arrayBytes b.hashes.length b.bitsPerKey * 8).toUInt32 ≠ 0) :
    reset (finishWith k b) = some
      { data := finishWith k b
        bits := (finishWith k b).drop 5
        numBits := (arrayBytes b.hashes.length b.bitsPerKey * 8).toUInt32
        numProbes := k } := by
  have hlen := length_finishWith k b
  have hbits : decodeFixed32 (finishWith k b) =
      some (arrayBytes b.hashes.length b.bitsPerKey * 8).toUInt32 := by
    simp only [finishWith, List.append_assoc, decodeFixed32_putFixed32]
  -- the fifth byte is the number of probes
  have hprobes : (finishWith k b)[4]? = some k.toUInt8 := by
    simp [finishWith, putFixed32]
  -- neither check of `Reset` rejects what `Finish` has written
  have hcheck : ¬ ((arrayBytes b.hashes.length b.bitsPerKey * 8).toUInt32 = 0 ∨
      (finishWith k b).length <
        (5 + ((arrayBytes b.hashes.length b.bitsPerKey * 8).toUInt32 + 7) / 8).toNat) := by
    rintro (h0 | h0)
    · exact hne h0
    · rw [hlen, UInt32.toNat_add, UInt32.toNat_div, UInt32.toNat_add, toNat_header] at h0
      simp only [UInt32.reduceToNat] at h0
      omega
  have hk' : k.toUInt8.toNat = k := by simp [Nat.toUInt8]; omega
  simp only [reset, hbits, hprobes, bind, Option.bind, if_neg hcheck, hk']
  rw [if_neg (by omega)]
  rfl

/-- A filter that fits is not written with the header of a filter that is off. -/
theorem header_ne_zero {n : Nat} {bitsPerKey : Int} (h : FilterFits n bitsPerKey) :
    (arrayBytes n bitsPerKey * 8).toUInt32 ≠ 0 := by
  obtain ⟨hge, -, hlt⟩ := arrayBytes_bounds h
  intro h0
  have hzero := congrArg UInt32.toNat h0
  rw [toNat_header, UInt32.toNat_zero] at hzero
  omega

/-- A filter whose bit count fits its header answers `true` for every key that was added,
    whatever probe count it was built with. -/
theorem mayContain_of_mem {k : Nat} {b : BloomBuilder} {key : Bytes} {f : BloomFilter}
    (hfit : FilterFits b.hashes.length b.bitsPerKey) (hk : k < 256)
    (hmem : murmurHash128 key ∈ b.hashes) (hf : reset (finishWith k b) = some f) :
    f.mayContain key = some true := by
  obtain ⟨hge, hmul, hlt⟩ := arrayBytes_bounds hfit
  rw [reset_finishWith hk (header_ne_zero hfit)] at hf
  cases hf
  unfold mayContain
  split
  · rfl
  -- the number of bits is read back from 32 bits as it was
  · have hwide : (arrayBytes b.hashes.length b.bitsPerKey * 8).toUInt32.toUInt64 =
        arrayBytes b.hashes.length b.bitsPerKey * 8 := by
      rw [← UInt64.toNat_inj, UInt32.toNat_toUInt64, UInt64.toNat_toUInt32, hmul,
        Nat.mod_eq_of_lt hlt]
    -- after the header comes the array
    have hdrop : (finishWith k b).drop 5 = b.hashes.foldl
        (fun array h => setProbes (arrayBytes b.hashes.length b.bitsPerKey * 8) k h.1 h.2 array)
        (List.replicate (arrayBytes b.hashes.length b.bitsPerKey).toNat 0) := by
      rw [finishWith, List.drop_left' (by simp)]
    simp only [hwide, hdrop]
    exact testProbes_foldl (by simpa using hmul) (by simp; omega) hmem

/-- Probing a filter that `Finish` wrote stays inside of its bytes, for every key. -/
theorem mayContain_isSome {k : Nat} {b : BloomBuilder} {f : BloomFilter}
    (hfit : FilterFits b.hashes.length b.bitsPerKey) (hk : k < 256)
    (hf : reset (finishWith k b) = some f) (key : Bytes) : ∃ r, f.mayContain key = some r := by
  obtain ⟨hge, hmul, hlt⟩ := arrayBytes_bounds hfit
  rw [reset_finishWith hk (header_ne_zero hfit)] at hf
  cases hf
  unfold mayContain
  split
  · exact ⟨true, rfl⟩
  -- the array has exactly the bits of the header
  · have hbits : (arrayBytes b.hashes.length b.bitsPerKey * 8).toUInt32.toUInt64.toNat =
        ((finishWith k b).drop 5).length * 8 := by
      rw [UInt32.toNat_toUInt64, UInt64.toNat_toUInt32, hmul, Nat.mod_eq_of_lt hlt,
        List.length_drop, length_finishWith]
      omega
    exact testProbes_isSome hbits.le (by rw [hbits, List.length_drop, length_finishWith]; omega) _ _ _

/-- The number of probes is clamped to 1..30, so it fits the one byte it is stored in. -/
theorem probesForBitsPerKey_bounds (b : Int) :
    1 ≤ probesForBitsPerKey b ∧ probesForBitsPerKey b ≤ 30 := by
  unfold probesForBitsPerKey
  dsimp only
  split
  · omega
  · split <;> omega

/-! ## What is set, exactly -/

/-- The masks of two places of a byte have no bit in common. -/
private theorem mask_and_mask {s t : UInt8} (hs : s < 8) (ht : t < 8) (hne : s ≠ t) :
    (1 : UInt8) <<< s &&& (1 : UInt8) <<< t = 0 := by
  have hall : ∀ n m : Fin 8, n ≠ m →
      (1 : UInt8) <<< UInt8.ofNat n &&& (1 : UInt8) <<< UInt8.ofNat m = 0 := by decide
  rw [UInt8.lt_iff_toNat_lt] at hs ht
  have h := hall ⟨s.toNat, hs⟩ ⟨t.toNat, ht⟩ fun heq =>
    hne (UInt8.toNat_inj.mp (Fin.mk.inj_iff.mp heq))
  simpa using h

/-- The test of a byte after an `|=` splits into the tests of both operands. -/
private theorem or_and_distrib (x y m : UInt8) : (x ||| y) &&& m = x &&& m ||| y &&& m := by
  rw [← UInt8.toBitVec_inj]
  ext i hi
  simp [Bool.and_or_distrib_right]

/-- The position of a bit is its byte and its place there. -/
private theorem eq_of_byte_of_place {bit bit' : UInt64}
    (hbyte : (bit >>> 3).toNat = (bit' >>> 3).toNat)
    (hplace : (bit &&& 7).toUInt8 = (bit' &&& 7).toUInt8) : bit = bit' := by
  -- a bit index is eight times the byte index plus the place in the byte
  have hlow (x : UInt64) : (x &&& 7).toUInt8.toNat = x.toNat % 8 := by
    have hand : (x &&& 7).toNat = x.toNat % 8 := by
      rw [UInt64.toNat_and]
      exact Nat.and_two_pow_sub_one_eq_mod _ 3
    rw [UInt64.toNat_toUInt8, hand]
    omega
  have hhigh (x : UInt64) : (x >>> 3).toNat = x.toNat / 8 := by
    rw [UInt64.toNat_shiftRight]
    simp [Nat.shiftRight_eq_div_pow]
  have h := congrArg UInt8.toNat hplace
  rw [hlow, hlow] at h
  rw [hhigh, hhigh] at hbyte
  exact UInt64.toNat_inj.mp (by omega)

/-- Setting a bit leaves every other bit as it is. -/
private theorem testBit_setBit_of_ne {array : Bytes} {bit bit' : UInt64} (hne : bit' ≠ bit) :
    testBit (setBit array bit') bit = testBit array bit := by
  simp only [testBit, setBit, List.getElem?_modify]
  by_cases hbyte : (bit' >>> 3).toNat = (bit >>> 3).toNat
  -- another bit of the same byte: the masks differ
  · have hplace : (bit' &&& 7).toUInt8 ≠ (bit &&& 7).toUInt8 :=
      fun hplace => hne (eq_of_byte_of_place hbyte hplace)
    have hmask := mask_and_mask (low_bits_lt bit') (low_bits_lt bit) hplace
    cases harray : array[(bit >>> 3).toNat]? with
    | none => rfl
    | some b =>
      simp only [hbyte, if_true, Option.map_eq_map, Option.map_some]
      rw [or_and_distrib, hmask, UInt8.or_zero]
  · simp only [if_neg hbyte, Option.map_eq_map, Option.map_id']

/-- The hash values of a key that the probe loops take modulo the number of bits. -/
def probes : Nat → UInt64 → UInt64 → List UInt64
  | 0, _, _ => []
  | k + 1, a, b => a :: probes k (a + b) b

/-- The loop of `MayContain` answers true if it has found every bit set. -/
private theorem testProbes_eq_true_iff {array : Bytes} {bits : UInt64} (k : Nat) (a b : UInt64) :
    testProbes array bits k a b = some true ↔
      ∀ x ∈ probes k a b, testBit array (x % bits) = some true := by
  induction k generalizing a with
  | zero => simp [testProbes, probes]
  | succ k ih =>
    rw [testProbes, probes, List.forall_mem_cons, ← ih]
    cases testBit array (a % bits) with
    | none => simp
    | some r => cases r <;> simp

/-- A bit of the array is set if it was, or if it is a probe of the key. -/
private theorem testBit_setProbes_iff {bits : UInt64} {array : Bytes} {bit : UInt64}
    (hbit : (bit >>> 3).toNat < array.length) (k : Nat) (a b : UInt64) :
    testBit (setProbes bits k a b array) bit = some true ↔
      testBit array bit = some true ∨ ∃ x ∈ probes k a b, x % bits = bit := by
  induction k generalizing a array with
  | zero => simp [setProbes, probes]
  | succ k ih =>
    rw [setProbes, ih (by rwa [length_setBit]), probes]
    -- either the first probe sets this bit or it leaves it as it is
    by_cases heq : a % bits = bit
    · rw [heq, testBit_setBit_self hbit]
      simp [heq]
    · rw [testBit_setBit_of_ne heq]
      simp [heq]

/-- The bits that are set for a list of keys. -/
private theorem testBit_foldl_iff {bits : UInt64} {k : Nat} {array : Bytes} {bit : UInt64}
    (hbit : (bit >>> 3).toNat < array.length) (hs : List (UInt64 × UInt64)) :
    testBit (hs.foldl (fun array h => setProbes bits k h.1 h.2 array) array) bit = some true ↔
      testBit array bit = some true ∨ ∃ h ∈ hs, ∃ x ∈ probes k h.1 h.2, x % bits = bit := by
  induction hs generalizing array with
  | nil => simp
  | cons h hs ih =>
    rw [List.foldl_cons, ih (by rwa [length_setProbes]), testBit_setProbes_iff hbit]
    simp [or_assoc]

/-- The array starts with no bit set. -/
private theorem testBit_replicate_zero (n : Nat) (bit : UInt64) :
    testBit (List.replicate n 0) bit ≠ some true := by
  rw [testBit, List.getElem?_replicate]
  split <;> simp

/-! ## Bounds -/

/-- `Reset` rejects the data, or takes over what the header says. -/
theorem exists_reset (data : Bytes) :
    ∃ f, reset data = some f ∧ (f.numBits = 0 ∨ decodeFixed32 data = some f.numBits ∧
      f.bits = data.drop 5 ∧ 5 ≤ data.length ∧ (5 + (f.numBits + 7) / 8).toNat ≤ data.length) := by
  rw [reset]
  by_cases hshort : data.length < 5
  · exact ⟨_, if_pos hshort, .inl rfl⟩
  -- with five bytes both header fields can be read
  obtain ⟨bits, hbits⟩ := decodeFixed32_isSome (p := data) (by omega)
  have hprobes : data[4]? = some (data.get ⟨4, by omega⟩) := List.getElem?_eq_getElem _
  simp only [if_neg hshort, hbits, hprobes, bind, Option.bind]
  by_cases hcheck : bits = 0 ∨ data.length < (5 + (bits + 7) / 8).toNat
  · exact ⟨_, if_pos hcheck, .inl rfl⟩
  · refine ⟨_, if_neg hcheck, .inr ⟨rfl, rfl, by omega, ?_⟩⟩
    exact not_lt.mp fun hlt => hcheck (.inr hlt)

/-- A key whose first hash value is `2 ^ 32 - 8`. -/
def wideKey : Bytes := [252, 29, 60, 209, 55, 107, 223, 141, 134, 190, 25, 225, 50, 31, 145, 125]

/-- The filter is turned off, has no probes or has all the bytes that its header announces. -/
def FilterComplete (f : BloomFilter) : Prop :=
  f.numBits = 0 ∨ f.numProbes = 0 ∨ (f.numBits.toNat + 7) / 8 ≤ f.bits.length

instance (f : BloomFilter) : Decidable (FilterComplete f) :=
  inferInstanceAs (Decidable (_ ∨ _ ∨ _))

/-- Whether a parsed filter is only ever probed within its bytes. -/
theorem mayContain_total_iff {data : Bytes} {f : BloomFilter} (hf : reset data = some f) :
    (∀ key, ∃ a, f.mayContain key = some a) ↔ FilterComplete f := by
  obtain ⟨f', hf', hreset⟩ := exists_reset data
  obtain rfl : f' = f := Option.some.inj (hf'.symm.trans hf)
  unfold FilterComplete
  by_cases hoff : f'.numBits = 0
  · simp [mayContain, hoff]
  obtain ⟨-, hbits, hlen, hcheck⟩ := hreset.resolve_left hoff
  have hpos : 0 < f'.numBits.toUInt64.toNat := by
    rw [UInt32.toNat_toUInt64]
    exact Nat.pos_of_ne_zero fun h0 => hoff (UInt32.toNat_inj.mp h0)
  have hsize : f'.bits.length = data.length - 5 := by rw [hbits, List.length_drop]
  simp only [mayContain, hoff, if_false, false_or]
  constructor
  · -- the wide key is probed in the last byte
    intro hall
    by_contra hnot
    obtain ⟨hprobes, hshort⟩ := not_or.mp hnot
    obtain ⟨k, hk⟩ := Nat.exists_eq_succ_of_ne_zero hprobes
    -- the check of `Reset` wraps around: the array it asks for has no byte
    have hwrap : 2 ^ 32 - 7 ≤ f'.numBits.toNat := by
      have := f'.numBits.toNat_lt
      rw [UInt32.toNat_add, UInt32.toNat_div, UInt32.toNat_add] at hcheck
      simp only [UInt32.reduceToNat] at hcheck
      omega
    obtain ⟨a, ha⟩ := hall wideKey
    have hhash : (murmurHash128 wideKey).1 = 4294967288 := by decide +kernel
    -- this key is probed in byte `2 ^ 29 - 1`
    have hprobe : ((4294967288 % f'.numBits.toUInt64 : UInt64) >>> 3).toNat = 2 ^ 29 - 1 := by
      rw [UInt64.toNat_shiftRight, UInt64.toNat_mod, UInt32.toNat_toUInt64]
      simp only [UInt64.reduceToNat, Nat.reduceMod, Nat.shiftRight_eq_div_pow]
      rw [Nat.mod_eq_of_lt (by omega)]
      norm_num
    have hout : testBit f'.bits (4294967288 % f'.numBits.toUInt64) = none := by
      rw [testBit, hprobe, List.getElem?_eq_none]
      · rfl
      · have := f'.numBits.toNat_lt
        omega
    rw [hk, hhash, Nat.succ_eq_add_one, testProbes, hout] at ha
    cases ha
  · -- with all the bytes there every probe finds its byte
    intro hcond key
    rcases hcond with hnone | hlong
    · rw [hnone]
      exact ⟨true, rfl⟩
    · apply testProbes_isSome _ hpos
      rw [UInt32.toNat_toUInt64]
      omega

/-- A parsed filter is only ever probed within its bytes if and only if it is turned off, has no
    probes or has all the bytes that its header announces. For a header of `2 ^ 32 - 7` bits or more
    `Reset` does not check that: `bits + 7` wraps. -/
theorem mayContain_in_bounds_iff (data : Bytes) :
    ∃ f, reset data = some f ∧ ((∀ key, ∃ a, f.mayContain key = some a) ↔
      f.numBits = 0 ∨ f.numProbes = 0 ∨ 5 + (f.numBits.toNat + 7) / 8 ≤ data.length) := by
  obtain ⟨f, hf, hreset⟩ := exists_reset data
  refine ⟨f, hf, ?_⟩
  rw [mayContain_total_iff hf, FilterComplete]
  rcases hreset with hoff | ⟨-, hbits, hlen, -⟩
  · simp only [hoff, true_or]
  · have hsize : f.bits.length = data.length - 5 := by rw [hbits, List.length_drop]
    -- the header is not counted in `bits`
    have hiff : (f.numBits.toNat + 7) / 8 ≤ f.bits.length ↔
        5 + (f.numBits.toNat + 7) / 8 ≤ data.length := by omega
    rw [hiff]

/-- A header of `2 ^ 32 - 1` bits and no array: the first probe is out of bounds. -/
theorem mayContain_out_of_bounds :
    (reset [255, 255, 255, 255, 1]).map (fun f => (f.numBits, f.mayContain [1])) =
      some (4294967295, none) := by
  decide +kernel

/-! ## No false negatives -/

/-- A builder to which keys have been added. -/
def BloomBuilder.ofKeys (bitsPerKey : Int) (keys : List Bytes) : BloomBuilder :=
  keys.foldl add ⟨bitsPerKey, []⟩

/-- The builder holds the hash of every key it was given, in the order of the calls. -/
theorem ofKeys_eq (bitsPerKey : Int) (keys : List Bytes) :
    ofKeys bitsPerKey keys = ⟨bitsPerKey, keys.map murmurHash128⟩ := by
  have hloop (hashes : List (UInt64 × UInt64)) :
      keys.foldl add ⟨bitsPerKey, hashes⟩ = ⟨bitsPerKey, hashes ++ keys.map murmurHash128⟩ := by
    induction keys generalizing hashes with
    | nil => simp
    | cons key keys ih => simp [add, ih]
  exact hloop []

/-- The probes of a key. -/
def keyProbes (k : Nat) (key : Bytes) : List UInt64 :=
  probes k (murmurHash128 key).1 (murmurHash128 key).2

/-- What a filter answers that `Finish` wrote and whose header is not zero: a probe of the reader is
    taken modulo the header, one of the builder modulo the number of bits. -/
private theorem mayContain_finishWith_iff {k : Nat} (hk : k < 256) (bitsPerKey : Int) (keys : List Bytes)
    (hne : (arrayBytes keys.length bitsPerKey * 8).toUInt32 ≠ 0) :
    ∃ f, reset (finishWith k (ofKeys bitsPerKey keys)) = some f ∧ ∀ key,
      (∃ a, f.mayContain key = some a) ∧
      (f.mayContain key = some true ↔ ∀ x ∈ keyProbes k key, ∃ key' ∈ keys, ∃ x' ∈ keyProbes k key',
        x' % (arrayBytes keys.length bitsPerKey * 8) =
          x % (arrayBytes keys.length bitsPerKey * 8).toUInt32.toUInt64) := by
  set bytes := arrayBytes keys.length bitsPerKey with hbytes
  have hlen : (keys.map murmurHash128).length = keys.length := List.length_map _
  rw [ofKeys_eq]
  refine ⟨_, reset_finishWith (b := ⟨bitsPerKey, keys.map murmurHash128⟩) hk
    (by dsimp only; rwa [hlen]), fun key => ?_⟩
  have hdrop : (finishWith k ⟨bitsPerKey, keys.map murmurHash128⟩).drop 5 =
      (keys.map murmurHash128).foldl
        (fun array h => setProbes (bytes * 8) k h.1 h.2 array) (List.replicate bytes.toNat 0) := by
    rw [finishWith, List.drop_left' (by simp)]
    dsimp only
    rw [hlen]
  -- the probes of the reader stay within the array
  have hheader : (bytes * 8).toUInt32.toUInt64.toNat = bytes.toNat * 8 % 2 ^ 32 := by
    rw [UInt32.toNat_toUInt64, toNat_header]
  have hpos : 0 < (bytes * 8).toUInt32.toUInt64.toNat := by
    rw [UInt32.toNat_toUInt64]
    exact Nat.pos_of_ne_zero fun h0 => hne (UInt32.toNat_inj.mp h0)
  have hle : (bytes * 8).toUInt32.toUInt64.toNat ≤ bytes.toNat * 8 := by
    rw [hheader]
    exact Nat.mod_le _ _
  simp only [mayContain, hlen, ← hbytes, if_neg hne, hdrop]
  refine ⟨testProbes_isSome (by rwa [length_foldl_setProbes, List.length_replicate]) hpos _ _ _, ?_⟩
  rw [testProbes_eq_true_iff]
  apply forall₂_congr
  intro x _
  rw [testBit_foldl_iff (by rw [List.length_replicate]; exact probe_lt hle hpos)]
  simp [testBit_replicate_zero, keyProbes]

/-- The `int` of `GetBlock64` holds every index into the key. -/
def HashDefined (key : Bytes) : Prop := ∀ i < key.length / 16, (i * 2 + 1) * 8 < 2 ^ 31

/-- The `int` index of the block loop does not overflow for a key of this length. -/
private theorem hashDefined_of_length {key : Bytes} (h : key.length < 2 ^ 31 + 16) : HashDefined key := by
  intro i hi
  omega

/-- `Add` and `Finish` are defined, that is, no index overflows and nothing is divided by zero, and
    the filter that `Reset` makes of the bytes has every key that was added. -/
def NoFalseNegatives (k : Nat) (bitsPerKey : Int) (keys : List Bytes) : Prop :=
  (∀ key ∈ keys, HashDefined key) ∧ (keys ≠ [] → arrayBytes keys.length bitsPerKey * 8 ≠ 0) ∧
    ∀ key ∈ keys, ∃ f, reset (finishWith k (ofKeys bitsPerKey keys)) = some f ∧
      f.mayContain key = some true

/-- The number of bits of a filter over `n` keys: at least 64, in whole bytes. -/
def filterBits (n bitsPerKey : Nat) : Nat := (max 64 (n * bitsPerKey) + 7) / 8 * 8

/-- Below `2 ^ 64`, the product of the keys and the bits per key does not wrap. -/
theorem toNat_wantedBits {n bitsPerKey : Nat} (h : n * bitsPerKey < 2 ^ 64) :
    (wantedBits n bitsPerKey).toNat = max 64 (n * bitsPerKey) := by
  -- the product does not wrap around
  have hmul : (n.toUInt64 * UInt64.ofInt bitsPerKey).toNat = n * bitsPerKey := by
    have hint : (UInt64.ofInt bitsPerKey).toNat = bitsPerKey % 2 ^ 64 := by
      rw [UInt64.ofInt, UInt64.toNat_ofNat']
      omega
    rw [UInt64.toNat_mul, hint, Nat.toUInt64_eq, UInt64.toNat_ofNat', ← Nat.mul_mod,
      Nat.mod_eq_of_lt h]
  unfold wantedBits
  dsimp only
  split
  next hlt =>
    rw [UInt64.lt_iff_toNat_lt, hmul] at hlt
    simp only [UInt64.reduceToNat] at hlt ⊢
    omega
  next hlt =>
    rw [UInt64.lt_iff_toNat_lt, hmul] at hlt
    simp only [UInt64.reduceToNat] at hlt
    omega

/-- Nor does the rounding to whole bytes. -/
private theorem toNat_arrayBytes_of_lt {n bitsPerKey : Nat} (h : filterBits n bitsPerKey < 2 ^ 64) :
    (arrayBytes n bitsPerKey).toNat * 8 = filterBits n bitsPerKey := by
  have hproduct : n * bitsPerKey + 7 < 2 ^ 64 := by
    unfold filterBits at h
    omega
  rw [arrayBytes, UInt64.toNat_div, UInt64.toNat_add, toNat_wantedBits (by omega), filterBits]
  simp only [UInt64.reduceToNat]
  rw [Nat.mod_eq_of_lt (by omega)]

/-- A filter whose header is zero is turned off. -/
private theorem mayContain_of_header_zero (k : Nat) (bitsPerKey : Int) (keys : List Bytes)
    (hzero : (arrayBytes keys.length bitsPerKey * 8).toUInt32 = 0) (key : Bytes) :
    ∃ f, reset (finishWith k (ofKeys bitsPerKey keys)) = some f ∧ f.mayContain key = some true := by
  obtain ⟨f, hf, hnum⟩ := exists_reset (finishWith k (ofKeys bitsPerKey keys))
  -- the header says that the filter has no bits
  have hheader : decodeFixed32 (finishWith k (ofKeys bitsPerKey keys)) = some 0 := by
    simp only [finishWith, List.append_assoc, decodeFixed32_putFixed32, ofKeys_eq,
      List.length_map, hzero]
  have hoff : f.numBits = 0 := by
    rcases hnum with hoff | ⟨hbits, -⟩
    · exact hoff
    · rw [hheader] at hbits
      exact (Option.some.inj hbits).symm
  exact ⟨f, hf, by rw [mayContain, if_pos hoff]⟩

/-- A filter has no false negatives if its number of bits fits the 32 bits of the header, or is a
    multiple of `2 ^ 32`, which leaves a header that turns the filter off. In between, the reader
    probes modulo another number than the builder. -/
theorem no_false_negatives {k : Nat} (hk : k ≤ 30) (bitsPerKey : Nat) (keys : List Bytes)
    (hkeys : ∀ key ∈ keys, key.length < 2 ^ 31 + 16)
    (hbits : filterBits keys.length bitsPerKey < 2 ^ 32 ∨
      filterBits keys.length bitsPerKey < 2 ^ 64 ∧ 2 ^ 32 ∣ filterBits keys.length bitsPerKey) :
    NoFalseNegatives k bitsPerKey keys := by
  have hbytes : (arrayBytes keys.length bitsPerKey).toNat * 8 = filterBits keys.length bitsPerKey :=
    toNat_arrayBytes_of_lt (by omega)
  have hpos : 64 ≤ filterBits keys.length bitsPerKey := by
    unfold filterBits
    omega
  have hnat := toNat_bits keys.length bitsPerKey
  rw [hbytes] at hnat
  refine ⟨fun key hkey => hashDefined_of_length (hkeys key hkey), fun _ hzero => ?_,
    fun key hkey => ?_⟩
  · -- the number of bits is at least 64, so no probe divides by zero
    rw [hzero, UInt64.toNat_zero] at hnat
    omega
  · rcases hbits with hlt | ⟨-, hdvd⟩
    · -- the probes of the reader are those of the builder
      have hsame : (arrayBytes keys.length bitsPerKey * 8).toUInt32.toUInt64 =
          arrayBytes keys.length bitsPerKey * 8 := by
        rw [← UInt64.toNat_inj, UInt32.toNat_toUInt64, UInt64.toNat_toUInt32, hnat,
          Nat.mod_eq_of_lt hlt]
      have hne : (arrayBytes keys.length bitsPerKey * 8).toUInt32 ≠ 0 := by
        intro hzero
        have hheader := toNat_header keys.length bitsPerKey
        rw [hzero, hbytes, Nat.mod_eq_of_lt hlt, UInt32.toNat_zero] at hheader
        omega
      obtain ⟨f, hf, hiff⟩ := mayContain_finishWith_iff (k := k) (by omega) bitsPerKey keys hne
      refine ⟨f, hf, (hiff key).2.mpr fun x hx => ⟨key, hkey, x, hx, ?_⟩⟩
      rw [hsame]
    · -- a header of zero makes the filter answer true to every key
      apply mayContain_of_header_zero
      rw [← UInt32.toNat_inj, toNat_header, hbytes, UInt32.toNat_zero]
      exact Nat.mod_eq_zero_of_dvd hdvd

/-- Two keys and ten bits for each. -/
theorem no_false_negatives_two_keys : NoFalseNegatives 7 10 [[1], [2]] :=
  no_false_negatives (by decide) 10 [[1], [2]] (by decide) (.inl (by decide))

/-- Three keys and the most bits for each: the header is `2 ^ 31` and the filter has three times as
    many bits, so the reader looks for the key in another place than the builder. -/
theorem bloom_false_negative :
    ∃ f, reset (finish (ofKeys (2 ^ 31 - 1) [[1], [1], [1]])) = some f ∧
      f.mayContain [1] = some false := by
  have hbytes : arrayBytes 3 (2 ^ 31 - 1) = 805306368 := by decide +kernel
  have hprobes : probesForBitsPerKey (2 ^ 31 - 1) = 30 := by decide +kernel
  have hhash : murmurHash128 [1] = (8849112093580131862, 8613248517421295493) := by decide +kernel
  have hlen : ([[1], [1], [1]] : List Bytes).length = 3 := rfl
  obtain ⟨f, hf, hiff⟩ := mayContain_finishWith_iff (k := 30) (by decide) (2 ^ 31 - 1)
    [[1], [1], [1]] (by rw [hlen, hbytes]; decide)
  have hbits : (ofKeys (2 ^ 31 - 1) [[1], [1], [1]]).bitsPerKey = 2 ^ 31 - 1 := by rw [ofKeys_eq]
  refine ⟨f, by rw [finish, hbits, hprobes]; exact hf, ?_⟩
  obtain ⟨⟨a, ha⟩, htrue⟩ := hiff [1]
  cases a with
  | false => exact ha
  | true =>
    -- the first probe of the reader is no probe of the builder
    have hall := htrue.mp ha
    rw [hlen, hbytes] at hall
    obtain ⟨key', hkey', x', hx', heq⟩ := hall 8849112093580131862 (by
      rw [keyProbes, hhash]
      exact List.mem_cons_self)
    have hkey : key' = [1] := by simpa using hkey'
    rw [hkey, keyProbes, hhash] at hx'
    have hmiss : (probes 30 8849112093580131862 8613248517421295493).all (fun x =>
        x % (805306368 * 8) !=
          8849112093580131862 % (805306368 * 8 : UInt64).toUInt32.toUInt64) = true := by
      decide +kernel
    exact absurd heq (bne_iff_ne.mp (List.all_eq_true.mp hmiss x' hx'))

end Lsmdb
