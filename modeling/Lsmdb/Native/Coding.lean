import Mathlib

/-!
# Byte strings and fixed-width integers (`coding.h`, `status.h`)

Keys, values and file contents are `std::string`s, modelled as lists of bytes.
`std::string::compare` is `memcmp` followed by a length comparison, which is the
lexicographic order of the list of unsigned bytes.

A pointer into a buffer is modelled by the suffix of the buffer that starts there,
so a load past the end of the buffer is visible: `decodeFixed32` and
`decodeFixed64` return `none` when the code would read outside of it.
-/

/-- Bytes compare as `unsigned char`. -/
instance UInt8.instLinearOrder : LinearOrder UInt8 where
  le_refl := UInt8.le_refl
  le_trans _ _ _ := UInt8.le_trans
  le_antisymm _ _ := UInt8.le_antisymm
  le_total := UInt8.le_total
  lt_iff_le_not_ge a b := by
    simp only [UInt8.lt_iff_toNat_lt, UInt8.le_iff_toNat_le]
    omega
  toDecidableLE := inferInstance

namespace Lsmdb

/-- A `std::string`. -/
abbrev Bytes := List UInt8

/-! ## Status -/

/-- `Status::Code`. -/
inductive Code
  | ok | notFound | corruption | ioError | invalidArgument
  deriving DecidableEq, Repr

/-- `Status`: a code and the message of a failure. -/
structure Status where
  code : Code
  message : String
  deriving DecidableEq, Repr

namespace Status

def OK : Status := ⟨.ok, ""⟩
def corruption (msg : String) : Status := ⟨.corruption, msg⟩
def ioError (msg : String) : Status := ⟨.ioError, msg⟩

def ok (s : Status) : Bool := s.code == .ok
def isCorruption (s : Status) : Bool := s.code == .corruption

@[simp] theorem ok_OK : OK.ok = true := rfl
@[simp] theorem ok_corruption (msg : String) : (corruption msg).ok = false := rfl
@[simp] theorem ok_ioError (msg : String) : (ioError msg).ok = false := rfl
@[simp] theorem isCorruption_corruption (msg : String) :
    (corruption msg).isCorruption = true := rfl

end Status

/-- `ValueType`, a scoped enum over `uint8_t`: a byte cast to it keeps its value, whether or not
    it is one of the two enumerators. -/
structure ValueType where
  raw : UInt8
  deriving DecidableEq, Repr

def ValueType.value : ValueType := ⟨0⟩
def ValueType.tombstone : ValueType := ⟨1⟩

/-- `LookupResult`, with the value that `kFound` stores through its out parameter. -/
inductive LookupResult
  | found (value : Bytes)
  | deleted
  | notFound
  deriving DecidableEq, Repr

/-- One record of the engine: a key, its value bytes and its type. -/
structure Entry where
  key : Bytes
  value : Bytes
  type : ValueType
  deriving DecidableEq, Repr

def Entry.isTombstone (e : Entry) : Bool := e.type == ValueType.tombstone

/-! ## Fixed-width integers -/

/-- The bytes `PutFixed32` appends, low byte first. -/
def putFixed32 (v : UInt32) : Bytes :=
  [v.toUInt8, (v >>> 8).toUInt8, (v >>> 16).toUInt8, (v >>> 24).toUInt8]

/-- The bytes `PutFixed64` appends, low byte first. -/
def putFixed64 (v : UInt64) : Bytes :=
  (List.range 8).map fun i => (v >>> (8 * i).toUInt64).toUInt8

/-- The little-endian value of a byte string. -/
def leValue : Bytes → Nat
  | [] => 0
  | b :: bs => b.toNat + 256 * leValue bs

/-- `DecodeFixed32`: a little-endian load of the four bytes at the pointer. -/
def decodeFixed32 (p : Bytes) : Option UInt32 :=
  if 4 ≤ p.length then some (UInt32.ofNat (leValue (p.take 4))) else none

/-- `DecodeFixed64`: a little-endian load of the eight bytes at the pointer. -/
def decodeFixed64 (p : Bytes) : Option UInt64 :=
  if 8 ≤ p.length then some (UInt64.ofNat (leValue (p.take 8))) else none

/-- The `n` bytes at the pointer, as `std::string(p, n)` or `Crc32(p, n)` read them. -/
def loadBytes (p : Bytes) (n : Nat) : Option Bytes :=
  if n ≤ p.length then some (p.take n) else none

/-- The bytes `PutLengthPrefixed` appends: a `u32` length and the string. -/
def putLengthPrefixed (s : Bytes) : Bytes :=
  putFixed32 s.length.toUInt32 ++ s

@[simp] theorem length_putFixed32 (v : UInt32) : (putFixed32 v).length = 4 := rfl

@[simp] theorem length_putFixed64 (v : UInt64) : (putFixed64 v).length = 8 := rfl

@[simp] theorem length_putLengthPrefixed (s : Bytes) :
    (putLengthPrefixed s).length = 4 + s.length := by
  simp [putLengthPrefixed]

/-- The byte `(v >> k) & 0xff` of a 32-bit value, as a number. -/
private theorem toNat_shiftRight_toUInt8_of_32 (v : UInt32) (k : Nat) (hk : k < 32) :
    (v >>> k.toUInt32).toUInt8.toNat = v.toNat / 2 ^ k % 256 := by
  have hk' : k.toUInt32.toNat % 32 = k := by simp [Nat.toUInt32]; omega
  rw [UInt32.toNat_toUInt8, UInt32.toNat_shiftRight, hk', Nat.shiftRight_eq_div_pow]

/-- The byte `(v >> k) & 0xff` of a 64-bit value, as a number. -/
private theorem toNat_shiftRight_toUInt8_of_64 (v : UInt64) (k : Nat) (hk : k < 64) :
    (v >>> k.toUInt64).toUInt8.toNat = v.toNat / 2 ^ k % 256 := by
  have hk' : k.toUInt64.toNat % 64 = k := by simp [Nat.toUInt64]; omega
  rw [UInt64.toNat_toUInt8, UInt64.toNat_shiftRight, hk', Nat.shiftRight_eq_div_pow]

/-- `PutFixed32` writes the value in little-endian order. -/
theorem leValue_putFixed32 (v : UInt32) : leValue (putFixed32 v) = v.toNat := by
  have h8 := toNat_shiftRight_toUInt8_of_32 v 8 (by decide)
  have h16 := toNat_shiftRight_toUInt8_of_32 v 16 (by decide)
  have h24 := toNat_shiftRight_toUInt8_of_32 v 24 (by decide)
  have hv : v.toNat < 2 ^ 32 := v.toBitVec.isLt
  simp only [putFixed32, leValue]
  rw [UInt32.toNat_toUInt8, show (v >>> 8).toUInt8.toNat = _ from h8,
    show (v >>> 16).toUInt8.toNat = _ from h16, show (v >>> 24).toUInt8.toNat = _ from h24]
  omega

/-- `PutFixed64` writes the value in little-endian order. -/
theorem leValue_putFixed64 (v : UInt64) : leValue (putFixed64 v) = v.toNat := by
  have hv : v.toNat < 2 ^ 64 := v.toBitVec.isLt
  have hb (i : Nat) (hi : i < 8) :
      (v >>> (8 * i).toUInt64).toUInt8.toNat = v.toNat / 2 ^ (8 * i) % 256 :=
    toNat_shiftRight_toUInt8_of_64 v (8 * i) (by omega)
  simp only [putFixed64, List.range, List.range.loop, List.map_cons, List.map_nil, leValue]
  rw [hb 0 (by decide), hb 1 (by decide), hb 2 (by decide), hb 3 (by decide),
    hb 4 (by decide), hb 5 (by decide), hb 6 (by decide), hb 7 (by decide)]
  omega

/-- A little-endian value is bounded by the number of its bytes. -/
theorem leValue_lt (bs : Bytes) : leValue bs < 256 ^ bs.length := by
  induction bs with
  | nil => simp [leValue]
  | cons b bs ih =>
    have hb : b.toNat < 256 := b.toNat_lt
    rw [leValue, List.length_cons, Nat.pow_succ]
    omega

/-- Strings of one length with one value are equal. -/
theorem leValue_inj {as bs : Bytes} (hlen : as.length = bs.length)
    (h : leValue as = leValue bs) : as = bs := by
  induction as generalizing bs with
  | nil => exact (List.length_eq_zero_iff.mp hlen.symm).symm
  | cons a as ih =>
    cases bs with
    | nil => simp at hlen
    | cons b bs =>
      have ha : a.toNat < 256 := a.toNat_lt
      have hb : b.toNat < 256 := b.toNat_lt
      simp only [leValue] at h
      -- the first byte is the remainder modulo 256, the others are the quotient
      have hab : a = b := UInt8.toNat_inj.mp (by omega)
      rw [hab, ih (by simpa using hlen) (by omega)]

/-- Loading what `PutFixed32` stored gives the stored value. -/
@[simp] theorem decodeFixed32_putFixed32 (v : UInt32) (rest : Bytes) :
    decodeFixed32 (putFixed32 v ++ rest) = some v := by
  have hlen : 4 ≤ (putFixed32 v ++ rest).length := by simp
  rw [decodeFixed32, if_pos hlen, List.take_left' (length_putFixed32 v), leValue_putFixed32,
    UInt32.ofNat_toNat]

/-- Loading what `PutFixed64` stored gives the stored value. -/
@[simp] theorem decodeFixed64_putFixed64 (v : UInt64) (rest : Bytes) :
    decodeFixed64 (putFixed64 v ++ rest) = some v := by
  have hlen : 8 ≤ (putFixed64 v ++ rest).length := by simp
  rw [decodeFixed64, if_pos hlen, List.take_left' (length_putFixed64 v), leValue_putFixed64,
    UInt64.ofNat_toNat]

/-- Four loaded bytes are the encoding of the value loaded from them. -/
theorem eq_putFixed32_of_decodeFixed32 {p : Bytes} {v : UInt32}
    (h : decodeFixed32 p = some v) : p = putFixed32 v ++ p.drop 4 := by
  unfold decodeFixed32 at h
  split at h
  · rename_i hlen
    -- four bytes hold a value below `2 ^ 32`, so the conversion loses nothing
    have hv : v.toNat = leValue (p.take 4) := by
      rw [← Option.some.inj h, UInt32.toNat_ofNat']
      exact Nat.mod_eq_of_lt (by simpa [hlen] using leValue_lt (p.take 4))
    have hput : putFixed32 v = p.take 4 := by
      apply leValue_inj (by simp [hlen])
      rw [leValue_putFixed32, hv]
    rw [hput, List.take_append_drop]
  · simp at h

/-- Eight loaded bytes are the encoding of the value loaded from them. -/
theorem eq_putFixed64_of_decodeFixed64 {p : Bytes} {v : UInt64}
    (h : decodeFixed64 p = some v) : p = putFixed64 v ++ p.drop 8 := by
  unfold decodeFixed64 at h
  split at h
  · rename_i hlen
    -- eight bytes hold a value below `2 ^ 64`
    have hv : v.toNat = leValue (p.take 8) := by
      rw [← Option.some.inj h, UInt64.toNat_ofNat']
      exact Nat.mod_eq_of_lt (by simpa [hlen] using leValue_lt (p.take 8))
    have hput : putFixed64 v = p.take 8 := by
      apply leValue_inj (by simp [hlen])
      rw [leValue_putFixed64, hv]
    rw [hput, List.take_append_drop]
  · simp at h

/-- Reading `n` bytes where a string of `n` bytes stands gives the string. -/
theorem loadBytes_append {s rest : Bytes} {n : Nat} (h : s.length = n) :
    loadBytes (s ++ rest) n = some s := by
  have hlen : n ≤ (s ++ rest).length := by simp [h]
  rw [loadBytes, if_pos hlen, List.take_left' h]

/-- A load of `n` bytes returns the first `n` bytes of the memory. -/
theorem eq_append_of_loadBytes {p s : Bytes} {n : Nat} (h : loadBytes p n = some s) :
    p = s ++ p.drop n ∧ s.length = n := by
  unfold loadBytes at h
  split at h
  · rename_i hlen
    cases h
    exact ⟨(List.take_append_drop n p).symm, by simpa using hlen⟩
  · simp at h

/-- `DecodeFixed32` is defined wherever four bytes can be read. -/
theorem decodeFixed32_isSome {p : Bytes} (h : 4 ≤ p.length) : ∃ v, decodeFixed32 p = some v :=
  ⟨_, if_pos h⟩

/-- `DecodeFixed64` is defined wherever eight bytes can be read. -/
theorem decodeFixed64_isSome {p : Bytes} (h : 8 ≤ p.length) : ∃ v, decodeFixed64 p = some v :=
  ⟨_, if_pos h⟩

/-- A number below `2 ^ 32` is kept by the conversion. -/
theorem toNat_toUInt32_of_lt {n : Nat} (h : n < 2 ^ 32) : n.toUInt32.toNat = n := by
  simp [Nat.toUInt32]
  omega

/-- A number below `2 ^ 64` is kept by the conversion. -/
theorem toNat_toUInt64_of_lt {n : Nat} (h : n < 2 ^ 64) : n.toUInt64.toNat = n := by
  simp [Nat.toUInt64]
  omega

end Lsmdb
