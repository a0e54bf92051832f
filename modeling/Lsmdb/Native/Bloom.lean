import Lsmdb.Native.Checksum

/-!
# Bloom filter (`bloom.cpp`)

`BloomBuilder` keeps one 128-bit hash per key and `Finish` serializes
`u32 num_bits | u8 num_probes | bit array`. `BloomFilter` queries such a string.
The probes of a key are `h1 + j * h2` modulo the number of bits, in 64-bit
arithmetic on both sides.
-/

namespace Lsmdb

/-- `BloomBuilder`: the vectors `h1_` and `h2_` are always pushed together. -/
structure BloomBuilder where
  bitsPerKey : Int
  hashes : List (UInt64 × UInt64) := []

namespace BloomBuilder

/-- `ProbesForBitsPerKey`: `lround(bits_per_key * 0.6931471805599453)`, clamped to `[1, 30]`.
    Below the clamp (`bits_per_key ≤ 43`) no product lies near a half, so rounding the exact
    product gives what rounding the `double` product gives. -/
def probesForBitsPerKey (bitsPerKey : Int) : Nat :=
  let k := (2 * (bitsPerKey * 6931471805599453) + 10 ^ 16) / (2 * 10 ^ 16)
  if k < 1 then 1 else if k > 30 then 30 else k.toNat

/-- `BloomBuilder::Add`. -/
def add (b : BloomBuilder) (key : Bytes) : BloomBuilder :=
  { b with hashes := b.hashes ++ [murmurHash128 key] }

/-- The number of bits before it is rounded up to whole bytes. The product is computed in
    `uint64_t`, into which the `int` converts by sign extension. -/
def wantedBits (n : Nat) (bitsPerKey : Int) : UInt64 :=
  let bits := n.toUInt64 * UInt64.ofInt bitsPerKey
  if bits < 64 then 64 else bits

/-- The size of the bit array in bytes. -/
def arrayBytes (n : Nat) (bitsPerKey : Int) : UInt64 := (wantedBits n bitsPerKey + 7) / 8

/-- `array[bit >> 3] |= 1u << (bit & 7)`. -/
def setBit (array : Bytes) (bit : UInt64) : Bytes :=
  array.modify (bit >>> 3).toNat (· ||| ((1 : UInt8) <<< (bit &&& 7).toUInt8))

/-- The probe loop for one key. -/
def setProbes (bits : UInt64) : Nat → UInt64 → UInt64 → Bytes → Bytes
  | 0, _, _, array => array
  | k + 1, a, b, array => setProbes bits k (a + b) b (setBit array (a % bits))

/-- `Finish` with the probe count `k` that was chosen for the table. The probes are taken modulo
    `bits`, which is undefined if that is zero (`finishDefined`). -/
def finishWith (k : Nat) (b : BloomBuilder) : Bytes :=
  let bytes := arrayBytes b.hashes.length b.bitsPerKey
  -- a whole number of bytes again
  let bits := bytes * 8
  putFixed32 bits.toUInt32 ++ [k.toUInt8] ++
    b.hashes.foldl (fun array h => setProbes bits k h.1 h.2 array)
      (List.replicate bytes.toNat 0)

/-- `BloomBuilder::Finish`. -/
def finish (b : BloomBuilder) : Bytes := finishWith (probesForBitsPerKey b.bitsPerKey) b

/-- `Finish` takes nothing modulo zero: there are no keys, or the number of bits has not wrapped to
    zero, as it does for one key and a `bits_per_key` of -1. -/
def finishDefined (b : BloomBuilder) : Bool :=
  b.hashes.isEmpty || arrayBytes b.hashes.length b.bitsPerKey != 0

end BloomBuilder

/-- `BloomFilter`: the bit array is a pointer into `data`, null while `numBits` is 0. -/
structure BloomFilter where
  data : Bytes := []
  bits : Bytes := []
  numBits : UInt32 := 0
  numProbes : Nat := 0
  deriving DecidableEq

namespace BloomFilter

/-- `BloomFilter::Reset`. The size check is computed in 32-bit arithmetic. -/
def reset (data : Bytes) : Option BloomFilter := do
  -- too short for the header: the filter stays invalid
  if data.length < 5 then return { data := data }
  let bits ← decodeFixed32 data
  let k ← data[4]?
  -- `bits + 7` may wrap around
  if bits = 0 ∨ data.length < (5 + (bits + 7) / 8).toNat then return { data := data }
  return { data := data, bits := data.drop 5, numBits := bits, numProbes := k.toNat }

/-- `valid()`. -/
def valid (f : BloomFilter) : Bool := f.numBits > 0

/-- `(bits_[bit >> 3] & (1u << (bit & 7))) != 0`, `none` if the byte is out of range. -/
def testBit (array : Bytes) (bit : UInt64) : Option Bool :=
  array[(bit >>> 3).toNat]?.map fun b => b &&& ((1 : UInt8) <<< (bit &&& 7).toUInt8) != 0

/-- The probe loop of `MayContain`. -/
def testProbes (array : Bytes) (bits : UInt64) : Nat → UInt64 → UInt64 → Option Bool
  | 0, _, _ => some true
  | k + 1, a, b => do
    if ← testBit array (a % bits) then testProbes array bits k (a + b) b else return false

/-- `BloomFilter::MayContain`. -/
def mayContain (f : BloomFilter) (key : Bytes) : Option Bool :=
  -- without a bit array nothing is ruled out
  if f.numBits = 0 then some true
  else
    let h := murmurHash128 key
    testProbes f.bits f.numBits.toUInt64 f.numProbes h.1 h.2

end BloomFilter

end Lsmdb
