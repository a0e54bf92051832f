import Lsmdb.Native.Coding

/-!
# CRC32 and MurmurHash3 (`crc32.cpp`, `hash.cpp`)

The checksum of every block, index and log record, and the 128-bit hash behind the
bloom filter. Both are transcribed at their machine widths.
-/

namespace Lsmdb

/-! ## CRC32 -/

/-- The reflected IEEE 802.3 polynomial `kPoly`. -/
def kPoly : UInt32 := 0xEDB88320

/-- One round of the inner loop of `BuildTable`. -/
def tableRound (c : UInt32) : UInt32 :=
  if c &&& 1 ≠ 0 then kPoly ^^^ (c >>> 1) else c >>> 1

/-- The 256-entry lookup table of `BuildTable`: eight rounds for each byte. -/
def buildTable : List UInt32 :=
  (List.range 256).map fun i => (List.range 8).foldl (fun c _ => tableRound c) i.toUInt32

/-- One iteration of the loop of `Crc32`. -/
def crcStep (crc : UInt32) (b : UInt8) : UInt32 :=
  buildTable.getD ((crc ^^^ b.toUInt32) &&& 0xff).toNat 0 ^^^ (crc >>> 8)

/-- `Crc32` over a buffer. -/
def crc32 (data : Bytes) : UInt32 :=
  data.foldl crcStep 0xFFFFFFFF ^^^ 0xFFFFFFFF

/-! ## MurmurHash3 -/

/-- `Rotl64`, for `0 < r < 64`. -/
def rotl64 (x : UInt64) (r : UInt64) : UInt64 := (x <<< r) ||| (x >>> (64 - r))

/-- `GetBlock64`: the `i`-th little-endian word of `p`. The index is an `int` in the code, which holds
    the indices of strings below `2 ^ 31` bytes. -/
def getBlock64 (p : Bytes) (i : Nat) : UInt64 :=
  UInt64.ofNat (leValue ((p.drop (i * 8)).take 8))

/-- `Fmix64`, the finalizer of one half. -/
def fmix64 (k : UInt64) : UInt64 :=
  let k := k ^^^ (k >>> 33)
  let k := k * 0xff51afd7ed558ccd
  let k := k ^^^ (k >>> 33)
  let k := k * 0xc4ceb9fe1a85ec53
  k ^^^ (k >>> 33)

def murmurC1 : UInt64 := 0x87c37b91114253d5
def murmurC2 : UInt64 := 0x4cf5ad432745937f

/-- `k1 *= c1; k1 = Rotl64(k1, 31); k1 *= c2`. -/
def mixK1 (k1 : UInt64) : UInt64 := rotl64 (k1 * murmurC1) 31 * murmurC2

/-- `k2 *= c2; k2 = Rotl64(k2, 33); k2 *= c1`. -/
def mixK2 (k2 : UInt64) : UInt64 := rotl64 (k2 * murmurC2) 33 * murmurC1

/-- One iteration of the body: 16 bytes are mixed into the two halves. -/
def murmurBlock (h : UInt64 × UInt64) (k1 k2 : UInt64) : UInt64 × UInt64 :=
  let h1 := h.1 ^^^ mixK1 k1
  let h1 := (rotl64 h1 27 + h.2) * 5 + 0x52dce729
  let h2 := h.2 ^^^ mixK2 k2
  let h2 := (rotl64 h2 31 + h1) * 5 + 0x38495ab5
  (h1, h2)

/-- `static_cast<uint64_t>(tail[i]) << s` where the switch on `len & 15` reaches it. -/
def tailByte (tail : Bytes) (i : Nat) (s : UInt64) : UInt64 :=
  match tail[i]? with
  | some b => b.toUInt64 <<< s
  | none => 0

/-- The tail: the cases 15 down to 9 fall through into `k2`, 8 down to 1 into `k1`. -/
def murmurTail (h : UInt64 × UInt64) (tail : Bytes) : UInt64 × UInt64 :=
  let k2 := tailByte tail 14 48 ^^^ tailByte tail 13 40 ^^^ tailByte tail 12 32 ^^^
    tailByte tail 11 24 ^^^ tailByte tail 10 16 ^^^ tailByte tail 9 8 ^^^ tailByte tail 8 0
  let k1 := tailByte tail 7 56 ^^^ tailByte tail 6 48 ^^^ tailByte tail 5 40 ^^^
    tailByte tail 4 32 ^^^ tailByte tail 3 24 ^^^ tailByte tail 2 16 ^^^
    tailByte tail 1 8 ^^^ tailByte tail 0 0
  -- the halves are only mixed if their case of the switch is reached
  let h2 := if 9 ≤ tail.length then h.2 ^^^ mixK2 k2 else h.2
  let h1 := if 1 ≤ tail.length then h.1 ^^^ mixK1 k1 else h.1
  (h1, h2)

/-- `MurmurHash3_x64_128`, its two output words as a pair. -/
def murmurHash3 (data : Bytes) (seed : UInt32) : UInt64 × UInt64 :=
  let nblocks := data.length / 16
  let h := (List.range nblocks).foldl
    (fun h i => murmurBlock h (getBlock64 data (i * 2)) (getBlock64 data (i * 2 + 1)))
    (seed.toUInt64, seed.toUInt64)
  let (h1, h2) := murmurTail h (data.drop (nblocks * 16))
  -- the finalization
  let h1 := h1 ^^^ data.length.toUInt64
  let h2 := h2 ^^^ data.length.toUInt64
  let h1 := h1 + h2
  let h2 := h2 + h1
  let h1 := fmix64 h1
  let h2 := fmix64 h2
  let h1 := h1 + h2
  let h2 := h2 + h1
  (h1, h2)

/-- `MurmurHash128`: seed 0. -/
def murmurHash128 (s : Bytes) : UInt64 × UInt64 := murmurHash3 s 0

end Lsmdb
