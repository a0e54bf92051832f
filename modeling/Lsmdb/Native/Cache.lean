import Lsmdb.Native.Coding

/-!
# LRU block cache (`cache.cpp`)

A recency list of entries, most recently used first, and a hash map from
`(file number, block offset)` to positions in the list. A `std::list` iterator stays
with its node when the node is spliced, so a position is modelled by the identity of
the list node, drawn from the counter `nextNode`.
-/

namespace Lsmdb

/-- `BlockCache::Key`. -/
structure CacheKey where
  file : Nat
  offset : UInt64
  deriving DecidableEq, Repr

/-- `BlockCache::Entry`, with the identity of the list node that holds it. -/
structure CacheEntry where
  node : Nat
  key : CacheKey
  block : Bytes
  bytes : UInt64
  deriving DecidableEq, Repr

structure BlockCache where
  capacityBytes : UInt64
  usedBytes : UInt64 := 0
  lru : List CacheEntry := []
  map : List (CacheKey × Nat) := []
  nextNode : Nat := 0

namespace BlockCache

/-- `size_bytes()`. -/
def sizeBytes (c : BlockCache) : UInt64 := c.usedBytes

/-- `map_.find(key)`. -/
def find (c : BlockCache) (key : CacheKey) : Option Nat := c.map.lookup key

/-- `lru_.splice(lru_.begin(), lru_, it)`: move a node to the front. -/
def spliceFront (lru : List CacheEntry) (node : Nat) : List CacheEntry :=
  lru.filter (·.node = node) ++ lru.filter (·.node ≠ node)

/-- `BlockCache::Lookup`. -/
def lookup (c : BlockCache) (file : Nat) (offset : UInt64) : BlockCache × Option Bytes :=
  match c.find ⟨file, offset⟩ with
  | none => (c, none)
  | some node =>
    ({ c with lru := spliceFront c.lru node },
      (c.lru.find? (·.node = node)).map (·.block))

/-- The eviction loop of `Insert`: drop entries from the back of the list until the budget
    holds or one entry is left. The list is passed back to front. -/
def evict (capacity : UInt64) :
    List CacheEntry → UInt64 → List (CacheKey × Nat) →
      List CacheEntry × UInt64 × List (CacheKey × Nat)
  | victim :: e :: rest, used, map =>
    if used > capacity then
      evict capacity (e :: rest) (used - victim.bytes) (map.filter (·.1 ≠ victim.key))
    else (victim :: e :: rest, used, map)
  | lru, used, map => (lru, used, map)

/-- `BlockCache::Insert` of a non-null block. -/
def insert (c : BlockCache) (file : Nat) (offset : UInt64) (block : Bytes) : BlockCache :=
  if c.capacityBytes = 0 then c
  else
    let key : CacheKey := ⟨file, offset⟩
    let bytes := block.length.toUInt64
    match c.find key with
    | some node =>
      -- refresh in place
      let old := ((c.lru.find? (·.node = node)).map (·.bytes)).getD 0
      let lru := c.lru.map fun e =>
        if e.node = node then { e with block := block, bytes := bytes } else e
      { c with usedBytes := c.usedBytes - old + bytes, lru := spliceFront lru node }
    | none =>
      let entry : CacheEntry := ⟨c.nextNode, key, block, bytes⟩
      let (back, used, map) := evict c.capacityBytes (entry :: c.lru).reverse
        (c.usedBytes + bytes) ((key, c.nextNode) :: c.map)
      { c with usedBytes := used, lru := back.reverse, map := map, nextNode := c.nextNode + 1 }

end BlockCache

end Lsmdb
