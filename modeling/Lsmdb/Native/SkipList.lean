import Lsmdb.ForStd.Cursor
import Lsmdb.Native.Coding

/-!
# Skip list memtable (`skiplist.cpp`)

The nodes live in a heap and refer to each other by address. The address of a node is
its index in the heap, and the head is node 0. The heights that `RandomLevel` draws
from `std::mt19937` are a parameter: `rng n` is the result of the `n`-th draw, less 1.

`none` stands for a null or dangling dereference, for a `delete` of a node that is not there, or for
a loop that does not end.
-/

namespace Lsmdb

namespace SkipList

def kMaxLevel : Nat := 16

/-- A node has at least one level. -/
theorem kMaxLevel_pos : 0 < kMaxLevel := by decide

/-- `SkipList::Node`. The length of `forward` is the node's height. -/
structure Node where
  key : Bytes
  value : Bytes
  isTombstone : Bool
  forward : List (Option Nat)

end SkipList

open SkipList in
structure SkipList where
  nodes : List Node
  level : Nat
  count : Nat
  memUsage : UInt64
  rng : Nat → Fin kMaxLevel
  drawn : Nat

namespace SkipList

def sizeofNode : UInt64 := 96
def sizeofPtr : UInt64 := 8

/-- The constructor. -/
def new (rng : Nat → Fin kMaxLevel) : SkipList where
  nodes := [⟨[], [], false, List.replicate kMaxLevel none⟩]
  level := 1
  count := 0
  memUsage := 0
  rng := rng
  drawn := 0

/-- `x->forward[i]`. -/
def forwardAt (l : SkipList) (x i : Nat) : Option (Option Nat) := do
  (← l.nodes[x]?).forward[i]?

/-- `while (x->forward[i] != nullptr && x->forward[i]->key < key) x = x->forward[i];` with a bound
    on the number of iterations. -/
def advance (l : SkipList) (key : Bytes) (i : Nat) : Nat → Nat → Option Nat
  | 0, _ => none
  | fuel + 1, x => do
    match ← l.forwardAt x i with
    | none => return x
    | some y => if (← l.nodes[y]?).key < key then advance l key i fuel y else return x

/-- `for (int i = level_ - 1; i >= 0; --i) { ...; update[i] = x; }`, from level `i - 1` down.
    A search visits each node at most once per level. -/
def descend (l : SkipList) (key : Bytes) : Nat → Nat → List Nat → Option (Nat × List Nat)
  | 0, x, update => some (x, update)
  | i + 1, x, update => do
    let x ← l.advance key i l.nodes.length x
    descend l key i x (update.set i x)

/-- `x->forward[i] = next`. -/
def setForward (nodes : List Node) (x i : Nat) (next : Option Nat) : List Node :=
  nodes.modify x fun n => { n with forward := n.forward.set i next }

/-- `node->forward[i] = update[i]->forward[i]; update[i]->forward[i] = node;` -/
def linkAt (update : List Nat) (node : Nat) (nodes : List Node) (i : Nat) : Option (List Node) := do
  let u ← update[i]?
  let next ← (← nodes[u]?).forward[i]?
  return setForward (setForward nodes node i next) u i (some node)

/-- The part of `Insert` that adds a node of the given height. -/
def addNode (l : SkipList) (key value : Bytes) (tombstone : Bool) (update : List Nat)
    (height : Nat) : Option SkipList := do
  -- levels that are populated for the first time start at the head
  let update := if height > l.level then
      (List.range' l.level (height - l.level)).foldl (fun update i => update.set i 0) update
    else update
  let level := if height > l.level then height else l.level
  let node := l.nodes.length
  let nodes ← (List.range height).foldlM (linkAt update node)
    (l.nodes ++ [⟨key, value, tombstone, List.replicate height none⟩])
  return { l with
    nodes := nodes
    level := level
    count := l.count + 1
    memUsage := l.memUsage + (key.length.toUInt64 + value.length.toUInt64 + sizeofNode +
      height.toUInt64 * sizeofPtr) }

/-- The part of `Insert` that overwrites a node in place. -/
def overwrite (l : SkipList) (x : Nat) (value : Bytes) (tombstone : Bool) : Option SkipList := do
  let old ← l.nodes[x]?
  return { l with
    nodes := l.nodes.modify x fun n => { n with value := value, isTombstone := tombstone }
    memUsage := l.memUsage - old.value.length.toUInt64 + value.length.toUInt64 }

/-- `Insert`. -/
def insert (l : SkipList) (key value : Bytes) (tombstone : Bool) : Option SkipList := do
  let (x, update) ← l.descend key l.level 0 (List.replicate kMaxLevel 0)
  match ← l.forwardAt x 0 with
  | some next =>
    if (← l.nodes[next]?).key = key then l.overwrite next value tombstone
    else insertNew update
  | none => insertNew update
where
  /-- `RandomLevel` and the insertion of a node of that height. -/
  insertNew (update : List Nat) : Option SkipList :=
    addNode { l with drawn := l.drawn + 1 } key value tombstone update ((l.rng l.drawn).val + 1)

/-- `Put`. -/
def put (l : SkipList) (key value : Bytes) : Option SkipList := l.insert key value false

/-- `Delete`. -/
def delete (l : SkipList) (key : Bytes) : Option SkipList := l.insert key [] true

/-- `Get`. -/
def get (l : SkipList) (key : Bytes) : Option LookupResult := do
  let (x, _) ← l.descend key l.level 0 (List.replicate kMaxLevel 0)
  match ← l.forwardAt x 0 with
  | none => return .notFound
  | some next =>
    let n ← l.nodes[next]?
    return if n.key = key then if n.isTombstone then .deleted else .found n.value else .notFound

/-- `Size()`. -/
def size (l : SkipList) : Nat := l.count

/-- `ApproximateMemoryUsage()`. -/
def approximateMemoryUsage (l : SkipList) : UInt64 := l.memUsage

/-! ## Destructor -/

/-- `delete n`, on a heap from which the nodes that have been deleted are gone. -/
def free (heap : List (Option Node)) (n : Nat) : Option (List (Option Node)) := do
  let _ ← heap[n]?.join
  return heap.set n none

/-- `while (n != nullptr) { Node* next = n->forward[0]; delete n; n = next; }`, with a bound on the
    number of iterations. -/
def destroyLoop : Nat → List (Option Node) → Option Nat → Option (List (Option Node))
  | _, heap, none => some heap
  | 0, _, some _ => none
  | fuel + 1, heap, some n => do
    let next ← (← heap[n]?.join).forward[0]?
    destroyLoop fuel (← free heap n) next

/-- The destructor: what it leaves of the heap. -/
def destroy (l : SkipList) : Option (List (Option Node)) := do
  let heap := l.nodes.map some
  let first ← (← heap[0]?.join).forward[0]?
  free (← destroyLoop l.nodes.length heap first) 0

/-! ## Iterator -/

structure Iterator where
  list : SkipList
  node : Option Nat

/-- `NewIterator`. -/
def newIterator (l : SkipList) : Iterator := ⟨l, none⟩

namespace Iterator

/-- `SeekToFirst`. -/
def seekToFirst (it : Iterator) : Option Iterator :=
  (it.list.forwardAt 0 0).map fun node => { it with node := node }

/-- `Seek`: the first node whose key is at least `target`. -/
def seek (it : Iterator) (target : Bytes) : Option Iterator := do
  let (x, _) ← it.list.descend target it.list.level 0 (List.replicate kMaxLevel 0)
  return { it with node := ← it.list.forwardAt x 0 }

/-- `Next`. -/
def next (it : Iterator) : Option Iterator := do
  let x ← it.node
  return { it with node := ← it.list.forwardAt x 0 }

end Iterator

/-- A node as a record: `DB` turns the flag into a type when it writes one. -/
def Node.entry (n : Node) : Entry :=
  ⟨n.key, n.value, if n.isTombstone then .tombstone else .value⟩

/-- `MemIter`, the iterator as `Scan` and the flush see it. Its status is always `OK`. -/
instance : Cursor Iterator Entry Status where
  head it := it.node.bind fun x => it.list.nodes[x]?.map Node.entry
  next := Iterator.next
  status _ := .OK

end SkipList

end Lsmdb
