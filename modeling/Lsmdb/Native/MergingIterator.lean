import Lsmdb.Native.SSTable

/-!
# K-way merge (`merging_iterator.cpp`)

`MergingIterator::Advance` and the loop of `DB::Scan` share their three inner loops:
the smallest key among the valid heads, the first child that holds it, and the
advance of every child that holds it. They are written once, for any iterator.
-/

namespace Lsmdb

/-- `if (best < 0 || c.key() < children_[best].key()) best = i;` for a child with the given head,
    in terms of the key of the best child. -/
def betterKey (best : Option Bytes) : Option Entry → Option Bytes
  | none => best
  | some e =>
    match best with
    | none => some e.key
    | some k => if e.key < k then some e.key else some k

section

variable {ι : Type} [Cursor ι Entry Status]

/-- The loop that looks for the smallest key among the valid heads. -/
def smallestKey (children : List ι) : Option Bytes :=
  children.foldl (fun best c => betterKey best (Cursor.head c)) none

/-- The head of the first child that is on the key. -/
def winner (children : List ι) (key : Bytes) : Option Entry :=
  children.findSome? fun c => (Cursor.head c).filter fun e => e.key = key

/-- `if (c.Valid() && c.key() == key) c.Next();` -/
def consumeKey (key : Bytes) (c : ι) : Option ι :=
  match Cursor.head c with
  | some e => if e.key = key then Cursor.next c else some c
  | none => some c

/-- The loop that advances every child that is on the key. -/
def consume (children : List ι) (key : Bytes) : Option (List ι) :=
  children.mapM (consumeKey key)

end

structure MergingIterator where
  children : List SSTableReader.Iterator
  curKey : Bytes := []
  curValue : Bytes := []
  curIsTombstone : Bool := false
  valid : Bool := false
  status : Status := .OK

namespace MergingIterator

/-- The constructor. -/
def new (children : List SSTableReader.Iterator) : MergingIterator := { children := children }

/-- `Advance`. The first loop returns at the first child whose status is not `OK`, before
    anything has changed. -/
def advance (m : MergingIterator) : Option MergingIterator := do
  match m.children.find? fun c => !c.status.ok with
  | some c => return { m with status := c.status, valid := false }
  | none =>
    match smallestKey m.children with
    | none => return { m with valid := false }
    | some key =>
      -- the first child that has the key is the newest table
      let e ← winner m.children key
      return { m with
        -- the older records of the key are skipped with it
        children := ← consume m.children key
        curKey := key, curValue := e.value, curIsTombstone := e.isTombstone, valid := true }

/-- `SeekToFirst`. -/
def seekToFirst (m : MergingIterator) : Option MergingIterator := do
  let children ← m.children.mapM SSTableReader.Iterator.seekToFirst
  advance { m with children := children }

/-- `Next`. -/
def next (m : MergingIterator) : Option MergingIterator :=
  if !m.valid then some m else m.advance

/-- The iterator as `DoCompaction` sees it. -/
instance : Cursor MergingIterator Entry Status where
  head m := if m.valid then
      some ⟨m.curKey, m.curValue, if m.curIsTombstone then .tombstone else .value⟩
    else none
  next := next
  status m := m.status

end MergingIterator

end Lsmdb
