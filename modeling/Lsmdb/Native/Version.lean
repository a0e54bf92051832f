import Lsmdb.Native.MergingIterator
import Lsmdb.Native.SkipList

/-!
# Versions (`db.h`, `db.cpp`)

The part of `DB` that is a function of a version, an immutable snapshot of the level
layout: the level walk of `Get`, the merge of `Scan`, and the choice and the
installation of a compaction. What `DB` does to its files and to the shared state
stands in `Lsmdb.Native.DB`.

Containers are lists and their sizes are unbounded, so the casts of a size to `int` are the
identity, as they are in the code for levels of at most `2 ^ 30` files. The options that are
`int`s are integers; where the code converts one to an unsigned type the model does so too.
-/

namespace Lsmdb

structure Options where
  sync : Bool := true
  memtableFlushThreshold : UInt64 := 4 * 1024 * 1024
  l0CompactionTrigger : Int := 4
  l1TargetBytes : UInt64 := 8 * 1024 * 1024
  levelSizeMultiplier : Int := 10
  targetFileSize : UInt64 := 2 * 1024 * 1024
  maxLevels : Int := 7
  bloomBitsPerKey : Int := 10
  blockCacheBytes : UInt64 := 8 * 1024 * 1024
  deriving DecidableEq

def kOutputBlockSize : Nat := 4096

structure FileMeta where
  number : Nat := 0
  smallest : Bytes := []
  largest : Bytes := []
  fileSize : UInt64 := 0
  numEntries : UInt64 := 0
  reader : SSTableReader

/-- `levels[0]` is L0, with the newest file at the back. -/
structure Version where
  levels : List (List FileMeta) := []

/-- The inputs are in priority order, newest first. -/
structure Compaction where
  sourceLevel : Nat := 0
  targetLevel : Nat := 0
  bottommost : Bool := false
  inputs : List FileMeta := []

/-- Does `[fsmall, flarge]` intersect `[lo, hi]`? -/
def overlaps (fsmall flarge lo hi : Bytes) : Bool := flarge ≥ lo && fsmall ≤ hi

/-! ## Point lookup -/

section Get

variable (key : Bytes)

/-- One table of the level walk. The status of the lookup is stored in a local variable that
    nothing reads. -/
def probe (f : FileMeta) (cache : Option BlockCache) : Option (LookupResult × Option BlockCache) := do
  let ((r, _st), cache) ← f.reader.get cache key
  return (r, cache)

/-- The walk over L0, whose files overlap; the list is newest first. -/
def searchL0 : List FileMeta → Option BlockCache → Option (LookupResult × Option BlockCache)
  | [], cache => some (.notFound, cache)
  | f :: files, cache =>
    if key < f.smallest ∨ key > f.largest then searchL0 files cache
    else do
      let (r, cache) ← probe key f cache
      if r ≠ .notFound then return (r, cache) else searchL0 files cache

/-- The one file of a deeper level that can hold the key: the last one whose smallest key is at
    most the key, unless its largest key is below it. The search adds indices as `int`s, which is
    exact for levels of at most `2 ^ 30` files. -/
def candidate (files : List FileMeta) : Option (Option FileMeta) := do
  let lo ← BinarySearch.loop (fun f : FileMeta => decide (f.smallest ≤ key)) files 0 files.length
  if lo = 0 then return none
  let f ← files[lo - 1]?
  return if key > f.largest then none else some f

/-- The walk over the deeper levels. -/
def searchLevels :
    List (List FileMeta) → Option BlockCache → Option (LookupResult × Option BlockCache)
  | [], cache => some (.notFound, cache)
  | files :: levels, cache => do
    if files = [] then searchLevels levels cache
    else
      match ← candidate key files with
      | none => searchLevels levels cache
      | some f =>
        let (r, cache) ← probe key f cache
        if r ≠ .notFound then return (r, cache) else searchLevels levels cache

end Get

/-- `GetFromVersion`, with the block cache as it was and as it is afterwards. -/
def getFromVersion (v : Version) (cache : Option BlockCache) (key : Bytes) :
    Option (LookupResult × Option BlockCache) :=
  match v.levels with
  | [] => some (.notFound, cache)
  | l0 :: deeper => do
    let (r, cache) ← searchL0 key l0.reverse cache
    if r ≠ .notFound then return (r, cache) else searchLevels key deeper cache

/-! ## Range scan -/

/-- `InternalIterator`: a `MemIter` or an `SstIter`. -/
inductive InternalIterator
  | mem (it : SkipList.Iterator)
  | sst (it : SSTableReader.Iterator)

namespace InternalIterator

/-- `Seek`. -/
def seek (target : Bytes) : InternalIterator → Option InternalIterator
  | mem it => (it.seek target).map mem
  | sst it => (it.seek target).map sst

instance : Cursor InternalIterator Entry Status where
  head
    | mem it => Cursor.head it
    | sst it => Cursor.head it
  next
    | mem it => (Cursor.next it).map mem
    | sst it => (Cursor.next it).map sst
  status
    | mem it => Cursor.status it
    | sst it => Cursor.status it

end InternalIterator

/-- The tables of a version in priority order: L0 newest first, then the deeper levels. -/
def Version.byPriority (v : Version) : List FileMeta :=
  match v.levels with
  | [] => []
  | l0 :: deeper => l0.reverse ++ deeper.flatten

/-- The sources of a scan in priority order. -/
def scanSources (mem : SkipList) (v : Version) : List InternalIterator :=
  .mem mem.newIterator :: v.byPriority.map fun f => .sst f.reader.newIterator

/-- Seek every source; stop at the first that fails. -/
def seekAll (start : Bytes) : List InternalIterator → Option (Except Status (List InternalIterator))
  | [] => some (.ok [])
  | it :: iters => do
    let it ← it.seek start
    if !(Cursor.status it).ok then return .error (Cursor.status it)
    match ← seekAll start iters with
    | .error s => return .error s
    | .ok iters => return .ok (it :: iters)

/-- The merge loop. A turn passes at least one record of some source, which bounds the turns. -/
def scanLoop (end_ : Bytes) :
    Nat → List InternalIterator → List (Bytes × Bytes) →
      Option (List InternalIterator × List (Bytes × Bytes))
  | 0, _, _ => none
  | fuel + 1, iters, out =>
    match smallestKey iters with
    | none => some (iters, out)
    | some cur =>
      -- an empty end is no bound
      if end_ ≠ [] ∧ cur ≥ end_ then some (iters, out)
      else do
        let e ← winner iters cur
        let iters ← consume iters cur
        scanLoop end_ fuel iters (if e.isTombstone then out else out ++ [(cur, e.value)])

/-- Every record takes a node of the memtable or a byte of a file. -/
def scanTurns (mem : SkipList) (v : Version) : Nat :=
  mem.nodes.length + (v.byPriority.map fun f => f.reader.base.length).sum + 1

/-- `Scan`: the status and the pairs in `out`. -/
def scan (mem : SkipList) (v : Version) (start end_ : Bytes) :
    Option (Status × List (Bytes × Bytes)) := do
  match ← seekAll start (scanSources mem v) with
  | .error s => return (s, [])
  | .ok iters =>
    let (iters, out) ← scanLoop end_ (scanTurns mem v) iters []
    match iters.find? fun it => !(Cursor.status it).ok with
    | some it => return (Cursor.status it, out)
    | none => return (.OK, out)

/-! ## Compaction -/

/-- The byte budget of level `i`: `budget *= options_.level_size_multiplier` for each level
    between 1 and `i`, in 64 bits. -/
def levelBudget (options : Options) (i : Nat) : UInt64 :=
  (fun budget => budget * UInt64.ofInt options.levelSizeMultiplier)^[i - 1] options.l1TargetBytes

/-- The bytes of the files of a level. -/
def levelBytes (files : List FileMeta) : UInt64 :=
  files.foldl (fun bytes f => bytes + f.fileSize) 0

/-- The range of the loop `for (i = 1; i < levels.size() && i < (size_t)max_levels - 1; ++i)`. -/
def budgetedLevels (options : Options) (v : Version) : List Nat :=
  (List.range v.levels.length).filter fun i =>
    1 ≤ i && decide (i < (UInt64.ofInt options.maxLevels - 1).toNat)

/-- The files of a level; a level that the version does not have is empty. -/
def Version.level (v : Version) (i : Nat) : List FileMeta := v.levels.getD i []

/-- `NeedsCompaction`. The number of L0 files is cast to `int`, which keeps it below `2 ^ 31`. -/
def needsCompaction (options : Options) (v : Version) : Bool :=
  if v.levels = [] then false
  else if ((v.level 0).length : Int) ≥ options.l0CompactionTrigger then true
  else (budgetedLevels options v).any fun i =>
    !(v.level i).isEmpty && levelBytes (v.level i) > levelBudget options i

/-- `no_data_below`. -/
def noDataBelow (v : Version) (target : Nat) : Bool :=
  (v.levels.drop (target + 1)).all (·.isEmpty)

/-- The files of a level whose range intersects `[lo, hi]`. -/
def overlapping (files : List FileMeta) (lo hi : Bytes) : List FileMeta :=
  files.filter fun f => overlaps f.smallest f.largest lo hi

/-- `PickCompaction`. The outer option is `none` where `l0.front()` is called on an empty
    vector, the inner one where there is nothing to do. -/
def pickCompaction (options : Options) (v : Version) : Option (Option Compaction) :=
  if v.levels = [] then some none
  else if ((v.level 0).length : Int) ≥ options.l0CompactionTrigger then
    -- priority 1: all of L0, newest first, and what it overlaps in L1
    let l0 := (v.level 0).insertionSort fun a b => a.number ≥ b.number
    match l0 with
    | [] => none
    | front :: _ =>
      let lo := l0.foldl (fun lo f => min lo f.smallest) front.smallest
      let hi := l0.foldl (fun hi f => max hi f.largest) front.largest
      some (some {
        sourceLevel := 0
        targetLevel := 1
        inputs := l0 ++ overlapping (v.level 1) lo hi
        bottommost := noDataBelow v 1 })
  else
    -- priority 2: the first file of a level over its budget, and what it overlaps in the next
    match (budgetedLevels options v).find? fun i =>
        !((v.level i).isEmpty || levelBytes (v.level i) ≤ levelBudget options i) with
    | none => some none
    | some i =>
      match v.level i with
      | [] => none
      | chosen :: _ =>
        some (some {
          sourceLevel := i
          targetLevel := i + 1
          inputs := chosen :: overlapping (v.level (i + 1)) chosen.smallest chosen.largest
          bottommost := noDataBelow v (i + 1) })

/-- `strip`: drop the inputs of a compaction from a level. -/
def strip (c : Compaction) (files : List FileMeta) : List FileMeta :=
  files.filter fun f => !(c.inputs.map (·.number)).contains f.number

/-- `InstallCompaction`. -/
def installCompaction (current : Version) (c : Compaction) (outputs : List FileMeta) : Version :=
  let need := max c.sourceLevel c.targetLevel + 1
  let levels := current.levels ++ List.replicate (need - current.levels.length) []
  let levels := (levels.modify c.sourceLevel (strip c)).modify c.targetLevel (strip c)
  let levels := levels.modify c.targetLevel (· ++ outputs)
  -- deeper levels stay sorted by key
  if c.targetLevel ≥ 1 then
    ⟨levels.modify c.targetLevel (·.insertionSort fun a b => a.smallest ≤ b.smallest)⟩
  else ⟨levels⟩

end Lsmdb
