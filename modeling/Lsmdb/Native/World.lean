import Mathlib.Data.List.AList
import Lsmdb.ForStd.Prog
import Lsmdb.Native.Manifest

/-!
# What the engine runs on

The state that outlives a call (the directory, and the members of `DB` that its
threads share), and the calls through which the code of `Lsmdb.Native.DB` reads and
changes it. A call is one file-system call or one access to a shared variable. How a
file-system call turns out is a choice of the environment: it succeeds, fails with an
error text, or writes only a part.

A file is named by its name in the directory and written at its end, which is where the
descriptors of this program stand. A kill keeps the directory and drops everything else.
-/

namespace Lsmdb

/-- The files of the database directory. -/
abbrev Disk := AList fun _ : String => Bytes

/-- The thread that calls the public functions, and the compaction thread. -/
inductive Thread
  | client
  | background
  deriving DecidableEq, Repr

structure World where
  disk : Disk
  mutex : Option Thread := none
  mem : SkipList
  cache : Option BlockCache
  current : Version := {}
  nextFileNumber : Nat := 1
  walOpen : Bool := false
  shuttingDown : Bool := false

inductive Call
  /- shared variables -/
  | lock
  | unlock
  | loadCurrent
  | storeCurrent (v : Version)
  | takeFileNumber
  | loadFileNumber
  | storeFileNumber (number : Nat)
  | loadMem
  | storeMem (mem : SkipList)
  | loadCache
  | storeCache (cache : Option BlockCache)
  | loadWal
  | storeWal (isOpen : Bool)
  | loadShuttingDown
  | storeShuttingDown
  /- files -/
  | openTrunc (name : String)
  | openAppend (name : String)
  | openRead (name : String)
  | fstat (name : String)
  | mmap (name : String)
  | write (name : String) (data : Bytes)
  | fsync (name : String)
  | close (name : String)
  | rename (src dst : String)
  | unlink (name : String)
  | readDir
  /-- The mapped inputs of a compaction, whose blocks may have become unreadable. -/
  | mapInputs (readers : List SSTableReader)
  /-- Not a call: marks where the records of a table are complete, for conditions on runs. -/
  | tableDone (bloomBitsPerKey : Int) (es : List Entry)

/-- What a call returns; a failed call returns its error text. -/
@[reducible] def Call.Res : Call → Type
  | lock | unlock | storeCurrent _ | storeFileNumber _ | storeMem _ | storeCache _ | storeWal _
  | storeShuttingDown | unlink _ | tableDone _ _ => Unit
  | loadCurrent => Version
  | takeFileNumber | loadFileNumber => Nat
  | loadMem => SkipList
  | loadCache => Option BlockCache
  | loadWal | loadShuttingDown => Bool
  | openTrunc _ | openAppend _ | fstat _ | mmap _ | fsync _ | close _ | rename _ _ =>
    Except String Unit
  | openRead _ => Except String Bytes
  | write _ _ => Except String Nat
  | readDir => Disk
  | mapInputs _ => List SSTableReader

/-- How the environment lets a call turn out. -/
inductive Choice
  | ok
  | short (n : Nat)
  | fail (errno : String)
  | inputs (readers : List SSTableReader)

def enoent : String := "No such file or directory"
def ebadf : String := "Bad file descriptor"

/-- Append to a file. A file that has been unlinked while open keeps no name to see it by. -/
def Disk.append (disk : Disk) (name : String) (data : Bytes) : Disk :=
  match disk.lookup name with
  | some file => disk.insert name (file ++ data)
  | none => disk

/-- `rename`: the target is replaced in one step. -/
def Disk.rename (disk : Disk) (src dst : String) : Option Disk :=
  (disk.lookup src).map fun file => (disk.erase src).insert dst file

/-- What a call does. `none` means that the call is not possible: the mutex is taken, or the
    choice is none that the call has. -/
def exec (t : Thread) : (c : Call) → Choice → World → Option (c.Res × World)
  -- a thread that finds the mutex taken cannot go on
  | .lock, _, w => if w.mutex = none then some ((), { w with mutex := some t }) else none
  | .unlock, _, w => if w.mutex = some t then some ((), { w with mutex := none }) else none
  | .loadCurrent, _, w => some (w.current, w)
  | .storeCurrent v, _, w => some ((), { w with current := v })
  | .takeFileNumber, _, w =>
    some (w.nextFileNumber, { w with nextFileNumber := (w.nextFileNumber + 1) % 2 ^ 64 })
  | .loadFileNumber, _, w => some (w.nextFileNumber, w)
  | .storeFileNumber n, _, w => some ((), { w with nextFileNumber := n })
  | .loadMem, _, w => some (w.mem, w)
  | .storeMem mem, _, w => some ((), { w with mem := mem })
  | .loadCache, _, w => some (w.cache, w)
  | .storeCache cache, _, w => some ((), { w with cache := cache })
  | .loadWal, _, w => some (w.walOpen, w)
  | .storeWal b, _, w => some ((), { w with walOpen := b })
  | .loadShuttingDown, _, w => some (w.shuttingDown, w)
  | .storeShuttingDown, _, w => some ((), { w with shuttingDown := true })
  -- the calls that open a file
  | .openTrunc _, .fail errno, w => some (.error errno, w)
  | .openTrunc name, _, w => some (.ok (), { w with disk := w.disk.insert name [] })
  | .openAppend _, .fail errno, w => some (.error errno, w)
  | .openAppend name, _, w =>
    some (.ok (), if name ∈ w.disk then w else { w with disk := w.disk.insert name [] })
  | .openRead _, .fail errno, w => some (.error errno, w)
  | .openRead name, _, w =>
    match w.disk.lookup name with
    | some file => some (.ok file, w)
    | none => some (.error enoent, w)
  | .fstat _, .fail errno, w => some (.error errno, w)
  | .fstat _, _, w => some (.ok (), w)
  | .mmap _, .fail errno, w => some (.error errno, w)
  | .mmap _, _, w => some (.ok (), w)
  | .write _ _, .fail errno, w => some (.error errno, w)
  -- `write` may store a part and return its length
  | .write name data, .short n, w =>
    if 0 < n ∧ n ≤ data.length then
      some (.ok n, { w with disk := w.disk.append name (data.take n) })
    else none
  | .write name data, _, w => some (.ok data.length, { w with disk := w.disk.append name data })
  | .fsync _, .fail errno, w => some (.error errno, w)
  | .fsync _, _, w => some (.ok (), w)
  | .close _, .fail errno, w => some (.error errno, w)
  | .close _, _, w => some (.ok (), w)
  | .rename _ _, .fail errno, w => some (.error errno, w)
  | .rename src dst, _, w =>
    match w.disk.rename src dst with
    | some disk => some (.ok (), { w with disk := disk })
    | none => some (.error enoent, w)
  -- the result of `unlink` is ignored by every caller
  | .unlink _, .fail _, w => some ((), w)
  | .unlink name, _, w => some ((), { w with disk := w.disk.erase name })
  | .readDir, _, w => some (w.disk, w)
  -- the environment may hand over readers with unreadable blocks
  | .mapInputs _, .inputs readers, w => some (readers, w)
  | .mapInputs readers, _, w => some (readers, w)
  | .tableDone _ _, _, w => some ((), w)

end Lsmdb
