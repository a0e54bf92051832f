import Lsmdb.ForStd.Typestate
import Lsmdb.Native.DB

/-!
# Opening a database, read by read (`db.cpp`, `wal.cpp`)

`DB.recover` of `Lsmdb.Native.DB` takes the directory as it is. Here `Recover` reads it with
the calls that the code makes, each of which can fail: `open`, `fstat` and the loop around
`read` for the manifest and for the log, `SSTableReader::Open` for each table as soon as the
manifest names it, and `opendir` and `readdir` for the orphans. The loop of `LoadManifest`
takes a failed `read` for the end of the file, the one of `WalReplay` returns it. A `read`
of the log that is interrupted (`EINTR`) is made again. `LoadManifest` makes room for as many
levels as the manifest says that there are before it reads them, and there may be no memory for
more of them than the file has bytes. Every other allocation is of the order of what has been
read, and succeeds.
-/

namespace Lsmdb.Recovery

inductive Call
  | base (c : Lsmdb.Call)
  /-- `open` with `O_RDONLY`. -/
  | openFile (name : String)
  /-- `fstat`, for `st_size`. -/
  | fstat (name : String)
  | read (name : String) (off len : Nat)
  /-- `levels.resize(n)`: whether there is memory for it. -/
  | resize (n : Nat)
  /-- `opendir`, and the names that `readdir` returns before it returns a null pointer, which it
      also does when it fails. -/
  | listDir

@[reducible] def Call.Res : Call → Type
  | base c => c.Res
  | openFile _ => Except String Unit
  | fstat _ => Except String Nat
  | read _ _ _ => Except String Bytes
  | resize _ => Bool
  | listDir => List String

inductive Choice
  | base (ch : Lsmdb.Choice)
  | names (names : List String)

/-- The contents of a file. -/
def fileAt (disk : Disk) (name : String) : Bytes := (disk.lookup name).getD []

/-- What a call does. A file that is there does not fail to open with `ENOENT`. A `read` that does
    not fail returns something, unless it is at the end of the file. -/
def exec : (c : Call) → Choice → World → Option (c.Res × World)
  | .base c, .base ch, w => Lsmdb.exec .client c ch w
  | .base _, .names _, _ => none
  | .openFile _, .base (.fail errno), w => if errno = enoent then none else some (.error errno, w)
  | .openFile name, _, w => some (if name ∈ w.disk then .ok () else .error enoent, w)
  | .fstat _, .base (.fail errno), w => some (.error errno, w)
  | .fstat name, _, w => some (.ok (fileAt w.disk name).length, w)
  | .read _ _ _, .base (.fail errno), w => some (.error errno, w)
  | .read name off len, .base (.short n), w =>
    let data := ((fileAt w.disk name).drop off).take len
    if 0 < n ∧ n ≤ data.length then some (.ok (data.take n), w) else none
  | .read name off len, _, w => some (.ok (((fileAt w.disk name).drop off).take len), w)
  | .resize n, .base (.fail _), w =>
    if n ≤ (fileAt w.disk manifestName).length then none else some (false, w)
  | .resize _, _, w => some (true, w)
  | .listDir, .base (.fail _), w => some ([], w)
  | .listDir, .names names, w => if names ⊆ w.disk.keys then some (names, w) else none
  | .listDir, _, w => some (w.disk.keys, w)

abbrev RecM := Prog Call Call.Res

abbrev RecE := ExceptT Status RecM

section

variable {m : Type → Type} [MonadLiftT RecM m]

def call (c : Call) : m c.Res := liftM (Prog.lift c : RecM c.Res)

/-- A computation whose failure is undefined behaviour. -/
def defined {α : Type} (x : Option α) : m α := liftM (Prog.ofOption x : RecM α)

end

/-- A part that works as in `Lsmdb.Native.DB`. -/
def liftE {α : Type} (p : DBE α) : RecE α := ExceptT.mk (p.run.via Call.base fun _ r => r)

/-- Turn the error text of a call into the status that is returned for it. -/
def check {α : Type} (x : RecM (Except String α)) (status : String → Status) : RecE α :=
  ExceptT.mk do
    match ← x with
    | .ok a => return .ok a
    | .error errno => return .error (status errno)

/-- A part that computes a status or a value. -/
def parsed {α : Type} (x : Option (Except Status α)) : RecE α := ExceptT.mk (Prog.ofOption x)

/-- The loop `while (off < size)` around `read`, when it has got some of the file: what it has got at
    its end, and the error that it has ended with. -/
def readLoop (name : String) (size : Nat) : Nat → Bytes → RecM (Bytes × Option String)
  | 0, got => if got.length < size then .undef else return (got, none)
  | fuel + 1, got =>
    if got.length < size then do
      match ← call (.read name got.length (size - got.length)) with
      | .error errno => return (got, some errno)
      | .ok [] => return (got, none)
      | .ok (b :: data) => readLoop name size fuel (got ++ b :: data)
    else return (got, none)

/-- The loop from the beginning; every turn reads at least one byte. -/
def readFile (name : String) (size : Nat) : RecM (Bytes × Option String) :=
  readLoop name size size []

variable (cfg : Config)

/-! ## The manifest -/

/-- The body of the inner loop of `LoadManifest`. -/
def loadFile (p : Bytes) : RecE (FileMeta × Bytes) := do
  -- `need(24)`: the number, the size and the count of the records
  if p.length < 24 then throw (.corruption "manifest truncated (file)")
  let number ← defined (decodeFixed64 p)
  let fileSize ← defined (decodeFixed64 (p.drop 8))
  let numEntries ← defined (decodeFixed64 (p.drop 16))
  let (smallest, p) ←
    parsed (loadKey (p.drop 24) "manifest truncated (skey)" "manifest truncated (skey2)")
  let (largest, p) ← parsed (loadKey p "manifest truncated (lkey)" "manifest truncated (lkey2)")
  -- the table is opened before the next entry is looked at
  let reader ← liftE (DB.openReader cfg number.toNat)
  return (⟨number.toNat, smallest, largest, fileSize, numEntries, reader⟩, p)

/-- The inner loop, for the given number of files. -/
def loadFiles : Nat → Bytes → RecE (List FileMeta × Bytes)
  | 0, p => return ([], p)
  | n + 1, p => do
    let (f, p) ← loadFile cfg p
    let (files, p) ← loadFiles n p
    return (f :: files, p)

/-- The outer loop, for the given number of levels. -/
def loadLevels : Nat → Bytes → RecE (List (List FileMeta))
  | 0, _ => return []
  | n + 1, p => do
    if p.length < 4 then throw (.corruption "manifest truncated (level)")
    let numFiles ← defined (decodeFixed32 p)
    let (files, p) ← loadFiles cfg numFiles.toNat (p.drop 4)
    let levels ← loadLevels n p
    return files :: levels

/-- The part of `LoadManifest` behind the reads. -/
def parseManifest (buf : Bytes) : RecE (Version × Nat) := do
  if buf.length < 12 then throw (.corruption "manifest too short")
  let nextFile ← defined (decodeFixed64 buf)
  let numLevels ← defined (decodeFixed32 (buf.drop 8))
  -- nobody catches `std::bad_alloc`: the process is aborted
  let room ← call (.resize (max numLevels.toNat 1))
  defined (if room then some () else none)
  let levels ← loadLevels cfg numLevels.toNat (buf.drop 12)
  let v : Version := ⟨if numLevels = 0 then [[]] else levels⟩
  let maxNumber := (v.levels.flatten.map (·.number)).foldl max 0
  return (v, max nextFile.toNat ((maxNumber + 1) % 2 ^ 64))

/-- `LoadManifest`: the version and the next file number, if there is a manifest. -/
def loadManifest : RecE (Option (Version × Nat)) := do
  match ← call (.openFile manifestName) with
  | .error errno =>
    if errno = enoent then return none else throw (.ioError ("open manifest: " ++ errno))
  | .ok () =>
    let size ← check (call (.fstat manifestName)) fun _ => .ioError "fstat manifest"
    -- `if (r <= 0) break;`: what has been read so far is taken for the manifest
    let (buf, _) ← readFile manifestName size
    return some (← parseManifest cfg buf)

/-! ## The log -/

/-- The reads of `WalReplay`. -/
def readLog : RecE Bytes := do
  let path := cfg.path walName
  match ← call (.openFile walName) with
  | .error errno =>
    if errno = enoent then return [] else throw (.ioError ("open " ++ path ++ ": " ++ errno))
  | .ok () =>
    let size ← check (call (.fstat walName)) fun errno =>
      .ioError ("fstat " ++ path ++ ": " ++ errno)
    match ← readFile walName size with
    | (_, some errno) => throw (.ioError ("read " ++ path ++ ": " ++ errno))
    | (buf, none) => return buf

/-! ## Recovery -/

/-- `Recover` behind `LoadManifest`. -/
def recoverLog (v : Version) : RecE Unit := do
  let buf ← readLog cfg
  -- the handler is called for one record after the other; a torn tail ends the replay
  let (records, _) ← defined (walReplay buf)
  let mem ← defined (records.foldlM DB.replayRecord (← liftE (DB.call .loadMem)))
  liftE (DB.call (.storeMem mem))
  liftE (DB.walOpen cfg)
  -- only from here on is something removed
  let names ← call .listDir
  liftE (liftM (DB.removeOrphanFiles v names))

/-- `Recover`. -/
def recover : RecE Unit := do
  match ← loadManifest cfg with
  | none =>
    -- without a manifest, one empty level
    liftE (DB.call (.storeCurrent ⟨[[]]⟩))
    recoverLog cfg ⟨[[]]⟩
  | some (v, next) =>
    liftE (DB.call (.storeCurrent v))
    liftE (DB.call (.storeFileNumber next))
    recoverLog cfg v

end Lsmdb.Recovery
