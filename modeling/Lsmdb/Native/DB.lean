import Lsmdb.Native.Wal
import Lsmdb.Native.World

/-!
# The database (`db.cpp`, and the file-system side of `wal.cpp` and `sstable.cpp`)

The functions of `DB`, `WalWriter` and `SSTableWriter` as programs over the calls of
`Lsmdb.Native.World`. `if (!s.ok()) return s;` is the bind of `ExceptT Status`.

A loop over an iterator reads only tables and the memtable of its own thread, so the
records it sees are drained first and the body runs over them. A `write` that is
interrupted (`EINTR`) has written nothing and is made again. The counters behind
`GetStats` are left out.
-/

namespace Lsmdb

/-- A function that returns no `Status`. -/
abbrev DBM := Prog Call Call.Res

/-- A function that returns a `Status`, and a value if that is `OK`. -/
abbrev DBE := ExceptT Status DBM

/-- What a `DB` object is constructed with, and the node heights that `SkipList` draws from its
    fixed seed. -/
structure Config where
  options : Options := {}
  dir : String
  rng : Nat → Fin SkipList.kMaxLevel

def Config.path (cfg : Config) (name : String) : String := cfg.dir ++ "/" ++ name

namespace DB

section

variable {m : Type → Type} [MonadLiftT DBM m]

def call (c : Call) : m c.Res := liftM (Prog.lift c : DBM c.Res)

/-- A computation whose failure is undefined behaviour. -/
def defined {α : Type} (x : Option α) : m α := liftM (Prog.ofOption x : DBM α)

/-- `number = next_file_number_++` under the lock. -/
def newFileNumber : m Nat :=
  liftM (m := DBM) do
    call .lock
    let number ← call .takeFileNumber
    call .unlock
    return number

end

/-- Turn the error text of a call into the status that is returned for it. -/
def check {α : Type} (x : DBM (Except String α)) (status : String → Status) : DBE α :=
  ExceptT.mk do
    match ← x with
    | .ok a => return .ok a
    | .error errno => return .error (status errno)

/-- `std::lock_guard<std::mutex> lk(mu_)` around a block. -/
def withLock {α : Type} (body : DBE α) : DBE α :=
  ExceptT.mk do
    call .lock
    let r ← body.run
    call .unlock
    return r

/-- The loop `while (off < n)` around `write`: each turn writes at least one byte. -/
def writeLoop (name : String) : Nat → Bytes → DBM (Except String Unit)
  | _, [] => return .ok ()
  | 0, _ :: _ => .undef
  | fuel + 1, b :: data => do
    match ← call (.write name (b :: data)) with
    | .error errno => return .error errno
    | .ok n => writeLoop name fuel ((b :: data).drop n)

/-- `WriteFully`, `WriteRaw`. -/
def writeFully (name : String) (data : Bytes) : DBM (Except String Unit) :=
  writeLoop name data.length data

variable (cfg : Config)

/-! ## The log -/

/-- `WalWriter::AddRecord`. A log that is not open has descriptor -1. -/
def addRecord (e : Entry) : DBE Unit := do
  let path := cfg.path walName
  if !(← call .loadWal) then throw (.ioError ("write " ++ path ++ ": " ++ ebadf))
  check (writeFully walName (walFrame e)) fun errno => .ioError ("write " ++ path ++ ": " ++ errno)
  if cfg.options.sync then
    check (call (.fsync walName)) fun errno => .ioError ("fsync " ++ path ++ ": " ++ errno)

/-- `WalWriter::Open`. -/
def walOpen : DBE Unit := do
  check (call (.openAppend walName)) fun errno =>
    .ioError ("open " ++ cfg.path walName ++ ": " ++ errno)
  call (.storeWal true)

/-- The end of `FlushMemTable`: close the log, truncate the file, open it again. The results of
    the first two are not looked at. -/
def restartWal : DBE Unit := do
  call (.storeWal false)
  let _ ← call (.openTrunc walName)
  walOpen cfg

/-! ## Tables -/

/-- `SSTableWriter::Open`, for file `number`. -/
def openWriter (number : Nat) : DBE SSTableWriter := do
  let name := numberToName number
  check (call (.openTrunc name)) fun errno => .ioError ("open " ++ cfg.path name ++ ": " ++ errno)
  return SSTableWriter.new kOutputBlockSize cfg.options.bloomBitsPerKey

/-- `SSTableWriter::WriteRaw`. -/
def writeRaw (number : Nat) (data : Bytes) : DBE Unit :=
  check (writeFully (numberToName number) data) fun errno =>
    .ioError ("write " ++ cfg.path (numberToName number) ++ ": " ++ errno)

/-- `SSTableWriter::Add`. -/
def addEntry (number : Nat) (w : SSTableWriter) (e : Entry) : DBE SSTableWriter := do
  let (w, out) := w.add e
  writeRaw cfg number out
  return w

/-- `SSTableWriter::Finish`. -/
def finishWriter (number : Nat) (w : SSTableWriter) : DBE SSTableWriter := do
  let name := numberToName number
  -- a filter of zero bits is a division by zero
  defined (if w.bloom.finishDefined then some () else none)
  let (w, out) := w.finish
  writeRaw cfg number out
  check (call (.fsync name)) fun errno => .ioError ("fsync " ++ cfg.path name ++ ": " ++ errno)
  check (call (.close name)) fun errno => .ioError ("close " ++ cfg.path name ++ ": " ++ errno)
  return w

/-- `SSTableReader::Open`. The size is checked between `fstat` and `mmap`, the rest is done on
    the mapped bytes. -/
def openReader (number : Nat) : DBE SSTableReader := do
  let name := numberToName number
  let path := cfg.path name
  let file ← check (call (.openRead name)) fun errno => .ioError ("open " ++ path ++ ": " ++ errno)
  check (call (.fstat name)) fun errno => .ioError ("fstat " ++ path ++ ": " ++ errno)
  if file.length < kFooterSize then
    throw (.corruption ("file too small to be an SSTable: " ++ path))
  check (call (.mmap name)) fun errno => .ioError ("mmap " ++ path ++ ": " ++ errno)
  match ← defined (SSTableReader.open path file number) with
  | .ok reader => return reader
  | .error s => throw s

/-- Finish a table and open it for reading, as `FlushMemTable` and `finish_output` do alike. -/
def finishTable (number : Nat) (w : SSTableWriter) (es : List Entry) : DBE FileMeta := do
  call (.tableDone cfg.options.bloomBitsPerKey es)
  let w ← finishWriter cfg number w
  let reader ← openReader cfg number
  return {
    number := number
    smallest := reader.smallestKey
    largest := reader.largestKey
    fileSize := w.fileSize
    numEntries := w.numEntries
    reader := reader }

/-! ## The manifest -/

/-- `WriteManifest`. After a failed write or `fsync` the descriptor is closed; the result of
    `close` is not looked at. -/
def writeManifest (v : Version) : DBE Unit := do
  let next ← call .loadFileNumber
  let buf := manifestBytes next v
  check (call (.openTrunc manifestTmpName)) fun _ => .ioError "open manifest.tmp"
  check (writeFully manifestTmpName buf) fun _ => .ioError "write manifest.tmp"
  check (call (.fsync manifestTmpName)) fun _ => .ioError "fsync manifest"
  let _ ← call (.close manifestTmpName)
  check (call (.rename manifestTmpName manifestName)) fun _ => .ioError "rename manifest"

/-! ## Flush -/

/-- `nv->levels[0].push_back(fm)`, after a resize to one level if there is none. -/
def pushL0 (v : Version) (f : FileMeta) : Version :=
  match v.levels with
  | [] => ⟨[[f]]⟩
  | l0 :: deeper => ⟨(l0 ++ [f]) :: deeper⟩

/-- The records of the memtable, in the loop of `FlushMemTable`. -/
def memRecords (mem : SkipList) : Option (List Entry × Status) := do
  let it ← mem.newIterator.seekToFirst
  Cursor.drain (mem.nodes.length + 1) it

/-- `FlushMemTable`. -/
def flushMemTable : DBE Unit := do
  let mem ← call .loadMem
  if mem.size = 0 then return
  let number ← newFileNumber
  let w ← openWriter cfg number
  let (es, _) ← defined (memRecords mem)
  let w ← es.foldlM (addEntry cfg number) w
  let f ← finishTable cfg number w es
  withLock do
    let v ← call .loadCurrent
    let nv := pushL0 v f
    call (.storeCurrent nv)
    writeManifest nv
    -- the flushed data is durable now: a new memtable and a fresh log
    call (.storeMem (SkipList.new cfg.rng))
    restartWal cfg

/-! ## Writes -/

/-- What `Put` and `Delete` do after the log and the memtable. -/
def maybeFlush (mem : SkipList) : DBE Unit := do
  if mem.approximateMemoryUsage ≥ cfg.options.memtableFlushThreshold then flushMemTable cfg

/-- `Put`. -/
def put (key value : Bytes) : DBE Unit := do
  addRecord cfg ⟨key, value, .value⟩
  let mem ← defined ((← call .loadMem).put key value)
  call (.storeMem mem)
  maybeFlush cfg mem

/-- `Delete`. -/
def delete (key : Bytes) : DBE Unit := do
  addRecord cfg ⟨key, [], .tombstone⟩
  let mem ← defined ((← call .loadMem).delete key)
  call (.storeMem mem)
  maybeFlush cfg mem

/-! ## Reads -/

/-- The version that a read works on, copied under the lock. -/
def snapshot : DBM Version := do
  call .lock
  let v ← call .loadCurrent
  call .unlock
  return v

/-- `Get`. -/
def get (key : Bytes) : DBM LookupResult := do
  let r ← defined ((← call .loadMem).get key)
  if r ≠ .notFound then return r
  let v ← snapshot
  let (r, cache) ← defined (getFromVersion v (← call .loadCache) key)
  call (.storeCache cache)
  return r

/-- `Scan`. -/
def scan (start end_ : Bytes) : DBM (Status × List (Bytes × Bytes)) := do
  let mem ← call .loadMem
  let v ← snapshot
  defined (Lsmdb.scan mem v start end_)

/-! ## Compaction -/

/-- The output that `DoCompaction` is writing: `w`, `cur_number`, and the records it was given. -/
structure Output where
  number : Nat
  w : SSTableWriter
  es : List Entry

/-- The output to write to, opened if there is none. -/
def currentOutput : Option Output → DBE Output
  | some o => return o
  | none => do
    let number ← newFileNumber
    let w ← openWriter cfg number
    return ⟨number, w, []⟩

/-- `finish_output`. -/
def finishOutput (outputs : List FileMeta) : Option Output → DBE (List FileMeta)
  | none => return outputs
  | some o => do
    let f ← finishTable cfg o.number o.w o.es
    return outputs ++ [f]

/-- The body of the loop of `DoCompaction`. -/
def compactRecord (bottommost : Bool) :
    List FileMeta × Option Output → Entry → DBE (List FileMeta × Option Output)
  | (outputs, cur), e => do
    -- a tombstone in the bottommost level shadows nothing
    if bottommost && e.isTombstone then return (outputs, cur)
    let o ← currentOutput cfg cur
    let w ← addEntry cfg o.number o.w e
    let o := { o with w := w, es := o.es ++ [e] }
    if w.fileSize ≥ cfg.options.targetFileSize then
      return (← finishOutput cfg outputs (some o), none)
    else return (outputs, some o)

/-- The records that the merge yields and the status it ends with. Every record takes a byte of
    an input. -/
def mergedRecords (turns : Nat) (readers : List SSTableReader) : Option (List Entry × Status) := do
  let merge ← (MergingIterator.new (readers.map (·.newIterator))).seekToFirst
  Cursor.drain turns merge

/-- `for (const auto& f : c.inputs) ::unlink(FilePath(f->number).c_str());` -/
def unlinkInputs : List FileMeta → DBM Unit
  | [] => return
  | f :: inputs => do
    call (.unlink (numberToName f.number))
    unlinkInputs inputs

/-- `DoCompaction`. -/
def doCompaction (c : Compaction) : DBE Unit := do
  let readers ← call (.mapInputs (c.inputs.map (·.reader)))
  let turns := (c.inputs.map fun f => f.reader.base.length).sum + 1
  let (es, s) ← defined (mergedRecords turns readers)
  let (outputs, cur) ← es.foldlM (compactRecord cfg c.bottommost) ([], none)
  -- the iterator has ended early: the outputs so far stay on the disk, unused
  if !s.ok then throw s
  let outputs ← finishOutput cfg outputs cur
  -- `current_` may have grown by flushes since the inputs were picked
  withLock do
    let v ← call .loadCurrent
    let nv := installCompaction v c outputs
    call (.storeCurrent nv)
    writeManifest nv
    liftM (unlinkInputs c.inputs)

/-- One turn of `BackgroundLoop`, from the point at which it holds the lock to the point at which
    it acquires it again: after `bg_cv_.wait`, which may return at any time, or after a
    compaction, whose status is dropped. The result tells whether the loop goes on. -/
def backgroundTurn : DBM Bool := do
  call .lock
  if ← call .loadShuttingDown then
    call .unlock
    return false
  let v ← call .loadCurrent
  if !needsCompaction cfg.options v then
    call .unlock
    return true
  match ← defined (pickCompaction cfg.options v) with
  | none =>
    call .unlock
    return true
  | some c =>
    call .unlock
    -- the status of the compaction is dropped
    let _ ← (doCompaction cfg c).run
    return true

/-- The part of `~DB` before the join. -/
def shutDown : DBM Unit := do
  call .lock
  call .storeShuttingDown
  call .unlock

/-! ## Recovery -/

/-- `SSTableReader::Open` on a directory that nothing else changes. -/
def openTableAt (disk : Disk) (number : Nat) : Option (Except Status SSTableReader) :=
  match disk.lookup (numberToName number) with
  | none => some (.error (.ioError ("open " ++ cfg.path (numberToName number) ++ ": " ++ enoent)))
  | some file => SSTableReader.open (cfg.path (numberToName number)) file number

/-- The handler that `Recover` passes to `WalReplay`. -/
def replayRecord (mem : SkipList) (e : Entry) : Option SkipList :=
  if e.type = .tombstone then mem.delete e.key else mem.put e.key e.value

/-- `LoadManifest` on the directory: the version, if there is a manifest, and the next file
    number. -/
def loadVersion (disk : Disk) : Option (Except Status (Option Version × Nat)) := do
  match disk.lookup manifestName with
  | none => return .ok (none, 1)
  | some buf =>
    match ← loadManifest (openTableAt cfg disk) buf with
    | .error s => return .error s
    | .ok (v, next) => return .ok (some v, next)

/-- `RemoveOrphanFiles`, for the names of the directory in turn. -/
def removeOrphanFiles (v : Version) : List String → DBM Unit
  | [] => return
  | name :: names => do
    match parseFileNumber name with
    | some number =>
      if number ∈ v.levels.flatten.map (·.number) then removeOrphanFiles v names
      else
        call (.unlink (numberToName number))
        removeOrphanFiles v names
    | none => removeOrphanFiles v names

/-- `Recover`. The reads of the manifest, the tables and the log succeed. -/
def recover : DBE Unit := do
  let disk ← call .readDir
  match ← defined (loadVersion cfg disk) with
  | .error s => throw s
  | .ok (loaded, next) =>
    -- without a manifest, one empty level
    let v := loaded.getD ⟨[[]]⟩
    call (.storeCurrent v)
    call (.storeFileNumber next)
    let (records, _) ← defined (walReplay ((disk.lookup walName).getD []))
    let mem ← defined (records.foldlM replayRecord (← call .loadMem))
    call (.storeMem mem)
    walOpen cfg
    let disk ← call .readDir
    liftM (removeOrphanFiles v disk.keys)

end DB

end Lsmdb
