import Lsmdb.Native.DB

/-!
# The running system

A database directory and the process that has it open, if there is one: the thread
that calls the public functions of `DB`, one call at a time, and the compaction thread.
The two interleave at their calls to `Lsmdb.Native.World`. A kill can come at any
moment; in the middle of a `write` it finds the part of the data that a short write
has stored.
-/

namespace Lsmdb

/-- The public functions of `DB`; `close` is the destructor. -/
inductive Op
  | put (key value : Bytes)
  | delete (key : Bytes)
  | flush
  | get (key : Bytes)
  | scan (start end_ : Bytes)
  | close
  deriving DecidableEq

inductive Reply
  | status (s : Status)
  | lookup (r : LookupResult)
  | scan (s : Status) (out : List (Bytes × Bytes))
  deriving DecidableEq

/-- The status of a function that returns only that. -/
def statusOf : Except Status Unit → Status
  | .ok _ => .OK
  | .error s => s

/-- The program of a call. -/
def Op.program (cfg : Config) : Op → DBM Reply
  | put k v => do return .status (statusOf (← (DB.put cfg k v).run))
  | delete k => do return .status (statusOf (← (DB.delete cfg k).run))
  | flush => do return .status (statusOf (← (DB.flushMemTable cfg).run))
  | get k => do return .lookup (← DB.get k)
  | scan s e => do
    let (status, out) ← DB.scan s e
    return .scan status out
  | close => do
    DB.shutDown
    return .status .OK

/-- The thread that calls the public functions. -/
inductive Client
  | idle
  | running (op : Op) (p : DBM Reply)
  /-- In the destructor, waiting for the compaction thread. -/
  | closing

inductive Process
  | down
  /-- `DB::Open`, in `Recover`. -/
  | opening (cfg : Config) (p : DBM (Except Status Unit))
  /-- The compaction thread is `none` once its loop has ended. -/
  | up (cfg : Config) (client : Client) (background : Option (DBM Bool))

structure System where
  world : World
  process : Process := .down
  /-- The calls that have returned, with what they returned. -/
  history : List (Op × Reply) := []

/-- The members of a new `DB` object on a directory. -/
def World.fresh (cfg : Config) (disk : Disk) : World where
  disk := disk
  mem := SkipList.new cfg.rng
  cache := if cfg.options.blockCacheBytes > 0
    then some { capacityBytes := cfg.options.blockCacheBytes } else none

inductive Event
  | «open» (cfg : Config)
  | openStep (ch : Choice)
  | openReturn
  | invoke (op : Op)
  | clientStep (ch : Choice)
  | clientReturn
  | backgroundStep (ch : Choice)
  | backgroundReturn
  | join
  | kill

/-- One step; `none` if the event is not possible. -/
def System.next (s : System) : Event → Option System
  | .open cfg =>
    match s.process with
    | .down =>
      some { s with
        -- the members are new, the directory is what the last process left
        world := World.fresh cfg s.world.disk
        process := .opening cfg (DB.recover cfg).run }
    | _ => none
  | .openStep ch =>
    match s.process with
    | .opening cfg p =>
      (p.step (exec .client) ch s.world).map fun (p, w) =>
        { s with world := w, process := .opening cfg p }
    | _ => none
  | .openReturn =>
    match s.process with
    | .opening cfg (.ret (.ok ())) =>
      some { s with process := .up cfg .idle (some (DB.backgroundTurn cfg)) }
    -- a failed `Open` destroys the object
    | .opening _ (.ret (.error _)) => some { s with process := .down }
    | _ => none
  | .invoke op =>
    match s.process with
    | .up cfg .idle bg => some { s with process := .up cfg (.running op (op.program cfg)) bg }
    | _ => none
  | .clientStep ch =>
    match s.process with
    | .up cfg (.running op p) bg =>
      (p.step (exec .client) ch s.world).map fun (p, w) =>
        { s with world := w, process := .up cfg (.running op p) bg }
    | _ => none
  | .clientReturn =>
    match s.process with
    | .up cfg (.running op (.ret r)) bg =>
      some { s with
        -- behind the destructor's part of the program there is only the join
        process := .up cfg (if op = .close then .closing else .idle) bg
        history := s.history ++ [(op, r)] }
    | _ => none
  | .backgroundStep ch =>
    match s.process with
    | .up cfg client (some p) =>
      (p.step (exec .background) ch s.world).map fun (p, w) =>
        { s with world := w, process := .up cfg client (some p) }
    | _ => none
  | .backgroundReturn =>
    match s.process with
    | .up cfg client (some (.ret goOn)) =>
      some { s with
        process := .up cfg client (if goOn then some (DB.backgroundTurn cfg) else none) }
    | _ => none
  | .join =>
    match s.process with
    -- the destructor returns when the loop has ended
    | .up _ .closing none => some { s with process := .down }
    | _ => none
  -- what was written so far stays on the disk
  | .kill => some { s with process := .down }

/-- A sequence of steps. -/
def System.run (s : System) : List Event → Option System
  | [] => some s
  | e :: es => (s.next e).bind fun s => s.run es

/-- Nothing on the disk, nothing running. The members of the world are those of no object. -/
def System.init : System where
  world := World.fresh { dir := "", rng := fun _ => ⟨0, SkipList.kMaxLevel_pos⟩ } ∅

end Lsmdb
