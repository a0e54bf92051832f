import Lsmdb.ForStd.Typestate
import Lsmdb.Native.System

/-!
# The threads and what they wait for

In `Lsmdb.Native.System` a wait of the compaction thread is an unlock and a lock, which
may happen at any time. Here the condition variables and `bg_busy_` are part of the
state: a thread that waits sleeps until it is notified. A wait may also end on its own,
as `std::condition_variable` allows, but nothing can be built on that.

The programs are those of `Lsmdb.Native.DB` with the notifications and waits that the
code has. `TEST_WaitForCompactions` is called by the thread of the client.
-/

namespace Lsmdb.Sync

/-- `bg_cv_`, on which the compaction thread waits for work, and `idle_cv_`, on which
    `TEST_WaitForCompactions` waits for the end of it. -/
inductive CondVar
  | bg
  | idle
  deriving DecidableEq

inductive Call
  | base (c : Lsmdb.Call)
  | loadBusy
  | storeBusy (busy : Bool)
  | notifyAll (cv : CondVar)
  /-- The first half of a wait: release the mutex and go to sleep. -/
  | sleep (cv : CondVar)
  /-- The second half: wake up and take the mutex. -/
  | wake (cv : CondVar) (timed : Bool)

@[reducible] def Call.Res : Call → Type
  | base c => c.Res
  | loadBusy => Bool
  | storeBusy _ | notifyAll _ | sleep _ | wake _ _ => Unit

structure World extends Lsmdb.World where
  /-- `bg_busy_`. -/
  busy : Bool := false
  /-- The condition variable that a thread sleeps on. -/
  sleeping : Thread → Option CondVar := fun _ => none

inductive Choice
  | base (ch : Lsmdb.Choice)
  /-- A wait ends without a notification. -/
  | spurious

def Choice.isSpurious : Choice → Bool
  | base _ => false
  | spurious => true

/-- What a call does. A sleeping thread wakes up when it has been notified, when its wait is
    timed, or for no reason. -/
def exec (t : Thread) : (c : Call) → Choice → World → Option (c.Res × World)
  | .base c, .base ch, w =>
    (Lsmdb.exec t c ch w.toWorld).map fun (r, v) => (r, { w with toWorld := v })
  | .base _, .spurious, _ => none
  | .loadBusy, _, w => some (w.busy, w)
  | .storeBusy busy, _, w => some ((), { w with busy := busy })
  -- all that sleep on it become able to wake up
  | .notifyAll cv, _, w =>
    some ((), { w with sleeping := fun t => if w.sleeping t = some cv then none else w.sleeping t })
  -- sleeping begins with the release of the mutex, in one step
  | .sleep cv, _, w =>
    if w.mutex = some t then
      some ((), { w with mutex := none, sleeping := Function.update w.sleeping t (some cv) })
    else none
  -- waking up ends with the mutex
  | .wake _ timed, ch, w =>
    if w.mutex = none ∧ (w.sleeping t = none ∨ timed = true ∨ ch.isSpurious = true) then
      some ((), { w with mutex := some t, sleeping := Function.update w.sleeping t none })
    else none

/-! ## Programs -/

abbrev SyncM := Prog Call Call.Res

abbrev SyncE := ExceptT Status SyncM

def call (c : Call) : SyncM c.Res := Prog.lift c

/-- A part of the code that has nothing to do with condition variables. -/
def lift {α : Type} (p : DBM α) : SyncM α := p.via Call.base fun _ r => r

def liftE {α : Type} (p : DBE α) : SyncE α := ExceptT.mk (lift p.run)

/-- `std::lock_guard<std::mutex> lk(mu_)` around a block. -/
def withLock {α : Type} (body : SyncE α) : SyncE α :=
  ExceptT.mk do
    call (.base .lock)
    let r ← body.run
    call (.base .unlock)
    return r

variable (cfg : Config)

/-- `FlushMemTable`. The notification comes last: a flush whose manifest or log cannot be written
    does not get to it. -/
def flushMemTable : SyncE Unit := do
  let mem ← liftE (DB.call .loadMem)
  -- nothing is notified for an empty memtable
  if mem.size = 0 then return
  let number ← liftE DB.newFileNumber
  let w ← liftE (DB.openWriter cfg number)
  let (es, _) ← liftE (DB.defined (DB.memRecords mem))
  let w ← liftE (es.foldlM (DB.addEntry cfg number) w)
  let f ← liftE (DB.finishTable cfg number w es)
  withLock do
    let v ← liftE (DB.call .loadCurrent)
    let nv := DB.pushL0 v f
    liftE (DB.call (.storeCurrent nv))
    liftE (DB.writeManifest nv)
    liftE (DB.call (.storeMem (SkipList.new cfg.rng)))
    liftE (DB.restartWal cfg)
    call (.notifyAll .bg)

/-- What `Put` and `Delete` do after the log and the memtable. -/
def maybeFlush (mem : SkipList) : SyncE Unit := do
  if mem.approximateMemoryUsage ≥ cfg.options.memtableFlushThreshold then flushMemTable cfg

/-- `Put`. -/
def put (key value : Bytes) : SyncE Unit := do
  liftE (DB.addRecord cfg ⟨key, value, .value⟩)
  let mem ← liftE (do DB.defined ((← DB.call .loadMem).put key value))
  liftE (DB.call (.storeMem mem))
  maybeFlush cfg mem

/-- `Delete`. -/
def delete (key : Bytes) : SyncE Unit := do
  liftE (DB.addRecord cfg ⟨key, [], .tombstone⟩)
  let mem ← liftE (do DB.defined ((← DB.call .loadMem).delete key))
  liftE (DB.call (.storeMem mem))
  maybeFlush cfg mem

/-- The part of `~DB` before the join. -/
def shutDown : SyncM Unit := do
  call (.base .lock)
  call (.base .storeShuttingDown)
  -- still under the mutex
  call (.notifyAll .bg)
  call (.base .unlock)

/-- The program of a call. -/
def program : Op → SyncM Reply
  | .put k v => do return .status (statusOf (← (put cfg k v).run))
  | .delete k => do return .status (statusOf (← (delete cfg k).run))
  | .flush => do return .status (statusOf (← (flushMemTable cfg).run))
  | .get k => lift (Op.program cfg (.get k))
  | .scan s e => lift (Op.program cfg (.scan s e))
  | .close => do
    shutDown
    return .status .OK

/-- What a look at the shared state tells the compaction thread to do. -/
inductive Look
  | stop
  | sleep
  | compact (c : Compaction)

/-- There is nothing to do: `bg_busy_ = false; idle_cv_.notify_all(); bg_cv_.wait(lk);`, up to the
    point at which the thread is asleep. -/
def goToSleep : SyncM Look := do
  call (.storeBusy false)
  call (.notifyAll .idle)
  call (.sleep .bg)
  return .sleep

/-- The part of a turn that looks for work. -/
def lookForWork : SyncM Look := do
  let v ← call (.base .loadCurrent)
  if !needsCompaction cfg.options v then goToSleep
  else
    match ← lift (DB.defined (pickCompaction cfg.options v)) with
    -- not reached: `NeedsCompaction` and `PickCompaction` agree
    | none => goToSleep
    | some c =>
      call (.storeBusy true)
      call (.base .unlock)
      return .compact c

/-- One turn of `BackgroundLoop`, from the point at which it has the mutex to the point at which it
    gives it away. -/
def lookLocked : SyncM Look := do
  if ← call (.base .loadShuttingDown) then
    call (.storeBusy false)
    call (.notifyAll .idle)
    call (.base .unlock)
    return .stop
  lookForWork cfg

/-- The same with the way to the mutex: a thread that has waited takes it by waking up. -/
def look (waited : Bool) : SyncM Look := do
  if waited then call (.wake .bg false) else call (.base .lock)
  lookLocked cfg

/-- The condition of the loop in `TEST_WaitForCompactions`. -/
def unfinished : SyncM Bool := do
  if ← call .loadBusy then return true
  return needsCompaction cfg.options (← call (.base .loadCurrent))

/-- One turn of that loop. The result tells whether the loop goes on. -/
def waitTurn : SyncM Bool := do
  if ← unfinished cfg then
    -- `wait_for` with a timeout: a missed notification does not hang it
    call (.notifyAll .bg)
    call (.sleep .idle)
    call (.wake .idle true)
    return true
  else
    call (.base .unlock)
    return false

/-- `TEST_WaitForCompactions`, up to the end of the first turn. -/
def waitForCompactions : SyncM Bool := do
  call (.base .lock)
  waitTurn cfg

/-! ## The system -/

/-- The thread that calls the public functions. -/
inductive Client
  | idle
  | running (op : Op) (p : SyncM Reply)
  /-- In `TEST_WaitForCompactions`. -/
  | waiting (p : SyncM Bool)
  /-- In the destructor, waiting for the compaction thread. -/
  | closing

/-- The compaction thread. -/
inductive Worker
  | looking (p : SyncM Look)
  | compacting (c : Compaction) (p : SyncM (Except Status Unit))
  | ended

inductive Process
  | down
  /-- `DB::Open`, in `Recover`, before the compaction thread is started. -/
  | opening (cfg : Config) (p : DBM (Except Status Unit))
  | up (cfg : Config) (client : Client) (worker : Worker)

structure System where
  world : World
  process : Process := .down
  /-- The calls that have returned, with what they returned. -/
  history : List (Op × Reply) := []

inductive Event
  | «open» (cfg : Config)
  | openStep (ch : Lsmdb.Choice)
  | openReturn
  | invoke (op : Op)
  | waitForCompactions
  | clientStep (ch : Choice)
  | clientReturn
  | workerStep (ch : Choice)
  | workerReturn
  | join
  | kill

/-- One step of the client; `none` if it is not at a call that it can make. -/
def Client.step (ch : Choice) (w : World) : Client → Option (Client × World)
  | running op p => (p.step (exec .client) ch w).map fun (p, w) => (running op p, w)
  | waiting p => (p.step (exec .client) ch w).map fun (p, w) => (waiting p, w)
  | idle | closing => none

/-- One step of the compaction thread. -/
def Worker.step (ch : Choice) (w : World) : Worker → Option (Worker × World)
  | looking p => (p.step (exec .background) ch w).map fun (p, w) => (looking p, w)
  | compacting c p => (p.step (exec .background) ch w).map fun (p, w) => (compacting c p, w)
  | ended => none

/-- What the compaction thread does when a part of its loop has come to its end. The status of a
    compaction is dropped. -/
def Worker.return : Worker → Option Worker
  | looking (.ret .stop) => some ended
  | looking (.ret .sleep) => some (looking (look cfg true))
  | looking (.ret (.compact c)) => some (compacting c (lift (DB.doCompaction cfg c).run))
  | compacting _ (.ret _) => some (looking (look cfg false))
  | _ => none

/-- One step; `none` if the event is not possible. -/
def System.next (s : System) : Event → Option System
  | .open cfg =>
    match s.process with
    | .down =>
      some { s with
        world := { toWorld := World.fresh cfg s.world.disk }
        process := .opening cfg (DB.recover cfg).run }
    | _ => none
  | .openStep ch =>
    match s.process with
    | .opening cfg p =>
      -- before the thread is started there is nothing to wait for
      (p.step (Lsmdb.exec .client) ch s.world.toWorld).map fun (p, w) =>
        { s with world := { s.world with toWorld := w }, process := .opening cfg p }
    | _ => none
  | .openReturn =>
    match s.process with
    | .opening cfg (.ret (.ok ())) =>
      some { s with process := .up cfg .idle (.looking (look cfg false)) }
    | .opening _ (.ret (.error _)) => some { s with process := .down }
    | _ => none
  | .invoke op =>
    match s.process with
    | .up cfg .idle worker => some { s with process := .up cfg (.running op (program cfg op)) worker }
    | _ => none
  | .waitForCompactions =>
    match s.process with
    | .up cfg .idle worker =>
      some { s with process := .up cfg (.waiting (waitForCompactions cfg)) worker }
    | _ => none
  | .clientStep ch =>
    match s.process with
    | .up cfg client worker =>
      (client.step ch s.world).map fun (client, w) =>
        { s with world := w, process := .up cfg client worker }
    | _ => none
  | .clientReturn =>
    match s.process with
    | .up cfg (.running op (.ret r)) worker =>
      some { s with
        process := .up cfg (if op = .close then .closing else .idle) worker
        history := s.history ++ [(op, r)] }
    | .up cfg (.waiting (.ret goOn)) worker =>
      some { s with process := .up cfg (if goOn then .waiting (waitTurn cfg) else .idle) worker }
    | _ => none
  | .workerStep ch =>
    match s.process with
    | .up cfg client worker =>
      (worker.step ch s.world).map fun (worker, w) =>
        { s with world := w, process := .up cfg client worker }
    | _ => none
  | .workerReturn =>
    match s.process with
    | .up cfg client worker =>
      (worker.return cfg).map fun worker => { s with process := .up cfg client worker }
    | _ => none
  | .join =>
    match s.process with
    -- the destructor returns when the loop has ended
    | .up _ .closing .ended => some { s with process := .down }
    | _ => none
  | .kill => some { s with process := .down }

/-- Nothing on the disk, nothing running. -/
def System.init : System where
  world := { toWorld := Lsmdb.System.init.world }

end Lsmdb.Sync
