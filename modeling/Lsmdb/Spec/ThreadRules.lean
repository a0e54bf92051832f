import Lsmdb.Native.Threads
import Lsmdb.Spec.OrphanCorrect
import Lsmdb.Spec.Pick
import Lsmdb.Spec.ProgramCalls
import Lsmdb.Spec.Runs

/-!
# The rules that the threads keep to

What the two threads do with the mutex, the members it guards and the condition variables,
as typestates of their programs: `callRules` for the public functions, `waitRules` for
`TEST_WaitForCompactions`, `lookRules` and `compactRules` for the compaction thread. Every
program of `Lsmdb.Native.Threads` follows its rules (`follows_program`, `follows_look` and
so on). What the typestates mean for the shared state is in `Lsmdb.Spec.ThreadsInvariant`.
-/

namespace Lsmdb

open Prog

/-- What `mu_` guards: the members that both threads use, and the file in which both prepare a
    manifest. -/
def Call.Guarded : Call → Prop
  | loadCurrent | storeCurrent _ | takeFileNumber | loadFileNumber | storeFileNumber _
  | loadShuttingDown | storeShuttingDown => True
  | openTrunc name | write name _ | fsync name | close name | rename name _ =>
    name = manifestTmpName
  | _ => False

/-- What only the thread of the client uses: the memtable, the block cache and the log. -/
def Call.ClientOnly : Call → Prop
  | loadMem | storeMem _ | loadCache | storeCache _ | loadWal | storeWal _ => True
  | openTrunc name | openAppend name | write name _ | fsync name => name = walName
  | _ => False

namespace Sync

/-! ## Runs -/

/-- The outcomes of a call that a run may have. -/
def Allows (pol : Policy) : Call → Choice → World → Prop
  | .base c, .base ch, w => pol.Allows c ch w.toWorld
  | _, _, _ => True

/-- The call that a program makes next. -/
def nextCall {α : Type} : SyncM α → Option Call
  | .call c _ => some c
  | _ => none

/-- The call that the client makes next. -/
def Client.nextCall : Client → Option Call
  | running _ p => Sync.nextCall p
  | waiting p => Sync.nextCall p
  | idle | closing => none

/-- The call that the compaction thread makes next. -/
def Worker.nextCall : Worker → Option Call
  | looking p => Sync.nextCall p
  | compacting _ p => Sync.nextCall p
  | ended => none

/-- The steps that a run may take. -/
def Permits (pol : Policy) (s : System) : Event → Prop
  | .open cfg => pol.Opens cfg s.world.disk.log
  | .openStep ch =>
    match s.process with
    | .opening _ (.call c _) => c.MayFail pol.faults pol.logFaults ch
    | _ => True
  | .invoke op => op.Fits
  | .clientStep ch =>
    match s.process with
    | .up _ client _ => ∀ c ∈ client.nextCall, Allows pol c ch s.world
    | _ => True
  | .workerStep ch =>
    match s.process with
    | .up _ _ worker => ∀ c ∈ worker.nextCall, Allows pol c ch s.world
    | _ => True
  | .kill => pol.kills = true
  | .openReturn | .waitForCompactions | .clientReturn | .workerReturn | .join => True

def Step (pol : Policy) (s s' : System) : Prop := ∃ e, Permits pol s e ∧ s.next e = some s'

/-- The states that runs from an empty directory reach. -/
def Reachable (pol : Policy) (s : System) : Prop :=
  Relation.ReflTransGen (Step pol) System.init s

/-! ## The client -/

/-- What the thread of the client has done so far. -/
structure ClientState where
  /-- It holds the mutex. -/
  held : Bool := false
  /-- It has changed `current_` and not notified the compaction thread. -/
  unannounced : Bool := false
  /-- It has given the mutex away without that. -/
  failing : Bool := false
  /-- An earlier call has ended like that, and no notification has come since. -/
  lost : Bool := false
  /-- It has set `shutting_down_`. -/
  stopped : Bool := false
  /-- It has set `shutting_down_` and not notified the compaction thread. -/
  stopping : Bool := false
  /-- It has found `bg_busy_` false and holds the mutex since. -/
  sawIdle : Bool := false
  /-- It has found that no compaction is running and none is needed. -/
  drained : Bool := false

/-- It gives the mutex away. -/
def ClientState.unlock (s : ClientState) : ClientState :=
  { s with held := false, unannounced := false, failing := s.unannounced, sawIdle := false }

/-- It notifies the compaction thread. -/
def ClientState.notify (s : ClientState) : ClientState :=
  { s with unannounced := false, stopping := false, lost := false }

/-- The rules for the public functions. A call that has changed `current_` and did not announce it
    does nothing more but return. -/
def callRules : Typestate Call Call.Res ClientState where
  ok s
    | .base .lock => s.held = false ∧ s.failing = false
    | .base .unlock => s.held = true ∧ s.stopping = false ∧ s.failing = false
    -- a failed step is the last one of its call
    | .base c => (c.Guarded → s.held = true) ∧ s.failing = false ∧ s.drained = false
    | .notifyAll .bg => s.held = true ∧ s.failing = false
    | _ => False
  next s
    | .base .lock, _ => { s with held := true }
    | .base .unlock, _ => s.unlock
    -- from here on the other thread has to be told
    | .base (.storeCurrent _), _ => { s with unannounced := true }
    | .base .storeShuttingDown, _ => { s with stopping := true, stopped := true }
    | .notifyAll _, _ => s.notify
    | _, _ => s

/-- What holds when a public function returns. -/
def callDone (op : Op) (r : Reply) (s : ClientState) : Prop :=
  (s = { failing := s.failing, lost := s.lost, stopped := s.stopped }) ∧
    (s.failing = true → ∃ e, r = .status e ∧ e.ok = false) ∧ (s.stopped = true ↔ op = .close)

/-- The rules for `TEST_WaitForCompactions`. -/
def waitRules (options : Options) : Typestate Call Call.Res ClientState where
  ok s
    | .base .lock | .wake .idle true => s.held = false ∧ s.drained = false ∧ s.failing = false
    | .base .unlock | .sleep .idle => s.held = true ∧ s.stopping = false ∧ s.failing = false
    | .base .loadCurrent | .loadBusy | .notifyAll .bg => s.held = true ∧ s.failing = false
    | _ => False
  next s
    | .base .lock, _ | .wake _ _, _ => { s with held := true }
    | .base .unlock, _ => s.unlock
    -- what was seen before the sleep no longer counts
    | .sleep _, _ => { s.unlock with drained := false }
    | .loadBusy, busy => { s with sawIdle := !busy }
    -- nothing is running and nothing is to be done
    | .base .loadCurrent, v => { s with drained := s.sawIdle && !needsCompaction options v }
    | .notifyAll _, _ => s.notify
    | _, _ => s

/-- What holds at the end of a turn of that loop. -/
def waitDone (goOn : Bool) (s : ClientState) : Prop :=
  s = { held := goOn, drained := !goOn, lost := s.lost }

/-! ## The compaction thread -/

/-- What the compaction thread has done so far. -/
structure WorkerState where
  /-- It holds the mutex. -/
  held : Bool := false
  /-- It has gone to sleep and not woken up. -/
  asleep : Bool := false
  /-- It has found `shutting_down_` false and holds the mutex since. -/
  live : Bool := false
  /-- The version it has found and holds the mutex since. -/
  seen : Option Version := none
  /-- What it has stored in `bg_busy_`. -/
  busy : Bool := false
  /-- It has found `shutting_down_` true. -/
  down : Bool := false

/-- The rules for the loop, compactions apart. -/
def lookRules (options : Options) : Typestate Call Call.Res WorkerState where
  ok s
    | .base .lock => s.held = false ∧ s.asleep = false
    | .wake .bg false => s.held = false ∧ s.asleep = true
    | .base .unlock | .base .loadShuttingDown | .base .loadCurrent | .notifyAll .idle =>
      s.held = true
    -- it becomes busy only if there is work
    | .storeBusy busy => s.held = true ∧
      (busy = true → ∃ v, s.seen = some v ∧ needsCompaction options v = true)
    -- it goes to sleep only if there is neither work nor a stop
    | .sleep .bg => s.held = true ∧ s.live = true ∧ s.busy = false ∧
      ∃ v, s.seen = some v ∧ needsCompaction options v = false
    | _ => False
  next s
    | .base .lock, _ | .wake _ _, _ => { s with held := true, asleep := false }
    | .base .unlock, _ => { busy := s.busy, asleep := s.asleep, down := s.down }
    | .sleep _, _ => { busy := s.busy, asleep := true, down := s.down }
    | .base .loadShuttingDown, down => { s with live := !down, down := down }
    | .base .loadCurrent, v => { s with seen := some v }
    | .storeBusy busy, _ => { s with busy := busy }
    | _, _ => s

/-- What holds when the thread has looked at the shared state. -/
def lookDone : Look → WorkerState → Prop
  | .stop, s => s = { down := true }
  | .sleep, s => s = { asleep := true }
  | .compact _, s => s = { busy := true }

/-- The rules for a compaction. -/
def compactRules : Typestate Call Call.Res WorkerState where
  ok s
    | .base .lock => s = { busy := true }
    | .base .unlock => s = { busy := true, held := true }
    | .base .storeShuttingDown => False
    | .base c => (c.Guarded → s.held = true) ∧ ¬ c.ClientOnly ∧
      s = { busy := true, held := s.held }
    | _ => False
  next s
    | .base .lock, _ => { s with held := true }
    | .base .unlock, _ => { s with held := false }
    | _, _ => s

/-! ## The public functions follow the rules -/

variable {α : Type} {P : Lsmdb.Call → Prop} {s : ClientState}

/-- A call that changes nothing the rules look at. -/
def Plain : Lsmdb.Call → Prop
  | .lock | .unlock | .storeCurrent _ | .storeShuttingDown => False
  | _ => True

/-- A program of the database follows the rules of the threads. -/
theorem follows_lift {σ : Type} {T : Typestate Call Call.Res σ} {p : DBM α} {Q : α → σ → Prop} {s : σ}
    (h : p.Follows (T.comap Call.base fun _ r => r) Q s) : (lift p).Follows T Q s :=
  follows_via (fun _ _ => rfl) h

/-- A part of a public function that the rules are not about. -/
theorem follows_plain {p : DBM α} {Q : α → ClientState → Prop} (hp : p.All P)
    (hP : ∀ c, P c → Plain c ∧ (c.Guarded → s.held = true)) (hf : s.failing = false)
    (hd : s.drained = false) (hQ : p.Returns fun a => Q a s) : (lift p).Follows callRules Q s := by
  apply follows_lift
  apply Follows.of_all hp _ _ hQ
  -- such a call is allowed and leaves the state of the client alone
  · intro c hc
    obtain ⟨hplain, hguarded⟩ := hP c hc
    cases c with
    | lock | unlock | storeCurrent | storeShuttingDown => exact hplain.elim
    | _ => exact ⟨hguarded, hf, hd⟩
  · intro c r hc
    obtain ⟨hplain, -⟩ := hP c hc
    cases c with
    | lock | unlock | storeCurrent | storeShuttingDown => exact hplain.elim
    | _ => rfl

/-- A call on a table needs neither the mutex nor the client. -/
theorem onTable_plain {number : Nat} {c : Lsmdb.Call} (h : c.OnTable number) :
    Plain c ∧ ¬ c.Guarded ∧ ¬ c.ClientOnly := by
  cases c with
  | openTrunc name | write name | fsync name =>
    cases h
    exact ⟨trivial, numberToName_ne_manifestTmpName number, numberToName_ne_walName number⟩
  | close name =>
    cases h
    exact ⟨trivial, numberToName_ne_manifestTmpName number, id⟩
  | openRead | fstat | mmap | tableDone => exact ⟨trivial, id, id⟩
  | _ => exact h.elim

/-- The log is not the manifest. -/
private theorem walName_ne_manifestTmpName : walName ≠ manifestTmpName := by decide

/-- A call on the log does not need the mutex. -/
private theorem onLog_plain {c : Lsmdb.Call} (h : c.OnLog) : Plain c ∧ ¬ c.Guarded := by
  cases c with
  | openTrunc name | write name | fsync name =>
    cases h
    exact ⟨trivial, walName_ne_manifestTmpName⟩
  | loadWal | storeWal | openAppend => exact ⟨trivial, id⟩
  | _ => exact h.elim

/-- A call on the manifest is not reserved to the client. -/
theorem onManifest_plain {c : Lsmdb.Call} (h : c.OnManifest) : Plain c ∧ ¬ c.ClientOnly := by
  cases c with
  | openTrunc name | write name | fsync name =>
    cases h
    exact ⟨trivial, walName_ne_manifestTmpName.symm⟩
  | loadFileNumber | close | rename => exact ⟨trivial, id⟩
  | _ => exact h.elim

section

variable {β σ : Type} {T : Typestate Call Call.Res σ} {t : σ}

/-- One call and what follows it. -/
theorem follows_callE {c : Lsmdb.Call} {f : c.Res → SyncE β} {Q : Except Status β → σ → Prop}
    (hok : T.ok t (.base c)) (hf : ∀ r, (f r).run.Follows T Q (T.next t (.base c) r)) :
    (liftE (DB.call c) >>= f).run.Follows T Q t :=
  follows_bindE.mpr ⟨hok, hf⟩

/-- A body under the mutex. -/
theorem follows_withLock {body : SyncE β} {Q : Except Status β → σ → Prop}
    (hok : T.ok t (.base .lock))
    (h : body.run.Follows T (fun r t => T.ok t (.base .unlock) ∧ Q r (T.next t (.base .unlock) ()))
      (T.next t (.base .lock) ())) : (withLock body).run.Follows T Q t := by
  refine ⟨hok, fun _ => ?_⟩
  show (body.run >>= fun r => call (.base .unlock) >>= fun _ => pure r : SyncM _).Follows T Q _
  exact follows_bind.mpr (h.mono fun r t hr => ⟨hr.1, fun _ => hr.2⟩)

end

/-- How a flush ends. -/
def flushDone (r : Except Status Unit) (s : ClientState) : Prop :=
  (s = { failing := s.failing, lost := s.lost }) ∧
    (s.failing = true → ∃ e, r = .error e ∧ e.ok = false)

/-- What has to hold when a flush gives the mutex away. -/
def installed (r : Except Status Unit) (s : ClientState) : Prop :=
  callRules.ok s (.base .unlock) ∧ flushDone r (callRules.next s (.base .unlock) ())

/-- A part of a flush that can fail, after the change of `current_`. -/
theorem follows_orFail {β : Type} {p : DBE β} {f : β → SyncE Unit} {lost : Bool} (hp : p.run.All P)
    (hP : ∀ c, P c → Plain c) (hok : p.run.Returns NotOk)
    (hf : ∀ b, (f b).run.Follows callRules installed
      { held := true, unannounced := true, lost := lost }) :
    (liftE p >>= f).run.Follows callRules installed
      { held := true, unannounced := true, lost := lost } := by
  refine follows_bindE.mpr (follows_plain hp (fun c hc => ⟨hP c hc, fun _ => rfl⟩) rfl rfl ?_)
  refine hok.mono fun r hr => ?_
  cases r with
  | ok b => exact hf b
  | error e => exact ⟨⟨rfl, rfl, rfl⟩, rfl, fun _ => ⟨e, rfl, hr e rfl⟩⟩

/-- A flush that has nothing to do. -/
theorem flushDone_unchanged (r : Except Status Unit) (lost : Bool) :
    flushDone r { lost := lost } :=
  ⟨rfl, fun h => by cases h⟩

/-- A part of a write or a flush before `current_` is changed. -/
theorem follows_before {β : Type} {p : DBE β} {f : β → SyncE Unit} {lost : Bool} (hp : p.run.All P)
    (hP : ∀ c, P c → Plain c ∧ ¬ c.Guarded)
    (hf : ∀ b, (f b).run.Follows callRules flushDone { lost := lost }) :
    (liftE p >>= f).run.Follows callRules flushDone { lost := lost } := by
  refine follows_bindE.mpr (follows_plain hp
    (fun c hc => ⟨(hP c hc).1, fun hg => absurd hg (hP c hc).2⟩) rfl rfl ?_)
  apply returns_of_forall
  intro r
  cases r with
  | ok b => exact hf b
  | error e => exact flushDone_unchanged _ _

/-- `FlushMemTable`. If it fails under the mutex, the change of `current_` is not announced. -/
theorem follows_flushMemTable (cfg : Config) (lost : Bool) :
    (flushMemTable cfg).run.Follows callRules flushDone { lost := lost } := by
  have htable {n : Nat} (c : Lsmdb.Call) (hc : c.OnTable n) : Plain c ∧ ¬ c.Guarded :=
    ⟨(onTable_plain hc).1, (onTable_plain hc).2.1⟩
  apply follows_callE
  · exact ⟨fun h => h.elim, rfl, rfl⟩
  intro mem
  show (if _ then _ else _ : SyncE Unit).run.Follows _ _ _
  -- an empty memtable is not flushed
  split
  · exact flushDone_unchanged _ _
  -- the number is taken under the mutex
  apply follows_bindE.mpr
  refine ⟨⟨rfl, rfl⟩, fun _ => ⟨⟨fun _ => rfl, rfl, rfl⟩, fun number => ⟨⟨rfl, rfl, rfl⟩, fun _ => ?_⟩⟩⟩
  -- the table is written without it
  apply follows_before (all_openWriter cfg number) fun c hc => htable c hc.onTable
  intro w
  apply follows_before (allE_defined (P := fun _ => False) _) (fun _ h => h.elim)
  intro es
  apply follows_before (All.foldlM (fun w e _ => all_addEntry cfg number w e) w)
    fun c hc => htable c hc.onTable
  intro w
  apply follows_before (all_finishTable cfg number w es.1) htable
  intro f
  -- it is installed under the mutex again, and every failure leaves a flag behind
  apply follows_withLock
  · exact ⟨rfl, rfl⟩
  apply follows_callE
  · exact ⟨fun _ => rfl, rfl, rfl⟩
  intro v
  apply follows_callE
  · exact ⟨fun _ => rfl, rfl, rfl⟩
  intro _
  apply follows_orFail (all_writeManifest _) (fun c hc => (onManifest_plain hc).1)
    (notOk_writeManifest _)
  intro _
  apply follows_callE
  · exact ⟨fun h => h.elim, rfl, rfl⟩
  intro _
  apply follows_orFail (all_restartWal cfg) (fun c hc => (onLog_plain hc).1) (notOk_restartWal cfg)
  intro _
  refine ⟨⟨rfl, rfl⟩, fun _ => ⟨⟨rfl, rfl, rfl⟩, rfl, fun h => by cases h⟩⟩

/-- The flush behind a write. -/
theorem follows_maybeFlush (cfg : Config) (mem : SkipList) (lost : Bool) :
    (maybeFlush cfg mem).run.Follows callRules flushDone { lost := lost } := by
  rw [maybeFlush]
  split
  · exact follows_flushMemTable cfg lost
  · exact flushDone_unchanged _ _

/-- What `Put` and `Delete` have in common. -/
theorem follows_write (cfg : Config) (e : Entry) (change : SkipList → Option SkipList) (lost : Bool) :
    (do
      liftE (DB.addRecord cfg e)
      let mem ← liftE (do DB.defined (change (← DB.call .loadMem)))
      liftE (DB.call (.storeMem mem))
      maybeFlush cfg mem : SyncE Unit).run.Follows callRules flushDone { lost := lost } := by
  apply follows_before (all_addRecord cfg e) fun c hc => onLog_plain hc
  intro _
  apply follows_before (P := fun c => Plain c ∧ ¬ c.Guarded) _ fun c hc => hc
  · intro mem
    apply follows_callE
    · exact ⟨fun h => h.elim, rfl, rfl⟩
    · exact fun _ => follows_maybeFlush cfg mem lost
  · exact All.bindE (allE_call ⟨trivial, id⟩) fun _ => allE_defined _

/-- A value that is computed makes no call. -/
theorem follows_defined {β σ : Type} {T : Typestate Lsmdb.Call Lsmdb.Call.Res σ} {t : σ}
    {x : Option α} {f : α → DBM β} {Q : β → σ → Prop} (h : ∀ a, x = some a → (f a).Follows T Q t) :
    (DB.defined x >>= f).Follows T Q t := by
  cases x with
  | none => trivial
  | some a => exact h a rfl

/-- A function that ends where it began. -/
theorem follows_snapshot {β : Type} {f : Version → DBM β} {Q : β → ClientState → Prop} {lost : Bool}
    (h : ∀ v, (f v).Follows (callRules.comap Call.base fun _ r => r) Q { lost := lost }) :
    (DB.snapshot >>= f).Follows (callRules.comap Call.base fun _ r => r) Q { lost := lost } :=
  ⟨⟨rfl, rfl⟩, fun _ => ⟨⟨fun _ => rfl, rfl, rfl⟩, fun v => ⟨⟨rfl, rfl, rfl⟩, fun _ => h v⟩⟩⟩

/-- The status of a write is the result of its flush. -/
theorem callDone_of_flushDone {op : Op} (hop : op ≠ .close) {r : Except Status Unit} {s : ClientState}
    (h : flushDone r s) : callDone op (.status (statusOf r)) s := by
  obtain ⟨hs, hfail⟩ := h
  refine ⟨?_, fun hf => ?_, ?_⟩
  · rw [hs]
  · obtain ⟨e, rfl, he⟩ := hfail hf
    exact ⟨e, rfl, he⟩
  · rw [hs]
    simp [hop]

/-- Every public function follows the rules. -/
theorem follows_program (cfg : Config) (op : Op) (lost : Bool) :
    (program cfg op).Follows callRules (callDone op) { lost := lost } := by
  -- a read leaves the state of the client alone
  have hread {op : Op} (hop : op ≠ .close) (r : Reply) : callDone op r { lost := lost } :=
    ⟨rfl, (fun h => by cases h), by simp [hop]⟩
  cases op with
  | put k v =>
    exact follows_bind.mpr ((follows_write cfg _ _ lost).mono fun r s hr =>
      callDone_of_flushDone (by simp) hr)
  | delete k =>
    exact follows_bind.mpr ((follows_write cfg _ _ lost).mono fun r s hr =>
      callDone_of_flushDone (by simp) hr)
  | flush =>
    exact follows_bind.mpr ((follows_flushMemTable cfg lost).mono fun r s hr =>
      callDone_of_flushDone (by simp) hr)
  | get k =>
    apply follows_lift
    refine follows_bind.mpr ⟨⟨fun h => h.elim, rfl, rfl⟩, fun mem => ?_⟩
    apply follows_defined
    intro r _
    show (if _ then _ else _ : DBM LookupResult).Follows _ _ _
    split
    · exact hread (by simp) _
    apply follows_snapshot
    intro v
    refine ⟨⟨fun h => h.elim, rfl, rfl⟩, fun cache => ?_⟩
    apply follows_defined
    intro r _
    exact ⟨⟨fun h => h.elim, rfl, rfl⟩, fun _ => hread (by simp) _⟩
  | scan start end_ =>
    apply follows_lift
    refine follows_bind.mpr ⟨⟨fun h => h.elim, rfl, rfl⟩, fun mem => ?_⟩
    apply follows_snapshot
    intro v
    rw [← bind_ret (DB.defined _)]
    apply follows_defined
    exact fun r _ => hread (by simp) _
  -- `close` sets the flag under the mutex and wakes the background thread
  | close =>
    exact ⟨⟨rfl, rfl⟩, fun _ => ⟨⟨fun _ => rfl, rfl, rfl⟩, fun _ => ⟨⟨rfl, rfl⟩, fun _ =>
      ⟨⟨rfl, rfl, rfl⟩, fun _ => ⟨rfl, (fun h => by cases h), iff_of_true rfl rfl⟩⟩⟩⟩⟩

/-- `TEST_WaitForCompactions`. -/
theorem follows_waitTurn (cfg : Config) (lost : Bool) :
    (waitTurn cfg).Follows (waitRules cfg.options) waitDone { held := true, lost := lost } := by
  -- another turn of the loop, after a look at the members
  have hagain (s : ClientState) (hs : s = { s with
        held := true, unannounced := false, failing := false, stopped := false, stopping := false }) :
      (do
        call (.notifyAll .bg)
        call (.sleep .idle)
        call (.wake .idle true)
        return true : SyncM Bool).Follows (waitRules cfg.options) waitDone s := by
    rw [hs]
    exact ⟨⟨rfl, rfl⟩, fun _ => ⟨⟨rfl, rfl, rfl⟩, fun _ => ⟨⟨rfl, rfl, rfl⟩, fun _ => rfl⟩⟩⟩
  refine follows_bind.mpr ⟨⟨rfl, rfl⟩, fun busy => ?_⟩
  cases busy with
  | true => exact hagain _ rfl
  | false =>
    refine ⟨⟨rfl, rfl⟩, fun v => ?_⟩
    show (if needsCompaction cfg.options v = true then _ else _ : SyncM Bool).Follows _ _ _
    cases hneeds : needsCompaction cfg.options v with
    | true => exact hagain _ rfl
    | false =>
      refine ⟨⟨rfl, rfl, rfl⟩, fun _ => ?_⟩
      show waitDone false { lost := lost, drained := !needsCompaction cfg.options v }
      rw [hneeds]
      rfl

/-- Waiting begins with taking the mutex. -/
theorem follows_waitForCompactions (cfg : Config) (lost : Bool) :
    (waitForCompactions cfg).Follows (waitRules cfg.options) waitDone { lost := lost } :=
  ⟨⟨rfl, rfl, rfl⟩, fun _ => follows_waitTurn cfg lost⟩

/-- A turn of the waiting has a value. -/
theorem total_waitTurn (cfg : Config) : (waitTurn cfg).Total := by
  intro busy
  cases busy with
  | true => exact fun _ _ _ => trivial
  | false =>
    intro v
    show (if needsCompaction cfg.options v = true then _ else _ : SyncM Bool).Total
    split
    · exact fun _ _ _ => trivial
    · exact fun _ => trivial

/-! ## The compaction thread follows the rules -/

/-- Before it goes to sleep the thread has seen that there is nothing to do. -/
theorem follows_goToSleep {options : Options} {v : Version}
    (hneeds : needsCompaction options v = false) (busy : Bool) :
    goToSleep.Follows (lookRules options) lookDone
      { held := true, live := true, seen := some v, busy := busy } :=
  ⟨⟨rfl, fun h => by cases h⟩, fun _ => ⟨rfl, fun _ =>
    ⟨⟨rfl, rfl, rfl, v, rfl, hneeds⟩, fun _ => rfl⟩⟩⟩

/-- Looking for work under the mutex. -/
theorem follows_lookLocked (cfg : Config) (busy : Bool) :
    (lookLocked cfg).Follows (lookRules cfg.options) lookDone { held := true, busy := busy } := by
  refine ⟨rfl, fun down => ?_⟩
  cases down with
  | true => exact ⟨⟨rfl, fun h => by cases h⟩, fun _ => ⟨rfl, fun _ => ⟨rfl, fun _ => rfl⟩⟩⟩
  | false =>
    refine ⟨rfl, fun v => ?_⟩
    show (if !needsCompaction cfg.options v then _ else _ : SyncM Look).Follows _ _ _
    cases hneeds : needsCompaction cfg.options v with
    | false => exact follows_goToSleep hneeds busy
    | true =>
      -- where a compaction is needed there is one to pick
      show (lift (DB.defined (pickCompaction cfg.options v)) >>= _).Follows _ _ _
      cases hpick : pickCompaction cfg.options v with
      | none => trivial
      | some pick =>
        cases pick with
        | none => exact absurd hpick (pickCompaction_of_needsCompaction hneeds)
        | some c => exact ⟨⟨rfl, fun _ => ⟨v, rfl, hneeds⟩⟩, fun _ => ⟨rfl, fun _ => rfl⟩⟩

/-- A look at the shared state. -/
theorem follows_look (cfg : Config) (waited busy : Bool) :
    (look cfg waited).Follows (lookRules cfg.options) lookDone
      { asleep := waited, busy := busy } := by
  cases waited with
  | false => exact ⟨⟨rfl, rfl⟩, fun _ => follows_lookLocked cfg busy⟩
  | true => exact ⟨⟨rfl, rfl⟩, fun _ => follows_lookLocked cfg busy⟩

/-- A part of a compaction that the rules are not about. -/
theorem follows_work (held : Bool) {p : DBM α} {Q : α → WorkerState → Prop} (hp : p.All P)
    (hP : ∀ c, P c → Plain c ∧ ¬ c.ClientOnly ∧ (c.Guarded → held = true))
    (hQ : p.Returns fun a => Q a { busy := true, held := held }) :
    p.Follows (compactRules.comap Call.base fun _ r => r) Q { busy := true, held := held } := by
  apply Follows.of_all hp _ _ hQ
  · intro c hc
    obtain ⟨hplain, hclient, hguarded⟩ := hP c hc
    cases c with
    | lock | unlock | storeCurrent | storeShuttingDown => exact hplain.elim
    | _ => exact ⟨hguarded, hclient, rfl⟩
  · intro c r hc
    obtain ⟨hplain, -⟩ := hP c hc
    cases c with
    | lock | unlock | storeCurrent | storeShuttingDown => exact hplain.elim
    | _ => rfl

/-- The compaction thread is in a compaction and does not hold the mutex. -/
def Working {β : Type} (_ : β) (s : WorkerState) : Prop := s = { busy := true }

/-- A part of a compaction and what follows it. -/
theorem follows_workE {β γ : Type} {p : DBE β} {f : β → DBE γ} (hp : p.run.All P)
    (hP : ∀ c, P c → Plain c ∧ ¬ c.ClientOnly ∧ ¬ c.Guarded)
    (hf : ∀ b, (f b).run.Follows (compactRules.comap Call.base fun _ r => r) Working
      { busy := true }) :
    (p >>= f).run.Follows (compactRules.comap Call.base fun _ r => r) Working { busy := true } := by
  refine follows_bindE.mpr (follows_work false hp (fun c hc => ?_) (returns_of_forall fun r => ?_))
  · obtain ⟨hplain, hclient, hguarded⟩ := hP c hc
    exact ⟨hplain, hclient, fun hg => absurd hg hguarded⟩
  · cases r with
    | ok b => exact hf b
    | error e => rfl

/-- A compaction may use a table without the mutex. -/
theorem onTable_work {number : Nat} {c : Lsmdb.Call} (h : c.OnTable number) :
    Plain c ∧ ¬ c.ClientOnly ∧ ¬ c.Guarded :=
  ⟨(onTable_plain h).1, (onTable_plain h).2.2, (onTable_plain h).2.1⟩

/-- An output begins with a number, taken under the mutex. -/
theorem follows_currentOutput (cfg : Config) (cur : Option DB.Output) :
    (DB.currentOutput cfg cur).run.Follows (compactRules.comap Call.base fun _ r => r) Working
      { busy := true } := by
  cases cur with
  | some o => rfl
  | none =>
    refine follows_bindE.mpr ⟨rfl, fun _ => ⟨⟨fun _ => rfl, id, rfl⟩, fun number => ⟨rfl, fun _ => ?_⟩⟩⟩
    apply follows_workE (all_openWriter cfg number) fun c hc => onTable_work hc.onTable
    exact fun _ => rfl

/-- Finishing an output needs no mutex. -/
theorem follows_finishOutput (cfg : Config) (outputs : List FileMeta) (cur : Option DB.Output) :
    (DB.finishOutput cfg outputs cur).run.Follows (compactRules.comap Call.base fun _ r => r) Working
      { busy := true } := by
  cases cur with
  | none => rfl
  | some o =>
    apply follows_workE (all_finishTable cfg o.number o.w o.es) fun c hc => onTable_work hc
    exact fun _ => rfl

/-- One record of a compaction. -/
theorem follows_compactRecord (cfg : Config) (bottommost : Bool)
    (state : List FileMeta × Option DB.Output) (e : Entry) :
    (DB.compactRecord cfg bottommost state e).run.Follows
      (compactRules.comap Call.base fun _ r => r) Working { busy := true } := by
  obtain ⟨outputs, cur⟩ := state
  rw [DB.compactRecord]
  -- a tombstone is dropped on the bottom level
  split
  · rfl
  refine follows_bindE.mpr ((follows_currentOutput cfg cur).mono fun r s hs => ?_)
  cases r with
  | error e => exact hs
  | ok o =>
    rw [Working] at hs
    subst hs
    apply follows_workE (all_addEntry cfg o.number o.w e) fun c hc => onTable_work hc.onTable
    intro w
    show (if _ then _ else _ : DBE _).run.Follows _ _ _
    -- the output has reached its size
    split
    · refine follows_bindE.mpr ((follows_finishOutput cfg outputs _).mono fun r s hs => ?_)
      cases r <;> exact hs
    · rfl

/-- The inputs are unlinked and nothing else. -/
theorem all_unlinkInputs (inputs : List FileMeta) :
    (DB.unlinkInputs inputs).All fun c => ∃ name, c = .unlink name := by
  induction inputs with
  | nil => trivial
  | cons f inputs ih => exact ⟨⟨_, rfl⟩, fun _ => ih⟩

/-- A body under the mutex. -/
theorem follows_dbWithLock {β σ : Type} {T : Typestate Lsmdb.Call Lsmdb.Call.Res σ} {t : σ}
    {body : DBE β} {Q : Except Status β → σ → Prop} (hok : T.ok t .lock)
    (h : body.run.Follows T (fun r t => T.ok t .unlock ∧ Q r (T.next t .unlock ()))
      (T.next t .lock ())) : (DB.withLock body).run.Follows T Q t := by
  refine ⟨hok, fun _ => ?_⟩
  show (body.run >>= fun r => DB.call .unlock >>= fun _ => pure r : DBM _).Follows T Q _
  exact follows_bind.mpr (h.mono fun r t hr => ⟨hr.1, fun _ => hr.2⟩)

/-- `DoCompaction`. -/
theorem follows_doCompaction (cfg : Config) (c : Compaction) :
    (DB.doCompaction cfg c).run.Follows (compactRules.comap Call.base fun _ r => r) Working
      { busy := true } := by
  refine follows_bindE.mpr ⟨⟨fun h => h.elim, id, rfl⟩, fun readers => ?_⟩
  apply follows_workE (allE_defined (P := fun _ => False) _) fun _ h => h.elim
  intro merged
  obtain ⟨es, status⟩ := merged
  -- between two records the mutex is free
  refine follows_bindE.mpr ((follows_foldlM (I := Working) (E := Working)
    (fun state e _ s hs => ?_) rfl).mono fun r s hs => ?_)
  · rw [Working] at hs
    subst hs
    exact (follows_compactRecord cfg c.bottommost state e).mono fun r s hs => by cases r <;> exact hs
  cases r with
  | error e => exact hs
  | ok state =>
    have hs' : s = { busy := true } := hs
    subst hs'
    obtain ⟨outputs, cur⟩ := state
    show (if !status.ok then _ else _ : DBE Unit).run.Follows _ _ _
    split
    · rfl
    refine follows_bindE.mpr ((follows_finishOutput cfg outputs cur).mono fun r s hs => ?_)
    cases r with
    | error e => exact hs
    | ok outputs =>
      have hs' : s = { busy := true } := hs
      subst hs'
      -- the version is installed and the inputs are unlinked under the mutex
      apply follows_dbWithLock
      · rfl
      refine follows_bindE.mpr ⟨⟨fun _ => rfl, id, rfl⟩, fun v => ?_⟩
      refine follows_bindE.mpr ⟨⟨fun _ => rfl, id, rfl⟩, fun _ => ?_⟩
      refine follows_bindE.mpr (follows_work true (all_writeManifest _)
        (fun c hc => ⟨(onManifest_plain hc).1, (onManifest_plain hc).2, fun _ => rfl⟩)
        (returns_of_forall fun r => ?_))
      cases r with
      | error e => exact ⟨rfl, rfl⟩
      | ok a =>
        refine follows_bind.mpr (follows_work true (all_unlinkInputs c.inputs)
          (fun c hc => ?_) (returns_of_forall fun _ => ⟨rfl, rfl⟩))
        obtain ⟨name, rfl⟩ := hc
        exact ⟨trivial, id, fun h => h.elim⟩

end Sync

end Lsmdb
