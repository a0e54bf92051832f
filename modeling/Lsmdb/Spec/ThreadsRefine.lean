import Lsmdb.Spec.ThreadsInvariant
import Lsmdb.Spec.Traces

/-!
# The condition variables do not change what the engine does

A run of the threads with their condition variables is a run of `Lsmdb.Native.System`, in
which a wait may end at any time (`simulation_erase`). So everything that holds in the
states of that system holds here. `TEST_WaitForCompactions` is not part of it: while the
client is in there, the other system has an idle client and a mutex that nobody holds.
-/

namespace Lsmdb.Sync

open Prog

variable {α β : Type}

/-! ## Programs -/

/-- The program without the condition variables: a wait is an unlock and a lock. The programs that
    this is used for do not read `bg_busy_`. -/
def erase : SyncM α → DBM α
  | .ret a => .ret a
  | .undef => .undef
  | .call (.base c) k => .call c fun r => erase (k r)
  | .call .loadBusy k => erase (k false)
  | .call (.storeBusy _) k => erase (k ())
  | .call (.notifyAll _) k => erase (k ())
  | .call (.sleep _) k => .call .unlock fun _ => erase (k ())
  | .call (.wake _ _) k => .call .lock fun _ => erase (k ())

def eraseE (p : SyncE α) : DBE α := ExceptT.mk (erase p.run)

@[simp] theorem erase_bind (p : SyncM α) (f : α → SyncM β) :
    erase (p >>= f) = erase p >>= fun a => erase (f a) := by
  induction p with
  | ret a => rfl
  | undef => rfl
  | call c k ih =>
    cases c with
    | base c => exact congrArg (Prog.call c) (funext ih)
    | loadBusy => exact ih false
    | storeBusy | notifyAll => exact ih ()
    | sleep cv => exact congrArg (Prog.call Lsmdb.Call.unlock) (funext fun _ => ih ())
    | wake cv timed => exact congrArg (Prog.call Lsmdb.Call.lock) (funext fun _ => ih ())

@[simp] theorem erase_pure (a : α) : erase (pure a : SyncM α) = pure a := rfl

@[simp] theorem erase_lift (p : DBM α) : erase (lift p) = p := by
  induction p with
  | ret a => rfl
  | undef => rfl
  | call c k ih => exact congrArg (Prog.call c) (funext ih)

@[simp] theorem eraseE_liftE (p : DBE α) : eraseE (liftE p) = p := erase_lift p.run

@[simp] theorem eraseE_pure (a : α) : eraseE (pure a : SyncE α) = pure a := rfl

@[simp] theorem eraseE_bind (p : SyncE α) (f : α → SyncE β) :
    eraseE (p >>= f) = eraseE p >>= fun a => eraseE (f a) := by
  show (erase (p.run >>= _) : DBM _) = (erase p.run >>= _ : DBM _)
  rw [erase_bind]
  congr 1
  funext r
  cases r <;> rfl

@[simp] theorem eraseE_withLock (body : SyncE α) :
    eraseE (withLock body) = DB.withLock (eraseE body) := by
  show erase (call (.base .lock) >>= fun _ => body.run >>= fun r => call (.base .unlock) >>= fun _ =>
    pure r) = _
  simp only [erase_bind]
  rfl

@[simp] theorem eraseE_notify (cv : CondVar) :
    eraseE (liftM (call (.notifyAll cv)) : SyncE Unit) = pure () := rfl

variable (cfg : Config)

/-- A flush with its notification erased. -/
private theorem erase_flushMemTable : eraseE (flushMemTable cfg) = DB.flushMemTable cfg := by
  rw [flushMemTable, DB.flushMemTable, eraseE_bind, eraseE_liftE]
  congr 1
  funext mem
  split
  · rfl
  simp

/-- The flush behind a write. -/
private theorem erase_maybeFlush (mem : SkipList) : eraseE (maybeFlush cfg mem) = DB.maybeFlush cfg mem := by
  rw [maybeFlush, DB.maybeFlush]
  split
  · exact erase_flushMemTable cfg
  · rfl

/-- `Put` with its notification erased. -/
private theorem erase_put (key value : Bytes) : eraseE (put cfg key value) = DB.put cfg key value := by
  simp [put, DB.put, erase_maybeFlush]

/-- `Delete` with its notification erased. -/
private theorem erase_delete (key : Bytes) : eraseE (delete cfg key) = DB.delete cfg key := by
  simp [delete, DB.delete, erase_maybeFlush]

/-- The programs of the public functions. -/
theorem erase_program (op : Op) : erase (program cfg op) = op.program cfg := by
  have hstatus {p : SyncE Unit} {q : DBE Unit} (h : eraseE p = q) :
      erase (p.run >>= fun r => pure (.status (statusOf r))) =
        (q.run >>= fun r => pure (.status (statusOf r)) : DBM Reply) := by
    rw [erase_bind, ← h]
    rfl
  -- reads have no notification to erase
  cases op with
  | put k v => exact hstatus (erase_put cfg k v)
  | delete k => exact hstatus (erase_delete cfg k)
  | flush => exact hstatus (erase_flushMemTable cfg)
  | get k => exact erase_lift _
  | scan start end_ => exact erase_lift _
  | close => rfl

/-- What the compaction thread does after a look. -/
def afterLook : Look → DBM Bool
  | .stop => return false
  | .sleep => return true
  | .compact c => do
    let _ ← (DB.doCompaction cfg c).run
    return true

/-- A turn of the compaction thread. -/
private theorem erase_look (waited : Bool) :
    (erase (look cfg waited) >>= afterLook cfg) = DB.backgroundTurn cfg := by
  have hlock : (erase (look cfg waited) >>= afterLook cfg) =
      Prog.call Lsmdb.Call.lock fun _ => erase (lookLocked cfg) >>= afterLook cfg := by
    cases waited <;> rfl
  rw [hlock]
  -- call by call; only the branches differ
  refine congrArg (Prog.call Lsmdb.Call.lock) (funext fun _ => ?_)
  refine congrArg (Prog.call Lsmdb.Call.loadShuttingDown) (funext fun down => ?_)
  cases down with
  | true => rfl
  | false =>
    refine congrArg (Prog.call Lsmdb.Call.loadCurrent) (funext fun v => ?_)
    show erase (if !needsCompaction cfg.options v then _ else _) >>= afterLook cfg =
      if !needsCompaction cfg.options v then _ else _
    cases needsCompaction cfg.options v with
    | false => rfl
    | true =>
      show erase (lift (DB.defined (pickCompaction cfg.options v)) >>= _) >>= afterLook cfg =
        DB.defined (pickCompaction cfg.options v) >>= _
      rcases pickCompaction cfg.options v with _ | _ | c
      · rfl
      · rfl
      · rfl

/-! ## States -/

def Worker.erase : Worker → Option (DBM Bool)
  | looking p => some (Sync.erase p >>= afterLook cfg)
  | compacting _ p => some (Sync.erase p >>= fun _ => return true)
  | ended => none

def Client.erase : Client → Lsmdb.Client
  | idle | waiting _ => .idle
  | running op p => .running op (Sync.erase p)
  | closing => .closing

def Process.erase : Process → Lsmdb.Process
  | down => .down
  | opening cfg p => .opening cfg p
  | up cfg client worker => .up cfg client.erase (worker.erase cfg)

/-- The shared state of a client that holds no mutex. -/
def released (w : Lsmdb.World) : Lsmdb.World :=
  { w with mutex := if w.mutex = some .client then none else w.mutex }

/-- What the client does with the mutex in `TEST_WaitForCompactions` is not seen. -/
def Client.eraseWorld (w : Lsmdb.World) : Client → Lsmdb.World
  | waiting _ => released w
  | idle | running _ _ | closing => w

def Process.eraseWorld (w : Lsmdb.World) : Process → Lsmdb.World
  | up _ client _ => client.eraseWorld w
  | down | opening _ _ => w

/-- A state and the same state without the condition variables. Of a process that has ended only
    the directory is left. -/
structure Refines (s : System) (t : Lsmdb.System) : Prop where
  process : t.process = s.process.erase
  history : t.history = s.history
  disk : t.world.disk = s.world.disk
  world : s.process ≠ .down → t.world = s.process.eraseWorld s.world.toWorld

/-! ## Calls -/

/-- There is nothing to release. -/
theorem released_of_ne {w : Lsmdb.World} (h : w.mutex ≠ some .client) : released w = w := by
  rw [released, if_neg h]

/-- Releasing the mutex does not touch the disk. -/
theorem Client.disk_eraseWorld (w : Lsmdb.World) (client : Client) :
    (client.eraseWorld w).disk = w.disk := by
  cases client <;> rfl

/-- Nor does it for the process. -/
theorem Process.disk_eraseWorld (w : Lsmdb.World) (p : Process) : (p.eraseWorld w).disk = w.disk := by
  cases p with
  | up cfg client worker => exact client.disk_eraseWorld w
  | down | opening => rfl

/-- The other calls do not look at the mutex. -/
theorem exec_mutex {t : Thread} {c : Lsmdb.Call} {ch : Lsmdb.Choice} {w w' : Lsmdb.World} {r : c.Res}
    (h : Lsmdb.exec t c ch w = some (r, w')) (hlock : c ≠ .lock) (hunlock : c ≠ .unlock)
    (m : Option Thread) : w'.mutex = w.mutex ∧
      Lsmdb.exec t c ch { w with mutex := m } = some (r, { w' with mutex := m }) := by
  cases c with
  | lock => exact absurd rfl hlock
  | unlock => exact absurd rfl hunlock
  -- these look at the disk first
  | openAppend name | rename src dst | openRead name =>
    cases ch with
    | fail errno => cases h; exact ⟨rfl, rfl⟩
    | ok | short | inputs =>
      simp only [Lsmdb.exec] at h ⊢
      split at h <;> cases h <;> simp_all
  | write name data =>
    cases ch with
    | short n =>
      simp only [Lsmdb.exec] at h ⊢
      split at h <;> cases h
      simp_all
    | ok | fail | inputs => cases h; exact ⟨rfl, rfl⟩
  | _ => cases ch <;> cases h <;> exact ⟨rfl, rfl⟩

/-- What the compaction thread does does not depend on what the client holds. -/
theorem exec_released {c : Lsmdb.Call} {ch : Lsmdb.Choice} {w w' : Lsmdb.World} {r : c.Res}
    (h : Lsmdb.exec .background c ch w = some (r, w')) :
    Lsmdb.exec .background c ch (released w) = some (r, released w') := by
  cases c with
  | lock =>
    obtain ⟨hfree, rfl⟩ := exec_lock h
    rw [released_of_ne (by simp [hfree]), released_of_ne (by simp)]
    exact h
  | unlock =>
    obtain ⟨hheld, rfl⟩ := exec_unlock h
    rw [released_of_ne (by simp [hheld]), released_of_ne (by simp)]
    exact h
  -- the others neither read nor change the mutex
  | _ =>
    obtain ⟨hsame, hexec⟩ := exec_mutex h nofun nofun
      (if w.mutex = some .client then none else w.mutex)
    rw [released, hexec, released, hsame]

/-! ## Steps -/

variable {cfg} {pol : Policy} {options : Options} {history : List (Op × Reply)} {t : Thread}
  {c : ClientState} {k : WorkerState} {w w' : World} {ch : Choice}

/-- A step of a program is one of the erased program, or none. -/
theorem erase_step {p p' : SyncM α} (hs : p.step (exec t) ch w = some (p', w'))
    (hbusy : nextCall p ≠ some .loadBusy) (hallows : ∀ a ∈ nextCall p, Allows pol a ch w) :
    erase p' = erase p ∧ w'.toWorld = w.toWorld ∨
      ∃ ch', (erase p).step (Lsmdb.exec t) ch' w.toWorld = some (erase p', w'.toWorld) ∧
        ∀ b cont, erase p = .call b cont → pol.Allows b ch' w.toWorld ∧
          (b.Guarded → nextCall p = some (.base b)) := by
  cases p with
  | ret a => cases hs
  | undef => cases hs
  | call a cont =>
    obtain ⟨⟨r, w''⟩, hexec, heq⟩ := Option.map_eq_some_iff.mp hs
    cases heq
    -- the halves of a wait are calls that cannot fail
    have hmutex {b : Lsmdb.Call} (hb : ∀ v, b.Fits v) :
        pol.Allows b .ok w.toWorld := ⟨hb _, b.mayFail_ok _ _⟩
    cases a with
    | base b =>
      cases ch with
      | spurious => cases hexec
      | base ch =>
        obtain ⟨⟨r', v⟩, hbase, heq⟩ := Option.map_eq_some_iff.mp hexec
        cases heq
        refine .inr ⟨ch, ?_, ?_⟩
        · show Option.map _ (Lsmdb.exec t b ch w.toWorld) = _
          rw [hbase]
          rfl
        · intro b' cont' heq
          cases heq
          exact ⟨hallows _ rfl, fun _ => rfl⟩
    | loadBusy => exact absurd rfl hbusy
    | storeBusy | notifyAll =>
      cases hexec
      exact .inl ⟨rfl, rfl⟩
    | sleep cv =>
      simp only [exec] at hexec
      split at hexec
      next hheld =>
        cases hexec
        refine .inr ⟨.ok, ?_, ?_⟩
        · show Option.map _ (if w.mutex = some t then _ else none) = _
          rw [if_pos hheld]
          rfl
        · intro b' cont' heq
          cases heq
          exact ⟨hmutex fun _ => trivial, fun hg => hg.elim⟩
      next => cases hexec
    | wake cv timed =>
      simp only [exec] at hexec
      split at hexec
      next hfree =>
        cases hexec
        refine .inr ⟨.ok, ?_, ?_⟩
        · show Option.map _ (if w.mutex = none then _ else none) = _
          rw [if_pos hfree.1]
          rfl
        · intro b' cont' heq
          cases heq
          exact ⟨hmutex fun _ => trivial, fun hg => hg.elim⟩
      next => cases hexec

/-- Only a client that waits reads the flag. -/
theorem not_loadBusy {σ : Type} {T : Typestate Call Call.Res σ} {p : SyncM α} {Q : α → σ → Prop}
    {s : σ} (h : p.Follows T Q s) (hT : ∀ s, ¬ T.ok s .loadBusy) : nextCall p ≠ some .loadBusy := by
  cases p with
  | ret a => exact nofun
  | undef => exact nofun
  | call a cont =>
    intro ha
    cases ha
    exact hT s h.1

/-- A call of the client in the system without condition variables. -/
private theorem step_client {op : Op} {p p' : DBM Reply} {ch : Lsmdb.Choice} {v v' : Lsmdb.World}
    {bg : Option (DBM Bool)} (hallows : ∀ b cont, p = .call b cont → pol.Allows b ch v)
    (hstep : p.step (Lsmdb.exec .client) ch v = some (p', v')) :
    pol.lts.step ⟨v, .up cfg (.running op p) bg, history⟩ []
      ⟨v', .up cfg (.running op p') bg, history⟩ := by
  refine ⟨.clientStep ch, ?_, congrArg (Option.map _) hstep, rfl⟩
  cases p with
  | ret a => trivial
  | undef => trivial
  | call b cont => exact hallows b cont rfl

/-- A call of the compaction thread. -/
private theorem step_background {client : Lsmdb.Client} {p p' : DBM Bool} {ch : Lsmdb.Choice}
    {v v' : Lsmdb.World} (hallows : ∀ b cont, p = .call b cont → pol.Allows b ch v)
    (hstep : p.step (Lsmdb.exec .background) ch v = some (p', v')) :
    pol.lts.step ⟨v, .up cfg client (some p), history⟩ []
      ⟨v', .up cfg client (some p'), history⟩ := by
  refine ⟨.backgroundStep ch, ?_, congrArg (Option.map _) hstep, rfl⟩
  cases p with
  | ret a => trivial
  | undef => trivial
  | call b cont => exact hallows b cont rfl

/-- In `TEST_WaitForCompactions` the client changes nothing but the mutex and who sleeps. -/
theorem exec_wait {a : Call} {r : a.Res} (hok : (waitRules options).ok c a)
    (hexec : exec .client a ch w = some (r, w')) :
    w'.toWorld = w.toWorld ∨
      w.mutex = none ∧ w'.toWorld = { w.toWorld with mutex := some .client } ∨
      w.mutex = some .client ∧ w'.toWorld = { w.toWorld with mutex := none } := by
  cases a with
  | base b =>
    obtain ⟨ch', v, hbase, rfl⟩ := exec_base hexec
    cases b with
    -- a wait is an unlock and a lock
    | lock => exact .inr (.inl (exec_lock hbase))
    | unlock => exact .inr (.inr (exec_unlock hbase))
    | loadCurrent => cases hbase; exact .inl rfl
    | _ => exact hok.elim
  | loadBusy | notifyAll => cases hexec; exact .inl rfl
  | sleep cv =>
    simp only [exec] at hexec
    split at hexec
    next hheld => cases hexec; exact .inr (.inr ⟨hheld, rfl⟩)
    next => cases hexec
  | wake cv timed =>
    simp only [exec] at hexec
    split at hexec
    next hfree => cases hexec; exact .inr (.inl ⟨hfree.1, rfl⟩)
    next => cases hexec
  | storeBusy => exact hok.elim

/-- A client that waits does nothing but take and release the mutex. -/
private theorem released_wait {a : Call} {r : a.Res} (hok : (waitRules options).ok c a)
    (hexec : exec .client a ch w = some (r, w')) : released w'.toWorld = released w.toWorld := by
  rcases exec_wait hok hexec with heq | ⟨hfree, heq⟩ | ⟨hheld, heq⟩
  · rw [heq]
  · simp [released, heq, hfree]
  · simp [released, heq, hheld]

/-- A step of the client is a step of the other system, or none. -/
theorem ClientRuled.erase {client client' : Client} {bg : Option (DBM Bool)}
    (h : ClientRuled options c client) (hallows : ∀ a ∈ client.nextCall, Allows pol a ch w)
    (hs : client.step ch w = some (client', w')) :
    pol.lts.Trace ⟨client.eraseWorld w.toWorld, .up cfg client.erase bg, history⟩ []
      ⟨client'.eraseWorld w'.toWorld, .up cfg client'.erase bg, history⟩ := by
  cases client with
  | idle => cases hs
  | closing => cases hs
  | running op p =>
    obtain ⟨⟨p', w''⟩, hstep, heq⟩ := Option.map_eq_some_iff.mp hs
    cases heq
    show pol.lts.Trace ⟨w.toWorld, .up cfg (.running op (Sync.erase p)) bg, _⟩ []
      ⟨w'.toWorld, .up cfg (.running op (Sync.erase p')) bg, _⟩
    rcases erase_step hstep (not_loadBusy h fun _ => id) hallows with ⟨hsame, hworld⟩ |
      ⟨ch', hstep', hallows'⟩
    · rw [hsame, hworld]
      exact .refl
    · exact .single (step_client (fun b cont hp => (hallows' b cont hp).1) hstep')
  | waiting p =>
    obtain ⟨⟨p', w''⟩, hstep, heq⟩ := Option.map_eq_some_iff.mp hs
    cases heq
    -- waiting is invisible
    obtain ⟨a, cont, r, rfl, rfl, hexec, hok, -⟩ := Follows.step h hstep
    show pol.lts.Trace ⟨released w.toWorld, _, _⟩ [] ⟨released w'.toWorld, _, _⟩
    rw [released_wait hok hexec]
    exact .refl

/-- The background thread does not see whether a waiting client holds the mutex. -/
private theorem Client.step_eraseWorld {p p' : DBM α} {ch : Lsmdb.Choice} {v v' : Lsmdb.World}
    (client : Client) (h : p.step (Lsmdb.exec .background) ch v = some (p', v')) :
    p.step (Lsmdb.exec .background) ch (client.eraseWorld v) = some (p', client.eraseWorld v') := by
  cases client with
  | idle | running | closing => exact h
  | waiting =>
    cases p with
    | ret a => cases h
    | undef => cases h
    | call b cont =>
      obtain ⟨⟨r, v''⟩, hexec, heq⟩ := Option.map_eq_some_iff.mp h
      cases heq
      -- the call does not see the mutex
      show Option.map _ (Lsmdb.exec .background b ch (released v)) = _
      rw [exec_released hexec]
      rfl

/-- Nor do the limits of the formats. -/
private theorem Client.fits_eraseWorld {b : Lsmdb.Call} {v : Lsmdb.World} (client : Client) (h : b.Fits v) :
    b.Fits (client.eraseWorld v) := by
  cases client with
  | waiting => cases b <;> exact h
  | idle | running | closing => exact h

/-- A step of the compaction thread. -/
private theorem erase_workerStep {f : α → DBM Bool} {client : Client} {p p' : SyncM α}
    (hs : p.step (exec .background) ch w = some (p', w')) (hbusy : nextCall p ≠ some .loadBusy)
    (hallows : ∀ a ∈ nextCall p, Allows pol a ch w) :
    pol.lts.Trace
      ⟨client.eraseWorld w.toWorld, .up cfg client.erase (some (erase p >>= f)), history⟩ []
      ⟨client.eraseWorld w'.toWorld, .up cfg client.erase (some (erase p' >>= f)), history⟩ := by
  rcases erase_step hs hbusy hallows with ⟨hsame, hworld⟩ | ⟨ch', hstep, hallows'⟩
  · rw [hsame, hworld]
    exact .refl
  · refine .single (step_background (fun b cont heq => ?_) (client.step_eraseWorld (step_bind hstep)))
    -- the limits concern the next call only
    cases hp : erase p with
    | ret a => rw [hp] at hstep; cases hstep
    | undef => rw [hp] at hstep; cases hstep
    | call b' cont' =>
      rw [hp] at heq
      cases heq
      have hallow := (hallows' b cont' hp).1
      exact ⟨client.fits_eraseWorld hallow.1, hallow.2⟩

/-- A step of the compaction thread is a step of the other system, or none. -/
theorem WorkerRuled.erase {client : Client} {worker worker' : Worker}
    (h : WorkerRuled options k worker) (hallows : ∀ a ∈ worker.nextCall, Allows pol a ch w)
    (hs : worker.step ch w = some (worker', w')) :
    pol.lts.Trace
      ⟨client.eraseWorld w.toWorld, .up cfg client.erase (worker.erase cfg), history⟩ []
      ⟨client.eraseWorld w'.toWorld, .up cfg client.erase (worker'.erase cfg), history⟩ := by
  cases worker with
  | ended => cases hs
  | looking p =>
    obtain ⟨⟨p', w''⟩, hstep, heq⟩ := Option.map_eq_some_iff.mp hs
    cases heq
    exact erase_workerStep hstep (not_loadBusy h fun _ => id) hallows
  | compacting c p =>
    obtain ⟨⟨p', w''⟩, hstep, heq⟩ := Option.map_eq_some_iff.mp hs
    cases heq
    exact erase_workerStep hstep (not_loadBusy h.2 fun _ => id) hallows

/-- Looking for work is the beginning of a turn. -/
theorem Worker.erase_looking (waited : Bool) :
    (looking (look cfg waited)).erase cfg = some (DB.backgroundTurn cfg) :=
  congrArg some (erase_look cfg waited)

/-- A turn of the compaction thread ends in both systems, or goes on with the compaction. -/
private theorem Worker.erase_return {v : Lsmdb.World} {client : Lsmdb.Client} {worker worker' : Worker}
    (hr : worker.return cfg = some worker') :
    pol.lts.Trace ⟨v, .up cfg client (worker.erase cfg), history⟩ []
      ⟨v, .up cfg client (worker'.erase cfg), history⟩ := by
  cases worker with
  | ended => cases hr
  | looking p =>
    cases p with
    | undef => cases hr
    | call => cases hr
    | ret look =>
      cases look with
      | stop =>
        cases hr
        exact .single ⟨.backgroundReturn, trivial, rfl, rfl⟩
      | sleep =>
        cases hr
        rw [erase_looking]
        exact .single ⟨.backgroundReturn, trivial, rfl, rfl⟩
      -- what was found and its compaction are the same turn
      | compact c =>
        cases hr
        have hsame : (compacting c (lift (DB.doCompaction cfg c).run)).erase cfg =
            (looking (.ret (.compact c))).erase cfg := by
          show some (Sync.erase (lift _) >>= _) = _
          rw [erase_lift]
          rfl
        rw [hsame]
        exact .refl
  | compacting c p =>
    cases p with
    | undef => cases hr
    | call => cases hr
    | ret r =>
      cases hr
      rw [erase_looking]
      exact .single ⟨.backgroundReturn, trivial, rfl, rfl⟩

/-- Every event is a step of the system without condition variables, or none. -/
theorem Refines.step {s s' : System} {t : Lsmdb.System} {o : List Act} (h : Refines s t)
    (hr : Ruled False s) (hs : (lts pol).step s o s') :
    ∃ t', pol.lts.Trace t o t' ∧ Refines s' t' := by
  obtain ⟨e, hpermits, hnext, rfl⟩ := lts_step.mp hs
  obtain ⟨hprocess, hhistory, hdisk, hworld⟩ := h
  obtain ⟨v, q, l⟩ := t
  obtain ⟨w, p, l⟩ := s
  cases hprocess
  cases hhistory
  have hdisk : v.disk = w.disk := hdisk
  -- a process that goes on
  have hsingle {t'} {s' : System} {o : List Act} (hstep : pol.lts.Trace ⟨v, p.erase, l⟩ o t')
      (ht : t' = ⟨s'.process.eraseWorld s'.world.toWorld, s'.process.erase, s'.history⟩) :
      ∃ t', pol.lts.Trace ⟨v, p.erase, l⟩ o t' ∧ Refines s' t' := by
    subst ht
    exact ⟨_, hstep, rfl, rfl, Process.disk_eraseWorld _ _, fun _ => rfl⟩
  cases e with
  | «open» cfg =>
    rw [System.next] at hnext
    split at hnext
    next hp =>
      cases hnext
      cases hp
      refine hsingle (.single ⟨.open cfg, ?_, rfl, rfl⟩) ?_
      · show _ ∧ (_ ∨ WholeFrames v.disk.log)
        rw [hdisk]
        exact hpermits
      · rw [hdisk]
        rfl
    next => cases hnext
  | openStep ch =>
    rw [System.next] at hnext
    split at hnext
    next cfg p hp =>
      cases hp
      cases hworld (by simp)
      obtain ⟨⟨p', v'⟩, hstep, rfl⟩ := Option.map_eq_some_iff.mp hnext
      refine hsingle (.single ⟨.openStep ch, ?_, ?_, rfl⟩) rfl
      · cases p <;> exact hpermits
      · exact congrArg (Option.map _) hstep
    next => cases hnext
  | openReturn =>
    rw [System.next] at hnext
    split at hnext
    next cfg hp =>
      cases hp
      cases hworld (by simp)
      cases hnext
      refine hsingle (.single ⟨.openReturn, trivial, rfl, rfl⟩) ?_
      show _ = (⟨_, .up cfg .idle ((Worker.looking (look cfg false)).erase cfg), _⟩ : Lsmdb.System)
      rw [Worker.erase_looking]
      rfl
    next cfg e hp =>
      cases hp
      cases hnext
      cases hworld (by simp)
      exact hsingle (.single ⟨.openReturn, trivial, rfl, rfl⟩) rfl
    next => cases hnext
  | invoke op =>
    rw [System.next] at hnext
    split at hnext
    next cfg worker hp =>
      cases hp
      cases hworld (by simp)
      cases hnext
      refine hsingle (.single ⟨.invoke op, hpermits, rfl, rfl⟩) ?_
      show _ = (⟨_, .up cfg (.running op (erase (program cfg op))) _, _⟩ : Lsmdb.System)
      rw [erase_program]
      rfl
    next => cases hnext
  | waitForCompactions =>
    rw [System.next] at hnext
    split at hnext
    next cfg worker hp =>
      cases hp
      cases hworld (by simp)
      cases hnext
      obtain ⟨c, k, -, hclient, -, ha⟩ := hr
      -- an idle client does not hold the mutex
      have hfree : w.mutex ≠ some .client := by
        have hc : c = { lost := c.lost } := hclient
        rw [Ne, ← ha.client, hc]
        simp
      refine hsingle .refl ?_
      show _ = (⟨released w.toWorld, _, _⟩ : Lsmdb.System)
      rw [released_of_ne hfree]
      rfl
    next => cases hnext
  | clientStep ch =>
    rw [System.next] at hnext
    split at hnext
    next cfg client worker hp =>
      cases hp
      cases hworld (by simp)
      obtain ⟨c, k, -, hclient, -, ha⟩ := hr
      obtain ⟨⟨client', w'⟩, hstep, rfl⟩ := Option.map_eq_some_iff.mp hnext
      exact hsingle (hclient.erase hpermits hstep) rfl
    next => cases hnext
  | clientReturn =>
    rw [System.next] at hnext
    split at hnext
    next cfg op r worker hp =>
      cases hp
      cases hworld (by simp)
      cases hnext
      refine hsingle (.single ⟨.clientReturn, trivial, rfl, rfl⟩) ?_
      -- both states of the client without a call
      by_cases hop : op = .close
      · simp [hop, Process.erase, Client.erase, Process.eraseWorld, Client.eraseWorld]
      · simp [hop, Process.erase, Client.erase, Process.eraseWorld, Client.eraseWorld]
    next cfg goOn worker hp =>
      cases hp
      cases hworld (by simp)
      cases hnext
      obtain ⟨c, k, -, hclient, -, ha⟩ := hr
      cases goOn with
      | true => exact hsingle .refl rfl
      | false =>
        have hfree : w.mutex ≠ some .client := by
          have hc : c = { held := false, drained := true, lost := c.lost } := hclient
          rw [Ne, ← ha.client, hc]
          simp
        refine hsingle .refl ?_
        show (⟨released w.toWorld, _, _⟩ : Lsmdb.System) = _
        rw [released_of_ne hfree]
        rfl
    next => cases hnext
  | workerStep ch =>
    rw [System.next] at hnext
    split at hnext
    next cfg client worker hp =>
      cases hp
      cases hworld (by simp)
      obtain ⟨c, k, -, -, hworker, ha⟩ := hr
      obtain ⟨⟨worker', w'⟩, hstep, rfl⟩ := Option.map_eq_some_iff.mp hnext
      exact hsingle (hworker.erase hpermits hstep) rfl
    next => cases hnext
  | workerReturn =>
    rw [System.next] at hnext
    split at hnext
    next cfg client worker hp =>
      cases hp
      cases hworld (by simp)
      obtain ⟨worker', hreturn, rfl⟩ := Option.map_eq_some_iff.mp hnext
      exact hsingle (Worker.erase_return hreturn) rfl
    next => cases hnext
  | join =>
    rw [System.next] at hnext
    split at hnext
    next hp =>
      cases hp
      cases hworld (by simp)
      cases hnext
      exact hsingle (.single ⟨.join, trivial, rfl, rfl⟩) rfl
    next => cases hnext
  | kill =>
    cases hnext
    exact ⟨_, .single ⟨.kill, hpermits, rfl, rfl⟩, rfl, rfl, hdisk, fun hne => absurd rfl hne⟩

/-- The condition variables change nothing that the client sees. -/
theorem simulation_erase (pol : Policy) : (lts pol).Simulation System.init pol.lts Refines where
  step hreach h hs := h.step (Ruled.of_reachable (reachable_iff_reaches.mpr hreach)) hs

/-- Both begin with an empty disk. -/
theorem refines_init : Refines System.init Lsmdb.System.init :=
  ⟨rfl, rfl, rfl, fun hne => absurd rfl hne⟩

/-- The system without condition variables has every state that a run reaches. -/
theorem Refines.of_reachable {s : System} (h : Reachable pol s) :
    ∃ t, pol.Reachable t ∧ Refines s t := by
  obtain ⟨l, hl⟩ := (reachable_iff_reaches.mp h).trace
  obtain ⟨t, ht, hrefines⟩ := (simulation_erase pol).trace refines_init hl
  exact ⟨t, Policy.reachable_of_reaches ht.reaches, hrefines⟩

end Lsmdb.Sync
