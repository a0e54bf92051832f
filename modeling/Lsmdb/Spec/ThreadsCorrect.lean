import Lsmdb.Spec.DrainCorrect
import Lsmdb.Spec.ThreadsServe

/-!
# What the threads do to each other

The condition variables and the mutex, over whole runs. They change nothing that the client
sees (`condition_variables_invisible`). Nobody waits in vain: a thread that is not asleep
can go on as soon as the mutex is free, and whoever has the mutex can go on (`no_deadlock`),
a compaction thread that sleeps has nothing to do (`no_lost_wakeup`), left to itself it works
until nothing is needed (`compactions_come_to_rest`), and the destructor gets to its join
(`destructor_returns`).
-/

namespace Lsmdb.Sync

open Prog

variable {α : Type} {pol : Policy} {cfg : Config} {s s' : System} {client : Client} {worker : Worker}
  {w w' : World} {t : Thread}

/-! ## The condition variables -/

/-- What the client sees of a run it could see of one in which the compaction thread, instead of
    waiting for a notification, looks for work at any time. -/
theorem condition_variables_invisible {l : List Act} (h : (lts pol).Trace System.init l s) :
    ∃ t, pol.lts.Trace Lsmdb.System.init l t ∧ t.history = s.history ∧
      t.world.disk = s.world.disk ∧ t.process = s.process.erase := by
  obtain ⟨t, ht, hrefines⟩ := (simulation_erase pol).trace refines_init h
  exact ⟨t, ht, hrefines.history, hrefines.disk, hrefines.process⟩

/-- A flush wakes the compaction thread up, and it begins to compact. -/
def compactionBegun : List Event :=
  Event.opening drainingConfig 8 ++ Event.working 6 ++ Event.calling (.put [1] [2]) 5 ++
    Event.calling .flush 28 ++ Event.working 5 ++ List.replicate 5 (.workerStep (.base .ok))

/-- A run with a write and a flush, seen without its condition variables. -/
theorem condition_variables_invisible_compactionBegun :
    ∃ t, Policy.wholeLogs.lts.Trace Lsmdb.System.init
      [.call (.put [1] [2]), .reply (.put [1] [2]) (.status .OK), .call .flush,
        .reply .flush (.status .OK)] t ∧ t.history.length = 2 := by
  have hrun : ((machine .wholeLogs).run (fun _ _ => true) System.init compactionBegun).map (fun out =>
      (out.1, out.2.history.length)) = some
        ([.call (.put [1] [2]), .reply (.put [1] [2]) (.status .OK), .call .flush,
          .reply .flush (.status .OK)], 2) := by decide +kernel
  obtain ⟨⟨l, s⟩, hrun, hl⟩ := Option.map_eq_some_iff.mp hrun
  obtain ⟨rfl, hlength⟩ := Prod.mk.inj hl
  obtain ⟨t, ht, hhistory, -⟩ := condition_variables_invisible (Machine.trace_of_run hrun)
  exact ⟨t, ht, hhistory ▸ hlength⟩

/-! ## Who can go on -/

/-- A thread can make its next step. -/
def System.canStep (s : System) : Thread → Bool
  | .client => (s.next (.clientStep (.base .ok))).isSome || (s.next .clientReturn).isSome
  | .background => (s.next (.workerStep (.base .ok))).isSome || (s.next .workerReturn).isSome

/-- The client is in a call. -/
def Client.InCall : Client → Prop
  | running _ _ | waiting _ => True
  | idle | closing => False

/-- What a thread has to wait for before a call. -/
def Call.Ready (t : Thread) (w : World) : Call → Prop
  | base .lock => w.mutex = none
  | base .unlock | sleep _ => w.mutex = some t
  | wake _ timed => w.mutex = none ∧ (w.sleeping t = none ∨ timed = true)
  | _ => True

/-- A call that is ready is executed. -/
theorem exec_isSome {a : Call} (h : a.Ready t w) : (exec t a (.base .ok) w).isSome := by
  cases a with
  | base b =>
    rw [exec, Option.isSome_map]
    cases b with
    -- only the mutex can make a call wait
    | lock => exact congrArg Option.isSome (if_pos h)
    | unlock => exact congrArg Option.isSome (if_pos h)
    | openRead name =>
      simp only [Lsmdb.exec]
      split <;> rfl
    | rename src dst =>
      simp only [Lsmdb.exec]
      split <;> rfl
    | _ => rfl
  | sleep cv => exact congrArg Option.isSome (if_pos h)
  -- a timed wait ends without a notification
  | wake cv timed => exact congrArg Option.isSome (if_pos ⟨h.1, h.2.imp_right .inl⟩)
  | _ => rfl

/-- So a program whose next call is ready takes a step. -/
theorem step_isSome {a : Call} {k : a.Res → SyncM α} (h : a.Ready t w) :
    ((Prog.call a k).step (exec t) (.base .ok) w).isSome := by
  rw [Prog.step, Option.isSome_map]
  exact exec_isSome h

section Ready

variable {options : Options} {c : ClientState} {k : WorkerState} {a : Call}

/-- A mutex that neither thread holds is free. -/
private theorem mutex_free (hc : w.mutex ≠ some .client) (hk : w.mutex ≠ some .background) :
    w.mutex = none := by
  cases hm : w.mutex with
  | none => rfl
  | some t =>
    cases t with
    | client => exact absurd hm hc
    | background => exact absurd hm hk

/-- The mutex is not the client's if the rules say so. -/
theorem Agree.mutex_ne_client (ha : Agree options c k w) (h : c.held = false) :
    w.mutex ≠ some .client := by
  rw [Ne, ← ha.client, h]
  simp

/-- Nor is it the background thread's. -/
theorem Agree.mutex_ne_background (ha : Agree options c k w) (h : k.held = false) :
    w.mutex ≠ some .background := by
  rw [Ne, ← ha.worker, h]
  simp

/-- A call that the rules allow is ready while the other thread does not hold the mutex. -/
private theorem Agree.ready_call (ha : Agree options c k w) (hm : w.mutex ≠ some .background)
    (hok : callRules.ok c a) : a.Ready .client w := by
  cases a with
  | base b =>
    cases b with
    | lock => exact mutex_free (ha.mutex_ne_client hok.1) hm
    | unlock => exact ha.client.mp hok.1
    | _ => trivial
  | notifyAll => trivial
  | _ => exact hok.elim

/-- The same for a client that waits: its sleep is timed, so it always ends. -/
private theorem Agree.ready_wait (ha : Agree options c k w) (hm : w.mutex ≠ some .background)
    (hok : (waitRules options).ok c a) : a.Ready .client w := by
  cases a with
  | base b =>
    cases b with
    | lock => exact mutex_free (ha.mutex_ne_client hok.1) hm
    | unlock => exact ha.client.mp hok.1
    | _ => trivial
  | sleep cv =>
    cases cv with
    | bg => exact hok.elim
    | idle => exact ha.client.mp hok.1
  | wake cv timed =>
    -- this wait is timed
    cases cv <;> cases timed
    case idle.true => exact ⟨mutex_free (ha.mutex_ne_client hok.1) hm, .inr rfl⟩
    all_goals exact hok.elim
  | _ => trivial

/-- The same for the background thread, if it is awake. -/
private theorem Agree.ready_look (ha : Agree options c k w) (hm : w.mutex ≠ some .client)
    (hawake : w.sleeping .background = none) (hok : (lookRules options).ok k a) :
    a.Ready .background w := by
  cases a with
  | base b =>
    cases b with
    | lock => exact mutex_free hm (ha.mutex_ne_background hok.1)
    | unlock => exact ha.worker.mp hok
    | _ => trivial
  | sleep cv =>
    cases cv with
    | idle => exact hok.elim
    | bg => exact ha.worker.mp hok.1
  -- it has been notified already
  | wake cv timed =>
    cases cv <;> cases timed
    case bg.false => exact ⟨mutex_free hm (ha.mutex_ne_background hok.1), .inl hawake⟩
    all_goals exact hok.elim
  | _ => trivial

/-- The same for a compaction. -/
private theorem Agree.ready_compact (ha : Agree options c k w) (hm : w.mutex ≠ some .client)
    (hok : compactRules.ok k a) : a.Ready .background w := by
  cases a with
  | base b =>
    cases b with
    | lock =>
      have hk : k = { busy := true } := hok
      exact mutex_free hm (ha.mutex_ne_background (by rw [hk]))
    | unlock =>
      have hk : k = { busy := true, held := true } := hok
      exact ha.worker.mp (by rw [hk])
    | _ => trivial
  | _ => exact hok.elim

/-- A call of the client can go on when the other thread does not have the mutex. -/
theorem Client.can_step {g : Ghost} (hg : Serving pol cfg g s.world.toWorld client worker)
    (hp : s.process = .up cfg client worker) (hr : ClientRuled cfg.options c client)
    (ha : Agree cfg.options c k s.world) (hcall : client.InCall)
    (hm : s.world.mutex ≠ some .background) : s.canStep .client = true := by
  cases client with
  | idle => exact hcall.elim
  | closing => exact hcall.elim
  | running op p =>
    -- it returns, or its next call is ready; a program of the model is never undefined
    cases p with
    | ret r => simp [System.canStep, System.next, hp]
    | undef =>
      obtain ⟨-, x, -, hsafe⟩ := hg.client
      exact hsafe.elim
    | call a cont =>
      have hready := ha.ready_call hm hr.1
      simp [System.canStep, System.next, hp, Client.step, step_isSome hready]
  | waiting p =>
    cases p with
    | ret r => simp [System.canStep, System.next, hp]
    | undef => exact hg.client.2.elim
    | call a cont =>
      have hready := ha.ready_wait hm hr.1
      simp [System.canStep, System.next, hp, Client.step, step_isSome hready]

/-- The compaction thread can go on when it is awake and the client does not have the mutex. -/
theorem Worker.can_step {g : Ghost} (hg : Serving pol cfg g s.world.toWorld client worker)
    (hp : s.process = .up cfg client worker) (hr : WorkerRuled cfg.options k worker)
    (ha : Agree cfg.options c k s.world) (hrunning : worker ≠ .ended)
    (hawake : s.world.sleeping .background = none) (hm : s.world.mutex ≠ some .client) :
    s.canStep .background = true := by
  cases worker with
  | ended => exact absurd rfl hrunning
  -- it returns, or its next call is ready
  | looking p =>
    cases p with
    | ret look => cases look <;> simp [System.canStep, System.next, hp, Worker.return]
    | undef => exact hg.worker.elim
    | call a cont =>
      have hready := ha.ready_look hm hawake hr.1
      simp [System.canStep, System.next, hp, Worker.step, step_isSome hready]
  | compacting _ p =>
    cases p with
    | ret r => simp [System.canStep, System.next, hp, Worker.return]
    | undef => exact hg.worker.elim
    | call a cont =>
      have hready := ha.ready_compact hm hr.2.1
      simp [System.canStep, System.next, hp, Worker.step, step_isSome hready]

/-- Who has the mutex is in the middle of something. -/
private theorem ClientRuled.inCall_of_held (hr : ClientRuled options c client) (h : c.held = true) :
    client.InCall := by
  cases client with
  | running | waiting => trivial
  | idle | closing =>
    have hc : c = _ := hr
    rw [hc] at h
    cases h

/-- A thread that has ended does not hold the mutex. -/
private theorem WorkerRuled.running_of_held (hr : WorkerRuled options k worker) (h : k.held = true) :
    worker ≠ .ended := by
  rintro rfl
  have hk : k = { down := true } := hr
  rw [hk] at h
  cases h

end Ready

/-- Whoever has the mutex can go on: its next call neither waits nor is undefined. When nobody has
    it, a call of the client can go on, and so can the compaction thread unless it is asleep or
    has ended. -/
theorem no_deadlock (h : Reachable pol s) (hp : s.process = .up cfg client worker) :
    (∀ t, s.world.mutex = some t → s.canStep t = true) ∧
      (s.world.mutex = none → (client.InCall → s.canStep .client = true) ∧
        (worker ≠ .ended → s.world.sleeping .background = none →
          s.canStep .background = true)) := by
  obtain ⟨g, hg⟩ := Serving.of_reachable h hp
  have hr := Ruled.of_reachable h
  rw [Ruled, hp] at hr
  obtain ⟨c, k, -, hclient, hworker, ha⟩ := hr
  refine ⟨fun t ht => ?_, fun hfree => ⟨fun hcall => ?_, fun hrunning hawake => ?_⟩⟩
  -- the holder of the mutex is in a call, and not asleep
  · cases t with
    | client =>
      have hcall := hclient.inCall_of_held (ha.client.mpr ht)
      exact Client.can_step hg hp hclient ha hcall (by simp [ht])
    | background =>
      have hheld := ha.worker.mpr ht
      have hrunning := hworker.running_of_held hheld
      refine Worker.can_step hg hp hworker ha hrunning ?_ (by simp [ht])
      by_contra hasleep
      rw [(ha.asleep hasleep).2.2] at hheld
      cases hheld
  · exact Client.can_step hg hp hclient ha hcall (by simp [hfree])
  · exact Worker.can_step hg hp hworker ha hrunning hawake (by simp [hfree])

/-- A flush is in its critical section while the compaction thread wants to take the mutex. -/
theorem no_deadlock_flush :
    let s := reach .wholeLogs (Event.opening drainingConfig 8 ++ Event.calling (.put [1] [2]) 5 ++
      .invoke .flush :: List.replicate 13 (.clientStep (.base .ok)))
    s.world.mutex = some .client ∧ s.canStep .client = true := by
  intro s
  have hm : s.world.mutex = some .client := by decide +kernel
  have hup : s.process.test (fun _ _ => true) = true := by decide +kernel
  obtain ⟨cfg, client, worker, hp, -⟩ := Process.exists_of_test hup
  exact ⟨hm, (no_deadlock (reachable_reach _ _) hp).1 .client hm⟩

/-! ## Notifications -/

/-- A call that gave the mutex away without a notification has nothing left to do but to report an
    error. -/
theorem ClientRuled.failing {options : Options} {c : ClientState} {g : Ghost} {v : Lsmdb.World}
    (hr : ClientRuled options c client) (hg : ClientServing g v client) (h : c.failing = true) :
    ∃ op e, client = .running op (.ret (.status e)) ∧ e.ok = false := by
  cases client with
  | idle | closing =>
    have hc : c = _ := hr
    rw [hc] at h
    cases h
  | running op p =>
    cases p with
    | ret r =>
      obtain ⟨-, hfail, -⟩ := hr
      obtain ⟨e, rfl, he⟩ := hfail h
      exact ⟨op, e, rfl, he⟩
    | undef =>
      obtain ⟨-, x, -, hsafe⟩ := hg
      exact hsafe.elim
    | call a cont =>
      -- no call is allowed any more
      have hnot : c.failing = false := by
        have hok : callRules.ok c a := hr.1
        cases a with
        | base b =>
          cases b with
          | lock => exact hok.2
          | unlock => exact hok.2.2
          | _ => exact hok.2.1
        | notifyAll cv =>
          cases cv with
          | bg => exact hok.2
          | idle => exact hok.elim
        | _ => exact hok.elim
      rw [hnot] at h
      cases h
  | waiting p =>
    have hnot : c.failing = false := by
      cases p with
      | ret goOn =>
        have hc : c = _ := hr
        rw [hc]
      | undef => exact hg.2.elim
      | call a cont =>
        have hok : (waitRules options).ok c a := hr.1
        cases a with
        | base b =>
          cases b with
          | lock => exact hok.2.2
          | unlock => exact hok.2.2
          | loadCurrent => exact hok.2
          | _ => exact hok.elim
        | loadBusy => exact hok.2
        | notifyAll cv =>
          cases cv with
          | bg => exact hok.2
          | idle => exact hok.elim
        | sleep cv =>
          cases cv with
          | idle => exact hok.2.2
          | bg => exact hok.elim
        | wake cv timed =>
          cases cv <;> cases timed
          case idle.true => exact hok.2.2
          all_goals exact hok.elim
        | storeBusy => exact hok.elim
    rw [hnot] at h
    cases h

/-- Without failures the compaction thread sleeps only while there is nothing to do. -/
private theorem Agree.idle_of_asleep {options : Options} {c : ClientState} {k : WorkerState} {g : Ghost}
    (ha : Agree options c k s.world) (hclient : ClientRuled options c client)
    (hg : Serving pol cfg g s.world.toWorld client worker) (hpol : ¬ pol.Faulty)
    (hlost : c.lost = false) (hasleep : s.world.sleeping .background ≠ none)
    (hm : s.world.mutex ≠ some .client) : needsCompaction options s.world.current = false := by
  rw [← Bool.not_eq_true]
  intro hneeds
  rcases ha.work hasleep hneeds with hu | hf | hl
  · exact hm (ha.client.mp (ha.unannounced hu))
  · -- without failures no call gets to this
    obtain ⟨op, e, rfl, he⟩ := hclient.failing hg.client hf
    rw [hg.return.2.ok_of_status hpol] at he
    cases he
  · rw [hlost] at hl
    cases hl

/-- While the compaction thread sleeps and the client is not in a critical section, no compaction is needed and the database is not being closed. A failing flush is
    another matter: it can leave without the notification. -/
theorem no_lost_wakeup (hpol : ¬ pol.Faulty) (h : Reachable pol s)
    (hp : s.process = .up cfg client worker) (hasleep : s.world.sleeping .background ≠ none)
    (hm : s.world.mutex ≠ some .client) :
    needsCompaction cfg.options s.world.current = false ∧ s.world.shuttingDown = false := by
  obtain ⟨g, hg⟩ := Serving.of_reachable h hp
  have hr := Ruled.quiet hpol h
  rw [Ruled, hp] at hr
  obtain ⟨c, k, hlost, hclient, -, ha⟩ := hr
  refine ⟨ha.idle_of_asleep hclient hg hpol (hlost trivial) hasleep hm, ?_⟩
  rw [← Bool.not_eq_true]
  exact fun hdown => hm (ha.client.mp (ha.stopping (ha.stop hasleep hdown)))

/-- Nothing fails without faults. -/
private theorem not_faulty_faultless : ¬ Policy.faultless.Faulty := by
  rintro (h | h) <;> cases h

/-- The compaction thread has gone to sleep behind a compaction. -/
theorem no_lost_wakeup_compacted :
    let s := reach .faultless (compactionBegun ++ Event.working 18 ++ Event.working 6)
    s.world.sleeping .background = some .bg ∧ ∃ cfg client worker,
      s.process = .up cfg client worker ∧ needsCompaction cfg.options s.world.current = false := by
  intro s
  have hasleep : s.world.sleeping .background = some .bg := by decide +kernel
  have hm : s.world.mutex = none := by decide +kernel
  have hup : s.process.test (fun _ _ => true) = true := by decide +kernel
  obtain ⟨cfg, client, worker, hp, -⟩ := Process.exists_of_test hup
  refine ⟨hasleep, cfg, client, worker, hp, ?_⟩
  exact (no_lost_wakeup not_faulty_faultless (reachable_reach _ _) hp (by rw [hasleep]; nofun)
    (by rw [hm]; nofun)).1

/-- `TEST_WaitForCompactions` returns only when no compaction is needed, none is running and the
    compaction thread is not about to start one. -/
theorem wait_returns_when_drained (h : Reachable pol s)
    (hp : s.process = .up cfg (.waiting (.ret false)) worker) :
    needsCompaction cfg.options s.world.current = false ∧
      (∀ c p, worker ≠ .compacting c p) ∧ ∀ c, worker ≠ .looking (.ret (.compact c)) := by
  have hr := Ruled.of_reachable h
  rw [Ruled, hp] at hr
  obtain ⟨c, k, -, hclient, hworker, ha⟩ := hr
  have hc : c = { drained := true, lost := c.lost } := hclient
  -- the flag and the version were read under one hold of the mutex
  obtain ⟨hidle, hneeds⟩ := ha.drained (by rw [hc])
  refine ⟨hneeds, ?_, ?_⟩
  · rintro job p rfl
    rw [hworker.1] at hidle
    cases hidle
  · rintro job rfl
    have hk : k = { busy := true } := hworker
    rw [hk] at hidle
    cases hidle

/-- It returns behind a compaction that it has not waited for. -/
theorem wait_returns_when_drained_compacted :
    let s := reach .wholeLogs (compactionBegun ++ Event.working 18 ++ Event.working 6 ++
      .waitForCompactions :: List.replicate 4 (.clientStep (.base .ok)))
    ∃ cfg worker, s.process = .up cfg (.waiting (.ret false)) worker ∧
      needsCompaction cfg.options s.world.current = false := by
  intro s
  have htest : s.process.test (fun client _ => client.isDrained) = true := by decide +kernel
  obtain ⟨cfg, client, worker, hp, hclient⟩ := Process.exists_of_test htest
  obtain rfl := Client.eq_of_isDrained hclient
  exact ⟨cfg, worker, hp, (wait_returns_when_drained (reachable_reach _ _) hp).1⟩

/-! ## The compaction thread on its own -/

/-- A step of the compaction thread. Its waits end without a notification only if `spurious`. -/
def WorkerStep (pol : Policy) (spurious : Bool) (s s' : System) : Prop :=
  ∃ e, (e = .workerReturn ∨ ∃ ch, e = .workerStep ch ∧ (ch.isSpurious = true → spurious = true)) ∧
    Permits pol s e ∧ s.next e = some s'

/-- However the compaction thread goes on, it comes to a point where it cannot. -/
def ComesToRest (pol : Policy) (spurious : Bool) : System → Prop :=
  Acc fun s' s => WorkerStep pol spurious s s'

variable {spurious : Bool}

/-- A step of the background thread is a step of the system. -/
theorem WorkerStep.reachable (h : Reachable pol s) (hs : WorkerStep pol spurious s s') :
    Reachable pol s' := by
  obtain ⟨e, -, hpermits, hnext⟩ := hs
  exact .tail h ⟨e, hpermits, hnext⟩

/-- The client and the configuration stay as they are. -/
theorem WorkerStep.process (hp : s.process = .up cfg client worker)
    (hs : WorkerStep pol spurious s s') : ∃ worker', s'.process = .up cfg client worker' := by
  obtain ⟨e, he, -, hnext⟩ := hs
  rcases he with rfl | ⟨ch, rfl, -⟩
  · simp only [System.next, hp] at hnext
    obtain ⟨worker', -, rfl⟩ := Option.map_eq_some_iff.mp hnext
    exact ⟨worker', rfl⟩
  · simp only [System.next, hp] at hnext
    obtain ⟨⟨worker', w'⟩, -, rfl⟩ := Option.map_eq_some_iff.mp hnext
    exact ⟨worker', rfl⟩

/-- The compaction thread is at a program in one of the parts of its loop. -/
structure Carries (cfg : Config) (f : SyncM α → Worker) : Prop where
  step : ∀ p ch w, (f p).step ch w =
    (p.step (exec .background) ch w).map fun (p, w) => (f p, w)
  nextCall : ∀ p, (f p).nextCall = Sync.nextCall p
  return_call : ∀ a k, (f (.call a k)).return cfg = none
  return_undef : (f .undef).return cfg = none

/-- Looking for work carries its program. -/
theorem carries_looking (cfg : Config) : Carries cfg Worker.looking :=
  ⟨fun _ _ _ => rfl, fun _ => rfl, fun _ _ => rfl, rfl⟩

/-- So does a compaction. -/
private theorem carries_compacting (cfg : Config) (c : Compaction) : Carries cfg (Worker.compacting c) :=
  ⟨fun _ _ _ => rfl, fun _ => rfl, fun _ _ => rfl, rfl⟩

variable {f : SyncM α → Worker} {a : Call} {k : a.Res → SyncM α}

/-- A thread that is at a call comes to rest if it does after each of its outcomes. -/
theorem Carries.rest_call (hf : Carries cfg f) (hp : s.process = .up cfg client (f (.call a k)))
    (h : ∀ ch r w', (ch.isSpurious = true → spurious = true) → Allows pol a ch s.world →
      exec .background a ch s.world = some (r, w') →
      WorkerStep pol spurious s { s with world := w', process := .up cfg client (f (k r)) } →
      ComesToRest pol spurious { s with world := w', process := .up cfg client (f (k r)) }) :
    ComesToRest pol spurious s := by
  refine Acc.intro _ fun s' hs' => ?_
  have hs := hs'
  obtain ⟨e, he, hpermits, hnext⟩ := hs
  -- the next call is the only step
  rcases he with rfl | ⟨ch, rfl, hspurious⟩
  · simp [System.next, hp, hf.return_call] at hnext
  · simp only [System.next, hp, hf.step] at hnext
    obtain ⟨⟨worker', w'⟩, hworker, rfl⟩ := Option.map_eq_some_iff.mp hnext
    obtain ⟨⟨p', w''⟩, hcall, heq⟩ := Option.map_eq_some_iff.mp hworker
    cases heq
    obtain ⟨⟨r, w''⟩, hexec, heq⟩ := Option.map_eq_some_iff.mp hcall
    cases heq
    rw [Permits, hp] at hpermits
    have hallows : Allows pol a ch s.world := hpermits a (by rw [hf.nextCall]; rfl)
    exact h ch r _ hspurious hallows hexec hs'

/-- A thread that is at the end of a part of its loop comes to rest if the next part does. -/
theorem Carries.rest_return {b : α} {worker' : Worker} (hf : Carries cfg f)
    (hp : s.process = .up cfg client (f (.ret b))) (hreturn : (f (.ret b)).return cfg = some worker')
    (h : WorkerStep pol spurious s { s with process := .up cfg client worker' } →
      ComesToRest pol spurious { s with process := .up cfg client worker' }) :
    ComesToRest pol spurious s := by
  refine Acc.intro _ fun s' hs' => ?_
  have hs := hs'
  obtain ⟨e, he, -, hnext⟩ := hs
  rcases he with rfl | ⟨ch, rfl, -⟩
  · simp only [System.next, hp, hreturn, Option.map_some, Option.some.injEq] at hnext
    subst hnext
    exact h hs'
  · simp [System.next, hp, hf.step, Prog.step] at hnext

/-- A part of the loop makes finitely many calls, whatever they return: the thread comes to rest if
    it does after every result. -/
theorem Carries.rest {I : SyncM α → System → Prop} (hf : Carries cfg f)
    (hcall : ∀ a k s ch r w', I (.call a k) s → s.process = .up cfg client (f (.call a k)) →
      Allows pol a ch s.world → exec .background a ch s.world = some (r, w') →
      WorkerStep pol spurious s { s with world := w', process := .up cfg client (f (k r)) } →
      I (k r) { s with world := w', process := .up cfg client (f (k r)) })
    (hret : ∀ b s, I (.ret b) s → s.process = .up cfg client (f (.ret b)) →
      ComesToRest pol spurious s) (p : SyncM α) (hI : I p s)
    (hp : s.process = .up cfg client (f p)) : ComesToRest pol spurious s := by
  -- induction on the program
  induction p generalizing s with
  | ret b => exact hret b s hI hp
  | undef =>
    refine Acc.intro _ fun s' hs => ?_
    obtain ⟨e, he, -, hnext⟩ := hs
    rcases he with rfl | ⟨ch, rfl, -⟩
    · simp [System.next, hp, hf.return_undef] at hnext
    · simp [System.next, hp, hf.step, Prog.step] at hnext
  | call a k ih =>
    refine hf.rest_call hp fun ch r w' _ hallows hexec hs => ?_
    exact ih r (hcall a k s ch r w' hI hp hallows hexec hs) rfl

/-- A thread that has ended takes no step. -/
theorem rest_ended (hp : s.process = .up cfg client .ended) : ComesToRest pol spurious s := by
  refine Acc.intro _ fun s' hs => ?_
  obtain ⟨e, he, -, hnext⟩ := hs
  rcases he with rfl | ⟨ch, rfl, -⟩
  · simp [System.next, hp, Worker.return] at hnext
  · simp [System.next, hp, Worker.step] at hnext

/-- From wherever it is, the thread gets to its next look, or to its end. -/
private theorem rest_of_looks (h : Reachable pol s) (hp : s.process = .up cfg client worker)
    (hlook : ∀ s worker waited, Reachable pol s → s.process = .up cfg client worker →
      ComesToRest pol spurious { s with process := .up cfg client (.looking (look cfg waited)) }) :
    ComesToRest pol spurious s := by
  -- after a compaction the thread looks again
  have hcompacting (c : Compaction) (p : SyncM (Except Status Unit)) (s : System)
      (h : Reachable pol s) (hp : s.process = .up cfg client (.compacting c p)) :
      ComesToRest pol spurious s := by
    have hf := carries_compacting cfg c
    refine hf.rest (I := fun _ s => Reachable pol s)
      (fun a k s ch r w' h _ _ _ hs => hs.reachable h) (fun r s h hp => ?_) p h hp
    exact hf.rest_return hp rfl fun _ => hlook s _ false h hp
  cases worker with
  | ended => exact rest_ended hp
  | compacting c p => exact hcompacting c p s h hp
  | looking p =>
    have hf := carries_looking cfg
    refine hf.rest (I := fun _ s => Reachable pol s)
      (fun a k s ch r w' h _ _ _ hs => hs.reachable h) (fun l s h hp => ?_) p h hp
    cases l with
    | stop => exact hf.rest_return hp rfl fun _ => rest_ended rfl
    | sleep => exact hf.rest_return hp rfl fun _ => hlook s _ true h hp
    | compact c => exact hf.rest_return hp rfl fun hs => hcompacting c _ _ (hs.reachable h) rfl

/-- Whatever the compaction thread does, the client stays where it is. -/
private theorem process_of_workerSteps (h : Reachable pol s) (hp : s.process = .up cfg client worker)
    (hs : Relation.ReflTransGen (WorkerStep pol spurious) s s') :
    Reachable pol s' ∧ ∃ worker', s'.process = .up cfg client worker' := by
  induction hs with
  | refl => exact ⟨h, worker, hp⟩
  | tail _ hstep ih =>
    obtain ⟨h₁, worker₁, hp₁⟩ := ih
    exact ⟨hstep.reachable h₁, hstep.process hp₁⟩

/-! ## The destructor -/

/-- The thread has found `shutting_down_` set. -/
private theorem rest_stopping (hp : s.process = .up cfg client (.looking (do
      call (.storeBusy false)
      call (.notifyAll .idle)
      call (.base .unlock)
      return .stop))) : ComesToRest pol spurious s := by
  have hf := carries_looking cfg
  refine hf.rest_call hp fun _ _ _ _ _ _ _ => ?_
  refine hf.rest_call rfl fun _ _ _ _ _ _ _ => ?_
  refine hf.rest_call rfl fun _ _ _ _ _ _ _ => ?_
  exact hf.rest_return rfl rfl fun _ => rest_ended rfl

/-- The loop ends when the thread finds `shutting_down_` set. -/
theorem rest_lookLocked_of_down (hp : s.process = .up cfg client (.looking (lookLocked cfg)))
    (hdown : s.world.shuttingDown = true) : ComesToRest pol spurious s := by
  refine (carries_looking cfg).rest_call hp fun ch down w' _ _ hexec _ => ?_
  obtain ⟨ch', v, hbase, rfl⟩ := exec_base hexec
  cases hbase
  refine @rest_stopping pol cfg _ client spurious ?_
  show Process.up cfg client (.looking (if s.world.shuttingDown = true then _ else _)) = _
  rw [hdown]
  rfl

/-- With the flag set the next look ends the thread. -/
private theorem rest_look_of_down (waited : Bool)
    (hp : s.process = .up cfg client (.looking (look cfg waited)))
    (hdown : s.world.shuttingDown = true) : ComesToRest pol spurious s := by
  -- the two ways to the mutex
  cases waited with
  | false =>
    refine (carries_looking cfg).rest_call hp fun ch _ w' _ _ hexec _ => ?_
    obtain ⟨ch', v, hbase, rfl⟩ := exec_base hexec
    obtain ⟨-, rfl⟩ := exec_lock hbase
    exact rest_lookLocked_of_down rfl hdown
  | true =>
    refine (carries_looking cfg).rest_call hp fun ch _ w' _ _ hexec _ => ?_
    simp only [exec] at hexec
    split at hexec
    next =>
      cases hexec
      exact rest_lookLocked_of_down rfl hdown
    next => cases hexec

/-- After the destructor has set `shutting_down_`, the compaction thread ends. -/
private theorem rest_of_closing (h : Reachable pol s) (hp : s.process = .up cfg .closing worker) :
    ComesToRest pol spurious s := by
  refine rest_of_looks h hp fun s worker waited h hp => ?_
  have hr := Ruled.of_reachable h
  rw [Ruled, hp] at hr
  obtain ⟨c, k, -, hclient, -, ha⟩ := hr
  have hc : c = { stopped := true, lost := c.lost } := hclient
  exact rest_look_of_down waited rfl (ha.stopped.mp (by rw [hc]))

/-- Whatever the compaction thread is doing when the destructor waits for it, and whatever fails,
    it makes only finitely many more steps, it is never kept from the next one, and behind the
    last one the destructor can join it. -/
theorem destructor_returns (h : Reachable pol s) (hp : s.process = .up cfg .closing worker) :
    ComesToRest pol true s ∧
      ∀ s', Relation.ReflTransGen (WorkerStep pol true) s s' →
        s'.canStep .background = true ∨ (s'.next .join).isSome = true := by
  refine ⟨rest_of_closing h hp, fun s' hs => ?_⟩
  obtain ⟨h', worker', hp'⟩ := process_of_workerSteps h hp hs
  obtain ⟨g, hg⟩ := Serving.of_reachable h' hp'
  have hr := Ruled.of_reachable h'
  rw [Ruled, hp'] at hr
  obtain ⟨c, k, -, hclient, hworker, ha⟩ := hr
  have hc : c = { stopped := true, lost := c.lost } := hclient
  by_cases hended : worker' = .ended
  · subst hended
    exact .inr (by simp [System.next, hp'])
  · -- a thread that sleeps would be told to stop
    have hawake : s'.world.sleeping .background = none := by
      by_contra hasleep
      have hstopping := ha.stop hasleep (ha.stopped.mp (by rw [hc]))
      rw [hc] at hstopping
      cases hstopping
    have hm := ha.mutex_ne_client (by rw [hc])
    exact .inl (Worker.can_step hg hp' hworker ha hended hawake hm)

/-- The destructor is called in the middle of a compaction. -/
theorem destructor_returns_compacting :
    let s := reach .wholeLogs (compactionBegun ++ Event.calling .close 4)
    ∃ cfg c p, s.process = .up cfg .closing (.compacting c p) ∧ ComesToRest .wholeLogs true s := by
  intro s
  have htest : s.process.test (fun client worker => client.isClosing && worker.isCompacting) =
      true := by decide +kernel
  obtain ⟨cfg, client, worker, hp, hboth⟩ := Process.exists_of_test htest
  obtain ⟨hclient, hworker⟩ := Bool.and_eq_true_iff.mp hboth
  obtain rfl := Client.eq_of_isClosing hclient
  obtain ⟨c, p, rfl⟩ := Worker.eq_of_isCompacting hworker
  exact ⟨cfg, c, p, hp, (destructor_returns (reachable_reach _ _) hp).1⟩

/-! ## Compaction until nothing is needed -/

/-- Only the compaction thread works. -/
def Undisturbed (pol : Policy) (s : System) : Prop :=
  ∃ g, Inv g s.world.toWorld ∧ Lsmdb.Alone pol g.session g s.world.toWorld

/-- The mutex does not matter. -/
theorem Undisturbed.congr {m : Option Thread} (h : Undisturbed pol s) (hm : m ≠ some .client)
    (hworld : s'.world.toWorld = { s.world.toWorld with mutex := m }) : Undisturbed pol s' := by
  obtain ⟨g, hi, ha⟩ := h
  rw [Undisturbed, hworld]
  exact ⟨g, hi.mutex m, { ha with unlocked := hm }⟩

/-- A thread that has gone to sleep stays asleep when nobody notifies it. -/
private theorem rest_goToSleep (hp : s.process = .up cfg client (.looking goToSleep)) :
    ComesToRest pol false s := by
  have hf := carries_looking cfg
  refine hf.rest_call hp fun _ _ _ _ _ _ _ => ?_
  refine hf.rest_call rfl fun _ _ w _ _ _ _ => ?_
  refine hf.rest_call rfl fun _ _ w' _ _ hexec _ => ?_
  simp only [exec] at hexec
  split at hexec
  next =>
    cases hexec
    refine hf.rest_return rfl rfl fun _ => ?_
    refine hf.rest_call rfl fun ch _ _ hspurious _ hexec _ => ?_
    -- without a spurious wake-up nothing wakes it
    have hawake : ch.isSpurious = true := by
      by_contra hnot
      simp [exec, hnot] at hexec
    cases hspurious hawake
  next => cases hexec

/-- How far a version is from where compactions lead to. -/
def System.weight (cfg : Config) (s : System) : Nat :=
  Lsmdb.weight (cfg.options.depth + 1) s.world.current.levels

/-- The thread comes to rest from every look at a version of less weight. -/
def RestsBelow (pol : Policy) (cfg : Config) (client : Client) (n : Nat) : Prop :=
  ∀ s : System, s.weight cfg < n → Undisturbed pol s → s.world.mutex ≠ some .background →
    s.process = .up cfg client (.looking (look cfg false)) → ComesToRest pol false s

/-- A compaction takes weight off the version. -/
private theorem rest_compacting {c : Compaction} (hpol : pol.faults = false) (hs : Undisturbed pol s)
    (hm : s.world.mutex ≠ some .background)
    (hp : s.process = .up cfg client (.compacting c (lift (DB.doCompaction cfg c).run)))
    (hpick : pickCompaction cfg.options s.world.current = some (some c))
    (ih : RestsBelow pol cfg client (s.weight cfg)) : ComesToRest pol false s := by
  obtain ⟨g, hi, ha⟩ := hs
  have hpicked := picked_of_pickCompaction hi.layout hpick
  have hsafe := tripleE_doCompaction cfg hi.layout hpicked g s.world.toWorld hi
    ⟨hm, hi.watching hpicked⟩
  have hf := carries_compacting cfg c
  -- the rest of the program is safe where the client does nothing
  refine hf.rest (I := fun p s' => ∃ q g', p = lift q ∧ Inv g' s'.world.toWorld ∧
    Lsmdb.Alone pol g.session g' s'.world.toWorld ∧
    q.Safe (Lsmdb.exec .background) (protocol .background) (outcome
      (fun _ g' w => w.mutex ≠ some .background ∧
        Compacted s.world.current g.session.flushes c g' w)
      fun _ => Failed .background) g' s'.world.toWorld) ?_ ?_ _ ⟨_, g, rfl, hi, ha, hsafe⟩ hp
  -- one call: the client is idle, so the version changes by this compaction only
  · rintro a k s₁ ch r w' ⟨q, g₁, heq, hi₁, ha₁, hsafe₁⟩ - hallows hexec -
    cases q with
    | ret => cases heq
    | undef => cases heq
    | call b cont =>
      cases heq
      cases ch with
      | spurious => cases hexec
      | base ch =>
        obtain ⟨⟨r', v⟩, hbase, heq⟩ := Option.map_eq_some_iff.mp hexec
        cases heq
        obtain ⟨-, hcall⟩ := hsafe₁ g₁ _ (Frame.refl _ _ _) hi₁
        obtain ⟨g₂, hk, hi₂, hsafe₂⟩ := hcall ch r v (ha₁.allow hallows) hbase
        exact ⟨cont r, g₂, rfl, hi₂, ha₁.keep hk, hsafe₂⟩
  -- the compaction returns; without faults it has installed its outputs and lowered the weight
  · rintro r s₁ ⟨q, g₁, heq, hi₁, ha₁, hsafe₁⟩ hp₁
    cases q with
    | call => cases heq
    | undef => cases heq
    | ret r' =>
      cases heq
      cases r with
      | error e =>
        have hfault : g₁.faults = true := hsafe₁.2
        rw [ha₁.faults, hpol] at hfault
        cases hfault
      | ok u =>
        obtain ⟨hm₁, hcompacted⟩ := hsafe₁
        obtain ⟨outs, ho, hcurrent⟩ := ha₁.compacted hcompacted
        refine hf.rest_return hp₁ rfl fun _ => ih _ ?_ ⟨g₁, hi₁, ?_⟩ hm₁ rfl
        · show weight _ s₁.world.current.levels < weight _ s.world.current.levels
          rw [hcurrent]
          exact weight_install_lt hpicked hi.layout ho
            (Nat.lt_succ_of_le (sourceLevel_le_depth hpick))
        · exact { ha₁ with session := rfl }

/-- The thread has found a compaction to do. -/
private theorem rest_found {c : Compaction} (hpol : pol.faults = false) (hs : Undisturbed pol s)
    (hpick : pickCompaction cfg.options s.world.current = some (some c))
    (ih : RestsBelow pol cfg client (s.weight cfg))
    (hp : s.process = .up cfg client (.looking (do
      call (.storeBusy true)
      call (.base .unlock)
      return .compact c))) : ComesToRest pol false s := by
  have hf := carries_looking cfg
  refine hf.rest_call hp fun _ _ w' _ _ hexec _ => ?_
  cases hexec
  refine hf.rest_call rfl fun _ _ w' _ _ hexec _ => ?_
  obtain ⟨ch', v, hbase, rfl⟩ := exec_base hexec
  obtain ⟨-, rfl⟩ := exec_unlock hbase
  refine hf.rest_return rfl rfl fun _ => ?_
  exact rest_compacting hpol (hs.congr (m := none) nofun rfl) nofun rfl hpick ih

/-- A thread that finds work starts a compaction, and one that finds none goes to sleep. -/
private theorem rest_lookForWork (hpol : pol.faults = false)
    (htrigger : 1 ≤ cfg.options.l0CompactionTrigger) (hs : Undisturbed pol s)
    (hp : s.process = .up cfg client (.looking (lookForWork cfg)))
    (ih : RestsBelow pol cfg client (s.weight cfg)) : ComesToRest pol false s := by
  have hf := carries_looking cfg
  refine hf.rest_call hp fun ch down w' _ _ hexec _ => ?_
  obtain ⟨ch', v, hbase, rfl⟩ := exec_base hexec
  cases hbase
  -- there is nothing to do, or a compaction is found
  cases hneeds : needsCompaction cfg.options s.world.current with
  | false =>
    refine @rest_goToSleep pol cfg _ client ?_
    show Process.up cfg client (.looking (if (!needsCompaction cfg.options s.world.current) = true
      then _ else _)) = _
    rw [hneeds]
    rfl
  | true =>
    obtain ⟨pick, hpick⟩ := pickCompaction_isSome htrigger s.world.current
    cases pick with
    | none => exact absurd hpick (pickCompaction_of_needsCompaction hneeds)
    | some c =>
      refine @rest_found pol cfg _ client c hpol hs hpick ih ?_
      show Process.up cfg client (.looking (if (!needsCompaction cfg.options s.world.current) = true
        then _ else lift (DB.defined (pickCompaction cfg.options s.world.current)) >>= _)) = _
      rw [hneeds, hpick]
      rfl

/-- A look leads to sleep, to the end of the thread, or to a compaction. -/
private theorem rest_lookLocked (hpol : pol.faults = false)
    (htrigger : 1 ≤ cfg.options.l0CompactionTrigger) (hs : Undisturbed pol s)
    (hp : s.process = .up cfg client (.looking (lookLocked cfg)))
    (ih : RestsBelow pol cfg client (s.weight cfg)) : ComesToRest pol false s := by
  cases hdown : s.world.shuttingDown with
  | true => exact rest_lookLocked_of_down hp hdown
  | false =>
    refine (carries_looking cfg).rest_call hp fun ch down w' _ _ hexec _ => ?_
    obtain ⟨ch', v, hbase, rfl⟩ := exec_base hexec
    cases hbase
    refine @rest_lookForWork pol cfg _ client hpol htrigger hs ?_ ih
    show Process.up cfg client (.looking (if s.world.shuttingDown = true then _ else _)) = _
    rw [hdown]
    rfl

/-- Induction on the weight of the version, which every compaction lowers. -/
private theorem rest_look (hpol : pol.faults = false) (htrigger : 1 ≤ cfg.options.l0CompactionTrigger)
    (waited : Bool) (hs : Undisturbed pol s)
    (hp : s.process = .up cfg client (.looking (look cfg waited))) : ComesToRest pol false s := by
  generalize hn : s.weight cfg = n
  induction n using Nat.strong_induction_on generalizing s waited with
  | h n ih =>
    have hbelow : RestsBelow pol cfg client (s.weight cfg) := fun s' hlt hs' _ hp' =>
      ih _ (hn ▸ hlt) false hs' hp' rfl
    -- the two ways to the mutex
    cases waited with
    | false =>
      refine (carries_looking cfg).rest_call hp fun ch _ w' _ _ hexec _ => ?_
      obtain ⟨ch', v, hbase, rfl⟩ := exec_base hexec
      obtain ⟨-, rfl⟩ := exec_lock hbase
      exact rest_lookLocked hpol htrigger (hs.congr (m := some .background) nofun rfl) rfl hbelow
    | true =>
      refine (carries_looking cfg).rest_call hp fun ch _ w' _ _ hexec _ => ?_
      simp only [exec] at hexec
      split at hexec
      next =>
        cases hexec
        exact rest_lookLocked hpol htrigger (hs.congr (m := some .background) nofun rfl) rfl hbelow
      next => cases hexec

/-- Without faults every compaction takes weight off, so there are finitely many. -/
private theorem rest_of_idle (hpol : pol.faults = false) (h : Reachable pol s)
    (hp : s.process = .up cfg .idle worker) : ComesToRest pol false s := by
  refine rest_of_looks h hp fun s worker waited h hp => ?_
  obtain ⟨g, hg⟩ := Serving.of_reachable h hp
  have hr := Ruled.of_reachable h
  rw [Ruled, hp] at hr
  obtain ⟨c, k, -, hclient, -, ha⟩ := hr
  have hc : c = { lost := c.lost } := hclient
  have hs : Undisturbed pol s :=
    ⟨g, hg.inv, hg.faults, hg.logFaults, rfl, ha.mutex_ne_client (by rw [hc])⟩
  exact rest_look hpol hg.trigger waited hs rfl

end Lsmdb.Sync
