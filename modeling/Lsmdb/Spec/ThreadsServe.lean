import Lsmdb.Spec.ReplyCorrect
import Lsmdb.Spec.ThreadsRefine

/-!
# The engine that is up

What holds of a process that has the database open (`Serving`): the invariant of
`Lsmdb.Spec.Invariant`, that the client's call will return what it may (`Replied`), and
that a compaction returns an error only if a call to a file may fail. Every step of the
process keeps this, and shows what the map of `Lsmdb.Spec.Traces` could show
(`Serving.step`).
-/

namespace Lsmdb.Sync

open Prog

variable {α : Type} {g g' : Ghost} {w w' : World} {x : Session} {pol : Policy} {ch : Choice}
  {cfg : Config}

/-! ## The compaction thread -/

/-- What the compaction thread has found, if it has found something to do. -/
def Looked : Look → Ghost → Lsmdb.World → Prop
  | .compact c, g, w => ∃ v n, (Layout v ∧ Picked v c) ∧ w.mutex ≠ some .background ∧
    Watching v n c g w
  | .stop, _, _ | .sleep, _, _ => True

/-- The client does not take away what was found. -/
theorem stable_looked (l : Look) : Stable (protocol .background) (Looked l) := by
  cases l with
  | stop | sleep => exact Stable.const _
  | compact c =>
    rintro g w g' w' hr hi ⟨v, n, hpick, hm, hwatch⟩
    exact ⟨v, n, hpick, hr.unlocked hm, stable_watching g w g' w' hr hi hwatch⟩

/-- The compaction thread is in no compaction: it gives the mutex away and goes on. -/
private theorem triple_unlockLook {P : Ghost → Lsmdb.World → Prop} {l : Look}
    (hP : ∀ g w, P g w → w.mutex = some .background) (hl : ∀ g w, Looked l g w) :
    Triple (Lsmdb.exec .background) (protocol .background) P
      (DB.call .unlock >>= fun _ => Prog.ret l : DBM Look) Looked := by
  apply Triple.bind (Triple.conseq (triple_unlock (Stable.const True) fun _ _ _ h => h)
    (fun g w _ h => ⟨hP g w h, trivial⟩) fun _ g w _ h => h)
  exact fun _ => Triple.ret fun g w _ _ => hl g w

/-- One turn of `BackgroundLoop`, up to the compaction. -/
theorem triple_look (htrigger : 1 ≤ cfg.options.l0CompactionTrigger) (waited : Bool) :
    Triple (Lsmdb.exec .background) (protocol .background) (fun _ w => w.mutex ≠ some .background)
      (erase (look cfg waited)) Looked := by
  have hlock : erase (look cfg waited) = DB.call .lock >>= fun _ => erase (lookLocked cfg) := by
    cases waited <;> rfl
  rw [hlock]
  apply Triple.bind (Triple.conseq (triple_lock (Stable.const True) fun _ _ _ h => h)
    (fun g w _ h => ⟨h, trivial⟩) fun _ g w _ h => h)
  intro _
  show Triple _ _ _ (DB.call .loadShuttingDown >>= fun down => _) _
  apply Triple.bind (Q := fun _ _ w => w.mutex = some .background)
  · apply Triple.lift (c := Lsmdb.Call.loadShuttingDown) (stable_held.and (Stable.const _))
      fun _ _ _ _ => trivial
    intro g w hi h ch r w' _ hexec
    cases hexec
    exact ⟨g, Keeps.refl _ g w, hi, h.1⟩
  intro down
  cases down with
  | true => exact triple_unlockLook (fun _ _ h => h) fun _ _ => trivial
  | false =>
    show Triple _ _ _ (DB.call .loadCurrent >>= fun v => _) _
    apply Triple.bind (Q := fun v g w => Layout v ∧ w.mutex = some .background ∧
      Since v g.session.flushes g w ∧ ∀ f ∈ v.files, g.tables f.number = some f)
    · apply Triple.lift (c := Lsmdb.Call.loadCurrent) stable_held fun _ _ _ _ => trivial
      intro g w hi h ch r w' _ hexec
      cases hexec
      exact ⟨g, Keeps.refl _ g w, hi, hi.layout, h, .refl g w, hi.current_tables⟩
    intro v
    apply Triple.pre
    intro hv
    show Triple _ _ _ (erase (if !needsCompaction cfg.options v then goToSleep else _)) _
    cases hneeds : needsCompaction cfg.options v with
    | false => exact triple_unlockLook (fun _ _ h => h.1) fun _ _ => trivial
    | true =>
      obtain ⟨pick, hpick⟩ := pickCompaction_isSome htrigger v
      show Triple _ _ _ (erase (lift (DB.defined (pickCompaction cfg.options v)) >>= _)) _
      rw [hpick]
      cases pick with
      | none => exact triple_unlockLook (fun _ _ h => h.1) fun _ _ => trivial
      | some c =>
        -- the inputs are tables of the version that was looked at
        have hp := picked_of_pickCompaction hv hpick
        have hinputs (f : FileMeta) (hf : f ∈ c.inputs) : f ∈ v.files := by
          obtain ⟨chosen, lo, hi, hsite⟩ := hp.site hv.ne_nil hv (.refl v)
          exact hsite.mem_inputs hf
        apply Triple.conseq (P := fun g w => ∃ n, w.mutex = some .background ∧ Watching v n c g w) _
          (fun g w _ h => ⟨_, h.1, h.2.1, fun f hf => h.2.2 f (hinputs f hf)⟩) fun _ g w _ h => h
        apply Triple.exists
        intro n
        show Triple _ _ _ (DB.call .unlock >>= fun _ => Prog.ret (Look.compact c)) _
        apply Triple.bind (triple_unlock stable_watching mutexFree_watching)
        exact fun _ => Triple.ret fun g w _ h => ⟨v, n, ⟨hv, hp⟩, h⟩

/-- A compaction has failed only if a call to a file may. -/
def CompactionOk (r : Except Status Unit) (g : Ghost) (_ : Lsmdb.World) : Prop :=
  ∀ e, r = .error e → g.faults = true

/-- Nor does it undo a compaction. -/
theorem stable_compactionOk (r : Except Status Unit) :
    Stable (protocol .background) (CompactionOk r) :=
  fun g w g' w' hr hi h e he => stable_faults g w g' w' hr hi (h e he)

/-- A compaction of what was found fails only by a fault. -/
theorem triple_doCompaction (c : Compaction) :
    Triple (Lsmdb.exec .background) (protocol .background) (Looked (.compact c))
      (DB.doCompaction cfg c).run CompactionOk := by
  apply Triple.exists
  intro v
  apply Triple.exists
  intro n
  apply Triple.pre
  rintro ⟨hv, hp⟩
  apply Triple.conseq (tripleE_doCompaction cfg hv hp) (fun g w _ h => h)
  intro r g w _ h e he
  subst he
  exact h.2

/-! ## The invariant -/

/-- The client is in no call that changes something. -/
structure Resting (g : Ghost) (w : Lsmdb.World) : Prop where
  pending : g.session.pending = none
  walOpen : w.walOpen = false → g.Faulty

def ClientServing (g : Ghost) (w : Lsmdb.World) : Client → Prop
  | .idle | .closing => Resting g w
  | .waiting p => Resting g w ∧ p.Total
  | .running op p => g.session.pending = op.entry ∧ ∃ x : Session, x.Begun op ∧
    (erase p).Safe (Lsmdb.exec .client) (protocol .client) (Replied op x) g w

def WorkerServing (g : Ghost) (w : Lsmdb.World) : Worker → Prop
  | .looking p => (erase p).Safe (Lsmdb.exec .background) (protocol .background) Looked g w
  | .compacting _ p =>
    (erase p).Safe (Lsmdb.exec .background) (protocol .background) CompactionOk g w
  | .ended => True

/-- What is right about a process that is up. -/
structure Serving (pol : Policy) (cfg : Config) (g : Ghost) (w : Lsmdb.World) (client : Client)
    (worker : Worker) : Prop where
  faults : g.faults = pol.faults
  logFaults : g.logFaults = pol.logFaults
  trigger : 1 ≤ cfg.options.l0CompactionTrigger
  inv : Inv g w
  sound : pol.Sound → g.session.sound = true
  client : ClientServing g w client
  worker : WorkerServing g w worker

/-- The background thread leaves a resting client alone. -/
theorem Resting.frame {v v' : Lsmdb.World} (h : Resting g v) (hr : Frame .client g v g' v')
    (hi : Inv g' v') : Resting g' v' := by
  obtain ⟨hs, -, -, ho, -⟩ := hr.client rfl
  refine ⟨hs ▸ h.pending, fun hclosed => ?_⟩
  exact stable_faulty g v g' v' hr hi (h.walOpen (ho ▸ hclosed))

/-- A step of the compaction thread leaves the client as it is. -/
theorem ClientServing.frame {v v' : Lsmdb.World} {client : Client} (h : ClientServing g v client)
    (hr : Frame .client g v g' v') (hi : Inv g' v') : ClientServing g' v' client := by
  cases client with
  | idle | closing => exact Resting.frame h hr hi
  | waiting p => exact ⟨Resting.frame h.1 hr hi, h.2⟩
  | running op p =>
    obtain ⟨hpending, x, hx, hsafe⟩ := h
    refine ⟨(hr.client rfl).1 ▸ hpending, x, hx, ?_⟩
    exact hsafe.interfere (K := protocol .client) (fun r => stable_replied op r) hr hi

/-- A step of the client leaves the compaction thread as it is. -/
theorem WorkerServing.frame {v v' : Lsmdb.World} {worker : Worker} (h : WorkerServing g v worker)
    (hr : Frame .background g v g' v') (hi : Inv g' v') : WorkerServing g' v' worker := by
  cases worker with
  | ended => trivial
  | looking p => exact Safe.interfere (K := protocol .background) stable_looked h hr hi
  | compacting c p => exact Safe.interfere (K := protocol .background) stable_compactionOk h hr hi

/-! ## Steps -/

/-- A call of a thread. -/
theorem safe_step {t : Thread} {p p' : SyncM α} {Q : α → Ghost → Lsmdb.World → Prop}
    (h : (erase p).Safe (Lsmdb.exec t) (protocol t) Q g w.toWorld) (hi : Inv g w.toWorld)
    (hfaults : g.faults = pol.faults) (hlog : g.logFaults = pol.logFaults)
    (hbusy : nextCall p ≠ some .loadBusy) (hallows : ∀ a ∈ nextCall p, Allows pol a ch w)
    (hs : p.step (exec t) ch w = some (p', w')) :
    ∃ g', Keeps t.other g w.toWorld g' w'.toWorld ∧ Inv g' w'.toWorld ∧
      (erase p').Safe (Lsmdb.exec t) (protocol t) Q g' w'.toWorld := by
  rcases erase_step hs hbusy hallows with ⟨hsame, hworld⟩ | ⟨ch', hstep, hallows'⟩
  · rw [hsame, hworld]
    exact ⟨g, Keeps.refl _ g _, hi, h⟩
  · refine h.step (K := protocol t) hi (fun b cont hp => ?_) hstep
    show b.Fits _ ∧ b.MayFail g.faults g.logFaults ch'
    rw [hfaults, hlog]
    exact (hallows' b cont hp).1

/-- The call that is running. -/
def Client.op : Client → Option Op
  | running op _ => some op
  | idle | waiting _ | closing => none

variable {client : Client} {worker : Worker} {op : Op} {o : List Act}

/-- What may fail is what the policy says. -/
private theorem Serving.faulty_iff {v : Lsmdb.World} (h : Serving pol cfg g v client worker) :
    g.Faulty ↔ pol.Faulty := by
  rw [Ghost.Faulty, Policy.Faulty, h.faults, h.logFaults]

/-- A call begins. -/
theorem Serving.invoke {v : Lsmdb.World} (h : Serving pol cfg g v .idle worker)
    (hfree : v.mutex ≠ some .client) (hfits : ∀ e ∈ op.entry, e.WalFits) :
    Serving pol cfg { g with session := g.session.invoke op } v (.running op (program cfg op))
      worker := by
  obtain ⟨hpending, hopen⟩ := h.client
  have hbegun := h.inv.session.begun hpending op
  have hsame := g.session.same_invoke op
  have hi := h.inv.same hsame hbegun.ok
  refine
    { faults := h.faults
      logFaults := h.logFaults
      trigger := h.trigger
      inv := hi
      sound := h.sound
      client := ⟨rfl, _, hbegun, ?_⟩
      worker := h.worker.frame (.same hsame) hi }
  -- the program is that of the call without its notifications
  rw [erase_program]
  exact triple_reply cfg op hbegun hfits _ _ hi ⟨⟨hfree, rfl, rfl, rfl⟩, hopen⟩

/-- A call returns. -/
theorem Serving.return {v : Lsmdb.World} {r : Reply}
    (h : Serving pol cfg g v (.running op (.ret r)) worker) :
    Serving pol cfg { g with session := g.session.return } v
        (if op = .close then .closing else .idle) worker ∧
      Legal pol.Faulty g.session.acked op r g.session.return.acked := by
  obtain ⟨hpending, x, hx, hdone, hlegal⟩ := h.client
  have hsame := g.session.same_return
  have hi := h.inv.same hsame g.session.ok_return
  constructor
  · refine
      { faults := h.faults
        logFaults := h.logFaults
        trigger := h.trigger
        inv := hi
        sound := fun hs => ?_
        client := ?_
        worker := h.worker.frame (.same hsame) hi }
    · have hsound := h.sound hs
      -- without faults of the log no torn frame is left
      show (g.session.sound && g.session.tail.isEmpty) = true
      rw [Bool.and_eq_true, List.isEmpty_iff]
      exact ⟨hsound, hdone.tail_eq hx hsound (h.logFaults.trans hs.1)⟩
    · have hresting : Resting { g with session := g.session.return } v := ⟨rfl, hdone.walOpen⟩
      split
      · exact hresting
      · exact hresting
  · rw [hdone.acked_eq, ← hx.store]
    exact hlegal.faulty h.faulty_iff.mp

/-- A step of the client. -/
theorem Serving.clientStep {client' : Client} {c : ClientState}
    (h : Serving pol cfg g w.toWorld client worker) (hr : ClientRuled cfg.options c client)
    (hallows : ∀ a ∈ client.nextCall, Allows pol a ch w)
    (hs : client.step ch w = some (client', w')) :
    ∃ g', Serving pol cfg g' w'.toWorld client' worker ∧ g'.session.acked = g.session.acked ∧
      client'.op = client.op := by
  cases client with
  | idle => cases hs
  | closing => cases hs
  | running op p =>
    obtain ⟨⟨p', w''⟩, hstep, heq⟩ := Option.map_eq_some_iff.mp hs
    cases heq
    obtain ⟨hpending, x, hx, hsafe⟩ := h.client
    obtain ⟨g', hk, hi, hsafe'⟩ := safe_step hsafe h.inv h.faults h.logFaults
      (not_loadBusy hr fun _ => id) hallows hstep
    have hk : Keeps .background g w.toWorld g' w'.toWorld := hk
    refine ⟨g', ?_, hk.acked_eq, rfl⟩
    exact
      { faults := hk.faults_eq.trans h.faults
        logFaults := hk.logFaults_eq.trans h.logFaults
        trigger := h.trigger
        inv := hi
        sound := fun hs => hk.sound_eq.trans (h.sound hs)
        client := ⟨hk.pending_eq.trans hpending, x, hx, hsafe'⟩
        worker := h.worker.frame hk.toFrame hi }
  | waiting p =>
    obtain ⟨⟨p', w''⟩, hstep, heq⟩ := Option.map_eq_some_iff.mp hs
    cases heq
    obtain ⟨a, cont, r, rfl, rfl, hexec, hok, -⟩ := Follows.step hr hstep
    refine ⟨g, ?_, rfl, rfl⟩
    -- only the mutex may have changed
    have hmutex {m : Option Thread} (hm : w.mutex ≠ some .background)
        (hm' : m ≠ some .background) (heq : w'.toWorld = { w.toWorld with mutex := m }) :
        Serving pol cfg g w'.toWorld (.waiting (cont r)) worker := by
      rw [heq]
      have hk : Keeps .background g w.toWorld g { w.toWorld with mutex := m } :=
        .mutex (t := .client) hm hm'
      exact { h with
        inv := h.inv.mutex m
        client := ⟨⟨h.client.1.pending, h.client.1.walOpen⟩, h.client.2 r⟩
        worker := h.worker.frame hk.toFrame (h.inv.mutex m) }
    rcases exec_wait hok hexec with heq | ⟨hfree, heq⟩ | ⟨hheld, heq⟩
    · rw [heq]
      exact { h with client := ⟨h.client.1, h.client.2 r⟩ }
    · exact hmutex (by simp [hfree]) (by simp) heq
    · exact hmutex (by simp [hheld]) (by simp) heq

/-- A step of the compaction thread. -/
theorem Serving.workerStep {worker' : Worker} {k : WorkerState}
    (h : Serving pol cfg g w.toWorld client worker) (hr : WorkerRuled cfg.options k worker)
    (hallows : ∀ a ∈ worker.nextCall, Allows pol a ch w)
    (hs : worker.step ch w = some (worker', w')) :
    ∃ g', Serving pol cfg g' w'.toWorld client worker' ∧
      g'.session.acked = g.session.acked := by
  -- the client tolerates the step
  have hserving {g' : Ghost} (hk : Keeps .client g w.toWorld g' w'.toWorld) (hi : Inv g' w'.toWorld)
      (hworker : WorkerServing g' w'.toWorld worker') :
      Serving pol cfg g' w'.toWorld client worker' :=
    { faults := hk.faults_eq.trans h.faults
      logFaults := hk.logFaults_eq.trans h.logFaults
      trigger := h.trigger
      inv := hi
      sound := fun hs => hk.sound_eq.trans (h.sound hs)
      client := h.client.frame hk.toFrame hi
      worker := hworker }
  cases worker with
  | ended => cases hs
  | looking p =>
    obtain ⟨⟨p', w''⟩, hstep, heq⟩ := Option.map_eq_some_iff.mp hs
    cases heq
    obtain ⟨g', hk, hi, hsafe⟩ := safe_step h.worker h.inv h.faults h.logFaults
      (not_loadBusy hr fun _ => id) hallows hstep
    exact ⟨g', hserving hk hi hsafe, hk.acked_eq⟩
  | compacting c p =>
    obtain ⟨⟨p', w''⟩, hstep, heq⟩ := Option.map_eq_some_iff.mp hs
    cases heq
    obtain ⟨g', hk, hi, hsafe⟩ := safe_step h.worker h.inv h.faults h.logFaults
      (not_loadBusy hr.2 fun _ => id) hallows hstep
    exact ⟨g', hserving hk hi hsafe, hk.acked_eq⟩

/-- Between the parts of its loop the compaction thread does not hold the mutex. -/
private theorem WorkerRuled.free_of_return {options : Options} {k : WorkerState} {worker' : Worker}
    (h : WorkerRuled options k worker) (hr : worker.return cfg = some worker') : k.held = false := by
  cases worker with
  | ended => cases hr
  | looking p =>
    cases p with
    | undef => cases hr
    | call => cases hr
    -- every part of the loop ends without the mutex
    | ret look => cases look <;> exact congrArg WorkerState.held (show k = _ from h)
  | compacting c p =>
    cases p with
    | undef => cases hr
    | call => cases hr
    | ret r => exact congrArg WorkerState.held (show k = _ from h.2)

/-- A part of the loop of the compaction thread has come to its end. -/
theorem Serving.workerReturn {v : Lsmdb.World} {worker' : Worker}
    (h : Serving pol cfg g v client worker) (hfree : v.mutex ≠ some .background)
    (hr : worker.return cfg = some worker') : Serving pol cfg g v client worker' := by
  -- the thread goes on with the triple of its next program
  refine { h with worker := ?_ }
  cases worker with
  | ended => cases hr
  | looking p =>
    cases p with
    | undef => cases hr
    | call => cases hr
    | ret look =>
      cases look with
      | stop => cases hr; trivial
      | sleep =>
        cases hr
        exact triple_look h.trigger true g v h.inv hfree
      | compact c =>
        cases hr
        show (erase (lift _)).Safe _ _ _ _ _
        rw [erase_lift]
        exact triple_doCompaction c g v h.inv h.worker
  | compacting c p =>
    cases p with
    | undef => cases hr
    | call => cases hr
    | ret r =>
      cases hr
      exact triple_look h.trigger false g v h.inv hfree

/-! ## Runs -/

/-- The database has been opened. -/
theorem Serving.opened {t : Lsmdb.System} (h : SysInv pol g t)
    (hp : t.process = .opening cfg (.ret (.ok ()))) :
    ∃ g', Serving pol cfg g' t.world .idle (.looking (look cfg false)) ∧
      g'.session.acked = recoveredStore g.saved t.world.disk.log := by
  have hopening := h.process
  rw [hp] at hopening
  obtain ⟨htrigger, -, log, hwhole, -, hopened⟩ := hopening
  have hlog : t.world.disk.log = log := by rw [Disk.log, hopened.log_eq]; rfl
  obtain ⟨records, hi⟩ := inv_opened hopened h.stored
  obtain ⟨disk, mem, hw⟩ := hopened.world
  have hmutex : t.world.mutex = none := by rw [hw]; rfl
  have hopen : t.world.walOpen = true := by rw [hw]
  -- the store is that of the tables and the replayed log
  refine ⟨g.opened log records, ?_, by rw [hlog]; rfl⟩
  exact
    { faults := h.faults
      logFaults := h.logFaults
      trigger := htrigger
      inv := hi
      sound := fun hs => Session.sound_opened.mpr (hwhole hs)
      client := ⟨rfl, by simp [hopen]⟩
      worker := triple_look htrigger false _ _ hi (by simp [hmutex]) }

/-- A recovery has come to its end. -/
theorem Serving.of_recovered {s : System} (hreach : Reachable pol s)
    (hp : s.process = .opening cfg (.ret (.ok ()))) :
    ∃ g g', Stored g s.world.disk ∧
      Serving pol cfg g' s.world.toWorld .idle (.looking (look cfg false)) ∧
      g'.session.acked = recoveredStore g.saved s.world.disk.log := by
  obtain ⟨t, ht, hrefines⟩ := Refines.of_reachable hreach
  obtain ⟨g, hg⟩ := SysInv.of_reachable ht
  have hprocess : t.process = .opening cfg (.ret (.ok ())) := by
    rw [hrefines.process, hp]
    rfl
  -- the state of the threads refines the one in which the call has its triple
  have hworld : t.world = s.world.toWorld := by
    rw [hrefines.world (by simp [hp]), hp]
    rfl
  obtain ⟨g', hg', hacked⟩ := Serving.opened hg hprocess
  have hstored := hg.stored
  rw [hworld] at hg' hacked hstored
  exact ⟨g, g', hstored, hg', hacked⟩

/-- A step of a process that is up: it goes on and shows what the map could show, or it ends. -/
theorem Serving.step {s s' : System} (h : Serving pol cfg g s.world.toWorld client worker)
    (hp : s.process = .up cfg client worker) (hr : Ruled False s) (hs : (lts pol).step s o s') :
    (∃ g' client' worker', s'.process = .up cfg client' worker' ∧
      Serving pol cfg g' s'.world.toWorld client' worker' ∧
      (durableMap pol.Faulty).Trace ⟨g.session.acked, client.op⟩ o ⟨g'.session.acked, client'.op⟩) ∨
    s'.process = .down ∧ s'.world = s.world ∧ (o = [.crash] ∨ o = [] ∧ client = .closing) := by
  rw [Ruled, hp] at hr
  obtain ⟨c, k, -, hclient, hworker, ha⟩ := hr
  obtain ⟨e, hpermits, hnext, rfl⟩ := lts_step.mp hs
  obtain ⟨w, p, history⟩ := s
  cases hp
  cases e with
  | «open» cfg => cases hnext
  | openStep ch => cases hnext
  | openReturn => cases hnext
  | invoke op =>
    -- a call begins: the durable map is asked
    cases client with
    | idle =>
      cases hnext
      have hfree : w.mutex ≠ some .client := by
        have hc : c = { lost := c.lost } := hclient
        rw [Ne, ← ha.client, hc]
        simp
      refine .inl ⟨_, _, _, rfl, h.invoke hfree hpermits, ?_⟩
      exact .single (.inl ⟨op, rfl, rfl, rfl⟩)
    | running | waiting | closing => cases hnext
  | waitForCompactions =>
    cases client with
    | idle =>
      cases hnext
      exact .inl ⟨g, _, _, rfl,
        { h with client := ⟨h.client, fun _ => total_waitTurn cfg⟩ }, .refl⟩
    | running | waiting | closing => cases hnext
  | clientStep ch =>
    obtain ⟨⟨client', w'⟩, hstep, rfl⟩ := Option.map_eq_some_iff.mp hnext
    obtain ⟨g', hg', hacked, hop⟩ := h.clientStep hclient hpermits hstep
    refine .inl ⟨g', client', worker, rfl, hg', ?_⟩
    rw [hacked, hop]
    exact .refl
  | clientReturn =>
    cases client with
    | idle => cases hnext
    | closing => cases hnext
    | running op p =>
      cases p with
      | undef => cases hnext
      | call => cases hnext
      | ret r =>
        -- it returns: the map answers
        cases hnext
        obtain ⟨hg', hlegal⟩ := h.return
        refine .inl ⟨_, _, _, rfl, hg', .single (.inr (.inl ⟨op, r, rfl, rfl, hlegal, ?_⟩))⟩
        show Client.op (if op = .close then .closing else .idle) = none
        split <;> rfl
    | waiting p =>
      cases p with
      | undef => cases hnext
      | call => cases hnext
      | ret goOn =>
        cases hnext
        cases goOn with
        | true =>
          exact .inl ⟨g, _, _, rfl,
            { h with client := ⟨h.client.1, total_waitTurn cfg⟩ }, .refl⟩
        | false => exact .inl ⟨g, _, _, rfl, { h with client := h.client.1 }, .refl⟩
  | workerStep ch =>
    obtain ⟨⟨worker', w'⟩, hstep, rfl⟩ := Option.map_eq_some_iff.mp hnext
    obtain ⟨g', hg', hacked⟩ := h.workerStep hworker hpermits hstep
    refine .inl ⟨g', client, worker', rfl, hg', ?_⟩
    rw [hacked]
    exact .refl
  | workerReturn =>
    obtain ⟨worker', hreturn, rfl⟩ := Option.map_eq_some_iff.mp hnext
    have hfree : w.mutex ≠ some .background := by
      rw [Ne, ← ha.worker, hworker.free_of_return hreturn]
      simp
    exact .inl ⟨g, client, worker', rfl, h.workerReturn hfree hreturn, .refl⟩
  | join =>
    rw [System.next] at hnext
    split at hnext
    next hp =>
      cases hp
      cases hnext
      exact .inr ⟨rfl, rfl, .inr ⟨rfl, rfl⟩⟩
    next => cases hnext
  | kill =>
    cases hnext
    exact .inr ⟨rfl, rfl, .inl rfl⟩

/-- The invariant holds in every state that a run reaches. -/
theorem Serving.of_reachable {s : System} (h : Reachable pol s)
    (hp : s.process = .up cfg client worker) :
    ∃ g, Serving pol cfg g s.world.toWorld client worker := by
  -- the invariant is found at `openReturn` and kept by every step from then on
  induction h generalizing cfg client worker with
  | refl => cases hp
  | @tail s s' hreach hstep ih =>
    cases hbefore : s.process with
    | up cfg₀ client₀ worker₀ =>
      obtain ⟨g, hg⟩ := ih hbefore
      obtain ⟨e, hpermits, hnext⟩ := hstep
      rcases hg.step hbefore (Ruled.of_reachable hreach) ⟨e, hpermits, hnext, rfl⟩ with
        ⟨g', client', worker', hp', hg', -⟩ | ⟨hp', -⟩
      · rw [hp'] at hp
        cases hp
        exact ⟨g', hg'⟩
      · rw [hp'] at hp
        cases hp
    | down =>
      obtain ⟨e, -, hnext⟩ := hstep
      cases e with
      | «open» | kill =>
        simp only [System.next, hbefore] at hnext
        cases hnext
        cases hp
      | _ => simp [System.next, hbefore] at hnext
    | opening cfg₀ p =>
      obtain ⟨e, -, hnext⟩ := hstep
      cases e with
      | openStep ch =>
        simp only [System.next, hbefore] at hnext
        obtain ⟨⟨p', v⟩, -, rfl⟩ := Option.map_eq_some_iff.mp hnext
        cases hp
      | openReturn =>
        simp only [System.next, hbefore] at hnext
        split at hnext
        next hopen =>
          cases hopen
          cases hnext
          cases hp
          obtain ⟨-, g', -, hg', -⟩ := Serving.of_recovered hreach hbefore
          exact ⟨g', hg'⟩
        next =>
          cases hnext
          cases hp
        next => cases hnext
      | kill =>
        cases hnext
        cases hp
      | _ => simp [System.next, hbefore] at hnext

/-- Without failures no call ends with an error, so that nothing goes unannounced. -/
theorem Ruled.quiet {s : System} (hpol : ¬ pol.Faulty) (h : Reachable pol s) : Ruled True s := by
  induction h with
  | refl => trivial
  | tail hreach hstep ih =>
    obtain ⟨e, -, hnext⟩ := hstep
    refine ih.step (fun _ cfg op r worker hp status hr => ?_) hnext
    subst hr
    obtain ⟨g, hg⟩ := Serving.of_reachable hreach hp
    exact hg.return.2.ok_of_status hpol

end Lsmdb.Sync
