import Lsmdb.Spec.CompactionCorrect
import Lsmdb.Spec.ReadCorrect
import Lsmdb.Spec.RecoverCorrect
import Lsmdb.Spec.Runs
import Lsmdb.Spec.WriteCorrect

/-!
# The invariant of the running system

`SysInv` says what is right about a state that a run reaches: the directory is in order,
a process that is up keeps `Inv`, and the programs of its two threads are safe under
`protocol`. One lemma for each event shows that the event keeps it (`SysInv.step`), so it
holds in every reachable state (`SysInv.of_reachable`).
-/

namespace Lsmdb

open Prog

variable {g g' : Ghost} {w w' : World} {x : Session} {mem : SkipList} {o : Bool}

/-! ## The calls of the client -/

/-- A call is about to begin. -/
structure Session.Begun (x : Session) (op : Op) : Prop where
  pending : x.pending = op.entry
  store : x.store = x.acked
  tail : x.sound = true → x.tail = []

/-- What holds when the program of a call has come to its end. -/
structure Done (op : Op) (x : Session) (r : Reply) (g : Ghost) (w : World) : Prop where
  unlocked : w.mutex ≠ some .client
  walOpen : w.walOpen = false → g.Faulty
  write : ∀ e, op.entry = some e →
    r = .status .OK ∧ Written e x g.session ∨ WriteFailed x e g w
  other : op.entry = none → Flushed x g.session
  get : ∀ k, op = .get k → ∃ a, r = .lookup a ∧ a.value = x.store k

/-- The background thread does not undo the failure of a write. -/
theorem stable_writeFailed (e : Entry) : Stable (protocol .client) (WriteFailed x e) := by
  intro g w g' w' hr hi h
  have hs := (hr.client rfl).1
  refine ⟨hr.unlocked h.unlocked, hs ▸ h.rejected, ?_, stable_faulty g w g' w' hr hi h.fault⟩
  intro hlog hsound
  rw [hs]
  exact h.tail (hr.logFaults hlog) hsound

/-- Nor anything else that a call has reached. -/
theorem stable_done (op : Op) (r : Reply) : Stable (protocol .client) (Done op x r) := by
  intro g w g' w' hr hi h
  obtain ⟨hs, -, -, ho, -⟩ := hr.client rfl
  refine ⟨hr.unlocked h.unlocked, fun hclosed => ?_, fun e he => ?_, fun hn => ?_, h.get⟩
  · exact stable_faulty g w g' w' hr hi (h.walOpen (ho ▸ hclosed))
  · rw [hs]
    exact (h.write e he).imp_right (stable_writeFailed e g w g' w' hr hi)
  · rw [hs]
    exact h.other hn

/-- Whether calls may fail does not change while a program runs. -/
theorem Triple.faulty {t : Thread} {α : Type} {p : DBM α} {P : Ghost → World → Prop}
    {Q : α → Ghost → World → Prop} (φ : Prop) (h : Triple (exec t) (protocol t) P p Q) :
    Triple (exec t) (protocol t) (fun g w => P g w ∧ (φ → g.Faulty)) p
      fun a g w => Q a g w ∧ (φ → g.Faulty) := by
  apply Triple.frame (K := protocol t) h (fun _ _ _ _ _ _ h => h)
  · exact fun g w g' w' hr hi hS hφ => stable_faulty g w g' w' hr hi (hS hφ)
  · intro g w g' w' _ hk hS hφ
    rw [Ghost.Faulty, hk.faults_eq, hk.logFaults_eq]
    exact hS hφ

variable (cfg : Config)

/-- `Put` and `Delete`. -/
private theorem triple_write {op : Op} {e : Entry} {p : DBE Unit} (hop : op.entry = some e)
    (h : TripleE (exec .client) (protocol .client)
      (fun g w => w.mutex ≠ some .client ∧ Knows x mem o g w ∧ (o = false → g.Faulty)) p
      (fun _ g w => w.mutex ≠ some .client ∧ Written e x g.session ∧ w.walOpen = true)
      fun _ => WriteFailed x e) :
    Triple (exec .client) (protocol .client)
      (fun g w => Reading x mem o g w ∧ (o = false → g.Faulty))
      (p.run >>= fun r => Prog.ret (.status (statusOf r))) (Done op x) := by
  have hget (k : Bytes) : op ≠ .get k := by
    rintro rfl
    cases hop
  apply Triple.bind (Triple.conseq h (fun g w _ hP => ⟨hP.1.1, hP.1.2, hP.2⟩) fun _ g w _ hQ => hQ)
  intro r
  apply Triple.ret
  intro g w _ hr
  -- an acknowledged write is in the log and in the memtable; a failed one is pending
  cases r with
  | ok a =>
    obtain ⟨hm, hw, ho⟩ := hr
    refine ⟨hm, fun hclosed => ?_, fun e' he => .inl ⟨rfl, ?_⟩, fun hn => ?_, fun k hk => ?_⟩
    · rw [ho] at hclosed
      cases hclosed
    · cases hop.symm.trans he
      exact hw
    · cases hop.symm.trans hn
    · exact absurd hk (hget k)
  | error s =>
    have hf : WriteFailed x e g w := hr
    refine ⟨hf.unlocked, fun _ => hf.fault, fun e' he => .inr ?_, fun hn => ?_, fun k hk => ?_⟩
    · cases hop.symm.trans he
      exact hf
    · cases hop.symm.trans hn
    · exact absurd hk (hget k)

/-- A call that writes nothing. -/
private theorem done_of_flushed {op : Op} {r : Reply} (hop : op.entry = none)
    (hget : ∀ k, op = .get k → ∃ a, r = .lookup a ∧ a.value = x.store k)
    (hm : w.mutex ≠ some .client) (hf : Flushed x g.session)
    (ho : w.walOpen = false → g.Faulty) : Done op x r g w where
  unlocked := hm
  walOpen := ho
  write e he := by cases hop.symm.trans he
  other _ := hf
  get := hget

/-- A call that only reads. -/
private theorem done_of_reading {op : Op} {r : Reply} (hop : op.entry = none)
    (hget : ∀ k, op = .get k → ∃ a, r = .lookup a ∧ a.value = x.store k)
    (h : Reading x mem o g w) (ho : o = false → g.Faulty) : Done op x r g w := by
  apply done_of_flushed hop hget h.1
  · rw [h.2.session]
    exact .refl x
  · exact fun hclosed => ho (h.2.walOpen_eq ▸ hclosed)

/-- The program of a call. -/
theorem triple_program (op : Op) (hx : x.Begun op) (hfits : ∀ e, op.entry = some e → e.WalFits) :
    Triple (exec .client) (protocol .client)
      (fun g w => Reading x mem o g w ∧ (o = false → g.Faulty)) (op.program cfg) (Done op x) := by
  have hready (e : Entry) (he : op.entry = some e) : x.Ready e :=
    ⟨hfits e he, hx.pending.trans he, hx.store, hx.tail⟩
  cases op with
  | put k v => exact triple_write rfl (tripleE_put cfg (hready _ rfl))
  | delete k => exact triple_write rfl (tripleE_delete cfg (hready _ rfl))
  | flush =>
    apply Triple.bind (Triple.faulty (o = false) (tripleE_flushMemTable cfg x mem o))
    intro r
    apply Triple.ret
    intro g w _ ⟨hr, ho⟩
    cases r with
    | ok a =>
      obtain ⟨hm, hf, hopen⟩ := hr
      apply done_of_flushed rfl (fun k hk => by cases hk) hm hf
      intro hclosed
      apply ho
      -- the log is open behind a flush unless it was closed before
      cases o with
      | false => rfl
      | true => rw [hopen rfl] at hclosed; cases hclosed
    | error s =>
      obtain ⟨hm, hf, hfault⟩ := hr
      exact done_of_flushed rfl (fun k hk => by cases hk) hm hf fun _ => .inl hfault
  | get k =>
    apply Triple.bind (Triple.faulty (o = false) (triple_get k))
    intro r
    apply Triple.ret
    intro g w _ ⟨⟨hvalue, hr⟩, ho⟩
    apply done_of_reading rfl _ hr ho
    rintro k' ⟨⟩
    exact ⟨r, rfl, hvalue⟩
  | scan start end_ =>
    apply Triple.bind (Triple.faulty (o = false) (triple_scan start end_))
    intro r
    apply Triple.ret
    intro g w _ ⟨hr, ho⟩
    exact done_of_reading rfl (fun k hk => by cases hk) hr ho
  | close =>
    apply Triple.bind (Triple.faulty (o = false) triple_shutDown)
    intro r
    apply Triple.ret
    intro g w _ ⟨hr, ho⟩
    exact done_of_reading rfl (fun k hk => by cases hk) hr ho

/-! ## The invariant -/

/-- The client is between two calls. -/
structure Idle (g : Ghost) (w : World) : Prop where
  unlocked : w.mutex ≠ some .client
  pending : g.session.pending = none
  walOpen : w.walOpen = false → g.Faulty

def ClientOk (g : Ghost) (w : World) : Client → Prop
  | .idle | .closing => Idle g w
  | .running op p => g.session.pending = op.entry ∧
    ∃ x : Session, x.Begun op ∧ p.Safe (exec .client) (protocol .client) (Done op x) g w

def BackgroundOk (options : Options) (g : Ghost) (w : World) : Option (DBM Bool) → Prop
  | none => True
  | some p => ∃ v n,
    p.Safe (exec .background) (protocol .background) (TurnDone options v n) g w

/-- Nothing fails and nothing is killed. -/
def Policy.Clean (pol : Policy) : Prop :=
  pol.faults = false ∧ pol.logFaults = false ∧ pol.kills = false

/-- No record is appended behind a part of another. -/
def Policy.Sound (pol : Policy) : Prop :=
  pol.logFaults = false ∧ (pol.tornLogs = false ∨ pol.Clean)

def ProcessOk (pol : Policy) (g : Ghost) (w : World) : Process → Prop
  | .down => pol.Clean → g.session.pending = none
  | .opening cfg p => 1 ≤ cfg.options.l0CompactionTrigger ∧
    (pol.Clean → g.session.pending = none) ∧
    ∃ log, (pol.Sound → WholeFrames log) ∧
      p.Safe (exec .client) recovering
        (outcome (fun _ g' w => g' = g ∧ Opened cfg g log w) fun _ g' _ => g' = g ∧ g.faults = true)
        g w
  | .up cfg client bg => 1 ≤ cfg.options.l0CompactionTrigger ∧ Inv g w ∧ ClientOk g w client ∧
    BackgroundOk cfg.options g w bg

/-- What is right about a state that a run reaches. -/
structure SysInv (pol : Policy) (g : Ghost) (s : System) : Prop where
  faults : g.faults = pol.faults
  logFaults : g.logFaults = pol.logFaults
  session : g.session.Ok
  stored : Stored g s.world.disk
  sound : pol.Sound → g.session.sound = true
  acked : pol.Clean → g.session.acked = Store.empty.applyAll (acks s.history)
  answers : pol.Clean → Answers s.history
  writes : pol.Clean → WritesSucceed s.history
  process : ProcessOk pol g s.world s.process

/-- The background thread leaves an idle client idle. -/
theorem Idle.frame (h : Idle g w) (hr : Frame .client g w g' w') (hi : Inv g' w') :
    Idle g' w' := by
  obtain ⟨hs, -, -, ho, -⟩ := hr.client rfl
  refine ⟨hr.unlocked h.unlocked, hs ▸ h.pending, fun hclosed => ?_⟩
  exact stable_faulty g w g' w' hr hi (h.walOpen (ho ▸ hclosed))

/-- A step of the compaction thread leaves the client as it is. -/
theorem ClientOk.frame {client : Client} (h : ClientOk g w client) (hr : Frame .client g w g' w')
    (hi : Inv g' w') : ClientOk g' w' client := by
  cases client with
  | idle => exact Idle.frame h hr hi
  | closing => exact Idle.frame h hr hi
  | running op p =>
    obtain ⟨hpending, x, hx, hsafe⟩ := h
    refine ⟨(hr.client rfl).1 ▸ hpending, x, hx, ?_⟩
    exact hsafe.interfere (K := protocol .client) (fun r => stable_done op r) hr hi

/-- A step of the client leaves the compaction thread as it is. -/
theorem BackgroundOk.frame {options : Options} {bg : Option (DBM Bool)}
    (h : BackgroundOk options g w bg) (hr : Frame .background g w g' w') (hi : Inv g' w') :
    BackgroundOk options g' w' bg := by
  cases bg with
  | none => trivial
  | some p =>
    obtain ⟨v, n, hsafe⟩ := h
    refine ⟨v, n, hsafe.interfere (K := protocol .background) (fun b => ?_) hr hi⟩
    exact stable_turnDone options b

/-! ## Ghost steps -/

/-- The same session at another point between calls. -/
structure Session.Same (x x' : Session) : Prop where
  records : x'.records = x.records
  logged : x'.logged = x.logged
  tail : x'.tail = x.tail
  torn : x'.torn = x.torn
  store : x'.store = x.store
  flushes : x'.flushes = x.flushes
  sound : x'.sound = true → x.sound = true

/-- What the client only books does not concern the database. -/
theorem Inv.same {x' : Session} (hi : Inv g w) (hx : g.session.Same x') (hok : x'.Ok) :
    Inv { g with session := x' } w := by
  obtain ⟨hrecords, hlogged, htail, htorn, hstore, -, hsound⟩ := hx
  refine { hi with
    stored := { hi.stored with logged := fun hs => ?logged }
    session := hok
    mem := hrecords ▸ hi.mem
    live := by rw [hrecords, hstore]; exact hi.live
    behind := by rw [hrecords, hstore]; exact hi.behind
    keys := fun hs => by rw [hrecords, hlogged]; exact hi.keys (hsound hs) }
  obtain ⟨hfits, hfile, htorn', hreplay⟩ := hi.stored.logged (hsound hs)
  exact ⟨hlogged ▸ hfits, by rw [hlogged, htail]; exact hfile, by rw [htail, htorn]; exact htorn',
    by rw [hlogged, hstore]; exact hreplay⟩

/-- Nor the background thread. -/
theorem Frame.same {x' : Session} (hx : g.session.Same x') :
    Frame .background g w { g with session := x' } w :=
  { Frame.refl .background g w with
    client := fun h => by cases h
    background := fun _ => ⟨[], rfl, hx.flushes⟩ }

/-- Between two calls the store is the acknowledged one. -/
theorem Session.Ok.store_eq (h : x.Ok) (hp : x.pending = none) : x.store = x.acked := by
  rcases h.store with heq | ⟨e, he, -⟩
  · exact heq
  · cases hp.symm.trans he

/-- And a sound log has no torn end. -/
theorem Session.Ok.tail_eq (h : x.Ok) (hp : x.pending = none) (hs : x.sound = true) :
    x.tail = [] := by
  rcases h.tail hs with heq | ⟨-, e, he, -⟩
  · exact heq
  · cases hp.symm.trans he

/-- A call begins. -/
def Session.invoke (x : Session) (op : Op) : Session := { x with pending := op.entry }

/-- A call returns. -/
def Session.return (x : Session) : Session :=
  { x with acked := x.store, pending := none, sound := x.sound && x.tail.isEmpty }

/-- A call begins with both. -/
theorem Session.Ok.begun (h : x.Ok) (hp : x.pending = none) (op : Op) : (x.invoke op).Begun op :=
  ⟨rfl, h.store_eq hp, h.tail_eq hp⟩

/-- A call that has just begun has written nothing. -/
theorem Session.Begun.ok {op : Op} (h : x.Begun op) : x.Ok :=
  ⟨.inl h.store, fun hs => .inl (h.tail hs)⟩

/-- Invoking a call changes the pending write only. -/
theorem Session.same_invoke (x : Session) (op : Op) : x.Same (x.invoke op) :=
  ⟨rfl, rfl, rfl, rfl, rfl, rfl, id⟩

/-- Returning from it acknowledges and changes nothing else. -/
theorem Session.same_return (x : Session) : x.Same x.return := by
  refine ⟨rfl, rfl, rfl, rfl, rfl, rfl, fun hs => ?_⟩
  rw [Session.return, Bool.and_eq_true] at hs
  exact hs.1

/-- Behind a return the store is the acknowledged one. -/
theorem Session.ok_return (x : Session) : x.return.Ok := by
  refine ⟨.inl rfl, fun hs => .inl ?_⟩
  rw [Session.return, Bool.and_eq_true] at hs
  exact List.isEmpty_iff.mp hs.2

/-! ## Opening and closing -/

variable {pol : Policy} {s : System}

/-- Without faults and kills no log is torn. -/
theorem Policy.Clean.sound (h : pol.Clean) : pol.Sound := ⟨h.2.1, .inr h⟩

/-- A log without a tail. -/
theorem SysInv.wholeFrames (h : SysInv pol g s) (hs : pol.Sound)
    (hp : g.session.pending = none) : WholeFrames s.world.disk.log := by
  have hl := h.stored.logged (h.sound hs)
  refine ⟨g.session.logged, hl.fits, ?_⟩
  rw [hl.file, h.session.tail_eq hp (h.sound hs), List.append_nil]

variable {cfg}

/-- `Open` begins on the disk as it is. -/
theorem SysInv.open (h : SysInv pol g s) (hp : s.process = .down)
    (hpermits : pol.Permits s (.open cfg)) :
    SysInv pol g { s with
      world := World.fresh cfg s.world.disk
      process := .opening cfg (DB.recover cfg).run } := by
  have hdown := h.process
  rw [hp] at hdown
  obtain ⟨htrigger, hwhole⟩ := hpermits
  refine { h with process := ⟨htrigger, hdown, s.world.disk.log, fun hs => ?_, ?_⟩ }
  · obtain ⟨hlog, htorn | hclean⟩ := hs
    · rw [htorn] at hwhole
      exact hwhole.resolve_left (by simp)
    · exact h.wholeFrames hclean.sound (hdown hclean)
  · exact tripleE_recover cfg s.world.disk g _ h.stored ⟨rfl, rfl⟩

/-- A step of `Open` changes neither the saved version nor the records of the log. -/
theorem SysInv.openStep {p p' : DBM (Except Status Unit)} {ch : Choice} (h : SysInv pol g s)
    (hp : s.process = .opening cfg p) (hpermits : pol.Permits s (.openStep ch))
    (hstep : p.step (exec .client) ch s.world = some (p', w')) :
    SysInv pol g { s with world := w', process := .opening cfg p' } := by
  have hopening := h.process
  rw [hp] at hopening
  obtain ⟨htrigger, hpending, log, hwhole, hsafe⟩ := hopening
  obtain ⟨g', rfl, hstored, hsafe'⟩ := hsafe.step (K := recovering) h.stored (fun c k hc => by
    show c.MayFail g.faults g.logFaults ch
    rw [h.faults, h.logFaults]
    rw [Policy.Permits, hp, hc] at hpermits
    exact hpermits) hstep
  exact { h with stored := hstored, process := ⟨htrigger, hpending, log, hwhole, hsafe'⟩ }

/-- What was stored is there again after a clean exit. -/
private theorem SysInv.recoveredStore_eq (h : SysInv pol g s) (hs : pol.Sound)
    (hp : g.session.pending = none) : recoveredStore g.saved s.world.disk.log = g.session.acked := by
  have hl := h.stored.logged (h.sound hs)
  rw [recoveredStore, hl.file, h.session.tail_eq hp (h.sound hs), List.append_nil,
    walRecords_walFrames hl.fits, hl.replay, h.session.store_eq hp]

/-- Behind a successful `Open` the log has been replayed and the client is idle. -/
theorem SysInv.openReturn (h : SysInv pol g s) (hp : s.process = .opening cfg (.ret (.ok ()))) :
    ∃ g', SysInv pol g' { s with process := .up cfg .idle (some (DB.backgroundTurn cfg)) } := by
  have hopening := h.process
  rw [hp] at hopening
  obtain ⟨htrigger, hpending, log, hwhole, -, hopened⟩ := hopening
  have hlog : s.world.disk.log = log := by rw [Disk.log, hopened.log_eq]; rfl
  obtain ⟨records, hi⟩ := inv_opened hopened h.stored
  have hmutex : s.world.mutex = none := by
    obtain ⟨disk, mem, hw⟩ := hopened.world
    rw [hw]
    rfl
  have hopen : s.world.walOpen = true := by
    obtain ⟨disk, mem, hw⟩ := hopened.world
    rw [hw]
  refine ⟨g.opened log records, ?_⟩
  -- with a whole log the replayed store is that of the acknowledged writes
  exact
    { faults := h.faults
      logFaults := h.logFaults
      session := hi.session
      stored := hi.stored
      sound := fun hs => Session.sound_opened.mpr (hwhole hs)
      acked := fun hclean => by
        show recoveredStore g.saved log = _
        rw [← hlog, h.recoveredStore_eq hclean.sound (hpending hclean), h.acked hclean]
      answers := h.answers
      writes := h.writes
      process := by
        refine ⟨htrigger, hi, ⟨by simp [hmutex], rfl, by simp [hopen]⟩, s.world.current, 0, ?_⟩
        exact triple_backgroundTurn cfg htrigger _ _ hi ⟨by simp [hmutex], .refl _ _⟩ }

/-! ## The client -/

/-- What a step of the same process keeps. -/
structure Continues (s s' : System) (g g' : Ghost) : Prop where
  tables : ∀ n f, g.tables n = some f → g'.tables n = some f
  acked : NoAck s s' → g'.session.acked = g.session.acked
  sound : NoAck s s' → g'.session.sound = g.session.sound

/-- A step of either thread. -/
private theorem Keeps.continues {t : Thread} {s' : System} (h : Keeps t g w g' w') : Continues s s' g g' :=
  ⟨h.tables, fun _ => h.acked_eq, fun _ => h.sound_eq⟩

variable {client : Client} {bg : Option (DBM Bool)} {op : Op}

/-- The client begins a call. -/
theorem SysInv.invoke (h : SysInv pol g s) (hp : s.process = .up cfg .idle bg)
    (hpermits : pol.Permits s (.invoke op)) :
    ∃ g', SysInv pol g' { s with process := .up cfg (.running op (op.program cfg)) bg } ∧
      Continues s { s with process := .up cfg (.running op (op.program cfg)) bg } g g' := by
  have hup := h.process
  rw [hp] at hup
  obtain ⟨htrigger, hi, hidle, hbg⟩ := hup
  have hbegun := h.session.begun hidle.pending op
  have hsame := g.session.same_invoke op
  have hi' := hi.same hsame hbegun.ok
  refine ⟨{ g with session := g.session.invoke op }, ?_, fun _ _ hf => hf, fun _ => rfl,
    fun _ => rfl⟩
  exact
    { faults := h.faults
      logFaults := h.logFaults
      session := hbegun.ok
      stored := hi'.stored
      sound := h.sound
      acked := h.acked
      answers := h.answers
      writes := h.writes
      -- the call has its triple, and the background thread does not see the pending write
      process := by
        refine ⟨htrigger, hi', ⟨rfl, _, hbegun, ?_⟩, hbg.frame (.same hsame) hi'⟩
        exact triple_program cfg op hbegun hpermits _ _ hi'
          ⟨⟨hidle.unlocked, rfl, rfl, rfl⟩, hidle.walOpen⟩ }

/-- A step of the client. -/
theorem SysInv.clientStep {p p' : DBM Reply} {ch : Choice} (h : SysInv pol g s)
    (hp : s.process = .up cfg (.running op p) bg) (hpermits : pol.Permits s (.clientStep ch))
    (hstep : p.step (exec .client) ch s.world = some (p', w')) :
    ∃ g', SysInv pol g' { s with world := w', process := .up cfg (.running op p') bg } ∧
      Continues s { s with world := w', process := .up cfg (.running op p') bg } g g' := by
  have hup := h.process
  rw [hp] at hup
  obtain ⟨htrigger, hi, ⟨hpending, x, hx, hsafe⟩, hbg⟩ := hup
  obtain ⟨g', hk, hi', hsafe'⟩ := hsafe.step (K := protocol .client) hi (fun c k hc => by
    show c.Fits s.world ∧ c.MayFail g.faults g.logFaults ch
    rw [h.faults, h.logFaults]
    rw [Policy.Permits, hp, hc] at hpermits
    exact hpermits) hstep
  have hk : Keeps .background g s.world g' w' := hk
  -- the background thread tolerates the step, so its triple still holds
  refine ⟨g', ?_, hk.continues⟩
  exact
    { faults := hk.faults_eq.trans h.faults
      logFaults := hk.logFaults_eq.trans h.logFaults
      session := hi'.session
      stored := hi'.stored
      sound := fun hs => hk.sound_eq.trans (h.sound hs)
      acked := fun hclean => hk.acked_eq.trans (h.acked hclean)
      answers := h.answers
      writes := h.writes
      process := ⟨htrigger, hi', ⟨hk.pending_eq.trans hpending, x, hx, hsafe'⟩,
        hbg.frame hk.toFrame hi'⟩ }

/-- What a call that returns has stored. -/
theorem Done.store_eq {r : Reply} (h : Done op x r g w) (hx : x.Begun op) (hf : ¬ g.Faulty) :
    g.session.store =
      g.session.acked.applyAll (if r = .status .OK then op.entry else none).toList := by
  cases hop : op.entry with
  | none =>
    obtain ⟨hstore, hacked, -⟩ := h.other hop
    rw [ite_self, hstore, hacked, hx.store]
    rfl
  | some e =>
    rcases h.write e hop with ⟨rfl, hw⟩ | hfailed
    · rw [if_pos rfl, hw.store, hw.acked, hx.store]
      rfl
    · exact absurd hfailed.fault hf

/-- A write returns `OK` unless something fails. -/
private theorem Done.status_ok {r : Reply} (h : Done op x r g w) (hwrite : op.entry ≠ none)
    (hf : ¬ g.Faulty) : r = .status .OK := by
  obtain ⟨e, he⟩ := Option.ne_none_iff_exists'.mp hwrite
  rcases h.write e he with ⟨hok, -⟩ | hfailed
  · exact hok
  · exact absurd hfailed.fault hf

/-- A call that returns has left no tail in the log, if appends do not fail. -/
theorem Done.tail_eq {r : Reply} (h : Done op x r g w) (hx : x.Begun op)
    (hs : g.session.sound = true) (hlog : g.logFaults = false) : g.session.tail = [] := by
  cases hop : op.entry with
  | none =>
    have hf := h.other hop
    exact hf.tail.elim (fun heq => heq.trans (hx.tail (hf.sound ▸ hs))) id
  | some e =>
    rcases h.write e hop with ⟨-, hw⟩ | hfailed
    · exact hw.tail
    · exact hfailed.tail hlog (hfailed.rejected.sound ▸ hs)

/-- The client returns from a call, whose postcondition now holds. -/
theorem SysInv.clientReturn {r : Reply} {s' : System} (h : SysInv pol g s)
    (hp : s.process = .up cfg (.running op (.ret r)) bg)
    (hs' : s' = { s with
      process := .up cfg (if op = .close then .closing else .idle) bg
      history := s.history ++ [(op, r)] }) :
    ∃ g', SysInv pol g' s' ∧ Continues s s' g g' := by
  have hup := h.process
  rw [hp] at hup
  obtain ⟨htrigger, hi, ⟨hpending, x, hx, hdone⟩, hbg⟩ := hup
  have hdone : Done op x r g s.world := hdone
  have hsame := g.session.same_return
  have hi' := hi.same hsame g.session.ok_return
  -- without faults every call succeeds
  have hfaulty (hclean : pol.Clean) : ¬ g.Faulty := by
    rw [Ghost.Faulty, h.faults, h.logFaults, hclean.1, hclean.2.1]
    simp
  -- a call that acknowledges nothing may have flushed, and that keeps the store
  have hother (hno : NoAck s s') : Flushed x g.session := by
    apply hdone.other
    rcases hno with hnone | hsame
    · rwa [hp] at hnone
    · simp [hs'] at hsame
  subst hs'
  refine ⟨{ g with session := g.session.return }, ?_, fun _ _ hf => hf, fun hno => ?acked,
    fun hno => ?sound⟩
  · exact
      { faults := h.faults
        logFaults := h.logFaults
        session := g.session.ok_return
        stored := hi'.stored
        sound := fun hs => by
          have hsound := h.sound hs
          rw [Session.return, Bool.and_eq_true, List.isEmpty_iff]
          exact ⟨hsound, hdone.tail_eq hx hsound (h.logFaults.trans hs.1)⟩
        acked := fun hclean => by
          show g.session.store = _
          rw [hdone.store_eq hx (hfaulty hclean), h.acked hclean, acks_append_singleton,
            Store.applyAll_append]
        answers := fun hclean => by
          apply (h.answers hclean).append
          rintro k a rfl rfl
          obtain ⟨a', ha, hvalue⟩ := hdone.get k rfl
          cases ha
          rw [hvalue, ← h.acked hclean, (hdone.other rfl).acked, hx.store]
        writes := fun hclean =>
          (h.writes hclean).append fun hwrite => hdone.status_ok hwrite (hfaulty hclean)
        process := by
          refine ⟨htrigger, hi', ?_, hbg.frame (.same hsame) hi'⟩
          have hidle : Idle { g with session := g.session.return } s.world :=
            ⟨hdone.unlocked, rfl, hdone.walOpen⟩
          show ClientOk _ _ (if op = .close then .closing else .idle)
          split
          · exact hidle
          · exact hidle }
  case acked =>
    have hf := hother hno
    exact hf.store.trans (hx.store.trans hf.acked.symm)
  case sound =>
    have hf := hother hno
    show (g.session.sound && g.session.tail.isEmpty) = g.session.sound
    rw [Bool.and_eq_left_iff_imp, List.isEmpty_iff]
    intro hs
    exact hf.tail.elim (fun heq => heq.trans (hx.tail (hf.sound ▸ hs))) id

/-! ## The compaction thread -/

/-- A step of the background thread, which leaves the session alone. -/
theorem SysInv.backgroundStep {p p' : DBM Bool} {ch : Choice} (h : SysInv pol g s)
    (hp : s.process = .up cfg client (some p)) (hpermits : pol.Permits s (.backgroundStep ch))
    (hstep : p.step (exec .background) ch s.world = some (p', w')) :
    ∃ g', SysInv pol g' { s with world := w', process := .up cfg client (some p') } ∧
      Continues s { s with world := w', process := .up cfg client (some p') } g g' ∧
      g'.session = g.session := by
  have hup := h.process
  rw [hp] at hup
  obtain ⟨htrigger, hi, hclient, v, n, hsafe⟩ := hup
  obtain ⟨g', hk, hi', hsafe'⟩ := hsafe.step (K := protocol .background) hi (fun c k hc => by
    show c.Fits s.world ∧ c.MayFail g.faults g.logFaults ch
    rw [h.faults, h.logFaults]
    rw [Policy.Permits, hp, hc] at hpermits
    exact hpermits) hstep
  have hk : Keeps .client g s.world g' w' := hk
  -- the client tolerates the step
  refine ⟨g', ?_, hk.continues, (hk.client rfl).1⟩
  exact
    { faults := hk.faults_eq.trans h.faults
      logFaults := hk.logFaults_eq.trans h.logFaults
      session := hi'.session
      stored := hi'.stored
      sound := fun hs => hk.sound_eq.trans (h.sound hs)
      acked := fun hclean => hk.acked_eq.trans (h.acked hclean)
      answers := h.answers
      writes := h.writes
      process := ⟨htrigger, hi', hclient.frame hk.toFrame hi', v, n, hsafe'⟩ }

/-- A turn of the background thread ends and the next one begins. -/
theorem SysInv.backgroundReturn {goOn : Bool} (h : SysInv pol g s)
    (hp : s.process = .up cfg client (some (.ret goOn))) :
    SysInv pol g { s with
      process := .up cfg client (if goOn then some (DB.backgroundTurn cfg) else none) } := by
  have hup := h.process
  rw [hp] at hup
  obtain ⟨htrigger, hi, hclient, v, n, hdone⟩ := hup
  refine { h with process := ⟨htrigger, hi, hclient, ?_⟩ }
  cases goOn with
  | false => trivial
  | true =>
    refine ⟨s.world.current, g.session.flushes, ?_⟩
    exact triple_backgroundTurn cfg htrigger g s.world hi ⟨hdone.1, .refl g s.world⟩

/-! ## Runs -/

/-- Only an idle client invokes a call. -/
theorem next_invoke {s' : System} (h : s.next (.invoke op) = some s') :
    ∃ cfg bg, s.process = .up cfg .idle bg ∧
      s' = { s with process := .up cfg (.running op (op.program cfg)) bg } := by
  rw [System.next] at h
  split at h
  next cfg bg hp =>
    cases h
    exact ⟨cfg, bg, hp, rfl⟩
  next => cases h

/-- Only a finished call returns. -/
theorem next_clientReturn {s' : System} (h : s.next .clientReturn = some s') :
    ∃ cfg op r bg, s.process = .up cfg (.running op (.ret r)) bg ∧
      s' = { s with
        process := .up cfg (if op = .close then .closing else .idle) bg
        history := s.history ++ [(op, r)] } := by
  rw [System.next] at h
  split at h
  next cfg op r bg hp =>
    cases h
    exact ⟨cfg, op, r, bg, hp, rfl⟩
  next => cases h

/-- Every event keeps the invariant. -/
theorem SysInv.step {s' : System} (h : SysInv pol g s) (hstep : pol.Step s s') :
    ∃ g', SysInv pol g' s' ∧ (s.process.IsUp → s'.process.IsUp → Continues s s' g g') := by
  obtain ⟨e, hpermits, hnext⟩ := hstep
  cases e with
  | «open» cfg =>
    rw [System.next] at hnext
    split at hnext
    next hp =>
      cases hnext
      exact ⟨g, h.open hp hpermits, fun _ hup => hup.elim⟩
    next => cases hnext
  | openStep ch =>
    rw [System.next] at hnext
    split at hnext
    next cfg p hp =>
      obtain ⟨⟨p', w'⟩, hs, rfl⟩ := Option.map_eq_some_iff.mp hnext
      exact ⟨g, h.openStep hp hpermits hs, fun _ hup => hup.elim⟩
    next => cases hnext
  | openReturn =>
    rw [System.next] at hnext
    split at hnext
    next cfg hp =>
      cases hnext
      obtain ⟨g', hg'⟩ := h.openReturn hp
      exact ⟨g', hg', fun hup => by rw [hp] at hup; exact hup.elim⟩
    next cfg e hp =>
      cases hnext
      -- a failed `Open` leaves the database closed
      have hopening := h.process
      rw [hp] at hopening
      exact ⟨g, { h with process := hopening.2.1 }, fun _ hup => hup.elim⟩
    next => cases hnext
  | invoke op =>
    obtain ⟨cfg, bg, hp, rfl⟩ := next_invoke hnext
    obtain ⟨g', hg', hc⟩ := h.invoke hp hpermits
    exact ⟨g', hg', fun _ _ => hc⟩
  | clientStep ch =>
    rw [System.next] at hnext
    split at hnext
    next cfg op p bg hp =>
      obtain ⟨⟨p', w'⟩, hs, rfl⟩ := Option.map_eq_some_iff.mp hnext
      obtain ⟨g', hg', hc⟩ := h.clientStep hp hpermits hs
      exact ⟨g', hg', fun _ _ => hc⟩
    next => cases hnext
  | clientReturn =>
    obtain ⟨cfg, op, r, bg, hp, hs'⟩ := next_clientReturn hnext
    obtain ⟨g', hg', hc⟩ := h.clientReturn hp hs'
    exact ⟨g', hg', fun _ _ => hc⟩
  | backgroundStep ch =>
    rw [System.next] at hnext
    split at hnext
    next cfg client p hp =>
      obtain ⟨⟨p', w'⟩, hs, rfl⟩ := Option.map_eq_some_iff.mp hnext
      obtain ⟨g', hg', hc, -⟩ := h.backgroundStep hp hpermits hs
      exact ⟨g', hg', fun _ _ => hc⟩
    next => cases hnext
  | backgroundReturn =>
    rw [System.next] at hnext
    split at hnext
    next cfg client goOn hp =>
      cases hnext
      exact ⟨g, h.backgroundReturn hp, fun _ _ => ⟨fun _ _ hf => hf, fun _ => rfl, fun _ => rfl⟩⟩
    next => cases hnext
  | join =>
    rw [System.next] at hnext
    split at hnext
    next cfg hp =>
      cases hnext
      have hup := h.process
      rw [hp] at hup
      exact ⟨g, { h with process := fun _ => hup.2.2.1.pending }, fun _ hup => hup.elim⟩
    next => cases hnext
  | kill =>
    cases hnext
    refine ⟨g, { h with process := fun hclean => ?_ }, fun _ hup => hup.elim⟩
    -- without kills this event does not occur
    have hkills : pol.kills = true := hpermits
    rw [hclean.2.2] at hkills
    cases hkills

/-- The ghost state of an empty directory. -/
def Ghost.init (pol : Policy) : Ghost where
  saved := ⟨[[]]⟩
  savedNext := 1
  owned _ := ∅
  tables _ := none
  session :=
    { records := [], logged := [], tail := [], torn := none, store := .empty, acked := .empty
      pending := none, sound := true, flushes := 0 }
  faults := pol.faults
  logFaults := pol.logFaults

/-- The invariant holds on an empty disk before the first start. -/
theorem sysInv_init (pol : Policy) : SysInv pol (Ghost.init pol) System.init where
  faults := rfl
  logFaults := rfl
  session := ⟨.inl rfl, fun _ => .inl rfl⟩
  stored :=
    { layout := layout_empty
      fits := ⟨by simp [Ghost.init], by simp [Ghost.init]⟩
      savedNext_pos := Nat.one_pos
      savedNext_lt := by simp [Ghost.init]
      saved_lt := by simp [Ghost.init, Version.files]
      -- there is no manifest yet
      manifest := .inr ⟨rfl, rfl, rfl⟩
      saved_files := by simp [Ghost.init, Version.files]
      logged := fun _ => ⟨by simp [Ghost.init], rfl, .inl rfl, rfl⟩ }
  sound _ := rfl
  acked _ := rfl
  answers _ before k r after heq := by
    have hlen := congrArg List.length heq
    simp [System.init] at hlen
  writes _ op r hmem := absurd hmem List.not_mem_nil
  process := fun _ => rfl

/-- The invariant holds in every reachable state. -/
theorem SysInv.of_reachable (h : pol.Reachable s) : ∃ g, SysInv pol g s := by
  induction h with
  | refl => exact ⟨_, sysInv_init pol⟩
  | tail _ hstep ih =>
    obtain ⟨g, hg⟩ := ih
    obtain ⟨g', hg', -⟩ := hg.step hstep
    exact ⟨g', hg'⟩

end Lsmdb
