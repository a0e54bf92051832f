import Lsmdb.Spec.ProgramCalls
import Lsmdb.Spec.SystemCorrect

/-!
# What survives failures

Calls that fail in a flush or a compaction do not touch what the process serves, nor what
a recovery finds if the log agrees with the memtable when they begin. A write that returns
an error may be in effect or not, in the running process and after a crash, but never in
part and never with anything else. If its append to the log has failed, it is not in effect
in the running process: `AddRecord` comes first and ends the write (`appendRules`).
-/

namespace Lsmdb

open Prog

variable {g g' : Ghost} {w : World} {s s' : System} {pol : Policy} {cfg : Config}
variable {bg : Option (DBM Bool)}

/-! ## Agreement of the log with the process -/

/-- The log consists of whole frames, it has every key of the memtable, and its last record of a
    key has the value that the process serves. -/
structure LogAgrees (w : World) : Prop where
  whole : WholeFrames w.disk.log
  keys : ∀ k, w.mem.get k ≠ some .notFound → k ∈ (walRecords w.disk.log).map Entry.key
  values : ∀ k ∈ (walRecords w.disk.log).map Entry.key, ∃ r, w.answer k = some r ∧
    r.value = Store.empty.applyAll (walRecords w.disk.log) k

/-- The keys that the memtable answers are those of its records. -/
private theorem mem_keys_of_get {records : List Entry} (hmem : w.mem.Holds records) {k : Bytes} :
    w.mem.get k ≠ some .notFound ↔ ∃ e ∈ records, e.key = k := by
  rw [hmem.get_eq, ne_eq, Option.some.injEq, lookup_eq_notFound_iff, SortedMap.find_eq_none_iff]
  simp

/-- The session of a process whose log agrees with it. -/
def Session.agreeing (x : Session) (log : Bytes) : Session :=
  { x with logged := walRecords log, tail := [], torn := none, sound := true }

/-- If the log agrees with the memtable, then the log alone accounts for what was written, and the
    invariant holds as if no append had ever failed. -/
theorem Inv.agree (hi : Inv g w) (hlog : LogAgrees w) :
    Inv { g with session := g.session.agreeing w.disk.log } w := by
  -- every record of the memtable has a frame in the log
  have hkeys (e : Entry) (he : e ∈ g.session.records) :
      e.key ∈ (walRecords w.disk.log).map Entry.key :=
    hlog.keys _ ((mem_keys_of_get hi.mem).mpr ⟨e, he, rfl⟩)
  refine { hi with
    stored := { hi.stored with logged := fun _ => ?logged }
    session := ⟨hi.session.store, fun _ => .inl rfl⟩
    keys := fun _ => hkeys }
  refine ⟨fun _ he => fits_of_mem_walRecords he, ?file, .inl rfl, ?replay⟩
  case file =>
    show w.disk.log = walFrames (walRecords w.disk.log) ++ []
    rw [List.append_nil]
    exact hlog.whole.eq_walFrames
  case replay =>
    funext k
    show (liveIn g.saved.tables).applyAll (walRecords w.disk.log) k = g.session.store k
    by_cases hk : k ∈ (walRecords w.disk.log).map Entry.key
    · -- the last record decides
      obtain ⟨r, hr, hvalue⟩ := hlog.values k hk
      obtain ⟨r', hr', hvalue'⟩ := hi.serves k
      cases hr.symm.trans hr'
      rw [Store.applyAll_of_mem _ Store.empty hk, ← hvalue, hvalue']
    · -- the key is not in the memtable either
      rw [Store.applyAll_of_not_mem _ hk]
      apply hi.behind
      rintro e he rfl
      exact hk (hkeys e he)

/-- A process between two calls whose log agrees with it can be taken for one whose appends were
    all sound. -/
theorem SysInv.agree (h : SysInv pol g s) (hp : s.process = .up cfg .idle bg)
    (hlog : LogAgrees s.world) :
    ∃ g', SysInv pol g' s ∧ g'.session.sound = true ∧ g'.session.acked = g.session.acked := by
  have hup := h.process
  rw [hp] at hup
  obtain ⟨htrigger, hi, hidle, hbg⟩ := hup
  have hi' := hi.agree hlog
  refine ⟨{ g with session := g.session.agreeing s.world.disk.log }, ?_, rfl, rfl⟩
  exact
    { faults := h.faults
      logFaults := h.logFaults
      session := hi'.session
      stored := hi'.stored
      sound := fun _ => rfl
      acked := h.acked
      answers := h.answers
      writes := h.writes
      -- the background thread notices nothing: only the bookkeeping of the client changes
      process := by
        rw [hp]
        refine ⟨htrigger, hi', ⟨hidle.unlocked, hidle.pending, hidle.walOpen⟩, hbg.frame ?_ hi'⟩
        exact { Frame.refl .background g s.world with
          client := fun ht => by cases ht
          background := fun _ => ⟨[], rfl, rfl⟩ } }

/-- Unless an append fails or comes behind a part of a frame, the log agrees with the process
    between any two calls. -/
private theorem logAgrees_of_reachable (h : Policy.wholeLogs.Reachable s)
    (hp : s.process = .up cfg .idle bg) : LogAgrees s.world := by
  obtain ⟨g, hg⟩ := SysInv.of_reachable h
  have hs : Policy.wholeLogs.Sound := ⟨rfl, .inl rfl⟩
  have hup : s.process.IsUp := by rw [hp]; trivial
  have hpending : g.session.pending = none := (hg.pending_eq (.inl hup)).trans (by rw [hp]; rfl)
  have hi := hg.inv hup
  have hl := hg.stored.logged (hg.sound hs)
  -- the log is made of whole frames, because no append has failed and none is under way
  have hrecords : walRecords s.world.disk.log = g.session.logged := by
    rw [hl.file, hg.session.tail_eq hpending (hg.sound hs), List.append_nil,
      walRecords_walFrames hl.fits]
  refine ⟨hg.wholeFrames hs hpending, fun k hk => ?_, fun k hk => ?_⟩
  · -- a key of the memtable is one of the log
    obtain ⟨e, he, rfl⟩ := (mem_keys_of_get hi.mem).mp hk
    rw [hrecords]
    exact hi.keys (hg.sound hs) e he
  · -- and the store has the value of the last frame
    obtain ⟨r, hr, hvalue⟩ := hi.serves k
    refine ⟨r, hr, ?_⟩
    rw [hrecords] at hk ⊢
    rw [hvalue, ← hl.replay, Store.applyAll_of_mem _ Store.empty hk]

/-! ## Failures of flushes and compactions -/

/-- Silent steps acknowledge nothing. -/
theorem SysInv.silent (h : SysInv pol g s) (hsteps : Relation.ReflTransGen pol.Silent s s') :
    ∃ g', SysInv pol g' s' ∧ g'.session.acked = g.session.acked ∧
      g'.session.sound = g.session.sound := by
  induction hsteps with
  | refl => exact ⟨g, h, rfl, rfl⟩
  | tail _ hsilent ih =>
    obtain ⟨g₁, hg₁, hacked, hsound⟩ := ih
    obtain ⟨⟨hstep, hup, hup'⟩, hno⟩ := hsilent
    obtain ⟨g₂, hg₂, hcont⟩ := hg₁.step hstep
    have hc := hcont hup hup'
    exact ⟨g₂, hg₂, (hc.acked hno).trans hacked, (hc.sound hno).trans hsound⟩

/-- Silent steps leave the database open. -/
private theorem isUp_of_silent (hsteps : Relation.ReflTransGen pol.Silent s s') (hup : s.process.IsUp) :
    s'.process.IsUp := by
  cases hsteps with
  | refl => exact hup
  | tail _ hsilent => exact hsilent.1.2.2

/-- What flushes and compactions leave behind, for any ghost state of the process. -/
private theorem SysInv.harmless (h : SysInv pol g s) (hp : s.process = .up cfg .idle bg)
    (hsteps : Relation.ReflTransGen pol.Silent s s') (hidle : s'.process.writing = none)
    (cfg' : Config) :
    s.world.Serves g.session.acked ∧ s'.world.Serves g.session.acked ∧
      (g.session.sound = true → Recovers cfg' s'.world.disk g.session.acked) ∧
      ∃ loaded next, DB.loadVersion cfg' s'.world.disk = some (.ok (loaded, next)) ∧
        ∀ v ∈ loaded, ∀ f ∈ v.files, f.Wf ∧
          s'.world.disk.lookup (numberToName f.number) = some f.reader.base := by
  have hup : s.process.IsUp := by rw [hp]; trivial
  have hup' := isUp_of_silent hsteps hup
  have hpending : g.session.pending = none := (h.pending_eq (.inl hup)).trans (by rw [hp]; rfl)
  obtain ⟨g', hg', hacked, hsound⟩ := h.silent hsteps
  have hpending' := (hg'.pending_eq (.inl hup')).trans hidle
  refine ⟨?_, ?_, fun hs => ?_, ?_⟩
  · -- what the database serves before
    rw [← h.session.store_eq hpending]
    exact (h.inv hup).serves
  · -- and after the steps
    rw [← hacked, ← hg'.session.store_eq hpending']
    exact (hg'.inv hup').serves
  · -- what a reopening recovers
    have hrecovers := hg'.stored.recovers cfg'
    rcases hg'.recoveredStore_cases (hsound.trans hs) with heq | ⟨e, he, -⟩
    · rwa [heq, hacked] at hrecovers
    · cases hpending'.symm.trans he
  · -- the tables that a reopening loads
    obtain ⟨loaded, hload, hsaved⟩ := hg'.stored.loadVersion cfg'
    refine ⟨loaded, g'.savedNext, hload, fun v hv f hf => ?_⟩
    rw [Option.mem_def] at hv
    rw [hv, Option.getD_some] at hsaved
    rw [hsaved] at hf
    exact ⟨hg'.stored.layout.wf f hf, hg'.stored.saved_files f hf⟩

/-- Failures of flushes and compactions are harmless. From a state between two calls, whatever is
    flushed and compacted and whatever fails in it: the process serves what it served before, and
    every file of the manifest on the disk is there and is a whole table. If the log agreed with
    the process, a recovery finds the same store. -/
theorem flush_and_compaction_failures_harmless (h : Policy.any.Reachable s)
    (hp : s.process = .up cfg .idle bg)
    (hsteps : Relation.ReflTransGen Policy.any.Silent s s') (hidle : s'.process.writing = none)
    (cfg' : Config) :
    ∃ m, s.world.Serves m ∧ s'.world.Serves m ∧
      (LogAgrees s.world → Recovers cfg' s'.world.disk m) ∧
      ∃ loaded next, DB.loadVersion cfg' s'.world.disk = some (.ok (loaded, next)) ∧
        ∀ v ∈ loaded, ∀ f ∈ v.files, f.Wf ∧
          s'.world.disk.lookup (numberToName f.number) = some f.reader.base := by
  obtain ⟨g, hg⟩ := SysInv.of_reachable h
  by_cases hlog : LogAgrees s.world
  · obtain ⟨g₀, hg₀, hsound, -⟩ := hg.agree hp hlog
    obtain ⟨hm, hm', hrecovers, hfiles⟩ := hg₀.harmless hp hsteps hidle cfg'
    exact ⟨_, hm, hm', fun _ => hrecovers hsound, hfiles⟩
  · obtain ⟨hm, hm', -, hfiles⟩ := hg.harmless hp hsteps hidle cfg'
    exact ⟨_, hm, hm', fun hyes => absurd hyes hlog, hfiles⟩

/-- A flush cannot create its table. -/
def failingFlush : List Event :=
  .invoke .flush :: List.replicate 4 (.clientStep .ok) ++
    [.clientStep (.fail "No space left on device"), .clientReturn]

/-- The log agrees with the process before the failed flush, and a recovery finds what is
    served. -/
theorem flush_failure_harmless_overwriting :
    let s := Policy.wholeLogs.reach overwriting
    let s' := Policy.any.silently s failingFlush
    (s'.history.map Prod.fst).getLast? = some .flush ∧
      ∃ m, s.world.Serves m ∧ s'.world.Serves m ∧ Recovers exampleConfig s'.world.disk m := by
  intro s s'
  have hidle : s.process.IsIdle := by decide +kernel
  obtain ⟨cfg, bg, hp⟩ := hidle.exists
  obtain ⟨m, hm, hm', hrecovers, -⟩ := flush_and_compaction_failures_harmless
    (Policy.reachable_reach _ _).any hp (Policy.any.silent_silently s failingFlush)
    (by decide +kernel) exampleConfig
  have hlog : LogAgrees s.world := logAgrees_of_reachable (Policy.reachable_reach _ _) hp
  exact ⟨by decide +kernel, m, hm, hm', hrecovers hlog⟩

/-- The record of a write whose `fsync` failed is in the log. -/
def unsyncedWrite : List Event :=
  [.invoke (.put [4] [5]), .clientStep .ok, .clientStep .ok,
    .clientStep (.fail "Input/output error"), .clientReturn]

/-- A log of whole frames alone is not enough: it may hold a write that has failed, which a
    recovery after the failed flush puts into effect. -/
theorem flush_failure_with_unsynced_write :
    let s := Policy.any.reach (overwriting ++ unsyncedWrite)
    let s' := Policy.any.silently s failingFlush
    s.process.IsIdle ∧ WholeFrames s.world.disk.log ∧
      (s'.history.map Prod.fst).getLast? = some .flush ∧
      s.world.answer [4] = some .notFound ∧ s'.world.answer [4] = some .notFound ∧
      (DB.reopen exampleConfig s'.world.disk).bind (fun p => p.2.answer [4]) =
        some (.found [5]) := by
  decide +kernel

/-! ## Appends that fail -/

/-- The calls with which `AddRecord` appends to the log. -/
def Call.Appends : Call → Prop
  | loadWal => True
  | write name _ | fsync name => name = walName
  | _ => False

/-- The results of calls with which `AddRecord` fails: the log is not open, or it cannot be written
    or synced. -/
def Call.appendFailed : (c : Call) → c.Res → Bool
  | loadWal, isOpen => !isOpen
  | write name _, .error _ | fsync name, .error _ => name = walName
  | _, _ => false

/-- Only an append can fail as one. -/
private theorem Call.appends_of_appendFailed {c : Call} {r : c.Res} (h : c.appendFailed r = true) :
    c.Appends := by
  cases c with
  | loadWal => trivial
  | write | fsync =>
    cases r with
    | ok => cases h
    | error =>
      show _ = walName
      exact of_decide_eq_true h
  | _ => cases h

/-- A call that fails an append leaves the world as it is. -/
theorem exec_appendFailed {t : Thread} {c : Call} {ch : Choice} {r : c.Res} {w' : World}
    (hexec : exec t c ch w = some (r, w')) (h : c.appendFailed r = true) : w' = w := by
  cases c with
  | loadWal =>
    cases hexec
    rfl
  | write name data =>
    rcases exec_write hexec with ⟨errno, -, -, rfl⟩ | ⟨n, -, -, rfl, -⟩
    · rfl
    · cases h
  | fsync name => exact (exec_fsync hexec).1
  | _ => cases h

/-- An append fails before the write is in effect. -/
theorem Call.Demand.store_eq {t : Thread} {c : Call} {r : c.Res} (hdemand : c.Demand t g w)
    (h : c.appendFailed r = true) : g.session.store = g.session.acked := by
  have happends := Call.appends_of_appendFailed h
  cases c with
  | loadWal => exact hdemand
  | write | fsync => exact hdemand happends
  | _ => cases h

/-- A program whose append has failed makes no more calls. The state tells whether one has. -/
def appendRules : Typestate Call Call.Res Prop where
  ok failed _ := ¬ failed
  next failed c r := failed ∨ c.appendFailed r = true

section Follows

variable {α : Type}

/-- Only a result that is an error can come of a failed append. -/
def endsFailed (r : Except Status α) (failed : Prop) : Prop := ∀ a, r = .ok a → ¬ failed

/-- A program that does not append. -/
private theorem follows_noAppend {p : DBM α} (h : p.All fun c => ¬ c.Appends) :
    p.Follows appendRules (fun _ failed => ¬ failed) False := by
  apply Follows.of_all h (fun _ _ => not_false)
  · intro c r hc
    apply propext
    exact ⟨fun hfail => hc (Call.appends_of_appendFailed (hfail.resolve_left id)), False.elim⟩
  · exact returns_of_forall fun _ => not_false

/-- A part that does not append, in front of others. -/
private theorem follows_noAppendE {β : Type} {p : DBE α} {f : α → DBE β}
    (h : p.run.All fun c => ¬ c.Appends)
    (hf : ∀ a, (f a).run.Follows appendRules endsFailed False) :
    (p >>= f).run.Follows appendRules endsFailed False := by
  refine follows_bindE.mpr ((follows_noAppend h).mono fun r failed hno => ?_)
  rw [eq_false hno]
  cases r with
  | ok a => exact hf a
  | error e => exact fun a ha => by cases ha

/-- An error text becomes a status, and nothing more is called. -/
private theorem follows_check_append {x : DBM (Except String α)} {status : String → Status}
    (h : x.Follows appendRules (fun r failed => ∀ a, r = .ok a → ¬ failed) False) :
    (DB.check x status).run.Follows appendRules endsFailed False := by
  refine follows_bind.mpr (h.mono fun r failed hr => ?_)
  cases r with
  | ok a => exact fun _ _ => hr a rfl
  | error errno => exact fun a ha => by cases ha

/-- `WriteFully` on the log returns success only if no write has failed. -/
private theorem follows_writeFully_append (data : Bytes) :
    (DB.writeFully walName data).Follows appendRules
      (fun r failed => ∀ a, r = .ok a → ¬ failed) False := by
  rw [DB.writeFully]
  -- the loop writes until nothing is left, and stops at the first failure
  generalize data.length = fuel
  induction fuel generalizing data with
  | zero => cases data with
    | nil => exact fun _ _ => not_false
    | cons => trivial
  | succ fuel ih =>
    cases data with
    | nil => exact fun _ _ => not_false
    | cons b data =>
      refine ⟨not_false, fun r => ?_⟩
      cases r with
      -- a failed write makes the whole of it fail
      | error errno => exact fun a ha => by cases ha
      | ok n =>
        have hnext : appendRules.next False (.write walName (b :: data)) (.ok n) = False := by
          simp [appendRules, Call.appendFailed]
        rw [hnext]
        exact ih _

/-- `AddRecord` returns at the first call that fails. -/
theorem follows_append_addRecord (cfg : Config) (e : Entry) :
    (DB.addRecord cfg e).run.Follows appendRules endsFailed False := by
  refine follows_bindE.mpr ⟨not_false, fun isOpen => ?_⟩
  -- without a log there is nothing to append to, and the call fails
  cases isOpen with
  | false => exact fun a ha => by cases ha
  | true =>
    have hnext : appendRules.next False .loadWal true = False := by
      simp [appendRules, Call.appendFailed]
    rw [hnext]
    refine follows_bindE.mpr ((follows_check_append (follows_writeFully_append _)).mono
      fun r failed hr => ?_)
    cases r with
    | error s => exact fun a ha => by cases ha
    | ok u =>
      rw [eq_false (hr u rfl)]
      -- with `sync_writes` the append includes the `fsync`
      show (if _ then _ else _ : DBE Unit).run.Follows _ _ _
      split
      · apply follows_check_append
        refine ⟨not_false, fun r => ?_⟩
        cases r with
        | error errno => exact fun a ha => by cases ha
        | ok u =>
          have hsynced : appendRules.next False (.fsync walName) (.ok u) = False := by
            simp [appendRules, Call.appendFailed]
          rw [hsynced]
          exact fun _ _ => not_false
      · exact fun _ _ => not_false

end Follows

/-- The calls on a table do not append to the log. -/
theorem Call.OnTable.not_appends {number : Nat} {c : Call} (h : c.OnTable number) :
    ¬ c.Appends := by
  cases c with
  | write name data => exact fun hwal => numberToName_ne_walName number (h.symm.trans hwal)
  | fsync name => exact fun hwal => numberToName_ne_walName number (h.symm.trans hwal)
  | loadWal => exact h.elim
  | _ => exact id

/-- Nor do those that write the manifest. -/
theorem Call.OnManifest.not_appends {c : Call} (h : c.OnManifest) : ¬ c.Appends := by
  cases c with
  | write name data => exact fun hwal => absurd (h.symm.trans hwal) (by decide)
  | fsync name => exact fun hwal => absurd (h.symm.trans hwal) (by decide)
  | loadWal => exact h.elim
  | _ => exact id

/-- A flush starts the log again, but it does not append to it. -/
theorem all_flush_noAppend (cfg : Config) :
    (DB.flushMemTable cfg).run.All fun c => ¬ c.Appends := by
  apply All.bindE (allE_call id)
  intro mem
  show (if _ then _ else _ : DBE Unit).run.All _
  split
  · trivial
  -- the table
  apply All.bindE
  · exact ⟨id, fun _ => ⟨id, fun _ => ⟨id, fun _ => trivial⟩⟩⟩
  intro number
  apply All.bindE ((all_openWriter cfg number).mono fun c hc => hc.onTable.not_appends)
  intro w
  apply All.bindE (allE_defined _)
  intro es
  apply All.bindE
  · exact All.foldlM (fun w e _ =>
      (all_addEntry cfg number w e).mono fun c hc => hc.onTable.not_appends) _
  intro w
  apply All.bindE ((all_finishTable cfg number w _).mono fun c hc => hc.not_appends)
  intro f
  -- the version, the manifest and the new log
  refine allE_withLock id ?_ id
  apply All.bindE (allE_call id)
  intro v
  apply All.bindE (allE_call id)
  intro _
  apply All.bindE ((all_writeManifest _).mono fun c hc => hc.not_appends)
  intro _
  apply All.bindE (allE_call id)
  intro _
  apply All.bindE (allE_call id)
  intro _
  apply All.bindE (allE_call id)
  intro _
  apply All.bindE
  · apply allE_check
    exact ⟨id, fun _ => trivial⟩
  · exact fun _ => allE_call id

/-- `Put` and `Delete` alike: only `AddRecord` appends, and it comes first. -/
private theorem follows_append_write (cfg : Config) (e : Entry)
    (change : SkipList → Option SkipList) :
    (do
      DB.addRecord cfg e
      let mem ← DB.defined (change (← DB.call .loadMem))
      DB.call (.storeMem mem)
      DB.maybeFlush cfg mem : DBE Unit).run.Follows appendRules endsFailed False := by
  refine follows_bindE.mpr ((follows_append_addRecord cfg e).mono fun r failed hr => ?_)
  cases r with
  | error s => exact fun a ha => by cases ha
  | ok u =>
    -- the record is in the log; what follows does not append
    rw [eq_false (hr u rfl)]
    apply follows_noAppendE (allE_call id)
    intro mem
    apply follows_noAppendE (allE_defined _)
    intro mem'
    apply follows_noAppendE (allE_call id)
    intro _
    show (if _ then _ else _ : DBE Unit).run.Follows _ _ _
    split
    · exact (follows_noAppend (all_flush_noAppend cfg)).mono fun _ _ hno _ _ => hno
    · exact fun _ _ => not_false

/-- The program of a write makes no call behind a failed append. -/
theorem follows_append_program (cfg : Config) {op : Op} (hop : op.entry ≠ none) :
    (op.program cfg).Follows appendRules (fun _ _ => True) False := by
  cases op with
  | put k v =>
    exact follows_bind.mpr ((follows_append_write cfg _ fun mem => mem.put k v).mono
      fun _ _ _ => trivial)
  | delete k =>
    exact follows_bind.mpr ((follows_append_write cfg _ fun mem => mem.delete k).mono
      fun _ _ _ => trivial)
  | flush | get | scan | close => exact absurd rfl hop

/-- The next call of the client fails an append. -/
def System.FailsAppend (s : System) (ch : Choice) : Prop :=
  match s.process with
  | .up _ (.running _ (.call c _)) _ =>
    ∃ result ∈ exec .client c ch s.world, c.appendFailed result.1 = true
  | _ => False

instance (s : System) (ch : Choice) : Decidable (s.FailsAppend ch) := by
  rw [System.FailsAppend]
  split
  · infer_instance
  · infer_instance

/-- In the step, the append of the running call fails. -/
def Policy.AppendFails (pol : Policy) (s s' : System) : Prop :=
  ∃ ch, pol.Permits s (.clientStep ch) ∧ s.next (.clientStep ch) = some s' ∧ s.FailsAppend ch

/-- A failed append is a step that acknowledges nothing. -/
theorem Policy.AppendFails.silent (h : pol.AppendFails s s') : pol.Silent s s' := by
  obtain ⟨ch, hpermits, hnext, -⟩ := h
  refine ⟨⟨⟨_, hpermits, hnext⟩, ?_⟩, ?_⟩
  all_goals
    rw [System.next] at hnext
    split at hnext
    next hp =>
      obtain ⟨result, -, rfl⟩ := Option.map_eq_some_iff.mp hnext
      simp [Process.IsUp, NoAck, hp]
    next => cases hnext

/-- The append of the running call fails on the way from one state to the other. -/
def AppendFailsBetween (pol : Policy) (s s' : System) : Prop :=
  ∃ s₁ s₂, Relation.ReflTransGen pol.Silent s s₁ ∧ pol.AppendFails s₁ s₂ ∧
    Relation.ReflTransGen pol.Silent s₂ s'

/-- What can happen to a process while a call is running. -/
private theorem next_running {op : Op} {p : DBM Reply} {ev : Event}
    (hp : s.process = .up cfg (.running op p) bg) (hnext : s.next ev = some s')
    (hup : s'.process.IsUp) :
    (∃ ch p' w', ev = .clientStep ch ∧ p.step (exec .client) ch s.world = some (p', w') ∧
      s' = { s with world := w', process := .up cfg (.running op p') bg }) ∨
    (∃ r, s'.history = s.history ++ [(op, r)]) ∨
    (∃ ch q q' w', ev = .backgroundStep ch ∧ bg = some q ∧
      q.step (exec .background) ch s.world = some (q', w') ∧
      s' = { s with world := w', process := .up cfg (.running op p) (some q') }) ∨
    ∃ goOn, ev = .backgroundReturn ∧ bg = some (.ret goOn) ∧
      s' = { s with
        process :=
          .up cfg (.running op p) (if goOn then some (DB.backgroundTurn cfg) else none) } := by
  cases ev with
  -- these events do not happen to a running call
  | «open» | openStep | openReturn | invoke | join =>
    simp only [System.next, hp] at hnext
    cases hnext
  | kill =>
    cases hnext
    exact hup.elim
  | clientStep ch =>
    simp only [System.next, hp, Option.map_eq_some_iff] at hnext
    obtain ⟨⟨p', w'⟩, hs, rfl⟩ := hnext
    exact .inl ⟨ch, p', w', rfl, hs, rfl⟩
  | clientReturn =>
    obtain ⟨cfg', op', r, bg', hp', rfl⟩ := next_clientReturn hnext
    cases hp.symm.trans hp'
    exact .inr (.inl ⟨r, rfl⟩)
  | backgroundStep ch =>
    rw [System.next] at hnext
    split at hnext
    next cfg' client q hp' =>
      cases hp.symm.trans hp'
      obtain ⟨⟨q', w'⟩, hs, rfl⟩ := Option.map_eq_some_iff.mp hnext
      exact .inr (.inr (.inl ⟨ch, q, q', w', rfl, rfl, hs, rfl⟩))
    next => cases hnext
  | backgroundReturn =>
    rw [System.next] at hnext
    split at hnext
    next cfg' client goOn hp' =>
      cases hp.symm.trans hp'
      cases hnext
      exact .inr (.inr (.inr ⟨goOn, rfl, rfl, rfl⟩))
    next => cases hnext

/-- A write is running over the store `m`. Once its append has failed, the store is still `m`. -/
private structure WritingOver (pol : Policy) (op : Op) (m : Store) (failed : Prop) (g : Ghost)
    (s : System) : Prop where
  inv : SysInv pol g s
  program : ∃ cfg p bg, s.process = .up cfg (.running op p) bg ∧
    p.Follows appendRules (fun _ _ => True) failed
  acked : g.session.acked = m
  store : failed → g.session.store = m

/-- The running write makes a call. If it fails an append, the write is not in effect, and the world
    stays as it is. -/
private theorem WritingOver.clientStep {op : Op} {m : Store} {failed : Prop} {c : Call}
    {k : c.Res → DBM Reply} {ch : Choice} {r : c.Res} {w' : World}
    (h : WritingOver pol op m failed g s) (hp : s.process = .up cfg (.running op (.call c k)) bg)
    (hallows : pol.Allows c ch s.world) (hexec : exec .client c ch s.world = some (r, w')) :
    ∃ g', WritingOver pol op m (appendRules.next failed c r) g'
      { s with world := w', process := .up cfg (.running op (k r)) bg } := by
  have hpermits : pol.Permits s (.clientStep ch) := by
    rw [Policy.Permits, hp]
    exact hallows
  have hs : (Prog.call c k).step (exec .client) ch s.world = some (k r, w') := by
    rw [Prog.step, hexec]
    rfl
  obtain ⟨g', hg', hc⟩ := h.inv.clientStep hp hpermits hs
  obtain ⟨cfg₁, p, bg₁, hp₁, hfollows⟩ := h.program
  cases hp.symm.trans hp₁
  obtain ⟨hfailed, hrest⟩ := hfollows
  refine ⟨g', hg', ⟨cfg, k r, bg, rfl, hrest r⟩, (hc.acked (.inr rfl)).trans h.acked, fun hnow => ?_⟩
  -- the rules say that nothing had failed before this call
  have hfail : c.appendFailed r = true := hnow.resolve_left hfailed
  have hprocess := h.inv.process
  rw [hp] at hprocess
  obtain ⟨-, hi, ⟨-, x, -, hsafe⟩, -⟩ := hprocess
  -- the failed call has changed nothing that is served
  have hserves := (hg'.inv trivial).serves
  rw [exec_appendFailed hexec hfail] at hserves
  calc g'.session.store = g.session.store := hserves.unique hi.serves
    _ = g.session.acked := Call.Demand.store_eq (hsafe.demand hi) hfail
    _ = m := h.acked

/-- A failed append during the write. -/
private theorem WritingOver.appendFails {op : Op} {m : Store} {failed : Prop}
    (h : WritingOver pol op m failed g s) (hfails : pol.AppendFails s s') :
    ∃ g', WritingOver pol op m True g' s' := by
  obtain ⟨ch, hpermits, hnext, hfail⟩ := hfails
  obtain ⟨cfg, p, bg, hp, -⟩ := h.program
  rw [System.FailsAppend, hp] at hfail
  rw [Policy.Permits, hp] at hpermits
  simp only [System.next, hp, Option.map_eq_some_iff] at hnext
  cases p with
  | ret | undef => exact hfail.elim
  | call c k =>
    -- the step that fails is the next one of the program
    obtain ⟨⟨r, w'⟩, hexec, hr⟩ := hfail
    have hs : (Prog.call c k).step (exec .client) ch s.world = some (k r, w') := by
      rw [Prog.step, Option.mem_def.mp hexec]
      rfl
    obtain ⟨result, hs', rfl⟩ := hnext
    cases hs.symm.trans hs'
    obtain ⟨g', hg'⟩ := h.clientStep hp hpermits hexec
    rw [show appendRules.next failed c r = True from eq_true (.inr hr)] at hg'
    exact ⟨g', hg'⟩

/-- Any other step during the write. -/
private theorem WritingOver.silent {op : Op} {m : Store} {failed : Prop}
    (h : WritingOver pol op m failed g s) (hop : op.entry ≠ none) (hstep : pol.Silent s s') :
    ∃ g' failed', WritingOver pol op m failed' g' s' ∧ (failed → failed') := by
  obtain ⟨⟨⟨ev, hpermits, hnext⟩, hup, hup'⟩, hno⟩ := hstep
  obtain ⟨cfg, p, bg, hp, hfollows⟩ := h.program
  have hwriting : s.process.writing = op.entry := by rw [hp]; rfl
  have hhistory := hno.resolve_left fun hnone => hop (hwriting.symm.trans hnone)
  rcases next_running hp hnext hup' with ⟨ch, p', w', rfl, hs, rfl⟩ | ⟨r, hr⟩ |
    ⟨ch, q, q', w', rfl, rfl, hs, rfl⟩ | ⟨goOn, rfl, rfl, rfl⟩
  · -- a step of the write
    cases p with
    | ret | undef => cases hs
    | call c k =>
      obtain ⟨⟨r, w''⟩, hexec, heq⟩ := Option.map_eq_some_iff.mp hs
      cases heq
      rw [Policy.Permits, hp] at hpermits
      obtain ⟨g', hg'⟩ := h.clientStep hp hpermits hexec
      exact ⟨g', _, hg', .inl⟩
  · -- the write has not returned
    rw [hhistory] at hr
    exact absurd hr (by simp)
  · -- a step of the background thread, which leaves the session alone
    obtain ⟨g', hg', hc, hsession⟩ := h.inv.backgroundStep hp hpermits hs
    refine ⟨g', failed, ⟨hg', ⟨cfg, p, some q', rfl, hfollows⟩, ?_, fun hf => ?_⟩, id⟩
    · rw [hsession, h.acked]
    · rw [hsession, h.store hf]
  · exact ⟨g, failed, ⟨h.inv.backgroundReturn hp, ⟨cfg, p, _, rfl, hfollows⟩, h.acked, h.store⟩, id⟩

/-- Any number of steps during the write. -/
private theorem WritingOver.steps {op : Op} {m : Store} {failed : Prop}
    (h : WritingOver pol op m failed g s) (hop : op.entry ≠ none)
    (hsteps : Relation.ReflTransGen pol.Silent s s') :
    ∃ g' failed', WritingOver pol op m failed' g' s' ∧ (failed → failed') := by
  induction hsteps with
  | refl => exact ⟨g, failed, h, id⟩
  | tail _ hsilent ih =>
    obtain ⟨g₁, failed₁, h₁, hmono₁⟩ := ih
    obtain ⟨g₂, failed₂, h₂, hmono₂⟩ := h₁.silent hop hsilent
    exact ⟨g₂, failed₂, h₂, hmono₂ ∘ hmono₁⟩

/-- A write whose append fails is not in effect in the process that returns from it. -/
private theorem SysInv.append_failed {op : Op} {s₁ s₂ : System} (h : SysInv pol g s)
    (hop : op.entry ≠ none) (hfits : op.Fits) (hinvoke : s.next (.invoke op) = some s₁)
    (hfails : AppendFailsBetween pol s₁ s₂) : s₂.world.Serves g.session.acked := by
  -- before the failure, the failure, and after it
  obtain ⟨s₃, s₄, hbefore, hfail, hafter⟩ := hfails
  obtain ⟨cfg, bg, hp, rfl⟩ := next_invoke hinvoke
  obtain ⟨g₁, hg₁, hc⟩ := h.invoke hp hfits
  have h₁ : WritingOver pol op g.session.acked False g₁ _ :=
    ⟨hg₁, ⟨cfg, _, bg, rfl, follows_append_program cfg hop⟩, hc.acked (.inr rfl), False.elim⟩
  obtain ⟨g₃, failed₃, h₃, -⟩ := h₁.steps hop hbefore
  obtain ⟨g₄, h₄⟩ := h₃.appendFails hfail
  obtain ⟨g₂, failed₂, h₂, hfailed⟩ := h₄.steps hop hafter
  obtain ⟨cfg₂, p, bg₂, hp₂, -⟩ := h₂.program
  rw [← h₂.store (hfailed trivial)]
  exact (h₂.inv.inv (by rw [hp₂]; trivial)).serves

/-! ## Writes that return an error -/

/-- What a write that fails leaves behind, for any ghost state of the process it began in. -/
private theorem SysInv.failed_write {s₁ s₂ : System} (h : SysInv pol g s)
    {op : Op} {e : Entry} (hop : op.entry = some e) (he : e.WalFits)
    (hinvoke : s.next (.invoke op) = some s₁)
    (hsteps : Relation.ReflTransGen pol.Silent s₁ s₂) (hreturn : s₂.next .clientReturn = some s')
    {r : Reply} (hhistory : s'.history = s.history ++ [(op, r)]) (hr : r ≠ .status .OK)
    (cfg' : Config) :
    ∃ m m', s.world.Serves m ∧ s'.world.Serves m' ∧ (m' = m ∨ m' = m.apply e) ∧
      (AppendFailsBetween pol s₁ s₂ → m' = m) ∧
      (g.session.sound = true → Recovers cfg' s'.world.disk m' ∨
        Recovers cfg' s'.world.disk (m.apply e)) := by
  have hpermits : pol.Permits s (.invoke op) := by
    intro e' he'
    cases hop.symm.trans he'
    exact he
  obtain ⟨cfg, bg, hp, rfl⟩ := next_invoke hinvoke
  have hup : s.process.IsUp := by rw [hp]; trivial
  have hpending : g.session.pending = none := (h.pending_eq (.inl hup)).trans (by rw [hp]; rfl)
  obtain ⟨g₁, hg₁, hc⟩ := h.invoke hp hpermits
  obtain ⟨g', hg', hacked', hsound'⟩ := hg₁.silent hsteps
  have hacked : g'.session.acked = g.session.acked := hacked'.trans (hc.acked (.inr rfl))
  have hsound : g'.session.sound = g.session.sound := hsound'.trans (hc.sound (.inr rfl))
  -- the call that has returned is the one that was made
  obtain ⟨cfg₂, op₂, r₂, bg₂, hp₂, rfl⟩ := next_clientReturn hreturn
  have hprocess := hg'.process
  rw [hp₂] at hprocess
  obtain ⟨-, hi', ⟨hpending', x, hx, hdone⟩, -⟩ := hprocess
  cases (List.append_inj' hhistory rfl).2
  have hrejected := ((Done.write hdone e hop).resolve_left fun hok => hr hok.1).rejected
  have hstore : x.store = g.session.acked := by
    rw [hx.store, ← hrejected.acked, hacked]
  refine ⟨g.session.acked, g'.session.store, ?_, hi'.serves, ?_, fun hfails => ?_, fun hs => ?_⟩
  · -- what was served before the call
    rw [← h.session.store_eq hpending]
    exact (h.inv hup).serves
  · -- what is served after it
    rw [← hstore]
    exact hrejected.store
  · exact hi'.serves.unique (h.append_failed (by simp [hop]) hpermits hinvoke hfails)
  · -- what a reopening recovers: the log has a whole frame or none of it
    have hs' : g'.session.sound = true := hsound.trans hs
    have hrecovers := hg'.stored.recovers cfg'
    rcases (hg'.stored.logged hs').recoveredStore_cases with heq | ⟨hne, e', htorn, heq⟩
    · rw [heq] at hrecovers
      exact .inl hrecovers
    · -- the frame was written, but the append failed
      obtain ⟨hsame, e'', hpending'', htorn'⟩ := (hg'.session.tail hs').resolve_left hne
      cases htorn.symm.trans htorn'
      cases (hpending'.trans hop).symm.trans hpending''
      rw [heq, hsame, hacked] at hrecovers
      exact .inr hrecovers

/-- A failed write is atomic. A write that does not return `OK`, whatever has failed in it, leaves
    the process with the old store or with the write in effect; with the old store if its append to
    the log has failed. If the log agreed with the process before, a recovery finds what the process
    serves, or the write in effect. -/
theorem failed_write_atomic (h : Policy.any.Reachable s) {op : Op} {e : Entry}
    (hop : op.entry = some e) (he : e.WalFits) {s₁ s₂ : System}
    (hinvoke : s.next (.invoke op) = some s₁)
    (hsteps : Relation.ReflTransGen Policy.any.Silent s₁ s₂)
    (hreturn : s₂.next .clientReturn = some s') {r : Reply}
    (hhistory : s'.history = s.history ++ [(op, r)]) (hr : r ≠ .status .OK) (cfg : Config) :
    ∃ m m', s.world.Serves m ∧ s'.world.Serves m' ∧ (m' = m ∨ m' = m.apply e) ∧
      (AppendFailsBetween Policy.any s₁ s₂ → m' = m) ∧
      (LogAgrees s.world → Recovers cfg s'.world.disk m' ∨
        Recovers cfg s'.world.disk (m.apply e)) := by
  obtain ⟨g, hg⟩ := SysInv.of_reachable h
  by_cases hlog : LogAgrees s.world
  · obtain ⟨cfg₀, bg, hp, -⟩ := next_invoke hinvoke
    obtain ⟨g₀, hg₀, hsound, -⟩ := hg.agree hp hlog
    obtain ⟨m, m', hm, hm', hcases, hfails, hrecovers⟩ :=
      hg₀.failed_write hop he hinvoke hsteps hreturn hhistory hr cfg
    exact ⟨m, m', hm, hm', hcases, hfails, fun _ => hrecovers hsound⟩
  · obtain ⟨m, m', hm, hm', hcases, hfails, -⟩ :=
      hg.failed_write hop he hinvoke hsteps hreturn hhistory hr cfg
    exact ⟨m, m', hm, hm', hcases, hfails, fun hyes => absurd hyes hlog⟩

/-- A database that flushes after every write. -/
def eagerConfig : Config :=
  { exampleConfig with options := { bloomBitsPerKey := 1, memtableFlushThreshold := 0 } }

/-- The steps of a write whose flush cannot create its table. -/
def failingWrite : List Event :=
  List.replicate 9 (.clientStep .ok) ++ [.clientStep (.fail "No space left on device")]

def failedReply : Reply := .status (.ioError "open db/000001.sst: No space left on device")

/-- The state in which the write of `failingWrite` is about to append its record. -/
def beforeAppend : List Event := [.clientStep .ok]

/-- The reply to a write whose record cannot be appended. -/
def failedAppendReply : Reply := .status (.ioError "write db/wal.log: No space left on device")

/-- Twice the same write: first its flush fails, then its append to the log. -/
theorem failed_write_atomic_eager :
    let s := Policy.wholeLogs.reach (Event.opening eagerConfig 8)
    (∃ s' : System, s'.history = [(.put [1] [2], failedReply)] ∧
      ∃ m m', s.world.Serves m ∧ s'.world.Serves m' ∧
        (m' = m ∨ m' = m.apply ⟨[1], [2], .value⟩) ∧
        (Recovers exampleConfig s'.world.disk m' ∨
          Recovers exampleConfig s'.world.disk (m.apply ⟨[1], [2], .value⟩))) ∧
    ∃ s' : System, s'.history = [(.put [1] [2], failedAppendReply)] ∧
      ∃ m, s.world.Serves m ∧ s'.world.Serves m := by
  intro s
  let s₁ := (s.next (.invoke (.put [1] [2]))).get (by decide +kernel)
  have hinvoke : s.next (.invoke (.put [1] [2])) = some s₁ := (Option.some_get _).symm
  obtain ⟨cfg, bg, hp, -⟩ := next_invoke hinvoke
  have hlog := logAgrees_of_reachable (Policy.reachable_reach _ _) hp
  -- a failure after the append, and a failure of the append
  constructor
  · let s₂ := Policy.any.silently s₁ failingWrite
    let s' := (s₂.next .clientReturn).get (by decide +kernel)
    have hreturn : s₂.next .clientReturn = some s' := (Option.some_get _).symm
    have hhistory : s'.history = s.history ++ [(.put [1] [2], failedReply)] := by decide +kernel
    obtain ⟨m, m', hm, hm', hcases, -, hrecovers⟩ :=
      failed_write_atomic (Policy.reachable_reach _ _).any rfl (by decide) hinvoke
        (Policy.any.silent_silently s₁ failingWrite) hreturn hhistory (by decide) exampleConfig
    exact ⟨s', by decide +kernel, m, m', hm, hm', hcases, hrecovers hlog⟩
  · let s₃ := Policy.any.silently s₁ beforeAppend
    let s₂ := (s₃.next (.clientStep (.fail "No space left on device"))).get (by decide +kernel)
    let s' := (s₂.next .clientReturn).get (by decide +kernel)
    have hreturn : s₂.next .clientReturn = some s' := (Option.some_get _).symm
    have hhistory : s'.history = s.history ++ [(.put [1] [2], failedAppendReply)] := by
      decide +kernel
    have hbefore := Policy.any.silent_silently s₁ beforeAppend
    have hfails : Policy.any.AppendFails s₃ s₂ :=
      ⟨_, Policy.permits_sound (by decide +kernel), (Option.some_get _).symm, by decide +kernel⟩
    obtain ⟨m, m', hm, hm', -, hsame, -⟩ :=
      failed_write_atomic (Policy.reachable_reach _ _).any rfl (by decide) hinvoke
        (hbefore.tail hfails.silent) hreturn hhistory (by decide) exampleConfig
    rw [hsame ⟨s₃, s₂, hbefore, hfails, .refl⟩] at hm'
    exact ⟨s', by decide +kernel, m, hm, hm'⟩

/-- A write that returns an error because its flush has failed is in effect, in the process and
    after a crash. -/
theorem failed_write_in_effect :
    let s := Policy.any.reach (Event.opening eagerConfig 8)
    let s' := Policy.any.reach (Event.opening eagerConfig 8 ++ .invoke (.put [1] [2]) ::
      failingWrite ++ [.clientReturn])
    s'.history = [(.put [1] [2], failedReply)] ∧
      s.world.answer [1] = some .notFound ∧ s'.world.answer [1] = some (.found [2]) ∧
      (DB.reopen exampleConfig s'.world.disk).bind (fun p => p.2.answer [1]) =
        some (.found [2]) := by
  decide +kernel

end Lsmdb
