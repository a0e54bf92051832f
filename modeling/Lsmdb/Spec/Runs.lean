import Lsmdb.ForStd.Simulation
import Lsmdb.Native.System
import Lsmdb.Spec.Invariant

/-!
# Runs and what can be observed of them

A run is a sequence of steps of the system, each allowed by a `Policy`: which calls may
fail, whether the process may be killed, and whether a log that ends inside a frame may
be there when the database is opened.

Every policy has the same limits besides, and so has every result about runs: the database
is opened with `l0_compaction_trigger` at least 1 (`Policy.Opens`), the record of a write
fits a frame of the log (`Op.Fits`), and what is stored fits the fields of the formats
(`Call.Fits`): every block of a table with its checksum stays below `2 ^ 32` bytes, the bit
count of a filter too, a table below `2 ^ 64` bytes, the counts and key lengths of a
manifest below `2 ^ 32`, and file numbers below `2 ^ 64`. The code checks none of them.

What a client can see of a state is `World.Serves`, and what it would see after a crash
is `Recovers`. Both evaluate the programs of `Get` and `Recover`.
-/

namespace Lsmdb

/-! ## Runs -/

structure Policy where
  /-- File-system calls may fail, those that append to the log apart. -/
  faults : Bool
  /-- The calls that append to the log may fail. -/
  logFaults : Bool
  kills : Bool
  /-- The database may be opened with a log that is not a sequence of whole frames. -/
  tornLogs : Bool

namespace Policy

/-- Nothing fails. -/
def faultless : Policy := ⟨false, false, false, true⟩

/-- Anything can happen. -/
def any : Policy := ⟨true, true, true, true⟩

/-- Anything can happen, except that a record is appended behind a part of another. -/
def wholeLogs : Policy := ⟨true, false, true, false⟩

end Policy

/-- The record that a call writes. -/
def Op.entry : Op → Option Entry
  | put k v => some ⟨k, v, .value⟩
  | delete k => some ⟨k, [], .tombstone⟩
  | flush | get _ | scan _ _ | close => none

/-- The outcomes of a call that a run may have. -/
def Policy.Allows (pol : Policy) (c : Call) (ch : Choice) (w : World) : Prop :=
  c.Fits w ∧ c.MayFail pol.faults pol.logFaults ch

/-- The record that a call writes fits the fields of the log. -/
def Op.Fits (op : Op) : Prop := ∀ e ∈ op.entry, e.WalFits

instance (op : Op) : Decidable op.Fits :=
  decidable_of_iff (op.entry.all fun e => decide e.WalFits) (by simp [Op.Fits, Option.all_eq_true])

/-- A database may be opened with these options and this log. -/
def Policy.Opens (pol : Policy) (cfg : Config) (log : Bytes) : Prop :=
  1 ≤ cfg.options.l0CompactionTrigger ∧ (pol.tornLogs = true ∨ WholeFrames log)

instance (pol : Policy) (cfg : Config) (log : Bytes) : Decidable (pol.Opens cfg log) :=
  inferInstanceAs (Decidable (_ ∧ _))

/-- The steps that a run may take. -/
def Policy.Permits (pol : Policy) (s : System) : Event → Prop
  | .open cfg => pol.Opens cfg s.world.disk.log
  | .openStep ch =>
    match s.process with
    | .opening _ (.call c _) => c.MayFail pol.faults pol.logFaults ch
    | _ => True
  | .invoke op => op.Fits
  | .clientStep ch =>
    match s.process with
    | .up _ (.running _ (.call c _)) _ => pol.Allows c ch s.world
    | _ => True
  | .backgroundStep ch =>
    match s.process with
    | .up _ _ (some (.call c _)) => pol.Allows c ch s.world
    | _ => True
  | .kill => pol.kills = true
  | .openReturn | .clientReturn | .backgroundReturn | .join => True

def Policy.Step (pol : Policy) (s s' : System) : Prop :=
  ∃ e, pol.Permits s e ∧ s.next e = some s'

/-- The states that runs from an empty directory reach. -/
def Policy.Reachable (pol : Policy) (s : System) : Prop :=
  Relation.ReflTransGen pol.Step System.init s

def Process.IsUp : Process → Prop
  | up _ _ _ => True
  | down | opening _ _ => False

instance : DecidablePred Process.IsUp
  | .up _ _ _ => isTrue trivial
  | .down | .opening _ _ => isFalse id

/-- The client is between two calls. -/
def Process.IsIdle : Process → Prop
  | up _ .idle _ => True
  | up _ _ _ | down | opening _ _ => False

instance : DecidablePred Process.IsIdle
  | .up _ .idle _ => isTrue trivial
  | .up _ (.running _ _) _ | .up _ .closing _ | .down | .opening _ _ => isFalse id

/-- The parts of an open database without a call under way. -/
theorem Process.IsIdle.exists {p : Process} (h : p.IsIdle) : ∃ cfg bg, p = .up cfg .idle bg := by
  cases p with
  | down | opening => exact h.elim
  | up cfg client bg =>
    cases client with
    | idle => exact ⟨cfg, bg, rfl⟩
    | running | closing => exact h.elim

/-- The write that is running. -/
def Process.writing : Process → Option Entry
  | up _ (.running op _) _ => op.entry
  | up _ _ _ | down | opening _ _ => none

/-- A step of the process that has the database open. -/
def Policy.Live (pol : Policy) (s s' : System) : Prop :=
  pol.Step s s' ∧ s.process.IsUp ∧ s'.process.IsUp

/-- No write returns in the step. -/
def NoAck (s s' : System) : Prop := s.process.writing = none ∨ s'.history = s.history

instance (s s' : System) : Decidable (NoAck s s') := inferInstanceAs (Decidable (_ ∨ _))

/-- A step of a process in which no write returns. -/
def Policy.Silent (pol : Policy) (s s' : System) : Prop := pol.Live s s' ∧ NoAck s s'

/-- A failure that some policy allows is allowed if everything may fail. -/
theorem Call.MayFail.any {faults logFaults : Bool} {c : Call} {ch : Choice}
    (h : c.MayFail faults logFaults ch) : c.MayFail true true ch := by
  cases ch with
  | ok | short => cases c <;> trivial
  | fail errno =>
    cases c with
    -- the log and the other files have flags of their own
    | write name _ | fsync name =>
      show if name = walName then true = true else true = true
      rw [ite_self]
    | _ => rfl
  | inputs readers =>
    cases c with
    | mapInputs readers' => exact ⟨rfl, h.2⟩
    | _ => trivial

/-- A step of a policy is one if everything may fail. -/
theorem Policy.Step.any {pol : Policy} {s s' : System} (h : pol.Step s s') :
    Policy.any.Step s s' := by
  obtain ⟨e, hpermits, hnext⟩ := h
  refine ⟨e, ?_, hnext⟩
  cases e with
  -- without restrictions any log may be reopened
  | «open» cfg => exact ⟨hpermits.1, .inl rfl⟩
  | openStep ch =>
    simp only [Permits] at hpermits ⊢
    split
    next hp => rw [hp] at hpermits; exact hpermits.any
    next => trivial
  | invoke op => exact hpermits
  | clientStep ch =>
    simp only [Permits] at hpermits ⊢
    split
    next hp => rw [hp] at hpermits; exact ⟨hpermits.1, hpermits.2.any⟩
    next => trivial
  | backgroundStep ch =>
    simp only [Permits] at hpermits ⊢
    split
    next hp => rw [hp] at hpermits; exact ⟨hpermits.1, hpermits.2.any⟩
    next => trivial
  | kill => rfl
  | openReturn | clientReturn | backgroundReturn | join => trivial

/-- Everything that runs under a policy reach is reached when anything can happen. -/
theorem Policy.Reachable.any {pol : Policy} {s : System} (h : pol.Reachable s) :
    Policy.any.Reachable s := by
  have hstep : pol.Step ≤ Policy.any.Step := fun _ _ hstep => hstep.any
  exact Relation.ReflTransGen.mono hstep _ _ h

/-! ## Runs that are given by their events -/

/-- Success is always possible. -/
theorem Call.mayFail_ok (faults logFaults : Bool) (c : Call) : c.MayFail faults logFaults .ok := by
  cases c <;> trivial

/-- So is a short read or write. -/
private theorem Call.mayFail_short (faults logFaults : Bool) (c : Call) (n : Nat) :
    c.MayFail faults logFaults (.short n) := by
  cases c <;> trivial

/-- Checks `Call.MayFail`, damage to inputs apart. -/
def Call.mayFail (faults logFaults : Bool) (c : Call) : Choice → Bool
  | .ok | .short _ => true
  | .fail _ =>
    match c with
    | write name _ | fsync name => if name = walName then logFaults else faults
    | _ => faults
  | .inputs _ => false

/-- The test of a failure is sound. -/
theorem Call.mayFail_sound {faults logFaults : Bool} {c : Call} {ch : Choice}
    (h : c.mayFail faults logFaults ch = true) : c.MayFail faults logFaults ch := by
  cases ch with
  | ok => exact c.mayFail_ok _ _
  | short n => exact c.mayFail_short _ _ n
  | inputs => cases h
  | fail errno =>
    cases c with
    -- the log has a flag of its own
    | write name _ | fsync name =>
      simp only [mayFail] at h
      show if name = walName then _ else _
      split
      next hname => rwa [if_pos hname] at h
      next hname => rwa [if_neg hname] at h
    | _ => exact h

/-- Checks `Policy.Allows`. -/
def Policy.allows (pol : Policy) (c : Call) (ch : Choice) (w : World) : Bool :=
  decide (c.Fits w) && c.mayFail pol.faults pol.logFaults ch

/-- The test of a step of a program is sound. -/
theorem Policy.allows_sound {pol : Policy} {c : Call} {ch : Choice} {w : World}
    (h : pol.allows c ch w = true) : pol.Allows c ch w := by
  rw [allows, Bool.and_eq_true, decide_eq_true_iff] at h
  exact ⟨h.1, Call.mayFail_sound h.2⟩

/-- Checks `Policy.Permits`. -/
def Policy.permits (pol : Policy) (s : System) : Event → Bool
  | .open cfg => decide (pol.Opens cfg s.world.disk.log)
  | .openStep ch =>
    match s.process with
    | .opening _ (.call c _) => c.mayFail pol.faults pol.logFaults ch
    | _ => true
  | .invoke op => decide op.Fits
  | .clientStep ch =>
    match s.process with
    | .up _ (.running _ (.call c _)) _ => pol.allows c ch s.world
    | _ => true
  | .backgroundStep ch =>
    match s.process with
    | .up _ _ (some (.call c _)) => pol.allows c ch s.world
    | _ => true
  | .kill => pol.kills
  | .openReturn | .clientReturn | .backgroundReturn | .join => true

/-- The test of an event is sound. -/
theorem Policy.permits_sound {pol : Policy} {s : System} {e : Event} (h : pol.permits s e = true) :
    pol.Permits s e := by
  cases e with
  | «open» cfg =>
    show pol.Opens cfg s.world.disk.log
    exact of_decide_eq_true h
  | invoke op =>
    show op.Fits
    exact of_decide_eq_true h
  -- a step is tested on the next call of its program
  | openStep ch =>
    simp only [permits, Permits] at h ⊢
    split
    next hp => rw [hp] at h; exact Call.mayFail_sound h
    next => trivial
  | clientStep ch =>
    simp only [permits, Permits] at h ⊢
    split
    next hp => rw [hp] at h; exact allows_sound h
    next => trivial
  | backgroundStep ch =>
    simp only [permits, Permits] at h ⊢
    split
    next hp => rw [hp] at h; exact allows_sound h
    next => trivial
  | kill => exact h
  | openReturn | clientReturn | backgroundReturn | join => trivial

/-- What the client sees of a run: its calls, what they return, and that the process has died. -/
inductive Act
  | call (op : Op)
  | reply (op : Op) (r : Reply)
  | crash
  deriving DecidableEq

/-- What an event shows. -/
def Event.shows (s : System) : Event → List Act
  | .invoke op => [.call op]
  | .clientReturn =>
    match s.process with
    | .up _ (.running op (.ret r)) _ => [.reply op r]
    | _ => []
  | .kill => [.crash]
  | .open _ | .openStep _ | .openReturn | .clientStep _ | .backgroundStep _ | .backgroundReturn
  | .join => []

/-- The engine under a policy. -/
def Policy.machine (pol : Policy) : Machine System Event Act where
  permits := pol.Permits
  next := System.next
  shows s e := e.shows s
  check := pol.permits
  check_sound := permits_sound

/-- The state that a run from an empty directory leads to. -/
def Policy.reach (pol : Policy) (es : List Event) : System :=
  pol.machine.reach (fun _ _ => true) System.init es

/-- What the machine reaches by events that pass the test is reachable. -/
theorem Policy.reachable_reach (pol : Policy) (es : List Event) : pol.Reachable (pol.reach es) := by
  have hstep : (fun s s' => pol.machine.Step s s' ∧ true = true) ≤ pol.Step := fun _ _ h => h.1
  exact Relation.ReflTransGen.mono hstep _ _ (Machine.steps_reach _ System.init es)

/-- The state that a run of a process leads to in which no write returns. -/
def Policy.silently (pol : Policy) (s : System) (es : List Event) : System :=
  pol.machine.reach (fun s s' => decide (s.process.IsUp ∧ s'.process.IsUp ∧ NoAck s s')) s es

/-- What it reaches by silent events is reachable by silent steps. -/
theorem Policy.silent_silently (pol : Policy) (s : System) (es : List Event) :
    Relation.ReflTransGen pol.Silent s (pol.silently s es) := by
  apply Relation.ReflTransGen.mono _ _ _ (Machine.steps_reach _ s es)
  intro s s' h
  obtain ⟨hup, hup', hno⟩ := of_decide_eq_true h.2
  exact ⟨⟨h.1, hup, hup'⟩, hno⟩

/-- The steps of opening a database in `n` calls. -/
def Event.opening (cfg : Config) (n : Nat) : List Event :=
  .open cfg :: List.replicate n (.openStep .ok) ++ [.openReturn]

/-- The steps of a call of the client that makes `n` calls itself. -/
def Event.calling (op : Op) (n : Nat) : List Event :=
  .invoke op :: List.replicate n (.clientStep .ok) ++ [.clientReturn]

/-- A database to take examples from. -/
def exampleConfig : Config where
  options := { bloomBitsPerKey := 1 }
  dir := "db"
  rng _ := ⟨0, SkipList.kMaxLevel_pos⟩

/-- A key is written, flushed and written again. -/
def overwriting : List Event :=
  Event.opening exampleConfig 8 ++ Event.calling (.put [1] [2]) 5 ++ Event.calling .flush 27 ++
    Event.calling (.put [1] [3]) 5

/-- A key is written and flushed twice. -/
def flushingTwice : List Event := overwriting ++ Event.calling .flush 27

/-- A database that compacts after every flush, into tables of one record each. -/
def splittingConfig : Config :=
  { exampleConfig with
    options := { bloomBitsPerKey := 1, l0CompactionTrigger := 1, targetFileSize := 0 } }

/-- A flush is compacted into two tables of L1. Before these are installed, one of the keys is
    deleted and that is flushed, too. -/
def compactingUnderFlush : List Event :=
  Event.opening splittingConfig 8 ++ Event.calling (.put [1] [2]) 5 ++
    Event.calling (.put [2] [3]) 5 ++ Event.calling .flush 27 ++
    List.replicate 27 (.backgroundStep .ok) ++ Event.calling (.delete [1]) 5 ++
    Event.calling .flush 27 ++ List.replicate 11 (.backgroundStep .ok) ++ [.backgroundReturn]

/-! ## Observations -/

/-- The writes that have returned `OK`. -/
def acks (history : List (Op × Reply)) : List Entry :=
  history.filterMap fun (op, r) => if r = .status .OK then op.entry else none

/-- Every write has returned `OK`. -/
def WritesSucceed (history : List (Op × Reply)) : Prop :=
  ∀ op r, (op, r) ∈ history → op.entry ≠ none → r = .status .OK

/-- Every answer of `Get` is what the writes before it say. -/
def Answers (history : List (Op × Reply)) : Prop :=
  ∀ before k r after, history = before ++ (.get k, .lookup r) :: after →
    r.value = Store.empty.applyAll (acks before) k

/-- The calls that the threads make next. -/
def System.calls (s : System) : List Call :=
  match s.process with
  | .opening _ (.call c _) => [c]
  | .up _ client bg =>
    (match client with
      | .running _ (.call c _) => [c]
      | _ => []) ++
    (match bg with
      | some (.call c _) => [c]
      | _ => [])
  | _ => []

/-- What `Get` returns when it finds the mutex free. -/
def World.answer (w : World) (k : Bytes) : Option LookupResult :=
  ((DB.get k).eval (exec .client) .ok { w with mutex := none }).map (·.1)

/-- `Get` returns, and with the value of the store, for every key. -/
def World.Serves (w : World) (m : Store) : Prop :=
  ∀ k, ∃ r, w.answer k = some r ∧ r.value = m k

/-- A process serves one store. -/
theorem World.Serves.unique {w : World} {m m' : Store} (h : w.Serves m) (h' : w.Serves m') :
    m = m' := by
  funext k
  obtain ⟨r, hr, hvalue⟩ := h k
  obtain ⟨r', hr', hvalue'⟩ := h' k
  cases hr.symm.trans hr'
  rw [← hvalue, hvalue']

/-- What `Recover` returns on a directory, and the database it leaves. -/
def DB.reopen (cfg : Config) (disk : Disk) : Option (Except Status Unit × World) :=
  (DB.recover cfg).run.eval (exec .client) .ok (World.fresh cfg disk)

/-- `Recover` returns `OK`, and the database it opens serves the store. -/
def Recovers (cfg : Config) (disk : Disk) (m : Store) : Prop :=
  ∃ w, DB.reopen cfg disk = some (.ok (), w) ∧ w.Serves m

/-- A call that has returned adds its write if it was acknowledged. -/
theorem acks_append_singleton (history : List (Op × Reply)) (op : Op) (r : Reply) :
    acks (history ++ [(op, r)]) =
      acks history ++ (if r = .status .OK then op.entry else none).toList := by
  rw [acks, List.filterMap_append, ← acks]
  congr 1

/-- A call more that writes nothing, or whose write has returned `OK`. -/
theorem WritesSucceed.append {history : List (Op × Reply)} (h : WritesSucceed history) {op : Op}
    {r : Reply} (hnew : op.entry ≠ none → r = .status .OK) :
    WritesSucceed (history ++ [(op, r)]) := by
  intro op' r' hmem hwrite
  rcases List.mem_append.mp hmem with hmem | hmem
  · exact h op' r' hmem hwrite
  · cases List.mem_singleton.mp hmem
    exact hnew hwrite

/-- An answer more. -/
theorem Answers.append {history : List (Op × Reply)} (h : Answers history) {op : Op} {r : Reply}
    (hnew : ∀ k a, op = .get k → r = .lookup a →
      a.value = Store.empty.applyAll (acks history) k) : Answers (history ++ [(op, r)]) := by
  intro before k a after heq
  cases after using List.reverseRecOn with
  | nil =>
    obtain ⟨rfl, hlast⟩ := List.append_inj' heq rfl
    cases hlast
    exact hnew k a rfl rfl
  | append_singleton after last =>
    rw [← List.cons_append, ← List.append_assoc] at heq
    exact h before k a after (List.append_inj' heq rfl).1

end Lsmdb
