import Lsmdb.ForStd.Simulation
import Lsmdb.Spec.ThreadRules

/-!
# What the client sees of a run

Three transition systems with the same observations: the engine with its threads and
condition variables (`Sync.lts`), the engine of `Lsmdb.Native.System` (`Policy.lts`), and
the map that a client is to see (`durableMap`). The client sees its calls, what they
return, and that the process has died. It does not see `DB::Open`, which may be tried
again after a failure, nor `TEST_WaitForCompactions`.
-/

namespace Lsmdb

/-! ## The map -/

/-- What is stored, and the call that is running. -/
structure MapState where
  store : Store := .empty
  running : Option Op := none

/-- What a write that returns has done. Only a write that has returned an error may or may not
    have taken effect. -/
def Wrote (faulty : Prop) (m : Store) (e : Entry) (s : Status) (m' : Store) : Prop :=
  s = .OK ∧ m' = m.apply e ∨ s.ok = false ∧ faulty ∧ (m' = m ∨ m' = m.apply e)

/-- What a call may return and leave stored, in a system where calls to files fail or do not. -/
def Legal (faulty : Prop) (m : Store) : Op → Reply → Store → Prop
  | .put k v, .status s, m' => Wrote faulty m ⟨k, v, .value⟩ s m'
  | .delete k, .status s, m' => Wrote faulty m ⟨k, [], .tombstone⟩ s m'
  | .flush, .status s, m' => m' = m ∧ (s = .OK ∨ s.ok = false ∧ faulty)
  | .get k, .lookup r, m' => m' = m ∧ r.value = m k
  | .scan start end_, .scan s out, m' => m' = m ∧ s = .OK ∧
    (out.map Prod.fst).Pairwise (· < ·) ∧
    ∀ k v, (k, v) ∈ out ↔ start ≤ k ∧ (end_ ≠ [] → k < end_) ∧ m k = some v
  | .close, .status s, m' => m' = m ∧ s = .OK
  | _, _, _ => False

/-- What a crash leaves stored: the write that was running may or may not have taken effect. -/
def CrashLeaves (m : Store) (running : Option Op) (m' : Store) : Prop :=
  m' = m ∨ ∃ op e, running = some op ∧ op.entry = some e ∧ m' = m.apply e

/-- A map whose calls take effect one after the other, and which outlives the process. -/
def durableMap (faulty : Prop) : LTS MapState Act where
  step a o a' :=
    (∃ op, o = [.call op] ∧ a.running = none ∧ a' = ⟨a.store, some op⟩) ∨
    (∃ op r, o = [.reply op r] ∧ a.running = some op ∧ Legal faulty a.store op r a'.store ∧
      a'.running = none) ∨
    (o = [.crash] ∧ CrashLeaves a.store a.running a'.store ∧ a'.running = none)

/-! ## The engine -/

/-- Calls to files may fail. -/
def Policy.Faulty (pol : Policy) : Prop := pol.faults = true ∨ pol.logFaults = true

def Policy.lts (pol : Policy) : LTS System Act := pol.machine.lts

/-- What the transition system reaches is reachable. -/
theorem Policy.reachable_of_reaches {pol : Policy} {s : System} (h : pol.lts.Reaches System.init s) :
    pol.Reachable s := by
  apply Relation.ReflTransGen.mono _ _ _ h
  intro s s' hstep
  obtain ⟨o, e, hpermits, hnext, -⟩ := hstep
  exact ⟨e, hpermits, hnext⟩

namespace Sync

/-- What an event shows. -/
def Event.shows (s : System) : Event → List Act
  | .invoke op => [.call op]
  | .clientReturn =>
    match s.process with
    | .up _ (.running op (.ret r)) _ => [.reply op r]
    | _ => []
  | .kill => [.crash]
  | .open _ | .openStep _ | .openReturn | .waitForCompactions | .clientStep _ | .workerStep _
  | .workerReturn | .join => []

/-- Checks `Allows`. -/
def allows (pol : Policy) : Call → Choice → World → Bool
  | .base c, .base ch, w => pol.allows c ch w.toWorld
  | _, _, _ => true

/-- The test of a call is sound. -/
theorem allows_sound {pol : Policy} {c : Call} {ch : Choice} {w : World}
    (h : allows pol c ch w = true) : Allows pol c ch w := by
  cases c with
  | base c =>
    cases ch with
    | spurious => trivial
    | base ch => exact Policy.allows_sound h
  | loadBusy | storeBusy | notifyAll | sleep | wake => trivial

/-- Checks `Permits`. -/
def permits (pol : Policy) (s : System) : Event → Bool
  | .open cfg => decide (pol.Opens cfg s.world.disk.log)
  | .openStep ch =>
    match s.process with
    | .opening _ (.call c _) => c.mayFail pol.faults pol.logFaults ch
    | _ => true
  | .invoke op => decide op.Fits
  | .clientStep ch =>
    match s.process with
    | .up _ client _ => client.nextCall.all fun c => allows pol c ch s.world
    | _ => true
  | .workerStep ch =>
    match s.process with
    | .up _ _ worker => worker.nextCall.all fun c => allows pol c ch s.world
    | _ => true
  | .kill => pol.kills
  | .openReturn | .waitForCompactions | .clientReturn | .workerReturn | .join => true

/-- The test of an event is sound. -/
theorem permits_sound {pol : Policy} {s : System} {e : Event} (h : permits pol s e = true) :
    Permits pol s e := by
  -- what a thread does next is allowed if the check of its call passes
  have hcall {next : Option Call} {ch : Choice}
      (hall : (next.all fun c => allows pol c ch s.world) = true) :
      ∀ c ∈ next, Allows pol c ch s.world :=
    fun c hc => allows_sound (Option.all_eq_true _ _ |>.mp hall c hc)
  cases e with
  | «open» cfg =>
    show pol.Opens cfg s.world.disk.log
    exact of_decide_eq_true h
  | invoke op =>
    show op.Fits
    exact of_decide_eq_true h
  | openStep ch =>
    simp only [permits, Permits] at h ⊢
    split
    next hp => rw [hp] at h; exact Call.mayFail_sound h
    next => trivial
  | clientStep ch =>
    simp only [permits, Permits] at h ⊢
    split
    next hp => rw [hp] at h; exact hcall h
    next => trivial
  | workerStep ch =>
    simp only [permits, Permits] at h ⊢
    split
    next hp => rw [hp] at h; exact hcall h
    next => trivial
  | kill => exact h
  | openReturn | waitForCompactions | clientReturn | workerReturn | join => trivial

/-- The engine with its threads under a policy. -/
def machine (pol : Policy) : Machine System Event Act where
  permits := Permits pol
  next := System.next
  shows s e := e.shows s
  check := permits pol
  check_sound := permits_sound

def lts (pol : Policy) : LTS System Act := (machine pol).lts

/-- A step is an event that the policy permits, with what it shows. -/
theorem lts_step {pol : Policy} {s s' : System} {o : List Act} : (lts pol).step s o s' ↔
    ∃ e, Permits pol s e ∧ s.next e = some s' ∧ o = e.shows s := Iff.rfl

/-- What is reachable is what the transition system reaches. -/
theorem reachable_iff_reaches {pol : Policy} {s : System} :
    Reachable pol s ↔ (lts pol).Reaches System.init s := by
  have hstep (s s' : System) : Step pol s s' ↔ ∃ o, (lts pol).step s o s' := by
    constructor
    · rintro ⟨e, hpermits, hnext⟩
      exact ⟨_, e, hpermits, hnext, rfl⟩
    · rintro ⟨o, e, hpermits, hnext, -⟩
      exact ⟨e, hpermits, hnext⟩
  constructor
  · exact fun h => Relation.ReflTransGen.mono (fun s s' => (hstep s s').mp) _ _ h
  · exact fun h => Relation.ReflTransGen.mono (fun s s' => (hstep s s').mpr) _ _ h

/-! ## Runs that are given by their events -/

/-- The state that a run from an empty directory leads to. -/
def reach (pol : Policy) (es : List Event) : System :=
  (machine pol).reach (fun _ _ => true) System.init es

/-- What the machine reaches by events that pass the test is reachable. -/
theorem reachable_reach (pol : Policy) (es : List Event) : Reachable pol (reach pol es) := by
  have hstep : (fun s s' => (machine pol).Step s s' ∧ true = true) ≤ Step pol := fun _ _ h => h.1
  exact Relation.ReflTransGen.mono hstep _ _ (Machine.steps_reach _ System.init es)

/-- Checks what the threads of a process are at. -/
def Process.test (f : Client → Worker → Bool) : Process → Bool
  | up _ client worker => f client worker
  | down | opening _ _ => false

/-- The parts of an open process that passes a test. -/
theorem Process.exists_of_test {f : Client → Worker → Bool} {p : Process} (h : p.test f = true) :
    ∃ cfg client worker, p = .up cfg client worker ∧ f client worker = true := by
  cases p with
  | down => cases h
  | opening => cases h
  | up cfg client worker => exact ⟨cfg, client, worker, rfl, h⟩

def Client.isIdle : Client → Bool
  | idle => true
  | running _ _ | waiting _ | closing => false

/-- The test for an idle client. -/
theorem Client.eq_of_isIdle {client : Client} (h : client.isIdle = true) : client = .idle := by
  cases client <;> first | rfl | cases h

def Client.isClosing : Client → Bool
  | closing => true
  | idle | running _ _ | waiting _ => false

/-- The test for a client that has closed the database. -/
theorem Client.eq_of_isClosing {client : Client} (h : client.isClosing = true) :
    client = .closing := by
  cases client <;> first | rfl | cases h

/-- `TEST_WaitForCompactions` is about to return. -/
def Client.isDrained : Client → Bool
  | waiting (.ret goOn) => !goOn
  | waiting (.call _ _) | waiting .undef | idle | running _ _ | closing => false

/-- The test for a client whose waiting has ended. -/
theorem Client.eq_of_isDrained {client : Client} (h : client.isDrained = true) :
    client = .waiting (.ret false) := by
  cases client with
  | waiting p =>
    cases p with
    | ret goOn =>
      have hgoOn : goOn = false := Bool.not_eq_true' _ |>.mp h
      rw [hgoOn]
    | undef => cases h
    | call => cases h
  | idle => cases h
  | running => cases h
  | closing => cases h

def Worker.isCompacting : Worker → Bool
  | compacting _ _ => true
  | looking _ | ended => false

/-- The test for a compaction. -/
theorem Worker.eq_of_isCompacting {worker : Worker} (h : worker.isCompacting = true) :
    ∃ c p, worker = .compacting c p := by
  cases worker with
  | compacting c p => exact ⟨c, p, rfl⟩
  | looking => cases h
  | ended => cases h

/-- An event of the engine without the condition variables. -/
def Event.ofBase : Lsmdb.Event → Event
  | .open cfg => .open cfg
  | .openStep ch => .openStep ch
  | .openReturn => .openReturn
  | .invoke op => .invoke op
  | .clientStep ch => .clientStep (.base ch)
  | .clientReturn => .clientReturn
  | .backgroundStep ch => .workerStep (.base ch)
  | .backgroundReturn => .workerReturn
  | .join => .join
  | .kill => .kill

/-- The steps of opening a database in `n` calls. -/
def Event.opening (cfg : Config) (n : Nat) : List Event := (Lsmdb.Event.opening cfg n).map ofBase

/-- The steps of a call of the client that makes `n` calls itself. -/
def Event.calling (op : Op) (n : Nat) : List Event := (Lsmdb.Event.calling op n).map ofBase

/-- The steps of a part of the loop of the compaction thread that makes `n` calls. -/
def Event.working (n : Nat) : List Event :=
  List.replicate n (.workerStep (.base .ok)) ++ [.workerReturn]

end Sync

end Lsmdb
