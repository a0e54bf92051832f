import Lsmdb.Spec.DrainCorrect
import Lsmdb.Spec.TableOwnership

/-!
# Tables and threads

What follows from whose tables these are. Without failures the directory holds the tables of
the version and no others, whenever nothing is running that writes or removes one, also
behind a kill (`no_table_left_behind`). And the threads are never about to use the same
member of `DB` or the same file (`no_data_race`): the mutex guards what both use, the memtable,
the block cache and the log are the client's alone, and a table is written by the thread that
has taken its number. The counters of the readers are not among these members (`Loc`).
-/

namespace Lsmdb

open Prog

namespace Sync

variable {τ : Thread → Tables} {pol : Policy} {cfg : Config} {client : Client} {worker : Worker}

/-! ## No table is left behind -/

/-- Outside a compaction the background thread has no table. -/
theorem Worker.clear_of_owns {s : Tables} (h : WorkerOwns s worker) (hw : worker.isCompacting = false) :
    s.Clear := by
  cases worker with
  | looking p => exact h.1
  | compacting c p => cases hw
  | ended => exact h

/-- Outside a call the client has none. -/
theorem Client.clear_of_owns {s : Tables} (h : ClientOwns s client) (hc : client.op = none) :
    s.Clear := by
  cases client with
  | running op p => cases hc
  | idle | waiting | closing =>
    rw [show s = {} from h]
    exact ⟨rfl, rfl⟩

/-- In a run without failures and within the limits of the formats, in which the process may be
    killed at any moment, the tables in the directory are those of the version whenever no call of
    the client and no compaction is running. Beyond the limits a compaction that cannot open its
    output leaves it behind. -/
theorem no_table_left_behind {s : System} (hpol : ¬ pol.Faulty) (h : Reachable pol s)
    (hp : s.process = .up cfg client worker) (hclient : client.op = none)
    (hworker : worker.isCompacting = false) (n : Nat) :
    numberToName n ∈ s.world.disk ↔ n ∈ s.world.current.numbers := by
  constructor
  · have htended := Tended.of_reachable h
    rw [Tended, hp] at htended
    obtain ⟨τ, hkept, hc, hw⟩ := htended
    have hclear (t : Thread) : (τ t).Clear := by
      cases t with
      | client => exact Client.clear_of_owns hc hclient
      | background => exact Worker.clear_of_owns hw hworker
    intro hn
    -- neither thread has a table of its own
    apply (hkept.accounted hpol n hn).resolve_right
    rintro ⟨t, ht⟩
    obtain ⟨hmine, htrash⟩ := hclear t
    simp [hmine, htrash] at ht
  · intro hn
    obtain ⟨g, hg⟩ := Serving.of_reachable h hp
    obtain ⟨f, hf, rfl⟩ := Version.mem_numbers.mp hn
    exact AList.lookup_isSome.mp (by rw [hg.inv.current_files f hf]; rfl)

/-- A flush that has begun its table. -/
def flushBegun : List Event :=
  Event.opening drainingConfig 8 ++ Event.calling (.put [1] [2]) 5 ++
    .invoke .flush :: List.replicate 5 (.clientStep (.base .ok))

/-- The process is killed in a flush. The table that this has begun is gone when the database has
    been opened again. -/
theorem no_table_left_behind_flushBegun :
    numberToName 1 ∈ (reach ⟨false, false, true, true⟩ flushBegun).world.disk ∧
      numberToName 1 ∉ (reach ⟨false, false, true, true⟩
        (flushBegun ++ .kill :: Event.opening drainingConfig 9)).world.disk := by
  refine ⟨by decide +kernel, fun hn => ?_⟩
  have hpol : ¬ (Policy.mk false false true true).Faulty := by
    rintro (h | h) <;> cases h
  have htest : (reach ⟨false, false, true, true⟩
      (flushBegun ++ .kill :: Event.opening drainingConfig 9)).process.test
        (fun client worker => client.isIdle && !worker.isCompacting) = true := by decide +kernel
  obtain ⟨cfg, client, worker, hp, htest⟩ := Process.exists_of_test htest
  obtain ⟨hidle, hlooking⟩ := Bool.and_eq_true_iff.mp htest
  have hn := (no_table_left_behind hpol (reachable_reach _ _) hp
    (by rw [Client.eq_of_isIdle hidle]; rfl) (Bool.not_eq_true' _ |>.mp hlooking) 1).mp hn
  -- the table was begun and never installed
  have hempty : (reach ⟨false, false, true, true⟩
    (flushBegun ++ .kill :: Event.opening drainingConfig 9)).world.current.numbers = ∅ := by
    decide +kernel
  rw [hempty] at hn
  exact absurd hn (Finset.notMem_empty 1)

end Sync

variable {τ : Thread → Tables} {t : Thread} {a : Call} {w : World} {s : Tables}

/-! ## Who uses what -/

/-- What the threads share: members of `DB`, and files. The tables that a version holds are read
    through their mappings, which no call changes. A reader also counts the blocks it has read:
    `ReadBlock` increments `blocks_read_` without synchronisation, and both threads read tables of
    a version. That counter has no location here, the code has a race on it. -/
inductive Loc
  | current
  | fileNumber
  | shuttingDown
  | busy
  | mem
  | cache
  | wal
  | file (name : String)
  deriving DecidableEq

/-- What a call reads or changes. -/
def Call.locs : Call → List Loc
  | loadCurrent | storeCurrent _ => [.current]
  | takeFileNumber | loadFileNumber | storeFileNumber _ => [.fileNumber]
  | loadMem | storeMem _ => [.mem]
  | loadCache | storeCache _ => [.cache]
  | loadWal | storeWal _ => [.wal]
  | loadShuttingDown | storeShuttingDown => [.shuttingDown]
  | openTrunc name | openAppend name | openRead name | fstat name | mmap name | write name _
  | fsync name | close name | unlink name => [.file name]
  | rename src dst => [.file src, .file dst]
  | lock | unlock | readDir | mapInputs _ | tableDone _ _ => []

/-- What lets a thread use something. -/
def MayUse (t : Thread) (s : Tables) (w : World) : Loc → Prop
  | .current | .fileNumber | .shuttingDown | .busy => w.mutex = some t
  | .mem | .cache | .wal => t = .client
  | .file name => name = walName ∧ t = .client ∨
    (name = manifestTmpName ∨ name = manifestName) ∧ w.mutex = some t ∨
    ∃ n, name = numberToName n ∧ (n ∈ s.mine ∨ n ∈ s.noted ∧ w.mutex = some t)

/-- A thread may use the tables that it writes. -/
theorem mayUse_mine {name : String} (h : s.Writes name) : MayUse t s w (.file name) := by
  obtain ⟨n, hn, rfl⟩ := h
  exact .inr (.inr ⟨n, rfl, .inl hn⟩)

/-- The calls that the rules allow use only what they let the thread use. -/
private theorem mayUse_of_ok (hok : tableRules.ok s a) (hseen : s.seen ≠ none → w.mutex = some t)
    (hguarded : a.Guarded → w.mutex = some t) (hclient : a.ClientOnly → t = .client) {loc : Loc}
    (hloc : loc ∈ a.locs) : MayUse t s w loc := by
  have hwrite {name : String} (hname : s.Writes name ∨ name = walName ∨ name = manifestTmpName)
      (hlog : name = walName → t = .client) (hmanifest : name = manifestTmpName → w.mutex = some t) :
      MayUse t s w (.file name) := by
    rcases hname with hname | hname | hname
    · exact mayUse_mine hname
    · exact .inl ⟨hname, hlog hname⟩
    · exact .inr (.inl ⟨.inl hname, hmanifest hname⟩)
  -- the calls by what they are ruled by: the owner of a file, the mutex, or the client alone
  cases a with
  | lock | unlock | readDir | mapInputs | tableDone => cases hloc
  | rename src dst =>
    obtain ⟨rfl, rfl⟩ := hok
    rcases List.mem_pair.mp hloc with rfl | rfl
    · exact .inr (.inl ⟨.inl rfl, hguarded rfl⟩)
    · exact .inr (.inl ⟨.inr rfl, hguarded rfl⟩)
  | openTrunc | write | fsync =>
    rw [List.mem_singleton.mp hloc]
    exact hwrite hok hclient hguarded
  | close name =>
    rw [List.mem_singleton.mp hloc]
    rcases hok with hname | hname
    · exact mayUse_mine hname
    · exact .inr (.inl ⟨.inl hname, hguarded hname⟩)
  | openAppend name =>
    rw [List.mem_singleton.mp hloc]
    exact .inl ⟨hok, hclient hok⟩
  | openRead | fstat | mmap =>
    rw [List.mem_singleton.mp hloc]
    exact mayUse_mine hok
  | unlink name =>
    rw [List.mem_singleton.mp hloc]
    obtain ⟨hs, n, hn, rfl⟩ := hok
    exact .inr (.inr ⟨n, rfl, .inr ⟨hn, hseen hs⟩⟩)
  | loadCurrent | storeCurrent | takeFileNumber | loadFileNumber | storeFileNumber | loadShuttingDown
  | storeShuttingDown =>
    rw [List.mem_singleton.mp hloc]
    exact hguarded trivial
  | loadMem | storeMem | loadCache | storeCache | loadWal | storeWal =>
    rw [List.mem_singleton.mp hloc]
    exact hclient trivial

/-- Nothing may be used by both threads. -/
theorem MayUse.exclusive {loc : Loc} (howned : Owned τ w) (h : MayUse .client (τ .client) w loc)
    (h' : MayUse .background (τ .background) w loc) : False := by
  have hmutex (hc : w.mutex = some .client) (hb : w.mutex = some .background) : False := by
    rw [hc] at hb
    cases hb
  -- variables under the mutex, variables of the client, and files by their names
  cases loc with
  | current | fileNumber | shuttingDown | busy => exact hmutex h h'
  | mem | cache | wal => cases h'
  | file name =>
    rcases h' with ⟨-, ht⟩ | ⟨hname, hb⟩ | ⟨n, rfl, hn⟩
    · cases ht
    · rcases h with ⟨rfl, -⟩ | ⟨-, hc⟩ | ⟨m, rfl, -⟩
      · rcases hname with hname | hname <;> exact absurd hname (by decide)
      · exact hmutex hc hb
      · rcases hname with hname | hname
        · exact numberToName_ne_manifestTmpName m hname
        · exact numberToName_ne_manifestName m hname
    · rcases h with ⟨hname, -⟩ | ⟨hname | hname, -⟩ | ⟨m, hname, hm⟩
      · exact numberToName_ne_walName n hname
      · exact numberToName_ne_manifestTmpName n hname
      · exact numberToName_ne_manifestName n hname
      · -- two numbers are taken by different threads, or one of them is in a version
        obtain rfl := numberToName_injective hname
        rcases hn with hn | ⟨hn, hb⟩
        · rcases hm with hm | ⟨hm, -⟩
          · exact howned.apart .client n hm hn
          · exact (howned.new .background n hn).1 .client hm
        · rcases hm with hm | ⟨-, hc⟩
          · exact (howned.new .client n hm).1 .background hn
          · exact hmutex hc hb

namespace Sync

variable {pol : Policy} {options : Options} {cfg : Config} {c : ClientState} {k : WorkerState}
  {client : Client} {worker : Worker} {w : World} {a : Call} {loc : Loc}

/-- What a call reads or changes. -/
def Call.locs : Call → List Loc
  | base b => b.locs
  | loadBusy | storeBusy _ => [.busy]
  | notifyAll _ | sleep _ | wake _ _ => []

/-- The next call of a thread follows the rules of its program. -/
private theorem ok_of_erase {α σ : Type} {T : Typestate Lsmdb.Call Lsmdb.Call.Res σ} {p : SyncM α}
    {Q : α → σ → Prop} {s : σ} {b : Lsmdb.Call} (h : (erase p).Follows T Q s)
    (hb : nextCall p = some (.base b)) : T.ok s b := by
  cases p with
  | ret => cases hb
  | undef => cases hb
  | call a cont =>
    cases hb
    exact h.1

/-- What the client may use next. -/
theorem ClientOwns.mayUse (h : ClientOwns (τ .client) client) (howned : Owned τ w.toWorld)
    (hr : ClientRuled options c client) (hagree : Agree options c k w)
    (ha : client.nextCall = some a) (hloc : loc ∈ a.locs) :
    MayUse .client (τ .client) w.toWorld loc := by
  cases client with
  | idle => cases ha
  | closing => cases ha
  | running op p =>
    have hok : callRules.ok c a := ok_of_nextCall hr ha
    cases a with
    | base b =>
      exact mayUse_of_ok (ok_of_erase h ha) howned.mutex_of_seen
        (fun hg => hagree.client.mp (held_of_callRules hok hg)) (fun _ => rfl) hloc
    | notifyAll => cases hloc
    | _ => exact hok.elim
  -- a client that waits reads the version and the flag, under the mutex
  | waiting p =>
    have hok : (waitRules options).ok c a := ok_of_nextCall hr ha
    cases a with
    | base b =>
      cases b with
      | lock | unlock => cases hloc
      | loadCurrent =>
        rw [List.mem_singleton.mp hloc]
        exact hagree.client.mp hok.1
      | _ => exact hok.elim
    | loadBusy =>
      rw [List.mem_singleton.mp hloc]
      exact hagree.client.mp hok.1
    | storeBusy => exact hok.elim
    | notifyAll | sleep | wake => cases hloc

/-- What the compaction thread may use next. -/
theorem WorkerOwns.mayUse (h : WorkerOwns (τ .background) worker) (howned : Owned τ w.toWorld)
    (hr : WorkerRuled options k worker) (hagree : Agree options c k w)
    (ha : worker.nextCall = some a) (hloc : loc ∈ a.locs) :
    MayUse .background (τ .background) w.toWorld loc := by
  cases worker with
  | ended => cases ha
  | looking p =>
    have hok : (lookRules options).ok k a := ok_of_nextCall hr ha
    cases a with
    | base b =>
      cases b with
      | lock | unlock => cases hloc
      | loadShuttingDown | loadCurrent =>
        rw [List.mem_singleton.mp hloc]
        exact hagree.worker.mp hok
      | _ => exact hok.elim
    | storeBusy =>
      rw [List.mem_singleton.mp hloc]
      exact hagree.worker.mp hok.1
    | loadBusy => exact hok.elim
    | notifyAll | sleep | wake => cases hloc
  | compacting _ p =>
    have hok : compactRules.ok k a := ok_of_nextCall hr.2 ha
    cases a with
    | base b =>
      refine mayUse_of_ok (ok_of_erase h ha) howned.mutex_of_seen
        (fun hg => hagree.worker.mp (held_of_compactRules hok hg)) (fun hc => ?_) hloc
      -- a compaction does not use what is the client's alone
      cases b with
      | lock | unlock | storeShuttingDown => exact hc.elim
      | _ => exact absurd hc hok.2.1
    | _ => exact hok.elim

/-- Whatever the threads do next, they do not do it to the same member of `DB` or the same file. -/
theorem no_data_race {s : System} (h : Reachable pol s) (hp : s.process = .up cfg client worker)
    {a b : Call} (ha : client.nextCall = some a) (hb : worker.nextCall = some b) :
    a.locs.Disjoint b.locs := by
  have htended := Tended.of_reachable h
  rw [Tended, hp] at htended
  obtain ⟨τ, hkept, hclient, hworker⟩ := htended
  have hr := Ruled.of_reachable h
  rw [Ruled, hp] at hr
  obtain ⟨c, k, -, hrc, hrw, hagree⟩ := hr
  intro loc hloca hlocb
  exact MayUse.exclusive hkept.owned (hclient.mayUse hkept.owned hrc hagree ha hloca)
    (hworker.mayUse hkept.owned hrw hagree hb hlocb)

/-- A compaction and a flush, each at its table. -/
def twoWriters : List Event :=
  Event.opening drainingConfig 8 ++ Event.working 6 ++ Event.calling (.put [1] [2]) 5 ++
    Event.calling .flush 28 ++ Event.working 5 ++ List.replicate 6 (.workerStep (.base .ok)) ++
    Event.calling (.put [3] [4]) 5 ++ .invoke .flush :: List.replicate 4 (.clientStep (.base .ok))

/-- The client flushes into table 3 while a compaction writes table 2. -/
theorem no_data_race_twoWriters :
    let s := reach .any twoWriters
    ∃ cfg client worker a b, s.process = .up cfg client worker ∧ client.nextCall = some a ∧
      worker.nextCall = some b ∧ a.locs = [.file (numberToName 3)] ∧ b.locs = [.file (numberToName 2)] ∧
      a.locs.Disjoint b.locs := by
  intro s
  have htest : s.process.test (fun client worker =>
      decide (client.nextCall.map Call.locs = some [.file (numberToName 3)] ∧
        worker.nextCall.map Call.locs = some [.file (numberToName 2)])) = true := by decide +kernel
  obtain ⟨cfg, client, worker, hp, htest⟩ := Process.exists_of_test htest
  obtain ⟨hclient, hworker⟩ := of_decide_eq_true htest
  obtain ⟨a, ha, hla⟩ := Option.map_eq_some_iff.mp hclient
  obtain ⟨b, hb, hlb⟩ := Option.map_eq_some_iff.mp hworker
  exact ⟨cfg, client, worker, a, b, hp, ha, hb, hla, hlb,
    no_data_race (reachable_reach .any twoWriters) hp ha hb⟩

end Sync

end Lsmdb
