import Lsmdb.Spec.SystemCorrect
import Lsmdb.Spec.ThreadsServe

/-!
# The engine is a durable map

Whatever the two threads do between each other, and through any number of crashes,
failed calls and recoveries, what the client sees of the engine could be seen of a map
whose calls take effect one after the other (`engine_is_durable_map`). The effect of a
write comes when it returns, or when the process dies under it.
-/

namespace Lsmdb

open Prog

variable {g : Ghost} {w : World} {cfg : Config} {disk : Disk} {m m' : Store} {pol : Policy}

/-- A directory stands for one store. -/
theorem Recovers.unique (h : Recovers cfg disk m) (h' : Recovers cfg disk m') : m = m' := by
  obtain ⟨w, hopen, hserves⟩ := h
  obtain ⟨w', hopen', hserves'⟩ := h'
  rw [hopen] at hopen'
  cases hopen'
  exact hserves.unique hserves'

/-- A crash leaves what was stored before the running call, with or without its write. -/
theorem Inv.recoveredStore_cases (h : Inv g w) (hs : g.session.sound = true) :
    recoveredStore g.saved w.disk.log = g.session.acked ∨
      ∃ e, g.session.pending = some e ∧
        recoveredStore g.saved w.disk.log = g.session.acked.apply e := by
  rcases (h.stored.logged hs).recoveredStore_cases with heq | ⟨hne, e, htorn, heq⟩
  · rw [heq]
    exact h.session.store
  · obtain ⟨hstore, e', hpending, htorn'⟩ := (h.session.tail hs).resolve_left hne
    cases htorn.symm.trans htorn'
    rw [hstore] at heq
    exact .inr ⟨e, hpending, heq⟩

namespace Sync

variable {s s' : System} {client : Client} {worker : Worker} {o : List Act}

/-- The map that a state of the engine stands for. -/
def Represents (pol : Policy) (s : System) (a : MapState) : Prop :=
  match s.process with
  | .down | .opening _ _ => a.running = none ∧ ∀ cfg, Recovers cfg s.world.disk a.store
  | .up cfg client worker => a.running = client.op ∧
    ∃ g, Serving pol cfg g s.world.toWorld client worker ∧ g.session.acked = a.store

/-- A process that has died leaves what the map may have left. -/
private theorem Serving.survives {v : Lsmdb.World} (h : Serving pol cfg g v client worker) (hs : pol.Sound) :
    CrashLeaves g.session.acked client.op (recoveredStore g.saved v.disk.log) := by
  rcases h.inv.recoveredStore_cases (h.sound hs) with heq | ⟨e, he, heq⟩
  · exact .inl heq
  · have hclient := h.client
    cases client with
    | idle | closing => cases hclient.pending.symm.trans he
    | waiting p => cases hclient.1.pending.symm.trans he
    | running op p => exact .inr ⟨op, e, rfl, hclient.1.symm.trans he, heq⟩

/-- A step of a recovery does not change what will be recovered. -/
private theorem recovers_openStep (hreach : Reachable pol s) {p p' : DBM (Except Status Unit)}
    {ch : Lsmdb.Choice} {v : Lsmdb.World} (hp : s.process = .opening cfg p)
    (hpermits : Permits pol s (.openStep ch))
    (hstep : p.step (Lsmdb.exec .client) ch s.world.toWorld = some (p', v))
    (h : ∀ cfg, Recovers cfg s.world.disk m) : ∀ cfg, Recovers cfg v.disk m := by
  obtain ⟨t, ht, hrefines⟩ := Refines.of_reachable hreach
  obtain ⟨g, hg⟩ := SysInv.of_reachable ht
  have hprocess : t.process = .opening cfg p := by rw [hrefines.process, hp]; rfl
  have hworld : t.world = s.world.toWorld := by
    rw [hrefines.world (by simp [hp]), hp]
    rfl
  have hpermits' : pol.Permits t (.openStep ch) := by
    rw [Permits, hp] at hpermits
    rw [Policy.Permits, hprocess]
    cases p <;> exact hpermits
  have hstep' : p.step (Lsmdb.exec .client) ch t.world = some (p', v) := hworld ▸ hstep
  have hg' := hg.openStep hprocess hpermits' hstep'
  -- the log is as before, and the manifest describes the same version
  have hlog : v.disk.log = s.world.disk.log := by
    have hr := Ruled.of_reachable hreach
    rw [Ruled, hp] at hr
    cases p with
    | ret => cases hstep
    | undef => cases hstep
    | call a cont =>
      obtain ⟨⟨r, v'⟩, hexec, heq⟩ := Option.map_eq_some_iff.mp hstep
      cases heq
      exact log_of_alone hr.2.1 hexec
  have hstore : recoveredStore g.saved v.disk.log = m := by
    rw [hlog]
    have hrecovers := hg.stored.recovers cfg
    rw [hworld] at hrecovers
    exact hrecovers.unique (h cfg)
  exact fun cfg => hstore ▸ hg'.stored.recovers cfg

/-- The steps of the engine are steps of the map. -/
theorem Represents.step {a : MapState} (h : Represents pol s a) (hs : pol.Sound)
    (hreach : Reachable pol s) (hstep : (lts pol).step s o s') :
    ∃ a', (durableMap pol.Faulty).Trace a o a' ∧ Represents pol s' a' := by
  -- between processes a crash changes nothing
  have hcrash (hrun : a.running = none) : (durableMap pol.Faulty).step a [.crash] a :=
    .inr (.inr ⟨rfl, .inl rfl, hrun⟩)
  cases hp : s.process with
  | down =>
    rw [Represents, hp] at h
    obtain ⟨e, -, hnext, rfl⟩ := lts_step.mp hstep
    cases e with
    -- a process is started; the directory is as it was
    | «open» cfg =>
      simp only [System.next, hp] at hnext
      cases hnext
      exact ⟨a, .refl, h⟩
    | kill =>
      cases hnext
      exact ⟨a, .single (hcrash h.1), h⟩
    | _ => simp [System.next, hp] at hnext
  | opening cfg p =>
    rw [Represents, hp] at h
    obtain ⟨e, hpermits, hnext, rfl⟩ := lts_step.mp hstep
    cases e with
    | openStep ch =>
      simp only [System.next, hp] at hnext
      obtain ⟨⟨p', v⟩, hrun, rfl⟩ := Option.map_eq_some_iff.mp hnext
      exact ⟨a, .refl, h.1, recovers_openStep hreach hp hpermits hrun h.2⟩
    | openReturn =>
      cases p with
      | undef => simp [System.next, hp] at hnext
      | call => simp [System.next, hp] at hnext
      | ret r =>
        cases r with
        | error e =>
          simp only [System.next, hp] at hnext
          cases hnext
          exact ⟨a, .refl, h⟩
        | ok u =>
          simp only [System.next, hp] at hnext
          cases hnext
          -- the recovery has succeeded: what is served is what the directory held
          obtain ⟨g, g', hstored, hg', hacked⟩ := Serving.of_recovered hreach hp
          exact ⟨a, .refl, h.1, g', hg',
            hacked.trans ((hstored.recovers cfg).unique (h.2 cfg))⟩
    | kill =>
      cases hnext
      exact ⟨a, .single (hcrash h.1), h⟩
    | _ => simp [System.next, hp] at hnext
  | up cfg client worker =>
    rw [Represents, hp] at h
    obtain ⟨hrun, g, hg, hacked⟩ := h
    have ha : a = ⟨g.session.acked, client.op⟩ := by
      rw [hacked, ← hrun]
    subst ha
    rcases hg.step hp (Ruled.of_reachable hreach) hstep with
      ⟨g', client', worker', hp', hg', htrace⟩ | ⟨hp', hworld, hend⟩
    · refine ⟨_, htrace, ?_⟩
      rw [Represents, hp']
      exact ⟨rfl, g', hg', rfl⟩
    · -- the process has ended; the map takes over what is in the directory
      have hsurvives := hg.survives hs
      refine ⟨⟨recoveredStore g.saved s.world.disk.log, none⟩, ?_, ?_⟩
      · rcases hend with rfl | ⟨rfl, rfl⟩
        · exact .single (.inr (.inr ⟨rfl, hsurvives, rfl⟩))
        -- the destructor returns with no call under way, so the map is the acknowledged one
        · rcases hsurvives with heq | ⟨op, e, hop, -⟩
          · rw [heq]
            exact .refl
          · cases hop
      · rw [Represents, hp', hworld]
        exact ⟨rfl, fun cfg => hg.inv.stored.recovers cfg⟩

/-- The engine is simulated by the durable map, step by step. -/
private theorem simulation_map (hs : pol.Sound) :
    (lts pol).Simulation System.init (durableMap pol.Faulty) (Represents pol) where
  step hreach h hstep := h.step hs (reachable_iff_reaches.mpr hreach) hstep

/-- An empty directory represents the empty map. -/
private theorem represents_init (pol : Policy) : Represents pol System.init {} := by
  have hempty : recoveredStore (Ghost.init pol).saved Lsmdb.System.init.world.disk.log = .empty := by
    show (liveIn []).applyAll (walRecords []) = _
    rw [liveIn_nil, ← walFrames_nil, walRecords_walFrames (by simp)]
    rfl
  refine ⟨rfl, fun cfg => ?_⟩
  have hrecovers := (sysInv_init pol).stored.recovers cfg
  rw [hempty] at hrecovers
  exact hrecovers

/-- What the client sees of a run, through any interleaving with the compaction thread and any
    number of crashes, failed calls and recoveries, could be seen of a map whose calls take effect
    one after the other: a write that has returned `OK` is stored for good, one that has returned
    an error or was cut off by a crash is stored or not, and no reader ever sees anything else.
    Between calls the engine serves that map, and a directory that no process has open stands for
    it. `Policy.Sound` excludes that an append to the log fails, and that the database is opened
    with a log that ends inside a frame: behind a part of a frame acknowledged writes are lost. -/
theorem engine_is_durable_map (hs : pol.Sound) {l : List Act}
    (h : (lts pol).Trace System.init l s) :
    ∃ a, (durableMap pol.Faulty).Trace {} l a ∧
      (∀ cfg worker, s.process = .up cfg .idle worker → s.world.toWorld.Serves a.store) ∧
      (s.process = .down → ∀ cfg, Recovers cfg s.world.disk a.store) := by
  obtain ⟨a, htrace, ha⟩ := (simulation_map hs).trace (represents_init pol) h
  refine ⟨a, htrace, fun cfg worker hp => ?_, fun hp cfg => ?_⟩
  · rw [Represents, hp] at ha
    obtain ⟨-, g, hg, hacked⟩ := ha
    rw [← hacked, ← hg.inv.session.store_eq hg.client.pending]
    exact hg.inv.serves
  · rw [Represents, hp] at ha
    exact ha.2 cfg

/-- A write returns, a second one is cut off before it has reached the log, and the value is read
    after a recovery. -/
def cutOff : List Event :=
  Event.opening exampleConfig 8 ++ Event.calling (.put [1] [2]) 5 ++
    [.invoke (.delete [1]), .clientStep (.base .ok), .kill] ++ Event.opening exampleConfig 8 ++
    Event.calling (.get [1]) 1

/-- A process is killed between a write and its acknowledgement. -/
theorem engine_is_durable_map_cutOff :
    ∃ a, (durableMap Policy.wholeLogs.Faulty).Trace {}
      [.call (.put [1] [2]), .reply (.put [1] [2]) (.status .OK), .call (.delete [1]), .crash,
        .call (.get [1]), .reply (.get [1]) (.lookup (.found [2]))] a := by
  have hrun : ((machine .wholeLogs).run (fun _ _ => true) System.init cutOff).map (·.1) =
      some [.call (.put [1] [2]), .reply (.put [1] [2]) (.status .OK), .call (.delete [1]), .crash,
        .call (.get [1]), .reply (.get [1]) (.lookup (.found [2]))] := by decide +kernel
  obtain ⟨⟨l, s⟩, hrun, hl⟩ := Option.map_eq_some_iff.mp hrun
  cases hl
  obtain ⟨a, htrace, -⟩ := engine_is_durable_map ⟨rfl, .inl rfl⟩ (Machine.trace_of_run hrun)
  exact ⟨a, htrace⟩

end Sync

end Lsmdb
