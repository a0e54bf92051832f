import Lsmdb.Native.System
import Lsmdb.Spec.Install

/-!
# Recovery

`Recover` on a directory that is in order (`Stored`): it succeeds unless a call fails,
and the database it opens stands for the version of the manifest with the records of the
log applied (`recoveredStore`, `tripleE_recover`). The log is left as it is. Nothing else
runs while it works, so its contract has no other thread in it.
-/

namespace Lsmdb

open Prog SortedMap

/-! ## The memtable -/

/-- The record that the replay puts into the memtable: without the value if it is a tombstone. -/
def Entry.replayed (e : Entry) : Entry :=
  if e.type = .tombstone then ⟨e.key, [], .tombstone⟩ else ⟨e.key, e.value, .value⟩

/-- A record is replayed under its key. -/
private theorem key_replayed (e : Entry) : e.replayed.key = e.key := by
  unfold Entry.replayed
  split <;> rfl

/-- A record is replayed with its value. -/
theorem live_replayed (e : Entry) : e.replayed.live = e.live := by
  by_cases htomb : e.type = .tombstone
  · have hlive : e.live = none := if_pos (decide_eq_true htomb)
    rw [Entry.replayed, if_pos htomb, hlive]
    rfl
  · have hlive : e.live = some e.value := if_neg (by simpa [Entry.isTombstone] using htomb)
    rw [Entry.replayed, if_neg htomb, hlive]
    rfl

/-- Replaying a record inserts it into the memtable. -/
private theorem holds_replayRecord {l : SkipList} {es : List Entry} (h : l.Holds es) (e : Entry) :
    ∃ l', DB.replayRecord l e = some l' ∧ l'.Holds (SortedMap.insert Entry.key e.replayed es) := by
  rw [DB.replayRecord, Entry.replayed]
  split
  · exact h.delete e.key
  · exact h.put e.key e.value

/-- The memtable after the replay, over any tables. -/
theorem holds_replay (rng : Nat → Fin SkipList.kMaxLevel) (rs : List Entry) :
    ∃ l records, rs.foldlM DB.replayRecord (SkipList.new rng) = some l ∧ l.Holds records ∧
      (∀ ts, liveIn (records :: ts) = (liveIn ts).applyAll rs) ∧
      ∀ e ∈ records, e.key ∈ rs.map Entry.key := by
  induction rs using List.reverseRecOn with
  | nil => exact ⟨_, [], rfl, SkipList.holds_new rng, fun ts => liveIn_nil_cons ts, by simp⟩
  | append_singleton rs e ih =>
    obtain ⟨l, records, hfold, hholds, hlive, hkeys⟩ := ih
    obtain ⟨l', hstep, hholds'⟩ := holds_replayRecord hholds e
    refine ⟨l', _, ?_, hholds', fun ts => ?_, fun x hx => ?_⟩
    · rw [List.foldlM_append, hfold]
      simp [hstep]
    -- the record is newer than everything before it
    · rw [liveIn_insert, hlive, Store.applyAll_append, Store.applyAll_singleton]
      funext k
      rw [Store.apply, Store.apply, key_replayed, live_replayed]
    · rw [List.map_append, List.mem_append]
      rcases SortedMap.mem_insert hx with rfl | hx
      · exact .inr (by simp [key_replayed])
      · exact .inl (hkeys x hx)

/-! ## The state it leaves -/

/-- What a recovery finds: the version of the manifest with the records of the log. -/
def recoveredStore (saved : Version) (log : Bytes) : Store :=
  (liveIn saved.tables).applyAll (walRecords log)

/-- The members of a database after a recovery. -/
structure Opened (cfg : Config) (g : Ghost) (log : Bytes) (w : World) : Prop where
  world : ∃ disk mem, w = { World.fresh cfg disk with
    current := g.saved
    nextFileNumber := g.savedNext
    mem := mem
    walOpen := true }
  log_eq : w.disk.lookup walName = some log
  mem : ∃ records, w.mem.Holds records ∧
    liveIn (records :: g.saved.tables) = recoveredStore g.saved log ∧
    ∀ e ∈ records, e.key ∈ (walRecords log).map Entry.key

/-- A new session starts with what was recovered. -/
def Session.opened (saved : Version) (log : Bytes) (records : List Entry) :
    Session where
  records := records
  logged := walRecords log
  tail := []
  torn := none
  store := recoveredStore saved log
  acked := recoveredStore saved log
  pending := none
  sound := decide (WholeFrames log)
  flushes := 0

/-- The log accounts for everything if it has no torn frame. -/
theorem Session.sound_opened {saved : Version} {log : Bytes} {records : List Entry} :
    (Session.opened saved log records).sound = true ↔ WholeFrames log := by
  simp [Session.opened]

/-- The ghost state of a new process. -/
def Ghost.opened (g : Ghost) (log : Bytes) (records : List Entry) : Ghost :=
  { g with
    owned := fun _ => ∅
    tables := register (fun _ => none) g.saved.files
    session := .opened g.saved log records }

/-- The invariant holds when the database has been opened. -/
theorem inv_opened {cfg : Config} {g : Ghost} {log : Bytes} {w : World} (h : Opened cfg g log w)
    (hs : Stored g w.disk) : ∃ records, Inv (g.opened log records) w := by
  obtain ⟨records, hmem, hlive, hkeys⟩ := h.mem
  have hlog := h.log_eq
  obtain ⟨disk, mem, rfl⟩ := h.world
  refine ⟨records, ?_⟩
  -- the numbers of the version are distinct, so each has its table
  have htables (f : FileMeta) (hf : f ∈ g.saved.files) :
      register (fun _ => none) g.saved.files f.number = some f :=
    register_of_mem hs.layout.nodup hf
  exact
    { stored :=
        { layout := hs.layout
          fits := hs.fits
          savedNext_pos := hs.savedNext_pos
          savedNext_lt := hs.savedNext_lt
          saved_lt := hs.saved_lt
          manifest := hs.manifest
          saved_files := hs.saved_files
          logged := fun hsound => by
            -- only a log of whole frames is trusted to hold the records
            have hwhole : WholeFrames log := Session.sound_opened.mp hsound
            refine ⟨fun _ he => fits_of_mem_walRecords he, ?_, .inl rfl, rfl⟩
            rw [Disk.log, hlog]
            show log = walFrames (walRecords log) ++ []
            rw [List.append_nil]
            exact hwhole.eq_walFrames }
      layout := hs.layout
      fits := hs.fits
      next_lt := hs.savedNext_lt
      savedNext_le := le_rfl
      current_files := hs.saved_files
      current_tables := htables
      saved_tables := htables
      tables_lt := fun n f hf => by
        have hf : register (fun _ => none) g.saved.files n = some f := hf
        rcases register_cases hf with ⟨hmem, rfl⟩ | hnone
        · exact hs.saved_lt f hmem
        · cases hnone
      owned_lt := fun _ n hn => absurd hn (Finset.notMem_empty n)
      owned_new := fun _ n hn => absurd hn (Finset.notMem_empty n)
      owned_disjoint := Finset.disjoint_empty_left _
      l0_lt := fun n hn => absurd hn (Finset.notMem_empty n)
      session := ⟨.inl rfl, fun _ => .inl rfl⟩
      mem := hmem
      live := hlive
      behind := fun k hk => by
        have hk : ∀ e ∈ records, e.key ≠ k := hk
        show liveIn g.saved.tables k = recoveredStore g.saved log k
        rw [← hlive, liveIn_cons_of_absent (find_eq_none_iff.mpr hk)]
      cache := by
        intro c hc
        -- the cache is new
        have hfresh : (if cfg.options.blockCacheBytes > 0 then
            some ({ capacityBytes := cfg.options.blockCacheBytes } : BlockCache) else none) =
          some c := hc
        split at hfresh
        · cases hfresh
          exact BlockCache.holds_empty _ _
        · cases hfresh
      keys := fun _ => hkeys
      wal := fun _ => ⟨log, hlog⟩ }

/-! ## The program -/

/-- The contract of a recovery: nothing else runs, and nothing blocks it. -/
def recovering : Contract Call Choice Ghost World where
  inv g w := Stored g w.disk
  rely g w g' w' := g' = g ∧ w' = w
  guar g _ g' _ := g' = g
  allow c ch g _ := c.MayFail g.faults g.logFaults ch
  demand c g w := c.Demand .client g w ∧ (exec .client c .ok w).isSome
  rely_refl _ _ := ⟨rfl, rfl⟩
  rely_trans h h' := ⟨h'.1.trans h.1, h'.2.trans h.2⟩

/-- No other thread runs during the recovery. -/
theorem stable_recovering (P : Ghost → World → Prop) : Stable recovering P := by
  rintro g w g' w' ⟨rfl, rfl⟩ _ h
  exact h

/-- `LoadManifest` finds the saved version, or none if nothing was ever saved. -/
theorem Stored.loadVersion {g : Ghost} {disk : Disk} (h : Stored g disk) (cfg : Config) :
    ∃ loaded, DB.loadVersion cfg disk = some (.ok (loaded, g.savedNext)) ∧
      loaded.getD ⟨[[]]⟩ = g.saved := by
  rcases h.manifest with hmanifest | ⟨hnone, hsaved, hnext⟩
  · exact ⟨some g.saved, loadVersion_manifest cfg h.layout h.fits h.savedNext_lt h.savedNext_pos
      h.saved_lt hmanifest h.saved_files, rfl⟩
  · refine ⟨none, ?_, hsaved.symm⟩
    rw [DB.loadVersion, hnone, hnext]
    rfl

variable (cfg : Config) {g₀ : Ghost} {log : Bytes}

/-- `RemoveOrphanFiles`: what it removes is in no version. -/
theorem triple_removeOrphanFiles (names : List String) :
    Triple (exec .client) recovering (fun g w => g = g₀ ∧ Opened cfg g₀ log w)
      (DB.removeOrphanFiles g₀.saved names) fun _ g w => g = g₀ ∧ Opened cfg g₀ log w := by
  induction names with
  | nil => exact Triple.ret fun g w _ h => h
  | cons name names ih =>
    rw [DB.removeOrphanFiles]
    cases parseFileNumber name with
    | none => exact ih
    | some n =>
      show Triple _ _ _ (if n ∈ g₀.saved.files.map (·.number) then _ else _) _
      by_cases hlive : n ∈ g₀.saved.files.map (·.number)
      · rw [if_pos hlive]
        exact ih
      rw [if_neg hlive]
      have hne (f : FileMeta) (hf : f ∈ g₀.saved.files) : f.number ≠ n :=
        fun heq => hlive (heq ▸ List.mem_map_of_mem hf)
      apply Triple.bind _ fun _ => ih
      apply Triple.lift (c := Call.unlink (numberToName n)) (stable_recovering _)
      · rintro g w _ ⟨rfl, h⟩
        -- the demand of `unlink`: the version does not name this file
        refine ⟨fun m hm => ?_, rfl⟩
        cases numberToName_injective hm
        obtain ⟨disk, mem, rfl⟩ := h.world
        exact ⟨hne, hne⟩
      · rintro g w hs ⟨rfl, h⟩ ch r w' _ hexec
        rcases exec_unlink hexec with rfl | rfl
        · exact ⟨g, rfl, hs, rfl, h⟩
        have hdisk (name : String) (hname : name ≠ numberToName n) :
            (w.disk.erase (numberToName n)).lookup name = w.disk.lookup name :=
          AList.lookup_erase_ne hname
        refine ⟨g, rfl, ?_, rfl, ?_⟩
        · apply Stored.congr hs (hdisk _ (numberToName_ne_manifestName n).symm)
            (hdisk _ (numberToName_ne_walName n).symm)
          exact fun f hf => hdisk _ fun heq => hne f hf (numberToName_injective heq)
        · obtain ⟨disk, mem, rfl⟩ := h.world
          exact ⟨⟨_, mem, rfl⟩, (hdisk _ (numberToName_ne_walName n).symm).trans h.log_eq, h.mem⟩

/-- `Recover` on a directory in order. -/
theorem tripleE_recover (disk : Disk) :
    TripleE (exec .client) recovering (fun g w => g = g₀ ∧ w = World.fresh cfg disk)
      (DB.recover cfg) (fun _ g w => g = g₀ ∧ Opened cfg g₀ disk.log w)
      fun _ g _ => g = g₀ ∧ g₀.faults = true := by
  apply TripleE.bind (Q := fun d g w => d = disk ∧ g = g₀ ∧ w = World.fresh cfg disk)
  · apply DB.tripleE_call
    apply Triple.lift (c := Call.readDir) (stable_recovering _) fun _ _ _ _ => ⟨trivial, rfl⟩
    rintro g w hs ⟨rfl, rfl⟩ ch r w' _ hexec
    cases hexec
    exact ⟨g, rfl, hs, rfl, rfl, rfl⟩
  intro d
  apply Triple.pre
  rintro rfl
  -- the manifest
  apply Triple.fact (F := Stored g₀ d)
  · rintro g w hs ⟨rfl, rfl⟩
    exact hs
  intro hstored
  obtain ⟨loaded, hload, hsaved⟩ := hstored.loadVersion cfg
  apply TripleE.bind (tripleE_defined hload (Q := fun r g w =>
    r = .ok (loaded, g₀.savedNext) ∧ g = g₀ ∧ w = World.fresh cfg d) fun g w _ h => ⟨rfl, h⟩)
  intro r
  apply Triple.pre
  rintro rfl
  dsimp only
  rw [hsaved]
  apply TripleE.bind (Q := fun _ g w => g = g₀ ∧ w = { World.fresh cfg d with current := g₀.saved })
  · apply DB.tripleE_call
    apply Triple.lift (c := Call.storeCurrent g₀.saved) (stable_recovering _) fun _ _ _ _ => ⟨trivial, rfl⟩
    rintro g w hs ⟨rfl, rfl⟩ ch r w' _ hexec
    cases hexec
    exact ⟨g, rfl, hs, rfl, rfl⟩
  intro _
  set opened : World := { World.fresh cfg d with
    current := g₀.saved, nextFileNumber := g₀.savedNext } with hopened
  apply TripleE.bind (Q := fun _ g w => g = g₀ ∧ w = opened)
  · apply DB.tripleE_call
    apply Triple.lift (c := Call.storeFileNumber g₀.savedNext) (stable_recovering _)
      fun _ _ _ _ => ⟨trivial, rfl⟩
    rintro g w hs ⟨rfl, rfl⟩ ch r w' _ hexec
    cases hexec
    exact ⟨g, rfl, hs, rfl, rfl⟩
  intro _
  -- the log
  apply TripleE.bind (tripleE_defined (walReplay_eq _) (Q := fun r g w =>
    r = (walRecords d.log, (walRecords d.log).length) ∧ g = g₀ ∧ w = opened)
    fun g w _ h => ⟨rfl, h⟩)
  intro r
  apply Triple.pre
  rintro rfl
  obtain ⟨mem, records, hfold, hholds, hlive, hkeys⟩ := holds_replay cfg.rng (walRecords d.log)
  apply TripleE.bind (Q := fun m g w => m = SkipList.new cfg.rng ∧ g = g₀ ∧ w = opened)
  · apply DB.tripleE_call
    apply Triple.lift (c := Call.loadMem) (stable_recovering _) fun _ _ _ _ => ⟨trivial, rfl⟩
    rintro g w hs ⟨rfl, rfl⟩ ch r w' _ hexec
    cases hexec
    exact ⟨g, rfl, hs, rfl, rfl, rfl⟩
  intro m
  apply Triple.pre
  rintro rfl
  apply TripleE.bind (tripleE_defined hfold (Q := fun r g w => r = mem ∧ g = g₀ ∧ w = opened)
    fun g w _ h => ⟨rfl, h⟩)
  intro r
  apply Triple.pre
  rintro rfl
  apply TripleE.bind (Q := fun _ g w => g = g₀ ∧ w = { opened with mem := r })
  · apply DB.tripleE_call
    apply Triple.lift (c := Call.storeMem r) (stable_recovering _) fun _ _ _ _ => ⟨trivial, rfl⟩
    rintro g w hs ⟨rfl, rfl⟩ ch _ w' _ hexec
    cases hexec
    exact ⟨g, rfl, hs, rfl, rfl⟩
  intro _
  -- the log is opened for appending, and created if it is missing
  apply TripleE.bind (Q := fun _ g w => g = g₀ ∧ Opened cfg g₀ d.log w)
  · apply TripleE.bind (Q := fun _ g w => g = g₀ ∧ ∃ disk, w = { opened with mem := r, disk := disk } ∧
      disk.lookup walName = some d.log)
    · apply DB.tripleE_check
      apply Triple.lift (c := Call.openAppend walName) (stable_recovering _) fun _ _ _ _ => ⟨trivial, rfl⟩
      rintro g w hs ⟨rfl, rfl⟩ ch _ w' hallow hexec
      rcases exec_openAppend hexec with ⟨errno, rfl, rfl, rfl⟩ | ⟨rfl, rfl⟩
      · exact ⟨g, rfl, hs, rfl, hallow⟩
      -- an empty log is created if there is none
      · by_cases hmem : walName ∈ d
        · obtain ⟨file, hfile⟩ := Option.isSome_iff_exists.mp (AList.lookup_isSome.mpr hmem)
          have hlog : d.log = file := by rw [Disk.log, hfile]; rfl
          refine ⟨g, rfl, ?_, rfl, d, ?_, by rw [hlog, hfile]⟩
          · show Stored g (if walName ∈ d then _ else _ : World).disk
            rw [if_pos hmem]
            exact hs
          · exact if_pos hmem
        · have hlog : d.log = [] := by rw [Disk.log, AList.lookup_eq_none.mpr hmem]; rfl
          refine ⟨g, rfl, ?_, rfl, d.insert walName [], if_neg hmem, by rw [hlog, AList.lookup_insert]⟩
          show Stored g (if walName ∈ d then _ else _ : World).disk
          rw [if_neg hmem]
          exact Stored.createLog hs hmem
    · intro _
      apply DB.tripleE_call
      apply Triple.lift (c := Call.storeWal true) (stable_recovering _) fun _ _ _ _ => ⟨trivial, rfl⟩
      rintro g w hs ⟨rfl, disk, rfl, hlog⟩ ch _ w' _ hexec
      cases hexec
      exact ⟨g, rfl, hs, rfl, ⟨disk, r, rfl⟩, hlog, records, hholds, hlive _, hkeys⟩
  intro _
  -- the directory is listed for orphans
  apply TripleE.bind (Q := fun _ g w => g = g₀ ∧ Opened cfg g₀ d.log w)
  · apply DB.tripleE_call
    apply Triple.lift (c := Call.readDir) (stable_recovering _) fun _ _ _ _ => ⟨trivial, rfl⟩
    intro g w hs h ch _ w' _ hexec
    cases hexec
    exact ⟨g, rfl, hs, h⟩
  intro names
  exact TripleE.lift (triple_removeOrphanFiles cfg _)

end Lsmdb
