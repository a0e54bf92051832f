import Lsmdb.Spec.FlushCorrect
import Lsmdb.Spec.ScanCorrect

/-!
# Reads

A read works on the memtable and on a copy of the current version. Compactions may
replace the version behind its back; what the copy stands for stays the same, since the
files of a version are never changed and the cache knows them by their numbers.
-/

namespace Lsmdb

open Prog SortedMap

variable {g : Ghost} {w : World} {x : Session} {mem : SkipList} {o : Bool}

/-- The tables of a version are known by their numbers. -/
def Seen (v : Version) (g : Ghost) (_ : World) : Prop := ∀ f ∈ v.files, g.tables f.number = some f

/-- A table that was seen stays registered. -/
theorem stable_seen {t : Thread} (v : Version) : Stable (protocol t) (Seen v) :=
  fun _ _ _ _ hr _ h f hf => hr.tables _ f (h f hf)

/-- So what the cache holds stays right. -/
theorem stable_cacheHolds {t : Thread} (cache : Option BlockCache) :
    Stable (protocol t) fun g _ => CacheHolds g.tables cache :=
  fun _ _ _ _ hr _ h => h.mono hr.tables

/-- The client is in a call and has not changed anything in it. -/
def Reading (x : Session) (mem : SkipList) (o : Bool) (g : Ghost) (w : World) : Prop :=
  w.mutex ≠ some .client ∧ Knows x mem o g w

/-- The background thread leaves the state of the client alone. -/
theorem stable_reading : Stable (protocol .client) (Reading x mem o) :=
  stable_notHeld.and stable_knows

/-- The client reads its own memtable. -/
theorem triple_loadMem : Triple (exec .client) (protocol .client) (Reading x mem o)
    (Prog.lift .loadMem) fun m g w => m = mem ∧ Reading x mem o g w := by
  apply Triple.lift (c := Call.loadMem) stable_reading fun _ _ _ _ => trivial
  intro g w hi h ch r w' _ hexec
  cases hexec
  exact ⟨g, Keeps.refl _ g w, hi, h.2.mem_eq, h⟩

/-- The copy of the version. -/
theorem triple_snapshot : Triple (exec .client) (protocol .client) (Reading x mem o) DB.snapshot
    fun v g w => (Layout v ∧ liveIn (x.records :: v.tables) = x.store) ∧
      Reading x mem o g w ∧ Seen v g w := by
  apply Triple.bind (triple_lock stable_knows mutexFree_knows)
  intro _
  apply Triple.bind (Q := fun v g w => w.mutex = some .client ∧
    (Knows x mem o g w ∧ Seen v g w) ∧ Layout v ∧ liveIn (x.records :: v.tables) = x.store)
  · apply Triple.lift (c := Call.loadCurrent) (stable_held.and stable_knows)
      fun _ _ _ _ => trivial
    intro g w hi ⟨hm, hk⟩ ch r w' _ hexec
    cases hexec
    -- under the mutex the version is the one that the memtable belongs to
    refine ⟨g, Keeps.refl _ g w, hi, hm, ⟨hk, hi.current_tables⟩, hi.layout, ?_⟩
    rw [← hk.session]
    exact hi.live
  intro v
  apply Triple.bind (triple_unlock ((stable_knows.and (stable_seen v)).and (Stable.const _))
    fun g w m h => ⟨⟨mutexFree_knows g w m h.1.1, h.1.2⟩, h.2⟩)
  intro _
  apply Triple.ret
  exact fun g w _ h => ⟨h.2.2, ⟨h.1, h.2.1.1⟩, h.2.1.2⟩

/-- The tables decide about the keys that the memtable does not have. -/
theorem value_newestOf {es : List Entry} {k : Bytes} (h : lookup es k = .notFound) (v : Version) :
    ((newestOf v.byPriority k).elim .notFound Entry.result).value = liveIn (es :: v.tables) k := by
  rw [liveIn_cons_of_absent (lookup_eq_notFound_iff.mp h)]
  show _ = (newestOf v.byPriority k).bind Entry.live
  cases newestOf v.byPriority k with
  | none => rfl
  | some e => simp

/-- `Get` answers with what is stored. -/
theorem triple_get (k : Bytes) : Triple (exec .client) (protocol .client) (Reading x mem o)
    (DB.get k) fun r g w => r.value = x.store k ∧ Reading x mem o g w := by
  apply Triple.bind triple_loadMem
  intro m
  apply Triple.pre
  rintro rfl
  -- the memtable holds the newest records, and the tables of some version the others
  apply Triple.fact (F := m.Holds x.records ∧ ∃ v : Version, liveIn (x.records :: v.tables) = x.store)
  · intro g w hi h
    refine ⟨h.2.holds hi, w.current, ?_⟩
    rw [← h.2.session]
    exact hi.live
  rintro ⟨hholds, u, hlive⟩
  show Triple _ _ _ (DB.defined (m.get k) >>= _) _
  rw [hholds.get_eq k]
  show Triple _ _ _ (if lookup x.records k ≠ .notFound then _ else _) _
  by_cases hhit : lookup x.records k ≠ .notFound
  · -- the memtable has the key
    rw [if_pos hhit]
    apply Triple.ret
    intro g w _ h
    rw [← hlive]
    exact ⟨value_lookup hhit _, h⟩
  rw [if_neg hhit]
  apply Triple.bind triple_snapshot
  intro v
  apply Triple.pre
  rintro ⟨hv, hlive⟩
  apply Triple.bind (Q := fun cache g w => Reading x m o g w ∧ Seen v g w ∧
    CacheHolds g.tables cache)
  · apply Triple.lift (c := Call.loadCache) (stable_reading.and (stable_seen v))
      fun _ _ _ _ => trivial
    intro g w hi h ch r w' _ hexec
    cases hexec
    exact ⟨g, Keeps.refl _ g w, hi, h.1, h.2, hi.cache⟩
  intro cache
  -- the walk over the tables, whatever else there is by now
  apply Triple.fact (F := ∃ cache', getFromVersion v cache k =
    some ((newestOf v.byPriority k).elim .notFound Entry.result, cache'))
  · intro g w hi h
    obtain ⟨cache', heq, -⟩ := getFromVersion_intact hv h.2.1 h.2.2 k
    exact ⟨cache', heq⟩
  rintro ⟨cache', heq⟩
  rw [heq]
  show Triple _ _ _ (Prog.lift (Call.storeCache cache') >>= _) _
  apply Triple.bind (Q := fun _ => Reading x m o)
  · apply Triple.lift (c := Call.storeCache cache')
      (stable_reading.and ((stable_seen v).and (stable_cacheHolds cache))) fun _ _ _ _ => trivial
    intro g w hi ⟨hr, hseen, hcache⟩ ch r w' _ hexec
    cases hexec
    obtain ⟨cache'', heq', hholds'⟩ := getFromVersion_intact hv hseen hcache k
    -- the walk is a function of the snapshot and the cache, so it is the same one
    have hsame : cache'' = cache' := by
      rw [heq] at heq'
      exact ((Prod.mk.injEq ..).mp (Option.some.inj heq')).2.symm
    refine ⟨g, .ofClient ⟨rfl, rfl, rfl, rfl⟩ fun _ _ => rfl, { hi with cache := hsame ▸ hholds' },
      hr.1, ?_⟩
    exact ⟨hr.2.session, hr.2.mem_eq, hr.2.walOpen_eq⟩
  · intro _
    apply Triple.ret
    intro g w _ h
    rw [← hlive]
    exact ⟨value_newestOf (not_not.mp hhit) v, h⟩

/-- `Scan` changes nothing. -/
theorem triple_scan (start end_ : Bytes) : Triple (exec .client) (protocol .client)
    (Reading x mem o) (DB.scan start end_) fun _ => Reading x mem o := by
  apply Triple.bind triple_loadMem
  intro m
  apply Triple.pre
  rintro rfl
  apply Triple.fact (F := m.Holds x.records) fun g w hi h => h.2.holds hi
  intro hholds
  apply Triple.bind triple_snapshot
  intro v
  apply Triple.pre
  rintro ⟨hv, -⟩
  -- the scan works on the memtable and the snapshot alone
  obtain ⟨s, out, hscan, -⟩ := scan_spec hholds hv (fun f _ => SSTableReader.Damaged.refl f.reader)
    start end_
  rw [damage_reader] at hscan
  rw [hscan]
  exact Triple.ret fun g w _ h => h.1

/-- The part of the destructor before the join. -/
theorem triple_shutDown : Triple (exec .client) (protocol .client) (Reading x mem o) DB.shutDown
    fun _ => Reading x mem o := by
  apply Triple.bind (triple_lock stable_knows mutexFree_knows)
  intro _
  apply Triple.bind (Q := fun _ g w => w.mutex = some .client ∧ Knows x mem o g w)
  · apply Triple.lift (c := Call.storeShuttingDown) (stable_held.and stable_knows)
      fun _ _ _ _ => trivial
    intro g w hi ⟨hm, hk⟩ ch r w' _ hexec
    cases hexec
    refine ⟨g, { Keeps.refl _ g w with }, { hi with }, hm, ?_⟩
    exact ⟨hk.session, hk.mem_eq, hk.walOpen_eq⟩
  intro _
  exact triple_unlock stable_knows mutexFree_knows

end Lsmdb
