import Lsmdb.Spec.SystemInvariant

/-!
# What clients of the engine can rely on

The results about whole runs, drawn from the invariant of `Lsmdb.Spec.SystemInvariant`:
the engine is a map, a crash loses nothing that was acknowledged, levels stay sorted and
disjoint, scans agree with lookups, no live table is overwritten or removed and the block
cache cannot be noticed.
-/

namespace Lsmdb

open Prog SortedMap

variable {g g' : Ghost} {w w' : World} {s s' : System} {pol : Policy}

/-! ## Reads of a state -/

/-- Taking a snapshot of the version with the mutex free. -/
theorem eval_snapshot (hm : w.mutex = none) :
    DB.snapshot.eval (exec .client) .ok w = some (w.current, w) := by
  obtain ⟨disk, mutex, mem, cache, current, next, walOpen, down⟩ := w
  cases hm
  rfl

/-- `Get` looks in the memtable and then in the version. -/
theorem eval_get (hm : w.mutex = none) (k : Bytes) :
    (DB.get k).eval (exec .client) .ok w = (w.mem.get k).bind fun r =>
      if r ≠ .notFound then some (r, w)
      else (getFromVersion w.current w.cache k).map fun (r, cache) =>
        (r, { w with cache := cache }) := by
  show ((DB.defined (w.mem.get k) : DBM LookupResult) >>= _).eval _ _ _ = _
  cases w.mem.get k with
  | none => rfl
  | some r =>
    show (if r ≠ .notFound then Prog.ret r else DB.snapshot >>= fun _ => _).eval _ _ _ =
      if _ then _ else _
    split
    · rfl
    · rw [eval_bind, eval_snapshot hm]
      show ((DB.defined (getFromVersion w.current w.cache k) : DBM _) >>= _).eval _ _ _ = _
      cases getFromVersion w.current w.cache k <;> rfl

/-- `Scan` reads the memtable and the version. -/
theorem eval_scan (hm : w.mutex = none) (start end_ : Bytes) :
    (DB.scan start end_).eval (exec .client) .ok w =
      (scan w.mem w.current start end_).map fun r => (r, w) := by
  show (DB.snapshot >>= fun _ => _).eval _ _ w = _
  rw [eval_bind, eval_snapshot hm]
  show (DB.defined (scan w.mem w.current start end_) : DBM _).eval _ _ _ = _
  cases scan w.mem w.current start end_ <;> rfl

/-- `Get` asks the memtable first and then the current version. -/
theorem answer_eq {records : List Entry} (hmem : w.mem.Holds records) (k : Bytes) :
    w.answer k = if lookup records k ≠ .notFound then some (lookup records k)
      else (getFromVersion w.current w.cache k).map (·.1) := by
  rw [World.answer, eval_get rfl]
  show ((w.mem.get k).bind _).map _ = _
  rw [hmem.get_eq k, Option.bind_some]
  by_cases hhit : lookup records k ≠ .notFound
  · rw [if_pos hhit, if_pos hhit]
    rfl
  · rw [if_neg hhit, if_neg hhit, Option.map_map]
    rfl

/-- The process serves what is stored. -/
theorem Inv.serves (hi : Inv g w) : w.Serves g.session.store := by
  intro k
  rw [answer_eq hi.mem, ← hi.live]
  by_cases hhit : lookup g.session.records k ≠ .notFound
  · rw [if_pos hhit]
    exact ⟨_, rfl, value_lookup hhit _⟩
  · obtain ⟨cache', hget, -⟩ := getFromVersion_intact hi.layout hi.current_tables hi.cache k
    rw [if_neg hhit, hget]
    exact ⟨_, rfl, value_newestOf (not_not.mp hhit) _⟩

/-- A directory in order can be recovered. -/
theorem Stored.recovers {disk : Disk} (h : Stored g disk) (cfg : Config) :
    Recovers cfg disk (recoveredStore g.saved disk.log) := by
  -- no call fails, whatever may fail elsewhere
  have hstored : Stored { g with faults := false } disk := { h with }
  obtain ⟨r, g', w', heval, hs, hr⟩ :=
    Safe.eval Choice.ok (tripleE_recover cfg disk _ (World.fresh cfg disk) hstored ⟨rfl, rfl⟩) hstored
      fun c g w _ hdemand => ⟨c.mayFail_ok _ _, hdemand.2⟩
  cases r with
  | error e =>
    obtain ⟨-, hfault⟩ := hr
    cases hfault
  | ok a =>
    obtain ⟨rfl, hopened⟩ := hr
    obtain ⟨records, hi⟩ := inv_opened hopened hs
    exact ⟨w', heval, hi.serves⟩

/-- A recovery finds what is stored, or that with the record whose append was cut off. -/
theorem Logged.recoveredStore_cases {x : Session} {saved : Version} {disk : Disk}
    (h : Logged x saved disk) :
    recoveredStore saved disk.log = x.store ∨
      x.tail ≠ [] ∧ ∃ e, x.torn = some e ∧ recoveredStore saved disk.log = x.store.apply e := by
  rw [recoveredStore, h.file, ← h.replay]
  -- the bytes behind the log are none, or the beginning of the frame of the write under way
  rcases h.torn with hnil | ⟨e, he, hfits, hinit⟩
  · left
    rw [hnil, List.append_nil, walRecords_walFrames h.fits]
  · by_cases hnil : x.tail = []
    · left
      rw [hnil, List.append_nil, walRecords_walFrames h.fits]
    · rcases walRecords_append_torn h.fits hfits hinit with hrecords | hrecords
      · exact .inl (by rw [hrecords])
      · refine .inr ⟨hnil, e, he, ?_⟩
        rw [hrecords, Store.applyAll_append, Store.applyAll_singleton]

/-- In a session whose appends were sound, a recovery finds what was stored before the running
    call, with or without its write. -/
theorem SysInv.recoveredStore_cases (h : SysInv pol g s) (hs : g.session.sound = true) :
    recoveredStore g.saved s.world.disk.log = g.session.acked ∨
      ∃ e, g.session.pending = some e ∧
        recoveredStore g.saved s.world.disk.log = g.session.acked.apply e := by
  rcases (h.stored.logged hs).recoveredStore_cases with heq | ⟨hne, e, htorn, heq⟩
  · rw [heq]
    exact h.session.store
  · obtain ⟨hstore, e', hpending, htorn'⟩ := (h.session.tail hs).resolve_left hne
    cases htorn.symm.trans htorn'
    rw [hstore] at heq
    exact .inr ⟨e, hpending, heq⟩

/-! ## The map -/

/-- The write that is running is the one that the invariant speaks of. -/
theorem SysInv.pending_eq (h : SysInv pol g s) (hup : s.process.IsUp ∨ pol.Clean) :
    g.session.pending = s.process.writing := by
  have hprocess := h.process
  cases hp : s.process with
  -- a write may be pending in a database that is not open, but only behind a kill
  | down =>
    rw [hp] at hup hprocess
    exact hprocess (hup.resolve_left id)
  | opening cfg p =>
    rw [hp] at hup hprocess
    exact hprocess.2.1 (hup.resolve_left id)
  | up cfg client bg =>
    rw [hp] at hprocess
    obtain ⟨-, -, hclient, -⟩ := hprocess
    cases client with
    | idle => exact Idle.pending hclient
    | closing => exact Idle.pending hclient
    | running op p => exact hclient.1

/-- An open database keeps its invariant. -/
theorem SysInv.inv (h : SysInv pol g s) (hup : s.process.IsUp) : Inv g s.world := by
  have hprocess := h.process
  cases hp : s.process with
  | down => rw [hp] at hup; exact hup.elim
  | opening cfg p => rw [hp] at hup; exact hup.elim
  | up cfg client bg =>
    rw [hp] at hprocess
    exact hprocess.2.1

/-- The engine is a map. In every run without failures, whatever the interleaving of the client
    and the compaction thread, every write has returned `OK`, every answer of `Get` has been the
    value of the last write before it, and between two calls every `Get` would return that. -/
theorem get_returns_last_write (h : Policy.faultless.Reachable s) :
    WritesSucceed s.history ∧ Answers s.history ∧ (s.process.IsUp → s.process.writing = none →
      s.world.Serves (Store.empty.applyAll (acks s.history))) := by
  obtain ⟨g, hg⟩ := SysInv.of_reachable h
  have hclean : Policy.faultless.Clean := ⟨rfl, rfl, rfl⟩
  refine ⟨hg.writes hclean, hg.answers hclean, fun hup hidle => ?_⟩
  have hpending := (hg.pending_eq (.inl hup)).trans hidle
  rw [← hg.acked hclean, ← hg.session.store_eq hpending]
  exact (hg.inv hup).serves

/-- Two keys are flushed and compacted into L1, while one of them is deleted and that is flushed,
    too. Both are read. -/
theorem get_returns_last_write_compacting :
    let s := Policy.faultless.reach (compactingUnderFlush ++ Event.calling (.get [1]) 6 ++
      Event.calling (.get [2]) 6)
    s.world.current.levels.map List.length = [1, 2] ∧
      (.delete [1], .status .OK) ∈ s.history ∧ (.get [1], .lookup .deleted) ∈ s.history ∧
      (.get [2], .lookup (.found [3])) ∈ s.history ∧
      WritesSucceed s.history ∧ Answers s.history ∧
      s.world.Serves (Store.empty.applyAll
        [⟨[1], [2], .value⟩, ⟨[2], [3], .value⟩, ⟨[1], [], .tombstone⟩]) := by
  intro s
  -- the run is evaluated once for all that is read off its last state
  obtain ⟨hacks, hup, hidle, hlevels, hdelete, hdeleted, hfound⟩ : acks s.history =
        [⟨[1], [2], .value⟩, ⟨[2], [3], .value⟩, ⟨[1], [], .tombstone⟩] ∧
      s.process.IsUp ∧ s.process.writing = none ∧
      s.world.current.levels.map List.length = [1, 2] ∧
      (.delete [1], .status .OK) ∈ s.history ∧ (.get [1], .lookup .deleted) ∈ s.history ∧
      (.get [2], .lookup (.found [3])) ∈ s.history := by decide +kernel
  obtain ⟨hwrites, hanswers, hserves⟩ := get_returns_last_write (Policy.reachable_reach _ _)
  rw [← hacks]
  exact ⟨hlevels, hdelete, hdeleted, hfound, hwrites, hanswers, hserves hup hidle⟩

/-- Killed in any state of a run without failures, the database opens again with the writes that
    have returned `OK`, and perhaps the one that was running. -/
theorem crash_keeps_acknowledged_writes (h : Policy.faultless.Reachable s) (cfg : Config) :
    Recovers cfg s.world.disk (Store.empty.applyAll (acks s.history)) ∨
      ∃ e, s.process.writing = some e ∧
        Recovers cfg s.world.disk (Store.empty.applyAll (acks s.history ++ [e])) := by
  obtain ⟨g, hg⟩ := SysInv.of_reachable h
  have hclean : Policy.faultless.Clean := ⟨rfl, rfl, rfl⟩
  have hrecovers := hg.stored.recovers cfg
  rcases hg.recoveredStore_cases (hg.sound hclean.sound) with heq | ⟨e, he, heq⟩
  · rw [heq, hg.acked hclean] at hrecovers
    exact .inl hrecovers
  · refine .inr ⟨e, (hg.pending_eq (.inr hclean)).symm.trans he, ?_⟩
    rw [heq, hg.acked hclean] at hrecovers
    rwa [Store.applyAll_append, Store.applyAll_singleton]

/-- A write is killed behind the fifth byte of its frame. -/
theorem crash_keeps_acknowledged_writes_torn :
    let s := Policy.faultless.reach (overwriting ++
      [.invoke (.delete [1]), .clientStep .ok, .clientStep (.short 5)])
    Recovers exampleConfig s.world.disk
        (Store.empty.applyAll [⟨[1], [2], .value⟩, ⟨[1], [3], .value⟩]) ∨
      ∃ e, s.process.writing = some e ∧ Recovers exampleConfig s.world.disk
        (Store.empty.applyAll ([⟨[1], [2], .value⟩, ⟨[1], [3], .value⟩] ++ [e])) := by
  intro s
  have hacks : acks s.history = [⟨[1], [2], .value⟩, ⟨[1], [3], .value⟩] := by decide +kernel
  rw [← hacks]
  exact crash_keeps_acknowledged_writes (Policy.reachable_reach _ _) exampleConfig

/-! ## The files -/

/-- In every state of every run the files of a deeper level are sorted by their smallest keys and
    their ranges are disjoint, every file holds its records in ascending order with the first and
    the last key as its bounds, L0 is sorted by file number, and no number is used twice or still
    to come. -/
theorem levels_in_order (h : Policy.any.Reachable s) (hup : s.process.IsUp) :
    (∀ files ∈ s.world.current.levels.tail, files.Pairwise fun f f' =>
      f.smallest < f'.smallest ∧ f.largest < f'.smallest) ∧
    (∀ f ∈ s.world.current.files, f.entries ≠ [] ∧ Sorted Entry.key f.entries ∧
      f.entries.head?.map (·.key) = some f.smallest ∧
      f.entries.getLast?.map (·.key) = some f.largest) ∧
    (∀ files ∈ s.world.current.levels.head?, files.Pairwise fun f f' => f.number < f'.number) ∧
    (s.world.current.files.map (·.number)).Nodup ∧
    ∀ f ∈ s.world.current.files, f.number < s.world.nextFileNumber := by
  obtain ⟨g, hg⟩ := SysInv.of_reachable h
  have hi := hg.inv hup
  have hv := hi.layout
  refine ⟨fun files hfiles => ?_, fun f hf => ?_, hv.l0, hv.nodup, fun f hf => ?_⟩
  · -- the order is by disjoint ranges
    apply List.Pairwise.imp_of_mem _ (hv.deep files hfiles)
    intro f f' hf _ hbefore
    have hwf := hv.wf f (List.mem_flatten.mpr ⟨files, List.mem_of_mem_tail hfiles, hf⟩)
    exact ⟨hwf.smallest_le_largest.trans_lt hbefore, hbefore⟩
  · -- the bounds are the first and the last key
    have hwf := hv.wf f hf
    have hne := hwf.entries_ne_nil
    refine ⟨hne, hwf.sorted, ?_, ?_⟩
    · rw [hwf.smallest_eq, List.head?_eq_some_head hne]
      rfl
    · rw [hwf.largest_eq, List.getLast?_eq_some_getLast hne]
      rfl
  · exact hi.tables_lt f.number f (hi.current_tables f hf)

/-- After a compaction there are two files in L1 and one in L0. -/
theorem levels_in_order_compacting :
    let s := Policy.any.reach compactingUnderFlush
    s.world.current.levels.map (·.map (·.number)) = [[4], [2, 3]] ∧
      (∀ files ∈ s.world.current.levels.tail, files.Pairwise fun f f' =>
        f.smallest < f'.smallest ∧ f.largest < f'.smallest) ∧
      (∀ f ∈ s.world.current.files, f.entries ≠ [] ∧ Sorted Entry.key f.entries ∧
        f.entries.head?.map (·.key) = some f.smallest ∧
        f.entries.getLast?.map (·.key) = some f.largest) ∧
      (s.world.current.files.map (·.number)).Nodup ∧
      ∀ f ∈ s.world.current.files, f.number < s.world.nextFileNumber := by
  intro s
  obtain ⟨hup, hnumbers⟩ : s.process.IsUp ∧
      s.world.current.levels.map (·.map (·.number)) = [[4], [2, 3]] := by decide +kernel
  obtain ⟨hdeep, hfiles, -, hnodup, hlt⟩ := levels_in_order (Policy.reachable_reach _ _) hup
  exact ⟨hnumbers, hdeep, hfiles, hnodup, hlt⟩

/-- What holds when a thread makes a call. -/
theorem SysInv.demand (h : SysInv pol g s) {c : Call} (hc : c ∈ s.calls) :
    ∃ t, c.Demand t g s.world := by
  have hprocess := h.process
  rw [System.calls] at hc
  -- the open, a call of the client or the turn of the background thread
  split at hc
  next cfg c' k hp =>
    rw [hp] at hprocess
    obtain ⟨-, -, log, -, hsafe⟩ := hprocess
    rw [List.mem_singleton] at hc
    subst hc
    exact ⟨.client, (hsafe.demand h.stored).1⟩
  next cfg client bg hp =>
    rw [hp] at hprocess
    obtain ⟨-, hi, hclient, hbg⟩ := hprocess
    rcases List.mem_append.mp hc with hc | hc
    · split at hc
      next op c' k =>
        rw [List.mem_singleton] at hc
        subst hc
        obtain ⟨-, x, -, hsafe⟩ := hclient
        exact ⟨.client, hsafe.demand hi⟩
      next => cases hc
    · split at hc
      next c' k =>
        rw [List.mem_singleton] at hc
        subst hc
        obtain ⟨v, n, hsafe⟩ := hbg
        exact ⟨.background, hsafe.demand hi⟩
      next => cases hc
  next => cases hc

/-- Whenever, in any run within the limits of the formats, a table is created or unlinked, its
    number belongs neither to the current version nor to the version that the manifest on the disk
    describes. -/
theorem live_tables_untouched (h : Policy.any.Reachable s) {n : Nat}
    (hn : .openTrunc (numberToName n) ∈ s.calls ∨ .unlink (numberToName n) ∈ s.calls)
    (cfg : Config) :
    (∀ f ∈ s.world.current.files, f.number ≠ n) ∧
      ∃ loaded next, DB.loadVersion cfg s.world.disk = some (.ok (loaded, next)) ∧
        ∀ v ∈ loaded, ∀ f ∈ v.files, f.number ≠ n := by
  obtain ⟨g, hg⟩ := SysInv.of_reachable h
  have hdemand : (∀ f ∈ s.world.current.files, f.number ≠ n) ∧
      ∀ f ∈ g.saved.files, f.number ≠ n := by
    -- every call that is about to be made has its demand
    rcases hn with hc | hc
    · obtain ⟨t, hd⟩ := hg.demand hc
      exact hd n rfl
    · obtain ⟨t, hd⟩ := hg.demand hc
      exact hd n rfl
  obtain ⟨loaded, hload, hsaved⟩ := hg.stored.loadVersion cfg
  refine ⟨hdemand.1, loaded, g.savedNext, hload, ?_⟩
  rintro v hv
  rw [Option.mem_def] at hv
  rw [hv, Option.getD_some] at hsaved
  rw [hsaved]
  exact hdemand.2

/-- A second flush is about to create its table. -/
theorem live_tables_untouched_second_flush :
    let s := Policy.any.reach (overwriting ++ .invoke .flush :: List.replicate 4 (.clientStep .ok))
    .openTrunc (numberToName 2) ∈ s.calls ∧ s.world.current.files ≠ [] ∧
      ∀ f ∈ s.world.current.files, f.number ≠ 2 := by
  intro s
  have hcall : .openTrunc (numberToName 2) ∈ s.calls := by
    have hany : s.calls.any (fun c => match c with
        | .openTrunc name => name == numberToName 2
        | _ => false) = true := by decide +kernel
    obtain ⟨c, hc, hname⟩ := List.any_eq_true.mp hany
    split at hname
    next name => rwa [beq_iff_eq.mp hname] at hc
    next => cases hname
  exact ⟨hcall, by decide +kernel,
    (live_tables_untouched (Policy.reachable_reach _ _) (.inl hcall) exampleConfig).1⟩

/-! ## Scans -/

/-- The only block of the table with the given number cannot be read. -/
def spoilNumber (number : Nat) (f : FileMeta) : SSTableReader :=
  if f.number = number then spoil f.reader else f.reader

/-- Tables of one block each, one of which is spoilt. -/
private theorem damaged_spoilNumber {v : Version} {number : Nat}
    (h : ∀ f ∈ v.files, f.reader.index.length = 1 ∧ (f.number = number →
      (spoil f.reader).readBlock 0 = some (.error (.corruption "block CRC mismatch"))))
    (f : FileMeta) (hf : f ∈ v.files) : f.reader.Damaged (spoilNumber number f) := by
  obtain ⟨hindex, hread⟩ := h f hf
  rw [spoilNumber]
  split
  next hnumber => exact damaged_spoil hindex (hread hnumber)
  next => exact .refl f.reader

/-- In every state of every run, and whatever blocks have become unreadable since, a scan that
    returns `OK` returns in ascending order the pairs of its range that `Get` would find in the
    undamaged database. -/
theorem scan_agrees_with_get (h : Policy.any.Reachable s) (hup : s.process.IsUp)
    {d : FileMeta → SSTableReader}
    (hd : ∀ f ∈ s.world.current.files, f.reader.Damaged (d f)) (start end_ : Bytes) :
    ∃ status out w, (DB.scan start end_).eval (exec .client) .ok
        { s.world with mutex := none, current := s.world.current.damage d } =
          some ((status, out), w) ∧
      (status.ok = true → (out.map Prod.fst).Pairwise (· < ·) ∧
        ∀ k v, (k, v) ∈ out ↔
          start ≤ k ∧ (end_ ≠ [] → k < end_) ∧ s.world.answer k = some (.found v)) := by
  obtain ⟨g, hg⟩ := SysInv.of_reachable h
  have hi := hg.inv hup
  obtain ⟨status, out, hscan, hout⟩ := scan_spec hi.mem hi.layout hd start end_
  refine ⟨status, out, _, by rw [eval_scan rfl, hscan]; rfl, fun hok => ?_⟩
  obtain ⟨hsorted, hmem⟩ := hout hok
  refine ⟨hsorted, fun k v => ?_⟩
  -- both sides are the live records of the memtable and the tables
  rw [hmem, hi.live]
  obtain ⟨r, hr, hvalue⟩ := hi.serves k
  rw [hr, ← hvalue, Option.some.injEq]
  cases r with
  | found v' => simp [LookupResult.value]
  | deleted => simp [LookupResult.value]
  | notFound => simp [LookupResult.value]

/-- A scan over the tables of two levels returns `OK` with the key that is left, and without the
    one that was deleted. -/
theorem scan_agrees_with_get_compacting :
    let w := (Policy.any.reach compactingUnderFlush).world
    ∃ out w', (DB.scan [] []).eval (exec .client) .ok
        { w with mutex := none, current := w.current.damage FileMeta.reader } =
          some ((.OK, out), w') ∧
      (out.map Prod.fst).Pairwise (· < ·) ∧ ([2], [3]) ∈ out ∧ ∀ v, ([1], v) ∉ out := by
  intro w
  obtain ⟨hup, hfound, hdeleted⟩ : (Policy.any.reach compactingUnderFlush).process.IsUp ∧
      w.answer [2] = some (.found [3]) ∧ w.answer [1] = some .deleted := by decide +kernel
  have hreach := Policy.reachable_reach .any compactingUnderFlush
  obtain ⟨status, out, w', hscan, hout⟩ := scan_agrees_with_get hreach hup
    (fun f _ => .refl f.reader) [] []
  -- every block can be read, so the status is `OK`
  have hok : status = .OK := by
    obtain ⟨g, hg⟩ := SysInv.of_reachable hreach
    have hi := hg.inv hup
    obtain ⟨out', hintact, -⟩ := scan_intact hi.mem hi.layout [] []
    have heval := eval_scan (w := { w with mutex := none }) rfl [] []
    rw [damage_reader] at hscan
    rw [heval, hintact] at hscan
    cases hscan
    rfl
  obtain ⟨hsorted, hmem⟩ := hout (by rw [hok]; rfl)
  refine ⟨out, w', hok ▸ hscan, hsorted, (hmem [2] [3]).mpr ⟨by decide, by simp, hfound⟩, ?_⟩
  intro v hv
  have hanswer := ((hmem [1] v).mp hv).2.2
  rw [hdeleted] at hanswer
  cases hanswer

/-! ## Lookups in damaged tables -/

/-- While the database stays open, tables are only added. -/
theorem SysInv.live (h : SysInv pol g s) (hsteps : Relation.ReflTransGen pol.Live s s') :
    ∃ g', SysInv pol g' s' ∧ ∀ n f, g.tables n = some f → g'.tables n = some f := by
  induction hsteps with
  | refl => exact ⟨g, h, fun _ _ hf => hf⟩
  | tail _ hlive ih =>
    obtain ⟨g₁, hg₁, htables⟩ := ih
    obtain ⟨hstep, hup, hup'⟩ := hlive
    obtain ⟨g₂, hg₂, hcont⟩ := hg₁.step hstep
    exact ⟨g₂, hg₂, fun n f hf => (hcont hup hup').tables n f (htables n f hf)⟩

/-- A table that was part of the database at some point of a process's life answers alike with and
    without the cache of any later point. The runs are within the limits of the formats. -/
theorem cache_transparent (h : Policy.any.Reachable s) (hup : s.process.IsUp)
    (hsteps : Relation.ReflTransGen Policy.any.Live s s') {f : FileMeta}
    (hf : f ∈ s.world.current.files) (k : Bytes) :
    ∃ result status cache', f.reader.get s'.world.cache k = some ((result, status), cache') ∧
      f.reader.get none k = some ((result, status), none) := by
  obtain ⟨g, hg⟩ := SysInv.of_reachable h
  obtain ⟨g', hg', htables⟩ := hg.live hsteps
  have hi := hg.inv hup
  have hup' : s'.process.IsUp := by
    cases hsteps with
    | refl => exact hup
    | tail _ hlive => exact hlive.2.2
  have hi' := hg'.inv hup'
  have hwf := hi.layout.wf f hf
  -- the file is still the one of its number, so what is cached for it are its blocks
  have hcaches := cachesTable_damaged hwf (htables _ _ (hi.current_tables f hf)) (.refl f.reader)
  obtain ⟨cache', hcached, -⟩ := get_intact hwf.serves hcaches hi'.cache hwf.intact k
  have hempty : ∀ c ∈ (none : Option BlockCache), BlockCache.Holds (CachedBlocks g'.tables) c := by
    simp
  obtain ⟨none', hdirect, hnone⟩ := get_intact hwf.serves hcaches hempty hwf.intact k
  rw [Option.isSome_none, Option.isSome_eq_false_iff, Option.isNone_iff_eq_none] at hnone
  exact ⟨_, _, cache', hcached, hnone ▸ hdirect⟩

/-- A table whose only block is in the cache. -/
theorem cache_transparent_overwriting :
    let s := Policy.any.reach (flushingTwice ++ Event.calling (.get [1]) 6)
    s.world.current.files ≠ [] ∧
      ∀ f ∈ s.world.current.files, ∃ result status cache',
        f.reader.get s.world.cache [1] = some ((result, status), cache') ∧
          f.reader.get none [1] = some ((result, status), none) :=
  ⟨by decide +kernel, fun _ hf =>
    cache_transparent (Policy.reachable_reach _ _) (by decide +kernel) .refl hf [1]⟩

end Lsmdb
