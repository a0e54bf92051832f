import Lsmdb.Spec.FlushCorrect

/-!
# Writes

`Put` and `Delete` append the record to the log, apply it to the memtable and flush that
if it has grown. A write that returns `OK` is in effect; one that does not may be in
effect all the same (`tripleE_put`, `tripleE_delete`): in the log, if its `fsync` failed,
and in the memtable as well, if the flush did.
-/

namespace Lsmdb

open Prog SortedMap

variable {g : Ghost} {w : World} {x : Session} {e : Entry}

/-! ## The log -/

/-- A write is about to begin: nothing of it is stored yet, and the log has no tail. -/
structure Session.Ready (x : Session) (e : Entry) : Prop where
  fits : e.WalFits
  pending : x.pending = some e
  store : x.store = x.acked
  tail : x.sound = true → x.tail = []

/-- A part of the frame of a record has reached the log. -/
def Session.appending (x : Session) (e : Entry) (part : Bytes) : Session :=
  { x with torn := some e, tail := x.tail ++ part }

/-- A part of a frame is the beginning of the pending write. -/
private theorem Session.Ready.ok_appending (hr : x.Ready e) (part : Bytes) : (x.appending e part).Ok :=
  ⟨.inl hr.store, fun _ => .inr ⟨hr.store, e, hr.pending, rfl⟩⟩

/-- One more part of a frame. -/
theorem Inv.append (hi : Inv g w) (hr : x.Ready e) {part more : Bytes}
    (hx : g.session = x.appending e part) (hframe : part ++ more <+: walFrame e) {file : Bytes}
    (hfile : w.disk.lookup walName = some file) :
    Inv { g with session := x.appending e (part ++ more) }
      { w with disk := w.disk.append walName more } := by
  have hdisk (name : String) (hname : name ≠ walName) :
      (w.disk.append walName more).lookup name = w.disk.lookup name := Disk.lookup_append_ne hname
  have hrecords : g.session.records = x.records := by rw [hx]; rfl
  have hlogged : g.session.logged = x.logged := by rw [hx]; rfl
  have hstore : g.session.store = x.store := by rw [hx]; rfl
  have hsound : g.session.sound = x.sound := by rw [hx]; rfl
  refine { hi with
    stored := ?stored
    current_files := fun f hf =>
      (hdisk _ (numberToName_ne_walName _)).trans (hi.current_files f hf)
    session := hr.ok_appending _
    mem := hrecords ▸ hi.mem
    live := ?live
    behind := ?behind
    keys := fun hs => ?keys
    wal := fun _ => ⟨_, Disk.lookup_append_self hfile⟩ }
  case live =>
    have hlive := hi.live
    rwa [hrecords, hstore] at hlive
  case behind =>
    have hbehind := hi.behind
    rwa [hrecords, hstore] at hbehind
  case keys =>
    have hkeys := hi.keys (hsound ▸ hs)
    rwa [hrecords, hlogged] at hkeys
  -- on the disk the log is the only file that changes
  case stored =>
    refine { hi.stored with
      manifest := ?manifest
      saved_files := fun f hf =>
        (hdisk _ (numberToName_ne_walName _)).trans (hi.stored.saved_files f hf)
      logged := fun hs => ?logged }
    case manifest =>
      rw [hdisk _ (by decide)]
      exact hi.stored.manifest
    case logged =>
      have hl := hi.stored.logged (hsound ▸ hs)
      have hfile' := hl.file
      rw [Disk.log, hfile, hx] at hfile'
      have hfits := hl.fits
      have hreplay := hl.replay
      rw [hlogged] at hfits hreplay
      rw [hstore] at hreplay
      -- the log was whole before this write
      have hnil : x.tail = [] := hr.tail hs
      refine ⟨hfits, ?_, .inr ⟨e, rfl, hr.fits, ?_⟩, hreplay⟩
      · show ((w.disk.append walName more).lookup walName).getD [] = _
        rw [Disk.lookup_append_self hfile]
        have hbytes : file = walFrames x.logged ++ (x.tail ++ part) := hfile'
        rw [hbytes]
        simp [Session.appending]
      · show x.tail ++ (part ++ more) <+: walFrame e
        rwa [hnil, List.nil_append]

/-- The append begins. -/
private theorem Inv.startAppend (hi : Inv g w) (hr : x.Ready e) (hx : g.session = x) :
    Inv { g with session := x.appending e [] } w := by
  subst hx
  refine { hi with
    stored := { hi.stored with logged := fun hs => ?_ }
    session := hr.ok_appending [] }
  have hl := hi.stored.logged hs
  have hnil : g.session.tail = [] := hr.tail hs
  refine ⟨hl.fits, ?_, .inl ?_, hl.replay⟩
  · rw [hl.file]
    simp [Session.appending]
  · simp [Session.appending, hnil]

/-- A fault that has occurred stays. -/
theorem stable_faulty {t : Thread} : Stable (protocol t) fun g _ => g.Faulty := by
  intro g w g' w' hr _ h
  have hfaults := hr.faults
  have hlog := hr.logFaults
  simp only [Ghost.Faulty] at h ⊢
  cases hf : g'.faults <;> cases hl : g'.logFaults <;> simp_all

/-- An append has failed: a part of the frame may be in the log. -/
structure AppendFailed (x : Session) (e : Entry) (g : Ghost) (w : World) : Prop where
  unlocked : w.mutex ≠ some .client
  part : ∃ part, part <+: walFrame e ∧ g.session = x.appending e part ∧
    (g.logFaults = false → part = [])
  fault : g.Faulty

/-- `WalWriter::AddRecord`. -/
theorem tripleE_addRecord (cfg : Config) {mem : SkipList} {o : Bool} (hr : x.Ready e) :
    TripleE (exec .client) (protocol .client)
      (fun g w => w.mutex ≠ some .client ∧ Knows x mem o g w ∧ (o = false → g.Faulty))
      (DB.addRecord cfg e)
      (fun _ g w => w.mutex ≠ some .client ∧ Knows (x.appending e (walFrame e)) mem true g w)
      fun _ => AppendFailed x e := by
  apply TripleE.bind (Q := fun b g w => (b = o ∧ (o = false → g.Faulty)) ∧
    w.mutex ≠ some .client ∧ Knows (x.appending e []) mem o g w)
  · apply DB.tripleE_call
    apply Triple.lift (c := Call.loadWal)
    · apply stable_notHeld.and (stable_knows.and _)
      intro g w g' w' hrely hi h ho
      exact stable_faulty g w g' w' hrely hi (h ho)
    · intro g w _ h
      show g.session.store = g.session.acked
      rw [h.2.1.session]
      exact hr.store
    · intro g w hi ⟨hm, hk, ho⟩ ch r w' _ hexec
      cases hexec
      exact ⟨{ g with session := x.appending e [] },
        .ofClient (by rw [hk.session]; exact ⟨rfl, rfl, rfl, rfl⟩) fun _ _ => rfl,
        hi.startAppend hr hk.session, ⟨hk.walOpen_eq, ho⟩, hm, rfl, hk.mem_eq, hk.walOpen_eq⟩
  intro b
  cases hb : b with
  | false =>
    -- the log is not open
    apply TripleE.throw
    rintro g w _ ⟨⟨rfl, hfault⟩, hm, hk⟩
    exact ⟨hm, ⟨[], List.nil_prefix, hk.session, fun _ => rfl⟩, hfault rfl⟩
  | true =>
    apply TripleE.conseq (P := fun g w => w.mutex ≠ some .client ∧
      Knows (x.appending e []) mem true g w) _
      (fun g w _ h => by obtain ⟨⟨rfl, -⟩, hm, hk⟩ := h; exact ⟨hm, hk⟩)
      (fun _ g w _ h => h) fun _ g w _ h => h
    have hstable (part : Bytes) : Stable (protocol .client) fun g w =>
        w.mutex ≠ some .client ∧ Knows (x.appending e part) mem true g w :=
      stable_notHeld.and stable_knows
    -- nothing of the write is in effect while its frame is written
    have hpending (part : Bytes) (g : Ghost) (w : World)
        (h : w.mutex ≠ some .client ∧ Knows (x.appending e part) mem true g w) :
        walName = walName → g.session.store = g.session.acked := by
      intro _
      rw [h.2.session]
      exact hr.store
    apply TripleE.bind (Q := fun _ g w => w.mutex ≠ some .client ∧
      Knows (x.appending e (walFrame e)) mem true g w)
    · apply DB.tripleE_check
      apply DB.triple_writeFully (A := fun part g w => w.mutex ≠ some .client ∧
        Knows (x.appending e part) mem true g w) hstable fun part _ g w h => hpending part g w h
      · intro part more rest g w hdata hi ⟨hm, hk⟩
        obtain ⟨file, hfile⟩ := hi.wal hk.walOpen_eq
        have hframe : part ++ more <+: walFrame e := ⟨rest, by rw [List.append_assoc, hdata]⟩
        exact ⟨{ g with session := x.appending e (part ++ more) },
          .ofClient (by rw [hk.session]; exact ⟨rfl, rfl, rfl, rfl⟩)
            fun name hname => Disk.lookup_append_ne hname,
          hi.append hr hk.session hframe hfile, hm, rfl, hk.mem_eq, hk.walOpen_eq⟩
      · intro part rest errno g w hdata hi ⟨hm, hk⟩ hallow
        have hfault : if walName = walName then g.logFaults = true else g.faults = true := hallow.2
        rw [if_pos rfl] at hfault
        refine ⟨Keeps.refl _ g w, hm, ⟨part, ⟨rest, hdata⟩, hk.session, ?_⟩, .inr hfault⟩
        intro hno
        rw [hfault] at hno
        cases hno
    intro _
    by_cases hsync : cfg.options.sync = true
    · rw [if_pos hsync]
      apply DB.tripleE_check
      apply Triple.lift (c := Call.fsync walName) (hstable (walFrame e))
        fun g w _ h => hpending _ g w h
      intro g w hi ⟨hm, hk⟩ ch r w' hallow hexec
      obtain ⟨rfl, hres⟩ := exec_fsync hexec
      refine ⟨g, Keeps.refl _ g w', hi, ?_⟩
      rcases hres with ⟨errno, rfl, rfl⟩ | rfl
      · -- the frame is in the log nonetheless
        have hfault : if walName = walName then g.logFaults = true else g.faults = true := hallow.2
        rw [if_pos rfl] at hfault
        refine ⟨hm, ⟨walFrame e, List.prefix_rfl, hk.session, ?_⟩, .inr hfault⟩
        intro hno
        rw [hfault] at hno
        cases hno
      · exact ⟨hm, hk⟩
    · rw [if_neg hsync]
      exact TripleE.ret fun g w _ h => h

/-! ## The memtable -/

/-- The record is in the log and in the memtable. -/
def Session.applied (x : Session) (e : Entry) : Session :=
  { x with
    records := SortedMap.insert Entry.key e x.records
    logged := x.logged ++ [e]
    tail := []
    torn := some e
    store := x.store.apply e }

/-- The write is in the log and now in the memtable. -/
private theorem Inv.applyWrite (hi : Inv g w) (hr : x.Ready e)
    (hx : g.session = x.appending e (walFrame e)) {mem : SkipList}
    (hmem : mem.Holds (SortedMap.insert Entry.key e x.records)) :
    Inv { g with session := x.applied e } { w with mem := mem } := by
  have hrecords : g.session.records = x.records := by rw [hx]; rfl
  have hlogged : g.session.logged = x.logged := by rw [hx]; rfl
  have hstore : g.session.store = x.store := by rw [hx]; rfl
  have hsound : g.session.sound = x.sound := by rw [hx]; rfl
  refine { hi with
    stored := { hi.stored with logged := fun hs => ?logged }
    session := ⟨.inr ⟨e, hr.pending, congrArg (Store.apply · e) hr.store⟩, fun _ => .inl rfl⟩
    mem := hmem
    live := ?live
    behind := ?behind
    keys := fun hs => ?keys }
  -- a key that the memtable does not have is not the one written
  case behind =>
    intro k hk
    have hnone : find Entry.key k (SortedMap.insert Entry.key e x.records) = none :=
      find_eq_none_iff.mpr hk
    have hbehind := hi.behind k
    rw [hrecords, hstore] at hbehind
    show liveIn g.saved.tables k = x.store.apply e k
    rw [find_insert] at hnone
    split at hnone
    next => cases hnone
    next hne => rw [hbehind (find_eq_none_iff.mp hnone), Store.apply, if_neg hne]
  case logged =>
    have hl := hi.stored.logged (hsound ▸ hs)
    have hnil : x.tail = [] := hr.tail hs
    have hfits := hl.fits
    have hreplay := hl.replay
    have hfile := hl.file
    rw [hlogged] at hfits hreplay hfile
    refine ⟨?_, ?_, .inl rfl, ?_⟩
    · intro r hmem
      rcases List.mem_append.mp hmem with hmem | hmem
      · exact hfits r hmem
      · rw [List.mem_singleton.mp hmem]
        exact hr.fits
    · rw [hfile, hx]
      simp [Session.appending, Session.applied, hnil]
    · show (liveIn g.saved.tables).applyAll (x.logged ++ [e]) = x.store.apply e
      rw [Store.applyAll_append, hreplay, hstore, Store.applyAll_singleton]
  case live =>
    have hlive := hi.live
    rw [hrecords, hstore] at hlive
    show liveIn (SortedMap.insert Entry.key e x.records :: w.current.tables) = x.store.apply e
    rw [liveIn_insert, hlive]
  case keys =>
    have hkeys := hi.keys (hsound ▸ hs)
    rw [hrecords, hlogged] at hkeys
    intro r hmem
    show r.key ∈ (x.logged ++ [e]).map Entry.key
    rw [List.map_append, List.mem_append]
    rcases SortedMap.mem_insert hmem with rfl | hmem
    · exact .inr (by simp)
    · exact .inl (hkeys r hmem)

/-! ## The whole write -/

/-- A write that has returned `OK`. -/
structure Written (e : Entry) (x x' : Session) : Prop where
  store : x'.store = x.store.apply e
  acked : x'.acked = x.acked
  pending : x'.pending = x.pending
  sound : x'.sound = x.sound
  tail : x'.tail = []

/-- A write that has returned an error. -/
structure Rejected (e : Entry) (x x' : Session) : Prop where
  store : x'.store = x.store ∨ x'.store = x.store.apply e
  acked : x'.acked = x.acked
  pending : x'.pending = x.pending
  sound : x'.sound = x.sound
  tail : x.sound = true → x'.tail = [] ∨ x'.torn = some e ∧ x'.store = x.store

/-- A flush behind the write keeps it. -/
private theorem Flushed.written {x' : Session} (h : Flushed (x.applied e) x') : Written e x x' where
  store := h.store
  acked := h.acked
  pending := h.pending
  sound := h.sound
  tail := h.tail.elim id id

/-- A write that took effect and is reported as failed. -/
theorem Written.rejected {x' : Session} (h : Written e x x') : Rejected e x x' where
  store := .inr h.store
  acked := h.acked
  pending := h.pending
  sound := h.sound
  tail _ := .inl h.tail

/-- A write of which only the frame was begun. -/
private theorem rejected_appending (part : Bytes) : Rejected e x (x.appending e part) :=
  ⟨.inl rfl, rfl, rfl, rfl, fun _ => .inr ⟨rfl, rfl⟩⟩

/-- A write has returned an error; only a failed append leaves a tail. -/
structure WriteFailed (x : Session) (e : Entry) (g : Ghost) (w : World) : Prop where
  unlocked : w.mutex ≠ some .client
  rejected : Rejected e x g.session
  tail : g.logFaults = false → x.sound = true → g.session.tail = []
  fault : g.Faulty

variable (cfg : Config)

/-- `Put` and `Delete` alike. -/
private theorem tripleE_write {mem : SkipList} {o : Bool} (hr : x.Ready e)
    {change : SkipList → Option SkipList}
    (hchange : ∀ l es, l.Holds es →
      ∃ l', change l = some l' ∧ l'.Holds (SortedMap.insert Entry.key e es)) :
    TripleE (exec .client) (protocol .client)
      (fun g w => w.mutex ≠ some .client ∧ Knows x mem o g w ∧ (o = false → g.Faulty))
      (do
        DB.addRecord cfg e
        let mem ← DB.defined (change (← DB.call .loadMem))
        DB.call (.storeMem mem)
        DB.maybeFlush cfg mem)
      (fun _ g w => w.mutex ≠ some .client ∧ Written e x g.session ∧ w.walOpen = true)
      fun _ => WriteFailed x e := by
  -- the log comes first; if it fails, the memtable is as before
  apply TripleE.bind (TripleE.conseq (tripleE_addRecord cfg hr) (fun g w _ h => h)
    (fun _ g w _ h => h) ?failed)
  case failed =>
    intro _ g w _ h
    obtain ⟨part, hpart, hsession, hnil⟩ := h.part
    refine ⟨h.unlocked, by rw [hsession]; exact rejected_appending part, ?_, h.fault⟩
    intro hno hs
    rw [hsession, hnil hno]
    simp [Session.appending, hr.tail hs]
  intro _
  set y := x.appending e (walFrame e) with hy
  apply TripleE.bind (Q := fun m g w => m = mem ∧ w.mutex ≠ some .client ∧ Knows y mem true g w)
  · apply DB.tripleE_call
    apply Triple.lift (c := Call.loadMem) (stable_notHeld.and stable_knows) fun _ _ _ _ => trivial
    intro g w hi h ch r w' _ hexec
    cases hexec
    exact ⟨g, Keeps.refl _ g w, hi, h.2.mem_eq, h⟩
  intro m
  apply Triple.pre
  rintro rfl
  apply Triple.fact (F := m.Holds x.records) fun g w hi h => h.2.holds hi
  intro hholds
  obtain ⟨m', hm', hholds'⟩ := hchange m x.records hholds
  apply TripleE.bind (tripleE_defined hm' (Q := fun r g w => r = m' ∧ w.mutex ≠ some .client ∧
    Knows y m true g w) fun g w _ h => ⟨rfl, h⟩)
  intro r
  apply Triple.pre
  rintro rfl
  -- the write takes effect for the process when the memtable has it
  apply TripleE.bind (Q := fun _ g w => w.mutex ≠ some .client ∧ Knows (x.applied e) r true g w)
  · apply DB.tripleE_call
    apply Triple.lift (c := Call.storeMem r) (stable_notHeld.and stable_knows)
      fun _ _ _ _ => trivial
    intro g w hi ⟨hm, hk⟩ ch _ w' _ hexec
    cases hexec
    exact ⟨{ g with session := x.applied e },
      .ofClient (by rw [hk.session]; exact ⟨rfl, rfl, rfl, rfl⟩) fun _ _ => rfl,
      hi.applyWrite hr hk.session hholds', hm, rfl, rfl, hk.walOpen_eq⟩
  intro _
  rw [DB.maybeFlush]
  by_cases hfull : r.approximateMemoryUsage ≥ cfg.options.memtableFlushThreshold
  · rw [if_pos hfull]
    apply TripleE.conseq (tripleE_flushMemTable cfg (x.applied e) r true) (fun g w _ h => h)
    · exact fun _ g w _ h => ⟨h.1, h.2.1.written, h.2.2 rfl⟩
    · -- a failed flush does not undo the write
      intro _ g w _ h
      have hwritten := h.2.1.written
      exact ⟨h.1, hwritten.rejected, fun _ _ => hwritten.tail, .inl h.2.2⟩
  · rw [if_neg hfull]
    apply TripleE.ret
    intro g w _ h
    rw [h.2.session]
    exact ⟨h.1, ⟨rfl, rfl, rfl, rfl, rfl⟩, h.2.walOpen_eq⟩

/-- `Put`. -/
theorem tripleE_put {mem : SkipList} {o : Bool} {k v : Bytes}
    (hr : x.Ready ⟨k, v, .value⟩) :
    TripleE (exec .client) (protocol .client)
      (fun g w => w.mutex ≠ some .client ∧ Knows x mem o g w ∧ (o = false → g.Faulty))
      (DB.put cfg k v)
      (fun _ g w => w.mutex ≠ some .client ∧ Written ⟨k, v, .value⟩ x g.session ∧
        w.walOpen = true)
      fun _ => WriteFailed x ⟨k, v, .value⟩ :=
  tripleE_write cfg hr fun _ _ h => h.put k v

/-- `Delete`. -/
theorem tripleE_delete {mem : SkipList} {o : Bool} {k : Bytes}
    (hr : x.Ready ⟨k, [], .tombstone⟩) :
    TripleE (exec .client) (protocol .client)
      (fun g w => w.mutex ≠ some .client ∧ Knows x mem o g w ∧ (o = false → g.Faulty))
      (DB.delete cfg k)
      (fun _ g w => w.mutex ≠ some .client ∧ Written ⟨k, [], .tombstone⟩ x g.session ∧
        w.walOpen = true)
      fun _ => WriteFailed x ⟨k, [], .tombstone⟩ :=
  tripleE_write cfg hr fun _ _ h => h.delete k

end Lsmdb
