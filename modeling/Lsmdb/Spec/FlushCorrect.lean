import Lsmdb.Spec.Install

/-!
# Flush

`FlushMemTable` keeps what is stored: it puts the records of the memtable into a table in
front of L0, then empties the memtable, then the log. Every failure on the way leaves the
records in at least one of these places, in the process as well as on disk
(`tripleE_flushMemTable`).
-/

namespace Lsmdb

open Prog SortedMap

variable {g : Ghost} {w : World}

/-! ## What the client knows -/

/-- The members that only the client changes. -/
structure Knows (x : Session) (mem : SkipList) (walOpen : Bool) (g : Ghost) (w : World) : Prop where
  session : g.session = x
  mem_eq : w.mem = mem
  walOpen_eq : w.walOpen = walOpen

section Knows

variable {x : Session} {mem : SkipList} {o : Bool}

/-- The background thread leaves the client's part alone. -/
theorem stable_knows : Stable (protocol .client) (Knows x mem o) := by
  intro g w g' w' hr _ h
  obtain ⟨hs, hm, -, ho, -⟩ := hr.client rfl
  exact ⟨hs.trans h.session, hm.trans h.mem_eq, ho.trans h.walOpen_eq⟩

/-- What the client knows does not depend on the lock. -/
theorem mutexFree_knows : MutexFree (Knows x mem o) :=
  fun _ _ _ h => ⟨h.session, h.mem_eq, h.walOpen_eq⟩

/-- Nor does it change when the client writes a table. -/
theorem Knows.private {g' : Ghost} {w' : World} (h : Knows x mem o g w)
    (hp : Private .client g w g' w') : Knows x mem o g' w' := by
  obtain ⟨owned, hg⟩ := hp.ghost
  obtain ⟨disk, next, mutex, hw⟩ := hp.world
  subst hg hw
  exact ⟨h.session, h.mem_eq, h.walOpen_eq⟩

/-- Nor when it writes the manifest. -/
theorem Knows.publish {g' : Ghost} {w' : World} (h : Knows x mem o g w)
    (hp : Publish .client g w g' w') : Knows x mem o g' w' := by
  obtain ⟨saved, savedNext, hg⟩ := hp.ghost
  obtain ⟨disk, hw⟩ := hp.world
  subst hg hw
  exact ⟨h.session, h.mem_eq, h.walOpen_eq⟩

/-- The memtable holds the records of the session. -/
theorem Knows.holds (h : Knows x mem o g w) (hi : Inv g w) : mem.Holds x.records := by
  rw [← h.mem_eq, ← h.session]
  exact hi.mem

/-- What the client knows survives the making of a table. -/
theorem TripleE.knows {α : Type} {p : DBE α} {P : Ghost → World → Prop}
    {Q : α → Ghost → World → Prop} {E : Status → Ghost → World → Prop}
    (h : TripleE (exec .client) (building .client) P p Q E) :
    TripleE (exec .client) (protocol .client) (fun g w => P g w ∧ Knows x mem o g w) p
      (fun a g w => Q a g w ∧ Knows x mem o g w) fun e g w => E e g w ∧ Knows x mem o g w :=
  TripleE.frame h (fun _ _ _ _ _ hi hp => hp.keeps hi) stable_knows fun _ _ _ _ _ hp hk =>
    hk.private hp

end Knows

/-- The same call, between the same flushes. -/
def SameCall (x x' : Session) : Prop :=
  x'.flushes = x.flushes ∧ x'.acked = x.acked ∧ x'.pending = x.pending ∧ x'.sound = x.sound

/-- A step of the client on its own members and the log. -/
theorem Keeps.ofClient {x : Session} {mem : SkipList} {cache : Option BlockCache} {o : Bool}
    {disk : Disk} (hx : SameCall g.session x)
    (hdisk : ∀ name, name ≠ walName → disk.lookup name = w.disk.lookup name) :
    Keeps .background g w { g with session := x }
      { w with disk := disk, mem := mem, cache := cache, walOpen := o } where
  owned := rfl
  files n _ := hdisk _ (numberToName_ne_walName n)
  next_le := le_rfl
  tables _ _ h := h
  faults h := h
  logFaults h := h
  -- the log is not the manifest
  locked h := ⟨h, rfl, rfl, rfl, hdisk _ (by decide)⟩
  unlocked h := h
  client h := by cases h
  background _ := ⟨[], rfl, hx.1⟩
  faults_eq := rfl
  logFaults_eq := rfl
  acked_eq := hx.2.1
  pending_eq := hx.2.2.1
  sound_eq := hx.2.2.2

/-- A flush does not change what is stored. -/
structure Flushed (x x' : Session) : Prop where
  store : x'.store = x.store
  acked : x'.acked = x.acked
  pending : x'.pending = x.pending
  sound : x'.sound = x.sound
  torn : x'.torn = x.torn
  tail : x'.tail = x.tail ∨ x'.tail = []

/-- A flush of nothing. -/
theorem Flushed.refl (x : Session) : Flushed x x := ⟨rfl, rfl, rfl, rfl, rfl, .inl rfl⟩

/-- The session is the client's. -/
theorem stable_session (φ : Session → Prop) : Stable (protocol .client) fun g _ => φ g.session := by
  intro g w g' w' hr _ h
  rw [(hr.client rfl).1]
  exact h

/-- A log that was open stays open, if the client leaves it so. -/
theorem stable_reopened (o : Bool) :
    Stable (protocol .client) fun _ w => o = true → w.walOpen = true :=
  fun _ _ _ _ hr _ h ho => (hr.client rfl).2.2.2.1.trans (h ho)

/-- Records that a table below repeats. -/
private theorem liveIn_repeat (records : List Entry) (ts : List (List Entry)) :
    liveIn (records :: records :: ts) = liveIn (records :: ts) := by
  funext k
  rw [liveIn, liveIn, newest_cons, newest_cons]
  cases find Entry.key k records with
  | none => rfl
  | some e => rfl

/-! ## The log is started again -/

/-- The memtable is empty and the directory has caught up with the version. -/
structure Emptied (x : Session) (o : Bool) (g : Ghost) (w : World) : Prop where
  held : w.mutex = some .client
  saved : liveIn g.saved.tables = x.store
  records : g.session.records = []
  flushed : Flushed x g.session
  walOpen_eq : w.walOpen = o

/-- The background thread cannot change the version while the client has the lock. -/
theorem stable_emptied (x : Session) (o : Bool) : Stable (protocol .client) (Emptied x o) := by
  intro g w g' w' hr _ h
  obtain ⟨hs, -, -, ho, -⟩ := hr.client rfl
  obtain ⟨hm, -, -, hsaved, -⟩ := hr.locked h.held
  exact ⟨hm, by rw [hsaved]; exact h.saved, by rw [hs]; exact h.records,
    by rw [hs]; exact h.flushed, ho.trans h.walOpen_eq⟩

/-- The log starts empty over a version that has everything. -/
private theorem Inv.truncate (hi : Inv g w) (hsaved : liveIn g.saved.tables = g.session.store)
    (hrecords : g.session.records = []) :
    Inv { g with session := { g.session with logged := [], tail := [] } }
      { w with disk := w.disk.insert walName [] } := by
  -- only the log changes
  have hdisk (name : String) (hname : name ≠ walName) :
      (w.disk.insert walName []).lookup name = w.disk.lookup name := AList.lookup_insert_ne hname
  refine { hi with
    stored := ?stored
    current_files := fun f hf =>
      (hdisk _ (numberToName_ne_walName _)).trans (hi.current_files f hf)
    session := ⟨hi.session.store, fun _ => .inl rfl⟩
    keys := fun _ e he => absurd (hrecords ▸ he) List.not_mem_nil
    wal := fun _ => ⟨[], AList.lookup_insert _⟩ }
  refine { hi.stored with
    manifest := ?manifest
    saved_files := fun f hf =>
      (hdisk _ (numberToName_ne_walName _)).trans (hi.stored.saved_files f hf)
    logged := fun _ => ⟨by simp, ?file, .inl rfl, hsaved⟩ }
  case manifest =>
    rw [hdisk _ (by decide)]
    exact hi.stored.manifest
  case file =>
    show ((w.disk.insert walName []).lookup walName).getD [] = _
    rw [AList.lookup_insert]
    rfl

/-- Opening the log for appending creates it if it is missing. -/
theorem Inv.openAppend (hi : Inv g w) (hmissing : walName ∉ w.disk) :
    Inv g { w with disk := w.disk.insert walName [] } :=
  { hi with
    stored := hi.stored.createLog hmissing
    current_files := fun f hf => (AList.lookup_insert_ne (numberToName_ne_walName _)).trans
      (hi.current_files f hf)
    wal := fun _ => ⟨[], AList.lookup_insert _⟩ }

variable (cfg : Config)

/-- A flush has failed, under the lock. -/
def FlushFailed (x : Session) (g : Ghost) (_ : World) : Prop :=
  Flushed x g.session ∧ g.faults = true

/-- The end of `FlushMemTable`. -/
theorem tripleE_restartWal (x : Session) (o : Bool) :
    TripleE (exec .client) (protocol .client) (Emptied x o) (DB.restartWal cfg)
      (fun _ => Emptied x true) fun _ g w => w.mutex = some .client ∧ FlushFailed x g w := by
  apply TripleE.bind (Q := fun _ => Emptied x false)
  · apply DB.tripleE_call
    apply Triple.lift (c := Call.storeWal false) (stable_emptied x o) fun _ _ _ _ => trivial
    intro g w hi h ch r w' _ hexec
    cases hexec
    refine ⟨g, .ofClient ⟨rfl, rfl, rfl, rfl⟩ fun _ _ => rfl, ?_, h.held, h.saved, h.records, h.flushed, rfl⟩
    exact { hi with wal := fun hopen => by cases hopen }
  intro _
  apply TripleE.bind (Q := fun _ => Emptied x false)
  · apply DB.tripleE_call
    apply Triple.lift (c := Call.openTrunc walName) (stable_emptied x false)
    · exact fun g w _ _ n heq => absurd heq.symm (numberToName_ne_walName n)
    · intro g w hi h ch r w' _ hexec
      -- the truncation may fail unnoticed: the log then has records that the table has too
      rcases exec_openTrunc hexec with ⟨errno, -, rfl, rfl⟩ | ⟨rfl, rfl⟩
      · exact ⟨g, Keeps.refl _ g w', hi, h⟩
      · have hsaved : liveIn g.saved.tables = g.session.store := h.saved.trans h.flushed.store.symm
        refine ⟨{ g with session := { g.session with logged := [], tail := [] } },
          .ofClient ⟨rfl, rfl, rfl, rfl⟩ fun name hname => AList.lookup_insert_ne hname,
          hi.truncate hsaved h.records, h.held, h.saved, h.records, ?_, h.walOpen_eq⟩
        exact { h.flushed with tail := .inr rfl }
  intro _
  -- from here on `WalWriter::Open`
  apply TripleE.bind (Q := fun _ g w => Emptied x false g w ∧
    ∃ file, w.disk.lookup walName = some file)
  · apply DB.tripleE_check
    apply Triple.lift (c := Call.openAppend walName) (stable_emptied x false)
      fun _ _ _ _ => trivial
    intro g w hi h ch r w' hallow hexec
    rcases exec_openAppend hexec with ⟨errno, rfl, rfl, rfl⟩ | ⟨rfl, rfl⟩
    · exact ⟨g, Keeps.refl _ g w', hi, h.held, h.flushed, hallow.2⟩
    · by_cases hmem : walName ∈ w.disk
      · rw [if_pos hmem]
        exact ⟨g, Keeps.refl _ g w, hi, h, Option.isSome_iff_exists.mp (AList.lookup_isSome.mpr hmem)⟩
      · rw [if_neg hmem]
        exact ⟨g, .ofClient ⟨rfl, rfl, rfl, rfl⟩ fun name hname => AList.lookup_insert_ne hname,
          hi.openAppend hmem,
          ⟨h.held, h.saved, h.records, h.flushed, h.walOpen_eq⟩, [], AList.lookup_insert _⟩
  intro _
  apply DB.tripleE_call
  apply Triple.lift (c := Call.storeWal true)
  · apply (stable_emptied x false).and
    intro g w g' w' hr _ hfile
    rw [(hr.client rfl).2.2.2.2]
    exact hfile
  · exact fun _ _ _ _ => trivial
  · intro g w hi ⟨h, hfile⟩ ch r w' _ hexec
    cases hexec
    refine ⟨g, .ofClient ⟨rfl, rfl, rfl, rfl⟩ fun _ _ => rfl, ?_, h.held, h.saved, h.records, h.flushed, rfl⟩
    exact { hi with wal := fun _ => hfile }

/-! ## The flush -/

/-- The records of the memtable, one after the other. -/
theorem tripleE_addEntries {x : Session} {mem : SkipList} {o : Bool} (n : Nat)
    (es : List Entry) :
    TripleE (exec .client) (protocol .client)
      (fun g w => Adding .client cfg.options.bloomBitsPerKey [] n [] g w ∧ Knows x mem o g w)
      (es.foldlM (DB.addEntry cfg n) (SSTableWriter.new kOutputBlockSize cfg.options.bloomBitsPerKey))
      (fun wr g w => wr = (writerOf cfg.options.bloomBitsPerKey es).1 ∧
        Adding .client cfg.options.bloomBitsPerKey [] n es g w ∧ Knows x mem o g w)
      fun _ g w => Failed .client g w ∧ Knows x mem o g w := by
  -- the invariant of the loop: the writer and the file are those of the records so far
  apply TripleE.conseq (TripleE.foldlM (f := DB.addEntry cfg n) (l := es)
    (I := fun pre wr g w => wr = (writerOf cfg.options.bloomBitsPerKey pre).1 ∧
      Adding .client cfg.options.bloomBitsPerKey [] n pre g w ∧ Knows x mem o g w) ?step
    (writerOf cfg.options.bloomBitsPerKey []).1)
    (fun g w _ h => ⟨rfl, h⟩) (fun wr g w _ h => h) fun e g w _ h => h
  intro pre e _ wr _
  apply Triple.pre
  rintro rfl
  apply TripleE.conseq (TripleE.knows (tripleE_addEntry cfg [] n pre e)) (fun g w _ h => h)
  · exact fun wr g w _ h => ⟨h.1.1, h.1.2, h.2⟩
  · exact fun e g w _ h => h

/-- One more table has been installed by a flush. -/
def Session.flushed (x : Session) : Session := { x with flushes := x.flushes + 1 }

/-- The table of a flush in front of L0. -/
theorem Inv.flush {x : Session} (hi : Inv g w) (hx : g.session = x) {f : FileMeta}
    (hentries : f.entries = x.records) (hwf : f.Wf) (hf : Holding .client [f] g w)
    (hfits : (DB.pushL0 w.current f).Fits) :
    Inv { g with
        tables := register g.tables [f]
        owned := Function.update g.owned .client ∅
        session := x.flushed }
      { w with current := DB.pushL0 w.current f } := by
  subst hx
  -- the number of the table is one that the client has taken
  have hmine : f.number ∈ g.owned .client := hf.owned f (List.mem_singleton_self f)
  have hlayout : Layout (DB.pushL0 w.current f) := by
    apply hi.layout.pushL0 hwf
    · exact fun h hh => hi.l0_lt _ hmine h hh
    · exact fun h hh => hi.number_ne_current hmine hh
  have hmem (h : FileMeta) (hh : h ∈ (DB.pushL0 w.current f).files) :
      h ∈ w.current.files ∨ h ∈ [f] := by
    rcases mem_files_pushL0.mp hh with hh | rfl
    · exact .inl hh
    · exact .inr (List.mem_singleton_self h)
  -- the records are in the memtable and in the new table for now, which changes no answer
  have hlive : liveIn (g.session.records :: (DB.pushL0 w.current f).tables) = g.session.store := by
    rw [tables_pushL0, hentries, liveIn_repeat]
    exact hi.live
  have hinstall := hi.install hf (by simp) hlayout hfits hmem (fun ht => by cases ht) hlive
  exact { hinstall with
    stored := { hinstall.stored with
      logged := fun hs => { hinstall.stored.logged hs with } }
    session := ⟨hi.session.store, hi.session.tail⟩ }

/-- The compaction thread sees a flush as one more file in L0. -/
theorem Keeps.flush {x : Session} {f : FileMeta} (hi : Inv g w) (hx : g.session = x)
    (hheld : w.mutex = some .client) (hf : Holding .client [f] g w) :
    Keeps .background g w
      { g with
        tables := register g.tables [f]
        owned := Function.update g.owned .client ∅
        session := x.flushed }
      { w with current := DB.pushL0 w.current f } := by
  -- the client has the lock, so the background thread is not in its critical section
  have hother : w.mutex ≠ some .background := by
    rw [hheld]
    decide
  exact { Keeps.refl .background g w with
    tables := fun n h hh =>
      register_of_some (fun h hh => hi.owned_new _ _ (hf.owned h hh)) hh
    locked := fun hm => absurd hm hother
    client := fun ht => by cases ht
    background := fun _ => ⟨[f], rfl, by rw [hx]; rfl⟩
    acked_eq := by rw [hx]; rfl
    pending_eq := by rw [hx]; rfl
    sound_eq := by rw [hx]; rfl }

/-- What the client knows while it holds the mutex. -/
structure InFlush (x : Session) (mem : SkipList) (o : Bool) (v : Version) (g : Ghost) (w : World) :
    Prop extends Knows x mem o g w where
  held : w.mutex = some .client
  current : w.current = v

/-- Nor can it during the installation. -/
theorem stable_inFlush {x : Session} {mem : SkipList} {o : Bool} {v : Version} :
    Stable (protocol .client) (InFlush x mem o v) := by
  intro g w g' w' hr hi h
  obtain ⟨hm, hc, -⟩ := hr.locked h.held
  exact ⟨stable_knows g w g' w' hr hi h.toKnows, hm, hc.trans h.current⟩

/-- The part of `FlushMemTable` under the lock. -/
private theorem tripleE_installFlush {x : Session} {mem : SkipList} {o : Bool} {f : FileMeta}
    (hentries : f.entries = x.records) (hwf : f.Wf) :
    TripleE (exec .client) (protocol .client)
      (fun g w => w.mutex = some .client ∧ Holding .client [f] g w ∧ Knows x mem o g w)
      (do
        let v ← DB.call .loadCurrent
        let nv := DB.pushL0 v f
        DB.call (.storeCurrent nv)
        DB.writeManifest nv
        DB.call (.storeMem (SkipList.new cfg.rng))
        DB.restartWal cfg)
      (fun _ => Emptied x true) fun _ g w => w.mutex = some .client ∧ FlushFailed x g w := by
  -- the version to which the table is pushed
  apply TripleE.bind (Q := fun v g w => Holding .client [f] g w ∧ InFlush x mem o v g w)
  · apply DB.tripleE_call
    apply Triple.lift (c := Call.loadCurrent)
      (stable_held.and ((stable_holding [f]).and stable_knows)) fun _ _ _ _ => trivial
    intro g w hi ⟨hm, hf, hk⟩ ch r w' _ hexec
    cases hexec
    exact ⟨g, Keeps.refl _ g w, hi, hf, hk, hm, rfl⟩
  intro v
  apply TripleE.bind (Q := fun _ => InFlush x.flushed mem o (DB.pushL0 v f))
  · apply DB.tripleE_call
    apply Triple.lift (c := Call.storeCurrent (DB.pushL0 v f))
      (Stable.and (K := protocol .client) (stable_holding [f]) stable_inFlush)
      fun _ _ _ _ => trivial
    intro g w hi ⟨hf, h⟩ ch r w' hallow hexec
    cases hexec
    have hfits : (DB.pushL0 v f).Fits := hallow.1
    rw [← h.current] at hfits ⊢
    refine ⟨_, .flush hi h.session h.held hf, hi.flush h.session hentries hwf hf hfits,
      ⟨rfl, h.mem_eq, h.walOpen_eq⟩, h.held, ?_⟩
    rw [h.current]
  intro _
  apply TripleE.bind (Q := fun _ g w => InFlush x.flushed mem o (DB.pushL0 v f) g w ∧
    g.saved = DB.pushL0 v f)
  · apply TripleE.conseq (TripleE.frame (tripleE_writeManifest (DB.pushL0 v f))
      (fun _ _ _ _ _ _ hp => hp.keeps) (stable_knows (x := x.flushed) (o := o))
      fun _ _ _ _ _ hp hk => hk.publish hp)
    · exact fun g w _ h => ⟨⟨h.held, h.current⟩, h.toKnows⟩
    · exact fun _ g w _ h => ⟨⟨h.2, h.1.1, h.1.2.1⟩, h.1.2.2⟩
    · intro e g w _ h
      exact ⟨h.1.1, by rw [h.2.session]; exact ⟨rfl, rfl, rfl, rfl, rfl, .inl rfl⟩, h.1.2⟩
  intro _
  -- the records are in the version now
  apply Triple.fact (F := liveIn (DB.pushL0 v f).tables = x.store)
  · intro g w hi ⟨h, _⟩
    have hlive : liveIn (x.records :: (DB.pushL0 v f).tables) = x.store := by
      have hlive := hi.live
      rwa [h.session, h.current] at hlive
    rw [tables_pushL0, hentries, liveIn_repeat] at hlive
    rw [tables_pushL0, hentries, hlive]
  intro hlive
  apply TripleE.bind (Q := fun _ => Emptied x o)
  · apply DB.tripleE_call
    apply Triple.lift (c := Call.storeMem (SkipList.new cfg.rng))
    · intro g w g' w' hr hi h
      exact ⟨stable_inFlush g w g' w' hr hi h.1, (hr.locked h.1.held).2.2.2.1.trans h.2⟩
    · exact fun _ _ _ _ => trivial
    · intro g w hi ⟨h, hsaved⟩ ch r w' _ hexec
      cases hexec
      refine ⟨{ g with session := { g.session with records := [] } },
        .ofClient ⟨rfl, rfl, rfl, rfl⟩ fun _ _ => rfl,
        ?_, h.held, by rw [hsaved]; exact hlive, rfl, ?_, h.walOpen_eq⟩
      · refine { hi with
          stored := { hi.stored with
            logged := fun hs => { hi.stored.logged hs with } }
          session := ⟨hi.session.store, hi.session.tail⟩
          mem := SkipList.holds_new cfg.rng
          live := ?live
          behind := ?behind
          keys := fun _ e he => absurd he List.not_mem_nil }
        case live =>
          show liveIn ([] :: w.current.tables) = g.session.store
          rw [liveIn_nil_cons, h.current, hlive, h.session]
          rfl
        case behind =>
          intro k _
          show liveIn g.saved.tables k = g.session.store k
          rw [hsaved, hlive, h.session]
          rfl
      · rw [h.session]
        exact ⟨rfl, rfl, rfl, rfl, rfl, .inl rfl⟩
  · exact fun _ => tripleE_restartWal cfg x o

/-- What a flush has achieved does not depend on the lock. -/
private theorem mutexFree_flushed (x : Session) (b : Bool) :
    MutexFree fun g w => Flushed x g.session ∧ (b = true → w.walOpen = true) :=
  fun _ _ _ h => h

/-- Nor does what a failed one has left. -/
private theorem mutexFree_flushFailed (x : Session) : MutexFree (FlushFailed x) := fun _ _ _ h => h

/-- Nor does the background thread change it. -/
theorem stable_flushFailed (x : Session) : Stable (protocol .client) (FlushFailed x) :=
  (stable_session (Flushed x)).and stable_faults

/-- `FlushMemTable`: what is stored stays the same, whatever fails. -/
theorem tripleE_flushMemTable (x : Session) (mem : SkipList) (o : Bool) :
    TripleE (exec .client) (protocol .client)
      (fun g w => w.mutex ≠ some .client ∧ Knows x mem o g w) (DB.flushMemTable cfg)
      (fun _ g w => w.mutex ≠ some .client ∧ Flushed x g.session ∧ (o = true → w.walOpen = true))
      fun _ g w => w.mutex ≠ some .client ∧ FlushFailed x g w := by
  apply TripleE.bind (Q := fun m g w => m = mem ∧ w.mutex ≠ some .client ∧ Knows x mem o g w)
  · apply DB.tripleE_call
    apply Triple.lift (c := Call.loadMem) (stable_notHeld.and stable_knows) fun _ _ _ _ => trivial
    intro g w hi h ch r w' _ hexec
    cases hexec
    exact ⟨g, Keeps.refl _ g w, hi, h.2.mem_eq, h⟩
  intro m
  apply Triple.pre
  rintro rfl
  apply Triple.fact (F := m.Holds x.records) fun g w hi h => h.2.holds hi
  intro hholds
  by_cases hempty : m.size = 0
  · -- nothing to flush
    rw [if_pos hempty]
    apply TripleE.ret
    intro g w _ h
    rw [h.2.session, h.2.walOpen_eq]
    exact ⟨h.1, .refl x, fun ho => ho⟩
  rw [if_neg hempty]
  -- the memtable has a record, so the table is not empty
  have hne : x.records ≠ [] := by
    intro hnil
    rw [hholds.size_eq, hnil] at hempty
    exact hempty rfl
  -- an error on the way leaves the session as it was
  have hfailed (e : Status) (g : Ghost) (w : World) (_ : Inv g w)
      (h : Failed .client g w ∧ Knows x m o g w) :
      w.mutex ≠ some .client ∧ FlushFailed x g w :=
    ⟨h.1.1, by rw [h.2.session]; exact .refl x, h.1.2⟩
  -- the table
  apply TripleE.bind (Q := fun n g w => (w.mutex ≠ some .client ∧ Taken .client [] n g w) ∧
    Knows x m o g w)
  · apply TripleE.conseq (TripleE.knows (E := fun _ _ _ => False)
      (TripleE.lift (triple_newFileNumber [])))
    · exact fun g w _ h => ⟨⟨h.1, ⟨by simp, by simp⟩⟩, h.2⟩
    · exact fun n g w _ h => h
    · exact fun e g w _ h => h.1.elim
  intro n
  apply TripleE.bind (TripleE.conseq (TripleE.knows (tripleE_openWriter cfg [] n))
    (fun g w _ h => h) (S := fun wr g w =>
      wr = SSTableWriter.new kOutputBlockSize cfg.options.bloomBitsPerKey ∧
        Writing .client [] n [] g w ∧ Knows x m o g w)
    (fun wr g w _ h => ⟨h.1.1, h.1.2, h.2⟩) hfailed)
  intro wr
  apply Triple.pre
  rintro rfl
  apply TripleE.bind (tripleE_defined (memRecords_eq hholds) (Q := fun r g w =>
    r = (x.records, .OK) ∧ Writing .client [] n [] g w ∧ Knows x m o g w)
    fun g w _ h => ⟨rfl, h⟩)
  intro r
  apply Triple.pre
  rintro rfl
  apply TripleE.bind (TripleE.conseq (tripleE_addEntries cfg n x.records) (fun g w _ h => h)
    (fun wr g w _ h => h) hfailed)
  intro wr
  apply Triple.pre
  rintro rfl
  apply TripleE.bind (TripleE.conseq (TripleE.knows (tripleE_finishTable cfg [] n x.records))
    (fun g w _ h => h) (S := fun f g w =>
      (f = tableMeta cfg.options.bloomBitsPerKey x.records n ∧
        TableFits kOutputBlockSize cfg.options.bloomBitsPerKey x.records) ∧
        w.mutex ≠ some .client ∧ Holding .client [f] g w ∧ Knows x m o g w)
    (fun f g w _ h => ⟨⟨h.1.1.1, h.1.1.2.1⟩, h.1.2.1, h.1.2.2, h.2⟩) hfailed)
  intro f
  apply Triple.pre
  rintro ⟨hf, hfit⟩
  have htable : IsTable f x.records := by
    rw [hf]
    exact isTable_tableMeta hne hholds.sorted hfit n
  -- the installation
  apply tripleE_withLock ((stable_holding [f]).and stable_knows)
    (fun g w m h => ⟨⟨h.1.owned, h.1.files⟩, mutexFree_knows g w m h.2⟩)
    (fun _ => (stable_session (Flushed x)).and (stable_reopened o))
    (fun _ => mutexFree_flushed x o) (fun _ => stable_flushFailed x)
    fun _ => mutexFree_flushFailed x
  apply TripleE.conseq (tripleE_installFlush cfg htable.entries_eq htable.wf)
    (fun g w _ h => h)
  · exact fun _ g w _ h => ⟨h.held, h.flushed, fun _ => h.walOpen_eq⟩
  · exact fun e g w _ h => h

end Lsmdb
