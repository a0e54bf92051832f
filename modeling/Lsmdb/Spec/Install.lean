import Lsmdb.Spec.TableBuild

/-!
# Installing a version

What a thread does under the lock: put a new version in place (`Inv.install`), write the
manifest for it (`tripleE_writeManifest`). Between the two the version of the process is
ahead of the one on disk, and stays ahead if the manifest cannot be written; the rename
is the moment at which the directory catches up.
-/

namespace Lsmdb

open Prog

variable {t : Thread} {g g' : Ghost} {w w' : World}

/-! ## The lock -/

/-- Taking or releasing the lock is no business of the other thread, which did not have it. -/
theorem Keeps.mutex {mutex : Option Thread} (h : w.mutex ≠ some t.other)
    (h' : mutex ≠ some t.other) : Keeps t.other g w g { w with mutex := mutex } :=
  { Keeps.refl t.other g w with
    locked := fun hm => absurd hm h
    unlocked := fun _ => h' }

/-- The two threads are different ones. -/
theorem Thread.some_ne_other (t : Thread) : some t ≠ some t.other :=
  fun h => t.other_ne (Option.some.inj h).symm

/-- An assertion that does not look at the mutex. -/
def MutexFree (P : Ghost → World → Prop) : Prop :=
  ∀ g w mutex, P g w → P g { w with mutex := mutex }

/-- The other thread cannot take the lock away. -/
theorem stable_held : Stable (protocol t) fun _ w => w.mutex = some t :=
  fun _ _ _ _ hr _ hm => (hr.locked hm).1

/-- Nor can it take it for this one. -/
theorem stable_notHeld : Stable (protocol t) fun _ w => w.mutex ≠ some t :=
  fun _ _ _ _ hr _ hm => hr.unlocked hm

/-- A fault is not forgotten. -/
theorem stable_faults {t : Thread} : Stable (protocol t) fun g _ => g.faults = true := by
  intro g w g' w' hr _ h
  cases hg : g'.faults with
  | true => rfl
  | false => rw [hr.faults hg] at h; exact h

/-- After `lock()` the thread has the mutex. -/
theorem triple_lock {P : Ghost → World → Prop} (hP : Stable (protocol t) P) (hfree : MutexFree P) :
    Triple (exec t) (protocol t) (fun g w => w.mutex ≠ some t ∧ P g w) (Prog.lift .lock)
      fun _ g w => w.mutex = some t ∧ P g w := by
  apply Triple.lift (c := Call.lock) (stable_notHeld.and hP) fun g w _ h => h.1
  intro g w hi h ch r w' _ hexec
  obtain ⟨hnone, rfl⟩ := exec_lock hexec
  exact ⟨g, .mutex (by simp [hnone]) t.some_ne_other, hi.mutex _, rfl, hfree g w _ h.2⟩

/-- After `unlock()` it does not. -/
theorem triple_unlock {P : Ghost → World → Prop} (hP : Stable (protocol t) P)
    (hfree : MutexFree P) :
    Triple (exec t) (protocol t) (fun g w => w.mutex = some t ∧ P g w) (Prog.lift .unlock)
      fun _ g w => w.mutex ≠ some t ∧ P g w := by
  apply Triple.lift (c := Call.unlock) (stable_held.and hP) fun g w _ h => h.1
  intro g w hi h ch r w' _ hexec
  obtain ⟨hheld, rfl⟩ := exec_unlock hexec
  refine ⟨g, .mutex ?_ (by simp), hi.mutex _, by simp, hfree g w _ h.2⟩
  rw [hheld]
  exact t.some_ne_other

/-- A block under the lock. -/
theorem tripleE_withLock {α : Type} {body : DBE α} {P : Ghost → World → Prop}
    {Q : α → Ghost → World → Prop} {E : Status → Ghost → World → Prop}
    (hP : Stable (protocol t) P) (hPfree : MutexFree P) (hQ : ∀ a, Stable (protocol t) (Q a))
    (hQfree : ∀ a, MutexFree (Q a)) (hE : ∀ e, Stable (protocol t) (E e))
    (hEfree : ∀ e, MutexFree (E e))
    (h : TripleE (exec t) (protocol t) (fun g w => w.mutex = some t ∧ P g w) body
      (fun a g w => w.mutex = some t ∧ Q a g w) fun e g w => w.mutex = some t ∧ E e g w) :
    TripleE (exec t) (protocol t) (fun g w => w.mutex ≠ some t ∧ P g w) (DB.withLock body)
      (fun a g w => w.mutex ≠ some t ∧ Q a g w) fun e g w => w.mutex ≠ some t ∧ E e g w := by
  apply Triple.bind (triple_lock hP hPfree)
  intro _
  apply Triple.bind h
  intro r
  -- `std::lock_guard`: the lock is given back on either way out
  cases r with
  | ok a =>
    apply Triple.bind (triple_unlock (hQ a) (hQfree a))
    exact fun _ => Triple.ret fun g w _ hw => hw
  | error e =>
    apply Triple.bind (triple_unlock (hE e) (hEfree e))
    exact fun _ => Triple.ret fun g w _ hw => hw

/-! ## The manifest -/

/-- A step that changes nothing but the manifest, by the thread that holds the mutex. -/
structure Publish (t : Thread) (g : Ghost) (w : World) (g' : Ghost) (w' : World) : Prop where
  ghost : ∃ saved savedNext, g' = { g with saved := saved, savedNext := savedNext }
  world : ∃ disk, w' = { w with disk := disk }
  disk : ∀ name, name ≠ manifestName → name ≠ manifestTmpName →
    w'.disk.lookup name = w.disk.lookup name
  held : w.mutex = some t

/-- The manifest is written under the lock, so the other thread does not notice. -/
theorem Publish.keeps (h : Publish t g w g' w') : Keeps t.other g w g' w' := by
  obtain ⟨saved, savedNext, hg⟩ := h.ghost
  obtain ⟨disk, hw⟩ := h.world
  have hheld : w.mutex ≠ some t.other := by
    rw [h.held]
    exact t.some_ne_other
  -- neither the tables nor the log have the name of a manifest
  have hfile (n : Nat) : w'.disk.lookup (numberToName n) = w.disk.lookup (numberToName n) :=
    h.disk _ (numberToName_ne_manifestName n) (numberToName_ne_manifestTmpName n)
  have hwal : w'.disk.lookup walName = w.disk.lookup walName :=
    h.disk _ (by decide) (by decide)
  subst hg hw
  exact
    { Keeps.refl t.other g w with
      files := fun n _ => hfile n
      locked := fun hm => absurd hm hheld
      client := fun _ => ⟨rfl, rfl, rfl, rfl, hwal⟩ }

/-- The contract of a thread that writes the manifest. -/
def publishing (t : Thread) : Contract Call Choice Ghost World :=
  (protocol t).withGuar (Publish t)

/-- The manifest of the current version, with the file number of the moment, takes its place. -/
theorem Inv.publish (hi : Inv g w) {disk : Disk}
    (hmanifest : disk.lookup manifestName = some (manifestBytes w.nextFileNumber w.current))
    (hdisk : ∀ name, name ≠ manifestName → name ≠ manifestTmpName →
      disk.lookup name = w.disk.lookup name) :
    Inv { g with saved := w.current, savedNext := w.nextFileNumber } { w with disk := disk } := by
  have hfile (n : Nat) : disk.lookup (numberToName n) = w.disk.lookup (numberToName n) :=
    hdisk _ (numberToName_ne_manifestName n) (numberToName_ne_manifestTmpName n)
  have hwal : disk.lookup walName = w.disk.lookup walName := hdisk _ (by decide) (by decide)
  have hcurrent (f : FileMeta) (hf : f ∈ w.current.files) :
      disk.lookup (numberToName f.number) = some f.reader.base :=
    (hfile _).trans (hi.current_files f hf)
  refine { hi with
    stored := ?stored
    savedNext_le := le_rfl
    current_files := hcurrent
    saved_tables := hi.current_tables
    behind := ?behind
    wal := ?wal }
  case behind =>
    intro k hk
    show liveIn w.current.tables k = _
    rw [← hi.live, liveIn_cons_of_absent (SortedMap.find_eq_none_iff.mpr hk)]
  case stored =>
    refine
      { layout := hi.layout
        fits := hi.fits
        savedNext_pos := hi.stored.savedNext_pos.trans_le hi.savedNext_le
        savedNext_lt := hi.next_lt
        saved_lt := fun f hf => hi.tables_lt _ f (hi.current_tables f hf)
        manifest := .inl hmanifest
        saved_files := hcurrent
        logged := fun hs => ?_ }
    -- the log gives the same over the new version
    have hl := hi.stored.logged hs
    exact ⟨hl.fits, by rw [Disk.log, hwal]; exact hl.file, hl.torn, hi.replay_current hs⟩
  case wal =>
    intro hopen
    show ∃ file, disk.lookup walName = some file
    rw [hwal]
    exact hi.wal hopen

/-- Writing the temporary file. -/
theorem Publish.tmp (hm : w.mutex = some t) {disk : Disk}
    (hdisk : ∀ name, name ≠ manifestTmpName → disk.lookup name = w.disk.lookup name) :
    Publish t g w g { w with disk := disk } where
  ghost := ⟨_, _, rfl⟩
  world := ⟨_, rfl⟩
  disk name _ hname := hdisk name hname
  held := hm

/-- The temporary file is not part of what the invariant speaks about. -/
theorem Inv.tmp (hi : Inv g w) {disk : Disk}
    (hdisk : ∀ name, name ≠ manifestTmpName → disk.lookup name = w.disk.lookup name) :
    Inv g { w with disk := disk } :=
  hi.scratch fun name _ hname => hdisk name hname

/-- The temporary manifest holds some bytes. The counter cannot move under the lock. -/
structure Drafting (t : Thread) (v : Version) (next : Nat) (file : Bytes) (g : Ghost) (w : World) :
    Prop where
  held : w.mutex = some t
  current : w.current = v
  next_eq : w.nextFileNumber = next
  file_eq : w.disk.lookup manifestTmpName = some file

/-- Under the lock the draft of the manifest is this thread's. -/
theorem stable_drafting (v : Version) (next : Nat) (file : Bytes) :
    Stable (protocol t) (Drafting t v next file) := by
  intro g w g' w' hr _ h
  obtain ⟨hm, hc, hn, -, ht⟩ := hr.locked h.held
  exact ⟨hm, hc.trans h.current, hn.trans h.next_eq, ht.trans h.file_eq⟩

/-- The thread holds the mutex and the current version is the given one. -/
theorem stable_current (v : Version) :
    Stable (protocol t) fun _ w => w.mutex = some t ∧ w.current = v := by
  intro g w g' w' hr _ h
  obtain ⟨hm, hc, -⟩ := hr.locked h.1
  exact ⟨hm, hc.trans h.2⟩

/-- A call has failed while the thread held the mutex. -/
def FailedLocked (t : Thread) (g : Ghost) (w : World) : Prop :=
  w.mutex = some t ∧ g.faults = true

/-- `WriteManifest` for the current version: on success the directory has caught up. -/
theorem tripleE_writeManifest (v : Version) :
    TripleE (exec t) (publishing t) (fun _ w => w.mutex = some t ∧ w.current = v)
      (DB.writeManifest v)
      (fun _ g w => w.mutex = some t ∧ w.current = v ∧ g.saved = v) fun _ => FailedLocked t := by
  have hrefl (g : Ghost) (w : World) (hm : w.mutex = some t) : Publish t g w g w :=
    ⟨⟨_, _, rfl⟩, ⟨_, rfl⟩, fun _ _ _ => rfl, hm⟩
  -- the counter
  apply TripleE.bind (Q := fun next g w => w.mutex = some t ∧ w.current = v ∧
    w.nextFileNumber = next)
  · apply DB.tripleE_call
    apply Triple.lift (c := Call.loadFileNumber) (K := publishing t) (stable_current v)
      fun _ _ _ _ => trivial
    intro g w hi h ch r w' _ hexec
    cases hexec
    exact ⟨g, hrefl g w h.1, hi, h.1, h.2, rfl⟩
  intro next
  set buf := manifestBytes next v with hbuf
  -- the temporary file
  apply TripleE.bind (Q := fun _ => Drafting t v next [])
  · apply DB.tripleE_check
    apply Triple.lift (c := Call.openTrunc manifestTmpName) (K := publishing t)
    · intro g w g' w' hr _ h
      obtain ⟨hm, hc, hn, -⟩ := hr.locked h.1
      exact ⟨hm, hc.trans h.2.1, hn.trans h.2.2⟩
    · exact fun g w _ _ n heq => absurd heq.symm (numberToName_ne_manifestTmpName n)
    · intro g w hi ⟨hm, hc, hn⟩ ch r w' hallow hexec
      rcases exec_openTrunc hexec with ⟨errno, rfl, rfl, rfl⟩ | ⟨rfl, rfl⟩
      · exact ⟨g, hrefl g w' hm, hi, hm, hallow.2⟩
      · have hdisk : ∀ name, name ≠ manifestTmpName →
            (w.disk.insert manifestTmpName []).lookup name = w.disk.lookup name :=
          fun name hname => AList.lookup_insert_ne hname
        exact ⟨g, .tmp hm hdisk, hi.tmp hdisk, hm, hc, hn, AList.lookup_insert _⟩
  intro _
  apply TripleE.bind (Q := fun _ => Drafting t v next buf)
  · apply DB.tripleE_check
    apply DB.triple_writeFully (K := publishing t) (A := Drafting t v next)
      (fun part => stable_drafting v next part) fun _ _ _ _ _ hname => absurd hname (by decide)
    · intro part more rest g w _ hi h
      -- a part more of the temporary file
      have hdisk : ∀ name, name ≠ manifestTmpName →
          (w.disk.append manifestTmpName more).lookup name = w.disk.lookup name :=
        fun name hname => Disk.lookup_append_ne hname
      exact ⟨g, .tmp h.held hdisk, hi.tmp hdisk, h.held, h.current, h.next_eq,
        Disk.lookup_append_self h.file_eq⟩
    · intro part rest errno g w _ hi h hallow
      have hfault : if manifestTmpName = walName then g.logFaults = true else g.faults = true :=
        hallow.2
      rw [if_neg (by decide)] at hfault
      exact ⟨hrefl g w h.held, h.held, hfault⟩
  intro _
  apply TripleE.bind (Q := fun _ => Drafting t v next buf)
  · apply DB.tripleE_check
    apply Triple.lift (c := Call.fsync manifestTmpName) (K := publishing t)
      (stable_drafting v next buf) fun _ _ _ _ hname => absurd hname (by decide)
    intro g w hi h ch r w' hallow hexec
    obtain ⟨rfl, hr⟩ := exec_fsync hexec
    refine ⟨g, hrefl g w' h.held, hi, ?_⟩
    rcases hr with ⟨errno, rfl, rfl⟩ | rfl
    · have hfault : if manifestTmpName = walName then g.logFaults = true else g.faults = true :=
        hallow.2
      rw [if_neg (by decide)] at hfault
      exact ⟨h.held, hfault⟩
    · exact h
  intro _
  apply TripleE.bind (Q := fun _ => Drafting t v next buf)
  · apply DB.tripleE_call
    apply Triple.lift (c := Call.close manifestTmpName) (K := publishing t)
      (stable_drafting v next buf) fun _ _ _ _ => trivial
    intro g w hi h ch r w' _ hexec
    obtain ⟨rfl, -⟩ := exec_close hexec
    exact ⟨g, hrefl g w' h.held, hi, h⟩
  intro _
  -- the moment at which the directory catches up
  apply DB.tripleE_check
  apply Triple.lift (c := Call.rename manifestTmpName manifestName) (K := publishing t)
    (stable_drafting v next buf) fun _ _ _ _ => trivial
  intro g w hi h ch r w' hallow hexec
  rcases exec_rename hexec h.file_eq with ⟨errno, rfl, rfl, rfl⟩ | ⟨rfl, rfl⟩
  · exact ⟨g, hrefl g w' h.held, hi, h.held, hallow.2⟩
  -- nothing but the two manifest names has changed
  · have hdisk : ∀ name, name ≠ manifestName → name ≠ manifestTmpName →
        ((w.disk.erase manifestTmpName).insert manifestName buf).lookup name =
          w.disk.lookup name := by
      intro name hname htmpName
      rw [AList.lookup_insert_ne hname, AList.lookup_erase_ne htmpName]
    have hmanifest : ((w.disk.erase manifestTmpName).insert manifestName buf).lookup manifestName =
        some (manifestBytes w.nextFileNumber w.current) := by
      rw [AList.lookup_insert, hbuf, h.current, h.next_eq]
    refine ⟨_, ⟨⟨_, _, rfl⟩, ⟨_, rfl⟩, hdisk, h.held⟩, hi.publish hmanifest hdisk, h.held,
      h.current, h.current⟩

/-! ## A new version -/

/-- The tables by number, after new ones have joined. -/
def register (tables : Nat → Option FileMeta) (files : List FileMeta) (n : Nat) :
    Option FileMeta :=
  (files.find? fun f => f.number == n).or (tables n)

section Register

variable {tables : Nat → Option FileMeta} {files : List FileMeta} {f : FileMeta} {n : Nat}

/-- The new tables are registered under their numbers. -/
theorem register_of_mem (hnodup : (files.map (·.number)).Nodup) (hf : f ∈ files) :
    register tables files f.number = some f := by
  rw [register]
  cases hfind : files.find? fun g => g.number == f.number with
  | none => exact absurd (List.find?_eq_none.mp hfind f hf) (by simp)
  | some g =>
    have hg : g ∈ files := List.mem_of_find?_eq_some hfind
    have hnum : g.number = f.number := by simpa using List.find?_some hfind
    rw [List.inj_on_of_nodup_map hnodup hg hf hnum]
    rfl

/-- A registered table keeps its number. -/
theorem register_of_some (hnew : ∀ g ∈ files, tables g.number = none) (h : tables n = some f) :
    register tables files n = some f := by
  rw [register]
  cases hfind : files.find? fun g => g.number == n with
  | none => rwa [Option.none_or]
  | some g =>
    have hg : g ∈ files := List.mem_of_find?_eq_some hfind
    have hnum : g.number = n := by simpa using List.find?_some hfind
    have hnone := hnew g hg
    rw [hnum, h] at hnone
    cases hnone

/-- Every registered table is a new one or an old one. -/
theorem register_cases (h : register tables files n = some f) :
    (f ∈ files ∧ f.number = n) ∨ tables n = some f := by
  rw [register] at h
  cases hfind : files.find? fun g => g.number == n with
  | none => rw [hfind, Option.none_or] at h; exact .inr h
  | some g =>
    rw [hfind, Option.some_or] at h
    cases h
    exact .inl ⟨List.mem_of_find?_eq_some hfind, by simpa using List.find?_some hfind⟩

end Register

/-- What the cache may hold grows with the tables. -/
theorem CacheHolds.mono {tables tables' : Nat → Option FileMeta} {cache : Option BlockCache}
    (h : CacheHolds tables cache) (hsub : ∀ n f, tables n = some f → tables' n = some f) :
    CacheHolds tables' cache := by
  intro c hc
  apply (h c hc).mono
  rintro e - ⟨f, hf, hblock⟩
  exact ⟨f, hsub _ f hf, hblock⟩

/-- A version made of files of the current one and of tables that the thread holds, which stands
    for the same store under the memtable, can take its place. -/
theorem Inv.install (hi : Inv g w) {v : Version} {files : List FileMeta}
    (hfiles : Holding t files g w) (hnodup : (files.map (·.number)).Nodup) (hv : Layout v)
    (hfits : v.Fits) (hmem : ∀ f ∈ v.files, f ∈ w.current.files ∨ f ∈ files)
    (hl0 : t = .background → ∀ f ∈ v.level 0, f ∈ w.current.level 0)
    (hlive : liveIn (g.session.records :: v.tables) = g.session.store) :
    Inv { g with
        tables := register g.tables files
        owned := Function.update g.owned t ∅ }
      { w with current := v } := by
  -- the installed tables had no entry so far, so no entry is overwritten
  have hnew (f : FileMeta) (hf : f ∈ files) : g.tables f.number = none :=
    hi.owned_new t _ (hfiles.owned f hf)
  have hsub (n : Nat) (f : FileMeta) (hf : g.tables n = some f) :
      register g.tables files n = some f := register_of_some hnew hf
  -- the numbers of this thread are used up
  have howned (t' : Thread) (n : Nat) (hn : n ∈ Function.update g.owned t ∅ t') :
      t' ≠ t ∧ n ∈ g.owned t' := by
    by_cases ht : t' = t
    · rw [ht, Function.update_self] at hn
      simp at hn
    · rw [Function.update_of_ne ht] at hn
      exact ⟨ht, hn⟩
  refine { hi with
    stored := { hi.stored with }
    layout := hv
    fits := hfits
    current_files := ?current_files
    current_tables := ?current_tables
    saved_tables := fun f hf => hsub _ f (hi.saved_tables f hf)
    tables_lt := ?tables_lt
    owned_lt := fun t' n hn => hi.owned_lt t' n (howned t' n hn).2
    owned_new := ?owned_new
    owned_disjoint := ?owned_disjoint
    l0_lt := ?l0_lt
    live := hlive
    cache := hi.cache.mono hsub }
  case current_files =>
    intro f hf
    rcases hmem f hf with hf | hf
    · exact hi.current_files f hf
    · exact hfiles.files f hf
  case current_tables =>
    intro f hf
    rcases hmem f hf with hf | hf
    · exact hsub _ f (hi.current_tables f hf)
    · exact register_of_mem hnodup hf
  case tables_lt =>
    intro n f hf
    rcases register_cases hf with ⟨hmine, rfl⟩ | hf
    · exact hi.owned_lt t _ (hfiles.owned f hmine)
    · exact hi.tables_lt n f hf
  case owned_new =>
    intro t' n hn
    obtain ⟨ht, hn⟩ := howned t' n hn
    show register g.tables files n = none
    by_contra hne
    obtain ⟨f, hf⟩ := Option.ne_none_iff_exists'.mp hne
    rcases register_cases hf with ⟨hfile, rfl⟩ | hf
    · -- the number of an installed table belonged to this thread
      have hmine := hfiles.owned f hfile
      have hother : t' = t.other := by
        cases t <;> cases t' <;> first | rfl | exact absurd rfl ht
      exact hi.owned_ne hmine (hother ▸ hn) rfl
    · rw [hi.owned_new t' n hn] at hf
      cases hf
  case owned_disjoint =>
    rw [Finset.disjoint_left]
    intro n hn hn'
    exact Finset.disjoint_left.mp hi.owned_disjoint (howned _ n hn).2 (howned _ n hn').2
  case l0_lt =>
    intro n hn f hf
    obtain ⟨ht, hn⟩ := howned .client n hn
    have hbackground : t = .background := by
      cases t
      · exact absurd rfl ht
      · rfl
    exact hi.l0_lt n hn f (hl0 hbackground f hf)

/-- The client sees an installation as a change of the current version. -/
theorem Keeps.compact {v : Version} {files : List FileMeta} (hi : Inv g w)
    (hheld : w.mutex = some .background) (hfiles : Holding .background files g w) :
    Keeps .client g w
      { g with tables := register g.tables files, owned := Function.update g.owned .background ∅ }
      { w with current := v } := by
  have hother : w.mutex ≠ some .client := by
    rw [hheld]
    decide
  exact { Keeps.refl .client g w with
    tables := fun n f hf =>
      register_of_some (fun f hf => hi.owned_new _ _ (hfiles.owned f hf)) hf
    locked := fun hm => absurd hm hother
    client := fun _ => ⟨rfl, rfl, rfl, rfl, rfl⟩
    background := fun ht => by cases ht }

end Lsmdb
