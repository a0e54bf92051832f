import Lsmdb.Spec.TableRules
import Lsmdb.Spec.ThreadsServe

/-!
# Whose tables these are

What the rules of `Lsmdb.Spec.TableRules` mean for the directory and the version, with both
threads at work. A number that one thread has taken is in no version and not taken by the
other one (`Owned`), and without failures every table in the directory is in the version or
is being written or removed by a thread (`Accounted`). Both hold in every state that a run
reaches (`Tended.of_reachable`).
-/

namespace Lsmdb

open Prog

variable {τ τ' : Thread → Tables} {t : Thread} {a : Call} {ch : Choice} {r : a.Res} {w w' : World}
  {s : Tables} {n : Nat} {pol : Policy}

/-! ## The numbers -/

/-- What the tables of the two threads have to do with each other and with the version. -/
structure Owned (τ : Thread → Tables) (w : World) : Prop where
  seen : ∀ t v, (τ t).seen = some v → w.mutex = some t ∧ w.current = v
  mine_lt : ∀ t, ∀ n ∈ (τ t).mine, n < w.nextFileNumber
  noted_lt : ∀ t, ∀ n ∈ (τ t).noted, n < w.nextFileNumber
  current_lt : ∀ n ∈ w.current.numbers, n < w.nextFileNumber
  apart : ∀ t, ∀ n ∈ (τ t).mine, n ∉ (τ t.other).mine
  new : ∀ t, ∀ n ∈ (τ t).mine, (∀ t', n ∉ (τ t').noted) ∧ n ∉ w.current.numbers

/-- Less to have to do with. -/
theorem Owned.mono (h : Owned τ w) (hcurrent : w'.current = w.current)
    (hnext : w'.nextFileNumber = w.nextFileNumber)
    (hseen : ∀ t v, (τ' t).seen = some v → (τ t).seen = some v ∧ w'.mutex = w.mutex)
    (hmine : ∀ t, (τ' t).mine ⊆ (τ t).mine) (hnoted : ∀ t, (τ' t).noted ⊆ (τ t).noted) :
    Owned τ' w' where
  seen t v hv := by
    obtain ⟨hv, hmutex⟩ := hseen t v hv
    rw [hmutex, hcurrent]
    exact h.seen t v hv
  mine_lt t n hn := hnext ▸ h.mine_lt t n (hmine t hn)
  noted_lt t n hn := hnext ▸ h.noted_lt t n (hnoted t hn)
  current_lt n hn := by
    rw [hcurrent] at hn
    rw [hnext]
    exact h.current_lt n hn
  apart t n hn hn' := h.apart t n (hmine t hn) (hmine t.other hn')
  new t n hn := by
    obtain ⟨hnot, hcur⟩ := h.new t n (hmine t hn)
    rw [hcurrent]
    exact ⟨fun t' hn' => hnot t' (hnoted t' hn'), hcur⟩

/-- What is shown for the thread that makes a step and is so for the others. -/
theorem forall_update {P : Thread → Tables → Prop} (hself : P t s) (h : ∀ t', P t' (τ t')) (t' : Thread) :
    P t' (Function.update τ t s t') :=
  (Function.forall_update_iff τ P).mpr ⟨hself, fun t' _ => h t'⟩ t'

/-- There are two threads. -/
theorem Thread.eq_or_eq_other (t t' : Thread) : t' = t ∨ t' = t.other := by
  cases t <;> cases t' <;> decide

/-- Who has seen the version has the mutex. -/
theorem Owned.mutex_of_seen (h : Owned τ w) (hs : (τ t).seen ≠ none) : w.mutex = some t := by
  obtain ⟨v, hv⟩ := Option.ne_none_iff_exists'.mp hs
  exact (h.seen t v hv).1

/-- Without the mutex a thread has seen no version. -/
theorem Owned.unseen (h : Owned τ w) (hm : w.mutex ≠ some t) : (τ t).seen = none := by
  by_contra hs
  exact hm (h.mutex_of_seen hs)

/-- The thread has less to do with tables than before. -/
theorem Owned.update (h : Owned τ w) (hseen : s.seen = none) (hmine : s.mine ⊆ (τ t).mine)
    (hnoted : s.noted ⊆ (τ t).noted) : Owned (Function.update τ t s) w := by
  refine h.mono rfl rfl (forall_update (P := fun t' s => ∀ v, s.seen = some v →
    (τ t').seen = some v ∧ w.mutex = w.mutex) (fun v hv => ?_) fun t' v hv => ⟨hv, rfl⟩)
    (forall_update (P := fun t' s => s.mine ⊆ (τ t').mine) hmine fun _ => subset_rfl)
    (forall_update (P := fun t' s => s.noted ⊆ (τ t').noted) hnoted fun _ => subset_rfl)
  rw [hseen] at hv
  cases hv

/-- The thread takes the mutex or gives it away. -/
theorem Owned.mutex (h : Owned τ w) (hother : w.mutex ≠ some t.other) (hseen : (τ t).seen = none)
    (m : Option Thread) : Owned τ { w with mutex := m } := by
  refine h.mono rfl rfl (fun t' v hv => ?_) (fun _ => subset_rfl) fun _ => subset_rfl
  rcases t.eq_or_eq_other t' with rfl | rfl
  · rw [hseen] at hv
    cases hv
  · rw [h.unseen hother] at hv
    cases hv

/-- The thread puts the tables that it has written into the version. -/
theorem Owned.storeCurrent {u v : Version} (h : Owned τ w) (hseen : (τ t).seen = some u)
    (hsub : v.numbers ⊆ u.numbers ∪ (τ t).mine) :
    Owned (Function.update τ t (tableRules.next (τ t) (.storeCurrent v) ()))
      { w with current := v } := by
  obtain ⟨hheld, rfl⟩ := h.seen t u hseen
  -- the other thread has not seen this version
  have hother : (τ t.other).seen = none := by
    apply h.unseen
    rw [hheld, Ne, Option.some.injEq]
    exact t.other_ne.symm
  have hmine := forall_update (P := fun t' s => s.mine ⊆ (τ t').mine)
    (s := tableRules.next (τ t) (.storeCurrent v) ()) Finset.sdiff_subset fun _ => subset_rfl
  have hnoted := forall_update (P := fun t' s => s.noted ⊆ (τ t').noted)
    (s := tableRules.next (τ t) (.storeCurrent v) ()) (t := t) subset_rfl fun _ => subset_rfl
  -- the new version has old numbers and numbers of the thread's own
  constructor
  · intro t' v' hv'
    rcases t.eq_or_eq_other t' with rfl | rfl
    · rw [Function.update_self] at hv'
      exact ⟨hheld, Option.some.inj hv'⟩
    · rw [Function.update_of_ne t.other_ne, hother] at hv'
      cases hv'
  · exact fun t' n hn => h.mine_lt t' n (hmine t' hn)
  · exact fun t' n hn => h.noted_lt t' n (hnoted t' hn)
  · intro n hn
    rcases Finset.mem_union.mp (hsub hn) with hn | hn
    · exact h.current_lt n hn
    · exact h.mine_lt t n hn
  · exact fun t' n hn hn' => h.apart t' n (hmine t' hn) (hmine _ hn')
  · intro t' n hn
    obtain ⟨hnot, hcur⟩ := h.new t' n (hmine t' hn)
    refine ⟨fun t'' hn' => hnot t'' (hnoted t'' hn'), fun hv => ?_⟩
    rcases Finset.mem_union.mp (hsub hv) with hold | hown
    · exact hcur hold
    · -- what was the thread's own is so no more
      rcases t.eq_or_eq_other t' with rfl | rfl
      · rw [Function.update_self] at hn
        exact (Finset.mem_sdiff.mp hn).2 hv
      · exact h.apart t n hown (hmine _ hn)

/-- The thread takes a number. -/
theorem Owned.take (h : Owned τ w) (hfits : w.nextFileNumber + 1 < 2 ^ 64) :
    Owned (Function.update τ t (tableRules.next (τ t) .takeFileNumber w.nextFileNumber))
      { w with nextFileNumber := (w.nextFileNumber + 1) % 2 ^ 64 } := by
  rw [Nat.mod_eq_of_lt hfits]
  -- the only new number is the next one, which nobody has
  have hmine := forall_update (P := fun t' s => ∀ n ∈ s.mine, n ∈ (τ t').mine ∨
    t' = t ∧ n = w.nextFileNumber) (s := tableRules.next (τ t) .takeFileNumber w.nextFileNumber)
    (fun n hn => (Finset.mem_insert.mp hn).symm.imp_right fun hn => ⟨rfl, hn⟩) fun _ _ hn => .inl hn
  have hseen := forall_update (P := fun t' s => s.seen = (τ t').seen)
    (s := tableRules.next (τ t) .takeFileNumber w.nextFileNumber) (t := t) rfl fun _ => rfl
  have hnoted := forall_update (P := fun t' s => s.noted = (τ t').noted)
    (s := tableRules.next (τ t) .takeFileNumber w.nextFileNumber) (t := t) rfl fun _ => rfl
  constructor
  · exact fun t' v hv => h.seen t' v (hseen t' ▸ hv)
  · intro t' n hn
    show n < w.nextFileNumber + 1
    rcases hmine t' n hn with hn | ⟨-, rfl⟩
    · exact Nat.lt_succ_of_lt (h.mine_lt t' n hn)
    · exact Nat.lt_succ_self _
  · exact fun t' n hn => Nat.lt_succ_of_lt (h.noted_lt t' n (hnoted t' ▸ hn))
  · exact fun n hn => Nat.lt_succ_of_lt (h.current_lt n hn)
  · intro t' n hn hn'
    rcases hmine t' n hn with hn | ⟨rfl, rfl⟩
    · rcases hmine _ n hn' with hn' | ⟨-, rfl⟩
      · exact h.apart t' n hn hn'
      · exact Nat.lt_irrefl _ (h.mine_lt t' _ hn)
    · rcases hmine _ _ hn' with hn' | ⟨ht, -⟩
      · exact Nat.lt_irrefl _ (h.mine_lt _ _ hn')
      · exact t'.other_ne ht
  · intro t' n hn
    rcases hmine t' n hn with hn | ⟨-, rfl⟩
    · obtain ⟨hnot, hcur⟩ := h.new t' n hn
      exact ⟨fun t'' => hnoted t'' ▸ hnot t'', hcur⟩
    · refine ⟨fun t'' hn' => ?_, fun hn' => ?_⟩
      · exact Nat.lt_irrefl _ (h.noted_lt t'' _ (hnoted t'' ▸ hn'))
      · exact Nat.lt_irrefl _ (h.current_lt _ hn')

/-- The thread looks at the version. -/
theorem Owned.loadCurrent (h : Owned τ w) (hheld : w.mutex = some t) :
    Owned (Function.update τ t (tableRules.next (τ t) .loadCurrent w.current)) w := by
  -- a thread notes the numbers of the version that it loads
  have hmine := forall_update (P := fun t' s => s.mine = (τ t').mine)
    (s := tableRules.next (τ t) .loadCurrent w.current) (t := t) rfl fun _ => rfl
  have hnoted := forall_update (P := fun t' s => ∀ n ∈ s.noted, n ∈ (τ t').noted ∨
    n ∈ w.current.numbers) (s := tableRules.next (τ t) .loadCurrent w.current) (t := t)
    (fun n hn => Finset.mem_union.mp hn) fun _ _ hn => .inl hn
  constructor
  · refine forall_update (P := fun t' s => ∀ v, s.seen = some v → w.mutex = some t' ∧ w.current = v)
      (fun v hv => ?_) h.seen
    exact ⟨hheld, Option.some.inj hv⟩
  · exact fun t' n hn => h.mine_lt t' n (hmine t' ▸ hn)
  · intro t' n hn
    rcases hnoted t' n hn with hn | hn
    · exact h.noted_lt t' n hn
    · exact h.current_lt n hn
  · exact h.current_lt
  · intro t' n hn
    rw [hmine]
    exact h.apart t' n (hmine t' ▸ hn)
  · intro t' n hn
    obtain ⟨hnot, hcur⟩ := h.new t' n (hmine t' ▸ hn)
    refine ⟨fun t'' hn' => ?_, hcur⟩
    rcases hnoted t'' n hn' with hn' | hn'
    · exact hnot t'' hn'
    · exact hcur hn'

/-- A call that has nothing to do with the mutex, the version and the numbers. -/
theorem exec_unnumbered (h : exec t a ch w = some (r, w')) (hlock : a ≠ .lock) (hunlock : a ≠ .unlock)
    (hstore : ∀ v, a ≠ .storeCurrent v) (htake : a ≠ .takeFileNumber)
    (hnumber : ∀ m, a ≠ .storeFileNumber m) :
    w'.mutex = w.mutex ∧ w'.current = w.current ∧ w'.nextFileNumber = w.nextFileNumber := by
  obtain ⟨hmutex, hcurrent, hnext, -⟩ := exec_fields h
  exact ⟨hmutex hlock hunlock, hcurrent hstore, hnext htake hnumber⟩

/-- A call of a thread that the rules allow. -/
theorem Owned.step (h : Owned τ w) (hok : tableRules.ok (τ t) a) (hfits : a.Fits w)
    (hheld : a.Guarded → w.mutex = some t) (hexec : exec t a ch w = some (r, w')) :
    Owned (Function.update τ t (tableRules.next (τ t) a r)) w' := by
  -- the thread forgets what it has seen: without the mutex the version may change
  have hforget {m : Option Thread} (hm : w.mutex ≠ some t.other) :
      Owned (Function.update τ t { τ t with seen := none }) { w with mutex := m } := by
    refine Owned.mutex (t := t) (h.update (s := { τ t with seen := none }) rfl subset_rfl subset_rfl)
      hm ?_ m
    rw [Function.update_self]
  -- the calls that have nothing to do with that
  have hsame (hw : w'.mutex = w.mutex ∧ w'.current = w.current ∧ w'.nextFileNumber = w.nextFileNumber)
      {trash : Finset Nat} : Owned (Function.update τ t { τ t with trash := trash }) w' := by
    refine h.mono hw.2.1 hw.2.2 (fun t' v hv => ⟨?_, hw.1⟩)
      (forall_update (P := fun t' s => s.mine ⊆ (τ t').mine) subset_rfl fun _ => subset_rfl)
      (forall_update (P := fun t' s => s.noted ⊆ (τ t').noted) subset_rfl fun _ => subset_rfl)
    exact (forall_update (P := fun t' s => s.seen = (τ t').seen)
      (s := { τ t with trash := trash }) rfl fun _ => rfl) t' ▸ hv
  cases a with
  | lock =>
    obtain ⟨hfree, rfl⟩ := exec_lock hexec
    exact hforget (by simp [hfree])
  | unlock =>
    obtain ⟨hmine, rfl⟩ := exec_unlock hexec
    exact hforget (by simpa [hmine] using t.other_ne.symm)
  | loadCurrent =>
    cases hexec
    exact h.loadCurrent (hheld trivial)
  | takeFileNumber =>
    cases hexec
    exact h.take hfits
  | storeCurrent v =>
    obtain ⟨u, hseen, hsub⟩ := hok
    cases hexec
    exact h.storeCurrent hseen hsub
  | storeFileNumber | readDir => exact hok.elim
  | _ => exact hsame (exec_unnumbered hexec (by simp) (by simp) (by simp) (by simp) (by simp))

/-! ## The files -/

/-- The files of the tables have names that can be read. -/
def Numbered (disk : Disk) : Prop := ∀ n, numberToName n ∈ disk → n < 2 ^ 64

/-- Every table in the directory is in the version or a thread has something to do with it. -/
def Accounted (τ : Thread → Tables) (w : World) : Prop :=
  ∀ n, numberToName n ∈ w.disk → n ∈ w.current.numbers ∨ ∃ t, n ∈ (τ t).mine ∨ n ∈ (τ t).trash

/-- Appending creates no file. -/
private theorem Disk.mem_of_mem_append {disk : Disk} {name other : String} {data : Bytes}
    (h : other ∈ disk.append name data) : other ∈ disk := by
  rw [Disk.append] at h
  split at h
  next file hfile =>
    rcases (AList.mem_insert _).mp h with rfl | h
    · exact AList.lookup_isSome.mp (by rw [hfile]; rfl)
    · exact h
  next => exact h

/-- Renaming creates its target only. -/
private theorem Disk.mem_of_mem_rename {disk disk' : Disk} {src dst other : String}
    (hrename : disk.rename src dst = some disk') (h : other ∈ disk') (hne : other ≠ dst) :
    other ∈ disk := by
  obtain ⟨file, -, rfl⟩ := Option.map_eq_some_iff.mp hrename
  exact (AList.mem_erase.mp (((AList.mem_insert _).mp h).resolve_left hne)).2

/-- A new table is one whose number the thread has taken. -/
private theorem mem_disk_of_exec (hok : tableRules.ok s a) (hexec : exec t a ch w = some (r, w'))
    (h : numberToName n ∈ w'.disk) : numberToName n ∈ w.disk ∨ n ∈ s.mine := by
  -- only `open` with `O_TRUNC` creates the file of a table, and only of one's own
  cases a with
  | openTrunc name =>
    rcases exec_openTrunc hexec with ⟨errno, -, -, rfl⟩ | ⟨-, rfl⟩
    · exact .inl h
    rcases (AList.mem_insert _).mp h with heq | h
    · rcases hok with ⟨m, hm, rfl⟩ | rfl | rfl
      · rw [numberToName_injective heq]
        exact .inr hm
      · exact absurd heq (numberToName_ne_walName n)
      · exact absurd heq (numberToName_ne_manifestTmpName n)
    · exact .inl h
  | openAppend name =>
    have hname : name = walName := hok
    subst hname
    rcases exec_openAppend hexec with ⟨errno, -, -, rfl⟩ | ⟨-, rfl⟩
    · exact .inl h
    split at h
    · exact .inl h
    · exact .inl (((AList.mem_insert _).mp h).resolve_left (numberToName_ne_walName n))
  | write name data =>
    rcases exec_write hexec with ⟨errno, -, -, rfl⟩ | ⟨m, -, -, -, rfl⟩
    · exact .inl h
    · exact .inl (Disk.mem_of_mem_append h)
  | rename src dst =>
    obtain ⟨-, rfl⟩ := hok
    cases ch with
    | fail errno => cases hexec; exact .inl h
    | ok | short | inputs =>
      simp only [exec] at hexec
      split at hexec
      next hrename =>
        cases hexec
        exact .inl (Disk.mem_of_mem_rename hrename h (numberToName_ne_manifestName n))
      next => cases hexec; exact .inl h
  | unlink name =>
    rcases exec_unlink hexec with rfl | rfl
    · exact .inl h
    · exact .inl (AList.mem_erase.mp h).2
  | storeFileNumber | readDir => exact hok.elim
  | lock =>
    obtain ⟨-, rfl⟩ := exec_lock hexec
    exact .inl h
  | unlock =>
    obtain ⟨-, rfl⟩ := exec_unlock hexec
    exact .inl h
  | openRead name =>
    cases ch with
    | fail errno => cases hexec; exact .inl h
    | ok | short | inputs =>
      simp only [exec] at hexec
      split at hexec <;> cases hexec <;> exact .inl h
  | _ => cases ch <;> cases hexec <;> exact .inl h

/-- Without failures a file that is unlinked is gone. -/
theorem exec_unlink_faultless {name : String} {r : Unit} (hpol : ¬ pol.Faulty)
    (hmay : (Call.unlink name).MayFail pol.faults pol.logFaults ch)
    (hexec : exec t (.unlink name) ch w = some (r, w')) :
    w' = { w with disk := w.disk.erase name } := by
  cases ch with
  | fail errno => exact absurd (.inl hmay) hpol
  | ok | short | inputs => cases hexec; rfl

/-- A call of a thread that the rules allow, in a run without failures. -/
theorem Accounted.step (h : Accounted τ w) (howned : Owned τ w) (hpol : ¬ pol.Faulty)
    (hok : tableRules.ok (τ t) a) (hallow : pol.Allows a ch w)
    (hexec : exec t a ch w = some (r, w')) :
    Accounted (Function.update τ t (tableRules.next (τ t) a r)) w' := by
  intro n hn
  have hbefore : n ∈ w.current.numbers ∨ ∃ t, n ∈ (τ t).mine ∨ n ∈ (τ t).trash := by
    rcases mem_disk_of_exec hok hexec hn with hold | hmine
    · exact h n hold
    · exact .inr ⟨t, .inl hmine⟩
  -- if the version stays, it is enough that the thread still has to do with the table
  have hstays (hcurrent : w'.current = w.current)
      (hs : n ∈ (τ t).mine ∨ n ∈ (τ t).trash → n ∈ (tableRules.next (τ t) a r).mine ∨
        n ∈ (tableRules.next (τ t) a r).trash) :
      n ∈ w'.current.numbers ∨ ∃ t', n ∈ (Function.update τ t (tableRules.next (τ t) a r) t').mine ∨
        n ∈ (Function.update τ t (tableRules.next (τ t) a r) t').trash := by
    rw [hcurrent]
    refine hbefore.imp_right fun ⟨t', ht'⟩ => ⟨t', ?_⟩
    exact forall_update (P := fun t' s => n ∈ (τ t').mine ∨ n ∈ (τ t').trash →
      n ∈ s.mine ∨ n ∈ s.trash) hs (fun _ => id) t' ht'
  cases a with
  | lock =>
    obtain ⟨-, rfl⟩ := exec_lock hexec
    exact hstays rfl id
  | unlock =>
    obtain ⟨-, rfl⟩ := exec_unlock hexec
    exact hstays rfl id
  | takeFileNumber =>
    cases hexec
    exact hstays rfl (.imp_left fun hn => Finset.mem_insert_of_mem hn)
  | unlink name =>
    obtain rfl := exec_unlink_faultless hpol hallow.2 hexec
    refine hstays rfl (.imp_right fun htrash => Finset.mem_filter.mpr ⟨htrash, ?_⟩)
    exact (AList.mem_erase.mp hn).1
  | storeCurrent v =>
    obtain ⟨u, hseen, hsub⟩ := hok
    obtain ⟨hheld, rfl⟩ := howned.seen t u hseen
    cases hexec
    by_cases hv : n ∈ v.numbers
    · exact .inl hv
    refine .inr ?_
    -- a table that leaves the version is one to remove
    rcases hbefore with hcur | ⟨t', ht'⟩
    · refine ⟨t, .inr ?_⟩
      rw [Function.update_self]
      refine Finset.mem_union_right _ (Finset.mem_sdiff.mpr ⟨?_, hv⟩)
      rw [hseen]
      exact hcur
    · refine ⟨t', forall_update (P := fun t' s => n ∈ (τ t').mine ∨ n ∈ (τ t').trash →
        n ∈ s.mine ∨ n ∈ s.trash) (fun ht => ?_) (fun _ => id) t' ht'⟩
      exact ht.imp (fun hn => Finset.mem_sdiff.mpr ⟨hn, hv⟩) fun hn => Finset.mem_union_left _ hn
  | storeFileNumber | readDir => exact hok.elim
  | _ =>
    exact hstays (exec_unnumbered hexec (by simp) (by simp) (by simp) (by simp) (by simp)).2.1 id

/-- All of this together. -/
structure Kept (pol : Policy) (τ : Thread → Tables) (w : World) : Prop where
  owned : Owned τ w
  accounted : ¬ pol.Faulty → Accounted τ w
  numbered : Numbered w.disk

theorem Kept.step (h : Kept pol τ w) (hlt : w.nextFileNumber < 2 ^ 64) (hok : tableRules.ok (τ t) a)
    (hallow : pol.Allows a ch w) (hheld : a.Guarded → w.mutex = some t)
    (hexec : exec t a ch w = some (r, w')) :
    Kept pol (Function.update τ t (tableRules.next (τ t) a r)) w' where
  owned := h.owned.step hok hallow.1 hheld hexec
  accounted hpol := (h.accounted hpol).step h.owned hpol hok hallow hexec
  numbered n hn := by
    rcases mem_disk_of_exec hok hexec hn with hold | hmine
    · exact h.numbered n hold
    · exact (h.owned.mine_lt t n hmine).trans hlt

/-- The thread has nothing more to do with its tables. -/
theorem Kept.clear (h : Kept pol τ w) (hclear : ¬ pol.Faulty → (τ t).Clear) (hs : s = { noted := s.noted })
    (hnoted : s.noted ⊆ (τ t).noted) : Kept pol (Function.update τ t s) w where
  owned := by
    rw [hs]
    exact h.owned.update rfl (Finset.empty_subset _) hnoted
  accounted hpol n hn := by
    refine (h.accounted hpol n hn).imp_right fun ⟨t', ht'⟩ => ⟨t', ?_⟩
    refine forall_update (P := fun t' s => n ∈ (τ t').mine ∨ n ∈ (τ t').trash →
      n ∈ s.mine ∨ n ∈ s.trash) (fun ht => ?_) (fun _ => id) t' ht'
    obtain ⟨hmine, htrash⟩ := hclear hpol
    simp [hmine, htrash] at ht
  numbered := h.numbered

/-- The thread takes the mutex or gives it away. -/
theorem Kept.mutex (h : Kept pol τ w) (hother : w.mutex ≠ some t.other) (hseen : (τ t).seen = none)
    (m : Option Thread) : Kept pol τ { w with mutex := m } :=
  ⟨h.owned.mutex hother hseen m, h.accounted, h.numbered⟩

/-! ## Recovery -/

/-- What a recovery has done, and the directory. -/
structure Cleans (pol : Policy) (x : Cleaning) (w : World) : Prop where
  version : ∀ v, x.version = some v → w.current = v
  left : ¬ pol.Faulty → ∀ names, x.left = some names →
    ∀ n, numberToName n ∈ w.disk → numberToName n ∈ names
  numbered : Numbered w.disk

/-- A call of a recovery. -/
theorem Cleans.step {x : Cleaning} (h : Cleans pol x w) (ha : Sync.Alone a)
    (hmay : a.MayFail pol.faults pol.logFaults ch) (hexec : exec .client a ch w = some (r, w')) :
    Cleans pol (recoverRules.next x a r) w' := by
  cases a with
  | readDir =>
    cases hexec
    refine { h with left := fun _ names hnames n hn => ?_ }
    cases hnames
    exact hn
  | storeCurrent v =>
    cases hexec
    refine { h with version := fun u hu => ?_ }
    exact Option.some.inj hu
  -- these calls have nothing to do with the directory
  | storeFileNumber | loadMem | storeMem | storeWal =>
    cases hexec
    exact ⟨h.version, h.left, h.numbered⟩
  | openAppend name =>
    have hname : name = walName := ha
    subst hname
    rcases exec_openAppend hexec with ⟨errno, -, -, rfl⟩ | ⟨-, rfl⟩
    -- a log that is created has no number
    · exact ⟨h.version, fun _ names hnames => (by cases hnames), h.numbered⟩
    split
    · exact ⟨h.version, fun _ names hnames => (by cases hnames), h.numbered⟩
    · refine ⟨h.version, fun _ names hnames => (by cases hnames), fun n hn => ?_⟩
      exact h.numbered n (((AList.mem_insert _).mp hn).resolve_left (numberToName_ne_walName n))
  | unlink name =>
    constructor
    · rcases exec_unlink hexec with rfl | rfl <;> exact h.version
    -- without faults the name is gone from the directory and from the listing
    · intro hpol names hnames n hn
      obtain rfl := exec_unlink_faultless hpol hmay hexec
      obtain ⟨names, hleft, rfl⟩ := Option.map_eq_some_iff.mp hnames
      obtain ⟨hne, hn⟩ := AList.mem_erase.mp hn
      exact List.mem_filter.mpr ⟨h.left hpol names hleft n hn, by simpa using hne⟩
    · intro n hn
      rcases exec_unlink hexec with rfl | rfl
      · exact h.numbered n hn
      · exact h.numbered n (AList.mem_erase.mp hn).2
  | _ => exact ha.elim

/-- A recovery that has come to its end leaves only the tables of the version. -/
theorem Cleans.kept {x : Cleaning} (h : Cleans pol x w) (hdone : recoverDone (.ok ()) x)
    (hlt : ∀ n ∈ w.current.numbers, n < w.nextFileNumber) : Kept pol (fun _ => {}) w where
  owned := by
    -- at the start neither thread has a table
    constructor
    · exact fun t v hv => by cases hv
    · exact fun t n hn => absurd hn (Finset.notMem_empty n)
    · exact fun t n hn => absurd hn (Finset.notMem_empty n)
    · exact hlt
    · exact fun t n hn => absurd hn (Finset.notMem_empty n)
    · exact fun t n hn => absurd hn (Finset.notMem_empty n)
  accounted hpol n hn := by
    obtain ⟨v, names, hversion, hleft, hlive⟩ := hdone rfl
    rw [h.version v hversion]
    exact .inl (hlive n (h.numbered n hn) (h.left hpol names hleft n hn))
  numbered := h.numbered

namespace Sync

variable {α : Type} {options : Options} {cfg : Config} {c : ClientState} {k : WorkerState}
  {client : Client} {worker : Worker} {w w' : World} {ch : Choice}

/-! ## The threads -/

/-- The calls of the compaction thread outside of a compaction. -/
def lookTables : Typestate Lsmdb.Call Lsmdb.Call.Res Tables where
  ok _
    | .lock | .unlock | .loadShuttingDown | .loadCurrent => True
    | _ => False
  next := tableRules.next

/-- What the compaction thread has to do with tables when it has looked at the shared state. -/
def lookOwns (l : Look) (s : Tables) : Prop :=
  s = { noted := s.noted } ∧ ∀ c, l = .compact c → ∀ f ∈ c.inputs, f.number ∈ s.noted

/-- One turn of `BackgroundLoop`, up to the compaction. -/
theorem follows_tables_look (cfg : Config) (waited : Bool) (noted : Finset Nat) :
    (erase (look cfg waited)).Follows lookTables lookOwns { noted := noted } := by
  -- a turn that finds nothing to do has seen no input
  have hunlocked {l : Look} {s : Tables} (hs : s = { noted := s.noted }) (hl : ∀ c, l ≠ .compact c) :
      lookOwns l s := ⟨hs, fun c hc => absurd hc (hl c)⟩
  have hlock : erase (look cfg waited) = DB.call .lock >>= fun _ => erase (lookLocked cfg) := by
    cases waited <;> rfl
  rw [hlock]
  refine follows_bind.mpr ⟨trivial, fun _ => ⟨trivial, fun down => ?_⟩⟩
  cases down with
  | true => exact ⟨trivial, fun _ => hunlocked rfl (by simp)⟩
  | false =>
    refine ⟨trivial, fun v => ?_⟩
    show (erase (if !needsCompaction cfg.options v then goToSleep else _)).Follows _ _ _
    cases needsCompaction cfg.options v with
    | false => exact ⟨trivial, fun _ => hunlocked rfl (by simp)⟩
    | true =>
      show (erase (lift (DB.defined (pickCompaction cfg.options v)) >>= _)).Follows _ _ _
      cases hpick : pickCompaction cfg.options v with
      | none => trivial
      | some pick =>
        cases pick with
        | none => exact ⟨trivial, fun _ => hunlocked rfl (by simp)⟩
        | some c =>
          refine ⟨trivial, fun _ => ⟨rfl, fun c' hc f hf => ?_⟩⟩
          cases hc
          -- the inputs are in the version that was loaded
          have hfile := mem_files_of_pickCompaction hpick hf
          exact Finset.mem_union_right _ (Version.mem_numbers.mpr ⟨f, hfile, rfl⟩)

/-- What the client has to do with tables. -/
def ClientOwns (s : Tables) : Client → Prop
  | .idle | .waiting _ | .closing => s = {}
  | .running _ p => (erase p).Follows tableRules tablesDone s

/-- What the compaction thread has to do with tables. -/
def WorkerOwns (s : Tables) : Worker → Prop
  | .looking p => s.Clear ∧ (erase p).Follows lookTables lookOwns s
  | .compacting _ p => (erase p).Follows tableRules clearIfOk s
  | .ended => s.Clear

/-- A guarded call of the client is made under the mutex. -/
theorem held_of_callRules {b : Lsmdb.Call} (hok : callRules.ok c (.base b)) (hg : b.Guarded) :
    c.held = true := by
  cases b with
  | lock | unlock => exact hg.elim
  | _ => exact hok.1 hg

/-- So is one of a turn that looks for work. -/
private theorem held_of_lookRules {b : Lsmdb.Call} (hok : (lookRules options).ok k (.base b)) (hg : b.Guarded) :
    k.held = true := by
  cases b with
  | lock | unlock => exact hg.elim
  | loadShuttingDown | loadCurrent => exact hok
  | _ => exact hok.elim

/-- So is one of a compaction. -/
theorem held_of_compactRules {b : Lsmdb.Call} (hok : compactRules.ok k (.base b)) (hg : b.Guarded) :
    k.held = true := by
  cases b with
  | lock | unlock => exact hg.elim
  | storeShuttingDown => exact hok.elim
  | _ => exact hok.1 hg

/-- What a program may do next. -/
theorem ok_of_nextCall {C σ : Type} {T : Typestate Call Call.Res σ} {p : SyncM C} {Q : C → σ → Prop}
    {s : σ} {a : Call} (h : p.Follows T Q s) (ha : nextCall p = some a) : T.ok s a := by
  cases p with
  | ret => cases ha
  | undef => cases ha
  | call a' cont =>
    cases ha
    exact h.1

/-- A step of a thread. -/
theorem kept_threadStep {T : Typestate Lsmdb.Call Lsmdb.Call.Res Tables} {p p' : SyncM α}
    {Q : α → Tables → Prop} (h : Kept pol τ w.toWorld) (hp : (erase p).Follows T Q (τ t))
    (hT : ∀ s b, T.ok s b → tableRules.ok s b) (hnext : T.next = tableRules.next)
    (hlt : w.nextFileNumber < 2 ^ 64) (hbusy : nextCall p ≠ some .loadBusy)
    (hallows : ∀ a ∈ nextCall p, Allows pol a ch w)
    (hheld : ∀ b, nextCall p = some (.base b) → b.Guarded → w.mutex = some t)
    (hs : p.step (exec t) ch w = some (p', w')) :
    ∃ s, (erase p').Follows T Q s ∧ Kept pol (Function.update τ t s) w'.toWorld ∧
      (s = τ t ∨ ∃ b r, T.ok (τ t) b ∧ s = T.next (τ t) b r) := by
  rcases erase_step hs hbusy hallows with ⟨hsame, hworld⟩ | ⟨ch', hstep, hallows'⟩
  · rw [hsame, hworld]
    refine ⟨τ t, hp, ?_, .inl rfl⟩
    rw [Function.update_eq_self]
    exact h
  · obtain ⟨b, cont, r, heq, -, hexec, hok, hrest⟩ := hp.step hstep
    obtain ⟨hallow, hguarded⟩ := hallows' b cont heq
    refine ⟨_, hrest, ?_, .inr ⟨b, r, hok, rfl⟩⟩
    rw [hnext]
    exact h.step hlt (hT _ _ hok) hallow (fun hg => hheld b (hguarded hg) hg) hexec

/-- A step of the client. -/
theorem ClientOwns.step {client' : Client} (h : ClientOwns (τ .client) client)
    (hkept : Kept pol τ w.toWorld) (hr : ClientRuled options c client) (ha : Agree options c k w)
    (hlt : w.nextFileNumber < 2 ^ 64) (hallows : ∀ a ∈ client.nextCall, Allows pol a ch w)
    (hs : client.step ch w = some (client', w')) :
    ∃ s, ClientOwns s client' ∧ Kept pol (Function.update τ .client s) w'.toWorld := by
  cases client with
  | idle => cases hs
  | closing => cases hs
  -- a step of a call is one of its rules
  | running op p =>
    obtain ⟨⟨p', w''⟩, hstep, heq⟩ := Option.map_eq_some_iff.mp hs
    cases heq
    have hheld (b : Lsmdb.Call) (hb : nextCall p = some (.base b)) (hg : b.Guarded) :
        w.mutex = some .client :=
      ha.client.mp (held_of_callRules (ok_of_nextCall hr hb) hg)
    obtain ⟨s, hs, hkept', -⟩ := kept_threadStep hkept h (fun _ _ => id) rfl hlt
      (not_loadBusy hr fun _ => id) hallows hheld hstep
    exact ⟨s, hs, hkept'⟩
  -- a client that waits owns nothing
  | waiting p =>
    obtain ⟨⟨p', w''⟩, hstep, heq⟩ := Option.map_eq_some_iff.mp hs
    cases heq
    obtain ⟨a, cont, r, rfl, rfl, hexec, hok, -⟩ := Follows.step hr hstep
    have hseen : (τ .client).seen = none := by rw [show τ .client = {} from h]
    refine ⟨τ .client, h, ?_⟩
    rw [Function.update_eq_self]
    -- only the mutex may have changed
    rcases exec_wait hok hexec with heq | ⟨hfree, heq⟩ | ⟨hheld, heq⟩
    · rw [heq]
      exact hkept
    · rw [heq]
      exact hkept.mutex (t := .client) (by simp [hfree]) hseen _
    · rw [heq]
      exact hkept.mutex (t := .client) (by simp [hheld, Thread.other]) hseen _

/-- Looking for work creates no table. -/
private theorem clear_lookTables {s : Tables} {b : Lsmdb.Call} {r : b.Res} (h : s.Clear)
    (hok : lookTables.ok s b) : (lookTables.next s b r).Clear := by
  cases b with
  | lock | unlock | loadShuttingDown | loadCurrent => exact h
  | _ => exact hok.elim

/-- A step of the compaction thread. -/
theorem WorkerOwns.step {worker' : Worker} (h : WorkerOwns (τ .background) worker)
    (hkept : Kept pol τ w.toWorld) (hr : WorkerRuled options k worker) (ha : Agree options c k w)
    (hlt : w.nextFileNumber < 2 ^ 64) (hallows : ∀ a ∈ worker.nextCall, Allows pol a ch w)
    (hs : worker.step ch w = some (worker', w')) :
    ∃ s, WorkerOwns s worker' ∧ Kept pol (Function.update τ .background s) w'.toWorld := by
  cases worker with
  | ended => cases hs
  -- looking for work follows stricter rules
  | looking p =>
    obtain ⟨⟨p', w''⟩, hstep, heq⟩ := Option.map_eq_some_iff.mp hs
    cases heq
    have hheld (b : Lsmdb.Call) (hb : nextCall p = some (.base b)) (hg : b.Guarded) :
        w.mutex = some .background :=
      ha.worker.mp (held_of_lookRules (ok_of_nextCall hr hb) hg)
    have hT (s : Tables) (b : Lsmdb.Call) (hb : lookTables.ok s b) : tableRules.ok s b := by
      cases b with
      | lock | unlock | loadShuttingDown | loadCurrent => trivial
      | _ => exact hb.elim
    obtain ⟨s, hs, hkept', hnext⟩ := kept_threadStep hkept h.2 hT rfl hlt (not_loadBusy hr fun _ => id)
      hallows hheld hstep
    refine ⟨s, ⟨?_, hs⟩, hkept'⟩
    rcases hnext with rfl | ⟨b, r, hok, rfl⟩
    · exact h.1
    · exact clear_lookTables h.1 hok
  | compacting _ p =>
    obtain ⟨⟨p', w''⟩, hstep, heq⟩ := Option.map_eq_some_iff.mp hs
    cases heq
    have hheld (b : Lsmdb.Call) (hb : nextCall p = some (.base b)) (hg : b.Guarded) :
        w.mutex = some .background :=
      ha.worker.mp (held_of_compactRules (ok_of_nextCall hr.2 hb) hg)
    obtain ⟨s, hs, hkept', -⟩ := kept_threadStep hkept h (fun _ _ => id) rfl hlt
      (not_loadBusy hr.2 fun _ => id) hallows hheld hstep
    exact ⟨s, hs, hkept'⟩

/-- A part of the loop of the compaction thread has come to its end. -/
theorem WorkerOwns.return {g : Ghost} {v : Lsmdb.World} {worker' : Worker}
    (h : WorkerOwns (τ .background) worker) (hkept : Kept pol τ v)
    (hg : Serving pol cfg g v client worker) (hr : worker.return cfg = some worker') :
    ∃ s, WorkerOwns s worker' ∧ Kept pol (Function.update τ .background s) v := by
  cases worker with
  | ended => cases hr
  | looking p =>
    -- it goes on with what it has found
    refine ⟨τ .background, ?_, by rwa [Function.update_eq_self]⟩
    cases p with
    | undef => cases hr
    | call => cases hr
    | ret look =>
      obtain ⟨hclear, hs, hinputs⟩ := h
      cases look with
      | stop =>
        cases hr
        exact hclear
      | sleep =>
        cases hr
        refine ⟨hclear, ?_⟩
        rw [hs]
        exact follows_tables_look cfg true _
      | compact c =>
        cases hr
        show (erase (lift _)).Follows _ _ _
        rw [erase_lift, hs]
        exact follows_tables_doCompaction cfg c _ (hinputs c rfl)
  | compacting c p =>
    cases p with
    | undef => cases hr
    | call => cases hr
    | ret result =>
      cases hr
      refine ⟨{}, ⟨⟨rfl, rfl⟩, follows_tables_look cfg false ∅⟩, hkept.clear (fun hpol => ?_) rfl
        (Finset.empty_subset _)⟩
      -- a compaction that failed may leave its tables, but without faults none fails
      have hdone : clearIfOk result (τ .background) := h
      cases result with
      | ok u => exact hdone u rfl
      | error e =>
        have hfaults : g.faults = true := hg.worker e rfl
        exact absurd (.inl (hg.faults.symm.trans hfaults)) hpol

/-! ## Runs -/

/-- What holds of the tables in every state that a run reaches. -/
def Tended (pol : Policy) (s : System) : Prop :=
  match s.process with
  | .down => Numbered s.world.disk
  | .opening _ p => ∃ x, p.Follows recoverRules recoverDone x ∧ Cleans pol x s.world.toWorld
  | .up _ client worker => ∃ τ, Kept pol τ s.world.toWorld ∧ ClientOwns (τ .client) client ∧
    WorkerOwns (τ .background) worker

/-- A file of a table has a number that fits. -/
theorem Tended.numbered {s : System} (h : Tended pol s) : Numbered s.world.disk := by
  rw [Tended] at h
  split at h
  · exact h
  · obtain ⟨x, -, hx⟩ := h
    exact hx.numbered
  · obtain ⟨τ, hτ, -⟩ := h
    exact hτ.numbered

/-- A step of the client leaves the tables of the compaction thread as they are. -/
private theorem tended_client {v : Lsmdb.World} {s : Tables} (hclient : ClientOwns s client)
    (hworker : WorkerOwns (τ .background) worker) (hkept : Kept pol (Function.update τ .client s) v) :
    ∃ τ, Kept pol τ v ∧ ClientOwns (τ .client) client ∧ WorkerOwns (τ .background) worker := by
  refine ⟨_, hkept, ?_, ?_⟩
  · rwa [Function.update_self]
  · rwa [Function.update_of_ne (by decide)]

/-- A step of the background thread leaves the tables of the client alone. -/
private theorem tended_worker {v : Lsmdb.World} {s : Tables} (hclient : ClientOwns (τ .client) client)
    (hworker : WorkerOwns s worker) (hkept : Kept pol (Function.update τ .background s) v) :
    ∃ τ, Kept pol τ v ∧ ClientOwns (τ .client) client ∧ WorkerOwns (τ .background) worker := by
  refine ⟨_, hkept, ?_, ?_⟩
  · rwa [Function.update_of_ne (by decide)]
  · rwa [Function.update_self]

/-- Every event keeps the tables. -/
theorem Tended.step {s s' : System} {e : Event} (h : Tended pol s) (hreach : Reachable pol s)
    (hpermits : Permits pol s e) (hnext : s.next e = some s') : Tended pol s' := by
  have hnumbered := h.numbered
  have hr := Ruled.of_reachable hreach
  rw [Tended] at h
  rw [Ruled] at hr
  cases e with
  | «open» cfg =>
    rw [System.next] at hnext
    split at hnext
    next hp =>
      cases hnext
      exact ⟨{}, follows_recover cfg, fun v hv => (by cases hv), fun _ names hn => (by cases hn), hnumbered⟩
    next => cases hnext
  | openStep ch =>
    rw [System.next] at hnext
    split at hnext
    next cfg p hp =>
      rw [hp] at h hr
      obtain ⟨⟨p', v⟩, hstep, rfl⟩ := Option.map_eq_some_iff.mp hnext
      obtain ⟨x, hx, hcleans⟩ := h
      obtain ⟨a, cont, r, rfl, rfl, hexec, -, hrest⟩ := hx.step hstep
      simp only [Permits, hp] at hpermits
      exact ⟨_, hrest, hcleans.step hr.2.1 hpermits hexec⟩
    next => cases hnext
  | openReturn =>
    rw [System.next] at hnext
    split at hnext
    next cfg hp =>
      cases hnext
      rw [hp] at h
      obtain ⟨x, hdone, hcleans⟩ := h
      -- the numbers of the version are below the next one
      obtain ⟨-, g, -, hg, -⟩ := Serving.of_recovered hreach hp
      refine ⟨fun _ => {}, hcleans.kept hdone fun n hn => ?_, rfl, ⟨rfl, rfl⟩,
        follows_tables_look cfg false ∅⟩
      obtain ⟨f, hf, rfl⟩ := Version.mem_numbers.mp hn
      exact hg.inv.tables_lt _ _ (hg.inv.current_tables f hf)
    next cfg e hp =>
      cases hnext
      exact hnumbered
    next => cases hnext
  | invoke op =>
    rw [System.next] at hnext
    split at hnext
    next cfg worker hp =>
      cases hnext
      rw [hp] at h
      obtain ⟨τ, hkept, hclient, hworker⟩ := h
      refine ⟨τ, hkept, ?_, hworker⟩
      show (erase (program cfg op)).Follows _ _ _
      rw [erase_program, show τ .client = {} from hclient]
      exact follows_tables_program cfg op ∅
    next => cases hnext
  | waitForCompactions =>
    rw [System.next] at hnext
    split at hnext
    next cfg worker hp =>
      cases hnext
      rw [hp] at h
      exact h
    next => cases hnext
  | clientStep ch =>
    rw [System.next] at hnext
    split at hnext
    next cfg client worker hp =>
      obtain ⟨g, hg⟩ := Serving.of_reachable hreach hp
      rw [hp] at h hr
      simp only [Permits, hp] at hpermits
      obtain ⟨τ, hkept, hclient, hworker⟩ := h
      obtain ⟨c, k, -, hrc, -, ha⟩ := hr
      obtain ⟨⟨client', w'⟩, hstep, rfl⟩ := Option.map_eq_some_iff.mp hnext
      obtain ⟨s', hs', hkept'⟩ := hclient.step hkept hrc ha hg.inv.next_lt hpermits hstep
      exact tended_client hs' hworker hkept'
    next => cases hnext
  | clientReturn =>
    rw [System.next] at hnext
    split at hnext
    next cfg op r worker hp =>
      cases hnext
      obtain ⟨g, hg⟩ := Serving.of_reachable hreach hp
      rw [hp] at h
      obtain ⟨τ, hkept, hclient, hworker⟩ := h
      have hdone : tablesDone r (τ .client) := hclient
      have hkept' : Kept pol (Function.update τ .client {}) s.world.toWorld := by
        -- without faults a call has removed or installed its tables when it returns
        refine hkept.clear (fun hpol => hdone fun e he => ?_) rfl (Finset.empty_subset _)
        subst he
        exact hg.return.2.ok_of_status hpol
      refine tended_client ?_ hworker hkept'
      split <;> rfl
    next cfg goOn worker hp =>
      cases hnext
      rw [hp] at h
      cases goOn <;> exact h
    next => cases hnext
  | workerStep ch =>
    rw [System.next] at hnext
    split at hnext
    next cfg client worker hp =>
      obtain ⟨g, hg⟩ := Serving.of_reachable hreach hp
      rw [hp] at h hr
      simp only [Permits, hp] at hpermits
      obtain ⟨τ, hkept, hclient, hworker⟩ := h
      obtain ⟨c, k, -, -, hrw, ha⟩ := hr
      obtain ⟨⟨worker', w'⟩, hstep, rfl⟩ := Option.map_eq_some_iff.mp hnext
      obtain ⟨s', hs', hkept'⟩ := hworker.step hkept hrw ha hg.inv.next_lt hpermits hstep
      exact tended_worker hclient hs' hkept'
    next => cases hnext
  | workerReturn =>
    rw [System.next] at hnext
    split at hnext
    next cfg client worker hp =>
      obtain ⟨g, hg⟩ := Serving.of_reachable hreach hp
      rw [hp] at h
      obtain ⟨τ, hkept, hclient, hworker⟩ := h
      obtain ⟨worker', hreturn, rfl⟩ := Option.map_eq_some_iff.mp hnext
      obtain ⟨s', hs', hkept'⟩ := hworker.return hkept hg hreturn
      exact tended_worker hclient hs' hkept'
    next => cases hnext
  | join =>
    rw [System.next] at hnext
    split at hnext
    next => cases hnext; exact hnumbered
    next => cases hnext
  | kill =>
    cases hnext
    exact hnumbered

/-- It holds in every state of every run. -/
theorem Tended.of_reachable {s : System} (h : Reachable pol s) : Tended pol s := by
  induction h with
  | refl => exact fun n hn => absurd hn (AList.notMem_empty _)
  | tail hreach hstep ih =>
    obtain ⟨e, hpermits, hnext⟩ := hstep
    exact ih.step hreach hpermits hnext

end Sync

end Lsmdb
