import Lsmdb.Spec.TableFiles

/-!
# The level layout and the pick

`Layout` is what the code keeps of its levels: L0 in the order of file numbers, the
deeper levels as disjoint runs sorted by key, every file a finished table, and no
number twice. `PickCompaction` takes all of L0 or the first file of the shallowest
level over its budget, with the files of the next level that meet their hull
(`wellPicked_of_pickCompaction`), whenever `NeedsCompaction` asks for it
(`needsCompaction_eq_isSome`); only an empty L0 with a trigger that is not positive
is not guarded against (`pickCompaction_eq_none_iff`).
-/

namespace Lsmdb

open SortedMap

/-- The files of a version. -/
def Version.files (v : Version) : List FileMeta := v.levels.flatten

/-- The tables of a version in priority order. -/
def Version.tables (v : Version) : List (List Entry) := v.byPriority.map (·.entries)

/-- All keys of a file are below those of another. -/
def FileMeta.Before (f g : FileMeta) : Prop := f.largest < g.smallest

structure Layout (v : Version) : Prop where
  ne_nil : v.levels ≠ []
  wf : ∀ f ∈ v.files, f.Wf
  l0 : ∀ files ∈ v.levels.head?, files.Pairwise fun f g => f.number < g.number
  deep : ∀ files ∈ v.levels.tail, files.Pairwise FileMeta.Before
  nodup : (v.files.map (·.number)).Nodup

/-- A file whose reader has been replaced. -/
def FileMeta.damage (d : FileMeta → SSTableReader) (f : FileMeta) : FileMeta :=
  { f with reader := d f }

/-- A version whose readers have been replaced. -/
def Version.damage (d : FileMeta → SSTableReader) (v : Version) : Version :=
  ⟨v.levels.map (·.map (·.damage d))⟩

/-- The search order has every file of the version. -/
theorem mem_byPriority {v : Version} {f : FileMeta} : f ∈ v.byPriority ↔ f ∈ v.files := by
  rw [Version.byPriority, Version.files]
  cases v.levels with
  | nil => rfl
  | cons l0 deeper => rw [List.mem_append, List.mem_reverse, List.flatten_cons, List.mem_append]

/-! ## Lookups in levels -/

section Lookups

variable {files files' : List FileMeta} {k : Bytes}

/-- The newest version of a key in files in priority order. -/
def newestOf (files : List FileMeta) (k : Bytes) : Option Entry := newest (files.map (·.entries)) k

@[simp] theorem newestOf_nil : newestOf [] k = none := rfl

@[simp] theorem newestOf_cons (f : FileMeta) :
    newestOf (f :: files) k = (find Entry.key k f.entries).or (newestOf files k) := by
  rw [newestOf, List.map_cons, newest_cons, newestOf]

@[simp] theorem newestOf_append :
    newestOf (files ++ files') k = (newestOf files k).or (newestOf files' k) := by
  rw [newestOf, List.map_append, newest_append, newestOf, newestOf]

/-- A key without a record in any of the files. -/
theorem newestOf_eq_none_iff :
    newestOf files k = none ↔ ∀ f ∈ files, find Entry.key k f.entries = none := by
  rw [newestOf, newest_eq_none_iff]
  simp

/-- No key is in two of the files. -/
def KeyDisjoint (files : List FileMeta) : Prop :=
  files.Pairwise fun f g => ∀ k, find Entry.key k f.entries = none ∨ find Entry.key k g.entries = none

/-- Files that follow each other have no key in common. -/
theorem keyDisjoint_of_before (hwf : ∀ f ∈ files, f.Wf) (h : files.Pairwise FileMeta.Before) :
    KeyDisjoint files := by
  refine List.Pairwise.imp_of_mem ?_ h
  intro f g hf hg hfg k
  rcases le_or_gt k f.largest with hk | hk
  · exact .inr ((hwf g hg).find_eq_none (.inl (hk.trans_lt hfg)))
  · exact .inl ((hwf f hf).find_eq_none (.inr hk))

/-- In files without common keys any file that has a key decides. -/
private theorem KeyDisjoint.newestOf_eq_some_iff (h : KeyDisjoint files) {e : Entry} :
    newestOf files k = some e ↔ ∃ f ∈ files, find Entry.key k f.entries = some e := by
  constructor
  · intro hsome
    obtain ⟨t, ht, hte⟩ := List.exists_of_findSome?_eq_some hsome
    obtain ⟨f, hf, rfl⟩ := List.mem_map.mp ht
    exact ⟨f, hf, hte⟩
  · rintro ⟨f, hf, hfe⟩
    induction files with
    | nil => simp at hf
    | cons g files ih =>
      obtain ⟨hg, htail⟩ := List.pairwise_cons.mp h
      rw [newestOf_cons]
      rcases List.mem_cons.mp hf with rfl | hf
      · rw [hfe, Option.some_or]
      -- no other file has the key
      · have hnone : find Entry.key k g.entries = none :=
          (hg f hf k).resolve_right (by rw [hfe]; simp)
        rw [hnone, Option.none_or, ih htail hf]

/-- Such files can be looked up in any order. -/
theorem KeyDisjoint.newestOf_eq (h : KeyDisjoint files) (h' : KeyDisjoint files')
    (hmem : ∀ f, f ∈ files ↔ f ∈ files') : newestOf files k = newestOf files' k := by
  apply Option.ext
  intro e
  simp only [h.newestOf_eq_some_iff, h'.newestOf_eq_some_iff, hmem]

/-- Then their order does not matter. -/
theorem KeyDisjoint.perm (h : KeyDisjoint files) (hp : files.Perm files') : KeyDisjoint files' :=
  hp.pairwise h fun hfg k => (hfg k).symm

end Lookups

/-! ## The pick -/

/-- What `PickCompaction` returns: all of L0, newest first, or the first file of a deeper level,
    and the files of the next level that meet its range. -/
inductive Picked (v : Version) : Compaction → Prop
  | l0 (lo hi : Bytes) (ne_nil : v.level 0 ≠ [])
      (range : ∀ f ∈ v.level 0, lo ≤ f.smallest ∧ f.largest ≤ hi) :
      Picked v ⟨0, 1, noDataBelow v 1, (v.level 0).reverse ++ overlapping (v.level 1) lo hi⟩
  | deep (i : Nat) (chosen : FileMeta) (rest : List FileMeta) (one_le : 1 ≤ i)
      (level_eq : v.level i = chosen :: rest) :
      Picked v ⟨i, i + 1, noDataBelow v (i + 1),
        chosen :: overlapping (v.level (i + 1)) chosen.smallest chosen.largest⟩

/-- Sorting by descending number reverses L0. -/
private theorem insertionSort_l0 {files : List FileMeta}
    (h : files.Pairwise fun f g => f.number < g.number) :
    (files.insertionSort fun a b => a.number ≥ b.number) = files.reverse := by
  -- the numbers are ascending, so sorting by descending ones is reversing
  have hrev : files.reverse.Pairwise fun a b => a.number ≥ b.number :=
    (List.pairwise_reverse.mpr h).imp fun h => le_of_lt h
  have hperm := (List.perm_insertionSort (fun a b : FileMeta => a.number ≥ b.number) files).trans
    (List.reverse_perm files).symm
  have hsort := List.pairwise_insertionSort (fun a b : FileMeta => a.number ≥ b.number) files
  have hnodup : (files.map (·.number)).Nodup :=
    List.pairwise_map.mpr (h.imp fun h => h.ne)
  refine hperm.eq_of_pairwise (fun a b ha hb hab hba => ?_) hsort hrev
  rw [List.mem_insertionSort] at ha
  rw [List.mem_reverse] at hb
  exact List.inj_on_of_nodup_map hnodup ha hb (le_antisymm hba hab)

/-- The lower end of the range is below every file. -/
private theorem foldl_min_le (files : List FileMeta) (lo : Bytes) :
    files.foldl (fun lo f => min lo f.smallest) lo ≤ lo ∧
      ∀ f ∈ files, files.foldl (fun lo f => min lo f.smallest) lo ≤ f.smallest := by
  induction files generalizing lo with
  | nil => simp
  | cons g files ih =>
    obtain ⟨hlo, hall⟩ := ih (min lo g.smallest)
    refine ⟨hlo.trans (min_le_left _ _), fun f hf => ?_⟩
    rcases List.mem_cons.mp hf with rfl | hf
    · exact hlo.trans (min_le_right _ _)
    · exact hall f hf

/-- The upper end of the range is above every file. -/
private theorem le_foldl_max (files : List FileMeta) (hi : Bytes) :
    hi ≤ files.foldl (fun hi f => max hi f.largest) hi ∧
      ∀ f ∈ files, f.largest ≤ files.foldl (fun hi f => max hi f.largest) hi := by
  induction files generalizing hi with
  | nil => simp
  | cons g files ih =>
    obtain ⟨hhi, hall⟩ := ih (max hi g.largest)
    refine ⟨(le_max_left _ _).trans hhi, fun f hf => ?_⟩
    rcases List.mem_cons.mp hf with rfl | hf
    · exact (le_max_right _ _).trans hhi
    · exact hall f hf

variable {v u : Version} {c : Compaction} {options : Options}

/-- The files of level 0 are in the order of their numbers. -/
theorem Layout.l0_pairwise (h : Layout v) :
    (v.level 0).Pairwise fun f g => f.number < g.number := by
  obtain ⟨l0, deeper, hlevels⟩ := List.exists_cons_of_ne_nil h.ne_nil
  have hl0 : v.level 0 = l0 := by rw [Version.level, hlevels]; rfl
  rw [hl0]
  exact h.l0 l0 (by rw [hlevels]; rfl)

/-- What `PickCompaction` returns is a compaction of level 0 or of one file of a deeper level, with
    all files of the next level that overlap. -/
theorem picked_of_pickCompaction (hv : Layout v)
    (h : pickCompaction options v = some (some c)) : Picked v c := by
  rw [pickCompaction, if_neg hv.ne_nil] at h
  split at h
  · -- L0 has reached the trigger
    have hsort := insertionSort_l0 hv.l0_pairwise
    dsimp only at h
    split at h
    · cases h
    · rename_i front rest hfront
      cases h
      rw [hsort]
      apply Picked.l0
      · intro hnil
        rw [hsort, hnil] at hfront
        cases hfront
      · intro f hf
        have hf' : f ∈ (v.level 0).reverse := List.mem_reverse.mpr hf
        exact ⟨(foldl_min_le _ _).2 f hf', (le_foldl_max _ _).2 f hf'⟩
  · -- a deeper level is over its budget
    split at h
    · cases h
    · rename_i i hfind
      split at h
      · cases h
      · rename_i chosen rest hlevel
        cases h
        have hmem := List.mem_of_find?_eq_some hfind
        simp only [budgetedLevels, List.mem_filter, Bool.and_eq_true, decide_eq_true_eq] at hmem
        exact Picked.deep i chosen rest hmem.2.1 hlevel

/-- A level that the loops over the budgets stop at. -/
def OverBudget (options : Options) (v : Version) (i : Nat) : Prop :=
  i ∈ budgetedLevels options v ∧ v.level i ≠ [] ∧ levelBudget options i < levelBytes (v.level i)

/-- The test of the loop in `PickCompaction`. -/
private theorem not_within_budget_iff {i : Nat} :
    (!((v.level i).isEmpty || decide (levelBytes (v.level i) ≤ levelBudget options i))) = true ↔
      v.level i ≠ [] ∧ levelBudget options i < levelBytes (v.level i) := by
  simp

/-- The level that the loop stops at is over its budget. -/
private theorem overBudget_of_find {i : Nat} (h : (budgetedLevels options v).find? (fun i =>
    !((v.level i).isEmpty || levelBytes (v.level i) ≤ levelBudget options i)) = some i) :
    OverBudget options v i := by
  have hover := List.find?_some h
  exact ⟨List.mem_of_find?_eq_some h, not_within_budget_iff.mp hover⟩

/-- `NeedsCompaction` tests the trigger of level 0 and the budgets. -/
private theorem needsCompaction_iff :
    needsCompaction options v = true ↔ v.levels ≠ [] ∧
      (options.l0CompactionTrigger ≤ (v.level 0).length ∨ ∃ i, OverBudget options v i) := by
  rw [needsCompaction]
  by_cases hnil : v.levels = []
  · simp [hnil]
  by_cases hl0 : ((v.level 0).length : Int) ≥ options.l0CompactionTrigger
  · simp [hnil, hl0]
  · simp [hnil, hl0, OverBudget]

/-- Sorting drops nothing. -/
private theorem insertionSort_eq_nil_iff {files : List FileMeta} :
    (files.insertionSort fun a b => a.number ≥ b.number) = [] ↔ files = [] := by
  rw [← List.length_eq_zero_iff, List.length_insertionSort, List.length_eq_zero_iff]

/-- The pick looks at the front of an empty list in one case only. -/
theorem pickCompaction_eq_none_iff :
    pickCompaction options v = none ↔
      v.levels ≠ [] ∧ options.l0CompactionTrigger ≤ 0 ∧ v.level 0 = [] := by
  rw [pickCompaction]
  by_cases hnil : v.levels = []
  · simp [hnil]
  rw [if_neg hnil]
  by_cases hl0 : ((v.level 0).length : Int) ≥ options.l0CompactionTrigger
  · rw [if_pos hl0]
    dsimp only
    split
    · -- level 0 is empty although its size has reached the trigger: the source takes its front
      rename_i hsort
      have hempty := insertionSort_eq_nil_iff.mp hsort
      rw [hempty] at hl0
      simpa [hnil, hempty] using hl0
    · rename_i front rest hsort
      have hne : v.level 0 ≠ [] := by
        intro hempty
        rw [insertionSort_eq_nil_iff.mpr hempty] at hsort
        cases hsort
      simp [hne]
  · rw [if_neg hl0]
    have htrigger : ¬ options.l0CompactionTrigger ≤ 0 := by omega
    split
    · simp [htrigger]
    · rename_i i hfind
      split
      · rename_i hempty
        exact absurd hempty (overBudget_of_find hfind).2.1
      · simp [htrigger]

/-- With a positive trigger the pick never looks at the front of an empty L0. -/
theorem pickCompaction_isSome (htrigger : 1 ≤ options.l0CompactionTrigger) (v : Version) :
    ∃ r, pickCompaction options v = some r := by
  apply Option.ne_none_iff_exists'.mp
  intro hnone
  have := (pickCompaction_eq_none_iff.mp hnone).2.1
  omega

/-- There is something to pick whenever a compaction is needed. -/
theorem pickCompaction_of_needsCompaction (hneeds : needsCompaction options v = true) :
    pickCompaction options v ≠ some none := by
  rw [needsCompaction] at hneeds
  by_cases hnil : v.levels = []
  · rw [if_pos hnil] at hneeds
    cases hneeds
  rw [if_neg hnil] at hneeds
  rw [pickCompaction, if_neg hnil]
  by_cases hl0 : ((v.level 0).length : Int) ≥ options.l0CompactionTrigger
  · rw [if_pos hl0]
    dsimp only
    split <;> simp
  · rw [if_neg hl0] at hneeds ⊢
    obtain ⟨i, hi, hover⟩ := List.any_eq_true.mp hneeds
    -- the loop that picks stops at the same levels
    have hfind : (budgetedLevels options v).find? (fun i =>
        !((v.level i).isEmpty || levelBytes (v.level i) ≤ levelBudget options i)) ≠ none := by
      intro hnone
      have hnot := List.find?_eq_none.mp hnone i hi
      simp only [Bool.and_eq_true, Bool.not_eq_true', decide_eq_true_eq] at hover
      simp only [hover.1, Bool.false_or, Bool.not_eq_true', Bool.not_eq_false,
        decide_eq_true_eq] at hnot
      exact UInt64.not_le.mpr hover.2 hnot
    obtain ⟨j, hj⟩ := Option.ne_none_iff_exists'.mp hfind
    rw [hj]
    dsimp only
    split <;> simp

/-- The trigger and the picker ask for the same. -/
private theorem needsCompaction_eq_isSome {r : Option Compaction}
    (h : pickCompaction options v = some r) : needsCompaction options v = r.isSome := by
  cases r with
  | none =>
    apply Bool.eq_false_iff.mpr
    intro hneeds
    exact pickCompaction_of_needsCompaction hneeds h
  | some c =>
    rw [Option.isSome_some, needsCompaction_iff]
    rw [pickCompaction] at h
    by_cases hnil : v.levels = []
    · simp [hnil] at h
    rw [if_neg hnil] at h
    -- L0 has reached its trigger, or a level its budget
    split at h
    · rename_i hl0
      exact ⟨hnil, .inl hl0⟩
    · split at h
      · cases h
      · rename_i i hfind
        exact ⟨hnil, .inr ⟨i, overBudget_of_find hfind⟩⟩

/-! ## The shape of a pick -/

/-- Does the range of a file meet the hull of the chosen files? -/
def MeetsHull (chosen : List FileMeta) (f : FileMeta) : Prop :=
  (∃ g ∈ chosen, g.smallest ≤ f.largest) ∧ ∃ g ∈ chosen, f.smallest ≤ g.largest

instance (chosen : List FileMeta) (f : FileMeta) : Decidable (MeetsHull chosen f) :=
  inferInstanceAs (Decidable (_ ∧ _))

/-- The source files of a pick: all of L0, newest first, or the first file of the shallowest level
    over its budget. -/
inductive Chosen (options : Options) (v : Version) : Nat → List FileMeta → Prop
  | l0 (trigger : options.l0CompactionTrigger ≤ (v.level 0).length) :
    Chosen options v 0 (v.level 0).reverse
  | deep {i : Nat} {f : FileMeta} {rest : List FileMeta}
    (trigger : (v.level 0).length < options.l0CompactionTrigger) (overBudget : OverBudget options v i)
    (shallowest : ∀ j < i, ¬ OverBudget options v j) (level_eq : v.level i = f :: rest) :
    Chosen options v i [f]

/-- The chosen files and exactly the files of the next level that meet their hull. -/
structure WellPicked (options : Options) (v : Version) (c : Compaction) (chosen : List FileMeta) :
    Prop where
  ne_nil : chosen ≠ []
  source : Chosen options v c.sourceLevel chosen
  target : c.targetLevel = c.sourceLevel + 1
  inputs : c.inputs = chosen ++ (v.level c.targetLevel).filter (MeetsHull chosen ·)

/-- The lower end of the range is that of one of the files. -/
private theorem foldl_min_le_iff (files : List FileMeta) (lo a : Bytes) :
    files.foldl (fun lo f => min lo f.smallest) lo ≤ a ↔
      lo ≤ a ∨ ∃ f ∈ files, f.smallest ≤ a := by
  induction files generalizing lo with
  | nil => simp
  | cons g files ih => simp [ih, or_assoc]

/-- The upper end of the range is that of one of the files. -/
private theorem le_foldl_max_iff (files : List FileMeta) (hi a : Bytes) :
    a ≤ files.foldl (fun hi f => max hi f.largest) hi ↔ a ≤ hi ∨ ∃ f ∈ files, a ≤ f.largest := by
  induction files generalizing hi with
  | nil => simp
  | cons g files ih => simp [ih, or_assoc]

/-- The loop stops at the first level that is over its budget. -/
private theorem shallowest_of_find {l : List Nat} {p : Nat → Bool} (hl : l.Pairwise (· < ·))
    {i : Nat} (h : l.find? p = some i) {j : Nat} (hj : j ∈ l) (hji : j < i) : ¬ p j = true := by
  obtain ⟨-, before, after, rfl, hbefore⟩ := List.find?_eq_some_iff_append.mp h
  rw [List.pairwise_append, List.pairwise_cons] at hl
  rcases List.mem_append.mp hj with hj | hj
  · simpa using hbefore j hj
  · rcases List.mem_cons.mp hj with rfl | hj
    · exact absurd hji (lt_irrefl _)
    · exact absurd hji (hl.2.1.1 j hj).not_gt

/-- The compaction that is picked has the inputs that it should have. -/
private theorem wellPicked_of_pickCompaction (hl0 : (v.level 0).Pairwise fun f g => f.number < g.number)
    (h : pickCompaction options v = some (some c)) : ∃ chosen, WellPicked options v c chosen := by
  rw [pickCompaction] at h
  by_cases hnil : v.levels = []
  · simp [hnil] at h
  rw [if_neg hnil] at h
  split at h
  · -- L0 has reached the trigger
    rename_i htrigger
    dsimp only at h
    rw [insertionSort_l0 hl0] at h
    split at h
    · cases h
    · rename_i front rest hfront
      cases h
      refine ⟨(v.level 0).reverse, ?_, .l0 htrigger, rfl, ?_⟩
      · simp [hfront]
      · dsimp only
        rw [overlapping]
        congr 2
        funext f
        -- the fold starts from the front, which is one of the files
        have hmem : front ∈ (v.level 0).reverse := by simp [hfront]
        rw [Bool.eq_iff_iff, decide_eq_true_eq, MeetsHull]
        simp only [overlaps, Bool.and_eq_true, decide_eq_true_eq, ge_iff_le,
          foldl_min_le_iff, le_foldl_max_iff]
        constructor
        · intro ⟨hlo, hhi⟩
          exact ⟨hlo.elim (⟨front, hmem, ·⟩) id, hhi.elim (⟨front, hmem, ·⟩) id⟩
        · intro ⟨hlo, hhi⟩
          exact ⟨.inr hlo, .inr hhi⟩
  · -- a deeper level is over its budget
    rename_i htrigger
    split at h
    · cases h
    · rename_i i hfind
      split at h
      · cases h
      · rename_i chosen rest hlevel
        cases h
        have hsorted : (budgetedLevels options v).Pairwise (· < ·) :=
          List.pairwise_lt_range.filter _
        refine ⟨[chosen], List.cons_ne_nil _ _, .deep (not_le.mp htrigger)
          (overBudget_of_find hfind) ?_ hlevel, rfl, ?_⟩
        · intro j hj hover'
          exact shallowest_of_find hsorted hfind hover'.1 hj (not_within_budget_iff.mpr hover'.2)
        · dsimp only
          rw [overlapping, List.singleton_append]
          congr 2
          funext f
          simp [overlaps, MeetsHull]

/-- The trigger and the picker agree, the picker stays within the lists of files, and what it
    returns has the intended shape, for all options but one case: a trigger that is not positive
    makes `PickCompaction` read the front of an empty L0. -/
theorem picker_agrees_iff (options : Options) {v : Version}
    (hl0 : (v.level 0).Pairwise fun f g => f.number < g.number) :
    (∃ r, pickCompaction options v = some r ∧ needsCompaction options v = r.isSome ∧
        ∀ c ∈ r, ∃ chosen, WellPicked options v c chosen) ↔
      v.levels = [] ∨ 1 ≤ options.l0CompactionTrigger ∨ v.level 0 ≠ [] := by
  constructor
  · -- without a file to start from the pick is not defined
    intro ⟨r, hpick, _⟩
    by_contra hnot
    simp only [not_or, not_le, not_not] at hnot
    have hnone : pickCompaction options v = none :=
      pickCompaction_eq_none_iff.mpr ⟨hnot.1, by omega, hnot.2.2⟩
    rw [hnone] at hpick
    cases hpick
  · -- otherwise it is, and it agrees with the test
    intro hcond
    cases hpick : pickCompaction options v with
    | none =>
      obtain ⟨hlevels, htrigger, hempty⟩ := pickCompaction_eq_none_iff.mp hpick
      rcases hcond with h | h | h
      · exact absurd h hlevels
      · omega
      · exact absurd hempty h
    | some r =>
      refine ⟨r, rfl, needsCompaction_eq_isSome hpick, fun c hc => ?_⟩
      rw [hc] at hpick
      exact wellPicked_of_pickCompaction hl0 hpick

/-- Two files of L0 and a trigger of two. -/
theorem picker_agrees_two_files :
    let file (number : Nat) (es : List Entry) := tableMeta 10 es number
    let v : Version := ⟨[[file 1 [⟨[1], [2], .value⟩], file 2 [⟨[4], [5], .value⟩]], []]⟩
    ∃ r, pickCompaction { l0CompactionTrigger := 2 } v = some r ∧
      needsCompaction { l0CompactionTrigger := 2 } v = r.isSome ∧
      ∀ c ∈ r, ∃ chosen, WellPicked { l0CompactionTrigger := 2 } v c chosen := by
  intro file v
  refine (picker_agrees_iff _ (List.pairwise_pair.mpr ?_)).mpr (.inr (.inl (by decide)))
  show 1 < 2
  decide

/-- A trigger of zero on the version of a new database. -/
theorem picker_reads_empty_front :
    needsCompaction { l0CompactionTrigger := 0 } ⟨[[], [], [], [], [], [], []]⟩ = true ∧
      pickCompaction { l0CompactionTrigger := 0 } ⟨[[], [], [], [], [], [], []]⟩ = none :=
  ⟨by decide, by decide⟩

/-! ## The hull of the inputs -/

/-- Two files of a deeper level are the same or apart. -/
private theorem eq_or_before {files : List FileMeta} (h : files.Pairwise FileMeta.Before)
    {f g : FileMeta} (hf : f ∈ files) (hg : g ∈ files) : f = g ∨ f.Before g ∨ g.Before f := by
  induction files with
  | nil => simp at hf
  | cons x files ih =>
    obtain ⟨hx, htail⟩ := List.pairwise_cons.mp h
    rcases List.mem_cons.mp hf with rfl | hf' <;> rcases List.mem_cons.mp hg with rfl | hg'
    · exact .inl rfl
    · exact .inr (.inl (hx g hg'))
    · exact .inr (.inr (hx f hf'))
    · exact ih htail hf' hg'

/-- A file of the target level that is not an input lies outside of the hull of the inputs: the
    range of the chosen files and the files that meet it form one interval. -/
theorem apart_of_not_overlapping {chosen files : List FileMeta} {lo hi : Bytes}
    (hwf : ∀ f ∈ files, f.Wf) (hrange : ∀ f ∈ chosen, lo ≤ f.smallest ∧ f.largest ≤ hi)
    (hfiles : files.Pairwise FileMeta.Before) {g : FileMeta} (hg : g ∈ files)
    (hnot : ¬ overlaps g.smallest g.largest lo hi = true) {a b : Bytes}
    (ha : ∃ f ∈ chosen ++ overlapping files lo hi, f.smallest ≤ a)
    (hb : ∃ f ∈ chosen ++ overlapping files lo hi, b ≤ f.largest) :
    b < g.smallest ∨ g.largest < a := by
  have hg' := (hwf g hg).smallest_le_largest
  have hside : g.largest < lo ∨ hi < g.smallest := by
    simpa only [overlaps, Bool.and_eq_true, decide_eq_true_eq, ge_iff_le, not_and_or, not_le]
      using hnot
  rcases hside with hlo | hhi
  · -- left of the chosen files
    right
    obtain ⟨f, hf, hfa⟩ := ha
    rcases List.mem_append.mp hf with hf | hf
    -- a chosen file is on the other side of `lo`
    · exact hlo.trans_le ((hrange f hf).1.trans hfa)
    · obtain ⟨hf, hover⟩ := List.mem_filter.mp hf
      simp only [overlaps, Bool.and_eq_true, decide_eq_true_eq, ge_iff_le] at hover
      -- an overlapping file lies on the same side of `g` as the chosen ones
      rcases eq_or_before hfiles hf hg with rfl | hbefore | hbefore
      · exact absurd hlo hover.1.not_gt
      · exact absurd (hlo.trans_le hover.1) (hbefore.trans_le hg').not_gt
      · exact lt_of_lt_of_le hbefore hfa
  · -- right of them
    left
    obtain ⟨f, hf, hfb⟩ := hb
    rcases List.mem_append.mp hf with hf | hf
    · exact (hfb.trans (hrange f hf).2).trans_lt hhi
    · obtain ⟨hf, hover⟩ := List.mem_filter.mp hf
      simp only [overlaps, Bool.and_eq_true, decide_eq_true_eq, ge_iff_le] at hover
      rcases eq_or_before hfiles hf hg with rfl | hbefore | hbefore
      · exact absurd hhi hover.2.not_gt
      · exact hfb.trans_lt hbefore
      · exact absurd (hg'.trans_lt (lt_of_lt_of_le hbefore hover.2)) hhi.not_gt

end Lsmdb
