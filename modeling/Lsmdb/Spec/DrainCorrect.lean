import Lsmdb.Spec.CompactionRuns

/-!
# Compaction comes to an end

As long as `NeedsCompaction` holds, compactions run one after the other. A compaction moves
records one level down and may write the files of the target level anew, in any number, so
neither files nor bytes decrease. What decreases is `weight`: every record counts as many
times as its level is above the last one (`weight_install_lt`). When nothing is needed any
more, L0 is below its trigger and every level within its budget (`within_budget`).
-/

namespace Lsmdb

open Prog SortedMap

/-! ## The weight of a version -/

/-- The sum of a measure over the records of a list of files. -/
def recordSum (m : Entry → Nat) (files : List FileMeta) : Nat :=
  (files.map fun f => (f.entries.map m).sum).sum

/-- The number of records of a list of files. -/
def recordCount (files : List FileMeta) : Nat := recordSum (fun _ => 1) files

/-- Every record counts `d` times in the first level, and once less in each further one. -/
def weight : Nat → List (List FileMeta) → Nat
  | _, [] => 0
  | d, files :: levels => d * recordCount files + weight (d - 1) levels

section RecordSum

variable (m : Entry → Nat)

@[simp] theorem recordSum_nil : recordSum m [] = 0 := rfl

@[simp] theorem recordSum_cons (f : FileMeta) (files : List FileMeta) :
    recordSum m (f :: files) = (f.entries.map m).sum + recordSum m files := by
  simp [recordSum]

@[simp] theorem recordSum_append (files files' : List FileMeta) :
    recordSum m (files ++ files') = recordSum m files + recordSum m files' := by
  simp [recordSum]

/-- The sum goes over the records of all files. -/
theorem recordSum_eq (files : List FileMeta) :
    recordSum m files = ((files.flatMap (·.entries)).map m).sum := by
  induction files with
  | nil => rfl
  | cons f files ih => rw [recordSum_cons, ih, List.flatMap_cons, List.map_append, List.sum_append]

/-- Counting is summing ones. -/
theorem recordCount_eq (files : List FileMeta) :
    recordCount files = (files.flatMap (·.entries)).length := by
  rw [recordCount, recordSum_eq]
  simp

/-- The order of the files does not matter. -/
private theorem recordSum_perm {files files' : List FileMeta} (h : files.Perm files') :
    recordSum m files = recordSum m files' :=
  (h.map _).sum_eq

/-- Some of the files weigh no more than all of them. -/
private theorem recordSum_filter_le (p : FileMeta → Bool) (files : List FileMeta) :
    recordSum m (files.filter p) ≤ recordSum m files := by
  induction files with
  | nil => simp
  | cons f files ih =>
    rw [List.filter_cons]
    split <;> simp <;> omega

/-- Two parts of a list of files that have no file in common. -/
private theorem recordSum_filter_add_le {p q : FileMeta → Bool} {files : List FileMeta}
    (h : ∀ f ∈ files, p f = true → q f = false) :
    recordSum m (files.filter p) + recordSum m (files.filter q) ≤ recordSum m files := by
  induction files with
  | nil => simp
  | cons f files ih =>
    have hrest := ih fun g hg => h g (List.mem_cons_of_mem f hg)
    -- no file is in both parts
    cases hp : p f with
    | true =>
      have hq : q f = false := h f List.mem_cons_self hp
      simp [hp, hq]
      omega
    | false =>
      cases hq : q f <;> simp [hp, hq] <;> omega

end RecordSum

/-- The upper levels count with the larger factors. -/
theorem weight_append (d : Nat) (levels levels' : List (List FileMeta)) :
    weight d (levels ++ levels') = weight d levels + weight (d - levels.length) levels' := by
  induction levels generalizing d with
  | nil => simp [weight]
  | cons files levels ih =>
    have hd : d - 1 - levels.length = d - (files :: levels).length := by
      rw [List.length_cons]
      omega
    rw [List.cons_append, weight, weight, ih, hd, Nat.add_assoc]

/-- Empty levels weigh nothing. -/
private theorem weight_replicate_nil (d n : Nat) : weight d (List.replicate n []) = 0 := by
  induction n generalizing d with
  | zero => rfl
  | succ n ih => rw [List.replicate_succ, weight, ih, recordCount, recordSum_nil, Nat.mul_zero]

/-- The weight of a version, with two neighbouring levels set apart. -/
private theorem weight_levels {v : Version} {i : Nat} (h : i < v.levels.length) (d : Nat) :
    weight d v.levels = weight d (v.levels.take i) + ((d - i) * recordCount (v.level i) +
      ((d - i - 1) * recordCount (v.level (i + 1)) + weight (d - i - 1 - 1) (v.levels.drop (i + 2)))) := by
  have hpad := congrArg (weight d) (pad_eq h)
  rw [weight_append, weight_replicate_nil, Nat.add_zero, weight_append,
    List.length_take_of_le h.le] at hpad
  exact hpad

/-! ## A compaction -/

variable {v : Version} {c : Compaction} {outs : List FileMeta} {m : Entry → Nat}

/-- A compaction writes no more than it reads. -/
private theorem recordSum_outputs_le (hm : ∀ e, m e.normal ≤ m e) (ho : Outputs c v outs) :
    recordSum m outs ≤ recordSum m c.inputs := by
  rw [recordSum_eq, recordSum_eq, ho.entries, compacted]
  -- the merge yields every record of the inputs at most once
  have hsubperm : (merge Entry.key (c.inputs.map (·.entries))).Subperm _ := merge_subperm _
  obtain ⟨l, hperm, hsub⟩ := hsubperm
  -- dropping tombstones, then normalising, then merging: no step adds to the sum
  calc ((((merge Entry.key (c.inputs.map (·.entries))).map Entry.normal).filter _).map m).sum
      ≤ (((merge Entry.key (c.inputs.map (·.entries))).map Entry.normal).map m).sum :=
        (List.filter_sublist.map m).sum_le_sum fun _ _ => Nat.zero_le _
    _ ≤ ((merge Entry.key (c.inputs.map (·.entries))).map m).sum := by
        rw [List.map_map]
        exact List.sum_le_sum fun e _ => hm e
    _ = (l.map m).sum := ((hperm.map m).sum_eq).symm
    _ ≤ ((c.inputs.flatMap (·.entries)).map m).sum := by
        rw [List.flatMap_def]
        exact (hsub.map m).sum_le_sum fun _ _ => Nat.zero_le _

/-- The files of the target level that a compaction reads are none of those that it leaves. -/
private theorem recordSum_strip_overlapping (m : Entry → Nat) (c : Compaction) (files : List FileMeta)
    (lo hi : Bytes) (h : ∀ f ∈ overlapping files lo hi, f ∈ c.inputs) :
    recordSum m (strip c files) + recordSum m (overlapping files lo hi) ≤ recordSum m files := by
  apply recordSum_filter_add_le
  intro f hf hstays
  cases hover : overlaps f.smallest f.largest lo hi with
  | false => rfl
  | true =>
    have hinput : f ∈ c.inputs := h f (List.mem_filter.mpr ⟨hf, hover⟩)
    have hgone : (c.inputs.map (·.number)).contains f.number = true := by
      simpa using ⟨f, hinput, rfl⟩
    rw [hgone] at hstays
    cases hstays

/-- What a compaction takes out of its two levels: something of the source, and as much of the
    target as it reads besides. -/
theorem Picked.recordSum_strip (hp : Picked v c) (hv : Layout v) (m : Entry → Nat) :
    ∃ taken, ((∀ e, 0 < m e) → 0 < taken) ∧
      recordSum m (strip c (v.level c.sourceLevel)) + taken ≤ recordSum m (v.level c.sourceLevel) ∧
      recordSum m (strip c (v.level c.targetLevel)) + recordSum m c.inputs ≤
        recordSum m (v.level c.targetLevel) + taken := by
  -- no table is empty
  have hpos {i : Nat} {f : FileMeta} (hf : f ∈ v.level i) (hm : ∀ e, 0 < m e) :
      0 < (f.entries.map m).sum := by
    obtain ⟨e, es, he⟩ := List.exists_cons_of_ne_nil (hv.wf_level hf).entries_ne_nil
    have := hm e
    rw [he, List.map_cons, List.sum_cons]
    omega
  cases hp with
  | l0 lo hi hne hrange =>
    refine ⟨recordSum m (v.level 0), fun hm => ?_, ?_, ?_⟩
    · -- level 0 has a file, and it has a record
      obtain ⟨f, rest, hlevel⟩ := List.exists_cons_of_ne_nil hne
      have hf : f ∈ v.level 0 := hlevel ▸ List.mem_cons_self
      have := hpos hf hm
      rw [hlevel, recordSum_cons]
      omega
    · -- all of L0 is read
      have hnil : strip ⟨0, 1, noDataBelow v 1, (v.level 0).reverse ++
          overlapping (v.level 1) lo hi⟩ (v.level 0) = [] := by
        apply List.filter_eq_nil_iff.mpr
        intro f hf
        simp only [List.map_append, List.contains_eq_mem, List.mem_append, List.mem_map,
          List.mem_reverse, Bool.not_eq_true', decide_eq_false_iff_not, not_not]
        exact .inl ⟨f, hf, rfl⟩
      rw [hnil, recordSum_nil, Nat.zero_add]
    · -- of level 1 the overlapping files move into the inputs
      have hstrip := recordSum_strip_overlapping m ⟨0, 1, noDataBelow v 1,
        (v.level 0).reverse ++ overlapping (v.level 1) lo hi⟩ (v.level 1) lo hi
        fun f hf => List.mem_append_right _ hf
      have hl0 : recordSum m (v.level 0).reverse = recordSum m (v.level 0) :=
        recordSum_perm m (List.reverse_perm _)
      dsimp only
      rw [recordSum_append, hl0]
      omega
  | deep i chosen rest hone hlevel =>
    refine ⟨(chosen.entries.map m).sum, hpos (hlevel ▸ List.mem_cons_self), ?_, ?_⟩
    · -- of the source at least the chosen file is read
      dsimp only
      rw [hlevel, strip, List.filter_cons_of_neg (by simp), recordSum_cons, Nat.add_comm]
      exact Nat.add_le_add_left (recordSum_filter_le m _ rest) _
    · -- so it is for the target of a deeper level
      have hstrip := recordSum_strip_overlapping m ⟨i, i + 1, noDataBelow v (i + 1),
        chosen :: overlapping (v.level (i + 1)) chosen.smallest chosen.largest⟩
        (v.level (i + 1)) chosen.smallest chosen.largest fun f hf => List.mem_cons_of_mem _ hf
      dsimp only
      rw [recordSum_cons]
      omega

/-- The two levels of an installed compaction. -/
private theorem recordSum_insertionSort (m : Entry → Nat) (kept outs : List FileMeta) :
    recordSum m ((kept ++ outs).insertionSort fun a b => a.smallest ≤ b.smallest) =
      recordSum m kept + recordSum m outs := by
  rw [recordSum_perm m (List.perm_insertionSort _ _), recordSum_append]

/-- A compaction takes weight off the version. -/
theorem weight_install_lt (hp : Picked v c) (hv : Layout v) (ho : Outputs c v outs) {d : Nat}
    (hd : c.sourceLevel < d) :
    weight d (installCompaction v c outs).levels < weight d v.levels := by
  obtain ⟨chosen, lo, hi, hsite⟩ := hp.site hv.ne_nil hv (.refl v)
  obtain ⟨taken, hpos, hsource, htarget⟩ := hp.recordSum_strip hv fun _ => 1
  have hpos := hpos fun _ => Nat.one_pos
  have houts := recordSum_outputs_le (m := fun _ => 1) (fun _ => le_rfl) ho
  rw [levels_install outs hsite.target_eq hsite.source_lt, weight_levels hsite.source_lt,
    weight_append, List.length_take_of_le hsite.source_lt.le, weight, weight]
  simp only [recordCount, recordSum_insertionSort]
  rw [hsite.target_eq] at htarget ⊢
  -- a record of the source counts once more than one of the target
  obtain ⟨m, hm⟩ : ∃ m, d - c.sourceLevel = m + 1 := ⟨d - c.sourceLevel - 1, by omega⟩
  rw [hm, Nat.add_sub_cancel]
  have hkept : (m + 1) * (recordSum (fun _ => 1) (strip c (v.level c.sourceLevel)) + taken) ≤
      (m + 1) * recordSum (fun _ => 1) (v.level c.sourceLevel) := Nat.mul_le_mul_left _ hsource
  have hwritten : m * (recordSum (fun _ => 1) (strip c (v.level (c.sourceLevel + 1))) + recordSum (fun _ => 1) outs) ≤
      m * (recordSum (fun _ => 1) (v.level (c.sourceLevel + 1)) + taken) :=
    Nat.mul_le_mul_left _ (by omega)
  rw [Nat.mul_add] at hkept
  rw [Nat.mul_add m _ taken] at hwritten
  have htaken : (m + 1) * taken = m * taken + taken := Nat.succ_mul m taken
  omega

/-- A compaction leaves no more records than there were, and no more of their bytes. -/
theorem recordSum_install_le (hm : ∀ e, m e.normal ≤ m e) (hp : Picked v c) (hv : Layout v)
    (ho : Outputs c v outs) :
    recordSum m (installCompaction v c outs).files ≤ recordSum m v.files := by
  obtain ⟨chosen, lo, hi, hsite⟩ := hp.site hv.ne_nil hv (.refl v)
  obtain ⟨taken, -, hsource, htarget⟩ := hp.recordSum_strip hv m
  have houts := recordSum_outputs_le hm ho
  rw [files_eq hsite.source_lt, Version.files, levels_install outs hsite.target_eq hsite.source_lt,
    ← hsite.target_eq]
  simp only [List.flatten_append, List.flatten_cons, recordSum_append, recordSum_insertionSort]
  omega

/-! ## What is left when nothing is needed -/

variable {options : Options}

/-- The last level that has a budget, and none if there is no second level. -/
def Options.depth (options : Options) : Nat := (UInt64.ofInt options.maxLevels - 1).toNat

/-- `static_cast<uint64_t>` of an `int`. -/
private theorem toNat_ofInt (x : Int) : ((UInt64.ofInt x).toNat : Int) = x % 2 ^ 64 := by
  have hnonneg : 0 ≤ x % 2 ^ 64 := Int.emod_nonneg x (by decide)
  have hlt : x % 2 ^ 64 < 2 ^ 64 := Int.emod_lt_of_pos x (by decide)
  have hmod : (x % 2 ^ 64).toNat % 2 ^ 64 = (x % 2 ^ 64).toNat := Nat.mod_eq_of_lt (by omega)
  rw [UInt64.ofInt, UInt64.toNat_ofNat', hmod, Int.toNat_of_nonneg hnonneg]

/-- For the counts of levels that make sense the deepest level is `max_levels - 1`. -/
private theorem depth_eq (hlo : 1 ≤ options.maxLevels) (hhi : options.maxLevels < 2 ^ 31) :
    (options.depth : Int) = options.maxLevels - 1 := by
  have hlevels := toNat_ofInt options.maxLevels
  rw [Int.emod_eq_of_lt (by omega) (by omega)] at hlevels
  have hone : (1 : UInt64) ≤ UInt64.ofInt options.maxLevels := by
    rw [UInt64.le_iff_toNat_le, UInt64.toNat_one]
    omega
  rw [Options.depth, UInt64.toNat_sub_of_le _ _ hone, UInt64.toNat_one]
  omega

/-- A compaction takes its records from a level above the last one. -/
theorem sourceLevel_le_depth (h : pickCompaction options v = some (some c)) :
    c.sourceLevel ≤ options.depth := by
  rw [pickCompaction] at h
  split at h
  · cases h
  split at h
  -- a compaction of level 0
  · dsimp only at h
    split at h
    · cases h
    · cases h
      exact Nat.zero_le _
  · split at h
    · cases h
    · rename_i i hfind
      split at h
      · cases h
      · cases h
        -- a deeper one: its level is among those with a budget
        have hmem := List.mem_of_find?_eq_some hfind
        simp only [budgetedLevels, List.mem_filter, Bool.and_eq_true, decide_eq_true_eq] at hmem
        exact hmem.2.2.le

/-- The bytes of a level, counted without overflow. -/
def levelSize (files : List FileMeta) : Nat := (files.map fun f => f.fileSize.toNat).sum

/-- A level is a part of the version. -/
private theorem levelSize_level_le {i : Nat} (h : i < v.levels.length) :
    levelSize (v.level i) ≤ levelSize v.files := by
  have hmem : v.level i ∈ v.levels := by
    rw [Version.level, List.getD_eq_getElem _ _ h]
    exact List.getElem_mem h
  exact ((List.sublist_flatten_of_mem hmem).map _).sum_le_sum fun _ _ => Nat.zero_le _

/-- The sum of `LevelBytes` does not wrap around for a version below `2 ^ 64` bytes. -/
private theorem toNat_levelBytes {files : List FileMeta} (h : levelSize files < 2 ^ 64) :
    (levelBytes files).toNat = levelSize files := by
  -- the loop, from any partial sum
  have hloop : ∀ (files : List FileMeta) (bytes : UInt64),
      bytes.toNat + levelSize files < 2 ^ 64 →
      (files.foldl (fun bytes f => bytes + f.fileSize) bytes).toNat =
        bytes.toNat + levelSize files := by
    intro files
    induction files with
    | nil => simp [levelSize]
    | cons f files ih =>
      intro bytes hlt
      simp only [levelSize, List.map_cons, List.sum_cons] at hlt ⊢
      have hadd : (bytes + f.fileSize).toNat = bytes.toNat + f.fileSize.toNat := by
        rw [UInt64.toNat_add]
        exact Nat.mod_eq_of_lt (by omega)
      rw [List.foldl_cons, ih _ (by rw [hadd, levelSize]; omega), hadd, levelSize, Nat.add_assoc]
  rw [levelBytes, hloop files 0 (by simpa using h)]
  simp

/-- A budget that overflows is smaller than it should be. -/
private theorem levelBudget_le (hmult : 1 ≤ options.levelSizeMultiplier) (i : Nat) :
    ((levelBudget options i).toNat : Int) ≤
      options.l1TargetBytes.toNat * options.levelSizeMultiplier ^ (i - 1) := by
  obtain ⟨m, hm⟩ := Int.eq_ofNat_of_zero_le (show 0 ≤ options.levelSizeMultiplier by omega)
  -- the conversion can only make the multiplier smaller
  have hle : (UInt64.ofInt options.levelSizeMultiplier).toNat ≤ m := by
    have hmod := toNat_ofInt options.levelSizeMultiplier
    rw [hm] at hmod ⊢
    omega
  have hloop (n : Nat) : ((fun budget => budget * UInt64.ofInt options.levelSizeMultiplier)^[n]
      options.l1TargetBytes).toNat ≤ options.l1TargetBytes.toNat * m ^ n := by
    induction n with
    | zero => simp
    | succ n ih =>
      rw [Function.iterate_succ_apply', UInt64.toNat_mul]
      -- and so can the product modulo `2 ^ 64`
      calc _ ≤ _ := Nat.mod_le _ _
        _ ≤ options.l1TargetBytes.toNat * m ^ n * m := Nat.mul_le_mul ih hle
        _ = options.l1TargetBytes.toNat * m ^ (n + 1) := by rw [Nat.mul_assoc, Nat.pow_succ]
  rw [hm]
  exact_mod_cast hloop (i - 1)

/-- When no compaction is needed, every level is within its limits. -/
theorem within_budget (hv : v.levels ≠ []) (hlo : 1 ≤ options.maxLevels)
    (hhi : options.maxLevels < 2 ^ 31) (hmult : 1 ≤ options.levelSizeMultiplier)
    (hneeds : needsCompaction options v = false) (hsize : levelSize v.files < 2 ^ 64) :
    ((v.level 0).length : Int) < options.l0CompactionTrigger ∧
      ∀ i : Nat, 1 ≤ i → (i : Int) < options.maxLevels - 1 →
        (levelSize (v.level i) : Int) ≤
          options.l1TargetBytes.toNat * options.levelSizeMultiplier ^ (i - 1) := by
  rw [needsCompaction, if_neg hv] at hneeds
  split at hneeds
  · cases hneeds
  rename_i hl0
  -- a level that is over its budget would be picked
  refine ⟨by omega, fun i hi hdepth => ?_⟩
  have hbudget := levelBudget_le hmult i
  by_cases hempty : v.level i = []
  · rw [hempty]
    exact le_trans (by simp [levelSize]) hbudget
  · have hlt : i < v.levels.length := by
      by_contra hge
      exact hempty (by rw [Version.level, List.getD_eq_default _ _ (by omega)])
    have hmem : i ∈ budgetedLevels options v := by
      have hd := depth_eq hlo hhi
      rw [Options.depth] at hd
      simp only [budgetedLevels, List.mem_filter, List.mem_range, Bool.and_eq_true,
        decide_eq_true_eq]
      omega
    have hnot := List.any_eq_false.mp hneeds i hmem
    have hle : levelBytes (v.level i) ≤ levelBudget options i := by
      simpa [hempty] using hnot
    have hpart : levelSize (v.level i) ≤ levelSize v.files :=
      levelSize_level_le hlt
    rw [UInt64.le_iff_toNat_le, toNat_levelBytes (by omega)] at hle
    exact le_trans (by exact_mod_cast hle) hbudget

/-! ## Limits -/

/-- What is stored leaves room for the compactions to come: no merge of it outgrows a table or the
    counts of the manifest, and there are file numbers for a table a record and compaction. -/
structure Drainable (cfg : Config) (w : World) : Prop where
  records : RecordsFit cfg.options.bloomBitsPerKey (w.current.files.flatMap (·.entries))
  count : recordCount w.current.files < 2 ^ 32
  numbers : w.nextFileNumber + recordCount w.current.files *
    weight (cfg.options.depth + 1) w.current.levels < 2 ^ 64

/-- No file is empty, so there are no more files than records. -/
private theorem length_le_recordCount {files : List FileMeta} (h : ∀ f ∈ files, f.entries ≠ []) :
    files.length ≤ recordCount files := by
  have hsum := List.length_le_sum_of_one_le (files.map fun f => (f.entries.map fun _ => 1).sum) (by
    intro n hn
    obtain ⟨f, hf, rfl⟩ := List.mem_map.mp hn
    have hpos := List.length_pos_iff.mpr (h f hf)
    simp only [List.map_const', List.sum_replicate, smul_eq_mul, mul_one]
    omega)
  rwa [List.length_map] at hsum

/-- The records of an installed compaction are among those that were there. -/
private theorem mem_install_entries (hp : Picked v c) (hv : Layout v) (ho : Outputs c v outs)
    {f : FileMeta} (hf : f ∈ (installCompaction v c outs).files) {e : Entry} (he : e ∈ f.entries) :
    ∃ e' ∈ v.files.flatMap (·.entries), e = e' ∨ e = e'.normal := by
  obtain ⟨chosen, lo, hi, hsite⟩ := hp.site hv.ne_nil hv (.refl v)
  rcases hsite.mem_install hv hf with ⟨hold, -⟩ | hout
  · exact ⟨e, List.mem_flatMap.mpr ⟨f, hold, he⟩, .inl rfl⟩
  · have hmem : e ∈ compacted c := by
      rw [← ho.entries]
      exact List.mem_flatMap.mpr ⟨f, hout, he⟩
    obtain ⟨e', hmerged, rfl⟩ := List.mem_map.mp (List.mem_filter.mp hmem).1
    obtain ⟨es, hes, he'⟩ := List.mem_flatten.mp ((merge_subperm _).subset hmerged)
    obtain ⟨f', hf', rfl⟩ := List.mem_map.mp hes
    exact ⟨e', List.mem_flatMap.mpr ⟨f', hsite.mem_inputs hf', he'⟩, .inr rfl⟩

/-- A compaction writes no record that was not there, so the limits still hold. -/
private theorem recordsFit_install {bitsPerKey : Int} (hp : Picked v c) (hv : Layout v)
    (ho : Outputs c v outs) (h : RecordsFit bitsPerKey (v.files.flatMap (·.entries))) :
    RecordsFit bitsPerKey ((installCompaction v c outs).files.flatMap (·.entries)) := by
  refine h.of_le (fun e he => ?_) ?_ ?_
  · obtain ⟨f, hf, he⟩ := List.mem_flatMap.mp he
    obtain ⟨e', he', rfl | rfl⟩ := mem_install_entries hp hv ho hf he
    · exact ⟨e, he', le_rfl⟩
    · exact ⟨e', he', (length_normal e').le⟩
  · rw [← recordCount_eq, ← recordCount_eq]
    exact recordSum_install_le (fun _ => le_rfl) hp hv ho
  · rw [length_blockBytes, length_blockBytes, ← recordSum_eq, ← recordSum_eq]
    exact recordSum_install_le (fun e => (length_normal e).le) hp hv ho

/-- The counts of the version that a compaction makes fit the manifest. -/
private theorem fits_install (hp : Picked v c) (hv : Layout v) (ho : Outputs c v outs) (hfits : v.Fits)
    (hcount : recordCount v.files < 2 ^ 32) (hlevel : c.sourceLevel < 2 ^ 31) :
    (installCompaction v c outs).Fits := by
  obtain ⟨chosen, lo, hi, hsite⟩ := hp.site hv.ne_nil hv (.refl v)
  have hlevels := hfits.levels
  constructor
  · rw [levels_install outs hsite.target_eq hsite.source_lt]
    simp only [List.length_append, List.length_take, List.length_cons, List.length_drop]
    omega
  · -- a level has no more files than the version has records
    intro files hfiles
    have hsub : files.Sublist (installCompaction v c outs).files := List.sublist_flatten_of_mem hfiles
    have hle := recordSum_install_le (m := fun _ => 1) (fun _ => le_rfl) hp hv ho
    have hlength : (installCompaction v c outs).files.length ≤
        recordCount (installCompaction v c outs).files := by
      apply length_le_recordCount
      intro f hf
      rcases hsite.mem_install hv hf with ⟨hold, -⟩ | hout
      · exact (hv.wf f hold).entries_ne_nil
      · exact (ho.wf f hout).entries_ne_nil
    exact (hsub.length_le.trans (hlength.trans hle)).trans_lt hcount

/-- A compaction reads no record twice. -/
private theorem Picked.recordSum_inputs_le (hp : Picked v c) (hv : Layout v) (m : Entry → Nat) :
    recordSum m c.inputs ≤ recordSum m v.files := by
  obtain ⟨taken, -, hsource, htarget⟩ := hp.recordSum_strip hv m
  obtain ⟨chosen, lo, hi, hsite⟩ := hp.site hv.ne_nil hv (.refl v)
  rw [files_eq hsite.source_lt, ← hsite.target_eq]
  simp only [recordSum_append]
  omega

/-- The inputs are part of the version. -/
theorem Picked.length_records_le (hp : Picked v c) (hv : Layout v) :
    c.records.length ≤ recordCount v.files := by
  rw [Compaction.records, ← recordCount_eq]
  exact hp.recordSum_inputs_le hv _

/-- The records of the inputs fit if those of the version do. -/
private theorem Picked.recordsFit {bitsPerKey : Int} (hp : Picked v c) (hv : Layout v)
    (h : RecordsFit bitsPerKey (v.files.flatMap (·.entries))) : RecordsFit bitsPerKey c.records := by
  refine h.of_le (fun e he => ?_) ?_ ?_
  · obtain ⟨f, hf, he⟩ := List.mem_flatMap.mp he
    exact ⟨e, List.mem_flatMap.mpr ⟨f, hp.mem_inputs hv hf, he⟩, le_rfl⟩
  · rw [← recordCount_eq]
    exact hp.length_records_le hv
  · rw [length_blockBytes, length_blockBytes, Compaction.records, ← recordSum_eq, ← recordSum_eq]
    exact hp.recordSum_inputs_le hv _

/-- Where there is something to compact there is weight. -/
private theorem Picked.weight_pos (hp : Picked v c) (hv : Layout v) {d : Nat} (hd : c.sourceLevel < d) :
    0 < weight d v.levels := by
  obtain ⟨taken, hpos, hsource, -⟩ := hp.recordSum_strip hv fun _ => 1
  obtain ⟨chosen, lo, hi, hsite⟩ := hp.site hv.ne_nil hv (.refl v)
  have htaken := hpos fun _ => Nat.one_pos
  have hlevel : 0 < (d - c.sourceLevel) * recordCount (v.level c.sourceLevel) :=
    Nat.mul_pos (by omega) (show 0 < recordSum _ _ by omega)
  rw [weight_levels hsite.source_lt]
  omega

section Turn

variable {cfg : Config} {x : Session} {g : Ghost} {w w' : World}

/-- What is left of a compaction leaves room again. -/
theorem Drainable.install (h : Drainable cfg w) (hp : Picked w.current c) (hv : Layout w.current)
    (ho : Outputs c w.current outs) (hlevel : c.sourceLevel ≤ cfg.options.depth)
    (hcurrent : w'.current = installCompaction w.current c outs)
    (hnext : w'.nextFileNumber ≤ w.nextFileNumber + c.records.length) : Drainable cfg w' := by
  have hcount : recordCount (installCompaction w.current c outs).files ≤ recordCount w.current.files :=
    recordSum_install_le (fun _ => le_rfl) hp hv ho
  refine ⟨hcurrent ▸ recordsFit_install hp hv ho h.records, ?_, ?_⟩
  · rw [hcurrent]
    exact hcount.trans_lt h.count
  · have hlt := weight_install_lt hp hv ho (Nat.lt_succ_of_le hlevel)
    have hrecords := hp.length_records_le hv
    have hnumbers := h.numbers
    rw [hcurrent]
    -- the weight that is gone pays for the numbers that were taken
    calc w'.nextFileNumber + recordCount (installCompaction w.current c outs).files *
          weight (cfg.options.depth + 1) (installCompaction w.current c outs).levels
        ≤ w.nextFileNumber + recordCount w.current.files + recordCount w.current.files *
          weight (cfg.options.depth + 1) (installCompaction w.current c outs).levels :=
          Nat.add_le_add (hnext.trans (Nat.add_le_add_left hrecords _))
            (Nat.mul_le_mul_right _ hcount)
      _ = w.nextFileNumber + recordCount w.current.files *
          (weight (cfg.options.depth + 1) (installCompaction w.current c outs).levels + 1) := by ring
      _ ≤ w.nextFileNumber + recordCount w.current.files *
          weight (cfg.options.depth + 1) w.current.levels :=
          Nat.add_le_add_left (Nat.mul_le_mul_left _ hlt) _
      _ < 2 ^ 64 := hnumbers

/-- Removing the inputs has no limit. -/
theorem all_unlinkInputs (files : List FileMeta) : (DB.unlinkInputs files).All Call.Unlimited := by
  induction files with
  | nil => trivial
  | cons f files ih => exact ⟨trivial, fun _ => ih⟩

/-- The installation is within the limits if the new version fits the manifest. -/
theorem within_installOutputs {pol : Policy} (hfits : (installCompaction w.current c outs).Fits) :
    (DB.installOutputs c outs).run.Within (exec .background) pol.Chooses pol.Allows
      (fun _ w' => w'.nextFileNumber = w.nextFileNumber) w := by
  apply within_withLock
  -- the version is loaded and stored
  intro ch v w₁ hok hexec
  cases hexec
  refine ⟨⟨trivial, hok⟩, ?_⟩
  intro ch u w₂ hok hexec
  cases hexec
  refine ⟨⟨hfits, hok⟩, ?_⟩
  have hrest : (DB.writeManifest (installCompaction w.current c outs) >>= fun _ =>
      liftM (DB.unlinkInputs c.inputs) : DBE Unit).run.All Call.Unlimited := by
    refine All.bindE ((all_writeManifest _).mono fun _ hc => hc.unlimited) fun _ => ?_
    exact (all_unlinkInputs c.inputs).bind fun _ => trivial
  exact within_unlimited hrest _

/-- Without failures, no limit of the formats is in the way of a compaction. -/
theorem within_doCompaction (hi : Inv g w) (ha : Alone .faultless x g w) (hfree : w.mutex = none)
    (hpick : pickCompaction cfg.options w.current = some (some c)) (hroom : Drainable cfg w)
    (hdepth : cfg.options.depth < 2 ^ 31) :
    (DB.doCompaction cfg c).run.Within (exec .background) Policy.faultless.Chooses
      Policy.faultless.Allows
      (ending (fun _ w' => w'.nextFileNumber ≤ w.nextFileNumber + c.records.length) fun _ _ => True)
      w := by
  have hp := picked_of_pickCompaction hi.layout hpick
  have hlevel := sourceLevel_le_depth hpick
  have hfit := hp.recordsFit hi.layout hroom.records
  -- the weight is at least one while there is something to pick
  have hnext : w.nextFileNumber + c.records.length < 2 ^ 64 := by
    have hweight := hp.weight_pos hi.layout (Nat.lt_succ_of_le hlevel)
    refine lt_of_le_of_lt (Nat.add_le_add_left (hp.length_records_le hi.layout) _) ?_
    exact (Nat.add_le_add_left (Nat.le_mul_of_pos_right _ hweight) _).trans_lt hroom.numbers
  have hpre : w.mutex ≠ some .background := by
    rw [hfree]
    decide
  -- the outputs that the merge gets to
  have hmade (r : Except Status (List FileMeta)) (w₁ : World)
      (hrun : Runs (exec .background) Policy.faultless.Allows (DB.mergeInputs cfg c).run w r w₁) :
      ∀ outs, r = .ok outs → w₁.current = w.current ∧ Outputs c w.current outs := by
    rintro outs rfl
    obtain ⟨g₁, hi₁, ha₁, houts, -, hfiles, hwatch⟩ := ha.runs hi
      (tripleE_mergeInputs cfg (hp.wf_inputs hi.layout) (S := Watching w.current g.session.flushes c)
        stable_watching undisturbed_watching) ⟨hpre, hi.watching hp⟩ hrun
    rw [ha.session] at hwatch
    have hcurrent := ha₁.current_eq hwatch.since
    exact ⟨hcurrent, hcurrent ▸ houts.outputs hi₁ hfiles⟩
  rw [doCompaction_eq]
  refine within_bindE.mpr (((within_mergeInputs (hp.wf_inputs hi.layout) hfit hnext).and_runs
    hmade).mono fun r w₁ hr => ?_)
  cases r with
  | error e => trivial
  | ok outs =>
    obtain ⟨hnumber, houts⟩ := hr
    obtain ⟨hcurrent, ho⟩ := houts outs rfl
    have hfits := fits_install hp hi.layout ho hi.fits hroom.count (by omega)
    refine (within_installOutputs (hcurrent ▸ hfits)).mono fun r w₂ hr => ?_
    cases r with
    | error e => trivial
    | ok u =>
      have hnumber₂ : w₂.nextFileNumber = w₁.nextFileNumber := hr
      exact hnumber₂.trans_le hnumber

end Turn

/-! ## The runs of compactions -/

/-- Compactions that run one after the other as long as one is needed, without other threads and
    without failures. -/
inductive Drain (cfg : Config) : World → Nat → World → Prop
  | done (w : World) : Drain cfg w 0 w
  | turn {w w' w'' : World} {c : Compaction} {r : Except Status Unit} {n : Nat}
    (hneeds : needsCompaction cfg.options w.current = true)
    (hpick : pickCompaction cfg.options w.current = some (some c))
    (hrun : Runs (exec .background) Policy.faultless.Chooses (DB.doCompaction cfg c).run w r w')
    (hrest : Drain cfg w' n w'') : Drain cfg w (n + 1) w''

/-- A state between two compactions. -/
structure Draining (cfg : Config) (x : Session) (w : World) : Prop where
  inv : ∃ g, Inv g w ∧ Alone .faultless x g w
  free : w.mutex = none
  room : Drainable cfg w

section Runs

variable {cfg : Config} {x : Session} {w w' : World} {n : Nat}

/-- A compaction does not get stuck, and when it returns it has taken weight off. -/
theorem Draining.turn (h : Draining cfg x w) (hdepth : cfg.options.depth < 2 ^ 31)
    (hpick : pickCompaction cfg.options w.current = some (some c)) :
    (DB.doCompaction cfg c).run.Live (exec .background) .ok Policy.faultless.Chooses w ∧
      ∀ r w', Runs (exec .background) Policy.faultless.Chooses (DB.doCompaction cfg c).run w r w' →
        r = .ok () ∧ Draining cfg x w' ∧
          weight (cfg.options.depth + 1) w'.current.levels <
            weight (cfg.options.depth + 1) w.current.levels := by
  obtain ⟨⟨g, hi, ha⟩, hfree, hroom⟩ := h
  have hp := picked_of_pickCompaction hi.layout hpick
  have hlevel := sourceLevel_le_depth hpick
  have hwithin := within_doCompaction hi ha hfree hpick hroom hdepth
  obtain ⟨hlive, hruns⟩ := doCompaction_alone hi ha hfree hpick
  refine ⟨hwithin.live hlive, fun r w' hrun => ?_⟩
  obtain ⟨hrun, hnext⟩ := hwithin.runs hrun
  obtain ⟨rfl, g', outs, hi', ha', hfree', ho, hcurrent⟩ := hruns r w' hrun
  refine ⟨rfl, ⟨⟨g', hi', ha'⟩, hfree', hroom.install hp hi.layout ho hlevel hcurrent hnext⟩, ?_⟩
  rw [hcurrent]
  exact weight_install_lt hp hi.layout ho (Nat.lt_succ_of_le hlevel)

/-- Every compaction of a run takes weight off. -/
theorem Draining.run (h : Draining cfg x w) (hdepth : cfg.options.depth < 2 ^ 31)
    (hdrain : Drain cfg w n w') :
    Draining cfg x w' ∧ n + weight (cfg.options.depth + 1) w'.current.levels ≤
      weight (cfg.options.depth + 1) w.current.levels := by
  induction hdrain with
  | done w => exact ⟨h, by omega⟩
  | turn hneeds hpick hrun _ ih =>
    obtain ⟨-, h₁, hlt⟩ := (h.turn hdepth hpick).2 _ _ hrun
    obtain ⟨h₂, hle⟩ := ih h₁
    exact ⟨h₂, by omega⟩

/-- A compaction that is needed is picked, runs to its end and returns `OK`. -/
private theorem Draining.exists_turn (h : Draining cfg x w) (hdepth : cfg.options.depth < 2 ^ 31)
    (htrigger : 1 ≤ cfg.options.l0CompactionTrigger)
    (hneeds : needsCompaction cfg.options w.current = true) :
    ∃ c w', pickCompaction cfg.options w.current = some (some c) ∧
      Runs (exec .background) Policy.faultless.Chooses (DB.doCompaction cfg c).run w (.ok ()) w' := by
  obtain ⟨pick, hpick⟩ := pickCompaction_isSome htrigger w.current
  cases pick with
  | none => exact absurd hpick (pickCompaction_of_needsCompaction hneeds)
  | some c =>
    obtain ⟨hlive, hruns⟩ := h.turn hdepth hpick
    obtain ⟨r, w', hrun⟩ := hlive.exists_run Policy.faultless.chooses_ok
    obtain ⟨rfl, -⟩ := hruns r w' hrun
    exact ⟨c, w', hpick, hrun⟩

/-- The compactions come to an end. -/
private theorem Draining.exists_drained (h : Draining cfg x w) (hdepth : cfg.options.depth < 2 ^ 31)
    (htrigger : 1 ≤ cfg.options.l0CompactionTrigger) :
    ∃ n w', Drain cfg w n w' ∧ needsCompaction cfg.options w'.current = false := by
  -- by induction on the weight that is left
  induction hweight : weight (cfg.options.depth + 1) w.current.levels using Nat.strong_induction_on
    generalizing w with
  | _ weight ih =>
    cases hneeds : needsCompaction cfg.options w.current with
    | false => exact ⟨0, w, .done w, hneeds⟩
    | true =>
      obtain ⟨c, w₁, hpick, hrun⟩ := h.exists_turn hdepth htrigger hneeds
      obtain ⟨-, h₁, hlt⟩ := (h.turn hdepth hpick).2 _ _ hrun
      obtain ⟨n, w', hdrain, hdone⟩ := ih _ (hweight ▸ hlt) h₁ rfl
      exact ⟨n + 1, w', .turn hneeds hpick hrun hdrain, hdone⟩

end Runs

/-- Compactions without failures, one after the other. -/
def DB.compactTimes (cfg : Config) : Nat → World → Option World
  | 0, w => some w
  | n + 1, w =>
    if needsCompaction cfg.options w.current then do
      let (_, w) ← DB.compactWith .faultless (DB.doCompaction cfg) cfg.options
        (List.replicate 100 .ok) w
      DB.compactTimes cfg n w
    else none

/-- The evaluator follows a drain. -/
private theorem drain_of_compactTimes {cfg : Config} {n : Nat} {w w' : World}
    (h : DB.compactTimes cfg n w = some w') : Drain cfg w n w' := by
  induction n generalizing w with
  | zero =>
    cases h
    exact .done _
  | succ n ih =>
    rw [DB.compactTimes] at h
    split at h
    next hneeds =>
      -- the evaluation of a turn is one of its runs
      obtain ⟨⟨r, w₁⟩, hcompact, hrest⟩ := Option.bind_eq_some_iff.mp h
      obtain ⟨c, hpick, hrun⟩ := runs_of_compactWith hcompact
      exact .turn hneeds hpick (hrun.mono fun _ _ _ hok => hok.2) (ih hrest)
    next => cases h

/-- What a process was opened with. -/
def Process.config (default : Config) : Process → Config
  | up cfg _ _ => cfg
  | down | opening _ _ => default

/-- The parts of an open database. -/
private theorem Process.IsUp.eq_up {p : Process} (h : p.IsUp) (default : Config) :
    ∃ client bg, p = .up (p.config default) client bg := by
  cases p with
  | down | opening => exact h.elim
  | up cfg client bg => exact ⟨client, bg, rfl⟩

/-- A database with three levels, of which the second one has no budget. -/
def deepeningConfig : Config :=
  { exampleConfig with
    options := { bloomBitsPerKey := 1, l0CompactionTrigger := 1, targetFileSize := 0
                 l1TargetBytes := 0, maxLevels := 3 } }

/-- It has flushed two tables, of two records each. -/
def deepening : System :=
  Policy.any.reach (Event.opening deepeningConfig 8 ++ Event.calling (.put [1] [2]) 5 ++
    Event.calling (.put [2] [3]) 5 ++ Event.calling .flush 27 ++ Event.calling (.delete [1]) 5 ++
    Event.calling (.put [3] [4]) 5 ++ Event.calling .flush 27)

end Lsmdb
