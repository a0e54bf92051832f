import Lsmdb.Spec.Pick

/-!
# Keeping the level layout

A flush keeps the layout of the levels (`Layout.pushL0`), and so does the installation
of a compaction, also in a version to which flushes have added L0 files since the
compaction was picked (`Site.layout_install`). Neither changes the store that the
tables stand for (`Site.liveIn_install`).
-/

namespace Lsmdb

open SortedMap

variable {v u : Version} {c : Compaction} {options : Options}

/-! ## The installation -/

/-- The records that a compaction writes. -/
def compacted (c : Compaction) : List Entry :=
  ((merge Entry.key (c.inputs.map (·.entries))).map Entry.normal).filter fun e =>
    !(c.bottommost && e.isTombstone)

/-- The outputs of a compaction: tables that hold its records between them, under numbers that
    are new in the version. -/
structure Outputs (c : Compaction) (u : Version) (outs : List FileMeta) : Prop where
  wf : ∀ o ∈ outs, o.Wf
  entries : outs.flatMap (·.entries) = compacted c
  nodup : (outs.map (·.number)).Nodup
  fresh : ∀ o ∈ outs, ∀ f ∈ u.files, o.number ≠ f.number

/-- The records of the outputs are in ascending order. -/
theorem sorted_compacted (c : Compaction) : Sorted Entry.key (compacted c) := by
  have hmerge : Sorted Entry.key (merge Entry.key (c.inputs.map (·.entries))) := sorted_merge _
  have hnormal : Sorted Entry.key
      ((merge Entry.key (c.inputs.map (·.entries))).map Entry.normal) :=
    List.pairwise_map.mpr hmerge
  exact hnormal.sublist List.filter_sublist

/-- A key that is written comes from an input. -/
private theorem exists_input_of_compacted {e : Entry} (he : e ∈ compacted c) :
    ∃ f ∈ c.inputs, ∃ e' ∈ f.entries, e'.key = e.key := by
  obtain ⟨he, -⟩ := List.mem_filter.mp he
  obtain ⟨e', he', rfl⟩ := List.mem_map.mp he
  have hmerge : Sorted Entry.key (merge Entry.key (c.inputs.map (·.entries))) := sorted_merge _
  have hfind := hmerge.find_eq_some_iff.mpr ⟨he', rfl⟩
  rw [find_merge] at hfind
  obtain ⟨t, ht, hte⟩ := List.exists_of_findSome?_eq_some hfind
  obtain ⟨f, hf, rfl⟩ := List.mem_map.mp ht
  exact ⟨f, hf, e', (find_some hte).1, rfl⟩

/-- What a lookup finds in the records that a compaction writes. -/
theorem find_compacted (k : Bytes) : find Entry.key k (compacted c) =
    ((newestOf c.inputs k).map Entry.normal).filter fun e => !(c.bottommost && e.isTombstone) := by
  have hmerge : Sorted Entry.key (merge Entry.key (c.inputs.map (·.entries))) := sorted_merge _
  have hsorted := sorted_compacted c
  rw [newestOf, ← newest_merge]
  apply Option.ext
  intro e
  rw [hsorted.find_eq_some_iff, compacted, List.mem_filter, List.mem_map,
    Option.filter_eq_some_iff, Option.map_eq_some_iff]
  -- a record of the output is the newest one of its key unless it was dropped
  constructor
  · rintro ⟨⟨⟨e', he', rfl⟩, hp⟩, hk⟩
    exact ⟨⟨e', hmerge.find_eq_some_iff.mpr ⟨he', hk⟩, rfl⟩, hp⟩
  · rintro ⟨⟨e', he', rfl⟩, hp⟩
    obtain ⟨hmem, hk⟩ := find_some he'
    exact ⟨⟨⟨e', hmem, rfl⟩, hp⟩, hk⟩

/-- Tables whose records are in order one behind the other do not overlap. -/
theorem before_of_sorted {outs : List FileMeta} (hwf : ∀ o ∈ outs, o.Wf)
    (hs : Sorted Entry.key (outs.flatMap (·.entries))) : outs.Pairwise FileMeta.Before := by
  induction outs with
  | nil => exact .nil
  | cons o outs ih =>
    rw [List.flatMap_cons, sorted_append] at hs
    refine .cons ?_ (ih (fun o ho => hwf o (List.mem_cons_of_mem _ ho)) hs.2.1)
    intro p hp
    obtain ⟨a, ha, hak⟩ := (hwf o List.mem_cons_self).exists_largest
    obtain ⟨b, hb, hbk⟩ := (hwf p (List.mem_cons_of_mem _ hp)).exists_smallest
    rw [FileMeta.Before, ← hak, ← hbk]
    exact hs.2.2 a ha b (List.mem_flatMap.mpr ⟨p, hp, hb⟩)

/-- The outputs of a compaction do not overlap. -/
theorem Outputs.before {outs : List FileMeta} (h : Outputs c u outs) :
    outs.Pairwise FileMeta.Before :=
  before_of_sorted h.wf (h.entries ▸ sorted_compacted c)

/-- Looking into one file after the other is looking into all of their records. -/
private theorem newestOf_eq_find (files : List FileMeta) (k : Bytes) :
    newestOf files k = find Entry.key k (files.flatMap (·.entries)) := by
  induction files with
  | nil => rfl
  | cons f files ih => rw [newestOf_cons, List.flatMap_cons, find_append, ih]

/-- The version a compaction is installed in: since the pick, flushes may have added L0 files. -/
def Grown (v u : Version) : Prop := ∃ files : List FileMeta, u = files.foldl DB.pushL0 v

/-- A version that has grown has more files at the end of level 0, and the same deeper levels. -/
theorem Grown.levels (h : Grown v u) (hv : v.levels ≠ []) :
    ∃ l0 new deeper, v.levels = l0 :: deeper ∧ u.levels = (l0 ++ new) :: deeper := by
  obtain ⟨files, rfl⟩ := h
  induction files generalizing v with
  | nil =>
    obtain ⟨l0, deeper, hlevels⟩ := List.exists_cons_of_ne_nil hv
    exact ⟨l0, [], deeper, hlevels, by simp [hlevels]⟩
  | cons f files ih =>
    obtain ⟨l0, deeper, hlevels⟩ := List.exists_cons_of_ne_nil hv
    -- a flush appends to L0 and leaves the deeper levels alone
    have hpush : (DB.pushL0 v f).levels = (l0 ++ [f]) :: deeper := by rw [DB.pushL0, hlevels]
    obtain ⟨l0', new, deeper', hv', hu'⟩ := @ih (DB.pushL0 v f) (by simp [hpush])
    rw [hpush] at hv'
    cases hv'
    exact ⟨l0, f :: new, deeper, hlevels, by rw [List.foldl_cons, hu']; simp⟩

/-- The levels, grown to hold the source and the target, split around the two. -/
theorem pad_eq {levels : List (List FileMeta)} {i : Nat} (h : i < levels.length) :
    levels ++ List.replicate (i + 2 - levels.length) [] =
      levels.take i ++ levels.getD i [] :: levels.getD (i + 1) [] :: levels.drop (i + 2) := by
  induction i generalizing levels with
  | zero =>
    -- the level below may be missing
    rcases levels with _ | ⟨a, _ | ⟨b, levels⟩⟩
    · simp at h
    · rfl
    · simp
  | succ i ih =>
    rcases levels with _ | ⟨a, levels⟩
    · simp at h
    · have hsub : i + 1 + 2 - (a :: levels).length = i + 2 - levels.length := by
        rw [List.length_cons]
        omega
      have hih := @ih levels (by simpa using h)
      rw [hsub, List.cons_append, hih]
      rfl

/-- Changing the element behind a known start. -/
private theorem modify_append_cons {α : Type} (pre : List α) (x : α) (post : List α) (f : α → α) :
    (pre ++ x :: post).modify pre.length f = pre ++ f x :: post := by
  induction pre with
  | nil => rfl
  | cons a pre ih => exact congrArg (a :: ·) ih

/-- The levels after an installation. -/
theorem levels_install (outs : List FileMeta) (htarget : c.targetLevel = c.sourceLevel + 1)
    (hlt : c.sourceLevel < u.levels.length) :
    (installCompaction u c outs).levels =
      u.levels.take c.sourceLevel ++ strip c (u.level c.sourceLevel) ::
        ((strip c (u.level c.targetLevel) ++ outs).insertionSort fun a b => a.smallest ≤ b.smallest) ::
          u.levels.drop (c.sourceLevel + 2) := by
  have hneed : max c.sourceLevel c.targetLevel + 1 = c.sourceLevel + 2 := by omega
  have hlen : (u.levels.take c.sourceLevel).length = c.sourceLevel :=
    List.length_take_of_le hlt.le
  -- the two levels that are changed, behind the untouched ones
  have hstep (x y : List FileMeta) (f : List FileMeta → List FileMeta) :
      (u.levels.take c.sourceLevel ++ x :: y :: u.levels.drop (c.sourceLevel + 2)).modify
          c.targetLevel f =
        u.levels.take c.sourceLevel ++ x :: f y :: u.levels.drop (c.sourceLevel + 2) := by
    have := modify_append_cons (u.levels.take c.sourceLevel ++ [x]) y
      (u.levels.drop (c.sourceLevel + 2)) f
    rw [List.length_append, hlen, List.length_singleton, ← htarget] at this
    simpa using this
  have hsource (x y : List FileMeta) (f : List FileMeta → List FileMeta) :
      (u.levels.take c.sourceLevel ++ x :: y :: u.levels.drop (c.sourceLevel + 2)).modify
          c.sourceLevel f =
        u.levels.take c.sourceLevel ++ f x :: y :: u.levels.drop (c.sourceLevel + 2) := by
    have := modify_append_cons (u.levels.take c.sourceLevel) x
      (y :: u.levels.drop (c.sourceLevel + 2)) f
    rwa [hlen] at this
  rw [installCompaction]
  simp only [hneed, pad_eq hlt, hsource, hstep, if_pos (show c.targetLevel ≥ 1 by omega)]
  rw [Version.level, Version.level, htarget]

/-! ### Where a compaction takes place -/

/-- L0 is searched from the back. -/
def inOrder (i : Nat) (files : List FileMeta) : List FileMeta := if i = 0 then files.reverse else files

/-- What the installation of a compaction rests on, in the version it is installed in. -/
structure Site (u : Version) (c : Compaction) (chosen : List FileMeta) (lo hi : Bytes) : Prop where
  target_eq : c.targetLevel = c.sourceLevel + 1
  source_lt : c.sourceLevel < u.levels.length
  inputs_eq : c.inputs = chosen ++ overlapping (u.level c.targetLevel) lo hi
  chosen_sub : ∀ f ∈ chosen, f ∈ u.level c.sourceLevel
  range : ∀ f ∈ chosen, lo ≤ f.smallest ∧ f.largest ≤ hi
  lookup : ∀ k, newestOf (inOrder c.sourceLevel (u.level c.sourceLevel)) k =
    (newestOf (inOrder c.sourceLevel (strip c (u.level c.sourceLevel))) k).or (newestOf chosen k)
  bottom : c.bottommost = true → ∀ files ∈ u.levels.drop (c.sourceLevel + 2), files = []

/-- What `InstallCompaction` keeps of a level. -/
theorem mem_strip {files : List FileMeta} {f : FileMeta} :
    f ∈ strip c files ↔ f ∈ files ∧ ∀ x ∈ c.inputs, x.number ≠ f.number := by
  simp [strip]

/-- The files of a level are files of the version. -/
theorem mem_files_of_level {i : Nat} {f : FileMeta} (h : f ∈ u.level i) : f ∈ u.files := by
  rw [Version.level, List.getD_eq_getElem?_getD] at h
  cases hi : u.levels[i]? with
  | none => simp [hi] at h
  | some files =>
    rw [hi] at h
    exact List.mem_flatten.mpr ⟨files, List.mem_of_getElem? hi, h⟩

/-- Files of one number are the same file. -/
private theorem Layout.eq_of_number (hu : Layout u) {f g : FileMeta} (hf : f ∈ u.files) (hg : g ∈ u.files)
    (h : f.number = g.number) : f = g :=
  List.inj_on_of_nodup_map hu.nodup hf hg h

/-- Files of different levels have different numbers. -/
theorem Layout.number_ne (hu : Layout u) {i j : Nat} (hij : i ≠ j) {f g : FileMeta}
    (hf : f ∈ u.level i) (hg : g ∈ u.level j) : f.number ≠ g.number := by
  -- the numbers are distinct over all levels
  have hpair : u.levels.Pairwise fun a b => ∀ x ∈ a, ∀ y ∈ b, x.number ≠ y.number := by
    have hnodup := List.pairwise_map.mp hu.nodup
    exact (List.pairwise_flatten.mp hnodup).2
  have hget {n : Nat} {x : FileMeta} (hx : x ∈ u.level n) :
      ∃ h : n < u.levels.length, x ∈ u.levels[n] := by
    rw [Version.level, List.getD_eq_getElem?_getD] at hx
    by_cases hn : n < u.levels.length
    · exact ⟨hn, by simpa [hn] using hx⟩
    · simp [hn] at hx
  obtain ⟨hi, hf⟩ := hget hf
  obtain ⟨hj, hg⟩ := hget hg
  rw [List.pairwise_iff_getElem] at hpair
  rcases Nat.lt_or_gt_of_ne hij with hlt | hlt
  · exact hpair i j hi hj hlt f hf g hg
  · exact (hpair j i hj hi hlt g hg f hf).symm

/-- Below level 0 the files of a level follow each other. -/
theorem Layout.deep_level (hu : Layout u) {i : Nat} (hi : 1 ≤ i) :
    (u.level i).Pairwise FileMeta.Before := by
  rw [Version.level, List.getD_eq_getElem?_getD]
  cases hget : u.levels[i]? with
  | none => exact .nil
  | some files =>
    apply hu.deep
    obtain ⟨l0, deeper, hlevels⟩ := List.exists_cons_of_ne_nil hu.ne_nil
    obtain ⟨j, rfl⟩ : ∃ j, i = j + 1 := ⟨i - 1, by omega⟩
    rw [hlevels, List.getElem?_cons_succ] at hget
    rw [hlevels]
    exact List.mem_of_getElem? hget

/-- The files of a level are tables. -/
theorem Layout.wf_level (hu : Layout u) {i : Nat} {f : FileMeta} (hf : f ∈ u.level i) : f.Wf :=
  hu.wf f (mem_files_of_level hf)

/-- `bottommost` means that all deeper levels are empty. -/
private theorem noDataBelow_iff {i : Nat} :
    noDataBelow v i = true ↔ ∀ files ∈ v.levels.drop (i + 1), files = [] := by
  simp [noDataBelow]

/-- Inputs go and other files stay. -/
private theorem strip_append_eq {gone stay : List FileMeta} (hgone : ∀ f ∈ gone, f ∈ c.inputs)
    (hstay : ∀ f ∈ stay, ∀ x ∈ c.inputs, x.number ≠ f.number) :
    strip c (gone ++ stay) = stay := by
  have hnone : strip c gone = [] := by
    rw [List.eq_nil_iff_forall_not_mem]
    intro f hf
    obtain ⟨hmem, hne⟩ := mem_strip.mp hf
    exact hne f (hgone f hmem) rfl
  have hall : strip c stay = stay := by
    rw [strip, List.filter_eq_self]
    intro f hf
    simpa using hstay f hf
  rw [strip, List.filter_append, ← strip, ← strip, hnone, hall, List.nil_append]

/-- A lookup in L0, if the inputs are the files that were there at the pick. Those that have been
    added since are newer. -/
private theorem newestOf_strip_l0 (hu : Layout u) {l0 new : List FileMeta} (hl0 : u.level 0 = l0 ++ new)
    {lo hi : Bytes} (hinputs : c.inputs = l0.reverse ++ overlapping (u.level 1) lo hi) (k : Bytes) :
    newestOf (u.level 0).reverse k =
      (newestOf (strip c (u.level 0)).reverse k).or (newestOf l0.reverse k) := by
  -- the files picked from level 0 are gone, and those flushed since stay
  have hgone : ∀ f ∈ l0, f ∈ c.inputs := by
    intro f hf
    rw [hinputs]
    exact List.mem_append_left _ (List.mem_reverse.mpr hf)
  have hstay : ∀ f ∈ new, ∀ x ∈ c.inputs, x.number ≠ f.number := by
    intro f hf x hx
    have hf' : f ∈ u.level 0 := hl0 ▸ List.mem_append_right _ hf
    rw [hinputs] at hx
    rcases List.mem_append.mp hx with hx | hx
    · have hnumbers := hu.l0_pairwise
      rw [hl0, List.pairwise_append] at hnumbers
      exact (hnumbers.2.2 x (List.mem_reverse.mp hx) f hf).ne
    · exact hu.number_ne (by decide) (List.mem_filter.mp hx).1 hf'
  rw [hl0, strip_append_eq hgone hstay, List.reverse_append, newestOf_append]

/-- A lookup in a deeper level, if the input is its first file. The files of the level have no key
    in common. -/
private theorem newestOf_strip_deep (hu : Layout u) {i : Nat} (hi : 1 ≤ i) {chosen : FileMeta}
    {rest : List FileMeta} (hlevel : u.level i = chosen :: rest) {lo hi' : Bytes}
    (hinputs : c.inputs = chosen :: overlapping (u.level (i + 1)) lo hi') (k : Bytes) :
    newestOf (u.level i) k = (newestOf (strip c (u.level i)) k).or (newestOf [chosen] k) := by
  have hbefore := hu.deep_level hi
  have hdisj : KeyDisjoint (u.level i) :=
    keyDisjoint_of_before (fun f hf => hu.wf_level hf) hbefore
  have hgone : ∀ f ∈ [chosen], f ∈ c.inputs := by
    rw [hinputs]
    exact List.forall_mem_singleton.mpr List.mem_cons_self
  have hstay : ∀ f ∈ rest, ∀ x ∈ c.inputs, x.number ≠ f.number := by
    intro f hf x hx
    have hf' : f ∈ u.level i := hlevel ▸ List.mem_cons_of_mem _ hf
    rw [hinputs] at hx
    rcases List.mem_cons.mp hx with rfl | hx
    · -- the chosen file ends before the others begin, so it is none of them
      intro heq
      have hx' : x ∈ u.level i := hlevel ▸ List.mem_cons_self
      have hxf := hu.eq_of_number (mem_files_of_level hx') (mem_files_of_level hf') heq
      rw [hlevel, hxf, List.pairwise_cons] at hbefore
      exact absurd (hbefore.1 f hf) (hu.wf_level hf').smallest_le_largest.not_gt
    · exact hu.number_ne (by omega) (List.mem_filter.mp hx).1 hf'
  have hstrip : strip c (chosen :: rest) = rest := strip_append_eq hgone hstay
  rw [hlevel] at hdisj ⊢
  rw [hstrip, ← newestOf_append]
  exact hdisj.newestOf_eq (hdisj.perm (List.perm_append_singleton chosen rest).symm)
    fun f => by simp [or_comm]

/-- A picked compaction has a place in every version that the picked one has grown to. -/
theorem Picked.site (hp : Picked v c) (hv : v.levels ≠ []) (hu : Layout u) (hgrown : Grown v u) :
    ∃ chosen lo hi, Site u c chosen lo hi := by
  -- the versions differ in L0 only, where `u` has files behind those of `v`
  obtain ⟨l0, new, deeper, hv, hul⟩ := hgrown.levels hv
  have hsame (i : Nat) : u.level (i + 1) = v.level (i + 1) := by
    simp [Version.level, hv, hul]
  have hv0 : v.level 0 = l0 := by simp [Version.level, hv]
  have hu0 : u.level 0 = l0 ++ new := by simp [Version.level, hul]
  have hbottom (i : Nat) (hb : noDataBelow v (i + 1) = true) :
      ∀ files ∈ u.levels.drop (i + 2), files = [] := by
    have hb' := noDataBelow_iff.mp hb
    rw [hv, List.drop_succ_cons] at hb'
    rw [hul, List.drop_succ_cons]
    exact hb'
  cases hp with
  | l0 lo hi hne hrange =>
    refine ⟨(v.level 0).reverse, lo, hi, rfl, by simp [hul], by rw [hsame], ?_, ?_, ?_, hbottom 0⟩
    · intro f hf
      rw [hv0, List.mem_reverse] at hf
      rw [hu0]
      exact List.mem_append_left _ hf
    · exact fun f hf => hrange f (List.mem_reverse.mp hf)
    · intro k
      rw [hv0]
      exact newestOf_strip_l0 hu hu0 (by rw [hsame]) k
  | deep i chosen rest hi hlevel =>
    obtain ⟨j, rfl⟩ : ∃ j, i = j + 1 := ⟨i - 1, by omega⟩
    rw [← hsame j] at hlevel
    have hlt : j + 1 < u.levels.length := by
      by_contra hge
      rw [Version.level, List.getD_eq_default _ _ (by omega)] at hlevel
      cases hlevel
    refine ⟨[chosen], chosen.smallest, chosen.largest, rfl, hlt, by rw [hsame]; rfl, ?_, ?_, ?_,
      hbottom (j + 1)⟩
    · intro f hf
      rw [List.mem_singleton.mp hf, hlevel]
      exact List.mem_cons_self
    · intro f hf
      rw [List.mem_singleton.mp hf]
      exact ⟨le_rfl, le_rfl⟩
    · exact newestOf_strip_deep hu (by omega) hlevel (by rw [hsame])

/-! ### The layout after an installation -/

/-- The files of a version, level by level around a compaction. -/
theorem files_eq {i : Nat} (h : i < u.levels.length) :
    u.files = (u.levels.take i).flatten ++
      (u.level i ++ (u.level (i + 1) ++ (u.levels.drop (i + 2)).flatten)) := by
  have hflat := congrArg List.flatten (pad_eq h)
  rw [List.flatten_append, List.flatten_replicate_nil, List.append_nil] at hflat
  rw [Version.files, hflat]
  simp [Version.level]

variable {chosen outs : List FileMeta} {lo hi : Bytes}

/-- The inputs are files of the version. -/
theorem Site.mem_inputs (hs : Site u c chosen lo hi) {f : FileMeta} (hf : f ∈ c.inputs) :
    f ∈ u.files := by
  rw [hs.inputs_eq] at hf
  rcases List.mem_append.mp hf with hf | hf
  · exact mem_files_of_level (hs.chosen_sub f hf)
  · exact mem_files_of_level (List.mem_filter.mp hf).1

/-- Of the target level the files stay that the range of the compaction does not meet. -/
private theorem Site.strip_target (hs : Site u c chosen lo hi) (hu : Layout u) :
    strip c (u.level c.targetLevel) =
      (u.level c.targetLevel).filter fun f => !overlaps f.smallest f.largest lo hi := by
  apply List.filter_congr
  intro f hf
  cases hover : overlaps f.smallest f.largest lo hi with
  -- an overlapping file is an input
  | true =>
    have hmem : f ∈ c.inputs := by
      rw [hs.inputs_eq]
      exact List.mem_append_right _ (List.mem_filter.mpr ⟨hf, hover⟩)
    simpa using ⟨f, hmem, rfl⟩
  | false =>
    -- another file is none: the chosen ones are on another level
    have hne : ∀ x ∈ c.inputs, x.number ≠ f.number := by
      intro x hx hnum
      rw [hs.inputs_eq] at hx
      rcases List.mem_append.mp hx with hx | hx
      · apply hu.number_ne _ (hs.chosen_sub x hx) hf hnum
        rw [hs.target_eq]
        omega
      · obtain ⟨hx, hxover⟩ := List.mem_filter.mp hx
        rw [hu.eq_of_number (mem_files_of_level hx) (mem_files_of_level hf) hnum, hover] at hxover
        cases hxover
    simpa using hne

/-- An output and a file of the target level that stays are apart. -/
private theorem Site.outputs_apart (hs : Site u c chosen lo hi) (hu : Layout u)
    (ho : Outputs c u outs) {o g : FileMeta} (hmem : o ∈ outs)
    (hg : g ∈ strip c (u.level c.targetLevel)) : o.Before g ∨ g.Before o := by
  rw [hs.strip_target hu, List.mem_filter, Bool.not_eq_true', ← Bool.not_eq_true] at hg
  obtain ⟨hg, hnot⟩ := hg
  -- every record of an output comes from an input
  have hinput {e : Entry} (he : e ∈ o.entries) :
      ∃ f ∈ c.inputs, f.smallest ≤ e.key ∧ e.key ≤ f.largest := by
    have he' : e ∈ compacted c := by
      rw [← ho.entries]
      exact List.mem_flatMap.mpr ⟨o, hmem, he⟩
    obtain ⟨f, hf, e', he'', hkey⟩ := exists_input_of_compacted he'
    have hwf := hu.wf f (hs.mem_inputs hf)
    rw [← hkey]
    exact ⟨f, hf, hwf.smallest_le he'', hwf.le_largest he''⟩
  -- so the smallest and the largest key of the output do
  obtain ⟨e₁, he₁, hsmallest⟩ := (ho.wf o hmem).exists_smallest
  obtain ⟨e₂, he₂, hlargest⟩ := (ho.wf o hmem).exists_largest
  obtain ⟨f₁, hf₁, hle₁, -⟩ := hinput he₁
  obtain ⟨f₂, hf₂, -, hle₂⟩ := hinput he₂
  rw [hs.inputs_eq] at hf₁ hf₂
  have htarget : 1 ≤ c.targetLevel := by
    rw [hs.target_eq]
    omega
  exact apart_of_not_overlapping (fun f hf => hu.wf_level hf) hs.range (hu.deep_level htarget) hg hnot
    ⟨f₁, hf₁, by rwa [hsmallest] at hle₁⟩ ⟨f₂, hf₂, by rwa [hlargest] at hle₂⟩

/-- Sorting files that are apart by their smallest keys gives a run. -/
private theorem before_insertionSort {files : List FileMeta} (hwf : ∀ f ∈ files, f.Wf)
    (h : files.Pairwise fun f g => f.Before g ∨ g.Before f) :
    (files.insertionSort fun a b => a.smallest ≤ b.smallest).Pairwise FileMeta.Before := by
  have hsort := List.pairwise_insertionSort (fun a b : FileMeta => a.smallest ≤ b.smallest) files
  have hapart := (List.perm_insertionSort (fun a b : FileMeta => a.smallest ≤ b.smallest)
    files).symm.pairwise h fun hfg => hfg.symm
  apply List.Pairwise.imp_of_mem _ (hsort.and hapart)
  intro f g hf hg hfg
  cases hfg.2 with
  | inl hbefore => exact hbefore
  | inr hbefore =>
    -- two files that are apart do not start in one order and end in the other
    have hg' := (hwf g ((List.mem_insertionSort _).mp hg)).smallest_le_largest
    exact absurd hbefore ((hfg.1.trans hg').not_gt)

/-- The target level after the installation is a run. -/
private theorem Site.before_target (hs : Site u c chosen lo hi) (hu : Layout u)
    (ho : Outputs c u outs) :
    ((strip c (u.level c.targetLevel) ++ outs).insertionSort
      fun a b => a.smallest ≤ b.smallest).Pairwise FileMeta.Before := by
  apply before_insertionSort
  · intro f hf
    rcases List.mem_append.mp hf with hf | hf
    · exact hu.wf_level (mem_strip.mp hf).1
    · exact ho.wf f hf
  · have hdeep := hu.deep_level (show 1 ≤ c.targetLevel by rw [hs.target_eq]; omega)
    apply List.pairwise_append.mpr
    refine ⟨(hdeep.sublist List.filter_sublist).imp .inl, ho.before.imp .inl, ?_⟩
    exact fun g hg o hmem => (hs.outputs_apart hu ho hmem hg).symm

/-- The files after an installation: old ones that are no inputs, and the outputs. -/
theorem Site.mem_install (hs : Site u c chosen lo hi) (hu : Layout u) {f : FileMeta}
    (hf : f ∈ (installCompaction u c outs).files) :
    (f ∈ u.files ∧ ∀ x ∈ c.inputs, x.number ≠ f.number) ∨ f ∈ outs := by
  have hfiles := files_eq hs.source_lt
  have hnodup := hu.nodup
  rw [Version.files, levels_install outs hs.target_eq hs.source_lt] at hf
  rw [← hs.target_eq] at hfiles
  rw [hfiles] at hnodup ⊢
  simp only [List.map_append, List.nodup_append, List.mem_append] at hnodup
  obtain ⟨-, ⟨-, ⟨-, -, htd⟩, hsd⟩, had⟩ := hnodup
  -- the inputs are on the source and on the target level
  have hinput {x : FileMeta} (hx : x ∈ c.inputs) :
      x ∈ u.level c.sourceLevel ∨ x ∈ u.level c.targetLevel := by
    rw [hs.inputs_eq] at hx
    exact (List.mem_append.mp hx).imp (hs.chosen_sub x) fun hx => (List.mem_filter.mp hx).1
  simp only [List.flatten_append, List.flatten_cons, List.mem_append, List.mem_insertionSort,
    mem_strip] at hf ⊢
  rcases hf with hf | hf | (hf | hf) | hf
  · -- above the source
    refine .inl ⟨.inl hf, fun x hx heq => ?_⟩
    apply had _ (List.mem_map_of_mem hf) _ _ heq.symm
    exact (hinput hx).imp List.mem_map_of_mem fun hx => .inl (List.mem_map_of_mem hx)
  · -- on the source level
    exact .inl ⟨.inr (.inl hf.1), hf.2⟩
  · -- on the target level, as one of the old files
    exact .inl ⟨.inr (.inr (.inl hf.1)), hf.2⟩
  · exact .inr hf
  · -- below the target
    refine .inl ⟨.inr (.inr (.inr hf)), fun x hx heq => ?_⟩
    cases hinput hx with
    | inl hx => exact hsd _ (List.mem_map_of_mem hx) _ (.inr (List.mem_map_of_mem hf)) heq
    | inr hx => exact htd _ (List.mem_map_of_mem hx) _ (List.mem_map_of_mem hf) heq

/-- A compaction adds nothing to L0. -/
theorem Site.level_zero_install (hs : Site u c chosen lo hi) {f : FileMeta}
    (hf : f ∈ (installCompaction u c outs).level 0) : f ∈ u.level 0 := by
  rw [Version.level, levels_install outs hs.target_eq hs.source_lt] at hf
  cases hsource : c.sourceLevel with
  | zero =>
    rw [hsource] at hf
    exact (mem_strip.mp hf).1
  | succ i =>
    -- level 0 is above the source
    have hpos : 0 < (u.levels.take c.sourceLevel).length := by
      rw [List.length_take_of_le hs.source_lt.le]
      omega
    rwa [List.getD_eq_getElem?_getD, List.getElem?_append_left hpos,
      List.getElem?_take_of_lt (by omega), ← List.getD_eq_getElem?_getD] at hf

/-- The files after an installation: some of the old ones, and the outputs. -/
private theorem Site.files_install (hs : Site u c chosen lo hi) (outs : List FileMeta) :
    ∃ stay, stay.Sublist u.files ∧ (installCompaction u c outs).files.Perm (stay ++ outs) := by
  have hlevels := levels_install outs hs.target_eq hs.source_lt
  have hfiles := files_eq hs.source_lt
  rw [← hs.target_eq] at hfiles
  refine ⟨(u.levels.take c.sourceLevel).flatten ++ (strip c (u.level c.sourceLevel) ++
    (strip c (u.level c.targetLevel) ++ (u.levels.drop (c.sourceLevel + 2)).flatten)), ?_, ?_⟩
  · rw [hfiles]
    apply (List.Sublist.refl _).append
    apply List.Sublist.append List.filter_sublist
    exact List.Sublist.append List.filter_sublist (List.Sublist.refl _)
  · -- the target level is sorted again, with the outputs in it
    rw [Version.files, hlevels, List.flatten_append, List.flatten_cons, List.flatten_cons]
    simp only [List.append_assoc]
    apply List.Perm.append_left
    apply List.Perm.append_left
    apply ((List.perm_insertionSort ..).append_right _).trans
    rw [List.append_assoc]
    exact List.Perm.append_left _ List.perm_append_comm

/-- The installation of a compaction keeps the layout. -/
theorem Site.layout_install (hs : Site u c chosen lo hi) (hu : Layout u) (ho : Outputs c u outs) :
    Layout (installCompaction u c outs) := by
  have hlevels := levels_install outs hs.target_eq hs.source_lt
  have hbefore := hs.before_target hu ho
  obtain ⟨l0, deeper, hul⟩ := List.exists_cons_of_ne_nil hu.ne_nil
  constructor
  · rw [hlevels]
    simp
  · intro f hf
    exact (hs.mem_install hu hf).elim (fun hf => hu.wf f hf.1) (ho.wf f)
  · -- L0 loses its inputs or stays as it is
    intro files hmem
    rw [hlevels] at hmem
    cases hi : c.sourceLevel with
    | zero =>
      rw [hi, List.take_zero, List.nil_append, List.head?_cons, Option.mem_some] at hmem
      rw [← hmem]
      exact hu.l0_pairwise.sublist List.filter_sublist
    | succ i =>
      rw [hi, hul, List.take_succ_cons, List.cons_append, List.head?_cons, Option.mem_some] at hmem
      exact hu.l0 files (by rw [hul, ← hmem]; rfl)
  · -- the deeper levels: the target has the outputs, the others lose files or stay
    intro files hmem
    rw [hlevels] at hmem
    have hdrop : files ∈ u.levels.drop (c.sourceLevel + 2) → files.Pairwise FileMeta.Before := by
      intro hfiles
      apply hu.deep
      rw [← List.drop_one]
      exact (List.drop_sublist_drop_left _ (by omega)).subset hfiles
    cases hi : c.sourceLevel with
    | zero =>
      rw [hi, List.take_zero, List.nil_append, List.tail_cons, List.mem_cons] at hmem
      cases hmem with
      | inl heq => exact heq ▸ hbefore
      | inr hmem => exact hdrop (hi ▸ hmem)
    | succ i =>
      rw [hi, hul, List.take_succ_cons, List.cons_append, List.tail_cons, ← hul, ← hi,
        List.mem_append, List.mem_cons, List.mem_cons] at hmem
      rcases hmem with hmem | heq | heq | hmem
      · exact hu.deep files (by rw [hul]; exact List.mem_of_mem_take hmem)
      · rw [heq]
        exact (hu.deep_level (show 1 ≤ c.sourceLevel by omega)).sublist List.filter_sublist
      · exact heq ▸ hbefore
      · exact hdrop hmem
  · -- what stays of the old files, and the outputs
    obtain ⟨stay, hsub, hall⟩ := hs.files_install outs
    rw [(hall.map _).nodup_iff, List.map_append, List.nodup_append]
    refine ⟨hu.nodup.sublist (hsub.map _), ho.nodup, ?_⟩
    intro n hn m hm
    obtain ⟨f, hf, rfl⟩ := List.mem_map.mp hn
    obtain ⟨o, ho', rfl⟩ := List.mem_map.mp hm
    exact (ho.fresh o ho' f (hsub.subset hf)).symm

/-! ### The store after an installation -/

/-- The order of a lookup around a compaction. -/
private theorem newestOf_byPriority (pre : List (List FileMeta)) (S T : List FileMeta)
    (post : List (List FileMeta)) (k : Bytes) :
    newestOf (Version.byPriority ⟨pre ++ S :: T :: post⟩) k =
      (newestOf (Version.byPriority ⟨pre⟩) k).or ((newestOf (inOrder pre.length S) k).or
        ((newestOf T k).or (newestOf post.flatten k))) := by
  cases pre with
  | nil => simp [Version.byPriority, inOrder]
  | cons l0 pre => simp [Version.byPriority, inOrder, Option.or_assoc]

/-- Empty levels at the end change no lookup. -/
private theorem byPriority_pad (u : Version) (h : u.levels ≠ []) (n : Nat) :
    Version.byPriority ⟨u.levels ++ List.replicate n []⟩ = u.byPriority := by
  obtain ⟨l0, deeper, hul⟩ := List.exists_cons_of_ne_nil h
  simp [Version.byPriority, hul]

/-- A compaction writes the newest of the versions it reads. It may leave out a tombstone at the
    bottom, where `rest`, which is what the levels below have, is empty. -/
private theorem live_install {front kept picked stays hit rest : Option Entry} {bottom : Bool}
    (hrest : bottom = true → rest = none) (hstays : stays ≠ none → picked = none) :
    (front.or ((kept.or picked).or ((stays.or hit).or rest))).bind Entry.live =
      (front.or (kept.or ((stays.or (((picked.or hit).map Entry.normal).filter
        fun e => !(bottom && e.isTombstone))).or rest))).bind Entry.live := by
  -- the first record found decides, and it is looked for in the same order
  cases front with
  | some e => rfl
  | none =>
    cases kept with
    | some e => rfl
    | none =>
      cases stays with
      | some e =>
        rw [hstays (by simp)]
        rfl
      | none =>
        simp only [Option.none_or, ← Option.or_assoc]
        cases picked.or hit with
        | none => rfl
        | some e =>
          rw [Option.some_or, Option.bind_some, Option.map_some, Option.filter_some,
            isTombstone_normal]
          cases htomb : bottom && e.isTombstone with
          | false => exact (live_normal e).symm
          | true =>
            -- a tombstone is dropped only if nothing is below it to be hidden
            rw [Bool.and_eq_true] at htomb
            rw [hrest htomb.1, Entry.live, if_pos htomb.2]
            rfl

/-- The installation of a compaction does not change the store, whatever lies over the tables. -/
theorem Site.liveIn_install (hs : Site u c chosen lo hi) (hu : Layout u) (ho : Outputs c u outs)
    (ms : List Entry) :
    liveIn (ms :: (installCompaction u c outs).tables) = liveIn (ms :: u.tables) := by
  funext k
  have hlevels := levels_install outs hs.target_eq hs.source_lt
  have hpad := pad_eq hs.source_lt
  have hlen : (u.levels.take c.sourceLevel).length = c.sourceLevel :=
    List.length_take_of_le hs.source_lt.le
  have htarget : 1 ≤ c.targetLevel := by
    rw [hs.target_eq]
    omega
  have hT : KeyDisjoint (u.level c.targetLevel) :=
    keyDisjoint_of_before (fun f hf => hu.wf_level hf) (hu.deep_level htarget)
  -- the target level: what stays and what the compaction reads
  have hsplit : newestOf (u.level c.targetLevel) k =
      (newestOf (strip c (u.level c.targetLevel)) k).or
        (newestOf (overlapping (u.level c.targetLevel) lo hi) k) := by
    rw [← newestOf_append]
    have hperm : (u.level c.targetLevel).Perm
        (strip c (u.level c.targetLevel) ++ overlapping (u.level c.targetLevel) lo hi) := by
      rw [hs.strip_target hu]
      exact (List.perm_append_comm.trans (List.filter_append_perm _ _)).symm
    exact hT.newestOf_eq (hT.perm hperm) fun f => hperm.mem_iff
  -- the target level afterwards
  have hnew : newestOf ((strip c (u.level c.targetLevel) ++ outs).insertionSort
        fun a b => a.smallest ≤ b.smallest) k =
      (newestOf (strip c (u.level c.targetLevel)) k).or (newestOf outs k) := by
    rw [← newestOf_append]
    have hperm := List.perm_insertionSort (fun a b : FileMeta => a.smallest ≤ b.smallest)
      (strip c (u.level c.targetLevel) ++ outs)
    have hdisj : KeyDisjoint ((strip c (u.level c.targetLevel) ++ outs).insertionSort
        fun a b => a.smallest ≤ b.smallest) := by
      apply keyDisjoint_of_before _ (hs.before_target hu ho)
      intro f hf
      rcases List.mem_append.mp (hperm.mem_iff.mp hf) with hf | hf
      · exact hu.wf_level (mem_strip.mp hf).1
      · exact ho.wf f hf
    exact hdisj.newestOf_eq (hdisj.perm hperm) fun f => hperm.mem_iff
  have hbottom : c.bottommost = true → newestOf (u.levels.drop (c.sourceLevel + 2)).flatten k = none := by
    intro hb
    rw [List.flatten_eq_nil_iff.mpr (hs.bottom hb)]
    rfl
  -- a key of a file that stays is outside of the range of the chosen files
  have hstays : newestOf (strip c (u.level c.targetLevel)) k ≠ none → newestOf chosen k = none := by
    intro hne
    rw [newestOf_eq_none_iff]
    intro f hf
    by_contra hsome
    apply hne
    rw [newestOf_eq_none_iff, hs.strip_target hu]
    intro g hg
    obtain ⟨hg, hnot⟩ := List.mem_filter.mp hg
    have hfwf := hu.wf_level (hs.chosen_sub f hf)
    have hlo : lo ≤ k := by
      apply (hs.range f hf).1.trans
      exact not_lt.mp fun hlt => hsome (hfwf.find_eq_none (.inl hlt))
    have hhi : k ≤ hi := by
      apply le_trans _ (hs.range f hf).2
      exact not_lt.mp fun hlt => hsome (hfwf.find_eq_none (.inr hlt))
    apply (hu.wf_level hg).find_eq_none
    have hside : g.largest < lo ∨ hi < g.smallest := by
      simpa [overlaps, imp_iff_not_or] using hnot
    exact hside.elim (fun h => .inr (h.trans_le hlo)) fun h => .inl (hhi.trans_lt h)
  have houts : newestOf outs k = (((newestOf chosen k).or
      (newestOf (overlapping (u.level c.targetLevel) lo hi) k)).map Entry.normal).filter
        fun e => !(c.bottommost && e.isTombstone) := by
    rw [newestOf_eq_find, ho.entries, find_compacted, hs.inputs_eq, newestOf_append]
  simp only [liveIn, newest_cons]
  cases find Entry.key k ms with
  | some e => rfl
  | none =>
    show (newestOf (Version.byPriority ⟨(installCompaction u c outs).levels⟩) k).bind Entry.live =
      (newestOf u.byPriority k).bind Entry.live
    rw [← byPriority_pad u hu.ne_nil (c.sourceLevel + 2 - u.levels.length), hpad, hlevels,
      newestOf_byPriority, newestOf_byPriority, hlen, hnew, houts]
    rw [hs.target_eq] at hsplit hstays ⊢
    show _ = (Option.or _ ((newestOf (inOrder c.sourceLevel (u.level c.sourceLevel)) k).or
      ((newestOf (u.level (c.sourceLevel + 1)) k).or _))).bind _
    rw [hs.lookup, hsplit]
    exact (live_install hbottom hstays).symm

/-! ## The flush -/

/-- A new database. -/
theorem layout_empty : Layout ⟨[[]]⟩ := by
  constructor <;> simp [Version.files]

/-- No flush. -/
theorem Grown.refl (v : Version) : Grown v v := ⟨[], rfl⟩

/-- Flushes one after the other. -/
theorem Grown.trans {w : Version} (h : Grown v u) (h' : Grown u w) : Grown v w := by
  obtain ⟨files, rfl⟩ := h
  obtain ⟨files', rfl⟩ := h'
  exact ⟨files ++ files', by rw [List.foldl_append]⟩

/-- One flush. -/
theorem Grown.pushL0 (v : Version) (f : FileMeta) : Grown v (DB.pushL0 v f) := ⟨[f], rfl⟩

variable {f : FileMeta}

/-- The files after a flush. -/
theorem mem_files_pushL0 {g : FileMeta} :
    g ∈ (DB.pushL0 v f).files ↔ g ∈ v.files ∨ g = f := by
  rw [DB.pushL0, Version.files, Version.files]
  split <;> rename_i hlevels
  · simp [hlevels]
  · rw [hlevels]
    simp only [List.flatten_cons, List.mem_append, List.mem_singleton]
    tauto

/-- A flush removes no file. -/
theorem Grown.subset {g : FileMeta} (h : Grown v u) (hg : g ∈ v.files) : g ∈ u.files := by
  obtain ⟨files, rfl⟩ := h
  induction files generalizing v with
  | nil => exact hg
  | cons f files ih => exact ih (mem_files_pushL0.mpr (.inl hg))

/-- The new file is the first to be looked at. -/
theorem tables_pushL0 (v : Version) (f : FileMeta) :
    (DB.pushL0 v f).tables = f.entries :: v.tables := by
  rw [DB.pushL0, Version.tables, Version.tables, Version.byPriority, Version.byPriority]
  cases v.levels with
  | nil => rfl
  | cons l0 deeper => simp

/-- A flush keeps the layout: the number of its file is above those of L0. -/
theorem Layout.pushL0 (hv : Layout v) (hf : f.Wf) (hl0 : ∀ g ∈ v.level 0, g.number < f.number)
    (hfresh : ∀ g ∈ v.files, g.number ≠ f.number) : Layout (DB.pushL0 v f) := by
  obtain ⟨l0, deeper, hlevels⟩ := List.exists_cons_of_ne_nil hv.ne_nil
  have hpush : (DB.pushL0 v f).levels = (l0 ++ [f]) :: deeper := by rw [DB.pushL0, hlevels]
  have hlevel : v.level 0 = l0 := by rw [Version.level, hlevels]; rfl
  constructor
  · rw [hpush]
    simp
  · intro g hg
    cases mem_files_pushL0.mp hg with
    | inl hg => exact hv.wf g hg
    | inr hg => exact hg ▸ hf
  · -- level 0: the new file has the largest number
    intro files hfiles
    rw [hpush, List.head?_cons, Option.mem_some] at hfiles
    rw [← hfiles, List.pairwise_append]
    refine ⟨hlevel ▸ hv.l0_pairwise, List.pairwise_singleton _ _, fun g hg g' hg' => ?_⟩
    rw [List.mem_singleton.mp hg']
    exact hl0 g (hlevel ▸ hg)
  · intro files hfiles
    apply hv.deep
    rw [hpush] at hfiles
    rw [hlevels]
    exact hfiles
  · -- the number is a new one
    have hperm : (DB.pushL0 v f).files.Perm (f :: v.files) := by
      rw [Version.files, Version.files, hpush, hlevels, List.flatten_cons, List.flatten_cons,
        List.append_assoc]
      exact List.perm_middle
    rw [(hperm.map _).nodup_iff, List.map_cons, List.nodup_cons]
    refine ⟨fun hmem => ?_, hv.nodup⟩
    obtain ⟨g, hg, hnum⟩ := List.mem_map.mp hmem
    exact hfresh g hg hnum

end Lsmdb
