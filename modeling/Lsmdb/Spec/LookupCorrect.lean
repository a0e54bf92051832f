import Lsmdb.Spec.Levels

/-!
# Point lookups in a version

`GetFromVersion` probes the tables whose key range has the key, in priority order, and
ends at the first that does not answer `kNotFound` (`getFromVersion_eq`). A table whose
block for the key cannot be read answers `kNotFound` too, so what is returned is the
first version that can be read (`getFromVersion_damaged`). That is the newest version if
its block can be read (`firstRead_eq_newestOf`), so always if no block is damaged
(`getFromVersion_intact`).
-/

namespace Lsmdb

open SortedMap

/-! ## The walk -/

/-- Is the key in the range of the file? -/
def FileMeta.inRange (k : Bytes) (f : FileMeta) : Bool := decide (f.smallest ≤ k) && decide (k ≤ f.largest)

/-- The tables that `GetFromVersion` probes for a key, in its order. -/
def Version.walk (v : Version) (k : Bytes) : List FileMeta := v.byPriority.filter (·.inRange k)

/-- Probe tables in turn, up to one that has an answer. -/
def probeAll (k : Bytes) :
    List FileMeta → Option BlockCache → Option (LookupResult × Option BlockCache)
  | [], cache => some (.notFound, cache)
  | f :: files, cache => do
    let (r, cache) ← probe k f cache
    if r ≠ .notFound then return (r, cache) else probeAll k files cache

section Walk

variable {k : Bytes} {cache : Option BlockCache}

/-- Go on with other tables if some have no answer. -/
private def andThen (x : Option (LookupResult × Option BlockCache))
    (rest : Option BlockCache → Option (LookupResult × Option BlockCache)) :
    Option (LookupResult × Option BlockCache) :=
  x.bind fun out => if out.1 ≠ .notFound then some out else rest out.2

/-- The next file is probed if this one has nothing. -/
private theorem probeAll_cons (f : FileMeta) (files : List FileMeta) :
    probeAll k (f :: files) cache = andThen (probe k f cache) (probeAll k files) := rfl

/-- Three searches one after the other. -/
private theorem andThen_assoc (x : Option (LookupResult × Option BlockCache))
    (rest rest' : Option BlockCache → Option (LookupResult × Option BlockCache)) :
    andThen (andThen x rest) rest' = andThen x fun cache => andThen (rest cache) rest' := by
  cases x with
  | none => rfl
  | some out =>
    by_cases hr : out.1 = .notFound
    · simp [andThen, hr]
    · simp [andThen, hr]

/-- Files of two lists. -/
private theorem probeAll_append (files files' : List FileMeta) (cache : Option BlockCache) :
    probeAll k (files ++ files') cache = andThen (probeAll k files cache) (probeAll k files') := by
  induction files generalizing cache with
  | nil => rfl
  | cons f files ih =>
    rw [List.cons_append, probeAll_cons, probeAll_cons, andThen_assoc]
    exact congrArg _ (funext ih)

/-- The walk over L0 skips the files out of range. -/
private theorem searchL0_eq (files : List FileMeta) (cache : Option BlockCache) :
    searchL0 k files cache = probeAll k (files.filter (·.inRange k)) cache := by
  induction files generalizing cache with
  | nil => rfl
  | cons f files ih =>
    rw [searchL0, List.filter_cons]
    -- the code skips the files that are out of range
    by_cases hout : k < f.smallest ∨ k > f.largest
    · have hin : ¬ f.inRange k = true := by
        simpa only [FileMeta.inRange, Bool.and_eq_true, decide_eq_true_eq, not_and_or, not_le]
          using hout
      rw [if_pos hout, if_neg hin, ih]
    · have hin : f.inRange k = true := by
        simpa only [FileMeta.inRange, Bool.and_eq_true, decide_eq_true_eq, not_or, not_lt, gt_iff_lt]
          using hout
      rw [if_neg hout, if_pos hin, probeAll_cons]
      exact congrArg (andThen (probe k f cache)) (funext ih)

/-- The search in a deeper level finds the only file that can hold the key. -/
private theorem candidate_eq {files : List FileMeta} (hbefore : files.Pairwise FileMeta.Before)
    (hrange : ∀ f ∈ files, f.smallest ≤ f.largest) :
    ∃ found, candidate k files = some found ∧ files.filter (·.inRange k) = found.toList := by
  -- files that follow each other start in ascending order, so the predicate is monotone
  have hpart : BinarySearch.Partitioned (fun f : FileMeta => decide (f.smallest ≤ k)) files := by
    apply List.Pairwise.imp_of_mem _ hbefore
    intro f g hf hg hfg hgk
    have hgk : g.smallest ≤ k := of_decide_eq_true hgk
    exact decide_eq_true ((hrange f hf).trans (hfg.le.trans hgk))
  have hloop := BinarySearch.loop_eq_boundary hpart 0 files.length (Nat.zero_le _)
    (BinarySearch.boundary_le _ _) le_rfl
  obtain ⟨left, right, hfiles, hlen, hleft, hright⟩ := BinarySearch.exists_append_of_boundary hpart
  -- `left` starts at or before the key, `right` behind it
  have hnone : right.filter (·.inRange k) = [] := by
    rw [List.filter_eq_nil_iff]
    intro f hf hin
    exact hright f hf (Bool.and_eq_true _ _ ▸ hin).1
  rcases List.eq_nil_or_concat' left with hnil | ⟨init, f, hinit⟩
  · -- every file starts behind the key
    refine ⟨none, ?_, ?_⟩
    · rw [hnil, List.length_nil] at hlen
      simp [candidate, hloop, ← hlen]
    · rw [hfiles, hnil, List.nil_append, hnone]
      rfl
  · -- the last file that does not, and those before it end before the key
    have hget : files[BinarySearch.boundary (fun f : FileMeta => decide (f.smallest ≤ k)) files - 1]? =
        some f := by
      rw [← hlen, hfiles, hinit]
      simp
    have hfk : f.smallest ≤ k := of_decide_eq_true (hleft f (by rw [hinit]; simp))
    have hskip : init.filter (·.inRange k) = [] := by
      rw [List.filter_eq_nil_iff]
      intro g hg hin
      have hpair := hbefore
      rw [hfiles, hinit, List.append_assoc, List.pairwise_append] at hpair
      have hgf : g.largest < f.smallest := hpair.2.2 g hg f (by simp)
      have hkg : k ≤ g.largest := of_decide_eq_true (Bool.and_eq_true _ _ ▸ hin).2
      exact absurd (hgf.trans_le hfk) hkg.not_gt
    have hpos : BinarySearch.boundary (fun f : FileMeta => decide (f.smallest ≤ k)) files ≠ 0 := by
      rw [← hlen, hinit]
      simp
    refine ⟨if k > f.largest then none else some f, ?_, ?_⟩
    · simp [candidate, hloop, hpos, hget]
    · rw [hfiles, List.filter_append, hnone, hinit, List.filter_append, hskip, List.filter_cons,
        List.filter_nil]
      by_cases hkf : k ≤ f.largest
      · simp [FileMeta.inRange, hfk, hkf, not_lt.mpr hkf]
      · simp [FileMeta.inRange, hkf, not_le.mp hkf]

/-- The walk over the deeper levels. -/
private theorem searchLevels_eq {levels : List (List FileMeta)}
    (hbefore : ∀ files ∈ levels, files.Pairwise FileMeta.Before)
    (hrange : ∀ f ∈ levels.flatten, f.smallest ≤ f.largest) (cache : Option BlockCache) :
    searchLevels k levels cache = probeAll k (levels.flatten.filter (·.inRange k)) cache := by
  induction levels generalizing cache with
  | nil => rfl
  | cons files levels ih =>
    have htail := @ih (fun files hfiles => hbefore files (List.mem_cons_of_mem _ hfiles))
      fun f hf => hrange f (by rw [List.flatten_cons]; exact List.mem_append_right _ hf)
    rw [searchLevels, List.flatten_cons, List.filter_append, probeAll_append]
    by_cases hnil : files = []
    · rw [if_pos hnil, hnil, htail]
      rfl
    -- at most one file of a deeper level covers the key
    · obtain ⟨found, hcand, hfilter⟩ := @candidate_eq k files (hbefore files List.mem_cons_self)
        fun f hf => hrange f (by rw [List.flatten_cons]; exact List.mem_append_left _ hf)
      rw [if_neg hnil, hcand, hfilter]
      cases found with
      | none => exact htail cache
      | some f =>
        rw [Option.toList_some, probeAll_cons, andThen_assoc]
        exact congrArg (andThen (probe k f cache)) (funext htail)

end Walk

/-- `GetFromVersion` is the walk. -/
private theorem getFromVersion_eq {v : Version}
    (hbefore : ∀ files ∈ v.levels.tail, files.Pairwise FileMeta.Before)
    (hrange : ∀ f ∈ v.files, f.smallest ≤ f.largest) (cache : Option BlockCache) (k : Bytes) :
    getFromVersion v cache k = probeAll k (v.walk k) cache := by
  rw [getFromVersion, Version.walk, Version.byPriority]
  cases hlevels : v.levels with
  | nil => rfl
  | cons l0 deeper =>
    -- on a deeper level the ranges are disjoint, so the binary search finds the only file
    have hdeep (cache : Option BlockCache) := searchLevels_eq (k := k)
      (by simpa [hlevels] using hbefore) (fun f hf => hrange f (by
        rw [Version.files, hlevels, List.flatten_cons]
        exact List.mem_append_right _ hf)) cache
    rw [List.filter_append, probeAll_append]
    show (searchL0 k l0.reverse cache).bind _ = _
    rw [searchL0_eq]
    exact congrArg (andThen _) (funext hdeep)

/-! ## Damaged versions -/

/-- The blocks that a cache may hold, for tables that are known by their numbers. -/
def CachedBlocks (tables : Nat → Option FileMeta) (key : CacheKey) (block : Bytes) : Prop :=
  ∃ f, tables key.file = some f ∧ IsTableBlock f.reader f.blocks key.offset block

/-- A cache that holds blocks of the given tables only. -/
def CacheHolds (tables : Nat → Option FileMeta) (cache : Option BlockCache) : Prop :=
  ∀ c ∈ cache, BlockCache.Holds (CachedBlocks tables) c

open Classical in
/-- The first version of a key that a walk can read. The cache is the one that the walk has when
    it comes to the table. -/
noncomputable def firstRead (d : FileMeta → SSTableReader) (k : Bytes) :
    List FileMeta → Option BlockCache → Option Entry
  | [], _ => none
  | f :: files, cache =>
    if Readable (d f) cache f.blocks k ∧ find Entry.key k f.entries ≠ none then
      find Entry.key k f.entries
    else firstRead d k files ((probe k (f.damage d) cache).elim none Prod.snd)

section Damage

variable {d : FileMeta → SSTableReader} {tables : Nat → Option FileMeta}
variable {cache : Option BlockCache} {k : Bytes} {v : Version}

/-- Damage does not change the order in which the files are searched. -/
theorem byPriority_damage : (v.damage d).byPriority = v.byPriority.map (·.damage d) := by
  rw [Version.byPriority, Version.byPriority, Version.damage]
  cases v.levels with
  | nil => rfl
  | cons l0 deeper => simp [List.map_flatten]

/-- Nor does it change which files are searched. -/
private theorem walk_damage : (v.damage d).walk k = (v.walk k).map (·.damage d) := by
  rw [Version.walk, Version.walk, byPriority_damage, List.filter_map]
  rfl

/-- What the cache may hold for a table is right for its damaged reader too. -/
theorem cachesTable_damaged {f : FileMeta} (hwf : f.Wf) (htable : tables f.number = some f)
    {r : SSTableReader} (hd : f.reader.Damaged r) :
    CachesTable (CachedBlocks tables) r f.blocks := by
  apply (hwf.serves.damaged hd).cachesTable
  have hindex : r.index = f.reader.index := by rw [hd.eq]
  have hnumber : r.fileNumber = f.number := by rw [hd.eq, ← hwf.fileNumber_eq]
  intro offset block
  rw [CachedBlocks, hnumber]
  show (∃ g, tables f.number = some g ∧ _) ↔ _
  rw [htable]
  simp [IsTableBlock, hindex]

/-- One table of the walk. -/
private theorem probe_damaged {f : FileMeta} (hwf : f.Wf) (htable : tables f.number = some f)
    (hd : f.reader.Damaged (d f)) (hc : CacheHolds tables cache) :
    ∃ r cache', probe k (f.damage d) cache = some (r, cache') ∧ CacheHolds tables cache' ∧
      (Readable (d f) cache f.blocks k → r = lookup f.entries k) ∧
      (¬ Readable (d f) cache f.blocks k → r = .notFound) := by
  obtain ⟨out, hget, hout⟩ := get_spec (hwf.serves.damaged hd)
    (cachesTable_damaged hwf htable hd) hc k
  refine ⟨out.1.1, out.2, ?_, hout.cache, ?_, hout.unreadable⟩
  · show ((d f).get cache k).bind _ = _
    rw [hget]
    rfl
  · have hread := hout.readable
    rwa [FileMeta.blocks, flatten_blocksOf] at hread

/-- The walk ends at the first version that it can read. -/
private theorem probeAll_damaged {files : List FileMeta} (hwf : ∀ f ∈ files, f.Wf)
    (htables : ∀ f ∈ files, tables f.number = some f)
    (hd : ∀ f ∈ files, f.reader.Damaged (d f)) (hc : CacheHolds tables cache) :
    ∃ cache', probeAll k (files.map (·.damage d)) cache =
        some ((firstRead d k files cache).elim .notFound Entry.result, cache') ∧
      CacheHolds tables cache' := by
  induction files generalizing cache with
  | nil => exact ⟨cache, rfl, hc⟩
  | cons f files ih =>
    obtain ⟨r, cache', hprobe, hc', hread, hunread⟩ := @probe_damaged d tables cache k f
      (hwf f List.mem_cons_self) (htables f List.mem_cons_self) (hd f List.mem_cons_self) hc
    obtain ⟨cache'', hrest, hc''⟩ := @ih cache' (fun f hf => hwf f (List.mem_cons_of_mem _ hf))
      (fun f hf => htables f (List.mem_cons_of_mem _ hf))
      (fun f hf => hd f (List.mem_cons_of_mem _ hf)) hc'
    rw [List.map_cons, probeAll_cons, hprobe, firstRead, hprobe]
    by_cases hhit : Readable (d f) cache f.blocks k ∧ find Entry.key k f.entries ≠ none
    · -- the walk ends here
      obtain ⟨e, he⟩ := Option.ne_none_iff_exists'.mp hhit.2
      have hr : r = e.result := by rw [hread hhit.1, lookup, he, Option.elim_some]
      refine ⟨cache', ?_, hc'⟩
      rw [if_pos hhit, he, Option.elim_some, hr]
      exact if_pos (result_ne_notFound e)
    · -- nothing here, or nothing that can be read
      have hr : r = .notFound := by
        by_cases hreadable : Readable (d f) cache f.blocks k
        · have hnone : find Entry.key k f.entries = none := by
            by_contra hne
            exact hhit ⟨hreadable, hne⟩
          rw [hread hreadable, lookup, hnone, Option.elim_none]
        · exact hunread hreadable
      refine ⟨cache'', ?_, hc''⟩
      rw [if_neg hhit, hr]
      exact hrest

/-- A block that can be read without the cache can be read with it. -/
private theorem Readable.of_none {r : SSTableReader} {bs : List (List Entry)} (h : Readable r none bs k)
    (cache : Option BlockCache) : Readable r cache bs k := by
  intro i b hb hk
  rcases h i b hb hk with hcached | hread
  · cases hcached
  · exact .inr hread

/-- The newest version of a key in the given tables can be read: the block of the first table that
    holds the key passes its check, or that table is the first to be probed and its block is in
    the cache. -/
def NewestReadable (d : FileMeta → SSTableReader) (k : Bytes) (files : List FileMeta)
    (cache : Option BlockCache) : Prop :=
  ∀ f, files.find? (fun f => (find Entry.key k f.entries).isSome) = some f →
    Readable (d f) none f.blocks k ∨ files.head? = some f ∧ Readable (d f) cache f.blocks k

/-- If the newest version can be read, it is the first one that is. -/
theorem firstRead_eq_newestOf {files : List FileMeta} (h : NewestReadable d k files cache) :
    firstRead d k files cache = newestOf files k := by
  induction files generalizing cache with
  | nil => rfl
  | cons f files ih =>
    rw [firstRead, newestOf_cons]
    cases hfind : find Entry.key k f.entries with
    | none =>
      -- the table does not hold the key, so neither condition is about it
      have hrest : NewestReadable d k files ((probe k (f.damage d) cache).elim none Prod.snd) := by
        intro g hg
        have hskip : (f :: files).find? (fun f => (find Entry.key k f.entries).isSome) = some g := by
          rw [List.find?_cons_of_neg (by simp [hfind]), hg]
        rcases h g hskip with hread | ⟨hhead, -⟩
        · exact .inl hread
        · cases hhead
          rw [List.find?_eq_some_iff_append] at hg
          simp [hfind] at hg
      rw [if_neg (by simp), ih hrest, Option.none_or]
    | some e =>
      have hfirst : (f :: files).find? (fun f => (find Entry.key k f.entries).isSome) = some f :=
        List.find?_cons_of_pos (by simp [hfind])
      have hread : Readable (d f) cache f.blocks k :=
        (h f hfirst).elim (fun hread => hread.of_none cache) And.right
      rw [if_pos ⟨hread, by simp⟩, Option.some_or]

/-- Blocks that are all intact can all be read. -/
private theorem newestReadable_of_intact {files : List FileMeta} (h : ∀ f ∈ files, Intact (d f) f.blocks)
    (cache : Option BlockCache) : NewestReadable d k files cache :=
  fun f hf => .inl fun i b hb _ => .inr ⟨_, h f (List.mem_of_find?_eq_some hf) i b hb⟩

/-- The tables out of range do not have the key. -/
theorem newestOf_walk (hwf : ∀ f ∈ v.files, f.Wf) (k : Bytes) :
    newestOf (v.walk k) k = newestOf v.byPriority k := by
  -- a file outside of whose range the key lies has no record of it
  have hmem {f : FileMeta} (hf : f ∈ v.byPriority) : f ∈ v.files := mem_byPriority.mp hf
  rw [Version.walk]
  generalize v.byPriority = files at hmem
  induction files with
  | nil => rfl
  | cons f files ih =>
    have hrest := ih fun hf => hmem (List.mem_cons_of_mem _ hf)
    rw [List.filter_cons]
    by_cases hin : f.inRange k = true
    · rw [if_pos hin, newestOf_cons, newestOf_cons, hrest]
    · have hout : k < f.smallest ∨ f.largest < k := by
        simpa only [FileMeta.inRange, Bool.and_eq_true, decide_eq_true_eq, not_and_or, not_le]
          using hin
      rw [if_neg hin, hrest, newestOf_cons,
        (hwf f (hmem List.mem_cons_self)).find_eq_none hout, Option.none_or]

/-- `GetFromVersion` returns the first version of the key that it can read. -/
theorem getFromVersion_damaged (hv : Layout v) (htables : ∀ f ∈ v.files, tables f.number = some f)
    (hd : ∀ f ∈ v.files, f.reader.Damaged (d f)) (hc : CacheHolds tables cache) (k : Bytes) :
    ∃ cache', getFromVersion (v.damage d) cache k =
        some ((firstRead d k (v.walk k) cache).elim .notFound Entry.result, cache') ∧
      CacheHolds tables cache' := by
  have hmem {f : FileMeta} (hf : f ∈ v.walk k) : f ∈ v.files :=
    mem_byPriority.mp (List.mem_filter.mp hf).1
  rw [getFromVersion_eq, walk_damage]
  · exact probeAll_damaged (fun f hf => hv.wf f (hmem hf)) (fun f hf => htables f (hmem hf))
      (fun f hf => hd f (hmem hf)) hc
  · -- damage changes neither the ranges nor the order of the files
    intro files hfiles
    rw [Version.damage, ← List.map_tail] at hfiles
    obtain ⟨files', hfiles', rfl⟩ := List.mem_map.mp hfiles
    exact List.pairwise_map.mpr (hv.deep files' hfiles')
  · intro f hf
    rw [Version.damage, Version.files, ← List.map_flatten] at hf
    obtain ⟨g, hg, rfl⟩ := List.mem_map.mp hf
    exact (hv.wf g hg).smallest_le_largest

/-- A version with its own readers. -/
theorem damage_reader (v : Version) : v.damage FileMeta.reader = v := by
  have hid : FileMeta.damage FileMeta.reader = id := rfl
  rw [Version.damage, hid]
  simp

/-- `GetFromVersion` on intact files returns the newest version of the key. -/
theorem getFromVersion_intact (hv : Layout v) (htables : ∀ f ∈ v.files, tables f.number = some f)
    (hc : CacheHolds tables cache) (k : Bytes) :
    ∃ cache', getFromVersion v cache k =
        some ((newestOf v.byPriority k).elim .notFound Entry.result, cache') ∧
      CacheHolds tables cache' := by
  have hget := @getFromVersion_damaged FileMeta.reader tables cache v hv htables
    (fun f _ => .refl _) hc k
  have hintact : ∀ f ∈ v.walk k, Intact f.reader f.blocks :=
    fun f hf => (hv.wf f (mem_byPriority.mp (List.mem_filter.mp hf).1)).intact
  rwa [damage_reader, firstRead_eq_newestOf (newestReadable_of_intact hintact cache),
    newestOf_walk hv.wf] at hget

end Damage

/-! ## The exhaustive walk -/

/-- Every file in turn, by a plain search in its entries, up to the first that has the key. -/
def searchEntries (k : Bytes) : List FileMeta → LookupResult
  | [] => .notFound
  | f :: files =>
    match f.entries.find? (·.key == k) with
    | some e => e.result
    | none => searchEntries k files

/-- The lookup without any pruning: all of L0 from back to front, then the deeper levels from front
    to back. -/
def exhaustiveWalk (v : Version) (k : Bytes) : LookupResult :=
  match v.levels with
  | [] => .notFound
  | l0 :: deeper => searchEntries k (l0.reverse ++ deeper.flatten)

/-- The reference search takes the first record of the key. -/
private theorem searchEntries_eq (files : List FileMeta) (k : Bytes) :
    searchEntries k files = (newestOf files k).elim .notFound Entry.result := by
  induction files with
  | nil => rfl
  | cons f files ih =>
    -- the two ways of comparing keys are the same
    have hfind : f.entries.find? (·.key == k) = find Entry.key k f.entries := by
      unfold find
      congr 1
      funext e
      exact Bool.eq_iff_iff.mpr (by simp)
    rw [searchEntries, hfind, newestOf_cons]
    cases find Entry.key k f.entries with
    | none => rw [Option.none_or, ih]
    | some e => rfl

/-- The reference walk returns the newest record of the key. -/
private theorem exhaustiveWalk_eq (v : Version) (k : Bytes) :
    exhaustiveWalk v k = (newestOf v.byPriority k).elim .notFound Entry.result := by
  rw [exhaustiveWalk, Version.byPriority]
  cases v.levels with
  | nil => rfl
  | cons l0 deeper => exact searchEntries_eq _ k

/-- Without a cache, nothing is needed of the file numbers. -/
private theorem probeAll_uncached {files : List FileMeta} (hwf : ∀ f ∈ files, f.Wf) (k : Bytes) :
    probeAll k files none = some ((newestOf files k).elim .notFound Entry.result, none) := by
  induction files with
  | nil => rfl
  | cons f files ih =>
    have hf := hwf f List.mem_cons_self
    -- no cache, so any condition on cached blocks will do
    have hempty : ∀ c ∈ (none : Option BlockCache),
        BlockCache.Holds (fun key => IsTableBlock f.reader f.blocks key.offset) c := by simp
    obtain ⟨out, hget, hout⟩ := get_spec hf.serves (hf.serves.cachesTable fun _ _ => Iff.rfl) hempty k
    have hresult : out.1.1 = lookup f.entries k := by
      rw [hout.readable fun i b hb _ => .inr ⟨_, hf.intact i b hb⟩, FileMeta.blocks,
        flatten_blocksOf]
    have hprobe : probe k f none = some (lookup f.entries k, none) := by
      have hnone : out.2 = none := by simpa using hout.isSome_eq
      rw [probe, hget, ← hresult, ← hnone]
      rfl
    rw [probeAll_cons, hprobe, newestOf_cons, lookup]
    cases find Entry.key k f.entries with
    | none =>
      rw [Option.none_or]
      exact ih fun f hf => hwf f (List.mem_cons_of_mem _ hf)
    | some e => exact if_pos (result_ne_notFound e)

/-- Skipping files by their ranges, searching one file per level and pruning within a table lose
    nothing: `GetFromVersion` finds what the exhaustive walk finds. A block cache, if there is one,
    knows the tables by their numbers. -/
theorem getFromVersion_eq_exhaustiveWalk {v : Version} (hwf : ∀ f ∈ v.files, f.Wf)
    (hdeep : ∀ files ∈ v.levels.tail, files.Pairwise FileMeta.Before) {cache : Option BlockCache}
    (hcache : cache = none ∨ ∃ tables, (∀ f ∈ v.files, tables f.number = some f) ∧
      CacheHolds tables cache) (k : Bytes) :
    (getFromVersion v cache k).map Prod.fst = some (exhaustiveWalk v k) := by
  have hmem {f : FileMeta} (hf : f ∈ v.walk k) : f ∈ v.files :=
    mem_byPriority.mp (List.mem_filter.mp hf).1
  rw [getFromVersion_eq hdeep fun f hf => (hwf f hf).smallest_le_largest, exhaustiveWalk_eq,
    ← newestOf_walk hwf]
  cases hcache with
  -- without a cache every block is read from its file
  | inl hnone =>
    rw [hnone, probeAll_uncached fun f hf => hwf f (hmem hf)]
    rfl
  | inr htables =>
    obtain ⟨tables, htables, hc⟩ := htables
    -- with a cache that holds the blocks of the tables the blocks are the same
    obtain ⟨cache', hprobe, -⟩ := probeAll_damaged (d := FileMeta.reader) (k := k)
      (fun f hf => hwf f (hmem hf)) (fun f hf => htables f (hmem hf)) (fun f _ => .refl _) hc
    have hid : FileMeta.damage FileMeta.reader = id := rfl
    rw [hid, List.map_id, firstRead_eq_newestOf
      (newestReadable_of_intact (fun f hf => (hwf f (hmem hf)).intact) cache)] at hprobe
    rw [hprobe]
    rfl

/-- A key in the gap between two files of a level, behind a file of L0 that hides another key. -/
theorem getFromVersion_eq_exhaustiveWalk_gap :
    let file (number : Nat) (es : List Entry) := tableMeta 10 es number
    let v : Version := ⟨[[file 3 [⟨[1], [], .tombstone⟩]],
      [file 1 [⟨[1], [2], .value⟩], file 2 [⟨[4], [5], .value⟩]]]⟩
    (getFromVersion v none [2]).map Prod.fst = some (exhaustiveWalk v [2]) := by
  intro file v
  -- every table has one record
  have hwf (number : Nat) (e : Entry) (he : TableFits kOutputBlockSize 10 [e]) :
      (file number [e]).Wf :=
    (isTable_tableMeta (List.cons_ne_nil _ _) (List.pairwise_singleton _ _) he number).wf
  apply getFromVersion_eq_exhaustiveWalk _ _ (.inl rfl)
  · intro f hf
    have hf : f = file 3 [⟨[1], [], .tombstone⟩] ∨ f = file 1 [⟨[1], [2], .value⟩] ∨
        f = file 2 [⟨[4], [5], .value⟩] := by simpa [v, Version.files] using hf
    rcases hf with rfl | rfl | rfl
    · exact hwf _ _ (by decide +kernel)
    · exact hwf _ _ (by decide +kernel)
    · exact hwf _ _ (by decide +kernel)
  · intro files hfiles
    have hfiles : files = [file 1 [⟨[1], [2], .value⟩], file 2 [⟨[4], [5], .value⟩]] := by
      simpa [v] using hfiles
    rw [hfiles]
    apply List.pairwise_pair.mpr
    show [1] < [4]
    decide

end Lsmdb
