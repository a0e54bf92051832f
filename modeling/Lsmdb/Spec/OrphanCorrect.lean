import Lsmdb.Spec.ManifestCorrect
import Lsmdb.Spec.ProgramCalls

/-!
# Removal of orphan files

`RemoveOrphanFiles` reads a number from every name in the directory, and unlinks the file
that has the name of that number if no table of the version has it. Names are printed and
parsed without loss for 64-bit numbers (`parseFileNumber_numberToName`), so a table that
the version does not have is found under its own name. A name that is written in another
way (`7.sst`) leads to a file that is not its own (`000007.sst`), but never to one of the
version.
-/

namespace Lsmdb

open Prog

/-! ## Names and numbers -/

/-- Digits are read as their value, in 64 bits. -/
private theorem foldlM_parseDigit {digits : List Char} (h : ∀ c ∈ digits, c.isDigit = true) (n : Nat) :
    digits.foldlM parseDigit (n % 2 ^ 64) = some (Nat.ofDigitChars 10 digits n % 2 ^ 64) := by
  induction digits generalizing n with
  | nil => rfl
  | cons c digits ih =>
    have hdigit : 48 ≤ c.val ∧ c.val ≤ 57 := by
      simpa [Char.isDigit] using h c List.mem_cons_self
    have hc : '0' ≤ c ∧ c ≤ '9' := hdigit
    -- the product and the sum are taken modulo `2 ^ 64`
    have hstep : parseDigit (n % 2 ^ 64) c =
        some ((10 * n + (c.toNat - '0'.toNat)) % 2 ^ 64) := by
      rw [parseDigit, if_pos hc]
      congr 1
      omega
    rw [List.foldlM_cons, hstep, Nat.ofDigitChars_cons]
    exact ih (fun c hc => h c (List.mem_cons_of_mem _ hc)) _

/-- The digits of a name, with their padding. -/
private def stem (n : Nat) : List Char :=
  List.replicate (6 - (Nat.toDigits 10 n).length) '0' ++ Nat.toDigits 10 n

/-- The name of a table starts with digits. -/
private theorem isDigit_of_mem_stem {n : Nat} {c : Char} (h : c ∈ stem n) : c.isDigit = true := by
  rw [stem, List.mem_append] at h
  cases h with
  | inl h => rw [List.eq_of_mem_replicate h]; rfl
  | inr h => exact Nat.isDigit_of_mem_toDigits (by decide) (by decide) h

/-- There is no dot among them. -/
private theorem ne_dot_of_mem_stem {n : Nat} {c : Char} (h : c ∈ stem n) :
    decide (c ≠ '.') = true := by
  apply decide_eq_true
  rintro rfl
  exact absurd (isDigit_of_mem_stem h) (by decide)

/-- The number is parsed back from the name. -/
theorem parseFileNumber_numberToName {n : Nat} (hn : n < 2 ^ 64) :
    parseFileNumber (numberToName n) = some n := by
  have hlist : (numberToName n).toList = stem n ++ ['.', 's', 's', 't'] := String.toList_ofList
  -- the digits end at the dot
  have htake : (numberToName n).toList.takeWhile (· ≠ '.') = stem n := by
    rw [hlist, List.takeWhile_append_of_pos fun c hc => ne_dot_of_mem_stem hc]
    simp
  have hdrop : (numberToName n).toList.dropWhile (· ≠ '.') = ['.', 's', 's', 't'] := by
    rw [hlist, List.dropWhile_append_of_pos fun c hc => ne_dot_of_mem_stem hc]
    simp
  have hne : stem n ≠ [] := by simp [stem]
  -- leading zeros do not change the number
  have hvalue := foldlM_parseDigit (fun c hc => isDigit_of_mem_stem (n := n) hc) 0
  rw [stem, ofDigitChars_padded, Nat.mod_eq_of_lt hn] at hvalue
  rw [parseFileNumber, htake, hdrop, if_neg (by simp), if_neg hne]
  exact hvalue

/-- What is read is a 64-bit number. -/
private theorem parseFileNumber_lt {name : String} {n : Nat} (h : parseFileNumber name = some n) :
    n < 2 ^ 64 := by
  -- every turn of the loop reduces the number modulo `2 ^ 64`
  have hfold (digits : List Char) : ∀ m < 2 ^ 64, ∀ n, digits.foldlM parseDigit m = some n →
      n < 2 ^ 64 := by
    induction digits with
    | nil => simp
    | cons c digits ih =>
      intro m _ n h
      rw [List.foldlM_cons, parseDigit] at h
      split at h
      · exact ih _ (Nat.mod_lt _ (by decide)) n h
      · simp at h
  rw [parseFileNumber] at h
  split at h
  · simp at h
  · split at h
    · simp at h
    · exact hfold _ 0 (by decide) n h

/-! ## The removal -/

/-- Only names of tables that are not in the version are unlinked. -/
theorem all_removeOrphanFiles {P : Call → Prop} {v : Version}
    (hP : ∀ n, n ∉ v.files.map (·.number) → P (.unlink (numberToName n))) (names : List String) :
    (DB.removeOrphanFiles v names).All P := by
  induction names with
  | nil => trivial
  | cons name names ih =>
    rw [DB.removeOrphanFiles]
    split
    · split
      case isTrue => exact ih
      case isFalse hdead => exact ⟨hP _ hdead, fun _ => ih⟩
    · exact ih

/-- The calls that `Recover` is made of. -/
theorem all_recover {P : Call → Prop} (cfg : Config) (hreadDir : P .readDir)
    (hcurrent : ∀ v, P (.storeCurrent v)) (hnumber : ∀ n, P (.storeFileNumber n))
    (hloadMem : P .loadMem) (hstoreMem : ∀ mem, P (.storeMem mem)) (hwal : P (.storeWal true))
    (hlog : P (.openAppend walName)) (hunlink : ∀ n, P (.unlink (numberToName n))) :
    (DB.recover cfg).run.All P := by
  apply All.bindE (allE_call hreadDir)
  intro disk
  apply All.bindE (allE_defined _)
  intro r
  cases r with
  -- a damaged manifest ends the call
  | error s => trivial
  | ok loaded =>
    obtain ⟨loaded, next⟩ := loaded
    apply All.bindE (allE_call (hcurrent _))
    intro _
    apply All.bindE (allE_call (hnumber _))
    intro _
    -- the log is replayed
    apply All.bindE (allE_defined _)
    intro records
    apply All.bindE (allE_call hloadMem)
    intro mem
    apply All.bindE (allE_defined _)
    intro mem'
    apply All.bindE (allE_call (hstoreMem _))
    intro _
    -- it is opened for the writes to come
    apply All.bindE
    · apply All.bindE
      · apply allE_check
        exact ⟨hlog, fun _ => trivial⟩
      · exact fun _ => allE_call hwal
    intro _
    apply All.bindE (allE_call hreadDir)
    intro disk
    apply All.bind
    · exact all_removeOrphanFiles (fun n _ => hunlink n) _
    · exact fun _ => trivial

/-- The files that the names of a directory lead to and the version does not have. -/
def Version.orphans (v : Version) (names : List String) : List String :=
  ((names.filterMap parseFileNumber).filter (· ∉ v.files.map (·.number))).map numberToName

/-- The removal unlinks the orphans in turn. -/
theorem eval_removeOrphanFiles (v : Version) (names : List String) (w : World) :
    (DB.removeOrphanFiles v names).eval (exec .client) .ok w =
      some ((), { w with disk := (v.orphans names).foldl (fun disk name => disk.erase name) w.disk }) := by
  induction names generalizing w with
  | nil => rfl
  | cons name names ih =>
    rw [DB.removeOrphanFiles]
    cases hparse : parseFileNumber name with
    -- the name of another file
    | none =>
      rw [Version.orphans, List.filterMap_cons_none hparse]
      exact ih w
    | some n =>
      rw [Version.orphans, List.filterMap_cons_some hparse, List.filter_cons]
      show eval (exec .client) .ok (if n ∈ v.files.map (·.number) then _ else _) w = _
      by_cases hlive : n ∈ v.files.map (·.number)
      · -- a table of the version
        rw [if_pos hlive, if_neg (by simpa using hlive)]
        exact ih w
      · rw [if_neg hlive, if_pos (by simpa using hlive)]
        exact ih { w with disk := w.disk.erase (numberToName n) }

/-- A file is left if it was not removed. -/
private theorem lookup_foldl_erase (names : List String) (disk : Disk) (name : String) :
    (names.foldl (fun disk name => disk.erase name) disk).lookup name =
      if name ∈ names then none else disk.lookup name := by
  induction names generalizing disk with
  | nil => rfl
  | cons first names ih =>
    rw [List.foldl_cons, ih]
    by_cases hfirst : name = first
    · subst hfirst
      simp
    · simp [hfirst, AList.lookup_erase_ne hfirst]

/-- The orphans are the tables that are not in the version. -/
private theorem mem_orphans {v : Version} {names : List String} {name : String} :
    name ∈ v.orphans names ↔ ∃ n, n ∉ v.files.map (·.number) ∧
      (∃ other ∈ names, parseFileNumber other = some n) ∧ name = numberToName n := by
  rw [Version.orphans, List.mem_map]
  simp only [List.mem_filter, List.mem_filterMap, decide_eq_true_eq]
  constructor
  · rintro ⟨n, ⟨hother, hdead⟩, rfl⟩
    exact ⟨n, hdead, hother, rfl⟩
  · rintro ⟨n, hdead, hother, rfl⟩
    exact ⟨n, ⟨hother, hdead⟩, rfl⟩

/-- No call of `RemoveOrphanFiles` unlinks a table of the version, whatever the names of the
    directory. If the unlinks succeed and the directory was read to its end, then no table that
    the version does not have is left, and every other file is as it was. Numbers and names
    determine each other. -/
theorem removeOrphanFiles_exact (v : Version) (names : List String) :
    ((DB.removeOrphanFiles v names).All fun c =>
      ∀ f ∈ v.files, c ≠ .unlink (numberToName f.number)) ∧
    (∀ w : World, (∀ name ∈ w.disk, name ∈ names) →
      ∃ w', (DB.removeOrphanFiles v names).eval (exec .client) .ok w = some ((), w') ∧
        (∀ n < 2 ^ 64, n ∉ v.files.map (·.number) → numberToName n ∉ w'.disk) ∧
        ∀ name, (∀ n < 2 ^ 64, n ∉ v.files.map (·.number) → name ≠ numberToName n) →
          w'.disk.lookup name = w.disk.lookup name) ∧
    (∀ n < 2 ^ 64, parseFileNumber (numberToName n) = some n) ∧
    Function.Injective numberToName := by
  refine ⟨?_, fun w hnames => ⟨_, eval_removeOrphanFiles v names w, ?_, ?_⟩,
    fun n hn => parseFileNumber_numberToName hn, numberToName_injective⟩
  · apply all_removeOrphanFiles
    intro n hdead f hf heq
    have hnumber : n = f.number := numberToName_injective (Call.unlink.inj heq)
    exact hdead (hnumber ▸ List.mem_map_of_mem hf)
  · intro n hn hdead
    rw [← AList.lookup_eq_none, lookup_foldl_erase]
    -- A dead table that was there was listed, under the name that its number is read from.
    split
    case isTrue => rfl
    case isFalse horphan =>
      rw [AList.lookup_eq_none]
      intro hmem
      exact horphan (mem_orphans.mpr
        ⟨n, hdead, ⟨_, hnames _ hmem, parseFileNumber_numberToName hn⟩, rfl⟩)
  · intro name hname
    rw [lookup_foldl_erase, if_neg]
    intro horphan
    obtain ⟨n, hdead, ⟨_, _, hparse⟩, rfl⟩ := mem_orphans.mp horphan
    exact hname n (parseFileNumber_lt hparse) hdead rfl

/-- The directory of `oneTableWorld` with table 7, which the version does not have, and a file
    whose name is not that of a table but is read as 7 as well. -/
def orphanDisk : Disk := (oneTableWorld.disk.insert "000007.sst" [0]).insert "7.sst" [1]

/-- Table 7 goes, and the file that is read as 7 stays. -/
theorem removeOrphanFiles_exact_seven :
    ∃ w', (DB.removeOrphanFiles ⟨[[oneTable]]⟩ ["7.sst", "000003.sst", "000007.sst"]).eval
        (exec .client) .ok { oneTableWorld with disk := orphanDisk } = some ((), w') ∧
      numberToName 7 ∉ w'.disk ∧ w'.disk.lookup "7.sst" = some [1] := by
  have hnames : ∀ name ∈ orphanDisk, name ∈ ["7.sst", "000003.sst", "000007.sst"] := by
    intro name hname
    rw [orphanDisk, AList.mem_insert, AList.mem_insert, oneTableWorld, AList.mem_insert] at hname
    rcases hname with rfl | rfl | rfl | hname
    · simp
    · simp
    · decide
    · exact absurd hname (AList.notMem_empty _)
  obtain ⟨w', hrun, hdead, hkept⟩ := (removeOrphanFiles_exact ⟨[[oneTable]]⟩
    ["7.sst", "000003.sst", "000007.sst"]).2.1 { oneTableWorld with disk := orphanDisk } hnames
  refine ⟨w', hrun, hdead 7 (by decide) (by decide), ?_⟩
  rw [hkept "7.sst"]
  · exact AList.lookup_insert _
  · -- The printed name of a number has ten letters or more.
    intro n _ _ heq
    have hlength := congrArg (fun name : String => name.toList.length) heq
    simp only [numberToName, String.toList_ofList, List.length_append, List.length_replicate] at hlength
    have hfive : "7.sst".toList.length = 5 := by decide
    simp at hlength
    omega

end Lsmdb
