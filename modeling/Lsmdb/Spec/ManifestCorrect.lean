import Lsmdb.Spec.FileSystem
import Lsmdb.Spec.Levels

/-!
# File names and the manifest

The names of table files tell their numbers apart and are not the names of the other
files. Loading the manifest that `WriteManifest` wrote for a version gives the version
back, readers included, if the files of its tables are there (`loadVersion_manifest`).
-/

namespace Lsmdb

/-! ## Names -/

/-- The value of a padded number. -/
theorem ofDigitChars_padded (n k : Nat) :
    Nat.ofDigitChars 10 (List.replicate k '0' ++ Nat.toDigits 10 n) 0 = n := by
  rw [Nat.ofDigitChars_append, Nat.ofDigitChars_replicate_zero, Nat.mul_zero,
    Nat.ofDigitChars_toDigits (by decide) (by decide)]

/-- Two tables have two names. -/
theorem numberToName_injective : Function.Injective numberToName := by
  intro a b h
  have hlist := String.ofList_injective h
  have hdigits := List.append_cancel_right hlist
  rw [← ofDigitChars_padded a (6 - (Nat.toDigits 10 a).length), hdigits, ofDigitChars_padded]

/-- The last letter of the name of a table file. -/
private theorem getLast?_numberToName (n : Nat) : (numberToName n).toList.getLast? = some 't' := by
  rw [numberToName, String.toList_ofList]
  simp

/-- No table is named like the log. -/
theorem numberToName_ne_walName (n : Nat) : numberToName n ≠ walName := by
  intro h
  have hlast := getLast?_numberToName n
  rw [h] at hlast
  exact absurd hlast (by decide)

/-- No table is named like the manifest. -/
theorem numberToName_ne_manifestName (n : Nat) : numberToName n ≠ manifestName := by
  intro h
  have hlast := getLast?_numberToName n
  rw [h] at hlast
  exact absurd hlast (by decide)

/-- No table is named like the manifest that is being written. -/
theorem numberToName_ne_manifestTmpName (n : Nat) : numberToName n ≠ manifestTmpName := by
  intro h
  have hlast := getLast?_numberToName n
  rw [h] at hlast
  exact absurd hlast (by decide)

/-! ## The manifest -/

/-- The counts that the manifest stores in 32 bits. -/
structure Version.Fits (v : Version) : Prop where
  levels : v.levels.length < 2 ^ 32
  files : ∀ files ∈ v.levels, files.length < 2 ^ 32

instance (v : Version) : Decidable v.Fits :=
  decidable_of_iff (v.levels.length < 2 ^ 32 ∧ ∀ files ∈ v.levels, files.length < 2 ^ 32)
    ⟨fun ⟨h₁, h₂⟩ => ⟨h₁, h₂⟩, fun ⟨h₁, h₂⟩ => ⟨h₁, h₂⟩⟩

/-- The keys that the manifest stores for a file have lengths of 32 bits. -/
def FileMeta.KeysFit (f : FileMeta) : Prop :=
  f.smallest.length < 2 ^ 32 ∧ f.largest.length < 2 ^ 32

/-- A key is part of its block. -/
private theorem length_key_le_blockBytes {b : List Entry} {e : Entry} (he : e ∈ b) :
    e.key.length ≤ (blockBytes b).length := by
  induction b with
  | nil => cases he
  | cons x b ih =>
    rw [blockBytes_cons, List.length_append, length_appendRecord]
    rcases List.mem_cons.mp he with rfl | he
    · omega
    · have := ih he
      omega

/-- The keys of a table fit the length prefixes of the manifest. -/
theorem FileMeta.Wf.keysFit {f : FileMeta} (h : f.Wf) : f.KeysFit := by
  have hkey {e : Entry} (he : e ∈ f.entries) : e.key.length < 2 ^ 32 := by
    rw [← flatten_blocksOf kOutputBlockSize f.entries] at he
    obtain ⟨b, hb, he⟩ := List.mem_flatten.mp he
    have hfit := h.serves.fits b hb
    have hle := length_key_le_blockBytes he
    omega
  obtain ⟨e₁, he₁, hsmallest⟩ := h.exists_smallest
  obtain ⟨e₂, he₂, hlargest⟩ := h.exists_largest
  exact ⟨hsmallest ▸ hkey he₁, hlargest ▸ hkey he₂⟩

section Load

variable {openTable : Nat → Option (Except Status SSTableReader)}

/-- A key is read back. -/
private theorem loadKey_putLengthPrefixed {s : Bytes} (hs : s.length < 2 ^ 32) (rest : Bytes)
    (short short2 : String) :
    loadKey (putLengthPrefixed s ++ rest) short short2 = some (.ok (s, rest)) := by
  have hlen : (s.length.toUInt32).toNat = s.length := toNat_toUInt32_of_lt hs
  have hload : loadBytes (s ++ rest) s.length = some s := loadBytes_append rfl
  rw [loadKey, putLengthPrefixed, List.append_assoc]
  simp [decodeFixed32_putFixed32, hlen, List.drop_left' (length_putFixed32 _), hload]

/-- The entry of a file whose table can be opened. -/
private theorem loadFile_of_open {f : FileMeta} (hkeys : f.KeysFit) {r : SSTableReader}
    (hopen : openTable (f.number % 2 ^ 64) = some (.ok r)) (rest : Bytes) :
    loadFile openTable (manifestFile f ++ rest) =
      some (.ok ({ f with number := f.number % 2 ^ 64, reader := r }, rest)) := by
  -- the number is written modulo `2 ^ 64`
  have hnum : (f.number.toUInt64).toNat = f.number % 2 ^ 64 := UInt64.toNat_ofNat'
  set keys := putLengthPrefixed f.smallest ++ (putLengthPrefixed f.largest ++ rest) with hkeys'
  have hbuf : manifestFile f ++ rest = putFixed64 f.number.toUInt64 ++
      (putFixed64 f.fileSize ++ (putFixed64 f.numEntries ++ keys)) := by
    simp [manifestFile, hkeys']
  have hdrop8 : (manifestFile f ++ rest).drop 8 =
      putFixed64 f.fileSize ++ (putFixed64 f.numEntries ++ keys) := by
    rw [hbuf, List.drop_left' (length_putFixed64 _)]
  have hdrop16 : (manifestFile f ++ rest).drop 16 = putFixed64 f.numEntries ++ keys := by
    rw [show 16 = 8 + 8 from rfl, ← List.drop_drop, hdrop8, List.drop_left' (length_putFixed64 _)]
  have hdrop24 : (manifestFile f ++ rest).drop 24 = keys := by
    rw [show 24 = 16 + 8 from rfl, ← List.drop_drop, hdrop16, List.drop_left' (length_putFixed64 _)]
  have hlen : ¬ (manifestFile f ++ rest).length < 24 := by
    rw [hbuf]
    simp only [List.length_append, length_putFixed64]
    omega
  have hfirst : decodeFixed64 (manifestFile f ++ rest) = some f.number.toUInt64 := by
    rw [hbuf, decodeFixed64_putFixed64]
  simp only [loadFile, if_neg hlen, hfirst, hdrop8, hdrop16, hdrop24, decodeFixed64_putFixed64,
    hkeys', loadKey_putLengthPrefixed hkeys.1, loadKey_putLengthPrefixed hkeys.2, hnum, hopen, bind,
    Option.bind, pure]

/-- An entry of the manifest is read back. -/
private theorem loadFile_manifestFile {f : FileMeta} (hnumber : f.number < 2 ^ 64)
    (hkeys : f.KeysFit) (hopen : openTable f.number = some (.ok f.reader)) (rest : Bytes) :
    loadFile openTable (manifestFile f ++ rest) = some (.ok (f, rest)) := by
  have hmod : f.number % 2 ^ 64 = f.number := Nat.mod_eq_of_lt hnumber
  rw [loadFile_of_open hkeys (by rw [hmod, hopen]), hmod]

/-- Entries that load one by one load as a whole. -/
private theorem loadFiles_map {files : List FileMeta} {g : FileMeta → FileMeta}
    (h : ∀ f ∈ files, ∀ rest, loadFile openTable (manifestFile f ++ rest) = some (.ok (g f, rest)))
    (rest : Bytes) :
    loadFiles openTable files.length (files.flatMap manifestFile ++ rest) =
      some (.ok (files.map g, rest)) := by
  induction files with
  | nil => rfl
  | cons f files ih =>
    have hrest := ih fun f hf => h f (List.mem_cons_of_mem _ hf)
    rw [List.length_cons, List.flatMap_cons, List.append_assoc, loadFiles,
      h f List.mem_cons_self]
    simp only [hrest, bind, Option.bind, pure, List.map_cons]

/-- The entries of a level are read back. -/
private theorem loadFiles_flatMap {files : List FileMeta} (hnumber : ∀ f ∈ files, f.number < 2 ^ 64)
    (hkeys : ∀ f ∈ files, f.KeysFit)
    (hopen : ∀ f ∈ files, openTable f.number = some (.ok f.reader)) (rest : Bytes) :
    loadFiles openTable files.length (files.flatMap manifestFile ++ rest) =
      some (.ok (files, rest)) := by
  have hmap := loadFiles_map (g := id) (fun f hf rest =>
    loadFile_manifestFile (hnumber f hf) (hkeys f hf) (hopen f hf) rest) rest
  rwa [List.map_id] at hmap

/-- The levels are read back. -/
private theorem loadLevels_flatMap {levels : List (List FileMeta)}
    (hlen : ∀ files ∈ levels, files.length < 2 ^ 32)
    (hnumber : ∀ f ∈ levels.flatten, f.number < 2 ^ 64) (hkeys : ∀ f ∈ levels.flatten, f.KeysFit)
    (hopen : ∀ f ∈ levels.flatten, openTable f.number = some (.ok f.reader)) :
    loadLevels openTable levels.length (levels.flatMap manifestLevel) = some (.ok levels) := by
  induction levels with
  | nil => rfl
  | cons files levels ih =>
    have hmem {f : FileMeta} (hf : f ∈ files) : f ∈ (files :: levels).flatten := by
      rw [List.flatten_cons]
      exact List.mem_append_left _ hf
    have hmem' {f : FileMeta} (hf : f ∈ levels.flatten) : f ∈ (files :: levels).flatten := by
      rw [List.flatten_cons]
      exact List.mem_append_right _ hf
    have hrest := ih (fun files hfiles => hlen files (List.mem_cons_of_mem _ hfiles))
      (fun f hf => hnumber f (hmem' hf)) (fun f hf => hkeys f (hmem' hf))
      fun f hf => hopen f (hmem' hf)
    -- the count of files fits its field
    have hcount : (files.length.toUInt32).toNat = files.length :=
      toNat_toUInt32_of_lt (hlen files List.mem_cons_self)
    have hfiles := @loadFiles_flatMap openTable files (fun f hf => hnumber f (hmem hf))
      (fun f hf => hkeys f (hmem hf)) (fun f hf => hopen f (hmem hf))
      (levels.flatMap manifestLevel)
    rw [List.length_cons, List.flatMap_cons, loadLevels, manifestLevel, List.append_assoc]
    have hshort : ¬ (putFixed32 files.length.toUInt32 ++
        (files.flatMap manifestFile ++ levels.flatMap manifestLevel)).length < 4 := by simp
    simp only [if_neg hshort, decodeFixed32_putFixed32, hcount,
      List.drop_left' (length_putFixed32 _), hfiles, hrest, bind, Option.bind, pure]

/-- The largest number is below every bound of the numbers. -/
private theorem foldl_max_lt {ns : List Nat} {next : Nat} (hns : ∀ n ∈ ns, n < next) {m : Nat}
    (hm : m < next) : ns.foldl max m < next := by
  induction ns generalizing m with
  | nil => exact hm
  | cons n ns ih =>
    apply ih fun n hn => hns n (List.mem_cons_of_mem _ hn)
    exact max_lt hm (hns n List.mem_cons_self)

/-- Behind the counter come the levels. -/
theorem drop_manifestBytes (next : Nat) (v : Version) : (manifestBytes next v).drop 8 =
    putFixed32 v.levels.length.toUInt32 ++ v.levels.flatMap manifestLevel := by
  rw [manifestBytes, List.append_assoc, List.drop_left' (length_putFixed64 _)]

/-- Every level takes at least the four bytes of its count. -/
theorem levels_le_length_manifestBytes (next : Nat) (v : Version) :
    12 + v.levels.length ≤ (manifestBytes next v).length := by
  have hlevels : v.levels.length ≤ (v.levels.flatMap manifestLevel).length := by
    have hsum := List.length_le_sum_of_one_le (v.levels.map fun level => (manifestLevel level).length)
      (by simp [manifestLevel, length_putFixed32]; omega)
    rwa [List.length_map, ← List.length_flatMap] at hsum
  simp only [manifestBytes, List.length_append, length_putFixed64, length_putFixed32]
  omega

/-- Loading undoes writing. -/
private theorem loadManifest_manifestBytes {v : Version} (hne : v.levels ≠ []) (hfits : v.Fits)
    (hkeys : ∀ f ∈ v.files, f.KeysFit) {next : Nat} (hnext : next < 2 ^ 64) (hpos : 0 < next)
    (hlt : ∀ f ∈ v.files, f.number < next)
    (hopen : ∀ f ∈ v.files, openTable f.number = some (.ok f.reader)) :
    loadManifest openTable (manifestBytes next v) = some (.ok (v, next)) := by
  have hlevels := @loadLevels_flatMap openTable v.levels hfits.files
    (fun f hf => (hlt f hf).trans hnext) hkeys hopen
  have hcount : (v.levels.length.toUInt32).toNat = v.levels.length :=
    toNat_toUInt32_of_lt hfits.levels
  have hnextnat : (next.toUInt64).toNat = next := toNat_toUInt64_of_lt hnext
  -- a count of zero would be replaced by one level
  have hnonzero : ¬ v.levels.length.toUInt32 = 0 := by
    intro hzero
    rw [hzero] at hcount
    exact hne (List.eq_nil_of_length_eq_zero hcount.symm)
  have hbuf : manifestBytes next v = putFixed64 next.toUInt64 ++
      (putFixed32 v.levels.length.toUInt32 ++ v.levels.flatMap manifestLevel) := by
    rw [manifestBytes, List.append_assoc]
  have hshort : ¬ (manifestBytes next v).length < 12 := by
    rw [hbuf]
    simp only [List.length_append, length_putFixed64, length_putFixed32]
    omega
  have hfirst : decodeFixed64 (manifestBytes next v) = some next.toUInt64 := by
    rw [hbuf, decodeFixed64_putFixed64]
  have hdrop8 := drop_manifestBytes next v
  have hdrop12 : (manifestBytes next v).drop 12 = v.levels.flatMap manifestLevel := by
    rw [show 12 = 8 + 4 from rfl, ← List.drop_drop, hdrop8, List.drop_left' (length_putFixed32 _)]
  -- every number is below the next one already
  have hmax : max next (((v.levels.flatten.map (·.number)).foldl max 0 + 1) % 2 ^ 64) = next := by
    have hbound : (v.levels.flatten.map (·.number)).foldl max 0 < next := by
      apply foldl_max_lt _ hpos
      intro n hn
      obtain ⟨f, hf, rfl⟩ := List.mem_map.mp hn
      exact hlt f hf
    rw [Nat.mod_eq_of_lt (by omega)]
    omega
  simp only [loadManifest, if_neg hshort, hfirst, hdrop8, hdrop12, decodeFixed32_putFixed32, hcount,
    hlevels, if_neg hnonzero, hnextnat, hmax, bind, Option.bind, pure]

/-! ## Truncated manifests -/

/-- A prefix of two parts ends within the first or has all of it. -/
private theorem prefix_append_cases {p a b : Bytes} (h : p <+: a ++ b) :
    p <+: a ∧ p.length < a.length ∨ ∃ p', p = a ++ p' ∧ p' <+: b := by
  by_cases hlt : p.length < a.length
  · exact .inl ⟨List.prefix_of_prefix_length_le h (List.prefix_append _ _) hlt.le, hlt⟩
  · obtain ⟨p', rfl⟩ := List.prefix_of_prefix_length_le (List.prefix_append a b) h (not_lt.mp hlt)
    exact .inr ⟨p', rfl, (List.prefix_append_right_inj a).mp h⟩

/-- `Corruption`, with some message. -/
private def Rejects (r : Option (Except Status α)) : Prop :=
  ∃ msg, r = some (.error (.corruption msg))

/-- A key that is cut off is rejected. -/
private theorem loadKey_truncated {s p : Bytes} (hs : s.length < 2 ^ 32)
    (hp : p <+: putLengthPrefixed s) (hlt : p.length < (putLengthPrefixed s).length)
    (short short2 : String) : Rejects (loadKey p short short2) := by
  rw [putLengthPrefixed] at hp hlt
  rcases prefix_append_cases hp with ⟨-, hcut⟩ | ⟨p', rfl, hp'⟩
  · -- within the length
    rw [length_putFixed32] at hcut
    exact ⟨short, by simp [loadKey, hcut]⟩
  · -- within the key
    have hlen : (s.length.toUInt32).toNat = s.length := toNat_toUInt32_of_lt hs
    have hcut : p'.length < s.length := by simpa using hlt
    exact ⟨short2, by simp [loadKey, decodeFixed32_putFixed32, hlen,
      List.drop_left' (length_putFixed32 _), hcut]⟩

/-- An entry that is cut off is rejected. -/
private theorem loadFile_truncated (openTable : Nat → Option (Except Status SSTableReader))
    {f : FileMeta} {p : Bytes} (hkeys : f.KeysFit) (hp : p <+: manifestFile f)
    (hlt : p.length < (manifestFile f).length) : Rejects (loadFile openTable p) := by
  set head := putFixed64 f.number.toUInt64 ++ putFixed64 f.fileSize ++ putFixed64 f.numEntries
    with hhead
  have hlen : head.length = 24 := by simp [hhead]
  have hfile : manifestFile f =
      head ++ (putLengthPrefixed f.smallest ++ putLengthPrefixed f.largest) := by
    rw [manifestFile, List.append_assoc]
  rw [hfile] at hp hlt
  rcases prefix_append_cases hp with ⟨-, hcut⟩ | ⟨p, rfl, htail⟩
  · -- within the three numbers
    rw [hlen] at hcut
    exact ⟨_, by rw [loadFile, if_pos hcut]; rfl⟩
  have hlong : ¬ (head ++ p).length < 24 := by
    rw [List.length_append, hlen]
    omega
  have hnumber : decodeFixed64 (head ++ p) = some f.number.toUInt64 := by
    rw [hhead, List.append_assoc, List.append_assoc, decodeFixed64_putFixed64]
  have hsize : decodeFixed64 ((head ++ p).drop 8) = some f.fileSize := by
    rw [hhead, List.append_assoc, List.append_assoc, List.drop_left' (length_putFixed64 _),
      decodeFixed64_putFixed64]
  have hentries : decodeFixed64 ((head ++ p).drop 16) = some f.numEntries := by
    rw [hhead, List.append_assoc, List.drop_left' (by simp), decodeFixed64_putFixed64]
  have hrest : (head ++ p).drop 24 = p := List.drop_left' hlen
  rcases prefix_append_cases htail with ⟨hp, hcut⟩ | ⟨p', rfl, hp'⟩
  · -- within the smallest key
    obtain ⟨msg, hkey⟩ := loadKey_truncated hkeys.1 hp hcut "manifest truncated (skey)"
      "manifest truncated (skey2)"
    exact ⟨msg, by simp only [loadFile, if_neg hlong, hnumber, hsize, hentries, hrest, hkey, bind,
      Option.bind, pure]⟩
  · -- within the largest
    have hcut : p'.length < (putLengthPrefixed f.largest).length := by
      simpa [hlen] using hlt
    obtain ⟨msg, hkey⟩ := loadKey_truncated hkeys.2 hp' hcut "manifest truncated (lkey)"
      "manifest truncated (lkey2)"
    exact ⟨msg, by simp only [loadFile, if_neg hlong, hnumber, hsize, hentries, hrest,
      loadKey_putLengthPrefixed hkeys.1, hkey, bind, Option.bind, pure]⟩

/-- The tables of the given files can be opened. -/
private def Openable (openTable : Nat → Option (Except Status SSTableReader))
    (files : List FileMeta) : Prop :=
  ∀ f ∈ files, ∃ r, openTable (f.number % 2 ^ 64) = some (.ok r)

/-- Whole entries, with more behind them. -/
private theorem loadFiles_of_openable {files : List FileMeta} (hkeys : ∀ f ∈ files, f.KeysFit)
    (hopen : Openable openTable files) (rest : Bytes) :
    ∃ loaded, loadFiles openTable files.length (files.flatMap manifestFile ++ rest) =
      some (.ok (loaded, rest)) := by
  have : Nonempty SSTableReader := ⟨{ base := [] }⟩
  choose! reader hreader using hopen
  exact ⟨_, loadFiles_map (fun f hf rest => loadFile_of_open (hkeys f hf) (hreader f hf) rest) rest⟩

/-- So is a level that is cut off within its entries. -/
private theorem loadFiles_truncated {files : List FileMeta} {p : Bytes}
    (hkeys : ∀ f ∈ files, f.KeysFit) (hopen : Openable openTable files)
    (hp : p <+: files.flatMap manifestFile) (hlt : p.length < (files.flatMap manifestFile).length) :
    Rejects (loadFiles openTable files.length p) := by
  induction files generalizing p with
  | nil => exact absurd hlt (by simp)
  | cons f files ih =>
    rw [List.flatMap_cons] at hp hlt
    rw [List.length_cons, loadFiles]
    rcases prefix_append_cases hp with ⟨hp, hcut⟩ | ⟨p', rfl, hp'⟩
    · obtain ⟨msg, hfile⟩ := loadFile_truncated openTable (hkeys f List.mem_cons_self) hp hcut
      exact ⟨msg, by simp only [hfile, bind, Option.bind, pure]⟩
    · -- the entry is complete, so the cut is in a later one
      obtain ⟨r, hr⟩ := hopen f List.mem_cons_self
      obtain ⟨msg, hfiles⟩ := ih (fun f hf => hkeys f (List.mem_cons_of_mem _ hf))
        (fun f hf => hopen f (List.mem_cons_of_mem _ hf)) hp' (by simpa using hlt)
      exact ⟨msg, by simp only [loadFile_of_open (hkeys f List.mem_cons_self) hr, hfiles, bind,
        Option.bind, pure]⟩

/-- So are levels that are cut off. -/
private theorem loadLevels_truncated {levels : List (List FileMeta)} {p : Bytes}
    (hlen : ∀ files ∈ levels, files.length < 2 ^ 32) (hkeys : ∀ f ∈ levels.flatten, f.KeysFit)
    (hopen : Openable openTable levels.flatten) (hp : p <+: levels.flatMap manifestLevel)
    (hlt : p.length < (levels.flatMap manifestLevel).length) :
    Rejects (loadLevels openTable levels.length p) := by
  induction levels generalizing p with
  | nil => exact absurd hlt (by simp)
  | cons files levels ih =>
    have hmem {f : FileMeta} (hf : f ∈ files) : f ∈ (files :: levels).flatten := by
      rw [List.flatten_cons]
      exact List.mem_append_left _ hf
    have hmem' {f : FileMeta} (hf : f ∈ levels.flatten) : f ∈ (files :: levels).flatten := by
      rw [List.flatten_cons]
      exact List.mem_append_right _ hf
    have hcount : (files.length.toUInt32).toNat = files.length :=
      toNat_toUInt32_of_lt (hlen files List.mem_cons_self)
    rw [List.flatMap_cons, manifestLevel, List.append_assoc] at hp hlt
    rw [List.length_cons, loadLevels]
    rcases prefix_append_cases hp with ⟨-, hcut⟩ | ⟨p, rfl, htail⟩
    · -- within the number of files
      rw [length_putFixed32] at hcut
      exact ⟨_, by rw [if_pos hcut]; rfl⟩
    have hlong : ¬ (putFixed32 files.length.toUInt32 ++ p).length < 4 := by simp
    have hcut : p.length <
        (files.flatMap manifestFile ++ levels.flatMap manifestLevel).length := by
      simpa using hlt
    rcases prefix_append_cases htail with ⟨hp, hcut⟩ | ⟨p', rfl, hp'⟩
    · -- within the files of this level
      obtain ⟨msg, hfiles⟩ := loadFiles_truncated (fun f hf => hkeys f (hmem hf))
        (fun f hf => hopen f (hmem hf)) hp hcut
      exact ⟨msg, by simp only [if_neg hlong, decodeFixed32_putFixed32, hcount,
        List.drop_left' (length_putFixed32 _), hfiles, bind, Option.bind, pure]⟩
    · -- in a deeper level
      obtain ⟨loaded, hfiles⟩ := loadFiles_of_openable (fun f hf => hkeys f (hmem hf))
        (fun f hf => hopen f (hmem hf)) p'
      obtain ⟨msg, hlevels⟩ := ih (fun files hfiles => hlen files (List.mem_cons_of_mem _ hfiles))
        (fun f hf => hkeys f (hmem' hf)) (fun f hf => hopen f (hmem' hf)) hp'
        (by simpa using hcut)
      exact ⟨msg, by simp only [if_neg hlong, decodeFixed32_putFixed32, hcount,
        List.drop_left' (length_putFixed32 _), hfiles, hlevels, bind, Option.bind, pure]⟩

/-- So is a manifest that is cut off anywhere. -/
private theorem rejects_loadManifest {v : Version} (hfits : v.Fits)
    (hkeys : ∀ f ∈ v.files, f.KeysFit) (hopen : Openable openTable v.files) {next : Nat}
    {buf : Bytes} (hbuf : buf <+: manifestBytes next v) (hne : buf ≠ manifestBytes next v) :
    Rejects (loadManifest openTable buf) := by
  have hlt : buf.length < (manifestBytes next v).length :=
    lt_of_le_of_ne hbuf.length_le fun h => hne (hbuf.eq_of_length h)
  rw [manifestBytes] at hbuf hlt
  rcases prefix_append_cases hbuf with ⟨-, hcut⟩ | ⟨p, rfl, hp⟩
  · -- within the header
    have hshort : buf.length < 12 := by simpa using hcut
    exact ⟨_, by rw [loadManifest, if_pos hshort]; rfl⟩
  set head := putFixed64 next.toUInt64 ++ putFixed32 v.levels.length.toUInt32 with hhead
  have hlen : head.length = 12 := by simp [hhead]
  have hlong : ¬ (head ++ p).length < 12 := by
    rw [List.length_append, hlen]
    omega
  have hnext : decodeFixed64 (head ++ p) = some next.toUInt64 := by
    rw [hhead, List.append_assoc, decodeFixed64_putFixed64]
  have hlevels : decodeFixed32 ((head ++ p).drop 8) = some v.levels.length.toUInt32 := by
    rw [hhead, List.append_assoc, List.drop_left' (length_putFixed64 _), decodeFixed32_putFixed32]
  have hcount : (v.levels.length.toUInt32).toNat = v.levels.length :=
    toNat_toUInt32_of_lt hfits.levels
  obtain ⟨msg, hload⟩ := loadLevels_truncated hfits.files hkeys hopen hp (by simpa using hlt)
  exact ⟨msg, by simp only [loadManifest, if_neg hlong, hnext, hlevels, hcount,
    List.drop_left' hlen, hload, bind, Option.bind, pure]⟩

end Load

/-! ## Loading from the directory -/

/-- The file of a table opens as its reader. -/
theorem openTableAt_eq (cfg : Config) {disk : Disk} {f : FileMeta} (hf : f.Wf)
    (hfile : disk.lookup (numberToName f.number) = some f.reader.base) :
    DB.openTableAt cfg disk f.number = some (.ok f.reader) := by
  obtain ⟨bitsPerKey, hfit, heq⟩ := hf.eq_tableMeta
  rw [DB.openTableAt, hfile]
  have hbase : f.reader.base = tableBytes kOutputBlockSize bitsPerKey f.entries :=
    congrArg (fun f => f.reader.base) heq
  have hreader : f.reader = tableReader kOutputBlockSize bitsPerKey f.entries f.number :=
    congrArg FileMeta.reader heq
  rw [hbase, hreader]
  exact open_tableBytes hfit _ _

/-- What `LoadManifest` finds in a directory whose manifest was written for a version, with the
    files of all its tables. -/
theorem loadVersion_manifest (cfg : Config) {disk : Disk} {v : Version} (hv : Layout v)
    (hfits : v.Fits) {next : Nat} (hnext : next < 2 ^ 64) (hpos : 0 < next)
    (hlt : ∀ f ∈ v.files, f.number < next)
    (hmanifest : disk.lookup manifestName = some (manifestBytes next v))
    (hfiles : ∀ f ∈ v.files, disk.lookup (numberToName f.number) = some f.reader.base) :
    DB.loadVersion cfg disk = some (.ok (some v, next)) := by
  have hload := @loadManifest_manifestBytes (DB.openTableAt cfg disk) v hv.ne_nil hfits
    (fun f hf => (hv.wf f hf).keysFit) next hnext hpos hlt
    fun f hf => openTableAt_eq cfg (hv.wf f hf) (hfiles f hf)
  simp only [DB.loadVersion, hmanifest, hload, bind, Option.bind, pure]

/-! ## The round trip -/

/-- What the manifest records of a file. -/
structure FileRecord where
  number : Nat
  fileSize : UInt64
  numEntries : UInt64
  smallest : Bytes
  largest : Bytes
  deriving DecidableEq

def FileMeta.record (f : FileMeta) : FileRecord :=
  ⟨f.number, f.fileSize, f.numEntries, f.smallest, f.largest⟩

/-- The levels of a version, with what the manifest records. -/
def Version.records (v : Version) : List (List FileRecord) := v.levels.map (·.map (·.record))

section Damage

variable {d : FileMeta → SSTableReader} {v : Version}

/-- The files with other readers. -/
private theorem mem_files_damage {f : FileMeta} :
    f ∈ (v.damage d).files ↔ ∃ g ∈ v.files, g.damage d = f := by
  rw [Version.files, Version.damage, ← List.map_flatten, List.mem_map, Version.files]

/-- The manifest does not depend on the readers. -/
private theorem manifestBytes_damage (next : Nat) :
    manifestBytes next (v.damage d) = manifestBytes next v := by
  have hlevel (files : List FileMeta) :
      manifestLevel (files.map (·.damage d)) = manifestLevel files := by
    rw [manifestLevel, manifestLevel, List.length_map, List.flatMap_map]
    rfl
  rw [manifestBytes, manifestBytes, Version.damage, List.length_map, List.flatMap_map]
  simp only [hlevel]

/-- The records are not those of the readers. -/
private theorem records_damage : (v.damage d).records = v.records := by
  rw [Version.records, Version.records, Version.damage, List.map_map]
  apply List.map_congr_left
  intro files _
  rw [Function.comp_apply, List.map_map]
  rfl

end Damage

/-- `WriteManifest` without failures: the manifest holds the version, the other files are as they
    were. -/
theorem eval_writeManifest (t : Thread) (w : World) (v : Version) :
    ∃ disk, (DB.writeManifest v).run.eval (exec t) .ok w = some (.ok (), { w with disk := disk }) ∧
      disk.lookup manifestName = some (manifestBytes w.nextFileNumber v) ∧
      ∀ name, name ≠ manifestName → name ≠ manifestTmpName →
        disk.lookup name = w.disk.lookup name := by
  set buf := manifestBytes w.nextFileNumber v with hbuf
  have hne : buf ≠ [] := by
    intro hnil
    have hlen := congrArg List.length hnil
    rw [hbuf, manifestBytes] at hlen
    simp at hlen
  -- the temporary file, before it is renamed
  set disk₁ := Disk.append (w.disk.insert manifestTmpName []) manifestTmpName buf with hdisk₁
  have htmp : disk₁.lookup manifestTmpName = some buf := by
    rw [hdisk₁, Disk.lookup_append_self (AList.lookup_insert _), List.nil_append]
  refine ⟨(disk₁.erase manifestTmpName).insert manifestName buf, ?_, AList.lookup_insert _, ?_⟩
  · simp only [DB.writeManifest, Prog.eval_bindE, DB.eval_check, DB.eval_call .loadFileNumber,
      DB.eval_call (.close _), DB.eval_callM (.openTrunc _), DB.eval_callM (.fsync _),
      DB.eval_callM (.rename _ _), exec, Option.map_some, Option.bind_some, ← hbuf,
      DB.eval_writeFully _ hne, ← hdisk₁, Disk.rename_eq htmp]
  · intro name hname htmpName
    rw [AList.lookup_insert_ne hname, AList.lookup_erase_ne htmpName, hdisk₁,
      Disk.lookup_append_ne htmpName, AList.lookup_insert_ne htmpName]

/-- `LoadManifest` restores what `WriteManifest` wrote: the same levels in the same order, with
    the same record of every file, and the same next file number. -/
theorem loadVersion_writeManifest (cfg : Config) (t : Thread) (w : World) (v : Version)
    (hne : v.levels ≠ []) (hlevels : v.levels.length < 2 ^ 32)
    (hfiles : ∀ files ∈ v.levels, files.length < 2 ^ 32)
    (hkeys : ∀ f ∈ v.files, f.smallest.length < 2 ^ 32 ∧ f.largest.length < 2 ^ 32)
    (hpos : 0 < w.nextFileNumber) (hnext : w.nextFileNumber < 2 ^ 64)
    (hlt : ∀ f ∈ v.files, f.number < w.nextFileNumber)
    (hopen : ∀ f ∈ v.files, ∃ r, DB.openTableAt cfg w.disk f.number = some (.ok r)) :
    ∃ w' v', (DB.writeManifest v).run.eval (exec t) .ok w = some (.ok (), w') ∧
      DB.loadVersion cfg w'.disk = some (.ok (some v', w.nextFileNumber)) ∧
      v'.records = v.records := by
  obtain ⟨disk, heval, hmanifest, hother⟩ := eval_writeManifest t w v
  -- the tables open as before
  have hopen' (n : Nat) : DB.openTableAt cfg disk n = DB.openTableAt cfg w.disk n := by
    rw [DB.openTableAt, DB.openTableAt, hother _ (numberToName_ne_manifestName n)
      (numberToName_ne_manifestTmpName n)]
  -- the version that is loaded has the readers that `Open` returns
  have hreader (f : FileMeta) :
      ∃ r, f ∈ v.files → DB.openTableAt cfg w.disk f.number = some (.ok r) := by
    by_cases hf : f ∈ v.files
    · exact (hopen f hf).imp fun r hr _ => hr
    · exact ⟨f.reader, fun h => absurd h hf⟩
  choose reopen hreopen using hreader
  have hload := @loadManifest_manifestBytes (DB.openTableAt cfg disk) (v.damage reopen)
    (by simpa [Version.damage] using hne) ⟨by simpa [Version.damage] using hlevels, ?_⟩ ?_
    w.nextFileNumber hnext hpos ?_ ?_
  · refine ⟨{ w with disk := disk }, v.damage reopen, heval, ?_, records_damage⟩
    rw [manifestBytes_damage] at hload
    simp only [DB.loadVersion, hmanifest, hload, bind, Option.bind, pure]
  · intro files hmem
    obtain ⟨files', hfiles', rfl⟩ := List.mem_map.mp hmem
    rw [List.length_map]
    exact hfiles files' hfiles'
  · intro f hf
    obtain ⟨g, hg, rfl⟩ := mem_files_damage.mp hf
    exact hkeys g hg
  · intro f hf
    obtain ⟨g, hg, rfl⟩ := mem_files_damage.mp hf
    exact hlt g hg
  · intro f hf
    obtain ⟨g, hg, rfl⟩ := mem_files_damage.mp hf
    rw [hopen']
    exact hreopen g hg

/-- A table of one record, as file 3. -/
def oneTable : FileMeta := tableMeta 10 [⟨[1], [2], .value⟩] 3

/-- The table of the example is well-formed. -/
private theorem wf_oneTable : oneTable.Wf := by
  have htable : IsTable oneTable [⟨[1], [2], .value⟩] :=
    isTable_tableMeta (by simp) (by decide)
      ⟨by decide +kernel, by decide +kernel, by decide +kernel⟩ 3
  exact htable.wf

/-- A directory that holds the file of the table, with 7 as the next file number. -/
def oneTableWorld : World where
  disk := AList.insert (numberToName 3) oneTable.reader.base ∅
  mem := SkipList.new fun _ => ⟨0, SkipList.kMaxLevel_pos⟩
  cache := none
  nextFileNumber := 7

/-- An empty L0 over the table: both levels come back. -/
theorem loadVersion_writeManifest_two_levels :
    ∃ w' v', (DB.writeManifest ⟨[[], [oneTable]]⟩).run.eval (exec .client) .ok oneTableWorld =
        some (.ok (), w') ∧
      DB.loadVersion ⟨{}, "db", fun _ => ⟨0, by decide⟩⟩ w'.disk = some (.ok (some v', 7)) ∧
      v'.records = [[], [oneTable.record]] := by
  have hfiles : (⟨[[], [oneTable]]⟩ : Version).files = [oneTable] := rfl
  refine loadVersion_writeManifest ⟨{}, "db", fun _ => ⟨0, by decide⟩⟩ .client oneTableWorld
    ⟨[[], [oneTable]]⟩ (by simp) (by simp) (by simp) ?_ (by decide) (by decide) ?_ ?_
  · rw [hfiles]
    exact List.forall_mem_singleton.mpr wf_oneTable.keysFit
  · rw [hfiles]
    exact List.forall_mem_singleton.mpr (by decide : 3 < 7)
  · rw [hfiles]
    refine List.forall_mem_singleton.mpr ⟨oneTable.reader, ?_⟩
    exact openTableAt_eq _ wf_oneTable (AList.lookup_insert _)

/-! ## A truncated manifest in the directory -/

/-- `LoadManifest` never accepts a truncated manifest, and `Recover` then returns its `Corruption`
    with the version, the next file number and everything else as they were. -/
theorem truncated_manifest_rejected (cfg : Config) (v : Version) (next : Nat) (w : World)
    (buf : Bytes) (hlevels : v.levels.length < 2 ^ 32)
    (hfiles : ∀ files ∈ v.levels, files.length < 2 ^ 32)
    (hkeys : ∀ f ∈ v.files, f.smallest.length < 2 ^ 32 ∧ f.largest.length < 2 ^ 32)
    (hopen : ∀ f ∈ v.files, ∃ r, DB.openTableAt cfg w.disk (f.number % 2 ^ 64) = some (.ok r))
    (hbuf : buf <+: manifestBytes next v) (hne : buf ≠ manifestBytes next v) :
    ∃ msg, loadManifest (DB.openTableAt cfg w.disk) buf = some (.error (.corruption msg)) ∧
      (w.disk.lookup manifestName = some buf → ∀ t ok res w',
        Prog.Runs (exec t) ok (DB.recover cfg).run w res w' →
          res = .error (.corruption msg) ∧ w' = w) := by
  obtain ⟨msg, hload⟩ := rejects_loadManifest ⟨hlevels, hfiles⟩ hkeys hopen hbuf hne
  refine ⟨msg, hload, fun hmanifest t ok res w' hrun => ?_⟩
  have hversion : DB.loadVersion cfg w.disk = some (.error (.corruption msg)) := by
    simp only [DB.loadVersion, hmanifest, hload, bind, Option.bind, pure]
  rw [DB.recover] at hrun
  -- the recovery reads the directory and stops there, before it has changed anything
  cases hrun with
  | call hok hexec hrest =>
    cases hexec
    change Prog.Runs _ _ ((DB.defined (DB.loadVersion cfg w.disk) >>= _ : DBE Unit).run) _ _ _ at hrest
    rw [hversion] at hrest
    change Prog.Runs _ _ (Prog.ret (Except.error (Status.corruption msg))) _ _ _ at hrest
    cases hrest
    exact ⟨rfl, rfl⟩

/-- The manifest of two levels, cut after the first. -/
theorem truncated_manifest_one_level :
    let cfg : Config := ⟨{}, "db", fun _ => ⟨0, by decide⟩⟩
    let buf := (manifestBytes 7 ⟨[[], [oneTable]]⟩).take 16
    let w := { oneTableWorld with disk := oneTableWorld.disk.insert manifestName buf }
    ∃ msg, loadManifest (DB.openTableAt cfg w.disk) buf = some (.error (.corruption msg)) ∧
      ∀ t ok res w', Prog.Runs (exec t) ok (DB.recover cfg).run w res w' →
        res = .error (.corruption msg) ∧ w' = w := by
  intro cfg buf w
  have hfiles : (⟨[[], [oneTable]]⟩ : Version).files = [oneTable] := rfl
  -- the table that the manifest names can be opened
  have hopen : DB.openTableAt cfg w.disk oneTable.number = some (.ok oneTable.reader) := by
    apply openTableAt_eq _ wf_oneTable
    rw [AList.lookup_insert_ne (numberToName_ne_manifestName _)]
    exact AList.lookup_insert _
  have hcut : buf ≠ manifestBytes 7 ⟨[[], [oneTable]]⟩ := by
    intro heq
    exact absurd (congrArg List.length heq) (by decide +kernel)
  obtain ⟨msg, hload, hrecover⟩ := truncated_manifest_rejected cfg ⟨[[], [oneTable]]⟩ 7 w buf
    (by simp) (by simp) (by rw [hfiles]; exact List.forall_mem_singleton.mpr wf_oneTable.keysFit)
    (by rw [hfiles]; exact List.forall_mem_singleton.mpr ⟨_, hopen⟩) (List.take_prefix _ _) hcut
  exact ⟨msg, hload, hrecover (AList.lookup_insert _)⟩

end Lsmdb
