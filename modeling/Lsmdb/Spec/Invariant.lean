import Lsmdb.Spec.LookupCorrect
import Lsmdb.Spec.ManifestCorrect
import Lsmdb.Spec.WalCorrect

/-!
# What the two threads keep

The invariant of a running database and the contract between the thread that calls the
public functions and the compaction thread (`protocol`). `Inv` has three parts:

* the directory (`Stored`): the manifest describes a version whose files are all there,
  and the log, replayed over it, gives what the client has stored,
* the process: the memtable over the current version stands for the same store,
* the file numbers: those a thread has taken and not yet installed are its own, and no
  table has them.

The parts that are not members of any object are kept in a `Ghost`. What a thread
leaves alone for the other is `Frame`, `Keeps`.
-/

namespace Lsmdb

/-! ## The state -/

/-- What only the thread of the client changes. -/
structure Session where
  /-- The records of the memtable. -/
  records : List Entry
  /-- The records of the log, up to its last whole frame. -/
  logged : List Entry
  /-- What the log holds behind them. -/
  tail : Bytes
  /-- The record that `tail` is the beginning of. -/
  torn : Option Entry
  /-- What `Get` answers. -/
  store : Store
  /-- What it answered when the last call had returned. -/
  acked : Store
  /-- The write that has not returned. -/
  pending : Option Entry
  /-- Every append has found a log of whole frames. -/
  sound : Bool
  /-- How many tables flushes have installed. -/
  flushes : Nat

structure Ghost where
  /-- The version that the manifest describes, and the file number in it. -/
  saved : Version
  savedNext : Nat
  /-- The numbers that a thread has taken for tables it is writing. -/
  owned : Thread → Finset Nat
  /-- The tables that have been part of a version, by number. -/
  tables : Nat → Option FileMeta
  session : Session
  /-- File-system calls may fail, those that append to the log apart. -/
  faults : Bool
  /-- The calls that append to the log may fail. -/
  logFaults : Bool

/-- Some call may fail. -/
def Ghost.Faulty (g : Ghost) : Prop := g.faults = true ∨ g.logFaults = true

/-- What is stored is what was stored before the call that is running, with or without its write;
    a tail of the log belongs to that write. -/
structure Session.Ok (x : Session) : Prop where
  store : x.store = x.acked ∨ ∃ e, x.pending = some e ∧ x.store = x.acked.apply e
  tail : x.sound = true → x.tail = [] ∨
    x.store = x.acked ∧ ∃ e, x.pending = some e ∧ x.torn = some e

/-- The log of a directory. -/
def Disk.log (disk : Disk) : Bytes := (disk.lookup walName).getD []

/-- The log, over the version of the manifest, gives what is stored. -/
structure Logged (x : Session) (saved : Version) (disk : Disk) : Prop where
  fits : ∀ e ∈ x.logged, e.WalFits
  file : disk.log = walFrames x.logged ++ x.tail
  torn : x.tail = [] ∨ ∃ e, x.torn = some e ∧ e.WalFits ∧ x.tail <+: walFrame e
  replay : (liveIn saved.tables).applyAll x.logged = x.store

/-- What is right about the directory at any moment, with or without a process. -/
structure Stored (g : Ghost) (disk : Disk) : Prop where
  layout : Layout g.saved
  fits : g.saved.Fits
  savedNext_pos : 0 < g.savedNext
  savedNext_lt : g.savedNext < 2 ^ 64
  saved_lt : ∀ f ∈ g.saved.files, f.number < g.savedNext
  manifest : disk.lookup manifestName = some (manifestBytes g.savedNext g.saved) ∨
    disk.lookup manifestName = none ∧ g.saved = ⟨[[]]⟩ ∧ g.savedNext = 1
  saved_files : ∀ f ∈ g.saved.files, disk.lookup (numberToName f.number) = some f.reader.base
  logged : g.session.sound = true → Logged g.session g.saved disk

/-- What is right about a running database at any moment. -/
structure Inv (g : Ghost) (w : World) : Prop where
  stored : Stored g w.disk
  layout : Layout w.current
  fits : w.current.Fits
  next_lt : w.nextFileNumber < 2 ^ 64
  savedNext_le : g.savedNext ≤ w.nextFileNumber
  current_files : ∀ f ∈ w.current.files, w.disk.lookup (numberToName f.number) = some f.reader.base
  current_tables : ∀ f ∈ w.current.files, g.tables f.number = some f
  saved_tables : ∀ f ∈ g.saved.files, g.tables f.number = some f
  tables_lt : ∀ n f, g.tables n = some f → n < w.nextFileNumber
  owned_lt : ∀ t, ∀ n ∈ g.owned t, n < w.nextFileNumber
  owned_new : ∀ t, ∀ n ∈ g.owned t, g.tables n = none
  owned_disjoint : Disjoint (g.owned .client) (g.owned .background)
  /-- The number of a flush is above those of L0. -/
  l0_lt : ∀ n ∈ g.owned .client, ∀ f ∈ w.current.level 0, f.number < n
  session : g.session.Ok
  mem : w.mem.Holds g.session.records
  live : liveIn (g.session.records :: w.current.tables) = g.session.store
  /-- The manifest misses nothing that is not in the memtable. -/
  behind : ∀ k, (∀ e ∈ g.session.records, e.key ≠ k) →
    liveIn g.saved.tables k = g.session.store k
  cache : CacheHolds g.tables w.cache
  keys : g.session.sound = true →
    ∀ e ∈ g.session.records, e.key ∈ g.session.logged.map Entry.key
  wal : w.walOpen = true → ∃ file, w.disk.lookup walName = some file

/-! ## The contract -/

def Thread.other : Thread → Thread
  | client => background
  | background => client

/-- The current version is the given one with the tables of the flushes since then. -/
def Since (v : Version) (flushes : Nat) (g : Ghost) (w : World) : Prop :=
  ∃ files : List FileMeta, w.current = files.foldl DB.pushL0 v ∧
    g.session.flushes = flushes + files.length

/-- No flush yet. -/
theorem Since.refl (g : Ghost) (w : World) : Since w.current g.session.flushes g w :=
  ⟨[], rfl, rfl⟩

/-- Flushes one after the other. -/
theorem Since.trans {v : Version} {n : Nat} {g g' : Ghost} {w w' : World} (h : Since v n g w)
    (h' : Since w.current g.session.flushes g' w') : Since v n g' w' := by
  obtain ⟨files, hcurrent, hcount⟩ := h
  obtain ⟨files', hcurrent', hcount'⟩ := h'
  refine ⟨files ++ files', ?_, ?_⟩
  · rw [hcurrent', hcurrent, List.foldl_append]
  · rw [hcount', hcount, List.length_append, Nat.add_assoc]

/-- A version that was only flushed to has grown. -/
theorem Since.grown {v : Version} {n : Nat} {g : Ghost} {w : World} (h : Since v n g w) :
    Grown v w.current :=
  h.imp fun _ hfiles => hfiles.1

/-- What the steps of the other thread leave alone. -/
structure Frame (t : Thread) (g : Ghost) (w : World) (g' : Ghost) (w' : World) : Prop where
  owned : g'.owned t = g.owned t
  files : ∀ n ∈ g.owned t, w'.disk.lookup (numberToName n) = w.disk.lookup (numberToName n)
  -- numbers and tables are only added
  next_le : w.nextFileNumber ≤ w'.nextFileNumber
  tables : ∀ n f, g.tables n = some f → g'.tables n = some f
  -- a fault that has occurred is not forgotten
  faults : g'.faults = false → g.faults = false
  logFaults : g'.logFaults = false → g.logFaults = false
  -- under the mutex of the thread the version stands still
  locked : w.mutex = some t → w'.mutex = some t ∧ w'.current = w.current ∧
    w'.nextFileNumber = w.nextFileNumber ∧ g'.saved = g.saved ∧
    w'.disk.lookup manifestTmpName = w.disk.lookup manifestTmpName
  unlocked : w.mutex ≠ some t → w'.mutex ≠ some t
  -- what belongs to the client alone
  client : t = .client → g'.session = g.session ∧ w'.mem = w.mem ∧ w'.cache = w.cache ∧
    w'.walOpen = w.walOpen ∧ w'.disk.lookup walName = w.disk.lookup walName
  -- the version changes by flushes only while the background thread works
  background : t = .background → Since w.current g.session.flushes g' w'

/-- A step that does nothing. -/
theorem Frame.refl (t : Thread) (g : Ghost) (w : World) : Frame t g w g w where
  owned := rfl
  files _ _ := rfl
  next_le := le_rfl
  tables _ _ h := h
  faults h := h
  logFaults h := h
  locked h := ⟨h, rfl, rfl, rfl, rfl⟩
  unlocked h := h
  client _ := ⟨rfl, rfl, rfl, rfl, rfl⟩
  background _ := .refl g w

/-- Steps one after the other. -/
theorem Frame.trans {t : Thread} {g₁ g₂ g₃ : Ghost} {w₁ w₂ w₃ : World} (h : Frame t g₁ w₁ g₂ w₂)
    (h' : Frame t g₂ w₂ g₃ w₃) : Frame t g₁ w₁ g₃ w₃ where
  owned := h'.owned.trans h.owned
  files n hn := (h'.files n (h.owned ▸ hn)).trans (h.files n hn)
  next_le := h.next_le.trans h'.next_le
  tables n f hf := h'.tables n f (h.tables n f hf)
  faults hf := h.faults (h'.faults hf)
  logFaults hf := h.logFaults (h'.logFaults hf)
  locked hm := by
    obtain ⟨hm₂, hc₂, hn₂, hs₂, ht₂⟩ := h.locked hm
    obtain ⟨hm₃, hc₃, hn₃, hs₃, ht₃⟩ := h'.locked hm₂
    exact ⟨hm₃, hc₃.trans hc₂, hn₃.trans hn₂, hs₃.trans hs₂, ht₃.trans ht₂⟩
  unlocked hm := h'.unlocked (h.unlocked hm)
  client ht := by
    obtain ⟨hs₂, hm₂, hc₂, ho₂, hw₂⟩ := h.client ht
    obtain ⟨hs₃, hm₃, hc₃, ho₃, hw₃⟩ := h'.client ht
    exact ⟨hs₃.trans hs₂, hm₃.trans hm₂, hc₃.trans hc₂, ho₃.trans ho₂, hw₃.trans hw₂⟩
  background ht := (h.background ht).trans (h'.background ht)

/-- What a thread keeps for the other one. Whether calls may fail, and what the running call is, is
    not up to it. -/
structure Keeps (t : Thread) (g : Ghost) (w : World) (g' : Ghost) (w' : World) : Prop
    extends Frame t g w g' w' where
  faults_eq : g'.faults = g.faults
  logFaults_eq : g'.logFaults = g.logFaults
  acked_eq : g'.session.acked = g.session.acked
  pending_eq : g'.session.pending = g.session.pending
  sound_eq : g'.session.sound = g.session.sound

/-- A step that does nothing. -/
theorem Keeps.refl (t : Thread) (g : Ghost) (w : World) : Keeps t g w g w :=
  ⟨Frame.refl t g w, rfl, rfl, rfl, rfl, rfl⟩

/-- The sizes of what a run stores fit the fields of the formats, and it does not run out of file
    numbers. -/
def Call.Fits (w : World) : Call → Prop
  | tableDone bitsPerKey es => TableFits kOutputBlockSize bitsPerKey es
  | takeFileNumber => w.nextFileNumber + 1 < 2 ^ 64
  | storeCurrent v => v.Fits
  | _ => True

instance (w : World) (c : Call) : Decidable (c.Fits w) := by
  cases c <;> unfold Call.Fits <;> infer_instance

/-- The failures that may happen. The blocks of an input can become unreadable, no more. -/
def Call.MayFail (faults logFaults : Bool) : Call → Choice → Prop
  | write name _, .fail _ | fsync name, .fail _ =>
    if name = walName then logFaults = true else faults = true
  | mapInputs readers, .inputs readers' =>
    faults = true ∧ List.Forall₂ SSTableReader.Damaged readers readers'
  | _, .fail _ => faults = true
  | _, _ => True

/-- What holds whenever a thread makes a call. While a record is appended to the log, the write
    is not in effect yet. -/
def Call.Demand (t : Thread) (g : Ghost) (w : World) : Call → Prop
  | lock => w.mutex ≠ some t
  | unlock => w.mutex = some t
  | loadWal => g.session.store = g.session.acked
  | write name _ | fsync name => name = walName → g.session.store = g.session.acked
  | openTrunc name | unlink name => ∀ n, name = numberToName n →
    (∀ f ∈ w.current.files, f.number ≠ n) ∧ ∀ f ∈ g.saved.files, f.number ≠ n
  | _ => True

/-- The contract of a thread with the other one. -/
def protocol (t : Thread) : Contract Call Choice Ghost World where
  inv := Inv
  rely := Frame t
  guar := Keeps t.other
  allow c ch g w := c.Fits w ∧ c.MayFail g.faults g.logFaults ch
  demand c g w := c.Demand t g w
  rely_refl := Frame.refl t
  rely_trans := Frame.trans

/-! ## Calls that change nothing -/

/-- A call that changes nothing keeps every promise. -/
theorem triple_quiet {t : Thread} {guar : Ghost → World → Ghost → World → Prop}
    (hguar : ∀ g w, guar g w g w) {c : Call} {P : Ghost → World → Prop}
    {Q : c.Res → Ghost → World → Prop} (hP : Prog.Stable (protocol t) P)
    (hdemand : ∀ g w, Inv g w → P g w → c.Demand t g w)
    (h : ∀ g w ch r w', Inv g w → P g w → c.MayFail g.faults g.logFaults ch → c.Fits w →
      exec t c ch w = some (r, w') → w' = w ∧ Q r g w) :
    Prog.Triple (exec t) ((protocol t).withGuar guar) P (Prog.lift c) Q := by
  apply Prog.Triple.lift (K := (protocol t).withGuar guar) hP hdemand
  intro g w hi hPg ch r w' hallow hexec
  obtain ⟨rfl, hQ⟩ := h g w ch r w' hi hPg hallow.2 hallow.1 hexec
  exact ⟨g, hguar g w', hi, hQ⟩

/-! ## Changes to files that nothing refers to -/

/-- The files that the stored state depends on. -/
theorem Stored.congr {g : Ghost} {disk disk' : Disk} (h : Stored g disk)
    (hmanifest : disk'.lookup manifestName = disk.lookup manifestName)
    (hwal : disk'.lookup walName = disk.lookup walName)
    (hfiles : ∀ f ∈ g.saved.files,
      disk'.lookup (numberToName f.number) = disk.lookup (numberToName f.number)) :
    Stored g disk' where
  layout := h.layout
  fits := h.fits
  savedNext_pos := h.savedNext_pos
  savedNext_lt := h.savedNext_lt
  saved_lt := h.saved_lt
  manifest := by rw [hmanifest]; exact h.manifest
  saved_files f hf := (hfiles f hf).trans (h.saved_files f hf)
  logged hs := by
    have hl := h.logged hs
    exact ⟨hl.fits, by rw [Disk.log, hwal]; exact hl.file, hl.torn, hl.replay⟩

/-- An empty log is as good as none. -/
theorem Stored.createLog {g : Ghost} {disk : Disk} (h : Stored g disk) (hmissing : walName ∉ disk) :
    Stored g (disk.insert walName []) := by
  have hdisk (name : String) (hname : name ≠ walName) :
      (disk.insert walName []).lookup name = disk.lookup name := AList.lookup_insert_ne hname
  refine { h with
    manifest := ?manifest
    saved_files := fun f hf => (hdisk _ (numberToName_ne_walName _)).trans (h.saved_files f hf)
    logged := fun hs => ?logged }
  case manifest =>
    rw [hdisk _ (by decide)]
    exact h.manifest
  case logged =>
    -- a missing log stands for an empty one, so the records are the same
    have hl := h.logged hs
    have hfile := hl.file
    rw [Disk.log, AList.lookup_eq_none.mpr hmissing] at hfile
    refine ⟨hl.fits, ?_, hl.torn, hl.replay⟩
    rw [Disk.log, AList.lookup_insert, ← hfile]
    rfl

/-- A number that a thread has taken is not yet one of the version. -/
theorem Inv.number_ne_current {g : Ghost} {w : World} (h : Inv g w) {t : Thread} {n : Nat}
    (hn : n ∈ g.owned t) {f : FileMeta} (hf : f ∈ w.current.files) : f.number ≠ n := by
  rintro rfl
  have hnone := h.owned_new t _ hn
  rw [h.current_tables f hf] at hnone
  cases hnone

/-- Nor one of the manifest. -/
theorem Inv.number_ne_saved {g : Ghost} {w : World} (h : Inv g w) {t : Thread} {n : Nat}
    (hn : n ∈ g.owned t) {f : FileMeta} (hf : f ∈ g.saved.files) : f.number ≠ n := by
  rintro rfl
  have hnone := h.owned_new t _ hn
  rw [h.saved_tables f hf] at hnone
  cases hnone

/-- The files that the invariant depends on. -/
theorem Inv.congr {g : Ghost} {w : World} {disk : Disk} (h : Inv g w)
    (hmanifest : disk.lookup manifestName = w.disk.lookup manifestName)
    (hwal : disk.lookup walName = w.disk.lookup walName)
    (hsaved : ∀ f ∈ g.saved.files,
      disk.lookup (numberToName f.number) = w.disk.lookup (numberToName f.number))
    (hcurrent : ∀ f ∈ w.current.files,
      disk.lookup (numberToName f.number) = w.disk.lookup (numberToName f.number)) :
    Inv g { w with disk := disk } := by
  refine { h with
    stored := h.stored.congr hmanifest hwal hsaved
    current_files := fun f hf => (hcurrent f hf).trans (h.current_files f hf)
    wal := fun hopen => ?_ }
  show ∃ file, disk.lookup walName = some file
  rw [hwal]
  exact h.wal hopen

/-- The tables that a thread is writing and the temporary manifest can change. -/
theorem Inv.scratch {g : Ghost} {w : World} {disk : Disk} (h : Inv g w)
    (hdisk : ∀ name, (∀ t, ∀ n ∈ g.owned t, name ≠ numberToName n) → name ≠ manifestTmpName →
      disk.lookup name = w.disk.lookup name) : Inv g { w with disk := disk } := by
  apply h.congr
  · exact hdisk _ (fun t n _ => (numberToName_ne_manifestName n).symm) (by decide)
  · exact hdisk _ (fun t n _ => (numberToName_ne_walName n).symm) (by decide)
  · intro f hf
    apply hdisk _ _ (numberToName_ne_manifestTmpName _)
    exact fun t n hn heq => h.number_ne_saved hn hf (numberToName_injective heq)
  · intro f hf
    apply hdisk _ _ (numberToName_ne_manifestTmpName _)
    exact fun t n hn heq => h.number_ne_current hn hf (numberToName_injective heq)

/-- The mutex is not part of the invariant. -/
theorem Inv.mutex {g : Ghost} {w : World} (h : Inv g w) (mutex : Option Thread) :
    Inv g { w with mutex := mutex } :=
  { h with }

/-- The log gives what is stored over any version that gives it under the memtable, since it has
    every key of the memtable. -/
theorem Inv.replay_current {g : Ghost} {w : World} (h : Inv g w) (hs : g.session.sound = true) :
    (liveIn w.current.tables).applyAll g.session.logged = g.session.store := by
  have hl := h.stored.logged hs
  funext k
  by_cases hk : k ∈ g.session.logged.map Entry.key
  · -- the last write to the key is in the log
    rw [← hl.replay]
    exact Store.applyAll_of_mem _ _ hk
  · -- the key is neither in the log nor in the memtable
    rw [Store.applyAll_of_not_mem _ hk, ← h.live, liveIn, liveIn, newest_cons]
    have hnone : SortedMap.find Entry.key k g.session.records = none := by
      rw [SortedMap.find_eq_none_iff]
      rintro e he rfl
      exact hk (h.keys hs e he)
    rw [hnone, Option.none_or]

end Lsmdb
