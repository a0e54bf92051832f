import Lsmdb.Spec.Invariant

/-!
# Building a table

A flush and a compaction build their tables alike: take a number under the lock, write
the file of that name, open it again. Until the table is installed no other thread can
tell: the steps of a thread on the way are `Private`, so whatever the thread knows
besides survives them (`Prog.TripleE.frame`).

`Holding` says which finished tables a thread holds, `Writing` that it is in the middle
of one more.
-/

namespace Lsmdb

open Prog

/-- A step that changes nothing but the tables the thread is writing, the file numbers and the
    mutex. -/
structure Private (t : Thread) (g : Ghost) (w : World) (g' : Ghost) (w' : World) : Prop where
  ghost : ∃ owned, g' = { g with owned := Function.update g.owned t owned }
  world : ∃ disk next mutex,
    w' = { w with disk := disk, nextFileNumber := next, mutex := mutex }
  disk : ∀ name, (∀ n ∈ g'.owned t, name ≠ numberToName n) →
    w'.disk.lookup name = w.disk.lookup name
  next_le : w.nextFileNumber ≤ w'.nextFileNumber
  locked : w.mutex = some t.other →
    w'.mutex = some t.other ∧ w'.nextFileNumber = w.nextFileNumber
  unlocked : w.mutex ≠ some t.other → w'.mutex ≠ some t.other

/-- The two threads are different. -/
theorem Thread.other_ne (t : Thread) : t.other ≠ t := by cases t <;> decide

/-- Doing nothing is private. -/
theorem Private.refl (t : Thread) (g : Ghost) (w : World) : Private t g w g w where
  ghost := ⟨g.owned t, by rw [Function.update_eq_self]⟩
  world := ⟨_, _, _, rfl⟩
  disk _ _ := rfl
  next_le := le_rfl
  locked h := ⟨h, rfl⟩
  unlocked h := h

/-- The threads own different numbers. -/
theorem Inv.owned_ne {g : Ghost} {w : World} (h : Inv g w) {t : Thread} {n m : Nat}
    (hn : n ∈ g.owned t) (hm : m ∈ g.owned t.other) : n ≠ m := by
  rintro rfl
  cases t with
  | client => exact Finset.disjoint_left.mp h.owned_disjoint hn hm
  | background => exact Finset.disjoint_left.mp h.owned_disjoint hm hn

/-- Private steps are none of the other thread's business. -/
theorem Private.keeps {t : Thread} {g g' : Ghost} {w w' : World} (h : Private t g w g' w')
    (hi : Inv g' w') : Keeps t.other g w g' w' := by
  obtain ⟨owned, hg⟩ := h.ghost
  obtain ⟨disk, next, mutex, hw⟩ := h.world
  have howned : g'.owned t.other = g.owned t.other := by
    rw [hg]
    exact Function.update_of_ne t.other_ne _ _
  -- a private step touches the tables of the thread only, so neither the log nor the manifest
  have hother {name : String} (hname : ∀ n, name ≠ numberToName n) :
      w'.disk.lookup name = w.disk.lookup name := h.disk name fun n _ => hname n
  refine ⟨?frame, by rw [hg], by rw [hg], by rw [hg], by rw [hg], by rw [hg]⟩
  constructor
  case owned => exact howned
  case files =>
    intro n hn
    apply h.disk
    intro m hm heq
    exact hi.owned_ne hm (howned ▸ hn) (numberToName_injective heq).symm
  case next_le => exact h.next_le
  case tables =>
    rw [hg]
    exact fun n f hf => hf
  case faults =>
    rw [hg]
    exact fun hf => hf
  case logFaults =>
    rw [hg]
    exact fun hf => hf
  case locked =>
    intro hm
    obtain ⟨hm', hnext⟩ := h.locked hm
    refine ⟨hm', by rw [hw], hnext, by rw [hg], hother ?_⟩
    exact fun n => (numberToName_ne_manifestTmpName n).symm
  case unlocked => exact h.unlocked
  case client =>
    intro _
    refine ⟨by rw [hg], by rw [hw], by rw [hw], by rw [hw], hother ?_⟩
    exact fun n => (numberToName_ne_walName n).symm
  case background =>
    intro _
    subst hg hw
    exact .refl g w

/-- The contract of a thread that builds tables. -/
def building (t : Thread) : Contract Call Choice Ghost World :=
  (protocol t).withGuar (Private t)

variable {t : Thread}

/-! ## Tables in the making -/

/-- Finished tables that are not installed yet. -/
structure Holding (t : Thread) (done : List FileMeta) (g : Ghost) (w : World) : Prop where
  owned : ∀ f ∈ done, f.number ∈ g.owned t
  files : ∀ f ∈ done, w.disk.lookup (numberToName f.number) = some f.reader.base

/-- A number for one more table. -/
structure Taken (t : Thread) (done : List FileMeta) (n : Nat) (g : Ghost) (w : World) : Prop
    extends Holding t done g w where
  mem : n ∈ g.owned t
  new : ∀ f ∈ done, f.number ≠ n

/-- One more table, of which some bytes are written. -/
structure Writing (t : Thread) (done : List FileMeta) (n : Nat) (file : Bytes) (g : Ghost)
    (w : World) : Prop extends Taken t done n g w where
  unlocked : w.mutex ≠ some t
  file_eq : w.disk.lookup (numberToName n) = some file

/-- The other thread leaves the finished tables alone. -/
theorem Holding.frame {done : List FileMeta} {g g' : Ghost} {w w' : World}
    (h : Holding t done g w) (hf : Frame t g w g' w') : Holding t done g' w' where
  owned f hf' := hf.owned ▸ h.owned f hf'
  files f hf' := (hf.files _ (h.owned f hf')).trans (h.files f hf')

/-- It leaves a number that was taken alone. -/
theorem Taken.frame {done : List FileMeta} {n : Nat} {g g' : Ghost} {w w' : World}
    (h : Taken t done n g w) (hf : Frame t g w g' w') : Taken t done n g' w' where
  toHolding := h.toHolding.frame hf
  mem := hf.owned ▸ h.mem
  new := h.new

/-- It leaves the table under construction alone. -/
theorem Writing.frame {done : List FileMeta} {n : Nat} {file : Bytes} {g g' : Ghost} {w w' : World}
    (h : Writing t done n file g w) (hf : Frame t g w g' w') : Writing t done n file g' w' where
  toTaken := h.toTaken.frame hf
  unlocked := hf.unlocked h.unlocked
  file_eq := (hf.files n h.mem).trans h.file_eq

/-- A change to the file of the table in the making. -/
theorem Taken.insert {done : List FileMeta} {n : Nat} {g : Ghost} {w : World}
    (h : Taken t done n g w) {disk : Disk}
    (hdisk : ∀ name, name ≠ numberToName n → disk.lookup name = w.disk.lookup name) :
    Taken t done n g { w with disk := disk } where
  owned := h.owned
  files f hf := by
    show disk.lookup _ = _
    rw [hdisk _ fun heq => h.new f hf (numberToName_injective heq)]
    exact h.files f hf
  mem := h.mem
  new := h.new

/-- Changing a file of the thread's own is private. -/
theorem Private.ownFile {n : Nat} {g : Ghost} {w : World} (hn : n ∈ g.owned t) {disk : Disk}
    (hdisk : ∀ name, name ≠ numberToName n → disk.lookup name = w.disk.lookup name) :
    Private t g w g { w with disk := disk } :=
  { Private.refl t g w with
    world := ⟨_, _, _, rfl⟩
    disk := fun name hname => hdisk name (hname n hn) }

/-- It keeps the invariant. -/
theorem Inv.ownFile {n : Nat} {g : Ghost} {w : World} (hi : Inv g w) (hn : n ∈ g.owned t)
    {disk : Disk} (hdisk : ∀ name, name ≠ numberToName n → disk.lookup name = w.disk.lookup name) :
    Inv g { w with disk := disk } :=
  hi.scratch fun name hname _ => hdisk name (hname t n hn)

/-! ## A new number -/

/-- The other thread does not take the mutex away. -/
theorem stable_locked : Stable (building t) fun _ w => w.mutex = some t :=
  fun _ _ _ _ hr _ hm => (hr.locked hm).1

/-- Nor does it hand it over. -/
theorem stable_unlocked : Stable (building t) fun _ w => w.mutex ≠ some t :=
  fun _ _ _ _ hr _ hm => hr.unlocked hm

/-- It leaves the finished tables alone. -/
theorem stable_holding (done : List FileMeta) : Stable (building t) (Holding t done) :=
  fun _ _ _ _ hr _ h => h.frame hr

/-- It leaves a number that was taken alone. -/
theorem stable_taken (done : List FileMeta) (n : Nat) : Stable (building t) (Taken t done n) :=
  fun _ _ _ _ hr _ h => h.frame hr

/-- It leaves the table under construction alone. -/
theorem stable_writing (done : List FileMeta) (n : Nat) (file : Bytes) :
    Stable (building t) (Writing t done n file) :=
  fun _ _ _ _ hr _ h => h.frame hr

/-- Taking or releasing the mutex is private. -/
theorem Private.mutex {g : Ghost} {w : World} {mutex : Option Thread}
    (h : w.mutex ≠ some t.other) (h' : mutex ≠ some t.other) :
    Private t g w g { w with mutex := mutex } :=
  { Private.refl t g w with
    world := ⟨_, _, _, rfl⟩
    locked := fun hm => absurd hm h
    unlocked := fun _ => h' }

/-- The next number becomes the thread's own, besides those of the tables it holds. -/
theorem Inv.take {g : Ghost} {w : World} (hi : Inv g w) (hlt : w.nextFileNumber + 1 < 2 ^ 64)
    {kept : Finset Nat} (hkept : kept ⊆ g.owned t) :
    Inv { g with owned := Function.update g.owned t (insert w.nextFileNumber kept) }
      { w with nextFileNumber := w.nextFileNumber + 1 } := by
  have hnew : g.tables w.nextFileNumber = none := by
    by_contra hne
    obtain ⟨f, hf⟩ := Option.ne_none_iff_exists'.mp hne
    exact absurd (hi.tables_lt _ f hf) (lt_irrefl _)
  -- what is owned afterwards is the new number or was owned before
  have howned (t' : Thread) (n : Nat)
      (hn : n ∈ Function.update g.owned t (insert w.nextFileNumber kept) t') :
      n = w.nextFileNumber ∨ n ∈ g.owned t' := by
    by_cases ht : t' = t
    · subst ht
      rw [Function.update_self, Finset.mem_insert] at hn
      exact hn.imp_right fun h => hkept h
    · rw [Function.update_of_ne ht] at hn
      exact .inr hn
  refine { hi with
    next_lt := hlt
    savedNext_le := hi.savedNext_le.trans (Nat.le_succ _)
    tables_lt := fun n f hf => (hi.tables_lt n f hf).trans (Nat.lt_succ_self _)
    stored := { hi.stored with }
    owned_lt := ?owned_lt
    owned_new := ?owned_new
    owned_disjoint := ?owned_disjoint
    l0_lt := ?l0_lt }
  case owned_lt =>
    intro t' n hn
    show n < w.nextFileNumber + 1
    rcases howned t' n hn with rfl | hn
    · exact Nat.lt_succ_self _
    · exact (hi.owned_lt t' n hn).trans (Nat.lt_succ_self _)
  case owned_new =>
    intro t' n hn
    rcases howned t' n hn with rfl | hn
    · exact hnew
    · exact hi.owned_new t' n hn
  case owned_disjoint =>
    rw [Finset.disjoint_left]
    intro n hn hn'
    -- the new number is not owned by the other thread, and one of the two sets is as before
    cases t with
    | client =>
      replace hn' : n ∈ g.owned .background := hn'
      rcases howned .client n hn with rfl | hn
      · exact absurd (hi.owned_lt _ _ hn') (lt_irrefl _)
      · exact Finset.disjoint_left.mp hi.owned_disjoint hn hn'
    | background =>
      replace hn : n ∈ g.owned .client := hn
      rcases howned .background n hn' with rfl | hn'
      · exact absurd (hi.owned_lt _ _ hn) (lt_irrefl _)
      · exact Finset.disjoint_left.mp hi.owned_disjoint hn hn'
  case l0_lt =>
    intro n hn f hf
    rcases howned .client n hn with rfl | hn
    · exact hi.tables_lt _ f (hi.current_tables f (mem_files_of_level hf))
    · exact hi.l0_lt n hn f hf

/-- A number for a new table. -/
theorem triple_newFileNumber (done : List FileMeta) :
    Triple (exec t) (building t) (fun g w => w.mutex ≠ some t ∧ Holding t done g w)
      DB.newFileNumber fun n g w => w.mutex ≠ some t ∧ Taken t done n g w := by
  apply Triple.bind (Q := fun _ g w => w.mutex = some t ∧ Holding t done g w)
  · apply Triple.lift (c := Call.lock) (stable_unlocked.and (stable_holding done)) fun g w _ h => h.1
    intro g w hi h ch r w' _ hexec
    obtain ⟨hfree, rfl⟩ := exec_lock hexec
    refine ⟨g, Private.mutex (by simp [hfree]) ?_, hi.mutex _, rfl, h.2.owned, h.2.files⟩
    exact fun heq => t.other_ne (Option.some.inj heq).symm
  intro _
  apply Triple.bind (Q := fun n g w => w.mutex = some t ∧ Taken t done n g w)
  · apply Triple.lift (c := Call.takeFileNumber) (stable_locked.and (stable_holding done))
      fun _ _ _ _ => trivial
    intro g w hi ⟨hm, h⟩ ch r w' hallow hexec
    cases hexec
    have hlt : w.nextFileNumber + 1 < 2 ^ 64 := hallow.1
    rw [Nat.mod_eq_of_lt hlt]
    -- numbers of tables given up earlier are no longer needed
    set kept := (done.map (·.number)).toFinset with hkept
    have hsub : kept ⊆ g.owned t := by
      intro n hn
      rw [hkept, List.mem_toFinset, List.mem_map] at hn
      obtain ⟨f, hf, rfl⟩ := hn
      exact h.owned f hf
    refine ⟨_, ?_, hi.take hlt hsub, hm, ⟨?_, h.files⟩, ?_, ?_⟩
    · exact
        { ghost := ⟨_, rfl⟩
          world := ⟨_, _, _, rfl⟩
          disk := fun _ _ => rfl
          next_le := Nat.le_succ _
          locked := fun hm' => absurd (hm.symm.trans hm') (by simpa using t.other_ne.symm)
          unlocked := fun hm' => hm' }
    · intro f hf
      show f.number ∈ Function.update g.owned t _ t
      rw [Function.update_self, hkept]
      exact Finset.mem_insert_of_mem (List.mem_toFinset.mpr (List.mem_map_of_mem hf))
    · show w.nextFileNumber ∈ Function.update g.owned t _ t
      rw [Function.update_self]
      exact Finset.mem_insert_self _ _
    · intro f hf heq
      exact absurd (hi.owned_lt t _ (h.owned f hf)) (heq ▸ lt_irrefl _)
  intro n
  apply Triple.bind (Q := fun _ g w => w.mutex ≠ some t ∧ Taken t done n g w)
  · apply Triple.lift (c := Call.unlock) (stable_locked.and (stable_taken done n)) fun g w _ h => h.1
    intro g w hi ⟨hm, h⟩ ch r w' _ hexec
    obtain ⟨-, rfl⟩ := exec_unlock hexec
    refine ⟨g, Private.mutex ?_ (by simp), hi.mutex _, by simp, ⟨h.owned, h.files⟩, h.mem, h.new⟩
    rw [hm]
    exact fun heq => t.other_ne (Option.some.inj heq).symm
  · exact fun _ => Triple.ret fun g w _ h => h

/-! ## Writing the file -/

/-- A call has failed while the thread did not hold the mutex. -/
def Failed (t : Thread) (g : Ghost) (w : World) : Prop := w.mutex ≠ some t ∧ g.faults = true

variable (cfg : Config)

/-- A call that changes nothing and whose result is only looked at for an error. -/
theorem triple_plain (c : Call) (r : c.Res → Except String Unit) {P : Ghost → World → Prop}
    (hP : Stable (protocol t) P) (hunlocked : ∀ g w, P g w → w.mutex ≠ some t)
    (hdemand : ∀ g w, c.Demand t g w)
    (hfail : ∀ (g : Ghost) errno, c.MayFail g.faults g.logFaults (.fail errno) → g.faults = true)
    (h : ∀ ch w x w', exec t c ch w = some (x, w') → w' = w ∧
      ((∃ errno, ch = .fail errno ∧ r x = .error errno) ∨ r x = .ok ())) :
    Triple (exec t) (building t) P (Prog.lift c) fun x =>
      outcome (fun _ => P) (fun _ => Failed t) (r x) := by
  apply triple_quiet (Private.refl t) hP fun g w _ _ => hdemand g w
  intro g w ch x w' _ hPg hmay _ hexec
  obtain ⟨rfl, hx⟩ := h ch w x w' hexec
  refine ⟨rfl, ?_⟩
  rcases hx with ⟨errno, rfl, hx⟩ | hx
  · rw [hx]
    exact ⟨hunlocked g w' hPg, hfail g errno hmay⟩
  · rw [hx]
    exact hPg

/-- `SSTableWriter::Open`. -/
theorem tripleE_openWriter (done : List FileMeta) (n : Nat) :
    TripleE (exec t) (building t) (fun g w => w.mutex ≠ some t ∧ Taken t done n g w)
      (DB.openWriter cfg n)
      (fun wr g w => wr = SSTableWriter.new kOutputBlockSize cfg.options.bloomBitsPerKey ∧
        Writing t done n [] g w) fun _ => Failed t := by
  apply TripleE.bind (Q := fun _ => Writing t done n [])
  · apply DB.tripleE_check
    apply Triple.lift (c := Call.openTrunc (numberToName n))
      (stable_unlocked.and (stable_taken done n))
    -- a new number is neither in the current version nor in the saved one
    · intro g w hi h m hm
      cases numberToName_injective hm
      exact ⟨fun f hf => hi.number_ne_current h.2.mem hf, fun f hf => hi.number_ne_saved h.2.mem hf⟩
    · intro g w hi ⟨hm, h⟩ ch r w' hallow hexec
      rcases exec_openTrunc hexec with ⟨errno, rfl, rfl, rfl⟩ | ⟨rfl, rfl⟩
      · exact ⟨g, Private.refl t g w', hi, hm, hallow.2⟩
      · have hdisk : ∀ name, name ≠ numberToName n →
            (w.disk.insert (numberToName n) []).lookup name = w.disk.lookup name :=
          fun name hname => AList.lookup_insert_ne hname
        exact ⟨g, .ownFile h.mem hdisk, hi.ownFile h.mem hdisk, h.insert hdisk, hm,
          AList.lookup_insert _⟩
  · exact fun _ => TripleE.ret fun g w _ h => ⟨rfl, h⟩

/-- `SSTableWriter::WriteRaw`. -/
theorem tripleE_writeRaw (done : List FileMeta) (n : Nat) (file data : Bytes) :
    TripleE (exec t) (building t) (Writing t done n file) (DB.writeRaw cfg n data)
      (fun _ => Writing t done n (file ++ data)) fun _ => Failed t := by
  apply DB.tripleE_check
  apply Triple.conseq (DB.triple_writeFully (A := fun part => Writing t done n (file ++ part))
    (E := Failed t) (fun part => stable_writing done n _)
    (fun _ _ _ _ _ hname => absurd hname (numberToName_ne_walName n)) ?step ?fail)
  -- a part is written, or the call fails behind some part
  case step =>
    intro part more rest g w _ hi h
    have hdisk : ∀ name, name ≠ numberToName n →
        (w.disk.append (numberToName n) more).lookup name = w.disk.lookup name :=
      fun name hname => Disk.lookup_append_ne hname
    refine ⟨g, .ownFile h.mem hdisk, hi.ownFile h.mem hdisk, h.toTaken.insert hdisk, h.unlocked, ?_⟩
    show (w.disk.append _ _).lookup _ = _
    rw [Disk.lookup_append_self h.file_eq, List.append_assoc]
  case fail =>
    intro part rest errno g w _ hi h hallow
    have hfault : if numberToName n = walName then g.logFaults = true else g.faults = true :=
      hallow.2
    rw [if_neg (numberToName_ne_walName n)] at hfault
    exact ⟨Private.refl t g w, h.unlocked, hfault⟩
  · intro g w _ h
    rwa [List.append_nil]
  · exact fun r g w _ h => h

/-! ## The records -/

/-- One record more. -/
private theorem SSTableWriter.addAll_concat (wr : SSTableWriter) (es : List Entry) (e : Entry) :
    wr.addAll (es ++ [e]) =
      (((wr.addAll es).1.add e).1, (wr.addAll es).2 ++ ((wr.addAll es).1.add e).2) := by
  rw [addAll_append]
  simp [SSTableWriter.addAll]

/-- A writer that has been given records, and the bytes it has written. -/
def writerOf (bitsPerKey : Int) (es : List Entry) : SSTableWriter × Bytes :=
  (SSTableWriter.new kOutputBlockSize bitsPerKey).addAll es

/-- A filter of a table that fits can be built. -/
theorem finishDefined_writerOf {bitsPerKey : Int} {es : List Entry}
    (h : FilterFits es.length bitsPerKey) :
    (writerOf bitsPerKey es).1.bloom.finishDefined = true := by
  apply finishDefined_of_fits
  rw [writerOf, bloom_addAll]
  simpa [SSTableWriter.new] using h

/-- A table to which records have been added. -/
def Adding (t : Thread) (bitsPerKey : Int) (done : List FileMeta) (n : Nat) (es : List Entry) :
    Ghost → World → Prop :=
  Writing t done n (writerOf bitsPerKey es).2

/-- `SSTableWriter::Add`. -/
theorem tripleE_addEntry (done : List FileMeta) (n : Nat) (es : List Entry) (e : Entry) :
    TripleE (exec t) (building t) (Adding t cfg.options.bloomBitsPerKey done n es)
      (DB.addEntry cfg n (writerOf cfg.options.bloomBitsPerKey es).1 e)
      (fun wr g w => wr = (writerOf cfg.options.bloomBitsPerKey (es ++ [e])).1 ∧
        Adding t cfg.options.bloomBitsPerKey done n (es ++ [e]) g w) fun _ => Failed t := by
  have hnext : writerOf cfg.options.bloomBitsPerKey (es ++ [e]) = _ :=
    SSTableWriter.addAll_concat _ es e
  rw [Adding, Adding, hnext]
  show TripleE _ _ _ (DB.writeRaw cfg n ((writerOf cfg.options.bloomBitsPerKey es).1.add e).2 >>=
    fun _ => pure ((writerOf cfg.options.bloomBitsPerKey es).1.add e).1) _ _
  apply TripleE.bind (tripleE_writeRaw cfg done n _ _)
  exact fun _ => TripleE.ret fun g w _ h => ⟨rfl, h⟩

/-- A computation that is defined. -/
theorem tripleE_defined {α : Type} {x : Option α} {a : α} (hx : x = some a)
    {K : Contract Call Choice Ghost World} {P : Ghost → World → Prop}
    {Q : α → Ghost → World → Prop} {E : Status → Ghost → World → Prop}
    (h : ∀ g w, K.inv g w → P g w → Q a g w) :
    TripleE (exec t) K P (DB.defined x) Q E := by
  rw [hx]
  exact TripleE.lift (Triple.ret h)

/-- `SSTableWriter::Finish`: the file is the whole table. -/
theorem tripleE_finishWriter (done : List FileMeta) (n : Nat) {es : List Entry}
    (hfit : TableFits kOutputBlockSize cfg.options.bloomBitsPerKey es) :
    TripleE (exec t) (building t) (Adding t cfg.options.bloomBitsPerKey done n es)
      (DB.finishWriter cfg n (writerOf cfg.options.bloomBitsPerKey es).1)
      (fun wr g w => (wr.fileSize =
          (tableBytes kOutputBlockSize cfg.options.bloomBitsPerKey es).length.toUInt64 ∧
        wr.numEntries = es.length.toUInt64) ∧
        Writing t done n (tableBytes kOutputBlockSize cfg.options.bloomBitsPerKey es) g w)
      fun _ => Failed t := by
  obtain ⟨hbytes, hsize, hcount, -⟩ := writeTable_eq kOutputBlockSize cfg.options.bloomBitsPerKey es
    hfit.blocks
  have hdefined := finishDefined_writerOf hfit.filter
  apply TripleE.bind (Q := fun _ => Adding t cfg.options.bloomBitsPerKey done n es)
  · exact tripleE_defined (if_pos hdefined) fun g w _ h => h
  intro _
  -- what is written is what `writeTable` writes, so far in parts
  rw [← hsize, ← hcount, ← hbytes]
  set finished := (writerOf cfg.options.bloomBitsPerKey es).1.finish with hfinished
  set file := (writerOf cfg.options.bloomBitsPerKey es).2 ++ finished.2
  show TripleE _ _ _ (DB.writeRaw cfg n finished.2 >>= fun _ => _) _ _
  apply TripleE.bind (tripleE_writeRaw cfg done n _ _)
  intro _
  apply TripleE.bind (Q := fun _ => Writing t done n file)
  · apply DB.tripleE_check
    apply triple_plain (.fsync (numberToName n)) (fun r => r) (stable_writing done n file)
      (fun g w h => h.unlocked) fun _ _ hname => absurd hname (numberToName_ne_walName n)
    · intro g errno hmay
      have hfault : if numberToName n = walName then g.logFaults = true else g.faults = true := hmay
      rwa [if_neg (numberToName_ne_walName n)] at hfault
    · exact fun ch w x w' hexec => exec_fsync hexec
  intro _
  apply TripleE.bind (Q := fun _ => Writing t done n file)
  · apply DB.tripleE_check
    exact triple_plain (.close (numberToName n)) (fun r => r) (stable_writing done n file)
      (fun g w h => h.unlocked) (fun _ _ => trivial) (fun g errno hmay => hmay)
      fun ch w x w' hexec => exec_close hexec
  · exact fun _ => TripleE.ret fun g w _ h => ⟨⟨rfl, rfl⟩, h⟩

/-- `SSTableReader::Open` of a finished table. -/
theorem tripleE_openReader (done : List FileMeta) (n : Nat) {es : List Entry}
    (hfit : TableFits kOutputBlockSize cfg.options.bloomBitsPerKey es) :
    TripleE (exec t) (building t)
      (Writing t done n (tableBytes kOutputBlockSize cfg.options.bloomBitsPerKey es))
      (DB.openReader cfg n)
      (fun reader g w =>
        reader = tableReader kOutputBlockSize cfg.options.bloomBitsPerKey es n ∧
          Writing t done n (tableBytes kOutputBlockSize cfg.options.bloomBitsPerKey es) g w)
      fun _ => Failed t := by
  set file := tableBytes kOutputBlockSize cfg.options.bloomBitsPerKey es with hfile
  apply TripleE.bind (Q := fun read g w => read = file ∧ Writing t done n file g w)
  · apply DB.tripleE_check
    apply triple_quiet (c := Call.openRead (numberToName n)) (Private.refl t)
      (stable_writing done n file) fun _ _ _ _ => trivial
    intro g w ch r w' _ h hmay _ hexec
    obtain ⟨rfl, hr⟩ := exec_openRead hexec h.file_eq
    refine ⟨rfl, ?_⟩
    rcases hr with ⟨errno, rfl, rfl⟩ | rfl
    · exact ⟨h.unlocked, hmay⟩
    · exact ⟨rfl, h⟩
  intro read
  apply Triple.pre
  rintro rfl
  apply TripleE.bind (Q := fun _ => Writing t done n file)
  · apply DB.tripleE_check
    exact triple_plain (.fstat (numberToName n)) (fun r => r) (stable_writing done n file)
      (fun g w h => h.unlocked) (fun _ _ => trivial) (fun g errno hmay => hmay)
      fun ch w x w' hexec => exec_fstat hexec
  intro _
  -- a table has its footer
  have hlong : ¬ file.length < kFooterSize := by
    rw [hfile, tableBytes]
    simp only [List.length_append, Footer.length_bytes]
    omega
  rw [if_neg hlong]
  apply TripleE.bind (Q := fun _ => Writing t done n file)
  · apply DB.tripleE_check
    exact triple_plain (.mmap (numberToName n)) (fun r => r) (stable_writing done n file)
      (fun g w h => h.unlocked) (fun _ _ => trivial) (fun g errno hmay => hmay)
      fun ch w x w' hexec => exec_mmap hexec
  intro _
  apply TripleE.bind (tripleE_defined (open_tableBytes hfit _ n) (Q := fun r g w =>
    r = .ok (tableReader kOutputBlockSize cfg.options.bloomBitsPerKey es n) ∧
      Writing t done n file g w) fun g w _ h => ⟨rfl, h⟩)
  intro r
  apply Triple.pre
  rintro rfl
  exact TripleE.ret fun g w _ h => ⟨rfl, h⟩

/-- A finished table joins those the thread holds. -/
theorem tripleE_finishTable (done : List FileMeta) (n : Nat) (es : List Entry) :
    TripleE (exec t) (building t) (Adding t cfg.options.bloomBitsPerKey done n es)
      (DB.finishTable cfg n (writerOf cfg.options.bloomBitsPerKey es).1 es)
      (fun f g w => (f = tableMeta cfg.options.bloomBitsPerKey es n ∧
        TableFits kOutputBlockSize cfg.options.bloomBitsPerKey es ∧
          ∀ f ∈ done, f.number ≠ n) ∧
        w.mutex ≠ some t ∧ Holding t (done ++ [f]) g w) fun _ => Failed t := by
  -- that the table fits its format is assumed where its records are complete
  apply TripleE.bind (Q := fun _ g w => TableFits kOutputBlockSize cfg.options.bloomBitsPerKey es ∧
    Adding t cfg.options.bloomBitsPerKey done n es g w)
  · apply DB.tripleE_call
    apply triple_quiet (c := Call.tableDone _ es) (Private.refl t) (stable_writing done n _)
      fun _ _ _ _ => trivial
    intro g w ch r w' _ h _ hfit hexec
    cases hexec
    exact ⟨rfl, hfit, h⟩
  intro _
  apply Triple.pre
  intro hfit
  apply TripleE.bind (tripleE_finishWriter cfg done n hfit)
  intro wr
  apply Triple.pre
  rintro ⟨hsize, hcount⟩
  apply TripleE.bind (tripleE_openReader cfg done n hfit)
  intro reader
  apply Triple.pre
  rintro rfl
  apply TripleE.ret
  intro g w _ h
  rw [hsize, hcount]
  refine ⟨⟨rfl, hfit, h.new⟩, h.unlocked, ?_, ?_⟩
  · intro f hf
    rcases List.mem_append.mp hf with hf | hf
    · exact h.owned f hf
    · rw [List.mem_singleton.mp hf]
      exact h.mem
  · intro f hf
    rcases List.mem_append.mp hf with hf | hf
    · exact h.files f hf
    · rw [List.mem_singleton.mp hf]
      exact h.file_eq

end Lsmdb
