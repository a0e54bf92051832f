import Lsmdb.Spec.ThreadRules

/-!
# Who may touch which table

The tables that a thread works on, as a typestate of its program (`tableRules`): it writes
only tables whose numbers it has taken, puts only those into the version, and removes only
tables that it has seen in a version. What it still has to account for when it ends is
empty if it ends well. For `Recover`, `recoverRules` says the same of the orphans: it ends
well only when it has removed every table that is not in the version.
-/

namespace Lsmdb

open Prog

/-! ## The numbers of a version -/

def Version.numbers (v : Version) : Finset Nat := (v.files.map (·.number)).toFinset

/-- The numbers of a version are those of its files. -/
theorem Version.mem_numbers {v : Version} {n : Nat} : n ∈ v.numbers ↔ ∃ f ∈ v.files, f.number = n := by
  simp [Version.numbers]

section Modify

variable {α : Type} {x : α} {f : List α → List α} {L : List (List α)} {i : Nat}

/-- A change of one list adds only what is in `S`. -/
theorem mem_flatten_modify {S : List α} (hf : ∀ l, ∀ x ∈ f l, x ∈ l ∨ x ∈ S)
    (h : x ∈ (L.modify i f).flatten) : x ∈ L.flatten ∨ x ∈ S := by
  -- induction on the levels down to the one that is modified
  induction L generalizing i with
  | nil => simp at h
  | cons l L ih =>
    cases i with
    | zero =>
      rw [List.modify_zero_cons, List.flatten_cons, List.mem_append] at h
      rw [List.flatten_cons, List.mem_append]
      rcases h with h | h
      · exact (hf l x h).imp .inl id
      · exact .inl (.inr h)
    | succ i =>
      rw [List.modify_succ_cons, List.flatten_cons, List.mem_append] at h
      rw [List.flatten_cons, List.mem_append]
      rcases h with h | h
      · exact .inl (.inl h)
      · exact (ih h).imp .inr id

/-- A change of one list that keeps an element. -/
theorem mem_flatten_modify_of_mem (hf : ∀ l, x ∈ l → x ∈ f l) (h : x ∈ L.flatten) :
    x ∈ (L.modify i f).flatten := by
  induction L generalizing i with
  | nil => simp at h
  | cons l L ih =>
    rw [List.flatten_cons, List.mem_append] at h
    cases i with
    | zero =>
      rw [List.modify_zero_cons, List.flatten_cons, List.mem_append]
      exact h.imp_left (hf l)
    | succ i =>
      rw [List.modify_succ_cons, List.flatten_cons, List.mem_append]
      exact h.imp_right ih

/-- A change of one list that puts an element in. -/
private theorem mem_flatten_modify_of_lt (hf : ∀ l, x ∈ f l) (hi : i < L.length) :
    x ∈ (L.modify i f).flatten := by
  induction L generalizing i with
  | nil => simp at hi
  | cons l L ih =>
    cases i with
    | zero =>
      rw [List.modify_zero_cons, List.flatten_cons, List.mem_append]
      exact .inl (hf l)
    | succ i =>
      rw [List.modify_succ_cons, List.flatten_cons, List.mem_append]
      exact .inr (ih (by simpa using hi))

end Modify

section Install

variable {v : Version} {c : Compaction} {outs : List FileMeta} {f : FileMeta}

/-- The levels that `InstallCompaction` makes, before it sorts the target level. -/
def unsortedLevels (v : Version) (c : Compaction) (outs : List FileMeta) : List (List FileMeta) :=
  (((v.levels ++ List.replicate (max c.sourceLevel c.targetLevel + 1 - v.levels.length) []).modify
    c.sourceLevel (strip c)).modify c.targetLevel (strip c)).modify c.targetLevel (· ++ outs)

/-- Sorting the levels does not change the files. -/
theorem mem_files_installCompaction :
    f ∈ (installCompaction v c outs).files ↔ f ∈ (unsortedLevels v c outs).flatten := by
  rw [installCompaction, Version.files]
  split
  · constructor
    · intro h
      have h := mem_flatten_modify (S := [])
        (fun l x hx => .inl ((List.mem_insertionSort _).mp hx)) h
      exact h.resolve_right List.not_mem_nil
    · exact mem_flatten_modify_of_mem fun l hl => (List.mem_insertionSort _).mpr hl
  · exact Iff.rfl

/-- What `InstallCompaction` puts into a version was there before or is an output. -/
private theorem mem_files_install (h : f ∈ (installCompaction v c outs).files) : f ∈ v.files ∨ f ∈ outs := by
  have hstrip (l : List FileMeta) (x : FileMeta) (hx : x ∈ strip c l) :
      x ∈ l ∨ x ∈ ([] : List FileMeta) :=
    .inl (List.mem_filter.mp hx).1
  rw [mem_files_installCompaction, unsortedLevels] at h
  refine (mem_flatten_modify (fun l x hx => List.mem_append.mp hx) h).imp_left fun h => ?_
  have h := (mem_flatten_modify hstrip h).resolve_right List.not_mem_nil
  have h := (mem_flatten_modify hstrip h).resolve_right List.not_mem_nil
  rw [List.flatten_append, List.mem_append] at h
  refine h.resolve_right ?_
  simp

/-- A file that no input has the number of stays. -/
private theorem mem_files_install_of_ne (hne : ∀ g ∈ c.inputs, g.number ≠ f.number) (h : f ∈ v.files) :
    f ∈ (installCompaction v c outs).files := by
  have hstrip (l : List FileMeta) (hl : f ∈ l) : f ∈ strip c l :=
    List.mem_filter.mpr ⟨hl, by simpa using hne⟩
  rw [mem_files_installCompaction]
  apply mem_flatten_modify_of_mem fun l hl => List.mem_append_left _ hl
  apply mem_flatten_modify_of_mem hstrip
  apply mem_flatten_modify_of_mem hstrip
  rw [List.flatten_append]
  exact List.mem_append_left _ h

/-- The outputs are there. -/
private theorem mem_files_install_of_out (h : f ∈ outs) : f ∈ (installCompaction v c outs).files := by
  rw [mem_files_installCompaction]
  apply mem_flatten_modify_of_lt fun l => List.mem_append_right _ h
  simp only [List.length_modify, List.length_append, List.length_replicate]
  omega

/-- A flush adds one number. -/
private theorem numbers_pushL0 (v : Version) (f : FileMeta) :
    (DB.pushL0 v f).numbers = insert f.number v.numbers := by
  ext n
  rw [Finset.mem_insert, Version.mem_numbers, Version.mem_numbers, DB.pushL0]
  obtain ⟨levels⟩ := v
  cases levels with
  | nil => simp [Version.files, eq_comm]
  | cons l0 deeper =>
    simp only [Version.files, List.flatten_cons, List.mem_append, List.mem_singleton]
    constructor
    · rintro ⟨g, ((hg | rfl) | hg), rfl⟩
      · exact .inr ⟨g, .inl hg, rfl⟩
      · exact .inl rfl
      · exact .inr ⟨g, .inr hg, rfl⟩
    · rintro (rfl | ⟨g, hg | hg, rfl⟩)
      · exact ⟨f, .inl (.inr rfl), rfl⟩
      · exact ⟨g, .inl (.inl hg), rfl⟩
      · exact ⟨g, .inr hg, rfl⟩

end Install

/-! ## The rules -/

/-- The tables that a thread has to do with. -/
structure Tables where
  /-- The version that it has found and holds the mutex since. -/
  seen : Option Version := none
  /-- The numbers of the versions that it has found. -/
  noted : Finset Nat := ∅
  /-- The numbers that it has taken and not put into a version. -/
  mine : Finset Nat := ∅
  /-- The numbers that it has taken out of the version, until it has removed the files. -/
  trash : Finset Nat := ∅

/-- It has taken the number of the table that a file holds. -/
def Tables.Writes (s : Tables) (name : String) : Prop := ∃ n ∈ s.mine, name = numberToName n

/-- What a thread may do with files. Besides its tables these are the log and the manifest. -/
def tableRules : Typestate Call Call.Res Tables where
  ok s
    -- files: one's own tables, the log and the manifest
    | .openTrunc name | .write name _ | .fsync name =>
      s.Writes name ∨ name = walName ∨ name = manifestTmpName
    | .openRead name | .fstat name | .mmap name => s.Writes name
    | .close name => s.Writes name ∨ name = manifestTmpName
    | .openAppend name => name = walName
    | .rename src dst => src = manifestTmpName ∧ dst = manifestName
    | .unlink name => s.seen ≠ none ∧ ∃ n ∈ s.noted, name = numberToName n
    -- a new version has old tables and one's own
    | .storeCurrent v => ∃ u, s.seen = some u ∧ v.numbers ⊆ u.numbers ∪ s.mine
    | .storeFileNumber _ | .readDir => False
    | _ => True
  next s
    -- without the mutex what was seen is no longer current
    | .lock, _ | .unlock, _ => { s with seen := none }
    | .loadCurrent, v => { s with seen := some v, noted := s.noted ∪ v.numbers }
    | .takeFileNumber, n => { s with mine := insert n s.mine }
    -- what enters the version is no longer one's own, what leaves it is to be removed
    | .storeCurrent v, _ =>
      { s with
        seen := some v
        mine := s.mine \ v.numbers
        trash := s.trash ∪ (s.seen.elim ∅ Version.numbers \ v.numbers) }
    | .unlink name, _ => { s with trash := s.trash.filter fun n => numberToName n ≠ name }
    | _, _ => s

/-- Nothing is left to account for. -/
def Tables.Clear (s : Tables) : Prop := s.mine = ∅ ∧ s.trash = ∅

/-- A function that returns a status has nothing left to account for if that is `OK`. -/
def clearIfOk {α : Type} (r : Except Status α) (s : Tables) : Prop := ∀ a, r = .ok a → s.Clear

/-- The calls that the rules are not about. -/
def Call.NoTable : Call → Prop
  | openTrunc name | write name _ | fsync name => name = walName ∨ name = manifestTmpName
  | close name => name = manifestTmpName
  | openAppend name => name = walName
  | rename src dst => src = manifestTmpName ∧ dst = manifestName
  | lock | unlock | loadCurrent | takeFileNumber | storeCurrent _ | openRead _ | fstat _ | mmap _
  | unlink _ | storeFileNumber _ | readDir => False
  | _ => True

section Parts

variable {α β : Type} {s : Tables} {P : Call → Prop}

/-- A part of a program that has nothing to do with tables. -/
theorem follows_noTable {p : DBM α} {Q : α → Tables → Prop} (hp : p.All Call.NoTable)
    (hQ : p.Returns fun a => Q a s) : p.Follows tableRules Q s := by
  -- the rules do not mention these calls
  apply Follows.of_all hp _ _ hQ
  · intro c hc
    cases c with
    | openTrunc | write | fsync | close => exact .inr hc
    | openAppend | rename => exact hc
    | lock | unlock | loadCurrent | takeFileNumber | storeCurrent | openRead | fstat | mmap | unlink
    | storeFileNumber | readDir => exact hc.elim
    | _ => trivial
  · intro c r hc
    cases c with
    | lock | unlock | loadCurrent | takeFileNumber | storeCurrent | openRead | fstat | mmap | unlink
    | storeFileNumber | readDir => exact hc.elim
    | _ => rfl

/-- A part that works on a table whose number the thread has taken. -/
theorem follows_onTable {p : DBM α} {Q : α → Tables → Prop} {number : Nat}
    (hp : p.All (Call.OnTable number)) (hn : number ∈ s.mine) (hQ : p.Returns fun a => Q a s) :
    p.Follows tableRules Q s := by
  -- the table is the thread's own
  apply Follows.of_all hp _ _ hQ
  · intro c hc
    cases c with
    | openTrunc name | write name | fsync name | close name =>
      cases hc
      exact .inl ⟨number, hn, rfl⟩
    | openRead name | fstat name | mmap name =>
      cases hc
      exact ⟨number, hn, rfl⟩
    | tableDone => trivial
    | _ => exact hc.elim
  · intro c r hc
    cases c with
    | openTrunc name | openRead name | fstat name | mmap name | write name | fsync name
    | close name | tableDone => rfl
    | _ => exact hc.elim

/-- A call on the log concerns no table. -/
private theorem onLog_noTable {c : Call} (h : c.OnLog) : c.NoTable := by
  cases c with
  | openTrunc | write | fsync => exact .inl h
  | openAppend => exact h
  | loadWal | storeWal => trivial
  | _ => exact h.elim

/-- Nor does one on the manifest. -/
private theorem onManifest_noTable {c : Call} (h : c.OnManifest) : c.NoTable := by
  cases c with
  | openTrunc | write | fsync => exact .inr h
  | close | rename => exact h
  | loadFileNumber => trivial
  | _ => exact h.elim

/-- After a failure nothing is promised. -/
def Lenient (Q : Except Status β → Tables → Prop) : Prop := ∀ e s, Q (.error e) s

/-- A program that fails may leave tables behind. -/
theorem lenient_clearIfOk : Lenient (clearIfOk (α := β)) := by
  intro e s a ha
  cases ha

variable {Q : Except Status β → Tables → Prop}

/-- A part of a function that has nothing to do with tables. -/
theorem follows_noTableE {p : DBE α} {f : α → DBE β} (hQ : Lenient Q) (hp : p.run.All Call.NoTable)
    (hf : ∀ a, (f a).run.Follows tableRules Q s) : (p >>= f).run.Follows tableRules Q s := by
  refine follows_bindE.mpr (follows_noTable hp (returns_of_forall fun r => ?_))
  cases r with
  | ok a => exact hf a
  | error e => exact hQ e s

/-- A part of a function that works on a table whose number the thread has taken. -/
theorem follows_onTableE {p : DBE α} {f : α → DBE β} {R : α → Prop} {number : Nat} (hQ : Lenient Q)
    (hp : p.run.All (Call.OnTable number)) (hn : number ∈ s.mine)
    (hR : p.run.Returns fun r => ∀ a, r = .ok a → R a)
    (hf : ∀ a, R a → (f a).run.Follows tableRules Q s) : (p >>= f).run.Follows tableRules Q s := by
  refine follows_bindE.mpr (follows_onTable hp hn (hR.mono fun r hr => ?_))
  cases r with
  | ok a => exact hf a (hr a rfl)
  | error e => exact hQ e s

/-- A new number becomes the thread's own. -/
theorem follows_newFileNumber {f : Nat → DBE β}
    (hf : ∀ n, (f n).run.Follows tableRules Q { s with seen := none, mine := insert n s.mine }) :
    (DB.newFileNumber >>= f).run.Follows tableRules Q s :=
  follows_bindE.mpr ⟨trivial, fun _ => ⟨trivial, fun n => ⟨trivial, fun _ => hf n⟩⟩⟩

/-- The table that is finished is the one that was begun. -/
private theorem returns_finishTable (cfg : Config) (number : Nat) (w : SSTableWriter) (es : List Entry) :
    (DB.finishTable cfg number w es).run.Returns fun r => ∀ f, r = .ok f → f.number = number := by
  apply Returns.bindE_ok
  intro _
  apply Returns.bindE_ok
  intro w
  apply Returns.bindE_ok
  intro reader f hf
  cases hf
  rfl

/-- Nothing is asked of a result. -/
private theorem returns_any (p : DBE α) : p.run.Returns fun r => ∀ a, r = .ok a → True :=
  returns_of_forall fun _ _ _ => trivial

/-! ## The public functions -/

variable (cfg : Config)

/-- `FlushMemTable`: the table ends up in the version, unless something fails. -/
theorem follows_tables_flushMemTable (noted : Finset Nat) :
    (DB.flushMemTable cfg).run.Follows tableRules clearIfOk { noted := noted } := by
  refine follows_noTableE lenient_clearIfOk (allE_call (c := .loadMem) trivial) fun mem => ?_
  show (if _ then _ else _ : DBE Unit).run.Follows _ _ _
  -- an empty memtable is not flushed
  split
  · exact fun _ _ => ⟨rfl, rfl⟩
  apply follows_newFileNumber
  intro number
  have hmine : number ∈ insert number (∅ : Finset Nat) := Finset.mem_insert_self _ _
  apply follows_onTableE lenient_clearIfOk ((all_openWriter cfg number).mono fun _ hc => hc.onTable) hmine (returns_any _)
  intro w _
  apply follows_noTableE lenient_clearIfOk (allE_defined _)
  intro es
  apply follows_onTableE lenient_clearIfOk
    (All.foldlM (fun w e _ => (all_addEntry cfg number w e).mono fun _ hc => hc.onTable) w) hmine (returns_any _)
  intro w _
  apply follows_onTableE lenient_clearIfOk (all_finishTable cfg number w es.1) hmine
    (returns_finishTable cfg number w es.1)
  intro f hf
  -- the table is installed under the mutex, with which it stops being the thread's own
  apply Sync.follows_dbWithLock trivial
  have hlenient : Lenient fun (r : Except Status Unit) t =>
      tableRules.ok t .unlock ∧ clearIfOk r (tableRules.next t .unlock ()) :=
    fun e s => ⟨trivial, lenient_clearIfOk e _⟩
  refine follows_bindE.mpr ⟨trivial, fun v => ?_⟩
  have hnumbers : (DB.pushL0 v f).numbers = insert number v.numbers := hf ▸ numbers_pushL0 v f
  refine follows_bindE.mpr ⟨⟨v, rfl, ?_⟩, fun _ => ?_⟩
  -- the new version has the old numbers and the new one
  · rw [hnumbers]
    intro n hn
    rw [Finset.mem_union]
    rcases Finset.mem_insert.mp hn with rfl | hn
    · exact .inr hmine
    · exact .inl hn
  · apply follows_noTableE hlenient
    · exact (all_writeManifest _).mono fun c hc => onManifest_noTable hc
    intro _
    refine follows_noTableE hlenient (allE_call (c := .storeMem _) trivial) fun _ => ?_
    refine follows_noTable ((all_restartWal cfg).mono fun c hc => onLog_noTable hc)
      (returns_of_forall fun r => ⟨trivial, fun _ _ => ⟨?_, ?_⟩⟩)
    · show insert number ∅ \ (DB.pushL0 v f).numbers = ∅
      rw [hnumbers]
      simp
    · show ∅ ∪ (v.numbers \ (DB.pushL0 v f).numbers) = ∅
      rw [hnumbers]
      simp

/-- What `Put` and `Delete` have in common. -/
theorem follows_tables_write (e : Entry) (change : SkipList → Option SkipList) (noted : Finset Nat) :
    (do
      DB.addRecord cfg e
      let mem ← DB.defined (change (← DB.call .loadMem))
      DB.call (.storeMem mem)
      DB.maybeFlush cfg mem : DBE Unit).run.Follows tableRules clearIfOk { noted := noted } := by
  apply follows_noTableE lenient_clearIfOk
  · exact (all_addRecord cfg e).mono fun c hc => onLog_noTable hc
  intro _
  refine follows_noTableE lenient_clearIfOk (allE_call (c := .loadMem) trivial) fun mem => ?_
  apply follows_noTableE lenient_clearIfOk (allE_defined _)
  intro mem
  refine follows_noTableE lenient_clearIfOk (allE_call (c := .storeMem mem) trivial) fun _ => ?_
  -- the flush is part of the write
  rw [DB.maybeFlush]
  split
  · exact follows_tables_flushMemTable cfg noted
  · exact fun _ _ => ⟨rfl, rfl⟩

/-- What a public function leaves: if it does not report an error, nothing to account for. -/
def tablesDone (r : Reply) (s : Tables) : Prop := (∀ e, r = .status e → e.ok = true) → s.Clear

/-- The status of a write. -/
theorem follows_tables_status {p : DBE Unit} {s : Tables} (h : p.run.Follows tableRules clearIfOk s)
    (hok : p.run.Returns NotOk) :
    (do return .status (statusOf (← p.run)) : DBM Reply).Follows tableRules tablesDone s := by
  refine follows_bind.mpr ((h.returns hok).mono fun r s hr hreply => ?_)
  cases r with
  | ok u => exact hr.1 u rfl
  | error e =>
    have hbad : e.ok = false := hr.2 e rfl
    rw [hreply e rfl] at hbad
    cases hbad

/-- The public functions. -/
theorem follows_tables_program (op : Op) (noted : Finset Nat) :
    (op.program cfg).Follows tableRules tablesDone { noted := noted } := by
  have hclear {r : Reply} (noted : Finset Nat) : tablesDone r { noted := noted } :=
    fun _ => ⟨rfl, rfl⟩
  -- reads take the mutex for the snapshot only and touch no file
  cases op with
  | put k v => exact follows_tables_status (follows_tables_write cfg _ _ noted) (notOk_put cfg k v)
  | delete k => exact follows_tables_status (follows_tables_write cfg _ _ noted) (notOk_delete cfg k)
  | flush => exact follows_tables_status (follows_tables_flushMemTable cfg noted) (notOk_flushMemTable cfg)
  | get k =>
    refine follows_bind.mpr ⟨trivial, fun mem => ?_⟩
    apply Sync.follows_defined
    intro r _
    show (if _ then _ else _ : DBM _).Follows _ _ _
    split
    · exact hclear noted
    refine follows_bind.mpr ⟨trivial, fun _ => ⟨trivial, fun v => ⟨trivial, fun _ => ?_⟩⟩⟩
    refine ⟨trivial, fun cache => ?_⟩
    apply Sync.follows_defined
    exact fun r _ => ⟨trivial, fun _ => hclear _⟩
  | scan start end_ =>
    refine follows_bind.mpr ⟨trivial, fun mem => ?_⟩
    refine follows_bind.mpr ⟨trivial, fun _ => ⟨trivial, fun v => ⟨trivial, fun _ => ?_⟩⟩⟩
    show (DB.defined (scan mem v start end_) : DBM _).Follows _ _ _
    cases scan mem v start end_ with
    | none => trivial
    | some r => exact hclear _
  | close => exact ⟨trivial, fun _ => ⟨trivial, fun _ => ⟨trivial, fun _ => hclear noted⟩⟩⟩

/-! ## The compaction thread -/

/-- The inputs of a compaction are files of the version it was picked in. -/
theorem mem_files_of_pickCompaction {options : Options} {v : Version} {c : Compaction}
    (h : pickCompaction options v = some (some c)) {f : FileMeta} (hf : f ∈ c.inputs) :
    f ∈ v.files := by
  have hlevel {i : Nat} (h : f ∈ v.level i) : f ∈ v.files := by
    rw [Version.level] at h
    by_cases hi : i < v.levels.length
    · rw [List.getD_eq_getElem _ _ hi] at h
      exact List.mem_flatten.mpr ⟨_, List.getElem_mem hi, h⟩
    · rw [List.getD_eq_default _ _ (by omega)] at h
      cases h
  rw [pickCompaction] at h
  -- L0 with the files of L1 that it overlaps, or one file with those of the next level
  split at h
  · cases h
  split at h
  · dsimp only at h
    split at h
    · cases h
    · cases h
      rcases List.mem_append.mp hf with hf | hf
      · exact hlevel ((List.mem_insertionSort _).mp hf)
      · exact hlevel (List.mem_filter.mp hf).1
  · split at h
    · cases h
    · rename_i i hfind
      split at h
      · cases h
      · rename_i chosen rest hchosen
        cases h
        rcases List.mem_cons.mp hf with rfl | hf
        · exact hlevel (hchosen ▸ List.mem_cons_self)
        · exact hlevel (List.mem_filter.mp hf).1

/-- The numbers of the tables that a compaction has begun. -/
def begun (outputs : List FileMeta) (cur : Option DB.Output) : Finset Nat :=
  (outputs.map (·.number)).toFinset ∪ cur.elim ∅ fun o => {o.number}

/-- In the loop of a compaction. -/
def Merging (noted : Finset Nat) (state : List FileMeta × Option DB.Output) (s : Tables) : Prop :=
  s = { noted := noted, mine := begun state.1 state.2 }

/-- The first record of an output takes a new number. -/
theorem follows_tables_currentOutput (outputs : List FileMeta) (cur : Option DB.Output)
    (noted : Finset Nat) :
    (DB.currentOutput cfg cur).run.Follows tableRules
      (ending (fun o s => Merging noted (outputs, some o) s) fun _ _ => True)
      { noted := noted, mine := begun outputs cur } := by
  have hlenient : Lenient (ending (fun o s => Merging noted (outputs, some o) s) fun _ _ => True) :=
    fun _ _ => trivial
  cases cur with
  | some o => rfl
  | none =>
    -- the number that was taken becomes that of the output
    apply follows_newFileNumber
    intro number
    apply follows_onTableE hlenient ((all_openWriter cfg number).mono fun _ hc => hc.onTable) (Finset.mem_insert_self _ _)
      (returns_any _)
    intro w _
    show Tables.mk _ _ _ _ = _
    congr 1
    show insert number (begun outputs none) = begun outputs (some ⟨number, w, []⟩)
    ext n
    simp [begun]

/-- A finished output is still the thread's own. -/
theorem follows_tables_finishOutput (outputs : List FileMeta) (cur : Option DB.Output)
    (noted : Finset Nat) :
    (DB.finishOutput cfg outputs cur).run.Follows tableRules
      (ending (fun outputs s => Merging noted (outputs, none) s) fun _ _ => True)
      { noted := noted, mine := begun outputs cur } := by
  have hlenient : Lenient (ending (fun outputs s => Merging noted (outputs, none) s)
    fun _ _ => True) := fun _ _ => trivial
  cases cur with
  | none => rfl
  | some o =>
    -- the output becomes the last of the finished ones
    have hmine : o.number ∈ begun outputs (some o) := by simp [begun]
    apply follows_onTableE hlenient (all_finishTable cfg o.number o.w o.es) hmine
      (returns_finishTable cfg o.number o.w o.es)
    intro f hf
    show Tables.mk _ _ _ _ = _
    congr 1
    show begun outputs (some o) = begun (outputs ++ [f]) none
    ext n
    simp [begun, hf]

/-- A record is dropped or written to the output, which may be finished by it. -/
theorem follows_tables_compactRecord (bottommost : Bool) (state : List FileMeta × Option DB.Output)
    (e : Entry) (noted : Finset Nat) {s : Tables} (hs : Merging noted state s) :
    (DB.compactRecord cfg bottommost state e).run.Follows tableRules
      (ending (Merging noted) fun _ _ => True) s := by
  obtain ⟨outputs, cur⟩ := state
  have hlenient : Lenient (ending (Merging noted) fun _ _ => True) := fun _ _ => trivial
  rw [Merging] at hs
  subst hs
  rw [DB.compactRecord]
  -- a tombstone is dropped on the bottom level
  split
  · rfl
  refine follows_bindE.mpr ((follows_tables_currentOutput cfg outputs cur noted).mono fun r s hs => ?_)
  cases r with
  | error e => trivial
  | ok o =>
    have hs : s = { noted := noted, mine := begun outputs (some o) } := hs
    subst hs
    have hmine : o.number ∈ begun outputs (some o) := by simp [begun]
    apply follows_onTableE hlenient ((all_addEntry cfg o.number o.w e).mono fun _ hc => hc.onTable) hmine
      (returns_any _)
    intro w _
    show (if _ then _ else _ : DBE _).run.Follows _ _ _
    split
    -- the output has reached its size
    · refine follows_bindE.mpr ((follows_tables_finishOutput cfg outputs
        (some { o with w := w, es := o.es ++ [e] }) noted).mono fun r s hs => ?_)
      cases r with
      | error e => trivial
      | ok outputs => exact hs
    · rfl

/-- The files of the inputs are removed. -/
theorem follows_unlinkInputs {Q : Unit → Tables → Prop} {inputs : List FileMeta} {s : Tables}
    (hseen : s.seen ≠ none) (hnoted : ∀ f ∈ inputs, f.number ∈ s.noted)
    (hQ : Q () { s with trash := s.trash \ (inputs.map (·.number)).toFinset }) :
    (DB.unlinkInputs inputs).Follows tableRules Q s := by
  induction inputs generalizing s with
  | nil =>
    rw [List.map_nil, List.toFinset_nil, Finset.sdiff_empty] at hQ
    exact hQ
  | cons f inputs ih =>
    refine ⟨⟨hseen, f.number, hnoted f List.mem_cons_self, rfl⟩, fun _ => ?_⟩
    refine ih hseen (fun g hg => hnoted g (List.mem_cons_of_mem f hg)) ?_
    -- one name less
    have htrash : s.trash.filter (fun n => numberToName n ≠ numberToName f.number) \
        (inputs.map (·.number)).toFinset = s.trash \ ((f :: inputs).map (·.number)).toFinset := by
      ext n
      have hinj : numberToName n = numberToName f.number ↔ n = f.number :=
        ⟨fun h => numberToName_injective h, fun h => h ▸ rfl⟩
      simp [hinj, and_assoc]
    rw [← htrash] at hQ
    exact hQ

/-- `DoCompaction`: its outputs end up in the version and its inputs are removed, unless something
    fails. -/
theorem follows_tables_doCompaction (c : Compaction) (noted : Finset Nat)
    (hnoted : ∀ f ∈ c.inputs, f.number ∈ noted) :
    (DB.doCompaction cfg c).run.Follows tableRules clearIfOk { noted := noted } := by
  refine follows_noTableE lenient_clearIfOk (allE_call (c := .mapInputs _) trivial) fun readers => ?_
  apply follows_noTableE lenient_clearIfOk (allE_defined _)
  intro merged
  obtain ⟨es, status⟩ := merged
  -- the numbers begun so far are the invariant of the loop
  refine follows_bindE.mpr ((follows_foldlM (I := Merging noted) (E := fun _ _ => True)
    (fun state e _ s hs => follows_tables_compactRecord cfg c.bottommost state e noted hs) rfl).mono
    fun r s hs => ?_)
  cases r with
  | error e => exact lenient_clearIfOk e s
  | ok state =>
    obtain ⟨outputs, cur⟩ := state
    have hs : s = { noted := noted, mine := begun outputs cur } := hs
    subst hs
    show (if !status.ok then _ else _ : DBE Unit).run.Follows _ _ _
    split
    · exact lenient_clearIfOk _ _
    refine follows_bindE.mpr ((follows_tables_finishOutput cfg outputs cur noted).mono fun r s hs => ?_)
    cases r with
    | error e => exact lenient_clearIfOk e s
    | ok outputs =>
      have hs : s = { noted := noted, mine := begun outputs none } := hs
      subst hs
      apply Sync.follows_dbWithLock trivial
      have hlenient : Lenient fun (r : Except Status Unit) t =>
          tableRules.ok t .unlock ∧ clearIfOk r (tableRules.next t .unlock ()) :=
        fun e s => ⟨trivial, lenient_clearIfOk e _⟩
      refine follows_bindE.mpr ⟨trivial, fun v => ?_⟩
      -- the version gets outputs in place of inputs
      refine follows_bindE.mpr ⟨⟨v, rfl, fun n hn => ?_⟩, fun _ => ?_⟩
      · obtain ⟨f, hf, rfl⟩ := Version.mem_numbers.mp hn
        rw [Finset.mem_union]
        refine (mem_files_install hf).imp (fun hf => Version.mem_numbers.mpr ⟨f, hf, rfl⟩) fun hf => ?_
        show f.number ∈ begun outputs none
        simpa [begun] using ⟨f, hf, rfl⟩
      · apply follows_noTableE hlenient
        · exact (all_writeManifest _).mono fun c hc => onManifest_noTable hc
        intro _
        refine follows_bind.mpr (follows_unlinkInputs (Option.some_ne_none _) (fun f hf => ?_)
          ⟨trivial, fun _ _ => ⟨?_, ?_⟩⟩)
        · exact Finset.mem_union_left _ (hnoted f hf)
        · show begun outputs none \ (installCompaction v c outputs).numbers = ∅
          rw [Finset.sdiff_eq_empty_iff_subset]
          intro n hn
          obtain ⟨f, hf, rfl⟩ : ∃ f ∈ outputs, f.number = n := by simpa [begun] using hn
          exact Version.mem_numbers.mpr ⟨f, mem_files_install_of_out hf, rfl⟩
        · -- what has left the version is an input
          show (∅ ∪ (v.numbers \ (installCompaction v c outputs).numbers)) \ _ = ∅
          rw [Finset.empty_union, Finset.sdiff_eq_empty_iff_subset]
          intro n hn
          obtain ⟨hold, hgone⟩ := Finset.mem_sdiff.mp hn
          by_contra hne
          obtain ⟨f, hf, rfl⟩ := Version.mem_numbers.mp hold
          refine hgone (Version.mem_numbers.mpr ⟨f, mem_files_install_of_ne (fun g hg heq => hne ?_) hf, rfl⟩)
          rw [List.mem_toFinset, ← heq]
          exact List.mem_map_of_mem hg

/-! ## Recovery -/

/-- What a recovery has done so far. -/
structure Cleaning where
  /-- The version that it has loaded. -/
  version : Option Version := none
  /-- The names that are left of those that it has found. -/
  left : Option (List String) := none

def recoverRules : Typestate Call Call.Res Cleaning where
  ok _ _ := True
  next s
    | .storeCurrent v, _ => { s with version := some v }
    | .readDir, disk => { s with left := some disk.keys }
    | .openAppend _, _ => { s with left := none }
    | .unlink name, _ => { s with left := s.left.map fun names => names.filter (· ≠ name) }
    | _, _ => s

/-- Every table that is left is in the version. -/
def recoverDone (r : Except Status Unit) (s : Cleaning) : Prop :=
  r = .ok () → ∃ v names, s.version = some v ∧ s.left = some names ∧
    ∀ n, n < 2 ^ 64 → numberToName n ∈ names → n ∈ v.numbers

/-- `RemoveOrphanFiles`, when it has got to the last names. -/
theorem follows_removeOrphanFiles {v : Version} {names left : List String}
    (hleft : ∀ n, n < 2 ^ 64 → numberToName n ∈ left → n ∈ v.numbers ∨ numberToName n ∈ names) :
    (DB.removeOrphanFiles v names).Follows recoverRules (fun _ => recoverDone (.ok ()))
      { version := some v, left := some left } := by
  induction names generalizing left with
  | nil =>
    intro _
    exact ⟨v, left, rfl, rfl, fun n hlt hn => (hleft n hlt hn).resolve_right List.not_mem_nil⟩
  -- each name is no table, a live one, or is unlinked
  | cons name names ih =>
    rw [DB.removeOrphanFiles]
    cases hparse : parseFileNumber name with
    | none =>
      -- the name of a table can be read
      refine ih fun n hlt hn => (hleft n hlt hn).imp_right fun hmem => ?_
      rcases List.mem_cons.mp hmem with rfl | hmem
      · rw [parseFileNumber_numberToName hlt] at hparse
        cases hparse
      · exact hmem
    | some m =>
      show (if m ∈ v.files.map (·.number) then _ else _ : DBM Unit).Follows _ _ _
      split
      next hlive =>
        refine ih fun n hlt hn => ?_
        rcases hleft n hlt hn with hmem | hmem
        · exact .inl hmem
        rcases List.mem_cons.mp hmem with rfl | hmem
        · rw [parseFileNumber_numberToName hlt] at hparse
          cases hparse
          exact .inl (List.mem_toFinset.mpr hlive)
        · exact .inr hmem
      next hdead =>
        refine ⟨trivial, fun _ => ih fun n hlt hn => ?_⟩
        obtain ⟨hn, hne⟩ := List.mem_filter.mp hn
        refine (hleft n hlt hn).imp_right fun hmem => ?_
        rcases List.mem_cons.mp hmem with rfl | hmem
        · rw [parseFileNumber_numberToName hlt] at hparse
          cases hparse
          simp at hne
        · exact hmem

/-- `Recover`. -/
theorem follows_recover : (DB.recover cfg).run.Follows recoverRules recoverDone {} := by
  have hlenient (e : Status) (s : Cleaning) : recoverDone (.error e) s := fun h => by cases h
  have hdefined {α : Type} {x : Option α} {f : α → DBE Unit} {s : Cleaning}
      (hf : ∀ a, (f a).run.Follows recoverRules recoverDone s) :
      (DB.defined x >>= f).run.Follows recoverRules recoverDone s := by
    cases x with
    | none => trivial
    | some a => exact hf a
  refine follows_bindE.mpr ⟨trivial, fun disk => ?_⟩
  apply hdefined
  intro loaded
  -- a damaged manifest ends the call
  cases loaded with
  | error e => exact hlenient e _
  | ok loaded =>
    obtain ⟨loaded, next⟩ := loaded
    refine follows_bindE.mpr ⟨trivial, fun _ => ?_⟩
    refine follows_bindE.mpr ⟨trivial, fun _ => ?_⟩
    apply hdefined
    intro records
    refine follows_bindE.mpr ⟨trivial, fun mem => ?_⟩
    apply hdefined
    intro mem
    refine follows_bindE.mpr ⟨trivial, fun _ => ?_⟩
    refine follows_bindE.mpr ⟨trivial, fun r => ?_⟩
    cases r with
    | error errno => exact hlenient _ _
    | ok u =>
      refine ⟨trivial, fun _ => ?_⟩
      refine follows_bindE.mpr ⟨trivial, fun disk => ?_⟩
      -- at first every name of the directory is still to be looked at
      show (liftM (DB.removeOrphanFiles _ disk.keys) : DBE Unit).run.Follows _ _ _
      exact follows_bind.mpr (follows_removeOrphanFiles fun n _ hn => .inr hn)

end Parts

end Lsmdb
