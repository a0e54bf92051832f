import Lsmdb.ForStd.Typestate
import Lsmdb.Native.DB
import Lsmdb.Spec.BoundsCorrect

/-!
# The calls that the parts of the engine make

Each part of `Lsmdb.Native.DB` works on one thing: a table, the log, the manifest. This
is said once here, as the set of the calls that it can make, and what a rule about calls
means for the part follows from that. Whatever fails in a part, its error is none that
says `OK` (`NotOk`).
-/

namespace Lsmdb

open Prog

/-- The calls on the file of a table. -/
def Call.OnFile (number : Nat) : Call → Prop
  | openTrunc name | openRead name | fstat name | mmap name | write name _ | fsync name
  | close name => name = numberToName number
  | _ => False

/-- The calls that write a table and open it for reading. -/
def Call.OnTable (number : Nat) : Call → Prop
  | tableDone _ _ => True
  | c => c.OnFile number

/-- The calls on the file of a table are calls on the table. -/
theorem Call.OnFile.onTable {number : Nat} {c : Call} (h : c.OnFile number) : c.OnTable number := by
  cases c with
  | tableDone => trivial
  | _ => exact h

/-- The calls on the log. -/
def Call.OnLog : Call → Prop
  | loadWal | storeWal _ => True
  | openTrunc name | openAppend name | write name _ | fsync name => name = walName
  | _ => False

/-- The calls that write the manifest. -/
def Call.OnManifest : Call → Prop
  | loadFileNumber => True
  | openTrunc name | write name _ | fsync name | close name => name = manifestTmpName
  | rename src dst => src = manifestTmpName ∧ dst = manifestName
  | _ => False

section

variable {P : Call → Prop} {α : Type}

/-- A program of one call. -/
theorem allE_call {c : Call} (h : P c) : (DB.call c : DBE c.Res).run.All P :=
  ⟨h, fun _ => trivial⟩

/-- A value that is computed makes no call. -/
theorem allE_defined (x : Option α) : (DB.defined x : DBE α).run.All P := by
  cases x <;> trivial

/-- The check of a result makes no call of its own. -/
theorem allE_check {x : DBM (Except String α)} (h : x.All P) (status : String → Status) :
    (DB.check x status).run.All P := by
  apply All.bind h
  intro r
  cases r <;> trivial

/-- `std::lock_guard` adds the calls on the mutex. -/
theorem allE_withLock {body : DBE α} (hlock : P .lock) (h : body.run.All P)
    (hunlock : P .unlock) : (DB.withLock body).run.All P :=
  ⟨hlock, fun _ => h.bind fun _ => ⟨hunlock, fun _ => trivial⟩⟩

/-- `WriteFully` makes one `write` after the other. -/
theorem all_writeFully {name : String} (h : ∀ data, P (.write name data)) (data : Bytes) :
    (DB.writeFully name data).All P := by
  rw [DB.writeFully]
  generalize data.length = fuel
  -- the fuel is the number of bytes, of which each `write` takes at least one
  induction fuel generalizing data with
  | zero => cases data <;> trivial
  | succ fuel ih =>
    cases data with
    | nil => trivial
    | cons b data =>
      refine ⟨h _, fun r => ?_⟩
      cases r with
      | error errno => trivial
      | ok n => exact ih _

end

variable (cfg : Config) (number : Nat)

/-! ## Tables -/

/-- `SSTableWriter::Open` works on the file of the table. -/
theorem all_openWriter : (DB.openWriter cfg number).run.All (Call.OnFile number) := by
  apply All.bindE
  · apply allE_check
    exact ⟨rfl, fun _ => trivial⟩
  · exact fun _ => trivial

/-- So does `WriteRaw`. -/
theorem all_writeRaw (data : Bytes) :
    (DB.writeRaw cfg number data).run.All (Call.OnFile number) := by
  apply allE_check
  exact all_writeFully (fun _ => rfl) data

/-- So does `Add`. -/
theorem all_addEntry (w : SSTableWriter) (e : Entry) :
    (DB.addEntry cfg number w e).run.All (Call.OnFile number) := by
  apply All.bindE (all_writeRaw cfg number _)
  exact fun _ => trivial

/-- So does `Finish`. -/
theorem all_finishWriter (w : SSTableWriter) :
    (DB.finishWriter cfg number w).run.All (Call.OnFile number) := by
  -- the filter, the rest of the file, `fsync` and `close`
  apply All.bindE (allE_defined _)
  intro _
  apply All.bindE (all_writeRaw cfg number _)
  intro _
  apply All.bindE
  · apply allE_check
    exact ⟨rfl, fun _ => trivial⟩
  intro _
  apply All.bindE
  · apply allE_check
    exact ⟨rfl, fun _ => trivial⟩
  · exact fun _ => trivial

/-- So does `SSTableReader::Open`. -/
theorem all_openReader : (DB.openReader cfg number).run.All (Call.OnFile number) := by
  -- `open`, `fstat` and `mmap`
  apply All.bindE
  · apply allE_check
    exact ⟨rfl, fun _ => trivial⟩
  intro file
  apply All.bindE
  · apply allE_check
    exact ⟨rfl, fun _ => trivial⟩
  intro _
  show (if _ then _ else _ : DBE SSTableReader).run.All _
  split
  · trivial
  · apply All.bindE
    · apply allE_check
      exact ⟨rfl, fun _ => trivial⟩
    intro _
    apply All.bindE (allE_defined _)
    intro r
    cases r <;> trivial

/-- So does the end of a table, from `Finish` to the reader. -/
theorem all_finishTable (w : SSTableWriter) (es : List Entry) :
    (DB.finishTable cfg number w es).run.All (Call.OnTable number) := by
  apply All.bindE (allE_call trivial)
  intro _
  apply All.bindE ((all_finishWriter cfg number w).mono fun _ hc => hc.onTable)
  intro w'
  apply All.bindE ((all_openReader cfg number).mono fun _ hc => hc.onTable)
  exact fun _ => trivial

/-! ## The manifest and the log -/

/-- `WriteManifest` works on the manifest and its temporary file. -/
theorem all_writeManifest (v : Version) : (DB.writeManifest v).run.All Call.OnManifest := by
  -- the counter, the temporary file with its `fsync`, and the `rename`
  apply All.bindE (allE_call trivial)
  intro next
  apply All.bindE
  · apply allE_check
    exact ⟨rfl, fun _ => trivial⟩
  intro _
  apply All.bindE
  · exact allE_check (all_writeFully (fun _ => rfl) _) _
  intro _
  apply All.bindE
  · apply allE_check
    exact ⟨rfl, fun _ => trivial⟩
  intro _
  apply All.bindE
  · exact allE_call rfl
  intro _
  apply allE_check
  exact ⟨⟨rfl, rfl⟩, fun _ => trivial⟩

/-- `AddRecord` works on the log. -/
theorem all_addRecord (e : Entry) : (DB.addRecord cfg e).run.All Call.OnLog := by
  apply All.bindE (allE_call trivial)
  intro isOpen
  show (if _ then _ else _ : DBE Unit).run.All _
  split
  · trivial
  · apply All.bindE
    · exact allE_check (all_writeFully (fun _ => rfl) _) _
    intro _
    split
    -- with `sync_writes`
    · apply allE_check
      exact ⟨rfl, fun _ => trivial⟩
    · trivial

/-- So does `WalWriter::Open`. -/
theorem all_walOpen : (DB.walOpen cfg).run.All Call.OnLog := by
  apply All.bindE
  · apply allE_check
    exact ⟨rfl, fun _ => trivial⟩
  · exact fun _ => allE_call trivial

/-- So does emptying the log. -/
theorem all_restartWal : (DB.restartWal cfg).run.All Call.OnLog := by
  apply All.bindE (allE_call trivial)
  intro _
  apply All.bindE
  · exact allE_call rfl
  · exact fun _ => all_walOpen cfg

/-! ## Errors -/

/-- An error is none that says `OK`. -/
def NotOk {α : Type} (r : Except Status α) : Prop := ∀ e, r = .error e → e.ok = false

/-- A failed call becomes a status that is not `OK`. -/
theorem notOk_check {α : Type} (x : DBM (Except String α)) {status : String → Status}
    (h : ∀ errno, (status errno).ok = false) : (DB.check x status).run.Returns NotOk := by
  refine returns_bind.mpr (returns_of_forall fun r => ?_)
  cases r with
  | ok a => exact fun e he => by cases he
  | error errno =>
    intro e he
    cases he
    exact h errno

/-- A call that cannot fail returns no error. -/
theorem notOk_call (c : Call) : (DB.call c : DBE c.Res).run.Returns NotOk :=
  fun _ e he => by cases he

/-- Nor does a value that is computed. -/
theorem notOk_defined {α : Type} (x : Option α) : (DB.defined x : DBE α).run.Returns NotOk := by
  cases x with
  | none => trivial
  | some a => exact fun e he => by cases he

/-- A part of `Open` that fails says so. -/
def Reports {α : Type} (x : Option (Except Status α)) : Prop := ∀ s, x = some (.error s) → s.ok = false

/-- An error of either stage is reported. -/
theorem reports_onOk {α β : Type} {x : Option (Except Status α)} {f : α → Option (Except Status β)}
    (hx : Reports x) (hf : ∀ a, Reports (f a)) : Reports (onOk x f) := by
  intro s hs
  rcases x with _ | s' | a
  · cases hs
  · cases hs
    exact hx s rfl
  · exact hf a s hs

/-- A checksum that does not match is reported. -/
theorem reports_checkedSection (file : Bytes) (offset length : Nat) {bad : Status}
    (hbad : bad.ok = false) : Reports (SSTableReader.checkedSection file offset length bad) := by
  intro s hs
  rcases checkedSection_cases hs with heq | ⟨data, post, heq, -⟩
  · cases heq
    exact hbad
  · cases heq

/-- So is an index entry that is cut off. -/
theorem reports_indexStep (p : Bytes) : Reports (SSTableReader.indexStep p) := by
  intro s hs
  simp only [SSTableReader.indexStep, Bind.bind, Pure.pure] at hs
  split at hs
  · cases hs
    rfl
  obtain ⟨klen, -, hs⟩ := Option.bind_eq_some_iff.mp hs
  split at hs
  · cases hs
    rfl
  simp [Option.bind_eq_some_iff] at hs

/-- So is one anywhere in the index. -/
theorem reports_parseIndex (p : Bytes) : Reports (SSTableReader.parseIndex p) := by
  fun_induction SSTableReader.parseIndex p with
  -- the end of the index
  | case1 =>
    intro s hs
    cases hs
  | case2 =>
    intro s hs
    cases hs
  -- an entry that is cut off
  | case3 p _ s hstep =>
    intro s' hs
    cases hs
    exact reports_indexStep p s hstep
  -- an error behind a good entry is passed on
  | case4 p _ e rest hstep ih =>
    intro s hs
    obtain ⟨r, hr, hmap⟩ := Option.map_eq_some_iff.mp hs
    cases r with
    | ok index => cases hmap
    | error s' =>
      cases hmap
      exact ih s hr

/-- `SSTableReader::Open` does not return an error that is `OK`. -/
theorem reports_open (path : String) (file : Bytes) (number : Nat) :
    Reports (SSTableReader.open path file number) := by
  by_cases hsmall : file.length < kFooterSize
  -- the file is too small for a footer
  · intro s hs
    rw [SSTableReader.open, if_pos hsmall] at hs
    cases hs
    rfl
  obtain ⟨body, ft, rfl⟩ := exists_footer (not_lt.mp hsmall)
  rw [open_append_bytes]
  split
  -- the magic number is wrong
  · intro s hs
    cases hs
    rfl
  apply reports_onOk
  -- the index
  · unfold openIndex
    split
    · intro s hs
      cases hs
      rfl
    · exact reports_onOk (reports_checkedSection _ _ _ rfl) reports_parseIndex
  intro index
  apply reports_onOk
  -- the filter
  · rw [loadFilter_eq]
    split
    · apply reports_onOk (reports_checkedSection _ _ _ rfl)
      intro bytes s hs
      cases hreset : BloomFilter.reset bytes <;> simp [hreset] at hs
    · intro s hs
      cases hs
  -- the key range
  · intro r s hs
    by_cases hnil : r.index = []
    · rw [deriveRange_nil hnil] at hs
      cases hs
    · obtain ⟨first, rest, hindex⟩ := List.exists_cons_of_ne_nil hnil
      rw [deriveRange_cons hindex] at hs
      refine reports_onOk (fun s => ok_of_readBlock_error) (fun block s hs => ?_) s hs
      obtain ⟨largest, -, hmap⟩ := Option.map_eq_some_iff.mp hs
      cases hmap

/-- `SSTableWriter::Open` reports its failures. -/
private theorem notOk_openWriter : (DB.openWriter cfg number).run.Returns NotOk := by
  apply Returns.bindE
  · exact notOk_check _ fun _ => rfl
  · exact fun _ e he => by cases he

/-- So does `WriteRaw`. -/
private theorem notOk_writeRaw (data : Bytes) : (DB.writeRaw cfg number data).run.Returns NotOk :=
  notOk_check _ fun _ => rfl

/-- So does `Add`. -/
private theorem notOk_addEntry (w : SSTableWriter) (e : Entry) :
    (DB.addEntry cfg number w e).run.Returns NotOk := by
  apply Returns.bindE (notOk_writeRaw cfg number _)
  exact fun _ e he => by cases he

/-- So does `SSTableReader::Open`. -/
theorem notOk_openReader : (DB.openReader cfg number).run.Returns NotOk := by
  apply Returns.bindE
  · exact notOk_check _ fun _ => rfl
  intro file
  apply Returns.bindE
  · exact notOk_check _ fun _ => rfl
  intro _
  show (if _ then _ else _ : DBE SSTableReader).run.Returns _
  split
  -- an empty file
  · intro e he
    cases he
    rfl
  apply Returns.bindE
  · exact notOk_check _ fun _ => rfl
  intro _
  rcases hopen : SSTableReader.open (cfg.path (numberToName number)) file number with _ | s | reader
  · trivial
  · intro e he
    cases he
    exact reports_open _ _ _ s hopen
  · exact fun e he => by cases he

/-- A table that cannot be finished or opened is reported. -/
private theorem notOk_finishTable (w : SSTableWriter) (es : List Entry) :
    (DB.finishTable cfg number w es).run.Returns NotOk := by
  apply Returns.bindE (notOk_call _)
  intro _
  apply Returns.bindE
  · apply Returns.bindE (notOk_defined _)
    intro _
    apply Returns.bindE (notOk_writeRaw cfg number _)
    intro _
    apply Returns.bindE
    · exact notOk_check _ fun _ => rfl
    intro _
    apply Returns.bindE
    · exact notOk_check _ fun _ => rfl
    · exact fun _ e he => by cases he
  intro w'
  apply Returns.bindE (notOk_openReader cfg number)
  exact fun _ e he => by cases he

/-- A manifest that cannot be written is reported. -/
theorem notOk_writeManifest (v : Version) : (DB.writeManifest v).run.Returns NotOk := by
  apply Returns.bindE (notOk_call _)
  intro next
  -- each step of the temporary file, and the rename
  apply Returns.bindE
  · exact notOk_check _ fun _ => rfl
  intro _
  apply Returns.bindE
  · exact notOk_check _ fun _ => rfl
  intro _
  apply Returns.bindE
  · exact notOk_check _ fun _ => rfl
  intro _
  apply Returns.bindE (notOk_call _)
  intro _
  exact notOk_check _ fun _ => rfl

/-- A log that cannot be opened again is reported. -/
theorem notOk_restartWal : (DB.restartWal cfg).run.Returns NotOk := by
  apply Returns.bindE (notOk_call _)
  intro _
  apply Returns.bindE (notOk_call _)
  intro _
  apply Returns.bindE
  · exact notOk_check _ fun _ => rfl
  · exact fun _ => notOk_call _

/-- The lock does not change the result. -/
private theorem notOk_withLock {α : Type} {body : DBE α} (h : body.run.Returns NotOk) :
    (DB.withLock body).run.Returns NotOk := by
  refine returns_bind.mpr fun _ => returns_bind.mpr (h.mono fun r hr => ?_)
  exact fun _ => hr

/-- `AddRecord` reports its failures. -/
private theorem notOk_addRecord (e : Entry) : (DB.addRecord cfg e).run.Returns NotOk := by
  apply Returns.bindE (notOk_call _)
  intro isOpen
  show (if _ then _ else _ : DBE Unit).run.Returns _
  split
  -- without a log
  · intro e he
    cases he
    rfl
  apply Returns.bindE
  · exact notOk_check _ fun _ => rfl
  intro _
  split
  · exact notOk_check _ fun _ => rfl
  · exact fun e he => by cases he

/-- A flush that fails is reported. -/
theorem notOk_flushMemTable : (DB.flushMemTable cfg).run.Returns NotOk := by
  apply Returns.bindE (notOk_call _)
  intro mem
  show (if _ then _ else _ : DBE Unit).run.Returns _
  -- an empty memtable is not flushed
  split
  · exact fun e he => by cases he
  apply Returns.bindE
  · exact fun _ _ _ e he => by cases he
  intro number
  apply Returns.bindE (notOk_openWriter cfg number)
  intro w
  apply Returns.bindE (notOk_defined _)
  intro es
  apply Returns.bindE
  · exact Returns.foldlM (fun w e => notOk_addEntry cfg number w e) _ _
  intro w
  apply Returns.bindE (notOk_finishTable cfg number w _)
  intro f
  -- the installation, under the lock
  apply notOk_withLock
  apply Returns.bindE (notOk_call _)
  intro v
  apply Returns.bindE (notOk_call _)
  intro _
  apply Returns.bindE (notOk_writeManifest _)
  intro _
  apply Returns.bindE (notOk_call _)
  exact fun _ => notOk_restartWal cfg

/-- So does the flush that a write triggers. -/
private theorem notOk_maybeFlush (mem : SkipList) : (DB.maybeFlush cfg mem).run.Returns NotOk := by
  rw [DB.maybeFlush]
  split
  · exact notOk_flushMemTable cfg
  · exact fun e he => by cases he

/-- So does `Put`. -/
theorem notOk_put (key value : Bytes) : (DB.put cfg key value).run.Returns NotOk := by
  apply Returns.bindE (notOk_addRecord cfg _)
  intro _
  apply Returns.bindE (notOk_call _)
  intro mem
  apply Returns.bindE (notOk_defined _)
  intro mem
  apply Returns.bindE (notOk_call _)
  exact fun _ => notOk_maybeFlush cfg mem

/-- So does `Delete`. -/
theorem notOk_delete (key : Bytes) : (DB.delete cfg key).run.Returns NotOk := by
  apply Returns.bindE (notOk_addRecord cfg _)
  intro _
  apply Returns.bindE (notOk_call _)
  intro mem
  apply Returns.bindE (notOk_defined _)
  intro mem
  apply Returns.bindE (notOk_call _)
  exact fun _ => notOk_maybeFlush cfg mem

end Lsmdb
