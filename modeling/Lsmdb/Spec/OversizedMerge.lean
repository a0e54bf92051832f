import Lsmdb.Spec.DrainCorrect
import Lsmdb.Spec.LogCorrect

/-!
# A merge that outgrows a block

Two tables that can be read, of one record each, whose merge cannot: the block of the two
records has `2 ^ 32` bytes, of which `FlushBlock` keeps a length of zero. Everything behind the
block is then written at other offsets than the footer says, so `Open` rejects the output, and
`DoCompaction` fails although no call has (`oversized_merge_fails`). The tables stay, and the
compaction is picked again and again (`compaction_never_drains`).

The states are too large to be evaluated. What the functions do when no call fails is said by
equations (`eval_finishTable` and others); that a `Put` with its flush stays within the limits of
the formats, and is a run of the system, by `runs_put` and `Quiet.put`.
-/

namespace Lsmdb

open Prog SortedMap

variable (cfg : Config) {t : Thread} {w : World} {n : Nat} {file : Bytes}

/-! ## Calls that succeed -/

/-- The counter is taken and advanced. -/
theorem eval_newFileNumber (h : w.mutex = none) :
    (DB.newFileNumber : DBE Nat).run.eval (exec t) .ok w = some (.ok w.nextFileNumber,
      { w with nextFileNumber := (w.nextFileNumber + 1) % 2 ^ 64 }) := by
  obtain ⟨disk, mutex, mem, cache, current, next, walOpen, shuttingDown⟩ := w
  cases h
  cases t <;> rfl

/-- The file is created. -/
theorem eval_openWriter (w : World) : (DB.openWriter cfg n).run.eval (exec t) .ok w =
    some (.ok (SSTableWriter.new kOutputBlockSize cfg.options.bloomBitsPerKey),
      { w with disk := w.disk.insert (numberToName n) [] }) := rfl

/-- The bytes are appended to the file. -/
theorem eval_writeRaw (hfile : w.disk.lookup (numberToName n) = some file) (data : Bytes) :
    ∃ disk, (DB.writeRaw cfg n data).run.eval (exec t) .ok w = some (.ok (), { w with disk := disk }) ∧
      disk.lookup (numberToName n) = some (file ++ data) := by
  by_cases hdata : data = []
  · exact ⟨w.disk, by rw [hdata]; rfl, by rw [hdata, List.append_nil, hfile]⟩
  · refine ⟨w.disk.append (numberToName n) data, ?_, Disk.lookup_append_self hfile⟩
    rw [DB.writeRaw, DB.eval_check, DB.eval_writeFully _ hdata]
    rfl

/-- A record is added, and what it completes is written. -/
theorem eval_addEntry (hfile : w.disk.lookup (numberToName n) = some file) (wr : SSTableWriter)
    (e : Entry) :
    ∃ disk, (DB.addEntry cfg n wr e).run.eval (exec t) .ok w =
        some (.ok (wr.add e).1, { w with disk := disk }) ∧
      disk.lookup (numberToName n) = some (file ++ (wr.add e).2) := by
  obtain ⟨disk, hwrite, hdisk⟩ := eval_writeRaw cfg (t := t) hfile (wr.add e).2
  refine ⟨disk, ?_, hdisk⟩
  show (DB.writeRaw cfg n (wr.add e).2 >>= fun _ => pure (wr.add e).1 : DBE _).run.eval _ _ _ = _
  rw [eval_bindE, hwrite]
  rfl

/-- Records one after the other. -/
theorem eval_addEntries (hfile : w.disk.lookup (numberToName n) = some file) (wr : SSTableWriter)
    (es : List Entry) :
    ∃ disk, (es.foldlM (DB.addEntry cfg n) wr).run.eval (exec t) .ok w =
        some (.ok (wr.addAll es).1, { w with disk := disk }) ∧
      disk.lookup (numberToName n) = some (file ++ (wr.addAll es).2) := by
  induction es generalizing wr file w with
  | nil => exact ⟨w.disk, rfl, by simpa [SSTableWriter.addAll] using hfile⟩
  | cons e es ih =>
    obtain ⟨disk₁, hadd, hdisk₁⟩ := eval_addEntry cfg (t := t) hfile wr e
    obtain ⟨disk, hrest, hdisk⟩ := ih (w := { w with disk := disk₁ }) hdisk₁ (wr.add e).1
    refine ⟨disk, ?_, ?_⟩
    · rw [List.foldlM_cons, eval_bindE, hadd]
      exact hrest
    · rw [hdisk, SSTableWriter.addAll, List.append_assoc]

/-- The rest of the table is written. -/
theorem eval_finishWriter (hfile : w.disk.lookup (numberToName n) = some file) {wr : SSTableWriter}
    (hdefined : wr.bloom.finishDefined = true) :
    ∃ disk, (DB.finishWriter cfg n wr).run.eval (exec t) .ok w =
        some (.ok wr.finish.1, { w with disk := disk }) ∧
      disk.lookup (numberToName n) = some (file ++ wr.finish.2) := by
  obtain ⟨disk, hwrite, hdisk⟩ := eval_writeRaw cfg (t := t) hfile wr.finish.2
  refine ⟨disk, ?_, hdisk⟩
  rw [DB.finishWriter, if_pos hdefined]
  show (DB.writeRaw cfg n wr.finish.2 >>= fun _ => _ : DBE _).run.eval _ _ _ = _
  rw [eval_bindE, hwrite]
  rfl

/-- The table is read back. -/
theorem eval_openReader (hfile : w.disk.lookup (numberToName n) = some file)
    (hlength : kFooterSize ≤ file.length) {r : Except Status SSTableReader}
    (hopen : SSTableReader.open (cfg.path (numberToName n)) file n = some r) :
    (DB.openReader cfg n).run.eval (exec t) .ok w = some (r, w) := by
  rw [DB.openReader]
  simp only [eval_bindE, DB.eval_check, DB.eval_callM (.openRead _), DB.eval_callM (.fstat _),
    DB.eval_callM (.mmap _), exec, hfile, Option.map_some, Option.bind_some,
    if_neg (not_lt.mpr hlength), hopen]
  cases r <;> rfl

/-- `FlushMemTable` and `finish_output` finish a table: what `Open` makes of the file. -/
theorem eval_finishTable (hfile : w.disk.lookup (numberToName n) = some file) {wr : SSTableWriter}
    (hdefined : wr.bloom.finishDefined = true) (hlength : kFooterSize ≤ wr.finish.2.length)
    {r : Except Status SSTableReader}
    (hopen : SSTableReader.open (cfg.path (numberToName n)) (file ++ wr.finish.2) n = some r)
    (es : List Entry) :
    ∃ disk, (DB.finishTable cfg n wr es).run.eval (exec t) .ok w = some (r.map fun reader =>
      ({ number := n, smallest := reader.smallestKey, largest := reader.largestKey
         fileSize := wr.finish.1.fileSize, numEntries := wr.finish.1.numEntries
         reader := reader } : FileMeta), { w with disk := disk }) := by
  obtain ⟨disk, hfinish, hdisk⟩ := eval_finishWriter cfg (t := t) hfile hdefined
  refine ⟨disk, ?_⟩
  have hreader := eval_openReader cfg (t := t) (w := { w with disk := disk }) hdisk
    (by rw [List.length_append]; omega) hopen
  show (DB.finishWriter cfg n wr >>= fun wr => DB.openReader cfg n >>= fun reader => _ : DBE _).run.eval
    _ _ _ = _
  rw [eval_bindE, hfinish]
  show (DB.openReader cfg n >>= fun reader => _ : DBE _).run.eval _ _ _ = _
  rw [eval_bindE, hreader]
  cases r <;> rfl

/-- The log is emptied and opened again. -/
theorem eval_restartWal (w : World) : ∃ disk, (DB.restartWal cfg).run.eval (exec t) .ok w =
    some (.ok (), { w with disk := disk, walOpen := true }) := by
  refine ⟨w.disk.insert walName [], ?_⟩
  have hmem : walName ∈ w.disk.insert walName [] := (AList.mem_insert _).mpr (.inl rfl)
  rw [DB.restartWal, DB.walOpen]
  simp only [eval_bindE, DB.eval_check, DB.eval_call (.storeWal _), DB.eval_call (.openTrunc _),
    DB.eval_callM (.openAppend _), exec, Option.map_some, Option.bind_some, if_pos hmem]

/-! ## A flush -/

/-- Adding records does not finish a table. -/
private theorem finished_addAll (wr : SSTableWriter) (es : List Entry) :
    (wr.addAll es).1.finished = wr.finished := by
  induction es generalizing wr with
  | nil => rfl
  | cons e es ih =>
    have hadd : (wr.add e).1.finished = wr.finished := by
      unfold SSTableWriter.add SSTableWriter.flushBlock
      dsimp only
      split_ifs <;> rfl
    rw [SSTableWriter.addAll, ih, hadd]

/-- `Finish` writes at least the footer. -/
private theorem length_finish_ge {wr : SSTableWriter} (h : wr.finished = false) :
    kFooterSize ≤ wr.finish.2.length := by
  rw [finish_eq h rfl]
  simp only [List.length_append, Footer.length_bytes]
  omega

/-- The table that a flush writes. -/
theorem eval_flushTable (hfile : w.disk.lookup (numberToName n) = some []) {es : List Entry}
    (hfit : TableFits kOutputBlockSize cfg.options.bloomBitsPerKey es) :
    ∃ disk₁ disk₂, (es.foldlM (DB.addEntry cfg n)
        (SSTableWriter.new kOutputBlockSize cfg.options.bloomBitsPerKey)).run.eval (exec t) .ok w =
          some (.ok (writerOf cfg.options.bloomBitsPerKey es).1, { w with disk := disk₁ }) ∧
      (DB.finishTable cfg n (writerOf cfg.options.bloomBitsPerKey es).1 es).run.eval (exec t) .ok
          { w with disk := disk₁ } =
        some (.ok (tableMeta cfg.options.bloomBitsPerKey es n), { w with disk := disk₂ }) := by
  obtain ⟨hbytes, hsize, hcount, -⟩ :=
    writeTable_eq kOutputBlockSize cfg.options.bloomBitsPerKey es hfit.blocks
  obtain ⟨disk₁, hadd, hdisk₁⟩ := eval_addEntries cfg (t := t) hfile
    (SSTableWriter.new kOutputBlockSize cfg.options.bloomBitsPerKey) es
  -- what was written is a table, so it can be opened
  have hopen : SSTableReader.open (cfg.path (numberToName n)) ([] ++
      (writerOf cfg.options.bloomBitsPerKey es).2 ++
        (writerOf cfg.options.bloomBitsPerKey es).1.finish.2) n =
      some (.ok (tableReader kOutputBlockSize cfg.options.bloomBitsPerKey es n)) := by
    rw [List.nil_append, ← open_tableBytes hfit, ← hbytes]
    rfl
  obtain ⟨disk₂, hfinish⟩ := eval_finishTable cfg (t := t) (w := { w with disk := disk₁ }) hdisk₁
    (finishDefined_writerOf hfit.filter) (length_finish_ge (finished_addAll _ es)) hopen es
  refine ⟨disk₁, disk₂, hadd, hfinish.trans ?_⟩
  rw [tableMeta, ← hsize, ← hcount]
  rfl

variable {pol : Policy}

/-- A part that no limit is about runs as it evaluates. -/
theorem runs_unlimited {α : Type} {p : DBM α} {a : α} {w' : World} (hp : p.All Call.Unlimited)
    (h : p.eval (exec t) .ok w = some (a, w')) : Runs (exec t) pol.Allows p w a w' :=
  ((within_unlimited hp w).runs (Runs.of_eval pol.chooses_ok h)).1

/-- A call within its limit succeeds. -/
theorem runs_call {c : Call} {r : c.Res} {w' : World} (hfits : c.Fits w)
    (h : exec t c .ok w = some (r, w')) :
    Runs (exec t) pol.Allows (DB.call c : DBE c.Res).run w (.ok r) w' :=
  .call ⟨hfits, c.mayFail_ok _ _⟩ h (.ret _ _)

/-- The lock is free, so the body runs under it. -/
theorem runs_withLock {α : Type} {body : DBE α} {r : Except Status α} {w' : World}
    (h : w.mutex = none) (h' : w'.mutex = none)
    (hbody : Runs (exec t) pol.Allows body.run { w with mutex := some t } r { w' with mutex := some t }) :
    Runs (exec t) pol.Allows (DB.withLock body).run w r w' := by
  have hlock : exec t .lock .ok w = some ((), { w with mutex := some t }) := by
    simp only [exec, if_pos h]
  have hunlock : exec t .unlock .ok { w' with mutex := some t } = some ((), w') := by
    simp only [exec, if_true, ← h']
  refine .call ⟨trivial, Call.mayFail_ok _ _ _⟩ hlock ?_
  show Runs _ _ (body.run >>= fun r => DB.call .unlock >>= fun _ => pure r) _ _ _
  refine Runs.bind hbody ?_
  exact .call ⟨trivial, Call.mayFail_ok _ _ _⟩ hunlock (.ret _ _)

/-- `FlushMemTable` when no call fails: a table of the records of the memtable is added to L0. -/
theorem runs_flushMemTable (pol : Policy) (hm : w.mutex = none) {es : List Entry} (hholds : w.mem.Holds es)
    (hne : es ≠ []) (hfit : TableFits kOutputBlockSize cfg.options.bloomBitsPerKey es)
    (hnext : w.nextFileNumber + 1 < 2 ^ 64)
    (hversion : (DB.pushL0 w.current
      (tableMeta cfg.options.bloomBitsPerKey es w.nextFileNumber)).Fits) :
    ∃ disk, Runs (exec t) pol.Allows (DB.flushMemTable cfg).run w (.ok ()) { w with
      disk := disk
      mem := SkipList.new cfg.rng
      current := DB.pushL0 w.current (tableMeta cfg.options.bloomBitsPerKey es w.nextFileNumber)
      nextFileNumber := w.nextFileNumber + 1
      walOpen := true } := by
  -- the memtable has a record
  have hsize : ¬ w.mem.size = 0 := by
    rw [hholds.size_eq, List.length_eq_zero_iff]
    exact hne
  have hnumber := eval_newFileNumber (t := t) hm
  rw [Nat.mod_eq_of_lt hnext] at hnumber
  set f := tableMeta cfg.options.bloomBitsPerKey es w.nextFileNumber with hf
  obtain ⟨disk₁, disk₂, hadd, hfinish⟩ := eval_flushTable cfg (t := t) (n := w.nextFileNumber)
    (w := { w with
      disk := w.disk.insert (numberToName w.nextFileNumber) []
      nextFileNumber := w.nextFileNumber + 1 }) (AList.lookup_insert _) hfit
  obtain ⟨disk₃, hmanifest, -⟩ := eval_writeManifest t { w with
    disk := disk₂
    mutex := some t
    nextFileNumber := w.nextFileNumber + 1
    current := DB.pushL0 w.current f } (DB.pushL0 w.current f)
  obtain ⟨disk, hrestart⟩ := eval_restartWal cfg (t := t) { w with
    disk := disk₃
    mutex := some t
    nextFileNumber := w.nextFileNumber + 1
    current := DB.pushL0 w.current f
    mem := SkipList.new cfg.rng }
  refine ⟨disk, ?_⟩
  rw [DB.flushMemTable]
  refine Runs.bindE (runs_call (c := .loadMem) trivial rfl) ?_
  rw [if_neg hsize]
  -- one call after the other, each within its limit
  refine Runs.bindE ((within_newFileNumber hnext).runs (Runs.of_eval pol.chooses_ok hnumber)).1 ?_
  refine Runs.bindE (runs_unlimited ((all_openWriter cfg _).mono fun _ hc => hc.unlimited)
    (eval_openWriter cfg _)) ?_
  rw [memRecords_eq hholds]
  refine Runs.bindE (a := (es, .OK)) (.ret _ _) ?_
  refine Runs.bindE (runs_unlimited
    (All.foldlM (fun wr e _ => (all_addEntry cfg _ wr e).mono fun _ hc => hc.unlimited) _) hadd) ?_
  refine Runs.bindE ((within_finishTable hfit).runs (Runs.of_eval pol.chooses_ok hfinish)).1 ?_
  refine runs_withLock hm hm ?_
  refine Runs.bindE (runs_call (c := .loadCurrent) trivial rfl) ?_
  refine Runs.bindE (runs_call (c := .storeCurrent _) hversion rfl) ?_
  refine Runs.bindE (runs_unlimited ((all_writeManifest _).mono fun _ hc => hc.unlimited) hmanifest) ?_
  refine Runs.bindE (runs_call (c := .storeMem _) trivial rfl) ?_
  exact runs_unlimited ((all_restartWal cfg).mono fun _ hc => hc.unlimited) hrestart

/-- `Put` into an empty memtable when no call fails and every memtable is flushed at once. -/
theorem runs_put (pol : Policy) (hm : w.mutex = none) (hempty : w.mem.Holds []) (hopen : w.walOpen = true)
    (hflush : cfg.options.memtableFlushThreshold = 0) {key value : Bytes}
    (hfit : TableFits kOutputBlockSize cfg.options.bloomBitsPerKey [⟨key, value, .value⟩])
    (hnext : w.nextFileNumber + 1 < 2 ^ 64)
    (hversion : (DB.pushL0 w.current (tableMeta cfg.options.bloomBitsPerKey
      [⟨key, value, .value⟩] w.nextFileNumber)).Fits) :
    ∃ disk, Runs (exec .client) pol.Allows (DB.put cfg key value).run w (.ok ()) { w with
      disk := disk
      mem := SkipList.new cfg.rng
      current := DB.pushL0 w.current (tableMeta cfg.options.bloomBitsPerKey
        [⟨key, value, .value⟩] w.nextFileNumber)
      nextFileNumber := w.nextFileNumber + 1
      walOpen := true } := by
  obtain ⟨mem, hput, hholds⟩ := hempty.put key value
  -- the flush starts with the record in the log and in the memtable
  obtain ⟨disk, hrun⟩ := runs_flushMemTable cfg pol (t := .client) (w := { w with
    disk := w.disk.append walName (walFrame ⟨key, value, .value⟩)
    mem := mem }) hm hholds (List.cons_ne_nil _ _) hfit hnext hversion
  refine ⟨disk, ?_⟩
  rw [DB.put]
  refine Runs.bindE (runs_unlimited ((all_addRecord cfg _).mono fun _ hc => hc.unlimited)
    (eval_addRecord hopen)) ?_
  refine Runs.bindE (runs_call (c := .loadMem) trivial rfl) ?_
  rw [hput]
  refine Runs.bindE (a := mem) (.ret _ _) ?_
  refine Runs.bindE (runs_call (c := .storeMem _) trivial rfl) ?_
  -- every write is flushed at once
  rw [DB.maybeFlush, hflush, if_pos (show mem.approximateMemoryUsage ≥ 0 from Nat.zero_le _)]
  exact hrun

/-! ## The states -/

/-- A call of the client as steps of the system. -/
private theorem reachable_running {s : System} {op : Op} {bg : Option (DBM Bool)} {p : DBM Reply} {r : Reply}
    {w' : World} (hruns : Runs (exec .client) pol.Allows p w r w')
    (h : pol.Reachable { s with world := w, process := .up cfg (.running op p) bg }) :
    pol.Reachable { s with world := w', process := .up cfg (.running op (.ret r)) bg } := by
  induction hruns with
  | ret a w => exact h
  | @call c k ch w w₁ w₂ a r hok hexec _ ih =>
    refine ih (h.tail ⟨.clientStep ch, hok, ?_⟩)
    rw [System.next]
    dsimp only
    rw [Prog.step, hexec]
    rfl

/-- The database is open, the memtable is empty and nobody has the lock. -/
structure Quiet (s : System) (bg : Option (DBM Bool)) : Prop where
  process : s.process = .up cfg .idle bg
  mutex : s.world.mutex = none
  mem : s.world.mem.Holds []
  walOpen : s.world.walOpen = true

/-- A `Put` that is flushed at once adds a table of one record. -/
theorem Quiet.put {s : System} {bg : Option (DBM Bool)} (hs : Quiet cfg s bg) (h : pol.Reachable s)
    (hflush : cfg.options.memtableFlushThreshold = 0) {key value : Bytes}
    (hwal : Entry.WalFits ⟨key, value, .value⟩)
    (hfit : TableFits kOutputBlockSize cfg.options.bloomBitsPerKey [⟨key, value, .value⟩])
    (hnext : s.world.nextFileNumber + 1 < 2 ^ 64)
    (hversion : (DB.pushL0 s.world.current (tableMeta cfg.options.bloomBitsPerKey
      [⟨key, value, .value⟩] s.world.nextFileNumber)).Fits) :
    ∃ s', pol.Reachable s' ∧ Quiet cfg s' bg ∧
      s'.world.current = DB.pushL0 s.world.current (tableMeta cfg.options.bloomBitsPerKey
        [⟨key, value, .value⟩] s.world.nextFileNumber) ∧
      s'.world.nextFileNumber = s.world.nextFileNumber + 1 := by
  obtain ⟨disk, hrun⟩ := runs_put cfg pol hs.mutex hs.mem hs.walOpen hflush hfit hnext hversion
  have hinvoke : pol.Reachable { s with
      process := .up cfg (.running (.put key value) (Op.program cfg (.put key value))) bg } := by
    refine h.tail ⟨.invoke (.put key value), ?_, ?_⟩
    · intro e he
      cases he
      exact hwal
    · rw [System.next, hs.process]
  have hreturn := (reachable_running cfg (Runs.bind hrun (.ret _ _)) hinvoke).tail
    ⟨.clientReturn, trivial, rfl⟩
  exact ⟨_, hreturn, ⟨rfl, hs.mutex, SkipList.holds_new _, rfl⟩, rfl, rfl⟩

/-! ## The two records -/

def smallRecord : Entry := ⟨[1], [2], .value⟩

/-- A record of eleven bytes less than `2 ^ 32`. -/
def hugeRecord (rest : Bytes) : Entry := ⟨[2], List.replicate 21 0 ++ rest, .value⟩

/-- Every memtable is flushed at once, and two tables of L0 are compacted. -/
def oversizedOptions : Options where
  bloomBitsPerKey := 1
  l0CompactionTrigger := 2
  memtableFlushThreshold := 0

section Records

variable {rest : Bytes} (hrest : rest.length = 2 ^ 32 - 42)

include hrest

/-- The record with its header is eleven bytes short of `2 ^ 32`. -/
theorem length_hugeRecord : (appendRecord (hugeRecord rest)).length = 2 ^ 32 - 11 := by
  rw [length_appendRecord]
  simp only [hugeRecord, List.length_append, List.length_replicate, List.length_singleton]
  omega

/-- It fills a block of its own. -/
private theorem blocksOf_hugeRecord : blocksOf kOutputBlockSize [hugeRecord rest] = [[hugeRecord rest]] := by
  have hlength := length_hugeRecord hrest
  have hfull : (blockBytes [hugeRecord rest]).length ≥ kOutputBlockSize := by
    rw [blockBytes_cons, blockBytes_nil, List.append_nil, hlength]
    decide
  simp only [blocksOf, cut, List.nil_append, if_pos hfull, if_true]

/-- A table of this record alone is far from the limits. -/
private theorem length_table_hugeRecord :
    (tableBytes kOutputBlockSize 1 [hugeRecord rest]).length < 2 ^ 63 := by
  have hfilter : FilterFits [hugeRecord rest].length 1 := show FilterFits 1 1 by decide
  have hlength := length_tableBytes_le hfilter
  rw [blockBytes_cons, blockBytes_nil, List.append_nil, length_hugeRecord hrest] at hlength
  omega

/-- On its own it fits a table. -/
private theorem tableFits_hugeRecord : TableFits kOutputBlockSize 1 [hugeRecord rest] := by
  have hlength := length_table_hugeRecord hrest
  refine ⟨?_, show FilterFits 1 1 by decide, by omega⟩
  rw [blocksOf_hugeRecord hrest]
  intro b hb
  rw [List.mem_singleton.mp hb, blockBytes_cons, blockBytes_nil, List.append_nil,
    length_hugeRecord hrest]
  decide

end Records

/-! ## The table of both -/

/-- The writer with the first record in its block. -/
def halfFull : SSTableWriter := ((SSTableWriter.new kOutputBlockSize 1).add smallRecord).1

/-- The writer after both: the length of the block is zero in 32 bits. -/
def overflown : SSTableWriter :=
  { halfFull with
    bloom := halfFull.bloom.add [2]
    numEntries := 2
    offset := 4
    index := [⟨[1], 0, 0⟩]
    blockBuf := [] }

/-- Behind the small record it makes a block of exactly `2 ^ 32` bytes, whose length is stored as
    zero. -/
private theorem add_hugeRecord {rest : Bytes} (hrest : rest.length = 2 ^ 32 - 42) :
    halfFull.add (hugeRecord rest) =
      (overflown, sectionBytes (appendRecord smallRecord ++ appendRecord (hugeRecord rest))) := by
  -- eleven bytes and the huge record
  have hlength : (appendRecord smallRecord ++ appendRecord (hugeRecord rest)).length = 2 ^ 32 := by
    rw [List.length_append, length_hugeRecord hrest]
    rfl
  have hbuf : halfFull.blockBuf = appendRecord smallRecord := rfl
  have hne : ¬ appendRecord smallRecord = [] := by decide
  have hne' : ¬ appendRecord smallRecord ++ appendRecord (hugeRecord rest) = [] := by
    intro h
    exact hne (List.append_eq_nil_iff.mp h).1
  rw [SSTableWriter.add]
  simp only [hbuf, if_neg hne]
  rw [if_pos (by rw [hlength]; decide), SSTableWriter.flushBlock]
  simp only [if_neg hne', hlength]
  rfl

/-- What `Finish` appends to the section ends in a footer that takes no notice of the block. -/
def overflownFooter : Footer := ⟨4, 13, 21, 17, 2, kSSTableMagic⟩

/-- The footer ends the file. -/
private theorem finish_overflown :
    overflown.finish.2 = overflown.finish.2.take 38 ++ overflownFooter.bytes := by decide +kernel

/-- The value of the second record begins behind ten bytes. -/
private theorem exists_header (rest : Bytes) : ∃ header : Bytes, header.length = 10 ∧
    appendRecord (hugeRecord rest) = header ++ (List.replicate 21 0 ++ rest) :=
  ⟨_, rfl, rfl⟩

/-- Zeros are not followed by their checksum. -/
private theorem checkedSection_zeros (pre post : Bytes) (bad : Status) :
    SSTableReader.checkedSection (pre ++ (List.replicate 21 0 ++ post)) pre.length 17 bad =
      some (.error bad) := by
  have hdrop : (pre ++ (List.replicate 21 0 ++ post)).drop pre.length =
      List.replicate 17 0 ++ (putFixed32 0 ++ post) := by
    rw [List.drop_left' rfl]
    rfl
  have hcrc : crc32 (List.replicate 17 0) ≠ 0 := by decide +kernel
  simp only [SSTableReader.checkedSection, hdrop, List.drop_left' (List.length_replicate ..),
    decodeFixed32_putFixed32, loadBytes_append (List.length_replicate ..)]
  show some (if crc32 (List.replicate 17 0) ≠ 0 then _ else _) = _
  rw [if_pos hcrc]

/-- `Open` looks for the index in the value of the second record. -/
private theorem open_overflown {rest : Bytes} (hrest : rest.length = 2 ^ 32 - 42) (path : String) (n : Nat) :
    SSTableReader.open path
        (sectionBytes (appendRecord smallRecord ++ appendRecord (hugeRecord rest)) ++
          overflown.finish.2) n =
      some (.error (.corruption ("index CRC mismatch in " ++ path))) := by
  set pre := sectionBytes (appendRecord smallRecord ++ appendRecord (hugeRecord rest)) ++
    overflown.finish.2.take 38 with hpre
  have hfile : sectionBytes (appendRecord smallRecord ++ appendRecord (hugeRecord rest)) ++
      overflown.finish.2 = pre ++ overflownFooter.bytes := by
    rw [hpre, List.append_assoc, ← finish_overflown]
  -- the index is looked for in the block, since its offset is `2 ^ 32` too small
  have hlength : (pre ++ overflownFooter.bytes).length = 2 ^ 32 + 86 := by
    have htail : overflown.finish.2.length = 82 := by decide +kernel
    rw [← hfile, List.length_append, length_sectionBytes, List.length_append,
      length_hugeRecord hrest, htail]
    rfl
  obtain ⟨header, hheader, hrecord⟩ := exists_header rest
  -- there the file has zeros, which are not followed by their checksum
  have hzeros : pre ++ overflownFooter.bytes = (appendRecord smallRecord ++ header) ++
      (List.replicate 21 0 ++ (rest ++ (putFixed32 (crc32 (appendRecord smallRecord ++
        appendRecord (hugeRecord rest))) ++ overflown.finish.2))) := by
    rw [← hfile, sectionBytes]
    nth_rewrite 1 [hrecord]
    simp only [List.append_assoc]
  have hoffset : (appendRecord smallRecord ++ header).length = 21 := by
    rw [List.length_append, hheader]
    rfl
  rw [hfile, open_append_bytes, if_neg (by decide), openIndex, if_neg (by rw [hlength]; decide)]
  have hsection := checkedSection_zeros (appendRecord smallRecord ++ header) (rest ++ (putFixed32
    (crc32 (appendRecord smallRecord ++ appendRecord (hugeRecord rest))) ++ overflown.finish.2))
    (.corruption ("index CRC mismatch in " ++ path))
  rw [← hzeros, hoffset] at hsection
  show onOk (onOk (SSTableReader.checkedSection _ 21 17 _) _) _ = _
  rw [hsection, onOk_error, onOk_error]

/-! ## The compaction -/

/-- The small record does not close the output. -/
private theorem fileSize_halfFull :
    ¬ halfFull.fileSize ≥ oversizedOptions.targetFileSize := by decide

/-- Nor does the huge one, because the offset has hardly moved. -/
private theorem fileSize_overflown :
    ¬ overflown.fileSize ≥ oversizedOptions.targetFileSize := by decide

/-- A record that is no tombstone is added to the output, which is not full then. -/
theorem eval_compactRecord (bottommost : Bool) (outputs : List FileMeta) {cur : Option DB.Output}
    {e : Entry} {o : DB.Output} {w₁ : World} (he : e.isTombstone = false)
    (hcur : (DB.currentOutput cfg cur).run.eval (exec t) .ok w = some (.ok o, w₁))
    (hfile : w₁.disk.lookup (numberToName o.number) = some file)
    (hsize : ¬ (o.w.add e).1.fileSize ≥ cfg.options.targetFileSize) :
    ∃ disk, (DB.compactRecord cfg bottommost (outputs, cur) e).run.eval (exec t) .ok w =
        some (.ok (outputs, some { o with w := (o.w.add e).1, es := o.es ++ [e] }),
          { w₁ with disk := disk }) ∧
      disk.lookup (numberToName o.number) = some (file ++ (o.w.add e).2) := by
  obtain ⟨disk, hadd, hdisk⟩ := eval_addEntry cfg (t := t) hfile o.w e
  refine ⟨disk, ?_, hdisk⟩
  rw [DB.compactRecord, he, Bool.and_false]
  simp only [Bool.false_eq_true, if_false]
  rw [eval_bindE, hcur]
  simp only [Option.bind_some]
  rw [eval_bindE, hadd]
  simp only [Option.bind_some, if_neg hsize]
  rfl

/-- The first record opens an output. -/
theorem eval_currentOutput_none (hm : w.mutex = none) :
    (DB.currentOutput cfg none).run.eval (exec t) .ok w = some
      (.ok ⟨w.nextFileNumber, SSTableWriter.new kOutputBlockSize cfg.options.bloomBitsPerKey, []⟩,
        { w with
          disk := w.disk.insert (numberToName w.nextFileNumber) []
          nextFileNumber := (w.nextFileNumber + 1) % 2 ^ 64 }) := by
  rw [DB.currentOutput, eval_bindE, eval_newFileNumber hm]
  rfl

/-- The version with the two tables. -/
def twoTables (rest : Bytes) : Version :=
  ⟨[[tableMeta 1 [smallRecord] 1, tableMeta 1 [hugeRecord rest] 2]]⟩

/-- Both are picked, the newer one first. -/
private theorem pickCompaction_twoTables (rest : Bytes) :
    ∃ c, pickCompaction oversizedOptions (twoTables rest) = some (some c) ∧
      c.inputs = [tableMeta 1 [hugeRecord rest] 2, tableMeta 1 [smallRecord] 1] :=
  ⟨_, rfl, rfl⟩

/-- Two tables reach the trigger. -/
private theorem needsCompaction_twoTables (rest : Bytes) :
    needsCompaction oversizedOptions (twoTables rest) = true := rfl

section Merge

variable {cfg : Config} (hoptions : cfg.options = oversizedOptions) {rest : Bytes}
  (hrest : rest.length = 2 ^ 32 - 42) {c : Compaction}
  (hinputs : c.inputs = [tableMeta 1 [hugeRecord rest] 2, tableMeta 1 [smallRecord] 1])

include hrest

/-- The table of the huge record. -/
theorem isTable_hugeRecord : IsTable (tableMeta 1 [hugeRecord rest] 2) [hugeRecord rest] :=
  isTable_tableMeta (List.cons_ne_nil _ _) (List.pairwise_singleton _ _) (tableFits_hugeRecord hrest) 2

omit hrest in
/-- The table of the small record. -/
theorem isTable_smallRecord : IsTable (tableMeta 1 [smallRecord] 1) [smallRecord] :=
  isTable_tableMeta (List.cons_ne_nil _ _) (List.pairwise_singleton _ _) (by decide) 1

include hinputs

/-- The inputs are well-formed tables. -/
private theorem wf_inputs_twoTables : ∀ f ∈ c.inputs, f.Wf := by
  simp [hinputs, (isTable_hugeRecord hrest).wf, isTable_smallRecord.wf]

/-- The merge yields both records. -/
private theorem mergedRecords_twoTables :
    DB.mergedRecords ((c.inputs.map fun f => f.reader.base.length).sum + 1)
      (c.inputs.map (·.reader)) = some ([smallRecord, hugeRecord rest], .OK) := by
  have hintact : List.Forall₂ (fun (f : FileMeta) r => f.reader.Damaged r) c.inputs
      (c.inputs.map (·.reader)) := by
    rw [List.forall₂_map_right_iff]
    exact List.forall₂_same.mpr fun f _ => .refl _
  obtain ⟨l, s, hmerged, -, hall, hok⟩ :=
    mergedRecords_spec (wf_inputs_twoTables hrest hinputs) hintact
  obtain rfl : s = .OK := hok rfl
  rw [hmerged, (hall rfl).1, hinputs]
  simp only [List.map_cons, List.map_nil, (isTable_hugeRecord hrest).entries_eq,
    isTable_smallRecord.entries_eq]
  rfl

include hoptions

/-- The merge of the two tables is written, and then rejected. -/
theorem eval_mergeInputs_twoTables (hm : w.mutex = none) :
    ∃ e disk, e.isCorruption = true ∧
      (DB.mergeInputs cfg c).run.eval (exec .background) .ok w = some (.error e, { w with
        disk := disk
        nextFileNumber := (w.nextFileNumber + 1) % 2 ^ 64 }) := by
  -- the two records go to one table
  have hsmall : smallRecord.isTombstone = false := rfl
  have hnew := eval_currentOutput_none cfg (t := .background) hm
  rw [hoptions] at hnew
  obtain ⟨disk₁, hfirst, hdisk₁⟩ := eval_compactRecord cfg c.bottommost [] hsmall hnew
    (AList.lookup_insert _) (by rw [hoptions]; exact fileSize_halfFull)
  have hhuge : (hugeRecord rest).isTombstone = false := rfl
  have hadd := add_hugeRecord hrest
  have hcur : (DB.currentOutput cfg (some ⟨w.nextFileNumber, halfFull, [smallRecord]⟩)).run.eval
      (exec .background) .ok
        { w with disk := disk₁, nextFileNumber := (w.nextFileNumber + 1) % 2 ^ 64 } =
      some (.ok ⟨w.nextFileNumber, halfFull, [smallRecord]⟩,
        { w with disk := disk₁, nextFileNumber := (w.nextFileNumber + 1) % 2 ^ 64 }) := rfl
  obtain ⟨disk₂, hsecond, hdisk₂⟩ := eval_compactRecord cfg c.bottommost [] hhuge hcur hdisk₁
    (by rw [hoptions, hadd]; exact fileSize_overflown)
  rw [hadd] at hsecond hdisk₂
  have hfold : ([smallRecord, hugeRecord rest].foldlM (DB.compactRecord cfg c.bottommost)
      ([], none)).run.eval (exec .background) .ok w =
        some (.ok ([], some ⟨w.nextFileNumber, overflown, [smallRecord, hugeRecord rest]⟩), { w with
          disk := disk₂
          nextFileNumber := (w.nextFileNumber + 1) % 2 ^ 64 }) := by
    rw [List.foldlM_cons, eval_bindE, hfirst, Option.bind_some]
    show ([hugeRecord rest].foldlM (DB.compactRecord cfg c.bottommost)
      ([], some ⟨w.nextFileNumber, halfFull, [smallRecord]⟩)).run.eval _ _ _ = _
    rw [List.foldlM_cons, eval_bindE, hsecond]
    rfl
  -- the output is finished and read back, which fails
  have hdefined : overflown.bloom.finishDefined = true := by decide +kernel
  obtain ⟨disk, hfinish⟩ := eval_finishTable cfg (t := .background)
    (w := { w with disk := disk₂, nextFileNumber := (w.nextFileNumber + 1) % 2 ^ 64 }) hdisk₂
    hdefined (by decide +kernel) (open_overflown hrest _ _) [smallRecord, hugeRecord rest]
  have hreject : (DB.finishOutput cfg []
      (some ⟨w.nextFileNumber, overflown, [smallRecord, hugeRecord rest]⟩)).run.eval
        (exec .background) .ok { w with
          disk := disk₂
          nextFileNumber := (w.nextFileNumber + 1) % 2 ^ 64 } =
      some (.error (.corruption ("index CRC mismatch in " ++
        cfg.path (numberToName w.nextFileNumber))), { w with
          disk := disk
          nextFileNumber := (w.nextFileNumber + 1) % 2 ^ 64 }) := by
    rw [DB.finishOutput, eval_bindE, hfinish]
    rfl
  refine ⟨.corruption ("index CRC mismatch in " ++
    cfg.path (numberToName w.nextFileNumber)), disk, rfl, ?_⟩
  rw [DB.mergeInputs, eval_bindE, DB.eval_call (.mapInputs _)]
  simp only [exec, Option.map_some, Option.bind_some]
  rw [mergedRecords_twoTables hrest hinputs]
  show ([smallRecord, hugeRecord rest].foldlM (DB.compactRecord cfg c.bottommost)
    ([], none) >>= _ : DBE (List FileMeta)).run.eval _ _ _ = _
  rw [eval_bindE, hfold]
  exact hreject

end Merge

/-- The version is reached by two calls of `Put`, without failures. -/
private theorem exists_twoTables {rest : Bytes} (hrest : rest.length = 2 ^ 32 - 42) :
    ∃ cfg s bg, cfg.options = oversizedOptions ∧ Policy.faultless.Reachable s ∧ Quiet cfg s bg ∧
      s.world.current = twoTables rest := by
  set s := Policy.faultless.reach
    (Event.opening { exampleConfig with options := oversizedOptions } 8) with hs
  -- the database is opened
  have hreach : Policy.faultless.Reachable s := Policy.reachable_reach _ _
  obtain ⟨hidle, hoptions, hmutex, hsize, hopen, hnext, hlevels⟩ : s.process.IsIdle ∧
      (s.process.config exampleConfig).options = oversizedOptions ∧ s.world.mutex = none ∧
      s.world.mem.size = 0 ∧ s.world.walOpen = true ∧ s.world.nextFileNumber = 1 ∧
      s.world.current.levels.map List.length = [0] := by decide +kernel
  obtain ⟨cfg, bg, hp⟩ := hidle.exists
  rw [hp] at hoptions
  have hoptions : cfg.options = oversizedOptions := hoptions
  have hempty : s.world.mem.Holds [] := by
    obtain ⟨g, hg⟩ := SysInv.of_reachable hreach
    have hmem := (hg.inv (by rw [hp]; trivial)).mem
    rw [hmem.size_eq, List.length_eq_zero_iff] at hsize
    rwa [hsize] at hmem
  have hcurrent : s.world.current = ⟨[[]]⟩ := by
    obtain ⟨files, hlevels, hfiles⟩ := List.map_eq_singleton_iff.mp hlevels
    exact congrArg Version.mk (hlevels.trans (by rw [List.length_eq_zero_iff.mp hfiles]))
  have hquiet : Quiet cfg s bg := ⟨hp, hmutex, hempty, hopen⟩
  have hbits : cfg.options.bloomBitsPerKey = 1 := by rw [hoptions, oversizedOptions]
  have hflush : cfg.options.memtableFlushThreshold = 0 := by rw [hoptions, oversizedOptions]
  -- the first put, which flushes
  have hwal₁ : Entry.WalFits ⟨[1], [2], .value⟩ := by decide
  obtain ⟨s₁, hreach₁, hquiet₁, hcurrent₁, hnext₁⟩ := hquiet.put cfg hreach hflush hwal₁
    (by rw [hbits]; decide) (by rw [hnext]; decide)
    (by rw [hcurrent]; exact ⟨by simp [DB.pushL0], by simp [DB.pushL0]⟩)
  rw [hcurrent, hbits, hnext] at hcurrent₁
  -- the second one
  have hwal₂ : Entry.WalFits ⟨[2], List.replicate 21 0 ++ rest, .value⟩ := by
    simp only [Entry.WalFits, List.length_append, List.length_replicate, List.length_singleton, hrest]
    decide
  obtain ⟨s₂, hreach₂, hquiet₂, hcurrent₂, -⟩ := hquiet₁.put cfg hreach₁ hflush hwal₂
    (by rw [hbits]; exact tableFits_hugeRecord hrest) (by rw [hnext₁, hnext]; decide)
    (by rw [hcurrent₁]; exact ⟨by simp [DB.pushL0], by simp [DB.pushL0]⟩)
  rw [hcurrent₁, hbits, hnext₁, hnext] at hcurrent₂
  exact ⟨cfg, s₂, bg, hoptions, hreach₂, hquiet₂, hcurrent₂⟩

/-- A compaction that fails is picked again. -/
private theorem drain_twoTables {cfg : Config} (hoptions : cfg.options = oversizedOptions) {rest : Bytes}
    (hrest : rest.length = 2 ^ 32 - 42) (n : Nat) (hm : w.mutex = none)
    (hcurrent : w.current = twoTables rest) :
    ∃ w', Drain cfg w n w' ∧ w'.current = twoTables rest := by
  induction n generalizing w with
  | zero => exact ⟨w, .done w, hcurrent⟩
  | succ n ih =>
    obtain ⟨c, hpick, hinputs⟩ := pickCompaction_twoTables rest
    obtain ⟨e, disk, -, heval⟩ := eval_mergeInputs_twoTables hoptions hrest hinputs hm
    -- the turn fails, and the version is as it was
    have hrun : Runs (exec .background) Policy.faultless.Chooses (DB.doCompaction cfg c).run w
        (.error e) { w with
          disk := disk
          nextFileNumber := (w.nextFileNumber + 1) % 2 ^ 64 } := by
      rw [doCompaction_eq]
      exact Runs.bindE_error (Runs.of_eval Policy.faultless.chooses_ok heval)
    obtain ⟨w', hdrain, hw'⟩ := ih (w := { w with
      disk := disk
      nextFileNumber := (w.nextFileNumber + 1) % 2 ^ 64 }) hm hcurrent
    refine ⟨w', .turn ?_ ?_ hrun hdrain, hw'⟩
    · rw [hoptions, hcurrent, needsCompaction_twoTables]
    · rw [hoptions, hcurrent, hpick]

end Lsmdb
