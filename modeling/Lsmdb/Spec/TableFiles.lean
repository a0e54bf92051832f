import Lsmdb.Native.DB
import Lsmdb.Spec.MergeCorrect
import Lsmdb.Spec.SkipListCorrect

/-!
# Table files

The files that versions are made of. `FileMeta.Wf` says that a file is the finished
table of its records; every file that a flush or a compaction installs is one
(`wf_tableMeta`), and the layers above only use what follows from it. A file can be
`Damaged` later on: blocks that fail their checksum, and nothing else.
-/

namespace Lsmdb

open SortedMap Cursor

/-- The metadata of a finished table. -/
def tableMeta (bitsPerKey : Int) (es : List Entry) (number : Nat) : FileMeta where
  number := number
  smallest := (es.head?.map (·.key)).getD []
  largest := (es.getLast?.map (·.key)).getD []
  fileSize := (tableBytes kOutputBlockSize bitsPerKey es).length.toUInt64
  numEntries := es.length.toUInt64
  reader := tableReader kOutputBlockSize bitsPerKey es number

/-- The records of a table: what a loop over its iterator sees. -/
def FileMeta.entries (f : FileMeta) : List Entry :=
  (f.reader.newIterator.seekToFirst.bind (drain (f.reader.base.length + 1))).elim [] Prod.fst

/-- A table of the given records, in ascending order and at least one of them. -/
structure IsTable (f : FileMeta) (es : List Entry) : Prop where
  ne_nil : es ≠ []
  sorted : Sorted Entry.key es
  eq_tableMeta : ∃ bitsPerKey, TableFits kOutputBlockSize bitsPerKey es ∧
    f = tableMeta bitsPerKey es f.number

/-- A finished table. -/
def FileMeta.Wf (f : FileMeta) : Prop := IsTable f f.entries

/-- The blocks of a table. -/
def FileMeta.blocks (f : FileMeta) : List (List Entry) := blocksOf kOutputBlockSize f.entries

/-- What the writer has written is a table. -/
theorem isTable_tableMeta {bitsPerKey : Int} {es : List Entry} (hne : es ≠ [])
    (hs : Sorted Entry.key es) (hfit : TableFits kOutputBlockSize bitsPerKey es) (number : Nat) :
    IsTable (tableMeta bitsPerKey es number) es :=
  ⟨hne, hs, bitsPerKey, hfit, rfl⟩

/-- Its reader serves its blocks. -/
theorem IsTable.serves {f : FileMeta} {es : List Entry} (h : IsTable f es) :
    Serves f.reader (blocksOf kOutputBlockSize es) := by
  obtain ⟨-, hs, bitsPerKey, hfit, heq⟩ := h
  rw [heq]
  exact serves_tableReader hs hfit f.number

/-- All of them can be read. -/
theorem IsTable.intact {f : FileMeta} {es : List Entry} (h : IsTable f es) :
    Intact f.reader (blocksOf kOutputBlockSize es) := by
  obtain ⟨-, -, bitsPerKey, hfit, heq⟩ := h
  rw [heq]
  exact intact_tableReader hfit f.number

/-- A record takes at least a byte. -/
theorem IsTable.length_le_base {f : FileMeta} {es : List Entry} (h : IsTable f es) :
    es.length ≤ f.reader.base.length := by
  obtain ⟨-, -, bitsPerKey, -, heq⟩ := h
  rw [heq]
  exact length_le_tableBytes _ _ _

/-- A table has one list of records. -/
theorem IsTable.entries_eq {f : FileMeta} {es : List Entry} (h : IsTable f es) :
    f.entries = es := by
  obtain ⟨it, hseek, hy⟩ := SSTableReader.Iterator.seekToFirst_yields h.serves
    (show f.reader.newIterator.reader = f.reader from rfl) fun _ => rfl
  have hintact : ∀ j b, (blocksOf kOutputBlockSize es)[j]? = some b →
      f.reader.readBlock (0 + j) = some (.ok (blockBytes b)) := by
    intro j b hb
    rw [Nat.zero_add]
    exact h.intact j b hb
  rw [stream_of_intact 0 hintact, flatten_blocksOf] at hy
  rw [FileMeta.entries, hseek, Option.bind_some,
    hy.drain_eq (Nat.lt_succ_of_le h.length_le_base)]
  rfl

/-- A table is well-formed with the records that can be read from it. -/
theorem IsTable.wf {f : FileMeta} {es : List Entry} (h : IsTable f es) : f.Wf := by
  rw [FileMeta.Wf, h.entries_eq]
  exact h

namespace FileMeta.Wf

variable {f : FileMeta}

/-- The records of a table are sorted. -/
theorem sorted (h : f.Wf) : Sorted Entry.key f.entries := IsTable.sorted h

/-- A table has a record. -/
theorem entries_ne_nil (h : f.Wf) : f.entries ≠ [] := IsTable.ne_nil h

/-- Its reader serves its blocks. -/
theorem serves (h : f.Wf) : Serves f.reader f.blocks := IsTable.serves h

/-- All of them can be read. -/
theorem intact (h : f.Wf) : Intact f.reader f.blocks := IsTable.intact h

/-- Blocks are cached under the number of the table. -/
theorem fileNumber_eq (h : f.Wf) : f.reader.fileNumber = f.number := by
  obtain ⟨bitsPerKey, -, heq⟩ := h.eq_tableMeta
  rw [heq]
  rfl

/-- The lower bound is the first key. -/
theorem smallest_eq (h : f.Wf) : f.smallest = (f.entries.head?.map (·.key)).getD [] := by
  obtain ⟨bitsPerKey, -, heq⟩ := h.eq_tableMeta
  have heq' := congrArg FileMeta.smallest heq
  exact heq'

/-- The upper bound is the last key. -/
theorem largest_eq (h : f.Wf) : f.largest = (f.entries.getLast?.map (·.key)).getD [] := by
  obtain ⟨bitsPerKey, -, heq⟩ := h.eq_tableMeta
  have heq' := congrArg FileMeta.largest heq
  exact heq'

/-- The smallest key is that of a record. -/
theorem exists_smallest (h : f.Wf) : ∃ e ∈ f.entries, e.key = f.smallest := by
  rw [h.smallest_eq]
  obtain ⟨e, es, heq⟩ := List.exists_cons_of_ne_nil h.entries_ne_nil
  exact ⟨e, by rw [heq]; exact List.mem_cons_self, by rw [heq]; rfl⟩

/-- The largest key is that of a record. -/
theorem exists_largest (h : f.Wf) : ∃ e ∈ f.entries, e.key = f.largest := by
  rw [h.largest_eq]
  refine ⟨f.entries.getLast h.entries_ne_nil, List.getLast_mem _, ?_⟩
  rw [List.getLast?_eq_some_getLast h.entries_ne_nil]
  rfl

/-- No key is below the lower bound. -/
theorem smallest_le (h : f.Wf) {e : Entry} (he : e ∈ f.entries) : f.smallest ≤ e.key := by
  rw [h.smallest_eq]
  have hs := h.sorted
  rcases hes : f.entries with _ | ⟨x, es⟩
  · exact absurd hes h.entries_ne_nil
  · rw [hes] at he hs
    rcases List.mem_cons.mp he with rfl | he
    · exact le_rfl
    · exact ((sorted_cons.mp hs).1 e he).le

/-- No key is above the upper bound. -/
theorem le_largest (h : f.Wf) {e : Entry} (he : e ∈ f.entries) : e.key ≤ f.largest := by
  rw [h.largest_eq]
  have hs := h.sorted
  rcases List.eq_nil_or_concat f.entries with hnil | ⟨es, x, hes⟩
  · exact absurd hnil h.entries_ne_nil
  · rw [List.concat_eq_append] at hes
    rw [hes] at he hs ⊢
    rw [List.getLast?_concat]
    rcases List.mem_append.mp he with he | he
    · exact ((sorted_append.mp hs).2.2 e he x (List.mem_singleton_self x)).le
    · rw [List.mem_singleton.mp he]
      exact le_rfl

/-- The bounds are in order. -/
theorem smallest_le_largest (h : f.Wf) : f.smallest ≤ f.largest := by
  obtain ⟨e, he, hk⟩ := h.exists_smallest
  exact hk ▸ h.le_largest he

/-- A key outside of the range of a table is not in it. -/
theorem find_eq_none (h : f.Wf) {k : Bytes} (hk : k < f.smallest ∨ f.largest < k) :
    find Entry.key k f.entries = none := by
  rw [find_eq_none_iff]
  rintro e he rfl
  rcases hk with hk | hk
  · exact hk.not_ge (h.smallest_le he)
  · exact hk.not_ge (h.le_largest he)

end FileMeta.Wf

/-! ## Damage -/

/-- The same reader over bytes in which some blocks fail their checksum. -/
structure SSTableReader.Damaged (r r' : SSTableReader) : Prop where
  eq : r' = { r with base := r'.base }
  length_eq : r'.base.length = r.base.length
  readBlock : ∀ i, r'.readBlock i = r.readBlock i ∨
    r'.readBlock i = some (.error (.corruption "block CRC mismatch"))

/-- No block need be damaged. -/
theorem SSTableReader.Damaged.refl (r : SSTableReader) : r.Damaged r :=
  ⟨rfl, rfl, fun _ => .inl rfl⟩

/-- A damaged reader still serves the table, but for the unreadable blocks. -/
theorem Serves.damaged {r r' : SSTableReader} {bs : List (List Entry)} (h : Serves r bs)
    (hd : r.Damaged r') : Serves r' bs := by
  obtain ⟨heq, -, hblocks⟩ := hd
  have hindex : r'.index = r.index := by rw [heq]
  have hfilter : r'.filter = r.filter := by rw [heq]
  refine ⟨hindex.trans h.index_eq, h.sorted, h.ne_nil, h.fits, h.length_lt, ?_, ?_, ?_⟩
  · rw [hfilter]
    exact h.filter_total
  · rw [hfilter]
    exact h.filter_mem
  · intro i b hb
    -- a block is as before or gives an error
    rcases hblocks i with hsame | hbad
    · rw [BlockServed, hsame]
      exact h.served i b hb
    · exact .inr ⟨_, hbad, rfl⟩

/-- The first byte of a table is changed. -/
def spoil (r : SSTableReader) : SSTableReader := { r with base := r.base.set 0 255 }

/-- A table of one block that does not pass its checksum is damaged. -/
theorem damaged_spoil {r : SSTableReader} (hindex : r.index.length = 1)
    (hread : (spoil r).readBlock 0 = some (.error (.corruption "block CRC mismatch"))) :
    r.Damaged (spoil r) where
  eq := rfl
  length_eq := List.length_set
  readBlock i := by
    cases i with
    | zero => exact .inr hread
    | succ i =>
      have hnone : r.index[i + 1]? = none := List.getElem?_eq_none (by omega)
      exact .inl (by simp [SSTableReader.readBlock, spoil, hnone])

/-- An iterator that is sent to the start of a table reads it, wherever it stood. -/
theorem Serves.seekToFirst_reads {r : SSTableReader} {bs : List (List Entry)} (h : Serves r bs)
    {it : SSTableReader.Iterator} (hit : it.Positioned r) :
    ∃ it', it.seekToFirst = some it' ∧ Reads it' (bs.flatten, (stream r 0 bs).2) := by
  obtain ⟨hreader, hempty⟩ := hit.spec
  have hstatus : bs = [] → it.status = .OK := by
    intro hnil
    have hindex := h.index_eq
    rw [hnil] at hindex
    exact (hempty hindex).2
  obtain ⟨it', hseek, hy⟩ := SSTableReader.Iterator.seekToFirst_yields h hreader hstatus
  obtain ⟨hpre, hall⟩ := stream_spec r 0 bs (by simpa using h.served)
  exact ⟨it', hseek, (stream r 0 bs).1, hy, hpre, hall⟩

/-! ## The merge of several tables -/

/-- A child of a merge: an iterator, wherever it stands, over a table of the given blocks, some of
    which may be unreadable. -/
structure IsChild (it : SSTableReader.Iterator) (bs : List (List Entry)) : Prop where
  positioned : it.Positioned it.reader
  serves : Serves it.reader bs

/-- A stream that ends well has met no unreadable block. -/
private theorem intact_of_stream {r : SSTableReader} {bs : List (List Entry)} {i : Nat}
    (hserved : ∀ j b, bs[j]? = some b → BlockServed r (i + j) b)
    (hok : (stream r i bs).2.ok = true) (j : Nat) (b : List Entry) (hb : bs[j]? = some b) :
    r.readBlock (i + j) = some (.ok (blockBytes b)) := by
  induction bs generalizing i j with
  | nil => cases hb
  | cons c bs ih =>
    rw [stream] at hok
    rcases hserved 0 c rfl with hread | ⟨s, hread, hbad⟩
    · -- the block was read, and the blocks behind it by induction
      rw [Nat.add_zero] at hread
      cases j with
      | zero =>
        cases hb
        exact hread
      | succ j =>
        have hshift (n : Nat) : i + (n + 1) = i + 1 + n := by omega
        simp only [hread] at hok
        rw [hshift]
        apply ih _ hok j hb
        intro n b hb
        rw [← hshift]
        exact hserved (n + 1) b hb
    · -- the stream would have ended with an error
      rw [Nat.add_zero] at hread
      simp [hread, hbad] at hok

/-- The children of a merge after its `SeekToFirst`. -/
private theorem seekToFirst_children {its : List SSTableReader.Iterator}
    {bss : List (List (List Entry))} (h : List.Forall₂ IsChild its bss) :
    ∃ its' ts, its.mapM SSTableReader.Iterator.seekToFirst = some its' ∧
      List.Forall₂ Reads its' ts ∧ ts.map Prod.fst = bss.map List.flatten ∧
      (∀ t ∈ ts, Sorted Entry.key t.1) ∧
      ((∀ t ∈ ts, t.2 = .OK) → List.Forall₂ (fun it bs => Intact it.reader bs) its bss) := by
  induction h with
  | nil => exact ⟨[], [], rfl, .nil, rfl, by simp, fun _ => .nil⟩
  | @cons it bs its bss hchild htail ih =>
    obtain ⟨its', ts, hits, hreads, hts, hsorted, hintact⟩ := ih
    -- one child more
    obtain ⟨it', hit, hread⟩ := hchild.serves.seekToFirst_reads hchild.positioned
    refine ⟨it' :: its', _ :: ts, ?_, .cons hread hreads, ?_,
      List.forall_mem_cons.mpr ⟨hchild.serves.sorted, hsorted⟩, fun hok => .cons ?_ (hintact ?_)⟩
    · simp [List.mapM_cons, hit, hits]
    · rw [List.map_cons, List.map_cons, hts]
    · intro j b hb
      -- a child that was read to its end had no unreadable block
      have hstatus := hok _ List.mem_cons_self
      dsimp only at hstatus
      have hblock := intact_of_stream (i := 0) (by simpa using hchild.serves.served)
        (by rw [hstatus]; rfl) j b hb
      rwa [Nat.zero_add] at hblock
    · exact fun t ht => hok t (List.mem_cons_of_mem _ ht)

/-- A merge over tables with unreadable blocks emits a prefix of the merge of the whole tables, and
    ends with a bad status if that is a strict prefix or if any block is unreadable. -/
theorem merge_stops_safely {its : List SSTableReader.Iterator} {bss : List (List (List Entry))}
    (h : List.Forall₂ IsChild its bss) :
    ∃ m l s, (MergingIterator.new its).seekToFirst = some m ∧
      Yields .OK m (l.map Entry.normal) s ∧
      l <+: merge Entry.key (bss.map List.flatten) ∧
      (l ≠ merge Entry.key (bss.map List.flatten) ∨
        ¬ List.Forall₂ (fun it bs => Intact it.reader bs) its bss → s.ok = false) := by
  obtain ⟨its', ts, hits, hreads, hts, hsorted, hintact⟩ := seekToFirst_children h
  obtain ⟨m, l, s, hadv, hy, hpre, hall, -⟩ := MergingIterator.advance_yields
    (m := { MergingIterator.new its with children := its' }) rfl hreads hsorted
  rw [hts] at hpre hall
  refine ⟨m, l, s, ?_, hy, hpre, fun hcut => ?_⟩
  · simp only [MergingIterator.seekToFirst, MergingIterator.new, hits, bind, Option.bind]
    exact hadv
  · by_contra hok
    obtain ⟨hl, -, hfine⟩ := hall (by simpa using hok)
    exact hcut.elim (· hl) (· (hintact hfine))

/-- Two tables, the older of them unreadable. -/
theorem merge_stops_at_spoilt_table :
    let newer := tableReader 4096 10 [⟨[1], [2], .value⟩] 2
    let older := spoil (tableReader 4096 10 [⟨[3], [4], .value⟩] 1)
    ∃ m l s, (MergingIterator.new [newer.newIterator, older.newIterator]).seekToFirst = some m ∧
      Yields .OK m (l.map Entry.normal) s ∧
      l <+: merge Entry.key [[⟨[1], [2], .value⟩], [⟨[3], [4], .value⟩]] ∧ s.ok = false := by
  intro newer older
  have hserves (e : Entry) (he : TableFits 4096 10 [e]) (n : Nat) :
      Serves (tableReader 4096 10 [e] n) (blocksOf 4096 [e]) :=
    serves_tableReader (List.pairwise_singleton _ _) he n
  have hunread : older.readBlock 0 = some (.error (.corruption "block CRC mismatch")) := by
    decide +kernel
  have hnewer : IsChild newer.newIterator (blocksOf 4096 [⟨[1], [2], .value⟩]) :=
    ⟨.new, hserves _ (by decide +kernel) 2⟩
  have holder : IsChild older.newIterator (blocksOf 4096 [⟨[3], [4], .value⟩]) :=
    ⟨.new, (hserves _ (by decide +kernel) 1).damaged (damaged_spoil (by decide +kernel) hunread)⟩
  obtain ⟨m, l, s, hseek, hy, hpre, hbad⟩ := merge_stops_safely (.cons hnewer (.cons holder .nil))
  -- the only block of the older table fails its checksum
  refine ⟨m, l, s, hseek, hy, hpre, hbad (.inr fun hintact => ?_)⟩
  cases hintact with
  | cons _ hrest =>
    cases hrest with
    | cons hread _ =>
      have hblock := hread 0 [⟨[3], [4], .value⟩] (by decide +kernel)
      rw [show older.newIterator.reader = older from rfl, hunread] at hblock
      cases hblock

/-- The tables whose records the iterators of some readers run over. -/
private theorem seekToFirst_all {fs : List FileMeta} {readers : List SSTableReader}
    (hwf : ∀ f ∈ fs, f.Wf) (hd : List.Forall₂ (fun f r => f.reader.Damaged r) fs readers) :
    ∃ its ts, (readers.map (·.newIterator)).mapM SSTableReader.Iterator.seekToFirst = some its ∧
      List.Forall₂ Reads its ts ∧ ts.map Prod.fst = fs.map (·.entries) ∧
      (readers = fs.map (·.reader) → ∀ t ∈ ts, t.2 = .OK) := by
  induction hd with
  | nil => exact ⟨[], [], rfl, .nil, rfl, by simp⟩
  | @cons f r fs readers hfr hd ih =>
    obtain ⟨its, ts, hits, hreads, hts, hfine⟩ :=
      ih fun f hf => hwf f (List.mem_cons_of_mem _ hf)
    have hf := hwf f List.mem_cons_self
    obtain ⟨it, hit, hread⟩ := (hf.serves.damaged hfr).seekToFirst_reads .new
    refine ⟨it :: its, _ :: ts, ?_, .cons hread hreads, ?_, ?_⟩
    · simp [List.mapM_cons, hit, hits]
    · rw [List.map_cons, List.map_cons, hts, FileMeta.blocks, flatten_blocksOf]
    · intro hsame t ht
      obtain ⟨rfl, hrest⟩ := List.cons.inj hsame
      -- an undamaged table is read to its end
      rcases List.mem_cons.mp ht with rfl | ht
      · have hstream : stream f.reader 0 f.blocks = _ := stream_of_intact 0 (by
          intro j b hb
          rw [Nat.zero_add]
          exact hf.intact j b hb)
        exact congrArg Prod.snd hstream
      · exact hfine hrest t ht

/-- The loop of `DoCompaction` sees a prefix of the merge of its inputs, and all of it if the
    merge ends with `OK`, as it does if nothing is damaged. -/
theorem mergedRecords_spec {fs : List FileMeta} {readers : List SSTableReader}
    (hwf : ∀ f ∈ fs, f.Wf) (hd : List.Forall₂ (fun f r => f.reader.Damaged r) fs readers) :
    ∃ l s, DB.mergedRecords ((fs.map fun f => f.reader.base.length).sum + 1) readers =
        some (l.map Entry.normal, s) ∧
      l <+: merge Entry.key (fs.map (·.entries)) ∧
      (s.ok = true → l = merge Entry.key (fs.map (·.entries)) ∧ s = .OK) ∧
      (readers = fs.map (·.reader) → s = .OK) := by
  obtain ⟨its, ts, hits, hreads, hts, hfine⟩ := seekToFirst_all hwf hd
  have hsorted : ∀ t ∈ ts, Sorted Entry.key t.1 := by
    intro t ht
    have hmem : t.1 ∈ fs.map (·.entries) := hts ▸ List.mem_map_of_mem ht
    obtain ⟨f, hf, hft⟩ := List.mem_map.mp hmem
    exact hft ▸ (hwf f hf).sorted
  obtain ⟨m, l, s, hadv, hy, hpre, hall, hok⟩ := MergingIterator.advance_yields
    (m := { MergingIterator.new (readers.map (·.newIterator)) with children := its }) rfl hreads
    hsorted
  rw [hts] at hpre hall
  -- the number of turns is enough
  have hbound : (l.map Entry.normal).length < (fs.map fun f => f.reader.base.length).sum + 1 := by
    have hsum : ((fs.map (·.entries)).map List.length).sum ≤
        (fs.map fun f => f.reader.base.length).sum := by
      rw [List.map_map]
      exact List.sum_le_sum fun f hf => IsTable.length_le_base (hwf f hf)
    have hlen := hpre.length_le
    have hmerge : (merge Entry.key (fs.map (·.entries))).length ≤ _ := length_merge_le _
    rw [List.length_map]
    omega
  refine ⟨l, s, ?_, hpre, fun hs => ⟨(hall hs).1, (hall hs).2.1⟩, fun hsame => hok (hfine hsame)⟩
  have hseek : (MergingIterator.new (readers.map (·.newIterator))).seekToFirst = some m := by
    simp only [MergingIterator.seekToFirst, MergingIterator.new, hits, bind, Option.bind]
    exact hadv
  simp only [DB.mergedRecords, hseek, bind, Option.bind]
  exact hy.drain_eq hbound

/-- The loop of `FlushMemTable` sees the records of the memtable. -/
theorem memRecords_eq {mem : SkipList} {es : List Entry} (h : mem.Holds es) :
    DB.memRecords mem = some (es, .OK) := by
  obtain ⟨it, hseek, hy⟩ := h.seekToFirst_yields
  simp only [DB.memRecords, hseek, bind, Option.bind]
  exact hy.drain_eq (h.length_lt.trans (Nat.lt_succ_self _))

end Lsmdb
