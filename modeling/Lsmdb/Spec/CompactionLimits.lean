import Lsmdb.Spec.CompactionCorrect
import Lsmdb.Spec.ProgramCalls
import Lsmdb.Spec.Runs

/-!
# Compactions within the limits of the formats

`Call.Fits` limits what a run writes. Here this follows from what is there to be merged: a
compaction whose input records fit (`RecordsFit`) writes only tables that fit, whatever its
target size, and takes no more file numbers than there are records (`within_mergeInputs`). So
the runs in which nothing is asked but that calls turn out as the policy says
(`Policy.Chooses`) are the ones with limits (`Policy.Allows`), and none of them is cut off.
-/

namespace Lsmdb

open Prog SortedMap

/-! ## Tables -/

/-- Records that fit a table, also if some of them are left out: with each of them, a block that
    is not full yet stays below `2 ^ 32` bytes, and all of them together need no larger filter or
    file than the formats have room for. -/
structure RecordsFit (bitsPerKey : Int) (es : List Entry) : Prop where
  record : ∀ e ∈ es, (appendRecord e).length + kOutputBlockSize ≤ 2 ^ 32 - 4
  bits : 0 ≤ bitsPerKey
  filter : es.length * bitsPerKey + 8 ≤ 2 ^ 32
  bytes : (blockBytes es).length < 2 ^ 61

variable {bitsPerKey : Int} {es es' : List Entry} {blockSize : Nat}

/-- The length of a block is the sum of its records. -/
theorem length_blockBytes (es : List Entry) :
    (blockBytes es).length = (es.map fun e => (appendRecord e).length).sum :=
  List.length_flatMap

/-- Fewer records take fewer bytes. -/
private theorem length_blockBytes_le (h : es'.Subperm es) :
    (blockBytes es').length ≤ (blockBytes es).length := by
  obtain ⟨l, hperm, hsub⟩ := h
  rw [length_blockBytes, length_blockBytes, ← (hperm.map _).sum_eq]
  exact (hsub.map _).sum_le_sum fun _ _ => Nat.zero_le _

/-- Records that are no longer, no more and no larger in total fit where the others do. -/
theorem RecordsFit.of_le (h : RecordsFit bitsPerKey es)
    (hrecord : ∀ e ∈ es', ∃ e' ∈ es, (appendRecord e).length ≤ (appendRecord e').length)
    (hlength : es'.length ≤ es.length) (hbytes : (blockBytes es').length ≤ (blockBytes es).length) :
    RecordsFit bitsPerKey es' where
  record e he := by
    obtain ⟨e', he', hle⟩ := hrecord e he
    have hfit := h.record e' he'
    omega
  bits := h.bits
  filter := by
    have hlength : (es'.length : Int) ≤ es.length := by exact_mod_cast hlength
    exact (Int.add_le_add_right (Int.mul_le_mul_of_nonneg_right hlength h.bits) 8).trans h.filter
  bytes := hbytes.trans_lt h.bytes

/-- Fewer records fit as well. -/
theorem RecordsFit.subperm (h : RecordsFit bitsPerKey es) (hsub : es'.Subperm es) :
    RecordsFit bitsPerKey es' :=
  h.of_le (fun e he => ⟨e, hsub.subset he, le_rfl⟩) hsub.length_le (length_blockBytes_le hsub)

/-- Normalising a record changes at most its type byte. -/
theorem length_normal (e : Entry) : (appendRecord e.normal).length = (appendRecord e).length := by
  rw [length_appendRecord, length_appendRecord, Entry.normal]

/-- The records written by the merge fit where those it has read do. -/
private theorem RecordsFit.map_normal (h : RecordsFit bitsPerKey es) :
    RecordsFit bitsPerKey (es.map Entry.normal) := by
  refine h.of_le (fun e he => ?_) (List.length_map _).le ?_
  · obtain ⟨e', he', rfl⟩ := List.mem_map.mp he
    exact ⟨e', he', (length_normal e').le⟩
  · rw [length_blockBytes, length_blockBytes, List.map_map]
    exact List.sum_le_sum fun e _ => (length_normal e).le

/-- A block has been below the block size before its last record. -/
private theorem length_cut_lt {room : Nat} (cur : List Entry)
    (hes : ∀ e ∈ es, (appendRecord e).length ≤ room) (hcur : (blockBytes cur).length < blockSize) :
    (∀ b ∈ (cut blockSize cur es).1, (blockBytes b).length < blockSize + room) ∧
      (blockBytes (cut blockSize cur es).2).length < blockSize := by
  induction es generalizing cur with
  | nil => exact ⟨by simp [cut], hcur⟩
  | cons e es ih =>
    have hrest := fun e he => hes e (List.mem_cons_of_mem _ he)
    have hlength : (blockBytes (cur ++ [e])).length < blockSize + room := by
      have he := hes e List.mem_cons_self
      simp only [blockBytes_append, blockBytes_cons, blockBytes_nil, List.append_nil,
        List.length_append]
      omega
    rw [cut]
    split
    · -- the block is full, the next one starts empty
      obtain ⟨hfull, htail⟩ := ih [] hrest (by simp; omega)
      refine ⟨fun b hb => ?_, htail⟩
      rcases List.mem_cons.mp hb with rfl | hb
      · exact hlength
      · exact hfull b hb
    next hsmall => exact ih _ hrest (not_le.mp hsmall)

/-- A block is closed by the record that reaches the target, so it is longer by less than one
    record. -/
private theorem length_block_lt (room : Nat) (hpos : 0 < blockSize)
    (hes : ∀ e ∈ es, (appendRecord e).length ≤ room) {b : List Entry}
    (hb : b ∈ blocksOf blockSize es) : (blockBytes b).length < blockSize + room := by
  obtain ⟨hfull, htail⟩ := length_cut_lt [] hes (by simpa using hpos)
  unfold blocksOf at hb
  dsimp only at hb
  split at hb
  · exact hfull b hb
  · rcases List.mem_append.mp hb with hb | hb
    · exact hfull b hb
    · rw [List.mem_singleton.mp hb]
      omega

/-- Every block takes a record. -/
private theorem length_blocksOf_le (blockSize : Nat) (es : List Entry) :
    (blocksOf blockSize es).length ≤ es.length := by
  have hsum := List.length_le_sum_of_one_le ((blocksOf blockSize es).map List.length) (by
    intro n hn
    obtain ⟨b, hb, rfl⟩ := List.mem_map.mp hn
    exact List.length_pos_iff.mpr (ne_nil_of_mem_blocksOf hb))
  rwa [List.length_map, ← List.length_flatten, flatten_blocksOf] at hsum

/-- A block takes its records and a checksum. -/
private theorem length_dataBytes (bs : List (List Entry)) :
    (dataBytes bs).length = (blockBytes bs.flatten).length + 4 * bs.length := by
  induction bs with
  | nil => rfl
  | cons b bs ih =>
    simp only [dataBytes_cons, List.length_append, length_sectionBytes, ih, List.flatten_cons,
      blockBytes_append, List.length_cons]
    omega

/-- The index takes no more than the records and sixteen bytes a block. -/
private theorem length_index_le (offset : Nat) (bs : List (List Entry)) :
    ((indexFrom offset bs).flatMap SSTableWriter.indexBytes).length ≤
      (blockBytes bs.flatten).length + 16 * bs.length := by
  induction bs generalizing offset with
  | nil => simp [indexFrom]
  | cons b bs ih =>
    -- the first key is part of the first record
    have hkey : (firstKey b).length ≤ (blockBytes b).length := by
      cases b with
      | nil => simp [firstKey]
      | cons e b => simp; omega
    have hrest := ih (offset + (blockBytes b).length + 4)
    simp only [indexFrom, List.flatMap_cons, List.length_append, SSTableWriter.indexBytes,
      length_putLengthPrefixed,
      length_putFixed64, length_putFixed32, List.flatten_cons, blockBytes_append, List.length_cons]
    omega

/-- The filter over the keys of a table fits its 32-bit header. -/
private theorem RecordsFit.filterFits (h : RecordsFit bitsPerKey es) : FilterFits es.length bitsPerKey := by
  obtain ⟨bits, rfl⟩ := Int.eq_ofNat_of_zero_le h.bits
  have hfilter : es.length * bits + 8 ≤ 2 ^ 32 := by exact_mod_cast h.filter
  rw [FilterFits, toNat_wantedBits (by omega)]
  omega

/-- A table is at most a few times as long as its records. -/
theorem length_tableBytes_le (hfilter : FilterFits es.length bitsPerKey) :
    (tableBytes kOutputBlockSize bitsPerKey es).length ≤ 5 * (blockBytes es).length + 2 ^ 33 := by
  have hblocks := length_blocksOf_le kOutputBlockSize es
  have hindex := length_index_le 0 (blocksOf kOutputBlockSize es)
  have hcount := nine_mul_length_le_blockBytes es
  -- the header of the filter has 32 bits for the number of bits
  have hlength : (filterBytes bitsPerKey es).length < 2 ^ 32 := by
    have hbounds := arrayBytes_bounds hfilter
    rw [filterBytes, BloomBuilder.finish, length_finishWith, List.length_map]
    dsimp only
    omega
  rw [flatten_blocksOf] at hindex
  simp only [tableBytes, List.length_append, length_sectionBytes, Footer.length_bytes, length_dataBytes,
    flatten_blocksOf, indexBuf, kFooterSize]
  omega

/-- A table of records that fit is within the limits of the format. -/
private theorem RecordsFit.tableFits (h : RecordsFit bitsPerKey es) :
    TableFits kOutputBlockSize bitsPerKey es where
  blocks b hb := by
    have hlength := length_block_lt (2 ^ 32 - 4 - kOutputBlockSize) (by decide)
      (fun e he => by have := h.record e he; omega) hb
    simp only [kOutputBlockSize] at hlength
    omega
  filter := h.filterFits
  length := by
    have hlength := length_tableBytes_le h.filterFits
    have hbytes := h.bytes
    omega

/-! ## Calls -/

/-- The outcomes that a policy has for a call, with no limit on what is written. -/
def Policy.Chooses (pol : Policy) (c : Call) (ch : Choice) (_ : World) : Prop :=
  c.MayFail pol.faults pol.logFaults ch

/-- No policy forces a call to fail. -/
theorem Policy.chooses_ok (pol : Policy) (c : Call) (w : World) : pol.Chooses c .ok w :=
  c.mayFail_ok _ _

/-- The calls that no limit is about, and that leave the file number alone. -/
def Call.Unlimited : Call → Prop
  | tableDone _ _ | takeFileNumber | storeFileNumber _ | storeCurrent _ => False
  | _ => True

/-- A call that takes no number and writes no length has no limit. -/
theorem Call.Unlimited.fits {c : Call} (h : c.Unlimited) (w : World) : c.Fits w := by
  cases c with
  | tableDone | takeFileNumber | storeCurrent => exact h.elim
  | _ => trivial

/-- The calls on a file that is being written have no limit. -/
theorem Call.OnFile.unlimited {number : Nat} {c : Call} (h : c.OnFile number) : c.Unlimited := by
  cases c with
  | tableDone | takeFileNumber | storeFileNumber | storeCurrent => exact h.elim
  | _ => trivial

/-- Nor have those that write the manifest. -/
theorem Call.OnManifest.unlimited {c : Call} (h : c.OnManifest) : c.Unlimited := by
  cases c with
  | tableDone | takeFileNumber | storeFileNumber | storeCurrent => exact h.elim
  | _ => trivial

/-- Nor have those on the log. -/
theorem Call.OnLog.unlimited {c : Call} (h : c.OnLog) : c.Unlimited := by
  cases c with
  | tableDone | takeFileNumber | storeFileNumber | storeCurrent => exact h.elim
  | _ => trivial

variable {t : Thread} {c : Call} {ch : Choice} {r : c.Res} {w w' : World}

/-- Only `NewFileNumber` and a reopening move the counter. -/
theorem Call.Unlimited.nextFileNumber_eq (hc : c.Unlimited) (h : exec t c ch w = some (r, w')) :
    w'.nextFileNumber = w.nextFileNumber := by
  refine (exec_fields h).2.2.1 ?_ ?_
  · rintro rfl
    exact hc
  · rintro n rfl
    exact hc

/-! ## The outputs of a compaction -/

variable {pol : Policy} {α : Type}

/-- A program of calls without a limit meets none, and leaves the counter alone. -/
theorem within_unlimited {p : DBM α} (hp : p.All Call.Unlimited) (w : World) :
    p.Within (exec t) pol.Chooses pol.Allows
      (fun _ w' => w'.nextFileNumber = w.nextFileNumber) w :=
  Within.of_all hp (fun _ _ w hc hok => ⟨hc.fits w, hok⟩)
    (fun _ _ _ _ _ hc hexec hw => (hc.nextFileNumber_eq hexec).trans hw) rfl

/-- What comes behind a part that no limit is about. -/
theorem within_unlimited_bindE {β : Type} {p : DBE α} {f : α → DBE β} {S : Except Status β → World → Prop}
    (hp : p.run.All Call.Unlimited) (hS : ∀ e w', S (.error e) w')
    (hf : ∀ a w', w'.nextFileNumber = w.nextFileNumber →
      (f a).run.Within (exec t) pol.Chooses pol.Allows S w') :
    (p >>= f).run.Within (exec t) pol.Chooses pol.Allows S w := by
  refine within_bindE.mpr ((within_unlimited hp w).mono fun r w' hw => ?_)
  cases r with
  | ok a => exact hf a w' hw
  | error e => exact hS e w'

/-- `NewFileNumber` stays within 64 bits if the counter is not at its end. -/
theorem within_newFileNumber (h : w.nextFileNumber + 1 < 2 ^ 64) :
    (DB.newFileNumber : DBE Nat).run.Within (exec t) pol.Chooses pol.Allows
      (ending (fun _ w' => w'.nextFileNumber = w.nextFileNumber + 1) fun _ _ => True) w := by
  intro ch r w₁ hok hexec
  have hlock : w₁.nextFileNumber = w.nextFileNumber :=
    Call.Unlimited.nextFileNumber_eq (c := .lock) trivial hexec
  refine ⟨⟨trivial, hok⟩, ?_⟩
  intro ch r w₂ hok hexec
  -- the number is taken under the mutex, so it is still the one that was bounded
  cases hexec
  refine ⟨⟨?_, hok⟩, ?_⟩
  · show w₁.nextFileNumber + 1 < 2 ^ 64
    omega
  intro ch r w₃ hok hexec
  have hunlock := Call.Unlimited.nextFileNumber_eq (c := .unlock) trivial hexec
  refine ⟨⟨trivial, hok⟩, ?_⟩
  show w₃.nextFileNumber = w.nextFileNumber + 1
  rw [hunlock, ← hlock]
  exact Nat.mod_eq_of_lt (by omega)

/-- Taking and giving back the lock has no limit of its own. -/
theorem within_withLock {body : DBE α} {next : Nat}
    (h : body.run.Within (exec t) pol.Chooses pol.Allows (fun _ w' => w'.nextFileNumber = next)
      { w with mutex := some t }) :
    (DB.withLock body).run.Within (exec t) pol.Chooses pol.Allows
      (fun _ w' => w'.nextFileNumber = next) w := by
  intro ch u w₁ hok hexec
  obtain ⟨-, rfl⟩ := exec_lock hexec
  refine ⟨⟨trivial, hok⟩, ?_⟩
  show Within _ _ _ (body.run >>= fun r => DB.call .unlock >>= fun _ => pure r) _ _
  refine within_bind.mpr (h.mono fun r w₂ hw₂ => ?_)
  intro ch u w₃ hok hexec
  exact ⟨⟨trivial, hok⟩, (Call.Unlimited.nextFileNumber_eq (c := .unlock) trivial hexec).trans hw₂⟩

variable {cfg : Config}

/-- A new output takes a file number. -/
theorem within_currentOutput {cur : Option DB.Output} (h : w.nextFileNumber + 1 < 2 ^ 64) :
    (DB.currentOutput cfg cur).run.Within (exec t) pol.Chooses pol.Allows
      (ending (fun o w' => o.es = cur.elim [] (·.es) ∧ w'.nextFileNumber ≤ w.nextFileNumber + 1)
        fun _ _ => True) w := by
  cases cur with
  | some o => exact ⟨rfl, Nat.le_succ _⟩
  | none =>
    refine within_bindE.mpr ((within_newFileNumber h).mono fun r w₁ hr => ?_)
    cases r with
    | error e => trivial
    | ok number =>
      refine within_unlimited_bindE
        ((all_openWriter cfg number).mono fun _ hc => hc.unlimited) (fun _ _ => trivial) ?_
      exact fun wr w₂ hw => ⟨rfl, (hw.trans hr).le⟩

/-- A table that fits. -/
theorem within_finishTable {number : Nat} {wr : SSTableWriter} {es : List Entry}
    (h : TableFits kOutputBlockSize cfg.options.bloomBitsPerKey es) :
    (DB.finishTable cfg number wr es).run.Within (exec t) pol.Chooses pol.Allows
      (ending (fun _ w' => w'.nextFileNumber = w.nextFileNumber) fun _ _ => True) w := by
  -- the mark that the records are complete; behind it no limit matters
  intro ch r w₁ hok hexec
  cases hexec
  refine ⟨⟨h, hok⟩, ?_⟩
  refine within_unlimited_bindE ((all_finishWriter cfg number wr).mono fun _ hc => hc.unlimited)
    (fun _ _ => trivial) fun wr w₂ hw₂ => ?_
  refine within_unlimited_bindE ((all_openReader cfg number).mono fun _ hc => hc.unlimited)
    (fun _ _ => trivial) fun reader w₃ hw₃ => ?_
  exact hw₃.trans hw₂

/-- A table of records that fit. -/
theorem within_finishOutput {outputs : List FileMeta} {cur : Option DB.Output}
    (h : RecordsFit cfg.options.bloomBitsPerKey (cur.elim [] (·.es))) :
    (DB.finishOutput cfg outputs cur).run.Within (exec t) pol.Chooses pol.Allows
      (ending (fun _ w' => w'.nextFileNumber = w.nextFileNumber) fun _ _ => True) w := by
  cases cur with
  | none => exact rfl
  | some o =>
    refine within_bindE.mpr ((within_finishTable h.tableFits).mono fun r w₁ hr => ?_)
    cases r with
    | error e => trivial
    | ok f => exact hr

/-- In the middle of the loop: what is pending and what is still to come fits one table, and the
    file numbers suffice for one table a record. -/
structure MergeRoom (bitsPerKey : Int) (last : Nat) (out : List FileMeta × Option DB.Output)
    (rest : List Entry) (w : World) : Prop where
  fit : RecordsFit bitsPerKey (out.2.elim [] (·.es) ++ rest)
  next : w.nextFileNumber + rest.length ≤ last

/-- One turn of the loop. -/
theorem within_compactRecord {bottommost : Bool} {last : Nat} (hlast : last < 2 ^ 64)
    {out : List FileMeta × Option DB.Output} {e : Entry} {rest : List Entry}
    (h : MergeRoom cfg.options.bloomBitsPerKey last out (e :: rest) w) :
    (DB.compactRecord cfg bottommost out e).run.Within (exec t) pol.Chooses pol.Allows
      (ending (fun out => MergeRoom cfg.options.bloomBitsPerKey last out rest) fun _ _ => True) w := by
  -- this record may take a new file number, and so may each of those to come
  have hnext : w.nextFileNumber + (rest.length + 1) ≤ last := h.next
  rw [DB.compactRecord]
  split
  · -- the tombstone is dropped
    refine ⟨h.fit.subperm (List.Sublist.subperm ?_), show w.nextFileNumber + _ ≤ last by omega⟩
    exact (List.sublist_cons_self e rest).append_left _
  refine within_bindE.mpr ((within_currentOutput (by omega)).mono fun r w₁ hr => ?_)
  cases r with
  | error e => trivial
  | ok o =>
    obtain ⟨hes, hw₁⟩ := hr
    -- the output with this record is part of what has to fit
    have hfit : RecordsFit cfg.options.bloomBitsPerKey (o.es ++ [e] ++ rest) := by
      rw [hes, List.append_assoc]
      exact h.fit
    refine within_unlimited_bindE
      ((all_addEntry cfg o.number o.w e).mono fun _ hc => hc.unlimited) (fun _ _ => trivial)
      fun wr w₂ hw₂ => ?_
    dsimp only
    split
    · -- the output is closed; the rest fits without it
      refine within_bindE.mpr ((within_finishOutput (hfit.subperm ?_)).mono fun r w₃ hr => ?_)
      · exact (List.sublist_append_left _ rest).subperm
      cases r with
      | error e => trivial
      | ok outputs =>
        have hw₃ : w₃.nextFileNumber = w₂.nextFileNumber := hr
        exact ⟨hfit.subperm (List.sublist_append_right _ rest).subperm, by omega⟩
    · exact ⟨hfit, by omega⟩

/-- The records that a compaction reads. -/
def Compaction.records (c : Compaction) : List Entry := c.inputs.flatMap (·.entries)

/-- A compaction of records that fit writes only tables that fit, and takes at most one file
    number a record. -/
theorem within_mergeInputs {c : Compaction} (hwf : ∀ f ∈ c.inputs, f.Wf)
    (hfit : RecordsFit cfg.options.bloomBitsPerKey c.records)
    (hnext : w.nextFileNumber + c.records.length < 2 ^ 64) :
    (DB.mergeInputs cfg c).run.Within (exec .background) pol.Chooses pol.Allows
      (ending (fun _ w' => w'.nextFileNumber ≤ w.nextFileNumber + c.records.length)
        fun _ _ => True) w := by
  refine within_bindE.mpr ?_
  intro ch readers w₁ hok hexec
  refine ⟨⟨trivial, hok⟩, ?_⟩
  -- blocks of the inputs may have become unreadable
  have hinputs : w₁ = w ∧ List.Forall₂ (fun f r => f.reader.Damaged r) c.inputs readers := by
    cases ch with
    | inputs readers =>
      cases hexec
      exact ⟨rfl, List.forall₂_map_left_iff.mp hok.2⟩
    | ok | short | fail =>
      cases hexec
      refine ⟨rfl, ?_⟩
      rw [List.forall₂_map_right_iff]
      exact List.forall₂_same.mpr fun f _ => .refl _
  obtain ⟨rfl, hdamaged⟩ := hinputs
  obtain ⟨l, s, hmerged, hpre, -⟩ := mergedRecords_spec hwf hdamaged
  -- the merge yields every record of the inputs at most once
  have hsub : l.Subperm c.records := by
    refine hpre.sublist.subperm.trans ?_
    rw [Compaction.records, List.flatMap_def]
    exact merge_subperm _
  show Within _ _ _ (DB.defined (DB.mergedRecords _ readers) >>= _ : DBE _).run _ _
  rw [hmerged]
  show Within _ _ _ ((l.map Entry.normal).foldlM (DB.compactRecord cfg c.bottommost) ([], none) >>=
    _ : DBE (List FileMeta)).run _ _
  refine within_bindE.mpr ((within_foldlM (E := fun _ _ => True)
    (I := MergeRoom cfg.options.bloomBitsPerKey (w₁.nextFileNumber + c.records.length))
    (fun out e rest w h => within_compactRecord hnext h) ?start).mono fun r w₂ hr => ?_)
  case start =>
    refine ⟨(hfit.subperm hsub).map_normal, ?_⟩
    rw [List.length_map]
    exact Nat.add_le_add_left hsub.length_le _
  cases r with
  | error e => trivial
  | ok out =>
    obtain ⟨outputs, cur⟩ := out
    have hpending : RecordsFit cfg.options.bloomBitsPerKey (cur.elim [] (·.es)) := by
      simpa using hr.fit
    have hw₂ : w₂.nextFileNumber ≤ w₁.nextFileNumber + c.records.length := hr.next
    dsimp only
    split
    · trivial
    · refine (within_finishOutput hpending).mono fun r w₃ hr => ?_
      cases r with
      | error e => trivial
      | ok outs =>
        have hw₃ : w₃.nextFileNumber = w₂.nextFileNumber := hr
        exact hw₃.trans_le hw₂

end Lsmdb
