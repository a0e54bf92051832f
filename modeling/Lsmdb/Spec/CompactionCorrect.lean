import Lsmdb.Spec.Install

/-!
# Compaction

`DoCompaction` merges its inputs into new tables without holding the lock, and installs
these in the version that is current by then. The merge reads only tables, so the loop
over it builds the outputs one after the other (`Outs`, `tripleE_compactRecords`).
Installation is safe in every version that flushes have made of the one the compaction
was picked in (`Watching`).
-/

namespace Lsmdb

open Prog SortedMap DB

variable {g : Ghost} {w : World} {bits : Int}

/-! ## The outputs -/

/-- The outputs hold the records that the loop has seen and not dropped. -/
structure Outs (bits : Int) (bottommost : Bool) (seen : List Entry)
    (out : List FileMeta × Option Output) : Prop where
  records : out.1.flatMap (·.entries) ++ out.2.elim [] (·.es) =
    seen.filter fun e => !(bottommost && e.isTombstone)
  wf : ∀ f ∈ out.1, f.Wf
  nodup : (out.1.map (·.number)).Nodup
  ne_nil : ∀ o ∈ out.2, o.es ≠ []
  writer : ∀ o ∈ out.2, o.w = (writerOf bits o.es).1

/-- The finished outputs, and the file of the one in the making. -/
def Outputting (bits : Int) : List FileMeta × Option Output → Ghost → World → Prop
  | (done, none), g, w => w.mutex ≠ some .background ∧ Holding .background done g w
  | (done, some o), g, w => Adding .background bits done o.number o.es g w

/-- The outputs are written without the lock. -/
private theorem unlocked_of_outputting {out : List FileMeta × Option Output}
    (h : Outputting bits out g w) : w.mutex ≠ some .background := by
  obtain ⟨done, cur⟩ := out
  cases cur with
  | none => exact h.1
  | some o => exact Writing.unlocked h

/-- Before the first record there is no output. -/
private theorem outs_nil (bits : Int) (bottommost : Bool) : Outs bits bottommost [] ([], none) :=
  ⟨rfl, by simp, by simp, by simp, by simp⟩

/-- The records of an output in the making are in order. -/
theorem Outs.sorted {bottommost : Bool} {seen : List Entry} {done : List FileMeta} {o : Output}
    (h : Outs bits bottommost seen (done, some o)) (hs : Sorted Entry.key seen) :
    Sorted Entry.key o.es := by
  have hsub : o.es.Sublist seen := by
    have hrecords : done.flatMap (·.entries) ++ o.es = _ := h.records
    apply (List.sublist_append_right (done.flatMap (·.entries)) o.es).trans
    rw [hrecords]
    exact List.filter_sublist
  exact List.Pairwise.sublist hsub hs

variable (cfg : Config)

/-- The output to write to. -/
theorem tripleE_currentOutput {bottommost : Bool} {seen : List Entry}
    {out : List FileMeta × Option Output} (h : Outs cfg.options.bloomBitsPerKey bottommost seen out) :
    TripleE (exec .background) (building .background)
      (Outputting cfg.options.bloomBitsPerKey out) (currentOutput cfg out.2)
      (fun o g w => (o.es = out.2.elim [] (·.es) ∧
        o.w = (writerOf cfg.options.bloomBitsPerKey o.es).1) ∧
        Adding .background cfg.options.bloomBitsPerKey out.1 o.number o.es g w)
      fun _ => Failed .background := by
  obtain ⟨done, cur⟩ := out
  cases cur with
  -- the output that is open already
  | some o => exact TripleE.ret fun g w _ ho => ⟨⟨rfl, h.writer o rfl⟩, ho⟩
  | none =>
    -- a new one: its number is taken under the lock, and then the file is opened
    apply TripleE.bind (TripleE.lift (triple_newFileNumber done))
    intro n
    apply TripleE.bind (tripleE_openWriter cfg done n)
    intro wr
    apply Triple.pre
    rintro rfl
    exact TripleE.ret fun g w _ hw => ⟨⟨rfl, rfl⟩, hw⟩

/-- `finish_output`. -/
theorem tripleE_finishOutput {bottommost : Bool} {seen : List Entry}
    {out : List FileMeta × Option Output} (h : Outs cfg.options.bloomBitsPerKey bottommost seen out)
    (hs : Sorted Entry.key seen) :
    TripleE (exec .background) (building .background)
      (Outputting cfg.options.bloomBitsPerKey out) (finishOutput cfg out.1 out.2)
      (fun outs g w => Outs cfg.options.bloomBitsPerKey bottommost seen (outs, none) ∧
        Outputting cfg.options.bloomBitsPerKey (outs, none) g w)
      fun _ => Failed .background := by
  obtain ⟨done, cur⟩ := out
  cases cur with
  | none => exact TripleE.ret fun g w _ ho => ⟨h, ho⟩
  | some o =>
    have hfinish := tripleE_finishTable (t := .background) cfg done o.number o.es
    rw [← h.writer o rfl] at hfinish
    apply TripleE.bind hfinish
    intro f
    apply Triple.pre
    rintro ⟨hf, hfit, hnew⟩
    apply TripleE.ret
    intro g w _ hw
    -- the file is the table of the records added since it was opened
    have htable : IsTable f o.es := by
      rw [hf]
      exact isTable_tableMeta (h.ne_nil o rfl) (h.sorted hs) hfit o.number
    refine ⟨⟨?_, ?_, ?_, by simp, by simp⟩, hw⟩
    · -- the records of the outputs are those seen, less the tombstones dropped
      have hrecords := h.records
      simpa [htable.entries_eq] using hrecords
    · intro f' hf'
      rcases List.mem_append.mp hf' with hf' | hf'
      · exact h.wf f' hf'
      · rw [List.mem_singleton.mp hf']
        exact htable.wf
    · -- the number of the new output was not taken by another one
      show ((done ++ [f]).map (·.number)).Nodup
      rw [List.map_append, List.nodup_append]
      refine ⟨h.nodup, by simp, ?_⟩
      intro n hn m hm
      obtain ⟨f', hf', rfl⟩ := List.mem_map.mp hn
      have hm : m = o.number := by simpa [hf, tableMeta] using hm
      rw [hm]
      exact hnew f' hf'

/-- One turn of the loop. -/
theorem tripleE_compactRecord {bottommost : Bool} {seen : List Entry} {e : Entry}
    {out : List FileMeta × Option Output} (h : Outs cfg.options.bloomBitsPerKey bottommost seen out)
    (hs : Sorted Entry.key (seen ++ [e])) :
    TripleE (exec .background) (building .background)
      (Outputting cfg.options.bloomBitsPerKey out) (compactRecord cfg bottommost out e)
      (fun out g w => Outs cfg.options.bloomBitsPerKey bottommost (seen ++ [e]) out ∧
        Outputting cfg.options.bloomBitsPerKey out g w)
      fun _ => Failed .background := by
  rw [compactRecord]
  by_cases hdrop : (bottommost && e.isTombstone) = true
  · -- the tombstone is dropped
    rw [if_pos hdrop]
    apply TripleE.ret
    intro g w _ ho
    refine ⟨{ h with records := ?_ }, ho⟩
    rw [h.records, List.filter_append, List.filter_cons, hdrop]
    exact (List.append_nil _).symm
  rw [if_neg hdrop]
  apply TripleE.bind (tripleE_currentOutput cfg h)
  intro o
  apply Triple.pre
  rintro ⟨hes, hw⟩
  rw [hw]
  apply TripleE.bind (tripleE_addEntry cfg out.1 o.number o.es e)
  intro wr
  apply Triple.pre
  rintro rfl
  -- the output with the record
  have hout : Outs cfg.options.bloomBitsPerKey bottommost (seen ++ [e])
      (out.1, some { o with
        w := (writerOf cfg.options.bloomBitsPerKey (o.es ++ [e])).1, es := o.es ++ [e] }) := by
    refine ⟨?_, h.wf, h.nodup, ?_, ?_⟩
    · have hrecords := h.records
      rw [← hes] at hrecords
      rw [List.filter_append, ← hrecords, List.filter_cons, Bool.eq_false_of_not_eq_true hdrop]
      exact (List.append_assoc ..).symm
    · rintro o' ⟨⟩
      simp
    · rintro o' ⟨⟩
      rfl
  split
  · -- the output has reached its target size and is closed
    apply TripleE.bind (tripleE_finishOutput cfg hout hs)
    exact fun outs => TripleE.ret fun g w _ ho => ho
  · exact TripleE.ret fun g w _ ho => ⟨hout, ho⟩

/-- The whole loop. -/
theorem tripleE_compactRecords (bottommost : Bool) {es : List Entry} (hs : Sorted Entry.key es) :
    TripleE (exec .background) (building .background)
      (fun _ w => w.mutex ≠ some .background)
      (es.foldlM (compactRecord cfg bottommost) ([], none))
      (fun out g w => Outs cfg.options.bloomBitsPerKey bottommost es out ∧
        Outputting cfg.options.bloomBitsPerKey out g w)
      fun _ => Failed .background := by
  apply TripleE.conseq (TripleE.foldlM
    (I := fun seen out g w => Outs cfg.options.bloomBitsPerKey bottommost seen out ∧
      Outputting cfg.options.bloomBitsPerKey out g w) ?step ([], none))
  case step =>
    intro seen e rest out heq
    apply Triple.pre
    intro h
    apply tripleE_compactRecord cfg h
    -- the record comes behind those that were written
    rw [← heq, show seen ++ e :: rest = (seen ++ [e]) ++ rest by simp] at hs
    exact (sorted_append.mp hs).1
  · exact fun g w _ hm => ⟨outs_nil _ _, hm, by simp, by simp⟩
  · exact fun out g w _ h => h
  · exact fun e g w _ h => h

/-! ## The merge -/

/-- An assertion that does not depend on what a thread changes while it builds tables. -/
def Undisturbed (S : Ghost → World → Prop) : Prop :=
  ∀ g w owned disk next mutex, S g w →
    S { g with owned := owned } { w with disk := disk, nextFileNumber := next, mutex := mutex }

/-- Two conditions that the writing of a table leaves alone. -/
theorem Undisturbed.and {S S' : Ghost → World → Prop} (h : Undisturbed S) (h' : Undisturbed S') :
    Undisturbed fun g w => S g w ∧ S' g w :=
  fun g w owned disk next mutex hS =>
    ⟨h g w owned disk next mutex hS.1, h' g w owned disk next mutex hS.2⟩

/-- What is known besides survives the making of the outputs. -/
theorem TripleE.undisturbed {α : Type} {p : DBE α} {P S : Ghost → World → Prop}
    {Q : α → Ghost → World → Prop} {E : Status → Ghost → World → Prop}
    (h : TripleE (exec .background) (building .background) P p Q E)
    (hS : Stable (protocol .background) S) (hfree : Undisturbed S) :
    TripleE (exec .background) (protocol .background) (fun g w => P g w ∧ S g w) p
      (fun a g w => Q a g w ∧ S g w) fun e g w => E e g w ∧ S g w := by
  apply TripleE.frame h (fun _ _ _ _ _ hi hp => hp.keeps hi) hS
  intro g w g' w' _ hp hSg
  obtain ⟨owned, hg⟩ := hp.ghost
  obtain ⟨disk, next, mutex, hw'⟩ := hp.world
  subst hg hw'
  exact hfree g w _ disk next mutex hSg

/-- `DoCompaction` up to the point at which it takes the lock: the outputs. -/
def DB.mergeInputs (c : Compaction) : DBE (List FileMeta) := do
  let readers ← call (.mapInputs (c.inputs.map (·.reader)))
  let turns := (c.inputs.map fun f => f.reader.base.length).sum + 1
  let (es, s) ← defined (mergedRecords turns readers)
  let (outputs, cur) ← es.foldlM (compactRecord cfg c.bottommost) ([], none)
  if !s.ok then throw s
  finishOutput cfg outputs cur

/-- The rest of `DoCompaction`. -/
def DB.installOutputs (c : Compaction) (outputs : List FileMeta) : DBE Unit :=
  withLock do
    let v ← call .loadCurrent
    let nv := installCompaction v c outputs
    call (.storeCurrent nv)
    writeManifest nv
    liftM (unlinkInputs c.inputs)

/-- `DoCompaction` merges the inputs without the lock and then installs the outputs under it. -/
theorem doCompaction_eq (c : Compaction) :
    doCompaction cfg c = mergeInputs cfg c >>= installOutputs c := by
  simp only [doCompaction, mergeInputs, bind_assoc]
  congr 1
  funext readers
  congr 1
  funext r
  congr 1
  funext out
  split <;> rfl

variable {v : Version} {n : Nat} {c : Compaction}

/-- The records of the merge of the inputs. -/
def mergedInputs (c : Compaction) : List Entry :=
  (merge Entry.key (c.inputs.map (·.entries))).map Entry.normal

/-- The outputs hold the merge of the inputs. An error means that a call has failed. -/
theorem tripleE_mergeInputs (hwf : ∀ f ∈ c.inputs, f.Wf) {S : Ghost → World → Prop}
    (hS : Stable (protocol .background) S) (hfree : Undisturbed S) :
    TripleE (exec .background) (protocol .background)
      (fun g w => w.mutex ≠ some .background ∧ S g w) (mergeInputs cfg c)
      (fun outs g w =>
        Outs cfg.options.bloomBitsPerKey c.bottommost (mergedInputs c) (outs, none) ∧
          w.mutex ≠ some .background ∧ Holding .background outs g w ∧ S g w)
      fun _ g w => Failed .background g w ∧ S g w := by
  -- the inputs
  apply TripleE.bind (Q := fun readers g w =>
    List.Forall₂ (fun f r => f.reader.Damaged r) c.inputs readers ∧
    (readers ≠ c.inputs.map (·.reader) → g.faults = true) ∧
    w.mutex ≠ some .background ∧ S g w)
  · apply DB.tripleE_call
    apply Triple.lift (c := Call.mapInputs (c.inputs.map (·.reader)))
      (stable_notHeld.and hS) fun _ _ _ _ => trivial
    intro g w hi h ch r w' hallow hexec
    -- a read that does not fail maps the inputs as they were written
    have hintact : List.Forall₂ (fun f r => f.reader.Damaged r) c.inputs
        (c.inputs.map (·.reader)) := by
      rw [List.forall₂_map_right_iff]
      exact List.forall₂_same.mpr fun f _ => .refl _
    cases ch with
    | inputs readers =>
      cases hexec
      obtain ⟨hfault, hdamaged⟩ := hallow.2
      exact ⟨g, Keeps.refl _ g w, hi, List.forall₂_map_left_iff.mp hdamaged, fun _ => hfault, h⟩
    | ok | short | fail =>
      cases hexec
      exact ⟨g, Keeps.refl _ g w, hi, hintact, fun hne => absurd rfl hne, h⟩
  intro readers
  apply Triple.pre
  intro hdamaged
  -- what the merge yields up to the first damage is the start of the whole merge
  obtain ⟨l, s, hmerged, hpre, hall, hok⟩ := mergedRecords_spec hwf hdamaged
  apply TripleE.bind (tripleE_defined hmerged (Q := fun r g w => r = (l.map Entry.normal, s) ∧
    (readers ≠ c.inputs.map (·.reader) → g.faults = true) ∧
    w.mutex ≠ some .background ∧ S g w) fun g w _ h => ⟨rfl, h⟩)
  intro r
  apply Triple.pre
  rintro rfl
  have hsorted : Sorted Entry.key (l.map Entry.normal) := by
    rw [Sorted, List.pairwise_map]
    exact List.Pairwise.sublist hpre.sublist (sorted_merge _)
  cases hs : s.ok with
  | false =>
    -- the merge has met damage: the outputs are left behind
    have hbad : readers ≠ c.inputs.map (·.reader) := by
      intro hsame
      rw [hok hsame] at hs
      cases hs
    apply TripleE.bind (TripleE.conseq
      (TripleE.undisturbed (tripleE_compactRecords cfg c.bottommost hsorted)
        (stable_faults.and hS) (Undisturbed.and (fun _ _ _ _ _ _ h => h) hfree))
      (fun g w _ h => ⟨h.2.1, h.1 hbad, h.2.2⟩) (fun _ g w _ h => h)
      fun _ g w _ h => ⟨h.1, h.2.2⟩)
    rintro ⟨done, cur⟩
    dsimp only
    rw [if_pos (by simp [hs])]
    apply TripleE.throw (e := s)
    intro g w _ h
    exact ⟨⟨unlocked_of_outputting h.1.2, h.2.1⟩, h.2.2⟩
  | true =>
    -- the merge has come to its end, so the outputs hold all of it
    obtain ⟨rfl, -⟩ := hall hs
    apply TripleE.bind (TripleE.conseq
      (TripleE.undisturbed (tripleE_compactRecords cfg c.bottommost hsorted) hS hfree)
      (fun g w _ h => h.2) (S := fun out g w =>
        Outs cfg.options.bloomBitsPerKey c.bottommost (mergedInputs c) out ∧
          Outputting cfg.options.bloomBitsPerKey out g w ∧ S g w)
      (fun _ g w _ h => ⟨h.1.1, h.1.2, h.2⟩) fun _ g w _ h => h)
    rintro ⟨done, cur⟩
    apply Triple.pre
    intro hout
    dsimp only
    rw [if_neg (by simp [hs])]
    exact TripleE.conseq (TripleE.undisturbed (tripleE_finishOutput cfg hout hsorted) hS hfree)
      (fun g w _ h => h) (fun _ g w _ h => ⟨h.1.1, h.1.2.1, h.1.2.2, h.2⟩) fun _ g w _ h => h

/-! ## The installation -/

/-- Since a compaction was picked, flushes may have come, and nothing else. -/
structure Watching (v : Version) (n : Nat) (c : Compaction) (g : Ghost) (w : World) : Prop where
  since : Since v n g w
  inputs : ∀ f ∈ c.inputs, g.tables f.number = some f

/-- The client only pushes tables to level 0, so the inputs stay tables. -/
theorem stable_watching : Stable (protocol .background) (Watching v n c) :=
  fun _ _ _ _ hr _ h => ⟨h.since.trans (hr.background rfl),
    fun f hf => hr.tables _ f (h.inputs f hf)⟩

/-- What is known of the inputs does not depend on the lock. -/
theorem mutexFree_watching : MutexFree (Watching v n c) := fun _ _ _ h => ⟨h.since, h.inputs⟩

/-- Nor on the tables being written. -/
theorem undisturbed_watching : Undisturbed (Watching v n c) :=
  fun _ _ _ _ _ _ h => ⟨h.since, h.inputs⟩

/-- What the loop has made are the outputs of the compaction. -/
theorem Outs.outputs (hi : Inv g w) {outs : List FileMeta}
    (ho : Outs bits c.bottommost (mergedInputs c) (outs, none))
    (hfiles : Holding .background outs g w) : Outputs c w.current outs := by
  refine ⟨ho.wf, ?_, ho.nodup,
    fun o ho f hf => (hi.number_ne_current (hfiles.owned o ho) hf).symm⟩
  have hrecords := ho.records
  simpa [compacted, mergedInputs] using hrecords

/-- The outputs take the place of the inputs. -/
theorem Inv.compact (hi : Inv g w) {outs : List FileMeta} (hp : Picked v c) (hv : v.levels ≠ [])
    (hgrown : Grown v w.current) (ho : Outs bits c.bottommost (mergedInputs c) (outs, none))
    (hfiles : Holding .background outs g w) (hfits : (installCompaction w.current c outs).Fits) :
    Inv { g with
        tables := register g.tables outs
        owned := Function.update g.owned .background ∅ }
      { w with current := installCompaction w.current c outs } ∧
    Outputs c w.current outs ∧
    ∀ f ∈ c.inputs, ∀ f' ∈ (installCompaction w.current c outs).files, f'.number ≠ f.number := by
  -- the inputs are still where they were picked: the client has only pushed to level 0
  obtain ⟨chosen, lo, hi', hsite⟩ := hp.site hv hi.layout hgrown
  have houts := ho.outputs hi hfiles
  refine ⟨?_, houts, ?_⟩
  · apply hi.install hfiles ho.nodup (hsite.layout_install hi.layout houts) hfits
    · intro f hf
      exact (hsite.mem_install hi.layout hf).imp_left And.left
    · exact fun _ f hf => hsite.level_zero_install hf
    · rw [hsite.liveIn_install hi.layout houts]
      exact hi.live
  · -- a table of the new version is an old one that was no input, or an output
    intro f hf f' hf'
    rcases hsite.mem_install hi.layout hf' with ⟨-, hne⟩ | hout
    · exact (hne f hf).symm
    · exact houts.fresh f' hout f (hsite.mem_inputs hf)

/-- The inputs are in no version any more, in the process or on disk. -/
structure Unlinking (nv : Version) (c : Compaction) (g : Ghost) (w : World) : Prop where
  held : w.mutex = some .background
  current : w.current = nv
  saved : g.saved = nv
  inputs : ∀ f ∈ c.inputs, g.tables f.number = some f

/-- Under the lock the client changes neither the version nor the manifest. -/
theorem stable_unlinking {nv : Version} : Stable (protocol .background) (Unlinking nv c) := by
  intro g w g' w' hr _ h
  obtain ⟨hm, hc, -, hs, -⟩ := hr.locked h.held
  exact ⟨hm, hc.trans h.current, hs.trans h.saved, fun f hf => hr.tables _ f (h.inputs f hf)⟩

/-- The loop that unlinks the inputs. -/
theorem triple_unlinkInputs {nv : Version} {P : Ghost → World → Prop}
    (hP : Stable (protocol .background) P)
    (hkeep : ∀ g w disk, P g w → P g { w with disk := disk }) {files : List FileMeta}
    (hfiles : ∀ f ∈ files, f ∈ c.inputs)
    (hdead : ∀ f ∈ c.inputs, ∀ f' ∈ nv.files, f'.number ≠ f.number) :
    Triple (exec .background) (protocol .background) (fun g w => Unlinking nv c g w ∧ P g w)
      (unlinkInputs files) fun _ g w => Unlinking nv c g w ∧ P g w := by
  induction files with
  | nil => exact Triple.ret fun g w _ h => h
  | cons f files ih =>
    have hf : f ∈ c.inputs := hfiles f List.mem_cons_self
    apply Triple.bind (Q := fun _ g w => Unlinking nv c g w ∧ P g w)
    · apply Triple.lift (c := Call.unlink (numberToName f.number)) (stable_unlinking.and hP)
      -- the demand of `unlink`: neither the version nor the manifest names this file
      · intro g w _ h n hn
        cases numberToName_injective hn
        rw [h.1.current, h.1.saved]
        exact ⟨hdead f hf, hdead f hf⟩
      · intro g w hi ⟨h, hPg⟩ ch r w' _ hexec
        rcases exec_unlink hexec with rfl | rfl
        · exact ⟨g, Keeps.refl _ g w', hi, h, hPg⟩
        have hdisk (name : String) (hname : name ≠ numberToName f.number) :
            (w.disk.erase (numberToName f.number)).lookup name = w.disk.lookup name :=
          AList.lookup_erase_ne hname
        -- the live tables have other names
        have hlive (f' : FileMeta) (hf' : f' ∈ nv.files) :
            (w.disk.erase (numberToName f.number)).lookup (numberToName f'.number) =
              w.disk.lookup (numberToName f'.number) :=
          hdisk _ fun heq => hdead f hf f' hf' (numberToName_injective heq)
        refine ⟨g, ?_, ?_, ⟨h.held, h.current, h.saved, h.inputs⟩, hkeep g w _ hPg⟩
        · have hother : w.mutex ≠ some .client := by
            rw [h.held]
            decide
          refine { Keeps.refl .client g w with
            files := fun n hn => hdisk _ fun heq => ?_
            locked := fun hm => absurd hm hother
            client := fun _ => ⟨rfl, rfl, rfl, rfl,
              hdisk _ (numberToName_ne_walName _).symm⟩
            background := fun ht => by cases ht }
          -- an input is a table, so no thread is writing it
          have hnone := hi.owned_new .client n hn
          rw [numberToName_injective heq, h.inputs f hf] at hnone
          cases hnone
        · apply hi.congr (hdisk _ (numberToName_ne_manifestName _).symm)
            (hdisk _ (numberToName_ne_walName _).symm)
          · exact fun f' hf' => hlive f' (h.saved ▸ hf')
          · exact fun f' hf' => hlive f' (h.current ▸ hf')
    · exact fun _ => ih fun f hf => hfiles f (List.mem_cons_of_mem _ hf)

/-- The compaction is installed, over and under flushes. -/
def Compacted (v : Version) (n : Nat) (c : Compaction) (g : Ghost) (w : World) : Prop :=
  ∃ (files : List FileMeta) (outs : List FileMeta), Outputs c (files.foldl pushL0 v) outs ∧
    Since (installCompaction (files.foldl pushL0 v) c outs) (n + files.length) g w

/-- The client can only push further tables on the version that was installed. -/
theorem stable_compacted : Stable (protocol .background) (Compacted v n c) := by
  rintro g w g' w' hr _ ⟨files, outs, ho, hsince⟩
  exact ⟨files, outs, ho, hsince.trans (hr.background rfl)⟩

/-- The part of `DoCompaction` under the lock. -/
private theorem tripleE_installCompaction (hp : Picked v c) (hv : v.levels ≠ [])
    {outs : List FileMeta} (ho : Outs bits c.bottommost (mergedInputs c) (outs, none)) :
    TripleE (exec .background) (protocol .background)
      (fun g w => w.mutex = some .background ∧ Holding .background outs g w ∧ Watching v n c g w)
      (do
        let v ← DB.call .loadCurrent
        let nv := installCompaction v c outs
        DB.call (.storeCurrent nv)
        writeManifest nv
        liftM (unlinkInputs c.inputs))
      (fun _ g w => w.mutex = some .background ∧ Compacted v n c g w)
      fun _ g w => w.mutex = some .background ∧ g.faults = true ∧ Compacted v n c g w := by
  -- the version may have grown since the compaction was picked
  apply TripleE.bind (Q := fun u g w => (w.mutex = some .background ∧ w.current = u) ∧
    Holding .background outs g w ∧ Watching v n c g w)
  · apply DB.tripleE_call
    apply Triple.lift (c := Call.loadCurrent)
      (stable_held.and ((stable_holding outs).and stable_watching)) fun _ _ _ _ => trivial
    intro g w hi ⟨hm, h⟩ ch r w' _ hexec
    cases hexec
    exact ⟨g, Keeps.refl _ g w, hi, ⟨hm, rfl⟩, h⟩
  intro u
  -- from here on the outputs are in the version, whatever becomes of the manifest
  apply TripleE.bind (Q := fun _ g w =>
    ((∀ f ∈ c.inputs, ∀ f' ∈ (installCompaction u c outs).files, f'.number ≠ f.number) ∧
      w.mutex = some .background ∧ w.current = installCompaction u c outs) ∧
    (∀ f ∈ c.inputs, g.tables f.number = some f) ∧ Compacted v n c g w)
  · apply DB.tripleE_call
    apply Triple.lift (c := Call.storeCurrent (installCompaction u c outs))
      (Stable.and (K := protocol .background) (stable_current u)
        (Stable.and (K := protocol .background) (stable_holding outs) stable_watching))
      fun _ _ _ _ => trivial
    intro g w hi ⟨⟨hm, hc⟩, hfiles, hw⟩ ch r w' hallow hexec
    cases hexec
    have hfits : (installCompaction u c outs).Fits := hallow.1
    rw [← hc] at hfits ⊢
    obtain ⟨hinv, houts, hdead⟩ := hi.compact hp hv hw.since.grown ho hfiles hfits
    refine ⟨_, .compact hi hm hfiles, hinv, ⟨hdead, hm, rfl⟩, ?_, ?_⟩
    -- the outputs are new tables, so those that exist keep their numbers
    · exact fun f hf =>
        register_of_some (fun f hf => hi.owned_new _ _ (hfiles.owned f hf)) (hw.inputs f hf)
    · obtain ⟨files, hcurrent, hcount⟩ := hw.since
      refine ⟨files, outs, hcurrent ▸ houts, [], ?_, hcount⟩
      show installCompaction w.current c outs = _
      rw [hcurrent]
      rfl
  intro _
  apply Triple.conseq (P := fun g w =>
    (∀ f ∈ c.inputs, ∀ f' ∈ (installCompaction u c outs).files, f'.number ≠ f.number) ∧
    (w.mutex = some .background ∧ w.current = installCompaction u c outs) ∧
    (∀ f ∈ c.inputs, g.tables f.number = some f) ∧ Compacted v n c g w) _
    (fun g w _ h => ⟨h.1.1, h.1.2, h.2⟩) fun _ g w _ h => h
  apply Triple.pre
  intro hdead
  apply TripleE.bind (Q := fun _ g w => Unlinking (installCompaction u c outs) c g w ∧
    Compacted v n c g w)
  · -- the manifest; what else is known does not depend on it
    apply TripleE.conseq (TripleE.frame (tripleE_writeManifest (installCompaction u c outs))
      (fun _ _ _ _ _ _ hp => hp.keeps) (S := fun g w =>
        (∀ f ∈ c.inputs, g.tables f.number = some f) ∧ Compacted v n c g w) ?stable ?keep)
    case stable =>
      apply Stable.and _ stable_compacted
      exact fun _ _ _ _ hr _ h f hf => hr.tables _ f (h f hf)
    case keep =>
      intro g w g' w' _ hp hS
      obtain ⟨saved, savedNext, hg⟩ := hp.ghost
      obtain ⟨disk, hw'⟩ := hp.world
      subst hg hw'
      exact hS
    · exact fun g w _ h => h
    · exact fun _ g w _ h => ⟨⟨h.1.1, h.1.2.1, h.1.2.2, h.2.1⟩, h.2.2⟩
    · exact fun _ g w _ h => ⟨h.1.1, h.1.2, h.2.2⟩
  intro _
  apply TripleE.lift
  apply Triple.conseq (triple_unlinkInputs stable_compacted (fun _ _ _ h => h) (fun _ h => h) hdead)
    (fun g w _ h => h)
  exact fun _ g w _ h => ⟨h.1.held, h.2⟩

/-- The outputs are installed, also if the manifest cannot be written. -/
theorem tripleE_installOutputs (hp : Picked v c) (hv : v.levels ≠ []) {outs : List FileMeta}
    (ho : Outs bits c.bottommost (mergedInputs c) (outs, none)) :
    TripleE (exec .background) (protocol .background)
      (fun g w => w.mutex ≠ some .background ∧ Holding .background outs g w ∧ Watching v n c g w)
      (installOutputs c outs)
      (fun _ g w => w.mutex ≠ some .background ∧ Compacted v n c g w)
      fun _ g w => w.mutex ≠ some .background ∧ g.faults = true ∧ Compacted v n c g w := by
  apply tripleE_withLock ((stable_holding outs).and stable_watching)
    (fun g w m h => ⟨⟨h.1.owned, h.1.files⟩, mutexFree_watching g w m h.2⟩)
    (fun _ => stable_compacted) (fun _ _ _ _ h => h)
    (fun _ => stable_faults.and stable_compacted) fun _ _ _ _ h => h
  exact tripleE_installCompaction hp hv ho

/-- The inputs are tables of the version. -/
theorem Picked.wf_inputs (hp : Picked v c) (hv : Layout v) (f : FileMeta) (hf : f ∈ c.inputs) :
    f.Wf := by
  obtain ⟨chosen, lo, hi, hsite⟩ := hp.site hv.ne_nil hv (.refl v)
  exact hv.wf f (hsite.mem_inputs hf)

/-- `DoCompaction`. -/
theorem tripleE_doCompaction (hv : Layout v) (hp : Picked v c) :
    TripleE (exec .background) (protocol .background)
      (fun g w => w.mutex ≠ some .background ∧ Watching v n c g w) (doCompaction cfg c)
      (fun _ g w => w.mutex ≠ some .background ∧ Compacted v n c g w)
      fun _ => Failed .background := by
  rw [doCompaction_eq]
  apply TripleE.bind (TripleE.conseq
    (tripleE_mergeInputs cfg (hp.wf_inputs hv) stable_watching undisturbed_watching)
    (fun g w _ h => h) (fun _ g w _ h => h) fun _ g w _ h => h.1)
  intro outs
  apply Triple.pre
  intro houts
  exact TripleE.conseq (tripleE_installOutputs hp hv.ne_nil houts) (fun g w _ h => h)
    (fun _ g w _ h => h) fun _ g w _ h => ⟨h.1, h.2.1⟩

/-! ## The loop of the compaction thread -/

/-- What a turn of the loop has done, if it was not told to stop and no call has failed: nothing
    if nothing was needed, and a compaction if one was. `v` and `n` are from before the turn. -/
def TurnDone (options : Options) (v : Version) (n : Nat) (goOn : Bool) (g : Ghost) (w : World) :
    Prop :=
  w.mutex ≠ some .background ∧ (goOn = true → g.faults = false → ∃ files : List FileMeta,
    (needsCompaction options (files.foldl pushL0 v) = false → Since v n g w) ∧
    (needsCompaction options (files.foldl pushL0 v) = true →
      ∃ c, pickCompaction options (files.foldl pushL0 v) = some (some c) ∧
        Compacted (files.foldl pushL0 v) (n + files.length) c g w))

/-- What a turn has achieved is not undone by the client. -/
theorem stable_turnDone (options : Options) (goOn : Bool) :
    Stable (protocol .background) (TurnDone options v n goOn) := by
  rintro g w g' w' hr hi ⟨hm, h⟩
  refine ⟨hr.unlocked hm, fun hgo hf => ?_⟩
  obtain ⟨files, hno, hyes⟩ := h hgo (hr.faults hf)
  refine ⟨files, fun hneeds => (hno hneeds).trans (hr.background rfl), fun hneeds => ?_⟩
  obtain ⟨c, hpick, hc⟩ := hyes hneeds
  exact ⟨c, hpick, stable_compacted g w g' w' hr hi hc⟩

/-- The client only pushes tables. -/
theorem stable_since : Stable (protocol .background) (Since v n) :=
  fun _ _ _ _ hr _ h => h.trans (hr.background rfl)

/-- The lock is not part of the version. -/
private theorem mutexFree_since : MutexFree (Since v n) := fun _ _ _ h => h

/-- One turn of `BackgroundLoop`. -/
theorem triple_backgroundTurn (htrigger : 1 ≤ cfg.options.l0CompactionTrigger) :
    Triple (exec .background) (protocol .background)
      (fun g w => w.mutex ≠ some .background ∧ Since v n g w)
      (backgroundTurn cfg) (TurnDone cfg.options v n) := by
  apply Triple.bind (triple_lock stable_since mutexFree_since)
  intro _
  -- the ways out that compact nothing
  have hunlock (b : Bool) {P : Ghost → World → Prop}
      (hP : ∀ g w, P g w → w.mutex = some .background ∧ Since v n g w)
      (hdone : ∀ g w, w.mutex ≠ some .background → Since v n g w → TurnDone cfg.options v n b g w) :
      Triple (exec .background) (protocol .background) P
        (DB.call .unlock >>= fun _ => Prog.ret b : DBM Bool) (TurnDone cfg.options v n) := by
    apply Triple.bind (Triple.conseq (triple_unlock stable_since mutexFree_since)
      (fun g w _ h => hP g w h) fun _ g w _ h => h)
    exact fun _ => Triple.ret fun g w _ h => hdone g w h.1 h.2
  apply Triple.bind (Q := fun _ g w => w.mutex = some .background ∧ Since v n g w)
  · apply Triple.lift (c := Call.loadShuttingDown) (stable_held.and stable_since)
      fun _ _ _ _ => trivial
    intro g w hi h ch r w' _ hexec
    cases hexec
    exact ⟨g, Keeps.refl _ g w, hi, h⟩
  intro down
  cases down with
  -- the database is being closed
  | true => exact hunlock false (fun _ _ h => h) fun g w hm _ => ⟨hm, fun hgo => by cases hgo⟩
  | false =>
    -- the version picked from is the one of the start of the turn, with the tables flushed since
    apply Triple.bind (Q := fun u g w => (Layout u ∧ ∃ files : List FileMeta,
        u = files.foldl pushL0 v ∧ Since u (n + files.length) g w ∧ Since v n g w) ∧
      w.mutex = some .background ∧ ∀ f ∈ u.files, g.tables f.number = some f)
    · apply Triple.lift (c := Call.loadCurrent) (stable_held.and stable_since)
        fun _ _ _ _ => trivial
      intro g w hi ⟨hm, h⟩ ch r w' _ hexec
      cases hexec
      obtain ⟨files, hcurrent, hcount⟩ := h
      refine ⟨g, Keeps.refl _ g w, hi, ⟨hi.layout, files, hcurrent, ⟨[], rfl, hcount⟩,
        files, hcurrent, hcount⟩, hm, hi.current_tables⟩
    intro u
    apply Triple.conseq (P := fun g w => ∃ files : List FileMeta,
      (Layout u ∧ u = files.foldl pushL0 v) ∧ w.mutex = some .background ∧
        Since u (n + files.length) g w ∧ Since v n g w ∧ ∀ f ∈ u.files, g.tables f.number = some f)
      _ (fun g w _ h => by
        obtain ⟨⟨hu, files, heq, hs, hs'⟩, hm, htables⟩ := h
        exact ⟨files, ⟨hu, heq⟩, hm, hs, hs', htables⟩) fun _ g w _ h => h
    apply Triple.exists
    intro files
    apply Triple.pre
    rintro ⟨hu, heq⟩
    cases hneeds : needsCompaction cfg.options u with
    | false =>
      apply hunlock true (fun _ _ h => ⟨h.1, h.2.2.1⟩)
      intro g w hm hs
      -- nothing to do: the version is as it was, up to flushes
      refine ⟨hm, fun _ _ => ⟨files, fun _ => hs, fun hyes => ?_⟩⟩
      rw [← heq, hneeds] at hyes
      cases hyes
    | true =>
      obtain ⟨pick, hpick⟩ := pickCompaction_isSome htrigger u
      show Triple _ _ _ (DB.defined (pickCompaction cfg.options u) >>= _) _
      rw [hpick]
      cases pick with
      -- a version that needs compaction has one to pick
      | none => exact absurd hpick (pickCompaction_of_needsCompaction hneeds)
      | some c =>
        have hp := picked_of_pickCompaction hu hpick
        have hinputs (f : FileMeta) (hf : f ∈ c.inputs) : f ∈ u.files := by
          obtain ⟨chosen, lo, hi, hsite⟩ := hp.site hu.ne_nil hu (.refl u)
          exact hsite.mem_inputs hf
        -- the compaction, on what the version is by the time it is installed
        apply Triple.bind (Triple.conseq
          (triple_unlock (stable_watching (v := u) (n := n + files.length) (c := c))
            mutexFree_watching)
          (fun g w _ h => ⟨h.1, h.2.1, fun f hf => h.2.2.2 f (hinputs f hf)⟩) fun _ g w _ h => h)
        intro _
        apply Triple.bind (tripleE_doCompaction cfg hu hp)
        intro r
        apply Triple.ret
        intro g w _ h
        cases r with
        | ok a =>
          refine ⟨h.1, fun _ _ => ⟨files, fun hno => ?_, fun _ => ⟨c, heq ▸ hpick, heq ▸ h.2⟩⟩⟩
          rw [← heq, hneeds] at hno
          cases hno
        -- the compaction fails only if there was a fault
        | error e =>
          refine ⟨h.1, fun _ hf => ?_⟩
          rw [h.2] at hf
          cases hf

end Lsmdb
