import Lsmdb.Spec.OrphanCorrect
import Lsmdb.Spec.SystemInvariant

/-!
# Appending to the log

`AddRecord` appends a prefix of the frame of its record, and all of it if it returns `OK`
(`addRecord_spec`). What a later replay makes of it depends on what the log held before:
behind whole frames the records are replayed in order, those of failed calls too if their
frame is complete. Behind anything else the replay has stopped before it reaches them.
Neither `AddRecord` after a failure nor `Recover` cuts such a tail off.
-/

namespace Lsmdb

open Prog

/-- A call of `AddRecord`: its record, what it returned, and the log before and after it. -/
structure Attempt where
  record : Entry
  result : Except Status Unit
  before : Bytes
  after : Bytes

/-- The whole frame has reached the log. -/
def Attempt.Complete (a : Attempt) : Prop := a.after = a.before ++ walFrame a.record

instance : DecidablePred Attempt.Complete := fun _ => inferInstanceAs (Decidable (_ = _))

/-- Calls of `AddRecord` on one open log, in turn. Every call may turn out in every way. -/
inductive Attempts (cfg : Config) : World → List Attempt → World → Prop
  | nil (w : World) : Attempts cfg w [] w
  | cons {w w' w'' : World} {e : Entry} {r : Except Status Unit} {as : List Attempt}
    (hrun : Runs (exec .client) (fun _ _ _ => True) (DB.addRecord cfg e).run w r w')
    (hrest : Attempts cfg w' as w'') :
    Attempts cfg w (⟨e, r, w.disk.log, w'.disk.log⟩ :: as) w''

/-- The attempts that the given choices lead to, as far as these can be made. -/
def DB.attempts (cfg : Config) : World → List (Entry × List Choice) → List Attempt × World
  | w, [] => ([], w)
  | w, (e, chs) :: rest =>
    match (DB.addRecord cfg e).run.evalWith (exec .client) (fun _ _ _ => true) chs w with
    | none => ([], w)
    | some (r, w') =>
      let (as, w'') := DB.attempts cfg w' rest
      (⟨e, r, w.disk.log, w'.disk.log⟩ :: as, w'')

/-- The evaluator makes the attempts one after the other. -/
private theorem attempts_attempts (cfg : Config) (w : World) (l : List (Entry × List Choice)) :
    Attempts cfg w (DB.attempts cfg w l).1 (DB.attempts cfg w l).2 := by
  induction l generalizing w with
  | nil => exact .nil w
  | cons x l ih =>
    obtain ⟨e, chs⟩ := x
    rw [DB.attempts]
    split
    next => exact .nil w
    next r w' hrun => exact .cons (Runs.of_evalWith (fun _ _ _ _ => trivial) hrun) (ih w')

/-! ## One call -/

variable {cfg : Config} {e : Entry} {w w' : World} {file : Bytes}

/-- `AddRecord` appends the frame of its record, or a part of it if it fails. -/
private theorem tripleE_addRecord_alone :
    TripleE (exec .client) (Contract.alone Call Choice World)
      (fun _ w => w.disk.lookup walName = some file) (DB.addRecord cfg e)
      (fun _ _ w => w.disk.lookup walName = some (file ++ walFrame e))
      (fun _ _ w => ∃ part, part <+: walFrame e ∧
        w.disk.lookup walName = some (file ++ part)) := by
  apply TripleE.bind (Q := fun _ _ w => w.disk.lookup walName = some file)
  · apply DB.tripleE_call
    apply Triple.lift (c := Call.loadWal) (Stable.alone _) fun _ _ _ _ => trivial
    intro g w _ hfile ch r w' _ hexec
    cases hexec
    exact ⟨(), trivial, trivial, hfile⟩
  intro isOpen
  cases isOpen with
  -- without an open log the call fails, and nothing is written
  | false =>
    apply TripleE.throw
    intro g w _ hfile
    exact ⟨[], List.nil_prefix, by rw [hfile, List.append_nil]⟩
  | true =>
    apply TripleE.bind (Q := fun _ _ w => w.disk.lookup walName = some (file ++ walFrame e))
    · apply DB.tripleE_check
      apply Triple.conseq (P := fun _ w => w.disk.lookup walName = some (file ++ [])) _ _
        fun _ _ _ _ h => h
      · apply DB.triple_writeFully (A := fun part _ w => w.disk.lookup walName = some (file ++ part))
          (fun _ => Stable.alone _) fun _ _ _ _ _ => trivial
        · intro part more rest g w _ _ hfile
          refine ⟨(), trivial, trivial, ?_⟩
          rw [Disk.lookup_append_self hfile, List.append_assoc]
        -- a failed write leaves a part of the frame
        · intro part rest errno g w hdata _ hfile _
          exact ⟨trivial, part, ⟨rest, hdata⟩, hfile⟩
      · intro g w _ hfile
        rw [hfile, List.append_nil]
    intro _
    by_cases hsync : cfg.options.sync = true
    · rw [if_pos hsync]
      apply DB.tripleE_check
      apply Triple.lift (c := Call.fsync walName) (Stable.alone _) fun _ _ _ _ => trivial
      intro g w _ hfile ch r w' _ hexec
      obtain ⟨rfl, hres⟩ := exec_fsync hexec
      rcases hres with ⟨errno, -, rfl⟩ | rfl
      · exact ⟨(), trivial, trivial, walFrame e, List.prefix_rfl, hfile⟩
      · exact ⟨(), trivial, trivial, hfile⟩
    · rw [if_neg hsync]
      exact TripleE.ret fun g w _ hfile => hfile

/-- `AddRecord` appends a prefix of the frame, and the whole frame if it returns `OK`. -/
private theorem addRecord_spec {r : Except Status Unit} (hfile : w.disk.lookup walName = some file)
    (hrun : Runs (exec .client) (fun _ _ _ => True) (DB.addRecord cfg e).run w r w') :
    ∃ part, part <+: walFrame e ∧ w'.disk.lookup walName = some (file ++ part) ∧
      (r = .ok () → part = walFrame e) := by
  obtain ⟨_, -, -, hpost⟩ := Safe.runs (J := fun _ _ => True)
    (tripleE_addRecord_alone () w trivial hfile) trivial trivial
    (fun _ _ _ _ _ _ _ => trivial) (fun _ _ _ _ _ _ => trivial) hrun
  cases r with
  | ok u => exact ⟨walFrame e, List.prefix_rfl, hpost, fun _ => rfl⟩
  | error s =>
    obtain ⟨part, hpart, hlog⟩ := hpost
    exact ⟨part, hpart, hlog, nofun⟩

/-- The log is the content of its file. -/
theorem log_eq (h : w.disk.lookup walName = some file) : w.disk.log = file := by
  rw [Disk.log, h, Option.getD_some]

/-- Behind whole frames, exactly a complete frame adds a record. -/
private theorem walRecords_append_part {part : Bytes} (hwhole : WholeFrames file) (he : e.WalFits)
    (hpart : part <+: walFrame e) :
    walRecords (file ++ part) = walRecords file ++ if part = walFrame e then [e] else [] := by
  obtain ⟨es, hes, rfl⟩ := hwhole
  rw [walRecords_walFrames hes]
  split
  next hframe =>
    have hsingle : walFrame e = walFrames [e] := by simp [walFrames]
    rw [hframe, hsingle, walRecords_append ⟨es, hes, rfl⟩ (by simpa using he),
      walRecords_walFrames hes]
  next hne =>
    rw [walRecords_eq_of_stop hes (replayStep_torn he hpart hne), List.append_nil]

/-! ## A run of calls -/

/-- Calls of `AddRecord` that all find a log of whole frames lose no record: a replay yields, in
    order, the records whose frames are complete, and these include every record whose call
    returned `OK`. -/
theorem acknowledged_appends_replayed {as : List Attempt} (hlog : w.disk.lookup walName = some file)
    (hrun : Attempts cfg w as w')
    (hwhole : ∀ a ∈ as, WholeFrames a.before ∧ a.record.WalFits) :
    walRecords w'.disk.log =
        walRecords file ++ (as.filter fun a => decide a.Complete).map Attempt.record ∧
      ∀ a ∈ as, a.result = .ok () → a.Complete := by
  induction hrun generalizing file with
  | nil w => simp [log_eq hlog]
  | @cons w w₁ w₂ e r as hcall _ ih =>
    obtain ⟨part, hpart, hlog', hok⟩ := addRecord_spec hlog hcall
    obtain ⟨hbefore, hfits⟩ := hwhole _ List.mem_cons_self
    obtain ⟨hrecords, hrest⟩ := ih hlog' fun a ha => hwhole a (List.mem_cons_of_mem _ ha)
    -- the attempt is complete if the whole frame is in the file
    have hcomplete : Attempt.Complete ⟨e, r, w.disk.log, w₁.disk.log⟩ ↔ part = walFrame e := by
      show w₁.disk.log = w.disk.log ++ walFrame e ↔ _
      rw [log_eq hlog, log_eq hlog', List.append_cancel_left_eq]
    constructor
    · rw [log_eq hlog] at hbefore
      rw [hrecords, walRecords_append_part hbefore hfits hpart, List.append_assoc]
      congr 1
      by_cases hframe : part = walFrame e
      · simp [hframe, hcomplete]
      · simp [hframe, hcomplete]
    · intro a ha hres
      rcases List.mem_cons.mp ha with rfl | ha
      · exact hcomplete.mpr (hok hres)
      · exact hrest a ha hres

/-- The database that an empty directory is opened to. -/
def emptyDatabase : World :=
  ((DB.reopen exampleConfig ∅).map Prod.snd).getD (World.fresh exampleConfig ∅)

/-- A record whose frame is written but not synced, and one that is acknowledged. -/
def unsynced : List (Entry × List Choice) :=
  [(⟨[1], [2], .value⟩, [.ok, .ok, .fail "Input/output error"]),
    (⟨[1], [3], .value⟩, [.ok, .short 5, .ok, .ok])]

/-- A record of which one byte is written, and one that is acknowledged. -/
def cutOff : List (Entry × List Choice) :=
  [(⟨[1], [2], .value⟩, [.ok, .short 1, .fail "No space left on device"]),
    (⟨[1], [3], .value⟩, [.ok, .ok, .ok])]

/-- Two appends, without `fsync`. -/
theorem acknowledged_appends_replayed_unsynced :
    ∃ as w', Attempts exampleConfig emptyDatabase as w' ∧
      (∀ a ∈ as, WholeFrames a.before ∧ a.record.WalFits) ∧
      walRecords w'.disk.log = [⟨[1], [2], .value⟩, ⟨[1], [3], .value⟩] := by
  have hrun := attempts_attempts exampleConfig emptyDatabase unsynced
  have hwhole : ∀ a ∈ (DB.attempts exampleConfig emptyDatabase unsynced).1,
      WholeFrames a.before ∧ a.record.WalFits := by decide +kernel
  refine ⟨_, _, hrun, hwhole, ?_⟩
  have hlog : emptyDatabase.disk.lookup walName = some [] := by decide +kernel
  rw [(acknowledged_appends_replayed hlog hrun hwhole).1]
  decide +kernel

/-- An acknowledged record is lost behind the byte that a failed call has left. -/
theorem acknowledged_append_lost :
    emptyDatabase.walOpen = true ∧ emptyDatabase.disk.lookup walName = some [] ∧
      ∃ as w', Attempts exampleConfig emptyDatabase as w' ∧ (∀ a ∈ as, a.record.WalFits) ∧
        (∃ a ∈ as, a.result = .ok ()) ∧ walRecords w'.disk.log = [] :=
  ⟨by decide +kernel, by decide +kernel, _, _,
    attempts_attempts exampleConfig emptyDatabase cutOff, by decide +kernel, by decide +kernel,
    by decide +kernel⟩

/-! ## After a recovery -/

/-- The calls of a program that changes no existing file, except that it unlinks others. -/
def Call.Spares (name : String) : Call → Prop
  | openTrunc _ | write _ _ | rename _ _ => False
  | unlink other => other ≠ name
  | _ => True

/-- A call that spares a file leaves it as it is. -/
private theorem lookup_of_spares {t : Thread} {c : Call} {ch : Choice} {r : c.Res} {name : String}
    (hc : c.Spares name) (hexec : exec t c ch w = some (r, w'))
    (hfile : w.disk.lookup name = some file) : w'.disk.lookup name = some file := by
  cases c with
  | openAppend other =>
    rcases exec_openAppend hexec with ⟨errno, rfl, rfl, rfl⟩ | ⟨rfl, rfl⟩
    · exact hfile
    · split
      next => exact hfile
      next hmem =>
        -- the file exists, so it is not the one that is created
        have hne : name ≠ other := by
          rintro rfl
          exact hmem (AList.lookup_isSome.mp (by rw [hfile]; rfl))
        exact (AList.lookup_insert_ne hne).trans hfile
  | unlink other =>
    rcases exec_unlink hexec with rfl | rfl
    · exact hfile
    · exact (AList.lookup_erase_ne (Ne.symm hc)).trans hfile
  | openTrunc | write | rename => exact hc.elim
  | lock => exact (exec_lock hexec).2 ▸ hfile
  | unlock => exact (exec_unlock hexec).2 ▸ hfile
  | openRead other =>
    cases ch with
    | fail errno => cases hexec; exact hfile
    | ok | short | inputs =>
      simp only [exec] at hexec
      split at hexec <;> cases hexec <;> exact hfile
  | fstat other => exact (exec_fstat hexec).1 ▸ hfile
  | mmap other => exact (exec_mmap hexec).1 ▸ hfile
  | fsync other => exact (exec_fsync hexec).1 ▸ hfile
  | close other => exact (exec_close hexec).1 ▸ hfile
  | mapInputs readers => cases ch <;> cases hexec <;> exact hfile
  | _ => cases hexec; exact hfile

/-- `Recover` leaves the log as it is, whatever else it finds. -/
theorem all_recover_spares (cfg : Config) : (DB.recover cfg).run.All (Call.Spares walName) :=
  all_recover cfg trivial (fun _ => trivial) (fun _ => trivial) trivial (fun _ => trivial) trivial
    trivial numberToName_ne_walName

/-- What is acknowledged after a recovery from the log survives the next one. -/
def Survives (log : Bytes) : Prop :=
  ∀ cfg disk w w' as, disk.lookup walName = some log →
    Runs (exec .client) (fun _ _ _ => True) (DB.recover cfg).run (World.fresh cfg disk) (.ok ()) w →
    Attempts cfg w as w' → (∀ a ∈ as, a.record.WalFits ∧ a.result = .ok ()) →
    walRecords w'.disk.log = walRecords log ++ as.map Attempt.record

/-- Appends that all succeed write their frames one behind the other. -/
theorem Attempts.log_eq {as : List Attempt} (hrun : Attempts cfg w as w')
    (hlog : w.disk.lookup walName = some file) (hok : ∀ a ∈ as, a.result = .ok ()) :
    w'.disk.lookup walName = some (file ++ walFrames (as.map Attempt.record)) := by
  induction hrun generalizing file with
  | nil w => simpa using hlog
  | @cons w w₁ w₂ e r as hcall _ ih =>
    obtain ⟨part, -, hlog', hpart⟩ := addRecord_spec hlog hcall
    rw [hpart (hok _ List.mem_cons_self)] at hlog'
    rw [ih hlog' fun a ha => hok a (List.mem_cons_of_mem _ ha), List.map_cons, walFrames_cons,
      List.append_assoc]

/-- A log of whole frames keeps its records, whatever is appended to it. -/
private theorem survives_of_wholeFrames {log : Bytes} (h : WholeFrames log) : Survives log := by
  intro cfg disk w w' as hfile hrecover hrun has
  have hlog : w.disk.lookup walName = some log :=
    hrecover.keeps (fun c ch w r w' hc hexec hI => lookup_of_spares hc hexec hI)
      (all_recover_spares cfg) hfile
  rw [Lsmdb.log_eq (hrun.log_eq hlog fun a ha => (has a ha).2), walRecords_append h]
  simpa using fun a ha => (has a ha).1

/-! ### A log that ends in something else -/

/-- Records in front of a log. -/
private theorem walRecords_walFrames_append {es : List Entry} (hes : ∀ e ∈ es, e.WalFits) (p : Bytes) :
    walRecords (walFrames es ++ p) = es ++ walRecords p := by
  obtain ⟨fs, t, hfs, rfl, ht⟩ := exists_walFrames_append p
  rw [walRecords_eq_of_stop hfs ht, ← List.append_assoc, ← walFrames_append]
  apply walRecords_eq_of_stop _ ht
  intro e he
  rcases List.mem_append.mp he with he | he
  · exact hes e he
  · exact hfs e he

/-- The record with an empty key and an empty value. -/
def emptyRecord : Entry := ⟨[], [], .value⟩

/-- The first byte of its frame stands nowhere else in the frame. -/
private theorem walFrame_emptyRecord_getElem? :
    ∀ i < 17, 0 < i → (walFrame emptyRecord)[i]? ≠ (walFrame emptyRecord)[0]? := by
  decide +kernel

/-- A tail at which the replay stops hides the record that is appended to it. -/
private theorem eq_nil_of_walRecords_append {t : Bytes} (ht : replayStep t = some .stop)
    (h : walRecords (t ++ walFrame emptyRecord) = [emptyRecord]) : t = [] := by
  have hlen : (walFrame emptyRecord).length = 17 := length_walFrame emptyRecord
  -- the frame begins what the replay reads, and is also its end
  obtain ⟨rest, hrest⟩ : ∃ rest, t ++ walFrame emptyRecord = walFrame emptyRecord ++ rest := by
    obtain ⟨es, rest, hes, heq, hstop⟩ := exists_walFrames_append (t ++ walFrame emptyRecord)
    rw [heq, walRecords_eq_of_stop hes hstop] at h
    refine ⟨rest, ?_⟩
    rw [heq, h, walFrames_cons, walFrames_nil, List.append_nil]
  by_contra hne
  have hpos : 0 < t.length := List.length_pos_iff.mpr hne
  by_cases hlong : 17 ≤ t.length
  · -- then the tail begins with a whole frame
    have htake : t.take 17 = walFrame emptyRecord := by
      have := congrArg (List.take 17) hrest
      rwa [List.take_append_of_le_length hlong, List.take_left' hlen] at this
    have hframe := replayStep_walFrame (e := emptyRecord) (by decide) (t.drop 17)
    rw [← htake, List.take_append_drop, ht] at hframe
    cases hframe
  · -- then the first byte of the frame stands in it once more
    apply walFrame_emptyRecord_getElem? t.length (by omega) hpos
    have hbyte := congrArg (·[t.length]?) hrest
    simp only [List.getElem?_append_right (Nat.le_refl t.length), Nat.sub_self] at hbyte
    rw [List.getElem?_append_left (by omega)] at hbyte
    exact hbyte.symm

/-- `AddRecord` when no call fails. -/
theorem eval_addRecord (hopen : w.walOpen = true) :
    (DB.addRecord cfg e).run.eval (exec .client) .ok w =
      some (.ok (), { w with disk := w.disk.append walName (walFrame e) }) := by
  -- a frame is not empty, so there is something to write
  have hne : walFrame e ≠ [] := by
    apply List.ne_nil_of_length_pos
    rw [length_walFrame]
    omega
  have hload : exec .client .loadWal .ok w = some (true, w) := by rw [exec, hopen]
  rw [DB.addRecord, eval_bindE, DB.eval_call, hload]
  simp only [Option.map_some, Option.bind_some, Bool.not_true, Bool.false_eq_true, if_false]
  rw [eval_bindE, DB.eval_check, DB.eval_writeFully walName hne]
  cases hsync : cfg.options.sync with
  | false => rfl
  | true =>
    simp only [Option.map_some, Option.bind_some, if_true]
    rw [DB.eval_check, DB.eval_callM]
    rfl

/-- A directory that holds nothing but a log is in order, if nothing is asked of the log. -/
private theorem stored_log (log : Bytes) :
    ∃ g : Ghost, g.faults = false ∧ Stored g (AList.singleton walName log : Disk) := by
  refine ⟨{ Ghost.init .faultless with
    session := { (Ghost.init .faultless).session with sound := false } }, rfl, ?_⟩
  exact { (sysInv_init .faultless).stored with
    manifest := .inr ⟨rfl, rfl, rfl⟩
    saved_files := by simp [Ghost.init, Version.files]
    logged := nofun }

/-- `Recover` opens a database over any log, when no call fails. -/
private theorem exists_recover (cfg : Config) (log : Bytes) :
    ∃ w, Runs (exec .client) (fun _ _ _ => True) (DB.recover cfg).run
        (World.fresh cfg (AList.singleton walName log)) (.ok ()) w ∧
      w.walOpen = true ∧ w.disk.lookup walName = some log := by
  obtain ⟨g, hfaults, hs⟩ := stored_log log
  obtain ⟨r, g', w, heval, hs', hr⟩ :=
    Safe.eval Choice.ok (tripleE_recover cfg _ _ (World.fresh cfg _) hs ⟨rfl, rfl⟩) hs
      fun c g w _ hdemand => ⟨c.mayFail_ok _ _, hdemand.2⟩
  cases r with
  -- without faults the recovery does not fail
  | error e =>
    obtain ⟨-, hfault⟩ := hr
    rw [hfaults] at hfault
    cases hfault
  | ok u =>
    obtain ⟨-, hopened⟩ := hr
    obtain ⟨disk, mem, rfl⟩ := hopened.world
    exact ⟨_, Runs.of_eval (fun _ _ => trivial) heval, rfl, hopened.log_eq⟩

/-- If every record appended later is to be replayed, then the log must consist of whole frames. -/
private theorem wholeFrames_of_survives {log : Bytes} (h : Survives log) : WholeFrames log := by
  obtain ⟨es, t, hes, rfl, ht⟩ := exists_walFrames_append log
  -- append the empty record, and recover once more
  obtain ⟨w, hrecover, hopen, hlog⟩ := exists_recover exampleConfig (walFrames es ++ t)
  have hfits : emptyRecord.WalFits := by decide
  have hrun : Runs (exec .client) (fun _ _ _ => True) (DB.addRecord exampleConfig emptyRecord).run
      w _ _ := Runs.of_eval (fun _ _ => trivial) (eval_addRecord hopen)
  have hrecords := h _ _ _ _ _ rfl hrecover (.cons hrun (.nil _))
    (List.forall_mem_singleton.mpr ⟨hfits, rfl⟩)
  rw [log_eq (Disk.lookup_append_self hlog), List.append_assoc, walRecords_walFrames_append hes,
    walRecords_eq_of_stop hes ht] at hrecords
  have hnil := eq_nil_of_walRecords_append ht (List.append_cancel_left hrecords)
  rw [hnil, List.append_nil]
  exact ⟨es, hes, rfl⟩

/-- What is acknowledged after a recovery survives the next recovery if and only if the log that
    the first one found consists of whole frames. -/
theorem survives_iff_wholeFrames (log : Bytes) : Survives log ↔ WholeFrames log :=
  ⟨wholeFrames_of_survives, survives_of_wholeFrames⟩

/-- One byte is left in the log, and what is acknowledged from then on is lost. -/
theorem not_survives_one_byte : ¬ Survives [0] := fun h =>
  absurd (wholeFrames_of_survives h) (by decide +kernel)

/-! ## Records that are too large -/

/-- The record of the call is not lost: the call failed and left the log as it was, or a replay
    yields the record behind those of the log before, and goes on to what is appended later. -/
def Attempt.NotLost (a : Attempt) : Prop :=
  a.result ≠ .ok () ∧ a.after = a.before ∨
    ∀ later : List Entry, (∀ e ∈ later, e.WalFits) →
      walRecords (a.after ++ walFrames later) = walRecords a.before ++ a.record :: later

/-- The calls that only add to files. -/
def Call.Extends : Call → Prop
  | write _ _ | fsync _ => True
  | _ => False

/-- A write only adds to the end of a file. -/
private theorem isPrefix_of_extends {t : Thread} {c : Call} {ch : Choice} {r : c.Res} (hc : c.Extends)
    (hexec : exec t c ch w = some (r, w')) {start : Bytes} {name : String}
    (hstart : ∃ file, w.disk.lookup name = some file ∧ start <+: file) :
    ∃ file, w'.disk.lookup name = some file ∧ start <+: file := by
  cases c with
  | write other data =>
    rcases exec_write hexec with ⟨errno, -, -, rfl⟩ | ⟨n, -, -, -, rfl⟩
    · exact hstart
    · obtain ⟨file, hfile, hinit⟩ := hstart
      by_cases hname : name = other
      · subst hname
        exact ⟨_, Disk.lookup_append_self hfile, hinit.trans (List.prefix_append _ _)⟩
      · exact ⟨file, (Disk.lookup_append_ne hname).trans hfile, hinit⟩
  | fsync other => exact (exec_fsync hexec).1 ▸ hstart
  | _ => exact hc.elim

/-- `WriteFully` only appends. -/
theorem all_writeLoop (name : String) (fuel : Nat) (data : Bytes) :
    (DB.writeLoop name fuel data).All Call.Extends := by
  induction fuel generalizing data with
  | zero => cases data <;> trivial
  | succ fuel ih =>
    cases data with
    | nil => trivial
    | cons b data =>
      refine ⟨trivial, fun r => ?_⟩
      cases r with
      | error errno => trivial
      | ok n => exact ih _

/-- `AddRecord` after its first `write`. -/
def DB.addRecordRest (cfg : Config) (frame : Bytes) (r : Except String Nat) : DBE Unit := do
  DB.check (match r with
    | .error errno => return .error errno
    | .ok n => DB.writeLoop walName (frame.length - 1) (frame.drop n)) fun errno =>
      .ioError ("write " ++ cfg.path walName ++ ": " ++ errno)
  if cfg.options.sync then
    DB.check (DB.call (.fsync walName)) fun errno =>
      .ioError ("fsync " ++ cfg.path walName ++ ": " ++ errno)

/-- So does the rest of `AddRecord`. -/
theorem all_addRecordRest (cfg : Config) (frame : Bytes) (r : Except String Nat) :
    (DB.addRecordRest cfg frame r).run.All Call.Extends := by
  apply All.bindE
  · apply allE_check
    cases r with
    | error errno => trivial
    | ok n => exact all_writeLoop _ _ _
  intro _
  split
  · apply allE_check
    exact ⟨trivial, fun _ => trivial⟩
  · trivial

/-- What the log holds after the first `write` stays. -/
private theorem isPrefix_of_addRecordRest {frame start : Bytes} {res : Except String Nat}
    {r : Except Status Unit} (hlog : w.disk.lookup walName = some start)
    (hrun : Runs (exec .client) (fun _ _ _ => True) (DB.addRecordRest cfg frame res).run w r w') :
    start <+: w'.disk.log := by
  obtain ⟨log, hlog', hinit⟩ := hrun.keeps
    (I := fun w => ∃ log, w.disk.lookup walName = some log ∧ start <+: log)
    (fun c ch w r w' hc hexec hI => isPrefix_of_extends hc hexec hI)
    (all_addRecordRest _ _ _) ⟨start, hlog, List.prefix_rfl⟩
  rwa [log_eq hlog']

/-- The first calls of `AddRecord`: the log has to be open, and then the frame is written. -/
private theorem addRecord_calls (cfg : Config) (e : Entry) : (DB.addRecord cfg e).run =
    .call .loadWal fun
      | true => .call (.write walName (walFrame e)) fun r => (DB.addRecordRest cfg (walFrame e) r).run
      | false => .ret (.error (.ioError ("write " ++ cfg.path walName ++ ": " ++ ebadf))) := by
  -- the loop of `WriteFully` makes at least one call
  obtain ⟨b, data, hframe⟩ : ∃ b data, walFrame e = b :: data :=
    List.exists_cons_of_length_pos (by rw [length_walFrame]; omega)
  rw [DB.addRecord, hframe]
  apply congrArg (Prog.call Call.loadWal)
  funext isOpen
  cases isOpen with
  | false => rfl
  | true =>
    apply congrArg (Prog.call (Call.write walName (b :: data)))
    funext r
    cases r <;> rfl

/-- A call of `AddRecord` fails without a trace if and only if the log is not open or the first
    `write` fails. -/
private theorem addRecord_no_trace_iff {chs : List Choice} {r : Except Status Unit}
    (hlog : w.disk.lookup walName = some file)
    (hrun : (DB.addRecord cfg e).run.evalWith (exec .client) (fun _ _ _ => true) chs w =
      some (r, w')) :
    (r ≠ .ok () ∧ w'.disk.log = w.disk.log) ↔
      w.walOpen = false ∨ ∃ errno, chs[1]? = some (.fail errno) := by
  rw [addRecord_calls] at hrun
  cases chs with
  | nil => cases hrun
  | cons ch₀ chs =>
    change evalWith (exec .client) (fun _ _ _ => true) chs (match w.walOpen with
      | true => _
      | false => _) w = _ at hrun
    cases hopen : w.walOpen with
    | false =>
      rw [hopen] at hrun
      have hret := (evalWith_ret ..).symm.trans hrun
      cases hret
      simp
    | true =>
      rw [hopen] at hrun
      cases chs with
      | nil => cases hrun
      | cons ch₁ chs =>
        obtain ⟨⟨res, w₁⟩, hexec, hrest⟩ := Option.bind_eq_some_iff.mp hrun
        rcases exec_write hexec with ⟨errno, rfl, rfl, rfl⟩ | ⟨n, hn, hpos, rfl, rfl⟩
        -- the first write has failed
        · have hret := (evalWith_ret ..).symm.trans hrest
          cases hret
          simp
        · -- something is written, and stays
          have hne : 0 < n := hpos (List.ne_nil_of_length_pos (by rw [length_walFrame]; omega))
          have hinit := isPrefix_of_addRecordRest (Disk.lookup_append_self hlog)
            (Runs.of_evalWith (fun _ _ _ _ => trivial) hrest)
          have hchange : w'.disk.log ≠ w.disk.log := by
            intro hsame
            have hlength := hinit.length_le
            rw [hsame, log_eq hlog, List.length_append, List.length_take] at hlength
            omega
          have hch : ∀ errno, ch₁ ≠ .fail errno := by
            rintro errno rfl
            cases hexec
          simp [hchange, hch]

/-- No replay yields a record that is too large. Such a record is not lost if and only if the call
    of `AddRecord` failed before it wrote anything: the log was not open, or the first `write`
    failed. -/
theorem oversized_notLost_iff {chs : List Choice} {r : Except Status Unit}
    (hlog : w.disk.lookup walName = some file)
    (hsize : 2 ^ 32 ≤ 9 + e.key.length + e.value.length)
    (hrun : (DB.addRecord cfg e).run.evalWith (exec .client) (fun _ _ _ => true) chs w =
      some (r, w')) :
    Attempt.NotLost ⟨e, r, w.disk.log, w'.disk.log⟩ ↔
      w.walOpen = false ∨ ∃ errno, chs[1]? = some (.fail errno) := by
  rw [← addRecord_no_trace_iff hlog hrun, Attempt.NotLost, or_iff_left]
  intro hreplay
  have hmem : e ∈ walRecords (w'.disk.log ++ walFrames []) := by
    rw [hreplay [] (by simp)]
    simp
  have hfits : 9 + e.key.length + e.value.length < 2 ^ 32 := fits_of_mem_walRecords hmem
  omega

/-- On a full disk the record is refused and the log is as before. -/
theorem oversized_notLost_iff_full :
    ∃ (e : Entry) (r : Except Status Unit) (w' : World),
      2 ^ 32 ≤ 9 + e.key.length + e.value.length ∧
      (DB.addRecord exampleConfig e).run.evalWith (exec .client) (fun _ _ _ => true)
        [.ok, .fail "No space left on device"] emptyDatabase = some (r, w') ∧
      Attempt.NotLost ⟨e, r, emptyDatabase.disk.log, w'.disk.log⟩ := by
  obtain ⟨e, hsize⟩ := exists_oversized
  have hlog : emptyDatabase.disk.lookup walName = some [] := by decide +kernel
  have hopen : emptyDatabase.walOpen = true := by decide +kernel
  -- nothing is written
  obtain ⟨r, hrun⟩ : ∃ r, (DB.addRecord exampleConfig e).run.evalWith (exec .client)
      (fun _ _ _ => true) [.ok, .fail "No space left on device"] emptyDatabase =
        some (r, emptyDatabase) := by
    rw [addRecord_calls]
    show ∃ r, evalWith (exec .client) (fun _ _ _ => true) _ (match emptyDatabase.walOpen with
      | true => _
      | false => _) emptyDatabase = _
    rw [hopen]
    exact ⟨_, rfl⟩
  exact ⟨e, r, _, hsize.ge, hrun, (oversized_notLost_iff hlog hsize.ge hrun).mpr (.inr ⟨_, rfl⟩)⟩

/-- With an empty key and a value of `2 ^ 32 - 9` bytes, `AddRecord` returns `OK`, and a replay of
    the log yields neither the record nor any that is appended after it. -/
theorem oversized_append_lost :
    ∃ (e : Entry) (w' : World), 2 ^ 32 ≤ 9 + e.key.length + e.value.length ∧
      (DB.addRecord exampleConfig e).run.eval (exec .client) .ok emptyDatabase =
        some (.ok (), w') ∧
      ¬ Attempt.NotLost ⟨e, .ok (), emptyDatabase.disk.log, w'.disk.log⟩ ∧
      ∀ later, walRecords (w'.disk.log ++ walFrames later) = [] := by
  obtain ⟨e, hsize⟩ := exists_oversized
  have hlog : emptyDatabase.disk.lookup walName = some [] := by decide +kernel
  have hopen : emptyDatabase.walOpen = true := by decide +kernel
  have hlog' : (emptyDatabase.disk.append walName (walFrame e)).log = walFrame e := by
    rw [Disk.log, Disk.lookup_append_self hlog]
    rfl
  -- the length field has wrapped around to zero, so the replay stops here for good
  have hlost (later : List Entry) : walRecords (walFrame e ++ walFrames later) = [] :=
    walRecords_eq_of_stop (List.forall_mem_nil _) (replayStep_oversized hsize _)
  refine ⟨e, _, hsize.ge, eval_addRecord hopen, ?_, ?_⟩
  · rintro (⟨hresult, -⟩ | hreplay)
    · exact hresult rfl
    · have hnext := hreplay [] (List.forall_mem_nil _)
      simp only [hlog', hlost] at hnext
      simp at hnext
  · intro later
    rw [hlog', hlost]

end Lsmdb
