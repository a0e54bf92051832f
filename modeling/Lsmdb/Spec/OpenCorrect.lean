import Lsmdb.Spec.OpenReads
import Lsmdb.Spec.ThreadsServe

/-!
# Opening a database when reads fail

`Recover` of `Lsmdb.Native.Recovery` against the one of `Lsmdb.Native.DB`, whose reads
succeed. A read that fails is never taken for a smaller database (`failed_read_never_loses_data`),
and the system stays in a state that it reaches with reads that succeed
(`failed_reads_stay_in_system`).

That there is no undefined behaviour is said by `Prog.Live`, one lemma for each part of the
program. For the parts that parse the manifest the condition is about the whole manifest, of which
the part has only the beginning. One thing is not excluded for a manifest that the database has
not written: that it asks for more levels than there is memory for, which aborts the process.
-/

namespace Lsmdb.Recovery

open Prog

variable {cfg : Config} {α β : Type} {c : Call} {w w' : World} {ok : Call → Choice → World → Prop}
  {name : String}

/-! ## Parts -/

/-- A call that can be made. -/
theorem live_call {f : c.Res → RecE β} (hsome : (exec c (.base .ok) w).isSome)
    (hf : ∀ ch a w', exec c ch w = some (a, w') → (f a).run.Live exec (.base .ok) ok w') :
    ((call c : RecE c.Res) >>= f).run.Live exec (.base .ok) ok w :=
  ⟨hsome, fun ch a w' _ hexec => hf ch a w' hexec⟩

/-- A value that is defined. -/
theorem live_defined {x : Option α} {f : α → RecE β} (hx : x ≠ none)
    (hf : ∀ a, x = some a → (f a).run.Live exec (.base .ok) ok w) :
    (defined x >>= f).run.Live exec (.base .ok) ok w := by
  cases x with
  | none => exact absurd rfl hx
  | some a => exact hf a rfl

/-- What is parsed of the bytes read. -/
theorem live_parsed {x : Option (Except Status α)} {f : α → RecE β} (hx : x ≠ none)
    (hf : ∀ a, x = some (.ok a) → (f a).run.Live exec (.base .ok) ok w) :
    (parsed x >>= f).run.Live exec (.base .ok) ok w := by
  cases x with
  | none => exact absurd rfl hx
  | some r =>
    cases r with
    | error e => trivial
    | ok a => exact hf a rfl

/-- A call whose result is checked. -/
theorem live_check {p : RecM (Except String α)} {status : String → Status}
    (hp : p.Live exec (.base .ok) ok w) : (check p status).run.Live exec (.base .ok) ok w := by
  apply Live.bind hp
  intro a w' _
  cases a <;> trivial

/-- A program without errors of its own. -/
theorem live_liftM {p : RecM α} (hp : p.Live exec (.base .ok) ok w) :
    (liftM p : RecE α).run.Live exec (.base .ok) ok w :=
  Live.bind hp fun _ _ _ => trivial

/-- A part of the recovery that is shared with the model of the open database. -/
theorem live_liftE {p : DBE α}
    (hp : p.run.Live (Lsmdb.exec .client) .ok (fun _ _ _ => True) w) :
    (liftE p).run.Live exec (.base .ok) ok w := by
  refine Live.via ?_ ?_ hp
  · exact fun _ _ => id
  · intro b ch w r w' _ hexec
    cases ch with
    | names => cases hexec
    | base ch => exact ⟨ch, trivial, hexec⟩

/-- A single call of that part. -/
theorem live_dbCall {b : Lsmdb.Call} {f : b.Res → RecE β}
    (hsome : (Lsmdb.exec .client b .ok w).isSome)
    (hf : ∀ ch a w', Lsmdb.exec .client b ch w = some (a, w') →
      (f a).run.Live exec (.base .ok) ok w') :
    (liftE (DB.call b) >>= f).run.Live exec (.base .ok) ok w := by
  refine ⟨hsome, fun ch a w' _ hexec => ?_⟩
  cases ch with
  | names => cases hexec
  | base ch => exact hf ch a w' hexec

/-- The loop ends: every turn reads something. -/
theorem live_readLoop {size fuel : Nat} {got : Bytes} (hfuel : size ≤ got.length + fuel) :
    (readLoop name size fuel got).Live exec (.base .ok) ok w := by
  induction fuel generalizing got w with
  | zero =>
    rw [readLoop, if_neg (by omega)]
    trivial
  | succ fuel ih =>
    rw [readLoop]
    split
    · refine ⟨rfl, fun ch r w' _ _ => ?_⟩
      cases r with
      | error errno => trivial
      | ok data =>
        -- the end of the file ends the loop
        cases data with
        | nil => trivial
        | cons b data =>
          apply ih
          rw [List.length_append, List.length_cons]
          omega
    · trivial

/-! ## Tables -/

section Table

variable {ok : Lsmdb.Call → Lsmdb.Choice → World → Prop}

/-- A call of that part whose result is checked. -/
theorem live_dbCheck {p : DBM (Except String α)} {status : String → Status}
    (hp : p.Live (Lsmdb.exec .client) .ok ok w) :
    (DB.check p status).run.Live (Lsmdb.exec .client) .ok ok w := by
  apply Live.bind hp
  intro a w' _
  cases a <;> trivial

/-- Opening a table with calls that may fail is defined if it is defined with ones that do not. -/
theorem live_openReader {n : Nat} (h : DB.openTableAt cfg w.disk n ≠ none) :
    (DB.openReader cfg n).run.Live (Lsmdb.exec .client) .ok ok w := by
  rw [DB.openReader]
  apply Live.bindE
  · apply live_dbCheck
    refine ⟨?_, fun _ _ _ _ _ => trivial⟩
    simp only [Lsmdb.exec]
    split <;> rfl
  intro file w₁ hopen
  obtain ⟨a, hcall, ⟨x, rfl, hx⟩ | ⟨errno, -, hx⟩⟩ := runs_dbCheck hopen
  swap
  · cases hx
  cases hx
  obtain ⟨rfl, hfile⟩ := runs_openRead hcall
  apply Live.bindE
  · exact live_dbCheck ⟨rfl, fun _ _ _ _ _ => trivial⟩
  intro u w₂ hstat
  show Live _ _ _ (if _ then _ else _ : DBE SSTableReader).run _
  split
  · trivial
  apply Live.bindE
  · exact live_dbCheck ⟨rfl, fun _ _ _ _ _ => trivial⟩
  intro u w₃ hmap
  -- what is read of the mapped file is what `openTableAt` reads
  rw [DB.openTableAt, hfile file rfl] at h
  rcases hparse : SSTableReader.open (cfg.path (numberToName n)) file n with _ | e | reader
  · exact absurd hparse h
  · trivial
  · trivial

end Table

/-! ## The manifest -/

section Manifest

variable {p buf : Bytes} {n : Nat}

/-- Four bytes can be decoded. -/
theorem decodeFixed32_ne_none (h : 4 ≤ p.length) : decodeFixed32 p ≠ none :=
  Option.ne_none_iff_exists'.mpr (decodeFixed32_isSome h)

/-- Eight bytes can be decoded. -/
theorem decodeFixed64_ne_none (h : 8 ≤ p.length) : decodeFixed64 p ≠ none :=
  Option.ne_none_iff_exists'.mpr (decodeFixed64_isSome h)

/-- The lengths are checked before a key is read. -/
private theorem loadKey_ne_none (p : Bytes) (short short2 : String) : loadKey p short short2 ≠ none := by
  rw [loadKey]
  split
  · simp
  · obtain ⟨len, hlen⟩ := decodeFixed32_isSome (p := p) (by omega)
    simp only [hlen, Bind.bind, Option.bind]
    split
    · simp
    · rw [loadBytes, if_pos (by omega)]
      simp

/-- An entry of the manifest is read without leaving its buffer, if the whole file can be. -/
theorem live_loadFile (q : Bytes) (h : Lsmdb.loadFile (DB.openTableAt cfg w.disk) (p ++ q) ≠ none) :
    (loadFile cfg p).run.Live exec (.base .ok) ok w := by
  rw [loadFile]
  show Live _ _ _ (if p.length < 24 then _ else _ : RecE _).run _
  split
  · trivial
  next hlen =>
  apply live_defined (decodeFixed64_ne_none (by omega))
  intro number hnumber
  apply live_defined (decodeFixed64_ne_none (by rw [List.length_drop]; omega))
  intro fileSize hsize
  apply live_defined (decodeFixed64_ne_none (by rw [List.length_drop]; omega))
  intro numEntries hentries
  apply live_parsed (loadKey_ne_none _ _ _)
  intro smallest hsmallest
  apply live_parsed (loadKey_ne_none _ _ _)
  intro largest hlargest
  refine Live.bindE (live_liftE (live_openReader ?_)) fun _ _ _ => trivial
  -- the whole manifest names the same table here
  intro hopen
  apply h
  rw [loadFile_of_header hlen hnumber hsize hentries hsmallest hlargest, hopen]
  rfl

/-- So are the entries of a level. -/
theorem live_loadFiles (q : Bytes) (h : Lsmdb.loadFiles (DB.openTableAt cfg w.disk) n (p ++ q) ≠ none) :
    (loadFiles cfg n p).run.Live exec (.base .ok) ok w := by
  induction n generalizing p w with
  | zero => trivial
  | succ n ih =>
    apply Live.bindE
    · apply live_loadFile q
      intro hnone
      apply h
      simp only [Lsmdb.loadFiles, hnone, Bind.bind, Option.bind]
    rintro ⟨f, p₁⟩ w₁ hfile
    -- the whole manifest goes on with `p₁ ++ q`
    obtain ⟨rfl, hfirst⟩ := loadFile_append hfile q
    refine Live.bindE ?_ fun _ _ _ => trivial
    apply ih
    intro hnone
    apply h
    simp only [Lsmdb.loadFiles, hfirst, hnone, Bind.bind, Option.bind]

/-- So are the levels. -/
theorem live_loadLevels (q : Bytes) (h : Lsmdb.loadLevels (DB.openTableAt cfg w.disk) n (p ++ q) ≠ none) :
    (loadLevels cfg n p).run.Live exec (.base .ok) ok w := by
  induction n generalizing p w with
  | zero => trivial
  | succ n ih =>
    rw [loadLevels]
    show Live _ _ _ (if p.length < 4 then _ else _ : RecE _).run _
    split
    · trivial
    next hlen =>
    -- the buffer is the start of the file, so the checks on it pass on the file too
    have hlen' : ¬ (p ++ q).length < 4 := by
      rw [List.length_append]
      omega
    apply live_defined (decodeFixed32_ne_none (by omega))
    intro count hcount
    have hdrop : (p ++ q).drop 4 = p.drop 4 ++ q := List.drop_append_of_le_length (by omega)
    apply Live.bindE
    · apply live_loadFiles q
      intro hnone
      apply h
      simp only [Lsmdb.loadLevels, if_neg hlen', decodeFixed32_append hcount q, hdrop, hnone, Bind.bind,
        Option.bind]
    rintro ⟨files, p₁⟩ w₁ hfiles
    obtain ⟨rfl, hfirst⟩ := loadFiles_append hfiles q
    refine Live.bindE ?_ fun _ _ _ => trivial
    apply ih
    intro hnone
    apply h
    simp only [Lsmdb.loadLevels, if_neg hlen', decodeFixed32_append hcount q, hdrop, hfirst, hnone,
      Bind.bind, Option.bind]

/-- There is memory for the levels that the manifest asks for. -/
def Room (ok : Call → Choice → World → Prop) (w : World) : Prop :=
  ∀ numLevels ch w', decodeFixed32 ((fileAt w.disk manifestName).drop 8) = some numLevels →
    ok (.resize (max numLevels.toNat 1)) ch w →
    exec (.resize (max numLevels.toNat 1)) ch w ≠ some (false, w')

/-- What has been read of a manifest can be parsed if the whole can. -/
theorem live_parseManifest (q : Bytes) (hq : buf ++ q = fileAt w.disk manifestName) (hroom : Room ok w)
    (h : Lsmdb.loadManifest (DB.openTableAt cfg w.disk) (buf ++ q) ≠ none) :
    (parseManifest cfg buf).run.Live exec (.base .ok) ok w := by
  rw [parseManifest]
  show Live _ _ _ (if buf.length < 12 then _ else _ : RecE _).run _
  split
  · trivial
  next hlen =>
  have hlen' : ¬ (buf ++ q).length < 12 := by
    rw [List.length_append]
    omega
  apply live_defined (decodeFixed64_ne_none (by omega))
  intro nextFile hnext
  apply live_defined (decodeFixed32_ne_none (by rw [List.length_drop]; omega))
  intro numLevels hcount
  have hcount := decodeFixed32_append hcount q
  rw [← List.drop_append_of_le_length (by omega)] at hcount
  refine ⟨rfl, fun ch room w₁ hok hexec => ?_⟩
  obtain ⟨rfl, -⟩ := exec_resize hexec
  cases room with
  | false =>
    -- the allocation fails only if the manifest is too short for its levels
    rw [hq] at hcount
    exact absurd hexec (hroom numLevels ch _ hcount hok)
  | true =>
  apply live_defined (Option.some_ne_none _)
  intro _ _
  refine Live.bindE ?_ fun _ _ _ => trivial
  apply live_loadLevels q
  intro hnone
  apply h
  rw [← List.drop_append_of_le_length (by omega)] at hnone
  simp only [Lsmdb.loadManifest, if_neg hlen', decodeFixed64_append hnext q, hcount, hnone, Bind.bind,
    Option.bind]

/-- `LoadManifest` is defined if it is defined for reads that succeed. -/
theorem live_loadManifest (hroom : Room ok w) (h : DB.loadVersion cfg w.disk ≠ none) :
    (loadManifest cfg).run.Live exec (.base .ok) ok w := by
  apply live_call rfl
  intro ch a w₁ hexec
  obtain ⟨rfl, ⟨rfl, hmem⟩ | ⟨rfl, -⟩ | ⟨errno, rfl, -⟩⟩ := exec_openFile hexec
  · obtain ⟨file, hfile⟩ := Option.isSome_iff_exists.mp (AList.lookup_isSome.mpr hmem)
    have hat : fileAt w₁.disk manifestName = file := by
      rw [fileAt, hfile]
      rfl
    apply Live.bindE
    · exact live_check ⟨rfl, fun _ _ _ _ _ => trivial⟩
    intro size w₂ hstat
    obtain ⟨rfl, rfl⟩ := runs_size hstat
    apply Live.bindE
    · exact live_liftM (live_readLoop (by simp))
    rintro ⟨buf, err⟩ w₃ hloop
    -- `q` is what has not been read
    obtain ⟨rfl, ⟨q, hq⟩, -⟩ := runs_readFile (runs_liftM hloop)
    refine Live.bindE (live_parseManifest q hq hroom ?_) fun _ _ _ => trivial
    rw [hq, hat]
    intro hnone
    apply h
    simp only [DB.loadVersion, hfile, hnone, Bind.bind, Option.bind]
  · show Live _ _ _ (if enoent = enoent then _ else _ : RecE _).run _
    split <;> trivial
  · show Live _ _ _ (if errno = enoent then _ else _ : RecE _).run _
    split <;> trivial

end Manifest

/-! ## The log -/

/-- Reading the log is always defined. -/
theorem live_readLog : (readLog cfg).run.Live exec (.base .ok) ok w := by
  apply live_call rfl
  intro ch a w₁ hexec
  cases a with
  | error errno =>
    -- a missing log is no error
    show Live _ _ _ (if errno = enoent then _ else _ : RecE _).run _
    split <;> trivial
  | ok u =>
    -- the size is known, and the loop reads up to it
    apply Live.bindE
    · exact live_check ⟨rfl, fun _ _ _ _ _ => trivial⟩
    intro size w₂ hstat
    apply Live.bindE
    · exact live_liftM (live_readLoop (by simp))
    rintro ⟨buf, err⟩ w₃ hloop
    cases err <;> trivial

/-- So is opening it for appending. -/
theorem live_walOpen {ok : Lsmdb.Call → Lsmdb.Choice → World → Prop} :
    (DB.walOpen cfg).run.Live (Lsmdb.exec .client) .ok ok w := by
  apply Live.bindE
  · exact live_dbCheck ⟨rfl, fun _ _ _ _ _ => trivial⟩
  intro u w₁ _
  exact ⟨rfl, fun _ _ _ _ _ => trivial⟩

/-- So is removing the files that the version does not name. -/
theorem live_removeOrphanFiles {ok : Lsmdb.Call → Lsmdb.Choice → World → Prop} (v : Version)
    (names : List String) : (DB.removeOrphanFiles v names).Live (Lsmdb.exec .client) .ok ok w := by
  induction names generalizing w with
  | nil => trivial
  | cons name names ih =>
    rw [removeOrphanFiles_cons]
    cases orphanFile v name with
    | none => exact ih
    | some file => exact ⟨rfl, fun _ _ _ _ _ => ih⟩

/-! ## Recovery -/

/-- So is the part of the recovery behind the manifest. -/
theorem live_recoverLog {v : Version} (hmem : w.mem = SkipList.new cfg.rng) :
    (recoverLog cfg v).run.Live exec (.base .ok) ok w := by
  apply Live.bindE live_readLog
  intro buf w₁ hlog
  obtain ⟨rfl, rfl⟩ := runs_readLog hlog
  have hreplay := walReplay_eq w₁.disk.log
  apply live_defined (by simp [hreplay])
  rintro ⟨records, count⟩ hrecords
  apply live_dbCall rfl
  intro ch mem w₂ hexec
  cases hexec
  -- a record can always be put into the list
  obtain ⟨l, -, hl, -⟩ := holds_replay cfg.rng records
  rw [hmem]
  apply live_defined (by simp [hl])
  intro mem _
  apply live_dbCall rfl
  intro ch u w₃ hstore
  apply Live.bindE (live_liftE live_walOpen)
  intro u w₄ _
  apply live_call rfl
  intro ch names w₅ _
  exact live_liftE (Live.bind (live_removeOrphanFiles v names) fun _ _ _ => trivial)

/-- No read that fails leads to undefined behaviour, if there is none when all of them succeed. -/
theorem live_recover {disk : Disk} (hroom : Room ok (World.fresh cfg disk))
    (h : DB.loadVersion cfg disk ≠ none) :
    (recover cfg).run.Live exec (.base .ok) ok (World.fresh cfg disk) := by
  apply Live.bindE (live_loadManifest hroom h)
  intro loaded w₁ hload
  obtain ⟨rfl, -⟩ := runs_loadManifest hload
  cases loaded with
  -- a new database, or one with a manifest
  | none =>
    apply live_dbCall rfl
    intro ch u w₂ hcurrent
    cases hcurrent
    exact live_recoverLog rfl
  | some out =>
    apply live_dbCall rfl
    intro ch u w₂ hcurrent
    cases hcurrent
    apply live_dbCall rfl
    intro ch u w₃ hnumber
    cases hnumber
    exact live_recoverLog rfl

/-- The only call that fails is `unlink`, whose result nobody looks at. -/
def OnlyUnlinksFail (c : Lsmdb.Call) (ch : Lsmdb.Choice) (_ : World) : Prop :=
  ch = .ok ∨ ∃ file, c = .unlink file

/-- A recovery that has succeeded has done what it does when every read succeeds. -/
theorem runs_recover_of_ok {P : Lsmdb.Call → Lsmdb.Choice → World → Prop} {disk : Disk}
    (hok : ∀ c ch w, OnlyUnlinksFail c ch w → P c ch w)
    (h : Runs exec ok (recover cfg).run (World.fresh cfg disk) (.ok ()) w') :
    Runs (Lsmdb.exec .client) P (DB.recover cfg).run (World.fresh cfg disk) (.ok ()) w' := by
  rcases recover_cases h with ⟨e, he, -⟩ | ⟨-, loaded, next, mem, gone, hload, hfold, hgone, rfl⟩
  · cases he
  · exact runs_recover (fun c w => hok _ _ _ (.inl rfl)) (fun file w => hok _ _ _ (.inr ⟨file, rfl⟩))
      hload hfold hgone

/-- A recovery that is aborted, for whatever reason, has changed nothing in the directory. -/
private theorem crashes_recover {disk : Disk} (h : Crashes exec ok (recover cfg).run (World.fresh cfg disk) w') :
    w'.disk = disk := by
  -- the manifest is only read, and what follows it does not abort
  rcases Crashes.of_bind h with hmanifest | ⟨loaded, w₁, hmanifest, hrest⟩
  · have hkeep := hmanifest.keeps (I := (· = World.fresh cfg disk))
      (fun _ _ _ _ _ hc hexec hw => (exec_readOnly hc hexec).trans hw) (reads_loadManifest cfg).readOnly rfl
    rw [hkeep]
    rfl
  cases loaded with
  | error e => cases hrest
  | ok loaded =>
    -- behind the manifest nothing is aborted
    obtain ⟨rfl, -⟩ := runs_loadManifest hmanifest
    exfalso
    revert hrest
    cases loaded with
    | none =>
      refine Live.not_crashes (live_dbCall rfl ?_)
      intro ch u w₂ hcurrent
      cases hcurrent
      exact live_recoverLog rfl
    | some out =>
      refine Live.not_crashes (live_dbCall rfl ?_)
      intro ch u w₂ hcurrent
      cases hcurrent
      apply live_dbCall rfl
      intro ch u w₃ hnumber
      cases hnumber
      exact live_recoverLog rfl

/-- There is always memory for the levels. -/
def AllocationsSucceed : Call → Choice → World → Prop
  | .resize _, .base (.fail _), _ => False
  | _, _, _ => True

/-- A policy under which no allocation fails. -/
private theorem room_allocationsSucceed (w : World) : Room AllocationsSucceed w := by
  intro numLevels ch w' _ hok hexec
  cases ch with
  | names => cases hexec
  | base ch =>
    cases ch with
    | fail errno => exact hok
    | ok | short | inputs => cases hexec

/-- A read that fails is never taken for a smaller database. Whatever the directory holds, and
    whichever of the calls of `Recover` fail or return less than they were asked for: if `Recover`
    reports an error then the directory is as it was, and if it succeeds then it has done what it
    does when every read succeeds. If the process is aborted then the directory is as it was, and
    with memory for the levels that happens only where it happens when every read succeeds. -/
theorem failed_read_never_loses_data (cfg : Config) (disk : Disk) :
    (DB.loadVersion cfg disk ≠ none → (recover cfg).run.Live exec (.base .ok) AllocationsSucceed
      (World.fresh cfg disk)) ∧
    (∀ w', Crashes exec (fun _ _ _ => True) (recover cfg).run (World.fresh cfg disk) w' →
      w'.disk = disk) ∧
    ∀ r w', Runs exec (fun _ _ _ => True) (recover cfg).run (World.fresh cfg disk) r w' →
      (∃ e, r = .error e ∧ e.ok = false ∧ w'.disk = disk) ∨
      r = .ok () ∧ Runs (Lsmdb.exec .client) OnlyUnlinksFail (DB.recover cfg).run (World.fresh cfg disk)
        (.ok ()) w' := by
  refine ⟨live_recover (room_allocationsSucceed _), fun _ => crashes_recover, fun r w' h => ?_⟩
  rcases recover_cases h with herror | ⟨rfl, -⟩
  · exact .inl herror
  · exact .inr ⟨rfl, runs_recover_of_ok (fun _ _ _ => id) h⟩

/-- The outcome of a recovery, with the given choices for its calls. -/
def recoverWith (disk : Disk) (chs : List Choice) : Option (Except Status Unit × World) :=
  (recover exampleConfig).run.evalWith exec (fun _ _ _ => true) chs (World.fresh exampleConfig disk)

/-- The evaluator follows a run of the recovery. -/
theorem runs_recoverWith {disk : Disk} {chs : List Choice} {r : Except Status Unit}
    (h : recoverWith disk chs = some (r, w')) :
    Runs exec (fun _ _ _ => True) (recover exampleConfig).run (World.fresh exampleConfig disk) r w' :=
  Runs.of_evalWith (fun _ _ _ _ => trivial) h

/-- A manifest without levels, and a byte that nobody reads. -/
def manifestWithTail : Disk :=
  (∅ : Disk).insert manifestName (putFixed64 5 ++ putFixed32 0 ++ [7])

/-- A manifest of twelve bytes that asks for `2 ^ 32 - 1` levels. -/
def hugeManifest : Disk :=
  (∅ : Disk).insert manifestName (putFixed64 5 ++ putFixed32 0xffffffff)

/-- The read of the last byte of the manifest fails, and the database is opened as if it had not.
    There is no memory for the levels that another manifest asks for, and it is still there when
    the process has been aborted. -/
theorem failed_read_never_loses_data_tail :
    (∃ w', Runs exec (fun _ _ _ => True) (recover exampleConfig).run
        (World.fresh exampleConfig manifestWithTail) (.ok ()) w' ∧
      Runs (Lsmdb.exec .client) OnlyUnlinksFail (DB.recover exampleConfig).run
        (World.fresh exampleConfig manifestWithTail) (.ok ()) w') ∧
      ∃ w', Crashes exec (fun _ _ _ => True) (recover exampleConfig).run
        (World.fresh exampleConfig hugeManifest) w' ∧ w'.disk = hugeManifest := by
  constructor
  swap
  · have hcrash : Crashes exec (fun _ _ _ => True) (recover exampleConfig).run
        (World.fresh exampleConfig hugeManifest) (World.fresh exampleConfig hugeManifest) := by
      -- `open`, `fstat`, `read` and the failing `resize`
      refine .call trivial (show exec _ (.base .ok) _ = some _ from rfl) ?_
      refine .call trivial (show exec _ (.base .ok) _ = some _ from rfl) ?_
      refine .call trivial (show exec _ (.base .ok) _ = some _ from rfl) ?_
      refine .call trivial (show exec _ (.base (.fail "ENOMEM")) _ = some _ from rfl) ?_
      exact .undef _
    exact ⟨_, hcrash, (failed_read_never_loses_data exampleConfig hugeManifest).2.1 _ hcrash⟩
  have hopens : (recoverWith manifestWithTail ([.base .ok, .base .ok, .base (.short 12),
      .base (.fail "EIO")] ++ List.replicate 9 (.base .ok))).any (fun out => out.1.isOk) = true := by
    decide +kernel
  obtain ⟨⟨r, w'⟩, heval, htest⟩ := Option.any_eq_true _ _ |>.mp hopens
  have hruns := runs_recoverWith heval
  rcases (failed_read_never_loses_data exampleConfig manifestWithTail).2.2 r w' hruns with
    ⟨e, rfl, -⟩ | ⟨rfl, hsame⟩
  · cases htest
  · exact ⟨w', hruns, hsame⟩

/-! ## The system -/

/-- A recovery as steps of the system. -/
private theorem reachable_opening {pol : Policy} {s : Sync.System} {p : DBM (Except Status Unit)}
    {r : Except Status Unit}
    (hruns : Runs (Lsmdb.exec .client) (fun c ch _ => c.MayFail pol.faults pol.logFaults ch) p w r w')
    (h : Sync.Reachable pol { s with world := { toWorld := w }, process := .opening cfg p }) :
    Sync.Reachable pol { s with world := { toWorld := w' }, process := .opening cfg (.ret r) } := by
  induction hruns with
  | ret a w => exact h
  | @call c k ch w w₁ w₂ a r hok hexec _ ih =>
    refine ih (h.tail ⟨.openStep ch, hok, ?_⟩)
    rw [Sync.System.next]
    dsimp only
    rw [Prog.step, hexec]
    rfl

/-- A manifest of the database has more bytes than levels. -/
private theorem room_of_stored {g : Ghost} {disk : Disk} (h : Stored g disk) (cfg : Config) :
    Room ok (World.fresh cfg disk) := by
  intro numLevels ch w' hcount _ hexec
  -- the count of levels is one that the manifest has the bytes for
  have hshort := (exec_resize hexec).2 rfl
  rcases h.manifest with hmanifest | ⟨hnone, -⟩
  · have hat : fileAt (World.fresh cfg disk).disk manifestName = manifestBytes g.savedNext g.saved := by
      show (disk.lookup manifestName).getD [] = _
      rw [hmanifest]
      rfl
    rw [hat] at hcount hshort
    have hlevels := levels_le_length_manifestBytes g.savedNext g.saved
    rw [drop_manifestBytes, decodeFixed32_putFixed32] at hcount
    cases hcount
    rw [toNat_toUInt32_of_lt h.fits.levels] at hshort
    omega
  · have hat : fileAt (World.fresh cfg disk).disk manifestName = [] := by
      show (disk.lookup manifestName).getD [] = _
      rw [hnone]
      rfl
    rw [hat] at hcount
    cases hcount

/-- Reads that fail while the database is opened do no harm. From every state that the system
    reaches, with the process ended or killed at any moment before, `Recover` has no undefined
    behaviour however its reads fail; it reports an error and leaves the directory as it was, or the
    database is open, in a state that the system reaches with reads that succeed. -/
theorem failed_reads_stay_in_system {pol : Policy} {s : Sync.System} (h : Sync.Reachable pol s)
    (hdown : s.process = .down) (hfaults : pol.faults = true)
    (hpermits : Sync.Permits pol s (.open cfg)) :
    (recover cfg).run.Live exec (.base .ok) (fun _ _ _ => True) (World.fresh cfg s.world.disk) ∧
    ∀ r w', Runs exec (fun _ _ _ => True) (recover cfg).run (World.fresh cfg s.world.disk) r w' →
      (∃ e, r = .error e ∧ e.ok = false ∧ w'.disk = s.world.disk) ∨
      r = .ok () ∧ Sync.Reachable pol { s with
        world := { toWorld := w' }
        process := .up cfg .idle (.looking (Sync.look cfg false)) } := by
  constructor
  · -- a directory that the system has left behind has a manifest that can be loaded
    obtain ⟨t, ht, hrefines⟩ := Sync.Refines.of_reachable h
    obtain ⟨g, hg⟩ := SysInv.of_reachable ht
    have hstored := hg.stored
    rw [hrefines.disk] at hstored
    apply live_recover (room_of_stored hstored cfg)
    obtain ⟨loaded, hload, -⟩ := hstored.loadVersion cfg
    rw [hload]
    exact Option.some_ne_none _
  · intro r w' hruns
    rcases recover_cases hruns with herror | ⟨rfl, -⟩
    · exact .inl herror
    refine .inr ⟨rfl, ?_⟩
    -- the system allows the failures of `unlink`
    have hmay (c : Lsmdb.Call) (ch : Lsmdb.Choice) (w : World) (hc : OnlyUnlinksFail c ch w) :
        c.MayFail pol.faults pol.logFaults ch := by
      rcases hc with rfl | ⟨file, rfl⟩
      · exact Call.mayFail_ok _ _ c
      · cases ch with
        | fail errno => exact hfaults
        | ok | short | inputs => trivial
    have hrecover := runs_recover_of_ok hmay hruns
    have hopen : Sync.Reachable pol { s with
        world := { toWorld := World.fresh cfg s.world.disk }
        process := .opening cfg (DB.recover cfg).run } := by
      refine h.tail ⟨.open cfg, hpermits, ?_⟩
      rw [Sync.System.next, hdown]
    exact (reachable_opening hrecover hopen).tail ⟨.openReturn, trivial, rfl⟩

/-- A key has been written and flushed, and the process has been killed. -/
def flushedAndKilled : List Sync.Event :=
  Sync.Event.opening exampleConfig 8 ++ Sync.Event.calling (.put [1] [2]) 5 ++
    Sync.Event.calling .flush 28 ++ [.kill]

def isDown : Sync.Process → Bool
  | .down => true
  | .opening _ _ | .up _ _ _ => false

/-- The test for a process that is not running. -/
private theorem eq_of_isDown {p : Sync.Process} (h : isDown p = true) : p = .down := by
  cases p with
  | down => rfl
  | opening => cases h
  | up => cases h

def isCorruption : Except Status Unit → Bool
  | .error e => e.isCorruption
  | .ok () => false

/-- The manifest is read in two parts. When the second read fails the database is not opened and
    nothing is lost, and when it succeeds the database is opened with its table. -/
theorem failed_reads_stay_in_system_shortManifest :
    let s := Sync.reach .any flushedAndKilled
    (∃ e w', Runs exec (fun _ _ _ => True) (recover exampleConfig).run
        (World.fresh exampleConfig s.world.disk) (.error e) w' ∧ e.isCorruption = true ∧
        w'.disk = s.world.disk) ∧
      ∃ w', w'.current.files.map (·.number) = [1] ∧ Sync.Reachable .any { s with
        world := { toWorld := w' }
        process := .up exampleConfig .idle (.looking (Sync.look exampleConfig false)) } := by
  intro s
  have hdown : s.process = .down := eq_of_isDown (by decide +kernel)
  have hmain := (failed_reads_stay_in_system (Sync.reachable_reach .any flushedAndKilled) hdown rfl
    (show Sync.Permits .any s (.open exampleConfig) from ⟨by decide, .inl rfl⟩)).2
  constructor
  -- the read is cut short at twelve bytes and then fails
  · have hfails : (recoverWith s.world.disk [.base .ok, .base .ok, .base (.short 12),
        .base (.fail "EIO"), .base .ok]).any (fun out => isCorruption out.1) = true := by decide +kernel
    obtain ⟨⟨r, w'⟩, heval, htest⟩ := Option.any_eq_true _ _ |>.mp hfails
    rcases hmain r w' (runs_recoverWith heval) with ⟨e, rfl, -, hdisk⟩ | ⟨rfl, -⟩
    · exact ⟨e, w', runs_recoverWith heval, htest, hdisk⟩
    · cases htest
  -- the read is cut short and goes on
  · have hopens : (recoverWith s.world.disk ([.base .ok, .base .ok, .base (.short 12)] ++
        List.replicate 15 (.base .ok))).any (fun out => out.1.isOk &&
          decide (out.2.current.files.map (·.number) = [1])) = true := by decide +kernel
    obtain ⟨⟨r, w'⟩, heval, htest⟩ := Option.any_eq_true _ _ |>.mp hopens
    obtain ⟨hok, hnumbers⟩ := Bool.and_eq_true_iff.mp htest
    rcases hmain r w' (runs_recoverWith heval) with ⟨e, rfl, -⟩ | ⟨-, hreachable⟩
    · cases hok
    · exact ⟨w', of_decide_eq_true hnumbers, hreachable⟩

end Lsmdb.Recovery
