import Lsmdb.Native.Recovery
import Lsmdb.Spec.RecoverCorrect
import Lsmdb.Spec.ReplyCorrect

/-!
# What a recovery with failing reads does

The outcomes of `Recover` of `Lsmdb.Native.Recovery`: an error and the directory as it was,
or what the files of the directory say (`recover_cases`). The manifest is where this could go
wrong, since a read that fails looks like the end of the file there. But what has been read of
it is rejected, or says all that the whole manifest says (`loadManifest_append`).
-/

namespace Lsmdb.Recovery

open Prog

variable {cfg : Config} {α β : Type} {c : Call} {ch : Choice} {r : c.Res} {w w' : World}
  {ok : Call → Choice → World → Prop} {name : String}

/-! ## Calls -/

/-- The calls that change nothing. -/
def ReadOnly : Call → Prop
  | .openFile _ | .fstat _ | .read _ _ _ | .resize _ | .listDir => True
  | .base (.openRead _) | .base (.fstat _) | .base (.mmap _) => True
  | .base _ => False

/-- `open` for reading finds the file, reports that there is none, or fails for another reason. -/
theorem exec_openFile {r : Except String Unit} (h : exec (.openFile name) ch w = some (r, w')) :
    w' = w ∧ (r = .ok () ∧ name ∈ w.disk ∨ r = .error enoent ∧ name ∉ w.disk ∨
      ∃ errno, r = .error errno ∧ errno ≠ enoent) := by
  -- the choices that do not make the call fail
  have hopens (h : some (if name ∈ w.disk then Except.ok () else .error enoent, w) = some (r, w')) :
      w' = w ∧ (r = .ok () ∧ name ∈ w.disk ∨ r = .error enoent ∧ name ∉ w.disk ∨
        ∃ errno, r = .error errno ∧ errno ≠ enoent) := by
    cases h
    refine ⟨rfl, ?_⟩
    split
    next hmem => exact .inl ⟨rfl, hmem⟩
    next hmem => exact .inr (.inl ⟨rfl, hmem⟩)
  cases ch with
  | names => exact hopens h
  | base ch =>
    cases ch with
    | fail errno =>
      -- a failure is another error than a missing file
      simp only [exec] at h
      split at h
      next => cases h
      next hne => cases h; exact ⟨rfl, .inr (.inr ⟨errno, rfl, hne⟩)⟩
    | ok | short | inputs => exact hopens h

/-- `fstat` fails or returns the size of the file. -/
theorem exec_fstat {r : Except String Nat} (h : exec (.fstat name) ch w = some (r, w')) :
    w' = w ∧ ((∃ errno, r = .error errno) ∨ r = .ok (fileAt w.disk name).length) := by
  cases ch with
  | names => cases h; exact ⟨rfl, .inr rfl⟩
  | base ch => cases ch <;> cases h <;> first | exact ⟨rfl, .inl ⟨_, rfl⟩⟩ | exact ⟨rfl, .inr rfl⟩

/-- A `read` that does not fail returns a part of what is there, and something if there is any. -/
theorem exec_read {off len : Nat} {r : Except String Bytes}
    (h : exec (.read name off len) ch w = some (r, w')) :
    w' = w ∧ ((∃ errno, r = .error errno) ∨
      ∃ n ≤ len, (0 < len → 0 < n) ∧ r = .ok (((fileAt w.disk name).drop off).take n)) := by
  cases ch with
  | names => cases h; exact ⟨rfl, .inr ⟨len, le_rfl, id, rfl⟩⟩
  | base ch =>
    cases ch with
    | fail errno => cases h; exact ⟨rfl, .inl ⟨errno, rfl⟩⟩
    | short n =>
      simp only [exec] at h
      split at h
      next hn =>
        cases h
        -- a short read returns at least one byte
        have hle : n ≤ len := hn.2.trans (List.length_take_le _ _)
        refine ⟨rfl, .inr ⟨n, hle, fun _ => hn.1, ?_⟩⟩
        rw [List.take_take, min_eq_left hle]
      next => cases h
    | ok | inputs => cases h; exact ⟨rfl, .inr ⟨len, le_rfl, id, rfl⟩⟩

/-- `readdir` returns some of the names in the directory. -/
theorem exec_listDir {r : List String} (h : exec .listDir ch w = some (r, w')) :
    w' = w ∧ r ⊆ w.disk.keys := by
  cases ch with
  | names names =>
    simp only [exec] at h
    split at h
    next hsub => cases h; exact ⟨rfl, hsub⟩
    next => cases h
  | base ch =>
    cases ch with
    | fail errno => cases h; exact ⟨rfl, List.nil_subset _⟩
    | ok | short | inputs => cases h; exact ⟨rfl, List.Subset.refl _⟩

/-- Memory is only short for more levels than the manifest has bytes. -/
theorem exec_resize {n : Nat} {r : Bool} (h : exec (.resize n) ch w = some (r, w')) :
    w' = w ∧ (r = false → (fileAt w.disk manifestName).length < n) := by
  cases ch with
  | names => cases h; exact ⟨rfl, fun hr => by cases hr⟩
  | base ch =>
    cases ch with
    | fail errno =>
      simp only [exec] at h
      split at h
      next => cases h
      next hn => cases h; exact ⟨rfl, fun _ => not_le.mp hn⟩
    | ok | short | inputs => cases h; exact ⟨rfl, fun hr => by cases hr⟩

/-- A call that only reads leaves the world as it is. -/
theorem exec_readOnly (hc : ReadOnly c) (h : exec c ch w = some (r, w')) : w' = w := by
  cases c with
  | openFile => exact (exec_openFile h).1
  | fstat => exact (exec_fstat h).1
  | read => exact (exec_read h).1
  | resize => exact (exec_resize h).1
  | listDir => exact (exec_listDir h).1
  -- of the calls of the database only those that open a table
  | base b =>
    cases ch with
    | names => cases h
    | base ch =>
      cases b with
      | openRead name =>
        cases ch with
        | fail errno => cases h; rfl
        | ok | short | inputs =>
          simp only [exec, Lsmdb.exec] at h
          split at h <;> cases h <;> rfl
      | fstat | mmap => cases ch <;> cases h <;> rfl
      | _ => exact hc.elim

/-- A part that changes nothing. -/
theorem runs_readOnly {p : RecM α} {a : α} (h : Runs exec ok p w a w') (hp : p.All ReadOnly) : w' = w :=
  h.keeps (I := (· = w)) (fun _ _ _ _ _ hc hexec hw => (exec_readOnly hc hexec).trans hw) hp rfl

/-! ## Parts -/

/-- A run through a value that is computed. -/
theorem runs_defined {x : Option α} {f : α → RecE β} {r : Except Status β}
    (h : Runs exec ok (defined x >>= f).run w r w') : ∃ a, x = some a ∧ Runs exec ok (f a).run w r w' := by
  cases x with
  | none => cases h
  | some a => exact ⟨a, rfl, h⟩

/-- Two parts of which the second has come to a result. -/
theorem runs_bind_ok {p : RecE α} {f : α → RecE β} {b : β} (h : Runs exec ok (p >>= f).run w (.ok b) w') :
    ∃ a w₁, Runs exec ok p.run w (.ok a) w₁ ∧ Runs exec ok (f a).run w₁ (.ok b) w' := by
  rcases Runs.of_bindE h with ⟨e, he, -⟩ | hok
  · cases he
  · exact hok

/-- A successful run through what is parsed. -/
theorem runs_parsed {x : Option (Except Status α)} {f : α → RecE β} {b : β}
    (h : Runs exec ok (parsed x >>= f).run w (.ok b) w') :
    ∃ a, x = some (.ok a) ∧ Runs exec ok (f a).run w (.ok b) w' := by
  obtain ⟨a, w₁, hx, hf⟩ := runs_bind_ok h
  cases x with
  | none => cases hx
  | some r =>
    cases hx
    exact ⟨a, rfl, hf⟩

/-- A run of a single call. -/
theorem runs_call {a : c.Res} (h : Runs exec ok (call c : RecM c.Res) w a w') :
    ∃ ch, exec c ch w = some (a, w') := by
  cases h with
  | call hok hexec hrest =>
    cases hrest
    exact ⟨_, hexec⟩

/-- A run of a single call that cannot fail by itself. -/
theorem runs_callE {r : Except Status c.Res} (h : Runs exec ok (call c : RecE c.Res).run w r w') :
    ∃ ch a, r = .ok a ∧ exec c ch w = some (a, w') := by
  cases h with
  | call hok hexec hrest =>
    cases hrest
    exact ⟨_, _, rfl, hexec⟩

/-- A run of a program without errors of its own. -/
theorem runs_liftM {p : RecM α} {a : α} (h : Runs exec ok (liftM p : RecE α).run w (.ok a) w') :
    Runs exec ok p w a w' := by
  obtain ⟨b, w₁, hp, hret⟩ := Runs.of_bind h
  cases hret
  exact hp

/-- A run of a call whose result is checked. -/
theorem runs_check {p : RecM (Except String α)} {status : String → Status} {r : Except Status α}
    (h : Runs exec ok (check p status).run w r w') :
    ∃ a, Runs exec ok p w a w' ∧
      ((∃ x, a = .ok x ∧ r = .ok x) ∨ ∃ errno, a = .error errno ∧ r = .error (status errno)) := by
  obtain ⟨a, w₁, hp, hrest⟩ := Runs.of_bind h
  cases a with
  | ok x => cases hrest; exact ⟨_, hp, .inl ⟨x, rfl, rfl⟩⟩
  | error errno => cases hrest; exact ⟨_, hp, .inr ⟨errno, rfl, rfl⟩⟩

/-- The outcomes of a part that works as in `Lsmdb.Native.DB`. -/
theorem runs_liftE {p : DBE α} {r : Except Status α} (h : Runs exec ok (liftE p).run w r w') :
    Runs (Lsmdb.exec .client) (fun _ _ _ => True) p.run w r w' := by
  refine Runs.of_via (fun b ch w r w' _ hexec => ?_) h
  cases ch with
  | names => cases hexec
  | base ch => exact ⟨ch, trivial, hexec⟩

/-- A run through a call of the part shared with the model of the open database. -/
theorem runs_dbCallE {b : Lsmdb.Call} {f : b.Res → RecE β} {r : Except Status β}
    (h : Runs exec ok (liftE (DB.call b) >>= f).run w r w') :
    ∃ ch a w₁, Lsmdb.exec .client b ch w = some (a, w₁) ∧ Runs exec ok (f a).run w₁ r w' := by
  cases h with
  | @call _ _ ch _ _ _ a _ hok hexec hrest =>
    cases ch with
    | names => cases hexec
    | base ch => exact ⟨ch, a, _, hexec, hrest⟩

/-- `fstat` returns the size of the file. -/
theorem runs_size {status : String → Status} {size : Nat}
    (h : Runs exec ok (check (call (.fstat name)) status).run w (.ok size) w') :
    w' = w ∧ size = (fileAt w.disk name).length := by
  obtain ⟨a, hcall, ⟨x, rfl, hx⟩ | ⟨errno, -, hx⟩⟩ := runs_check h
  swap
  · cases hx
  cases hx
  obtain ⟨ch, hexec⟩ := runs_call hcall
  obtain ⟨rfl, ⟨errno, herr⟩ | hsize⟩ := exec_fstat hexec
  · cases herr
  · cases hsize
    exact ⟨rfl, rfl⟩

/-! ## The loop around `read` -/

/-- What has been read is the beginning of the file, and all of it if no `read` has failed. -/
theorem runs_readLoop {fuel : Nat} {got buf : Bytes} {err : Option String}
    (h : Runs exec ok (readLoop name (fileAt w.disk name).length fuel got) w (buf, err) w')
    (hgot : got <+: fileAt w.disk name) :
    w' = w ∧ buf <+: fileAt w.disk name ∧ (err = none → buf = fileAt w.disk name) := by
  -- at the end of the file there is nothing left to read
  have hend {got : Bytes} (hgot : got <+: fileAt w.disk name)
      (hlen : ¬ got.length < (fileAt w.disk name).length) : got = fileAt w.disk name :=
    hgot.eq_of_length (le_antisymm hgot.length_le (not_lt.mp hlen))
  induction fuel generalizing got with
  | zero =>
    rw [readLoop] at h
    split at h
    next => cases h
    next hlen =>
      cases h
      exact ⟨rfl, hgot, fun _ => hend hgot hlen⟩
  | succ fuel ih =>
    rw [readLoop] at h
    split at h
    next hlen =>
      obtain ⟨a, w₁, hread, hrest⟩ := Runs.of_bind h
      obtain ⟨ch, hexec⟩ := runs_call hread
      obtain ⟨rfl, ⟨errno, rfl⟩ | ⟨n, -, hpos, rfl⟩⟩ := exec_read hexec
      -- a `read` that fails ends the loop with what it has got
      · cases hrest
        exact ⟨rfl, hgot, fun herr => by cases herr⟩
      · have hmore : got ++ ((fileAt w₁.disk name).drop got.length).take n <+: fileAt w₁.disk name := by
          obtain ⟨rest, hrest⟩ := hgot
          rw [← hrest, List.drop_left, List.prefix_append_right_inj]
          exact List.take_prefix n rest
        cases hdata : ((fileAt w₁.disk name).drop got.length).take n with
        | nil =>
          -- this does not happen: there is something to read
          exfalso
          have hn := hpos (by omega)
          have hlength := congrArg List.length hdata
          rw [List.length_take, List.length_drop, List.length_nil] at hlength
          omega
        | cons b data =>
          rw [hdata] at hrest hmore
          exact ih hrest hmore
    next hlen =>
      cases h
      exact ⟨rfl, hgot, fun _ => hend hgot hlen⟩

/-- The loop reads the start of the file, and all of it if it does not fail. -/
theorem runs_readFile {buf : Bytes} {err : Option String}
    (h : Runs exec ok (readFile name (fileAt w.disk name).length) w (buf, err) w') :
    w' = w ∧ buf <+: fileAt w.disk name ∧ (err = none → buf = fileAt w.disk name) :=
  runs_readLoop h (List.nil_prefix)

/-! ## Tables -/

/-- A run of a call of the shared part whose result is checked. -/
theorem runs_dbCheck {p : DBM (Except String α)} {status : String → Status} {r : Except Status α}
    {ok : Lsmdb.Call → Lsmdb.Choice → World → Prop}
    (h : Runs (Lsmdb.exec .client) ok (DB.check p status).run w r w') :
    ∃ a, Runs (Lsmdb.exec .client) ok p w a w' ∧
      ((∃ x, a = .ok x ∧ r = .ok x) ∨ ∃ errno, a = .error errno ∧ r = .error (status errno)) := by
  obtain ⟨a, w₁, hp, hrest⟩ := Runs.of_bind h
  cases a with
  | ok x => cases hrest; exact ⟨_, hp, .inl ⟨x, rfl, rfl⟩⟩
  | error errno => cases hrest; exact ⟨_, hp, .inr ⟨errno, rfl, rfl⟩⟩

/-- A run of a call of the shared part. -/
theorem runs_dbCall {b : Lsmdb.Call} {a : b.Res} {ok : Lsmdb.Call → Lsmdb.Choice → World → Prop}
    (h : Runs (Lsmdb.exec .client) ok (DB.call b : DBM b.Res) w a w') :
    ∃ ch, Lsmdb.exec .client b ch w = some (a, w') := by
  cases h with
  | call hok hexec hrest =>
    cases hrest
    exact ⟨_, hexec⟩

/-- The file that is opened is the one in the directory. -/
theorem runs_openRead {ok : Lsmdb.Call → Lsmdb.Choice → World → Prop} {r : Except String Bytes}
    (h : Runs (Lsmdb.exec .client) ok (DB.call (.openRead name) : DBM _) w r w') :
    w' = w ∧ ∀ file, r = .ok file → w.disk.lookup name = some file := by
  obtain ⟨ch, hexec⟩ := runs_dbCall h
  cases ch with
  | fail errno =>
    cases hexec
    exact ⟨rfl, fun file hfile => by cases hfile⟩
  | ok | short | inputs =>
    -- the file may be missing
    simp only [Lsmdb.exec] at hexec
    split at hexec
    next file hfile =>
      cases hexec
      refine ⟨rfl, fun file' heq => ?_⟩
      cases heq
      exact hfile
    next =>
      cases hexec
      exact ⟨rfl, fun file hfile => by cases hfile⟩

/-- A table that is opened is the one in the directory. -/
theorem runs_openReader {n : Nat} {r : Except Status SSTableReader}
    {ok : Lsmdb.Call → Lsmdb.Choice → World → Prop}
    (h : Runs (Lsmdb.exec .client) ok (DB.openReader cfg n).run w r w') :
    w' = w ∧ ∀ reader, r = .ok reader → DB.openTableAt cfg w.disk n = some (.ok reader) := by
  -- an error returns no reader
  have herror {e : Status} (reader : SSTableReader) (hr : Except.error e = Except.ok reader) :
      DB.openTableAt cfg w.disk n = some (.ok reader) := by cases hr
  -- `open`
  rcases Runs.of_bindE h with ⟨e, rfl, hp⟩ | ⟨file, w₁, hp, hrest⟩
  · obtain ⟨a, hcall, -⟩ := runs_dbCheck hp
    exact ⟨(runs_openRead hcall).1, herror⟩
  obtain ⟨a, hcall, ⟨x, rfl, hx⟩ | ⟨errno, -, hx⟩⟩ := runs_dbCheck hp
  swap
  · cases hx
  cases hx
  obtain ⟨rfl, hfile⟩ := runs_openRead hcall
  have hfile := hfile file rfl
  clear h hp hcall
  -- `fstat`
  rcases Runs.of_bindE hrest with ⟨e, rfl, hp⟩ | ⟨u, w₂, hp, h⟩
  · obtain ⟨a, hcall, -⟩ := runs_dbCheck hp
    obtain ⟨ch, hexec⟩ := runs_dbCall hcall
    exact ⟨(Lsmdb.exec_fstat hexec).1, herror⟩
  obtain ⟨a, hcall, -⟩ := runs_dbCheck hp
  obtain ⟨ch, hexec⟩ := runs_dbCall hcall
  obtain ⟨rfl, -⟩ := Lsmdb.exec_fstat hexec
  clear hrest hp hcall hexec
  change Runs _ _ (if _ then _ else _ : DBE SSTableReader).run _ _ _ at h
  split at h
  · cases h
    exact ⟨rfl, herror⟩
  -- `mmap`
  rcases Runs.of_bindE h with ⟨e, rfl, hp⟩ | ⟨u, w₃, hp, hrest⟩
  · obtain ⟨a, hcall, -⟩ := runs_dbCheck hp
    obtain ⟨ch, hexec⟩ := runs_dbCall hcall
    exact ⟨(exec_mmap hexec).1, herror⟩
  obtain ⟨a, hcall, -⟩ := runs_dbCheck hp
  obtain ⟨ch, hexec⟩ := runs_dbCall hcall
  obtain ⟨rfl, -⟩ := exec_mmap hexec
  rcases hparse : SSTableReader.open (cfg.path (numberToName n)) file n with _ | e | reader
  · rw [hparse] at hrest
    cases hrest
  · rw [hparse] at hrest
    cases hrest
    exact ⟨rfl, herror⟩
  · rw [hparse] at hrest
    cases hrest
    refine ⟨rfl, fun reader' hr => ?_⟩
    cases hr
    rw [DB.openTableAt, hfile]
    exact hparse

/-! ## The manifest -/

section Append

variable {p q rest : Bytes} {short short2 : String} {key : Bytes}

/-- More bytes do not change what is decoded. -/
theorem decodeFixed32_append {v : UInt32} (h : decodeFixed32 p = some v) (q : Bytes) :
    decodeFixed32 (p ++ q) = some v := by
  rw [decodeFixed32] at h ⊢
  split at h
  next hlen =>
    rw [if_pos (by rw [List.length_append]; omega), List.take_append_of_le_length hlen]
    exact h
  next => cases h

/-- More bytes do not change what is decoded. -/
theorem decodeFixed64_append {v : UInt64} (h : decodeFixed64 p = some v) (q : Bytes) :
    decodeFixed64 (p ++ q) = some v := by
  rw [decodeFixed64] at h ⊢
  split at h
  next hlen =>
    rw [if_pos (by rw [List.length_append]; omega), List.take_append_of_le_length hlen]
    exact h
  next => cases h

/-- A key that has been read is there whatever follows. -/
private theorem loadKey_append (h : loadKey p short short2 = some (.ok (key, rest))) (q : Bytes) :
    loadKey (p ++ q) short short2 = some (.ok (key, rest ++ q)) := by
  rw [loadKey] at h ⊢
  split at h
  next => cases h
  next hlen =>
    -- the checks pass on the longer input too
    rw [if_neg (by rw [List.length_append]; omega)]
    obtain ⟨len, hdecode, h⟩ := Option.bind_eq_some_iff.mp h
    refine Option.bind_eq_some_iff.mpr ⟨len, decodeFixed32_append hdecode q, ?_⟩
    rw [List.drop_append_of_le_length (by omega)]
    dsimp only at h ⊢
    split at h
    next => cases h
    next hkey =>
      rw [if_neg (by rw [List.length_append]; omega)]
      obtain ⟨bytes, hload, h⟩ := Option.bind_eq_some_iff.mp h
      refine Option.bind_eq_some_iff.mpr ⟨bytes, ?_, ?_⟩
      · rw [loadBytes] at hload ⊢
        rw [if_pos (by omega)] at hload
        rw [if_pos (by rw [List.length_append]; omega), List.take_append_of_le_length (by omega)]
        exact hload
      · cases h
        rw [List.drop_append_of_le_length (by omega)]
        rfl

end Append

section Manifest

variable {p p' q buf : Bytes} {f : FileMeta} {files : List FileMeta} {levels : List (List FileMeta)}
  {n : Nat}

/-- The entry of a file that has been read up to its keys is there whatever follows, and what comes
    of it is decided by the table. -/
theorem loadFile_of_header {openTable : Nat → Option (Except Status SSTableReader)}
    {number fileSize numEntries : UInt64} {smallest largest p₁ p₂ : Bytes} (hlen : ¬ p.length < 24)
    (hnumber : decodeFixed64 p = some number) (hsize : decodeFixed64 (p.drop 8) = some fileSize)
    (hentries : decodeFixed64 (p.drop 16) = some numEntries)
    (hsmallest : loadKey (p.drop 24) "manifest truncated (skey)" "manifest truncated (skey2)" =
      some (.ok (smallest, p₁)))
    (hlargest : loadKey p₁ "manifest truncated (lkey)" "manifest truncated (lkey2)" =
      some (.ok (largest, p₂))) (q : Bytes) :
    Lsmdb.loadFile openTable (p ++ q) = (openTable number.toNat).map fun r => r.map fun reader =>
      (⟨number.toNat, smallest, largest, fileSize, numEntries, reader⟩, p₂ ++ q) := by
  have hlen' : ¬ (p ++ q).length < 24 := by
    rw [List.length_append]
    omega
  -- each field lies in `p`, so it is read alike from `p ++ q`
  have hsize := decodeFixed64_append hsize q
  rw [← List.drop_append_of_le_length (by omega)] at hsize
  have hentries := decodeFixed64_append hentries q
  rw [← List.drop_append_of_le_length (by omega)] at hentries
  have hsmallest := loadKey_append hsmallest q
  rw [← List.drop_append_of_le_length (by omega)] at hsmallest
  simp only [Lsmdb.loadFile, if_neg hlen', decodeFixed64_append hnumber q, hsize, hentries, hsmallest,
    loadKey_append hlargest q, Bind.bind, Option.bind]
  rcases openTable number.toNat with _ | e | reader <;> rfl

/-- The entry of a file that has been read and whose table has been opened is there whatever
    follows. -/
theorem loadFile_append (h : Runs exec ok (loadFile cfg p).run w (.ok (f, p')) w') (q : Bytes) :
    w' = w ∧ Lsmdb.loadFile (DB.openTableAt cfg w.disk) (p ++ q) = some (.ok (f, p' ++ q)) := by
  rw [loadFile] at h
  -- with less than the fixed part of the entry the call fails
  change Runs _ _ (if p.length < 24 then _ else _ : RecE _).run _ _ _ at h
  split at h
  next => cases h
  next hlen =>
    obtain ⟨number, hnumber, h⟩ := runs_defined h
    obtain ⟨fileSize, hsize, h⟩ := runs_defined h
    obtain ⟨numEntries, hentries, h⟩ := runs_defined h
    obtain ⟨⟨smallest, p₁⟩, hsmallest, h⟩ := runs_parsed h
    obtain ⟨⟨largest, p₂⟩, hlargest, h⟩ := runs_parsed h
    obtain ⟨reader, w₁, hreader, hret⟩ := runs_bind_ok h
    cases hret
    obtain ⟨rfl, hopen⟩ := runs_openReader (runs_liftE hreader)
    refine ⟨rfl, ?_⟩
    -- each part that was read from the start is the same in the whole file
    rw [loadFile_of_header hlen hnumber hsize hentries hsmallest hlargest, hopen reader rfl]
    rfl

/-- The entries of a level that are read from the start of the file are those of the file. -/
theorem loadFiles_append (h : Runs exec ok (loadFiles cfg n p).run w (.ok (files, p')) w') (q : Bytes) :
    w' = w ∧ Lsmdb.loadFiles (DB.openTableAt cfg w.disk) n (p ++ q) = some (.ok (files, p' ++ q)) := by
  induction n generalizing p files p' w with
  | zero =>
    cases h
    exact ⟨rfl, rfl⟩
  | succ n ih =>
    -- the bytes behind are not looked at
    obtain ⟨⟨f, p₁⟩, w₁, hfile, hmore⟩ := runs_bind_ok h
    obtain ⟨rfl, hfirst⟩ := loadFile_append hfile q
    obtain ⟨⟨files', p₂⟩, w₂, hfiles, hret⟩ := runs_bind_ok hmore
    cases hret
    obtain ⟨rfl, hrest⟩ := ih hfiles
    refine ⟨rfl, ?_⟩
    simp only [Lsmdb.loadFiles, hfirst, hrest, Bind.bind, Option.bind, Pure.pure]

/-- So are the levels. -/
private theorem loadLevels_append (h : Runs exec ok (loadLevels cfg n p).run w (.ok levels) w') (q : Bytes) :
    w' = w ∧ Lsmdb.loadLevels (DB.openTableAt cfg w.disk) n (p ++ q) = some (.ok levels) := by
  induction n generalizing p levels w with
  | zero =>
    cases h
    exact ⟨rfl, rfl⟩
  | succ n ih =>
    rw [loadLevels] at h
    change Runs _ _ (if p.length < 4 then _ else _ : RecE _).run _ _ _ at h
    -- a level that is cut off is an error
    split at h
    next => cases h
    next hlen =>
      have hlen' : ¬ (p ++ q).length < 4 := by
        rw [List.length_append]
        omega
      obtain ⟨count, hcount, h⟩ := runs_defined h
      obtain ⟨⟨files, p₁⟩, w₁, hfiles, hmore⟩ := runs_bind_ok h
      obtain ⟨rfl, hfirst⟩ := loadFiles_append hfiles q
      obtain ⟨levels', w₂, hlevels, hret⟩ := runs_bind_ok hmore
      cases hret
      obtain ⟨rfl, hrest⟩ := ih hlevels
      refine ⟨rfl, ?_⟩
      rw [← List.drop_append_of_le_length (by omega)] at hfirst
      simp only [Lsmdb.loadLevels, if_neg hlen', decodeFixed32_append hcount q, hfirst, hrest, Bind.bind,
        Option.bind, Pure.pure]

/-- A manifest that has been accepted is accepted whatever follows, and says the same. -/
private theorem loadManifest_append {out : Version × Nat}
    (h : Runs exec ok (parseManifest cfg buf).run w (.ok out) w') (q : Bytes) :
    w' = w ∧ Lsmdb.loadManifest (DB.openTableAt cfg w.disk) (buf ++ q) = some (.ok out) := by
  rw [parseManifest] at h
  change Runs _ _ (if buf.length < 12 then _ else _ : RecE _).run _ _ _ at h
  split at h
  next => cases h
  next hlen =>
    have hlen' : ¬ (buf ++ q).length < 12 := by
      rw [List.length_append]
      omega
    obtain ⟨nextFile, hnext, h⟩ := runs_defined h
    obtain ⟨numLevels, hcount, h⟩ := runs_defined h
    obtain ⟨room, w₁, hresize, hrest⟩ := runs_bind_ok h
    obtain ⟨ch, _, -, hexec⟩ := runs_callE hresize
    -- the allocation has succeeded, and it has changed nothing
    obtain ⟨rfl, -⟩ := exec_resize hexec
    obtain ⟨_, -, hload⟩ := runs_defined hrest
    obtain ⟨levels, w₂, hlevels, hret⟩ := runs_bind_ok hload
    cases hret
    obtain ⟨rfl, hload⟩ := loadLevels_append hlevels q
    refine ⟨rfl, ?_⟩
    have hcount := decodeFixed32_append hcount q
    rw [← List.drop_append_of_le_length (by omega)] at hcount hload
    simp only [Lsmdb.loadManifest, if_neg hlen', decodeFixed64_append hnext q, hcount, hload, Bind.bind,
      Option.bind, Pure.pure]

/-- What `LoadManifest` has found is what is in the directory. -/
theorem runs_loadManifest {loaded : Option (Version × Nat)}
    (h : Runs exec ok (loadManifest cfg).run w (.ok loaded) w') :
    w' = w ∧ DB.loadVersion cfg w.disk =
      some (.ok (loaded.map Prod.fst, (loaded.map Prod.snd).getD 1)) := by
  obtain ⟨a, w₁, hopen, hrest⟩ := runs_bind_ok h
  obtain ⟨ch, _, heq, hexec⟩ := runs_callE hopen
  cases heq
  obtain ⟨rfl, ⟨rfl, hmem⟩ | ⟨rfl, hmissing⟩ | ⟨errno, rfl, hne⟩⟩ := exec_openFile hexec
  · obtain ⟨file, hfile⟩ := Option.isSome_iff_exists.mp (AList.lookup_isSome.mpr hmem)
    have hat : fileAt w₁.disk manifestName = file := by
      rw [fileAt, hfile]
      rfl
    obtain ⟨size, w₂, hstat, hread⟩ := runs_bind_ok hrest
    obtain ⟨rfl, rfl⟩ := runs_size hstat
    obtain ⟨⟨buf, err⟩, w₃, hloop, hmore⟩ := runs_bind_ok hread
    obtain ⟨rfl, ⟨q, hq⟩, -⟩ := runs_readFile (runs_liftM hloop)
    obtain ⟨out, w₄, hparse, hret⟩ := runs_bind_ok hmore
    cases hret
    -- what has been read is enough
    obtain ⟨rfl, hload⟩ := loadManifest_append hparse q
    rw [hq, hat] at hload
    refine ⟨rfl, ?_⟩
    simp only [DB.loadVersion, hfile, hload, Bind.bind, Option.bind, Pure.pure, Option.map_some, Option.getD_some]
  · -- there is no manifest: a new database
    change Runs _ _ (if enoent = enoent then _ else _ : RecE _).run _ _ _ at hrest
    rw [if_pos rfl] at hrest
    cases hrest
    refine ⟨rfl, ?_⟩
    rw [DB.loadVersion, AList.lookup_eq_none.mpr hmissing]
    rfl
  · -- any other error is reported
    change Runs _ _ (if errno = enoent then _ else _ : RecE _).run _ _ _ at hrest
    rw [if_neg hne] at hrest
    cases hrest

end Manifest

/-! ## The log -/

/-- The log that is read is the whole log: a read that is cut short by an error fails. -/
theorem runs_readLog {buf : Bytes} (h : Runs exec ok (readLog cfg).run w (.ok buf) w') :
    w' = w ∧ buf = w.disk.log := by
  obtain ⟨a, w₁, hopen, hrest⟩ := runs_bind_ok h
  obtain ⟨ch, _, heq, hexec⟩ := runs_callE hopen
  cases heq
  obtain ⟨rfl, ⟨rfl, hmem⟩ | ⟨rfl, hmissing⟩ | ⟨errno, rfl, hne⟩⟩ := exec_openFile hexec
  · obtain ⟨size, w₂, hstat, hread⟩ := runs_bind_ok hrest
    obtain ⟨rfl, rfl⟩ := runs_size hstat
    obtain ⟨⟨out, err⟩, w₃, hloop, hret⟩ := runs_bind_ok hread
    obtain ⟨rfl, -, hwhole⟩ := runs_readFile (runs_liftM hloop)
    cases err with
    | some errno => cases hret
    | none =>
      cases hret
      exact ⟨rfl, hwhole rfl⟩
  · -- there is no log: nothing to replay
    change Runs _ _ (if enoent = enoent then _ else _ : RecE _).run _ _ _ at hrest
    rw [if_pos rfl] at hrest
    cases hrest
    refine ⟨rfl, ?_⟩
    rw [Disk.log, AList.lookup_eq_none.mpr hmissing]
    rfl
  · change Runs _ _ (if errno = enoent then _ else _ : RecE _).run _ _ _ at hrest
    rw [if_neg hne] at hrest
    cases hrest

/-! ## What fails -/

/-- A part that changes nothing, and whose errors are errors. -/
structure Reads (p : RecE α) : Prop where
  readOnly : p.run.All ReadOnly
  notOk : p.run.Returns NotOk

/-- Two parts that only read. -/
theorem Reads.bind {p : RecE α} {f : α → RecE β} (hp : Reads p) (hf : ∀ a, Reads (f a)) :
    Reads (p >>= f) :=
  ⟨All.bindE hp.readOnly fun a => (hf a).readOnly, Returns.bindE hp.notOk fun a => (hf a).notOk⟩

/-- A result without a call. -/
theorem reads_pure (a : α) : Reads (pure a : RecE α) := ⟨trivial, fun e he => by cases he⟩

/-- A failure without a call. -/
theorem reads_throw {e : Status} (he : e.ok = false) : Reads (throw e : RecE α) :=
  ⟨trivial, fun e' he' => by cases he'; exact he⟩

/-- A call that only reads. -/
theorem reads_call (hc : ReadOnly c) : Reads (call c : RecE c.Res) :=
  ⟨⟨hc, fun _ => trivial⟩, fun _ e he => by cases he⟩

/-- A value that is computed. -/
theorem reads_defined (x : Option α) : Reads (defined x : RecE α) := by
  cases x with
  | none => exact ⟨trivial, trivial⟩
  | some a => exact reads_pure a

/-- A value that is parsed. -/
theorem reads_parsed {x : Option (Except Status α)} (hx : ∀ e, x = some (.error e) → e.ok = false) :
    Reads (parsed x) := by
  cases x with
  | none => exact ⟨trivial, trivial⟩
  | some r => exact ⟨trivial, fun e he => hx e (congrArg some he)⟩

/-- A call that only reads, with its result checked. -/
theorem reads_check {p : RecM (Except String α)} {status : String → Status} (hp : p.All ReadOnly)
    (hstatus : ∀ errno, (status errno).ok = false) : Reads (check p status) := by
  constructor
  · apply All.bind hp
    intro r
    cases r <;> trivial
  · refine returns_bind.mpr (returns_of_forall fun r => ?_)
    cases r with
    | ok a => exact fun e he => by cases he
    | error errno =>
      intro e he
      cases he
      exact hstatus errno

/-- A program without errors of its own that only reads. -/
theorem reads_liftM {p : RecM α} (hp : p.All ReadOnly) : Reads (liftM p : RecE α) :=
  ⟨All.bind hp fun _ => trivial, returns_bind.mpr (returns_of_forall fun _ e he => by cases he)⟩

/-- The loop only reads. -/
theorem all_readLoop (size fuel : Nat) (got : Bytes) : (readLoop name size fuel got).All ReadOnly := by
  induction fuel generalizing got with
  | zero =>
    rw [readLoop]
    split <;> trivial
  | succ fuel ih =>
    rw [readLoop]
    -- the loop ends at an error, at the end of the file, or when it has enough
    split
    · refine ⟨trivial, fun r => ?_⟩
      cases r with
      | error errno => trivial
      | ok data =>
        cases data with
        | nil => trivial
        | cons b data => exact ih _
    · trivial

/-- The results of the shared part are its results in the recovery. -/
private theorem returns_via {P : α → Prop} {p : DBM α} (h : p.Returns P) :
    (p.via Call.base fun _ r => r : RecM α).Returns P := by
  induction p with
  | ret a => exact h
  | undef => trivial
  | call c k ih => exact fun r => ih r (h r)

/-- Opening a table only reads. -/
theorem reads_openReader (cfg : Config) (n : Nat) : Reads (liftE (DB.openReader cfg n)) := by
  refine ⟨All.via ?_, returns_via (notOk_openReader cfg n)⟩
  -- `open`, `fstat` and `mmap`
  apply All.bindE
  · apply allE_check
    exact ⟨trivial, fun _ => trivial⟩
  intro file
  apply All.bindE
  · apply allE_check
    exact ⟨trivial, fun _ => trivial⟩
  intro _
  show (if _ then _ else _ : DBE SSTableReader).run.All _
  split
  · trivial
  apply All.bindE
  · apply allE_check
    exact ⟨trivial, fun _ => trivial⟩
  intro _
  apply All.bindE (allE_defined _)
  intro r
  cases r <;> trivial

/-- A key that cannot be parsed is an error. -/
private theorem ok_of_loadKey {p : Bytes} {short short2 : String} {e : Status}
    (h : loadKey p short short2 = some (.error e)) : e.ok = false := by
  rw [loadKey] at h
  split at h
  · cases h
    rfl
  · obtain ⟨len, -, h⟩ := Option.bind_eq_some_iff.mp h
    dsimp only at h
    split at h
    · cases h
      rfl
    · obtain ⟨key, -, h⟩ := Option.bind_eq_some_iff.mp h
      cases h

/-- Loading an entry of the manifest only reads. -/
theorem reads_loadFile (cfg : Config) (p : Bytes) : Reads (loadFile cfg p) := by
  rw [loadFile]
  show Reads (if p.length < 24 then _ else _ : RecE _)
  split
  · exact reads_throw rfl
  refine Reads.bind (reads_defined _) fun number => ?_
  refine Reads.bind (reads_defined _) fun fileSize => ?_
  refine Reads.bind (reads_defined _) fun numEntries => ?_
  refine Reads.bind (reads_parsed fun e => ok_of_loadKey) fun (smallest, p) => ?_
  refine Reads.bind (reads_parsed fun e => ok_of_loadKey) fun (largest, p) => ?_
  exact Reads.bind (reads_openReader cfg _) fun reader => reads_pure _

/-- So does loading the entries of a level. -/
theorem reads_loadFiles (cfg : Config) (n : Nat) (p : Bytes) : Reads (loadFiles cfg n p) := by
  induction n generalizing p with
  | zero => exact reads_pure _
  | succ n ih =>
    refine Reads.bind (reads_loadFile cfg p) fun (f, p) => ?_
    exact Reads.bind (ih p) fun (files, p) => reads_pure _

/-- So does loading the levels. -/
theorem reads_loadLevels (cfg : Config) (n : Nat) (p : Bytes) : Reads (loadLevels cfg n p) := by
  induction n generalizing p with
  | zero => exact reads_pure _
  | succ n ih =>
    rw [loadLevels]
    show Reads (if p.length < 4 then _ else _ : RecE _)
    split
    · exact reads_throw rfl
    refine Reads.bind (reads_defined _) fun numFiles => ?_
    refine Reads.bind (reads_loadFiles cfg _ _) fun (files, p) => ?_
    exact Reads.bind (ih p) fun levels => reads_pure _

/-- So does loading the manifest. -/
theorem reads_loadManifest (cfg : Config) : Reads (loadManifest cfg) := by
  refine Reads.bind (reads_call trivial) fun r => ?_
  cases r with
  | error errno =>
    -- a missing manifest is no error
    show Reads (if errno = enoent then _ else _ : RecE _)
    split
    · exact reads_pure _
    · exact reads_throw rfl
  | ok u =>
    refine Reads.bind (reads_check ⟨trivial, fun _ => trivial⟩ fun _ => rfl) fun size => ?_
    refine Reads.bind (reads_liftM (all_readLoop _ _ _)) fun (buf, err) => ?_
    refine Reads.bind ?_ fun out => reads_pure _
    -- the checks of the buffer and its tables
    rw [parseManifest]
    show Reads (if buf.length < 12 then _ else _ : RecE _)
    split
    · exact reads_throw rfl
    refine Reads.bind (reads_defined _) fun nextFile => ?_
    refine Reads.bind (reads_defined _) fun numLevels => ?_
    refine Reads.bind (reads_call trivial) fun room => ?_
    refine Reads.bind (reads_defined _) fun _ => ?_
    exact Reads.bind (reads_loadLevels cfg _ _) fun levels => reads_pure _

/-- So does reading the log. -/
theorem reads_readLog (cfg : Config) : Reads (readLog cfg) := by
  refine Reads.bind (reads_call trivial) fun r => ?_
  cases r with
  | error errno =>
    -- a missing log is no error
    show Reads (if errno = enoent then _ else _ : RecE _)
    split
    · exact reads_pure _
    · exact reads_throw rfl
  | ok u =>
    refine Reads.bind (reads_check ⟨trivial, fun _ => trivial⟩ fun _ => rfl) fun size => ?_
    refine Reads.bind (reads_liftM (all_readLoop _ _ _)) fun (buf, err) => ?_
    cases err with
    | none => exact reads_pure _
    | some errno => exact reads_throw rfl

/-- What a run returns has the properties of every result. -/
theorem runs_returns {p : RecM α} {a : α} {P : α → Prop} (h : Runs exec ok p w a w') (hp : p.Returns P) :
    P a := by
  induction h with
  | ret a w => exact hp
  | call _ _ _ ih => exact ih (hp _)

/-- A part that only reads and fails has changed nothing. -/
private theorem Reads.of_error {p : RecE α} {e : Status} (hp : Reads p) (h : Runs exec ok p.run w (.error e) w') :
    w' = w ∧ e.ok = false :=
  ⟨runs_readOnly h hp.readOnly, runs_returns h hp.notOk e rfl⟩

/-! ## The orphans -/

/-- The directory without some files. -/
def eraseAll (disk : Disk) (names : List String) : Disk := names.foldl (fun d name => d.erase name) disk

/-- The files left in a directory. -/
private theorem entries_erase (disk : Disk) (name : String) :
    (disk.erase name).entries = disk.entries.filter fun s => s.1 ≠ name := by
  obtain ⟨entries, hnodup⟩ := disk
  show entries.kerase name = _
  induction entries with
  | nil => rfl
  | cons s entries ih =>
    obtain ⟨hs, hrest⟩ := List.nodupKeys_cons.mp hnodup
    by_cases heq : name = s.1
    -- `kerase` stops at the first entry of the name, and there is no second one
    · rw [List.kerase_cons_eq heq, List.filter_cons_of_neg (by simp [heq])]
      refine (List.filter_eq_self.mpr fun s' hs' => ?_).symm
      have hne : s'.1 ≠ name := by
        rintro rfl
        exact hs (heq ▸ List.mem_keys_of_mem hs')
      simpa using hne
    · rw [List.kerase_cons_ne heq, List.filter_cons_of_pos (by simpa using Ne.symm heq), ih hrest]

/-- The files left after several removals. -/
private theorem entries_eraseAll (disk : Disk) (names : List String) :
    (eraseAll disk names).entries = disk.entries.filter fun s => s.1 ∉ names := by
  induction names generalizing disk with
  | nil => simp [eraseAll]
  | cons name names ih =>
    rw [eraseAll, List.foldl_cons]
    show (eraseAll (disk.erase name) names).entries = _
    rw [ih, entries_erase, List.filter_filter]
    congr 1
    funext s
    simp [Bool.and_comm]

/-- Only the set of the files counts. -/
private theorem eraseAll_congr {disk : Disk} {names names' : List String} (h : ∀ name, name ∈ names ↔ name ∈ names') :
    eraseAll disk names = eraseAll disk names' := by
  apply AList.ext
  rw [entries_eraseAll, entries_eraseAll]
  congr 1
  funext s
  simp only [h]

/-- The file that `RemoveOrphanFiles` removes when it finds a name. -/
def orphanFile (v : Version) (name : String) : Option String :=
  (parseFileNumber name).bind fun n =>
    if n ∈ v.levels.flatten.map (·.number) then none else some (numberToName n)

def orphanFiles (v : Version) (names : List String) : List String := names.filterMap (orphanFile v)

/-- The next name: it is unlinked if it is the name of a table that is not in the version. -/
theorem removeOrphanFiles_cons (v : Version) (name : String) (names : List String) :
    DB.removeOrphanFiles v (name :: names) =
      match orphanFile v name with
      | none => DB.removeOrphanFiles v names
      | some file => DB.call (.unlink file) >>= fun _ => DB.removeOrphanFiles v names := by
  rw [DB.removeOrphanFiles, orphanFile]
  cases parseFileNumber name with
  | none => rfl
  | some n =>
    rw [Option.bind_some]
    show (if n ∈ v.levels.flatten.map (·.number) then _ else _ : DBM Unit) = _
    split <;> rfl

/-- What is gone are orphans. -/
theorem runs_removeOrphanFiles {v : Version} {names : List String} {u : Unit}
    {ok : Lsmdb.Call → Lsmdb.Choice → World → Prop}
    (h : Runs (Lsmdb.exec .client) ok (DB.removeOrphanFiles v names) w u w') :
    ∃ gone ⊆ orphanFiles v names, w' = { w with disk := eraseAll w.disk gone } := by
  induction names generalizing w with
  | nil =>
    cases h
    exact ⟨[], List.nil_subset _, rfl⟩
  | cons name names ih =>
    rw [removeOrphanFiles_cons] at h
    rw [orphanFiles, List.filterMap_cons]
    cases hfile : orphanFile v name with
    | none =>
      rw [hfile] at h
      exact ih h
    | some file =>
      rw [hfile] at h
      obtain ⟨u', w₁, hcall, hrest⟩ := Runs.of_bind h
      obtain ⟨ch, hexec⟩ := runs_dbCall hcall
      obtain ⟨gone, hgone, rfl⟩ := ih hrest
      -- the removal may fail, and then the file stays
      rcases exec_unlink hexec with rfl | rfl
      · exact ⟨gone, List.subset_cons_of_subset _ hgone, rfl⟩
      · exact ⟨file :: gone, List.cons_subset_cons _ hgone, rfl⟩

/-- Any orphans can be the ones that are gone. -/
private theorem exists_runs_removeOrphanFiles {v : Version} {names gone : List String}
    {ok : Lsmdb.Call → Lsmdb.Choice → World → Prop}
    (hok : ∀ name w, ok (.unlink name) .ok w ∧ ok (.unlink name) (.fail "") w) (w : World) :
    Runs (Lsmdb.exec .client) ok (DB.removeOrphanFiles v names) w ()
      { w with disk := eraseAll w.disk ((orphanFiles v names).filter (· ∈ gone)) } := by
  induction names generalizing w with
  | nil => exact .ret () w
  | cons name names ih =>
    rw [removeOrphanFiles_cons, orphanFiles, List.filterMap_cons]
    cases orphanFile v name with
    | none => exact ih w
    | some file =>
      dsimp only
      -- a file that is to stay is one whose removal fails
      by_cases hgone : file ∈ gone
      · rw [List.filter_cons_of_pos (by simpa using hgone)]
        exact .call (hok file w).1 rfl (ih { w with disk := w.disk.erase file })
      · rw [List.filter_cons_of_neg (by simpa using hgone)]
        exact .call (hok file w).2 rfl (ih w)

/-! ## Recovery -/

/-- The directory with a log. -/
def withLog (disk : Disk) : Disk := if walName ∈ disk then disk else disk.insert walName []

/-- Opening the log fails, or leaves it open and in the directory. -/
theorem runs_walOpen {r : Except Status Unit} {ok : Lsmdb.Call → Lsmdb.Choice → World → Prop}
    (h : Runs (Lsmdb.exec .client) ok (DB.walOpen cfg).run w r w') :
    (∃ e, r = .error e ∧ e.ok = false ∧ w' = w) ∨ r = .ok () ∧
      w' = { w with walOpen := true, disk := withLog w.disk } := by
  rcases Runs.of_bindE h with ⟨e, rfl, hp⟩ | ⟨u, w₁, hp, hrest⟩
  -- the call failed, so the file has not been created
  · obtain ⟨a, hcall, ⟨x, -, hx⟩ | ⟨errno, rfl, hx⟩⟩ := runs_dbCheck hp
    · cases hx
    · cases hx
      obtain ⟨ch, hexec⟩ := runs_dbCall hcall
      rcases exec_openAppend hexec with ⟨errno', -, -, rfl⟩ | ⟨hbad, -⟩
      · exact .inl ⟨_, rfl, rfl, rfl⟩
      · cases hbad
  · obtain ⟨a, hcall, ⟨x, rfl, -⟩ | ⟨errno, -, hx⟩⟩ := runs_dbCheck hp
    swap
    · cases hx
    obtain ⟨ch, hexec⟩ := runs_dbCall hcall
    rcases exec_openAppend hexec with ⟨errno', -, hbad, -⟩ | ⟨-, rfl⟩
    · cases hbad
    -- it succeeded, and the log is there
    cases hrest with
    | call hok hstore hret =>
      cases hstore
      cases hret
      refine .inr ⟨rfl, ?_⟩
      rw [withLog]
      split <;> rfl

/-- How a recovery ends that has loaded the manifest. -/
private theorem recoverLog_cases {disk : Disk} {v : Version} {next : Nat} {r : Except Status Unit}
    (h : Runs exec ok (recoverLog cfg v).run
      { World.fresh cfg disk with current := v, nextFileNumber := next } r w') :
    (∃ e, r = .error e ∧ e.ok = false ∧ w'.disk = disk) ∨ r = .ok () ∧
      ∃ mem gone, (walRecords disk.log).foldlM DB.replayRecord (SkipList.new cfg.rng) = some mem ∧
        gone ⊆ orphanFiles v (withLog disk).keys ∧
        w' = { World.fresh cfg disk with
          current := v
          nextFileNumber := next
          mem := mem
          walOpen := true
          disk := eraseAll (withLog disk) gone } := by
  rcases Runs.of_bindE h with ⟨e, rfl, hp⟩ | ⟨buf, w₁, hlog, h₁⟩
  · obtain ⟨rfl, he⟩ := (reads_readLog cfg).of_error hp
    exact .inl ⟨e, rfl, he, rfl⟩
  obtain ⟨rfl, rfl⟩ := runs_readLog hlog
  -- the whole log has been read, so the replay is the one of the directory
  obtain ⟨⟨records, count⟩, hreplay, h₂⟩ := runs_defined h₁
  rw [walReplay_eq] at hreplay
  cases hreplay
  obtain ⟨ch, mem₀, w₂, hmem, h₃⟩ := runs_dbCallE h₂
  cases hmem
  obtain ⟨mem, hfold, h₄⟩ := runs_defined h₃
  obtain ⟨ch, u, w₃, hstore, h₅⟩ := runs_dbCallE h₄
  cases hstore
  rcases Runs.of_bindE h₅ with ⟨e, rfl, hp⟩ | ⟨u, w₄, hopen, h₆⟩
  · rcases runs_walOpen (runs_liftE hp) with ⟨e', he', hbad, rfl⟩ | ⟨hok, -⟩
    · cases he'
      exact .inl ⟨e, rfl, hbad, rfl⟩
    · cases hok
  rcases runs_walOpen (runs_liftE hopen) with ⟨e', he', -⟩ | ⟨-, rfl⟩
  · cases he'
  -- nothing can fail from here on; what `readdir` does not return is not removed
  rcases Runs.of_bindE h₆ with ⟨e, -, hp⟩ | ⟨names, w₅, hlist, h₇⟩
  · obtain ⟨ch, a, ha, -⟩ := runs_callE hp
    cases ha
  obtain ⟨ch, a, ha, hexec⟩ := runs_callE hlist
  cases ha
  obtain ⟨rfl, hnames⟩ := exec_listDir hexec
  obtain ⟨u, w₆, hremove, hret⟩ := Runs.of_bind (runs_liftE h₇)
  cases hret
  obtain ⟨gone, hgone, rfl⟩ := runs_removeOrphanFiles hremove
  exact .inr ⟨rfl, mem, gone, hfold, List.Subset.trans hgone (List.filterMap_subset _ hnames), rfl⟩

/-- How a recovery ends. -/
theorem recover_cases {disk : Disk} {r : Except Status Unit}
    (h : Runs exec ok (recover cfg).run (World.fresh cfg disk) r w') :
    (∃ e, r = .error e ∧ e.ok = false ∧ w'.disk = disk) ∨ r = .ok () ∧
      ∃ loaded next mem gone, DB.loadVersion cfg disk = some (.ok (loaded, next)) ∧
        (walRecords disk.log).foldlM DB.replayRecord (SkipList.new cfg.rng) = some mem ∧
        gone ⊆ orphanFiles (loaded.getD ⟨[[]]⟩) (withLog disk).keys ∧
        w' = { World.fresh cfg disk with
          current := loaded.getD ⟨[[]]⟩
          nextFileNumber := next
          mem := mem
          walOpen := true
          disk := eraseAll (withLog disk) gone } := by
  -- the manifest cannot be read
  rcases Runs.of_bindE h with ⟨e, rfl, hp⟩ | ⟨loaded, w₁, hload, h₁⟩
  · obtain ⟨rfl, he⟩ := (reads_loadManifest cfg).of_error hp
    exact .inl ⟨e, rfl, he, rfl⟩
  obtain ⟨rfl, hversion⟩ := runs_loadManifest hload
  -- a new database, or one with a manifest
  cases loaded with
  | none =>
    obtain ⟨ch, u, w₂, hcurrent, h₂⟩ := runs_dbCallE h₁
    cases hcurrent
    rcases recoverLog_cases h₂ with herror | ⟨hr, mem, gone, hcases⟩
    · exact .inl herror
    · exact .inr ⟨hr, none, 1, mem, gone, hversion, hcases⟩
  | some out =>
    obtain ⟨v, next⟩ := out
    obtain ⟨ch, u, w₂, hcurrent, h₂⟩ := runs_dbCallE h₁
    cases hcurrent
    obtain ⟨ch, u, w₃, hnumber, h₃⟩ := runs_dbCallE h₂
    cases hnumber
    rcases recoverLog_cases h₃ with herror | ⟨hr, mem, gone, hcases⟩
    · exact .inl herror
    · exact .inr ⟨hr, some v, next, mem, gone, hversion, hcases⟩

/-- A recovery whose reads succeed, and which removes the given orphans. -/
theorem runs_recover {disk : Disk} {loaded : Option Version} {next : Nat} {mem : SkipList}
    {gone : List String} {ok : Lsmdb.Call → Lsmdb.Choice → World → Prop}
    (hok : ∀ c w, ok c .ok w) (hunlink : ∀ name w, ok (.unlink name) (.fail "") w)
    (hload : DB.loadVersion cfg disk = some (.ok (loaded, next)))
    (hfold : (walRecords disk.log).foldlM DB.replayRecord (SkipList.new cfg.rng) = some mem)
    (hgone : gone ⊆ orphanFiles (loaded.getD ⟨[[]]⟩) (withLog disk).keys) :
    Runs (Lsmdb.exec .client) ok (DB.recover cfg).run (World.fresh cfg disk) (.ok ())
      { World.fresh cfg disk with
        current := loaded.getD ⟨[[]]⟩
        nextFileNumber := next
        mem := mem
        walOpen := true
        disk := eraseAll (withLog disk) gone } := by
  have hreplay : walReplay ((disk.lookup walName).getD []) =
      some (walRecords disk.log, (walRecords disk.log).length) := walReplay_eq disk.log
  have hset (file : String) :
      file ∈ gone ↔ file ∈ (orphanFiles (loaded.getD ⟨[[]]⟩) (withLog disk).keys).filter (· ∈ gone) := by
    rw [List.mem_filter, decide_eq_true_iff]
    exact ⟨fun hf => ⟨hgone hf, hf⟩, fun hf => hf.2⟩
  have happend (w : World) : Lsmdb.exec .client (.openAppend walName) .ok w =
      some (.ok (), { w with disk := withLog w.disk }) := by
    simp only [Lsmdb.exec, withLog]
    split <;> rfl
  -- the orphans that are to be removed, in the order of the directory
  rw [eraseAll_congr hset]
  rw [DB.recover]
  -- one call after the other
  refine .call (hok _ _) rfl ?_
  show Runs _ _ ((DB.defined (DB.loadVersion cfg disk) >>= _ : DBE Unit).run) _ _ _
  rw [hload]
  refine .call (hok _ _) rfl (.call (hok _ _) rfl ?_)
  show Runs _ _ ((DB.defined (walReplay ((disk.lookup walName).getD [])) >>= _ : DBE Unit).run) _ _ _
  rw [hreplay]
  refine .call (hok _ _) rfl ?_
  show Runs _ _ ((DB.defined ((walRecords disk.log).foldlM DB.replayRecord (SkipList.new cfg.rng)) >>= _ :
    DBE Unit).run) _ _ _
  rw [hfold]
  refine .call (hok _ _) rfl (.call (hok _ _) (happend _) (.call (hok _ _) rfl (.call (hok _ _) rfl ?_)))
  show Runs _ _ (DB.removeOrphanFiles (loaded.getD ⟨[[]]⟩) (withLog disk).keys >>= fun u =>
    (pure (.ok u) : DBM (Except Status Unit))) _ _ _
  exact Runs.bind (exists_runs_removeOrphanFiles (fun name w => ⟨hok _ _, hunlink name w⟩) _) (.ret _ _)

end Lsmdb.Recovery
