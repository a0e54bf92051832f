import Lsmdb.Native.DB

/-!
# Files and calls

What the operations on the directory do to each of its files, what each call can do
(`exec_lock`, `exec_write`, ...), and what the loop around `write` does: in a run in which
every call succeeds (`DB.eval_writeFully`), and under a contract (`DB.triple_writeFully`).
-/

namespace Lsmdb

namespace Disk

variable {disk : Disk} {name other : String} {file data : Bytes}

/-- The file appended to. -/
theorem lookup_append_self (h : disk.lookup name = some file) :
    (disk.append name data).lookup name = some (file ++ data) := by
  simp only [append, h, AList.lookup_insert]

/-- The other files. -/
theorem lookup_append_ne (h : other ≠ name) :
    (disk.append name data).lookup other = disk.lookup other := by
  rw [append]
  split
  · exact AList.lookup_insert_ne h
  · rfl

/-- A rename that finds its source. -/
theorem rename_eq (h : disk.lookup name = some file) (dst : String) :
    disk.rename name dst = some ((disk.erase name).insert dst file) := by
  rw [rename, h, Option.map_some]

end Disk

/-! ## What a call can do -/

section Exec

variable {t : Thread} {ch : Choice} {w w' : World} {name : String} {data : Bytes}

/-- `lock()` waits until the mutex is free. -/
theorem exec_lock {r : Unit} (h : exec t .lock ch w = some (r, w')) :
    w.mutex = none ∧ w' = { w with mutex := some t } := by
  simp only [exec] at h
  split at h
  · cases h
    exact ⟨‹_›, rfl⟩
  · cases h

/-- `unlock()` is called by the owner. -/
theorem exec_unlock {r : Unit} (h : exec t .unlock ch w = some (r, w')) :
    w.mutex = some t ∧ w' = { w with mutex := none } := by
  simp only [exec] at h
  split at h
  · cases h
    exact ⟨‹_›, rfl⟩
  · cases h

/-- `open` with `O_TRUNC` fails or leaves an empty file. -/
theorem exec_openTrunc {r : Except String Unit} (h : exec t (.openTrunc name) ch w = some (r, w')) :
    (∃ errno, ch = .fail errno ∧ r = .error errno ∧ w' = w) ∨
      r = .ok () ∧ w' = { w with disk := w.disk.insert name [] } := by
  cases ch with
  | fail errno => cases h; exact .inl ⟨errno, rfl, rfl, rfl⟩
  | ok | short | inputs => cases h; exact .inr ⟨rfl, rfl⟩

/-- `open` with `O_APPEND` fails or finds the file, creating it if there is none. -/
theorem exec_openAppend {r : Except String Unit}
    (h : exec t (.openAppend name) ch w = some (r, w')) :
    (∃ errno, ch = .fail errno ∧ r = .error errno ∧ w' = w) ∨
      r = .ok () ∧ w' = if name ∈ w.disk then w else { w with disk := w.disk.insert name [] } := by
  cases ch with
  | fail errno => cases h; exact .inl ⟨errno, rfl, rfl, rfl⟩
  | ok | short | inputs => cases h; exact .inr ⟨rfl, rfl⟩

/-- `open` for reading fails or finds the file as it is. -/
theorem exec_openRead {r : Except String Bytes} {file : Bytes}
    (h : exec t (.openRead name) ch w = some (r, w')) (hfile : w.disk.lookup name = some file) :
    w' = w ∧ ((∃ errno, ch = .fail errno ∧ r = .error errno) ∨ r = .ok file) := by
  cases ch with
  | fail errno => cases h; exact ⟨rfl, .inl ⟨errno, rfl, rfl⟩⟩
  | ok | short | inputs =>
    simp only [exec, hfile] at h
    cases h
    exact ⟨rfl, .inr rfl⟩

/-- `fstat` fails or succeeds. -/
theorem exec_fstat {r : Except String Unit} (h : exec t (.fstat name) ch w = some (r, w')) :
    w' = w ∧ ((∃ errno, ch = .fail errno ∧ r = .error errno) ∨ r = .ok ()) := by
  cases ch with
  | fail errno => cases h; exact ⟨rfl, .inl ⟨errno, rfl, rfl⟩⟩
  | ok | short | inputs => cases h; exact ⟨rfl, .inr rfl⟩

/-- `mmap` fails or succeeds. -/
theorem exec_mmap {r : Except String Unit} (h : exec t (.mmap name) ch w = some (r, w')) :
    w' = w ∧ ((∃ errno, ch = .fail errno ∧ r = .error errno) ∨ r = .ok ()) := by
  cases ch with
  | fail errno => cases h; exact ⟨rfl, .inl ⟨errno, rfl, rfl⟩⟩
  | ok | short | inputs => cases h; exact ⟨rfl, .inr rfl⟩

/-- `fsync` fails or succeeds. -/
theorem exec_fsync {r : Except String Unit} (h : exec t (.fsync name) ch w = some (r, w')) :
    w' = w ∧ ((∃ errno, ch = .fail errno ∧ r = .error errno) ∨ r = .ok ()) := by
  cases ch with
  | fail errno => cases h; exact ⟨rfl, .inl ⟨errno, rfl, rfl⟩⟩
  | ok | short | inputs => cases h; exact ⟨rfl, .inr rfl⟩

/-- `close` fails or succeeds. -/
theorem exec_close {r : Except String Unit} (h : exec t (.close name) ch w = some (r, w')) :
    w' = w ∧ ((∃ errno, ch = .fail errno ∧ r = .error errno) ∨ r = .ok ()) := by
  cases ch with
  | fail errno => cases h; exact ⟨rfl, .inl ⟨errno, rfl, rfl⟩⟩
  | ok | short | inputs => cases h; exact ⟨rfl, .inr rfl⟩

/-- A `write` that does not fail writes some of the data, and something unless there is none. -/
theorem exec_write {r : Except String Nat} (h : exec t (.write name data) ch w = some (r, w')) :
    (∃ errno, ch = .fail errno ∧ r = .error errno ∧ w' = w) ∨
      ∃ n, n ≤ data.length ∧ (data ≠ [] → 0 < n) ∧ r = .ok n ∧
        w' = { w with disk := w.disk.append name (data.take n) } := by
  cases ch with
  | fail errno => cases h; exact .inl ⟨errno, rfl, rfl, rfl⟩
  -- a short write takes some of the bytes, but at least one
  | short n =>
    simp only [exec] at h
    split at h
    · cases h
      exact .inr ⟨n, (‹_ ∧ _›).2, fun _ => (‹_ ∧ _›).1, rfl, rfl⟩
    · cases h
  | ok | inputs =>
    cases h
    exact .inr ⟨data.length, le_rfl, List.length_pos_iff.mpr, rfl, by rw [List.take_length]⟩

/-- `rename` fails or replaces the target at once. -/
theorem exec_rename {r : Except String Unit} {src dst : String} {file : Bytes}
    (h : exec t (.rename src dst) ch w = some (r, w')) (hfile : w.disk.lookup src = some file) :
    (∃ errno, ch = .fail errno ∧ r = .error errno ∧ w' = w) ∨
      r = .ok () ∧ w' = { w with disk := (w.disk.erase src).insert dst file } := by
  cases ch with
  | fail errno => cases h; exact .inl ⟨errno, rfl, rfl, rfl⟩
  | ok | short | inputs =>
    simp only [exec, Disk.rename_eq hfile] at h
    cases h
    exact .inr ⟨rfl, rfl⟩

/-- `unlink` may fail silently. -/
theorem exec_unlink {r : Unit} (h : exec t (.unlink name) ch w = some (r, w')) :
    w' = w ∨ w' = { w with disk := w.disk.erase name } := by
  cases ch with
  | fail errno => cases h; exact .inl rfl
  | ok | short | inputs => cases h; exact .inr rfl

/-- A shared variable is changed by its own calls only. -/
theorem exec_fields {c : Call} {r : c.Res} (h : exec t c ch w = some (r, w')) :
    (c ≠ .lock → c ≠ .unlock → w'.mutex = w.mutex) ∧
      ((∀ v, c ≠ .storeCurrent v) → w'.current = w.current) ∧
      (c ≠ .takeFileNumber → (∀ n, c ≠ .storeFileNumber n) →
        w'.nextFileNumber = w.nextFileNumber) ∧
      (c ≠ .storeShuttingDown → w'.shuttingDown = w.shuttingDown) := by
  cases c with
  | lock =>
    obtain ⟨-, rfl⟩ := exec_lock h
    simp
  | unlock =>
    obtain ⟨-, rfl⟩ := exec_unlock h
    simp
  -- these look at the disk first
  | openAppend name | rename src dst | openRead name =>
    cases ch with
    | fail errno => cases h; simp
    | ok | short | inputs =>
      simp only [exec] at h
      split at h <;> cases h <;> simp
  | write name data =>
    rcases exec_write h with ⟨errno, -, -, rfl⟩ | ⟨n, -, -, -, rfl⟩ <;> simp
  | _ => cases ch <;> cases h <;> simp

end Exec

namespace DB

variable {t : Thread} {w : World}

/-- A single call is evaluated by `exec`. -/
theorem eval_callM (c : Call) (ch : Choice) :
    (call c : DBM c.Res).eval (exec t) ch w = exec t c ch w :=
  Prog.eval_lift ch c w

/-- A single call that cannot fail by itself. -/
theorem eval_call (c : Call) (ch : Choice) :
    (call c : DBE c.Res).run.eval (exec t) ch w =
      (exec t c ch w).map fun (r, w) => (.ok r, w) := by
  show (Prog.lift c >>= fun a => Prog.ret (Except.ok a)).eval (exec t) ch w = _
  rw [Prog.eval_bind, Prog.eval_lift]
  cases exec t c ch w <;> rfl

/-- The error number becomes a status. -/
theorem eval_check {α : Type} (x : DBM (Except String α)) (status : String → Status) (ch : Choice) :
    (check x status).run.eval (exec t) ch w = (x.eval (exec t) ch w).map fun
      | (.ok a, w) => (.ok a, w)
      | (.error errno, w) => (.error (status errno), w) := by
  show (x >>= _).eval (exec t) ch w = _
  rw [Prog.eval_bind]
  cases x.eval (exec t) ch w with
  | none => rfl
  | some r =>
    obtain ⟨r, w⟩ := r
    cases r <;> rfl

/-- Without failures one `write` writes everything. -/
theorem eval_writeFully (name : String) {data : Bytes} (h : data ≠ []) :
    (writeFully name data).eval (exec t) .ok w =
      some (.ok (), { w with disk := w.disk.append name data }) := by
  obtain ⟨b, rest, rfl⟩ := List.exists_cons_of_ne_nil h
  rw [writeFully, List.length_cons, writeLoop, Prog.eval_bind, eval_callM]
  simp only [exec, Option.bind_some, List.drop_length]
  cases rest <;> rfl

section Contract

variable {G : Type} {K : Contract Call Choice G World} {P : G → World → Prop}

/-- An error text becomes a status, the postconditions stay. -/
theorem tripleE_check {α : Type} {x : DBM (Except String α)} {status : String → Status}
    {Q : α → G → World → Prop} {E : G → World → Prop}
    (h : Prog.Triple (exec t) K P x (Prog.outcome Q fun _ => E)) :
    Prog.TripleE (exec t) K P (check x status) Q fun _ => E := by
  apply Prog.Triple.bind h
  intro r
  cases r with
  | ok a => exact Prog.Triple.ret fun g w _ hQ => hQ
  | error errno => exact Prog.Triple.ret fun g w _ hE => hE

/-- A call that does not fail, among calls that do. -/
theorem tripleE_call {c : Call} {Q : c.Res → G → World → Prop} {E : Status → G → World → Prop}
    (h : Prog.Triple (exec t) K P (Prog.lift c) Q) : Prog.TripleE (exec t) K P (call c) Q E :=
  Prog.TripleE.lift h

/-- The loop around `write`: the data reaches the file in parts, in order. `A` says what is known
    when a part of it has been written. -/
theorem triple_writeFully {name : String} {data : Bytes} {A : Bytes → G → World → Prop}
    {E : G → World → Prop} (hstable : ∀ part, Prog.Stable K (A part))
    (hdemand : ∀ part rest g w, A part g w → K.demand (.write name rest) g w)
    (hstep : ∀ part more rest g w, part ++ (more ++ rest) = data → K.inv g w → A part g w →
      ∃ g', K.guar g w g' { w with disk := w.disk.append name more } ∧
        K.inv g' { w with disk := w.disk.append name more } ∧
        A (part ++ more) g' { w with disk := w.disk.append name more })
    (hfail : ∀ part rest errno g w, part ++ rest = data → K.inv g w → A part g w →
      K.allow (.write name rest) (.fail errno) g w → K.guar g w g w ∧ E g w) :
    Prog.Triple (exec t) K (A []) (writeFully name data)
      (Prog.outcome (fun _ => A data) fun _ => E) := by
  -- the loop, from any part that has been written
  have hloop : ∀ fuel part rest, part ++ rest = data → rest.length ≤ fuel →
      Prog.Triple (exec t) K (A part) (writeLoop name fuel rest)
        (Prog.outcome (fun _ => A data) fun _ => E) := by
    -- the fuel bounds the bytes left, and every write takes at least one of them
    intro fuel
    induction fuel with
    | zero =>
      intro part rest hdata hlen
      have hnil : rest = [] := List.eq_nil_of_length_eq_zero (Nat.le_zero.mp hlen)
      rw [hnil, List.append_nil] at hdata
      rw [hnil, hdata, writeLoop]
      exact Prog.Triple.ret fun g w _ hA => hA
    | succ fuel ih =>
      intro part rest hdata hlen
      cases rest with
      | nil =>
        rw [List.append_nil] at hdata
        rw [hdata, writeLoop]
        exact Prog.Triple.ret fun g w _ hA => hA
      | cons b rest =>
        rw [writeLoop]
        apply Prog.Triple.bind
          (Q := Prog.outcome (fun n g w => 0 < n ∧ A (part ++ (b :: rest).take n) g w) fun _ => E)
        · apply Prog.Triple.lift (hstable part) fun g w _ hA => hdemand part _ g w hA
          intro g w hi hA ch r w' hallow hexec
          -- the write fails, or a part more is in the file
          rcases exec_write hexec with ⟨errno, rfl, rfl, rfl⟩ | ⟨n, -, hpos, rfl, rfl⟩
          · obtain ⟨hguar, hE⟩ := hfail part (b :: rest) errno g w' hdata hi hA hallow
            exact ⟨g, hguar, hi, hE⟩
          · have hsplit : part ++ ((b :: rest).take n ++ (b :: rest).drop n) = data := by
              rw [List.take_append_drop, hdata]
            obtain ⟨g', hguar, hi', hA'⟩ := hstep _ _ _ g w hsplit hi hA
            exact ⟨g', hguar, hi', hpos (List.cons_ne_nil b rest), hA'⟩
        · intro r
          cases r with
          | error errno => exact Prog.Triple.ret fun g w _ hE => hE
          | ok n =>
            apply Prog.Triple.pre
            intro hpos
            apply ih
            · rw [List.append_assoc, List.take_append_drop, hdata]
            · rw [List.length_drop]
              rw [List.length_cons] at hlen ⊢
              omega
  exact hloop data.length [] data rfl le_rfl

end Contract

end DB

end Lsmdb
