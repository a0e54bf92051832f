import Lsmdb.Spec.CompactionLimits
import Lsmdb.Spec.SystemCorrect

/-!
# Runs of `DoCompaction`

A compaction on its own, from any state that a run of the database can reach. Without
failures it installs its outputs (`doCompaction_alone`). If its records fit the formats, it
gets to outputs when nothing fails, and outputs that it gets to hold the newest-wins merge of
its inputs, whatever has failed. A compaction that fails while it makes them leaves the
version alone; one that fails to write the manifest does not.
-/

namespace Lsmdb

open Prog SortedMap

/-! ## A thread on its own -/

/-- The invariant of a database in which only the compaction thread works. -/
structure Alone (pol : Policy) (x : Session) (g : Ghost) (w : World) : Prop where
  faults : g.faults = pol.faults
  logFaults : g.logFaults = pol.logFaults
  session : g.session = x
  unlocked : w.mutex ≠ some .client

variable {pol : Policy} {cfg : Config} {x : Session} {g g' : Ghost} {w w' : World}

/-- The background thread does nothing that the client does. -/
theorem Alone.keep (hk : Keeps .client g w g' w') (h : Alone pol x g w) : Alone pol x g' w' where
  faults := hk.faults_eq.trans h.faults
  logFaults := hk.logFaults_eq.trans h.logFaults
  session := (hk.client rfl).1.trans h.session
  unlocked := hk.unlocked h.unlocked

/-- What the policy allows is what the faults seen so far allow. -/
theorem Alone.allow {c : Call} {ch : Choice} (h : Alone pol x g w)
    (hallow : pol.Allows c ch w) : (protocol .background).allow c ch g w := by
  show c.Fits w ∧ c.MayFail g.faults g.logFaults ch
  rw [h.faults, h.logFaults]
  exact hallow

/-- A thread that works alone is never kept waiting. -/
private theorem Alone.can_call {c : Call} (h : Alone pol x g w) (hdemand : c.Demand .background g w) :
    (exec .background c .ok w).isSome := by
  -- only the lock can keep a thread from its next call
  cases c with
  | lock =>
    have hfree : w.mutex = none := by
      cases hm : w.mutex with
      | none => rfl
      | some t =>
        cases t with
        | client => exact absurd hm h.unlocked
        | background => exact absurd hm hdemand
    simp [exec, hfree]
  | unlock =>
    have hheld : w.mutex = some .background := hdemand
    simp [exec, hheld]
  | openRead name =>
    simp only [exec]
    split <;> rfl
  | rename src dst =>
    simp only [exec]
    split <;> rfl
  | _ => rfl

/-- What a triple says about the runs of a program on its own. -/
theorem Alone.runs {α : Type} {p : DBM α} {P : Ghost → World → Prop}
    {Q : α → Ghost → World → Prop} (ha : Alone pol x g w) (hi : Inv g w)
    (h : Triple (exec .background) (protocol .background) P p Q) (hP : P g w) {r : α}
    (hrun : Runs (exec .background) pol.Allows p w r w') :
    ∃ g', Inv g' w' ∧ Alone pol x g' w' ∧ Q r g' w' :=
  Safe.runs (h g w hi hP) hi ha (fun _ _ _ _ _ ha => ha.allow) (fun _ _ _ _ hk ha => ha.keep hk) hrun

/-- A background program with a triple does not get stuck while the client is idle. -/
theorem Alone.live {α : Type} {p : DBM α} {P : Ghost → World → Prop}
    {Q : α → Ghost → World → Prop} (ha : Alone pol x g w) (hi : Inv g w)
    (h : Triple (exec .background) (protocol .background) P p Q) (hP : P g w) :
    p.Live (exec .background) .ok pol.Allows w :=
  Safe.live (h g w hi hP) hi ha (fun _ _ _ _ _ ha => ha.allow) (fun _ _ _ _ hk ha => ha.keep hk)
    fun _ _ _ _ ha => ha.can_call

/-- Without the other thread no flush comes. -/
theorem Alone.current_eq (ha : Alone pol x g w) {v : Version}
    (h : Since v x.flushes g w) : w.current = v := by
  obtain ⟨files, hcurrent, hcount⟩ := h
  rw [ha.session] at hcount
  have hnil : files = [] := List.eq_nil_of_length_eq_zero (by omega)
  rw [hcurrent, hnil]
  rfl

/-- With the client idle, a compaction installs its outputs in the version it was picked from. -/
theorem Alone.compacted (ha : Alone pol x g w) {v : Version} {c : Compaction}
    (h : Compacted v x.flushes c g w) :
    ∃ outs, Outputs c v outs ∧ w.current = installCompaction v c outs := by
  obtain ⟨files, outs, ho, files', hcurrent, hcount⟩ := h
  rw [ha.session] at hcount
  have hnil : files = [] := List.eq_nil_of_length_eq_zero (by omega)
  have hnil' : files' = [] := List.eq_nil_of_length_eq_zero (by omega)
  subst hnil hnil'
  exact ⟨outs, ho, hcurrent⟩

/-- From every state of a run, a thread can go on alone, with the failures of a policy. -/
theorem alone_of_reachable {s : System} (h : Policy.any.Reachable s) (hup : s.process.IsUp)
    (pol : Policy) :
    ∃ g, Inv g { s.world with mutex := none } ∧
      Alone pol g.session g { s.world with mutex := none } := by
  obtain ⟨g, hg⟩ := SysInv.of_reachable h
  have hi : Inv g s.world := hg.inv hup
  exact ⟨{ g with faults := pol.faults, logFaults := pol.logFaults },
    { hi with stored := { hi.stored with } }, rfl, rfl, rfl, nofun⟩

/-! ## A compaction without failures -/

/-- The inputs are tables of the version. -/
theorem Picked.mem_inputs {v : Version} {c : Compaction} (hp : Picked v c) (hv : Layout v)
    {f : FileMeta} (hf : f ∈ c.inputs) : f ∈ v.files := by
  obtain ⟨chosen, lo, hi, hsite⟩ := hp.site hv.ne_nil hv (.refl _)
  exact hsite.mem_inputs hf

/-- A compaction picked from the current version can be watched from there on. -/
theorem Inv.watching (hi : Inv g w) {c : Compaction} (hp : Picked w.current c) :
    Watching w.current g.session.flushes c g w :=
  ⟨.refl g w, fun f hf => hi.current_tables f (hp.mem_inputs hi.layout hf)⟩

/-- `DoCompaction` on its own: it does not get stuck, and when it returns it has installed the
    compaction. -/
theorem doCompaction_alone (hi : Inv g w) (ha : Alone .faultless x g w) (hfree : w.mutex = none)
    {c : Compaction} (hpick : pickCompaction cfg.options w.current = some (some c)) :
    (DB.doCompaction cfg c).run.Live (exec .background) .ok Policy.faultless.Allows w ∧
      ∀ r w', Runs (exec .background) Policy.faultless.Allows (DB.doCompaction cfg c).run w r w' →
        r = .ok () ∧ ∃ g' outs, Inv g' w' ∧ Alone .faultless x g' w' ∧ w'.mutex = none ∧
          Outputs c w.current outs ∧ w'.current = installCompaction w.current c outs := by
  have hp := picked_of_pickCompaction hi.layout hpick
  have htriple := tripleE_doCompaction (n := g.session.flushes) cfg hi.layout hp
  have hpre : w.mutex ≠ some .background := by
    rw [hfree]
    decide
  refine ⟨ha.live hi htriple ⟨hpre, hi.watching hp⟩, fun r w' hrun => ?_⟩
  obtain ⟨g', hi', ha', hr⟩ := ha.runs hi htriple ⟨hpre, hi.watching hp⟩ hrun
  cases r with
  | error e =>
    -- an error is only allowed by a policy with faults
    obtain ⟨-, hfault⟩ := hr
    rw [ha'.faults] at hfault
    cases hfault
  | ok u =>
    obtain ⟨hm, hcompacted⟩ := hr
    rw [ha.session] at hcompacted
    obtain ⟨outs, ho, hcurrent⟩ := ha'.compacted hcompacted
    refine ⟨rfl, g', outs, hi', ha', ?_, ho, hcurrent⟩
    -- the compaction has given the lock back, and the client never had it
    cases hmutex : w'.mutex with
    | none => rfl
    | some t =>
      cases t with
      | client => exact absurd hmutex ha'.unlocked
      | background => exact absurd hmutex hm

/-! ## Concrete runs -/

/-- A database that compacts after every flush. -/
def drainingConfig : Config :=
  { exampleConfig with options := { bloomBitsPerKey := 1, l0CompactionTrigger := 1 } }

/-- It has flushed one table. -/
def flushedOnce : System :=
  Policy.any.reach (Event.opening drainingConfig 8 ++ Event.calling (.put [1] [2]) 5 ++
    Event.calling .flush 27)

/-- A program for the compaction that is picked in a version, with the given choices for its
    calls. -/
def DB.compactWith {α : Type} (pol : Policy) (body : Compaction → DBE α) (options : Options)
    (chs : List Choice) (w : World) : Option (Except Status α × World) := do
  let c ← (← pickCompaction options w.current)
  (body c).run.evalWith (exec .background) pol.allows chs w

/-- The evaluator follows a run of the program. -/
theorem runs_of_compactWith {α : Type} {body : Compaction → DBE α} {options : Options}
    {chs : List Choice} {r : Except Status α}
    (h : DB.compactWith pol body options chs w = some (r, w')) :
    ∃ c, pickCompaction options w.current = some (some c) ∧
      Runs (exec .background) pol.Allows (body c).run w r w' := by
  -- the two binds of `compactWith`: the pick, and that there is something to compact
  obtain ⟨pick, hpick, hout⟩ := Option.bind_eq_some_iff.mp h
  obtain ⟨c, rfl, hrun⟩ := Option.bind_eq_some_iff.mp hout
  exact ⟨c, hpick, Runs.of_evalWith (fun _ _ _ => Policy.allows_sound) hrun⟩

/-- A run whose outcome passes a test. -/
theorem exists_run_of_compactWith {α : Type} {body : Compaction → DBE α} {options : Options}
    {chs : List Choice} {test : Except Status α × World → Bool}
    (h : (DB.compactWith pol body options chs w).any test = true) :
    ∃ c r w', pickCompaction options w.current = some (some c) ∧
      Runs (exec .background) pol.Allows (body c).run w r w' ∧ test (r, w') = true := by
  obtain ⟨⟨r, w'⟩, hout, htest⟩ := (Option.any_eq_true _ _).mp h
  obtain ⟨c, hpick, hrun⟩ := runs_of_compactWith hout
  exact ⟨c, r, w', hpick, hrun, htest⟩

/-! ## The outputs -/

/-- Tables that hold the newest-wins merge of the inputs of a compaction between them: one behind
    the other their records are in order, a key has the record of the first input that has it, and
    tombstones are left out if and only if there is nothing below. -/
structure MergesInputs (c : Compaction) (outs : List FileMeta) : Prop where
  sorted : Sorted Entry.key (outs.flatMap (·.entries))
  find_eq : ∀ k, find Entry.key k (outs.flatMap (·.entries)) =
    ((c.inputs.findSome? fun f => find Entry.key k f.entries).map Entry.normal).filter
      fun e => !(c.bottommost && e.isTombstone)
  ne_nil : ∀ o ∈ outs, o.entries ≠ []
  before : outs.Pairwise FileMeta.Before

/-- The outputs of the loop are the merge of the inputs. -/
private theorem mergesInputs_of_outs {bits : Int} {c : Compaction} {outs : List FileMeta}
    (h : Outs bits c.bottommost (mergedInputs c) (outs, none)) : MergesInputs c outs := by
  have hentries : outs.flatMap (·.entries) = compacted c := by
    have hrecords := h.records
    simpa [compacted, mergedInputs] using hrecords
  have hsorted : Sorted Entry.key (outs.flatMap (·.entries)) := hentries ▸ sorted_compacted c
  refine ⟨hsorted, fun k => ?_, fun o ho => (h.wf o ho).entries_ne_nil, before_of_sorted h.wf hsorted⟩
  rw [hentries, find_compacted, newestOf, newest, List.findSome?_map]
  rfl

/-- Two tables of L0. The second one deletes a key of the first one. -/
def overlappingTables : System :=
  Policy.any.reach (Event.opening splittingConfig 8 ++ Event.calling (.put [1] [2]) 5 ++
    Event.calling (.put [2] [3]) 5 ++ Event.calling .flush 27 ++ Event.calling (.delete [1]) 5 ++
    Event.calling (.put [3] [4]) 5 ++ Event.calling .flush 27)

/-- A compaction has an input. -/
private theorem Picked.exists_input {v : Version} {c : Compaction} (hp : Picked v c) :
    ∃ f, f ∈ c.inputs := by
  cases hp with
  | l0 lo hi ne_nil =>
    obtain ⟨f, hf⟩ := List.exists_mem_of_ne_nil _ ne_nil
    exact ⟨f, List.mem_append_left _ (List.mem_reverse.mpr hf)⟩
  | deep i chosen rest => exact ⟨chosen, List.mem_cons_self⟩

/-- The inputs of a compaction are gone from the version it is installed in. -/
private theorem Picked.install_ne {v : Version} {c : Compaction} {outs : List FileMeta} (hp : Picked v c)
    (hv : Layout v) (ho : Outputs c v outs) : installCompaction v c outs ≠ v := by
  obtain ⟨chosen, lo, hi, hsite⟩ := hp.site hv.ne_nil hv (.refl _)
  obtain ⟨f, hf⟩ := hp.exists_input
  intro heq
  have hmem : f ∈ (installCompaction v c outs).files := by
    rw [heq]
    exact hsite.mem_inputs hf
  -- an input could only stay as a file that is kept, which is no input, or come back as an output,
  -- which has a number of its own
  rcases hsite.mem_install hv hmem with ⟨-, hne⟩ | hout
  · exact hne f hf rfl
  · exact ho.fresh f hout f (hsite.mem_inputs hf) rfl

/-- A failed compaction leaves the old version in place, and its input files, if and only if it
    fails before it installs its outputs: `current_` has changed by the time `WriteManifest` can
    fail. -/
theorem failed_compaction_keeps_version_iff {s : System} (h : Policy.any.Reachable s)
    (hup : s.process.IsUp) {cfg : Config} {c : Compaction}
    (hpick : pickCompaction cfg.options s.world.current = some (some c)) {e : Status} {w' : World}
    (hrun : Runs (exec .background) Policy.any.Allows (DB.doCompaction cfg c).run
      { s.world with mutex := none } (.error e) w') :
    (w'.current = s.world.current ∧ ∀ f ∈ c.inputs,
        w'.disk.lookup (numberToName f.number) = s.world.disk.lookup (numberToName f.number)) ↔
      Runs (exec .background) Policy.any.Allows (DB.mergeInputs cfg c).run
        { s.world with mutex := none } (.error e) w' := by
  obtain ⟨g, hi, ha⟩ := alone_of_reachable h hup .any
  have hp : Picked s.world.current c := picked_of_pickCompaction hi.layout hpick
  have hwatch := hi.watching hp
  have hmerge := tripleE_mergeInputs cfg (hp.wf_inputs hi.layout)
    (stable_watching (v := s.world.current) (n := g.session.flushes) (c := c)) undisturbed_watching
  constructor
  · intro ⟨hcurrent, _⟩
    rw [doCompaction_eq] at hrun
    -- either the merge has failed or the installation has
    rcases Runs.of_bindE hrun with ⟨e', he, hfailed⟩ | ⟨outs, w₁, hmade, hinstall⟩
    · cases he
      exact hfailed
    · -- the version has changed
      obtain ⟨g₁, hi₁, ha₁, houts, hm₁, hfiles, hwatch₁⟩ := ha.runs hi hmerge ⟨nofun, hwatch⟩ hmade
      obtain ⟨g₂, -, ha₂, -, -, hcompacted⟩ := ha₁.runs hi₁
        (tripleE_installOutputs hp hi.layout.ne_nil houts) ⟨hm₁, hfiles, hwatch₁⟩ hinstall
      obtain ⟨outs', ho, hinstalled⟩ := ha₂.compacted hcompacted
      rw [hcurrent] at hinstalled
      exact absurd hinstalled.symm (hp.install_ne hi.layout ho)
  · intro hfailed
    obtain ⟨g', hi', ha', -, hwatch'⟩ := ha.runs hi hmerge ⟨nofun, hwatch⟩ hfailed
    have hcurrent := ha'.current_eq hwatch'.since
    refine ⟨hcurrent, fun f hf => ?_⟩
    -- the version is the old one, and the files of the current version are on disk unchanged
    have hmem := hp.mem_inputs hi.layout hf
    rw [hi'.current_files f (hcurrent ▸ hmem)]
    exact (hi.current_files f hmem).symm

/-- The output cannot be created. -/
theorem failed_compaction_keeps_version_open :
    let w := { flushedOnce.world with mutex := none }
    ∃ c e w', pickCompaction drainingConfig.options w.current = some (some c) ∧
      Runs (exec .background) Policy.any.Allows (DB.doCompaction drainingConfig c).run w
        (.error e) w' ∧
      w'.current = w.current ∧ ∀ f ∈ c.inputs,
        w'.disk.lookup (numberToName f.number) = w.disk.lookup (numberToName f.number) := by
  intro w
  -- the fifth call, which opens the first output, fails
  have heval : (DB.compactWith .any (DB.mergeInputs drainingConfig) drainingConfig.options
      (List.replicate 4 .ok ++ [.fail "ENOSPC"]) w).any (fun out => !out.1.toBool) = true := by
    decide +kernel
  obtain ⟨c, r, w', hpick, hrun, hbad⟩ := exists_run_of_compactWith heval
  cases r with
  | ok outs => cases hbad
  | error e =>
    have hwhole : Runs (exec .background) Policy.any.Allows
        (DB.doCompaction drainingConfig c).run w (.error e) w' := by
      rw [doCompaction_eq]
      exact Runs.bind hrun (.ret _ _)
    exact ⟨c, e, w', hpick, hwhole, (failed_compaction_keeps_version_iff
      (Policy.reachable_reach _ _) (by decide +kernel) hpick hwhole).mpr hrun⟩

/-- The manifest cannot be renamed: `DoCompaction` fails, and the version has changed. -/
theorem failed_compaction_changes_version :
    let w := { flushedOnce.world with mutex := none }
    ∃ c e w', pickCompaction drainingConfig.options w.current = some (some c) ∧
      Runs (exec .background) Policy.any.Allows (DB.doCompaction drainingConfig c).run w
        (.error e) w' ∧
      w'.current ≠ w.current := by
  intro w
  -- the 21st call is the `rename` of `WriteManifest`; the lock is given back after it
  have heval : (DB.compactWith .any (DB.doCompaction drainingConfig) drainingConfig.options
      (List.replicate 20 .ok ++ [.fail "EIO", .ok]) w).any (fun out => !out.1.toBool &&
        out.2.current.files.map (·.number) != w.current.files.map (·.number)) = true := by
    decide +kernel
  obtain ⟨c, r, w', hpick, hrun, htest⟩ := exists_run_of_compactWith heval
  obtain ⟨hbad, hnumbers⟩ := Bool.and_eq_true_iff.mp htest
  cases r with
  | ok outs => cases hbad
  | error e =>
    refine ⟨c, e, w', hpick, hrun, fun heq => ?_⟩
    rw [heq] at hnumbers
    simp at hnumbers

end Lsmdb
