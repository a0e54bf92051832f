import Mathlib.Logic.Relation

/-!
# Transition systems, their traces and simulations

A transition system shows something with each of its steps, and a trace is what a run has
shown. A simulation matches every step of one system by a run of another that shows the
same; so the traces of the first are traces of the second.

A `Machine` is a transition system that is given by its events. Its runs can be evaluated
from a list of events, if there is a check of which events are permitted.
-/

/-- A transition system. A step shows a list of observations, mostly none or one. -/
structure LTS (σ ε : Type) where
  step : σ → List ε → σ → Prop

namespace LTS

variable {σ τ ε : Type} {A : LTS σ ε} {B : LTS τ ε}

/-- The runs of a system, with what they show. -/
inductive Trace (A : LTS σ ε) (s : σ) : List ε → σ → Prop
  | refl : Trace A s [] s
  | tail {l o : List ε} {s' s'' : σ} (h : Trace A s l s') (hstep : A.step s' o s'') :
    Trace A s (l ++ o) s''

/-- One step is a run. -/
theorem Trace.single {s s' : σ} {o : List ε} (h : A.step s o s') : A.Trace s o s' :=
  .tail .refl h

/-- Runs can be put one behind the other, and so can what they show. -/
theorem Trace.trans {s s' s'' : σ} {l l' : List ε} (h : A.Trace s l s') (h' : A.Trace s' l' s'') :
    A.Trace s (l ++ l') s'' := by
  induction h' with
  | refl => rwa [List.append_nil]
  | tail _ hstep ih =>
    rw [← List.append_assoc]
    exact .tail ih hstep

/-- A run, whatever it shows. -/
def Reaches (A : LTS σ ε) : σ → σ → Prop := Relation.ReflTransGen fun s s' => ∃ o, A.step s o s'

/-- What a run leads to is reached. -/
theorem Trace.reaches {s s' : σ} {l : List ε} (h : A.Trace s l s') : A.Reaches s s' := by
  induction h with
  | refl => exact .refl
  | tail _ hstep ih => exact .tail ih ⟨_, hstep⟩

/-- Every reached state is reached by a run that shows something. -/
theorem Reaches.trace {s s' : σ} (h : A.Reaches s s') : ∃ l, A.Trace s l s' := by
  induction h with
  | refl => exact ⟨[], .refl⟩
  | tail _ hstep ih =>
    obtain ⟨l, hl⟩ := ih
    obtain ⟨o, ho⟩ := hstep
    exact ⟨l ++ o, .tail hl ho⟩

/-- A forward simulation on the states that the first system reaches from `init`. -/
structure Simulation (A : LTS σ ε) (init : σ) (B : LTS τ ε) (R : σ → τ → Prop) : Prop where
  step : ∀ {s s' : σ} {o : List ε} {t : τ}, A.Reaches init s → R s t → A.step s o s' →
    ∃ t', B.Trace t o t' ∧ R s' t'

/-- What the first system shows, the second can show. -/
theorem Simulation.trace {init s : σ} {t : τ} {R : σ → τ → Prop} {l : List ε}
    (h : Simulation A init B R) (hinit : R init t) (hl : A.Trace init l s) :
    ∃ t', B.Trace t l t' ∧ R s t' := by
  -- the second system follows step by step
  induction hl with
  | refl => exact ⟨t, .refl, hinit⟩
  | tail hl hstep ih =>
    obtain ⟨t₁, ht₁, hR⟩ := ih
    obtain ⟨t₂, ht₂, hR'⟩ := h.step hl.reaches hR hstep
    exact ⟨t₂, ht₁.trans ht₂, hR'⟩

end LTS

/-! ## Systems that are given by their events -/

/-- A system whose steps are named by events: which of them are permitted in a state, where they
    lead, and what they show. The check is for runs that are evaluated; it may refuse more. -/
structure Machine (σ α ε : Type) where
  permits : σ → α → Prop
  next : σ → α → Option σ
  shows : σ → α → List ε
  check : σ → α → Bool
  check_sound : ∀ {s e}, check s e = true → permits s e

namespace Machine

variable {σ α ε : Type} (M : Machine σ α ε)

def Step (s s' : σ) : Prop := ∃ e, M.permits s e ∧ M.next s e = some s'

def lts : LTS σ ε where
  step s o s' := ∃ e, M.permits s e ∧ M.next s e = some s' ∧ o = M.shows s e

/-- What a run that is given by its events shows, and where it leads, if all its steps pass the
    test. -/
def run (test : σ → σ → Bool) (s : σ) : List α → Option (List ε × σ)
  | [] => some ([], s)
  | e :: es =>
    if M.check s e then
      (M.next s e).bind fun s' =>
        if test s s' then (run test s' es).map fun (l, s'') => (M.shows s e ++ l, s'') else none
    else none

/-- The state that a run leads to, or the one it begins in if it is not possible. -/
def reach (test : σ → σ → Bool) (s : σ) (es : List α) : σ :=
  ((M.run test s es).map (·.2)).getD s

variable {M} {test : σ → σ → Bool} {s s' : σ} {es : List α} {l : List ε}

/-- The first event of a run. -/
theorem run_cons {e : α} (h : M.run test s (e :: es) = some (l, s')) :
    ∃ s₁ l', M.permits s e ∧ M.next s e = some s₁ ∧ test s s₁ = true ∧ l = M.shows s e ++ l' ∧
      M.run test s₁ es = some (l', s') := by
  rw [run] at h
  split at h
  next hcheck =>
    obtain ⟨s₁, hnext, hrest⟩ := Option.bind_eq_some_iff.mp h
    split at hrest
    next htest =>
      obtain ⟨⟨l', s₂⟩, hrun, heq⟩ := Option.map_eq_some_iff.mp hrest
      cases heq
      exact ⟨s₁, l', M.check_sound hcheck, hnext, htest, rfl, hrun⟩
    next => cases hrest
  next => cases h

/-- A run that can be evaluated is a run of the system. -/
theorem trace_of_run (h : M.run test s es = some (l, s')) : M.lts.Trace s l s' := by
  induction es generalizing s l with
  | nil =>
    cases h
    exact .refl
  | cons e es ih =>
    obtain ⟨s₁, l', hpermits, hnext, -, rfl, hrest⟩ := run_cons h
    exact .trans (.single ⟨e, hpermits, hnext, rfl⟩) (ih hrest)

/-- Each of its steps is permitted and passes the test. -/
theorem steps_of_run (h : M.run test s es = some (l, s')) :
    Relation.ReflTransGen (fun s s' => M.Step s s' ∧ test s s' = true) s s' := by
  induction es generalizing s l with
  | nil =>
    cases h
    exact .refl
  | cons e es ih =>
    obtain ⟨s₁, l', hpermits, hnext, htest, -, hrest⟩ := run_cons h
    exact .head ⟨⟨e, hpermits, hnext⟩, htest⟩ (ih hrest)

/-- The state that `reach` computes is reached by such steps. -/
theorem steps_reach (test : σ → σ → Bool) (s : σ) (es : List α) :
    Relation.ReflTransGen (fun s s' => M.Step s s' ∧ test s s' = true) s (M.reach test s es) := by
  rw [reach]
  -- a run that is not possible leads to where it begins, which takes no steps
  cases h : M.run test s es with
  | none => exact .refl
  | some out => exact steps_of_run h

end Machine
