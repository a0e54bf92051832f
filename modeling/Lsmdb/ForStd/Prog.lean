import Mathlib

/-!
# Programs that make calls, and rely/guarantee reasoning about them

A program returns, is undefined, or makes a call and goes on with its result. The
calls are interpreted on a world by an `exec` function, which takes the choice of the
environment (a short write, a failure) as an argument and returns `none` where the call
blocks. Several programs run on one world by interleaving their calls.

`Safe` says of one program, in such an interleaving, that its calls keep an invariant,
change the world only within the program's guarantee, and that a result satisfies a
postcondition, as long as the other programs keep the invariant and stay within what
this one relies on. The assertions are about the world together with a ghost state,
which a step may change freely. `Triple` states this for all states that satisfy a
precondition; it composes along `bind`.
-/

/-- A program over calls `C`, where call `c` returns an `R c`. -/
inductive Prog (C : Type) (R : C → Type) (α : Type) : Type where
  | ret (a : α)
  | undef
  | call (c : C) (k : R c → Prog C R α)

namespace Prog

variable {C : Type} {R : C → Type} {α β : Type}

def bind (f : α → Prog C R β) : Prog C R α → Prog C R β
  | ret a => f a
  | undef => undef
  | call c k => call c fun r => (k r).bind f

instance : Monad (Prog C R) where
  pure := ret
  bind p f := p.bind f

/-- One call. -/
def lift (c : C) : Prog C R (R c) := call c ret

/-- A computation whose failure is undefined behaviour. -/
def ofOption : Option α → Prog C R α
  | some a => ret a
  | none => undef

@[simp] theorem pure_eq (a : α) : (pure a : Prog C R α) = ret a := rfl

@[simp] theorem ret_bind (a : α) (f : α → Prog C R β) : (ret a >>= f) = f a := rfl

@[simp] theorem undef_bind (f : α → Prog C R β) : ((undef : Prog C R α) >>= f) = undef := rfl

@[simp] theorem call_bind (c : C) (k : R c → Prog C R α) (f : α → Prog C R β) :
    (call c k >>= f) = call c fun r => k r >>= f := rfl

@[simp] theorem ofOption_some (a : α) : (ofOption (some a) : Prog C R α) = ret a := rfl

/-- A program that returns what it has got is unchanged. -/
theorem bind_ret (p : Prog C R α) : (p >>= ret) = p := by
  induction p with
  | ret a => rfl
  | undef => rfl
  | call c k ih =>
    rw [call_bind]
    exact congrArg (call c) (funext ih)

instance : LawfulMonad (Prog C R) :=
  LawfulMonad.mk' _ bind_ret (fun _ _ => rfl) fun p f g => by
    induction p with
    | ret a => rfl
    | undef => rfl
    | call c k ih => exact congrArg (call c) (funext ih)

/-! ## Execution -/

section Exec

variable {W Ch : Type} (exec : (c : C) → Ch → W → Option (R c × W))

/-- One call of the program, with the choice of the environment. -/
def step (ch : Ch) : Prog C R α → W → Option (Prog C R α × W)
  | call c k, w => (exec c ch w).map fun (r, w) => (k r, w)
  | _, _ => none

/-- A whole run without interference, every call with the same choice. -/
def eval (ch : Ch) : Prog C R α → W → Option (α × W)
  | ret a, w => some (a, w)
  | undef, _ => none
  | call c k, w => (exec c ch w).bind fun (r, w) => (k r).eval ch w

variable {exec}

/-- A program is evaluated part by part. -/
theorem eval_bind (ch : Ch) (p : Prog C R α) (f : α → Prog C R β) (w : W) :
    (p >>= f).eval exec ch w = (p.eval exec ch w).bind fun (a, w) => (f a).eval exec ch w := by
  induction p generalizing w with
  | ret a => rfl
  | undef => rfl
  | call c k ih =>
    rw [call_bind, eval, eval]
    -- a call that cannot be made ends both evaluations
    cases exec c ch w with
    | none => rfl
    | some r => exact ih r.1 r.2

@[simp] theorem eval_ret (ch : Ch) (a : α) (w : W) :
    (ret a : Prog C R α).eval exec ch w = some (a, w) := rfl

@[simp] theorem eval_lift (ch : Ch) (c : C) (w : W) : (lift c).eval exec ch w = exec c ch w := by
  rw [lift, eval]
  cases exec c ch w <;> rfl

/-- The run of a program with errors goes on if there is none. -/
theorem eval_bindE {ε : Type} (ch : Ch) (p : ExceptT ε (Prog C R) α)
    (f : α → ExceptT ε (Prog C R) β) (w : W) :
    (p >>= f).run.eval exec ch w = (p.run.eval exec ch w).bind fun
      | (.ok a, w) => (f a).run.eval exec ch w
      | (.error e, w) => some (.error e, w) := by
  show (p.run >>= _).eval exec ch w = _
  rw [eval_bind]
  -- behind the call both sides depend on whether there was an error
  congr 1
  funext r
  obtain ⟨r, w⟩ := r
  cases r <;> rfl

/-- A whole run without interference, with a choice for every call out of those that are allowed. -/
inductive Runs (exec : (c : C) → Ch → W → Option (R c × W)) (ok : C → Ch → W → Prop) :
    Prog C R α → W → α → W → Prop
  | ret (a : α) (w : W) : Runs exec ok (ret a) w a w
  | call {c : C} {k : R c → Prog C R α} {ch : Ch} {w w' w'' : W} {r : R c} {a : α}
    (hok : ok c ch w) (hexec : exec c ch w = some (r, w')) (hrest : Runs exec ok (k r) w' a w'') :
    Runs exec ok (call c k) w a w''

/-- An evaluation is a run, if its choice is always allowed. -/
theorem Runs.of_eval {ok : C → Ch → W → Prop} {ch : Ch} (hok : ∀ c w, ok c ch w)
    {p : Prog C R α} {w w' : W} {a : α} (h : p.eval exec ch w = some (a, w')) :
    Runs exec ok p w a w' := by
  induction p generalizing w with
  | ret a =>
    cases h
    exact .ret _ _
  | undef => cases h
  | call c k ih =>
    obtain ⟨⟨r, w₁⟩, hexec, hrest⟩ := Option.bind_eq_some_iff.mp h
    exact .call (hok c w) hexec (ih r hrest)

/-- A program that runs alone never gets stuck: whatever the allowed choices so far, it has not run
    into undefined behaviour, and its next call can be made with choice `ch`. -/
def Live (exec : (c : C) → Ch → W → Option (R c × W)) (ch : Ch) (ok : C → Ch → W → Prop) :
    Prog C R α → W → Prop
  | ret _, _ => True
  | undef, _ => False
  | call c k, w => (exec c ch w).isSome ∧
    ∀ ch' r w', ok c ch' w → exec c ch' w = some (r, w') → (k r).Live exec ch ok w'

/-- Run a program alone, with the given choices for its calls, which have to pass a test. -/
def evalWith (exec : (c : C) → Ch → W → Option (R c × W)) (test : C → Ch → W → Bool) :
    List Ch → Prog C R α → W → Option (α × W)
  | _, ret a, w => some (a, w)
  | _, undef, _ => none
  | [], call _ _, _ => none
  | ch :: chs, call c k, w =>
    if test c ch w then (exec c ch w).bind fun (r, w) => (k r).evalWith exec test chs w else none

/-- No choices are needed at the end. -/
theorem evalWith_ret (test : C → Ch → W → Bool) (chs : List Ch) (a : α) (w : W) :
    (ret a : Prog C R α).evalWith exec test chs w = some (a, w) := by
  cases chs <;> rfl

/-- An evaluation with given choices is a run, if the test lets only allowed choices pass. -/
theorem Runs.of_evalWith {test : C → Ch → W → Bool} {ok : C → Ch → W → Prop}
    (hok : ∀ c ch w, test c ch w = true → ok c ch w) {chs : List Ch} {p : Prog C R α} {w w' : W}
    {a : α} (h : p.evalWith exec test chs w = some (a, w')) : Runs exec ok p w a w' := by
  induction p generalizing w chs with
  | ret a => cases chs <;> cases h <;> exact .ret _ _
  | undef => cases chs <;> cases h
  | call c k ih =>
    cases chs with
    | nil => cases h
    | cons ch chs =>
      rw [evalWith] at h
      -- the choice has passed the test, so the call is allowed
      split at h
      next htest =>
        obtain ⟨⟨r, w₁⟩, hexec, hrest⟩ := Option.bind_eq_some_iff.mp h
        exact .call (hok c ch w htest) hexec (ih r hrest)
      next => cases h

/-- A run of two programs in sequence. -/
theorem Runs.of_bind {ok : C → Ch → W → Prop} {p : Prog C R α} {f : α → Prog C R β} {w w' : W}
    {b : β} (h : Runs exec ok (p >>= f) w b w') :
    ∃ a w₁, Runs exec ok p w a w₁ ∧ Runs exec ok (f a) w₁ b w' := by
  induction p generalizing w with
  | ret a => exact ⟨a, w, .ret a w, h⟩
  | undef => cases h
  | call c k ih =>
    cases h with
    | call hok hexec hrest =>
      obtain ⟨a, w₁, hp, hf⟩ := ih _ hrest
      exact ⟨a, w₁, .call hok hexec hp, hf⟩

/-- Runs of two programs make a run of both in sequence. -/
theorem Runs.bind {ok : C → Ch → W → Prop} {p : Prog C R α} {f : α → Prog C R β} {w w₁ w' : W}
    {a : α} {b : β} (hp : Runs exec ok p w a w₁) (hf : Runs exec ok (f a) w₁ b w') :
    Runs exec ok (p >>= f) w b w' := by
  induction hp with
  | ret a w => exact hf
  | call hok hexec _ ih => exact .call hok hexec (ih hf)

/-- A run stays one if more is allowed. -/
theorem Runs.mono {ok ok' : C → Ch → W → Prop} (hok : ∀ c ch w, ok c ch w → ok' c ch w)
    {p : Prog C R α} {w w' : W} {a : α} (h : Runs exec ok p w a w') : Runs exec ok' p w a w' := by
  induction h with
  | ret a w => exact .ret a w
  | call hallowed hexec _ ih => exact .call (hok _ _ _ hallowed) hexec ih

/-- A program that can end with an error goes on if there is none. -/
theorem Runs.bindE {ε : Type} {ok : C → Ch → W → Prop} {p : ExceptT ε (Prog C R) α}
    {f : α → ExceptT ε (Prog C R) β} {w w₁ w' : W} {a : α} {b : Except ε β}
    (hp : Runs exec ok p.run w (.ok a) w₁) (hf : Runs exec ok (f a).run w₁ b w') :
    Runs exec ok (p >>= f).run w b w' := by
  show Runs exec ok (p.run >>= ExceptT.bindCont f) w b w'
  exact Runs.bind hp hf

/-- A program that ends with an error does not go on. -/
theorem Runs.bindE_error {ε : Type} {ok : C → Ch → W → Prop} {p : ExceptT ε (Prog C R) α}
    {f : α → ExceptT ε (Prog C R) β} {w w' : W} {e : ε} (hp : Runs exec ok p.run w (.error e) w') :
    Runs exec ok (p >>= f).run w (.error e) w' := by
  show Runs exec ok (p.run >>= ExceptT.bindCont f) w (.error e) w'
  exact Runs.bind hp (.ret _ _)

/-- A run of two programs that can end with an error. -/
theorem Runs.of_bindE {ε : Type} {ok : C → Ch → W → Prop} {p : ExceptT ε (Prog C R) α}
    {f : α → ExceptT ε (Prog C R) β} {w w' : W} {b : Except ε β}
    (h : Runs exec ok (p >>= f).run w b w') :
    (∃ e, b = .error e ∧ Runs exec ok p.run w (.error e) w') ∨
      ∃ a w₁, Runs exec ok p.run w (.ok a) w₁ ∧ Runs exec ok (f a).run w₁ b w' := by
  obtain ⟨r, w₁, hp, hrest⟩ := Runs.of_bind h
  cases r with
  | error e =>
    cases hrest
    exact .inl ⟨e, rfl, hp⟩
  | ok a => exact .inr ⟨a, w₁, hp, hrest⟩

/-- Every call that the program can make has the property. -/
def All (P : C → Prop) : Prog C R α → Prop
  | ret _ => True
  | undef => True
  | call c k => P c ∧ ∀ r, (k r).All P

/-- The calls of two programs in sequence are those of the one and of the other. -/
theorem All.bind {P : C → Prop} {p : Prog C R α} {f : α → Prog C R β} (h : p.All P)
    (hf : ∀ a, (f a).All P) : (p >>= f).All P := by
  induction p with
  | ret a => exact hf a
  | undef => trivial
  | call c k ih => exact ⟨h.1, fun r => ih r (h.2 r)⟩

/-- A property of the world that every call keeps is kept by every run. -/
theorem Runs.keeps {ok : C → Ch → W → Prop} {P : C → Prop} {I : W → Prop}
    (hkeep : ∀ c ch w r w', P c → exec c ch w = some (r, w') → I w → I w')
    {p : Prog C R α} {w w' : W} {a : α} (h : Runs exec ok p w a w') (hp : p.All P) (hI : I w) :
    I w' := by
  induction h with
  | ret a w => exact hI
  | call hok hexec _ ih => exact ih (hp.2 _) (hkeep _ _ _ _ _ hp.1 hexec hI)

/-- A program that never gets stuck runs to its end. -/
theorem Live.exists_run {ok : C → Ch → W → Prop} {ch : Ch} (hok : ∀ c w, ok c ch w)
    {p : Prog C R α} {w : W} (h : p.Live exec ch ok w) : ∃ a w', Runs exec ok p w a w' := by
  induction p generalizing w with
  | ret a => exact ⟨a, w, .ret a w⟩
  | undef => exact h.elim
  | call c k ih =>
    -- the next call can be made, and behind it the program is live again
    obtain ⟨⟨r, w₁⟩, hexec⟩ := Option.isSome_iff_exists.mp h.1
    obtain ⟨a, w', hrest⟩ := ih r (h.2 ch r w₁ (hok c w) hexec)
    exact ⟨a, w', .call (hok c w) hexec hrest⟩

/-- A run that ends in undefined behaviour. -/
inductive Crashes (exec : (c : C) → Ch → W → Option (R c × W)) (ok : C → Ch → W → Prop) :
    Prog C R α → W → W → Prop
  | undef (w : W) : Crashes exec ok undef w w
  | call {c : C} {k : R c → Prog C R α} {ch : Ch} {w w' w'' : W} {r : R c}
    (hok : ok c ch w) (hexec : exec c ch w = some (r, w')) (hrest : Crashes exec ok (k r) w' w'') :
    Crashes exec ok (call c k) w w''

/-- A program that never gets stuck does not run into undefined behaviour. -/
theorem Live.not_crashes {ok : C → Ch → W → Prop} {ch : Ch} {p : Prog C R α} {w w' : W}
    (h : p.Live exec ch ok w) : ¬ Crashes exec ok p w w' := by
  intro hcrash
  induction hcrash with
  | undef w => exact h
  | call hok hexec _ ih => exact ih (h.2 _ _ _ hok hexec)

/-- Two programs in sequence crash in the first one, or in the second one behind a run of the first.
    -/
theorem Crashes.of_bind {ok : C → Ch → W → Prop} {p : Prog C R α} {f : α → Prog C R β} {w w' : W}
    (h : Crashes exec ok (p >>= f) w w') :
    Crashes exec ok p w w' ∨ ∃ a w₁, Runs exec ok p w a w₁ ∧ Crashes exec ok (f a) w₁ w' := by
  induction p generalizing w with
  | ret a => exact .inr ⟨a, w, .ret a w, h⟩
  | undef =>
    cases h
    exact .inl (.undef _)
  | call c k ih =>
    cases h with
    | call hok hexec hrest =>
      -- the call belongs to the first program, whichever of the two crashes
      rcases ih _ hrest with hfirst | ⟨a, w₁, hp, hf⟩
      · exact .inl (.call hok hexec hfirst)
      · exact .inr ⟨a, w₁, .call hok hexec hp, hf⟩

/-- A property of the world that every call keeps holds where a run crashes. -/
theorem Crashes.keeps {ok : C → Ch → W → Prop} {P : C → Prop} {I : W → Prop}
    (hkeep : ∀ c ch w r w', P c → exec c ch w = some (r, w') → I w → I w')
    {p : Prog C R α} {w w' : W} (h : Crashes exec ok p w w') (hp : p.All P) (hI : I w) : I w' := by
  induction h with
  | undef w => exact hI
  | call _ hexec _ ih => exact ih (hp.2 _) (hkeep _ _ _ _ _ hp.1 hexec hI)

/-! ### Runs within narrower bounds -/

/-- What `ok` allows along the runs of the program is also allowed by `ok'`, and a result satisfies
    `Q`. Undefined behaviour is not excluded. -/
def Within (exec : (c : C) → Ch → W → Option (R c × W)) (ok ok' : C → Ch → W → Prop) :
    Prog C R α → (α → W → Prop) → W → Prop
  | ret a, Q, w => Q a w
  | undef, _, _ => True
  | call c k, Q, w => ∀ ch r w', ok c ch w → exec c ch w = some (r, w') →
      ok' c ch w ∧ (k r).Within exec ok ok' Q w'

section Within

variable {ok ok' : C → Ch → W → Prop} {p : Prog C R α} {Q Q' : α → W → Prop} {w w' : W}

/-- A weaker postcondition. -/
theorem Within.mono (h : p.Within exec ok ok' Q w) (hQ : ∀ a w, Q a w → Q' a w) :
    p.Within exec ok ok' Q' w := by
  induction p generalizing w with
  | ret a => exact hQ a w h
  | undef => trivial
  | call c k ih =>
    intro ch r w' hok hexec
    exact (h ch r w' hok hexec).imp_right (ih r)

/-- The second program has to stay within the bounds from wherever the first one ends. -/
theorem within_bind {f : α → Prog C R β} {S : β → W → Prop} :
    (p >>= f).Within exec ok ok' S w ↔
      p.Within exec ok ok' (fun a w => (f a).Within exec ok ok' S w) w := by
  induction p generalizing w with
  | ret a => rfl
  | undef => rfl
  | call c k ih =>
    exact forall₃_congr fun ch r w' => forall₂_congr fun _ _ => and_congr_right fun _ => ih r

/-- Calls that are always within the bounds, and an assertion that they keep. -/
theorem Within.of_all {P : C → Prop} {I : W → Prop} (hall : p.All P)
    (hok : ∀ c ch w, P c → ok c ch w → ok' c ch w)
    (hkeep : ∀ c ch w r w', P c → exec c ch w = some (r, w') → I w → I w') (hI : I w) :
    p.Within exec ok ok' (fun _ w => I w) w := by
  induction p generalizing w with
  | ret a => exact hI
  | undef => trivial
  | call c k ih =>
    intro ch r w' hallowed hexec
    exact ⟨hok c ch w hall.1 hallowed, ih r (hall.2 r) (hkeep c ch w r w' hall.1 hexec hI)⟩

/-- A run is within the bounds, and its result satisfies the postcondition. -/
theorem Within.runs {a : α} (h : p.Within exec ok ok' Q w) (hr : Runs exec ok p w a w') :
    Runs exec ok' p w a w' ∧ Q a w' := by
  induction hr with
  | ret a w => exact ⟨.ret a w, h⟩
  | call hok hexec _ ih =>
    obtain ⟨hok', hrest⟩ := h _ _ _ hok hexec
    obtain ⟨hr, hQ⟩ := ih hrest
    exact ⟨.call hok' hexec hr, hQ⟩

/-- What is known of the runs within the bounds can be assumed. -/
theorem Within.and_runs (h : p.Within exec ok ok' Q w)
    (hruns : ∀ a w', Runs exec ok' p w a w' → Q' a w') :
    p.Within exec ok ok' (fun a w => Q a w ∧ Q' a w) w := by
  induction p generalizing w with
  | ret a => exact ⟨h, hruns a w (.ret a w)⟩
  | undef => trivial
  | call c k ih =>
    intro ch r w' hok hexec
    obtain ⟨hok', hrest⟩ := h ch r w' hok hexec
    exact ⟨hok', ih r hrest fun a w'' hrun => hruns a w'' (.call hok' hexec hrun)⟩

/-- If it never gets stuck within the bounds, it never gets stuck. -/
theorem Within.live {ch : Ch} (h : p.Within exec ok ok' Q w) (hlive : p.Live exec ch ok' w) :
    p.Live exec ch ok w := by
  induction p generalizing w with
  | ret a => trivial
  | undef => exact hlive
  | call c k ih =>
    refine ⟨hlive.1, fun ch' r w' hok hexec => ?_⟩
    obtain ⟨hok', hrest⟩ := h ch' r w' hok hexec
    exact ih r hrest (hlive.2 ch' r w' hok' hexec)

end Within

end Exec

end Prog

/-- What a program and its surroundings owe each other: an invariant, the steps of the others
    that the program tolerates, the steps that it takes, the outcomes of a call that it is
    prepared for, and what it ensures before it makes a call. -/
structure Contract (C Ch G W : Type) where
  inv : G → W → Prop
  rely : G → W → G → W → Prop
  guar : G → W → G → W → Prop
  allow : C → Ch → G → W → Prop
  demand : C → G → W → Prop
  rely_refl : ∀ g w, rely g w g w
  rely_trans : ∀ {g₁ w₁ g₂ w₂ g₃ w₃}, rely g₁ w₁ g₂ w₂ → rely g₂ w₂ g₃ w₃ → rely g₁ w₁ g₃ w₃

/-- The same contract with another guarantee. -/
def Contract.withGuar {C Ch G W : Type} (K : Contract C Ch G W) (guar : G → W → G → W → Prop) :
    Contract C Ch G W :=
  { K with guar := guar }

/-- The contract of a program that runs alone. -/
def Contract.alone (C Ch W : Type) : Contract C Ch Unit W where
  inv _ _ := True
  rely _ w _ w' := w' = w
  guar _ _ _ _ := True
  allow _ _ _ _ := True
  demand _ _ _ := True
  rely_refl _ _ := rfl
  rely_trans h h' := h'.trans h

namespace Prog

variable {C : Type} {R : C → Type} {α β G W Ch : Type}
variable (exec : (c : C) → Ch → W → Option (R c × W)) (K : Contract C Ch G W)

/-- The program is safe from the given state, with postcondition `Q`. -/
def Safe : Prog C R α → (α → G → W → Prop) → G → W → Prop
  | ret a, Q, g, w => Q a g w
  | undef, _, _, _ => False
  | call c k, Q, g, w => ∀ g' w', K.rely g w g' w' → K.inv g' w' → K.demand c g' w' ∧
      ∀ ch r w'', K.allow c ch g' w' → exec c ch w' = some (r, w'') →
        ∃ g'', K.guar g' w' g'' w'' ∧ K.inv g'' w'' ∧ (k r).Safe Q g'' w''

/-- An assertion that the steps of the others keep. -/
def Stable (P : G → W → Prop) : Prop :=
  ∀ g w g' w', K.rely g w g' w' → K.inv g' w' → P g w → P g' w'

/-- The program is safe from every state that satisfies the precondition. -/
def Triple (P : G → W → Prop) (p : Prog C R α) (Q : α → G → W → Prop) : Prop :=
  ∀ g w, K.inv g w → P g w → p.Safe exec K Q g w

variable {exec K} {p : Prog C R α} {Q : α → G → W → Prop} {g g' : G} {w w' : W}

/-- Safety survives the steps of the others. -/
theorem Safe.interfere (hQ : ∀ a, Stable K (Q a)) (h : p.Safe exec K Q g w)
    (hr : K.rely g w g' w') (hi : K.inv g' w') : p.Safe exec K Q g' w' := by
  cases p with
  -- at the end the postcondition has to be stable
  | ret a => exact hQ a g w g' w' hr hi h
  | undef => exact h
  -- before a call the interference is part of what the call tolerates
  | call c k => exact fun g'' w'' hr' hi' => h g'' w'' (K.rely_trans hr hr') hi'

/-- One call of a safe program keeps the invariant and the guarantee, and leaves a safe program. -/
theorem Safe.step {ch : Ch} {p' : Prog C R α} (h : p.Safe exec K Q g w) (hi : K.inv g w)
    (hallow : ∀ c k, p = call c k → K.allow c ch g w) (hs : p.step exec ch w = some (p', w')) :
    ∃ g', K.guar g w g' w' ∧ K.inv g' w' ∧ p'.Safe exec K Q g' w' := by
  cases p with
  | ret a => cases hs
  | undef => cases hs
  | call c k =>
    rw [Prog.step, Option.map_eq_some_iff] at hs
    obtain ⟨⟨r, w''⟩, hexec, heq⟩ := hs
    cases heq
    exact (h g w (K.rely_refl g w) hi).2 ch r _ (hallow c k rfl) hexec

/-- A safe program meets the demand of the call that it is about to make. -/
theorem Safe.demand {c : C} {k : R c → Prog C R α} (h : (call c k).Safe exec K Q g w)
    (hi : K.inv g w) : K.demand c g w :=
  (h g w (K.rely_refl g w) hi).1

/-- A safe program whose demands include that a call is possible runs to its end. -/
theorem Safe.eval (ok : Ch) (h : p.Safe exec K Q g w) (hi : K.inv g w)
    (hok : ∀ c g w, K.inv g w → K.demand c g w → K.allow c ok g w ∧ (exec c ok w).isSome) :
    ∃ a g' w', p.eval exec ok w = some (a, w') ∧ K.inv g' w' ∧ Q a g' w' := by
  induction p generalizing g w with
  | ret a => exact ⟨a, g, w, rfl, hi, h⟩
  | undef => exact h.elim
  | call c k ih =>
    -- nobody interferes before the call, so the demand is met in the state that there is
    obtain ⟨hdemand, hcall⟩ := h g w (K.rely_refl g w) hi
    obtain ⟨hallow, hsome⟩ := hok c g w hi hdemand
    obtain ⟨⟨r, w'⟩, hexec⟩ := Option.isSome_iff_exists.mp hsome
    obtain ⟨g', -, hi', hsafe⟩ := hcall ok r w' hallow hexec
    obtain ⟨a, g'', w'', heval, hinv, hQ⟩ := ih r hsafe hi'
    refine ⟨a, g'', w'', ?_, hinv, hQ⟩
    rw [Prog.eval, hexec]
    exact heval

/-- A run of a safe program, for an assertion that the guarantee keeps. -/
theorem Safe.runs {ok : C → Ch → W → Prop} {J : G → W → Prop} {a : α} (h : p.Safe exec K Q g w)
    (hi : K.inv g w) (hJ : J g w)
    (hok : ∀ c ch g w, K.inv g w → J g w → ok c ch w → K.allow c ch g w)
    (hkeep : ∀ g w g' w', K.guar g w g' w' → J g w → J g' w') (hr : Runs exec ok p w a w') :
    ∃ g', K.inv g' w' ∧ J g' w' ∧ Q a g' w' := by
  induction hr generalizing g with
  | ret a w => exact ⟨g, hi, hJ, h⟩
  | call hallow hexec _ ih =>
    obtain ⟨-, hcall⟩ := h g _ (K.rely_refl _ _) hi
    obtain ⟨g', hguar, hi', hsafe⟩ := hcall _ _ _ (hok _ _ _ _ hi hJ hallow) hexec
    exact ih hsafe hi' (hkeep _ _ _ _ hguar hJ)

/-- A safe program is live if what it demands of a call makes the call possible. -/
theorem Safe.live {ok : C → Ch → W → Prop} {J : G → W → Prop} {ch : Ch} (h : p.Safe exec K Q g w)
    (hi : K.inv g w) (hJ : J g w)
    (hok : ∀ c ch g w, K.inv g w → J g w → ok c ch w → K.allow c ch g w)
    (hkeep : ∀ g w g' w', K.guar g w g' w' → J g w → J g' w')
    (hcan : ∀ c g w, K.inv g w → J g w → K.demand c g w → (exec c ch w).isSome) :
    p.Live exec ch ok w := by
  induction p generalizing g w with
  | ret a => trivial
  | undef => exact h
  | call c k ih =>
    obtain ⟨hdemand, hcall⟩ := h g w (K.rely_refl g w) hi
    refine ⟨hcan c g w hi hJ hdemand, fun ch' r w' hallow hexec => ?_⟩
    obtain ⟨g', hguar, hi', hsafe⟩ := hcall ch' r w' (hok c ch' g w hi hJ hallow) hexec
    exact ih r hsafe hi' (hkeep g w g' w' hguar hJ)

/-- A weaker postcondition. -/
theorem Safe.mono {Q' : α → G → W → Prop} (hi : K.inv g w) (h : p.Safe exec K Q g w)
    (hQ : ∀ a g w, K.inv g w → Q a g w → Q' a g w) : p.Safe exec K Q' g w := by
  induction p generalizing g w with
  | ret a => exact hQ a g w hi h
  | undef => exact h
  | call c k ih =>
    intro g' w' hr hi'
    obtain ⟨hdemand, hcall⟩ := h g' w' hr hi'
    refine ⟨hdemand, fun ch r w'' hallow hexec => ?_⟩
    obtain ⟨g'', hguar, hinv, hsafe⟩ := hcall ch r w'' hallow hexec
    exact ⟨g'', hguar, hinv, ih r hinv hsafe⟩

/-- The second program has to be safe from wherever the first one ends. -/
theorem Safe.bind {f : α → Prog C R β} {Q' : β → G → W → Prop} (hi : K.inv g w)
    (h : p.Safe exec K Q g w)
    (hf : ∀ a g w, K.inv g w → Q a g w → (f a).Safe exec K Q' g w) :
    (p >>= f).Safe exec K Q' g w := by
  induction p generalizing g w with
  | ret a => exact hf a g w hi h
  | undef => exact h
  | call c k ih =>
    intro g' w' hr hi'
    obtain ⟨hdemand, hcall⟩ := h g' w' hr hi'
    refine ⟨hdemand, fun ch r w'' hallow hexec => ?_⟩
    obtain ⟨g'', hguar, hinv, hsafe⟩ := hcall ch r w'' hallow hexec
    exact ⟨g'', hguar, hinv, ih r hinv hsafe⟩

/-! ## Triples -/

variable {P P' : G → W → Prop}

/-- Two assertions that the others keep, together. -/
theorem Stable.and (h : Stable K P) (h' : Stable K P') : Stable K fun g w => P g w ∧ P' g w :=
  fun g w g' w' hr hi ⟨hP, hP'⟩ => ⟨h g w g' w' hr hi hP, h' g w g' w' hr hi hP'⟩

/-- The rule of consequence. The invariant can be assumed for both implications. -/
theorem Triple.conseq {S : α → G → W → Prop} (h : Triple exec K P p Q)
    (hP : ∀ g w, K.inv g w → P' g w → P g w) (hQ : ∀ a g w, K.inv g w → Q a g w → S a g w) :
    Triple exec K P' p S :=
  fun g w hi hP' => (h g w hi (hP g w hi hP')).mono hi hQ

/-- The rule of sequential composition. -/
theorem Triple.bind {f : α → Prog C R β} {Q' : β → G → W → Prop} (h : Triple exec K P p Q)
    (hf : ∀ a, Triple exec K (Q a) (f a) Q') : Triple exec K P (p >>= f) Q' :=
  fun g w hi hP => Safe.bind hi (h g w hi hP) fun a g w hi hQ => hf a g w hi hQ

/-- The rule of a program that has come to its end. -/
theorem Triple.ret {a : α} (h : ∀ g w, K.inv g w → P g w → Q a g w) :
    Triple exec K P (Prog.ret a) Q :=
  h

/-- A call, from a precondition that the others keep. -/
theorem Triple.lift {c : C} {Q : R c → G → W → Prop} (hP : Stable K P)
    (hdemand : ∀ g w, K.inv g w → P g w → K.demand c g w)
    (h : ∀ g w, K.inv g w → P g w → ∀ ch r w', K.allow c ch g w → exec c ch w = some (r, w') →
      ∃ g', K.guar g w g' w' ∧ K.inv g' w' ∧ Q r g' w') :
    Triple exec K P (Prog.lift c) Q :=
  fun g w _ hPg g' w' hr hi =>
    ⟨hdemand g' w' hi (hP g w g' w' hr hi hPg), h g' w' hi (hP g w g' w' hr hi hPg)⟩

/-- A precondition that is a fact about values and not about the state. -/
theorem Triple.pre {F : Prop} (h : F → Triple exec K P p Q) :
    Triple exec K (fun g w => F ∧ P g w) p Q :=
  fun g w hi ⟨hF, hP⟩ => h hF g w hi hP

/-- A fact about values that follows from the precondition. -/
theorem Triple.fact {F : Prop} (hF : ∀ g w, K.inv g w → P g w → F)
    (h : F → Triple exec K P p Q) : Triple exec K P p Q :=
  fun g w hi hP => h (hF g w hi hP) g w hi hP

/-- A precondition that holds for some value. -/
theorem Triple.exists {γ : Type*} {P : γ → G → W → Prop}
    (h : ∀ x, Triple exec K (P x) p Q) :
    Triple exec K (fun g w => ∃ x, P x g w) p Q :=
  fun g w hi ⟨x, hP⟩ => h x g w hi hP

/-- A program whose steps all stay within a narrower guarantee leaves alone what the narrower
    guarantee leaves alone. -/
theorem Triple.frame {guar : G → W → G → W → Prop} {S : G → W → Prop}
    (h : Triple exec (K.withGuar guar) P p Q)
    (hguar : ∀ g w g' w', K.inv g w → K.inv g' w' → guar g w g' w' → K.guar g w g' w')
    (hS : Stable K S)
    (hkeep : ∀ g w g' w', K.inv g' w' → guar g w g' w' → S g w → S g' w') :
    Triple exec K (fun g w => P g w ∧ S g w) p fun a g w => Q a g w ∧ S g w := by
  intro g w hi hPS
  have hsafe := h g w hi hPS.1
  have hSgw := hPS.2
  clear hPS h
  induction p generalizing g w with
  | ret a => exact ⟨hsafe, hSgw⟩
  | undef => exact hsafe
  | call c k ih =>
    intro g' w' hr hi'
    obtain ⟨hdemand, hcall⟩ := hsafe g' w' hr hi'
    refine ⟨hdemand, fun ch r w'' hallow hexec => ?_⟩
    obtain ⟨g'', hg, hinv, hnext⟩ := hcall ch r w'' hallow hexec
    -- the frame survives the interference before the call and the call itself
    refine ⟨g'', hguar _ _ _ _ hi' hinv hg, hinv, ih r g'' w'' hinv hnext ?_⟩
    exact hkeep g' w' g'' w'' hinv hg (hS g w g' w' hr hi' hSgw)

/-- Nobody interferes with a program that runs alone. -/
theorem Stable.alone {C Ch W : Type} (P : Unit → W → Prop) : Stable (Contract.alone C Ch W) P := by
  rintro g w g' w' rfl _ h
  exact h

/-- A fact that is not about the state. -/
theorem Stable.const (F : Prop) : Stable K fun _ _ => F := fun _ _ _ _ _ _ h => h

/-! ## Programs with errors -/

section Except

variable {ε : Type}

/-- The calls of two programs in sequence, of which the first can end with an error. -/
theorem All.bindE {P : C → Prop} {q : ExceptT ε (Prog C R) α} {f : α → ExceptT ε (Prog C R) β}
    (h : q.run.All P) (hf : ∀ a, (f a).run.All P) : (q >>= f).run.All P := by
  apply All.bind h
  intro r
  cases r with
  | ok a => exact hf a
  | error e => trivial

/-- A condition for results and one for errors. -/
def ending {σ : Type} (Q : α → σ → Prop) (E : ε → σ → Prop) : Except ε α → σ → Prop
  | .ok a => Q a
  | .error e => E e

/-- A program that can end with an error goes on if there is none. -/
theorem within_bindE {ok ok' : C → Ch → W → Prop} {q : ExceptT ε (Prog C R) α}
    {f : α → ExceptT ε (Prog C R) β} {S : Except ε β → W → Prop} {w : W} :
    (q >>= f).run.Within exec ok ok' S w ↔ q.run.Within exec ok ok'
      (ending (fun a => (f a).run.Within exec ok ok' S) fun e => S (.error e)) w := by
  show (q.run >>= _).Within exec ok ok' S w ↔ _
  rw [within_bind]
  constructor <;> refine fun h => h.mono fun r w hr => ?_ <;> cases r <;> exact hr

/-- A loop over a list, with an invariant that knows what is left of the list. -/
theorem within_foldlM {ok ok' : C → Ch → W → Prop} {I : α → List β → W → Prop} {E : ε → W → Prop}
    {f : α → β → ExceptT ε (Prog C R) α}
    (hf : ∀ a b l w, I a (b :: l) w →
      (f a b).run.Within exec ok ok' (ending (fun a' => I a' l) E) w)
    {a : α} {l : List β} {w : W} (h : I a l w) :
    (l.foldlM f a).run.Within exec ok ok' (ending (fun a' => I a' []) E) w := by
  induction l generalizing a w with
  | nil => exact h
  | cons b l ih =>
    rw [List.foldlM_cons]
    refine within_bindE.mpr ((hf a b l w h).mono fun r w hr => ?_)
    cases r with
    | ok a' => exact ih hr
    | error e => exact hr

/-- A postcondition for results and one for errors. -/
def outcome (Q : α → G → W → Prop) (E : ε → G → W → Prop) : Except ε α → G → W → Prop
  | .ok a => Q a
  | .error e => E e

variable (exec K) in
/-- A triple for a program that can end with an error, with a postcondition for that case. -/
def TripleE (P : G → W → Prop) (p : ExceptT ε (Prog C R) α) (Q : α → G → W → Prop)
    (E : ε → G → W → Prop) : Prop :=
  Triple exec K P p.run (outcome Q E)

variable {q : ExceptT ε (Prog C R) α} {E : ε → G → W → Prop}

/-- The rule of sequential composition: an error of the first program is one of both. -/
theorem TripleE.bind {f : α → ExceptT ε (Prog C R) β} {Q' : β → G → W → Prop}
    (h : TripleE exec K P q Q E) (hf : ∀ a, TripleE exec K (Q a) (f a) Q' E) :
    TripleE exec K P (q >>= f) Q' E := by
  apply Triple.bind h
  intro r
  cases r with
  | ok a => exact hf a
  | error e => exact Triple.ret fun g w _ hE => hE

/-- The rule of a program that has come to its end without an error. -/
theorem TripleE.ret {a : α} (h : ∀ g w, K.inv g w → P g w → Q a g w) :
    TripleE exec K P (Pure.pure a) Q E :=
  Triple.ret h

/-- The rule of a program that ends with an error. -/
theorem TripleE.throw {e : ε} (h : ∀ g w, K.inv g w → P g w → E e g w) :
    TripleE exec K P (MonadExcept.throw e) Q E :=
  Triple.ret h

/-- A program without errors. -/
theorem TripleE.lift (h : Triple exec K P p Q) :
    TripleE exec K P (ExceptT.lift p) Q E := by
  apply Triple.bind h
  exact fun a => Triple.ret fun g w _ hQ => hQ

/-- The rule of consequence. -/
theorem TripleE.conseq {S : α → G → W → Prop} {E' : ε → G → W → Prop}
    (h : TripleE exec K P q Q E) (hP : ∀ g w, K.inv g w → P' g w → P g w)
    (hQ : ∀ a g w, K.inv g w → Q a g w → S a g w)
    (hE : ∀ e g w, K.inv g w → E e g w → E' e g w) : TripleE exec K P' q S E' := by
  apply Triple.conseq h hP
  intro r
  cases r with
  | ok a => exact hQ a
  | error e => exact hE e

/-- The frame rule, for results and for errors. -/
theorem TripleE.frame {guar : G → W → G → W → Prop} {S : G → W → Prop}
    (h : TripleE exec (K.withGuar guar) P q Q E)
    (hguar : ∀ g w g' w', K.inv g w → K.inv g' w' → guar g w g' w' → K.guar g w g' w')
    (hS : Stable K S)
    (hkeep : ∀ g w g' w', K.inv g' w' → guar g w g' w' → S g w → S g' w') :
    TripleE exec K (fun g w => P g w ∧ S g w) q (fun a g w => Q a g w ∧ S g w)
      fun e g w => E e g w ∧ S g w := by
  apply Triple.conseq (Triple.frame h hguar hS hkeep) fun g w _ h => h
  intro r
  cases r with
  | ok a => exact fun g w _ h => h
  | error e => exact fun g w _ h => h

/-- A loop over a list, with an invariant on what it has done. -/
theorem TripleE.foldlM {I : List β → α → G → W → Prop} {f : α → β → ExceptT ε (Prog C R) α}
    {l : List β} (hf : ∀ pre b post a, pre ++ b :: post = l →
      TripleE exec K (I pre a) (f a b) (I (pre ++ [b])) E) (a : α) :
    TripleE exec K (I [] a) (l.foldlM f a) (I l) E := by
  -- the induction is on what is left of the list; the invariant is about what is done
  have hloop : ∀ rest pre a, pre ++ rest = l →
      TripleE exec K (I pre a) (rest.foldlM f a) (I l) E := by
    intro rest
    induction rest with
    | nil =>
      intro pre a hl
      rw [List.append_nil] at hl
      rw [List.foldlM_nil, hl]
      exact TripleE.ret fun g w _ h => h
    | cons b rest ih =>
      intro pre a hl
      rw [List.foldlM_cons]
      apply TripleE.bind (hf pre b rest a hl)
      exact fun a' => ih (pre ++ [b]) a' (by rw [List.append_assoc, List.singleton_append, hl])
  exact hloop l [] a rfl

end Except

end Prog
