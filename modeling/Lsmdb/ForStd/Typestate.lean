import Lsmdb.ForStd.Prog

/-!
# Programs as parts of others, and typestates

A program over some calls is a program over any calls that include them (`Prog.via`).

What a program may call can depend on what it has called before and on what that
returned. A `Typestate` is an automaton over calls and their results that says so, and
`Prog.Follows` says that a program keeps to it, whatever its calls return. Unlike
`Prog.Safe` this speaks of one program alone: there is no world and no other program, and
undefined behaviour is not excluded.
-/

/-- An automaton that reads the calls of a program and their results. -/
structure Typestate (C : Type) (R : C → Type) (σ : Type) where
  /-- The calls that may be made. -/
  ok : σ → C → Prop
  next : σ → (c : C) → R c → σ

/-- The part of a typestate that a program over fewer calls sees. -/
def Typestate.comap {C C' σ : Type} {R : C → Type} {R' : C' → Type} (T : Typestate C' R' σ)
    (f : C → C') (forth : (c : C) → R c → R' (f c)) : Typestate C R σ where
  ok s c := T.ok s (f c)
  next s c r := T.next s (f c) (forth c r)

namespace Prog

variable {C C' : Type} {R : C → Type} {R' : C' → Type} {α β σ : Type}

/-! ## Programs as parts of others -/

/-- The same program, with every call made through `f`. -/
def via (f : C → C') (back : (c : C) → R' (f c) → R c) : Prog C R α → Prog C' R' α
  | ret a => ret a
  | undef => undef
  | call c k => call (f c) fun r => (k (back c r)).via f back

variable {f : C → C'} {back : (c : C) → R' (f c) → R c}

/-- The calls of a program as a part of another are those of the program, made through `f`. -/
theorem All.via {P : C' → Prop} {p : Prog C R α} (h : p.All fun c => P (f c)) :
    (p.via f back).All P := by
  induction p with
  | ret a => trivial
  | undef => trivial
  | call c k ih => exact ⟨h.1, fun r => ih _ (h.2 (back c r))⟩

section Runs

variable {W Ch Ch' : Type} {exec : (c : C) → Ch → W → Option (R c × W)}
  {exec' : (c : C') → Ch' → W → Option (R' c × W)} {ok : C → Ch → W → Prop}
  {ok' : C' → Ch' → W → Prop} {ch : Ch} {ch' : Ch'} {p : Prog C R α} {w w' : W}

/-- A run of the program as a part of another is one of its own. -/
theorem Runs.of_via (hexec : ∀ c ch' w r w', ok' (f c) ch' w → exec' (f c) ch' w = some (r, w') →
      ∃ ch, ok c ch w ∧ exec c ch w = some (back c r, w'))
    {a : α} (h : Runs exec' ok' (p.via f back) w a w') : Runs exec ok p w a w' := by
  induction p generalizing w with
  | ret b =>
    cases h
    exact .ret _ _
  | undef => cases h
  | call c k ih =>
    cases h with
    | call hok hcall hrest =>
      -- the call of the part is one of the program, with another choice
      obtain ⟨ch, hok, hcall⟩ := hexec c _ _ _ _ hok hcall
      exact .call hok hcall (ih _ hrest)

/-- Two programs in sequence do not get stuck if the second does not where the first leads. -/
theorem Live.bind {g : α → Prog C R β} (h : p.Live exec ch ok w)
    (hg : ∀ a w', Runs exec ok p w a w' → (g a).Live exec ch ok w') : (p >>= g).Live exec ch ok w := by
  induction p generalizing w with
  | ret a => exact hg a w (.ret a w)
  | undef => exact h
  | call c k ih =>
    refine ⟨h.1, fun ch' r w' hok hexec => ?_⟩
    exact ih r (h.2 ch' r w' hok hexec) fun a w'' hr => hg a w'' (.call hok hexec hr)

/-- Two programs in sequence, of which the first can end with an error, do not get stuck. -/
theorem Live.bindE {ε : Type} {q : ExceptT ε (Prog C R) α} {g : α → ExceptT ε (Prog C R) β}
    (h : q.run.Live exec ch ok w)
    (hg : ∀ a w', Runs exec ok q.run w (.ok a) w' → (g a).run.Live exec ch ok w') :
    (q >>= g).run.Live exec ch ok w := by
  refine Live.bind h fun r w' hr => ?_
  cases r with
  | ok a => exact hg a w' hr
  | error e => trivial

/-- A program that does not get stuck does not do so as a part of another. -/
theorem Live.via (hsome : ∀ c w, (exec c ch w).isSome → (exec' (f c) ch' w).isSome)
    (hexec : ∀ c ch' w r w', ok' (f c) ch' w → exec' (f c) ch' w = some (r, w') →
      ∃ ch, ok c ch w ∧ exec c ch w = some (back c r, w'))
    (h : p.Live exec ch ok w) : (p.via f back).Live exec' ch' ok' w := by
  induction p generalizing w with
  | ret a => trivial
  | undef => exact h
  | call c k ih =>
    refine ⟨hsome c w h.1, fun ch₁ r w' hok hcall => ?_⟩
    obtain ⟨ch₂, hok, hcall⟩ := hexec c ch₁ w r w' hok hcall
    exact ih _ (h.2 ch₂ _ w' hok hcall)

end Runs

/-- A step of the first program is one of both in sequence. -/
theorem step_bind {W Ch : Type} {exec : (c : C) → Ch → W → Option (R c × W)} {ch : Ch} {w w' : W}
    {p p' : Prog C R α} {g : α → Prog C R β} (h : p.step exec ch w = some (p', w')) :
    (p >>= g).step exec ch w = some (p' >>= g, w') := by
  cases p with
  | ret a => cases h
  | undef => cases h
  | call c k =>
    obtain ⟨⟨r, w''⟩, hexec, heq⟩ := Option.map_eq_some_iff.mp h
    cases heq
    show (exec c ch w).map _ = _
    rw [hexec]
    rfl

/-- A weaker property of the calls. -/
theorem All.mono {P P' : C → Prop} (hP : ∀ c, P c → P' c) {p : Prog C R α} (h : p.All P) :
    p.All P' := by
  induction p with
  | ret a => trivial
  | undef => trivial
  | call c k ih => exact ⟨hP c h.1, fun r => ih r (h.2 r)⟩

/-- A loop over a list makes only the calls of its body. -/
theorem All.foldlM {ε : Type} {P : C → Prop} {g : α → β → ExceptT ε (Prog C R) α} {l : List β}
    (h : ∀ a, ∀ b ∈ l, (g a b).run.All P) (a : α) : (l.foldlM g a).run.All P := by
  induction l generalizing a with
  | nil => trivial
  | cons b l ih =>
    rw [List.foldlM_cons]
    exact All.bindE (h a b List.mem_cons_self) fun a' =>
      ih (fun a b hb => h a b (List.mem_cons_of_mem _ hb)) a'

/-! ## Results -/

/-- The program has no undefined behaviour, whatever its calls return. -/
def Total : Prog C R α → Prop
  | ret _ => True
  | undef => False
  | call _ k => ∀ r, (k r).Total

/-- Every result that the program can have satisfies `Q`. -/
def Returns (Q : α → Prop) : Prog C R α → Prop
  | ret a => Q a
  | undef => True
  | call _ k => ∀ r, (k r).Returns Q

/-- The results of two programs in sequence are those of the second one. -/
theorem returns_bind {p : Prog C R α} {g : α → Prog C R β} {Q : β → Prop} :
    (p >>= g).Returns Q ↔ p.Returns fun a => (g a).Returns Q := by
  induction p with
  | ret a => rfl
  | undef => rfl
  | call c k ih => exact forall_congr' ih

/-- What holds of everything holds of the results. -/
theorem returns_of_forall {p : Prog C R α} {Q : α → Prop} (h : ∀ a, Q a) : p.Returns Q := by
  induction p with
  | ret a => exact h a
  | undef => trivial
  | call c k ih => exact ih

/-- A weaker property of the results. -/
theorem Returns.mono {p : Prog C R α} {Q Q' : α → Prop} (h : p.Returns Q) (hQ : ∀ a, Q a → Q' a) :
    p.Returns Q' := by
  induction p with
  | ret a => exact hQ a h
  | undef => trivial
  | call c k ih => exact fun r => ih r (h r)

/-- A property of the errors of two programs is one of the errors of their sequence. -/
theorem Returns.bindE {ε : Type} {E : ε → Prop} {q : ExceptT ε (Prog C R) α}
    {g : α → ExceptT ε (Prog C R) β} (h : q.run.Returns fun r => ∀ e, r = .error e → E e)
    (hg : ∀ a, (g a).run.Returns fun r => ∀ e, r = .error e → E e) :
    (q >>= g).run.Returns fun r => ∀ e, r = .error e → E e := by
  refine returns_bind.mpr (h.mono fun r hr => ?_)
  cases r with
  | ok a => exact hg a
  | error e =>
    intro e' he
    cases he
    exact hr e rfl

/-- A property of the results of the last part of a sequence is one of the sequence. -/
theorem Returns.bindE_ok {ε : Type} {F : β → Prop} {q : ExceptT ε (Prog C R) α}
    {g : α → ExceptT ε (Prog C R) β} (hg : ∀ a, (g a).run.Returns fun r => ∀ b, r = .ok b → F b) :
    (q >>= g).run.Returns fun r => ∀ b, r = .ok b → F b := by
  refine returns_bind.mpr (returns_of_forall fun r => ?_)
  cases r with
  | ok a => exact hg a
  | error e =>
    intro b hb
    cases hb

/-- A property of the errors of the body is one of the errors of the loop. -/
theorem Returns.foldlM {ε : Type} {E : ε → Prop} {g : α → β → ExceptT ε (Prog C R) α}
    (hg : ∀ a b, (g a b).run.Returns fun r => ∀ e, r = .error e → E e) (l : List β) (a : α) :
    (l.foldlM g a).run.Returns fun r => ∀ e, r = .error e → E e := by
  induction l generalizing a with
  | nil => exact fun e he => by cases he
  | cons b l ih =>
    rw [List.foldlM_cons]
    exact Returns.bindE (hg a b) ih

/-- What holds of every result holds of the result of a safe program. -/
theorem Triple.returns {W Ch G : Type} {exec : (c : C) → Ch → W → Option (R c × W)}
    {K : Contract C Ch G W} {P : G → W → Prop} {p : Prog C R α} {Q : α → G → W → Prop}
    {F : α → Prop} (h : Triple exec K P p Q) (hF : p.Returns F) :
    Triple exec K P p fun a g w => Q a g w ∧ F a := by
  intro g w hi hP
  have hsafe := h g w hi hP
  -- the triple is unfolded once; from here on the induction is over what is left of the program
  clear h hP
  induction p generalizing g w with
  | ret a => exact ⟨hsafe, hF⟩
  | undef => exact hsafe
  | call c k ih =>
    intro g' w' hr hi'
    obtain ⟨hdemand, hcall⟩ := hsafe g' w' hr hi'
    refine ⟨hdemand, fun ch r w'' hallow hexec => ?_⟩
    obtain ⟨g'', hguar, hinv, hnext⟩ := hcall ch r w'' hallow hexec
    exact ⟨g'', hguar, hinv, ih r (hF r) g'' w'' hinv hnext⟩

/-! ## Typestates -/

/-- The program keeps to the typestate, whatever its calls return, and a result satisfies `Q`. -/
def Follows (T : Typestate C R σ) : Prog C R α → (α → σ → Prop) → σ → Prop
  | ret a, Q, s => Q a s
  | undef, _, _ => True
  | call c k, Q, s => T.ok s c ∧ ∀ r, (k r).Follows T Q (T.next s c r)

variable {T : Typestate C R σ} {p : Prog C R α} {Q Q' : α → σ → Prop} {s : σ}

/-- A weaker postcondition. -/
theorem Follows.mono (h : p.Follows T Q s) (hQ : ∀ a s, Q a s → Q' a s) : p.Follows T Q' s := by
  induction p generalizing s with
  | ret a => exact hQ a s h
  | undef => trivial
  | call c k ih => exact ⟨h.1, fun r => ih r (h.2 r)⟩

/-- What holds of every result can be added to the postcondition. -/
theorem Follows.returns {F : α → Prop} (h : p.Follows T Q s) (hF : p.Returns F) :
    p.Follows T (fun a s => Q a s ∧ F a) s := by
  induction p generalizing s with
  | ret a => exact ⟨h, hF⟩
  | undef => trivial
  | call c k ih => exact ⟨h.1, fun r => ih r (h.2 r) (hF r)⟩

/-- The second program has to keep to the typestate from wherever the first one leaves it. -/
theorem follows_bind {g : α → Prog C R β} {S : β → σ → Prop} :
    (p >>= g).Follows T S s ↔ p.Follows T (fun a s => (g a).Follows T S s) s := by
  induction p generalizing s with
  | ret a => rfl
  | undef => rfl
  | call c k ih => exact and_congr_right fun _ => forall_congr' fun r => ih r

/-- One call of a program that keeps to a typestate. -/
theorem Follows.step {W Ch : Type} {exec : (c : C) → Ch → W → Option (R c × W)} {ch : Ch}
    {p' : Prog C R α} {w w' : W} (h : p.Follows T Q s) (hs : p.step exec ch w = some (p', w')) :
    ∃ c k r, p = call c k ∧ p' = k r ∧ exec c ch w = some (r, w') ∧ T.ok s c ∧
      p'.Follows T Q (T.next s c r) := by
  cases p with
  | ret a => cases hs
  | undef => cases hs
  | call c k =>
    rw [Prog.step, Option.map_eq_some_iff] at hs
    obtain ⟨⟨r, w''⟩, hexec, heq⟩ := hs
    cases heq
    exact ⟨c, k, r, rfl, rfl, hexec, h.1, h.2 r⟩

/-- Calls that leave the typestate as it is. -/
theorem Follows.of_all {P : C → Prop} (h : p.All P) (hok : ∀ c, P c → T.ok s c)
    (hnext : ∀ c r, P c → T.next s c r = s) (hQ : p.Returns fun a => Q a s) : p.Follows T Q s := by
  induction p with
  | ret a => exact hQ
  | undef => trivial
  | call c k ih =>
    refine ⟨hok c h.1, fun r => ?_⟩
    rw [hnext c r h.1]
    exact ih r (h.2 r) (hQ r)

/-- A part of a program sees the part of the typestate that is about its calls. -/
theorem follows_via {T : Typestate C' R' σ} {forth : (c : C) → R c → R' (f c)}
    (hback : ∀ c r, forth c (back c r) = r) (h : p.Follows (T.comap f forth) Q s) :
    (p.via f back).Follows T Q s := by
  induction p generalizing s with
  | ret a => exact h
  | undef => trivial
  | call c k ih =>
    refine ⟨h.1, fun r => ih (back c r) ?_⟩
    -- what comes back through `f` is what the call has returned
    have hnext : (T.comap f forth).next s c (back c r) = T.next s (f c) r :=
      congrArg (T.next s (f c)) (hback c r)
    exact hnext ▸ h.2 (back c r)

/-! ## Programs with errors -/

section Except

variable {ε : Type} {q : ExceptT ε (Prog C R) α} {g : α → ExceptT ε (Prog C R) β}

/-- A program that can end with an error goes on if there is none. -/
theorem follows_bindE {S : Except ε β → σ → Prop} :
    (q >>= g).run.Follows T S s ↔ q.run.Follows T
      (ending (fun a => (g a).run.Follows T S) fun e => S (.error e)) s := by
  show (q.run >>= _).Follows T S s ↔ _
  rw [follows_bind]
  constructor <;> refine fun h => h.mono fun r s hr => ?_ <;> cases r <;> exact hr

/-- A loop over a list, with an invariant. -/
theorem follows_foldlM {I : α → σ → Prop} {E : ε → σ → Prop} {f : α → β → ExceptT ε (Prog C R) α}
    {l : List β} (hf : ∀ a, ∀ b ∈ l, ∀ s, I a s → (f a b).run.Follows T (ending I E) s) {a : α}
    (ha : I a s) : (l.foldlM f a).run.Follows T (ending I E) s := by
  induction l generalizing a s with
  | nil => exact ha
  | cons b l ih =>
    rw [List.foldlM_cons]
    refine follows_bindE.mpr ((hf a b List.mem_cons_self s ha).mono fun r s hr => ?_)
    cases r with
    | error e => exact hr
    | ok a' => exact ih (fun a b hb => hf a b (List.mem_cons_of_mem _ hb)) hr

end Except

end Prog
