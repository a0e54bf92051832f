import Mathlib

/-!
# Mixing steps that lose nothing

Hash functions mix machine words by multiplying with a constant, by rotating, and by
xoring a word with a shift of itself. Each of these steps is injective, on words of any
width. A loop whose steps are injective in the state keeps apart two runs that differ in
a single step (`foldl_range_ne`).
-/

namespace WordMix

variable {w : Nat}

/-- Multiplication by a word that has an inverse. -/
theorem mul_injective {m inv : BitVec w} (h : m * inv = 1#w) :
    Function.Injective fun x : BitVec w => x * m := by
  intro x y heq
  have hmul := congrArg (· * inv) heq
  simpa only [BitVec.mul_assoc, h, BitVec.mul_one] using hmul

/-- A shift by at least half of the width, xored into the word, undoes itself. -/
theorem xorShift_injective {s : Nat} (hs : w ≤ 2 * s) :
    Function.Injective fun x : BitVec w => x ^^^ (x >>> s) := by
  apply Function.Involutive.injective
  intro x
  have hout : x >>> s >>> s = 0#w := by
    apply BitVec.eq_of_getLsbD_eq
    intro i hi
    rw [BitVec.getLsbD_ushiftRight, BitVec.getLsbD_ushiftRight, BitVec.getLsbD_zero]
    exact BitVec.getLsbD_of_ge _ _ (by omega)
  show (x ^^^ x >>> s) ^^^ ((x ^^^ x >>> s) >>> s) = x
  rw [BitVec.ushiftRight_xor_distrib, hout, BitVec.xor_zero, BitVec.xor_assoc, BitVec.xor_self,
    BitVec.xor_zero]

/-- The bits of a word stand in its rotation. -/
theorem rotateLeft_injective (r : Nat) : Function.Injective fun x : BitVec w => x.rotateLeft r := by
  intro x y heq
  apply BitVec.eq_of_getLsbD_eq
  intro i hi
  have hr : r % w < w := Nat.mod_lt r (by omega)
  -- where bit `i` has gone
  have hbit (z : BitVec w) : (z.rotateLeft r).getLsbD
      (if i + r % w < w then i + r % w else i + r % w - w) = z.getLsbD i := by
    rw [BitVec.getLsbD_rotateLeft]
    split
    · rename_i hlt
      rw [decide_eq_false (by omega), decide_eq_true hlt, cond_false, Bool.true_and,
        Nat.add_sub_cancel]
    · rw [decide_eq_true (by omega), cond_true]
      congr 1
      omega
  rw [← hbit x, ← hbit y]
  exact congrArg (BitVec.getLsbD · _) heq

section Loop

variable {σ : Type*} {f g : Nat → σ → σ} {i : Nat}

/-- Loops that do the same in every turn but one. -/
theorem foldl_range_eq {n : Nat} (hsame : ∀ j, j ≠ i → f j = g j) (hn : n ≤ i) (s : σ) :
    (List.range n).foldl (fun s j => f j s) s = (List.range n).foldl (fun s j => g j s) s := by
  induction n with
  | zero => rfl
  | succ n ih =>
    rw [List.range_succ, List.foldl_concat, List.foldl_concat, ih (by omega),
      hsame n (by omega)]

/-- A turn that tells two loops apart does so up to the end if the turns behind it lose nothing. -/
theorem foldl_range_ne {n : Nat} (hinj : ∀ j, Function.Injective (g j))
    (hsame : ∀ j, j ≠ i → f j = g j) (hdiff : ∀ s, f i s ≠ g i s) (hn : i < n) (s : σ) :
    (List.range n).foldl (fun s j => f j s) s ≠ (List.range n).foldl (fun s j => g j s) s := by
  induction n with
  | zero => omega
  | succ n ih =>
    rw [List.range_succ, List.foldl_concat, List.foldl_concat]
    by_cases hi : i = n
    · rw [← hi, foldl_range_eq hsame le_rfl]
      exact hdiff _
    · rw [hsame n (Ne.symm hi)]
      exact fun heq => ih (by omega) (hinj n heq)

end Loop

end WordMix
