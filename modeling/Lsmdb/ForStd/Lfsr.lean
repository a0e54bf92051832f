import Mathlib

/-!
# Shift registers with feedback

A register of `w` bits that shifts towards its low end, and is xored with a polynomial
whenever a one falls out. This is the division behind a reflected cyclic redundancy
check, over registers of any width and with any polynomial. Message bits can enter the
register one at a time (`feed`), or all at once before it is shifted; the second is what
makes a table lookup possible (`foldl_feed`, `iterate_shift_eq`).
-/

namespace Lfsr

variable {w : Nat} (poly : BitVec w)

/-- One shift of the register. -/
def shift (c : BitVec w) : BitVec w := if c.getLsbD 0 then poly ^^^ (c >>> 1) else c >>> 1

/-- One shift, with a message bit that is added to the bit that falls out. -/
def feed (c : BitVec w) (bit : Bool) : BitVec w :=
  if c.getLsbD 0 ^^ bit then poly ^^^ (c >>> 1) else c >>> 1

/-- The low bits of a word, the lowest first. -/
def lowBits (n : Nat) (x : BitVec w) : List Bool := (List.range n).map x.getLsbD

/-- One more low bit. -/
theorem lowBits_succ (n : Nat) (x : BitVec w) :
    lowBits (n + 1) x = lowBits n x ++ [x.getLsbD n] := by
  simp [lowBits, List.range_succ]

/-- A part of the register that has the message bit in front is only shifted. -/
theorem feed_xor (c x : BitVec w) : feed poly (c ^^^ x) (x.getLsbD 0) = shift poly c ^^^ (x >>> 1) := by
  rw [feed, shift, BitVec.getLsbD_xor, Bool.xor_assoc, Bool.xor_self, Bool.xor_false,
    BitVec.ushiftRight_xor_distrib]
  split
  · rw [BitVec.xor_assoc]
  · rfl

/-- Feeding the low bits of a word is adding the word and shifting; the bits that were not fed are
    left as they were. The induction is on the number of bits. -/
theorem foldl_feed (n : Nat) (c x : BitVec w) :
    (lowBits n x).foldl (feed poly) c = (shift poly)^[n] (c ^^^ x) ^^^ (x >>> n) := by
  induction n with
  | zero => simp [lowBits]
  | succ n ih =>
    -- the bit to feed is the lowest one of what has not been fed yet
    have hbit : x.getLsbD n = (x >>> n).getLsbD 0 := by simp
    rw [lowBits_succ, List.foldl_concat, ih, hbit, feed_xor, Function.iterate_succ_apply',
      BitVec.shiftRight_add]

/-- Shifting `n` times looks at the low `n` bits only: words that have them in common differ by
    what is above. -/
theorem iterate_shift_eq {n : Nat} {a d : BitVec w} (h : ∀ i < n, a.getLsbD i = d.getLsbD i) :
    (shift poly)^[n] d ^^^ (d >>> n) = (shift poly)^[n] a ^^^ (a >>> n) := by
  have hbits : lowBits n d = lowBits n a := by
    rw [lowBits, lowBits, List.map_inj_left]
    intro i hi
    exact (h i (List.mem_range.mp hi)).symm
  -- both sides are what feeding the common low bits to an empty register leaves
  have hd := foldl_feed poly n 0#w d
  have ha := foldl_feed poly n 0#w a
  rw [BitVec.zero_xor] at hd ha
  rw [← hd, ← ha, hbits]

end Lfsr
