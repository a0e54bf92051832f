import Mathlib

/-!
# Binary search

The two binary searches over a vector that C++ code commonly writes: the half-open
`[lo, hi)` loop, and the `first`/`len` loop behind `std::upper_bound`. Both find the
boundary of a predicate that holds on an initial segment of the list and nowhere
behind it. On a list without this property they still return a position of the list.
-/

namespace BinarySearch

variable {α : Type*}

/-- A predicate holds on an initial segment and nowhere behind it. -/
def Partitioned (p : α → Bool) (l : List α) : Prop :=
  l.Pairwise fun a b => p b = true → p a = true

/-- The loop `while (lo < hi) { mid = (lo + hi) / 2; if (p(mid)) lo = mid + 1; else hi = mid; }`.
    It returns the final `lo`; `none` stands for an access outside of the list. -/
def loop (p : α → Bool) (l : List α) (lo hi : Nat) : Option Nat :=
  if lo < hi then
    match l[(lo + hi) / 2]? with
    | none => none
    | some a => if p a then loop p l ((lo + hi) / 2 + 1) hi else loop p l lo ((lo + hi) / 2)
  else some lo
termination_by hi - lo

/-- The search of `std::upper_bound`: `while (len > 0) { half = len >> 1; mid = first + half;
    if (p(mid)) { first = mid + 1; len -= half + 1; } else len = half; }`, where `p` holds of
    the elements that stay on the left. -/
def upperBoundLoop (p : α → Bool) (l : List α) (first len : Nat) : Option Nat :=
  if 0 < len then
    match l[first + len / 2]? with
    | none => none
    | some a =>
      if p a then upperBoundLoop p l (first + len / 2 + 1) (len - len / 2 - 1)
      else upperBoundLoop p l first (len / 2)
  else some first
termination_by len

/-- The length of the initial segment on which the predicate holds. -/
def boundary (p : α → Bool) (l : List α) : Nat := (l.takeWhile p).length

/-- The boundary is a position of the list, or its end. -/
theorem boundary_le (p : α → Bool) (l : List α) : boundary p l ≤ l.length :=
  (List.takeWhile_sublist p).length_le

/-- The boundary of an image is that of the list, for the predicate on the images. -/
theorem boundary_map {β : Type*} (p : β → Bool) (f : α → β) (l : List α) :
    boundary p (l.map f) = boundary (p ∘ f) l := by
  rw [boundary, boundary, List.takeWhile_map, List.length_map]

/-- On a partitioned list the predicate decides on which side of the boundary a position is. -/
theorem lt_boundary_iff {p : α → Bool} {l : List α} (hl : Partitioned p l) {i : Nat}
    (hi : i < l.length) : i < boundary p l ↔ p l[i] = true := by
  induction l generalizing i with
  | nil => simp at hi
  | cons a l ih =>
    obtain ⟨ha, hl⟩ := List.pairwise_cons.mp hl
    by_cases hpa : p a = true
    · cases i with
      | zero => simp [boundary, hpa]
      | succ i =>
        have hi' : i < l.length := by simpa using hi
        have := ih hl hi'
        simp only [boundary] at this
        simp [boundary, hpa, this]
    · -- nothing behind an element that fails the predicate satisfies it
      have hnot : ∀ b ∈ a :: l, p b ≠ true := by
        intro b hb hpb
        rcases List.mem_cons.mp hb with rfl | hb
        · exact hpa hpb
        · exact hpa (ha b hb hpb)
      simp [boundary, hpa, hnot _ (List.getElem_mem hi)]

/-- The half-open loop finds the boundary. -/
theorem loop_eq_boundary {p : α → Bool} {l : List α} (hl : Partitioned p l) (lo hi : Nat)
    (hlo : lo ≤ boundary p l) (hhi : boundary p l ≤ hi) (hlen : hi ≤ l.length) :
    loop p l lo hi = some (boundary p l) := by
  fun_induction loop p l lo hi with
  -- the middle lies in the list
  | case1 lo hi hlt hnone =>
    rw [List.getElem?_eq_none_iff] at hnone
    omega
  -- the predicate holds in the middle, so the boundary is behind it
  | case2 lo hi hlt a hsome hpa ih =>
    obtain ⟨hmid, rfl⟩ := List.getElem?_eq_some_iff.mp hsome
    exact ih ((lt_boundary_iff hl hmid).mpr hpa) hhi hlen
  -- it fails in the middle, so the boundary is not behind it
  | case3 lo hi hlt a hsome hpa ih =>
    obtain ⟨hmid, rfl⟩ := List.getElem?_eq_some_iff.mp hsome
    have hge : boundary p l ≤ (lo + hi) / 2 :=
      not_lt.mp fun hlt' => hpa ((lt_boundary_iff hl hmid).mp hlt')
    exact ih hlo hge (by omega)
  -- the window is empty, and the boundary is in it
  | case4 lo hi hlt => rw [show lo = boundary p l by omega]

/-- The two loops probe the same elements. -/
theorem upperBoundLoop_eq_loop (p : α → Bool) (l : List α) (first len : Nat) :
    upperBoundLoop p l first len = loop p l first (first + len) := by
  fun_induction upperBoundLoop p l first len with
  -- `len / 2` behind `first` is the middle of the window from `first` to `first + len`
  | case1 first len hlt hnone =>
    rw [loop, if_pos (by omega), show (first + (first + len)) / 2 = first + len / 2 by omega, hnone]
  | case2 first len hlt a hsome hpa ih =>
    rw [loop, if_pos (by omega), show (first + (first + len)) / 2 = first + len / 2 by omega, hsome]
    simp only [if_pos hpa]
    rw [ih, show first + len / 2 + 1 + (len - len / 2 - 1) = first + len by omega]
  | case3 first len hlt a hsome hpa ih =>
    rw [loop, if_pos (by omega), show (first + (first + len)) / 2 = first + len / 2 by omega, hsome]
    simp only [if_neg hpa]
    exact ih
  | case4 first len hlt => rw [loop, if_neg (by omega)]

/-- The search of `std::upper_bound` finds the boundary. -/
theorem upperBoundLoop_eq_boundary {p : α → Bool} {l : List α} (hl : Partitioned p l)
    (first len : Nat) (hlo : first ≤ boundary p l) (hhi : boundary p l ≤ first + len)
    (hlen : first + len ≤ l.length) : upperBoundLoop p l first len = some (boundary p l) := by
  rw [upperBoundLoop_eq_loop, loop_eq_boundary hl _ _ hlo hhi hlen]

/-- Within the list, the loop ends on a position of the list, whatever the predicate. -/
theorem loop_isSome (p : α → Bool) (l : List α) {lo hi : Nat} (hle : lo ≤ hi)
    (hlen : hi ≤ l.length) : ∃ n ≤ hi, loop p l lo hi = some n := by
  fun_induction loop p l lo hi with
  | case1 lo hi hlt hnone =>
    rw [List.getElem?_eq_none_iff] at hnone
    omega
  | case2 lo hi hlt a hsome hpa ih => exact ih (by omega) hlen
  | case3 lo hi hlt a hsome hpa ih =>
    obtain ⟨n, hn, heq⟩ := ih (by omega) (by omega)
    exact ⟨n, by omega, heq⟩
  | case4 lo hi hlt => exact ⟨lo, hle, rfl⟩

/-- A partitioned list splits at its boundary. -/
theorem exists_append_of_boundary {p : α → Bool} {l : List α} (hl : Partitioned p l) :
    ∃ l₁ l₂, l = l₁ ++ l₂ ∧ l₁.length = boundary p l ∧ (∀ a ∈ l₁, p a = true) ∧
      ∀ a ∈ l₂, ¬ p a = true := by
  refine ⟨l.take (boundary p l), l.drop (boundary p l), (List.take_append_drop _ _).symm,
    List.length_take_of_le (boundary_le p l), ?_, ?_⟩
  · -- below the boundary
    intro a ha
    obtain ⟨i, hi, rfl⟩ := List.getElem_of_mem ha
    rw [List.length_take_of_le (boundary_le p l)] at hi
    rw [List.getElem_take]
    exact (lt_boundary_iff hl _).mp hi
  · -- from the boundary on
    intro a ha hpa
    obtain ⟨i, hi, rfl⟩ := List.getElem_of_mem ha
    rw [List.getElem_drop] at hpa
    have := (lt_boundary_iff hl _).mpr hpa
    omega

end BinarySearch
