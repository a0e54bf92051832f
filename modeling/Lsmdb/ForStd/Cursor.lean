import Mathlib

/-!
# Forward iterators

A forward iterator is positioned on an element or exhausted, it can be advanced, and
it carries a status that tells a clean end from a failure. `Yields` describes such an
iterator by what a loop over it sees: the elements in order, and the status at the
end.
-/

/-- The operations of a forward iterator. Advancing returns `none` where the call is
    undefined. -/
class Cursor (ι : Type*) (α σ : outParam (Type*)) where
  head : ι → Option α
  next : ι → Option ι
  status : ι → σ

namespace Cursor

variable {ι α σ : Type*} [Cursor ι α σ]

/-- A loop over the iterator sees the elements of the list, with status `ok` at each of them,
    and then an exhausted iterator with status `s`. -/
def Yields (ok : σ) (it : ι) : List α → σ → Prop
  | [], s => head it = none ∧ status it = s
  | a :: l, s => head it = some a ∧ status it = ok ∧ ∃ it', next it = some it' ∧ Yields ok it' l s

variable {ok s : σ} {it : ι} {a : α} {l : List α}

/-- The element under the iterator is the first one that is still to come. -/
theorem Yields.head_eq (h : Yields ok it l s) : head it = l.head? := by
  cases l with
  | nil => exact h.1
  | cons a l => exact h.1

/-- The status is `ok` as long as there is an element. -/
theorem Yields.status_eq (h : Yields ok it l s) : status it = if l = [] then s else ok := by
  cases l with
  | nil => simpa using h.2
  | cons a l => simpa using h.2.1

/-- The loop `for (; it.Valid(); it.Next())`: the elements it sees and the status at its end. The
    number bounds its turns; `none` stands for a loop that is not done by then. -/
def drain : Nat → ι → Option (List α × σ)
  | 0, _ => none
  | n + 1, it =>
    match head it with
    | none => some ([], status it)
    | some a => (next it).bind fun it' => (drain n it').map fun (l, s) => (a :: l, s)

/-- A loop that may take enough turns sees what the iterator yields. -/
theorem Yields.drain_eq {n : Nat} (h : Yields ok it l s) (hn : l.length < n) :
    drain n it = some (l, s) := by
  -- the induction is on the elements; the number of turns is consumed along with them
  induction l generalizing it n with
  | nil =>
    cases n with
    | zero => simp at hn
    | succ n =>
      obtain ⟨hhead, rfl⟩ := h
      simp only [drain, hhead]
  | cons a l ih =>
    cases n with
    | zero => simp at hn
    | succ n =>
      obtain ⟨hhead, -, it', hnext, hy⟩ := h
      simp only [drain, hhead, hnext, Option.bind, ih hy (by simpa using hn), Option.map_some]

end Cursor
