import Mathlib

/-!
# Orders of recency

The elements of a history of uses, each once, the most recently used first. An order of
recency is kept by moving what is used to the front (`touch`), and so is every initial
segment of it (`isPrefix_touch`): a cache that forgets only from the back of its list holds
the most recently used elements.
-/

namespace Recency

variable {α : Type*} [DecidableEq α] {a b : α} {l m : List α}

/-- Use an element: it goes to the front. -/
def touch (a : α) (l : List α) : List α := a :: l.filter (· ≠ a)

/-- The elements of a history, the most recently used first. -/
def order (uses : List α) : List α := uses.foldl (fun l a => touch a l) []

/-- The last use goes to the front of what was there before. -/
theorem order_concat (uses : List α) (a : α) : order (uses ++ [a]) = touch a (order uses) := by
  rw [order, List.foldl_concat, order]

/-- An element that is not in a list is put in front of it. -/
theorem touch_of_notMem (h : a ∉ l) : touch a l = a :: l := by
  rw [touch, List.filter_eq_self.mpr]
  intro b hb
  exact decide_eq_true fun heq => h (heq ▸ hb)

/-- An element that is in a list moves to its front. -/
theorem touch_append_cons {pre post : List α} (h : (pre ++ a :: post).Nodup) :
    touch a (pre ++ a :: post) = a :: (pre ++ post) := by
  -- what is left when the element is taken out does not have it any more
  have hperm : (pre ++ a :: post).Perm (a :: (pre ++ post)) := List.perm_middle
  have hnotMem : a ∉ pre ++ post := (List.nodup_cons.mp (hperm.nodup_iff.mp h)).1
  have hrest := touch_of_notMem hnotMem
  rw [touch, List.cons.injEq, List.filter_append] at hrest
  rw [touch, List.filter_append, List.filter_cons_of_neg (by simp), hrest.2]

@[simp] theorem mem_touch : b ∈ touch a l ↔ b = a ∨ b ∈ l := by
  rw [touch, List.mem_cons, List.mem_filter, decide_eq_true_eq]
  tauto

/-- Touching keeps a list free of duplicates. -/
theorem nodup_touch (h : l.Nodup) : (touch a l).Nodup := by
  rw [touch, List.nodup_cons]
  exact ⟨by simp, h.filter _⟩

/-- An initial segment stays one. -/
theorem isPrefix_touch (h : l <+: m) : touch a l <+: touch a m :=
  List.cons_prefix_cons.mpr ⟨rfl, h.filter _⟩

@[simp] theorem mem_order {uses : List α} : b ∈ order uses ↔ b ∈ uses := by
  induction uses using List.reverseRecOn with
  | nil => simp [order]
  | append_singleton uses a ih =>
    rw [order_concat, mem_touch, ih, List.mem_append, List.mem_singleton]
    tauto

/-- The order has each element once. -/
theorem nodup_order (uses : List α) : (order uses).Nodup := by
  induction uses using List.reverseRecOn with
  | nil => exact List.nodup_nil
  | append_singleton uses a ih =>
    rw [order_concat]
    exact nodup_touch ih

end Recency
