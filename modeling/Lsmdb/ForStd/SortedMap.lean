import Mathlib

/-!
# Finite maps as strictly sorted lists

A finite map is a list of elements that each carry their key, strictly ascending by
key. The operations are lookup, insertion (which replaces an element of the same
key), left-biased union of two maps or of a list of maps, and the part of a map from
a given key on. A map is determined by its lookups (`ext_find`), which is how the
step equation of a k-way merge (`merge_eq_cons`) is proved.
-/

namespace SortedMap

variable {α κ : Type*} [LinearOrder κ] (key : α → κ)

/-- Strictly ascending keys. -/
def Sorted (l : List α) : Prop := l.Pairwise fun a b => key a < key b

instance (l : List α) : Decidable (Sorted key l) :=
  inferInstanceAs (Decidable (l.Pairwise _))

/-- The element with key `k`. -/
def find (k : κ) (l : List α) : Option α := l.find? fun a => decide (key a = k)

variable {key}

/-! ## Lookup -/

@[simp] theorem find_nil (k : κ) : find key k [] = none := rfl

/-- A lookup looks at the first element first. -/
theorem find_cons (k : κ) (a : α) (l : List α) :
    find key k (a :: l) = if key a = k then some a else find key k l := by
  by_cases h : key a = k <;> simp [find, h]

/-- A lookup goes on in the second list if the first one does not have the key. -/
@[simp] theorem find_append (k : κ) (l₁ l₂ : List α) :
    find key k (l₁ ++ l₂) = (find key k l₁).or (find key k l₂) := by
  simp [find]

/-- What a lookup finds is in the list and has the key. -/
theorem find_some {k : κ} {l : List α} {a : α} (h : find key k l = some a) :
    a ∈ l ∧ key a = k :=
  ⟨List.mem_of_find?_eq_some h, by simpa using List.find?_some h⟩

/-- A lookup finds nothing if no element has the key. -/
theorem find_eq_none_iff {k : κ} {l : List α} :
    find key k l = none ↔ ∀ a ∈ l, key a ≠ k := by
  simp [find]

/-- A key below all of a list is not in it. -/
theorem find_eq_none_of_lt {k : κ} {l : List α} (h : ∀ a ∈ l, k < key a) :
    find key k l = none :=
  find_eq_none_iff.mpr fun a ha => (h a ha).ne'

/-- A key above all of a list is not in it. -/
theorem find_eq_none_of_gt {k : κ} {l : List α} (h : ∀ a ∈ l, key a < k) :
    find key k l = none :=
  find_eq_none_iff.mpr fun a ha => (h a ha).ne

theorem sorted_nil : Sorted key ([] : List α) := List.Pairwise.nil

theorem sorted_cons {a : α} {l : List α} :
    Sorted key (a :: l) ↔ (∀ b ∈ l, key a < key b) ∧ Sorted key l :=
  List.pairwise_cons

/-- Two maps make one if the keys of the first are below those of the second. -/
theorem sorted_append {l₁ l₂ : List α} :
    Sorted key (l₁ ++ l₂) ↔
      Sorted key l₁ ∧ Sorted key l₂ ∧ ∀ a ∈ l₁, ∀ b ∈ l₂, key a < key b :=
  List.pairwise_append

theorem Sorted.tail {a : α} {l : List α} (h : Sorted key (a :: l)) : Sorted key l :=
  (sorted_cons.mp h).2

/-- A part of a map is a map. -/
theorem Sorted.sublist {l₁ l₂ : List α} (h : Sorted key l₂) (hs : l₁.Sublist l₂) :
    Sorted key l₁ :=
  List.Pairwise.sublist hs h

/-- In a map, an element is what the lookup of its key finds. -/
theorem Sorted.find_eq_some_iff {l : List α} (h : Sorted key l) {k : κ} {a : α} :
    find key k l = some a ↔ a ∈ l ∧ key a = k := by
  refine ⟨find_some, ?_⟩
  rintro ⟨hmem, rfl⟩
  induction l with
  | nil => simp at hmem
  | cons b l ih =>
    obtain ⟨hb, hl⟩ := sorted_cons.mp h
    rw [find_cons]
    rcases List.mem_cons.mp hmem with rfl | hmem
    · exact if_pos rfl
    · rw [if_neg (hb a hmem).ne]
      exact ih hl hmem

/-- A map has no element twice. -/
theorem Sorted.nodup {l : List α} (h : Sorted key l) : l.Nodup :=
  h.imp fun hlt heq => hlt.ne (congrArg key heq)

/-- A map is determined by its lookups. -/
theorem ext_find {l₁ l₂ : List α} (h₁ : Sorted key l₁) (h₂ : Sorted key l₂)
    (h : ∀ k, find key k l₁ = find key k l₂) : l₁ = l₂ := by
  -- both maps have the same elements, and an order of them is unique
  have hmem (a : α) : a ∈ l₁ ↔ a ∈ l₂ := by
    have e₁ := h₁.find_eq_some_iff (k := key a) (a := a)
    have e₂ := h₂.find_eq_some_iff (k := key a) (a := a)
    rw [h (key a), e₂] at e₁
    simpa using e₁.symm
  exact List.Perm.eq_of_pairwise (fun a b _ _ hab hba => absurd hab hba.asymm) h₁ h₂
    ((List.perm_ext_iff_of_nodup h₁.nodup h₂.nodup).mpr hmem)

/-! ## Insertion and union -/

variable (key)

/-- Insert an element, replacing one of the same key. -/
def insert (a : α) : List α → List α
  | [] => [a]
  | b :: l => if key a < key b then a :: b :: l else if key a = key b then a :: l
    else b :: insert a l

/-- The union of two maps; elements of the first one win. -/
def union (l₁ l₂ : List α) : List α := l₁.foldr (insert key) l₂

/-- The union of several maps; elements of earlier ones win. -/
def merge (ls : List (List α)) : List α := ls.foldr (union key) []

variable {key}

/-- Insertion brings in nothing else. -/
theorem mem_insert {a b : α} {l : List α} (h : b ∈ insert key a l) : b = a ∨ b ∈ l := by
  induction l with
  | nil => exact .inl (List.mem_singleton.mp h)
  | cons c l ih =>
    rw [insert] at h
    split_ifs at h
    · exact List.mem_cons.mp h
    · exact (List.mem_cons.mp h).imp_right (List.mem_cons_of_mem _)
    · rcases List.mem_cons.mp h with rfl | h
      · exact .inr List.mem_cons_self
      · exact (ih h).imp_right (List.mem_cons_of_mem _)

/-- Insertion keeps a map in order. -/
theorem Sorted.insert {l : List α} (h : Sorted key l) (a : α) : Sorted key (insert key a l) := by
  induction l with
  | nil => simp [SortedMap.insert, Sorted]
  | cons b l ih =>
    obtain ⟨hb, hl⟩ := sorted_cons.mp h
    rw [SortedMap.insert]
    -- in front of the first element, in its place, or behind it
    split_ifs with hlt heq
    · refine sorted_cons.mpr ⟨?_, h⟩
      intro c hc
      rcases List.mem_cons.mp hc with rfl | hc
      · exact hlt
      · exact hlt.trans (hb c hc)
    · exact sorted_cons.mpr ⟨fun c hc => heq ▸ hb c hc, hl⟩
    · refine sorted_cons.mpr ⟨?_, ih hl⟩
      intro c hc
      rcases mem_insert hc with rfl | hc
      · exact lt_of_le_of_ne (not_lt.mp hlt) (Ne.symm heq)
      · exact hb c hc

/-- What was inserted is found under its key, everything else as before. -/
theorem find_insert (k : κ) (a : α) (l : List α) :
    find key k (insert key a l) = if key a = k then some a else find key k l := by
  induction l with
  | nil => simp [insert, find_cons]
  | cons b l ih =>
    rw [insert]
    -- the same three cases
    by_cases hlt : key a < key b
    · rw [if_pos hlt, find_cons]
    · rw [if_neg hlt]
      by_cases heq : key a = key b
      · rw [if_pos heq, find_cons, find_cons]
        split_ifs with hk hb
        · rfl
        · exact absurd (heq.trans hb) hk
        · rfl
      · rw [if_neg heq, find_cons, ih, find_cons]
        split_ifs with hb hk hk
        · exact absurd (hk.trans hb.symm) heq
        all_goals rfl

/-- Insertion skips the smaller elements. -/
theorem insert_append {a : α} {l₁ : List α} (h : ∀ b ∈ l₁, key b < key a) (l₂ : List α) :
    insert key a (l₁ ++ l₂) = l₁ ++ insert key a l₂ := by
  induction l₁ with
  | nil => rfl
  | cons b l₁ ih =>
    have hb := h b List.mem_cons_self
    rw [List.cons_append, insert, if_neg hb.asymm, if_neg hb.ne',
      ih fun c hc => h c (List.mem_cons_of_mem _ hc), List.cons_append]

/-- Insertion in front of larger elements. -/
theorem insert_of_lt {a : α} {l : List α} (h : ∀ b ∈ l, key a < key b) :
    insert key a l = a :: l := by
  cases l with
  | nil => rfl
  | cons b l => rw [insert, if_pos (h b List.mem_cons_self)]

/-- Insertion replaces an element of the same key. -/
theorem insert_of_eq {a b : α} (h : key a = key b) (l : List α) :
    insert key a (b :: l) = a :: l := by
  rw [insert, if_neg h.not_lt, if_pos h]

/-- A union is in order if the second map is. -/
theorem Sorted.union {l₂ : List α} (h : Sorted key l₂) (l₁ : List α) :
    Sorted key (union key l₁ l₂) := by
  induction l₁ with
  | nil => exact h
  | cons a l₁ ih => exact ih.insert a

/-- The first map decides, if it has the key. -/
theorem find_union (k : κ) (l₁ l₂ : List α) :
    find key k (union key l₁ l₂) = (find key k l₁).or (find key k l₂) := by
  induction l₁ with
  | nil => rfl
  | cons a l₁ ih =>
    rw [show union key (a :: l₁) l₂ = insert key a (union key l₁ l₂) from rfl, find_insert, ih,
      find_cons]
    split_ifs <;> rfl

/-- A merge is in order, whatever is merged. -/
theorem sorted_merge (ls : List (List α)) : Sorted key (merge key ls) := by
  induction ls with
  | nil => exact sorted_nil
  | cons l ls ih => exact ih.union l

/-- The first map that has a key decides. -/
theorem find_merge (k : κ) (ls : List (List α)) :
    find key k (merge key ls) = ls.findSome? (find key k) := by
  induction ls with
  | nil => rfl
  | cons l ls ih =>
    rw [show merge key (l :: ls) = union key l (merge key ls) from rfl, find_union, ih,
      List.findSome?_cons]
    cases find key k l <;> rfl

/-- Insertion adds one element, and may drop one. -/
theorem insert_subperm (a : α) (l : List α) : (insert key a l).Subperm (a :: l) := by
  induction l with
  | nil => exact List.Subperm.refl _
  | cons b l ih =>
    rw [insert]
    split_ifs
    · exact List.Subperm.refl _
    · exact ((List.sublist_cons_self b l).cons_cons a).subperm
    · exact ((List.subperm_cons b).mpr ih).trans (List.Perm.swap a b l).subperm

/-- A union adds no elements. -/
theorem union_subperm (l₁ l₂ : List α) : (union key l₁ l₂).Subperm (l₁ ++ l₂) := by
  induction l₁ with
  | nil => exact List.Subperm.refl _
  | cons a l₁ ih => exact (insert_subperm a _).trans ((List.subperm_cons a).mpr ih)

/-- A merge adds no elements. -/
theorem merge_subperm (ls : List (List α)) : (merge key ls).Subperm ls.flatten := by
  induction ls with
  | nil => exact List.Subperm.refl _
  | cons l ls ih => exact (union_subperm l _).trans ((List.subperm_append_left l).mpr ih)

/-- A merge is not longer than what is merged. -/
theorem length_merge_le (ls : List (List α)) :
    (merge key ls).length ≤ (ls.map List.length).sum := by
  rw [← List.length_flatten]
  exact (merge_subperm ls).length_le

/-- Every key of what is merged is in the merge. -/
theorem exists_mem_merge {ls : List (List α)} {l : List α} (hl : l ∈ ls) {a : α} (ha : a ∈ l) :
    ∃ b ∈ merge key ls, key b = key a := by
  cases hf : find key (key a) (merge key ls) with
  | some b => exact ⟨b, find_some hf⟩
  | none =>
    rw [find_merge, List.findSome?_eq_none_iff] at hf
    exact absurd rfl (find_eq_none_iff.mp (hf l hl) a ha)

/-- A merge is empty if there is nothing to merge. -/
theorem merge_eq_nil_iff {ls : List (List α)} : merge key ls = [] ↔ ∀ l ∈ ls, l = [] := by
  constructor
  · intro h l hl
    by_contra hne
    obtain ⟨a, ha⟩ := List.exists_mem_of_ne_nil l hne
    obtain ⟨b, hb, -⟩ : ∃ b ∈ merge key ls, key b = key a := exists_mem_merge hl ha
    rw [h] at hb
    cases hb
  · intro h
    -- a map without lookups is empty
    refine ext_find (sorted_merge ls) sorted_nil fun k => ?_
    rw [find_merge, find_nil, List.findSome?_eq_none_iff]
    intro l hl
    rw [h l hl]
    rfl

/-! ## One step of a k-way merge -/

variable (key)

/-- Drop the head of a map if it has key `k`. -/
def dropHead (k : κ) : List α → List α
  | [] => []
  | a :: l => if key a = k then l else a :: l

variable {key}

/-- Dropping the head keeps a map in order. -/
theorem Sorted.dropHead {l : List α} (h : Sorted key l) (k : κ) : Sorted key (dropHead key k l) := by
  cases l with
  | nil => exact h
  | cons a l =>
    rw [SortedMap.dropHead]
    split_ifs
    · exact h.tail
    · exact h

/-- The head of a map whose keys are all at least `k` is what a lookup of `k` can find. -/
theorem find_dropHead {l : List α} (h : Sorted key l) {k : κ} (hk : ∀ a ∈ l, k ≤ key a) (k' : κ) :
    find key k' (dropHead key k l) = if k' = k then none else find key k' l := by
  cases l with
  | nil => simp [dropHead]
  | cons a l =>
    obtain ⟨ha, hl⟩ := sorted_cons.mp h
    rw [dropHead]
    split_ifs with hak hk' hk'
    -- the head is dropped, and what is behind it is above its key
    · exact find_eq_none_of_lt fun b hb => by rw [hk', ← hak]; exact ha b hb
    · rw [find_cons, if_neg fun hak' => hk' (hak'.symm.trans hak)]
    -- the head stays, so `k` was not in the map
    · have hlt : k < key a := lt_of_le_of_ne (hk a List.mem_cons_self) (Ne.symm hak)
      refine find_eq_none_of_lt fun b hb => ?_
      rcases List.mem_cons.mp hb with rfl | hb
      · exact hk'.trans_lt hlt
      · exact hk'.trans_lt (hlt.trans (ha b hb))
    · rfl

/-- The step of a k-way merge: with `k` the least key, the first map that holds it provides the
    element, and all maps drop it. -/
theorem merge_eq_cons {ls : List (List α)} (hs : ∀ l ∈ ls, Sorted key l) {k : κ} {a : α}
    (hk : ∀ l ∈ ls, ∀ b ∈ l, k ≤ key b) (ha : ls.findSome? (find key k) = some a) :
    merge key ls = a :: merge key (ls.map (dropHead key k)) := by
  have hkey : key a = k := by
    obtain ⟨l, -, hl⟩ := List.exists_of_findSome?_eq_some ha
    exact (find_some hl).2
  -- the lookups of the remaining maps
  have hrest (k' : κ) : (ls.map (dropHead key k)).findSome? (find key k') =
      if k' = k then none else ls.findSome? (find key k') := by
    clear ha
    induction ls with
    | nil => simp
    | cons l ls ih =>
      have hl := find_dropHead (hs l List.mem_cons_self) (hk l List.mem_cons_self) k'
      have hih := ih (fun l hl => hs l (List.mem_cons_of_mem _ hl))
        fun l hl => hk l (List.mem_cons_of_mem _ hl)
      simp only [List.map_cons, List.findSome?_cons, hl, hih]
      split_ifs <;> rfl
  refine ext_find (sorted_merge ls) (sorted_cons.mpr ⟨?_, sorted_merge _⟩) fun k' => ?_
  · -- what remains is above `k`
    intro b hb
    have hfind := (sorted_merge (ls.map (dropHead key k))).find_eq_some_iff.mpr ⟨hb, rfl⟩
    rw [find_merge, hrest] at hfind
    split_ifs at hfind with heq
    obtain ⟨l, hl, hlb⟩ := List.exists_of_findSome?_eq_some hfind
    exact lt_of_le_of_ne (hkey ▸ hk l hl b (find_some hlb).1) fun h => heq (h.symm.trans hkey)
  · rw [find_merge, find_cons, find_merge, hrest]
    split_ifs with h₁ h₂
    · rw [← h₁, hkey, ha]
    · exact absurd (hkey.trans h₂.symm) h₁
    · rfl

/-! ## The part of a map from a key on -/

/-- A filter on keys takes the keys away that it does not hold of. -/
theorem find_filter_key (p : κ → Bool) (k : κ) (l : List α) :
    find key k (l.filter fun a => p (key a)) = if p k then find key k l else none := by
  induction l with
  | nil => simp
  | cons a l ih =>
    rw [List.filter_cons]
    -- whether the filter keeps the head, and whether it keeps the key
    split_ifs with ha hk hk
    · rw [find_cons, find_cons, ih, if_pos hk]
    · have hak : key a ≠ k := fun hak => hk (hak ▸ ha)
      rw [find_cons, ih, if_neg hk, if_neg hak]
    · have hak : key a ≠ k := fun hak => ha (hak ▸ hk)
      rw [ih, if_pos hk, find_cons, if_neg hak]
    · rw [ih, if_neg hk]

variable (key)

/-- The elements whose key is at least `k`. -/
def fromKey (k : κ) (l : List α) : List α := l.filter fun a => decide (k ≤ key a)

variable {key}

/-- The part from a key on has the keys from there on. -/
theorem find_fromKey (k k' : κ) (l : List α) :
    find key k' (fromKey key k l) = if k ≤ k' then find key k' l else none := by
  rw [fromKey, find_filter_key fun k' => decide (k ≤ k')]
  simp

/-- The part from a key on is in order. -/
theorem Sorted.fromKey {l : List α} (h : Sorted key l) (k : κ) : Sorted key (fromKey key k l) :=
  h.sublist List.filter_sublist

/-- What is below the key can be left away. -/
theorem fromKey_append_of_lt {k : κ} {l₁ : List α} (h : ∀ a ∈ l₁, key a < k) (l₂ : List α) :
    SortedMap.fromKey key k (l₁ ++ l₂) = SortedMap.fromKey key k l₂ := by
  rw [SortedMap.fromKey, List.filter_append, List.filter_eq_nil_iff.mpr, List.nil_append,
    SortedMap.fromKey]
  intro a ha
  simpa using h a ha

/-- Skipping the smaller keys of a map leaves the part from the key on. -/
theorem Sorted.dropWhile_eq {l : List α} (h : Sorted key l) (k : κ) :
    l.dropWhile (fun a => decide (key a < k)) = SortedMap.fromKey key k l := by
  induction l with
  | nil => rfl
  | cons a l ih =>
    obtain ⟨ha, hl⟩ := sorted_cons.mp h
    by_cases hlt : key a < k
    · rw [List.dropWhile_cons_of_pos (by simpa using hlt), ih hl]
      have hall : ∀ b ∈ [a], key b < k := by simpa using hlt
      exact (fromKey_append_of_lt hall l).symm
    · -- the map is sorted, so no later key is smaller than `k` either
      rw [List.dropWhile_cons_of_neg (by simpa using hlt), SortedMap.fromKey,
        List.filter_eq_self.mpr]
      intro b hb
      have hka : k ≤ key a := not_lt.mp hlt
      rcases List.mem_cons.mp hb with rfl | hb
      · simpa using hka
      · simpa using hka.trans (ha b hb).le

end SortedMap
