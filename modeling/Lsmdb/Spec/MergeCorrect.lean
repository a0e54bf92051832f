import Lsmdb.Native.MergingIterator
import Lsmdb.Spec.SSTableCorrect

/-!
# The k-way merge

One round of the merge, for children whose heads are those of sorted lists
(`merge_round`), is one step of `SortedMap.merge`. From this follows what
`MergingIterator` yields over tables some of whose blocks cannot be read: a prefix of
the merge of the whole tables, and all of it if it ends with `OK`.
-/

namespace Lsmdb

open SortedMap Cursor

section Round

variable {ι : Type} [Cursor ι Entry Status] {its : List ι} {gs : List (List Entry)}

/-- The children are on the heads of the lists. -/
def OnHeads (its : List ι) (gs : List (List Entry)) : Prop :=
  List.Forall₂ (fun it g => Cursor.head it = g.head?) its gs

/-- A child on an entry can only make the best key smaller. -/
private theorem betterKey_some (best : Option Bytes) (e : Entry) :
    ∃ k, betterKey best (some e) = some k ∧ k ≤ e.key ∧ (∀ b ∈ best, k ≤ b) ∧
      (k = e.key ∨ best = some k) := by
  cases best with
  | none => exact ⟨e.key, rfl, le_rfl, by simp, .inl rfl⟩
  | some b =>
    by_cases hlt : e.key < b
    · exact ⟨e.key, by simp [betterKey, hlt], le_rfl, by simpa using hlt.le, .inl rfl⟩
    · exact ⟨b, by simp [betterKey, hlt], not_lt.mp hlt, by simp, .inr rfl⟩

/-- The loop that looks for the smallest key, from a key found so far. -/
private theorem foldl_betterKey (h : OnHeads its gs) (hs : ∀ g ∈ gs, Sorted Entry.key g)
    (best : Option Bytes) :
    let r := its.foldl (fun best c => betterKey best (Cursor.head c)) best
    (r = none ↔ best = none ∧ ∀ g ∈ gs, g = []) ∧
      ∀ k ∈ r, (∀ b ∈ best, k ≤ b) ∧ (∀ g ∈ gs, ∀ e ∈ g, k ≤ e.key) ∧
        (best = some k ∨ ∃ g ∈ gs, ∃ e ∈ g, e.key = k) := by
  -- one child after the other, with the best key so far
  induction h generalizing best with
  | nil =>
    refine ⟨by simp, fun k hk => ⟨fun b hb => ?_, by simp, .inl hk⟩⟩
    have hk' : best = some k := hk
    rw [hk'] at hb
    exact (Option.some.inj hb).le
  | @cons it g its gs hhead htail ih =>
    have hs' : ∀ g ∈ gs, Sorted Entry.key g := fun g hg => hs g (List.mem_cons_of_mem _ hg)
    rw [List.foldl_cons, hhead]
    cases g with
    | nil =>
      obtain ⟨hnone, hsome⟩ := ih hs' best
      refine ⟨by rw [List.head?_nil, betterKey, hnone]; simp, fun k hk => ?_⟩
      obtain ⟨h₁, h₂, h₃⟩ := hsome k hk
      refine ⟨h₁, ?_, h₃.imp_right fun ⟨g, hg, he⟩ => ⟨g, List.mem_cons_of_mem _ hg, he⟩⟩
      intro g hg
      rcases List.mem_cons.mp hg with rfl | hg
      · simp
      · exact h₂ g hg
    | cons e g =>
      -- the head of the list is its smallest element
      have hmin : ∀ x ∈ e :: g, e.key ≤ x.key := by
        intro x hx
        rcases List.mem_cons.mp hx with rfl | hx
        · exact le_rfl
        · exact ((sorted_cons.mp (hs _ List.mem_cons_self)).1 x hx).le
      obtain ⟨k', hk', hle, hbest, hor⟩ := betterKey_some best e
      obtain ⟨hnone, hsome⟩ := ih hs' (some k')
      rw [List.head?_cons, hk']
      refine ⟨by rw [hnone]; simp, fun k hk => ?_⟩
      obtain ⟨h₁, h₂, h₃⟩ := hsome k hk
      have hkk' : k ≤ k' := h₁ k' rfl
      refine ⟨fun b hb => hkk'.trans (hbest b hb), ?_, ?_⟩
      · intro g' hg' x hx
        rcases List.mem_cons.mp hg' with rfl | hg'
        · exact hkk'.trans (hle.trans (hmin x hx))
        · exact h₂ g' hg' x hx
      · rcases h₃ with h₃ | ⟨g', hg', hx⟩
        · cases h₃
          rcases hor with rfl | hb
          · exact .inr ⟨_, List.mem_cons_self, e, List.mem_cons_self, rfl⟩
          · exact .inl hb
        · exact .inr ⟨g', List.mem_cons_of_mem _ hg', hx⟩

/-- The first child on the smallest key is on the record that the merge takes. -/
private theorem winner_eq (h : OnHeads its gs) (hs : ∀ g ∈ gs, Sorted Entry.key g) {k : Bytes}
    (hk : ∀ g ∈ gs, ∀ e ∈ g, k ≤ e.key) : winner its k = gs.findSome? (find Entry.key k) := by
  induction h with
  | nil => rfl
  | @cons it g its gs hhead htail ih =>
    have hfirst : ((Cursor.head it).filter fun e => e.key = k) = find Entry.key k g := by
      rw [hhead]
      cases g with
      | nil => rfl
      | cons e g =>
        rw [List.head?_cons, find_cons]
        by_cases he : e.key = k
        · simp [he]
        · -- the head is larger, and so is everything behind it
          have hlt : k < e.key := lt_of_le_of_ne (hk _ List.mem_cons_self e List.mem_cons_self)
            (Ne.symm he)
          have hnone : find Entry.key k g = none := find_eq_none_of_lt fun x hx =>
            hlt.trans ((sorted_cons.mp (hs _ List.mem_cons_self)).1 x hx)
          simp [he, hnone]
    have hrest := ih (fun g hg => hs g (List.mem_cons_of_mem _ hg))
      fun g hg => hk g (List.mem_cons_of_mem _ hg)
    rw [winner, List.findSome?_cons, hfirst, List.findSome?_cons, ← hrest, winner]

/-- One round: either all lists are exhausted, or the merge goes on with the record of the first
    child that is on the smallest key. -/
theorem merge_round (h : OnHeads its gs) (hs : ∀ g ∈ gs, Sorted Entry.key g) :
    (smallestKey its = none ∧ ∀ g ∈ gs, g = []) ∨
      ∃ e, smallestKey its = some e.key ∧ winner its e.key = some e ∧
        merge Entry.key gs = e :: merge Entry.key (gs.map (dropHead Entry.key e.key)) := by
  obtain ⟨hnone, hsome⟩ := foldl_betterKey h hs none
  cases hr : smallestKey its with
  | none => exact .inl ⟨rfl, (hnone.mp hr).2⟩
  | some k =>
    obtain ⟨-, hk, hex⟩ := hsome k hr
    obtain ⟨g, hg, x, hx, hxk⟩ := hex.resolve_left (by simp)
    have hwin := winner_eq h hs hk
    -- a child that holds the smallest key has it at its head
    obtain ⟨e, he⟩ : ∃ e, gs.findSome? (find Entry.key k) = some e := by
      cases hf : gs.findSome? (find Entry.key k) with
      | some e => exact ⟨e, rfl⟩
      | none =>
        have := List.findSome?_eq_none_iff.mp hf g hg
        exact absurd hxk (find_eq_none_iff.mp this x hx)
    have hek : e.key = k := by
      obtain ⟨l, -, hl⟩ := List.exists_of_findSome?_eq_some he
      exact (find_some hl).2
    subst hek
    exact .inr ⟨e, rfl, by rw [hwin, he], merge_eq_cons hs hk he⟩

/-- Advancing past a key drops it from the head of what an iterator yields. -/
theorem yields_consumeKey {it : ι} {l : List Entry} {s : Status} (h : Yields Status.OK it l s)
    (k : Bytes) :
    ∃ it', consumeKey k it = some it' ∧ Yields Status.OK it' (dropHead Entry.key k l) s := by
  rw [Lsmdb.consumeKey, h.head_eq]
  cases l with
  | nil => exact ⟨it, rfl, h⟩
  | cons e l =>
    simp only [List.head?_cons, dropHead]
    split
    · obtain ⟨-, -, it', hnext, hy⟩ := h
      exact ⟨it', hnext, hy⟩
    · exact ⟨it, rfl, h⟩

/-- Iterators advanced in parallel. -/
theorem consume_eq {β γ : Type} {R : ι → β → Prop} {S : ι → γ → Prop} {k : Bytes} {g : β → γ}
    (hstep : ∀ it t, R it t → ∃ it', consumeKey k it = some it' ∧ S it' (g t)) {ts : List β}
    (h : List.Forall₂ R its ts) :
    ∃ its', consume its k = some its' ∧ List.Forall₂ S its' (ts.map g) := by
  induction h with
  | nil => exact ⟨[], rfl, .nil⟩
  | cons hr htail ih =>
    obtain ⟨it', hit', hr'⟩ := hstep _ _ hr
    obtain ⟨its', hits', htail'⟩ := ih
    refine ⟨it' :: its', ?_, .cons hr' htail'⟩
    rw [Lsmdb.consume] at hits' ⊢
    simp [List.mapM_cons, hit', hits']

/-- What an iterator promises about a table: it yields a prefix of it and ends with the given
    status, and if that is `OK` it yields all of it. -/
def Reads (it : ι) (t : List Entry × Status) : Prop :=
  ∃ l, Yields Status.OK it l t.2 ∧ l <+: t.1 ∧ (t.2.ok = true → l = t.1 ∧ t.2 = .OK)

/-- An iterator that has not failed is on the head of its table. -/
theorem Reads.head_eq {it : ι} {t : List Entry × Status} (h : Reads it t)
    (hok : (Cursor.status it).ok = true) : Cursor.head it = t.1.head? := by
  obtain ⟨l, hy, hpre, hall⟩ := h
  rw [hy.head_eq]
  cases l with
  | nil =>
    have hst : t.2.ok = true := hy.2 ▸ hok
    rw [← (hall hst).1]
  | cons e l =>
    obtain ⟨l', hl'⟩ := hpre
    rw [← hl']
    rfl

/-- Advancing past a key drops it from the head of the table. -/
theorem Reads.consumeKey {it : ι} {t : List Entry × Status} (h : Reads it t)
    (hok : (Cursor.status it).ok = true) (k : Bytes) :
    ∃ it', consumeKey k it = some it' ∧ Reads it' (dropHead Entry.key k t.1, t.2) := by
  have hhead := h.head_eq hok
  obtain ⟨l, hy, hpre, hall⟩ := h
  obtain ⟨f, s⟩ := t
  dsimp only at *
  rw [Lsmdb.consumeKey, hhead]
  cases f with
  | nil => exact ⟨it, rfl, l, hy, hpre, hall⟩
  | cons e f =>
    cases l with
    | nil =>
      rw [hy.1] at hhead
      cases hhead
    | cons e' l =>
      -- the child stands on the head of what is left of it
      obtain ⟨rfl, hpre'⟩ := List.cons_prefix_cons.mp hpre
      simp only [List.head?_cons, dropHead]
      split
      · obtain ⟨-, -, it', hnext, hy'⟩ := hy
        exact ⟨it', hnext, l, hy', hpre', fun hs => ⟨(List.cons.inj (hall hs).1).2, (hall hs).2⟩⟩
      · exact ⟨it, rfl, _, hy, hpre, hall⟩

/-- Iterators that are at the end of their tables without having failed have read them. -/
private theorem statuses_of_ended {ts : List (List Entry × Status)} (h : List.Forall₂ Reads its ts)
    (hnil : ∀ t ∈ ts, t.1 = []) (hok : ∀ it ∈ its, (Cursor.status it).ok = true) :
    ∀ t ∈ ts, t.2 = .OK := by
  induction h with
  | nil => simp
  | @cons it t its ts hr htail ih =>
    have htail := ih (fun t ht => hnil t (List.mem_cons_of_mem _ ht))
      fun it hit => hok it (List.mem_cons_of_mem _ hit)
    -- a child without entries whose status is fine has come to its end
    have hhead : t.2 = .OK := by
      obtain ⟨l, hy, hpre, hall⟩ := hr
      rw [hnil t List.mem_cons_self, List.prefix_nil] at hpre
      subst hpre
      exact (hall (hy.2 ▸ hok it List.mem_cons_self)).2
    simpa using ⟨hhead, by simpa using htail⟩

/-- One round over iterators that have not failed: either all tables are exhausted, or the merge
    goes on with the record of the first iterator that is on the smallest key. -/
theorem reads_round {ts : List (List Entry × Status)} (h : List.Forall₂ Reads its ts)
    (hs : ∀ t ∈ ts, Sorted Entry.key t.1) (hok : ∀ it ∈ its, (Cursor.status it).ok = true) :
    (smallestKey its = none ∧ ∀ t ∈ ts, t.1 = []) ∨
      ∃ e its', smallestKey its = some e.key ∧ winner its e.key = some e ∧
        consume its e.key = some its' ∧
        List.Forall₂ Reads its' (ts.map fun t => (dropHead Entry.key e.key t.1, t.2)) ∧
        merge Entry.key (ts.map Prod.fst) =
          e :: merge Entry.key (ts.map fun t => dropHead Entry.key e.key t.1) := by
  have hheads : OnHeads its (ts.map Prod.fst) := by
    rw [OnHeads, List.forall₂_map_right_iff]
    induction h with
    | nil => exact .nil
    | cons hr htail ih =>
      exact .cons (hr.head_eq (hok _ List.mem_cons_self))
        (ih (fun t ht => hs t (List.mem_cons_of_mem _ ht))
          fun it hit => hok it (List.mem_cons_of_mem _ hit))
  have hs' : ∀ g ∈ ts.map Prod.fst, Sorted Entry.key g := by
    intro g hg
    obtain ⟨t, ht, rfl⟩ := List.mem_map.mp hg
    exact hs t ht
  rcases merge_round hheads hs' with ⟨hnone, hnil⟩ | ⟨e, hsmall, hwin, hmerge⟩
  · exact .inl ⟨hnone, fun t ht => hnil _ (List.mem_map_of_mem ht)⟩
  -- every child that stands on the key moves on
  · have hboth := (List.forall₂_and_left _ _).mpr ⟨hok, h⟩
    obtain ⟨its', hits', hreads⟩ := consume_eq (fun _ _ hr => hr.2.consumeKey hr.1 e.key) hboth
    rw [List.map_map] at hmerge
    exact .inr ⟨e, its', hsmall, hwin, hits', hreads, hmerge⟩

end Round

/-! ## The merging iterator -/

/-- The record that `DoCompaction` writes for a record it reads: of the type, only whether it is
    a tombstone survives. -/
def Entry.normal (e : Entry) : Entry :=
  ⟨e.key, e.value, if e.isTombstone then .tombstone else .value⟩

/-- A normalised record is a tombstone if the record is. -/
@[simp] theorem isTombstone_normal (e : Entry) : e.normal.isTombstone = e.isTombstone := by
  cases htomb : e.isTombstone <;> simp [Entry.normal, htomb] <;> rfl

/-- A normalised record has the value of the record. -/
@[simp] theorem live_normal (e : Entry) : e.normal.live = e.live := by
  rw [Entry.live, Entry.live, isTombstone_normal, Entry.normal]

namespace MergingIterator

/-- The first loop of `Advance`: it stops at a child that has failed, or all children are fine. -/
private theorem advance_status (m : MergingIterator) :
    (∃ m' s, m.advance = some m' ∧ Yields .OK m' [] s ∧ s.ok = false ∧
        ∃ it ∈ m.children, Cursor.status it = s) ∨
      (m.children.find? (fun c => !c.status.ok) = none ∧
        ∀ it ∈ m.children, (Cursor.status it).ok = true) := by
  cases hfail : m.children.find? fun c => !c.status.ok with
  | some c =>
    -- the iterator takes over the first status that is not `OK`
    have hc := List.find?_some hfail
    refine .inl ⟨{ m with status := c.status, valid := false }, c.status, ?_, ⟨rfl, rfl⟩, ?_,
      c, List.mem_of_find?_eq_some hfail, rfl⟩
    · rw [advance, hfail]
      rfl
    · simpa using hc
  | none =>
    refine .inr ⟨rfl, fun it hit => ?_⟩
    have hit' : ¬ (!it.status.ok) = true := List.find?_eq_none.mp hfail it hit
    show it.status.ok = true
    simpa using hit'

/-- A child whose table is read to the end never has a bad status. -/
private theorem status_of_reads {its : List SSTableReader.Iterator}
    {ts : List (List Entry × Status)} (h : List.Forall₂ Reads its ts)
    (hts : ∀ t ∈ ts, t.2 = .OK) {it : SSTableReader.Iterator} (hit : it ∈ its) :
    Cursor.status it = Status.OK := by
  induction h with
  | nil => cases hit
  | @cons c t its ts hr htail ih =>
    rcases List.mem_cons.mp hit with rfl | hit
    · obtain ⟨l, hy, -, -⟩ := hr
      rw [hts t List.mem_cons_self] at hy
      cases l with
      | nil => exact hy.2
      | cons e l => exact hy.2.1
    · exact ih (fun t ht => hts t (List.mem_cons_of_mem _ ht)) hit

/-- `Advance` yields a prefix of the merge of the tables, and all of it if it ends with `OK`, which
    it does if and only if no child fails. The induction is on what is left of the merge. -/
theorem advance_yields {m : MergingIterator} {ts : List (List Entry × Status)}
    (hstatus : m.status = .OK) (h : List.Forall₂ Reads m.children ts)
    (hs : ∀ t ∈ ts, Sorted Entry.key t.1) :
    ∃ m' l s, m.advance = some m' ∧ Yields .OK m' (l.map Entry.normal) s ∧
      l <+: merge Entry.key (ts.map Prod.fst) ∧
      (s.ok = true → l = merge Entry.key (ts.map Prod.fst) ∧ s = .OK ∧ ∀ t ∈ ts, t.2 = .OK) ∧
      ((∀ t ∈ ts, t.2 = .OK) → s = .OK) := by
  -- an end with a bad status comes from a child
  have hfailed {m : MergingIterator} {ts : List (List Entry × Status)} {s : Status}
      (h : List.Forall₂ Reads m.children ts) (hbad : s.ok = false)
      (hchild : ∃ it ∈ m.children, Cursor.status it = s) (hts : ∀ t ∈ ts, t.2 = .OK) : s = .OK := by
    obtain ⟨it, hit, rfl⟩ := hchild
    exact status_of_reads h hts hit
  generalize hf : merge Entry.key (ts.map Prod.fst) = f
  induction f generalizing m ts with
  | nil =>
    -- a child has failed, or all of them are fine
    rcases m.advance_status with ⟨m', s, hadv, hy, hbad, hchild⟩ | ⟨hfind, hok⟩
    · exact ⟨m', [], s, hadv, hy, List.nil_prefix, fun hs => by simp [hs] at hbad,
        hfailed h hbad hchild⟩
    rcases reads_round h hs hok with ⟨hsmall, hnil⟩ | ⟨e, -, -, -, -, -, hmerge⟩
    · refine ⟨{ m with valid := false }, [], .OK, ?_, ⟨rfl, hstatus⟩, List.nil_prefix,
        fun _ => ⟨rfl, rfl, statuses_of_ended h hnil hok⟩, fun _ => rfl⟩
      rw [advance, hfind, hsmall]
      rfl
    · rw [hf] at hmerge
      cases hmerge
  | cons e f ih =>
    rcases m.advance_status with ⟨m', s, hadv, hy, hbad, hchild⟩ | ⟨hfind, hok⟩
    · exact ⟨m', [], s, hadv, hy, List.nil_prefix, fun hs => by simp [hs] at hbad,
        hfailed h hbad hchild⟩
    rcases reads_round h hs hok with ⟨-, hnil⟩ | ⟨e', its', hsmall, hwin, hcons, hreads, hmerge⟩
    -- there is an entry left, so the children are not all at their end
    · have : merge Entry.key (ts.map Prod.fst) = [] := merge_eq_nil_iff.mpr (by simpa using hnil)
      rw [hf] at this
      cases this
    rw [hf] at hmerge
    obtain ⟨rfl, rfl⟩ := List.cons.inj hmerge
    set m' : MergingIterator := { m with
      children := its'
      curKey := e.key, curValue := e.value, curIsTombstone := e.isTombstone, valid := true }
      with hm'
    -- what is left of the children is still sorted
    have hsorted : ∀ t ∈ ts.map fun t => (dropHead Entry.key e.key t.1, t.2),
        Sorted Entry.key t.1 := by
      intro t ht
      obtain ⟨u, hu, rfl⟩ := List.mem_map.mp ht
      exact (hs u hu).dropHead e.key
    obtain ⟨m'', l, s, hadv, hy, hpre, hall, hfine⟩ :=
      @ih m' (ts.map fun t => (dropHead Entry.key e.key t.1, t.2)) hstatus hreads hsorted
        (by rw [List.map_map]; rfl)
    refine ⟨m', e :: l, s, ?_, ⟨rfl, hstatus, m'', ?_, hy⟩, ?_, fun hs => ?_, fun hts => ?_⟩
    · rw [advance, hfind]
      simp only [hsmall, hwin, hcons, bind, Option.bind, pure]
      rfl
    · show next m' = some m''
      rw [next, hm']
      exact hadv
    · exact List.cons_prefix_cons.mpr ⟨rfl, hpre⟩
    · obtain ⟨rfl, rfl, hts⟩ := hall hs
      refine ⟨rfl, rfl, fun t ht => ?_⟩
      have ht' : (dropHead Entry.key e.key t.1, t.2) ∈
          ts.map fun t => (dropHead Entry.key e.key t.1, t.2) := List.mem_map.mpr ⟨t, ht, rfl⟩
      exact hts (dropHead Entry.key e.key t.1, t.2) ht'
    · apply hfine
      intro t ht
      obtain ⟨u, hu, rfl⟩ := List.mem_map.mp ht
      exact hts u hu

end MergingIterator

end Lsmdb
