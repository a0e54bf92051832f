import Lsmdb.ForStd.SortedMap
import Lsmdb.Native.Coding

/-!
# The key-value map

What the engine is for, in terms of records and nothing else. A `Store` maps keys to
values, and a write changes it at one key. A table is a sorted list of records; of
several tables in priority order the first that has a key holds its newest version,
and the store they stand for has the value of that version unless it is a tombstone.
-/

namespace Lsmdb

open SortedMap

/-! ## Records -/

/-- What a lookup that ends at this record returns. -/
def Entry.result (e : Entry) : LookupResult := if e.isTombstone then .deleted else .found e.value

/-- The value of a record, if it has one. -/
def Entry.live (e : Entry) : Option Bytes := if e.isTombstone then none else some e.value

/-- The value that a lookup reports. -/
def LookupResult.value : LookupResult → Option Bytes
  | found v => some v
  | deleted => none
  | notFound => none

@[simp] theorem value_result (e : Entry) : e.result.value = e.live := by
  unfold Entry.result Entry.live
  split <;> rfl

/-- A record gives an answer, even if it is a tombstone. -/
theorem result_ne_notFound (e : Entry) : e.result ≠ .notFound := by
  unfold Entry.result
  split <;> simp

/-! ## Tables -/

/-- Lookup in one table. -/
def lookup (es : List Entry) (k : Bytes) : LookupResult :=
  (find Entry.key k es).elim .notFound Entry.result

/-- `Get` finds nothing if there is no record of the key. -/
theorem lookup_eq_notFound_iff {es : List Entry} {k : Bytes} :
    lookup es k = .notFound ↔ find Entry.key k es = none := by
  rw [lookup]
  cases find Entry.key k es with
  | none => simp
  | some e => simpa using result_ne_notFound e

/-- Records of other keys do not matter. -/
theorem lookup_append_of_absent {es₁ : List Entry} {k : Bytes} (h : find Entry.key k es₁ = none)
    (es₂ : List Entry) : lookup (es₁ ++ es₂) k = lookup es₂ k := by
  rw [lookup, find_append, h, Option.none_or, lookup]

/-- The newest version of a key in tables in priority order. -/
def newest (ts : List (List Entry)) (k : Bytes) : Option Entry := ts.findSome? (find Entry.key k)

@[simp] theorem newest_nil (k : Bytes) : newest [] k = none := rfl

@[simp] theorem newest_cons (t : List Entry) (ts : List (List Entry)) (k : Bytes) :
    newest (t :: ts) k = (find Entry.key k t).or (newest ts k) := by
  rw [newest, List.findSome?_cons]
  cases find Entry.key k t <;> rfl

@[simp] theorem newest_append (ts ts' : List (List Entry)) (k : Bytes) :
    newest (ts ++ ts') k = (newest ts k).or (newest ts' k) := by
  induction ts with
  | nil => simp
  | cons t ts ih => rw [List.cons_append, newest_cons, newest_cons, ih, Option.or_assoc]

/-- A key without a record in any table. -/
theorem newest_eq_none_iff {ts : List (List Entry)} {k : Bytes} :
    newest ts k = none ↔ ∀ t ∈ ts, find Entry.key k t = none :=
  List.findSome?_eq_none_iff

/-- The merge holds the newest record of every key. -/
theorem newest_merge (ts : List (List Entry)) (k : Bytes) :
    find Entry.key k (merge Entry.key ts) = newest ts k :=
  find_merge k ts

/-! ## Stores -/

/-- What a client has stored. -/
abbrev Store := Bytes → Option Bytes

namespace Store

/-- Nothing stored. -/
def empty : Store := fun _ => none

/-- A write. -/
def apply (m : Store) (e : Entry) : Store := fun k => if e.key = k then e.live else m k

/-- Several writes in order. -/
def applyAll (m : Store) (es : List Entry) : Store := es.foldl apply m

@[simp] theorem applyAll_nil (m : Store) : m.applyAll [] = m := rfl

@[simp] theorem applyAll_append (m : Store) (es fs : List Entry) :
    m.applyAll (es ++ fs) = (m.applyAll es).applyAll fs := by
  rw [applyAll, List.foldl_append, applyAll, applyAll]

@[simp] theorem applyAll_singleton (m : Store) (e : Entry) : m.applyAll [e] = m.apply e := rfl

/-- A key that is not written keeps its value. -/
theorem applyAll_of_not_mem (m : Store) {es : List Entry} {k : Bytes}
    (h : k ∉ es.map Entry.key) : m.applyAll es k = m k := by
  induction es generalizing m with
  | nil => rfl
  | cons e es ih =>
    rw [List.map_cons, List.mem_cons, not_or] at h
    have hstep : (m.apply e).applyAll es k = m.apply e k := ih _ h.2
    rw [show m.applyAll (e :: es) = (m.apply e).applyAll es from rfl, hstep, apply,
      if_neg (Ne.symm h.1)]

/-- The value of a key that is written does not depend on what was stored before. -/
theorem applyAll_of_mem (m m' : Store) {es : List Entry} {k : Bytes}
    (h : k ∈ es.map Entry.key) : m.applyAll es k = m'.applyAll es k := by
  induction es generalizing m m' with
  | nil => simp at h
  | cons e es ih =>
    show (m.apply e).applyAll es k = (m'.apply e).applyAll es k
    by_cases hes : k ∈ es.map Entry.key
    · exact ih _ _ hes
    · rw [List.map_cons, List.mem_cons, or_iff_left hes] at h
      rw [applyAll_of_not_mem _ hes, applyAll_of_not_mem _ hes, apply, apply, if_pos h.symm,
        if_pos h.symm]

end Store

/-- The store that tables in priority order stand for. -/
def liveIn (ts : List (List Entry)) : Store := fun k => (newest ts k).bind Entry.live

@[simp] theorem liveIn_nil : liveIn [] = Store.empty := rfl

@[simp] theorem liveIn_nil_cons (ts : List (List Entry)) : liveIn ([] :: ts) = liveIn ts := by
  funext k
  rw [liveIn, newest_cons, find_nil, Option.none_or, liveIn]

/-- A write to the first table is a write to the store. -/
theorem liveIn_insert (e : Entry) (t : List Entry) (ts : List (List Entry)) :
    liveIn (insert Entry.key e t :: ts) = (liveIn (t :: ts)).apply e := by
  funext k
  simp only [liveIn, Store.apply, newest_cons, find_insert]
  split_ifs <;> rfl

/-- Tables without a key do not decide about it. -/
theorem liveIn_cons_of_absent {t : List Entry} {k : Bytes} (h : find Entry.key k t = none)
    (ts : List (List Entry)) : liveIn (t :: ts) k = liveIn ts k := by
  rw [liveIn, newest_cons, h, Option.none_or, liveIn]

/-- The first table decides about the keys it has. -/
theorem value_lookup {t : List Entry} {k : Bytes} (h : lookup t k ≠ .notFound)
    (ts : List (List Entry)) : (lookup t k).value = liveIn (t :: ts) k := by
  rw [liveIn, newest_cons, lookup]
  cases hfind : find Entry.key k t with
  | none => exact absurd (lookup_eq_notFound_iff.mpr hfind) h
  | some e => simp

end Lsmdb
