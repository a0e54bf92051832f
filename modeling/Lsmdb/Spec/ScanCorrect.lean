import Lsmdb.Spec.LookupCorrect

/-!
# Range scans

`Scan` merges iterators some of which may have died on a block that cannot be read. Its
loop does not look at their statuses, so it merges what each of them yields, which may
be less than the table has (`scanLoop_spec`). If all statuses are fine at the end, each
iterator has read its table up to the end of the range: it either reached the end of
the table or stands on a key behind the range (`filter_below_eq`). So a scan that
returns `OK` has seen every table of the version as far as it matters (`scan_spec`).
-/

namespace Lsmdb

open SortedMap Cursor

/-- Is the key below the end of a scan? An empty end is no bound. -/
def below (end_ k : Bytes) : Bool := decide (end_ = []) || decide (k < end_)

/-- The live pairs of records. -/
def livePairs (es : List Entry) : List (Bytes × Bytes) :=
  es.filterMap fun e => e.live.map fun value => (e.key, value)

/-- The records of a sorted list that are below the end. -/
private theorem filter_below_of_le {end_ cur : Bytes} {l : List Entry}
    (hcur : end_ ≠ [] ∧ cur ≥ end_) (hl : ∀ e ∈ l, cur ≤ e.key) :
    (l.filter fun e => below end_ e.key) = [] ∧ (l.filter fun e => !below end_ e.key) = l := by
  have hnot : ∀ e ∈ l, below end_ e.key = false := by
    intro e he
    simpa [below, hcur.1] using hcur.2.trans (hl e he)
  constructor
  · rw [List.filter_eq_nil_iff]
    intro e he
    simp [hnot e he]
  · rw [List.filter_eq_self]
    intro e he
    simp [hnot e he]

/-! ## The merge loop -/

section Loop

variable {end_ : Bytes}

/-- Each iterator stands on the first record of what it still yields. -/
private theorem onHeads_of_yields {its : List InternalIterator} {ts : List (List Entry × Status)}
    (h : List.Forall₂ (fun it t => Yields Status.OK it t.1 t.2) its ts) :
    OnHeads its (ts.map Prod.fst) := by
  rw [OnHeads, List.forall₂_map_right_iff]
  exact h.imp fun _ _ hy => hy.head_eq

/-- Consuming a key of the range leaves what is behind the range. -/
private theorem filter_dropHead {k : Bytes} (hk : below end_ k = true) (l : List Entry) :
    ((dropHead Entry.key k l).filter fun e => !below end_ e.key) =
      l.filter fun e => !below end_ e.key := by
  cases l with
  | nil => rfl
  | cons e l =>
    rw [dropHead]
    split
    · rename_i hek
      rw [List.filter_cons, hek, hk]
      rfl
    · rfl

/-- What is left of a list behind the end. -/
private def behind (end_ : Bytes) (t : List Entry × Status) : List Entry × Status :=
  (t.1.filter fun e => !below end_ e.key, t.2)

/-- The loop merges what its iterators yield below the end, and leaves them in front of the
    rest. The induction is on the merge, of which each turn takes the first record. -/
private theorem scanLoop_spec {its : List InternalIterator} {ts : List (List Entry × Status)}
    {fuel : Nat} (h : List.Forall₂ (fun it t => Yields Status.OK it t.1 t.2) its ts)
    (hs : ∀ t ∈ ts, Sorted Entry.key t.1)
    (hfuel : (merge Entry.key (ts.map Prod.fst)).length < fuel) (out : List (Bytes × Bytes)) :
    ∃ its', scanLoop end_ fuel its out =
        some (its', out ++ livePairs ((merge Entry.key (ts.map Prod.fst)).filter
          fun e => below end_ e.key)) ∧
      List.Forall₂ (fun it t => Yields Status.OK it t.1 t.2) its' (ts.map (behind end_)) := by
  generalize hm : merge Entry.key (ts.map Prod.fst) = m at hfuel ⊢
  -- induction on the merged records, of which every turn of the loop takes the first
  induction m generalizing its ts fuel out with
  | nil =>
    cases fuel with
    | zero => cases hfuel
    | succ fuel =>
      have hs' : ∀ g ∈ ts.map Prod.fst, Sorted Entry.key g := by simpa using hs
      -- nothing is left to merge: no iterator is valid
      rcases merge_round (onHeads_of_yields h) hs' with ⟨hnone, hnil⟩ | ⟨e, -, -, hmerge⟩
      · refine ⟨its, by simp [scanLoop, hnone, livePairs], ?_⟩
        have hall : ∀ t ∈ ts, behind end_ t = t := by
          intro t ht
          have hnil' : t.1 = [] := hnil _ (List.mem_map_of_mem ht)
          exact Prod.ext (by simp [behind, hnil']) rfl
        rwa [List.map_congr_left hall, List.map_id']
      · rw [hm] at hmerge
        cases hmerge
  | cons e m ih =>
    cases fuel with
    | zero => cases hfuel
    | succ fuel =>
      have hs' : ∀ g ∈ ts.map Prod.fst, Sorted Entry.key g := by simpa using hs
      rcases merge_round (onHeads_of_yields h) hs' with ⟨hnone, hnil⟩ | ⟨e', hsmall, hwin, hmerge⟩
      · rw [merge_eq_nil_iff.mpr hnil] at hm
        cases hm
      · rw [hm] at hmerge
        obtain ⟨rfl, hrest⟩ := List.cons.inj hmerge
        have hsorted : Sorted Entry.key (e :: m) := hm ▸ sorted_merge _
        have hle : ∀ x ∈ e :: m, e.key ≤ x.key := by
          intro x hx
          rcases List.mem_cons.mp hx with rfl | hx
          · exact le_rfl
          · exact ((sorted_cons.mp hsorted).1 x hx).le
        rw [scanLoop, hsmall]
        by_cases hstop : end_ ≠ [] ∧ e.key ≥ end_
        · -- the smallest key is behind the range, and so is everything else
          refine ⟨its, ?_, ?_⟩
          · rw [(filter_below_of_le hstop hle).1]
            simp [hstop, livePairs]
          · have hall : ∀ t ∈ ts, behind end_ t = t := by
              intro t ht
              refine Prod.ext ((filter_below_of_le hstop fun x hx => ?_).2) rfl
              obtain ⟨y, hy, hyx⟩ : ∃ y ∈ merge Entry.key (ts.map Prod.fst), y.key = x.key :=
                exists_mem_merge (List.mem_map_of_mem ht) hx
              exact hyx ▸ hle y (hm ▸ hy)
            rwa [List.map_congr_left hall, List.map_id']
        · -- one record more
          have hbelow : below end_ e.key = true := by
            simpa only [below, Bool.or_eq_true, decide_eq_true_eq, not_and_or, not_not, not_le, ge_iff_le]
              using hstop
          obtain ⟨its₁, hcons, hy₁⟩ : ∃ its₁, consume its e.key = some its₁ ∧
              List.Forall₂ (fun it t => Yields Status.OK it t.1 t.2) its₁
                (ts.map fun t => (dropHead Entry.key e.key t.1, t.2)) :=
            consume_eq (fun it t (hy : Yields Status.OK it t.1 t.2) => yields_consumeKey hy e.key) h
          obtain ⟨its', hloop, hy'⟩ := @ih its₁ (ts.map fun t => (dropHead Entry.key e.key t.1, t.2)) fuel
            hy₁ (by
              intro t ht
              obtain ⟨u, hu, rfl⟩ := List.mem_map.mp ht
              exact (hs u hu).dropHead e.key)
            (if e.isTombstone then out else out ++ [(e.key, e.value)])
            (by rw [hrest, List.map_map, List.map_map]; rfl)
            (by simpa using hfuel)
          refine ⟨its', ?_, ?_⟩
          · rw [List.filter_cons, if_pos hbelow]
            simp only [if_neg hstop, hwin, hcons, bind, Option.bind]
            rw [hloop]
            cases htomb : e.isTombstone with
            | true => simp [livePairs, Entry.live, htomb]
            | false => simp [livePairs, Entry.live, htomb]
          · rw [List.map_map] at hy'
            have hsame : (behind end_ ∘ fun t => (dropHead Entry.key e.key t.1, t.2)) =
                behind end_ := by
              funext t
              exact Prod.ext (filter_dropHead hbelow t.1) rfl
            rwa [hsame] at hy'

end Loop

/-! ## The sources -/

/-- What an iterator of the memtable yields. -/
private theorem yields_mem {it : SkipList.Iterator} {l : List Entry} {s : Status}
    (h : Yields Status.OK it l s) : Yields Status.OK (InternalIterator.mem it) l s := by
  induction l generalizing it with
  | nil => exact h
  | cons e l ih =>
    obtain ⟨hhead, hstatus, it', hnext, hy⟩ := h
    refine ⟨hhead, hstatus, .mem it', ?_, ih hy⟩
    show (Cursor.next it).map InternalIterator.mem = _
    rw [hnext]
    rfl

/-- What an iterator of a table yields. -/
private theorem yields_sst {it : SSTableReader.Iterator} {l : List Entry} {s : Status}
    (h : Yields Status.OK it l s) : Yields Status.OK (InternalIterator.sst it) l s := by
  induction l generalizing it with
  | nil => exact h
  | cons e l ih =>
    obtain ⟨hhead, hstatus, it', hnext, hy⟩ := h
    refine ⟨hhead, hstatus, .sst it', ?_, ih hy⟩
    show (Cursor.next it).map InternalIterator.sst = _
    rw [hnext]
    rfl

variable {d : FileMeta → SSTableReader} {mem : SkipList} {ms : List Entry} {v : Version}

/-- A source, sought to the start of the scan, reads its table from there on. -/
private def SeeksTo (start : Bytes) (it : InternalIterator) (t : List Entry) : Prop :=
  ∃ it' s, it.seek start = some it' ∧ Reads it' (fromKey Entry.key start t, s)

/-- Seeking in the memtable. -/
private theorem seeksTo_mem (h : mem.Holds ms) (start : Bytes) :
    SeeksTo start (.mem mem.newIterator) ms := by
  obtain ⟨it, hseek, hy⟩ := h.seek_yields start (show mem.newIterator.list = mem from rfl)
  refine ⟨.mem it, .OK, ?_, _, yields_mem hy, List.prefix_rfl, fun _ => ⟨rfl, rfl⟩⟩
  rw [InternalIterator.seek, hseek, Option.map_some]

/-- Seeking in a table with unreadable blocks. -/
private theorem seeksTo_sst {f : FileMeta} (hwf : f.Wf) {r : SSTableReader}
    (hd : f.reader.Damaged r) (start : Bytes) :
    SeeksTo start (.sst r.newIterator) f.entries := by
  obtain ⟨it, l, s, hseek, hy, hpre, hall, -⟩ := SSTableReader.Iterator.seek_yields
    (hwf.serves.damaged hd) (show r.newIterator.reader = r from rfl) (fun _ => rfl) start
  rw [FileMeta.blocks, flatten_blocksOf] at hpre hall
  refine ⟨.sst it, s, ?_, l, yields_sst hy, hpre, hall⟩
  rw [InternalIterator.seek, hseek, Option.map_some]

/-- Seeking all sources: one of them has failed, or each of them reads its table. -/
private theorem seekAll_spec {start : Bytes} {its : List InternalIterator}
    {tables : List (List Entry)} (h : List.Forall₂ (SeeksTo start) its tables) :
    (∃ s, seekAll start its = some (.error s) ∧ s.ok = false) ∨
      ∃ its' ts, seekAll start its = some (.ok its') ∧ List.Forall₂ Reads its' ts ∧
        ts.map Prod.fst = tables.map (fromKey Entry.key start) := by
  induction h with
  | nil => exact .inr ⟨[], [], rfl, .nil, rfl⟩
  | @cons it t its tables hit htail ih =>
    obtain ⟨it', s, hseek, hreads⟩ := hit
    -- the loop stops at the first iterator whose status is not `OK`
    cases hok : (Cursor.status it').ok with
    | false =>
      left
      refine ⟨Cursor.status it', ?_, hok⟩
      simp [seekAll, hseek, hok]
    | true =>
      rcases ih with ⟨s', hfail, hbad⟩ | ⟨its', ts, hrest, hall, hts⟩
      · left
        refine ⟨s', ?_, hbad⟩
        simp [seekAll, hseek, hok, hfail]
      · right
        refine ⟨it' :: its', (fromKey Entry.key start t, s) :: ts, ?_, .cons hreads hall, ?_⟩
        · simp [seekAll, hseek, hok, hrest]
        · rw [List.map_cons, List.map_cons, hts]

/-! ## The whole scan -/

/-- The records that an iterator yields of a table, with their status: a part that is all of it
    if the status is fine. -/
private def IsPart (y t : List Entry × Status) : Prop :=
  y.1 <+: t.1 ∧ (y.2.ok = true → y.1 = t.1 ∧ y.2 = .OK)

/-- An iterator that is fine at the end of a scan has read its table as far as the range goes. -/
private theorem filter_below_eq {end_ : Bytes} {y t : List Entry × Status}
    (hs : Sorted Entry.key t.1) (h : IsPart y t) {it : InternalIterator}
    (hy : Yields Status.OK it (behind end_ y).1 (behind end_ y).2)
    (hok : (Cursor.status it).ok = true) :
    (y.1.filter fun e => below end_ e.key) = t.1.filter fun e => below end_ e.key := by
  obtain ⟨l, s⟩ := y
  obtain ⟨f, s'⟩ := t
  obtain ⟨hpre, hall⟩ := h
  dsimp only [behind] at *
  rw [hy.status_eq] at hok
  split at hok
  · -- it is exhausted, so its table is
    rw [(hall hok).1]
  · -- it stands behind the range, and the table goes on from there
    rename_i hne
    obtain ⟨x, hx⟩ := List.exists_mem_of_ne_nil _ hne
    obtain ⟨hxl, hxb⟩ := List.mem_filter.mp hx
    obtain ⟨rest, rfl⟩ := hpre
    have hrest : (rest.filter fun e => below end_ e.key) = [] := by
      rw [List.filter_eq_nil_iff]
      intro e he hbelow
      have hlt := (sorted_append.mp hs).2.2 x hxl e he
      simp only [below, Bool.not_eq_true', Bool.or_eq_false_iff, decide_eq_false_iff_not,
        Bool.or_eq_true, decide_eq_true_eq, not_lt] at hxb hbelow
      exact (hlt.trans (hbelow.resolve_left hxb.1)).not_ge hxb.2
    rw [List.filter_append, hrest, List.append_nil]

/-- Iterators that are fine at the end of a scan have read their tables as far as the range goes. -/
private theorem filters_below_eq {end_ : Bytes} {its : List InternalIterator}
    {ys ts : List (List Entry × Status)} (hs : ∀ t ∈ ts, Sorted Entry.key t.1)
    (h : List.Forall₂ IsPart ys ts)
    (hy : List.Forall₂ (fun it t => Yields Status.OK it t.1 t.2) its (ys.map (behind end_)))
    (hok : ∀ it ∈ its, (Cursor.status it).ok = true) :
    (ys.map fun y => y.1.filter fun e => below end_ e.key) =
      ts.map fun t => t.1.filter fun e => below end_ e.key := by
  induction h generalizing its with
  | nil => rfl
  | @cons y t ys ts hyt htail ih =>
    cases hy with
    | @cons it _ its _ hhead hy =>
      rw [List.map_cons, List.map_cons,
        ih (fun t ht => hs t (List.mem_cons_of_mem _ ht)) hy
          fun it hit => hok it (List.mem_cons_of_mem _ hit),
        filter_below_eq (hs t List.mem_cons_self) hyt hhead (hok it List.mem_cons_self)]

/-- The part of a merge below the end comes from the parts of the lists below it. -/
private theorem merge_filter_congr {p : Bytes → Bool} {gs gs' : List (List Entry)}
    (h : (gs.map fun g => g.filter fun e => p e.key) = gs'.map fun g => g.filter fun e => p e.key) :
    ((merge Entry.key gs).filter fun e => p e.key) =
      (merge Entry.key gs').filter fun e => p e.key := by
  have hsorted (gs : List (List Entry)) :
      Sorted Entry.key ((merge Entry.key gs).filter fun e => p e.key) :=
    Sorted.sublist (sorted_merge gs) List.filter_sublist
  have hfind (gs : List (List Entry)) (k : Bytes) :
      find Entry.key k ((merge Entry.key gs).filter fun e => p e.key) =
        newest (gs.map fun g => g.filter fun e => p e.key) k := by
    rw [find_filter_key, find_merge, newest, List.findSome?_map]
    have hcomp : (find Entry.key k ∘ fun g => g.filter fun e => p e.key) =
        fun g => if p k then find Entry.key k g else none := by
      funext g
      exact find_filter_key p k g
    rw [hcomp]
    by_cases hk : p k = true
    · simp only [if_pos hk]
    · simp only [if_neg hk]
      exact (List.findSome?_eq_none_iff.mpr fun _ _ => rfl).symm
  -- both sides are sorted, so it is enough to find the same record under every key
  apply ext_find (hsorted gs) (hsorted gs')
  intro k
  rw [hfind, hfind, h]

/-- The pairs of a scan are the keys with a value. -/
private theorem mem_livePairs {m : List Entry} (hm : Sorted Entry.key m) {k value : Bytes} :
    (k, value) ∈ livePairs m ↔ (find Entry.key k m).bind Entry.live = some value := by
  rw [livePairs, List.mem_filterMap, Option.bind_eq_some_iff]
  simp only [Option.map_eq_some_iff, Prod.mk.injEq, hm.find_eq_some_iff]
  constructor
  · rintro ⟨e, he, v, hv, hk, rfl⟩
    exact ⟨e, ⟨he, hk⟩, hv⟩
  · rintro ⟨e, ⟨he, hk⟩, hv⟩
    exact ⟨e, he, value, hv, hk, rfl⟩

/-- They are in ascending order. -/
private theorem sorted_livePairs {m : List Entry} (hm : Sorted Entry.key m) :
    ((livePairs m).map Prod.fst).Pairwise (· < ·) := by
  rw [List.pairwise_map, livePairs, List.pairwise_filterMap]
  apply hm.imp
  intro e e' hlt p hp p' hp'
  obtain ⟨v, -, rfl⟩ := Option.map_eq_some_iff.mp hp
  obtain ⟨v', -, rfl⟩ := Option.map_eq_some_iff.mp hp'
  exact hlt

/-- The tables behind a key. -/
private theorem newest_map_fromKey (start k : Bytes) (ts : List (List Entry)) :
    newest (ts.map (fromKey Entry.key start)) k = if start ≤ k then newest ts k else none := by
  rw [newest, List.findSome?_map]
  have hcomp : (find Entry.key k ∘ fromKey Entry.key start) =
      fun t => if start ≤ k then find Entry.key k t else none :=
    funext fun t => find_fromKey start k t
  rw [hcomp]
  by_cases hk : start ≤ k
  · simp only [if_pos hk]
    rfl
  · simp only [if_neg hk]
    exact List.findSome?_eq_none_iff.mpr fun _ _ => rfl

/-- What the sources of a scan read. -/
private theorem seeksTo_sources (hm : mem.Holds ms) (hv : Layout v)
    (hd : ∀ f ∈ v.files, f.reader.Damaged (d f)) (start : Bytes) :
    List.Forall₂ (SeeksTo start) (scanSources mem (v.damage d)) (ms :: v.tables) := by
  apply List.Forall₂.cons (seeksTo_mem hm start)
  rw [byPriority_damage, Version.tables, List.map_map, List.forall₂_map_left_iff,
    List.forall₂_map_right_iff, List.forall₂_same]
  intro f hf
  exact seeksTo_sst (hv.wf f (mem_byPriority.mp hf)) (hd f (mem_byPriority.mp hf)) start

/-- What each iterator yields is part of what its table holds. -/
private theorem exists_yields {its : List InternalIterator} {ts : List (List Entry × Status)}
    (h : List.Forall₂ Reads its ts) (hs : ∀ t ∈ ts, Sorted Entry.key t.1) :
    ∃ ys : List (List Entry × Status), (∀ y ∈ ys, Sorted Entry.key y.1) ∧
      List.Forall₂ (fun it y => Yields Status.OK it y.1 y.2) its ys ∧ List.Forall₂ IsPart ys ts := by
  induction h with
  | nil => exact ⟨[], by simp, .nil, .nil⟩
  | @cons it t its ts hr htail ih =>
    obtain ⟨ys, hsorted, hys, hall⟩ := ih fun t ht => hs t (List.mem_cons_of_mem _ ht)
    obtain ⟨l, hy, hpre, hok⟩ := hr
    have hl : Sorted Entry.key l := (hs t List.mem_cons_self).sublist hpre.sublist
    exact ⟨(l, t.2) :: ys, List.forall_mem_cons.mpr ⟨hl, hsorted⟩, .cons hy hys,
      .cons ⟨hpre, hok⟩ hall⟩

/-- The turns of the loop are enough. -/
private theorem length_merge_lt (hm : mem.Holds ms) (hv : Layout v)
    (hd : ∀ f ∈ v.files, f.reader.Damaged (d f)) {start : Bytes} {gs : List (List Entry)}
    (h : List.Forall₂ (fun g t => g.length ≤ (fromKey Entry.key start t).length) gs
      (ms :: v.tables)) :
    (merge Entry.key gs).length < scanTurns mem (v.damage d) := by
  have hmerge : (merge Entry.key gs).length ≤ (gs.map List.length).sum := length_merge_le gs
  have hsum : (gs.map List.length).sum ≤ ((ms :: v.tables).map List.length).sum := by
    apply List.Forall₂.sum_le_sum
    rw [List.forall₂_map_left_iff, List.forall₂_map_right_iff]
    exact h.imp fun g t hgt => hgt.trans (List.length_filter_le _ _)
  -- a table takes at least a byte per record
  have hfiles : (v.tables.map List.length).sum ≤
      ((v.damage d).byPriority.map fun f => f.reader.base.length).sum := by
    rw [byPriority_damage, Version.tables, List.map_map, List.map_map]
    apply List.sum_le_sum
    intro f hf
    show f.entries.length ≤ (d f).base.length
    rw [(hd f (mem_byPriority.mp hf)).length_eq]
    exact IsTable.length_le_base (hv.wf f (mem_byPriority.mp hf))
  have hmem := hm.length_lt
  rw [List.map_cons, List.sum_cons] at hsum
  rw [scanTurns]
  omega

/-- A scan that returns `OK` returns the live pairs of its range, in ascending order. -/
theorem scan_spec (hm : mem.Holds ms) (hv : Layout v)
    (hd : ∀ f ∈ v.files, f.reader.Damaged (d f)) (start end_ : Bytes) :
    ∃ s out, scan mem (v.damage d) start end_ = some (s, out) ∧
      (s.ok = true → (out.map Prod.fst).Pairwise (· < ·) ∧
        ∀ k value, (k, value) ∈ out ↔
          start ≤ k ∧ (end_ ≠ [] → k < end_) ∧ liveIn (ms :: v.tables) k = some value) := by
  have htables : ∀ t ∈ ms :: v.tables, Sorted Entry.key t := by
    intro t ht
    rcases List.mem_cons.mp ht with rfl | ht
    · exact hm.sorted
    · obtain ⟨f, hf, rfl⟩ := List.mem_map.mp ht
      exact (hv.wf f (mem_byPriority.mp hf)).sorted
  rcases seekAll_spec (seeksTo_sources hm hv hd start) with ⟨s, hseek, hbad⟩ |
    ⟨its, ts, hseek, hreads, hts⟩
  · refine ⟨s, [], by simp [scan, hseek], fun hok => ?_⟩
    rw [hbad] at hok
    cases hok
  have hsorted : ∀ t ∈ ts, Sorted Entry.key t.1 := by
    intro t ht
    have hmem : t.1 ∈ (ms :: v.tables).map (fromKey Entry.key start) :=
      hts ▸ List.mem_map_of_mem ht
    obtain ⟨t', ht', heq⟩ := List.mem_map.mp hmem
    exact heq ▸ (htables t' ht').fromKey start
  obtain ⟨ys, hysorted, hys, hyts⟩ := exists_yields hreads hsorted
  -- an iterator yields no more records than its table has, which bounds the turns of the loop
  have hlen : List.Forall₂ (fun g t => g.length ≤ (fromKey Entry.key start t).length)
      (ys.map Prod.fst) (ms :: v.tables) := by
    have hle : List.Forall₂ (fun g t : List Entry => g.length ≤ t.length)
        (ys.map Prod.fst) (ts.map Prod.fst) := by
      rw [List.forall₂_map_left_iff, List.forall₂_map_right_iff]
      exact hyts.imp fun y t hyt => hyt.1.length_le
    rwa [hts, List.forall₂_map_right_iff] at hle
  obtain ⟨its', hloop, hy'⟩ := @scanLoop_spec end_ _ _ _ hys hysorted
    (length_merge_lt hm hv hd hlen) []
  rw [List.nil_append] at hloop
  set out := livePairs ((merge Entry.key (ys.map Prod.fst)).filter fun e => below end_ e.key)
    with hout
  -- `Scan` returns the first status that is not `OK`; only the case without one is left
  cases hfind : its'.find? fun it => !(Cursor.status it).ok with
  | some it =>
    have hbad := List.find?_some hfind
    have hscan : scan mem (v.damage d) start end_ = some (Cursor.status it, out) := by
      simp only [scan, hseek, hloop, hfind, bind, Option.bind, pure]
    refine ⟨_, _, hscan, fun hok => ?_⟩
    rw [hok] at hbad
    cases hbad
  | none =>
    have hok : ∀ it ∈ its', (Cursor.status it).ok = true := by
      intro it hit
      simpa using List.find?_eq_none.mp hfind it hit
    have hbelow := filters_below_eq hsorted hyts hy' hok
    have hmerge : ((merge Entry.key (ys.map Prod.fst)).filter fun e => below end_ e.key) =
        (merge Entry.key (ts.map Prod.fst)).filter fun e => below end_ e.key := by
      apply merge_filter_congr
      rw [List.map_map, List.map_map]
      exact hbelow
    have hs : Sorted Entry.key ((merge Entry.key (ts.map Prod.fst)).filter fun e => below end_ e.key) :=
      Sorted.sublist (sorted_merge _) List.filter_sublist
    have hscan : scan mem (v.damage d) start end_ = some (.OK, out) := by
      simp only [scan, hseek, hloop, hfind, bind, Option.bind, pure]
    refine ⟨_, _, hscan, fun _ => ?_⟩
    rw [hout, hmerge]
    refine ⟨sorted_livePairs hs, fun k value => ?_⟩
    rw [mem_livePairs hs, find_filter_key, hts, newest_merge, newest_map_fromKey, liveIn]
    simp only [below, Bool.or_eq_true, decide_eq_true_eq]
    split_ifs with hb hk <;> simp_all [or_iff_not_imp_left]

/-! ## Tables that can be read -/

/-- A source that can be read, sought to the start of the scan, yields its table from there on. -/
private def SeeksOn (start : Bytes) (it : InternalIterator) (t : List Entry) : Prop :=
  ∃ it', it.seek start = some it' ∧ Yields Status.OK it' (fromKey Entry.key start t) .OK

/-- Seeking in the memtable. -/
private theorem seeksOn_mem (h : mem.Holds ms) (start : Bytes) :
    SeeksOn start (.mem mem.newIterator) ms := by
  obtain ⟨it, hseek, hy⟩ := h.seek_yields start (show mem.newIterator.list = mem from rfl)
  refine ⟨.mem it, ?_, yields_mem hy⟩
  rw [InternalIterator.seek, hseek, Option.map_some]

/-- Seeking in an intact table. -/
private theorem seeksOn_sst {f : FileMeta} (hwf : f.Wf) (start : Bytes) :
    SeeksOn start (.sst f.reader.newIterator) f.entries := by
  obtain ⟨it, l, s, hseek, hy, -, hall, hintact⟩ := SSTableReader.Iterator.seek_yields
    hwf.serves (show f.reader.newIterator.reader = f.reader from rfl) (fun _ => rfl) start
  obtain rfl := hintact hwf.intact
  obtain ⟨rfl, -⟩ := hall rfl
  rw [FileMeta.blocks, flatten_blocksOf] at hy
  refine ⟨.sst it, ?_, yields_sst hy⟩
  rw [InternalIterator.seek, hseek, Option.map_some]

/-- Such an iterator keeps the status `OK`. -/
private theorem status_ok_of_yields {it : InternalIterator} {l : List Entry}
    (h : Yields Status.OK it l .OK) : (Cursor.status it).ok = true := by
  rw [h.status_eq, ite_self]
  rfl

/-- On intact tables every iterator is positioned. -/
private theorem seekAll_on {start : Bytes} {its : List InternalIterator}
    {tables : List (List Entry)} (h : List.Forall₂ (SeeksOn start) its tables) :
    ∃ its', seekAll start its = some (.ok its') ∧
      List.Forall₂ (fun it t => Yields Status.OK it (fromKey Entry.key start t) .OK) its' tables := by
  induction h with
  | nil => exact ⟨[], rfl, .nil⟩
  | cons hit _ ih =>
    obtain ⟨it', hseek, hy⟩ := hit
    obtain ⟨its', hrest, hall⟩ := ih
    exact ⟨it' :: its', by simp [seekAll, hseek, status_ok_of_yields hy, hrest], .cons hy hall⟩

/-- A scan over tables that can be read returns `OK`. -/
theorem scan_intact (hm : mem.Holds ms) (hv : Layout v) (start end_ : Bytes) :
    ∃ out, scan mem v start end_ = some (.OK, out) ∧ (out.map Prod.fst).Pairwise (· < ·) ∧
      ∀ k value, (k, value) ∈ out ↔
        start ≤ k ∧ (end_ ≠ [] → k < end_) ∧ liveIn (ms :: v.tables) k = some value := by
  obtain ⟨s, out, hscan, hout⟩ := scan_spec hm hv (fun f _ => .refl f.reader) start end_
  rw [damage_reader] at hscan
  have hsources : List.Forall₂ (SeeksOn start) (scanSources mem v) (ms :: v.tables) := by
    apply List.Forall₂.cons (seeksOn_mem hm start)
    rw [Version.tables, List.forall₂_map_left_iff, List.forall₂_map_right_iff, List.forall₂_same]
    exact fun f hf => seeksOn_sst (hv.wf f (mem_byPriority.mp hf)) start
  obtain ⟨its, hseek, hits⟩ := seekAll_on hsources
  set ts : List (List Entry × Status) :=
    (ms :: v.tables).map fun t => (fromKey Entry.key start t, Status.OK) with hts
  have hyields : List.Forall₂ (fun it t => Yields Status.OK it t.1 t.2) its ts := by
    rw [hts, List.forall₂_map_right_iff]
    exact hits
  have hsorted : ∀ t ∈ ts, Sorted Entry.key t.1 := by
    intro t ht
    obtain ⟨t', ht', rfl⟩ := List.mem_map.mp ht
    rcases List.mem_cons.mp ht' with rfl | ht'
    · exact hm.sorted.fromKey start
    · obtain ⟨f, hf, rfl⟩ := List.mem_map.mp ht'
      exact (hv.wf f (mem_byPriority.mp hf)).sorted.fromKey start
  have hlen : List.Forall₂ (fun g t => g.length ≤ (fromKey Entry.key start t).length)
      (ts.map Prod.fst) (ms :: v.tables) := by
    rw [hts, List.map_map, List.forall₂_map_left_iff, List.forall₂_same]
    exact fun t _ => le_rfl
  have hturns : (merge Entry.key (ts.map Prod.fst)).length < scanTurns mem v := by
    rw [← damage_reader v]
    exact length_merge_lt hm hv (fun f _ => .refl f.reader) hlen
  obtain ⟨its', hloop, hy'⟩ := @scanLoop_spec end_ _ _ _ hyields hsorted hturns []
  -- no iterator has died, so the status is the one behind the loop
  have hstatus : ∀ it ∈ its', (Cursor.status it).ok = true := by
    rw [hts, List.map_map, List.forall₂_map_right_iff] at hy'
    exact ((List.forall₂_and_left (p := fun it => (Cursor.status it).ok = true) its' _).mp
      (hy'.imp fun it t hy => ⟨status_ok_of_yields hy, hy⟩)).1
  have hfind : (its'.find? fun it => !(Cursor.status it).ok) = none := by
    rw [List.find?_eq_none]
    intro it hit
    simp [hstatus it hit]
  have hok : s = .OK := by
    simp only [scan, hseek, hloop, hfind, bind, Option.bind, pure, Option.some.injEq,
      Prod.mk.injEq] at hscan
    exact hscan.1.symm
  subst hok
  exact ⟨out, hscan, hout rfl⟩

end Lsmdb
