import Lsmdb.Spec.ProgramCalls
import Lsmdb.Spec.SystemInvariant
import Lsmdb.Spec.Traces

/-!
# What the calls of the client return

`Done` says what a call has stored when it comes to its end. Here this is put together
with what the call returns (`Legal`): a write that returns `OK` is stored, a status is
`OK` unless a call to a file has failed, and a scan returns `OK` and all of its range.
-/

namespace Lsmdb

open Prog

variable {g g' : Ghost} {w w' : World} {x : Session} {mem : SkipList} {o : Bool}

/-- What holds when the program of a call has come to its end, with its result. -/
def Replied (op : Op) (x : Session) (r : Reply) (g : Ghost) (w : World) : Prop :=
  Done op x r g w ∧ Legal g.Faulty x.store op r g.session.store

/-- A call leaves what was acknowledged before it as it was. -/
theorem Done.acked_eq {op : Op} {r : Reply} (h : Done op x r g w) :
    g.session.acked = x.acked := by
  cases hop : op.entry with
  | none => exact (h.other hop).acked
  | some e =>
    rcases h.write e hop with ⟨-, hw⟩ | hfailed
    · exact hw.acked
    · exact hfailed.rejected.acked

/-- A reply that is legal without a fault is legal with one. -/
theorem Legal.faulty {φ ψ : Prop} {m m' : Store} {op : Op} {r : Reply} (hφ : φ → ψ)
    (h : Legal φ m op r m') : Legal ψ m op r m' := by
  cases op <;> cases r <;> first
    | exact h.elim
    | exact h
    | exact h.imp_right fun hs => ⟨hs.1, hφ hs.2.1, hs.2.2⟩
    | exact ⟨h.1, h.2.imp_right fun hs => ⟨hs.1, hφ hs.2⟩⟩

/-- Without failures no call ends with an error. -/
theorem Legal.ok_of_status {φ : Prop} {m m' : Store} {op : Op} {s : Status}
    (h : Legal φ m op (.status s) m') (hφ : ¬ φ) : s.ok = true := by
  -- only a fault is an excuse
  cases op with
  | put | delete =>
    rcases h with ⟨rfl, -⟩ | ⟨-, hfaulty, -⟩
    · rfl
    · exact absurd hfaulty hφ
  | flush =>
    rcases h with ⟨-, rfl | ⟨-, hfaulty⟩⟩
    · rfl
    · exact absurd hfaulty hφ
  | close =>
    obtain ⟨-, rfl⟩ := h
    rfl
  | get | scan => exact h.elim

/-- A reply is not taken back. -/
theorem stable_replied (op : Op) (r : Reply) : Stable (protocol .client) (Replied op x r) := by
  intro g w g' w' hr hi h
  refine ⟨stable_done op r g w g' w' hr hi h.1, ?_⟩
  rw [(hr.client rfl).1]
  exact h.2.faulty (stable_faulty g w g' w' hr hi)

variable (cfg : Config)

/-- `Put` and `Delete`. -/
private theorem triple_wrote {op : Op} {e : Entry} {p : DBE Unit} (hop : op.entry = some e)
    (hlegal : ∀ (φ : Prop) s m m', Wrote φ m e s m' → Legal φ m op (.status s) m')
    (hnotOk : p.run.Returns NotOk)
    (h : TripleE (exec .client) (protocol .client)
      (fun g w => w.mutex ≠ some .client ∧ Knows x mem o g w ∧ (o = false → g.Faulty)) p
      (fun _ g w => w.mutex ≠ some .client ∧ Written e x g.session ∧ w.walOpen = true)
      fun _ => WriteFailed x e) :
    Triple (exec .client) (protocol .client)
      (fun g w => Reading x mem o g w ∧ (o = false → g.Faulty))
      (p.run >>= fun r => Prog.ret (.status (statusOf r))) (Replied op x) := by
  have hget (k : Bytes) : op ≠ .get k := by
    rintro rfl
    cases hop
  apply Triple.bind (Triple.conseq (Triple.returns h hnotOk)
    (fun g w _ hP => ⟨hP.1.1, hP.1.2, hP.2⟩) fun _ g w _ hQ => hQ)
  intro r
  apply Triple.ret
  intro g w _ ⟨hr, hbad⟩
  cases r with
  -- an acknowledged write is in the store
  | ok a =>
    obtain ⟨hm, hw, ho⟩ := hr
    refine ⟨⟨hm, fun hclosed => ?_, fun e' he => .inl ⟨rfl, ?_⟩, fun hn => ?_, fun k hk => ?_⟩, ?_⟩
    · rw [ho] at hclosed
      cases hclosed
    · cases hop.symm.trans he
      exact hw
    · cases hop.symm.trans hn
    · exact absurd hk (hget k)
    · exact hlegal _ _ _ _ (.inl ⟨rfl, hw.store⟩)
  -- a rejected one may or may not be, and there was a fault
  | error s =>
    have hf : WriteFailed x e g w := hr
    refine ⟨⟨hf.unlocked, fun _ => hf.fault, fun e' he => .inr ?_, fun hn => ?_, fun k hk => ?_⟩, ?_⟩
    · cases hop.symm.trans he
      exact hf
    · cases hop.symm.trans hn
    · exact absurd hk (hget k)
    · exact hlegal _ _ _ _ (.inr ⟨hbad s rfl, hf.fault, hf.rejected.store⟩)

/-- A call that writes nothing. -/
private theorem replied_of_flushed {op : Op} {r : Reply} (hop : op.entry = none)
    (hget : ∀ k, op = .get k → ∃ a, r = .lookup a ∧ a.value = x.store k)
    (hm : w.mutex ≠ some .client) (hf : Flushed x g.session) (ho : w.walOpen = false → g.Faulty)
    (hlegal : Legal g.Faulty x.store op r x.store) : Replied op x r g w := by
  refine ⟨⟨hm, ho, fun e he => ?_, fun _ => hf, hget⟩, hf.store ▸ hlegal⟩
  cases hop.symm.trans he

/-- A call that only reads. -/
private theorem replied_of_reading {op : Op} {r : Reply} (hop : op.entry = none)
    (hget : ∀ k, op = .get k → ∃ a, r = .lookup a ∧ a.value = x.store k)
    (h : Reading x mem o g w) (ho : o = false → g.Faulty)
    (hlegal : Legal g.Faulty x.store op r x.store) : Replied op x r g w := by
  apply replied_of_flushed hop hget h.1 _ _ hlegal
  · rw [h.2.session]
    exact .refl x
  · exact fun hclosed => ho (h.2.walOpen_eq ▸ hclosed)

/-- `Scan` returns what is stored. -/
theorem triple_scan_exact (start end_ : Bytes) : Triple (exec .client) (protocol .client)
    (Reading x mem o) (DB.scan start end_) fun r g w =>
      Legal False x.store (.scan start end_) (.scan r.1 r.2) x.store ∧ Reading x mem o g w := by
  apply Triple.bind triple_loadMem
  intro m
  apply Triple.pre
  rintro rfl
  apply Triple.fact (F := m.Holds x.records) fun g w hi h => h.2.holds hi
  intro hholds
  apply Triple.bind triple_snapshot
  intro v
  apply Triple.pre
  rintro ⟨hv, hlive⟩
  -- the snapshot is intact, so the scan is that of the store
  obtain ⟨out, hscan, hsorted, hout⟩ := scan_intact hholds hv start end_
  rw [hscan]
  apply Triple.ret
  intro g w _ h
  rw [hlive] at hout
  exact ⟨⟨rfl, rfl, hsorted, hout⟩, h.1⟩

/-- The program of a call, with what it returns. -/
theorem triple_reply (op : Op) (hx : x.Begun op) (hfits : ∀ e, op.entry = some e → e.WalFits) :
    Triple (exec .client) (protocol .client)
      (fun g w => Reading x mem o g w ∧ (o = false → g.Faulty)) (op.program cfg) (Replied op x) := by
  have hready (e : Entry) (he : op.entry = some e) : x.Ready e :=
    ⟨hfits e he, hx.pending.trans he, hx.store, hx.tail⟩
  cases op with
  | put k v =>
    exact triple_wrote rfl (fun _ _ _ _ h => h) (notOk_put cfg k v) (tripleE_put cfg (hready _ rfl))
  | delete k =>
    exact triple_wrote rfl (fun _ _ _ _ h => h) (notOk_delete cfg k)
      (tripleE_delete cfg (hready _ rfl))
  | flush =>
    apply Triple.bind (Triple.returns
      (Triple.faulty (o = false) (tripleE_flushMemTable cfg x mem o)) (notOk_flushMemTable cfg))
    intro r
    apply Triple.ret
    intro g w _ ⟨⟨hr, ho⟩, hbad⟩
    cases r with
    | ok a =>
      obtain ⟨hm, hf, hopen⟩ := hr
      -- the log is open after the flush, unless it was closed before
      refine replied_of_flushed rfl (fun k hk => by cases hk) hm hf (fun hclosed => ?_)
        ⟨rfl, .inl rfl⟩
      apply ho
      cases o with
      | false => rfl
      | true => rw [hopen rfl] at hclosed; cases hclosed
    | error s =>
      obtain ⟨hm, hf, hfault⟩ := hr
      exact replied_of_flushed rfl (fun k hk => by cases hk) hm hf (fun _ => .inl hfault)
        ⟨rfl, .inr ⟨hbad s rfl, .inl hfault⟩⟩
  | get k =>
    apply Triple.bind (Triple.faulty (o = false) (triple_get k))
    intro r
    apply Triple.ret
    intro g w _ ⟨⟨hvalue, hr⟩, ho⟩
    refine replied_of_reading rfl ?_ hr ho ⟨rfl, hvalue⟩
    rintro k' ⟨⟩
    exact ⟨r, rfl, hvalue⟩
  | scan start end_ =>
    apply Triple.bind (Triple.faulty (o = false) (triple_scan_exact start end_))
    intro r
    apply Triple.ret
    intro g w _ ⟨⟨hlegal, hr⟩, ho⟩
    exact replied_of_reading rfl (fun k hk => by cases hk) hr ho hlegal
  | close =>
    apply Triple.bind (Triple.faulty (o = false) triple_shutDown)
    intro r
    apply Triple.ret
    intro g w _ ⟨hr, ho⟩
    exact replied_of_reading rfl (fun k hk => by cases hk) hr ho ⟨rfl, rfl⟩

end Lsmdb
