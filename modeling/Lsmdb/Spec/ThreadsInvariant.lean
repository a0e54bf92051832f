import Lsmdb.Spec.FileSystem
import Lsmdb.Spec.ThreadRules

/-!
# What the rules mean for the shared state

`Agree` connects the typestates of the two threads with the shared state: who holds the
mutex, what `bg_busy_` says, and that a sleeping compaction thread has nothing to do
unless the client is about to tell it. A call of either thread that its rules allow keeps
this (`Agree.call`, `Agree.wait`, `Agree.look`, `Agree.compact`), so it holds in every
state that a run reaches (`Ruled.of_reachable`).
-/

namespace Lsmdb.Sync

open Prog

/-- What the typestates of the threads say about the shared state. -/
structure Agree (options : Options) (c : ClientState) (k : WorkerState) (w : World) : Prop where
  client : c.held = true ↔ w.mutex = some .client
  worker : k.held = true ↔ w.mutex = some .background
  busy : w.busy = k.busy
  asleep : w.sleeping .background ≠ none →
    w.sleeping .background = some .bg ∧ k.asleep = true ∧ k.held = false
  seen : ∀ v, k.seen = some v → k.held = true ∧ w.current = v
  live : k.live = true → k.held = true ∧ w.shuttingDown = false
  stopped : c.stopped = true ↔ w.shuttingDown = true
  down : k.down = true → w.shuttingDown = true
  stopping : c.stopping = true → c.held = true
  unannounced : c.unannounced = true → c.held = true
  /-- A thread that sleeps is told to stop. -/
  stop : w.sleeping .background ≠ none → w.shuttingDown = true → c.stopping = true
  /-- A thread that sleeps is told about work, unless a call has failed. -/
  work : w.sleeping .background ≠ none → needsCompaction options w.current = true →
    c.unannounced = true ∨ c.failing = true ∨ c.lost = true
  sawIdle : c.sawIdle = true → c.held = true ∧ k.busy = false
  drained : c.drained = true → k.busy = false ∧ needsCompaction options w.current = false

variable {options : Options} {c : ClientState} {k : WorkerState} {w w' : World} {t : Thread}
  {ch : Choice}

/-- The members that the rules are about. -/
theorem Agree.congr (h : Agree options c k w) (hmutex : w'.mutex = w.mutex)
    (hcurrent : w'.current = w.current) (hdown : w'.shuttingDown = w.shuttingDown)
    (hbusy : w'.busy = w.busy) (hsleeping : w'.sleeping = w.sleeping) : Agree options c k w' := by
  obtain ⟨h₁, h₂, h₃, h₄, h₅, h₆, h₇, h₈, h₉, h₁₀, h₁₁, h₁₂, h₁₃, h₁₄⟩ := h
  constructor <;> simpa only [hmutex, hcurrent, hdown, hbusy, hsleeping]

/-- A plain call changes neither the mutex nor the version nor the flag. -/
theorem exec_plain {c : Lsmdb.Call} {ch : Lsmdb.Choice} {v v' : Lsmdb.World} {r : c.Res}
    (h : Lsmdb.exec t c ch v = some (r, v')) (hc : Plain c) :
    v'.mutex = v.mutex ∧ v'.current = v.current ∧ v'.shuttingDown = v.shuttingDown := by
  obtain ⟨hmutex, hcurrent, -, hdown⟩ := exec_fields h
  refine ⟨hmutex ?_ ?_, hcurrent ?_, hdown ?_⟩
  · rintro rfl
    exact hc
  · rintro rfl
    exact hc
  · rintro u rfl
    exact hc
  · rintro rfl
    exact hc

/-- A call that the mutex and the condition variables have nothing to do with. -/
private theorem Agree.plain {b : Lsmdb.Call} {b' : Lsmdb.Choice} {r : b.Res} {v : Lsmdb.World}
    (h : Agree options c k w) (hexec : Lsmdb.exec t b b' w.toWorld = some (r, v)) (hb : Plain b) :
    Agree options c k { w with toWorld := v } := by
  obtain ⟨hmutex, hcurrent, hdown⟩ := exec_plain hexec hb
  exact h.congr hmutex hcurrent hdown rfl rfl

/-- A call of the database on the state of the threads. -/
theorem exec_base {b : Lsmdb.Call} {r : b.Res} (h : exec t (.base b) ch w = some (r, w')) :
    ∃ ch' v, Lsmdb.exec t b ch' w.toWorld = some (r, v) ∧ w' = { w with toWorld := v } := by
  cases ch with
  | spurious => cases h
  | base ch =>
    obtain ⟨⟨r', v⟩, hexec, heq⟩ := Option.map_eq_some_iff.mp h
    cases heq
    exact ⟨ch, v, hexec, rfl⟩

/-- Whether the client sleeps does not matter to the compaction thread. -/
private theorem Agree.clientSleeping (h : Agree options c k w) (cv : Option CondVar) :
    Agree options c k { w with sleeping := Function.update w.sleeping .client cv } :=
  { h with asleep := h.asleep, stop := h.stop, work := h.work }

/-! ## The mutex -/

/-- What the compaction thread has seen, it has seen under the mutex. -/
theorem Agree.unseen (h : Agree options c k w) (hm : w.mutex ≠ some .background) :
    k.held = false ∧ k.seen = none ∧ k.live = false := by
  have hheld : k.held = false := by
    rw [← Bool.not_eq_true, h.worker]
    exact hm
  refine ⟨hheld, ?_, ?_⟩
  · cases hseen : k.seen with
    | none => rfl
    | some v => exact absurd (h.worker.mp (h.seen v hseen).1) hm
  · rw [← Bool.not_eq_true]
    exact fun hlive => hm (h.worker.mp (h.live hlive).1)

/-- The client takes the mutex. -/
theorem Agree.clientLocks (h : Agree options c k w) (hfree : w.mutex = none) :
    Agree options { c with held := true } k { w with mutex := some .client } := by
  obtain ⟨hheld, hseen, hlive⟩ := h.unseen (by simp [hfree])
  exact
    { client := iff_of_true rfl rfl
      worker := by simp [hheld]
      busy := h.busy
      asleep := h.asleep
      -- the other thread has given up what it saw with the mutex
      seen := by simp [hseen]
      live := by simp [hlive]
      stopped := h.stopped
      down := h.down
      stopping := fun _ => rfl
      unannounced := fun _ => rfl
      stop := h.stop
      work := h.work
      sawIdle := fun hs => ⟨rfl, (h.sawIdle hs).2⟩
      drained := h.drained }

/-- The client gives the mutex away. What it has not announced by then is lost. -/
theorem Agree.clientUnlocks (h : Agree options c k w) (hm : w.mutex = some .client)
    (hstopping : c.stopping = false) (hfailing : c.failing = false) :
    Agree options c.unlock k { w with mutex := none } := by
  obtain ⟨hheld, hseen, hlive⟩ := h.unseen (by simp [hm])
  exact
    { client := by simp [ClientState.unlock]
      worker := by simp [hheld]
      busy := h.busy
      asleep := h.asleep
      seen := by simp [hseen]
      live := by simp [hlive]
      stopped := h.stopped
      down := h.down
      stopping := by simp [ClientState.unlock, hstopping]
      unannounced := fun hu => by cases hu
      stop := h.stop
      -- a version that was stored and not announced, or whose announcement was skipped
      work := fun hs hneeds => by
        rcases h.work hs hneeds with hu | hf | hl
        · exact .inr (.inl hu)
        · rw [hfailing] at hf
          cases hf
        · exact .inr (.inr hl)
      sawIdle := fun hs => by cases hs
      drained := h.drained }

/-- The compaction thread takes the mutex; if it was asleep, it is not any more. -/
theorem Agree.workerLocks {sleeping : Thread → Option CondVar} (h : Agree options c k w)
    (hfree : w.mutex = none)
    (hsleeping : sleeping .background = none ∨ k.asleep = false ∧ sleeping = w.sleeping) :
    Agree options c { k with held := true, asleep := false }
      { w with mutex := some .background, sleeping := sleeping } := by
  have hclient : c.held = false := by
    rw [← Bool.not_eq_true, h.client, hfree]
    simp
  -- only a sleeping thread has to be woken
  have hawake : sleeping .background = none := by
    rcases hsleeping with hnone | ⟨hawake, rfl⟩
    · exact hnone
    · by_contra hs
      rw [(h.asleep hs).2.1] at hawake
      cases hawake
  obtain ⟨-, hseen, hlive⟩ := h.unseen (by simp [hfree])
  exact
    { client := by simp [hclient]
      worker := iff_of_true rfl rfl
      busy := h.busy
      asleep := fun hs => absurd hawake hs
      seen := by simp [hseen]
      live := by simp [hlive]
      stopped := h.stopped
      down := h.down
      stopping := h.stopping
      unannounced := h.unannounced
      stop := fun hs => absurd hawake hs
      work := fun hs => absurd hawake hs
      sawIdle := h.sawIdle
      drained := h.drained }

/-- The compaction thread gives the mutex away and stays awake. -/
private theorem Agree.workerUnlocks (h : Agree options c k w) (hm : w.mutex = some .background) :
    Agree options c { busy := k.busy, asleep := k.asleep, down := k.down }
      { w with mutex := none } := by
  have hclient : c.held = false := by
    rw [← Bool.not_eq_true, h.client, hm]
    simp
  exact
    { client := by simp [hclient]
      worker := by simp
      busy := h.busy
      asleep := fun hs => ⟨(h.asleep hs).1, (h.asleep hs).2.1, rfl⟩
      -- what was seen under the mutex is given up
      seen := fun v hv => by cases hv
      live := fun hl => by cases hl
      stopped := h.stopped
      down := h.down
      stopping := h.stopping
      unannounced := h.unannounced
      stop := h.stop
      work := h.work
      sawIdle := h.sawIdle
      drained := h.drained }

/-- The compaction thread goes to sleep. What it has seen under the mutex is still so. -/
private theorem Agree.workerSleeps {v : Version} (h : Agree options c k w) (hm : w.mutex = some .background)
    (hlive : k.live = true) (hseen : k.seen = some v)
    (hneeds : needsCompaction options v = false) :
    Agree options c { busy := k.busy, asleep := true, down := k.down }
      { w with mutex := none, sleeping := Function.update w.sleeping .background (some .bg) } := by
  have hclient : c.held = false := by
    rw [← Bool.not_eq_true, h.client, hm]
    simp
  have hcurrent : w.current = v := (h.seen v hseen).2
  exact
    { client := by simp [hclient]
      worker := by simp
      busy := h.busy
      asleep := by simp
      seen := fun v hv => by cases hv
      live := fun hl => by cases hl
      stopped := h.stopped
      down := h.down
      stopping := h.stopping
      unannounced := h.unannounced
      -- it has just seen that there is neither a stop nor work
      stop := fun _ hdown => by
        rw [(h.live hlive).2] at hdown
        cases hdown
      work := fun _ hwork => by
        rw [hcurrent, hneeds] at hwork
        cases hwork
      sawIdle := h.sawIdle
      drained := h.drained }

/-! ## The client -/

/-- The client tells the compaction thread. -/
private theorem Agree.clientNotifies (h : Agree options c k w) :
    Agree options c.notify k
      { w with sleeping := fun t => if w.sleeping t = some .bg then none else w.sleeping t } := by
  -- nobody sleeps on the condition variable behind the notification
  have hawake : ¬ (if w.sleeping .background = some .bg then none
      else w.sleeping .background) ≠ none := by
    split
    · simp
    · rename_i hs
      exact fun hne => hs (h.asleep hne).1
  exact
    { h with
      asleep := fun hs => absurd hs hawake
      stopping := fun hs => by cases hs
      unannounced := fun hu => by cases hu
      stop := fun hs => absurd hs hawake
      work := fun hs => absurd hs hawake }

/-- The client changes `current_`. -/
private theorem Agree.clientStores (h : Agree options c k w) (hheld : c.held = true)
    (hdrained : c.drained = false) (v : Version) :
    Agree options { c with unannounced := true } k { w with current := v } := by
  obtain ⟨-, hseen, -⟩ := h.unseen (by simp [h.client.mp hheld])
  exact
    { h with
      seen := by simp [hseen]
      unannounced := fun _ => hheld
      work := fun _ _ => .inl rfl
      drained := by simp [hdrained] }

/-- The client sets `shutting_down_`. -/
private theorem Agree.clientStops (h : Agree options c k w) (hheld : c.held = true) :
    Agree options { c with stopping := true, stopped := true } k { w with shuttingDown := true } := by
  obtain ⟨-, -, hlive⟩ := h.unseen (by simp [h.client.mp hheld])
  exact
    { h with
      live := by simp [hlive]
      stopped := iff_of_true rfl rfl
      down := fun _ => rfl
      stopping := fun _ => hheld
      stop := fun _ _ => rfl }

/-- A step of a public function. -/
theorem Agree.call {a : Call} {r : a.Res} (h : Agree options c k w) (hok : callRules.ok c a)
    (hexec : exec .client a ch w = some (r, w')) : Agree options (callRules.next c a r) k w' := by
  cases a with
  | base b =>
    obtain ⟨ch', v, hbase, rfl⟩ := exec_base hexec
    -- what the call does to the mutex, the version, the flag
    cases b with
    | lock =>
      obtain ⟨hfree, rfl⟩ := exec_lock hbase
      exact h.clientLocks hfree
    | unlock =>
      obtain ⟨hheld, rfl⟩ := exec_unlock hbase
      exact h.clientUnlocks hheld hok.2.1 hok.2.2
    | storeCurrent v =>
      cases hbase
      exact h.clientStores (hok.1 trivial) hok.2.2 v
    | storeShuttingDown =>
      cases hbase
      exact h.clientStops (hok.1 trivial)
    | _ => exact h.plain hbase trivial
  | notifyAll cv =>
    cases cv with
    | idle => exact hok.elim
    | bg =>
      cases hexec
      exact h.clientNotifies
  | _ => exact hok.elim

/-- A step of `TEST_WaitForCompactions`. -/
private theorem Agree.wait {a : Call} {r : a.Res} (h : Agree options c k w) (hok : (waitRules options).ok c a)
    (hexec : exec .client a ch w = some (r, w')) :
    Agree options ((waitRules options).next c a r) k w' := by
  cases a with
  | base b =>
    obtain ⟨ch', v, hbase, rfl⟩ := exec_base hexec
    cases b with
    | lock =>
      obtain ⟨hfree, rfl⟩ := exec_lock hbase
      exact h.clientLocks hfree
    | unlock =>
      obtain ⟨hheld, rfl⟩ := exec_unlock hbase
      exact h.clientUnlocks hheld hok.2.1 hok.2.2
    | loadCurrent =>
      cases hbase
      -- with the flag read before, under the same hold of the mutex
      refine { h with drained := fun hd => ?_ }
      have hd : c.sawIdle = true ∧ (!needsCompaction options w.current) = true :=
        Bool.and_eq_true_iff.mp hd
      exact ⟨(h.sawIdle hd.1).2, Bool.not_eq_true' _ |>.mp hd.2⟩
    | _ => exact hok.elim
  | loadBusy =>
    cases hexec
    refine { h with sawIdle := fun hs => ⟨hok.1, ?_⟩ }
    rw [← h.busy]
    exact Bool.not_eq_true' _ |>.mp hs
  | notifyAll cv =>
    cases cv with
    | idle => exact hok.elim
    | bg =>
      cases hexec
      exact h.clientNotifies
  | sleep cv =>
    cases cv with
    | bg => exact hok.elim
    | idle =>
      simp only [exec] at hexec
      split at hexec
      next hheld =>
        cases hexec
        have hunlocked := (h.clientUnlocks hheld hok.2.1 hok.2.2).clientSleeping (some .idle)
        exact { hunlocked with drained := fun hd => by cases hd }
      next => cases hexec
  | wake cv timed =>
    simp only [exec] at hexec
    split at hexec
    next hfree =>
      cases hexec
      exact (h.clientLocks hfree.1).clientSleeping none
    next => cases hexec
  | storeBusy => exact hok.elim

/-! ## The compaction thread -/

/-- One thread at a time holds the mutex. -/
theorem Agree.exclusive (h : Agree options c k w) (hk : k.held = true) : c.held = false := by
  rw [← Bool.not_eq_true, h.client, h.worker.mp hk]
  simp

/-- The compaction thread stores what it found out. -/
private theorem Agree.workerStores (h : Agree options c k w) (hheld : k.held = true) {busy : Bool}
    (hbusy : busy = true → ∃ v, k.seen = some v ∧ needsCompaction options v = true) :
    Agree options c { k with busy := busy } { w with busy := busy } := by
  refine { h with busy := rfl, sawIdle := fun hs => ?_, drained := fun hd => ?_ }
  · have hclient := h.exclusive hheld
    rw [(h.sawIdle hs).1] at hclient
    cases hclient
  · obtain ⟨-, hdone⟩ := h.drained hd
    refine ⟨?_, hdone⟩
    show busy = false
    rw [← Bool.not_eq_true]
    intro hb
    -- it stores `true` only when a compaction is needed
    obtain ⟨v, hseen, hneeds⟩ := hbusy hb
    rw [(h.seen v hseen).2, hneeds] at hdone
    cases hdone

/-- A step of the compaction thread outside of a compaction. -/
theorem Agree.look {a : Call} {r : a.Res} (h : Agree options c k w) (hok : (lookRules options).ok k a)
    (hexec : exec .background a ch w = some (r, w')) :
    Agree options c ((lookRules options).next k a r) w' := by
  cases a with
  | base b =>
    obtain ⟨ch', v, hbase, rfl⟩ := exec_base hexec
    cases b with
    | lock =>
      obtain ⟨hfree, rfl⟩ := exec_lock hbase
      exact h.workerLocks hfree (.inr ⟨hok.2, rfl⟩)
    | unlock =>
      obtain ⟨hheld, rfl⟩ := exec_unlock hbase
      exact h.workerUnlocks hheld
    | loadShuttingDown =>
      cases hbase
      exact { h with live := fun hl => ⟨hok, Bool.not_eq_true' _ |>.mp hl⟩, down := id }
    | loadCurrent =>
      cases hbase
      refine { h with seen := fun v hv => ⟨hok, ?_⟩ }
      exact Option.some.inj hv
    | _ => exact hok.elim
  | storeBusy busy =>
    cases hexec
    exact h.workerStores hok.1 hok.2
  | notifyAll cv =>
    cases cv with
    | bg => exact hok.elim
    | idle =>
      cases hexec
      -- the compaction thread itself does not wait for this
      have hsame : (if w.sleeping .background = some .idle then none else w.sleeping .background) =
          w.sleeping .background := by
        split
        next hs =>
          have hbg := (h.asleep (by simp [hs])).1
          rw [hs] at hbg
          cases hbg
        next => rfl
      show Agree options c k _
      exact
        { h with
          asleep := by simpa only [hsame] using h.asleep
          stop := by simpa only [hsame] using h.stop
          work := by simpa only [hsame] using h.work }
  | sleep cv =>
    cases cv with
    | idle => exact hok.elim
    | bg =>
      obtain ⟨-, hlive, -, v, hseen, hneeds⟩ := hok
      simp only [exec] at hexec
      split at hexec
      next hheld =>
        cases hexec
        exact h.workerSleeps hheld hlive hseen hneeds
      next => cases hexec
  | wake cv timed =>
    simp only [exec] at hexec
    split at hexec
    next hfree =>
      cases hexec
      exact h.workerLocks hfree.1 (.inl (Function.update_self ..))
    next => cases hexec
  | loadBusy => exact hok.elim

/-- A step of a compaction. -/
theorem Agree.compact {a : Call} {r : a.Res} (h : Agree options c k w) (hok : compactRules.ok k a)
    (hexec : exec .background a ch w = some (r, w')) :
    Agree options c (compactRules.next k a r) w' := by
  cases a with
  | base b =>
    obtain ⟨ch', v, hbase, rfl⟩ := exec_base hexec
    cases b with
    | lock =>
      obtain ⟨hfree, rfl⟩ := exec_lock hbase
      have hk : k = { busy := true } := hok
      subst hk
      exact h.workerLocks hfree (.inr ⟨rfl, rfl⟩)
    | unlock =>
      obtain ⟨hheld, rfl⟩ := exec_unlock hbase
      have hk : k = { busy := true, held := true } := hok
      subst hk
      exact h.workerUnlocks hheld
    | storeCurrent v =>
      cases hbase
      -- a compaction is busy, so the client has not seen the thread idle
      obtain ⟨-, -, hk⟩ := hok
      have hbusy : k.busy = true := by rw [hk]
      have hawake : ¬ w.sleeping .background ≠ none := by
        intro hs
        have hasleep := (h.asleep hs).2.1
        rw [hk] at hasleep
        cases hasleep
      refine { h with
        seen := fun u hu => ?_
        work := fun hs => absurd hs hawake
        drained := fun hd => ?_ }
      · have hnone : k.seen = none := by rw [hk]
        have hu : k.seen = some u := hu
        rw [hnone] at hu
        cases hu
      · have hidle := (h.drained hd).1
        rw [hbusy] at hidle
        cases hidle
    | storeShuttingDown => exact hok.elim
    | _ => exact h.plain hbase trivial
  | _ => exact hok.elim

/-! ## Recovery -/

/-- The calls of a recovery. -/
def Alone : Lsmdb.Call → Prop
  | .readDir | .storeCurrent _ | .storeFileNumber _ | .loadMem | .storeMem _ | .storeWal _ => True
  | .openAppend name => name = walName
  | .unlink name => ∃ n, name = numberToName n
  | _ => False

/-- `Open` runs before the background thread is started. -/
theorem all_recover_alone (cfg : Config) : (DB.recover cfg).run.All Alone :=
  all_recover cfg trivial (fun _ => trivial) (fun _ => trivial) trivial (fun _ => trivial) trivial
    rfl fun n => ⟨n, rfl⟩

/-- A recovery does not change the log. -/
theorem log_of_alone {a : Lsmdb.Call} {ch : Lsmdb.Choice} {r : a.Res} {v v' : Lsmdb.World}
    (ha : Alone a) (hexec : Lsmdb.exec .client a ch v = some (r, v')) : v'.disk.log = v.disk.log := by
  cases a with
  | openAppend name =>
    have hname : name = walName := ha
    subst hname
    -- the log is created if it is missing, and then empty
    rcases exec_openAppend hexec with ⟨errno, -, -, rfl⟩ | ⟨-, rfl⟩
    · rfl
    · split
      · rfl
      · rename_i hmissing
        rw [Disk.log, Disk.log, AList.lookup_insert, AList.lookup_eq_none.mpr hmissing]
        rfl
  | unlink name =>
    obtain ⟨n, rfl⟩ := ha
    rcases exec_unlink hexec with rfl | rfl
    · rfl
    · rw [Disk.log, Disk.log, AList.lookup_erase_ne (numberToName_ne_walName n).symm]
  | readDir | storeCurrent | storeFileNumber | loadMem | storeMem | storeWal =>
    cases hexec
    rfl
  | _ => exact ha.elim

/-- The shared state before the second thread is started. -/
structure Single (w : World) : Prop where
  mutex : w.mutex = none
  up : w.shuttingDown = false
  busy : w.busy = false
  awake : w.sleeping = fun _ => none

/-- A call of `Open` leaves the condition variables alone. -/
theorem Single.step {a : Lsmdb.Call} {ch : Lsmdb.Choice} {r : a.Res} {v : Lsmdb.World}
    (h : Single w) (ha : Alone a) (hexec : Lsmdb.exec .client a ch w.toWorld = some (r, v)) :
    Single { w with toWorld := v } := by
  have hsame : v.mutex = w.mutex ∧ v.shuttingDown = w.shuttingDown := by
    cases a with
    | storeCurrent u => cases hexec; exact ⟨rfl, rfl⟩
    | readDir | storeFileNumber | loadMem | storeMem | storeWal | openAppend | unlink =>
      obtain ⟨hmutex, -, hdown⟩ := exec_plain hexec trivial
      exact ⟨hmutex, hdown⟩
    | _ => exact ha.elim
  exact ⟨hsame.1.trans h.mutex, hsame.2.trans h.up, h.busy, h.awake⟩

/-! ## Runs -/

/-- The program of the client follows its rules. -/
def ClientRuled (options : Options) (c : ClientState) : Client → Prop
  | .idle => c = { lost := c.lost }
  | .running op p => p.Follows callRules (callDone op) c
  | .waiting p => p.Follows (waitRules options) waitDone c
  | .closing => c = { stopped := true, lost := c.lost }

/-- The program of the compaction thread follows its rules. -/
def WorkerRuled (options : Options) (k : WorkerState) : Worker → Prop
  | .looking p => p.Follows (lookRules options) lookDone k
  | .compacting _ p => k.busy = true ∧ p.Follows compactRules Working k
  | .ended => k = { down := true }

/-- Both threads follow their rules. In a quiet run no call fails, so that nothing goes
    unannounced. -/
def Ruled (quiet : Prop) (s : System) : Prop :=
  match s.process with
  | .down => True
  | .opening _ p => Single s.world ∧ p.All Alone
  | .up cfg client worker => ∃ c k, (quiet → c.lost = false) ∧ ClientRuled cfg.options c client ∧
    WorkerRuled cfg.options k worker ∧ Agree cfg.options c k s.world

/-- Before the thread is started there is nothing to agree on. -/
private theorem agree_single (h : Single w) : Agree options {} {} w where
  client := by simp [h.mutex]
  worker := by simp [h.mutex]
  busy := h.busy
  -- nobody sleeps and nobody has looked
  asleep := by simp [h.awake]
  seen v hv := by cases hv
  live hl := by cases hl
  stopped := by simp [h.up]
  down hd := by cases hd
  stopping hs := by cases hs
  unannounced hu := by cases hu
  stop := by simp [h.awake]
  work := by simp [h.awake]
  sawIdle hs := by cases hs
  drained hd := by cases hd

/-- A call that has failed to announce a change has returned. -/
theorem Agree.return (h : Agree options c k w) (hc : c.held = false) :
    Agree options { lost := c.lost || c.failing, stopped := c.stopped } k w where
  client := by rw [← h.client, hc]
  worker := h.worker
  busy := h.busy
  asleep := h.asleep
  seen := h.seen
  live := h.live
  stopped := h.stopped
  down := h.down
  stopping hs := by cases hs
  unannounced hu := by cases hu
  stop hs hdown := by
    have hheld := h.stopping (h.stop hs hdown)
    rw [hc] at hheld
    cases hheld
  -- a version that was not announced is booked as lost if the call has failed
  work hs hneeds := by
    rcases h.work hs hneeds with hu | hf | hl
    · have hheld := h.unannounced hu
      rw [hc] at hheld
      cases hheld
    · exact .inr (.inr (by rw [hf, Bool.or_true]))
    · exact .inr (.inr (by rw [hl, Bool.true_or]))
  sawIdle hs := by cases hs
  drained hd := by cases hd

/-- Within a call no announcement is lost. -/
private theorem callRules_lost {a : Call} (r : a.Res) (h : (callRules.next c a r).lost = true) :
    c.lost = true := by
  cases a with
  | base b => cases b <;> exact h
  | notifyAll => cases h
  | _ => exact h

/-- Nor while the client waits. -/
private theorem waitRules_lost {a : Call} (r : a.Res) (h : ((waitRules options).next c a r).lost = true) :
    c.lost = true := by
  cases a with
  | base b => cases b <;> exact h
  | notifyAll => cases h
  | _ => exact h

/-- A step of the client. -/
theorem ClientRuled.step {client client' : Client} (h : ClientRuled options c client)
    (ha : Agree options c k w) (hs : client.step ch w = some (client', w')) :
    ∃ c' : ClientState, (c'.lost = true → c.lost = true) ∧ ClientRuled options c' client' ∧
      Agree options c' k w' := by
  cases client with
  | idle => cases hs
  | closing => cases hs
  | running op p =>
    obtain ⟨⟨p', w''⟩, hstep, heq⟩ := Option.map_eq_some_iff.mp hs
    cases heq
    -- the program follows its rules, and each call keeps the agreement
    obtain ⟨a, cont, r, rfl, rfl, hexec, hok, hrest⟩ := Follows.step h hstep
    exact ⟨_, callRules_lost r, hrest, ha.call hok hexec⟩
  | waiting p =>
    obtain ⟨⟨p', w''⟩, hstep, heq⟩ := Option.map_eq_some_iff.mp hs
    cases heq
    obtain ⟨a, cont, r, rfl, rfl, hexec, hok, hrest⟩ := Follows.step h hstep
    exact ⟨_, waitRules_lost r, hrest, ha.wait hok hexec⟩

/-- A step of the compaction thread. -/
theorem WorkerRuled.step {worker worker' : Worker} (h : WorkerRuled options k worker)
    (ha : Agree options c k w) (hs : worker.step ch w = some (worker', w')) :
    ∃ k', WorkerRuled options k' worker' ∧ Agree options c k' w' := by
  cases worker with
  | ended => cases hs
  | looking p =>
    obtain ⟨⟨p', w''⟩, hstep, heq⟩ := Option.map_eq_some_iff.mp hs
    cases heq
    obtain ⟨a, cont, r, rfl, rfl, hexec, hok, hrest⟩ := Follows.step h hstep
    exact ⟨_, hrest, ha.look hok hexec⟩
  | compacting c p =>
    obtain ⟨hbusy, hfollows⟩ := h
    obtain ⟨⟨p', w''⟩, hstep, heq⟩ := Option.map_eq_some_iff.mp hs
    cases heq
    obtain ⟨a, cont, r, rfl, rfl, hexec, hok, hrest⟩ := hfollows.step hstep
    refine ⟨_, ⟨?_, hrest⟩, ha.compact hok hexec⟩
    -- a compaction stays busy
    cases a with
    | base b => cases b <;> exact hbusy
    | _ => exact hok.elim

/-- The next part of the loop of the compaction thread. -/
theorem WorkerRuled.return {cfg : Config} {worker worker' : Worker}
    (h : WorkerRuled cfg.options k worker) (hr : worker.return cfg = some worker') :
    WorkerRuled cfg.options k worker' := by
  cases worker with
  | ended => cases hr
  | looking p =>
    cases p with
    | undef => cases hr
    | call => cases hr
    -- what it has found decides how it goes on
    | ret look =>
      cases look with
      | stop =>
        cases hr
        exact h
      | sleep =>
        cases hr
        have hk : k = { asleep := true } := h
        subst hk
        exact follows_look cfg true false
      | compact c =>
        cases hr
        have hk : k = { busy := true } := h
        subst hk
        exact ⟨rfl, follows_lift (follows_doCompaction cfg c)⟩
  | compacting c p =>
    cases p with
    | undef => cases hr
    | call => cases hr
    | ret r =>
      cases hr
      have hk : k = { busy := true } := h.2
      subst hk
      exact follows_look cfg false true

/-- Every event keeps the rules. -/
theorem Ruled.step {quiet : Prop} {s s' : System} {e : Event} (h : Ruled quiet s)
    (hreply : quiet → ∀ cfg op r worker, s.process = .up cfg (.running op (.ret r)) worker →
      ∀ status, r = .status status → status.ok = true)
    (hnext : s.next e = some s') : Ruled quiet s' := by
  rw [Ruled] at h
  cases e with
  | «open» cfg =>
    rw [System.next] at hnext
    split at hnext
    next hp =>
      cases hnext
      exact ⟨⟨rfl, rfl, rfl, rfl⟩, all_recover_alone cfg⟩
    next => cases hnext
  | openStep ch =>
    rw [System.next] at hnext
    split at hnext
    next cfg p hp =>
      rw [hp] at h
      obtain ⟨⟨p', v⟩, hstep, rfl⟩ := Option.map_eq_some_iff.mp hnext
      obtain ⟨hsingle, hall⟩ := h
      cases p with
      | ret => cases hstep
      | undef => cases hstep
      | call a cont =>
        obtain ⟨⟨r, v'⟩, hexec, heq⟩ := Option.map_eq_some_iff.mp hstep
        cases heq
        exact ⟨hsingle.step hall.1 hexec, hall.2 r⟩
    next => cases hnext
  | openReturn =>
    rw [System.next] at hnext
    split at hnext
    next cfg hp =>
      cases hnext
      rw [hp] at h
      exact ⟨{}, {}, fun _ => rfl, rfl, follows_look cfg false false, agree_single h.1⟩
    next cfg e hp =>
      cases hnext
      trivial
    next => cases hnext
  | invoke op =>
    rw [System.next] at hnext
    split at hnext
    next cfg worker hp =>
      cases hnext
      rw [hp] at h
      obtain ⟨c, k, hlost, hclient, hworker, ha⟩ := h
      refine ⟨c, k, hlost, ?_, hworker, ha⟩
      have hc : c = { lost := c.lost } := hclient
      rw [hc]
      exact follows_program cfg op c.lost
    next => cases hnext
  | waitForCompactions =>
    rw [System.next] at hnext
    split at hnext
    next cfg worker hp =>
      cases hnext
      rw [hp] at h
      obtain ⟨c, k, hlost, hclient, hworker, ha⟩ := h
      refine ⟨c, k, hlost, ?_, hworker, ha⟩
      have hc : c = { lost := c.lost } := hclient
      rw [hc]
      exact follows_waitForCompactions cfg c.lost
    next => cases hnext
  | clientStep ch =>
    rw [System.next] at hnext
    split at hnext
    next cfg client worker hp =>
      rw [hp] at h
      obtain ⟨c, k, hlost, hclient, hworker, ha⟩ := h
      obtain ⟨⟨client', w'⟩, hstep, rfl⟩ := Option.map_eq_some_iff.mp hnext
      obtain ⟨c', hlost', hclient', ha'⟩ := hclient.step ha hstep
      refine ⟨c', k, fun hq => ?_, hclient', hworker, ha'⟩
      rw [← Bool.not_eq_true]
      intro hl
      rw [hlost' hl] at hlost
      cases hlost hq
    next => cases hnext
  | clientReturn =>
    rw [System.next] at hnext
    split at hnext
    next cfg op r worker hp =>
      cases hnext
      rw [hp] at h
      obtain ⟨c, k, hlost, ⟨hc, hfail, hstop⟩, hworker, ha⟩ := h
      have hheld : c.held = false := by rw [hc]
      refine ⟨_, k, fun hq => ?_, ?_, hworker, ha.return hheld⟩
      -- without failures no announcement is skipped
      · show (c.lost || c.failing) = false
        rw [hlost hq, Bool.false_or, ← Bool.not_eq_true]
        intro hf
        obtain ⟨status, hr, hbad⟩ := hfail hf
        rw [hreply hq cfg op r worker hp status hr] at hbad
        cases hbad
      · show ClientRuled _ _ (if op = .close then .closing else .idle)
        split
        next hop => rw [hstop.mpr hop]; rfl
        next hop =>
          have hnot : c.stopped = false := by
            rw [← Bool.not_eq_true, hstop]
            exact hop
          rw [hnot]
          rfl
    -- a turn of the waiting ends: the next one, or the client is idle
    next cfg goOn worker hp =>
      cases hnext
      rw [hp] at h
      obtain ⟨c, k, hlost, hclient, hworker, ha⟩ := h
      have hc : c = { held := goOn, drained := !goOn, lost := c.lost } := hclient
      cases goOn with
      | true =>
        refine ⟨c, k, hlost, ?_, hworker, ha⟩
        rw [hc]
        exact follows_waitTurn cfg c.lost
      | false =>
        have hheld : c.held = false := by rw [hc]
        have hfail : c.failing = false := by rw [hc]
        have hstop : c.stopped = false := by rw [hc]
        refine ⟨_, k, fun hq => ?_, ?_, hworker, ha.return hheld⟩
        · show (c.lost || c.failing) = false
          rw [hlost hq, hfail, Bool.or_false]
        · rw [hstop]
          rfl
    next => cases hnext
  | workerStep ch =>
    rw [System.next] at hnext
    split at hnext
    next cfg client worker hp =>
      rw [hp] at h
      obtain ⟨c, k, hlost, hclient, hworker, ha⟩ := h
      obtain ⟨⟨worker', w'⟩, hstep, rfl⟩ := Option.map_eq_some_iff.mp hnext
      obtain ⟨k', hworker', ha'⟩ := hworker.step ha hstep
      exact ⟨c, k', hlost, hclient, hworker', ha'⟩
    next => cases hnext
  | workerReturn =>
    rw [System.next] at hnext
    split at hnext
    next cfg client worker hp =>
      rw [hp] at h
      obtain ⟨c, k, hlost, hclient, hworker, ha⟩ := h
      obtain ⟨worker', hreturn, rfl⟩ := Option.map_eq_some_iff.mp hnext
      exact ⟨c, k, hlost, hclient, hworker.return hreturn, ha⟩
    next => cases hnext
  | join =>
    rw [System.next] at hnext
    split at hnext
    next hp =>
      cases hnext
      trivial
    next => cases hnext
  | kill =>
    cases hnext
    trivial

/-- The rules hold in every state that a run reaches. -/
theorem Ruled.of_reachable {pol : Policy} {s : System} (h : Reachable pol s) : Ruled False s := by
  induction h with
  | refl => trivial
  | tail _ hstep ih =>
    obtain ⟨e, -, hnext⟩ := hstep
    exact ih.step (fun hq => hq.elim) hnext

end Lsmdb.Sync
