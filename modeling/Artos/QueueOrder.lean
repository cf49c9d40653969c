/-
# The order of service on a queue

A wake-up takes a reader or writer off the wait list of its queue, but reserves no item and
no slot for it.  So a task that calls later may find what the wake-up was about, and a woken
task that finds nothing goes to the end of the list (`overtaken_readers`).  What the queue
does keep is the order of the wake-ups: a task that had to wait is not served before one of
its priority that waits since before (`queue_order`).
-/
import Artos.ServiceOrder
import Artos.Timeouts

open Function

namespace Artos

open Sched

variable {cfg : Config} {l : EventList} {p j : ℕ} {obs : List Obs} {s s' s₁ s₂ s₃ : Sys}
  {e : Event} {a b t : Tid} {tr : List Label} {x : Object} {o : Outcome}

/-! ## Calls on a queue -/

/-- **The task's call on the queue of the wait list returns true** with the observations
`obs`. -/
inductive Serves (s : Sys) (t : Tid) (obs : List Obs) : EventList → Prop
  | read {j : ℕ} {item : List UInt8} (hrun : s.running = some t)
      (hob : Obs.dequeued j (some item) ∈ obs) : Serves s t obs (.queueRead j)
  | write {j : ℕ} {item : List UInt8} (hrun : s.running = some t)
      (hob : Obs.enqueued j item true ∈ obs) : Serves s t obs (.queueWrite j)

/-- The task's call that waits on the list is pending, and has not timed out. -/
def Awaits (s : Sys) (t : Tid) (l : EventList) : Prop :=
  (s.pc t).waitsOn = some l ∧ (s.sched.tcb t).waitReason ≠ .timedOut

instance (s : Sys) (t : Tid) (l : EventList) : Decidable (Awaits s t l) :=
  inferInstanceAs (Decidable (_ ∧ _))

/-- A success is no failure, and belongs to the queue. -/
theorem Serves.ob (h : Serves s t obs l) :
    s.running = some t ∧ ∃ ob ∈ obs, ¬ ob.Fails ∧ ob.object = l.object := by
  cases h with
  | read hrun hob => exact ⟨hrun, _, hob, by simp [Obs.Fails], rfl⟩
  | write hrun hob => exact ⟨hrun, _, hob, by simp [Obs.Fails], rfl⟩

/-- **A timed-out call on a queue fails.** -/
theorem TaskEvent.timedOut_fails (hI : InTask cfg s.sched t)
    (hsrc : TaskEvent cfg s t e x o) {w : WaitPoint} (hpc : s.pc t = .resume w)
    (hq : w.list.object = .queue j) (hr : (s.sched.tcb t).waitReason = .timedOut) :
    ∀ ob ∈ o.obs, ob.Fails := by
  have hwhy : s.sched.rtosCurrentWaitReason = .timedOut := by
    unfold rtosCurrentWaitReason
    rw [hI.can.cur]
    exact hr
  cases hsrc with
  | call hpc' => simp [hpc] at hpc'
  | finish hpc' => simp [hpc] at hpc'
  | @resume w' hpc' =>
      obtain rfl : w' = w := by simpa [hpc] using hpc'.symm
      cases w' with
      | sem i => simp [WaitPoint.list] at hq
      | mutex i => simp [WaitPoint.list] at hq
      | enqueue i data w inf =>
          simp only [resumeStep, artosQueueEnqueueResume]
          split <;> simp [hwhy, Obs.Fails]
      | dequeue i w inf =>
          simp only [resumeStep, artosQueueDequeueResume]
          split <;> simp [hwhy, Obs.Fails]

/-! ## A waiting task is not passed over -/

/-- **A task is signaled only as the head of its list.** -/
theorem Step.unsignaled (h : Inv cfg s) (hs : Step cfg s (e, obs) s')
    (hw : (s.pc b).waitsOn = some l) (hw' : (s'.pc b).waitsOn = some l)
    (hr : (s.sched.tcb b).waitReason ≠ .signaled)
    (hhead : ∀ rest, s.sched.eventL.elems l ≠ b :: rest) :
    (s'.sched.tcb b).waitReason ≠ .signaled := by
  have hk := step_kind h hs
  cases hk.stepOf h b with
  | spared hsp =>
      obtain ⟨acts, hm, ha, hh⟩ := hsp.moves
      intro hr'
      rcases (Moves.signaled h.ready hm (h.tasks b) hw ha).mp hr' with hold | hwake
      · exact hr hold
      · obtain ⟨rest, hrest, -⟩ := (hk.handsOver h ((hh l).mpr hwake)).head
        exact hhead rest hrest
  | request hrun hpc => exact hr
  | @own e x o hrun hI hsrc hstep =>
      have hpc : o.pc.waitsOn = some l := by simpa [Sys.finish] using hw'
      cases hstep.ends with
      | user hu => simp [hu, Pc.waitsOn] at hpc
      | request hu => simp [hu, Pc.waitsOn] at hpc
      | block hu hobs hreason => exact hreason
      | read hx hu => simp [hu, Pc.waitsOn] at hpc

/-- **A task that waits and has not been signaled is not served.** -/
theorem Step.unserved (h : Inv cfg s) (hs : Step cfg s (e, obs) s')
    (hq : l.object = .queue j) (hw : (s.pc b).waitsOn = some l)
    (hr : (s.sched.tcb b).waitReason ≠ .signaled) : ¬ Serves s b obs l := by
  intro hserve
  obtain ⟨hrun, ob, hob, hok, hobj⟩ := hserve.ob
  obtain ⟨hcur, -, hnil, -, -⟩ := running_eq hrun
  cases step_kind h hs with
  | create hcur' hm hacts => 
      rw [hcur] at hcur'
      simp at hcur'
  | @task e t x o hrun' hI hsrc hstep =>
      obtain rfl : t = b := by
        rw [hrun] at hrun'
        exact (Option.some.inj hrun').symm
      cases hpc : s.pc t with
      | resume w =>
          have hwl : w.list = l := by simpa [hpc, Pc.waitsOn] using hw
          have hto : (s.sched.tcb t).waitReason = .timedOut := by
            have hne := h.released hI hpc
            cases hreason : (s.sched.tcb t).waitReason with
            | noReason => exact absurd hreason hne
            | signaled => exact absurd hreason hr
            | timedOut => rfl
          exact hok (hsrc.timedOut_fails hI hpc (hwl ▸ hq) hto ob hob)
      | request r => cases hsrc <;> simp_all
      | user => simp [hpc, Pc.waitsOn] at hw
      | semClear i res => simp [hpc, Pc.waitsOn] at hw
  | isrCall hh hstep =>
      rw [hnil] at hh
      simp at hh
  | _ => simp at hob

/-- **The two tasks keep waiting**: `a` stays in the list with the priority `p`, and the call
of `b`, of the same priority, stays pending. -/
def KeepsWaiting (cfg : Config) (l : EventList) (p : ℕ) (a b : Tid) (s : Sys) (y : Label)
    (s' : Sys) : Prop :=
  Step cfg s y s' ∧ (s'.sched.eventL.container a = some l ∧ s'.sched.eff a = p) ∧
    s'.sched.eff b = p ∧ (s'.pc b).waitsOn = some l

/-- A task that blocks has not been signaled. -/
theorem Step.blocked_unsignaled (h : Inv cfg s) (hs : Step cfg s (e, obs) s')
    (hblk : Obs.blocked (some b) l ∈ obs) (hw' : (s'.pc b).waitsOn = some l) :
    (∃ i, b = .user i) ∧ s.running = some b ∧ s.sched.eventL.container b = none ∧
      (s'.sched.tcb b).waitReason ≠ .signaled := by
  cases (step_kind h hs).stepOf h b with
  | spared hsp => exact absurd rfl (hsp.actor _ hblk)
  | request hrun hpc => simp at hblk
  | @own e x o hrun hI hsrc hstep =>
      obtain ⟨-, -, -, -, hi⟩ := running_eq hrun
      have hpc : o.pc.waitsOn = some l := by simpa [Sys.finish] using hw'
      refine ⟨hi, hrun, hI.can.event, ?_⟩
      cases hstep.ends with
      | user hu => simp [hu, Pc.waitsOn] at hpc
      | request hu => simp [hu, Pc.waitsOn] at hpc
      | block hu hobs hreason => exact hreason
      | read hx hu => simp [hu, Pc.waitsOn] at hpc

/-- **While the other task waits before it, the task is not signaled.** -/
theorem KeepsWaiting.unsignaled (h : Inv cfg s)
    (ha : s.sched.eventL.container a = some l ∧ s.sched.eff a = p)
    (hfirst : KeepsWaiting cfg l p a b s (e, obs) s₁) (hblk : Obs.blocked (some b) l ∈ obs)
    (hr : Runs.Exec (KeepsWaiting cfg l p a b) s₁ tr s₂) :
    Inv cfg s₂ ∧ s₂.sched.eff b = p ∧ (s₂.pc b).waitsOn = some l ∧
      (s₂.sched.tcb b).waitReason ≠ .signaled := by
  obtain ⟨-, -, hnone, hns₁⟩ := Step.blocked_unsignaled h hfirst.1 hblk hfirst.2.2.2
  have hnot : ¬ (s.sched.eventL.container b = some l ∧ s.sched.eff b = p) := by
    rw [hnone]
    simp
  have hab : a ≠ b := by
    rintro rfl
    rw [hnone] at ha
    simp at ha
  induction hr with
  | nil => exact ⟨h.step hfirst.1, hfirst.2.2.1, hfirst.2.2.2, hns₁⟩
  | @snoc tr s₂ s₃ z hr hstep ih =>
      obtain ⟨hI, hb₂, hw, hns⟩ := ih
      obtain ⟨hs, ha₃, hb₃, hw₃⟩ := hstep
      refine ⟨hI.step hs, hb₃, hw₃, Step.unsignaled hI hs hw hw₃ hns fun rest hrest => ?_⟩
      -- the other task stands before it, so it is not the head
      have hrun : Runs.Exec (KeepsWaiting cfg l p a b) s ([(e, obs)] ++ tr) s₂ :=
        (Runs.Exec.single hfirst).trans hr
      have hsub := Run.joined_behind h ha hnot (hrun.mono fun _ _ _ hz => ⟨hz.1, hz.2.1⟩)
        ⟨ListStore.container_of_head hrest, hb₂⟩
      have hnodup := s₂.sched.eventL.nodup l
      rw [hrest] at hsub hnodup
      rcases List.cons_sublist_cons'.mp hsub with htail | ⟨heq, -⟩
      · have hmem : b ∈ rest := htail.subset (by simp)
        exact (List.nodup_cons.mp hnodup).1 hmem
      · exact hab heq

/-- **The order of service on a queue.**  Let the task `a` wait in the list `l` of a queue with
the priority `p`, and let the task `b` block in `l` after it.  As long as `a` stays in `l`,
both keep the priority `p` and the call of `b` is pending, `b` is not served: its call does not
return true. -/
theorem queue_order (h : Reachable cfg s) (hq : l.object = .queue j)
    (ha : s.sched.eventL.container a = some l ∧ s.sched.eff a = p)
    (hfirst : KeepsWaiting cfg l p a b s (e, obs) s₁) (hblk : Obs.blocked (some b) l ∈ obs)
    (hr : Runs.Exec (KeepsWaiting cfg l p a b) s₁ tr s₂) {e' : Event} {obs' : List Obs}
    (hlast : Step cfg s₂ (e', obs') s₃) : ¬ Serves s₂ b obs' l := by
  obtain ⟨hI, -, hw, hns⟩ := KeepsWaiting.unsignaled h.inv ha hfirst hblk hr
  exact Step.unserved hI hlast hq hw hns

/-- The run of the steps that keep the two tasks waiting. -/
theorem keepsWaiting_of_runSteps {es : List Event} {r : List Label × Sys}
    (h : Runs.runSteps (fun s e => (step cfg s e).filter fun r => decide
      ((r.1.sched.eventL.container a = some l ∧ r.1.sched.eff a = p) ∧ r.1.sched.eff b = p ∧
        (r.1.pc b).waitsOn = some l)) s es = some r) :
    Runs.Exec (KeepsWaiting cfg l p a b) s r.1 r.2 :=
  Runs.exec_of_runSteps_filter (step cfg) (fun s => (s.sched.eventL.container a = some l ∧
    s.sched.eff a = p) ∧ s.sched.eff b = p ∧ (s.pc b).waitsOn = some l) h

/-- Two readers of one priority: the first waits, the second runs. -/
def queuedReader : List Label × Sys :=
  (Runs.runSteps (step smallConfig) smallBoot
    [createTask 1 0, createTask 2 0, createTask 3 0, .start,
      .call (.queueDequeue 0 true 0xFFFFFFFF), .resume, switchFrom 1]).get (by decide +kernel)

theorem queuedReader_reachable : Reachable smallConfig queuedReader.2 :=
  Reachable.of_runSteps smallBoot_initial (Option.some_get _).symm

/-- The second reader blocks too, with a timeout of one tick, -/
def secondReader : Sys × List Obs :=
  (step smallConfig queuedReader.2 (.call (.queueDequeue 0 true 1))).get (by decide +kernel)

/-- and is dispatched when it has timed out. -/
def lateReader : List Label × Sys :=
  (Runs.runSteps (fun s e => (step smallConfig s e).filter fun r => decide
      ((r.1.sched.eventL.container (.user 0) = some (.queueRead 0) ∧
        r.1.sched.eff (.user 0) = 0) ∧ r.1.sched.eff (.user 1) = 0 ∧
        (r.1.pc (.user 1)).waitsOn = some (.queueRead 0))) secondReader.1
    [.resume, switchFrom 2, .tick, switchFrom 3]).get (by decide +kernel)

def lateReaderResume : Sys × List Obs :=
  (step smallConfig lateReader.2 .resume).get (by decide +kernel)

theorem lateReaderResume_step :
    Step smallConfig lateReader.2 (.resume, lateReaderResume.2) lateReaderResume.1 :=
  step_of_isSome _

theorem queue_order_lateReader :
    ¬ Serves lateReader.2 (.user 1) lateReaderResume.2 (.queueRead 0) := by
  have hfirst : KeepsWaiting smallConfig (.queueRead 0) 0 (.user 0) (.user 1) queuedReader.2
      (.call (.queueDequeue 0 true 1), secondReader.2) secondReader.1 :=
    ⟨step_of_isSome _, ⟨by decide +kernel, by decide +kernel⟩, by decide +kernel,
      by decide +kernel⟩
  have hrun : Runs.Exec (KeepsWaiting smallConfig (.queueRead 0) 0 (.user 0) (.user 1))
      secondReader.1 lateReader.1 lateReader.2 :=
    keepsWaiting_of_runSteps (Option.some_get _).symm
  exact queue_order (j := 0) queuedReader_reachable rfl ⟨by decide +kernel, by decide +kernel⟩
    hfirst (by decide +kernel) hrun lateReaderResume_step

/-! ## Readers that are overtaken -/

/-- **The call of `b` returns true while that of `a` is pending.**  Both are on the queue of the
list `l`; `a` waits there before `b` calls, both have one priority, which does not change, and
`a` does not time out. -/
structure Overtakes (cfg : Config) (l : EventList) (a b : Tid) (s : Sys) (tr : List Label)
    (s₁ : Sys) (y : Label) (s₂ : Sys) : Prop where
  reach : Reachable cfg s
  queue : ∃ j, l.object = .queue j
  waits : s.sched.eventL.container a = some l
  later : (s.pc b).waitsOn ≠ some l
  prio : s.sched.eff a = s.sched.eff b
  run : Runs.Exec (fun u y u' => Step cfg u y u' ∧ Awaits u' a l ∧
    u'.sched.eff a = s.sched.eff a ∧ u'.sched.eff b = s.sched.eff b) s tr s₁
  step : Step cfg s₁ y s₂
  pending : Awaits s₂ a l
  serves : Serves s₁ b y.2 l

/-- **Tasks of one priority are served in the order of their calls.** -/
def ServedInOrder (cfg : Config) : Prop :=
  ∀ l a b s tr s₁ y s₂, ¬ Overtakes cfg l a b s tr s₁ y s₂

/-- Two readers wait, and a third task of their priority runs. -/
def waitingReaders : List Label × Sys :=
  (Runs.runSteps (step smallConfig) smallBoot
    [createTask 1 0, createTask 2 0, createTask 3 0, .start,
      .call (.queueDequeue 0 true 0xFFFFFFFF), .resume, switchFrom 1,
      .call (.queueDequeue 0 true 0xFFFFFFFF), .resume, switchFrom 2]).get (by decide +kernel)

/-- An interrupt puts an item in, and the first reader is woken. -/
def deliveredItem : List Label × Sys :=
  (Runs.runSteps (fun s e => (step smallConfig s e).filter fun r => decide
      (Awaits r.1 (.user 1) (.queueRead 0) ∧
        r.1.sched.eff (.user 1) = waitingReaders.2.sched.eff (.user 1) ∧
        r.1.sched.eff (.user 2) = waitingReaders.2.sched.eff (.user 2))) waitingReaders.2
    [.isrEnter, .isrCall (.queueEnqueue 0 (some [7]) true), .isrReturn false]).get
    (by decide +kernel)

/-- The running task takes it. -/
def takenItem : Sys × List Obs :=
  (step smallConfig deliveredItem.2 (.call (.queueDequeue 0 true 0))).get (by decide +kernel)

/-- A woken reader whose item an interrupt took away blocks again, behind the other one, which
has found the queue empty in the meantime and is woken by the next item. -/
def swappedReaders : List Label × Sys :=
  (Runs.runSteps (fun s e => (step smallConfig s e).filter fun r => decide
      (Awaits r.1 (.user 0) (.queueRead 0) ∧
        r.1.sched.eff (.user 0) = queuedReader.2.sched.eff (.user 0) ∧
        r.1.sched.eff (.user 1) = queuedReader.2.sched.eff (.user 1))) queuedReader.2
    [.isrEnter, .isrCall (.queueEnqueue 0 (some [7]) true), .isrCall (.queueDequeue 0 true true),
      .isrReturn false, .call (.queueDequeue 0 true 0xFFFFFFFF), .resume, switchFrom 2,
      .call (.wait 5), .resume, switchFrom 3, .resume, .resume, switchFrom 1,
      .isrEnter, .isrCall (.queueEnqueue 0 (some [8]) true), .isrReturn false, .tick,
      .switch 256 intactGuard]).get (by decide +kernel)

/-- The other one is served. -/
def swappedItem : Sys × List Obs :=
  (step smallConfig swappedReaders.2 .resume).get (by decide +kernel)

/-- **Readers are overtaken**: by a task that calls when an item is there, though they have not
been woken, and by a task that had to wait as they did. -/
theorem overtaken_readers : ¬ ServedInOrder smallConfig ∧
    Overtakes smallConfig (.queueRead 0) (.user 1) (.user 2) waitingReaders.2 deliveredItem.1
      deliveredItem.2 (.call (.queueDequeue 0 true 0), takenItem.2) takenItem.1 ∧
    Overtakes smallConfig (.queueRead 0) (.user 0) (.user 1) queuedReader.2 swappedReaders.1
      swappedReaders.2 (.resume, swappedItem.2) swappedItem.1 ∧
    Obs.blocked (some (.user 1)) (.queueRead 0) ∈ observations swappedReaders.1 := by
  have hfirst : Overtakes smallConfig (.queueRead 0) (.user 1) (.user 2) waitingReaders.2
      deliveredItem.1 deliveredItem.2 (.call (.queueDequeue 0 true 0), takenItem.2)
      takenItem.1 := {
    reach := Reachable.of_runSteps smallBoot_initial (Option.some_get _).symm
    queue := ⟨0, rfl⟩
    waits := by decide +kernel
    later := by decide +kernel
    prio := by decide +kernel
    run := Runs.exec_of_runSteps_filter (step smallConfig) (fun u => Awaits u (.user 1)
      (.queueRead 0) ∧ u.sched.eff (.user 1) = waitingReaders.2.sched.eff (.user 1) ∧
      u.sched.eff (.user 2) = waitingReaders.2.sched.eff (.user 2)) (Option.some_get _).symm
    step := step_of_isSome _
    pending := by decide +kernel
    serves := .read (by decide +kernel)
      (show Obs.dequeued 0 (some [7]) ∈ _ by decide +kernel) }
  have hsecond : Overtakes smallConfig (.queueRead 0) (.user 0) (.user 1) queuedReader.2
      swappedReaders.1 swappedReaders.2 (.resume, swappedItem.2) swappedItem.1 := {
    reach := queuedReader_reachable
    queue := ⟨0, rfl⟩
    waits := by decide +kernel
    later := by decide +kernel
    prio := by decide +kernel
    run := Runs.exec_of_runSteps_filter (step smallConfig) (fun u => Awaits u (.user 0)
      (.queueRead 0) ∧ u.sched.eff (.user 0) = queuedReader.2.sched.eff (.user 0) ∧
      u.sched.eff (.user 1) = queuedReader.2.sched.eff (.user 1)) (Option.some_get _).symm
    step := step_of_isSome _
    pending := by decide +kernel
    serves := .read (by decide +kernel)
      (show Obs.dequeued 0 (some [8]) ∈ _ by decide +kernel) }
  exact ⟨fun hall => hall _ _ _ _ _ _ _ _ hfirst, hfirst, hsecond, by decide +kernel⟩

end Artos
