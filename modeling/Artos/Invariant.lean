/-
# The invariant of the machine

`Inv` says how the scheduler, the objects and the points of the tasks fit together
between any two atomic steps.  `step_kind` is the inversion of the machine's step:
every step is a section of the running task or of a handler, a request, a tick or a
switch, with the moves it makes.
-/
import Artos.Waiting

open Function

namespace Artos

open Sched

variable {cfg : Config} {t u : Tid} {x : Object} {a : Action} {acts : List Action}
  {obs : List Obs}

/-! ## More about moves -/

section Moves

variable {k k' : Sched}

/-- Only a dispatch changes the current task. -/
theorem Move.curTask (hm : Move cfg k a k') (ha : ∀ t, a ≠ .dispatch t) :
    k'.curTask = k.curTask := by
  cases hm with
  | requeue hcur =>
      unfold requeued
      split <;> rfl
  | dispatch hall htop => exact absurd rfl (ha _)
  | dispatchIdle hall hnone => exact absurd rfl (ha _)
  | advance hset => exact advanced_curTask
  | _ => rfl

/-- A failure is never taken back. -/
theorem Move.failure (hm : Move cfg k a k') (hf : k'.failure = none) : k.failure = none := by
  cases hm with
  | requeue hcur =>
      unfold requeued at hf
      split at hf <;> exact hf
  | fail => simp [recordFailure] at hf
  | advance hset =>
      rw [advanced_failure] at hf
      exact hf
  | _ => exact hf

/-- Tasks are only added, each in the first free slot. -/
theorem Move.taskCount_le (hm : Move cfg k a k') :
    k.taskCount ≤ k'.taskCount ∧ ∀ i p, a = .create i p → i = k.taskCount := by
  cases hm with
  | create hentry hprio hwords hlt => exact ⟨Nat.le_succ _, by simp⟩
  | requeue hcur =>
      unfold requeued
      split <;> exact ⟨le_rfl, by simp⟩
  | advance hset =>
      rw [advanced_taskCount]
      exact ⟨le_rfl, by simp⟩
  | _ => exact ⟨le_rfl, by simp⟩

/-- No move but its own block links the unlinked current task. -/
theorem Move.unlinked (h : SInv cfg k) (hm : Move cfg k a k') (hcur : k.curTask = some t)
    (hnone : k.stateL.container t = none) (hb : ∀ w obj inf, a ≠ .block t w obj inf)
    (hr : ∀ u, a ≠ .requeue u) : k'.stateL.container t = none := by
  have hne : ∀ u, k.Blocked u → t ≠ u := by
    rintro u ⟨l, hl, -⟩ rfl
    rw [hnone] at hl
    simp at hl
  cases hm with
  | create hentry hprio hwords hlt =>
      have hnew : t ≠ .user k.taskCount := by
        rintro rfl
        exact absurd (h.cur_lt _ hcur) (lt_irrefl _)
      rw [withTask_container _ _ _ _ _ h, update_of_ne hnew]
      exact hnone
  | requeue hcur' => exact absurd rfl (hr _)
  | @dispatch u p hall htop =>
      show update k.stateL.container u none t = none
      rw [update_apply]
      split
      · rfl
      · exact hnone
  | @block u w obj inf hc hw =>
      have htu : t ≠ u := fun he => hb w obj inf (by rw [he])
      have hcont := congrFun (parked_container w inf hc.state) t
      rw [update_of_ne htu] at hcont
      exact hcont.trans hnone
  | wake hl =>
      rw [unblocked_container, update_of_ne (hne _ (h.head_blocked hl))]
      exact hnone
  | expire hl hdue =>
      rw [unblocked_container, update_of_ne (hne _ (h.delayed_blocked hl))]
      exact hnone
  | advance hset =>
      rw [advanced_stateL]
      exact hnone
  | @setEff u p hbase hp hne' =>
      rw [withEff_container]
      split
      · rename_i hready
        have htu : t ≠ u := by
          rintro rfl
          have hready' : k.stateL.container t = some (.ready (k.eff t)) := hready
          rw [hnone] at hready'
          simp at hready'
        rw [update_of_ne htu]
        exact hnone
      · exact hnone
  | _ => exact hnone

theorem Moves.failure (hm : Moves cfg k acts k') (hf : k'.failure = none) :
    k.failure = none := by
  induction hm with
  | nil => exact hf
  | snoc hm hmove ih => exact ih (hmove.failure hf)

/-- The current task and the pool under a sequence of moves without a dispatch. -/
theorem Moves.curTask (hm : Moves cfg k acts k') (ha : ∀ t, .dispatch t ∉ acts) :
    k'.curTask = k.curTask := by
  induction hm with
  | nil => rfl
  | snoc hm hmove ih =>
      have ha' : ∀ t, _ := fun t => List.mem_append.not.mp (ha t)
      push Not at ha'
      rw [hmove.curTask fun t he => (ha' t).2 (by rw [he]; exact List.mem_singleton.mpr rfl)]
      exact ih fun t => (ha' t).1

theorem Moves.taskCount_le (hm : Moves cfg k acts k') :
    k.taskCount ≤ k'.taskCount ∧ ∀ i p, Action.create i p ∈ acts → k.taskCount ≤ i := by
  induction hm with
  | nil => exact ⟨le_rfl, by simp⟩
  | snoc hm hmove ih =>
      obtain ⟨hle, hi⟩ := hmove.taskCount_le
      refine ⟨le_trans ih.1 hle, fun i p hmem => ?_⟩
      rcases List.mem_append.mp hmem with hmem | hmem
      · exact ih.2 i p hmem
      · have hip := hi i p (List.mem_singleton.mp hmem).symm
        exact hip ▸ ih.1

/-- The unlinked current task stays unlinked until it blocks or is switched out. -/
theorem Moves.unlinked (h : SInv cfg k) (hd : DelayInv k) (hm : Moves cfg k acts k')
    (hdisp : ∀ u, .dispatch u ∉ acts) (hreq : ∀ u, .requeue u ∉ acts)
    (hb : ∀ w obj inf, Action.block t w obj inf ∉ acts) (hcur : k.curTask = some t)
    (hnone : k.stateL.container t = none) : k'.stateL.container t = none := by
  induction hm with
  | nil => exact hnone
  | @snoc tr k₁ k₂ b hm hmove ih =>
      have hinit : ∀ {a}, a ∉ tr ++ [b] → a ∉ tr ∧ b ≠ a := by
        intro a ha
        rw [List.mem_append, List.mem_singleton] at ha
        push Not at ha
        exact ⟨ha.1, Ne.symm ha.2⟩
      have hcur₁ : k₁.curTask = some t := by
        rw [Moves.curTask hm fun u => (hinit (hdisp u)).1]
        exact hcur
      exact hmove.unlinked (h.moves hd hm).1 hcur₁
        (ih (fun u => (hinit (hdisp u)).1) (fun u => (hinit (hreq u)).1)
          fun w obj inf => (hinit (hb w obj inf)).1)
        (fun w obj inf => (hinit (hb w obj inf)).2) fun u => (hinit (hreq u)).2

end Moves

/-! ## The objects' part -/

/-- **The ring of a queue is well formed**, and no offset into it overflows. -/
structure QueueOk (cfg : Config) (q : Queue) : Prop where
  valid : q.Valid
  capacity_lt : q.capacity < 4294967296
  bytes_lt : q.itemSize * q.capacity < 2 ^ cfg.sizeBits

/-- The mutexes whose owner is `t`. -/
def OwnedBy (k : Kernel) (t : Tid) : Set ℕ := {h | ∃ m, k.mutex h = some m ∧ m.owner = some t}

/-- **Held-mutex accounting.**  The count of every task is the number of mutexes it
owns; a task that waits for a mutex has room for one more; owners are tasks. -/
structure MutexInv (k : Kernel) : Prop where
  count : ∀ t, (OwnedBy k t).encard = (k.sched.tcb t).mutexesHeld
  room : ∀ t h, k.sched.eventL.container t = some (.mutexLock h) →
    (k.sched.tcb t).mutexesHeld < 0xFF
  le : ∀ t, (k.sched.tcb t).mutexesHeld ≤ 0xFF
  owner : ∀ t h, h ∈ OwnedBy k t → ∃ i, t = .user i ∧ i < k.sched.taskCount

/-- **The invariant of the machine.** -/
structure Inv (cfg : Config) (s : Sys) : Prop where
  ready : Ready cfg s.sched
  settled : s.sched.Settled
  /-- The current task is in no list, unless a switch is pending or about to be
  requested. -/
  cur_linked : s.sched.failure = none → ∀ t, s.cur = some t →
    s.sched.stateL.container t ≠ none → s.pending = true ∨ ∃ r, s.pc t = .request r
  tasks : ∀ t, TaskOk (s.sched.view t) (s.pc t)
  points : ∀ t w, (s.pc t).point = some w → w.Valid s.kernel
  fresh : ∀ i, s.sched.taskCount ≤ i → s.pc (.user i) = .user
  queues : ∀ h q, s.kernel.queue h = some q → QueueOk cfg q
  mutexes : MutexInv s.kernel

/-! ## Inverting a step -/

/-- The section that the running task `t` executes at an event, with its object. -/
inductive TaskEvent (cfg : Config) (s : Sys) (t : Tid) :
    Event → Object → Outcome → Prop
  | call {c : Call} (hpc : s.pc t = .user) :
      TaskEvent cfg s t (.call c) c.object (callStep cfg s.kernel c)
  | resume {w : WaitPoint} (hpc : s.pc t = .resume w) :
      TaskEvent cfg s t .resume w.list.object (resumeStep cfg s.kernel w)
  | finish {h : ℕ} {res : Bool} (hpc : s.pc t = .semClear h res) :
      TaskEvent cfg s t .resume (.sem h) (artosSemaphoreTakeFinish s.kernel h res)

/-- What a handler's call guarantees. -/
def IsrStep (cfg : Config) (x : Object) (k : Kernel) (o : IsrOutcome) : Prop :=
  ∃ acts, (∀ t, Section cfg x t k o.kernel acts o.obs) ∧
    ∀ a ∈ acts, ∃ l u, a = Action.wake l u

/-- **The kinds of steps**, each with the moves it makes. -/
inductive StepKind (cfg : Config) (s : Sys) : Event → List Obs → Sys → Prop
  | create {entry argument stack : ℕ} {n : UInt32} {p : UInt8} {status : Status}
      {acts : List Action} {k : Sched} (hcur : s.cur = none) (hm : Moves cfg s.sched acts k)
      (hacts : acts = [] ∨ ∃ q, acts = [.create s.sched.taskCount q]) :
      StepKind cfg s (.bootCreate entry argument stack n p) [.created status] (s.setSched k)
  | start {acts : List Action} {k : Sched} (hcur : s.cur = none)
      (hm : Moves cfg s.sched acts k) (hacts : acts = [] ∨ ∃ t, acts = [.dispatch t])
      (hnext : ∀ t, k.curTask = some t → k.stateL.container t = none) :
      StepKind cfg s .start [] (s.setSched k)
  | task {e : Event} {t : Tid} {x : Object} {o : Outcome} (hrun : s.running = some t)
      (hI : InTask cfg s.sched t) (hsrc : TaskEvent cfg s t e x o)
      (hstep : TaskStep cfg x t s.kernel o) : StepKind cfg s e o.obs (s.finish t o)
  | request {t : Tid} {r : Option WaitPoint} (hrun : s.running = some t)
      (hpc : s.pc t = .request r) :
      StepKind cfg s .resume []
        { s with pending := true, pc := update s.pc t (afterRequest r) }
  | tick {ts : List Tid} {k : Sched}
      (hm : Moves cfg s.sched (.advance :: ts.map .expire) k) (hset : k.Settled) :
      StepKind cfg s .tick []
        { s.setSched k with
          pending := s.pending || k.rtosCheckRunnableTask k.curTask }
  | switch {sp : ℕ} {guard : ℕ → ℕ} {cur : Tid} {acts : List Action} {k : Sched}
      (hcur : s.cur = some cur) (hpending : s.pending = true) (hm : Moves cfg s.sched acts k)
      (hacts : acts = [.save cur sp, .fail .stackOverflow] ∧ k.failure ≠ none ∨
        ∃ t, acts = [.save cur sp, .requeue cur, .dispatch t] ∧ k.curTask = some t ∧
          k.stateL.container t = none) :
      StepKind cfg s (.switch sp guard) [] { s.setSched k with pending := false }
  | isrEnter : StepKind cfg s .isrEnter [] { s with handlers := false :: s.handlers }
  | isrCall {c : IsrCall} {woken : Bool} {rest : List Bool}
      (hh : s.handlers = woken :: rest)
      (hstep : IsrStep cfg c.object s.kernel (isrCallStep cfg s.kernel woken c)) :
      StepKind cfg s (.isrCall c) (isrCallStep cfg s.kernel woken c).obs
        { s with
          kernel := (isrCallStep cfg s.kernel woken c).kernel
          handlers := (isrCallStep cfg s.kernel woken c).gtTaskWoken :: rest }
  | isrReturn {yield woken : Bool} {rest : List Bool} (hh : s.handlers = woken :: rest) :
      StepKind cfg s (.isrReturn yield) []
        { s with handlers := rest, pending := s.pending || yield }

variable {s s' : Sys}

/-- The running task is the current one, a user task, and nothing is in its way. -/
theorem running_eq (h : s.running = some t) :
    s.cur = some t ∧ s.pending = false ∧ s.handlers = [] ∧ s.sched.failure = none ∧
      ∃ i, t = .user i := by
  unfold Sys.running at h
  split at h
  · rename_i i hcur
    split at h
    · rename_i hc
      obtain ⟨hp, hh, hf⟩ := hc
      rw [Option.some.injEq] at h
      subst h
      exact ⟨hcur, hp, List.isEmpty_iff.mp hh, Option.isNone_iff_eq_none.mp hf, i, rfl⟩
    · simp at h
  · simp at h

/-- The step of a task that goes on at a wait point. -/
theorem step_resume (hrun : s.running = some t) {w : WaitPoint} (hpc : s.pc t = .resume w)
    (hs : Step cfg s (.resume, obs) s') :
    s' = s.finish t (resumeStep cfg s.kernel w) ∧ obs = (resumeStep cfg s.kernel w).obs := by
  unfold Step step at hs
  simp only [hrun, resumeTask, hpc, Option.some.injEq, Prod.mk.injEq] at hs
  exact ⟨hs.1.symm, hs.2.symm⟩

/-- The step of a task that makes a call. -/
theorem step_call (hrun : s.running = some t) {c : Call} (hs : Step cfg s (.call c, obs) s') :
    s.pc t = .user ∧ s' = s.finish t (callStep cfg s.kernel c) ∧
      obs = (callStep cfg s.kernel c).obs := by
  unfold Step step at hs
  simp only [hrun] at hs
  split at hs
  · rename_i hpc
    simp only [Option.some.injEq, Prod.mk.injEq] at hs
    exact ⟨hpc, hs.1.symm, hs.2.symm⟩
  · simp at hs

/-- **A running task that is not about to request a switch can block.** -/
theorem Inv.inTask (h : Inv cfg s) (hrun : s.running = some t)
    (hnr : ∀ r, s.pc t ≠ .request r) : InTask cfg s.sched t := by
  obtain ⟨hcur, hp, -, hf, i, rfl⟩ := running_eq hrun
  have hstate : s.sched.stateL.container (.user i) = none := by
    by_contra hc
    rcases h.cur_linked hf _ hcur hc with hp' | ⟨r, hr⟩
    · rw [hp] at hp'
      simp at hp'
    · exact hnr r hr
  have hlt := h.ready.inv.cur_lt i hcur
  refine ⟨h.ready, hcur, by simp, hstate, ?_, (h.ready.inv.created i hlt).1⟩
  by_contra hc
  obtain ⟨l, hl, -⟩ := h.ready.inv.event_blocked _ hc
  rw [hstate] at hl
  simp at hl

/-- The reason of a task outside every call is not a signal. -/
theorem Inv.quiet (h : Inv cfg s) (hpc : s.pc t = .user) :
    (s.sched.tcb t).waitReason ≠ .signaled := by
  have ht := h.tasks t
  rw [hpc] at ht
  exact ht.2

theorem MutexInv.held_pos {k : Kernel} (h : MutexInv k) {m : Mutex} {j : ℕ}
    (hm : k.mutex j = some m) (hown : m.owner = some t) : 0 < (k.sched.tcb t).mutexesHeld := by
  have hne : (OwnedBy k t).Nonempty := ⟨j, m, hm, hown⟩
  have hpos := Set.encard_pos.mpr hne
  rw [h.count t] at hpos
  exact_mod_cast hpos

/-- **The first section of every call is a task step.** -/
theorem callStep_step (h : Inv cfg s) (hI : InTask cfg s.sched t) (hpc : s.pc t = .user)
    (c : Call) : TaskStep cfg c.object t s.kernel (callStep cfg s.kernel c) := by
  have hr := h.quiet hpc
  have hv : ∀ h' q, s.kernel.queue h' = some q → q.Valid := fun h' q hq =>
    (h.queues h' q hq).valid
  cases c with
  | taskCreate entry argument stack n p => exact taskCreateCall_step hI hr _ _ _ _ _
  | yield =>
      exact TaskStep.still hI hr (Or.inr rfl)
        (Section.of_sched Runs.Exec.nil (by simp) (by simp)
          (by constructor <;> simp [callStep]))
  | wait n => exact artosWait_step hI hr n.toNat_lt
  | waitUntil w => exact artosWaitUntil_step hI hr w.toNat_lt
  | semaphoreTake j n => exact (artosSemaphoreTake_section hI j n.toNat_lt).step hI hr
  | semaphoreSignal j => exact artosSemaphoreSignal_step hI hr j
  | mutexLock j n => exact (artosMutexLock_section hI j n.toNat_lt).step hI hr
  | mutexUnlock j =>
      refine (artosMutexUnlock_section hI j (fun m hm hown => h.mutexes.held_pos hm hown)
        fun u hu => ?_).step hI hr
      have hroom := h.mutexes.room u j hu
      omega
  | queueEnqueue j data n => exact (artosQueueEnqueue_section hI (hv j) data _).step hI hr
  | queueDequeue j dst n => exact (artosQueueDequeue_section hI (hv j) dst _).step hI hr

/-- A task that goes on at a wait point has been released. -/
theorem Inv.released (h : Inv cfg s) (hI : InTask cfg s.sched t) {w : WaitPoint}
    (hpc : s.pc t = .resume w) : (s.sched.tcb t).waitReason ≠ .noReason := by
  have ht := h.tasks t
  rw [hpc] at ht
  rcases ht with ⟨he, -, -⟩ | ⟨-, -, hr⟩
  · rw [hI.view.1] at he
    simp at he
  · exact hr

/-- **The second section of every blocking call is a task step.** -/
theorem resumeStep_step (h : Inv cfg s) (hI : InTask cfg s.sched t) {w : WaitPoint}
    (hpc : s.pc t = .resume w) :
    TaskStep cfg w.list.object t s.kernel (resumeStep cfg s.kernel w) := by
  have hvalid := h.points t w (by rw [hpc]; rfl)
  have hreason : s.sched.rtosCurrentWaitReason = (s.sched.tcb t).waitReason := by
    unfold rtosCurrentWaitReason
    rw [hI.can.cur]
  obtain ⟨hI', hr'⟩ := hI.cleared
  cases w with
  | sem j =>
      refine ⟨⟨[], Section.of_sched Runs.Exec.nil (by simp) (by simp)
        (by constructor <;> simp [resumeStep, artosSemaphoreTakeResume]), by simp⟩, ?_, ?_,
        .read rfl rfl⟩
      · refine ⟨hI.view.1, hI.view.2, ?_⟩
        rw [decide_eq_true_eq, hreason]
        rfl
      · simp [resumeStep, artosSemaphoreTakeResume, Pc.point]
  | mutex j =>
      obtain ⟨m, hm⟩ := Option.ne_none_iff_exists'.mp hvalid
      exact (artosMutexLockResume_section hI hm).step hI
  | enqueue j data w inf =>
      obtain ⟨hq, hw⟩ := hvalid
      obtain ⟨q, hq⟩ := Option.ne_none_iff_exists'.mp hq
      refine TaskStep.after_clear hI ?_
      simp only [resumeStep, artosQueueEnqueueResume, hq]
      split
      · exact TaskStep.still hI' hr' (Or.inl rfl)
          (Section.of_sched Runs.Exec.nil (by simp) (by simp)
            (by constructor <;> simp [WaitPoint.list]))
      · exact (enqueueAttempt_section
          (k := { s.kernel with sched := s.sched.rtosClearCurrentWaitReason })
          hI' hq data hw inf False).step hI' hr'
  | dequeue j w inf =>
      obtain ⟨hq, hw⟩ := hvalid
      obtain ⟨q, hq⟩ := Option.ne_none_iff_exists'.mp hq
      refine TaskStep.after_clear hI ?_
      simp only [resumeStep, artosQueueDequeueResume, hq]
      split
      · exact TaskStep.still hI' hr' (Or.inl rfl)
          (Section.of_sched Runs.Exec.nil (by simp) (by simp)
            (by constructor <;> simp [WaitPoint.list]))
      · exact (dequeueAttempt_section
          (k := { s.kernel with sched := s.sched.rtosClearCurrentWaitReason })
          hI' hq hw inf False).step hI' hr'

/-- The last section of a take is a task step. -/
theorem artosSemaphoreTakeFinish_step (hI : InTask cfg s.sched t) (j : ℕ) (res : Bool) :
    TaskStep cfg (.sem j) t s.kernel (artosSemaphoreTakeFinish s.kernel j res) := by
  obtain ⟨hI', hr'⟩ := hI.cleared
  refine TaskStep.after_clear hI ?_
  exact TaskStep.still hI' hr' (Or.inl rfl)
    (Section.of_sched Runs.Exec.nil (by simp) (by simp)
      (by constructor <;> simp [artosSemaphoreTakeFinish, hI.can.cur]))

/-- **Every call of a handler is a section of its object that only wakes.** -/
theorem isrCallStep_step (h : Inv cfg s) (woken : Bool) (c : IsrCall) :
    IsrStep cfg c.object s.kernel (isrCallStep cfg s.kernel woken c) := by
  have hv : ∀ h' q, s.kernel.queue h' = some q → q.Valid := fun h' q hq =>
    (h.queues h' q hq).valid
  have hwake : ∀ {k k' : Sched} {l : EventList} {acts : List Action} {wobs : List Obs}
      {g : Bool}, WakeEffect k l k' acts wobs g → ∀ a ∈ acts, ∃ l u, a = Action.wake l u := by
    intro k k' l acts wobs g hw
    cases hw with
    | empty hl => simp
    | head hl => simp
  cases c with
  | semaphoreTake j =>
      exact ⟨[], fun t => (artosSemaphoreTakeIsr_effect j woken).1.section (by simp), by simp⟩
  | semaphoreSignal j flagged =>
      obtain ⟨acts, g, he, -⟩ := artosSemaphoreSignalIsr_effect h.ready j flagged woken
      refine ⟨acts, fun t => he.section.1, ?_⟩
      revert he
      generalize (artosSemaphoreSignalIsr cfg s.kernel j flagged woken).kernel = k'
      generalize (artosSemaphoreSignalIsr cfg s.kernel j flagged woken).obs = obs'
      intro he
      cases he <;> simp
  | queueEnqueue j data flagged =>
      have hsec := artosQueueEnqueueFromIsr_section h.ready (hv j) data flagged woken
      simp only [isrCallStep]
      revert hsec
      generalize artosQueueEnqueueFromIsr cfg s.kernel j data flagged woken = o
      intro hsec
      cases hsec with
      | refuse hob =>
          obtain ⟨item, rfl⟩ := hob
          exact ⟨[], fun t => Section.of_sched Runs.Exec.nil (by simp) (by simp)
            (by constructor <;> simp [IsrCall.object]), by simp⟩
      | @done k' acts obs g he =>
          refine ⟨acts, fun t => he.section.1, ?_⟩
          cases he with
          | put hq hroom hw => exact hwake hw
  | queueDequeue j dst flagged =>
      have hsec := artosQueueDequeueFromIsr_section h.ready (hv j) dst flagged woken
      simp only [isrCallStep]
      revert hsec
      generalize artosQueueDequeueFromIsr cfg s.kernel j dst flagged woken = o
      intro hsec
      cases hsec with
      | refuse hob =>
          subst hob
          exact ⟨[], fun t => Section.of_sched Runs.Exec.nil (by simp) (by simp)
            (by constructor <;> simp [IsrCall.object]), by simp⟩
      | @done k' acts obs g he =>
          refine ⟨acts, fun t => he.section.1, ?_⟩
          cases he with
          | get hq hne hw => exact hwake hw

/-- A context switch, as moves. -/
theorem switch_moves {k : Sched} (h : Ready cfg k) {cur : Tid} (hcur : k.curTask = some cur)
    {sp : ℕ} (hsp : sp ≠ 0) (guard : ℕ → ℕ) :
    ∃ acts, Moves cfg k acts (k.rtosSchedulerSwitchContext cfg sp guard).1 ∧
      (acts = [.save cur sp, .fail .stackOverflow] ∧
          (k.rtosSchedulerSwitchContext cfg sp guard).1.failure ≠ none ∨
        ∃ t, acts = [.save cur sp, .requeue cur, .dispatch t] ∧
          (k.rtosSchedulerSwitchContext cfg sp guard).1.curTask = some t ∧
          (k.rtosSchedulerSwitchContext cfg sp guard).1.stateL.container t = none) := by
  have hsave : Moves cfg k [.save cur sp] (k.saved cur sp) :=
    Runs.Exec.single (.save hcur hsp)
  have hs := (h.inv.moves h.delay hsave).1
  have hcur' : (k.saved cur sp).curTask = some cur := hcur
  have hreq : Moves cfg k ([.save cur sp] ++ [.requeue cur]) ((k.saved cur sp).requeued cur) :=
    Runs.Exec.snoc hsave (.requeue hcur')
  have hall := hs.allLinked_requeued hcur'
  have hr := (h.inv.moves h.delay hreq).1
  rcases rtosSchedulerSwitchContext_cases h.inv hcur hsp guard rfl with
    heq | ⟨hnone, heq⟩ | ⟨t, p, htop, heq⟩
  · rw [heq]
    exact ⟨_, Runs.Exec.snoc hsave .fail, Or.inl ⟨rfl, by simp [recordFailure]⟩⟩
  · rw [heq]
    exact ⟨_, Runs.Exec.snoc hreq (.dispatchIdle hall hnone),
      Or.inr ⟨_, rfl, rfl, hr.idle_state⟩⟩
  · rw [heq]
    exact ⟨_, Runs.Exec.snoc hreq (.dispatch hall htop),
      Or.inr ⟨_, rfl, rfl, by simp [dispatched, popReady]⟩⟩

/-- **Inversion of the machine's step.** -/
theorem step_kind (h : Inv cfg s) {e : Event} (hs : Step cfg s (e, obs) s') :
    StepKind cfg s e obs s' := by
  unfold Step step at hs
  cases e with
  | bootCreate entry argument stack n p =>
      simp only at hs
      split at hs
      · rename_i hc
        simp only [Option.some.injEq, Prod.mk.injEq] at hs
        obtain ⟨rfl, rfl⟩ := hs
        rcases artosTaskCreate_cases h.ready.inv entry argument stack n.toNat p.toNat with
          ⟨status, heq⟩ | ⟨⟨hentry, hprio, hwords, hlt⟩, heq⟩
        · rw [heq]
          exact .create hc.1 Runs.Exec.nil (Or.inl rfl)
        · rw [heq]
          exact .create hc.1 (Runs.Exec.single (.create hentry hprio hwords hlt))
            (Or.inr ⟨_, rfl⟩)
      · simp at hs
  | start =>
      simp only at hs
      split at hs
      · rename_i hc
        simp only [Option.some.injEq, Prod.mk.injEq] at hs
        obtain ⟨rfl, rfl⟩ := hs
        have hall : s.sched.AllLinked := by
          intro i hi hnone
          have hcur := h.ready.inv.unlinked_cur i hi hnone
          exact absurd (hc.1.symm.trans hcur) (by simp)
        rcases rtosSchedulerStart_cases h.ready.inv hc.1 rfl with heq | ⟨t, p, htop, heq⟩
        · rw [heq]
          exact .start hc.1 Runs.Exec.nil (Or.inl rfl) (by simp [hc.1])
        · rw [heq]
          refine .start hc.1 (Runs.Exec.single (.dispatch hall htop)) (Or.inr ⟨_, rfl⟩) ?_
          simp [dispatched, popReady]
      · simp at hs
  | call c =>
      simp only at hs
      rcases hrun : s.running with _ | t
      · simp [hrun] at hs
      · simp only [hrun] at hs
        split at hs
        · rename_i hpc
          simp only [Option.some.injEq, Prod.mk.injEq] at hs
          obtain ⟨rfl, rfl⟩ := hs
          have hI := h.inTask hrun (by simp [hpc])
          exact .task hrun hI (.call hpc) (callStep_step h hI hpc c)
        · simp at hs
  | resume =>
      simp only at hs
      rcases hrun : s.running with _ | t
      · simp [hrun] at hs
      · simp only [hrun] at hs
        unfold resumeTask at hs
        rcases hpc : s.pc t with _ | r | w | ⟨j, res⟩
        · simp [hpc] at hs
        · simp only [hpc, Option.some.injEq, Prod.mk.injEq] at hs
          obtain ⟨rfl, rfl⟩ := hs
          exact .request hrun hpc
        · simp only [hpc, Option.some.injEq, Prod.mk.injEq] at hs
          obtain ⟨rfl, rfl⟩ := hs
          have hI := h.inTask hrun (by simp [hpc])
          exact .task hrun hI (.resume hpc) (resumeStep_step h hI hpc)
        · simp only [hpc, Option.some.injEq, Prod.mk.injEq] at hs
          obtain ⟨rfl, rfl⟩ := hs
          have hI := h.inTask hrun (by simp [hpc])
          exact .task hrun hI (.finish hpc) (artosSemaphoreTakeFinish_step hI j res)
  | tick =>
      simp only at hs
      split at hs
      · obtain ⟨k', ts, htick, hm, hset⟩ := tick_moves h.ready.inv h.ready.delay h.settled
        rw [htick] at hs
        simp only [Option.some.injEq, Prod.mk.injEq] at hs
        obtain ⟨rfl, rfl⟩ := hs
        exact .tick hm hset
      · simp at hs
  | switch sp guard =>
      simp only at hs
      split at hs
      · rename_i hc
        obtain ⟨cur, hcur⟩ := Option.ne_none_iff_exists'.mp hc.1
        simp only [Option.some.injEq, Prod.mk.injEq] at hs
        obtain ⟨rfl, rfl⟩ := hs
        obtain ⟨acts, hm, hacts⟩ := switch_moves h.ready hcur hc.2.2.2.2 guard
        exact .switch hcur hc.2.1 hm hacts
      · simp at hs
  | isrEnter =>
      simp only at hs
      split at hs
      · simp only [Option.some.injEq, Prod.mk.injEq] at hs
        obtain ⟨rfl, rfl⟩ := hs
        exact .isrEnter
      · simp at hs
  | isrCall c =>
      simp only at hs
      rcases hh : s.handlers with _ | ⟨woken, rest⟩
      · simp [hh] at hs
      · simp only [hh] at hs
        split at hs
        · simp only [Option.some.injEq, Prod.mk.injEq] at hs
          obtain ⟨rfl, rfl⟩ := hs
          exact .isrCall hh (isrCallStep_step h woken c)
        · simp at hs
  | isrReturn yield =>
      simp only at hs
      rcases hh : s.handlers with _ | ⟨woken, rest⟩
      · simp [hh] at hs
      · simp only [hh] at hs
        split at hs
        · simp only [Option.some.injEq, Prod.mk.injEq] at hs
          obtain ⟨rfl, rfl⟩ := hs
          exact .isrReturn hh
        · simp at hs

end Artos
