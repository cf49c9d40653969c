/-
# Critical sections as moves

What each critical section of `semaphore.c`, `mutex.c` and `queue.c` can do, one
constructor for each way it can end (`TakeEffect`, `SignalEffect`, `LockEffect`,
and so on), with the moves it makes in the scheduler.  Task and interrupt forms
share their effects.  The claims about the objects work with these effects and
never unfold a function of the source again.
-/
import Artos.Moves

open Function

namespace Artos

open Sched

variable {cfg : Config} {k : Kernel} {t : Tid}

/-! ## Running a section -/

/-- What holds when a section starts. -/
structure Ready (cfg : Config) (k : Sched) : Prop where
  inv : SInv cfg k
  delay : DelayInv k

/-- What holds when a section of the running task `t` starts. -/
structure InTask (cfg : Config) (k : Sched) (t : Tid) : Prop extends Ready cfg k where
  can : k.CanBlock t

/-- The task blocks until a tick other than the present one, or for ever. -/
def BlockTick (k : Sched) (wakeTick : ℕ) (infinite : Bool) : Prop :=
  infinite = false → wakeTick < 4294967296 ∧ wakeTick ≠ k.ticks

/-- **Blocking is one move.** -/
theorem InTask.block {k : Sched} (h : InTask cfg k t) {wakeTick : ℕ} {infinite : Bool}
    (waitObj : Option EventList) (hw : BlockTick k wakeTick infinite) :
    Moves cfg k [.block t wakeTick waitObj infinite]
      (k.rtosBlockCurrentTask wakeTick waitObj infinite) := by
  rw [rtosBlockCurrentTask_eq h.can]
  exact Runs.Exec.single (.block h.can hw)

/-- A finite timeout leads to another tick. -/
theorem blockTick_add {k : Sched} (hd : DelayInv k) {n : ℕ} (hn : n ≠ 0)
    (hlt : n < 4294967296) (hinf : n ≠ artosDelayInfinity) (infinite : Bool) :
    BlockTick k (u32 (n + k.ticks)) infinite := by
  have hticks := hd.ticks_lt
  intro _
  unfold u32
  unfold artosDelayInfinity at hinf
  omega

/-- The blocking branch of a take or a lock is one move. -/
theorem InTask.blockFor {k : Sched} (h : InTask cfg k t) (l : EventList) {n : ℕ}
    (hn : n ≠ 0) (hlt : n < 4294967296) :
    ∃ w inf, Moves cfg k [.block t w (some l) inf] (blockFor k l n) := by
  unfold Artos.blockFor
  split
  · exact ⟨_, _, h.block (some l) (by simp [BlockTick])⟩
  · rename_i hinf
    exact ⟨_, _, h.block (some l) (blockTick_add h.delay hn hlt hinf false)⟩

/-- **What waking the head of a wait list does**, with the actions, the
observations, and the comparison with the current task's effective priority. -/
inductive WakeEffect (k : Sched) (l : EventList) :
    Sched → List Action → List Obs → Bool → Prop
  | empty (hl : k.eventL.elems l = []) : WakeEffect k l k [] [] false
  | head {w : Tid} {rest : List Tid} (hl : k.eventL.elems l = w :: rest) :
      WakeEffect k l (k.unblocked w .signaled) [.wake l w] [.handed l w]
        (decide (k.eff w > k.rtosCurrentEffectivePriority))

/-- `wakeHead` has this effect. -/
theorem wakeHead_effect {k : Sched} (h : SInv cfg k) (l : EventList) :
    ∃ acts, WakeEffect k l (wakeHead cfg k l).sched acts (wakeHead cfg k l).obs
      (wakeHead cfg k l).gtPrio := by
  unfold wakeHead
  split
  · rename_i hl
    exact ⟨_, .empty hl⟩
  · rename_i w rest hl
    have hc := ListStore.container_of_head hl
    have hlink : k.itemLinked (.event w) = true := by simp [itemLinked, hc]
    have hval : k.eventL.value w = k.eff w := h.event_value w (by rw [hc]; simp)
    refine ⟨[.wake l w], ?_⟩
    rw [rtosUnblockTask_eq h (h.head_blocked hl) rfl hlink, hval]
    exact .head hl

/-- The moves of a wake-up. -/
theorem WakeEffect.moves {k k' : Sched} {l : EventList} {acts : List Action}
    {obs : List Obs} {g : Bool} (h : WakeEffect k l k' acts obs g) : Moves cfg k acts k' := by
  cases h with
  | empty hl => exact Runs.Exec.nil
  | head hl => exact Runs.Exec.single (.wake hl)

/-! ## Semaphores -/

/-- A take that does not block, by a task or in a handler. -/
inductive TakeEffect (k : Kernel) (h : ℕ) (o : Option Tid) : Kernel → List Obs → Prop
  | refuse (hzero : ∀ sem, k.sem h = some sem → sem.count = 0) :
      TakeEffect k h o k [.taken h o false]
  | take {sem : Semaphore} (hsem : k.sem h = some sem) (hne : sem.count ≠ 0) :
      TakeEffect k h o (k.setSem h { sem with count := sem.count - 1 }) [.taken h o true]

/-- The first critical section of `artos_semaphore_take` by the task `t`. -/
inductive TakeSection (cfg : Config) (k : Kernel) (h : ℕ) (t : Tid) : Outcome → Prop
  | now {k' : Kernel} {obs : List Obs} (he : TakeEffect k h (some t) k' obs) :
      TakeSection cfg k h t ⟨k', .user, obs⟩
  | block {sem : Semaphore} {w : ℕ} {inf : Bool} {sched : Sched}
      (hsem : k.sem h = some sem) (hzero : sem.count = 0)
      (hm : Moves cfg k.sched [.block t w (some (.semWait h)) inf] sched) :
      TakeSection cfg k h t
        ⟨{ k with sched := sched }, .request (some (.sem h)),
          [.blocked (some t) (.semWait h)]⟩

theorem artosSemaphoreTake_section (hI : InTask cfg k.sched t) (h : ℕ) {n : ℕ}
    (hlt : n < 4294967296) : TakeSection cfg k h t (artosSemaphoreTake k h n) := by
  unfold artosSemaphoreTake
  rw [hI.can.cur]
  rcases hsem : k.sem h with _ | sem
  · exact .now (.refuse (by simp [hsem]))
  · simp only
    by_cases hne : sem.count ≠ 0
    · rw [if_pos hne]
      exact .now (.take hsem hne)
    · have hzero : sem.count = 0 := by omega
      rw [if_neg hne]
      by_cases hn : n = 0
      · rw [if_pos hn]
        refine .now (.refuse fun sem' hsem' => ?_)
        rw [hsem, Option.some.injEq] at hsem'
        rw [← hsem', hzero]
      · rw [if_neg hn]
        obtain ⟨w, inf, hm⟩ := hI.blockFor (.semWait h) hn hlt
        exact .block hsem hzero hm

theorem artosSemaphoreTakeIsr_effect (h : ℕ) (woken : Bool) :
    TakeEffect k h none (artosSemaphoreTakeIsr k h woken).kernel
      (artosSemaphoreTakeIsr k h woken).obs ∧
      (artosSemaphoreTakeIsr k h woken).gtTaskWoken = woken := by
  unfold artosSemaphoreTakeIsr
  rcases hsem : k.sem h with _ | sem
  · exact ⟨.refuse (by simp [hsem]), rfl⟩
  · simp only
    by_cases hne : sem.count ≠ 0
    · rw [if_pos hne]
      exact ⟨.take hsem hne, rfl⟩
    · have hzero : sem.count = 0 := by omega
      rw [if_neg hne]
      refine ⟨.refuse fun sem' hsem' => ?_, rfl⟩
      rw [hsem, Option.some.injEq] at hsem'
      rw [← hsem', hzero]

/-- A signal, by a task or in a handler, with the comparison it makes. -/
inductive SignalEffect (k : Kernel) (h : ℕ) :
    Kernel → List Action → List Obs → Bool → Prop
  | invalid (hsem : k.sem h = none) : SignalEffect k h k [] [.signaled h false] false
  | full {sem : Semaphore} (hsem : k.sem h = some sem) (hne : sem.count ≠ 0)
      (hfull : sem.count = sem.max) : SignalEffect k h k [] [.signaled h false] false
  | store {sem : Semaphore} (hsem : k.sem h = some sem)
      (hroom : sem.count ≠ 0 → sem.count ≠ sem.max)
      (hempty : sem.count = 0 → k.sched.eventL.elems (.semWait h) = []) :
      SignalEffect k h (k.setSem h { sem with count := u32 (sem.count + 1) }) []
        [.signaled h true] false
  | hand {sem : Semaphore} {w : Tid} {rest : List Tid} (hsem : k.sem h = some sem)
      (hzero : sem.count = 0) (hl : k.sched.eventL.elems (.semWait h) = w :: rest) :
      SignalEffect k h { k with sched := k.sched.unblocked w .signaled }
        [.wake (.semWait h) w] [.signaled h true, .handed (.semWait h) w]
        (decide (k.sched.eff w > k.sched.rtosCurrentEffectivePriority))

/-- The two forms of a signal make the same choice. -/
theorem wakeHead_signal (hI : Ready cfg k.sched) {h : ℕ} {sem : Semaphore}
    (hsem : k.sem h = some sem) (hzero : sem.count = 0)
    (hne : (k.sched.eventL.elems (.semWait h)).length ≠ 0) :
    ∃ acts, SignalEffect k h { k with sched := (wakeHead cfg k.sched (.semWait h)).sched }
      acts (.signaled h true :: (wakeHead cfg k.sched (.semWait h)).obs)
      (wakeHead cfg k.sched (.semWait h)).gtPrio := by
  obtain ⟨acts, he⟩ := wakeHead_effect hI.inv (.semWait h)
  refine ⟨acts, ?_⟩
  revert he
  generalize wakeHead cfg k.sched (.semWait h) = r
  obtain ⟨sched, g, obs⟩ := r
  intro he
  cases he with
  | empty hl => simp [hl] at hne
  | head hl => exact .hand hsem hzero hl

theorem artosSemaphoreSignal_effect (hI : Ready cfg k.sched) (h : ℕ) :
    ∃ acts g, SignalEffect k h (artosSemaphoreSignal cfg k h).kernel acts
      (artosSemaphoreSignal cfg k h).obs g ∧
      (artosSemaphoreSignal cfg k h).pc = afterWake g := by
  unfold artosSemaphoreSignal
  rcases hsem : k.sem h with _ | sem
  · exact ⟨_, _, .invalid hsem, rfl⟩
  · simp only
    by_cases hne : sem.count ≠ 0
    · rw [if_pos hne]
      by_cases hfull : sem.count ≠ sem.max
      · rw [if_pos hfull]
        exact ⟨_, _, .store hsem (fun _ => hfull) (fun h0 => absurd h0 hne), rfl⟩
      · rw [if_neg hfull]
        exact ⟨_, _, .full hsem hne (by omega), rfl⟩
    · have hzero : sem.count = 0 := by omega
      rw [if_neg hne]
      by_cases hlen : (k.sched.eventL.elems (.semWait h)).length = 0
      · rw [if_pos hlen]
        exact ⟨_, _, .store hsem (fun h0 => absurd hzero h0)
          (fun _ => List.length_eq_zero_iff.mp hlen), rfl⟩
      · rw [if_neg hlen]
        obtain ⟨acts, he⟩ := wakeHead_signal hI hsem hzero hlen
        exact ⟨acts, _, he, rfl⟩

theorem artosSemaphoreSignalIsr_effect (hI : Ready cfg k.sched) (h : ℕ)
    (flagged woken : Bool) :
    ∃ acts g, SignalEffect k h (artosSemaphoreSignalIsr cfg k h flagged woken).kernel acts
      (artosSemaphoreSignalIsr cfg k h flagged woken).obs g ∧
      (artosSemaphoreSignalIsr cfg k h flagged woken).gtTaskWoken =
        (woken || (flagged && g)) := by
  unfold artosSemaphoreSignalIsr
  rcases hsem : k.sem h with _ | sem
  · exact ⟨_, _, .invalid hsem, by simp⟩
  · simp only
    by_cases hne : sem.count ≠ 0
    · rw [if_pos hne]
      by_cases hfull : sem.count ≠ sem.max
      · rw [if_pos hfull]
        exact ⟨_, _, .store hsem (fun _ => hfull) (fun h0 => absurd h0 hne), by simp⟩
      · rw [if_neg hfull]
        exact ⟨_, _, .full hsem hne (by omega), by simp⟩
    · have hzero : sem.count = 0 := by omega
      rw [if_neg hne]
      by_cases hlen : (k.sched.eventL.elems (.semWait h)).length = 0
      · rw [if_pos hlen]
        exact ⟨_, _, .store hsem (fun h0 => absurd hzero h0)
          (fun _ => List.length_eq_zero_iff.mp hlen), by simp⟩
      · rw [if_neg hlen]
        obtain ⟨acts, he⟩ := wakeHead_signal hI hsem hzero hlen
        exact ⟨acts, _, he, rfl⟩

/-- What clearing the current wait reason does in a task. -/
theorem InTask.clear_eq {k : Sched} (h : InTask cfg k t) :
    k.rtosClearCurrentWaitReason = k.cleared t := by
  unfold rtosClearCurrentWaitReason
  rw [h.can.cur]
  rfl

/-- Clearing the current wait reason is one move. -/
theorem InTask.clear {k : Sched} (h : InTask cfg k t) :
    Moves cfg k [.clear t] k.rtosClearCurrentWaitReason := by
  rw [h.clear_eq]
  exact Runs.Exec.single (.clear h.can.cur)

/-! ## Queues -/

/-- A successful enqueue, by a task or in a handler. -/
inductive PutEffect (cfg : Config) (k : Kernel) (h : ℕ) :
    Kernel → List Action → List Obs → Bool → Prop
  | put {q : Queue} {data : List UInt8} {sched : Sched} {acts : List Action}
      {wobs : List Obs} {g : Bool} (hq : k.queue h = some q) (hroom : q.count ≠ q.capacity)
      (hw : WakeEffect k.sched (.queueRead h) sched acts wobs g) :
      PutEffect cfg k h { k.setQueue h (q.put cfg data) with sched := sched } acts
        (.enqueued h (q.itemOf data) true :: wobs) g

/-- A successful dequeue, by a task or in a handler. -/
inductive GetEffect (cfg : Config) (k : Kernel) (h : ℕ) :
    Kernel → List Action → List Obs → Bool → Prop
  | get {q : Queue} {sched : Sched} {acts : List Action} {wobs : List Obs} {g : Bool}
      (hq : k.queue h = some q) (hne : q.count ≠ 0)
      (hw : WakeEffect k.sched (.queueWrite h) sched acts wobs g) :
      GetEffect cfg k h { k.setQueue h q.take with sched := sched } acts
        (.dequeued h (some (q.itemAt cfg q.readIndex)) :: wobs) g

/-- One pass of the loop of `artos_queue_enqueue` by the task `t`, with the item and the
deadline it keeps.  It fails only when it is `excused`, or the queue is full and the
deadline has passed. -/
inductive EnqueueSection (cfg : Config) (k : Kernel) (h : ℕ) (t : Tid) (data : List UInt8)
    (w : ℕ) (inf : Bool) (excused : Prop) : Outcome → Prop
  | refuse {item : List UInt8}
      (hwhy : excused ∨ (∃ q, k.queue h = some q ∧ q.count = q.capacity) ∧
        deadlinePassed k.sched w inf = true) :
      EnqueueSection cfg k h t data w inf excused ⟨k, .user, [.enqueued h item false]⟩
  | block {q : Queue} {sched : Sched} (hq : k.queue h = some q) (hfull : q.count = q.capacity)
      (hw : w < 4294967296) (hp : deadlinePassed k.sched w inf = false)
      (hm : Moves cfg k.sched [.block t w (some (.queueWrite h)) inf] sched) :
      EnqueueSection cfg k h t data w inf excused
        ⟨{ k with sched := sched }, .request (some (.enqueue h data w inf)),
          [.blocked (some t) (.queueWrite h)]⟩
  | put {k' : Kernel} {acts : List Action} {obs : List Obs} {g : Bool}
      (he : PutEffect cfg k h k' acts obs g) :
      EnqueueSection cfg k h t data w inf excused ⟨k', afterWake g, obs⟩

/-- One pass of the loop of `artos_queue_dequeue` by the task `t`. -/
inductive DequeueSection (cfg : Config) (k : Kernel) (h : ℕ) (t : Tid) (w : ℕ) (inf : Bool)
    (excused : Prop) : Outcome → Prop
  | refuse
      (hwhy : excused ∨ (∃ q, k.queue h = some q ∧ q.count = 0) ∧
        deadlinePassed k.sched w inf = true) :
      DequeueSection cfg k h t w inf excused ⟨k, .user, [.dequeued h none]⟩
  | block {q : Queue} {sched : Sched} (hq : k.queue h = some q) (hempty : q.count = 0)
      (hw : w < 4294967296) (hp : deadlinePassed k.sched w inf = false)
      (hm : Moves cfg k.sched [.block t w (some (.queueRead h)) inf] sched) :
      DequeueSection cfg k h t w inf excused
        ⟨{ k with sched := sched }, .request (some (.dequeue h w inf)),
          [.blocked (some t) (.queueRead h)]⟩
  | get {k' : Kernel} {acts : List Action} {obs : List Obs} {g : Bool}
      (he : GetEffect cfg k h k' acts obs g) :
      DequeueSection cfg k h t w inf excused ⟨k', afterWake g, obs⟩

/-- A pass with a weaker excuse. -/
theorem EnqueueSection.mono {h w : ℕ} {data : List UInt8} {inf : Bool} {p p' : Prop}
    {o : Outcome} (hs : EnqueueSection cfg k h t data w inf p o) (hp : p → p') :
    EnqueueSection cfg k h t data w inf p' o := by
  cases hs with
  | refuse hwhy => exact .refuse (hwhy.imp_left hp)
  | block hq hfull hw hd hm => exact .block hq hfull hw hd hm
  | put he => exact .put he

theorem DequeueSection.mono {h w : ℕ} {inf : Bool} {p p' : Prop} {o : Outcome}
    (hs : DequeueSection cfg k h t w inf p o) (hp : p → p') :
    DequeueSection cfg k h t w inf p' o := by
  cases hs with
  | refuse hwhy => exact .refuse (hwhy.imp_left hp)
  | block hq hempty hw hd hm => exact .block hq hempty hw hd hm
  | get he => exact .get he

/-- A deadline that has not passed is not the present tick. -/
theorem blockTick_of_deadline {k : Sched} (hd : DelayInv k) {w : ℕ} {inf : Bool}
    (hw : w < 4294967296) (hp : deadlinePassed k w inf = false) : BlockTick k w inf := by
  have hticks := hd.ticks_lt
  intro hinf
  refine ⟨hw, ?_⟩
  rintro rfl
  have hdelta : u32 4294967296 = 0 := rfl
  simp [deadlinePassed, hinf, hdelta] at hp

theorem enqueueAttempt_section (hI : InTask cfg k.sched t) {h : ℕ} {q : Queue}
    (hq : k.queue h = some q) (data : List UInt8) {w : ℕ} (hw : w < 4294967296)
    (inf : Bool) (excused : Prop) :
    EnqueueSection cfg k h t data w inf excused (enqueueAttempt cfg k h q data w inf) := by
  unfold enqueueAttempt
  rw [hI.can.cur]
  by_cases hfull : q.count = q.capacity
  · rw [if_pos hfull]
    by_cases hp : deadlinePassed k.sched w inf = true
    · rw [if_pos hp]
      exact .refuse (Or.inr ⟨⟨q, hq, hfull⟩, hp⟩)
    · rw [if_neg hp]
      rw [Bool.not_eq_true] at hp
      exact .block hq hfull hw hp (hI.block _ (blockTick_of_deadline hI.delay hw hp))
  · rw [if_neg hfull]
    obtain ⟨acts, he⟩ := wakeHead_effect hI.inv (.queueRead h)
    exact .put (.put hq hfull he)

theorem dequeueAttempt_section (hI : InTask cfg k.sched t) {h : ℕ} {q : Queue}
    (hq : k.queue h = some q) {w : ℕ} (hw : w < 4294967296) (inf : Bool)
    (excused : Prop) :
    DequeueSection cfg k h t w inf excused (dequeueAttempt cfg k h q w inf) := by
  unfold dequeueAttempt
  rw [hI.can.cur]
  by_cases hempty : q.count = 0
  · rw [if_pos hempty]
    by_cases hp : deadlinePassed k.sched w inf = true
    · rw [if_pos hp]
      exact .refuse (Or.inr ⟨⟨q, hq, hempty⟩, hp⟩)
    · rw [if_neg hp]
      rw [Bool.not_eq_true] at hp
      exact .block hq hempty hw hp (hI.block _ (blockTick_of_deadline hI.delay hw hp))
  · rw [if_neg hempty]
    obtain ⟨acts, he⟩ := wakeHead_effect hI.inv (.queueWrite h)
    exact .get (.get hq hempty he)

/-- A valid queue passes `rtos_queue_assert_valid`. -/
theorem rtosQueueAssertValid_eq {q : Queue} (hv : q.Valid) :
    rtosQueueAssertValid k q = k := by
  unfold rtosQueueAssertValid
  rw [artosAssert_of _ hv]

theorem queueWakeTick_lt (k : Sched) {n : ℕ} : queueWakeTick k n < 4294967296 := by
  unfold queueWakeTick u32 artosDelayInfinity
  split <;> omega

theorem artosQueueEnqueue_section (hI : InTask cfg k.sched t) {h : ℕ}
    (hv : ∀ q, k.queue h = some q → q.Valid) (data : Option (List UInt8)) (n : ℕ) :
    EnqueueSection cfg k h t (data.getD []) (queueWakeTick k.sched n)
      (n = artosDelayInfinity) (k.queue h = none ∨ data = none)
      (artosQueueEnqueue cfg k h data n) := by
  unfold artosQueueEnqueue
  rcases hq : k.queue h with _ | q
  · exact .refuse (Or.inl (Or.inl rfl))
  · cases data with
    | none => exact .refuse (Or.inl (Or.inr rfl))
    | some data =>
        simp only [rtosQueueAssertValid_eq (hv q hq)]
        exact enqueueAttempt_section hI hq data (queueWakeTick_lt k.sched) _ _

theorem artosQueueDequeue_section (hI : InTask cfg k.sched t) {h : ℕ}
    (hv : ∀ q, k.queue h = some q → q.Valid) (dst : Bool) (n : ℕ) :
    DequeueSection cfg k h t (queueWakeTick k.sched n) (n = artosDelayInfinity)
      (k.queue h = none ∨ dst = false) (artosQueueDequeue cfg k h dst n) := by
  unfold artosQueueDequeue
  rcases hq : k.queue h with _ | q
  · exact .refuse (Or.inl (Or.inl rfl))
  · cases dst with
    | false => exact .refuse (Or.inl (Or.inr rfl))
    | true =>
        simp only [rtosQueueAssertValid_eq (hv q hq)]
        exact dequeueAttempt_section hI hq (queueWakeTick_lt k.sched) _ _

/-- An interrupt form of a queue operation: it fails and changes nothing, or it has
the effect `E`. -/
inductive IsrSection (k : Kernel) (E : Kernel → List Action → List Obs → Bool → Prop)
    (fail : Obs → Prop) (flagged woken : Bool) : IsrOutcome → Prop
  | refuse {ob : Obs} (hob : fail ob) : IsrSection k E fail flagged woken ⟨k, woken, [ob]⟩
  | done {k' : Kernel} {acts : List Action} {obs : List Obs} {g : Bool}
      (he : E k' acts obs g) :
      IsrSection k E fail flagged woken ⟨k', woken || (flagged && g), obs⟩

theorem artosQueueEnqueueFromIsr_section (hI : Ready cfg k.sched) {h : ℕ}
    (hv : ∀ q, k.queue h = some q → q.Valid) (data : Option (List UInt8))
    (flagged woken : Bool) :
    IsrSection k (PutEffect cfg k h) (fun ob => ∃ item, ob = .enqueued h item false)
      flagged woken (artosQueueEnqueueFromIsr cfg k h data flagged woken) := by
  unfold artosQueueEnqueueFromIsr
  split
  · rename_i q data hq
    simp only [rtosQueueAssertValid_eq (hv q hq)]
    by_cases hfull : q.count = q.capacity
    · rw [if_pos hfull]
      exact .refuse ⟨_, rfl⟩
    · rw [if_neg hfull]
      obtain ⟨acts, he⟩ := wakeHead_effect hI.inv (.queueRead h)
      exact .done (.put hq hfull he)
  · exact .refuse ⟨_, rfl⟩

theorem artosQueueDequeueFromIsr_section (hI : Ready cfg k.sched) {h : ℕ}
    (hv : ∀ q, k.queue h = some q → q.Valid) (dst flagged woken : Bool) :
    IsrSection k (GetEffect cfg k h) (fun ob => ob = .dequeued h none) flagged woken
      (artosQueueDequeueFromIsr cfg k h dst flagged woken) := by
  unfold artosQueueDequeueFromIsr
  split
  · rename_i q hq
    simp only [rtosQueueAssertValid_eq (hv q hq)]
    by_cases hempty : q.count = 0
    · rw [if_pos hempty]
      exact .refuse rfl
    · rw [if_neg hempty]
      obtain ⟨acts, he⟩ := wakeHead_effect hI.inv (.queueWrite h)
      exact .done (.get hq hempty he)
  · exact .refuse rfl

/-! ## Mutexes -/

/-- Raising a task to a donor's priority. -/
inductive BoostEffect (k : Sched) (o : Tid) (p : ℕ) : Sched → List Action → Prop
  | keep (hle : p ≤ k.eff o) : BoostEffect k o p k []
  | raise (hlt : k.eff o < p) : BoostEffect k o p (k.withEff o p) [.setEff o p]

theorem rtosPriorityInherit_effect {k : Sched} (h : SInv cfg k) {o : Tid} {p : ℕ}
    (hbase : (k.tcb o).priority ≤ p) (hp : p < cfg.priorityCount) :
    ∃ acts, BoostEffect k o p (k.rtosPriorityInherit cfg (some o) p) acts := by
  unfold rtosPriorityInherit
  simp only
  by_cases hle : k.eff o ≥ p
  · rw [if_pos hle]
    exact ⟨_, .keep hle⟩
  · rw [if_neg hle, rtosSetEffectivePriority_eq h hbase hp, if_neg (by omega)]
    exact ⟨_, .raise (by omega)⟩

theorem BoostEffect.moves {k k' : Sched} {o : Tid} {p : ℕ} {acts : List Action}
    (he : BoostEffect k o p k' acts) (hbase : (k.tcb o).priority ≤ p)
    (hp : p < cfg.priorityCount) : Moves cfg k acts k' := by
  cases he with
  | keep hle => exact Runs.Exec.nil
  | raise hlt => exact Runs.Exec.single (.setEff hbase hp (by omega))

/-- The required priority of an owner is the larger of its own base priority and the
effective priority of the first waiter. -/
theorem rtosMutexRequiredPriority_cons {k : Sched} {o w : Tid} {l : EventList}
    {rest : List Tid} (hl : k.eventL.elems l = w :: rest) :
    rtosMutexRequiredPriority k (some o) l = max (k.eff w) (k.tcb o).priority := by
  unfold rtosMutexRequiredPriority
  simp only [hl]
  split <;> omega

theorem rtosMutexRequiredPriority_nil {k : Sched} {o : Tid} {l : EventList}
    (hl : k.eventL.elems l = []) :
    rtosMutexRequiredPriority k (some o) l = (k.tcb o).priority := by
  simp [rtosMutexRequiredPriority, hl]

/-- **The required priority covers every waiter**, because the first waiter is one of
the highest priority. -/
theorem Sched.SInv.rtosMutexRequiredPriority_spec {k : Sched} (h : SInv cfg k) (o : Tid)
    (l : EventList) :
    (k.tcb o).priority ≤ rtosMutexRequiredPriority k (some o) l ∧
      rtosMutexRequiredPriority k (some o) l < cfg.priorityCount ∧
      ∀ u, k.eventL.container u = some l →
        k.eff u ≤ rtosMutexRequiredPriority k (some o) l := by
  have hbase := lt_of_le_of_lt (h.prio_le o) (h.eff_lt o)
  rcases hl : k.eventL.elems l with _ | ⟨w, rest⟩
  · rw [rtosMutexRequiredPriority_nil hl]
    refine ⟨le_rfl, hbase, fun u hu => ?_⟩
    rw [← k.eventL.mem_elems, hl] at hu
    simp at hu
  · rw [rtosMutexRequiredPriority_cons hl]
    have hlt := h.eff_lt w
    refine ⟨le_max_right _ _, by omega, fun u hu => ?_⟩
    have hle := h.eff_le_head hl hu
    omega

/-- A count below the limit is incremented. -/
theorem rtosIncrementMutexCount_eq {k : Sched} (hheld : (k.tcb t).mutexesHeld ≠ 0xFF) :
    k.rtosIncrementMutexCount t = k.withHeld t ((k.tcb t).mutexesHeld + 1) := by
  unfold rtosIncrementMutexCount
  rw [if_pos hheld]
  rfl

/-- The first critical section of `artos_mutex_lock` by the task `t`. -/
inductive LockSection (cfg : Config) (k : Kernel) (h : ℕ) (t : Tid) : Outcome → Prop
  | refuse : LockSection cfg k h t ⟨k, .user, [.locked h (some t) false]⟩
  | acquire {m : Mutex} (hm : k.mutex h = some m) (hown : m.owner = none)
      (hheld : (k.sched.tcb t).mutexesHeld ≠ 0xFF) :
      LockSection cfg k h t
        ⟨{ k.setMutex h { m with owner := some t } with
            sched := k.sched.withHeld t ((k.sched.tcb t).mutexesHeld + 1) },
          .user, [.locked h (some t) true]⟩
  | block {m : Mutex} {o : Tid} {w : ℕ} {inf : Bool} {k₁ k₂ : Sched} {acts : List Action}
      (hm : k.mutex h = some m) (hown : m.owner = some o) (hne : t ≠ o)
      (hheld : (k.sched.tcb t).mutexesHeld ≠ 0xFF)
      (hb : Moves cfg k.sched [.block t w (some (.mutexLock h)) inf] k₁)
      (hi : BoostEffect k₁ o (rtosMutexRequiredPriority k₁ (some o) (.mutexLock h)) k₂ acts) :
      LockSection cfg k h t
        ⟨{ k with sched := k₂ }, .request (some (.mutex h)),
          [.blocked (some t) (.mutexLock h)]⟩

theorem artosMutexLock_section (hI : InTask cfg k.sched t) (h : ℕ) {n : ℕ}
    (hlt : n < 4294967296) : LockSection cfg k h t (artosMutexLock cfg k h n) := by
  unfold artosMutexLock
  rw [hI.can.cur]
  rcases hm : k.mutex h with _ | m
  · exact .refuse
  simp only
  by_cases hheld : (k.sched.tcb t).mutexesHeld = 0xFF
  · rw [if_pos hheld]
    exact .refuse
  rw [if_neg hheld]
  rcases hown : m.owner with _ | o
  · have hinc := rtosIncrementMutexCount_eq hheld
    simp only [Kernel.setMutex, hinc]
    exact .acquire hm hown hheld
  · simp only
    by_cases hno : t = o ∨ (k.sched.tcb t).mutexesHeld = 0xFF ∨ n = 0
    · rw [if_pos hno]
      exact .refuse
    · rw [if_neg hno]
      push Not at hno
      obtain ⟨w, inf, hb⟩ := hI.blockFor (.mutexLock h) hno.2.2 hlt
      have hs := (hI.inv.moves hI.delay hb).1
      obtain ⟨hbase, hp, -⟩ := hs.rtosMutexRequiredPriority_spec o (.mutexLock h)
      obtain ⟨acts, hi⟩ := rtosPriorityInherit_effect hs hbase hp
      exact .block hm hown hno.1 hheld hb hi

/-- Giving up one mutex, and the inherited priority with the last one. -/
inductive RelinquishEffect (k : Sched) (t : Tid) : Sched → List Action → Bool → Prop
  | keep (hkeep : (k.tcb t).mutexesHeld ≠ 1 ∨ k.eff t = (k.tcb t).priority) :
      RelinquishEffect k t (k.withHeld t ((k.tcb t).mutexesHeld - 1))
        [.held t ((k.tcb t).mutexesHeld - 1)] false
  | drop (hlast : (k.tcb t).mutexesHeld = 1) (hne : k.eff t ≠ (k.tcb t).priority) :
      RelinquishEffect k t
        ((k.withHeld t ((k.tcb t).mutexesHeld - 1)).withEff t (k.tcb t).priority)
        [.held t ((k.tcb t).mutexesHeld - 1), .setEff t (k.tcb t).priority] true

theorem rtosPriorityRelinquishAfterUnlock_effect {k : Sched} (h : SInv cfg k)
    (hheld : 0 < (k.tcb t).mutexesHeld) :
    ∃ acts, RelinquishEffect k t
      ((k.rtosDecrementMutexCount t).rtosPriorityRelinquishAfterUnlock cfg t).1 acts
      ((k.rtosDecrementMutexCount t).rtosPriorityRelinquishAfterUnlock cfg t).2 := by
  have hdec : k.rtosDecrementMutexCount t =
      k.withHeld t ((k.tcb t).mutexesHeld - 1) := by
    unfold rtosDecrementMutexCount
    rw [if_pos (by omega)]
    rfl
  have hs : SInv cfg (k.withHeld t ((k.tcb t).mutexesHeld - 1)) := h.move .held
  have htcb : (k.withHeld t ((k.tcb t).mutexesHeld - 1)).tcb t =
      { k.tcb t with mutexesHeld := (k.tcb t).mutexesHeld - 1 } := by
    simp [withHeld_tcb]
  rw [hdec]
  unfold rtosPriorityRelinquishAfterUnlock
  rw [htcb]
  by_cases hlast : (k.tcb t).mutexesHeld - 1 ≠ 0
  · rw [if_pos hlast]
    exact ⟨_, .keep (Or.inl (by omega))⟩
  · have hone : (k.tcb t).mutexesHeld = 1 := by omega
    have hbase : k.eff t < cfg.priorityCount := h.eff_lt t
    have hle := h.prio_le t
    rw [if_neg hlast, rtosSetEffectivePriority_eq hs (by rw [htcb]) (lt_of_le_of_lt hle hbase)]
    unfold eff
    rw [htcb]
    by_cases heq : (k.tcb t).effectivePriority = (k.tcb t).priority
    · rw [if_pos heq]
      exact ⟨_, .keep (Or.inr heq)⟩
    · rw [if_neg heq]
      exact ⟨_, .drop hone heq⟩

theorem RelinquishEffect.moves {k k' : Sched} {acts : List Action} {b : Bool}
    (he : RelinquishEffect k t k' acts b) (h : SInv cfg k) : Moves cfg k acts k' := by
  cases he with
  | keep hkeep => exact Runs.Exec.single .held
  | drop hlast hne =>
      have hbase : k.eff t < cfg.priorityCount := h.eff_lt t
      have hle := h.prio_le t
      refine Runs.Exec.snoc (Runs.Exec.single .held) (.setEff ?_ (by omega) ?_)
      · simp [withHeld_tcb]
      · simpa [withHeld_tcb, eff] using hne

/-- Giving up a mutex moves no item of a wait list: the caller waits in none. -/
theorem RelinquishEffect.eventL {k k' : Sched} {acts : List Action} {b : Bool}
    (he : RelinquishEffect k t k' acts b) (ht : k.eventL.container t = none) :
    k'.eventL = k.eventL := by
  cases he with
  | keep hkeep => rfl
  | drop hlast hne => exact withEff_eventL_of_none ht

/-- `artos_mutex_unlock` by the task `t`. -/
inductive UnlockSection (cfg : Config) (k : Kernel) (h : ℕ) (t : Tid) : Outcome → Prop
  | refuse (hno : ∀ m, k.mutex h = some m → m.owner ≠ some t) :
      UnlockSection cfg k h t ⟨k, .user, [.unlocked h (some t) false]⟩
  | release {m : Mutex} {k₁ : Sched} {acts : List Action} {changed : Bool}
      (hm : k.mutex h = some m) (hown : m.owner = some t)
      (hr : RelinquishEffect k.sched t k₁ acts changed)
      (hl : k.sched.eventL.elems (.mutexLock h) = []) :
      UnlockSection cfg k h t
        ⟨{ k.setMutex h { m with owner := none } with sched := k₁ },
          if changed then .request none else .user, [.unlocked h (some t) true]⟩
  | hand {m : Mutex} {k₁ : Sched} {acts : List Action} {changed : Bool} {w : Tid}
      {rest : List Tid} (hm : k.mutex h = some m) (hown : m.owner = some t)
      (hr : RelinquishEffect k.sched t k₁ acts changed)
      (hl : k.sched.eventL.elems (.mutexLock h) = w :: rest) :
      UnlockSection cfg k h t
        ⟨{ k.setMutex h { m with owner := some w } with
            sched := (k₁.unblocked w .signaled).withHeld w ((k₁.tcb w).mutexesHeld + 1) },
          if k₁.eff w > k₁.eff t then .request none else .user,
          [.handed (.mutexLock h) w, .unlocked h (some t) true]⟩

/-- Where a list of waiters is left, its first task's priority does not exceed the
priority of the task that was in front of it, so the new owner inherits nothing. -/
theorem inherit_after_hand {k : Sched} (h : SInv cfg k) {l : EventList} {w : Tid}
    {rest : List Tid} (hl : k.eventL.elems l = w :: rest) (n : ℕ) :
    rtosPriorityInherit cfg ((k.unblocked w .signaled).withHeld w n) (some w)
      (rtosMutexRequiredPriority ((k.unblocked w .signaled).withHeld w n) (some w) l) =
      (k.unblocked w .signaled).withHeld w n := by
  set k' := (k.unblocked w .signaled).withHeld w n with hk'
  have htcb : ∀ u, (k'.tcb u).effectivePriority = (k.tcb u).effectivePriority ∧
      (k'.tcb u).priority = (k.tcb u).priority := by
    intro u
    by_cases huw : u = w
    · subst huw
      simp [hk', withHeld_tcb, unblocked_tcb]
    · simp [hk', withHeld_tcb, unblocked_tcb, huw]
  have hrest : k'.eventL.elems l = rest := ListStore.remove_elems_of_head hl
  have hle : rtosMutexRequiredPriority k' (some w) l ≤ k'.eff w := by
    have hbase := h.prio_le w
    rcases hr : rest with _ | ⟨v, rest'⟩
    · rw [rtosMutexRequiredPriority_nil (hrest.trans hr), (htcb w).2]
      unfold eff at hbase ⊢
      rw [(htcb w).1]
      exact hbase
    · have heq := rtosMutexRequiredPriority_cons (o := w) (hrest.trans hr)
      have hv : k.eventL.container v = some l :=
        ListStore.container_of_mem (by rw [hl, hr]; simp)
      have hvw := h.eff_le_head hl hv
      unfold eff at heq hbase hvw ⊢
      rw [(htcb v).1, (htcb w).2] at heq
      rw [heq, (htcb w).1]
      omega
  unfold rtosPriorityInherit
  simp only
  rw [if_pos hle]

theorem artosMutexUnlock_section (hI : InTask cfg k.sched t) (h : ℕ)
    (hheld : ∀ m, k.mutex h = some m → m.owner = some t →
      0 < (k.sched.tcb t).mutexesHeld)
    (hroom : ∀ u, k.sched.eventL.container u = some (.mutexLock h) →
      (k.sched.tcb u).mutexesHeld ≠ 0xFF) :
    UnlockSection cfg k h t (artosMutexUnlock cfg k h) := by
  unfold artosMutexUnlock
  rw [hI.can.cur]
  rcases hm : k.mutex h with _ | m
  · exact .refuse (by simp [hm])
  simp only
  by_cases hown : m.owner ≠ some t
  · rw [if_pos hown]
    refine .refuse fun m' hm' => ?_
    rw [hm, Option.some.injEq] at hm'
    rwa [← hm']
  rw [if_neg hown]
  rw [not_not] at hown
  have hpos := hheld m hm hown
  rw [artosAssert_of _ hpos]
  obtain ⟨acts, hr⟩ := rtosPriorityRelinquishAfterUnlock_effect hI.inv hpos
  have hmoves := hr.moves hI.inv
  revert hr hmoves
  generalize (k.sched.rtosDecrementMutexCount t).rtosPriorityRelinquishAfterUnlock cfg t = r
  obtain ⟨k₁, changed⟩ := r
  intro hr hmoves
  have hev := hr.eventL hI.can.event
  have hs₁ := (hI.inv.moves hI.delay hmoves).1
  simp only
  rcases hl : k.sched.eventL.elems (.mutexLock h) with _ | ⟨w, rest⟩
  · have hl₁ : k₁.eventL.elems (.mutexLock h) = [] := by rw [hev, hl]
    simp only [hl₁]
    exact .release hm hown hr hl
  · have hl₁ : k₁.eventL.elems (.mutexLock h) = w :: rest := by rw [hev, hl]
    have hc := ListStore.container_of_head hl₁
    have hlink : k₁.itemLinked (.event w) = true := by simp [itemLinked, hc]
    have hwt : w ≠ t := hI.can.ne_waiting (hev ▸ hc)
    -- the new owner's count does not saturate
    have hw : (k₁.tcb w).mutexesHeld ≠ 0xFF := by
      have hsame : (k₁.tcb w).mutexesHeld = (k.sched.tcb w).mutexesHeld := by
        cases hr with
        | keep hkeep => simp [hwt]
        | drop hlast hne => simp [withHeld_tcb, hwt]
      rw [hsame]
      exact hroom w (by rw [← hev]; exact hc)
    have hinc : (k₁.unblocked w .signaled).rtosIncrementMutexCount w =
        (k₁.unblocked w .signaled).withHeld w ((k₁.tcb w).mutexesHeld + 1) := by
      rw [rtosIncrementMutexCount_eq (by rwa [unblocked_mutexesHeld]), unblocked_mutexesHeld]
    have heff : ((k₁.unblocked w .signaled).withHeld w
        ((k₁.tcb w).mutexesHeld + 1)).eff w = k₁.eff w := by
      simp [withHeld_tcb, unblocked_tcb, eff]
    simp only [hl₁]
    rw [rtosUnblockTask_eq hs₁ (hs₁.head_blocked hl₁) rfl hlink, hinc,
      inherit_after_hand hs₁ hl₁, ite_self, heff]
    simp only [Kernel.setMutex, decide_eq_true_eq]
    exact .hand hm hown hr hl

/-- The end of a lock that timed out may lower the owner again. -/
inductive DisinheritEffect (k : Sched) (owner : Option Tid) (required : ℕ) :
    Sched → List Action → Prop
  | keep (hkeep : ∀ o, owner = some o → (k.tcb o).mutexesHeld = 1 →
      k.eff o ≤ max required (k.tcb o).priority) : DisinheritEffect k owner required k []
  | drop {o : Tid} (ho : owner = some o) (hheld : (k.tcb o).mutexesHeld = 1)
      (hlt : max required (k.tcb o).priority < k.eff o) :
      DisinheritEffect k owner required (k.withEff o (max required (k.tcb o).priority))
        [.setEff o (max required (k.tcb o).priority)]

theorem rtosPriorityDisinheritAfterTimeout_effect {k : Sched} (h : SInv cfg k)
    (owner : Option Tid) (required : ℕ) :
    ∃ acts, DisinheritEffect k owner required
      (k.rtosPriorityDisinheritAfterTimeout cfg owner required).1 acts := by
  unfold rtosPriorityDisinheritAfterTimeout
  rcases owner with _ | o
  · exact ⟨_, .keep (by simp)⟩
  simp only
  by_cases hheld : (k.tcb o).mutexesHeld ≠ 1
  · rw [if_pos hheld]
    refine ⟨_, .keep fun o' ho' hone => ?_⟩
    obtain rfl := Option.some.inj ho'
    exact absurd hone hheld
  rw [if_neg hheld]
  have hmax : (if required > (k.tcb o).priority then required else (k.tcb o).priority) =
      max required (k.tcb o).priority := by
    split <;> omega
  rw [hmax]
  have hlt := h.eff_lt o
  by_cases hnew : max required (k.tcb o).priority < k.eff o
  · rw [if_pos hnew, rtosSetEffectivePriority_eq h (le_max_right _ _) (by omega),
      if_neg (by omega)]
    exact ⟨_, .drop rfl (by omega) hnew⟩
  · rw [if_neg hnew]
    refine ⟨_, .keep fun o' ho' _ => ?_⟩
    obtain rfl := Option.some.inj ho'
    exact Nat.le_of_not_lt hnew

theorem DisinheritEffect.moves {k k' : Sched} {owner : Option Tid} {required : ℕ}
    {acts : List Action} (he : DisinheritEffect k owner required k' acts)
    (h : SInv cfg k) : Moves cfg k acts k' := by
  cases he with
  | keep => exact Runs.Exec.nil
  | @drop o ho hheld hlt =>
      have hcount := h.eff_lt o
      exact Runs.Exec.single (.setEff (le_max_right _ _) (by omega) (by omega))

/-- The last critical section of `artos_mutex_lock` by the task `t`. -/
inductive LockResumeSection (k : Kernel) (h : ℕ) (t : Tid) : Outcome → Prop
  | granted (hres : (k.sched.tcb t).waitReason = .signaled) :
      LockResumeSection k h t
        ⟨{ k with sched := k.sched.rtosClearCurrentWaitReason }, .user,
          [.locked h (some t) true]⟩
  | timedOut {m : Mutex} {k₁ : Sched} {acts : List Action} (hm : k.mutex h = some m)
      (hres : (k.sched.tcb t).waitReason ≠ .signaled)
      (hd : DisinheritEffect k.sched.rtosClearCurrentWaitReason m.owner
        (rtosMutexRequiredPriority k.sched.rtosClearCurrentWaitReason m.owner
          (.mutexLock h)) k₁ acts) :
      LockResumeSection k h t
        ⟨{ k with sched := k₁ }, .user, [.locked h (some t) false]⟩

theorem artosMutexLockResume_section (hI : InTask cfg k.sched t) {h : ℕ} {m : Mutex}
    (hm : k.mutex h = some m) : LockResumeSection k h t (artosMutexLockResume cfg k h) := by
  have hs := (hI.inv.moves hI.delay hI.clear).1
  have hreason : k.sched.rtosCurrentWaitReason = (k.sched.tcb t).waitReason := by
    unfold rtosCurrentWaitReason
    rw [hI.can.cur]
  unfold artosMutexLockResume
  simp only [hm, hreason]
  rw [hI.can.cur]
  by_cases hres : (k.sched.tcb t).waitReason = .signaled
  · simp only [hres, decide_true, if_true]
    exact .granted hres
  · simp only [hres, decide_false, Bool.false_eq_true, if_false]
    obtain ⟨acts, hd⟩ := rtosPriorityDisinheritAfterTimeout_effect hs m.owner
      (rtosMutexRequiredPriority k.sched.rtosClearCurrentWaitReason m.owner (.mutexLock h))
    exact .timedOut hm hres hd

end Artos
