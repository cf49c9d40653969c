/-
# Task and interrupt forms agree

Four operations exist twice in the source, for tasks and for interrupt handlers.  With
timeout 0 the task form never blocks, and both forms take the kernel to the same state
with the same result: `Agree` for the forms that may wake a task, `AgreeTake` for the
take, whose observation names the taker.
-/
import Artos.Preserve

open Function

namespace Artos

open Sched

variable {cfg : Config} {s : Sys} {k : Kernel} {h : ℕ}

/-- A deadline of timeout 0 has passed at once. -/
theorem deadlinePassed_zero {k : Sched} (hd : DelayInv k) :
    deadlinePassed k (queueWakeTick k 0) false = true := by
  have hticks := hd.ticks_lt
  have hwake : queueWakeTick k 0 = k.ticks := by
    show u32 (0 + k.ticks) = k.ticks
    unfold u32
    omega
  have hdelta : u32 4294967296 = 0 := rfl
  unfold deadlinePassed
  simp [hwake, hdelta]

/-- **A task form and an interrupt form agree**: the same kernel and the same
observations; the task form returns without blocking, and the flag of the interrupt form
is raised exactly when the task form requests a switch. -/
structure Agree (o : Outcome) (flagged woken : Bool) (i : IsrOutcome) : Prop where
  kernel : i.kernel = o.kernel
  obs : i.obs = o.obs
  returns : o.pc = .user ∨ o.pc = .request none
  flag : i.gtTaskWoken = true ↔ woken = true ∨ flagged = true ∧ o.pc = .request none

/-- Two forms that wake the head of the same list and end alike. -/
theorem agree_wake {k' : Kernel} {obs : List Obs} (g flagged woken : Bool) :
    Agree ⟨k', afterWake g, obs⟩ flagged woken ⟨k', woken || (flagged && g), obs⟩ := by
  refine ⟨rfl, rfl, afterWake_cases g, ?_⟩
  cases g <;> simp [afterWake]

/-- Two forms that change nothing but perhaps a count. -/
theorem agree_quiet {k' : Kernel} {obs : List Obs} (flagged woken : Bool) :
    Agree ⟨k', .user, obs⟩ flagged woken ⟨k', woken, obs⟩ :=
  ⟨rfl, rfl, Or.inl rfl, by simp⟩

theorem artosQueueEnqueue_agree (hd : DelayInv k.sched)
    (hv : ∀ q, k.queue h = some q → q.Valid) (data : Option (List UInt8))
    (flagged woken : Bool) :
    Agree (artosQueueEnqueue cfg k h data 0) flagged woken
      (artosQueueEnqueueFromIsr cfg k h data flagged woken) := by
  unfold artosQueueEnqueue artosQueueEnqueueFromIsr
  split
  · rename_i q data hq
    simp only [rtosQueueAssertValid_eq (hv q hq)]
    have hinf : decide (0 = artosDelayInfinity) = false := rfl
    unfold enqueueAttempt
    rw [hinf, if_pos (deadlinePassed_zero hd)]
    by_cases hfull : q.count = q.capacity
    · rw [if_pos hfull, if_pos hfull]
      exact agree_quiet flagged woken
    · rw [if_neg hfull, if_neg hfull]
      exact agree_wake _ flagged woken
  · exact agree_quiet flagged woken

theorem artosQueueDequeue_agree (hd : DelayInv k.sched)
    (hv : ∀ q, k.queue h = some q → q.Valid) (dst flagged woken : Bool) :
    Agree (artosQueueDequeue cfg k h dst 0) flagged woken
      (artosQueueDequeueFromIsr cfg k h dst flagged woken) := by
  unfold artosQueueDequeue artosQueueDequeueFromIsr
  split
  · rename_i q hq
    simp only [rtosQueueAssertValid_eq (hv q hq)]
    have hinf : decide (0 = artosDelayInfinity) = false := rfl
    unfold dequeueAttempt
    rw [hinf, if_pos (deadlinePassed_zero hd)]
    by_cases hempty : q.count = 0
    · rw [if_pos hempty, if_pos hempty]
      exact agree_quiet flagged woken
    · rw [if_neg hempty, if_neg hempty]
      exact agree_wake _ flagged woken
  · exact agree_quiet flagged woken

theorem artosSemaphoreSignal_agree (flagged woken : Bool) :
    Agree (artosSemaphoreSignal cfg k h) flagged woken
      (artosSemaphoreSignalIsr cfg k h flagged woken) := by
  unfold artosSemaphoreSignal artosSemaphoreSignalIsr
  rcases hsem : k.sem h with _ | sem
  · exact agree_quiet flagged woken
  · simp only
    split
    · split
      · exact agree_quiet flagged woken
      · exact agree_quiet flagged woken
    · split
      · exact agree_quiet flagged woken
      · exact agree_wake _ flagged woken

/-- **The two forms of a take agree**: the same kernel and the same result, and no
switch in either. -/
structure AgreeTake (h : ℕ) (o : Outcome) (woken : Bool) (i : IsrOutcome) : Prop where
  kernel : i.kernel = o.kernel
  result : ∃ t res, o.obs = [.taken h t res] ∧ i.obs = [.taken h none res]
  returns : o.pc = .user
  flag : i.gtTaskWoken = woken

theorem artosSemaphoreTake_agree (woken : Bool) :
    AgreeTake h (artosSemaphoreTake k h 0) woken (artosSemaphoreTakeIsr k h woken) := by
  unfold artosSemaphoreTake artosSemaphoreTakeIsr
  rcases hsem : k.sem h with _ | sem
  · exact ⟨rfl, ⟨_, _, rfl, rfl⟩, rfl, rfl⟩
  · simp only
    split
    · exact ⟨rfl, ⟨_, _, rfl, rfl⟩, rfl, rfl⟩
    · rw [if_pos trivial]
      exact ⟨rfl, ⟨_, _, rfl, rfl⟩, rfl, rfl⟩

/-- **Task and interrupt forms agree.**  In every reachable state and for all arguments,
the queue operations and the take with timeout 0 and the signal have the same effect on
the whole kernel, and the same result, as their interrupt forms; and a wake flag that was
false is true afterwards exactly when the task form requests a context switch. -/
theorem isr_forms_agree (hs : Reachable cfg s) (h : ℕ) (data : Option (List UInt8))
    (dst flagged woken : Bool) :
    Agree (artosQueueEnqueue cfg s.kernel h data 0) flagged woken
        (artosQueueEnqueueFromIsr cfg s.kernel h data flagged woken) ∧
      Agree (artosQueueDequeue cfg s.kernel h dst 0) flagged woken
        (artosQueueDequeueFromIsr cfg s.kernel h dst flagged woken) ∧
      Agree (artosSemaphoreSignal cfg s.kernel h) flagged woken
        (artosSemaphoreSignalIsr cfg s.kernel h flagged woken) ∧
      AgreeTake h (artosSemaphoreTake s.kernel h 0) woken
        (artosSemaphoreTakeIsr s.kernel h woken) := by
  have hI := hs.inv
  have hv : ∀ q, s.kernel.queue h = some q → q.Valid := fun q hq => (hI.queues h q hq).valid
  exact ⟨artosQueueEnqueue_agree hI.ready.delay hv data flagged woken,
    artosQueueDequeue_agree hI.ready.delay hv dst flagged woken,
    artosSemaphoreSignal_agree flagged woken, artosSemaphoreTake_agree woken⟩

/-- A reader of higher priority waits when the queue of a low task is fed. -/
def waitingReader : List Label × Sys :=
  (Runs.runSteps (step smallConfig) smallBoot
    [createTask 1 0, createTask 2 1, .start, .call (.queueDequeue 0 true 5), .resume,
      switchFrom 2]).get (by decide +kernel)

theorem isr_forms_agree_waitingReader :
    (artosQueueEnqueueFromIsr smallConfig waitingReader.2.kernel 0 (some [7]) true
      false).gtTaskWoken = true := by
  have hreach : Reachable smallConfig waitingReader.2 :=
    Reachable.of_runSteps smallBoot_initial (Option.some_get _).symm
  obtain ⟨hput, -⟩ := isr_forms_agree hreach 0 (some [7]) true true false
  refine hput.flag.mpr (Or.inr ⟨rfl, ?_⟩)
  refine hput.returns.resolve_left fun huser => ?_
  have hpc : (artosQueueEnqueue smallConfig waitingReader.2.kernel 0 (some [7]) 0).pc =
      .request none := rfl
  rw [huser] at hpc
  cases hpc

end Artos
