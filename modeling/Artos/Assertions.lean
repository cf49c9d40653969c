/-
# No assertion fails

`ARTOS_ASSERT` stands in `list.c`, `tasks.c`, `mutex.c` and `queue.c`.  In the model a
false assertion is recorded (`Sched.failure`); those of `list.c` are recorded by one check
in front of each list operation, which is exact for the lists in memory
(`ListOp.check_exact`).

Every step is a sequence of moves, and the closed forms of the moves hold because the
assertions on the way to them do.  So a step records no failure, except a switch whose
stack check fails.  After a switch whose stack check passes, the task that is selected has
a stack pointer.
-/
import Artos.ListMemory
import Artos.RoundRobin

open Function

namespace Artos

open Sched

variable {cfg : Config} {k k' : Sched} {a : Action} {acts : List Action} {t : Tid}
  {s s' : Sys} {e : Event} {obs : List Obs}

/-! ## Recorded failures -/

/-- Only a move that fails an assertion records one. -/
theorem Move.no_assert (hm : Move cfg k a k') (ha : a ≠ .fail .assert)
    (hf : k.failure ≠ some .assert) : k'.failure ≠ some .assert := by
  cases hm with
  | requeue hcur =>
      unfold requeued
      split <;> exact hf
  | @fail f =>
      have hne : f ≠ .assert := fun he => ha (he ▸ rfl)
      rcases hk : k.failure with _ | g
      · simpa [recordFailure, hk] using hne
      · simpa [recordFailure, hk] using hf
  | advance hset => simpa using hf
  | _ => exact hf

/-- Moves that fail no assertion record none. -/
theorem Moves.no_assert (hm : Moves cfg k acts k') (ha : .fail .assert ∉ acts)
    (hf : k.failure ≠ some .assert) : k'.failure ≠ some .assert := by
  induction hm with
  | nil => exact hf
  | snoc hm hmove ih =>
      rw [List.mem_append, List.mem_singleton, not_or] at ha
      exact hmove.no_assert (Ne.symm ha.2) (ih ha.1)

/-- **No step fails an assertion.** -/
theorem StepKind.no_assert (hs : StepKind cfg s e obs s')
    (hf : s.sched.failure ≠ some .assert) : s'.sched.failure ≠ some .assert := by
  cases hs with
  | create hcur hm hacts =>
      refine Moves.no_assert hm ?_ hf
      rcases hacts with rfl | ⟨q, rfl⟩ <;> simp
  | start hcur hm hacts hnext =>
      refine Moves.no_assert hm ?_ hf
      rcases hacts with rfl | ⟨t, rfl⟩ <;> simp
  | task hrun hI hsrc hstep =>
      obtain ⟨acts, hsec, -⟩ := hstep.sec
      exact Moves.no_assert hsec.moves (fun ha => hsec.acts_ok _ ha) hf
  | tick hm hset => exact Moves.no_assert hm (by simp) hf
  | switch hcur hpending hm hacts =>
      -- the stack check is the only failure of a switch
      refine Moves.no_assert hm ?_ hf
      rcases hacts with ⟨rfl, -⟩ | ⟨t, rfl, -⟩ <;> simp
  | isrCall hh hstep =>
      obtain ⟨acts, hsec, -⟩ := hstep
      exact Moves.no_assert (hsec .idle).moves (fun ha => (hsec .idle).acts_ok _ ha) hf
  | _ => exact hf

/-! ## The selected context -/

/-- A move leaves the idle task with a stack pointer. -/
theorem Move.idle_stack (hm : Move cfg k a k') (hk : (k.tcb .idle).stackPointer ≠ 0) :
    (k'.tcb .idle).stackPointer ≠ 0 := by
  have hset : ∀ (u : Tid) (f : Tcb → Tcb), (f (k.tcb u)).stackPointer = (k.tcb u).stackPointer →
      ((k.setTcb u f).tcb .idle).stackPointer ≠ 0 := by
    intro u f hfu
    by_cases hu : u = .idle
    · subst hu
      simpa [setTcb, hfu]
    · simpa [setTcb, Ne.symm hu]
  cases hm with
  | create hentry hprio hwords hlt =>
      rw [withTask_tcb_of_ne _ _ _ _ _ (by simp)]
      exact hk
  | @save cur sp hcur hsp =>
      by_cases hc : cur = .idle
      · subst hc
        simpa [saved, setTcb]
      · simpa [saved, setTcb, Ne.symm hc]
  | requeue hcur =>
      unfold requeued
      split <;> exact hk
  | @wake l u rest hl => exact hset u (fun c => { c with waitReason := .signaled }) rfl
  | @expire u rest hl hdue => exact hset u (fun c => { c with waitReason := .timedOut }) rfl
  | advance hset =>
      rw [advanced_tcb]
      exact hk
  | @setEff u p hbase hp hne => exact hset u (fun c => { c with effectivePriority := p }) rfl
  | held => exact hset _ _ rfl
  | clear hcur => exact hset _ _ rfl
  | _ => exact hk

/-- The idle task has a stack pointer from the start. -/
theorem Run.idle_stack {s₀ : Sys} {tr : List Label} (h₀ : Initial cfg s₀)
    (hr : Run cfg s₀ tr s) : (s.sched.tcb .idle).stackPointer ≠ 0 := by
  induction hr with
  | nil =>
      rw [h₀.sched]
      decide
  | snoc hr hs ih =>
      obtain ⟨acts, hm⟩ := (step_kind (h₀.inv.run hr) hs).moves
      exact hm.invariant (I := fun k => (k.tcb .idle).stackPointer ≠ 0)
        (fun _ _ _ hk hmove => hmove.idle_stack hk) ih

/-- **A switch whose stack check passes returns a stack pointer.** -/
theorem switchContext_ne_zero (h : SInv cfg k) (hidle : (k.tcb .idle).stackPointer ≠ 0)
    {cur : Tid} (hcur : k.curTask = some cur) {sp : ℕ} (hsp : sp ≠ 0) {guard : ℕ → ℕ}
    (hvalid : artosTaskStackValid (k.tcb cur) sp guard = true) :
    (k.rtosSchedulerSwitchContext cfg sp guard).2 ≠ 0 := by
  have hcur' : (k.saved cur sp).curTask = some cur := hcur
  have hreq := (h.saved hcur hsp).requeued hcur'
  have hvalid' : artosTaskStackValid ((k.saved cur sp).tcb cur) sp guard = true := by
    simpa [saved, setTcb, artosTaskStackValid] using hvalid
  unfold rtosSchedulerSwitchContext
  rw [rtosSchedulerSelectNext_eq h hcur hsp guard, if_pos hvalid']
  rcases rtosSelectReady_cases hreq with ⟨-, heq⟩ | ⟨t, p, htop, heq⟩
  · rw [heq]
    have hsave : Move cfg k _ (k.saved cur sp) := .save hcur hsp
    have hrequeue : Move cfg (k.saved cur sp) _ ((k.saved cur sp).requeued cur) :=
      .requeue hcur'
    exact hrequeue.idle_stack (hsave.idle_stack hidle)
  · rw [heq]
    have hc := htop.container
    cases t with
    | idle => exact absurd (hc.symm.trans hreq.idle_state) (by simp)
    | user i => exact (hreq.slot i).mpr (hreq.linked_lt i (by simp [hc]))

/-! ## The runs -/

/-- **No assertion of the kernel fails**, on any run.  No false assertion is recorded; no
switch whose stack check passes returns `NULL`; and in memory the run is a run of the
functions of `list.c` in which each of them returns, where a list operation of the model
would record a failure if and only if the function would halt. -/
theorem no_assertion_fails {s₀ : Sys} {tr : List Label} (h₀ : Initial cfg s₀)
    (hr : Run cfg s₀ tr s) :
    s.sched.failure ≠ some .assert ∧
    (∀ cur sp guard, s.cur = some cur → sp ≠ 0 →
      artosTaskStackValid (s.sched.tcb cur) sp guard = true →
      (s.sched.rtosSchedulerSwitchContext cfg sp guard).2 ≠ 0) ∧
    (∃ ops m, MemoryRun ListMemory.boot ops m ∧ m.Holds cfg s.sched) ∧
    ∀ (k : Sched) (m : ListMemory) (op : ListOp), m.Holds cfg k → k.failure = none →
      ((op.exec k).failure = none ↔ ∃ m', op.Returns m m') := by
  have hI := h₀.inv.run hr
  refine ⟨?_, fun cur sp guard hcur hsp hvalid => ?_, Run.memory h₀ hr,
    fun k m op hm hf => op.check_exact hm hf⟩
  · induction hr with
    | nil => simp [h₀.sched, rtosSystemInit, rtosInitTcb]
    | snoc hr hs ih =>
        have hIr := h₀.inv.run hr
        exact (step_kind hIr hs).no_assert (ih hIr)
  · exact switchContext_ne_zero hI.ready.inv (Run.idle_stack h₀ hr) hcur hsp hvalid

/-- A task waits for a tick, and the tick comes before it has been switched out. -/
def wokenEarly : List Label × Sys :=
  (Runs.runSteps (step smallConfig) smallBoot
    [createTask 1 1, .start, .call (.wait 1), .tick]).get (by decide +kernel)

/-- The task is ready again when it is switched out, and the switch returns to it. -/
theorem no_assertion_fails_wokenEarly :
    wokenEarly.2.sched.failure ≠ some .assert ∧
      (wokenEarly.2.sched.rtosSchedulerSwitchContext smallConfig 4224 intactGuard).2 ≠ 0 := by
  obtain ⟨hf, hswitch, -⟩ := no_assertion_fails smallBoot_initial
    (run_of_runSteps (Option.some_get _).symm)
  exact ⟨hf, hswitch (.user 0) 4224 intactGuard (by decide +kernel) (by decide)
    (by decide +kernel)⟩

end Artos
