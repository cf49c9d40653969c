/-
# The scheduler partition

Every created task is in exactly one state list, or is the current task; the ready
lists, the bitmap and the wait lists agree with the tasks' control blocks.  These are
the fields of `SInv`, read off in every reachable state, with what they mean for
`artos_task_get_info`.
-/
import Artos.Preserve

open Function

namespace Artos

open Sched

variable {cfg : Config} {s : Sys} {t : Tid}

/-! ## Membership in the state lists -/

/-- A linked item is in the list that holds it, once, and in no other list. -/
theorem elems_of_container {L : Type*} [DecidableEq L] {st : ListStore L Tid} {l : L}
    (h : st.container t = some l) :
    (st.elems l).count t = 1 ∧ ∀ l', l' ≠ l → t ∉ st.elems l' := by
  refine ⟨by rw [ListStore.count_elems, if_pos h], fun l' hl' hmem => hl' ?_⟩
  have hc := ListStore.container_of_mem hmem
  rw [h, Option.some.injEq] at hc
  exact hc.symm

/-- A created task is in exactly one list, or it is the current task and in none. -/
theorem Sched.SInv.in_one_list {k : Sched} (h : SInv cfg k) {i : ℕ} (hi : i < k.taskCount) :
    (∃ l, (k.stateL.elems l).count (.user i) = 1 ∧
        ∀ l', l' ≠ l → Tid.user i ∉ k.stateL.elems l') ∨
      (∀ l, Tid.user i ∉ k.stateL.elems l) ∧ k.curTask = some (.user i) := by
  rcases hc : k.stateL.container (.user i) with _ | l
  · exact Or.inr ⟨fun l => ListStore.notMem_of_container l hc, h.unlinked_cur i hi hc⟩
  · exact Or.inl ⟨l, elems_of_container hc⟩

/-! ## The reported state -/

/-- `artos_task_get_info` reports RUNNING exactly for the created tasks that are in no
list. -/
theorem Sched.SInv.getInfo_running {k : Sched} (h : SInv cfg k) (i : ℕ) :
    (k.artosTaskGetInfo i).map TaskInfo.state = some .running ↔
      i < k.taskCount ∧ k.stateL.container (.user i) = none := by
  unfold artosTaskGetInfo
  by_cases hi : i < k.taskCount
  · have hentry := (h.created i hi).2
    rw [if_neg (by push Not; exact ⟨hi, hentry⟩)]
    simp only [Option.map_some, Option.some.injEq, hi, true_and]
    rcases k.stateL.container (.user i) with _ | l
    · simp
    · cases l <;> simp
  · rw [if_pos (Or.inl (not_lt.mp hi))]
    simp [hi]

/-- **The scheduler partition.**  In every reachable state: (1) every created task is
in exactly one state list, or in none and then it is the current task; (2) a ready
task is in the list of its effective priority; (3) a bit of the bitmap is set exactly
when its ready list is not empty; (4) a task in a wait list is in a delayed list or
the suspend list; (5) the idle task is in no list.  Hence a running task that asks is
reported as running, and it alone. -/
theorem scheduler_partition (h : Reachable cfg s) :
    (∀ i, i < s.sched.taskCount →
      (∃ l, (s.sched.stateL.elems l).count (.user i) = 1 ∧
          ∀ l', l' ≠ l → Tid.user i ∉ s.sched.stateL.elems l') ∨
        (∀ l, Tid.user i ∉ s.sched.stateL.elems l) ∧ s.cur = some (.user i)) ∧
    (∀ t p, t ∈ s.sched.stateL.elems (.ready p) → s.sched.eff t = p) ∧
    (∀ p, s.sched.readyBitmap.getLsbD p = true ↔ s.sched.stateL.elems (.ready p) ≠ []) ∧
    (∀ t l, t ∈ s.sched.eventL.elems l →
      ∃ l', l'.isBlocked = true ∧ t ∈ s.sched.stateL.elems l') ∧
    ((∀ l, Tid.idle ∉ s.sched.stateL.elems l) ∧ ∀ l, Tid.idle ∉ s.sched.eventL.elems l) ∧
    (∀ t, s.running = some t → s.pc t = .user → ∀ i,
      (s.sched.artosTaskGetInfo i).map TaskInfo.state = some .running ↔ t = .user i) := by
  have hI := h.inv
  have hs := hI.ready.inv
  refine ⟨fun i hi => hs.in_one_list hi, fun t p ht => ?_, hs.bitmap, fun t l ht => ?_,
    ⟨fun l => ListStore.notMem_of_container l hs.idle_state,
      fun l => ListStore.notMem_of_container l hs.idle_event⟩, fun t hrun hpc i => ?_⟩
  · exact hs.ready_prio t p (ListStore.container_of_mem ht)
  · have hc := ListStore.container_of_mem ht
    obtain ⟨l', hl', hb⟩ := hs.event_blocked t (by rw [hc]; simp)
    exact ⟨l', hb, (s.sched.stateL.mem_elems l' t).mpr hl'⟩
  · rw [hs.getInfo_running]
    have hcan := (hI.inTask hrun (by simp [hpc])).can
    constructor
    · rintro ⟨hi, hnone⟩
      have hcur := hs.unlinked_cur i hi hnone
      rw [hcan.cur, Option.some.injEq] at hcur
      exact hcur
    · rintro rfl
      exact ⟨hs.cur_lt i hcan.cur, hcan.state⟩

/-- Three tasks: one has taken a mutex and delays, one waits for the mutex with a
timeout, one runs. -/
def threeTasks : Sys :=
  (Runs.runSteps (step smallConfig) smallBoot
    [createTask 1 2, createTask 2 1, createTask 3 0, .start,
      .call (.mutexLock 0 5), .call (.wait 7), .resume, switchFrom 1,
      .call (.mutexLock 0 3), .resume, switchFrom 2]).get (by decide +kernel) |>.2

theorem threeTasks_reachable : Reachable smallConfig threeTasks :=
  Reachable.of_runSteps smallBoot_initial (Option.some_get _).symm

theorem scheduler_partition_threeTasks :
    threeTasks.running = some (.user 2) ∧
      ∀ i, (threeTasks.sched.artosTaskGetInfo i).map TaskInfo.state = some .running ↔
        Tid.user 2 = .user i :=
  ⟨by decide +kernel, (scheduler_partition threeTasks_reachable).2.2.2.2.2 (.user 2)
    (by decide +kernel) rfl⟩

end Artos
