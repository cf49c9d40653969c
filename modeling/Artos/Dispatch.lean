/-
# Dispatching and creating tasks

The closed forms of the functions of `tasks.c` that choose the next task and that
create one:

* `requeued`, `dispatched` : what a context switch does to the outgoing and the
  incoming task (`rtosSchedulerSwitchContext_cases`, `rtosSchedulerStart_cases`);
* `withTask` : what `artos_task_create` does to a free slot
  (`artosTaskCreate_cases`).

All of them keep the scheduler invariant.
-/
import Artos.SchedEffects

open Function

namespace Artos

namespace Sched

variable {cfg : Config} {k : Sched} {t : Tid} {p q : ℕ}

/-! ## Selecting the next task -/

/-- The effect of the scheduler on the outgoing task: a runnable user task goes
to the end of its ready list. -/
def requeued (k : Sched) (cur : Tid) : Sched :=
  if cur ≠ .idle ∧ k.stateL.container cur = none then
    { k with
      stateL := k.stateL.insertEnd (.ready (k.eff cur)) cur
      readyBitmap := k.readyBitmap ||| bit (k.eff cur) }
  else k

/-- The effect of taking the ready task `t` out of the list of priority `p`. -/
def popReady (k : Sched) (t : Tid) (p : ℕ) : Sched :=
  { k with
    stateL := k.stateL.remove t
    readyBitmap :=
      if ((k.stateL.remove t).elems (.ready p)).length = 0 then
        k.readyBitmap &&& ~~~(bit p)
      else k.readyBitmap }

/-- The effect of dispatching the ready task `t` of priority `p`. -/
def dispatched (k : Sched) (t : Tid) (p : ℕ) : Sched :=
  { k.popReady t p with curTask := some t }

/-- `t` is the head of the highest non-empty ready list. -/
structure IsTop (k : Sched) (t : Tid) (p : ℕ) : Prop where
  head : ∃ rest, k.stateL.elems (.ready p) = t :: rest
  above : ∀ q, p < q → k.stateL.elems (.ready q) = []

theorem IsTop.container (h : k.IsTop t p) : k.stateL.container t = some (.ready p) := by
  obtain ⟨rest, hrest⟩ := h.head
  exact ListStore.container_of_head hrest

/-- The bitmap is zero exactly when no task is ready. -/
theorem SInv.bitmap_eq_zero_iff (h : SInv cfg k) :
    k.readyBitmap = 0#32 ↔ ∀ p, k.stateL.elems (.ready p) = [] := by
  rw [eq_zero_iff_getLsbD]
  refine forall_congr' fun p => ?_
  have hp := h.bitmap p
  rw [← Bool.not_eq_true, hp, not_not]

/-- **`rtos_check_runnable_task` in terms of the ready lists.** -/
theorem SInv.checkRunnable_iff (h : SInv cfg k) (c : Option Tid) :
    k.rtosCheckRunnableTask c = true ↔ ∃ t p, (match c with
      | none => 0
      | some u => k.eff u) ≤ p ∧ k.stateL.container t = some (.ready p) := by
  unfold rtosCheckRunnableTask
  rw [Sched.checkRunnable_iff]
  constructor
  · rintro ⟨p, hp, hbit⟩
    obtain ⟨t, ht⟩ := List.exists_mem_of_ne_nil _ ((h.bitmap p).mp hbit)
    exact ⟨t, p, hp, ListStore.container_of_mem ht⟩
  · rintro ⟨t, p, hp, ht⟩
    exact ⟨p, hp, (h.bitmap p).mpr (List.ne_nil_of_mem ((k.stateL.mem_elems _ _).mpr ht))⟩

/-- **`rtos_get_highest_prio_task` in closed form**: it takes the head of the
highest non-empty ready list. -/
theorem rtosGetHighestPrioTask_eq (h : SInv cfg k) (hb : k.readyBitmap ≠ 0#32) :
    ∃ t p, k.IsTop t p ∧ k.rtosGetHighestPrioTask cfg = (k.popReady t p, some t) := by
  obtain ⟨-, hset, habove⟩ := rtosPortFindMsb32_spec hb
  set p := rtosPortFindMsb32 k.readyBitmap with hp
  have hne := (h.bitmap p).mp hset
  obtain ⟨t, rest, hlist⟩ := List.exists_cons_of_ne_nil hne
  have ht : k.stateL.container t = some (.ready p) := ListStore.container_of_head hlist
  have heff := h.ready_prio t p ht
  have hlt : p < cfg.priorityCount := heff ▸ h.eff_lt t
  have hp32 : p < 32 := heff ▸ h.eff_lt_32 t
  have ho : (k.tcb t).owned = true := h.owned_of_linked (by rw [ht]; simp)
  refine ⟨t, p, ⟨⟨rest, hlist⟩, fun q hq => ?_⟩, ?_⟩
  · by_contra hq'
    have hbit := (h.bitmap q).mpr hq'
    rw [habove q hq] at hbit
    simp at hbit
  · unfold rtosGetHighestPrioTask
    rw [artosAssert_of k hb, if_neg hb]
    simp only [← hp]
    rw [artosAssert_of k ⟨hlt, by rw [hlist]; simp⟩]
    simp only [hlist]
    rw [artosAssert_of k ⟨heff, ht, ho⟩]
    have hrem : k.stateRemove t = { k with stateL := k.stateL.remove t } := by
      simp [stateRemove, ht]
    rw [hrem]
    -- the last assertion compares the bit with the list that is left
    have hok := h.bitmap.remove hp32 ht p
    simp only at hok ⊢
    have hassert : ∀ b : BitVec 32,
        (b.getLsbD p = true ↔ (k.stateL.remove t).elems (.ready p) ≠ []) →
        b.getLsbD p = decide (((k.stateL.remove t).elems (.ready p)).length ≠ 0) := by
      intro b hbit
      rw [Bool.eq_iff_iff, hbit, decide_eq_true_iff, ne_eq, ne_eq, List.length_eq_zero_iff]
    by_cases hlen : ((k.stateL.remove t).elems (.ready p)).length = 0
    · rw [if_pos hlen] at hok ⊢
      rw [artosAssert_of _ (hassert _ hok)]
      simp only [popReady, if_pos hlen]
    · rw [if_neg hlen] at hok ⊢
      rw [artosAssert_of _ (hassert _ hok)]
      simp only [popReady, if_neg hlen]

/-- Every created user task is in some state list. -/
def AllLinked (k : Sched) : Prop :=
  ∀ i, i < k.taskCount → k.stateL.container (.user i) ≠ none

/-- **Dispatching a ready task keeps the invariant**, when no user task is left
unlinked. -/
theorem SInv.dispatched (h : SInv cfg k) (hall : k.AllLinked)
    (ht : k.stateL.container t = some (.ready p)) : SInv cfg (k.dispatched t p) := by
  have heff := h.ready_prio t p ht
  have hlinked : ∀ u, (k.dispatched t p).stateL.container u =
      if u = t then none else k.stateL.container u := by
    intro u
    simp [Sched.dispatched, popReady, update_apply]
  have hblocked : ∀ u, (k.dispatched t p).Blocked u ↔ k.Blocked u := by
    intro u
    unfold Blocked
    rw [hlinked]
    by_cases hut : u = t
    · simp [hut, ht, StateList.isBlocked]
    · simp [hut]
  refine ⟨?_, h.idle_event, h.count_le, h.slot, h.created, ?_, ?_, ?_, ?_, h.prio_le,
    h.eff_lt, ?_, ?_, h.event_value, h.event_ordered, h.roles⟩
  · rw [hlinked, h.idle_state]
    simp
  · intro i hi
    rw [hlinked] at hi
    split at hi
    · simp at hi
    · exact h.linked_lt i hi
  · intro i hi
    have hti : t = .user i := by simpa [Sched.dispatched] using hi
    exact h.linked_lt i (by rw [← hti, ht]; simp)
  · intro i hi hnone
    rw [hlinked] at hnone
    split at hnone
    · rename_i hit
      simp [Sched.dispatched, hit]
    · exact absurd hnone (hall i hi)
  · intro u q hu
    rw [hlinked] at hu
    split at hu
    · simp at hu
    · exact h.ready_prio u q hu
  · exact h.bitmap.remove (heff ▸ h.eff_lt_32 t) ht
  · intro u hu
    rw [hblocked]
    exact h.event_blocked u hu

/-- Dispatching the idle task keeps the invariant. -/
theorem SInv.dispatchIdle (h : SInv cfg k) (hall : k.AllLinked) :
    SInv cfg { k with curTask := some .idle } :=
  ⟨h.idle_state, h.idle_event, h.count_le, h.slot, h.created, h.linked_lt,
    by simp, fun i hi hnone => absurd hnone (hall i hi), h.ready_prio, h.prio_le,
    h.eff_lt, h.bitmap, h.event_blocked, h.event_value, h.event_ordered, h.roles⟩

/-- What the outgoing task's requeueing does to the containers. -/
theorem requeued_container (cur : Tid) : (k.requeued cur).stateL.container =
    if cur ≠ .idle ∧ k.stateL.container cur = none then
      update k.stateL.container cur (some (.ready (k.eff cur)))
    else k.stateL.container := by
  unfold requeued
  split
  · rename_i hc
    simp [ListStore.insertEnd_eq hc.2]
  · rfl

theorem requeued_blocked (cur : Tid) : (k.requeued cur).Blocked t ↔ k.Blocked t := by
  unfold Blocked
  rw [requeued_container]
  split
  · rename_i hc
    by_cases htc : t = cur
    · simp [htc, hc.2, StateList.isBlocked]
    · simp [htc]
  · rfl

/-- **Requeueing the current task keeps the invariant.** -/
theorem SInv.requeued (h : SInv cfg k) {cur : Tid} (hcur : k.curTask = some cur) :
    SInv cfg (k.requeued cur) := by
  by_cases hc : cur ≠ .idle ∧ k.stateL.container cur = none
  · obtain ⟨i, rfl⟩ : ∃ i, cur = .user i := by
      cases cur with
      | idle => exact absurd rfl hc.1
      | user i => exact ⟨i, rfl⟩
    have hi := h.cur_lt i hcur
    have hcont := requeued_container (k := k) (.user i)
    rw [if_pos hc] at hcont
    have hrec : k.requeued (.user i) = { k with
        stateL := k.stateL.insertEnd (.ready (k.eff (.user i))) (.user i)
        readyBitmap := k.readyBitmap ||| bit (k.eff (.user i)) } := if_pos hc
    have hblocked : ∀ u, (k.requeued (.user i)).Blocked u ↔ k.Blocked u := fun u =>
      requeued_blocked (.user i)
    rw [hrec] at hcont hblocked ⊢
    refine ⟨?_, h.idle_event, h.count_le, h.slot, h.created, ?_, h.cur_lt, ?_, ?_,
      h.prio_le, h.eff_lt, ?_, ?_, h.event_value, h.event_ordered, h.roles⟩
    · rw [hcont, update_of_ne (by simp)]
      exact h.idle_state
    · intro j hj
      rw [hcont] at hj
      by_cases hji : j = i
      · rw [hji]
        exact hi
      · rw [update_of_ne (by simpa using hji)] at hj
        exact h.linked_lt j hj
    · intro j hj hnone
      rw [hcont] at hnone
      by_cases hji : j = i
      · simp [hji] at hnone
      · rw [update_of_ne (by simpa using hji)] at hnone
        exact h.unlinked_cur j hj hnone
    · intro u q hu
      rw [hcont] at hu
      by_cases hui : u = .user i
      · subst hui
        simpa using hu
      · rw [update_of_ne hui] at hu
        exact h.ready_prio u q hu
    · exact h.bitmap.insertEnd (h.eff_lt_32 _) hc.2
    · intro u hu
      rw [hblocked]
      exact h.event_blocked u hu
  · unfold Sched.requeued
    rw [if_neg hc]
    exact h

/-- After requeueing, no created user task is left unlinked. -/
theorem SInv.allLinked_requeued (h : SInv cfg k) {cur : Tid}
    (hcur : k.curTask = some cur) : (k.requeued cur).AllLinked := by
  intro i hi hnone
  have hi' : i < k.taskCount := by
    unfold Sched.requeued at hi
    split at hi <;> exact hi
  rw [requeued_container] at hnone
  by_cases hic : Tid.user i = cur
  · subst hic
    split at hnone
    · simp at hnone
    · rename_i hc
      exact hc ⟨by simp, hnone⟩
  · have hni : k.stateL.container (.user i) = none := by
      split at hnone
      · rwa [update_of_ne hic] at hnone
      · exact hnone
    have hcur' := h.unlinked_cur i hi' hni
    rw [hcur, Option.some.injEq] at hcur'
    exact hic hcur'.symm

/-- **The selection in closed form**: the idle task if no task is ready, else the
head of the highest non-empty ready list. -/
theorem rtosSelectReady_cases (h : SInv cfg k) :
    ((∀ p, k.stateL.elems (.ready p) = []) ∧
      k.rtosSelectReady cfg = ({ k with curTask := some .idle }, some .idle)) ∨
    ∃ t p, k.IsTop t p ∧ k.rtosSelectReady cfg = (k.dispatched t p, some t) := by
  have hz : k.rtosCheckRunnableTask none = true ↔ k.readyBitmap ≠ 0#32 := by
    simp [rtosCheckRunnableTask]
  unfold rtosSelectReady
  by_cases hb : k.readyBitmap = 0#32
  · left
    refine ⟨h.bitmap_eq_zero_iff.mp hb, ?_⟩
    rw [if_neg (by rw [hz]; simpa using hb)]
  · right
    obtain ⟨t, p, htop, heq⟩ := rtosGetHighestPrioTask_eq h hb
    refine ⟨t, p, htop, ?_⟩
    rw [if_pos (hz.mpr hb), heq]
    rfl

/-! ## The context switch -/

/-- The stack pointer of the outgoing task is saved first. -/
def saved (k : Sched) (cur : Tid) (sp : ℕ) : Sched :=
  k.setTcb cur fun c => { c with stackPointer := sp }

/-- Saving a stack pointer keeps the invariant. -/
theorem SInv.saved (h : SInv cfg k) {cur : Tid} (hcur : k.curTask = some cur) {sp : ℕ}
    (hsp : sp ≠ 0) : SInv cfg (k.saved cur sp) := by
  refine h.setTcb cur _ (fun hidle => ?_) rfl rfl rfl rfl
  obtain ⟨i, rfl⟩ : ∃ i, cur = .user i := by
    cases cur with
    | idle => exact absurd rfl hidle
    | user i => exact ⟨i, rfl⟩
  exact ⟨fun _ => (h.slot i).mpr (h.cur_lt i hcur), fun _ => hsp⟩

/-- **`rtos_scheduler_select_next` in closed form**, when it is not the start of the
scheduler. -/
theorem rtosSchedulerSelectNext_eq (h : SInv cfg k) {cur : Tid}
    (hcur : k.curTask = some cur) {sp : ℕ} (hsp : sp ≠ 0) (guard : ℕ → ℕ) :
    k.rtosSchedulerSelectNext cfg sp guard =
      if artosTaskStackValid ((k.saved cur sp).tcb cur) sp guard then
        rtosSelectReady cfg ((k.saved cur sp).requeued cur)
      else ((k.saved cur sp).recordFailure .stackOverflow, none) := by
  have hs := h.saved hcur hsp
  have hcur' : (k.saved cur sp).curTask = some cur := hcur
  -- the outgoing task's own test is the one of `requeued`
  have hins : (if cur ≠ .idle ∧ (k.saved cur sp).stateL.container cur = none then
      rtosInsertReadyList cfg (k.saved cur sp) cur else k.saved cur sp) =
      (k.saved cur sp).requeued cur := by
    unfold requeued
    split
    · rename_i hc
      rw [rtosInsertReadyList_eq (hs.eff_lt cur) hc.2]
      cases cur with
      | idle => exact absurd rfl hc.1
      | user i => exact (hs.created i (hs.cur_lt i hcur')).1
    · rfl
  unfold rtosSchedulerSelectNext
  rw [← hins, hcur]
  simp only [hsp, if_false]
  rfl

/-- **`rtos_scheduler_switch_context` in closed form**, on the state `k'` it leaves:
either the stack check halts the kernel, or the outgoing task is requeued and the
head of the highest non-empty ready list, or else the idle task, is dispatched. -/
theorem rtosSchedulerSwitchContext_cases (h : SInv cfg k) {cur : Tid}
    (hcur : k.curTask = some cur) {sp : ℕ} (hsp : sp ≠ 0) (guard : ℕ → ℕ) {k' : Sched}
    (hk' : (k.rtosSchedulerSwitchContext cfg sp guard).1 = k') :
    k' = (k.saved cur sp).recordFailure .stackOverflow ∨
    (∀ p, ((k.saved cur sp).requeued cur).stateL.elems (.ready p) = []) ∧
      k' = { (k.saved cur sp).requeued cur with curTask := some .idle } ∨
    ∃ t p, ((k.saved cur sp).requeued cur).IsTop t p ∧
      k' = ((k.saved cur sp).requeued cur).dispatched t p := by
  have hs := h.saved hcur hsp
  have hr : SInv cfg ((k.saved cur sp).requeued cur) := hs.requeued hcur
  have hnext : k' = (k.rtosSchedulerSelectNext cfg sp guard).1 := by
    rw [← hk']
    unfold rtosSchedulerSwitchContext
    simp only
    split <;> rfl
  rw [hnext, rtosSchedulerSelectNext_eq h hcur hsp guard]
  split
  · right
    rcases rtosSelectReady_cases hr with ⟨hnone, heq⟩ | ⟨t, p, htop, heq⟩
    · exact Or.inl ⟨hnone, by rw [heq]⟩
    · exact Or.inr ⟨t, p, htop, by rw [heq]⟩
  · exact Or.inl rfl

/-- The task may be dispatched by the next switch: it is in the ready list of its
priority, or it is a user task that still runs. -/
def Runnable (k : Sched) (t : Tid) : Prop :=
  (∃ p, t ∈ k.stateL.elems (.ready p)) ∨
    k.curTask = some t ∧ t ≠ .idle ∧ k.stateL.container t = none

/-- A runnable task is in the ready list of its priority when the next task is chosen. -/
theorem Runnable.requeued (h : SInv cfg k) {cur : Tid} (hcur : k.curTask = some cur)
    (ht : k.Runnable t) : (k.requeued cur).stateL.container t = some (.ready (k.eff t)) := by
  rw [requeued_container]
  rcases ht with ⟨p, hp⟩ | ⟨ht, hidle, hnone⟩
  · have hc := ListStore.container_of_mem hp
    have heff := h.ready_prio t p hc
    split
    · rename_i hcc
      have hne : t ≠ cur := by
        rintro rfl
        rw [hcc.2] at hc
        simp at hc
      rw [update_of_ne hne, hc, heff]
    · rw [hc, heff]
  · rw [hcur, Option.some.injEq] at ht
    subst ht
    rw [if_pos ⟨hidle, hnone⟩, update_self]

/-- **A switch dispatches a task of the highest priority** among those that are
runnable, unless it halts the kernel. -/
theorem switchContext_top (h : SInv cfg k) {cur : Tid} (hcur : k.curTask = some cur) {sp : ℕ}
    (hsp : sp ≠ 0) (guard : ℕ → ℕ) {k' : Sched}
    (hk' : (k.rtosSchedulerSwitchContext cfg sp guard).1 = k') (hf : k'.failure = none) :
    ∃ n, k'.curTask = some n ∧ ∀ t, k.Runnable t → k.eff t ≤ k'.eff n := by
  have hs := h.saved hcur hsp
  have hcur' : (k.saved cur sp).curTask = some cur := hcur
  have hr := hs.requeued hcur'
  have heff : ∀ t, ((k.saved cur sp).requeued cur).eff t = k.eff t := by
    intro t
    have htcb : ((k.saved cur sp).requeued cur).tcb = (k.saved cur sp).tcb := by
      unfold Sched.requeued
      split <;> rfl
    unfold eff
    rw [htcb]
    simp only [saved, setTcb, update_apply]
    split
    · rename_i htc
      rw [htc]
    · rfl
  have hready : ∀ t, k.Runnable t →
      ((k.saved cur sp).requeued cur).stateL.container t = some (.ready (k.eff t)) := by
    intro t ht
    have ht' : (k.saved cur sp).Runnable t := ht
    rw [ht'.requeued hs hcur', ← heff t]
    have htcb : (k.saved cur sp).eff t = ((k.saved cur sp).requeued cur).eff t := by
      unfold Sched.requeued
      split <;> rfl
    rw [htcb]
  rcases rtosSchedulerSwitchContext_cases h hcur hsp guard hk' with
    heq | ⟨hnone, heq⟩ | ⟨t, p, htop, heq⟩
  · rw [heq] at hf
    simp [recordFailure] at hf
  · refine ⟨.idle, by rw [heq], fun t ht => ?_⟩
    have hmem := (ListStore.mem_elems _ _ t).mpr (hready t ht)
    rw [hnone] at hmem
    simp at hmem
  · refine ⟨t, by rw [heq]; rfl, fun u hu => ?_⟩
    have hp : k'.eff t = p := by
      rw [heq]
      exact hr.ready_prio t p htop.container
    rw [hp]
    by_contra hlt
    have hmem := (ListStore.mem_elems _ _ u).mpr (hready u hu)
    rw [htop.above _ (not_le.mp hlt)] at hmem
    simp at hmem

/-- **`rtos_scheduler_start` in closed form**: before the first task is dispatched
nothing is saved, and with no ready task nothing happens. -/
theorem rtosSchedulerStart_cases (h : SInv cfg k) (hcur : k.curTask = none) {k' : Sched}
    (hk' : (k.rtosSchedulerStart cfg).1 = k') :
    k' = k ∨ ∃ t p, k.IsTop t p ∧ k' = k.dispatched t p := by
  rw [← hk']
  unfold rtosSchedulerStart rtosSchedulerSelectNext
  rw [hcur]
  simp only [if_true]
  by_cases hb : k.readyBitmap = 0#32
  · left
    rw [if_neg (by simp [rtosCheckRunnableTask, hb])]
  · right
    obtain ⟨t, p, htop, heq⟩ := rtosGetHighestPrioTask_eq h hb
    refine ⟨t, p, htop, ?_⟩
    rw [if_pos (by simpa [rtosCheckRunnableTask] using hb), heq]
    rfl

/-! ## Creating a task -/

/-- The effect of `artos_task_create` when it succeeds: the first free slot of the
pool holds the new task, at the end of its ready list. -/
def withTask (k : Sched) (entry argument stack stackWordCount priority : ℕ) : Sched :=
  let k₁ := k.rtosInitTcb (.user k.taskCount) entry argument stack stackWordCount priority
  { k₁ with
    taskCount := k.taskCount + 1
    stateL := k₁.stateL.insertEnd (.ready priority) (.user k.taskCount)
    readyBitmap := k.readyBitmap ||| bit priority }

/-- The new task is unlinked before its creation. -/
theorem SInv.new_unlinked (h : SInv cfg k) :
    k.stateL.container (.user k.taskCount) = none := by
  by_contra hc
  exact absurd (h.linked_lt _ hc) (lt_irrefl _)

/-- The slot of the new task is the first one without a stack pointer. -/
theorem SInv.find_slot (h : SInv cfg k) (hlt : k.taskCount < cfg.maxTasks) :
    ((List.range cfg.maxTasks).find? fun i => (k.tcb (.user i)).stackPointer = 0) =
      some k.taskCount := by
  rw [List.find?_range_eq_some]
  refine ⟨?_, List.mem_range.mpr hlt, fun j hj => ?_⟩
  · have hnot := (h.slot k.taskCount).not
    simpa using hnot
  · have hj' := (h.slot j).mpr hj
    simpa using hj'

/-- **`artos_task_create` in closed form**: a rejected call changes nothing; an
accepted one fills the first free slot, and requests a switch when the new task's
priority is above the current task's effective priority. -/
theorem artosTaskCreate_cases (h : SInv cfg k)
    (entry argument stack stackWordCount priority : ℕ) :
    (∃ status, k.artosTaskCreate cfg entry argument stack stackWordCount priority =
      (k, status, false)) ∨
    (entry ≠ 0 ∧ priority < cfg.priorityCount ∧ artosMinStackWords ≤ stackWordCount ∧
      k.taskCount < cfg.maxTasks) ∧
      k.artosTaskCreate cfg entry argument stack stackWordCount priority =
        (k.withTask entry argument stack stackWordCount priority, .ok,
          match k.curTask with
          | none => false
          | some cur => decide (priority > k.eff cur)) := by
  unfold artosTaskCreate
  split
  · exact Or.inl ⟨_, rfl⟩
  rename_i harg
  split
  · exact Or.inl ⟨_, rfl⟩
  split
  · exact Or.inl ⟨_, rfl⟩
  rename_i hwords
  split
  · exact Or.inl ⟨_, rfl⟩
  rename_i hlimit
  have hlt : k.taskCount < cfg.maxTasks := lt_of_le_of_ne h.count_le hlimit
  have hprio : priority < cfg.priorityCount := by omega
  refine Or.inr ⟨⟨by omega, hprio, by omega, hlt⟩, ?_⟩
  have hcount : u32 (k.taskCount + 1) = k.taskCount + 1 := by
    have hmax := cfg.maxTasks_lt
    exact Nat.mod_eq_of_lt (by omega)
  rw [h.find_slot hlt]
  simp only
  rw [rtosInsertReadyList_eq]
  · refine Prod.ext ?_ (Prod.ext rfl ?_)
    · simp [withTask, rtosInitTcb, eff, hcount]
    · -- the new task is not the current one
      have hne : ∀ cur, k.curTask = some cur → cur ≠ .user k.taskCount := by
        rintro cur hcur rfl
        exact absurd (h.cur_lt _ hcur) (lt_irrefl _)
      simp only [rtosInitTcb, eff]
      rcases hcur : k.curTask with _ | cur
      · rfl
      · simp [update_of_ne (hne cur hcur)]
  · simpa [rtosInitTcb, eff] using hprio
  · simpa [rtosInitTcb] using h.new_unlinked
  · simp [rtosInitTcb]

section WithTask

variable (entry argument stack stackWordCount priority : ℕ)

@[simp] theorem withTask_curTask :
    (k.withTask entry argument stack stackWordCount priority).curTask = k.curTask := rfl
@[simp] theorem withTask_ticks :
    (k.withTask entry argument stack stackWordCount priority).ticks = k.ticks := rfl
@[simp] theorem withTask_curDelayed :
    (k.withTask entry argument stack stackWordCount priority).curDelayed = k.curDelayed :=
  rfl
@[simp] theorem withTask_nextDelayed :
    (k.withTask entry argument stack stackWordCount priority).nextDelayed = k.nextDelayed :=
  rfl
@[simp] theorem withTask_failure :
    (k.withTask entry argument stack stackWordCount priority).failure = k.failure := rfl

/-- No control block but the new task's changes. -/
theorem withTask_tcb_of_ne (ht : t ≠ .user k.taskCount) :
    (k.withTask entry argument stack stackWordCount priority).tcb t = k.tcb t := by
  simp [withTask, rtosInitTcb, update_of_ne ht]

@[simp] theorem withTask_eff_self :
    (k.withTask entry argument stack stackWordCount priority).eff (.user k.taskCount) =
      priority := by
  simp [withTask, rtosInitTcb, eff]

theorem withTask_container (h : SInv cfg k) :
    (k.withTask entry argument stack stackWordCount priority).stateL.container =
      update k.stateL.container (.user k.taskCount) (some (.ready priority)) := by
  have hnone : (k.stateL.setValue (.user k.taskCount) 0).container (.user k.taskCount) =
      none := h.new_unlinked
  simp [withTask, rtosInitTcb, ListStore.insertEnd_eq hnone]

@[simp] theorem withTask_eventL :
    (k.withTask entry argument stack stackWordCount priority).eventL =
      k.eventL.setValue (.user k.taskCount) 0 := rfl

theorem withTask_blocked (h : SInv cfg k) :
    (k.withTask entry argument stack stackWordCount priority).Blocked t ↔ k.Blocked t := by
  unfold Blocked
  rw [withTask_container entry argument stack stackWordCount priority h]
  by_cases ht : t = .user k.taskCount
  · simp [ht, h.new_unlinked, StateList.isBlocked]
  · simp [ht]

/-- **Creating a task keeps the invariant.** -/
theorem SInv.withTask (h : SInv cfg k) (hentry : entry ≠ 0)
    (hprio : priority < cfg.priorityCount) (hwords : artosMinStackWords ≤ stackWordCount)
    (hlt : k.taskCount < cfg.maxTasks) :
    SInv cfg (k.withTask entry argument stack stackWordCount priority) := by
  have hcont := withTask_container entry argument stack stackWordCount priority h
  have hother : ∀ u, u ≠ .user k.taskCount →
      (k.withTask entry argument stack stackWordCount priority).tcb u = k.tcb u := fun u hu =>
    withTask_tcb_of_ne entry argument stack stackWordCount priority hu
  have hnew : (k.withTask entry argument stack stackWordCount priority).tcb
      (.user k.taskCount) =
      { stackPointer := rtosPortInitializeStack (stack + stackWordBytes * stackWordCount)
        stackBuffer := stack, stackWordCount := stackWordCount, entry := entry,
        argument := argument, priority := priority, effectivePriority := priority,
        mutexesHeld := 0, owned := true, waitReason := .noReason } := by
    simp [Sched.withTask, rtosInitTcb]
  -- the new slot waits in no event list
  have hevent : k.eventL.container (.user k.taskCount) = none := by
    by_contra hc
    obtain ⟨l, hl, -⟩ := h.event_blocked _ hc
    rw [h.new_unlinked] at hl
    simp at hl
  have hlt_succ : ∀ i, i ≠ k.taskCount → (i < k.taskCount + 1 ↔ i < k.taskCount) := by
    intro i hi
    omega
  refine ⟨?_, h.idle_event, hlt, ?_, ?_, ?_, ?_, ?_, ?_, ?_, ?_, ?_, ?_, ?_, ?_, h.roles⟩
  · rw [hcont, update_of_ne (by simp)]
    exact h.idle_state
  · intro i
    by_cases hi : i = k.taskCount
    · subst hi
      rw [hnew]
      simp only [artosMinStackWords] at hwords
      simp only [rtosPortInitializeStack, stackWordBytes, Sched.withTask]
      omega
    · rw [hother _ (by simpa using hi)]
      exact (h.slot i).trans (hlt_succ i hi).symm
  · intro i hi
    by_cases hi' : i = k.taskCount
    · rw [hi', hnew]
      exact ⟨rfl, hentry⟩
    · rw [hother _ (by simpa using hi')]
      exact h.created i ((hlt_succ i hi').mp hi)
  · intro i hi
    by_cases hi' : i = k.taskCount
    · rw [hi']
      exact Nat.lt_succ_self _
    · rw [hcont, update_of_ne (by simpa using hi')] at hi
      exact Nat.lt_succ_of_lt (h.linked_lt i hi)
  · intro i hi
    exact Nat.lt_succ_of_lt (h.cur_lt i hi)
  · intro i hi hnone
    by_cases hi' : i = k.taskCount
    · simp [hcont, hi'] at hnone
    · rw [hcont, update_of_ne (by simpa using hi')] at hnone
      exact h.unlinked_cur i ((hlt_succ i hi').mp hi) hnone
  · intro u q hu
    by_cases hu' : u = .user k.taskCount
    · subst hu'
      rw [hcont, update_self] at hu
      unfold eff
      rw [hnew]
      simpa using hu
    · rw [hcont, update_of_ne hu'] at hu
      unfold eff
      rw [hother u hu']
      exact h.ready_prio u q hu
  · intro u
    unfold eff
    by_cases hu' : u = .user k.taskCount
    · rw [hu', hnew]
    · rw [hother u hu']
      exact h.prio_le u
  · intro u
    unfold eff
    by_cases hu' : u = .user k.taskCount
    · rw [hu', hnew]
      exact hprio
    · rw [hother u hu']
      exact h.eff_lt u
  · have hp32 : priority < 32 := lt_of_lt_of_le hprio cfg.priorityCount_le
    exact BitmapOk.insertEnd (BitmapOk.congr h.bitmap fun _ => rfl) hp32 h.new_unlinked
  · intro u hu
    rw [withTask_blocked entry argument stack stackWordCount priority h]
    exact h.event_blocked u hu
  · intro u hu
    have hu' : u ≠ .user k.taskCount := fun he => hu (he ▸ hevent)
    unfold eff
    rw [hother u hu', withTask_eventL, ListStore.setValue_value, update_of_ne hu']
    exact h.event_value u hu
  · intro l
    exact (h.event_ordered l).setValue (by rw [hevent]; simp) 0

end WithTask

/-- **The initial state of the scheduler satisfies the invariant.** -/
theorem sInv_rtosSystemInit (cfg : Config) : SInv cfg rtosSystemInit := by
  have htcb : ∀ t, (rtosSystemInit.tcb t).priority = 0 ∧
      (rtosSystemInit.tcb t).effectivePriority = 0 := by
    intro t
    cases t <;> simp [rtosSystemInit, rtosInitTcb, Tcb.zero]
  refine ⟨rfl, rfl, Nat.zero_le _, ?_, ?_, ?_, ?_, ?_, ?_, ?_, ?_, ?_, ?_, ?_, ?_, ?_⟩
  · intro i
    simp [rtosSystemInit, rtosInitTcb, Tcb.zero]
  · intro i hi
    exact absurd hi (Nat.not_lt_zero _)
  · intro i hi
    exact absurd rfl hi
  · intro i hi
    simp [rtosSystemInit, rtosInitTcb] at hi
  · intro i hi
    exact absurd hi (Nat.not_lt_zero _)
  · intro u p hu
    simp [rtosSystemInit, rtosInitTcb, ListStore.empty] at hu
  · intro t
    rw [eff, (htcb t).1]
    exact Nat.zero_le _
  · intro t
    rw [eff, (htcb t).2]
    exact cfg.priorityCount_pos
  · intro p
    simp [rtosSystemInit, rtosInitTcb, ListStore.empty]
  · intro t ht
    exact absurd rfl ht
  · intro t ht
    exact absurd rfl ht
  · intro l
    exact ListStore.ordered_empty.setValue (by simp [ListStore.empty]) 0
  · exact Or.inl ⟨rfl, rfl⟩

end Sched

end Artos
