/-
# What the functions of `tasks.c` do, in closed form

Each function that moves a task is equal, under the scheduler invariant, to one
record update:

* `unblocked` : `rtos_unblock_task` (`rtosUnblockTask_eq`);
* `blockedOn` : `rtos_block_current_task` (`rtosBlockCurrentTask_eq`);
* `withEff` : `rtos_set_effective_priority` (`rtosSetEffectivePriority_eq`).

In each the assertions of the function have been discharged.  Every update keeps
the invariant (`SInv.unblocked` and so on).
-/
import Artos.SchedInv

open Function

namespace Artos

namespace Sched

variable {cfg : Config} {k : Sched} {t t' : Tid} {p q : ℕ}

/-! ## Unblocking -/

/-- The effect of `rtos_unblock_task` on a blocked task. -/
def unblocked (k : Sched) (t : Tid) (reason : WaitReason) : Sched :=
  { k with
    tcb := update k.tcb t { k.tcb t with waitReason := reason }
    stateL := (k.stateL.remove t).insertEnd (.ready (k.eff t)) t
    eventL := k.eventL.remove t
    readyBitmap := k.readyBitmap ||| bit (k.eff t) }

/-- `rtos_insert_ready_list` on an unlinked task. -/
theorem rtosInsertReadyList_eq (hp : k.eff t < cfg.priorityCount)
    (ht : k.stateL.container t = none) (ho : (k.tcb t).owned = true) :
    rtosInsertReadyList cfg k t =
      { k with
        stateL := k.stateL.insertEnd (.ready (k.eff t)) t
        readyBitmap := k.readyBitmap ||| bit (k.eff t) } := by
  unfold rtosInsertReadyList stateInsertEnd
  rw [if_neg (by simp [ht]; omega)]
  simp [ht, ho]

/-- **`rtos_unblock_task` in closed form.** -/
theorem rtosUnblockTask_eq (h : SInv cfg k) (hb : k.Blocked t) {item : Item}
    (howner : item.owner = t) (hlink : k.itemLinked item = true) (reason : WaitReason) :
    k.rtosUnblockTask cfg item reason = k.unblocked t reason := by
  have hbl := inBlockedList_iff.mpr hb
  have hlinked : k.stateL.container t ≠ none := by
    obtain ⟨l, hl, -⟩ := hb
    rw [hl]
    simp
  -- with or without an event item to remove, the task is in no event list afterwards
  have hevent : (if k.eventL.container t ≠ none then k.stateRemove t |>.eventRemove t
      else k.stateRemove t) =
      { k with stateL := k.stateL.remove t, eventL := k.eventL.remove t } := by
    by_cases he : k.eventL.container t = none
    · rw [if_neg (by simpa using he), ListStore.remove_eq_self he]
      simp [stateRemove, hlinked]
    · rw [if_pos he]
      simp [stateRemove, eventRemove, hlinked, he]
  unfold rtosUnblockTask
  rw [if_pos hlink]
  simp only [howner, hbl, artosAssert_of, if_true]
  have hev : (k.stateRemove t).eventL = k.eventL := by simp [stateRemove, hlinked]
  rw [hev, hevent, rtosInsertReadyList_eq]
  · rfl
  · exact h.eff_lt t
  · simp
  · exact h.owned_of_blocked hb

section Unblocked

variable (reason : WaitReason)

@[simp] theorem unblocked_eventL :
    (k.unblocked t reason).eventL = k.eventL.remove t := rfl
@[simp] theorem unblocked_curTask : (k.unblocked t reason).curTask = k.curTask := rfl
@[simp] theorem unblocked_ticks : (k.unblocked t reason).ticks = k.ticks := rfl
@[simp] theorem unblocked_taskCount :
    (k.unblocked t reason).taskCount = k.taskCount := rfl
@[simp] theorem unblocked_curDelayed :
    (k.unblocked t reason).curDelayed = k.curDelayed := rfl
@[simp] theorem unblocked_nextDelayed :
    (k.unblocked t reason).nextDelayed = k.nextDelayed := rfl
@[simp] theorem unblocked_failure : (k.unblocked t reason).failure = k.failure := rfl

/-- Unblocking changes the wait reason of the task and no other field of a block. -/
theorem unblocked_tcb : (k.unblocked t reason).tcb t' =
    if t' = t then { k.tcb t with waitReason := reason } else k.tcb t' := by
  simp [unblocked, update_apply]

@[simp] theorem unblocked_eff : (k.unblocked t reason).eff t' = k.eff t' := by
  unfold eff
  rw [unblocked_tcb]
  split <;> simp_all

@[simp] theorem unblocked_priority :
    ((k.unblocked t reason).tcb t').priority = (k.tcb t').priority := by
  rw [unblocked_tcb]
  split <;> simp_all

@[simp] theorem unblocked_mutexesHeld :
    ((k.unblocked t reason).tcb t').mutexesHeld = (k.tcb t').mutexesHeld := by
  rw [unblocked_tcb]
  split <;> simp_all

theorem unblocked_waitReason :
    ((k.unblocked t reason).tcb t').waitReason =
      if t' = t then reason else (k.tcb t').waitReason := by
  rw [unblocked_tcb]
  split <;> simp_all

/-- Unblocking moves the state item to the end of its ready list. -/
theorem unblocked_container : (k.unblocked t reason).stateL.container =
    update k.stateL.container t (some (.ready (k.eff t))) := by
  have hnone : (k.stateL.remove t).container t = none := by simp
  simp [unblocked, ListStore.insertEnd_eq hnone]

theorem unblocked_value :
    (k.unblocked t reason).stateL.value = k.stateL.value := by
  simp [unblocked]

theorem unblocked_stamp :
    (k.unblocked t reason).stateL.stamp = update k.stateL.stamp t k.stateL.clock := by
  have hnone : (k.stateL.remove t).container t = none := by simp
  simp [unblocked, ListStore.insertEnd_eq hnone]

theorem unblocked_elems (l : StateList) : (k.unblocked t reason).stateL.elems l =
    if l = .ready (k.eff t) then (k.stateL.elems l).erase t ++ [t]
    else (k.stateL.elems l).erase t := by
  have hnone : (k.stateL.remove t).container t = none := by simp
  simp only [unblocked, ListStore.insertEnd_eq hnone, ListStore.link_elems, update_apply,
    ListStore.remove_elems]
  split <;> simp_all

theorem unblocked_blocked :
    (k.unblocked t reason).Blocked t' ↔ t' ≠ t ∧ k.Blocked t' := by
  unfold Blocked
  rw [unblocked_container]
  by_cases ht : t' = t
  · simp [ht, StateList.isBlocked]
  · simp [ht]

/-- **Unblocking a blocked task keeps the invariant.** -/
theorem SInv.unblocked (h : SInv cfg k) (hb : k.Blocked t) :
    SInv cfg (k.unblocked t reason) := by
  obtain ⟨i, rfl, hi⟩ := h.blocked_user hb
  have hidle : Tid.idle ≠ .user i := by simp
  refine ⟨?_, ?_, h.count_le, ?_, ?_, ?_, h.cur_lt, ?_, ?_, ?_, ?_, ?_, ?_, ?_, ?_, h.roles⟩
  · rw [unblocked_container, update_of_ne hidle]
    exact h.idle_state
  · rw [unblocked_eventL, ListStore.remove_container, update_of_ne hidle]
    exact h.idle_event
  · intro j
    rw [unblocked_tcb]
    have hj := h.slot j
    split
    · simp_all
    · exact hj
  · intro j hj
    rw [unblocked_tcb]
    have hcj := h.created j hj
    split
    · simp_all
    · exact hcj
  · intro j hj
    rw [unblocked_container] at hj
    by_cases hji : j = i
    · rw [hji]
      exact hi
    · rw [update_of_ne (by simpa using hji)] at hj
      exact h.linked_lt j hj
  · intro j hj hnone
    rw [unblocked_container] at hnone
    by_cases hji : j = i
    · simp [hji] at hnone
    · rw [update_of_ne (by simpa using hji)] at hnone
      exact h.unlinked_cur j hj hnone
  · intro u q hu
    rw [unblocked_container] at hu
    rw [unblocked_eff]
    by_cases hui : u = .user i
    · subst hui
      simpa using hu
    · rw [update_of_ne hui] at hu
      exact h.ready_prio u q hu
  · intro u
    rw [unblocked_priority, unblocked_eff]
    exact h.prio_le u
  · intro u
    rw [unblocked_eff]
    exact h.eff_lt u
  · refine BitmapOk.insertEnd (BitmapOk.congr h.bitmap fun p => ?_) (h.eff_lt_32 _) (by simp)
    exact ListStore.remove_elems_of_ne (not_ready_of_blocked hb p)
  · intro u hu
    rw [unblocked_eventL, ListStore.remove_container] at hu
    by_cases hui : u = .user i
    · simp [hui] at hu
    · rw [update_of_ne hui] at hu
      exact unblocked_blocked reason |>.mpr ⟨hui, h.event_blocked u hu⟩
  · intro u hu
    rw [unblocked_eventL, ListStore.remove_container] at hu
    rw [unblocked_eff]
    by_cases hui : u = .user i
    · simp [hui] at hu
    · rw [update_of_ne hui] at hu
      exact h.event_value u hu
  · intro l
    exact (h.event_ordered l).remove _

end Unblocked

/-! ## Blocking -/

/-- The list in which a task with this wake tick is parked. -/
def parkList (k : Sched) (wakeTick : ℕ) (infinite : Bool) : StateList :=
  if infinite then .suspend
  else if wakeTick < k.ticks then k.nextDelayed else k.curDelayed

/-- The state lists after a task has been parked. -/
def parked (k : Sched) (t : Tid) (wakeTick : ℕ) (infinite : Bool) :
    ListStore StateList Tid :=
  if infinite then (k.stateL.setValue t wakeTick).insertEnd .suspend t
  else (k.stateL.setValue t wakeTick).insertSorted (k.parkList wakeTick infinite) t

/-- The event lists after a task has joined a wait list. -/
def enrolled (k : Sched) (t : Tid) : Option EventList → ListStore EventList Tid
  | none => k.eventL
  | some l => (k.eventL.setValue t (k.eff t)).insertReversedSorted l t

/-- The effect of `rtos_block_current_task` on the current task. -/
def blockedOn (k : Sched) (t : Tid) (wakeTick : ℕ) (waitObj : Option EventList)
    (infinite : Bool) : Sched :=
  { k with stateL := k.parked t wakeTick infinite, eventL := k.enrolled t waitObj }

/-- The current task can block: it is a created user task in no list. -/
structure CanBlock (k : Sched) (t : Tid) : Prop where
  cur : k.curTask = some t
  ne_idle : t ≠ .idle
  state : k.stateL.container t = none
  event : k.eventL.container t = none
  owned : (k.tcb t).owned = true

/-- A task that waits for an object is another one. -/
theorem CanBlock.ne_waiting {u : Tid} {l : EventList} (h : k.CanBlock t)
    (hu : k.eventL.container u = some l) : u ≠ t := by
  rintro rfl
  rw [h.event] at hu
  simp at hu

/-- **`rtos_block_current_task` in closed form.** -/
theorem rtosBlockCurrentTask_eq (h : k.CanBlock t) (wakeTick : ℕ)
    (waitObj : Option EventList) (infinite : Bool) :
    k.rtosBlockCurrentTask wakeTick waitObj infinite =
      k.blockedOn t wakeTick waitObj infinite := by
  have hassert : t ≠ .idle ∧ k.stateL.container t = none ∧ k.eventL.container t = none :=
    ⟨h.ne_idle, h.state, h.event⟩
  have hstate := h.state
  have hevent := h.event
  have howned := h.owned
  unfold rtosBlockCurrentTask
  rw [h.cur]
  simp only
  rw [artosAssert_of k hassert, if_neg (by simpa using hstate)]
  unfold blockedOn parked parkList
  cases infinite with
  | true =>
      cases waitObj <;>
        simp [stateInsertEnd, eventInsertReversedSorted, enrolled, hstate, hevent, howned]
  | false =>
      by_cases hw : wakeTick < k.ticks
      · cases waitObj <;>
          simp [stateInsertSorted, eventInsertReversedSorted, enrolled, hstate, hevent,
            howned, hw]
      · cases waitObj <;>
          simp [stateInsertSorted, eventInsertReversedSorted, enrolled, hstate, hevent,
            howned, hw]

section BlockedOn

variable (wakeTick : ℕ) (waitObj : Option EventList) (infinite : Bool)

@[simp] theorem blockedOn_tcb : (k.blockedOn t wakeTick waitObj infinite).tcb = k.tcb := rfl
@[simp] theorem blockedOn_curTask :
    (k.blockedOn t wakeTick waitObj infinite).curTask = k.curTask := rfl
@[simp] theorem blockedOn_ticks :
    (k.blockedOn t wakeTick waitObj infinite).ticks = k.ticks := rfl
@[simp] theorem blockedOn_taskCount :
    (k.blockedOn t wakeTick waitObj infinite).taskCount = k.taskCount := rfl
@[simp] theorem blockedOn_curDelayed :
    (k.blockedOn t wakeTick waitObj infinite).curDelayed = k.curDelayed := rfl
@[simp] theorem blockedOn_nextDelayed :
    (k.blockedOn t wakeTick waitObj infinite).nextDelayed = k.nextDelayed := rfl
@[simp] theorem blockedOn_failure :
    (k.blockedOn t wakeTick waitObj infinite).failure = k.failure := rfl

theorem parkList_isBlocked (h : SInv cfg k) :
    (k.parkList wakeTick infinite).isBlocked = true := by
  unfold parkList
  split
  · rfl
  · split
    · exact h.nextDelayed_isBlocked
    · exact h.curDelayed_isBlocked

theorem parkList_ne_ready (h : SInv cfg k) : k.parkList wakeTick infinite ≠ .ready p := by
  intro he
  have hb := parkList_isBlocked wakeTick infinite h
  rw [he] at hb
  simp [StateList.isBlocked] at hb

/-- Parking puts the state item into the list chosen by the wake tick. -/
theorem parked_container (ht : k.stateL.container t = none) :
    (k.parked t wakeTick infinite).container =
      update k.stateL.container t (some (k.parkList wakeTick infinite)) := by
  have hnone : (k.stateL.setValue t wakeTick).container t = none := ht
  unfold parked
  split
  · rename_i hinf
    simp [ListStore.insertEnd_eq hnone, parkList, hinf]
  · rw [ListStore.insertSorted_eq hnone]
    rfl

theorem parked_value : (k.parked t wakeTick infinite).value =
    update k.stateL.value t wakeTick := by
  unfold parked
  split <;> simp

theorem parked_elems_of_ne (ht : k.stateL.container t = none) {l : StateList}
    (hl : l ≠ k.parkList wakeTick infinite) :
    (k.parked t wakeTick infinite).elems l = k.stateL.elems l := by
  have hnone : (k.stateL.setValue t wakeTick).container t = none := ht
  unfold parked
  split
  · rename_i hinf
    have hl' : l ≠ .suspend := by simpa [parkList, hinf] using hl
    simp [ListStore.insertEnd_eq hnone, update_of_ne hl']
  · rw [ListStore.insertSorted_eq hnone, ListStore.link_elems, update_of_ne hl]
    rfl

theorem enrolled_container (ht : k.eventL.container t = none) :
    (k.enrolled t waitObj).container = match waitObj with
      | none => k.eventL.container
      | some l => update k.eventL.container t (some l) := by
  cases waitObj with
  | none => rfl
  | some l =>
      have hnone : (k.eventL.setValue t (k.eff t)).container t = none := ht
      simp [enrolled, ListStore.insertReversedSorted_eq hnone]

theorem blockedOn_blocked (h : SInv cfg k) (ht : k.stateL.container t = none) :
    (k.blockedOn t wakeTick waitObj infinite).Blocked t' ↔ t' = t ∨ k.Blocked t' := by
  unfold Blocked blockedOn
  rw [parked_container wakeTick infinite ht]
  by_cases htt : t' = t
  · simp [htt, parkList_isBlocked wakeTick infinite h]
  · simp [htt]

/-- **Blocking the current task keeps the invariant.** -/
theorem SInv.blockedOn (h : SInv cfg k) (hc : k.CanBlock t) :
    SInv cfg (k.blockedOn t wakeTick waitObj infinite) := by
  obtain ⟨i, rfl⟩ : ∃ i, t = .user i := by
    cases t with
    | idle => exact absurd rfl hc.ne_idle
    | user i => exact ⟨i, rfl⟩
  have hi := h.cur_lt i hc.cur
  have hidle : Tid.idle ≠ .user i := by simp
  have hstate := parked_container wakeTick infinite hc.state
  have hevent := enrolled_container waitObj hc.event
  refine ⟨?_, ?_, h.count_le, h.slot, h.created, ?_, h.cur_lt, ?_, ?_, h.prio_le, h.eff_lt,
    ?_, ?_, ?_, ?_, h.roles⟩
  · show (k.parked _ _ _).container _ = none
    rw [hstate, update_of_ne hidle]
    exact h.idle_state
  · show (k.enrolled _ _).container _ = none
    rw [hevent]
    cases waitObj with
    | none => exact h.idle_event
    | some l =>
        simp only [update_of_ne hidle]
        exact h.idle_event
  · intro j hj
    change (k.parked _ _ _).container _ ≠ none at hj
    rw [hstate] at hj
    by_cases hji : j = i
    · rw [hji]
      exact hi
    · rw [update_of_ne (by simpa using hji)] at hj
      exact h.linked_lt j hj
  · intro j hj hnone
    change (k.parked _ _ _).container _ = none at hnone
    rw [hstate] at hnone
    by_cases hji : j = i
    · simp [hji] at hnone
    · rw [update_of_ne (by simpa using hji)] at hnone
      exact h.unlinked_cur j hj hnone
  · intro u q hu
    change (k.parked _ _ _).container _ = _ at hu
    rw [hstate] at hu
    by_cases hui : u = .user i
    · rw [hui, update_self, Option.some.injEq] at hu
      exact absurd hu (parkList_ne_ready wakeTick infinite h)
    · rw [update_of_ne hui] at hu
      exact h.ready_prio u q hu
  · refine BitmapOk.congr h.bitmap fun p => ?_
    exact parked_elems_of_ne wakeTick infinite hc.state
      (Ne.symm (parkList_ne_ready wakeTick infinite h))
  · intro u hu
    rw [blockedOn_blocked wakeTick waitObj infinite h hc.state]
    by_cases hui : u = .user i
    · exact Or.inl hui
    · refine Or.inr (h.event_blocked u ?_)
      change (k.enrolled _ _).container u ≠ none at hu
      rw [hevent] at hu
      cases waitObj with
      | none => exact hu
      | some l => simpa [update_of_ne hui] using hu
  · intro u hu
    change (k.enrolled _ _).container u ≠ none at hu
    show (k.enrolled _ _).value u = k.eff u
    rw [hevent] at hu
    cases waitObj with
    | none => exact h.event_value u hu
    | some l =>
        by_cases hui : u = .user i
        · simp [enrolled, hui]
        · simp only [update_of_ne hui] at hu
          simpa [enrolled, update_of_ne hui] using h.event_value u hu
  · intro l
    show ListStore.Ordered _ (k.enrolled _ _) l
    cases waitObj with
    | none => exact h.event_ordered l
    | some l' =>
        refine ((h.event_ordered l).setValue ?_ _).insertReversedSorted l' hc.event
        rw [hc.event]
        simp

end BlockedOn

/-! ## Changing an effective priority -/

/-- The task is in the ready list of its effective priority. -/
def IsReady (k : Sched) (t : Tid) : Prop := k.stateL.container t = some (.ready (k.eff t))

instance (k : Sched) (t : Tid) : Decidable (k.IsReady t) := by
  unfold IsReady
  infer_instance

/-- The effect of `rtos_set_effective_priority` when it changes the priority: the
task moves to the other ready list if it is ready, and is sorted again into the
event list it waits in. -/
def withEff (k : Sched) (t : Tid) (p : ℕ) : Sched :=
  { k with
    tcb := update k.tcb t { k.tcb t with effectivePriority := p }
    stateL :=
      if k.IsReady t then (k.stateL.remove t).insertEnd (.ready p) t else k.stateL
    readyBitmap :=
      if k.IsReady t then
        (if ((k.stateL.remove t).elems (.ready (k.eff t))).length = 0 then
          k.readyBitmap &&& ~~~(bit (k.eff t))
        else k.readyBitmap) ||| bit p
      else k.readyBitmap
    eventL := match k.eventL.container t with
      | none => k.eventL
      | some l => ((k.eventL.remove t).setValue t p).insertReversedSorted l t }

/-- **`rtos_set_effective_priority` in closed form.** -/
theorem rtosSetEffectivePriority_eq (h : SInv cfg k) (hbase : (k.tcb t).priority ≤ p)
    (hp : p < cfg.priorityCount) :
    k.rtosSetEffectivePriority cfg t p =
      if k.eff t = p then (k, false) else (k.withEff t p, true) := by
  have heff := h.eff_lt t
  have hprio := h.prio_le t
  have hassert : (k.tcb t).priority < cfg.priorityCount ∧ k.eff t < cfg.priorityCount ∧
      p < cfg.priorityCount ∧ p ≥ (k.tcb t).priority := ⟨by omega, heff, hp, hbase⟩
  unfold rtosSetEffectivePriority
  rw [artosAssert_of k hassert]
  by_cases he : k.eff t = p
  · simp [he]
  · have hnot : ¬ (k.eff t = p ∨ (k.tcb t).priority > p ∨ p ≥ cfg.priorityCount) := by
      omega
    rw [if_neg hnot, if_neg he]
    have hrem : k.stateL.container t ≠ none →
        k.stateRemove t = { k with stateL := k.stateL.remove t } := by
      intro hc
      simp [stateRemove, hc]
    by_cases hr : k.IsReady t
    · have hc : k.stateL.container t ≠ none := by
        rw [hr]
        simp
      have ho := h.owned_of_linked hc
      have hr' : k.stateL.container t = some (.ready (k.eff t)) := hr
      rcases hev : k.eventL.container t with _ | l
      · simp only [hr', hrem hc, decide_true, if_true, withEff, hr, hev, ne_eq,
          not_true_eq_false, if_false]
        by_cases hl : ((k.stateL.remove t).elems (.ready (k.eff t))).length = 0
        · rw [if_pos hl, if_pos hl, rtosInsertReadyList_eq]
          · simp [setTcb, eff]
          · simpa [setTcb, eff] using hp
          · simp [setTcb]
          · simpa [setTcb] using ho
        · rw [if_neg hl, if_neg hl, rtosInsertReadyList_eq]
          · simp [setTcb, eff]
          · simpa [setTcb, eff] using hp
          · simp [setTcb]
          · simpa [setTcb] using ho
      · -- a ready task waits in no event list
        exact absurd hr' (not_ready_of_blocked (h.event_blocked t (by rw [hev]; simp)) _)
    · have hr' : k.stateL.container t ≠ some (.ready (k.eff t)) := hr
      rcases hev : k.eventL.container t with _ | l
      · simp [hr', withEff, hr, hev, setTcb]
      · have ho := h.owned_of_blocked (h.event_blocked t (by rw [hev]; simp))
        simp [hr', withEff, hr, hev, setTcb, eventRemove, eventInsertReversedSorted, ho]

section WithEff

@[simp] theorem withEff_curTask : (k.withEff t p).curTask = k.curTask := rfl
@[simp] theorem withEff_ticks : (k.withEff t p).ticks = k.ticks := rfl
@[simp] theorem withEff_taskCount : (k.withEff t p).taskCount = k.taskCount := rfl
@[simp] theorem withEff_curDelayed : (k.withEff t p).curDelayed = k.curDelayed := rfl
@[simp] theorem withEff_nextDelayed : (k.withEff t p).nextDelayed = k.nextDelayed := rfl
@[simp] theorem withEff_failure : (k.withEff t p).failure = k.failure := rfl

/-- Only the effective priority of the task changes. -/
theorem withEff_tcb : (k.withEff t p).tcb t' =
    if t' = t then { k.tcb t with effectivePriority := p } else k.tcb t' := by
  simp [withEff, update_apply]

theorem withEff_eff : (k.withEff t p).eff t' = if t' = t then p else k.eff t' := by
  unfold eff
  rw [withEff_tcb]
  split <;> rfl

@[simp] theorem withEff_priority :
    ((k.withEff t p).tcb t').priority = (k.tcb t').priority := by
  rw [withEff_tcb]
  split <;> simp_all

@[simp] theorem withEff_mutexesHeld :
    ((k.withEff t p).tcb t').mutexesHeld = (k.tcb t').mutexesHeld := by
  rw [withEff_tcb]
  split <;> simp_all

@[simp] theorem withEff_waitReason :
    ((k.withEff t p).tcb t').waitReason = (k.tcb t').waitReason := by
  rw [withEff_tcb]
  split <;> simp_all

theorem withEff_container : (k.withEff t p).stateL.container =
    if k.IsReady t then update k.stateL.container t (some (.ready p))
    else k.stateL.container := by
  unfold withEff
  split
  · have hnone : (k.stateL.remove t).container t = none := by simp
    simp [ListStore.insertEnd_eq hnone]
  · rfl

@[simp] theorem withEff_value : (k.withEff t p).stateL.value = k.stateL.value := by
  unfold withEff
  split <;> simp

/-- A change of priority moves no event item to another list. -/
@[simp] theorem withEff_eventContainer :
    (k.withEff t p).eventL.container = k.eventL.container := by
  unfold withEff
  rcases hev : k.eventL.container t with _ | l
  · rfl
  · have hnone : ((k.eventL.remove t).setValue t p).container t = none := by simp
    simp only [ListStore.insertReversedSorted_eq hnone, ListStore.link_container,
      ListStore.setValue_container, ListStore.remove_container, update_idem]
    rw [← hev]
    exact update_eq_self t k.eventL.container

theorem withEff_blocked :
    (k.withEff t p).Blocked t' ↔ k.Blocked t' := by
  by_cases hr : k.IsReady t
  · unfold Blocked
    rw [withEff_container, if_pos hr]
    by_cases htt : t' = t
    · subst htt
      have hr' : k.stateL.container t' = some (.ready (k.eff t')) := hr
      simp [hr', StateList.isBlocked]
    · simp [htt]
  · apply blocked_congr
    rw [withEff_container, if_neg hr]

/-- The event lists after a change of priority of a waiting task. -/
theorem withEff_eventL_of_waiting {l : EventList} (hl : k.eventL.container t = some l) :
    (k.withEff t p).eventL =
      ((k.eventL.remove t).setValue t p).insertReversedSorted l t := by
  simp [withEff, hl]

/-- A task that waits in no event list leaves the event lists alone. -/
theorem withEff_eventL_of_none (hl : k.eventL.container t = none) :
    (k.withEff t p).eventL = k.eventL := by
  simp [withEff, hl]

/-- **A change of effective priority keeps the invariant.** -/
theorem SInv.withEff (h : SInv cfg k) (hbase : (k.tcb t).priority ≤ p)
    (hp : p < cfg.priorityCount) : SInv cfg (k.withEff t p) := by
  have hlinked : ∀ u, (k.withEff t p).stateL.container u = none ↔
      k.stateL.container u = none := by
    intro u
    rw [withEff_container]
    split
    · rename_i hr
      have hr' : k.stateL.container t = some (.ready (k.eff t)) := hr
      by_cases hut : u = t
      · simp [hut, hr']
      · simp [hut]
    · rfl
  refine ⟨?_, ?_, h.count_le, ?_, ?_, ?_, h.cur_lt, ?_, ?_, ?_, ?_, ?_, ?_, ?_, ?_, h.roles⟩
  · rw [hlinked]
    exact h.idle_state
  · rw [withEff_eventContainer]
    exact h.idle_event
  · intro j
    rw [withEff_tcb]
    have hj := h.slot j
    split
    · simp_all
    · exact hj
  · intro j hj
    rw [withEff_tcb]
    have hcj := h.created j hj
    split
    · simp_all
    · exact hcj
  · intro j hj
    rw [ne_eq, hlinked] at hj
    exact h.linked_lt j hj
  · intro j hj hnone
    rw [hlinked] at hnone
    exact h.unlinked_cur j hj hnone
  · intro u q hu
    rw [withEff_container] at hu
    rw [withEff_eff]
    by_cases hut : u = t
    · subst hut
      rw [if_pos rfl]
      by_cases hr : k.IsReady u
      · simpa [hr] using hu
      · rw [if_neg hr] at hu
        have hq := h.ready_prio u q hu
        exact absurd (hq ▸ hu : k.stateL.container u = some (.ready (k.eff u))) hr
    · rw [if_neg hut]
      refine h.ready_prio u q ?_
      split at hu
      · rwa [update_of_ne hut] at hu
      · exact hu
  · intro u
    rw [withEff_priority, withEff_eff]
    split
    · rename_i hut
      rw [hut]
      exact hbase
    · exact h.prio_le u
  · intro u
    rw [withEff_eff]
    split
    · exact hp
    · exact h.eff_lt u
  · have hp32 : p < 32 := lt_of_lt_of_le hp cfg.priorityCount_le
    by_cases hr : k.IsReady t
    · have hr' : k.stateL.container t = some (.ready (k.eff t)) := hr
      simp only [Sched.withEff, hr, if_true]
      exact (h.bitmap.remove (h.eff_lt_32 t) hr').insertEnd hp32 (by simp)
    · simp only [Sched.withEff, hr, if_false]
      exact h.bitmap
  · intro u hu
    rw [withEff_eventContainer] at hu
    rw [withEff_blocked]
    exact h.event_blocked u hu
  · intro u hu
    rw [withEff_eventContainer] at hu
    rw [withEff_eff]
    rcases hev : k.eventL.container t with _ | l
    · have hut : u ≠ t := fun he => hu (he ▸ hev)
      rw [withEff_eventL_of_none hev, if_neg hut]
      exact h.event_value u hu
    · rw [withEff_eventL_of_waiting hev]
      by_cases hut : u = t
      · simp [hut]
      · simpa [hut] using h.event_value u hu
  · intro l'
    rcases hev : k.eventL.container t with _ | l
    · rw [withEff_eventL_of_none hev]
      exact h.event_ordered l'
    · rw [withEff_eventL_of_waiting hev]
      have hnone : (k.eventL.remove t).container t = none := by simp
      refine (((h.event_ordered l').remove t).setValue ?_ p).insertReversedSorted l hnone
      rw [hnone]
      simp

end WithEff

/-! ## Changes of a control block alone -/

/-- **A change of a control block that keeps its identity and priorities keeps the
invariant.** -/
theorem SInv.setTcb (h : SInv cfg k) (t : Tid) (f : Tcb → Tcb)
    (hsp : t ≠ .idle → ((f (k.tcb t)).stackPointer ≠ 0 ↔ (k.tcb t).stackPointer ≠ 0))
    (howned : (f (k.tcb t)).owned = (k.tcb t).owned)
    (hentry : (f (k.tcb t)).entry = (k.tcb t).entry)
    (hprio : (f (k.tcb t)).priority = (k.tcb t).priority)
    (heff : (f (k.tcb t)).effectivePriority = (k.tcb t).effectivePriority) :
    SInv cfg (k.setTcb t f) := by
  have htcb : ∀ u, (k.setTcb t f).tcb u = if u = t then f (k.tcb t) else k.tcb u := by
    intro u
    simp [Sched.setTcb, update_apply]
  have heff' : ∀ u, (k.setTcb t f).eff u = k.eff u := by
    intro u
    unfold eff
    rw [htcb]
    split
    · rename_i hu
      rw [hu, heff]
    · rfl
  refine ⟨h.idle_state, h.idle_event, h.count_le, ?_, ?_, h.linked_lt, h.cur_lt,
    h.unlinked_cur, ?_, ?_, ?_, h.bitmap, h.event_blocked, ?_, h.event_ordered, h.roles⟩
  · intro i
    rw [htcb]
    split
    · rename_i hi
      rw [hsp (by simp [← hi]), ← hi]
      exact h.slot i
    · exact h.slot i
  · intro i hi
    rw [htcb]
    split
    · rename_i hti
      rw [howned, hentry, ← hti]
      exact h.created i hi
    · exact h.created i hi
  · intro u p hu
    rw [heff']
    exact h.ready_prio u p hu
  · intro u
    rw [heff', htcb]
    split
    · rename_i hu
      rw [hprio, ← hu]
      exact h.prio_le u
    · exact h.prio_le u
  · intro u
    rw [heff']
    exact h.eff_lt u
  · intro u hu
    rw [heff']
    exact h.event_value u hu

/-- Recording a failure touches nothing else. -/
theorem SInv.recordFailure (h : SInv cfg k) (f : Failure) : SInv cfg (k.recordFailure f) :=
  ⟨h.idle_state, h.idle_event, h.count_le, h.slot, h.created, h.linked_lt, h.cur_lt,
    h.unlinked_cur, h.ready_prio, h.prio_le, h.eff_lt, h.bitmap, h.event_blocked,
    h.event_value, h.event_ordered, h.roles⟩

end Sched

end Artos
