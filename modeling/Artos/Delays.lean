/-
# The delayed lists

A task that blocks with a finite wake tick waits in one of two sorted lists: in
the current one if the wake tick lies ahead on the 32-bit tick, in the next one if
it lies behind it, to be reached after the wrap.  `DelayInv` relates the keys of
both lists to the tick; it is what makes the wrap a mere exchange of the two lists
(`advanced`, `swapDelayed_eq`).
-/
import Artos.Dispatch

open Function

namespace Artos

namespace Sched

variable {cfg : Config} {k : Sched} {t : Tid} {p : ℕ}

/-! ## The invariant of the delayed lists -/

/-- **The delay invariant.**  No current deadline is behind the tick, every next
deadline is, and both lists are sorted, equal deadlines in order of arrival. -/
structure DelayInv (k : Sched) : Prop where
  ticks_lt : k.ticks < 4294967296
  cur_ge : ∀ t, k.stateL.container t = some k.curDelayed → k.ticks ≤ k.stateL.value t
  cur_lt : ∀ t, k.stateL.container t = some k.curDelayed → k.stateL.value t < 4294967296
  next_lt : ∀ t, k.stateL.container t = some k.nextDelayed → k.stateL.value t < k.ticks
  cur_ordered : ListStore.Ordered (· < ·) k.stateL k.curDelayed
  next_ordered : ListStore.Ordered (· < ·) k.stateL k.nextDelayed

/-- No task in the current delayed list is due. -/
def Settled (k : Sched) : Prop :=
  ∀ t, k.stateL.container t = some k.curDelayed → k.ticks < k.stateL.value t

/-- The delay invariant only looks at the state lists and the tick. -/
theorem DelayInv.congr {k' : Sched} (h : DelayInv k) (hstate : k'.stateL = k.stateL)
    (hticks : k'.ticks = k.ticks) (hcur : k'.curDelayed = k.curDelayed)
    (hnext : k'.nextDelayed = k.nextDelayed) : DelayInv k' := by
  constructor
  · rw [hticks]
    exact h.ticks_lt
  · rw [hstate, hcur, hticks]
    exact h.cur_ge
  · rw [hstate, hcur]
    exact h.cur_lt
  · rw [hstate, hnext, hticks]
    exact h.next_lt
  · rw [hstate, hcur]
    exact h.cur_ordered
  · rw [hstate, hnext]
    exact h.next_ordered

/-- Changes among the ready lists, and new ready tasks, keep the delay invariant:
the delayed lists may only shrink. -/
theorem DelayInv.of_shrink {k' : Sched} (h : DelayInv k)
    (hticks : k'.ticks = k.ticks) (hcur : k'.curDelayed = k.curDelayed)
    (hnext : k'.nextDelayed = k.nextDelayed)
    (hcont : ∀ t, k'.stateL.container t = some k.curDelayed ∨
      k'.stateL.container t = some k.nextDelayed →
      k'.stateL.container t = k.stateL.container t ∧
        k'.stateL.value t = k.stateL.value t)
    (hord : ListStore.Ordered (· < ·) k'.stateL k.curDelayed)
    (hord' : ListStore.Ordered (· < ·) k'.stateL k.nextDelayed) : DelayInv k' := by
  refine ⟨?_, ?_, ?_, ?_, ?_, ?_⟩ <;> simp only [hticks, hcur, hnext]
  · exact h.ticks_lt
  · intro t ht
    obtain ⟨hc, hv⟩ := hcont t (Or.inl ht)
    rw [hv]
    exact h.cur_ge t (hc ▸ ht)
  · intro t ht
    obtain ⟨hc, hv⟩ := hcont t (Or.inl ht)
    rw [hv]
    exact h.cur_lt t (hc ▸ ht)
  · intro t ht
    obtain ⟨hc, hv⟩ := hcont t (Or.inr ht)
    rw [hv]
    exact h.next_lt t (hc ▸ ht)
  · exact hord
  · exact hord'

/-! ## What keeps it -/

/-- Moving a linked item to a ready list keeps the order of a delayed list. -/
theorem ordered_toReady {l : StateList} (h : ListStore.Ordered (· < ·) k.stateL l)
    (hl : l ≠ .ready p) :
    ListStore.Ordered (· < ·) ((k.stateL.remove t).insertEnd (.ready p) t) l :=
  (h.remove t).insertEnd_of_ne hl (by simp)

/-- Unblocking keeps the delay invariant. -/
theorem DelayInv.unblocked (h : DelayInv k) (hs : SInv cfg k) (reason : WaitReason) :
    DelayInv (k.unblocked t reason) := by
  refine h.of_shrink rfl rfl rfl (fun u hu => ?_)
    (ordered_toReady h.cur_ordered (hs.curDelayed_ne_ready _))
    (ordered_toReady h.next_ordered (hs.nextDelayed_ne_ready _))
  rw [unblocked_value]
  refine ⟨?_, rfl⟩
  rw [unblocked_container] at hu ⊢
  by_cases hut : u = t
  · -- the unblocked task is ready
    rw [hut, update_self] at hu
    rcases hu with hu | hu
    · exact absurd (Option.some.inj hu).symm (hs.curDelayed_ne_ready _)
    · exact absurd (Option.some.inj hu).symm (hs.nextDelayed_ne_ready _)
  · rw [update_of_ne hut]

/-- A change of priority keeps the delay invariant. -/
theorem DelayInv.withEff (h : DelayInv k) (hs : SInv cfg k) : DelayInv (k.withEff t p) := by
  by_cases hr : k.IsReady t
  · have hstate : (k.withEff t p).stateL = (k.stateL.remove t).insertEnd (.ready p) t := by
      simp [Sched.withEff, hr]
    refine h.of_shrink rfl rfl rfl (fun u hu => ?_) ?_ ?_
    · rw [withEff_value]
      refine ⟨?_, rfl⟩
      rw [withEff_container, if_pos hr] at hu ⊢
      by_cases hut : u = t
      · rw [hut, update_self] at hu
        rcases hu with hu | hu
        · exact absurd (Option.some.inj hu).symm (hs.curDelayed_ne_ready _)
        · exact absurd (Option.some.inj hu).symm (hs.nextDelayed_ne_ready _)
      · rw [update_of_ne hut]
    · rw [hstate]
      exact ordered_toReady h.cur_ordered (hs.curDelayed_ne_ready _)
    · rw [hstate]
      exact ordered_toReady h.next_ordered (hs.nextDelayed_ne_ready _)
  · exact h.congr (by simp [Sched.withEff, hr]) rfl rfl rfl

/-- **Blocking keeps the delay invariant**: the list is chosen by the side of the
tick on which the wake tick lies. -/
theorem DelayInv.blockedOn (h : DelayInv k) (hs : SInv cfg k)
    (hc : k.stateL.container t = none) {wakeTick : ℕ} (waitObj : Option EventList)
    {infinite : Bool} (hw : infinite = false → wakeTick < 4294967296) :
    DelayInv (k.blockedOn t wakeTick waitObj infinite) := by
  have hset : ∀ l, ListStore.Ordered (· < ·) k.stateL l →
      ListStore.Ordered (· < ·) (k.stateL.setValue t wakeTick) l := fun l hl =>
    hl.setValue (by rw [hc]; simp) wakeTick
  have hord : ∀ l, l ≠ .suspend → ListStore.Ordered (· < ·) k.stateL l →
      ListStore.Ordered (· < ·) (k.parked t wakeTick infinite) l := by
    intro l hne hl
    unfold parked
    cases infinite with
    | true => exact (hset l hl).insertEnd_of_ne hne hc
    | false => exact (hset l hl).insertSorted _ hc
  have hcont := parked_container wakeTick infinite hc
  have hpark : ∀ l, some (k.parkList wakeTick infinite) = some l → l ≠ .suspend →
      infinite = false ∧
        (if wakeTick < k.ticks then k.nextDelayed else k.curDelayed) = l := by
    intro l hl hne
    rw [Option.some.injEq] at hl
    unfold parkList at hl
    cases infinite with
    | true => exact absurd hl.symm hne
    | false => exact ⟨rfl, hl⟩
  have hne := hs.curDelayed_ne_nextDelayed
  refine ⟨h.ticks_lt, ?_, ?_, ?_, hord _ hs.curDelayed_ne_suspend h.cur_ordered,
    hord _ hs.nextDelayed_ne_suspend h.next_ordered⟩
  · intro u hu
    change (k.parked t wakeTick infinite).container u = some k.curDelayed at hu
    show k.ticks ≤ (k.parked t wakeTick infinite).value u
    rw [hcont] at hu
    rw [parked_value]
    by_cases hut : u = t
    · rw [hut, update_self] at hu ⊢
      have hlist := (hpark _ hu hs.curDelayed_ne_suspend).2
      by_cases hlt : wakeTick < k.ticks
      · rw [if_pos hlt] at hlist
        exact absurd hlist.symm hne
      · omega
    · rw [update_of_ne hut] at hu ⊢
      exact h.cur_ge u hu
  · intro u hu
    change (k.parked t wakeTick infinite).container u = some k.curDelayed at hu
    show (k.parked t wakeTick infinite).value u < _
    rw [hcont] at hu
    rw [parked_value]
    by_cases hut : u = t
    · rw [hut, update_self] at hu ⊢
      exact hw (hpark _ hu hs.curDelayed_ne_suspend).1
    · rw [update_of_ne hut] at hu ⊢
      exact h.cur_lt u hu
  · intro u hu
    change (k.parked t wakeTick infinite).container u = some k.nextDelayed at hu
    show (k.parked t wakeTick infinite).value u < k.ticks
    rw [hcont] at hu
    rw [parked_value]
    by_cases hut : u = t
    · rw [hut, update_self] at hu ⊢
      have hlist := (hpark _ hu hs.nextDelayed_ne_suspend).2
      by_cases hlt : wakeTick < k.ticks
      · exact hlt
      · rw [if_neg hlt] at hlist
        exact absurd hlist hne
    · rw [update_of_ne hut] at hu ⊢
      exact h.next_lt u hu

/-- A block whose wake tick is not the present tick leaves no due task. -/
theorem Settled.blockedOn (h : Settled k) (hc : k.stateL.container t = none)
    (hs : SInv cfg k) {wakeTick : ℕ} (waitObj : Option EventList) {infinite : Bool}
    (hw : infinite = false → wakeTick ≠ k.ticks) :
    Settled (k.blockedOn t wakeTick waitObj infinite) := by
  intro u hu
  change (k.parked t wakeTick infinite).container u = some k.curDelayed at hu
  show k.ticks < (k.parked t wakeTick infinite).value u
  rw [parked_container wakeTick infinite hc] at hu
  rw [parked_value]
  by_cases hut : u = t
  · rw [hut, update_self, Option.some.injEq] at hu
    rw [hut, update_self]
    unfold parkList at hu
    cases infinite with
    | true => exact absurd hu.symm hs.curDelayed_ne_suspend
    | false =>
        have hwt := hw rfl
        by_cases hlt : wakeTick < k.ticks
        · simp only [Bool.false_eq_true, if_false, hlt, if_true] at hu
          exact absurd hu.symm hs.curDelayed_ne_nextDelayed
        · omega
  · rw [update_of_ne hut] at hu ⊢
    exact h u hu

/-- Requeueing the outgoing task keeps the delay invariant. -/
theorem DelayInv.requeued (h : DelayInv k) (hs : SInv cfg k) (cur : Tid) :
    DelayInv (k.requeued cur) := by
  by_cases hc : cur ≠ .idle ∧ k.stateL.container cur = none
  · have hrec : k.requeued cur = { k with
        stateL := k.stateL.insertEnd (.ready (k.eff cur)) cur
        readyBitmap := k.readyBitmap ||| bit (k.eff cur) } := if_pos hc
    rw [hrec]
    refine h.of_shrink rfl rfl rfl (fun u hu => ?_)
      (h.cur_ordered.insertEnd_of_ne (hs.curDelayed_ne_ready _) hc.2)
      (h.next_ordered.insertEnd_of_ne (hs.nextDelayed_ne_ready _) hc.2)
    simp only [ListStore.insertEnd_value, and_true]
    simp only [ListStore.insertEnd_eq hc.2, ListStore.link_container] at hu ⊢
    by_cases huc : u = cur
    · rw [huc, update_self] at hu
      rcases hu with hu | hu
      · exact absurd (Option.some.inj hu).symm (hs.curDelayed_ne_ready _)
      · exact absurd (Option.some.inj hu).symm (hs.nextDelayed_ne_ready _)
    · rw [update_of_ne huc]
  · unfold Sched.requeued
    rw [if_neg hc]
    exact h

/-- Dispatching keeps the delay invariant. -/
theorem DelayInv.dispatched (h : DelayInv k) : DelayInv (k.dispatched t p) := by
  refine h.of_shrink rfl rfl rfl (fun u hu => ?_) (h.cur_ordered.remove t)
    (h.next_ordered.remove t)
  refine ⟨?_, rfl⟩
  change update k.stateL.container t none u = _ ∨ update k.stateL.container t none u = _ at hu
  show update k.stateL.container t none u = _
  by_cases hut : u = t
  · rw [hut, update_self] at hu
    simp at hu
  · rw [update_of_ne hut]

/-- Creating a task keeps the delay invariant. -/
theorem DelayInv.withTask (h : DelayInv k) (hs : SInv cfg k)
    (entry argument stack stackWordCount priority : ℕ) :
    DelayInv (k.withTask entry argument stack stackWordCount priority) := by
  have hnone : (k.stateL.setValue (.user k.taskCount) 0).container (.user k.taskCount) =
      none := hs.new_unlinked
  have hord : ∀ l, l ≠ .ready priority → ListStore.Ordered (· < ·) k.stateL l →
      ListStore.Ordered (· < ·)
        (k.withTask entry argument stack stackWordCount priority).stateL l := by
    intro l hl hord
    exact (hord.setValue (by rw [hs.new_unlinked]; simp) 0).insertEnd_of_ne hl hnone
  refine h.of_shrink rfl rfl rfl (fun u hu => ?_)
    (hord _ (hs.curDelayed_ne_ready _) h.cur_ordered)
    (hord _ (hs.nextDelayed_ne_ready _) h.next_ordered)
  rw [withTask_container _ _ _ _ _ hs] at hu ⊢
  have hut : u ≠ .user k.taskCount := by
    rintro rfl
    rw [update_self] at hu
    rcases hu with hu | hu
    · exact absurd (Option.some.inj hu).symm (hs.curDelayed_ne_ready _)
    · exact absurd (Option.some.inj hu).symm (hs.nextDelayed_ne_ready _)
  refine ⟨update_of_ne hut _ _, ?_⟩
  simp [Sched.withTask, rtosInitTcb, update_of_ne hut]

/-- The initial state satisfies the delay invariant. -/
theorem delayInv_rtosSystemInit : DelayInv rtosSystemInit := by
  have hnone : ∀ t, rtosSystemInit.stateL.container t = none := fun _ => rfl
  refine ⟨by decide, ?_, ?_, ?_, ?_, ?_⟩
  · intro t ht
    rw [hnone] at ht
    simp at ht
  · intro t ht
    rw [hnone] at ht
    simp at ht
  · intro t ht
    rw [hnone] at ht
    simp at ht
  · exact ListStore.ordered_empty.setValue (by simp [ListStore.empty]) 0
  · exact ListStore.ordered_empty.setValue (by simp [ListStore.empty]) 0

/-! ## The advance of the tick -/

/-- The effect of a tick before any task expires: at the wrap the delayed lists
exchange their roles. -/
def advanced (k : Sched) : Sched :=
  if u32 (k.ticks + 1) = 0 then
    { k with ticks := 0, curDelayed := k.nextDelayed, nextDelayed := k.curDelayed }
  else { k with ticks := u32 (k.ticks + 1) }

/-- **At the wrap the current delayed list is empty.** -/
theorem Settled.elems_nil (hset : Settled k) (h : DelayInv k) (hw : u32 (k.ticks + 1) = 0) :
    k.stateL.elems k.curDelayed = [] := by
  rw [List.eq_nil_iff_forall_not_mem]
  intro t ht
  have hc := ListStore.container_of_mem ht
  have h1 := hset t hc
  have h2 := h.cur_lt t hc
  have h3 := h.ticks_lt
  unfold u32 at hw
  omega

/-- **The exchange at the wrap drops no task**: its fallback loop does not run. -/
theorem swapDelayed_eq (hnil : k.stateL.elems k.curDelayed = []) :
    k.swapDelayed = some { k with curDelayed := k.nextDelayed, nextDelayed := k.curDelayed } := by
  unfold swapDelayed
  rw [whileLoop_of_not (by simp [curDelayedNonempty, hnil])]
  rfl

/-- The advance of the tick keeps the scheduler invariant. -/
theorem SInv.advanced (h : SInv cfg k) : SInv cfg k.advanced := by
  unfold Sched.advanced
  split
  · exact ⟨h.idle_state, h.idle_event, h.count_le, h.slot, h.created, h.linked_lt, h.cur_lt,
      h.unlinked_cur, h.ready_prio, h.prio_le, h.eff_lt, h.bitmap, h.event_blocked,
      h.event_value, h.event_ordered, h.roles.symm.imp And.symm And.symm⟩
  · exact ⟨h.idle_state, h.idle_event, h.count_le, h.slot, h.created, h.linked_lt, h.cur_lt,
      h.unlinked_cur, h.ready_prio, h.prio_le, h.eff_lt, h.bitmap, h.event_blocked,
      h.event_value, h.event_ordered, h.roles⟩

/-- The tick after the advance. -/
theorem advanced_ticks (k : Sched) : k.advanced.ticks = u32 (k.ticks + 1) := by
  unfold advanced
  split
  · rename_i h
    exact h.symm
  · rfl

@[simp] theorem advanced_stateL : k.advanced.stateL = k.stateL := by
  unfold advanced
  split <;> rfl

@[simp] theorem advanced_eventL : k.advanced.eventL = k.eventL := by
  unfold advanced
  split <;> rfl

@[simp] theorem advanced_tcb : k.advanced.tcb = k.tcb := by
  unfold advanced
  split <;> rfl

@[simp] theorem advanced_curTask : k.advanced.curTask = k.curTask := by
  unfold advanced
  split <;> rfl

@[simp] theorem advanced_taskCount : k.advanced.taskCount = k.taskCount := by
  unfold advanced
  split <;> rfl

@[simp] theorem advanced_failure : k.advanced.failure = k.failure := by
  unfold advanced
  split <;> rfl

/-- **The advance of the tick keeps the delay invariant**, when no task was due
before it. -/
theorem DelayInv.advanced (h : DelayInv k) (hset : Settled k) : DelayInv k.advanced := by
  have hlt := h.ticks_lt
  unfold Sched.advanced
  split
  · rename_i hw
    have hnil := hset.elems_nil h hw
    have hnone : ∀ t, k.stateL.container t ≠ some k.curDelayed := by
      intro t ht
      rw [← k.stateL.mem_elems, hnil] at ht
      simp at ht
    refine ⟨by simp, fun t _ => Nat.zero_le _, fun t ht => ?_, fun t ht => absurd ht (hnone t),
      h.next_ordered, h.cur_ordered⟩
    have hv := h.next_lt t ht
    show k.stateL.value t < _
    omega
  · rename_i hw
    have hsucc : u32 (k.ticks + 1) = k.ticks + 1 := by
      unfold u32 at hw ⊢
      omega
    refine ⟨?_, fun t ht => ?_, h.cur_lt, fun t ht => ?_, h.cur_ordered, h.next_ordered⟩
    · show u32 (k.ticks + 1) < _
      unfold u32
      omega
    · have hv := hset t ht
      show u32 (k.ticks + 1) ≤ k.stateL.value t
      omega
    · have hv := h.next_lt t ht
      show k.stateL.value t < u32 (k.ticks + 1)
      omega

/-- **`rtos_tick_handler` is the advance of the tick and the expiry loop.** -/
theorem rtosTickHandler_eq (h : DelayInv k) (hset : Settled k) :
    k.rtosTickHandler cfg =
      (expireDelayed cfg k.advanced).map fun k' => (k', rtosCheckRunnableTask k' k'.curTask) := by
  rw [Option.map_eq_bind]
  unfold rtosTickHandler Sched.advanced
  by_cases hw : u32 (k.ticks + 1) = 0
  · have hnil := hset.elems_nil h hw
    simp only [hw, if_true]
    rw [swapDelayed_eq (k := { k with ticks := 0 }) hnil]
    rfl
  · simp only [hw, if_false]
    rfl

end Sched

end Artos
