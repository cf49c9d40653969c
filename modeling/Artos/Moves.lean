/-
# The scheduler as a machine of elementary moves

Every function of the kernel changes the scheduler by a sequence of elementary
moves, each with a closed form proved in the previous modules.  This module names
them (`Action`, `Move`), shows that each keeps the invariants (`SInv.move`,
`DelayInv.move`, `Settled.move`), and projects them to a single task:

* `View` : the fields by which the other modules know a task;
* `View.after` : what an action does to the view of a task;
* `Move.view` : the projection is exact.

The objects' invariants are about views; only the service order, the preemption law
and the delays look at the lists themselves.
-/
import Artos.Delays

open Function

namespace Artos

open Sched

/-! ## Two changes of a control block -/

/-- The task with another count of held mutexes. -/
def Sched.withHeld (k : Sched) (t : Tid) (n : ℕ) : Sched :=
  k.setTcb t fun c => { c with mutexesHeld := n }

/-- The task with its wait reason cleared. -/
def Sched.cleared (k : Sched) (t : Tid) : Sched :=
  k.setTcb t fun c => { c with waitReason := .noReason }

theorem withHeld_tcb {k : Sched} {t u : Tid} {n : ℕ} : (k.withHeld t n).tcb u =
    if u = t then { k.tcb t with mutexesHeld := n } else k.tcb u := by
  simp [withHeld, setTcb, update_apply]

theorem cleared_tcb {k : Sched} {t u : Tid} : (k.cleared t).tcb u =
    if u = t then { k.tcb t with waitReason := .noReason } else k.tcb u := by
  simp [cleared, setTcb, update_apply]

theorem withHeld_eff {k : Sched} {t u : Tid} (n : ℕ) : (k.withHeld u n).eff t = k.eff t := by
  unfold Sched.eff
  rw [withHeld_tcb]
  split
  · rename_i htu
    rw [htu]
  · rfl

theorem withHeld_priority {k : Sched} {t u : Tid} (n : ℕ) :
    ((k.withHeld u n).tcb t).priority = (k.tcb t).priority := by
  rw [withHeld_tcb]
  split
  · rename_i htu
    rw [htu]
  · rfl

theorem cleared_mutexesHeld {k : Sched} {t u : Tid} :
    ((k.cleared u).tcb t).mutexesHeld = (k.tcb t).mutexesHeld := by
  rw [cleared_tcb]
  split
  · rename_i htu
    rw [htu]
  · rfl

theorem cleared_priority {k : Sched} {t u : Tid} :
    ((k.cleared u).tcb t).priority = (k.tcb t).priority := by
  rw [cleared_tcb]
  split
  · rename_i htu
    rw [htu]
  · rfl

theorem cleared_eff {k : Sched} {t u : Tid} : (k.cleared u).eff t = k.eff t := by
  unfold Sched.eff
  rw [cleared_tcb]
  split
  · rename_i htu
    rw [htu]
  · rfl

/-! ## Actions and moves -/

/-- The name of an elementary move, with the data later modules refer to. -/
inductive Action where
  /-- The pool slot `i` receives a task of priority `p`. -/
  | create (i p : ℕ)
  | save (t : Tid) (sp : ℕ)
  | requeue (t : Tid)
  | dispatch (t : Tid)
  | fail (f : Failure)
  | block (t : Tid) (wakeTick : ℕ) (waitObj : Option EventList) (infinite : Bool)
  /-- The head `t` of the list `l` is unblocked as signaled. -/
  | wake (l : EventList) (t : Tid)
  /-- The head `t` of the current delayed list is unblocked as timed out. -/
  | expire (t : Tid)
  | advance
  | setEff (t : Tid) (p : ℕ)
  | held (t : Tid) (n : ℕ)
  | clear (t : Tid)

/-- **An elementary move of the scheduler.** -/
inductive Move (cfg : Config) : Sched → Action → Sched → Prop
  | create {k : Sched} {entry argument stack stackWordCount p : ℕ} (hentry : entry ≠ 0)
      (hprio : p < cfg.priorityCount) (hwords : artosMinStackWords ≤ stackWordCount)
      (hlt : k.taskCount < cfg.maxTasks) :
      Move cfg k (.create k.taskCount p)
        (k.withTask entry argument stack stackWordCount p)
  | save {k : Sched} {cur : Tid} {sp : ℕ} (hcur : k.curTask = some cur) (hsp : sp ≠ 0) :
      Move cfg k (.save cur sp) (k.saved cur sp)
  | requeue {k : Sched} {cur : Tid} (hcur : k.curTask = some cur) :
      Move cfg k (.requeue cur) (k.requeued cur)
  | dispatch {k : Sched} {t : Tid} {p : ℕ} (hall : k.AllLinked) (htop : k.IsTop t p) :
      Move cfg k (.dispatch t) (k.dispatched t p)
  | dispatchIdle {k : Sched} (hall : k.AllLinked)
      (hnone : ∀ p, k.stateL.elems (.ready p) = []) :
      Move cfg k (.dispatch .idle) { k with curTask := some .idle }
  | fail {k : Sched} {f : Failure} : Move cfg k (.fail f) (k.recordFailure f)
  | block {k : Sched} {t : Tid} {wakeTick : ℕ} {waitObj : Option EventList}
      {infinite : Bool} (hc : k.CanBlock t)
      (hw : infinite = false → wakeTick < 4294967296 ∧ wakeTick ≠ k.ticks) :
      Move cfg k (.block t wakeTick waitObj infinite)
        (k.blockedOn t wakeTick waitObj infinite)
  | wake {k : Sched} {l : EventList} {t : Tid} {rest : List Tid}
      (hl : k.eventL.elems l = t :: rest) : Move cfg k (.wake l t) (k.unblocked t .signaled)
  | expire {k : Sched} {t : Tid} {rest : List Tid}
      (hl : k.stateL.elems k.curDelayed = t :: rest) (hdue : k.stateL.value t ≤ k.ticks) :
      Move cfg k (.expire t) (k.unblocked t .timedOut)
  | advance {k : Sched} (hset : k.Settled) : Move cfg k .advance k.advanced
  | setEff {k : Sched} {t : Tid} {p : ℕ} (hbase : (k.tcb t).priority ≤ p)
      (hp : p < cfg.priorityCount) (hne : k.eff t ≠ p) :
      Move cfg k (.setEff t p) (k.withEff t p)
  | held {k : Sched} {t : Tid} {n : ℕ} :
      Move cfg k (.held t n) (k.withHeld t n)
  | clear {k : Sched} {t : Tid} (hcur : k.curTask = some t) :
      Move cfg k (.clear t) (k.cleared t)

/-- A sequence of moves. -/
abbrev Moves (cfg : Config) (k : Sched) (acts : List Action) (k' : Sched) : Prop :=
  Runs.Exec (Move cfg) k acts k'

variable {cfg : Config} {k k' : Sched} {a : Action} {acts : List Action} {t u : Tid}

/-- The head of an event list is blocked. -/
theorem Sched.SInv.head_blocked (h : SInv cfg k) {l : EventList} {rest : List Tid}
    (hl : k.eventL.elems l = t :: rest) : k.Blocked t :=
  h.event_blocked t (by rw [ListStore.container_of_head hl]; simp)

/-- No waiting task has a higher priority than the head of its list. -/
theorem Sched.SInv.eff_le_head (h : SInv cfg k) {l : EventList} {rest : List Tid}
    (hl : k.eventL.elems l = t :: rest) (hu : k.eventL.container u = some l) :
    k.eff u ≤ k.eff t := by
  have hord := h.event_ordered l
  have hmem := (k.eventL.mem_elems l u).mpr hu
  have ht := ListStore.container_of_head hl
  unfold ListStore.Ordered at hord
  rw [hl] at hord hmem
  rcases List.mem_cons.mp hmem with rfl | hrest
  · exact le_rfl
  · have hle := (List.pairwise_cons.mp hord).1 u hrest
    rw [h.event_value t (by rw [ht]; simp), h.event_value u (by rw [hu]; simp)] at hle
    omega

/-- The head of the current delayed list is blocked. -/
theorem Sched.SInv.delayed_blocked (h : SInv cfg k) {rest : List Tid}
    (hl : k.stateL.elems k.curDelayed = t :: rest) : k.Blocked t :=
  ⟨_, ListStore.container_of_head hl, h.curDelayed_isBlocked⟩

/-! ## The moves keep the invariants -/

/-- **Every move keeps the scheduler invariant.** -/
theorem Sched.SInv.move (h : SInv cfg k) (hm : Move cfg k a k') : SInv cfg k' := by
  cases hm with
  | create hentry hprio hwords hlt => exact h.withTask _ _ _ _ _ hentry hprio hwords hlt
  | save hcur hsp => exact h.saved hcur hsp
  | requeue hcur => exact h.requeued hcur
  | dispatch hall htop => exact h.dispatched hall htop.container
  | dispatchIdle hall hnone => exact h.dispatchIdle hall
  | fail => exact h.recordFailure _
  | block hc hw => exact h.blockedOn _ _ _ hc
  | wake hl => exact h.unblocked _ (h.head_blocked hl)
  | expire hl hdue => exact h.unblocked _ (h.delayed_blocked hl)
  | advance hset => exact h.advanced
  | setEff hbase hp hne => exact h.withEff hbase hp
  | held => exact h.setTcb _ _ (fun _ => Iff.rfl) rfl rfl rfl rfl
  | clear hcur => exact h.setTcb _ _ (fun _ => Iff.rfl) rfl rfl rfl rfl

/-- **Every move keeps the delay invariant.** -/
theorem Sched.DelayInv.move (h : DelayInv k) (hs : SInv cfg k) (hm : Move cfg k a k') :
    DelayInv k' := by
  cases hm with
  | create hentry hprio hwords hlt => exact h.withTask hs _ _ _ _ _
  | save hcur hsp => exact h.congr rfl rfl rfl rfl
  | requeue hcur => exact h.requeued hs _
  | dispatch hall htop => exact h.dispatched
  | dispatchIdle hall hnone => exact h.congr rfl rfl rfl rfl
  | fail => exact h.congr rfl rfl rfl rfl
  | block hc hw => exact h.blockedOn hs hc.state _ fun hinf => (hw hinf).1
  | wake hl => exact h.unblocked hs _
  | expire hl hdue => exact h.unblocked hs _
  | advance hset => exact h.advanced hset
  | setEff hbase hp hne => exact h.withEff hs
  | held => exact h.congr rfl rfl rfl rfl
  | clear hcur => exact h.congr rfl rfl rfl rfl

/-- Every sequence of moves keeps both invariants. -/
theorem Sched.SInv.moves (h : SInv cfg k) (hd : DelayInv k) (hm : Moves cfg k acts k') :
    SInv cfg k' ∧ DelayInv k' :=
  hm.invariant (I := fun k => SInv cfg k ∧ DelayInv k)
    (fun _ _ _ hI hmove => ⟨hI.1.move hmove, hI.2.move hI.1 hmove⟩) ⟨h, hd⟩

/-! ## The list items under a move -/

/-- Only an advance changes the tick. -/
theorem Move.ticks (hm : Move cfg k a k') (ha : a ≠ .advance) : k'.ticks = k.ticks := by
  cases hm with
  | requeue hcur =>
      unfold requeued
      split <;> rfl
  | advance hset => exact absurd rfl ha
  | _ => rfl

/-- Only an advance exchanges the delayed lists. -/
theorem Move.curDelayed (hm : Move cfg k a k') (ha : a ≠ .advance) :
    k'.curDelayed = k.curDelayed ∧ k'.nextDelayed = k.nextDelayed := by
  cases hm with
  | requeue hcur =>
      unfold requeued
      split <;> exact ⟨rfl, rfl⟩
  | advance hset => exact absurd rfl ha
  | _ => exact ⟨rfl, rfl⟩

/-- **What a move does to the state item of a task**: it is taken out, or it stays
where it is with its key and its stamp, or it is linked anew, with the present
clock as its stamp. -/
theorem Move.state_item (h : SInv cfg k) (hm : Move cfg k a k') (t : Tid) :
    k'.stateL.container t = none ∨
    (k'.stateL.container t = k.stateL.container t ∧ k'.stateL.value t = k.stateL.value t ∧
      k'.stateL.stamp t = k.stateL.stamp t) ∨
    (k'.stateL.stamp t = k.stateL.clock ∧
      ((∃ p, k'.stateL.container t = some (.ready p)) ∨
        ∃ w obj inf, a = .block t w obj inf ∧ k.stateL.container t = none ∧
          k'.stateL.container t = some (k.parkList w inf) ∧ k'.stateL.value t = w)) := by
  have hready : ∀ (u : Tid) (q : ℕ), 
      ((k.stateL.remove u).insertEnd (.ready q) u).container t = none ∨
      (((k.stateL.remove u).insertEnd (.ready q) u).container t = k.stateL.container t ∧
        ((k.stateL.remove u).insertEnd (.ready q) u).value t = k.stateL.value t ∧
        ((k.stateL.remove u).insertEnd (.ready q) u).stamp t = k.stateL.stamp t) ∨
      (((k.stateL.remove u).insertEnd (.ready q) u).stamp t = k.stateL.clock ∧
        ∃ p, ((k.stateL.remove u).insertEnd (.ready q) u).container t = some (.ready p)) := by
    intro u q
    have hnone : (k.stateL.remove u).container u = none := by simp
    rw [ListStore.insertEnd_eq hnone]
    by_cases htu : t = u
    · exact Or.inr (Or.inr (by simp [htu]))
    · exact Or.inr (Or.inl (by simp [htu]))
  have hkeep : ∀ {k₁ : Sched}, k₁.stateL = k.stateL →
      k₁.stateL.container t = k.stateL.container t ∧
        k₁.stateL.value t = k.stateL.value t ∧ k₁.stateL.stamp t = k.stateL.stamp t := by
    intro k₁ he
    rw [he]
    exact ⟨rfl, rfl, rfl⟩
  cases hm with
  | @create entry argument stack n p hentry hprio hwords hlt =>
      have hnone : (k.stateL.setValue (.user k.taskCount) 0).container (.user k.taskCount) =
          none := h.new_unlinked
      by_cases ht : t = .user k.taskCount
      · refine Or.inr (Or.inr ⟨?_, Or.inl ⟨p, ?_⟩⟩)
        · simp [withTask, rtosInitTcb, ListStore.insertEnd_eq hnone, ht]
        · rw [withTask_container _ _ _ _ _ h, ht, update_self]
      · refine Or.inr (Or.inl ⟨?_, ?_, ?_⟩)
        · rw [withTask_container _ _ _ _ _ h, update_of_ne ht]
        · simp [withTask, rtosInitTcb, ht]
        · simp [withTask, rtosInitTcb, ListStore.insertEnd_eq hnone, ht]
  | save hcur hsp => exact Or.inr (Or.inl (hkeep rfl))
  | @requeue cur hcur =>
      unfold requeued
      split
      · rename_i hc
        simp only [ListStore.insertEnd_eq hc.2]
        by_cases htc : t = cur
        · exact Or.inr (Or.inr (by simp [htc]))
        · exact Or.inr (Or.inl (by simp [htc]))
      · exact Or.inr (Or.inl (hkeep rfl))
  | @dispatch u p hall htop =>
      by_cases htu : t = u
      · exact Or.inl (by simp [dispatched, popReady, htu])
      · exact Or.inr (Or.inl (by simp [dispatched, popReady, htu]))
  | dispatchIdle hall hnone => exact Or.inr (Or.inl (hkeep rfl))
  | fail => exact Or.inr (Or.inl (hkeep rfl))
  | @block u w obj inf hc hw =>
      have hcont := parked_container w inf hc.state
      have hval := parked_value (k := k) (t := u) w inf
      have hnone : (k.stateL.setValue u w).container u = none := hc.state
      have hstamp : (k.parked u w inf).stamp = update k.stateL.stamp u k.stateL.clock := by
        unfold parked
        split
        · rw [ListStore.insertEnd_eq hnone]
          rfl
        · rw [ListStore.insertSorted_eq hnone]
          rfl
      by_cases htu : t = u
      · subst htu
        refine Or.inr (Or.inr ⟨?_, Or.inr ⟨w, obj, inf, rfl, hc.state, ?_, ?_⟩⟩)
        · exact (congrFun hstamp t).trans (update_self _ _ _)
        · exact (congrFun hcont t).trans (update_self _ _ _)
        · exact (congrFun hval t).trans (update_self _ _ _)
      · refine Or.inr (Or.inl ⟨?_, ?_, ?_⟩)
        · exact (congrFun hcont t).trans (update_of_ne htu _ _)
        · exact (congrFun hval t).trans (update_of_ne htu _ _)
        · exact (congrFun hstamp t).trans (update_of_ne htu _ _)
  | @wake l u rest hl =>
      rcases hready u (k.eff u) with hr | hr | ⟨hr, hp⟩
      · exact Or.inl hr
      · exact Or.inr (Or.inl hr)
      · exact Or.inr (Or.inr ⟨hr, Or.inl hp⟩)
  | @expire u rest hl hdue =>
      rcases hready u (k.eff u) with hr | hr | ⟨hr, hp⟩
      · exact Or.inl hr
      · exact Or.inr (Or.inl hr)
      · exact Or.inr (Or.inr ⟨hr, Or.inl hp⟩)
  | advance hset => exact Or.inr (Or.inl (hkeep advanced_stateL))
  | @setEff u p hbase hp hne =>
      by_cases hr : k.IsReady u
      · have hst : (k.withEff u p).stateL = (k.stateL.remove u).insertEnd (.ready p) u := by
          simp [withEff, hr]
        rw [hst]
        rcases hready u p with hr | hr | ⟨hr, hp⟩
        · exact Or.inl hr
        · exact Or.inr (Or.inl hr)
        · exact Or.inr (Or.inr ⟨hr, Or.inl hp⟩)
      · exact Or.inr (Or.inl (hkeep (by simp [withEff, hr])))
  | held => exact Or.inr (Or.inl (hkeep rfl))
  | clear hcur => exact Or.inr (Or.inl (hkeep rfl))

/-- **What a move does to the event item of a task**: it is taken out, or it stays
where it is with its stamp at the same priority, or it is linked anew, with the
present clock as its stamp: because the task blocks, or because its priority
changes. -/
theorem Move.event_item (h : SInv cfg k) (hm : Move cfg k a k') (t : Tid) :
    k'.eventL.container t = none ∨
    (k'.eventL.container t = k.eventL.container t ∧ k'.eff t = k.eff t ∧
      k'.eventL.stamp t = k.eventL.stamp t) ∨
    (k'.eventL.stamp t = k.eventL.clock ∧
      ((∃ w l inf, a = .block t w (some l) inf ∧ k.eventL.container t = none ∧
          k'.eventL.container t = some l ∧ k'.eff t = k.eff t) ∨
        ∃ p, a = .setEff t p ∧ k'.eventL.container t = k.eventL.container t ∧
          k.eff t ≠ p ∧ k'.eff t = p)) := by
  have hkeep : ∀ {k₁ : Sched}, k₁.eventL = k.eventL → k₁.eff t = k.eff t →
      k₁.eventL.container t = k.eventL.container t ∧ k₁.eff t = k.eff t ∧
        k₁.eventL.stamp t = k.eventL.stamp t := by
    intro k₁ he hf
    rw [he]
    exact ⟨rfl, hf, rfl⟩
  have htcb : ∀ (u : Tid) (f : Tcb → Tcb),
      (f (k.tcb u)).effectivePriority = (k.tcb u).effectivePriority →
      (k.setTcb u f).eff t = k.eff t := by
    intro u f hf
    by_cases htu : t = u
    · simp [eff, setTcb, htu, hf]
    · simp [eff, setTcb, htu]
  have hremove : ∀ (u : Tid), (k.eventL.remove u).container t = none ∨
      ((k.eventL.remove u).container t = k.eventL.container t ∧
        (k.eventL.remove u).stamp t = k.eventL.stamp t) := by
    intro u
    by_cases htu : t = u
    · exact Or.inl (by simp [htu])
    · exact Or.inr (by simp [htu])
  cases hm with
  | @create entry argument stack n p hentry hprio hwords hlt =>
      by_cases ht : t = .user k.taskCount
      · left
        rw [withTask_eventL, ListStore.setValue_container, ht]
        by_contra hc
        obtain ⟨l, hl, -⟩ := h.event_blocked _ hc
        rw [h.new_unlinked] at hl
        simp at hl
      · refine Or.inr (Or.inl ⟨rfl, ?_, rfl⟩)
        unfold eff
        rw [withTask_tcb_of_ne _ _ _ _ _ ht]
  | save hcur hsp => exact Or.inr (Or.inl (hkeep rfl (htcb _ _ rfl)))
  | @requeue cur hcur =>
      refine Or.inr (Or.inl ?_)
      unfold requeued
      split
      · exact hkeep rfl rfl
      · exact hkeep rfl rfl
  | dispatch hall htop => exact Or.inr (Or.inl (hkeep rfl rfl))
  | dispatchIdle hall hnone => exact Or.inr (Or.inl (hkeep rfl rfl))
  | fail => exact Or.inr (Or.inl (hkeep rfl rfl))
  | @block u w obj inf hc hw =>
      cases obj with
      | none => exact Or.inr (Or.inl (hkeep rfl rfl))
      | some l =>
          have hnone : (k.eventL.setValue u (k.eff u)).container u = none := hc.event
          have hev : (k.blockedOn u w (some l) inf).eventL =
              (k.eventL.setValue u (k.eff u)).insertReversedSorted l u := rfl
          rw [hev, ListStore.insertReversedSorted_eq hnone]
          by_cases htu : t = u
          · subst htu
            exact Or.inr (Or.inr ⟨by simp, Or.inl ⟨w, l, inf, rfl, hc.event, by simp, rfl⟩⟩)
          · exact Or.inr (Or.inl ⟨by simp [htu], rfl, by simp [htu]⟩)
  | @wake l u rest hl =>
      rcases hremove u with hr | ⟨hr, hs⟩
      · exact Or.inl hr
      · exact Or.inr (Or.inl ⟨hr, unblocked_eff _, hs⟩)
  | @expire u rest hl hdue =>
      rcases hremove u with hr | ⟨hr, hs⟩
      · exact Or.inl hr
      · exact Or.inr (Or.inl ⟨hr, unblocked_eff _, hs⟩)
  | advance hset =>
      refine Or.inr (Or.inl (hkeep advanced_eventL ?_))
      simp [eff]
  | @setEff u p hbase hp hne =>
      have hc : (k.withEff u p).eventL.container t = k.eventL.container t := by
        rw [withEff_eventContainer]
      rcases hev : k.eventL.container u with _ | l
      · have heq := withEff_eventL_of_none (p := p) hev
        by_cases htu : t = u
        · exact Or.inl (by rw [heq, htu, hev])
        · exact Or.inr (Or.inl (hkeep heq (by rw [withEff_eff, if_neg htu])))
      · have heq := withEff_eventL_of_waiting (p := p) hev
        have hnone : ((k.eventL.remove u).setValue u p).container u = none := by simp
        by_cases htu : t = u
        · subst htu
          refine Or.inr (Or.inr ⟨?_, Or.inr ⟨p, rfl, hc, hne, ?_⟩⟩)
          · rw [heq, ListStore.insertReversedSorted_eq hnone]
            simp
          · rw [withEff_eff, if_pos rfl]
        · refine Or.inr (Or.inl ⟨hc, by rw [withEff_eff, if_neg htu], ?_⟩)
          rw [heq, ListStore.insertReversedSorted_eq hnone]
          simp [htu]
  | held => exact Or.inr (Or.inl (hkeep rfl (htcb _ _ rfl)))
  | clear hcur => exact Or.inr (Or.inl (hkeep rfl (htcb _ _ rfl)))

/-- **The clocks never go back.** -/
theorem Move.clock_le (hm : Move cfg k a k') :
    k.stateL.clock ≤ k'.stateL.clock ∧ k.eventL.clock ≤ k'.eventL.clock := by
  have hready : ∀ (u : Tid) (q : ℕ),
      k.stateL.clock ≤ ((k.stateL.remove u).insertEnd (.ready q) u).clock := fun u q =>
    ListStore.clock_le_insertEnd (k.stateL.remove u) (.ready q) u
  have hsame : ∀ {k₁ : Sched}, k₁.stateL = k.stateL → k₁.eventL = k.eventL →
      k.stateL.clock ≤ k₁.stateL.clock ∧ k.eventL.clock ≤ k₁.eventL.clock := by
    intro k₁ hs he
    rw [hs, he]
    exact ⟨le_rfl, le_rfl⟩
  cases hm with
  | create hentry hprio hwords hlt =>
      exact ⟨ListStore.clock_le_insertEnd (k.stateL.setValue _ _) _ _, le_rfl⟩
  | requeue hcur =>
      unfold requeued
      split
      · exact ⟨ListStore.clock_le_insertEnd _ _ _, le_rfl⟩
      · exact ⟨le_rfl, le_rfl⟩
  | dispatch hall htop => exact ⟨le_rfl, le_rfl⟩
  | @block u w obj inf hc hw =>
      constructor
      · have hnone : (k.stateL.setValue u w).container u = none := hc.state
        show _ ≤ (k.parked u w inf).clock
        unfold parked
        split
        · rw [ListStore.insertEnd_eq hnone]
          exact Nat.le_succ _
        · rw [ListStore.insertSorted_eq hnone]
          exact Nat.le_succ _
      · cases obj with
        | none => exact le_rfl
        | some l =>
            have hnone : (k.eventL.setValue u (k.eff u)).container u = none := hc.event
            show _ ≤ ((k.eventL.setValue u (k.eff u)).insertReversedSorted l u).clock
            rw [ListStore.insertReversedSorted_eq hnone]
            exact Nat.le_succ _
  | wake hl => exact ⟨hready _ _, le_rfl⟩
  | expire hl hdue => exact ⟨hready _ _, le_rfl⟩
  | advance hset => exact hsame advanced_stateL advanced_eventL
  | @setEff u p hbase hp hne =>
      constructor
      · unfold withEff
        split
        · exact hready _ _
        · exact le_rfl
      · rcases hev : k.eventL.container u with _ | l
        · rw [withEff_eventL_of_none hev]
        · have hnone : ((k.eventL.remove u).setValue u p).container u = none := by simp
          rw [withEff_eventL_of_waiting hev, ListStore.insertReversedSorted_eq hnone]
          exact Nat.le_succ _
  | _ => exact hsame rfl rfl

theorem Moves.clock_le (hm : Moves cfg k acts k') :
    k.stateL.clock ≤ k'.stateL.clock ∧ k.eventL.clock ≤ k'.eventL.clock := by
  induction hm with
  | nil => exact ⟨le_rfl, le_rfl⟩
  | snoc hm hmove ih =>
      have hle := hmove.clock_le
      omega

/-! ## The view of one task -/

/-- What the rest of the kernel knows of a task. -/
@[ext]
structure View where
  /-- The wait list that holds its event item. -/
  event : Option EventList
  /-- Its state item is in a list of blocked tasks. -/
  blocked : Bool
  reason : WaitReason
  base : ℕ
  eff : ℕ
  held : ℕ

/-- The view of a task in a state of the scheduler. -/
def Sched.view (k : Sched) (t : Tid) : View where
  event := k.eventL.container t
  blocked := k.inBlockedList t
  reason := (k.tcb t).waitReason
  base := (k.tcb t).priority
  eff := (k.tcb t).effectivePriority
  held := (k.tcb t).mutexesHeld

/-- **What an action does to the view of the task `t`.** -/
def View.after (t : Tid) (v : View) : Action → View
  | .create i p =>
      if t = .user i then { v with reason := .noReason, base := p, eff := p, held := 0 } else v
  | .block u _ obj _ => if t = u then { v with event := obj, blocked := true } else v
  | .wake l u =>
      if t = u ∧ v.event = some l then
        { v with event := none, blocked := false, reason := .signaled }
      else v
  | .expire u =>
      if t = u ∧ v.blocked = true then
        { v with event := none, blocked := false, reason := .timedOut }
      else v
  | .setEff u p => if t = u then { v with eff := p } else v
  | .held u n => if t = u then { v with held := n } else v
  | .clear u => if t = u then { v with reason := .noReason } else v
  | _ => v

/-- A task that waits in a list after some actions waited in it before, or has blocked
in it. -/
theorem View.foldl_event {acts : List Action} {v : View} {l : EventList}
    (he : (acts.foldl (View.after t) v).event = some l) :
    v.event = some l ∨ ∃ w inf, Action.block t w (some l) inf ∈ acts := by
  induction acts generalizing v with
  | nil => exact Or.inl he
  | cons a acts ih =>
      rcases ih he with hv | ⟨w, inf, hmem⟩
      · cases a with
        | block u w obj inf =>
            simp only [View.after] at hv
            split at hv
            · rename_i htu
              subst htu
              have hobj : obj = some l := hv
              exact Or.inr ⟨w, inf, by simp [hobj]⟩
            · exact Or.inl hv
        | create | wake | expire | setEff | held | clear =>
            simp only [View.after] at hv
            split at hv
            · first | exact Or.inl hv | simp at hv
            · exact Or.inl hv
        | _ => exact Or.inl hv
      · exact Or.inr ⟨w, inf, List.mem_cons_of_mem _ hmem⟩

theorem inBlockedList_congr (h : k'.Blocked t ↔ k.Blocked t) :
    k'.inBlockedList t = k.inBlockedList t := by
  rw [Bool.eq_iff_iff, inBlockedList_iff, inBlockedList_iff]
  exact h

/-- A move that leaves the lists, and the fields of the view, alone. -/
theorem view_of_tcb (f : Tcb → Tcb) :
    (k.setTcb u f).view t =
      if t = u then
        { event := k.eventL.container t, blocked := k.inBlockedList t,
          reason := (f (k.tcb u)).waitReason, base := (f (k.tcb u)).priority,
          eff := (f (k.tcb u)).effectivePriority, held := (f (k.tcb u)).mutexesHeld }
      else k.view t := by
  by_cases htu : t = u
  · subst htu
    simp [view, setTcb, inBlockedList]
  · simp [view, setTcb, inBlockedList, htu]

/-- The view of an unblocked task. -/
theorem view_unblocked (reason : WaitReason) :
    (k.unblocked u reason).view t =
      if t = u then { k.view t with event := none, blocked := false, reason := reason }
      else k.view t := by
  by_cases htu : t = u
  · subst htu
    ext1
    · simp [view]
    · simp only [view, if_true]
      rw [Bool.eq_false_iff, ne_eq, inBlockedList_iff, unblocked_blocked]
      simp
    all_goals simp [view, unblocked_tcb]
  · have hb : (k.unblocked u reason).inBlockedList t = k.inBlockedList t :=
      inBlockedList_congr (by simp [unblocked_blocked, htu])
    simp [view, unblocked_tcb, htu, hb]

/-- **The projection to one task is exact.** -/
theorem Move.view (h : SInv cfg k) (hm : Move cfg k a k') (t : Tid) :
    k'.view t = (k.view t).after t a := by
  cases hm with
  | @create entry argument stack n p hentry hprio hwords hlt =>
      have hb := inBlockedList_congr
        (withTask_blocked (t := t) entry argument stack n p h)
      by_cases ht : t = .user k.taskCount
      · subst ht
        ext1
        case blocked => exact hb.trans (by simp [Sched.view, View.after])
        all_goals simp [Sched.view, View.after, withTask, rtosInitTcb]
      · simp [Sched.view, View.after, hb, ht, withTask_tcb_of_ne _ _ _ _ _ ht]
  | save hcur hsp =>
      unfold saved
      rw [view_of_tcb]
      split
      · rename_i htc
        simp [Sched.view, View.after, htc]
      · rfl
  | @requeue cur hcur =>
      have hb := inBlockedList_congr (requeued_blocked (k := k) (t := t) cur)
      unfold requeued at hb ⊢
      split at hb
      · rename_i hc
        rw [if_pos hc]
        simp [Sched.view, View.after, hb]
      · rename_i hc
        rw [if_neg hc]
        simp [View.after]
  | @dispatch u p hall htop =>
      have hb : (k.dispatched u p).inBlockedList t = k.inBlockedList t := by
        refine inBlockedList_congr ?_
        unfold Blocked
        by_cases htu : t = u
        · simp [dispatched, popReady, htu, htop.container, StateList.isBlocked]
        · simp [dispatched, popReady, htu]
      simp only [Sched.view, View.after, hb]
      rfl
  | dispatchIdle hall hnone => rfl
  | fail => rfl
  | @block u w obj inf hc hw =>
      have hb : (k.blockedOn u w obj inf).Blocked t ↔ t = u ∨ k.Blocked t :=
        blockedOn_blocked w obj inf h hc.state
      by_cases htu : t = u
      · subst htu
        have hb' : (k.blockedOn t w obj inf).inBlockedList t = true :=
          inBlockedList_iff.mpr (hb.mpr (Or.inl rfl))
        have hev := congrFun (enrolled_container obj hc.event) t
        have hev' : (k.blockedOn t w obj inf).eventL.container t = obj := by
          show (k.enrolled t obj).container t = obj
          rw [hev]
          cases obj with
          | none => exact hc.event
          | some l => simp
        simp [Sched.view, View.after, hb', hev']
      · have hb' : (k.blockedOn u w obj inf).inBlockedList t = k.inBlockedList t :=
          inBlockedList_congr (by simp [hb, htu])
        have hev := congrFun (enrolled_container obj hc.event) t
        have hev' : (k.blockedOn u w obj inf).eventL.container t = k.eventL.container t := by
          show (k.enrolled u obj).container t = _
          rw [hev]
          cases obj with
          | none => rfl
          | some l => simp [htu]
        simp [Sched.view, View.after, hb', hev', htu]
  | @wake l u rest hl =>
      have hc := ListStore.container_of_head hl
      rw [view_unblocked]
      by_cases htu : t = u
      · subst htu
        simp [View.after, Sched.view, hc]
      · simp [View.after, htu]
  | @expire u rest hl hdue =>
      have hb := inBlockedList_iff.mpr (h.delayed_blocked hl)
      rw [view_unblocked]
      by_cases htu : t = u
      · subst htu
        simp [View.after, Sched.view, hb]
      · simp [View.after, htu]
  | advance hset =>
      have hb : k.advanced.inBlockedList t = k.inBlockedList t :=
        inBlockedList_congr (blocked_congr (by simp))
      simp [Sched.view, View.after, hb]
  | @setEff u p hbase hp hne =>
      have hb : (k.withEff u p).inBlockedList t = k.inBlockedList t :=
        inBlockedList_congr withEff_blocked
      by_cases htu : t = u
      · subst htu
        simp [Sched.view, View.after, hb, withEff_tcb]
      · simp [Sched.view, View.after, hb, withEff_tcb, htu]
  | @held u n =>
      unfold withHeld
      rw [view_of_tcb]
      by_cases htu : t = u
      · subst htu
        simp [Sched.view, View.after]
      · simp [View.after, htu]
  | @clear u hcur =>
      unfold cleared
      rw [view_of_tcb]
      by_cases htu : t = u
      · subst htu
        simp [Sched.view, View.after]
      · simp [View.after, htu]

/-- **The view after a sequence of moves.** -/
theorem Moves.view (h : SInv cfg k) (hd : DelayInv k) (hm : Moves cfg k acts k') (t : Tid) :
    k'.view t = acts.foldl (View.after t) (k.view t) := by
  induction hm with
  | nil => rfl
  | snoc hm hmove ih =>
      rw [List.foldl_append, ← ih]
      exact hmove.view (h.moves hd hm).1 t

/-! ## The tick handler as moves -/

/-- When the head of the current delayed list is not due, no task in it is. -/
theorem settled_of_head (h : DelayInv k) (hhead : headExpired k = false) : k.Settled := by
  intro t ht
  have hmem := (k.stateL.mem_elems _ _).mpr ht
  unfold headExpired at hhead
  have hord := h.cur_ordered
  unfold ListStore.Ordered at hord
  rcases hl : k.stateL.elems k.curDelayed with _ | ⟨u, rest⟩
  · rw [hl] at hmem
    simp at hmem
  · rw [hl] at hmem hord
    simp only [hl, decide_eq_false_iff_not, not_le] at hhead
    rcases List.mem_cons.mp hmem with rfl | hrest
    · exact hhead
    · have hle := (List.pairwise_cons.mp hord).1 t hrest
      omega

/-- One round of the expiry loop is an `expire` move, and shortens the list. -/
theorem expireHead_move (h : SInv cfg k) (hhead : headExpired k = true) :
    ∃ t, Move cfg k (.expire t) (expireHead cfg k) ∧
      ((expireHead cfg k).stateL.elems (expireHead cfg k).curDelayed).length <
        (k.stateL.elems k.curDelayed).length := by
  unfold headExpired at hhead
  rcases hl : k.stateL.elems k.curDelayed with _ | ⟨t, rest⟩
  · simp [hl] at hhead
  · simp only [hl, decide_eq_true_eq] at hhead
    have hb := h.delayed_blocked hl
    have hlink : k.itemLinked (.state t) = true := by
      simp [itemLinked, ListStore.container_of_head hl]
    have heq : expireHead cfg k = k.unblocked t .timedOut := by
      unfold expireHead
      simp only [hl]
      exact rtosUnblockTask_eq h hb rfl hlink _
    refine ⟨t, heq ▸ Move.expire hl hhead, ?_⟩
    rw [heq, unblocked_curDelayed, unblocked_elems, if_neg (h.curDelayed_ne_ready _), hl]
    simp

/-- **A tick is an advance followed by expiries**, after which no task is due.  In
particular its loops end. -/
theorem tick_moves (h : SInv cfg k) (hd : DelayInv k) (hset : k.Settled) :
    ∃ (k' : Sched) (ts : List Tid), k.rtosTickHandler cfg = some (k', k'.rtosCheckRunnableTask k'.curTask) ∧
      Moves cfg k (.advance :: ts.map .expire) k' ∧ k'.Settled := by
  have hadv : Moves cfg k [.advance] k.advanced := Runs.Exec.single (.advance hset)
  obtain ⟨hs₁, hd₁⟩ := h.moves hd hadv
  -- the loop invariant: so far only heads have expired
  have hbody : ∀ k₁, (∃ ts : List Tid, Moves cfg k.advanced (ts.map .expire) k₁) →
      headExpired k₁ = true →
      (∃ ts : List Tid, Moves cfg k.advanced (ts.map .expire) (expireHead cfg k₁)) ∧
        ((expireHead cfg k₁).stateL.elems (expireHead cfg k₁).curDelayed).length <
          (k₁.stateL.elems k₁.curDelayed).length := by
    rintro k₁ ⟨ts, hts⟩ hhead
    obtain ⟨t, hmove, hlt⟩ := expireHead_move (hs₁.moves hd₁ hts).1 hhead
    refine ⟨⟨ts ++ [t], ?_⟩, hlt⟩
    rw [List.map_append]
    exact Runs.Exec.snoc hts hmove
  obtain ⟨k', hloop, ⟨ts, hts⟩, hend⟩ := whileLoop_terminates
    (I := fun k' => ∃ ts : List Tid, Moves cfg k.advanced (ts.map .expire) k')
    (μ := fun k : Sched => (k.stateL.elems k.curDelayed).length)
    hbody ⟨[], Runs.Exec.nil⟩ le_rfl
  refine ⟨k', ts, ?_, ?_, settled_of_head (hs₁.moves hd₁ hts).2 hend⟩
  · rw [rtosTickHandler_eq hd hset]
    unfold expireDelayed
    rw [hloop]
    rfl
  · exact hadv.trans hts

/-- Every move but an advance leaves no task due if none was. -/
theorem Sched.Settled.move (hset : k.Settled) (h : SInv cfg k) (hm : Move cfg k a k')
    (ha : a ≠ .advance) : k'.Settled := by
  intro t ht
  rw [(hm.curDelayed ha).1] at ht
  rw [hm.ticks ha]
  rcases hm.state_item h t with hnone | ⟨hc, hv, -⟩ | ⟨-, ⟨p, hp⟩ | ⟨w, obj, inf, rfl, -, hc, hv⟩⟩
  · rw [hnone] at ht
    simp at ht
  · rw [hv]
    exact hset t (hc ▸ ht)
  · rw [hp, Option.some.injEq] at ht
    exact absurd ht.symm (h.curDelayed_ne_ready p)
  · -- a block with a wake tick other than the present one
    cases hm with
    | block hcan hw =>
        have hsettled := hset.blockedOn hcan.state h obj fun hinf => (hw hinf).2
        exact hsettled t ht

/-- No action of the sequence advances the tick. -/
def NoAdvance (acts : List Action) : Prop := .advance ∉ acts

/-- **Moves without an advance leave no task due.** -/
theorem Moves.settled (h : SInv cfg k) (hd : DelayInv k) (hset : k.Settled)
    (hm : Moves cfg k acts k') (ha : NoAdvance acts) : k'.Settled := by
  induction hm with
  | nil => exact hset
  | snoc hm hmove ih =>
      have ha' := List.mem_append.not.mp ha
      push Not at ha'
      refine (ih ha'.1).move (h.moves hd hm).1 hmove ?_
      rintro rfl
      exact ha'.2 (List.mem_singleton.mpr rfl)

end Artos
