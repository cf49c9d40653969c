/-
# The bitmap and the plain scan

A reference scheduler that keeps no bitmap and no list for each priority, only one list of
the ready tasks, in the order in which they became ready at their present priority.  It runs
beside the kernel: a task that becomes ready is appended, a ready task whose priority changes
moves to the end, and a switch appends the outgoing task and then removes the first task of
maximal priority, found by a plain scan (`Flat.after`, `Flat.select`).

* `Flattens.move` : every action of the kernel keeps the ready lists the parts of the flat list;
* `selection_is_scan` : in every run `rtos_scheduler_select_next` selects what the scan selects.
-/
import Artos.Buckets
import Artos.RoundRobin

open Function Buckets

namespace Artos

open Sched

variable {cfg : Config} {k k' : Sched} {a : Action} {acts : List Action} {t u : Tid}
  {F F' : List Tid} {s s' s₀ : Sys} {tr : List Label}

/-! ## The reference scheduler -/

/-- **The outgoing task is appended** if it is a user task that is not blocked and not already
ready. -/
def Flat.requeue (k : Sched) (F : List Tid) (cur : Tid) : List Tid :=
  if cur ≠ .idle ∧ k.inBlockedList cur = false ∧ cur ∉ F then F ++ [cur] else F

/-- **The first task of maximal effective priority is removed.** -/
def Flat.pop (k : Sched) (F : List Tid) : List Tid :=
  match firstMax k.eff F with
  | none => F
  | some t => F.erase t

/-- The reference scheduler at an action of the kernel. -/
def Flat.after (k : Sched) (F : List Tid) : Action → List Tid
  | .create i _ => F ++ [.user i]
  | .wake _ t => F ++ [t]
  | .expire t => F ++ [t]
  | .setEff t _ => if t ∈ F then F.erase t ++ [t] else F
  | .requeue t => Flat.requeue k F t
  | .dispatch _ => Flat.pop k F
  | _ => F

/-- **The reference scheduler at a switch**: the next task, the idle task if none is ready,
and the list it leaves. -/
def Flat.select (k : Sched) (F : List Tid) (cur : Tid) : Tid × List Tid :=
  ((firstMax k.eff (Flat.requeue k F cur)).getD .idle, Flat.pop k (Flat.requeue k F cur))

/-- The ready lists are the parts of the flat list. -/
def FlatReady (k : Sched) (F : List Tid) : Prop :=
  Flattens k.eff F fun p => k.stateL.elems (.ready p)

/-! ## One action -/

theorem FlatReady.mem_iff (h : FlatReady k F) :
    t ∈ F ↔ k.stateL.container t = some (.ready (k.eff t)) := by
  rw [Flattens.mem_iff h, ListStore.mem_elems]

theorem FlatReady.notMem (h : FlatReady k F) (ht : ∀ p, k.stateL.container t ≠ some (.ready p)) :
    t ∉ F := fun hmem => ht _ (h.mem_iff.mp hmem)

theorem saved_eff {cur : Tid} {sp : ℕ} : (k.saved cur sp).eff t = k.eff t := by
  unfold eff
  simp only [saved, setTcb, update_apply]
  split
  · rename_i htu
    rw [htu]
  · rfl

/-- An item linked at the end of a list. -/
theorem insertEnd_elems_ready {st : ListStore StateList Tid} {q : ℕ} (p : ℕ)
    (ht : st.container t = none) : (st.insertEnd (.ready q) t).elems (.ready p) =
      if p = q then st.elems (.ready p) ++ [t] else st.elems (.ready p) := by
  rw [ListStore.insertEnd_eq ht, ListStore.link_elems]
  by_cases hp : p = q
  · rw [hp, update_self, if_pos rfl]
  · rw [update_of_ne (by simpa using hp), if_neg hp]

/-- **A blocked task becomes ready.** -/
theorem FlatReady.unblocked (h : FlatReady k F) (hb : k.Blocked t) (reason : WaitReason) :
    FlatReady (k.unblocked t reason) (F ++ [t]) := by
  refine Flattens.append h (fun u _ => unblocked_eff _) fun p => ?_
  have hnot : t ∉ k.stateL.elems (.ready p) := fun hmem =>
    not_ready_of_blocked hb p (ListStore.container_of_mem hmem)
  rw [unblocked_elems, unblocked_eff, List.erase_of_not_mem hnot]
  simp only [StateList.ready.injEq]

/-- A task is in no list exactly if it is neither blocked nor ready. -/
theorem FlatReady.unlinked_iff (h : FlatReady k F) (hs : SInv cfg k) :
    k.stateL.container t = none ↔ k.inBlockedList t = false ∧ t ∉ F := by
  rw [← Bool.not_eq_true, inBlockedList_iff, h.mem_iff]
  rcases linked_cases k t with hnone | ⟨p, hp⟩ | hb
  · simp [Blocked, hnone]
  · rw [hp, hs.ready_prio t p hp]
    simp
  · have hnot := not_ready_of_blocked hb (k.eff t)
    have hlinked : k.stateL.container t ≠ none := by
      obtain ⟨l, hl, -⟩ := hb
      simp [hl]
    simp [hb, hlinked]

/-- **The outgoing task.** -/
theorem FlatReady.requeued (h : FlatReady k F) (hs : SInv cfg k) (cur : Tid) :
    FlatReady (k.requeued cur) (Flat.requeue k F cur) := by
  have hiff := h.unlinked_iff (t := cur) hs
  unfold Sched.requeued Flat.requeue
  by_cases hc : cur ≠ .idle ∧ k.stateL.container cur = none
  · rw [if_pos hc, if_pos ⟨hc.1, hiff.mp hc.2⟩]
    exact Flattens.append h (fun _ _ => rfl) fun p => insertEnd_elems_ready p hc.2
  · rw [if_neg hc, if_neg fun hno => hc ⟨hno.1, hiff.mpr hno.2⟩]
    exact h

/-- **A change of priority.** -/
theorem FlatReady.withEff (h : FlatReady k F) (p : ℕ) :
    FlatReady (k.withEff t p) (if t ∈ F then F.erase t ++ [t] else F) := by
  have hready : t ∈ F ↔ k.IsReady t := h.mem_iff
  by_cases ht : t ∈ F
  · rw [if_pos ht]
    have herase : Flattens k.eff (F.erase t) fun q => (k.stateL.remove t).elems (.ready q) :=
      Flattens.erase h fun _ => rfl
    refine herase.append (fun u hu => ?_) fun q => ?_
    · have hne : u ≠ t := by
        rintro rfl
        have hmem := herase.mem_iff.mp hu
        exact (k.stateL.nodup _).not_mem_erase hmem
      rw [withEff_eff, if_neg hne]
    · have hnone : (k.stateL.remove t).container t = none := by simp
      have hstate : (k.withEff t p).stateL = (k.stateL.remove t).insertEnd (.ready p) t :=
        if_pos (hready.mp ht)
      rw [withEff_eff, if_pos rfl, hstate]
      exact insertEnd_elems_ready q hnone
  · rw [if_neg ht]
    refine Flattens.congr h (fun u hu => ?_) fun q => ?_
    · have hne : u ≠ t := by
        rintro rfl
        exact ht hu
      rw [withEff_eff, if_neg hne]
    · have hstate : (k.withEff t p).stateL = k.stateL := if_neg (hready.not.mp ht)
      rw [hstate]

theorem FlatReady.dispatched (h : FlatReady k F) {p : ℕ} (htop : k.IsTop t p) :
    firstMax k.eff F = some t ∧ FlatReady (k.dispatched t p) (F.erase t) := by
  obtain ⟨rest, hrest⟩ := htop.head
  exact ⟨Flattens.firstMax_eq h hrest htop.above, Flattens.erase h fun _ => rfl⟩

/-- **Every action keeps the ready lists the parts of the flat list.** -/
theorem FlatReady.move (h : FlatReady k F) (hs : SInv cfg k) (hm : Move cfg k a k') :
    FlatReady k' (Flat.after k F a) := by
  cases hm with
  | @create entry argument stack stackWordCount p hentry hprio hwords hlt =>
      have hnew : Tid.user k.taskCount ∉ F := by
        rw [h.mem_iff, hs.new_unlinked]
        simp
      refine Flattens.append h (fun u hu => ?_) fun q => ?_
      · have hne : u ≠ .user k.taskCount := by
          rintro rfl
          exact hnew hu
        unfold eff
        rw [withTask_tcb_of_ne _ _ _ _ _ hne]
      · rw [withTask_eff_self]
        have hnone : (k.stateL.setValue (.user k.taskCount) 0).container (.user k.taskCount) =
            none := hs.new_unlinked
        exact insertEnd_elems_ready q hnone
  | requeue hcur => exact h.requeued hs _
  | dispatch hall htop =>
      obtain ⟨hfirst, hpop⟩ := h.dispatched htop
      simp only [Flat.after, Flat.pop, hfirst]
      exact hpop
  | dispatchIdle hall hnone =>
      obtain rfl := Flattens.eq_nil h hnone
      exact h
  | @block t w obj inf hc hw =>
      refine Flattens.congr h (fun _ _ => rfl) fun p => ?_
      exact parked_elems_of_ne w inf hc.state (parkList_ne_ready w inf hs).symm
  | wake hl => exact h.unblocked (hs.head_blocked hl) _
  | expire hl hdue => exact h.unblocked (hs.delayed_blocked hl) _
  | advance hset =>
      refine Flattens.congr h (fun u _ => ?_) fun q => ?_
      · unfold eff
        rw [advanced_tcb]
      · rw [advanced_stateL]
  | setEff hbase hp hne => exact h.withEff _
  | save hcur hsp => exact Flattens.congr h (fun u _ => saved_eff) fun _ => rfl
  | fail => exact h
  | held => exact Flattens.congr h (fun u _ => withHeld_eff _) fun _ => rfl
  | clear hcur => exact Flattens.congr h (fun u _ => cleared_eff) fun _ => rfl

/-! ## The order of arrival -/

/-- The tasks of the flat list stand in the order in which they were put in their ready
lists. -/
def InArrival (k : Sched) (F : List Tid) : Prop :=
  F.Pairwise fun t u => k.stateL.stamp t < k.stateL.stamp u

/-- Departures keep the order. -/
theorem InArrival.sublist (h : InArrival k F) (hsub : F'.Sublist F)
    (hkeep : ∀ u ∈ F', k'.stateL.stamp u = k.stateL.stamp u) : InArrival k' F' := by
  refine (List.Pairwise.sublist hsub h).imp_of_mem fun {t u} ht hu htu => ?_
  rw [hkeep t ht, hkeep u hu]
  exact htu

/-- An arrival comes last. -/
theorem InArrival.append (h : InArrival k' F) (ht : ∀ u ∈ F, k'.stateL.stamp u < k'.stateL.stamp t) :
    InArrival k' (F ++ [t]) := by
  refine List.pairwise_append.mpr ⟨h, List.pairwise_singleton _ _, fun u hu v hv => ?_⟩
  rw [List.mem_singleton] at hv
  exact hv ▸ ht u hu

/-- **Every action keeps the order of arrival.** -/
theorem InArrival.move (h : InArrival k F) (hF : FlatReady k F) (hs : SInv cfg k)
    (hm : Move cfg k a k') : InArrival k' (Flat.after k F a) := by
  have hF' := hF.move hs hm
  have hclock : ∀ u ∈ F, k.stateL.stamp u < k.stateL.clock := fun u hu =>
    k.stateL.stamp_lt u (by rw [hF.mem_iff.mp hu]; simp)
  have hkeep : ∀ u ∈ F, a ≠ .dispatch u → (∀ q, a ≠ .setEff u q) →
      k'.stateL.stamp u = k.stateL.stamp u := fun u hu hd he =>
    (hm.ready_kept hs (hF.mem_iff.mp hu) hd he).2
  have hnew : ∀ t, t ∉ F → t ∈ Flat.after k F a → k'.stateL.stamp t = k.stateL.clock := by
    intro t ht ht'
    have hc := hF'.mem_iff.mp ht'
    rcases hm.state_item hs t with hnone | ⟨hsame, -, -⟩ | ⟨hstamp, -⟩
    · rw [hnone] at hc
      simp at hc
    · rw [hsame] at hc
      refine absurd (hF.mem_iff.mpr ?_) ht
      rw [hc, hs.ready_prio t _ hc]
    · exact hstamp
  -- a task that was not ready arrives
  have harrive : ∀ t, t ∉ F → Flat.after k F a = F ++ [t] → (∀ u, a ≠ .dispatch u) →
      (∀ u q, a ≠ .setEff u q) → InArrival k' (F ++ [t]) := by
    intro t ht heq hd he
    have hlast := hnew t ht (by simp [heq])
    refine InArrival.append (h.sublist (List.Sublist.refl F) fun u hu =>
      hkeep u hu (hd u) (he u)) fun u hu => ?_
    rw [hkeep u hu (hd u) (he u), hlast]
    exact hclock u hu
  have hstay : Flat.after k F a = F → (∀ u ∈ F, a ≠ .dispatch u ∧ ∀ q, a ≠ .setEff u q) →
      InArrival k' (Flat.after k F a) := by
    intro heq hno
    rw [heq]
    exact h.sublist (List.Sublist.refl F) fun u hu => hkeep u hu (hno u hu).1 (hno u hu).2
  cases a with
  | create i p =>
      obtain rfl : i = k.taskCount := hm.taskCount_le.2 i p rfl
      refine harrive _ (fun hmem => ?_) rfl (by simp) (by simp)
      have hc := hF.mem_iff.mp hmem
      rw [hs.new_unlinked] at hc
      simp at hc
  | wake l t =>
      have hb : k.Blocked t := by
        cases hm with
        | wake hl => exact hs.head_blocked hl
      exact harrive t (hF.notMem (not_ready_of_blocked hb)) rfl (by simp) (by simp)
  | expire t =>
      have hb : k.Blocked t := by
        cases hm with
        | expire hl hdue => exact hs.delayed_blocked hl
      exact harrive t (hF.notMem (not_ready_of_blocked hb)) rfl (by simp) (by simp)
  | requeue t =>
      by_cases hc : t ≠ .idle ∧ k.inBlockedList t = false ∧ t ∉ F
      · have heq : Flat.after k F (.requeue t) = F ++ [t] := if_pos hc
        rw [heq]
        exact harrive t hc.2.2 heq (by simp) (by simp)
      · exact hstay (if_neg hc) (by simp)
  | dispatch t =>
      have hstamp : ∀ u, k'.stateL.stamp u = k.stateL.stamp u := by
        cases hm <;> exact fun _ => rfl
      simp only [Flat.after, Flat.pop]
      split
      · exact h.sublist (List.Sublist.refl F) fun u _ => hstamp u
      · exact h.sublist List.erase_sublist fun u _ => hstamp u
  | setEff t p =>
      by_cases ht : t ∈ F
      · have heq : Flat.after k F (.setEff t p) = F.erase t ++ [t] := if_pos ht
        have hnodup : F.Nodup := h.imp fun {u v} hlt huv => absurd (huv ▸ hlt) (lt_irrefl _)
        have hother : ∀ u ∈ F.erase t, u ∈ F ∧ k'.stateL.stamp u = k.stateL.stamp u := by
          intro u hu
          obtain ⟨hut, huF⟩ := (hnodup.mem_erase_iff).mp hu
          refine ⟨huF, hkeep u huF (by simp) fun q hq => ?_⟩
          simp only [Action.setEff.injEq] at hq
          exact hut hq.1.symm
        have hlast : k'.stateL.stamp t = k.stateL.clock := by
          have hc := hF'.mem_iff.mp (show t ∈ Flat.after k F (.setEff t p) by simp [heq])
          rcases hm.state_item hs t with hnone | ⟨hsame, -, -⟩ | ⟨hstamp, -⟩
          · rw [hnone] at hc
            simp at hc
          · -- the list of the new priority is another one
            rw [hsame, hF.mem_iff.mp ht, Option.some.injEq, StateList.ready.injEq] at hc
            cases hm with
            | setEff hbase hp hne =>
                rw [withEff_eff, if_pos rfl] at hc
                exact absurd hc hne
          · exact hstamp
        rw [heq]
        refine InArrival.append (h.sublist List.erase_sublist fun u hu => (hother u hu).2)
          fun u hu => ?_
        rw [(hother u hu).2, hlast]
        exact hclock u (hother u hu).1
      · refine hstay (if_neg ht) fun u hu => ⟨by simp, ?_⟩
        rintro q hq
        simp only [Action.setEff.injEq] at hq
        exact ht (hq.1 ▸ hu)
  | _ => exact hstay rfl (by simp)

/-! ## Whole runs -/

/-- The kernel and, beside it, the reference scheduler at one action. -/
def FlatMove (cfg : Config) (x : Sched × List Tid) (a : Action) (x' : Sched × List Tid) : Prop :=
  Move cfg x.1 a x'.1 ∧ x'.2 = Flat.after x.1 x.2 a

/-- **The reference scheduler beside a run of the machine**: it starts with no task, and takes
part in every action of every step. -/
inductive FlatRun (cfg : Config) (s₀ : Sys) : List Label → Sys → List Tid → Prop
  | nil : FlatRun cfg s₀ [] s₀ []
  | snoc {tr : List Label} {s s' : Sys} {b : Label} {F F' : List Tid} {acts : List Action}
      (hr : FlatRun cfg s₀ tr s F) (hs : Step cfg s b s')
      (hm : Runs.Exec (FlatMove cfg) (s.sched, F) acts (s'.sched, F')) :
      FlatRun cfg s₀ (tr ++ [b]) s' F'

/-- The reference scheduler never gets stuck. -/
theorem FlatMove.exists_of_moves (hm : Moves cfg k acts k') (F : List Tid) :
    ∃ F', Runs.Exec (FlatMove cfg) (k, F) acts (k', F') := by
  induction hm with
  | nil => exact ⟨F, Runs.Exec.nil⟩
  | @snoc acts k₁ k₂ a hm hmove ih =>
      obtain ⟨F₁, h₁⟩ := ih
      exact ⟨Flat.after k₁ F₁ a, h₁.snoc ⟨hmove, rfl⟩⟩

theorem FlatRun.exists_of_run (h₀ : Initial cfg s₀) (hr : Run cfg s₀ tr s) :
    ∃ F, FlatRun cfg s₀ tr s F := by
  induction hr with
  | nil => exact ⟨[], .nil⟩
  | @snoc tr s s' b hr hs ih =>
      obtain ⟨F, hF⟩ := ih
      have hI : Inv cfg s := h₀.inv.run hr
      obtain ⟨e, obs⟩ := b
      obtain ⟨acts, hm⟩ := (step_kind hI hs).moves
      obtain ⟨F', hF'⟩ := FlatMove.exists_of_moves hm F
      exact ⟨F', .snoc hF hs hF'⟩

/-- **The simulation relation**: the ready lists are the parts of the flat list, which is in the
order of arrival. -/
structure Simulates (k : Sched) (F : List Tid) : Prop where
  lists : FlatReady k F
  order : InArrival k F

theorem Simulates.moves {x x' : Sched × List Tid} (h : Simulates x.1 x.2) (hs : SInv cfg x.1)
    (hd : DelayInv x.1) (hm : Runs.Exec (FlatMove cfg) x acts x') :
    SInv cfg x'.1 ∧ DelayInv x'.1 ∧ Simulates x'.1 x'.2 := by
  refine hm.invariant (I := fun x => SInv cfg x.1 ∧ DelayInv x.1 ∧ Simulates x.1 x.2)
    (fun x a x' hx hmove => ?_) ⟨hs, hd, h⟩
  obtain ⟨hs, hd, h⟩ := hx
  obtain ⟨hmove, hF⟩ := hmove
  refine ⟨hs.move hmove, hd.move hs hmove, ?_⟩
  rw [hF]
  exact ⟨h.lists.move hs hmove, h.order.move h.lists hs hmove⟩

/-- **The simulation holds in every run.** -/
theorem FlatRun.simulates (h₀ : Initial cfg s₀) (hr : FlatRun cfg s₀ tr s F) :
    Run cfg s₀ tr s ∧ Simulates s.sched F := by
  induction hr with
  | nil =>
      refine ⟨Runs.Exec.nil, fun p => ?_, List.Pairwise.nil⟩
      rw [h₀.sched]
      rfl
  | snoc hr hs hm ih =>
      have hI : Inv cfg _ := h₀.inv.run ih.1
      exact ⟨ih.1.snoc hs, (ih.2.moves hI.ready.inv hI.ready.delay hm).2.2⟩

/-- **The selection is that of the plain scan**, unless the stack check halts the kernel. -/
theorem Simulates.select (h : Simulates k F) (hs : SInv cfg k) {cur : Tid}
    (hcur : k.curTask = some cur) {sp : ℕ} (hsp : sp ≠ 0) {guard : ℕ → ℕ}
    (hvalid : artosTaskStackValid ((k.saved cur sp).tcb cur) sp guard = true) :
    (k.rtosSchedulerSelectNext cfg sp guard).2 = some (Flat.select k F cur).1 ∧
      (k.rtosSchedulerSelectNext cfg sp guard).1.curTask = some (Flat.select k F cur).1 ∧
      ∀ p, (k.rtosSchedulerSelectNext cfg sp guard).1.stateL.elems (.ready p) =
        (Flat.select k F cur).2.filter fun t => k.eff t = p := by
  have hsaved : FlatReady (k.saved cur sp) F :=
    Flattens.congr h.lists (fun _ _ => saved_eff) fun _ => rfl
  have hs₁ := hs.saved hcur hsp
  have hreq := hsaved.requeued hs₁ cur
  have heff : ((k.saved cur sp).requeued cur).eff = k.eff := by
    funext t
    have hkeep : ((k.saved cur sp).requeued cur).eff t = (k.saved cur sp).eff t := by
      unfold Sched.requeued
      split <;> rfl
    rw [hkeep, saved_eff]
  have hflat : Flat.requeue (k.saved cur sp) F cur = Flat.requeue k F cur := rfl
  rw [hflat] at hreq
  rw [rtosSchedulerSelectNext_eq hs hcur hsp, if_pos hvalid]
  unfold Flat.select Flat.pop
  have hr : SInv cfg ((k.saved cur sp).requeued cur) := hs₁.requeued hcur
  rcases rtosSelectReady_cases hr with
    ⟨hnone, heq⟩ | ⟨t, p, htop, heq⟩
  · have hnil := Flattens.eq_nil hreq hnone
    rw [heq, hnil]
    exact ⟨rfl, rfl, hnone⟩
  · obtain ⟨hfirst, hpop⟩ := hreq.dispatched htop
    rw [heff] at hfirst
    rw [heq, hfirst]
    refine ⟨rfl, rfl, fun q => ?_⟩
    have hq := hpop q
    rw [show (((k.saved cur sp).requeued cur).dispatched t p).eff = k.eff from heff] at hq
    exact hq.symm

/-- **The bitmap selection equals the plain scan.**  Beside every run of the kernel the
reference scheduler runs too; its list holds the ready tasks in the order in which they were
put in their lists, the ready list of a priority is its part of that priority, and
`rtos_scheduler_select_next`, for a stored context whose stack check passes, chooses the same
task and leaves the same ready lists. -/
theorem selection_is_scan (h₀ : Initial cfg s₀) (hr : Run cfg s₀ tr s) :
    (∃ F, FlatRun cfg s₀ tr s F) ∧ ∀ F, FlatRun cfg s₀ tr s F →
      F.Pairwise (fun t u => s.sched.stateL.stamp t < s.sched.stateL.stamp u) ∧
      (∀ p, s.sched.stateL.elems (.ready p) = F.filter fun t => s.sched.eff t = p) ∧
      ∀ cur sp guard, s.cur = some cur → sp ≠ 0 →
        artosTaskStackValid ((s.sched.saved cur sp).tcb cur) sp guard = true →
        (s.sched.rtosSchedulerSelectNext cfg sp guard).2 =
            some (Flat.select s.sched F cur).1 ∧
          (s.sched.rtosSchedulerSelectNext cfg sp guard).1.curTask =
            some (Flat.select s.sched F cur).1 ∧
          ∀ p, (s.sched.rtosSchedulerSelectNext cfg sp guard).1.stateL.elems (.ready p) =
            (Flat.select s.sched F cur).2.filter fun t => s.sched.eff t = p := by
  have hI : Inv cfg s := h₀.inv.run hr
  refine ⟨FlatRun.exists_of_run h₀ hr, fun F hF => ?_⟩
  have hsim := (hF.simulates h₀).2
  exact ⟨hsim.order, fun p => (hsim.lists p).symm, fun cur sp guard hcur hsp hvalid =>
    hsim.select hI.ready.inv hcur hsp hvalid⟩

/-- The second of three equal tasks runs, after the first has yielded; the first is ready
behind the third. -/
def yieldedTask : List Label × Sys :=
  (Runs.runSteps (step smallConfig) smallBoot
    [createTask 1 0, createTask 2 0, createTask 3 0, .start, .call .yield, .resume,
      switchFrom 1]).get (by decide +kernel)

theorem yieldedTask_run : Run smallConfig smallBoot yieldedTask.1 yieldedTask.2 :=
  run_of_runSteps (Option.some_get _).symm

theorem selection_is_scan_yieldedTask :
    ∃ F, FlatRun smallConfig smallBoot yieldedTask.1 yieldedTask.2 F ∧
      (yieldedTask.2.sched.rtosSchedulerSelectNext smallConfig 8320 intactGuard).2 =
        some (Flat.select yieldedTask.2.sched F (.user 1)).1 := by
  obtain ⟨⟨F, hF⟩, hall⟩ := selection_is_scan smallBoot_initial yieldedTask_run
  have hcur : yieldedTask.2.cur = some (.user 1) := by decide +kernel
  exact ⟨F, hF, ((hall F hF).2.2 (.user 1) 8320 intactGuard hcur (by decide)
    (by decide +kernel)).1⟩

end Artos
