/-
# Round robin

A task leaves a ready list when it is dispatched, or when its priority changes, and in no
other way (`Move.ready_kept`); it enters one at its end.  So of two tasks in a ready list
the one that entered it first is dispatched first, whatever else happens meanwhile
(`round_robin`).  A task that is switched out while runnable enters the list of its
level behind all the tasks that are ready there.
-/
import Artos.ReadyOrder

open Function

namespace Artos

open Sched

variable {cfg : Config} {k k' : Sched} {t u : Tid} {p : ℕ} {a : Action}
  {acts : List Action} {obs : List Obs} {s s' : Sys} {e : Event}

/-! ## How a task leaves a ready list -/

/-- **A ready task stays where it is, unless it is dispatched or its priority changes.** -/
theorem Move.ready_kept (h : SInv cfg k) (hm : Move cfg k a k')
    (ht : k.stateL.container t = some (.ready p)) (hd : a ≠ .dispatch t)
    (he : ∀ q, a ≠ .setEff t q) :
    k'.stateL.container t = some (.ready p) ∧ k'.stateL.stamp t = k.stateL.stamp t := by
  have hnb := not_ready_of_blocked (k := k) (t := t)
  cases hm with
  | @create entry argument stack n q hentry hprio hwords hlt =>
      have hne : t ≠ .user k.taskCount := by
        rintro rfl
        rw [h.new_unlinked] at ht
        simp at ht
      have hnone : (k.stateL.setValue (.user k.taskCount) 0).container (.user k.taskCount) =
          none := h.new_unlinked
      refine ⟨?_, ?_⟩
      · rw [withTask_container _ _ _ _ _ h, update_of_ne hne]
        exact ht
      · simp [withTask, rtosInitTcb, ListStore.insertEnd_eq hnone, hne]
  | @requeue cur hcur =>
      unfold requeued
      split
      · rename_i hc
        have hne : t ≠ cur := by
          rintro rfl
          rw [ht] at hc
          simp at hc
        simp [ListStore.insertEnd_eq hc.2, hne, ht]
      · exact ⟨ht, rfl⟩
  | @dispatch u q hall htop =>
      have hne : t ≠ u := by
        rintro rfl
        exact hd rfl
      simp [dispatched, popReady, hne, ht]
  | @block u w obj inf hc hw =>
      have hne : t ≠ u := by
        rintro rfl
        rw [hc.state] at ht
        simp at ht
      have hnone : (k.stateL.setValue u w).container u = none := hc.state
      have hstamp : (k.parked u w inf).stamp = update k.stateL.stamp u k.stateL.clock := by
        unfold parked
        split
        · rw [ListStore.insertEnd_eq hnone]
          rfl
        · rw [ListStore.insertSorted_eq hnone]
          rfl
      refine ⟨?_, ?_⟩
      · exact ((congrFun (parked_container w inf hc.state) t).trans
          (update_of_ne hne _ _)).trans ht
      · exact (congrFun hstamp t).trans (update_of_ne hne _ _)
  | @wake l u rest hl =>
      have hne : t ≠ u := by
        rintro rfl
        exact hnb (h.head_blocked hl) p ht
      rw [unblocked_container, unblocked_stamp, update_of_ne hne, update_of_ne hne]
      exact ⟨ht, rfl⟩
  | @expire u rest hl hdue =>
      have hne : t ≠ u := by
        rintro rfl
        exact hnb (h.delayed_blocked hl) p ht
      rw [unblocked_container, unblocked_stamp, update_of_ne hne, update_of_ne hne]
      exact ⟨ht, rfl⟩
  | advance hset =>
      rw [advanced_stateL]
      exact ⟨ht, rfl⟩
  | @setEff u q hbase hp hne =>
      have hut : t ≠ u := by
        rintro rfl
        exact he q rfl
      unfold withEff
      split
      · have hnone : (k.stateL.remove u).container u = none := by simp
        simp [ListStore.insertEnd_eq hnone, hut, ht]
      · exact ⟨ht, rfl⟩
  | _ => exact ⟨ht, rfl⟩

theorem Moves.ready_kept (h : SInv cfg k) (hd : DelayInv k) (hm : Moves cfg k acts k')
    (ht : k.stateL.container t = some (.ready p)) (hno : .dispatch t ∉ acts)
    (he : ∀ q, .setEff t q ∉ acts) :
    k'.stateL.container t = some (.ready p) ∧ k'.stateL.stamp t = k.stateL.stamp t := by
  induction hm with
  | nil => exact ⟨ht, rfl⟩
  | @snoc tr k₁ k₂ b hm hmove ih =>
      have hb : b ∈ tr ++ [b] := List.mem_append_right _ (List.mem_singleton_self b)
      obtain ⟨hc, hst⟩ := ih (fun hmem => hno (List.mem_append_left _ hmem))
        fun q hmem => he q (List.mem_append_left _ hmem)
      obtain ⟨hc', hst'⟩ := hmove.ready_kept (h.moves hd hm).1 hc (fun hbd => hno (hbd ▸ hb))
        fun q hbe => he q (hbe ▸ hb)
      exact ⟨hc', hst'.trans hst⟩

/-- Actions that neither create the task nor set its priority leave the priority. -/
theorem View.foldl_eff {v : View} (hc : ∀ i q, Action.create i q ∈ acts → t ≠ .user i)
    (he : ∀ q, Action.setEff t q ∉ acts) : (acts.foldl (View.after t) v).eff = v.eff := by
  induction acts generalizing v with
  | nil => rfl
  | cons a acts ih =>
      have hone : (v.after t a).eff = v.eff := by
        cases a with
        | create i q => simp [View.after, hc i q List.mem_cons_self]
        | setEff u q =>
            have hu : t ≠ u := by
              rintro rfl
              exact he q List.mem_cons_self
            simp [View.after, hu]
        | _ =>
            simp only [View.after]
            try split <;> rfl
      rw [List.foldl_cons, ih (fun i q hmem => hc i q (List.mem_cons_of_mem _ hmem))
        fun q hmem => he q (List.mem_cons_of_mem _ hmem)]
      exact hone

/-- **A single change of a priority is seen in the end.** -/
theorem Moves.eff_ne (h : SInv cfg k) (hd : DelayInv k) (hm : Moves cfg k acts k')
    (hone : (acts.filter Action.isSetEff).length ≤ 1) (ht : k.stateL.container t ≠ none)
    {q : ℕ} (hmem : .setEff t q ∈ acts) : k'.eff t ≠ k.eff t := by
  obtain ⟨l₁, l₂, rfl⟩ := List.append_of_mem hmem
  -- no other action of the sequence sets a priority
  have hother : ∀ u q', Action.setEff u q' ∉ l₁ ∧ Action.setEff u q' ∉ l₂ := by
    intro u q'
    rw [List.filter_append, List.length_append, List.filter_cons_of_pos rfl,
      List.length_cons] at hone
    have hnil : ∀ l : List Action, (l.filter Action.isSetEff).length = 0 →
        Action.setEff u q' ∉ l := by
      intro l hl hmem
      have hin := List.mem_filter.mpr ⟨hmem, (rfl : Action.isSetEff (.setEff u q') = true)⟩
      rw [List.length_eq_zero_iff.mp hl] at hin
      simp at hin
    exact ⟨hnil l₁ (by omega), hnil l₂ (by omega)⟩
  have hcreated : ∀ i q', Action.create i q' ∈ l₁ ++ .setEff t q :: l₂ → t ≠ .user i := by
    rintro i q' hcr rfl
    have hge := (Moves.taskCount_le hm).2 i q' hcr
    have hlt := h.linked_lt i ht
    omega
  obtain ⟨k₁, hm₁, hrest⟩ := hm.append_inv
  obtain ⟨k₂, hset, hm₂⟩ := hrest.cons_inv
  obtain ⟨hs₁, hd₁⟩ := h.moves hd hm₁
  have hset' := Runs.Exec.single hset
  obtain ⟨hs₂, hd₂⟩ := hs₁.moves hd₁ hset'
  have h₁ : k₁.eff t = k.eff t := by
    have hview := congrArg View.eff (Moves.view h hd hm₁ t)
    exact hview.trans (View.foldl_eff
      (fun i q' hcr => hcreated i q' (List.mem_append_left _ hcr)) fun q' => (hother t q').1)
  have h₂ : k'.eff t = k₂.eff t := by
    have hview := congrArg View.eff (Moves.view hs₂ hd₂ hm₂ t)
    exact hview.trans (View.foldl_eff (fun i q' hcr => hcreated i q'
      (List.mem_append_right _ (List.mem_cons_of_mem _ hcr))) fun q' => (hother t q').2)
  cases hset with
  | setEff hbase hp hne =>
      rw [h₂, withEff_eff, if_pos rfl, ← h₁]
      exact Ne.symm hne

/-! ## Dispatches -/

/-- **The step that leads to `s'` dispatches the task**: it is a switch or the start of the
scheduler, and the task is current after it. -/
def Dispatches (e : Event) (s' : Sys) (t : Tid) : Prop :=
  ((∃ sp guard, e = .switch sp guard) ∨ e = .start) ∧ s'.cur = some t ∧
    s'.sched.failure = none

/-- A machine with a recorded failure has no step. -/
theorem Step.failure_none {l : Label} (hs : Step cfg s l s') : s.sched.failure = none := by
  obtain ⟨e, obs⟩ := l
  have hrun : ∀ {t}, s.running = some t → s.sched.failure = none := fun hr =>
    (running_eq hr).2.2.2.1
  unfold Step at hs
  cases e with
  | call c =>
      simp only [step] at hs
      split at hs
      · simp at hs
      · rename_i t hr
        exact hrun hr
  | resume =>
      simp only [step] at hs
      split at hs
      · simp at hs
      · rename_i t hr
        exact hrun hr
  | isrCall c =>
      simp only [step] at hs
      split at hs
      · simp at hs
      · split at hs
        · rename_i hf
          exact Option.isNone_iff_eq_none.mp hf
        · simp at hs
  | isrReturn y =>
      simp only [step] at hs
      split at hs
      · simp at hs
      · split at hs
        · rename_i hf
          exact Option.isNone_iff_eq_none.mp hf
        · simp at hs
  | _ =>
      simp only [step] at hs
      split at hs
      · rename_i hc
        simp_all
      · simp at hs

/-- Moves that record no failure leave none recorded. -/
theorem Moves.failure_eq (hm : Moves cfg k acts k') (hf : ∀ f, .fail f ∉ acts) :
    k'.failure = k.failure := by
  induction hm with
  | nil => rfl
  | @snoc tr k₁ k₂ b hm hmove ih =>
      refine Eq.trans ?_ (ih fun f hmem => hf f (List.mem_append_left _ hmem))
      cases hmove with
      | requeue hcur =>
          unfold requeued
          split <;> rfl
      | fail => exact absurd (List.mem_append_right _ (List.mem_singleton_self _)) (hf _)
      | advance hset => simp
      | _ => rfl

/-- **The moves of a step**: at most one priority changes, no blocked task blocks, and whom
they dispatch, the step dispatches. -/
theorem Step.shape (h : Inv cfg s) (hs : Step cfg s (e, obs) s') :
    ∃ acts, Moves cfg s.sched acts s'.sched ∧ (acts.filter Action.isSetEff).length ≤ 1 ∧
      (∀ u w obj inf, Action.block u w obj inf ∈ acts → ¬ s.sched.Blocked u) ∧
      ∀ u, .dispatch u ∈ acts → Dispatches e s' u := by
  have hf := Step.failure_none hs
  cases step_kind h hs with
  | create hcur hm hacts =>
      refine ⟨_, hm, ?_, ?_, ?_⟩ <;> rcases hacts with rfl | ⟨q, rfl⟩ <;>
        simp [Action.isSetEff]
  | start hcur hm hacts hnext =>
      refine ⟨_, hm, ?_, ?_, fun u hu => ⟨Or.inr rfl, ?_, ?_⟩⟩
      · rcases hacts with rfl | ⟨t, rfl⟩ <;> simp [Action.isSetEff]
      · rcases hacts with rfl | ⟨t, rfl⟩ <;> simp
      · rcases hacts with rfl | ⟨t, rfl⟩
        · simp at hu
        · obtain rfl : u = t := by simpa using hu
          cases hm.single_inv with
          | dispatch hall htop => rfl
          | dispatchIdle hall hnone => rfl
      · refine (Moves.failure_eq hm ?_).trans hf
        rcases hacts with rfl | ⟨t, rfl⟩ <;> simp
  | task hrun hI hsrc hstep =>
      obtain ⟨acts, hsec, -⟩ := hstep.sec
      refine ⟨acts, hsec.moves, hsec.one_setEff, fun u w obj inf hu hb => ?_,
        fun u hu => absurd hu fun hu => hsec.acts_ok _ hu⟩
      -- only the running task blocks
      obtain ⟨rfl, -⟩ := hsec.acts_ok _ hu
      obtain ⟨l, hl, -⟩ := hb
      rw [hI.can.state] at hl
      simp at hl
  | tick hm hset =>
      refine ⟨_, hm, ?_, by simp, by simp⟩
      rw [List.filter_cons_of_neg (by simp [Action.isSetEff]), List.filter_map]
      simp [Action.isSetEff, Function.comp_def]
  | switch hcur hpending hm hacts =>
      refine ⟨_, hm, ?_, ?_, fun u hu => ?_⟩
      · rcases hacts with ⟨rfl, -⟩ | ⟨t, rfl, -⟩ <;> simp [Action.isSetEff]
      · rcases hacts with ⟨rfl, -⟩ | ⟨t, rfl, -⟩ <;> simp
      · rcases hacts with ⟨rfl, -⟩ | ⟨t, rfl, ht, -⟩
        · simp at hu
        · obtain rfl : u = t := by simpa using hu
          exact ⟨Or.inl ⟨_, _, rfl⟩, ht, (Moves.failure_eq hm (by simp)).trans hf⟩
  | isrCall hh hstep =>
      obtain ⟨acts, hsec, ha⟩ := hstep
      refine ⟨acts, (hsec .idle).moves, (hsec .idle).one_setEff, fun u w obj inf hu => ?_,
        fun u hu => absurd hu fun hu => (hsec .idle).acts_ok _ hu⟩
      obtain ⟨l, v, hl⟩ := ha _ hu
      simp at hl
  | _ => exact ⟨[], Runs.Exec.nil, by simp, by simp, by simp⟩

/-- A dispatched task is in no list. -/
theorem Dispatches.unlinked (h : Inv cfg s) (hs : Step cfg s (e, obs) s')
    (hd : Dispatches e s' t) : s'.sched.stateL.container t = none := by
  obtain ⟨he, hcur', hf⟩ := hd
  cases step_kind h hs with
  | start hcur hm hacts hnext => exact hnext t hcur'
  | switch hcur hpending hm hacts =>
      rcases hacts with ⟨-, hfail⟩ | ⟨u, -, hu, hnone⟩
      · exact absurd hf hfail
      · obtain rfl : u = t := Option.some.inj (hu.symm.trans hcur')
        exact hnone
  | task hrun hI hsrc hstep => cases hsrc <;> simp at he
  | _ => simp at he

/-- **A ready task stays where it is until it is dispatched or its priority changes.** -/
theorem Step.ready_kept (h : Inv cfg s) (hs : Step cfg s (e, obs) s')
    (ht : s.sched.stateL.container t = some (.ready p)) (hd : ¬ Dispatches e s' t)
    (he : s'.sched.eff t = s.sched.eff t) :
    s'.sched.stateL.container t = some (.ready p) ∧
      s'.sched.stateL.stamp t = s.sched.stateL.stamp t := by
  obtain ⟨acts, hm, hone, -, hdisp⟩ := Step.shape h hs
  refine Moves.ready_kept h.ready.inv h.ready.delay hm ht (fun hmem => hd (hdisp t hmem))
    fun q hmem => ?_
  exact Moves.eff_ne h.ready.inv h.ready.delay hm hone (by rw [ht]; simp) hmem he

/-- A task that is in the same ready list after the step has not left it. -/
theorem Step.ready_stamp (h : Inv cfg s) (hs : Step cfg s (e, obs) s')
    (ht : s.sched.stateL.container t = some (.ready p))
    (ht' : s'.sched.stateL.container t = some (.ready p)) :
    s'.sched.stateL.stamp t = s.sched.stateL.stamp t := by
  have h' := h.step hs
  refine (Step.ready_kept h hs ht (fun hd => ?_) ?_).2
  · rw [hd.unlinked h hs] at ht'
    simp at ht'
  · rw [h.ready.inv.ready_prio t p ht, h'.ready.inv.ready_prio t p ht']

/-- **The head of a ready list is not a task that came later than another.** -/
theorem Move.dispatch_first (hf : ReadyFifo k) (hm : Move cfg k (.dispatch t) k')
    {p : ℕ} (hu : k.stateL.container u = some (.ready p))
    (ht : k.stateL.container t = some (.ready p))
    (hut : k.stateL.stamp u < k.stateL.stamp t) : False := by
  cases hm with
  | @dispatch t q hall htop =>
      obtain ⟨rest, hrest⟩ := htop.head
      have hq := htop.container
      rw [ht, Option.some.injEq, StateList.ready.injEq] at hq
      subst hq
      have hpair := (hf p).pair_sublist hu ht hut
      rw [hrest] at hpair
      have hnodup := k.stateL.nodup (.ready p)
      rw [hrest] at hnodup
      -- the later task would stand behind itself
      cases hpair with
      | cons _ hsub =>
          have hmem := hsub.subset (show t ∈ [u, t] by simp)
          exact (List.nodup_cons.mp hnodup).1 hmem
      | cons_cons _ hsub => omega
  | dispatchIdle hall hnone =>
      have hmem := (k.stateL.mem_elems _ _).mpr ht
      rw [hnone p] at hmem
      simp at hmem

/-! ## No overtaking -/

/-- The tasks `a` and `b` are in the ready list `p`, which `a` entered first. -/
structure Sched.Ahead (k : Sched) (a b : Tid) (p : ℕ) : Prop where
  first : k.stateL.container a = some (.ready p)
  second : k.stateL.container b = some (.ready p)
  stamp : k.stateL.stamp a < k.stateL.stamp b

variable {b : Tid}

/-- Moves that leave both tasks ready leave them in their order. -/
theorem Moves.ahead {a : Tid} (h : SInv cfg k) (hd : DelayInv k) (hm : Moves cfg k acts k')
    (hab : k.Ahead a b p) (hdisp : .dispatch a ∉ acts ∧ .dispatch b ∉ acts)
    (hset : ∀ u q, .setEff u q ∉ acts) : k'.Ahead a b p := by
  obtain ⟨ha, hsa⟩ := Moves.ready_kept h hd hm hab.first hdisp.1 fun q => hset a q
  obtain ⟨hb, hsb⟩ := Moves.ready_kept h hd hm hab.second hdisp.2 fun q => hset b q
  refine ⟨ha, hb, ?_⟩
  rw [hsa, hsb]
  exact hab.stamp

/-- **A dispatch is the last move of a switch or the only one of the start.** -/
theorem Dispatches.moves (h : Inv cfg s) (hs : Step cfg s (e, obs) s')
    (hd : Dispatches e s' t) : ∃ pre k₁, Moves cfg s.sched pre k₁ ∧
      (∀ u, .dispatch u ∉ pre) ∧ (∀ u q, .setEff u q ∉ pre) ∧
      Move cfg k₁ (.dispatch t) s'.sched := by
  obtain ⟨he, hcur', hf⟩ := hd
  cases step_kind h hs with
  | start hcur hm hacts hnext =>
      rcases hacts with rfl | ⟨u, rfl⟩
      · -- without a task the scheduler does not start
        generalize hnil : ([] : List Action) = l at hm
        cases hm with
        | nil =>
            have hcur₀ : s.cur = some t := hcur'
            rw [hcur] at hcur₀
            simp at hcur₀
        | snoc _ _ => simp at hnil
      · have hmove := hm.single_inv
        have hu : u = t := by
          cases hmove with
          | dispatch hall htop => exact Option.some.inj hcur'
          | dispatchIdle hall hnone => exact Option.some.inj hcur'
        exact ⟨[], s.sched, Runs.Exec.nil, by simp, by simp, hu ▸ hmove⟩
  | @switch sp guard cur acts k hcur hpending hm hacts =>
      rcases hacts with ⟨-, hfail⟩ | ⟨u, rfl, hu, -⟩
      · exact absurd hf hfail
      · obtain rfl : u = t := Option.some.inj (hu.symm.trans hcur')
        have hsplit : Moves cfg s.sched ([.save cur sp, .requeue cur] ++ [.dispatch u]) k := hm
        obtain ⟨k₁, hm₁, hlast⟩ := hsplit.append_inv
        exact ⟨_, k₁, hm₁, by simp, by simp, hlast.single_inv⟩
  | task hrun hI hsrc hstep => cases hsrc <;> simp at he
  | _ => simp at he

/-- **The later of two tasks in a ready list is not dispatched.** -/
theorem Step.not_overtaken {a : Tid} (h : Inv cfg s) (hf : ReadyFifo s.sched)
    (hab : s.sched.Ahead a b p) (hs : Step cfg s (e, obs) s') : ¬ Dispatches e s' b := by
  intro hd
  obtain ⟨pre, k₁, hm, hdisp, hset, hlast⟩ := hd.moves h hs
  have hab₁ := Moves.ahead h.ready.inv h.ready.delay hm hab ⟨hdisp a, hdisp b⟩ hset
  exact hlast.dispatch_first (hf.moves h.ready.inv h.ready.delay hm) hab₁.first hab₁.second
    hab₁.stamp

/-- A step that changes neither task's priority and does not dispatch the first of them. -/
def Keeps (cfg : Config) (a b : Tid) (s : Sys) (l : Label) (s' : Sys) : Prop :=
  Step cfg s l s' ∧ s'.sched.eff a = s.sched.eff a ∧ s'.sched.eff b = s.sched.eff b ∧
    ¬ Dispatches l.1 s' a

/-- Every step keeps the ready lists in order of arrival. -/
theorem ReadyFifo.step (h : Inv cfg s) (hf : ReadyFifo s.sched) {l : Label}
    (hs : Step cfg s l s') : ReadyFifo s'.sched := by
  obtain ⟨acts, hm⟩ := (step_kind h hs).moves
  exact hf.moves h.ready.inv h.ready.delay hm

/-- **The order of two tasks in a ready list survives every run** in which the first is not
dispatched and neither changes its priority. -/
theorem Keeps.ahead {a : Tid} (h : Inv cfg s) (hf : ReadyFifo s.sched)
    (hab : s.sched.Ahead a b p) {tr : List Label} (hr : Runs.Exec (Keeps cfg a b) s tr s') :
    Inv cfg s' ∧ ReadyFifo s'.sched ∧ s'.sched.Ahead a b p := by
  refine hr.invariant (I := fun s => Inv cfg s ∧ ReadyFifo s.sched ∧ s.sched.Ahead a b p)
    (fun s₁ l s₂ hI hstep => ?_) ⟨h, hf, hab⟩
  obtain ⟨hI, hf₁, hab₁⟩ := hI
  obtain ⟨hs, hea, heb, hda⟩ := hstep
  obtain ⟨e, obs⟩ := l
  obtain ⟨ha, hsa⟩ := Step.ready_kept hI hs hab₁.first hda hea
  obtain ⟨hb, hsb⟩ := Step.ready_kept hI hs hab₁.second (Step.not_overtaken hI hf₁ hab₁ hs) heb
  refine ⟨hI.step hs, hf₁.step hI hs, ha, hb, ?_⟩
  rw [hsa, hsb]
  exact hab₁.stamp

/-- **A task that is switched out while runnable stands behind every task that was ready at
its level before it.** -/
theorem Step.switched_out {a : Tid} (h : Inv cfg s) (hf : ReadyFifo s.sched)
    (hcur : s.cur = some b) (hidle : b ≠ .idle) (hb : ¬ s.sched.Blocked b)
    (ha : s.sched.stateL.container a = some (.ready (s.sched.eff b)))
    (hab : s.sched.stateL.container b ≠ none →
      s.sched.stateL.stamp a < s.sched.stateL.stamp b)
    {sp : ℕ} {guard : ℕ → ℕ} (hs : Step cfg s (.switch sp guard, obs) s')
    (hok : s'.sched.failure = none) :
    ¬ Dispatches (.switch sp guard) s' b ∧
      (¬ Dispatches (.switch sp guard) s' a → s'.sched.Ahead a b (s.sched.eff b)) := by
  have hinv := h.ready.inv
  have hdelay := h.ready.delay
  cases step_kind h hs with
  | @switch sp guard cur acts k hcur' hpending hm hacts =>
      obtain rfl : b = cur := Option.some.inj (hcur.symm.trans hcur')
      rcases hacts with ⟨-, hfail⟩ | ⟨u, rfl, hu, -⟩
      · exact absurd hok hfail
      · have hsplit : Moves cfg s.sched ([.save b sp, .requeue b] ++ [.dispatch u]) k := hm
        obtain ⟨k₁, hm₁, hlast⟩ := hsplit.append_inv
        have hmove := hlast.single_inv
        obtain ⟨hs₁, hd₁⟩ := hinv.moves hdelay hm₁
        have ha₁ := Moves.ready_kept hinv hdelay hm₁ ha (by simp) (by simp)
        have hab₁ : k₁.Ahead a b (s.sched.eff b) := by
          rcases linked_cases s.sched b with hnone | ⟨q, hq⟩ | hblocked
          · -- it is linked now, behind everybody
            obtain ⟨k₂, hsave, hrest⟩ := hm₁.cons_inv
            have hreq := hrest.single_inv
            cases hsave with
            | save hc hsp =>
                cases hreq with
                | requeue hc' =>
                    have hnone' : (s.sched.saved b sp).stateL.container b = none := hnone
                    have heff : (s.sched.saved b sp).eff b = s.sched.eff b := by
                      simp [saved, setTcb, Sched.eff]
                    have hst : ((s.sched.saved b sp).requeued b).stateL =
                        s.sched.stateL.insertEnd (.ready (s.sched.eff b)) b := by
                      unfold requeued
                      rw [if_pos ⟨hidle, hnone'⟩, heff]
                      rfl
                    refine ⟨ha₁.1, ?_, ?_⟩
                    · rw [hst, ListStore.insertEnd_eq hnone]
                      simp
                    · rw [ha₁.2, hst, ListStore.insertEnd_eq hnone]
                      simpa using s.sched.stateL.stamp_lt a (by rw [ha]; simp)
          · have hq' := hinv.ready_prio b q hq
            obtain ⟨hb₁, hsb⟩ := Moves.ready_kept hinv hdelay hm₁ hq (by simp) (by simp)
            refine ⟨ha₁.1, hq' ▸ hb₁, ?_⟩
            rw [ha₁.2, hsb]
            exact hab (by rw [hq]; simp)
          · exact absurd hblocked hb
        have hub : u ≠ b := by
          rintro rfl
          exact hmove.dispatch_first (hf.moves hinv hdelay hm₁) hab₁.first hab₁.second
            hab₁.stamp
        refine ⟨fun hd => hub (Option.some.inj (hu.symm.trans hd.2.1)), fun hda => ?_⟩
        have hua : u ≠ a := by
          rintro rfl
          exact hda ⟨Or.inl ⟨_, _, rfl⟩, hu, hok⟩
        exact Moves.ahead hs₁ hd₁ hlast hab₁ ⟨by simpa using hua.symm, by simpa using hub.symm⟩
          (by simp)
  | task hrun hI hsrc hstep => cases hsrc

/-- A task that stays in a ready list keeps its stamp, and one that enters the list meanwhile
is stamped by the clock of the start or later. -/
theorem Run.entered {a : Tid} (h : Inv cfg s)
    (ha : s.sched.stateL.container a = some (.ready p)) {tr : List Label}
    (hr : Runs.Exec (fun s l s' => Step cfg s l s' ∧
      s'.sched.stateL.container a = some (.ready p)) s tr s')
    (hb : s.sched.stateL.container b ≠ some (.ready p)) :
    s'.sched.stateL.container a = some (.ready p) ∧
      s'.sched.stateL.stamp a = s.sched.stateL.stamp a ∧
      (s'.sched.stateL.container b = some (.ready p) →
        s.sched.stateL.clock ≤ s'.sched.stateL.stamp b) := by
  suffices hall : Inv cfg s' ∧ s.sched.stateL.clock ≤ s'.sched.stateL.clock ∧
      s'.sched.stateL.container a = some (.ready p) ∧
      s'.sched.stateL.stamp a = s.sched.stateL.stamp a ∧
      (s'.sched.stateL.container b = some (.ready p) →
        s.sched.stateL.clock ≤ s'.sched.stateL.stamp b) from hall.2.2
  induction hr with
  | nil => exact ⟨h, le_rfl, ha, rfl, fun hb' => absurd hb' hb⟩
  | @snoc tr s₁ s₂ l hr hstep ih =>
      obtain ⟨hI, hle, ha₁, hst, hnew⟩ := ih
      obtain ⟨hs, ha₂⟩ := hstep
      obtain ⟨e, obs⟩ := l
      obtain ⟨acts, hm⟩ := (step_kind hI hs).moves
      have hclock := (Moves.clock_le hm).1
      refine ⟨hI.step hs, hle.trans hclock, ha₂,
        (Step.ready_stamp hI hs ha₁ ha₂).trans hst, fun hb₂ => ?_⟩
      by_cases hb₁ : s₁.sched.stateL.container b = some (.ready p)
      · rw [Step.ready_stamp hI hs hb₁ hb₂]
        exact hnew hb₁
      · rcases Moves.state_stamp hI.ready.inv hI.ready.delay hm b with hnone | hsame | hlate
        · rw [hb₂] at hnone
          simp at hnone
        · exact absurd (hsame.1.symm.trans hb₂) hb₁
        · exact hle.trans hlate

/-- **Round robin without overtaking.**  In every reachable state:
a task that enters a ready list in a run that keeps another one in it is stamped later;
of two tasks in a ready list, as long as the one that entered it first is not dispatched
and neither changes its priority, the other one is not dispatched, whatever happens
meanwhile; and a task that is switched out while it is runnable is not dispatched again
before a task that was ready at its level before it, unless one of them changes its
priority. -/
theorem round_robin (h : Reachable cfg s) (a b : Tid) :
    (∀ p tr s₁, s.sched.stateL.container a = some (.ready p) →
      s.sched.stateL.container b ≠ some (.ready p) →
      Runs.Exec (fun s l s' => Step cfg s l s' ∧
        s'.sched.stateL.container a = some (.ready p)) s tr s₁ →
      s₁.sched.stateL.container b = some (.ready p) → s₁.sched.Ahead a b p) ∧
    (∀ p tr s₁ l s₂, s.sched.Ahead a b p → Runs.Exec (Keeps cfg a b) s tr s₁ →
      Step cfg s₁ l s₂ → ¬ Dispatches l.1 s₂ b) ∧
    (s.cur = some b → b ≠ .idle → ¬ s.sched.Blocked b →
      s.sched.stateL.container a = some (.ready (s.sched.eff b)) →
      (s.sched.stateL.container b ≠ none →
        s.sched.stateL.stamp a < s.sched.stateL.stamp b) →
      ∀ sp guard obs s₁, Step cfg s (.switch sp guard, obs) s₁ → s₁.sched.failure = none →
        ¬ Dispatches (.switch sp guard) s₁ b ∧
        (Dispatches (.switch sp guard) s₁ a ∨ ∀ tr s₂ l s₃,
          Runs.Exec (Keeps cfg a b) s₁ tr s₂ → Step cfg s₂ l s₃ → ¬ Dispatches l.1 s₃ b)) := by
  have hI := h.inv
  have hf := h.readyFifo
  refine ⟨fun p tr s₁ ha hb hr hb₁ => ?_, fun p tr s₁ l s₂ hab hr hs => ?_,
    fun hcur hidle hnb ha hab sp guard obs s₁ hs hok => ?_⟩
  · obtain ⟨ha₁, hst, hnew⟩ := Run.entered hI ha hr hb
    refine ⟨ha₁, hb₁, ?_⟩
    rw [hst]
    exact lt_of_lt_of_le (s.sched.stateL.stamp_lt a (by rw [ha]; simp)) (hnew hb₁)
  · obtain ⟨hI₁, hf₁, hab₁⟩ := Keeps.ahead hI hf hab hr
    exact Step.not_overtaken hI₁ hf₁ hab₁ hs
  · obtain ⟨hnot, hahead⟩ := Step.switched_out hI hf hcur hidle hnb ha hab hs hok
    refine ⟨hnot, or_iff_not_imp_left.mpr fun hda tr s₂ l s₃ hr hs₂ => ?_⟩
    obtain ⟨hI₁, hf₁, hab₁⟩ := Keeps.ahead (hI.step hs) (hf.step hI hs) (hahead hda) hr
    exact Step.not_overtaken hI₁ hf₁ hab₁ hs₂

/-- The second of three equal tasks asks for a switch, after the first has yielded; the
first is ready behind the third. -/
def yieldingTask : List Label × Sys :=
  (Runs.runSteps (step smallConfig) smallBoot
    [createTask 1 0, createTask 2 0, createTask 3 0, .start, .call .yield, .resume,
      switchFrom 1, .call .yield, .resume]).get (by decide +kernel)

theorem yieldingTask_reachable : Reachable smallConfig yieldingTask.2 :=
  Reachable.of_runSteps smallBoot_initial (Option.some_get _).symm

/-- The switch that follows, which dispatches the third task. -/
def thirdTask : Sys × List Obs :=
  (step smallConfig yieldingTask.2 (switchFrom 2)).get (by decide +kernel)

theorem thirdTask_step :
    Step smallConfig yieldingTask.2 (switchFrom 2, thirdTask.2) thirdTask.1 :=
  step_of_isSome _

theorem round_robin_thirdTask :
    thirdTask.1.cur = some (.user 2) ∧ ¬ Dispatches (switchFrom 2) thirdTask.1 (.user 0) :=
  ⟨by decide +kernel, (round_robin yieldingTask_reachable (.user 2) (.user 0)).2.1 0 [] _ _ _
    ⟨by decide +kernel, by decide +kernel, by decide +kernel⟩ Runs.Exec.nil thirdTask_step⟩

end Artos
