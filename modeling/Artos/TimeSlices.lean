/-
# Bounded waiting

The rank of a ready task is the number of tasks that stand before it in its ready list.  No step
raises it, and a dispatch at the task's own level lowers it: so, as long as the task stays in its
list, at most as many tasks of its level are dispatched as stood before it, and every other
dispatch goes to a higher level.  A tick asks for a switch whenever the current task is of the
waiting task's level or below it (`bounded_waiting`).
-/
import Artos.RoundRobin
import Artos.WakeFlags

open Function

namespace Artos

open Sched

variable {cfg : Config} {k k' : Sched} {a t u : Tid} {p : ℕ} {acts : List Action}
  {obs : List Obs} {s s' : Sys} {e : Event}

/-! ## The rank of a ready task -/

/-- The tasks of the ready list `p` that entered it before the task. -/
def Sched.before (k : Sched) (p : ℕ) (a : Tid) : List Tid :=
  (k.stateL.elems (.ready p)).filter fun b => k.stateL.stamp b < k.stateL.stamp a

/-- In a list that is strictly increasing in `f`, the elements below `a` are those before it. -/
theorem length_filter_lt {α : Type*} [DecidableEq α] {f : α → ℕ} {a : α} {xs : List α}
    (hxs : xs.Pairwise fun b c => f b < f c) (ha : a ∈ xs) :
    (xs.filter fun b => f b < f a).length = xs.idxOf a := by
  induction xs with
  | nil => simp at ha
  | cons c rest ih =>
      obtain ⟨hc, hrest⟩ := List.pairwise_cons.mp hxs
      by_cases hca : c = a
      · subst hca
        rw [List.idxOf_cons_self, List.length_eq_zero_iff, List.filter_eq_nil_iff]
        intro b hb
        rcases List.mem_cons.mp hb with rfl | hb
        · simp
        · have hlt := hc b hb
          simp only [decide_eq_true_eq]
          omega
      · have hin : a ∈ rest := (List.mem_cons.mp ha).resolve_left (Ne.symm hca)
        rw [List.filter_cons_of_pos (by simpa using hc a hin), List.length_cons, ih hrest hin,
          List.idxOf_cons_ne _ hca]

/-- Its place in the list is the number of these tasks. -/
theorem ReadyFifo.length_before (hf : ReadyFifo k)
    (ha : k.stateL.container a = some (.ready p)) :
    (k.before p a).length = (k.stateL.elems (.ready p)).idxOf a :=
  length_filter_lt (hf p) ((k.stateL.mem_elems _ _).mpr ha)

theorem mem_before : u ∈ k.before p a ↔
    k.stateL.container u = some (.ready p) ∧ k.stateL.stamp u < k.stateL.stamp a := by
  simp [Sched.before, k.stateL.mem_elems]

theorem nodup_before : (k.before p a).Nodup := (k.stateL.nodup _).filter _

/-- **Nobody gets before a task that stays in its list.** -/
theorem Moves.before_subset (h : SInv cfg k) (hd : DelayInv k) (hm : Moves cfg k acts k')
    (ha : k.stateL.container a = some (.ready p))
    (hst : k'.stateL.stamp a = k.stateL.stamp a) : k'.before p a ⊆ k.before p a := by
  intro b hb
  obtain ⟨hc, hlt⟩ := mem_before.mp hb
  have hold : k.stateL.stamp a < k.stateL.clock := k.stateL.stamp_lt a (by simp [ha])
  rcases Moves.state_stamp h hd hm b with hnone | ⟨hkept, hsame⟩ | hnew
  · rw [hc] at hnone
    simp at hnone
  · apply mem_before.mpr
    constructor
    · exact hkept.symm.trans hc
    · omega
  · omega

/-- **A dispatch takes no task of a lower level than a ready one**, -/
theorem Move.dispatch_level (h : SInv cfg k) (hm : Move cfg k (.dispatch u) k')
    (ha : k.stateL.container a = some (.ready p)) :
    k.stateL.container u = some (.ready (k'.eff u)) ∧ p ≤ k'.eff u := by
  have hin := (k.stateL.mem_elems _ _).mpr ha
  cases hm with
  | @dispatch u q hall htop =>
      have hc := htop.container
      have hq : (k.dispatched u q).eff u = q := h.ready_prio u q hc
      rw [hq]
      refine ⟨hc, ?_⟩
      by_contra hlt
      rw [htop.above p (by omega)] at hin
      simp at hin
  | dispatchIdle hall hnone =>
      rw [hnone p] at hin
      simp at hin

/-- and of the level itself the first one. -/
theorem Move.dispatch_before (h : SInv cfg k) (hf : ReadyFifo k)
    (hm : Move cfg k (.dispatch u) k') (ha : k.stateL.container a = some (.ready p))
    (hua : u ≠ a) (hu : k'.eff u = p) : u ∈ k.before p a := by
  have hc := (hm.dispatch_level h ha).1
  rw [hu] at hc
  apply mem_before.mpr
  refine ⟨hc, ?_⟩
  have hin := (k.stateL.mem_elems _ _).mpr ha
  cases hm with
  | @dispatch u q hall htop =>
      obtain ⟨rest, hrest⟩ := htop.head
      obtain rfl : q = p := by
        rw [htop.container] at hc
        simpa using hc
      have hfifo : (k.stateL.elems (.ready q)).Pairwise
        fun b c => k.stateL.stamp b < k.stateL.stamp c := hf q
      rw [hrest] at hfifo hin
      exact (List.pairwise_cons.mp hfifo).1 a ((List.mem_cons.mp hin).resolve_left hua.symm)
  | dispatchIdle hall hnone =>
      rw [hnone p] at hin
      simp at hin

/-- **A dispatched task of the level stood before the waiting one**, and is gone. -/
theorem Dispatches.left_before (h : Inv cfg s) (hf : ReadyFifo s.sched)
    (hs : Step cfg s (e, obs) s') (ha : s.sched.stateL.container a = some (.ready p))
    (ha' : s'.sched.stateL.container a = some (.ready p)) (hd : Dispatches e s' u)
    (hu : s'.sched.eff u = p) : u ∈ s.sched.before p a ∧ u ∉ s'.sched.before p a := by
  have hgone := hd.unlinked h hs
  have hua : u ≠ a := by
    rintro rfl
    rw [hgone] at ha'
    simp at ha'
  obtain ⟨pre, k₁, hm, hdisp, hset, hlast⟩ := hd.moves h hs
  obtain ⟨ha₁, hst₁⟩ := Moves.ready_kept h.ready.inv h.ready.delay hm ha (hdisp a) fun q => hset a q
  have hmem := hlast.dispatch_before (h.ready.inv.moves h.ready.delay hm).1
    (hf.moves h.ready.inv h.ready.delay hm) ha₁ hua hu
  refine ⟨Moves.before_subset h.ready.inv h.ready.delay hm ha hst₁ hmem, ?_⟩
  intro hb
  have hc := (mem_before.mp hb).1
  rw [hgone] at hc
  simp at hc

/-! ## The wait of a ready task -/

/-- **A step during which the task stays in its ready list.**  The mark says whether the step
dispatches a task of the same level. -/
def StaysReady (cfg : Config) (a : Tid) (p : ℕ) (s : Sys) (b : Label × Bool) (s' : Sys) : Prop :=
  Step cfg s b.1 s' ∧ s'.sched.stateL.container a = some (.ready p) ∧
    (b.2 = true ↔ ∃ u, Dispatches b.1.1 s' u ∧ s'.sched.eff u = p)

/-- **A step raises the rank of nobody, and a dispatch at its level lowers it.** -/
theorem StaysReady.rank {b : Label × Bool} (h : Inv cfg s) (hf : ReadyFifo s.sched)
    (ha : s.sched.stateL.container a = some (.ready p)) (hs : StaysReady cfg a p s b s') :
    (s'.sched.before p a).length + (if b.2 then 1 else 0) ≤ (s.sched.before p a).length := by
  obtain ⟨hstep, ha', hmark⟩ := hs
  obtain ⟨⟨e, obs⟩, m⟩ := b
  have hst := Step.ready_stamp h hstep ha ha'
  obtain ⟨acts, hm⟩ := (step_kind h hstep).moves
  have hsub := Moves.before_subset h.ready.inv h.ready.delay hm ha hst
  cases m with
  | false => simpa using (List.subperm_of_subset nodup_before hsub).length_le
  | true =>
      obtain ⟨u, hd, hu⟩ := hmark.mp rfl
      obtain ⟨hin, hout⟩ := hd.left_before h hf hstep ha ha' hu
      -- the dispatched task stood before it and does no more
      have hcons : (u :: s'.sched.before p a).Subperm (s.sched.before p a) :=
        List.subperm_of_subset (List.nodup_cons.mpr ⟨hout, nodup_before⟩)
          (List.cons_subset.mpr ⟨hin, hsub⟩)
      simpa using hcons.length_le

/-- **The rank over a run.** -/
theorem StaysReady.run {tr : List (Label × Bool)} (h : Reachable cfg s)
    (ha : s.sched.stateL.container a = some (.ready p))
    (hr : Runs.Exec (StaysReady cfg a p) s tr s') :
    Reachable cfg s' ∧ s'.sched.stateL.container a = some (.ready p) ∧
      (s'.sched.before p a).length + tr.countP (·.2) ≤ (s.sched.before p a).length := by
  induction hr with
  | nil => exact ⟨h, ha, by simp⟩
  | @snoc tr s₁ s₂ b hr hs ih =>
      obtain ⟨h₁, ha₁, hle⟩ := ih
      obtain ⟨s₀, tr₀, h₀, hr₀⟩ := h₁
      have hrank := hs.rank (h₀.inv.run hr₀) (Reachable.readyFifo ⟨s₀, tr₀, h₀, hr₀⟩) ha₁
      refine ⟨⟨s₀, _, h₀, hr₀.snoc hs.1⟩, hs.2.1, ?_⟩
      rw [List.countP_append, List.countP_singleton]
      omega

/-- **A tick asks for a switch** while a task of the current task's level, or above it, is
ready. -/
theorem StepKind.tick_pends (h : Inv cfg s) (hs : StepKind cfg s .tick obs s') {c : Tid}
    (hcur : s.cur = some c) (ha : s.sched.stateL.container a = some (.ready p))
    (hle : s.sched.eff c ≤ p) : s'.pending = true := by
  cases hs with
  | @tick ts k hm hset =>
      have hr := h.ready
      have hcur' : k.curTask = some c := (Moves.curTask hm (by simp)).trans hcur
      have heff : k.eff c = s.sched.eff c :=
        Moves.eff_kept hr hm (by simp [Action.NoPrio, Action.NoMutex]) (by simp)
      have ha' := (Moves.ready_kept hr.inv hr.delay hm ha (by simp) (by simp)).1
      show (s.pending || k.rtosCheckRunnableTask k.curTask) = true
      rw [hcur', ((hr.inv.moves hr.delay hm).1.checkRunnable_iff (some c)).mpr ⟨a, p, ?_, ha'⟩,
        Bool.or_true]
      show k.eff c ≤ p
      omega
  | task hrun hI hsrc hstep => cases hsrc

/-- **Bounded waiting.**  In every run in which a task stays in its ready list, from any reachable
state on: at most as many tasks of its level are dispatched as stood before it in the list; every
switch that follows dispatches a task of its level or of a higher one; and while the current task
is of its level or of a lower one, a tick asks for a switch. -/
theorem bounded_waiting {tr : List (Label × Bool)} (h : Reachable cfg s)
    (ha : s.sched.stateL.container a = some (.ready p))
    (hr : Runs.Exec (StaysReady cfg a p) s tr s') :
    tr.countP (·.2) ≤ (s.sched.stateL.elems (.ready p)).idxOf a ∧
      (∀ l s'' u, Step cfg s' l s'' → Dispatches l.1 s'' u → p ≤ s''.sched.eff u) ∧
      ∀ obs s'' c, s'.cur = some c → s'.sched.eff c ≤ p → Step cfg s' (.tick, obs) s'' →
        s''.pending = true := by
  obtain ⟨h', ha', hle⟩ := StaysReady.run h ha hr
  have hI := h'.inv
  refine ⟨?_, fun l s'' u hs hd => ?_, fun obs s'' c hcur hc hs => ?_⟩
  · rw [← h.readyFifo.length_before ha]
    omega
  · obtain ⟨e, obs⟩ := l
    obtain ⟨pre, k₁, hm, hdisp, hset, hlast⟩ := hd.moves hI hs
    have ha₁ := (Moves.ready_kept hI.ready.inv hI.ready.delay hm ha' (hdisp a)
      fun q => hset a q).1
    exact (hlast.dispatch_level (hI.ready.inv.moves hI.ready.delay hm).1 ha₁).2
  · exact (step_kind hI hs).tick_pends hI hcur ha' hc

/-- Three equal tasks; the first one runs. -/
def equalTasks : List Label × Sys :=
  (Runs.runSteps (step smallConfig) smallBoot
    [createTask 1 0, createTask 2 0, createTask 3 0, .start]).get (by decide +kernel)

theorem equalTasks_reachable : Reachable smallConfig equalTasks.2 :=
  Reachable.of_runSteps smallBoot_initial (Option.some_get _).symm

/-- A tick ends its time slice, -/
def sliceEnd : Sys × List Obs := (step smallConfig equalTasks.2 .tick).get (by decide +kernel)

/-- and the second one runs. -/
def nextSlice : Sys × List Obs :=
  (step smallConfig sliceEnd.1 (switchFrom 1)).get (by decide +kernel)

theorem nextSlice_run : Runs.Exec (StaysReady smallConfig (.user 2) 0) equalTasks.2
    [((.tick, sliceEnd.2), false), ((switchFrom 1, nextSlice.2), true)] nextSlice.1 := by
  have hfirst : StaysReady smallConfig (.user 2) 0 equalTasks.2 ((.tick, sliceEnd.2), false)
      sliceEnd.1 := by
    refine ⟨step_of_isSome (by decide +kernel), by decide +kernel, ?_⟩
    simp [Dispatches]
  have hsecond : StaysReady smallConfig (.user 2) 0 sliceEnd.1
      ((switchFrom 1, nextSlice.2), true) nextSlice.1 := by
    refine ⟨step_of_isSome (by decide +kernel), by decide +kernel, fun _ => ?_, fun _ => rfl⟩
    exact ⟨.user 1, ⟨Or.inl ⟨_, _, rfl⟩, by decide +kernel, by decide +kernel⟩, by decide +kernel⟩
  exact (Runs.Exec.single hfirst).snoc hsecond

theorem bounded_waiting_nextSlice :
    1 ≤ (equalTasks.2.sched.stateL.elems (.ready 0)).idxOf (.user 2) :=
  (bounded_waiting equalTasks_reachable (by decide +kernel) nextSlice_run).1

end Artos
