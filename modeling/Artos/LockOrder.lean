/-
# Deadlock

The tasks that wait in the lists of the mutexes and the owners of the mutexes form a graph
(`Sys.waitGraph`).  `artos_mutex_lock` does not look for cycles in it.

When the mutexes have ranks and every task that can block in a lock owns only mutexes of a
smaller rank, or that mutex itself, no set of tasks ever waits for one another, and every task
waits in the end for one that waits for no mutex (`no_deadlock`).  A lock without a wait is free
of the discipline: it never blocks.
-/
import Artos.WaitGraph
import Artos.Unnested

open Function Relation

namespace Artos

open Sched

variable {cfg : Config} {s s' s₀ : Sys} {t u : Tid} {i j : ℕ} {e : Event} {obs : List Obs}
  {tr : List Label} {r : Outcome} {β : Type*} [Preorder β] {rank : ℕ → β}

/-- **Who waits for which mutex, and who owns which.** -/
def Sys.waitGraph (s : Sys) : WaitGraph.Graph Tid ℕ where
  waits t j := s.sched.eventL.container t = some (.mutexLock j)
  owns t j := Owns s j t

/-! ## Locking in rising order -/

/-- **A step in which a lock that may wait is of a higher rank** than every other mutex that its
task owns. -/
def RisingLocks (cfg : Config) (rank : ℕ → β) (s : Sys) (y : Label) (s' : Sys) : Prop :=
  Step cfg s y s' ∧ ∀ t j n, s.running = some t → y.1 = .call (.mutexLock j n) → n ≠ 0 →
    ∀ i, Owns s i t → i = j ∨ rank i < rank j

/-- **Whoever waits for a mutex owns only mutexes of smaller ranks**, until the mutex is handed
to it. -/
def Ordered (rank : ℕ → β) (s : Sys) : Prop :=
  ∀ t j, (s.pc t).waitsOn = some (.mutexLock j) → (s.sched.tcb t).waitReason ≠ .signaled →
    ∀ i, Owns s i t → rank i < rank j

/-- A lock without a wait ends at once. -/
theorem artosMutexLock_try {k : Kernel} : (artosMutexLock cfg k j 0).pc = .user := by
  unfold artosMutexLock
  split
  · rfl
  split
  · rfl
  split
  · rfl
  split
  · rfl
  · rw [if_pos (Or.inr (Or.inr rfl))]

/-- **A step of another task** hands a waiting task only what it waits for, and that ends its
wait. -/
theorem Ordered.spared (h₁ : Ordered rank s) (h : Inv cfg s) (hs : StepKind cfg s e obs s')
    (hsp : Spared cfg s t obs s') (hw : (s'.pc t).waitsOn = some (.mutexLock j))
    (hns : (s'.sched.tcb t).waitReason ≠ .signaled) (hi : Owns s' i t) : rank i < rank j := by
  obtain ⟨acts, hm, hspares, hhand⟩ := hsp.moves
  rw [hsp.pc] at hw
  have hsig := Moves.signaled h.ready hm (h.tasks t) hw hspares
  rcases (hs.owns_spared h hsp.actor).mp hi with hi | hi
  · apply h₁ t j hw ?_ i hi
    intro hold
    exact hns (hsig.mpr (Or.inl hold))
  · obtain ⟨hwaits, -⟩ := h.waits (hs.handed_waits h hi)
    rw [hw] at hwaits
    obtain rfl : j = i := by simpa using hwaits
    exact absurd (hsig.mpr (Or.inr ((hhand _).mp hi))) hns

/-- **The sections of a mutex**: a task that blocks has passed the discipline. -/
theorem Ordered.own (hrank : ∀ n, e = .call (.mutexLock i n) → n ≠ 0 →
      ∀ k, Owns s k t → k = i ∨ rank k < rank i)
    (h : Inv cfg s) (hI : InTask cfg s.sched t) (hsrc : TaskEvent cfg s t e (.mutex i) r)
    (hw : r.pc.waitsOn = some (.mutexLock j)) {k : ℕ} (hk : Owns (s.finish t r) k t) :
    rank k < rank j := by
  rcases hsrc.mutex h hI with ⟨n, rfl, hpc, hsec⟩ | ⟨-, -, hsec⟩ | ⟨-, -, hsec⟩
  · have hn : n ≠ 0 := by
      -- otherwise the call has ended
      rintro rfl
      generalize hx : Object.mutex i = x at hsrc
      cases hsrc with
      | call => 
          have hend : (artosMutexLock cfg s.kernel i 0).pc = .user := artosMutexLock_try
          have hpc' : (callStep cfg s.kernel (.mutexLock i 0)).pc = .user := hend
          rw [hpc'] at hw
          simp [Pc.waitsOn] at hw
    cases hsec with
    | refuse => simp [Pc.waitsOn] at hw
    | acquire => simp [Pc.waitsOn] at hw
    | @block m o w inf k₁ k₂ acts hm hown hne =>
        obtain rfl : i = j := by simpa [Pc.waitsOn, WaitPoint.list] using hw
        have hk' : Owns s k t := hk
        rcases hrank n rfl hn k hk' with rfl | hlt
        · exact absurd (Option.some.inj (hown.symm.trans (hk'.owner hm))).symm hne
        · exact hlt
  · cases hsec with
    | refuse => simp [Pc.waitsOn] at hw
    | @release m k₁ acts changed => cases changed <;> simp [Pc.waitsOn] at hw
    | @hand m k₁ acts changed w =>
        rcases ite_request (k₁.eff w > k₁.eff t) with hg | hg <;> simp [hg, Pc.waitsOn] at hw
  · cases hsec <;> simp [Pc.waitsOn] at hw

/-- **Every step of the discipline keeps the order.** -/
theorem Ordered.step (h₁ : Ordered rank s) (h : Inv cfg s)
    (hs : RisingLocks cfg rank s (e, obs) s') : Ordered rank s' := by
  have hk := step_kind h hs.1
  intro t j hw hns i hi
  cases hk.stepOf h t with
  | spared hsp => exact h₁.spared h hk hsp hw hns hi
  | @request q hrun hpc =>
      have hw' : (update s.pc t (afterRequest q) t).waitsOn = some (.mutexLock j) := hw
      rw [update_self, afterRequest_waitsOn] at hw'
      apply h₁ t j ?_ hns i hi
      rw [hpc]
      exact hw'
  | @own e x r hrun hI hsrc hstep =>
      have hpc' : (s.finish t r).pc t = r.pc := by simp [Sys.finish]
      rw [hpc'] at hw
      -- a section that ends in the list of a mutex is one of this mutex
      have hx : x = .mutex j := by
        cases hstep.ends with
        | user hu => simp [hu, Pc.waitsOn] at hw
        | request hu => simp [hu, Pc.waitsOn] at hw
        | read hx hu => simp [hu, Pc.waitsOn] at hw
        | @block w hu hobs hreason =>
            have hv := (hstep.valid w (by rw [hu]; rfl)).2
            have hl : w.list = .mutexLock j := by simpa [hu, Pc.waitsOn] using hw
            rw [← hv, hl]
            rfl
      subst hx
      exact Ordered.own (fun n he hn => hs.2 t j n hrun he hn) h hI hsrc hw hi

/-! ## No deadlock -/

/-- **Under the order the graph is rising.** -/
theorem Ordered.rising (h₁ : Ordered rank s) (h : Inv cfg s) : s.waitGraph.Rising rank := by
  intro t j i hwaits howns
  obtain ⟨hw, hns⟩ := h.waits hwaits
  exact h₁ t j hw hns i howns

/-- Only the tasks that exist wait. -/
theorem Inv.finite_waiters (h : Inv cfg s) : {t | ∃ u, s.waitGraph.WaitsFor t u}.Finite := by
  apply ((Set.finite_Iio s.sched.taskCount).image Tid.user).subset
  rintro t ⟨u, j, hwaits, -⟩
  have hc : s.sched.eventL.container t = some (.mutexLock j) := hwaits
  obtain ⟨i, rfl, hi⟩ := h.ready.inv.blocked_user (h.ready.inv.event_blocked t (by simp [hc]))
  exact ⟨i, hi, rfl⟩

/-- **Who waits for nobody is in the list of no mutex**: a mutex with a waiter has an owner. -/
theorem not_waiting (h : Inv cfg s) (hp : PrioInv s.kernel)
    (hend : ∀ u, ¬ s.waitGraph.WaitsFor t u) (j : ℕ) :
    s.sched.eventL.container t ≠ some (.mutexLock j) := by
  intro hc
  obtain ⟨hw, -⟩ := h.waits hc
  -- the wait point is about a mutex that exists
  have hex : ∃ m, s.kernel.mutex j = some m := by
    rw [Pc.waitsOn_eq, Option.map_eq_some_iff] at hw
    obtain ⟨w, hpoint, hl⟩ := hw
    have hvalid := h.points t w hpoint
    cases w with
    | mutex i =>
        obtain rfl : i = j := by simpa [WaitPoint.list] using hl
        exact Option.ne_none_iff_exists'.mp hvalid
    | _ => simp [WaitPoint.list] at hl
  obtain ⟨m, hm⟩ := hex
  cases hown : m.owner with
  | none => exact hp.vacant j m t hm hown hc
  | some o => exact hend o ⟨j, hc, m, hm, hown⟩

/-- **Locks in rising order never deadlock.**  In a run in which every lock that may wait is of a
higher rank than every other mutex its task owns, no set of tasks waits for one another, and
every task waits in the end for a task that waits for no mutex. -/
theorem no_deadlock (h₀ : Initial cfg s₀) (hr : Runs.Exec (RisingLocks cfg rank) s₀ tr s) :
    (∀ D, s.waitGraph.Knot D → D = ∅) ∧
      ∀ t, ∃ o, ReflTransGen s.waitGraph.WaitsFor t o ∧
        ∀ j, s.sched.eventL.container o ≠ some (.mutexLock j) := by
  have hreach : Reachable cfg s := ⟨s₀, tr, h₀, hr.mono fun _ _ _ hs => hs.1⟩
  have hinv : Inv cfg s ∧ Ordered rank s := by
    apply hr.invariant (I := fun s => Inv cfg s ∧ Ordered rank s)
    · rintro s ⟨e, obs⟩ s' ⟨h, h₁⟩ hs
      exact ⟨h.step hs.1, h₁.step h hs⟩
    · exact ⟨h₀.inv, fun t j _ _ i hi => absurd hi (h₀.not_owns i t)⟩
  obtain ⟨h, h₁⟩ := hinv
  have hrising := h₁.rising h
  constructor
  · intro D hD
    exact hrising.knot_eq_empty h.finite_waiters hD
  · intro t
    obtain ⟨o, hto, hend⟩ := hrising.exists_end h.finite_waiters t
    exact ⟨o, hto, not_waiting h hreach.prioInv hend⟩

/-! ## A chain of waiting tasks -/

/-- The mutex 1 ranks above all others. -/
def lastIsHigher (i : ℕ) : ℕ := if i = 1 then 1 else 0

/-- A task that locks another mutex than 1 holds none. -/
def LocksRise (s : Sys) : Event → Prop
  | .call (.mutexLock j _) => j ≠ 1 → ∀ t ∈ s.running, (s.sched.tcb t).mutexesHeld = 0
  | _ => True

instance (s : Sys) : ∀ e, Decidable (LocksRise s e)
  | .call (.mutexLock _ _) => inferInstanceAs (Decidable (_ → _))
  | .call (.taskCreate ..) | .call .yield | .call (.wait _) | .call (.waitUntil _)
  | .call (.semaphoreTake ..) | .call (.semaphoreSignal _) | .call (.mutexUnlock _)
  | .call (.queueEnqueue ..) | .call (.queueDequeue ..) => isTrue trivial
  | .bootCreate .. | .start | .resume | .tick | .switch .. | .isrEnter | .isrCall _
  | .isrReturn _ => isTrue trivial

theorem risingLocks_of_runSteps (h₀ : Initial cfg s₀) {es : List Event} {r : List Label × Sys}
    (h : Runs.runSteps (fun s e => (step cfg s e).filter fun _ => LocksRise s e) s₀ es = some r) :
    Runs.Exec (RisingLocks cfg lastIsHigher) s₀ r.1 r.2 := by
  have hrun := Runs.exec_of_runSteps_guard (step cfg) (fun s e _ => LocksRise s e) h
  refine (hrun.strengthen (I := Inv cfg) (fun s a s' hI hs => hI.step (l := a) hs.1)
    h₀.inv).mono fun s a s' hs => ⟨hs.1.1, fun t j n hr he _ i ho => ?_⟩
  obtain ⟨⟨-, hrise⟩, hI, -⟩ := hs
  rw [he] at hrise
  by_cases hij : i = j
  · exact Or.inl hij
  refine Or.inr ?_
  by_cases hj : j = 1
  · have hi : i ≠ 1 := hj ▸ hij
    simp [lastIsHigher, hj, hi]
  · obtain ⟨m, hm, hown⟩ := ho
    have hpos : 0 < (s.sched.tcb t).mutexesHeld := hI.mutexes.held_pos hm hown
    exact absurd (hrise hj t hr) hpos.ne'

/-- The task of priority 2 waits for the mutex 0 of the task of priority 1, which waits for the
mutex 1 of the task of priority 0. -/
def waitingChain : List Label × Sys :=
  (Runs.runSteps (fun s e => (step smallConfig s e).filter fun _ => LocksRise s e) smallBoot
    [createTask 1 0, createTask 2 1, createTask 3 2, .start, .call (.wait 2), .resume,
      switchFrom 3, .call (.wait 1), .resume, switchFrom 2, .call (.mutexLock 1 0xFFFFFFFF), .tick,
      switchFrom 1, .call (.mutexLock 0 0xFFFFFFFF), .call (.mutexLock 1 0xFFFFFFFF), .resume,
      switchFrom 2, .tick, switchFrom 1, .call (.mutexLock 0 0xFFFFFFFF), .resume,
      switchFrom 3]).get (by decide +kernel)

theorem no_deadlock_waitingChain :
    (∀ D, waitingChain.2.waitGraph.Knot D → D = ∅) ∧
      waitingChain.2.waitGraph.WaitsFor (.user 2) (.user 1) ∧
      waitingChain.2.waitGraph.WaitsFor (.user 1) (.user 0) := by
  have hrun : Runs.Exec (RisingLocks smallConfig lastIsHigher) smallBoot waitingChain.1
      waitingChain.2 := risingLocks_of_runSteps smallBoot_initial (Option.some_get _).symm
  have h0 : waitingChain.2.kernel.mutex 0 = some { owner := some (.user 1) } := by decide +kernel
  have h1 : waitingChain.2.kernel.mutex 1 = some { owner := some (.user 0) } := by decide +kernel
  refine ⟨(no_deadlock smallBoot_initial hrun).1, ⟨0, ?_, _, h0, rfl⟩, ⟨1, ?_, _, h1, rfl⟩⟩
  · show waitingChain.2.sched.eventL.container (.user 2) = some (.mutexLock 0)
    decide +kernel
  · show waitingChain.2.sched.eventL.container (.user 1) = some (.mutexLock 1)
    decide +kernel

end Artos
