/-
# Ownership of a mutex

Who holds a mutex, told twice: by the history of the run (`holds`: a lock returned
true, and no unlock since) and by the owner field.  `Custody` says that they agree, in
the sense that matters to the tasks:

* a holder is the owner, and is in no call that waits for the mutex;
* inside a blocked lock, the task is the owner exactly when it has been signaled.

With `Grants` this settles what a blocked lock returns.
-/
import Artos.Inheritance
import Artos.Handoff

open Function

namespace Artos

open Sched

variable {cfg : Config} {t u : Tid} {j : ℕ} {obs obs₀ : List Obs} {s s' s₀ : Sys}
  {e : Event}

/-! ## Holders in the history -/

/-- The last successful lock of the mutex by the task is later than its last
successful unlock. -/
def holds (j : ℕ) (t : Tid) (obs : List Obs) : Bool :=
  History.flag (fun ob => ob = .locked j (some t) true)
    (fun ob => ob = .unlocked j (some t) true) obs

/-- Other tasks' calls and other objects say nothing about it. -/
theorem holds_append (hobs : ∀ ob ∈ obs, ob.actor ≠ some t ∨ ob.object ≠ .mutex j) :
    holds j t (obs₀ ++ obs) = holds j t obs₀ := by
  refine History.flag_append_of_silent fun ob hob => ?_
  rw [decide_eq_false_iff_not, decide_eq_false_iff_not]
  constructor <;> rintro rfl <;> simpa using hobs _ hob

/-- The last observation decides. -/
theorem holds_snoc (ob : Obs) : holds j t (obs₀ ++ [ob]) =
    if ob = .locked j (some t) true then true
    else if ob = .unlocked j (some t) true then false else holds j t obs₀ := by
  simp [holds, History.flag_snoc, History.flagStep]

/-! ## Owners under a step -/

/-- The task is the owner of the mutex. -/
def Owns (s : Sys) (j : ℕ) (t : Tid) : Prop := ∃ m, s.kernel.mutex j = some m ∧ m.owner = some t

theorem owns_congr (h : s'.kernel.mutex j = s.kernel.mutex j) : Owns s' j t ↔ Owns s j t := by
  unfold Owns
  rw [h]

/-- A mutex has one owner. -/
theorem Owns.owner (h : Owns s j u) {m : Mutex} (hm : s.kernel.mutex j = some m) :
    m.owner = some u := by
  obtain ⟨m', hm', hown⟩ := h
  rw [hm, Option.some.injEq] at hm'
  rw [hm']
  exact hown

/-- The owners after the mutex has changed its owner. -/
theorem owns_setMutex {k : Kernel} {sched : Sched} {o : Option Tid}
    (hk : s'.kernel = { k.setMutex j { owner := o } with sched := sched }) :
    Owns s' j u ↔ o = some u := by
  unfold Owns
  rw [hk]
  simp [Kernel.setMutex]

/-- A step in which the mutex does not take part changes neither owners nor history. -/
theorem StepKind.mutex_cases (h : Inv cfg s) (hs : StepKind cfg s e obs s') (j : ℕ) :
    (s'.kernel.mutex j = s.kernel.mutex j ∧ ∀ ob ∈ obs, ob.object ≠ .mutex j) ∨
      ∃ t o, s.running = some t ∧ InTask cfg s.sched t ∧ TaskStep cfg (.mutex j) t s.kernel o ∧
        obs = o.obs ∧ s' = s.finish t o ∧
        ((∃ n, e = .call (.mutexLock j n) ∧ s.pc t = .user ∧ LockSection cfg s.kernel j t o) ∨
          (e = .call (.mutexUnlock j) ∧ s.pc t = .user ∧ UnlockSection cfg s.kernel j t o) ∨
          (e = .resume ∧ s.pc t = .resume (.mutex j) ∧ LockResumeSection s.kernel j t o)) := by
  have hfar : ∀ {i t o}, i ≠ j → TaskStep cfg (.mutex i) t s.kernel o →
      (s.finish t o).kernel.mutex j = s.kernel.mutex j ∧ ∀ ob ∈ o.obs, ob.object ≠ .mutex j := by
    intro i t o hij hstep
    obtain ⟨acts, hsec, -⟩ := hstep.sec
    refine ⟨hsec.mutex j (by simpa using Ne.symm hij), fun ob hob he => hij ?_⟩
    simpa using (hsec.obs_ok.object ob hob).symm.trans he
  cases hs.mutexStep h with
  | other hm ha hmutex hobs => exact Or.inl ⟨congrFun hmutex j, fun ob hob => hobs ob hob j⟩
  | @lock i n t o hrun hI hpc hstep hsec =>
      by_cases hij : i = j
      · subst hij
        exact Or.inr ⟨t, o, hrun, hI, hstep, rfl, rfl, Or.inl ⟨n, rfl, hpc, hsec⟩⟩
      · exact Or.inl (hfar hij hstep)
  | @unlock i t o hrun hI hpc hstep hsec =>
      by_cases hij : i = j
      · subst hij
        exact Or.inr ⟨t, o, hrun, hI, hstep, rfl, rfl, Or.inr (Or.inl ⟨rfl, hpc, hsec⟩)⟩
      · exact Or.inl (hfar hij hstep)
  | @resume i t o hrun hI hpc hstep hsec =>
      by_cases hij : i = j
      · subst hij
        exact Or.inr ⟨t, o, hrun, hI, hstep, rfl, rfl, Or.inr (Or.inr ⟨rfl, hpc, hsec⟩)⟩
      · exact Or.inl (hfar hij hstep)

/-- **For a task that does not run in the step, owning begins exactly with a
hand-over.** -/
theorem StepKind.owns_spared (h : Inv cfg s) (hs : StepKind cfg s e obs s')
    (hu : ∀ ob ∈ obs, ob.actor ≠ some u) :
    Owns s' j u ↔ Owns s j u ∨ Obs.handed (.mutexLock j) u ∈ obs := by
  rcases hs.mutex_cases h j with ⟨hm, hobj⟩ | ⟨t, o, -, hI, -, rfl, rfl, hcases⟩
  · have hno : Obs.handed (.mutexLock j) u ∉ obs := fun hmem => hobj _ hmem rfl
    simp [owns_congr hm, hno]
  · rcases hcases with ⟨n, -, -, hsec⟩ | ⟨-, -, hsec⟩ | ⟨-, -, hsec⟩
    · cases hsec with
      | refuse => simp [Owns, Sys.finish]
      | @acquire m hm hown hheld =>
          have hut : t ≠ u := by simpa using hu
          have hno : ¬ Owns s j u := by
            intro ho
            simp [ho.owner hm] at hown
          rw [owns_setMutex rfl]
          simp [hno, hut]
      | block hm hown hne hheld hb hi => simp [Owns, Sys.finish]
    · cases hsec with
      | refuse hno => simp [Owns, Sys.finish]
      | @release m k₁ acts changed hm hown hr hl =>
          have hut : t ≠ u := by simpa using hu
          have hno : ¬ Owns s j u := by
            intro ho
            rw [ho.owner hm, Option.some.injEq] at hown
            exact hut hown.symm
          rw [owns_setMutex rfl]
          simp [hno]
      | @hand m k₁ acts changed w rest hm hown hr hl =>
          have hut : t ≠ u := by simpa using hu
          have hno : ¬ Owns s j u := by
            intro ho
            rw [ho.owner hm, Option.some.injEq] at hown
            exact hut hown.symm
          rw [owns_setMutex rfl]
          simp [hno, eq_comm]
    · cases hsec <;> simp [Owns, Sys.finish]

/-! ## History and owner agree -/

/-- **The history of the mutex `j` and its owner agree**, as far as the task `t` can
tell. -/
structure Custody (j : ℕ) (obs : List Obs) (s : Sys) (t : Tid) : Prop where
  holder : holds j t obs = true → Owns s j t ∧ (s.pc t).waitsOn ≠ some (.mutexLock j)
  waiter : (s.pc t).waitsOn = some (.mutexLock j) →
    (Owns s j t ↔ (s.sched.tcb t).waitReason = .signaled)

/-- The running task's own sections keep the agreement. -/
theorem Custody.own {o : Outcome} (hc : Custody j obs₀ s u) (hstep : TaskStep cfg (.mutex j) u s.kernel o)
    (hcases : (∃ n, e = .call (.mutexLock j n) ∧ s.pc u = .user ∧ LockSection cfg s.kernel j u o) ∨
      (e = .call (.mutexUnlock j) ∧ s.pc u = .user ∧ UnlockSection cfg s.kernel j u o) ∨
      (e = .resume ∧ s.pc u = .resume (.mutex j) ∧ LockResumeSection s.kernel j u o)) :
    Custody j (obs₀ ++ o.obs) (s.finish u o) u := by
  have hpc : (s.finish u o).pc u = o.pc := update_self _ _ _
  rcases hcases with ⟨n, -, -, hsec⟩ | ⟨-, -, hsec⟩ | ⟨-, hres, hsec⟩
  · cases hsec with
    | refuse =>
        refine ⟨fun hh => ?_, fun hw => by simp [hpc, Pc.waitsOn] at hw⟩
        have hold : holds j u obs₀ = true := by simpa [holds_snoc] using hh
        exact ⟨(hc.holder hold).1, by simp [hpc, Pc.waitsOn]⟩
    | acquire hm hown hheld =>
        refine ⟨fun _ => ⟨(owns_setMutex rfl).mpr rfl, by simp [hpc, Pc.waitsOn]⟩,
          fun hw => by simp [hpc, Pc.waitsOn] at hw⟩
    | @block m o' w inf k₁ k₂ acts hm hown hne hheld hb hi =>
        have hno : ¬ Owns s j u := by
          intro ho
          rw [ho.owner hm, Option.some.injEq] at hown
          exact hne hown
        refine ⟨fun hh => ?_, fun _ => iff_of_false hno ?_⟩
        · have hold : holds j u obs₀ = true := by simpa [holds_snoc] using hh
          exact absurd (hc.holder hold).1 hno
        · cases hstep.ends with
          | block hpc' hobs hreason => exact hreason
          | user hpc' => simp at hpc'
          | request hpc' => simp at hpc'
          | read hx hpc' => simp at hx
  · cases hsec with
    | refuse hno =>
        refine ⟨fun hh => ?_, fun hw => by simp [hpc, Pc.waitsOn] at hw⟩
        have hold : holds j u obs₀ = true := by simpa [holds_snoc] using hh
        exact ⟨(hc.holder hold).1, by simp [hpc, Pc.waitsOn]⟩
    | @release m k₁ acts changed hm hown hr hl =>
        refine ⟨fun hh => by simp [holds_snoc] at hh, fun hw => ?_⟩
        rw [hpc] at hw
        rcases ite_request (changed = true) with hi | hi <;> simp [hi, Pc.waitsOn] at hw
    | @hand m k₁ acts changed w rest hm hown hr hl =>
        refine ⟨fun hh => ?_, fun hw => ?_⟩
        · have hlast : holds j u ((obs₀ ++ [Obs.handed (.mutexLock j) w]) ++
              [Obs.unlocked j (some u) true]) = true := by
            rw [List.append_assoc]
            exact hh
          rw [holds_snoc] at hlast
          simp at hlast
        · rw [hpc] at hw
          rcases ite_request (k₁.eff w > k₁.eff u) with hi | hi <;> simp [hi, Pc.waitsOn] at hw
  · cases hsec with
    | granted hsig =>
        refine ⟨fun _ => ⟨?_, by simp [hpc, Pc.waitsOn]⟩, fun hw => by simp [hpc, Pc.waitsOn] at hw⟩
        exact (hc.waiter (by rw [hres]; rfl)).mpr hsig
    | timedOut hm hsig hd =>
        refine ⟨fun hh => ?_, fun hw => by simp [hpc, Pc.waitsOn] at hw⟩
        have hold : holds j u obs₀ = true := by simpa [holds_snoc] using hh
        exact absurd (by rw [hres]; rfl) (hc.holder hold).2

/-- **Every step keeps the agreement.** -/
theorem StepKind.custody (h : Inv cfg s) (hs : StepKind cfg s e obs s')
    (hc : ∀ t, Custody j obs₀ s t) (u : Tid) : Custody j (obs₀ ++ obs) s' u := by
  have hkind := hs
  cases hs.stepOf h u with
  | spared hsp =>
      obtain ⟨acts, hm, ha, hh⟩ := hsp.moves
      have howns := hkind.owns_spared (j := j) h hsp.actor
      refine ⟨fun hhold => ?_, fun hw => ?_⟩
      · rw [holds_append fun ob hob => Or.inl (hsp.actor ob hob)] at hhold
        rw [howns, hsp.pc]
        exact ⟨Or.inl ((hc u).holder hhold).1, ((hc u).holder hhold).2⟩
      · rw [hsp.pc] at hw
        rw [howns, (hc u).waiter hw, hh]
        exact (Moves.signaled h.ready hm (h.tasks u) hw ha).symm
  | @request r hrun hpc =>
      rw [List.append_nil]
      have hw : (update s.pc u (afterRequest r) u).waitsOn = (s.pc u).waitsOn := by
        rw [update_self, afterRequest_waitsOn, hpc]
      refine ⟨fun hhold => ?_, fun hw' => ?_⟩
      · show _ ∧ (update s.pc u (afterRequest r) u).waitsOn ≠ _
        rw [hw]
        exact (hc u).holder hhold
      · exact (hc u).waiter (hw ▸ hw')
  | @own e x o hrun hI hsrc hstep =>
      by_cases hx : x = .mutex j
      · subst hx
        exact (hc u).own hstep (hsrc.mutex h hI)
      · obtain ⟨acts, hsec, -⟩ := hstep.sec
        have hobj : ∀ ob ∈ o.obs, ob.object ≠ .mutex j :=
          fun ob hob he => hx ((hsec.obs_ok.object ob hob).symm.trans he)
        have hpc : (s.finish u o).pc u = o.pc := update_self _ _ _
        have hw : ((s.finish u o).pc u).waitsOn ≠ some (.mutexLock j) := by
          rw [hpc, Pc.waitsOn_eq]
          intro hp
          obtain ⟨w, hw, hl⟩ := Option.map_eq_some_iff.mp hp
          have hwx := (hstep.valid w hw).2
          rw [hl] at hwx
          exact hx hwx.symm
        refine ⟨fun hhold => ?_, fun hw' => absurd hw' hw⟩
        rw [holds_append fun ob hob => Or.inr (hobj ob hob)] at hhold
        exact ⟨(owns_congr (hsec.mutex j (Ne.symm hx))).mpr ((hc u).holder hhold).1, hw⟩

/-- The history of a run agrees with the owners it leads to. -/
theorem Run.custody (h₀ : Initial cfg s₀) {tr : List Label} (hr : Run cfg s₀ tr s) (j : ℕ) :
    ∀ t, Custody j (observations tr) s t := by
  refine run_history (P := fun obs s => ∀ t, Custody j obs s t) h₀ (fun t => ?_)
    (fun _ _ _ _ _ hreach hc hs => hs.custody hreach.inv hc) hr
  exact ⟨fun hh => by simp [holds] at hh, fun hw => by simp [h₀.pc, Pc.waitsOn] at hw⟩

/-! ## Mutex safety -/

/-- A blocked lock returns what it was granted, and without a grant its task does not
own the mutex. -/
theorem lock_resume (h₀ : Initial cfg s₀) {tr : List Label} (hr : Run cfg s₀ tr s)
    (hrun : s.running = some t) (hpc : s.pc t = .resume (.mutex j))
    (hs : Step cfg s (.resume, obs) s') :
    obs = [.locked j (some t) (granted (.mutexLock j) t (observations tr))] ∧
      (granted (.mutexLock j) t (observations tr) = false → ¬ Owns s' j t) := by
  have hI : Inv cfg s := h₀.inv.run hr
  have hw : (s.pc t).waitsOn = some (.mutexLock j) := by rw [hpc]; rfl
  have hgrant := (Run.grants h₀ hr).waits t _ hw
  have hcustody := (Run.custody h₀ hr j t).waiter hw
  have hvalid : (WaitPoint.mutex j).Valid s.kernel := hI.points t _ (by rw [hpc]; rfl)
  obtain ⟨m, hm⟩ := Option.ne_none_iff_exists'.mp hvalid
  have hsec := artosMutexLockResume_section (hI.inTask hrun (by simp [hpc])) hm
  obtain ⟨rfl, rfl⟩ := step_resume hrun hpc hs
  simp only [resumeStep]
  revert hsec
  generalize artosMutexLockResume cfg s.kernel j = o
  intro hsec
  cases hsec with
  | granted hsig =>
      have hg := hgrant.mpr hsig
      exact ⟨by rw [hg], fun hno => by simp [hg] at hno⟩
  | timedOut hm' hsig hd =>
      have hg : granted (.mutexLock j) t (observations tr) = false := by
        rw [← Bool.not_eq_true]
        exact fun hg => hsig (hgrant.mp hg)
      exact ⟨by rw [hg], fun _ ho => hsig (hcustody.mp ho)⟩

/-- **Mutex safety and direct handoff.**  After every run, for every mutex: (1) a task
whose lock returned true and which has not unlocked since is the owner, so there is at
most one; (2) a blocked lock returns true exactly when it was granted since it blocked,
only an unlock grants, by making the task the owner, and a lock that returns false does
not leave its task the owner; (3) without an owner nobody waits, so a lock that succeeds
at once passes nobody; (4) an unlock by another task returns false and changes
nothing. -/
theorem mutex_safety (h₀ : Initial cfg s₀) {tr : List Label} (hr : Run cfg s₀ tr s) (j : ℕ) :
    ((∀ t, holds j t (observations tr) = true → Owns s j t) ∧
      ∀ t u, holds j t (observations tr) = true → holds j u (observations tr) = true → t = u) ∧
    ((∀ t obs s', s.running = some t → s.pc t = .resume (.mutex j) →
        Step cfg s (.resume, obs) s' →
        obs = [.locked j (some t) (granted (.mutexLock j) t (observations tr))] ∧
          (granted (.mutexLock j) t (observations tr) = false → ¬ Owns s' j t)) ∧
      ∀ t e obs s', Step cfg s (e, obs) s' → Obs.handed (.mutexLock j) t ∈ obs →
        e = .call (.mutexUnlock j) ∧ Owns s' j t) ∧
    ((∀ m, s.kernel.mutex j = some m → m.owner = none →
        s.sched.eventL.elems (.mutexLock j) = []) ∧
      ∀ t n obs s', Step cfg s (.call (.mutexLock j n), obs) s' →
        Obs.locked j (some t) true ∈ obs → s.sched.eventL.elems (.mutexLock j) = []) ∧
    (∀ t obs s', s.running = some t → ¬ Owns s j t →
      Step cfg s (.call (.mutexUnlock j), obs) s' →
      obs = [.unlocked j (some t) false] ∧ s' = s) := by
  have hI : Inv cfg s := h₀.inv.run hr
  have hP : PrioInv s.kernel := Reachable.prioInv ⟨s₀, tr, h₀, hr⟩
  have hcustody := Run.custody h₀ hr j
  have hvacant : ∀ m, s.kernel.mutex j = some m → m.owner = none →
      s.sched.eventL.elems (.mutexLock j) = [] := by
    intro m hm hown
    rw [List.eq_nil_iff_forall_not_mem]
    intro w hw
    exact hP.vacant j m w hm hown (ListStore.container_of_mem hw)
  refine ⟨⟨fun t ht => ((hcustody t).holder ht).1, fun t u ht hu => ?_⟩,
    ⟨fun t obs s' hrun hpc hs => lock_resume h₀ hr hrun hpc hs, fun t e obs s' hs hmem => ?_⟩,
    ⟨hvacant, fun t n obs s' hs hmem => ?_⟩, fun t obs s' hrun hno hs => ?_⟩
  · obtain ⟨m, hm, hown⟩ := ((hcustody t).holder ht).1
    have hown' := ((hcustody u).holder hu).1.owner hm
    exact Option.some.inj (hown.symm.trans hown')
  · rcases (step_kind hI hs).mutex_cases hI j with
      ⟨-, hobj⟩ | ⟨v, o, -, -, -, rfl, rfl, ⟨n, -, -, hsec⟩ | ⟨he, -, hsec⟩ | ⟨-, -, hsec⟩⟩
    · exact absurd rfl (hobj _ hmem)
    · cases hsec <;> simp at hmem
    · cases hsec with
      | refuse hno => simp at hmem
      | release hm hown hrel hl => simp at hmem
      | @hand m k₁ acts changed w rest hm hown hrel hl =>
          have ht : t = w := by simpa using hmem
          subst ht
          exact ⟨he, (owns_setMutex rfl).mpr rfl⟩
    · cases hsec <;> simp at hmem
  · rcases (step_kind hI hs).mutex_cases hI j with
      ⟨-, hobj⟩ | ⟨v, o, -, -, -, rfl, rfl, ⟨n, -, -, hsec⟩ | ⟨he, -, hsec⟩ | ⟨he, -, hsec⟩⟩
    · exact absurd rfl (hobj _ hmem)
    · cases hsec with
      | refuse => simp at hmem
      | acquire hm hown hheld => exact hvacant _ hm hown
      | block hm hown hne hheld hb hi => simp at hmem
    · simp at he
    · simp at he
  · obtain ⟨hpc, rfl, rfl⟩ := step_call hrun hs
    have hrefuse : artosMutexUnlock cfg s.kernel j =
        ⟨s.kernel, .user, [.unlocked j (some t) false]⟩ := by
      have hcur : s.kernel.sched.curTask = some t := (running_eq hrun).1
      unfold artosMutexUnlock
      rw [hcur]
      rcases hm : s.kernel.mutex j with _ | m
      · rfl
      · have hne : m.owner ≠ some t := fun hown => hno ⟨m, hm, hown⟩
        simp only [hne, ne_eq, not_false_eq_true, if_true]
    simp only [callStep, hrefuse, Sys.finish, true_and]
    rw [← hpc, update_eq_self]

/-- A high task waits for the mutex of a low one, which hands it over and switches. -/
def handedMutex : List Label × Sys :=
  (Runs.runSteps (step smallConfig) smallBoot
    [createTask 1 0, createTask 2 1, .start, .call (.wait 1), .resume, switchFrom 2,
      .call (.mutexLock 0 0), .tick, switchFrom 1, .call (.mutexLock 0 5), .resume,
      switchFrom 2, .call (.mutexUnlock 0), .resume, switchFrom 1]).get (by decide +kernel)

theorem handedMutex_run : Run smallConfig smallBoot handedMutex.1 handedMutex.2 :=
  run_of_runSteps (Option.some_get _).symm

/-- The high task finds out that it was granted the mutex. -/
def handedMutexResume : Sys × List Obs :=
  (step smallConfig handedMutex.2 .resume).get (by decide +kernel)

theorem handedMutexResume_step :
    Step smallConfig handedMutex.2 (.resume, handedMutexResume.2) handedMutexResume.1 := by
  unfold handedMutexResume
  exact step_of_isSome _

theorem mutex_safety_handedMutex :
    granted (.mutexLock 0) (.user 1) (observations handedMutex.1) = true ∧
      handedMutexResume.2 = [.locked 0 (some (.user 1))
        (granted (.mutexLock 0) (.user 1) (observations handedMutex.1))] :=
  ⟨by decide +kernel,
    ((mutex_safety smallBoot_initial handedMutex_run 0).2.1.1 (.user 1) _ _
      (by decide +kernel) rfl handedMutexResume_step).1⟩

end Artos
