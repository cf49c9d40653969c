/-
# Where inherited priorities come from

A task that runs above its base priority owns a mutex, and its priority is the base priority of
a task that has blocked on a mutex before (`boost_sources`): no chain of inheritances and no
order of timeouts makes up a priority.  Hence, where no preemption is missed, a task runs in front
of a ready task of higher base priority only because it owns a mutex, and only when a task of at
least that base priority has contended for one (`inversion_sources`).
-/
import Artos.Promptness

open Function

namespace Artos

open Sched

variable {cfg : Config} {k k' : Sched} {t u w : Tid} {acts : List Action} {os obs : List Obs}
  {s s' s₀ : Sys} {e : Event} {tr : List Label} {p : ℕ}

/-! ## Sources -/

/-- **The tasks that have blocked on a mutex.** -/
def Contenders (os : List Obs) : Set Tid := {t | ∃ j, Obs.blocked (some t) (.mutexLock j) ∈ os}

/-- The base priority of a task. -/
def Sched.base (k : Sched) (t : Tid) : ℕ := (k.tcb t).priority

/-- **The priority is the task's own, or that of one of the tasks `W`.** -/
def Sourced (W : Set Tid) (k : Sched) (t : Tid) (p : ℕ) : Prop :=
  p = k.base t ∨ ∃ w ∈ W, p = k.base w

/-- **Every effective priority has a source** among the contenders, who are tasks that exist and
among whom are all that wait for a mutex now. -/
structure Sources (os : List Obs) (k : Sched) : Prop where
  eff : ∀ t, Sourced (Contenders os) k t (k.eff t)
  waiter : ∀ j t, k.eventL.container t = some (.mutexLock j) → t ∈ Contenders os
  user : ∀ w ∈ Contenders os, ∃ i, w = .user i ∧ i < k.taskCount

theorem contenders_append : Contenders (os ++ obs) = Contenders os ∪ Contenders obs := by
  ext t
  simp [Contenders, exists_or]

/-- More tasks and the same base priorities keep a source. -/
theorem Sourced.mono {W W' : Set Tid} (h : Sourced W k t p) (hW : W ⊆ W')
    (ht : k'.base t = k.base t) (hbase : ∀ w ∈ W, k'.base w = k.base w) : Sourced W' k' t p := by
  rcases h with h | ⟨w, hw, h⟩
  · exact Or.inl (h.trans ht.symm)
  · exact Or.inr ⟨w, hW hw, h.trans (hbase w hw).symm⟩

/-- The priority of a task with a source is a source for every other one. -/
theorem Sourced.of_eff {W : Set Tid} (h : Sourced W k w p) (hw : w ∈ W) : Sourced W k t p := by
  rcases h with h | h
  · exact Or.inr ⟨w, hw, h⟩
  · exact Or.inr h

/-- **The required priority has a source**: it is the owner's own or the first waiter's. -/
theorem Sources.required (h : Sources os k) (o : Tid) (j : ℕ) :
    Sourced (Contenders os) k o (rtosMutexRequiredPriority k (some o) (.mutexLock j)) := by
  rcases hl : k.eventL.elems (.mutexLock j) with _ | ⟨w, rest⟩
  · rw [rtosMutexRequiredPriority_nil hl]
    exact Or.inl rfl
  · rw [rtosMutexRequiredPriority_cons hl]
    rcases max_choice (k.eff w) (k.tcb o).priority with hmax | hmax
    · rw [hmax]
      exact (h.eff w).of_eff (h.waiter j w (ListStore.container_of_head hl))
    · rw [hmax]
      exact Or.inl rfl

/-! ## Steps -/

/-- What keeps the sources: existing tasks keep their base priorities, a new effective priority has
a source, and a new waiter is a contender. -/
theorem Sources.next (h : Sources os k)
    (hbase : ∀ t i, t = .user i → i < k.taskCount → k'.base t = k.base t)
    (heff : ∀ t, k'.eff t = k.eff t ∧ k'.base t = k.base t ∨
      Sourced (Contenders (os ++ obs)) k' t (k'.eff t))
    (hwait : ∀ j t, k'.eventL.container t = some (.mutexLock j) →
      k.eventL.container t = some (.mutexLock j) ∨ t ∈ Contenders (os ++ obs))
    (hcount : k.taskCount ≤ k'.taskCount)
    (huser : ∀ w ∈ Contenders obs, ∃ i, w = .user i ∧ i < k.taskCount) :
    Sources (os ++ obs) k' := by
  have hsub : Contenders os ⊆ Contenders (os ++ obs) := by
    rw [contenders_append]
    exact Set.subset_union_left
  constructor
  · intro t
    rcases heff t with ⟨he, hb⟩ | hsrc
    · rw [he]
      refine (h.eff t).mono hsub hb fun w hw => ?_
      obtain ⟨i, hi, hlt⟩ := h.user w hw
      exact hbase w i hi hlt
    · exact hsrc
  · intro j t ht
    exact (hwait j t ht).elim (fun hold => hsub (h.waiter j t hold)) id
  · intro w hw
    rw [contenders_append] at hw
    obtain ⟨i, hi, hlt⟩ := hw.elim (h.user w) (huser w)
    exact ⟨i, hi, hlt.trans_le hcount⟩

/-- Nothing that counts has changed. -/
theorem Sources.congr (h : Sources os k) (heff : ∀ t, k'.eff t = k.eff t)
    (hbase : ∀ t, k'.base t = k.base t)
    (hwait : ∀ j t, k'.eventL.container t = some (.mutexLock j) →
      k.eventL.container t = some (.mutexLock j)) (hcount : k'.taskCount = k.taskCount) :
    Sources os k' := by
  rw [← List.append_nil os]
  refine h.next (fun t _ _ _ => hbase t) (fun t => Or.inl ⟨heff t, hbase t⟩)
    (fun j t ht => Or.inl (hwait j t ht)) hcount.ge ?_
  simp [Contenders]

/-- A new effective priority with a source. -/
theorem Sources.withEff (h : Sources os k) {o : Tid} (hp : Sourced (Contenders os) k o p) :
    Sources os (k.withEff o p) := by
  have hbase : ∀ t, (k.withEff o p).base t = k.base t := fun t => withEff_priority
  rw [← List.append_nil os]
  refine h.next (fun t _ _ _ => hbase t) (fun t => ?_) (fun j t ht => Or.inl ?_) le_rfl ?_
  · rw [withEff_eff, List.append_nil]
    split
    · rename_i hto
      rw [hto]
      exact Or.inr (hp.mono subset_rfl (hbase o) fun w _ => hbase w)
    · exact Or.inl ⟨rfl, hbase t⟩
  · rwa [withEff_eventContainer] at ht
  · simp [Contenders]

/-- Moves of other objects: a task they create runs at its base priority. -/
theorem View.foldl_noPrio_or {v : View} (ha : ∀ a ∈ acts, a.NoPrio) :
    ((acts.foldl (View.after u) v).eff = v.eff ∧ (acts.foldl (View.after u) v).base = v.base) ∨
      (acts.foldl (View.after u) v).eff = (acts.foldl (View.after u) v).base := by
  induction acts generalizing v with
  | nil => exact Or.inl ⟨rfl, rfl⟩
  | cons a acts ih =>
      have hrest : ∀ b ∈ acts, b.NoPrio := fun b hb => ha b (List.mem_cons_of_mem _ hb)
      have hone : (v.after u a).eff = v.eff ∧ (v.after u a).base = v.base ∨
          (v.after u a).eff = (v.after u a).base := by
        have haa := ha a List.mem_cons_self
        cases a with
        | held u' n => exact absurd haa id
        | setEff u' p => exact absurd haa id
        | create i p =>
            simp only [View.after]
            split
            · exact Or.inr rfl
            · exact Or.inl ⟨rfl, rfl⟩
        | block | wake | expire | clear =>
            simp only [View.after]
            split <;> exact Or.inl ⟨rfl, rfl⟩
        | _ => exact Or.inl ⟨rfl, rfl⟩
      rw [List.foldl_cons]
      rcases ih (v := v.after u a) hrest with ⟨he, hb⟩ | hr
      · rcases hone with ⟨he', hb'⟩ | hr'
        · exact Or.inl ⟨he.trans he', hb.trans hb'⟩
        · exact Or.inr (he.trans (hr'.trans hb.symm))
      · exact Or.inr hr

theorem Sources.of_moves (h : Sources os k) (hr : Ready cfg k) (hm : Moves cfg k acts k')
    (ha : ∀ a ∈ acts, a.NoPrio) (hobs : Contenders obs = ∅) : Sources (os ++ obs) k' := by
  have hview := Moves.view hr.inv hr.delay hm
  refine h.next (fun t i hi hlt => (hm.prio_kept hr ha ⟨i, hi, hlt⟩).2) (fun t => ?_)
    (fun j t ht => Or.inl ?_) (Moves.taskCount_le hm).1 (by simp [hobs])
  · have hcases := View.foldl_noPrio_or (u := t) (v := k.view t) ha
    rw [← hview t] at hcases
    exact hcases.imp id Or.inl
  · have he : (k'.view t).event = some (.mutexLock j) := ht
    rw [hview] at he
    exact View.foldl_mutexLock (fun a hmem => (ha a hmem).noMutex) he

/-- The task in whose critical section the processor is exists. -/
theorem InTask.user (hI : InTask cfg k t) : ∃ i, t = .user i ∧ i < k.taskCount := by
  cases t with
  | idle => exact absurd rfl hI.can.ne_idle
  | user i => exact ⟨i, rfl, hI.inv.cur_lt i hI.can.cur⟩

/-- Observations of a mutex other than a blocked task make no contender. -/
theorem Sources.uncontended (h : Sources os k) (hobs : Contenders obs = ∅) :
    Sources (os ++ obs) k :=
  h.next (fun _ _ _ _ => rfl) (fun _ => Or.inl ⟨rfl, rfl⟩) (fun _ _ => Or.inl) le_rfl
    (by simp [hobs])

/-- **A lock** makes its task a contender and gives the owner no priority without a source. -/
theorem LockSection.sources {k : Kernel} {j : ℕ} {o : Outcome} (hI : InTask cfg k.sched t)
    (hs : LockSection cfg k j t o) (h : Sources os k.sched) :
    Sources (os ++ o.obs) o.kernel.sched := by
  have hnone : ∀ r, Sources (os ++ [Obs.locked j (some t) r]) k.sched := fun r =>
    h.uncontended (by simp [Contenders])
  cases hs with
  | refuse => exact hnone false
  | @acquire m hm hown hheld =>
      exact (hnone true).congr (fun u => withHeld_eff _) (fun u => withHeld_priority _)
        (fun _ _ hw => hw) rfl
  | @block m o w inf k₁ k₂ acts hm hown hne hheld hb hi =>
      have hkept := Moves.block_kept hI.toReady hb
      have ht : t ∈ Contenders (os ++ [Obs.blocked (some t) (.mutexLock j)]) := by
        rw [contenders_append]
        exact Or.inr ⟨j, List.mem_singleton_self _⟩
      have h₁ : Sources (os ++ [Obs.blocked (some t) (.mutexLock j)]) k₁ := by
        refine h.next (fun u _ _ _ => (hkept u).2.1)
          (fun u => Or.inl ⟨(hkept u).2.2.1, (hkept u).2.1⟩) (fun i u hu => ?_)
          (Moves.taskCount_le hb).1 fun w hw => ?_
        · rw [(hkept u).2.2.2] at hu
          split at hu
          · rename_i hut
            exact Or.inr (hut ▸ ht)
          · exact Or.inl hu
        · obtain ⟨i, hi⟩ := hw
          obtain ⟨rfl, -⟩ : w = t ∧ i = j := by simpa using hi
          exact hI.user
      cases hi with
      | keep hle => exact h₁
      | raise hlt => exact h₁.withEff (h₁.required o j)

/-- **An unlock** lowers its task to its base priority at most. -/
theorem UnlockSection.sources {k : Kernel} {j : ℕ} {o : Outcome}
    (hs : UnlockSection cfg k j t o) (h : Sources os k.sched) :
    Sources (os ++ o.obs) o.kernel.sched := by
  have hrel : ∀ {k₁ acts changed}, RelinquishEffect k.sched t k₁ acts changed →
      Sources os k₁ := by
    intro k₁ acts changed hr
    have hheld : ∀ n, Sources os (k.sched.withHeld t n) := fun n =>
      h.congr (fun u => withHeld_eff n) (fun u => withHeld_priority n) (fun _ _ hw => hw) rfl
    cases hr with
    | keep hkeep => exact hheld _
    | drop hlast hne => exact (hheld _).withEff (Or.inl (withHeld_priority _).symm)
  cases hs with
  | refuse hno => exact h.uncontended (by simp [Contenders])
  | release hm hown hr hl => exact (hrel hr).uncontended (by simp [Contenders])
  | @hand m k₁ acts changed w rest hm hown hr hl =>
      have hwoken : Sources os ((k₁.unblocked w .signaled).withHeld w
          ((k₁.tcb w).mutexesHeld + 1)) := by
        refine (hrel hr).congr (fun u => ?_) (fun u => ?_) (fun i u hu => ?_) rfl
        · rw [withHeld_eff, unblocked_eff]
        · exact (withHeld_priority _).trans (unblocked_priority _)
        · -- the other waiters stay
          have hu : (k₁.eventL.remove w).container u = some (.mutexLock i) := hu
          rw [ListStore.remove_container, update_apply] at hu
          split at hu
          · simp at hu
          · exact hu
      exact hwoken.uncontended (by simp [Contenders])

/-- **The end of a lock** that timed out leaves the owner a priority that is still required. -/
theorem LockResumeSection.sources {k : Kernel} {j : ℕ} {o : Outcome} (hI : InTask cfg k.sched t)
    (hs : LockResumeSection k j t o) (h : Sources os k.sched) :
    Sources (os ++ o.obs) o.kernel.sched := by
  have hclear : Sources os k.sched.rtosClearCurrentWaitReason := by
    rw [← List.append_nil os]
    exact h.of_moves hI.toReady hI.clear (by simp [Action.NoPrio, Action.NoMutex])
      (by simp [Contenders])
  cases hs with
  | granted hres => exact hclear.uncontended (by simp [Contenders])
  | @timedOut m k₁ acts hm hres hd =>
      refine Sources.uncontended ?_ (by simp [Contenders])
      cases hd with
      | keep => exact hclear
      | @drop v ho hheld hlt =>
          apply hclear.withEff
          rw [ho] at hlt ⊢
          rcases max_choice (rtosMutexRequiredPriority k.sched.rtosClearCurrentWaitReason (some v)
            (.mutexLock j)) (k.sched.rtosClearCurrentWaitReason.tcb v).priority with hmax | hmax
          · rw [hmax]
            exact hclear.required v j
          · rw [hmax]
            exact Or.inl rfl

/-- **Every step keeps the sources.** -/
theorem StepKind.sources (h : Inv cfg s) (hs : StepKind cfg s e obs s')
    (hsrc : Sources os s.sched) : Sources (os ++ obs) s'.sched := by
  cases hs.mutexStep h with
  | other hm ha hmutex hobs =>
      refine hsrc.of_moves h.ready hm ha ?_
      rw [Set.eq_empty_iff_forall_notMem]
      rintro w ⟨j, hj⟩
      exact hobs _ hj j rfl
  | lock hrun hI hpc hstep hsec => exact hsec.sources hI hsrc
  | unlock hrun hI hpc hstep hsec => exact hsec.sources hsrc
  | resume hrun hI hpc hstep hsec => exact hsec.sources hI hsrc

/-! ## Runs -/

/-- At the start every task runs at its base priority, and nobody has contended. -/
theorem Initial.sources (h₀ : Initial cfg s₀) : Sources [] s₀.sched := by
  have hnone : Contenders [] = ∅ := by simp [Contenders]
  rw [h₀.sched]
  refine ⟨fun t => Or.inl ?_, fun j t ht => ?_, by simp [hnone]⟩
  · cases t <;> simp [Sched.base, Sched.eff, rtosSystemInit, rtosInitTcb, Tcb.zero]
  · have hempty : (none : Option EventList) = some (.mutexLock j) := ht
    simp at hempty

/-- **The sources of a run.** -/
theorem Run.sources (h₀ : Initial cfg s₀) (hr : Run cfg s₀ tr s) :
    Sources (observations tr) s.sched := by
  induction hr with
  | nil => exact h₀.sources
  | @snoc tr s₁ s₂ b hr hstep ih =>
      obtain ⟨e, obs⟩ := b
      have hI : Inv cfg s₁ := Reachable.inv ⟨s₀, tr, h₀, hr⟩
      rw [observations_snoc]
      exact (step_kind hI hstep).sources hI ih

/-- A task that runs above its base priority owns a mutex, and a contender lends it its base. -/
theorem Run.boosted (h₀ : Initial cfg s₀) (hr : Run cfg s₀ tr s)
    (ht : s.sched.eff t ≠ (s.sched.tcb t).priority) :
    (∃ j, Owns s j t) ∧ ∃ w ∈ Contenders (observations tr),
      s.sched.eff t = (s.sched.tcb w).priority := by
  have hreach : Reachable cfg s := ⟨s₀, tr, h₀, hr⟩
  constructor
  · -- who holds no mutex runs at the base priority
    have hheld : (s.sched.tcb t).mutexesHeld ≠ 0 := fun hzero => ht (hreach.prioInv.rested t hzero)
    have hcount := hreach.inv.mutexes.count t
    by_contra hno
    push Not at hno
    have hempty : OwnedBy s.kernel t = ∅ := Set.eq_empty_iff_forall_notMem.mpr hno
    rw [hempty, Set.encard_empty] at hcount
    exact hheld (by exact_mod_cast hcount.symm)
  · exact ((Run.sources h₀ hr).eff t).resolve_left ht

/-- **Every inherited priority has a source.**  After every run, a task that does not run at its
base priority owns a mutex, and runs at the base priority, above its own, of a task that has
blocked on a mutex in the run. -/
theorem boost_sources (h₀ : Initial cfg s₀) (hr : Run cfg s₀ tr s)
    (ht : s.sched.eff t ≠ (s.sched.tcb t).priority) :
    (∃ j, Owns s j t) ∧ ∃ w ∈ Contenders (observations tr),
      (s.sched.tcb t).priority < (s.sched.tcb w).priority ∧
        s.sched.eff t = (s.sched.tcb w).priority := by
  have hle := Reachable.inv ⟨s₀, tr, h₀, hr⟩ |>.ready.inv.prio_le t
  obtain ⟨howns, w, hw, heff⟩ := Run.boosted h₀ hr ht
  exact ⟨howns, w, hw, by omega, heff⟩

/-- Task 1, of priority 0, has a mutex, and task 0, of priority 1, waits for it.  Task 2, of
priority 1, has yielded to task 1, which runs at the priority of task 0. -/
def invertedTasks : List Label × Sys :=
  (Runs.runSteps (compliantStep smallConfig) smallBoot
    [createTask 1 1, createTask 2 0, createTask 3 1, .start,
      .call (.wait 1), .resume, switchFrom 1, .call (.wait 1), .resume, switchFrom 3,
      .call (.mutexLock 0 0), .tick, switchFrom 2,
      .call (.mutexLock 0 9), .resume, switchFrom 1,
      .call .yield, .resume, switchFrom 3]).get (by decide +kernel)

theorem invertedTasks_run : Runs.Exec (fun s b s' => Step smallConfig s b s' ∧ Complies s b.1)
    smallBoot invertedTasks.1 invertedTasks.2 :=
  compliant_of_runSteps (Option.some_get _).symm

theorem boost_sources_invertedTasks : (∃ j, Owns invertedTasks.2 j (.user 1)) ∧
    ∃ w ∈ Contenders (observations invertedTasks.1),
      (invertedTasks.2.sched.tcb w).priority = 1 := by
  have heff : invertedTasks.2.sched.eff (.user 1) = 1 := by decide +kernel
  obtain ⟨howns, w, hw, -, hsrc⟩ := boost_sources smallBoot_initial
    (invertedTasks_run.mono fun _ _ _ hs => hs.1) (t := .user 1) (by decide +kernel)
  exact ⟨howns, w, hw, hsrc.symm.trans heff⟩

/-- **Only contention for mutexes inverts priorities.**  Start from an initial state, let the
handlers comply, and let no unlock forget to request a switch.  Then a user task that runs outside
the kernel while a task of higher base priority is ready owns a mutex, and runs at the base priority
of a task that has blocked on one, which is no lower than that of the ready task. -/
theorem inversion_sources (h₀ : Initial cfg s₀)
    (hr : Runs.Exec (fun s b s' => Step cfg s b s' ∧ Complies s b.1 ∧ ∀ t, ¬ Forgets s t b.1)
      s₀ tr s) (ht : t ≠ .idle) (hcalm : s.Calm t) (hu : u ∈ s.sched.stateL.elems (.ready p))
    (hinv : (s.sched.tcb t).priority < (s.sched.tcb u).priority) :
    (∃ j, Owns s j t) ∧ ∃ w ∈ Contenders (observations tr),
      (s.sched.tcb u).priority ≤ (s.sched.tcb w).priority ∧
        s.sched.eff t = (s.sched.tcb w).priority := by
  have hrun : Run cfg s₀ tr s := hr.mono fun _ _ _ hs => hs.1
  have hI : Inv cfg s := Reachable.inv ⟨s₀, tr, h₀, hrun⟩
  have hlaw : PromptFor (· ≠ .idle) s :=
    Attentive.promptFor h₀ (hr.mono fun _ _ _ hs => ⟨hs.1, hs.2.1, fun v _ => hs.2.2 v,
      fun hno => absurd rfl hno⟩)
  -- the ready task does not rank above the running one
  have htop := prompt_of_promptFor hI hlaw t ht hcalm p u hu
  have hbase := hI.ready.inv.prio_le u
  obtain ⟨howns, w, hw, heff⟩ := Run.boosted h₀ hrun (t := t) (by omega)
  exact ⟨howns, w, hw, by omega, heff⟩

theorem inversion_sources_invertedTasks : ∃ w ∈ Contenders (observations invertedTasks.1),
    (invertedTasks.2.sched.tcb (.user 2)).priority ≤ (invertedTasks.2.sched.tcb w).priority := by
  have hno : ∀ b ∈ invertedTasks.1, b.1.isUnlock = false := by decide +kernel
  have hrun : Runs.Exec (fun s b s' => Step smallConfig s b s' ∧ Complies s b.1 ∧
      ∀ t, ¬ Forgets s t b.1) smallBoot invertedTasks.1 invertedTasks.2 := by
    refine (invertedTasks_run.restrict (Q := fun s b => ∀ t, ¬ Forgets s t b.1)
      fun b hb s t => not_forgets ?_ s t).mono fun s b s' hs => ⟨hs.1.1, hs.1.2, hs.2⟩
    intro j hj
    have hb := hno b hb
    rw [hj] at hb
    simp [Event.isUnlock] at hb
  have hcalm : invertedTasks.2.Calm (.user 1) := by
    refine ⟨by decide +kernel, by decide +kernel, ?_, ?_, by decide +kernel⟩
    · have hnil : invertedTasks.2.handlers = [] := by decide +kernel
      simp [hnil]
    · have hpc : invertedTasks.2.pc (.user 1) = .user := rfl
      simp [hpc]
  obtain ⟨-, w, hw, hle, -⟩ := inversion_sources smallBoot_initial hrun (t := .user 1)
    (u := .user 2) (p := 1) (by simp) hcalm (by decide +kernel) (by decide +kernel)
  exact ⟨w, hw, hle⟩

end Artos
