/-
# Stack checks and failures

Every switch checks the stack of the task it leaves.  As long as the check has not failed, the stack
pointer that is stored for a task lies in its stack, above the guard; when it fails, the kernel has
halted, and `rtos_failure_info` tells which task has overrun its stack (`stack_checked`).
-/
import Artos.Assertions
import Artos.TaskTable

open Function

namespace Artos

open Sched

variable {cfg : Config} {k k' : Sched} {t u : Tid} {a : Action} {acts : List Action}
  {obs : List Obs} {s s' s₀ : Sys} {e : Event} {tr : List Label} {sp : ℕ} {guard : ℕ → ℕ}

/-! ## The record of a failure -/

/-- The stack pointer lies in the stack of the task, above the guard. -/
def Tcb.InStack (task : Tcb) (sp : ℕ) : Prop :=
  task.stackBuffer + stackWordBytes * artosStackGuardWords ≤ sp ∧
    sp ≤ task.stackBuffer + stackWordBytes * task.stackWordCount

/-- The guard words are as they were written. -/
def GuardIntact (guard : ℕ → ℕ) : Prop :=
  ∀ i, i < artosStackGuardWords → guard i = artosStackGuardPattern

/-- **The check** passes for a pointer into the stack above an intact guard. -/
theorem artosTaskStackValid_iff {task : Tcb} :
    artosTaskStackValid task sp guard = true ↔ task.InStack sp ∧ GuardIntact guard := by
  unfold artosTaskStackValid Tcb.InStack GuardIntact
  simp only
  split
  · rename_i hout
    constructor
    · intro hfalse
      simp at hfalse
    · rintro ⟨hin, -⟩
      omega
  · rename_i hin
    rw [List.all_eq_true]
    constructor
    · intro hall
      exact ⟨by omega, fun i hi => by simpa using hall i (List.mem_range.mpr hi)⟩
    · rintro ⟨-, hall⟩ i hi
      simpa using hall i (List.mem_range.mp hi)

/-- The task is the idle task or has been created. -/
def Sched.Exists (k : Sched) (t : Tid) : Prop := t = .idle ∨ ∃ i, t = .user i ∧ i < k.taskCount

/-- **Every stored stack pointer lies in its stack.** -/
def Sched.StacksOk (k : Sched) : Prop :=
  ∀ t, k.Exists t → (k.tcb t).InStack (k.tcb t).stackPointer

/-- Whether a pointer lies in a stack depends on what the creation has set. -/
theorem inStack_congr {c c' : Tcb} (h : c'.fixed = c.fixed) : c'.InStack sp ↔ c.InStack sp := by
  unfold Tcb.InStack
  rw [show c'.stackBuffer = c.stackBuffer from congrArg Creation.stack h,
    show c'.stackWordCount = c.stackWordCount from congrArg Creation.stackWordCount h]

/-- **A move that stores no stack pointer keeps the stacks**; a new task starts in its own. -/
theorem Move.stacksOk (hm : Move cfg k a k') (ha : ∀ t sp, a ≠ .save t sp) (h : k.StacksOk) :
    k'.StacksOk := by
  intro t ht
  by_cases hnew : ∃ i p, a = .create i p ∧ t = .user i
  · obtain ⟨i, p, rfl, rfl⟩ := hnew
    cases hm with
    | @create entry argument stack n p hentry hprio hwords hlt =>
        unfold Tcb.InStack artosMinStackWords at *
        simp only [withTask, rtosInitTcb, update_self, rtosPortInitializeStack, stackWordBytes,
          artosStackGuardWords]
        omega
  · have hfixed := hm.fixed (t := t) fun i p hi ht => hnew ⟨i, p, hi, ht⟩
    rw [inStack_congr hfixed.1, hfixed.2 fun sp => ha t sp]
    apply h
    refine ht.imp id ?_
    rintro ⟨i, rfl, hi⟩
    refine ⟨i, rfl, ?_⟩
    by_cases hcreate : ∃ j p, a = .create j p
    · obtain ⟨j, p, rfl⟩ := hcreate
      cases hm with
      | create hentry hprio hwords hlt =>
          have hne : i ≠ k.taskCount := fun hij => hnew ⟨_, _, rfl, by rw [hij]⟩
          have hi : i < k.taskCount + 1 := hi
          omega
    · rwa [hm.taskCount fun j p hj => hcreate ⟨j, p, hj⟩] at hi

/-- Moves that store no stack pointer keep the stacks. -/
theorem Moves.stacksOk (hm : Moves cfg k acts k') (ha : ∀ t sp, .save t sp ∉ acts) :
    k.StacksOk → k'.StacksOk := by
  induction hm with
  | nil => exact id
  | @snoc tr k₁ k₂ b hm hmove ih =>
      intro h
      apply hmove.stacksOk
      · rintro t sp rfl
        exact ha t sp (List.mem_append_right _ (List.mem_singleton_self _))
      · exact ih (fun t sp hmem => ha t sp (List.mem_append_left _ hmem)) h

/-! ## Steps -/

/-- The event is a switch. -/
def Event.isSwitch : Event → Bool
  | .switch _ _ => true
  | _ => false

/-- **A step that is no switch** stores no stack pointer and records no failure. -/
theorem StepKind.unswitched (hs : StepKind cfg s e obs s') (he : e.isSwitch = false) :
    (s.sched.StacksOk → s'.sched.StacksOk) ∧ s'.sched.failure = s.sched.failure := by
  have hmoves : ∃ acts, Moves cfg s.sched acts s'.sched ∧ (∀ t sp, .save t sp ∉ acts) ∧
      ∀ f, .fail f ∉ acts := by
    cases hs with
    | create hcur hm hacts =>
        refine ⟨_, hm, ?_, ?_⟩ <;> rcases hacts with rfl | ⟨q, rfl⟩ <;> simp
    | start hcur hm hacts hnext =>
        refine ⟨_, hm, ?_, ?_⟩ <;> rcases hacts with rfl | ⟨u, rfl⟩ <;> simp
    | task hrun hI hsrc hstep =>
        obtain ⟨acts, hsec, -⟩ := hstep.sec
        exact ⟨acts, hsec.moves, fun t sp ha => hsec.acts_ok _ ha, fun f ha => hsec.acts_ok _ ha⟩
    | tick hm hset => exact ⟨_, hm, by simp, by simp⟩
    | switch hcur hpending hm hacts => simp [Event.isSwitch] at he
    | isrCall hh hstep =>
        obtain ⟨acts, hsec, -⟩ := hstep
        have hsec := hsec .idle
        exact ⟨acts, hsec.moves, fun t sp ha => hsec.acts_ok _ ha, fun f ha => hsec.acts_ok _ ha⟩
    | _ => exact ⟨[], .nil, by simp, by simp⟩
  obtain ⟨acts, hm, hsave, hfail⟩ := hmoves
  exact ⟨Moves.stacksOk hm hsave, Moves.failure_eq hm hfail⟩

/-- Selecting the next task changes no control block, and records no failure. -/
theorem selectReady_tcb (h : SInv cfg k) :
    (k.rtosSelectReady cfg).1.tcb = k.tcb ∧ (k.rtosSelectReady cfg).1.taskCount = k.taskCount ∧
      (k.rtosSelectReady cfg).1.failure = k.failure := by
  rcases rtosSelectReady_cases h with ⟨-, heq⟩ | ⟨t, p, -, heq⟩
  · rw [heq]
    exact ⟨rfl, rfl, rfl⟩
  · rw [heq]
    exact ⟨rfl, rfl, rfl⟩

theorem requeued_tcb (t : Tid) : (k.requeued t).tcb = k.tcb ∧
    (k.requeued t).taskCount = k.taskCount ∧ (k.requeued t).failure = k.failure := by
  unfold requeued
  split <;> exact ⟨rfl, rfl, rfl⟩

/-- Storing a pointer into the stack of its task keeps the stacks. -/
theorem StacksOk.saved (h : k.StacksOk) (hin : (k.tcb t).InStack sp) :
    (k.saved t sp).StacksOk := by
  intro u hu
  have hu : k.Exists u := hu
  by_cases hut : u = t
  · subst hut
    simpa [Sched.saved, setTcb, Tcb.InStack] using hin
  · simpa [Sched.saved, setTcb, update_of_ne hut] using h u hu

/-- **`rtos_scheduler_switch_context` checks the stack of the task that it leaves**: it goes on with
the pointer stored if the check passes, and halts if not. -/
theorem switchContext_checks (guard : ℕ → ℕ) (h : SInv cfg k) (ht : k.curTask = some t)
    (hsp : sp ≠ 0) :
    let k' := (k.rtosSchedulerSwitchContext cfg sp guard).1
    (k.tcb t).InStack sp ∧ GuardIntact guard ∧ k'.failure = k.failure ∧
        (k.StacksOk → k'.StacksOk) ∨
      ¬ ((k.tcb t).InStack sp ∧ GuardIntact guard) ∧
        k' = (k.saved t sp).recordFailure .stackOverflow := by
  intro k'
  have hnext : k' = (k.rtosSchedulerSelectNext cfg sp guard).1 := by
    simp only [k']
    unfold rtosSchedulerSwitchContext
    simp only
    split <;> rfl
  have hsaved : ((k.saved t sp).tcb t).InStack sp ↔ (k.tcb t).InStack sp := by
    simp [Sched.saved, setTcb, Tcb.InStack]
  rw [rtosSchedulerSelectNext_eq h ht hsp guard] at hnext
  by_cases hvalid : artosTaskStackValid ((k.saved t sp).tcb t) sp guard = true
  · rw [if_pos hvalid] at hnext
    obtain ⟨hin, hguard⟩ := artosTaskStackValid_iff.mp hvalid
    rw [hsaved] at hin
    have hs : SInv cfg (k.saved t sp) := h.saved ht hsp
    obtain ⟨htcb, hcount, hfail⟩ := selectReady_tcb (hs.requeued ht)
    obtain ⟨htcb', hcount', hfail'⟩ := requeued_tcb (k := k.saved t sp) t
    refine Or.inl ⟨hin, hguard, ?_, fun hk => ?_⟩
    · rw [hnext, hfail, hfail']
      rfl
    · have hok := StacksOk.saved hk hin
      unfold Sched.StacksOk Sched.Exists at hok ⊢
      rwa [hnext, htcb, htcb', hcount, hcount']
  · rw [if_neg hvalid] at hnext
    rw [artosTaskStackValid_iff, hsaved] at hvalid
    exact Or.inr ⟨hvalid, hnext⟩

/-- A switch of the machine is `rtos_scheduler_switch_context` in a state without a failure. -/
theorem step_switch (hs : Step cfg s (.switch sp guard, obs) s') :
    obs = [] ∧ sp ≠ 0 ∧ s.sched.failure = none ∧ s.cur ≠ none ∧
      s'.sched = (s.sched.rtosSchedulerSwitchContext cfg sp guard).1 := by
  unfold Step step at hs
  simp only at hs
  split at hs
  · rename_i hc
    simp only [Option.some.injEq, Prod.mk.injEq] at hs
    obtain ⟨rfl, rfl⟩ := hs
    exact ⟨rfl, hc.2.2.2.2, Option.isNone_iff_eq_none.mp hc.2.2.2.1, hc.1, rfl⟩
  · simp at hs

/-! ## Runs -/

/-- Before the first task the only stack is that of the idle task. -/
theorem Initial.stacksOk (h₀ : Initial cfg s₀) :
    s₀.sched.StacksOk ∧ s₀.sched.failure = none := by
  rw [h₀.sched]
  refine ⟨?_, rfl⟩
  rintro t (rfl | ⟨i, rfl, hi⟩)
  · simp only [rtosSystemInit, rtosInitTcb, update_self, rtosPortInitializeStack]
    unfold Tcb.InStack
    decide
  · exact absurd hi (Nat.not_lt_zero i)

/-- **What a failed run has recorded**: its last step was a switch that left a task with its stack
pointer outside its stack or with its guard overwritten. -/
def Overrun (cfg : Config) (s₀ : Sys) (tr : List Label) (s : Sys) : Prop :=
  ∃ tr₁ s₁ t sp guard, tr = tr₁ ++ [(.switch sp guard, [])] ∧ Run cfg s₀ tr₁ s₁ ∧
    s₁.sched.failure = none ∧ s₁.cur = some t ∧
    ¬ ((s₁.sched.tcb t).InStack sp ∧ GuardIntact guard) ∧
    s.sched = (s₁.sched.saved t sp).recordFailure .stackOverflow

/-- The stacks of a run. -/
theorem Run.stacksOk (h₀ : Initial cfg s₀) (hr : Run cfg s₀ tr s) :
    s.sched.failure = none ∧ s.sched.StacksOk ∨ Overrun cfg s₀ tr s := by
  induction hr with
  | nil => exact Or.inl ⟨(Initial.stacksOk h₀).2, (Initial.stacksOk h₀).1⟩
  | @snoc tr s₁ s₂ b hr hstep ih =>
      obtain ⟨e, obs⟩ := b
      have hnone := Step.failure_none hstep
      have hstacks : s₁.sched.StacksOk := by
        rcases ih with ⟨-, hok⟩ | ⟨_, _, _, _, _, -, -, -, -, -, hsched⟩
        · exact hok
        · simp [hsched, recordFailure] at hnone
      have hI : Inv cfg s₁ := Reachable.inv ⟨s₀, tr, h₀, hr⟩
      rcases he : e.isSwitch with _ | _
      · obtain ⟨hok, hfail⟩ := (step_kind hI hstep).unswitched he
        exact Or.inl ⟨hfail.trans hnone, hok hstacks⟩
      · cases e with
        | switch sp guard =>
            obtain ⟨rfl, hsp, -, hcur, hsched⟩ := step_switch hstep
            obtain ⟨t, ht⟩ := Option.ne_none_iff_exists'.mp hcur
            rcases switchContext_checks guard hI.ready.inv ht hsp with
              ⟨-, -, hfail, hok⟩ | ⟨hout, hhalt⟩
            · rw [hsched]
              exact Or.inl ⟨hfail.trans hnone, hok hstacks⟩
            · exact Or.inr ⟨tr, s₁, t, sp, guard, rfl, hr, hnone, ht, hout, hsched.trans hhalt⟩
        | _ => simp [Event.isSwitch] at he

end Artos
