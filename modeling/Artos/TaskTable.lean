/-
# The table of tasks

The control blocks in use are the successful creations of the run, each in the slot of its number
and as it was created: whatever the tasks do afterwards, nothing of what identifies them changes.
Whether a creation succeeds is decided by its arguments and by the length of the table alone
(`task_table`).
-/
import Artos.Preserve

open Function

namespace Artos

open Sched

variable {cfg : Config} {k k' : Sched} {t u : Tid} {a : Action} {acts : List Action}
  {obs : List Obs} {s s' s₀ : Sys} {e : Event} {tr : List Label} {x : Object} {o : Outcome} {i : ℕ}

/-! ## Creations -/

/-- The arguments of `artos_task_create`. -/
structure Creation where
  entry : ℕ
  argument : ℕ
  stack : ℕ
  stackWordCount : ℕ
  priority : ℕ
  deriving DecidableEq, Repr

/-- The event creates a task, or tries to. -/
def Event.creation : Event → Option Creation
  | .bootCreate entry argument stack n p => some ⟨entry, argument, stack, n.toNat, p.toNat⟩
  | .call (.taskCreate entry argument stack n p) =>
      some ⟨entry, argument, stack, n.toNat, p.toNat⟩
  | _ => none

/-- The task that a step has created. -/
def Label.creation (b : Label) : Option Creation :=
  if b.2 = [.created .ok] then b.1.creation else none

/-- **The tasks created in a run, in order.** -/
def creations (tr : List Label) : List Creation := tr.filterMap Label.creation

/-- The arguments are valid: an entry, an aligned stack that is large enough, and a priority that
exists. -/
structure Creation.Valid (cfg : Config) (c : Creation) : Prop where
  stack : c.stack ≠ 0
  entry : c.entry ≠ 0
  priority : c.priority < cfg.priorityCount
  aligned : (c.stack + stackWordBytes * c.stackWordCount) % 8 = 0
  words : artosMinStackWords ≤ c.stackWordCount

/-- The fields of a control block that its creation sets for good. -/
def Tcb.fixed (task : Tcb) : Creation :=
  ⟨task.entry, task.argument, task.stackBuffer, task.stackWordCount, task.priority⟩

/-- **The pool holds the table.** -/
structure TaskTable (table : List Creation) (k : Sched) : Prop where
  count : k.taskCount = table.length
  described : ∀ i c, table[i]? = some c → (k.tcb (.user i)).fixed = c

/-- Making a task ready creates none. -/
theorem rtosInsertReadyList_taskCount (t : Tid) :
    (k.rtosInsertReadyList cfg t).taskCount = k.taskCount := by
  unfold rtosInsertReadyList
  split
  · rfl
  · simp only [stateInsertEnd, artosAssert, recordFailure]
    split <;> rfl

/-- **A creation succeeds exactly if its arguments are valid and a slot is free.** -/
theorem artosTaskCreate_iff (h : SInv cfg k) (c : Creation) :
    let r := k.artosTaskCreate cfg c.entry c.argument c.stack c.stackWordCount c.priority
    c.Valid cfg ∧ k.taskCount < cfg.maxTasks ∧ r.2.1 = .ok ∧
        r.1 = k.withTask c.entry c.argument c.stack c.stackWordCount c.priority ∨
      ¬ (c.Valid cfg ∧ k.taskCount < cfg.maxTasks) ∧ r.2.1 ≠ .ok ∧ r.1 = k := by
  intro r
  have hcount := h.count_le
  by_cases hbad : c.stack = 0 ∨ c.entry = 0 ∨ c.priority ≥ cfg.priorityCount
  · have hr : r = (k, .invalidArgument, false) := if_pos hbad
    refine Or.inr ⟨fun hv => ?_, by simp [hr], by simp [hr]⟩
    rcases hbad with hb | hb | hb
    · exact hv.1.stack hb
    · exact hv.1.entry hb
    · exact absurd hv.1.priority (not_lt.mpr hb)
  by_cases halign : (c.stack + stackWordBytes * c.stackWordCount) % 8 ≠ 0
  · have hr : r = (k, .invalidArgument, false) := (if_neg hbad).trans (if_pos halign)
    exact Or.inr ⟨fun hv => halign hv.1.aligned, by simp [hr], by simp [hr]⟩
  by_cases hwords : c.stackWordCount < artosMinStackWords
  · have hr : r = (k, .stackTooSmall, false) :=
      (if_neg hbad).trans ((if_neg halign).trans (if_pos hwords))
    exact Or.inr ⟨fun hv => absurd hv.1.words (not_le.mpr hwords), by simp [hr], by simp [hr]⟩
  by_cases hlimit : k.taskCount = cfg.maxTasks
  · have hr : r = (k, .taskLimit, false) :=
      (if_neg hbad).trans ((if_neg halign).trans ((if_neg hwords).trans (if_pos hlimit)))
    exact Or.inr ⟨fun hv => absurd hv.2 (by omega), by simp [hr], by simp [hr]⟩
  push Not at hbad
  have hvalid : c.Valid cfg := ⟨hbad.1, hbad.2.1, hbad.2.2, by omega, by omega⟩
  have hlt : k.taskCount < cfg.maxTasks := by omega
  -- the first free slot is the one behind the table
  have hmatch : r.2.1 = .ok ∧ r.1.taskCount = u32 (k.taskCount + 1) := by
    have hslot := h.find_slot hlt
    simp only [r, artosTaskCreate]
    rw [if_neg (by omega), if_neg halign, if_neg hwords, if_neg hlimit, hslot]
    exact ⟨rfl, rtosInsertReadyList_taskCount _⟩
  rcases artosTaskCreate_cases h c.entry c.argument c.stack c.stackWordCount c.priority with
    ⟨status, heq⟩ | ⟨-, heq⟩
  · have hmax := cfg.maxTasks_lt
    have hsame : r.1 = k := by rw [show r = _ from heq]
    rw [hsame] at hmatch
    unfold u32 at hmatch
    omega
  · exact Or.inl ⟨hvalid, hlt, hmatch.1, by rw [show r = _ from heq]⟩

/-! ## What identifies a task -/

/-- A change of one control block that keeps what identifies its task, and its stack pointer. -/
theorem setTcb_fixed {f : Tcb → Tcb} (hf : ∀ c, (f c).fixed = c.fixed)
    (hsp : ∀ c, (f c).stackPointer = c.stackPointer) :
    ((k.setTcb u f).tcb t).fixed = (k.tcb t).fixed ∧ ((∀ sp, a ≠ .save t sp) →
      ((k.setTcb u f).tcb t).stackPointer = (k.tcb t).stackPointer) := by
  by_cases ht : t = u
  · subst ht
    simp [setTcb, hf, hsp]
  · simp [setTcb, update_of_ne ht]

/-- **Only a creation sets what identifies a task**, and only in its slot; and only it and a switch
set a stack pointer. -/
theorem Move.fixed (hm : Move cfg k a k') (ha : ∀ i p, a = .create i p → t ≠ .user i) :
    (k'.tcb t).fixed = (k.tcb t).fixed ∧
      ((∀ sp, a ≠ .save t sp) → (k'.tcb t).stackPointer = (k.tcb t).stackPointer) := by
  cases hm with
  | create hentry hprio hwords hlt =>
      rw [withTask_tcb_of_ne _ _ _ _ _ (ha _ _ rfl)]
      exact ⟨rfl, fun _ => rfl⟩
  | requeue hcur =>
      unfold requeued
      split <;> exact ⟨rfl, fun _ => rfl⟩
  | advance hset =>
      rw [advanced_tcb]
      exact ⟨rfl, fun _ => rfl⟩
  | @save cur sp hcur hsp =>
      by_cases ht : t = cur
      · subst ht
        exact ⟨by simp [saved, setTcb, Tcb.fixed], fun hno => absurd rfl (hno sp)⟩
      · exact ⟨by simp [saved, setTcb, update_of_ne ht],
          fun _ => by simp [saved, setTcb, update_of_ne ht]⟩
  | @wake l u rest hl =>
      exact setTcb_fixed (f := fun c => { c with waitReason := .signaled }) (fun _ => rfl)
        fun _ => rfl
  | @expire u rest hl hdue =>
      exact setTcb_fixed (f := fun c => { c with waitReason := .timedOut }) (fun _ => rfl)
        fun _ => rfl
  | @setEff u p hbase hp hne =>
      exact setTcb_fixed (f := fun c => { c with effectivePriority := p }) (fun _ => rfl)
        fun _ => rfl
  | @held u n =>
      exact setTcb_fixed (f := fun c => { c with mutexesHeld := n }) (fun _ => rfl)
        fun _ => rfl
  | clear hcur =>
      exact setTcb_fixed (f := fun c => { c with waitReason := .noReason }) (fun _ => rfl)
        fun _ => rfl
  | _ => exact ⟨rfl, fun _ => rfl⟩

/-- A move that creates no task keeps their number. -/
theorem Move.taskCount (hm : Move cfg k a k') (ha : ∀ i p, a ≠ .create i p) :
    k'.taskCount = k.taskCount := by
  cases hm with
  | create hentry hprio hwords hlt => exact absurd rfl (ha _ _)
  | requeue hcur =>
      unfold requeued
      split <;> rfl
  | advance hset => exact advanced_taskCount
  | _ => rfl

/-- **Moves that keep the number of tasks** keep what identifies them. -/
theorem Moves.fixed (hm : Moves cfg k acts k') (hcount : k'.taskCount = k.taskCount) (t : Tid) :
    (k'.tcb t).fixed = (k.tcb t).fixed := by
  induction hm with
  | nil => rfl
  | @snoc tr k₁ k₂ b hm hmove ih =>
      have hle := (Moves.taskCount_le hm).1
      have hle' := hmove.taskCount_le.1
      have hsame : k₁.taskCount = k.taskCount := by omega
      refine (hmove.fixed ?_).1.trans (ih hsame)
      rintro i p rfl
      cases hmove with
      | create hentry hprio hwords hlt =>
          have hnext : k₁.taskCount + 1 = k.taskCount := hcount
          omega

/-! ## Steps -/

/-- Moves that create no task keep their number. -/
theorem Moves.count (hm : Moves cfg k acts k') (ha : ∀ i p, .create i p ∉ acts) :
    k'.taskCount = k.taskCount := by
  induction hm with
  | nil => rfl
  | @snoc tr k₁ k₂ b hm hmove ih =>
      refine (hmove.taskCount fun i p hb => ?_).trans
        (ih fun i p hmem => ha i p (List.mem_append_left _ hmem))
      exact ha i p (List.mem_append_right _ (hb ▸ List.mem_singleton_self _))

theorem Moves.block_count {w : ℕ} {obj : Option EventList} {inf : Bool}
    (hm : Moves cfg k [.block t w obj inf] k') : k'.taskCount = k.taskCount :=
  Moves.count hm (by simp)

theorem WakeEffect.count {l : EventList} {g : Bool} (h : WakeEffect k l k' acts obs g) :
    k'.taskCount = k.taskCount := by
  cases h <;> rfl

/-- **The sections of a mutex** create no task. -/
theorem TaskEvent.mutex_count (h : Inv cfg s) (hI : InTask cfg s.sched t) {j : ℕ}
    (hsrc : TaskEvent cfg s t e (.mutex j) o) : o.kernel.sched.taskCount = s.sched.taskCount := by
  have hclear := Moves.taskCount_le hI.clear
  rcases hsrc.mutex h hI with ⟨n, -, -, hsec⟩ | ⟨-, -, hsec⟩ | ⟨-, -, hsec⟩
  · cases hsec with
    | refuse => rfl
    | acquire hm hown hheld => rfl
    | block hm hown hne hheld hb hi =>
        have hcount := Moves.block_count hb
        cases hi <;> exact hcount
  · cases hsec with
    | refuse hno => rfl
    | release hm hown hr hl => cases hr <;> rfl
    | hand hm hown hr hl => cases hr <;> rfl
  · have hsame : s.sched.rtosClearCurrentWaitReason.taskCount = s.sched.taskCount := by
      rw [hI.clear_eq]
      rfl
    cases hsec with
    | granted hres => exact hsame
    | timedOut hm hres hd => cases hd <;> exact hsame

/-- **Only the creation of a task creates one.** -/
theorem TaskEvent.count (h : Inv cfg s) (hI : InTask cfg s.sched t)
    (hsrc : TaskEvent cfg s t e x o) (he : e.creation = none) :
    o.kernel.sched.taskCount = s.sched.taskCount := by
  cases x with
  | none =>
      have hcan : s.kernel.sched.CanBlock t := hI.can
      generalize hx : Object.none = x at hsrc
      cases hsrc with
      | @call c hpc =>
          cases c with
          | taskCreate entry argument stack n p => simp [Event.creation] at he
          | yield => rfl
          | wait n =>
              simp only [callStep, artosWait]
              split
              · simp only [rtosBlockCurrentTask_eq hcan, blockedOn_taskCount]
              · rfl
          | waitUntil w =>
              simp only [callStep, artosWaitUntil]
              split
              · simp only [rtosBlockCurrentTask_eq hcan, blockedOn_taskCount]
              · rfl
          | _ => simp [Call.object] at hx
      | @resume w hpc => cases w <;> simp [WaitPoint.list, EventList.object] at hx
      | finish hpc => simp at hx
  | sem j =>
      rcases hsrc.sem hI with ⟨n, -, -, hsec⟩ | ⟨-, -, acts, g, hsig, -⟩ | ⟨-, -, rfl⟩ |
        ⟨res, -, -, rfl⟩
      · cases hsec with
        | now htake => cases htake <;> rfl
        | block hsem hzero hm => exact Moves.block_count hm
      · revert hsig
        generalize o.kernel = k'
        generalize o.obs = obs'
        intro hsig
        cases hsig <;> rfl
      · rfl
      · rfl
  | mutex j => exact hsrc.mutex_count h hI
  | queue j =>
      obtain ⟨k, -, hstart, hsec⟩ := hsrc.queue h hI
      have hk : k.sched.taskCount = s.sched.taskCount := by
        rcases hstart with ⟨-, rfl⟩ | ⟨-, rfl⟩ <;> rfl
      rw [← hk]
      rcases hsec with ⟨data, v, inf, -, hsec⟩ | ⟨v, inf, -, hsec⟩
      · cases hsec with
        | refuse hwhy => rfl
        | block hq hfull hw hp hm => exact Moves.block_count hm
        | put he =>
            cases he with
            | put hq hroom hw => exact hw.count
      · cases hsec with
        | refuse hwhy => rfl
        | block hq hempty hw hp hm => exact Moves.block_count hm
        | get he =>
            cases he with
            | get hq hne hw => exact hw.count

/-- **A step that creates no task** keeps their number. -/
theorem StepKind.count (h : Inv cfg s) (hs : StepKind cfg s e obs s') (he : e.creation = none) :
    s'.sched.taskCount = s.sched.taskCount := by
  cases hs with
  | create hcur hm hacts => simp [Event.creation] at he
  | start hcur hm hacts hnext =>
      refine Moves.count hm ?_
      rcases hacts with rfl | ⟨u, rfl⟩ <;> simp
  | task hrun hI hsrc hstep => exact hsrc.count h hI he
  | tick hm hset => exact Moves.count hm (by simp)
  | switch hcur hpending hm hacts =>
      refine Moves.count hm ?_
      rcases hacts with ⟨rfl, -⟩ | ⟨u, rfl, -⟩ <;> simp
  | isrCall hh hstep =>
      obtain ⟨acts, hsec, hwakes⟩ := hstep
      refine Moves.count (hsec .idle).moves fun i p hmem => ?_
      obtain ⟨l, v, hv⟩ := hwakes _ hmem
      simp at hv
  | _ => rfl

/-- A step that tries to create a task is a call of `artos_task_create`. -/
theorem step_artosTaskCreate (hs : Step cfg s (e, obs) s') {c : Creation}
    (he : e.creation = some c) :
    let r := s.sched.artosTaskCreate cfg c.entry c.argument c.stack c.stackWordCount c.priority
    obs = [.created r.2.1] ∧ s'.sched = r.1 := by
  cases e with
  | bootCreate entry argument stack n p =>
      obtain rfl := Option.some.inj he
      unfold Step step at hs
      simp only at hs
      split at hs
      · simp only [Option.some.injEq, Prod.mk.injEq] at hs
        obtain ⟨rfl, rfl⟩ := hs
        exact ⟨rfl, rfl⟩
      · simp at hs
  | call d =>
      cases d with
      | taskCreate entry argument stack n p =>
          obtain rfl := Option.some.inj he
          rcases hrun : s.running with _ | t
          · simp [Step, step, hrun] at hs
          · obtain ⟨-, rfl, rfl⟩ := step_call hrun hs
            exact ⟨rfl, rfl⟩
      | _ => simp [Event.creation] at he
  | _ => simp [Event.creation] at he

/-- **A step that tries to create a task** does so if the arguments are valid and a slot is free,
and changes nothing in the scheduler if not. -/
theorem step_creation (h : Inv cfg s) (hs : Step cfg s (e, obs) s') {c : Creation}
    (he : e.creation = some c) :
    c.Valid cfg ∧ s.sched.taskCount < cfg.maxTasks ∧ obs = [.created .ok] ∧
        s'.sched = s.sched.withTask c.entry c.argument c.stack c.stackWordCount c.priority ∨
      ¬ (c.Valid cfg ∧ s.sched.taskCount < cfg.maxTasks) ∧ obs ≠ [.created .ok] ∧
        s'.sched = s.sched := by
  obtain ⟨hobs, hsched⟩ := step_artosTaskCreate hs he
  rw [hobs, hsched]
  rcases artosTaskCreate_iff h.ready.inv c with ⟨hv, hlt, hok, hk⟩ | ⟨hv, hok, hk⟩
  · exact Or.inl ⟨hv, hlt, by rw [hok], hk⟩
  · exact Or.inr ⟨hv, by simpa using hok, hk⟩

/-! ## Runs -/

theorem creations_snoc (tr : List Label) (b : Label) :
    creations (tr ++ [b]) = creations tr ++ (Label.creation b).toList := by
  rw [creations, List.filterMap_append]
  cases hb : Label.creation b <;> simp [creations, hb]

/-- A step that creates no task keeps the table. -/
theorem TaskTable.congr {table : List Creation} (h : TaskTable table k)
    (hcount : k'.taskCount = k.taskCount) (hfixed : ∀ t, (k'.tcb t).fixed = (k.tcb t).fixed) :
    TaskTable table k' := by
  refine ⟨hcount.trans h.count, fun i c hc => ?_⟩
  rw [hfixed]
  exact h.described i c hc

/-- **A creation appends the new task to the table.** -/
theorem TaskTable.withTask {table : List Creation} (h : TaskTable table k) (c : Creation) :
    TaskTable (table ++ [c])
      (k.withTask c.entry c.argument c.stack c.stackWordCount c.priority) := by
  constructor
  · rw [List.length_append, ← h.count]
    rfl
  · intro i d hd
    rcases Nat.lt_or_ge i table.length with hlt | hge
    · rw [List.getElem?_append_left hlt] at hd
      have hne : Tid.user i ≠ .user k.taskCount := by
        rw [h.count]
        simpa using hlt.ne
      rw [withTask_tcb_of_ne _ _ _ _ _ hne]
      exact h.described i d hd
    · -- the slot behind the table
      have hi : i = table.length := by
        have hlen := (List.getElem?_eq_some_iff.mp hd).1
        rw [List.length_append, List.length_singleton] at hlen
        omega
      rw [List.getElem?_append_right hge, hi, Nat.sub_self] at hd
      obtain rfl : c = d := by simpa using hd
      rw [hi, ← h.count]
      simp [Sched.withTask, rtosInitTcb, Tcb.fixed]

/-- **Every step keeps the table**, and a creation appends to it. -/
theorem TaskTable.step (h : TaskTable (creations tr) s.sched) (hI : Inv cfg s)
    (hs : Step cfg s (e, obs) s') : TaskTable (creations (tr ++ [(e, obs)])) s'.sched := by
  rw [creations_snoc]
  unfold Label.creation
  rcases he : e.creation with _ | c
  · have hk := step_kind hI hs
    obtain ⟨acts, hm⟩ := hk.moves
    have hcount := hk.count hI he
    have hnone : (if obs = [.created .ok] then none else (none : Option Creation)) = none := by
      split <;> rfl
    rw [hnone, Option.toList_none, List.append_nil]
    exact h.congr hcount (Moves.fixed hm hcount)
  · rcases step_creation hI hs he with ⟨-, -, hobs, hk⟩ | ⟨-, hobs, hk⟩
    · rw [if_pos hobs, hk]
      exact h.withTask c
    · rw [if_neg hobs, hk, Option.toList_none, List.append_nil]
      exact h

/-- The table of a run. -/
theorem Run.taskTable (h₀ : Initial cfg s₀) (hr : Run cfg s₀ tr s) :
    TaskTable (creations tr) s.sched := by
  induction hr with
  | nil =>
      refine ⟨?_, by simp [creations]⟩
      rw [h₀.sched]
      rfl
  | @snoc tr s₁ s₂ b hr hstep ih =>
      obtain ⟨e, obs⟩ := b
      exact ih.step (Reachable.inv ⟨s₀, tr, h₀, hr⟩) hstep

/-- Every task of a run was created with valid arguments. -/
theorem Run.creations_valid (h₀ : Initial cfg s₀) (hr : Run cfg s₀ tr s) :
    ∀ c ∈ creations tr, c.Valid cfg := by
  induction hr with
  | nil => simp [creations]
  | @snoc tr s₁ s₂ b hr hstep ih =>
      obtain ⟨e, obs⟩ := b
      intro c hc
      rw [creations_snoc, List.mem_append] at hc
      refine hc.elim (ih c) fun hnew => ?_
      have hnew : (if obs = [.created .ok] then e.creation else none) = some c := by
        simpa [Label.creation] using hnew
      split at hnew
      · rename_i hobs
        have hI : Inv cfg s₁ := Reachable.inv ⟨s₀, tr, h₀, hr⟩
        rcases step_creation hI hstep hnew with ⟨hv, -⟩ | ⟨-, hno, -⟩
        · exact hv
        · exact absurd hobs hno
      · simp at hnew

/-- **The pool of tasks is an append-only table of the successful creations.**  After every run
there are as many tasks as creations succeeded, never more than the pool has; each slot is as it was
created, and `artos_task_get_info` reports it so, and nothing for the slots behind; and the next
attempt succeeds if and only if its arguments are valid and the pool is not full, and changes no
variable of the scheduler otherwise. -/
theorem task_table (h₀ : Initial cfg s₀) (hr : Run cfg s₀ tr s) :
    TaskTable (creations tr) s.sched ∧ (creations tr).length ≤ cfg.maxTasks ∧
      (∀ c ∈ creations tr, c.Valid cfg) ∧
      (∀ i, (s.sched.artosTaskGetInfo i).map
          (fun info => (info.entry, info.stackWordCount, info.basePriority)) =
        (creations tr)[i]?.map fun c => (c.entry, c.stackWordCount, c.priority)) ∧
      ∀ e obs s' c, e.creation = some c → Step cfg s (e, obs) s' →
        (obs = [.created .ok] ↔ c.Valid cfg ∧ (creations tr).length < cfg.maxTasks) ∧
          (obs ≠ [.created .ok] → s'.sched = s.sched) := by
  have hI : Inv cfg s := Reachable.inv ⟨s₀, tr, h₀, hr⟩
  have htable := Run.taskTable h₀ hr
  have hvalid := Run.creations_valid h₀ hr
  refine ⟨htable, htable.count ▸ hI.ready.inv.count_le, hvalid, fun i => ?_,
    fun e obs s' c he hs => ?_⟩
  · unfold artosTaskGetInfo
    rcases hi : (creations tr)[i]? with _ | c
    · -- a slot behind the table
      have hge := List.getElem?_eq_none_iff.mp hi
      rw [if_pos (Or.inl (by rw [htable.count]; exact hge))]
      rfl
    · have hlt := (List.getElem?_eq_some_iff.mp hi).1
      have hfixed := htable.described i c hi
      have hentry := (hvalid c (List.mem_of_getElem? hi)).entry
      rw [← hfixed] at hentry ⊢
      have hin : ¬ (i ≥ s.sched.taskCount ∨ (s.sched.tcb (.user i)).entry = 0) := by
        rw [htable.count]
        rintro (hge | hzero)
        · omega
        · exact hentry hzero
      rw [if_neg hin]
      rfl
  · rw [← htable.count]
    rcases step_creation hI hs he with ⟨hv, hlt, hobs, -⟩ | ⟨hv, hobs, hk⟩
    · exact ⟨⟨fun _ => ⟨hv, hlt⟩, fun _ => hobs⟩, fun hno => absurd hobs hno⟩
    · exact ⟨⟨fun hok => absurd hok hobs, fun hok => absurd hok hv⟩, fun _ => hk⟩

/-- Of three attempts before the start the second one has no stack. -/
def twoCreations : List Label × Sys :=
  (Runs.runSteps (step smallConfig) smallBoot
    [createTask 1 0, .bootCreate 7 0 0 64 0, createTask 2 1, .start]).get (by decide +kernel)

theorem task_table_twoCreations : twoCreations.2.sched.taskCount = 2 ∧
    (twoCreations.2.sched.tcb (.user 1)).priority = 1 := by
  obtain ⟨htable, -⟩ := task_table smallBoot_initial
    (run_of_runSteps (r := twoCreations) (Option.some_get _).symm)
  have hlen : (creations twoCreations.1).length = 2 := by decide +kernel
  obtain ⟨c, hc⟩ : ∃ c, (creations twoCreations.1)[1]? = some c :=
    ⟨_, List.getElem?_eq_getElem (by rw [hlen]; decide)⟩
  have hprio : ((creations twoCreations.1)[1]?.map Creation.priority) = some 1 := by
    decide +kernel
  rw [hc] at hprio
  refine ⟨htable.count.trans hlen, ?_⟩
  exact (congrArg Creation.priority (htable.described 1 c hc)).trans (by simpa using hprio)

end Artos
