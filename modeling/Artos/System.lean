/-
# The machine: tasks, interrupts and the pending switch

The kernel together with what runs around it: the point at which every task
stands (`Pc`), the pended PendSV exception, and the stack of interrupt handlers
in progress with their wake flags.  One `step` is one critical section, one run
of the tick handler, one context switch, or one other atomic action.

* A task takes a step only when it is the current task, no handler is running and
  no PendSV is pending: PendSV has the lowest exception priority, and the port
  pends it with a barrier, so that it is taken before the next instruction of the
  interrupted task.
* Ticks and handlers may come between any two steps, and handlers nest.
* Objects are initialised before the run starts.  Initialising an object later
  would commute with every step before its first use.
-/
import Artos.Runs
import Artos.Objects

open Function

namespace Artos

/-! ## Calls and events -/

/-- A call made by the running task. -/
inductive Call where
  | taskCreate (entry argument stack : ℕ) (stackWordCount : UInt32) (priority : UInt8)
  | yield
  | wait (tickCount : UInt32)
  | waitUntil (wakeTick : UInt32)
  | semaphoreTake (h : ℕ) (tickTimeout : UInt32)
  | semaphoreSignal (h : ℕ)
  | mutexLock (h : ℕ) (tickTimeout : UInt32)
  | mutexUnlock (h : ℕ)
  | queueEnqueue (h : ℕ) (data : Option (List UInt8)) (tickTimeout : UInt32)
  | queueDequeue (h : ℕ) (dst : Bool) (tickTimeout : UInt32)

/-- A call made by an interrupt handler; `flagged` says that it passes its wake
flag. -/
inductive IsrCall where
  | semaphoreTake (h : ℕ)
  | semaphoreSignal (h : ℕ) (flagged : Bool)
  | queueEnqueue (h : ℕ) (data : Option (List UInt8)) (flagged : Bool)
  | queueDequeue (h : ℕ) (dst : Bool) (flagged : Bool)

/-- What can happen next. -/
inductive Event where
  /-- `main` creates a task before the scheduler starts. -/
  | bootCreate (entry argument stack : ℕ) (stackWordCount : UInt32) (priority : UInt8)
  /-- `main` calls `artos_start`. -/
  | start
  /-- The running task makes a call. -/
  | call (c : Call)
  /-- The running task goes on inside its call. -/
  | resume
  /-- SysTick. -/
  | tick
  /-- PendSV, with the process stack pointer it saves and the lowest words of the
  outgoing task's stack. -/
  | switch (sp : ℕ) (guard : ℕ → ℕ)
  /-- A handler starts, with its wake flag false. -/
  | isrEnter
  /-- The innermost handler makes a call. -/
  | isrCall (c : IsrCall)
  /-- The innermost handler ends, and may call `artos_yield_from_isr` first. -/
  | isrReturn (yield : Bool)

/-! ## The calls of `rtos.c` -/

/-- `artos_wait`. -/
def artosWait (k : Kernel) (tickCount : ℕ) : Outcome :=
  if tickCount > 0 then
    let wakeTick :=
      if tickCount = artosDelayInfinity then artosDelayInfinity
      else u32 (k.sched.ticks + tickCount)
    let infinite : Bool := tickCount = artosDelayInfinity
    ⟨{ k with sched := k.sched.rtosBlockCurrentTask wakeTick none infinite },
      .request none, []⟩
  else ⟨k, .request none, []⟩

/-- `artos_wait_until`. -/
def artosWaitUntil (k : Kernel) (wakeTick : ℕ) : Outcome :=
  let delta := u32 (wakeTick + 4294967296 - k.sched.ticks)
  if delta ≠ 0 ∧ delta < 0x80000000 then
    ⟨{ k with sched := k.sched.rtosBlockCurrentTask wakeTick none false }, .request none, []⟩
  else ⟨k, .request none, []⟩

/-- `artos_task_create` as a critical section of its caller. -/
def taskCreateCall (cfg : Config) (k : Kernel)
    (entry argument stack stackWordCount priority : ℕ) : Outcome :=
  let r := k.sched.artosTaskCreate cfg entry argument stack stackWordCount priority
  ⟨{ k with sched := r.1 }, if r.2.2 then .request none else .user, [.created r.2.1]⟩

/-- The first critical section of a call. -/
def callStep (cfg : Config) (k : Kernel) : Call → Outcome
  | .taskCreate entry argument stack n p =>
      taskCreateCall cfg k entry argument stack n.toNat p.toNat
  | .yield => ⟨k, .request none, []⟩
  | .wait n => artosWait k n.toNat
  | .waitUntil w => artosWaitUntil k w.toNat
  | .semaphoreTake h n => artosSemaphoreTake k h n.toNat
  | .semaphoreSignal h => artosSemaphoreSignal cfg k h
  | .mutexLock h n => artosMutexLock cfg k h n.toNat
  | .mutexUnlock h => artosMutexUnlock cfg k h
  | .queueEnqueue h data n => artosQueueEnqueue cfg k h data n.toNat
  | .queueDequeue h dst n => artosQueueDequeue cfg k h dst n.toNat

/-- What a blocking call does after its task has been dispatched again. -/
def resumeStep (cfg : Config) (k : Kernel) : WaitPoint → Outcome
  | .sem h => artosSemaphoreTakeResume k h
  | .mutex h => artosMutexLockResume cfg k h
  | .enqueue h data w inf => artosQueueEnqueueResume cfg k h data w inf
  | .dequeue h w inf => artosQueueDequeueResume cfg k h w inf

/-- A call of an interrupt handler whose wake flag reads `woken`. -/
def isrCallStep (cfg : Config) (k : Kernel) (woken : Bool) : IsrCall → IsrOutcome
  | .semaphoreTake h => artosSemaphoreTakeIsr k h woken
  | .semaphoreSignal h flagged => artosSemaphoreSignalIsr cfg k h flagged woken
  | .queueEnqueue h data flagged => artosQueueEnqueueFromIsr cfg k h data flagged woken
  | .queueDequeue h dst flagged => artosQueueDequeueFromIsr cfg k h dst flagged woken

/-! ## The machine -/

/-- The state of the machine. -/
structure Sys where
  kernel : Kernel
  /-- Where each task stands. -/
  pc : Tid → Pc
  /-- PendSV is pending. -/
  pending : Bool
  /-- The wake flags of the handlers in progress, innermost first. -/
  handlers : List Bool

namespace Sys

/-- The scheduler's variables. -/
abbrev sched (s : Sys) : Sched := s.kernel.sched

/-- The current task. -/
abbrev cur (s : Sys) : Option Tid := s.kernel.sched.curTask

/-- Replace the scheduler's variables. -/
def setSched (s : Sys) (k : Sched) : Sys :=
  { s with kernel := { s.kernel with sched := k } }

/-- The user task whose next instruction the processor executes, if any. -/
def running (s : Sys) : Option Tid :=
  match s.cur with
  | some (.user i) =>
    if s.pending = false ∧ s.handlers.isEmpty ∧ s.sched.failure.isNone then
      some (.user i)
    else none
  | _ => none

/-- The end of a critical section of task `t`. -/
def finish (s : Sys) (t : Tid) (o : Outcome) : Sys :=
  { s with kernel := o.kernel, pc := update s.pc t o.pc }

end Sys

/-- The point after a switch request. -/
def afterRequest : Option WaitPoint → Pc
  | none => .user
  | some w => .resume w

/-- The next step of the running task `t` inside its call. -/
def resumeTask (cfg : Config) (s : Sys) (t : Tid) : Option (Sys × List Obs) :=
  match s.pc t with
  | .user => none
  | .request after =>
      some ({ s with pending := true, pc := update s.pc t (afterRequest after) }, [])
  | .resume w =>
      let o := resumeStep cfg s.kernel w
      some (s.finish t o, o.obs)
  | .semClear h res =>
      let o := artosSemaphoreTakeFinish s.kernel h res
      some (s.finish t o, o.obs)

/-- **One atomic step of the machine**; `none` when the event cannot happen. -/
def step (cfg : Config) (s : Sys) : Event → Option (Sys × List Obs)
  | .bootCreate entry argument stack n p =>
      if s.cur = none ∧ s.handlers.isEmpty ∧ s.sched.failure.isNone then
        let r := s.sched.artosTaskCreate cfg entry argument stack n.toNat p.toNat
        some (s.setSched r.1, [.created r.2.1])
      else none
  | .start =>
      if s.cur = none ∧ s.handlers.isEmpty ∧ s.sched.failure.isNone then
        some (s.setSched (s.sched.rtosSchedulerStart cfg).1, [])
      else none
  | .call c =>
      match s.running with
      | none => none
      | some t =>
        match s.pc t with
        | .user =>
            let o := callStep cfg s.kernel c
            some (s.finish t o, o.obs)
        | _ => none
  | .resume =>
      match s.running with
      | none => none
      | some t => resumeTask cfg s t
  | .tick =>
      if s.cur ≠ none ∧ s.sched.failure.isNone then
        match s.sched.rtosTickHandler cfg with
        | none => none
        | some (k, request) =>
            some ({ s.setSched k with pending := s.pending || request }, [])
      else none
  | .switch sp guard =>
      if s.cur ≠ none ∧ s.pending = true ∧ s.handlers.isEmpty ∧ s.sched.failure.isNone ∧
          sp ≠ 0 then
        some ({ s.setSched (s.sched.rtosSchedulerSwitchContext cfg sp guard).1 with
          pending := false }, [])
      else none
  | .isrEnter =>
      if s.sched.failure.isNone then
        some ({ s with handlers := false :: s.handlers }, [])
      else none
  | .isrCall c =>
      match s.handlers with
      | [] => none
      | woken :: rest =>
        if s.sched.failure.isNone then
          let o := isrCallStep cfg s.kernel woken c
          some ({ s with kernel := o.kernel, handlers := o.gtTaskWoken :: rest }, o.obs)
        else none
  | .isrReturn yield =>
      match s.handlers with
      | [] => none
      | _ :: rest =>
        if s.sched.failure.isNone then
          some ({ s with handlers := rest, pending := s.pending || yield }, [])
        else none

/-! ## Runs -/

/-- A step, labelled by its event and its observations. -/
abbrev Label := Event × List Obs

/-- The step relation of the machine. -/
def Step (cfg : Config) (s : Sys) (a : Label) (s' : Sys) : Prop :=
  step cfg s a.1 = some (s', a.2)

/-- An event that can happen makes a step. -/
theorem step_of_isSome {cfg : Config} {s : Sys} {e : Event} (h : (step cfg s e).isSome) :
    Step cfg s (e, ((step cfg s e).get h).2) ((step cfg s e).get h).1 :=
  (Option.some_get h).symm

/-- The observations of a run, oldest first. -/
def observations (tr : List Label) : List Obs := tr.flatMap Prod.snd

/-- The machine after `artos_init` and the initialisation of its objects: every
handle names nothing, or an object as its init function leaves it. -/
structure Initial (cfg : Config) (s : Sys) : Prop where
  sched : s.sched = Sched.rtosSystemInit
  sem : ∀ h x, s.kernel.sem h = some x →
    (∃ storage b, artosBinarySemaphoreInit storage b = some x) ∨
    ∃ storage maxCount initialCount : ℕ, maxCount < 4294967296 ∧
      artosCountingSemaphoreInit storage maxCount initialCount = some x
  mutex : ∀ h x, s.kernel.mutex h = some x → ∃ storage, artosMutexInit storage = some x
  queue : ∀ h x, s.kernel.queue h = some x →
    ∃ control storage itemSize capacity buffer, capacity < 4294967296 ∧
      itemSize < 2 ^ cfg.sizeBits ∧
      artosQueueInit cfg control storage itemSize capacity buffer = some x
  pc : ∀ t, s.pc t = .user
  pending : s.pending = false
  handlers : s.handlers = []

/-- The run labelled `tr` leads from `s` to `s'`. -/
abbrev Run (cfg : Config) (s : Sys) (tr : List Label) (s' : Sys) : Prop :=
  Runs.Exec (Step cfg) s tr s'

/-- Some run from an initial state leads to `s`. -/
def Reachable (cfg : Config) (s : Sys) : Prop :=
  ∃ s₀ tr, Initial cfg s₀ ∧ Run cfg s₀ tr s

/-- What an executable run computes is a run. -/
theorem run_of_runSteps {cfg : Config} {s₀ : Sys} {es : List Event} {r : List Label × Sys}
    (h : Runs.runSteps (step cfg) s₀ es = some r) : Run cfg s₀ r.1 r.2 :=
  Runs.exec_of_runSteps (step cfg) es s₀ r h

/-- What an executable run reaches from an initial state is reachable. -/
theorem Reachable.of_runSteps {cfg : Config} {s₀ : Sys} (h₀ : Initial cfg s₀)
    {es : List Event} {r : List Label × Sys}
    (h : Runs.runSteps (step cfg) s₀ es = some r) : Reachable cfg r.2 :=
  ⟨s₀, r.1, h₀, run_of_runSteps h⟩

/-! ## A small machine

A configuration and an initial state on which the general statements are tried. -/

/-- Sixteen tasks, three priorities, 32-bit `size_t`. -/
def smallConfig : Config where
  maxTasks := 16
  maxTasks_lt := by decide
  priorityCount := 3
  priorityCount_le := by decide
  priorityCount_pos := by decide
  sizeBits := 32
  sizeBits_ge := by decide

/-- The initial state with the counting semaphore 0 (at most 2, none available), the
mutexes 0 and 1, and the queue 0 of two single-byte items. -/
def smallBoot : Sys where
  kernel :=
    { sched := Sched.rtosSystemInit
      sem := fun h => if h = 0 then artosCountingSemaphoreInit 1 2 0 else none
      mutex := fun h => if h < 2 then artosMutexInit 1 else none
      queue := fun h =>
        if h = 0 then artosQueueInit smallConfig 1 1 1 2 (fun _ => 0) else none }
  pc := fun _ => .user
  pending := false
  handlers := []

theorem smallBoot_initial : Initial smallConfig smallBoot where
  sched := rfl
  sem := by
    intro h x hx
    simp only [smallBoot] at hx
    split at hx
    · exact Or.inr ⟨1, 2, 0, by omega, hx⟩
    · simp at hx
  mutex := by
    intro h x hx
    simp only [smallBoot] at hx
    split at hx
    · exact ⟨1, hx⟩
    · simp at hx
  queue := by
    intro h x hx
    simp only [smallBoot] at hx
    split at hx
    · exact ⟨1, 1, 1, 2, _, by omega, by decide, hx⟩
    · simp at hx
  pc := fun _ => rfl
  pending := rfl
  handlers := rfl

/-- The lowest words of a stack whose guard is intact. -/
def intactGuard : ℕ → ℕ := fun _ => artosStackGuardPattern

/-- `main` creates a task of the given priority, with a stack of 64 words at
`0x1000 * n`, and its initial stack pointer is `0x1000 * n + 188`. -/
def createTask (n : ℕ) (priority : UInt8) : Event :=
  .bootCreate 1 0 (4096 * n) 64 priority

/-- The switch that leaves the task created by `createTask n`. -/
def switchFrom (n : ℕ) : Event := .switch (4096 * n + 128) intactGuard

end Artos
