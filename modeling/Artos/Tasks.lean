/-
# The scheduler of `tasks.c`

The static variables of `src/rtos/tasks.c` as one record `Sched`, and the
functions of that file as functions on it.  The intrusive lists of `list.c` are
read as the sequences they hold (`ListStore`): the ready, delayed and suspend
lists link the tasks' `state_item`s (`stateL`), the wait lists of semaphores,
queues and mutexes link their `event_item`s (`eventL`).  Both items of a task
control block have that block as their owner, so an item is named by its task.

`ARTOS_ASSERT` and the stack check record a failure in the state.  The C code
halts there; a state with a recorded failure has no further step.

Not modelled: the contents of the stacks and of `noinit` diagnostics, which no
function of the scheduler reads back.
-/
import Artos.ListStore
import Artos.Loops

open Function

namespace Artos

/-! ## Configuration and constants -/

/-- The compile-time configuration (`rtos_config.h`), with the two static
assertions of `tasks.c` on the number of priorities.  `sizeBits` is the width of
`size_t`. -/
structure Config where
  maxTasks : ℕ
  maxTasks_lt : maxTasks < 4294967296
  priorityCount : ℕ
  priorityCount_le : priorityCount ≤ 32
  priorityCount_pos : 0 < priorityCount
  sizeBits : ℕ
  sizeBits_ge : 32 ≤ sizeBits

/-- `ARTOS_MIN_STACK_WORDS`. -/
def artosMinStackWords : ℕ := 64

/-- `ARTOS_DELAY_INFINITY`. -/
def artosDelayInfinity : ℕ := 0xFFFFFFFF

/-- `ARTOS_STACK_GUARD_PATTERN`. -/
def artosStackGuardPattern : ℕ := 0xDEADBEEF

/-- `ARTOS_STACK_GUARD_WORDS`. -/
def artosStackGuardWords : ℕ := 4

/-- `sizeof(artos_stack_word_t)`, which the port asserts to be 4. -/
def stackWordBytes : ℕ := 4

/-- Reduction of an unsigned result to 32 bits. -/
def u32 (n : ℕ) : ℕ := n % 4294967296

/-! ## Tasks and lists -/

/-- A task control block: the idle task's, or an entry of `_task_pool`. -/
inductive Tid where
  | idle
  | user (i : ℕ)
  deriving DecidableEq, Repr

/-- The lists that link `state_item`s. -/
inductive StateList where
  | ready (p : ℕ)
  | delayed
  | delayedOverflow
  | suspend
  deriving DecidableEq, Repr

/-- The lists that link `event_item`s, named by the handle of their object. -/
inductive EventList where
  | semWait (h : ℕ)
  | queueRead (h : ℕ)
  | queueWrite (h : ℕ)
  | mutexLock (h : ℕ)
  deriving DecidableEq, Repr

/-- The lists of blocked tasks: `_delayed_l`, `_delayed_overflow_l`, `_suspend_l`. -/
def StateList.isBlocked : StateList → Bool
  | .ready _ => false
  | _ => true

/-- The two delayed lists. -/
def StateList.isDelayed : StateList → Bool
  | .delayed => true
  | .delayedOverflow => true
  | _ => false

/-- `rtos_wait_reason_t`. -/
inductive WaitReason where
  | noReason
  | signaled
  | timedOut
  deriving DecidableEq, Repr

/-- The failures that the kernel itself records (`artos_failure_reason_t`). -/
inductive Failure where
  | assert
  | stackOverflow
  deriving DecidableEq, Repr

/-- `rtos_tcb_t`.  Pointers are addresses, with `0` for `NULL`; `owned` says that
`rtos_init_list_item` has set the owner of the two list items. -/
structure Tcb where
  stackPointer : ℕ
  stackBuffer : ℕ
  stackWordCount : ℕ
  entry : ℕ
  argument : ℕ
  priority : ℕ
  effectivePriority : ℕ
  mutexesHeld : ℕ
  owned : Bool
  waitReason : WaitReason

/-- The zeroed control block. -/
def Tcb.zero : Tcb where
  stackPointer := 0
  stackBuffer := 0
  stackWordCount := 0
  entry := 0
  argument := 0
  priority := 0
  effectivePriority := 0
  mutexesHeld := 0
  owned := false
  waitReason := .noReason

/-- The static variables of `tasks.c`. -/
structure Sched where
  /-- `_task_pool` and `idle_task`. -/
  tcb : Tid → Tcb
  /-- `_tsk_cnt`. -/
  taskCount : ℕ
  /-- `_cur_task`. -/
  curTask : Option Tid
  /-- `_ticks`. -/
  ticks : ℕ
  /-- `_ready_bitmap`. -/
  readyBitmap : BitVec 32
  /-- `_ready_l`, `_delayed_l`, `_delayed_overflow_l` and `_suspend_l`. -/
  stateL : ListStore StateList Tid
  /-- The wait lists that link the tasks' event items. -/
  eventL : ListStore EventList Tid
  /-- `_cur_delayed`. -/
  curDelayed : StateList
  /-- `_next_delayed`. -/
  nextDelayed : StateList
  /-- The recorded failure, after which the kernel halts. -/
  failure : Option Failure

namespace Sched

/-- `rtos_record_failure`: the first failure is the one that halts. -/
def recordFailure (k : Sched) (f : Failure) : Sched :=
  { k with failure := some (k.failure.getD f) }

/-- `ARTOS_ASSERT`. -/
def artosAssert (k : Sched) (c : Prop) [Decidable c] : Sched :=
  if c then k else k.recordFailure .assert

@[simp] theorem artosAssert_of (k : Sched) {c : Prop} [Decidable c] (h : c) :
    k.artosAssert c = k :=
  if_pos h

/-- Change one control block. -/
def setTcb (k : Sched) (t : Tid) (f : Tcb → Tcb) : Sched :=
  { k with tcb := update k.tcb t (f (k.tcb t)) }

/-- The effective priority of a task. -/
abbrev eff (k : Sched) (t : Tid) : ℕ := (k.tcb t).effectivePriority

/-- The task is blocked: its state item is in a delayed list or the suspend list. -/
def Blocked (k : Sched) (t : Tid) : Prop :=
  ∃ l, k.stateL.container t = some l ∧ l.isBlocked = true

/-! ### List operations on the two items of a task

`list.c` asserts that an item to be inserted is unlinked and owned, and that an
item to be removed is linked. -/

/-- `rtos_list_insert_end` on a state item. -/
def stateInsertEnd (k : Sched) (l : StateList) (t : Tid) : Sched :=
  let k := k.artosAssert (k.stateL.container t = none ∧ (k.tcb t).owned = true)
  { k with stateL := k.stateL.insertEnd l t }

/-- `rtos_list_insert_sorted` on a state item. -/
def stateInsertSorted (k : Sched) (l : StateList) (t : Tid) : Sched :=
  let k := k.artosAssert (k.stateL.container t = none ∧ (k.tcb t).owned = true)
  { k with stateL := k.stateL.insertSorted l t }

/-- `rtos_list_remove` on a state item. -/
def stateRemove (k : Sched) (t : Tid) : Sched :=
  let k := k.artosAssert (k.stateL.container t ≠ none)
  { k with stateL := k.stateL.remove t }

/-- `rtos_list_insert_reversed_sorted` on an event item. -/
def eventInsertReversedSorted (k : Sched) (l : EventList) (t : Tid) : Sched :=
  let k := k.artosAssert (k.eventL.container t = none ∧ (k.tcb t).owned = true)
  { k with eventL := k.eventL.insertReversedSorted l t }

/-- `rtos_list_remove` on an event item. -/
def eventRemove (k : Sched) (t : Tid) : Sched :=
  let k := k.artosAssert (k.eventL.container t ≠ none)
  { k with eventL := k.eventL.remove t }

/-! ### The ready lists and their bitmap -/

/-- The single bit `0x1U << p`. -/
def bit (p : ℕ) : BitVec 32 := 1#32 <<< p

/-- `rtos_insert_ready_list`. -/
def rtosInsertReadyList (cfg : Config) (k : Sched) (task : Tid) : Sched :=
  if k.eff task ≥ cfg.priorityCount ∨ k.stateL.container task ≠ none then k
  else
    let k := k.stateInsertEnd (.ready (k.eff task)) task
    { k with readyBitmap := k.readyBitmap ||| bit (k.eff task) }

/-- `rtos_check_runnable_task`: is some task ready at the compared task's priority
or above? -/
def rtosCheckRunnableTask (k : Sched) (taskCompare : Option Tid) : Bool :=
  let comparedPrio := match taskCompare with
    | none => 0
    | some t => k.eff t
  k.readyBitmap >>> comparedPrio != 0#32

/-- `__CLZ`: the number of zero bits above the highest one bit. -/
def clz (bitmap : BitVec 32) : ℕ :=
  ((List.range 32).takeWhile fun i => !bitmap.getLsbD (31 - i)).length

/-- `rtos_port_find_msb32`. -/
def rtosPortFindMsb32 (bitmap : BitVec 32) : ℕ :=
  if bitmap = 0#32 then 0 else 31 - clz bitmap

/-- `rtos_get_highest_prio_task`. -/
def rtosGetHighestPrioTask (cfg : Config) (k : Sched) : Sched × Option Tid :=
  let k := k.artosAssert (k.readyBitmap ≠ 0#32)
  if k.readyBitmap = 0#32 then (k, none)
  else
    let highestPrio := rtosPortFindMsb32 k.readyBitmap
    let k := k.artosAssert (highestPrio < cfg.priorityCount ∧
      0 < (k.stateL.elems (.ready highestPrio)).length)
    match k.stateL.elems (.ready highestPrio) with
    | [] => (k.artosAssert False, none)
    | task :: _ =>
      let k := k.artosAssert (k.eff task = highestPrio ∧
        k.stateL.container task = some (.ready highestPrio) ∧ (k.tcb task).owned = true)
      let k := k.stateRemove task
      let k :=
        if (k.stateL.elems (.ready highestPrio)).length = 0 then
          { k with readyBitmap := k.readyBitmap &&& ~~~(bit highestPrio) }
        else k
      let k := k.artosAssert (k.readyBitmap.getLsbD highestPrio =
        decide ((k.stateL.elems (.ready highestPrio)).length ≠ 0))
      (k, some task)

/-! ### Task creation -/

/-- The address `rtos_port_initialize_stack` returns: 17 words below the top. -/
def rtosPortInitializeStack (stackTop : ℕ) : ℕ := stackTop - 17 * stackWordBytes

/-- `rtos_init_tcb`.  The two list items are fresh, so that initialising them
leaves them unlinked with key 0. -/
def rtosInitTcb (k : Sched) (t : Tid) (entry argument stack stackWordCount priority : ℕ) :
    Sched :=
  { k with
    tcb := update k.tcb t
      { stackPointer := rtosPortInitializeStack (stack + stackWordBytes * stackWordCount)
        stackBuffer := stack
        stackWordCount := stackWordCount
        entry := entry
        argument := argument
        priority := priority
        effectivePriority := priority
        mutexesHeld := 0
        owned := true
        waitReason := .noReason }
    stateL := k.stateL.setValue t 0
    eventL := k.eventL.setValue t 0 }

end Sched

/-- `artos_status_t`. -/
inductive Status where
  | ok
  | invalidArgument
  | taskLimit
  | stackTooSmall
  | noTasks
  deriving DecidableEq, Repr

namespace Sched

/-- `artos_task_create`, with the status it returns and whether it requests a
context switch. -/
def artosTaskCreate (cfg : Config) (k : Sched)
    (entry argument stack stackWordCount priority : ℕ) : Sched × Status × Bool :=
  if stack = 0 ∨ entry = 0 ∨ priority ≥ cfg.priorityCount then
    (k, .invalidArgument, false)
  else if (stack + stackWordBytes * stackWordCount) % 8 ≠ 0 then
    (k, .invalidArgument, false)
  else if stackWordCount < artosMinStackWords then
    (k, .stackTooSmall, false)
  else if k.taskCount = cfg.maxTasks then
    (k, .taskLimit, false)
  else
    match (List.range cfg.maxTasks).find? fun i => (k.tcb (.user i)).stackPointer = 0 with
    | none => (k, .taskLimit, false)
    | some i =>
      let k := rtosInitTcb k (.user i) entry argument stack stackWordCount priority
      let k := { k with taskCount := u32 (k.taskCount + 1) }
      let k := rtosInsertReadyList cfg k (.user i)
      let shouldYield := match k.curTask with
        | none => false
        | some cur => decide (priority > k.eff cur)
      (k, .ok, shouldYield)

/-! ### Selecting and switching -/

/-- `artos_task_stack_valid`.  `guard` is the content of the lowest words of the
task's stack at the time of the check. -/
def artosTaskStackValid (task : Tcb) (savedSp : ℕ) (guard : ℕ → ℕ) : Bool :=
  let low := task.stackBuffer + stackWordBytes * artosStackGuardWords
  let high := task.stackBuffer + stackWordBytes * task.stackWordCount
  if savedSp < low ∨ savedSp > high then false
  else (List.range artosStackGuardWords).all fun i => guard i = artosStackGuardPattern

/-- The selection made for a stored context: the next task is the first of the
highest ready level, or the idle task. -/
def rtosSelectReady (cfg : Config) (k : Sched) : Sched × Option Tid :=
  if rtosCheckRunnableTask k none then
    let r := rtosGetHighestPrioTask cfg k
    ({ r.1 with curTask := r.2 }, r.2)
  else ({ k with curTask := some .idle }, some .idle)

/-- `rtos_scheduler_select_next`. -/
def rtosSchedulerSelectNext (cfg : Config) (k : Sched) (currentStackPointer : ℕ)
    (guard : ℕ → ℕ) : Sched × Option Tid :=
  match k.curTask with
  | none =>
    if currentStackPointer = 0 then
      if rtosCheckRunnableTask k none then
        let r := rtosGetHighestPrioTask cfg k
        ({ r.1 with curTask := r.2 }, r.2)
      else (k, none)
    else (k, none)
  | some cur =>
    if currentStackPointer = 0 then (k, none)
    else
      let k := k.setTcb cur fun c => { c with stackPointer := currentStackPointer }
      if artosTaskStackValid (k.tcb cur) currentStackPointer guard then
        let k :=
          if cur ≠ .idle ∧ k.stateL.container cur = none then rtosInsertReadyList cfg k cur
          else k
        rtosSelectReady cfg k
      else (k.recordFailure .stackOverflow, none)

/-- `rtos_scheduler_start`. -/
def rtosSchedulerStart (cfg : Config) (k : Sched) : Sched × Option Tid :=
  rtosSchedulerSelectNext cfg k 0 fun _ => 0

/-- `rtos_scheduler_switch_context`: the stack pointer of the next task, `0` for
none. -/
def rtosSchedulerSwitchContext (cfg : Config) (k : Sched) (currentStackPointer : ℕ)
    (guard : ℕ → ℕ) : Sched × ℕ :=
  let r := rtosSchedulerSelectNext cfg k currentStackPointer guard
  match r.2 with
  | none => (r.1, 0)
  | some next => (r.1, (r.1.tcb next).stackPointer)

/-! ### Blocking and unblocking -/

/-- `rtos_block_current_task`. -/
def rtosBlockCurrentTask (k : Sched) (wakeTick : ℕ) (waitObj : Option EventList)
    (infinite : Bool) : Sched :=
  match k.curTask with
  | none => k.artosAssert False
  | some cur =>
    let k := k.artosAssert (cur ≠ .idle ∧ k.stateL.container cur = none ∧
      k.eventL.container cur = none)
    if k.stateL.container cur ≠ none then k
    else
      let k := { k with stateL := k.stateL.setValue cur wakeTick }
      let k :=
        if infinite then k.stateInsertEnd .suspend cur
        else if wakeTick < k.ticks then k.stateInsertSorted k.nextDelayed cur
        else k.stateInsertSorted k.curDelayed cur
      match waitObj with
      | none => k
      | some l =>
        let k := { k with eventL := k.eventL.setValue cur (k.eff cur) }
        k.eventInsertReversedSorted l cur

/-- A list item handed to `rtos_unblock_task`. -/
inductive Item where
  | state (t : Tid)
  | event (t : Tid)

/-- The owner of a list item. -/
def Item.owner : Item → Tid
  | .state t => t
  | .event t => t

/-- The item's `container` is not `NULL`. -/
def itemLinked (k : Sched) : Item → Bool
  | .state t => (k.stateL.container t).isSome
  | .event t => (k.eventL.container t).isSome

/-- `tsk_state_l` is a delayed list or the suspend list. -/
def inBlockedList (k : Sched) (t : Tid) : Bool :=
  match k.stateL.container t with
  | none => false
  | some l => l.isBlocked

/-- `rtos_unblock_task`. -/
def rtosUnblockTask (cfg : Config) (k : Sched) (taskItem : Item) (reason : WaitReason) :
    Sched :=
  if k.itemLinked taskItem then
    let task := taskItem.owner
    let k := k.artosAssert (k.inBlockedList task = true)
    if k.inBlockedList task then
      let k := k.stateRemove task
      let k := if k.eventL.container task ≠ none then k.eventRemove task else k
      let k := rtosInsertReadyList cfg k task
      k.setTcb task fun c => { c with waitReason := reason }
    else k
  else k

/-! ### The tick -/

/-- The item to which `_cur_delayed->sentinel.next` points, with the loop
condition of the fallback loop. -/
def curDelayedNonempty (k : Sched) : Bool := !(k.stateL.elems k.curDelayed).isEmpty

/-- The body of the fallback loop at the wrap. -/
def dropDelayedHead (k : Sched) : Sched :=
  match k.stateL.elems k.curDelayed with
  | [] => k
  | t :: _ => k.stateRemove t

/-- The exchange of the two delayed lists when the tick wraps to 0. -/
def swapDelayed (k : Sched) : Option Sched :=
  let temp := k.curDelayed
  (whileLoop curDelayedNonempty dropDelayedHead (k.stateL.elems k.curDelayed).length k).map
    fun k => { k with curDelayed := k.nextDelayed, nextDelayed := temp }

/-- The condition of the expiry loop: the head of the current delayed list is due. -/
def headExpired (k : Sched) : Bool :=
  match k.stateL.elems k.curDelayed with
  | [] => false
  | t :: _ => decide (k.stateL.value t ≤ k.ticks)

/-- The body of the expiry loop. -/
def expireHead (cfg : Config) (k : Sched) : Sched :=
  match k.stateL.elems k.curDelayed with
  | [] => k
  | t :: _ => rtosUnblockTask cfg k (.state t) .timedOut

/-- The expiry loop, with as many rounds as there are delayed tasks. -/
def expireDelayed (cfg : Config) (k : Sched) : Option Sched :=
  whileLoop headExpired (expireHead cfg) (k.stateL.elems k.curDelayed).length k

/-- `rtos_tick_handler`, with whether it requests a context switch; `none` when a
loop does not end. -/
def rtosTickHandler (cfg : Config) (k : Sched) : Option (Sched × Bool) := do
  let k := { k with ticks := u32 (k.ticks + 1) }
  let k ← if k.ticks = 0 then swapDelayed k else some k
  let k ← expireDelayed cfg k
  return (k, rtosCheckRunnableTask k k.curTask)

/-! ### The current task -/

/-- `rtos_current_wait_reason`. -/
def rtosCurrentWaitReason (k : Sched) : WaitReason :=
  match k.curTask with
  | none => .noReason
  | some cur => (k.tcb cur).waitReason

/-- `rtos_clear_current_wait_reason`. -/
def rtosClearCurrentWaitReason (k : Sched) : Sched :=
  match k.curTask with
  | none => k
  | some cur => k.setTcb cur fun c => { c with waitReason := .noReason }

/-- `rtos_current_effective_priority`. -/
def rtosCurrentEffectivePriority (k : Sched) : ℕ :=
  match k.curTask with
  | none => 0
  | some cur => k.eff cur

/-! ### Held mutexes and effective priorities -/

/-- `rtos_increment_mutex_count`, saturating at `0xFF`. -/
def rtosIncrementMutexCount (k : Sched) (task : Tid) : Sched :=
  if (k.tcb task).mutexesHeld ≠ 0xFF then
    k.setTcb task fun c => { c with mutexesHeld := c.mutexesHeld + 1 }
  else k

/-- `rtos_decrement_mutex_count`. -/
def rtosDecrementMutexCount (k : Sched) (task : Tid) : Sched :=
  if (k.tcb task).mutexesHeld ≠ 0 then
    k.setTcb task fun c => { c with mutexesHeld := c.mutexesHeld - 1 }
  else k

/-- `rtos_set_effective_priority`, with whether it changed the priority. -/
def rtosSetEffectivePriority (cfg : Config) (k : Sched) (task : Tid) (newPriority : ℕ) :
    Sched × Bool :=
  let k := k.artosAssert ((k.tcb task).priority < cfg.priorityCount ∧
    k.eff task < cfg.priorityCount ∧ newPriority < cfg.priorityCount ∧
    newPriority ≥ (k.tcb task).priority)
  if k.eff task = newPriority ∨ (k.tcb task).priority > newPriority ∨
      newPriority ≥ cfg.priorityCount then (k, false)
  else
    let oldPriority := k.eff task
    let eventList := k.eventL.container task
    let isReady : Bool := k.stateL.container task = some (.ready oldPriority)
    let k :=
      if isReady then
        let k := k.stateRemove task
        if (k.stateL.elems (.ready oldPriority)).length = 0 then
          { k with readyBitmap := k.readyBitmap &&& ~~~(bit oldPriority) }
        else k
      else k
    let k := if eventList ≠ none then k.eventRemove task else k
    let k := k.setTcb task fun c => { c with effectivePriority := newPriority }
    let k := match eventList with
      | none => k
      | some l =>
        let k := { k with eventL := k.eventL.setValue task newPriority }
        k.eventInsertReversedSorted l task
    let k := if isReady then rtosInsertReadyList cfg k task else k
    (k, true)

/-- `rtos_priority_inherit`. -/
def rtosPriorityInherit (cfg : Config) (k : Sched) (inheritor : Option Tid)
    (donorPriority : ℕ) : Sched :=
  match inheritor with
  | none => k
  | some t =>
    if k.eff t ≥ donorPriority then k
    else (rtosSetEffectivePriority cfg k t donorPriority).1

/-- `rtos_priority_relinquish_after_unlock`. -/
def rtosPriorityRelinquishAfterUnlock (cfg : Config) (k : Sched) (task : Tid) :
    Sched × Bool :=
  if (k.tcb task).mutexesHeld ≠ 0 then (k, false)
  else rtosSetEffectivePriority cfg k task (k.tcb task).priority

/-- `rtos_priority_disinherit_after_timeout`. -/
def rtosPriorityDisinheritAfterTimeout (cfg : Config) (k : Sched) (task : Option Tid)
    (requiredPriority : ℕ) : Sched × Bool :=
  match task with
  | none => (k, false)
  | some t =>
    if (k.tcb t).mutexesHeld ≠ 1 then (k, false)
    else
      let newPriority :=
        if requiredPriority > (k.tcb t).priority then requiredPriority
        else (k.tcb t).priority
      if newPriority < k.eff t then rtosSetEffectivePriority cfg k t newPriority
      else (k, false)

/-! ### Initialisation and inspection -/

/-- `rtos_system_init`. -/
def rtosSystemInit : Sched :=
  rtosInitTcb
    { tcb := fun _ => Tcb.zero
      taskCount := 0
      curTask := none
      ticks := 0
      readyBitmap := 0#32
      stateL := ListStore.empty
      eventL := ListStore.empty
      curDelayed := .delayed
      nextDelayed := .delayedOverflow
      failure := none }
    .idle 1 0 8 artosMinStackWords 0

/-- `artos_task_state_t`. -/
inductive TaskState where
  | running
  | ready
  | blocked
  | suspended
  deriving DecidableEq, Repr

/-- The fields of `artos_task_info_t` that are not placeholders in the source. -/
structure TaskInfo where
  entry : ℕ
  state : TaskState
  basePriority : ℕ
  effectivePriority : ℕ
  mutexesHeld : ℕ
  stackWordCount : ℕ

/-- `artos_task_get_info`. -/
def artosTaskGetInfo (k : Sched) (index : ℕ) : Option TaskInfo :=
  let task := k.tcb (.user index)
  if index ≥ k.taskCount ∨ task.entry = 0 then none
  else some
    { entry := task.entry
      state := match k.stateL.container (.user index) with
        | none => .running
        | some .delayed => .blocked
        | some .delayedOverflow => .blocked
        | some .suspend => .suspended
        | some (.ready _) => .ready
      basePriority := task.priority
      effectivePriority := task.effectivePriority
      mutexesHeld := task.mutexesHeld
      stackWordCount := task.stackWordCount }

end Sched

end Artos
