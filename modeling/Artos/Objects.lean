/-
# Semaphores, mutexes and queues

The functions of `semaphore.c`, `mutex.c` and `queue.c`.  A call that may block
is cut at the ends of its critical sections: the first section is the function
under the source's name, and what the task does after it is dispatched again is
the function with the suffix `Resume` (or `Finish`).  In between the task stands
at a point of its call (`Pc`), and other tasks and interrupts run.

A handle for which the init function returned `NULL` names no object (`none`).

Every critical section also yields observations (`Obs`): results of calls,
recorded at the section that fixes them, and the direct hand-overs.  They are
history and no function reads them.
-/
import Artos.Tasks

open Function

namespace Artos

/-! ## Objects -/

/-- `struct artos_semaphore`, without its wait list. -/
structure Semaphore where
  count : ℕ
  max : ℕ
  deriving DecidableEq

/-- `struct artos_mutex`, without its lock list. -/
structure Mutex where
  owner : Option Tid
  deriving DecidableEq

/-- `struct artos_queue`, without its wait lists; `buffer` is the memory at
`storage`. -/
structure Queue where
  count : ℕ
  capacity : ℕ
  readIndex : ℕ
  writeIndex : ℕ
  itemSize : ℕ
  storage : ℕ
  buffer : ℕ → UInt8

/-- The scheduler and the objects behind the handles. -/
structure Kernel where
  sched : Sched
  sem : ℕ → Option Semaphore
  mutex : ℕ → Option Mutex
  queue : ℕ → Option Queue

namespace Kernel

def setSem (k : Kernel) (h : ℕ) (s : Semaphore) : Kernel :=
  { k with sem := update k.sem h (some s) }

def setMutex (k : Kernel) (h : ℕ) (m : Mutex) : Kernel :=
  { k with mutex := update k.mutex h (some m) }

def setQueue (k : Kernel) (h : ℕ) (q : Queue) : Kernel :=
  { k with queue := update k.queue h (some q) }

end Kernel

/-! ## Points of a call, and observations -/

/-- Where a blocking call goes on after its task has been dispatched again, with
the local variables it still needs. -/
inductive WaitPoint where
  | sem (h : ℕ)
  | mutex (h : ℕ)
  | enqueue (h : ℕ) (data : List UInt8) (wakeTick : ℕ) (infinity : Bool)
  | dequeue (h : ℕ) (wakeTick : ℕ) (infinity : Bool)

/-- The wait list in which a call waits at this point. -/
def WaitPoint.list : WaitPoint → EventList
  | .sem h => .semWait h
  | .mutex h => .mutexLock h
  | .enqueue h _ _ _ => .queueWrite h
  | .dequeue h _ _ => .queueRead h

/-- The point at which a task stands between two atomic steps. -/
inductive Pc where
  /-- Outside the kernel. -/
  | user
  /-- About to request a context switch, and then to return or to wait. -/
  | request (after : Option WaitPoint)
  /-- After the switch request of a blocking call. -/
  | resume (w : WaitPoint)
  /-- In `artos_semaphore_take`, with the result read from the wait reason. -/
  | semClear (h : ℕ) (res : Bool)

/-- The wait list of the blocking call in progress, if any. -/
def Pc.waitsOn : Pc → Option EventList
  | .request (some w) => some w.list
  | .resume w => some w.list
  | _ => none

/-- What a critical section makes known. -/
inductive Obs where
  /-- A call of the task blocked in the list. -/
  | blocked (t : Option Tid) (l : EventList)
  /-- The head of the list was unblocked as signaled. -/
  | handed (l : EventList) (t : Tid)
  /-- The result of a take, by a task or in an interrupt handler. -/
  | taken (h : ℕ) (t : Option Tid) (res : Bool)
  /-- The result of a signal. -/
  | signaled (h : ℕ) (res : Bool)
  /-- The result of an enqueue. -/
  | enqueued (h : ℕ) (item : List UInt8) (res : Bool)
  /-- The result of a dequeue; `none` when it returned false. -/
  | dequeued (h : ℕ) (item : Option (List UInt8))
  /-- The result of a lock. -/
  | locked (h : ℕ) (t : Option Tid) (res : Bool)
  /-- The result of an unlock. -/
  | unlocked (h : ℕ) (t : Option Tid) (res : Bool)
  /-- The status of a task creation. -/
  | created (s : Status)
  deriving DecidableEq

/-- The end of a critical section of a task: the kernel, the point at which the
task now stands, and the observations. -/
structure Outcome where
  kernel : Kernel
  pc : Pc
  obs : List Obs

/-- The end of an interrupt-safe call: the kernel, the wake flag and the
observations. -/
structure IsrOutcome where
  kernel : Kernel
  gtTaskWoken : Bool
  obs : List Obs

/-- The end of a wake-up of the head of a wait list. -/
structure WakeOutcome where
  sched : Sched
  gtPrio : Bool
  obs : List Obs

/-- Unblock the head of a wait list, if there is one, as signaled.  `gtPrio`
compares the key of its event item, before it is unblocked, with the current
effective priority. -/
def wakeHead (cfg : Config) (k : Sched) (l : EventList) : WakeOutcome :=
  match k.eventL.elems l with
  | [] => ⟨k, false, []⟩
  | w :: _ =>
    ⟨k.rtosUnblockTask cfg (.event w) .signaled,
      decide (k.eventL.value w > k.rtosCurrentEffectivePriority), [.handed l w]⟩

/-- The point after a call that unblocked a task: it requests a switch if that
task has the higher priority. -/
def afterWake (gtPrio : Bool) : Pc := if gtPrio then .request none else .user

/-! ## Semaphores -/

/-- `artos_binary_semaphore_init`. -/
def artosBinarySemaphoreInit (storage : ℕ) (initiallyAvailable : Bool) :
    Option Semaphore :=
  if storage = 0 then none
  else some { count := if initiallyAvailable then 1 else 0, max := 1 }

/-- `artos_counting_semaphore_init`. -/
def artosCountingSemaphoreInit (storage maxCount initialCount : ℕ) : Option Semaphore :=
  if storage = 0 ∨ maxCount = 0 ∨ initialCount > maxCount then none
  else some { count := initialCount, max := maxCount }

/-- The blocking branch of a take or a lock. -/
def blockFor (k : Sched) (l : EventList) (tickTimeout : ℕ) : Sched :=
  if tickTimeout = artosDelayInfinity then
    k.rtosBlockCurrentTask artosDelayInfinity (some l) true
  else k.rtosBlockCurrentTask (u32 (tickTimeout + k.ticks)) (some l) false

/-- `artos_semaphore_take`, first critical section. -/
def artosSemaphoreTake (k : Kernel) (h tickTimeout : ℕ) : Outcome :=
  match k.sem h with
  | none => ⟨k, .user, [.taken h k.sched.curTask false]⟩
  | some sem =>
    if sem.count ≠ 0 then
      ⟨k.setSem h { sem with count := sem.count - 1 }, .user, [.taken h k.sched.curTask true]⟩
    else if tickTimeout = 0 then ⟨k, .user, [.taken h k.sched.curTask false]⟩
    else
      ⟨{ k with sched := blockFor k.sched (.semWait h) tickTimeout },
        .request (some (.sem h)), [.blocked k.sched.curTask (.semWait h)]⟩

/-- `artos_semaphore_take` after the switch: the result is read from the wait
reason, outside a critical section. -/
def artosSemaphoreTakeResume (k : Kernel) (h : ℕ) : Outcome :=
  ⟨k, .semClear h (k.sched.rtosCurrentWaitReason = .signaled), []⟩

/-- `artos_semaphore_take`, last critical section. -/
def artosSemaphoreTakeFinish (k : Kernel) (h : ℕ) (res : Bool) : Outcome :=
  ⟨{ k with sched := k.sched.rtosClearCurrentWaitReason }, .user, [.taken h k.sched.curTask res]⟩

/-- `artos_semaphore_signal`. -/
def artosSemaphoreSignal (cfg : Config) (k : Kernel) (h : ℕ) : Outcome :=
  match k.sem h with
  | none => ⟨k, .user, [.signaled h false]⟩
  | some sem =>
    if sem.count ≠ 0 then
      if sem.count ≠ sem.max then
        ⟨k.setSem h { sem with count := u32 (sem.count + 1) }, .user, [.signaled h true]⟩
      else ⟨k, .user, [.signaled h false]⟩
    else if (k.sched.eventL.elems (.semWait h)).length = 0 then
      ⟨k.setSem h { sem with count := u32 (sem.count + 1) }, .user, [.signaled h true]⟩
    else
      let w := wakeHead cfg k.sched (.semWait h)
      ⟨{ k with sched := w.sched }, afterWake w.gtPrio, .signaled h true :: w.obs⟩

/-- `artos_semaphore_take_isr`. -/
def artosSemaphoreTakeIsr (k : Kernel) (h : ℕ) (woken : Bool) : IsrOutcome :=
  match k.sem h with
  | none => ⟨k, woken, [.taken h none false]⟩
  | some sem =>
    if sem.count ≠ 0 then
      ⟨k.setSem h { sem with count := sem.count - 1 }, woken, [.taken h none true]⟩
    else ⟨k, woken, [.taken h none false]⟩

/-- `artos_semaphore_signal_isr`.  `flagged` says that `gt_task_woken` is not
`NULL`, and `woken` is the value it points to. -/
def artosSemaphoreSignalIsr (cfg : Config) (k : Kernel) (h : ℕ) (flagged woken : Bool) :
    IsrOutcome :=
  match k.sem h with
  | none => ⟨k, woken, [.signaled h false]⟩
  | some sem =>
    if sem.count ≠ 0 then
      if sem.count ≠ sem.max then
        ⟨k.setSem h { sem with count := u32 (sem.count + 1) }, woken, [.signaled h true]⟩
      else ⟨k, woken, [.signaled h false]⟩
    else if (k.sched.eventL.elems (.semWait h)).length = 0 then
      ⟨k.setSem h { sem with count := u32 (sem.count + 1) }, woken, [.signaled h true]⟩
    else
      let w := wakeHead cfg k.sched (.semWait h)
      ⟨{ k with sched := w.sched }, woken || (flagged && w.gtPrio),
        .signaled h true :: w.obs⟩

/-! ## Mutexes -/

/-- `artos_mutex_init`. -/
def artosMutexInit (storage : ℕ) : Option Mutex :=
  if storage = 0 then none else some { owner := none }

/-- `rtos_mutex_required_priority`. -/
def rtosMutexRequiredPriority (k : Sched) (owner : Option Tid) (waiters : EventList) : ℕ :=
  match owner with
  | none => 0
  | some o =>
    match k.eventL.elems waiters with
    | [] => (k.tcb o).priority
    | waiter :: _ =>
      if k.eff waiter > (k.tcb o).priority then k.eff waiter else (k.tcb o).priority

/-- `artos_mutex_lock`, first critical section. -/
def artosMutexLock (cfg : Config) (k : Kernel) (h tickTimeout : ℕ) : Outcome :=
  match k.mutex h with
  | none => ⟨k, .user, [.locked h k.sched.curTask false]⟩
  | some m =>
    match k.sched.curTask with
    | none => ⟨k, .user, [.locked h k.sched.curTask false]⟩
    | some task =>
      if (k.sched.tcb task).mutexesHeld = 0xFF then
        ⟨k, .user, [.locked h (some task) false]⟩
      else
        match m.owner with
        | none =>
          let k := k.setMutex h { m with owner := some task }
          ⟨{ k with sched := k.sched.rtosIncrementMutexCount task }, .user,
            [.locked h (some task) true]⟩
        | some owner =>
          if task = owner ∨ (k.sched.tcb task).mutexesHeld = 0xFF ∨ tickTimeout = 0 then
            ⟨k, .user, [.locked h (some task) false]⟩
          else
            let sched := blockFor k.sched (.mutexLock h) tickTimeout
            let sched := sched.rtosPriorityInherit cfg (some owner)
              (rtosMutexRequiredPriority sched (some owner) (.mutexLock h))
            ⟨{ k with sched := sched }, .request (some (.mutex h)),
              [.blocked (some task) (.mutexLock h)]⟩

/-- `artos_mutex_lock`, last critical section. -/
def artosMutexLockResume (cfg : Config) (k : Kernel) (h : ℕ) : Outcome :=
  match k.mutex h with
  | none => ⟨k, .user, [.locked h k.sched.curTask false]⟩
  | some m =>
    let res : Bool := k.sched.rtosCurrentWaitReason = .signaled
    let sched := k.sched.rtosClearCurrentWaitReason
    let sched :=
      if res then sched
      else (sched.rtosPriorityDisinheritAfterTimeout cfg m.owner
        (rtosMutexRequiredPriority sched m.owner (.mutexLock h))).1
    ⟨{ k with sched := sched }, .user, [.locked h k.sched.curTask res]⟩

/-- `artos_mutex_unlock`. -/
def artosMutexUnlock (cfg : Config) (k : Kernel) (h : ℕ) : Outcome :=
  match k.mutex h with
  | none => ⟨k, .user, [.unlocked h k.sched.curTask false]⟩
  | some m =>
    match k.sched.curTask with
    | none => ⟨k, .user, [.unlocked h k.sched.curTask false]⟩
    | some task =>
      if m.owner ≠ some task then ⟨k, .user, [.unlocked h (some task) false]⟩
      else
        let sched := k.sched.artosAssert (0 < (k.sched.tcb task).mutexesHeld)
        let sched := sched.rtosDecrementMutexCount task
        let r := sched.rtosPriorityRelinquishAfterUnlock cfg task
        let sched := r.1
        let prioChanged := r.2
        match sched.eventL.elems (.mutexLock h) with
        | [] =>
          let k := { k.setMutex h { m with owner := none } with sched := sched }
          ⟨k, if prioChanged then .request none else .user,
            [.unlocked h (some task) true]⟩
        | next :: _ =>
          let selfPrio := sched.eff task
          let sched := sched.rtosUnblockTask cfg (.event next) .signaled
          let sched := sched.rtosIncrementMutexCount next
          let sched :=
            if (sched.eventL.elems (.mutexLock h)).length ≠ 0 then
              sched.rtosPriorityInherit cfg (some next)
                (rtosMutexRequiredPriority sched (some next) (.mutexLock h))
            else sched
          let shouldYield : Bool := sched.eff next > selfPrio
          let k := { k.setMutex h { m with owner := some next } with sched := sched }
          ⟨k, if shouldYield then .request none else .user,
            [.handed (.mutexLock h) next, .unlocked h (some task) true]⟩

/-! ## Queues -/

/-- `artos_queue_init`; the buffer starts with whatever memory it is given. -/
def artosQueueInit (cfg : Config) (control storage itemSize capacity : ℕ)
    (buffer : ℕ → UInt8) : Option Queue :=
  if control = 0 ∨ storage = 0 ∨ capacity = 0 ∨ itemSize = 0 then none
  else if (2 ^ cfg.sizeBits - 1) / itemSize < capacity then none
  else some
    { count := 0, capacity := capacity, readIndex := 0, writeIndex := 0,
      itemSize := itemSize, storage := storage, buffer := buffer }

namespace Queue

/-- The conditions of `rtos_queue_assert_valid`. -/
def Valid (q : Queue) : Prop :=
  0 < q.capacity ∧ 0 < q.itemSize ∧ q.storage ≠ 0 ∧ q.count ≤ q.capacity ∧
    q.readIndex < q.capacity ∧ q.writeIndex < q.capacity

instance (q : Queue) : Decidable q.Valid := by
  unfold Valid
  infer_instance

/-- The offset `item_size * index`, computed in `size_t`. -/
def offset (cfg : Config) (q : Queue) (index : ℕ) : ℕ :=
  q.itemSize * index % 2 ^ cfg.sizeBits

/-- `++index`, back to 0 at the capacity. -/
def bump (q : Queue) (index : ℕ) : ℕ :=
  if u32 (index + 1) = q.capacity then 0 else u32 (index + 1)

/-- The item that `item_size` bytes read from a source make. -/
def itemOf (q : Queue) (data : List UInt8) : List UInt8 :=
  (List.range q.itemSize).map fun j => data.getD j 0

/-- The item stored at an index. -/
def itemAt (cfg : Config) (q : Queue) (index : ℕ) : List UInt8 :=
  (List.range q.itemSize).map fun j => q.buffer (q.offset cfg index + j)

/-- `memcpy(storage + item_size * write_index, data, item_size)` and the update of
the ring in the two enqueue functions. -/
def put (cfg : Config) (q : Queue) (data : List UInt8) : Queue :=
  { q with
    buffer := fun a =>
      if q.offset cfg q.writeIndex ≤ a ∧ a < q.offset cfg q.writeIndex + q.itemSize then
        data.getD (a - q.offset cfg q.writeIndex) 0
      else q.buffer a
    count := u32 (q.count + 1)
    writeIndex := q.bump q.writeIndex }

/-- The update of the ring in the two dequeue functions. -/
def take (q : Queue) : Queue :=
  { q with count := q.count - 1, readIndex := q.bump q.readIndex }

end Queue

/-- `rtos_queue_assert_valid`. -/
def rtosQueueAssertValid (k : Kernel) (q : Queue) : Kernel :=
  { k with sched := k.sched.artosAssert q.Valid }

/-- The deadline test of the two waiting loops: the wake tick is now, or lies in
the past half of the tick circle. -/
def deadlinePassed (k : Sched) (wakeTick : ℕ) (infinity : Bool) : Bool :=
  let delta := u32 (wakeTick + 4294967296 - k.ticks)
  !infinity && (delta = 0 || delta ≥ 0x80000000)

/-- `wake_tick` at the start of the two queue calls. -/
def queueWakeTick (k : Sched) (tickTimeout : ℕ) : ℕ :=
  if tickTimeout = artosDelayInfinity then artosDelayInfinity
  else u32 (tickTimeout + k.ticks)

/-- One test of the waiting loop of `artos_queue_enqueue`, with what follows it in
the same critical section. -/
def enqueueAttempt (cfg : Config) (k : Kernel) (h : ℕ) (q : Queue) (data : List UInt8)
    (wakeTick : ℕ) (infinity : Bool) : Outcome :=
  if q.count = q.capacity then
    if deadlinePassed k.sched wakeTick infinity then
      ⟨k, .user, [.enqueued h (q.itemOf data) false]⟩
    else
      ⟨{ k with sched := k.sched.rtosBlockCurrentTask wakeTick (some (.queueWrite h)) infinity },
        .request (some (.enqueue h data wakeTick infinity)),
        [.blocked k.sched.curTask (.queueWrite h)]⟩
  else
    let w := wakeHead cfg k.sched (.queueRead h)
    ⟨{ k.setQueue h (q.put cfg data) with sched := w.sched }, afterWake w.gtPrio,
      .enqueued h (q.itemOf data) true :: w.obs⟩

/-- `artos_queue_enqueue`, first critical section; `data` is `none` for `NULL`. -/
def artosQueueEnqueue (cfg : Config) (k : Kernel) (h : ℕ) (data : Option (List UInt8))
    (tickTimeout : ℕ) : Outcome :=
  match k.queue h, data with
  | some q, some data =>
    let k := rtosQueueAssertValid k q
    enqueueAttempt cfg k h q data (queueWakeTick k.sched tickTimeout)
      (tickTimeout = artosDelayInfinity)
  | _, _ => ⟨k, .user, [.enqueued h [] false]⟩

/-- `artos_queue_enqueue` after the switch. -/
def artosQueueEnqueueResume (cfg : Config) (k : Kernel) (h : ℕ) (data : List UInt8)
    (wakeTick : ℕ) (infinity : Bool) : Outcome :=
  match k.queue h with
  | none => ⟨k, .user, [.enqueued h [] false]⟩
  | some q =>
    let timedOut : Bool := k.sched.rtosCurrentWaitReason = .timedOut
    let k := { k with sched := k.sched.rtosClearCurrentWaitReason }
    if timedOut then ⟨k, .user, [.enqueued h (q.itemOf data) false]⟩
    else enqueueAttempt cfg k h q data wakeTick infinity

/-- One test of the waiting loop of `artos_queue_dequeue`, with what follows it in
the same critical section. -/
def dequeueAttempt (cfg : Config) (k : Kernel) (h : ℕ) (q : Queue) (wakeTick : ℕ)
    (infinity : Bool) : Outcome :=
  if q.count = 0 then
    if deadlinePassed k.sched wakeTick infinity then
      ⟨k, .user, [.dequeued h none]⟩
    else
      ⟨{ k with sched := k.sched.rtosBlockCurrentTask wakeTick (some (.queueRead h)) infinity },
        .request (some (.dequeue h wakeTick infinity)),
        [.blocked k.sched.curTask (.queueRead h)]⟩
  else
    let w := wakeHead cfg k.sched (.queueWrite h)
    ⟨{ k.setQueue h q.take with sched := w.sched }, afterWake w.gtPrio,
      .dequeued h (some (q.itemAt cfg q.readIndex)) :: w.obs⟩

/-- `artos_queue_dequeue`, first critical section; `dst` says that the destination
is not `NULL`. -/
def artosQueueDequeue (cfg : Config) (k : Kernel) (h : ℕ) (dst : Bool)
    (tickTimeout : ℕ) : Outcome :=
  match k.queue h, dst with
  | some q, true =>
    let k := rtosQueueAssertValid k q
    dequeueAttempt cfg k h q (queueWakeTick k.sched tickTimeout)
      (tickTimeout = artosDelayInfinity)
  | _, _ => ⟨k, .user, [.dequeued h none]⟩

/-- `artos_queue_dequeue` after the switch. -/
def artosQueueDequeueResume (cfg : Config) (k : Kernel) (h : ℕ) (wakeTick : ℕ)
    (infinity : Bool) : Outcome :=
  match k.queue h with
  | none => ⟨k, .user, [.dequeued h none]⟩
  | some q =>
    let timedOut : Bool := k.sched.rtosCurrentWaitReason = .timedOut
    let k := { k with sched := k.sched.rtosClearCurrentWaitReason }
    if timedOut then ⟨k, .user, [.dequeued h none]⟩
    else dequeueAttempt cfg k h q wakeTick infinity

/-- `artos_queue_enqueue_from_isr`. -/
def artosQueueEnqueueFromIsr (cfg : Config) (k : Kernel) (h : ℕ)
    (data : Option (List UInt8)) (flagged woken : Bool) : IsrOutcome :=
  match k.queue h, data with
  | some q, some data =>
    let k := rtosQueueAssertValid k q
    if q.count = q.capacity then ⟨k, woken, [.enqueued h (q.itemOf data) false]⟩
    else
      let w := wakeHead cfg k.sched (.queueRead h)
      ⟨{ k.setQueue h (q.put cfg data) with sched := w.sched },
        woken || (flagged && w.gtPrio), .enqueued h (q.itemOf data) true :: w.obs⟩
  | _, _ => ⟨k, woken, [.enqueued h [] false]⟩

/-- `artos_queue_dequeue_from_isr`. -/
def artosQueueDequeueFromIsr (cfg : Config) (k : Kernel) (h : ℕ) (dst : Bool)
    (flagged woken : Bool) : IsrOutcome :=
  match k.queue h, dst with
  | some q, true =>
    let k := rtosQueueAssertValid k q
    if q.count = 0 then ⟨k, woken, [.dequeued h none]⟩
    else
      let w := wakeHead cfg k.sched (.queueWrite h)
      ⟨{ k.setQueue h q.take with sched := w.sched },
        woken || (flagged && w.gtPrio),
        .dequeued h (some (q.itemAt cfg q.readIndex)) :: w.obs⟩
  | _, _ => ⟨k, woken, [.dequeued h none]⟩

end Artos
