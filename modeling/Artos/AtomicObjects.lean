/-
# The objects are atomic

Semaphores, mutexes and queues as their users think of them: every call takes effect at one
moment between its start and its return (`linearizable`).  The sequential objects are strict:
a take fails only when no token is there, a lock only when the mutex is taken or its caller
holds too many, and a queue passes the items in order.

The calls of the machine are not atomic.  A blocked take or lock takes effect in the signal
or unlock of another task, directly after it; a blocked queue call takes effect in the pass
of its loop that succeeds; and a call that gives up has seen, when it last blocked, that it
would fail.  A call returns in the history where its result is fixed.
-/
import Artos.Linear
import Artos.Ownership
import Artos.Tokens
import Artos.Queues

open Function

namespace Artos

open Sched Linear

/-! ## The sequential objects -/

/-- An operation on an object. -/
inductive Op where
  | take (h : ℕ)
  | signal (h : ℕ)
  | lock (h : ℕ)
  | unlock (h : ℕ)
  | enqueue (h : ℕ) (data : Option (List UInt8))
  | dequeue (h : ℕ) (dst : Bool)
  deriving DecidableEq

/-- The result of an operation. -/
inductive Res where
  | flag (b : Bool)
  | item (i : Option (List UInt8))
  deriving DecidableEq

/-- The result of an operation that fails. -/
def Op.fails : Op → Res
  | .dequeue _ _ => .item none
  | _ => .flag false

/-- A queue of at most `capacity` items, the oldest first. -/
structure BoundedQueue where
  capacity : ℕ
  itemSize : ℕ
  items : List (List UInt8)

/-- The objects behind the handles. -/
structure Objects where
  sem : ℕ → Option Semaphore
  mutex : ℕ → Option Mutex
  queue : ℕ → Option BoundedQueue

namespace Objects

variable (x : Objects)

def setSem (h : ℕ) (s : Semaphore) : Objects := { x with sem := update x.sem h (some s) }

def setMutex (h : ℕ) (m : Mutex) : Objects := { x with mutex := update x.mutex h (some m) }

def setQueue (h : ℕ) (q : BoundedQueue) : Objects :=
  { x with queue := update x.queue h (some q) }

/-- The mutexes that a task holds. -/
def heldBy (t : Tid) : Set ℕ := {h | ∃ m, x.mutex h = some m ∧ m.owner = some t}

/-- A take finds a token, or fails. -/
def take (h : ℕ) : Res × Objects :=
  match x.sem h with
  | none => (.flag false, x)
  | some s =>
    if s.count = 0 then (.flag false, x)
    else (.flag true, x.setSem h { s with count := s.count - 1 })

/-- A signal adds a token where there is room. -/
def signal (h : ℕ) : Res × Objects :=
  match x.sem h with
  | none => (.flag false, x)
  | some s =>
    if s.count = s.max then (.flag false, x)
    else (.flag true, x.setSem h { s with count := s.count + 1 })

open Classical in
/-- A lock of a free mutex succeeds, unless the task holds 255 of them. -/
noncomputable def lock (t : Tid) (h : ℕ) : Res × Objects :=
  match x.mutex h with
  | none => (.flag false, x)
  | some m =>
    if m.owner = none ∧ (x.heldBy t).encard ≠ 0xFF then
      (.flag true, x.setMutex h { owner := some t })
    else (.flag false, x)

/-- Only the owner unlocks. -/
def unlock (t : Tid) (h : ℕ) : Res × Objects :=
  match x.mutex h with
  | none => (.flag false, x)
  | some m =>
    if m.owner = some t then (.flag true, x.setMutex h { owner := none }) else (.flag false, x)

/-- An enqueue appends an item of the size of the queue. -/
def enqueue (h : ℕ) (data : Option (List UInt8)) : Res × Objects :=
  match x.queue h, data with
  | some q, some data =>
    if q.items.length = q.capacity then (.flag false, x)
    else
      let item := (List.range q.itemSize).map fun j => data.getD j 0
      (.flag true, x.setQueue h { q with items := q.items ++ [item] })
  | _, _ => (.flag false, x)

/-- A dequeue takes the oldest item. -/
def dequeue (h : ℕ) (dst : Bool) : Res × Objects :=
  match x.queue h, dst with
  | some q, true =>
    match q.items with
    | [] => (.item none, x)
    | item :: items => (.item (some item), x.setQueue h { q with items := items })
  | _, _ => (.item none, x)

/-- **The objects, one operation at a time.**  The callers are the tasks, and `none` for an
interrupt handler. -/
noncomputable def apply : Linear.Obj Objects (Option Tid) Op Res := fun x i o =>
  match o, i with
  | .take h, _ => x.take h
  | .signal h, _ => x.signal h
  | .lock h, some t => x.lock t h
  | .unlock h, some t => x.unlock t h
  | .enqueue h data, _ => x.enqueue h data
  | .dequeue h dst, _ => x.dequeue h dst
  | _, none => (.flag false, x)

end Objects

/-- The queue behind a ring. -/
def Queue.bounded (cfg : Config) (q : Queue) : BoundedQueue where
  capacity := q.capacity
  itemSize := q.itemSize
  items := q.items cfg

/-- **What the users see of a kernel.** -/
def Kernel.objects (cfg : Config) (k : Kernel) : Objects where
  sem := k.sem
  mutex := k.mutex
  queue := fun h => (k.queue h).map (Queue.bounded cfg)

/-! ## The history of a run -/

/-- The operation of a call, if it is one on an object. -/
def Call.op : Call → Option Op
  | .semaphoreTake h _ => some (.take h)
  | .semaphoreSignal h => some (.signal h)
  | .mutexLock h _ => some (.lock h)
  | .mutexUnlock h => some (.unlock h)
  | .queueEnqueue h data _ => some (.enqueue h data)
  | .queueDequeue h dst _ => some (.dequeue h dst)
  | _ => none

def IsrCall.op : IsrCall → Op
  | .semaphoreTake h => .take h
  | .semaphoreSignal h _ => .signal h
  | .queueEnqueue h data _ => .enqueue h data
  | .queueDequeue h dst _ => .dequeue h dst

/-- The operation that begins with an event. -/
def Event.op : Event → Option Op
  | .call c => c.op
  | .isrCall c => some c.op
  | _ => none

/-- The result that an observation fixes. -/
def Obs.result : Obs → Option Res
  | .taken _ _ b => some (.flag b)
  | .signaled _ b => some (.flag b)
  | .locked _ _ b => some (.flag b)
  | .unlocked _ _ b => some (.flag b)
  | .enqueued _ _ b => some (.flag b)
  | .dequeued _ i => some (.item i)
  | _ => none

/-- Who makes the calls of a step. -/
def Sys.caller (s : Sys) : Event → Option Tid
  | .isrCall _ => none
  | _ => s.running

/-- The calls and returns of a step. -/
def stepHistory (s : Sys) (a : Label) : List (Ev (Option Tid) Op Res) :=
  (a.1.op.map (Ev.call (s.caller a.1))).toList ++
    (a.2.filterMap Obs.result).map (Ev.ret (s.caller a.1))

/-- **The calls and returns of a run.** -/
def history (cfg : Config) (s : Sys) : List Label → List (Ev (Option Tid) Op Res)
  | [] => []
  | a :: tr =>
    stepHistory s a ++
      match step cfg s a.1 with
      | none => []
      | some r => history cfg r.1 tr

variable {cfg : Config} {t u : Tid} {j : ℕ} {obs obs₀ : List Obs} {s s' s₀ : Sys}
  {e : Event} {k : Kernel}

/-- The history of a run and one more step. -/
theorem history_snoc {tr : List Label} (hr : Run cfg s₀ tr s) (a : Label) :
    history cfg s₀ (tr ++ [a]) = history cfg s₀ tr ++ stepHistory s a := by
  induction tr generalizing s₀ with
  | nil =>
      obtain rfl := hr.nil_inv
      cases hs : step cfg s a.1 <;> simp [history, hs]
  | cons b tr ih =>
      obtain ⟨s₁, hs, hr₁⟩ := hr.cons_inv
      have hs' : step cfg s₀ b.1 = some (s₁, b.2) := hs
      simp only [List.cons_append, history, hs', ih hr₁, List.append_assoc]

/-! ## Calls in progress -/

/-- The operation of a blocked call. -/
def WaitPoint.op : WaitPoint → Op
  | .sem h => .take h
  | .mutex h => .lock h
  | .enqueue h data _ _ => .enqueue h (some data)
  | .dequeue h _ _ => .dequeue h true

/-- What the call waits for is handed over; otherwise it tries again. -/
def WaitPoint.byHand : WaitPoint → Bool
  | .sem _ => true
  | .mutex _ => true
  | _ => false

/-- **The operation that a task is in**, and whether it has taken effect. -/
def Sys.inCall (s : Sys) (t : Tid) : Option (Op × Bool) :=
  match s.pc t with
  | .request (some w) => some (w.op, w.byHand && (s.sched.tcb t).waitReason = .signaled)
  | .resume w => some (w.op, w.byHand && (s.sched.tcb t).waitReason = .signaled)
  | .semClear h res => some (.take h, res)
  | _ => none

/-- The status of a caller fits the operation that it is in.  One that has not taken effect
could have failed. -/
inductive Stands : Option (Op × Bool) → Linear.Status Op Res → Prop
  | out : Stands none .idle
  | waits {o : Op} {seen : Set Res} (hfails : o.fails ∈ seen) :
      Stands (some (o, false)) (.pending o seen)
  | served {o : Op} : Stands (some (o, true)) (.done o (.flag true))

/-- It still fits when others have acted. -/
theorem Stands.grows {p : Option (Op × Bool)} {st st' : Linear.Status Op Res} (h : Stands p st)
    (hg : st.Grows st') : Stands p st' := by
  cases h with
  | out =>
      cases hg
      exact .out
  | waits hfails =>
      cases hg with
      | pending hsub => exact .waits (hsub hfails)
  | served =>
      cases hg
      exact .served

/-- **The monitor keeps track of the machine.** -/
structure Tracks (cfg : Config) (s : Sys) (w : Watch Objects (Option Tid) Op Res) : Prop where
  state : w.state = s.kernel.objects cfg
  isr : w.status none = .idle
  tasks : ∀ t, Stands (s.inCall t) (w.status (some t))

/-- **What a passage has to do**: it leads to the objects of the next state, and to statuses
that fit the calls of those tasks that act or whose call changes. -/
theorem Tracks.passes {w w' : Watch Objects (Option Tid) Op Res}
    {h : List (Ev (Option Tid) Op Res)} {c : Set (Option Tid)} (ht : Tracks cfg s w)
    (hp : Passes Objects.apply w h c w') (hstate : w'.state = s'.kernel.objects cfg)
    (hisr : none ∈ c → w'.status none = .idle)
    (hacts : ∀ t, some t ∈ c → Stands (s'.inCall t) (w'.status (some t)))
    (hrest : ∀ t, some t ∉ c → s'.inCall t = s.inCall t) : Tracks cfg s' w' := by
  refine ⟨hstate, ?_, fun t => ?_⟩
  · by_cases hc : none ∈ c
    · exact hisr hc
    · have hg := hp.others none hc
      rw [ht.isr] at hg
      generalize w'.status none = st at hg
      cases hg
      rfl
  · by_cases hc : some t ∈ c
    · exact hacts t hc
    · rw [hrest t hc]
      exact (ht.tasks t).grows (hp.others (some t) hc)

/-- Nothing has to be done where neither objects nor calls change. -/
theorem Tracks.same {w : Watch Objects (Option Tid) Op Res} (ht : Tracks cfg s w)
    (hobjects : s'.kernel.objects cfg = s.kernel.objects cfg)
    (hcalls : ∀ t, s'.inCall t = s.inCall t) : Tracks cfg s' w :=
  ht.passes (Passes.refl w) (ht.state.trans hobjects.symm) (by simp) (by simp) fun t _ => hcalls t

/-! ## Calls under a step -/

/-- A task at a wait point is in the call of that point. -/
theorem inCall_of_point {w : WaitPoint} (hpc : (s.pc t).point = some w) :
    s.inCall t = some (w.op, w.byHand && (s.sched.tcb t).waitReason = .signaled) := by
  unfold Sys.inCall
  cases hp : s.pc t with
  | request w' =>
      rw [hp] at hpc
      obtain rfl : w' = some w := hpc
      rfl
  | resume w' =>
      rw [hp] at hpc
      obtain rfl : w' = w := Option.some.inj hpc
      rfl
  | _ =>
      rw [hp] at hpc
      simp [Pc.point] at hpc

/-- A task outside the kernel is in no call. -/
theorem inCall_user (hpc : s.pc t = .user) : s.inCall t = none := by
  unfold Sys.inCall
  rw [hpc]

/-- The point and the wait reason of a task tell its call. -/
theorem inCall_congr (hpc : s'.pc t = s.pc t)
    (hreason : ∀ w, (s.pc t).point = some w → w.byHand = true →
      ((s'.sched.tcb t).waitReason = .signaled ↔ (s.sched.tcb t).waitReason = .signaled)) :
    s'.inCall t = s.inCall t := by
  rcases hp : (s.pc t).point with _ | w
  · unfold Sys.inCall
    rw [hpc]
    cases h : s.pc t with
    | request w => cases w <;> simp [h, Pc.point] at hp ⊢
    | resume w => simp [h, Pc.point] at hp
    | _ => rfl
  · rw [inCall_of_point hp, inCall_of_point (hpc ▸ hp)]
    cases hb : w.byHand with
    | false => rfl
    | true => simp [hreason w hp hb]

/-- The lists of the points from which calls are handed what they wait for. -/
theorem byHand_list {w : WaitPoint} :
    w.byHand = true ↔ ∃ j, w = .sem j ∨ w = .mutex j := by
  cases w <;> simp [WaitPoint.byHand]

/-- **A step does nothing to the call of a task that it spares and hands nothing.** -/
theorem Spared.inCall (h : Inv cfg s) (hsp : Spared cfg s u obs s')
    (hno : ∀ j, Obs.handed (.semWait j) u ∉ obs ∧ Obs.handed (.mutexLock j) u ∉ obs) :
    s'.inCall u = s.inCall u := by
  obtain ⟨acts, hm, ha, hh⟩ := hsp.moves
  refine inCall_congr hsp.pc fun w hw hb => ?_
  have hwaits : (s.pc u).waitsOn = some w.list := by rw [Pc.waitsOn_eq, hw]; rfl
  have hnone : Action.wake w.list u ∉ acts := by
    rw [← hh]
    obtain ⟨j, rfl | rfl⟩ := byHand_list.mp hb
    · exact (hno j).1
    · exact (hno j).2
  have hsig := Moves.signaled h.ready hm (h.tasks u) hwaits ha
  rw [or_iff_left hnone] at hsig
  exact hsig

/-- **A task at the head of a list is in a call that has not been served, and being handed
what it waits for serves it.** -/
theorem Spared.served (h : Inv cfg s) (hsp : Spared cfg s u obs s') {w : WaitPoint}
    (hb : w.byHand = true) (hl : s.sched.eventL.container u = some w.list)
    (hmem : Obs.handed w.list u ∈ obs) :
    s.inCall u = some (w.op, false) ∧ s'.inCall u = some (w.op, true) := by
  obtain ⟨acts, hm, ha, hh⟩ := hsp.moves
  have hwaits := (h.tasks u).waitsOn (show (s.sched.view u).event = some w.list from hl)
  obtain ⟨w', hw', hlist⟩ := Option.map_eq_some_iff.mp ((Pc.waitsOn_eq _).symm.trans hwaits)
  have hsame : w' = w := by
    obtain ⟨j, rfl | rfl⟩ := byHand_list.mp hb <;>
      cases w' <;> simp_all [WaitPoint.list]
  subst hsame
  have hunsig : (s.sched.tcb u).waitReason ≠ .signaled := by
    rcases (h.tasks u).waits hwaits with hv | hv
    · exact hv.2.2
    · have he := hv.1
      rw [show (s.sched.view u).event = s.sched.eventL.container u from rfl, hl] at he
      simp at he
  have hsig : (s'.sched.tcb u).waitReason = .signaled :=
    (Moves.signaled h.ready hm (h.tasks u) hwaits ha).mpr (Or.inr ((hh _).mp hmem))
  constructor
  · rw [inCall_of_point hw', hb]
    simp [hunsig]
  · rw [inCall_of_point (hsp.pc ▸ hw'), hb]
    simp [hsig]

/-- A task that does not act in a step is spared by it. -/
theorem StepKind.spared (h : Inv cfg s) (hs : StepKind cfg s e obs s')
    (hne : s.running ≠ some u) : Spared cfg s u obs s' := by
  cases hs.stepOf h u with
  | spared hsp => exact hsp
  | request hrun hpc => exact absurd hrun hne
  | own hrun hI hsrc hstep => exact absurd hrun hne

/-- A call of a handler spares every task. -/
theorem StepKind.spared_of_isr (h : Inv cfg s) {c : IsrCall}
    (hs : StepKind cfg s (.isrCall c) obs s') (u : Tid) : Spared cfg s u obs s' := by
  cases hs.stepOf h u with
  | spared hsp => exact hsp
  | own hrun hI hsrc hstep => cases hsrc

/-- A step that is no section of a task leaves every call as it is, if it hands nothing over. -/
theorem StepKind.inCall (h : Inv cfg s) (hs : StepKind cfg s e obs s')
    (hsrc : ∀ t x o, ¬ TaskEvent cfg s t e x o)
    (hno : ∀ u j, Obs.handed (.semWait j) u ∉ obs ∧ Obs.handed (.mutexLock j) u ∉ obs)
    (u : Tid) :
    s'.inCall u = s.inCall u := by
  cases hs.stepOf h u with
  | spared hsp => exact hsp.inCall h (hno u)
  | @request r hrun hpc =>
      unfold Sys.inCall
      rw [hpc]
      simp only [update_self]
      cases r <;> rfl
  | own hrun hI hsrc' hstep => exact absurd hsrc' (hsrc _ _ _)

/-! ## What the objects rest on -/

/-- The bounds of the counts and the contents of the rings. -/
structure ObjectsOk (cfg : Config) (obs : List Obs) (s : Sys) : Prop where
  sem : ∀ j sem, s.kernel.sem j = some sem →
    0 < sem.max ∧ sem.max < 4294967296 ∧ sem.count ≤ sem.max
  ring : ∀ j q, s.kernel.queue j = some q → RingInv cfg j obs q

theorem TakeEffect.bounds {k' : Kernel} {o : Option Tid} (he : TakeEffect k j o k' obs)
    (h : ∀ sem, k.sem j = some sem → 0 < sem.max ∧ sem.max < 4294967296 ∧ sem.count ≤ sem.max)
    {sem : Semaphore} (hsem : k'.sem j = some sem) :
    0 < sem.max ∧ sem.max < 4294967296 ∧ sem.count ≤ sem.max := by
  cases he with
  | refuse hzero => exact h sem hsem
  | @take sem' hsem' hne =>
      obtain rfl : { sem' with count := sem'.count - 1 } = sem := by
        simpa [Kernel.setSem] using hsem
      obtain ⟨hpos, hlt, hle⟩ := h sem' hsem'
      exact ⟨hpos, hlt, by show sem'.count - 1 ≤ sem'.max; omega⟩

theorem SignalEffect.bounds {k' : Kernel} {acts : List Action} {g : Bool}
    (he : SignalEffect k j k' acts obs g)
    (h : ∀ sem, k.sem j = some sem → 0 < sem.max ∧ sem.max < 4294967296 ∧ sem.count ≤ sem.max)
    {sem : Semaphore} (hsem : k'.sem j = some sem) :
    0 < sem.max ∧ sem.max < 4294967296 ∧ sem.count ≤ sem.max := by
  cases he with
  | invalid hno => exact h sem hsem
  | full hsem' hne hfull => exact h sem hsem
  | @store sem' hsem' hroom hempty =>
      obtain rfl : { sem' with count := u32 (sem'.count + 1) } = sem := by
        simpa [Kernel.setSem] using hsem
      obtain ⟨hpos, hlt, hle⟩ := h sem' hsem'
      refine ⟨hpos, hlt, ?_⟩
      have hne : sem'.count ≠ sem'.max := fun heq => hroom (by omega) heq
      show u32 (sem'.count + 1) ≤ sem'.max
      unfold u32
      omega
  | hand hsem' hzero hl => exact h sem hsem

/-- **Every step keeps the bounds and the rings.** -/
theorem StepKind.objectsOk (h : Inv cfg s) (hk : ObjectsOk cfg obs₀ s)
    (hs : StepKind cfg s e obs s') : ObjectsOk cfg (obs₀ ++ obs) s' := by
  constructor
  · intro j sem hsem
    cases hs.semStep h j with
    | other hsame hobs hlist => exact hk.sem j sem (hsame.symm.trans hsem)
    | take hpc hsec =>
        cases hsec with
        | now he => exact he.bounds (hk.sem j) hsem
        | block hsem' hzero hm => exact hk.sem j sem hsem
    | takeIsr he => exact he.bounds (hk.sem j) hsem
    | signal hpc he => exact he.bounds (hk.sem j) hsem
    | signalIsr hh he => exact he.bounds (hk.sem j) hsem
    | read hpc => exact hk.sem j sem hsem
    | finish hpc => exact hk.sem j sem hsem
  · intro j q' hq'
    obtain ⟨q, hq⟩ := (hs.queueStep h j).queue_some hq'
    obtain ⟨q₁, hq₁, he⟩ := (hs.queueStep h j).ring hq
    obtain rfl := Option.some.inj (hq₁.symm.trans hq')
    exact he.ringInv (h.queues j q hq) (hk.ring j q hq)

theorem Initial.objectsOk (h₀ : Initial cfg s₀) : ObjectsOk cfg [] s₀ := by
  constructor
  · intro j sem hsem
    have hT := h₀.tokens hsem
    exact ⟨hT.max_pos, hT.max_lt, hT.le⟩
  · intro j q hq
    exact h₀.ringInv hq

/-- As many items are stored as the count says. -/
theorem items_length (q : Queue) : (q.items cfg).length = q.count := by
  simp [Queue.items, Ring.contents]

/-- **Writing the ring appends the item.** -/
theorem RingInv.items_put {q : Queue} (h : RingInv cfg j obs₀ q) (hok : QueueOk cfg q)
    (hroom : q.count ≠ q.capacity) (data : List UInt8) :
    (q.put cfg data).items cfg = q.items cfg ++ [q.itemOf data] := by
  have hput : RingEffect cfg j q [.enqueued j (q.itemOf data) true] (q.put cfg data) :=
    .put hroom (by simp)
  have hitems := (hput.ringInv hok h).items
  rw [sent_append, received_append, h.items, List.append_assoc, List.append_assoc] at hitems
  have hsent : sent j [.enqueued j (q.itemOf data) true] = [q.itemOf data] := by
    simp [sent, Obs.sent]
  have hreceived : received j [.enqueued j (q.itemOf data) true] = [] := rfl
  rw [hsent, hreceived, List.nil_append] at hitems
  exact (List.append_cancel_left hitems).symm

/-- **Reading the ring removes the oldest item.** -/
theorem RingInv.items_take {q : Queue} (h : RingInv cfg j obs₀ q) (hok : QueueOk cfg q)
    (hne : q.count ≠ 0) :
    q.items cfg = q.itemAt cfg q.readIndex :: q.take.items cfg := by
  have htake : RingEffect cfg j q [.dequeued j (some (q.itemAt cfg q.readIndex))] q.take :=
    .take hne (by simp)
  have hitems := (htake.ringInv hok h).items
  rw [sent_append, received_append, h.items, List.append_assoc, List.append_assoc] at hitems
  have hsent : sent j [.dequeued j (some (q.itemAt cfg q.readIndex))] = [] := rfl
  have hreceived : received j [.dequeued j (some (q.itemAt cfg q.readIndex))] =
      [q.itemAt cfg q.readIndex] := by
    simp [received, Obs.received]
  rw [hsent, hreceived, List.append_nil] at hitems
  exact List.append_cancel_left hitems

/-! ## The operations on the objects of a kernel -/

/-- Objects do not depend on the scheduler. -/
theorem objects_sched (sched : Sched) : { k with sched := sched }.objects cfg = k.objects cfg := rfl

@[simp] theorem objects_sem : (k.objects cfg).sem = k.sem := rfl

@[simp] theorem objects_mutex : (k.objects cfg).mutex = k.mutex := rfl

@[simp] theorem objects_queue :
    (k.objects cfg).queue j = (k.queue j).map (Queue.bounded cfg) := rfl

theorem objects_setSem (sem : Semaphore) :
    (k.setSem j sem).objects cfg = (k.objects cfg).setSem j sem := rfl

theorem objects_setMutex (m : Mutex) :
    (k.setMutex j m).objects cfg = (k.objects cfg).setMutex j m := rfl

theorem objects_setQueue (q : Queue) :
    (k.setQueue j q).objects cfg = (k.objects cfg).setQueue j (q.bounded cfg) := by
  unfold Kernel.objects Kernel.setQueue Objects.setQueue
  congr 1
  funext i
  by_cases hi : i = j
  · subst hi
    simp
  · simp [hi]

/-- **A take that does not block is the take of the sequential object.** -/
theorem TakeEffect.take_eq (cfg : Config) {k' : Kernel} {o : Option Tid}
    (he : TakeEffect k j o k' obs) :
    ∃ b, obs = [.taken j o b] ∧ (k.objects cfg).take j = (.flag b, k'.objects cfg) := by
  unfold Objects.take
  simp only [objects_sem]
  cases he with
  | refuse hzero =>
      refine ⟨false, rfl, ?_⟩
      rcases hsem : k.sem j with _ | sem
      · rfl
      · simp [hzero sem hsem]
  | take hsem hne =>
      refine ⟨true, rfl, ?_⟩
      simp [hsem, hne, objects_setSem]

/-- A take without a token fails. -/
theorem take_of_zero {sem : Semaphore} (hsem : k.sem j = some sem) (hzero : sem.count = 0) :
    (k.objects cfg).take j = (.flag false, k.objects cfg) := by
  unfold Objects.take
  simp [hsem, hzero]

/-- A signal adds a token where there is room. -/
theorem signal_eq (cfg : Config) {sem : Semaphore} (hsem : k.sem j = some sem) :
    (k.objects cfg).signal j =
      if sem.count = sem.max then (.flag false, k.objects cfg)
      else (.flag true, (k.objects cfg).setSem j { sem with count := sem.count + 1 }) := by
  unfold Objects.signal
  simp only [objects_sem, hsem]

/-- **A token that is handed over has been added, and is taken.** -/
theorem take_added {sem : Semaphore} (hsem : k.sem j = some sem) (hzero : sem.count = 0) :
    ((k.objects cfg).setSem j { sem with count := sem.count + 1 }).take j =
      (.flag true, k.objects cfg) := by
  have hback : update (update k.sem j (some { sem with count := sem.count + 1 })) j
      (some { sem with count := 0 }) = k.sem := by
    rw [update_idem, ← hzero, ← hsem, update_eq_self]
  unfold Objects.take Objects.setSem
  simp [hzero, Kernel.objects] at hback ⊢
  exact hback

/-- A lock of a mutex that has an owner fails. -/
theorem lock_of_owner {m : Mutex} (hm : k.mutex j = some m) (hown : m.owner ≠ none) :
    (k.objects cfg).lock t j = (.flag false, k.objects cfg) := by
  unfold Objects.lock
  simp [hm, hown]

/-- A lock of a free mutex succeeds with room for one more. -/
theorem lock_of_free (hM : MutexInv k) {m : Mutex} (hm : k.mutex j = some m)
    (hown : m.owner = none) (hheld : (k.sched.tcb t).mutexesHeld ≠ 0xFF) :
    (k.objects cfg).lock t j = (.flag true, (k.objects cfg).setMutex j { owner := some t }) := by
  have hcount : ((k.objects cfg).heldBy t).encard ≠ 0xFF := by
    show (OwnedBy k t).encard ≠ 0xFF
    rw [hM.count]
    exact_mod_cast hheld
  unfold Objects.lock
  simp [hm, hown, hcount]

/-- **A mutex that is handed over has been freed, and is locked.** -/
theorem lock_freed (cfg : Config) (j : ℕ) (hM : MutexInv k) {w : Tid}
    (hroom : (k.sched.tcb w).mutexesHeld < 0xFF) :
    ((k.objects cfg).setMutex j { owner := none }).lock w j =
      (.flag true, (k.objects cfg).setMutex j { owner := some w }) := by
  have hsub : ((k.objects cfg).setMutex j { owner := none }).heldBy w ⊆ OwnedBy k w := by
    rintro i ⟨m', hm', hown'⟩
    by_cases hij : i = j
    · subst hij
      obtain rfl : { owner := none } = m' := by simpa [Objects.setMutex] using hm'
      simp at hown'
    · exact ⟨m', by simpa [Objects.setMutex, hij] using hm', hown'⟩
  have hcount : (((k.objects cfg).setMutex j { owner := none }).heldBy w).encard ≠ 0xFF := by
    have hle := Set.encard_le_encard hsub
    rw [hM.count] at hle
    have hlt : ((k.sched.tcb w).mutexesHeld : ℕ∞) < 0xFF := by exact_mod_cast hroom
    exact (lt_of_le_of_lt hle hlt).ne
  unfold Objects.lock
  rw [show ((k.objects cfg).setMutex j { owner := none }).mutex j = some { owner := none } by
    simp [Objects.setMutex]]
  simp [hcount]
  simp [Objects.setMutex]

/-- An unlock by another than the owner fails. -/
theorem unlock_of_ne (hno : ∀ m, k.mutex j = some m → m.owner ≠ some t) :
    (k.objects cfg).unlock t j = (.flag false, k.objects cfg) := by
  unfold Objects.unlock
  rcases hm : k.mutex j with _ | m
  · simp [hm]
  · simp [hm, hno m hm]

/-- The owner frees the mutex. -/
theorem unlock_of_owner {m : Mutex} (hm : k.mutex j = some m) (hown : m.owner = some t) :
    (k.objects cfg).unlock t j = (.flag true, (k.objects cfg).setMutex j { owner := none }) := by
  unfold Objects.unlock
  simp [hm, hown]

/-- An enqueue into a full queue fails. -/
theorem enqueue_of_full {q : Queue} (hq : k.queue j = some q) (hfull : q.count = q.capacity)
    (data : Option (List UInt8)) :
    (k.objects cfg).enqueue j data = (.flag false, k.objects cfg) := by
  unfold Objects.enqueue
  cases data <;> simp [hq, Queue.bounded, items_length, hfull]

/-- An enqueue without a queue or without data fails. -/
theorem enqueue_of_invalid {data : Option (List UInt8)} (hno : k.queue j = none ∨ data = none) :
    (k.objects cfg).enqueue j data = (.flag false, k.objects cfg) := by
  unfold Objects.enqueue
  rcases hno with hq | rfl
  · simp [hq]
  · cases k.queue j <;> simp

/-- An enqueue is the update of the ring. -/
theorem enqueue_of_room {q : Queue} (hq : k.queue j = some q) (hring : RingInv cfg j obs₀ q)
    (hok : QueueOk cfg q) (hroom : q.count ≠ q.capacity) (data : List UInt8) :
    (k.objects cfg).enqueue j (some data) =
      (.flag true, (k.setQueue j (q.put cfg data)).objects cfg) := by
  unfold Objects.enqueue
  rw [objects_setQueue]
  simp [hq, Queue.bounded, items_length, hroom, hring.items_put hok hroom]
  rfl

/-- A dequeue from an empty queue fails. -/
theorem dequeue_of_empty {q : Queue} (hq : k.queue j = some q) (hempty : q.count = 0) (dst : Bool) :
    (k.objects cfg).dequeue j dst = (.item none, k.objects cfg) := by
  have hnil : q.items cfg = [] := List.length_eq_zero_iff.mp ((items_length q).trans hempty)
  unfold Objects.dequeue
  cases dst <;> simp [hq, Queue.bounded, hnil]

/-- A dequeue without a queue or without a destination fails. -/
theorem dequeue_of_invalid {dst : Bool} (hno : k.queue j = none ∨ dst = false) :
    (k.objects cfg).dequeue j dst = (.item none, k.objects cfg) := by
  unfold Objects.dequeue
  rcases hno with hq | rfl
  · simp [hq]
  · cases k.queue j <;> simp

/-- A dequeue is the update of the ring, and returns the oldest item. -/
theorem dequeue_of_ne {q : Queue} (hq : k.queue j = some q) (hring : RingInv cfg j obs₀ q)
    (hok : QueueOk cfg q) (hne : q.count ≠ 0) :
    (k.objects cfg).dequeue j true =
      (.item (some (q.itemAt cfg q.readIndex)), (k.setQueue j q.take).objects cfg) := by
  unfold Objects.dequeue
  rw [objects_setQueue]
  simp [hq, Queue.bounded, hring.items_take hok hne]
  rfl

/-! ## What the sections do with the operations -/

/-- Nothing that a blocked call waits for is handed over. -/
def NoneServed (obs : List Obs) : Prop :=
  ∀ u j, Obs.handed (.semWait j) u ∉ obs ∧ Obs.handed (.mutexLock j) u ∉ obs

/-- **The operation `o` of `i` takes effect in a section**, alone or with that of the task it
hands something to. -/
inductive TakesEffect (cfg : Config) (k : Kernel) (i : Option Tid) (o : Op) (k' : Kernel)
    (obs : List Obs) : Prop
  | alone {r : Res} (happly : Objects.apply (k.objects cfg) i o = (r, k'.objects cfg))
      (hresult : obs.filterMap Obs.result = [r]) (hnone : NoneServed obs)
  | hands {r : Res} {y : Objects} {u : Tid} {w : WaitPoint} (hb : w.byHand = true)
      (hl : k.sched.eventL.container u = some w.list) (hmem : Obs.handed w.list u ∈ obs)
      (honly : ∀ l v, Obs.handed l v ∈ obs → v = u)
      (happly : Objects.apply (k.objects cfg) i o = (r, y))
      (hserve : Objects.apply y (some u) w.op = (.flag true, k'.objects cfg))
      (hresult : obs.filterMap Obs.result = [r])

/-- A result is no hand-over. -/
theorem NoneServed.cons {ob : Obs} {r : Res} (h : NoneServed obs) (hob : ob.result = some r) :
    NoneServed (ob :: obs) := by
  have hne : ∀ l u, Obs.handed l u ≠ ob := by
    rintro l u rfl
    simp [Obs.result] at hob
  intro u j
  simp only [List.mem_cons, not_or]
  exact ⟨⟨hne _ _, (h u j).1⟩, ⟨hne _ _, (h u j).2⟩⟩

theorem noneServed_single {ob : Obs} {r : Res} (hob : ob.result = some r) : NoneServed [ob] :=
  NoneServed.cons (by simp [NoneServed]) hob

/-- A wake-up in the list of a queue serves nobody, and fixes no result. -/
theorem handed_queue {wobs : List Obs} {l : EventList} (hw : ∀ ob ∈ wobs, ∃ u, ob = .handed l u)
    (hl : l.object = .queue j) : NoneServed wobs ∧ wobs.filterMap Obs.result = [] := by
  constructor
  · intro u i
    constructor <;>
    · intro hmem
      obtain ⟨v, hv⟩ := hw _ hmem
      simp only [Obs.handed.injEq] at hv
      rw [← hv.1] at hl
      simp at hl
  · rw [List.filterMap_eq_nil_iff]
    intro ob hmem
    obtain ⟨v, rfl⟩ := hw ob hmem
    rfl

/-- An operation that fails. -/
theorem TakesEffect.of_fails {i : Option Tid} {o : Op} {k' : Kernel} {ob : Obs}
    (happly : Objects.apply (k.objects cfg) i o = (o.fails, k.objects cfg))
    (hk : k'.objects cfg = k.objects cfg) (hob : ob.result = some o.fails) :
    TakesEffect cfg k i o k' [ob] :=
  .alone (happly.trans (by rw [hk])) (by simp [hob]) (noneServed_single hob)

/-- An operation on a ring. -/
theorem TakesEffect.of_ring {i : Option Tid} {o : Op} {k' : Kernel} {r : Res} {ob : Obs}
    {wobs : List Obs} {l : EventList}
    (happly : Objects.apply (k.objects cfg) i o = (r, k'.objects cfg))
    (hob : ob.result = some r) (hw : ∀ ob ∈ wobs, ∃ u, ob = .handed l u)
    (hl : l.object = .queue j) : TakesEffect cfg k i o k' (ob :: wobs) := by
  obtain ⟨hnone, hresults⟩ := handed_queue hw hl
  exact .alone happly (by simp [hob, hresults]) (hnone.cons hob)

/-- **A take that does not block.** -/
theorem TakeEffect.takesEffect {k' : Kernel} {i : Option Tid} (he : TakeEffect k j i k' obs) :
    TakesEffect cfg k i (.take j) k' obs := by
  obtain ⟨b, rfl, htake⟩ := he.take_eq cfg
  refine .alone (r := .flag b) ?_ rfl (by simp [NoneServed])
  cases i <;> exact htake

/-- **A signal.** -/
theorem SignalEffect.takesEffect {k' : Kernel} {acts : List Action} {g : Bool} {i : Option Tid}
    (he : SignalEffect k j k' acts obs g)
    (hbounds : ∀ sem, k.sem j = some sem →
      0 < sem.max ∧ sem.max < 4294967296 ∧ sem.count ≤ sem.max) :
    TakesEffect cfg k i (.signal j) k' obs := by
  have happly : ∀ {y : Res × Objects}, (k.objects cfg).signal j = y →
      Objects.apply (k.objects cfg) i (.signal j) = y := by
    rintro y rfl
    cases i <;> rfl
  cases he with
  | invalid hsem =>
      refine .of_fails (happly ?_) rfl rfl
      unfold Objects.signal
      simp [hsem, Op.fails]
  | full hsem hne hfull =>
      refine .of_fails (happly ?_) rfl rfl
      rw [signal_eq cfg hsem, if_pos hfull]
      rfl
  | @store sem hsem hroom hempty =>
      obtain ⟨hpos, hlt, hle⟩ := hbounds sem hsem
      have hne : sem.count ≠ sem.max := fun heq => hroom (by omega) heq
      have hu : u32 (sem.count + 1) = sem.count + 1 := Nat.mod_eq_of_lt (by omega)
      refine .alone (r := .flag true) (happly ?_) rfl (by simp [NoneServed])
      rw [signal_eq cfg hsem, if_neg hne, objects_setSem, hu]
  | @hand sem w rest hsem hzero hl =>
      obtain ⟨hpos, -, -⟩ := hbounds sem hsem
      have hsignal := signal_eq cfg hsem
      rw [if_neg (show sem.count ≠ sem.max by omega)] at hsignal
      exact .hands (w := .sem j) rfl (ListStore.container_of_head hl) (by simp [WaitPoint.list])
        (by simp) (happly hsignal) (take_added hsem hzero) rfl

/-- **The first section of a call of the task `t` ends**: the operation has taken effect, or the
call blocks, when it would fail. -/
inductive CallEnds (cfg : Config) (k : Kernel) (t : Tid) (o : Op) (out : Outcome) : Prop
  | done (hpc : out.pc = .user ∨ out.pc = .request none)
      (heff : TakesEffect cfg k (some t) o out.kernel out.obs)
  | blocks {w : WaitPoint} (hpc : out.pc = .request (some w)) (hop : w.op = o)
      (happly : Objects.apply (k.objects cfg) (some t) o = (o.fails, k.objects cfg))
      (hobjects : out.kernel.objects cfg = k.objects cfg)
      (hresult : out.obs.filterMap Obs.result = []) (hnone : NoneServed out.obs)

theorem TakeSection.callEnds {o : Outcome} (hs : TakeSection cfg k j t o) :
    CallEnds cfg k t (.take j) o := by
  cases hs with
  | now he => exact .done (Or.inl rfl) he.takesEffect
  | block hsem hzero hm =>
      exact .blocks rfl rfl (take_of_zero hsem hzero) rfl rfl (by simp [NoneServed])

/-- A lock of a free mutex by a task with room does not fail. -/
theorem artosMutexLock_of_free (cfg : Config) (hcur : k.sched.curTask = some t) {m : Mutex}
    (hm : k.mutex j = some m) (hown : m.owner = none) (hheld : (k.sched.tcb t).mutexesHeld ≠ 0xFF)
    (n : ℕ) : (artosMutexLock cfg k j n).obs = [.locked j (some t) true] := by
  unfold artosMutexLock
  simp [hm, hcur, hheld, hown]

theorem artosMutexLock_callEnds (hI : InTask cfg k.sched t) (hM : MutexInv k) {n : ℕ}
    (hlt : n < 4294967296) : CallEnds cfg k t (.lock j) (artosMutexLock cfg k j n) := by
  have hfree := fun m => @artosMutexLock_of_free t j k cfg hI.can.cur m
  have hs := artosMutexLock_section hI j hlt
  have hobs := fun m hm hown hheld => hfree m hm hown hheld n
  clear hfree
  revert hs hobs
  generalize artosMutexLock cfg k j n = o
  intro hs hobs
  cases hs with
  | refuse =>
      refine .done (Or.inl rfl) (.of_fails ?_ rfl rfl)
      show (k.objects cfg).lock t j = (.flag false, k.objects cfg)
      rcases hm : k.mutex j with _ | m
      · unfold Objects.lock
        simp [hm]
      · by_cases hown : m.owner = none
        · by_cases hheld : (k.sched.tcb t).mutexesHeld = 0xFF
          · have hcount : ((k.objects cfg).heldBy t).encard = 0xFF := by
              show (OwnedBy k t).encard = 0xFF
              rw [hM.count, hheld]
              rfl
            unfold Objects.lock
            simp [hm, hcount]
          · have hlocked := hobs m hm hown hheld
            simp at hlocked
        · exact lock_of_owner hm hown
  | acquire hm hown hheld =>
      exact .done (Or.inl rfl) (.alone (lock_of_free hM hm hown hheld) rfl (by simp [NoneServed]))
  | block hm hown hne hheld hb hi =>
      exact .blocks rfl rfl (lock_of_owner hm (by simp [hown])) rfl rfl (by simp [NoneServed])

theorem UnlockSection.callEnds {o : Outcome} (hM : MutexInv k) (hs : UnlockSection cfg k j t o) :
    CallEnds cfg k t (.unlock j) o := by
  cases hs with
  | refuse hno => exact .done (Or.inl rfl) (.of_fails (unlock_of_ne hno) rfl rfl)
  | release hm hown hr hl =>
      exact .done (ite_request _) (.alone (unlock_of_owner hm hown) rfl (by simp [NoneServed]))
  | @hand m k₁ acts changed w rest hm hown hr hl =>
      have hwait := ListStore.container_of_head hl
      have hfreed := lock_freed cfg j hM (hM.room w j hwait)
      exact .done (ite_request _) (.hands (w := .mutex j) rfl hwait (by simp [WaitPoint.list])
        (by simp) (unlock_of_owner hm hown) hfreed rfl)

/-- **How a pass of the loop of an enqueue ends**, with its item. -/
inductive EnqueuePass (cfg : Config) (k : Kernel) (j : ℕ) (q : Queue) (data : List UInt8) :
    Outcome → Prop
  | full (hfull : q.count = q.capacity) {ob : Obs} (hob : ob.result = some (.flag false)) :
      EnqueuePass cfg k j q data ⟨k, .user, [ob]⟩
  | block (hfull : q.count = q.capacity) (sched : Sched) (w : ℕ) (inf : Bool) (o : Option Tid) :
      EnqueuePass cfg k j q data ⟨{ k with sched := sched },
        .request (some (.enqueue j data w inf)), [.blocked o (.queueWrite j)]⟩
  | put (hroom : q.count ≠ q.capacity) (sched : Sched) (g : Bool) {ob : Obs} {wobs : List Obs}
      (hob : ob.result = some (.flag true)) (hw : ∀ ob ∈ wobs, ∃ u, ob = .handed (.queueRead j) u) :
      EnqueuePass cfg k j q data
        ⟨{ k.setQueue j (q.put cfg data) with sched := sched }, afterWake g, ob :: wobs⟩

/-- A wake-up makes known only whom it woke. -/
theorem wakeHead_handed (k : Sched) (l : EventList) :
    ∀ ob ∈ (wakeHead cfg k l).obs, ∃ u, ob = .handed l u := by
  unfold wakeHead
  cases k.eventL.elems l <;> simp

theorem enqueueAttempt_pass (k : Kernel) (j : ℕ) (q : Queue) (data : List UInt8) (w : ℕ)
    (inf : Bool) : EnqueuePass cfg k j q data (enqueueAttempt cfg k j q data w inf) := by
  unfold enqueueAttempt
  by_cases hfull : q.count = q.capacity
  · rw [if_pos hfull]
    by_cases hp : deadlinePassed k.sched w inf = true
    · rw [if_pos hp]
      exact .full hfull rfl
    · rw [if_neg hp]
      exact .block hfull _ _ _ _
  · rw [if_neg hfull]
    exact .put hfull _ _ rfl (wakeHead_handed _ _)

/-- **How a pass of the loop of a dequeue ends.** -/
inductive DequeuePass (cfg : Config) (k : Kernel) (j : ℕ) (q : Queue) : Outcome → Prop
  | empty (hempty : q.count = 0) : DequeuePass cfg k j q ⟨k, .user, [.dequeued j none]⟩
  | block (hempty : q.count = 0) (sched : Sched) (w : ℕ) (inf : Bool) (o : Option Tid) :
      DequeuePass cfg k j q ⟨{ k with sched := sched }, .request (some (.dequeue j w inf)),
        [.blocked o (.queueRead j)]⟩
  | take (hne : q.count ≠ 0) (sched : Sched) (g : Bool) {wobs : List Obs}
      (hw : ∀ ob ∈ wobs, ∃ u, ob = .handed (.queueWrite j) u) :
      DequeuePass cfg k j q ⟨{ k.setQueue j q.take with sched := sched }, afterWake g,
        .dequeued j (some (q.itemAt cfg q.readIndex)) :: wobs⟩

theorem dequeueAttempt_pass (k : Kernel) (j : ℕ) (q : Queue) (w : ℕ) (inf : Bool) :
    DequeuePass cfg k j q (dequeueAttempt cfg k j q w inf) := by
  unfold dequeueAttempt
  by_cases hempty : q.count = 0
  · rw [if_pos hempty]
    by_cases hp : deadlinePassed k.sched w inf = true
    · rw [if_pos hp]
      exact .empty hempty
    · rw [if_neg hp]
      exact .block hempty _ _ _ _
  · rw [if_neg hempty]
    exact .take hempty _ _ (wakeHead_handed _ _)

theorem EnqueuePass.callEnds {q : Queue} {data : List UInt8} {o : Outcome}
    (hp : EnqueuePass cfg k j q data o) (hq : k.queue j = some q) (hring : RingInv cfg j obs₀ q)
    (hok : QueueOk cfg q) : CallEnds cfg k t (.enqueue j (some data)) o := by
  cases hp with
  | full hfull hob =>
      exact .done (Or.inl rfl) (.of_fails (enqueue_of_full hq hfull _) rfl hob)
  | block hfull sched w inf o =>
      exact .blocks rfl rfl (enqueue_of_full hq hfull _) rfl rfl (by simp [NoneServed])
  | put hroom sched g hob hw =>
      exact .done (afterWake_cases g)
        (.of_ring (j := j) (enqueue_of_room hq hring hok hroom data) hob hw rfl)

theorem DequeuePass.callEnds {q : Queue} {o : Outcome}
    (hp : DequeuePass cfg k j q o) (hq : k.queue j = some q) (hring : RingInv cfg j obs₀ q)
    (hok : QueueOk cfg q) : CallEnds cfg k t (.dequeue j true) o := by
  cases hp with
  | empty hempty =>
      exact .done (Or.inl rfl) (.of_fails (dequeue_of_empty hq hempty _) rfl rfl)
  | block hempty sched w inf o =>
      exact .blocks rfl rfl (dequeue_of_empty hq hempty _) rfl rfl (by simp [NoneServed])
  | take hne sched g hw =>
      exact .done (afterWake_cases g)
        (.of_ring (j := j) (dequeue_of_ne hq hring hok hne) rfl hw rfl)

/-- **The first section of every call on an object.** -/
theorem callStep_callEnds (h : Inv cfg s) (hk : ObjectsOk cfg obs₀ s) (hI : InTask cfg s.sched t)
    {c : Call} {o : Op} (hop : c.op = some o) :
    CallEnds cfg s.kernel t o (callStep cfg s.kernel c) := by
  cases c with
  | semaphoreTake j n =>
      obtain rfl := Option.some.inj hop
      exact (artosSemaphoreTake_section hI j n.toNat_lt).callEnds
  | semaphoreSignal j =>
      obtain rfl := Option.some.inj hop
      obtain ⟨acts, g, he, hpc⟩ := artosSemaphoreSignal_effect hI.toReady j
      refine .done ?_ (he.takesEffect (hk.sem j))
      show (artosSemaphoreSignal cfg s.kernel j).pc = _ ∨
        (artosSemaphoreSignal cfg s.kernel j).pc = _
      rw [hpc]
      exact afterWake_cases g
  | mutexLock j n =>
      obtain rfl := Option.some.inj hop
      exact artosMutexLock_callEnds hI h.mutexes n.toNat_lt
  | mutexUnlock j =>
      obtain rfl := Option.some.inj hop
      refine (artosMutexUnlock_section hI j (fun m hm hown => h.mutexes.held_pos hm hown)
        fun u hu => ?_).callEnds h.mutexes
      exact (h.mutexes.room u j hu).ne
  | queueEnqueue j data n =>
      obtain rfl := Option.some.inj hop
      show CallEnds cfg s.kernel t (.enqueue j data) (artosQueueEnqueue cfg s.kernel j data n.toNat)
      unfold artosQueueEnqueue
      rcases hq : s.kernel.queue j with _ | q
      · exact .done (Or.inl rfl) (.of_fails (enqueue_of_invalid (Or.inl hq)) rfl rfl)
      · cases data with
        | none => exact .done (Or.inl rfl) (.of_fails (enqueue_of_invalid (Or.inr rfl)) rfl rfl)
        | some data =>
            simp only [rtosQueueAssertValid_eq (h.queues j q hq).valid]
            exact (enqueueAttempt_pass _ _ _ _ _ _).callEnds hq (hk.ring j q hq) (h.queues j q hq)
  | queueDequeue j dst n =>
      obtain rfl := Option.some.inj hop
      show CallEnds cfg s.kernel t (.dequeue j dst) (artosQueueDequeue cfg s.kernel j dst n.toNat)
      unfold artosQueueDequeue
      rcases hq : s.kernel.queue j with _ | q
      · exact .done (Or.inl rfl) (.of_fails (dequeue_of_invalid (Or.inl hq)) rfl rfl)
      · cases dst with
        | false => exact .done (Or.inl rfl) (.of_fails (dequeue_of_invalid (Or.inr rfl)) rfl rfl)
        | true =>
            simp only [rtosQueueAssertValid_eq (h.queues j q hq).valid]
            exact (dequeueAttempt_pass _ _ _ _ _).callEnds hq (hk.ring j q hq) (h.queues j q hq)
  | _ => simp [Call.op] at hop

/-- **Every call of a handler takes effect at once.** -/
theorem isrCallStep_takesEffect (h : Inv cfg s) (hk : ObjectsOk cfg obs₀ s) (woken : Bool)
    (c : IsrCall) : TakesEffect cfg s.kernel none c.op (isrCallStep cfg s.kernel woken c).kernel
      (isrCallStep cfg s.kernel woken c).obs := by
  cases c with
  | semaphoreTake j => exact (artosSemaphoreTakeIsr_effect j woken).1.takesEffect
  | semaphoreSignal j flagged =>
      obtain ⟨acts, g, he, -⟩ := artosSemaphoreSignalIsr_effect h.ready j flagged woken
      exact he.takesEffect (hk.sem j)
  | queueEnqueue j data flagged =>
      simp only [isrCallStep, IsrCall.op]
      unfold artosQueueEnqueueFromIsr
      rcases hq : s.kernel.queue j with _ | q
      · exact .of_fails (enqueue_of_invalid (Or.inl hq)) rfl rfl
      cases data with
      | none => exact .of_fails (enqueue_of_invalid (Or.inr rfl)) rfl rfl
      | some data =>
          simp only [rtosQueueAssertValid_eq (h.queues j q hq).valid]
          by_cases hfull : q.count = q.capacity
          · rw [if_pos hfull]
            exact .of_fails (enqueue_of_full hq hfull _) rfl rfl
          · rw [if_neg hfull]
            have heq := enqueue_of_room hq (hk.ring j q hq) (h.queues j q hq) hfull data
            exact .of_ring (j := j) heq rfl (wakeHead_handed _ _) rfl
  | queueDequeue j dst flagged =>
      simp only [isrCallStep, IsrCall.op]
      unfold artosQueueDequeueFromIsr
      rcases hq : s.kernel.queue j with _ | q
      · exact .of_fails (dequeue_of_invalid (Or.inl hq)) rfl rfl
      cases dst with
      | false => exact .of_fails (dequeue_of_invalid (Or.inr rfl)) rfl rfl
      | true =>
          simp only [rtosQueueAssertValid_eq (h.queues j q hq).valid]
          by_cases hempty : q.count = 0
          · rw [if_pos hempty]
            exact .of_fails (dequeue_of_empty hq hempty _) rfl rfl
          · rw [if_neg hempty]
            have heq := dequeue_of_ne hq (hk.ring j q hq) (h.queues j q hq) hempty
            exact .of_ring (j := j) heq rfl (wakeHead_handed _ _) rfl

/-- **A later section of a blocked call of `t` ends.**  The call is in the operation `o`, and
`b` says whether that has taken effect. -/
inductive ResumeEnds (cfg : Config) (s : Sys) (t : Tid) (o : Op) (b : Bool) (out : Outcome) : Prop
  | returns (hpc : out.pc = .user) (hobjects : out.kernel.objects cfg = s.kernel.objects cfg)
      (hresult : out.obs.filterMap Obs.result = [if b then .flag true else o.fails])
      (hnone : NoneServed out.obs)
  | stays (hin : (s.finish t out).inCall t = some (o, b))
      (hobjects : out.kernel.objects cfg = s.kernel.objects cfg)
      (hresult : out.obs.filterMap Obs.result = []) (hnone : NoneServed out.obs)
  | completes {r : Res} (hb : b = false) (hpc : out.pc = .user ∨ out.pc = .request none)
      (happly : Objects.apply (s.kernel.objects cfg) (some t) o = (r, out.kernel.objects cfg))
      (hresult : out.obs.filterMap Obs.result = [r]) (hnone : NoneServed out.obs)

/-- The point at which a section leaves its task. -/
theorem finish_pc {out : Outcome} : (s.finish t out).pc t = out.pc := update_self _ _ _

/-- A queue call that blocks again. -/
theorem inCall_finish {out : Outcome} {w : WaitPoint} {o : Op} (hpc : out.pc = .request (some w))
    (hop : w.op = o) (hb : w.byHand = false) : (s.finish t out).inCall t = some (o, false) := by
  have hpoint : ((s.finish t out).pc t).point = some w := by rw [finish_pc, hpc]; rfl
  rw [inCall_of_point hpoint, hop, hb]
  rfl

theorem EnqueuePass.resumeEnds {q : Queue} {data : List UInt8} {out : Outcome}
    (hp : EnqueuePass cfg k j q data out) (hk : k.objects cfg = s.kernel.objects cfg)
    (hq : k.queue j = some q) (hring : RingInv cfg j obs₀ q) (hok : QueueOk cfg q) :
    ResumeEnds cfg s t (.enqueue j (some data)) false out := by
  cases hp with
  | full hfull hob => exact .returns rfl hk (by simp [hob, Op.fails]) (noneServed_single hob)
  | block hfull sched w inf o =>
      have hin : (s.finish t ⟨{ k with sched := sched }, .request (some (.enqueue j data w inf)),
          [.blocked o (.queueWrite j)]⟩).inCall t = some (.enqueue j (some data), false) :=
        inCall_finish rfl rfl rfl
      exact .stays hin hk rfl (by simp [NoneServed])
  | put hroom sched g hob hw =>
      obtain ⟨hnone, hresults⟩ := handed_queue hw rfl
      have heq := enqueue_of_room hq hring hok hroom data
      rw [hk] at heq
      exact .completes rfl (afterWake_cases g) heq (by simp [hob, hresults]) (hnone.cons hob)

theorem DequeuePass.resumeEnds {q : Queue} {out : Outcome}
    (hp : DequeuePass cfg k j q out) (hk : k.objects cfg = s.kernel.objects cfg)
    (hq : k.queue j = some q) (hring : RingInv cfg j obs₀ q) (hok : QueueOk cfg q) :
    ResumeEnds cfg s t (.dequeue j true) false out := by
  cases hp with
  | empty hempty => exact .returns rfl hk rfl (noneServed_single rfl)
  | block hempty sched w inf o =>
      have hin : (s.finish t ⟨{ k with sched := sched }, .request (some (.dequeue j w inf)),
          [.blocked o (.queueRead j)]⟩).inCall t = some (.dequeue j true, false) :=
        inCall_finish rfl rfl rfl
      exact .stays hin hk rfl (by simp [NoneServed])
  | take hne sched g hw =>
      obtain ⟨hnone, hresults⟩ := handed_queue hw rfl
      have heq := dequeue_of_ne hq hring hok hne
      rw [hk] at heq
      exact .completes rfl (afterWake_cases g) heq (by simp [Obs.result, hresults])
        (hnone.cons rfl)

/-- **The later sections of every call on an object.** -/
theorem TaskEvent.resumeEnds (h : Inv cfg s) (hk : ObjectsOk cfg obs₀ s)
    (hI : InTask cfg s.sched t) {x : Object} {out : Outcome}
    (hsrc : TaskEvent cfg s t .resume x out) :
    ∃ o b, s.inCall t = some (o, b) ∧ ResumeEnds cfg s t o b out := by
  have hreason : s.sched.rtosCurrentWaitReason = (s.sched.tcb t).waitReason := by
    unfold rtosCurrentWaitReason
    rw [hI.can.cur]
  cases hsrc with
  | @resume w hpc =>
      have hpoint : (s.pc t).point = some w := by rw [hpc]; rfl
      have hvalid := h.points t w hpoint
      refine ⟨w.op, _, inCall_of_point hpoint, ?_⟩
      cases w with
      | sem j =>
          refine .stays ?_ rfl rfl (by simp [NoneServed, resumeStep, artosSemaphoreTakeResume])
          simp only [resumeStep, artosSemaphoreTakeResume, Sys.inCall, Sys.finish, update_self,
            hreason]
          rfl
      | mutex j =>
          obtain ⟨m, hm⟩ := Option.ne_none_iff_exists'.mp hvalid
          have hs := artosMutexLockResume_section hI hm
          simp only [resumeStep]
          revert hs
          generalize artosMutexLockResume cfg s.kernel j = out
          intro hs
          cases hs with
          | granted hsig =>
              exact .returns rfl rfl (by simp [Obs.result, WaitPoint.byHand, hsig])
                (noneServed_single rfl)
          | timedOut hm' hsig hd =>
              refine .returns rfl rfl ?_ (noneServed_single rfl)
              have hsig' : (s.kernel.sched.tcb t).waitReason ≠ .signaled := hsig
              simp [Obs.result, WaitPoint.byHand, hsig', Op.fails, WaitPoint.op]
      | enqueue j data w inf =>
          obtain ⟨q, hq⟩ := Option.ne_none_iff_exists'.mp hvalid.1
          simp only [resumeStep, artosQueueEnqueueResume, hq]
          split
          · exact .returns rfl rfl rfl (noneServed_single rfl)
          · exact (enqueueAttempt_pass _ _ _ _ _ _).resumeEnds rfl hq (hk.ring j q hq)
              (h.queues j q hq)
      | dequeue j w inf =>
          obtain ⟨q, hq⟩ := Option.ne_none_iff_exists'.mp hvalid.1
          simp only [resumeStep, artosQueueDequeueResume, hq]
          split
          · exact .returns rfl rfl rfl (noneServed_single rfl)
          · exact (dequeueAttempt_pass _ _ _ _ _).resumeEnds rfl hq (hk.ring j q hq)
              (h.queues j q hq)
  | @finish j res hpc =>
      refine ⟨.take j, res, ?_, .returns rfl rfl ?_ (noneServed_single rfl)⟩
      · unfold Sys.inCall
        rw [hpc]
      · cases res <;> rfl

/-! ## The monitor keeps up -/

variable {w : Watch Objects (Option Tid) Op Res}

/-- The monitor passes with the events of a step, and keeps track of the machine. -/
def KeepsUp (cfg : Config) (w : Watch Objects (Option Tid) Op Res)
    (h : List (Ev (Option Tid) Op Res)) (s' : Sys) : Prop :=
  ∃ c w', Passes Objects.apply w h c w' ∧ Tracks cfg s' w'

/-- **An operation that takes effect in its first section.** -/
theorem TakesEffect.keepsUp (h : Inv cfg s) (ht : Tracks cfg s w) {i : Option Tid} {o : Op}
    (heff : TakesEffect cfg s.kernel i o s'.kernel obs) (hidle : w.status i = .idle)
    (hspared : ∀ u, some u ≠ i → Spared cfg s u obs s')
    (hcaller : ∀ t, i = some t → s'.inCall t = none ∧ s.sched.eventL.container t = none) :
    KeepsUp cfg w (.call i o :: (obs.filterMap Obs.result).map (Ev.ret i)) s' := by
  cases heff with
  | @alone r happly hresult hnone =>
      rw [← ht.state] at happly
      obtain ⟨w', hp, hstate, hidle'⟩ := Watch.immediate hidle happly
      refine ⟨{i}, w', by rw [hresult]; exact hp, ht.passes hp hstate ?_ ?_ ?_⟩
      · rintro rfl
        exact hidle'
      · intro t hmem
        obtain rfl : some t = i := hmem
        rw [hidle', (hcaller t rfl).1]
        exact .out
      · intro t hmem
        exact (hspared t hmem).inCall h (hnone t)
  | @hands r y u p hb hl hmem honly happly hserve hresult =>
      have hu : some u ≠ i := by
        intro hui
        rw [(hcaller u hui.symm).2] at hl
        simp at hl
      obtain ⟨hin, hin'⟩ := (hspared u hu).served h hb hl hmem
      have hst := ht.tasks u
      rw [hin] at hst
      generalize hstu : w.status (some u) = st at hst
      cases hst with
      | waits hfails =>
          rw [← ht.state] at happly
          obtain ⟨w', hp, hstate, hidle', hdone⟩ := Watch.handsOver hu hidle hstu happly hserve
          refine ⟨{i, some u}, w', by rw [hresult]; exact hp, ht.passes hp hstate ?_ ?_ ?_⟩
          · rintro hnone
            obtain rfl : none = i := by simpa using hnone
            exact hidle'
          · intro t hmem'
            by_cases hti : some t = i
            · rw [hti, hidle', (hcaller t hti.symm).1]
              exact .out
            · obtain rfl : t = u := by simpa [hti] using hmem'
              rw [hdone, hin']
              exact .served
          · intro t hmem'
            simp only [Set.mem_insert_iff, Set.mem_singleton_iff, not_or] at hmem'
            have hne : t ≠ u := fun he => hmem'.2 (by rw [he])
            exact (hspared t hmem'.1).inCall h fun j =>
              ⟨fun hh => hne (honly _ _ hh), fun hh => hne (honly _ _ hh)⟩

/-- A task outside the kernel, or about to request a switch after its call, is in no call. -/
theorem inCall_of_outside (hpc : s.pc t = .user ∨ s.pc t = .request none) : s.inCall t = none := by
  unfold Sys.inCall
  rcases hpc with hpc | hpc <;> rw [hpc]

/-- A section that hands nothing over leaves the calls of the other tasks as they are. -/
theorem inCall_others (h : Inv cfg s) (hspared : ∀ u, u ≠ t → Spared cfg s u obs s')
    (hnone : NoneServed obs) :
    ∀ u, some u ∉ ({some t} : Set (Option Tid)) → s'.inCall u = s.inCall u :=
  fun u hu => (hspared u fun he => hu (by rw [he]; rfl)).inCall h (hnone u)

/-- **The first section of a call.** -/
theorem CallEnds.keepsUp (h : Inv cfg s) (ht : Tracks cfg s w) (hI : InTask cfg s.sched t)
    (hpc : s.pc t = .user) {o : Op} {out : Outcome} (hends : CallEnds cfg s.kernel t o out)
    (hreason : out.pc.point ≠ none → (out.kernel.sched.tcb t).waitReason ≠ .signaled)
    (hspared : ∀ u, u ≠ t → Spared cfg s u out.obs (s.finish t out)) :
    KeepsUp cfg w (.call (some t) o :: (out.obs.filterMap Obs.result).map (Ev.ret (some t)))
      (s.finish t out) := by
  have hidle : w.status (some t) = .idle := by
    have hst := ht.tasks t
    rw [inCall_user hpc] at hst
    generalize w.status (some t) = st at hst
    cases hst
    rfl
  cases hends with
  | done hout heff =>
      have heff' : TakesEffect cfg s.kernel (some t) _ (s.finish t out).kernel out.obs := heff
      refine heff'.keepsUp h ht hidle
        (fun u hu => hspared u fun he => hu (by rw [he])) fun t' ht' => ?_
      obtain rfl := Option.some.inj ht'
      exact ⟨inCall_of_outside (finish_pc.symm ▸ hout), hI.can.event⟩
  | @blocks p hout hop happly hobjects hresult hnone =>
      obtain ⟨w', hp, hstate, hpend⟩ := Watch.calls Objects.apply hidle o
      refine ⟨{some t}, w', by rw [hresult]; exact hp, ht.passes hp ?_ (by simp) ?_
        (inCall_others h hspared hnone)⟩
      · exact hstate.trans (ht.state.trans hobjects.symm)
      · intro t' hmem
        obtain rfl : t' = t := Option.some.inj hmem
        have hpoint : ((s.finish t' out).pc t').point = some p := by rw [finish_pc, hout]; rfl
        have hunsig := hreason (by rw [hout]; simp [Pc.point])
        rw [inCall_of_point hpoint, hpend, hop]
        have hsig : (decide (((s.finish t' out).sched.tcb t').waitReason = .signaled)) = false :=
          decide_eq_false hunsig
        rw [hsig, Bool.and_false]
        -- when it blocks, the operation would fail
        refine .waits ?_
        show Objects.apply w.state (some t') o = (o.fails, w.state)
        rw [ht.state]
        exact happly

/-- **The later sections of a call.** -/
theorem ResumeEnds.keepsUp (h : Inv cfg s) (ht : Tracks cfg s w) {o : Op} {b : Bool}
    {out : Outcome} (hin : s.inCall t = some (o, b)) (hends : ResumeEnds cfg s t o b out)
    (hspared : ∀ u, u ≠ t → Spared cfg s u out.obs (s.finish t out)) :
    KeepsUp cfg w ((out.obs.filterMap Obs.result).map (Ev.ret (some t))) (s.finish t out) := by
  have hst := ht.tasks t
  rw [hin] at hst
  generalize hstw : w.status (some t) = st at hst
  -- a call that returns leaves its task idle
  have hreturn : ∀ {h' w'}, (out.pc = .user ∨ out.pc = .request none) → NoneServed out.obs →
      Passes Objects.apply w h' {some t} w' → w'.state = out.kernel.objects cfg →
      w'.status (some t) = .idle → KeepsUp cfg w h' (s.finish t out) := by
    intro h' w' hout hnone hp hstate hidle
    refine ⟨{some t}, w', hp, ht.passes hp hstate (by simp) ?_ (inCall_others h hspared hnone)⟩
    intro t' hmem
    obtain rfl : t' = t := Option.some.inj hmem
    rw [hidle, inCall_of_outside (finish_pc.symm ▸ hout)]
    exact .out
  cases hends with
  | returns hout hobjects hresult hnone =>
      rw [hresult]
      have hstate : w.state = out.kernel.objects cfg := ht.state.trans hobjects.symm
      cases hst with
      | waits hfails =>
          obtain ⟨w', hp, hsame, hidle⟩ := Watch.returnsSeen Objects.apply hstw hfails
          exact hreturn (Or.inl hout) hnone hp (hsame.trans hstate) hidle
      | served =>
          obtain ⟨w', hp, hsame, hidle⟩ := Watch.returns Objects.apply hstw
          exact hreturn (Or.inl hout) hnone hp (hsame.trans hstate) hidle
  | stays hin' hobjects hresult hnone =>
      rw [hresult]
      refine ⟨∅, w, Passes.refl w, ht.same hobjects fun u => ?_⟩
      by_cases hut : u = t
      · rw [hut, hin', hin]
      · exact (hspared u hut).inCall h (hnone u)
  | completes hb hout happly hresult hnone =>
      subst hb
      rw [hresult]
      rw [← ht.state] at happly
      cases hst with
      | waits hfails =>
          obtain ⟨w', hp, hstate, hidle⟩ := Watch.completes hstw happly
          exact hreturn hout hnone hp hstate hidle

/-- A section of no object. -/
theorem TaskStep.outside {out : Outcome} (hstep : TaskStep cfg .none t k out) :
    (out.pc = .user ∨ out.pc = .request none) ∧ out.kernel.objects cfg = k.objects cfg ∧
      out.obs.filterMap Obs.result = [] ∧ NoneServed out.obs := by
  obtain ⟨acts, hsec, -⟩ := hstep.sec
  have hobj := hsec.obs_ok.object
  refine ⟨?_, ?_, ?_, fun u j => ?_⟩
  · cases hstep.ends with
    | user hpc => exact Or.inl hpc
    | request hpc => exact Or.inr hpc
    | @block p hpc hobs hreason =>
        have hp := hobj _ (by rw [hobs]; exact List.mem_singleton_self _)
        cases p <;> simp [WaitPoint.list] at hp
    | read hx hpc => simp at hx
  · have hsem : out.kernel.sem = k.sem := funext fun j => hsec.sem j (by simp)
    have hmutex : out.kernel.mutex = k.mutex := funext fun j => hsec.mutex j (by simp)
    have hqueue : out.kernel.queue = k.queue := funext fun j => hsec.queue j (by simp)
    unfold Kernel.objects
    rw [hsem, hmutex, hqueue]
  · rw [List.filterMap_eq_nil_iff]
    intro ob hmem
    have hob := hobj ob hmem
    cases ob <;> first | rfl | simp at hob
  · constructor <;>
    · intro hmem
      have hob := hobj _ hmem
      simp at hob

/-- **The monitor keeps up with every step.** -/
theorem StepKind.keepsUp (h : Inv cfg s) (hk : ObjectsOk cfg obs₀ s) (ht : Tracks cfg s w)
    (hs : StepKind cfg s e obs s') : KeepsUp cfg w (stepHistory s (e, obs)) s' := by
  have hkind := hs
  have hnone : ∀ (u : Tid) (j : ℕ), Obs.handed (.semWait j) u ∉ ([] : List Obs) ∧
      Obs.handed (.mutexLock j) u ∉ ([] : List Obs) := by simp
  -- a step that is no section
  have hstill : stepHistory s (e, obs) = [] → s'.kernel.objects cfg = s.kernel.objects cfg →
      (∀ t x o, ¬ TaskEvent cfg s t e x o) → NoneServed obs →
      KeepsUp cfg w (stepHistory s (e, obs)) s' := by
    intro hnil hobjects hsrc hserved
    rw [hnil]
    exact ⟨∅, w, Passes.refl w, ht.same hobjects (hkind.inCall h hsrc hserved)⟩
  cases hs with
  | create hcur hm hacts =>
      exact hstill rfl rfl (by rintro t x o ⟨⟩) (by simp [NoneServed])
  | start hcur hm hacts hnext => exact hstill rfl rfl (by rintro t x o ⟨⟩) (by simp [NoneServed])
  | tick hm hset => exact hstill rfl rfl (by rintro t x o ⟨⟩) (by simp [NoneServed])
  | switch hcur hpending hm hacts =>
      exact hstill rfl rfl (by rintro t x o ⟨⟩) (by simp [NoneServed])
  | isrEnter => exact hstill rfl rfl (by rintro t x o ⟨⟩) (by simp [NoneServed])
  | isrReturn hh => exact hstill rfl rfl (by rintro t x o ⟨⟩) (by simp [NoneServed])
  | @request t r hrun hpc =>
      refine ⟨∅, w, Passes.refl w, ht.same rfl fun u => ?_⟩
      by_cases hut : u = t
      · subst hut
        unfold Sys.inCall
        rw [hpc]
        simp only [update_self]
        cases r <;> rfl
      · exact (hkind.spared h (by rw [hrun]; simpa using Ne.symm hut)).inCall h (hnone u)
  | @task e t x out hrun hI hsrc hstep =>
      have hspared : ∀ u, u ≠ t → Spared cfg s u out.obs (s.finish t out) := fun u hut =>
        hkind.spared h (by rw [hrun]; simpa using Ne.symm hut)
      have hcaller : s.running = some t := hrun
      cases e with
      | call c =>
          cases hsrc with
          | call hpc =>
              rcases hop : c.op with _ | o
              · have hx : c.object = .none := by cases c <;> simp_all [Call.op, Call.object]
                rw [hx] at hstep
                obtain ⟨hout, hobjects, hresult, hserved⟩ := hstep.outside
                have hnil : stepHistory s (.call c, (callStep cfg s.kernel c).obs) = [] := by
                  simp [stepHistory, Event.op, hop, hresult]
                rw [hnil]
                refine ⟨∅, w, Passes.refl w, ht.same hobjects fun u => ?_⟩
                by_cases hut : u = t
                · subst hut
                  rw [inCall_user hpc]
                  exact inCall_of_outside (finish_pc.symm ▸ hout)
                · exact (hspared u hut).inCall h (hserved u)
              · have hends := callStep_callEnds h hk hI hop
                have hkeeps := hends.keepsUp h ht hI hpc (fun hpoint => ?_) hspared
                · simpa [stepHistory, Event.op, hop, Sys.caller, hcaller] using hkeeps
                · cases hstep.ends with
                  | user hu => simp [hu, Pc.point] at hpoint
                  | request hu => simp [hu, Pc.point] at hpoint
                  | block hu hobs hreason => exact hreason
                  | read hx hu => simp [hu, Pc.point] at hpoint
      | resume =>
          obtain ⟨o, b, hin, hends⟩ := hsrc.resumeEnds h hk hI
          have hkeeps := hends.keepsUp h ht hin hspared
          simpa [stepHistory, Event.op, Sys.caller, hcaller] using hkeeps
      | _ => cases hsrc
  | @isrCall c woken rest hh hstep =>
      have hkeeps := (isrCallStep_takesEffect h hk woken c).keepsUp h ht ht.isr
        (fun u _ => hkind.spared_of_isr h u) (by simp)
      simpa [stepHistory, Event.op, Sys.caller] using hkeeps

/-- Before the run nobody is in a call. -/
theorem Initial.tracks (h₀ : Initial cfg s₀) :
    Tracks cfg s₀ (Watch.start (s₀.kernel.objects cfg)) where
  state := rfl
  isr := rfl
  tasks := by
    intro t
    rw [inCall_user (h₀.pc t)]
    exact .out

/-- **The objects are linearizable.**  Every run of the machine, with whatever ticks, switches
and interrupts come between, is seen by the callers as if every call on a semaphore, a mutex
or a queue, of a task or of an interrupt handler, had been made at one moment between its
start and its return, one after the other, on the sequential objects. -/
theorem linearizable (h₀ : Initial cfg s₀) {tr : List Label} (hr : Run cfg s₀ tr s) :
    Linearizable Objects.apply (s₀.kernel.objects cfg) (history cfg s₀ tr) := by
  have hall : Run cfg s₀ tr s ∧ ObjectsOk cfg (observations tr) s ∧
      ∃ acts w, events acts = history cfg s₀ tr ∧ Tracks cfg s w ∧
        Runs.Exec (WatchStep Objects.apply) (Watch.start (s₀.kernel.objects cfg)) acts w := by
    refine hr.trace_invariant
      (I := fun tr s => Run cfg s₀ tr s ∧ ObjectsOk cfg (observations tr) s ∧
        ∃ acts w, events acts = history cfg s₀ tr ∧ Tracks cfg s w ∧
          Runs.Exec (WatchStep Objects.apply) (Watch.start (s₀.kernel.objects cfg)) acts w)
      (fun tr s b s' hI hs => ?_)
      ⟨Runs.Exec.nil, h₀.objectsOk, [], _, rfl, h₀.tracks, Runs.Exec.nil⟩
    obtain ⟨hrun, hk, acts, w, hevents, ht, hexec⟩ := hI
    have hinv : Inv cfg s := h₀.inv.run hrun
    have hkind := step_kind hinv hs
    obtain ⟨c, w', hp, ht'⟩ := hkind.keepsUp hinv hk ht
    obtain ⟨acts', hevents', hexec'⟩ := hp.run
    refine ⟨hrun.snoc hs, ?_, acts ++ acts', w', ?_, ht', hexec.trans hexec'⟩
    · rw [observations_snoc]
      exact hkind.objectsOk hinv hk
    · rw [history_snoc hrun, ← hevents, ← hevents']
      exact List.filterMap_append
  obtain ⟨-, -, acts, w, hevents, -, hexec⟩ := hall
  rw [← hevents]
  exact linearizable_of_watched hexec

/-- A take waits for a token, an interrupt finds the queue empty, and the token is signaled
to the take, which returns last. -/
def overlappingCalls : List Label × Sys :=
  (Runs.runSteps (step smallConfig) smallBoot
    [createTask 1 0, createTask 2 1, .start, .call (.semaphoreTake 0 5), .resume, switchFrom 2,
      .isrEnter, .isrCall (.queueDequeue 0 true true), .isrReturn false,
      .call (.semaphoreSignal 0), .resume, switchFrom 1, .resume, .resume]).get (by decide +kernel)

theorem overlappingCalls_run : Run smallConfig smallBoot overlappingCalls.1 overlappingCalls.2 :=
  run_of_runSteps (Option.some_get _).symm

theorem linearizable_overlappingCalls :
    history smallConfig smallBoot overlappingCalls.1 =
        [.call (some (.user 1)) (.take 0), .call none (.dequeue 0 true), .ret none (.item none),
          .call (some (.user 0)) (.signal 0), .ret (some (.user 0)) (.flag true),
          .ret (some (.user 1)) (.flag true)] ∧
      Linearizable Objects.apply (smallBoot.kernel.objects smallConfig)
        (history smallConfig smallBoot overlappingCalls.1) :=
  ⟨by decide +kernel, linearizable smallBoot_initial overlappingCalls_run⟩

end Artos
