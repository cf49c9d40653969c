/-
# Timeouts of blocking calls

A call that blocks with the timeout `T` keeps the wake tick `T` ticks ahead: the
semaphores and the mutexes block once and trust the delayed lists, the queues block
again with the same wake tick as long as it lies less than half the circle ahead.
`CallInv` follows a call through the run that leads it back, with the number of ticks
that have passed; it says both that no call times out early and that a deadline survives
blocking again.

The queues compute with half the circle, so a timeout of `2^31` ticks or more counts as
passed at once (`no_early_timeout`).
-/
import Artos.Deadlines
import Artos.Handoff

open Function

namespace Artos

open Sched

variable {cfg : Config} {t : Tid} {n w : ℕ} {obs : List Obs} {s s' : Sys} {e : Event}
  {x : Object} {o : Outcome}

/-! ## Calls that block -/

/-- The deadline that a wait point keeps for its loop. -/
def WaitPoint.Deadline (w : ℕ) : WaitPoint → Prop
  | .enqueue _ _ w' inf => w' = w ∧ inf = false
  | .dequeue _ w' inf => w' = w ∧ inf = false
  | _ => True

/-- The wait point belongs to a queue. -/
def WaitPoint.onQueue : WaitPoint → Bool
  | .enqueue _ _ _ _ => true
  | .dequeue _ _ _ => true
  | _ => false

/-- A call of the task has blocked and has not returned. -/
def Pc.InCall : Pc → Prop
  | .request (some _) => True
  | .resume _ => True
  | .semClear _ _ => True
  | _ => False

instance (p : Pc) : Decidable p.InCall := by
  unfold Pc.InCall
  split <;> infer_instance

/-- The observation is of a blocking call that returned false. -/
def Obs.Fails : Obs → Prop
  | .taken _ _ res => res = false
  | .locked _ _ res => res = false
  | .enqueued _ _ res => res = false
  | .dequeued _ item => item = none
  | _ => False

/-- The timeout of a blocking call on an object. -/
def Call.timeout : Call → ℕ
  | .semaphoreTake _ n => n.toNat
  | .mutexLock _ n => n.toNat
  | .queueEnqueue _ _ n => n.toNat
  | .queueDequeue _ _ n => n.toNat
  | _ => 0

/-- The call is one of the two blocking calls on a queue. -/
def Call.onQueue : Call → Bool
  | .queueEnqueue _ _ _ => true
  | .queueDequeue _ _ _ => true
  | _ => false

/-- **The call has valid arguments, and its object cannot serve it now.** -/
def Unserved (k : Kernel) (t : Tid) : Call → Prop
  | .semaphoreTake h _ => ∃ sem, k.sem h = some sem ∧ sem.count = 0
  | .mutexLock h _ => ∃ m owner, k.mutex h = some m ∧ m.owner = some owner ∧ owner ≠ t ∧
      (k.sched.tcb t).mutexesHeld < 0xFF
  | .queueEnqueue h data _ => data ≠ none ∧ ∃ q, k.queue h = some q ∧ q.count = q.capacity
  | .queueDequeue h dst _ => dst = true ∧ ∃ q, k.queue h = some q ∧ q.count = 0
  | _ => False

/-- **The first section of a call that blocks** until the tick `w`; `q` says that it is a
call on a queue. -/
structure Enters (cfg : Config) (k : Sched) (t : Tid) (w : ℕ) (q : Bool) (o : Outcome) :
    Prop where
  moves : ∃ obj acts, Moves cfg k (.block t w obj false :: acts) o.kernel.sched ∧
    ∀ a ∈ acts, a.Adjusts
  point : ∃ y, o.pc = .request (some y) ∧ y.Deadline w ∧ y.onQueue = q
  obs : ∃ l, o.obs = [.blocked (some t) l]

/-- The deadline test of the loops looks at the ticks to the wake tick alone. -/
theorem deadlinePassed_iff {k : Sched} :
    deadlinePassed k w false = true ↔ k.ticksTo w = 0 ∨ 2147483648 ≤ k.ticksTo w := by
  unfold deadlinePassed ticksTo
  simp

/-- Before the deadline as many ticks are left as have not passed. -/
theorem ticksTo_early {k : Sched} {t₀ T : ℕ} (hk : k.ticks = u32 (t₀ + n))
    (hT : T < 4294967296) (hn : n ≤ T) : k.ticksTo (u32 (T + t₀)) = T - n := by
  unfold ticksTo
  rw [hk]
  unfold u32
  omega

/-- For half a circle from the deadline on, it counts as passed. -/
theorem ticksTo_late {k : Sched} {t₀ T : ℕ} (hk : k.ticks = u32 (t₀ + n))
    (hn : T ≤ n) (hlate : n < T + 2147483648) :
    k.ticksTo (u32 (T + t₀)) = 0 ∨ 2147483648 ≤ k.ticksTo (u32 (T + t₀)) := by
  unfold ticksTo
  rw [hk]
  unfold u32
  omega

/-- The branch of a take or a lock that blocks with a finite timeout. -/
theorem blockFor_eq {k : Sched} (hc : k.CanBlock t) (l : EventList)
    (hinf : n ≠ artosDelayInfinity) :
    blockFor k l n = k.blockedOn t (u32 (n + k.ticks)) (some l) false := by
  unfold blockFor
  rw [if_neg hinf, rtosBlockCurrentTask_eq hc]

/-- The whole timeout lies ahead when the call computes its wake tick. -/
theorem ticksTo_now {k : Sched} (hd : DelayInv k) (hn : n < 4294967296) :
    k.ticksTo (u32 (n + k.ticks)) = n := by
  have htick : k.ticks = u32 (k.ticks + 0) := by
    have hlt := hd.ticks_lt
    unfold u32
    omega
  exact ticksTo_early htick hn (Nat.zero_le _)

/-- The first test of a queue's loop finds a deadline ahead, if that is less than half the
circle away. -/
theorem deadline_ahead {k : Sched} (hd : DelayInv k) (hpos : 0 < n) (hhalf : n < 2147483648) :
    ¬ deadlinePassed k (u32 (n + k.ticks)) false = true := by
  rw [deadlinePassed_iff, ticksTo_now hd (by omega)]
  omega

/-- Blocking for a finite timeout is a move. -/
theorem Move.blockFor {k : Sched} (hd : DelayInv k) (hc : k.CanBlock t) (hpos : 0 < n)
    (hfin : n < artosDelayInfinity) (obj : Option EventList) :
    Move cfg k (.block t (u32 (n + k.ticks)) obj false)
      (k.blockedOn t (u32 (n + k.ticks)) obj false) := by
  refine .block hc fun _ => ?_
  have hticks := hd.ticks_lt
  unfold artosDelayInfinity at hfin
  unfold u32
  omega

section
variable {k : Kernel} {j : ℕ}

/-- A take that finds no token blocks. -/
theorem artosSemaphoreTake_blocks {sem : Semaphore} (hc : k.sched.CanBlock t)
    (hsem : k.sem j = some sem) (hzero : sem.count = 0) (hpos : 0 < n)
    (hfin : n < artosDelayInfinity) :
    artosSemaphoreTake k j n =
      ⟨{ k with sched := k.sched.blockedOn t (u32 (n + k.sched.ticks)) (some (.semWait j)) false },
        .request (some (.sem j)), [.blocked (some t) (.semWait j)]⟩ := by
  have hn : n ≠ 0 := Nat.ne_of_gt hpos
  simp [artosSemaphoreTake, hsem, hzero, hn, blockFor_eq hc _ (Nat.ne_of_lt hfin), hc.cur]

/-- A lock of a mutex that another task owns blocks, and the owner inherits. -/
theorem artosMutexLock_blocks {m : Mutex} {owner : Tid} (hc : k.sched.CanBlock t)
    (hm : k.mutex j = some m) (hown : m.owner = some owner) (hne : owner ≠ t)
    (hheld : (k.sched.tcb t).mutexesHeld < 0xFF) (hpos : 0 < n) (hfin : n < artosDelayInfinity) :
    artosMutexLock cfg k j n =
      let sched := k.sched.blockedOn t (u32 (n + k.sched.ticks)) (some (.mutexLock j)) false
      ⟨{ k with
          sched := sched.rtosPriorityInherit cfg (some owner)
            (rtosMutexRequiredPriority sched (some owner) (.mutexLock j)) },
        .request (some (.mutex j)), [.blocked (some t) (.mutexLock j)]⟩ := by
  have hff : (k.sched.tcb t).mutexesHeld ≠ 0xFF := Nat.ne_of_lt hheld
  have hsec : ¬ (t = owner ∨ (k.sched.tcb t).mutexesHeld = 0xFF ∨ n = 0) := by
    rintro (rfl | hf | hz)
    · exact hne rfl
    · exact hff hf
    · exact Nat.ne_of_gt hpos hz
  simp only [artosMutexLock, hm, hc.cur, if_neg hff, hown, if_neg hsec,
    blockFor_eq hc _ (Nat.ne_of_lt hfin)]

/-- An enqueue to a full queue blocks. -/
theorem artosQueueEnqueue_blocks {q : Queue} {data : List UInt8} (hd : DelayInv k.sched)
    (hc : k.sched.CanBlock t) (hq : k.queue j = some q) (hok : QueueOk cfg q)
    (hfull : q.count = q.capacity) (hpos : 0 < n) (hhalf : n < 2147483648) :
    artosQueueEnqueue cfg k j (some data) n =
      ⟨{ k with
          sched := k.sched.blockedOn t (u32 (n + k.sched.ticks)) (some (.queueWrite j)) false },
        .request (some (.enqueue j data (u32 (n + k.sched.ticks)) false)),
        [.blocked (some t) (.queueWrite j)]⟩ := by
  have hinf : n ≠ artosDelayInfinity := by
    unfold artosDelayInfinity
    omega
  have hwake : queueWakeTick k.sched n = u32 (n + k.sched.ticks) := if_neg hinf
  simp only [artosQueueEnqueue, hq, rtosQueueAssertValid_eq hok.valid, enqueueAttempt,
    if_pos hfull, hwake, decide_eq_false hinf, if_neg (deadline_ahead hd hpos hhalf),
    rtosBlockCurrentTask_eq hc, hc.cur]

/-- A dequeue from an empty queue blocks. -/
theorem artosQueueDequeue_blocks {q : Queue} (hd : DelayInv k.sched) (hc : k.sched.CanBlock t)
    (hq : k.queue j = some q) (hok : QueueOk cfg q) (hempty : q.count = 0) (hpos : 0 < n)
    (hhalf : n < 2147483648) :
    artosQueueDequeue cfg k j true n =
      ⟨{ k with
          sched := k.sched.blockedOn t (u32 (n + k.sched.ticks)) (some (.queueRead j)) false },
        .request (some (.dequeue j (u32 (n + k.sched.ticks)) false)),
        [.blocked (some t) (.queueRead j)]⟩ := by
  have hinf : n ≠ artosDelayInfinity := by
    unfold artosDelayInfinity
    omega
  have hwake : queueWakeTick k.sched n = u32 (n + k.sched.ticks) := if_neg hinf
  simp only [artosQueueDequeue, hq, rtosQueueAssertValid_eq hok.valid, dequeueAttempt,
    if_pos hempty, hwake, decide_eq_false hinf, if_neg (deadline_ahead hd hpos hhalf),
    rtosBlockCurrentTask_eq hc, hc.cur]

end

/-- **A call on an object that cannot serve it blocks for its timeout**, on a queue if
that is less than half the circle. -/
theorem callStep_enters (h : Inv cfg s) (hI : InTask cfg s.sched t) {c : Call}
    (hc : Unserved s.kernel t c) (hpos : 0 < c.timeout)
    (hfin : c.timeout < artosDelayInfinity)
    (hq : c.onQueue = true → c.timeout < 2147483648) :
    Enters cfg s.sched t (u32 (c.timeout + s.sched.ticks)) c.onQueue
      (callStep cfg s.kernel c) := by
  have hdelay := h.ready.delay
  have hcan := hI.can
  have hblock : ∀ obj, Move cfg s.sched (.block t (u32 (c.timeout + s.sched.ticks)) obj false) _ :=
    Move.blockFor hdelay hcan hpos hfin
  cases c with
  | semaphoreTake j n =>
      obtain ⟨sem, hsem, hzero⟩ := hc
      have heq : callStep cfg s.kernel (.semaphoreTake j n) = _ :=
        artosSemaphoreTake_blocks hcan hsem hzero hpos hfin
      rw [heq]
      exact ⟨⟨_, [], Runs.Exec.single (hblock _), by simp⟩, ⟨_, rfl, trivial, rfl⟩,
        ⟨_, rfl⟩⟩
  | mutexLock j n =>
      obtain ⟨m, owner, hm, hown, hne, hheld⟩ := hc
      have hmove := Runs.Exec.single (hblock (some (.mutexLock j)))
      -- the owner inherits in the kernel in which its waiter is already linked
      have hs₁ := (h.ready.inv.moves hdelay hmove).1
      obtain ⟨hbase, hp, -⟩ := hs₁.rtosMutexRequiredPriority_spec owner (.mutexLock j)
      obtain ⟨acts, hi⟩ := rtosPriorityInherit_effect hs₁ hbase hp
      have heq : callStep cfg s.kernel (.mutexLock j n) = _ :=
        artosMutexLock_blocks hcan hm hown hne hheld hpos hfin
      rw [heq]
      exact ⟨⟨_, acts, hmove.trans (hi.moves hbase hp), hi.adjusts.1⟩,
        ⟨_, rfl, trivial, rfl⟩, ⟨_, rfl⟩⟩
  | queueEnqueue j data n =>
      obtain ⟨hdata, q, hq', hfull⟩ := hc
      obtain ⟨data, rfl⟩ := Option.ne_none_iff_exists'.mp hdata
      have heq : callStep cfg s.kernel (.queueEnqueue j (some data) n) = _ :=
        artosQueueEnqueue_blocks hdelay hcan hq' (h.queues j q hq') hfull hpos (hq rfl)
      rw [heq]
      exact ⟨⟨_, [], Runs.Exec.single (hblock _), by simp⟩, ⟨_, rfl, ⟨rfl, rfl⟩, rfl⟩,
        ⟨_, rfl⟩⟩
  | queueDequeue j dst n =>
      obtain ⟨rfl, q, hq', hempty⟩ := hc
      have heq : callStep cfg s.kernel (.queueDequeue j true n) = _ :=
        artosQueueDequeue_blocks hdelay hcan hq' (h.queues j q hq') hempty hpos (hq rfl)
      rw [heq]
      exact ⟨⟨_, [], Runs.Exec.single (hblock _), by simp⟩, ⟨_, rfl, ⟨rfl, rfl⟩, rfl⟩,
        ⟨_, rfl⟩⟩
  | _ => exact absurd hc id

/-! ## The view of a task in a call -/

/-- A task that is neither blocked nor in a wait list is not woken. -/
theorem View.foldl_free {acts : List Action} {p : Pc} {v : View} (hp : p ≠ .user)
    (he : v.event = none) (hb : v.blocked = false) (ha : ∀ a ∈ acts, a.Spares t p) :
    (acts.foldl (View.after t) v).event = none ∧
      (acts.foldl (View.after t) v).blocked = false ∧
      (acts.foldl (View.after t) v).reason = v.reason := by
  induction acts generalizing v with
  | nil => exact ⟨he, hb, rfl⟩
  | cons a acts ih =>
      have hsp := ha a List.mem_cons_self
      have hone : (v.after t a).event = none ∧ (v.after t a).blocked = false ∧
          (v.after t a).reason = v.reason := by
        cases a with
        | create i q =>
            have hi : t ≠ .user i := fun hti => hp (hsp hti)
            simp [View.after, hi, he, hb]
        | block u w obj inf =>
            have hu : t ≠ u := hsp
            simp [View.after, hu, he, hb]
        | clear u =>
            have hu : t ≠ u := hsp
            simp [View.after, hu, he, hb]
        | wake l u => simp [View.after, he, hb]
        | expire u => simp [View.after, he, hb]
        | setEff u q => by_cases hu : t = u <;> simp [View.after, hu, he, hb]
        | held u m => by_cases hu : t = u <;> simp [View.after, hu, he, hb]
        | _ => exact ⟨he, hb, rfl⟩
      obtain ⟨he', hb', hr'⟩ := ih hone.1 hone.2.1 fun b hmem =>
        ha b (List.mem_cons_of_mem _ hmem)
      exact ⟨he', hb', hr'.trans hone.2.2⟩

/-- A wait that no expiry ends is ended by a wake-up. -/
theorem View.foldl_blocked {acts : List Action} {p : Pc} {v : View} (hp : p ≠ .user)
    (hb : v.blocked = true) (ha : ∀ a ∈ acts, a.Spares t p) (hx : Action.expire t ∉ acts) :
    (acts.foldl (View.after t) v).blocked = true ∨
      (acts.foldl (View.after t) v).reason = .signaled := by
  induction acts generalizing v with
  | nil => exact Or.inl hb
  | cons a acts ih =>
      have hsp := ha a List.mem_cons_self
      have hrest : ∀ b ∈ acts, b.Spares t p := fun b hmem => ha b (List.mem_cons_of_mem _ hmem)
      have hone : (v.after t a).blocked = true ∨ (v.after t a).event = none ∧
          (v.after t a).blocked = false ∧ (v.after t a).reason = .signaled := by
        cases a with
        | create i q =>
            have hi : t ≠ .user i := fun hti => hp (hsp hti)
            simp [View.after, hi, hb]
        | block u w obj inf =>
            have hu : t ≠ u := hsp
            simp [View.after, hu, hb]
        | wake l u =>
            by_cases hu : t = u ∧ v.event = some l
            · exact Or.inr (by simp [View.after, hu])
            · exact Or.inl (by simp [View.after, hu, hb])
        | expire u =>
            have hu : t ≠ u := fun hu => hx (hu ▸ List.mem_cons_self)
            exact Or.inl (by simp [View.after, hu, hb])
        | setEff u q => by_cases hu : t = u <;> simp [View.after, hu, hb]
        | held u m => by_cases hu : t = u <;> simp [View.after, hu, hb]
        | clear u => by_cases hu : t = u <;> simp [View.after, hu, hb]
        | _ => exact Or.inl hb
      rcases hone with hb' | ⟨he', hb', hr'⟩
      · exact ih hb' hrest fun hmem => hx (List.mem_cons_of_mem _ hmem)
      · exact Or.inr ((View.foldl_free hp he' hb' hrest).2.2.trans hr')

/-- Moves without an advance leave the tick. -/
theorem Moves.ticks {k k' : Sched} {acts : List Action} (hm : Moves cfg k acts k')
    (ha : NoAdvance acts) : k'.ticks = k.ticks := by
  induction hm with
  | nil => rfl
  | @snoc tr k₁ k₂ b hm hmove ih =>
      have ha' := List.mem_append.not.mp ha
      push Not at ha'
      refine (hmove.ticks ?_).trans (ih ha'.1)
      rintro rfl
      exact ha'.2 (List.mem_singleton_self _)

/-- **Only the tick handler changes the tick.** -/
theorem StepKind.ticks (h : Inv cfg s) (hs : StepKind cfg s e obs s') :
    s'.sched.ticks = if e.isTick then u32 (s.sched.ticks + 1) else s.sched.ticks := by
  by_cases he : e = .tick
  · subst he
    cases hs with
    | @tick ts k hm hset =>
        obtain ⟨k₁, hadv, hexp⟩ := Runs.Exec.cons_inv hm
        cases hadv with
        | advance hset₀ =>
            show k.ticks = _
            rw [Moves.ticks hexp (by simp [NoAdvance]), advanced_ticks]
            rfl
    | task hrun hI hsrc hstep => cases hsrc
  · obtain ⟨acts, hm, ha, -⟩ := hs.untimed h he
    rw [if_neg (by rwa [isTick_iff]), Moves.ticks hm ha]

/-! ## A call through a run -/

/-- The wait of the call has ended with success. -/
def Pc.Served (p : Pc) (reason : WaitReason) : Prop :=
  match p with
  | .semClear _ res => res = true
  | _ => reason = .signaled

/-- **A pending call of the task `t`**, made at the tick `t₀` with the timeout `T`, after
`n` further ticks: its wait point keeps the wake tick, and before the deadline the task is
delayed until it, or has been served.  `q` says that the call is on a queue. -/
structure CallInv (t : Tid) (t₀ T : ℕ) (q : Bool) (n : ℕ) (s : Sys) : Prop where
  inCall : (s.pc t).InCall
  ticks : s.sched.ticks = u32 (t₀ + n)
  point : ∀ y, (s.pc t).point = some y → y.Deadline (u32 (T + t₀)) ∧ y.onQueue = q
  half : q = true → T < 2147483648
  early : n < T → s.sched.DueIn t (T - n) ∨
    ¬ s.sched.Blocked t ∧ (s.pc t).Served (s.sched.tcb t).waitReason

theorem Pc.InCall.ne_user {p : Pc} (h : p.InCall) : p ≠ .user := by
  rintro rfl
  exact h

/-- A task whose call is pending and that is not blocked waits for nothing. -/
theorem TaskOk.free {v : View} {p : Pc} (h : TaskOk v p) (hp : p.InCall)
    (hb : v.blocked = false) : v.event = none := by
  have hwaits : ∀ {l}, Waits v l ∨ Released v → v.event = none := by
    rintro l (⟨-, hblocked, -⟩ | ⟨he, -⟩)
    · simp [hb] at hblocked
    · exact he
  cases p with
  | user => exact absurd hp id
  | request r =>
      cases r with
      | none => exact absurd hp id
      | some y => exact hwaits h
  | resume y => exact hwaits h
  | semClear j res => exact h.1

/-- A step of others leaves a pending call whose task is not blocked as it is. -/
theorem Spared.free (h : Inv cfg s) (hsp : Spared cfg s t obs s') (hp : (s.pc t).InCall)
    (hb : ¬ s.sched.Blocked t) :
    ¬ s'.sched.Blocked t ∧ (s'.sched.tcb t).waitReason = (s.sched.tcb t).waitReason := by
  obtain ⟨acts, hm, hspares, -⟩ := hsp.moves
  have hfree : (s.sched.view t).blocked = false := by
    rw [← Bool.not_eq_true]
    exact fun hb' => hb (inBlockedList_iff.mp hb')
  obtain ⟨-, hb', hr'⟩ := View.foldl_free hp.ne_user ((h.tasks t).free hp hfree) hfree hspares
  rw [← Moves.view h.ready.inv h.ready.delay hm] at hb' hr'
  refine ⟨fun hblocked => ?_, hr'⟩
  have hlinked : (s'.sched.view t).blocked = true := inBlockedList_iff.mpr hblocked
  rw [hb'] at hlinked
  simp at hlinked

/-- **A step of others keeps the deadline of a pending call**, or ends the wait with
success, unless it is a tick. -/
theorem Spared.early (h : Inv cfg s) (hs : StepKind cfg s e obs s')
    (hsp : Spared cfg s t obs s') (hp : (s.pc t).InCall) (he : e ≠ .tick)
    (hdue : s.sched.DueIn t n) : s'.sched.DueIn t n ∨
      ¬ s'.sched.Blocked t ∧ (s'.pc t).Served (s'.sched.tcb t).waitReason := by
  obtain ⟨acts, hm, -, hx, hspares⟩ := hs.untimed h he
  have hblocked := Delayed.blocked (DueIn.delayed h.ready.inv hdue)
  refine (hs.dueIn h he hdue).imp_right fun hno => ⟨hno, ?_⟩
  -- the wait has ended without an expiry
  have hfold := View.foldl_blocked hp.ne_user (inBlockedList_iff.mpr hblocked)
    (hspares t hblocked) (hx t) (v := s.sched.view t)
  rw [← Moves.view h.ready.inv h.ready.delay hm] at hfold
  have hreason : (s'.sched.tcb t).waitReason = .signaled :=
    hfold.resolve_left fun hb => hno (inBlockedList_iff.mp hb)
  have hwaits := h.tasks t
  rw [hsp.pc]
  unfold Pc.Served
  split
  · rename_i j res hpc
    rw [hpc] at hwaits
    have hfree : s.sched.inBlockedList t = false := hwaits.2.1
    rw [inBlockedList_iff.mpr hblocked] at hfree
    simp at hfree
  · exact hreason

/-- The running task is not blocked. -/
theorem InTask.not_blocked {k : Sched} (hI : InTask cfg k t) : ¬ k.Blocked t := by
  rintro ⟨l, hl, -⟩
  rw [hI.can.state] at hl
  simp at hl

/-- Blocking with a wake tick that has not passed, read off the move. -/
theorem Moves.block_dueIn {k k' : Sched} {obj : Option EventList} (hd : DelayInv k)
    (hw : w < 4294967296) (hm : Moves cfg k [.block t w obj false] k') :
    k'.DueIn t (k.ticksTo w) ∧ k'.stateL.value t = w := by
  have hmove := hm.single_inv
  cases hmove with
  | block hc hw' => exact dueIn_blockedOn hd hc obj hw

/-- **A further pass of a queue's loop** by the task at the point `y`, whose wake tick is
`w`: it gives up because the deadline has passed, blocks again until the same tick, or
succeeds. -/
inductive QueuePass (s : Sys) (t : Tid) (y : WaitPoint) (w : ℕ) (o : Outcome) : Prop
  | refuse (hpc : o.pc = .user)
      (hwhy : (s.sched.tcb t).waitReason = .timedOut ∨ deadlinePassed s.sched w false = true)
  | block (hpc : o.pc = .request (some y)) (hobs : ∃ l, o.obs = [.blocked (some t) l])
      (hticks : o.kernel.sched.ticks = s.sched.ticks)
      (hdue : o.kernel.sched.DueIn t (s.sched.ticksTo w))
      (hval : o.kernel.sched.stateL.value t = w)
      (hp : deadlinePassed s.sched w false = false)
  | serve (hpc : o.pc = .user ∨ o.pc = .request none) (hobs : ∀ ob ∈ o.obs, ¬ ob.Fails)

theorem TaskEvent.pass (h : Inv cfg s) (hI : InTask cfg s.sched t) {j : ℕ}
    (hsrc : TaskEvent cfg s t e (.queue j) o) {y : WaitPoint} (hpc : s.pc t = .resume y)
    (hy : y.Deadline w) : QueuePass s t y w o := by
  obtain ⟨k, hIk, hk, hsec⟩ := hsrc.queue h hI
  have hsched : k.sched.ticks = s.sched.ticks := by
    rcases hk with ⟨hu, -⟩ | ⟨-, rfl⟩
    · simp [hpc] at hu
    · rfl
  have hto : k.sched.ticksTo w = s.sched.ticksTo w := by
    unfold ticksTo
    rw [hsched]
  have hpassed : ∀ inf, deadlinePassed k.sched w inf = deadlinePassed s.sched w inf := by
    intro inf
    unfold deadlinePassed
    rw [hsched]
  have hexcused : Excused s t → (s.sched.tcb t).waitReason = .timedOut :=
    fun hx => hx.resolve_left (by simp [hpc])
  rcases hsec with ⟨data, w', inf, hpc', hsec⟩ | ⟨w', inf, hpc', hsec⟩
  · rw [hpc] at hpc'
    simp only [reduceCtorEq, Pc.resume.injEq, false_or] at hpc'
    subst hpc'
    obtain ⟨rfl, rfl⟩ := hy
    cases hsec with
    | refuse hwhy =>
        exact .refuse rfl (hwhy.imp hexcused fun hfull => hpassed false ▸ hfull.2)
    | block hq hfull hw hp hm =>
        obtain ⟨hdue, hval⟩ := Moves.block_dueIn hIk.delay hw hm
        exact .block rfl ⟨_, rfl⟩ ((Moves.ticks hm (by simp [NoAdvance])).trans hsched)
          (hto ▸ hdue) hval (hpassed false ▸ hp)
    | put he =>
        refine .serve (afterWake_cases _) fun ob hob => ?_
        cases he with
        | put hq hroom hw =>
            rcases List.mem_cons.mp hob with rfl | hob
            · simp [Obs.Fails]
            · obtain ⟨u, rfl⟩ := hw.obs_handed ob hob
              exact id
  · rw [hpc] at hpc'
    simp only [reduceCtorEq, Pc.resume.injEq, false_or] at hpc'
    subst hpc'
    obtain ⟨rfl, rfl⟩ := hy
    cases hsec with
    | refuse hwhy =>
        exact .refuse rfl (hwhy.imp hexcused fun hempty => hpassed false ▸ hempty.2)
    | block hq hempty hw hp hm =>
        obtain ⟨hdue, hval⟩ := Moves.block_dueIn hIk.delay hw hm
        exact .block rfl ⟨_, rfl⟩ ((Moves.ticks hm (by simp [NoAdvance])).trans hsched)
          (hto ▸ hdue) hval (hpassed false ▸ hp)
    | get he =>
        refine .serve (afterWake_cases _) fun ob hob => ?_
        cases he with
        | get hq hne hw =>
            rcases List.mem_cons.mp hob with rfl | hob
            · simp [Obs.Fails]
            · obtain ⟨u, rfl⟩ := hw.obs_handed ob hob
              exact id

/-- The object of a queue's wait point. -/
theorem WaitPoint.onQueue_object {y : WaitPoint} (hq : y.onQueue = true) :
    ∃ j, y.list.object = .queue j := by
  cases y with
  | enqueue j data w inf => exact ⟨j, rfl⟩
  | dequeue j w inf => exact ⟨j, rfl⟩
  | _ => simp [WaitPoint.onQueue] at hq

/-- The call goes on after its own step: a take reads its result, and a queue call blocks
again with the same wake tick. -/
theorem CallInv.own {t₀ T : ℕ} {q : Bool} (h : Inv cfg s) (hc : CallInv t t₀ T q n s)
    (hT : T < 4294967296) (hI : InTask cfg s.sched t) (hsrc : TaskEvent cfg s t e x o)
    (hin : o.pc.InCall) : CallInv t t₀ T q n (s.finish t o) := by
  have hpc' : (s.finish t o).pc t = o.pc := by simp [Sys.finish]
  cases hsrc with
  | call hpc => exact absurd hpc hc.inCall.ne_user
  | @resume y hpc =>
      obtain ⟨hdeadline, hq⟩ := hc.point y (by rw [hpc]; rfl)
      by_cases hyq : y.onQueue = true
      · obtain ⟨j, hj⟩ := WaitPoint.onQueue_object hyq
        have hsrc : TaskEvent cfg s t .resume (.queue j) (resumeStep cfg s.kernel y) :=
          hj ▸ .resume hpc
        cases hsrc.pass h hI hpc hdeadline with
        | refuse hend hwhy =>
            rw [hend] at hin
            exact absurd hin id
        | block hend hobs hticks hdue hval hp =>
            refine ⟨by rwa [hpc'], hticks.trans hc.ticks, fun y' hy' => ?_, hc.half,
              fun hlt => Or.inl ?_⟩
            · rw [hpc', hend] at hy'
              obtain rfl : y = y' := by simpa [Pc.point] using hy'
              exact ⟨hdeadline, hq⟩
            · rw [ticksTo_early hc.ticks hT hlt.le] at hdue
              exact hdue
        | serve hend hobs =>
            exfalso
            rcases hend with hend | hend
            · rw [hend] at hin
              exact hin
            · rw [hend] at hin
              exact hin
      · cases y with
        | sem j =>
            refine ⟨by rwa [hpc'], hc.ticks, fun y' hy' => ?_, hc.half, fun hlt => ?_⟩
            · rw [hpc'] at hy'
              simp [resumeStep, artosSemaphoreTakeResume, Pc.point] at hy'
            · -- the result that is read is the one the wait ended with
              refine Or.inr ⟨hI.not_blocked, ?_⟩
              rcases hc.early hlt with hdue | ⟨-, hserved⟩
              · exact absurd (Delayed.blocked (DueIn.delayed h.ready.inv hdue)) hI.not_blocked
              · rw [hpc] at hserved
                rw [hpc']
                have hreason : s.sched.rtosCurrentWaitReason = .signaled := by
                  unfold rtosCurrentWaitReason
                  rw [hI.can.cur]
                  exact hserved
                exact decide_eq_true hreason
        | mutex j =>
            exfalso
            have hvalid := h.points t (.mutex j) (by rw [hpc]; rfl)
            obtain ⟨m, hm⟩ := Option.ne_none_iff_exists'.mp hvalid
            have hsec := artosMutexLockResume_section hI hm
            simp only [resumeStep] at hin
            generalize artosMutexLockResume cfg s.kernel j = o at hsec hin
            cases hsec <;> exact hin
        | _ => simp [WaitPoint.onQueue] at hyq
  | finish hpc => exact absurd hin id

/-- **A call returns false after its deadline only.** -/
theorem CallInv.fails {t₀ T : ℕ} {q : Bool} (h : Inv cfg s) (hc : CallInv t t₀ T q n s)
    (hT : T < 4294967296) (hI : InTask cfg s.sched t) (hsrc : TaskEvent cfg s t e x o)
    {ob : Obs} (hob : ob ∈ o.obs) (hfail : ob.Fails) : T ≤ n := by
  by_contra hlt
  rw [not_le] at hlt
  -- before the deadline the running task has been served
  have hserved : (s.pc t).Served (s.sched.tcb t).waitReason := by
    rcases hc.early hlt with hdue | ⟨-, hserved⟩
    · exact absurd (Delayed.blocked (DueIn.delayed h.ready.inv hdue)) hI.not_blocked
    · exact hserved
  cases hsrc with
  | call hpc => exact hc.inCall.ne_user hpc
  | @resume y hpc =>
      rw [hpc] at hserved
      obtain ⟨hdeadline, hq⟩ := hc.point y (by rw [hpc]; rfl)
      have hsig : (s.sched.tcb t).waitReason = .signaled := hserved
      by_cases hyq : y.onQueue = true
      · obtain ⟨j, hj⟩ := WaitPoint.onQueue_object hyq
        have hsrc : TaskEvent cfg s t .resume (.queue j) (resumeStep cfg s.kernel y) :=
          hj ▸ .resume hpc
        cases hsrc.pass h hI hpc hdeadline with
        | refuse hend hwhy =>
            -- a deadline less than half the circle ahead does not count as passed
            rcases hwhy with htimed | hpassed
            · rw [hsig] at htimed
              simp at htimed
            · rw [deadlinePassed_iff, ticksTo_early hc.ticks hT hlt.le] at hpassed
              have hhalf := hc.half (hq.symm.trans hyq)
              omega
        | block hend hobs hticks hdue hval hp =>
            obtain ⟨l, hl⟩ := hobs
            rw [hl, List.mem_singleton] at hob
            subst hob
            exact hfail
        | serve hend hobs => exact hobs ob hob hfail
      · have hvalid := h.points t y (by rw [hpc]; rfl)
        cases y with
        | sem j => simp [resumeStep, artosSemaphoreTakeResume] at hob
        | mutex j =>
            obtain ⟨m, hm⟩ := Option.ne_none_iff_exists'.mp hvalid
            have hsec := artosMutexLockResume_section hI hm
            simp only [resumeStep] at hob
            generalize artosMutexLockResume cfg s.kernel j = o at hsec hob
            cases hsec with
            | granted hres =>
                rw [List.mem_singleton] at hob
                subst hob
                simp [Obs.Fails] at hfail
            | timedOut hm hres hd => exact hres hsig
        | _ => simp [WaitPoint.onQueue] at hyq
  | @finish j res hpc =>
      rw [hpc] at hserved
      have hres : res = true := hserved
      simp only [artosSemaphoreTakeFinish, List.mem_singleton] at hob
      subst hob hres
      simp [Obs.Fails] at hfail

/-- One tick more on the circle. -/
theorem u32_succ {t₀ : ℕ} : u32 (u32 (t₀ + n) + 1) = u32 (t₀ + (n + 1)) := by
  unfold u32
  omega

/-- **Every step keeps a pending call pending as it should be.** -/
theorem CallInv.step {t₀ T : ℕ} {q : Bool} (h : Inv cfg s) (hc : CallInv t t₀ T q n s)
    (hT : T < 4294967296) (hs : StepKind cfg s e obs s') (hin : (s'.pc t).InCall) :
    CallInv t t₀ T q (n + if e.isTick then 1 else 0) s' := by
  have hticks := hs.ticks h
  cases hs.stepOf h t with
  | spared hsp =>
      have hserve : ¬ s.sched.Blocked t ∧ (s.pc t).Served (s.sched.tcb t).waitReason →
          ¬ s'.sched.Blocked t ∧ (s'.pc t).Served (s'.sched.tcb t).waitReason := by
        rintro ⟨hb, hserved⟩
        obtain ⟨hb', hr'⟩ := Spared.free h hsp hc.inCall hb
        rw [hsp.pc, hr']
        exact ⟨hb', hserved⟩
      refine ⟨hin, ?_, fun y hy => hc.point y (hsp.pc ▸ hy), hc.half, fun hlt => ?_⟩
      · rw [hticks, hc.ticks]
        split
        · exact u32_succ
        · rfl
      · by_cases he : e = .tick
        · subst he
          simp only [Event.isTick, if_true] at hlt ⊢
          rcases hc.early (by omega) with hdue | hserved
          · obtain ⟨m, hm⟩ : ∃ m, T - n = m + 2 := ⟨T - n - 2, by omega⟩
            have hm' : T - (n + 1) = m + 1 := by omega
            rw [hm] at hdue
            exact Or.inl (hm' ▸ (tick_dueIn h hs hdue).1)
          · exact Or.inr (hserve hserved)
        · have hnt : e.isTick = false := by rwa [← Bool.not_eq_true, isTick_iff]
          simp only [hnt, Bool.false_eq_true, if_false, Nat.add_zero] at hlt ⊢
          rcases hc.early hlt with hdue | hserved
          · exact Spared.early h hs hsp hc.inCall he hdue
          · exact Or.inr (hserve hserved)
  | @request r hrun hpc =>
      have hpc' : update s.pc t (afterRequest r) t = afterRequest r := update_self _ _ _
      have hr : ∃ y, r = some y := by
        cases r with
        | none =>
            have hin₀ := hc.inCall
            rw [hpc] at hin₀
            exact absurd hin₀ id
        | some y => exact ⟨y, rfl⟩
      obtain ⟨y, rfl⟩ := hr
      refine ⟨hin, hc.ticks, fun y' hy' => ?_, hc.half, fun hlt => ?_⟩
      · refine hc.point y' ?_
        change (update s.pc t (afterRequest (some y)) t).point = some y' at hy'
        rw [hpc'] at hy'
        rw [hpc]
        exact hy'
      · have hearly := hc.early hlt
        rw [hpc] at hearly
        change _ ∨ _ ∧ (update s.pc t (afterRequest (some y)) t).Served _
        rw [hpc']
        exact hearly
  | @own e x o hrun hI hsrc hstep =>
      have hnt : e.isTick = false := by cases hsrc <;> rfl
      simp only [hnt, Bool.false_eq_true, if_false, Nat.add_zero]
      refine hc.own h hT hI hsrc ?_
      simpa [Sys.finish] using hin

/-- The step leaves the call of the task pending. -/
def Pending (cfg : Config) (t : Tid) (s : Sys) (b : Label) (s' : Sys) : Prop :=
  Step cfg s b s' ∧ (s'.pc t).InCall

/-- **A pending call after a run.** -/
theorem CallInv.run {t₀ T : ℕ} {q : Bool} (h : Inv cfg s) (hc : CallInv t t₀ T q n s)
    (hT : T < 4294967296) {tr : List Label} (hr : Runs.Exec (Pending cfg t) s tr s') :
    Inv cfg s' ∧ CallInv t t₀ T q (n + ticksIn tr) s' := by
  induction hr with
  | nil => exact ⟨h, hc⟩
  | @snoc tr s₁ s₂ b hr hstep ih =>
      obtain ⟨hI, hc₁⟩ := ih
      rw [ticksIn_snoc, ← Nat.add_assoc]
      exact ⟨hI.step hstep.1, hc₁.step hI hT (step_kind hI hstep.1) hstep.2⟩

/-- Adjusting a priority or a count is neither an advance nor a block. -/
theorem Action.Adjusts.untimed {a : Action} (ha : a.Adjusts) :
    a ≠ .advance ∧ ∀ w obj inf, a ≠ .block t w obj inf := by
  cases a with
  | setEff u p => simp
  | held u m => simp
  | _ => exact absurd ha id

/-- Adjusting a priority or a count ends no wait. -/
theorem View.foldl_adjusts_blocked {acts : List Action} {v : View}
    (ha : ∀ a ∈ acts, a.Adjusts) : (acts.foldl (View.after t) v).blocked = v.blocked := by
  induction acts generalizing v with
  | nil => rfl
  | cons a acts ih =>
      rw [List.foldl_cons, ih fun b hmem => ha b (List.mem_cons_of_mem _ hmem)]
      have haa := ha a List.mem_cons_self
      cases a with
      | setEff u p =>
          simp only [View.after]
          split <;> rfl
      | held u m =>
          simp only [View.after]
          split <;> rfl
      | _ => exact absurd haa id

/-- **The first section starts a pending call.** -/
theorem Enters.callInv {T : ℕ} (h : Inv cfg s) (hT : T < 4294967296) (hpos : 0 < T)
    {q : Bool} (hen : Enters cfg s.sched t (u32 (T + s.sched.ticks)) q o)
    (hhalf : q = true → T < 2147483648) :
    CallInv t s.sched.ticks T q 0 (s.finish t o) := by
  obtain ⟨obj, acts, hm, hadj⟩ := hen.moves
  obtain ⟨y, hy, hdeadline, rfl⟩ := hen.point
  have hpc : (s.finish t o).pc t = o.pc := by simp [Sys.finish]
  obtain ⟨k₁, hblock, hrest⟩ := hm.cons_inv
  have hblock' := Runs.Exec.single hblock
  obtain ⟨hs₁, hd₁⟩ := h.ready.inv.moves h.ready.delay hblock'
  have htick : s.sched.ticks = u32 (s.sched.ticks + 0) := by
    have hlt := h.ready.delay.ticks_lt
    unfold u32
    omega
  have hlt : u32 (T + s.sched.ticks) < 4294967296 := Nat.mod_lt _ (by omega)
  obtain ⟨hdue, -⟩ := Moves.block_dueIn h.ready.delay hlt hblock'
  rw [ticksTo_early htick hT hpos.le] at hdue
  have hno : ∀ {a}, a ∈ acts → a ≠ .advance ∧ ∀ w obj inf, a ≠ .block t w obj inf :=
    fun ha => (hadj _ ha).untimed
  have hkept : o.kernel.sched.DueIn t (T - 0) ∨ ¬ o.kernel.sched.Blocked t :=
    Moves.dueIn hs₁ hd₁ hrest (fun ha => (hno ha).1 rfl)
      (fun w obj inf ha => (hno ha).2 w obj inf rfl) hdue
  refine ⟨?_, ?_, fun y' hy' => ?_, hhalf, fun _ => Or.inl ?_⟩
  · rw [hpc, hy]
    trivial
  · refine (Moves.ticks hm ?_).trans htick
    intro ha
    rcases List.mem_cons.mp ha with he | hmem
    · simp at he
    · exact (hno hmem).1 rfl
  · rw [hpc, hy] at hy'
    obtain rfl : y = y' := by simpa [Pc.point] using hy'
    exact ⟨hdeadline, rfl⟩
  · refine hkept.resolve_right (not_not.mpr ?_)
    -- no adjusting action ends the wait
    have hview := Moves.view hs₁ hd₁ hrest t
    have hb : (k₁.view t).blocked = true :=
      inBlockedList_iff.mpr (Delayed.blocked (DueIn.delayed hs₁ hdue))
    have hb' : (o.kernel.sched.view t).blocked = true := by
      rw [hview, View.foldl_adjusts_blocked hadj, hb]
    exact inBlockedList_iff.mp hb'

/-! ## No early timeout -/

/-- **The call of the running task `t` times out no earlier than it says**: its first
section does not return false, and it returns false later only after as many runs of the
tick handler as its timeout. -/
def NoEarlyTimeout (cfg : Config) (s : Sys) (t : Tid) (c : Call) : Prop :=
  ∀ obs s₁, Step cfg s (.call c, obs) s₁ → (∀ ob ∈ obs, ¬ ob.Fails) ∧
    ((s₁.pc t).InCall → ∀ tr s₂ b s₃, Runs.Exec (Pending cfg t) s₁ tr s₂ →
      s₂.running = some t → Step cfg s₂ b s₃ → (∃ ob ∈ b.2, ob.Fails) →
      c.timeout ≤ ticksIn tr)

/-- A queue call with a timeout of half the circle or more gives up at once. -/
theorem callStep_overlong (h : Inv cfg s) {c : Call} (hc : Unserved s.kernel t c)
    (hq : c.onQueue = true) (hfin : c.timeout < artosDelayInfinity)
    (hlong : 2147483648 ≤ c.timeout) : ∃ ob ∈ (callStep cfg s.kernel c).obs, ob.Fails := by
  have hlt : c.timeout < 4294967296 := by
    unfold artosDelayInfinity at hfin
    omega
  have htick : s.sched.ticks = u32 (s.sched.ticks + 0) := by
    have hlt := h.ready.delay.ticks_lt
    unfold u32
    omega
  have hpassed : deadlinePassed s.sched (u32 (c.timeout + s.sched.ticks)) false = true := by
    rw [deadlinePassed_iff, ticksTo_early htick hlt (Nat.zero_le _)]
    omega
  have hwake : queueWakeTick s.sched c.timeout = u32 (c.timeout + s.sched.ticks) :=
    if_neg (Nat.ne_of_lt hfin)
  cases c with
  | queueEnqueue j data n =>
      obtain ⟨hdata, q, hq', hfull⟩ := hc
      obtain ⟨data, rfl⟩ := Option.ne_none_iff_exists'.mp hdata
      have hinf : n.toNat ≠ artosDelayInfinity := Nat.ne_of_lt hfin
      change queueWakeTick s.sched n.toNat = _ at hwake
      refine ⟨.enqueued j (q.itemOf data) false, ?_, rfl⟩
      simp only [callStep, artosQueueEnqueue, hq', rtosQueueAssertValid_eq
        (h.queues j q hq').valid, enqueueAttempt, if_pos hfull, hwake, decide_eq_false hinf,
        if_pos hpassed, List.mem_singleton]
  | queueDequeue j dst n =>
      obtain ⟨rfl, q, hq', hempty⟩ := hc
      have hinf : n.toNat ≠ artosDelayInfinity := Nat.ne_of_lt hfin
      change queueWakeTick s.sched n.toNat = _ at hwake
      refine ⟨.dequeued j none, ?_, rfl⟩
      simp only [callStep, artosQueueDequeue, hq', rtosQueueAssertValid_eq
        (h.queues j q hq').valid, dequeueAttempt, if_pos hempty, hwake, decide_eq_false hinf,
        if_pos hpassed, List.mem_singleton]
  | _ => simp [Call.onQueue] at hq

/-- **When no timeout is early.**  In every reachable state, for every finite timeout from
1 on, a call that its object cannot serve times out no earlier than it says exactly when it
is a take or a lock, or its timeout is less than `2^31`. -/
theorem no_early_timeout (h : Reachable cfg s) (hrun : s.running = some t)
    (hpc : s.pc t = .user) {c : Call} (hc : Unserved s.kernel t c) (hpos : 0 < c.timeout)
    (hfin : c.timeout < artosDelayInfinity) :
    NoEarlyTimeout cfg s t c ↔ (c.onQueue = true → c.timeout < 2147483648) := by
  have hI := h.inv
  have hin := hI.inTask hrun (by simp [hpc])
  have hlt : c.timeout < 4294967296 := by
    unfold artosDelayInfinity at hfin
    omega
  constructor
  · -- a longer timeout of a queue call fails in its first section
    intro hno hq
    by_contra hlong
    rw [not_lt] at hlong
    have hstep : Step cfg s (.call c, (callStep cfg s.kernel c).obs)
        (s.finish t (callStep cfg s.kernel c)) := by simp [Step, step, hrun, hpc]
    obtain ⟨ob, hob, hfail⟩ := callStep_overlong hI hc hq hfin hlong
    exact (hno _ _ hstep).1 ob hob hfail
  · intro hhalf obs s₁ hcall
    obtain ⟨-, rfl, rfl⟩ := step_call hrun hcall
    have hen := callStep_enters hI hin hc hpos hfin hhalf
    refine ⟨fun ob hob => ?_, fun _ tr s₂ b s₃ hr hrun₂ hstep hfails => ?_⟩
    · obtain ⟨l, hl⟩ := hen.obs
      rw [hl, List.mem_singleton] at hob
      subst hob
      exact id
    · obtain ⟨ob, hob, hfail⟩ := hfails
      have hcall := hen.callInv hI hlt hpos hhalf
      obtain ⟨hI₂, hc₂⟩ := hcall.run (hI.step ‹_›) hlt hr
      rw [Nat.zero_add] at hc₂
      obtain ⟨e, obs⟩ := b
      obtain ⟨hcur, hpending, hhandlers, -⟩ := running_eq hrun₂
      cases step_kind hI₂ hstep with
      | task hrun' hI' hsrc htask =>
          obtain rfl := Option.some.inj (hrun'.symm.trans hrun₂)
          exact hc₂.fails hI₂ hlt hI' hsrc hob hfail
      | create hcur' hm hacts => simp [hcur] at hcur'
      | isrCall hh hstep => simp [hhandlers] at hh
      | _ => simp at hob

/-- A single task has just started. -/
def loneTask : List Label × Sys :=
  (Runs.runSteps (step smallConfig) smallBoot [createTask 1 0, .start]).get (by decide +kernel)

theorem loneTask_reachable : Reachable smallConfig loneTask.2 :=
  Reachable.of_runSteps smallBoot_initial (Option.some_get _).symm

theorem loneTask_running : loneTask.2.running = some (.user 0) := by decide +kernel

theorem no_early_timeout_loneTask :
    NoEarlyTimeout smallConfig loneTask.2 (.user 0) (.semaphoreTake 0 0xFFFFFFFE) :=
  (no_early_timeout (c := .semaphoreTake 0 0xFFFFFFFE) loneTask_reachable loneTask_running
    rfl ⟨_, rfl, rfl⟩ (by decide) (by decide)).mpr (by decide)

/-- A lone task that dequeues from an empty queue with the timeout `2^31` gets false at
once. -/
theorem early_timeout_overlong :
    Reachable smallConfig loneTask.2 ∧ loneTask.2.running = some (.user 0) ∧
      loneTask.2.pc (.user 0) = .user ∧
      Unserved loneTask.2.kernel (.user 0) (.queueDequeue 0 true 0x80000000) ∧
      ¬ NoEarlyTimeout smallConfig loneTask.2 (.user 0) (.queueDequeue 0 true 0x80000000) := by
  have hstep : Step smallConfig loneTask.2 (.call (.queueDequeue 0 true 0x80000000), _) _ :=
    step_of_isSome (by decide +kernel)
  refine ⟨loneTask_reachable, loneTask_running, rfl, ⟨rfl, _, rfl, rfl⟩, fun hno => ?_⟩
  refine (hno _ _ hstep).1 (.dequeued 0 none) ?_ rfl
  decide +kernel

/-! ## A queue deadline survives blocking again -/

/-- A queue call that is pending after its first section was not served, and its timeout
lies less than half the circle ahead. -/
theorem callStep_pending (h : Inv cfg s) (hI : InTask cfg s.sched t) {c : Call}
    (hq : c.onQueue = true) (hfin : c.timeout < artosDelayInfinity)
    (hin : (callStep cfg s.kernel c).pc.InCall) :
    Unserved s.kernel t c ∧ 0 < c.timeout ∧ c.timeout < 2147483648 := by
  have hlt : c.timeout < 4294967296 := by
    unfold artosDelayInfinity at hfin
    omega
  have htick : s.sched.ticks = u32 (s.sched.ticks + 0) := by
    have hlt := h.ready.delay.ticks_lt
    unfold u32
    omega
  have hto : ∀ {w inf}, w = queueWakeTick s.sched c.timeout →
      inf = decide (c.timeout = artosDelayInfinity) → deadlinePassed s.sched w inf = false →
      0 < c.timeout ∧ c.timeout < 2147483648 := by
    rintro w inf rfl rfl hp
    have hwake : queueWakeTick s.sched c.timeout = u32 (c.timeout + s.sched.ticks) :=
      if_neg (Nat.ne_of_lt hfin)
    rw [hwake, decide_eq_false (Nat.ne_of_lt hfin), Bool.eq_false_iff, ne_eq,
      deadlinePassed_iff, ticksTo_early htick hlt (Nat.zero_le _)] at hp
    omega
  cases c with
  | queueEnqueue j data n =>
      cases data with
      | none =>
          exfalso
          revert hin
          simp only [callStep, artosQueueEnqueue]
          split <;> simp_all [Pc.InCall]
      | some data =>
          have hsec := artosQueueEnqueue_section hI (fun q hq => (h.queues j q hq).valid)
            (some data) n.toNat
          simp only [callStep] at hin
          generalize artosQueueEnqueue cfg s.kernel j (some data) n.toNat = o at hsec hin
          generalize hw : queueWakeTick s.kernel.sched n.toNat = w at hsec
          generalize hinf : decide (n.toNat = artosDelayInfinity) = inf at hsec
          cases hsec with
          | refuse hwhy => exact absurd hin id
          | block hq' hfull hw' hp hm =>
              exact ⟨⟨by simp, _, hq', hfull⟩, hto hw.symm hinf.symm hp⟩
          | @put k' acts obs g he => cases g <;> exact absurd hin id
  | queueDequeue j dst n =>
      cases dst with
      | false =>
          exfalso
          revert hin
          simp only [callStep, artosQueueDequeue]
          split <;> simp_all [Pc.InCall]
      | true =>
          have hsec := artosQueueDequeue_section hI (fun q hq => (h.queues j q hq).valid)
            true n.toNat
          simp only [callStep] at hin
          generalize artosQueueDequeue cfg s.kernel j true n.toNat = o at hsec hin
          generalize hw : queueWakeTick s.kernel.sched n.toNat = w at hsec
          generalize hinf : decide (n.toNat = artosDelayInfinity) = inf at hsec
          cases hsec with
          | refuse hwhy => exact absurd hin id
          | block hq' hempty hw' hp hm =>
              exact ⟨⟨rfl, _, hq', hempty⟩, hto hw.symm hinf.symm hp⟩
          | @get k' acts obs g he => cases g <;> exact absurd hin id
  | _ => simp [Call.onQueue] at hq

/-- **A task in a pending queue call blocks again with its wake tick only**, and not at that
tick. -/
theorem CallInv.reblock {t₀ T : ℕ} (h : Inv cfg s) (hc : CallInv t t₀ T true n s)
    (hs : StepKind cfg s e obs s') (hin : (s'.pc t).InCall) (hno : ¬ s.sched.Blocked t)
    (hb : s'.sched.Blocked t) :
    (e = .resume ∧ s.running = some t ∧ ∃ y, s.pc t = .resume y) ∧
      s'.sched.stateL.value t = u32 (T + t₀) ∧
      s'.sched.DueIn t (s.sched.ticksTo (u32 (T + t₀))) ∧
      deadlinePassed s.sched (u32 (T + t₀)) false = false := by
  cases hs.stepOf h t with
  | spared hsp => exact absurd hb (Spared.free h hsp hc.inCall hno).1
  | request hrun hpc => exact absurd hb hno
  | @own e x o hrun hI hsrc hstep =>
      have hin' : o.pc.InCall := by simpa [Sys.finish] using hin
      cases hsrc with
      | call hpc => exact absurd hpc hc.inCall.ne_user
      | @resume y hpc =>
          obtain ⟨hdeadline, hq⟩ := hc.point y (by rw [hpc]; rfl)
          obtain ⟨j, hj⟩ := WaitPoint.onQueue_object hq
          have hsrc : TaskEvent cfg s t .resume (.queue j) (resumeStep cfg s.kernel y) :=
            hj ▸ .resume hpc
          cases hsrc.pass h hI hpc hdeadline with
          | refuse hend hwhy =>
              rw [hend] at hin'
              exact absurd hin' id
          | block hend hobs hticks hdue hval hp => exact ⟨⟨rfl, hrun, y, hpc⟩, hval, hdue, hp⟩
          | serve hend hobs =>
              exfalso
              rcases hend with hend | hend
              · rw [hend] at hin'
                exact hin'
              · rw [hend] at hin'
                exact hin'
      | finish hpc => exact absurd hin' id

/-- **In a run each woken pass of the task resumes before the bound**: it goes on only while
fewer ticks than that have passed. -/
def ResumesBefore (cfg : Config) (t : Tid) (bound : ℕ) (s : Sys) (tr : List Label) : Prop :=
  ∀ tr₁ b tr₂ s₁, tr = tr₁ ++ b :: tr₂ → Runs.Exec (Pending cfg t) s tr₁ s₁ →
    b.1 = .resume → s₁.running = some t → (∃ y, s₁.pc t = .resume y) → ticksIn tr₁ < bound

/-- **After its deadline a task in a queue call is not blocked again**, if it resumes in
time. -/
theorem CallInv.late {t₀ T : ℕ} (h : Inv cfg s) (hc : CallInv t t₀ T true 0 s)
    (hT : T < 4294967296) (hpos : 0 < T) {tr : List Label}
    (hr : Runs.Exec (Pending cfg t) s tr s') (htime : ResumesBefore cfg t (T + 2147483648) s tr)
    (hlate : T ≤ ticksIn tr) : ¬ s'.sched.Blocked t := by
  induction hr with
  | nil =>
      simp [ticksIn] at hlate
      omega
  | @snoc tr s₁ s₂ b hr hstep ih =>
      obtain ⟨hI₁, hc₁⟩ := hc.run h hT hr
      rw [Nat.zero_add] at hc₁
      have htime₁ : ResumesBefore cfg t (T + 2147483648) s tr :=
        fun tr₁ a tr₂ s₁ htr => htime tr₁ a (tr₂ ++ [b]) s₁ (by rw [htr]; simp)
      obtain ⟨e, obs⟩ := b
      have hs := step_kind hI₁ hstep.1
      rw [ticksIn_snoc] at hlate
      -- a task that was free does not block again after its deadline
      have hfree : T ≤ ticksIn tr → ¬ s₁.sched.Blocked t → ¬ s₂.sched.Blocked t := by
        intro hle hno hb
        obtain ⟨⟨rfl, hrun, hpc⟩, -, -, hp⟩ := hc₁.reblock hI₁ hs hstep.2 hno hb
        have hbound := htime tr (.resume, obs) [] s₁ rfl hr rfl hrun hpc
        have hpassed := deadlinePassed_iff.mpr (ticksTo_late hc₁.ticks hle hbound)
        rw [hpassed] at hp
        simp at hp
      by_cases hle : T ≤ ticksIn tr
      · exact hfree hle (ih htime₁ hle)
      · -- this is the tick of the deadline
        have htick : e = .tick := by
          rw [← isTick_iff]
          by_contra hnt
          simp [hnt] at hlate
          omega
        subst htick
        simp only [Event.isTick, if_true] at hlate
        rcases hc₁.early (by omega) with hdue | ⟨hno, -⟩
        · rw [show T - ticksIn tr = 1 by omega] at hdue
          rintro ⟨l, hl, hlb⟩
          rw [(tick_expires hI₁ hs hdue).ready, Option.some.injEq] at hl
          subst hl
          simp [StateList.isBlocked] at hlb
        · intro hb
          obtain ⟨⟨he, -⟩, -⟩ := hc₁.reblock hI₁ hs hstep.2 hno hb
          simp at he

/-- **A queue deadline survives blocking again.**  A queue call that the task `t` makes with
a finite timeout `T`, in any reachable state, is followed through any run that leaves it
pending.  If each woken pass resumes less than `2^31` ticks after the deadline, the task is
in no delayed list from the `T`-th tick on; and each time the task blocks again, it does so
with the wake tick of the call, which is not the present tick. -/
theorem queue_deadline_survives (h : Reachable cfg s) (hrun : s.running = some t) {c : Call}
    (hq : c.onQueue = true) (hfin : c.timeout < artosDelayInfinity) {s₁ s₂ : Sys}
    {tr : List Label} (hcall : Step cfg s (.call c, obs) s₁) (hin : (s₁.pc t).InCall)
    (hr : Runs.Exec (Pending cfg t) s₁ tr s₂) :
    (ResumesBefore cfg t (c.timeout + 2147483648) s₁ tr → c.timeout ≤ ticksIn tr →
        ¬ s₂.sched.Delayed t) ∧
      ∀ b s₃, Pending cfg t s₂ b s₃ → ¬ s₂.sched.Blocked t → s₃.sched.Blocked t →
        s₃.sched.stateL.value t = u32 (c.timeout + s.sched.ticks) ∧
          s₃.sched.Delayed t ∧ u32 (c.timeout + s.sched.ticks) ≠ s₂.sched.ticks := by
  have hI := h.inv
  have hlt : c.timeout < 4294967296 := by
    unfold artosDelayInfinity at hfin
    omega
  obtain ⟨hpc, rfl, rfl⟩ := step_call hrun hcall
  have hI₁ := hI.step hcall
  have htask := hI.inTask hrun (by simp [hpc])
  obtain ⟨hun, hpos, hhalf⟩ := callStep_pending hI htask hq hfin (by simpa [Sys.finish] using hin)
  have hen := callStep_enters hI htask hun hpos hfin fun _ => hhalf
  rw [hq] at hen
  have hc₁ := hen.callInv hI hlt hpos fun _ => hhalf
  refine ⟨fun htime hlate hdelayed => ?_, fun b s₃ hstep hno hb => ?_⟩
  · exact hc₁.late hI₁ hlt hpos hr htime hlate (Delayed.blocked hdelayed)
  · obtain ⟨hI₂, hc₂⟩ := hc₁.run hI₁ hlt hr
    obtain ⟨e, obs⟩ := b
    have hs := step_kind hI₂ hstep.1
    obtain ⟨-, hval, hdue, hp⟩ := hc₂.reblock hI₂ hs hstep.2 hno hb
    have hI₃ := hI₂.step hstep.1
    exact ⟨hval, DueIn.delayed hI₃.ready.inv hdue,
      (blockTick_of_deadline hI₂.ready.delay (Nat.mod_lt _ (by omega)) hp rfl).2⟩

/-- The step function cut down to the steps that leave the call of the task pending. -/
def pendingStep (cfg : Config) (t : Tid) (s : Sys) (e : Event) : Option (Sys × List Obs) :=
  (step cfg s e).filter fun r => decide (r.1.pc t).InCall

theorem pending_of_runSteps {es : List Event} {r : List Label × Sys}
    (hr : Runs.runSteps (pendingStep cfg t) s es = some r) :
    Runs.Exec (Pending cfg t) s r.1 r.2 :=
  Runs.exec_of_runSteps_filter (step cfg) (fun s => (s.pc t).InCall) hr

/-- A reader calls with a timeout of five ticks, -/
def waitedReader : Sys × List Obs :=
  (step smallConfig loneTask.2 (.call (.queueDequeue 0 true 5))).get (by decide +kernel)

/-- is woken by an item that the handler takes away again, and is dispatched a tick later. -/
def robbedReader : List Label × Sys :=
  (Runs.runSteps (pendingStep smallConfig (.user 0)) waitedReader.1
    [.resume, switchFrom 1, .isrEnter, .isrCall (.queueEnqueue 0 (some [7]) true),
      .isrCall (.queueDequeue 0 true true), .isrReturn true, .tick,
      .switch 256 intactGuard]).get (by decide +kernel)

/-- It blocks again. -/
def reblockedReader : List Label × Sys :=
  (Runs.runSteps (pendingStep smallConfig (.user 0)) robbedReader.2 [.resume]).get
    (by decide +kernel)

theorem queue_deadline_survives_robbedReader :
    reblockedReader.2.sched.stateL.value (.user 0) = u32 (5 + loneTask.2.sched.ticks) := by
  have hcall : Step smallConfig loneTask.2 (.call (.queueDequeue 0 true 5), waitedReader.2)
      waitedReader.1 := step_of_isSome _
  have hr : Runs.Exec (Pending smallConfig (.user 0)) waitedReader.1 robbedReader.1
      robbedReader.2 := pending_of_runSteps (Option.some_get _).symm
  have hlast : Runs.Exec (Pending smallConfig (.user 0)) robbedReader.2 reblockedReader.1
      reblockedReader.2 := pending_of_runSteps (Option.some_get _).symm
  obtain ⟨b, hb⟩ : ∃ b, reblockedReader.1 = [b] := List.length_eq_one_iff.mp (by decide +kernel)
  rw [hb] at hlast
  have hfree : robbedReader.2.sched.inBlockedList (.user 0) = false := by decide +kernel
  have hblocked : reblockedReader.2.sched.inBlockedList (.user 0) = true := by decide +kernel
  refine ((queue_deadline_survives loneTask_reachable loneTask_running
    (c := .queueDequeue 0 true 5) rfl (by decide) hcall (by decide +kernel) hr).2 b _
    hlast.single_inv (fun hb' => ?_) (inBlockedList_iff.mp hblocked)).1
  rw [inBlockedList_iff.mpr hb'] at hfree
  simp at hfree

end Artos
