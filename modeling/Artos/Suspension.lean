/-
# Waiting without a time limit

A call with the timeout `ARTOS_DELAY_INFINITY` puts its task into the suspend list, and no tick
looks there.

* Only a wake-up takes a task out of the suspend list (`Moves.suspended`).  So a call without a
  time limit never returns false: its task is suspended until it is served (`endless_call`).  The
  loops of the queues block again for as long as others come first.
* A set of suspended tasks each of which waits for nothing, or for a mutex that one of them owns,
  stays so in every run, and none of its tasks runs again (`dead_forever`).
-/
import Artos.LockOrder
import Artos.Timeouts

open Function

namespace Artos

open Sched

variable {cfg : Config} {s s' s₁ s₂ s₃ : Sys} {t u : Tid} {j : ℕ} {e : Event} {obs : List Obs}
  {tr : List Label} {k k' : Sched} {a : Action} {acts : List Action} {D : Set Tid}

/-! ## The suspend list -/

/-- The task is in the suspend list. -/
def Sched.Suspended (k : Sched) (t : Tid) : Prop := k.stateL.container t = some .suspend

instance (k : Sched) (t : Tid) : Decidable (k.Suspended t) :=
  inferInstanceAs (Decidable (_ = _))

theorem Sched.Suspended.blocked (h : k.Suspended t) : k.Blocked t := ⟨.suspend, h, rfl⟩

/-- The task in whose critical section the processor is is not suspended. -/
theorem Sched.Suspended.not_inTask (h : k.Suspended t) : ¬ InTask cfg k t := by
  intro hI
  have hnone := hI.can.state
  unfold Suspended at h
  rw [hnone] at h
  simp at h

/-- **A move that is no wake-up of the task** leaves it suspended, in the same wait list. -/
theorem Move.suspended (h : SInv cfg k) (hm : Move cfg k a k') (hs : k.Suspended t)
    (hw : ∀ l, a ≠ .wake l t) :
    k'.Suspended t ∧ k'.eventL.container t = k.eventL.container t := by
  have hview := hm.view h t
  have hblocked : k.inBlockedList t = true := inBlockedList_iff.mpr hs.blocked
  have hsame : ((k.view t).after t a).event = k.eventL.container t ∧
      ((k.view t).after t a).blocked = true := by
    cases a with
    | wake l u =>
        have hne : t ≠ u := fun he => hw l (he ▸ rfl)
        simp [View.after, hne, Sched.view, hblocked]
    | block u w obj inf =>
        have hne : t ≠ u := by
          rintro rfl
          cases hm with
          | block hc =>
              have hnone := hc.state
              unfold Suspended at hs
              rw [hnone] at hs
              simp at hs
        simp [View.after, hne, Sched.view, hblocked]
    | expire u =>
        have hne : t ≠ u := by
          rintro rfl
          cases hm with
          | expire hl =>
              have hc := ListStore.container_of_head hl
              unfold Suspended at hs
              rw [hc, Option.some.injEq] at hs
              exact h.curDelayed_ne_suspend hs
        simp [View.after, hne, Sched.view, hblocked]
    | create | setEff | held | clear =>
        simp only [View.after]
        split <;> exact ⟨rfl, hblocked⟩
    | _ => simp [View.after, Sched.view, hblocked]
  rw [← hview] at hsame
  refine ⟨?_, hsame.1⟩
  have hb : k'.Blocked t := inBlockedList_iff.mp hsame.2
  rcases hm.state_item h t with hnone | ⟨hkept, -⟩ | ⟨-, ⟨p, hp⟩ | ⟨w, obj, inf, -, hnone, -⟩⟩
  · obtain ⟨l, hl, -⟩ := hb
    rw [hnone] at hl
    simp at hl
  · exact hkept.trans hs
  · exact absurd hp (not_ready_of_blocked hb p)
  · unfold Suspended at hs
    rw [hnone] at hs
    simp at hs

/-- **Only a wake-up ends a wait without a time limit.** -/
theorem Moves.suspended (h : SInv cfg k) (hd : DelayInv k) (hm : Moves cfg k acts k')
    (hs : k.Suspended t) (hw : ∀ l, Action.wake l t ∉ acts) :
    k'.Suspended t ∧ k'.eventL.container t = k.eventL.container t := by
  induction hm with
  | nil => exact ⟨hs, rfl⟩
  | @snoc tr k₁ k₂ b hm hmove ih =>
      obtain ⟨hs₁, he₁⟩ := ih fun l hmem => hw l (List.mem_append_left _ hmem)
      have hb : ∀ l, b ≠ .wake l t := by
        rintro l rfl
        exact hw l (List.mem_append_right _ (List.mem_singleton_self _))
      obtain ⟨hs₂, he₂⟩ := hmove.suspended (h.moves hd hm).1 hs₁ hb
      exact ⟨hs₂, he₂.trans he₁⟩

/-- Moves that spare the task leave it suspended, or wake it. -/
theorem Moves.patient (h : SInv cfg k) (hd : DelayInv k) (hm : Moves cfg k acts k') {p : Pc}
    (hp : p ≠ .user) (ha : ∀ a ∈ acts, a.Spares t p) (hs : k.Suspended t) :
    k'.Suspended t ∨ ¬ k'.Blocked t ∧ (k'.tcb t).waitReason = .signaled := by
  have hview : k'.Suspended t ∨ (k'.view t).event = none ∧ (k'.view t).blocked = false ∧
      (k'.view t).reason = .signaled := by
    induction hm with
    | nil => exact Or.inl hs
    | @snoc tr k₁ k₂ b hm hmove ih =>
        have h₁ := (h.moves hd hm).1
        have hb := ha b (List.mem_append_right _ (List.mem_singleton_self _))
        rcases ih fun a hmem => ha a (List.mem_append_left _ hmem) with hs₁ | ⟨he, hfree, hsig⟩
        · by_cases hw : ∃ l, b = .wake l t
          · obtain ⟨l, rfl⟩ := hw
            refine Or.inr ?_
            rw [hmove.view h₁ t]
            simp [View.after, hmove.wake_event]
          · push Not at hw
            exact Or.inl (hmove.suspended h₁ hs₁ hw).1
        · have hone : ∀ a ∈ [b], a.Spares t p := by simpa using hb
          obtain ⟨he', hfree', hr'⟩ := View.foldl_free hp he hfree hone
          rw [hmove.view h₁ t]
          exact Or.inr ⟨he', hfree', hr'.trans hsig⟩
  refine hview.imp_right ?_
  rintro ⟨-, hfree, hsig⟩
  refine ⟨?_, hsig⟩
  intro hb
  have hlinked : k'.inBlockedList t = true := inBlockedList_iff.mpr hb
  exact Bool.false_ne_true (hfree.symm.trans hlinked)

/-- Where a suspended task stands: where it stood, or past its request for a switch. -/
def Pc.Stays (p p' : Pc) : Prop := p' = p ∨ ∃ r, p = .request r ∧ p' = afterRequest r

/-- **A step that hands the task nothing** leaves it suspended, in the same wait list.  The task
can still ask for its switch, and does nothing else. -/
theorem StepKind.suspended (h : Inv cfg s) (hs : StepKind cfg s e obs s')
    (hsus : s.sched.Suspended t) (hno : ∀ l, Obs.handed l t ∉ obs) :
    s'.sched.Suspended t ∧ s'.sched.eventL.container t = s.sched.eventL.container t ∧
      (s.pc t).Stays (s'.pc t) ∧ ∀ ob ∈ obs, ob.actor ≠ some t := by
  cases hs.stepOf h t with
  | spared hsp =>
      obtain ⟨acts, hm, -, hhand⟩ := hsp.moves
      obtain ⟨hsus', hevent⟩ := Moves.suspended h.ready.inv h.ready.delay hm hsus
        fun l hmem => hno l ((hhand l).mpr hmem)
      exact ⟨hsus', hevent, Or.inl hsp.pc, hsp.actor⟩
  | @request r hrun hpc =>
      refine ⟨hsus, rfl, Or.inr ⟨r, hpc, ?_⟩, by simp⟩
      show update s.pc t (afterRequest r) t = _
      rw [update_self]
  | own hrun hI hsrc hstep => exact absurd hI hsus.not_inTask

theorem Pc.Stays.trans {p p' p'' : Pc} (h : p.Stays p') (h' : p'.Stays p'') : p.Stays p'' := by
  rcases h with rfl | ⟨r, rfl, rfl⟩
  · exact h'
  · rcases h' with rfl | ⟨q, hq, rfl⟩
    · exact Or.inr ⟨r, rfl, rfl⟩
    · cases r <;> simp [afterRequest] at hq

/-! ## Calls without a time limit -/

/-- The wait point of a queue keeps that the call has no time limit. -/
def WaitPoint.Endless : WaitPoint → Prop
  | .enqueue _ _ _ inf => inf = true
  | .dequeue _ _ inf => inf = true
  | _ => True

/-- The task is suspended, or its call is about to return success. -/
def Patient (t : Tid) (s : Sys) : Prop :=
  s.sched.Suspended t ∨ ¬ s.sched.Blocked t ∧ (s.pc t).Served (s.sched.tcb t).waitReason

/-- **A pending call without a time limit.** -/
structure EndlessCall (t : Tid) (s : Sys) : Prop where
  inCall : (s.pc t).InCall
  point : ∀ y, (s.pc t).point = some y → y.Endless
  patient : Patient t s

/-- **The first section of a call that blocks for ever.** -/
structure EntersEndless (cfg : Config) (k : Sched) (t : Tid) (o : Outcome) : Prop where
  moves : ∃ w obj acts, Moves cfg k (.block t w obj true :: acts) o.kernel.sched ∧
    ∀ a ∈ acts, a.Adjusts
  point : ∃ y, o.pc = .request (some y) ∧ y.Endless
  obs : ∃ l, o.obs = [.blocked (some t) l]

/-- Without a time limit the deadline never passes. -/
theorem deadlinePassed_infinite (w : ℕ) : deadlinePassed k w true = false := rfl

/-- **A call without a time limit on an object that cannot serve it** blocks for ever. -/
theorem callStep_endless (h : Inv cfg s) (hI : InTask cfg s.sched t) {c : Call}
    (hc : Unserved s.kernel t c) (hinf : c.timeout = artosDelayInfinity) :
    EntersEndless cfg s.sched t (callStep cfg s.kernel c) := by
  have hcan := hI.can
  have hne : artosDelayInfinity ≠ 0 := by decide
  have hmove : ∀ w obj, Moves cfg s.sched [.block t w obj true] (s.sched.blockedOn t w obj true) :=
    fun w obj => Runs.Exec.single (.block hcan (by simp))
  have hfor : ∀ l, blockFor s.sched l artosDelayInfinity =
      s.sched.blockedOn t artosDelayInfinity (some l) true := by
    intro l
    unfold blockFor
    rw [if_pos rfl, rtosBlockCurrentTask_eq hcan]
  have hwake : queueWakeTick s.sched artosDelayInfinity = artosDelayInfinity := if_pos rfl
  cases c with
  | semaphoreTake j n =>
      obtain ⟨sem, hsem, hzero⟩ := hc
      have hn : n.toNat = artosDelayInfinity := hinf
      have heq : callStep cfg s.kernel (.semaphoreTake j n) =
          ⟨{ s.kernel with
              sched := s.sched.blockedOn t artosDelayInfinity (some (.semWait j)) true },
            .request (some (.sem j)), [.blocked (some t) (.semWait j)]⟩ := by
        simp [callStep, artosSemaphoreTake, hsem, hzero, hn, hne, hfor, hcan.cur]
      rw [heq]
      exact ⟨⟨_, _, [], hmove _ _, by simp⟩, ⟨_, rfl, trivial⟩, ⟨_, rfl⟩⟩
  | mutexLock j n =>
      obtain ⟨m, owner, hm, hown, hother, hheld⟩ := hc
      have hn : n.toNat = artosDelayInfinity := hinf
      have hff : (s.sched.tcb t).mutexesHeld ≠ 0xFF := Nat.ne_of_lt hheld
      have hsec : ¬ (t = owner ∨ (s.sched.tcb t).mutexesHeld = 0xFF ∨ artosDelayInfinity = 0) := by
        rintro (rfl | hf | hz)
        · exact hother rfl
        · exact hff hf
        · exact hne hz
      have hs₁ := (h.ready.inv.moves h.ready.delay
        (hmove artosDelayInfinity (some (.mutexLock j)))).1
      obtain ⟨hbase, hp, -⟩ := hs₁.rtosMutexRequiredPriority_spec owner (.mutexLock j)
      obtain ⟨acts, hi⟩ := rtosPriorityInherit_effect hs₁ hbase hp
      have heq : callStep cfg s.kernel (.mutexLock j n) =
          let sched := s.sched.blockedOn t artosDelayInfinity (some (.mutexLock j)) true
          ⟨{ s.kernel with
              sched := sched.rtosPriorityInherit cfg (some owner)
                (rtosMutexRequiredPriority sched (some owner) (.mutexLock j)) },
            .request (some (.mutex j)), [.blocked (some t) (.mutexLock j)]⟩ := by
        simp only [callStep, artosMutexLock, hm, hcan.cur, if_neg hff, hown, hn, if_neg hsec, hfor]
      rw [heq]
      exact ⟨⟨_, _, acts, (hmove _ _).trans (hi.moves hbase hp), hi.adjusts.1⟩,
        ⟨_, rfl, trivial⟩, ⟨_, rfl⟩⟩
  | queueEnqueue j data n =>
      obtain ⟨hdata, q, hq, hfull⟩ := hc
      obtain ⟨data, rfl⟩ := Option.ne_none_iff_exists'.mp hdata
      have hn : n.toNat = artosDelayInfinity := hinf
      have heq : callStep cfg s.kernel (.queueEnqueue j (some data) n) =
          ⟨{ s.kernel with
              sched := s.sched.blockedOn t artosDelayInfinity (some (.queueWrite j)) true },
            .request (some (.enqueue j data artosDelayInfinity true)),
            [.blocked (some t) (.queueWrite j)]⟩ := by
        simp [callStep, artosQueueEnqueue, hq, rtosQueueAssertValid_eq (h.queues j q hq).valid,
          enqueueAttempt, hfull, hn, hwake, deadlinePassed_infinite, rtosBlockCurrentTask_eq hcan,
          hcan.cur]
      rw [heq]
      exact ⟨⟨_, _, [], hmove _ _, by simp⟩, ⟨_, rfl, rfl⟩, ⟨_, rfl⟩⟩
  | queueDequeue j dst n =>
      obtain ⟨rfl, q, hq, hempty⟩ := hc
      have hn : n.toNat = artosDelayInfinity := hinf
      have heq : callStep cfg s.kernel (.queueDequeue j true n) =
          ⟨{ s.kernel with
              sched := s.sched.blockedOn t artosDelayInfinity (some (.queueRead j)) true },
            .request (some (.dequeue j artosDelayInfinity true)),
            [.blocked (some t) (.queueRead j)]⟩ := by
        simp [callStep, artosQueueDequeue, hq, rtosQueueAssertValid_eq (h.queues j q hq).valid,
          dequeueAttempt, hempty, hn, hwake, deadlinePassed_infinite, rtosBlockCurrentTask_eq hcan,
          hcan.cur]
      rw [heq]
      exact ⟨⟨_, _, [], hmove _ _, by simp⟩, ⟨_, rfl, rfl⟩, ⟨_, rfl⟩⟩
  | _ => exact absurd hc id

/-- Blocking for ever suspends the task. -/
theorem Moves.block_suspended {w : ℕ} {obj : Option EventList}
    (hm : Moves cfg k [.block t w obj true] k') : k'.Suspended t := by
  have hmove := hm.single_inv
  cases hmove with
  | block hc hw =>
      show (k.parked t w true).container t = some .suspend
      rw [parked_container w true hc.state, update_self]
      rfl

/-- It suspends the task, -/
theorem EntersEndless.suspended {o : Outcome} (h : Inv cfg s)
    (hen : EntersEndless cfg s.sched t o) : o.kernel.sched.Suspended t := by
  obtain ⟨w, obj, acts, hm, hadj⟩ := hen.moves
  obtain ⟨k₁, hblock, hrest⟩ := hm.cons_inv
  have hblock' := Runs.Exec.single hblock
  obtain ⟨hs₁, hd₁⟩ := h.ready.inv.moves h.ready.delay hblock'
  exact (Moves.suspended hs₁ hd₁ hrest (Moves.block_suspended hblock')
    fun l ha => (hadj _ ha).ne_wake l t rfl).1

/-- and starts a pending call. -/
theorem EntersEndless.endlessCall {o : Outcome} (h : Inv cfg s)
    (hen : EntersEndless cfg s.sched t o) : EndlessCall t (s.finish t o) := by
  obtain ⟨y, hy, hendless⟩ := hen.point
  have hpc : (s.finish t o).pc t = o.pc := by simp [Sys.finish]
  refine ⟨?_, fun y' hy' => ?_, Or.inl (hen.suspended h)⟩
  · rw [hpc, hy]
    trivial
  · rw [hpc, hy] at hy'
    obtain rfl : y = y' := by simpa [Pc.point] using hy'
    exact hendless

/-- **A further pass of a queue's loop without a time limit** blocks again or succeeds. -/
theorem TaskEvent.endlessPass (h : Inv cfg s) (hI : InTask cfg s.sched t) {o : Outcome}
    (hsrc : TaskEvent cfg s t e (.queue j) o) {y : WaitPoint} (hpc : s.pc t = .resume y)
    (hy : y.Endless) (hsig : (s.sched.tcb t).waitReason = .signaled) :
    (o.pc = .request (some y) ∧ (∃ l, o.obs = [.blocked (some t) l]) ∧
        o.kernel.sched.Suspended t) ∨
      (o.pc = .user ∨ o.pc = .request none) ∧ ∀ ob ∈ o.obs, ¬ ob.Fails := by
  obtain ⟨k, hIk, -, hsec⟩ := hsrc.queue h hI
  have hexcused : ¬ Excused s t := by
    rintro (hu | hto)
    · simp [hpc] at hu
    · simp [hsig] at hto
  have hhanded : ∀ {k₁ k₂ l acts wobs g}, WakeEffect k₁ l k₂ acts wobs g →
      ∀ ob ∈ wobs, ¬ ob.Fails := by
    intro k₁ k₂ l acts wobs g hw ob hob
    obtain ⟨u, rfl⟩ := hw.obs_handed ob hob
    exact id
  rcases hsec with ⟨data, w, inf, hpc', hsec⟩ | ⟨w, inf, hpc', hsec⟩
  · rw [hpc] at hpc'
    simp only [reduceCtorEq, Pc.resume.injEq, false_or] at hpc'
    subst hpc'
    obtain rfl : inf = true := hy
    cases hsec with
    | refuse hwhy => exact absurd hwhy (by simp [hexcused, deadlinePassed_infinite])
    | block hq hfull hw hp hm => exact Or.inl ⟨rfl, ⟨_, rfl⟩, Moves.block_suspended hm⟩
    | put he =>
        refine Or.inr ⟨afterWake_cases _, fun ob hob => ?_⟩
        cases he with
        | put hq hroom hw =>
            rcases List.mem_cons.mp hob with rfl | hob
            · simp [Obs.Fails]
            · exact hhanded hw ob hob
  · rw [hpc] at hpc'
    simp only [reduceCtorEq, Pc.resume.injEq, false_or] at hpc'
    subst hpc'
    obtain rfl : inf = true := hy
    cases hsec with
    | refuse hwhy => exact absurd hwhy (by simp [hexcused, deadlinePassed_infinite])
    | block hq hempty hw hp hm => exact Or.inl ⟨rfl, ⟨_, rfl⟩, Moves.block_suspended hm⟩
    | get he =>
        refine Or.inr ⟨afterWake_cases _, fun ob hob => ?_⟩
        cases he with
        | get hq hne hw =>
            rcases List.mem_cons.mp hob with rfl | hob
            · simp [Obs.Fails]
            · exact hhanded hw ob hob

/-- **A section of the call itself** returns no failure, and goes on waiting if it does not
return. -/
theorem EndlessCall.own {x : Object} {o : Outcome} (hc : EndlessCall t s) (h : Inv cfg s)
    (hI : InTask cfg s.sched t) (hsrc : TaskEvent cfg s t e x o) :
    (o.pc.InCall → EndlessCall t (s.finish t o)) ∧ ∀ ob ∈ o.obs, ¬ ob.Fails := by
  have hpc' : (s.finish t o).pc t = o.pc := by simp [Sys.finish]
  -- the running task is not blocked, so its wait has ended with success
  have hserved : (s.pc t).Served (s.sched.tcb t).waitReason := by
    rcases hc.patient with hsus | ⟨-, hserved⟩
    · exact absurd hI hsus.not_inTask
    · exact hserved
  cases hsrc with
  | call hpc => exact absurd hpc hc.inCall.ne_user
  | @resume y hpc =>
      have hy := hc.point y (by rw [hpc]; rfl)
      rw [hpc] at hserved
      have hsig : (s.sched.tcb t).waitReason = .signaled := hserved
      by_cases hyq : y.onQueue = true
      · obtain ⟨j, hj⟩ := WaitPoint.onQueue_object hyq
        have hsrc : TaskEvent cfg s t .resume (.queue j) (resumeStep cfg s.kernel y) :=
          hj ▸ .resume hpc
        rcases hsrc.endlessPass h hI hpc hy hsig with ⟨hend, ⟨l, hobs⟩, hsus⟩ | ⟨hend, hobs⟩
        · refine ⟨fun hin => ⟨by rwa [hpc'], fun y' hy' => ?_, Or.inl hsus⟩, ?_⟩
          · rw [hpc', hend] at hy'
            obtain rfl : y = y' := by simpa [Pc.point] using hy'
            exact hy
          · rw [hobs]
            simp [Obs.Fails]
        · refine ⟨fun hin => ?_, hobs⟩
          rcases hend with hend | hend
          · rw [hend] at hin
            exact absurd hin id
          · rw [hend] at hin
            exact absurd hin id
      · have hvalid := h.points t y (by rw [hpc]; rfl)
        cases y with
        | sem j =>
            refine ⟨fun hin => ⟨by rwa [hpc'], fun y' hy' => ?_, ?_⟩, ?_⟩
            · rw [hpc'] at hy'
              simp [resumeStep, artosSemaphoreTakeResume, Pc.point] at hy'
            · refine Or.inr ⟨hI.not_blocked, ?_⟩
              rw [hpc']
              have hreason : s.sched.rtosCurrentWaitReason = .signaled := by
                unfold rtosCurrentWaitReason
                rw [hI.can.cur]
                exact hsig
              exact decide_eq_true hreason
            · simp [resumeStep, artosSemaphoreTakeResume]
        | mutex j =>
            obtain ⟨m, hm⟩ := Option.ne_none_iff_exists'.mp hvalid
            have hsec := artosMutexLockResume_section hI hm
            simp only [resumeStep]
            generalize artosMutexLockResume cfg s.kernel j = o at hsec
            cases hsec with
            | granted hres => exact ⟨fun hin => absurd hin id, by simp [Obs.Fails]⟩
            | timedOut hm hres hd => exact absurd hsig hres
        | _ => simp [WaitPoint.onQueue] at hyq
  | @finish j res hpc =>
      rw [hpc] at hserved
      obtain rfl : res = true := hserved
      exact ⟨fun hin => absurd hin id, by simp [artosSemaphoreTakeFinish, Obs.Fails]⟩

/-- **A step of others** leaves the task suspended or wakes it. -/
theorem EndlessCall.spared (hc : EndlessCall t s) (h : Inv cfg s)
    (hsp : Spared cfg s t obs s') : EndlessCall t s' := by
  refine ⟨by rw [hsp.pc]; exact hc.inCall, fun y hy => hc.point y (hsp.pc ▸ hy), ?_⟩
  rcases hc.patient with hsus | ⟨hb, hserved⟩
  · obtain ⟨acts, hm, hspares, -⟩ := hsp.moves
    refine (Moves.patient h.ready.inv h.ready.delay hm hc.inCall.ne_user hspares hsus).imp_right ?_
    rintro ⟨hb, hsig⟩
    refine ⟨hb, ?_⟩
    rw [hsp.pc]
    -- a suspended task is not at the end of a take
    have hwaits := h.tasks t
    unfold Pc.Served
    split
    · rename_i j res hpc
      rw [hpc] at hwaits
      have hfree : s.sched.inBlockedList t = false := hwaits.2.1
      rw [inBlockedList_iff.mpr hsus.blocked] at hfree
      simp at hfree
    · exact hsig
  · obtain ⟨hb', hr'⟩ := Spared.free h hsp hc.inCall hb
    refine Or.inr ⟨hb', ?_⟩
    rw [hsp.pc, hr']
    exact hserved

/-- **Every step keeps a pending call without a time limit** pending as it should be. -/
theorem EndlessCall.step (hc : EndlessCall t s) (h : Inv cfg s) (hs : StepKind cfg s e obs s')
    (hin : (s'.pc t).InCall) : EndlessCall t s' := by
  cases hs.stepOf h t with
  | spared hsp => exact hc.spared h hsp
  | @request r hrun hpc =>
      have hpc' : update s.pc t (afterRequest r) t = afterRequest r := update_self _ _ _
      have hin₀ := hc.inCall
      have hpatient := hc.patient
      unfold Patient at hpatient
      rw [hpc] at hin₀ hpatient
      cases r with
      | none => exact absurd hin₀ id
      | some y =>
          refine ⟨hin, fun y' hy' => ?_, ?_⟩
          · apply hc.point y'
            change (update s.pc t (afterRequest (some y)) t).point = some y' at hy'
            rw [hpc'] at hy'
            rw [hpc]
            exact hy'
          · show _ ∨ _ ∧ (update s.pc t (afterRequest (some y)) t).Served _
            rw [hpc']
            exact hpatient
  | @own e x o hrun hI hsrc hstep =>
      apply (hc.own h hI hsrc).1
      simpa [Sys.finish] using hin

/-- **A pending call after a run.** -/
theorem EndlessCall.run (hc : EndlessCall t s) (h : Inv cfg s)
    (hr : Runs.Exec (Pending cfg t) s tr s') : Inv cfg s' ∧ EndlessCall t s' := by
  induction hr with
  | nil => exact ⟨h, hc⟩
  | @snoc tr s₁ s₂ b hr hstep ih =>
      obtain ⟨hI, hc₁⟩ := ih
      exact ⟨hI.step hstep.1, hc₁.step hI (step_kind hI hstep.1) hstep.2⟩

/-- **A call without a time limit never fails.**  In every reachable state, a call that its object
cannot serve, with the timeout `ARTOS_DELAY_INFINITY`, suspends its task.  In every run that
leaves it pending the task is suspended, or its wait has ended with success; and a step of the
task never returns false. -/
theorem endless_call (h : Reachable cfg s) (hrun : s.running = some t) (hpc : s.pc t = .user)
    {c : Call} (hc : Unserved s.kernel t c) (hinf : c.timeout = artosDelayInfinity)
    (hcall : Step cfg s (.call c, obs) s₁) :
    (s₁.pc t).InCall ∧ s₁.sched.Suspended t ∧ (∀ ob ∈ obs, ¬ ob.Fails) ∧
      ∀ tr s₂, Runs.Exec (Pending cfg t) s₁ tr s₂ → Patient t s₂ ∧
        ∀ b s₃, s₂.running = some t → Step cfg s₂ b s₃ → ∀ ob ∈ b.2, ¬ ob.Fails := by
  have hI := h.inv
  have hI₁ := hI.step hcall
  have hin := hI.inTask hrun (by simp [hpc])
  obtain ⟨-, rfl, rfl⟩ := step_call hrun hcall
  have hen := callStep_endless hI hin hc hinf
  have hcall₁ := hen.endlessCall hI
  refine ⟨hcall₁.inCall, hen.suspended hI, ?_, ?_⟩
  · obtain ⟨l, hl⟩ := hen.obs
    rw [hl]
    simp [Obs.Fails]
  · intro tr s₂ hr
    obtain ⟨hI₂, hc₂⟩ := hcall₁.run hI₁ hr
    refine ⟨hc₂.patient, fun b s₃ hrun₂ hstep ob hob => ?_⟩
    obtain ⟨e, obs⟩ := b
    obtain ⟨hcur, hpending, hhandlers, -⟩ := running_eq hrun₂
    cases step_kind hI₂ hstep with
    | task hrun' hI' hsrc htask =>
        obtain rfl := Option.some.inj (hrun'.symm.trans hrun₂)
        exact (hc₂.own hI₂ hI' hsrc).2 ob hob
    | create hcur' hm hacts => simp [hcur] at hcur'
    | isrCall hh hstep => simp [hhandlers] at hh
    | _ => simp at hob

/-- A lone task takes a semaphore without tokens. -/
def lonelyTake : Sys × List Obs :=
  (step smallConfig loneTask.2 (.call (.semaphoreTake 0 0xFFFFFFFF))).get (by decide +kernel)

theorem endless_call_lonelyTake :
    lonelyTake.1.sched.Suspended (.user 0) ∧ ∀ ob ∈ lonelyTake.2, ¬ ob.Fails := by
  have hstep : Step smallConfig loneTask.2 (.call (.semaphoreTake 0 0xFFFFFFFF), lonelyTake.2)
      lonelyTake.1 := step_of_isSome (by decide +kernel)
  have hcall := endless_call (c := .semaphoreTake 0 0xFFFFFFFF) loneTask_reachable
    loneTask_running rfl ⟨_, rfl, rfl⟩ (by decide) hstep
  exact ⟨hcall.2.1, hcall.2.2.1⟩

/-! ## Sets of tasks that never run again -/

/-- **The tasks wait without a time limit**, each for nothing or for a mutex that one of them
owns. -/
def Dead (s : Sys) (D : Set Tid) : Prop :=
  ∀ t ∈ D, s.sched.Suspended t ∧
    (s.sched.eventL.container t = none ∨ ∃ o ∈ D, s.waitGraph.WaitsFor t o)

/-- Tasks that wait for one another without a time limit. -/
theorem Dead.of_knot (hD : s.waitGraph.Knot D) (hs : ∀ t ∈ D, s.sched.Suspended t) : Dead s D :=
  fun t ht => ⟨hs t ht, Or.inr (hD t ht)⟩

/-- A mutex is handed over by its owner, in a section of the owner. -/
theorem StepKind.handed_by (h : Inv cfg s) (hs : StepKind cfg s e obs s')
    (hob : Obs.handed (.mutexLock j) t ∈ obs) :
    ∃ o, InTask cfg s.sched o ∧ Owns s j o := by
  rcases hs.mutex_cases h j with ⟨-, hobj⟩ | ⟨o, r, hrun, hI, hstep, rfl, rfl, hcases⟩
  · exact absurd rfl (hobj _ hob)
  · refine ⟨o, hI, ?_⟩
    rcases hcases with ⟨n, -, -, hsec⟩ | ⟨-, -, hsec⟩ | ⟨-, -, hsec⟩
    · cases hsec <;> simp at hob
    · cases hsec with
      | refuse => simp at hob
      | release => simp at hob
      | hand hm hown => exact ⟨_, hm, hown⟩
    · cases hsec <;> simp at hob

/-- Nothing is handed to them. -/
theorem Dead.not_handed (hD : Dead s D) (h : Inv cfg s) (hs : StepKind cfg s e obs s')
    (ht : t ∈ D) (l : EventList) : Obs.handed l t ∉ obs := by
  intro hob
  obtain ⟨-, hwait⟩ := hD t ht
  have hc := hs.handed_waits h hob
  rcases hwait with hnone | ⟨o, ho, j, hwaits, m, hm, hown⟩
  · rw [hnone] at hc
    simp at hc
  · -- the owner would have to run, and it is suspended
    obtain rfl : EventList.mutexLock j = l := Option.some.inj (hwaits.symm.trans hc)
    obtain ⟨o', hI, ho'⟩ := hs.handed_by h hob
    obtain rfl : o = o' := Option.some.inj (hown.symm.trans (ho'.owner hm))
    exact (hD o ho).1.not_inTask hI

/-- **Every step leaves them so.** -/
theorem Dead.step (hD : Dead s D) (h : Inv cfg s) (hs : StepKind cfg s e obs s') :
    Dead s' D ∧ ∀ t ∈ D, (s.pc t).Stays (s'.pc t) ∧ ∀ ob ∈ obs, ob.actor ≠ some t := by
  have hkept := fun t ht => hs.suspended h (hD t ht).1 (hD.not_handed h hs ht)
  refine ⟨fun t ht => ?_, fun t ht => (hkept t ht).2.2⟩
  obtain ⟨hsus, hevent, -, -⟩ := hkept t ht
  refine ⟨hsus, ?_⟩
  rcases (hD t ht).2 with hnone | ⟨o, ho, j, hwaits, howns⟩
  · exact Or.inl (hevent.trans hnone)
  · refine Or.inr ⟨o, ho, j, hevent.trans hwaits, ?_⟩
    exact (hs.owns_spared h (hkept o ho).2.2.2).mpr (Or.inl howns)

/-- **Who waits for ever in a circle never runs again.**  From a reachable state in which each of
a set of tasks waits without a time limit, for nothing or for a mutex that one of them owns, every
run leaves them so, and none of them makes a call, returns from one, or gets further than its
request for a switch. -/
theorem dead_forever (h : Reachable cfg s) (hD : Dead s D) (hr : Run cfg s tr s') :
    Dead s' D ∧ ∀ t ∈ D, (s.pc t).Stays (s'.pc t) ∧ ∀ ob ∈ observations tr, ob.actor ≠ some t := by
  have hI := h.inv
  induction hr with
  | nil => exact ⟨hD, fun t _ => ⟨Or.inl rfl, by simp [observations]⟩⟩
  | @snoc tr s₁ s₂ b hr hstep ih =>
      obtain ⟨hD₁, hstays₁⟩ := ih
      have hI₁ : Inv cfg s₁ := hr.invariant (fun _ _ _ h hs => h.step hs) hI
      obtain ⟨e, obs⟩ := b
      obtain ⟨hD₂, hstays₂⟩ := hD₁.step hI₁ (step_kind hI₁ hstep)
      refine ⟨hD₂, fun t ht => ⟨(hstays₁ t ht).1.trans (hstays₂ t ht).1, ?_⟩⟩
      intro ob hob
      rw [observations_snoc, List.mem_append] at hob
      rcases hob with hob | hob
      · exact (hstays₁ t ht).2 ob hob
      · exact (hstays₂ t ht).2 ob hob

/-- Two tasks that have locked one mutex each wait for the mutex of the other one. -/
def deadlocked : List Label × Sys :=
  (Runs.runSteps (step smallConfig) smallBoot
    [createTask 1 1, createTask 2 0, .start, .call (.wait 1), .resume, switchFrom 1,
      .call (.mutexLock 0 0xFFFFFFFF), .tick, switchFrom 2, .call (.mutexLock 1 0xFFFFFFFF),
      .call (.mutexLock 0 0xFFFFFFFF), .resume, switchFrom 1,
      .call (.mutexLock 1 0xFFFFFFFF)]).get (by decide +kernel)

theorem deadlocked_reachable : Reachable smallConfig deadlocked.2 :=
  Reachable.of_runSteps smallBoot_initial (Option.some_get _).symm

theorem deadlocked_dead : Dead deadlocked.2 {.user 0, .user 1} := by
  have h0 : deadlocked.2.kernel.mutex 0 = some { owner := some (.user 1) } := by decide +kernel
  have h1 : deadlocked.2.kernel.mutex 1 = some { owner := some (.user 0) } := by decide +kernel
  have hw0 : deadlocked.2.sched.eventL.container (.user 0) = some (.mutexLock 0) := by
    decide +kernel
  have hw1 : deadlocked.2.sched.eventL.container (.user 1) = some (.mutexLock 1) := by
    decide +kernel
  apply Dead.of_knot
  · rintro t (rfl | rfl)
    · exact ⟨.user 1, by simp, 0, hw0, _, h0, rfl⟩
    · exact ⟨.user 0, by simp, 1, hw1, _, h1, rfl⟩
  · rintro t (rfl | rfl)
    · decide +kernel
    · decide +kernel

/-- What follows: the second one gives up the processor, and time passes. -/
def deadlockedLater : List Label × Sys :=
  (Runs.runSteps (step smallConfig) deadlocked.2 [.resume, .tick, switchFrom 2, .tick]).get
    (by decide +kernel)

theorem dead_forever_deadlocked : Dead deadlockedLater.2 {.user 0, .user 1} :=
  (dead_forever deadlocked_reachable deadlocked_dead
    (run_of_runSteps (Option.some_get (by decide +kernel)).symm)).1

end Artos
