/-
# Every step keeps the invariant

The sections of each object are read off the step (`TaskEvent.queue`,
`TaskEvent.mutex`, `TaskEvent.sem`), the fields of `Inv` are shown to survive each
kind of step, and `Reachable.inv` is the induction over runs.
-/
import Artos.Invariant

open Function

namespace Artos

open Sched

variable {cfg : Config} {t u : Tid} {x : Object} {a : Action} {acts : List Action}
  {obs : List Obs} {s s' : Sys}

/-! ## Nobody joins a list without blocking -/

/-- Moves without a block in the list bring nobody into it. -/
theorem Moves.event_of_no_block {k k' : Sched} {acts : List Action} {l : EventList}
    (hr : Ready cfg k) (hm : Moves cfg k acts k')
    (hb : ∀ v w inf, Action.block v w (some l) inf ∉ acts)
    (hu : k'.eventL.container u = some l) : k.eventL.container u = some l := by
  have hview : (k'.view u).event = some l := hu
  rw [Moves.view hr.inv hr.delay hm] at hview
  rcases View.foldl_event hview with hv | ⟨w, inf, hmem⟩
  · exact hv
  · exact absurd hmem (hb u w inf)

/-- A section of another object blocks nobody in the list. -/
theorem Section.no_block {x : Object} {k k' : Kernel} {acts : List Action} {l : EventList}
    (h : Section cfg x t k k' acts obs) (hx : l.object ≠ x) (v : Tid) (w : ℕ) (inf : Bool) :
    Action.block v w (some l) inf ∉ acts := by
  intro hmem
  exact hx ((h.acts_ok _ hmem).2 l rfl)

/-! ## The sections of each object -/

/-- Why a pass of a queue's loop may fail with the queue as it is: the arguments are
not valid, or the wait of the task has timed out. -/
def Excused (s : Sys) (t : Tid) : Prop :=
  s.pc t = .user ∨ (s.sched.tcb t).waitReason = .timedOut

/-- The kernel in which a pass starts: the present one at the first pass, and the one
with the wait reason cleared at the others. -/
def PassStart (s : Sys) (t : Tid) (k : Kernel) : Prop :=
  s.pc t = .user ∧ k = s.kernel ∨
    (∃ w, s.pc t = .resume w) ∧ k = { s.kernel with sched := s.sched.cleared t }

/-- **The sections of a queue**: one pass of a loop, made at once or after the wait
reason has been cleared. -/
theorem TaskEvent.queue (h : Inv cfg s) (hI : InTask cfg s.sched t) {e : Event} {j : ℕ}
    {o : Outcome} (hsrc : TaskEvent cfg s t e (.queue j) o) :
    ∃ k : Kernel, InTask cfg k.sched t ∧ PassStart s t k ∧
      ((∃ data w inf, (s.pc t = .user ∨ s.pc t = .resume (.enqueue j data w inf)) ∧
          EnqueueSection cfg k j t data w inf (Excused s t) o) ∨
        ∃ w inf, (s.pc t = .user ∨ s.pc t = .resume (.dequeue j w inf)) ∧
          DequeueSection cfg k j t w inf (Excused s t) o) := by
  have hv : ∀ h' q, s.kernel.queue h' = some q → q.Valid := fun h' q hq =>
    (h.queues h' q hq).valid
  have hclear := hI.clear_eq
  have hreason : s.sched.rtosCurrentWaitReason = (s.sched.tcb t).waitReason := by
    unfold rtosCurrentWaitReason
    rw [hI.can.cur]
  generalize hx : Object.queue j = x at hsrc
  cases hsrc with
  | @call c hpc =>
      cases c with
      | queueEnqueue j' data n =>
          have hj : j = j' := by simpa [Call.object] using hx
          subst hj
          exact ⟨s.kernel, hI, Or.inl ⟨hpc, rfl⟩, Or.inl ⟨_, _, _, Or.inl hpc,
            (artosQueueEnqueue_section hI (hv j) data _).mono fun _ => Or.inl hpc⟩⟩
      | queueDequeue j' dst n =>
          have hj : j = j' := by simpa [Call.object] using hx
          subst hj
          exact ⟨s.kernel, hI, Or.inl ⟨hpc, rfl⟩, Or.inr ⟨_, _, Or.inl hpc,
            (artosQueueDequeue_section hI (hv j) dst _).mono fun _ => Or.inl hpc⟩⟩
      | _ => simp [Call.object] at hx
  | @resume w hpc =>
      have hvalid := h.points t w (by rw [hpc]; rfl)
      have hI' := hI.cleared.1
      rw [hclear] at hI'
      cases w with
      | enqueue j' data w inf =>
          have hj : j = j' := by simpa [WaitPoint.list, EventList.object] using hx
          subst hj
          obtain ⟨hq, hw⟩ := hvalid
          obtain ⟨q, hq⟩ := Option.ne_none_iff_exists'.mp hq
          refine ⟨{ s.kernel with sched := s.sched.cleared t }, hI', Or.inr ⟨⟨_, hpc⟩, rfl⟩,
            Or.inl ⟨data, w, inf, Or.inr hpc, ?_⟩⟩
          simp only [resumeStep, artosQueueEnqueueResume, hq, hclear, hreason]
          split
          · rename_i hto
            exact .refuse (Or.inl (Or.inr (of_decide_eq_true hto)))
          · exact enqueueAttempt_section
              (k := { s.kernel with sched := s.sched.cleared t }) hI' hq data hw inf _
      | dequeue j' w inf =>
          have hj : j = j' := by simpa [WaitPoint.list, EventList.object] using hx
          subst hj
          obtain ⟨hq, hw⟩ := hvalid
          obtain ⟨q, hq⟩ := Option.ne_none_iff_exists'.mp hq
          refine ⟨{ s.kernel with sched := s.sched.cleared t }, hI', Or.inr ⟨⟨_, hpc⟩, rfl⟩,
            Or.inr ⟨w, inf, Or.inr hpc, ?_⟩⟩
          simp only [resumeStep, artosQueueDequeueResume, hq, hclear, hreason]
          split
          · rename_i hto
            exact .refuse (Or.inl (Or.inr (of_decide_eq_true hto)))
          · exact dequeueAttempt_section
              (k := { s.kernel with sched := s.sched.cleared t }) hI' hq hw inf _
      | sem j' => simp [WaitPoint.list, EventList.object] at hx
      | mutex j' => simp [WaitPoint.list, EventList.object] at hx
  | finish hpc => simp at hx

/-! ## The steps of a queue -/

/-- The observation is of a call that failed. -/
def FailedPass (j : ℕ) (ob : Obs) : Prop :=
  (∃ item, ob = .enqueued j item false) ∨ ob = .dequeued j none

/-- **What a step does with the queue `j`.** -/
inductive QueueStep (cfg : Config) (s : Sys) (j : ℕ) : List Obs → Sys → Prop
  | other {obs : List Obs} {s' : Sys} (hq : s'.kernel.queue j = s.kernel.queue j)
      (hobs : ∀ ob ∈ obs, ob.object ≠ .queue j)
      (hlist : ∀ l u, l.object = .queue j → s'.sched.eventL.container u = some l →
        s.sched.eventL.container u = some l)
      (hpcs : ∀ u w, s.pc u = .resume w → w.list.object = .queue j → s'.pc u = s.pc u) :
      QueueStep cfg s j obs s'
  | enqueue {t : Tid} {k : Kernel} {data : List UInt8} {w : ℕ} {inf : Bool} {o : Outcome}
      (hrun : s.running = some t) (hI : InTask cfg k.sched t) (hk : PassStart s t k)
      (hpc : s.pc t = .user ∨ s.pc t = .resume (.enqueue j data w inf))
      (hends : Ends (.queue j) t o)
      (hsec : EnqueueSection cfg k j t data w inf (Excused s t) o) :
      QueueStep cfg s j o.obs (s.finish t o)
  | dequeue {t : Tid} {k : Kernel} {w : ℕ} {inf : Bool} {o : Outcome}
      (hrun : s.running = some t) (hI : InTask cfg k.sched t) (hk : PassStart s t k)
      (hpc : s.pc t = .user ∨ s.pc t = .resume (.dequeue j w inf))
      (hends : Ends (.queue j) t o)
      (hsec : DequeueSection cfg k j t w inf (Excused s t) o) :
      QueueStep cfg s j o.obs (s.finish t o)
  | putIsr {k : Kernel} {acts : List Action} {obs : List Obs} {g : Bool} {hs : List Bool}
      (he : PutEffect cfg s.kernel j k acts obs g) :
      QueueStep cfg s j obs { s with kernel := k, handlers := hs }
  | getIsr {k : Kernel} {acts : List Action} {obs : List Obs} {g : Bool} {hs : List Bool}
      (he : GetEffect cfg s.kernel j k acts obs g) :
      QueueStep cfg s j obs { s with kernel := k, handlers := hs }
  | refuseIsr {ob : Obs} {hs : List Bool} (hob : FailedPass j ob) :
      QueueStep cfg s j [ob] { s with handlers := hs }

/-- **Every step is a step of the queue.** -/
theorem StepKind.queueStep (h : Inv cfg s) {e : Event} (hs : StepKind cfg s e obs s')
    (j : ℕ) : QueueStep cfg s j obs s' := by
  cases hs with
  | create hcur hm hacts =>
      refine .other rfl (by simp) (fun l u hl hu =>
        Moves.event_of_no_block h.ready hm ?_ hu) fun u w hw hl => rfl
      rcases hacts with rfl | ⟨q, rfl⟩ <;> simp
  | start hcur hm hacts hnext =>
      refine .other rfl (by simp) (fun l u hl hu =>
        Moves.event_of_no_block h.ready hm ?_ hu) fun u w hw hl => rfl
      rcases hacts with rfl | ⟨t, rfl⟩ <;> simp
  | @task e t x o hrun hI hsrc hstep =>
      by_cases hx : x = .queue j
      · subst hx
        obtain ⟨k, hIk, hk, ⟨data, w, inf, hpc, hsec⟩ | ⟨w, inf, hpc, hsec⟩⟩ :=
          hsrc.queue h hI
        · exact .enqueue hrun hIk hk hpc hstep.ends hsec
        · exact .dequeue hrun hIk hk hpc hstep.ends hsec
      · obtain ⟨acts, hsec, -⟩ := hstep.sec
        refine .other (hsec.queue j (Ne.symm hx))
          (fun ob hob he => hx ((hsec.obs_ok.object ob hob).symm.trans he))
          (fun l u hl hu => ?_) fun u w hw hl => ?_
        · exact Moves.event_of_no_block h.ready hsec.moves
            (hsec.no_block (by rw [hl]; exact Ne.symm hx)) hu
        · refine update_of_ne (fun hu => ?_) _ _
          subst hu
          cases hsrc with
          | call hpc => simp [hpc] at hw
          | resume hpc =>
              rw [hpc, Pc.resume.injEq] at hw
              exact hx (by rw [hw, hl])
          | finish hpc => simp [hpc] at hw
  | request hrun hpc =>
      refine .other rfl (by simp) (fun l u hl hu => hu) fun u w hw hl => ?_
      refine update_of_ne (fun hu => ?_) _ _
      rw [hu, hpc] at hw
      simp at hw
  | tick hm hset =>
      exact .other rfl (by simp) (fun l u hl hu =>
        Moves.event_of_no_block h.ready hm (by simp) hu) fun u w hw hl => rfl
  | switch hcur hpending hm hacts =>
      refine .other rfl (by simp) (fun l u hl hu =>
        Moves.event_of_no_block h.ready hm ?_ hu) fun u w hw hl => rfl
      rcases hacts with ⟨rfl, -⟩ | ⟨t, rfl, -⟩ <;> simp
  | isrEnter => exact .other rfl (by simp) (fun l u hl hu => hu) fun u w hw hl => rfl
  | @isrCall c woken rest hh hstep =>
      have hv : ∀ q, s.kernel.queue j = some q → q.Valid := fun q hq =>
        (h.queues j q hq).valid
      by_cases hx : c.object = .queue j
      · cases c with
        | queueEnqueue j' data flagged =>
            have hj : j' = j := by simpa [IsrCall.object] using hx
            subst hj
            have hsec := artosQueueEnqueueFromIsr_section h.ready hv data flagged woken
            simp only [isrCallStep]
            revert hsec
            generalize artosQueueEnqueueFromIsr cfg s.kernel j' data flagged woken = o
            intro hsec
            cases hsec with
            | refuse hob => exact .refuseIsr (Or.inl hob)
            | done he => exact .putIsr he
        | queueDequeue j' dst flagged =>
            have hj : j' = j := by simpa [IsrCall.object] using hx
            subst hj
            have hsec := artosQueueDequeueFromIsr_section h.ready hv dst flagged woken
            simp only [isrCallStep]
            revert hsec
            generalize artosQueueDequeueFromIsr cfg s.kernel j' dst flagged woken = o
            intro hsec
            cases hsec with
            | refuse hob => exact .refuseIsr (Or.inr hob)
            | done he => exact .getIsr he
        | _ => simp [IsrCall.object] at hx
      · obtain ⟨acts, hsec, -⟩ := hstep
        refine .other ((hsec .idle).queue j (Ne.symm hx))
          (fun ob hob he => hx (((hsec .idle).obs_ok.object ob hob).symm.trans he))
          (fun l u hl hu => ?_) fun u w hw hl => rfl
        exact Moves.event_of_no_block h.ready (hsec .idle).moves
          ((hsec .idle).no_block (by rw [hl]; exact Ne.symm hx)) hu
  | isrReturn hh => exact .other rfl (by simp) (fun l u hl hu => hu) fun u w hw hl => rfl

/-- **What a step can do to the ring of a queue**, with what it makes known. -/
inductive RingEffect (cfg : Config) (j : ℕ) (q : Queue) : List Obs → Queue → Prop
  | same {obs : List Obs}
      (hobs : ∀ ob ∈ obs, ob.object ≠ .queue j ∨ FailedPass j ob ∨
        ∃ t l, ob = .blocked (some t) l) : RingEffect cfg j q obs q
  | put {data : List UInt8} {wobs : List Obs} (hroom : q.count ≠ q.capacity)
      (hw : ∀ ob ∈ wobs, ∃ w, ob = .handed (.queueRead j) w) :
      RingEffect cfg j q (Obs.enqueued j (q.itemOf data) true :: wobs) (q.put cfg data)
  | take {wobs : List Obs} (hne : q.count ≠ 0)
      (hw : ∀ ob ∈ wobs, ∃ w, ob = .handed (.queueWrite j) w) :
      RingEffect cfg j q (Obs.dequeued j (some (q.itemAt cfg q.readIndex)) :: wobs) q.take

/-- A wake-up makes known only whom it woke. -/
theorem WakeEffect.obs_handed {k k' : Sched} {l : EventList} {g : Bool}
    (he : WakeEffect k l k' acts obs g) : ∀ ob ∈ obs, ∃ w, ob = .handed l w := by
  cases he <;> simp

theorem PutEffect.ring {k k' : Kernel} {j : ℕ} {g : Bool} {q : Queue}
    (he : PutEffect cfg k j k' acts obs g) (hq : k.queue j = some q) :
    ∃ q', k'.queue j = some q' ∧ RingEffect cfg j q obs q' := by
  cases he with
  | @put q₀ data sched acts wobs g hq₀ hroom hw =>
      obtain rfl := Option.some.inj (hq₀.symm.trans hq)
      exact ⟨q₀.put cfg data, by simp [Kernel.setQueue], .put hroom hw.obs_handed⟩

theorem GetEffect.ring {k k' : Kernel} {j : ℕ} {g : Bool} {q : Queue}
    (he : GetEffect cfg k j k' acts obs g) (hq : k.queue j = some q) :
    ∃ q', k'.queue j = some q' ∧ RingEffect cfg j q obs q' := by
  cases he with
  | @get q₀ sched acts wobs g hq₀ hne hw =>
      obtain rfl := Option.some.inj (hq₀.symm.trans hq)
      exact ⟨q₀.take, by simp [Kernel.setQueue], .take hne hw.obs_handed⟩

theorem PassStart.queue {k : Kernel} (h : PassStart s t k) : k.queue = s.kernel.queue := by
  rcases h with ⟨-, rfl⟩ | ⟨-, rfl⟩ <;> rfl

theorem PassStart.eventL {k : Kernel} (h : PassStart s t k) :
    k.sched.eventL = s.sched.eventL := by
  rcases h with ⟨-, rfl⟩ | ⟨-, rfl⟩ <;> rfl

/-- **Every step acts on the ring by one of its effects.** -/
theorem QueueStep.ring {j : ℕ} (hs : QueueStep cfg s j obs s') {q : Queue}
    (hq : s.kernel.queue j = some q) :
    ∃ q', s'.kernel.queue j = some q' ∧ RingEffect cfg j q obs q' := by
  cases hs with
  | other hsame hobs hlist hpcs =>
      exact ⟨q, hsame.trans hq, .same fun ob hob => Or.inl (hobs ob hob)⟩
  | @enqueue t k data w inf o hrun hIk hk hpc hends hsec =>
      rw [← hk.queue] at hq
      cases hsec with
      | refuse hwhy => exact ⟨q, hq, .same (by simp [FailedPass])⟩
      | block hq' hfull hw hp hm => exact ⟨q, hq, .same (by simp)⟩
      | put he => exact he.ring hq
  | @dequeue t k w inf o hrun hIk hk hpc hends hsec =>
      rw [← hk.queue] at hq
      cases hsec with
      | refuse hwhy => exact ⟨q, hq, .same (by simp [FailedPass])⟩
      | block hq' hempty hw hp hm => exact ⟨q, hq, .same (by simp)⟩
      | get he => exact he.ring hq
  | putIsr he => exact he.ring hq
  | getIsr he => exact he.ring hq
  | refuseIsr hob =>
      exact ⟨q, hq, .same fun ob' hmem => Or.inr (Or.inl (List.mem_singleton.mp hmem ▸ hob))⟩

/-- No step makes a queue. -/
theorem QueueStep.queue_some {j : ℕ} (hs : QueueStep cfg s j obs s') {q' : Queue}
    (hq' : s'.kernel.queue j = some q') : ∃ q, s.kernel.queue j = some q := by
  cases hs with
  | other hsame hobs hlist hpcs => exact ⟨q', hsame.symm.trans hq'⟩
  | @enqueue t k data w inf o hrun hIk hk hpc hends hsec =>
      rw [← hk.queue]
      cases hsec with
      | refuse hwhy => exact ⟨q', hq'⟩
      | block hq hfull hw hp hm => exact ⟨_, hq⟩
      | put he =>
          cases he with
          | put hq hroom hw => exact ⟨_, hq⟩
  | @dequeue t k w inf o hrun hIk hk hpc hends hsec =>
      rw [← hk.queue]
      cases hsec with
      | refuse hwhy => exact ⟨q', hq'⟩
      | block hq hempty hw hp hm => exact ⟨_, hq⟩
      | get he =>
          cases he with
          | get hq hne hw => exact ⟨_, hq⟩
  | putIsr he =>
      cases he with
      | put hq hroom hw => exact ⟨_, hq⟩
  | getIsr he =>
      cases he with
      | get hq hne hw => exact ⟨_, hq⟩
  | refuseIsr hob => exact ⟨q', hq'⟩

/-- A step index of a ring stays inside it. -/
theorem QueueOk.bump_lt {q : Queue} (h : QueueOk cfg q) {i : ℕ} (hi : i < q.capacity) :
    q.bump i = (i + 1) % q.capacity ∧ q.bump i < q.capacity := by
  have hlt := h.capacity_lt
  have hu : u32 (i + 1) = i + 1 := Nat.mod_eq_of_lt (by omega)
  have hpos := h.valid.1
  unfold Queue.bump
  rw [hu]
  by_cases he : i + 1 = q.capacity
  · rw [if_pos he, he, Nat.mod_self]
    exact ⟨rfl, hpos⟩
  · rw [if_neg he, Nat.mod_eq_of_lt (by omega)]
    exact ⟨rfl, by omega⟩

/-- **The ring stays well formed.** -/
theorem RingEffect.queueOk {j : ℕ} {q q' : Queue} (he : RingEffect cfg j q obs q')
    (h : QueueOk cfg q) : QueueOk cfg q' := by
  obtain ⟨h1, h2, h3, h4, h5, h6⟩ := h.valid
  cases he with
  | same hobs => exact h
  | put hroom hw =>
      have hlt := h.capacity_lt
      have hu : u32 (q.count + 1) = q.count + 1 := Nat.mod_eq_of_lt (by omega)
      refine ⟨⟨h1, h2, h3, ?_, h5, (h.bump_lt h6).2⟩, h.capacity_lt, h.bytes_lt⟩
      show u32 (q.count + 1) ≤ q.capacity
      omega
  | take hne hw =>
      refine ⟨⟨h1, h2, h3, ?_, (h.bump_lt h5).2, h6⟩, h.capacity_lt, h.bytes_lt⟩
      show q.count - 1 ≤ q.capacity
      omega

/-- **Every step keeps the queues well formed.** -/
theorem StepKind.queueOk (h : Inv cfg s) {e : Event} (hs : StepKind cfg s e obs s') {j : ℕ}
    {q' : Queue} (hq' : s'.kernel.queue j = some q') : QueueOk cfg q' := by
  have hstep := hs.queueStep h j
  obtain ⟨q, hq⟩ := hstep.queue_some hq'
  obtain ⟨q₁, hq₁, hring⟩ := hstep.ring hq
  obtain rfl := Option.some.inj (hq₁.symm.trans hq')
  exact hring.queueOk (h.queues j q hq)

/-- The sections of a mutex. -/
theorem TaskEvent.mutex (h : Inv cfg s) (hI : InTask cfg s.sched t) {e : Event} {j : ℕ}
    {o : Outcome} (hsrc : TaskEvent cfg s t e (.mutex j) o) :
    (∃ n, e = .call (.mutexLock j n) ∧ s.pc t = .user ∧ LockSection cfg s.kernel j t o) ∨
    (e = .call (.mutexUnlock j) ∧ s.pc t = .user ∧ UnlockSection cfg s.kernel j t o) ∨
    (e = .resume ∧ s.pc t = .resume (.mutex j) ∧ LockResumeSection s.kernel j t o) := by
  generalize hx : Object.mutex j = x at hsrc
  cases hsrc with
  | @call c hpc =>
      cases c with
      | mutexLock j' n =>
          have hj : j = j' := by simpa [Call.object] using hx
          subst hj
          exact Or.inl ⟨n, rfl, hpc, artosMutexLock_section hI j n.toNat_lt⟩
      | mutexUnlock j' =>
          have hj : j = j' := by simpa [Call.object] using hx
          subst hj
          refine Or.inr (Or.inl ⟨rfl, hpc, artosMutexUnlock_section hI j
            (fun m hm hown => h.mutexes.held_pos hm hown) fun u hu => ?_⟩)
          have hroom := h.mutexes.room u j hu
          omega
      | _ => simp [Call.object] at hx
  | @resume w hpc =>
      have hvalid := h.points t w (by rw [hpc]; rfl)
      cases w with
      | mutex j' =>
          have hj : j = j' := by simpa [WaitPoint.list, EventList.object] using hx
          subst hj
          obtain ⟨m, hm⟩ := Option.ne_none_iff_exists'.mp hvalid
          exact Or.inr (Or.inr ⟨rfl, hpc, artosMutexLockResume_section hI hm⟩)
      | _ => simp [WaitPoint.list, EventList.object] at hx
  | finish hpc => simp at hx

/-- The sections of a semaphore. -/
theorem TaskEvent.sem (hI : InTask cfg s.sched t) {e : Event} {j : ℕ}
    {o : Outcome} (hsrc : TaskEvent cfg s t e (.sem j) o) :
    (∃ n, e = .call (.semaphoreTake j n) ∧ s.pc t = .user ∧ TakeSection cfg s.kernel j t o) ∨
    (e = .call (.semaphoreSignal j) ∧ s.pc t = .user ∧
      ∃ acts g, SignalEffect s.kernel j o.kernel acts o.obs g ∧ o.pc = afterWake g) ∨
    (e = .resume ∧ s.pc t = .resume (.sem j) ∧
      o = ⟨s.kernel, .semClear j ((s.sched.tcb t).waitReason = .signaled), []⟩) ∨
    (∃ res, e = .resume ∧ s.pc t = .semClear j res ∧
      o = ⟨{ s.kernel with sched := s.sched.cleared t }, .user, [.taken j (some t) res]⟩) := by
  generalize hx : Object.sem j = x at hsrc
  cases hsrc with
  | @call c hpc =>
      cases c with
      | semaphoreTake j' n =>
          have hj : j = j' := by simpa [Call.object] using hx
          subst hj
          exact Or.inl ⟨n, rfl, hpc, artosSemaphoreTake_section hI j n.toNat_lt⟩
      | semaphoreSignal j' =>
          have hj : j = j' := by simpa [Call.object] using hx
          subst hj
          exact Or.inr (Or.inl ⟨rfl, hpc, artosSemaphoreSignal_effect hI.toReady j⟩)
      | _ => simp [Call.object] at hx
  | @resume w hpc =>
      cases w with
      | sem j' =>
          have hj : j = j' := by simpa [WaitPoint.list, EventList.object] using hx
          subst hj
          have hreason : s.sched.rtosCurrentWaitReason = (s.sched.tcb t).waitReason := by
            unfold rtosCurrentWaitReason
            rw [hI.can.cur]
          refine Or.inr (Or.inr (Or.inl ⟨rfl, hpc, ?_⟩))
          simp only [resumeStep, artosSemaphoreTakeResume, hreason]
      | _ => simp [WaitPoint.list, EventList.object] at hx
  | @finish j' res hpc =>
      have hj : j = j' := by simpa using hx
      subst hj
      refine Or.inr (Or.inr (Or.inr ⟨res, rfl, hpc, ?_⟩))
      unfold artosSemaphoreTakeFinish
      rw [hI.clear_eq, hI.can.cur]

/-! ## Mutex accounting under a step -/

/-- Accounting only looks at owners, counts and mutex waiters. -/
theorem MutexInv.of_same {k k' : Kernel} (h : MutexInv k) (hm : k'.mutex = k.mutex)
    (hheld : ∀ u, (k'.sched.tcb u).mutexesHeld = (k.sched.tcb u).mutexesHeld)
    (hwait : ∀ u j, k'.sched.eventL.container u = some (.mutexLock j) →
      k.sched.eventL.container u = some (.mutexLock j) ∨ (k.sched.tcb u).mutexesHeld < 0xFF)
    (hcount : k.sched.taskCount ≤ k'.sched.taskCount) : MutexInv k' := by
  have howned : ∀ u, OwnedBy k' u = OwnedBy k u := by
    intro u
    unfold OwnedBy
    rw [hm]
  refine ⟨fun u => ?_, fun u j hu => ?_, fun u => ?_, fun u j hu => ?_⟩
  · rw [howned, hheld]
    exact h.count u
  · rw [hheld]
    rcases hwait u j hu with hu | hu
    · exact h.room u j hu
    · exact hu
  · rw [hheld]
    exact h.le u
  · obtain ⟨i, hi, hlt⟩ := h.owner u j (howned u ▸ hu)
    exact ⟨i, hi, by omega⟩

/-- A task that does not exist yet holds no mutex. -/
theorem MutexInv.held_fresh {k : Kernel} (h : MutexInv k) {i : ℕ}
    (hi : k.sched.taskCount ≤ i) : (k.sched.tcb (.user i)).mutexesHeld = 0 := by
  have hempty : OwnedBy k (.user i) = ∅ := by
    rw [Set.eq_empty_iff_forall_notMem]
    intro j hj
    obtain ⟨i', hi', hlt⟩ := h.owner _ j hj
    have heq : i = i' := by simpa using hi'
    omega
  have hcount := h.count (.user i)
  rw [hempty, Set.encard_empty] at hcount
  exact_mod_cast hcount.symm

/-- The action changes no count and makes no task wait for a mutex. -/
def Action.NoMutex : Action → Prop
  | .held _ _ => False
  | .block _ _ obj _ => ∀ j, obj ≠ some (.mutexLock j)
  | _ => True

/-- Such actions leave the count of a task alone, if a new task's slot held nothing, -/
theorem View.foldl_noMutex {v : View} (ha : ∀ a ∈ acts, a.NoMutex)
    (hc : ∀ i p, Action.create i p ∈ acts → u = .user i → v.held = 0) :
    (acts.foldl (View.after u) v).held = v.held := by
  induction acts generalizing v with
  | nil => rfl
  | cons a acts ih =>
      have haa := ha a List.mem_cons_self
      have hone : (v.after u a).held = v.held := by
        cases a with
        | create i p =>
            by_cases hu : u = .user i
            · have hzero := hc i p List.mem_cons_self hu
              simp [View.after, hu, hzero]
            · simp [View.after, hu]
        | held u' n => exact absurd haa id
        | _ =>
            simp only [View.after]
            try split <;> rfl
      rw [List.foldl_cons, ih (fun b hb => ha b (List.mem_cons_of_mem _ hb))
        fun i p hmem hu => hone.trans (hc i p (List.mem_cons_of_mem _ hmem) hu)]
      exact hone

/-- and take it out of mutex lists at most. -/
theorem View.foldl_mutexLock {v : View} {j : ℕ} (ha : ∀ a ∈ acts, a.NoMutex)
    (he : (acts.foldl (View.after u) v).event = some (.mutexLock j)) :
    v.event = some (.mutexLock j) := by
  rcases View.foldl_event he with hv | ⟨w, inf, hmem⟩
  · exact hv
  · exact absurd rfl (ha _ hmem j)

/-- **Moves that concern no mutex keep the accounting.** -/
theorem MutexInv.of_moves {k k' : Kernel} (h : MutexInv k) (hr : Ready cfg k.sched)
    (hm : Moves cfg k.sched acts k'.sched) (ha : ∀ a ∈ acts, a.NoMutex)
    (hmutex : k'.mutex = k.mutex) : MutexInv k' := by
  have hview := Moves.view hr.inv hr.delay hm
  obtain ⟨hle, hcreate⟩ := Moves.taskCount_le hm
  refine h.of_same hmutex (fun u => ?_) (fun u j hu => Or.inl ?_) hle
  · have hheld : (k'.sched.view u).held = (acts.foldl (View.after u) (k.sched.view u)).held := by
      rw [hview]
    rw [View.foldl_noMutex ha] at hheld
    · exact hheld
    · rintro i p hmem rfl
      exact h.held_fresh (hcreate i p hmem)
  · have he : (k'.sched.view u).event = some (.mutexLock j) := hu
    rw [hview] at he
    exact View.foldl_mutexLock ha he

/-- Changing the owner of one mutex changes two sets of owned mutexes. -/
theorem ownedBy_setMutex {k : Kernel} {j : ℕ} {m : Mutex} {o : Option Tid}
    (hm : k.mutex j = some m) (sched : Sched) (u : Tid) :
    OwnedBy { k.setMutex j { m with owner := o } with sched := sched } u =
      if o = some u then insert j (OwnedBy k u)
      else if m.owner = some u then OwnedBy k u \ {j} else OwnedBy k u := by
  ext i
  have hother : i ≠ j → (i ∈ OwnedBy { k.setMutex j { m with owner := o } with
      sched := sched } u ↔ i ∈ OwnedBy k u) := by
    intro hi
    simp [OwnedBy, Kernel.setMutex, hi]
  have hself : j ∈ OwnedBy { k.setMutex j { m with owner := o } with sched := sched } u ↔
      o = some u := by
    simp [OwnedBy, Kernel.setMutex]
  have hold : j ∈ OwnedBy k u ↔ m.owner = some u := by
    simp [OwnedBy, hm]
  by_cases hi : i = j
  · subst hi
    rw [hself]
    by_cases hou : o = some u
    · simp [hou]
    · rw [if_neg hou]
      split
      · simp [hou]
      · rename_i hmu
        simp [hou, hold, hmu]
  · rw [hother hi]
    split
    · simp [hi]
    · split
      · simp [hi]
      · rfl

/-- An acquired mutex. -/
theorem encard_owned_insert {k : Kernel} {j : ℕ} {m : Mutex} (hm : k.mutex j = some m)
    (hne : m.owner ≠ some u) : (insert j (OwnedBy k u)).encard = (OwnedBy k u).encard + 1 :=
  Set.encard_insert_of_notMem fun ⟨m', hm', hown⟩ => hne (by
    rw [hm, Option.some.injEq] at hm'
    rw [hm', hown])

/-- A mutex given up. -/
theorem encard_owned_diff {k : Kernel} {j : ℕ} {m : Mutex} (hm : k.mutex j = some m)
    (hown : m.owner = some u) : (OwnedBy k u \ {j}).encard + 1 = (OwnedBy k u).encard :=
  Set.encard_sdiff_singleton_add_one ⟨m, hm, hown⟩

/-- One less, as a cardinality. -/
theorem eq_pred_of_add_one {c : ℕ∞} {n : ℕ} (h : c + 1 = n) : c = (n - 1 : ℕ) := by
  induction c using ENat.recTopCoe with
  | top => simp at h
  | coe m =>
      norm_cast at h ⊢
      omega

/-- The count of a task after a mutex has passed from the owner `o` to the owner `o'`. -/
def passedHeld (k : Sched) (o o' : Option Tid) (u : Tid) : ℕ :=
  if o' = some u then (k.tcb u).mutexesHeld + 1
  else if o = some u then (k.tcb u).mutexesHeld - 1
  else (k.tcb u).mutexesHeld

/-- **A change of the owner keeps the accounting**, if the counts of the two owners follow it
and neither waits for a mutex afterwards. -/
theorem MutexInv.setOwner {k : Kernel} (h : MutexInv k) {j : ℕ} {m : Mutex} {o : Option Tid}
    {sched : Sched} (hm : k.mutex j = some m) (hne : m.owner ≠ o)
    (hheld : ∀ u, (sched.tcb u).mutexesHeld = passedHeld k.sched m.owner o u)
    (hwait : ∀ u i, sched.eventL.container u = some (.mutexLock i) →
      k.sched.eventL.container u = some (.mutexLock i) ∧ m.owner ≠ some u ∧ o ≠ some u)
    (hnew : ∀ u, o = some u → (k.sched.tcb u).mutexesHeld < 0xFF ∧
      ∃ i, u = .user i ∧ i < k.sched.taskCount)
    (hcount : sched.taskCount = k.sched.taskCount) :
    MutexInv { k.setMutex j { m with owner := o } with sched := sched } := by
  have howned := ownedBy_setMutex (o := o) hm sched
  refine ⟨fun u => ?_, fun u i hu => ?_, fun u => ?_, fun u i hu => ?_⟩
  · show _ = ((sched.tcb u).mutexesHeld : ℕ∞)
    rw [howned, hheld, passedHeld]
    split
    · rename_i ho
      rw [encard_owned_insert hm fun hu => hne (hu.trans ho.symm), h.count u]
      push_cast
      rfl
    · split
      · rename_i hu
        have hdiff := encard_owned_diff hm hu
        rw [h.count u] at hdiff
        exact eq_pred_of_add_one hdiff
      · exact h.count u
  · obtain ⟨hk, hold, hno⟩ := hwait u i hu
    show (sched.tcb u).mutexesHeld < 0xFF
    rw [hheld, passedHeld, if_neg hno, if_neg hold]
    exact h.room u i hk
  · show (sched.tcb u).mutexesHeld ≤ 0xFF
    have hle := h.le u
    rw [hheld, passedHeld]
    split
    · rename_i ho
      exact (hnew u ho).1
    · split <;> omega
  · show ∃ i', u = .user i' ∧ i' < sched.taskCount
    rw [hcount]
    rw [howned] at hu
    split at hu
    · rename_i ho
      exact (hnew u ho).2
    · refine h.owner u i ?_
      split at hu
      · exact hu.1
      · exact hu

/-- **A lock keeps the accounting.** -/
theorem LockSection.mutexInv {k : Kernel} {j : ℕ} {o : Outcome} (hI : InTask cfg k.sched t)
    (ht : ∃ i, t = .user i) (hs : LockSection cfg k j t o) (h : MutexInv k) :
    MutexInv o.kernel := by
  cases hs with
  | refuse => exact h
  | @acquire m hm hown hheld =>
      have hle := h.le t
      refine h.setOwner hm (by simp [hown]) (fun u => ?_) (fun u i hu => ?_) (fun u hu => ?_) rfl
      · rw [withHeld_tcb, passedHeld, hown]
        by_cases hut : u = t
        · subst hut
          simp
        · simp [hut, Ne.symm hut]
      · -- the running task waits for nothing
        change k.sched.eventL.container u = _ at hu
        have hut := hI.can.ne_waiting hu
        exact ⟨hu, by simp [hown], by simpa using hut.symm⟩
      · obtain rfl : t = u := Option.some.inj hu
        obtain ⟨i', hi'⟩ := ht
        exact ⟨by omega, i', hi', hI.inv.cur_lt i' (hi' ▸ hI.can.cur)⟩
  | @block m o w inf k₁ k₂ acts hm hown hne hheld hb hi =>
      have hs₁ := hI.inv.moves hI.delay hb
      obtain ⟨hbase, hlt, -⟩ := hs₁.1.rtosMutexRequiredPriority_spec o (.mutexLock j)
      have hmoves := hb.trans (hi.moves hbase hlt)
      have hview := Moves.view hI.inv hI.delay hmoves
      have hle := h.le t
      refine h.of_same rfl (fun u => ?_) (fun u i hu => ?_) (Moves.taskCount_le hmoves).1
      · have hheld' := congrArg View.held (hview u)
        refine hheld'.trans ?_
        cases hi with
        | keep hle' =>
            simp only [List.append_nil, List.foldl_cons, List.foldl_nil, View.after]
            split <;> rfl
        | raise hlt' =>
            simp only [List.cons_append, List.nil_append, List.foldl_cons, List.foldl_nil,
              View.after]
            split <;> split <;> rfl
      · by_cases hut : u = t
        · subst hut
          exact Or.inr (by omega)
        · left
          have he := congrArg View.event (hview u)
          have hu' : (k₂.view u).event = some (.mutexLock i) := hu
          rw [he] at hu'
          cases hi with
          | keep hle' =>
              simp only [List.append_nil, List.foldl_cons, List.foldl_nil, View.after, hut,
                if_false] at hu'
              exact hu'
          | raise hlt' =>
              simp only [List.cons_append, List.nil_append, List.foldl_cons, List.foldl_nil,
                View.after, hut, if_false] at hu'
              split at hu' <;> exact hu'

/-- The counts after giving up a mutex. -/
theorem RelinquishEffect.held {k k' : Sched} {b : Bool} (he : RelinquishEffect k t k' acts b)
    (u : Tid) : (k'.tcb u).mutexesHeld =
      if u = t then (k.tcb t).mutexesHeld - 1 else (k.tcb u).mutexesHeld := by
  cases he with
  | keep hkeep =>
      rw [withHeld_tcb]
      split <;> rfl
  | drop hlast hne =>
      rw [withEff_mutexesHeld, withHeld_tcb]
      split <;> rfl

theorem RelinquishEffect.taskCount {k k' : Sched} {b : Bool}
    (he : RelinquishEffect k t k' acts b) : k'.taskCount = k.taskCount := by
  cases he <;> rfl

/-- **An unlock keeps the accounting.** -/
theorem UnlockSection.mutexInv {k : Kernel} {j : ℕ} {o : Outcome} (hI : InTask cfg k.sched t)
    (hs : UnlockSection cfg k j t o) (h : MutexInv k) : MutexInv o.kernel := by
  cases hs with
  | refuse hno => exact h
  | @release m k₁ acts changed hm hown hr hl =>
      refine h.setOwner hm (by simp [hown]) (fun u => ?_) (fun u i hu => ?_) (by simp)
        hr.taskCount
      · rw [hr.held, passedHeld, hown]
        by_cases hut : u = t
        · subst hut
          simp
        · simp [hut, Ne.symm hut]
      · rw [hr.eventL hI.can.event] at hu
        have hut := hI.can.ne_waiting hu
        exact ⟨hu, by simpa [hown] using hut.symm, by simp⟩
  | @hand m k₁ acts changed w rest hm hown hr hl =>
      have hcw := ListStore.container_of_head hl
      have hwt : w ≠ t := hI.can.ne_waiting hcw
      refine h.setOwner hm (by simpa [hown] using hwt.symm) (fun u => ?_) (fun u i hu => ?_)
        (fun u hu => ?_) hr.taskCount
      · rw [withHeld_tcb, passedHeld, hown]
        by_cases huw : u = w
        · subst huw
          simp [hr.held, hwt]
        · rw [if_neg huw, if_neg (by simpa using Ne.symm huw)]
          by_cases hut : u = t
          · subst hut
            simp [hr.held]
          · simp [hr.held, hut, Ne.symm hut]
      · change (k₁.eventL.remove w).container u = _ at hu
        rw [hr.eventL hI.can.event, ListStore.remove_container] at hu
        have huw : u ≠ w := by
          rintro rfl
          simp at hu
        rw [update_of_ne huw] at hu
        have hut := hI.can.ne_waiting hu
        exact ⟨hu, by simpa [hown] using hut.symm, by simpa using huw.symm⟩
      · obtain rfl : w = u := Option.some.inj hu
        exact ⟨h.room w j hcw, hI.inv.blocked_user (hI.inv.event_blocked w (by rw [hcw]; simp))⟩

/-- **The end of a lock keeps the accounting.** -/
theorem LockResumeSection.mutexInv {k : Kernel} {j : ℕ} {o : Outcome}
    (hI : InTask cfg k.sched t) (hs : LockResumeSection k j t o) (h : MutexInv k) :
    MutexInv o.kernel := by
  have hclear : ∀ a ∈ [Action.clear t], a.NoMutex := by simp [Action.NoMutex]
  have h₁ : MutexInv { k with sched := k.sched.rtosClearCurrentWaitReason } :=
    h.of_moves hI.toReady hI.clear hclear rfl
  have hI₁ := hI.cleared.1
  cases hs with
  | granted hres => exact h₁
  | @timedOut m k₁ acts hm hres hd =>
      have hno : ∀ a ∈ acts, a.NoMutex := by cases hd <;> simp [Action.NoMutex]
      exact h₁.of_moves hI₁.toReady (hd.moves hI₁.inv) hno rfl

/-- The actions of a section of another object concern no mutex. -/
theorem Action.InSection.noMutex (ha : a.InSection x t) (hx : ∀ j, x ≠ .mutex j) :
    a.NoMutex := by
  cases a with
  | held u n =>
      obtain ⟨j, hj⟩ := ha
      exact absurd hj (hx j)
  | block u w obj inf =>
      intro j hobj
      exact hx j (ha.2 _ hobj).symm
  | _ => trivial

/-- The action changes no count and no priority, and makes no task wait for a
mutex. -/
def Action.NoPrio : Action → Prop
  | .setEff _ _ => False
  | a => a.NoMutex

theorem Action.NoPrio.noMutex (ha : a.NoPrio) : a.NoMutex := by
  cases a with
  | setEff u p => exact absurd ha id
  | _ => exact ha

/-- The actions of a section of another object. -/
theorem Action.InSection.noPrio (ha : a.InSection x t) (hx : ∀ j, x ≠ .mutex j) :
    a.NoPrio := by
  cases a with
  | setEff u p =>
      obtain ⟨j, hj⟩ := ha
      exact absurd hj (hx j)
  | _ => exact ha.noMutex hx

/-- **What a step does with the mutexes**: nothing, or one of the three sections of a mutex. -/
inductive MutexStep (cfg : Config) (s : Sys) : Event → List Obs → Sys → Prop
  | other {e : Event} {obs : List Obs} {s' : Sys} {acts : List Action}
      (hm : Moves cfg s.sched acts s'.sched) (ha : ∀ a ∈ acts, a.NoPrio)
      (hmutex : s'.kernel.mutex = s.kernel.mutex)
      (hobs : ∀ ob ∈ obs, ∀ j, ob.object ≠ .mutex j) : MutexStep cfg s e obs s'
  | lock {j : ℕ} {n : UInt32} {t : Tid} {o : Outcome} (hrun : s.running = some t)
      (hI : InTask cfg s.sched t) (hpc : s.pc t = .user)
      (hstep : TaskStep cfg (.mutex j) t s.kernel o) (hsec : LockSection cfg s.kernel j t o) :
      MutexStep cfg s (.call (.mutexLock j n)) o.obs (s.finish t o)
  | unlock {j : ℕ} {t : Tid} {o : Outcome} (hrun : s.running = some t)
      (hI : InTask cfg s.sched t) (hpc : s.pc t = .user)
      (hstep : TaskStep cfg (.mutex j) t s.kernel o) (hsec : UnlockSection cfg s.kernel j t o) :
      MutexStep cfg s (.call (.mutexUnlock j)) o.obs (s.finish t o)
  | resume {j : ℕ} {t : Tid} {o : Outcome} (hrun : s.running = some t)
      (hI : InTask cfg s.sched t) (hpc : s.pc t = .resume (.mutex j))
      (hstep : TaskStep cfg (.mutex j) t s.kernel o) (hsec : LockResumeSection s.kernel j t o) :
      MutexStep cfg s .resume o.obs (s.finish t o)

/-- Every step is of one of these kinds. -/
theorem StepKind.mutexStep (h : Inv cfg s) {e : Event} (hs : StepKind cfg s e obs s') :
    MutexStep cfg s e obs s' := by
  cases hs with
  | create hcur hmoves hacts =>
      refine .other hmoves ?_ rfl (by simp)
      rcases hacts with rfl | ⟨q, rfl⟩ <;> simp [Action.NoPrio, Action.NoMutex]
  | start hcur hmoves hacts hnext =>
      refine .other hmoves ?_ rfl (by simp)
      rcases hacts with rfl | ⟨t, rfl⟩ <;> simp [Action.NoPrio, Action.NoMutex]
  | @task e t x o hrun hI hsrc hstep =>
      by_cases hx : ∃ j, x = .mutex j
      · obtain ⟨j, rfl⟩ := hx
        rcases hsrc.mutex h hI with ⟨n, rfl, hpc, hsec⟩ | ⟨rfl, hpc, hsec⟩ | ⟨rfl, hpc, hsec⟩
        · exact .lock hrun hI hpc hstep hsec
        · exact .unlock hrun hI hpc hstep hsec
        · exact .resume hrun hI hpc hstep hsec
      · push Not at hx
        obtain ⟨acts, hsec, -⟩ := hstep.sec
        refine .other hsec.moves (fun a ha => (hsec.acts_ok a ha).noPrio hx) ?_
          fun ob hob j he => hx j ((hsec.obs_ok.object ob hob).symm.trans he)
        funext j
        exact hsec.mutex j (hx j).symm
  | request hrun hpc => exact .other Runs.Exec.nil (by simp) rfl (by simp)
  | tick hmoves hset =>
      refine .other hmoves ?_ rfl (by simp)
      simp [Action.NoPrio, Action.NoMutex]
  | switch hcur hpending hmoves hacts =>
      refine .other hmoves ?_ rfl (by simp)
      rcases hacts with ⟨rfl, -⟩ | ⟨t, rfl, -⟩ <;> simp [Action.NoPrio, Action.NoMutex]
  | isrEnter => exact .other Runs.Exec.nil (by simp) rfl (by simp)
  | @isrCall c woken rest hh hstep =>
      obtain ⟨acts, hsec, ha⟩ := hstep
      have hx : ∀ j, c.object ≠ .mutex j := by cases c <;> simp [IsrCall.object]
      refine .other (hsec .idle).moves ?_ ?_
        fun ob hob j he => hx j (((hsec .idle).obs_ok.object ob hob).symm.trans he)
      · intro a ha'
        obtain ⟨l, u, rfl⟩ := ha a ha'
        trivial
      · funext j
        exact (hsec .idle).mutex j (hx j).symm
  | isrReturn hh => exact .other Runs.Exec.nil (by simp) rfl (by simp)

/-- **Every step keeps the accounting.** -/
theorem StepKind.mutexInv (h : Inv cfg s) {e : Event} (hs : StepKind cfg s e obs s') :
    MutexInv s'.kernel := by
  have hm := h.mutexes
  cases hs.mutexStep h with
  | other hmoves ha hmutex hobs =>
      exact hm.of_moves h.ready hmoves (fun a h' => (ha a h').noMutex) hmutex
  | lock hrun hI hpc hstep hsec => exact hsec.mutexInv hI (running_eq hrun).2.2.2.2 hm
  | unlock hrun hI hpc hstep hsec => exact hsec.mutexInv hI hm
  | resume hrun hI hpc hstep hsec => exact hsec.mutexInv hI hm

/-! ## Every step keeps the invariant -/

/-- The moves of a step. -/
theorem StepKind.moves {e : Event} (hs : StepKind cfg s e obs s') :
    ∃ acts, Moves cfg s.sched acts s'.sched := by
  cases hs with
  | create hcur hm hacts => exact ⟨_, hm⟩
  | start hcur hm hacts hnext => exact ⟨_, hm⟩
  | task hrun hI hsrc hstep =>
      obtain ⟨acts, hsec, -⟩ := hstep.sec
      exact ⟨acts, hsec.moves⟩
  | request hrun hpc => exact ⟨[], Runs.Exec.nil⟩
  | tick hm hset => exact ⟨_, hm⟩
  | switch hcur hpending hm hacts => exact ⟨_, hm⟩
  | isrEnter => exact ⟨[], Runs.Exec.nil⟩
  | isrCall hh hstep =>
      obtain ⟨acts, hsec, -⟩ := hstep
      exact ⟨acts, (hsec .idle).moves⟩
  | isrReturn hh => exact ⟨[], Runs.Exec.nil⟩

/-- No step leaves a task due. -/
theorem StepKind.settled (h : Inv cfg s) {e : Event} (hs : StepKind cfg s e obs s') :
    s'.sched.Settled := by
  have hmoves : ∀ {acts k}, Moves cfg s.sched acts k → NoAdvance acts → k.Settled :=
    fun hm ha => Moves.settled h.ready.inv h.ready.delay h.settled hm ha
  cases hs with
  | create hcur hm hacts =>
      refine hmoves hm ?_
      rcases hacts with rfl | ⟨q, rfl⟩ <;> simp [NoAdvance]
  | start hcur hm hacts hnext =>
      refine hmoves hm ?_
      rcases hacts with rfl | ⟨t, rfl⟩ <;> simp [NoAdvance]
  | task hrun hI hsrc hstep =>
      obtain ⟨acts, hsec, -⟩ := hstep.sec
      exact hmoves hsec.moves fun ha => hsec.acts_ok _ ha
  | request hrun hpc => exact h.settled
  | tick hm hset => exact hset
  | switch hcur hpending hm hacts =>
      refine hmoves hm ?_
      rcases hacts with ⟨rfl, -⟩ | ⟨t, rfl, -⟩ <;> simp [NoAdvance]
  | isrEnter => exact h.settled
  | isrCall hh hstep =>
      obtain ⟨acts, hsec, -⟩ := hstep
      exact hmoves (hsec .idle).moves fun ha => (hsec .idle).acts_ok _ ha
  | isrReturn hh => exact h.settled

/-- A section's actions spare every task but the one that runs it. -/
theorem Action.InSection.spares (ha : a.InSection x t) (hut : u ≠ t) {p : Pc}
    (hfresh : ∀ i q, a = .create i q → u = .user i → p = .user) : a.Spares u p := by
  cases a with
  | create i q => exact hfresh i q rfl
  | block t' w obj inf => exact fun he => hut (he.trans ha.1)
  | clear t' => exact fun he => hut (he.trans ha)
  | _ => trivial

/-- Actions that spare the task keep its view fit for its point. -/
theorem TaskOk.moves {k k' : Sched} {p : Pc} (hr : Ready cfg k) (hm : Moves cfg k acts k')
    (h : TaskOk (k.view u) p) (ha : ∀ a ∈ acts, a.Spares u p) : TaskOk (k'.view u) p := by
  rw [Moves.view hr.inv hr.delay hm]
  exact h.foldl ha

/-- **What a step does to a task that does not run in it**: its point stays, the
moves spare it, no observation is about a call of it, and it is handed something
exactly when it is woken. -/
structure Spared (cfg : Config) (s : Sys) (u : Tid) (obs : List Obs) (s' : Sys) : Prop where
  moves : ∃ acts, Moves cfg s.sched acts s'.sched ∧ (∀ a ∈ acts, a.Spares u (s.pc u)) ∧
    ∀ l, Obs.handed l u ∈ obs ↔ Action.wake l u ∈ acts
  pc : s'.pc u = s.pc u
  actor : ∀ ob ∈ obs, ob.actor ≠ some u

/-- **A step as the task `u` sees it.** -/
inductive StepOf (cfg : Config) (s : Sys) (u : Tid) : Event → List Obs → Sys → Prop
  | spared {e : Event} {obs : List Obs} {s' : Sys} (h : Spared cfg s u obs s') :
      StepOf cfg s u e obs s'
  | request {r : Option WaitPoint} (hrun : s.running = some u) (hpc : s.pc u = .request r) :
      StepOf cfg s u .resume []
        { s with pending := true, pc := update s.pc u (afterRequest r) }
  | own {e : Event} {x : Object} {o : Outcome} (hrun : s.running = some u)
      (hI : InTask cfg s.sched u) (hsrc : TaskEvent cfg s u e x o)
      (hstep : TaskStep cfg x u s.kernel o) : StepOf cfg s u e o.obs (s.finish u o)

/-- Every step is spared, requested or made by the task. -/
theorem StepKind.stepOf (h : Inv cfg s) {e : Event} (hs : StepKind cfg s e obs s') (u : Tid) :
    StepOf cfg s u e obs s' := by
  have hempty : ∀ l, Obs.handed l u ∈ ([] : List Obs) ↔ Action.wake l u ∈ ([] : List Action) :=
    fun l => by simp
  cases hs with
  | create hcur hm hacts =>
      refine .spared ⟨⟨_, hm, ?_, ?_⟩, rfl, by simp⟩
      · rcases hacts with rfl | ⟨q, rfl⟩
        · simp
        · simp only [List.mem_singleton, forall_eq]
          rintro rfl
          exact h.fresh _ le_rfl
      · rcases hacts with rfl | ⟨q, rfl⟩ <;> simp
  | start hcur hm hacts hnext =>
      refine .spared ⟨⟨_, hm, ?_, ?_⟩, rfl, by simp⟩ <;>
        rcases hacts with rfl | ⟨t, rfl⟩ <;> simp [Action.Spares]
  | @task e t x o hrun hI hsrc hstep =>
      by_cases hut : u = t
      · subst hut
        exact .own hrun hI hsrc hstep
      · obtain ⟨acts, hsec, -⟩ := hstep.sec
        refine .spared ⟨⟨acts, hsec.moves, fun a ha => ?_, fun l => hsec.obs_ok.hands l u⟩,
          update_of_ne hut _ _, fun ob hob he => hut (hsec.obs_ok.actor ob hob u he)⟩
        refine (hsec.acts_ok a ha).spares hut fun i q he hui => ?_
        subst hui
        exact h.fresh i ((Moves.taskCount_le hsec.moves).2 i q (he ▸ ha))
  | @request t r hrun hpc =>
      by_cases hut : u = t
      · subst hut
        exact .request hrun hpc
      · exact .spared ⟨⟨[], Runs.Exec.nil, by simp, hempty⟩, update_of_ne hut _ _, by simp⟩
  | tick hm hset => exact .spared ⟨⟨_, hm, by simp [Action.Spares], by simp⟩, rfl, by simp⟩
  | switch hcur hpending hm hacts =>
      refine .spared ⟨⟨_, hm, ?_, ?_⟩, rfl, by simp⟩ <;>
        rcases hacts with ⟨rfl, -⟩ | ⟨t, rfl, -⟩ <;> simp [Action.Spares]
  | isrEnter => exact .spared ⟨⟨[], Runs.Exec.nil, by simp, hempty⟩, rfl, by simp⟩
  | isrCall hh hstep =>
      obtain ⟨acts, hsec, ha⟩ := hstep
      refine .spared ⟨⟨acts, (hsec .idle).moves, fun a ha' => ?_,
        fun l => (hsec .idle).obs_ok.hands l u⟩, rfl, fun ob hob he => ?_⟩
      · obtain ⟨l, v, rfl⟩ := ha a ha'
        trivial
      · have hidle := (hsec .idle).obs_ok.actor ob hob u he
        have huser := (hsec (.user 0)).obs_ok.actor ob hob u he
        rw [hidle] at huser
        simp at huser
  | isrReturn hh => exact .spared ⟨⟨[], Runs.Exec.nil, by simp, hempty⟩, rfl, by simp⟩

/-- **Every step keeps the tasks' views fit for their points.** -/
theorem StepKind.tasks (h : Inv cfg s) {e : Event} (hs : StepKind cfg s e obs s')
    (u : Tid) : TaskOk (s'.sched.view u) (s'.pc u) := by
  have hu := h.tasks u
  cases hs.stepOf h u with
  | spared hsp =>
      obtain ⟨acts, hm, ha, -⟩ := hsp.moves
      rw [hsp.pc]
      exact hu.moves h.ready hm ha
  | @request r hrun hpc =>
      show TaskOk (s.sched.view u) (update s.pc u (afterRequest r) u)
      rw [update_self]
      rw [hpc] at hu
      cases r <;> exact hu
  | own hrun hI hsrc hstep => simpa [Sys.finish] using hstep.own

/-- **Every step keeps the wait points valid.** -/
theorem StepKind.points (h : Inv cfg s) {e : Event} (hs : StepKind cfg s e obs s')
    (u : Tid) (w : WaitPoint) (hw : (s'.pc u).point = some w) : w.Valid s'.kernel := by
  have hsame : ∀ {k : Sched}, w.Valid s.kernel → w.Valid { s.kernel with sched := k } :=
    fun {k} hv => by cases w <;> exact hv
  cases hs with
  | create hcur hm hacts => exact hsame (h.points u w hw)
  | start hcur hm hacts hnext => exact hsame (h.points u w hw)
  | @task e t x o hrun hI hsrc hstep =>
      change (update s.pc t o.pc u).point = some w at hw
      by_cases hut : u = t
      · subst hut
        rw [update_self] at hw
        exact (hstep.valid w hw).1
      · obtain ⟨acts, hsec, -⟩ := hstep.sec
        rw [update_of_ne hut] at hw
        exact hsec.keep w (h.points u w hw)
  | @request t r hrun hpc =>
      change (update s.pc t (afterRequest r) u).point = some w at hw
      by_cases hut : u = t
      · subst hut
        rw [update_self] at hw
        refine h.points u w ?_
        rw [hpc]
        cases r with
        | none => simp [afterRequest, Pc.point] at hw
        | some w' => exact hw
      · rw [update_of_ne hut] at hw
        exact h.points u w hw
  | tick hm hset => exact hsame (h.points u w hw)
  | switch hcur hpending hm hacts => exact hsame (h.points u w hw)
  | isrEnter => exact h.points u w hw
  | isrCall hh hstep =>
      obtain ⟨acts, hsec, -⟩ := hstep
      exact (hsec .idle).keep w (h.points u w hw)
  | isrReturn hh => exact h.points u w hw

/-- A slot that no task has used stays outside every call. -/
theorem StepKind.fresh (h : Inv cfg s) {e : Event} (hs : StepKind cfg s e obs s')
    (i : ℕ) (hi : s'.sched.taskCount ≤ i) : s'.pc (.user i) = .user := by
  obtain ⟨acts, hm⟩ := hs.moves
  have hle := (Moves.taskCount_le hm).1
  have hold := h.fresh i (by omega)
  have hne : ∀ t, s.running = some t → Tid.user i ≠ t := by
    rintro t hrun rfl
    have hlt := h.ready.inv.cur_lt i (running_eq hrun).1
    omega
  cases hs with
  | @task e t x o hrun hI hsrc hstep =>
      show update s.pc t o.pc (.user i) = .user
      rw [update_of_ne (hne t hrun)]
      exact hold
  | @request t r hrun hpc =>
      show update s.pc t (afterRequest r) (.user i) = .user
      rw [update_of_ne (hne t hrun)]
      exact hold
  | _ => exact hold

/-- **The current task is in no list unless a switch is due.** -/
theorem StepKind.cur_linked (h : Inv cfg s) {e : Event} (hs : StepKind cfg s e obs s')
    (hf : s'.sched.failure = none) (t : Tid) (hcur : s'.cur = some t)
    (hlinked : s'.sched.stateL.container t ≠ none) :
    s'.pending = true ∨ ∃ r, s'.pc t = .request r := by
  have hmoved : ∀ {acts k}, Moves cfg s.sched acts k → k.failure = none →
      k.curTask = some t → k.stateL.container t ≠ none → (∀ u, .dispatch u ∉ acts) →
      (∀ u, .requeue u ∉ acts) → (∀ w obj inf, Action.block t w obj inf ∉ acts) →
      s.pending = true ∨ ∃ r, s.pc t = .request r := by
    intro acts k hm hk hc hl hdisp hreq hb
    have hcur₀ : s.cur = some t := by rw [← hc, Moves.curTask hm hdisp]
    refine h.cur_linked (Moves.failure hm hk) t hcur₀ fun hnone => hl ?_
    exact Moves.unlinked h.ready.inv h.ready.delay hm hdisp hreq hb hcur₀ hnone
  cases hs with
  | create hcur' hm hacts =>
      refine hmoved hm hf hcur hlinked ?_ ?_ ?_ <;>
        rcases hacts with rfl | ⟨q, rfl⟩ <;> simp
  | start hcur' hm hacts hnext => exact absurd (hnext t hcur) hlinked
  | @task e u x o hrun hI hsrc hstep =>
      obtain ⟨acts, hsec, hblock⟩ := hstep.sec
      have hdisp : ∀ u, .dispatch u ∉ acts := fun u ha => hsec.acts_ok _ ha
      have hut : u = t := by
        have hsame : o.kernel.sched.curTask = s.sched.curTask := Moves.curTask hsec.moves hdisp
        have hcur' : o.kernel.sched.curTask = some t := hcur
        rw [hsame, hI.can.cur, Option.some.injEq] at hcur'
        exact hcur'
      subst hut
      right
      by_cases hb : ∃ w obj inf, Action.block u w obj inf ∈ acts
      · obtain ⟨r, hr⟩ := hblock hb
        exact ⟨r, by simp [Sys.finish, hr]⟩
      · push Not at hb
        refine absurd ?_ hlinked
        exact Moves.unlinked h.ready.inv h.ready.delay hsec.moves hdisp
          (fun u ha => hsec.acts_ok _ ha) hb hI.can.cur hI.can.state
  | request hrun hpc => exact Or.inl rfl
  | @tick ts k hm hset =>
      have hold := hmoved hm hf hcur hlinked (by simp) (by simp) (by simp)
      exact hold.imp (fun hp => by simp [hp]) id
  | switch hcur' hpending hm hacts =>
      rcases hacts with ⟨-, hfail⟩ | ⟨t', -, ht', hnone⟩
      · exact absurd hf hfail
      · have htt : t' = t := by
          have hcur'' : _ = some t := hcur
          exact Option.some.inj (ht'.symm.trans hcur'')
        exact absurd (htt ▸ hnone) hlinked
  | isrEnter => exact h.cur_linked hf t hcur hlinked
  | isrCall hh hstep =>
      obtain ⟨acts, hsec, ha⟩ := hstep
      have hwake : ∀ b, (∀ l u, b ≠ Action.wake l u) → b ∉ acts := by
        intro b hb hmem
        obtain ⟨l, u, hbe⟩ := ha b hmem
        exact hb l u hbe
      exact hmoved (hsec .idle).moves hf hcur hlinked (fun u => hwake _ (by simp))
        (fun u => hwake _ (by simp)) fun w obj inf => hwake _ (by simp)
  | isrReturn hh =>
      have hold := h.cur_linked hf t hcur hlinked
      exact hold.imp (fun hp => by simp [hp]) id

/-- **Every step keeps the invariant.** -/
theorem Inv.step (h : Inv cfg s) {l : Label} (hs : Step cfg s l s') : Inv cfg s' := by
  obtain ⟨e, obs⟩ := l
  have hk := step_kind h hs
  obtain ⟨acts, hm⟩ := hk.moves
  obtain ⟨hinv, hdelay⟩ := h.ready.inv.moves h.ready.delay hm
  exact ⟨⟨hinv, hdelay⟩, hk.settled h, hk.cur_linked h, hk.tasks h, hk.points h,
    hk.fresh h, fun _ _ hq => hk.queueOk h hq, hk.mutexInv h⟩

/-! ## Runs -/

/-- An initialised queue is well formed: no offset into it overflows. -/
theorem queueOk_of_init {control storage itemSize capacity : ℕ} {buffer : ℕ → UInt8}
    {q : Queue} (hcap : capacity < 4294967296)
    (hq : artosQueueInit cfg control storage itemSize capacity buffer = some q) :
    QueueOk cfg q := by
  unfold artosQueueInit at hq
  split at hq
  · simp at hq
  split at hq
  · simp at hq
  rename_i hne hfit
  push Not at hne
  simp only [Option.some.injEq] at hq
  subst hq
  refine ⟨⟨by dsimp only; omega, by dsimp only; omega, hne.2.1, Nat.zero_le _,
    by dsimp only; omega, by dsimp only; omega⟩, hcap, ?_⟩
  have hmul := (Nat.le_div_iff_mul_le (by omega : 0 < itemSize)).mp (not_lt.mp hfit)
  have hpow : 0 < 2 ^ cfg.sizeBits := by positivity
  rw [Nat.mul_comm] at hmul
  dsimp only
  omega

/-- **The initial states satisfy the invariant.** -/
theorem Initial.inv (h : Initial cfg s) : Inv cfg s := by
  have hnone : ∀ u, s.sched.eventL.container u = none := by
    rw [h.sched]
    exact fun _ => rfl
  have hnostate : ∀ u, s.sched.stateL.container u = none := by
    rw [h.sched]
    exact fun _ => rfl
  have htcb : ∀ u, (s.sched.tcb u).mutexesHeld = 0 ∧
      (s.sched.tcb u).waitReason = .noReason := by
    rw [h.sched]
    intro u
    cases u <;> simp [rtosSystemInit, rtosInitTcb, Tcb.zero]
  refine ⟨⟨h.sched ▸ sInv_rtosSystemInit cfg, h.sched ▸ delayInv_rtosSystemInit⟩,
    fun t ht => ?_, fun _ t hcur => ?_, fun t => ?_, fun t w hw => ?_, fun i _ => h.pc _,
    fun j q hq => ?_, ?_⟩
  · rw [hnostate] at ht
    simp at ht
  · have hcur' : s.sched.curTask = some t := hcur
    rw [h.sched] at hcur'
    simp [rtosSystemInit, rtosInitTcb] at hcur'
  · rw [h.pc]
    refine ⟨hnone t, ?_⟩
    show (s.sched.tcb t).waitReason ≠ .signaled
    rw [(htcb t).2]
    simp
  · rw [h.pc] at hw
    simp [Pc.point] at hw
  · obtain ⟨control, storage, itemSize, capacity, buffer, hcap, -, hinit⟩ := h.queue j q hq
    exact queueOk_of_init hcap hinit
  · have hempty : ∀ u, OwnedBy s.kernel u = ∅ := by
      intro u
      rw [Set.eq_empty_iff_forall_notMem]
      rintro j ⟨m, hm, hown⟩
      obtain ⟨storage, hinit⟩ := h.mutex j m hm
      unfold artosMutexInit at hinit
      split at hinit
      · simp at hinit
      · rw [Option.some.injEq] at hinit
        rw [← hinit] at hown
        simp at hown
    refine ⟨fun u => ?_, fun u j hu => ?_, fun u => ?_, fun u j hu => ?_⟩
    · rw [hempty, (htcb u).1, Set.encard_empty]
      rfl
    · rw [(htcb u).1]
      omega
    · rw [(htcb u).1]
      omega
    · rw [hempty] at hu
      simp at hu

/-- Every run keeps the invariant. -/
theorem Inv.run (h : Inv cfg s) {tr : List Label} (hr : Run cfg s tr s') : Inv cfg s' :=
  hr.invariant (fun _ _ _ hI hs => hI.step hs) h

/-- **The invariant holds in every reachable state.** -/
theorem Reachable.inv (h : Reachable cfg s) : Inv cfg s := by
  obtain ⟨s₀, tr, h₀, hr⟩ := h
  exact h₀.inv.run hr

end Artos
