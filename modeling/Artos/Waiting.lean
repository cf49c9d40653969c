/-
# What a task step can touch

Every critical section belongs to one object (`Object`), and its moves are those of
a section of that object (`Action.InSection`): it wakes tasks of the object's own
lists only, and blocks no task but the caller.  `TaskOk` ties the point at which a
task stands to its view: a task inside a blocking call waits in the list of that
call, or has been unblocked with a reason; any other task waits in no list.

`TaskStep` collects what every function of the kernel guarantees to its callers.
-/
import Artos.Sections

open Function

namespace Artos

open Sched

/-! ## Objects -/

/-- The object a list, an observation or a call belongs to. -/
inductive Object where
  /-- No object: the calls about tasks and time. -/
  | none
  | sem (h : ℕ)
  | mutex (h : ℕ)
  | queue (h : ℕ)
  deriving DecidableEq

@[simp] def EventList.object : EventList → Object
  | .semWait h => .sem h
  | .queueRead h => .queue h
  | .queueWrite h => .queue h
  | .mutexLock h => .mutex h

@[simp] def Obs.object : Obs → Object
  | .blocked _ l => l.object
  | .handed l _ => l.object
  | .taken h _ _ => .sem h
  | .signaled h _ => .sem h
  | .enqueued h _ _ => .queue h
  | .dequeued h _ => .queue h
  | .locked h _ _ => .mutex h
  | .unlocked h _ _ => .mutex h
  | .created _ => .none

/-- The task that made the call which the observation is about. -/
@[simp] def Obs.actor : Obs → Option Tid
  | .blocked t _ => t
  | .taken _ t _ => t
  | .locked _ t _ => t
  | .unlocked _ t _ => t
  | _ => none

def Call.object : Call → Object
  | .semaphoreTake h _ => .sem h
  | .semaphoreSignal h => .sem h
  | .mutexLock h _ => .mutex h
  | .mutexUnlock h => .mutex h
  | .queueEnqueue h _ _ => .queue h
  | .queueDequeue h _ _ => .queue h
  | _ => .none

def IsrCall.object : IsrCall → Object
  | .semaphoreTake h => .sem h
  | .semaphoreSignal h _ => .sem h
  | .queueEnqueue h _ _ => .queue h
  | .queueDequeue h _ _ => .queue h

/-- The object of the call in progress. -/
def Pc.object : Pc → Object
  | .resume w => w.list.object
  | .semClear h _ => .sem h
  | _ => .none

/-- A wait point refers to an object that exists, with a 32-bit wake tick. -/
def WaitPoint.Valid (k : Kernel) : WaitPoint → Prop
  | .sem h => k.sem h ≠ none
  | .mutex h => k.mutex h ≠ none
  | .enqueue h _ w _ => k.queue h ≠ none ∧ w < 4294967296
  | .dequeue h w _ => k.queue h ≠ none ∧ w < 4294967296

/-- The wait point that a task goes on from, if any. -/
def Pc.point : Pc → Option WaitPoint
  | .request w => w
  | .resume w => some w
  | _ => none

theorem Pc.waitsOn_eq (p : Pc) : p.waitsOn = p.point.map WaitPoint.list := by
  cases p with
  | request w => cases w <;> rfl
  | _ => rfl

variable {cfg : Config} {k k' : Kernel} {t u : Tid} {x : Object} {a : Action}
  {acts : List Action} {obs : List Obs} {v : View} {p : Pc}

/-! ## Sections -/

/-- An action that a section of the object `x`, run by the task `t`, may perform. -/
def Action.InSection (x : Object) (t : Tid) : Action → Prop
  | .create _ _ => True
  | .block u _ obj _ => u = t ∧ ∀ l, obj = some l → l.object = x
  | .wake l _ => l.object = x
  | .setEff _ _ => ∃ h, x = .mutex h
  | .held _ _ => ∃ h, x = .mutex h
  | .clear u => u = t
  | _ => False

/-- The action changes an effective priority. -/
def Action.isSetEff : Action → Bool
  | .setEff _ _ => true
  | _ => false

/-- The observations of a section of the object `x`, run by the task `t`, with the
actions `acts`: they are about calls of the task, and what is handed over is what is
woken. -/
structure ObsFit (x : Object) (t : Tid) (acts : List Action) (obs : List Obs) : Prop where
  object : ∀ ob ∈ obs, ob.object = x
  actor : ∀ ob ∈ obs, ∀ u, ob.actor = some u → u = t
  hands : ∀ l u, Obs.handed l u ∈ obs ↔ Action.wake l u ∈ acts

/-- One more observation that is no hand-over. -/
theorem ObsFit.cons {ob : Obs} (h : ObsFit x t acts obs) (hx : ob.object = x)
    (ht : ∀ u, ob.actor = some u → u = t) (hh : ∀ l u, ob ≠ .handed l u) :
    ObsFit x t acts (ob :: obs) := by
  refine ⟨?_, ?_, ?_⟩
  · intro ob' hmem
    rcases List.mem_cons.mp hmem with rfl | hmem
    · exact hx
    · exact h.object ob' hmem
  · intro ob' hmem
    rcases List.mem_cons.mp hmem with rfl | hmem
    · exact ht
    · exact h.actor ob' hmem
  · intro l u
    rw [List.mem_cons, h.hands]
    have hne := (hh l u).symm
    simp [hne]

/-- **A critical section of the object `x`, run by the task `t`**: its moves, the
actions and observations it may have, and what it leaves unchanged. -/
structure Section (cfg : Config) (x : Object) (t : Tid) (k k' : Kernel)
    (acts : List Action) (obs : List Obs) : Prop where
  moves : Moves cfg k.sched acts k'.sched
  acts_ok : ∀ a ∈ acts, a.InSection x t
  /-- At most one effective priority changes. -/
  one_setEff : (acts.filter Action.isSetEff).length ≤ 1
  obs_ok : ObsFit x t acts obs
  sem : ∀ h, .sem h ≠ x → k'.sem h = k.sem h
  mutex : ∀ h, .mutex h ≠ x → k'.mutex h = k.mutex h
  queue : ∀ h, .queue h ≠ x → k'.queue h = k.queue h
  keep : ∀ w : WaitPoint, w.Valid k → w.Valid k'

section Building

variable {s : Sched} (hm : Moves cfg k.sched acts s)
  (hacts : ∀ a ∈ acts, a.InSection x t) (hone : (acts.filter Action.isSetEff).length ≤ 1)
  (hobs : ObsFit x t acts obs)
include hm hacts hone hobs

/-- A section that only changes the scheduler. -/
theorem Section.of_sched : Section cfg x t k { k with sched := s } acts obs :=
  ⟨hm, hacts, hone, hobs, fun _ _ => rfl, fun _ _ => rfl, fun _ _ => rfl, fun w hw => by
    cases w <;> exact hw⟩

/-- A section that changes its semaphore. -/
theorem Section.of_sem {h : ℕ} (hx : x = .sem h) (sem : Semaphore) :
    Section cfg x t k { k.setSem h sem with sched := s } acts obs := by
  refine ⟨hm, hacts, hone, hobs, fun h' hne => ?_, fun _ _ => rfl, fun _ _ => rfl,
    fun w hw => ?_⟩
  · have hh : h' ≠ h := by
      rintro rfl
      exact hne hx.symm
    exact update_of_ne hh _ _
  · cases w with
    | sem h' =>
        by_cases hh : h' = h
        · simp [WaitPoint.Valid, Kernel.setSem, hh]
        · simpa [WaitPoint.Valid, Kernel.setSem, hh] using hw
    | _ => exact hw

/-- A section that changes its mutex. -/
theorem Section.of_mutex {h : ℕ} (hx : x = .mutex h) (m : Mutex) :
    Section cfg x t k { k.setMutex h m with sched := s } acts obs := by
  refine ⟨hm, hacts, hone, hobs, fun _ _ => rfl, fun h' hne => ?_, fun _ _ => rfl,
    fun w hw => ?_⟩
  · have hh : h' ≠ h := by
      rintro rfl
      exact hne hx.symm
    exact update_of_ne hh _ _
  · cases w with
    | mutex h' =>
        by_cases hh : h' = h
        · simp [WaitPoint.Valid, Kernel.setMutex, hh]
        · simpa [WaitPoint.Valid, Kernel.setMutex, hh] using hw
    | _ => exact hw

/-- A section that changes its queue. -/
theorem Section.of_queue {h : ℕ} (hx : x = .queue h) (q : Queue) :
    Section cfg x t k { k.setQueue h q with sched := s } acts obs := by
  refine ⟨hm, hacts, hone, hobs, fun _ _ => rfl, fun _ _ => rfl, fun h' hne => ?_,
    fun w hw => ?_⟩
  · have hh : h' ≠ h := by
      rintro rfl
      exact hne hx.symm
    exact update_of_ne hh _ _
  · have hq : ∀ h', k.queue h' ≠ none → update k.queue h (some q) h' ≠ none := by
      intro h' hh'
      by_cases hh : h' = h
      · simp [hh]
      · simpa [hh] using hh'
    cases w with
    | enqueue h' d w' i => exact ⟨hq h' hw.1, hw.2⟩
    | dequeue h' w' i => exact ⟨hq h' hw.1, hw.2⟩
    | _ => exact hw

end Building

/-! ## Tasks and their points -/

/-- The task waits in no list and has not been signaled. -/
def Quiet (v : View) : Prop := v.event = none ∧ v.reason ≠ .signaled

/-- The task waits in the list `l`. -/
def Waits (v : View) (l : EventList) : Prop :=
  v.event = some l ∧ v.blocked = true ∧ v.reason ≠ .signaled

/-- The task has been unblocked, signaled or timed out. -/
def Released (v : View) : Prop :=
  v.event = none ∧ v.blocked = false ∧ v.reason ≠ .noReason

/-- **The view of a task fits the point at which it stands.** -/
def TaskOk (v : View) : Pc → Prop
  | .user => Quiet v
  | .request none => Quiet v
  | .request (some w) => Waits v w.list ∨ Released v
  | .resume w => Waits v w.list ∨ Released v
  | .semClear _ res =>
      v.event = none ∧ v.blocked = false ∧ (v.reason = .signaled ↔ res = true)

/-- The action is none of the task's own: it does not block it or clear its reason,
and creates it only where nothing ran before. -/
def Action.Spares (u : Tid) (p : Pc) : Action → Prop
  | .create i _ => u = .user i → p = .user
  | .block t _ _ _ => u ≠ t
  | .clear t => u ≠ t
  | _ => True

/-- The action changes a count or an effective priority. -/
def Action.Adjusts : Action → Prop
  | .setEff _ _ => True
  | .held _ _ => True
  | _ => False

/-- Only the sections of a mutex adjust, -/
theorem Action.Adjusts.inSection {h : ℕ} (ha : a.Adjusts) : a.InSection (.mutex h) t := by
  cases a with
  | setEff u q => exact ⟨h, rfl⟩
  | held u n => exact ⟨h, rfl⟩
  | _ => exact absurd ha id

/-- and such an action spares every task -/
theorem Action.Adjusts.spares (ha : a.Adjusts) : a.Spares u p := by
  cases a with
  | setEff | held => trivial
  | _ => exact absurd ha id

/-- and wakes none. -/
theorem Action.Adjusts.ne_wake (ha : a.Adjusts) (l : EventList) (u : Tid) :
    a ≠ .wake l u := by
  rintro rfl
  exact ha

/-- Observations of a section that only adjusts. -/
theorem obsFit_adjusts (ha : ∀ a ∈ acts, a.Adjusts) (hx : ∀ ob ∈ obs, ob.object = x)
    (ht : ∀ ob ∈ obs, ∀ u, ob.actor = some u → u = t) (hh : ∀ l u, Obs.handed l u ∉ obs) :
    ObsFit x t acts obs := by
  refine ⟨hx, ht, fun l u => ?_⟩
  constructor
  · exact fun hmem => absurd hmem (hh l u)
  · exact fun hmem => absurd rfl ((ha _ hmem).ne_wake l u)

/-- Being woken releases a waiting task, and does nothing to another one. -/
theorem TaskOk.wake {l : EventList} (h : TaskOk v p) : TaskOk (v.after u (.wake l t)) p := by
  simp only [View.after]
  split
  · rename_i hc
    have hquiet : ¬ Quiet v := fun hq => by simp [hq.1] at hc
    cases p with
    | user => exact absurd h hquiet
    | request w =>
        cases w with
        | none => exact absurd h hquiet
        | some w => exact Or.inr ⟨rfl, rfl, by simp⟩
    | resume w => exact Or.inr ⟨rfl, rfl, by simp⟩
    | semClear h' res =>
        have he := h.1
        simp [he] at hc
  · exact h

/-- Expiring releases a waiting task, ends a plain delay, and does nothing to a task
that is not blocked. -/
theorem TaskOk.expire (h : TaskOk v p) : TaskOk (v.after u (.expire t)) p := by
  simp only [View.after]
  split
  · rename_i hc
    cases p with
    | user => exact ⟨rfl, by simp⟩
    | request w =>
        cases w with
        | none => exact ⟨rfl, by simp⟩
        | some w => exact Or.inr ⟨rfl, rfl, by simp⟩
    | resume w => exact Or.inr ⟨rfl, rfl, by simp⟩
    | semClear h' res =>
        have hb := h.2.1
        simp [hb] at hc
  · exact h

/-- **What other tasks and interrupts do to a task fits its point.** -/
theorem TaskOk.after (h : TaskOk v p) (ha : a.Spares u p) : TaskOk (v.after u a) p := by
  cases a with
  | create i q =>
      by_cases hu : u = .user i
      · have hp := ha hu
        subst hp
        simp only [View.after, hu, if_true]
        exact ⟨h.1, by simp⟩
      · simpa [View.after, hu] using h
  | block t' w obj inf =>
      have hne : u ≠ t' := ha
      simpa [View.after, hne] using h
  | clear t' =>
      have hne : u ≠ t' := ha
      simpa [View.after, hne] using h
  | wake l t' => exact h.wake
  | expire t' => exact h.expire
  | setEff t' q =>
      simp only [View.after]
      split
      · cases p with
        | request w => cases w <;> exact h
        | _ => exact h
      · exact h
  | held t' n =>
      simp only [View.after]
      split
      · cases p with
        | request w => cases w <;> exact h
        | _ => exact h
      · exact h
  | _ => exact h

/-- The same for a sequence of actions. -/
theorem TaskOk.foldl (h : TaskOk v p) (ha : ∀ a ∈ acts, a.Spares u p) :
    TaskOk (acts.foldl (View.after u) v) p := by
  induction acts generalizing v with
  | nil => exact h
  | cons a acts ih =>
      exact ih (h.after (ha a List.mem_cons_self)) fun b hb => ha b (List.mem_cons_of_mem _ hb)

/-! ## Steps of a task -/

/-- **The point at which a section leaves its task**: outside every call, about to
wait in the list in which it has just blocked, or with the outcome of a take. -/
inductive Ends (x : Object) (t : Tid) (o : Outcome) : Prop
  | user (hpc : o.pc = .user)
  | request (hpc : o.pc = .request none)
  | block {w : WaitPoint} (hpc : o.pc = .request (some w))
      (hobs : o.obs = [.blocked (some t) w.list])
      (hreason : (o.kernel.sched.view t).reason ≠ .signaled)
  | read {h : ℕ} {res : Bool} (hx : x = .sem h) (hpc : o.pc = .semClear h res)

/-- **What every function guarantees when the running task `t` executes one of its
sections**: a section of its object, after which the view of the task fits the point
it has reached; and a task that blocked is about to request a switch. -/
structure TaskStep (cfg : Config) (x : Object) (t : Tid) (k : Kernel) (o : Outcome) :
    Prop where
  sec : ∃ acts, Section cfg x t k o.kernel acts o.obs ∧
    ((∃ w obj inf, Action.block t w obj inf ∈ acts) → ∃ r, o.pc = .request r)
  own : TaskOk (o.kernel.sched.view t) o.pc
  valid : ∀ w, o.pc.point = some w → w.Valid o.kernel ∧ w.list.object = x
  ends : Ends x t o

/-- The view of a task that can block. -/
theorem InTask.view {k : Sched} (h : InTask cfg k t) :
    (k.view t).event = none ∧ (k.view t).blocked = false := by
  refine ⟨h.can.event, ?_⟩
  show k.inBlockedList t = false
  simp [inBlockedList, h.can.state]

/-- A section that does not touch the scheduler. -/
theorem TaskStep.still {o : Outcome} (hI : InTask cfg k.sched t)
    (hr : (k.sched.tcb t).waitReason ≠ .signaled) (hpc : o.pc = .user ∨ o.pc = .request none)
    (hsec : Section cfg x t k o.kernel [] o.obs) : TaskStep cfg x t k o := by
  have hview : o.kernel.sched.view t = k.sched.view t :=
    Moves.view hI.inv hI.delay hsec.moves t
  refine ⟨⟨[], hsec, by simp⟩, ?_, ?_, hpc.elim .user .request⟩
  · rw [hview]
    rcases hpc with hpc | hpc <;> rw [hpc] <;> exact ⟨hI.view.1, hr⟩
  · rcases hpc with hpc | hpc <;> simp [hpc, Pc.point]

/-- A section that wakes other tasks or changes priorities and counts, but neither
blocks the caller nor clears its reason, leaves it quiet. -/
theorem TaskStep.spare {o : Outcome} (hI : InTask cfg k.sched t)
    (hr : (k.sched.tcb t).waitReason ≠ .signaled) (hpc : o.pc = .user ∨ o.pc = .request none)
    (hsec : Section cfg x t k o.kernel acts o.obs) (ha : ∀ a ∈ acts, a.Spares t .user) :
    TaskStep cfg x t k o := by
  have hview := Moves.view hI.inv hI.delay hsec.moves t
  have hquiet : TaskOk (k.sched.view t) .user := ⟨hI.view.1, hr⟩
  refine ⟨⟨acts, hsec, ?_⟩, ?_, ?_, hpc.elim .user .request⟩
  · rintro ⟨w, obj, inf, hmem⟩
    exact absurd rfl (ha _ hmem)
  · rw [hview]
    rcases hpc with hpc | hpc <;> rw [hpc] <;> exact hquiet.foldl ha
  · rcases hpc with hpc | hpc <;> simp [hpc, Pc.point]

/-- A change of counts and priorities changes no reason. -/
theorem View.foldl_adjusts_reason (ha : ∀ a ∈ acts, a.Adjusts) :
    (acts.foldl (View.after t) v).reason = v.reason := by
  induction acts generalizing v with
  | nil => rfl
  | cons a acts ih =>
      have haa := ha a List.mem_cons_self
      rw [List.foldl_cons, ih fun b hb => ha b (List.mem_cons_of_mem _ hb)]
      cases a with
      | setEff | held =>
          simp only [View.after]
          split <;> rfl
      | _ => exact absurd haa id

/-- A section in which the caller blocks at the wait point `w`. -/
theorem TaskStep.block {o : Outcome} (hI : InTask cfg k.sched t)
    (hr : (k.sched.tcb t).waitReason ≠ .signaled) {w : WaitPoint} {tick : ℕ} {inf : Bool}
    {rest : List Action} (hpc : o.pc = .request (some w)) (hv : w.Valid k)
    (hx : w.list.object = x) (hobs : o.obs = [.blocked (some t) w.list])
    (hsec : Section cfg x t k o.kernel (.block t tick (some w.list) inf :: rest) o.obs)
    (ha : ∀ a ∈ rest, a.Adjusts) : TaskStep cfg x t k o := by
  have hview := Moves.view hI.inv hI.delay hsec.moves t
  rw [List.foldl_cons] at hview
  refine ⟨⟨_, hsec, fun _ => ⟨_, hpc⟩⟩, ?_, ?_, .block hpc hobs ?_⟩
  · rw [hview]
    refine TaskOk.foldl ?_ fun a hmem => ?_
    · rw [hpc]
      exact Or.inl ⟨by simp [View.after], by simp [View.after],
        by simpa [View.after, Sched.view] using hr⟩
    · exact (ha a hmem).spares
  · intro w' hw'
    rw [hpc] at hw'
    have hww : w = w' := by simpa [Pc.point] using hw'
    subst hww
    exact ⟨hsec.keep w hv, hx⟩
  · rw [hview, View.foldl_adjusts_reason ha]
    simpa [View.after, Sched.view] using hr

/-- Clearing the reason before a section. -/
theorem TaskStep.after_clear {o : Outcome} (hI : InTask cfg k.sched t)
    (h : TaskStep cfg x t { k with sched := k.sched.rtosClearCurrentWaitReason } o) :
    TaskStep cfg x t k o := by
  obtain ⟨⟨acts, hsec, hblock⟩, hown, hvalid, hends⟩ := h
  refine ⟨⟨.clear t :: acts, ⟨?_, ?_, ?_, ?_, hsec.sem, hsec.mutex, hsec.queue, ?_⟩, ?_⟩,
    hown, hvalid, hends⟩
  · exact Runs.Exec.trans hI.clear hsec.moves
  · intro a ha
    rcases List.mem_cons.mp ha with rfl | ha
    · rfl
    · exact hsec.acts_ok a ha
  · simpa [Action.isSetEff] using hsec.one_setEff
  · exact ⟨hsec.obs_ok.object, hsec.obs_ok.actor, by simpa using hsec.obs_ok.hands⟩
  · intro w hw
    refine hsec.keep w ?_
    cases w <;> exact hw
  · rintro ⟨w, obj, inf, hmem⟩
    refine hblock ⟨w, obj, inf, ?_⟩
    simpa using hmem

/-- After the reason is cleared the task can still block, and is quiet. -/
theorem InTask.cleared (hI : InTask cfg k.sched t) :
    InTask cfg k.sched.rtosClearCurrentWaitReason t ∧
      (k.sched.rtosClearCurrentWaitReason.tcb t).waitReason ≠ .signaled := by
  obtain ⟨hs, hd⟩ := hI.inv.moves hI.delay hI.clear
  have heq : k.sched.rtosClearCurrentWaitReason = k.sched.cleared t := by
    unfold rtosClearCurrentWaitReason
    rw [hI.can.cur]
    rfl
  rw [heq] at hs hd ⊢
  refine ⟨⟨⟨hs, hd⟩, ⟨hI.can.cur, hI.can.ne_idle, hI.can.state, hI.can.event, ?_⟩⟩, ?_⟩
  · rw [cleared_tcb, if_pos rfl]
    exact hI.can.owned
  · rw [cleared_tcb, if_pos rfl]
    simp

/-! ## The functions -/

/-- Waking the head of a list of the object. -/
theorem WakeEffect.inSection {k k' : Sched} {l : EventList} {wobs : List Obs} {g : Bool}
    (h : WakeEffect k l k' acts wobs g) (hx : l.object = x) :
    (∀ a ∈ acts, a.InSection x t ∧ a.Spares t .user) ∧
      (acts.filter Action.isSetEff).length ≤ 1 ∧ ObsFit x t acts wobs := by
  cases h with
  | empty hl => exact ⟨by simp, by simp, by constructor <;> simp⟩
  | head hl =>
      subst hx
      refine ⟨by simp [Action.InSection, Action.Spares], by simp [Action.isSetEff], ?_⟩
      constructor <;> simp

theorem afterWake_cases (g : Bool) : afterWake g = .user ∨ afterWake g = .request none := by
  cases g
  · exact Or.inl rfl
  · exact Or.inr rfl

/-- A function that may request a switch leaves its caller outside every wait. -/
theorem ite_request (c : Prop) [Decidable c] :
    (if c then Pc.request none else .user) = .user ∨
      (if c then Pc.request none else .user) = .request none := by
  split
  · exact Or.inr rfl
  · exact Or.inl rfl

/-- `artos_task_create`. -/
theorem taskCreateCall_step (hI : InTask cfg k.sched t)
    (hr : (k.sched.tcb t).waitReason ≠ .signaled)
    (entry argument stack stackWordCount priority : ℕ) :
    TaskStep cfg .none t k
      (taskCreateCall cfg k entry argument stack stackWordCount priority) := by
  unfold taskCreateCall
  rcases artosTaskCreate_cases hI.inv entry argument stack stackWordCount priority with
    ⟨status, heq⟩ | ⟨⟨hentry, hprio, hwords, hlt⟩, heq⟩
  · rw [heq]
    exact TaskStep.still hI hr (Or.inl rfl)
      (Section.of_sched Runs.Exec.nil (by simp) (by simp)
          (by constructor <;> simp))
  · rw [heq]
    have hspares : ∀ a ∈ [Action.create k.sched.taskCount priority], a.Spares t .user := by
      simp [Action.Spares]
    exact TaskStep.spare hI hr (ite_request _)
      (Section.of_sched (Runs.Exec.single (.create hentry hprio hwords hlt))
        (by simp [Action.InSection]) (by simp [Action.isSetEff])
        (by constructor <;> simp))
      hspares

/-- `artos_wait` and `artos_wait_until` block the caller in no list. -/
theorem TaskStep.delay {s : Sched} {tick : ℕ} {inf : Bool} (hI : InTask cfg k.sched t)
    (hr : (k.sched.tcb t).waitReason ≠ .signaled)
    (hm : Moves cfg k.sched [.block t tick none inf] s) :
    TaskStep cfg .none t k ⟨{ k with sched := s }, .request none, []⟩ := by
  have hview := Moves.view hI.inv hI.delay hm t
  refine ⟨⟨_, Section.of_sched hm (by simp [Action.InSection]) (by simp [Action.isSetEff])
    (by constructor <;> simp), fun _ => ⟨_, rfl⟩⟩, ?_, by simp [Pc.point], .request rfl⟩
  rw [hview]
  exact ⟨by simp [View.after], by simpa [View.after, Sched.view] using hr⟩

theorem artosWait_step (hI : InTask cfg k.sched t)
    (hr : (k.sched.tcb t).waitReason ≠ .signaled) {n : ℕ} (hlt : n < 4294967296) :
    TaskStep cfg .none t k (artosWait k n) := by
  unfold artosWait
  split
  · rename_i hpos
    refine TaskStep.delay hI hr (hI.block none ?_)
    intro hinf
    have hinf' : n ≠ artosDelayInfinity := by simpa using hinf
    rw [if_neg hinf', Nat.add_comm]
    exact blockTick_add hI.delay (by omega) hlt hinf' false rfl
  · exact TaskStep.still hI hr (Or.inr rfl)
      (Section.of_sched Runs.Exec.nil (by simp) (by simp) (by constructor <;> simp))

theorem artosWaitUntil_step (hI : InTask cfg k.sched t)
    (hr : (k.sched.tcb t).waitReason ≠ .signaled) {w : ℕ} (hlt : w < 4294967296) :
    TaskStep cfg .none t k (artosWaitUntil k w) := by
  unfold artosWaitUntil
  simp only
  split
  · rename_i hdelta
    refine TaskStep.delay hI hr (hI.block none fun _ => ⟨hlt, ?_⟩)
    rintro rfl
    have hzero : u32 (k.sched.ticks + 4294967296 - k.sched.ticks) = 0 := by
      rw [Nat.add_sub_cancel_left]
      rfl
    exact hdelta.1 hzero
  · exact TaskStep.still hI hr (Or.inr rfl)
      (Section.of_sched Runs.Exec.nil (by simp) (by simp) (by constructor <;> simp))

/-- The non-blocking part of a take. -/
theorem TakeEffect.section {h : ℕ} {o : Option Tid} (he : TakeEffect k h o k' obs)
    (ho : ∀ u, o = some u → u = t) : Section cfg (.sem h) t k k' [] obs := by
  cases he with
  | refuse hzero =>
      exact Section.of_sched Runs.Exec.nil (by simp) (by simp)
        ⟨by simp, by simpa using ho, by simp⟩
  | take hsem hne =>
      exact Section.of_sem Runs.Exec.nil (by simp) (by simp)
        ⟨by simp, by simpa using ho, by simp⟩ rfl _

theorem TakeSection.step {h : ℕ} {o : Outcome} (hI : InTask cfg k.sched t)
    (hr : (k.sched.tcb t).waitReason ≠ .signaled) (hs : TakeSection cfg k h t o) :
    TaskStep cfg (.sem h) t k o := by
  cases hs with
  | now he => exact TaskStep.still hI hr (Or.inl rfl) (he.section fun u hu => Option.some.inj hu.symm)
  | block hsem hzero hm =>
      refine TaskStep.block (w := .sem h) hI hr rfl ?_ rfl rfl
        (Section.of_sched hm ?_ (by simp [Action.isSetEff]) ?_) (by simp)
      · simp [WaitPoint.Valid, hsem]
      · simp [Action.InSection, WaitPoint.list, EventList.object]
      · constructor <;> simp [WaitPoint.list]

/-- A signal. -/
theorem SignalEffect.section {h : ℕ} {g : Bool} (he : SignalEffect k h k' acts obs g) :
    Section cfg (.sem h) t k k' acts obs ∧ ∀ a ∈ acts, a.Spares t .user := by
  cases he with
  | invalid hsem =>
      exact ⟨Section.of_sched Runs.Exec.nil (by simp) (by simp)
          (by constructor <;> simp),
        by simp⟩
  | full hsem hne hfull =>
      exact ⟨Section.of_sched Runs.Exec.nil (by simp) (by simp)
          (by constructor <;> simp),
        by simp⟩
  | store hsem hroom hempty =>
      exact ⟨Section.of_sem Runs.Exec.nil (by simp) (by simp)
          (by constructor <;> simp) rfl _,
        by simp⟩
  | hand hsem hzero hl =>
      exact ⟨Section.of_sched (Runs.Exec.single (.wake hl))
        (by simp [Action.InSection, EventList.object]) (by simp [Action.isSetEff])
        (by constructor <;> simp), by simp [Action.Spares]⟩

theorem artosSemaphoreSignal_step (hI : InTask cfg k.sched t)
    (hr : (k.sched.tcb t).waitReason ≠ .signaled) (h : ℕ) :
    TaskStep cfg (.sem h) t k (artosSemaphoreSignal cfg k h) := by
  obtain ⟨acts, g, he, hpc⟩ := artosSemaphoreSignal_effect hI.toReady h
  obtain ⟨hsec, ha⟩ : Section cfg (.sem h) t k _ acts _ ∧ ∀ a ∈ acts, a.Spares t .user :=
    he.section
  exact TaskStep.spare hI hr (by rw [hpc]; exact afterWake_cases g) hsec ha

/-- A successful enqueue. -/
theorem PutEffect.section {h : ℕ} {g : Bool} (he : PutEffect cfg k h k' acts obs g) :
    Section cfg (.queue h) t k k' acts obs ∧ ∀ a ∈ acts, a.Spares t .user := by
  cases he with
  | put hq hroom hw =>
      obtain ⟨ha, hone, hobs⟩ := hw.inSection (t := t) (x := .queue h) rfl
      refine ⟨Section.of_queue hw.moves (fun a h' => (ha a h').1) hone ?_ rfl _,
        fun a h' => (ha a h').2⟩
      exact hobs.cons rfl (by simp) (by simp)

/-- A successful dequeue. -/
theorem GetEffect.section {h : ℕ} {g : Bool} (he : GetEffect cfg k h k' acts obs g) :
    Section cfg (.queue h) t k k' acts obs ∧ ∀ a ∈ acts, a.Spares t .user := by
  cases he with
  | get hq hne hw =>
      obtain ⟨ha, hone, hobs⟩ := hw.inSection (t := t) (x := .queue h) rfl
      refine ⟨Section.of_queue hw.moves (fun a h' => (ha a h').1) hone ?_ rfl _,
        fun a h' => (ha a h').2⟩
      exact hobs.cons rfl (by simp) (by simp)

theorem EnqueueSection.step {h : ℕ} {o : Outcome} (hI : InTask cfg k.sched t)
    (hr : (k.sched.tcb t).waitReason ≠ .signaled) {data : List UInt8} {w : ℕ}
    {inf : Bool} {excused : Prop} (hs : EnqueueSection cfg k h t data w inf excused o) :
    TaskStep cfg (.queue h) t k o := by
  cases hs with
  | refuse =>
      exact TaskStep.still hI hr (Or.inl rfl)
        (Section.of_sched Runs.Exec.nil (by simp) (by simp)
          (by constructor <;> simp))
  | block hq hfull hw hp hm =>
      refine TaskStep.block hI hr rfl ?_ rfl rfl
        (Section.of_sched hm ?_ (by simp [Action.isSetEff]) ?_) (by simp)
      · simp [WaitPoint.Valid, hq, hw]
      · simp [Action.InSection, WaitPoint.list, EventList.object]
      · constructor <;> simp [WaitPoint.list]
  | put he =>
      obtain ⟨hsec, ha⟩ := he.section (t := t)
      exact TaskStep.spare hI hr (afterWake_cases _) hsec ha

theorem DequeueSection.step {h : ℕ} {o : Outcome} (hI : InTask cfg k.sched t)
    (hr : (k.sched.tcb t).waitReason ≠ .signaled) {w : ℕ} {inf : Bool}
    {excused : Prop} (hs : DequeueSection cfg k h t w inf excused o) :
    TaskStep cfg (.queue h) t k o := by
  cases hs with
  | refuse =>
      exact TaskStep.still hI hr (Or.inl rfl)
        (Section.of_sched Runs.Exec.nil (by simp) (by simp)
          (by constructor <;> simp))
  | block hq hempty hw hp hm =>
      refine TaskStep.block hI hr rfl ?_ rfl rfl
        (Section.of_sched hm ?_ (by simp [Action.isSetEff]) ?_) (by simp)
      · simp [WaitPoint.Valid, hq, hw]
      · simp [Action.InSection, WaitPoint.list, EventList.object]
      · constructor <;> simp [WaitPoint.list]
  | get he =>
      obtain ⟨hsec, ha⟩ := he.section (t := t)
      exact TaskStep.spare hI hr (afterWake_cases _) hsec ha

/-- Raising an owner's priority. -/
theorem BoostEffect.adjusts {k k' : Sched} {o : Tid} {q : ℕ}
    (he : BoostEffect k o q k' acts) :
    (∀ a ∈ acts, a.Adjusts) ∧ (acts.filter Action.isSetEff).length ≤ 1 := by
  cases he with
  | keep hle => simp
  | raise hlt => exact ⟨by simp [Action.Adjusts], le_rfl⟩

theorem LockSection.step {h : ℕ} {o : Outcome} (hI : InTask cfg k.sched t)
    (hr : (k.sched.tcb t).waitReason ≠ .signaled) (hs : LockSection cfg k h t o) :
    TaskStep cfg (.mutex h) t k o := by
  cases hs with
  | refuse =>
      exact TaskStep.still hI hr (Or.inl rfl)
        (Section.of_sched Runs.Exec.nil (by simp) (by simp)
          (by constructor <;> simp))
  | acquire hm hown hheld =>
      exact TaskStep.spare hI hr (Or.inl rfl)
        (Section.of_mutex (Runs.Exec.single .held) (by simp [Action.InSection])
          (by simp [Action.isSetEff]) (by constructor <;> simp) rfl _)
        (by simp [Action.Spares])
  | @block m o w inf k₁ k₂ acts hm hown hne hheld hb hi =>
      have hs₁ := (hI.inv.moves hI.delay hb).1
      obtain ⟨hbase, hlt, -⟩ := hs₁.rtosMutexRequiredPriority_spec o (.mutexLock h)
      obtain ⟨ha, hone⟩ := hi.adjusts
      refine TaskStep.block (w := .mutex h) hI hr rfl ?_ rfl rfl
        (Section.of_sched (hb.trans (hi.moves hbase hlt)) ?_ ?_ ?_) ha
      · simp [WaitPoint.Valid, hm]
      · intro a h'
        rcases List.mem_cons.mp h' with rfl | h'
        · simp [Action.InSection, WaitPoint.list, EventList.object]
        · exact (ha a h').inSection
      · simpa [Action.isSetEff] using hone
      · refine ⟨by simp, by simp, fun l u => ?_⟩
        have hno : Action.wake l u ∉ acts := fun h' => (ha _ h').ne_wake l u rfl
        simp [hno]

/-- Giving up a mutex. -/
theorem RelinquishEffect.adjusts {k k' : Sched} {b : Bool}
    (he : RelinquishEffect k t k' acts b) :
    (∀ a ∈ acts, a.Adjusts) ∧ (acts.filter Action.isSetEff).length ≤ 1 := by
  cases he with
  | keep hkeep => simp [Action.Adjusts, Action.isSetEff]
  | drop hlast hne => exact ⟨by simp [Action.Adjusts], le_rfl⟩

theorem UnlockSection.step {h : ℕ} {o : Outcome} (hI : InTask cfg k.sched t)
    (hr : (k.sched.tcb t).waitReason ≠ .signaled) (hs : UnlockSection cfg k h t o) :
    TaskStep cfg (.mutex h) t k o := by
  cases hs with
  | refuse =>
      exact TaskStep.still hI hr (Or.inl rfl)
        (Section.of_sched Runs.Exec.nil (by simp) (by simp)
          (by constructor <;> simp))
  | release hm hown hrel hl =>
      obtain ⟨ha, hone⟩ := hrel.adjusts
      exact TaskStep.spare hI hr (ite_request _)
        (Section.of_mutex (hrel.moves hI.inv) (fun a h' => (ha a h').inSection) hone
          (obsFit_adjusts ha (by simp) (by simp) (by simp)) rfl _)
        fun a h' => (ha a h').spares
  | @hand m k₁ acts changed w rest hm hown hrel hl =>
      obtain ⟨ha, hone⟩ := hrel.adjusts
      have hl₁ : k₁.eventL.elems (.mutexLock h) = w :: rest := by
        rw [hrel.eventL hI.can.event, hl]
      have hmoves := (hrel.moves hI.inv).trans
        (Runs.Exec.snoc (Runs.Exec.single (.wake hl₁))
          (.held (t := w) (n := (k₁.tcb w).mutexesHeld + 1)))
      have hmem : ∀ a ∈ acts ++ ([.wake (.mutexLock h) w] ++
          [.held w ((k₁.tcb w).mutexesHeld + 1)]),
          a.InSection (.mutex h) t ∧ a.Spares t .user := by
        intro a h'
        rcases List.mem_append.mp h' with h' | h'
        · exact ⟨(ha a h').inSection, (ha a h').spares⟩
        · simp only [List.singleton_append, List.mem_cons, List.not_mem_nil, or_false] at h'
          rcases h' with rfl | rfl
          · exact ⟨rfl, trivial⟩
          · exact ⟨⟨h, rfl⟩, trivial⟩
      refine TaskStep.spare hI hr (ite_request _)
        (Section.of_mutex hmoves (fun a h' => (hmem a h').1) ?_ ?_ rfl _)
        fun a h' => (hmem a h').2
      · simpa [Action.isSetEff] using hone
      · refine ⟨by simp, by simp, fun l u => ?_⟩
        have hno : Action.wake l u ∉ acts := fun h' => (ha _ h').ne_wake l u rfl
        simp [hno]

/-- Lowering an owner's priority. -/
theorem DisinheritEffect.adjusts {k k' : Sched} {o : Option Tid} {q : ℕ}
    (he : DisinheritEffect k o q k' acts) :
    (∀ a ∈ acts, a.Adjusts) ∧ (acts.filter Action.isSetEff).length ≤ 1 := by
  cases he with
  | keep => simp
  | drop ho hheld hlt => exact ⟨by simp [Action.Adjusts], le_rfl⟩

theorem LockResumeSection.step {h : ℕ} {o : Outcome} (hI : InTask cfg k.sched t)
    (hs : LockResumeSection k h t o) : TaskStep cfg (.mutex h) t k o := by
  obtain ⟨hI', hr⟩ := hI.cleared
  refine TaskStep.after_clear hI ?_
  cases hs with
  | granted hres =>
      exact TaskStep.still hI' hr (Or.inl rfl)
        (Section.of_sched Runs.Exec.nil (by simp) (by simp)
          (by constructor <;> simp))
  | timedOut hm hres hd =>
      obtain ⟨ha, hone⟩ := hd.adjusts
      exact TaskStep.spare hI' hr (Or.inl rfl)
        (Section.of_sched (hd.moves hI'.inv) (fun a h' => (ha a h').inSection) hone
          (obsFit_adjusts ha (by simp) (by simp) (by simp)))
        fun a h' => (ha a h').spares

end Artos
