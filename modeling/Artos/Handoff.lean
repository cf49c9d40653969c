/-
# Hand-overs and their discovery

A task that is woken as signaled learns of it later, from its wait reason.  This
module follows hand-overs through the history of a run:

* `granted l t` : since the task `t` last blocked in the list `l`, it was handed what
  it waits for;
* `Grants` : the wait reason of a task inside a blocking call says whether it was
  granted, and so does the result that a take has read from it.

Every step keeps `Grants`, whatever timeouts, priority changes and other hand-overs
come between.  The semaphores and the mutexes build on it.
-/
import Artos.Preserve
import Artos.History

open Function

namespace Artos

open Sched

variable {cfg : Config} {t u : Tid} {l : EventList} {acts : List Action}
  {obs obs₀ : List Obs} {s s' s₀ : Sys} {v : View} {p : Pc} {a : Action}

/-! ## Histories of runs -/

theorem observations_snoc (tr : List Label) (b : Label) :
    observations (tr ++ [b]) = observations tr ++ b.2 := by
  simp [observations]

/-- **The history rule.**  What holds of the empty history and the initial state, and
is kept by every kind of step, holds of the history and the end of every run. -/
theorem run_history {P : List Obs → Sys → Prop} (h₀ : Initial cfg s₀) (hinit : P [] s₀)
    (hstep : ∀ obs₀ s e obs s', Reachable cfg s → P obs₀ s → StepKind cfg s e obs s' →
      P (obs₀ ++ obs) s')
    {tr : List Label} (hr : Run cfg s₀ tr s) : P (observations tr) s := by
  have hboth := hr.trace_invariant
    (I := fun tr s => Run cfg s₀ tr s ∧ P (observations tr) s)
    (fun tr s b s' hI hs => ?_) ⟨Runs.Exec.nil, hinit⟩
  · exact hboth.2
  · have hreach : Reachable cfg s := ⟨s₀, tr, h₀, hI.1⟩
    refine ⟨Runs.Exec.snoc hI.1 hs, ?_⟩
    rw [observations_snoc]
    exact hstep _ _ _ _ _ hreach hI.2 (step_kind hreach.inv hs)

/-! ## Grants in the history -/

/-- Since it last blocked in the list, the task was handed what it waits for. -/
def granted (l : EventList) (t : Tid) (obs : List Obs) : Bool :=
  History.flag (fun ob => ob = .handed l t) (fun ob => ob = .blocked (some t) l) obs

/-- Observations about calls of other tasks grant exactly by handing over. -/
theorem granted_append (hobs : ∀ ob ∈ obs, ob.actor ≠ some t) :
    granted l t (obs₀ ++ obs) = true ↔
      granted l t obs₀ = true ∨ Obs.handed l t ∈ obs := by
  unfold granted
  rw [History.flag_append_of_not_down]
  · simp
  · intro ob hob
    rw [decide_eq_false_iff_not]
    rintro rfl
    exact hobs _ hob rfl

/-- A task that blocks starts without a grant. -/
theorem granted_blocked : granted l t (obs₀ ++ [Obs.blocked (some t) l]) = false := by
  simp [granted, History.flag_snoc, History.flagStep]

/-! ## Grants and wait reasons -/

/-- Inside a call that waits in the list, a task waits or has been released. -/
theorem TaskOk.waits (h : TaskOk v p) (hp : p.waitsOn = some l) : Waits v l ∨ Released v := by
  cases p with
  | request w =>
      cases w with
      | none => simp [Pc.waitsOn] at hp
      | some w =>
          have hl : w.list = l := by simpa [Pc.waitsOn] using hp
          exact hl ▸ h
  | resume w =>
      have hl : w.list = l := by simpa [Pc.waitsOn] using hp
      exact hl ▸ h
  | _ => simp [Pc.waitsOn] at hp

/-- A task that waits in a list is inside a call that waits in it. -/
theorem TaskOk.waitsOn (h : TaskOk v p) (hv : v.event = some l) : p.waitsOn = some l := by
  have hquiet : ¬ Quiet v := fun hq => by simp [hq.1] at hv
  have hreleased : ¬ Released v := fun hr => by simp [hr.1] at hv
  cases p with
  | user => exact absurd h hquiet
  | request w =>
      cases w with
      | none => exact absurd h hquiet
      | some w =>
          have hw := h.resolve_right hreleased
          exact hw.1.symm.trans hv
  | resume w =>
      have hw := h.resolve_right hreleased
      exact hw.1.symm.trans hv
  | semClear j res =>
      have he := h.1
      simp [he] at hv

/-- Inside a call that waits in the list, the reason becomes a signal by a wake alone. -/
theorem TaskOk.after_signaled (h : TaskOk v p) (hp : p.waitsOn = some l)
    (ha : a.Spares u p) (hwake : ∀ l', a = .wake l' u → v.event = some l') :
    (v.after u a).reason = .signaled ↔ v.reason = .signaled ∨ a = .wake l u := by
  cases a with
  | create i q =>
      have hne : u ≠ .user i := by
        intro hu
        rw [ha hu] at hp
        simp [Pc.waitsOn] at hp
      simp [View.after, hne]
  | block t' w obj inf =>
      have hne : u ≠ t' := ha
      simp [View.after, hne]
  | clear t' =>
      have hne : u ≠ t' := ha
      simp [View.after, hne]
  | wake l' t' =>
      by_cases hu : u = t'
      · subst hu
        have he := hwake l' rfl
        have hl : l' = l := by
          have hl' := h.waitsOn he
          rw [hp, Option.some.injEq] at hl'
          exact hl'.symm
        subst hl
        simp [View.after, he]
      · simp [View.after, hu, Ne.symm hu]
  | expire t' =>
      simp only [View.after]
      split
      · rename_i hc
        rcases h.waits hp with hw | hr
        · have hno := hw.2.2
          simp [hno]
        · have hb := hr.2.1
          simp [hb] at hc
      · simp
  | setEff | held =>
      simp only [View.after]
      split <;> simp
  | _ => simp [View.after]

section Moves

variable {k k' : Sched}

/-- Only the head of a list is woken. -/
theorem Move.wake_event (hm : Move cfg k (.wake l u) k') : (k.view u).event = some l := by
  cases hm with
  | wake hl => exact ListStore.container_of_head hl

/-- **A task inside a call that waits in the list is signaled exactly when it is woken
from that list.** -/
theorem Moves.signaled (hr : Ready cfg k) (hm : Moves cfg k acts k')
    (h : TaskOk (k.view u) p) (hp : p.waitsOn = some l) (ha : ∀ a ∈ acts, a.Spares u p) :
    (k'.view u).reason = .signaled ↔
      (k.view u).reason = .signaled ∨ Action.wake l u ∈ acts := by
  induction hm with
  | nil => simp
  | @snoc tr k₁ k₂ b hm hmove ih =>
      have hinit : ∀ a ∈ tr, a.Spares u p := fun a h' => ha a (List.mem_append_left _ h')
      have hok : TaskOk (k₁.view u) p := h.moves hr hm hinit
      have hb := ha b (List.mem_append_right _ (List.mem_singleton_self b))
      have hview := hmove.view (hr.inv.moves hr.delay hm).1 u
      rw [hview, hok.after_signaled hp hb (fun l' he => (he ▸ hmove : Move cfg k₁ _ k₂).wake_event),
        ih hinit, List.mem_append, List.mem_singleton, eq_comm (a := b), or_assoc]

/-- A task is woken only from the list in which it waits. -/
theorem Moves.woken_waitsOn (hr : Ready cfg k) (hm : Moves cfg k acts k')
    (h : TaskOk (k.view u) p) (ha : ∀ a ∈ acts, a.Spares u p)
    (hw : Action.wake l u ∈ acts) : p.waitsOn = some l := by
  induction hm with
  | nil => simp at hw
  | @snoc tr k₁ k₂ b hm hmove ih =>
      have hinit : ∀ a ∈ tr, a.Spares u p := fun a h' => ha a (List.mem_append_left _ h')
      have hok : TaskOk (k₁.view u) p := h.moves hr hm hinit
      rw [List.mem_append, List.mem_singleton] at hw
      rcases hw with hmem | rfl
      · exact ih hinit hmem
      · exact hok.waitsOn hmove.wake_event

end Moves

/-- **What the tasks read from their wait reasons is what they were granted.** -/
structure Grants (obs : List Obs) (s : Sys) : Prop where
  waits : ∀ u l, (s.pc u).waitsOn = some l →
    (granted l u obs = true ↔ (s.sched.tcb u).waitReason = .signaled)
  read : ∀ u j res, s.pc u = .semClear j res → granted (.semWait j) u obs = res

theorem afterRequest_waitsOn (r : Option WaitPoint) :
    (afterRequest r).waitsOn = (Pc.request r).waitsOn := by
  cases r <;> rfl

/-- **Every step keeps the grants.** -/
theorem StepKind.grants (h : Inv cfg s) (hg : Grants obs₀ s) {e : Event}
    (hs : StepKind cfg s e obs s') : Grants (obs₀ ++ obs) s' := by
  refine ⟨fun u l hp => ?_, fun u j res hp => ?_⟩
  · cases hs.stepOf h u with
    | spared hsp =>
        obtain ⟨acts, hm, ha, hh⟩ := hsp.moves
        rw [hsp.pc] at hp
        rw [granted_append hsp.actor, hg.waits u l hp, hh]
        exact (Moves.signaled h.ready hm (h.tasks u) hp ha).symm
    | @request r hrun hpc =>
        simp only [update_self, afterRequest_waitsOn] at hp
        rw [List.append_nil]
        exact hg.waits u l (by rw [hpc, hp])
    | @own e x o hrun hI hsrc hstep =>
        simp only [Sys.finish, update_self] at hp
        cases hstep.ends with
        | user hpc => simp [hpc, Pc.waitsOn] at hp
        | request hpc => simp [hpc, Pc.waitsOn] at hp
        | @block w hpc hobs hreason =>
            have hl : w.list = l := by simpa [hpc, Pc.waitsOn] using hp
            subst hl
            rw [hobs, granted_blocked]
            exact iff_of_false (by simp) hreason
        | read hx hpc => simp [hpc, Pc.waitsOn] at hp
  · cases hs.stepOf h u with
    | spared hsp =>
        obtain ⟨acts, hm, ha, hh⟩ := hsp.moves
        rw [hsp.pc] at hp
        rw [← hg.read u j res hp, Bool.eq_iff_iff, granted_append hsp.actor, hh]
        have hno : Action.wake (.semWait j) u ∉ acts := fun hw => by
          have hwaits := Moves.woken_waitsOn h.ready hm (h.tasks u) ha hw
          simp [hp, Pc.waitsOn] at hwaits
        simp [hno]
    | @request r hrun hpc =>
        simp only [update_self] at hp
        cases r <;> simp [afterRequest] at hp
    | @own e x o hrun hI hsrc hstep =>
        simp only [Sys.finish, update_self] at hp
        cases hstep.ends with
        | user hpc => simp [hpc] at hp
        | request hpc => simp [hpc] at hp
        | block hpc hobs hreason => simp [hpc] at hp
        | @read j' res' hx hpc =>
            have hj : j' = j := by
              rw [hpc] at hp
              simp only [Pc.semClear.injEq] at hp
              exact hp.1
            subst hj
            subst hx
            rcases hsrc.sem hI with ⟨n, -, -, hsec⟩ | ⟨-, -, acts, g, -, hw⟩ |
              ⟨-, hpc₀, rfl⟩ | ⟨res₀, -, -, rfl⟩
            · cases hsec <;> simp at hp
            · rw [hw] at hp
              rcases afterWake_cases g with hg | hg <;> simp [hg] at hp
            · have hres : decide ((s.sched.tcb u).waitReason = .signaled) = res := by
                simpa using hp
              rw [List.append_nil, ← hres, Bool.eq_iff_iff, decide_eq_true_iff]
              exact hg.waits u _ (by rw [hpc₀]; rfl)
            · simp at hp

/-- The history of a run says what its tasks will read. -/
theorem Run.grants (h₀ : Initial cfg s₀) {tr : List Label} (hr : Run cfg s₀ tr s) :
    Grants (observations tr) s := by
  refine run_history h₀ ?_ (fun _ _ _ _ _ hreach hg hs => hs.grants hreach.inv hg) hr
  exact ⟨fun u l hp => by simp [h₀.pc, Pc.waitsOn] at hp, fun u j res hp => by
    simp [h₀.pc] at hp⟩

end Artos
