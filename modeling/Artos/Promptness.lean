/-
# Prompt switches

What the law of `Preemption` says about whole runs.  In a run whose handlers comply, and
whose unlocks do not forget to request a switch, no preemption is missed
(`no_missed_preemption`); in one whose interrupts do not overlook the idle task, that task
does not run past ready work (`idle_not_past_ready`).  Both conditions are exact: a step that
breaks one of them breaks its law at once.
-/
import Artos.Preemption

open Function

namespace Artos

open Sched

variable {cfg : Config} {k k' : Sched} {t u c : Tid} {l : EventList} {p : ℕ}
  {acts : List Action} {obs : List Obs} {s s' : Sys} {e : Event} {g : Bool}

/-! ## Runs -/

/-- The machine before its first dispatch keeps the law. -/
theorem Initial.promptFor {P : Tid → Prop} (h : Initial cfg s) : PromptFor P s := by
  intro c _ hcalm
  have hcur : s.cur = none := by
    unfold Sys.cur
    rw [show s.kernel.sched = _ from h.sched]
    rfl
  exact absurd (hcur.symm.trans hcalm.cur) (by simp)

/-- The steps of a run in which the handlers comply, no task of the kind `P` forgets to
request a switch, and no interrupt overlooks an idle task of that kind. -/
def Attentive (cfg : Config) (P : Tid → Prop) (s : Sys) (b : Label) (s' : Sys) : Prop :=
  Step cfg s b s' ∧ Complies s b.1 ∧ (∀ t, P t → ¬ Forgets s t b.1) ∧
    (P .idle → ¬ Overlooks s b.1)

/-- **In an attentive run the law holds in every state.** -/
theorem Attentive.promptFor {P : Tid → Prop} (h₀ : Initial cfg s) {tr : List Label}
    (hr : Runs.Exec (Attentive cfg P) s tr s') : PromptFor P s' := by
  have hboth : Reachable cfg s' ∧ PromptFor P s' := by
    induction hr with
    | nil => exact ⟨⟨s, [], h₀, Runs.Exec.nil⟩, h₀.promptFor⟩
    | snoc _ hstep ih =>
        obtain ⟨hs, hcomply, hforget, hover⟩ := hstep
        refine ⟨?_, Step.promptFor ih.1 hs hcomply hforget hover ih.2⟩
        obtain ⟨s₀, tr, h₀, hr⟩ := ih.1
        exact ⟨s₀, _, h₀, hr.snoc hs⟩
  exact hboth.2

/-- **No task in the ready lists ranks above a user task that runs outside the kernel**,
while no switch is requested. -/
def Prompt (s : Sys) : Prop :=
  ∀ t, t ≠ .idle → s.Calm t → ∀ p, ∀ u ∈ s.sched.stateL.elems (.ready p),
    s.sched.eff u ≤ s.sched.eff t

theorem prompt_of_promptFor (h : Inv cfg s) (hp : PromptFor (· ≠ .idle) s) : Prompt s := by
  intro t ht hcalm p u hu
  have hc := ListStore.container_of_mem hu
  rw [h.ready.inv.ready_prio u p hc]
  exact (hp t ht hcalm u p hc).2

/-- The idle task makes no calls. -/
theorem Reachable.idle_pc (h : Reachable cfg s) : s.pc .idle = .user := by
  obtain ⟨s₀, tr, h₀, hr⟩ := h
  have hboth := hr.invariant (I := fun s => Inv cfg s ∧ s.pc .idle = .user) ?_
    ⟨h₀.inv, h₀.pc .idle⟩
  · exact hboth.2
  · rintro s₁ ⟨e, obs⟩ s₂ hI hs
    refine ⟨hI.1.step hs, ?_⟩
    have hne : ∀ t, s₁.running = some t → Tid.idle ≠ t := by
      rintro t hrun rfl
      obtain ⟨-, -, -, -, i, hi⟩ := running_eq hrun
      simp at hi
    have hold := hI.2
    cases step_kind hI.1 hs with
    | @task e t x o hrun hIn hsrc hstep =>
        show update s₁.pc t o.pc .idle = .user
        rw [update_of_ne (hne t hrun), hold]
    | @request t r hrun hpc =>
        show update s₁.pc t (afterRequest r) .idle = .user
        rw [update_of_ne (hne t hrun), hold]
    | _ => exact hold

/-- **The idle task runs only if no task is ready**: whenever it is the current task, no
handler runs and no switch is requested, every ready list is empty. -/
def IdleAlone (s : Sys) : Prop :=
  s.cur = some .idle → s.handlers = [] → s.pending = false → s.sched.failure = none →
    ∀ p, s.sched.stateL.elems (.ready p) = []

/-- Under the idle task the law says that no task is ready. -/
theorem no_ready_of_promptFor (hp : PromptFor (· = .idle) s) (hcalm : s.Calm .idle) (p : ℕ) :
    s.sched.stateL.elems (.ready p) = [] := by
  refine List.eq_nil_iff_forall_not_mem.mpr fun u hu => ?_
  exact (hp .idle rfl hcalm u p (ListStore.container_of_mem hu)).1 rfl

/-- **An interrupt that overlooks leaves a ready task under the idle task**, without a
request. -/
theorem Overlooks.ready (h : Reachable cfg s) (hs : Step cfg s (e, obs) s')
    (ho : Overlooks s e) : s'.Calm .idle ∧ ∃ p, s'.sched.stateL.elems (.ready p) ≠ [] := by
  have hI := h.inv
  obtain ⟨hcalm, x, w, rfl, hw, hzero⟩ := ho
  cases step_kind hI hs with
  | task hrun hIn hsrc hstep => cases hsrc
  | @isrCall x woken rest hh hstep =>
      rcases isrCallStep_wakes hI woken x with ⟨hnone, -⟩ | ⟨w', l, hw', hl, hk, hg, -⟩
      · rw [hnone] at hw
        simp at hw
      · obtain rfl : w' = w := Option.some.inj (hw'.symm.trans hw)
        rw [currentEff_eq hcalm.cur, hzero] at hg
        have hwoken : woken = false := hcalm.flags woken (by rw [hh]; exact List.mem_cons_self)
        refine ⟨⟨?_, hcalm.pending, fun g hmem => ?_, hcalm.pc, ?_⟩, s.sched.eff w', ?_⟩
        · show (isrCallStep cfg s.kernel woken x).kernel.sched.curTask = some .idle
          rw [hk]
          exact hcalm.cur
        · rcases List.mem_cons.mp hmem with rfl | hmem
          · rw [hg, hwoken]
            simp
          · exact hcalm.flags g (by rw [hh]; exact List.mem_cons_of_mem _ hmem)
        · show (isrCallStep cfg s.kernel woken x).kernel.sched.failure = none
          rw [hk]
          exact hcalm.failure
        · show (isrCallStep cfg s.kernel woken x).kernel.sched.stateL.elems _ ≠ []
          rw [hk]
          refine List.ne_nil_of_mem ((ListStore.mem_elems _ _ w').mpr ?_)
          rw [unblocked_container, update_self]

/-! ## No missed preemption -/

/-- An event other than an unlock forgets nothing. -/
theorem not_forgets (he : ∀ j, e ≠ .call (.mutexUnlock j)) (s : Sys) (t : Tid) :
    ¬ Forgets s t e := by
  rintro ⟨j, m, w, rest, rfl, -⟩
  exact he j rfl

/-- The event is an unlock. -/
def Event.isUnlock : Event → Bool
  | .call (.mutexUnlock _) => true
  | _ => false

/-- **The idle task does not run past ready work.**  Start from an initial state, let the
handlers comply, and let no interrupt overlook that the idle task is current: then whenever
the idle task is current, no handler runs and no switch is requested, every ready list is
empty.  An interrupt that overlooks leaves a ready task, and nothing that would ask for a
switch. -/
theorem idle_not_past_ready (h₀ : Initial cfg s) {tr : List Label}
    (hr : Runs.Exec (fun s b s' => Step cfg s b s' ∧ Complies s b.1 ∧ ¬ Overlooks s b.1)
      s tr s') :
    IdleAlone s' ∧ ∀ e obs s'', Step cfg s' (e, obs) s'' → Overlooks s' e →
      s''.Calm .idle ∧ ∃ p, s''.sched.stateL.elems (.ready p) ≠ [] := by
  have hreach : Reachable cfg s' := ⟨s, tr, h₀, hr.mono fun _ _ _ hs => hs.1⟩
  have hnot : ∀ (s : Sys) (e : Event), ¬ Forgets s .idle e := by
    rintro s e ⟨j, m, w, rest, -, hrun, -⟩
    obtain ⟨-, -, -, -, i, hi⟩ := running_eq hrun
    simp at hi
  have hlaw : PromptFor (· = .idle) s' :=
    Attentive.promptFor h₀ (hr.mono fun _ _ _ hs => ⟨hs.1, hs.2.1,
      fun t ht => ht ▸ hnot _ _, fun _ => hs.2.2⟩)
  refine ⟨fun hcur hnil hpend hfail p => ?_, fun e obs s'' hs ho => ho.ready hreach hs⟩
  exact no_ready_of_promptFor hlaw ⟨hcur, hpend, by simp [hnil], by simp [hreach.idle_pc],
    hfail⟩ p

/-- An event other than a call of a handler overlooks nothing. -/
theorem not_overlooks (he : ∀ x, e ≠ .isrCall x) (s : Sys) : ¬ Overlooks s e := by
  rintro ⟨-, x, w, rfl, -⟩
  exact he x rfl

/-- The event is a call of a handler. -/
def Event.isIsrCall : Event → Bool
  | .isrCall _ => true
  | _ => false

/-- Its only task delays, and the idle task runs. -/
def sleepingTask : List Label × Sys :=
  (Runs.runSteps (compliantStep smallConfig) smallBoot
    [createTask 1 0, .start, .call (.wait 5), .resume, switchFrom 1]).get (by decide +kernel)

theorem sleepingTask_run : Runs.Exec (fun s b s' => Step smallConfig s b s' ∧ Complies s b.1)
    smallBoot sleepingTask.1 sleepingTask.2 :=
  compliant_of_runSteps (Option.some_get _).symm

theorem idle_not_past_ready_sleepingTask :
    sleepingTask.2.cur = some .idle ∧ IdleAlone sleepingTask.2 ∧
      ∀ e obs s', Step smallConfig sleepingTask.2 (e, obs) s' → Overlooks sleepingTask.2 e →
        s'.Calm .idle ∧ ∃ p, s'.sched.stateL.elems (.ready p) ≠ [] := by
  have hno : ∀ b ∈ sleepingTask.1, b.1.isIsrCall = false := by decide +kernel
  refine ⟨by decide +kernel, idle_not_past_ready smallBoot_initial
    ((sleepingTask_run.restrict (Q := fun s b => ¬ Overlooks s b.1)
      fun b hb s => not_overlooks ?_ s).mono fun s b s' hs => ⟨hs.1.1, hs.1.2, hs.2⟩)⟩
  intro x hx
  have hb := hno b hb
  rw [hx] at hb
  simp [Event.isIsrCall] at hb

/-- A task of priority 0 waits for an item, the idle task runs, and an interrupt puts an item
in; its wake flag stays false. -/
def overlookedReader : List Label × Sys :=
  (Runs.runSteps (compliantStep smallConfig) smallBoot
    [createTask 1 0, .start, .call (.queueDequeue 0 true 0xFFFFFFFF), .resume, switchFrom 1,
      .isrEnter, .isrCall (.queueEnqueue 0 (some [7]) true), .isrReturn false]).get
    (by decide +kernel)

theorem overlookedReader_run :
    Runs.Exec (fun s b s' => Step smallConfig s b s' ∧ Complies s b.1) smallBoot
      overlookedReader.1 overlookedReader.2 :=
  compliant_of_runSteps (Option.some_get _).symm

/-- **The idle task is current though the reader is ready.** -/
theorem idle_past_ready_overlookedReader :
    Runs.Exec (fun s b s' => Step smallConfig s b s' ∧ Complies s b.1) smallBoot
        overlookedReader.1 overlookedReader.2 ∧
      overlookedReader.2.cur = some .idle ∧ overlookedReader.2.handlers = [] ∧
      overlookedReader.2.pending = false ∧ overlookedReader.2.sched.failure = none ∧
      overlookedReader.2.sched.stateL.elems (.ready 0) = [.user 0] ∧
      ¬ IdleAlone overlookedReader.2 := by
  have hcur : overlookedReader.2.cur = some .idle := by decide +kernel
  have hnil : overlookedReader.2.handlers = [] := by decide +kernel
  have hpend : overlookedReader.2.pending = false := by decide +kernel
  have hfail : overlookedReader.2.sched.failure = none := by decide +kernel
  have hready : overlookedReader.2.sched.stateL.elems (.ready 0) = [.user 0] := by
    decide +kernel
  refine ⟨overlookedReader_run, hcur, hnil, hpend, hfail, hready, fun hall => ?_⟩
  have hempty := hall hcur hnil hpend hfail 0
  rw [hready] at hempty
  simp at hempty

end Artos
