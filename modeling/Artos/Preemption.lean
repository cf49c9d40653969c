/-
# Preemption

Which states leave the processor to the right task.  A state is calm for its current task
if nobody has asked for a switch and nobody is about to (`Sys.Calm`); then no ready task
should rank above the current one (`Sched.Tops`), and above the idle task every task ranks.

Every operation decides by a comparison of its own whether to ask for a switch.  All these
decisions are right but two.  An unlock that hands the mutex over forgets that it may have
lowered the priority of its caller (`Forgets`), and an interrupt-safe call compares the
priority of the task it wakes with the priority 0 of the idle task (`Overlooks`).  Every
other step keeps the law (`Step.promptFor`).
-/
import Artos.ServiceOrder

open Function

namespace Artos

open Sched

variable {cfg : Config} {k k₁ k' : Sched} {t u c : Tid} {l : EventList} {p : ℕ}
  {acts : List Action} {obs : List Obs} {s s' : Sys} {e : Event} {g : Bool} {o : Outcome}

/-! ## Nothing ready above a task -/

/-- **No ready task ranks above the task `c`**; above the idle task every task ranks. -/
def Sched.Tops (k : Sched) (c : Tid) : Prop :=
  ∀ u p, k.stateL.container u = some (.ready p) → c ≠ .idle ∧ p ≤ k.eff c

/-- From `k` to `k'` nothing becomes ready above the task `t`, whose priority does not
fall. -/
structure Sched.KeepsTop (k : Sched) (t : Tid) (k' : Sched) : Prop where
  eff : k.eff t ≤ k'.eff t
  ready : ∀ u p, k'.stateL.container u = some (.ready p) →
    (∃ q, p ≤ q ∧ k.stateL.container u = some (.ready q)) ∨ p ≤ k'.eff t

theorem KeepsTop.tops (h : k.KeepsTop t k') (ht : t ≠ .idle) (hk : k.Tops t) :
    k'.Tops t := by
  intro u p hu
  refine ⟨ht, ?_⟩
  rcases h.ready u p hu with ⟨q, hpq, hq⟩ | hle
  · exact hpq.trans ((hk u q hq).2.trans h.eff)
  · exact hle

theorem KeepsTop.trans (h₁ : k.KeepsTop t k₁) (h₂ : k₁.KeepsTop t k') : k.KeepsTop t k' := by
  refine ⟨h₁.eff.trans h₂.eff, fun u p hu => ?_⟩
  rcases h₂.ready u p hu with ⟨q, hpq, hq⟩ | hle
  · rcases h₁.ready u q hq with ⟨r, hqr, hr⟩ | hle
    · exact Or.inl ⟨r, hpq.trans hqr, hr⟩
    · exact Or.inr (hpq.trans (hle.trans h₂.eff))
  · exact Or.inr hle

/-- A change that leaves the state lists and the task's priority alone. -/
theorem KeepsTop.of_same (hst : k'.stateL = k.stateL) (he : k'.eff t = k.eff t) :
    k.KeepsTop t k' :=
  ⟨he.ge, fun _ p hu => Or.inl ⟨p, le_rfl, hst ▸ hu⟩⟩

theorem keepsTop_withHeld (n : ℕ) : k.KeepsTop t (k.withHeld u n) :=
  KeepsTop.of_same rfl (withHeld_eff n)

theorem keepsTop_cleared : k.KeepsTop t (k.cleared u) :=
  KeepsTop.of_same rfl cleared_eff

/-- A task that becomes ready at no higher priority. -/
theorem keepsTop_unblocked {w : Tid} (hle : k.eff w ≤ k.eff t) (reason : WaitReason) :
    k.KeepsTop t (k.unblocked w reason) := by
  refine ⟨(unblocked_eff _).ge, fun u p hu => ?_⟩
  rw [unblocked_container] at hu
  by_cases huw : u = w
  · rw [huw, update_self, Option.some.injEq, StateList.ready.injEq] at hu
    rw [unblocked_eff]
    exact Or.inr (hu ▸ hle)
  · rw [update_of_ne huw] at hu
    exact Or.inl ⟨p, le_rfl, hu⟩

/-- The priority of another task falls. -/
theorem keepsTop_withEff {v : Tid} (hne : t ≠ v) (hlt : p < k.eff v) :
    k.KeepsTop t (k.withEff v p) := by
  refine ⟨by rw [withEff_eff, if_neg hne], fun u q hu => ?_⟩
  rw [withEff_container] at hu
  split at hu
  · rename_i hr
    by_cases huv : u = v
    · subst huv
      rw [update_self, Option.some.injEq, StateList.ready.injEq] at hu
      exact Or.inl ⟨_, hu ▸ hlt.le, hr⟩
    · rw [update_of_ne huv] at hu
      exact Or.inl ⟨q, le_rfl, hu⟩
  · exact Or.inl ⟨q, le_rfl, hu⟩

/-- The current priority is that of the current task. -/
theorem currentEff_eq (hcur : k.curTask = some c) : k.rtosCurrentEffectivePriority = k.eff c := by
  unfold rtosCurrentEffectivePriority
  rw [hcur]

/-- **A wake-up that reports no higher priority leaves nothing above the current task.** -/
theorem WakeEffect.tops {wobs : List Obs} (he : WakeEffect k l k' acts wobs g)
    (hcur : k.curTask = some c) (hc : c ≠ .idle) (hg : g = false) (hk : k.Tops c) :
    k'.Tops c := by
  cases he with
  | empty hl => exact hk
  | head hl =>
      rw [currentEff_eq hcur, decide_eq_false_iff_not, not_lt] at hg
      exact KeepsTop.tops (keepsTop_unblocked hg _) hc hk

theorem SignalEffect.tops {k k' : Kernel} {j : ℕ} (he : SignalEffect k j k' acts obs g)
    (hcur : k.sched.curTask = some c) (hc : c ≠ .idle) (hg : g = false)
    (hk : k.sched.Tops c) : k'.sched.Tops c := by
  cases he with
  | invalid hsem => exact hk
  | full hsem hne hfull => exact hk
  | store hsem hroom hempty => exact hk
  | hand hsem hzero hl =>
      have hw : WakeEffect k.sched (.semWait j) _ _ _ _ := .head hl
      exact hw.tops hcur hc hg hk

/-! ## Calm states -/

/-- **Nobody has requested a switch, or is about to request one**: neither the current task
`c` nor a handler in progress. -/
structure Sys.Calm (s : Sys) (c : Tid) : Prop where
  cur : s.cur = some c
  pending : s.pending = false
  flags : ∀ g ∈ s.handlers, g = false
  pc : ∀ r, s.pc c ≠ .request r
  failure : s.sched.failure = none

/-- The interrupt-safe call passes its wake flag. -/
def IsrCall.flagged : IsrCall → Bool
  | .semaphoreTake _ => true
  | .semaphoreSignal _ flagged => flagged
  | .queueEnqueue _ _ flagged => flagged
  | .queueDequeue _ _ flagged => flagged

/-- **The handlers comply**: they pass their wake flag, and yield when it is true at the
end. -/
def Complies (s : Sys) : Event → Prop
  | .isrCall c => c.flagged = true
  | .isrReturn yield => s.handlers.head? = some true → yield = true
  | _ => True

instance (s : Sys) : (e : Event) → Decidable (Complies s e)
  | .isrCall _ => inferInstanceAs (Decidable (_ = _))
  | .isrReturn _ => inferInstanceAs (Decidable (_ → _))
  | .bootCreate .. => isTrue trivial
  | .start => isTrue trivial
  | .call _ => isTrue trivial
  | .resume => isTrue trivial
  | .tick => isTrue trivial
  | .switch _ _ => isTrue trivial
  | .isrEnter => isTrue trivial

/-- A step of a machine whose handlers comply. -/
def compliantStep (cfg : Config) (s : Sys) (e : Event) : Option (Sys × List Obs) :=
  if Complies s e then step cfg s e else none

/-- What an executable run of compliant steps computes is a run of compliant steps. -/
theorem compliant_of_runSteps {s₀ : Sys} {es : List Event} {r : List Label × Sys}
    (h : Runs.runSteps (compliantStep cfg) s₀ es = some r) :
    Runs.Exec (fun s b s' => Step cfg s b s' ∧ Complies s b.1) s₀ r.1 r.2 := by
  refine (Runs.exec_of_runSteps (compliantStep cfg) es s₀ r h).mono fun s b s' hs => ?_
  unfold compliantStep at hs
  split at hs
  · rename_i hc
    exact ⟨hs, hc⟩
  · simp at hs

/-- **The unlock lowers the priority of its caller below that of a ready task, and hands the
mutex over to a task that does not rank above the caller either.** -/
def Forgets (s : Sys) (t : Tid) (e : Event) : Prop :=
  ∃ j m w rest, e = .call (.mutexUnlock j) ∧ s.running = some t ∧ s.pc t = .user ∧
    s.kernel.mutex j = some m ∧ m.owner = some t ∧ (s.sched.tcb t).mutexesHeld = 1 ∧
    s.sched.eventL.elems (.mutexLock j) = w :: rest ∧
    s.sched.eff w ≤ (s.sched.tcb t).priority ∧
    ∃ u p, s.sched.stateL.container u = some (.ready p) ∧ (s.sched.tcb t).priority < p

/-- The task that an interrupt-safe call unblocks, if any. -/
def IsrCall.wakes (k : Kernel) : IsrCall → Option Tid
  | .semaphoreTake _ => none
  | .semaphoreSignal h _ =>
      (k.sem h).bind fun sem =>
        if sem.count = 0 then (k.sched.eventL.elems (.semWait h)).head? else none
  | .queueEnqueue h data _ =>
      (k.queue h).bind fun q =>
        if data.isNone ∨ q.count = q.capacity then none
        else (k.sched.eventL.elems (.queueRead h)).head?
  | .queueDequeue h dst _ =>
      (k.queue h).bind fun q =>
        if dst = false ∨ q.count = 0 then none
        else (k.sched.eventL.elems (.queueWrite h)).head?

/-- **The interrupt-safe call wakes a task of priority 0 while the idle task is current**, and
nobody has requested a switch. -/
def Overlooks (s : Sys) (e : Event) : Prop :=
  s.Calm .idle ∧ ∃ c w, e = .isrCall c ∧ c.wakes s.kernel = some w ∧ s.sched.eff w = 0

/-- In a calm state of a current task of the kind `P` nothing ready ranks above it. -/
def PromptFor (P : Tid → Prop) (s : Sys) : Prop :=
  ∀ c, P c → s.Calm c → s.sched.Tops c

/-! ## The sections of the running task -/

/-- After a wake-up the task goes on outside the kernel only if no higher priority was
reported. -/
theorem afterWake_calm (hpc : ∀ r, afterWake g ≠ .request r) : g = false := by
  cases g with
  | false => rfl
  | true => exact absurd rfl (hpc none)

/-- The kernel in which a pass starts has the same ready tasks. -/
theorem PassStart.tops {k : Kernel} (hk : PassStart s t k) (ht : t ≠ .idle)
    (hs : s.sched.Tops t) : k.sched.Tops t := by
  rcases hk with ⟨-, rfl⟩ | ⟨-, rfl⟩
  · exact hs
  · exact KeepsTop.tops keepsTop_cleared ht hs

/-- **The sections of a queue.** -/
theorem TaskEvent.tops_queue (h : Inv cfg s) (hI : InTask cfg s.sched t) {j : ℕ}
    (hsrc : TaskEvent cfg s t e (.queue j) o) (hpc : ∀ r, o.pc ≠ .request r)
    (hs : s.sched.Tops t) : o.kernel.sched.Tops t := by
  have ht := hI.can.ne_idle
  obtain ⟨k, hIk, hk, ⟨data, w, inf, -, hsec⟩ | ⟨w, inf, -, hsec⟩⟩ := hsrc.queue h hI
  · cases hsec with
    | refuse hwhy => exact hk.tops ht hs
    | block hq hfull hw hp hm => exact absurd rfl (hpc _)
    | put he =>
        cases he with
        | put hq hroom hw => exact hw.tops hIk.can.cur ht (afterWake_calm hpc) (hk.tops ht hs)
  · cases hsec with
    | refuse hwhy => exact hk.tops ht hs
    | block hq hempty hw hp hm => exact absurd rfl (hpc _)
    | get he =>
        cases he with
        | get hq hne hw => exact hw.tops hIk.can.cur ht (afterWake_calm hpc) (hk.tops ht hs)

/-- **The sections of a semaphore.** -/
theorem TaskEvent.tops_sem (hI : InTask cfg s.sched t) {j : ℕ}
    (hsrc : TaskEvent cfg s t e (.sem j) o) (hpc : ∀ r, o.pc ≠ .request r)
    (hs : s.sched.Tops t) : o.kernel.sched.Tops t := by
  have ht := hI.can.ne_idle
  rcases hsrc.sem hI with ⟨n, -, -, hsec⟩ | ⟨-, -, acts, g, he, hend⟩ | ⟨-, -, rfl⟩ |
    ⟨res, -, -, rfl⟩
  · cases hsec with
    | now he => cases he <;> exact hs
    | block hsem hzero hm => exact absurd rfl (hpc _)
  · rw [hend] at hpc
    exact he.tops hI.can.cur ht (afterWake_calm hpc) hs
  · exact hs
  · exact KeepsTop.tops keepsTop_cleared ht hs

/-- **An unlock that does not forget to ask for a switch.** -/
theorem UnlockSection.tops (hI : InTask cfg s.sched t) {j : ℕ}
    (hsec : UnlockSection cfg s.kernel j t o) (hrun : s.running = some t)
    (hpc₀ : s.pc t = .user) (hno : ¬ Forgets s t (.call (.mutexUnlock j)))
    (hpc : ∀ r, o.pc ≠ .request r) (hs : s.sched.Tops t) : o.kernel.sched.Tops t := by
  have ht := hI.can.ne_idle
  cases hsec with
  | refuse hno => exact hs
  | @release m k₁ acts changed hm hown hr hl =>
      cases hr with
      | keep hkeep => exact KeepsTop.tops (keepsTop_withHeld _) ht hs
      | drop hlast hne => exact absurd rfl (hpc none)
  | @hand m k₁ acts changed w rest hm hown hr hl =>
      -- the new owner does not rank above the caller
      have hle : k₁.eff w ≤ k₁.eff t := by
        by_contra hlt
        exact absurd (if_pos (not_le.mp hlt)) (hpc none)
      have htop₁ : k₁.Tops t := by
        cases hr with
        | keep hkeep => exact KeepsTop.tops (keepsTop_withHeld _) ht hs
        | drop hlast hne =>
            intro u p hu
            refine ⟨ht, ?_⟩
            rw [withEff_eff, if_pos rfl]
            by_contra hlt
            have hwt : w ≠ t := hI.can.ne_waiting (ListStore.container_of_head hl)
            rw [withEff_eff, if_neg hwt, withEff_eff, if_pos rfl, withHeld_eff] at hle
            refine hno ⟨j, m, w, rest, rfl, hrun, hpc₀, hm, hown, hlast, hl, hle, u, p, ?_,
              not_le.mp hlt⟩
            have hnr : ¬ (s.sched.withHeld t ((s.sched.tcb t).mutexesHeld - 1)).IsReady t := by
              unfold IsReady
              rw [show (s.sched.withHeld t _).stateL.container t = none from hI.can.state]
              simp
            rw [withEff_container, if_neg hnr] at hu
            exact hu
      have hkeep : k₁.KeepsTop t ((k₁.unblocked w .signaled).withHeld w
          ((k₁.tcb w).mutexesHeld + 1)) :=
        KeepsTop.trans (keepsTop_unblocked hle _) (keepsTop_withHeld _)
      exact KeepsTop.tops hkeep ht htop₁

/-- **The end of a lock that timed out** lowers at most the priority of another task. -/
theorem LockResumeSection.tops (hI : InTask cfg s.sched t) {j : ℕ}
    (hsec : LockResumeSection s.kernel j t o)
    (hown : ∀ m, s.kernel.mutex j = some m → (s.sched.tcb t).waitReason ≠ .signaled →
      m.owner ≠ some t)
    (hs : s.sched.Tops t) : o.kernel.sched.Tops t := by
  have ht := hI.can.ne_idle
  have htop : s.sched.rtosClearCurrentWaitReason.Tops t := by
    rw [hI.clear_eq]
    exact KeepsTop.tops keepsTop_cleared ht hs
  cases hsec with
  | granted hres => exact htop
  | @timedOut m k₁ acts hm hres hd =>
      cases hd with
      | keep => exact htop
      | @drop v ho hheld hlt =>
          have hvt : t ≠ v := by
            rintro rfl
            exact hown m hm hres ho
          exact KeepsTop.tops (keepsTop_withEff hvt hlt) ht htop

/-- **The sections of a mutex.** -/
theorem TaskEvent.tops_mutex (h : Inv cfg s) (hI : InTask cfg s.sched t) {j : ℕ}
    (hrun : s.running = some t) (hsrc : TaskEvent cfg s t e (.mutex j) o)
    (hno : ¬ Forgets s t e)
    (hown : ∀ m, s.pc t = .resume (.mutex j) → s.kernel.mutex j = some m →
      (s.sched.tcb t).waitReason ≠ .signaled → m.owner ≠ some t)
    (hpc : ∀ r, o.pc ≠ .request r) (hs : s.sched.Tops t) : o.kernel.sched.Tops t := by
  have ht := hI.can.ne_idle
  rcases hsrc.mutex h hI with ⟨n, -, -, hsec⟩ | ⟨rfl, hpc₀, hsec⟩ | ⟨-, hpc₀, hsec⟩
  · cases hsec with
    | refuse => exact hs
    | acquire hm hown hheld => exact KeepsTop.tops (keepsTop_withHeld _) ht hs
    | block hm hown hne hheld hb hi => exact absurd rfl (hpc _)
  · exact hsec.tops hI hrun hpc₀ hno hpc hs
  · exact hsec.tops hI (fun m => hown m hpc₀) hs

/-- **The sections of no object**: of these only a task creation goes on without a request. -/
theorem TaskEvent.tops_none (hI : InTask cfg s.sched t)
    (hsrc : TaskEvent cfg s t e .none o) (hpc : ∀ r, o.pc ≠ .request r)
    (hs : s.sched.Tops t) : o.kernel.sched.Tops t := by
  have ht := hI.can.ne_idle
  generalize hx : Object.none = x at hsrc
  cases hsrc with
  | @call c hpc₀ =>
      cases c with
      | taskCreate entry argument stack n q =>
          simp only [callStep, taskCreateCall] at hpc ⊢
          rcases artosTaskCreate_cases hI.inv entry argument stack n.toNat q.toNat with
            ⟨status, heq⟩ | ⟨-, heq⟩
          · rw [heq]
            exact hs
          · rw [heq] at hpc ⊢
            simp only [hI.can.cur, decide_eq_true_eq] at hpc ⊢
            have hle : q.toNat ≤ s.sched.eff t := by
              by_contra hlt
              exact absurd (if_pos (not_le.mp hlt)) (hpc none)
            have hne : t ≠ .user s.sched.taskCount := by
              rintro rfl
              have hlt := hI.inv.cur_lt _ hI.can.cur
              omega
            have heff : (s.sched.withTask entry argument stack n.toNat q.toNat).eff t =
                s.sched.eff t := by
              unfold Sched.eff
              rw [withTask_tcb_of_ne _ _ _ _ _ hne]
            intro u p hu
            refine ⟨ht, ?_⟩
            rw [heff]
            rw [withTask_container _ _ _ _ _ hI.inv] at hu
            by_cases huc : u = .user s.sched.taskCount
            · rw [huc, update_self, Option.some.injEq, StateList.ready.injEq] at hu
              exact hu ▸ hle
            · rw [update_of_ne huc] at hu
              exact (hs u p hu).2
      | yield => exact absurd rfl (hpc none)
      | wait n =>
          refine absurd ?_ (hpc none)
          simp only [callStep, artosWait]
          split <;> rfl
      | waitUntil w =>
          refine absurd ?_ (hpc none)
          simp only [callStep, artosWaitUntil]
          split <;> rfl
      | _ => simp [Call.object] at hx
  | @resume w hpc₀ => cases w <;> simp [WaitPoint.list, EventList.object] at hx
  | finish hpc₀ => simp at hx

/-! ## The idle task -/

/-- The base priority changes only when a task is created. -/
theorem View.foldl_base {v : View} (hc : ∀ i q, Action.create i q ∈ acts → t ≠ .user i) :
    (acts.foldl (View.after t) v).base = v.base := by
  induction acts generalizing v with
  | nil => rfl
  | cons a acts ih =>
      have hone : (v.after t a).base = v.base := by
        cases a with
        | create i q => simp [View.after, hc i q List.mem_cons_self]
        | _ =>
            simp only [View.after]
            try split <;> rfl
      rw [List.foldl_cons, ih fun i q hmem => hc i q (List.mem_cons_of_mem _ hmem)]
      exact hone

theorem Step.base_idle (h : Inv cfg s) {b : Label} (hs : Step cfg s b s') :
    (s'.sched.tcb .idle).priority = (s.sched.tcb .idle).priority := by
  obtain ⟨e, obs⟩ := b
  obtain ⟨acts, hm⟩ := (step_kind h hs).moves
  have hview := Moves.view h.ready.inv h.ready.delay hm .idle
  have hbase : (s'.sched.view .idle).base = (s.sched.view .idle).base := by
    rw [hview]
    exact View.foldl_base (by simp)
  exact hbase

/-- **The idle task keeps priority 0**: it never owns a mutex. -/
theorem Reachable.idle_eff (h : Reachable cfg s) : s.sched.eff .idle = 0 := by
  have hI := h.inv
  have hbase : (s.sched.tcb .idle).priority = 0 := by
    obtain ⟨s₀, tr, h₀, hr⟩ := h
    have hboth := hr.invariant (I := fun s => Inv cfg s ∧ (s.sched.tcb .idle).priority = 0)
      (fun _ _ _ hI hs => ⟨hI.1.step hs, (Step.base_idle hI.1 hs).trans hI.2⟩)
      ⟨h₀.inv, by rw [h₀.sched]; rfl⟩
    exact hboth.2
  have hheld : (s.sched.tcb .idle).mutexesHeld = 0 := by
    have hnone : OwnedBy s.kernel .idle = ∅ := by
      refine Set.eq_empty_of_forall_notMem fun j hj => ?_
      obtain ⟨i, hi, -⟩ := hI.mutexes.owner .idle j hj
      simp at hi
    have hcount := hI.mutexes.count .idle
    rw [hnone, Set.encard_empty] at hcount
    exact_mod_cast hcount.symm
  rw [h.prioInv.rested .idle hheld, hbase]

/-- A task that timed out in a lock does not own the mutex. -/
theorem Reachable.timedOut_owner (h : Reachable cfg s) {j : ℕ} {m : Mutex}
    (hpc : s.pc t = .resume (.mutex j)) (hm : s.kernel.mutex j = some m)
    (hr : (s.sched.tcb t).waitReason ≠ .signaled) : m.owner ≠ some t := by
  obtain ⟨s₀, tr, h₀, hrun⟩ := h
  intro hown
  refine hr (((Run.custody h₀ hrun j t).waiter ?_).mp ⟨m, hm, hown⟩)
  rw [hpc]
  rfl

/-! ## One step -/

/-- **After a dispatch nothing ready ranks above the dispatched task.** -/
theorem Move.dispatch_tops (h : SInv cfg k) (hm : Move cfg k (.dispatch t) k') :
    k'.Tops t := by
  cases hm with
  | @dispatch t p hall htop =>
      have heff : k.eff t = p := h.ready_prio t p htop.container
      intro u q hu
      have hold : k.stateL.container u = some (.ready q) := by
        have hu' : (k.stateL.remove t).container u = some (.ready q) := hu
        rw [ListStore.remove_container] at hu'
        by_cases hut : u = t
        · rw [hut, update_self] at hu'
          simp at hu'
        · rwa [update_of_ne hut] at hu'
      refine ⟨?_, ?_⟩
      · rintro rfl
        have hc := htop.container
        rw [h.idle_state] at hc
        simp at hc
      · show q ≤ k.eff t
        by_contra hlt
        have hmem := (k.stateL.mem_elems _ u).mpr hold
        rw [htop.above q (by omega)] at hmem
        simp at hmem
  | dispatchIdle hall hnone =>
      intro u q hu
      have hmem := (k.stateL.mem_elems _ u).mpr hu
      rw [hnone q] at hmem
      simp at hmem

/-- A wake-up by a handler, with its wake flag. -/
theorem WakeEffect.woken {wobs : List Obs} (he : WakeEffect k l k' acts wobs g)
    (flagged woken : Bool) :
    ((k.eventL.elems l).head? = none ∧ k' = k ∧ (woken || (flagged && g)) = woken ∧
      wobs = []) ∨
    ∃ w l', (k.eventL.elems l).head? = some w ∧ (k.eventL.elems l').head? = some w ∧
      k' = k.unblocked w .signaled ∧ (woken || (flagged && g)) =
        (woken || (flagged && decide (k.eff w > k.rtosCurrentEffectivePriority))) ∧
      wobs = [.handed l' w] := by
  cases he with
  | empty hl => exact Or.inl ⟨by rw [hl]; rfl, rfl, by simp, rfl⟩
  | @head w rest hl =>
      have hhead : (k.eventL.elems l).head? = some w := by rw [hl]; rfl
      exact Or.inr ⟨w, l, hhead, hhead, rfl, rfl, rfl⟩

/-- **What a call of a handler does to the scheduler**: it wakes the task `IsrCall.wakes`
names, and sets the wake flag if that task ranks above the current one. -/
theorem isrCallStep_wakes (h : Inv cfg s) (woken : Bool) (x : IsrCall) :
    (x.wakes s.kernel = none ∧ (isrCallStep cfg s.kernel woken x).kernel.sched = s.sched ∧
      (isrCallStep cfg s.kernel woken x).gtTaskWoken = woken ∧
      ∀ l u, Obs.handed l u ∉ (isrCallStep cfg s.kernel woken x).obs) ∨
    ∃ w l, x.wakes s.kernel = some w ∧ (s.sched.eventL.elems l).head? = some w ∧
      (isrCallStep cfg s.kernel woken x).kernel.sched = s.sched.unblocked w .signaled ∧
      (isrCallStep cfg s.kernel woken x).gtTaskWoken =
        (woken || (x.flagged && decide (s.sched.eff w > s.sched.rtosCurrentEffectivePriority))) ∧
      ∀ l' u, Obs.handed l' u ∈ (isrCallStep cfg s.kernel woken x).obs ↔ l' = l ∧ u = w := by
  have hv : ∀ j q, s.kernel.queue j = some q → q.Valid := fun j q hq => (h.queues j q hq).valid
  cases x with
  | semaphoreTake j =>
      left
      simp only [isrCallStep, artosSemaphoreTakeIsr]
      split
      · exact ⟨rfl, rfl, rfl, by simp⟩
      · split <;> exact ⟨rfl, rfl, rfl, by simp⟩
  | semaphoreSignal j flagged =>
      obtain ⟨acts, g, he, hw⟩ := artosSemaphoreSignalIsr_effect h.ready j flagged woken
      simp only [isrCallStep, IsrCall.wakes, IsrCall.flagged]
      rw [hw]
      revert he
      generalize (artosSemaphoreSignalIsr cfg s.kernel j flagged woken).obs = obs'
      generalize (artosSemaphoreSignalIsr cfg s.kernel j flagged woken).kernel = k'
      intro he
      cases he with
      | invalid hsem => exact Or.inl ⟨by simp [hsem], rfl, by simp, by simp⟩
      | full hsem hne hfull => exact Or.inl ⟨by simp [hsem, hne], rfl, by simp, by simp⟩
      | store hsem hroom hempty =>
          refine Or.inl ⟨?_, rfl, by simp, by simp⟩
          simp only [hsem, Option.bind_some]
          split
          · rename_i hzero
            rw [hempty hzero]
            rfl
          · rfl
      | @hand sem w rest hsem hzero hl =>
          exact Or.inr ⟨w, .semWait j, by simp [hsem, hzero, hl], by rw [hl]; rfl, rfl, rfl,
            by simp⟩
  | queueEnqueue j data flagged =>
      simp only [isrCallStep, IsrCall.wakes, IsrCall.flagged, artosQueueEnqueueFromIsr]
      rcases hq : s.kernel.queue j with _ | q
      · exact Or.inl ⟨rfl, rfl, rfl, by simp⟩
      rcases data with _ | data
      · exact Or.inl ⟨by simp, rfl, rfl, by simp⟩
      simp only [rtosQueueAssertValid_eq (hv j q hq), Option.bind_some, Option.isNone_some,
        Bool.false_eq_true, false_or]
      by_cases hfull : q.count = q.capacity
      · rw [if_pos hfull, if_pos hfull]
        exact Or.inl ⟨rfl, rfl, rfl, by simp⟩
      · rw [if_neg hfull, if_neg hfull]
        obtain ⟨acts, he⟩ := wakeHead_effect h.ready.inv (.queueRead j)
        rcases he.woken flagged woken with ⟨hn, hk, hg, hob⟩ | ⟨w, l, hn, hl, hk, hg, hob⟩
        · exact Or.inl ⟨hn, hk, hg, by simp [hob]⟩
        · exact Or.inr ⟨w, l, hn, hl, hk, hg, by simp [hob]⟩
  | queueDequeue j dst flagged =>
      simp only [isrCallStep, IsrCall.wakes, IsrCall.flagged, artosQueueDequeueFromIsr]
      rcases hq : s.kernel.queue j with _ | q
      · exact Or.inl ⟨rfl, rfl, rfl, by simp⟩
      rcases dst with _ | _
      · exact Or.inl ⟨by simp, rfl, rfl, by simp⟩
      simp only [rtosQueueAssertValid_eq (hv j q hq), Option.bind_some, Bool.true_eq_false,
        false_or]
      by_cases hempty : q.count = 0
      · rw [if_pos hempty, if_pos hempty]
        exact Or.inl ⟨rfl, rfl, rfl, by simp⟩
      · rw [if_neg hempty, if_neg hempty]
        obtain ⟨acts, he⟩ := wakeHead_effect h.ready.inv (.queueWrite j)
        rcases he.woken flagged woken with ⟨hn, hk, hg, hob⟩ | ⟨w, l, hn, hl, hk, hg, hob⟩
        · exact Or.inl ⟨hn, hk, hg, by simp [hob]⟩
        · exact Or.inr ⟨w, l, hn, hl, hk, hg, by simp [hob]⟩

/-- **A call of a handler** whose wake flag stays false leaves nothing ready above the current
task, if that is not the idle task or no task of priority 0 was woken. -/
theorem isrCallStep_tops (h : Inv cfg s) (hcur : s.cur = some c) {woken : Bool} (x : IsrCall)
    (hx : x.flagged = true) (hflag : (isrCallStep cfg s.kernel woken x).gtTaskWoken = false)
    (hidle : c = .idle → s.sched.eff .idle = 0 ∧
      ∀ w, x.wakes s.kernel = some w → s.sched.eff w ≠ 0)
    (hs : s.sched.Tops c) : (isrCallStep cfg s.kernel woken x).kernel.sched.Tops c := by
  rcases isrCallStep_wakes h woken x with ⟨-, hsame, -⟩ | ⟨w, l, hw, -, hk, hg, -⟩
  · rw [hsame]
    exact hs
  · rw [hg, hx, currentEff_eq hcur] at hflag
    simp only [Bool.true_and, Bool.or_eq_false_iff, decide_eq_false_iff_not, not_lt,
      gt_iff_lt] at hflag
    rw [hk]
    by_cases hc : c = .idle
    · subst hc
      obtain ⟨hzero, hpos⟩ := hidle rfl
      have hle : s.sched.eff w ≤ s.sched.eff .idle := hflag.2
      have hne := hpos w hw
      omega
    · exact KeepsTop.tops (keepsTop_unblocked hflag.2 _) hc hs

/-- A wake flag is only ever set. -/
theorem isrCallStep_woken (h : Inv cfg s) {woken : Bool} (x : IsrCall)
    (hflag : (isrCallStep cfg s.kernel woken x).gtTaskWoken = false) : woken = false := by
  rcases isrCallStep_wakes h woken x with ⟨-, -, hg, -⟩ | ⟨w, l, -, -, -, hg, -⟩
  · rw [← hg, hflag]
  · rw [hg, Bool.or_eq_false_iff] at hflag
    exact hflag.1

/-! ## One step -/

/-- **Nothing ready ranks above the current task** when the check against it fails. -/
theorem Sched.SInv.tops_of_check (h : SInv cfg k) (hidle : k.eff .idle = 0)
    (hcheck : k.rtosCheckRunnableTask (some c) = false) : k.Tops c := by
  intro u p hu
  have hlt : p < k.eff c := by
    by_contra hle
    have hyes := (h.checkRunnable_iff (some c)).mpr ⟨u, p, not_lt.mp hle, hu⟩
    rw [hcheck] at hyes
    simp at hyes
  refine ⟨?_, hlt.le⟩
  rintro rfl
  omega

/-- Who is calm after a step of the running task was calm before it, and is that task. -/
theorem Sys.Calm.of_finish {x : Object} (hrun : s.running = some t) (hI : InTask cfg s.sched t)
    (hsrc : TaskEvent cfg s t e x o) (hstep : TaskStep cfg x t s.kernel o)
    (hc : (s.finish t o).Calm c) : c = t ∧ s.Calm t ∧ ∀ r, o.pc ≠ .request r := by
  obtain ⟨hcur, hpend, hnil, hfail, -⟩ := running_eq hrun
  obtain ⟨acts, hsec, -⟩ := hstep.sec
  obtain rfl : t = c := by
    have hsame : o.kernel.sched.curTask = s.sched.curTask :=
      Moves.curTask hsec.moves fun u ha => hsec.acts_ok _ ha
    have hcur' : o.kernel.sched.curTask = some c := hc.cur
    rw [hsame, hI.can.cur, Option.some.injEq] at hcur'
    exact hcur'
  have hpc₀ : ∀ r, s.pc t ≠ .request r := by
    cases hsrc <;> simp_all
  refine ⟨rfl, ⟨hcur, hpend, by simp [hnil], hpc₀, hfail⟩, fun r hr => hc.pc r ?_⟩
  show update s.pc t o.pc t = .request r
  rw [update_self, hr]

/-- **The sections of the running task**, whatever object they are about. -/
theorem TaskEvent.tops {x : Object} (h : Reachable cfg s) (hI : InTask cfg s.sched t)
    (hrun : s.running = some t) (hsrc : TaskEvent cfg s t e x o) (hno : ¬ Forgets s t e)
    (hpc : ∀ r, o.pc ≠ .request r) (hs : s.sched.Tops t) : o.kernel.sched.Tops t := by
  cases x with
  | none => exact hsrc.tops_none hI hpc hs
  | queue j => exact hsrc.tops_queue h.inv hI hpc hs
  | sem j => exact hsrc.tops_sem hI hpc hs
  | mutex j =>
      exact hsrc.tops_mutex h.inv hI hrun hno
        (fun m hres hm hr => h.timedOut_owner hres hm hr) hpc hs

/-- Who is calm after an interrupt-safe call was calm before it, and no flag is set. -/
theorem Sys.Calm.of_isrCall {x : IsrCall} {woken : Bool} {rest : List Bool} (h : Inv cfg s)
    (hh : s.handlers = woken :: rest)
    (hstep : IsrStep cfg x.object s.kernel (isrCallStep cfg s.kernel woken x))
    (hc : Sys.Calm { s with
      kernel := (isrCallStep cfg s.kernel woken x).kernel
      handlers := (isrCallStep cfg s.kernel woken x).gtTaskWoken :: rest } c) :
    s.Calm c ∧ (isrCallStep cfg s.kernel woken x).gtTaskWoken = false := by
  obtain ⟨acts, hsec, ha⟩ := hstep
  have hm := (hsec .idle).moves
  have hsame : (isrCallStep cfg s.kernel woken x).kernel.sched.curTask = s.cur := by
    refine Moves.curTask hm fun u hmem => ?_
    obtain ⟨l, w, hbe⟩ := ha _ hmem
    simp at hbe
  have hflag : (isrCallStep cfg s.kernel woken x).gtTaskWoken = false :=
    hc.flags _ List.mem_cons_self
  refine ⟨⟨hsame.symm.trans hc.cur, hc.pending, fun g hg => ?_, hc.pc,
    Moves.failure hm hc.failure⟩, hflag⟩
  rw [hh] at hg
  rcases List.mem_cons.mp hg with rfl | hg
  · exact isrCallStep_woken h x hflag
  · exact hc.flags g (List.mem_cons_of_mem _ hg)

/-- Who is calm after the return of a complying handler was calm before it: the handler
would have yielded had its flag been set. -/
theorem Sys.Calm.of_isrReturn {yield woken : Bool} {rest : List Bool}
    (hh : s.handlers = woken :: rest) (hcomply : Complies s (.isrReturn yield))
    (hc : Sys.Calm { s with handlers := rest, pending := s.pending || yield } c) : s.Calm c := by
  have hpend := hc.pending
  simp only [Bool.or_eq_false_iff] at hpend
  refine ⟨hc.cur, hpend.1, fun g hg => ?_, hc.pc, hc.failure⟩
  rw [hh] at hg
  rcases List.mem_cons.mp hg with rfl | hg
  · by_contra hg
    rw [Bool.not_eq_false] at hg
    subst hg
    have hyes : yield = true := hcomply (by rw [hh]; rfl)
    rw [hpend.2] at hyes
    simp at hyes
  · exact hc.flags g hg

/-- **One step keeps the law**, if the handlers comply, no task of the kind `P` forgets to
request a switch, and no interrupt overlooks that the idle task is of that kind. -/
theorem Step.promptFor {P : Tid → Prop} (h : Reachable cfg s) (hs : Step cfg s (e, obs) s')
    (hcomply : Complies s e) (hforget : ∀ t, P t → ¬ Forgets s t e)
    (hover : P .idle → ¬ Overlooks s e) (hp : PromptFor P s) : PromptFor P s' := by
  have hI := h.inv
  have hidle' : s'.sched.eff .idle = 0 := by
    obtain ⟨s₀, tr, h₀, hr⟩ := h
    exact Reachable.idle_eff ⟨s₀, _, h₀, hr.snoc hs⟩
  have hI' : SInv cfg s'.sched := (hI.step hs).ready.inv
  -- a dispatched task is the current one
  have hdispatched : ∀ c, Dispatches e s' c → s'.sched.Tops c := by
    intro c hd
    obtain ⟨pre, k₁, hm, -, -, hlast⟩ := hd.moves hI hs
    exact hlast.dispatch_tops (hI.ready.inv.moves hI.ready.delay hm).1
  intro c hc hcalm
  cases step_kind hI hs with
  | create hcur hm hacts =>
      -- before the start there is no current task
      have hnone := Moves.curTask hm (by rcases hacts with rfl | ⟨q, rfl⟩ <;> simp)
      have hcur' : s.sched.curTask = some c := hnone.symm.trans hcalm.cur
      exact absurd (hcur.symm.trans hcur') (by simp)
  | start hcur hm hacts hnext =>
      exact hdispatched c ⟨Or.inr rfl, hcalm.cur, hcalm.failure⟩
  | @task e t x o hrun hIn hsrc hstep =>
      obtain ⟨rfl, hcalm₀, hpc⟩ := Sys.Calm.of_finish hrun hIn hsrc hstep hcalm
      exact hsrc.tops h hIn hrun (hforget c hc) hpc (hp c hc hcalm₀)
  | request hrun hpc => simpa using hcalm.pending
  | @tick ts k hm hset =>
      -- the tick compares with the current task, and found no reason to switch
      have hpend := hcalm.pending
      simp only [Bool.or_eq_false_iff] at hpend
      have hcur : k.curTask = some c := hcalm.cur
      rw [hcur] at hpend
      exact hI'.tops_of_check hidle' hpend.2
  | switch hcur hpending hm hacts =>
      exact hdispatched c ⟨Or.inl ⟨_, _, rfl⟩, hcalm.cur, hcalm.failure⟩
  | isrEnter =>
      exact hp c hc ⟨hcalm.cur, hcalm.pending, fun g hg =>
        hcalm.flags g (List.mem_cons_of_mem _ hg), hcalm.pc, hcalm.failure⟩
  | @isrCall x woken rest hh hstep =>
      obtain ⟨hcalm₀, hflag⟩ := Sys.Calm.of_isrCall hI hh hstep hcalm
      refine isrCallStep_tops hI hcalm₀.cur x hcomply hflag (fun hci => ⟨h.idle_eff, ?_⟩)
        (hp c hc hcalm₀)
      subst hci
      intro w hw hzero
      exact hover hc ⟨hcalm₀, x, w, rfl, hw, hzero⟩
  | isrReturn hh => exact hp c hc (Sys.Calm.of_isrReturn hh hcomply hcalm)

end Artos
