/-
# The wake flag of an interrupt handler

A handler passes the address of its wake flag to the calls it makes, and asks for a context
switch at its end when the flag is true.  While it is in progress the interrupted task and its
priority do not change, although other handlers may nest in it and ticks may come.  The flag is
true at the end exactly when it was true before, or a call has woken a task that ranks above the
interrupted one (`wake_flag_exact`).
-/
import Artos.Preemption

open Function

namespace Artos

open Sched

variable {cfg : Config} {s s' s₁ : Sys} {t u : Tid} {d p : ℕ} {w : Bool} {e : Event}
  {obs : List Obs} {tr : List Label}

/-! ## Handlers by their depth -/

/-- The wake flag of the handler that `d` other handlers in progress enclose. -/
def Sys.flag (s : Sys) (d : ℕ) : Option Bool := s.handlers.reverse[d]?

/-- The handler is in progress. -/
theorem flag_isSome : (∃ w, s.flag d = some w) ↔ d < s.handlers.length := by
  unfold Sys.flag
  rw [← Option.isSome_iff_exists]
  simp

/-- **A call of the handler wakes a task that ranks above `p`**, and passes the wake flag. -/
def Raises (d p : ℕ) (s : Sys) (y : Label) : Prop :=
  s.handlers.length = d + 1 ∧ ∃ c, y.1 = .isrCall c ∧ c.flagged = true ∧
    ∃ l u, Obs.handed l u ∈ y.2 ∧ p < s.sched.eff u

/-- What happens inside the innermost handler does not reach the flags of the others. -/
theorem flag_cons {a b : Bool} {hs : List Bool} (ha : s.handlers = a :: hs)
    (hb : s'.handlers = b :: hs) : s'.flag d = if d = hs.length then some b else s.flag d := by
  unfold Sys.flag
  rw [ha, hb, List.reverse_cons, List.reverse_cons]
  by_cases hd : d = hs.length
  · rw [if_pos hd, hd]
    simp
  · rw [if_neg hd]
    rcases lt_or_gt_of_ne hd with hlt | hgt
    · rw [List.getElem?_append_left (by simpa using hlt),
        List.getElem?_append_left (by simpa using hlt)]
    · rw [List.getElem?_eq_none (by simp; omega), List.getElem?_eq_none (by simp; omega)]

/-- A handler that starts or ends leaves the flags of the handlers that enclose it. -/
theorem flag_enclosing {a : Bool} {hs : List Bool} (hd : d < hs.length) :
    (a :: hs).reverse[d]? = hs.reverse[d]? := by
  rw [List.reverse_cons, List.getElem?_append_left (by simpa using hd)]

/-! ## Steps in a handler -/

/-- The processor switches tasks only outside handlers. -/
theorem switch_handlers {sp : ℕ} {guard : ℕ → ℕ} (hs : Step cfg s (.switch sp guard, obs) s') :
    s.handlers = [] := by
  simp only [Step, step] at hs
  split at hs
  · rename_i hc
    exact List.isEmpty_iff.mp hc.2.2.1
  · simp at hs

/-- Only a call of a handler raises a flag. -/
theorem not_raises (he : ∀ c, e ≠ .isrCall c) : ¬ Raises d p s (e, obs) :=
  fun ⟨_, c, hc, _⟩ => he c hc

/-- Moves that wake and expire tasks change no priority. -/
theorem Moves.eff_kept {k k' : Sched} {acts : List Action} (hr : Ready cfg k)
    (hm : Moves cfg k acts k') (ha : ∀ a ∈ acts, a.NoPrio)
    (hc : ∀ i q, Action.create i q ∉ acts) : k'.eff t = k.eff t := by
  obtain ⟨-, heff, -⟩ := View.foldl_noPrio (u := t) (v := k.view t) ha
    fun i q hmem => absurd hmem (hc i q)
  rw [← Moves.view hr.inv hr.delay hm t] at heff
  exact heff

/-- **A call of the innermost handler** sets its flag exactly if it raises it. -/
theorem isrCall_raises (h : Inv cfg s) (hcur : s.cur = some t) {c : IsrCall}
    (hd : s.handlers.length = d + 1) :
    (isrCallStep cfg s.kernel w c).gtTaskWoken = true ↔
      w = true ∨ Raises d (s.sched.eff t) s (.isrCall c, (isrCallStep cfg s.kernel w c).obs) := by
  rcases isrCallStep_wakes h w c with ⟨-, -, hg, hno⟩ | ⟨v, l, -, -, -, hg, hob⟩
  · rw [hg]
    exact ⟨Or.inl, fun hr => hr.resolve_right fun ⟨_, _, _, _, l, u, hob, _⟩ => hno l u hob⟩
  · rw [hg, currentEff_eq hcur, Bool.or_eq_true, Bool.and_eq_true, decide_eq_true_iff]
    refine or_congr_right ⟨fun ⟨hf, hlt⟩ => ?_, fun ⟨_, c', hc, hf, l', u, hob', hlt⟩ => ?_⟩
    · exact ⟨hd, c, rfl, hf, l, v, (hob l v).mpr ⟨rfl, rfl⟩, hlt⟩
    · obtain rfl := Event.isrCall.inj hc
      obtain ⟨-, rfl⟩ := (hob l' u).mp hob'
      exact ⟨hf, hlt⟩

/-- **A step while the handler is in progress** leaves the interrupted task and its priority, and
sets the flag of the handler exactly if it is a call that wakes a task above the interrupted
one. -/
theorem Step.flag (h : Inv cfg s) (hcur : s.cur = some t) (hs : Step cfg s (e, obs) s')
    (hw : s.flag d = some w) (hd' : d < s'.handlers.length) :
    s'.cur = some t ∧ s'.sched.eff t = s.sched.eff t ∧
      ∃ w', s'.flag d = some w' ∧
        (w' = true ↔ w = true ∨ Raises d (s.sched.eff t) s (e, obs)) := by
  have hd : d < s.handlers.length := flag_isSome.mp ⟨w, hw⟩
  have hsame : (∀ c, e ≠ .isrCall c) → s'.flag d = s.flag d →
      ∃ w', s'.flag d = some w' ∧
        (w' = true ↔ w = true ∨ Raises d (s.sched.eff t) s (e, obs)) :=
    fun he hf => ⟨w, hf.trans hw, ⟨Or.inl, fun hr => hr.resolve_right (not_raises he)⟩⟩
  have hhandlers : ∀ {u}, s.running = some u → False := by
    intro u hrun
    rw [(running_eq hrun).2.2.1] at hd
    simp at hd
  have hk := step_kind h hs
  cases hk with
  | create hcur' hm hacts =>
      rw [hcur] at hcur'
      simp at hcur'
  | start hcur' hm hacts hnext =>
      rw [hcur] at hcur'
      simp at hcur'
  | task hrun hI hsrc hstep => exact (hhandlers hrun).elim
  | request hrun hpc => exact (hhandlers hrun).elim
  | @tick ts k hm hset =>
      refine ⟨(Moves.curTask hm (by simp)).trans hcur, ?_, hsame (by simp) rfl⟩
      exact Moves.eff_kept h.ready hm (by simp [Action.NoPrio, Action.NoMutex]) (by simp)
  | switch hcur' hpending hm hacts =>
      rw [switch_handlers hs] at hd
      simp at hd
  | isrEnter => exact ⟨hcur, rfl, hsame (by simp) (flag_enclosing hd)⟩
  | @isrCall c woken rest hh hstep =>
      obtain ⟨acts, hsec, ha⟩ := hstep
      have hm := (hsec .idle).moves
      have hdisp : ∀ u, Action.dispatch u ∉ acts := fun u hu => by
        obtain ⟨l, v, he⟩ := ha _ hu
        simp at he
      have hcreate : ∀ i q, Action.create i q ∉ acts := fun i q hu => by
        obtain ⟨l, v, he⟩ := ha _ hu
        simp at he
      refine ⟨(Moves.curTask hm hdisp).trans hcur, ?_, ?_⟩
      · refine Moves.eff_kept h.ready hm (fun a hmem => ?_) hcreate
        obtain ⟨l, v, rfl⟩ := ha a hmem
        trivial
      · have hlen : s.handlers.length = rest.length + 1 := by rw [hh]; rfl
        have hafter : Sys.handlers { s with
            kernel := (isrCallStep cfg s.kernel woken c).kernel
            handlers := (isrCallStep cfg s.kernel woken c).gtTaskWoken :: rest } =
              (isrCallStep cfg s.kernel woken c).gtTaskWoken :: rest := rfl
        have hnow := flag_cons (d := d) hh hafter
        have hbefore := flag_cons (d := d) hh hh
        rw [hw] at hnow hbefore
        by_cases hdr : d = rest.length
        · rw [if_pos hdr] at hnow hbefore
          obtain rfl := Option.some.inj hbefore
          exact ⟨_, hnow, isrCall_raises h hcur (by omega)⟩
        · rw [if_neg hdr] at hnow
          refine ⟨w, hnow, Or.inl, fun hr => hr.resolve_right fun hraise => hdr ?_⟩
          have hdepth := hraise.1
          omega
  | @isrReturn yield woken rest hh =>
      refine ⟨hcur, rfl, hsame (by simp) ?_⟩
      show rest.reverse[d]? = s.handlers.reverse[d]?
      rw [hh, flag_enclosing hd']

/-! ## The wake flag at the end -/

/-- The steps while the handler is in progress. -/
def WhileHandling (cfg : Config) (d : ℕ) (s : Sys) (y : Label) (s' : Sys) : Prop :=
  Step cfg s y s' ∧ d < s'.handlers.length

theorem WhileHandling.functional (s : Sys) (y : Label) (s₁ s₂ : Sys)
    (h₁ : WhileHandling cfg d s y s₁) (h₂ : WhileHandling cfg d s y s₂) : s₁ = s₂ := by
  have hstep : some (s₁, y.2) = some (s₂, y.2) := h₁.1.symm.trans h₂.1
  exact congrArg Prod.fst (Option.some.inj hstep)

/-- **The wake flag of a handler.**  Let a handler be in progress that has interrupted the task `t`.
As long as it is in progress, `t` stays the current task and keeps its priority, and the flag of
the handler is true exactly if it was true before, or one of the calls of the handler has
unblocked a task of a strictly higher effective priority. -/
theorem wake_flag_exact (h : Reachable cfg s) (hcur : s.cur = some t) (hw : s.flag d = some w)
    (hr : Runs.Exec (WhileHandling cfg d) s tr s') :
    s'.cur = some t ∧ s'.sched.eff t = s.sched.eff t ∧
      ∃ w', s'.flag d = some w' ∧ (w' = true ↔ w = true ∨
        ∃ tr₁ y tr₂ s₁, tr = tr₁ ++ y :: tr₂ ∧ Runs.Exec (WhileHandling cfg d) s tr₁ s₁ ∧
          Raises d (s.sched.eff t) s₁ y) := by
  -- the run so far is kept along, to name the states in which a call was made
  have hinv : (Inv cfg s' ∧ Runs.Exec (WhileHandling cfg d) s tr s') ∧ s'.cur = some t ∧
      s'.sched.eff t = s.sched.eff t ∧
      ∃ w', s'.flag d = some w' ∧ (w' = true ↔ w = true ∨
        ∃ tr₁ y tr₂ s₁, tr = tr₁ ++ y :: tr₂ ∧ Runs.Exec (WhileHandling cfg d) s tr₁ s₁ ∧
          Raises d (s.sched.eff t) s₁ y) := by
    induction hr with
    | nil => exact ⟨⟨h.inv, .nil⟩, hcur, rfl, w, hw, by simp⟩
    | @snoc tr s₁ s₂ y hr hstep ih =>
        obtain ⟨⟨hI, hrun⟩, hcur₁, heff₁, w₁, hw₁, hiff₁⟩ := ih
        obtain ⟨e, obs⟩ := y
        obtain ⟨hcur₂, heff₂, w₂, hw₂, hiff₂⟩ := Step.flag hI hcur₁ hstep.1 hw₁ hstep.2
        rw [heff₁] at hiff₂ heff₂
        refine ⟨⟨hI.step hstep.1, hrun.snoc hstep⟩, hcur₂, heff₂, w₂, hw₂, ?_⟩
        rw [hiff₂, hiff₁, or_assoc]
        refine or_congr_right ⟨?_, ?_⟩
        · rintro (⟨tr₁, y, tr₂, s₀, rfl, hr₀, hraise⟩ | hraise)
          · exact ⟨tr₁, y, tr₂ ++ [(e, obs)], s₀, by simp, hr₀, hraise⟩
          · exact ⟨tr, (e, obs), [], s₁, rfl, hrun, hraise⟩
        · rintro ⟨tr₁, y, tr₂, s₀, htr, hr₀, hraise⟩
          rcases List.eq_nil_or_concat tr₂ with rfl | ⟨tr₃, z, rfl⟩
          · obtain ⟨rfl, hy⟩ := List.append_inj' htr rfl
            obtain rfl := List.singleton_inj.mp hy
            exact Or.inr (hrun.unique WhileHandling.functional hr₀ ▸ hraise)
          · rw [List.concat_eq_append, ← List.cons_append, ← List.append_assoc] at htr
            exact Or.inl ⟨tr₁, y, tr₃, s₀, (List.append_inj' htr rfl).1, hr₀, hraise⟩
  exact hinv.2

/-- A handler in which another one nests, while two tasks wait at a queue. -/
def nestedHandlers : List Label × Sys :=
  (Runs.runSteps (step smallConfig) smallBoot
    [createTask 1 2, createTask 2 0, .start, .call (.queueDequeue 0 true 0xFFFFFFFF), .resume,
      switchFrom 1, .isrEnter]).get (by decide +kernel)

theorem nestedHandlers_reachable : Reachable smallConfig nestedHandlers.2 :=
  Reachable.of_runSteps smallBoot_initial (Option.some_get _).symm

/-- The outer handler wakes the reader after the inner one has ended. -/
def raisedFlag : List Label × Sys :=
  (Runs.runSteps (fun s e => (step smallConfig s e).filter fun r => decide
      (0 < r.1.handlers.length)) nestedHandlers.2
    [.isrEnter, .isrCall (.semaphoreSignal 0 true), .isrReturn false, .tick,
      .isrCall (.queueEnqueue 0 (some [7]) true), .isrCall (.semaphoreTake 0)]).get
    (by decide +kernel)

theorem wake_flag_exact_raisedFlag :
    raisedFlag.2.flag 0 = some true ∧ raisedFlag.2.cur = some (.user 1) ∧
      ∃ tr₁ y tr₂ s₁, raisedFlag.1 = tr₁ ++ y :: tr₂ ∧ Raises 0 0 s₁ y := by
  have hrun : Runs.Exec (WhileHandling smallConfig 0) nestedHandlers.2 raisedFlag.1
      raisedFlag.2 :=
    Runs.exec_of_runSteps_filter (step smallConfig) (fun s => 0 < s.handlers.length)
      (Option.some_get _).symm
  have hflag : raisedFlag.2.flag 0 = some true := by decide +kernel
  have heff : nestedHandlers.2.sched.eff (.user 1) = 0 := by decide +kernel
  obtain ⟨hcur, -, w', hw', hiff⟩ := wake_flag_exact (t := .user 1) (w := false) (d := 0)
    nestedHandlers_reachable (by decide +kernel) (by decide +kernel) hrun
  rw [hflag, Option.some.injEq] at hw'
  rcases hiff.mp hw'.symm with hfalse | ⟨tr₁, y, tr₂, s₁, htr, -, hraise⟩
  · simp at hfalse
  · rw [heff] at hraise
    exact ⟨hflag, hcur, tr₁, y, tr₂, s₁, htr, hraise⟩

end Artos
