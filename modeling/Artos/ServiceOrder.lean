/-
# Service order

Every wait list stands in the order of the present effective priorities of its tasks, and
tasks of equal priority in the order in which they entered it at that priority
(`service_order`): every change of a priority finds the event item of its task and links it
anew behind its equals.  A wake-up takes the head, so the beneficiary of a hand-over has
the highest priority of all and has waited longest among its equals.
-/
import Artos.RoundRobin
import Artos.Ownership
import Artos.Tokens

open Function

namespace Artos

open Sched

variable {cfg : Config} {k k' : Sched} {t u w : Tid} {l : EventList} {p : ℕ}
  {acts : List Action} {obs : List Obs} {s s' : Sys} {e : Event}

/-! ## The event item of a task through the moves of a step -/

/-- **A task that does not stand where it stood, at the same priority, has been linked
anew**, with a stamp from the present clock on, or is in no list. -/
theorem Moves.event_stamp (h : SInv cfg k) (hd : DelayInv k) (hm : Moves cfg k acts k')
    (t : Tid) : k'.eventL.container t = none ∨
      (k'.eventL.container t = k.eventL.container t ∧ k'.eff t = k.eff t ∧
        k'.eventL.stamp t = k.eventL.stamp t) ∨
      k.eventL.clock ≤ k'.eventL.stamp t := by
  induction hm with
  | nil => exact Or.inr (Or.inl ⟨rfl, rfl, rfl⟩)
  | @snoc tr k₁ k₂ b hm hmove ih =>
      have hle := (Moves.clock_le hm).2
      rcases hmove.event_item (h.moves hd hm).1 t with hnone | ⟨hc, he, hst⟩ | ⟨hst, -⟩
      · exact Or.inl hnone
      · rcases ih with hnone | ⟨hc₁, he₁, hst₁⟩ | hnew
        · exact Or.inl (hc.trans hnone)
        · exact Or.inr (Or.inl ⟨hc.trans hc₁, he.trans he₁, hst.trans hst₁⟩)
        · exact Or.inr (Or.inr (hst ▸ hnew))
      · exact Or.inr (Or.inr (by omega))

/-- **A waiting task that neither blocks nor changes its priority keeps its stamp**, or
leaves its list. -/
theorem Moves.event_kept (h : SInv cfg k) (hd : DelayInv k) (hm : Moves cfg k acts k')
    (hb : ∀ w obj inf, Action.block t w obj inf ∉ acts) (he : ∀ q, Action.setEff t q ∉ acts) :
    k'.eventL.container t = none ∨ k'.eventL.stamp t = k.eventL.stamp t := by
  induction hm with
  | nil => exact Or.inr rfl
  | @snoc tr k₁ k₂ b hm hmove ih =>
      have hmem : b ∈ tr ++ [b] := List.mem_append_right _ (List.mem_singleton_self b)
      have ih := ih (fun w obj inf hmem => hb w obj inf (List.mem_append_left _ hmem))
        fun q hmem => he q (List.mem_append_left _ hmem)
      rcases hmove.event_item (h.moves hd hm).1 t with hnone | ⟨hc, -, hst⟩ |
        ⟨-, ⟨w, l, inf, rfl, -⟩ | ⟨q, rfl, -⟩⟩
      · exact Or.inl hnone
      · exact ih.imp (fun hnone => hc.trans hnone) fun hst₁ => hst.trans hst₁
      · exact absurd hmem (hb _ _ _)
      · exact absurd hmem (he q)

/-- **A task that waits in the same list at the same priority after the step has kept its
place.** -/
theorem Step.event_stamp (h : Inv cfg s) (hs : Step cfg s (e, obs) s')
    (ht : s.sched.eventL.container t = some l) (ht' : s'.sched.eventL.container t = some l)
    (he : s'.sched.eff t = s.sched.eff t) :
    s'.sched.eventL.stamp t = s.sched.eventL.stamp t := by
  have hblocked := h.ready.inv.event_blocked t (by rw [ht]; simp)
  have hlinked : s.sched.stateL.container t ≠ none := by
    obtain ⟨l', hl', -⟩ := hblocked
    rw [hl']
    simp
  obtain ⟨acts, hm, hone, hblock, -⟩ := Step.shape h hs
  refine (Moves.event_kept h.ready.inv h.ready.delay hm
    (fun w obj inf hmem => hblock t w obj inf hmem hblocked) fun q hmem => ?_).resolve_left
    (by rw [ht']; simp)
  exact Moves.eff_ne h.ready.inv h.ready.delay hm hone hlinked hmem he

/-- A task that stays in a wait list at one priority keeps its stamp, and one that enters
the list at that priority meanwhile is stamped by the clock of the start or later. -/
theorem Run.joined {a b : Tid} (h : Inv cfg s)
    (ha : s.sched.eventL.container a = some l ∧ s.sched.eff a = p) {tr : List Label}
    (hr : Runs.Exec (fun s b s' => Step cfg s b s' ∧
      s'.sched.eventL.container a = some l ∧ s'.sched.eff a = p) s tr s')
    (hb : ¬ (s.sched.eventL.container b = some l ∧ s.sched.eff b = p)) :
    Inv cfg s' ∧ (s'.sched.eventL.container a = some l ∧ s'.sched.eff a = p) ∧
      s'.sched.eventL.stamp a = s.sched.eventL.stamp a ∧
      (s'.sched.eventL.container b = some l ∧ s'.sched.eff b = p →
        s.sched.eventL.clock ≤ s'.sched.eventL.stamp b) := by
  suffices hall : s.sched.eventL.clock ≤ s'.sched.eventL.clock ∧ Inv cfg s' ∧
      (s'.sched.eventL.container a = some l ∧ s'.sched.eff a = p) ∧
      s'.sched.eventL.stamp a = s.sched.eventL.stamp a ∧
      (s'.sched.eventL.container b = some l ∧ s'.sched.eff b = p →
        s.sched.eventL.clock ≤ s'.sched.eventL.stamp b) from hall.2
  induction hr with
  | nil => exact ⟨le_rfl, h, ha, rfl, fun hb' => absurd hb' hb⟩
  | @snoc tr s₁ s₂ c hr hstep ih =>
      obtain ⟨hle, hI, ha₁, hst, hnew⟩ := ih
      obtain ⟨hs, ha₂⟩ := hstep
      obtain ⟨e, obs⟩ := c
      obtain ⟨acts, hm⟩ := (step_kind hI hs).moves
      have hclock := (Moves.clock_le hm).2
      refine ⟨hle.trans hclock, hI.step hs, ha₂,
        (Step.event_stamp hI hs ha₁.1 ha₂.1 (ha₂.2.trans ha₁.2.symm)).trans hst, fun hb₂ => ?_⟩
      by_cases hb₁ : s₁.sched.eventL.container b = some l ∧ s₁.sched.eff b = p
      · rw [Step.event_stamp hI hs hb₁.1 hb₂.1 (hb₂.2.trans hb₁.2.symm)]
        exact hnew hb₁
      · rcases Moves.event_stamp hI.ready.inv hI.ready.delay hm b with hnone | hsame | hlate
        · rw [hb₂.1] at hnone
          simp at hnone
        · exact absurd ⟨hsame.1.symm.trans hb₂.1, hsame.2.1.symm.trans hb₂.2⟩ hb₁
        · exact hle.trans hlate

/-- **A task that joins the list after another of its priority stands behind it.** -/
theorem Run.joined_behind {a b : Tid} (h : Inv cfg s)
    (ha : s.sched.eventL.container a = some l ∧ s.sched.eff a = p)
    (hb : ¬ (s.sched.eventL.container b = some l ∧ s.sched.eff b = p)) {tr : List Label}
    (hr : Runs.Exec (fun s b s' => Step cfg s b s' ∧
      s'.sched.eventL.container a = some l ∧ s'.sched.eff a = p) s tr s')
    (hb' : s'.sched.eventL.container b = some l ∧ s'.sched.eff b = p) :
    [a, b].Sublist (s'.sched.eventL.elems l) := by
  obtain ⟨hI, ha', hst, hnew⟩ := Run.joined h ha hr hb
  have hlt := s.sched.eventL.stamp_lt a (by rw [ha.1]; simp)
  refine (hI.ready.inv.event_ordered l).pair_sublist (fun v hv => lt_irrefl v hv) ha'.1 hb'.1
    ?_ ?_
  · rw [hI.ready.inv.event_value a (by rw [ha'.1]; simp),
      hI.ready.inv.event_value b (by rw [hb'.1]; simp), ha'.2, hb'.2]
  · rw [hst]
    exact lt_of_lt_of_le hlt (hnew hb')

/-! ## Hand-overs -/

/-- **The step hands the object of the list over to the task `w`**: it was the head of the
list, the others remain, and no priority among them changes. -/
structure HandsOver (s : Sys) (l : EventList) (w : Tid) (s' : Sys) : Prop where
  head : ∃ rest, s.sched.eventL.elems l = w :: rest ∧ s'.sched.eventL.elems l = rest
  eff : ∀ u, s.sched.eventL.container u = some l → s'.sched.eff u = s.sched.eff u

/-- Unblocking the head of a list leaves the others. -/
theorem unblocked_elems_event {rest : List Tid} (hl : k.eventL.elems l = w :: rest)
    (reason : WaitReason) : (k.unblocked w reason).eventL.elems l = rest := by
  rw [unblocked_eventL, ListStore.remove_elems_of_head hl]

/-- A wake-up hands over to the head. -/
theorem WakeEffect.handsOver {k k' : Sched} {g : Bool} {wobs : List Obs} {l' : EventList}
    (he : WakeEffect k l' k' acts wobs g) (hk : k.eventL = s.sched.eventL)
    (heff : ∀ u, k.eff u = s.sched.eff u) (hk' : s'.sched = k')
    (hob : Obs.handed l w ∈ wobs) : HandsOver s l w s' := by
  cases he with
  | empty hl => simp at hob
  | @head v rest hl =>
      obtain ⟨rfl, rfl⟩ : l = l' ∧ w = v := by simpa using hob
      refine ⟨⟨rest, hk ▸ hl, ?_⟩, fun u _ => ?_⟩
      · rw [hk', unblocked_elems_event hl]
      · rw [hk', unblocked_eff, heff]

theorem SignalEffect.handsOver {k k' : Kernel} {j : ℕ} {g : Bool}
    (he : SignalEffect k j k' acts obs g) (hk : k = s.kernel) (hk' : s'.kernel = k')
    (hob : Obs.handed l w ∈ obs) : HandsOver s l w s' := by
  subst hk
  have hs' : s'.sched = k'.sched := congrArg Kernel.sched hk'
  cases he with
  | invalid hsem => simp at hob
  | full hsem hne hfull => simp at hob
  | store hsem hroom hempty => simp at hob
  | @hand sem v rest hsem hzero hl =>
      obtain ⟨rfl, rfl⟩ : l = .semWait j ∧ w = v := by simpa using hob
      refine ⟨⟨rest, hl, ?_⟩, fun u _ => ?_⟩
      · rw [hs', unblocked_elems_event hl]
      · rw [hs', unblocked_eff]

theorem UnlockSection.handsOver {j : ℕ} {o : Outcome}
    (hI : InTask cfg s.sched t) (hs : UnlockSection cfg s.kernel j t o)
    (hob : Obs.handed l w ∈ o.obs) : HandsOver s l w (s.finish t o) := by
  cases hs with
  | refuse hno => simp at hob
  | release hm hown hr hl => simp at hob
  | @hand m k₁ acts changed v rest hm hown hr hl =>
      obtain ⟨rfl, rfl⟩ : l = .mutexLock j ∧ w = v := by simpa using hob
      have hev := hr.eventL hI.can.event
      have hl₁ : k₁.eventL.elems (.mutexLock j) = w :: rest := by
        rw [hev]
        exact hl
      refine ⟨⟨rest, hl, ?_⟩, fun u hu => ?_⟩
      · exact unblocked_elems_event hl₁ .signaled
      · -- only the priority of the old owner changes, and it does not wait
        have hut : u ≠ t := hI.can.ne_waiting hu
        have hkeep : k₁.eff u = s.sched.eff u :=
          (hr.spec u).2.1.resolve_right fun hsame => hut hsame.1
        show ((k₁.unblocked w .signaled).withHeld w _).eff u = _
        unfold Sched.eff
        rw [withHeld_tcb]
        by_cases huw : u = w
        · subst huw
          rw [if_pos rfl]
          exact (unblocked_eff _).trans hkeep
        · rw [if_neg huw]
          exact (unblocked_eff _).trans hkeep

/-- Clearing the wait reason changes no priority. -/
theorem PassStart.eff {k : Kernel} (hk : PassStart s t k) (u : Tid) :
    k.sched.eff u = s.sched.eff u := by
  rcases hk with ⟨-, rfl⟩ | ⟨-, rfl⟩
  · rfl
  · unfold Sched.eff
    rw [cleared_tcb]
    split
    · rename_i hut
      rw [hut]
    · rfl

theorem PutEffect.handsOver {k k' : Kernel} {j : ℕ} {g : Bool}
    (he : PutEffect cfg k j k' acts obs g) (hk : k.sched.eventL = s.sched.eventL)
    (heff : ∀ u, k.sched.eff u = s.sched.eff u) (hk' : s'.sched = k'.sched)
    (hob : Obs.handed l w ∈ obs) : HandsOver s l w s' := by
  cases he with
  | put hq hroom hw => exact hw.handsOver hk heff hk' (by simpa using hob)

theorem GetEffect.handsOver {k k' : Kernel} {j : ℕ} {g : Bool}
    (he : GetEffect cfg k j k' acts obs g) (hk : k.sched.eventL = s.sched.eventL)
    (heff : ∀ u, k.sched.eff u = s.sched.eff u) (hk' : s'.sched = k'.sched)
    (hob : Obs.handed l w ∈ obs) : HandsOver s l w s' := by
  cases he with
  | get hq hne hw => exact hw.handsOver hk heff hk' (by simpa using hob)

theorem QueueStep.handsOver {j : ℕ} (hs : QueueStep cfg s j obs s')
    (hl : l.object = .queue j) (hob : Obs.handed l w ∈ obs) : HandsOver s l w s' := by
  cases hs with
  | other hq hobs hlist hpcs => exact absurd hl (hobs _ hob)
  | enqueue hrun hI hk hpc hends hsec =>
      cases hsec with
      | refuse hwhy => simp at hob
      | block hq hfull hw hp hm => simp at hob
      | put he => exact he.handsOver hk.eventL hk.eff rfl hob
  | dequeue hrun hI hk hpc hends hsec =>
      cases hsec with
      | refuse hwhy => simp at hob
      | block hq hempty hw hp hm => simp at hob
      | get he => exact he.handsOver hk.eventL hk.eff rfl hob
  | putIsr he => exact he.handsOver rfl (fun _ => rfl) rfl hob
  | getIsr he => exact he.handsOver rfl (fun _ => rfl) rfl hob
  | refuseIsr hf =>
      rw [List.mem_singleton] at hob
      subst hob
      rcases hf with ⟨item, hf⟩ | hf <;> simp at hf

/-- **A hand-over takes the head of the list.** -/
theorem StepKind.handsOver (h : Inv cfg s) (hs : StepKind cfg s e obs s')
    (hob : Obs.handed l w ∈ obs) : HandsOver s l w s' := by
  cases l with
  | semWait j =>
      cases hs.semStep h j with
      | other hsem hobs hlist => exact absurd rfl (hobs _ hob)
      | take hpc hsec =>
          cases hsec with
          | now he => cases he <;> simp at hob
          | block hsem hzero hm => simp at hob
      | takeIsr he => cases he <;> simp at hob
      | signal hpc he => exact he.handsOver rfl rfl hob
      | signalIsr hh he => exact he.handsOver rfl rfl hob
      | read hpc => simp at hob
      | finish hpc => simp at hob
  | mutexLock j =>
      rcases hs.mutex_cases h j with ⟨-, hobs⟩ | ⟨t, o, hrun, hI, -, rfl, rfl, hcases⟩
      · exact absurd rfl (hobs _ hob)
      · rcases hcases with ⟨n, -, -, hsec⟩ | ⟨-, -, hsec⟩ | ⟨-, -, hsec⟩
        · cases hsec <;> simp at hob
        · exact hsec.handsOver hI hob
        · cases hsec <;> simp at hob
  | queueRead j => exact (hs.queueStep h j).handsOver rfl hob
  | queueWrite j => exact (hs.queueStep h j).handsOver rfl hob

/-! ## Stored tokens and free mutexes -/

/-- A semaphore with a token has no waiters. -/
def SemVacant (s : Sys) : Prop :=
  ∀ j sem, s.kernel.sem j = some sem → sem.count ≠ 0 →
    ∀ u, s.sched.eventL.container u ≠ some (.semWait j)

/-- A signal stores a token only when nobody waits. -/
theorem SignalEffect.semVacant {k : Kernel} {j : ℕ} {g : Bool} {sem : Semaphore}
    (he : SignalEffect s.kernel j k acts obs g) (hv : SemVacant s) (hsem : k.sem j = some sem)
    (hne : sem.count ≠ 0) : k.sched.eventL.container u ≠ some (.semWait j) := by
  intro hu
  cases he with
  | invalid hnone => exact hv j sem hsem hne u hu
  | full hsem₀ hne₀ hfull => exact hv j sem hsem hne u hu
  | @store sem₀ hsem₀ hroom hempty =>
      by_cases hzero : sem₀.count = 0
      · have hmem := (s.kernel.sched.eventL.mem_elems _ u).mpr hu
        rw [hempty hzero] at hmem
        simp at hmem
      · exact hv j sem₀ hsem₀ hzero u hu
  | @hand sem₀ v rest hsem₀ hzero hl =>
      obtain rfl := Option.some.inj (hsem.symm.trans hsem₀)
      exact hne hzero

/-- **Every step keeps the semaphores with a token free of waiters.** -/
theorem StepKind.semVacant (h : Inv cfg s) (hs : StepKind cfg s e obs s')
    (hv : SemVacant s) : SemVacant s' := by
  intro j sem hsem hne u hu
  cases hs.semStep h j with
  | other hsame hobs hlist => exact hv j sem (hsame ▸ hsem) hne u (hlist u hu)
  | @take t n o hpc hsec =>
      cases hsec with
      | now he =>
          cases he with
          | refuse hzero => exact hv j sem hsem hne u hu
          | @take sem₀ hsem₀ hne₀ => exact hv j sem₀ hsem₀ hne₀ u hu
      | @block sem₀ w inf sched hsem₀ hzero hm =>
          obtain rfl := Option.some.inj (hsem.symm.trans hsem₀)
          exact hne hzero
  | takeIsr he =>
      cases he with
      | refuse hzero => exact hv j sem hsem hne u hu
      | @take sem₀ hsem₀ hne₀ => exact hv j sem₀ hsem₀ hne₀ u hu
  | signal hpc he => exact he.semVacant hv hsem hne hu
  | signalIsr hh he => exact he.semVacant hv hsem hne hu
  | read hpc => exact hv j sem hsem hne u hu
  | finish hpc => exact hv j sem hsem hne u hu

theorem Reachable.semVacant (h : Reachable cfg s) : SemVacant s := by
  obtain ⟨s₀, tr, h₀, hr⟩ := h
  have hall : Inv cfg s ∧ SemVacant s := by
    refine hr.invariant (I := fun s => Inv cfg s ∧ SemVacant s) (fun s₁ b s₂ hI hs => ?_)
      ⟨h₀.inv, fun j sem hsem hne u hu => ?_⟩
    · obtain ⟨e, obs⟩ := b
      exact ⟨hI.1.step hs, (step_kind hI.1 hs).semVacant hI.1 hI.2⟩
    · have hnone : s₀.sched.eventL.container u = none := by
        rw [h₀.sched]
        rfl
      rw [hnone] at hu
      simp at hu
  exact hall.2

/-! ## The order of service -/

/-- **The step gives the object of the list to the task `w`**: it hands it over, or a call of
`w` takes a stored token or a free mutex. -/
inductive Obtains (e : Event) (obs : List Obs) (w : Tid) : EventList → Prop
  | handed {l : EventList} (hob : Obs.handed l w ∈ obs) : Obtains e obs w l
  | taken {j : ℕ} {n : UInt32} (he : e = .call (.semaphoreTake j n))
      (hob : Obs.taken j (some w) true ∈ obs) : Obtains e obs w (.semWait j)
  | locked {j : ℕ} {n : UInt32} (he : e = .call (.mutexLock j n))
      (hob : Obs.locked j (some w) true ∈ obs) : Obtains e obs w (.mutexLock j)

/-- **The beneficiary of an object precedes all that remain.** -/
theorem StepKind.obtains (h : Inv cfg s) (hv : SemVacant s) (hp : PrioInv s.kernel)
    (hs : StepKind cfg s e obs s') (hw : Obtains e obs w l)
    (hu : s'.sched.eventL.container u = some l) :
    s'.sched.eff u ≤ s'.sched.eff w ∧ [w, u].Sublist (s.sched.eventL.elems l) := by
  cases hw with
  | handed hob =>
      obtain ⟨⟨rest, hl, hrest⟩, heff⟩ := hs.handsOver h hob
      have hmem := (s'.sched.eventL.mem_elems l u).mpr hu
      rw [hrest] at hmem
      have hold : ∀ {v}, v ∈ w :: rest → s.sched.eventL.container v = some l := fun hv =>
        (s.sched.eventL.mem_elems l _).mp (hl ▸ hv)
      have hcu := hold (List.mem_cons_of_mem _ hmem)
      rw [heff u hcu, heff w (hold List.mem_cons_self), hl]
      exact ⟨h.ready.inv.eff_le_head hl hcu, (List.singleton_sublist.mpr hmem).cons_cons w⟩
  | @taken j n he hob =>
      -- a stored token: nobody waits
      exfalso
      subst he
      cases hs.semStep h j with
      | other hsem hobs hlist => exact hobs _ hob rfl
      | take hpc hsec =>
          cases hsec with
          | now htake =>
              cases htake with
              | refuse hzero => simp at hob
              | @take sem hsem hne => exact hv j sem hsem hne u hu
          | block hsem hzero hm => simp at hob
  | @locked j n he hob =>
      -- a free mutex: nobody waits
      exfalso
      subst he
      rcases hs.mutex_cases h j with ⟨-, hobs⟩ | ⟨t, o, hrun, hI, -, rfl, rfl, hcases⟩
      · exact hobs _ hob rfl
      · rcases hcases with ⟨n', -, -, hsec⟩ | ⟨he, -⟩ | ⟨he, -⟩
        · cases hsec with
          | refuse => simp at hob
          | @acquire m hm hown hheld => exact hp.vacant j m u hm hown hu
          | block hm hown hne hheld hb hi => simp at hob
        · simp at he
        · simp at he

/-- **Service order.**  In every reachable state every wait list stands in the order of the
present effective priorities of its tasks, each the key of its event item, and tasks of
equal priority in the order in which they entered the list at that priority.  Every step
that gives the object of a list to a task leaves no waiting task with a higher priority, and
the beneficiary stood before all that remain. -/
theorem service_order (h : Reachable cfg s) (l : EventList) :
    (∀ t ∈ s.sched.eventL.elems l, s.sched.eventL.value t = s.sched.eff t) ∧
    (s.sched.eventL.elems l).Pairwise (fun a b => s.sched.eff b ≤ s.sched.eff a) ∧
    (∀ p a b tr s₁, s.sched.eventL.container a = some l ∧ s.sched.eff a = p →
      ¬ (s.sched.eventL.container b = some l ∧ s.sched.eff b = p) →
      Runs.Exec (fun s b s' => Step cfg s b s' ∧ s'.sched.eventL.container a = some l ∧
        s'.sched.eff a = p) s tr s₁ →
      s₁.sched.eventL.container b = some l ∧ s₁.sched.eff b = p →
      [a, b].Sublist (s₁.sched.eventL.elems l)) ∧
    ∀ e obs s' w, Step cfg s (e, obs) s' → Obtains e obs w l →
      ∀ u ∈ s'.sched.eventL.elems l, s'.sched.eff u ≤ s'.sched.eff w ∧
        [w, u].Sublist (s.sched.eventL.elems l) := by
  have hI := h.inv
  have hvalue : ∀ {s : Sys}, Inv cfg s → ∀ t, s.sched.eventL.container t ≠ none →
      s.sched.eventL.value t = s.sched.eff t := fun hI => hI.ready.inv.event_value
  have hlinked : ∀ t ∈ s.sched.eventL.elems l, s.sched.eventL.container t ≠ none := by
    intro t ht
    rw [(s.sched.eventL.mem_elems l t).mp ht]
    simp
  refine ⟨fun t ht => hvalue hI t (hlinked t ht), ?_, fun p a b tr s₁ ha hb hr hb₁ => ?_,
    fun e obs s' w hs hw u hu => ?_⟩
  · refine List.Pairwise.imp_of_mem (fun {a b} ha hb hab => ?_) (hI.ready.inv.event_ordered l)
    rw [hvalue hI a (hlinked a ha), hvalue hI b (hlinked b hb)] at hab
    omega
  · exact Run.joined_behind hI ha hb hr hb₁
  · exact (step_kind hI hs).obtains hI h.semVacant h.prioInv hw
      ((s'.sched.eventL.mem_elems l u).mp hu)

/-- Two readers of different priorities wait for an item; the low one came first. -/
def twoReaders : List Label × Sys :=
  (Runs.runSteps (step smallConfig) smallBoot
    [createTask 1 1, createTask 2 0, .start, .call (.wait 1), .resume, switchFrom 1,
      .call (.queueDequeue 0 true 9), .tick, switchFrom 2,
      .call (.queueDequeue 0 true 9), .resume]).get (by decide +kernel)

theorem twoReaders_reachable : Reachable smallConfig twoReaders.2 :=
  Reachable.of_runSteps smallBoot_initial (Option.some_get _).symm

theorem service_order_twoReaders :
    twoReaders.2.sched.eventL.elems (.queueRead 0) = [.user 0, .user 1] ∧
      (twoReaders.2.sched.eventL.elems (.queueRead 0)).Pairwise
        (fun a b => twoReaders.2.sched.eff b ≤ twoReaders.2.sched.eff a) :=
  ⟨by decide +kernel, (service_order twoReaders_reachable (.queueRead 0)).2.1⟩

end Artos
