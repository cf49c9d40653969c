/-
# Priority inheritance

Three facts about every mutex and every task, kept by every step (`PrioInv`):

* `rested` : a task that holds no mutex runs at its base priority;
* `covered` : the owner of a mutex runs at least at the base priority of every task
  that waits for it;
* `vacant` : nobody waits for a mutex without an owner.

With the accounting of `MutexInv` they give the theorems about inheritance.
-/
import Artos.Preserve

open Function

namespace Artos

open Sched

variable {cfg : Config} {t u : Tid} {x : Object} {a : Action} {acts : List Action}
  {obs : List Obs} {s s' : Sys}

/-- **The inheritance invariant.** -/
structure PrioInv (k : Kernel) : Prop where
  rested : ∀ t, (k.sched.tcb t).mutexesHeld = 0 → k.sched.eff t = (k.sched.tcb t).priority
  covered : ∀ j m o w, k.mutex j = some m → m.owner = some o →
    k.sched.eventL.container w = some (.mutexLock j) → (k.sched.tcb w).priority ≤ k.sched.eff o
  vacant : ∀ j m w, k.mutex j = some m → m.owner = none →
    k.sched.eventL.container w ≠ some (.mutexLock j)

/-! ## Moves that concern no mutex -/

/-- Such actions leave the count and the priorities of an existing task alone. -/
theorem View.foldl_noPrio {v : View} (ha : ∀ a ∈ acts, a.NoPrio)
    (hc : ∀ i p, Action.create i p ∈ acts → u ≠ .user i) :
    (acts.foldl (View.after u) v).held = v.held ∧
      (acts.foldl (View.after u) v).eff = v.eff ∧
      (acts.foldl (View.after u) v).base = v.base := by
  induction acts generalizing v with
  | nil => exact ⟨rfl, rfl, rfl⟩
  | cons a acts ih =>
      have haa := ha a List.mem_cons_self
      have hone : (v.after u a).held = v.held ∧ (v.after u a).eff = v.eff ∧
          (v.after u a).base = v.base := by
        cases a with
        | create i p =>
            have hne := hc i p List.mem_cons_self
            simp [View.after, hne]
        | held u' n => exact absurd haa id
        | setEff u' p => exact absurd haa id
        | block | wake | expire | clear =>
            simp only [View.after]
            split <;> exact ⟨rfl, rfl, rfl⟩
        | _ => exact ⟨rfl, rfl, rfl⟩
      obtain ⟨h1, h2, h3⟩ := ih (v := v.after u a)
        (fun b hb => ha b (List.mem_cons_of_mem _ hb))
        fun i p hmem => hc i p (List.mem_cons_of_mem _ hmem)
      rw [List.foldl_cons, h1, h2, h3]
      exact hone

/-- A task that was just created runs at its base priority. -/
theorem View.foldl_noPrio_rested {v : View} (ha : ∀ a ∈ acts, a.NoPrio)
    (hv : v.held = 0 → v.eff = v.base) (hh : (acts.foldl (View.after u) v).held = 0) :
    (acts.foldl (View.after u) v).eff = (acts.foldl (View.after u) v).base := by
  induction acts generalizing v with
  | nil => exact hv hh
  | cons a acts ih =>
      have haa := ha a List.mem_cons_self
      refine ih (fun b hb => ha b (List.mem_cons_of_mem _ hb)) ?_ hh
      cases a with
      | create i p =>
          simp only [View.after]
          split
          · exact fun _ => rfl
          · exact hv
      | held u' n => exact absurd haa id
      | setEff u' p => exact absurd haa id
      | block | wake | expire | clear =>
          simp only [View.after]
          split <;> exact hv
      | _ => exact hv

/-- Such moves change neither priority of a task. -/
theorem Moves.prio_kept {k k' : Sched} (hr : Ready cfg k) (hm : Moves cfg k acts k')
    (ha : ∀ a ∈ acts, a.NoPrio) (hu : ∃ i, u = .user i ∧ i < k.taskCount) :
    k'.eff u = k.eff u ∧ (k'.tcb u).priority = (k.tcb u).priority := by
  obtain ⟨i, rfl, hi⟩ := hu
  have hold : ∀ i' p, Action.create i' p ∈ acts → Tid.user i ≠ .user i' := by
    intro i' p hmem he
    have hge := (Moves.taskCount_le hm).2 i' p hmem
    have hii : i = i' := by simpa using he
    omega
  obtain ⟨-, he, hb⟩ := View.foldl_noPrio (v := k.view (.user i)) ha hold
  rw [← Moves.view hr.inv hr.delay hm (.user i)] at he hb
  exact ⟨he, hb⟩

/-- **Moves that concern no mutex keep the inheritance invariant.** -/
theorem PrioInv.of_moves {k k' : Kernel} (h : PrioInv k) (hM : MutexInv k)
    (hr : Ready cfg k.sched) (hm : Moves cfg k.sched acts k'.sched)
    (ha : ∀ a ∈ acts, a.NoPrio) (hmutex : k'.mutex = k.mutex) : PrioInv k' := by
  have hview := Moves.view hr.inv hr.delay hm
  have hwait : ∀ {w j}, k'.sched.eventL.container w = some (.mutexLock j) →
      k.sched.eventL.container w = some (.mutexLock j) := by
    intro w j hw
    have he : (k'.sched.view w).event = some (.mutexLock j) := hw
    rw [hview] at he
    exact View.foldl_mutexLock (fun a h' => (ha a h').noMutex) he
  refine ⟨fun u hu => ?_, fun j m o w hm' hown hw => ?_, fun j m w hm' hown hw => ?_⟩
  · have hrest := View.foldl_noPrio_rested (u := u) (v := k.sched.view u) ha (h.rested u)
    rw [← hview u] at hrest
    exact hrest hu
  · rw [hmutex] at hm'
    have hw' := hwait hw
    have huser := hr.inv.blocked_user (hr.inv.event_blocked w (by rw [hw']; simp))
    rw [(hm.prio_kept hr ha (hM.owner o j ⟨m, hm', hown⟩)).1, (hm.prio_kept hr ha huser).2]
    exact h.covered j m o w hm' hown hw'
  · rw [hmutex] at hm'
    exact h.vacant j m w hm' hown (hwait hw)

/-! ## The sections of a mutex -/

/-- A block changes no count and no priority, and only the wait list of its task. -/
theorem Moves.block_kept {k k' : Sched} {v : ℕ} {obj : Option EventList} {inf : Bool}
    (hr : Ready cfg k) (hm : Moves cfg k [.block t v obj inf] k') (u : Tid) :
    (k'.tcb u).mutexesHeld = (k.tcb u).mutexesHeld ∧
      (k'.tcb u).priority = (k.tcb u).priority ∧ k'.eff u = k.eff u ∧
      k'.eventL.container u = if u = t then obj else k.eventL.container u := by
  have hu := Moves.view hr.inv hr.delay hm u
  simp only [List.foldl_cons, List.foldl_nil, View.after] at hu
  by_cases hut : u = t
  · rw [if_pos hut] at hu ⊢
    exact ⟨congrArg View.held hu, congrArg View.base hu, congrArg View.eff hu,
      congrArg View.event hu⟩
  · rw [if_neg hut] at hu ⊢
    exact ⟨congrArg View.held hu, congrArg View.base hu, congrArg View.eff hu,
      congrArg View.event hu⟩

/-- A boost raises one effective priority and changes nothing else. -/
theorem BoostEffect.spec {k k' : Sched} {o : Tid} {p : ℕ} (he : BoostEffect k o p k' acts)
    (u : Tid) :
    (k'.tcb u).mutexesHeld = (k.tcb u).mutexesHeld ∧
      (k'.tcb u).priority = (k.tcb u).priority ∧
      k'.eff u = (if u = o then max (k.eff o) p else k.eff u) ∧
      k'.eventL.container u = k.eventL.container u := by
  cases he with
  | keep hle =>
      refine ⟨rfl, rfl, ?_, rfl⟩
      split
      · rename_i huo
        rw [huo]
        omega
      · rfl
  | raise hlt =>
      refine ⟨withEff_mutexesHeld, withEff_priority, ?_, by rw [withEff_eventContainer]⟩
      rw [withEff_eff]
      split <;> omega

/-- Giving up a mutex lowers the task to its base priority at most, and only with its
last mutex. -/
theorem RelinquishEffect.spec {k k' : Sched} {b : Bool} (he : RelinquishEffect k t k' acts b)
    (u : Tid) :
    (k'.tcb u).priority = (k.tcb u).priority ∧
      (k'.eff u = k.eff u ∨ u = t ∧ (k.tcb t).mutexesHeld = 1) ∧
      (u = t → (k.tcb t).mutexesHeld = 1 → k'.eff u = (k.tcb u).priority) := by
  cases he with
  | keep hkeep =>
      refine ⟨withHeld_priority _, Or.inl (withHeld_eff _), ?_⟩
      rintro rfl hone
      rw [withHeld_eff]
      rcases hkeep with hk | hk
      · exact absurd hone hk
      · exact hk
  | drop hlast hne =>
      rw [withEff_priority, withEff_eff, withHeld_tcb]
      by_cases hut : u = t
      · subst hut
        rw [if_pos rfl]
        exact ⟨rfl, Or.inr ⟨rfl, hlast⟩, fun _ _ => by simp⟩
      · rw [if_neg hut, if_neg hut]
        refine ⟨rfl, Or.inl ?_, fun he => absurd he hut⟩
        unfold eff
        rw [withHeld_tcb, if_neg hut]

/-- A task that owns two mutexes does not hold exactly one. -/
theorem MutexInv.held_ne_one {k : Kernel} (h : MutexInv k) {i j : ℕ}
    (hi : i ∈ OwnedBy k t) (hj : j ∈ OwnedBy k t) (hij : i ≠ j) :
    (k.sched.tcb t).mutexesHeld ≠ 1 := by
  intro hone
  have hcount := h.count t
  rw [hone] at hcount
  obtain ⟨l, hl⟩ := Set.encard_eq_one.mp hcount
  rw [hl] at hi hj
  exact hij (hi.trans hj.symm)

/-- The mutexes after one of them has changed its owner. -/
theorem setMutex_cases {k : Kernel} {j i : ℕ} {m m' : Mutex} {sched : Sched}
    (hm : ({ k.setMutex j m with sched := sched } : Kernel).mutex i = some m') :
    i = j ∧ m' = m ∨ i ≠ j ∧ k.mutex i = some m' := by
  by_cases hij : i = j
  · subst hij
    have heq : m = m' := by simpa [Kernel.setMutex] using hm
    exact Or.inl ⟨rfl, heq.symm⟩
  · exact Or.inr ⟨hij, by simpa [Kernel.setMutex, hij] using hm⟩

/-- **A lock keeps the inheritance invariant.** -/
theorem LockSection.prioInv {k : Kernel} {j : ℕ} {o : Outcome} (hI : InTask cfg k.sched t)
    (hs : LockSection cfg k j t o) (hM : MutexInv k) (h : PrioInv k) : PrioInv o.kernel := by
  cases hs with
  | refuse => exact h
  | @acquire m hm hown hheld =>
      refine ⟨fun u hu => ?_, fun i m' o w hm' hown' hw => ?_, fun i m' w hm' hown' hw => ?_⟩
      · show (k.sched.withHeld t _).eff u = ((k.sched.withHeld t _).tcb u).priority
        rw [withHeld_priority, withHeld_eff]
        refine h.rested u ?_
        change ((k.sched.withHeld t _).tcb u).mutexesHeld = 0 at hu
        rw [withHeld_tcb] at hu
        split at hu
        · simp at hu
        · exact hu
      · show ((k.sched.withHeld t _).tcb w).priority ≤ (k.sched.withHeld t _).eff o
        rw [withHeld_priority, withHeld_eff]
        rcases setMutex_cases hm' with ⟨rfl, rfl⟩ | ⟨hij, hm'⟩
        · exact absurd hw (h.vacant i m w hm hown)
        · exact h.covered i m' o w hm' hown' hw
      · rcases setMutex_cases hm' with ⟨rfl, rfl⟩ | ⟨hij, hm'⟩
        · simp at hown'
        · exact h.vacant i m' w hm' hown' hw
  | @block m o w inf k₁ k₂ acts hm hown hne hheld hb hi =>
      have hs₁ := (hI.inv.moves hI.delay hb).1
      obtain ⟨-, -, hreq⟩ := hs₁.rtosMutexRequiredPriority_spec o (.mutexLock j)
      have hk₁ := Moves.block_kept hI.toReady hb
      refine ⟨fun u hu => ?_, fun i m' o' w' hm' hown' hw => ?_, fun i m' w' hm' hown' hw => ?_⟩
      · change (k₂.tcb u).mutexesHeld = 0 at hu
        show k₂.eff u = (k₂.tcb u).priority
        obtain ⟨hheld₂, hbase₂, heff₂, -⟩ := hi.spec u
        have huo : u ≠ o := by
          rintro rfl
          have hpos := hM.held_pos hm hown
          rw [hheld₂, (hk₁ u).1] at hu
          omega
        rw [heff₂, if_neg huo, hbase₂, (hk₁ u).2.1, (hk₁ u).2.2.1]
        exact h.rested u (by rw [← (hk₁ u).1, ← hheld₂, hu])
      · change k₂.eventL.container w' = some (.mutexLock i) at hw
        show (k₂.tcb w').priority ≤ k₂.eff o'
        rw [(hi.spec w').2.1, (hk₁ w').2.1, (hi.spec o').2.2.1]
        rw [(hi.spec w').2.2.2] at hw
        by_cases hwt : w' = t
        · subst hwt
          have hij : j = i := by
            rw [(hk₁ w').2.2.2, if_pos rfl] at hw
            simpa using hw
          subst hij
          have hoo : o' = o := by
            have hm'' : k.mutex j = some m' := hm'
            rw [hm, Option.some.injEq] at hm''
            rw [← hm'', hown, Option.some.injEq] at hown'
            exact hown'.symm
          have hle := hreq w' hw
          have hprio := hs₁.prio_le w'
          rw [if_pos hoo]
          rw [(hk₁ w').2.1] at hprio
          omega
        · rw [(hk₁ w').2.2.2, if_neg hwt] at hw
          have hcov := h.covered i m' o' w' hm' hown' hw
          split
          · rename_i hoo
            rw [(hk₁ o).2.2.1, ← hoo]
            omega
          · rw [(hk₁ o').2.2.1]
            exact hcov
      · change k₂.eventL.container w' = some (.mutexLock i) at hw
        rw [(hi.spec w').2.2.2, (hk₁ w').2.2.2] at hw
        split at hw
        · have hij : j = i := by simpa using hw
          subst hij
          have hm'' : k.mutex j = some m' := hm'
          rw [hm, Option.some.injEq] at hm''
          rw [← hm'', hown] at hown'
          simp at hown'
        · exact h.vacant i m' w' hm' hown' hw

/-- What an unlock leaves to the other mutexes of the caller. -/
theorem RelinquishEffect.covered {k : Kernel} {k₁ : Sched} {b : Bool} {j : ℕ} {m : Mutex}
    (hr : RelinquishEffect k.sched t k₁ acts b) (hM : MutexInv k) (h : PrioInv k)
    (hm : k.mutex j = some m) (hown : m.owner = some t) {i : ℕ} {m' : Mutex} {o w : Tid}
    (hij : i ≠ j) (hm' : k.mutex i = some m') (hown' : m'.owner = some o)
    (hw : k.sched.eventL.container w = some (.mutexLock i)) :
    (k₁.tcb w).priority ≤ k₁.eff o := by
  have hcov := h.covered i m' o w hm' hown' hw
  rw [(hr.spec w).1]
  rcases (hr.spec o).2.1 with heq | ⟨rfl, hone⟩
  · rw [heq]
    exact hcov
  · exact absurd hone (hM.held_ne_one ⟨m', hm', hown'⟩ ⟨m, hm, hown⟩ hij)

/-- What an unlock leaves to the caller itself. -/
theorem RelinquishEffect.rested {k : Kernel} {k₁ : Sched} {b : Bool} {j : ℕ} {m : Mutex}
    (hr : RelinquishEffect k.sched t k₁ acts b) (hM : MutexInv k) (h : PrioInv k)
    (hm : k.mutex j = some m) (hown : m.owner = some t) (hu : (k₁.tcb u).mutexesHeld = 0) :
    k₁.eff u = (k₁.tcb u).priority := by
  rw [(hr.spec u).1]
  rw [hr.held] at hu
  by_cases hut : u = t
  · subst hut
    have hpos := hM.held_pos hm hown
    rw [if_pos rfl] at hu
    exact (hr.spec u).2.2 rfl (by omega)
  · rw [if_neg hut] at hu
    rcases (hr.spec u).2.1 with heq | ⟨he, -⟩
    · rw [heq]
      exact h.rested u hu
    · exact absurd he hut

/-- **An unlock keeps the inheritance invariant.** -/
theorem UnlockSection.prioInv {k : Kernel} {j : ℕ} {o : Outcome} (hI : InTask cfg k.sched t)
    (hs : UnlockSection cfg k j t o) (hM : MutexInv k) (h : PrioInv k) :
    PrioInv o.kernel := by
  cases hs with
  | refuse hno => exact h
  | @release m k₁ acts changed hm hown hr hl =>
      have hev := hr.eventL hI.can.event
      refine ⟨fun u hu => hr.rested hM h hm hown hu, fun i m' o w hm' hown' hw => ?_,
        fun i m' w hm' hown' hw => ?_⟩
      · change k₁.eventL.container w = _ at hw
        rw [hev] at hw
        rcases setMutex_cases hm' with ⟨rfl, rfl⟩ | ⟨hij, hm'⟩
        · simp at hown'
        · exact hr.covered hM h hm hown hij hm' hown' hw
      · change k₁.eventL.container w = _ at hw
        rw [hev] at hw
        rcases setMutex_cases hm' with ⟨rfl, rfl⟩ | ⟨hij, hm'⟩
        · rw [← k.sched.eventL.mem_elems, hl] at hw
          simp at hw
        · exact h.vacant i m' w hm' hown' hw
  | @hand m k₁ acts changed v rest hm hown hr hl =>
      have hev := hr.eventL hI.can.event
      have hcv := ListStore.container_of_head hl
      have hvt : v ≠ t := hI.can.ne_waiting hcv
      have hwait : ∀ {w i}, (k₁.eventL.remove v).container w = some (.mutexLock i) →
          w ≠ v ∧ k.sched.eventL.container w = some (.mutexLock i) := by
        intro w i hw
        rw [hev, ListStore.remove_container] at hw
        have hwv : w ≠ v := by
          rintro rfl
          simp at hw
        rw [update_of_ne hwv] at hw
        exact ⟨hwv, hw⟩
      refine ⟨fun u hu => ?_, fun i m' o w hm' hown' hw => ?_, fun i m' w hm' hown' hw => ?_⟩
      · show ((k₁.unblocked v .signaled).withHeld v _).eff u =
          (((k₁.unblocked v .signaled).withHeld v _).tcb u).priority
        rw [withHeld_priority, withHeld_eff, unblocked_priority, unblocked_eff]
        refine hr.rested hM h hm hown ?_
        change (((k₁.unblocked v .signaled).withHeld v _).tcb u).mutexesHeld = 0 at hu
        rw [withHeld_tcb] at hu
        split at hu
        · simp at hu
        · rwa [unblocked_mutexesHeld] at hu
      · show (((k₁.unblocked v .signaled).withHeld v _).tcb w).priority ≤
          ((k₁.unblocked v .signaled).withHeld v _).eff o
        rw [withHeld_priority, withHeld_eff, unblocked_priority, unblocked_eff]
        obtain ⟨hwv, hw'⟩ := hwait hw
        rcases setMutex_cases hm' with ⟨rfl, rfl⟩ | ⟨hij, hm'⟩
        · -- a waiter that stays does not exceed the head, which is the new owner
          have hvo : v = o := by simpa using hown'
          subst hvo
          have hle := hI.inv.eff_le_head hl hw'
          have hbase := hI.inv.prio_le w
          rw [(hr.spec w).1]
          rcases (hr.spec v).2.1 with heq | ⟨he, -⟩
          · rw [heq]
            omega
          · exact absurd he hvt
        · exact hr.covered hM h hm hown hij hm' hown' hw'
      · obtain ⟨-, hw'⟩ := hwait hw
        rcases setMutex_cases hm' with ⟨rfl, rfl⟩ | ⟨hij, hm'⟩
        · simp at hown'
        · exact h.vacant i m' w hm' hown' hw'

/-- **The end of a lock keeps the inheritance invariant.** -/
theorem LockResumeSection.prioInv {k : Kernel} {j : ℕ} {o : Outcome}
    (hI : InTask cfg k.sched t) (hs : LockResumeSection k j t o) (hM : MutexInv k)
    (h : PrioInv k) : PrioInv o.kernel := by
  have hclear : ∀ a ∈ [Action.clear t], a.NoPrio := by simp [Action.NoPrio, Action.NoMutex]
  have h₁ : PrioInv { k with sched := k.sched.rtosClearCurrentWaitReason } :=
    h.of_moves hM hI.toReady hI.clear hclear rfl
  have hM₁ : MutexInv { k with sched := k.sched.rtosClearCurrentWaitReason } :=
    hM.of_moves hI.toReady hI.clear (fun a ha => (hclear a ha).noMutex) rfl
  have hI₁ := hI.cleared.1
  cases hs with
  | granted hres => exact h₁
  | @timedOut m k₁ acts hm hres hd =>
      cases hd with
      | keep => exact h₁
      | @drop o ho hheld hlt =>
          obtain ⟨-, -, hreq⟩ := hI₁.inv.rtosMutexRequiredPriority_spec o (.mutexLock j)
          rw [ho] at hlt ⊢
          refine ⟨fun u hu => ?_, fun i m' o' w hm' hown' hw => ?_, fun i m' w hm' hown' hw => ?_⟩
          · change ((withEff _ o _).tcb u).mutexesHeld = 0 at hu
            show (withEff _ o _).eff u = ((withEff _ o _).tcb u).priority
            rw [withEff_mutexesHeld] at hu
            have huo : u ≠ o := by
              rintro rfl
              omega
            rw [withEff_eff, if_neg huo, withEff_priority]
            exact h₁.rested u hu
          · change (withEff _ o _).eventL.container w = _ at hw
            show ((withEff _ o _).tcb w).priority ≤ (withEff _ o _).eff o'
            rw [withEff_eventContainer] at hw
            rw [withEff_priority, withEff_eff]
            by_cases hoo : o' = o
            · subst hoo
              have hij : i = j := by
                by_contra hij
                exact hM₁.held_ne_one ⟨m', hm', hown'⟩ ⟨m, hm, ho⟩ hij hheld
              subst hij
              have hle := hreq w hw
              have hbase := hI₁.inv.prio_le w
              rw [if_pos rfl]
              omega
            · rw [if_neg hoo]
              exact h₁.covered i m' o' w hm' hown' hw
          · change (withEff _ o _).eventL.container w = _ at hw
            rw [withEff_eventContainer] at hw
            exact h₁.vacant i m' w hm' hown' hw

/-- **Every step keeps the inheritance invariant.** -/
theorem StepKind.prioInv (h : Inv cfg s) (hp : PrioInv s.kernel) {e : Event}
    (hs : StepKind cfg s e obs s') : PrioInv s'.kernel := by
  have hM := h.mutexes
  cases hs.mutexStep h with
  | other hmoves ha hmutex hobs => exact hp.of_moves hM h.ready hmoves ha hmutex
  | lock hrun hI hpc hstep hsec => exact hsec.prioInv hI hM hp
  | unlock hrun hI hpc hstep hsec => exact hsec.prioInv hI hM hp
  | resume hrun hI hpc hstep hsec => exact hsec.prioInv hI hM hp

theorem Initial.prioInv (h : Initial cfg s) : PrioInv s.kernel := by
  have hnone : ∀ u, s.sched.eventL.container u = none := by
    rw [h.sched]
    exact fun _ => rfl
  refine ⟨fun u _ => ?_, fun j m o w hm hown hw => ?_, fun j m w hm hown hw => ?_⟩
  · show (s.sched.tcb u).effectivePriority = (s.sched.tcb u).priority
    rw [h.sched]
    cases u <;> simp [rtosSystemInit, rtosInitTcb, Tcb.zero]
  · rw [hnone] at hw
    simp at hw
  · rw [hnone] at hw
    simp at hw

/-- The inheritance invariant holds in every reachable state. -/
theorem Reachable.prioInv (h : Reachable cfg s) : PrioInv s.kernel := by
  obtain ⟨s₀, tr, h₀, hr⟩ := h
  have hboth := hr.invariant (I := fun s => Inv cfg s ∧ PrioInv s.kernel)
    (fun _ a _ hI hs => ⟨hI.1.step hs, (step_kind hI.1 hs).prioInv hI.1 hI.2⟩)
    ⟨h₀.inv, h₀.prioInv⟩
  exact hboth.2

/-! ## The theorems about inheritance -/

/-- A low owner, a middle task that waits for it, and a high task that waits for the
middle one: the high task has raised the middle one while it was waiting. -/
def chainedOwners : Sys :=
  (Runs.runSteps (step smallConfig) smallBoot
    [createTask 1 2, createTask 2 1, createTask 3 0, .start,
      .call (.wait 2), .resume, switchFrom 1,
      .call (.mutexLock 1 5), .call (.wait 1), .resume, switchFrom 2,
      .call (.mutexLock 0 5), .tick, switchFrom 3,
      .call (.mutexLock 0 9), .resume, switchFrom 2, .tick, switchFrom 3,
      .call (.mutexLock 1 9), .resume]).get (by decide +kernel) |>.2

theorem chainedOwners_reachable : Reachable smallConfig chainedOwners :=
  Reachable.of_runSteps smallBoot_initial (Option.some_get _).symm

/-- The switch that leaves the high task. -/
def chainedSwitch : Sys × List Obs :=
  (step smallConfig chainedOwners (switchFrom 1)).get (by decide +kernel)

theorem chainedSwitch_step :
    Step smallConfig chainedOwners (switchFrom 1, chainedSwitch.2) chainedSwitch.1 := by
  unfold chainedSwitch
  exact step_of_isSome _

/-- **Priority inheritance.**  The owner of a mutex runs at least at the base priority
of every task in its lock list.  Hence, as long as the owner is in a ready list or runs,
every switch dispatches a task of at least that priority; a switch that finds the
stack overrun halts the kernel and dispatches nobody. -/
theorem priority_inheritance (h : Reachable cfg s) {j : ℕ} {m : Mutex} {o w : Tid}
    (hm : s.kernel.mutex j = some m) (hown : m.owner = some o)
    (hw : w ∈ s.sched.eventL.elems (.mutexLock j)) :
    (s.sched.tcb w).priority ≤ s.sched.eff o ∧
      ∀ sp guard s' obs, s.sched.Runnable o → Step cfg s (.switch sp guard, obs) s' →
        s'.sched.failure = none →
          ∃ n, s'.cur = some n ∧ (s.sched.tcb w).priority ≤ s'.sched.eff n := by
  have hcov := h.prioInv.covered j m o w hm hown (ListStore.container_of_mem hw)
  refine ⟨hcov, fun sp guard s' obs hrun hs hf => ?_⟩
  unfold Step step at hs
  simp only at hs
  split at hs
  · rename_i hc
    obtain ⟨cur, hcur⟩ := Option.ne_none_iff_exists'.mp hc.1
    simp only [Option.some.injEq, Prod.mk.injEq] at hs
    obtain ⟨rfl, -⟩ := hs
    obtain ⟨n, hn, hall⟩ :=
      switchContext_top h.inv.ready.inv hcur hc.2.2.2.2 guard rfl hf
    exact ⟨n, hn, hcov.trans (hall o hrun)⟩
  · simp at hs

theorem priority_inheritance_chainedOwners :
    (chainedOwners.sched.tcb (.user 0)).priority ≤ chainedOwners.sched.eff (.user 1) ∧
      ∃ n, chainedSwitch.1.cur = some n ∧
        (chainedOwners.sched.tcb (.user 1)).priority ≤ chainedSwitch.1.sched.eff n :=
  ⟨(priority_inheritance chainedOwners_reachable (j := 1) (m := ⟨some (.user 1)⟩)
      (by decide +kernel) rfl (by decide +kernel)).1,
    (priority_inheritance chainedOwners_reachable (j := 0) (m := ⟨some (.user 2)⟩)
      (o := .user 2) (w := .user 1) (by decide +kernel) rfl (by decide +kernel)).2
        (4096 + 128) intactGuard chainedSwitch.1 chainedSwitch.2
        (Or.inl ⟨1, by decide +kernel⟩) chainedSwitch_step (by decide +kernel)⟩

/-- **Held-mutex accounting and restoration.**  The count of every task is the number
of mutexes it owns, also at the limit of 255; its effective priority lies between its
base priority and the number of priorities; and a task that holds no mutex runs at its
base priority. -/
theorem held_mutex_accounting (h : Reachable cfg s) (t : Tid) :
    {j | ∃ m, s.kernel.mutex j = some m ∧ m.owner = some t}.encard =
        (s.sched.tcb t).mutexesHeld ∧
      (s.sched.tcb t).mutexesHeld ≤ 0xFF ∧
      (s.sched.tcb t).priority ≤ s.sched.eff t ∧
      s.sched.eff t < cfg.priorityCount ∧
      ((s.sched.tcb t).mutexesHeld = 0 → s.sched.eff t = (s.sched.tcb t).priority) :=
  ⟨h.inv.mutexes.count t, h.inv.mutexes.le t, h.inv.ready.inv.prio_le t,
    h.inv.ready.inv.eff_lt t, h.prioInv.rested t⟩

theorem held_mutex_accounting_chainedOwners :
    {j | ∃ m, chainedOwners.kernel.mutex j = some m ∧ m.owner = some (.user 1)}.encard =
        (chainedOwners.sched.tcb (.user 1)).mutexesHeld ∧
      (chainedOwners.sched.tcb (.user 1)).mutexesHeld = 1 ∧
      chainedOwners.sched.eff (.user 1) = 2 :=
  ⟨(held_mutex_accounting chainedOwners_reachable (.user 1)).1, by decide +kernel,
    by decide +kernel⟩

end Artos
