/-
# Exact inheritance without nested locking

When no task locks a mutex while it owns one, a task owns at most one mutex and a task that
waits for a mutex owns none (`Single`).  So every waiter runs at its base priority, and the
owner of a mutex runs exactly at the highest base priority among itself and the waiters
(`exact_inheritance`).  A waiter that has timed out takes its boost back only when it runs
again, and until then the owner may run at a higher priority than that.
-/
import Artos.Inheritance
import Artos.Ownership
import Artos.ServiceOrder
import Artos.NoTrace

open Function

namespace Artos

open Sched

variable {cfg : Config} {s s' s₀ : Sys} {t u o w : Tid} {i j : ℕ} {m : Mutex} {e : Event}
  {obs : List Obs} {tr : List Label} {r : Outcome} {x : Object}

/-! ## One mutex at a time -/

/-- **A step in which no task locks a mutex while it owns one.** -/
def Unnested (cfg : Config) (s : Sys) (y : Label) (s' : Sys) : Prop :=
  Step cfg s y s' ∧ ∀ t j n, s.running = some t → y.1 = .call (.mutexLock j n) →
    ∀ i, ¬ Owns s i t

/-- **A task owns at most one mutex, and none while it waits for one.** -/
structure Single (s : Sys) : Prop where
  owner : ∀ t i j, Owns s i t → Owns s j t → i = j
  waiter : ∀ t j, (s.pc t).waitsOn = some (.mutexLock j) →
    (s.sched.tcb t).waitReason ≠ .signaled → ∀ i, ¬ Owns s i t

/-- A task in the wait list of a mutex waits for it, and has not been signaled. -/
theorem Inv.waits (h : Inv cfg s) {l : EventList} (hc : s.sched.eventL.container t = some l) :
    (s.pc t).waitsOn = some l ∧ (s.sched.tcb t).waitReason ≠ .signaled := by
  have hwaits := (h.tasks t).waitsOn hc
  refine ⟨hwaits, ?_⟩
  rcases (h.tasks t).waits hwaits with hw | hr
  · exact hw.2.2
  · have hnone : s.sched.eventL.container t = none := hr.1
    rw [hnone] at hc
    simp at hc

/-- A task that owns no mutex holds none. -/
theorem MutexInv.held_eq_zero (h : MutexInv s.kernel) (hno : ∀ i, ¬ Owns s i t) :
    (s.sched.tcb t).mutexesHeld = 0 := by
  have hempty : OwnedBy s.kernel t = ∅ := Set.eq_empty_iff_forall_notMem.mpr hno
  have hcount := h.count t
  rw [hempty, Set.encard_empty] at hcount
  exact_mod_cast hcount.symm

/-- A task that waits for a mutex runs at its base priority. -/
theorem Single.rested (hs : Single s) (h : Inv cfg s) (hp : PrioInv s.kernel)
    (hc : s.sched.eventL.container t = some (.mutexLock j)) :
    s.sched.eff t = (s.sched.tcb t).priority := by
  obtain ⟨hwaits, hns⟩ := h.waits hc
  exact hp.rested t (h.mutexes.held_eq_zero (hs.waiter t j hwaits hns))

/-- The owner of a mutex holds that one only. -/
theorem Single.held (hs : Single s) (h : Inv cfg s) (ho : Owns s j o) :
    (s.sched.tcb o).mutexesHeld = 1 := by
  have hone : OwnedBy s.kernel o = {j} := by
    ext i
    exact ⟨fun hi => hs.owner o i j hi ho, fun hi => hi ▸ ho⟩
  have hcount := h.mutexes.count o
  rw [hone, Set.encard_singleton] at hcount
  exact_mod_cast hcount.symm

/-- A hand-over of a mutex goes to a task that waits for it. -/
theorem StepKind.handed_waits (h : Inv cfg s) (hs : StepKind cfg s e obs s') {l : EventList}
    (hob : Obs.handed l t ∈ obs) : s.sched.eventL.container t = some l := by
  obtain ⟨rest, hrest, -⟩ := (hs.handsOver h hob).head
  exact ListStore.container_of_head hrest

/-- **A step of another task** gives the task a mutex only if it waited for it. -/
theorem Single.spared (h₁ : Single s) (h : Inv cfg s) (hs : StepKind cfg s e obs s')
    (hsp : Spared cfg s t obs s') : (∀ i j, Owns s' i t → Owns s' j t → i = j) ∧
      ∀ j, (s'.pc t).waitsOn = some (.mutexLock j) →
        (s'.sched.tcb t).waitReason ≠ .signaled → ∀ i, ¬ Owns s' i t := by
  have howns : ∀ i, Owns s' i t ↔ Owns s i t ∨ Obs.handed (.mutexLock i) t ∈ obs :=
    fun i => hs.owns_spared h hsp.actor
  have hnone : ∀ i j, Obs.handed (.mutexLock i) t ∈ obs → ¬ Owns s j t := by
    intro i j hob
    obtain ⟨hwaits, hns⟩ := h.waits (hs.handed_waits h hob)
    exact h₁.waiter t i hwaits hns j
  refine ⟨fun i j hi hj => ?_, fun j hw hns i hi => ?_⟩
  · rcases (howns i).mp hi with hi | hi <;> rcases (howns j).mp hj with hj | hj
    · exact h₁.owner t i j hi hj
    · exact absurd hi (hnone j i hj)
    · exact absurd hj (hnone i j hi)
    · have hci := hs.handed_waits h hi
      rw [hs.handed_waits h hj] at hci
      simpa using hci.symm
  · obtain ⟨acts, hm, hspares, hhand⟩ := hsp.moves
    rw [hsp.pc] at hw
    have hsig := Moves.signaled h.ready hm (h.tasks t) hw hspares
    rcases (howns i).mp hi with hi | hi
    · exact h₁.waiter t j hw (fun hold => hns (hsig.mpr (Or.inl hold))) i hi
    · have hc := hs.handed_waits h hi
      obtain ⟨hwaits, -⟩ := h.waits hc
      rw [hw] at hwaits
      obtain rfl : j = i := by simpa using hwaits
      exact hns (hsig.mpr (Or.inr ((hhand _).mp hi)))

/-- The owners after one of the mutexes has changed hands. -/
theorem owns_finish {v : Option Tid} {sched : Sched}
    (hk : r.kernel = { s.kernel.setMutex j { owner := v } with sched := sched })
    (ho : Owns (s.finish t r) i u) : i = j ∧ v = some u ∨ i ≠ j ∧ Owns s i u := by
  obtain ⟨m, hm, hown⟩ := ho
  have hm' : r.kernel.mutex i = some m := hm
  rw [hk] at hm'
  rcases setMutex_cases hm' with ⟨rfl, rfl⟩ | ⟨hij, hm'⟩
  · exact Or.inl ⟨rfl, hown⟩
  · exact Or.inr ⟨hij, m, hm', hown⟩

/-- **The sections of a mutex** leave their task with one mutex at most. -/
theorem Single.own (h₁ : Single s) (hun : ∀ n, e = .call (.mutexLock j n) → ∀ i, ¬ Owns s i t)
    (hcases : (∃ n, e = .call (.mutexLock j n) ∧ s.pc t = .user ∧ LockSection cfg s.kernel j t r) ∨
      (e = .call (.mutexUnlock j) ∧ s.pc t = .user ∧ UnlockSection cfg s.kernel j t r) ∨
      (e = .resume ∧ s.pc t = .resume (.mutex j) ∧ LockResumeSection s.kernel j t r)) :
    (∀ i k, Owns (s.finish t r) i t → Owns (s.finish t r) k t → i = k) ∧
      ∀ k, r.pc.waitsOn = some (.mutexLock k) → ∀ i, ¬ Owns (s.finish t r) i t := by
  rcases hcases with ⟨n, rfl, -, hsec⟩ | ⟨-, -, hsec⟩ | ⟨-, -, hsec⟩
  · have hno := hun n rfl
    cases hsec with
    | refuse => exact ⟨h₁.owner t, by simp [Pc.waitsOn]⟩
    | acquire hm hown hheld =>
        refine ⟨fun i k hi hk => ?_, by simp [Pc.waitsOn]⟩
        rcases owns_finish rfl hi with ⟨rfl, -⟩ | ⟨-, hi⟩
        · rcases owns_finish rfl hk with ⟨rfl, -⟩ | ⟨-, hk⟩
          · rfl
          · exact absurd hk (hno k)
        · exact absurd hi (hno i)
    | block hm hown hne hheld hb hi => exact ⟨h₁.owner t, fun _ _ => hno⟩
  · cases hsec with
    | refuse hno => exact ⟨h₁.owner t, by simp [Pc.waitsOn]⟩
    | @release m k₁ acts changed hm hown hr hl =>
        refine ⟨fun i k hi hk => ?_, by cases changed <;> simp [Pc.waitsOn]⟩
        rcases owns_finish rfl hi with ⟨-, hv⟩ | ⟨-, hi⟩
        · simp at hv
        · rcases owns_finish rfl hk with ⟨-, hv⟩ | ⟨-, hk⟩
          · simp at hv
          · exact h₁.owner t i k hi hk
    | @hand m k₁ acts changed w rest hm hown hr hl =>
        -- what the caller owned besides is nothing
        have hother : ∀ i, i ≠ j → ¬ Owns s i t :=
          fun i hij hi => hij (h₁.owner t i j hi ⟨m, hm, hown⟩)
        refine ⟨fun i k hi hk => ?_, fun k hw => ?_⟩
        · rcases owns_finish rfl hi with ⟨rfl, -⟩ | ⟨hij, hi⟩
          · rcases owns_finish rfl hk with ⟨rfl, -⟩ | ⟨hkj, hk⟩
            · rfl
            · exact absurd hk (hother k hkj)
          · exact absurd hi (hother i hij)
        · rcases ite_request (k₁.eff w > k₁.eff t) with hg | hg <;> simp [hg, Pc.waitsOn] at hw
  · cases hsec <;> exact ⟨h₁.owner t, by simp [Pc.waitsOn]⟩

/-- **Every step of the discipline keeps it**: one mutex at a time. -/
theorem Single.step (h₁ : Single s) (h : Inv cfg s) (hs : Unnested cfg s (e, obs) s') :
    Single s' := by
  have hk := step_kind h hs.1
  have htask : ∀ t, (∀ i j, Owns s' i t → Owns s' j t → i = j) ∧
      ∀ j, (s'.pc t).waitsOn = some (.mutexLock j) →
        (s'.sched.tcb t).waitReason ≠ .signaled → ∀ i, ¬ Owns s' i t := by
    intro t
    cases hk.stepOf h t with
    | spared hsp => exact h₁.spared h hk hsp
    | @request q hrun hpc =>
        refine ⟨h₁.owner t, fun j hw hns => h₁.waiter t j ?_ hns⟩
        have hw' : (update s.pc t (afterRequest q) t).waitsOn = some (.mutexLock j) := hw
        rw [update_self, afterRequest_waitsOn] at hw'
        rw [hpc]
        exact hw'
    | @own e x r hrun hI hsrc hstep =>
        have hpc' : (s.finish t r).pc t = r.pc := by simp [Sys.finish]
        rw [hpc']
        by_cases hx : ∃ j, x = .mutex j
        · obtain ⟨j, rfl⟩ := hx
          obtain ⟨howner, hwaiter⟩ := h₁.own (fun n he => hs.2 t j n hrun he)
            (hsrc.mutex h hI)
          exact ⟨howner, fun j hw _ => hwaiter j hw⟩
        · obtain ⟨acts, hsec, -⟩ := hstep.sec
          have hsame : ∀ i, Owns (s.finish t r) i t ↔ Owns s i t :=
            fun i => owns_congr (hsec.mutex i fun he => hx ⟨i, he.symm⟩)
          refine ⟨fun i j hi hj => h₁.owner t i j ((hsame i).mp hi) ((hsame j).mp hj),
            fun j hw _ => ?_⟩
          cases hstep.ends with
          | user hu => simp [hu, Pc.waitsOn] at hw
          | request hu => simp [hu, Pc.waitsOn] at hw
          | read hx hu => simp [hu, Pc.waitsOn] at hw
          | @block w hu hobs hreason =>
              have hv := (hstep.valid w (by rw [hu]; rfl)).2
              have hl : w.list = .mutexLock j := by simpa [hu, Pc.waitsOn] using hw
              exact absurd ⟨j, by rw [← hv, hl]; rfl⟩ hx
  exact ⟨fun t => (htask t).1, fun t => (htask t).2⟩

/-- At the start no mutex is owned. -/
theorem Initial.not_owns (h : Initial cfg s) (i : ℕ) (t : Tid) : ¬ Owns s i t := by
  rintro ⟨m, hm, hown⟩
  obtain ⟨storage, hinit⟩ := h.mutex i m hm
  unfold artosMutexInit at hinit
  split at hinit
  · simp at hinit
  · rw [← Option.some.inj hinit] at hown
    simp at hown

theorem Initial.single (h : Initial cfg s) : Single s :=
  ⟨fun t i _ hi _ => absurd hi (h.not_owns i t), fun t _ _ _ i => h.not_owns i t⟩

/-! ## The exact priority of an owner -/

/-- **A waiter of the mutex that has timed out is still to resume** in its lock call. -/
def StillToResume (s : Sys) (j : ℕ) (t : Tid) : Prop :=
  (s.pc t).waitsOn = some (.mutexLock j) ∧ s.sched.eventL.container t = none ∧
    (s.sched.tcb t).waitReason = .timedOut

instance (s : Sys) (j : ℕ) (t : Tid) : Decidable (StillToResume s j t) :=
  inferInstanceAs (Decidable (_ ∧ _ ∧ _))

/-- The task, or a task in the list, has at least the base priority `p`. -/
def Owed (k : Sched) (l : EventList) (o : Tid) (p : ℕ) : Prop :=
  p ≤ (k.tcb o).priority ∨ ∃ w, k.eventL.container w = some l ∧ p ≤ (k.tcb w).priority

/-- **The owner of the mutex owes its priority** to itself, to a waiter, or to a waiter that has
timed out and is still to resume. -/
def Exact (s : Sys) (j : ℕ) : Prop :=
  ∀ o, Owns s j o →
    (∃ t, StillToResume s j t) ∨ Owed s.sched (.mutexLock j) o (s.sched.eff o)

/-- The higher one of two priorities. -/
theorem Owed.max {k : Sched} {l : EventList} {p q : ℕ} (hp : Owed k l o p) (hq : Owed k l o q) :
    Owed k l o (max p q) := by
  rcases le_total p q with hle | hle
  · rwa [max_eq_right hle]
  · rwa [max_eq_left hle]

theorem Owed.le {k : Sched} {l : EventList} {p q : ℕ} (hq : Owed k l o q) (hpq : p ≤ q) :
    Owed k l o p :=
  hq.imp hpq.trans fun ⟨w, hw, hle⟩ => ⟨w, hw, hpq.trans hle⟩

/-- The base priorities do not change, and nobody leaves the list. -/
theorem Owed.mono {k k' : Sched} {l : EventList} {p : ℕ} (h : Owed k l o p)
    (hbase : ∀ u, (k'.tcb u).priority = (k.tcb u).priority)
    (hwait : ∀ w, k.eventL.container w = some l → k'.eventL.container w = some l) :
    Owed k' l o p := by
  rcases h with hle | ⟨w, hw, hle⟩
  · exact Or.inl (hbase o ▸ hle)
  · exact Or.inr ⟨w, hwait w hw, hbase w ▸ hle⟩

/-- **A step changes the effective priority** of the owners of the mutex it is about only. -/
theorem StepKind.eff_kept (h : Inv cfg s) (hs : StepKind cfg s e obs s')
    (hu : ∃ k, u = .user k ∧ k < s.sched.taskCount) :
    (s'.sched.tcb u).priority = (s.sched.tcb u).priority ∧
      (s'.sched.eff u = s.sched.eff u ∨ ∃ i, Owns s i u ∧ ∃ ob ∈ obs, ob.object = .mutex i) := by
  cases hs.mutexStep h with
  | other hm ha hmutex hobs =>
      obtain ⟨heff, hbase⟩ := Moves.prio_kept h.ready hm ha hu
      exact ⟨hbase, Or.inl heff⟩
  | @lock j n t r hrun hI hpc hstep hsec =>
      cases hsec with
      | refuse => exact ⟨rfl, Or.inl rfl⟩
      | acquire hm hown hheld => exact ⟨withHeld_priority _, Or.inl (withHeld_eff _)⟩
      | @block m o w inf k₁ k₂ acts hm hown hne hheld hb hi =>
          obtain ⟨-, hbase₁, heff₁, -⟩ := Moves.block_kept h.ready hb u
          obtain ⟨-, hbase₂, heff₂, -⟩ := hi.spec u
          refine ⟨hbase₂.trans hbase₁, ?_⟩
          by_cases huo : u = o
          · subst huo
            exact Or.inr ⟨j, ⟨m, hm, hown⟩, _, List.mem_singleton_self _, rfl⟩
          · rw [if_neg huo] at heff₂
            exact Or.inl (heff₂.trans heff₁)
  | @unlock j t r hrun hI hpc hstep hsec =>
      cases hsec with
      | refuse hno => exact ⟨rfl, Or.inl rfl⟩
      | release hm hown hr hl =>
          obtain ⟨hbase, heff, -⟩ := hr.spec u
          refine ⟨hbase, heff.imp id ?_⟩
          rintro ⟨rfl, -⟩
          exact ⟨j, ⟨_, hm, hown⟩, _, List.mem_singleton_self _, rfl⟩
      | @hand m k₁ acts changed w rest hm hown hr hl =>
          obtain ⟨hbase, heff, -⟩ := hr.spec u
          have hbase' : (((k₁.unblocked w .signaled).withHeld w ((k₁.tcb w).mutexesHeld + 1)).tcb
              u).priority = (k₁.tcb u).priority := by
            rw [withHeld_priority, unblocked_priority]
          have heff' : ((k₁.unblocked w .signaled).withHeld w ((k₁.tcb w).mutexesHeld + 1)).eff u =
              k₁.eff u := by
            rw [withHeld_eff, unblocked_eff]
          refine ⟨hbase'.trans hbase, heff.imp heff'.trans ?_⟩
          rintro ⟨rfl, -⟩
          exact ⟨j, ⟨_, hm, hown⟩, _, List.mem_cons_self, rfl⟩
  | @resume j t r hrun hI hpc hstep hsec =>
      cases hsec with
      | granted hres =>
          show (s.sched.rtosClearCurrentWaitReason.tcb u).priority = _ ∧
            (s.sched.rtosClearCurrentWaitReason.eff u = _ ∨ _)
          rw [hI.clear_eq]
          exact ⟨cleared_priority, Or.inl cleared_eff⟩
      | @timedOut m k₁ acts hm hres hd =>
          rw [hI.clear_eq] at hd
          cases hd with
          | keep hkeep => exact ⟨cleared_priority, Or.inl cleared_eff⟩
          | @drop o ho hheld hlt =>
              refine ⟨withEff_priority.trans cleared_priority, ?_⟩
              by_cases huo : u = o
              · subst huo
                exact Or.inr ⟨j, ⟨m, hm, ho⟩, _, List.mem_singleton_self _, rfl⟩
              · exact Or.inl (withEff_eff.trans ((if_neg huo).trans cleared_eff))

/-- **A waiter of a mutex** that a step is not about stays, or has timed out. -/
theorem StepKind.waiter_kept (h : Inv cfg s) (hs : StepKind cfg s e obs s')
    (hobs : ∀ ob ∈ obs, ob.object ≠ .mutex j)
    (hc : s.sched.eventL.container w = some (.mutexLock j)) :
    s'.sched.eventL.container w = some (.mutexLock j) ∨ StillToResume s' j w := by
  obtain ⟨hwaits, hns⟩ := h.waits hc
  cases hs.stepOf h w with
  | spared hsp =>
      obtain ⟨acts, hm, hspares, hhand⟩ := hsp.moves
      have hwaits' : (s'.pc w).waitsOn = some (.mutexLock j) := by
        rw [hsp.pc]
        exact hwaits
      rcases (hs.tasks h w).waits hwaits' with hw | hr
      · exact Or.inl hw.1
      · refine Or.inr ⟨hwaits', hr.1, timedOut_of_unserved hr.2.2 fun hsig => ?_⟩
        rcases (Moves.signaled h.ready hm (h.tasks w) hwaits hspares).mp hsig with hold | hwake
        · exact hns hold
        · exact hobs _ ((hhand _).mpr hwake) rfl
  | request hrun hpc => exact Or.inl hc
  | own hrun hI hsrc hstep =>
      have hnone := hI.can.event
      rw [hc] at hnone
      simp at hnone

/-- A waiter that has timed out stays so in a step that is not its own, or not about its mutex. -/
theorem StepKind.stillToResume (h : Inv cfg s) (hs : StepKind cfg s e obs s')
    (hno : s.running ≠ some t ∨ ∀ ob ∈ obs, ob.object ≠ .mutex j) (ht : StillToResume s j t) :
    StillToResume s' j t := by
  obtain ⟨hwaits, hnone, hto⟩ := ht
  have hin : (s.pc t).InCall := by
    cases hpc : s.pc t with
    | request v => cases v <;> simp_all [Pc.waitsOn, Pc.InCall]
    | resume v => trivial
    | _ => simp [hpc, Pc.waitsOn] at hwaits
  have hfree : ¬ s.sched.Blocked t := by
    rcases (h.tasks t).waits hwaits with hw | hr
    · have hsome : s.sched.eventL.container t = some (.mutexLock j) := hw.1
      rw [hnone] at hsome
      simp at hsome
    · intro hb
      have hblk : s.sched.inBlockedList t = true := inBlockedList_iff.mpr hb
      exact Bool.false_ne_true (hr.2.1.symm.trans hblk)
  cases hs.stepOf h t with
  | spared hsp =>
      obtain ⟨hfree', hreason⟩ := hsp.free h hin hfree
      refine ⟨by rw [hsp.pc]; exact hwaits, ?_, hreason.trans hto⟩
      refine (hs.tasks h t).free (hsp.pc ▸ hin) ?_
      exact Bool.eq_false_iff.mpr fun hb => hfree' (inBlockedList_iff.mp hb)
  | @request v hrun hpc =>
      refine ⟨?_, hnone, hto⟩
      show (update s.pc t (afterRequest v) t).waitsOn = _
      rw [update_self, afterRequest_waitsOn, ← hpc]
      exact hwaits
  | @own e x r hrun hI hsrc hstep =>
      -- its own section would be about the mutex
      have hobs := hno.resolve_left (by simp [hrun])
      have hx : x = .mutex j := by
        cases hsrc with
        | call hpc => simp [hpc, Pc.waitsOn] at hwaits
        | finish hpc => simp [hpc, Pc.waitsOn] at hwaits
        | @resume v hpc =>
            have hv : v.list = .mutexLock j := by simpa [hpc, Pc.waitsOn] using hwaits
            rw [hv]
            rfl
      subst hx
      rcases hsrc.mutex h hI with ⟨n, -, hpc, -⟩ | ⟨-, hpc, -⟩ | ⟨-, -, hsec⟩
      · simp [hpc, Pc.waitsOn] at hwaits
      · simp [hpc, Pc.waitsOn] at hwaits
      · cases hsec <;> exact absurd rfl (hobs _ (List.mem_singleton_self _))

/-- **A step that is not about the mutex** keeps its owner exact. -/
theorem Exact.far (h₁ : Single s) (h : Inv cfg s) (hx : Exact s j) (hs : StepKind cfg s e obs s')
    (hmutex : s'.kernel.mutex j = s.kernel.mutex j) (hobs : ∀ ob ∈ obs, ob.object ≠ .mutex j) :
    Exact s' j := by
  intro o ho'
  have ho := (owns_congr hmutex).mp ho'
  obtain ⟨hbase, heff⟩ := hs.eff_kept h (h.mutexes.owner o j ho)
  have heff' : s'.sched.eff o = s.sched.eff o := by
    rcases heff with heff | ⟨i, hi, ob, hob, hobj⟩
    · exact heff
    · exact absurd (h₁.owner o i j hi ho ▸ hobj) (hobs ob hob)
  rw [heff']
  rcases hx o ho with ⟨t, ht⟩ | hle | ⟨w, hw, hle⟩
  · exact Or.inl ⟨t, hs.stillToResume h (Or.inr hobs) ht⟩
  · exact Or.inr (Or.inl (hbase ▸ hle))
  · rcases hs.waiter_kept h hobs hw with hw' | hpend
    · have huser := h.ready.inv.blocked_user (h.ready.inv.event_blocked w (by rw [hw]; simp))
      exact Or.inr (Or.inr ⟨w, hw', (hs.eff_kept h huser).1 ▸ hle⟩)
    · exact Or.inl ⟨w, hpend⟩

/-- When the waiters run at their base priorities, the required priority of the owner is its
own, or that of a waiter. -/
theorem owed_required {k : Sched} {l : EventList}
    (hrest : ∀ w, k.eventL.container w = some l → k.eff w = (k.tcb w).priority) :
    Owed k l o (rtosMutexRequiredPriority k (some o) l) := by
  rcases hl : k.eventL.elems l with _ | ⟨w, rest⟩
  · exact Or.inl (rtosMutexRequiredPriority_nil hl).le
  · have hw := ListStore.container_of_head hl
    rw [rtosMutexRequiredPriority_cons hl, hrest w hw]
    exact Owed.max (Or.inr ⟨w, hw, le_rfl⟩) (Or.inl le_rfl)

/-- **A lock keeps the owner exact.** -/
theorem LockSection.exact (h₁ : Single s) (h : Inv cfg s) (hp : PrioInv s.kernel)
    (hno : ∀ i, ¬ Owns s i t) (hx : Exact s j)
    (hpend : ∀ u, StillToResume s j u → StillToResume (s.finish t r) j u)
    (hs : LockSection cfg s.kernel j t r) : Exact (s.finish t r) j := by
  intro o ho
  have hbase : s.sched.eff t = (s.sched.tcb t).priority :=
    hp.rested t (h.mutexes.held_eq_zero hno)
  cases hs with
  | refuse => exact (hx o ho).imp (fun ⟨u, hu⟩ => ⟨u, hpend u hu⟩) id
  | acquire hm hown hheld =>
      obtain rfl : t = o := by simpa using (owns_setMutex rfl).mp ho
      refine Or.inr (Or.inl ?_)
      show (withHeld _ t _).eff t ≤ ((withHeld _ t _).tcb t).priority
      rw [withHeld_eff, withHeld_priority]
      exact hbase.le
  | @block m o' v inf k₁ k₂ acts hm hown hne hheld hb hi =>
      have ho₀ : Owns s j o := ho
      obtain rfl : o' = o := Option.some.inj (hown.symm.trans (ho₀.owner hm))
      have hk₁ := Moves.block_kept h.ready hb
      -- every waiter runs at its base priority, the new one included
      have hrest : ∀ w, k₁.eventL.container w = some (.mutexLock j) →
          k₁.eff w = (k₁.tcb w).priority := by
        intro w hw
        rw [(hk₁ w).2.2.1, (hk₁ w).2.1]
        rw [(hk₁ w).2.2.2] at hw
        by_cases hwt : w = t
        · rw [hwt]
          exact hbase
        · rw [if_neg hwt] at hw
          exact h₁.rested h hp hw
      refine (hx o' ho₀).imp (fun ⟨u, hu⟩ => ⟨u, hpend u hu⟩) fun howed => ?_
      have howed₁ : Owed k₁ (.mutexLock j) o' (k₁.eff o') := by
        rw [(hk₁ o').2.2.1]
        refine howed.mono (fun u => (hk₁ u).2.1) fun w hw => ?_
        rw [(hk₁ w).2.2.2]
        split
        · rfl
        · exact hw
      show Owed k₂ (.mutexLock j) o' (k₂.eff o')
      rw [(hi.spec o').2.2.1, if_pos rfl]
      exact (howed₁.max (owed_required hrest)).mono (fun u => (hi.spec u).2.1)
        fun w hw => (hi.spec w).2.2.2.trans hw

/-- **An unlock makes the new owner exact.** -/
theorem UnlockSection.exact (h₁ : Single s) (h : Inv cfg s) (hp : PrioInv s.kernel)
    (hI : InTask cfg s.sched t) (hx : Exact s j)
    (hpend : ∀ u, StillToResume s j u → StillToResume (s.finish t r) j u)
    (hs : UnlockSection cfg s.kernel j t r) : Exact (s.finish t r) j := by
  intro o ho
  cases hs with
  | refuse hno => exact (hx o ho).imp (fun ⟨u, hu⟩ => ⟨u, hpend u hu⟩) id
  | release hm hown hr hl => exact absurd ((owns_setMutex rfl).mp ho) (by simp)
  | @hand m k₁ acts changed v rest hm hown hr hl =>
      obtain rfl : v = o := by simpa using (owns_setMutex rfl).mp ho
      have hc := ListStore.container_of_head hl
      have hvt : v ≠ t := hI.can.ne_waiting hc
      refine Or.inr (Or.inl ?_)
      show (withHeld _ v _).eff v ≤ ((withHeld _ v _).tcb v).priority
      rw [withHeld_eff, withHeld_priority, unblocked_eff, unblocked_priority, (hr.spec v).1]
      rcases (hr.spec v).2.1 with heq | ⟨hvt', -⟩
      · rw [heq]
        exact (h₁.rested h hp hc).le
      · exact absurd hvt' hvt

/-- **A waiter that resumes** leaves the owner exact, also when it has timed out. -/
theorem LockResumeSection.exact (h₁ : Single s) (h : Inv cfg s) (hp : PrioInv s.kernel)
    (hI : InTask cfg s.sched t) (hx : Exact s j)
    (hpend : ∀ u, u ≠ t → StillToResume s j u → StillToResume (s.finish t r) j u)
    (hs : LockResumeSection s.kernel j t r) : Exact (s.finish t r) j := by
  intro o ho
  cases hs with
  | granted hres =>
      have hne : ∀ u, StillToResume s j u → u ≠ t := by
        rintro u hu rfl
        have hto := hu.2.2
        rw [hres] at hto
        simp at hto
      rcases hx o ho with ⟨u, hu⟩ | howed
      · exact Or.inl ⟨u, hpend u (hne u hu) hu⟩
      · refine Or.inr ?_
        show Owed s.sched.rtosClearCurrentWaitReason _ o
          (s.sched.rtosClearCurrentWaitReason.eff o)
        rw [hI.clear_eq, cleared_eff]
        exact howed.mono (fun u => cleared_priority) fun w hw => hw
  | @timedOut m k₁ acts hm hres hd =>
      have ho₀ : Owns s j o := ho
      have hown : m.owner = some o := ho₀.owner hm
      rw [hI.clear_eq, hown] at hd
      have hrest : ∀ w, (s.sched.cleared t).eventL.container w = some (.mutexLock j) →
          (s.sched.cleared t).eff w = ((s.sched.cleared t).tcb w).priority := by
        intro w hw
        rw [cleared_eff, cleared_priority]
        exact h₁.rested h hp hw
      have howed := (owed_required (o := o) hrest).max (Or.inl le_rfl)
      have hheld : ((s.sched.cleared t).tcb o).mutexesHeld = 1 := by
        rw [cleared_mutexesHeld]
        exact h₁.held h ho₀
      refine Or.inr ?_
      show Owed k₁ (.mutexLock j) o (k₁.eff o)
      cases hd with
      | keep hkeep => exact howed.le (hkeep o rfl hheld)
      | @drop o' ho' hheld' hlt =>
          obtain rfl := Option.some.inj ho'
          rw [withEff_eff, if_pos rfl]
          refine howed.mono (fun u => withEff_priority) fun w hw => ?_
          rw [withEff_eventContainer]
          exact hw

/-- **Every step of the discipline** keeps the owner exact. -/
theorem Exact.step (h₁ : Single s) (h : Inv cfg s) (hp : PrioInv s.kernel) (hx : Exact s j)
    (hs : Unnested cfg s (e, obs) s') : Exact s' j := by
  have hk := step_kind h hs.1
  rcases hk.mutex_cases h j with ⟨hmutex, hobs⟩ | ⟨t, r, hrun, hI, hstep, rfl, rfl, hcases⟩
  · exact hx.far h₁ h hk hmutex hobs
  · have hpend : ∀ u, u ≠ t → StillToResume s j u → StillToResume (s.finish t r) j u :=
      fun u hut hu => hk.stillToResume h (Or.inl fun hu' => hut (by simpa [hrun] using hu'.symm)) hu
    have huser : s.pc t = .user → ∀ u, StillToResume s j u →
        StillToResume (s.finish t r) j u := by
      intro hpc u hu
      refine hpend u ?_ hu
      rintro rfl
      have hwaits := hu.1
      simp [hpc, Pc.waitsOn] at hwaits
    rcases hcases with ⟨n, he, hpc, hsec⟩ | ⟨-, hpc, hsec⟩ | ⟨-, hpc, hsec⟩
    · exact hsec.exact h₁ h hp (hs.2 t j n hrun he) hx (huser hpc)
    · exact hsec.exact h₁ h hp hI hx (huser hpc)
    · exact hsec.exact h₁ h hp hI hx hpend

/-! ## Exact inheritance -/

/-- The highest base priority among the task and the waiters of the mutex. -/
def inheritedPriority (k : Sched) (j : ℕ) (o : Tid) : ℕ :=
  ((k.eventL.elems (.mutexLock j)).map fun w => (k.tcb w).priority).foldr max (k.tcb o).priority

/-- It is the least bound of these base priorities. -/
theorem inheritedPriority_le {k : Sched} {p : ℕ} : inheritedPriority k j o ≤ p ↔
    (k.tcb o).priority ≤ p ∧
      ∀ w, k.eventL.container w = some (.mutexLock j) → (k.tcb w).priority ≤ p := by
  unfold inheritedPriority
  simp only [← k.eventL.mem_elems]
  induction k.eventL.elems (.mutexLock j) with
  | nil => simp
  | cons w rest ih =>
      rw [List.map_cons, List.foldr_cons, max_le_iff, ih, List.forall_mem_cons]
      exact and_left_comm

theorem Owed.le_inherited {k : Sched} {p : ℕ} (h : Owed k (.mutexLock j) o p) :
    p ≤ inheritedPriority k j o := by
  obtain ⟨hbase, hwait⟩ := inheritedPriority_le.mp (le_refl (inheritedPriority k j o))
  rcases h with hle | ⟨w, hw, hle⟩
  · exact hle.trans hbase
  · exact hle.trans (hwait w hw)

/-- The invariants of a run without nested locking. -/
theorem Unnested.run (h₀ : Initial cfg s₀) (hr : Runs.Exec (Unnested cfg) s₀ tr s) :
    Single s ∧ ∀ j, Exact s j := by
  have hinv : (Inv cfg s ∧ PrioInv s.kernel) ∧ Single s ∧ ∀ j, Exact s j := by
    refine hr.invariant (I := fun s => (Inv cfg s ∧ PrioInv s.kernel) ∧ Single s ∧ ∀ j, Exact s j)
      ?_ ⟨⟨h₀.inv, h₀.prioInv⟩, h₀.single, fun j o ho => absurd ho (h₀.not_owns j o)⟩
    rintro s ⟨e, obs⟩ s' ⟨⟨h, hp⟩, h₁, hx⟩ hs
    exact ⟨⟨h.step hs.1, (step_kind h hs.1).prioInv h hp⟩, h₁.step h hs,
      fun j => (hx j).step h₁ h hp hs⟩
  exact hinv.2

/-- **Exact inheritance.**  In a run in which no task locks a mutex while it owns one, the owner
of a mutex runs exactly at the highest base priority among itself and the waiters, unless a
waiter that has timed out is still to resume; and then it runs at least at that priority. -/
theorem exact_inheritance (h₀ : Initial cfg s₀) (hr : Runs.Exec (Unnested cfg) s₀ tr s)
    (ho : Owns s j o) :
    inheritedPriority s.sched j o ≤ s.sched.eff o ∧
      ((∀ t, ¬ StillToResume s j t) → s.sched.eff o = inheritedPriority s.sched j o) := by
  have hreach : Reachable cfg s := ⟨s₀, tr, h₀, hr.mono fun _ _ _ hs => hs.1⟩
  obtain ⟨m, hm, hown⟩ := ho
  have hle : inheritedPriority s.sched j o ≤ s.sched.eff o :=
    inheritedPriority_le.mpr ⟨hreach.inv.ready.inv.prio_le o,
      fun w hw => hreach.prioInv.covered j m o w hm hown hw⟩
  refine ⟨hle, fun hno => le_antisymm ?_ hle⟩
  rcases (Unnested.run h₀ hr).2 j o ⟨m, hm, hown⟩ with ⟨t, ht⟩ | howed
  · exact absurd ht (hno t)
  · exact howed.le_inherited

/-! ## A run without nested locking -/

/-- A task that locks a mutex holds none. -/
def Unencumbered (s : Sys) : Event → Prop
  | .call (.mutexLock _ _) => ∀ t ∈ s.running, (s.sched.tcb t).mutexesHeld = 0
  | _ => True

instance (s : Sys) (e : Event) : Decidable (Unencumbered s e) := by
  unfold Unencumbered
  split <;> infer_instance

theorem unnested_of_runSteps (h₀ : Initial cfg s₀) {es : List Event} {r : List Label × Sys}
    (h : Runs.runSteps (fun s e => (step cfg s e).filter fun _ => Unencumbered s e) s₀ es =
      some r) : Runs.Exec (Unnested cfg) s₀ r.1 r.2 := by
  have hrun := Runs.exec_of_runSteps_guard (step cfg) (fun s e _ => Unencumbered s e) h
  refine (hrun.strengthen (I := Inv cfg) (fun s a s' hI hs => hI.step (l := a) hs.1)
    h₀.inv).mono fun s a s' hs => ⟨hs.1.1, fun t j n hr he i ho => ?_⟩
  obtain ⟨⟨-, hfree⟩, hI, -⟩ := hs
  rw [he] at hfree
  obtain ⟨m, hm, hown⟩ := ho
  have hpos : 0 < (s.sched.tcb t).mutexesHeld := hI.mutexes.held_pos hm hown
  exact absurd (hfree t hr) hpos.ne'

/-- The owner of a mutex waits, with a waiter of priority 1 and one of priority 2 that has timed
out and goes on. -/
def releasedBoost : List Label × Sys :=
  (Runs.runSteps (fun s e => (step smallConfig s e).filter fun _ => Unencumbered s e) smallBoot
    [createTask 1 2, createTask 2 1, createTask 3 0, .start, .call (.wait 1), .resume,
      switchFrom 1, .call (.wait 2), .resume, switchFrom 2, .call (.mutexLock 0 0), .tick,
      switchFrom 3, .call (.mutexLock 0 2), .resume, switchFrom 1, .tick, .call (.wait 5),
      .resume, switchFrom 3, .call (.mutexLock 0 0xFFFFFFFF), .resume, switchFrom 2, .tick,
      .switch 256 intactGuard, .resume]).get (by decide +kernel)

theorem exact_inheritance_releasedBoost :
    releasedBoost.2.sched.eff (.user 2) = inheritedPriority releasedBoost.2.sched 0 (.user 2) ∧
      inheritedPriority releasedBoost.2.sched 0 (.user 2) = 1 := by
  have hrun : Runs.Exec (Unnested smallConfig) smallBoot releasedBoost.1 releasedBoost.2 :=
    unnested_of_runSteps smallBoot_initial (Option.some_get _).symm
  have hmutex : releasedBoost.2.kernel.mutex 0 = some { owner := some (.user 2) } := by
    decide +kernel
  have hreach : Reachable smallConfig releasedBoost.2 :=
    ⟨_, _, smallBoot_initial, hrun.mono fun _ _ _ hs => hs.1⟩
  -- no task but the three that were created is in a call
  have hno : ∀ t, ¬ StillToResume releasedBoost.2 0 t := by
    intro t ht
    have hcount : releasedBoost.2.sched.taskCount = 3 := by decide +kernel
    cases t with
    | idle => exact absurd ht (by decide +kernel)
    | user i =>
        by_cases hi : i < 3
        · have hall : ∀ i < 3, ¬ StillToResume releasedBoost.2 0 (.user i) := by decide +kernel
          exact hall i hi ht
        · have hpc := hreach.inv.fresh i (by omega)
          have hwaits := ht.1
          simp [hpc, Pc.waitsOn] at hwaits
  exact ⟨(exact_inheritance smallBoot_initial hrun ⟨_, hmutex, rfl⟩).2 hno, by decide +kernel⟩

end Artos
