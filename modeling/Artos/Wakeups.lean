/-
# No lost wakeup on queues

A queue does not hand items over.  An enqueue wakes the head of the read list, and the
woken reader may find that another task took the item.  What holds in every reachable
state is a count: while a reader waits, there are at least as many woken readers that
have not resumed (`Woken`) as there are items, and the same for writers and free slots
(`Stocked`).  Each pass of a loop and each interrupt form moves both sides together.
-/
import Artos.Handoff

open Function

namespace Artos

open Sched

variable {cfg : Config} {j : ℕ} {l : EventList} {obs obs₀ : List Obs} {s s' : Sys}
  {t u w : Tid} {n : ℕ}

/-! ## Woken tasks -/

/-- **The tasks unblocked as signaled** inside a call that waits in the list, which have
not resumed. -/
def Woken (l : EventList) (s : Sys) : Set Tid :=
  {u | (s.pc u).waitsOn = some l ∧ (s.sched.tcb u).waitReason = .signaled}

/-- Only created tasks wait. -/
theorem Inv.woken_finite (h : Inv cfg s) (l : EventList) : (Woken l s).Finite := by
  have hsub : Woken l s ⊆ insert Tid.idle ((Finset.range s.sched.taskCount).image Tid.user) := by
    rintro u ⟨hu, -⟩
    cases u with
    | idle => exact Set.mem_insert _ _
    | user i =>
        have hlt : i < s.sched.taskCount := by
          by_contra hge
          rw [h.fresh i (not_lt.mp hge)] at hu
          simp [Pc.waitsOn] at hu
        simpa using hlt
  exact (Set.Finite.insert _ (Finset.finite_toSet _)).subset hsub

/-- A task in the list has not been woken. -/
theorem Inv.not_woken_of_mem (h : Inv cfg s) (hu : s.sched.eventL.container u = some l) :
    u ∉ Woken l s := by
  rintro ⟨hp, hsig⟩
  rcases (h.tasks u).waits hp with hv | hv
  · exact hv.2.2 hsig
  · have hno := hv.1
    rw [show (s.sched.view u).event = s.sched.eventL.container u from rfl, hu] at hno
    simp at hno

/-- A section ends with its task outside the woken ones. -/
theorem Ends.not_woken {x : Object} {o : Outcome} (he : Ends x t o) :
    t ∉ Woken l (s.finish t o) := by
  rintro ⟨hp, hsig⟩
  have hpc : (s.finish t o).pc t = o.pc := update_self _ _ _
  rw [hpc] at hp
  cases he with
  | user hend => simp [hend, Pc.waitsOn] at hp
  | request hend => simp [hend, Pc.waitsOn] at hp
  | block hend hobs hreason => exact hreason hsig
  | read hx hend => simp [hend, Pc.waitsOn] at hp

/-- **The woken tasks after a step**: a task whose section it is is none of them, every
other task is one if it was, or if it has just been woken. -/
theorem StepKind.woken (h : Inv cfg s) {e : Event} (hs : StepKind cfg s e obs s')
    (u : Tid) : (u ∈ Woken l s' ↔ u ∈ Woken l s ∨ Obs.handed l u ∈ obs) ∨
      s.running = some u ∧ u ∉ Woken l s' ∧ (∀ r, s.pc u ≠ .request r) ∧
        ∀ w, s'.pc u ≠ .resume w := by
  cases hs.stepOf h u with
  | spared hsp =>
      obtain ⟨acts, hm, ha, hh⟩ := hsp.moves
      refine Or.inl ?_
      show (s'.pc u).waitsOn = some l ∧ _ ↔ ((s.pc u).waitsOn = some l ∧ _) ∨ _
      rw [hsp.pc, hh]
      by_cases hp : (s.pc u).waitsOn = some l
      · have hsig : (s'.sched.tcb u).waitReason = .signaled ↔
            (s.sched.tcb u).waitReason = .signaled ∨ Action.wake l u ∈ acts :=
          Moves.signaled h.ready hm (h.tasks u) hp ha
        simpa [hp] using hsig
      · have hno : Action.wake l u ∉ acts := fun hw =>
          hp (Moves.woken_waitsOn h.ready hm (h.tasks u) ha hw)
        simp [hp, hno]
  | @request r hrun hpc =>
      refine Or.inl ?_
      show ((update s.pc u (afterRequest r)) u).waitsOn = some l ∧ _ ↔ _
      rw [update_self, afterRequest_waitsOn, ← hpc]
      simp [Woken]
  | @own e x o hrun hI hsrc hstep =>
      refine Or.inr ⟨hrun, hstep.ends.not_woken, fun r => ?_, fun w => ?_⟩
      · cases hsrc with
        | call hpc => simp [hpc]
        | resume hpc => simp [hpc]
        | finish hpc => simp [hpc]
      · have hpc : (s.finish u o).pc u = o.pc := update_self _ _ _
        rw [hpc]
        cases hstep.ends with
        | user hend => simp [hend]
        | request hend => simp [hend]
        | block hend hobs hreason => simp [hend]
        | read hx hend => simp [hend]

/-! ## Enough woken tasks -/

/-- **While a task waits in the list, at least `n` tasks have been woken from it.** -/
def Stocked (l : EventList) (n : ℕ) (s : Sys) : Prop :=
  (∃ u, s.sched.eventL.container u = some l) → n ≤ (Woken l s).ncard

theorem stocked_zero : Stocked l 0 s := fun _ => Nat.zero_le _

/-- Nobody new waits, and the woken tasks stay. -/
theorem Stocked.keep (h : Stocked l n s) (hfin : (Woken l s').Finite)
    (hlist : ∀ u, s'.sched.eventL.container u = some l → s.sched.eventL.container u = some l)
    (hw : Woken l s ⊆ Woken l s') : Stocked l n s' := by
  rintro ⟨u, hu⟩
  exact (h ⟨u, hlist u hu⟩).trans (Set.ncard_le_ncard hw hfin)

/-- One task stops being woken, and one item or slot is used. -/
theorem Stocked.consume (h : Stocked l n s)
    (hlist : ∀ u, s'.sched.eventL.container u = some l → s.sched.eventL.container u = some l)
    (hw : Woken l s \ {t} ⊆ Woken l s') (hfin : (Woken l s').Finite) :
    Stocked l (n - 1) s' := by
  rintro ⟨u, hu⟩
  have hn := h ⟨u, hlist u hu⟩
  have hpred := Set.pred_ncard_le_ncard_sdiff_singleton (Woken l s) t
  have hle := Set.ncard_le_ncard hw hfin
  omega

/-- One task stops being woken, without an item or a slot that it could have used. -/
theorem Stocked.leave (h : Stocked l n s)
    (hlist : ∀ u, s'.sched.eventL.container u = some l → s.sched.eventL.container u = some l)
    (hw : Woken l s \ {t} ⊆ Woken l s') (hfin : (Woken l s').Finite)
    (hn : t ∈ Woken l s → n = 0) : Stocked l n s' := by
  by_cases ht : t ∈ Woken l s
  · rw [hn ht]
    exact stocked_zero
  · rw [Set.sdiff_singleton_eq_self ht] at hw
    exact h.keep hfin hlist hw

/-- The head of the list is woken, for one more item or slot. -/
theorem Stocked.produce (h : Stocked l n s) (hw : w ∉ Woken l s)
    (hin : s.sched.eventL.container w = some l) (hsub : insert w (Woken l s) ⊆ Woken l s')
    (hfin : (Woken l s').Finite) : Stocked l (n + 1) s' := by
  intro _
  have hn := h ⟨w, hin⟩
  have hfin₀ : (Woken l s).Finite := hfin.subset ((Set.subset_insert _ _).trans hsub)
  have hcard := Set.ncard_insert_of_notMem hw hfin₀
  have hle := Set.ncard_le_ncard hsub hfin
  omega

/-- **The balance of a queue**: woken readers for the items, woken writers for the free
slots. -/
structure QueueStocked (j : ℕ) (q : Queue) (s : Sys) : Prop where
  readers : Stocked (.queueRead j) q.count s
  writers : Stocked (.queueWrite j) (q.capacity - q.count) s

/-- A wake-up hands over to a task of the list. -/
theorem WakeEffect.handed_in {k k' : Sched} {acts : List Action} {wobs : List Obs} {g : Bool}
    (he : WakeEffect k l k' acts wobs g) (hu : Obs.handed l u ∈ wobs) :
    k.eventL.container u = some l := by
  cases he with
  | empty hnil => simp at hu
  | @head w rest hcons =>
      have huw : u = w := by simpa using hu
      exact huw ▸ ListStore.container_of_head hcons

/-- **A wake-up supplies the list** with one more woken task, if anybody waits. -/
theorem WakeEffect.stocked (h : Inv cfg s) {k k' : Sched} {acts : List Action}
    {wobs : List Obs} {g : Bool} (he : WakeEffect k l k' acts wobs g)
    (hk : k.eventL = s.sched.eventL) (hk' : s'.sched.eventL = k'.eventL)
    (hfin : (Woken l s').Finite)
    (hwoken : ∀ u, u ∈ Woken l s ∨ Obs.handed l u ∈ wobs → u ∈ Woken l s')
    (hst : Stocked l n s) : Stocked l (n + 1) s' := by
  cases he with
  | empty hnil =>
      rintro ⟨u, hu⟩
      rw [hk'] at hu
      have hmem := (ListStore.mem_elems _ _ u).mpr hu
      rw [hnil] at hmem
      simp at hmem
  | @head w rest hcons =>
      have hin : s.sched.eventL.container w = some l := hk ▸ ListStore.container_of_head hcons
      refine hst.produce (h.not_woken_of_mem hin) hin ?_ hfin
      rintro u (rfl | hu)
      · exact hwoken _ (Or.inr (by simp))
      · exact hwoken u (Or.inl hu)

/-- A wake-up brings nobody into a list. -/
theorem WakeEffect.event_of {k k' : Sched} {l' : EventList} {acts : List Action}
    {wobs : List Obs} {g : Bool} (he : WakeEffect k l' k' acts wobs g)
    (hu : k'.eventL.container u = some l) : k.eventL.container u = some l := by
  cases he with
  | empty hnil => exact hu
  | @head w rest hcons =>
      change (k.eventL.remove w).container u = some l at hu
      rw [ListStore.remove_container] at hu
      by_cases huw : u = w
      · subst huw
        simp at hu
      · rwa [update_of_ne huw] at hu

/-- **The woken tasks of a list whose calls do not move** stay woken, and those handed
something become it. -/
theorem StepKind.woken_kept (h : Inv cfg s) {e : Event} (hs : StepKind cfg s e obs s')
    (hpcs : ∀ u w, s.pc u = .resume w → w.list = l → s'.pc u = s.pc u)
    (hhead : ∀ u, Obs.handed l u ∈ obs → s.sched.eventL.container u = some l) :
    ∀ u, u ∈ Woken l s ∨ Obs.handed l u ∈ obs → u ∈ Woken l s' := by
  intro u hu
  rcases hs.woken (l := l) h u with hiff | ⟨-, -, hpre, hends⟩
  · exact hiff.mpr hu
  · -- such a task stands behind its request, where only its own section moves it
    have hw : (s.pc u).waitsOn = some l := hu.elim (fun hu => hu.1)
      fun hu => (h.tasks u).waitsOn (hhead u hu)
    rw [Pc.waitsOn_eq] at hw
    obtain ⟨w, hw, hwl⟩ := Option.map_eq_some_iff.mp hw
    rcases hpc : s.pc u with _ | r | w' | ⟨i, res⟩
    · simp [hpc, Pc.point] at hw
    · exact absurd hpc (hpre r)
    · have hww : w' = w := by simpa [hpc, Pc.point] using hw
      have hsame := hpcs u w' hpc (by rw [hww, hwl])
      exact absurd (hsame.trans hpc) (hends w')
    · simp [hpc, Pc.point] at hw

/-- In a section of the task `t`, the other woken tasks stay woken. -/
theorem StepKind.woken_section (h : Inv cfg s) {e : Event} (hs : StepKind cfg s e obs s')
    (hrun : s.running = some t) :
    (∀ u, u ≠ t → u ∈ Woken l s ∨ Obs.handed l u ∈ obs → u ∈ Woken l s') ∧
      Woken l s \ {t} ⊆ Woken l s' := by
  have hne : ∀ u, u ≠ t → u ∈ Woken l s ∨ Obs.handed l u ∈ obs → u ∈ Woken l s' := by
    intro u hut hu
    rcases hs.woken (l := l) h u with hiff | ⟨hrun', -⟩
    · exact hiff.mpr hu
    · rw [hrun, Option.some.injEq] at hrun'
      exact absurd hrun'.symm hut
  exact ⟨hne, fun u hu => hne u hu.2 (Or.inl hu.1)⟩

/-- **An enqueue**: one more item for the readers, one slot less for the writers. -/
theorem PutEffect.stocked (h : Inv cfg s) (h' : Inv cfg s') {k : Kernel} {q q' : Queue}
    {acts : List Action} {g : Bool} (he : PutEffect cfg k j s'.kernel acts obs g)
    (hkl : k.sched.eventL = s.sched.eventL) (hkq : k.queue j = some q)
    (hq' : s'.kernel.queue j = some q') (hok : QueueOk cfg q)
    (hreader : ∀ u, u ∈ Woken (.queueRead j) s ∨ Obs.handed (.queueRead j) u ∈ obs →
      u ∈ Woken (.queueRead j) s')
    (hwriter : Woken (.queueWrite j) s \ {t} ⊆ Woken (.queueWrite j) s')
    (hst : QueueStocked j q s) : QueueStocked j q' s' := by
  generalize hk' : s'.kernel = k' at he
  cases he with
  | @put q₀ data sched acts wobs g hq₀ hroom hw =>
      obtain rfl := Option.some.inj (hq₀.symm.trans hkq)
      have hlist : s'.sched.eventL = sched.eventL := by
        show s'.kernel.sched.eventL = _
        rw [hk']
      have hput : q₀.put cfg data = q' := by
        rw [hk'] at hq'
        simpa [Kernel.setQueue] using hq'
      have hcap := hok.capacity_lt
      have hcount := hok.valid.2.2.2.1
      have hu : u32 (q₀.count + 1) = q₀.count + 1 := Nat.mod_eq_of_lt (by omega)
      rw [← hput]
      constructor
      · show Stocked _ (u32 (q₀.count + 1)) s'
        rw [hu]
        refine hw.stocked h hkl hlist (h'.woken_finite _) (fun u hu => hreader u ?_) hst.readers
        exact hu.imp_right (List.mem_cons_of_mem _)
      · show Stocked _ (q₀.capacity - u32 (q₀.count + 1)) s'
        rw [hu, Nat.sub_add_eq]
        refine hst.writers.consume (fun u hu => ?_) hwriter (h'.woken_finite _)
        rw [hlist] at hu
        exact hkl ▸ hw.event_of hu

/-- **A dequeue**: one slot more for the writers, one item less for the readers. -/
theorem GetEffect.stocked (h : Inv cfg s) (h' : Inv cfg s') {k : Kernel} {q q' : Queue}
    {acts : List Action} {g : Bool} (he : GetEffect cfg k j s'.kernel acts obs g)
    (hkl : k.sched.eventL = s.sched.eventL) (hkq : k.queue j = some q)
    (hq' : s'.kernel.queue j = some q') (hok : QueueOk cfg q)
    (hwriter : ∀ u, u ∈ Woken (.queueWrite j) s ∨ Obs.handed (.queueWrite j) u ∈ obs →
      u ∈ Woken (.queueWrite j) s')
    (hreader : Woken (.queueRead j) s \ {t} ⊆ Woken (.queueRead j) s')
    (hst : QueueStocked j q s) : QueueStocked j q' s' := by
  generalize hk' : s'.kernel = k' at he
  cases he with
  | @get q₀ sched acts wobs g hq₀ hne hw =>
      obtain rfl := Option.some.inj (hq₀.symm.trans hkq)
      have hlist : s'.sched.eventL = sched.eventL := by
        show s'.kernel.sched.eventL = _
        rw [hk']
      have htake : q₀.take = q' := by
        rw [hk'] at hq'
        simpa [Kernel.setQueue] using hq'
      have hcount := hok.valid.2.2.2.1
      have hfree : q₀.capacity - (q₀.count - 1) = q₀.capacity - q₀.count + 1 := by omega
      rw [← htake]
      constructor
      · refine hst.readers.consume (fun u hu => ?_) hreader (h'.woken_finite _)
        rw [hlist] at hu
        exact hkl ▸ hw.event_of hu
      · show Stocked _ (q₀.capacity - (q₀.count - 1)) s'
        rw [hfree]
        refine hw.stocked h hkl hlist (h'.woken_finite _) (fun u hu => hwriter u ?_) hst.writers
        exact hu.imp_right (List.mem_cons_of_mem _)

/-- A woken task has no excuse. -/
theorem not_excused (hu : t ∈ Woken l s) : ¬ Excused s t := by
  rintro (hpc | hto)
  · have hp := hu.1
    simp [hpc, Pc.waitsOn] at hp
  · rw [hu.2] at hto
    simp at hto

/-- In a section of `t`, everybody else in the list stays woken or becomes it; and `t`
does not count where its call waits in another list. -/
theorem StepKind.woken_all (h : Inv cfg s) {e : Event} (hs : StepKind cfg s e obs s')
    (hrun : s.running = some t) (hp : (s.pc t).waitsOn ≠ some l)
    (hhead : Obs.handed l t ∈ obs → s.sched.eventL.container t = some l) :
    ∀ u, u ∈ Woken l s ∨ Obs.handed l u ∈ obs → u ∈ Woken l s' := by
  intro u hu
  by_cases hut : u = t
  · subst hut
    rcases hu with hu | hu
    · exact absurd hu.1 hp
    · exact absurd ((h.tasks u).waitsOn (hhead hu)) hp
  · exact (hs.woken_section h hrun).1 u hut hu

theorem PutEffect.handed_in {k k' : Kernel} {acts : List Action} {g : Bool}
    (he : PutEffect cfg k j k' acts obs g) (hu : Obs.handed l u ∈ obs) :
    l = .queueRead j ∧ k.sched.eventL.container u = some l := by
  cases he with
  | put hq hroom hw =>
      have hmem := (List.mem_cons.mp hu).resolve_left (by simp)
      obtain ⟨w, hw'⟩ := hw.obs_handed _ hmem
      obtain rfl : l = .queueRead j := by simp_all
      exact ⟨rfl, hw.handed_in hmem⟩

theorem GetEffect.handed_in {k k' : Kernel} {acts : List Action} {g : Bool}
    (he : GetEffect cfg k j k' acts obs g) (hu : Obs.handed l u ∈ obs) :
    l = .queueWrite j ∧ k.sched.eventL.container u = some l := by
  cases he with
  | get hq hroom hw =>
      have hmem := (List.mem_cons.mp hu).resolve_left (by simp)
      obtain ⟨w, hw'⟩ := hw.obs_handed _ hmem
      obtain rfl : l = .queueWrite j := by simp_all
      exact ⟨rfl, hw.handed_in hmem⟩

/-- **Every step keeps the balance of every queue.** -/
theorem StepKind.stocked (h : Inv cfg s) (h' : Inv cfg s') {e : Event}
    (hs : StepKind cfg s e obs s') {q q' : Queue} (hq : s.kernel.queue j = some q)
    (hq' : s'.kernel.queue j = some q') (hst : QueueStocked j q s) : QueueStocked j q' s' := by
  have hok := h.queues j q hq
  have hfin := h'.woken_finite
  cases hs.queueStep h j with
  | other hsame hobs hlist hpcs =>
      have heq : q' = q := Option.some.inj (hq'.symm.trans (hsame.trans hq))
      subst heq
      have hkept : ∀ l : EventList, l.object = .queue j → Woken l s ⊆ Woken l s' :=
        fun l hl u hu => hs.woken_kept h (fun u w hw hwl => hpcs u w hw (by rw [hwl, hl]))
          (fun u hu => absurd hl (hobs _ hu)) u (Or.inl hu)
      exact ⟨hst.readers.keep (hfin _) (fun u => hlist _ u rfl) (hkept _ rfl),
        hst.writers.keep (hfin _) (fun u => hlist _ u rfl) (hkept _ rfl)⟩
  | @enqueue t k data w inf o hrun hIk hk hpc hends hsec =>
      have hp : (s.pc t).waitsOn ≠ some (.queueRead j) := by
        rcases hpc with hpc | hpc <;> simp [hpc, Pc.waitsOn, WaitPoint.list]
      have hkq : k.queue j = some q := by rw [hk.queue, hq]
      have hsub := (hs.woken_section (l := .queueWrite j) h hrun).2
      cases hsec with
      | refuse hwhy =>
          obtain rfl : q' = q := Option.some.inj (hq'.symm.trans hkq)
          refine ⟨hst.readers.keep (hfin _) (fun u hu => hk.eventL ▸ hu)
              (fun u hu => hs.woken_all h hrun hp (by simp) u (Or.inl hu)),
            hst.writers.leave (fun u hu => hk.eventL ▸ hu) hsub (hfin _) fun ht => ?_⟩
          obtain ⟨⟨q₀, hq₀, hfull⟩, -⟩ := hwhy.resolve_left (not_excused ht)
          obtain rfl := Option.some.inj (hq₀.symm.trans hkq)
          omega
      | @block q₀ sched hq₀ hfull hw hd hm =>
          obtain rfl := Option.some.inj (hq₀.symm.trans hkq)
          obtain rfl : q' = q₀ := Option.some.inj (hq'.symm.trans hkq)
          have hnone : q'.capacity - q'.count = 0 := by omega
          refine ⟨hst.readers.keep (hfin _) (fun u hu => ?_)
              (fun u hu => hs.woken_all h hrun hp (by simp) u (Or.inl hu)), ?_⟩
          · rw [← hk.eventL]
            exact Moves.event_of_no_block hIk.toReady hm (by simp) hu
          · rw [hnone]
            exact stocked_zero
      | put he =>
          refine he.stocked h h' hk.eventL hkq hq' hok ?_ hsub hst
          exact hs.woken_all h hrun hp fun hu => hk.eventL ▸ (he.handed_in hu).2
  | @dequeue t k w inf o hrun hIk hk hpc hends hsec =>
      have hp : (s.pc t).waitsOn ≠ some (.queueWrite j) := by
        rcases hpc with hpc | hpc <;> simp [hpc, Pc.waitsOn, WaitPoint.list]
      have hkq : k.queue j = some q := by rw [hk.queue, hq]
      have hsub := (hs.woken_section (l := .queueRead j) h hrun).2
      cases hsec with
      | refuse hwhy =>
          obtain rfl : q' = q := Option.some.inj (hq'.symm.trans hkq)
          refine ⟨hst.readers.leave (fun u hu => hk.eventL ▸ hu) hsub (hfin _) fun ht => ?_,
            hst.writers.keep (hfin _) (fun u hu => hk.eventL ▸ hu)
              (fun u hu => hs.woken_all h hrun hp (by simp) u (Or.inl hu))⟩
          obtain ⟨⟨q₀, hq₀, hempty⟩, -⟩ := hwhy.resolve_left (not_excused ht)
          obtain rfl := Option.some.inj (hq₀.symm.trans hkq)
          exact hempty
      | @block q₀ sched hq₀ hempty hw hd hm =>
          obtain rfl := Option.some.inj (hq₀.symm.trans hkq)
          obtain rfl : q' = q₀ := Option.some.inj (hq'.symm.trans hkq)
          refine ⟨?_, hst.writers.keep (hfin _) (fun u hu => ?_)
            (fun u hu => hs.woken_all h hrun hp (by simp) u (Or.inl hu))⟩
          · rw [hempty]
            exact stocked_zero
          · rw [← hk.eventL]
            exact Moves.event_of_no_block hIk.toReady hm (by simp) hu
      | get he =>
          refine he.stocked h h' hk.eventL hkq hq' hok ?_ hsub hst
          exact hs.woken_all h hrun hp fun hu => hk.eventL ▸ (he.handed_in hu).2
  | putIsr he =>
      refine he.stocked (t := .idle) h h' rfl hq hq' hok ?_ ?_ hst
      · exact hs.woken_kept h (fun u w hw hwl => rfl) fun u hu => (he.handed_in hu).2
      · refine fun u hu => hs.woken_kept h (fun u w hw hwl => rfl)
          (fun u hu => (he.handed_in hu).2) u (Or.inl hu.1)
  | getIsr he =>
      refine he.stocked (t := .idle) h h' rfl hq hq' hok ?_ ?_ hst
      · exact hs.woken_kept h (fun u w hw hwl => rfl) fun u hu => (he.handed_in hu).2
      · refine fun u hu => hs.woken_kept h (fun u w hw hwl => rfl)
          (fun u hu => (he.handed_in hu).2) u (Or.inl hu.1)
  | refuseIsr hob =>
      have heq : q' = q := Option.some.inj (hq'.symm.trans hq)
      subst heq
      exact ⟨hst.readers, hst.writers⟩

/-- A queue starts empty and with nobody waiting. -/
theorem Initial.stocked (h₀ : Initial cfg s) (q : Queue) : QueueStocked j q s := by
  have hno : ∀ u l, s.sched.eventL.container u ≠ some l := by
    intro u l hu
    rw [h₀.sched] at hu
    simp [rtosSystemInit, rtosInitTcb, ListStore.empty] at hu
  constructor
  · rintro ⟨u, hu⟩
    exact absurd hu (hno u _)
  · rintro ⟨u, hu⟩
    exact absurd hu (hno u _)

/-- **In every reachable state every queue is in balance.** -/
theorem Reachable.stocked (h : Reachable cfg s) {q : Queue} (hq : s.kernel.queue j = some q) :
    QueueStocked j q s := by
  obtain ⟨s₀, tr, h₀, hr⟩ := h
  have hall : Inv cfg s ∧ ∀ q, s.kernel.queue j = some q → QueueStocked j q s := by
    refine hr.invariant (I := fun s => Inv cfg s ∧ ∀ q, s.kernel.queue j = some q →
      QueueStocked j q s) (fun s a s' hI hs => ?_) ⟨h₀.inv, fun q _ => h₀.stocked q⟩
    have hI' := hI.1.step hs
    have hkind := step_kind hI.1 hs
    refine ⟨hI', fun q' hq' => ?_⟩
    obtain ⟨q, hq⟩ := (hkind.queueStep hI.1 j).queue_some hq'
    exact hkind.stocked hI.1 hI' hq hq' (hI.2 q hq)
  exact hall.2 q hq

/-! ## No lost wakeup -/

/-- **No lost wakeup on queues.**  In every reachable state, for every queue: while its
read list is not empty, its count is at most the number of readers unblocked as signaled
that have not resumed; while its write list is not empty, its free slots are at most the
number of such writers.  So nobody stays blocked on an item or a slot with nobody already
woken to use it. -/
theorem no_lost_wakeup (h : Reachable cfg s) {q : Queue} (hq : s.kernel.queue j = some q) :
    (Woken (.queueRead j) s).Finite ∧ (Woken (.queueWrite j) s).Finite ∧
      (s.sched.eventL.elems (.queueRead j) ≠ [] →
        q.count ≤ (Woken (.queueRead j) s).ncard ∧
          (0 < q.count → (Woken (.queueRead j) s).Nonempty)) ∧
      (s.sched.eventL.elems (.queueWrite j) ≠ [] →
        q.capacity - q.count ≤ (Woken (.queueWrite j) s).ncard ∧
          (q.count < q.capacity → (Woken (.queueWrite j) s).Nonempty)) := by
  have hst := h.stocked hq
  have hsome : ∀ l, s.sched.eventL.elems l ≠ [] → ∃ u, s.sched.eventL.container u = some l := by
    intro l hl
    obtain ⟨u, hu⟩ := List.exists_mem_of_ne_nil _ hl
    exact ⟨u, ListStore.container_of_mem hu⟩
  have hpos : ∀ {l n}, n ≤ (Woken l s).ncard → 0 < n → (Woken l s).Nonempty := by
    intro l n hle hn
    exact Set.nonempty_of_ncard_ne_zero (by omega)
  refine ⟨h.inv.woken_finite _, h.inv.woken_finite _, fun hl => ?_, fun hl => ?_⟩
  · have hle := hst.readers (hsome _ hl)
    exact ⟨hle, hpos hle⟩
  · have hle := hst.writers (hsome _ hl)
    exact ⟨hle, fun hroom => hpos hle (by omega)⟩

/-- A reader waits, and a handler enqueues an item for it. -/
def wokenReader : List Label × Sys :=
  (Runs.runSteps (step smallConfig) smallBoot
    [createTask 1 0, createTask 2 1, createTask 3 1, .start, .call (.queueDequeue 0 true 5),
      .resume, switchFrom 2, .call (.queueDequeue 0 true 5), .resume, .isrEnter,
      .isrCall (.queueEnqueue 0 (some [7]) true)]).get (by decide +kernel)

theorem wokenReader_reachable : Reachable smallConfig wokenReader.2 :=
  Reachable.of_runSteps smallBoot_initial (Option.some_get _).symm

theorem no_lost_wakeup_wokenReader :
    wokenReader.2.sched.eventL.elems (.queueRead 0) = [.user 2] ∧
      (Woken (.queueRead 0) wokenReader.2).Nonempty := by
  have hcount : (wokenReader.2.kernel.queue 0).map Queue.count = some 1 := by decide +kernel
  have hlist : wokenReader.2.sched.eventL.elems (.queueRead 0) = [.user 2] := by
    decide +kernel
  obtain ⟨q, hq, hone⟩ := Option.map_eq_some_iff.mp hcount
  obtain ⟨-, -, hreaders, -⟩ := no_lost_wakeup wokenReader_reachable hq
  exact ⟨hlist, (hreaders (by rw [hlist]; simp)).2 (by omega)⟩

end Artos
