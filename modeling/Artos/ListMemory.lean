/-
# The lists of the kernel in memory

The scheduler model reads the lists of the kernel as sequences, and stands for the
assertions of `list.c` by one check in front of each list operation.  Here the two items
of every task and the heads of all lists lie in memory (`ListMemory`), where the functions
of `list.c` change them.

* `ListOp.check_exact` : on a memory that holds the lists, the check in front of an
  operation fails if and only if the function of `list.c` halts;
* `ListOp.holds` : when the function returns, the memory holds the new lists;
* `Run.memory` : a run of the machine is, in memory, a run of functions that all return.
-/
import Artos.ListRuns
import Artos.Preserve

open Function Runs

namespace Artos

open Sched

/-! ## Which calls return -/

section Calls

variable {L I O : Type} [DecidableEq L] [DecidableEq I] {h h' : Heap L I O}
  {st : ListStore L I} {l : L} {i : I} {c : ListCall L I}

/-- **A call returns if and only if it meets the assertions it begins with.** -/
theorem Represents.returns_iff (hR : Represents h st) :
    (∃ h', Returns h c h') ↔ Asserted h c := by
  constructor
  · rintro ⟨h', hret⟩
    exact hret.asserted
  · intro ha
    obtain ⟨h', st', ⟨n, hn⟩, -⟩ := hR.call ha
    exact ⟨h', n, hn n le_rfl⟩

omit [DecidableEq L] [DecidableEq I] in
/-- An item may be linked if and only if it is in no list and has an owner. -/
theorem Represents.mayLink_item (hR : Represents h st) :
    MayLink h (some (.item i)) ↔ st.container i = none ∧ h.owner (.item i) ≠ none := by
  rw [← hR.container]
  constructor
  · rintro ⟨r, hr, hm⟩
    obtain rfl := Option.some.inj hr
    exact hm
  · exact fun hm => ⟨_, rfl, hm⟩

omit [DecidableEq L] [DecidableEq I] in
/-- At the end of a list, the assertions are those on the item. -/
theorem Represents.asserted_insertEnd (hR : Represents h st) :
    Asserted h (.insertEnd (some l) (some (.item i))) ↔ MayLink h (some (.item i)) := by
  constructor
  · exact fun ha => (ha l rfl).1
  · intro hm l' hl
    obtain rfl := Option.some.inj hl
    have hgap := hR.gap (l := l) (List.append_nil _)
    exact ⟨hm, _, by simp [hR.home], hgap.2, hgap.1⟩

omit [DecidableEq L] [DecidableEq I] in
/-- An item may be removed if and only if it is in a list. -/
theorem Represents.asserted_remove (hR : Represents h st)
    (hlen : ∀ l, (st.elems l).length < 4294967296) :
    Asserted h (.remove (some (.item i))) ↔ st.container i ≠ none := by
  rw [← hR.container]
  constructor
  · rintro ⟨r, c, next, prev, hr, hc, -⟩
    obtain rfl := Option.some.inj hr
    simp [hc]
  · intro hne
    obtain ⟨l, hl⟩ := Option.ne_none_iff_exists'.mp hne
    have hmem : i ∈ st.elems l := (st.mem_elems l i).mpr (by rw [← hR.container, hl])
    obtain ⟨front, back, hsplit⟩ := List.append_of_mem hmem
    have ha : Linked h (before l front) (.item i) := hR.gap hsplit.symm
    have hsplit' : (front ++ [i]) ++ back = st.elems l := by simp [hsplit]
    have hb := hR.gap hsplit'
    rw [before_concat] at hb
    refine ⟨_, l, _, _, rfl, hl, hb.1, ha.2, hb.2, ha.1, ?_, by simp⟩
    rw [hR.count, Nat.mod_eq_of_lt (hlen l)]
    exact List.length_pos_of_mem hmem

/-- **The sequences after a call that returns** are those of its one effect. -/
theorem Represents.after_call {st₁ : ListStore L I} (hR : Represents h st)
    (hret : Returns h c h') (heff : ∀ st', Effect st c st' → st' = st₁) :
    Represents h' st₁ ∧ h'.owner = h.owner := by
  obtain ⟨st', hstep⟩ := hR.lockStep hret
  obtain rfl := heff st' hstep.effect
  exact ⟨hstep.represents, hstep.frame.owner⟩

/-- An unlinked item may be initialised, for the first time or again. -/
theorem Represents.initItem (hR : Represents h st) (hi : st.container i = none) (o : O) :
    Represents (h.rtosInitListItem (some (.item i)) (some o)) (st.setValue i 0) := by
  have hfields : (h.rtosInitListItem (some (.item i)) (some o)).next = h.next ∧
      (h.rtosInitListItem (some (.item i)) (some o)).prev = h.prev ∧
      (h.rtosInitListItem (some (.item i)) (some o)).container = h.container := by
    have hc := hR.container i
    rw [hi] at hc
    obtain ⟨hn, hp⟩ := hR.unlinked i hi
    refine ⟨?_, ?_, ?_⟩
    · exact (congrArg (update h.next (.item i)) hn.symm).trans (update_eq_self _ _)
    · exact (congrArg (update h.prev (.item i)) hp.symm).trans (update_eq_self _ _)
    · exact (congrArg (update h.container (.item i)) hc.symm).trans (update_eq_self _ _)
  obtain ⟨hnext, hprev, hcont⟩ := hfields
  refine ⟨fun l => ?_, hR.count, fun l => ?_, fun j => ?_, fun j hj => ?_, fun j => ?_⟩
  · exact (hR.ring l).imp fun a b hab => ⟨by rw [hnext]; exact hab.1, by rw [hprev]; exact hab.2⟩
  · rw [hcont]
    exact hR.home l
  · rw [hcont]
    exact hR.container j
  · rw [hnext, hprev]
    exact hR.unlinked j hj
  · show update h.value (.item i) 0 (.item j) = update st.value i 0 j
    by_cases hji : j = i
    · subst hji
      simp
    · rw [update_of_ne (by simpa using hji), update_of_ne hji]
      exact hR.value j

end Calls

/-! ## The items and lists of the kernel -/

/-- The list items of all tasks, and the lists that link them, in memory. -/
structure ListMemory where
  states : Heap StateList Tid Tid
  events : Heap EventList Tid Tid

/-- The task is a slot of the pool. -/
def Tid.Pooled (cfg : Config) (t : Tid) : Prop := ∃ i, i < cfg.maxTasks ∧ t = .user i

/-- **The memory holds the lists of the scheduler.**  An item has its task as its owner
once it has been initialised, and only tasks of the pool are linked. -/
structure ListMemory.Holds (cfg : Config) (m : ListMemory) (k : Sched) : Prop where
  states : Represents m.states k.stateL
  events : Represents m.events k.eventL
  state_owner : ∀ t, m.states.owner (.item t) = if (k.tcb t).owned then some t else none
  event_owner : ∀ t, m.events.owner (.item t) = if (k.tcb t).owned then some t else none
  state_pooled : ∀ t, k.stateL.container t ≠ none → t.Pooled cfg
  event_pooled : ∀ t, k.eventL.container t ≠ none → t.Pooled cfg

/-- The items and lists in zeroed memory, the lists initialised. -/
def Heap.zeroed {L : Type} : Heap L Tid Tid :=
  { Heap.initial id with owner := fun _ => none }

/-- The memory that `rtos_system_init` leaves: the lists and the items of the idle task
are initialised. -/
def ListMemory.boot : ListMemory where
  states := Heap.zeroed.rtosInitListItem (some (.item .idle)) (some .idle)
  events := Heap.zeroed.rtosInitListItem (some (.item .idle)) (some .idle)

/-- What the scheduler does to its lists. -/
inductive ListOp where
  /-- The initialisation of both items in `rtos_init_tcb`. -/
  | init (t : Tid)
  /-- The assignment `task->state_item.value = v`. -/
  | stateValue (t : Tid) (v : ℕ)
  /-- The assignment `task->event_item.value = v`. -/
  | eventValue (t : Tid) (v : ℕ)
  | stateInsertEnd (l : StateList) (t : Tid)
  | stateInsertSorted (l : StateList) (t : Tid)
  | stateRemove (t : Tid)
  | eventInsertReversedSorted (l : EventList) (t : Tid)
  | eventRemove (t : Tid)

namespace ListOp

/-- The task whose item is concerned. -/
def task : ListOp → Tid
  | init t => t
  | stateValue t _ => t
  | eventValue t _ => t
  | stateInsertEnd _ t => t
  | stateInsertSorted _ t => t
  | stateRemove t => t
  | eventInsertReversedSorted _ t => t
  | eventRemove t => t

/-- The operation in the scheduler model, with its check. -/
def exec (k : Sched) : ListOp → Sched
  | init t =>
      { k with
        tcb := update k.tcb t { k.tcb t with owned := true }
        stateL := k.stateL.setValue t 0
        eventL := k.eventL.setValue t 0 }
  | stateValue t v => { k with stateL := k.stateL.setValue t v }
  | eventValue t v => { k with eventL := k.eventL.setValue t v }
  | stateInsertEnd l t => k.stateInsertEnd l t
  | stateInsertSorted l t => k.stateInsertSorted l t
  | stateRemove t => k.stateRemove t
  | eventInsertReversedSorted l t => k.eventInsertReversedSorted l t
  | eventRemove t => k.eventRemove t

/-- The check in front of the operation. -/
def Check (k : Sched) : ListOp → Prop
  | stateInsertEnd _ t => k.stateL.container t = none ∧ (k.tcb t).owned = true
  | stateInsertSorted _ t => k.stateL.container t = none ∧ (k.tcb t).owned = true
  | stateRemove t => k.stateL.container t ≠ none
  | eventInsertReversedSorted _ t => k.eventL.container t = none ∧ (k.tcb t).owned = true
  | eventRemove t => k.eventL.container t ≠ none
  | _ => True

/-- The operation without its check. -/
def effect (k : Sched) : ListOp → Sched
  | init t => (init t).exec k
  | stateValue t v => { k with stateL := k.stateL.setValue t v }
  | eventValue t v => { k with eventL := k.eventL.setValue t v }
  | stateInsertEnd l t => { k with stateL := k.stateL.insertEnd l t }
  | stateInsertSorted l t => { k with stateL := k.stateL.insertSorted l t }
  | stateRemove t => { k with stateL := k.stateL.remove t }
  | eventInsertReversedSorted l t => { k with eventL := k.eventL.insertReversedSorted l t }
  | eventRemove t => { k with eventL := k.eventL.remove t }

/-- The function of `list.c` returns, or the assignment is made. -/
def Returns (m : ListMemory) (m' : ListMemory) : ListOp → Prop
  | init t =>
      m'.states = m.states.rtosInitListItem (some (.item t)) (some t) ∧
        m'.events = m.events.rtosInitListItem (some (.item t)) (some t)
  | stateValue t v =>
      Artos.Returns m.states (.setValue t v) m'.states ∧ m'.events = m.events
  | eventValue t v =>
      Artos.Returns m.events (.setValue t v) m'.events ∧ m'.states = m.states
  | stateInsertEnd l t =>
      Artos.Returns m.states (.insertEnd (some l) (some (.item t))) m'.states ∧
        m'.events = m.events
  | stateInsertSorted l t =>
      Artos.Returns m.states (.insertSorted (some l) (some (.item t))) m'.states ∧
        m'.events = m.events
  | stateRemove t =>
      Artos.Returns m.states (.remove (some (.item t))) m'.states ∧ m'.events = m.events
  | eventInsertReversedSorted l t =>
      Artos.Returns m.events (.insertReversedSorted (some l) (some (.item t))) m'.events ∧
        m'.states = m.states
  | eventRemove t =>
      Artos.Returns m.events (.remove (some (.item t))) m'.events ∧ m'.states = m.states

/-- The task is in the pool, and items are initialised while they are in no list. -/
structure Allowed (cfg : Config) (k : Sched) (op : ListOp) : Prop where
  pooled : op.task.Pooled cfg
  init : ∀ t, op = .init t → k.stateL.container t = none ∧ k.eventL.container t = none

end ListOp

section Operations

variable {cfg : Config} {k k' : Sched} {m m' : ListMemory} {op : ListOp} {t : Tid}

/-- A list of pool tasks is no longer than the pool. -/
theorem length_lt_of_pooled {L : Type} {st : ListStore L Tid}
    (hp : ∀ t, st.container t ≠ none → t.Pooled cfg) (l : L) :
    (st.elems l).length < 4294967296 := by
  have hsub : st.elems l ⊆ (List.range cfg.maxTasks).map Tid.user := by
    intro t ht
    obtain ⟨i, hi, rfl⟩ := hp t (by rw [ListStore.container_of_mem ht]; simp)
    exact List.mem_map_of_mem (List.mem_range.mpr hi)
  have hle := ((st.nodup l).subperm hsub).length_le
  rw [List.length_map, List.length_range] at hle
  exact hle.trans_lt cfg.maxTasks_lt

/-- **The memory after `rtos_system_init`.** -/
theorem ListMemory.holds_boot : ListMemory.boot.Holds cfg Sched.rtosSystemInit := by
  have hzero : ∀ L : Type, Represents (Heap.zeroed : Heap L Tid Tid) ListStore.empty := by
    intro L
    refine ⟨fun l => ?_, fun l => rfl, fun l => rfl, fun i => rfl, fun i _ => ⟨rfl, rfl⟩,
      fun i => rfl⟩
    simp [ring, ListStore.empty, Linked, Heap.zeroed, Heap.initial]
  have howner : ∀ (L : Type) [DecidableEq L] (t : Tid),
      ((Heap.zeroed : Heap L Tid Tid).rtosInitListItem (some (.item .idle))
        (some .idle)).owner (.item t) =
      if (Sched.rtosSystemInit.tcb t).owned then some t else none := by
    intro L _ t
    cases t <;> simp [Heap.rtosInitListItem, Heap.zeroed, Sched.rtosSystemInit,
      Sched.rtosInitTcb, Tcb.zero]
  exact ⟨(hzero _).initItem rfl _, (hzero _).initItem rfl _, howner _, howner _,
    fun t ht => absurd rfl ht, fun t ht => absurd rfl ht⟩

/-- A check that fails is recorded. -/
theorem Sched.artosAssert_failure (c : Prop) [Decidable c] (hf : k.failure = none) :
    (k.artosAssert c).failure = none ↔ c := by
  unfold artosAssert
  split
  · simpa [hf]
  · simpa [recordFailure]

/-- The operation records a failure if and only if its check fails. -/
theorem ListOp.exec_failure (op : ListOp) (hf : k.failure = none) :
    (op.exec k).failure = none ↔ op.Check k := by
  cases op with
  | init t => simpa [exec, Check]
  | stateValue t v => simpa [exec, Check]
  | eventValue t v => simpa [exec, Check]
  | _ => exact Sched.artosAssert_failure _ hf

/-- An operation whose check holds has its effect. -/
theorem ListOp.exec_eq (hc : op.Check k) : op.exec k = op.effect k := by
  cases op with
  | init t => rfl
  | stateValue t v => rfl
  | eventValue t v => rfl
  | stateInsertEnd l t =>
      have hc' : k.stateL.container t = none ∧ (k.tcb t).owned = true := hc
      simp [exec, effect, Sched.stateInsertEnd, hc']
  | stateInsertSorted l t =>
      have hc' : k.stateL.container t = none ∧ (k.tcb t).owned = true := hc
      simp [exec, effect, Sched.stateInsertSorted, hc']
  | stateRemove t =>
      have hc' : k.stateL.container t ≠ none := hc
      simp [exec, effect, Sched.stateRemove, hc']
  | eventInsertReversedSorted l t =>
      have hc' : k.eventL.container t = none ∧ (k.tcb t).owned = true := hc
      simp [exec, effect, Sched.eventInsertReversedSorted, hc']
  | eventRemove t =>
      have hc' : k.eventL.container t ≠ none := hc
      simp [exec, effect, Sched.eventRemove, hc']

/-- The owner of an item that has one. -/
theorem owner_iff {L : Type} {h : Heap L Tid Tid} {b : Bool}
    (ho : h.owner (.item t) = if b then some t else none) :
    h.owner (.item t) ≠ none ↔ b = true := by
  rw [ho]
  cases b <;> simp

/-- The function returns if and only if the check holds. -/
theorem ListOp.returns_iff (hm : m.Holds cfg k) (op : ListOp) :
    (∃ m', op.Returns m m') ↔ op.Check k := by
  have hstate : ∀ {c : ListCall StateList Tid},
      (∃ m' : ListMemory, Artos.Returns m.states c m'.states ∧ m'.events = m.events) ↔
        Asserted m.states c := by
    intro c
    rw [← hm.states.returns_iff]
    exact ⟨fun ⟨m', hr, _⟩ => ⟨_, hr⟩, fun ⟨h', hr⟩ => ⟨⟨h', m.events⟩, hr, rfl⟩⟩
  have hevent : ∀ {c : ListCall EventList Tid},
      (∃ m' : ListMemory, Artos.Returns m.events c m'.events ∧ m'.states = m.states) ↔
        Asserted m.events c := by
    intro c
    rw [← hm.events.returns_iff]
    exact ⟨fun ⟨m', hr, _⟩ => ⟨_, hr⟩, fun ⟨h', hr⟩ => ⟨⟨m.states, h'⟩, hr, rfl⟩⟩
  cases op with
  | init t => exact iff_of_true ⟨⟨_, _⟩, rfl, rfl⟩ trivial
  | stateValue t v => exact hstate
  | eventValue t v => exact hevent
  | stateInsertEnd l t =>
      rw [Check, ← owner_iff (hm.state_owner t), ← hm.states.mayLink_item,
        ← hm.states.asserted_insertEnd (l := l)]
      exact hstate
  | stateInsertSorted l t =>
      rw [Check, ← owner_iff (hm.state_owner t), ← hm.states.mayLink_item]
      exact hstate
  | stateRemove t =>
      rw [Check, ← hm.states.asserted_remove (length_lt_of_pooled hm.state_pooled)]
      exact hstate
  | eventInsertReversedSorted l t =>
      rw [Check, ← owner_iff (hm.event_owner t), ← hm.events.mayLink_item]
      exact hevent
  | eventRemove t =>
      rw [Check, ← hm.events.asserted_remove (length_lt_of_pooled hm.event_pooled)]
      exact hevent

/-- **The checks of the model are the assertions of `list.c`**: on a memory that holds the
lists, the operation records a failure if and only if the function halts. -/
theorem ListOp.check_exact (hm : m.Holds cfg k) (hf : k.failure = none) (op : ListOp) :
    (op.exec k).failure = none ↔ ∃ m', op.Returns m m' := by
  rw [op.exec_failure hf, op.returns_iff hm]

/-- A call on the state lists that changes the container of one pool task. -/
theorem ListMemory.Holds.stateCall (hm : m.Holds cfg k) (ht : t.Pooled cfg)
    {st : ListStore StateList Tid}
    (hR : Represents m'.states st ∧ m'.states.owner = m.states.owner)
    (he : m'.events = m.events)
    (hc : ∀ u, u ≠ t → st.container u = k.stateL.container u) :
    m'.Holds cfg { k with stateL := st } := by
  refine ⟨hR.1, he ▸ hm.events, fun u => ?_, he ▸ hm.event_owner, fun u hu => ?_,
    hm.event_pooled⟩
  · rw [hR.2]
    exact hm.state_owner u
  · by_cases hut : u = t
    · exact hut ▸ ht
    · exact hm.state_pooled u (by rwa [← hc u hut])

/-- A call on the wait lists that changes the container of one pool task. -/
theorem ListMemory.Holds.eventCall (hm : m.Holds cfg k) (ht : t.Pooled cfg)
    {st : ListStore EventList Tid}
    (hR : Represents m'.events st ∧ m'.events.owner = m.events.owner)
    (hs : m'.states = m.states)
    (hc : ∀ u, u ≠ t → st.container u = k.eventL.container u) :
    m'.Holds cfg { k with eventL := st } := by
  refine ⟨hs ▸ hm.states, hR.1, hs ▸ hm.state_owner, fun u => ?_, hm.state_pooled,
    fun u hu => ?_⟩
  · rw [hR.2]
    exact hm.event_owner u
  · by_cases hut : u = t
    · exact hut ▸ ht
    · exact hm.event_pooled u (by rwa [← hc u hut])

/-- Both items of an unlinked pool task are initialised. -/
theorem ListMemory.Holds.init (hm : m.Holds cfg k)
    (hst : k.stateL.container t = none) (hev : k.eventL.container t = none)
    (hret : (ListOp.init t).Returns m m') : m'.Holds cfg ((ListOp.init t).exec k) := by
  have howner : ∀ {L : Type} [DecidableEq L] {h : Heap L Tid Tid},
      (∀ u, h.owner (.item u) = if (k.tcb u).owned then some u else none) → ∀ u,
      (h.rtosInitListItem (some (.item t)) (some t)).owner (.item u) =
        if (((ListOp.init t).exec k).tcb u).owned then some u else none := by
    intro L _ h ho u
    by_cases hut : u = t
    · subst hut
      simp [Heap.rtosInitListItem, ListOp.exec]
    · simp [Heap.rtosInitListItem, ListOp.exec, hut, ho]
  obtain ⟨hs, he⟩ := hret
  refine ⟨?_, ?_, ?_, ?_, hm.state_pooled, hm.event_pooled⟩
  · rw [hs]
    exact hm.states.initItem hst t
  · rw [he]
    exact hm.events.initItem hev t
  · rw [hs]
    exact howner hm.state_owner
  · rw [he]
    exact howner hm.event_owner

/-- **When the function returns, the memory holds the new lists.** -/
theorem ListOp.holds (hm : m.Holds cfg k) (ha : op.Allowed cfg k) (hret : op.Returns m m') :
    m'.Holds cfg (op.exec k) := by
  have hcheck : op.Check k := (op.returns_iff hm).mp ⟨m', hret⟩
  have ht := ha.pooled
  rw [op.exec_eq hcheck]
  cases op with
  | init t => exact hm.init (ha.init t rfl).1 (ha.init t rfl).2 hret
  | stateValue t v =>
      have hR := hm.states.after_call hret.1 (fun st' he => by cases he; rfl)
      exact hm.stateCall ht hR hret.2 fun _ _ => rfl
  | eventValue t v =>
      have hR := hm.events.after_call hret.1 (fun st' he => by cases he; rfl)
      exact hm.eventCall ht hR hret.2 fun _ _ => rfl
  | stateInsertEnd l t =>
      have hR := hm.states.after_call hret.1 (fun st' he => by cases he; rfl)
      refine hm.stateCall ht hR hret.2 fun u hut => ?_
      rw [ListStore.insertEnd_eq hcheck.1]
      exact update_of_ne hut _ _
  | stateInsertSorted l t =>
      have hR := hm.states.after_call hret.1 (fun st' he => by cases he; rfl)
      refine hm.stateCall ht hR hret.2 fun u hut => ?_
      rw [ListStore.insertSorted_eq hcheck.1]
      exact update_of_ne hut _ _
  | stateRemove t =>
      have hR := hm.states.after_call hret.1 (fun st' he => by cases he; rfl)
      exact hm.stateCall ht hR hret.2 fun u hut => update_of_ne hut _ _
  | eventInsertReversedSorted l t =>
      have hR := hm.events.after_call hret.1 (fun st' he => by cases he; rfl)
      refine hm.eventCall ht hR hret.2 fun u hut => ?_
      rw [ListStore.insertReversedSorted_eq hcheck.1]
      exact update_of_ne hut _ _
  | eventRemove t =>
      have hR := hm.events.after_call hret.1 (fun st' he => by cases he; rfl)
      exact hm.eventCall ht hR hret.2 fun u hut => update_of_ne hut _ _

end Operations

/-! ## Runs of the machine -/

/-- A run of list operations in memory, all of which return. -/
abbrev MemoryRun (m : ListMemory) (ops : List ListOp) (m' : ListMemory) : Prop :=
  Exec (fun m (op : ListOp) m' => op.Returns m m') m ops m'

/-- The lists change from those of `k` to those of `k'` by operations that all return, in
whatever memory holds them. -/
def Performs (cfg : Config) (k k' : Sched) : Prop :=
  ∀ m : ListMemory, m.Holds cfg k → ∃ ops m', MemoryRun m ops m' ∧ m'.Holds cfg k'

section Performs

variable {cfg : Config} {k k' k'' : Sched} {t u : Tid} {a : Action} {acts : List Action}

/-- Nothing happens to the lists. -/
theorem Performs.same (hs : k'.stateL = k.stateL) (he : k'.eventL = k.eventL)
    (ho : ∀ t, (k'.tcb t).owned = (k.tcb t).owned) : Performs cfg k k' := by
  intro m hm
  refine ⟨[], m, Exec.nil, hs ▸ hm.states, he ▸ hm.events, fun t => ?_, fun t => ?_,
    hs ▸ hm.state_pooled, he ▸ hm.event_pooled⟩
  · rw [ho]
    exact hm.state_owner t
  · rw [ho]
    exact hm.event_owner t

/-- Operations compose. -/
theorem Performs.trans (h : Performs cfg k k') (h' : Performs cfg k' k'') :
    Performs cfg k k'' := by
  intro m hm
  obtain ⟨ops, m', hops, hm'⟩ := h m hm
  obtain ⟨ops', m'', hops', hm''⟩ := h' m' hm'
  exact ⟨ops ++ ops', m'', hops.trans hops', hm''⟩

/-- One operation whose check holds. -/
theorem ListOp.performs (op : ListOp) (ha : op.Allowed cfg k) (hc : op.Check k) :
    Performs cfg k (op.effect k) := by
  intro m hm
  obtain ⟨m', hret⟩ := (op.returns_iff hm).mpr hc
  exact ⟨[op], m', Exec.single hret, op.exec_eq hc ▸ op.holds hm ha hret⟩

/-- An operation of a pool task that is no initialisation is allowed. -/
theorem Tid.Pooled.allowed {op : ListOp} (ht : op.task.Pooled cfg) (hop : ∀ t, op ≠ .init t) :
    op.Allowed cfg k :=
  ⟨ht, fun t he => absurd he (hop t)⟩

/-- A control block may change in everything but its owner. -/
theorem Performs.setTcb (f : Tcb → Tcb) (hf : (f (k.tcb t)).owned = (k.tcb t).owned) :
    Performs cfg k (k.setTcb t f) := by
  refine .same rfl rfl fun u => ?_
  by_cases hut : u = t
  · subst hut
    simpa [Sched.setTcb]
  · simp [Sched.setTcb, hut]

/-- A linked task is in the pool. -/
theorem Sched.SInv.pooled (h : SInv cfg k) (hc : k.stateL.container t ≠ none) :
    t.Pooled cfg := by
  cases t with
  | idle => exact absurd h.idle_state hc
  | user i => exact ⟨i, (h.linked_lt i hc).trans_le h.count_le, rfl⟩

/-- A task that is waiting is in the pool and has been created. -/
theorem Sched.SInv.waiting (h : SInv cfg k) (hc : k.eventL.container t ≠ none) :
    t.Pooled cfg ∧ (k.tcb t).owned = true := by
  have hb := h.event_blocked t hc
  obtain ⟨l, hl, -⟩ := hb
  exact ⟨h.pooled (by rw [hl]; simp), h.owned_of_blocked (h.event_blocked t hc)⟩

/-- An unlinked task enters a ready list. -/
theorem performs_ready (ht : t.Pooled cfg) (hc : k.stateL.container t = none)
    (ho : (k.tcb t).owned = true) (p : ℕ) :
    Performs cfg k { k with stateL := k.stateL.insertEnd (.ready p) t } :=
  (ListOp.stateInsertEnd (.ready p) t).performs (ht.allowed (by simp)) ⟨hc, ho⟩

/-- A linked task leaves its state list. -/
theorem performs_unlink (ht : t.Pooled cfg) (hc : k.stateL.container t ≠ none) :
    Performs cfg k { k with stateL := k.stateL.remove t } :=
  (ListOp.stateRemove t).performs (ht.allowed (by simp)) hc

/-- The lists when a task is created. -/
theorem Sched.SInv.performs_create (h : SInv cfg k) (hlt : k.taskCount < cfg.maxTasks)
    (entry argument stack stackWordCount p : ℕ) :
    Performs cfg k (k.withTask entry argument stack stackWordCount p) := by
  have ht : (Tid.user k.taskCount).Pooled cfg := ⟨_, hlt, rfl⟩
  have hev : k.eventL.container (.user k.taskCount) = none := by
    by_contra hc
    obtain ⟨l, hl, -⟩ := h.event_blocked _ hc
    rw [h.new_unlinked] at hl
    simp at hl
  have hinit := (ListOp.init (.user k.taskCount)).performs (k := k)
    ⟨ht, fun t he => by cases he; exact ⟨h.new_unlinked, hev⟩⟩ trivial
  have hready := performs_ready (k := (ListOp.init (.user k.taskCount)).effect k) ht
    h.new_unlinked (by simp [ListOp.effect, ListOp.exec]) p
  refine (hinit.trans hready).trans (.same rfl rfl fun u => ?_)
  by_cases hu : u = .user k.taskCount
  · subst hu
    simp [Sched.withTask, rtosInitTcb, ListOp.effect, ListOp.exec]
  · simp [Sched.withTask, rtosInitTcb, ListOp.effect, ListOp.exec, hu]

/-- The lists when a task blocks. -/
theorem Sched.SInv.performs_block (h : SInv cfg k) (hc : k.CanBlock t) (wakeTick : ℕ)
    (waitObj : Option EventList) (infinite : Bool) :
    Performs cfg k (k.blockedOn t wakeTick waitObj infinite) := by
  have ht : t.Pooled cfg := by
    cases t with
    | idle => exact absurd rfl hc.ne_idle
    | user i => exact ⟨i, (h.cur_lt i hc.cur).trans_le h.count_le, rfl⟩
  have hkey := (ListOp.stateValue t wakeTick).performs (k := k) (ht.allowed (by simp)) trivial
  have hpark : Performs cfg k { k with stateL := k.parked t wakeTick infinite } := by
    refine hkey.trans ?_
    unfold parked
    cases infinite with
    | true =>
        exact (ListOp.stateInsertEnd .suspend t).performs (ht.allowed (by simp))
          ⟨hc.state, hc.owned⟩
    | false =>
        exact (ListOp.stateInsertSorted _ t).performs (ht.allowed (by simp))
          ⟨hc.state, hc.owned⟩
  cases waitObj with
  | none => exact hpark
  | some l =>
      refine hpark.trans (((ListOp.eventValue t (k.eff t)).performs (ht.allowed (by simp))
        trivial).trans ?_)
      exact (ListOp.eventInsertReversedSorted l t).performs (ht.allowed (by simp))
        ⟨hc.event, hc.owned⟩

/-- The lists when a task is unblocked. -/
theorem Sched.SInv.performs_unblock (h : SInv cfg k) (hb : k.Blocked t)
    (reason : WaitReason) : Performs cfg k (k.unblocked t reason) := by
  obtain ⟨l, hl, -⟩ := hb
  have hc : k.stateL.container t ≠ none := by simp [hl]
  have ht := h.pooled hc
  have ho := h.owned_of_linked hc
  have hevent : ∀ k₁ : Sched, k₁.eventL = k.eventL →
      Performs cfg k₁ { k₁ with eventL := k.eventL.remove t } := by
    intro k₁ he
    by_cases hev : k.eventL.container t = none
    · exact .same rfl (by rw [he, ListStore.remove_eq_self hev]) fun _ => rfl
    · rw [← he] at hev ⊢
      exact (ListOp.eventRemove t).performs (ht.allowed (by simp)) hev
  have hout := (performs_unlink ht hc).trans (hevent { k with stateL := k.stateL.remove t } rfl)
  have hready := performs_ready (k := { k with
    stateL := k.stateL.remove t
    eventL := k.eventL.remove t }) ht (by simp) ho (k.eff t)
  refine (hout.trans hready).trans ?_
  exact (Performs.setTcb (t := t) (fun c => { c with waitReason := reason }) rfl).trans
    (.same rfl rfl fun _ => rfl)

/-- The wait lists when the priority of a task changes. -/
theorem performs_rekey (t : Tid) (p : ℕ) (k₁ : Sched) (he : k₁.eventL = k.eventL)
    (ho : (k₁.tcb t).owned = (k.tcb t).owned)
    (hw : k.eventL.container t ≠ none → t.Pooled cfg ∧ (k.tcb t).owned = true) :
    Performs cfg k₁ { k₁ with
      eventL := match k.eventL.container t with
        | none => k.eventL
        | some l => ((k.eventL.remove t).setValue t p).insertReversedSorted l t } := by
  cases hev : k.eventL.container t with
  | none => exact .same rfl he.symm fun _ => rfl
  | some l =>
      have hne : k.eventL.container t ≠ none := by simp [hev]
      obtain ⟨ht, howned⟩ := hw hne
      rw [← he] at hne ⊢
      have hremove := (ListOp.eventRemove t).performs (k := k₁) (ht.allowed (by simp)) hne
      refine hremove.trans (((ListOp.eventValue t p).performs (ht.allowed (by simp))
        trivial).trans ?_)
      refine (ListOp.eventInsertReversedSorted l t).performs (ht.allowed (by simp)) ⟨?_, ?_⟩
      · simp [ListOp.effect]
      · exact ho.trans howned

/-- The lists when the priority of a task changes. -/
theorem Sched.SInv.performs_setEff (h : SInv cfg k) (p : ℕ) :
    Performs cfg k (k.withEff t p) := by
  have hdone : ∀ k₁ : Sched, k₁.stateL = (k.withEff t p).stateL →
      k₁.eventL = (k.withEff t p).eventL → k₁.tcb = k.tcb → Performs cfg k₁ (k.withEff t p) := by
    intro k₁ hs he htcb
    refine .same hs.symm he.symm fun u => ?_
    rw [htcb]
    by_cases hut : u = t
    · simp [Sched.withEff, hut]
    · simp [Sched.withEff, hut]
  by_cases hr : k.IsReady t
  · have hc : k.stateL.container t ≠ none := by
      rw [hr]
      simp
    have ht := h.pooled hc
    have ho := h.owned_of_linked hc
    have hrekey := performs_rekey t p { k with stateL := k.stateL.remove t } rfl rfl h.waiting
    have hready := performs_ready (k := { k with
      stateL := k.stateL.remove t
      eventL := (k.withEff t p).eventL }) ht (by simp) ho p
    refine (((performs_unlink ht hc).trans hrekey).trans hready).trans (hdone _ ?_ rfl rfl)
    simp [Sched.withEff, hr]
  · refine (performs_rekey t p k rfl rfl h.waiting).trans (hdone _ ?_ rfl rfl)
    simp [Sched.withEff, hr]

/-- **Every move is performed by list operations that return.** -/
theorem Move.performs (h : SInv cfg k) (hm : Move cfg k a k') : Performs cfg k k' := by
  cases hm with
  | create hentry hprio hwords hlt => exact h.performs_create hlt _ _ _ _ _
  | save hcur hsp => exact .setTcb _ rfl
  | @requeue cur hcur =>
      unfold requeued
      split
      · rename_i hc
        obtain ⟨i, rfl⟩ : ∃ i, cur = .user i := by
          cases cur with
          | idle => exact absurd rfl hc.1
          | user i => exact ⟨i, rfl⟩
        have hi := h.cur_lt i hcur
        exact (performs_ready ⟨i, hi.trans_le h.count_le, rfl⟩ hc.2 (h.created i hi).1 _).trans
          (.same rfl rfl fun _ => rfl)
      · exact .same rfl rfl fun _ => rfl
  | dispatch hall htop =>
      have hc := htop.container
      exact (performs_unlink (h.pooled (by simp [hc])) (by simp [hc])).trans
        (.same rfl rfl fun _ => rfl)
  | dispatchIdle hall hnone => exact .same rfl rfl fun _ => rfl
  | fail => exact .same rfl rfl fun _ => rfl
  | block hc hw => exact h.performs_block hc _ _ _
  | wake hl => exact h.performs_unblock (h.head_blocked hl) _
  | expire hl hdue => exact h.performs_unblock (h.delayed_blocked hl) _
  | advance hset =>
      refine .same advanced_stateL ?_ fun u => ?_ <;> unfold advanced <;> split <;> rfl
  | setEff hbase hp hne => exact h.performs_setEff _
  | held => exact .setTcb _ rfl
  | clear hcur => exact .setTcb _ rfl

/-- Moves are performed by list operations that return. -/
theorem Moves.performs (h : SInv cfg k) (hd : DelayInv k) (hm : Moves cfg k acts k') :
    Performs cfg k k' := by
  induction hm with
  | nil => exact .same rfl rfl fun _ => rfl
  | snoc hm hmove ih => exact ih.trans (hmove.performs (h.moves hd hm).1)

/-- **A run of the machine is, in memory, a run of list operations that all return.** -/
theorem Run.memory {s₀ s : Sys} {tr : List Label} (h₀ : Initial cfg s₀)
    (hr : Run cfg s₀ tr s) :
    ∃ ops m, MemoryRun ListMemory.boot ops m ∧ m.Holds cfg s.sched := by
  induction hr with
  | nil =>
      refine ⟨[], _, Exec.nil, ?_⟩
      rw [h₀.sched]
      exact ListMemory.holds_boot
  | snoc hr hs ih =>
      obtain ⟨ops, m, hops, hm⟩ := ih
      have hI := h₀.inv.run hr
      obtain ⟨acts, hmoves⟩ := (step_kind hI hs).moves
      obtain ⟨ops', m', hops', hm'⟩ := Moves.performs hI.ready.inv hI.ready.delay hmoves m hm
      exact ⟨ops ++ ops', m', hops.trans hops', hm'⟩

end Performs

end Artos
