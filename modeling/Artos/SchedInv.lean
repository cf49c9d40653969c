/-
# The scheduler invariant

What the functions of `tasks.c` keep true of its static variables (`SInv`), and
what each function does to them in closed form.  Under the invariant every
assertion of a function holds, so the closed forms (`..._eq`) mention no failure:
later modules rewrite with them and never unfold a function again.
-/
import Artos.System

open Function

namespace Artos

namespace Sched

variable {cfg : Config} {k : Sched} {t : Tid} {p q : ℕ}

/-! ## The ready bitmap -/

/-- Bit `q` of `0x1U << p`. -/
theorem getLsbD_bit (hp : p < 32) : (bit p).getLsbD q = decide (q = p) := by
  unfold bit
  simp only [BitVec.getLsbD_shiftLeft, BitVec.getLsbD_one]
  by_cases hq : q < 32
  · by_cases hqp : q < p
    · simp [hq, hqp, Nat.ne_of_lt hqp]
    · have : q - p = 0 ↔ q = p := by omega
      simp [hq, hqp, this]
  · have : q ≠ p := by omega
    simp [hq, this]

/-- Setting a bit. -/
theorem getLsbD_or_bit (b : BitVec 32) (hp : p < 32) :
    (b ||| bit p).getLsbD q = (b.getLsbD q || decide (q = p)) := by
  rw [BitVec.getLsbD_or, getLsbD_bit hp]

/-- Clearing a bit. -/
theorem getLsbD_and_not_bit (b : BitVec 32) (hp : p < 32) :
    (b &&& ~~~(bit p)).getLsbD q = (b.getLsbD q && !decide (q = p)) := by
  rw [BitVec.getLsbD_and, BitVec.getLsbD_not, getLsbD_bit hp]
  by_cases hq : q < 32
  · simp [hq]
  · simp [BitVec.getLsbD_of_ge b q (by omega)]

/-- A bitmap is zero exactly when it has no bit. -/
theorem eq_zero_iff_getLsbD (b : BitVec 32) : b = 0#32 ↔ ∀ q, b.getLsbD q = false := by
  constructor
  · rintro rfl q
    simp
  · intro h
    apply BitVec.eq_of_getLsbD_eq
    intro q _
    simp [h q]

/-- Bit `i` of the bitmap says that the ready list `i` is non-empty. -/
def BitmapOk (st : ListStore StateList Tid) (b : BitVec 32) : Prop :=
  ∀ p, b.getLsbD p = true ↔ st.elems (.ready p) ≠ []

/-- Linking at the end of a ready list and setting its bit. -/
theorem BitmapOk.insertEnd {st : ListStore StateList Tid} {b : BitVec 32}
    (h : BitmapOk st b) (hp : p < 32) (ht : st.container t = none) :
    BitmapOk (st.insertEnd (.ready p) t) (b ||| bit p) := by
  intro q
  rw [getLsbD_or_bit b hp, ListStore.insertEnd_eq ht, ListStore.link_elems]
  by_cases hq : q = p
  · simp [hq]
  · have hne : StateList.ready q ≠ .ready p := by simpa using hq
    rw [update_of_ne hne]
    simpa [hq] using h q

/-- Unlinking from a ready list, and clearing its bit when it becomes empty. -/
theorem BitmapOk.remove {st : ListStore StateList Tid} {b : BitVec 32}
    (h : BitmapOk st b) (hp : p < 32) (ht : st.container t = some (.ready p)) :
    BitmapOk (st.remove t)
      (if ((st.remove t).elems (.ready p)).length = 0 then b &&& ~~~(bit p) else b) := by
  intro q
  by_cases hq : q = p
  · subst hq
    have hb : b.getLsbD q = true := (h q).mpr
      (List.ne_nil_of_mem ((st.mem_elems _ _).mpr ht))
    split
    · rename_i hlen
      rw [List.length_eq_zero_iff] at hlen
      rw [getLsbD_and_not_bit b hp, hlen]
      simp
    · rename_i hlen
      rw [List.length_eq_zero_iff] at hlen
      simpa [hb] using hlen
  · have helems : (st.remove t).elems (.ready q) = st.elems (.ready q) := by
      apply ListStore.remove_elems_of_ne
      rw [ht]
      simpa using Ne.symm hq
    rw [helems]
    split
    · rw [getLsbD_and_not_bit b hp]
      simpa [hq] using h q
    · exact h q

/-- The bitmap only looks at the ready lists. -/
theorem BitmapOk.congr {st st' : ListStore StateList Tid} {b : BitVec 32}
    (h : BitmapOk st b) (hst : ∀ p, st'.elems (.ready p) = st.elems (.ready p)) :
    BitmapOk st' b := by
  intro q
  rw [hst]
  exact h q

/-- The most significant bit found by the port is set, and no higher bit is. -/
theorem rtosPortFindMsb32_spec {b : BitVec 32} (hb : b ≠ 0#32) :
    rtosPortFindMsb32 b < 32 ∧ b.getLsbD (rtosPortFindMsb32 b) = true ∧
      ∀ q, rtosPortFindMsb32 b < q → b.getLsbD q = false := by
  set P : ℕ → Bool := fun i => !b.getLsbD (31 - i) with hP
  have hsplit : (List.range 32).takeWhile P ++ (List.range 32).dropWhile P = List.range 32 :=
    List.takeWhile_append_dropWhile
  have hlen : clz b + ((List.range 32).dropWhile P).length = 32 := by
    have hlen := congrArg List.length hsplit
    rwa [List.length_append, List.length_range] at hlen
  -- the scan stops, because some bit is set
  have hstop : (List.range 32).dropWhile P ≠ [] := by
    intro hnil
    apply hb
    rw [eq_zero_iff_getLsbD]
    intro q
    by_cases hq : q < 32
    · have hmem : 31 - q ∈ List.range 32 := List.mem_range.mpr (by omega)
      have hall := (List.dropWhile_eq_nil_iff.mp hnil) _ hmem
      have hqq : 31 - (31 - q) = q := by omega
      simpa [hP, hqq] using hall
    · exact BitVec.getLsbD_of_ge b q (by omega)
  have hclz : clz b < 32 := by
    have := List.length_pos_of_ne_nil hstop
    omega
  have hat : ∀ i (hi : i < 32), (List.range 32)[i]? = some i := by
    intro i hi
    simp [hi]
  have hhead : ((List.range 32).dropWhile P).head hstop = clz b := by
    have h1 : (List.range 32)[clz b]? = some (((List.range 32).dropWhile P).head hstop) := by
      conv_lhs => rw [← hsplit]
      rw [List.getElem?_append_right (by simp [clz, hP])]
      simp only [clz, hP, Nat.sub_self]
      rw [← List.head?_eq_getElem?, List.head?_eq_some_head]
    rw [hat _ hclz] at h1
    exact (Option.some.inj h1).symm
  have hset : b.getLsbD (31 - clz b) = true := by
    have hnot := List.head_dropWhile_not P hstop
    rw [hhead] at hnot
    simpa [hP] using hnot
  have hmsb : rtosPortFindMsb32 b = 31 - clz b := by simp [rtosPortFindMsb32, hb]
  rw [hmsb]
  refine ⟨by omega, hset, fun q hq => ?_⟩
  by_cases hq32 : q < 32
  · -- the bit was passed by the scan
    have hmem : 31 - q ∈ (List.range 32).takeWhile P := by
      have h1 : (List.range 32)[31 - q]? = some (31 - q) := hat _ (by omega)
      rw [← hsplit, List.getElem?_append_left (by
        show 31 - q < clz b
        omega)] at h1
      exact List.mem_of_getElem? h1
    have hPq := List.mem_takeWhile_imp hmem
    have hqq : 31 - (31 - q) = q := by omega
    simpa [hP, hqq] using hPq
  · exact BitVec.getLsbD_of_ge b q (by omega)

/-- `rtos_check_runnable_task`, in terms of bits. -/
theorem checkRunnable_iff (b : BitVec 32) (p : ℕ) :
    (b >>> p != 0#32) = true ↔ ∃ q, p ≤ q ∧ b.getLsbD q = true := by
  rw [bne_iff_ne, ne_eq, eq_zero_iff_getLsbD]
  simp only [BitVec.getLsbD_ushiftRight, not_forall, Bool.not_eq_false]
  constructor
  · rintro ⟨q, hq⟩
    exact ⟨p + q, by omega, hq⟩
  · rintro ⟨q, hpq, hq⟩
    refine ⟨q - p, ?_⟩
    rwa [show p + (q - p) = q by omega]

/-! ## The invariant -/

/-- **The scheduler invariant**, true between any two critical sections:
`state_item`s, `event_item`s, the bitmap and the priorities fit together. -/
structure SInv (cfg : Config) (k : Sched) : Prop where
  /-- The idle task is in no list. -/
  idle_state : k.stateL.container .idle = none
  idle_event : k.eventL.container .idle = none
  count_le : k.taskCount ≤ cfg.maxTasks
  /-- The pool is filled from the front, and a slot in use has a stack pointer. -/
  slot : ∀ i, (k.tcb (.user i)).stackPointer ≠ 0 ↔ i < k.taskCount
  created : ∀ i, i < k.taskCount →
    (k.tcb (.user i)).owned = true ∧ (k.tcb (.user i)).entry ≠ 0
  linked_lt : ∀ i, k.stateL.container (.user i) ≠ none → i < k.taskCount
  cur_lt : ∀ i, k.curTask = some (.user i) → i < k.taskCount
  /-- Only the current task may be in no list. -/
  unlinked_cur : ∀ i, i < k.taskCount → k.stateL.container (.user i) = none →
    k.curTask = some (.user i)
  /-- A ready task is in the list of its effective priority. -/
  ready_prio : ∀ t p, k.stateL.container t = some (.ready p) → k.eff t = p
  prio_le : ∀ t, (k.tcb t).priority ≤ k.eff t
  eff_lt : ∀ t, k.eff t < cfg.priorityCount
  bitmap : BitmapOk k.stateL k.readyBitmap
  /-- A task waits in an event list only while it is blocked, -/
  event_blocked : ∀ t, k.eventL.container t ≠ none → k.Blocked t
  /-- at the key of its effective priority, -/
  event_value : ∀ t, k.eventL.container t ≠ none → k.eventL.value t = k.eff t
  /-- and the event lists are sorted by priority, first come first. -/
  event_ordered : ∀ l, ListStore.Ordered (· > ·) k.eventL l
  /-- The two delayed lists play the two roles. -/
  roles : k.curDelayed = .delayed ∧ k.nextDelayed = .delayedOverflow ∨
    k.curDelayed = .delayedOverflow ∧ k.nextDelayed = .delayed

theorem SInv.eff_lt_32 (h : SInv cfg k) (t : Tid) : k.eff t < 32 :=
  lt_of_lt_of_le (h.eff_lt t) cfg.priorityCount_le

/-- A blocked task is a created user task. -/
theorem SInv.blocked_user (h : SInv cfg k) (hb : k.Blocked t) :
    ∃ i, t = .user i ∧ i < k.taskCount := by
  obtain ⟨l, hl, -⟩ := hb
  cases t with
  | idle =>
      rw [h.idle_state] at hl
      simp at hl
  | user i => exact ⟨i, rfl, h.linked_lt i (by rw [hl]; simp)⟩

/-- A linked task is created. -/
theorem SInv.owned_of_linked (h : SInv cfg k) (hc : k.stateL.container t ≠ none) :
    (k.tcb t).owned = true := by
  cases t with
  | idle => exact absurd h.idle_state hc
  | user i => exact (h.created i (h.linked_lt i hc)).1

theorem SInv.owned_of_blocked (h : SInv cfg k) (hb : k.Blocked t) :
    (k.tcb t).owned = true := by
  obtain ⟨i, rfl, hi⟩ := h.blocked_user hb
  exact (h.created i hi).1

/-- The current delayed list holds blocked tasks. -/
theorem SInv.curDelayed_isBlocked (h : SInv cfg k) : k.curDelayed.isBlocked = true := by
  rcases h.roles with ⟨hc, -⟩ | ⟨hc, -⟩ <;> rw [hc] <;> rfl

theorem SInv.nextDelayed_isBlocked (h : SInv cfg k) : k.nextDelayed.isBlocked = true := by
  rcases h.roles with ⟨-, hn⟩ | ⟨-, hn⟩ <;> rw [hn] <;> rfl

theorem SInv.curDelayed_ne_ready (h : SInv cfg k) (p : ℕ) : k.curDelayed ≠ .ready p := by
  rcases h.roles with ⟨hc, -⟩ | ⟨hc, -⟩ <;> rw [hc] <;> simp

theorem SInv.nextDelayed_ne_ready (h : SInv cfg k) (p : ℕ) : k.nextDelayed ≠ .ready p := by
  rcases h.roles with ⟨-, hn⟩ | ⟨-, hn⟩ <;> rw [hn] <;> simp

theorem SInv.curDelayed_ne_suspend (h : SInv cfg k) : k.curDelayed ≠ .suspend := by
  rcases h.roles with ⟨hc, -⟩ | ⟨hc, -⟩ <;> rw [hc] <;> simp

theorem SInv.nextDelayed_ne_suspend (h : SInv cfg k) : k.nextDelayed ≠ .suspend := by
  rcases h.roles with ⟨-, hn⟩ | ⟨-, hn⟩ <;> rw [hn] <;> simp

theorem SInv.curDelayed_ne_nextDelayed (h : SInv cfg k) :
    k.curDelayed ≠ k.nextDelayed := by
  rcases h.roles with ⟨hc, hn⟩ | ⟨hc, hn⟩ <;> rw [hc, hn] <;> simp

/-- A blocked task is not in a ready list. -/
theorem not_ready_of_blocked (hb : k.Blocked t) (p : ℕ) :
    k.stateL.container t ≠ some (.ready p) := by
  rintro hr
  obtain ⟨l, hl, hbl⟩ := hb
  rw [hr, Option.some.injEq] at hl
  rw [← hl] at hbl
  simp [StateList.isBlocked] at hbl

theorem inBlockedList_iff : k.inBlockedList t = true ↔ k.Blocked t := by
  unfold inBlockedList Blocked
  cases k.stateL.container t with
  | none => simp
  | some l => simp

/-- A task is unlinked, ready or blocked. -/
theorem linked_cases (k : Sched) (t : Tid) :
    k.stateL.container t = none ∨ (∃ p, k.stateL.container t = some (.ready p)) ∨
      k.Blocked t := by
  rcases hc : k.stateL.container t with _ | l
  · exact Or.inl rfl
  · cases l with
    | ready p => exact Or.inr (Or.inl ⟨p, rfl⟩)
    | delayed => exact Or.inr (Or.inr ⟨_, hc, rfl⟩)
    | delayedOverflow => exact Or.inr (Or.inr ⟨_, hc, rfl⟩)
    | suspend => exact Or.inr (Or.inr ⟨_, hc, rfl⟩)

/-- The wait status of a task only depends on the list that holds its state item. -/
theorem blocked_congr {k' : Sched} (h : k'.stateL.container t = k.stateL.container t) :
    k'.Blocked t ↔ k.Blocked t := by
  unfold Blocked
  rw [h]

end Sched

end Artos
