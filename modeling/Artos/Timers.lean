/-
# The delayed lists and their deadlines

The two delayed lists with the 32-bit tick are a wheel (`Sched.wheel`), and every run of the
kernel drives a queue of deadlines on a clock that never wraps (`timers_refine`).  On that clock
`artos_wait` and `artos_wait_until` end exactly at their time (`wait_until_exact`).
-/
import Artos.DeadlineQueue
import Artos.Timeouts
import Artos.Unnested

open Function

namespace Artos

open Sched

variable {cfg : Config} {k k' : Sched} {t u : Tid} {a : Action} {acts : List Action}
  {obs : List Obs} {s s' s'' s₀ : Sys} {e : Event} {l : StateList} {tr : List Label}

/-! ## The wheel -/

/-- The tasks of a list with their keys. -/
def keyed (st : ListStore StateList Tid) (l : StateList) : List (Tid × ℕ) :=
  (st.elems l).map fun t => (t, st.value t)

/-- **The delayed lists as a wheel.** -/
def Sched.wheel (k : Sched) : Deadline.Wheel Tid where
  now := k.ticks
  current := keyed k.stateL k.curDelayed
  next := keyed k.stateL k.nextDelayed

theorem mem_keyed {st : ListStore StateList Tid} {x : Tid × ℕ} :
    x ∈ keyed st l ↔ st.container x.1 = some l ∧ x.2 = st.value x.1 := by
  obtain ⟨t, v⟩ := x
  simp only [keyed, List.mem_map, Prod.mk.injEq, st.mem_elems]
  constructor
  · rintro ⟨u, hc, rfl, rfl⟩
    exact ⟨hc, rfl⟩
  · rintro ⟨hc, rfl⟩
    exact ⟨t, hc, rfl, rfl⟩

/-- The delay invariant is the validity of the wheel. -/
theorem Sched.DelayInv.valid (hd : DelayInv k) : k.wheel.Valid 4294967296 where
  now_lt := hd.ticks_lt
  current_ge := by
    intro x hx
    obtain ⟨hc, hv⟩ := mem_keyed.mp hx
    rw [hv]
    exact hd.cur_ge x.1 hc
  current_lt := by
    intro x hx
    obtain ⟨hc, hv⟩ := mem_keyed.mp hx
    rw [hv]
    exact hd.cur_lt x.1 hc
  next_lt := by
    intro x hx
    obtain ⟨hc, hv⟩ := mem_keyed.mp hx
    rw [hv]
    exact hd.next_lt x.1 hc

/-- The keys of the tasks in the list are all that counts. -/
theorem keyed_congr {st st' : ListStore StateList Tid} (helems : st'.elems l = st.elems l)
    (hval : ∀ t, st.container t = some l → st'.value t = st.value t) :
    keyed st' l = keyed st l := by
  unfold keyed
  rw [helems]
  apply List.map_congr_left
  intro t ht
  rw [hval t (ListStore.container_of_mem ht)]

/-- Taking a task out of a list. -/
theorem keyed_erase {st st' : ListStore StateList Tid}
    (helems : st'.elems l = (st.elems l).erase t) (hval : st'.value = st.value) :
    keyed st' l = (keyed st l).filter fun x => x.1 ≠ t := by
  unfold keyed
  rw [helems, hval, (st.nodup l).erase_eq_filter, List.filter_map]
  congr 1
  apply List.filter_congr
  intro u _
  by_cases hu : u = t <;> simp [hu]

/-- Putting a task into a sorted list. -/
theorem keyed_insertSorted {st : ListStore StateList Tid} (ht : st.container t = none) :
    keyed (st.insertSorted l t) l = Deadline.place (t, st.value t) (keyed st l) := by
  unfold keyed Deadline.place
  rw [ListStore.insertSorted_eq ht, ListStore.link_elems, update_self, List.map_append,
    List.map_cons, List.takeWhile_map, List.dropWhile_map]
  rfl

/-- A new key of a task that is in no list. -/
theorem keyed_setValue {st : ListStore StateList Tid} (ht : st.container t = none) (v : ℕ) :
    keyed (st.setValue t v) l = keyed st l := by
  refine keyed_congr rfl ?_
  intro u hu
  have hne : u ≠ t := by
    rintro rfl
    rw [ht] at hu
    simp at hu
  exact update_of_ne hne _ _

/-- An insertion into another list. -/
theorem keyed_insertEnd {st : ListStore StateList Tid} {l' : StateList}
    (ht : st.container t = none) (hl : l ≠ l') : keyed (st.insertEnd l' t) l = keyed st l := by
  rw [ListStore.insertEnd_eq ht]
  apply keyed_congr
  · rw [ListStore.link_elems, update_of_ne hl]
  · intro u _
    rfl

/-- The wheel does not look at the ready lists. -/
theorem wheel_congr (h : SInv cfg k) (hticks : k'.ticks = k.ticks)
    (hcur : k'.curDelayed = k.curDelayed) (hnext : k'.nextDelayed = k.nextDelayed)
    (hkeyed : ∀ l, l ≠ .suspend → (∀ p, l ≠ .ready p) → keyed k'.stateL l = keyed k.stateL l) :
    k'.wheel = k.wheel := by
  unfold Sched.wheel
  rw [hticks, hcur, hnext, hkeyed _ h.curDelayed_ne_suspend h.curDelayed_ne_ready,
    hkeyed _ h.nextDelayed_ne_suspend h.nextDelayed_ne_ready]

/-- What a move does to the wheel. -/
def turned (w : Deadline.Wheel Tid) : Action → Deadline.Wheel Tid
  | .block t v _ false => w.sleep t v
  | .wake _ t => w.cancel t
  | .expire t => w.cancel t
  | .advance => w.advance 4294967296
  | _ => w

/-- An unblocked task leaves the wheel. -/
theorem wheel_unblocked (h : SInv cfg k) (u : Tid) (r : WaitReason) :
    (k.unblocked u r).wheel = k.wheel.cancel u := by
  have hkeyed : ∀ l, (∀ p, l ≠ .ready p) →
      keyed (k.unblocked u r).stateL l = (keyed k.stateL l).filter fun x => x.1 ≠ u := by
    intro l hl
    apply keyed_erase
    · rw [unblocked_elems, if_neg (hl _)]
    · exact unblocked_value r
  show Deadline.Wheel.mk _ _ _ = Deadline.Wheel.mk _ _ _
  rw [unblocked_ticks, unblocked_curDelayed, unblocked_nextDelayed,
    hkeyed _ h.curDelayed_ne_ready, hkeyed _ h.nextDelayed_ne_ready]
  rfl

/-- Parking in a delayed list. -/
theorem keyed_parked (hu : k.stateL.container u = none) (w : ℕ) :
    keyed (k.parked u w false) l =
      if l = k.parkList w false then Deadline.place (u, w) (keyed k.stateL l)
      else keyed k.stateL l := by
  have hset : (k.stateL.setValue u w).container u = none := hu
  split
  · rename_i hl
    subst hl
    show keyed ((k.stateL.setValue u w).insertSorted _ u) _ = _
    rw [keyed_insertSorted hset, keyed_setValue hu, ListStore.setValue_value, update_self]
  · rename_i hl
    have hval : keyed (k.parked u w false) l = keyed (k.stateL.setValue u w) l := by
      refine keyed_congr (parked_elems_of_ne w false hu hl) fun v _ => ?_
      rw [parked_value]
      rfl
    rw [hval, keyed_setValue hu]

/-- A task that blocks until a tick enters the wheel. -/
theorem wheel_blockedOn (h : SInv cfg k) (hu : k.stateL.container u = none) (w : ℕ)
    (obj : Option EventList) : (k.blockedOn u w obj false).wheel = k.wheel.sleep u w := by
  have hne := h.curDelayed_ne_nextDelayed
  show Deadline.Wheel.mk k.ticks (keyed (k.parked u w false) k.curDelayed)
    (keyed (k.parked u w false) k.nextDelayed) = _
  rw [keyed_parked hu, keyed_parked hu]
  unfold Deadline.Wheel.sleep
  by_cases hlt : w < k.ticks
  · have hl : k.parkList w false = k.nextDelayed := by simp [parkList, hlt]
    rw [hl, if_neg hne, if_pos rfl]
    exact (if_pos hlt).symm
  · have hl : k.parkList w false = k.curDelayed := by simp [parkList, hlt]
    rw [hl, if_pos rfl, if_neg hne.symm]
    exact (if_neg hlt).symm

/-- One that blocks for ever does not. -/
theorem wheel_suspended (h : SInv cfg k) (hu : k.stateL.container u = none) (w : ℕ)
    (obj : Option EventList) : (k.blockedOn u w obj true).wheel = k.wheel := by
  refine wheel_congr h rfl rfl rfl fun l hs _ => ?_
  have hval : keyed (k.parked u w true) l = keyed (k.stateL.setValue u w) l := by
    refine keyed_congr (parked_elems_of_ne w true hu hs) fun v _ => ?_
    rw [parked_value]
    rfl
  exact hval.trans (keyed_setValue hu w)

/-- **Every move turns the wheel.** -/
theorem Move.wheel (h : SInv cfg k) (hd : DelayInv k) (hm : Move cfg k a k') :
    k'.wheel = turned k.wheel a := by
  cases hm with
  | create hentry hprio hwords hlt =>
      refine wheel_congr h rfl rfl rfl fun l _ hl => ?_
      have hset : (k.stateL.setValue (.user k.taskCount) 0).container (.user k.taskCount) =
          none := h.new_unlinked
      exact (keyed_insertEnd hset (hl _)).trans (keyed_setValue h.new_unlinked 0)
  | @requeue cur hcur =>
      unfold requeued
      split
      · rename_i hc
        refine wheel_congr h rfl rfl rfl fun l _ hl => ?_
        exact keyed_insertEnd hc.2 (hl _)
      · rfl
  | @dispatch u p hall htop =>
      refine wheel_congr h rfl rfl rfl fun l _ hl => ?_
      refine keyed_congr ?_ fun _ _ => rfl
      apply ListStore.remove_elems_of_ne
      rw [htop.container]
      simpa using (hl p).symm
  | @block u w obj inf hc hw =>
      cases inf with
      | false => exact wheel_blockedOn h hc.state w obj
      | true => exact wheel_suspended h hc.state w obj
  | wake hl => exact wheel_unblocked h _ _
  | expire hl hdue => exact wheel_unblocked h _ _
  | advance hset =>
      have hlt := hd.ticks_lt
      show (advanced k).wheel = k.wheel.advance 4294967296
      unfold advanced Deadline.Wheel.advance
      by_cases hwrap : u32 (k.ticks + 1) = 0
      · have htop : k.ticks + 1 = 4294967296 := by
          unfold u32 at hwrap
          omega
        rw [if_pos hwrap]
        exact (if_pos htop).symm
      · have htop : u32 (k.ticks + 1) = k.ticks + 1 ∧ k.ticks + 1 ≠ 4294967296 := by
          unfold u32 at hwrap ⊢
          omega
        rw [if_neg hwrap, htop.1]
        exact (if_neg htop.2).symm
  | @setEff u p hbase hp hne =>
      refine wheel_congr h rfl rfl rfl fun l _ hl => ?_
      show keyed (if k.IsReady u then _ else _) l = _
      split
      · rename_i hr
        have hnone : (k.stateL.remove u).container u = none := by simp
        rw [keyed_insertEnd hnone (hl p)]
        refine keyed_congr ?_ fun _ _ => rfl
        apply ListStore.remove_elems_of_ne
        rw [show k.stateL.container u = _ from hr]
        simpa using (hl (k.eff u)).symm
      · rfl
  | _ => rfl

/-! ## The queue of deadlines -/

/-- **The deadlines on a clock that never wraps**, after `n` ticks since the start. -/
def Sched.timers (k : Sched) (n : ℕ) : Deadline.Queue Tid := k.wheel.unroll 4294967296 n

/-- What a move does to the deadlines: who blocks until a tick sleeps, and who is woken does not
wait for its deadline any more. -/
def timed (k : Sched) (n : ℕ) : Action → List (Deadline.Queue.Op Tid)
  | .block t w _ false => [.sleep t (n + k.ticksTo w)]
  | .wake _ t => [.cancel t]
  | .expire t => [.cancel t]
  | _ => []

/-- The way to a tick is the way around the wheel. -/
theorem ticksTo_eq (k : Sched) (w : ℕ) : k.ticksTo w = k.wheel.ahead 4294967296 w := rfl

/-- **A move other than the advance of the tick is one operation of the queue, or none.** -/
theorem Move.timers {n : ℕ} (h : SInv cfg k) (hd : DelayInv k) (hm : Move cfg k a k')
    (hn : n % 4294967296 = k.ticks) (ha : a ≠ .advance) :
    Runs.Exec (Deadline.Queue.Step 4294967296) (k.timers n) (timed k n a) (k'.timers n) := by
  have hturned := hm.wheel h hd
  have hrefines : k.wheel.Refines 4294967296 (k.timers n) := Deadline.Wheel.refines_unroll hn
  -- the clock stands still, so the queue after the move is read off its wheel
  have hend : ∀ q : Deadline.Queue Tid, q.clock = n →
      (turned k.wheel a).Refines 4294967296 q → k'.timers n = q := by
    intro q hq hr
    rw [Sched.timers, hturned, ← hq]
    exact hr.unroll
  cases hm with
  | @block u w obj inf hc hw =>
      cases inf with
      | false =>
          obtain ⟨hlt, hne⟩ := hw rfl
          obtain ⟨hpos, hround⟩ :=
            Deadline.Wheel.ahead_pos (w := k.wheel) hd.ticks_lt hlt hne
          rw [hend _ rfl (hrefines.sleep hd.valid hlt u)]
          apply Runs.Exec.single
          apply Deadline.Queue.Step.sleep
          · exact Nat.lt_add_of_pos_right hpos
          · exact Nat.add_lt_add_left hround n
      | true =>
          rw [hend _ rfl hrefines]
          exact Runs.Exec.nil
  | wake hl =>
      rw [hend _ rfl (hrefines.cancel _)]
      exact Runs.Exec.single .cancel
  | expire hl hdue =>
      rw [hend _ rfl (hrefines.cancel _)]
      exact Runs.Exec.single .cancel
  | advance hset => exact absurd rfl ha
  | _ =>
      rw [hend _ rfl hrefines]
      exact Runs.Exec.nil

/-- Moves without an advance are operations of the queue. -/
theorem Moves.timers {n : ℕ} (h : SInv cfg k) (hd : DelayInv k) (hm : Moves cfg k acts k')
    (hn : n % 4294967296 = k.ticks) (ha : NoAdvance acts) :
    Runs.Exec (Deadline.Queue.Step 4294967296) (k.timers n) (acts.flatMap (timed k n))
      (k'.timers n) := by
  induction hm with
  | nil => exact Runs.Exec.nil
  | @snoc tr k₁ k₂ b hm hmove ih =>
      have ha' := List.mem_append.not.mp ha
      push Not at ha'
      obtain ⟨hs₁, hd₁⟩ := h.moves hd hm
      have hticks := Moves.ticks hm ha'.1
      have hstep := hmove.timers hs₁ hd₁ (hn.trans hticks.symm) fun hb =>
        ha'.2 (hb ▸ List.mem_singleton_self _)
      -- the tick stands still, so the way to a deadline is that of the first state
      have htimed : timed k₁ n b = timed k n b := by
        unfold timed ticksTo
        rw [hticks]
      rw [List.flatMap_append, List.flatMap_singleton, ← htimed]
      exact (ih ha'.1).trans hstep

/-- **The moves of a step other than a tick**: only the running task blocks, and who is woken is
who is handed something. -/
theorem StepKind.blocks_wakes (hs : StepKind cfg s e obs s') (he : e ≠ .tick) :
    ∃ acts, Moves cfg s.sched acts s'.sched ∧ NoAdvance acts ∧ (∀ t, .expire t ∉ acts) ∧
      (∀ t w obj inf, .block t w obj inf ∈ acts → s.running = some t) ∧
      ∀ t l, .wake l t ∈ acts ↔ .handed l t ∈ obs := by
  cases hs with
  | create hcur hm hacts => rcases hacts with rfl | ⟨q, rfl⟩ <;> exact ⟨_, hm, by simp [NoAdvance]⟩
  | start hcur hm hacts hnext =>
      rcases hacts with rfl | ⟨q, rfl⟩ <;> exact ⟨_, hm, by simp [NoAdvance]⟩
  | @task e t x o hrun hI hsrc hstep =>
      obtain ⟨acts, hsec, -⟩ := hstep.sec
      refine ⟨acts, hsec.moves, fun ha => hsec.acts_ok _ ha, fun u ha => hsec.acts_ok _ ha,
        fun u w obj inf ha => ?_, fun u l => (hsec.obs_ok.hands l u).symm⟩
      rw [hrun, (hsec.acts_ok _ ha).1]
  | request hrun hpc => exact ⟨[], Runs.Exec.nil, by simp [NoAdvance]⟩
  | tick hm hset => exact absurd rfl he
  | switch hcur hpending hm hacts =>
      rcases hacts with ⟨rfl, -⟩ | ⟨q, rfl, -⟩ <;> exact ⟨_, hm, by simp [NoAdvance]⟩
  | isrEnter => exact ⟨[], Runs.Exec.nil, by simp [NoAdvance]⟩
  | isrCall hh hstep =>
      obtain ⟨acts, hsec, hwakes⟩ := hstep
      refine ⟨acts, (hsec .idle).moves, fun ha => (hsec .idle).acts_ok _ ha,
        fun u ha => (hsec .idle).acts_ok _ ha, fun u w obj inf ha => ?_,
        fun u l => ((hsec .idle).obs_ok.hands l u).symm⟩
      obtain ⟨l, v, hv⟩ := hwakes _ ha
      simp at hv
  | isrReturn hh => exact ⟨[], Runs.Exec.nil, by simp [NoAdvance]⟩

/-! ## The tick -/

/-- **Expiries that leave nobody due** let go exactly those who are due, in their order, and line
them up behind the ready tasks of their priorities. -/
theorem Moves.expiries_due {ts : List Tid} (h : SInv cfg k) (hd : DelayInv k)
    (hm : Moves cfg k (ts.map .expire) k') (hset : k'.Settled) :
    k'.wheel = k.wheel.expire ∧ ts = k.wheel.late ∧
      ∀ p, k'.stateL.elems (.ready p) =
        k.stateL.elems (.ready p) ++ ts.filter fun t => k.eff t = p := by
  induction ts generalizing k with
  | nil =>
      have hk : k' = k := Runs.Exec.nil_inv hm
      rw [hk] at hset ⊢
      have hnone : ∀ x ∈ k.wheel.current, k.wheel.now < x.2 := by
        intro x hx
        obtain ⟨hc, hv⟩ := mem_keyed.mp hx
        rw [hv]
        exact hset x.1 hc
      obtain ⟨hexpire, hlate⟩ := Deadline.Wheel.expire_eq_self hnone
      exact ⟨hexpire.symm, hlate.symm, by simp⟩
  | cons t ts ih =>
      obtain ⟨k₁, hmove, hrest⟩ := Runs.Exec.cons_inv hm
      obtain ⟨hs₁, hd₁⟩ := h.moves hd (Runs.Exec.single hmove)
      obtain ⟨hwheel, hts, hready⟩ := ih hs₁ hd₁ hrest
      have hcancel : k₁.wheel = k.wheel.cancel t := hmove.wheel h hd
      cases hmove with
      | @expire t rest hl hdue =>
          -- the first one is the head of the current list, and it is in no other
          have hcont := ListStore.container_of_head hl
          have hnodup := k.stateL.nodup k.curDelayed
          rw [hl, List.nodup_cons] at hnodup
          have hcur : k.wheel.current = (t, k.stateL.value t) ::
              rest.map fun u => (u, k.stateL.value u) := by
            show keyed _ _ = _
            rw [keyed, hl, List.map_cons]
          have hothers : ∀ x ∈ rest.map fun u => (u, k.stateL.value u), x.1 ≠ t := by
            intro x hx
            obtain ⟨u, hu, rfl⟩ := List.mem_map.mp hx
            rintro rfl
            exact hnodup.1 hu
          have hnext : ∀ x ∈ k.wheel.next, x.1 ≠ t := by
            intro x hx
            obtain ⟨hc, -⟩ := mem_keyed.mp hx
            rintro rfl
            rw [hcont, Option.some.injEq] at hc
            exact h.curDelayed_ne_nextDelayed hc
          obtain ⟨hexpire, hlate⟩ := Deadline.Wheel.expire_cancel hcur hdue hothers hnext
          rw [← hcancel] at hexpire hlate
          refine ⟨hwheel.trans hexpire, by rw [hlate, ← hts], fun p => ?_⟩
          -- it was in no ready list, and it is behind those of its priority now
          have hnot : t ∉ k.stateL.elems (.ready p) := by
            rw [k.stateL.mem_elems, hcont]
            simpa using h.curDelayed_ne_ready p
          rw [hready p, unblocked_elems, List.erase_of_not_mem hnot]
          simp only [unblocked_eff]
          by_cases hp : k.eff t = p
          · rw [if_pos (by rw [hp]), List.filter_cons_of_pos (by simpa using hp),
              List.append_assoc]
            rfl
          · rw [if_neg (by simpa using Ne.symm hp), List.filter_cons_of_neg (by simpa using hp)]

/-- **A tick of the kernel is a tick of the queue**, and the tasks that are due line up behind the
ready ones. -/
theorem StepKind.timers_tick {n : ℕ} (h : Inv cfg s) (hs : StepKind cfg s .tick obs s')
    (hn : n % 4294967296 = s.sched.ticks) :
    s'.sched.timers (n + 1) = (s.sched.timers n).tick ∧
      ∀ p, s'.sched.stateL.elems (.ready p) = s.sched.stateL.elems (.ready p) ++
        (s.sched.timers n).due.filter fun t => s.sched.eff t = p := by
  cases hs with
  | @tick ts k hm hset =>
      obtain ⟨k₁, hadv, hexp⟩ := Runs.Exec.cons_inv hm
      have hd := h.ready.delay
      obtain ⟨hs₁, hd₁⟩ := h.ready.inv.moves hd (Runs.Exec.single hadv)
      have hwheel : k₁.wheel = s.sched.wheel.advance 4294967296 := hadv.wheel h.ready.inv hd
      have heff : k₁.eff = s.sched.eff ∧ k₁.stateL = s.sched.stateL := by
        cases hadv with
        | advance hset₀ =>
            refine ⟨?_, advanced_stateL⟩
            funext t
            unfold Sched.eff
            rw [advanced_tcb]
      obtain ⟨hwheel', hts, hready⟩ := Moves.expiries_due hs₁ hd₁ hexp hset
      -- the wheel holds the queue before the tick, so it does after the advance and the expiries
      have hrefines : s.sched.wheel.Refines 4294967296 (s.sched.timers n) :=
        Deadline.Wheel.refines_unroll hn
      have hahead : ∀ x ∈ s.sched.wheel.current, s.sched.wheel.now < x.2 := by
        intro x hx
        obtain ⟨hc, hv⟩ := mem_keyed.mp hx
        rw [hv]
        exact h.settled x.1 hc
      have hadvance := hrefines.advance hd.valid hahead
      rw [← hwheel] at hadvance
      obtain ⟨hexpire, hdue⟩ := hadvance.expire hd₁.valid
      rw [← hwheel'] at hexpire
      constructor
      · exact hexpire.unroll
      · intro p
        have hlate : (s.sched.timers n).due = ts := hdue.trans hts.symm
        rw [hlate, ← heff.1, ← heff.2]
        exact hready p
  | task hrun hI hsrc hstep => cases hsrc

/-! ## Runs -/

/-- The kernel starts with nobody waiting. -/
theorem Initial.timers (h₀ : Initial cfg s₀) : s₀.sched.timers 0 = .empty := by
  rw [h₀.sched]
  rfl

/-- **The tick is the number of ticks since the start, modulo its width.** -/
theorem Run.clock (h₀ : Initial cfg s₀) (hr : Run cfg s₀ tr s) :
    ticksIn tr % 4294967296 = s.sched.ticks := by
  induction hr with
  | nil =>
      rw [h₀.sched]
      rfl
  | @snoc tr s₁ s₂ b hr hstep ih =>
      obtain ⟨e, obs⟩ := b
      have hI : Inv cfg s₁ := Reachable.inv ⟨s₀, tr, h₀, hr⟩
      rw [ticksIn_snoc, (step_kind hI hstep).ticks hI, ← ih]
      cases e.isTick with
      | true => exact (Nat.mod_add_mod _ _ _).symm
      | false => rfl

/-- A step other than a tick is some operations of the queue: the running task may sleep, and who
is handed something does not wait any more. -/
theorem StepKind.timers {n : ℕ} (h : Inv cfg s) (hs : StepKind cfg s e obs s') (he : e ≠ .tick)
    (hn : n % 4294967296 = s.sched.ticks) :
    ∃ ops, Runs.Exec (Deadline.Queue.Step 4294967296) (s.sched.timers n) ops
        (s'.sched.timers n) ∧
      (∀ t d, .sleep t d ∈ ops → s.running = some t) ∧
      (∀ t, .cancel t ∈ ops ↔ ∃ l, .handed l t ∈ obs) ∧ .tick ∉ ops := by
  obtain ⟨acts, hm, hadv, hexpire, hblock, hwake⟩ := hs.blocks_wakes he
  refine ⟨_, Moves.timers h.ready.inv h.ready.delay hm hn hadv, fun t d hmem => ?_,
    fun t => ?_, fun hmem => ?_⟩
  · obtain ⟨a, ha, hmem⟩ := List.mem_flatMap.mp hmem
    cases a with
    | block u w obj inf =>
        cases inf with
        | true => simp [timed] at hmem
        | false =>
            obtain ⟨rfl, -⟩ : t = u ∧ _ := by simpa [timed] using hmem
            exact hblock _ _ _ _ ha
    | _ => simp [timed] at hmem
  · rw [List.mem_flatMap]
    constructor
    · rintro ⟨a, ha, hmem⟩
      cases a with
      | wake l u =>
          obtain rfl : t = u := by simpa [timed] using hmem
          exact ⟨l, (hwake _ _).mp ha⟩
      | expire u => exact absurd ha (hexpire u)
      | block u w obj inf => cases inf <;> simp [timed] at hmem
      | _ => simp [timed] at hmem
    · rintro ⟨l, hl⟩
      exact ⟨_, (hwake t l).mpr hl, by simp [timed]⟩
  · obtain ⟨a, -, hmem⟩ := List.mem_flatMap.mp hmem
    cases a with
    | block u w obj inf => cases inf <;> simp [timed] at hmem
    | _ => simp [timed] at hmem

/-- Every run of the kernel is a run of the queue. -/
theorem Run.timers (h₀ : Initial cfg s₀) (hr : Run cfg s₀ tr s) :
    ∃ ops, Runs.Exec (Deadline.Queue.Step 4294967296) .empty ops (s.sched.timers (ticksIn tr)) := by
  induction hr with
  | nil =>
      refine ⟨[], ?_⟩
      rw [show ticksIn [] = 0 from rfl, h₀.timers]
      exact Runs.Exec.nil
  | @snoc tr s₁ s₂ b hr hstep ih =>
      obtain ⟨e, obs⟩ := b
      obtain ⟨ops, hops⟩ := ih
      have hI : Inv cfg s₁ := Reachable.inv ⟨s₀, tr, h₀, hr⟩
      have hk := step_kind hI hstep
      have hclock := Run.clock h₀ hr
      rw [ticksIn_snoc]
      by_cases he : e = .tick
      · subst he
        refine ⟨ops ++ [.tick], hops.trans (Runs.Exec.single ?_)⟩
        show Deadline.Queue.Step _ _ _ (s₂.sched.timers (ticksIn tr + 1))
        rw [(hk.timers_tick hI hclock).1]
        exact .tick
      · obtain ⟨ops', hops', -⟩ := hk.timers hI he hclock
        refine ⟨ops ++ ops', ?_⟩
        rw [Bool.eq_false_iff.mpr (isTick_iff.not.mpr he)]
        exact hops.trans hops'

/-- The queue of a run is sound. -/
theorem Run.timers_sound (h₀ : Initial cfg s₀) (hr : Run cfg s₀ tr s) :
    (s.sched.timers (ticksIn tr)).Sound := by
  obtain ⟨ops, hops⟩ := Run.timers h₀ hr
  exact hops.invariant (fun _ _ _ hq hs => hs.sound hq) Deadline.Queue.sound_empty

/-- **Who is in the queue**: the delayed tasks, each with the tick at which it is due. -/
theorem mem_timers {N n : ℕ} (hN : N % 4294967296 = k.ticks) :
    (t, N + n) ∈ (k.timers N).entries ↔ k.DueIn t n := by
  have hround := Nat.mod_add_div N 4294967296
  show (t, N + n) ∈ Deadline.later _ _ ++ Deadline.later _ _ ↔ _
  rw [List.mem_append, Deadline.mem_later, Deadline.mem_later]
  unfold DueIn
  have hnow : k.wheel.now = k.ticks := rfl
  constructor
  · rintro (⟨⟨u, v⟩, hx, he⟩ | ⟨⟨u, v⟩, hx, he⟩)
    · obtain ⟨hc, hv⟩ := mem_keyed.mp hx
      simp only [Prod.mk.injEq] at he hc hv
      obtain ⟨rfl, he⟩ := he
      exact Or.inl ⟨hc, by omega⟩
    · obtain ⟨hc, hv⟩ := mem_keyed.mp hx
      simp only [Prod.mk.injEq] at he hc hv
      obtain ⟨rfl, he⟩ := he
      exact Or.inr ⟨hc, by omega⟩
  · rintro (⟨hc, hv⟩ | ⟨hc, hv⟩)
    · refine Or.inl ⟨(t, k.stateL.value t), mem_keyed.mpr ⟨hc, rfl⟩, ?_⟩
      simp only [Prod.mk.injEq, true_and]
      omega
    · refine Or.inr ⟨(t, k.stateL.value t), mem_keyed.mpr ⟨hc, rfl⟩, ?_⟩
      simp only [Prod.mk.injEq, true_and]
      omega

/-- **The two delayed lists and the wrapping tick refine one queue of deadlines** on a clock that
counts the ticks since the start and never wraps.  After every run the queue is sound and holds
the delayed tasks with the ticks at which they are due; the run of the kernel is a run of the
queue; a tick is a tick of the queue, and lines the tasks that are due up behind the ready ones in
the order of their deadlines; and in any other step the running task may go to sleep, exactly those
are cancelled who are handed something, and the clock stands still. -/
theorem timers_refine (h₀ : Initial cfg s₀) (hr : Run cfg s₀ tr s) :
    let q := s.sched.timers (ticksIn tr)
    q.Sound ∧ (∀ t n, (t, q.clock + n) ∈ q.entries ↔ s.sched.DueIn t n) ∧
      (∃ ops, Runs.Exec (Deadline.Queue.Step 4294967296) .empty ops q) ∧
      (∀ obs s', Step cfg s (.tick, obs) s' → s'.sched.timers (ticksIn tr + 1) = q.tick ∧
        ∀ p, s'.sched.stateL.elems (.ready p) =
          s.sched.stateL.elems (.ready p) ++ q.due.filter fun t => s.sched.eff t = p) ∧
      ∀ e obs s', e ≠ .tick → Step cfg s (e, obs) s' →
        ∃ ops, Runs.Exec (Deadline.Queue.Step 4294967296) q ops (s'.sched.timers (ticksIn tr)) ∧
          (∀ t d, .sleep t d ∈ ops → s.running = some t) ∧
          (∀ t, .cancel t ∈ ops ↔ ∃ l, .handed l t ∈ obs) ∧ .tick ∉ ops := by
  have hI : Inv cfg s := Reachable.inv ⟨s₀, tr, h₀, hr⟩
  have hclock := Run.clock h₀ hr
  refine ⟨Run.timers_sound h₀ hr, fun t n => mem_timers hclock, Run.timers h₀ hr,
    fun obs s' hs => ?_, fun e obs s' he hs => ?_⟩
  · exact (step_kind hI hs).timers_tick hI hclock
  · exact (step_kind hI hs).timers hI he hclock

/-- A task waits until the third tick. -/
def waitingForThree : Sys × List Obs :=
  (step smallConfig loneTask.2 (.call (.waitUntil 3))).get (by decide +kernel)

theorem waitingForThree_run : Run smallConfig smallBoot
    (loneTask.1 ++ [(.call (.waitUntil 3), waitingForThree.2)]) waitingForThree.1 :=
  (run_of_runSteps (Option.some_get _).symm).snoc (step_of_isSome _)

theorem timers_refine_waitingForThree :
    (waitingForThree.1.sched.timers 0).entries = [(.user 0, 3)] ∧
      ∃ ops, Runs.Exec (Deadline.Queue.Step 4294967296) .empty ops
        (waitingForThree.1.sched.timers 0) := by
  obtain ⟨-, -, hrun, -⟩ := timers_refine smallBoot_initial waitingForThree_run
  have hzero : ticksIn (loneTask.1 ++ [(.call (.waitUntil 3), waitingForThree.2)]) = 0 := by
    decide +kernel
  rw [hzero] at hrun
  exact ⟨by decide +kernel, hrun⟩

/-! ## Waiting for a time -/

/-- **The call waits until `D`**, when it is made at the time `N`: relatively, or absolutely with a
deadline less than half a round away, ahead or behind. -/
def Call.Until (N D : ℕ) : Call → Prop
  | .wait n => n.toNat ≠ artosDelayInfinity ∧ D = N + n.toNat
  | .waitUntil w => w.toNat = D % 4294967296 ∧ N ≤ D + 2147483648 ∧ D < N + 2147483648
  | _ => False

/-- The event is a call of the running task. -/
def Event.isCall : Event → Bool
  | .call _ => true
  | _ => false

/-- The task makes no call. -/
def Uncalled (t : Tid) (s : Sys) (e : Event) : Prop := e.isCall = true → s.running ≠ some t

instance (t : Tid) (s : Sys) (e : Event) : Decidable (Uncalled t s e) :=
  inferInstanceAs (Decidable (_ → _))

/-- **The task waits until `D` in no call on an object**: at the time `N` it is in the queue with
this deadline, or the deadline has come. -/
structure WaitsUntil (t : Tid) (N D : ℕ) (s : Sys) : Prop where
  pc : s.pc t = .user ∨ s.pc t = .request none
  before : N < D → (t, D) ∈ (s.sched.timers N).entries
  after : D ≤ N → ¬ s.sched.Blocked t

/-- A task whose point is no call on an object waits for none. -/
theorem Inv.no_event (h : Inv cfg s) (hpc : s.pc t = .user ∨ s.pc t = .request none) :
    s.sched.eventL.container t = none := by
  have htask := h.tasks t
  rcases hpc with hpc | hpc
  · rw [hpc] at htask
    exact htask.1
  · rw [hpc] at htask
    exact htask.1

/-- Who is in the queue is blocked. -/
theorem blocked_of_mem_timers {N D : ℕ} (h : Inv cfg s) (hN : N % 4294967296 = s.sched.ticks)
    (hlt : N < D) (hx : (t, D) ∈ (s.sched.timers N).entries) : s.sched.Blocked t := by
  obtain ⟨n, rfl⟩ := Nat.exists_eq_add_of_le hlt.le
  exact Delayed.blocked (DueIn.delayed h.ready.inv ((mem_timers hN).mp hx))

/-- Moves that do not block the task do not make it blocked. -/
theorem Moves.blocked_before (h : SInv cfg k) (hd : DelayInv k) (hm : Moves cfg k acts k')
    (hb : ∀ w obj inf, .block t w obj inf ∉ acts) (ht : k'.Blocked t) : k.Blocked t := by
  induction hm with
  | nil => exact ht
  | @snoc tr k₁ k₂ b hm hmove ih =>
      apply ih fun w obj inf hmem => hb w obj inf (List.mem_append_left _ hmem)
      refine (hmove.kept_blocked (h.moves hd hm).1 ?_ ht).1
      rintro w obj inf rfl
      exact hb w obj inf (List.mem_append_right _ (List.mem_singleton_self _))

/-- **A step of a wait.** -/
theorem WaitsUntil.step {N D : ℕ} (hw : WaitsUntil t N D s) (h : Inv cfg s)
    (hsound : (s.sched.timers N).Sound) (hN : N % 4294967296 = s.sched.ticks)
    (hs : StepKind cfg s e obs s') (hno : Uncalled t s e) :
    WaitsUntil t (N + if e.isTick then 1 else 0) D s' := by
  have hevent := h.no_event hw.pc
  have hhand : ∀ l, Obs.handed l t ∉ obs := by
    intro l hob
    rw [hs.handed_waits h hob] at hevent
    simp at hevent
  have hown : (∃ acts, Moves cfg s.sched acts s'.sched ∧ ∀ w obj inf, .block t w obj inf ∉ acts) ∧
      (s'.pc t = .user ∨ s'.pc t = .request none) := by
    cases hs.stepOf h t with
    | spared hsp =>
        obtain ⟨acts, hm, hspares, -⟩ := hsp.moves
        rw [hsp.pc]
        exact ⟨⟨acts, hm, not_block_of_spares hspares⟩, hw.pc⟩
    | @request r hrun hpc =>
        -- the request of the wait itself
        refine ⟨⟨[], Runs.Exec.nil, by simp⟩, Or.inl ?_⟩
        have hr : r = none := by simpa [hpc] using hw.pc
        simp [hr, afterRequest]
    | own hrun hI hsrc hstep =>
        have hpc := hw.pc
        cases hsrc with
        | call hpc' => exact absurd hrun (hno rfl)
        | resume hpc' => simp [hpc'] at hpc
        | finish hpc' => simp [hpc'] at hpc
  obtain ⟨⟨acts, hm, hblock⟩, hpc⟩ := hown
  have hfree : ¬ s.sched.Blocked t → ¬ s'.sched.Blocked t := fun hb hb' =>
    hb (Moves.blocked_before h.ready.inv h.ready.delay hm hblock hb')
  by_cases he : e = .tick
  · subst he
    refine ⟨hpc, fun hlt => ?_, fun hle => ?_⟩
    · -- the deadline is later than the next tick
      have hlt : N + 1 < D := hlt
      show (t, D) ∈ (s'.sched.timers (N + 1)).entries
      rw [(hs.timers_tick h hN).1, hsound.mem_tick]
      exact ⟨hw.before (by omega), hlt⟩
    · rcases Nat.lt_or_ge N D with hlt | hge
      · -- the deadline is the next tick
        have hD : D = N + 1 := by
          have hle : D ≤ N + 1 := hle
          omega
        have hdue : s.sched.DueIn t 1 := (mem_timers hN).mp (hD ▸ hw.before hlt)
        rintro ⟨l, hl, hlb⟩
        rw [(tick_expires h hs hdue).ready, Option.some.injEq] at hl
        subst hl
        simp [StateList.isBlocked] at hlb
      · exact hfree (hw.after hge)
  · rw [Bool.eq_false_iff.mpr (isTick_iff.not.mpr he)]
    refine ⟨hpc, fun hlt => ?_, fun hle => hfree (hw.after hle)⟩
    obtain ⟨ops, hops, -, hcancel, htick⟩ := hs.timers h he hN
    refine Deadline.Queue.Step.kept_run hops hsound (hw.before hlt) ?_ htick
    intro hmem
    obtain ⟨l, hl⟩ := (hcancel t).mp hmem
    exact hhand l hl

/-- **A run of a wait.** -/
theorem WaitsUntil.run {D : ℕ} (h₀ : Initial cfg s₀) (hr : Run cfg s₀ tr s)
    {tr' : List Label} (hw : WaitsUntil t (ticksIn tr) D s)
    (hr' : Runs.Exec (fun s b s' => Step cfg s b s' ∧ Uncalled t s b.1) s tr' s') :
    WaitsUntil t (ticksIn (tr ++ tr')) D s' := by
  induction hr' with
  | nil => rwa [List.append_nil]
  | @snoc tr' s₁ s₂ b hr' hstep ih =>
      obtain ⟨e, obs⟩ := b
      have hr₁ : Run cfg s₀ (tr ++ tr') s₁ := hr.trans (hr'.mono fun _ _ _ hs => hs.1)
      have hI : Inv cfg s₁ := Reachable.inv ⟨s₀, _, h₀, hr₁⟩
      rw [← List.append_assoc, ticksIn_snoc]
      exact ih.step hI (Run.timers_sound h₀ hr₁) (Run.clock h₀ hr₁) (step_kind hI hstep.1) hstep.2

/-- **The call starts the wait**: it puts the task into the queue, unless the deadline is not ahead
any more. -/
theorem Call.Until.waits {N D : ℕ} {c : Call} (hc : c.Until N D)
    (hN : N % 4294967296 = s.sched.ticks) (hI : InTask cfg s.sched t) :
    WaitsUntil t N D (s.finish t (callStep cfg s.kernel c)) := by
  have hcan : s.kernel.sched.CanBlock t := hI.can
  have hnow : N % 4294967296 = s.kernel.sched.ticks := hN
  -- both calls come to one section
  have hsec : ∀ o : Outcome, o.pc = .request none →
      (N < D → o.kernel.sched = s.sched.blockedOn t (D % 4294967296) none false) →
      (D ≤ N → o.kernel.sched = s.sched) → D < N + 4294967296 →
      WaitsUntil t N D (s.finish t o) := by
    intro o hpc hahead hlate hround
    refine ⟨Or.inr (by simp [Sys.finish, hpc]), fun hlt => ?_, fun hle => ?_⟩
    · show (t, D) ∈ (o.kernel.sched.timers N).entries
      have hlt' : D % 4294967296 < 4294967296 := Nat.mod_lt _ (by omega)
      have hdue := (dueIn_blockedOn hI.delay hcan none hlt').1
      have hD := Deadline.Wheel.ahead_mod (w := s.sched.wheel) hN (by omega) hlt.le hround
      rw [hahead hlt]
      have hmem := (mem_timers (k := s.sched.blockedOn t (D % 4294967296) none false) hN).mpr hdue
      rwa [ticksTo_eq, hD] at hmem
    · show ¬ o.kernel.sched.Blocked t
      rw [hlate hle]
      exact hI.not_blocked
  cases c with
  | wait n =>
      obtain ⟨hne, rfl⟩ := hc
      have hn := n.toNat_lt
      show WaitsUntil t N (N + n.toNat) (s.finish t (artosWait s.kernel n.toNat))
      unfold artosWait
      split
      · rename_i hpos
        refine hsec _ rfl (fun _ => ?_) (fun hle => by omega) (by omega)
        have hmod : u32 (s.kernel.sched.ticks + n.toNat) = (N + n.toNat) % 4294967296 := by
          unfold u32
          omega
        simp [rtosBlockCurrentTask_eq hcan, hne, hmod]
      · rename_i hzero
        exact hsec _ rfl (fun hlt => by omega) (fun _ => rfl) (by omega)
  | waitUntil w =>
      obtain ⟨hw, hlow, hhigh⟩ := hc
      show WaitsUntil t N D (s.finish t (artosWaitUntil s.kernel w.toNat))
      unfold artosWaitUntil u32
      rw [hw]
      simp only
      split
      · rename_i hdelta
        refine hsec _ rfl (fun _ => ?_) (fun hle => ?_) (by omega)
        · simp [rtosBlockCurrentTask_eq hcan]
        · -- a deadline behind is more than half a round ahead on the circle
          omega
      · rename_i hdelta
        refine hsec _ rfl (fun hlt => ?_) (fun _ => rfl) (by omega)
        omega
  | _ => exact absurd hc id

/-- **A wait ends exactly at its time**, however often the tick wraps before and after.  Let a
running task call `artos_wait` for a number of ticks, or `artos_wait_until` for a time less than
half a round of the tick ahead or behind.  Then, as long as it makes no further call, it is blocked
before that time and at no time afterwards; nothing else ends the wait, and deadlines that are
a fixed period apart do not drift. -/
theorem wait_until_exact {D : ℕ} {c : Call} {tr' : List Label} (h₀ : Initial cfg s₀)
    (hr : Run cfg s₀ tr s) (hrun : s.running = some t) (hc : c.Until (ticksIn tr) D)
    (hs : Step cfg s (.call c, obs) s')
    (hr' : Runs.Exec (fun s b s' => Step cfg s b s' ∧ Uncalled t s b.1) s' tr' s'') :
    s''.sched.Blocked t ↔ ticksIn tr + ticksIn tr' < D := by
  have hI : Inv cfg s := Reachable.inv ⟨s₀, tr, h₀, hr⟩
  have hcall := hr.snoc hs
  have hend : Run cfg s₀ (tr ++ [(.call c, obs)] ++ tr') s'' :=
    hcall.trans (hr'.mono fun _ _ _ hstep => hstep.1)
  have hone : ticksIn (tr ++ [(.call c, obs)]) = ticksIn tr := ticksIn_snoc tr _
  have hsum : ticksIn (tr ++ [(.call c, obs)] ++ tr') = ticksIn tr + ticksIn tr' := by
    rw [← hone]
    exact List.countP_append
  have hstart : WaitsUntil t (ticksIn (tr ++ [(.call c, obs)])) D s' := by
    obtain ⟨hpc, hs', -⟩ := step_call hrun hs
    rw [hs', hone]
    exact hc.waits (Run.clock h₀ hr) (hI.inTask hrun fun r => by simp [hpc])
  have hwait := hstart.run h₀ hcall hr'
  have hclock := Run.clock h₀ hend
  rw [hsum] at hwait hclock
  constructor
  · intro hb
    by_contra hge
    exact hwait.after (not_lt.mp hge) hb
  · intro hlt
    exact blocked_of_mem_timers (Reachable.inv ⟨s₀, _, h₀, hend⟩) hclock hlt (hwait.before hlt)

/-- The step function cut down to the steps in which the task makes no call. -/
def uncalledStep (cfg : Config) (t : Tid) (s : Sys) (e : Event) : Option (Sys × List Obs) :=
  (step cfg s e).filter fun _ => Uncalled t s e

/-- Two ticks later it still waits, -/
def twoTicksLater : List Label × Sys :=
  (Runs.runSteps (uncalledStep smallConfig (.user 0)) waitingForThree.1
    [.resume, switchFrom 1, .tick, .tick]).get (by decide +kernel)

/-- and not after the third. -/
def threeTicksLater : List Label × Sys :=
  (Runs.runSteps (uncalledStep smallConfig (.user 0)) waitingForThree.1
    [.resume, switchFrom 1, .tick, .tick, .tick]).get (by decide +kernel)

theorem wait_until_exact_threeTicks : twoTicksLater.2.sched.Blocked (.user 0) ∧
    ¬ threeTicksLater.2.sched.Blocked (.user 0) := by
  have hr : Run smallConfig smallBoot loneTask.1 loneTask.2 :=
    run_of_runSteps (Option.some_get _).symm
  have hc : (Call.waitUntil 3).Until (ticksIn loneTask.1) 3 := by
    refine ⟨rfl, ?_, ?_⟩ <;> decide +kernel
  have hs : Step smallConfig loneTask.2 (.call (.waitUntil 3), waitingForThree.2)
      waitingForThree.1 := step_of_isSome _
  have hexec : ∀ {es : List Event} {r : List Label × Sys},
      Runs.runSteps (uncalledStep smallConfig (.user 0)) waitingForThree.1 es = some r →
      Runs.Exec (fun s b s' => Step smallConfig s b s' ∧ Uncalled (.user 0) s b.1)
        waitingForThree.1 r.1 r.2 := fun hrun =>
    Runs.exec_of_runSteps_guard (step smallConfig) (fun s e _ => Uncalled (.user 0) s e) hrun
  have htwo := wait_until_exact smallBoot_initial hr loneTask_running hc hs
    (hexec (r := twoTicksLater) (Option.some_get _).symm)
  have hthree := wait_until_exact smallBoot_initial hr loneTask_running hc hs
    (hexec (r := threeTicksLater) (Option.some_get _).symm)
  exact ⟨htwo.mpr (by decide +kernel), fun hb => absurd (hthree.mp hb) (by decide +kernel)⟩

end Artos
