/-
# Deadlines of delayed tasks

A delayed task is due in a number of ticks, which its list and its key determine
(`DueIn`), whatever the side of the wrap on which the key lies.  A tick lowers the
number by one and ends the wait of exactly the tasks due in one (`tick_dueIn`,
`tick_expires`); no other step changes it (`StepKind.dueIn`).  Tasks that expire at the
same tick become ready in the order in which they blocked (`tick_order`).
-/
import Artos.ReadyOrder

open Function

namespace Artos

open Sched

variable {cfg : Config} {k k' : Sched} {t u : Tid} {n w : ℕ} {acts : List Action}
  {obs : List Obs} {s s' : Sys} {e : Event} {a : Action}

/-! ## The number of ticks left -/

/-- The state item of the task is in one of the two delayed lists. -/
def Sched.Delayed (k : Sched) (t : Tid) : Prop :=
  ∃ l, k.stateL.container t = some l ∧ l.isDelayed = true

/-- The ticks from the present one to the tick `w`, on the 32-bit circle. -/
def Sched.ticksTo (k : Sched) (w : ℕ) : ℕ := u32 (w + 4294967296 - k.ticks)

/-- **The delayed task is due in `n` ticks**: before the wrap in the current list, or
after it in the next one. -/
def Sched.DueIn (k : Sched) (t : Tid) (n : ℕ) : Prop :=
  k.stateL.container t = some k.curDelayed ∧ k.stateL.value t = k.ticks + n ∨
    k.stateL.container t = some k.nextDelayed ∧ k.stateL.value t + 4294967296 = k.ticks + n

/-- The roles of the delayed lists, read off the invariant. -/
theorem delayed_iff (h : SInv cfg k) : k.Delayed t ↔
    k.stateL.container t = some k.curDelayed ∨ k.stateL.container t = some k.nextDelayed := by
  unfold Sched.Delayed
  rcases h.roles with ⟨hc, hn⟩ | ⟨hc, hn⟩ <;> rw [hc, hn]
  · constructor
    · rintro ⟨l, hl, hd⟩
      cases l <;> simp_all [StateList.isDelayed]
    · rintro (hl | hl) <;> exact ⟨_, hl, rfl⟩
  · constructor
    · rintro ⟨l, hl, hd⟩
      cases l <;> simp_all [StateList.isDelayed]
    · rintro (hl | hl) <;> exact ⟨_, hl, rfl⟩

/-- **Every delayed task is due in as many ticks as lie between the present tick and its
key.** -/
theorem dueIn_of_delayed (h : SInv cfg k) (hd : DelayInv k) (hset : k.Settled)
    (ht : k.Delayed t) :
    k.DueIn t (k.ticksTo (k.stateL.value t)) ∧ 0 < k.ticksTo (k.stateL.value t) := by
  have hticks := hd.ticks_lt
  rcases (delayed_iff h).mp ht with hc | hn
  · have hlt := hset t hc
    have hmax := hd.cur_lt t hc
    have hto : k.ticksTo (k.stateL.value t) = k.stateL.value t - k.ticks := by
      unfold ticksTo u32
      omega
    exact ⟨Or.inl ⟨hc, by omega⟩, by omega⟩
  · have hlt := hd.next_lt t hn
    have hto : k.ticksTo (k.stateL.value t) = k.stateL.value t + 4294967296 - k.ticks := by
      unfold ticksTo u32
      omega
    exact ⟨Or.inr ⟨hn, by omega⟩, by omega⟩

/-- A task due in some ticks is delayed, and so blocked. -/
theorem DueIn.delayed (h : SInv cfg k) (ht : k.DueIn t n) : k.Delayed t :=
  (delayed_iff h).mpr (ht.imp And.left And.left)

theorem Delayed.blocked (ht : k.Delayed t) : k.Blocked t := by
  obtain ⟨l, hl, hd⟩ := ht
  refine ⟨l, hl, ?_⟩
  cases l <;> simp_all [StateList.isDelayed, StateList.isBlocked]

/-- **Blocking with a finite wake tick makes the task due at that tick.** -/
theorem dueIn_blockedOn (hd : DelayInv k) (hc : k.CanBlock t)
    (obj : Option EventList) (hw : w < 4294967296) :
    (k.blockedOn t w obj false).DueIn t (k.ticksTo w) ∧
      (k.blockedOn t w obj false).stateL.value t = w := by
  have hticks := hd.ticks_lt
  have hcont : (k.blockedOn t w obj false).stateL.container t = some (k.parkList w false) := by
    show (k.parked t w false).container t = _
    rw [parked_container w false hc.state, update_self]
  have hval : (k.blockedOn t w obj false).stateL.value t = w := by
    show (k.parked t w false).value t = _
    rw [parked_value, update_self]
  refine ⟨?_, hval⟩
  unfold DueIn
  rw [hcont, hval]
  by_cases hlt : w < k.ticks
  · refine Or.inr ⟨by simp [parkList, hlt], ?_⟩
    show w + 4294967296 = k.ticks + k.ticksTo w
    unfold ticksTo u32
    omega
  · refine Or.inl ⟨by simp [parkList, hlt], ?_⟩
    show w = k.ticks + k.ticksTo w
    unfold ticksTo u32
    omega

/-! ## Moves other than the tick's -/

/-- A move that neither advances the tick nor blocks the task leaves its deadline, or
ends its wait. -/
theorem Move.dueIn (h : SInv cfg k) (hm : Move cfg k a k') (ha : a ≠ .advance)
    (hb : ∀ w obj inf, a ≠ .block t w obj inf) (ht : k.DueIn t n ∨ ¬ k.Blocked t) :
    k'.DueIn t n ∨ ¬ k'.Blocked t := by
  have hcur := hm.curDelayed ha
  rcases hm.state_item h t with hnone | ⟨hc, hv, -⟩ | ⟨-, ⟨p, hp⟩ | ⟨w, obj, inf, heq, -⟩⟩
  · refine Or.inr ?_
    rintro ⟨l, hl, -⟩
    rw [hnone] at hl
    simp at hl
  · refine ht.imp (fun hd => ?_) fun hno hblocked => hno ?_
    · unfold DueIn at hd ⊢
      rwa [hc, hv, hcur.1, hcur.2, hm.ticks ha]
    · obtain ⟨l, hl, hlb⟩ := hblocked
      exact ⟨l, hc ▸ hl, hlb⟩
  · refine Or.inr ?_
    rintro ⟨l, hl, hlb⟩
    rw [hp, Option.some.injEq] at hl
    subst hl
    simp [StateList.isBlocked] at hlb
  · exact absurd heq (hb w obj inf)

theorem Moves.dueIn (h : SInv cfg k) (hd : DelayInv k) (hm : Moves cfg k acts k')
    (ha : NoAdvance acts) (hb : ∀ w obj inf, Action.block t w obj inf ∉ acts)
    (ht : k.DueIn t n) : k'.DueIn t n ∨ ¬ k'.Blocked t := by
  induction hm with
  | nil => exact Or.inl ht
  | @snoc tr k₁ k₂ b hm hmove ih =>
      have ha' := List.mem_append.not.mp ha
      push Not at ha'
      refine hmove.dueIn (h.moves hd hm).1 ?_ ?_
        (ih ha'.1 fun w obj inf hmem => hb w obj inf (List.mem_append_left _ hmem))
      · rintro rfl
        exact ha'.2 (List.mem_singleton_self _)
      · rintro w obj inf rfl
        exact hb w obj inf (List.mem_append_right _ (List.mem_singleton_self _))

/-- **The moves of a step other than a tick**: none advances the tick or expires, and
all of them spare a task that is blocked. -/
theorem StepKind.untimed (h : Inv cfg s) (hs : StepKind cfg s e obs s') (he : e ≠ .tick) :
    ∃ acts, Moves cfg s.sched acts s'.sched ∧ NoAdvance acts ∧
      (∀ t, Action.expire t ∉ acts) ∧
      ∀ u, s.sched.Blocked u → ∀ a ∈ acts, a.Spares u (s.pc u) := by
  cases hs with
  | create hcur hm hacts =>
      refine ⟨_, hm, ?_, ?_, fun u hu => ?_⟩
      · rcases hacts with rfl | ⟨q, rfl⟩ <;> simp [NoAdvance]
      · rcases hacts with rfl | ⟨q, rfl⟩ <;> simp
      · rcases hacts with rfl | ⟨q, rfl⟩
        · simp
        · simp only [List.mem_singleton, forall_eq]
          rintro rfl
          exact h.fresh _ le_rfl
  | start hcur hm hacts hnext =>
      refine ⟨_, hm, ?_, ?_, fun u hu => ?_⟩ <;>
        rcases hacts with rfl | ⟨q, rfl⟩ <;> simp [NoAdvance, Action.Spares]
  | @task e t x o hrun hI hsrc hstep =>
      obtain ⟨acts, hsec, -⟩ := hstep.sec
      refine ⟨acts, hsec.moves, fun ha => hsec.acts_ok _ ha, fun t ha => hsec.acts_ok _ ha,
        fun u hu a ha => ?_⟩
      -- the running task is in no list
      have hut : u ≠ t := by
        rintro rfl
        obtain ⟨l, hl, -⟩ := hu
        rw [hI.can.state] at hl
        simp at hl
      refine (hsec.acts_ok a ha).spares hut fun i q hae hui => ?_
      subst hui
      exact h.fresh i ((Moves.taskCount_le hsec.moves).2 i q (hae ▸ ha))
  | request hrun hpc => exact ⟨[], Runs.Exec.nil, by simp [NoAdvance], by simp, by simp⟩
  | tick hm hset => exact absurd rfl he
  | switch hcur hpending hm hacts =>
      refine ⟨_, hm, ?_, ?_, fun u hu => ?_⟩ <;>
        rcases hacts with ⟨rfl, -⟩ | ⟨t, rfl, -⟩ <;> simp [NoAdvance, Action.Spares]
  | isrEnter => exact ⟨[], Runs.Exec.nil, by simp [NoAdvance], by simp, by simp⟩
  | isrCall hh hstep =>
      obtain ⟨acts, hsec, ha⟩ := hstep
      refine ⟨acts, (hsec .idle).moves, fun hmem => ?_, fun t hmem => ?_,
        fun u hu a hmem => ?_⟩
      · obtain ⟨l, u, hl⟩ := ha _ hmem
        simp at hl
      · obtain ⟨l, u, hl⟩ := ha _ hmem
        simp at hl
      · obtain ⟨l, v, rfl⟩ := ha _ hmem
        trivial
  | isrReturn hh => exact ⟨[], Runs.Exec.nil, by simp [NoAdvance], by simp, by simp⟩

/-- Actions that spare a task do not block it. -/
theorem not_block_of_spares {p : Pc} (ha : ∀ a ∈ acts, a.Spares t p) (w : ℕ)
    (obj : Option EventList) (inf : Bool) : Action.block t w obj inf ∉ acts :=
  fun hmem => ha _ hmem rfl

/-- **No step but a tick changes a deadline**: it leaves it, or ends the wait. -/
theorem StepKind.dueIn (h : Inv cfg s) (hs : StepKind cfg s e obs s') (he : e ≠ .tick)
    (ht : s.sched.DueIn t n) : s'.sched.DueIn t n ∨ ¬ s'.sched.Blocked t := by
  obtain ⟨acts, hm, ha, -, hb⟩ := hs.untimed h he
  have hblocked := Delayed.blocked (DueIn.delayed h.ready.inv ht)
  exact Moves.dueIn h.ready.inv h.ready.delay hm ha (not_block_of_spares (hb t hblocked)) ht

/-! ## The tick -/

/-- The advance of the tick brings every deadline one tick nearer. -/
theorem advanced_dueIn (hd : DelayInv k) (ht : k.DueIn t (n + 1)) : k.advanced.DueIn t n := by
  have hticks := hd.ticks_lt
  unfold DueIn
  simp only [advanced_stateL, advanced_ticks]
  rcases ht with ⟨hc, hv⟩ | ⟨hc, hv⟩
  · have hlt := hd.cur_lt t hc
    have hsucc : u32 (k.ticks + 1) = k.ticks + 1 := Nat.mod_eq_of_lt (by omega)
    have hcur : k.advanced.curDelayed = k.curDelayed := by simp [advanced, hsucc]
    exact Or.inl ⟨by rw [hcur, hc], by omega⟩
  · have hlt := hd.next_lt t hc
    by_cases hw : k.ticks + 1 = 4294967296
    · -- the tick wraps, and the next list becomes the current one
      have hzero : u32 (k.ticks + 1) = 0 := by
        rw [hw]
        rfl
      have hcur : k.advanced.curDelayed = k.nextDelayed := by simp [advanced, hzero]
      exact Or.inl ⟨by rw [hcur, hc], by omega⟩
    · have hsucc : u32 (k.ticks + 1) = k.ticks + 1 := Nat.mod_eq_of_lt (by omega)
      have hnext : k.advanced.nextDelayed = k.nextDelayed := by simp [advanced, hsucc]
      exact Or.inr ⟨by rw [hnext, hc], by omega⟩

/-- The task is in the ready list of its priority, and its wait has timed out. -/
structure ExpiredTo (k : Sched) (t : Tid) (p : ℕ) : Prop where
  ready : k.stateL.container t = some (.ready p)
  eff : k.eff t = p
  reason : (k.tcb t).waitReason = .timedOut

/-- **What an expiry does to a task**: the task that expires becomes ready as timed out,
the others stay where they are. -/
theorem Move.expire_cases (hm : Move cfg k (.expire u) k') :
    k.stateL.container u = some k.curDelayed ∧ k.stateL.value u ≤ k.ticks ∧
      ExpiredTo k' u (k.eff u) ∧
      ∀ t, t ≠ u → k'.stateL.container t = k.stateL.container t ∧
        k'.stateL.value t = k.stateL.value t ∧ k'.eff t = k.eff t ∧
        (k'.tcb t).waitReason = (k.tcb t).waitReason := by
  cases hm with
  | expire hl hdue =>
      refine ⟨ListStore.container_of_head hl, hdue, ⟨?_, unblocked_eff _, ?_⟩,
        fun t ht => ⟨?_, congrFun (unblocked_value _) t, unblocked_eff _, ?_⟩⟩
      · rw [unblocked_container, update_self]
      · rw [unblocked_waitReason, if_pos rfl]
      · rw [unblocked_container, update_of_ne ht]
      · rw [unblocked_waitReason, if_neg ht]

/-- The task that expires is stamped anew. -/
theorem Move.expire_stamp (hm : Move cfg k (.expire u) k') :
    k'.stateL.stamp = update k.stateL.stamp u k.stateL.clock := by
  cases hm with
  | expire hl hdue => exact unblocked_stamp _

/-- The task that expires stands before every other task of the current delayed list. -/
theorem Move.expire_first (hd : DelayInv k) (hm : Move cfg k (.expire u) k')
    (ht : k.stateL.container t = some k.curDelayed) (htu : t ≠ u) :
    k.stateL.value u < k.stateL.value t ∨
      k.stateL.value u = k.stateL.value t ∧ k.stateL.stamp u < k.stateL.stamp t := by
  cases hm with
  | @expire u rest hl hdue =>
      have hord := hd.cur_ordered
      have hmem := (k.stateL.mem_elems _ t).mpr ht
      unfold ListStore.Ordered at hord
      rw [hl] at hord hmem
      exact (List.pairwise_cons.mp hord).1 t ((List.mem_cons.mp hmem).resolve_left htu)

/-- Expiries leave the delayed lists their roles. -/
theorem Moves.curDelayed_expiries (hm : Moves cfg k acts k')
    (hall : ∀ a ∈ acts, ∃ u, a = Action.expire u) : k'.curDelayed = k.curDelayed := by
  induction hm with
  | nil => rfl
  | @snoc tr k₁ k₂ b hm hmove ih =>
      obtain ⟨u, rfl⟩ := hall b (List.mem_append_right _ (List.mem_singleton_self b))
      exact (hmove.curDelayed (by simp)).1.trans
        (ih fun a ha => hall a (List.mem_append_left _ ha))

/-- The expiries of a tick, one after the other: each is a task of the current delayed
list whose key is not ahead of the tick. -/
theorem Moves.expiries {ts : List Tid} (h : SInv cfg k) (hd : DelayInv k)
    (hm : Moves cfg k (ts.map .expire) k') (t : Tid) :
    k'.ticks = k.ticks ∧ k'.curDelayed = k.curDelayed ∧ k'.nextDelayed = k.nextDelayed ∧
      ((k'.stateL.container t = k.stateL.container t ∧
          k'.stateL.value t = k.stateL.value t) ∨
        (k.stateL.container t = some k.curDelayed ∧ k.stateL.value t ≤ k.ticks ∧
          ExpiredTo k' t (k.eff t))) := by
  generalize hacts : ts.map Action.expire = acts at hm
  have hall : ∀ a ∈ acts, ∃ u, a = .expire u := by
    rw [← hacts]
    simp
  clear hacts
  suffices hsuff : k'.ticks = k.ticks ∧ k'.curDelayed = k.curDelayed ∧
      k'.nextDelayed = k.nextDelayed ∧
      ((k'.stateL.container t = k.stateL.container t ∧
          k'.stateL.value t = k.stateL.value t ∧ k'.eff t = k.eff t) ∨
        (k.stateL.container t = some k.curDelayed ∧ k.stateL.value t ≤ k.ticks ∧
          ExpiredTo k' t (k.eff t))) by
    obtain ⟨h1, h2, h3, h4⟩ := hsuff
    exact ⟨h1, h2, h3, h4.imp_left fun h => ⟨h.1, h.2.1⟩⟩
  induction hm with
  | nil => exact ⟨rfl, rfl, rfl, Or.inl ⟨rfl, rfl, rfl⟩⟩
  | @snoc tr k₁ k₂ b hm hmove ih =>
      obtain ⟨hticks, hcur, hnext, hcase⟩ :=
        ih fun a ha => hall a (List.mem_append_left _ ha)
      obtain ⟨u, rfl⟩ := hall b (List.mem_append_right _ (List.mem_singleton_self b))
      have hs₁ := (h.moves hd hm).1
      have hroles := hmove.curDelayed (by simp)
      refine ⟨(hmove.ticks (by simp)).trans hticks, hroles.1.trans hcur,
        hroles.2.trans hnext, ?_⟩
      obtain ⟨hcu, hvu, hexp, hothers⟩ := hmove.expire_cases
      by_cases htu : t = u
      · subst htu
        rcases hcase with ⟨hc, hv, he⟩ | ⟨-, -, hready⟩
        · refine Or.inr ⟨?_, ?_, he ▸ hexp⟩
          · rw [← hc, hcu, hcur]
          · rw [← hv, ← hticks]
            exact hvu
        · rw [hready.ready, Option.some.injEq] at hcu
          exact absurd hcu.symm (hs₁.curDelayed_ne_ready _)
      · obtain ⟨hc', hv', he', hr'⟩ := hothers t htu
        rcases hcase with ⟨hc, hv, he⟩ | ⟨hc, hv, hready⟩
        · exact Or.inl ⟨hc'.trans hc, hv'.trans hv, he'.trans he⟩
        · exact Or.inr ⟨hc, hv, ⟨hc'.trans hready.ready, he'.trans hready.eff,
            hr'.trans hready.reason⟩⟩

/-- **A tick brings a deadline that is not due one tick nearer, and nothing else.** -/
theorem tick_dueIn (h : Inv cfg s) (hs : StepKind cfg s .tick obs s')
    (ht : s.sched.DueIn t (n + 2)) :
    s'.sched.DueIn t (n + 1) ∧ s'.sched.stateL.value t = s.sched.stateL.value t := by
  cases hs with
  | @tick ts k hm hset =>
      obtain ⟨k₁, hadv, hexp⟩ := Runs.Exec.cons_inv hm
      cases hadv with
      | advance hset₀ =>
          have hmoves : Moves cfg s.sched [.advance] s.sched.advanced :=
            Runs.Exec.single (.advance hset₀)
          obtain ⟨hs₁, hd₁⟩ := h.ready.inv.moves h.ready.delay hmoves
          have hdue := advanced_dueIn h.ready.delay ht
          obtain ⟨hticks, hcur, hnext, hsame | ⟨hc, hv, -⟩⟩ :=
            Moves.expiries hs₁ hd₁ hexp t
          · refine ⟨?_, ?_⟩
            · show k.DueIn t (n + 1)
              unfold DueIn at hdue ⊢
              rwa [hsame.1, hsame.2, hticks, hcur, hnext]
            · show k.stateL.value t = _
              rw [hsame.2, advanced_stateL]
          · -- the key lies ahead of the tick
            rcases hdue with ⟨-, hv'⟩ | ⟨hc', -⟩
            · omega
            · rw [hc, Option.some.injEq] at hc'
              exact absurd hc' hs₁.curDelayed_ne_nextDelayed
  | task hrun hI hsrc hstep => cases hsrc

/-- **A tick ends the wait of a task that is due in one**: the task is ready, and its wait
has timed out. -/
theorem tick_expires (h : Inv cfg s) (hs : StepKind cfg s .tick obs s')
    (ht : s.sched.DueIn t 1) : ExpiredTo s'.sched t (s.sched.eff t) := by
  cases hs with
  | @tick ts k hm hset =>
      obtain ⟨k₁, hadv, hexp⟩ := Runs.Exec.cons_inv hm
      cases hadv with
      | advance hset₀ =>
          have hmoves : Moves cfg s.sched [.advance] s.sched.advanced :=
            Runs.Exec.single (.advance hset₀)
          obtain ⟨hs₁, hd₁⟩ := h.ready.inv.moves h.ready.delay hmoves
          have hdue := advanced_dueIn h.ready.delay ht
          obtain ⟨hticks, hcur, hnext, hsame | ⟨-, -, hready⟩⟩ :=
            Moves.expiries hs₁ hd₁ hexp t
          · -- the loop ends only when nobody is due
            exfalso
            rcases hdue with ⟨hc, hv⟩ | ⟨hc, hv⟩
            · have hlt := hset t (by rw [hsame.1, hc, hcur])
              rw [hsame.2, hticks] at hlt
              omega
            · have hlt := hd₁.next_lt t hc
              have hticks₁ := hd₁.ticks_lt
              omega
          · have heff : s.sched.advanced.eff t = s.sched.eff t := by simp [Sched.eff]
            exact heff ▸ hready
  | task hrun hI hsrc hstep => cases hsrc

/-! ## The order of blocked tasks -/

/-- A move that does not block the task leaves its state item, or takes it out of the
lists of blocked tasks. -/
theorem Move.kept_blocked (h : SInv cfg k) (hm : Move cfg k a k')
    (hb : ∀ w obj inf, a ≠ .block t w obj inf) (ht : k'.Blocked t) :
    k.Blocked t ∧ k'.stateL.value t = k.stateL.value t ∧
      k'.stateL.stamp t = k.stateL.stamp t := by
  obtain ⟨l, hl, hlb⟩ := ht
  rcases hm.state_item h t with hnone | ⟨hc, hv, hst⟩ | ⟨-, ⟨p, hp⟩ | ⟨w, obj, inf, heq, -⟩⟩
  · rw [hnone] at hl
    simp at hl
  · exact ⟨⟨l, hc ▸ hl, hlb⟩, hv, hst⟩
  · rw [hp, Option.some.injEq] at hl
    subst hl
    simp [StateList.isBlocked] at hlb
  · exact absurd heq (hb w obj inf)

theorem Moves.kept_blocked (h : SInv cfg k) (hd : DelayInv k) (hm : Moves cfg k acts k')
    (hb : ∀ w obj inf, Action.block t w obj inf ∉ acts) (ht : k'.Blocked t) :
    k'.stateL.value t = k.stateL.value t ∧ k'.stateL.stamp t = k.stateL.stamp t := by
  induction hm with
  | nil => exact ⟨rfl, rfl⟩
  | @snoc tr k₁ k₂ b hm hmove ih =>
      have hb₁ : ∀ w obj inf, Action.block t w obj inf ∉ tr := fun w obj inf hmem =>
        hb w obj inf (List.mem_append_left _ hmem)
      have hb₂ : ∀ w obj inf, b ≠ .block t w obj inf := fun w obj inf he =>
        hb w obj inf (List.mem_append_right _ (he ▸ List.mem_singleton_self _))
      obtain ⟨hblocked, hv, hst⟩ := hmove.kept_blocked (h.moves hd hm).1 hb₂ ht
      obtain ⟨hv₁, hst₁⟩ := ih hb₁ hblocked
      exact ⟨hv.trans hv₁, hst.trans hst₁⟩

/-- A task that becomes blocked is stamped by the present clock or later. -/
theorem Moves.stamp_blocked (h : SInv cfg k) (hd : DelayInv k) (hm : Moves cfg k acts k')
    (hno : ¬ k.Blocked t) (ht : k'.Blocked t) : k.stateL.clock ≤ k'.stateL.stamp t := by
  obtain ⟨l, hl, hlb⟩ := ht
  rcases Moves.state_stamp h hd hm t with hnone | ⟨hc, -⟩ | hnew
  · rw [hnone] at hl
    simp at hl
  · exact absurd ⟨l, hc ▸ hl, hlb⟩ hno
  · exact hnew

/-- **A task that stays blocked through a step keeps its place**: its key and its stamp. -/
theorem StepKind.kept_blocked (h : Inv cfg s) (hs : StepKind cfg s e obs s')
    (hb : s.sched.Blocked t) (ht : s'.sched.Blocked t) :
    s'.sched.stateL.value t = s.sched.stateL.value t ∧
      s'.sched.stateL.stamp t = s.sched.stateL.stamp t := by
  by_cases he : e = .tick
  · subst he
    cases hs with
    | tick hm hset => exact Moves.kept_blocked h.ready.inv h.ready.delay hm (by simp) ht
    | task hrun hI hsrc hstep => cases hsrc
  · obtain ⟨acts, hm, -, -, hno⟩ := hs.untimed h he
    exact Moves.kept_blocked h.ready.inv h.ready.delay hm (not_block_of_spares (hno t hb)) ht

/-- **Two tasks that expire at one tick keep their order**: the one that blocked first is
stamped first in the ready lists. -/
theorem Moves.expire_order {ts : List Tid} (h : SInv cfg k) (hd : DelayInv k)
    (hm : Moves cfg k (ts.map .expire) k') {v : ℕ}
    (ht : k.stateL.container t = some k.curDelayed ∧ k.stateL.value t = v)
    (hu : k.stateL.container u = some k.curDelayed ∧ k.stateL.value u = v)
    (htu : k.stateL.stamp t < k.stateL.stamp u)
    (hu' : k'.stateL.container u ≠ k.stateL.container u) :
    k'.stateL.stamp t < k'.stateL.stamp u := by
  generalize hacts : ts.map Action.expire = acts at hm
  have hall : ∀ a ∈ acts, ∃ u, a = .expire u := by
    rw [← hacts]
    simp
  clear hacts
  -- both wait; or the first is ready; or both are
  have hcases : (k'.stateL.container t = some k.curDelayed ∧ k'.stateL.value t = v ∧
        k'.stateL.container u = some k.curDelayed ∧ k'.stateL.value u = v ∧
        k'.stateL.stamp t < k'.stateL.stamp u) ∨
      ((∃ p, k'.stateL.container t = some (.ready p)) ∧
        k'.stateL.container u = some k.curDelayed) ∨
      ((∃ p, k'.stateL.container t = some (.ready p)) ∧
        (∃ p, k'.stateL.container u = some (.ready p)) ∧
        k'.stateL.stamp t < k'.stateL.stamp u) := by
    clear hu'
    induction hm with
    | nil => exact Or.inl ⟨ht.1, ht.2, hu.1, hu.2, htu⟩
    | @snoc tr k₁ k₂ b hm hmove ih =>
        have hcase := ih fun a ha => hall a (List.mem_append_left _ ha)
        obtain ⟨x, rfl⟩ := hall b (List.mem_append_right _ (List.mem_singleton_self b))
        obtain ⟨hs₁, hd₁⟩ := h.moves hd hm
        obtain ⟨hcx, -, hready, hothers⟩ := hmove.expire_cases
        have hcur : k₁.curDelayed = k.curDelayed := Moves.curDelayed_expiries hm fun a ha =>
          hall a (List.mem_append_left _ ha)
        rw [hcur] at hcx
        have hstamp := hmove.expire_stamp
        have hne : ∀ {y}, (∃ p, k₁.stateL.container y = some (.ready p)) → y ≠ x := by
          rintro y ⟨p, hp⟩ rfl
          rw [hp, Option.some.injEq, ← hcur] at hcx
          exact hs₁.curDelayed_ne_ready p hcx.symm
        rcases hcase with ⟨hct, hvt, hcu, hvu, hlt⟩ | ⟨hpt, hcu⟩ | ⟨hpt, hpu, hlt⟩
        · -- the head of the list is not the one that blocked later
          have hxu : u ≠ x := by
            rintro rfl
            have hbefore := hmove.expire_first hd₁ (t := t) (by rw [hcur]; exact hct)
              (by rintro rfl; omega)
            omega
          obtain ⟨hcu', hvu', -, -⟩ := hothers u hxu
          by_cases hxt : t = x
          · subst hxt
            exact Or.inr (Or.inl ⟨⟨_, hready.ready⟩, hcu'.trans hcu⟩)
          · obtain ⟨hct', hvt', -, -⟩ := hothers t hxt
            refine Or.inl ⟨hct'.trans hct, hvt'.trans hvt, hcu'.trans hcu, hvu'.trans hvu, ?_⟩
            rw [hstamp, update_of_ne hxt, update_of_ne hxu]
            exact hlt
        · have hxt := hne hpt
          obtain ⟨hct', -, -, -⟩ := hothers t hxt
          by_cases hxu : u = x
          · subst hxu
            refine Or.inr (Or.inr ⟨?_, ⟨_, hready.ready⟩, ?_⟩)
            · rw [hct']
              exact hpt
            · rw [hstamp, update_of_ne hxt, update_self]
              obtain ⟨p, hp⟩ := hpt
              exact k₁.stateL.stamp_lt t (by rw [hp]; simp)
          · obtain ⟨hcu', -, -, -⟩ := hothers u hxu
            exact Or.inr (Or.inl ⟨by rw [hct']; exact hpt, hcu'.trans hcu⟩)
        · have hxt := hne hpt
          have hxu := hne hpu
          obtain ⟨hct', -, -, -⟩ := hothers t hxt
          obtain ⟨hcu', -, -, -⟩ := hothers u hxu
          refine Or.inr (Or.inr ⟨by rw [hct']; exact hpt, by rw [hcu']; exact hpu, ?_⟩)
          rw [hstamp, update_of_ne hxt, update_of_ne hxu]
          exact hlt
  rcases hcases with ⟨-, -, hc, -⟩ | ⟨-, hc⟩ | ⟨-, -, hlt⟩
  · exact absurd (hc.trans hu.1.symm) hu'
  · exact absurd (hc.trans hu.1.symm) hu'
  · exact hlt

/-! ## Runs -/

/-- The event is a run of the tick handler. -/
def Event.isTick : Event → Bool
  | .tick => true
  | _ => false

/-- The runs of the tick handler in a run. -/
def ticksIn (tr : List Label) : ℕ := tr.countP fun a => a.1.isTick

/-- A step in which nothing but a tick ends the wait of the task. -/
def Undisturbed (cfg : Config) (t : Tid) (s : Sys) (b : Label) (s' : Sys) : Prop :=
  Step cfg s b s' ∧ (b.1 ≠ .tick → s.sched.Blocked t → s'.sched.Blocked t)

theorem ticksIn_snoc (tr : List Label) (b : Label) :
    ticksIn (tr ++ [b]) = ticksIn tr + if b.1.isTick then 1 else 0 := by
  simp [ticksIn, List.countP_append, List.countP_cons]

/-- The tick handler runs at ticks alone. -/
theorem isTick_iff : e.isTick = true ↔ e = .tick := by
  cases e <;> simp [Event.isTick]

/-- **A deadline after an undisturbed run**: the ticks of the run are off it. -/
theorem Undisturbed.dueIn {tr : List Label} (h : Inv cfg s)
    (hr : Runs.Exec (Undisturbed cfg t) s tr s') (ht : s.sched.DueIn t n)
    (hlt : ticksIn tr < n) : Inv cfg s' ∧ s'.sched.DueIn t (n - ticksIn tr) ∧
      s'.sched.stateL.value t = s.sched.stateL.value t := by
  induction hr with
  | nil => exact ⟨h, ht, rfl⟩
  | @snoc tr s₁ s₂ b hr hstep ih =>
      rw [ticksIn_snoc] at hlt ⊢
      obtain ⟨hI, hdue, hval⟩ := ih (by omega)
      have hk := step_kind hI hstep.1
      refine ⟨hI.step hstep.1, ?_⟩
      obtain ⟨e, obs⟩ := b
      by_cases he : e = .tick
      · subst he
        obtain ⟨m, hm⟩ : ∃ m, n - ticksIn tr = m + 2 := ⟨n - ticksIn tr - 2, by
          simp only [Event.isTick, if_true] at hlt
          omega⟩
        rw [hm] at hdue
        obtain ⟨hdue', hval'⟩ := tick_dueIn hI hk hdue
        have hm' : n - (ticksIn tr + if Event.tick.isTick then 1 else 0) = m + 1 := by
          simp only [Event.isTick, if_true]
          omega
        rw [hm']
        exact ⟨hdue', hval'.trans hval⟩
      · have hnt : e.isTick = false := by
          rw [← Bool.not_eq_true, isTick_iff]
          exact he
        have hblocked := Delayed.blocked (DueIn.delayed hI.ready.inv hdue)
        have hblocked' := hstep.2 he hblocked
        simp only [hnt, Bool.false_eq_true, if_false, Nat.add_zero]
        exact ⟨(hk.dueIn hI he hdue).resolve_right (not_not.mpr hblocked'),
          (hk.kept_blocked hI hblocked hblocked').1.trans hval⟩

/-- A task that stays blocked through a run keeps its stamp, and the clock runs on. -/
theorem Run.kept_blocked {tr : List Label} (h : Inv cfg s)
    (hr : Runs.Exec (fun s b s' => Step cfg s b s' ∧ s'.sched.Blocked t) s tr s')
    (ht : s.sched.Blocked t) : Inv cfg s' ∧ s'.sched.Blocked t ∧
      s'.sched.stateL.stamp t = s.sched.stateL.stamp t := by
  induction hr with
  | nil => exact ⟨h, ht, rfl⟩
  | @snoc tr s₁ s₂ b hr hstep ih =>
      obtain ⟨hI, hb, hst⟩ := ih
      obtain ⟨e, obs⟩ := b
      have hkept := ((step_kind hI hstep.1).kept_blocked hI hb hstep.2).2
      exact ⟨hI.step hstep.1, hstep.2, hkept.trans hst⟩

/-- A task that becomes blocked in a run is stamped by the clock of its start or later. -/
theorem Run.stamp_blocked {tr : List Label} (h : Inv cfg s) (hr : Run cfg s tr s')
    (hno : ¬ s.sched.Blocked t) (ht : s'.sched.Blocked t) :
    s.sched.stateL.clock ≤ s'.sched.stateL.stamp t := by
  have hall : Inv cfg s' ∧ s.sched.stateL.clock ≤ s'.sched.stateL.clock ∧
      (s'.sched.Blocked t → s.sched.stateL.clock ≤ s'.sched.stateL.stamp t) := by
    clear ht
    induction hr with
    | nil => exact ⟨h, le_rfl, fun hb => absurd hb hno⟩
    | @snoc tr s₁ s₂ b hr hstep ih =>
        obtain ⟨hI, hle, hst⟩ := ih
        obtain ⟨e, obs⟩ := b
        have hk := step_kind hI hstep
        obtain ⟨acts, hm⟩ := hk.moves
        have hclock := (Moves.clock_le hm).1
        refine ⟨hI.step hstep, hle.trans hclock, fun hb => ?_⟩
        by_cases hb₁ : s₁.sched.Blocked t
        · rw [(hk.kept_blocked hI hb₁ hb).2]
          exact hst hb₁
        · have hnew := Moves.stamp_blocked hI.ready.inv hI.ready.delay hm hb₁ hb
          omega
  exact hall.2.2 ht

/-- **Tasks that expire at one tick become ready in the order of their stamps.** -/
theorem StepKind.tick_order (h : Inv cfg s) (hs : StepKind cfg s .tick obs s')
    (ht : s.sched.Blocked t) (hu : s.sched.Blocked u) (ht' : ¬ s'.sched.Blocked t)
    (hu' : ¬ s'.sched.Blocked u) (htu : s.sched.stateL.stamp t < s.sched.stateL.stamp u) :
    s'.sched.stateL.stamp t < s'.sched.stateL.stamp u := by
  cases hs with
  | @tick ts k hm hset =>
      obtain ⟨k₁, hadv, hexp⟩ := Runs.Exec.cons_inv hm
      cases hadv with
      | advance hset₀ =>
          have hmoves : Moves cfg s.sched [.advance] s.sched.advanced :=
            Runs.Exec.single (.advance hset₀)
          obtain ⟨hs₁, hd₁⟩ := h.ready.inv.moves h.ready.delay hmoves
          -- a task that expires has the tick for its key
          have hdue : ∀ {x}, s.sched.Blocked x → ¬ k.Blocked x →
              s.sched.advanced.stateL.container x = some s.sched.advanced.curDelayed ∧
                s.sched.advanced.stateL.value x = s.sched.advanced.ticks ∧
                k.stateL.container x ≠ s.sched.advanced.stateL.container x := by
            intro x hx hx'
            obtain ⟨l, hl, hlb⟩ := hx
            have hne : k.stateL.container x ≠ s.sched.advanced.stateL.container x := by
              intro he
              rw [advanced_stateL] at he
              exact hx' ⟨l, he.trans hl, hlb⟩
            obtain ⟨-, -, -, hsame | ⟨hc, hv, -⟩⟩ := Moves.expiries hs₁ hd₁ hexp x
            · exact absurd hsame.1 hne
            · have hge := hd₁.cur_ge x hc
              exact ⟨hc, by omega, hne⟩
          obtain ⟨hct, hvt, -⟩ := hdue ht ht'
          obtain ⟨hcu, hvu, hne⟩ := hdue hu hu'
          refine Moves.expire_order hs₁ hd₁ hexp ⟨hct, hvt⟩ ⟨hcu, hvu⟩ ?_ hne
          rw [advanced_stateL]
          exact htu
  | task hrun hI hsrc hstep => cases hsrc

/-! ## Exactness of delays -/

/-- **Delay exactness across the wrap of the tick.**  In every reachable state:
blocking with a finite wake tick `w` other than the present one puts the current task
into a delayed list with the key `w`; a delayed task with the key `w`, if nothing but a
tick ends its wait, is delayed until exactly the `((w - t) mod 2^32)`-th tick, which makes
it ready as timed out; at the wrap the current delayed list is empty; the tick handler
ends; and tasks that expire at the same tick become ready in the order in which they
blocked. -/
theorem delay_exactness (h : Reachable cfg s) :
    (∀ t w obj, s.sched.CanBlock t → w < 4294967296 → w ≠ s.sched.ticks →
      (s.sched.rtosBlockCurrentTask w obj false).Delayed t ∧
        (s.sched.rtosBlockCurrentTask w obj false).stateL.value t = w ∧
        (s.sched.rtosBlockCurrentTask w obj false).ticks = s.sched.ticks) ∧
      (∀ t tr s', s.sched.Delayed t → Runs.Exec (Undisturbed cfg t) s tr s' →
        (ticksIn tr < s.sched.ticksTo (s.sched.stateL.value t) →
          s'.sched.Delayed t ∧ s'.sched.stateL.value t = s.sched.stateL.value t) ∧
        ∀ obs s'', ticksIn tr + 1 = s.sched.ticksTo (s.sched.stateL.value t) →
          Step cfg s' (.tick, obs) s'' →
          s''.sched.stateL.container t = some (.ready (s''.sched.eff t)) ∧
            (s''.sched.tcb t).waitReason = .timedOut) ∧
      (u32 (s.sched.ticks + 1) = 0 → s.sched.stateL.elems s.sched.curDelayed = []) ∧
      (s.sched.rtosTickHandler cfg).isSome ∧
      ∀ t u tr s₁ obs s₂, s.sched.Blocked t → ¬ s.sched.Blocked u →
        Runs.Exec (fun s b s' => Step cfg s b s' ∧ s'.sched.Blocked t) s tr s₁ →
        s₁.sched.Blocked u → Step cfg s₁ (.tick, obs) s₂ → ¬ s₂.sched.Blocked t →
        ¬ s₂.sched.Blocked u → s₂.sched.stateL.stamp t < s₂.sched.stateL.stamp u ∧
          ∀ p, s₂.sched.stateL.container t = some (.ready p) →
            s₂.sched.stateL.container u = some (.ready p) →
            [t, u].Sublist (s₂.sched.stateL.elems (.ready p)) := by
  have hI := h.inv
  have hdelay := hI.ready.delay
  refine ⟨fun t w obj hc hw hne => ?_, fun t tr s' ht hr => ⟨fun hlt => ?_,
    fun obs s'' hlast hs => ?_⟩, fun hw => hI.settled.elems_nil hdelay hw, ?_,
    fun t u tr s₁ obs s₂ ht hu hr hu₁ hs ht₂ hu₂ => ?_⟩
  · rw [rtosBlockCurrentTask_eq hc]
    obtain ⟨hdue, hval⟩ := dueIn_blockedOn hdelay hc obj hw
    have hmove : Move cfg s.sched (.block t w obj false) (s.sched.blockedOn t w obj false) :=
      .block hc fun _ => ⟨hw, hne⟩
    exact ⟨DueIn.delayed (hI.ready.inv.move hmove) hdue, hval, rfl⟩
  · obtain ⟨hdue, -⟩ := dueIn_of_delayed hI.ready.inv hdelay hI.settled ht
    obtain ⟨hI', hdue', hval⟩ := Undisturbed.dueIn hI hr hdue hlt
    exact ⟨DueIn.delayed hI'.ready.inv hdue', hval⟩
  · obtain ⟨hdue, -⟩ := dueIn_of_delayed hI.ready.inv hdelay hI.settled ht
    obtain ⟨hI', hdue', -⟩ := Undisturbed.dueIn hI hr hdue (by omega)
    have hone : s.sched.ticksTo (s.sched.stateL.value t) - ticksIn tr = 1 := by omega
    rw [hone] at hdue'
    have hexp := tick_expires hI' (step_kind hI' hs) hdue'
    exact ⟨hexp.eff ▸ hexp.ready, hexp.reason⟩
  · obtain ⟨k', ts, htick, -⟩ := tick_moves hI.ready.inv hdelay hI.settled
    rw [htick]
    rfl
  · obtain ⟨hI₁, ht₁, hst⟩ := Run.kept_blocked hI hr ht
    have hrun : Run cfg s tr s₁ := hr.mono fun _ _ _ hstep => hstep.1
    have hnew := Run.stamp_blocked hI hrun hu hu₁
    have hold : s.sched.stateL.stamp t < s.sched.stateL.clock := by
      obtain ⟨l, hl, -⟩ := ht
      exact s.sched.stateL.stamp_lt t (by rw [hl]; simp)
    have hlt := (step_kind hI₁ hs).tick_order hI₁ ht₁ hu₁ ht₂ hu₂ (by omega)
    have hreach : Reachable cfg s₂ := by
      obtain ⟨s₀, tr₀, h₀, hr₀⟩ := h
      exact ⟨s₀, _, h₀, (hr₀.trans hrun).snoc hs⟩
    exact ⟨hlt, fun p hpt hpu => (hreach.readyFifo p).pair_sublist hpt hpu hlt⟩

/-- A task waits for one tick. -/
def waitingOneTick : List Label × Sys :=
  (Runs.runSteps (step smallConfig) smallBoot
    [createTask 1 0, .start, .call (.wait 1), .resume]).get (by decide +kernel)

theorem waitingOneTick_reachable : Reachable smallConfig waitingOneTick.2 :=
  Reachable.of_runSteps smallBoot_initial (Option.some_get _).symm

/-- The state after that tick. -/
def waitedOneTick : Sys × List Obs :=
  (step smallConfig waitingOneTick.2 .tick).get (by decide +kernel)

theorem waitedOneTick_step :
    Step smallConfig waitingOneTick.2 (.tick, waitedOneTick.2) waitedOneTick.1 :=
  step_of_isSome _

theorem delay_exactness_waitingOneTick :
    (waitedOneTick.1.sched.tcb (.user 0)).waitReason = .timedOut := by
  obtain ⟨-, hexact, -⟩ := delay_exactness waitingOneTick_reachable
  have hcont : waitingOneTick.2.sched.stateL.container (.user 0) = some .delayed := by
    decide +kernel
  have hone : 0 + 1 = waitingOneTick.2.sched.ticksTo
      (waitingOneTick.2.sched.stateL.value (.user 0)) := by decide +kernel
  obtain ⟨-, hlast⟩ := hexact (.user 0) [] _ ⟨_, hcont, rfl⟩ Runs.Exec.nil
  exact (hlast _ _ hone waitedOneTick_step).2

end Artos
