/-
# Deadlines on a clock that wraps

A *deadline queue* holds actors with their deadlines on a clock that never wraps, the earliest
first and equal ones in order of arrival.  A tick lets go those whose deadline it is.

A *wheel* keeps the same on a clock that wraps at `M`: it knows the clock and the deadlines modulo
`M` only, in two lists.  The current list holds the deadlines that lie ahead before the wrap, the
next list those behind it; at the wrap the lists are exchanged.

* `Queue.Step.kept` : in the queue an entry stays until it is cancelled or its tick comes;
* `Wheel.Refines` : the wheel holds the queue.  Every operation of the wheel keeps it, for all
  deadlines less than `M` ahead (`Refines.sleep`, `Refines.cancel`, `Refines.advance`,
  `Refines.expire`).
-/
import Artos.Runs
import Mathlib

namespace Deadline

variable {α : Type*} {a b : α} {d v M E : ℕ} {xs ys : List (α × ℕ)}

/-! ## Lists of deadlines -/

/-- Put the entry behind those that are not later. -/
def place (e : α × ℕ) (xs : List (α × ℕ)) : List (α × ℕ) :=
  xs.takeWhile (fun x => x.2 ≤ e.2) ++ e :: xs.dropWhile fun x => x.2 ≤ e.2

theorem mem_place {e x : α × ℕ} : x ∈ place e xs ↔ x = e ∨ x ∈ xs := by
  have hsplit : x ∈ xs ↔ x ∈ xs.takeWhile (fun x => decide (x.2 ≤ e.2)) ∨
      x ∈ xs.dropWhile fun x => decide (x.2 ≤ e.2) := by
    rw [← List.mem_append, List.takeWhile_append_dropWhile]
  rw [hsplit, place, List.mem_append, List.mem_cons]
  tauto

/-- An entry that is earlier than a whole list stands before it. -/
theorem place_append_left {e : α × ℕ} (h : ∀ y ∈ ys, e.2 < y.2) :
    place e (xs ++ ys) = place e xs ++ ys := by
  induction xs with
  | nil =>
      cases ys with
      | nil => rfl
      | cons y rest =>
          have hy : ¬ y.2 ≤ e.2 := not_le.mpr (h y List.mem_cons_self)
          simp [place, hy]
  | cons x rest ih =>
      unfold place at ih ⊢
      by_cases hx : x.2 ≤ e.2
      · simp [hx, ih]
      · simp [hx]

/-- An entry that is not earlier than a whole list stands behind it. -/
theorem place_append_right {e : α × ℕ} (h : ∀ x ∈ xs, x.2 ≤ e.2) :
    place e (xs ++ ys) = xs ++ place e ys := by
  induction xs with
  | nil => rfl
  | cons x rest ih =>
      have ih := ih fun y hy => h y (List.mem_cons_of_mem _ hy)
      have hx := h x List.mem_cons_self
      unfold place at ih ⊢
      simp [hx, ih]

/-- The deadlines `n` later. -/
def later (n : ℕ) (xs : List (α × ℕ)) : List (α × ℕ) := xs.map fun x => (x.1, n + x.2)

theorem mem_later {n : ℕ} {x : α × ℕ} : x ∈ later n xs ↔ ∃ y ∈ xs, (y.1, n + y.2) = x :=
  List.mem_map

/-- Those with deadlines up to `c` are found before a list that has none. -/
theorem early_append (xs : List (α × ℕ)) {c : ℕ} (h : ∀ y ∈ ys, c < y.2) :
    (xs ++ ys).takeWhile (fun x => x.2 ≤ c) = xs.takeWhile (fun x => x.2 ≤ c) ∧
      (xs ++ ys).dropWhile (fun x => x.2 ≤ c) = xs.dropWhile (fun x => x.2 ≤ c) ++ ys := by
  induction xs with
  | nil =>
      cases ys with
      | nil => exact ⟨rfl, rfl⟩
      | cons y rest =>
          have hy : ¬ y.2 ≤ c := not_le.mpr (h y List.mem_cons_self)
          simp [hy]
  | cons x rest ih => by_cases hx : x.2 ≤ c <;> simp [hx, ih]

/-- The early ones of deadlines that are `n` later. -/
theorem early_later (xs : List (α × ℕ)) (n c : ℕ) :
    (later n xs).takeWhile (fun x => x.2 ≤ n + c) = later n (xs.takeWhile fun x => x.2 ≤ c) ∧
      (later n xs).dropWhile (fun x => x.2 ≤ n + c) =
        later n (xs.dropWhile fun x => x.2 ≤ c) := by
  unfold later
  rw [List.takeWhile_map, List.dropWhile_map]
  simp [Function.comp_def]

theorem later_place (n : ℕ) : later n (place (a, v) xs) = place (a, n + v) (later n xs) := by
  unfold later place
  rw [List.map_append, List.map_cons, List.takeWhile_map, List.dropWhile_map]
  simp [Function.comp_def]

/-! ## The queue -/

/-- **A queue of deadlines** on a clock that never wraps. -/
structure Queue (α : Type*) where
  clock : ℕ
  entries : List (α × ℕ)

namespace Queue

variable {q q' : Queue α}

/-- Nobody waits, at time zero. -/
def empty : Queue α := ⟨0, []⟩

/-- The actor waits until the deadline. -/
def sleep (q : Queue α) (a : α) (d : ℕ) : Queue α := ⟨q.clock, place (a, d) q.entries⟩

/-- The actor waits no longer. -/
def cancel [DecidableEq α] (q : Queue α) (a : α) : Queue α :=
  ⟨q.clock, q.entries.filter fun x => x.1 ≠ a⟩

/-- The clock goes on, and those whose deadline it is go. -/
def tick (q : Queue α) : Queue α :=
  ⟨q.clock + 1, q.entries.dropWhile fun x => x.2 ≤ q.clock + 1⟩

/-- Those who go at the next tick, in this order. -/
def due (q : Queue α) : List α :=
  (q.entries.takeWhile fun x => x.2 ≤ q.clock + 1).map Prod.fst

/-- What can happen to a queue. -/
inductive Op (α : Type*) where
  | sleep (a : α) (d : ℕ)
  | cancel (a : α)
  | tick
  deriving DecidableEq

/-- **The operations**, with deadlines less than `M` ahead of the clock. -/
inductive Step [DecidableEq α] (M : ℕ) (q : Queue α) : Op α → Queue α → Prop
  | sleep {a : α} {d : ℕ} (hlt : q.clock < d) (hd : d < q.clock + M) :
      Step M q (.sleep a d) (q.sleep a d)
  | cancel {a : α} : Step M q (.cancel a) (q.cancel a)
  | tick : Step M q .tick q.tick

/-- **The earliest deadline comes first, and none has passed.** -/
structure Sound (q : Queue α) : Prop where
  sorted : q.entries.Pairwise fun x y => x.2 ≤ y.2
  ahead : ∀ x ∈ q.entries, q.clock < x.2

theorem sound_empty : (empty : Queue α).Sound := ⟨List.Pairwise.nil, by simp [empty]⟩

/-- Placing an entry keeps the order. -/
theorem pairwise_place {e : α × ℕ} (h : xs.Pairwise fun x y => x.2 ≤ y.2) :
    (place e xs).Pairwise fun x y => x.2 ≤ y.2 := by
  induction xs with
  | nil => simp [place]
  | cons x rest ih =>
      obtain ⟨hx, hrest⟩ := List.pairwise_cons.mp h
      by_cases hle : x.2 ≤ e.2
      · have heq : place e (x :: rest) = x :: place e rest := by simp [place, hle]
        rw [heq, List.pairwise_cons]
        refine ⟨fun y hy => ?_, ih hrest⟩
        rcases mem_place.mp hy with rfl | hy
        · exact hle
        · exact hx y hy
      · have heq : place e (x :: rest) = e :: x :: rest := by simp [place, hle]
        rw [heq, List.pairwise_cons]
        refine ⟨fun y hy => ?_, h⟩
        rcases List.mem_cons.mp hy with rfl | hy
        · omega
        · have hxy := hx y hy
          omega

/-- In order, the entries behind the early ones are the late ones. -/
theorem mem_dropWhile_le {c : ℕ} (h : xs.Pairwise fun x y => x.2 ≤ y.2) {x : α × ℕ} :
    x ∈ xs.dropWhile (fun y => y.2 ≤ c) ↔ x ∈ xs ∧ c < x.2 := by
  induction xs with
  | nil => simp
  | cons y rest ih =>
      obtain ⟨hy, hrest⟩ := List.pairwise_cons.mp h
      by_cases hle : y.2 ≤ c
      · rw [List.dropWhile_cons_of_pos (by simpa using hle), ih hrest, List.mem_cons]
        constructor
        · rintro ⟨hx, hlt⟩
          exact ⟨Or.inr hx, hlt⟩
        · rintro ⟨rfl | hx, hlt⟩
          · omega
          · exact ⟨hx, hlt⟩
      · rw [List.dropWhile_cons_of_neg (by simpa using hle)]
        constructor
        · intro hx
          refine ⟨hx, ?_⟩
          rcases List.mem_cons.mp hx with rfl | hx
          · omega
          · have hxy := hy x hx
            omega
        · exact And.left

/-- What is left at the next tick is what is later than it. -/
theorem Sound.mem_tick (h : q.Sound) {x : α × ℕ} :
    x ∈ q.tick.entries ↔ x ∈ q.entries ∧ q.clock + 1 < x.2 :=
  mem_dropWhile_le h.sorted

/-- **Every operation keeps the queue sound.** -/
theorem Step.sound [DecidableEq α] {op : Op α} (hs : Step M q op q') (h : q.Sound) :
    q'.Sound := by
  cases hs with
  | sleep hlt hd =>
      refine ⟨pairwise_place h.sorted, fun x hx => ?_⟩
      rcases mem_place.mp hx with rfl | hx
      · exact hlt
      · exact h.ahead x hx
  | cancel => exact ⟨h.sorted.filter _, fun x hx => h.ahead x (List.mem_of_mem_filter hx)⟩
  | tick =>
      refine ⟨h.sorted.sublist (List.dropWhile_sublist _), fun x hx => ?_⟩
      exact (h.mem_tick.mp hx).2

/-- **An entry stays until it is cancelled or its tick comes.** -/
theorem Step.kept [DecidableEq α] {op : Op α} (hs : Step M q op q') (h : q.Sound)
    (hx : (a, d) ∈ q.entries) :
    (a, d) ∈ q'.entries ∨ op = .cancel a ∨ op = .tick ∧ q'.clock = d := by
  cases hs with
  | sleep hlt hd => exact Or.inl (mem_place.mpr (Or.inr hx))
  | @cancel b =>
      by_cases hb : b = a
      · exact Or.inr (Or.inl (by rw [hb]))
      · exact Or.inl (List.mem_filter.mpr ⟨hx, by simpa using Ne.symm hb⟩)
  | tick =>
      have hlt := h.ahead _ hx
      by_cases hd : q.clock + 1 = d
      · exact Or.inr (Or.inr ⟨rfl, hd⟩)
      · refine Or.inl (h.mem_tick.mpr ⟨hx, ?_⟩)
        simp only at hlt ⊢
        omega

/-- **Through any operations but ticks** an entry stays until it is cancelled. -/
theorem Step.kept_run [DecidableEq α] {ops : List (Op α)}
    (hr : Runs.Exec (Step M) q ops q') (h : q.Sound) (hx : (a, d) ∈ q.entries)
    (hcancel : .cancel a ∉ ops) (htick : .tick ∉ ops) : (a, d) ∈ q'.entries := by
  induction hr with
  | nil => exact hx
  | @snoc ops q₁ q₂ op hr hs ih =>
      rw [List.mem_append, List.mem_singleton, not_or] at hcancel htick
      have h₁ : q₁.Sound := hr.invariant (fun _ _ _ hq hs => hs.sound hq) h
      rcases hs.kept h₁ (ih hcancel.1 htick.1) with hkept | hop | ⟨hop, -⟩
      · exact hkept
      · exact absurd hop.symm hcancel.2
      · exact absurd hop.symm htick.2

end Queue

/-! ## The wheel -/

/-- **Deadlines on a clock that wraps**: those ahead before the wrap, and those behind it. -/
structure Wheel (α : Type*) where
  now : ℕ
  current : List (α × ℕ)
  next : List (α × ℕ)

namespace Wheel

variable {w : Wheel α} {q : Queue α}

/-- The actor waits until the clock shows `v`. -/
def sleep (w : Wheel α) (a : α) (v : ℕ) : Wheel α :=
  if v < w.now then ⟨w.now, w.current, place (a, v) w.next⟩
  else ⟨w.now, place (a, v) w.current, w.next⟩

/-- The actor waits no longer. -/
def cancel [DecidableEq α] (w : Wheel α) (a : α) : Wheel α :=
  ⟨w.now, w.current.filter fun x => x.1 ≠ a, w.next.filter fun x => x.1 ≠ a⟩

/-- The clock goes on; at the wrap the lists are exchanged. -/
def advance (M : ℕ) (w : Wheel α) : Wheel α :=
  if w.now + 1 = M then ⟨0, w.next, w.current⟩ else ⟨w.now + 1, w.current, w.next⟩

/-- Those whose deadline has come go. -/
def expire (w : Wheel α) : Wheel α :=
  ⟨w.now, w.current.dropWhile fun x => x.2 ≤ w.now, w.next⟩

/-- Who is due when the clock has gone on. -/
def late (w : Wheel α) : List α := (w.current.takeWhile fun x => x.2 ≤ w.now).map Prod.fst

/-- **The current list holds no deadline that has passed, the next list only such.** -/
structure Valid (M : ℕ) (w : Wheel α) : Prop where
  now_lt : w.now < M
  current_ge : ∀ x ∈ w.current, w.now ≤ x.2
  current_lt : ∀ x ∈ w.current, x.2 < M
  next_lt : ∀ x ∈ w.next, x.2 < w.now

/-- **The wheel holds the queue**: it is in some round of its clock, the current list holds the
deadlines of this round and the next list those of the next one. -/
def Refines (M : ℕ) (w : Wheel α) (q : Queue α) : Prop :=
  ∃ E, q.clock = E * M + w.now ∧
    q.entries = later (E * M) w.current ++ later (E * M + M) w.next

theorem refines_empty : Refines M (⟨0, [], []⟩ : Wheel α) .empty := ⟨0, by simp [Queue.empty], rfl⟩

/-- How far ahead the clock shows `v`. -/
def ahead (M : ℕ) (w : Wheel α) (v : ℕ) : ℕ := (v + M - w.now) % M

/-- A value other than the present one is less than a round ahead. -/
theorem ahead_pos (hnow : w.now < M) (hv : v < M) (hne : v ≠ w.now) :
    0 < w.ahead M v ∧ w.ahead M v < M := by
  refine ⟨?_, Nat.mod_lt _ (by omega)⟩
  unfold ahead
  rcases Nat.lt_or_ge v w.now with hlt | hge
  · rw [Nat.mod_eq_of_lt (by omega)]
    omega
  · rw [show v + M - w.now = v - w.now + M by omega, Nat.add_mod_right,
      Nat.mod_eq_of_lt (by omega)]
    omega

/-- A deadline less than a round ahead is read off the value that the clock shows then. -/
theorem ahead_mod {n D : ℕ} (hnow : n % M = w.now) (hM : 0 < M) (hlow : n ≤ D)
    (hhigh : D < n + M) : n + w.ahead M (D % M) = D := by
  have hmod := Nat.mod_lt n hM
  have hsum : (D % M + M - w.now + n) % M = D % M := by
    have hn := Nat.mod_add_div n M
    have heq : D % M + M - w.now + n = D % M + M * (n / M + 1) := by
      rw [Nat.mul_add, Nat.mul_one]
      omega
    rw [heq, Nat.add_mul_mod_self_left, Nat.mod_mod]
  have hlt : w.ahead M (D % M) < M := Nat.mod_lt _ hM
  have hcong : (n + w.ahead M (D % M)) % M = D % M := by
    unfold ahead
    rw [Nat.add_mod_mod, Nat.add_comm, hsum]
  -- two numbers less than a round from `n` with one remainder
  have hboth : ∀ d, d < M → (n + d) % M = D % M → n + d = D := by
    intro d hd he
    have hD : (n + (D - n)) % M = (n + d) % M := by rw [he, Nat.add_sub_cancel' hlow]
    have hsub : (D - n) % M = d % M := Nat.ModEq.add_left_cancel' n hD
    rw [Nat.mod_eq_of_lt (by omega), Nat.mod_eq_of_lt hd] at hsub
    omega
  exact hboth _ hlt hcong

/-- The queue that the wheel holds after `n` ticks. -/
def unroll (M n : ℕ) (w : Wheel α) : Queue α :=
  ⟨n, later (n - w.now) w.current ++ later (n - w.now + M) w.next⟩

/-- The clock tells which round it is. -/
theorem refines_unroll {n : ℕ} (hnow : n % M = w.now) : w.Refines M (w.unroll M n) := by
  have hn := Nat.mod_add_div n M
  rw [Nat.mul_comm] at hn
  have hround : n - w.now = n / M * M := by omega
  refine ⟨n / M, ?_, ?_⟩
  · show n = _
    omega
  · show later _ _ ++ later _ _ = _
    rw [hround]

/-- There is one such queue. -/
theorem Refines.unroll (h : w.Refines M q) : w.unroll M q.clock = q := by
  obtain ⟨E, hclock, hentries⟩ := h
  obtain ⟨clock, entries⟩ := q
  subst hclock
  rw [Wheel.unroll, Nat.add_sub_cancel]
  exact congrArg _ hentries.symm

/-- **Waiting until a clock value is waiting until the next time the clock shows it.** -/
theorem Refines.sleep (h : w.Refines M q) (hw : w.Valid M) (hv : v < M) (a : α) :
    (w.sleep a v).Refines M (q.sleep a (q.clock + w.ahead M v)) := by
  obtain ⟨E, hclock, hentries⟩ := h
  have hnow := hw.now_lt
  unfold Wheel.sleep ahead
  by_cases hlt : v < w.now
  · -- behind the wrap
    rw [if_pos hlt, Nat.mod_eq_of_lt (by omega)]
    refine ⟨E, hclock, ?_⟩
    have hd : q.clock + (v + M - w.now) = E * M + M + v := by omega
    show place _ q.entries = _
    rw [hd, hentries, later_place, place_append_right]
    intro x hx
    obtain ⟨y, hy, rfl⟩ := mem_later.mp hx
    have hlt := hw.current_lt y hy
    simp only
    omega
  · rw [if_neg hlt, show v + M - w.now = v - w.now + M by omega, Nat.add_mod_right,
      Nat.mod_eq_of_lt (by omega)]
    refine ⟨E, hclock, ?_⟩
    have hd : q.clock + (v - w.now) = E * M + v := by omega
    show place _ q.entries = _
    rw [hd, hentries, later_place, place_append_left]
    intro x hx
    obtain ⟨y, hy, rfl⟩ := mem_later.mp hx
    simp only
    omega

/-- **Cancelling in both lists is cancelling in the queue.** -/
theorem Refines.cancel [DecidableEq α] (h : w.Refines M q) (a : α) :
    (w.cancel a).Refines M (q.cancel a) := by
  obtain ⟨E, hclock, hentries⟩ := h
  refine ⟨E, hclock, ?_⟩
  have hfilter : ∀ n (xs : List (α × ℕ)),
      (later n xs).filter (fun x => x.1 ≠ a) = later n (xs.filter fun x => x.1 ≠ a) := by
    intro n xs
    unfold later
    rw [List.filter_map]
    rfl
  show q.entries.filter _ = _
  rw [hentries, List.filter_append, hfilter, hfilter]
  rfl

/-- **The advance of the wheel's clock is that of the queue's clock**, also at the wrap: the
current list is empty then. -/
theorem Refines.advance (h : w.Refines M q) (hw : w.Valid M)
    (hset : ∀ x ∈ w.current, w.now < x.2) :
    (w.advance M).Refines M ⟨q.clock + 1, q.entries⟩ := by
  obtain ⟨E, hclock, hentries⟩ := h
  unfold Wheel.advance
  by_cases hwrap : w.now + 1 = M
  · rw [if_pos hwrap]
    have hnil : w.current = [] := by
      rw [List.eq_nil_iff_forall_not_mem]
      intro x hx
      have hlow := hset x hx
      have hhigh := hw.current_lt x hx
      omega
    refine ⟨E + 1, ?_, ?_⟩
    · show q.clock + 1 = (E + 1) * M + 0
      rw [Nat.add_mul, Nat.one_mul]
      omega
    · show q.entries = _
      rw [hentries, hnil, Nat.add_mul, Nat.one_mul]
      simp [later]
  · rw [if_neg hwrap]
    exact ⟨E, by simp only; omega, hentries⟩

/-- **Who expires in the wheel expires in the queue**: nobody behind the wrap is due. -/
theorem Refines.expire (h : w.Refines M q) (hw : w.Valid M) :
    w.expire.Refines M ⟨q.clock, q.entries.dropWhile fun x => x.2 ≤ q.clock⟩ ∧
      (q.entries.takeWhile fun x => x.2 ≤ q.clock).map Prod.fst = w.late := by
  obtain ⟨E, hclock, hentries⟩ := h
  unfold late
  have hnow := hw.now_lt
  have hnext : ∀ x ∈ later (E * M + M) w.next, E * M + w.now < x.2 := by
    intro x hx
    obtain ⟨y, hy, rfl⟩ := mem_later.mp hx
    simp only
    omega
  obtain ⟨htake, hdrop⟩ := early_append (later (E * M) w.current) hnext
  obtain ⟨htake', hdrop'⟩ := early_later w.current (E * M) w.now
  rw [hentries, hclock, htake, htake']
  constructor
  · refine ⟨E, rfl, ?_⟩
    show List.dropWhile _ _ = _
    rw [hdrop, hdrop']
    rfl
  · simp [later]

/-- With nobody due, nobody expires. -/
theorem expire_eq_self (h : ∀ x ∈ w.current, w.now < x.2) : w.expire = w ∧ w.late = [] := by
  obtain ⟨now, current, next⟩ := w
  unfold expire late
  cases current with
  | nil => exact ⟨rfl, rfl⟩
  | cons x rest =>
      have hx : ¬ x.2 ≤ now := not_le.mpr (h x List.mem_cons_self)
      simp [hx]

/-- **To expire is to cancel the first one, as long as it is due.** -/
theorem expire_cancel [DecidableEq α] {rest : List (α × ℕ)} (hcur : w.current = (a, v) :: rest)
    (hv : v ≤ w.now) (hrest : ∀ x ∈ rest, x.1 ≠ a) (hnext : ∀ x ∈ w.next, x.1 ≠ a) :
    (w.cancel a).expire = w.expire ∧ w.late = a :: (w.cancel a).late := by
  obtain ⟨now, current, next⟩ := w
  simp only at hcur hv hnext
  subst hcur
  have hcancel : cancel ⟨now, (a, v) :: rest, next⟩ a = ⟨now, rest, next⟩ := by
    unfold cancel
    rw [List.filter_cons_of_neg (by simp), List.filter_eq_self.mpr (by simpa using hrest),
      List.filter_eq_self.mpr (by simpa using hnext)]
  rw [hcancel]
  constructor
  · simp [expire, hv]
  · simp [late, hv]

end Wheel

end Deadline
