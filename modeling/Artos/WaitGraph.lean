/-
# Waiting for what others own

Actors that wait for resources, and actors that own them.  An actor waits for another one when
that one owns what it waits for (`WaitsFor`).

* A set of actors in which each waits for one of the set is a *knot*: none of them can go on by
  itself.  Among finitely many actors there is a knot exactly when some actor waits, through
  others, for itself (`knot_iff_cycle`).
* When whoever waits owns only resources of a smaller rank than that of the one it waits for,
  nobody waits for itself (`Rising.acyclic`), there is no knot (`Rising.knot_eq_empty`), and every
  actor waits in the end for one that waits for nobody (`Rising.exists_end`).
-/
import Mathlib

open Relation

namespace WaitGraph

variable {α ρ β : Type*}

/-- Who waits for what, and who owns what. -/
structure Graph (α ρ : Type*) where
  waits : α → ρ → Prop
  owns : α → ρ → Prop

variable {g g' : Graph α ρ} {a b c : α} {D : Set α}

/-- The actor `a` waits for something that `b` owns. -/
def Graph.WaitsFor (g : Graph α ρ) (a b : α) : Prop := ∃ r, g.waits a r ∧ g.owns b r

/-- Each of them waits for one of them. -/
def Graph.Knot (g : Graph α ρ) (D : Set α) : Prop := ∀ a ∈ D, ∃ b ∈ D, g.WaitsFor a b

/-- Waiting and owning that last keep the knot. -/
theorem Graph.Knot.kept (h : g.Knot D) (hwaits : ∀ a ∈ D, ∀ r, g.waits a r → g'.waits a r)
    (howns : ∀ b ∈ D, ∀ r, g.owns b r → g'.owns b r) : g'.Knot D := by
  intro a ha
  obtain ⟨b, hb, r, hr, ho⟩ := h a ha
  exact ⟨b, hb, r, hwaits a ha r hr, howns b hb r ho⟩

/-! ## Knots and cycles -/

/-- Those on a way round from `a` to itself are a knot. -/
theorem knot_of_cycle : g.Knot {b | TransGen g.WaitsFor a b ∧ TransGen g.WaitsFor b a} := by
  rintro b ⟨hab, hba⟩
  rcases TransGen.head'_iff.mp hba with ⟨c, hbc, hca⟩
  refine ⟨c, ⟨hab.tail hbc, ?_⟩, hbc⟩
  rcases reflTransGen_iff_eq_or_transGen.mp hca with rfl | hca
  · exact hab.tail hbc
  · exact hca

/-- Those that are waited for from `a` on are a knot when each of them waits. -/
theorem knot_of_endless (h : ∀ b, ReflTransGen g.WaitsFor a b → ∃ c, g.WaitsFor b c) :
    g.Knot {b | ReflTransGen g.WaitsFor a b} := by
  intro b hb
  obtain ⟨c, hbc⟩ := h b hb
  exact ⟨c, hb.tail hbc, hbc⟩

/-- **In a finite knot somebody waits for itself.** -/
theorem Graph.Knot.exists_cycle (h : g.Knot D) (hfin : D.Finite) (hne : D.Nonempty) :
    ∃ a ∈ D, TransGen g.WaitsFor a a := by
  by_contra hno
  push Not at hno
  -- on the knot "is waited for, through others" is then a strict order, and has a least element
  have hirrefl : ∀ x : D, ¬ TransGen g.WaitsFor x.1 x.1 := fun x => hno x.1 x.2
  have : IsTrans D fun x y => TransGen g.WaitsFor y.1 x.1 := ⟨fun _ _ _ hxy hyz => hyz.trans hxy⟩
  have : Std.Irrefl fun x y : D => TransGen g.WaitsFor y.1 x.1 := ⟨hirrefl⟩
  have : Finite D := hfin
  obtain ⟨a₀, ha₀⟩ := hne
  obtain ⟨x, -, hmin⟩ :=
    (Finite.wellFounded_of_trans_of_irrefl fun x y : D => TransGen g.WaitsFor y.1 x.1).has_min
      Set.univ ⟨⟨a₀, ha₀⟩, trivial⟩
  obtain ⟨b, hb, hxb⟩ := h x.1 x.2
  exact hmin ⟨b, hb⟩ trivial (TransGen.single hxb)

/-- **Among finitely many waiting actors a knot and a cycle are the same.** -/
theorem knot_iff_cycle (hfin : {a | ∃ b, g.WaitsFor a b}.Finite) :
    (∃ D, D.Nonempty ∧ g.Knot D) ↔ ∃ a, TransGen g.WaitsFor a a := by
  constructor
  · rintro ⟨D, hne, hD⟩
    have hsub : D ⊆ {a | ∃ b, g.WaitsFor a b} := fun a ha => by
      obtain ⟨b, -, hab⟩ := hD a ha
      exact ⟨b, hab⟩
    obtain ⟨a, -, ha⟩ := hD.exists_cycle (hfin.subset hsub) hne
    exact ⟨a, ha⟩
  · rintro ⟨a, ha⟩
    refine ⟨{b | TransGen g.WaitsFor a b ∧ TransGen g.WaitsFor b a}, ⟨a, ?_⟩, knot_of_cycle⟩
    exact ⟨ha, ha⟩

/-! ## Rising ranks -/

/-- **Whoever waits owns only what ranks below** what it waits for. -/
def Graph.Rising [Preorder β] (g : Graph α ρ) (rank : ρ → β) : Prop :=
  ∀ a r r', g.waits a r → g.owns a r' → rank r' < rank r

section Rising

variable [Preorder β] {rank : ρ → β}

/-- Along a chain of waiting actors the ranks of what they wait for do not fall. -/
theorem Graph.Rising.rank_le (h : g.Rising rank) (hab : TransGen g.WaitsFor a b) :
    ∃ r r', g.waits a r ∧ g.owns b r' ∧ rank r ≤ rank r' := by
  induction hab with
  | single hab =>
      obtain ⟨r, hr, ho⟩ := hab
      exact ⟨r, r, hr, ho, le_rfl⟩
  | tail _ hbc ih =>
      obtain ⟨r, r', hr, ho, hle⟩ := ih
      obtain ⟨q, hq, hoq⟩ := hbc
      exact ⟨r, q, hr, hoq, hle.trans (h _ q r' hq ho).le⟩

/-- **Nobody waits for itself**, not even through others. -/
theorem Graph.Rising.acyclic (h : g.Rising rank) (a : α) : ¬ TransGen g.WaitsFor a a := by
  intro ha
  obtain ⟨r, r', hr, ho, hle⟩ := h.rank_le ha
  exact absurd hle (h a r r' hr ho).not_ge

/-- **There is no knot.** -/
theorem Graph.Rising.knot_eq_empty (h : g.Rising rank)
    (hfin : {a | ∃ b, g.WaitsFor a b}.Finite) (hD : g.Knot D) : D = ∅ := by
  by_contra hne
  obtain ⟨a, ha⟩ := (knot_iff_cycle hfin).mp ⟨D, Set.nonempty_iff_ne_empty.mpr hne, hD⟩
  exact h.acyclic a ha

/-- **Every actor waits in the end for one that waits for nobody.** -/
theorem Graph.Rising.exists_end (h : g.Rising rank)
    (hfin : {a | ∃ b, g.WaitsFor a b}.Finite) (a : α) :
    ∃ b, ReflTransGen g.WaitsFor a b ∧ ∀ c, ¬ g.WaitsFor b c := by
  by_contra hno
  push Not at hno
  have hempty := h.knot_eq_empty hfin (knot_of_endless hno)
  have ha : a ∈ {b | ReflTransGen g.WaitsFor a b} := ReflTransGen.refl
  rw [hempty] at ha
  exact ha

end Rising

end WaitGraph
