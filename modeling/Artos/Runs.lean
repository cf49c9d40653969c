/-
# Labelled runs of a transition relation

General support for the kernel development: finite runs of a labelled step
relation, and the induction rules by which a fact about one step becomes a fact
about a whole run.  Nothing here mentions the kernel.

* `Exec R s tr s'` : the steps labelled `tr`, in order, lead from `s` to `s'`;
* `Exec.invariant` : what every step preserves, every run preserves;
* `Exec.trace_invariant` : the same for facts that also speak about the labels
  read so far;
* `runSteps` : an executable run of a step function, sound for `Exec`
  (`exec_of_runSteps`).
-/
import Mathlib

namespace Runs

variable {σ α β : Type*}

/-! ## Runs -/

/-- `Exec R s tr s'` says that the steps labelled `tr`, oldest first, lead from
`s` to `s'` in the relation `R`. -/
inductive Exec (R : σ → α → σ → Prop) (s : σ) : List α → σ → Prop
  | nil : Exec R s [] s
  | snoc {tr : List α} {s₁ s₂ : σ} {a : α} :
      Exec R s tr s₁ → R s₁ a s₂ → Exec R s (tr ++ [a]) s₂

variable {R R' : σ → α → σ → Prop}

/-- A single step is a run of length one. -/
theorem Exec.single {s s' : σ} {a : α} (h : R s a s') : Exec R s [a] s' := by
  have h1 : Exec R s ([] ++ [a]) s' := Exec.snoc Exec.nil h
  simpa using h1

/-- Runs compose, and their labels are concatenated. -/
theorem Exec.trans {s s₁ s₂ : σ} {tr tr' : List α} (h : Exec R s tr s₁)
    (h' : Exec R s₁ tr' s₂) : Exec R s (tr ++ tr') s₂ := by
  induction h' with
  | nil => simpa using h
  | snoc _ hstep ih =>
      rw [← List.append_assoc]
      exact Exec.snoc ih hstep

/-- A run whose labels are split splits at a state. -/
theorem Exec.append_inv {s s' : σ} {tr tr' : List α} (h : Exec R s (tr ++ tr') s') :
    ∃ s₁, Exec R s tr s₁ ∧ Exec R s₁ tr' s' := by
  induction tr' using List.reverseRecOn generalizing s' with
  | nil => exact ⟨s', by simpa using h, Exec.nil⟩
  | append_singleton tr' a ih =>
      rw [← List.append_assoc] at h
      generalize hl : tr ++ tr' ++ [a] = l at h
      cases h with
      | nil => simp at hl
      | snoc h hstep =>
          obtain ⟨htr, ha⟩ := List.append_inj' hl rfl
          rw [List.singleton_inj] at ha
          subst htr ha
          obtain ⟨s₁, h₁, h₂⟩ := ih h
          exact ⟨s₁, h₁, Exec.snoc h₂ hstep⟩

/-- A run without labels goes nowhere. -/
theorem Exec.nil_inv {s s' : σ} (h : Exec R s [] s') : s' = s := by
  generalize hl : ([] : List α) = l at h
  cases h with
  | nil => rfl
  | snoc _ _ => simp at hl

/-- A run of one label is a step. -/
theorem Exec.single_inv {s s' : σ} {a : α} (h : Exec R s [a] s') : R s a s' := by
  generalize hl : [a] = l at h
  cases h with
  | nil => simp at hl
  | @snoc tr s₁ s₂ b h hstep =>
      cases tr with
      | nil =>
          obtain rfl : a = b := by simpa using hl
          obtain rfl := h.nil_inv
          exact hstep
      | cons c tr => simp at hl

/-- The first step of a run. -/
theorem Exec.cons_inv {s s' : σ} {a : α} {tr : List α} (h : Exec R s (a :: tr) s') :
    ∃ s₁, R s a s₁ ∧ Exec R s₁ tr s' := by
  have happend : Exec R s ([a] ++ tr) s' := h
  obtain ⟨s₁, h₁, h₂⟩ := happend.append_inv
  exact ⟨s₁, h₁.single_inv, h₂⟩

/-- The labels of a run of a functional relation determine where it leads. -/
theorem Exec.unique (hR : ∀ s a s₁ s₂, R s a s₁ → R s a s₂ → s₁ = s₂) {s s₁ s₂ : σ}
    {tr : List α} (h₁ : Exec R s tr s₁) (h₂ : Exec R s tr s₂) : s₁ = s₂ := by
  induction tr generalizing s with
  | nil => exact h₁.nil_inv.trans h₂.nil_inv.symm
  | cons a tr ih =>
      obtain ⟨u₁, hu₁, h₁⟩ := h₁.cons_inv
      obtain ⟨u₂, hu₂, h₂⟩ := h₂.cons_inv
      obtain rfl := hR _ _ _ _ hu₁ hu₂
      exact ih h₁ h₂

/-- A run of a relation is a run of every larger relation. -/
theorem Exec.mono (hR : ∀ s a s', R s a s' → R' s a s') {s s' : σ} {tr : List α}
    (h : Exec R s tr s') : Exec R' s tr s' := by
  induction h with
  | nil => exact Exec.nil
  | snoc _ hstep ih => exact Exec.snoc ih (hR _ _ _ hstep)

/-- A run whose labels all satisfy `Q` is a run of the relation cut down to such labels. -/
theorem Exec.restrict {Q : σ → α → Prop} {s s' : σ} {tr : List α} (h : Exec R s tr s')
    (hQ : ∀ a ∈ tr, ∀ s, Q s a) : Exec (fun s a s' => R s a s' ∧ Q s a) s tr s' := by
  induction h with
  | nil => exact Exec.nil
  | @snoc tr s₁ s₂ a _ hstep ih =>
      have hlast : Q s₁ a := hQ a (by simp) s₁
      exact Exec.snoc (ih fun b hb => hQ b (by simp [hb])) ⟨hstep, hlast⟩

/-- **The invariant rule.**  What every step preserves holds at the end of every
run that starts with it. -/
theorem Exec.invariant {I : σ → Prop} (hstep : ∀ s a s', I s → R s a s' → I s')
    {s s' : σ} {tr : List α} (h : Exec R s tr s') (hs : I s) : I s' := by
  induction h with
  | nil => exact hs
  | snoc _ hR ih => exact hstep _ _ _ ih hR

/-- **The invariant rule with history.**  A fact about the labels read so far and
the current state holds after every run if it holds at the start and survives
every step. -/
theorem Exec.trace_invariant {I : List α → σ → Prop}
    (hstep : ∀ tr s a s', I tr s → R s a s' → I (tr ++ [a]) s')
    {s s' : σ} {tr : List α} (h : Exec R s tr s') (hs : I [] s) : I tr s' := by
  induction h with
  | nil => exact hs
  | snoc _ hR ih => exact hstep _ _ _ _ ih hR

/-- A run inside an invariant may be read as a run of the relation cut down to
the states that satisfy it. -/
theorem Exec.strengthen {I : σ → Prop} (hstep : ∀ s a s', I s → R s a s' → I s')
    {s s' : σ} {tr : List α} (h : Exec R s tr s') (hs : I s) :
    Exec (fun s a s' => R s a s' ∧ I s ∧ I s') s tr s' := by
  have hpair : Exec (fun s a s' => R s a s' ∧ I s ∧ I s') s tr s' ∧ I s' := by
    induction h with
    | nil => exact ⟨Exec.nil, hs⟩
    | snoc _ hR ih =>
        have hI := hstep _ _ _ ih.2 hR
        exact ⟨Exec.snoc ih.1 ⟨hR, ih.2, hI⟩, hI⟩
  exact hpair.1

/-! ## Executable runs -/

/-- Run a partial step function along a list of events, with the labels it passes. -/
def runSteps (step : σ → α → Option (σ × β)) (s : σ) : List α → Option (List (α × β) × σ)
  | [] => some ([], s)
  | a :: as =>
      match step s a with
      | none => none
      | some (s', b) => (runSteps step s' as).map fun r => ((a, b) :: r.1, r.2)

/-- **Soundness of executable runs.**  Whatever `runSteps` computes is a run of the
labelled relation of the step function. -/
theorem exec_of_runSteps (step : σ → α → Option (σ × β)) :
    ∀ (as : List α) (s : σ) (r : List (α × β) × σ), runSteps step s as = some r →
      Exec (fun s l s' => step s l.1 = some (s', l.2)) s r.1 r.2 := by
  intro as
  induction as with
  | nil =>
      intro s r h
      simp only [runSteps, Option.some.injEq] at h
      subst h
      exact Exec.nil
  | cons a as ih =>
      intro s r h
      simp only [runSteps] at h
      rcases hstep : step s a with _ | ⟨s₁, b⟩
      · rw [hstep] at h
        simp at h
      · rw [hstep] at h
        simp only [Option.map_eq_some_iff] at h
        obtain ⟨r₁, hr₁, rfl⟩ := h
        have h1 : Exec (fun s l s' => step s l.1 = some (s', l.2)) s [(a, b)] s₁ :=
          Exec.single hstep
        simpa using h1.trans (ih s₁ r₁ hr₁)

/-- An executable run of the steps that pass a guard. -/
theorem exec_of_runSteps_guard (step : σ → α → Option (σ × β)) (G : σ → α → σ → Prop)
    [∀ s a s', Decidable (G s a s')] {as : List α} {s : σ} {r : List (α × β) × σ}
    (h : runSteps (fun s a => (step s a).filter fun r => G s a r.1) s as = some r) :
    Exec (fun s l s' => step s l.1 = some (s', l.2) ∧ G s l.1 s') s r.1 r.2 := by
  refine (exec_of_runSteps _ as s r h).mono fun s₁ b s₂ hstep => ?_
  obtain ⟨hs, hg⟩ := Option.filter_eq_some_iff.mp hstep
  exact ⟨hs, of_decide_eq_true hg⟩

/-- An executable run of the steps into states that satisfy `Q`. -/
theorem exec_of_runSteps_filter (step : σ → α → Option (σ × β)) (Q : σ → Prop)
    [DecidablePred Q] {as : List α} {s : σ} {r : List (α × β) × σ}
    (h : runSteps (fun s a => (step s a).filter fun r => Q r.1) s as = some r) :
    Exec (fun s l s' => step s l.1 = some (s', l.2) ∧ Q s') s r.1 r.2 :=
  exec_of_runSteps_guard step (fun _ _ s' => Q s') h

end Runs
