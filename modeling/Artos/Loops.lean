/-
# `while` loops with a step budget

A loop `while (cond) body` is run for at most a given number of rounds; running
out of rounds with the condition still true gives `none`.  A loop that returns
within some budget returns the same state within every larger one
(`whileLoop_mono`), so the result does not depend on the budget, and a measure
that each round decreases bounds the rounds a loop needs
(`whileLoop_terminates`).  Nothing here mentions the kernel.
-/
import Mathlib

variable {σ : Type*}

/-- Run `while (cond) body` for at most the given number of rounds. -/
def whileLoop (cond : σ → Bool) (body : σ → σ) : ℕ → σ → Option σ
  | 0, s => if cond s then none else some s
  | n + 1, s => if cond s then whileLoop cond body n (body s) else some s

section

variable {cond : σ → Bool} {body : σ → σ}

/-- A loop whose condition fails at once returns the state unchanged. -/
theorem whileLoop_of_not {s : σ} (h : cond s = false) (n : ℕ) :
    whileLoop cond body n s = some s := by
  cases n <;> simp [whileLoop, h]

/-- One round of a loop. -/
theorem whileLoop_succ {s : σ} (h : cond s = true) (n : ℕ) :
    whileLoop cond body (n + 1) s = whileLoop cond body n (body s) := by
  simp [whileLoop, h]

/-- **The result of a loop does not depend on the budget.** -/
theorem whileLoop_mono {n m : ℕ} {s s' : σ} (h : whileLoop cond body n s = some s')
    (hnm : n ≤ m) : whileLoop cond body m s = some s' := by
  induction n generalizing s m with
  | zero =>
      cases hc : cond s with
      | true => simp [whileLoop, hc] at h
      | false =>
          rw [whileLoop_of_not hc] at h ⊢
          exact h
  | succ n ih =>
      cases hc : cond s with
      | true =>
          obtain ⟨m, rfl⟩ : ∃ m', m = m' + 1 := ⟨m - 1, by omega⟩
          rw [whileLoop_succ hc] at h ⊢
          exact ih h (by omega)
      | false =>
          rw [whileLoop_of_not hc] at h ⊢
          exact h

/-- **Termination by a measure.**  If every round keeps the invariant `I` and
decreases `μ`, the loop returns within `μ` rounds, in a state that satisfies `I`
and falsifies the condition. -/
theorem whileLoop_terminates {I : σ → Prop} {μ : σ → ℕ}
    (hbody : ∀ s, I s → cond s = true → I (body s) ∧ μ (body s) < μ s)
    {s : σ} (hs : I s) {n : ℕ} (hn : μ s ≤ n) :
    ∃ s', whileLoop cond body n s = some s' ∧ I s' ∧ cond s' = false := by
  induction n generalizing s with
  | zero =>
      cases hc : cond s with
      | true =>
          have := (hbody s hs hc).2
          omega
      | false => exact ⟨s, whileLoop_of_not hc 0, hs, hc⟩
  | succ n ih =>
      cases hc : cond s with
      | true =>
          obtain ⟨hI, hlt⟩ := hbody s hs hc
          obtain ⟨s', hloop, hs', hc'⟩ := ih hI (by omega)
          exact ⟨s', by rw [whileLoop_succ hc, hloop], hs', hc'⟩
      | false => exact ⟨s, whileLoop_of_not hc _, hs, hc⟩

end
