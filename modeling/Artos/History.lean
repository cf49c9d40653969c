/-
# Flags of a history

General support: a flag that some observations raise and others lower, read off a
list of observations, oldest first.  Nothing here mentions the kernel.

* `flag up down h` : the last observation of `h` that `up` or `down` accepts is
  accepted by `up`;
* `flag_append_of_silent`, `flag_append_of_not_down` : the flag after observations that
  do not concern it, or do not lower it.
-/
import Mathlib

namespace History

variable {β : Type*} {up down : β → Bool} {h h' : List β}

/-- What one observation does to the flag. -/
def flagStep (up down : β → Bool) (g : Bool) (b : β) : Bool :=
  if up b then true else if down b then false else g

/-- **The flag after the observations `h`**, lowered at the start. -/
def flag (up down : β → Bool) (h : List β) : Bool := h.foldl (flagStep up down) false

@[simp] theorem flag_nil : flag up down [] = false := rfl

theorem flag_snoc (b : β) : flag up down (h ++ [b]) = flagStep up down (flag up down h) b := by
  simp [flag]

/-- Observations that neither raise nor lower the flag leave it as it is. -/
theorem flag_append_of_silent (hs : ∀ b ∈ h', up b = false ∧ down b = false) :
    flag up down (h ++ h') = flag up down h := by
  unfold flag
  rw [List.foldl_append]
  generalize h.foldl (flagStep up down) false = g
  induction h' with
  | nil => rfl
  | cons b h' ih =>
      obtain ⟨hup, hdown⟩ := hs b List.mem_cons_self
      have hone : flagStep up down g b = g := by simp [flagStep, hup, hdown]
      rw [List.foldl_cons, hone]
      exact ih fun b' hmem => hs b' (List.mem_cons_of_mem _ hmem)

/-- **Observations that do not lower the flag raise it with any one that raises it.** -/
theorem flag_append_of_not_down (hs : ∀ b ∈ h', down b = false) :
    flag up down (h ++ h') = true ↔ flag up down h = true ∨ ∃ b ∈ h', up b = true := by
  unfold flag
  rw [List.foldl_append]
  generalize h.foldl (flagStep up down) false = g
  induction h' generalizing g with
  | nil => simp
  | cons b h' ih =>
      have hone : flagStep up down g b = true ↔ g = true ∨ up b = true := by
        have hdown := hs b List.mem_cons_self
        cases hup : up b <;> simp [flagStep, hup, hdown]
      rw [List.foldl_cons, ih fun b' hmem => hs b' (List.mem_cons_of_mem _ hmem), hone]
      constructor
      · rintro ((hg | hb) | ⟨b', hmem, hb'⟩)
        · exact Or.inl hg
        · exact Or.inr ⟨b, List.mem_cons_self, hb⟩
        · exact Or.inr ⟨b', List.mem_cons_of_mem _ hmem, hb'⟩
      · rintro (hg | ⟨b', hmem, hb'⟩)
        · exact Or.inl (Or.inl hg)
        · rcases List.mem_cons.mp hmem with rfl | hmem
          · exact Or.inl (Or.inr hb')
          · exact Or.inr ⟨b', hmem, hb'⟩

/-- A raised flag was raised by some observation. -/
theorem exists_of_flag (hf : flag up down h = true) : ∃ b ∈ h, up b = true := by
  induction h using List.reverseRecOn with
  | nil => simp at hf
  | append_singleton h b ih =>
      rw [flag_snoc] at hf
      cases hup : up b with
      | true => exact ⟨b, by simp, hup⟩
      | false =>
          have hold : flag up down h = true := by
            unfold flagStep at hf
            rw [hup] at hf
            cases hdown : down b <;> simp_all
          obtain ⟨b', hmem, hb'⟩ := ih hold
          exact ⟨b', List.mem_append_left _ hmem, hb'⟩

end History
