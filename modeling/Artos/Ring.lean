/-
# Ring buffers

General support: a ring of `cap` slots whose contents start at the slot `head`.
Nothing here mentions the kernel.

* `contents slot cap head count` : the contents as a list, oldest first;
* `contents_push` : writing the slot behind the last one appends to the list;
* `contents_pop` : moving the head on removes the first one.
-/
import Mathlib

namespace Ring

variable {α : Type*} {slot slot' : ℕ → α} {cap head count : ℕ}

/-- **The contents of a ring**, oldest first. -/
def contents (slot : ℕ → α) (cap head count : ℕ) : List α :=
  (List.range count).map fun i => slot ((head + i) % cap)

/-- The slots of a ring that is not full are different from the one behind them. -/
theorem slot_ne {i : ℕ} (hi : i < count) (hroom : count < cap) :
    (head + i) % cap ≠ (head + count) % cap := by
  intro he
  have hmod : head + i ≡ head + count [MOD cap] := he
  have hcancel : i ≡ count [MOD cap] := Nat.ModEq.add_left_cancel' head hmod
  have heq : i = count := Nat.ModEq.eq_of_lt_of_lt hcancel (by omega) hroom
  omega

/-- **Writing behind the last slot appends.** -/
theorem contents_push (hroom : count < cap)
    (hsame : ∀ i, i < cap → i ≠ (head + count) % cap → slot' i = slot i) :
    contents slot' cap head (count + 1) =
      contents slot cap head count ++ [slot' ((head + count) % cap)] := by
  unfold contents
  rw [List.range_succ, List.map_append, List.map_singleton]
  congr 1
  refine List.map_congr_left fun i hi => ?_
  have hi' : i < count := List.mem_range.mp hi
  exact hsame _ (Nat.mod_lt _ (by omega)) (slot_ne hi' hroom)

/-- **Moving the head on removes the first slot.** -/
theorem contents_pop (hhead : head < cap) :
    contents slot cap head (count + 1) =
      slot head :: contents slot cap ((head + 1) % cap) count := by
  unfold contents
  rw [List.range_succ_eq_map, List.map_cons, Nat.add_zero, Nat.mod_eq_of_lt hhead, List.map_map]
  congr 1
  refine List.map_congr_left fun i _ => ?_
  show slot ((head + (i + 1)) % cap) = slot (((head + 1) % cap + i) % cap)
  rw [Nat.mod_add_mod, show head + (i + 1) = head + 1 + i by omega]

end Ring
