/-
# Bucket queues and flat lists

General support for priority queues: a queue that keeps one list for each priority, and the
flat list that keeps all its elements in the order of their arrival.  Nothing here mentions
the kernel.

* `Flattens key F bucket` : the bucket of every priority is the part of `F` of that priority,
  in the order of `F`;
* `Flattens.append`, `Flattens.erase` : arrivals and departures keep the relation;
* `firstMax` : the first element of maximal priority, found by a plain scan;
* `Flattens.firstMax_eq` : the scan finds the head of the highest non-empty bucket.
-/
import Mathlib

namespace Buckets

variable {α P : Type*} [LinearOrder P] {key key' : α → P} {F : List α}
  {bucket bucket' : P → List α} {a b : α} {p : P}

/-- **The buckets hold the elements of the flat list**, each that of its priority, in the order
of the list. -/
def Flattens (key : α → P) (F : List α) (bucket : P → List α) : Prop :=
  ∀ p, F.filter (fun a => key a = p) = bucket p

theorem Flattens.mem_bucket (h : Flattens key F bucket) :
    a ∈ bucket p ↔ a ∈ F ∧ key a = p := by
  rw [← h p]
  simp

theorem Flattens.mem_iff (h : Flattens key F bucket) : a ∈ F ↔ a ∈ bucket (key a) := by
  rw [h.mem_bucket]
  simp

/-- Changes to other elements than those of the list. -/
theorem Flattens.congr (h : Flattens key F bucket) (hk : ∀ b ∈ F, key' b = key b)
    (hb : ∀ p, bucket' p = bucket p) : Flattens key' F bucket' := by
  intro p
  rw [hb p, ← h p]
  refine List.filter_congr fun b hmem => ?_
  rw [hk b hmem]

/-- **An arrival** goes to the end of the flat list and of its bucket. -/
theorem Flattens.append (h : Flattens key F bucket) (hk : ∀ b ∈ F, key' b = key b)
    (hb : ∀ p, bucket' p = if p = key' a then bucket p ++ [a] else bucket p) :
    Flattens key' (F ++ [a]) bucket' := by
  intro p
  have hF := h.congr hk (fun _ => rfl) p
  rw [List.filter_append, hF, hb p]
  by_cases hp : p = key' a
  · simp [hp]
  · simp [hp, Ne.symm hp]

/-- **A departure** leaves the flat list and its bucket. -/
theorem Flattens.erase [DecidableEq α] (h : Flattens key F bucket)
    (hb : ∀ p, bucket' p = (bucket p).erase a) : Flattens key (F.erase a) bucket' := by
  intro p
  rw [hb p, ← h p, List.erase_filter]

/-- The first element of maximal priority. -/
def firstMax (key : α → P) (F : List α) : Option α :=
  F.find? fun a => F.all fun b => key b ≤ key a

/-- **The plain scan finds the head of the highest non-empty bucket.** -/
theorem Flattens.firstMax_eq (h : Flattens key F bucket) {rest : List α}
    (hhead : bucket p = a :: rest) (habove : ∀ q, p < q → bucket q = []) :
    firstMax key F = some a := by
  have ha : a ∈ F ∧ key a = p := h.mem_bucket.mp (by simp [hhead])
  have hle : ∀ b ∈ F, key b ≤ p := by
    intro b hb
    by_contra hlt
    have hmem := h.mem_iff.mp hb
    rw [habove _ (not_le.mp hlt)] at hmem
    simp at hmem
  -- the elements of maximal priority are those of the bucket
  have hsame : F.filter (fun c => F.all fun b => key b ≤ key c) = bucket p := by
    rw [← h p]
    refine List.filter_congr fun c hc => ?_
    simp only [List.all_eq, decide_eq_true_eq, decide_eq_decide]
    constructor
    · intro hall
      exact le_antisymm (hle c hc) (ha.2 ▸ hall a ha.1)
    · rintro rfl b hb
      exact hle b hb
  unfold firstMax
  rw [← List.head?_filter, hsame, hhead]
  rfl

/-- With empty buckets the scan finds nothing. -/
theorem Flattens.eq_nil (h : Flattens key F bucket) (hb : ∀ p, bucket p = []) : F = [] := by
  refine List.eq_nil_iff_forall_not_mem.mpr fun a ha => ?_
  have hmem := h.mem_iff.mp ha
  rw [hb] at hmem
  simp at hmem

end Buckets
