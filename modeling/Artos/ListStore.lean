/-
# Families of lists with membership stored in the items

A `ListStore` is a family of lists over a common pool of items, seen as pure
sequences: every item knows the list that contains it (`container`), carries a
sort key (`value`), and is in at most one list, at most once.  These facts are
fields of the structure, so that no operation can build a store in which an item
is duplicated or remembers the wrong list.

Each insertion also stamps the item with a running clock.  The stamp is history:
no operation reads it.  It lets "the order in which the items entered" be said of
a single store, and three orders are kept by the three insertions:

* `Fifo` : the items stand in order of arrival (`insertEnd`);
* `Ordered (· < ·)` : non-decreasing keys, equal keys in order of arrival
  (`insertSorted`);
* `Ordered (· > ·)` : non-increasing keys, equal keys in order of arrival
  (`insertReversedSorted`).

Nothing here mentions the kernel.
-/
import Mathlib

open Function

/-- A family of lists `L` over the items `I`; see the file header. -/
structure ListStore (L I : Type*) where
  /-- The items of each list, head first. -/
  elems : L → List I
  /-- The list that holds the item, if any. -/
  container : I → Option L
  /-- The sort key of the item. -/
  value : I → ℕ
  /-- The clock reading of the item's last insertion (history). -/
  stamp : I → ℕ
  /-- The number of insertions so far (history). -/
  clock : ℕ
  mem_elems : ∀ l i, i ∈ elems l ↔ container i = some l
  nodup : ∀ l, (elems l).Nodup
  stamp_lt : ∀ i, container i ≠ none → stamp i < clock

namespace ListStore

variable {L I : Type*}

/-! ## Linking and unlinking -/

/-- The store whose lists are all empty. -/
def empty : ListStore L I where
  elems := fun _ => []
  container := fun _ => none
  value := fun _ => 0
  stamp := fun _ => 0
  clock := 0
  mem_elems := by simp
  nodup := by simp
  stamp_lt := by simp

variable [DecidableEq I]

/-- Change the key of an item. -/
def setValue (st : ListStore L I) (i : I) (v : ℕ) : ListStore L I where
  elems := st.elems
  container := st.container
  value := update st.value i v
  stamp := st.stamp
  clock := st.clock
  mem_elems := st.mem_elems
  nodup := st.nodup
  stamp_lt := st.stamp_lt

/-- Take an item out of the list that holds it. -/
def remove (st : ListStore L I) (i : I) : ListStore L I where
  elems := fun l => (st.elems l).erase i
  container := update st.container i none
  value := st.value
  stamp := st.stamp
  clock := st.clock
  mem_elems := by
    intro l j
    rw [(st.nodup l).mem_erase_iff, st.mem_elems]
    by_cases hji : j = i
    · simp [hji]
    · simp [hji]
  nodup := fun l => (st.nodup l).erase i
  stamp_lt := by
    intro j hj
    by_cases hji : j = i
    · simp [hji] at hj
    · rw [update_of_ne hji] at hj
      exact st.stamp_lt j hj

section Link

variable [DecidableEq L]

/-- Put the unlinked item `i` between the two halves `front` and `back` of the
list `l`. -/
def link (st : ListStore L I) (l : L) (i : I) (front back : List I)
    (hsplit : front ++ back = st.elems l) (hi : st.container i = none) :
    ListStore L I where
  elems := update st.elems l (front ++ i :: back)
  container := update st.container i (some l)
  value := st.value
  stamp := update st.stamp i st.clock
  clock := st.clock + 1
  mem_elems := by
    intro l' j
    have hj := st.mem_elems l' j
    by_cases hl : l' = l
    · subst hl
      rw [← hsplit] at hj
      by_cases hji : j = i
      · simp [hji]
      · simp only [update_self, List.mem_append, List.mem_cons, hji, false_or,
          update_of_ne hji]
        simpa using hj
    · by_cases hji : j = i
      · subst hji
        simp only [update_of_ne hl, update_self, Option.some.injEq]
        rw [hj, hi]
        simp [Ne.symm hl]
      · simpa [update_of_ne hl, update_of_ne hji] using hj
  nodup := by
    intro l'
    by_cases hl : l' = l
    · subst hl
      rw [update_self, List.nodup_middle, List.nodup_cons, hsplit]
      refine ⟨fun hmem => ?_, st.nodup l'⟩
      rw [st.mem_elems, hi] at hmem
      simp at hmem
    · rw [update_of_ne hl]
      exact st.nodup l'
  stamp_lt := by
    intro j hj
    by_cases hji : j = i
    · simp [hji]
    · rw [update_of_ne hji] at hj ⊢
      exact Nat.lt_succ_of_lt (st.stamp_lt j hj)

/-- Append an unlinked item at the end of a list; a linked item is left alone. -/
def insertEnd (st : ListStore L I) (l : L) (i : I) : ListStore L I :=
  if hi : st.container i = none then
    st.link l i (st.elems l) [] (List.append_nil _) hi
  else st

/-- Insert an unlinked item by scanning from the head past every key that is at
most its own. -/
def insertSorted (st : ListStore L I) (l : L) (i : I) : ListStore L I :=
  if hi : st.container i = none then
    st.link l i ((st.elems l).takeWhile fun j => st.value j ≤ st.value i)
      ((st.elems l).dropWhile fun j => st.value j ≤ st.value i)
      List.takeWhile_append_dropWhile hi
  else st

/-- Insert an unlinked item by scanning from the tail past every key that is
smaller than its own. -/
def insertReversedSorted (st : ListStore L I) (l : L) (i : I) : ListStore L I :=
  if hi : st.container i = none then
    st.link l i ((st.elems l).rdropWhile fun j => st.value j < st.value i)
      ((st.elems l).rtakeWhile fun j => st.value j < st.value i)
      List.rdropWhile_append_rtakeWhile hi
  else st

end Link

/-! ## Membership -/

section Members

variable {L I : Type*} {st : ListStore L I} {l : L} {i : I}

/-- A member of a list is linked in it. -/
theorem container_of_mem (h : i ∈ st.elems l) : st.container i = some l :=
  (st.mem_elems l i).mp h

/-- An unlinked item is in no list. -/
theorem notMem_of_container (l : L) (h : st.container i = none) : i ∉ st.elems l := by
  rw [st.mem_elems, h]
  simp

/-- The head of a list is linked in it. -/
theorem container_of_head {rest : List I} (h : st.elems l = i :: rest) :
    st.container i = some l :=
  container_of_mem (by rw [h]; exact List.mem_cons_self)

/-- An item occurs in the list that holds it exactly once, and nowhere else. -/
theorem count_elems [DecidableEq L] [BEq I] [LawfulBEq I] (st : ListStore L I) (l : L)
    (i : I) : (st.elems l).count i = if st.container i = some l then 1 else 0 := by
  split
  · rename_i h
    exact List.count_eq_one_of_mem (st.nodup l) ((st.mem_elems l i).mpr h)
  · rename_i h
    exact List.count_eq_zero_of_not_mem (fun hmem => h (container_of_mem hmem))

end Members

/-! ## What the operations do, field by field -/

@[simp] theorem setValue_elems (st : ListStore L I) (i : I) (v : ℕ) :
    (st.setValue i v).elems = st.elems := rfl

@[simp] theorem setValue_container (st : ListStore L I) (i : I) (v : ℕ) :
    (st.setValue i v).container = st.container := rfl

@[simp] theorem setValue_value (st : ListStore L I) (i : I) (v : ℕ) :
    (st.setValue i v).value = update st.value i v := rfl

@[simp] theorem setValue_stamp (st : ListStore L I) (i : I) (v : ℕ) :
    (st.setValue i v).stamp = st.stamp := rfl

@[simp] theorem setValue_clock (st : ListStore L I) (i : I) (v : ℕ) :
    (st.setValue i v).clock = st.clock := rfl

@[simp] theorem remove_elems (st : ListStore L I) (i : I) (l : L) :
    (st.remove i).elems l = (st.elems l).erase i := rfl

@[simp] theorem remove_container (st : ListStore L I) (i : I) :
    (st.remove i).container = update st.container i none := rfl

@[simp] theorem remove_value (st : ListStore L I) (i : I) :
    (st.remove i).value = st.value := rfl

@[simp] theorem remove_stamp (st : ListStore L I) (i : I) :
    (st.remove i).stamp = st.stamp := rfl

@[simp] theorem remove_clock (st : ListStore L I) (i : I) :
    (st.remove i).clock = st.clock := rfl

/-- Removing an item changes no list that does not hold it. -/
theorem remove_elems_of_ne {st : ListStore L I} {l : L} {i : I}
    (h : st.container i ≠ some l) : (st.remove i).elems l = st.elems l := by
  rw [remove_elems, List.erase_of_not_mem]
  rwa [st.mem_elems]

/-- Removing the head of a list leaves its tail. -/
theorem remove_elems_of_head {st : ListStore L I} {l : L} {i : I} {rest : List I}
    (h : st.elems l = i :: rest) : (st.remove i).elems l = rest := by
  rw [remove_elems, h, List.erase_cons_head]

/-- Removing an unlinked item changes nothing. -/
theorem remove_eq_self {st : ListStore L I} {i : I} (h : st.container i = none) :
    st.remove i = st := by
  have helems : (fun l => (st.elems l).erase i) = st.elems := by
    funext l
    exact List.erase_of_not_mem (notMem_of_container l h)
  have hcont : update st.container i none = st.container := by
    rw [← h]
    exact update_eq_self i st.container
  cases st
  simp only [remove, ListStore.mk.injEq, and_true] at helems hcont ⊢
  exact ⟨helems, hcont⟩

section Link

variable [DecidableEq L] {st : ListStore L I} {l : L} {i : I} {front back : List I}

@[simp] theorem link_elems (hsplit : front ++ back = st.elems l)
    (hi : st.container i = none) :
    (st.link l i front back hsplit hi).elems = update st.elems l (front ++ i :: back) :=
  rfl

@[simp] theorem link_container (hsplit : front ++ back = st.elems l)
    (hi : st.container i = none) :
    (st.link l i front back hsplit hi).container = update st.container i (some l) :=
  rfl

@[simp] theorem link_value (hsplit : front ++ back = st.elems l)
    (hi : st.container i = none) :
    (st.link l i front back hsplit hi).value = st.value := rfl

@[simp] theorem link_stamp (hsplit : front ++ back = st.elems l)
    (hi : st.container i = none) :
    (st.link l i front back hsplit hi).stamp = update st.stamp i st.clock := rfl

@[simp] theorem link_clock (hsplit : front ++ back = st.elems l)
    (hi : st.container i = none) :
    (st.link l i front back hsplit hi).clock = st.clock + 1 := rfl

theorem insertEnd_eq (hi : st.container i = none) :
    st.insertEnd l i = st.link l i (st.elems l) [] (List.append_nil _) hi :=
  dif_pos hi

theorem insertSorted_eq (hi : st.container i = none) :
    st.insertSorted l i = st.link l i
      ((st.elems l).takeWhile fun j => st.value j ≤ st.value i)
      ((st.elems l).dropWhile fun j => st.value j ≤ st.value i)
      List.takeWhile_append_dropWhile hi :=
  dif_pos hi

theorem insertReversedSorted_eq (hi : st.container i = none) :
    st.insertReversedSorted l i = st.link l i
      ((st.elems l).rdropWhile fun j => st.value j < st.value i)
      ((st.elems l).rtakeWhile fun j => st.value j < st.value i)
      List.rdropWhile_append_rtakeWhile hi :=
  dif_pos hi

@[simp] theorem insertEnd_value (st : ListStore L I) (l : L) (i : I) :
    (st.insertEnd l i).value = st.value := by
  unfold insertEnd
  split <;> rfl

@[simp] theorem insertSorted_value (st : ListStore L I) (l : L) (i : I) :
    (st.insertSorted l i).value = st.value := by
  unfold insertSorted
  split <;> rfl

@[simp] theorem insertReversedSorted_value (st : ListStore L I) (l : L) (i : I) :
    (st.insertReversedSorted l i).value = st.value := by
  unfold insertReversedSorted
  split <;> rfl

/-- An insertion never sets the clock back. -/
theorem clock_le_insertEnd (st : ListStore L I) (l : L) (i : I) :
    st.clock ≤ (st.insertEnd l i).clock := by
  unfold insertEnd
  split
  · exact Nat.le_succ _
  · exact le_rfl

end Link

/-! ## The orders -/

/-- The list is in order of arrival. -/
def Fifo (st : ListStore L I) (l : L) : Prop :=
  (st.elems l).Pairwise fun a b => st.stamp a < st.stamp b

/-- The keys of the list are related by `r` or equal, and equal keys are in order
of arrival. -/
def Ordered (r : ℕ → ℕ → Prop) (st : ListStore L I) (l : L) : Prop :=
  (st.elems l).Pairwise fun a b =>
    r (st.value a) (st.value b) ∨ st.value a = st.value b ∧ st.stamp a < st.stamp b

variable {r : ℕ → ℕ → Prop} {st : ListStore L I} {l l' : L} {i : I}

omit [DecidableEq I] in
/-- The empty store is ordered. -/
theorem ordered_empty : Ordered r (empty : ListStore L I) l := List.Pairwise.nil

/-- Taking an item out keeps every order. -/
theorem Ordered.remove (h : Ordered r st l) (i : I) : Ordered r (st.remove i) l :=
  List.Pairwise.sublist List.erase_sublist h

/-- Changing the key of an item that the list does not hold keeps the order. -/
theorem Ordered.setValue (h : Ordered r st l) (hi : st.container i ≠ some l) (v : ℕ) :
    Ordered r (st.setValue i v) l := by
  refine List.Pairwise.imp_of_mem (fun {a b} ha hb hab => ?_) h
  have hai : a ≠ i := fun he => hi (he ▸ container_of_mem ha)
  have hbi : b ≠ i := fun he => hi (he ▸ container_of_mem hb)
  simpa [update_of_ne hai, update_of_ne hbi] using hab

omit [DecidableEq I] in
/-- The empty store is in order of arrival. -/
theorem fifo_empty : Fifo (empty : ListStore L I) l := List.Pairwise.nil

/-- Taking an item out keeps the order of arrival. -/
theorem Fifo.remove (h : Fifo st l) (i : I) : Fifo (st.remove i) l :=
  List.Pairwise.sublist List.erase_sublist h

/-- Keys do not matter to the order of arrival. -/
theorem Fifo.setValue (h : Fifo st l) (i : I) (v : ℕ) : Fifo (st.setValue i v) l := h

omit [DecidableEq I] in
/-- Of two members of a list in pairwise order, the one that may not stand behind the other
stands before it. -/
theorem pair_sublist_of_pairwise {R : I → I → Prop} {xs : List I} {a b : I}
    (h : xs.Pairwise R) (ha : a ∈ xs) (hb : b ∈ xs) (hne : a ≠ b) (hnot : ¬ R b a) :
    [a, b].Sublist xs := by
  induction xs with
  | nil => simp at ha
  | cons c cs ih =>
      obtain ⟨hc, hcs⟩ := List.pairwise_cons.mp h
      rcases List.mem_cons.mp ha with rfl | ha'
      · have hb' := (List.mem_cons.mp hb).resolve_left (Ne.symm hne)
        exact (List.singleton_sublist.mpr hb').cons_cons a
      · rcases List.mem_cons.mp hb with rfl | hb'
        · exact absurd (hc a ha') hnot
        · exact (ih hcs ha' hb').cons c

omit [DecidableEq I] in
/-- **Two members stand in the order in which they arrived.** -/
theorem Fifo.pair_sublist {a b : I} (h : Fifo st l) (ha : st.container a = some l)
    (hb : st.container b = some l) (hab : st.stamp a < st.stamp b) :
    [a, b].Sublist (st.elems l) := by
  refine pair_sublist_of_pairwise h ((st.mem_elems l a).mpr ha) ((st.mem_elems l b).mpr hb)
    ?_ (by omega)
  rintro rfl
  omega

omit [DecidableEq I] in
/-- Of two items with the same key, the one inserted first stands first. -/
theorem Ordered.pair_sublist {a b : I} (h : Ordered r st l) (hr : ∀ v, ¬ r v v)
    (ha : st.container a = some l) (hb : st.container b = some l)
    (hv : st.value a = st.value b) (hab : st.stamp a < st.stamp b) :
    [a, b].Sublist (st.elems l) := by
  refine pair_sublist_of_pairwise h ((st.mem_elems l a).mpr ha) ((st.mem_elems l b).mpr hb)
    ?_ ?_
  · rintro rfl
    omega
  · rintro (hlt | ⟨-, hlt⟩)
    · rw [hv] at hlt
      exact hr _ hlt
    · omega

section Link

variable [DecidableEq L] {front back : List I}

/-- An insertion into another list keeps the order of arrival. -/
theorem Fifo.link_of_ne (h : Fifo st l') (hne : l' ≠ l)
    (hsplit : front ++ back = st.elems l) (hi : st.container i = none) :
    Fifo (st.link l i front back hsplit hi) l' := by
  unfold Fifo
  rw [link_elems, update_of_ne hne]
  refine List.Pairwise.imp_of_mem (fun {a b} ha hb hab => ?_) h
  have hai : a ≠ i := fun he => notMem_of_container l' hi (he ▸ ha)
  have hbi : b ≠ i := fun he => notMem_of_container l' hi (he ▸ hb)
  simpa [update_of_ne hai, update_of_ne hbi] using hab

/-- **Appending keeps the order of arrival.** -/
theorem Fifo.insertEnd (h : Fifo st l) (l₀ : L) (i : I) : Fifo (st.insertEnd l₀ i) l := by
  unfold ListStore.insertEnd
  split
  · rename_i hi
    by_cases hne : l = l₀
    · subst hne
      unfold Fifo
      rw [link_elems, update_self, List.pairwise_append]
      refine ⟨?_, List.pairwise_singleton _ _, fun a ha b hb => ?_⟩
      · refine List.Pairwise.imp_of_mem (fun {a b} ha hb hab => ?_) h
        have hai : a ≠ i := fun he => notMem_of_container l hi (he ▸ ha)
        have hbi : b ≠ i := fun he => notMem_of_container l hi (he ▸ hb)
        simpa [update_of_ne hai, update_of_ne hbi] using hab
      · have hai : a ≠ i := fun he => notMem_of_container l hi (he ▸ ha)
        rw [List.mem_singleton.mp hb, link_stamp, update_of_ne hai, update_self]
        exact st.stamp_lt a (by rw [container_of_mem ha]; simp)
    · exact h.link_of_ne hne _ hi
  · exact h

/-- A sorted insertion into another list keeps the order of arrival. -/
theorem Fifo.insertSorted_of_ne (h : Fifo st l') (hne : l' ≠ l) :
    Fifo (st.insertSorted l i) l' := by
  unfold ListStore.insertSorted
  split
  · exact h.link_of_ne hne _ _
  · exact h

/-- An insertion into another list keeps the order. -/
theorem Ordered.link_of_ne (h : Ordered r st l') (hne : l' ≠ l)
    (hsplit : front ++ back = st.elems l) (hi : st.container i = none) :
    Ordered r (st.link l i front back hsplit hi) l' := by
  unfold Ordered
  rw [link_elems, update_of_ne hne]
  refine List.Pairwise.imp_of_mem (fun {a b} ha hb hab => ?_) h
  have hai : a ≠ i := fun he => notMem_of_container l' hi (he ▸ ha)
  have hbi : b ≠ i := fun he => notMem_of_container l' hi (he ▸ hb)
  simpa [update_of_ne hai, update_of_ne hbi] using hab

/-- **Stable insertion.**  An insertion behind every key that is before or equal
to the new one, and in front of every key that is after it, keeps the order. -/
theorem Ordered.link (h : Ordered r st l) (hsplit : front ++ back = st.elems l)
    (hi : st.container i = none)
    (hfront : ∀ a ∈ front, r (st.value a) (st.value i) ∨ st.value a = st.value i)
    (hback : ∀ b ∈ back, r (st.value i) (st.value b)) :
    Ordered r (st.link l i front back hsplit hi) l := by
  unfold Ordered at h ⊢
  rw [← hsplit, List.pairwise_append] at h
  obtain ⟨h1, h2, h12⟩ := h
  have hmem : ∀ a, a ∈ front ∨ a ∈ back → a ∈ st.elems l := by
    intro a ha
    rw [← hsplit]
    exact List.mem_append.mpr ha
  have hne : ∀ a, a ∈ front ∨ a ∈ back → a ≠ i := fun a ha he =>
    notMem_of_container l hi (he ▸ hmem a ha)
  have hlt : ∀ a, a ∈ front ∨ a ∈ back → st.stamp a < st.clock := fun a ha =>
    st.stamp_lt a (by rw [container_of_mem (hmem a ha)]; simp)
  -- old pairs keep their keys and stamps
  have hold : ∀ a b, a ∈ front ∨ a ∈ back → b ∈ front ∨ b ∈ back →
      (r (st.value a) (st.value b) ∨
        st.value a = st.value b ∧ st.stamp a < st.stamp b) →
      r (st.value a) (st.value b) ∨ st.value a = st.value b ∧
        update st.stamp i st.clock a < update st.stamp i st.clock b := by
    intro a b ha hb hab
    rwa [update_of_ne (hne a ha), update_of_ne (hne b hb)]
  rw [link_elems, update_self, List.pairwise_append, List.pairwise_cons]
  refine ⟨?_, ⟨fun b hb => ?_, ?_⟩, fun a ha b hb => ?_⟩
  · exact h1.imp_of_mem fun {a b} ha hb hab => hold a b (Or.inl ha) (Or.inl hb) hab
  · exact Or.inl (hback b hb)
  · exact h2.imp_of_mem fun {a b} ha hb hab => hold a b (Or.inr ha) (Or.inr hb) hab
  · rcases List.mem_cons.mp hb with rfl | hb
    · rcases hfront a ha with hr | he
      · exact Or.inl hr
      · refine Or.inr ⟨he, ?_⟩
        rw [link_stamp, update_of_ne (hne a (Or.inl ha)), update_self]
        exact hlt a (Or.inl ha)
    · exact hold a b (Or.inl ha) (Or.inr hb) (h12 a ha b hb)

/-- **`insertSorted` is a stable insertion** into a list with non-decreasing
keys. -/
theorem Ordered.insertSorted (h : Ordered (· < ·) st l) (l₀ : L)
    (hi : st.container i = none) : Ordered (· < ·) (st.insertSorted l₀ i) l := by
  rw [insertSorted_eq hi]
  by_cases hne : l = l₀
  · subst hne
    refine h.link _ hi (fun a ha => ?_) (fun b hb => ?_)
    · have hle := List.mem_takeWhile_imp ha
      simp only [decide_eq_true_eq] at hle
      omega
    · -- the first key behind the new one is larger, and the rest follow it
      have hsub : (st.elems l).dropWhile (fun j => st.value j ≤ st.value i) <:+ st.elems l :=
        List.dropWhile_suffix _
      have hpw := List.Pairwise.sublist hsub.sublist h
      rcases hd : (st.elems l).dropWhile (fun j => st.value j ≤ st.value i) with _ | ⟨c, cs⟩
      · rw [hd] at hb
        simp at hb
      · have hc : st.value i < st.value c := by
          have hne : (st.elems l).dropWhile (fun j => st.value j ≤ st.value i) ≠ [] := by
            rw [hd]
            simp
          have hnot := List.head_dropWhile_not
            (fun j => decide (st.value j ≤ st.value i)) hne
          simp only [hd, List.head_cons, decide_eq_false_iff_not] at hnot
          omega
        rw [hd] at hb hpw
        rcases List.mem_cons.mp hb with rfl | hb
        · exact hc
        · have hcb := (List.pairwise_cons.mp hpw).1 b hb
          show st.value i < st.value b
          omega
  · exact h.link_of_ne hne _ hi

/-- **`insertReversedSorted` is a stable insertion** into a list with
non-increasing keys. -/
theorem Ordered.insertReversedSorted (h : Ordered (· > ·) st l) (l₀ : L)
    (hi : st.container i = none) : Ordered (· > ·) (st.insertReversedSorted l₀ i) l := by
  rw [insertReversedSorted_eq hi]
  by_cases hne : l = l₀
  · subst hne
    refine h.link _ hi (fun a ha => ?_) (fun b hb => ?_)
    · -- the last key in front of the new one is not smaller, and the rest precede it
      have hpre : (st.elems l).rdropWhile (fun j => st.value j < st.value i) <+: st.elems l :=
        List.rdropWhile_prefix _ _
      have hpw := List.Pairwise.sublist hpre.sublist h
      have hne : (st.elems l).rdropWhile (fun j => st.value j < st.value i) ≠ [] :=
        List.ne_nil_of_mem ha
      have hlast := List.rdropWhile_last_not
        (fun j => decide (st.value j < st.value i)) (st.elems l) hne
      simp only [decide_eq_true_eq, not_lt] at hlast
      rw [← List.dropLast_append_getLast hne] at ha hpw
      rcases List.mem_append.mp ha with ha | ha
      · have hal := (List.pairwise_append.mp hpw).2.2 a ha _ (List.mem_singleton.mpr rfl)
        show st.value a > st.value i ∨ st.value a = st.value i
        omega
      · rw [List.mem_singleton.mp ha]
        show _ > _ ∨ _ = _
        omega
    · have hlt := List.mem_rtakeWhile_imp hb
      simpa using hlt
  · exact h.link_of_ne hne _ hi

/-- Appending to a list keeps the order of the others. -/
theorem Ordered.insertEnd_of_ne (h : Ordered r st l') (hne : l' ≠ l)
    (hi : st.container i = none) : Ordered r (st.insertEnd l i) l' := by
  rw [insertEnd_eq hi]
  exact h.link_of_ne hne _ hi

end Link

end ListStore
