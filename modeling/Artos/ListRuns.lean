/-
# Runs of list calls

A run of calls of the functions of `list.c`, from lists and items just initialised,
is a run on two levels: the heap is changed by the functions, the sequences by the
insertions and deletions they stand for, and the heap represents the sequences at
every step.

* `lists_refine_sequences` : the run on both levels, and that every further call that
  meets the assertions it begins with returns;
* `sorted_insertion_stable` : a list built by one of the sorted insertions is in order,
  with equal keys in order of insertion.
-/
import Artos.ListRefines
import Artos.Runs

open Function Runs

namespace Artos

variable {L I O : Type} [DecidableEq L] [DecidableEq I]

/-! ## Runs -/

/-- Every list is as `rtos_init_list` leaves it and every item as `rtos_init_list_item`
leaves it: initialising once more would change nothing. -/
def Fresh (h : Heap L I O) : Prop :=
  (∀ l, h.rtosInitList (some l) = h) ∧
    ∀ i, ∃ o, h.rtosInitListItem (some (.item i)) (some o) = h

/-- The addresses of the nodes: distinct 32-bit words other than `NULL`. -/
structure Placement (L I : Type) where
  addr : Ref L I → BitVec 32
  addr_injective : Injective addr
  addr_ne_null : ∀ r, addr r ≠ 0

/-- One call on both levels: the heap is changed by the function, the sequences by its
effect; the new heap represents the new sequences, and the rest is left alone. -/
structure LockStep (x : Heap L I O × ListStore L I) (c : ListCall L I)
    (y : Heap L I O × ListStore L I) : Prop where
  returns : Returns x.1 c y.1
  effect : Effect x.2 c y.2
  represents : Represents y.1 y.2
  frame : Frame x.1 c y.1

section Run

variable {h h' h₀ : Heap L I O} {st st' : ListStore L I} {l : L} {i : I} {c : ListCall L I}
  {calls : List (ListCall L I)}

/-- A fresh heap represents the empty lists. -/
theorem Fresh.represents (hf : Fresh h) : Represents h ListStore.empty := by
  have hl : ∀ l, h.next (.sentinel l) = some (.sentinel l) ∧
      h.prev (.sentinel l) = some (.sentinel l) ∧ h.container (.sentinel l) = some l ∧
      h.count l = 0 := by
    intro l
    rw [← hf.1 l]
    simp [Heap.rtosInitList]
  have hi : ∀ i, h.next (.item i) = none ∧ h.prev (.item i) = none ∧
      h.container (.item i) = none ∧ h.value (.item i) = 0 := by
    intro i
    obtain ⟨o, ho⟩ := hf.2 i
    rw [← ho]
    simp [Heap.rtosInitListItem]
  refine ⟨fun l => ?_, fun l => (hl l).2.2.2, fun l => (hl l).2.2.1, fun i => (hi i).2.2.1,
    fun i _ => ⟨(hi i).1, (hi i).2.1⟩, fun i => (hi i).2.2.2⟩
  simpa [ring, ListStore.empty] using ⟨(hl l).1, (hl l).2.1⟩

/-- The heap just after the initialisation of all lists and items, the items with the
given owners. -/
def Heap.initial (own : I → O) : Heap L I O where
  value := fun _ => 0
  prev := fun
    | .sentinel l => some (.sentinel l)
    | .item _ => none
  next := fun
    | .sentinel l => some (.sentinel l)
    | .item _ => none
  owner := fun
    | .sentinel _ => none
    | .item i => some (own i)
  container := fun
    | .sentinel l => some l
    | .item _ => none
  count := fun _ => 0

/-- The initial heap is fresh. -/
theorem fresh_initial (own : I → O) : Fresh (Heap.initial own : Heap L I O) := by
  refine ⟨fun l => ?_, fun i => ⟨own i, ?_⟩⟩
  · simp [Heap.rtosInitList, Heap.initial]
  · simp [Heap.rtosInitListItem, Heap.initial]

omit [DecidableEq L] [DecidableEq I] in
/-- **A list is shorter than its count can tell**: the nodes have distinct addresses. -/
theorem Placement.length_lt (place : Placement L I) (st : ListStore L I) (l : L) :
    (st.elems l).length < 4294967296 := by
  have hnd : (0 :: (st.elems l).map fun i => place.addr (.item i)).Nodup := by
    refine List.nodup_cons.mpr ⟨?_, (st.nodup l).map fun i j hij => ?_⟩
    · simp only [List.mem_map, not_exists, not_and]
      exact fun i _ => place.addr_ne_null _
    · simpa using place.addr_injective hij
  have hcard := hnd.length_le_card
  have hwords : Fintype.card (BitVec 32) = 4294967296 := by
    rw [← Fintype.card_fin 4294967296]
    exact Fintype.card_congr BitVec.equivFin.toEquiv
  rw [List.length_cons, List.length_map, hwords] at hcard
  omega

omit [DecidableEq L] [DecidableEq I] in
/-- The count of a list is exact. -/
theorem Represents.count_eq (hR : Represents h st) (place : Placement L I) (l : L) :
    h.count l = (st.elems l).length := by
  rw [hR.count, Nat.mod_eq_of_lt (place.length_lt st l)]

/-- An append that returns has met its assertions. -/
theorem asserted_of_append {dst item : Option (Ref L I)}
    (hret : h.rtosListAppend dst item = some h') : Asserted h (.append dst item) := by
  simp only [Heap.rtosListAppend, Option.bind_eq_bind, Option.bind_eq_some_iff,
    Option.guard_eq_some'] at hret
  obtain ⟨r, rfl, -, hr, -, ho, d, rfl, -, hd, next, hnext, -, hprev, -⟩ := hret
  simp only [Option.isNone_iff_eq_none, Option.isSome_iff_ne_none] at hr ho hd
  exact ⟨⟨r, rfl, hr, ho⟩, d, next, rfl, hd, hnext, hprev⟩

/-- A prepend that returns has met its assertions. -/
theorem asserted_of_prepend {dst item : Option (Ref L I)}
    (hret : h.rtosListPrepend dst item = some h') : Asserted h (.prepend dst item) := by
  simp only [Heap.rtosListPrepend, Option.bind_eq_bind, Option.bind_eq_some_iff,
    Option.guard_eq_some'] at hret
  obtain ⟨r, rfl, -, hr, -, ho, d, rfl, -, hd, prev, hprev, -, hnext, -⟩ := hret
  simp only [Option.isNone_iff_eq_none, Option.isSome_iff_ne_none] at hr ho hd
  exact ⟨⟨r, rfl, hr, ho⟩, d, prev, rfl, hd, hprev, hnext⟩

/-- A removal that returns has met its assertions. -/
theorem asserted_of_remove {item : Option (Ref L I)}
    (hret : h.rtosListRemove item = some h') : Asserted h (.remove item) := by
  simp only [Heap.rtosListRemove, Option.bind_eq_bind, Option.bind_eq_some_iff,
    Option.guard_eq_some'] at hret
  obtain ⟨r, rfl, l, hl, next, hnext, prev, hprev, -, hpn, -, hnp, -, hcount, -, hr, -⟩ := hret
  exact ⟨r, l, next, prev, rfl, hl, hnext, hprev, hpn, hnp, hcount, hr⟩

/-- **A call that returns has met the assertions it begins with.** -/
theorem Returns.asserted (hret : Returns h c h') : Asserted h c := by
  obtain ⟨n, hret⟩ := hret
  cases c with
  | append dst item => exact asserted_of_append hret
  | prepend dst item => exact asserted_of_prepend hret
  | remove item => exact asserted_of_remove hret
  | insertEnd list item =>
      rintro l rfl
      obtain ⟨hm, d, prev, hd, hcont, hprev, hnext⟩ := asserted_of_prepend hret
      obtain rfl := Option.some.inj hd
      exact ⟨hm, prev, hcont, hprev, hnext⟩
  | insertSorted list item =>
      simp only [ListCall.run, Heap.rtosListInsertSorted, Option.bind_eq_bind,
        Option.bind_eq_some_iff, Option.guard_eq_some'] at hret
      obtain ⟨r, rfl, -, hr, -, ho, -⟩ := hret
      simp only [Option.isNone_iff_eq_none, Option.isSome_iff_ne_none] at hr ho
      exact ⟨r, rfl, hr, ho⟩
  | insertReversedSorted list item =>
      simp only [ListCall.run, Heap.rtosListInsertReversedSorted, Option.bind_eq_bind,
        Option.bind_eq_some_iff, Option.guard_eq_some'] at hret
      obtain ⟨r, rfl, -, hr, -, ho, -⟩ := hret
      simp only [Option.isNone_iff_eq_none, Option.isSome_iff_ne_none] at hr ho
      exact ⟨r, rfl, hr, ho⟩
  | setValue i v => trivial

/-- A larger budget gives the same result. -/
theorem ListCall.run_mono {n m : ℕ} (hret : c.run n h = some h') (hnm : n ≤ m) :
    c.run m h = some h' := by
  cases c with
  | insertSorted list item =>
      simp only [ListCall.run, Heap.rtosListInsertSorted, Option.bind_eq_bind,
        Option.bind_eq_some_iff] at hret ⊢
      obtain ⟨r, rfl, _, hr, _, ho, hrest⟩ := hret
      refine ⟨r, rfl, _, hr, _, ho, ?_⟩
      cases list with
      | none => exact hrest
      | some l =>
          dsimp only at hrest ⊢
          split_ifs at hrest ⊢ with hnull
          · exact hrest
          · rw [Option.bind_eq_some_iff] at hrest ⊢
            obtain ⟨current, hscan, hlink⟩ := hrest
            exact ⟨current, whileLoop_mono hscan hnm, hlink⟩
  | insertReversedSorted list item =>
      simp only [ListCall.run, Heap.rtosListInsertReversedSorted, Option.bind_eq_bind,
        Option.bind_eq_some_iff] at hret ⊢
      obtain ⟨r, rfl, _, hr, _, ho, hrest⟩ := hret
      refine ⟨r, rfl, _, hr, _, ho, ?_⟩
      cases list with
      | none => exact hrest
      | some l =>
          dsimp only at hrest ⊢
          split_ifs at hrest ⊢ with hnull
          · exact hrest
          · rw [Option.bind_eq_some_iff] at hrest ⊢
            obtain ⟨current, hscan, hlink⟩ := hrest
            exact ⟨current, whileLoop_mono hscan hnm, hlink⟩
  | append dst item => exact hret
  | prepend dst item => exact hret
  | remove item => exact hret
  | insertEnd list item => exact hret
  | setValue i v => exact hret

/-- **A call that returns is a step on both levels.** -/
theorem Represents.lockStep (hR : Represents h st) (hret : Returns h c h') :
    ∃ st', LockStep (h, st) c (h', st') := by
  obtain ⟨h'', st', ⟨n, hn⟩, heff, hR', hframe⟩ := hR.call hret.asserted
  obtain ⟨m, hm⟩ := hret
  have hsame : h'' = h' := by
    have h1 := hn (max n m) (le_max_left n m)
    rw [ListCall.run_mono hm (le_max_right n m)] at h1
    exact (Option.some.inj h1).symm
  subst hsame
  exact ⟨st', ⟨m, hm⟩, heff, hR', hframe⟩

/-- **Runs of calls are runs on both levels.** -/
theorem Fresh.lockStep_run {P : Heap L I O → ListCall L I → Prop} (hf : Fresh h₀)
    (hrun : Exec (fun h c h' => Returns h c h' ∧ P h c) h₀ calls h) :
    ∃ st, Exec (fun x c y => LockStep x c y ∧ P x.1 c) (h₀, ListStore.empty) calls (h, st) ∧
      Represents h st := by
  induction hrun with
  | nil => exact ⟨_, Exec.nil, hf.represents⟩
  | snoc _ hstep ih =>
      obtain ⟨st, hlock, hR⟩ := ih
      obtain ⟨st', hlast⟩ := hR.lockStep hstep.1
      exact ⟨st', hlock.snoc ⟨hlast, hstep.2⟩, hlast.represents⟩

/-- **Intrusive lists refine pure sequences.**  Every run of calls from fresh lists and
items is a run on both levels, with exact counts, and keeps every owner; after it, every
call that meets the assertions it begins with returns, and is one more step of such a run. -/
theorem lists_refine_sequences (place : Placement L I) (hf : Fresh h₀)
    (hrun : Exec Returns h₀ calls h) :
    ∃ st, Exec (fun x c y => LockStep x c y ∧ ∀ l, y.1.count l = (y.2.elems l).length)
        (h₀, ListStore.empty) calls (h, st) ∧
      Represents h st ∧ (∀ l, h.count l = (st.elems l).length) ∧ h.owner = h₀.owner ∧
      ∀ c, Asserted h c → ∃ h' st', LockStep (h, st) c (h', st') ∧
        (∀ l, h'.count l = (st'.elems l).length) ∧ ∃ n, ∀ m, n ≤ m → c.run m h = some h' := by
  have hrun' : Exec (fun h c h' => Returns h c h' ∧ True) h₀ calls h :=
    hrun.mono fun _ _ _ hret => ⟨hret, trivial⟩
  obtain ⟨st, hlock, hR⟩ := hf.lockStep_run hrun'
  refine ⟨st, hlock.mono fun x c y hxy => ⟨hxy.1, hxy.1.represents.count_eq place⟩, hR,
    hR.count_eq place, ?_, fun c hc => ?_⟩
  · exact Exec.invariant (I := fun x => x.1.owner = h₀.owner)
      (fun x c y hx hxy => hxy.1.frame.owner.trans hx) hlock rfl
  · obtain ⟨h', st', ⟨n, hn⟩, heff, hR', hframe⟩ := hR.call hc
    exact ⟨h', st', ⟨⟨n, hn n le_rfl⟩, heff, hR', hframe⟩, hR'.count_eq place, n, hn⟩

/-- Make the calls one after the other while they pass the guard. -/
def runCalls (P : Heap L I O → ListCall L I → Prop) [∀ h c, Decidable (P h c)] (budget : ℕ)
    (h : Heap L I O) : List (ListCall L I) → Option (Heap L I O)
  | [] => some h
  | c :: calls =>
      if P h c then (c.run budget h).bind fun h => runCalls P budget h calls else none

/-- Calls that can be made are a run. -/
theorem exec_of_runCalls (P : Heap L I O → ListCall L I → Prop) [∀ h c, Decidable (P h c)]
    (budget : ℕ) (h : Heap L I O) (calls : List (ListCall L I))
    (hsome : (runCalls P budget h calls).isSome = true) :
    ∃ h', Exec (fun h c h' => Returns h c h' ∧ P h c) h calls h' := by
  induction calls generalizing h with
  | nil => exact ⟨h, Exec.nil⟩
  | cons c calls ih =>
      rw [runCalls] at hsome
      split_ifs at hsome with hP
      · cases hc : c.run budget h with
        | none =>
            rw [hc] at hsome
            simp at hsome
        | some h₁ =>
            rw [hc, Option.bind_some] at hsome
            obtain ⟨h', hrun⟩ := ih h₁ hsome
            have hfirst := Exec.single (R := fun h c h' => Returns h c h' ∧ P h c)
              ⟨⟨budget, hc⟩, hP⟩
            exact ⟨h', hfirst.trans hrun⟩
      · simp at hsome

/-- One list with two items, at some addresses. -/
def twoItems : Placement Unit Bool where
  addr := fun
    | .sentinel _ => 1
    | .item false => 2
    | .item true => 3
  addr_injective := by
    rintro (_ | _ | _) (_ | _ | _) hab <;> simp_all
  addr_ne_null := by
    rintro (_ | _ | _) <;> simp

/-- An item is put in front of one that was put at the end, which is then removed. -/
theorem lists_refine_sequences_twoItems :
    ∃ h st, Exec (fun x c y => LockStep x c y ∧ ∀ l, y.1.count l = (y.2.elems l).length)
      (Heap.initial fun _ : Bool => (), ListStore.empty)
      [.insertEnd (some ()) (some (.item false)),
        .prepend (some (.item false)) (some (.item true)), .remove (some (.item false))]
      (h, st) ∧ Represents h st := by
  obtain ⟨h, hrun⟩ := exec_of_runCalls (fun _ _ => True) 0 (Heap.initial fun _ : Bool => ())
    [.insertEnd (some ()) (some (.item false)),
      .prepend (some (.item false)) (some (.item true)), .remove (some (.item false))] rfl
  obtain ⟨st, hexec, hR, -⟩ := lists_refine_sequences twoItems
    (fresh_initial fun _ : Bool => ()) (hrun.mono fun _ _ _ hret => hret.1)
  exact ⟨h, st, hexec, hR⟩

end Run

/-! ## Sorted lists -/

/-- The call keeps to building the list `l` with `rtos_list_insert_sorted` and
`rtos_list_remove`, and writes no key of an item linked in it. -/
def BuildsSorted (l : L) (h : Heap L I O) : ListCall L I → Prop
  | .insertSorted _ _ => True
  | .remove _ => True
  | .setValue i _ => h.container (.item i) ≠ some l
  | c => c.target h ≠ some l

/-- The call keeps to building the list `l` with `rtos_list_insert_reversed_sorted` and
`rtos_list_remove`, and writes no key of an item linked in it. -/
def BuildsReversedSorted (l : L) (h : Heap L I O) : ListCall L I → Prop
  | .insertReversedSorted _ _ => True
  | .remove _ => True
  | .setValue i _ => h.container (.item i) ≠ some l
  | c => c.target h ≠ some l

section Sorted

variable {h h₀ : Heap L I O} {st st' : ListStore L I} {l : L} {c : ListCall L I}
  {calls : List (ListCall L I)} {r : ℕ → ℕ → Prop}

/-- A call of a list function on another list keeps the order. -/
theorem Effect.ordered_of_ne (heff : Effect st c st') (hR : Represents h st)
    (hne : c.target h ≠ some l) (hset : ∀ i v, c ≠ .setValue i v)
    (ho : st.Ordered r l) : st'.Ordered r l := by
  cases heff with
  | append hsplit hi =>
      refine ho.link_of_ne (fun he => hne ?_) hsplit hi
      rw [he]
      exact hR.container_before hsplit
  | prepend hsplit hi =>
      refine ho.link_of_ne (fun he => hne ?_) hsplit hi
      rw [he]
      exact hR.container_after hsplit
  | remove hi => exact ho.remove _
  | insertEnd hi => exact ho.insertEnd_of_ne (fun he => hne (by rw [he]; rfl)) hi
  | insertSorted hi =>
      rw [ListStore.insertSorted_eq hi]
      exact ho.link_of_ne (fun he => hne (by rw [he]; rfl)) _ hi
  | insertReversedSorted hi =>
      rw [ListStore.insertReversedSorted_eq hi]
      exact ho.link_of_ne (fun he => hne (by rw [he]; rfl)) _ hi
  | insertEndNull => exact ho
  | insertSortedNull => exact ho
  | insertReversedSortedNull => exact ho
  | setValue => exact absurd rfl (hset _ _)

/-- Building a list with `rtos_list_insert_sorted` keeps it in order. -/
theorem Effect.sorted (heff : Effect st c st') (hR : Represents h st)
    (hb : BuildsSorted l h c) (ho : st.Ordered (· < ·) l) : st'.Ordered (· < ·) l := by
  have hother := heff.ordered_of_ne hR (l := l) (r := (· < ·))
  cases heff with
  | remove hi => exact ho.remove _
  | insertSorted hi => exact ho.insertSorted _ hi
  | insertSortedNull => exact ho
  | setValue => exact ho.setValue (by rwa [← hR.container]) _
  | append hsplit hi => exact hother hb (by simp) ho
  | prepend hsplit hi => exact hother hb (by simp) ho
  | insertEnd hi => exact hother hb (by simp) ho
  | insertReversedSorted hi => exact hother hb (by simp) ho
  | insertEndNull => exact ho
  | insertReversedSortedNull => exact ho

/-- Building a list with `rtos_list_insert_reversed_sorted` keeps it in order. -/
theorem Effect.reversedSorted (heff : Effect st c st') (hR : Represents h st)
    (hb : BuildsReversedSorted l h c) (ho : st.Ordered (· > ·) l) :
    st'.Ordered (· > ·) l := by
  have hother := heff.ordered_of_ne hR (l := l) (r := (· > ·))
  cases heff with
  | remove hi => exact ho.remove _
  | insertReversedSorted hi => exact ho.insertReversedSorted _ hi
  | insertReversedSortedNull => exact ho
  | setValue => exact ho.setValue (by rwa [← hR.container]) _
  | append hsplit hi => exact hother hb (by simp) ho
  | prepend hsplit hi => exact hother hb (by simp) ho
  | insertEnd hi => exact hother hb (by simp) ho
  | insertSorted hi => exact hother hb (by simp) ho
  | insertEndNull => exact ho
  | insertSortedNull => exact ho

/-- An order that every call keeps holds after every run. -/
theorem Fresh.ordered_run {P : Heap L I O → ListCall L I → Prop} (hf : Fresh h₀)
    (hstep : ∀ {h : Heap L I O} {st st' : ListStore L I} {c : ListCall L I}, Effect st c st' →
      Represents h st → P h c → st.Ordered r l → st'.Ordered r l)
    (hrun : Exec (fun h c h' => Returns h c h' ∧ P h c) h₀ calls h) :
    ∃ st, Exec LockStep (h₀, ListStore.empty) calls (h, st) ∧ Represents h st ∧
      st.Ordered r l := by
  obtain ⟨st, hlock, hR⟩ := hf.lockStep_run hrun
  refine ⟨st, hlock.mono fun _ _ _ hxy => hxy.1, hR, ?_⟩
  have hinv := Exec.invariant (I := fun x => Represents x.1 x.2 ∧ x.2.Ordered r l)
    (fun x c y hx hxy => ⟨hxy.1.represents, hstep hxy.1.effect hx.1 hxy.2 hx.2⟩) hlock
    ⟨hf.represents, ListStore.ordered_empty⟩
  exact hinv.2

/-- **Sorted insertion is a stable priority order.**  A list built from empty by
`rtos_list_insert_sorted` and `rtos_list_remove` is in non-decreasing order of its keys,
one built by `rtos_list_insert_reversed_sorted` and `rtos_list_remove` in non-increasing
order, and items with equal keys stand in order of insertion. -/
theorem sorted_insertion_stable (hf : Fresh h₀) :
    (Exec (fun h c h' => Returns h c h' ∧ BuildsSorted l h c) h₀ calls h →
      ∃ st, Exec LockStep (h₀, ListStore.empty) calls (h, st) ∧ Represents h st ∧
        st.Ordered (· < ·) l) ∧
    (Exec (fun h c h' => Returns h c h' ∧ BuildsReversedSorted l h c) h₀ calls h →
      ∃ st, Exec LockStep (h₀, ListStore.empty) calls (h, st) ∧ Represents h st ∧
        st.Ordered (· > ·) l) :=
  ⟨fun hrun => hf.ordered_run Effect.sorted hrun,
    fun hrun => hf.ordered_run Effect.reversedSorted hrun⟩

instance (l : L) (h : Heap L I O) (c : ListCall L I) : Decidable (BuildsSorted l h c) :=
  match c with
  | .insertSorted _ _ => isTrue trivial
  | .remove _ => isTrue trivial
  | .setValue _ _ => inferInstanceAs (Decidable (_ ≠ _))
  | .append _ _ => inferInstanceAs (Decidable (_ ≠ _))
  | .prepend _ _ => inferInstanceAs (Decidable (_ ≠ _))
  | .insertEnd _ _ => inferInstanceAs (Decidable (_ ≠ _))
  | .insertReversedSorted _ _ => inferInstanceAs (Decidable (_ ≠ _))

instance (l : L) (h : Heap L I O) (c : ListCall L I) :
    Decidable (BuildsReversedSorted l h c) :=
  match c with
  | .insertReversedSorted _ _ => isTrue trivial
  | .remove _ => isTrue trivial
  | .setValue _ _ => inferInstanceAs (Decidable (_ ≠ _))
  | .append _ _ => inferInstanceAs (Decidable (_ ≠ _))
  | .prepend _ _ => inferInstanceAs (Decidable (_ ≠ _))
  | .insertEnd _ _ => inferInstanceAs (Decidable (_ ≠ _))
  | .insertSorted _ _ => inferInstanceAs (Decidable (_ ≠ _))

/-- Keys 0 and the largest word, the latter twice, enter a list. -/
def extremes (insert : Option Unit → Option (Ref Unit (Fin 3)) → ListCall Unit (Fin 3)) :
    List (ListCall Unit (Fin 3)) :=
  [.setValue 0 0xFFFFFFFF, insert (some ()) (some (.item 0)), insert (some ()) (some (.item 1)),
    .setValue 2 0xFFFFFFFF, insert (some ()) (some (.item 2))]

/-- The extreme keys in both sorted lists. -/
theorem sorted_insertion_stable_extremes :
    (∃ h st, Exec LockStep (Heap.initial fun _ : Fin 3 => (), ListStore.empty)
      (extremes .insertSorted) (h, st) ∧ Represents h st ∧ st.Ordered (· < ·) ()) ∧
    ∃ h st, Exec LockStep (Heap.initial fun _ : Fin 3 => (), ListStore.empty)
      (extremes .insertReversedSorted) (h, st) ∧ Represents h st ∧ st.Ordered (· > ·) () := by
  obtain ⟨h₁, hrun₁⟩ := exec_of_runCalls (BuildsSorted ()) 3
    (Heap.initial fun _ : Fin 3 => ()) (extremes .insertSorted) rfl
  obtain ⟨h₂, hrun₂⟩ := exec_of_runCalls (BuildsReversedSorted ()) 3
    (Heap.initial fun _ : Fin 3 => ()) (extremes .insertReversedSorted) rfl
  have hf := fresh_initial (L := Unit) fun _ : Fin 3 => ()
  exact ⟨⟨h₁, (sorted_insertion_stable hf).1 hrun₁⟩, ⟨h₂, (sorted_insertion_stable hf).2 hrun₂⟩⟩

end Sorted

end Artos
