/-
# The intrusive lists refine sequences

`Represents h st` ties a heap of nodes to the family of sequences it stands for:
each list is a ring of nodes through its sentinel in which `next` and `prev` are
inverse, the count is the length, `container` is the list holding the item, and an
unlinked item has `NULL` pointers.  The lists are disjoint because the sequences
of a `ListStore` are.

Every insertion is one splice between two neighbours and every removal one unlink
(`Represents.splice`, `Represents.unlink`); the searches only find the neighbours.
`Represents.call` collects this for all the functions of `list.c`.
-/
import Artos.LinkedLists
import Artos.ListStore

open Function

namespace Artos

variable {L I O : Type}

/-! ## Rings -/

/-- The node in front of a gap in the list `l` that has the items `front` before it. -/
def before (l : L) (front : List I) : Ref L I :=
  (front.getLast?.map Ref.item).getD (.sentinel l)

/-- The node behind a gap in the list `l` that has the items `back` after it. -/
def after (l : L) (back : List I) : Ref L I :=
  (back.head?.map Ref.item).getD (.sentinel l)

@[simp] theorem before_nil (l : L) : before l ([] : List I) = .sentinel l := rfl

@[simp] theorem before_concat (l : L) (front : List I) (i : I) :
    before l (front ++ [i]) = .item i := by
  simp [before]

@[simp] theorem after_nil (l : L) : after l ([] : List I) = .sentinel l := rfl

@[simp] theorem after_cons (l : L) (i : I) (back : List I) :
    after l (i :: back) = .item i := rfl

/-- The nodes of a list, from its sentinel round to its sentinel. -/
def ring (l : L) (items : List I) : List (Ref L I) :=
  .sentinel l :: items.map .item ++ [.sentinel l]

/-- A ring is in order when its two parts and the gap between them are. -/
theorem isChain_ring_append {R : Ref L I → Ref L I → Prop} {l : L} {front back : List I} :
    (ring l (front ++ back)).IsChain R ↔
      (Ref.sentinel l :: front.map Ref.item).IsChain R ∧
        (back.map Ref.item ++ [Ref.sentinel l]).IsChain R ∧ R (before l front) (after l back) := by
  have hsplit : ring l (front ++ back) =
      (Ref.sentinel l :: front.map Ref.item) ++ (back.map Ref.item ++ [Ref.sentinel l]) := by
    simp [ring]
  have hlast : (Ref.sentinel l :: front.map Ref.item).getLast? = some (before l front) := by
    rw [List.getLast?_cons, List.getLast?_map]
    rfl
  have hhead : (back.map Ref.item ++ [Ref.sentinel l]).head? = some (after l back) := by
    cases back <;> rfl
  rw [hsplit, List.isChain_append, hlast, hhead]
  simp

/-- The node in front of a gap of a ring is a node of the ring. -/
theorem before_mem_ring (l : L) (front back : List I) :
    before l front ∈ ring l (front ++ back) := by
  rcases List.eq_nil_or_concat front with rfl | ⟨xs, x, rfl⟩ <;> simp [ring]

/-- The node behind a gap of a ring is a node of the ring. -/
theorem after_mem_ring (l : L) (front back : List I) :
    after l back ∈ ring l (front ++ back) := by
  cases back <;> simp [ring]

/-! ## Representation -/

/-- The nodes `a` and `b` are neighbours. -/
def Linked (h : Heap L I O) (a b : Ref L I) : Prop :=
  h.next a = some b ∧ h.prev b = some a

/-- **The representation invariant**: the heap stands for the family of sequences. -/
structure Represents (h : Heap L I O) (st : ListStore L I) : Prop where
  ring : ∀ l, (ring l (st.elems l)).IsChain (Linked h)
  count : ∀ l, h.count l = (st.elems l).length % 4294967296
  home : ∀ l, h.container (.sentinel l) = some l
  container : ∀ i, h.container (.item i) = st.container i
  unlinked : ∀ i, st.container i = none → h.next (.item i) = none ∧ h.prev (.item i) = none
  value : ∀ i, h.value (.item i) = st.value i

section Facts

variable {h : Heap L I O} {st : ListStore L I} {l l' : L} {i : I} {front back : List I}

/-- The neighbours at a gap. -/
theorem Represents.gap (hR : Represents h st) (hsplit : front ++ back = st.elems l) :
    Linked h (before l front) (after l back) := by
  have hring := hR.ring l
  rw [← hsplit, isChain_ring_append] at hring
  exact hring.2.2

/-- Every node of a ring has the ring's list as its container. -/
theorem Represents.container_of_ring (hR : Represents h st) {r : Ref L I}
    (hr : r ∈ Artos.ring l (st.elems l)) : h.container r = some l := by
  simp only [Artos.ring, List.cons_append, List.mem_cons, List.mem_append, List.mem_map,
    List.not_mem_nil, or_false] at hr
  rcases hr with rfl | ⟨j, hj, rfl⟩ | rfl
  · exact hR.home l
  · rw [hR.container, ListStore.container_of_mem hj]
  · exact hR.home l

/-- The node in front of a gap is in the list. -/
theorem Represents.container_before (hR : Represents h st)
    (hsplit : front ++ back = st.elems l) : h.container (before l front) = some l :=
  hR.container_of_ring (hsplit ▸ before_mem_ring l front back)

/-- The node behind a gap is in the list. -/
theorem Represents.container_after (hR : Represents h st)
    (hsplit : front ++ back = st.elems l) : h.container (after l back) = some l :=
  hR.container_of_ring (hsplit ▸ after_mem_ring l front back)

/-- A node with a container stands in front of a gap of that list. -/
theorem Represents.gap_behind (hR : Represents h st) {d : Ref L I}
    (hd : h.container d = some l) :
    ∃ front back, front ++ back = st.elems l ∧ before l front = d := by
  cases d with
  | sentinel l₀ =>
      obtain rfl : l₀ = l := by simpa [hR.home] using hd
      exact ⟨[], st.elems l₀, rfl, rfl⟩
  | item j =>
      rw [hR.container] at hd
      obtain ⟨front, back, hsplit⟩ := List.append_of_mem ((st.mem_elems l j).mpr hd)
      exact ⟨front ++ [j], back, by simp [hsplit], before_concat l front j⟩

/-- A node with a container stands behind a gap of that list. -/
theorem Represents.gap_front (hR : Represents h st) {d : Ref L I}
    (hd : h.container d = some l) :
    ∃ front back, front ++ back = st.elems l ∧ after l back = d := by
  cases d with
  | sentinel l₀ =>
      obtain rfl : l₀ = l := by simpa [hR.home] using hd
      exact ⟨st.elems l₀, [], List.append_nil _, rfl⟩
  | item j =>
      rw [hR.container] at hd
      obtain ⟨front, back, hsplit⟩ := List.append_of_mem ((st.mem_elems l j).mpr hd)
      exact ⟨front, j :: back, hsplit.symm, after_cons l j back⟩

/-- Only an item can be without a container. -/
theorem Represents.item_of_container (hR : Represents h st) {r : Ref L I}
    (hr : h.container r = none) : ∃ i, r = .item i ∧ st.container i = none := by
  cases r with
  | sentinel l => simp [hR.home] at hr
  | item i => exact ⟨i, rfl, (hR.container i).symm.trans hr⟩

end Facts

/-! ## Splicing a node in, and taking it out -/

variable [DecidableEq L] [DecidableEq I]

/-- The heap in which the item stands between `a` and `b` in the list `l`. -/
def Heap.splice (h : Heap L I O) (l : L) (a b : Ref L I) (i : I) : Heap L I O :=
  { h with
    next := update (update h.next (.item i) (some b)) a (some (.item i))
    prev := update (update h.prev (.item i) (some a)) b (some (.item i))
    container := update h.container (.item i) (some l)
    count := update h.count l ((h.count l + 1) % 4294967296) }

/-- The heap in which the item between `a` and `b` in the list `l` is unlinked. -/
def Heap.unlink (h : Heap L I O) (l : L) (a b : Ref L I) (i : I) : Heap L I O :=
  { h with
    next := update (update h.next a (some b)) (.item i) none
    prev := update (update h.prev b (some a)) (.item i) none
    container := update h.container (.item i) none
    count := update h.count l ((h.count l + 4294967295) % 4294967296) }

section Splice

variable {h : Heap L I O} {st : ListStore L I} {l : L} {i : I} {front back : List I}
  {a b u v : Ref L I}

/-- A splice keeps every pair of neighbours but the pair it separates. -/
theorem Linked.splice (huv : Linked h u v) (hab : Linked h a b) (hvb : v ≠ b)
    (hnext : h.next (.item i) = none) (hprev : h.prev (.item i) = none) :
    Linked (h.splice l a b i) u v := by
  have hua : u ≠ a := fun he => hvb (Option.some.inj (huv.1.symm.trans (he ▸ hab.1)))
  have hui : u ≠ .item i := fun he => by
    have := huv.1
    rw [he, hnext] at this
    simp at this
  have hvi : v ≠ .item i := fun he => by
    have := huv.2
    rw [he, hprev] at this
    simp at this
  constructor
  · simp [Heap.splice, update_of_ne hua, update_of_ne hui, huv.1]
  · simp [Heap.splice, update_of_ne hvb, update_of_ne hvi, huv.2]

omit [DecidableEq L] [DecidableEq I] in
/-- The node behind a gap is not in front of it. -/
theorem notMem_front (hdisj : ∀ a ∈ front, ∀ b ∈ back, a ≠ b) :
    after l back ∉ (Ref.sentinel l :: front.map Ref.item).tail := by
  intro hmem
  simp only [List.tail_cons, List.mem_map] at hmem
  obtain ⟨j, hj, hjb⟩ := hmem
  cases back with
  | nil => simp at hjb
  | cons k back =>
      simp only [after_cons, Ref.item.injEq] at hjb
      exact hdisj j hj k List.mem_cons_self hjb

omit [DecidableEq L] [DecidableEq I] in
/-- The node behind a gap occurs once behind it. -/
theorem notMem_back (hnd : back.Nodup) :
    after l back ∉ (back.map Ref.item ++ [Ref.sentinel l]).tail := by
  cases back with
  | nil => simp
  | cons k back =>
      have hk := (List.nodup_cons.mp hnd).1
      simp [hk]

/-- **Splicing an unlinked item into a gap is the insertion at that gap.** -/
theorem Represents.splice (hR : Represents h st) (hsplit : front ++ back = st.elems l)
    (hi : st.container i = none) :
    Represents (h.splice l (before l front) (after l back) i)
      (st.link l i front back hsplit hi) := by
  obtain ⟨hnext, hprev⟩ := hR.unlinked i hi
  have hab := hR.gap hsplit
  have ha := hR.container_before hsplit
  have hb := hR.container_after hsplit
  have hci : h.container (.item i) = none := (hR.container i).trans hi
  have hai : before l front ≠ .item i := fun he => by
    rw [he, hci] at ha
    simp at ha
  have hbi : after l back ≠ .item i := fun he => by
    rw [he, hci] at hb
    simp at hb
  have hnd := st.nodup l
  rw [← hsplit, List.nodup_append] at hnd
  refine ⟨fun l' => ?_, fun l' => ?_, fun l' => ?_, fun j => ?_, fun j hj => ?_, fun j => ?_⟩
  · by_cases hl : l' = l
    · subst hl
      have hring := hR.ring l'
      rw [← hsplit, isChain_ring_append] at hring
      obtain ⟨hfront, hback, -⟩ := hring
      -- the two parts keep their neighbours
      have hfront' : (Ref.sentinel l' :: front.map Ref.item).IsChain
          (Linked (h.splice l' (before l' front) (after l' back) i)) :=
        hfront.imp_of_mem_tail_imp fun u v _ hv huv =>
          huv.splice hab (fun he => notMem_front hnd.2.2 (he ▸ hv)) hnext hprev
      have hback' : (back.map Ref.item ++ [Ref.sentinel l']).IsChain
          (Linked (h.splice l' (before l' front) (after l' back) i)) :=
        hback.imp_of_mem_tail_imp fun u v _ hv huv =>
          huv.splice hab (fun he => notMem_back hnd.2.1 (he ▸ hv)) hnext hprev
      -- and the new node closes the gap
      have hfst : Linked (h.splice l' (before l' front) (after l' back) i)
          (before l' front) (.item i) := by
        constructor
        · simp [Heap.splice]
        · simp [Heap.splice, hbi.symm]
      have hsnd : Linked (h.splice l' (before l' front) (after l' back) i)
          (.item i) (after l' back) := by
        constructor
        · simp [Heap.splice, hai.symm]
        · simp [Heap.splice]
      rw [ListStore.link_elems, update_self, isChain_ring_append]
      refine ⟨hfront', ?_, hfst⟩
      rw [List.map_cons, List.cons_append, List.isChain_cons]
      refine ⟨fun w hw => ?_, hback'⟩
      obtain rfl : w = after l' back := by
        cases back <;> simpa using hw.symm
      exact hsnd
    · rw [ListStore.link_elems, update_of_ne hl]
      refine (hR.ring l').imp_of_mem_tail_imp fun u v _ hv huv => ?_
      refine huv.splice hab (fun he => ?_) hnext hprev
      have hcv := hR.container_of_ring (List.mem_of_mem_tail hv)
      rw [he, hb, Option.some.injEq] at hcv
      exact hl hcv.symm
  · by_cases hl : l' = l
    · subst hl
      simp only [Heap.splice, update_self, ListStore.link_elems, hR.count, ← hsplit]
      simp only [List.length_append, List.length_cons]
      omega
    · simp [Heap.splice, update_of_ne hl, hR.count]
  · simp [Heap.splice, hR.home]
  · by_cases hj : j = i
    · subst hj
      simp [Heap.splice]
    · have hne : Ref.item j ≠ (.item i : Ref L I) := by simpa using hj
      simp [Heap.splice, update_of_ne hne, update_of_ne hj, hR.container]
  · have hji : j ≠ i := fun he => by simp [he] at hj
    rw [ListStore.link_container, update_of_ne hji] at hj
    have hcj : h.container (.item j) = none := (hR.container j).trans hj
    have hne : Ref.item j ≠ (.item i : Ref L I) := by simpa using hji
    have hja : Ref.item j ≠ before l front := fun he => by
      rw [← he, hcj] at ha
      simp at ha
    have hjb : Ref.item j ≠ after l back := fun he => by
      rw [← he, hcj] at hb
      simp at hb
    simpa [Heap.splice, update_of_ne hne, update_of_ne hja, update_of_ne hjb]
      using hR.unlinked j hj
  · exact hR.value j

/-- An unlink keeps every pair of neighbours away from the item. -/
theorem Linked.unlink (huv : Linked h u v) (ha : Linked h a (.item i))
    (hb : Linked h (.item i) b) (hui : u ≠ .item i) (hvi : v ≠ .item i) :
    Linked (h.unlink l a b i) u v := by
  have hua : u ≠ a := fun he => hvi (Option.some.inj (huv.1.symm.trans (he ▸ ha.1)))
  have hvb : v ≠ b := fun he => hui (Option.some.inj (huv.2.symm.trans (he ▸ hb.2)))
  constructor
  · simp [Heap.unlink, update_of_ne hua, update_of_ne hui, huv.1]
  · simp [Heap.unlink, update_of_ne hvb, update_of_ne hvi, huv.2]

/-- **Unlinking the item between two gaps is its removal.** -/
theorem Represents.unlink (hR : Represents h st) (hsplit : front ++ i :: back = st.elems l) :
    Represents (h.unlink l (before l front) (after l back) i) (st.remove i) := by
  have ha : Linked h (before l front) (.item i) := hR.gap hsplit
  have hb : Linked h (.item i) (after l back) := by
    have hsplit' : (front ++ [i]) ++ back = st.elems l := by simpa using hsplit
    simpa using hR.gap hsplit'
  have hnd := st.nodup l
  rw [← hsplit, List.nodup_middle, List.nodup_cons, List.mem_append, not_or] at hnd
  have hil : st.container i = some l := ListStore.container_of_mem (by simp [← hsplit])
  -- no node but the item itself is the item
  have hafront : before l front ≠ .item i := by
    rcases List.eq_nil_or_concat front with rfl | ⟨xs, x, rfl⟩
    · simp
    · simp only [List.concat_eq_append, before_concat, ne_eq, Ref.item.injEq]
      rintro rfl
      exact hnd.1.1 (by simp)
  have hbback : after l back ≠ .item i := by
    cases back with
    | nil => simp
    | cons k back =>
        simp only [after_cons, ne_eq, Ref.item.injEq]
        rintro rfl
        exact hnd.1.2 List.mem_cons_self
  have hremoved : (st.remove i).elems l = front ++ back := by
    rw [ListStore.remove_elems, ← hsplit, List.erase_append_right _ hnd.1.1,
      List.erase_cons_head]
  have hother : ∀ l', l' ≠ l → (st.remove i).elems l' = st.elems l' := fun l' hl =>
    ListStore.remove_elems_of_ne (by simp [hil, Ne.symm hl])
  refine ⟨fun l' => ?_, fun l' => ?_, hR.home, fun j => ?_, fun j hj => ?_, hR.value⟩
  · by_cases hl : l' = l
    · subst hl
      have hring := hR.ring l'
      rw [← hsplit, isChain_ring_append, List.map_cons, List.cons_append] at hring
      obtain ⟨hfront, hrest, -⟩ := hring
      have hback := (List.isChain_cons.mp hrest).2
      rw [hremoved, isChain_ring_append]
      have hinfront : ∀ r ∈ Ref.sentinel l' :: front.map Ref.item, r ≠ Ref.item i := by
        rintro r hr rfl
        simp [hnd.1.1] at hr
      have hinback : ∀ r ∈ back.map Ref.item ++ [Ref.sentinel l'], r ≠ Ref.item i := by
        rintro r hr rfl
        simp [hnd.1.2] at hr
      have hfront' : (Ref.sentinel l' :: front.map Ref.item).IsChain
          (Linked (h.unlink l' (before l' front) (after l' back) i)) :=
        hfront.imp_of_mem_imp fun u v hu hv huv =>
          huv.unlink ha hb (hinfront u hu) (hinfront v hv)
      have hback' : (back.map Ref.item ++ [Ref.sentinel l']).IsChain
          (Linked (h.unlink l' (before l' front) (after l' back) i)) :=
        hback.imp_of_mem_imp fun u v hu hv huv =>
          huv.unlink ha hb (hinback u hu) (hinback v hv)
      refine ⟨hfront', hback', ?_⟩
      constructor
      · simp [Heap.unlink, update_of_ne hafront]
      · simp [Heap.unlink, update_of_ne hbback]
    · rw [hother l' hl]
      have hne : ∀ r ∈ Artos.ring l' (st.elems l'), r ≠ .item i := by
        rintro r hr rfl
        have hc := hR.container_of_ring hr
        rw [hR.container, hil, Option.some.injEq] at hc
        exact hl hc.symm
      exact (hR.ring l').imp_of_mem_imp fun u v hu hv huv =>
        huv.unlink ha hb (hne u hu) (hne v hv)
  · by_cases hl : l' = l
    · subst hl
      rw [hremoved]
      simp only [Heap.unlink, update_self, hR.count, ← hsplit, List.length_append,
        List.length_cons]
      omega
    · rw [hother l' hl]
      simp [Heap.unlink, update_of_ne hl, hR.count]
  · by_cases hj : j = i
    · subst hj
      simp [Heap.unlink]
    · have hne : Ref.item j ≠ (.item i : Ref L I) := by simpa using hj
      simp [Heap.unlink, update_of_ne hne, update_of_ne hj, hR.container]
  · by_cases hji : j = i
    · subst hji
      simp [Heap.unlink]
    · rw [ListStore.remove_container, update_of_ne hji] at hj
      have hcj : h.container (.item j) = none := (hR.container j).trans hj
      have hne : Ref.item j ≠ (.item i : Ref L I) := by simpa using hji
      have hja : Ref.item j ≠ before l front := fun he => by
        have hc := hR.container_before hsplit
        rw [← he, hcj] at hc
        simp at hc
      have hjb : Ref.item j ≠ after l back := fun he => by
        have hsplit' : (front ++ [i]) ++ back = st.elems l := by simpa using hsplit
        have hc := hR.container_after hsplit'
        rw [← he, hcj] at hc
        simp at hc
      simpa [Heap.unlink, update_of_ne hne, update_of_ne hja, update_of_ne hjb]
        using hR.unlinked j hj

/-- Writing the key of an item changes the key alone. -/
theorem Represents.setValue (hR : Represents h st) (i : I) (v : ℕ) :
    Represents (h.setValue (.item i) v) (st.setValue i v) := by
  refine ⟨hR.ring, hR.count, hR.home, hR.container, hR.unlinked, fun j => ?_⟩
  by_cases hj : j = i
  · subst hj
    simp [Heap.setValue]
  · have hne : Ref.item j ≠ (.item i : Ref L I) := by simpa using hj
    simp [Heap.setValue, update_of_ne hne, update_of_ne hj, hR.value]

end Splice

/-! ## What each function does -/

section Functions

variable {h : Heap L I O} {st : ListStore L I} {l : L} {i : I} {front back : List I}

omit [DecidableEq L] [DecidableEq I] in
/-- An item that may be linked is a free item. -/
theorem Represents.mayLink (hR : Represents h st) {item : Option (Ref L I)}
    (hm : MayLink h item) :
    ∃ i, item = some (.item i) ∧ st.container i = none ∧ h.owner (.item i) ≠ none := by
  obtain ⟨r, rfl, hr, ho⟩ := hm
  obtain ⟨i, rfl, hi⟩ := hR.item_of_container hr
  exact ⟨i, rfl, hi, ho⟩

/-- **`rtos_list_append` splices the item in behind its neighbour.** -/
theorem Represents.append (hR : Represents h st) (hsplit : front ++ back = st.elems l)
    (hi : st.container i = none) (ho : h.owner (.item i) ≠ none) :
    h.rtosListAppend (some (before l front)) (some (.item i)) =
      some (h.splice l (before l front) (after l back) i) := by
  have hab := hR.gap hsplit
  have ha := hR.container_before hsplit
  have hci : h.container (.item i) = none := (hR.container i).trans hi
  have hai : before l front ≠ .item i := fun he => by
    rw [he, hci] at ha
    simp at ha
  obtain ⟨o, ho⟩ := Option.ne_none_iff_exists'.mp ho
  simp [Heap.rtosListAppend, hci, ho, ha, hab.1, hab.2, Heap.setNext, Heap.setPrev,
    Heap.setContainer, Heap.incCount, update_of_ne hai, Heap.splice,
    update_comm hai.symm]

/-- **`rtos_list_prepend` splices the item in before its neighbour.** -/
theorem Represents.prepend (hR : Represents h st) (hsplit : front ++ back = st.elems l)
    (hi : st.container i = none) (ho : h.owner (.item i) ≠ none) :
    h.rtosListPrepend (some (after l back)) (some (.item i)) =
      some (h.splice l (before l front) (after l back) i) := by
  have hab := hR.gap hsplit
  have hb := hR.container_after hsplit
  have hci : h.container (.item i) = none := (hR.container i).trans hi
  have hbi : after l back ≠ .item i := fun he => by
    rw [he, hci] at hb
    simp at hb
  obtain ⟨o, ho⟩ := Option.ne_none_iff_exists'.mp ho
  simp [Heap.rtosListPrepend, hci, ho, hb, hab.1, hab.2, Heap.setNext, Heap.setPrev,
    Heap.setContainer, Heap.incCount, update_of_ne hbi, Heap.splice,
    update_comm hbi.symm]

/-- **`rtos_list_remove` unlinks the item.** -/
theorem Represents.removeItem (hR : Represents h st)
    (hsplit : front ++ i :: back = st.elems l) (hc : h.count l > 0) :
    h.rtosListRemove (some (.item i)) =
      some (h.unlink l (before l front) (after l back) i) := by
  have ha : Linked h (before l front) (.item i) := hR.gap hsplit
  have hb : Linked h (.item i) (after l back) := by
    have hsplit' : (front ++ [i]) ++ back = st.elems l := by simpa using hsplit
    simpa using hR.gap hsplit'
  have hil : h.container (.item i) = some l := by
    rw [hR.container]
    exact ListStore.container_of_mem (by simp [← hsplit])
  simp [Heap.rtosListRemove, hil, hb.1, ha.2, hb.2, ha.1, hc, Heap.setNext, Heap.setPrev,
    Heap.setContainer, Heap.decCount, Heap.unlink]

end Functions

/-! ## The searches -/

section Searches

variable {h : Heap L I O} {st : ListStore L I} {l : L} {i : I}

/-- The search of `rtos_list_insert_sorted` walks over the items that stay in front. -/
theorem Represents.scanSorted_from (hR : Represents h st) {xs : List I} :
    ∀ {pre : List I}, pre ++ xs = st.elems l → ∀ {n : ℕ}, xs.length ≤ n →
      whileLoop
        (fun current => current.any fun r =>
          decide (r ≠ .sentinel l ∧ h.value r ≤ h.value (.item i)))
        (fun current => current.bind h.next) n (some (after l xs)) =
      some (some (after l (xs.dropWhile fun j => st.value j ≤ st.value i))) := by
  induction xs with
  | nil =>
      intro pre _ n _
      exact whileLoop_of_not (by simp) n
  | cons x xs ih =>
      intro pre hsplit n hn
      obtain ⟨n, rfl⟩ : ∃ m, n = m + 1 := ⟨n - 1, by simp at hn; omega⟩
      have hsplit' : (pre ++ [x]) ++ xs = st.elems l := by simpa using hsplit
      have hnext : h.next (.item x) = some (after l xs) := by
        simpa using (hR.gap hsplit').1
      by_cases hx : st.value x ≤ st.value i
      · rw [whileLoop_succ (by simp [hR.value, hx])]
        simp only [after_cons, Option.bind_some, hnext, List.dropWhile_cons, hx, decide_true,
          if_true]
        exact ih hsplit' (by simpa using hn)
      · rw [whileLoop_of_not (by simp [hR.value]; omega)]
        simp [hx]

/-- **The search of `rtos_list_insert_sorted` returns**, in front of the first larger key. -/
theorem Represents.scanSorted (hR : Represents h st) {n : ℕ}
    (hn : (st.elems l).length ≤ n) :
    h.scanSorted l (.item i) n =
      some (some (after l ((st.elems l).dropWhile fun j => st.value j ≤ st.value i))) := by
  unfold Heap.scanSorted
  have hfirst : h.next (.sentinel l) = some (after l (st.elems l)) :=
    (hR.gap (List.nil_append (st.elems l))).1
  rw [hfirst]
  exact hR.scanSorted_from (List.nil_append _) hn

/-- The search of `rtos_list_insert_reversed_sorted` walks over the items that stay behind. -/
theorem Represents.scanReversedSorted_from (hR : Represents h st) {xs : List I} :
    ∀ {post : List I}, xs ++ post = st.elems l → ∀ {n : ℕ}, xs.length ≤ n →
      whileLoop
        (fun current => current.any fun r =>
          decide (r ≠ .sentinel l ∧ h.value (.item i) > h.value r))
        (fun current => current.bind h.prev) n (some (before l xs)) =
      some (some (before l (xs.rdropWhile fun j => st.value j < st.value i))) := by
  induction xs using List.reverseRecOn with
  | nil =>
      intro post _ n _
      exact whileLoop_of_not (by simp) n
  | append_singleton xs x ih =>
      intro post hsplit n hn
      obtain ⟨n, rfl⟩ : ∃ m, n = m + 1 := ⟨n - 1, by simp at hn; omega⟩
      have hsplit' : xs ++ x :: post = st.elems l := by simpa using hsplit
      have hprev : h.prev (.item x) = some (before l xs) := by
        simpa using (hR.gap hsplit').2
      by_cases hx : st.value x < st.value i
      · rw [whileLoop_succ (by simp [hR.value, hx])]
        simp only [before_concat, Option.bind_some, hprev]
        rw [List.rdropWhile_concat_pos _ _ _ (by simpa using hx)]
        exact ih hsplit' (by simpa using hn)
      · rw [whileLoop_of_not (by simp [hR.value]; omega),
          List.rdropWhile_concat_neg _ _ _ (by simpa using hx)]

/-- **The search of `rtos_list_insert_reversed_sorted` returns**, behind the last key that
is not smaller. -/
theorem Represents.scanReversedSorted (hR : Represents h st) {n : ℕ}
    (hn : (st.elems l).length ≤ n) :
    h.scanReversedSorted l (.item i) n =
      some (some (before l ((st.elems l).rdropWhile fun j => st.value j < st.value i))) := by
  unfold Heap.scanReversedSorted
  have hlast : h.prev (.sentinel l) = some (before l (st.elems l)) :=
    (hR.gap (List.append_nil (st.elems l))).2
  rw [hlast]
  exact hR.scanReversedSorted_from (List.append_nil _) hn

end Searches

/-! ## Calls on sequences -/

/-- What a call does to the sequences. -/
inductive Effect (st : ListStore L I) : ListCall L I → ListStore L I → Prop
  | append {l : L} {i : I} {front back : List I} (hsplit : front ++ back = st.elems l)
      (hi : st.container i = none) :
      Effect st (.append (some (before l front)) (some (.item i)))
        (st.link l i front back hsplit hi)
  | prepend {l : L} {i : I} {front back : List I} (hsplit : front ++ back = st.elems l)
      (hi : st.container i = none) :
      Effect st (.prepend (some (after l back)) (some (.item i)))
        (st.link l i front back hsplit hi)
  | remove {l : L} {i : I} (hi : st.container i = some l) :
      Effect st (.remove (some (.item i))) (st.remove i)
  | insertEnd {l : L} {i : I} (hi : st.container i = none) :
      Effect st (.insertEnd (some l) (some (.item i))) (st.insertEnd l i)
  | insertSorted {l : L} {i : I} (hi : st.container i = none) :
      Effect st (.insertSorted (some l) (some (.item i))) (st.insertSorted l i)
  | insertReversedSorted {l : L} {i : I} (hi : st.container i = none) :
      Effect st (.insertReversedSorted (some l) (some (.item i)))
        (st.insertReversedSorted l i)
  | insertEndNull {item : Option (Ref L I)} : Effect st (.insertEnd none item) st
  | insertSortedNull {item : Option (Ref L I)} : Effect st (.insertSorted none item) st
  | insertReversedSortedNull {item : Option (Ref L I)} :
      Effect st (.insertReversedSorted none item) st
  | setValue {i : I} {v : ℕ} : Effect st (.setValue i v) (st.setValue i v)

/-- What a call leaves alone: every owner, the keys if it is a call of a list function,
and the nodes and the count of every list but its target. -/
structure Frame (h : Heap L I O) (c : ListCall L I) (h' : Heap L I O) : Prop where
  owner : h'.owner = h.owner
  value : (∀ i v, c ≠ .setValue i v) → h'.value = h.value
  nodes : ∀ l r, h.container r = some l → c.target h ≠ some l →
    h'.next r = h.next r ∧ h'.prev r = h.prev r ∧ h'.container r = some l
  count : ∀ l, c.target h ≠ some l → h'.count l = h.count l

section Calls

variable {h : Heap L I O} {st : ListStore L I} {l : L} {i : I} {front back : List I}
  {c : ListCall L I}

/-- A splice changes no node of another list. -/
theorem Represents.frame_splice (hR : Represents h st)
    (hsplit : front ++ back = st.elems l) (hi : st.container i = none)
    (hc : c.target h = some l) :
    Frame h c (h.splice l (before l front) (after l back) i) := by
  have ha := hR.container_before hsplit
  have hb := hR.container_after hsplit
  have hci : h.container (.item i) = none := (hR.container i).trans hi
  refine ⟨rfl, fun _ => rfl, fun l' r hr hl => ?_, fun l' hl => ?_⟩
  · rw [hc, ne_eq, Option.some.injEq] at hl
    have hra : r ≠ before l front := fun he => by simp_all
    have hrb : r ≠ after l back := fun he => by simp_all
    have hri : r ≠ .item i := fun he => by simp_all
    simp [Heap.splice, update_of_ne hra, update_of_ne hrb, update_of_ne hri, hr]
  · rw [hc, ne_eq, Option.some.injEq] at hl
    simp [Heap.splice, update_of_ne (Ne.symm hl)]

/-- An unlink changes no node of another list. -/
theorem Represents.frame_unlink (hR : Represents h st)
    (hsplit : front ++ i :: back = st.elems l) (hc : c.target h = some l) :
    Frame h c (h.unlink l (before l front) (after l back) i) := by
  have ha := hR.container_before hsplit
  have hb : h.container (after l back) = some l := by
    have hsplit' : (front ++ [i]) ++ back = st.elems l := by simpa using hsplit
    exact hR.container_after hsplit'
  have hci : h.container (.item i) = some l := by
    rw [hR.container]
    exact ListStore.container_of_mem (by simp [← hsplit])
  refine ⟨rfl, fun _ => rfl, fun l' r hr hl => ?_, fun l' hl => ?_⟩
  · rw [hc, ne_eq, Option.some.injEq] at hl
    have hra : r ≠ before l front := fun he => by simp_all
    have hrb : r ≠ after l back := fun he => by simp_all
    have hri : r ≠ .item i := fun he => by simp_all
    simp [Heap.unlink, update_of_ne hra, update_of_ne hrb, update_of_ne hri, hr]
  · rw [hc, ne_eq, Option.some.injEq] at hl
    simp [Heap.unlink, update_of_ne (Ne.symm hl)]

omit [DecidableEq L] [DecidableEq I] in
/-- A call that changes nothing leaves everything alone. -/
theorem Frame.refl (h : Heap L I O) (c : ListCall L I) : Frame h c h :=
  ⟨rfl, fun _ => rfl, fun _ _ hr _ => ⟨rfl, rfl, hr⟩, fun _ _ => rfl⟩

/-- **The step lemma.**  A call that meets the assertions it begins with returns, with one
result for every large enough budget; the result represents what the call does to the
sequences, and nothing else has changed. -/
theorem Represents.call (hR : Represents h st) (ha : Asserted h c) :
    ∃ h' st', (∃ n, ∀ m, n ≤ m → c.run m h = some h') ∧ Effect st c st' ∧
      Represents h' st' ∧ Frame h c h' := by
  cases c with
  | append dst item =>
      obtain ⟨hm, d, next, rfl, hd, -, -⟩ := ha
      obtain ⟨i, rfl, hi, ho⟩ := hR.mayLink hm
      obtain ⟨l, hd⟩ := Option.ne_none_iff_exists'.mp hd
      obtain ⟨front, back, hsplit, rfl⟩ := hR.gap_behind hd
      exact ⟨_, _, ⟨0, fun m _ => hR.append hsplit hi ho⟩, .append hsplit hi,
        hR.splice hsplit hi, hR.frame_splice hsplit hi hd⟩
  | prepend dst item =>
      obtain ⟨hm, d, prev, rfl, hd, -, -⟩ := ha
      obtain ⟨i, rfl, hi, ho⟩ := hR.mayLink hm
      obtain ⟨l, hd⟩ := Option.ne_none_iff_exists'.mp hd
      obtain ⟨front, back, hsplit, rfl⟩ := hR.gap_front hd
      exact ⟨_, _, ⟨0, fun m _ => hR.prepend hsplit hi ho⟩, .prepend hsplit hi,
        hR.splice hsplit hi, hR.frame_splice hsplit hi hd⟩
  | remove item =>
      obtain ⟨r, l, next, prev, rfl, hl, -, -, -, -, hcount, hr⟩ := ha
      cases r with
      | sentinel l' =>
          obtain rfl : l' = l := by simpa [hR.home] using hl
          exact absurd rfl hr
      | item i =>
          have hi : st.container i = some l := (hR.container i).symm.trans hl
          obtain ⟨front, back, hsplit⟩ := List.append_of_mem ((st.mem_elems l i).mpr hi)
          exact ⟨_, _, ⟨0, fun m _ => hR.removeItem hsplit.symm hcount⟩, .remove hi,
            hR.unlink hsplit.symm, hR.frame_unlink hsplit.symm hl⟩
  | insertEnd list item =>
      cases list with
      | none => exact ⟨h, st, ⟨0, fun _ _ => rfl⟩, .insertEndNull, hR, Frame.refl h _⟩
      | some l =>
          obtain ⟨hm, -⟩ := ha l rfl
          obtain ⟨i, rfl, hi, ho⟩ := hR.mayLink hm
          have hsplit := List.append_nil (st.elems l)
          refine ⟨_, _, ⟨0, fun m _ => hR.prepend hsplit hi ho⟩, .insertEnd hi, ?_,
            hR.frame_splice hsplit hi rfl⟩
          rw [ListStore.insertEnd_eq hi]
          exact hR.splice hsplit hi
  | insertSorted list item =>
      obtain ⟨i, rfl, hi, ho⟩ := hR.mayLink ha
      have hci : h.container (.item i) = none := (hR.container i).trans hi
      obtain ⟨o, hso⟩ := Option.ne_none_iff_exists'.mp ho
      cases list with
      | none =>
          refine ⟨h, st, ⟨0, fun m _ => ?_⟩, .insertSortedNull, hR, Frame.refl h _⟩
          simp [ListCall.run, Heap.rtosListInsertSorted, hci, hso]
      | some l =>
          have hsplit : _ ++ _ = st.elems l := List.takeWhile_append_dropWhile
            (p := fun j => decide (st.value j ≤ st.value i))
          have hends := hR.gap (List.nil_append (st.elems l))
          have hends' := hR.gap (List.append_nil (st.elems l))
          refine ⟨_, _, ⟨(st.elems l).length, fun m hm => ?_⟩, .insertSorted hi, ?_,
            hR.frame_splice hsplit hi rfl⟩
          · simp only [before_nil] at hends
            simp only [after_nil] at hends'
            simp [ListCall.run, Heap.rtosListInsertSorted, hci, hso, hends.1, hends'.2,
              hR.scanSorted hm, hR.prepend hsplit hi ho]
          · rw [ListStore.insertSorted_eq hi]
            exact hR.splice hsplit hi
  | insertReversedSorted list item =>
      obtain ⟨i, rfl, hi, ho⟩ := hR.mayLink ha
      have hci : h.container (.item i) = none := (hR.container i).trans hi
      obtain ⟨o, hso⟩ := Option.ne_none_iff_exists'.mp ho
      cases list with
      | none =>
          refine ⟨h, st, ⟨0, fun m _ => ?_⟩, .insertReversedSortedNull, hR, Frame.refl h _⟩
          simp [ListCall.run, Heap.rtosListInsertReversedSorted, hci, hso]
      | some l =>
          have hsplit : _ ++ _ = st.elems l := List.rdropWhile_append_rtakeWhile
            (p := fun j => decide (st.value j < st.value i))
          have hends := hR.gap (List.nil_append (st.elems l))
          have hends' := hR.gap (List.append_nil (st.elems l))
          refine ⟨_, _, ⟨(st.elems l).length, fun m hm => ?_⟩, .insertReversedSorted hi, ?_,
            hR.frame_splice hsplit hi rfl⟩
          · simp only [before_nil] at hends
            simp only [after_nil] at hends'
            simp [ListCall.run, Heap.rtosListInsertReversedSorted, hci, hso, hends.1,
              hends'.2, hR.scanReversedSorted hm, hR.append hsplit hi ho]
          · rw [ListStore.insertReversedSorted_eq hi]
            exact hR.splice hsplit hi
  | setValue i v =>
      refine ⟨_, _, ⟨0, fun _ _ => rfl⟩, .setValue, hR.setValue i v,
        ⟨rfl, fun hc => absurd rfl (hc i v), fun _ _ hr _ => ⟨rfl, rfl, hr⟩, fun _ _ => rfl⟩⟩

end Calls

end Artos
