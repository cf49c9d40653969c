/-
# The intrusive lists of `list.c`

The nodes of all lists as one heap: a node is the sentinel of a list or an item,
and the heap gives the fields of every node and the count of every list.  Nothing
ties the fields together; what they mean is the subject of `ListRefines`.

A pointer is an `Option`, with `none` for `NULL`.  A function returns `none` when
one of its assertions fails or it reads through `NULL`, where the device halts.
The two searches are loops with a step budget.
-/
import Artos.Loops

open Function

namespace Artos

/-! ## Nodes and heaps -/

/-- The `rtos_list_item_t`s in memory: the sentinel of a list, or an item. -/
inductive Ref (L I : Type) where
  | sentinel (l : L)
  | item (i : I)
  deriving DecidableEq

/-- The fields of every `rtos_list_item_t`, and the `count` of every
`rtos_list_t`. -/
structure Heap (L I O : Type) where
  value : Ref L I → ℕ
  prev : Ref L I → Option (Ref L I)
  next : Ref L I → Option (Ref L I)
  owner : Ref L I → Option O
  container : Ref L I → Option L
  count : L → ℕ

namespace Heap

variable {L I O : Type} [DecidableEq L] [DecidableEq I]

/-- The assignment `r->next = p`. -/
def setNext (h : Heap L I O) (r : Ref L I) (p : Option (Ref L I)) : Heap L I O :=
  { h with next := update h.next r p }

/-- The assignment `r->prev = p`. -/
def setPrev (h : Heap L I O) (r : Ref L I) (p : Option (Ref L I)) : Heap L I O :=
  { h with prev := update h.prev r p }

/-- The assignment `r->container = c`. -/
def setContainer (h : Heap L I O) (r : Ref L I) (c : Option L) : Heap L I O :=
  { h with container := update h.container r c }

/-- The assignment `r->value = v`. -/
def setValue (h : Heap L I O) (r : Ref L I) (v : ℕ) : Heap L I O :=
  { h with value := update h.value r v }

/-- The statement `r->container->count++`. -/
def incCount (h : Heap L I O) (r : Ref L I) : Option (Heap L I O) := do
  let c ← h.container r
  return { h with count := update h.count c ((h.count c + 1) % 4294967296) }

/-- The statement `r->container->count--`. -/
def decCount (h : Heap L I O) (r : Ref L I) : Option (Heap L I O) := do
  let c ← h.container r
  return { h with count := update h.count c ((h.count c + 4294967295) % 4294967296) }

/-! ## Initialisation -/

/-- `rtos_init_list`. -/
def rtosInitList (h : Heap L I O) (list : Option L) : Heap L I O :=
  match list with
  | none => h
  | some l =>
    { value := update h.value (.sentinel l) 0
      prev := update h.prev (.sentinel l) (some (.sentinel l))
      next := update h.next (.sentinel l) (some (.sentinel l))
      owner := update h.owner (.sentinel l) none
      container := update h.container (.sentinel l) (some l)
      count := update h.count l 0 }

/-- `rtos_init_list_item`. -/
def rtosInitListItem (h : Heap L I O) (item : Option (Ref L I)) (owner : Option O) :
    Heap L I O :=
  match item, owner with
  | some r, some o =>
    { h with
      value := update h.value r 0
      prev := update h.prev r none
      next := update h.next r none
      owner := update h.owner r (some o)
      container := update h.container r none }
  | _, _ => h

/-! ## Linking and unlinking -/

/-- `rtos_list_append`. -/
def rtosListAppend (h : Heap L I O) (dst item : Option (Ref L I)) : Option (Heap L I O) := do
  let item ← item
  guard (h.container item).isNone
  guard (h.owner item).isSome
  let dst ← dst
  guard (h.container dst).isSome
  let next ← h.next dst
  guard (h.prev next = some dst)
  if (h.container dst).isNone ∨ (h.container item).isSome then
    return h
  let h := h.setNext dst (some item)
  let h := h.setPrev item (some dst)
  let h := h.setNext item (some next)
  let h := h.setPrev next (some item)
  let h := h.setContainer item (h.container dst)
  h.incCount dst

/-- `rtos_list_prepend`. -/
def rtosListPrepend (h : Heap L I O) (dst item : Option (Ref L I)) : Option (Heap L I O) := do
  let item ← item
  guard (h.container item).isNone
  guard (h.owner item).isSome
  let dst ← dst
  guard (h.container dst).isSome
  let prev ← h.prev dst
  guard (h.next prev = some dst)
  if (h.container dst).isNone ∨ (h.container item).isSome then
    return h
  let h := h.setPrev dst (some item)
  let h := h.setNext item (some dst)
  let h := h.setPrev item (some prev)
  let h := h.setNext prev (some item)
  let h := h.setContainer item (h.container dst)
  h.incCount dst

/-- `rtos_list_remove`. -/
def rtosListRemove (h : Heap L I O) (item : Option (Ref L I)) : Option (Heap L I O) := do
  let item ← item
  let container ← h.container item
  let next ← h.next item
  let prev ← h.prev item
  guard (h.prev next = some item)
  guard (h.next prev = some item)
  guard (h.count container > 0)
  guard (Ref.sentinel container ≠ item)
  if (h.container item).isNone ∨ (h.next item).isNone ∨ (h.prev item).isNone ∨
      Ref.sentinel container = item then
    return h
  let h := h.setNext prev (some next)
  let h := h.setPrev next (some prev)
  let h ← h.decCount item
  let h := h.setContainer item none
  let h := h.setNext item none
  return h.setPrev item none

/-- `rtos_list_insert_end`. -/
def rtosListInsertEnd (h : Heap L I O) (list : Option L) (item : Option (Ref L I)) :
    Option (Heap L I O) :=
  match list with
  | none => some h
  | some l => h.rtosListPrepend (some (.sentinel l)) item

/-! ## Sorted insertion -/

/-- The search loop of `rtos_list_insert_sorted`. -/
def scanSorted (h : Heap L I O) (l : L) (item : Ref L I) (budget : ℕ) :
    Option (Option (Ref L I)) :=
  whileLoop
    (fun current => current.any fun r =>
      decide (r ≠ .sentinel l ∧ h.value r ≤ h.value item))
    (fun current => current.bind h.next) budget (h.next (.sentinel l))

/-- The search loop of `rtos_list_insert_reversed_sorted`. -/
def scanReversedSorted (h : Heap L I O) (l : L) (item : Ref L I) (budget : ℕ) :
    Option (Option (Ref L I)) :=
  whileLoop
    (fun current => current.any fun r =>
      decide (r ≠ .sentinel l ∧ h.value item > h.value r))
    (fun current => current.bind h.prev) budget (h.prev (.sentinel l))

/-- `rtos_list_insert_sorted`.  A search that runs into `NULL` ends in the failed
assertion of `rtos_list_prepend`, where the C code reads through `NULL`. -/
def rtosListInsertSorted (budget : ℕ) (h : Heap L I O) (list : Option L)
    (item : Option (Ref L I)) : Option (Heap L I O) := do
  let item ← item
  guard (h.container item).isNone
  guard (h.owner item).isSome
  match list with
  | none => return h
  | some l =>
    if (h.next (.sentinel l)).isNone ∨ (h.prev (.sentinel l)).isNone ∨
        (h.container item).isSome then
      return h
    let current ← h.scanSorted l item budget
    h.rtosListPrepend current (some item)

/-- `rtos_list_insert_reversed_sorted`. -/
def rtosListInsertReversedSorted (budget : ℕ) (h : Heap L I O) (list : Option L)
    (item : Option (Ref L I)) : Option (Heap L I O) := do
  let item ← item
  guard (h.container item).isNone
  guard (h.owner item).isSome
  match list with
  | none => return h
  | some l =>
    if (h.next (.sentinel l)).isNone ∨ (h.prev (.sentinel l)).isNone ∨
        (h.container item).isSome then
      return h
    let current ← h.scanReversedSorted l item budget
    h.rtosListAppend current (some item)

end Heap

/-! ## Calls -/

/-- The calls of the list functions, and a caller's assignment `item->value = v`. -/
inductive ListCall (L I : Type) where
  | append (dst item : Option (Ref L I))
  | prepend (dst item : Option (Ref L I))
  | remove (item : Option (Ref L I))
  | insertEnd (list : Option L) (item : Option (Ref L I))
  | insertSorted (list : Option L) (item : Option (Ref L I))
  | insertReversedSorted (list : Option L) (item : Option (Ref L I))
  | setValue (i : I) (v : ℕ)

namespace ListCall

variable {L I O : Type} [DecidableEq L] [DecidableEq I]

/-- Make the call, with a budget for the rounds of its search. -/
def run (budget : ℕ) (h : Heap L I O) : ListCall L I → Option (Heap L I O)
  | append dst item => h.rtosListAppend dst item
  | prepend dst item => h.rtosListPrepend dst item
  | remove item => h.rtosListRemove item
  | insertEnd list item => h.rtosListInsertEnd list item
  | insertSorted list item => h.rtosListInsertSorted budget list item
  | insertReversedSorted list item => h.rtosListInsertReversedSorted budget list item
  | setValue i v => some (h.setValue (.item i) v)

/-- The list that the call is to change. -/
def target (h : Heap L I O) : ListCall L I → Option L
  | append dst _ => dst.bind h.container
  | prepend dst _ => dst.bind h.container
  | remove item => item.bind h.container
  | insertEnd list _ => list
  | insertSorted list _ => list
  | insertReversedSorted list _ => list
  | setValue _ _ => none

end ListCall

section Assertions

variable {L I O : Type}

/-- The assertions on an item to be linked: it is not `NULL`, has no container and
has an owner. -/
def MayLink (h : Heap L I O) (item : Option (Ref L I)) : Prop :=
  ∃ r, item = some r ∧ h.container r = none ∧ h.owner r ≠ none

/-- The assertions with which each function begins.  `rtos_list_insert_end` has none
of its own and hands its arguments to `rtos_list_prepend`. -/
def Asserted (h : Heap L I O) : ListCall L I → Prop
  | .append dst item => MayLink h item ∧ ∃ d next, dst = some d ∧ h.container d ≠ none ∧
      h.next d = some next ∧ h.prev next = some d
  | .prepend dst item => MayLink h item ∧ ∃ d prev, dst = some d ∧ h.container d ≠ none ∧
      h.prev d = some prev ∧ h.next prev = some d
  | .remove item => ∃ r c next prev, item = some r ∧ h.container r = some c ∧
      h.next r = some next ∧ h.prev r = some prev ∧ h.prev next = some r ∧
      h.next prev = some r ∧ h.count c > 0 ∧ Ref.sentinel c ≠ r
  | .insertEnd list item => ∀ l, list = some l → MayLink h item ∧ ∃ prev,
      h.container (.sentinel l) ≠ none ∧ h.prev (.sentinel l) = some prev ∧
      h.next prev = some (.sentinel l)
  | .insertSorted _ item => MayLink h item
  | .insertReversedSorted _ item => MayLink h item
  | .setValue _ _ => True

end Assertions

/-- The call returns, with the given heap. -/
def Returns {L I O : Type} [DecidableEq L] [DecidableEq I] (h : Heap L I O)
    (c : ListCall L I) (h' : Heap L I O) : Prop :=
  ∃ budget, c.run budget h = some h'

end Artos
