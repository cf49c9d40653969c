/-
# Register contexts over runs of switches

The processor next to the scheduler: `Machine` holds the registers and the memory,
the scheduler's variables, and for every task that is not running the context that
its stack holds (`Context`, a history variable: no step reads it but to say which
words nobody else writes).

A switch is one step: exception entry with a basic or an extended frame, the
instructions of `PendSV_Handler` around `rtos_scheduler_switch_context`, exception
return.  Between switches the running task, handlers and the kernel may change every
register and every word that is not part of a saved frame, and everything of the
scheduler but the current task and the stacks (`KeepsStacks`).

* `context_round_trip` : every switch restores what was live when the task was last
  switched out, and the first resumption of a task starts it at its entry.
-/
import Artos.Invariant
import Artos.Port

open Cortex Function Runs

namespace Artos

/-! ## Stacks -/

/-- `ARTOS_STACK_FILL_PATTERN`. -/
def artosStackFillPattern : Word := 0xA5A5A5A5#32

/-- The stack of a task in memory: it has the least number of words, and lies below the
System region of the address space. -/
structure StackAt (stack wordCount : ℕ) : Prop where
  pos : 0 < stack
  words : artosMinStackWords ≤ wordCount
  top_le : stack + stackWordBytes * wordCount ≤ 0xE0000000

/-- Two stacks do not overlap. -/
def Apart (stack wordCount : ℕ) (c : Tcb) : Prop :=
  stack + stackWordBytes * wordCount ≤ c.stackBuffer ∨
    c.stackBuffer + stackWordBytes * c.stackWordCount ≤ stack

/-- The stack pointer points into the stack or at its top. -/
def InStack (c : Tcb) (sp : Word) : Prop :=
  c.stackBuffer ≤ sp.toNat ∧ sp.toNat ≤ c.stackBuffer + stackWordBytes * c.stackWordCount

/-- The memory after `rtos_init_tcb` has filled a stack and built its first frame. -/
def initStack (trap : Word) (mem : Word → Word) (stack : Word) (wordCount : ℕ)
    (entry argument : Word) : Word → Word :=
  let mem := writeBlock mem (slot stack artosStackGuardWords)
    (List.replicate (wordCount - artosStackGuardWords) artosStackFillPattern)
  let mem := writeBlock mem stack
    (List.replicate artosStackGuardWords (BitVec.ofNat 32 artosStackGuardPattern))
  (Port.rtosPortInitializeStack trap mem (slot stack wordCount) entry argument).1

/-- The task has been created. -/
def Created (k : Sched) (t : Tid) : Prop := (k.tcb t).stackPointer ≠ 0

/-- The stack pointer in the control block of a task. -/
def savedSp (k : Sched) (t : Tid) : Word := BitVec.ofNat 32 (k.tcb t).stackPointer

/-- Nothing about the current task or the stacks has changed. -/
structure KeepsStacks (k k' : Sched) : Prop where
  curTask : k'.curTask = k.curTask
  stackPointer : ∀ t, (k'.tcb t).stackPointer = (k.tcb t).stackPointer
  stackBuffer : ∀ t, (k'.tcb t).stackBuffer = (k.tcb t).stackBuffer
  stackWordCount : ∀ t, (k'.tcb t).stackWordCount = (k.tcb t).stackWordCount

/-! ## The machine -/

/-- The context of a task that is not running. -/
inductive Context where
  /-- Created, and never resumed. -/
  | fresh (entry argument top : Word)
  /-- Switched out: the live part, the words stacked by the processor, and the process
  stack pointer before the exception. -/
  | parked (live : Live) (frame : List Word) (psp : Word)

/-- The words that the stack of such a task holds, from its saved stack pointer up. -/
def Context.words (trap : Word) : Context → List Word
  | fresh entry argument _ => (initialWords trap entry argument).reverse
  | parked live frame _ => live.words ++ frame

/-- The processor and the scheduler. -/
structure Machine where
  sched : Sched
  core : Core
  /-- The contexts of the created tasks that are not running (history). -/
  context : Tid → Option Context

/-- The step labels. -/
inductive PortEvent where
  | create (t : Tid) (entry argument top : Word)
  | other
  /-- The first task is resumed by `SVC_Handler`, with the given registers. -/
  | start (t : Tid) (c : Core)
  /-- The task `cur` is switched out by `PendSV_Handler` with the given live part and
  process stack pointer, and the task `next` is resumed: the live part restored by the
  handler, and the registers after its return. -/
  | switch (cur : Tid) (live : Live) (psp : Word) (next : Tid) (restored : Live) (c : Core)

namespace Machine

/-- The words of memory are those of the machine on every saved frame. -/
def Spares (trap : Word) (m : Machine) (mem : Word → Word) : Prop :=
  ∀ t x, m.context t = some x → ∀ i, i < (x.words trap).length →
    mem (slot (savedSp m.sched t) i) = m.core.mem (slot (savedSp m.sched t) i)

/-- Before any task is created. -/
structure Initial (m : Machine) : Prop where
  sched : ∀ t, ¬ Created m.sched t
  curTask : m.sched.curTask = none
  context : ∀ t, m.context t = none

/-- The machine in which the current task has been saved, with its exception taken on a
frame of the given kind, the scheduler being in the given state. -/
def parked (m : Machine) (cur : Tid) (extended : Bool) (k : Sched) : Machine where
  sched := k
  core := pendSVSave (m.core.exceptionEntry .threadProcess extended)
  context := update m.context cur
    (some (.parked (Live.of (m.core.exceptionEntry .threadProcess extended))
      (m.core.frame (m.core.psp.getLsbD 2) extended) m.core.psp))

end Machine

/-- The lowest words of the stack of a task. -/
def lowWords (mem : Word → Word) (c : Tcb) (i : ℕ) : ℕ :=
  (mem (BitVec.ofNat 32 (c.stackBuffer + stackWordBytes * i))).toNat

/-- **One step of the machine.** -/
inductive PortStep (cfg : Config) (trap : Word) (m : Machine) : PortEvent → Machine → Prop
  /-- A task is created on a stack of its own. -/
  | create {t : Tid} {entry argument stack : Word} {wordCount priority : ℕ} {k : Sched}
      (hnew : ¬ Created m.sched t) (hcur : m.sched.curTask ≠ some t)
      (hstack : StackAt stack.toNat wordCount)
      (hapart : ∀ u, Created m.sched u → Apart stack.toNat wordCount (m.sched.tcb u))
      (hk : KeepsStacks (m.sched.rtosInitTcb t entry.toNat argument.toNat stack.toNat wordCount
        priority) k) :
      PortStep cfg trap m (.create t entry argument (slot stack wordCount))
        { sched := k
          core := { m.core with
            mem := initStack trap m.core.mem stack wordCount entry argument }
          context := update m.context t
            (some (.fresh entry argument (slot stack wordCount))) }
  /-- Anything else that runs between two switches. -/
  | other {k : Sched} {c : Core} (hk : KeepsStacks m.sched k) (hmem : m.Spares trap c.mem) :
      PortStep cfg trap m .other { m with sched := k, core := c }
  /-- `artos_start`: the process stack pointer is set, and `svc` taken on the main stack. -/
  | start {t : Tid} {k : Sched} {c : Core} {extended : Bool} (hboot : m.sched.curTask = none)
      (hk : m.sched.rtosSchedulerStart cfg = (k, some t)) (hsp : Created k t)
      (hpsp : c.psp = savedSp k t)
      (hmem : m.Spares trap (c.exceptionEntry .threadMain extended).mem) :
      PortStep cfg trap m
        (.start t (svcHandler (c.exceptionEntry .threadMain extended)).exceptionReturn)
        { sched := k
          core := (svcHandler (c.exceptionEntry .threadMain extended)).exceptionReturn
          context := update m.context t none }
  /-- PendSV is taken while a task runs on its own stack, and the call of
  `rtos_scheduler_switch_context` returns a stack pointer. -/
  | switch {cur next : Tid} {extended : Bool} {k : Sched} {sp : ℕ} {c : Core}
      (hcur : m.sched.curTask = some cur) (hpsp : InStack (m.sched.tcb cur) m.core.psp)
      (hk : m.sched.rtosSchedulerSwitchContext cfg (m.parked cur extended k).core.r0.toNat
        (lowWords (m.parked cur extended k).core.mem (m.sched.tcb cur)) = (k, sp))
      (hsp : sp ≠ 0) (hnext : k.curTask = some next)
      (hr0 : c.r0 = BitVec.ofNat 32 sp) (hmem : (m.parked cur extended k).Spares trap c.mem) :
      PortStep cfg trap m
        (.switch cur (Live.of (m.core.exceptionEntry .threadProcess extended)) m.core.psp next
          (Live.of (pendSVRestore c)) (pendSVRestore c).exceptionReturn)
        { sched := k
          core := (pendSVRestore c).exceptionReturn
          context := update (m.parked cur extended k).context next none }

/-! ## What is to be restored -/

/-- What the event saves of the task, if it switches it out. -/
def PortEvent.parks (t : Tid) : PortEvent → Option (Live × Word)
  | switch cur live psp _ _ _ => if cur = t then some (live, psp) else none
  | _ => none

/-- What was live of the task, and its process stack pointer, when it was last switched
out. -/
def lastOut (tr : List PortEvent) (t : Tid) : Option (Live × Word) :=
  tr.reverse.findSome? fun e => e.parks t

/-- The task starts at the entry with which it was created, with its argument in `r0`, the
return trap in `lr` and its stack empty. -/
def StartsAtEntry (trap : Word) (tr : List PortEvent) (t : Tid) (c : Core) : Prop :=
  ∃ entry argument top, PortEvent.create t entry argument top ∈ tr ∧
    c.pc = entry &&& ~~~1#32 ∧ c.r0 = argument ∧ c.lr = trap ∧ c.psp = top

/-- After the events `tr` the task is resumed as it should be: with the live part and the
process stack pointer with which it was last switched out, or for the first time at its
entry. -/
def Resumed (trap : Word) (tr : List PortEvent) (t : Tid) (restored : Live) (c : Core) : Prop :=
  match lastOut tr t with
  | some (live, psp) => restored = live ∧ c.psp = psp
  | none => StartsAtEntry trap tr t c

/-- The event, coming after the events `tr`, resumes its task as it should. -/
def PortEvent.Restores (trap : Word) (tr : List PortEvent) : PortEvent → Prop
  | create _ _ _ _ => True
  | other => True
  | start t c => StartsAtEntry trap tr t c
  | switch cur live psp next restored c =>
      Resumed trap (tr ++ [switch cur live psp next restored c]) next restored c

/-- The last switch counts. -/
theorem lastOut_snoc (tr : List PortEvent) (e : PortEvent) (t : Tid) :
    lastOut (tr ++ [e]) t = (e.parks t).or (lastOut tr t) := by
  unfold lastOut
  rw [List.reverse_append, List.reverse_singleton, List.singleton_append,
    List.findSome?_cons]
  cases e.parks t <;> rfl

/-! ## The scheduler's part -/

namespace Sched

variable {cfg : Config} {k : Sched}

/-- An assertion changes no control block. -/
@[simp] theorem artosAssert_tcb (c : Prop) [Decidable c] : (k.artosAssert c).tcb = k.tcb := by
  unfold artosAssert
  split <;> rfl

/-- An assertion does not change the current task. -/
@[simp] theorem artosAssert_curTask (c : Prop) [Decidable c] :
    (k.artosAssert c).curTask = k.curTask := by
  unfold artosAssert
  split <;> rfl

/-- Making a task ready changes no control block. -/
theorem rtosInsertReadyList_tcb (t : Tid) : (k.rtosInsertReadyList cfg t).tcb = k.tcb := by
  unfold rtosInsertReadyList
  split
  · rfl
  · exact artosAssert_tcb _

/-- Taking the highest ready task changes no control block. -/
theorem rtosGetHighestPrioTask_tcb : (k.rtosGetHighestPrioTask cfg).1.tcb = k.tcb := by
  unfold rtosGetHighestPrioTask
  simp only
  split
  · exact artosAssert_tcb _
  · split
    · simp
    · simp [stateRemove, apply_ite Sched.tcb]

/-- The selection changes no control block, and makes the selected task current. -/
theorem rtosSelectReady_spec {k' : Sched} {r : Option Tid}
    (h : k.rtosSelectReady cfg = (k', r)) : k'.tcb = k.tcb ∧ k'.curTask = r := by
  unfold rtosSelectReady at h
  split at h
  · obtain ⟨rfl, rfl⟩ := Prod.mk.inj h
    exact ⟨rtosGetHighestPrioTask_tcb, rfl⟩
  · obtain ⟨rfl, rfl⟩ := Prod.mk.inj h
    exact ⟨rfl, rfl⟩

/-- The selection for a stored context stores it, after checking that it lies in the stack
of the current task. -/
theorem selectNext_stacks {k' : Sched} {cur next : Tid} {sp : ℕ} {guard : ℕ → ℕ}
    (h : k.rtosSchedulerSelectNext cfg sp guard = (k', some next))
    (hcur : k.curTask = some cur) :
    sp ≠ 0 ∧ k'.curTask = some next ∧
      k'.tcb = update k.tcb cur { k.tcb cur with stackPointer := sp } ∧
      (k.tcb cur).stackBuffer + stackWordBytes * artosStackGuardWords ≤ sp ∧
      sp ≤ (k.tcb cur).stackBuffer + stackWordBytes * (k.tcb cur).stackWordCount := by
  unfold rtosSchedulerSelectNext at h
  simp only [hcur] at h
  split at h
  · simp at h
  · rename_i hsp
    split at h
    · rename_i hvalid
      obtain ⟨htcb, hnext⟩ := rtosSelectReady_spec h
      refine ⟨hsp, hnext, htcb.trans ?_, ?_⟩
      · split
        · exact rtosInsertReadyList_tcb cur
        · rfl
      · -- the check has passed both bounds
        simp only [setTcb, update_self, artosTaskStackValid] at hvalid
        split at hvalid
        · simp at hvalid
        · omega
    · simp at h

/-- **What a switch does to the stacks.**  If `rtos_scheduler_switch_context` returns a
stack pointer, it has stored the one it was given, which lies in the stack of the current
task, and returns that of the task it makes current. -/
theorem switchContext_stacks {k' : Sched} {cur next : Tid} {sp sp' : ℕ} {guard : ℕ → ℕ}
    (h : k.rtosSchedulerSwitchContext cfg sp guard = (k', sp')) (hsp' : sp' ≠ 0)
    (hcur : k.curTask = some cur) (hnext : k'.curTask = some next) :
    sp ≠ 0 ∧ sp' = (k'.tcb next).stackPointer ∧
      k'.tcb = update k.tcb cur { k.tcb cur with stackPointer := sp } ∧
      (k.tcb cur).stackBuffer + stackWordBytes * artosStackGuardWords ≤ sp ∧
      sp ≤ (k.tcb cur).stackBuffer + stackWordBytes * (k.tcb cur).stackWordCount := by
  unfold rtosSchedulerSwitchContext at h
  rcases hsel : k.rtosSchedulerSelectNext cfg sp guard with ⟨k₁, _ | n⟩
  · rw [hsel] at h
    exact absurd (Prod.mk.inj h).2.symm hsp'
  · rw [hsel] at h
    obtain ⟨rfl, rfl⟩ := Prod.mk.inj h
    obtain ⟨hsp, hn, htcb, hrange⟩ := selectNext_stacks hsel hcur
    obtain rfl : n = next := Option.some.inj (hn.symm.trans hnext)
    exact ⟨hsp, rfl, htcb, hrange⟩

/-- What `rtos_scheduler_start` does to the stacks. -/
theorem schedulerStart_stacks {k' : Sched} {r : Option Tid} (hcur : k.curTask = none)
    (h : k.rtosSchedulerStart cfg = (k', r)) : k'.tcb = k.tcb ∧ k'.curTask = r := by
  unfold rtosSchedulerStart rtosSchedulerSelectNext at h
  rw [hcur] at h
  simp only [if_true] at h
  split at h
  · obtain ⟨rfl, rfl⟩ := Prod.mk.inj h
    exact ⟨rtosGetHighestPrioTask_tcb, rfl⟩
  · obtain ⟨rfl, rfl⟩ := Prod.mk.inj h
    exact ⟨rfl, hcur⟩

end Sched

/-! ## Contexts in memory -/

/-- The shape of a context whose words stand at `a`. -/
def Context.Shape (a : Word) : Context → Prop
  | fresh _ _ top => slot a 17 = top
  | parked live frame psp => ∃ extended, live.Of extended ∧
      live.psp = slot a live.words.length ∧ frame.length = (if extended then 25 else 8) ∧
      ∀ w, frame[7]? = some w → returnSp live.psp extended w = psp

/-- **The stack of the task holds the context.** -/
structure HoldsContext (trap : Word) (mem : Word → Word) (c : Tcb) (x : Context) : Prop where
  created : c.stackPointer ≠ 0
  low : c.stackBuffer ≤ c.stackPointer
  high : c.stackPointer + 4 * (x.words trap).length ≤
    c.stackBuffer + stackWordBytes * c.stackWordCount
  top_le : c.stackBuffer + stackWordBytes * c.stackWordCount ≤ 0xE0000000
  words : Holds mem (BitVec.ofNat 32 c.stackPointer) (x.words trap)
  shape : x.Shape (BitVec.ofNat 32 c.stackPointer)

section

variable {trap : Word} {mem mem' : Word → Word} {c c' : Tcb} {x : Context}

/-- The addresses of the words of a saved context. -/
theorem HoldsContext.slot_toNat (h : HoldsContext trap mem c x) {i : ℕ}
    (hi : i < (x.words trap).length) :
    (slot (BitVec.ofNat 32 c.stackPointer) i).toNat = c.stackPointer + 4 * i := by
  have hhigh := h.high
  have htop := h.top_le
  have hbase : (BitVec.ofNat 32 c.stackPointer).toNat = c.stackPointer := by
    rw [BitVec.toNat_ofNat]
    exact Nat.mod_eq_of_lt (by omega)
  rw [Cortex.slot_toNat (by omega), hbase]

/-- A context stays where it is while its words and the stack do. -/
theorem HoldsContext.congr (h : HoldsContext trap mem c x)
    (hsp : c'.stackPointer = c.stackPointer) (hbuf : c'.stackBuffer = c.stackBuffer)
    (hcount : c'.stackWordCount = c.stackWordCount)
    (hmem : ∀ i, i < (x.words trap).length →
      mem' (slot (BitVec.ofNat 32 c.stackPointer) i) =
        mem (slot (BitVec.ofNat 32 c.stackPointer) i)) : HoldsContext trap mem' c' x := by
  refine ⟨?_, ?_, ?_, ?_, ?_, ?_⟩
  · rw [hsp]
    exact h.created
  · rw [hsp, hbuf]
    exact h.low
  · rw [hsp, hbuf, hcount]
    exact h.high
  · rw [hbuf, hcount]
    exact h.top_le
  · rw [hsp]
    exact h.words.congr hmem
  · rw [hsp]
    exact h.shape

/-- **A held context is restored.**  From a memory that holds it, with the saved stack
pointer in `r0`, a parked context comes back with its live part and process stack pointer,
and a fresh one starts at its entry with an empty stack. -/
theorem HoldsContext.restore {r : Core} (h : HoldsContext trap r.mem c x)
    (hr0 : r.r0 = BitVec.ofNat 32 c.stackPointer) :
    match x with
    | .fresh entry argument top =>
        let c' := (pendSVRestore r).exceptionReturn
        c'.pc = entry &&& ~~~1#32 ∧ c'.r0 = argument ∧ c'.lr = trap ∧ c'.psp = top
    | .parked live _ psp =>
        Live.of (pendSVRestore r) = live ∧ (pendSVRestore r).exceptionReturn.psp = psp := by
  have hwords := h.words
  have hshape := h.shape
  rw [← hr0] at hwords hshape
  cases x with
  | fresh entry argument top =>
      simp only [Context.words, initialWords_reverse] at hwords
      obtain ⟨-, hlr, hsp, hmem⟩ := restore_spec initialLive_of hwords
      have hframe : Holds (pendSVRestore r).mem (pendSVRestore r).psp
          (initialFrame trap entry argument) := by
        rw [hmem, hsp]
        exact (holds_append.mp hwords).2
      obtain ⟨hr, hl, hpc, hret⟩ := exceptionReturn_spec hlr hframe (show 7 < 8 by decide)
      refine ⟨hpc, hr, hl, hret.trans ?_⟩
      -- the initial xPSR asks for no alignment, so the stack is left empty
      have hempty : ∀ a : Word, returnSp a false artosPortInitialXpsr = slot a 8 := by
        intro a
        simp [returnSp, frameBytes, artosPortInitialXpsr, slot]
      have htop : slot r.r0 17 = top := hshape
      rw [hsp, ← htop]
      exact (hempty _).trans (slot_slot r.r0 9 8)
  | parked live frame psp =>
      obtain ⟨extended, hOf, hpsp, hlen, hreturn⟩ := hshape
      obtain ⟨hlive, hlr, hsp, hmem⟩ := restore_spec hOf hwords
      have hframe : Holds (pendSVRestore r).mem (pendSVRestore r).psp frame := by
        rw [hmem, hsp]
        exact (holds_append.mp hwords).2
      have h7 : 7 < frame.length := by
        rw [hlen]
        split <;> decide
      obtain ⟨-, -, -, hret⟩ := exceptionReturn_spec hlr hframe h7
      refine ⟨?_, ?_⟩
      · rw [hlive, ← hpsp]
      · rw [hret, hsp, ← hpsp]
        exact hreturn _ (List.getElem?_eq_getElem h7)

end

/-! ## The invariant -/

/-- **The invariant of the stacks**: created tasks have stacks of their own, and every
created task that is not running has its context on its stack. -/
structure ContextsOk (trap : Word) (m : Machine) : Prop where
  region : ∀ t, Created m.sched t →
    StackAt (m.sched.tcb t).stackBuffer (m.sched.tcb t).stackWordCount
  apart : ∀ t u, t ≠ u → Created m.sched t → Created m.sched u →
    Apart (m.sched.tcb t).stackBuffer (m.sched.tcb t).stackWordCount (m.sched.tcb u)
  held : ∀ t x, m.context t = some x → HoldsContext trap m.core.mem (m.sched.tcb t) x
  running : ∀ t, Created m.sched t → m.context t = none → m.sched.curTask = some t
  current : ∀ t, m.sched.curTask = some t → Created m.sched t

/-- What the events tell about the contexts. -/
structure TraceOk (tr : List PortEvent) (m : Machine) : Prop where
  boot : m.sched.curTask = none → ∀ t, lastOut tr t = none
  new : ∀ t, ¬ Created m.sched t → lastOut tr t = none
  fresh : ∀ t entry argument top, m.context t = some (.fresh entry argument top) →
    PortEvent.create t entry argument top ∈ tr ∧ lastOut tr t = none
  parked : ∀ t live frame psp, m.context t = some (.parked live frame psp) →
    lastOut tr t = some (live, psp)

section

variable {cfg : Config} {trap : Word} {m m' : Machine} {e : PortEvent} {tr : List PortEvent}
  {k : Sched} {t cur : Tid}

/-- The two control blocks describe the same stack. -/
structure SameStack (c c' : Tcb) : Prop where
  buffer : c'.stackBuffer = c.stackBuffer
  words : c'.stackWordCount = c.stackWordCount

/-- Control blocks that keep their stack pointers are those of the same tasks. -/
theorem KeepsStacks.created (hk : KeepsStacks m.sched k) : Created k t ↔ Created m.sched t := by
  unfold Created
  rw [hk.stackPointer]

/-- Stacks that stay where they are lie where they may, and apart. -/
theorem ContextsOk.stacks (h : ContextsOk trap m)
    (hsame : ∀ t, Created k t → Created m.sched t ∧ SameStack (m.sched.tcb t) (k.tcb t)) :
    (∀ t, Created k t → StackAt (k.tcb t).stackBuffer (k.tcb t).stackWordCount) ∧
      ∀ t u, t ≠ u → Created k t → Created k u →
        Apart (k.tcb t).stackBuffer (k.tcb t).stackWordCount (k.tcb u) := by
  constructor
  · intro t ht
    obtain ⟨hmt, hst⟩ := hsame t ht
    rw [hst.buffer, hst.words]
    exact h.region t hmt
  · intro t u htu ht hu
    obtain ⟨hmt, hst⟩ := hsame t ht
    obtain ⟨hmu, hsu⟩ := hsame u hu
    have hapart := h.apart t u htu hmt hmu
    unfold Apart at hapart ⊢
    rwa [hst.buffer, hst.words, hsu.buffer, hsu.words]

/-- The other steps keep the invariant. -/
theorem ContextsOk.other (h : ContextsOk trap m) {c : Core} (hk : KeepsStacks m.sched k)
    (hmem : m.Spares trap c.mem) : ContextsOk trap { m with sched := k, core := c } := by
  obtain ⟨hregion, hapart⟩ := h.stacks fun t (ht : Created k t) =>
    ⟨hk.created.mp ht, ⟨hk.stackBuffer t, hk.stackWordCount t⟩⟩
  refine ⟨hregion, hapart, fun t x hx => ?_, fun t ht hx => ?_, fun t ht => ?_⟩
  · exact (h.held t x hx).congr (hk.stackPointer t) (hk.stackBuffer t) (hk.stackWordCount t)
      (hmem t x hx)
  · exact hk.curTask.trans (h.running t (hk.created.mp ht) hx)
  · exact hk.created.mpr (h.current t (hk.curTask.symm.trans ht))

/-- The words of the context of another task lie outside the stack of a created task. -/
theorem ContextsOk.outside (h : ContextsOk trap m) (ht : Created m.sched t) {u : Tid}
    (htu : t ≠ u) {x : Context} (hx : m.context u = some x) {i : ℕ}
    (hi : i < (x.words trap).length) :
    (slot (savedSp m.sched u) i).toNat < (m.sched.tcb t).stackBuffer ∨
      (m.sched.tcb t).stackBuffer + stackWordBytes * (m.sched.tcb t).stackWordCount ≤
        (slot (savedSp m.sched u) i).toNat := by
  have hheld := h.held u x hx
  have haddr := hheld.slot_toNat hi
  have hlow := hheld.low
  have hhigh := hheld.high
  have hapart := h.apart t u htu ht hheld.created
  unfold Apart at hapart
  unfold savedSp
  rw [haddr]
  omega

/-- Saving a task puts its context on its stack, and leaves the others where they are. -/
theorem ContextsOk.holds_parked (h : ContextsOk trap m) {extended : Bool} {sp : ℕ} {next : Tid}
    (hcur : m.sched.curTask = some cur) (hpsp : InStack (m.sched.tcb cur) m.core.psp)
    (hk : m.sched.rtosSchedulerSwitchContext cfg (m.parked cur extended k).core.r0.toNat
      (lowWords (m.parked cur extended k).core.mem (m.sched.tcb cur)) = (k, sp))
    (hsp : sp ≠ 0) (hnext : k.curTask = some next) :
    (∀ t, Created k t ↔ Created m.sched t) ∧
      ∀ t x, (m.parked cur extended k).context t = some x →
        HoldsContext trap (m.parked cur extended k).core.mem (k.tcb t) x := by
  obtain ⟨hne, -, htcb, hlow, hhigh⟩ := Sched.switchContext_stacks hk hsp hcur hnext
  have hcreated := h.current cur hcur
  have htop := (h.region cur hcreated).top_le
  obtain ⟨hpsp₁, hpsp₂⟩ := hpsp
  have hroom : (m.parked cur extended k).core.r0.toNat + 208 < 4294967296 := by omega
  obtain ⟨hOf, hlive, hholds, hbytes, hother⟩ :=
    save_spec (p := (m.parked cur extended k).core) rfl hroom
  refine ⟨fun t => ?_, fun t x hx => ?_⟩
  · unfold Created
    rw [htcb]
    by_cases ht : t = cur
    · subst ht
      rw [update_self]
      exact iff_of_true hne hcreated
    · rw [update_of_ne ht]
  · by_cases ht : t = cur
    · subst ht
      have hx' : Context.parked (Live.of (m.core.exceptionEntry .threadProcess extended))
          (m.core.frame (m.core.psp.getLsbD 2) extended) m.core.psp = x := by
        simpa [Machine.parked] using hx
      subst hx'
      have hlen := length_words hOf
      have hsp' : (k.tcb t).stackPointer = (m.parked t extended k).core.r0.toNat := by
        rw [htcb, update_self]
      have hbuf : (k.tcb t).stackBuffer = (m.sched.tcb t).stackBuffer := by
        rw [htcb, update_self]
      have hcount : (k.tcb t).stackWordCount = (m.sched.tcb t).stackWordCount := by
        rw [htcb, update_self]
      have hbase : BitVec.ofNat 32 (k.tcb t).stackPointer = (m.parked t extended k).core.r0 := by
        rw [hsp']
        simp
      refine ⟨?_, ?_, ?_, ?_, ?_, ?_⟩
      · rw [hsp']
        exact hne
      · rw [hsp', hbuf]
        omega
      · rw [hsp', hbuf, hcount, Context.words, List.length_append, hlen, Core.length_frame]
        cases extended <;> simp only [Bool.false_eq_true, if_true, if_false] at hbytes ⊢ <;> omega
      · rw [hbuf, hcount]
        exact htop
      · rw [hbase]
        exact hholds
      · rw [hbase]
        refine ⟨extended, hOf, ?_, Core.length_frame _ _ _, fun w hw => ?_⟩
        · rw [hlen]
          exact hlive
        · have hw' : w = stackedXpsr m.core.xpsr (m.core.psp.getLsbD 2) := by
            simpa [Core.frame, Core.basicFrame] using hw.symm
          subst hw'
          exact returnSp_entrySp extended (stackedXpsr_align _ _)
    · have hx' : m.context t = some x := by simpa [Machine.parked, update_of_ne ht] using hx
      have hsame : k.tcb t = m.sched.tcb t := by rw [htcb, update_of_ne ht]
      refine (h.held t x hx').congr (by rw [hsame]) (by rw [hsame]) (by rw [hsame])
        fun i hi => hother _ ?_
      have hout := h.outside hcreated (Ne.symm ht) hx' hi
      unfold savedSp at hout
      omega

/-- **Saving a task keeps the invariant.** -/
theorem ContextsOk.parked (h : ContextsOk trap m) {extended : Bool} {sp : ℕ} {next : Tid}
    (hcur : m.sched.curTask = some cur) (hpsp : InStack (m.sched.tcb cur) m.core.psp)
    (hk : m.sched.rtosSchedulerSwitchContext cfg (m.parked cur extended k).core.r0.toNat
      (lowWords (m.parked cur extended k).core.mem (m.sched.tcb cur)) = (k, sp))
    (hsp : sp ≠ 0) (hnext : k.curTask = some next) :
    ContextsOk trap (m.parked cur extended k) := by
  obtain ⟨hcreated, hheld⟩ := h.holds_parked hcur hpsp hk hsp hnext
  obtain ⟨-, hsp', htcb, -, -⟩ := Sched.switchContext_stacks hk hsp hcur hnext
  have hsame : ∀ t, SameStack (m.sched.tcb t) (k.tcb t) := by
    intro t
    rw [htcb, update_apply]
    split
    · rename_i ht
      rw [ht]
      exact ⟨rfl, rfl⟩
    · exact ⟨rfl, rfl⟩
  obtain ⟨hregion, hapart⟩ := h.stacks fun t ht => ⟨(hcreated t).mp ht, hsame t⟩
  refine ⟨hregion, hapart, hheld, fun t ht hx => ?_, fun t ht => ?_⟩
  · -- no created task is without a context now
    have htcur : t ≠ cur := by
      rintro rfl
      simp [Machine.parked] at hx
    have hx' : m.context t = none := by simpa [Machine.parked, update_of_ne htcur] using hx
    have hrun := h.running t ((hcreated t).mp ht) hx'
    rw [hcur, Option.some.injEq] at hrun
    exact absurd hrun.symm htcur
  · obtain rfl : next = t := Option.some.inj (hnext.symm.trans ht)
    show (k.tcb next).stackPointer ≠ 0
    rwa [← hsp']

/-- **Resuming the current task keeps the invariant.** -/
theorem ContextsOk.resume (h : ContextsOk trap m) (hcur : m.sched.curTask = some t) {c : Core}
    (hmem : m.Spares trap c.mem) :
    ContextsOk trap { sched := m.sched, core := c, context := update m.context t none } := by
  refine ⟨h.region, h.apart, fun u x hx => ?_, fun u hu hx => ?_, h.current⟩
  · have hut : u ≠ t := by
      rintro rfl
      simp at hx
    have hx' : m.context u = some x := by simpa [update_of_ne hut] using hx
    exact (h.held u x hx').congr rfl rfl rfl (hmem u x hx')
  · by_cases hut : u = t
    · rw [hut]
      exact hcur
    · exact h.running u hu (by simpa [update_of_ne hut] using hx)

/-- Resuming a task keeps what the events tell about the others. -/
theorem TraceOk.resume (h : TraceOk tr m) (hcur : m.sched.curTask = some t) {c : Core} :
    TraceOk tr { sched := m.sched, core := c, context := update m.context t none } := by
  have hne : ∀ u x, update m.context t none u = some x → m.context u = some x := by
    intro u x hx
    by_cases hut : u = t
    · simp [hut] at hx
    · simpa [update_of_ne hut] using hx
  refine ⟨fun hboot => ?_, h.new, fun u e a top hx => h.fresh u e a top (hne u _ hx),
    fun u l f p hx => h.parked u l f p (hne u _ hx)⟩
  rw [hcur] at hboot
  simp at hboot

/-- **What a resumption restores**, from registers with the task's saved stack pointer in
`r0`. -/
theorem ContextsOk.restores (h : ContextsOk trap m) (hT : TraceOk tr m) {x : Context}
    (hx : m.context t = some x) {r : Core} (hmem : m.Spares trap r.mem)
    (hr0 : r.r0 = savedSp m.sched t) :
    Resumed trap tr t (Live.of (pendSVRestore r)) (pendSVRestore r).exceptionReturn := by
  have hheld := (h.held t x hx).congr rfl rfl rfl (hmem t x hx)
  have hrestore := hheld.restore hr0
  unfold Resumed
  cases x with
  | fresh entry argument top =>
      obtain ⟨hcreate, hout⟩ := hT.fresh t entry argument top hx
      rw [hout]
      exact ⟨entry, argument, top, hcreate, hrestore⟩
  | parked live frame psp =>
      rw [hT.parked t live frame psp hx]
      exact hrestore

/-- The first frame of a new stack, and that nothing outside the stack is written. -/
theorem initStack_spec (trap : Word) (mem : Word → Word) (entry argument : Word)
    {stack : Word} {wordCount : ℕ} (hs : StackAt stack.toNat wordCount) :
    let sp := Sched.rtosPortInitializeStack (stack.toNat + stackWordBytes * wordCount)
    Holds (initStack trap mem stack wordCount entry argument) (BitVec.ofNat 32 sp)
        (initialWords trap entry argument).reverse ∧
      slot (BitVec.ofNat 32 sp) 17 = slot stack wordCount ∧
      ∀ x : Word, (x.toNat < stack.toNat ∨
          stack.toNat + stackWordBytes * wordCount ≤ x.toNat) →
        initStack trap mem stack wordCount entry argument x = mem x := by
  obtain ⟨-, hwords, htop⟩ := hs
  unfold artosMinStackWords at hwords
  unfold stackWordBytes at htop ⊢
  have hslot : (slot stack wordCount).toNat = stack.toNat + 4 * wordCount :=
    slot_toNat (by omega)
  have hguard : (slot stack artosStackGuardWords).toNat = stack.toNat + 4 * 4 :=
    slot_toNat (by unfold artosStackGuardWords; omega)
  obtain ⟨hsp, htopslot, hholds, hother⟩ := holds_initializeStack trap
    (writeBlock (writeBlock mem (slot stack artosStackGuardWords)
        (List.replicate (wordCount - artosStackGuardWords) artosStackFillPattern)) stack
      (List.replicate artosStackGuardWords (BitVec.ofNat 32 artosStackGuardPattern)))
    (slot stack wordCount) entry argument (by omega)
  have hbase : BitVec.ofNat 32 (Sched.rtosPortInitializeStack (stack.toNat + 4 * wordCount)) =
      (Port.rtosPortInitializeStack trap
        (writeBlock (writeBlock mem (slot stack artosStackGuardWords)
          (List.replicate (wordCount - artosStackGuardWords) artosStackFillPattern)) stack
          (List.replicate artosStackGuardWords (BitVec.ofNat 32 artosStackGuardPattern)))
        (slot stack wordCount) entry argument).2 := by
    refine BitVec.eq_of_toNat_eq ?_
    rw [hsp, hslot, BitVec.toNat_ofNat, Nat.mod_eq_of_lt]
    · rfl
    · unfold Sched.rtosPortInitializeStack stackWordBytes
      omega
  refine ⟨?_, ?_, fun x hx => ?_⟩
  · rw [hbase]
    exact hholds
  · rw [hbase]
    exact htopslot
  · refine (hother x (by omega)).trans ?_
    rw [writeBlock_of_outside, writeBlock_of_outside]
    all_goals simp only [List.length_replicate, hguard]
    all_goals unfold artosStackGuardWords
    all_goals omega

/-- What the control blocks tell after a task has been created on a stack. -/
structure NewTask (k₀ k : Sched) (t : Tid) (stack wordCount : ℕ) : Prop where
  curTask : k.curTask = k₀.curTask
  stackPointer : (k.tcb t).stackPointer =
    Sched.rtosPortInitializeStack (stack + stackWordBytes * wordCount)
  buffer : (k.tcb t).stackBuffer = stack
  words : (k.tcb t).stackWordCount = wordCount
  others : ∀ u, u ≠ t → (k.tcb u).stackPointer = (k₀.tcb u).stackPointer ∧
    SameStack (k₀.tcb u) (k.tcb u)

/-- `rtos_init_tcb` creates a task. -/
theorem KeepsStacks.newTask {k₀ : Sched} {entry argument stack wordCount priority : ℕ}
    (hk : KeepsStacks (k₀.rtosInitTcb t entry argument stack wordCount priority) k) :
    NewTask k₀ k t stack wordCount := by
  refine ⟨hk.curTask, ?_, ?_, ?_, fun u hu => ⟨?_, ?_, ?_⟩⟩
  · rw [hk.stackPointer]
    simp [Sched.rtosInitTcb]
  · rw [hk.stackBuffer]
    simp [Sched.rtosInitTcb]
  · rw [hk.stackWordCount]
    simp [Sched.rtosInitTcb]
  · rw [hk.stackPointer]
    simp [Sched.rtosInitTcb, update_of_ne hu]
  · rw [hk.stackBuffer]
    simp [Sched.rtosInitTcb, update_of_ne hu]
  · rw [hk.stackWordCount]
    simp [Sched.rtosInitTcb, update_of_ne hu]

/-- The stack pointer of a new task lies in its stack, one initial context below the top. -/
theorem NewTask.stackPointer_add {k₀ : Sched} {stack wordCount : ℕ}
    (h : NewTask k₀ k t stack wordCount) (hs : StackAt stack wordCount) :
    (k.tcb t).stackPointer + 4 * 17 = stack + stackWordBytes * wordCount := by
  have hwords := hs.words
  rw [h.stackPointer]
  unfold Sched.rtosPortInitializeStack stackWordBytes
  unfold artosMinStackWords at hwords
  omega

/-- The tasks after a creation. -/
theorem NewTask.created {k₀ : Sched} {stack wordCount : ℕ} (h : NewTask k₀ k t stack wordCount)
    (hs : StackAt stack wordCount) (u : Tid) : Created k u ↔ u = t ∨ Created k₀ u := by
  unfold Created
  by_cases hu : u = t
  · subst hu
    have hsp := h.stackPointer_add hs
    have hwords := hs.words
    unfold stackWordBytes at hsp
    unfold artosMinStackWords at hwords
    exact iff_of_true (by omega) (Or.inl rfl)
  · rw [(h.others u hu).1]
    exact ⟨Or.inr, fun hor => hor.resolve_left hu⟩

/-- The stack of a new task holds a fresh context. -/
theorem NewTask.holdsContext {k₀ : Sched} {entry argument stack : Word} {wordCount : ℕ}
    {mem : Word → Word} (h : NewTask k₀ k t stack.toNat wordCount)
    (hs : StackAt stack.toNat wordCount)
    (hholds : Holds mem (BitVec.ofNat 32 (k.tcb t).stackPointer)
      (initialWords trap entry argument).reverse)
    (hslot : slot (BitVec.ofNat 32 (k.tcb t).stackPointer) 17 = slot stack wordCount) :
    HoldsContext trap mem (k.tcb t) (.fresh entry argument (slot stack wordCount)) := by
  have hwords := hs.words
  have hsp := h.stackPointer_add hs
  unfold artosMinStackWords at hwords
  unfold stackWordBytes at hsp
  refine ⟨?_, ?_, ?_, ?_, hholds, hslot⟩
  · exact ((h.created hs t).mpr (Or.inl rfl))
  · rw [h.buffer]
    omega
  · rw [h.buffer, h.words]
    show _ + 4 * 17 ≤ _
    unfold stackWordBytes
    omega
  · rw [h.buffer, h.words]
    exact hs.top_le

/-- The stacks after a creation lie where they may, and apart. -/
theorem ContextsOk.newStacks (h : ContextsOk trap m) {stack wordCount : ℕ}
    (hstack : StackAt stack wordCount)
    (hapart : ∀ u, Created m.sched u → Apart stack wordCount (m.sched.tcb u))
    (hk : NewTask m.sched k t stack wordCount) :
    (∀ u, Created k u → StackAt (k.tcb u).stackBuffer (k.tcb u).stackWordCount) ∧
      ∀ u v, u ≠ v → Created k u → Created k v →
        Apart (k.tcb u).stackBuffer (k.tcb u).stackWordCount (k.tcb v) := by
  have hcreated := hk.created hstack
  -- the new stack is apart from every old one
  have hnew : ∀ u, u ≠ t → Created k u → Apart stack wordCount (k.tcb u) := by
    intro u hut hu
    have hap := hapart u (((hcreated u).mp hu).resolve_left hut)
    have hsame := (hk.others u hut).2
    unfold Apart at hap ⊢
    rwa [hsame.buffer, hsame.words]
  constructor
  · intro u hu
    by_cases hut : u = t
    · rw [hut, hk.buffer, hk.words]
      exact hstack
    · rw [(hk.others u hut).2.buffer, (hk.others u hut).2.words]
      exact h.region u (((hcreated u).mp hu).resolve_left hut)
  · intro u v huv hu hv
    by_cases hut : u = t
    · rw [hut, hk.buffer, hk.words]
      exact hnew v (fun he => huv (hut.trans he.symm)) hv
    · by_cases hvt : v = t
      · have hap := hnew u hut hu
        unfold Apart at hap ⊢
        rw [hvt, hk.buffer, hk.words]
        exact hap.symm
      · have hap := h.apart u v huv (((hcreated u).mp hu).resolve_left hut)
          (((hcreated v).mp hv).resolve_left hvt)
        have hu' := (hk.others u hut).2
        have hv' := (hk.others v hvt).2
        unfold Apart at hap ⊢
        rwa [hu'.buffer, hu'.words, hv'.buffer, hv'.words]

/-- **Creating a task keeps the invariant**, with a fresh context on its stack. -/
theorem ContextsOk.create (h : ContextsOk trap m) {entry argument stack : Word}
    {wordCount priority : ℕ} (hstack : StackAt stack.toNat wordCount)
    (hapart : ∀ u, Created m.sched u → Apart stack.toNat wordCount (m.sched.tcb u))
    (hk : KeepsStacks (m.sched.rtosInitTcb t entry.toNat argument.toNat stack.toNat wordCount
      priority) k) :
    (∀ u, Created k u ↔ u = t ∨ Created m.sched u) ∧
      ContextsOk trap
        { sched := k
          core := { m.core with
            mem := initStack trap m.core.mem stack wordCount entry argument }
          context := update m.context t
            (some (.fresh entry argument (slot stack wordCount))) } := by
  have hnew := hk.newTask
  have hcreated := hnew.created hstack
  obtain ⟨hregion, hapart'⟩ := h.newStacks hstack hapart hnew
  obtain ⟨hholds, hslot, hother⟩ := initStack_spec trap m.core.mem entry argument hstack
  rw [← hnew.stackPointer] at hholds hslot
  generalize initStack trap m.core.mem stack wordCount entry argument = mem at hholds hother ⊢
  refine ⟨hcreated, hregion, hapart', fun u x hx => ?_, fun u hu hx => ?_, fun u hu => ?_⟩
  · by_cases hut : u = t
    · subst hut
      have hx' : Context.fresh entry argument (slot stack wordCount) = x := by simpa using hx
      subst hx'
      exact hnew.holdsContext hstack hholds hslot
    · -- the words of the other contexts lie on other stacks
      have hx' : m.context u = some x := by simpa [update_of_ne hut] using hx
      have hheld := h.held u x hx'
      obtain ⟨hsp, hbuf, hwords⟩ := hnew.others u hut
      refine hheld.congr hsp hbuf hwords fun i hi => hother _ ?_
      have hap := hapart u hheld.created
      have hlow := hheld.low
      have hhigh := hheld.high
      rw [hheld.slot_toNat hi]
      unfold Apart at hap
      omega
  · have hut : u ≠ t := by
      rintro rfl
      simp at hx
    have hx' : m.context u = none := by simpa [update_of_ne hut] using hx
    exact hnew.curTask.trans (h.running u (((hcreated u).mp hu).resolve_left hut) hx')
  · have hu' : m.sched.curTask = some u := hnew.curTask.symm.trans hu
    exact (hcreated u).mpr (Or.inr (h.current u hu'))

/-- An event that switches no task out adds nothing to what was live. -/
theorem lastOut_of_parks (he : ∀ u, e.parks u = none) (u : Tid) :
    lastOut (tr ++ [e]) u = lastOut tr u := by
  rw [lastOut_snoc, he u, Option.none_or]

/-- Such an event keeps what the events tell. -/
theorem TraceOk.snoc (h : TraceOk tr m) (he : ∀ u, e.parks u = none) :
    TraceOk (tr ++ [e]) m := by
  refine ⟨fun hb u => ?_, fun u hu => ?_, fun u en a top hx => ?_, fun u l f p hx => ?_⟩
  · rw [lastOut_of_parks he]
    exact h.boot hb u
  · rw [lastOut_of_parks he]
    exact h.new u hu
  · rw [lastOut_of_parks he]
    obtain ⟨hmem, hout⟩ := h.fresh u en a top hx
    exact ⟨List.mem_append_left _ hmem, hout⟩
  · rw [lastOut_of_parks he]
    exact h.parked u l f p hx

/-- What the events tell does not depend on the rest of the scheduler. -/
theorem TraceOk.sched (h : TraceOk tr m) {c : Core}
    (hcreated : ∀ u, Created m.sched u → Created k u)
    (hboot : k.curTask = none → m.sched.curTask = none) :
    TraceOk tr { m with sched := k, core := c } :=
  ⟨fun hb => h.boot (hboot hb), fun u hu => h.new u fun hu' => hu (hcreated u hu'), h.fresh,
    h.parked⟩

/-- Creating a task keeps what the events tell. -/
theorem TraceOk.create (h : TraceOk tr m) {c : Core} {entry argument top : Word}
    (hnew : ¬ Created m.sched t) (hcreated : ∀ u, Created m.sched u → Created k u)
    (hboot : k.curTask = none → m.sched.curTask = none) :
    TraceOk (tr ++ [.create t entry argument top])
      { sched := k
        core := c
        context := update m.context t (some (.fresh entry argument top)) } := by
  have he : ∀ u, PortEvent.parks u (.create t entry argument top) = none := fun _ => rfl
  refine ⟨fun hb u => ?_, fun u hu => ?_, fun u en a tp hx => ?_, fun u l f p hx => ?_⟩
  · rw [lastOut_of_parks he]
    exact h.boot (hboot hb) u
  · rw [lastOut_of_parks he]
    exact h.new u fun hu' => hu (hcreated u hu')
  · rw [lastOut_of_parks he]
    by_cases hut : u = t
    · subst hut
      have hx' : Context.fresh entry argument top = .fresh en a tp := by simpa using hx
      cases hx'
      exact ⟨by simp, h.new u hnew⟩
    · obtain ⟨hmem, hout⟩ := h.fresh u en a tp (by simpa [update_of_ne hut] using hx)
      exact ⟨List.mem_append_left _ hmem, hout⟩
  · rw [lastOut_of_parks he]
    have hut : u ≠ t := by
      rintro rfl
      simp at hx
    exact h.parked u l f p (by simpa [update_of_ne hut] using hx)

/-- Saving a task tells what was live of it. -/
theorem TraceOk.parked_snoc (h : TraceOk tr m) {extended : Bool} {next : Tid} {restored : Live}
    {c : Core} (hcur : Created m.sched cur) (hcreated : ∀ u, Created m.sched u → Created k u)
    (hnext : k.curTask = some next) :
    TraceOk (tr ++ [.switch cur (Live.of (m.core.exceptionEntry .threadProcess extended))
      m.core.psp next restored c]) (m.parked cur extended k) := by
  have hother : ∀ u, u ≠ cur → lastOut (tr ++ [.switch cur
      (Live.of (m.core.exceptionEntry .threadProcess extended)) m.core.psp next restored c]) u =
        lastOut tr u := by
    intro u hu
    rw [lastOut_snoc]
    simp [PortEvent.parks, Ne.symm hu]
  refine ⟨fun hb => ?_, fun u hu => ?_, fun u en a top hx => ?_, fun u l f p hx => ?_⟩
  · rw [show (m.parked cur extended k).sched.curTask = some next from hnext] at hb
    simp at hb
  · have huc : u ≠ cur := by
      rintro rfl
      exact hu (hcreated u hcur)
    rw [hother u huc]
    exact h.new u fun hu' => hu (hcreated u hu')
  · have huc : u ≠ cur := by
      rintro rfl
      simp [Machine.parked] at hx
    rw [hother u huc]
    obtain ⟨hmem, hout⟩ := h.fresh u en a top
      (by simpa [Machine.parked, update_of_ne huc] using hx)
    exact ⟨List.mem_append_left _ hmem, hout⟩
  · by_cases huc : u = cur
    · subst huc
      simp only [Machine.parked, update_self, Option.some.injEq, Context.parked.injEq] at hx
      obtain ⟨rfl, -, rfl⟩ := hx
      rw [lastOut_snoc]
      simp [PortEvent.parks]
    · rw [hother u huc]
      exact h.parked u l f p (by simpa [Machine.parked, update_of_ne huc] using hx)

/-- Exception return writes no memory. -/
theorem exceptionReturn_mem (c : Core) : c.exceptionReturn.mem = c.mem := by
  unfold Core.exceptionReturn Core.setSp
  simp only
  split <;> rfl

/-- A restore writes no memory. -/
theorem pendSVRestore_mem (c : Core) : (pendSVRestore c).mem = c.mem := by
  unfold pendSVRestore
  simp only
  split <;> rfl

/-- Choosing the first task keeps the invariants. -/
theorem ContextsOk.started (h : ContextsOk trap m) (hT : TraceOk tr m)
    (hboot : m.sched.curTask = none) (hk : m.sched.rtosSchedulerStart cfg = (k, some t))
    (hsp : Created k t) :
    ContextsOk trap { m with sched := k } ∧ TraceOk tr { m with sched := k } := by
  obtain ⟨htcb, hcur⟩ := Sched.schedulerStart_stacks hboot hk
  have hcreated : ∀ u, Created k u ↔ Created m.sched u := by
    intro u
    unfold Created
    rw [htcb]
  refine ⟨⟨?_, ?_, ?_, fun u hu hx => ?_, fun u hu => ?_⟩,
    hT.sched (fun u hu => (hcreated u).mpr hu) fun hb => ?_⟩
  · intro u hu
    rw [htcb]
    exact h.region u ((hcreated u).mp hu)
  · intro u v huv hu hv
    rw [htcb]
    exact h.apart u v huv ((hcreated u).mp hu) ((hcreated v).mp hv)
  · intro u x hx
    rw [htcb]
    exact h.held u x hx
  · have hrun := h.running u ((hcreated u).mp hu) hx
    rw [hboot] at hrun
    simp at hrun
  · obtain rfl : t = u := Option.some.inj (hcur.symm.trans hu)
    exact hsp
  · rw [hcur] at hb
    simp at hb

/-- **`SVC_Handler` starts a task that has never been switched out.** -/
theorem ContextsOk.svc (h : ContextsOk trap m) (hT : TraceOk tr m)
    (hout : lastOut tr t = none) {x : Context} (hx : m.context t = some x) {c : Core}
    {extended : Bool} (hmem : m.Spares trap (c.exceptionEntry .threadMain extended).mem)
    (hpsp : c.psp = savedSp m.sched t) :
    StartsAtEntry trap tr t
      (svcHandler (c.exceptionEntry .threadMain extended)).exceptionReturn := by
  have hresumed := h.restores hT hx
    (r := { c.exceptionEntry .threadMain extended with r0 := c.psp }) hmem hpsp
  unfold Resumed at hresumed
  rw [hout] at hresumed
  -- the word popped into `lr` tells of a basic frame
  have hexc : (c.exceptionEntry .threadMain extended).mem (slot c.psp 8) =
      artosPortInitialExcReturn := by
    cases x with
    | parked live frame psp =>
        have hparked := hT.parked t live frame psp hx
        rw [hout] at hparked
        simp at hparked
    | fresh entry argument top =>
        have hheld := h.held t _ hx
        rw [hpsp, hmem t _ hx 8 (show 8 < 17 by decide)]
        exact hheld.words 8 (show 8 < 17 by decide)
  have hpsp' : (c.exceptionEntry .threadMain extended).psp = c.psp := rfl
  have htst : (c.exceptionEntry .threadMain extended).mem
      (slot (c.exceptionEntry .threadMain extended).psp 8) &&& 0x10#32 ≠ 0#32 := by
    rw [hpsp', hexc]
    decide
  rw [svcHandler_eq htst]
  exact hresumed

/-- **The step lemma.**  Every step keeps the invariants and restores what it should. -/
theorem ContextsOk.step (h : ContextsOk trap m) (hT : TraceOk tr m)
    (hstep : PortStep cfg trap m e m') :
    (ContextsOk trap m' ∧ TraceOk (tr ++ [e]) m') ∧ e.Restores trap tr := by
  cases hstep with
  | create hnew hcur hstack hapart hk =>
      obtain ⟨hcreated, hok⟩ := h.create hstack hapart hk
      refine ⟨⟨hok, hT.create hnew (fun u hu => (hcreated u).mpr (Or.inr hu)) ?_⟩, trivial⟩
      exact fun hb => hk.curTask.symm.trans hb
  | other hk hmem =>
      refine ⟨⟨h.other hk hmem, (hT.snoc fun _ => rfl).sched
        (fun u hu => hk.created.mpr hu) ?_⟩, trivial⟩
      exact fun hb => hk.curTask.symm.trans hb
  | @start t k c extended hboot hk hsp hpsp hmem =>
      obtain ⟨hok, hT'⟩ := h.started hT hboot hk hsp
      obtain ⟨htcb, hcur⟩ := Sched.schedulerStart_stacks hboot hk
      have hspares : Machine.Spares trap { m with sched := k }
          (c.exceptionEntry .threadMain extended).mem := by
        intro u x hx i hi
        have hsame : savedSp k u = savedSp m.sched u := by rw [savedSp, htcb, savedSp]
        rw [hsame]
        exact hmem u x hx i hi
      have hmem' : (svcHandler (c.exceptionEntry .threadMain extended)).exceptionReturn.mem =
          (c.exceptionEntry .threadMain extended).mem := exceptionReturn_mem _
      refine ⟨⟨hok.resume hcur fun u x hx i hi => ?_, (hT'.snoc fun _ => rfl).resume hcur⟩, ?_⟩
      · rw [hmem']
        exact hspares u x hx i hi
      · have hx : ∃ x, m.context t = some x := by
          refine Option.ne_none_iff_exists'.mp fun hnone => ?_
          have hmt : Created m.sched t := by
            rw [Created, ← htcb]
            exact hsp
          have hrun := h.running t hmt hnone
          rw [hboot] at hrun
          simp at hrun
        obtain ⟨x, hx⟩ := hx
        exact hok.svc hT' (hT.boot hboot t) hx hspares hpsp
  | @switch cur next extended k sp c hcur hpsp hk hsp hnext hr0 hmem =>
      have hok := h.parked hcur hpsp hk hsp hnext
      have hcreated := (h.holds_parked hcur hpsp hk hsp hnext).1
      have hsp' := (Sched.switchContext_stacks hk hsp hcur hnext).2.1
      have hTp : TraceOk (tr ++ [.switch cur
          (Live.of (m.core.exceptionEntry .threadProcess extended)) m.core.psp next
          (Live.of (pendSVRestore c)) (pendSVRestore c).exceptionReturn])
          (m.parked cur extended k) :=
        hT.parked_snoc (h.current cur hcur) (fun u hu => (hcreated u).mpr hu) hnext
      have hmem' : (pendSVRestore c).exceptionReturn.mem = c.mem := by
        rw [exceptionReturn_mem, pendSVRestore_mem]
      refine ⟨⟨hok.resume hnext fun u x hx i hi => ?_, hTp.resume hnext⟩, ?_⟩
      · rw [hmem']
        exact hmem u x hx i hi
      · -- the next task is not running, or has just been saved
        have hx : ∃ x, (m.parked cur extended k).context next = some x := by
          by_cases hnc : next = cur
          · subst hnc
            exact ⟨_, update_self _ _ _⟩
          · refine Option.ne_none_iff_exists'.mp fun hnone => hnc ?_
            have hnone' : m.context next = none := by
              simpa [Machine.parked, update_of_ne hnc] using hnone
            have hkn : Created k next := by
              rw [Created, ← hsp']
              exact hsp
            have hrun := h.running next ((hcreated next).mp hkn) hnone'
            exact Option.some.inj (hrun.symm.trans hcur)
        obtain ⟨x, hx⟩ := hx
        refine hok.restores hTp hx hmem ?_
        rw [hr0, hsp']
        rfl

/-- Before any task is created the invariants hold. -/
theorem Machine.Initial.ok (h : m.Initial) : ContextsOk trap m ∧ TraceOk [] m := by
  refine ⟨⟨?_, ?_, ?_, ?_, ?_⟩, ⟨fun _ _ => rfl, fun _ _ => rfl, ?_, ?_⟩⟩
  · exact fun t ht => absurd ht (h.sched t)
  · exact fun t _ _ ht => absurd ht (h.sched t)
  · intro t x hx
    rw [h.context] at hx
    simp at hx
  · exact fun t ht => absurd ht (h.sched t)
  · intro t ht
    rw [h.curTask] at ht
    simp at ht
  · intro t entry argument top hx
    rw [h.context] at hx
    simp at hx
  · intro t live frame psp hx
    rw [h.context] at hx
    simp at hx

/-- **Context save and restore round-trip.**  In every run, each step that resumes a task
restores what was live of it when it was last switched out, and starts it at its entry, on
an empty stack, if it has never run. -/
theorem context_round_trip {m₀ : Machine} (hinit : m₀.Initial)
    (hrun : Exec (PortStep cfg trap) m₀ tr m) (hstep : PortStep cfg trap m e m') :
    e.Restores trap tr := by
  have hinv : ContextsOk trap m ∧ TraceOk tr m :=
    hrun.trace_invariant (I := fun tr m => ContextsOk trap m ∧ TraceOk tr m)
      (fun _ _ _ _ hI hs => (hI.1.step hI.2 hs).1) hinit.ok
  exact (hinv.1.step hinv.2 hstep).2

end

/-! ## The kernel between two switches

Every other step of the kernel is a step of this machine, as far as the scheduler is
concerned: it keeps the stacks, or creates tasks. -/

section

variable {cfg : Config} {k k' : Sched} {a : Action} {s s' : Sys} {e : Event} {obs : List Obs}

/-- Nothing about the stacks changes, or a task is created. -/
def KeepsOrCreates (k k' : Sched) : Prop :=
  KeepsStacks k k' ∨ ∃ entry argument stack wordCount priority,
    KeepsStacks (k.rtosInitTcb (.user k.taskCount) entry argument stack wordCount priority) k'

/-- A control block changes in nothing about its stack. -/
theorem KeepsStacks.setTcb (t : Tid) (f : Tcb → Tcb)
    (hf : (f (k.tcb t)).stackPointer = (k.tcb t).stackPointer ∧
      (f (k.tcb t)).stackBuffer = (k.tcb t).stackBuffer ∧
      (f (k.tcb t)).stackWordCount = (k.tcb t).stackWordCount) :
    KeepsStacks k (k.setTcb t f) := by
  obtain ⟨h₁, h₂, h₃⟩ := hf
  refine ⟨rfl, fun u => ?_, fun u => ?_, fun u => ?_⟩ <;>
    · by_cases hut : u = t
      · subst hut
        simpa [Sched.setTcb]
      · simp [Sched.setTcb, hut]

/-- A move that neither saves nor dispatches a task keeps the stacks, or creates a task. -/
theorem Move.keepsOrCreates (hm : Move cfg k a k') (hsave : ∀ t sp, a ≠ .save t sp)
    (hdispatch : ∀ t, a ≠ .dispatch t) : KeepsOrCreates k k' := by
  have hsame : ∀ k₁ : Sched, k₁.curTask = k.curTask → k₁.tcb = k.tcb → KeepsOrCreates k k₁ :=
    fun k₁ hc ht => Or.inl ⟨hc, fun u => by rw [ht], fun u => by rw [ht], fun u => by rw [ht]⟩
  have hset : ∀ (t : Tid) (c : Tcb) (k₁ : Sched), k₁.tcb = update k.tcb t c →
      k₁.curTask = k.curTask → c.stackPointer = (k.tcb t).stackPointer →
      c.stackBuffer = (k.tcb t).stackBuffer → c.stackWordCount = (k.tcb t).stackWordCount →
      KeepsOrCreates k k₁ := by
    intro t c k₁ ht hc h₁ h₂ h₃
    have hkeep := KeepsStacks.setTcb (k := k) t (fun _ => c) ⟨h₁, h₂, h₃⟩
    refine Or.inl ⟨hc, fun u => ?_, fun u => ?_, fun u => ?_⟩ <;> rw [ht]
    · exact hkeep.stackPointer u
    · exact hkeep.stackBuffer u
    · exact hkeep.stackWordCount u
  cases hm with
  | create hentry hprio hwords hlt =>
      exact Or.inr ⟨_, _, _, _, _, rfl, fun _ => rfl, fun _ => rfl, fun _ => rfl⟩
  | save hcur hsp => exact absurd rfl (hsave _ _)
  | requeue hcur =>
      unfold Sched.requeued
      split <;> exact hsame _ rfl rfl
  | dispatch hall htop => exact absurd rfl (hdispatch _)
  | dispatchIdle hall hnone => exact absurd rfl (hdispatch _)
  | fail => exact hsame _ rfl rfl
  | block hc hw => exact hsame _ rfl rfl
  | wake hl => exact hset _ _ _ rfl rfl rfl rfl rfl
  | expire hl hdue => exact hset _ _ _ rfl rfl rfl rfl rfl
  | advance hset => exact hsame _ Sched.advanced_curTask Sched.advanced_tcb
  | setEff hbase hp hne => exact hset _ _ _ rfl rfl rfl rfl rfl
  | held => exact hset _ _ _ rfl rfl rfl rfl rfl
  | clear hcur => exact hset _ _ _ rfl rfl rfl rfl rfl

/-- **Between two switches** the kernel does what `PortStep.other` and `PortStep.create`
allow to the scheduler. -/
theorem StepKind.keepsOrCreates (hs : StepKind cfg s e obs s') (hstart : e ≠ .start)
    (hswitch : ∀ sp guard, e ≠ .switch sp guard) :
    ∃ acts, Exec (fun k (_ : Action) k' => KeepsOrCreates k k') s.sched acts s'.sched := by
  have hmoves : ∀ {acts k₁}, Moves cfg s.sched acts k₁ → (∀ t sp, .save t sp ∉ acts) →
      (∀ t, .dispatch t ∉ acts) →
      ∃ acts, Exec (fun k (_ : Action) k' => KeepsOrCreates k k') s.sched acts k₁ := by
    intro acts k₁ hm hsave hdispatch
    have hrun := hm.restrict (Q := fun _ a => (∀ t sp, a ≠ .save t sp) ∧ ∀ t, a ≠ .dispatch t)
      fun a ha _ => ⟨fun t sp he => hsave t sp (he ▸ ha), fun t he => hdispatch t (he ▸ ha)⟩
    exact ⟨acts, hrun.mono fun _ _ _ hmove => hmove.1.keepsOrCreates hmove.2.1 hmove.2.2⟩
  cases hs with
  | create hcur hm hacts =>
      refine hmoves hm ?_ ?_ <;> rcases hacts with rfl | ⟨q, rfl⟩ <;> simp
  | start hcur hm hacts hnext => exact absurd rfl hstart
  | task hrun hI hsrc hstep =>
      obtain ⟨acts, hsec, -⟩ := hstep.sec
      exact hmoves hsec.moves (fun t sp ha => hsec.acts_ok _ ha) fun t ha => hsec.acts_ok _ ha
  | tick hm hset => exact hmoves hm (by simp) (by simp)
  | switch hcur hpending hm hacts => exact absurd rfl (hswitch _ _)
  | isrCall hh hstep =>
      obtain ⟨acts, hsec, -⟩ := hstep
      exact hmoves (hsec .idle).moves (fun t sp ha => (hsec .idle).acts_ok _ ha)
        fun t ha => (hsec .idle).acts_ok _ ha
  | _ => exact ⟨[], Exec.nil⟩

end

/-! ## A task alone -/

/-- Zero registers over a memory that is all one word. -/
def blankCore (w psp : Word) : Core where
  r0 := 0
  r1 := 0
  r2 := 0
  r3 := 0
  high := fun _ => 0
  r12 := 0
  lr := 0
  pc := 0
  xpsr := 0
  sLow := fun _ => 0
  sHigh := fun _ => 0
  fpscr := 0
  msp := 0x20001000
  psp := psp
  mem := fun _ => w

/-- A machine without tasks. -/
def bareMachine : Machine where
  sched := { Sched.rtosSystemInit with tcb := fun _ => Tcb.zero }
  core := blankCore 0 0
  context := fun _ => none

theorem bareMachine_initial : bareMachine.Initial :=
  ⟨fun _ hc => hc rfl, rfl, fun _ => rfl⟩

/-- The machine after the creation of one task of priority 1. -/
def readyMachine : Machine where
  sched := (bareMachine.sched.rtosInitTcb (.user 0) (0x08000201#32).toNat (7#32).toNat
    (0x20000000#32).toNat 64 1).rtosInsertReadyList smallConfig (.user 0)
  core := { bareMachine.core with
    mem := initStack 0x08000101#32 bareMachine.core.mem 0x20000000#32 64 0x08000201#32 7#32 }
  context := update bareMachine.context (.user 0)
    (some (.fresh 0x08000201#32 7#32 (slot 0x20000000#32 64)))

/-- The machine while that task runs. -/
def runningMachine : Machine where
  sched := (readyMachine.sched.rtosSchedulerStart smallConfig).1
  core := blankCore 0xDEADBEEF#32 0x20000080#32
  context := update readyMachine.context (.user 0) none

theorem ready_step : PortStep smallConfig 0x08000101#32 bareMachine
    (.create (.user 0) 0x08000201#32 7#32 (slot 0x20000000#32 64)) readyMachine := by
  have hkeep : KeepsStacks (bareMachine.sched.rtosInitTcb (.user 0) (0x08000201#32).toNat
      (7#32).toNat (0x20000000#32).toNat 64 1) readyMachine.sched := by
    refine ⟨rfl, ?_, ?_, ?_⟩ <;> intro t <;> rw [readyMachine, Sched.rtosInsertReadyList_tcb]
  exact .create (fun hc => hc rfl)
    (by simp [bareMachine, Sched.rtosSystemInit, Sched.rtosInitTcb])
    ⟨by decide, by decide, by decide⟩ (fun u hu => absurd rfl hu) hkeep

/-- The registers with which the task is started. -/
def startCore : Core :=
  { readyMachine.core with psp := savedSp readyMachine.sched (.user 0) }

/-- The frame of `main` is stacked away from the new stack. -/
theorem readyMachine_spares : readyMachine.Spares 0x08000101#32
    (startCore.exceptionEntry .threadMain false).mem := by
  intro t x hx i hi
  have ht : t = .user 0 := by
    by_contra hne
    simp [readyMachine, bareMachine, update_of_ne hne] at hx
  subst ht
  have hx' : Context.fresh 0x08000201#32 7#32 (slot 0x20000000#32 64) = x := by
    simpa [readyMachine] using hx
  subst hx'
  have hi' : i < 17 := hi
  have hbase : savedSp readyMachine.sched (.user 0) = 0x200000BC#32 := by rfl
  have haddr : (slot (0x200000BC#32) i).toNat = (0x200000BC#32).toNat + 4 * i :=
    slot_toNat (by simp; omega)
  rw [hbase, Core.exceptionEntry_mem]
  refine writeBlock_of_outside (by decide) (Or.inl ?_)
  rw [haddr]
  have hmain : (entrySp (startCore.sp Origin.threadMain.process) false).toNat = 0x20000FE0 := by
    decide
  rw [hmain]
  simp
  omega

theorem running_steps : ∃ c, Exec (PortStep smallConfig 0x08000101#32) readyMachine
    [.start (.user 0) c, .other] runningMachine := by
  have hstart : PortStep smallConfig 0x08000101#32 readyMachine
      (.start (.user 0) (svcHandler (startCore.exceptionEntry .threadMain false)).exceptionReturn)
      { sched := runningMachine.sched
        core := (svcHandler (startCore.exceptionEntry .threadMain false)).exceptionReturn
        context := runningMachine.context } :=
    .start (by rfl) (Prod.ext rfl (by rfl)) (by unfold Created; decide) (by rfl) readyMachine_spares
  have hother : PortStep smallConfig 0x08000101#32
      { sched := runningMachine.sched
        core := (svcHandler (startCore.exceptionEntry .threadMain false)).exceptionReturn
        context := runningMachine.context } .other runningMachine := by
    refine .other ⟨rfl, fun _ => rfl, fun _ => rfl, fun _ => rfl⟩ fun t x hx => ?_
    by_cases ht : t = .user 0
    · simp [runningMachine, ht] at hx
    · simp [runningMachine, readyMachine, bareMachine] at hx
  exact ⟨_, (Exec.single hstart).snoc hother⟩

/-- What the switch of the running task returns. -/
def switchSched : Sched × ℕ :=
  let p := pendSVSave (runningMachine.core.exceptionEntry .threadProcess false)
  runningMachine.sched.rtosSchedulerSwitchContext smallConfig p.r0.toNat
    (lowWords p.mem (runningMachine.sched.tcb (.user 0)))

/-- The registers after its return. -/
def switchCore : Core :=
  { pendSVSave (runningMachine.core.exceptionEntry .threadProcess false) with
    r0 := BitVec.ofNat 32 switchSched.2 }

/-- A task is created and started, runs for a while, and is switched out and in again. -/
theorem context_round_trip_loneTask : ∃ tr live psp restored c,
    (PortEvent.switch (.user 0) live psp (.user 0) restored c).Restores 0x08000101#32 tr := by
  obtain ⟨c, hrun⟩ := running_steps
  have hswitch : PortStep smallConfig 0x08000101#32 runningMachine
      (.switch (.user 0) (Live.of (runningMachine.core.exceptionEntry .threadProcess false))
        runningMachine.core.psp (.user 0) (Live.of (pendSVRestore switchCore))
        (pendSVRestore switchCore).exceptionReturn)
      { sched := switchSched.1
        core := (pendSVRestore switchCore).exceptionReturn
        context := update (runningMachine.parked (.user 0) false switchSched.1).context
          (.user 0) none } :=
    .switch (by rfl) ⟨by decide, by decide⟩ (show _ = (switchSched.1, switchSched.2) from rfl)
      (by decide) (by rfl) rfl fun _ _ _ _ _ => rfl
  have hfirst : Exec (PortStep smallConfig 0x08000101#32) bareMachine _ runningMachine :=
    (Exec.single ready_step).trans hrun
  exact ⟨_, _, _, _, _, context_round_trip bareMachine_initial hfirst hswitch⟩

end Artos
