/-
# The Cortex-M4F port: initial stacks and the switch handlers

`rtos_port_initialize_stack` as the words it pushes, and `SVC_Handler` and
`PendSV_Handler` as their instructions.  Three writers share one format: what
PendSV saves of a task (`save_spec`), what the initial stack holds
(`holds_initializeStack`), and what a handler restores (`restore_spec`,
`svcHandler_spec`).

`Live` is what a switch has to keep of a task: `r4`-`r11`, EXC_RETURN, the process
stack pointer and, for an extended frame, `s16`-`s31`.
-/
import Artos.Cortex

open Cortex Function

namespace Artos

/-! ## The initial stack -/

/-- `ARTOS_PORT_INITIAL_XPSR`. -/
def artosPortInitialXpsr : Word := 0x01000000#32

/-- `ARTOS_PORT_INITIAL_EXC_RETURN`. -/
def artosPortInitialExcReturn : Word := 0xFFFFFFFD#32

/-- The statements `*(--stack_top) = w`, for each of the words. -/
def push (mem : Word → Word) (stackTop : Word) : List Word → (Word → Word) × Word
  | [] => (mem, stackTop)
  | w :: ws => push (update mem (stackTop - 4#32) w) (stackTop - 4#32) ws

/-- The words that `rtos_port_initialize_stack` pushes, in order; `trap` is the address of
`rtos_port_task_return_trap`. -/
def initialWords (trap entry argument : Word) : List Word :=
  [artosPortInitialXpsr, entry &&& ~~~1#32, trap, 0, 0, 0, 0, argument,
    artosPortInitialExcReturn] ++ List.replicate 8 0

namespace Port

/-- `rtos_port_initialize_stack`. -/
def rtosPortInitializeStack (trap : Word) (mem : Word → Word) (stackTop entry argument : Word) :
    (Word → Word) × Word :=
  push mem stackTop (initialWords trap entry argument)

end Port

section

variable {mem : Word → Word} {a top x : Word} {n : ℕ}

/-- The pushed words are found below the old top, the last one first, and nothing else
has changed. -/
theorem push_spec (ws : List Word) (h : 4 * ws.length ≤ top.toNat) :
    (push mem top ws).2.toNat = top.toNat - 4 * ws.length ∧
      slot (push mem top ws).2 ws.length = top ∧
      Holds (push mem top ws).1 (push mem top ws).2 ws.reverse ∧
      ∀ x : Word, (x.toNat < top.toNat - 4 * ws.length ∨ top.toNat ≤ x.toNat) →
        (push mem top ws).1 x = mem x := by
  induction ws generalizing mem top with
  | nil => exact ⟨rfl, slot_zero _, fun i hi => absurd hi (Nat.not_lt_zero i), fun _ _ => rfl⟩
  | cons w ws ih =>
      simp only [List.length_cons] at h
      have htop : (top - 4#32).toNat = top.toNat - 4 := by bv_omega
      have hrest : 4 * ws.length ≤ (top - 4#32).toNat := by omega
      obtain ⟨hsp, hslot, hm, hother⟩ := @ih (update mem (top - 4#32) w) (top - 4#32) hrest
      simp only [push, List.length_cons]
      refine ⟨by omega, ?_, ?_, fun x hx => ?_⟩
      · rw [← slot_slot, hslot]
        simp [slot]
      · rw [List.reverse_cons, holds_append, List.length_reverse, hslot]
        refine ⟨hm, fun i hi => ?_⟩
        obtain rfl : i = 0 := by simpa using hi
        rw [slot_zero, hother _ (by omega), update_self]
        rfl
      · rw [hother x (by omega), update_of_ne]
        rintro rfl
        omega

/-- **The initial stack holds** `r4`-`r11`, EXC_RETURN and the basic frame of a call of the
entry with its argument, from the returned stack pointer up to the top. -/
theorem holds_initializeStack (trap : Word) (mem : Word → Word) (top entry argument : Word)
    (h : 68 ≤ top.toNat) :
    let r := Port.rtosPortInitializeStack trap mem top entry argument
    r.2.toNat = top.toNat - 68 ∧ slot r.2 17 = top ∧
      Holds r.1 r.2 (initialWords trap entry argument).reverse ∧
      ∀ x : Word, (x.toNat < top.toNat - 68 ∨ top.toNat ≤ x.toNat) → r.1 x = mem x :=
  push_spec (initialWords trap entry argument) h

end

/-! ## The handlers -/

/-- `SVC_Handler`, up to its `bx lr`. -/
def svcHandler (c : Core) : Core :=
  let c := { c with r0 := c.psp }
  let c := c.ldmia
  { c with psp := c.r0 }

/-- `PendSV_Handler`, up to its call of `rtos_scheduler_switch_context`. -/
def pendSVSave (c : Core) : Core :=
  let c := { c with r0 := c.psp }
  let c := if c.lr &&& 0x10#32 = 0#32 then c.vstmdb else c
  c.stmdb

/-- `PendSV_Handler`, from the return of that call up to its `bx lr`. -/
def pendSVRestore (c : Core) : Core :=
  let c := c.ldmia
  let c := if c.lr &&& 0x10#32 = 0#32 then c.vldmia else c
  { c with psp := c.r0 }

/-- What is live of a task in a handler. -/
structure Live where
  /-- `r4`-`r11`. -/
  high : Fin 8 → Word
  excReturn : Word
  /-- `s16`-`s31`, if the frame is extended. -/
  fp : Option (Fin 16 → Word)
  psp : Word

/-- What the registers hold of it. -/
def Live.of (c : Core) : Live where
  high := c.high
  excReturn := c.lr
  fp := if c.lr &&& 0x10#32 = 0#32 then some c.sHigh else none
  psp := c.psp

/-- The words in which a task's registers are saved, from the saved stack pointer up. -/
def Live.words (l : Live) : List Word :=
  List.ofFn l.high ++ ([l.excReturn] ++ (l.fp.elim [] List.ofFn))

/-- The live part of a task whose frame is of the given kind. -/
def Live.Of (l : Live) (extended : Bool) : Prop :=
  l.excReturn = Cortex.excReturn .threadProcess extended ∧ l.fp.isSome = extended

/-- The test `tst lr, #0x10` on the value of an exception entry. -/
theorem excReturn_tst (extended : Bool) :
    excReturn .threadProcess extended &&& 0x10#32 = 0#32 ↔ extended = true := by
  cases extended <;> decide

section

variable {mem : Word → Word} {a : Word} {l : Live} {extended : Bool} {frame : List Word}

/-- A block that spells a function. -/
theorem holds_ofFn {n : ℕ} {f : Fin n → Word} :
    Holds mem a (List.ofFn f) ↔ ∀ i : Fin n, mem (slot a i) = f i := by
  constructor
  · intro hm i
    have := hm i (by simp)
    simpa using this
  · intro hm i hi
    rw [List.getElem_ofFn]
    exact hm ⟨i, by simpa using hi⟩

/-- The words of a live part, one after the other. -/
theorem holds_words : Holds mem a (l.words ++ frame) ↔
    (∀ i : Fin 8, mem (slot a i) = l.high i) ∧ mem (slot a 8) = l.excReturn ∧
      Holds mem (slot a 9) (l.fp.elim [] List.ofFn) ∧
      Holds mem (slot a l.words.length) frame := by
  rw [holds_append]
  unfold Live.words
  rw [holds_append, holds_ofFn, holds_append, List.length_ofFn, slot_slot]
  have hone : Holds mem (slot a 8) [l.excReturn] ↔ mem (slot a 8) = l.excReturn := by
    constructor
    · intro hm
      simpa using hm 0 (by simp)
    · intro hm i hi
      obtain rfl : i = 0 := by simpa using hi
      simpa using hm
  rw [hone, List.length_singleton]
  tauto

theorem length_words (hl : l.Of extended) :
    l.words.length = if extended then 25 else 9 := by
  obtain ⟨-, hfp⟩ := hl
  unfold Live.words
  cases h : l.fp <;> simp [h] at hfp <;> subst hfp <;> simp

/-- The live part of a task that has never run. -/
def initialLive : Live where
  high := fun _ => 0
  excReturn := artosPortInitialExcReturn
  fp := none
  psp := 0

/-- The frame of a task that has never run. -/
def initialFrame (trap entry argument : Word) : List Word :=
  [argument, 0, 0, 0, 0, trap, entry &&& ~~~1#32, artosPortInitialXpsr]

/-- **The initial stack has the format of a switch**: a live part and a basic frame. -/
theorem initialWords_reverse (trap entry argument : Word) :
    (initialWords trap entry argument).reverse =
      initialLive.words ++ initialFrame trap entry argument := rfl

theorem initialLive_of : initialLive.Of false := ⟨rfl, rfl⟩

/-- **What a restore loads.**  If the block at `r0` starts with the words of a live part,
the handler restores it, with the process stack pointer behind them. -/
theorem restore_spec {c : Core} (hl : l.Of extended)
    (hm : Holds c.mem c.r0 (l.words ++ frame)) :
    Live.of (pendSVRestore c) = { l with psp := slot c.r0 l.words.length } ∧
      (pendSVRestore c).lr = excReturn .threadProcess extended ∧
      (pendSVRestore c).psp = slot c.r0 l.words.length ∧
      (pendSVRestore c).mem = c.mem := by
  obtain ⟨hhigh, hlr, hfp, -⟩ := holds_words.mp hm
  have hlen := length_words hl
  obtain ⟨hexc, hsome⟩ := hl
  have hhigh' : c.ldmia.high = l.high := funext hhigh
  have hlr' : c.ldmia.lr = l.excReturn := hlr
  cases extended with
  | false =>
      have htst : ¬ l.excReturn &&& 0x10#32 = 0#32 := by
        rw [hexc, excReturn_tst]
        simp
      have hnone : l.fp = none := by simpa using hsome
      have hpsp : c.r0 + 36#32 = slot c.r0 l.words.length := by
        rw [hlen]
        rfl
      have heq : pendSVRestore c = { c.ldmia with psp := c.r0 + 36#32 } := by
        unfold pendSVRestore
        simp only [hlr', if_neg htst]
        rfl
      rw [heq, hpsp]
      refine ⟨?_, hlr'.trans hexc, rfl, rfl⟩
      simp only [Live.of, hhigh', hlr', if_neg htst, hnone]
  | true =>
      have htst : l.excReturn &&& 0x10#32 = 0#32 := by
        rw [hexc, excReturn_tst]
      obtain ⟨f, hf⟩ := Option.isSome_iff_exists.mp hsome
      rw [hf] at hfp
      have hfp' : c.ldmia.vldmia.sHigh = f := funext (holds_ofFn.mp hfp)
      have hpsp : c.r0 + 36#32 + 64#32 = slot c.r0 l.words.length := by
        rw [hlen, BitVec.add_assoc]
        rfl
      have heq : pendSVRestore c = { c.ldmia.vldmia with psp := c.r0 + 36#32 + 64#32 } := by
        unfold pendSVRestore
        simp only [hlr', if_pos htst]
        rfl
      rw [heq, hpsp]
      refine ⟨?_, hlr'.trans hexc, rfl, rfl⟩
      have hhigh'' : c.ldmia.vldmia.high = l.high := hhigh'
      have hlr'' : c.ldmia.vldmia.lr = l.excReturn := hlr
      simp only [Live.of, hhigh'', hlr'', if_pos htst, hfp', hf]

/-- `SVC_Handler` restores as PendSV does from a basic frame. -/
theorem svcHandler_eq {c : Core} (hc : c.mem (slot c.psp 8) &&& 0x10#32 ≠ 0#32) :
    svcHandler c = pendSVRestore { c with r0 := c.psp } := by
  unfold svcHandler pendSVRestore
  have htst : ¬ ({ c with r0 := c.psp } : Core).ldmia.lr &&& 0x10#32 = 0#32 := hc
  simp only [if_neg htst]

end

/-- **What an exception return of a task loads**, from the frame at its process stack
pointer. -/
theorem exceptionReturn_spec {c : Core} {extended : Bool} {frame : List Word}
    (hlr : c.lr = excReturn .threadProcess extended) (hm : Holds c.mem c.psp frame)
    (hlen : 7 < frame.length) :
    c.exceptionReturn.r0 = frame[0] ∧ c.exceptionReturn.lr = frame[5] ∧
      c.exceptionReturn.pc = frame[6] ∧
      c.exceptionReturn.psp = returnSp c.psp extended frame[7] := by
  have hprocess : c.lr.getLsbD 2 = true := by
    rw [hlr, excReturn_process]
    rfl
  have hextended : (!c.lr.getLsbD 4) = extended := by
    rw [hlr, excReturn_basic, Bool.not_not]
  have hsp : c.sp true = c.psp := rfl
  unfold Core.exceptionReturn
  simp only [hprocess, hextended, Core.setSp, if_true, hsp]
  exact ⟨hm 0 (by omega), hm 5 (by omega), hm 6 (by omega), by rw [hm 7 hlen]⟩

/-! ## Saving -/

/-- The bytes that a switch puts on the stack of the task that it interrupts. -/
def savedBytes (psp : Word) (extended : Bool) : Word :=
  (if extended then 204#32 else 68#32) + if psp.getLsbD 2 then 4#32 else 0#32

section

variable (c : Core) (extended : Bool)

/-- The saved stack pointer. -/
theorem save_r0 :
    (pendSVSave (c.exceptionEntry .threadProcess extended)).r0 =
      c.psp - savedBytes c.psp extended := by
  have hpsp : (c.exceptionEntry .threadProcess extended).psp = entrySp c.psp extended := rfl
  unfold pendSVSave
  simp only [Core.exceptionEntry_lr, excReturn_tst, hpsp]
  unfold savedBytes entrySp frameBytes
  generalize (if c.psp.getLsbD 2 = true then 4#32 else 0#32) = p
  cases extended with
  | false =>
      show c.psp - 32#32 - p - 36#32 = c.psp - (68#32 + p)
      bv_omega
  | true =>
      show c.psp - 104#32 - p - 64#32 - 36#32 = c.psp - (204#32 + p)
      bv_omega

/-- The saved words are written as one block. -/
theorem save_mem :
    (pendSVSave (c.exceptionEntry .threadProcess extended)).mem =
      writeBlock c.mem (pendSVSave (c.exceptionEntry .threadProcess extended)).r0
        ((Live.of (c.exceptionEntry .threadProcess extended)).words ++
          c.frame (c.psp.getLsbD 2) extended) := by
  have hpsp : (c.exceptionEntry .threadProcess extended).psp = entrySp c.psp extended := rfl
  have h9 : ∀ x : Word, slot (x - 36#32) 9 = x := fun x => BitVec.sub_add_cancel x 36#32
  have h16 : ∀ x : Word, slot (x - 64#32) 16 = x := fun x => BitVec.sub_add_cancel x 64#32
  unfold pendSVSave Live.words Live.of
  simp only [Core.exceptionEntry_lr, excReturn_tst, hpsp]
  generalize hF : c.frame (c.psp.getLsbD 2) extended = F
  cases extended with
  | false =>
      have hregs : (List.ofFn c.high ++ [excReturn .threadProcess false]).length = 9 := by simp
      calc _ = writeBlock (writeBlock c.mem (entrySp c.psp false) F)
            (entrySp c.psp false - 36#32)
            (List.ofFn c.high ++ [excReturn .threadProcess false]) := by rw [← hF]; rfl
        _ = writeBlock c.mem (entrySp c.psp false - 36#32)
            ((List.ofFn c.high ++ [excReturn .threadProcess false]) ++ F) := by
          generalize List.ofFn c.high ++ [excReturn .threadProcess false] = regs at hregs ⊢
          rw [writeBlock_append, hregs, h9]
        _ = _ := rfl
  | true =>
      have hregs : (List.ofFn c.high ++ [excReturn .threadProcess true]).length = 9 := by simp
      have hfp : (List.ofFn c.sHigh).length = 16 := by simp
      have hassoc : List.ofFn c.high ++ ([excReturn .threadProcess true] ++ List.ofFn c.sHigh) ++
          F = (List.ofFn c.high ++ [excReturn .threadProcess true]) ++
            (List.ofFn c.sHigh ++ F) := by
        simp
      calc _ = writeBlock (writeBlock (writeBlock c.mem (entrySp c.psp true) F)
              (entrySp c.psp true - 64#32) (List.ofFn c.sHigh))
            (entrySp c.psp true - 64#32 - 36#32)
            (List.ofFn c.high ++ [excReturn .threadProcess true]) := by rw [← hF]; rfl
        _ = writeBlock c.mem (entrySp c.psp true - 64#32 - 36#32)
            (List.ofFn c.high ++ ([excReturn .threadProcess true] ++ List.ofFn c.sHigh) ++ F) := by
          rw [hassoc]
          generalize List.ofFn c.high ++ [excReturn .threadProcess true] = regs at hregs ⊢
          rw [writeBlock_append, hregs, h9, writeBlock_append, hfp, h16]
        _ = _ := rfl

/-- **What a switch saves.**  Below the old stack pointer stand the words of the live
part and the frame of the exception, from the saved stack pointer up; nothing else of
memory has changed. -/
theorem save_spec {c : Core} {extended : Bool} {p : Core}
    (hp : p = pendSVSave (c.exceptionEntry .threadProcess extended))
    (hroom : p.r0.toNat + 208 < 4294967296) :
    Live.Of (Live.of (c.exceptionEntry .threadProcess extended)) extended ∧
      (Live.of (c.exceptionEntry .threadProcess extended)).psp =
        slot p.r0 (if extended then 25 else 9) ∧
      Holds p.mem p.r0 ((Live.of (c.exceptionEntry .threadProcess extended)).words ++
        c.frame (c.psp.getLsbD 2) extended) ∧
      p.r0.toNat + (if extended then 204 else 68) ≤ c.psp.toNat ∧
      ∀ x : Word, (x.toNat < p.r0.toNat ∨ c.psp.toNat ≤ x.toNat) → p.mem x = c.mem x := by
  have hr0 := save_r0 c extended
  have hmem := save_mem c extended
  rw [← hp] at hr0 hmem
  have hOf : Live.Of (Live.of (c.exceptionEntry .threadProcess extended)) extended := by
    refine ⟨rfl, ?_⟩
    simp only [Live.of, Core.exceptionEntry_lr, excReturn_tst]
    cases extended <;> rfl
  have hlen : ((Live.of (c.exceptionEntry .threadProcess extended)).words ++
      c.frame (c.psp.getLsbD 2) extended).length = if extended then 50 else 17 := by
    rw [List.length_append, length_words hOf, Core.length_frame]
    cases extended <;> rfl
  have hbytes : p.r0.toNat + (if extended then 204 else 68) ≤ c.psp.toNat := by
    have hpad : (if c.psp.getLsbD 2 then 4#32 else 0#32).toNat ≤ 4 := by
      split <;> decide
    unfold savedBytes at hr0
    generalize (if c.psp.getLsbD 2 = true then 4#32 else 0#32) = pad at hr0 hpad
    cases extended <;> simp only [Bool.false_eq_true, if_true, if_false] at hr0 ⊢ <;> bv_omega
  refine ⟨hOf, ?_, ?_, hbytes, fun x hx => ?_⟩
  · show entrySp c.psp extended = _
    rw [hr0]
    unfold entrySp savedBytes frameBytes slot
    generalize (if c.psp.getLsbD 2 = true then 4#32 else 0#32) = pad
    cases extended <;> simp only [Bool.false_eq_true, if_true, if_false] <;> bv_omega
  · rw [hmem]
    refine holds_writeBlock ?_
    rw [hlen]
    split <;> decide
  · rw [hmem]
    refine writeBlock_of_outside ?_ ?_
    · rw [hlen]
      split <;> omega
    · rw [hlen]
      split <;> split at hbytes <;> simp_all <;> omega

end

end Artos
