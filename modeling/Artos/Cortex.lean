/-
# Registers, memory and exceptions of an ARMv7-M processor

General support: the registers of a processor with the floating-point extension, a
memory of words, the block transfers through `r0`, and exception entry and return.
Nothing here mentions the kernel.

* `writeBlock`, `Holds` : a block of words written to memory, and found there;
* `Core.stmdb`, `Core.ldmia`, `Core.vstmdb`, `Core.vldmia` : the block transfers;
* `Core.exceptionEntry`, `Core.exceptionReturn` : stacking and unstacking.  The frame
  is basic (eight words) or extended (with `s0`-`s15`, the status register and a
  reserved word), and bit 4 of EXC_RETURN is clear for an extended frame; bit 2 names
  the stack.

Stack pointers are multiples of four, so a word is stored and read whole.  Lazy
stacking is read as if the floating-point words were stacked at once.
-/
import Mathlib

open Function

namespace Cortex

/-- A register or a word of memory. -/
abbrev Word := BitVec 32

/-! ## Blocks of memory -/

/-- The address of word `i` of the block at `a`. -/
def slot (a : Word) (i : ℕ) : Word := a + BitVec.ofNat 32 (4 * i)

/-- The words of memory after a block has been written at `a`. -/
def writeBlock (mem : Word → Word) (a : Word) : List Word → Word → Word
  | [] => mem
  | w :: ws => update (writeBlock mem (slot a 1) ws) a w

/-- The block at `a` holds the words. -/
def Holds (mem : Word → Word) (a : Word) (ws : List Word) : Prop :=
  ∀ i (hi : i < ws.length), mem (slot a i) = ws[i]

@[simp] theorem slot_zero (a : Word) : slot a 0 = a := by simp [slot]

/-- Slots are counted from any slot. -/
@[simp] theorem slot_slot (a : Word) (i j : ℕ) : slot (slot a i) j = slot a (i + j) := by
  unfold slot
  rw [BitVec.add_assoc, ← BitVec.ofNat_add, Nat.mul_add]

/-- The address of a slot, as a number. -/
theorem slot_toNat {a : Word} {i : ℕ} (h : a.toNat + 4 * i < 4294967296) :
    (slot a i).toNat = a.toNat + 4 * i := by
  unfold slot
  rw [BitVec.toNat_add, BitVec.toNat_ofNat, Nat.mod_eq_of_lt (by omega : 4 * i < 2 ^ 32),
    Nat.mod_eq_of_lt (by omega)]

section

variable {mem mem' : Word → Word} {a b x : Word} {ws xs ys : List Word} {n : ℕ}

/-- Different slots of a block have different addresses. -/
theorem slot_ne {i j : ℕ} (hi : 4 * i < 4294967296) (hj : 4 * j < 4294967296) (hij : i ≠ j) :
    slot a i ≠ slot a j := by
  unfold slot
  intro he
  have hofs := congrArg BitVec.toNat (add_left_cancel he)
  rw [BitVec.toNat_ofNat, BitVec.toNat_ofNat, Nat.mod_eq_of_lt (by omega),
    Nat.mod_eq_of_lt (by omega)] at hofs
  omega

/-- Writing a block leaves the words outside it alone. -/
theorem writeBlock_of_notSlot (hx : ∀ i, i < ws.length → x ≠ slot a i) :
    writeBlock mem a ws x = mem x := by
  induction ws generalizing a with
  | nil => rfl
  | cons w ws ih =>
      have hxa : x ≠ a := by simpa using hx 0 (by simp)
      rw [writeBlock, update_of_ne hxa]
      refine ih fun i hi => ?_
      rw [slot_slot, Nat.add_comm]
      exact hx (i + 1) (by simpa using hi)

/-- **A block that has been written is found again.** -/
theorem holds_writeBlock (h : 4 * ws.length ≤ 4294967296) :
    Holds (writeBlock mem a ws) a ws := by
  induction ws generalizing a with
  | nil => exact fun i hi => absurd hi (Nat.not_lt_zero i)
  | cons w ws ih =>
      intro i hi
      simp only [List.length_cons] at h hi
      cases i with
      | zero => simp [writeBlock]
      | succ i =>
          have hne : slot a (i + 1) ≠ a := by
            simpa using slot_ne (a := a) (i := i + 1) (j := 0) (by omega) (by omega) (by omega)
          have hrest := ih (a := slot a 1) (by omega) i (by omega)
          rw [slot_slot, Nat.add_comm 1 i] at hrest
          rw [writeBlock, update_of_ne hne, hrest]
          rfl

/-- Writing a block that ends below an address leaves the word there alone. -/
theorem writeBlock_of_outside (h : a.toNat + 4 * ws.length ≤ 4294967296)
    (hx : x.toNat < a.toNat ∨ a.toNat + 4 * ws.length ≤ x.toNat) :
    writeBlock mem a ws x = mem x := by
  refine writeBlock_of_notSlot fun i hi he => ?_
  have hslot := congrArg BitVec.toNat he
  rw [slot_toNat (by omega)] at hslot
  omega

/-- A block that is held is what its loads return. -/
theorem Holds.loads (hm : Holds mem a ws) :
    ((List.range ws.length).map fun i => mem (slot a i)) = ws := by
  refine List.ext_getElem (by simp) fun i hi hi' => ?_
  rw [List.getElem_map, List.getElem_range]
  exact hm i hi'

/-- A block is found in every memory that agrees on it. -/
theorem Holds.congr (hm : Holds mem a ws)
    (h : ∀ i, i < ws.length → mem' (slot a i) = mem (slot a i)) : Holds mem' a ws :=
  fun i hi => (h i hi).trans (hm i hi)

/-- Two blocks in a row. -/
theorem holds_append : Holds mem a (xs ++ ys) ↔ Holds mem a xs ∧
    Holds mem (slot a xs.length) ys := by
  constructor
  · refine fun hm => ⟨fun i hi => ?_, fun i hi => ?_⟩
    · rw [hm i (by rw [List.length_append]; omega), List.getElem_append_left hi]
    · rw [slot_slot, hm (xs.length + i) (by rw [List.length_append]; omega),
        List.getElem_append_right (by omega)]
      simp
  · rintro ⟨hx, hy⟩ i hi
    rw [List.length_append] at hi
    by_cases hlt : i < xs.length
    · rw [List.getElem_append_left hlt, hx i hlt]
    · rw [List.getElem_append_right (by omega), ← hy (i - xs.length) (by omega), slot_slot]
      congr 2
      omega

/-- Two blocks in a row are written as one. -/
theorem writeBlock_append :
    writeBlock mem a (xs ++ ys) = writeBlock (writeBlock mem (slot a xs.length) ys) a xs := by
  induction xs generalizing a with
  | nil => rw [List.nil_append, List.length_nil, slot_zero, writeBlock]
  | cons x xs ih =>
      rw [List.cons_append, writeBlock, writeBlock, ih, slot_slot, List.length_cons,
        Nat.add_comm 1]

end

/-! ## Registers -/

/-- The registers and the memory. -/
structure Core where
  r0 : Word
  r1 : Word
  r2 : Word
  r3 : Word
  /-- `r4`-`r11`. -/
  high : Fin 8 → Word
  r12 : Word
  lr : Word
  pc : Word
  xpsr : Word
  /-- `s0`-`s15`. -/
  sLow : Fin 16 → Word
  /-- `s16`-`s31`. -/
  sHigh : Fin 16 → Word
  fpscr : Word
  /-- The main stack pointer. -/
  msp : Word
  /-- The process stack pointer. -/
  psp : Word
  mem : Word → Word

namespace Core

/-- `stmdb r0!, {r4-r11, lr}`. -/
def stmdb (c : Core) : Core :=
  { c with
    mem := writeBlock c.mem (c.r0 - 36#32) (List.ofFn c.high ++ [c.lr])
    r0 := c.r0 - 36#32 }

/-- `ldmia r0!, {r4-r11, lr}`. -/
def ldmia (c : Core) : Core :=
  { c with
    high := fun i => c.mem (slot c.r0 i)
    lr := c.mem (slot c.r0 8)
    r0 := c.r0 + 36#32 }

/-- `vstmdb r0!, {s16-s31}`. -/
def vstmdb (c : Core) : Core :=
  { c with
    mem := writeBlock c.mem (c.r0 - 64#32) (List.ofFn c.sHigh)
    r0 := c.r0 - 64#32 }

/-- `vldmia r0!, {s16-s31}`. -/
def vldmia (c : Core) : Core :=
  { c with
    sHigh := fun i => c.mem (slot c.r0 i)
    r0 := c.r0 + 64#32 }

end Core

/-! ## Exceptions -/

/-- What an exception interrupts: a handler, or a thread on the main or on the process
stack. -/
inductive Origin where
  | handler
  | threadMain
  | threadProcess
  deriving DecidableEq

/-- The process stack is in use. -/
def Origin.process : Origin → Bool
  | .threadProcess => true
  | _ => false

/-- The EXC_RETURN value that the processor loads into `lr`. -/
def excReturn (o : Origin) (extended : Bool) : Word :=
  match o, extended with
  | .handler, false => 0xFFFFFFF1#32
  | .threadMain, false => 0xFFFFFFF9#32
  | .threadProcess, false => 0xFFFFFFFD#32
  | .handler, true => 0xFFFFFFE1#32
  | .threadMain, true => 0xFFFFFFE9#32
  | .threadProcess, true => 0xFFFFFFED#32

/-- Bit 4 of EXC_RETURN is clear for an extended frame. -/
@[simp] theorem excReturn_basic (o : Origin) (extended : Bool) :
    (excReturn o extended).getLsbD 4 = !extended := by
  cases o <;> cases extended <;> rfl

/-- Bit 2 of EXC_RETURN names the stack. -/
@[simp] theorem excReturn_process (o : Origin) (extended : Bool) :
    (excReturn o extended).getLsbD 2 = o.process := by
  cases o <;> cases extended <;> rfl

/-- The number of bytes of a frame. -/
def frameBytes (extended : Bool) : Word := if extended then 104#32 else 32#32

/-- The stack pointer after stacking.  Clearing bit 2 of the new pointer makes it a
multiple of eight; since the frames are, this drops four when bit 2 was set. -/
def entrySp (sp : Word) (extended : Bool) : Word :=
  sp - frameBytes extended - if sp.getLsbD 2 then 4#32 else 0#32

/-- The stack pointer after unstacking; bit 9 of the stacked xPSR tells whether four
bytes were dropped. -/
def returnSp (sp : Word) (extended : Bool) (xpsr : Word) : Word :=
  sp + frameBytes extended + if xpsr.getLsbD 9 then 4#32 else 0#32

/-- The xPSR as it is stacked: bit 9 remembers the alignment. -/
def stackedXpsr (xpsr : Word) (align : Bool) : Word :=
  (xpsr &&& ~~~0x200#32) ||| if align then 0x200#32 else 0#32

@[simp] theorem stackedXpsr_align (xpsr : Word) (align : Bool) :
    (stackedXpsr xpsr align).getLsbD 9 = align := by
  cases align <;> simp [stackedXpsr]

/-- **Unstacking undoes stacking**, on the stack pointer. -/
theorem returnSp_entrySp {sp xpsr : Word} (extended : Bool)
    (h : xpsr.getLsbD 9 = sp.getLsbD 2) : returnSp (entrySp sp extended) extended xpsr = sp := by
  unfold returnSp entrySp
  rw [h]
  generalize frameBytes extended = n
  generalize (if sp.getLsbD 2 = true then 4#32 else 0#32) = p
  bv_omega

namespace Core

/-- The active stack pointer. -/
def sp (c : Core) (process : Bool) : Word := if process then c.psp else c.msp

/-- The eight words of a basic frame. -/
def basicFrame (c : Core) (align : Bool) : List Word :=
  [c.r0, c.r1, c.r2, c.r3, c.r12, c.lr, c.pc, stackedXpsr c.xpsr align]

/-- The words that are stacked; the reserved word of an extended frame is skipped. -/
def frame (c : Core) (align extended : Bool) : List Word :=
  c.basicFrame align ++ if extended then List.ofFn c.sLow ++ [c.fpscr] else []

/-- Set the active stack pointer. -/
def setSp (c : Core) (process : Bool) (sp : Word) : Core :=
  if process then { c with psp := sp } else { c with msp := sp }

/-- **Exception entry**: the frame is stacked on the active stack, and `lr` is loaded. -/
def exceptionEntry (c : Core) (o : Origin) (extended : Bool) : Core :=
  let top := c.sp o.process
  let bottom := entrySp top extended
  let c := { c with mem := writeBlock c.mem bottom (c.frame (top.getLsbD 2) extended) }
  let c := c.setSp o.process bottom
  { c with lr := excReturn o extended }

/-- **Exception return** with the EXC_RETURN value in `lr`: the frame is unstacked. -/
def exceptionReturn (c : Core) : Core :=
  let process := c.lr.getLsbD 2
  let extended := !c.lr.getLsbD 4
  let a := c.sp process
  let xpsr := c.mem (slot a 7)
  let c' :=
    { c with
      r0 := c.mem (slot a 0)
      r1 := c.mem (slot a 1)
      r2 := c.mem (slot a 2)
      r3 := c.mem (slot a 3)
      r12 := c.mem (slot a 4)
      lr := c.mem (slot a 5)
      pc := c.mem (slot a 6)
      xpsr := xpsr &&& ~~~0x200#32
      sLow := if extended then fun i => c.mem (slot a (8 + i)) else c.sLow
      fpscr := if extended then c.mem (slot a 24) else c.fpscr }
  c'.setSp process (returnSp a extended xpsr)

/-- The active stack pointer after exception entry addresses the frame. -/
theorem exceptionEntry_sp (c : Core) (o : Origin) (extended : Bool) :
    (c.exceptionEntry o extended).sp o.process = entrySp (c.sp o.process) extended := by
  cases o <;> rfl

@[simp] theorem exceptionEntry_lr (c : Core) (o : Origin) (extended : Bool) :
    (c.exceptionEntry o extended).lr = excReturn o extended := rfl

@[simp] theorem exceptionEntry_mem (c : Core) (o : Origin) (extended : Bool) :
    (c.exceptionEntry o extended).mem =
      writeBlock c.mem (entrySp (c.sp o.process) extended)
        (c.frame ((c.sp o.process).getLsbD 2) extended) := by
  cases o <;> rfl

theorem length_frame (c : Core) (align extended : Bool) :
    (c.frame align extended).length = if extended then 25 else 8 := by
  cases extended <;> simp [frame, basicFrame]

end Core

end Cortex
