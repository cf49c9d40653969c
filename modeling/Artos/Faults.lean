/-
# The hard fault handler

`HardFault_Handler` picks the stack that the fault used and `rtos_port_hard_fault_c`
copies the stacked registers into `rtos_fault_info`.  When bit 4 of EXC_RETURN is
clear, it first moves 18 words up the frame, although `r0` stands at the bottom of
both frame formats; what it then records are the last six of `s0`-`s15`, the
floating-point status register and the reserved word.
-/
import Artos.Cortex

open Cortex

namespace Artos

/-- The fault status registers of the System Control Block. -/
structure FaultStatus where
  cfsr : Word
  hfsr : Word
  mmfar : Word
  bfar : Word

/-- `rtos_fault_info_t`. -/
structure FaultInfo where
  r0 : Word
  r1 : Word
  r2 : Word
  r3 : Word
  r12 : Word
  lr : Word
  pc : Word
  xpsr : Word
  excReturn : Word
  cfsr : Word
  hfsr : Word
  mmfar : Word
  bfar : Word

/-- `rtos_port_hard_fault_c`: what it records before it halts. -/
def rtosPortHardFaultC (mem : Word → Word) (status : FaultStatus) (frame excReturn : Word) :
    FaultInfo :=
  let frame := if excReturn &&& 0x10#32 = 0#32 then slot frame 18 else frame
  { r0 := mem (slot frame 0)
    r1 := mem (slot frame 1)
    r2 := mem (slot frame 2)
    r3 := mem (slot frame 3)
    r12 := mem (slot frame 4)
    lr := mem (slot frame 5)
    pc := mem (slot frame 6)
    xpsr := mem (slot frame 7)
    excReturn := excReturn
    cfsr := status.cfsr
    hfsr := status.hfsr
    mmfar := status.mmfar
    bfar := status.bfar }

/-- `HardFault_Handler`: the main stack pointer if bit 2 of EXC_RETURN is clear, else the
process stack pointer. -/
def hardFaultHandler (status : FaultStatus) (c : Core) : FaultInfo :=
  let r0 := if c.lr &&& 0x4#32 = 0#32 then c.msp else c.psp
  rtosPortHardFaultC c.mem status r0 c.lr

/-- The recorded registers are the eight that the processor stacked. -/
def RecordsStacked (c : Core) (o : Origin) (extended : Bool) (status : FaultStatus) : Prop :=
  let info := hardFaultHandler status (c.exceptionEntry o extended)
  [info.r0, info.r1, info.r2, info.r3, info.r12, info.lr, info.pc, info.xpsr] =
    c.basicFrame ((c.sp o.process).getLsbD 2)

/-- The words 18 to 25 of an extended frame: `s10`-`s15`, the status register and what the
reserved word held before. -/
def upperFrame (c : Core) (o : Origin) : List Word :=
  [c.sLow 10, c.sLow 11, c.sLow 12, c.sLow 13, c.sLow 14, c.sLow 15, c.fpscr,
    c.mem (slot (entrySp (c.sp o.process) true) 25)]

section

variable (c : Core) (o : Origin) (extended : Bool) (status : FaultStatus)

/-- The handler passes the bottom of the frame. -/
theorem hardFaultHandler_entry :
    hardFaultHandler status (c.exceptionEntry o extended) =
      rtosPortHardFaultC (c.exceptionEntry o extended).mem status
        (entrySp (c.sp o.process) extended) (excReturn o extended) := by
  rw [← Core.exceptionEntry_sp]
  unfold hardFaultHandler
  rw [Core.exceptionEntry_lr]
  have hbit : excReturn o extended &&& 0x4#32 = 0#32 ↔ o.process = false := by
    cases o <;> cases extended <;> decide
  cases hp : o.process <;> simp [hbit, hp, Core.sp]

/-- The stacked words are found in memory. -/
theorem holds_frame :
    Holds (c.exceptionEntry o extended).mem (entrySp (c.sp o.process) extended)
      (c.frame ((c.sp o.process).getLsbD 2) extended) := by
  rw [Core.exceptionEntry_mem]
  refine holds_writeBlock ?_
  rw [Core.length_frame]
  split <;> decide

/-- A basic frame is recorded from its bottom. -/
theorem recorded_basic : RecordsStacked c o false status := by
  have hbasic : excReturn o false &&& 0x10#32 ≠ 0#32 := by cases o <;> decide
  unfold RecordsStacked
  rw [hardFaultHandler_entry]
  simp only [rtosPortHardFaultC, if_neg hbasic]
  have hloads := (holds_frame c o false).loads
  rw [Core.length_frame] at hloads
  exact hloads

/-- An extended frame is recorded from its word 18. -/
theorem recorded_extended :
    RecordsStacked c o true status ↔
      upperFrame c o = c.basicFrame ((c.sp o.process).getLsbD 2) := by
  have hextended : excReturn o true &&& 0x10#32 = 0#32 := by cases o <;> decide
  unfold RecordsStacked
  rw [hardFaultHandler_entry]
  simp only [rtosPortHardFaultC, if_pos hextended, slot_slot]
  -- the reserved word keeps what memory held there
  have hreserved : (c.exceptionEntry o true).mem (slot (entrySp (c.sp o.process) true) 25) =
      c.mem (slot (entrySp (c.sp o.process) true) 25) := by
    rw [Core.exceptionEntry_mem]
    refine writeBlock_of_notSlot fun i hi => ?_
    rw [Core.length_frame] at hi
    exact slot_ne (by omega) (by simp at hi; omega) (by simp at hi; omega)
  have hloads := congrArg (List.drop 18) (holds_frame c o true).loads
  rw [Core.length_frame] at hloads
  have hupper : [18, 19, 20, 21, 22, 23, 24, 25].map
      (fun i => (c.exceptionEntry o true).mem (slot (entrySp (c.sp o.process) true) i)) =
        upperFrame c o :=
    calc _ = ((List.range 25).map fun i => (c.exceptionEntry o true).mem
            (slot (entrySp (c.sp o.process) true) i)).drop 18 ++
          [(c.exceptionEntry o true).mem (slot (entrySp (c.sp o.process) true) 25)] := rfl
      _ = (c.frame ((c.sp o.process).getLsbD 2) true).drop 18 ++
          [c.mem (slot (entrySp (c.sp o.process) true) 25)] := by
        rw [hreserved]
        exact congrArg (· ++ _) hloads
      _ = upperFrame c o := rfl
  rw [← hupper]
  rfl

end

/-- **The recorded registers are the stacked ones** if and only if the frame is basic, or
the words 18 to 25 of the frame happen to be the same. -/
theorem fault_frame_recorded (c : Core) (o : Origin) (extended : Bool) (status : FaultStatus) :
    RecordsStacked c o extended status ↔
      (extended = true → upperFrame c o = c.basicFrame ((c.sp o.process).getLsbD 2)) := by
  cases extended with
  | false => simpa using recorded_basic c o status
  | true => simpa using recorded_extended c o status

/-- A thread on the process stack, with 1 in `r0` and zero everywhere else. -/
def oneCore : Core where
  r0 := 1
  r1 := 0
  r2 := 0
  r3 := 0
  high := fun _ => 0
  r12 := 0
  lr := 0
  pc := 0
  xpsr := 0
  sLow := fun _ => 0
  sHigh := fun _ => 0
  fpscr := 0
  msp := 0
  psp := 0x20001000
  mem := fun _ => 0

/-- A fault of a task that used the floating-point unit records 0 for `r0`, which held 1. -/
theorem fault_frame_not_recorded :
    ¬ RecordsStacked oneCore .threadProcess true ⟨0, 0, 0, 0⟩ := by
  rw [recorded_extended]
  simp [upperFrame, oneCore, Core.basicFrame]

end Artos
