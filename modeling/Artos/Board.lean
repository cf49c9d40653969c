/-
# The kernel on the processor

The machine of tasks and interrupts (`Step`) and the machine of registers and stacks (`PortStep`)
run together: what PendSV has saved is what `rtos_scheduler_switch_context` is given, and the guard
words that it reads are those in memory.

* `BoardStep` : one step of both, or of one while the other rests;
* `BoardStep.port` : a step that records no failure is a step of the machine of registers and
  stacks;
* `Saved.check_iff` : the stack check passes if and only if the stack of the running task had room
  for everything that the switch puts on it, above the guard;
* `board_run` : what holds in every run.

Between switches the running task, handlers and the kernel may change every register, and every
word that is neither part of a saved frame nor of the guard of a stack.
-/
import Artos.Contexts
import Artos.StackChecks

open Cortex Function Runs

namespace Artos

open Sched

variable {cfg : Config} {trap : Word} {k k' : Sched} {t u cur next : Tid} {a : Action}
  {acts : List Action} {obs : List Obs} {s s' : Sys} {e : Event} {m : Machine} {extended : Bool}

/-! ## The machine -/

/-- The kernel with its tasks and handlers, the registers and the memory, and the contexts of the
created tasks that are not running (history). -/
structure Board where
  sys : Sys
  core : Core
  context : Tid → Option Context

namespace Board

/-- The registers, the stacks and the scheduler. -/
def machine (b : Board) : Machine := ⟨b.sys.sched, b.core, b.context⟩

/-- The registers at the call of `rtos_scheduler_switch_context`, for a frame of the given kind. -/
def saved (b : Board) (extended : Bool) : Core :=
  pendSVSave (b.core.exceptionEntry .threadProcess extended)

/-- The switch of the kernel that PendSV makes: the stack pointer after saving, and the guard words
of the current task in memory. -/
def switchEvent (b : Board) (cur : Tid) (extended : Bool) : Event :=
  .switch (b.saved extended).r0.toNat (lowWords (b.saved extended).mem (b.sys.sched.tcb cur))

end Board

/-- The guard words of every stack are those of the machine. -/
def Machine.SparesGuards (m : Machine) (mem : Word → Word) : Prop :=
  ∀ t, Created m.sched t → ∀ i, i < artosStackGuardWords →
    lowWords mem (m.sched.tcb t) i = lowWords m.core.mem (m.sched.tcb t) i

/-- What a step of the board is in the kernel and in the port. -/
abbrev BoardLabel := Option Label × Option PortEvent

/-- **One step of the board.** -/
inductive BoardStep (cfg : Config) (trap : Word) (b : Board) : BoardLabel → Board → Prop
  /-- The running task, a handler or the kernel computes. -/
  | compute {c : Core} (hrun : b.sys.sched.failure = none) (hmem : b.machine.Spares trap c.mem)
      (hguard : b.machine.SparesGuards c.mem) :
      BoardStep cfg trap b (none, some .other) { b with core := c }
  /-- The scheduler's part of any other step of the kernel. -/
  | kernel {e : Event} {obs : List Obs} {s' : Sys} (hs : Step cfg b.sys (e, obs) s')
      (hstart : e ≠ .start) (hswitch : e.isSwitch = false)
      (hcreate : Label.creation (e, obs) = none) :
      BoardStep cfg trap b (some (e, obs), some .other) { b with sys := s' }
  /-- A task is created on a stack of its own. -/
  | create {e : Event} {obs : List Obs} {s' : Sys} {entry argument stack : Word}
      {wordCount priority : ℕ} (hs : Step cfg b.sys (e, obs) s')
      (hcreate : Label.creation (e, obs) =
        some ⟨entry.toNat, argument.toNat, stack.toNat, wordCount, priority⟩)
      (htop : stack.toNat + stackWordBytes * wordCount ≤ 0xE0000000)
      (hapart : ∀ u, Created b.sys.sched u → Apart stack.toNat wordCount (b.sys.sched.tcb u)) :
      BoardStep cfg trap b
        (some (e, obs),
          some (.create (.user b.sys.sched.taskCount) entry argument (slot stack wordCount)))
        { sys := s'
          core := { b.core with mem := initStack trap b.core.mem stack wordCount entry argument }
          context := update b.context (.user b.sys.sched.taskCount)
            (some (.fresh entry argument (slot stack wordCount))) }
  /-- `artos_start`. -/
  | start {t : Tid} {s' : Sys} {c : Core} {extended : Bool} (hs : Step cfg b.sys (.start, []) s')
      (ht : (b.sys.sched.rtosSchedulerStart cfg).2 = some t) (hpsp : c.psp = savedSp s'.sched t)
      (hmem : b.machine.Spares trap (c.exceptionEntry .threadMain extended).mem)
      (hguard : b.machine.SparesGuards (c.exceptionEntry .threadMain extended).mem) :
      BoardStep cfg trap b
        (some (.start, []),
          some (.start t (svcHandler (c.exceptionEntry .threadMain extended)).exceptionReturn))
        { sys := s'
          core := (svcHandler (c.exceptionEntry .threadMain extended)).exceptionReturn
          context := update b.context t none }
  /-- PendSV is taken, and the kernel goes on. -/
  | switch {cur next : Tid} {extended : Bool} {s' : Sys} {c : Core} (hcur : b.sys.cur = some cur)
      (hpsp : InStack (b.sys.sched.tcb cur) b.core.psp)
      (hs : Step cfg b.sys (b.switchEvent cur extended, []) s') (hok : s'.sched.failure = none)
      (hnext : s'.cur = some next)
      (hr0 : c.r0 = BitVec.ofNat 32
        (b.sys.sched.rtosSchedulerSwitchContext cfg (b.saved extended).r0.toNat
          (lowWords (b.saved extended).mem (b.sys.sched.tcb cur))).2)
      (hmem : (b.machine.parked cur extended s'.sched).Spares trap c.mem)
      (hguard : (b.machine.parked cur extended s'.sched).SparesGuards c.mem) :
      BoardStep cfg trap b
        (some (b.switchEvent cur extended, []),
          some (.switch cur (Live.of (b.core.exceptionEntry .threadProcess extended)) b.core.psp
            next (Live.of (pendSVRestore c)) (pendSVRestore c).exceptionReturn))
        { sys := s'
          core := (pendSVRestore c).exceptionReturn
          context := update (b.machine.parked cur extended s'.sched).context next none }
  /-- PendSV is taken, and the kernel halts. -/
  | overrun {cur : Tid} {extended : Bool} {s' : Sys} (hcur : b.sys.cur = some cur)
      (hpsp : InStack (b.sys.sched.tcb cur) b.core.psp)
      (hs : Step cfg b.sys (b.switchEvent cur extended, []) s') (hfail : s'.sched.failure ≠ none) :
      BoardStep cfg trap b (some (b.switchEvent cur extended, []), none)
        { b with sys := s', core := b.saved extended }

/-- The kernel's part of a run. -/
def kernelPart (tr : List BoardLabel) : List Label := tr.filterMap Prod.fst

/-- The port's part of a run. -/
def portPart (tr : List BoardLabel) : List PortEvent := tr.filterMap Prod.snd

/-- The creation of the idle task by `rtos_system_init`. -/
def idleCreation : PortEvent := .create .idle 1#32 0#32 (slot 8#32 artosMinStackWords)

/-- The board after `artos_init` and the initialisation of its objects, whatever memory held
before. -/
structure BoardInitial (cfg : Config) (trap : Word) (b : Board) : Prop where
  sys : Initial cfg b.sys
  mem : ∃ mem, b.core.mem = initStack trap mem 8#32 artosMinStackWords 1#32 0#32
  context : b.context =
    update (fun _ => none) .idle (some (.fresh 1#32 0#32 (slot 8#32 artosMinStackWords)))

/-- **The stack has room** for what a switch puts on it, above the guard. -/
def Room (c : Tcb) (psp : Word) (extended : Bool) : Prop :=
  c.stackBuffer + stackWordBytes * artosStackGuardWords + (savedBytes psp extended).toNat ≤
    psp.toNat

/-! ## Guards -/

/-- The guard words of every created task are as they were written. -/
def GuardsOk (m : Machine) : Prop :=
  ∀ t, Created m.sched t → GuardIntact (lowWords m.core.mem (m.sched.tcb t))

/-- The address of a guard word. -/
theorem guard_address {stack wordCount i : ℕ} (hs : StackAt stack wordCount)
    (hi : i < artosStackGuardWords) :
    (BitVec.ofNat 32 (stack + stackWordBytes * i)).toNat = stack + stackWordBytes * i := by
  have htop := hs.top_le
  have hwords := hs.words
  unfold stackWordBytes artosMinStackWords artosStackGuardWords at *
  rw [BitVec.toNat_ofNat]
  apply Nat.mod_eq_of_lt
  omega

/-- Guard words that are written nowhere stay. -/
theorem GuardIntact.congr {mem mem' : Word → Word} {c c' : Tcb}
    (h : GuardIntact (lowWords mem c)) (hbuf : c'.stackBuffer = c.stackBuffer)
    (hmem : ∀ i, i < artosStackGuardWords → lowWords mem' c i = lowWords mem c i) :
    GuardIntact (lowWords mem' c') := by
  intro i hi
  have hsame : lowWords mem' c' i = lowWords mem' c i := by
    unfold lowWords
    rw [hbuf]
  rw [hsame, hmem i hi]
  exact h i hi

/-- **A new stack has its guard.** -/
theorem initStack_guard (trap : Word) (mem : Word → Word) (entry argument : Word) {stack : Word}
    {wordCount : ℕ} (hs : StackAt stack.toNat wordCount) {c : Tcb}
    (hc : c.stackBuffer = stack.toNat) :
    GuardIntact (lowWords (initStack trap mem stack wordCount entry argument) c) := by
  have haddr := fun i hi => guard_address (i := i) hs hi
  obtain ⟨hpos, hwords, htop⟩ := hs
  unfold artosMinStackWords at hwords
  unfold stackWordBytes at htop
  have hslot : (slot stack wordCount).toNat = stack.toNat + 4 * wordCount :=
    slot_toNat (by omega)
  intro i hi
  have hi' : i < 4 := hi
  have hword : BitVec.ofNat 32 (stack.toNat + stackWordBytes * i) = slot stack i := by
    apply BitVec.eq_of_toNat_eq
    rw [haddr i hi, slot_toNat (by omega)]
    rfl
  unfold lowWords
  rw [hc, hword]
  -- the first frame lies above the guard
  have hframe := (holds_initializeStack trap
    (writeBlock (writeBlock mem (slot stack artosStackGuardWords)
        (List.replicate (wordCount - artosStackGuardWords) artosStackFillPattern)) stack
      (List.replicate artosStackGuardWords (BitVec.ofNat 32 artosStackGuardPattern)))
    (slot stack wordCount) entry argument (by omega)).2.2.2 (slot stack i)
    (Or.inl (by rw [slot_toNat (by omega)]; omega))
  have hguard : ∀ mem : Word → Word, Holds (writeBlock mem stack
      (List.replicate artosStackGuardWords (BitVec.ofNat 32 artosStackGuardPattern))) stack
      (List.replicate artosStackGuardWords (BitVec.ofNat 32 artosStackGuardPattern)) := by
    intro mem
    apply holds_writeBlock
    decide
  unfold initStack
  rw [hframe, hguard _ i (by simpa using hi), List.getElem_replicate]
  decide

/-! ## The check -/

/-- The bytes that a switch puts on a stack. -/
theorem savedBytes_le (psp : Word) (extended : Bool) :
    68 ≤ (savedBytes psp extended).toNat ∧ (savedBytes psp extended).toNat ≤ 208 := by
  unfold savedBytes
  cases extended <;> cases psp.getLsbD 2 <;> decide

/-- **Saving keeps to the room that there is.** -/
theorem saved_of_room (hok : ContextsOk trap m) (hcur : m.sched.curTask = some cur)
    (hpsp : InStack (m.sched.tcb cur) m.core.psp)
    (hroom : Room (m.sched.tcb cur) m.core.psp extended) {p : Core}
    (hp : p = pendSVSave (m.core.exceptionEntry .threadProcess extended)) :
    (m.sched.tcb cur).InStack p.r0.toNat ∧
      ∀ x : Word, (x.toNat < (m.sched.tcb cur).stackBuffer + stackWordBytes * artosStackGuardWords ∨
          (m.sched.tcb cur).stackBuffer + stackWordBytes * (m.sched.tcb cur).stackWordCount ≤
            x.toNat) → p.mem x = m.core.mem x := by
  have htop := (hok.region cur (hok.current cur hcur)).top_le
  obtain ⟨hlow, hhigh⟩ := hpsp
  obtain ⟨hbytes, -⟩ := savedBytes_le m.core.psp extended
  unfold Room at hroom
  have hr0 : p.r0.toNat = m.core.psp.toNat - (savedBytes m.core.psp extended).toNat := by
    rw [hp, save_r0, BitVec.toNat_sub_of_le]
    rw [BitVec.le_def]
    omega
  obtain ⟨-, -, -, -, hother⟩ := save_spec hp (by omega)
  constructor
  · constructor <;> omega
  · intro x hx
    apply hother
    omega

/-- **The stack check passes if and only if there was room**: a switch that finds none leaves the
stack pointer below the guard, or wraps it. -/
theorem check_iff_room (hok : ContextsOk trap m) (hguards : GuardsOk m)
    (hcur : m.sched.curTask = some cur) (hpsp : InStack (m.sched.tcb cur) m.core.psp) {p : Core}
    (hp : p = pendSVSave (m.core.exceptionEntry .threadProcess extended)) :
    (m.sched.tcb cur).InStack p.r0.toNat ∧ GuardIntact (lowWords p.mem (m.sched.tcb cur)) ↔
      Room (m.sched.tcb cur) m.core.psp extended := by
  have hcreated := hok.current cur hcur
  have hregion := hok.region cur hcreated
  have htop := hregion.top_le
  constructor
  · rintro ⟨⟨hlow, hhigh⟩, -⟩
    obtain ⟨hbytes, hbytes'⟩ := savedBytes_le m.core.psp extended
    have hr0 : p.r0.toNat = (4294967296 - (savedBytes m.core.psp extended).toNat +
        m.core.psp.toNat) % 4294967296 := by
      rw [hp, save_r0, BitVec.toNat_sub]
    have hlt := m.core.psp.isLt
    unfold Room
    by_cases hle : (savedBytes m.core.psp extended).toNat ≤ m.core.psp.toNat
    · have hsub : p.r0.toNat = m.core.psp.toNat - (savedBytes m.core.psp extended).toNat := by
        rw [hr0]
        omega
      omega
    · -- the pointer has wrapped, to above every stack
      have hwrap : p.r0.toNat =
          4294967296 - (savedBytes m.core.psp extended).toNat + m.core.psp.toNat := by
        rw [hr0]
        omega
      omega
  · intro hroom
    obtain ⟨hin, hmem⟩ := saved_of_room hok hcur hpsp hroom hp
    refine ⟨hin, (hguards cur hcreated).congr rfl ?_⟩
    intro i hi
    unfold lowWords
    rw [hmem]
    rw [guard_address hregion hi]
    unfold stackWordBytes
    omega

/-- **A switch with room leaves every guard as it is.** -/
theorem GuardsOk.saved (hguards : GuardsOk m) (hok : ContextsOk trap m)
    (hcur : m.sched.curTask = some cur) (hpsp : InStack (m.sched.tcb cur) m.core.psp)
    (hroom : Room (m.sched.tcb cur) m.core.psp extended) {p : Core}
    (hp : p = pendSVSave (m.core.exceptionEntry .threadProcess extended))
    (ht : Created m.sched t) : GuardIntact (lowWords p.mem (m.sched.tcb t)) := by
  obtain ⟨-, hmem⟩ := saved_of_room hok hcur hpsp hroom hp
  have hregion := hok.region t ht
  refine (hguards t ht).congr rfl ?_
  intro i hi
  unfold lowWords
  rw [hmem]
  rw [guard_address hregion hi]
  have hwords := hregion.words
  unfold artosMinStackWords at hwords
  unfold stackWordBytes artosStackGuardWords at *
  by_cases htc : t = cur
  · subst htc
    omega
  · -- the guard of another task lies outside the stack that is written
    have hapart := hok.apart t cur htc ht (hok.current cur hcur)
    unfold Apart stackWordBytes at hapart
    omega

/-! ## The kernel between two switches -/

theorem KeepsStacks.refl (k : Sched) : KeepsStacks k k :=
  ⟨rfl, fun _ => rfl, fun _ => rfl, fun _ => rfl⟩

theorem KeepsStacks.trans {k₁ k₂ : Sched} (h : KeepsStacks k k₁) (h' : KeepsStacks k₁ k₂) :
    KeepsStacks k k₂ :=
  ⟨h'.curTask.trans h.curTask, fun t => (h'.stackPointer t).trans (h.stackPointer t),
    fun t => (h'.stackBuffer t).trans (h.stackBuffer t),
    fun t => (h'.stackWordCount t).trans (h.stackWordCount t)⟩

/-- The action creates no task, stores no stack pointer and dispatches no task. -/
def Action.OffStack : Action → Prop
  | .create _ _ => False
  | .save _ _ => False
  | .dispatch _ => False
  | _ => True

/-- **A move that has nothing to do with stacks** keeps them. -/
theorem Move.keepsStacks (hm : Move cfg k a k') (ha : a.OffStack) : KeepsStacks k k' := by
  have hfixed : ∀ t, (k'.tcb t).fixed = (k.tcb t).fixed ∧
      (k'.tcb t).stackPointer = (k.tcb t).stackPointer := by
    intro t
    have hkept := hm.fixed (t := t) fun i p hi => by simp [hi, Action.OffStack] at ha
    exact ⟨hkept.1, hkept.2 fun sp hsp => by simp [hsp, Action.OffStack] at ha⟩
  refine ⟨?_, fun t => (hfixed t).2, fun t => congrArg Creation.stack (hfixed t).1,
    fun t => congrArg Creation.stackWordCount (hfixed t).1⟩
  cases hm with
  | create hentry hprio hwords hlt => simp [Action.OffStack] at ha
  | save hcur hsp => simp [Action.OffStack] at ha
  | dispatch hall htop => simp [Action.OffStack] at ha
  | dispatchIdle hall hnone => simp [Action.OffStack] at ha
  | requeue hcur =>
      unfold requeued
      split <;> rfl
  | advance hset => exact advanced_curTask
  | _ => rfl

/-- Moves that keep the number of tasks create none. -/
theorem Moves.keepsStacks (hm : Moves cfg k acts k') (hcount : k'.taskCount = k.taskCount)
    (hsave : ∀ t sp, .save t sp ∉ acts) (hdispatch : ∀ t, .dispatch t ∉ acts) :
    KeepsStacks k k' := by
  induction hm with
  | nil => exact KeepsStacks.refl _
  | @snoc tr k₁ k₂ b hm hmove ih =>
      have hle := (Moves.taskCount_le hm).1
      have hle' := hmove.taskCount_le.1
      have hlast : b ∈ tr ++ [b] := List.mem_append_right _ (List.mem_singleton_self _)
      have hrest := ih (by omega) (fun t sp hmem => hsave t sp (List.mem_append_left _ hmem))
        fun t hmem => hdispatch t (List.mem_append_left _ hmem)
      apply hrest.trans
      apply hmove.keepsStacks
      cases b with
      | create i p =>
          cases hmove with
          | create hentry hprio hwords hlt =>
              have hnext : k₁.taskCount + 1 = k.taskCount := hcount
              omega
      | save t sp => exact absurd hlast (hsave t sp)
      | dispatch t => exact absurd hlast (hdispatch t)
      | _ => trivial

/-- **Any step but a start, a switch or a creation** keeps the stacks. -/
theorem step_keepsStacks (h : Inv cfg s) (hs : Step cfg s (e, obs) s') (hstart : e ≠ .start)
    (hswitch : e.isSwitch = false) (hcreate : Label.creation (e, obs) = none) :
    KeepsStacks s.sched s'.sched := by
  rcases he : e.creation with _ | c
  · have hk := step_kind h hs
    have hcount := hk.count h he
    cases hk with
    | create hcur hm hacts => simp [Event.creation] at he
    | start hcur hm hacts hnext => exact absurd rfl hstart
    | task hrun hI hsrc hstep =>
        obtain ⟨acts, hsec, -⟩ := hstep.sec
        exact Moves.keepsStacks hsec.moves hcount (fun t sp ha => hsec.acts_ok _ ha)
          fun t ha => hsec.acts_ok _ ha
    | tick hm hset => exact Moves.keepsStacks hm hcount (by simp) (by simp)
    | switch hcur hpending hm hacts => simp [Event.isSwitch] at hswitch
    | isrCall hh hstep =>
        obtain ⟨acts, hsec, -⟩ := hstep
        have hsec := hsec .idle
        exact Moves.keepsStacks hsec.moves hcount (fun t sp ha => hsec.acts_ok _ ha)
          fun t ha => hsec.acts_ok _ ha
    | _ => exact KeepsStacks.refl _
  · -- a creation that has been refused
    rcases step_creation h hs he with ⟨-, -, hobs, -⟩ | ⟨-, -, hk⟩
    · simp [Label.creation, hobs, he] at hcreate
    · rw [hk]
      exact KeepsStacks.refl _

/-! ## The port's part of a step -/

/-- What holds of the kernel and of the port after every run without a failure. -/
structure BoardOk (cfg : Config) (trap : Word) (tr : List PortEvent) (b : Board) : Prop where
  inv : Inv cfg b.sys
  idle : (b.sys.sched.tcb .idle).stackPointer ≠ 0
  contexts : ContextsOk trap b.machine
  trace : TraceOk tr b.machine
  guards : GuardsOk b.machine

variable {b b' : Board} {l : BoardLabel} {tr : List BoardLabel} {pe : PortEvent}
  {ptr : List PortEvent}

/-- A task that is current has been created. -/
theorem Inv.cur_created (h : Inv cfg s) (hidle : (s.sched.tcb .idle).stackPointer ≠ 0)
    (ht : s.cur = some t) : Created s.sched t := by
  cases t with
  | idle => exact hidle
  | user i => exact (h.ready.inv.slot i).mpr (h.ready.inv.cur_lt i ht)

/-- `artos_start` selects the task that is then current. -/
theorem step_start (hs : Step cfg s (.start, obs) s') : s.cur = none ∧
    s'.sched = (s.sched.rtosSchedulerStart cfg).1 := by
  unfold Step step at hs
  simp only at hs
  split at hs
  · rename_i hc
    simp only [Option.some.injEq, Prod.mk.injEq] at hs
    obtain ⟨rfl, -⟩ := hs
    exact ⟨hc.1, rfl⟩
  · simp at hs

/-- A creation that succeeds sets up the next control block. -/
theorem step_created (h : Inv cfg s) (hs : Step cfg s (e, obs) s') {c : Creation}
    (hc : Label.creation (e, obs) = some c) : c.Valid cfg ∧
      s'.sched = s.sched.withTask c.entry c.argument c.stack c.stackWordCount c.priority := by
  unfold Label.creation at hc
  split at hc
  · rename_i hobs
    rcases step_creation h hs hc with ⟨hv, -, -, hk⟩ | ⟨-, hno, -⟩
    · exact ⟨hv, hk⟩
    · exact absurd hobs hno
  · simp at hc

/-- **The switch of the board**: with room the kernel goes on, and returns a stack pointer; without
it halts. -/
theorem BoardOk.switched (h : BoardOk cfg trap ptr b) (hcur : b.sys.cur = some cur)
    (hpsp : InStack (b.sys.sched.tcb cur) b.core.psp)
    (hs : Step cfg b.sys (b.switchEvent cur extended, []) s') :
    let r := b.sys.sched.rtosSchedulerSwitchContext cfg (b.saved extended).r0.toNat
      (lowWords (b.saved extended).mem (b.sys.sched.tcb cur))
    Room (b.sys.sched.tcb cur) b.core.psp extended ∧ s'.sched.failure = none ∧
        r = (s'.sched, r.2) ∧ r.2 ≠ 0 ∨
      ¬ Room (b.sys.sched.tcb cur) b.core.psp extended ∧ s'.sched.failure ≠ none := by
  intro r
  obtain ⟨-, hsp, hnone, -, hk⟩ := step_switch hs
  have hroom : (b.sys.sched.tcb cur).InStack (b.saved extended).r0.toNat ∧
      GuardIntact (lowWords (b.saved extended).mem (b.sys.sched.tcb cur)) ↔
        Room (b.sys.sched.tcb cur) b.core.psp extended :=
    check_iff_room h.contexts h.guards hcur hpsp rfl
  rcases switchContext_checks (lowWords (b.saved extended).mem (b.sys.sched.tcb cur))
    h.inv.ready.inv hcur hsp with ⟨hin, hguard, hfail, -⟩ | ⟨hout, hhalt⟩
  · have hvalid := artosTaskStackValid_iff.mpr ⟨hin, hguard⟩
    refine Or.inl ⟨hroom.mp ⟨hin, hguard⟩, ?_, Prod.ext hk.symm rfl, ?_⟩
    · rw [hk]
      exact hfail.trans hnone
    · exact switchContext_ne_zero h.inv.ready.inv h.idle hcur hsp hvalid
  · refine Or.inr ⟨fun hr => hout (hroom.mpr hr), ?_⟩
    rw [hk, hhalt]
    simp [recordFailure]

/-- **A step of the board that does not halt the kernel** is a step of the port. -/
theorem BoardStep.port (h : BoardOk cfg trap ptr b) (hs : BoardStep cfg trap b l b')
    (hinv : Inv cfg b'.sys) (hidle : (b'.sys.sched.tcb .idle).stackPointer ≠ 0)
    (hl : l.2 = some pe) : PortStep cfg trap b.machine pe b'.machine := by
  cases hs with
  | compute hrun hmem hguard =>
      obtain rfl := Option.some.inj hl
      exact .other (KeepsStacks.refl _) hmem
  | kernel hs hstart hswitch hcreate =>
      obtain rfl := Option.some.inj hl
      exact .other (step_keepsStacks h.inv hs hstart hswitch hcreate) fun t x hx i hi => rfl
  | @create e obs s' entry argument stack wordCount priority hs hcreate htop hapart =>
      obtain rfl := Option.some.inj hl
      obtain ⟨hv, hk⟩ := step_created h.inv hs hcreate
      refine @PortStep.create _ _ _ _ _ _ _ _ priority _ ?_ ?_ ⟨?_, hv.words, htop⟩ hapart ?_
      · intro hc
        exact absurd ((h.inv.ready.inv.slot _).mp hc) (lt_irrefl _)
      · intro hc
        exact absurd (h.inv.ready.inv.cur_lt _ hc) (lt_irrefl _)
      · exact Nat.pos_of_ne_zero hv.stack
      · show KeepsStacks _ s'.sched
        rw [hk]
        exact ⟨rfl, fun _ => rfl, fun _ => rfl, fun _ => rfl⟩
  | @start t s' c extended hs ht hpsp hmem hguard =>
      obtain rfl := Option.some.inj hl
      obtain ⟨hboot, hk⟩ := step_start hs
      have heq : b.sys.sched.rtosSchedulerStart cfg = (s'.sched, some t) := Prod.ext hk.symm ht
      obtain ⟨-, hcur⟩ := Sched.schedulerStart_stacks hboot heq
      exact .start hboot heq (hinv.cur_created hidle hcur) hpsp hmem
  | @switch cur next extended s' c hcur hpsp hs hok hnext hr0 hmem hguard =>
      obtain rfl := Option.some.inj hl
      rcases h.switched hcur hpsp hs with ⟨-, -, heq, hne⟩ | ⟨-, hfail⟩
      · exact .switch hcur hpsp heq hne hnext hr0 hmem
      · exact absurd hok hfail
  | overrun hcur hpsp hs hfail => simp at hl

/-! ## Every step keeps the board in order -/

/-- Guards that are not written stay. -/
theorem GuardsOk.congr {m m' : Machine} (h : GuardsOk m)
    (hcreated : ∀ t, Created m'.sched t → Created m.sched t)
    (hbuf : ∀ t, (m'.sched.tcb t).stackBuffer = (m.sched.tcb t).stackBuffer)
    (hmem : m.SparesGuards m'.core.mem) : GuardsOk m' := by
  intro t ht
  have hmt := hcreated t ht
  exact (h t hmt).congr (hbuf t) (hmem t hmt)

/-- **A creation** writes the guard of the new stack, and no other. -/
theorem GuardsOk.create (h : GuardsOk m) (hok : ContextsOk trap m) {entry argument stack : Word}
    {wordCount : ℕ} (hstack : StackAt stack.toNat wordCount)
    (hapart : ∀ u, Created m.sched u → Apart stack.toNat wordCount (m.sched.tcb u))
    (hnew : NewTask m.sched k t stack.toNat wordCount) {c : Core}
    (hc : c.mem = initStack trap m.core.mem stack wordCount entry argument)
    {context : Tid → Option Context} : GuardsOk ⟨k, c, context⟩ := by
  intro u hu
  show GuardIntact (lowWords c.mem (k.tcb u))
  rw [hc]
  by_cases hut : u = t
  · subst hut
    exact initStack_guard trap m.core.mem entry argument hstack hnew.buffer
  · have hu : Created m.sched u := ((hnew.created hstack u).mp hu).resolve_left hut
    obtain ⟨-, -, hother⟩ := initStack_spec trap m.core.mem entry argument hstack
    refine (h u hu).congr (hnew.others u hut).2.buffer ?_
    intro i hi
    have hregion := hok.region u hu
    have hap := hapart u hu
    have hwords := hregion.words
    unfold lowWords
    rw [hother]
    rw [guard_address hregion hi]
    unfold Apart at hap
    unfold artosMinStackWords stackWordBytes artosStackGuardWords at *
    omega

/-- The guards after a step. -/
theorem BoardStep.guards (h : BoardOk cfg trap ptr b) (hs : BoardStep cfg trap b l b')
    (hl : l.2 = some pe) : GuardsOk b'.machine := by
  have hok := h.contexts
  cases hs with
  | compute hrun hmem hguard => exact h.guards.congr (fun _ => id) (fun _ => rfl) hguard
  | kernel hs hstart hswitch hcreate =>
      have hk := step_keepsStacks h.inv hs hstart hswitch hcreate
      refine h.guards.congr (fun t ht => ?_) hk.stackBuffer fun t ht i hi => rfl
      exact (KeepsStacks.created (m := b.machine) hk).mp ht
  | @create e obs s' entry argument stack wordCount priority hs hcreate htop hapart =>
      obtain ⟨hv, hk⟩ := step_created h.inv hs hcreate
      have hstack : StackAt stack.toNat wordCount :=
        ⟨Nat.pos_of_ne_zero hv.stack, hv.words, htop⟩
      have hkeep : KeepsStacks (b.sys.sched.rtosInitTcb (.user b.sys.sched.taskCount) entry.toNat
          argument.toNat stack.toNat wordCount priority) s'.sched := by
        rw [hk]
        exact ⟨rfl, fun _ => rfl, fun _ => rfl, fun _ => rfl⟩
      exact h.guards.create hok hstack hapart hkeep.newTask rfl
  | @start t s' c extended hs ht hpsp hmem hguard =>
      obtain ⟨hboot, hk⟩ := step_start hs
      have heq : b.sys.sched.rtosSchedulerStart cfg = (s'.sched, some t) := Prod.ext hk.symm ht
      obtain ⟨htcb, -⟩ := Sched.schedulerStart_stacks hboot heq
      have hmem' : (svcHandler (c.exceptionEntry .threadMain extended)).exceptionReturn.mem =
          (c.exceptionEntry .threadMain extended).mem := exceptionReturn_mem _
      refine h.guards.congr (fun u hu => ?_) (fun u => by rw [Board.machine, htcb]; rfl) ?_
      · unfold Created at hu ⊢
        rwa [Board.machine, htcb] at hu
      · show b.machine.SparesGuards (svcHandler _).exceptionReturn.mem
        rw [hmem']
        exact hguard
  | @switch cur next extended s' c hcur hpsp hs hok' hnext hr0 hmem hguard =>
      rcases h.switched hcur hpsp hs with ⟨hroom, -, heq, hne⟩ | ⟨-, hfail⟩
      · have hcreated := (hok.holds_parked hcur hpsp heq hne hnext).1
        have htcb := (Sched.switchContext_stacks heq hne hcur hnext).2.2.1
        have hbuf : ∀ t, (s'.sched.tcb t).stackBuffer = (b.sys.sched.tcb t).stackBuffer := by
          intro t
          rw [htcb, update_apply]
          split
          · rename_i ht
            rw [ht]
          · rfl
        -- the guards survive the saving, and what follows spares them
        have hparked : GuardsOk (b.machine.parked cur extended s'.sched) := by
          intro t ht
          have hsaved := h.guards.saved hok hcur hpsp hroom rfl ((hcreated t).mp ht)
          exact hsaved.congr (hbuf t) fun i hi => rfl
        have hmem' : (pendSVRestore c).exceptionReturn.mem = c.mem := by
          rw [exceptionReturn_mem, pendSVRestore_mem]
        refine hparked.congr (fun t ht => ht) (fun t => rfl) ?_
        show (b.machine.parked cur extended s'.sched).SparesGuards
          (pendSVRestore c).exceptionReturn.mem
        rw [hmem']
        exact hguard
      · exact absurd hok' hfail
  | overrun hcur hpsp hs hfail => simp at hl

/-- A step keeps the idle task's stack pointer. -/
theorem step_idle_stack (h : Inv cfg s) {lab : Label} (hs : Step cfg s lab s')
    (hidle : (s.sched.tcb .idle).stackPointer ≠ 0) : (s'.sched.tcb .idle).stackPointer ≠ 0 := by
  obtain ⟨acts, hm⟩ := (step_kind h hs).moves
  exact hm.invariant (I := fun k => (k.tcb .idle).stackPointer ≠ 0)
    (fun _ _ _ hk hmove => hmove.idle_stack hk) hidle

/-- What a step of the board is in the kernel. -/
theorem BoardStep.sys (hs : BoardStep cfg trap b l b') : b.sys.sched.failure = none ∧
    ((∃ lab, l.1 = some lab ∧ Step cfg b.sys lab b'.sys) ∨ l.1 = none ∧ b'.sys = b.sys) := by
  cases hs with
  | compute hrun hmem hguard => exact ⟨hrun, Or.inr ⟨rfl, rfl⟩⟩
  | kernel hs hstart hswitch hcreate => exact ⟨Step.failure_none hs, Or.inl ⟨_, rfl, hs⟩⟩
  | create hs hcreate htop hapart => exact ⟨Step.failure_none hs, Or.inl ⟨_, rfl, hs⟩⟩
  | start hs ht hpsp hmem hguard => exact ⟨Step.failure_none hs, Or.inl ⟨_, rfl, hs⟩⟩
  | switch hcur hpsp hs hok hnext hr0 hmem hguard =>
      exact ⟨Step.failure_none hs, Or.inl ⟨_, rfl, hs⟩⟩
  | overrun hcur hpsp hs hfail => exact ⟨Step.failure_none hs, Or.inl ⟨_, rfl, hs⟩⟩

/-- The kernel stays in order. -/
theorem BoardStep.inv (hs : BoardStep cfg trap b l b') (h : Inv cfg b.sys)
    (hidle : (b.sys.sched.tcb .idle).stackPointer ≠ 0) :
    Inv cfg b'.sys ∧ (b'.sys.sched.tcb .idle).stackPointer ≠ 0 := by
  rcases hs.sys.2 with ⟨lab, -, hstep⟩ | ⟨-, hsame⟩
  · exact ⟨h.step hstep, step_idle_stack h hstep hidle⟩
  · rw [hsame]
    exact ⟨h, hidle⟩

/-- **Every step that does not halt the kernel** keeps the board in order, is a step of the port,
and restores what it should. -/
theorem BoardStep.ok (h : BoardOk cfg trap ptr b) (hs : BoardStep cfg trap b l b')
    (hl : l.2 = some pe) : BoardOk cfg trap (ptr ++ [pe]) b' ∧
      PortStep cfg trap b.machine pe b'.machine ∧ pe.Restores trap ptr := by
  obtain ⟨hinv, hidle⟩ := hs.inv h.inv h.idle
  have hport := hs.port h hinv hidle hl
  obtain ⟨⟨hcontexts, htrace⟩, hrestores⟩ := h.contexts.step h.trace hport
  exact ⟨⟨hinv, hidle, hcontexts, htrace, hs.guards h hl⟩, hport, hrestores⟩

/-- **A step that halts the kernel** is a switch without room. -/
theorem BoardStep.halted (h : BoardOk cfg trap ptr b) (hs : BoardStep cfg trap b l b')
    (hfail : b'.sys.sched.failure ≠ none) :
    ∃ cur extended, b.sys.cur = some cur ∧ l = (some (b.switchEvent cur extended, []), none) ∧
      ¬ Room (b.sys.sched.tcb cur) b.core.psp extended := by
  have hnone := hs.sys.1
  have hkept : ∀ {e obs s'}, Step cfg b.sys (e, obs) s' → e.isSwitch = false →
      s'.sched.failure = none := fun hs he =>
    ((step_kind h.inv hs).unswitched he).2.trans hnone
  cases hs with
  | compute hrun hmem hguard => exact absurd hrun hfail
  | kernel hs hstart hswitch hcreate => exact absurd (hkept hs hswitch) hfail
  | @create e obs s' entry argument stack wordCount priority hs hcreate htop hapart =>
      refine absurd (hkept hs ?_) hfail
      cases e with
      | switch sp guard => simp [Label.creation, Event.creation] at hcreate
      | _ => rfl
  | start hs ht hpsp hmem hguard => exact absurd (hkept hs rfl) hfail
  | switch hcur hpsp hs hok hnext hr0 hmem hguard => exact absurd hok hfail
  | @overrun cur extended s' hcur hpsp hs hfail' =>
      refine ⟨cur, extended, hcur, rfl, ?_⟩
      rcases h.switched hcur hpsp hs with ⟨-, hok, -⟩ | ⟨hno, -⟩
      · exact absurd hok hfail'
      · exact hno

/-! ## Runs -/

/-- The machine before the idle task has been created. -/
def beforeIdle (core : Core) (mem : Word → Word) : Machine where
  sched := { rtosSystemInit with tcb := fun _ => Tcb.zero }
  core := { core with mem := mem }
  context := fun _ => none

/-- `rtos_system_init` creates the idle task. -/
theorem BoardInitial.created {b₀ : Board} (h₀ : BoardInitial cfg trap b₀) :
    ∃ m₀ : Machine, m₀.Initial ∧ PortStep cfg trap m₀ idleCreation b₀.machine := by
  obtain ⟨mem, hmem⟩ := h₀.mem
  refine ⟨beforeIdle b₀.core mem, ⟨fun t ht => ht rfl, rfl, fun t => rfl⟩, ?_⟩
  have hcore : b₀.core = { (beforeIdle b₀.core mem).core with
      mem := initStack trap (beforeIdle b₀.core mem).core.mem 8#32 artosMinStackWords 1#32
        0#32 } := by
    show b₀.core = { b₀.core with mem := initStack trap mem 8#32 artosMinStackWords 1#32 0#32 }
    rw [← hmem]
  have hboard : b₀.machine = ⟨rtosSystemInit, b₀.core, b₀.context⟩ := by
    rw [← h₀.sys.sched]
    rfl
  rw [hboard, h₀.context, hcore]
  refine @PortStep.create _ _ (beforeIdle b₀.core mem) .idle 1#32 0#32 8#32 artosMinStackWords 0 _
    (fun ht => ht rfl) (by simp [beforeIdle, rtosSystemInit, rtosInitTcb])
    ⟨by decide, le_rfl, by decide⟩ (fun u hu => absurd rfl hu) ?_
  exact ⟨rfl, fun _ => rfl, fun _ => rfl, fun _ => rfl⟩

/-- The idle task is the first one. -/
theorem created_systemInit (ht : Created rtosSystemInit t) : t = .idle := by
  by_contra hne
  apply ht
  simp [rtosSystemInit, rtosInitTcb, update_of_ne hne, Tcb.zero]

/-- The board is in order from the start. -/
theorem BoardInitial.ok {b₀ : Board} (h₀ : BoardInitial cfg trap b₀) :
    BoardOk cfg trap [idleCreation] b₀ := by
  obtain ⟨m₀, hinit, hstep⟩ := h₀.created
  have hinit' : ContextsOk trap m₀ ∧ TraceOk [] m₀ := hinit.ok
  obtain ⟨⟨hok, hT⟩, -⟩ := hinit'.1.step hinit'.2 hstep
  refine ⟨h₀.sys.inv, ?_, hok, hT, ?_⟩
  · rw [h₀.sys.sched]
    decide
  · -- the guard of the idle task is the only one
    intro t ht
    obtain ⟨mem, hmem⟩ := h₀.mem
    have hsched : b₀.machine.sched = rtosSystemInit := h₀.sys.sched
    rw [hsched] at ht
    rw [created_systemInit ht, show b₀.machine.core.mem = _ from hmem, hsched]
    exact initStack_guard trap mem _ _ ⟨by decide, le_rfl, by decide⟩ rfl

theorem kernelPart_snoc (tr : List BoardLabel) (l : BoardLabel) :
    kernelPart (tr ++ [l]) = kernelPart tr ++ l.1.toList := by
  rw [kernelPart, List.filterMap_append]
  obtain ⟨_ | lab, pe⟩ := l <;> simp [kernelPart]

theorem portPart_snoc (tr : List BoardLabel) (l : BoardLabel) :
    portPart (tr ++ [l]) = portPart tr ++ l.2.toList := by
  rw [portPart, List.filterMap_append]
  obtain ⟨lab, _ | pe⟩ := l <;> simp [portPart]

/-- The kernel's part of a run of the board is a run of the kernel. -/
theorem BoardRun.sys {b₀ : Board} (hr : Exec (BoardStep cfg trap) b₀ tr b) :
    Run cfg b₀.sys (kernelPart tr) b.sys := by
  induction hr with
  | nil => exact .nil
  | @snoc tr b₁ b₂ l hr hs ih =>
      rw [kernelPart_snoc]
      rcases hs.sys.2 with ⟨lab, hl, hstep⟩ | ⟨hl, hsame⟩
      · rw [hl]
        exact ih.snoc hstep
      · rw [hl, hsame, Option.toList_none, List.append_nil]
        exact ih

/-- **The port's part of a run of the board** is a run of the port, as long as the kernel has not
halted. -/
theorem BoardRun.port {b₀ : Board} (h₀ : BoardInitial cfg trap b₀)
    (hr : Exec (BoardStep cfg trap) b₀ tr b) (hf : b.sys.sched.failure = none) :
    BoardOk cfg trap (idleCreation :: portPart tr) b ∧
      ∃ m₀ : Machine, m₀.Initial ∧
        Exec (PortStep cfg trap) m₀ (idleCreation :: portPart tr) b.machine := by
  induction hr with
  | nil =>
      obtain ⟨m₀, hinit, hstep⟩ := h₀.created
      exact ⟨h₀.ok, m₀, hinit, Exec.single hstep⟩
  | @snoc tr b₁ b₂ l hr hs ih =>
      obtain ⟨hok, m₀, hinit, hexec⟩ := ih hs.sys.1
      rw [portPart_snoc]
      rcases hl : l.2 with _ | pe
      · -- only a switch that halts the kernel has no part in the port
        exfalso
        cases hs <;> simp_all
      · obtain ⟨hok', hport, -⟩ := hs.ok hok hl
        exact ⟨hok', m₀, hinit, hexec.snoc hport⟩

/-- **The kernel on the processor.**  A run of the board is a run of the kernel, and while the
kernel has not halted also a run of the port.  Then the guards of all stacks are intact; the next
switch goes on if and only if the stack of the running task has room, above the guard, for the
frame of the exception and the registers that PendSV saves; and every task is resumed with what was
live when it was switched out, or for the first time at its entry.  If the kernel has halted, its
last step was a switch without room. -/
theorem board_run {b₀ : Board} (h₀ : BoardInitial cfg trap b₀)
    (hr : Exec (BoardStep cfg trap) b₀ tr b) :
    Run cfg b₀.sys (kernelPart tr) b.sys ∧
    (b.sys.sched.failure = none →
      (∃ m₀ : Machine, m₀.Initial ∧
        Exec (PortStep cfg trap) m₀ (idleCreation :: portPart tr) b.machine) ∧
      GuardsOk b.machine ∧
      (∀ cur extended s', b.sys.cur = some cur → InStack (b.sys.sched.tcb cur) b.core.psp →
        Step cfg b.sys (b.switchEvent cur extended, []) s' →
        (s'.sched.failure = none ↔ Room (b.sys.sched.tcb cur) b.core.psp extended)) ∧
      ∀ l pe b', BoardStep cfg trap b l b' → l.2 = some pe →
        pe.Restores trap (idleCreation :: portPart tr)) ∧
    (b.sys.sched.failure ≠ none → ∃ tr₁ b₁ cur extended,
      tr = tr₁ ++ [(some (b₁.switchEvent cur extended, []), none)] ∧
        Exec (BoardStep cfg trap) b₀ tr₁ b₁ ∧ b₁.sys.cur = some cur ∧
        ¬ Room (b₁.sys.sched.tcb cur) b₁.core.psp extended) := by
  refine ⟨BoardRun.sys hr, fun hnone => ?_, fun hfail => ?_⟩
  · obtain ⟨hok, hport⟩ := BoardRun.port h₀ hr hnone
    refine ⟨hport, hok.guards, ?_, fun l pe b' hs hl => (hs.ok hok hl).2.2⟩
    intro cur extended s' hcur hpsp hs
    rcases hok.switched hcur hpsp hs with ⟨hroom, hgo, -⟩ | ⟨hno, hhalt⟩
    · exact ⟨fun _ => hroom, fun _ => hgo⟩
    · exact ⟨fun hgo => absurd hgo hhalt, fun hroom => absurd hroom hno⟩
  · cases hr with
    | nil => exact absurd (h₀.sys.sched ▸ rfl) hfail
    | @snoc tr b₁ b₂ l hr hs =>
        obtain ⟨hok, -⟩ := BoardRun.port h₀ hr hs.sys.1
        obtain ⟨cur, extended, hcur, rfl, hno⟩ := hs.halted hok hfail
        exact ⟨tr, b₁, cur, extended, rfl, hr, hcur, hno⟩

/-! ## A task that runs out of stack -/

/-- The creation of a task of priority 1 with the 64 words from `0x20000000` for its stack. -/
def loneCreation : Event := .bootCreate 0x08000201 7 0x20000000 64 1

/-- The board before the task is created. -/
def loneBoot : Board where
  sys := smallBoot
  core := { blankCore 0 0 with
    mem := initStack 0x08000101#32 (blankCore 0 0).mem 8#32 artosMinStackWords 1#32 0#32 }
  context := update (fun _ => none) .idle (some (.fresh 1#32 0#32 (slot 8#32 artosMinStackWords)))

theorem loneBoot_initial : BoardInitial smallConfig 0x08000101#32 loneBoot :=
  ⟨smallBoot_initial, ⟨_, rfl⟩, rfl⟩

/-- The board when the task has been created. -/
def loneReady : Board where
  sys := smallBoot.setSched
    (smallBoot.sched.artosTaskCreate smallConfig 0x08000201 7 0x20000000 64 1).1
  core := { loneBoot.core with
    mem := initStack 0x08000101#32 loneBoot.core.mem 0x20000000#32 64 0x08000201#32 7#32 }
  context := update loneBoot.context (.user 0)
    (some (.fresh 0x08000201#32 7#32 (slot 0x20000000#32 64)))

theorem loneReady_step : BoardStep smallConfig 0x08000101#32 loneBoot
    (some (loneCreation, [.created .ok]),
      some (.create (.user 0) 0x08000201#32 7#32 (slot 0x20000000#32 64))) loneReady := by
  refine @BoardStep.create _ _ loneBoot loneCreation [.created .ok] loneReady.sys 0x08000201#32 7#32
    0x20000000#32 64 1 ?_ ?_ ?_ ?_
  · rfl
  · rfl
  · decide
  · intro u hu
    rw [created_systemInit hu]
    unfold Apart
    decide

/-- The registers with which the task is started. -/
def loneStart : Core := { loneReady.core with psp := savedSp loneReady.sys.sched (.user 0) }

/-- The frame of `main` is stacked above both stacks. -/
theorem loneStart_mem {x : Word} (hx : x.toNat < 0x20000FE0) :
    (loneStart.exceptionEntry .threadMain false).mem x = loneReady.core.mem x := by
  rw [Core.exceptionEntry_mem]
  apply writeBlock_of_outside
  · decide
  · apply Or.inl
    have hmain : (entrySp (loneStart.sp Origin.threadMain.process) false).toNat = 0x20000FE0 := by
      decide
    rwa [hmain]

/-- The board when the task has been started. -/
def loneStarted : Board where
  sys := loneReady.sys.setSched (loneReady.sys.sched.rtosSchedulerStart smallConfig).1
  core := (svcHandler (loneStart.exceptionEntry .threadMain false)).exceptionReturn
  context := update loneReady.context (.user 0) none

/-- The stacks of the two tasks end below `0x20000FE0`. -/
theorem loneReady_top (ht : Created loneReady.sys.sched t) :
    (loneReady.sys.sched.tcb t).stackBuffer +
      stackWordBytes * (loneReady.sys.sched.tcb t).stackWordCount < 0x20000FE0 := by
  cases t with
  | idle => decide
  | user i =>
      cases i with
      | zero => decide
      | succ i => exact absurd rfl ht

theorem loneStarted_step : ∃ c, BoardStep smallConfig 0x08000101#32 loneReady
    (some (.start, []), some (.start (.user 0) c)) loneStarted := by
  have hok := (loneReady_step.ok loneBoot_initial.ok rfl).1
  refine ⟨_, @BoardStep.start _ _ loneReady (.user 0) loneStarted.sys loneStart false
    ?_ ?_ ?_ ?_ ?_⟩
  · rfl
  · rfl
  · rfl
  · intro t x hx i hi
    have hheld := hok.contexts.held t x hx
    have htop : (loneReady.machine.sched.tcb t).stackBuffer + stackWordBytes *
        (loneReady.machine.sched.tcb t).stackWordCount < 0x20000FE0 := loneReady_top hheld.created
    have hhigh := hheld.high
    apply loneStart_mem
    show (slot (BitVec.ofNat 32 (loneReady.machine.sched.tcb t).stackPointer) i).toNat < _
    rw [hheld.slot_toNat hi]
    omega
  · intro t ht i hi
    have htop := loneReady_top ht
    have hregion : StackAt (loneReady.sys.sched.tcb t).stackBuffer
        (loneReady.sys.sched.tcb t).stackWordCount := hok.contexts.region t ht
    have hwords := hregion.words
    unfold lowWords
    rw [loneStart_mem]
    · rfl
    · show (BitVec.ofNat 32
        ((loneReady.sys.sched.tcb t).stackBuffer + stackWordBytes * i)).toNat < _
      rw [guard_address hregion hi]
      unfold artosStackGuardWords at hi
      unfold artosMinStackWords at hwords
      unfold stackWordBytes at htop ⊢
      omega

/-- The task has used its stack down to the sixteenth word. -/
def loneDeep : Board :=
  { loneStarted with core := { loneStarted.core with psp := 0x20000040#32 } }

/-- The task has called `artos_yield`, and the switch is pending. -/
def loneYield : Board :=
  { loneDeep with
    sys := { loneDeep.sys with
      pending := true
      pc := update (update loneDeep.sys.pc (.user 0) (.request none)) (.user 0) .user } }

theorem loneYield_run : ∃ tr, Exec (BoardStep smallConfig 0x08000101#32) loneBoot tr loneYield := by
  obtain ⟨c, hstart⟩ := loneStarted_step
  have hdeep : BoardStep smallConfig 0x08000101#32 loneStarted (none, some .other) loneDeep :=
    .compute (by rfl) (fun t x hx i hi => rfl) fun t ht i hi => rfl
  have hcall : BoardStep smallConfig 0x08000101#32 loneDeep
      (some (.call .yield, []), some .other)
      { loneDeep with sys := { loneDeep.sys with
          pc := update loneDeep.sys.pc (.user 0) (.request none) } } :=
    .kernel (by rfl) (by simp) rfl rfl
  have hrequest : BoardStep smallConfig 0x08000101#32 _ (some (.resume, []), some .other)
      loneYield :=
    .kernel (b := { loneDeep with sys := { loneDeep.sys with
      pc := update loneDeep.sys.pc (.user 0) (.request none) } }) (by rfl) (by simp) rfl rfl
  exact ⟨_, ((((Exec.single loneReady_step).snoc hstart).snoc hdeep).snoc hcall).snoc hrequest⟩

/-- The 64 bytes left are too few for a switch, which halts the kernel. -/
theorem board_run_loneYield : ∃ s', Step smallConfig loneYield.sys
    (loneYield.switchEvent (.user 0) false, []) s' ∧ s'.sched.failure ≠ none := by
  obtain ⟨tr, hr⟩ := loneYield_run
  obtain ⟨-, -, hcheck, -⟩ := (board_run loneBoot_initial hr).2.1 (by rfl)
  refine ⟨((step smallConfig loneYield.sys (loneYield.switchEvent (.user 0) false)).get
    (by rfl)).1, by rfl, fun hnone => ?_⟩
  have hroom := (hcheck (.user 0) false _ (by rfl) ⟨by decide, by decide⟩ (by rfl)).mp hnone
  revert hroom
  unfold Room
  decide

end Artos
