import Mathlib.Data.Finset.Erase
import Mathlib.Data.Finset.Filter
import Mathlib.Data.Finset.Insert
import SystemsProjects.Lib.Transition
import SystemsProjects.Pelikan.Switch

/-!
# Tasks on their stacks

Any number of tasks, each with its stack, and `schedule` on the boot stack. Inside `swtch` every
instruction is a step of its own, and the timer may come before any instruction that runs with
EFLAGS.IF set, there as elsewhere.

C code is not run: a step of it may change the registers as it likes and all memory but what is
not its own. It stays below the frames of those that called or interrupted it, it does not write
to the stacks of other threads or to the fields that hold saved stack pointers, and it does not
run over the lower end of its stack. `schedule` and `isr_handler` do not enable interrupts. The
call in the loop of `schedule` is always made with the same stack pointer. A function whose
callee has given it back its stack and its registers returns where it was called from.

- `Layout`: where the stacks, the saved stack pointers and `swtch` are, apart from each other.
- `State`: the machine, and what is remembered of calls and interrupts to speak about them.
- `Step`: C code, `create_task`, `thread_exit`, the calls of `swtch` by `yield` and `schedule`, the
  instructions of `swtch`, the timer interrupt and the return from it.
- `system`: the runs from `schedule` on.

What the steps remember beside the machine (the call that a thread has made, the interrupts it
is in, the registers it had then) says where a step may come, and it is there to state the
results; what an instruction does goes by the registers and the memory alone. That the
remembered words are the ones in memory is part of what is proved, in `SwitchInvariant`.
-/

namespace SystemsProjects

namespace Pelikan

namespace Switching

open ByteMemory

/-- Where things are. A thread is a task, or `none`: `schedule` on the boot stack. -/
structure Places (T : Type) where
  swtch : BitVec 32
  isrHandler : BitVec 32
  /-- The address behind the call of `isr_handler` in `isr_common`. -/
  isrReturn : BitVec 32
  /-- The code segment selector. -/
  cs : BitVec 32
  /-- `&scheduler_context` -/
  schedulerContext : Nat
  bootBottom : Nat
  bootTop : Nat
  /-- The stack pointer with which `schedule` enters `swtch`. -/
  scheduleEsp : Nat
  /-- The address of the `task_t`, whose first field is ESP. -/
  task : T → Nat
  stackBase : T → Nat
  executionCode : T → BitVec 32

namespace Places

variable {T : Type} (P : Places T)

/-- The lower end of the stack. -/
def lo : Option T → Nat
  | none => P.bootBottom
  | some t => P.stackBase t

/-- The upper end of the stack. -/
def hi : Option T → Nat
  | none => P.bootTop
  | some t => P.stackBase t + 4096

/-- Where the stack pointer is saved. -/
def cell : Option T → Nat
  | none => P.schedulerContext
  | some t => P.task t

end Places

/-- Places with the stacks and the saved stack pointers apart from each other. -/
structure Layout (T : Type) extends Places T where
  hi_lt : ∀ X, toPlaces.hi X < 4294967296
  stacks_apart : ∀ X Y, X ≠ Y → toPlaces.hi X ≤ toPlaces.lo Y ∨ toPlaces.hi Y ≤ toPlaces.lo X
  cell_le : ∀ X, toPlaces.cell X + 4 ≤ 4294967296
  cells_apart : ∀ X Y, X ≠ Y →
    toPlaces.cell X + 4 ≤ toPlaces.cell Y ∨ toPlaces.cell Y + 4 ≤ toPlaces.cell X
  cell_outside : ∀ X Y, toPlaces.cell X + 4 ≤ toPlaces.lo Y ∨ toPlaces.hi Y ≤ toPlaces.cell X
  schedule_room : bootBottom + 20 ≤ scheduleEsp
  schedule_fits : scheduleEsp + 12 ≤ bootTop

/-- What a thread is doing. -/
inductive Act (T : Type) where
  /-- It runs C code; in an interrupt, up to the call of `swtch`. -/
  | code
  /-- It is in the first half of the call `c` of `swtch`, which goes to the thread `dest`. -/
  | saving (c : Regs) (dest : Option T)
  /-- It is in the second half of the call `c` of `swtch`. -/
  | restoring (c : Regs)
  /-- In an interrupt, it returns from `swtch`, `yield` and `isr_handler`. -/
  | returning
  deriving DecidableEq

/-- The thread is between two instructions of `swtch`. -/
def Act.inSwtch {T : Type} : Act T → Bool
  | .saving _ _ | .restoring _ => true
  | .code | .returning => false

/-- What a thread had done when it was interrupted, and the registers then. -/
abbrev Interrupt (T : Type) := Regs × Act T

/-- A thread when it saved its stack pointer: its call of `swtch`, and the interrupts it is in. -/
structure Suspended (T : Type) where
  call : Regs
  outer : List (Interrupt T)
  deriving DecidableEq

/-- The machine with the tasks on it, and what is remembered of calls and interrupts. -/
structure State (T : Type) where
  cpu : Cpu
  /-- The thread on whose stack the CPU is. -/
  on : Option T
  currentTask : Option T
  /-- The tasks that have been created and are not DEAD. -/
  live : Finset T
  /-- What the running thread is doing. -/
  act : Act T
  /-- The interrupts that the running thread is in. -/
  outer : List (Interrupt T)
  /-- What the stack pointer stands for that each thread has saved last. -/
  saved : Option T → Suspended T
  /-- The tasks that have been created and have not entered their code. -/
  fresh : Finset T

section Step

variable {T : Type} (L : Layout T)

/-- Up to where a thread in these interrupts may write on its stack. Above it is the frame that
the last interrupt has put there. -/
def limit (X : Option T) : List (Interrupt T) → Nat
  | [] => L.hi X
  | (i, _) :: _ => i.esp.toNat - 52

namespace State

/-- The thread has not died. -/
def Alive (s : State T) : Option T → Prop
  | none => True
  | some t => t ∈ s.live

/-- Interrupts have to be off: in `schedule`, and in an interrupt. -/
def Quiet (s : State T) : Prop := s.on = none ∨ s.outer ≠ []

end State

/-- The registers that C code may leave. -/
structure CodeRegs (s : State T) (r : Regs) : Prop where
  lo_le : L.lo s.on ≤ r.esp.toNat
  le_limit : r.esp.toNat ≤ limit L s.on s.outer
  outside : ∀ k < 15, r.eip ≠ point L.swtch k
  quiet : s.Quiet → r.interruptible = false

/-- The memory that C code may leave. -/
structure CodeMem (s : State T) (m : ByteMemory) : Prop where
  others : ∀ X, s.Alive X → X ≠ s.on → AgreeOn s.cpu.mem m (L.lo X) (L.hi X)
  cells : ∀ X, s.Alive X → AgreeOn s.cpu.mem m (L.cell X) (L.cell X + 4)
  frames : AgreeOn s.cpu.mem m (limit L s.on s.outer) (L.hi s.on)

/-- The call of `swtch` that the stack of a new task looks like. -/
def firstCall (t : T) : Regs where
  eax := 0
  ecx := 0
  edx := 0
  ebx := 0
  esp := BitVec.ofNat 32 (L.stackBase t + 4096) - 4
  ebp := 0
  esi := 0
  edi := 0
  eip := L.executionCode t
  eflags := 0x202

/-- The stack that `create_task` builds, and the `task->ESP` it leaves. -/
def createStack (m : ByteMemory) (t : T) : ByteMemory :=
  let stack := WordStack.pushes ⟨BitVec.ofNat 32 (L.stackBase t + 4096), m⟩
    [L.executionCode t, 0x202, 0, 0, 0, 0]
  store stack.mem (L.task t) stack.top

namespace State

variable [DecidableEq T]

/-- `create_task` -/
def create (s : State T) (t : T) : State T :=
  { s with
    cpu := { s.cpu with mem := createStack L s.cpu.mem t }
    live := insert t s.live
    saved := Function.update s.saved (some t) ⟨firstCall L t, []⟩
    fresh := insert t s.fresh }

/-- The call of `swtch`, with the arguments on the stack. -/
def enter (s : State T) (ret : BitVec 32) (dest : Option T) : State T :=
  { s with
    cpu := (s.cpu.push ret).goto L.swtch
    act := .saving ((s.cpu.push ret).goto ret).regs dest }

/-- Whose stack pointer a call of `swtch` saves: that of `current_task` on the way to the scheduler,
and that of the scheduler on the way to a task. -/
def saver (s : State T) : Option T → Option T
  | none => s.currentTask
  | some _ => none

/-- An instruction of `swtch`. -/
def after (s : State T) (i : Instr) : State T :=
  let s' := { s with cpu := s.cpu.exec i }
  match i, s.act with
  | .movStoreEsp, .saving c dest =>
    { s' with saved := Function.update s.saved (s.saver dest) ⟨c, s.outer⟩ }
  | .movEspEax, .saving _ dest =>
    { s' with
      on := dest
      act := .restoring (s.saved dest).call
      outer := (s.saved dest).outer }
  | .ret, _ =>
    { s' with
      act := if s.outer.isEmpty then .code else .returning
      fresh := s.fresh.filter fun t => s.on ≠ some t }
  | _, _ => s'

/-- A timer interrupt, up to the first instruction of `isr_handler`. -/
def interrupt (s : State T) : State T :=
  { s with
    cpu := interruptEntry L.cs L.isrHandler L.isrReturn s.cpu
    act := .code
    outer := (s.cpu.regs, s.act) :: s.outer }

end State

/-- The labels of the steps. -/
inductive Action (T : Type) where
  | code
  | create (t : T)
  | exit
  | yield
  | dispatch (t : T)
  | instr
  | timer
  | isrReturn
  deriving DecidableEq

variable [DecidableEq T]

/-- The steps of the tasks, of `schedule` and of the timer. -/
inductive Step : State T → Action T → State T → Prop where
  /-- C code outside of `swtch`. -/
  | code {s : State T} {r : Regs} {m : ByteMemory} (hact : s.act = .code)
      (hregs : CodeRegs L s r) (hmem : CodeMem L s m) :
      Step s .code { s with cpu := ⟨r, m⟩ }
  /-- `create_task`, for a task that is new or whose memory the reaper has freed. The latter is
  not `current_task`: the reaper has been dispatched since. -/
  | create {s : State T} {t : T} (hact : s.act = .code) (hnew : t ∉ s.live)
      (hother : s.currentTask ≠ some t) : Step s (.create t) (s.create L t)
  /-- `current_task->state = TASK_DEAD` in `thread_exit`. -/
  | exit {s : State T} {t : T} (hact : s.act = .code) (hon : s.on = some t)
      (hcurrent : s.currentTask = some t) :
      Step s .exit { s with live := s.live.erase t }
  /-- `swtch(&current_task->ESP, scheduler_context)` in `yield`. -/
  | yield {s : State T} {t : T} {ret : BitVec 32} (hact : s.act = .code)
      (htask : s.on = none → s.outer ≠ []) (hcurrent : s.currentTask = some t)
      (hroom : L.lo s.on + 24 ≤ s.cpu.regs.esp.toNat)
      (hfits : s.cpu.regs.esp.toNat + 8 ≤ limit L s.on s.outer)
      (hargs : Words s.cpu.mem s.cpu.regs.esp.toNat
        [BitVec.ofNat 32 (L.task t), load s.cpu.mem L.schedulerContext]) :
      Step s .yield (s.enter L ret none)
  /-- `swtch(&scheduler_context, next->ESP)` in `schedule`. -/
  | dispatch {s : State T} {next : T} {ret : BitVec 32} (hact : s.act = .code)
      (hon : s.on = none) (houter : s.outer = []) (hlive : next ∈ s.live)
      (hesp : s.cpu.regs.esp.toNat = L.scheduleEsp + 4)
      (hargs : Words s.cpu.mem s.cpu.regs.esp.toNat
        [BitVec.ofNat 32 L.schedulerContext, load s.cpu.mem (L.task next)]) :
      Step s (.dispatch next) { s.enter L ret (some next) with currentTask := some next }
  /-- An instruction of `swtch`. -/
  | instr {s : State T} {i : Instr} (hact : s.act.inSwtch = true)
      (hi : fetch L.swtch s.cpu.regs.eip = some i) : Step s .instr (s.after i)
  /-- A timer interrupt, for whose frame there is room. -/
  | timer {s : State T} (hif : s.cpu.regs.interruptible = true)
      (hroom : L.lo s.on + 60 ≤ s.cpu.regs.esp.toNat) : Step s .timer (s.interrupt L)
  /-- `isr_handler` returns, and `isr_common` with it. -/
  | isrReturn {s : State T} {r i : Regs} {a : Act T} {outer : List (Interrupt T)}
      (hact : s.act = .returning) (houter : s.outer = (i, a) :: outer)
      (hesp : r.esp = i.esp - 56) (heip : r.eip = L.isrReturn) :
      Step s .isrReturn
        { s with
          cpu := interruptReturn ⟨r, s.cpu.mem⟩
          act := a
          outer }

/-- `kmain` on the boot stack, with interrupts off and no task yet. -/
structure Start (s : State T) : Prop where
  on : s.on = none
  currentTask : s.currentTask = none
  live : s.live = ∅
  act : s.act = .code
  outer : s.outer = []
  fresh : s.fresh = ∅
  quiet : s.cpu.regs.interruptible = false
  lo_le : L.bootBottom ≤ s.cpu.regs.esp.toNat
  le_hi : s.cpu.regs.esp.toNat ≤ L.bootTop

/-- The runs of the tasks. -/
def system : TransitionSystem (State T) (Action T) where
  Initial := Start L
  Step := Step L

end Step

end Switching

end Pelikan

end SystemsProjects
