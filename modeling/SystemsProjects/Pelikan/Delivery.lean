import SystemsProjects.Pelikan.Descriptors
import SystemsProjects.Pelikan.Interrupts
import SystemsProjects.Pelikan.Switch

/-!
# From an interrupt to `isr_handler` and back (`isr_asm.asm`)

What the CPU does with the number of an interrupt, under the tables of `gdt_init` and `idt_init`;
the stub it arrives at; and `isr_common`, up to the call of the handler and from its return.

- `Tables.gate`: the gate of a number, or the fault that takes its place.
- `Cpu.enterGate`, `isrStub`, `isrCommon`: what is pushed, by the CPU and by the kernel. The CPU
  pushes an error code for some of the numbers; the stubs of the other ones push a zero.
- `interrupt_delivered`: every number below 48 arrives at the handler with itself in the frame,
  every other one as a general protection fault; and a handler that leaves the frame alone makes
  no difference to the interrupted code.

The stack is described by what is pushed: `isrStub_stack` says it for the CPU and the stub,
`runStub_stack` for all of the way, and reading the frame back is a matter of lists. The way out
is `interruptReturn_frame` of `Switch`, which pops the same words.
-/

namespace SystemsProjects

namespace Pelikan

namespace Switching

open ByteMemory

/-! ## The CPU -/

/-- Through the gate: IF, TF, NT, RF and VM are cleared. -/
def Cpu.enterGate (s : Cpu) (cs : BitVec 32) (g : Gate) (code : Option (BitVec 32)) : Cpu :=
  let r := s.regs
  let s := ((s.push r.eflags).push cs).push r.eip
  let s := match code with
    | some code => s.push code
    | none => s
  { s with regs := { s.regs with eflags := r.eflags &&& ~~~0x34300#32, eip := g.offset } }

/-! ## The stubs -/

/-- `ISR_ERR`; the other stubs are `ISR_NO_ERR`. -/
def isrErr (v : Fin 48) : Bool := [8, 10, 11, 12, 13, 14, 17, 21, 29, 30].contains v.val

/-- The stub of the number `v`. -/
def isrStub (v : Fin 48) (s : Cpu) : Cpu :=
  if isrErr v then s.push (BitVec.ofNat 32 v.val) else (s.push 0).push (BitVec.ofNat 32 v.val)

/-- Where the linker has put the code of the kernel. -/
structure Image where
  isrTable : Fin 48 → BitVec 32
  isrHandler : BitVec 32
  /-- behind the call in `isr_common` -/
  isrReturn : BitVec 32
  /-- the stubs are at different places -/
  isrTable_injective : Function.Injective isrTable

variable {image : Image}

/-- The stub at `eip`. -/
def Image.stubAt (image : Image) (eip : BitVec 32) : Option (Fin 48) :=
  (List.finRange 48).find? fun v => image.isrTable v = eip

/-- `isr_common` up to the call of `isr_handler`. -/
def isrCommon (image : Image) (s : Cpu) : Cpu :=
  let s := pusha s
  let s := s.push s.regs.esp
  let s := s.push image.isrReturn
  { s with regs := { s.regs with eip := image.isrHandler } }

/-- Through the gate and the stub behind it to the call of `isr_handler`. -/
def runStub (image : Image) (cs : BitVec 32) (code : Option (BitVec 32)) (g : Gate) (s : Cpu) :
    Option Cpu :=
  (image.stubAt g.offset).map fun k => isrCommon image (isrStub k (s.enterGate cs g code))

/-- An interrupt with the number `v`: an external one, or an exception, with the error code `code`
if it has one. `none` is what the tables of the kernel do not come to: a second fault, or an EIP
outside the stubs. -/
def interrupt (t : Tables) (image : Image) (cs : BitVec 32) (external : Bool) (v : Fin 256)
    (code : BitVec 32) (s : Cpu) : Option Cpu :=
  match t.gate external v with
  | .ok g => runStub image cs (if hasErrorCode v && !external then some code else none) g s
  | .error fault =>
    match t.gate true fault.vector with
    | .ok g => runStub image cs (some fault.code) g s
    | .error _ => none

/-- The words that `isr_handler` reads of the frame at `a`. -/
def readFrame (m : ByteMemory) (a : Nat) : InterruptFrame where
  irNum := load m (a + 32)
  errCode := load m (a + 36)
  eip := load m (a + 40)

/-! ## The way in -/

variable {t : Tables} {s s' : Cpu} {gdt idt cs : BitVec 32} {external : Bool}

/-- The stub of a number is found at its address. -/
theorem Image.stubAt_isrTable (v : Fin 48) : image.stubAt (image.isrTable v) = some v := by
  cases hfind : image.stubAt (image.isrTable v) with
  | none =>
    have hnone := List.find?_eq_none.mp hfind v (List.mem_finRange v)
    simp at hnone
  | some k =>
    have hk := List.find?_some hfind
    rw [image.isrTable_injective (of_decide_eq_true hk)]

/-- The tables behind `gdt_init` and `idt_init`. -/
def bootTables (image : Image) (gdt idt : BitVec 32) (t : Tables) : Tables :=
  idtInit image.isrTable idt (gdtInit gdt t)

/-- The selector 0x08 is the flat code segment. -/
theorem bootTables_segment :
    (bootTables image gdt idt t).segment 0x08 = some (flatSegment 0x9A) := by
  obtain ⟨hgdt, hptr⟩ := @idtFill_gdt (gdtInit gdt t) image.isrTable 0
  rw [← (gdtInit_segment t gdt).1]
  simp only [Tables.segment, bootTables, idtInit, hgdt, hptr]

/-- The numbers below 48 have a gate to their stub. -/
theorem bootTables_gate (v : Fin 256) (hv : v.val < 48) :
    (bootTables image gdt idt t).gate external v =
      .ok ⟨image.isrTable ⟨v.val, hv⟩, 0x08, 0x8E⟩ := by
  have hgate : Gate.ofBits (bootTables image gdt idt t).idt[v].bits =
      ⟨image.isrTable ⟨v.val, hv⟩, 0x08, 0x8E⟩ := by
    rw [bootTables, idtInit_gate, dif_pos hv]
  have hptr : (bootTables image gdt idt t).idtPtr.limit.toNat = 2047 := rfl
  have hlast : (flatSegment 0x9A).last = 4294967295 := by simp [Segment.last, flatSegment]
  have hoffset := (image.isrTable ⟨v.val, hv⟩).isLt
  have hlimit : ¬ 2047 < 8 * v.val + 7 := by omega
  have hinterrupt : (⟨image.isrTable ⟨v.val, hv⟩, 0x08, 0x8E⟩ : Gate).isInterrupt = true := by
    show decide ((0x8E#8).extractLsb' 0 5 = 0x0E) = true
    decide
  have hpresent : (⟨image.isrTable ⟨v.val, hv⟩, 0x08, 0x8E⟩ : Gate).isPresent = true := by
    show (0x8E#8).getLsbD 7 = true
    decide
  have hcode : (flatSegment 0x9A).isCode = true := rfl
  simp only [Tables.gate, hgate, hptr, hinterrupt, hpresent, bootTables_segment, hcode, hlast,
    if_neg hlimit, Bool.not_true, Bool.false_eq_true, if_false, Bool.true_and]
  rw [if_pos]
  simp
  omega

/-- The numbers without a gate, as long as their entries are zero. -/
theorem bootTables_gate_fault (v : Fin 256) (hv : 48 ≤ v.val) (hzero : t.idt[v] = ⟨0, 0, 0, 0, 0⟩) :
    (bootTables image gdt idt t).gate external v =
      .error ⟨13, BitVec.ofNat 32 (8 * v.val + 2 + external.toNat)⟩ := by
  have hentry : (gdtInit gdt t).idt[v] = ⟨0, 0, 0, 0, 0⟩ := hzero
  have hgate : Gate.ofBits (bootTables image gdt idt t).idt[v].bits = ⟨0, 0, 0⟩ := by
    rw [bootTables, idtInit_gate, dif_neg (by omega), hentry]
    rfl
  have hptr : (bootTables image gdt idt t).idtPtr.limit.toNat = 2047 := rfl
  have hlt := v.isLt
  have hlimit : ¬ 2047 < 8 * v.val + 7 := by omega
  simp only [Tables.gate, hgate, hptr, if_neg hlimit]
  rw [if_pos (by decide)]

/-- The five words of an interrupt. One of them is the error code, from the CPU, or the zero of a
stub. -/
theorem isrStub_stack {v : Fin 48} {code : Option (BitVec 32)} (hcode : code.isSome = isrErr v)
    (g : Gate) :
    (isrStub v (s.enterGate cs g code)).regs = { s.regs with
      esp := s.regs.esp - 20, eip := g.offset, eflags := s.regs.eflags &&& ~~~0x34300#32 } ∧
    (isrStub v (s.enterGate cs g code)).stack =
      s.stack.pushes [s.regs.eflags, cs, s.regs.eip, code.getD 0, BitVec.ofNat 32 v.val] := by
  have h20 : s.regs.esp - 20 = s.regs.esp - 4 - 4 - 4 - 4 - 4 := by bv_omega
  cases code with
  | none =>
    have hstub : isrErr v = false := hcode.symm
    simp only [isrStub, hstub, Bool.false_eq_true, if_false, Cpu.enterGate, Option.getD_none]
    constructor
    · simp only [Cpu.push_regs, h20]
    · simp only [Cpu.push_stack, Cpu.jump_stack, WordStack.pushes_cons, WordStack.pushes_nil]
  | some code =>
    have hstub : isrErr v = true := hcode.symm
    simp only [isrStub, hstub, if_true, Cpu.enterGate, Option.getD_some]
    constructor
    · simp only [Cpu.push_regs, h20]
    · simp only [Cpu.push_stack, Cpu.jump_stack, WordStack.pushes_cons, WordStack.pushes_nil]

/-- `isr_common` leaves the flags alone up to the call. -/
theorem isrCommon_eflags (image : Image) (s : Cpu) :
    (isrCommon image s).regs.eflags = s.regs.eflags := by
  simp only [isrCommon, pusha, Cpu.push_regs]

/-- What is pushed on the way to `isr_handler`: the frame, its address and a return address. -/
theorem runStub_stack {v : Fin 48} {code : Option (BitVec 32)} (hcode : code.isSome = isrErr v)
    {g : Gate} (hg : g.offset = image.isrTable v) :
    ∃ s', runStub image cs code g s = some s' ∧
      s'.stack = s.stack.pushes
        ((frameWords cs (BitVec.ofNat 32 v.val) (code.getD 0) s.regs).reverse ++
          [s.regs.esp - 52, image.isrReturn]) ∧
      s'.regs.eip = image.isrHandler ∧ s'.regs.interruptible = false := by
  obtain ⟨hregs, hstack⟩ := @isrStub_stack s cs v code hcode g
  rw [runStub, hg, Image.stubAt_isrTable]
  refine ⟨_, rfl, ?_, rfl, ?_⟩
  · rw [← pusha_stack _ _ hregs hstack]
    exact Cpu.jump_stack ..
  · have hflags : (s.regs.eflags &&& ~~~0x34300#32).getLsbD 9 = false := by simp
    rw [Regs.interruptible, isrCommon_eflags, hregs]
    exact hflags

/-! ## Both -/

/-- The call of `isr_handler` in `s'`, for an interrupt in `s`: with this number and this error
code in the frame, and a way back to `s` that depends on the frame only. -/
structure Delivered (image : Image) (cs irNum errCode : BitVec 32) (s s' : Cpu) : Prop where
  eip : s'.regs.eip = image.isrHandler
  interruptible : s'.regs.interruptible = false
  esp : s'.regs.esp = s.regs.esp - 60
  returnAddress : s'.arg 0 = image.isrReturn
  argument : s'.arg 4 = s.regs.esp - 52
  frame : readFrame s'.mem (s'.arg 4).toNat = ⟨irNum, errCode, s.regs.eip⟩
  words : Words s'.mem (s.regs.esp.toNat - 52) (frameWords cs irNum errCode s.regs)
  apart : ∀ lo hi, s.regs.esp.toNat ≤ lo ∨ hi + 60 ≤ s.regs.esp.toNat → AgreeOn s.mem s'.mem lo hi
  returns : ∀ r m, r.esp = s.regs.esp - 56 →
    Words m (s.regs.esp.toNat - 52) (frameWords cs irNum errCode s.regs) →
    interruptReturn ⟨r, m⟩ = ⟨s.regs, m⟩

/-- From the gate to the call: everything that is delivered. -/
theorem runStub_delivered {v : Fin 48} {code : Option (BitVec 32)} (hcode : code.isSome = isrErr v)
    {g : Gate} (hg : g.offset = image.isrTable v) (hroom : 60 ≤ s.regs.esp.toNat) :
    ∃ s', runStub image cs code g s = some s' ∧
      Delivered image cs (BitVec.ofNat 32 v.val) (code.getD 0) s s' := by
  obtain ⟨s', hrun, hstack, heip, hoff⟩ := @runStub_stack image s cs v code hcode g hg
  refine ⟨s', hrun, ?_⟩
  have hlt := s.regs.esp.isLt
  have hlen : 4 * ((frameWords cs (BitVec.ofNat 32 v.val) (code.getD 0) s.regs).reverse ++
      [s.regs.esp - 52, image.isrReturn]).length ≤ s.stack.top.toNat := hroom
  have htop := WordStack.pushes_top hlen
  have hwords := @WordStack.pushes_words s.stack _ [] hlen (Nat.le_of_lt hlt) trivial
  have hapart := fun lo hi => @WordStack.pushes_apart s.stack _ lo hi hlen
  rw [← hstack] at htop hwords
  replace htop : s'.regs.esp.toNat + 60 = s.regs.esp.toNat := htop
  have hesp : s'.regs.esp = s.regs.esp - 60 := by bv_omega
  rw [List.append_nil, List.reverse_append, List.reverse_reverse] at hwords
  -- the return address and the argument of the call, and the frame above them
  obtain ⟨hreturn, hargument, hframe⟩ := hwords
  have hbase : s'.stack.top.toNat + 4 + 4 = s.regs.esp.toNat - 52 := by
    show s'.regs.esp.toNat + 4 + 4 = _
    omega
  rw [hbase] at hframe
  replace hframe : Words s'.mem (s.regs.esp.toNat - 52)
    (frameWords cs (BitVec.ofNat 32 v.val) (code.getD 0) s.regs) := hframe
  have hzero : s'.regs.esp + 0 = s'.regs.esp := BitVec.add_zero _
  have hfour : (s'.regs.esp + 4).toNat = s'.regs.esp.toNat + 4 := by bv_omega
  have hargument' : s'.arg 4 = s.regs.esp - 52 := by
    rw [Cpu.arg, hfour]
    exact hargument
  have haddr : (s.regs.esp - 52).toNat = s.regs.esp.toNat - 52 := by bv_omega
  exact {
    eip := heip
    interruptible := hoff
    esp := hesp
    returnAddress := by
      rw [Cpu.arg, hzero]
      exact hreturn
    argument := hargument'
    frame := by
      rw [hargument', haddr, readFrame]
      congr 1
      · exact hframe.get 8 (by simp [frameWords])
      · exact hframe.get 9 (by simp [frameWords])
      · exact hframe.get 10 (by simp [frameWords])
    words := hframe
    apart := fun lo hi h => by
      have hmem : s'.mem = s'.stack.mem := rfl
      rw [hmem, hstack]
      exact hapart lo hi h
    returns := fun r m hr hm => interruptReturn_frame (by omega) hr hm }

/-- External interrupts have no error code. -/
theorem hasErrorCode_of_le {v : Fin 256} (hv : 32 ≤ v.val) : hasErrorCode v = false := by
  unfold hasErrorCode
  simp
  omega

/-- With the tables that `gdt_init` and `idt_init` build, from whatever was in them but for zeros
in the unused part of `idt`: an interrupt with a number below 48 calls `isr_handler` with
interrupts off, with its number and its error code (zero if it has none) in the frame, and as long
as the handler leaves the frame alone, `isr_common` returns to the interrupted code with all its
registers and flags. Every other number arrives as a general protection fault. -/
theorem interrupt_delivered (image : Image) (gdt idt cs code : BitVec 32) (t : Tables)
    (hzero : ∀ w : Fin 256, 48 ≤ w.val → t.idt.get w = ⟨0, 0, 0, 0, 0⟩) (external : Bool)
    (v : Fin 256) (hexternal : external = true → 32 ≤ v.val) (hroom : 60 ≤ s.regs.esp.toNat) :
    ∃ s', interrupt (bootTables image gdt idt t) image cs external v code s = some s' ∧
      if v.val < 48 then
        Delivered image cs (BitVec.ofNat 32 v.val) (if hasErrorCode v then code else 0) s s'
      else
        Delivered image cs 13 (BitVec.ofNat 32 (8 * v.val + 2 + external.toNat)) s s' := by
  by_cases hv : v.val < 48
  · -- the CPU pushes an error code just where the stub expects one
    have hsome : (if hasErrorCode v && !external then some code else none).isSome =
        isrErr ⟨v.val, hv⟩ := by
      have hstub : isrErr ⟨v.val, hv⟩ = hasErrorCode v := rfl
      rw [hstub]
      cases external with
      | false => cases hasErrorCode v <;> rfl
      | true => rw [hasErrorCode_of_le (hexternal rfl)]; rfl
    have hcode : (if hasErrorCode v && !external then some code else none).getD 0 =
        if hasErrorCode v then code else 0 := by
      cases external with
      | false => cases hasErrorCode v <;> rfl
      | true => rw [hasErrorCode_of_le (hexternal rfl)]; rfl
    obtain ⟨s', hrun, hdelivered⟩ := @runStub_delivered image s cs ⟨v.val, hv⟩ _ hsome
      ⟨image.isrTable ⟨v.val, hv⟩, 0x08, 0x8E⟩ rfl hroom
    rw [hcode] at hdelivered
    simp only [interrupt, bootTables_gate v hv, if_pos hv]
    exact ⟨s', hrun, hdelivered⟩
  · -- no gate is there: the fault 13 is raised instead, from outside or not
    have hgate := @bootTables_gate image t gdt idt true 13 (by decide)
    simp only [interrupt, bootTables_gate_fault v (by omega) (hzero v (by omega)), hgate, if_neg hv]
    exact runStub_delivered (v := 13) rfl rfl hroom

/-- An image with sixteen bytes for each stub. -/
def spacedImage : Image where
  isrTable := fun v => BitVec.ofNat 32 (0x100000 + 16 * v.val)
  isrHandler := 0x101000
  isrReturn := 0x100400
  isrTable_injective := by
    intro v w h
    have hnat := congrArg BitVec.toNat h
    rw [BitVec.toNat_ofNat, BitVec.toNat_ofNat] at hnat
    exact Fin.ext (by omega)

/-- The tables before anything has been written. -/
def bssTables : Tables where
  gdt := Vector.replicate 3 ⟨0, 0, 0, 0, 0, 0⟩
  gdtPtr := ⟨0, 0⟩
  idt := Vector.replicate 256 ⟨0, 0, 0, 0, 0⟩
  idtPtr := ⟨0, 0⟩

/-- A task that has stored to an address that is not mapped. -/
def faulting : Cpu where
  regs := ⟨1, 2, 3, 4, 0x9000, 5, 6, 7, 0x103000, 0x202⟩
  mem := fun _ => 0

theorem interrupt_delivered_pageFault :
    ∃ s', interrupt (bootTables spacedImage 0x5000 0x6000 bssTables) spacedImage 0x08 false 14 2
        faulting = some s' ∧
      Delivered spacedImage 0x08 14 2 faulting s' :=
  interrupt_delivered spacedImage 0x5000 0x6000 0x08 2 bssTables
    (fun w _ => Vector.getElem_replicate w.isLt) false 14 (fun h => Bool.noConfusion h) (by decide)

/-- The interrupt of the timer, as the tasks see it. -/
theorem interrupt_timer (image : Image) (gdt idt cs code : BitVec 32) (t : Tables) (s : Cpu) :
    interrupt (bootTables image gdt idt t) image cs true 32 code s =
      some (interruptEntry cs image.isrHandler image.isrReturn s) := by
  have hgate := @bootTables_gate image t gdt idt true 32 (by decide)
  have hcode : hasErrorCode 32 = false := rfl
  simp only [interrupt, hgate, hcode, runStub, Bool.false_and, Bool.false_eq_true, if_false]
  exact congrArg (Option.map _) (image.stubAt_isrTable 32)

end Switching

end Pelikan

end SystemsProjects
