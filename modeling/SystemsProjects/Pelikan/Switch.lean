import SystemsProjects.Lib.WordStack

/-!
# The context switch, instruction by instruction

The registers of the CPU, the instructions `swtch` is made of, and the way into and out of an
interrupt.

- `swtch`: the fifteen instructions of `swtch.asm`; `fetch` finds the one at EIP.
- `interruptEntry`, `interruptReturn`: what the CPU, `isr32` and `isr_common` do up to the call of
  `isr_handler`, and from its return to `iret`.
- `Saving`, `Restoring`: a thread in the first half of `swtch`, on the stack it leaves, and in the
  second half, on the stack it has come back to. Each instruction leads from one point to the
  next (`Saving.push`, ..., `Restoring.popf`), and `Restoring.ret` is the end of the call.
- `interruptEntry_frame`, `interruptReturn_frame`: an interrupt puts the registers below the stack
  pointer, and returning from it puts them back.

`Saving` and `Restoring` are indexed by the instruction that comes next, and the words already
pushed or not yet popped are a list that gets longer or shorter by one. An interrupt at any of
these points puts its frame below the stack pointer, where no word of the call is; this is all
that the preemption results need to know about the machine.
-/

namespace SystemsProjects

namespace Pelikan

namespace Switching

open ByteMemory

/-- The general registers, EIP and EFLAGS. -/
structure Regs where
  eax : BitVec 32
  ecx : BitVec 32
  edx : BitVec 32
  ebx : BitVec 32
  esp : BitVec 32
  ebp : BitVec 32
  esi : BitVec 32
  edi : BitVec 32
  eip : BitVec 32
  eflags : BitVec 32
  deriving DecidableEq

/-- EFLAGS.IF: interrupts are enabled. -/
def Regs.interruptible (r : Regs) : Bool := r.eflags.getLsbD 9

/-- The registers and the memory. -/
structure Cpu where
  regs : Regs
  mem : ByteMemory

namespace Cpu

/-- The stack at ESP. -/
def stack (s : Cpu) : WordStack := ⟨s.regs.esp, s.mem⟩

/-- ESP goes down by four and the word is stored there. -/
def push (s : Cpu) (v : BitVec 32) : Cpu where
  regs := { s.regs with esp := (s.stack.push v).top }
  mem := (s.stack.push v).mem

theorem push_regs (s : Cpu) (v : BitVec 32) :
    (s.push v).regs = { s.regs with esp := s.regs.esp - 4 } := rfl

theorem push_stack (s : Cpu) (v : BitVec 32) : (s.push v).stack = s.stack.push v := rfl

/-- EFLAGS and EIP have nothing to do with the stack. -/
theorem jump_stack (s : Cpu) (eflags eip : BitVec 32) :
    ({ s with regs := { s.regs with eflags, eip } } : Cpu).stack = s.stack := rfl

/-- The word `n` bytes above the stack pointer. -/
def arg (s : Cpu) (n : BitVec 32) : BitVec 32 := load s.mem (s.regs.esp + n).toNat

end Cpu

/-! ## `swtch` -/

/-- The registers that `swtch` pushes and pops. -/
inductive Reg where
  | ebx
  | esi
  | edi
  | ebp
  deriving DecidableEq

namespace Regs

/-- What a register holds. -/
def get (r : Regs) : Reg → BitVec 32
  | .ebx => r.ebx
  | .esi => r.esi
  | .edi => r.edi
  | .ebp => r.ebp

/-- A register with another value. -/
def set (r : Regs) (v : BitVec 32) : Reg → Regs
  | .ebx => { r with ebx := v }
  | .esi => { r with esi := v }
  | .edi => { r with edi := v }
  | .ebp => { r with ebp := v }

end Regs

/-- The instructions that `swtch.asm` uses. -/
inductive Instr where
  | pushf
  | push (r : Reg)
  /-- `mov eax, [esp + n]` -/
  | movEaxArg (n : BitVec 32)
  /-- `mov [eax], esp` -/
  | movStoreEsp
  /-- `mov esp, eax` -/
  | movEspEax
  | pop (r : Reg)
  | popf
  | ret
  deriving DecidableEq

/-- The bytes that the instruction takes. -/
def Instr.size : Instr → Nat
  | .movEaxArg _ => 4
  | .movStoreEsp | .movEspEax => 2
  | _ => 1

/-- What the instruction does once EIP is behind it. -/
def Instr.effect (s : Cpu) : Instr → Cpu
  | .pushf => s.push s.regs.eflags
  | .push r => s.push (s.regs.get r)
  | .movEaxArg n => { s with regs := { s.regs with eax := s.arg n } }
  | .movStoreEsp => { s with mem := store s.mem s.regs.eax.toNat s.regs.esp }
  | .movEspEax => { s with regs := { s.regs with esp := s.regs.eax } }
  | .pop r => { s with regs := { s.regs with esp := s.regs.esp + 4 }.set (s.arg 0) r }
  | .popf => { s with regs := { s.regs with esp := s.regs.esp + 4, eflags := s.arg 0 } }
  | .ret => { s with regs := { s.regs with esp := s.regs.esp + 4, eip := s.arg 0 } }

/-- A jump. -/
def Cpu.goto (s : Cpu) (eip : BitVec 32) : Cpu := { s with regs := { s.regs with eip } }

/-- EIP goes past the instruction, which then takes effect. -/
def Cpu.exec (s : Cpu) (i : Instr) : Cpu :=
  i.effect (s.goto (s.regs.eip + BitVec.ofNat 32 i.size))

/-- `swtch(uint32_t *old_esp, uint32_t new_esp)` -/
def swtch : List Instr :=
  [.pushf, .push .ebx, .push .esi, .push .edi, .push .ebp, .movEaxArg 24, .movStoreEsp,
    .movEaxArg 28, .movEspEax, .pop .ebp, .pop .edi, .pop .esi, .pop .ebx, .popf, .ret]

/-- Where instruction `k` of `swtch` is, when `swtch` is at `base`. -/
def point (base : BitVec 32) (k : Nat) : BitVec 32 :=
  base + BitVec.ofNat 32 ((swtch.take k).map Instr.size).sum

/-- The instruction of `swtch` at `eip`. -/
def fetch (base eip : BitVec 32) : Option Instr :=
  ((List.range swtch.length).find? fun k => point base k = eip).bind fun k => swtch[k]?

/-- The instructions are at different addresses. -/
theorem point_injective {base : BitVec 32} {j k : Nat} (hj : j < 15) (hk : k < 15)
    (h : point base j = point base k) : j = k := by
  have hoffset := (BitVec.add_right_inj base).mp h
  have hall : ∀ j < 15, ∀ k < 15,
      BitVec.ofNat 32 ((swtch.take j).map Instr.size).sum =
        BitVec.ofNat 32 ((swtch.take k).map Instr.size).sum → j = k := by decide
  exact hall j hj k hk hoffset

/-- At the address of an instruction that instruction is fetched. -/
theorem fetch_point {base : BitVec 32} {k : Nat} (hk : k < 15) :
    fetch base (point base k) = swtch[k]? := by
  have hfind : (List.range swtch.length).find? (fun j => point base j = point base k) = some k := by
    rw [List.find?_range_eq_some]
    refine ⟨by simp, List.mem_range.mpr hk, fun j hj => ?_⟩
    have hne : j ≠ k := by omega
    simpa using fun h => hne (point_injective (by omega) hk h)
  rw [fetch, hfind]
  rfl

/-- EIP moves on by the size of the instruction. -/
theorem point_succ {base : BitVec 32} {k : Nat} {i : Instr} (hi : swtch[k]? = some i) :
    point base k + BitVec.ofNat 32 i.size = point base (k + 1) := by
  unfold point
  rw [List.take_add_one, hi, BitVec.add_assoc, ← BitVec.ofNat_add]
  simp

/-- An instruction has its effect, with EIP behind it. -/
theorem exec_eq {base : BitVec 32} {k : Nat} {i : Instr} {s : Cpu}
    (heip : s.regs.eip = point base k) (hi : swtch[k]? = some i) :
    s.exec i = i.effect (s.goto (point base (k + 1))) := by
  unfold Cpu.exec
  rw [heip, point_succ hi]

/-! ## Interrupts -/

/-- `pusha`; the stack pointer it pushes is the one before it. -/
def pusha (s : Cpu) : Cpu :=
  let r := s.regs
  let s := (((s.push r.eax).push r.ecx).push r.edx).push r.ebx
  (((s.push r.esp).push r.ebp).push r.esi).push r.edi

/-- `popa`; it skips the stack pointer that `pusha` pushed. -/
def popa (s : Cpu) : Cpu :=
  { s with regs := { s.regs with
      edi := s.arg 0
      esi := s.arg 4
      ebp := s.arg 8
      ebx := s.arg 16
      edx := s.arg 20
      ecx := s.arg 24
      eax := s.arg 28
      esp := s.regs.esp + 32 } }

/-- A timer interrupt, up to `isr_common`. -/
def isr32 (cs : BitVec 32) (s : Cpu) : Cpu :=
  let r := s.regs
  -- the CPU, through an interrupt gate: IF, TF, NT, RF and VM are cleared
  let s := ((s.push r.eflags).push cs).push r.eip
  let s := { s with regs := { s.regs with eflags := r.eflags &&& ~~~0x34300#32 } }
  -- isr32
  (s.push 0).push 32

/-- A timer interrupt, up to the call of `isr_handler`. -/
def interruptEntry (cs isrHandler isrReturn : BitVec 32) (s : Cpu) : Cpu :=
  -- isr_common
  let s := pusha (isr32 cs s)
  let s := s.push s.regs.esp
  let s := s.push isrReturn
  { s with regs := { s.regs with eip := isrHandler } }

/-- `isr_common` behind the call of `isr_handler`. -/
def interruptReturn (s : Cpu) : Cpu :=
  let s := { s with regs := { s.regs with esp := s.regs.esp + 4 } }
  let s := popa s
  let s := { s with regs := { s.regs with esp := s.regs.esp + 8 } }
  -- iret
  { s with regs := { s.regs with
      eip := s.arg 0
      eflags := s.arg 8
      esp := s.regs.esp + 12 } }

/-- `struct interrupt_frame` of code with the registers `i`, from its first word on. -/
def frameWords (cs irNum errCode : BitVec 32) (i : Regs) : List (BitVec 32) :=
  [i.edi, i.esi, i.ebp, i.esp - 20, i.ebx, i.edx, i.ecx, i.eax, irNum, errCode, i.eip, cs,
    i.eflags]

/-- The frame of a timer interrupt. -/
def interruptFrame (cs : BitVec 32) (i : Regs) : List (BitVec 32) := frameWords cs 32 0 i

variable {cs isrHandler isrReturn : BitVec 32} {s : Cpu}

/-- What is pushed on the way to `isr_handler`, behind the five words that `s'` has from the CPU and
the stub: the rest of the frame, its address and a return address. -/
theorem pusha_stack {s' : Cpu} {irNum errCode ret : BitVec 32} (eip eflags : BitVec 32)
    (hregs : s'.regs = { s.regs with esp := s.regs.esp - 20, eip, eflags })
    (hstack : s'.stack = s.stack.pushes [s.regs.eflags, cs, s.regs.eip, errCode, irNum]) :
    (((pusha s').push (pusha s').regs.esp).push ret).stack =
      s.stack.pushes ((frameWords cs irNum errCode s.regs).reverse ++ [s.regs.esp - 52, ret]) := by
  have h52 : s.regs.esp - 52 = s.regs.esp - 20 - 4 - 4 - 4 - 4 - 4 - 4 - 4 - 4 := by bv_omega
  have hreverse : (frameWords cs irNum errCode s.regs).reverse ++ [s.regs.esp - 52, ret] =
      [s.regs.eflags, cs, s.regs.eip, errCode, irNum] ++
        [s.regs.eax, s.regs.ecx, s.regs.edx, s.regs.ebx, s.regs.esp - 20, s.regs.ebp, s.regs.esi,
          s.regs.edi, s.regs.esp - 52, ret] := rfl
  rw [hreverse, WordStack.pushes_append, ← hstack, h52]
  simp only [WordStack.pushes_cons, WordStack.pushes_nil, pusha, Cpu.push_stack, Cpu.push_regs,
    hregs]

/-- The five words of a timer interrupt. -/
theorem isr32_stack :
    (isr32 cs s).regs = { s.regs with
      esp := s.regs.esp - 20, eip := s.regs.eip, eflags := s.regs.eflags &&& ~~~0x34300#32 } ∧
    (isr32 cs s).stack = s.stack.pushes [s.regs.eflags, cs, s.regs.eip, 0, 32] := by
  have h20 : s.regs.esp - 20 = s.regs.esp - 4 - 4 - 4 - 4 - 4 := by bv_omega
  constructor
  · simp only [isr32, Cpu.push_regs, h20]
  · simp only [isr32, Cpu.push_stack, Cpu.jump_stack, WordStack.pushes_cons, WordStack.pushes_nil]

/-- The words that a timer interrupt has pushed when the handler is called. -/
theorem interruptEntry_stack :
    (interruptEntry cs isrHandler isrReturn s).stack =
      s.stack.pushes ((interruptFrame cs s.regs).reverse ++ [s.regs.esp - 52, isrReturn]) := by
  rw [interruptFrame, ← pusha_stack _ _ isr32_stack.1 isr32_stack.2]
  exact Cpu.jump_stack ..

theorem interruptEntry_interruptible :
    (interruptEntry cs isrHandler isrReturn s).regs.interruptible = false := by
  show (s.regs.eflags &&& ~~~0x34300#32).getLsbD 9 = false
  simp

/-- The frame lies below the stack pointer, and nothing outside the sixty bytes changes. -/
theorem interruptEntry_frame (h : 60 ≤ s.regs.esp.toNat) :
    (interruptEntry cs isrHandler isrReturn s).regs.esp.toNat + 60 = s.regs.esp.toNat ∧
      Words (interruptEntry cs isrHandler isrReturn s).mem (s.regs.esp.toNat - 52)
        (interruptFrame cs s.regs) ∧
      ∀ lo hi, s.regs.esp.toNat ≤ lo ∨ hi + 60 ≤ s.regs.esp.toNat →
        AgreeOn s.mem (interruptEntry cs isrHandler isrReturn s).mem lo hi := by
  have hlt := s.regs.esp.isLt
  have hstack := @interruptEntry_stack cs isrHandler isrReturn s
  have hlen : 4 * ((interruptFrame cs s.regs).reverse ++ [s.regs.esp - 52, isrReturn]).length ≤
      s.stack.top.toNat := h
  have htop := WordStack.pushes_top hlen
  have hwords := @WordStack.pushes_words s.stack _ [] hlen (Nat.le_of_lt hlt) trivial
  have hapart : ∀ lo hi, s.regs.esp.toNat ≤ lo ∨ hi + 60 ≤ s.regs.esp.toNat → AgreeOn s.mem
      (s.stack.pushes ((interruptFrame cs s.regs).reverse ++ [s.regs.esp - 52, isrReturn])).mem
      lo hi := fun lo hi => WordStack.pushes_apart hlen
  rw [← hstack] at htop hwords hapart
  replace htop : (interruptEntry cs isrHandler isrReturn s).regs.esp.toNat + 60 =
    s.regs.esp.toNat := htop
  refine ⟨htop, ?_, hapart⟩
  rw [List.append_nil, List.reverse_append, List.reverse_reverse, Words.append] at hwords
  have hframe := hwords.2
  have haddr : (interruptEntry cs isrHandler isrReturn s).stack.top.toNat + 4 * 2 =
      s.regs.esp.toNat - 52 := by
    show (interruptEntry cs isrHandler isrReturn s).regs.esp.toNat + 4 * 2 = _
    omega
  rwa [show [s.regs.esp - 52, isrReturn].reverse.length = 2 from rfl, haddr] at hframe

/-- The words of a frame that lies in memory. -/
theorem frameWords_get {i : Regs} {m : ByteMemory} {irNum errCode : BitVec 32}
    (hroom : 52 ≤ i.esp.toNat)
    (hframe : Words m (i.esp.toNat - 52) (frameWords cs irNum errCode i)) (j : Nat) (hj : j < 13) :
    load m (i.esp - 52 + BitVec.ofNat 32 (4 * j)).toNat = (frameWords cs irNum errCode i)[j] := by
  have hlt := i.esp.isLt
  have haddr : (i.esp - 52 + BitVec.ofNat 32 (4 * j)).toNat = i.esp.toNat - 52 + 4 * j := by
    bv_omega
  rw [haddr]
  exact hframe.get j hj

/-- Back in `isr_common` with the frame in place, `popa` and `iret` load the registers from it; they
skip the stack pointer in it, the number and the error code. -/
theorem interruptReturn_frame {i : Regs} {irNum errCode : BitVec 32} (hroom : 56 ≤ i.esp.toNat)
    (hesp : s.regs.esp = i.esp - 56)
    (hframe : Words s.mem (i.esp.toNat - 52) (frameWords cs irNum errCode i)) :
    interruptReturn s = { regs := i, mem := s.mem } := by
  have hword := frameWords_get (by omega) hframe
  -- where `isr_common` is in the frame: at its start, behind `popa`, and behind the two words
  have hstart : s.regs.esp + 4 = i.esp - 52 := by rw [hesp]; bv_omega
  have hiret : i.esp - 52 + 32 + 8 + 0 = i.esp - 52 + 40 := by bv_omega
  have hflags : i.esp - 52 + 32 + 8 + 8 = i.esp - 52 + 48 := by bv_omega
  have hend : i.esp - 52 + 32 + 8 + 12 = i.esp := by bv_omega
  have hedi : load s.mem (i.esp - 52 + 0).toNat = i.edi := hword 0 (by decide)
  have hesi : load s.mem (i.esp - 52 + 4).toNat = i.esi := hword 1 (by decide)
  have hebp : load s.mem (i.esp - 52 + 8).toNat = i.ebp := hword 2 (by decide)
  have hebx : load s.mem (i.esp - 52 + 16).toNat = i.ebx := hword 4 (by decide)
  have hedx : load s.mem (i.esp - 52 + 20).toNat = i.edx := hword 5 (by decide)
  have hecx : load s.mem (i.esp - 52 + 24).toNat = i.ecx := hword 6 (by decide)
  have heax : load s.mem (i.esp - 52 + 28).toNat = i.eax := hword 7 (by decide)
  have heip : load s.mem (i.esp - 52 + 40).toNat = i.eip := hword 10 (by decide)
  have heflags : load s.mem (i.esp - 52 + 48).toNat = i.eflags := hword 12 (by decide)
  simp only [interruptReturn, popa, Cpu.arg, hstart, hend]
  rw [hiret, hflags, hedi, hesi, hebp, hebx, hedx, hecx, heax, heip, heflags]

/-! ## The two halves of a call

Of a call of `swtch` the registers are kept as they are on entry, with the return address for
EIP. -/

/-- What a call leaves on its stack, from the top: five registers and the return address. -/
def savedWords (c : Regs) : List (BitVec 32) := [c.ebp, c.edi, c.esi, c.ebx, c.eflags, c.eip]

/-- Instruction `k` of the call `c` is next, on the stack that the call was made on. The stack
lies between `lo` and `top`, and the arguments are `oldEsp` and `newEsp`. -/
structure Saving (base : BitVec 32) (lo top : Nat) (oldEsp newEsp : BitVec 32) (c : Regs) (k : Nat)
    (s : Cpu) : Prop where
  bound : k ≤ 8
  eip : s.regs.eip = point base k
  room : lo + 20 ≤ c.esp.toNat
  fits : c.esp.toNat + 12 ≤ top
  esp : s.regs.esp.toNat + 4 * min k 5 = c.esp.toNat
  words : Words s.mem s.regs.esp.toNat ((savedWords c ++ [oldEsp, newEsp]).drop (5 - min k 5))
  ebp : s.regs.ebp = c.ebp
  edi : s.regs.edi = c.edi
  esi : s.regs.esi = c.esi
  ebx : s.regs.ebx = c.ebx
  eflags : s.regs.eflags = c.eflags
  target : k = 6 → s.regs.eax = oldEsp
  source : k = 8 → s.regs.eax = newEsp

/-- Instruction `k` of the call `c` is next, on the stack that the call has come back to. -/
structure Restoring (base : BitVec 32) (lo top : Nat) (c : Regs) (k : Nat) (s : Cpu) : Prop where
  start : 9 ≤ k
  bound : k ≤ 14
  eip : s.regs.eip = point base k
  room : lo + 20 ≤ c.esp.toNat
  fits : c.esp.toNat + 4 ≤ top
  esp : s.regs.esp.toNat + 20 = c.esp.toNat + 4 * (k - 9)
  words : Words s.mem s.regs.esp.toNat ((savedWords c).drop (k - 9))
  ebp : 10 ≤ k → s.regs.ebp = c.ebp
  edi : 11 ≤ k → s.regs.edi = c.edi
  esi : 12 ≤ k → s.regs.esi = c.esi
  ebx : 13 ≤ k → s.regs.ebx = c.ebx
  eflags : 14 ≤ k → s.regs.eflags = c.eflags

variable {base : BitVec 32} {lo top : Nat} {oldEsp newEsp : BitVec 32} {c : Regs} {k : Nat}
  {i : Instr}

namespace Saving

/-- The words that a call has on its stack, by the instruction it is at. -/
theorem length_words (hk : k ≤ 8) :
    4 * ((savedWords c ++ [oldEsp, newEsp]).drop (5 - min k 5)).length = 12 + 4 * min k 5 := by
  rw [List.length_drop, List.length_append]
  show 4 * (6 + 2 - (5 - min k 5)) = _
  omega

/-- Only the stack from the stack pointer up matters. -/
theorem congr {m : ByteMemory} (h : Saving base lo top oldEsp newEsp c k s)
    (hm : AgreeOn s.mem m s.regs.esp.toNat top) (htop : top ≤ 4294967296) :
    Saving base lo top oldEsp newEsp c k { s with mem := m } := by
  have hlen := @length_words oldEsp newEsp c k h.bound
  have hesp := h.esp
  have hfits := h.fits
  refine { h with words := h.words.congr ?_ (hm.mono (Nat.le_refl _) ?_) } <;> omega

/-- The instruction pushes the next of the saved words. -/
theorem pushed {v : BitVec 32} (h : Saving base lo top oldEsp newEsp c k s) (hk : k < 5)
    (hv : (savedWords c)[4 - k]? = some v) (htop : top ≤ 4294967296) :
    Saving base lo top oldEsp newEsp c (k + 1)
      ((s.push v).goto (point base (k + 1))) := by
  have hlen := @length_words oldEsp newEsp c k h.bound
  have hesp := h.esp
  have hfits := h.fits
  have hroom := h.room
  have hroom4 : 4 ≤ s.stack.top.toNat := by
    show 4 ≤ s.regs.esp.toNat
    omega
  have hpush : (s.push v).regs.esp.toNat + 4 = s.regs.esp.toNat :=
    WordStack.push_top (v := v) hroom4
  -- the words on the stack now begin one word earlier in the list
  have hdrop : (savedWords c ++ [oldEsp, newEsp]).drop (5 - min (k + 1) 5) =
      v :: (savedWords c ++ [oldEsp, newEsp]).drop (5 - min k 5) := by
    have hlt : 4 - k < (savedWords c).length := by
      show 4 - k < 6
      omega
    have hmin : 5 - min (k + 1) 5 = 4 - k := by omega
    have hmin' : 5 - min k 5 = 4 - k + 1 := by omega
    rw [List.getElem?_eq_getElem hlt] at hv
    rw [hmin, hmin', List.drop_eq_getElem_cons (by simp [savedWords]; omega),
      List.getElem_append_left hlt,
      Option.some.inj hv]
  exact {
    bound := by omega
    eip := rfl
    room := hroom
    fits := hfits
    esp := by show (s.push v).regs.esp.toNat + 4 * min (k + 1) 5 = _; omega
    words := by
      rw [hdrop]
      refine WordStack.push_words hroom4 ?_ h.words
      show s.regs.esp.toNat + _ ≤ _
      omega
    ebp := h.ebp
    edi := h.edi
    esi := h.esi
    ebx := h.ebx
    eflags := h.eflags
    target := by intro h6; omega
    source := by intro h8; omega }

/-- The arguments, found above the saved registers. -/
theorem args (h : Saving base lo top oldEsp newEsp c k s) (hk : 5 ≤ k) (htop : top ≤ 4294967296) :
    s.arg 24 = oldEsp ∧ s.arg 28 = newEsp := by
  have hesp := h.esp
  have hfits := h.fits
  have hmin : 5 - min k 5 = 0 := by omega
  have hwords := h.words
  rw [hmin] at hwords
  have hold := hwords.get 6 (by simp [savedWords])
  have hnew := hwords.get 7 (by simp [savedWords])
  have h24 : (s.regs.esp + 24).toNat = s.regs.esp.toNat + 4 * 6 := by bv_omega
  have h28 : (s.regs.esp + 28).toNat = s.regs.esp.toNat + 4 * 7 := by bv_omega
  unfold Cpu.arg
  rw [h24, h28]
  exact ⟨hold, hnew⟩

/-- The five pushes push the five registers. -/
theorem exec_push (h : Saving base lo top oldEsp newEsp c k s) (hk : k < 5)
    (hi : swtch[k]? = some i) :
    ∃ v, (savedWords c)[4 - k]? = some v ∧ s.exec i = (s.push v).goto (point base (k + 1)) := by
  rw [exec_eq h.eip hi]
  have hcases : k = 0 ∨ k = 1 ∨ k = 2 ∨ k = 3 ∨ k = 4 := by omega
  rcases hcases with rfl | rfl | rfl | rfl | rfl <;> obtain rfl := Option.some.inj hi
  · exact ⟨s.regs.eflags, by rw [h.eflags]; rfl, rfl⟩
  · exact ⟨s.regs.ebx, by rw [h.ebx]; rfl, rfl⟩
  · exact ⟨s.regs.esi, by rw [h.esi]; rfl, rfl⟩
  · exact ⟨s.regs.edi, by rw [h.edi]; rfl, rfl⟩
  · exact ⟨s.regs.ebp, by rw [h.ebp]; rfl, rfl⟩

/-- The first five instructions. -/
theorem push (h : Saving base lo top oldEsp newEsp c k s) (hk : k < 5) (hi : swtch[k]? = some i)
    (htop : top ≤ 4294967296) :
    Saving base lo top oldEsp newEsp c (k + 1) (s.exec i) ∧
      ∀ x y, y ≤ lo ∨ top ≤ x → AgreeOn s.mem (s.exec i).mem x y := by
  obtain ⟨v, hv, hexec⟩ := h.exec_push hk hi
  have hesp := h.esp
  have hroom := h.room
  have hfits := h.fits
  rw [hexec]
  refine ⟨h.pushed hk hv htop, fun x y hxy => WordStack.push_apart ?_ ?_⟩
  · show 4 ≤ s.regs.esp.toNat
    omega
  · show s.regs.esp.toNat ≤ x ∨ y ≤ s.regs.esp.toNat - 4
    omega

/-- `mov eax, [esp + 24]`: EAX is the address that the stack pointer goes to. -/
theorem loadTarget (h : Saving base lo top oldEsp newEsp c 5 s) (htop : top ≤ 4294967296) :
    Saving base lo top oldEsp newEsp c 6 (s.exec (.movEaxArg 24)) := by
  rw [exec_eq h.eip rfl]
  exact { h with
    bound := by omega
    eip := rfl
    target := fun _ => (h.args (Nat.le_refl 5) htop).1
    source := by intro h8; omega }

/-- `mov [eax], esp`, where `eax` points to a cell outside the stack. -/
theorem storeEsp (h : Saving base lo top oldEsp newEsp c 6 s) (htop : top ≤ 4294967296)
    (hcell : oldEsp.toNat + 4 ≤ 4294967296) (hapart : oldEsp.toNat + 4 ≤ lo ∨ top ≤ oldEsp.toNat) :
    Saving base lo top oldEsp newEsp c 7 (s.exec .movStoreEsp) ∧
      (s.exec .movStoreEsp).mem = store s.mem oldEsp.toNat s.regs.esp := by
  have hesp := h.esp
  have hroom := h.room
  have hmem : (s.exec .movStoreEsp).mem = store s.mem oldEsp.toNat s.regs.esp := by
    rw [exec_eq h.eip rfl, ← h.target rfl]
    rfl
  have hagree : AgreeOn s.mem (s.exec .movStoreEsp).mem s.regs.esp.toNat top := by
    rw [hmem]
    exact store_agreeOn _ hcell (by omega)
  have hregs : (s.exec .movStoreEsp).regs = { s.regs with eip := point base 7 } := by
    rw [exec_eq h.eip rfl]
    rfl
  have hcongr := h.congr hagree htop
  refine ⟨?_, hmem⟩
  have heq : s.exec .movStoreEsp =
      ⟨{ s.regs with eip := point base 7 }, (s.exec .movStoreEsp).mem⟩ := by
    rw [← hregs]
  rw [heq]
  exact { hcongr with
    bound := by omega
    eip := rfl
    target := by intro h6; omega
    source := by intro h8; omega }

/-- `mov eax, [esp + 28]`: EAX is the stack pointer to go on with. -/
theorem loadSource (h : Saving base lo top oldEsp newEsp c 7 s) (htop : top ≤ 4294967296) :
    Saving base lo top oldEsp newEsp c 8 (s.exec (.movEaxArg 28)) := by
  rw [exec_eq h.eip rfl]
  exact { h with
    bound := by omega
    eip := rfl
    target := by intro h6; omega
    source := fun _ => (h.args (by omega) htop).2 }

/-- `mov esp, eax`: on the stack of a call that was saved. -/
theorem moveEsp {lo' top' : Nat} {c' : Regs} (h : Saving base lo top oldEsp newEsp c 8 s)
    (hroom : lo' + 20 ≤ c'.esp.toNat) (hfits : c'.esp.toNat + 4 ≤ top')
    (hesp : newEsp.toNat + 20 = c'.esp.toNat)
    (hwords : Words s.mem (c'.esp.toNat - 20) (savedWords c')) :
    Restoring base lo' top' c' 9 (s.exec .movEspEax) := by
  have haddr : newEsp.toNat = c'.esp.toNat - 20 := by omega
  rw [exec_eq h.eip rfl]
  exact {
    start := Nat.le_refl 9
    bound := by omega
    eip := rfl
    room := hroom
    fits := hfits
    esp := by
      show s.regs.eax.toNat + 20 = _
      rw [h.source rfl]
      exact hesp
    words := by
      show Words s.mem s.regs.eax.toNat _
      rw [h.source rfl, haddr]
      exact hwords
    ebp := by intro hk; omega
    edi := by intro hk; omega
    esi := by intro hk; omega
    ebx := by intro hk; omega
    eflags := by intro hk; omega }

end Saving

namespace Restoring

/-- Only the stack from the stack pointer up matters. -/
theorem congr {m : ByteMemory} (h : Restoring base lo top c k s)
    (hm : AgreeOn s.mem m s.regs.esp.toNat top) (htop : top ≤ 4294967296) :
    Restoring base lo top c k { s with mem := m } := by
  have hesp := h.esp
  have hfits := h.fits
  have hbound := h.bound
  have hstart := h.start
  have hlen : 4 * ((savedWords c).drop (k - 9)).length = 4 * (6 - (k - 9)) := by
    rw [List.length_drop]
    rfl
  refine { h with words := h.words.congr ?_ (hm.mono (Nat.le_refl _) ?_) } <;> omega

/-- The word on top, and the words that are left once it is popped. -/
theorem popped (h : Restoring base lo top c k s) (htop : top ≤ 4294967296) :
    (savedWords c)[k - 9]? = some (s.arg 0) ∧
      (k < 14 → (s.regs.esp + 4).toNat + 20 = c.esp.toNat + 4 * (k + 1 - 9) ∧
        Words s.mem (s.regs.esp + 4).toNat ((savedWords c).drop (k + 1 - 9))) := by
  have hesp := h.esp
  have hfits := h.fits
  have hbound := h.bound
  have hstart := h.start
  have hlt : k - 9 < (savedWords c).length := by
    show k - 9 < 6
    omega
  have hwords := h.words
  rw [List.drop_eq_getElem_cons hlt] at hwords
  have h0 : (s.regs.esp + 0).toNat = s.regs.esp.toNat := by bv_omega
  refine ⟨?_, fun hk => ?_⟩
  · rw [List.getElem?_eq_getElem hlt, Cpu.arg, h0, hwords.1]
  · have h4 : (s.regs.esp + 4).toNat = s.regs.esp.toNat + 4 := by bv_omega
    have hnext : k + 1 - 9 = k - 9 + 1 := by omega
    rw [h4, hnext]
    exact ⟨by omega, hwords.2⟩

/-- The four pops and `popf`. -/
theorem pop (h : Restoring base lo top c k s) (hk : k < 14) (hi : swtch[k]? = some i)
    (htop : top ≤ 4294967296) :
    Restoring base lo top c (k + 1) (s.exec i) ∧ (s.exec i).mem = s.mem := by
  obtain ⟨htopWord, hrest⟩ := h.popped htop
  obtain ⟨hesp, hwords⟩ := hrest hk
  have hstart := h.start
  rw [exec_eq h.eip hi]
  have hcases : k = 9 ∨ k = 10 ∨ k = 11 ∨ k = 12 ∨ k = 13 := by omega
  rcases hcases with rfl | rfl | rfl | rfl | rfl <;> obtain rfl := Option.some.inj hi <;>
    have hpop := (Option.some.inj htopWord).symm <;>
    refine ⟨⟨by omega, by omega, rfl, h.room, h.fits, hesp, hwords, ?_, ?_, ?_, ?_, ?_⟩, rfl⟩
  -- one register is popped, those before it are kept, and those behind it are still to come
  case inl.refine_1 => exact fun _ => hpop
  case inr.inl.refine_2 => exact fun _ => hpop
  case inr.inr.inl.refine_3 => exact fun _ => hpop
  case inr.inr.inr.inl.refine_4 => exact fun _ => hpop
  case inr.inr.inr.inr.refine_5 => exact fun _ => hpop
  all_goals intro hle
  all_goals
    first
    | omega
    | exact h.ebp (by omega)
    | exact h.edi (by omega)
    | exact h.esi (by omega)
    | exact h.ebx (by omega)

/-- `ret`: the call is over, with the registers it was made with. -/
theorem ret (h : Restoring base lo top c 14 s) (htop : top ≤ 4294967296) :
    s.exec .ret =
      { regs := { s.regs with
          ebx := c.ebx, esi := c.esi, edi := c.edi, ebp := c.ebp, eflags := c.eflags,
          esp := c.esp + 4, eip := c.eip }
        mem := s.mem } := by
  have hbound := c.esp.isLt
  have hesp : s.regs.esp = c.esp := by
    have := h.esp
    exact BitVec.eq_of_toNat_eq (by omega)
  have heip : s.arg 0 = c.eip := (Option.some.inj (h.popped htop).1).symm
  have hexec : s.exec .ret =
      { s with regs := { s.regs with esp := s.regs.esp + 4, eip := s.arg 0 } } := rfl
  rw [hexec, heip, hesp, ← h.ebp (by omega), ← h.edi (by omega), ← h.esi (by omega),
    ← h.ebx (by omega), ← h.eflags (by omega)]

end Restoring

end Switching

end Pelikan

end SystemsProjects
