import Mathlib.Data.List.Perm.Subperm
import SystemsProjects.Lib.Bitmap
import SystemsProjects.Lib.Transition

/-!
# The interrupt controllers and `isr_handler` (`pic.c`, `isr.c`)

The two 8259 controllers as far as the kernel programs them, the sixteen lines of the devices, and
the handler that is called with the number of the interrupt.

- `outb`: a command word to a controller. `picRemap`: the ten of `pic_remap`; what was programmed
  before makes no difference (`picRemap_eq`).
- `Pics.acknowledge`: the number that the CPU gets, fully nested: a line waits until no line of
  its own or a higher priority is in service.
- `isrHandler`: what the handler does, by the number. It ends the interrupts of the timer and of
  the keyboard, and no others.
- `irq_runs`: the timer and the keyboard are served at once, whatever other lines were raised;
  and of these other interrupts at most six are ever delivered.

The invariant is that the timer and the keyboard are not in service between two interrupts, and
that whatever else is in service was delivered once. A line in service blocks those behind it,
and since the kernel ends no other interrupts, each of them has a higher priority than the one
before, and there are six lines (`PicsInv.length_le`).
-/

namespace SystemsProjects

namespace Pelikan

/-! ## The controllers -/

/-- Which word a controller expects at its second port. -/
inductive PicStage where
  /-- the interrupt mask -/
  | ready
  /-- the second, third or fourth initialisation command word -/
  | icw2 | icw3 | icw4
  deriving DecidableEq, Repr

/-- A controller: its programming, and the lines that are masked, requested and in service. -/
structure Pic where
  stage : PicStage
  single : Bool
  needsIcw4 : Bool
  offset : BitVec 8
  link : BitVec 8
  mode : BitVec 8
  imr : BitVec 8
  irr : BitVec 8
  isr : BitVec 8
  deriving DecidableEq, Repr

/-- The lowest line that is set. -/
def firstLine (lines : BitVec 8) : Option Nat := (List.range 8).find? fun n => lines.getLsbD n

/-- The lines with line `n` set. -/
def setLine (lines : BitVec 8) (n : Nat) : BitVec 8 := lines ||| bitMask n

/-- The lines with line `n` clear. -/
def clearLine (lines : BitVec 8) (n : Nat) : BitVec 8 := lines &&& ~~~bitMask n

namespace Pic

/-- The end of the interrupt with the highest priority. -/
def endOfInterrupt (p : Pic) : Pic :=
  match firstLine p.isr with
  | some n => { p with isr := clearLine p.isr n }
  | none => p

/-- A byte to the first port: the first initialisation command word, or the end of an interrupt.
The kernel sends no other commands. -/
def command (p : Pic) (b : BitVec 8) : Pic :=
  if b.getLsbD 4 then
    { p with
      stage := .icw2
      single := b.getLsbD 1
      needsIcw4 := b.getLsbD 0
      mode := 0
      imr := 0
      irr := 0
      isr := 0 }
  else if b = 0x20 then p.endOfInterrupt
  else p

/-- A byte to the second port. -/
def data (p : Pic) (b : BitVec 8) : Pic :=
  let last := if p.needsIcw4 then .icw4 else .ready
  match p.stage with
  | .ready => { p with imr := b }
  | .icw2 => { p with offset := b &&& 0xF8, stage := if p.single then last else .icw3 }
  | .icw3 => { p with link := b, stage := last }
  | .icw4 => { p with mode := b, stage := .ready }

/-- The line to serve next, of those in `lines`. -/
def request (p : Pic) (lines : BitVec 8) : Option Nat :=
  (List.range 8).find? fun n =>
    lines.getLsbD n && !p.imr.getLsbD n && (List.range (n + 1)).all fun m => !p.isr.getLsbD m

/-- The line is in service now, unless its interrupts end by themselves. -/
def serve (p : Pic) (n : Nat) : Pic :=
  { p with
    irr := clearLine p.irr n
    isr := if p.mode.getLsbD 1 then p.isr else setLine p.isr n }

end Pic

/-- The two controllers; the second one is connected to line 2 of the first. -/
structure Pics where
  master : Pic
  slave : Pic
  deriving DecidableEq, Repr

/-- `outb`, on the ports of the controllers. -/
def outb (s : Pics) (port : BitVec 16) (b : BitVec 8) : Pics :=
  if port = 0x20 then { s with master := s.master.command b }
  else if port = 0x21 then { s with master := s.master.data b }
  else if port = 0xA0 then { s with slave := s.slave.command b }
  else if port = 0xA1 then { s with slave := s.slave.data b }
  else s

/-- `pic_remap` -/
def picRemap (s : Pics) : Pics :=
  let s := outb s 0x20 0x11
  let s := outb s 0xA0 0x11
  let s := outb s 0x21 0x20
  let s := outb s 0xA1 0x28
  let s := outb s 0x21 0x04
  let s := outb s 0xA1 0x02
  let s := outb s 0x21 0x01
  let s := outb s 0xA1 0x01
  let s := outb s 0x21 0x00
  outb s 0xA1 0x00

namespace Pics

/-- The requests at the first controller, with that of the second one. -/
def masterLines (s : Pics) : BitVec 8 :=
  if (s.slave.request s.slave.irr).isSome then setLine s.master.irr 2 else s.master.irr

/-- The number that the CPU is given, and the controllers behind it. -/
def acknowledge (s : Pics) : Option (BitVec 8 × Pics) :=
  match s.master.request s.masterLines with
  | none => none
  | some n =>
    let master := s.master.serve n
    if s.master.link.getLsbD n then
      match s.slave.request s.slave.irr with
      | some k => some (s.slave.offset + BitVec.ofNat 8 k, { master, slave := s.slave.serve k })
      | none => some (s.slave.offset + 7, { s with master })
    else some (s.master.offset + BitVec.ofNat 8 n, { s with master })

/-- A device raises its line. Line 2 belongs to the second controller. -/
def raise (s : Pics) (line : Fin 16) : Pics :=
  if line.val = 2 then s
  else if line.val < 8 then
    { s with master := { s.master with irr := setLine s.master.irr line.val } }
  else { s with slave := { s.slave with irr := setLine s.slave.irr (line.val - 8) } }

end Pics

/-! ## The handler -/

/-- What `isr_handler` reads of `struct interrupt_frame`. -/
structure InterruptFrame where
  irNum : BitVec 32
  errCode : BitVec 32
  eip : BitVec 32

/-- What the handler does, one call after the other. -/
inductive HandlerAct where
  /-- `ticks++` -/
  | tick
  | outb (port : BitVec 16) (b : BitVec 8)
  | yield
  | keyboardHandler
  | print (text : List Char)
  /-- `itoa(num, buf); print(buf)` -/
  | printNumber (num : BitVec 32)
  /-- `while(1) asm volatile("hlt")` -/
  | halt
  deriving DecidableEq

/-- `exception_names` -/
def exceptionNames : List String :=
  ["Divide by zero", "Debug", "NMI", "Breakpoint", "Overflow", "Bound range", "Invalid opcode",
   "Device not available", "Double fault", "Coprocessor overrun", "Invalid TSS",
   "Segment not present", "Stack-segment fault", "General protection", "Page fault"]

/-- `print("name: "); itoa(num, buf); print(buf); print("\n")` -/
def printField (name : String) (num : BitVec 32) : List HandlerAct :=
  [.print (name ++ ": ").toList, .printNumber num, .print ['\n']]

/-- `isr_handler`, with the content of CR2. -/
def isrHandler (frame : InterruptFrame) (cr2 : BitVec 32) : List HandlerAct :=
  if frame.irNum = 32 then [.tick, .outb 0x20 0x20, .yield]
  else if frame.irNum = 33 then [.keyboardHandler, .outb 0x20 0x20]
  else if frame.irNum = 14 then
    .print "PAGE FAULT\n".toList :: printField "addr" cr2 ++ printField "eip" frame.eip ++
      printField "err" frame.errCode ++ [.halt]
  else if frame.irNum < 32 then
    .print "EXCEPTION: ".toList ::
      .print ((exceptionNames[frame.irNum.toNat]?).getD "reserved/unknown").toList ::
      .print ['\n'] :: printField "vec" frame.irNum ++ printField "eip" frame.eip ++
      printField "err" frame.errCode ++ [.halt]
  else []

/-! ## Runs -/

/-- The controllers and the handler. `delivered` are the numbers of the interrupts so far. -/
structure Irq where
  pics : Pics
  ticks : BitVec 32
  halted : Bool
  delivered : List Nat

/-- A call of the handler, as far as controllers, `ticks` and `hlt` are concerned. -/
def HandlerAct.perform (s : Irq) : HandlerAct → Irq
  | .tick => { s with ticks := s.ticks + 1 }
  | .outb port b => { s with pics := Pelikan.outb s.pics port b }
  | .halt => { s with halted := true }
  | .yield | .keyboardHandler | .print _ | .printNumber _ => s

/-- A device raises its line, or the CPU takes an interrupt. -/
inductive IrqAction where
  | raise (line : Fin 16)
  /-- the CPU takes an interrupt; `eip`, `err_code` and CR2 may be anything -/
  | interrupt (eip errCode cr2 : BitVec 32)

/-- One step. The handler runs with interrupts off, up to its last `outb` at least. -/
def irqStep (s : Irq) : IrqAction → Option Irq
  | .raise line => some { s with pics := s.pics.raise line }
  | .interrupt eip errCode cr2 =>
    if s.halted then none
    else
      match s.pics.acknowledge with
      | none => none
      | some (vector, pics) =>
        some ((isrHandler ⟨vector.setWidth 32, errCode, eip⟩ cr2).foldl HandlerAct.perform
          { s with pics, delivered := s.delivered ++ [vector.toNat] })

/-- `pic_remap` has run, whatever was programmed before. -/
structure IrqStart (s : Irq) : Prop where
  pics : ∃ before, s.pics = picRemap before
  ticks_eq : s.ticks = 0
  halted_eq : s.halted = false
  delivered_eq : s.delivered = []

/-- The controllers and the handler behind `pic_remap`. -/
def irqSystem : TransitionSystem Irq IrqAction := .ofFunction IrqStart irqStep

/-! ## What `pic_remap` leaves -/

/-- A controller that is programmed for the numbers from `offset` on. -/
def programmed (offset link : BitVec 8) : Pic where
  stage := .ready
  single := false
  needsIcw4 := true
  offset := offset
  link := link
  mode := 1
  imr := 0
  irr := 0
  isr := 0

/-- `pic_remap` makes up for everything that was programmed before, even for an initialisation
that was not finished. -/
theorem picRemap_eq (s : Pics) : picRemap s = ⟨programmed 0x20 0x04, programmed 0x28 0x02⟩ := by
  rfl

/-! ## Lines -/

section Lines

variable {r : BitVec 8} {n m : Nat}

theorem getLsbD_setLine (hn : n < 8) :
    (setLine r n).getLsbD m = (r.getLsbD m || decide (m = n)) := by
  rw [setLine, BitVec.getLsbD_or, getLsbD_bitMask, Nat.mod_eq_of_lt hn]

theorem getLsbD_clearLine (hn : n < 8) (hm : m < 8) :
    (clearLine r n).getLsbD m = (r.getLsbD m && !decide (m = n)) := by
  rw [clearLine, BitVec.getLsbD_and, BitVec.getLsbD_not, getLsbD_bitMask, Nat.mod_eq_of_lt hn]
  simp [hm]

/-- Serving a line and ending its interrupt. -/
theorem clearLine_setLine (hn : n < 8) (hfree : r.getLsbD n = false) :
    clearLine (setLine r n) n = r := by
  apply BitVec.eq_of_getLsbD_eq
  intro m hm
  rw [getLsbD_clearLine hn hm, getLsbD_setLine hn]
  by_cases heq : m = n
  · simp [heq, hfree]
  · simp [heq]

/-- The first line is the one that is set with none below. -/
theorem firstLine_eq (hn : n < 8) (hset : r.getLsbD n = true)
    (hbelow : ∀ m < n, r.getLsbD m = false) : firstLine r = some n := by
  rw [firstLine, List.find?_range_eq_some]
  exact ⟨hset, List.mem_range.mpr hn, fun m hm => by simp [hbelow m hm]⟩

/-- Without special mode the EOI ends the interrupt that is served, when nothing of higher priority
was. -/
theorem endOfInterrupt_serve {p : Pic} (hmode : p.mode.getLsbD 1 = false) (hn : n < 8)
    (hfree : ∀ m ≤ n, p.isr.getLsbD m = false) :
    (p.serve n).endOfInterrupt = { p with irr := clearLine p.irr n } := by
  have hisr : (p.serve n).isr = setLine p.isr n := by
    rw [Pic.serve, hmode]
    rfl
  have hfirst : firstLine (p.serve n).isr = some n := by
    rw [hisr]
    refine firstLine_eq hn ?_ fun m hm => ?_
    · rw [getLsbD_setLine hn]
      simp
    · rw [getLsbD_setLine hn, hfree m (Nat.le_of_lt hm)]
      simp [Nat.ne_of_lt hm]
  rw [Pic.endOfInterrupt, hfirst]
  dsimp only
  rw [hisr, clearLine_setLine hn (hfree n (Nat.le_refl n))]
  rfl

/-- What a request says about the lines. -/
theorem request_eq_some {p : Pic} {lines : BitVec 8} (h : p.request lines = some n) :
    n < 8 ∧ lines.getLsbD n = true ∧ ∀ m ≤ n, p.isr.getLsbD m = false := by
  rw [Pic.request, List.find?_range_eq_some] at h
  obtain ⟨hn, hmem, -⟩ := h
  simp only [Bool.and_eq_true, List.all_eq_true, List.mem_range, Bool.not_eq_true',
    Nat.lt_succ_iff] at hn
  exact ⟨List.mem_range.mp hmem, hn.1.1, hn.2⟩

/-- An unmasked line is requested when none in front of it is, served or waiting. -/
theorem request_of_lines {p : Pic} {lines : BitVec 8} (hn : n < 8) (hline : lines.getLsbD n = true)
    (hmask : p.imr = 0) (hfree : ∀ m ≤ n, p.isr.getLsbD m = false)
    (hbelow : ∀ m < n, lines.getLsbD m = false) : p.request lines = some n := by
  rw [Pic.request, List.find?_range_eq_some]
  refine ⟨?_, List.mem_range.mpr hn, fun m hm => by simp [hbelow m hm]⟩
  simp only [Bool.and_eq_true, List.all_eq_true, List.mem_range, Bool.not_eq_true',
    Nat.lt_succ_iff]
  exact ⟨⟨hline, by rw [hmask]; simp⟩, hfree⟩

end Lines

/-! ## The invariant -/

/-- The programming is that of `pic_remap`. -/
structure Pic.Programmed (p : Pic) (offset link : BitVec 8) : Prop where
  stage_eq : p.stage = .ready
  offset_eq : p.offset = offset
  link_eq : p.link = link
  mode_eq : p.mode = 1
  imr_eq : p.imr = 0

/-- The line of the first controller that an interrupt has come by. -/
def masterLine (v : Nat) : Nat := if v < 40 then v - 32 else 2

/-- The controllers are programmed as `pic_remap` does it, and `others` are the interrupts other
than those of the timer and the keyboard so far: line `f` is the first in service. -/
structure PicsInv (s : Pics) (others : List Nat) : Prop where
  master : s.master.Programmed 0x20 0x04
  slave : s.slave.Programmed 0x28 0x02
  served : ∃ f, 2 ≤ f ∧ (∀ m < f, s.master.isr.getLsbD m = false) ∧
    (f < 8 → s.master.isr.getLsbD f = true) ∧ ∀ v ∈ others, f ≤ masterLine v
  lines_lt : ∀ v ∈ others, masterLine v < 8
  order : others.Pairwise fun v w => masterLine w < masterLine v

section Inv

variable {s s' : Pics} {others : List Nat} {v : BitVec 8}

/-- `pic_remap` leaves both controllers programmed and idle, whatever they were before. -/
theorem PicsInv.remapped (s : Pics) : PicsInv (picRemap s) [] := by
  rw [picRemap_eq]
  refine ⟨⟨rfl, rfl, rfl, rfl, rfl⟩, ⟨rfl, rfl, rfl, rfl, rfl⟩, ⟨8, by decide, fun m _ => ?_,
    fun h => absurd h (by decide), by simp⟩, by simp, .nil⟩
  show (0#8).getLsbD m = false
  simp

/-- Lines that are requested or in service are no part of the programming. -/
theorem Pic.Programmed.lines {p : Pic} {offset link : BitVec 8} (h : p.Programmed offset link)
    (irr isr : BitVec 8) : ({ p with irr, isr } : Pic).Programmed offset link :=
  ⟨h.stage_eq, h.offset_eq, h.link_eq, h.mode_eq, h.imr_eq⟩

/-- A programmed controller clears the request it serves: the lines are edges. -/
theorem Pic.Programmed.serve_eq {p : Pic} {offset link : BitVec 8} (h : p.Programmed offset link)
    (n : Nat) : p.serve n = { p with irr := clearLine p.irr n, isr := setLine p.isr n } := by
  have hmode : p.mode.getLsbD 1 = false := by
    rw [h.mode_eq]
    decide
  rw [Pic.serve, hmode]
  rfl

theorem PicsInv.raise (h : PicsInv s others) (line : Fin 16) : PicsInv (s.raise line) others := by
  rw [Pics.raise]
  split
  · exact h
  · split
    · exact ⟨h.master.lines _ _, h.slave, h.served, h.lines_lt, h.order⟩
    · exact ⟨h.master, h.slave.lines _ _, h.served, h.lines_lt, h.order⟩

/-- A line that is served has a higher priority than what is in service already. -/
theorem PicsInv.serve (h : PicsInv s others) {n w : Nat} (hn : n < 8) (htwo : 2 ≤ n)
    (hfree : ∀ m ≤ n, s.master.isr.getLsbD m = false) (hw : masterLine w = n) {slave : Pic}
    (hslave : slave.Programmed 0x28 0x02) :
    PicsInv { master := s.master.serve n, slave } (others ++ [w]) := by
  obtain ⟨f, -, -, hfirst, hlines⟩ := h.served
  -- the line is in front of all that are in service
  have hlt : n < f := by
    by_contra hge
    have hset := hfirst (by omega)
    rw [hfree f (by omega)] at hset
    cases hset
  have hlower : ∀ v ∈ others, n < masterLine v := fun v hv => Nat.lt_of_lt_of_le hlt (hlines v hv)
  rw [h.master.serve_eq]
  refine ⟨h.master.lines _ _, hslave, ⟨n, htwo, fun m hm => ?_, fun _ => ?_, fun v hv => ?_⟩,
    fun v hv => ?_, ?_⟩
  · dsimp only
    rw [getLsbD_setLine hn, hfree m (Nat.le_of_lt hm)]
    simp [Nat.ne_of_lt hm]
  · dsimp only
    rw [getLsbD_setLine hn]
    simp
  · rcases List.mem_append.mp hv with hv | hv
    · exact Nat.le_of_lt (hlower v hv)
    · rw [List.mem_singleton.mp hv, hw]
  · rcases List.mem_append.mp hv with hv | hv
    · exact h.lines_lt v hv
    · rwa [List.mem_singleton.mp hv, hw]
  · rw [List.pairwise_append]
    refine ⟨h.order, List.pairwise_singleton _ _, fun v hv x hx => ?_⟩
    rw [List.mem_singleton.mp hx, hw]
    exact hlower v hv

/-- The timer and the keyboard: the handler ends the interrupt. -/
theorem PicsInv.ended (h : PicsInv s others) {n : Nat} (hn : n < 2) :
    PicsInv (outb { s with master := s.master.serve n } 0x20 0x20) others := by
  obtain ⟨f, htwo, hfree, hfirst, hlines⟩ := h.served
  have hmode : s.master.mode.getLsbD 1 = false := by
    rw [h.master.mode_eq]
    decide
  have hend : (s.master.serve n).endOfInterrupt =
      { s.master with irr := clearLine s.master.irr n } :=
    endOfInterrupt_serve hmode (by omega) fun m hm => hfree m (by omega)
  have hout : outb { s with master := s.master.serve n } 0x20 0x20 =
      { s with master := (s.master.serve n).endOfInterrupt } := rfl
  rw [hout, hend]
  exact ⟨h.master.lines _ _, h.slave, ⟨f, htwo, hfree, hfirst, hlines⟩, h.lines_lt, h.order⟩

/-- The number of a line, when the numbers begin at a multiple of eight. -/
theorem toNat_offset_add {offset : BitVec 8} {n : Nat} (hn : n < 8) (ho : offset.toNat ≤ 40) :
    (offset + BitVec.ofNat 8 n).toNat = offset.toNat + n := by
  rw [BitVec.toNat_add, BitVec.toNat_ofNat]
  omega

/-- What the CPU is given, and what becomes of the controllers when the handler has returned. -/
theorem PicsInv.acknowledge (h : PicsInv s others) (hack : s.acknowledge = some (v, s')) :
    ((v = 32 ∨ v = 33) ∧ PicsInv (outb s' 0x20 0x20) others) ∨
      (34 ≤ v.toNat ∧ v.toNat < 48 ∧ PicsInv s' (others ++ [v.toNat])) := by
  rw [Pics.acknowledge] at hack
  cases hrequest : s.master.request s.masterLines with
  | none =>
    rw [hrequest] at hack
    cases hack
  | some n =>
    obtain ⟨hn, -, hfree⟩ := request_eq_some hrequest
    -- the slave hangs on line 2 only
    have hlink : s.master.link.getLsbD n = decide (n = 2) := by
      have hall : ∀ n < 8, (0x04#8).getLsbD n = decide (n = 2) := by decide
      rw [h.master.link_eq]
      exact hall n hn
    simp only [hrequest, hlink, h.master.offset_eq, h.slave.offset_eq] at hack
    by_cases htwo : n = 2
    · -- the second controller, or a request that it has taken back
      rw [if_pos (by simpa using htwo)] at hack
      right
      cases hslave : s.slave.request s.slave.irr with
      | some k =>
        -- the second controller gives its own vector
        obtain ⟨hk, -, -⟩ := request_eq_some hslave
        simp only [hslave] at hack
        obtain ⟨rfl, rfl⟩ := Prod.mk.inj (Option.some.inj hack)
        have hvector : (0x28 + BitVec.ofNat 8 k : BitVec 8).toNat = 40 + k :=
          toNat_offset_add hk (by decide)
        have hline : masterLine (40 + k) = n := by
          rw [masterLine, if_neg (by omega), htwo]
        rw [hvector]
        refine ⟨by omega, by omega, h.serve hn (by omega) hfree hline ?_⟩
        rw [h.slave.serve_eq]
        exact h.slave.lines _ _
      | none =>
        simp only [hslave] at hack
        obtain ⟨rfl, rfl⟩ := Prod.mk.inj (Option.some.inj hack)
        have hline : masterLine (0x28 + 7 : BitVec 8).toNat = n := by
          rw [htwo]
          rfl
        exact ⟨by decide, by decide, h.serve hn (by omega) hfree hline h.slave⟩
    · rw [if_neg (by simpa using htwo)] at hack
      obtain ⟨rfl, rfl⟩ := Prod.mk.inj (Option.some.inj hack)
      have hvector : (0x20 + BitVec.ofNat 8 n : BitVec 8).toNat = 32 + n :=
        toNat_offset_add hn (by decide)
      -- the timer and the keyboard are ended by their handlers, the others are not
      by_cases hsmall : n < 2
      · refine .inl ⟨?_, h.ended hsmall⟩
        have hcases : n = 0 ∨ n = 1 := by omega
        rcases hcases with rfl | rfl
        · exact .inl rfl
        · exact .inr rfl
      · have hline : masterLine (32 + n) = n := by
          rw [masterLine, if_pos (by omega)]
          omega
        rw [hvector]
        exact .inr ⟨by omega, by omega, h.serve hn (by omega) hfree hline h.slave⟩

/-- A pending interrupt of the timer is taken at once, and one of the keyboard when the timer has
none. -/
theorem PicsInv.acknowledge_first (h : PicsInv s others) {n : Nat} (hn : n < 2)
    (hline : s.master.irr.getLsbD n = true) (hbelow : ∀ m < n, s.master.irr.getLsbD m = false) :
    s.acknowledge =
      some (0x20 + BitVec.ofNat 8 n, { s with master := s.master.serve n }) := by
  obtain ⟨f, htwo, hfree, -, -⟩ := h.served
  have hlines : ∀ m < 2, s.masterLines.getLsbD m = s.master.irr.getLsbD m := by
    intro m hm
    rw [Pics.masterLines]
    split
    · rw [getLsbD_setLine (by decide)]
      simp [show m ≠ 2 by omega]
    · rfl
  have hrequest : s.master.request s.masterLines = some n :=
    request_of_lines (by omega) (by rw [hlines n hn]; exact hline) h.master.imr_eq
      (fun m hm => hfree m (by omega)) fun m hm => by
        rw [hlines m (by omega)]
        exact hbelow m hm
  have hlink : s.master.link.getLsbD n = false := by
    have hall : ∀ n < 2, (0x04#8).getLsbD n = false := by decide
    rw [h.master.link_eq]
    exact hall n hn
  simp only [Pics.acknowledge, hrequest, hlink, h.master.offset_eq, Bool.false_eq_true, if_false]

/-- There are six lines for them. -/
theorem PicsInv.length_le (h : PicsInv s others) : others.length ≤ 6 := by
  obtain ⟨f, htwo, -, -, hlines⟩ := h.served
  have hnodup : (others.map masterLine).Nodup := by
    rw [List.Nodup, List.pairwise_map]
    exact h.order.imp fun hlt => (Nat.ne_of_lt hlt).symm
  have hsub : others.map masterLine ⊆ List.range' 2 6 := by
    intro n hn
    obtain ⟨v, hv, rfl⟩ := List.mem_map.mp hn
    have hlo := hlines v hv
    have hhi := h.lines_lt v hv
    rw [List.mem_range'_1]
    omega
  have hlen := (hnodup.subperm hsub).length_le
  simpa using hlen

end Inv

/-! ## Runs of the kernel -/

/-- The interrupts of the other devices. -/
def Irq.others (s : Irq) : List Nat := s.delivered.filter (34 ≤ ·)

/-- The controllers are in order, the machine has not halted, and each interrupt of the timer was
counted. -/
structure IrqInv (s : Irq) : Prop where
  pics : PicsInv s.pics s.others
  running : s.halted = false
  numbers : ∀ v ∈ s.delivered, 32 ≤ v ∧ v < 48
  ticks_eq : s.ticks = BitVec.ofNat 32 (s.delivered.count 32)

section Runs

variable {s s' : Irq}

/-- The kernel starts with the controllers as the firmware leaves them. -/
theorem IrqInv.start (h : IrqStart s) : IrqInv s := by
  obtain ⟨before, hpics⟩ := h.pics
  refine ⟨?_, h.halted_eq, ?_, ?_⟩
  · rw [hpics, Irq.others, h.delivered_eq]
    exact .remapped before
  · rw [h.delivered_eq]
    exact List.forall_mem_nil _
  · rw [h.ticks_eq, h.delivered_eq]
    rfl

theorem setWidth_eq_iff {v : BitVec 8} {k : Nat} (hk : k < 256) :
    v.setWidth 32 = BitVec.ofNat 32 k ↔ v = BitVec.ofNat 8 k := by
  constructor
  · intro h
    have hnat := congrArg BitVec.toNat h
    rw [BitVec.toNat_setWidth, BitVec.toNat_ofNat] at hnat
    apply BitVec.eq_of_toNat_eq
    rw [BitVec.toNat_ofNat]
    omega
  · rintro rfl
    apply BitVec.eq_of_toNat_eq
    rw [BitVec.toNat_setWidth, BitVec.toNat_ofNat, BitVec.toNat_ofNat]
    omega

/-- The handler does nothing about the interrupts of other devices. -/
theorem isrHandler_other {v : BitVec 8} (hv : 34 ≤ v.toNat) (errCode eip cr2 : BitVec 32) :
    isrHandler ⟨v.setWidth 32, errCode, eip⟩ cr2 = [] := by
  have hne : ∀ k : Nat, k < 34 → v.setWidth 32 ≠ BitVec.ofNat 32 k := by
    intro k hk heq
    have hnat := congrArg BitVec.toNat ((setWidth_eq_iff (by omega)).mp heq)
    rw [BitVec.toNat_ofNat] at hnat
    omega
  have hlt : ¬ v.setWidth 32 < (32 : BitVec 32) := by
    rw [BitVec.lt_def, BitVec.toNat_setWidth]
    show ¬ v.toNat % 2 ^ 32 < 32
    omega
  have htimer : v.setWidth 32 ≠ (32 : BitVec 32) := hne 32 (by decide)
  have hkeyboard : v.setWidth 32 ≠ (33 : BitVec 32) := hne 33 (by decide)
  have hpage : v.setWidth 32 ≠ (14 : BitVec 32) := hne 14 (by decide)
  simp only [isrHandler, if_neg htimer, if_neg hkeyboard, if_neg hpage, if_neg hlt]

/-- The next interrupt is taken into the lists. -/
theorem Irq.others_append (s : Irq) (v : Nat) :
    (s.delivered ++ [v]).filter (34 ≤ ·) = s.others ++ if 34 ≤ v then [v] else [] := by
  rw [List.filter_append, Irq.others]
  by_cases hv : 34 ≤ v
  · simp [hv]
  · simp [hv]

theorem count_append_one {l : List Nat} {v k : Nat} :
    (l ++ [v]).count k = l.count k + if v = k then 1 else 0 := by
  simp [List.count_append, List.count_cons]

/-- The state after an interrupt that left the machine running. -/
theorem IrqInv.delivered (h : IrqInv s) {pics : Pics} {ticks : BitVec 32} {v : Nat}
    (hlo : 32 ≤ v) (hhi : v < 48)
    (hpics : PicsInv pics (s.others ++ if 34 ≤ v then [v] else []))
    (hticks : ticks = s.ticks + if v = 32 then 1 else 0) :
    IrqInv { pics, ticks, halted := false, delivered := s.delivered ++ [v] } := by
  refine ⟨?_, rfl, fun w hw => ?_, ?_⟩
  · rwa [Irq.others, s.others_append]
  · rcases List.mem_append.mp hw with hw | hw
    · exact h.numbers w hw
    · obtain rfl := List.mem_singleton.mp hw
      exact ⟨hlo, hhi⟩
  · dsimp only
    rw [hticks, h.ticks_eq, count_append_one]
    split <;> simp [BitVec.ofNat_add]

/-- A call of `isr_handler`, with its EOIs, keeps the invariant. -/
theorem IrqInv.interrupt (h : IrqInv s) {eip errCode cr2 : BitVec 32}
    (hstep : irqStep s (.interrupt eip errCode cr2) = some s') : IrqInv s' := by
  rw [irqStep, h.running] at hstep
  cases hack : s.pics.acknowledge with
  | none =>
    rw [hack] at hstep
    cases hstep
  | some x =>
    obtain ⟨v, pics⟩ := x
    rw [hack] at hstep
    obtain rfl := Option.some.inj hstep
    rcases h.pics.acknowledge hack with ⟨rfl | rfl, hinv⟩ | ⟨hlo, hhi, hinv⟩
    · have hpics : PicsInv (outb pics 0x20 0x20) (s.others ++ []) := by rwa [List.append_nil]
      exact h.delivered (by decide) (by decide) hpics rfl
    · have hpics : PicsInv (outb pics 0x20 0x20) (s.others ++ []) := by rwa [List.append_nil]
      exact h.delivered (by decide) (by decide) hpics (BitVec.add_zero _).symm
    · simp only [isrHandler_other hlo, List.foldl_nil]
      refine h.delivered (by omega) hhi ?_ ?_
      · rwa [if_pos hlo]
      · rw [if_neg (by omega)]
        exact (BitVec.add_zero _).symm

theorem IrqInv.step (h : IrqInv s) {a : IrqAction} (hstep : irqStep s a = some s') :
    IrqInv s' := by
  cases a with
  | raise line =>
    obtain rfl := Option.some.inj hstep
    exact ⟨h.pics.raise line, h.running, h.numbers, h.ticks_eq⟩
  | interrupt eip errCode cr2 => exact h.interrupt hstep

theorem IrqInv.reachable (h : irqSystem.Reachable s) : IrqInv s :=
  h.invariant (fun _ hinit => .start hinit) fun _ _ _ _ hinv hstep => hinv.step hstep

/-- The interrupt of line 0 or 1 comes first, and its request is gone then. -/
theorem IrqInv.served_first (h : IrqInv s) {n : Nat} (hn : n < 2)
    (hline : s.pics.master.irr.getLsbD n = true)
    (hbelow : ∀ m < n, s.pics.master.irr.getLsbD m = false) (eip errCode cr2 : BitVec 32) :
    ∃ s', irqStep s (.interrupt eip errCode cr2) = some s' ∧
      s'.delivered = s.delivered ++ [32 + n] ∧
      s'.pics = { s.pics with
        master := { s.pics.master with irr := clearLine s.pics.master.irr n } } := by
  obtain ⟨f, htwo, hfree, -, -⟩ := h.pics.served
  have hmode : s.pics.master.mode.getLsbD 1 = false := by
    rw [h.pics.master.mode_eq]
    decide
  have hend := endOfInterrupt_serve hmode (show n < 8 by omega) fun m hm => hfree m (by omega)
  have hack := h.pics.acknowledge_first hn hline hbelow
  rw [irqStep, h.running, hack]
  have hcases : n = 0 ∨ n = 1 := by omega
  rcases hcases with rfl | rfl
  · refine ⟨_, rfl, rfl, ?_⟩
    exact congrArg (fun p => { s.pics with master := p }) hend
  · refine ⟨_, rfl, rfl, ?_⟩
    exact congrArg (fun p => { s.pics with master := p }) hend

/-- In every run from `pic_remap` on, the CPU gets no other numbers than 32 to 47, and never halts
for one of them; `ticks` counts the interrupts of the timer. These are served first of all, and
those of the keyboard next, whatever has happened on the other lines. The interrupts of the other
lines are never ended: each of them is on a line of a higher priority than those before it, so
there are at most six. -/
theorem irq_runs (h : irqSystem.Reachable s) :
    s.halted = false ∧ (∀ v ∈ s.delivered, 32 ≤ v ∧ v < 48) ∧
      s.ticks = BitVec.ofNat 32 (s.delivered.count 32) ∧
      s.others.Pairwise (fun v w => masterLine w < masterLine v) ∧ s.others.length ≤ 6 ∧
      ∀ n < 2, s.pics.master.irr.getLsbD n = true →
        (∀ m < n, s.pics.master.irr.getLsbD m = false) → ∀ eip errCode cr2 : BitVec 32,
          ∃ s', irqStep s (.interrupt eip errCode cr2) = some s' ∧
            s'.delivered = s.delivered ++ [32 + n] ∧
            s'.pics = { s.pics with
              master := { s.pics.master with irr := clearLine s.pics.master.irr n } } := by
  have hinv := IrqInv.reachable h
  exact ⟨hinv.running, hinv.numbers, hinv.ticks_eq, hinv.pics.order, hinv.pics.length_le,
    fun n hn hline hbelow => hinv.served_first hn hline hbelow⟩

/-- The mouse and the disk raise their lines, and the timer and the keyboard twice. -/
def busyLines : List IrqAction :=
  [.raise 12, .interrupt 0 0 0, .raise 14, .raise 1, .raise 0, .interrupt 0 0 0,
    .interrupt 0 0 0, .raise 0, .interrupt 0 0 0]

/-- A machine that the firmware has left with other numbers. -/
def firmwareIrq : Irq where
  pics := picRemap ⟨programmed 0x08 0x04, programmed 0x70 0x02⟩
  ticks := 0
  halted := false
  delivered := []

theorem irq_runs_busyLines :
    ∃ s, TransitionSystem.runActions irqStep busyLines firmwareIrq = some s ∧
      s.delivered = [44, 32, 33, 32] ∧ s.others.length ≤ 6 := by
  have hstart : irqSystem.Reachable firmwareIrq := .init ⟨⟨_, rfl⟩, rfl, rfl, rfl⟩
  obtain ⟨s, hrun, hdelivered⟩ :
      ∃ s, TransitionSystem.runActions irqStep busyLines firmwareIrq = some s ∧
        s.delivered = [44, 32, 33, 32] := ⟨_, rfl, rfl⟩
  have hreach := TransitionSystem.reachable_of_runActions hstart hrun
  exact ⟨s, hrun, hdelivered, (irq_runs hreach).2.2.2.2.1⟩

end Runs

end Pelikan

end SystemsProjects
