import SystemsProjects.Pelikan.Preemption

/-!
# What holds while tasks are switched

An invariant of the runs in which the timer comes only before certain instructions of `swtch`.
They are given by `At`: none of them is one of the five that run on the new stack with the old
flags.

- `Parked`: a thread that is off the CPU. The stack pointer it has saved leads to the words of its
  call, and the frame of the interrupt it is in lies above them.
- `Phase`: what the running thread is doing, and where its registers are then.
- `Invariant`: every thread off the CPU is parked, and the running one is in its phase.
- `Invariant.code`, `Invariant.create`, `Invariant.enter`: C code keeps it, and so do
  `create_task` and the calls of `swtch`.

There is one stack for each thread and they are apart, so a step of the running thread can only
disturb what is parked by writing to another stack, and nothing does (`Invariant.write`). The
work is in the points inside of `swtch`, where the CPU is on one stack and `current_task` may be
the task of another.
-/

namespace SystemsProjects

namespace Pelikan

namespace Switching

open ByteMemory

section

variable {T : Type} (L : Layout T) (At : Nat → Prop)

/-- Timer interrupts come outside of `swtch`, or before its instruction `k` with `At k`. -/
def TimersAt (s : State T) (a : Action T) : Prop :=
  a = .timer → ∀ k < 15, s.cpu.regs.eip = point L.swtch k → At k

/-- What a thread was doing when it was interrupted, with the registers it had then. -/
def Interrupted (X : Option T) (a : Act T) (s : Cpu) : Prop :=
  match a with
  | .code => True
  | .saving c dest =>
    dest = none ∧ ∃ k newEsp, At k ∧ newEsp.toNat + 20 = L.scheduleEsp ∧
      Saving L.swtch (L.lo X) (L.hi X) (BitVec.ofNat 32 (L.cell X)) newEsp c k s
  | .restoring c => At 14 ∧ Restoring L.swtch (L.lo X) (L.hi X) c 14 s
  | .returning => False

/-- The frame of an interrupt on the stack of the thread. -/
structure Framed (m : ByteMemory) (X : Option T) (f : Interrupt T) : Prop where
  task : X ≠ none
  room : L.lo X + 60 ≤ f.1.esp.toNat
  le_hi : f.1.esp.toNat ≤ L.hi X
  words : Words m (f.1.esp.toNat - 52) (interruptFrame L.cs f.1)
  act : Interrupted L At X f.2 ⟨f.1, m⟩

/-- The interrupts a thread is in: at most one, for interrupts are off in an interrupt. -/
def Outer (m : ByteMemory) (X : Option T) : List (Interrupt T) → Prop
  | [] => True
  | [f] => Framed L At m X f
  | _ :: _ :: _ => False

/-- The thread is off the CPU: what it has saved is on its stack. -/
structure Parked (m : ByteMemory) (X : Option T) (p : Suspended T) : Prop where
  esp : (load m (L.cell X)).toNat + 20 = p.call.esp.toNat
  room : L.lo X + 20 ≤ p.call.esp.toNat
  fits : p.call.esp.toNat + 4 ≤ limit L X p.outer
  words : Words m (p.call.esp.toNat - 20) (savedWords p.call)
  outer : Outer L At m X p.outer
  quiet : X = none ∨ p.outer ≠ [] → p.call.interruptible = false
  schedule : X = none → p.call.esp.toNat = L.scheduleEsp

/-- What the running thread is doing. -/
inductive Phase (s : State T) : Act T → Prop where
  | code (hlo : L.lo s.on ≤ s.cpu.regs.esp.toNat)
      (hlimit : s.cpu.regs.esp.toNat ≤ limit L s.on s.outer)
      (hquiet : s.Quiet → s.cpu.regs.interruptible = false) : Phase s .code
  | saving {c : Regs} {dest : Option T} {k : Nat} {newEsp : BitVec 32}
      (hat : Saving L.swtch (L.lo s.on) (limit L s.on s.outer) (BitVec.ofNat 32 (L.cell s.on))
        newEsp c k s.cpu)
      (hne : dest ≠ s.on) (halive : s.Alive dest)
      (hnew : newEsp.toNat + 20 = (s.saved dest).call.esp.toNat)
      (hback : s.on ≠ none → dest = none)
      (hnext : ∀ t, dest = some t → s.currentTask = some t)
      (hschedule : s.on = none → c.esp.toNat = L.scheduleEsp)
      (hquiet : s.Quiet → c.interruptible = false)
      (hparked : 7 ≤ k → Parked L At s.cpu.mem s.on (s.saved s.on)) : Phase s (.saving c dest)
  | restoring {c : Regs} {k : Nat}
      (hat : Restoring L.swtch (L.lo s.on) (limit L s.on s.outer) c k s.cpu)
      (hquiet : s.Quiet → c.interruptible = false)
      (hparked : s.Quiet → Parked L At s.cpu.mem s.on (s.saved s.on))
      (hown : ¬ At 14 ∨ s.on = none → s.saved s.on = ⟨c, s.outer⟩) : Phase s (.restoring c)
  | returning (houter : s.outer ≠ []) (hoff : s.cpu.regs.interruptible = false)
      (hparked : Parked L At s.cpu.mem s.on (s.saved s.on)) : Phase s .returning

/-- What holds on every run whose timer interrupts come at `At`. -/
structure Invariant (s : State T) : Prop where
  parked : ∀ X, s.Alive X → X ≠ s.on → Parked L At s.cpu.mem X (s.saved X)
  current : ∀ t, s.on = some t → s.currentTask = some t
  outer : Outer L At s.cpu.mem s.on s.outer
  phase : Phase L At s s.act
  /-- Before the `ret` into its code, a new task has what `create_task` has saved for it. -/
  fresh : ¬ At 14 → ∀ t ∈ s.fresh, s.saved (some t) = ⟨firstCall L t, []⟩ ∧
    (s.on = some t → ∃ c, s.act = .restoring c)

end

/-! ## What others do -/

section

variable {T : Type} {L : Layout T} {At : Nat → Prop} {m m' : ByteMemory} {X Y : Option T}
  {s : State T} {c : Regs} {f : Interrupt T} {p : Suspended T} {outer : List (Interrupt T)}

/-- The places are addresses. -/
theorem Layout.cell_toNat (L : Layout T) (X : Option T) :
    (BitVec.ofNat 32 (L.cell X)).toNat = L.cell X := by
  have hle := L.cell_le X
  rw [BitVec.toNat_ofNat]
  exact Nat.mod_eq_of_lt (by omega)

theorem point_zero (base : BitVec 32) : point base 0 = base := BitVec.add_zero base

/-- What was interrupted depends on the stack from the stack pointer up. -/
theorem Interrupted.congr {a : Act T} {r : Regs} (h : Interrupted L At X a ⟨r, m⟩)
    (hm : AgreeOn m m' r.esp.toNat (L.hi X)) : Interrupted L At X a ⟨r, m'⟩ := by
  have hhi := L.hi_lt X
  cases a with
  | code => trivial
  | saving c dest =>
    obtain ⟨hdest, k, newEsp, hk, hnew, hat⟩ := h
    exact ⟨hdest, k, newEsp, hk, hnew, hat.congr hm (Nat.le_of_lt hhi)⟩
  | restoring c => exact ⟨h.1, h.2.congr hm (Nat.le_of_lt hhi)⟩
  | returning => exact h

/-- A change from the frame upwards is needed to disturb it. -/
theorem Framed.congr (h : Framed L At m X f)
    (hm : AgreeOn m m' (f.1.esp.toNat - 52) (L.hi X)) : Framed L At m' X f := by
  have hroom := h.room
  have hle := h.le_hi
  have hhi := L.hi_lt X
  have hlen : (interruptFrame L.cs f.1).length = 13 := rfl
  exact { h with
    words := h.words.congr (by omega) (hm.mono (Nat.le_refl _) (by omega))
    act := h.act.congr (hm.mono (Nat.sub_le ..) (Nat.le_refl _)) }

/-- The frames of interrupts depend on the stack above them only. -/
theorem Outer.congr (h : Outer L At m X outer)
    (hm : AgreeOn m m' (limit L X outer) (L.hi X)) : Outer L At m' X outer := by
  match outer, h with
  | [], _ => trivial
  | [f], h => exact Framed.congr h hm

/-- The interrupts of a thread lie on its stack. -/
theorem Outer.limit_le (h : Outer L At m X outer) : limit L X outer ≤ L.hi X := by
  match outer, h with
  | [], _ => exact Nat.le_refl _
  | [f], h =>
    have hle := Framed.le_hi h
    show f.1.esp.toNat - 52 ≤ _
    omega

/-- Interrupted code leaves room on its stack. -/
theorem Outer.lo_le_limit (h : Outer L At m X outer) (hne : outer ≠ []) :
    L.lo X ≤ limit L X outer := by
  match outer, h with
  | [], _ => exact absurd rfl hne
  | [f], h =>
    have hroom := Framed.room h
    show _ ≤ f.1.esp.toNat - 52
    omega

theorem Outer.congr_stack (h : Outer L At m X outer) (hm : AgreeOn m m' (L.lo X) (L.hi X)) :
    Outer L At m' X outer := by
  by_cases hne : outer = []
  · subst hne
    trivial
  · exact h.congr (hm.mono (h.lo_le_limit hne) (Nat.le_refl _))

theorem Outer.eq_nil (h : Outer L At m none outer) : outer = [] := by
  match outer, h with
  | [], _ => rfl
  | [f], h => exact absurd rfl (Framed.task h)

/-- A parked thread has its stack and its cell to itself. -/
theorem Parked.congr (h : Parked L At m X p)
    (hcell : AgreeOn m m' (L.cell X) (L.cell X + 4)) (hstack : AgreeOn m m' (L.lo X) (L.hi X)) :
    Parked L At m' X p := by
  have hroom := h.room
  have hfits := h.fits
  have hle := h.outer.limit_le
  have hhi := L.hi_lt X
  have hlen : (savedWords p.call).length = 6 := rfl
  refine { h with
    esp := by rw [load_congr (L.cell_le X) hcell]; exact h.esp
    words := h.words.congr (by omega) (hstack.mono (by omega) (by omega))
    outer := h.outer.congr (hstack.mono ?_ (Nat.le_refl _)) }
  omega

/-- What is written on one stack does not disturb the threads parked on others. -/
theorem Parked.other (h : Parked L At m Y p) (hne : Y ≠ X)
    (hm : ∀ lo hi, hi ≤ L.lo X ∨ L.hi X ≤ lo → AgreeOn m m' lo hi) : Parked L At m' Y p :=
  h.congr (hm _ _ (L.cell_outside Y X)) (hm _ _ (L.stacks_apart Y X hne))

/-- The running thread writes on its stack, below its frames. -/
theorem Invariant.write (h : Invariant L At s)
    (hm : ∀ lo hi, hi ≤ L.lo s.on ∨ limit L s.on s.outer ≤ lo → AgreeOn s.cpu.mem m lo hi) :
    (∀ X, s.Alive X → X ≠ s.on → Parked L At m X (s.saved X)) ∧ Outer L At m s.on s.outer := by
  have hle := h.outer.limit_le
  refine ⟨fun X halive hne => (h.parked X halive hne).other hne fun lo hi hout => hm lo hi ?_, ?_⟩
  · omega
  · exact h.outer.congr (hm _ _ (.inr (Nat.le_refl _)))

/-! ## C code -/

/-- Code that keeps to its stack keeps the invariant. -/
theorem Invariant.code {r : Regs} (h : Invariant L At s) (hact : s.act = .code)
    (hregs : CodeRegs L s r) (hmem : CodeMem L s m) : Invariant L At { s with cpu := ⟨r, m⟩ } where
  parked X halive hne :=
    (h.parked X halive hne).congr (hmem.cells X halive) (hmem.others X halive hne)
  current := h.current
  outer := h.outer.congr hmem.frames
  phase := by
    show Phase L At _ s.act
    rw [hact]
    exact .code hregs.lo_le hregs.le_limit hregs.quiet
  fresh := h.fresh

/-- A task that is in C code has entered its code. -/
theorem Invariant.not_fresh (h : Invariant L At s) (hrestoring : ∀ c, s.act ≠ .restoring c)
    (hAt : ¬ At 14) {t : T} (ht : t ∈ s.fresh) : s.on ≠ some t := by
  intro hon
  obtain ⟨c, hc⟩ := (h.fresh hAt t ht).2 hon
  exact hrestoring c hc

/-! ## A new task -/

/-- The words that `create_task` pushes. -/
def freshStack (L : Layout T) (m : ByteMemory) (t : T) : WordStack :=
  WordStack.pushes ⟨BitVec.ofNat 32 (L.stackBase t + 4096), m⟩
    [L.executionCode t, 0x202, 0, 0, 0, 0]

theorem stackTop_toNat (L : Layout T) (t : T) :
    (BitVec.ofNat 32 (L.stackBase t + 4096)).toNat = L.stackBase t + 4096 := by
  have hhi := L.hi_lt (some t)
  rw [BitVec.toNat_ofNat]
  exact Nat.mod_eq_of_lt hhi

/-- The first call of a task is at the end of its stack. -/
theorem firstCall_esp (L : Layout T) (t : T) :
    (firstCall L t).esp.toNat + 4 = L.stackBase t + 4096 := by
  have htop := stackTop_toNat L t
  show (BitVec.ofNat 32 (L.stackBase t + 4096) - 4).toNat + 4 = _
  rw [WordStack.toNat_sub_four (by omega), htop]
  omega

theorem freshStack_top (L : Layout T) (m : ByteMemory) (t : T) :
    (freshStack L m t).top.toNat + 24 = L.stackBase t + 4096 := by
  rw [← stackTop_toNat L t]
  refine @WordStack.pushes_top ⟨BitVec.ofNat 32 (L.stackBase t + 4096), m⟩
    [L.executionCode t, 0x202, 0, 0, 0, 0] ?_
  show 24 ≤ (BitVec.ofNat 32 (L.stackBase t + 4096)).toNat
  rw [stackTop_toNat]
  omega

/-- The words look like those of a call. -/
theorem freshStack_words (L : Layout T) (m : ByteMemory) (t : T) :
    Words (freshStack L m t).mem (freshStack L m t).top.toNat (savedWords (firstCall L t)) := by
  have hhi : L.stackBase t + 4096 < 4294967296 := L.hi_lt (some t)
  refine @WordStack.pushes_words ⟨BitVec.ofNat 32 (L.stackBase t + 4096), m⟩
    [L.executionCode t, 0x202, 0, 0, 0, 0] [] ?_ ?_ (words_nil.mpr trivial)
  · show 24 ≤ (BitVec.ofNat 32 (L.stackBase t + 4096)).toNat
    rw [stackTop_toNat]
    omega
  · show (BitVec.ofNat 32 (L.stackBase t + 4096)).toNat + 0 ≤ _
    rw [stackTop_toNat]
    omega

/-- `create_task` writes on the stack and in the record of its task. -/
theorem createStack_apart (L : Layout T) (m : ByteMemory) (t : T) {lo hi : Nat}
    (hstack : hi ≤ L.lo (some t) ∨ L.hi (some t) ≤ lo)
    (hcell : hi ≤ L.cell (some t) ∨ L.cell (some t) + 4 ≤ lo) :
    AgreeOn m (createStack L m t) lo hi := by
  have hlo : L.lo (some t) = L.stackBase t := rfl
  have hhi : L.hi (some t) = L.stackBase t + 4096 := rfl
  have hpushes : AgreeOn m (freshStack L m t).mem lo hi := by
    refine WordStack.pushes_apart ?_ ?_
    · show 24 ≤ (BitVec.ofNat 32 (L.stackBase t + 4096)).toNat
      rw [stackTop_toNat]
      omega
    · show (BitVec.ofNat 32 (L.stackBase t + 4096)).toNat ≤ lo ∨
        hi + 24 ≤ (BitVec.ofNat 32 (L.stackBase t + 4096)).toNat
      rw [stackTop_toNat]
      omega
  exact hpushes.trans (store_agreeOn _ (L.cell_le (some t)) hcell)

/-- A new task is parked, in a call that it has never made. -/
theorem createStack_parked (L : Layout T) (m : ByteMemory) (t : T) :
    Parked L At (createStack L m t) (some t) ⟨firstCall L t, []⟩ := by
  have hhi : L.stackBase t + 4096 < 4294967296 := L.hi_lt (some t)
  have hesp := firstCall_esp L t
  have htop := freshStack_top L m t
  have hcell : (load (createStack L m t) (L.cell (some t))).toNat = (freshStack L m t).top.toNat :=
    congrArg BitVec.toNat (load_store ..)
  have hout : L.task t + 4 ≤ L.stackBase t ∨ L.stackBase t + 4096 ≤ L.task t :=
    L.cell_outside (some t) (some t)
  -- the six words that `swtch` will pop, the entry point last
  have hwords : Words (createStack L m t) (freshStack L m t).top.toNat
      (savedWords (firstCall L t)) := by
    refine (freshStack_words L m t).congr ?_ (store_agreeOn _ (L.cell_le (some t)) ?_)
    · show _ + 24 ≤ _
      omega
    · show _ + 24 ≤ L.task t ∨ L.task t + 4 ≤ _
      omega
  refine ⟨?_, ?_, ?_, ?_, trivial, ?_, nofun⟩
  · show (load (createStack L m t) (L.cell (some t))).toNat + 20 = (firstCall L t).esp.toNat
    omega
  · show L.stackBase t + 20 ≤ (firstCall L t).esp.toNat
    omega
  · show (firstCall L t).esp.toNat + 4 ≤ L.stackBase t + 4096
    omega
  · have haddr : (firstCall L t).esp.toNat - 20 = (freshStack L m t).top.toNat := by omega
    show Words _ ((firstCall L t).esp.toNat - 20) _
    rw [haddr]
    exact hwords
  · rintro (hnone | hne)
    · cases hnone
    · exact absurd rfl hne

/-- A new task is parked as if it had called `swtch`. -/
theorem Invariant.create [DecidableEq T] {t : T} (h : Invariant L At s) (hact : s.act = .code)
    (hnew : t ∉ s.live) (hother : s.currentTask ≠ some t) : Invariant L At (s.create L t) where
  parked X halive hne := by
    show Parked L At (createStack L s.cpu.mem t) X (Function.update s.saved (some t) _ X)
    by_cases hX : X = some t
    · subst hX
      rw [Function.update_self]
      -- the new task lies as `create_task` has filled its stack
      exact createStack_parked L s.cpu.mem t
    · -- the record of a task that had died is not looked at
      rw [Function.update_of_ne hX]
      have halive' : s.Alive X := by
        cases X with
        | none => trivial
        | some u => exact Finset.mem_of_mem_insert_of_ne halive fun hu => hX (congrArg some hu)
      refine (h.parked X halive' hne).congr (createStack_apart L _ t ?_ ?_)
        (createStack_apart L _ t ?_ ?_)
      · exact L.cell_outside X (some t)
      · exact L.cells_apart X (some t) hX
      · exact L.stacks_apart X (some t) hX
      · exact (L.cell_outside (some t) X).symm
  current := h.current
  outer := by
    refine h.outer.congr_stack (createStack_apart L _ t ?_ ?_)
    · exact L.stacks_apart s.on (some t) fun hon => hother (h.current t hon)
    · exact (L.cell_outside (some t) s.on).symm
  phase := by
    show Phase L At _ s.act
    have hphase := h.phase
    rw [hact] at hphase ⊢
    cases hphase with
    | code hlo hlimit hquiet => exact .code hlo hlimit hquiet
  fresh hAt u hu := by
    show Function.update s.saved (some t) _ (some u) = _ ∧ _
    by_cases hut : u = t
    · subst hut
      rw [Function.update_self]
      exact ⟨rfl, fun hon => absurd (h.current u hon) hother⟩
    · rw [Function.update_of_ne fun heq => hut (Option.some.inj heq)]
      exact h.fresh hAt u (Finset.mem_of_mem_insert_of_ne hu hut)

/-- What only writes to the current stack keeps the invariant, as long as the phase is right. -/
theorem Invariant.of_own_stack {cpu : Cpu} (h : Invariant L At s)
    (hm : ∀ lo hi, hi ≤ L.lo s.on ∨ limit L s.on s.outer ≤ lo → AgreeOn s.cpu.mem cpu.mem lo hi)
    (hphase : Phase L At { s with cpu } s.act) : Invariant L At { s with cpu } :=
  ⟨(h.write hm).1, h.current, (h.write hm).2, hphase, h.fresh⟩

/-- A task that dies leaves the others parked. -/
theorem Invariant.exit [DecidableEq T] {t : T} (h : Invariant L At s) (hact : s.act = .code) :
    Invariant L At { s with live := s.live.erase t } where
  parked X halive hne := by
    refine h.parked X ?_ hne
    cases X with
    | none => trivial
    | some u => exact Finset.mem_of_mem_erase halive
  current := h.current
  outer := h.outer
  phase := by
    have hphase := h.phase
    show Phase L At _ s.act
    rw [hact] at hphase ⊢
    cases hphase with
    | code hlo hlimit hquiet => exact .code hlo hlimit hquiet
  fresh := h.fresh

/-! ## A call of `swtch` -/

/-- With its arguments on the stack, the call writes the return address below them. -/
theorem Saving.enter {base ret oldEsp newEsp : BitVec 32} {lo top : Nat} {cpu : Cpu}
    (hroom : lo + 24 ≤ cpu.regs.esp.toNat) (hfits : cpu.regs.esp.toNat + 8 ≤ top)
    (htop : top ≤ 4294967296)
    (hargs : Words cpu.mem cpu.regs.esp.toNat [oldEsp, newEsp]) :
    Saving base lo top oldEsp newEsp ((cpu.push ret).goto ret).regs 0 ((cpu.push ret).goto base) ∧
      (cpu.push ret).regs.esp.toNat + 4 = cpu.regs.esp.toNat ∧
      ∀ lo' hi', hi' ≤ lo ∨ top ≤ lo' → AgreeOn cpu.mem (cpu.push ret).mem lo' hi' := by
  have hroom4 : 4 ≤ cpu.stack.top.toNat := by
    show 4 ≤ cpu.regs.esp.toNat
    omega
  have hesp : (cpu.push ret).regs.esp.toNat + 4 = cpu.regs.esp.toNat :=
    WordStack.push_top (v := ret) hroom4
  have hwords : Words (cpu.push ret).mem (cpu.push ret).regs.esp.toNat [ret, oldEsp, newEsp] := by
    refine WordStack.push_words hroom4 ?_ hargs
    show cpu.regs.esp.toNat + 4 * 2 ≤ _
    omega
  refine ⟨?_, hesp, fun lo' hi' hout => WordStack.push_apart hroom4 ?_⟩
  · -- of the six words only the return address is there
    exact {
      bound := by omega
      eip := (point_zero base).symm
      room := by
        show lo + 20 ≤ (cpu.push ret).regs.esp.toNat
        omega
      fits := by
        show (cpu.push ret).regs.esp.toNat + 12 ≤ top
        omega
      esp := rfl
      words := hwords
      ebp := rfl
      edi := rfl
      esi := rfl
      ebx := rfl
      eflags := rfl
      target := by omega
      source := by omega }
  · show cpu.regs.esp.toNat ≤ lo' ∨ hi' ≤ cpu.regs.esp.toNat - 4
    omega

/-- A call is made with the cell of the own stack pointer, and the stack pointer of another. -/
theorem Invariant.enter {ret : BitVec 32} {dest : Option T} {current : Option T}
    (h : Invariant L At s) (hact : s.act = .code) (hroom : L.lo s.on + 24 ≤ s.cpu.regs.esp.toNat)
    (hfits : s.cpu.regs.esp.toNat + 8 ≤ limit L s.on s.outer)
    (hargs : Words s.cpu.mem s.cpu.regs.esp.toNat
      [BitVec.ofNat 32 (L.cell s.on), load s.cpu.mem (L.cell dest)])
    (hne : dest ≠ s.on) (halive : s.Alive dest) (hback : s.on ≠ none → dest = none)
    (hschedule : s.on = none → s.cpu.regs.esp.toNat = L.scheduleEsp + 4)
    (hnext : ∀ t, dest = some t → current = some t)
    (hcurrent : ∀ t, s.on = some t → current = some t) :
    Invariant L At { s.enter L ret dest with currentTask := current } := by
  have hle := h.outer.limit_le
  have hhi := L.hi_lt s.on
  obtain ⟨hat, hesp, hapart⟩ :=
    @Saving.enter L.swtch ret _ _ _ _ _ hroom hfits (by omega) hargs
  have hphase := h.phase
  rw [hact] at hphase
  cases hphase with
  | code hlo hlimit hquiet =>
    refine ⟨(h.write hapart).1, hcurrent, (h.write hapart).2, ?_, fun hAt t ht => ?_⟩
    · refine .saving hat hne halive (h.parked dest halive hne).esp hback hnext ?_ hquiet (by omega)
      intro hon
      show (s.cpu.push ret).regs.esp.toNat = L.scheduleEsp
      have hesp' := hschedule hon
      omega
    · have hon := h.not_fresh (by rw [hact]; exact nofun) hAt ht
      exact ⟨(h.fresh hAt t ht).1, fun hon' => absurd hon' hon⟩

/-- `yield` calls `swtch` with the cell of the task and that of the scheduler. -/
theorem Invariant.yield {t : T} {ret : BitVec 32} (h : Invariant L At s) (hact : s.act = .code)
    (htask : s.on = none → s.outer ≠ []) (hcurrent : s.currentTask = some t)
    (hroom : L.lo s.on + 24 ≤ s.cpu.regs.esp.toNat)
    (hfits : s.cpu.regs.esp.toNat + 8 ≤ limit L s.on s.outer)
    (hargs : Words s.cpu.mem s.cpu.regs.esp.toNat
      [BitVec.ofNat 32 (L.task t), load s.cpu.mem L.schedulerContext]) :
    Invariant L At (s.enter L ret none) := by
  have hon : s.on = some t := by
    cases hon : s.on with
    | none =>
      -- nothing is interrupted on the boot stack
      have houter := h.outer
      rw [hon] at houter
      exact absurd houter.eq_nil (htask hon)
    | some u => rw [← h.current u hon, hcurrent]
  show Invariant L At { s.enter L ret none with currentTask := s.currentTask }
  refine h.enter hact hroom hfits ?_ ?_ trivial (fun _ => rfl) ?_ nofun h.current
  · rw [hon]
    exact hargs
  · rw [hon]
    exact nofun
  · rw [hon]
    exact nofun

/-- `schedule` calls `swtch` with its own cell and that of the task. -/
theorem Invariant.dispatch {next : T} {ret : BitVec 32} (h : Invariant L At s)
    (hact : s.act = .code) (hon : s.on = none) (houter : s.outer = []) (hlive : next ∈ s.live)
    (hesp : s.cpu.regs.esp.toNat = L.scheduleEsp + 4)
    (hargs : Words s.cpu.mem s.cpu.regs.esp.toNat
      [BitVec.ofNat 32 L.schedulerContext, load s.cpu.mem (L.task next)]) :
    Invariant L At { s.enter L ret (some next) with currentTask := some next } := by
  have hroom := L.schedule_room
  have hfits := L.schedule_fits
  refine h.enter hact ?_ ?_ ?_ ?_ hlive (fun hne => absurd hon hne) (fun _ => hesp)
    (fun t ht => ht) ?_
  · rw [hon]
    show L.bootBottom + 24 ≤ _
    omega
  · rw [hon, houter]
    show _ ≤ L.bootTop
    omega
  · rw [hon]
    exact hargs
  · rw [hon]
    exact nofun
  · rw [hon]
    exact nofun

end

end Switching

end Pelikan

end SystemsProjects
