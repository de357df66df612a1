import Mathlib.Data.Fintype.Option
import SystemsProjects.Pelikan.SwitchCommands
import SystemsProjects.Pelikan.SwitchExits

/-!
# What a switch keeps

What the running tasks see of context switches and timer interrupts.

- `Transparent`: the registers of a thread are given back to it, at the end of a call of `swtch`
  and of an interrupt, and nobody writes on the stack of another.
- `switch_transparent`: so it is on every run with no interrupt between the first and the last
  instruction of `swtch`.
- `Harmless`: the stack pointers that are saved lead to the own stack, and what `schedule` has
  saved stays as it is until it is popped.
- `harmless_of_reachable`: so it is when interrupts may come inside of `swtch`, but not before
  one of the five instructions that run on the new stack with the old flags. Before the first of
  them even that does no harm, if the task has died.
- `not_harmless_of_reachable`: behind `thread_exit`, an interrupt before the second of these five
  is enough for `schedule` to get EFLAGS back as its EBP.

All three results are read off `Invariant`. What is new here is what a step does not do: it
writes on no stack of a thread that is off the CPU (`Invariant.kept`). The two halves of the
answer about interrupts inside of `swtch`, when they do no harm and that they can, are
`harmless_of_reachable` and a run that is computed.
-/

namespace SystemsProjects

namespace Pelikan

namespace Switching

open ByteMemory TransitionSystem

section

variable {T : Type} (L : Layout T)

/-- The registers that a call of `swtch` gives back at its end. -/
structure GivesBack (c r : Regs) : Prop where
  ebx : r.ebx = c.ebx
  esi : r.esi = c.esi
  edi : r.edi = c.edi
  ebp : r.ebp = c.ebp
  eflags : r.eflags = c.eflags
  esp : r.esp = c.esp + 4
  eip : r.eip = c.eip

/-- What a step should do. -/
structure Transparent (s : State T) (a : Action T) (s' : State T) : Prop where
  /-- At its end the call of `swtch` is the one that the thread has made last. -/
  returned : a = .instr → s.cpu.regs.eip = point L.swtch 14 →
    GivesBack (s.saved s.on).call s'.cpu.regs
  /-- A new task enters its code, with interrupts enabled. -/
  entered : a = .instr → s.cpu.regs.eip = point L.swtch 14 → ∀ t ∈ s.fresh, s.on = some t →
    s'.cpu.regs.eip = L.executionCode t ∧ s'.cpu.regs.interruptible = true
  /-- Behind an interrupt the registers are what they were when it came. -/
  restored : a = .isrReturn → ∃ i act outer, s.outer = (i, act) :: outer ∧
    s'.cpu.regs = i ∧ s'.act = act ∧ s'.outer = outer
  /-- The stacks of the others are left alone. -/
  kept : ∀ X, s.Alive X → X ≠ s.on → AgreeOn s.cpu.mem s'.cpu.mem (L.lo X) (L.hi X)

/-- What is saved can be used later. -/
structure Harmless (s : State T) : Prop where
  /-- The stack pointer of a task that is off the CPU leads to the own stack. -/
  own : ∀ t ∈ s.live, s.on ≠ some t → L.stackBase t ≤ (load s.cpu.mem (L.task t)).toNat ∧
    (load s.cpu.mem (L.task t)).toNat + 24 ≤ L.stackBase t + 4096
  /-- The words of `schedule` are there while a task is on the CPU. -/
  context : s.on ≠ none →
    Words s.cpu.mem (load s.cpu.mem L.schedulerContext).toNat (savedWords (s.saved none).call)
  /-- They are there once `scheduler_context` is written. -/
  stored : ∀ c dest k, s.on = none → s.act = .saving c dest → s.cpu.regs.eip = point L.swtch k →
    7 ≤ k → k < 15 →
    Words s.cpu.mem (load s.cpu.mem L.schedulerContext).toNat (savedWords (s.saved none).call)
  /-- Those that are not popped yet are still there. -/
  popping : ∀ c k, s.on = none → s.act = .restoring c → s.cpu.regs.eip = point L.swtch k →
    k < 15 → Words s.cpu.mem s.cpu.regs.esp.toNat ((savedWords (s.saved none).call).drop (k - 9))

end

section

variable {T : Type} {L : Layout T} {At : Nat → Prop} {s s' : State T} {X : Option T} {i : Instr}

/-! ## Nobody writes on the stack of another -/

/-- The saved words of a parked task are where its cell points to. -/
theorem Parked.at_words {m : ByteMemory} {p : Suspended T} (h : Parked L At m X p) :
    Words m (load m (L.cell X)).toNat (savedWords p.call) := by
  have hesp := h.esp
  have haddr : (load m (L.cell X)).toNat = p.call.esp.toNat - 20 := by omega
  rw [haddr]
  exact h.words

/-- An instruction of `swtch` writes on the own stack, or to the own saved stack pointer. -/
theorem Invariant.instr_apart (h : Invariant L At s) (hact : s.act.inSwtch = true)
    (hi : fetch L.swtch s.cpu.regs.eip = some i) (hne : X ≠ s.on) :
    AgreeOn s.cpu.mem (s.cpu.exec i).mem (L.lo X) (L.hi X) := by
  have hle := h.outer.limit_le
  have hhi := L.hi_lt s.on
  have hstacks := L.stacks_apart X s.on hne
  have hphase := h.phase
  generalize s.act = a at hphase hact
  cases hphase with
  | code hlo hlimit hquiet => cases hact
  | returning houter hoff hparked => cases hact
  | @saving c dest k newEsp hat hne' halive hnew hback hnext hschedule hquiet hparked =>
    have hbound := hat.bound
    rw [hat.eip, fetch_point (by omega)] at hi
    -- pushes write below `esp`, and the store writes the cell
    have hcases : k < 5 ∨ k = 5 ∨ k = 6 ∨ k = 7 ∨ k = 8 := by omega
    rcases hcases with hk | rfl | rfl | rfl | rfl
    · exact (hat.push hk hi (by omega)).2 _ _ (by omega)
    · obtain rfl := Option.some.inj hi
      exact AgreeOn.refl _ _ _
    · -- only the own cell is written
      obtain rfl := Option.some.inj hi
      have hcell := L.cell_toNat s.on
      have hin := L.cell_le s.on
      have hout := L.cell_outside s.on s.on
      obtain ⟨-, hmem⟩ := hat.storeEsp (by omega) (by omega) (by omega)
      rw [hmem, hcell]
      exact store_agreeOn _ hin (L.cell_outside s.on X).symm
    · obtain rfl := Option.some.inj hi
      exact AgreeOn.refl _ _ _
    · obtain rfl := Option.some.inj hi
      exact AgreeOn.refl _ _ _
  | @restoring c k hat hquiet hparked hown =>
    have hbound := hat.bound
    have hstart := hat.start
    rw [hat.eip, fetch_point (by omega)] at hi
    -- pops and `ret` write nothing
    by_cases hk : k < 14
    · rw [(hat.pop hk hi (by omega)).2]
      exact AgreeOn.refl _ _ _
    · obtain rfl : k = 14 := by omega
      obtain rfl := Option.some.inj hi
      exact AgreeOn.refl _ _ _

/-- What the thread on the CPU writes lies on its stack. -/
theorem Invariant.own_apart {m : ByteMemory} (h : Invariant L At s)
    (hm : ∀ lo hi, hi ≤ L.lo s.on ∨ limit L s.on s.outer ≤ lo → AgreeOn s.cpu.mem m lo hi)
    (hne : X ≠ s.on) : AgreeOn s.cpu.mem m (L.lo X) (L.hi X) := by
  have hle := h.outer.limit_le
  have hstacks := L.stacks_apart X s.on hne
  exact hm _ _ (by omega)

/-- A call of `swtch` writes the return address. -/
theorem Invariant.push_apart {v : BitVec 32} (h : Invariant L At s) (hne : X ≠ s.on)
    (hroom : L.lo s.on + 24 ≤ s.cpu.regs.esp.toNat)
    (hfits : s.cpu.regs.esp.toNat + 8 ≤ limit L s.on s.outer) :
    AgreeOn s.cpu.mem (s.cpu.push v).mem (L.lo X) (L.hi X) := by
  refine h.own_apart (fun lo hi hout => WordStack.push_apart ?_ ?_) hne
  · show 4 ≤ s.cpu.regs.esp.toNat
    omega
  · show s.cpu.regs.esp.toNat ≤ lo ∨ hi ≤ s.cpu.regs.esp.toNat - 4
    omega

/-! ## What is given back -/

/-- At its end a call of `swtch` gives back the registers of the call that was saved. -/
theorem Invariant.returns (h : Invariant L At s) (hAt : ¬ At 14) (hact : s.act.inSwtch = true)
    (heip : s.cpu.regs.eip = point L.swtch 14) (hi : fetch L.swtch s.cpu.regs.eip = some i) :
    (∃ c, s.act = .restoring c) ∧ GivesBack (s.saved s.on).call (s.cpu.exec i).regs := by
  have hle := h.outer.limit_le
  have hhi := L.hi_lt s.on
  have hphase := h.phase
  generalize s.act = a at hphase hact ⊢
  cases hphase with
  | code hlo hlimit hquiet => cases hact
  | returning houter hoff hparked => cases hact
  | @saving c dest k newEsp hat hne' halive hnew hback hnext hschedule hquiet hparked =>
    have hbound := hat.bound
    have hk := point_injective (by omega) (by omega) (hat.eip.symm.trans heip)
    omega
  | @restoring c k hat hquiet hparked hown =>
    have hbound := hat.bound
    obtain rfl := point_injective (by omega) (by omega) (hat.eip.symm.trans heip)
    rw [heip, fetch_point (by omega)] at hi
    obtain rfl := Option.some.inj hi
    rw [hown (.inl hAt), hat.ret (by omega)]
    exact ⟨⟨c, rfl⟩, rfl, rfl, rfl, rfl, rfl, rfl, rfl⟩

/-- The invariant says that everything is in place. -/
theorem Invariant.harmless (h : Invariant L At s) : Harmless L s where
  own t hlive hne := by
    obtain ⟨hesp, hroom, hfits, -, houter, -, -⟩ := h.parked (some t) hlive (Ne.symm hne)
    have hle := houter.limit_le
    have hlo : L.lo (some t) = L.stackBase t := rfl
    have hhi : L.hi (some t) = L.stackBase t + 4096 := rfl
    have hcell : L.cell (some t) = L.task t := rfl
    rw [hcell] at hesp
    omega
  context hon := (h.parked none trivial (Ne.symm hon)).at_words
  stored c dest k hon hact heip hk hlt := by
    have hphase := h.phase
    rw [hact] at hphase
    cases hphase with
    | @saving _ _ j newEsp hat hne halive hnew hback hnext hschedule hquiet hparked =>
      have hbound := hat.bound
      obtain rfl := point_injective (by omega) hlt (hat.eip.symm.trans heip)
      -- the stack pointer has been stored, so the words are in place
      rw [hon] at hparked
      exact (hparked hk).at_words
  popping c k hon hact heip hlt := by
    have hphase := h.phase
    rw [hact] at hphase
    cases hphase with
    | @restoring _ j hat hquiet hparked hown =>
      have hbound := hat.bound
      obtain rfl := point_injective (by omega) hlt (hat.eip.symm.trans heip)
      -- the words that are popped are the ones that were saved
      have hsaved := hown (.inr hon)
      rw [hon] at hsaved
      rw [hsaved]
      exact hat.words

/-! ## Steps -/

variable [DecidableEq T]

theorem State.after_cpu (s : State T) (i : Instr) : (s.after i).cpu = s.cpu.exec i := by
  unfold State.after
  split <;> rfl

/-- No step writes on the stack of a thread that is off the CPU. -/
theorem Invariant.kept {a : Action T} (h : Invariant L At s)
    (hAt : ∀ k, At k → k ≤ 8 ∨ k = 14) (htimer : TimersAt L At s a) (hstep : Step L s a s')
    (halive : s.Alive X) (hne : X ≠ s.on) :
    AgreeOn s.cpu.mem s'.cpu.mem (L.lo X) (L.hi X) := by
  cases hstep with
  | code hact hregs hmem => exact hmem.others X halive hne
  | @create t hact hnew hother =>
    -- the cell and the stack of the new task are written
    have hX : X ≠ some t := by
      rintro rfl
      exact hnew halive
    exact createStack_apart L _ t (L.stacks_apart X (some t) hX) (L.cell_outside (some t) X).symm
  | exit hact hon hcurrent => exact AgreeOn.refl _ _ _
  | yield hact htask hcurrent hroom hfits hargs => exact h.push_apart hne hroom hfits
  | dispatch hact hon houter hlive hesp hargs =>
    have hroom := L.schedule_room
    have hfits := L.schedule_fits
    refine h.push_apart hne ?_ ?_
    · rw [hon]
      show L.bootBottom + 24 ≤ _
      omega
    · rw [hon, houter]
      show _ ≤ L.bootTop
      omega
  | instr hact hi =>
    rw [State.after_cpu]
    exact h.instr_apart hact hi hne
  | timer hif hroom =>
    -- the interrupt pushes its frame onto the stack in use
    obtain ⟨-, hle, -⟩ := h.interrupted hAt hif htimer
    have hstacks := L.stacks_apart X s.on hne
    have hapart := (@interruptEntry_frame L.cs L.isrHandler L.isrReturn s.cpu (by omega)).2.2
    exact hapart _ _ (by omega)
  | isrReturn hact houter hesp heip =>
    rw [(h.isrReturn hact houter hesp).1]
    exact AgreeOn.refl _ _ _

/-! ## Transparent switches -/

/-- A timer at the first instruction makes no difference to any step. -/
theorem Invariant.transparent {a : Action T} (h : Invariant L (· = 0) s)
    (htimer : TimersAt L (· = 0) s a) (hstep : Step L s a s') : Transparent L s a s' := by
  have hAt : ∀ k, k = 0 → k ≤ 8 ∨ k = 14 := by omega
  have hreturns : ∀ {i}, s.act.inSwtch = true → s.cpu.regs.eip = point L.swtch 14 →
      fetch L.swtch s.cpu.regs.eip = some i →
      GivesBack (s.saved s.on).call (s.after i).cpu.regs := by
    intro i hact heip hi
    rw [State.after_cpu]
    exact (h.returns (by decide) hact heip hi).2
  refine ⟨?_, ?_, ?_, fun X halive hne => h.kept hAt htimer hstep halive hne⟩
  · rintro rfl heip
    cases hstep with
    | instr hact hi => exact hreturns hact heip hi
  · rintro rfl heip t ht hon
    cases hstep with
    | instr hact hi =>
      have hback := hreturns hact heip hi
      rw [hon, (h.fresh (by decide) t ht).1] at hback
      refine ⟨hback.eip, ?_⟩
      rw [Regs.interruptible, hback.eflags]
      show (0x202#32).getLsbD 9 = true
      decide
  · rintro rfl
    cases hstep with
    | isrReturn hact houter hesp heip =>
      rw [(h.isrReturn hact houter hesp).1]
      exact ⟨_, _, _, houter, rfl, rfl, rfl⟩

/-- Context switches and preemption are transparent. On every run in which no interrupt comes
between the first and the last instruction of `swtch`, each step is transparent. -/
theorem switch_transparent {run : List (Taken (State T) (Action T))}
    (hrun : (timersAt L (· = 0)).Run run s) :
    ∀ x ∈ run, Transparent L x.before x.action x.after := by
  induction hrun with
  | init h => exact fun x hx => absurd hx List.not_mem_nil
  | step hrun hstep ih =>
    refine List.forall_mem_cons.mpr ⟨?_, ih⟩
    have h := invariant_of_reachable (by omega) hrun.reachable
    exact h.transparent hstep.1 hstep.2

end

/-! ## Runs of two tasks -/

/-- Two tasks, each with a frame for its stack. -/
def twoTasks : Layout Bool where
  swtch := 0x100000
  isrHandler := 0x100100
  isrReturn := 0x100200
  cs := 8
  schedulerContext := 0x110000
  bootBottom := 0x120000
  bootTop := 0x124000
  scheduleEsp := 0x123f00
  task t := if t then 0x130100 else 0x130000
  stackBase t := if t then 0x150000 else 0x140000
  executionCode t := if t then 0x100380 else 0x100300
  hi_lt := by decide
  stacks_apart := by decide
  cell_le := by decide
  cells_apart := by decide
  cell_outside := by decide
  schedule_room := by decide
  schedule_fits := by decide

/-- `kmain`, before the first task is created. -/
def beforeTasks : State Bool where
  cpu.regs := ⟨0, 0, 0, 0, 0x123f04, 0, 0, 0, 0x100400, 2⟩
  cpu.mem := fun _ => 0
  on := none
  currentTask := none
  live := ∅
  act := .code
  outer := []
  saved := fun _ => ⟨⟨0, 0, 0, 0, 0x123f04, 0, 0, 0, 0x100400, 2⟩, []⟩
  fresh := ∅

theorem beforeTasks_start : Start twoTasks beforeTasks :=
  ⟨rfl, rfl, rfl, rfl, rfl, rfl, rfl, by decide, by decide⟩

/-- `schedule` switches to a task that has saved `esp`. -/
def dispatchTask (t : Bool) (esp : BitVec 32) : List (Command Bool) :=
  [.args 0x100400 0x123f04 0x110000 esp, .dispatch t 0x100410] ++ List.replicate 15 .instr

/-- At `eip` a task calls `swtch`, with its arguments at `esp`, and `n` instructions follow. -/
def yieldTask (t : Bool) (eip esp : BitVec 32) (n : Nat) : List (Command Bool) :=
  [.args eip esp (if t then 0x130100 else 0x130000) 0x123eec, .yield t (eip + 16)] ++
    List.replicate n .instr

/-- One task yields, the other one is preempted, and both come back. -/
def backAgain : List (Command Bool) :=
  [.create false, .create true] ++ dispatchTask false 0x140fe8 ++
    yieldTask false 0x100310 0x140f00 15 ++
    dispatchTask true 0x150fe8 ++ [.timer] ++ yieldTask true 0x100500 0x150f00 15 ++
    dispatchTask false 0x140ee8 ++ yieldTask false 0x100310 0x140f00 15 ++
    dispatchTask true 0x150ee8 ++ [.isrReturn]

theorem backAgain_runs :
    (runActions (command twoTasks (TimerAt twoTasks (· = 0))) backAgain beforeTasks).map
      (fun s => (s.on, s.act, s.cpu.regs.interruptible)) = some (some true, .code, true) := by
  decide +kernel

theorem switch_transparent_backAgain : ∃ run s, (timersAt twoTasks (· = 0)).Run run s ∧
    (s.on, s.act, s.cpu.regs.interruptible) = (some true, .code, true) ∧
    ∀ x ∈ run, Transparent twoTasks x.before x.action x.after := by
  obtain ⟨s, hs, hend⟩ := Option.map_eq_some_iff.mp backAgain_runs
  obtain ⟨run, hrun⟩ := (reachable_of_commands (.init beforeTasks_start) hs).exists_run
  exact ⟨run, s, hrun, hend, switch_transparent hrun⟩

/-! ## Harmless interrupts -/

/-- The interrupts that do no harm inside of `swtch`, whoever is switched: those before one of the
first nine instructions, and before `ret`. -/
def harmlessPoint (k : Nat) : Prop := k ≤ 8 ∨ k = 14

instance : DecidablePred harmlessPoint :=
  fun k => inferInstanceAs (Decidable (k ≤ 8 ∨ k = 14))

/-- A timer interrupt does no harm outside of `swtch`, at a `harmlessPoint`, and before `pop ebp`
on the boot stack if `current_task` has died. -/
def HarmlessTimer {T : Type} (L : Layout T) (s : State T) : Prop :=
  TimerAt L harmlessPoint s ∨
    s.on = none ∧ s.cpu.regs.eip = point L.swtch 9 ∧ ∃ t ∈ s.currentTask, t ∉ s.live

instance {T : Type} [DecidableEq T] (L : Layout T) : DecidablePred (HarmlessTimer L) :=
  fun s => inferInstanceAs (Decidable (TimerAt L harmlessPoint s ∨
    s.on = none ∧ s.cpu.regs.eip = point L.swtch 9 ∧ ∃ t ∈ s.currentTask, t ∉ s.live))

section

variable {T : Type} {L : Layout T} {At : Nat → Prop} {s : State T} {t : T}

/-- In the interrupt of a dead task too, what is saved is in place. -/
theorem Lingering.harmless (h : Lingering L At s t) : Harmless L s where
  own u hlive _ := by
    obtain ⟨hesp, hroom, hfits, -, houter, -, -⟩ := h.parked (some u) hlive
    have hle := houter.limit_le
    have hlo : L.lo (some u) = L.stackBase u := rfl
    have hhi : L.hi (some u) = L.stackBase u + 4096 := rfl
    have hcell : L.cell (some u) = L.task u := rfl
    rw [hcell] at hesp
    omega
  context hon := absurd h.on hon
  stored _ _ _ _ _ _ _ _ := (h.parked none trivial).at_words
  popping c k hon hact heip hlt := by
    have hphase := h.phase
    rw [hact] at hphase
    cases hphase

/-- A timer interrupt inside a voluntary switch is harmless, unless it comes before one of the
five instructions that run on the new stack with the old flags, or before one of the last four of
them, if the task has died. -/
theorem harmless_of_reachable [DecidableEq T]
    (hreach : (timersWhen L (HarmlessTimer L)).Reachable s) : Harmless L s := by
  have hAt : ∀ k, harmlessPoint k → k ≤ 8 ∨ k = 14 := fun _ hk => hk
  have h : Invariant L harmlessPoint s ∨ ∃ t, Lingering L harmlessPoint s t := by
    refine hreach.invariant
      (P := fun s => Invariant L harmlessPoint s ∨ ∃ t, Lingering L harmlessPoint s t)
      (fun s hs => .inl (Start.invariant hs)) fun s a s' _ h hstep => ?_
    obtain ⟨htimer, hstep⟩ := hstep
    obtain h | ⟨t, h⟩ := h
    · by_cases hTimers : TimersAt L harmlessPoint s a
      · exact .inl (h.step hAt hTimers hstep)
      · -- the timer, behind `thread_exit`
        obtain ⟨rfl, hout⟩ := Classical.not_imp.mp hTimers
        obtain ⟨hon, heip, t, hcurrent, hdead⟩ := (htimer rfl).resolve_left hout
        cases hstep with
        | timer hif hroom => exact .inr ⟨t, h.linger hon heip hcurrent hdead hif hroom⟩
    · exact (h.step (.inr rfl) hstep).imp_right fun h => ⟨t, h⟩
  obtain h | ⟨t, h⟩ := h
  · exact h.harmless
  · exact h.harmless

end

/-- A task is interrupted in the first half of `swtch`, and yields in the interrupt. It comes back
and exits, and before the first word of `schedule` is popped there is the timer again. -/
def interruptedYield : List (Command Bool) :=
  [.create false] ++ dispatchTask false 0x140fe8 ++ yieldTask false 0x100310 0x140f00 3 ++
    [.timer] ++ yieldTask false 0x100500 0x140e00 15 ++ dispatchTask false 0x140de8 ++
    [.isrReturn] ++ List.replicate 12 .instr ++ dispatchTask false 0x140ee8 ++ [.exit false] ++
    yieldTask false 0x100310 0x140f00 9 ++ [.timer] ++ yieldTask false 0x100500 0x123e80 15

theorem interruptedYield_runs :
    (runActions (command twoTasks (HarmlessTimer twoTasks)) interruptedYield beforeTasks).map
      (fun s => (s.on, s.act, decide (false ∈ s.live), load s.cpu.mem 0x130000)) =
      some (none, .code, false, 0x123e68) := by
  decide +kernel

theorem harmless_interruptedYield :
    ∃ s, (timersWhen twoTasks (HarmlessTimer twoTasks)).Reachable s ∧
      (s.on, s.act, decide (false ∈ s.live), load s.cpu.mem 0x130000) =
        (none, .code, false, 0x123e68) ∧ Harmless twoTasks s := by
  obtain ⟨s, hs, hend⟩ := Option.map_eq_some_iff.mp interruptedYield_runs
  have hreach := reachable_of_commands (.init beforeTasks_start) hs
  exact ⟨s, hreach, hend, harmless_of_reachable hreach⟩

/-- A task exits, the timer comes before `pop edi`, and its interrupt yields. -/
def lateInterrupt : List (Command Bool) :=
  [.create false] ++ dispatchTask false 0x140fe8 ++ [.exit false] ++
    yieldTask false 0x100310 0x140f00 10 ++ [.timer] ++ yieldTask false 0x100500 0x123e80 9

/-- At `scheduler_context` is EFLAGS from the frame of the interrupt, where `schedule` has saved
its EBP. -/
theorem lateInterrupt_runs :
    (runActions (command twoTasks fun _ => True) lateInterrupt beforeTasks).map (fun s =>
      (s.on, decide (s.act = .restoring (s.saved none).call), s.cpu.regs.eip,
        [load s.cpu.mem 0x110000, s.cpu.regs.esp, load s.cpu.mem 0x123eec,
          (s.saved none).call.ebp])) =
      some (none, true, point 0x100000 9, [0x123eec, 0x123eec, 0x202, 0]) := by
  decide +kernel

/-- Behind `thread_exit` the words of `schedule` are damaged before they are popped again. -/
theorem not_harmless_of_reachable :
    ¬ ∀ s, (system twoTasks).Reachable s → Harmless twoTasks s := by
  intro h
  obtain ⟨s, hs, hend⟩ := Option.map_eq_some_iff.mp lateInterrupt_runs
  obtain ⟨hon, hend⟩ := Prod.mk.inj hend
  obtain ⟨hact, hend⟩ := Prod.mk.inj hend
  obtain ⟨heip, hend⟩ := Prod.mk.inj hend
  obtain ⟨-, hend⟩ := List.cons.inj hend
  obtain ⟨hesp, hend⟩ := List.cons.inj hend
  obtain ⟨hword, hend⟩ := List.cons.inj hend
  obtain ⟨hebp, -⟩ := List.cons.inj hend
  have hreach := reachable_of_commands (.init beforeTasks_start) hs
  have hwords := (h s hreach.of_restrict).popping _ 9 hon (of_decide_eq_true hact) heip (by decide)
  rw [hesp] at hwords
  -- the first word to be popped is the saved EBP
  have hfirst : load s.cpu.mem 0x123eec = (s.saved none).call.ebp := hwords.1
  rw [hword, hebp] at hfirst
  exact absurd hfirst (by decide)

end Switching

end Pelikan

end SystemsProjects
