import SystemsProjects.Pelikan.SwitchRuns

/-!
# Runs by command

Runs of the tasks that can be computed: each command is one of the steps, with all that the step
leaves open. The timer comes where a condition `P` allows it.

- `Command`, `command`: the state after the step, where the step may be taken.
- `timersWhen`, `TimerAt`: the runs whose timer interrupts meet a condition.
- `step_of_command`, `reachable_of_commands`: what the commands do is a run.

A run of the machine is long, since every instruction of `swtch` is a step. `command` is a
function, so that a run is a list and its result a value; what C code does between the calls is
given by the registers and the bytes that it leaves.
-/

namespace SystemsProjects

namespace Pelikan

namespace Switching

open ByteMemory TransitionSystem

section

variable {T : Type} {L : Layout T} {s : State T}

/-- Pushing arguments changes the own stack only. -/
theorem codeMem_args {a : Nat} {v w : BitVec 32} (hlo : L.lo s.on ≤ a)
    (hlimit : a + 8 ≤ limit L s.on s.outer) (hhi : limit L s.on s.outer ≤ L.hi s.on) :
    CodeMem L s (store (store s.cpu.mem a v) (a + 4) w) := by
  have hlt := L.hi_lt s.on
  have hagree : ∀ {lo hi}, hi ≤ a ∨ a + 8 ≤ lo →
      AgreeOn s.cpu.mem (store (store s.cpu.mem a v) (a + 4) w) lo hi := by
    intro lo hi hout
    exact (store_agreeOn v (by omega) (by omega)).trans (store_agreeOn w (by omega) (by omega))
  refine ⟨fun X _ hne => hagree ?_, fun X _ => hagree ?_, hagree (.inr hlimit)⟩
  · have hapart := L.stacks_apart X s.on hne
    omega
  · have hapart := L.cell_outside X s.on
    omega

end

/-- The steps. Of C code, it pushes the arguments for a call of `swtch`. -/
inductive Command (T : Type) where
  | args (eip esp old new : BitVec 32)
  | create (t : T)
  | exit (t : T)
  | yield (t : T) (ret : BitVec 32)
  | dispatch (next : T) (ret : BitVec 32)
  | instr
  | timer
  | isrReturn

section

variable {T : Type} [DecidableEq T] (L : Layout T) (P : State T → Prop) [DecidablePred P]

/-- The state behind a command, when its step may be taken. -/
def command (s : State T) : Command T → Option (State T)
  | .args eip esp old new =>
    if s.act = .code ∧ L.lo s.on ≤ esp.toNat ∧ esp.toNat + 8 ≤ limit L s.on s.outer ∧
        limit L s.on s.outer ≤ L.hi s.on then
      if (List.range 15).all (fun k => eip ≠ point L.swtch k) ∧
          (s.on = none ∨ s.outer ≠ [] → s.cpu.regs.interruptible = false) then
        some { s with
          cpu.regs.eip := eip
          cpu.regs.esp := esp
          cpu.mem := store (store s.cpu.mem esp.toNat old) (esp.toNat + 4) new }
      else none
    else none
  | .create t =>
    if s.act = .code ∧ t ∉ s.live ∧ s.currentTask ≠ some t then some (s.create L t) else none
  | .exit t =>
    if s.act = .code ∧ s.on = some t ∧ s.currentTask = some t then
      some { s with live := s.live.erase t }
    else none
  | .yield t ret =>
    if s.act = .code ∧ (s.on = none → s.outer ≠ []) ∧ s.currentTask = some t then
      if L.lo s.on + 24 ≤ s.cpu.regs.esp.toNat ∧
          s.cpu.regs.esp.toNat + 8 ≤ limit L s.on s.outer ∧
          load s.cpu.mem s.cpu.regs.esp.toNat = BitVec.ofNat 32 (L.task t) ∧
          load s.cpu.mem (s.cpu.regs.esp.toNat + 4) = load s.cpu.mem L.schedulerContext then
        some (s.enter L ret none)
      else none
    else none
  | .dispatch next ret =>
    if s.act = .code ∧ s.on = none ∧ s.outer = [] ∧ next ∈ s.live then
      if s.cpu.regs.esp.toNat = L.scheduleEsp + 4 ∧
          load s.cpu.mem s.cpu.regs.esp.toNat = BitVec.ofNat 32 L.schedulerContext ∧
          load s.cpu.mem (s.cpu.regs.esp.toNat + 4) = load s.cpu.mem (L.task next) then
        some { s.enter L ret (some next) with currentTask := some next }
      else none
    else none
  | .instr =>
    if s.act.inSwtch = true then (fetch L.swtch s.cpu.regs.eip).map s.after else none
  | .timer =>
    if s.cpu.regs.interruptible = true ∧ L.lo s.on + 60 ≤ s.cpu.regs.esp.toNat ∧ P s then
      some (s.interrupt L)
    else none
  | .isrReturn =>
    match s.outer with
    | [] => none
    | (i, a) :: outer =>
      if s.act = .returning then
        some { s with
          cpu := interruptReturn
            ⟨{ s.cpu.regs with esp := i.esp - 56, eip := L.isrReturn }, s.cpu.mem⟩
          act := a
          outer }
      else none

/-- The CPU is outside of `swtch`, or before an instruction `k` of it with `At k`. -/
def TimerAt (At : Nat → Prop) (s : State T) : Prop :=
  ∀ k < 15, s.cpu.regs.eip = point L.swtch k → At k

instance (At : Nat → Prop) [DecidablePred At] : DecidablePred (TimerAt L At) :=
  fun s => inferInstanceAs (Decidable (∀ k < 15, s.cpu.regs.eip = point L.swtch k → At k))

/-- The runs in which the timer comes where it may. -/
def timersWhen : TransitionSystem (State T) (Action T) :=
  (system L).restrict fun s a => a = .timer → P s

variable {L : Layout T} {P : State T → Prop} [DecidablePred P] {s s' : State T}

/-- A command is a step. -/
theorem step_of_command {c : Command T} (h : command L P s c = some s') :
    ∃ a, (timersWhen L P).Step s a s' := by
  cases c with
  | args eip esp old new =>
    simp only [command, Option.ite_none_right_eq_some] at h
    obtain ⟨⟨hact, hlo, hlimit, hhi⟩, ⟨hall, hquiet⟩, h⟩ := h
    obtain rfl := Option.some.inj h
    -- the range was searched, so `eip` is at no point of `swtch`
    have houtside : ∀ k < 15, eip ≠ point L.swtch k := fun k hk => by
      simpa using List.all_eq_true.mp hall k (List.mem_range.mpr hk)
    refine ⟨.code, nofun, .code hact ⟨hlo, ?_, houtside, hquiet⟩ (codeMem_args hlo hlimit hhi)⟩
    exact Nat.le_trans (Nat.le_add_right ..) hlimit
  | create t =>
    simp only [command, Option.ite_none_right_eq_some] at h
    obtain ⟨⟨hact, hnew, hother⟩, h⟩ := h
    obtain rfl := Option.some.inj h
    exact ⟨.create t, nofun, .create hact hnew hother⟩
  | exit t =>
    simp only [command, Option.ite_none_right_eq_some] at h
    obtain ⟨⟨hact, hon, hcurrent⟩, h⟩ := h
    obtain rfl := Option.some.inj h
    exact ⟨.exit, nofun, .exit hact hon hcurrent⟩
  | yield t ret =>
    simp only [command, Option.ite_none_right_eq_some] at h
    obtain ⟨⟨hact, htask, hcurrent⟩, ⟨hroom, hfits, hold, hnew⟩, h⟩ := h
    obtain rfl := Option.some.inj h
    exact ⟨.yield, nofun, .yield hact htask hcurrent hroom hfits ⟨hold, hnew, trivial⟩⟩
  | dispatch next ret =>
    simp only [command, Option.ite_none_right_eq_some] at h
    obtain ⟨⟨hact, hon, houter, hlive⟩, ⟨hesp, hold, hnew⟩, h⟩ := h
    obtain rfl := Option.some.inj h
    exact ⟨.dispatch next, nofun, .dispatch hact hon houter hlive hesp ⟨hold, hnew, trivial⟩⟩
  | instr =>
    simp only [command, Option.ite_none_right_eq_some, Option.map_eq_some_iff] at h
    obtain ⟨hact, i, hi, rfl⟩ := h
    exact ⟨.instr, nofun, .instr hact hi⟩
  | timer =>
    simp only [command, Option.ite_none_right_eq_some] at h
    obtain ⟨⟨hif, hroom, hP⟩, h⟩ := h
    obtain rfl := Option.some.inj h
    exact ⟨.timer, fun _ => hP, .timer hif hroom⟩
  | isrReturn =>
    simp only [command] at h
    split at h
    · cases h
    · next i a outer houter =>
      obtain ⟨hact, h⟩ := Option.ite_none_right_eq_some.mp h
      obtain rfl := Option.some.inj h
      exact ⟨.isrReturn, nofun, .isrReturn hact houter rfl rfl⟩

theorem reachable_of_commands {cs : List (Command T)} (h : (timersWhen L P).Reachable s)
    (hrun : runActions (command L P) cs s = some s') : (timersWhen L P).Reachable s' :=
  h.runActions (fun _ _ _ => step_of_command) hrun

end

end Switching

end Pelikan

end SystemsProjects
