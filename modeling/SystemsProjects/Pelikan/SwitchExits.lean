import SystemsProjects.Pelikan.SwitchRuns

/-!
# Interrupts behind `thread_exit`

`thread_exit` calls `swtch` with the flags of the task, so that the timer can come when the CPU is
on the boot stack already. Before `pop ebp` this does no harm: nothing has been popped yet, the
frame of the interrupt goes below the words of `schedule`, and the `yield` in the interrupt saves
the stack pointer of a dead task, which nobody reads. Then the words are popped for the first time.

- `Lingering`: the dead task in such an interrupt.
- `Lingering.step`: it stays there until `mov esp, eax` of the second call, behind which all is as
  if there had been no interrupt.

The two facts that this rests on: `schedule` waits with all four registers and its flags on the
boot stack, at the words `Parked.above` speaks of, and the task that has called `thread_exit` is
never dispatched again, so what is saved for it is read by nobody. From `pop edi` on the first
one fails, and the counterexample of `Transparency` begins there.
-/

namespace SystemsProjects

namespace Pelikan

namespace Switching

open ByteMemory

section

variable {T : Type} (L : Layout T) (At : Nat → Prop)

/-- What the dead task `t` is doing in the interrupt. -/
inductive LingerPhase (s : State T) (t : T) : Act T → Prop where
  | code (hlo : L.bootBottom ≤ s.cpu.regs.esp.toNat)
      (hlimit : s.cpu.regs.esp.toNat ≤ limit L none s.outer)
      (hoff : s.cpu.regs.interruptible = false) : LingerPhase s t .code
  | saving {c : Regs} {k : Nat} {newEsp : BitVec 32}
      (hat : Saving L.swtch (L.lo none) (limit L none s.outer) (BitVec.ofNat 32 (L.cell (some t)))
        newEsp c k s.cpu)
      (hnew : newEsp.toNat + 20 = (s.saved none).call.esp.toNat)
      (hoff : c.interruptible = false) : LingerPhase s t (.saving c none)

/-- The task `t` has died. It was interrupted on the boot stack, before the first word of
`schedule` was popped. -/
structure Lingering (s : State T) (t : T) : Prop where
  on : s.on = none
  current : s.currentTask = some t
  dead : t ∉ s.live
  frame : ∃ r a, s.outer = [(r, a)] ∧ L.bootBottom + 60 ≤ r.esp.toNat ∧
    r.esp.toNat + 20 = (s.saved none).call.esp.toNat
  parked : ∀ X, s.Alive X → Parked L At s.cpu.mem X (s.saved X)
  phase : LingerPhase L s t s.act

end

section

variable {T : Type} {L : Layout T} {At : Nat → Prop} {s s' : State T} {t : T} {m m' : ByteMemory}
  {p : Suspended T} {X : Option T} {i : Instr}

/-- Of the boot stack `schedule` needs its own words only. -/
theorem Parked.above (h : Parked L At m none p)
    (hcell : AgreeOn m m' (L.cell none) (L.cell none + 4))
    (hm : AgreeOn m m' (p.call.esp.toNat - 20) (L.hi none)) : Parked L At m' none p := by
  have hle := h.outer.limit_le
  have hroom := h.room
  have hfits := h.fits
  have hhi := L.hi_lt none
  have hlen : (savedWords p.call).length = 6 := rfl
  refine { h with
    esp := by rw [load_congr (L.cell_le none) hcell]; exact h.esp
    words := h.words.congr (by omega) (hm.mono (Nat.le_refl _) (by omega))
    outer := ?_ }
  rw [h.outer.eq_nil]
  trivial

/-- The frame of the interrupt is below the words of `schedule`. -/
theorem Lingering.limit_le (h : Lingering L At s t) :
    L.bootBottom + 8 ≤ limit L none s.outer ∧
      limit L none s.outer + 72 = (s.saved none).call.esp.toNat ∧
      limit L none s.outer + 76 ≤ L.bootTop := by
  obtain ⟨r, a, houter, hroom, hesp⟩ := h.frame
  have hnone := h.parked none trivial
  have hfits := hnone.fits
  rw [hnone.outer.eq_nil] at hfits
  have hfits : (s.saved none).call.esp.toNat + 4 ≤ L.bootTop := hfits
  have hlimit : limit L none s.outer = r.esp.toNat - 52 := by rw [houter]; rfl
  omega

/-- The dead task writes below the frame. -/
theorem Lingering.write (h : Lingering L At s t)
    (hm : ∀ lo hi, hi ≤ L.bootBottom ∨ limit L none s.outer ≤ lo → AgreeOn s.cpu.mem m lo hi) :
    ∀ X, s.Alive X → Parked L At m X (s.saved X) := by
  obtain ⟨-, hwords, htop⟩ := h.limit_le
  have hlo : L.lo none = L.bootBottom := rfl
  have hhi : L.hi none = L.bootTop := rfl
  intro X halive
  by_cases hX : X = none
  · subst hX
    have hcell := L.cell_outside none none
    exact (h.parked none trivial).above (hm _ _ (by omega)) (hm _ _ (by omega))
  · exact (h.parked X halive).other hX fun lo hi hout => hm lo hi (by omega)

/-- The handler of the late interrupt stays below its frame. -/
theorem Lingering.code {r : Regs} (h : Lingering L At s t) (hact : s.act = .code)
    (hregs : CodeRegs L s r) (hmem : CodeMem L s m) :
    Lingering L At { s with cpu := ⟨r, m⟩ } t := by
  have hon := h.on
  obtain ⟨-, hwords, -⟩ := h.limit_le
  obtain ⟨hlo, hlimit, -, hquiet⟩ := hregs
  obtain ⟨hothers, hcells, hframes⟩ := hmem
  rw [hon] at hlo hlimit hframes
  refine ⟨hon, h.current, h.dead, h.frame, fun X halive => ?_, ?_⟩
  · by_cases hX : X = none
    · subst hX
      exact (h.parked none trivial).above (hcells none trivial)
        (hframes.mono (by omega) (Nat.le_refl _))
    · exact (h.parked X halive).congr (hcells X halive) (hothers X halive (by rwa [hon]))
  · show LingerPhase L _ t s.act
    rw [hact]
    exact .code hlo hlimit (hquiet (.inl hon))

/-- A task that is born writes to a stack of its own. -/
theorem Lingering.create [DecidableEq T] {u : T} (h : Lingering L At s t) (hact : s.act = .code)
    (hother : s.currentTask ≠ some u) : Lingering L At (s.create L u) t := by
  have hphase := h.phase
  rw [hact] at hphase
  -- a new task is not at the address of the current one
  have htu : t ≠ u := by
    rintro rfl
    exact hother h.current
  refine ⟨h.on, h.current, ?_, ?_, fun X halive => ?_, ?_⟩
  · show t ∉ insert u s.live
    rw [Finset.mem_insert]
    exact not_or.mpr ⟨htu, h.dead⟩
  · exact h.frame
  · show Parked L At (createStack L s.cpu.mem u) X (Function.update s.saved (some u) _ X)
    by_cases hX : X = some u
    · subst hX
      rw [Function.update_self]
      exact createStack_parked L s.cpu.mem u
    · rw [Function.update_of_ne hX]
      have halive' : s.Alive X := by
        cases X with
        | none => trivial
        | some v => exact Finset.mem_of_mem_insert_of_ne halive fun hv => hX (congrArg some hv)
      refine (h.parked X halive').congr (createStack_apart L _ u ?_ ?_)
        (createStack_apart L _ u ?_ ?_)
      · exact L.cell_outside X (some u)
      · exact L.cells_apart X (some u) hX
      · exact L.stacks_apart X (some u) hX
      · exact (L.cell_outside (some u) X).symm
  · show LingerPhase L _ t s.act
    rw [hact]
    cases hphase with
    | code hlo hlimit hoff => exact .code hlo hlimit hoff

/-- The `yield` of the interrupt. -/
theorem Lingering.yield {ret : BitVec 32} (h : Lingering L At s t) (hact : s.act = .code)
    (hroom : L.lo s.on + 24 ≤ s.cpu.regs.esp.toNat)
    (hfits : s.cpu.regs.esp.toNat + 8 ≤ limit L s.on s.outer)
    (hargs : Words s.cpu.mem s.cpu.regs.esp.toNat
      [BitVec.ofNat 32 (L.task t), load s.cpu.mem L.schedulerContext]) :
    Lingering L At (s.enter L ret none) t := by
  have hphase := h.phase
  have htop := L.hi_lt none
  obtain ⟨-, -, hle⟩ := h.limit_le
  have hhi : L.hi none = L.bootTop := rfl
  rw [hact] at hphase
  rw [h.on] at hroom hfits
  obtain ⟨hat, -, hapart⟩ := @Saving.enter L.swtch ret _ _ _ _ _ hroom hfits (by omega) hargs
  cases hphase with
  | code hlo hlimit hoff =>
    exact ⟨h.on, h.current, h.dead, h.frame, h.write hapart,
      .saving hat (h.parked none trivial).esp hoff⟩

variable [DecidableEq T]

/-- An instruction that leaves to the CPU what it does, in the first half of the call. -/
theorem Lingering.plain {c : Regs} {newEsp : BitVec 32} {j k : Nat} (h : Lingering L At s t)
    (hi : swtch[k]? = some i) (h6 : k ≠ 6) (h8 : k ≠ 8) (h14 : k ≠ 14)
    (hact : s.act = .saving c none)
    (hat : Saving L.swtch (L.lo none) (limit L none s.outer) (BitVec.ofNat 32 (L.cell (some t)))
      newEsp c j (s.cpu.exec i))
    (hm : ∀ lo hi, hi ≤ L.bootBottom ∨ limit L none s.outer ≤ lo →
      AgreeOn s.cpu.mem (s.cpu.exec i).mem lo hi)
    (hnew : newEsp.toNat + 20 = (s.saved none).call.esp.toNat) (hoff : c.interruptible = false) :
    Lingering L At (s.after i) t := by
  rw [after_of_plain hi h6 h8 h14]
  refine ⟨h.on, h.current, h.dead, h.frame, h.write hm, ?_⟩
  show LingerPhase L _ t s.act
  rw [hact]
  exact .saving hat hnew hoff

/-- `mov [eax], esp` goes to the record of the dead task. -/
theorem Lingering.storeEsp {c : Regs} {newEsp : BitVec 32} (h : Lingering L At s t)
    (hact : s.act = .saving c none)
    (hat : Saving L.swtch (L.lo none) (limit L none s.outer) (BitVec.ofNat 32 (L.cell (some t)))
      newEsp c 6 s.cpu)
    (hnew : newEsp.toNat + 20 = (s.saved none).call.esp.toNat) (hoff : c.interruptible = false) :
    Lingering L At (s.after .movStoreEsp) t := by
  have htop := L.hi_lt none
  obtain ⟨-, -, hle⟩ := h.limit_le
  have hhi : L.hi none = L.bootTop := rfl
  have hcell := L.cell_toNat (some t)
  have hin := L.cell_le (some t)
  have hout := L.cell_outside (some t) none
  obtain ⟨hat', hmem⟩ := hat.storeEsp (by omega) (by omega) (by omega)
  rw [hcell] at hmem
  have hafter : s.after .movStoreEsp = { s with
      cpu := s.cpu.exec .movStoreEsp
      saved := Function.update s.saved (some t) ⟨c, s.outer⟩ } := by
    unfold State.after
    rw [hact, ← h.current]
    rfl
  -- only the cell of the dead task is written
  have hapart : ∀ lo hi, hi ≤ L.cell (some t) ∨ L.cell (some t) + 4 ≤ lo →
      AgreeOn s.cpu.mem (s.cpu.exec .movStoreEsp).mem lo hi := by
    intro lo hi hlohi
    rw [hmem]
    exact store_agreeOn _ hin hlohi
  rw [hafter]
  refine ⟨h.on, h.current, h.dead, h.frame, fun X halive => ?_, ?_⟩
  · -- a thread that is alive is not the dead task
    have hX : X ≠ some t := by
      rintro rfl
      exact h.dead halive
    show Parked L At _ X (Function.update s.saved (some t) _ X)
    rw [Function.update_of_ne hX]
    refine (h.parked X halive).congr (hapart _ _ (L.cells_apart X (some t) hX)) (hapart _ _ ?_)
    exact (L.cell_outside (some t) X).symm
  · show LingerPhase L _ t s.act
    rw [hact]
    exact .saving hat' hnew hoff

/-- `mov esp, eax`: back at the words of `schedule`, none of which has been popped. -/
theorem Lingering.moveEsp {c : Regs} {newEsp : BitVec 32} (h : Lingering L At s t) (h14 : At 14)
    (hact : s.act = .saving c none)
    (hat : Saving L.swtch (L.lo none) (limit L none s.outer) (BitVec.ofNat 32 (L.cell (some t)))
      newEsp c 8 s.cpu)
    (hnew : newEsp.toNat + 20 = (s.saved none).call.esp.toNat) :
    Invariant L At (s.after .movEspEax) := by
  have hnone := h.parked none trivial
  have hafter : s.after .movEspEax = { s with
      cpu := s.cpu.exec .movEspEax
      on := none
      act := .restoring (s.saved none).call
      outer := (s.saved none).outer } := by
    unfold State.after
    rw [hact]
  rw [hafter]
  refine ⟨fun X halive _ => h.parked X halive, nofun, hnone.outer, ?_, fun hAt => absurd h14 hAt⟩
  exact .restoring (hat.moveEsp hnone.room hnone.fits hnew hnone.words) hnone.quiet
    (fun _ => hnone) fun _ => rfl

/-- An instruction of the `swtch` that the handler comes to: the dead task lingers on, or the last
one has brought the scheduler back. -/
theorem Lingering.instr (h : Lingering L At s t) (h14 : At 14) (hact : s.act.inSwtch = true)
    (hi : fetch L.swtch s.cpu.regs.eip = some i) :
    Invariant L At (s.after i) ∨ Lingering L At (s.after i) t := by
  have htop := L.hi_lt none
  obtain ⟨-, -, hle⟩ := h.limit_le
  have hhi : L.hi none = L.bootTop := rfl
  have hphase := h.phase
  cases ha : s.act with
  | code | returning =>
    rw [ha] at hact
    cases hact
  | restoring c =>
    rw [ha] at hphase
    cases hphase
  | saving c dest =>
    rw [ha] at hphase
    cases hphase with
    | @saving _ k newEsp hat hnew hoff =>
      have hbound := hat.bound
      rw [hat.eip, fetch_point (by omega)] at hi
      -- only the half that saves is left, since the scheduler is switched to
      have hcases : k < 5 ∨ k = 5 ∨ k = 6 ∨ k = 7 ∨ k = 8 := by omega
      rcases hcases with hk | rfl | rfl | rfl | rfl
      · obtain ⟨hat', hapart⟩ := hat.push hk hi (by omega)
        exact .inr (h.plain hi (by omega) (by omega) (by omega) ha hat' hapart hnew hoff)
      · obtain rfl := Option.some.inj hi
        exact .inr (h.plain (k := 5) rfl (by omega) (by omega) (by omega) ha
          (hat.loadTarget (by omega)) (fun lo hi _ => AgreeOn.refl _ lo hi) hnew hoff)
      · obtain rfl := Option.some.inj hi
        exact .inr (h.storeEsp ha hat hnew hoff)
      · obtain rfl := Option.some.inj hi
        exact .inr (h.plain (k := 7) rfl (by omega) (by omega) (by omega) ha
          (hat.loadSource (by omega)) (fun lo hi _ => AgreeOn.refl _ lo hi) hnew hoff)
      · obtain rfl := Option.some.inj hi
        exact .inl (h.moveEsp h14 ha hat hnew)

omit [DecidableEq T] in
/-- Interrupts are off in the interrupt. -/
theorem Lingering.quiet (h : Lingering L At s t) : s.cpu.regs.interruptible = false := by
  have hphase := h.phase
  generalize s.act = a at hphase
  cases hphase with
  | code hlo hlimit hoff => exact hoff
  | saving hat hnew hoff => exact (congrArg (fun v => v.getLsbD 9) hat.eflags).trans hoff

/-- The way through the interrupt. -/
theorem Lingering.step {a : Action T} (h : Lingering L At s t) (h14 : At 14)
    (hstep : Step L s a s') : Invariant L At s' ∨ Lingering L At s' t := by
  cases hstep with
  | code hact hregs hmem => exact .inr (h.code hact hregs hmem)
  | create hact hnew hother => exact .inr (h.create hact hother)
  | exit hact hon hcurrent => exact absurd (h.on.symm.trans hon) (by simp)
  | yield hact htask hcurrent hroom hfits hargs =>
    obtain rfl := Option.some.inj (h.current.symm.trans hcurrent)
    exact .inr (h.yield hact hroom hfits hargs)
  | dispatch hact hon houter hlive hesp hargs =>
    obtain ⟨r, a, hframe, -⟩ := h.frame
    exact absurd (hframe.symm.trans houter) (by simp)
  | instr hact hi => exact h.instr h14 hact hi
  | timer hif hroom => exact absurd (h.quiet.symm.trans hif) (by simp)
  | isrReturn hact houter hesp heip =>
    have hphase := h.phase
    rw [hact] at hphase
    cases hphase

omit [DecidableEq T] in
/-- The timer comes before `pop ebp`, on the way from a dead task to the scheduler. -/
theorem Invariant.linger (h : Invariant L At s) (hon : s.on = none)
    (heip : s.cpu.regs.eip = point L.swtch 9) (hcurrent : s.currentTask = some t)
    (hdead : t ∉ s.live) (hif : s.cpu.regs.interruptible = true)
    (hroom : L.lo s.on + 60 ≤ s.cpu.regs.esp.toNat) : Lingering L At (s.interrupt L) t := by
  have hphase := h.phase
  generalize ha : s.act = a at hphase
  cases hphase with
  | code hlo hlimit hquiet => exact absurd ((hquiet (.inl hon)).symm.trans hif) (by simp)
  | returning houter hoff hparked => exact absurd (hoff.symm.trans hif) (by simp)
  | @saving c dest k newEsp hat hne halive hnew hback hnext hschedule hquiet hparked =>
    -- point 9 lies behind the half that saves
    have hbound := hat.bound
    have hk := point_injective (by omega) (by omega) (hat.eip.symm.trans heip)
    omega
  | @restoring c k hat hquiet hparked hown =>
    have hbound := hat.bound
    -- nothing has been popped yet: the five words and the return address are all above `esp`
    obtain rfl := point_injective (by omega) (by omega) (hat.eip.symm.trans heip)
    have hnone := hparked (.inl hon)
    have hsaved := hown (.inr hon)
    have houter := h.outer
    rw [hon] at hnone hsaved houter hroom
    have hesp : s.cpu.regs.esp.toNat + 20 = (s.saved none).call.esp.toNat := by
      rw [hsaved]
      exact hat.esp
    have hfits := hnone.fits
    rw [hnone.outer.eq_nil] at hfits
    have hfits : (s.saved none).call.esp.toNat + 4 ≤ L.hi none := hfits
    obtain ⟨htop, -, hapart⟩ := @interruptEntry_frame L.cs L.isrHandler L.isrReturn s.cpu (by omega)
    have hoff := @interruptEntry_interruptible L.cs L.isrHandler L.isrReturn s.cpu
    unfold State.interrupt
    rw [houter.eq_nil]
    generalize interruptEntry L.cs L.isrHandler L.isrReturn s.cpu = cpu at *
    have hcell := L.cell_outside none none
    have hlo : L.lo none = L.bootBottom := rfl
    refine ⟨hon, hcurrent, hdead, ⟨s.cpu.regs, s.act, rfl, hroom, hesp⟩, fun X halive => ?_, ?_⟩
    · -- of the scheduler only what lies above is kept, of the others all
      by_cases hX : X = none
      · subst hX
        exact hnone.above (hapart _ _ (by omega)) (hapart _ _ (by omega))
      · exact (h.parked X halive (by rwa [hon])).other hX fun lo hi hout =>
          hapart lo hi (by omega)
    · refine .code ?_ ?_ hoff
      · show L.bootBottom ≤ cpu.regs.esp.toNat
        omega
      · show cpu.regs.esp.toNat ≤ s.cpu.regs.esp.toNat - 52
        omega

end

end Switching

end Pelikan

end SystemsProjects
