import SystemsProjects.Pelikan.SwitchInvariant

/-!
# Runs with context switches

The steps that change the stack, or put something on it: the instructions of `swtch`, the timer
interrupt and the return from it.

- `Invariant.saving`, `Invariant.restoring`: the two halves of a call.
- `Invariant.interrupted`: what can be interrupted is a task that can go on later.
- `Invariant.timer`, `Invariant.isrReturn`: the way into an interrupt and out of it.
- `invariant_of_reachable`: the invariant, on every run.

Behind `mov [eax], esp` the thread counts as parked although the CPU is still on its stack, and
behind `mov esp, eax` the CPU is on the other stack. Between these two the invariant has both in
view; the flags are those of the thread that has called until `popf`, and that is why `At`
leaves out the points in between.
-/

namespace SystemsProjects

namespace Pelikan

namespace Switching

open ByteMemory

section

variable {T : Type} {L : Layout T} {At : Nat → Prop} {s : State T} {c : Regs}

/-! ## Interrupts -/

/-- A thread that can be interrupted is a task, in no interrupt, and in a place from which it can
go on. -/
theorem Invariant.interrupted (h : Invariant L At s) (hAt : ∀ k, At k → k ≤ 8 ∨ k = 14)
    (hif : s.cpu.regs.interruptible = true) (htimer : TimersAt L At s .timer) :
    ¬ s.Quiet ∧ s.cpu.regs.esp.toNat ≤ L.hi s.on ∧ Interrupted L At s.on s.act s.cpu := by
  have hle := h.outer.limit_le
  have hon : ¬ s.Quiet → s.on ≠ none := fun hq hnone => hq (.inl hnone)
  have hlimit : ¬ s.Quiet → limit L s.on s.outer = L.hi s.on := fun hq => by
    have houter : s.outer = [] := not_not.mp fun hne => hq (.inr hne)
    rw [houter]
    rfl
  have hphase := h.phase
  generalize s.act = a at hphase ⊢
  cases hphase with
  | code hlo hlim hquiet =>
    have hq : ¬ s.Quiet := fun hq => Bool.noConfusion (hif.symm.trans (hquiet hq))
    exact ⟨hq, by omega, trivial⟩
  | @saving c dest k newEsp hat hne halive hnew hback hnext hschedule hquiet hparked =>
    -- in the first half the flags are still those of the call
    have hflags : s.cpu.regs.interruptible = c.interruptible :=
      congrArg (fun v => v.getLsbD 9) hat.eflags
    have hq : ¬ s.Quiet := fun hq =>
      Bool.noConfusion (hif.symm.trans (hflags.trans (hquiet hq)))
    have hbound := hat.bound
    have hesp := hat.esp
    have hfits := hat.fits
    have hk := htimer rfl k (by omega) hat.eip
    obtain rfl := hback (hon hq)
    have hschedule' := (h.parked none trivial (hon hq).symm).schedule rfl
    rw [hlimit hq] at hat
    exact ⟨hq, by omega, rfl, k, newEsp, hk, hnew.trans hschedule', hat⟩
  | @restoring c k hat hquiet hparked hown =>
    have hbound := hat.bound
    have hstart := hat.start
    have hk := htimer rfl k (by omega) hat.eip
    -- the five instructions before have the flags of another thread
    obtain rfl : k = 14 := by
      have hcases := hAt k hk
      omega
    have hflags : s.cpu.regs.interruptible = c.interruptible :=
      congrArg (fun v => v.getLsbD 9) (hat.eflags (Nat.le_refl _))
    have hq : ¬ s.Quiet := fun hq =>
      Bool.noConfusion (hif.symm.trans (hflags.trans (hquiet hq)))
    have hesp := hat.esp
    have hfits := hat.fits
    rw [hlimit hq] at hat
    exact ⟨hq, by omega, hk, hat⟩
  | returning houter hoff hparked => exact absurd (hif.symm.trans hoff) nofun

/-- The registers are those of the interrupt, and the thread goes on where it was. -/
theorem Invariant.isrReturn {r j : Regs} {a : Act T} {rest : List (Interrupt T)}
    (h : Invariant L At s) (hact : s.act = .returning) (houter : s.outer = (j, a) :: rest)
    (hesp : r.esp = j.esp - 56) :
    interruptReturn ⟨r, s.cpu.mem⟩ = ⟨j, s.cpu.mem⟩ ∧
      Invariant L At { s with cpu := interruptReturn ⟨r, s.cpu.mem⟩, act := a, outer := rest } := by
  have hframes := h.outer
  rw [houter] at hframes
  obtain rfl : rest = [] := by
    cases rest with
    | nil => rfl
    | cons f rest => exact hframes.elim
  obtain ⟨htask, hroom, hle, hframe, hdoing⟩ := hframes
  -- `iret` pops the frame that the interrupt pushed
  have hregs : interruptReturn ⟨r, s.cpu.mem⟩ = ⟨j, s.cpu.mem⟩ :=
    interruptReturn_frame (s := ⟨r, s.cpu.mem⟩) (by dsimp only at hroom; omega) hesp hframe
  have hphase := h.phase
  rw [hact] at hphase
  cases hphase with
  | returning _ hoff hparked =>
    refine ⟨hregs, ?_⟩
    rw [hregs]
    have hq : ¬ (s.on = none ∨ ([] : List (Interrupt T)) ≠ []) := by
      rintro (hnone | hne)
      · exact htask hnone
      · exact hne rfl
    refine ⟨h.parked, h.current, trivial, ?_, fun hAt t ht => ?_⟩
    · -- what was interrupted goes on where it was
      cases a with
      | code => exact .code (by dsimp only at hroom ⊢; omega) hle fun hq' => absurd hq' hq
      | saving c dest =>
        obtain ⟨rfl, k, newEsp, hk, hnew, hat⟩ := hdoing
        have hschedule := (h.parked none trivial htask.symm).schedule rfl
        exact .saving hat htask.symm trivial (hnew.trans hschedule.symm) (fun _ => rfl) nofun
          (fun hnone => absurd hnone htask) (fun hq' => absurd hq' hq) fun _ => hparked
      | restoring c =>
        obtain ⟨hAt, hat⟩ := hdoing
        exact .restoring hat (fun hq' => absurd hq' hq) (fun hq' => absurd hq' hq)
          fun hown => absurd hown (not_or_intro (not_not_intro hAt) htask)
      | returning => exact hdoing.elim
    · obtain ⟨hsaved, hentering⟩ := h.fresh hAt t ht
      refine ⟨hsaved, fun hon => ?_⟩
      obtain ⟨c, hc⟩ := hentering hon
      rw [hact] at hc
      cases hc

theorem Start.invariant (h : Start L s) : Invariant L At s where
  parked X halive hne := by
    cases X with
    | none => exact absurd h.on.symm hne
    | some t =>
      have hlive : t ∈ s.live := halive
      rw [h.live] at hlive
      exact absurd hlive (Finset.notMem_empty t)
  current t hon := by
    rw [h.on] at hon
    cases hon
  outer := by
    rw [h.outer]
    trivial
  phase := by
    rw [h.act]
    refine .code ?_ ?_ fun _ => h.quiet
    · rw [h.on]
      exact h.lo_le
    · rw [h.on, h.outer]
      exact h.le_hi
  fresh _ t ht := by
    rw [h.fresh] at ht
    exact absurd ht (Finset.notMem_empty t)

/-- The frame is put on the stack of the task. -/
theorem Invariant.timer (h : Invariant L At s) (hAt : ∀ k, At k → k ≤ 8 ∨ k = 14)
    (hif : s.cpu.regs.interruptible = true) (hroom : L.lo s.on + 60 ≤ s.cpu.regs.esp.toNat)
    (htimer : TimersAt L At s .timer) : Invariant L At (s.interrupt L) := by
  obtain ⟨hq, hle, hdoing⟩ := h.interrupted hAt hif htimer
  have houter : s.outer = [] := not_not.mp fun hne => hq (.inr hne)
  obtain ⟨hesp, hframe, hapart⟩ := @interruptEntry_frame L.cs L.isrHandler L.isrReturn s.cpu
    (by omega)
  have hoff := @interruptEntry_interruptible L.cs L.isrHandler L.isrReturn s.cpu
  unfold State.interrupt
  rw [houter]
  generalize interruptEntry L.cs L.isrHandler L.isrReturn s.cpu = cpu at *
  have hframed : Framed L At cpu.mem s.on (s.cpu.regs, s.act) :=
    ⟨fun hnone => hq (.inl hnone), hroom, hle, hframe,
      hdoing.congr (hapart _ _ (.inl (Nat.le_refl _)))⟩
  refine ⟨fun X halive hne => ?_, h.current, hframed, ?_, fun hAt' t ht => ?_⟩
  · have hout : ∀ lo hi, hi ≤ L.lo s.on ∨ L.hi s.on ≤ lo → AgreeOn s.cpu.mem cpu.mem lo hi :=
      fun lo hi hlohi => hapart lo hi (by omega)
    exact (h.parked X halive hne).other hne hout
  · refine .code ?_ ?_ fun _ => hoff
    · show L.lo s.on ≤ cpu.regs.esp.toNat
      omega
    · show cpu.regs.esp.toNat ≤ s.cpu.regs.esp.toNat - 52
      omega
  · obtain ⟨hsaved, hentering⟩ := h.fresh hAt' t ht
    refine ⟨hsaved, fun hon => ?_⟩
    obtain ⟨c, hact⟩ := hentering hon
    rw [hact] at hdoing
    exact absurd hdoing.1 hAt'

/-! ## The instructions of `swtch` -/

variable [DecidableEq T] {i : Instr} {k : Nat}

/-- All but three instructions leave to the CPU what they do. -/
theorem after_of_plain (hi : swtch[k]? = some i) (h6 : k ≠ 6) (h8 : k ≠ 8) (h14 : k ≠ 14) :
    s.after i = { s with cpu := s.cpu.exec i } := by
  have hlt : k < 15 := (List.getElem?_eq_some_iff.mp hi).1
  have hstore : ∀ k < 15, swtch[k]? = some .movStoreEsp → k = 6 := by decide
  have hmove : ∀ k < 15, swtch[k]? = some .movEspEax → k = 8 := by decide
  have hret : ∀ k < 15, swtch[k]? = some .ret → k = 14 := by decide
  cases i with
  | movStoreEsp => exact absurd (hstore k hlt hi) h6
  | movEspEax => exact absurd (hmove k hlt hi) h8
  | ret => exact absurd (hret k hlt hi) h14
  | _ => rfl

omit [DecidableEq T] in
/-- A call saves the stack pointer of the thread that makes it. -/
theorem Invariant.saver_eq {dest : Option T} (h : Invariant L At s) (hne : dest ≠ s.on)
    (hback : s.on ≠ none → dest = none) : s.saver dest = s.on := by
  cases dest with
  | none =>
    obtain ⟨t, hon⟩ := Option.ne_none_iff_exists'.mp (Ne.symm hne)
    exact (h.current t hon).trans hon.symm
  | some u =>
    by_contra hon
    exact absurd (hback (Ne.symm hon)) nofun

/-- `mov [eax], esp`: the call is parked, on the stack that it is still on. -/
theorem Invariant.storeEsp {dest : Option T} {newEsp : BitVec 32} (h : Invariant L At s)
    (hact : s.act = .saving c dest)
    (hat : Saving L.swtch (L.lo s.on) (limit L s.on s.outer) (BitVec.ofNat 32 (L.cell s.on))
      newEsp c 6 s.cpu)
    (hne : dest ≠ s.on) (halive : s.Alive dest)
    (hnew : newEsp.toNat + 20 = (s.saved dest).call.esp.toNat)
    (hback : s.on ≠ none → dest = none) (hnext : ∀ t, dest = some t → s.currentTask = some t)
    (hschedule : s.on = none → c.esp.toNat = L.scheduleEsp)
    (hquiet : s.Quiet → c.interruptible = false) : Invariant L At (s.after .movStoreEsp) := by
  have hle := h.outer.limit_le
  have hhi := L.hi_lt s.on
  have hcell := L.cell_toNat s.on
  have hin := L.cell_le s.on
  have hout := L.cell_outside s.on s.on
  obtain ⟨hat', hmem⟩ := hat.storeEsp (by omega) (by omega) (by omega)
  rw [hcell] at hmem
  -- the instruction writes its own four bytes and nothing else
  have hapart : ∀ lo hi, hi ≤ L.cell s.on ∨ L.cell s.on + 4 ≤ lo →
      AgreeOn s.cpu.mem (s.cpu.exec .movStoreEsp).mem lo hi := by
    intro lo hi hlohi
    rw [hmem]
    exact store_agreeOn _ hin hlohi
  have hafter : s.after .movStoreEsp = { s with
      cpu := s.cpu.exec .movStoreEsp
      saved := Function.update s.saved s.on ⟨c, s.outer⟩ } := by
    unfold State.after
    rw [hact, ← h.saver_eq hne hback]
  have houter : Outer L At (s.cpu.exec .movStoreEsp).mem s.on s.outer :=
    h.outer.congr_stack (hapart _ _ (by omega))
  rw [hafter]
  refine ⟨fun X halive hX => ?_, h.current, houter, ?_, fun hAt t ht => ?_⟩
  · -- of the others neither the cell nor the stack is written
    show Parked L At _ X (Function.update s.saved s.on _ X)
    rw [Function.update_of_ne hX]
    refine (h.parked X halive hX).congr (hapart _ _ (L.cells_apart X s.on hX)) (hapart _ _ ?_)
    exact (L.cell_outside s.on X).symm
  · show Phase L At _ s.act
    rw [hact]
    refine .saving hat' hne halive ?_ hback hnext hschedule hquiet fun _ => ?_
    · show _ = ((Function.update s.saved s.on _) dest).call.esp.toNat
      rw [Function.update_of_ne hne]
      exact hnew
    · show Parked L At _ s.on (Function.update s.saved s.on _ s.on)
      rw [Function.update_self]
      have hesp := hat.esp
      have hwords := hat.words
      have hroom := hat.room
      have hfits := hat.fits
      have haddr : c.esp.toNat - 20 = s.cpu.regs.esp.toNat := by omega
      refine ⟨?_, hat.room, ?_, ?_, houter, hquiet, hschedule⟩
      · rw [hmem, load_store]
        show s.cpu.regs.esp.toNat + 20 = c.esp.toNat
        omega
      · show c.esp.toNat + 4 ≤ limit L s.on s.outer
        omega
      · show Words _ (c.esp.toNat - 20) (savedWords c)
        have hlen : (savedWords c).length = 6 := rfl
        rw [haddr]
        have hsaved : Words s.cpu.mem s.cpu.regs.esp.toNat
          (savedWords c ++ [BitVec.ofNat 32 (L.cell s.on), newEsp]) := hwords
        exact (Words.append.mp hsaved).1.congr (by omega) (hapart _ _ (by omega))
  · have hon := h.not_fresh (by rw [hact]; exact nofun) hAt ht
    show Function.update s.saved s.on _ (some t) = _ ∧ _
    rw [Function.update_of_ne fun heq => hon heq.symm]
    exact ⟨(h.fresh hAt t ht).1, fun hon' => absurd hon' hon⟩

/-- `mov esp, eax`: the CPU is on the stack of the thread it goes to. -/
theorem Invariant.moveEsp {dest : Option T} {newEsp : BitVec 32} (h : Invariant L At s)
    (hact : s.act = .saving c dest)
    (hat : Saving L.swtch (L.lo s.on) (limit L s.on s.outer) (BitVec.ofNat 32 (L.cell s.on))
      newEsp c 8 s.cpu)
    (hne : dest ≠ s.on) (halive : s.Alive dest)
    (hnew : newEsp.toNat + 20 = (s.saved dest).call.esp.toNat)
    (hnext : ∀ t, dest = some t → s.currentTask = some t)
    (hparked : Parked L At s.cpu.mem s.on (s.saved s.on)) :
    Invariant L At (s.after .movEspEax) := by
  have hdest := h.parked dest halive hne
  have hafter : s.after .movEspEax = { s with
      cpu := s.cpu.exec .movEspEax
      on := dest
      act := .restoring (s.saved dest).call
      outer := (s.saved dest).outer } := by
    unfold State.after
    rw [hact]
  rw [hafter]
  refine ⟨fun X halive hX => ?_, hnext, hdest.outer, ?_, fun hAt t ht => ?_⟩
  · by_cases hon : X = s.on
    · rw [hon]
      exact hparked
    · exact h.parked X halive hon
  · exact .restoring (hat.moveEsp hdest.room hdest.fits hnew hdest.words) hdest.quiet
      (fun _ => hdest) fun _ => rfl
  · exact ⟨(h.fresh hAt t ht).1, fun _ => ⟨_, rfl⟩⟩

/-- The first half. -/
theorem Invariant.saving {dest : Option T} (h : Invariant L At s) (hact : s.act = .saving c dest)
    (hi : fetch L.swtch s.cpu.regs.eip = some i) : Invariant L At (s.after i) := by
  have hphase := h.phase
  have hle := h.outer.limit_le
  have hhi := L.hi_lt s.on
  rw [hact] at hphase
  cases hphase with
  | @saving _ _ k newEsp hat hne halive hnew hback hnext hschedule hquiet hparked =>
    have hbound := hat.bound
    rw [hat.eip, fetch_point (by omega)] at hi
    -- five pushes, then the load, the store, the load and the move
    have hcases : k < 5 ∨ k = 5 ∨ k = 6 ∨ k = 7 ∨ k = 8 := by omega
    rcases hcases with hk | rfl | rfl | rfl | rfl
    · -- a push
      rw [after_of_plain hi (by omega) (by omega) (by omega)]
      obtain ⟨hat', hapart⟩ := hat.push hk hi (by omega)
      refine h.of_own_stack (fun lo hi hout => hapart lo hi hout) ?_
      rw [hact]
      exact .saving hat' hne halive hnew hback hnext hschedule hquiet (by omega)
    · obtain rfl := Option.some.inj hi
      rw [after_of_plain (k := 5) rfl (by omega) (by omega) (by omega)]
      refine h.of_own_stack (fun lo hi _ => AgreeOn.refl _ lo hi) ?_
      rw [hact]
      exact .saving (hat.loadTarget (by omega)) hne halive hnew hback hnext hschedule hquiet
        (by omega)
    · obtain rfl := Option.some.inj hi
      exact h.storeEsp hact hat hne halive hnew hback hnext hschedule hquiet
    · obtain rfl := Option.some.inj hi
      rw [after_of_plain (k := 7) rfl (by omega) (by omega) (by omega)]
      refine h.of_own_stack (fun lo hi _ => AgreeOn.refl _ lo hi) ?_
      rw [hact]
      exact .saving (hat.loadSource (by omega)) hne halive hnew hback hnext hschedule hquiet
        fun _ => hparked (Nat.le_refl 7)
    · obtain rfl := Option.some.inj hi
      exact h.moveEsp hact hat hne halive hnew hnext (hparked (by omega))

/-- The second half, and the return from the call. -/
theorem Invariant.restoring (h : Invariant L At s) (hact : s.act = .restoring c)
    (hi : fetch L.swtch s.cpu.regs.eip = some i) : Invariant L At (s.after i) := by
  have hphase := h.phase
  have hle := h.outer.limit_le
  have hhi := L.hi_lt s.on
  rw [hact] at hphase
  cases hphase with
  | @restoring _ k hat hquiet hparked hown =>
    have hbound := hat.bound
    have hstart := hat.start
    rw [hat.eip, fetch_point (by omega)] at hi
    by_cases hk : k < 14
    · -- a pop
      rw [after_of_plain hi (by omega) (by omega) (by omega)]
      obtain ⟨hat', hmem⟩ := hat.pop hk hi (by omega)
      have hsame : ∀ lo hi, AgreeOn s.cpu.mem (s.cpu.exec i).mem lo hi := fun lo hi => by
        rw [hmem]
        exact AgreeOn.refl _ lo hi
      refine h.of_own_stack (fun lo hi _ => hsame lo hi) ?_
      rw [hact]
      refine .restoring hat' hquiet (fun hq => ?_) hown
      show Parked L At (s.cpu.exec i).mem s.on _
      rw [hmem]
      exact hparked hq
    · obtain rfl : k = 14 := by omega
      obtain rfl := Option.some.inj hi
      have hret := hat.ret (by omega)
      have hroom := hat.room
      have hfits := hat.fits
      have hesp : (c.esp + 4).toNat = c.esp.toNat + 4 := by bv_omega
      have hafter : s.after .ret = { s with
          cpu := s.cpu.exec .ret
          act := if s.outer.isEmpty then .code else .returning
          fresh := s.fresh.filter fun t => s.on ≠ some t } := rfl
      -- whoever is behind this `ret` has entered its code
      have hfresh : ∀ {a : Act T}, ¬ At 14 → ∀ t ∈ s.fresh.filter (fun t => s.on ≠ some t),
          s.saved (some t) = ⟨firstCall L t, []⟩ ∧ (s.on = some t → ∃ c, a = .restoring c) := by
        intro a hAt t ht
        obtain ⟨hmem, hon⟩ := Finset.mem_filter.mp ht
        exact ⟨(h.fresh hAt t hmem).1, fun hon' => absurd hon' hon⟩
      rw [hafter, hret]
      by_cases houter : s.outer = []
      · rw [if_pos (List.isEmpty_iff.mpr houter)]
        refine ⟨h.parked, h.current, h.outer, .code ?_ ?_ hquiet, hfresh⟩
        · show L.lo s.on ≤ (c.esp + 4).toNat
          omega
        · show (c.esp + 4).toNat ≤ limit L s.on s.outer
          omega
      · -- the call was made in an interrupt
        rw [if_neg fun hempty => houter (List.isEmpty_iff.mp hempty)]
        refine ⟨h.parked, h.current, h.outer, ?_, hfresh⟩
        exact .returning houter (hquiet (.inr houter)) (hparked (.inr houter))

theorem Invariant.instr (h : Invariant L At s) (hact : s.act.inSwtch = true)
    (hi : fetch L.swtch s.cpu.regs.eip = some i) : Invariant L At (s.after i) := by
  cases ha : s.act with
  | saving c dest => exact h.saving ha hi
  | restoring c => exact h.restoring ha hi
  | code =>
    rw [ha] at hact
    cases hact
  | returning =>
    rw [ha] at hact
    cases hact

/-! ## Runs -/

/-- Every step whose timer interrupt comes at `At` keeps the invariant. -/
theorem Invariant.step {s' : State T} {a : Action T} (hAt : ∀ k, At k → k ≤ 8 ∨ k = 14)
    (h : Invariant L At s) (htimer : TimersAt L At s a) (hstep : Step L s a s') :
    Invariant L At s' := by
  cases hstep with
  | code hact hregs hmem => exact h.code hact hregs hmem
  | create hact hnew hother => exact h.create hact hnew hother
  | exit hact hon hcurrent => exact h.exit hact
  | yield hact htask hcurrent hroom hfits hargs =>
    exact h.yield hact htask hcurrent hroom hfits hargs
  | dispatch hact hon houter hlive hesp hargs =>
    exact h.dispatch hact hon houter hlive hesp hargs
  | instr hact hi => exact h.instr hact hi
  | timer hif hroom => exact h.timer hAt hif hroom htimer
  | isrReturn hact houter hesp heip => exact (h.isrReturn hact houter hesp).2

/-- The runs whose timer interrupts come outside of `swtch`, or at `At`. -/
def timersAt (L : Layout T) (At : Nat → Prop) : TransitionSystem (State T) (Action T) :=
  (system L).restrict (TimersAt L At)

/-- The invariant holds in every run whose timers come at the allowed points. -/
theorem invariant_of_reachable (hAt : ∀ k, At k → k ≤ 8 ∨ k = 14)
    (hreach : (timersAt L At).Reachable s) : Invariant L At s := by
  refine hreach.invariant (P := Invariant L At) (fun s hs => ?_) fun s a s' _ h hstep => ?_
  · exact Start.invariant hs
  · exact h.step hAt hstep.1 hstep.2

end

end Switching

end Pelikan

end SystemsProjects
