import SystemsProjects.Lib.Transition
import SystemsProjects.Pelikan.Itoa
import SystemsProjects.Pelikan.Terminal

/-!
# The clock on the screen (`clock.c`, `print_at`)

`clock_thread` writes the number of ticks into the top row, one cell after the other and with
interrupts on. In between the timer counts on, and other tasks print.

- `printAtStep`: a round of the loop of `print_at`; `clockThread`: a step of the task.
- `SameElsewhere`: two screens with the same cursor that differ in the cells of the clock at most.
  Every call of `print` and `removeChar` keeps it so, because what is scrolled out of the top row is
  gone.
- `clock_runs`: but for these twelve cells the screen is the one that the other tasks would have had
  without the clock, and the clock shows the ticks whenever it has come through undisturbed.

Two screens are compared: the one of the run, and the one that the calls of `print` and
`removeChar` alone would have made of the screen at first. The invariant says that they are the
same elsewhere, and, until the next call has disturbed it, how far the clock has come with its
digits (`ClockDraws`). A call may scroll, but what leaves the top row is lost, and the clock
with it, so the difference never moves into another row.
-/

namespace SystemsProjects

namespace Pelikan

/-! ## The task -/

/-- A call of `print_at`: `str[i]` is next, for the column `col`. -/
structure PrintAt where
  row : BitVec 8
  col : BitVec 8
  str : Nat → BitVec 8
  i : Nat

/-- A round of the loop of `print_at`; `none` when the loop has ended. -/
def printAtStep (vga : Vga) (p : PrintAt) : Except Int (Option (Vga × PrintAt)) :=
  if 25 ≤ p.row then .ok none
  else if p.str p.i ≠ 0 ∧ p.col < 80 then do
    let vga ← vgaWrite vga (p.row.toNat * 80 + p.col.toNat : Nat) (charCell (p.str p.i))
    return some (vga, { p with i := p.i + 1, col := p.col + 1 })
  else .ok none

/-- `"ticks:        "` -/
def clockLabel (i : Nat) : BitVec 8 := (ascii "ticks:        ".toList).getD i 0

/-- Where `clock_thread` is. -/
inductive ClockPoint where
  /-- `itoa(ticks, buf)` is next -/
  | itoa
  /-- in the first call of `print_at` -/
  | label (p : PrintAt)
  /-- in the second one -/
  | number (p : PrintAt)
  /-- in the loop behind it -/
  | delay

/-- The screen, the counter of the timer and `clock_thread`. `start` is the screen at first, `calls`
what the other tasks have done to it since; `shown` is the number that the clock is working on,
and `alone` says that nobody else has written to the screen since it has taken it. -/
structure Clocked where
  vga : Vga
  ticks : BitVec 32
  buf : Nat → BitVec 8
  point : ClockPoint
  start : Vga
  calls : List TerminalCall
  shown : BitVec 32
  alone : Bool

/-- A step of `clock_thread`. -/
def clockThread (s : Clocked) : Except Int Clocked :=
  match s.point with
  | .itoa => do
    let buf ← itoaInto s.ticks s.buf
    return { s with buf, point := .label ⟨0, 68, clockLabel, 0⟩, shown := s.ticks, alone := true }
  | .label p => do
    match ← printAtStep s.vga p with
    | some (vga, p) => return { s with vga, point := .label p }
    | none => return { s with point := .number ⟨0, 74, s.buf, 0⟩ }
  | .number p => do
    match ← printAtStep s.vga p with
    | some (vga, p) => return { s with vga, point := .number p }
    | none => return { s with point := .delay }
  | .delay => .ok { s with point := .itoa }

/-- The timer, a step of `clock_thread`, or a call by another task. -/
inductive ClockAction where
  /-- the interrupt of the timer -/
  | tick
  | clock
  /-- a call by another task; `print` turns interrupts off -/
  | call (c : TerminalCall)

/-- One step. -/
def clockStep (s : Clocked) : ClockAction → Option Clocked
  | .tick => some { s with ticks := s.ticks + 1 }
  | .clock =>
    match clockThread s with
    | .ok s' => some s'
    | .error _ => none
  | .call c =>
    match terminalCall s.vga c with
    | .ok vga => some { s with vga, calls := s.calls ++ [c], alone := false }
    | .error _ => none

/-- `clock_thread` stands at the top of its loop, and nobody has printed yet. -/
structure ClockStart (s : Clocked) : Prop where
  onScreen : s.vga.OnScreen
  start_eq : s.start = s.vga
  point_eq : s.point = .itoa
  calls_eq : s.calls = []

/-- The timer, the clock and the other tasks. -/
def clockSystem : TransitionSystem Clocked ClockAction := .ofFunction ClockStart clockStep

/-! ## Screens that differ in the clock -/

/-- The columns 68 to 79 of the top row. -/
def ClockCell (i : Nat) : Prop := 68 ≤ i ∧ i < 80

/-- The cursor is at the same place, and the other cells are the same. -/
structure SameElsewhere (v w : Vga) : Prop where
  cursor : ∃ p, v.At p ∧ w.At p
  cells : ∀ i, ¬ ClockCell i → v.addr i = w.addr i

section Elsewhere

variable {v w v' w' : Vga} {p i : Nat} {c : BitVec 8} {f g : Nat → BitVec 16}

theorem agree_update (h : ∀ i, ¬ ClockCell i → f i = g i) (n : Nat) (cell : BitVec 16) (i : Nat)
    (hi : ¬ ClockCell i) : Function.update f n cell i = Function.update g n cell i := by
  by_cases heq : i = n
  · rw [heq, Function.update_self, Function.update_self]
  · rw [Function.update_of_ne heq, Function.update_of_ne heq, h i hi]

/-- Nothing of the top row is left when the screen scrolls. -/
theorem agree_scroll (h : ∀ i, ¬ ClockCell i → f i = g i) (i : Nat) (hi : ¬ ClockCell i) :
    scrollBetween 0 2000 f i = scrollBetween 0 2000 g i := by
  by_cases hlt : i < 2000
  · rw [scrollBetween_of_mem ⟨Nat.zero_le i, hlt⟩, scrollBetween_of_mem ⟨Nat.zero_le i, hlt⟩]
    refine scrolled_congr (h _ fun hclock => ?_)
    have hcol := hclock.2
    omega
  · rw [scrollBetween_of_notMem (by omega), scrollBetween_of_notMem (by omega), h i hi]

/-- A line feed, with its scrolling, moves both screens alike. -/
theorem SameElsewhere.newline (h : SameElsewhere v w) :
    ∃ v' w', Pelikan.mapToVGA v 0x0A = .ok v' ∧ Pelikan.mapToVGA w 0x0A = .ok w' ∧
      SameElsewhere v' w' := by
  obtain ⟨p, hv, hw⟩ := h.cursor
  have hlt := hv.lt
  have hvrow := hv.row_eq
  have hwrow := hw.row_eq
  by_cases hlast : p / 80 = 24
  · have hv24 : v.row = 24 := by omega
    have hw24 : w.row = 24 := by omega
    rw [Pelikan.mapToVGA, if_neg fun hrow => hrow.2 hv24, if_pos ⟨rfl, hv24⟩, makeSpace_spec,
      Pelikan.mapToVGA, if_neg fun hrow => hrow.2 hw24, if_pos ⟨rfl, hw24⟩, makeSpace_spec]
    exact ⟨_, _, rfl, rfl, ⟨1920, ⟨rfl, rfl, by decide⟩, ⟨rfl, rfl, by decide⟩⟩,
      agree_scroll h.cells⟩
  · have hv24 : v.row ≠ 24 := by omega
    have hw24 : w.row ≠ 24 := by omega
    have hrow : (p / 80 : Nat) + 1 = (((p / 80 + 1) * 80 / 80 : Nat) : Int) := by omega
    have hcol : (0 : Int) = (((p / 80 + 1) * 80 % 80 : Nat) : Int) := by omega
    rw [Pelikan.mapToVGA, if_pos ⟨rfl, hv24⟩, Pelikan.mapToVGA, if_pos ⟨rfl, hw24⟩]
    refine ⟨_, _, rfl, rfl, ⟨(p / 80 + 1) * 80, ⟨?_, hcol, by omega⟩, ⟨?_, hcol, by omega⟩⟩,
      h.cells⟩
    · show v.row + 1 = _
      omega
    · show w.row + 1 = _
      omega

theorem SameElsewhere.mapToVGA (h : SameElsewhere v w) (c : BitVec 8) :
    ∃ v' w', Pelikan.mapToVGA v c = .ok v' ∧ Pelikan.mapToVGA w c = .ok w' ∧
      SameElsewhere v' w' := by
  obtain ⟨p, hv, hw⟩ := h.cursor
  by_cases hc : c = 0x0A
  · rw [hc]
    exact h.newline
  · refine ⟨_, _, (hv.mapToVGA hc).2, (hw.mapToVGA hc).2, ?_⟩
    have hlt := hv.lt
    have hwritten := agree_update h.cells p (charCell c)
    by_cases hlast : p = 1999
    · rw [if_pos hlast, if_pos hlast]
      exact ⟨⟨_, cursorAt_at (by decide), cursorAt_at (by decide)⟩,
        agree_scroll hwritten⟩
    · rw [if_neg hlast, if_neg hlast]
      exact ⟨⟨_, cursorAt_at (by omega), cursorAt_at (by omega)⟩, hwritten⟩

theorem SameElsewhere.print (h : SameElsewhere v w) (s : List (BitVec 8)) :
    ∃ v' w', Pelikan.print v s = .ok v' ∧ Pelikan.print w s = .ok w' ∧ SameElsewhere v' w' := by
  induction s generalizing v w with
  | nil => exact ⟨v, w, rfl, rfl, h⟩
  | cons c s ih =>
    rw [Pelikan.print, Pelikan.print]
    by_cases hnul : c = 0
    · rw [if_pos hnul, if_pos hnul]
      exact ⟨v, w, rfl, rfl, h⟩
    · obtain ⟨v₁, w₁, hv, hw, h₁⟩ := h.mapToVGA c
      rw [if_neg hnul, if_neg hnul, hv, hw, ok_bind, ok_bind]
      exact ih h₁

theorem SameElsewhere.removeChar (h : SameElsewhere v w) :
    ∃ v' w', Pelikan.removeChar v = .ok v' ∧ Pelikan.removeChar w = .ok w' ∧
      SameElsewhere v' w' := by
  obtain ⟨p, hv, hw⟩ := h.cursor
  cases p with
  | zero => exact ⟨v, w, hv.removeChar_zero, hw.removeChar_zero, h⟩
  | succ p =>
    have hlt : p < 2000 := Nat.lt_of_succ_lt hv.lt
    exact ⟨_, _, hv.removeChar, hw.removeChar, ⟨p, cursorAt_at hlt, cursorAt_at hlt⟩,
      agree_update h.cells p 0x20⟩

theorem SameElsewhere.terminalCall (h : SameElsewhere v w) (call : TerminalCall) :
    ∃ v' w', Pelikan.terminalCall v call = .ok v' ∧ Pelikan.terminalCall w call = .ok w' ∧
      SameElsewhere v' w' := by
  cases call with
  | print s => exact h.print s
  | removeChar => exact h.removeChar

end Elsewhere

/-! ## What the clock shows -/

/-- The label and the digits. -/
def clockText (n : Nat) : List (BitVec 8) := ascii "ticks:".toList ++ decimalText n

/-- The first `k` characters of the text are there, and blanks behind them. -/
def ShowsClock (vga : Vga) (n k : Nat) : Prop :=
  ∀ i < 12, vga.addr (68 + i) = charCell (if i < k then (clockText n).getD i 0x20 else 0x20)

/-- The string in `buf`. -/
def HoldsNumber (buf : Nat → BitVec 8) (n : Nat) : Prop :=
  (∀ i < (decimalText n).length, buf i = (decimalText n).getD i 0x20 ∧ buf i ≠ 0) ∧
    buf (decimalText n).length = 0

/-- What `clock_thread` has done so far, in each of its points. -/
def ClockDraws (s : Clocked) : ClockPoint → Prop
  | .itoa => True
  | .label p =>
    HoldsNumber s.buf s.shown.toNat ∧ p.row = 0 ∧ p.str = clockLabel ∧
      p.col.toNat = 68 + p.i ∧ p.i ≤ 12 ∧
      (s.alone = true → ∀ i < p.i, s.vga.addr (68 + i) = charCell (clockLabel i))
  | .number p =>
    HoldsNumber s.buf s.shown.toNat ∧ p.row = 0 ∧ p.str = s.buf ∧ p.col.toNat = 74 + p.i ∧
      p.i ≤ 6 ∧ p.i ≤ (decimalText s.shown.toNat).length ∧
      (s.alone = true → ShowsClock s.vga s.shown.toNat (6 + p.i))
  | .delay => s.alone = true → ShowsClock s.vga s.shown.toNat 12

/-- The screen is that of the calls alone, but for the clock. -/
structure ClockInv (s : Clocked) : Prop where
  same : ∃ w, terminalCalls s.start s.calls = .ok w ∧ SameElsewhere s.vga w
  draws : ClockDraws s s.point

section Draws

variable {s s' : Clocked} {vga : Vga} {p p' : PrintAt} {n : Nat}

theorem decimalText_ne_zero {c : BitVec 8} (hc : c ∈ decimalText n) : c ≠ 0 := by
  rw [decimalText, List.mem_reverse, List.mem_map] at hc
  obtain ⟨d, hd, rfl⟩ := hc
  intro hzero
  have hnat := toNat_digitChar (lt_of_mem_lowDigits hd)
  rw [hzero] at hnat
  simp at hnat
  omega

theorem holdsNumber_itoaInto (num : BitVec 32) (buf : Nat → BitVec 8) :
    ∃ buf', itoaInto num buf = .ok buf' ∧ HoldsNumber buf' num.toNat := by
  refine ⟨_, itoaInto_eq num buf, fun i hi => ?_, ?_⟩
  · have hget : overwrite buf 0 (decimalText num.toNat ++ [0]) i =
        (decimalText num.toNat).getD i 0x20 := by
      have h := overwrite_add buf 0 (decimalText num.toNat ++ [0]) i
      rw [Nat.zero_add, List.getElem?_append_left hi, List.getElem?_eq_getElem hi] at h
      rw [h, List.getD_eq_getElem _ _ hi]
      rfl
    refine ⟨hget, ?_⟩
    rw [hget, List.getD_eq_getElem _ _ hi]
    exact decimalText_ne_zero (List.getElem_mem hi)
  · have h := overwrite_add buf 0 (decimalText num.toNat ++ [0]) (decimalText num.toNat).length
    rw [Nat.zero_add] at h
    rw [h]
    simp

/-- A round of `print_at` in the cells of the clock. -/
theorem printAtStep_eq (hrow : p.row = 0) (hcol : p.col.toNat < 80) (hchar : p.str p.i ≠ 0) :
    printAtStep vga p = .ok (some
      ({ vga with addr := Function.update vga.addr p.col.toNat (charCell (p.str p.i)) },
        { p with i := p.i + 1, col := p.col + 1 })) := by
  have hlt : p.col < 80 := hcol
  have hindex : ((p.row.toNat * 80 + p.col.toNat : Nat) : Int) = p.col.toNat := by simp [hrow]
  rw [printAtStep, if_neg (by rw [hrow]; decide), if_pos ⟨hchar, hlt⟩,
    vgaWrite_of_lt hindex (by omega)]
  rfl

/-- The loop of `print_at` ends at the end of the row or of the text. -/
theorem printAtStep_end (hend : 80 ≤ p.col.toNat ∨ p.str p.i = 0) :
    printAtStep vga p = .ok none := by
  have hstop : ¬ (p.str p.i ≠ 0 ∧ p.col < 80) := by
    rintro ⟨hchar, hlt⟩
    have hlt' : p.col.toNat < 80 := hlt
    rcases hend with hcol | hnul
    · omega
    · exact hchar hnul
  rw [printAtStep, if_neg hstop, ite_self]

/-- A store to a cell of the clock is a difference that does not count. -/
theorem SameElsewhere.clockCell {w : Vga} (h : SameElsewhere vga w) (hn : ClockCell n)
    (cell : BitVec 16) :
    SameElsewhere { vga with addr := Function.update vga.addr n cell } w := by
  obtain ⟨p, hv, hw⟩ := h.cursor
  refine ⟨⟨p, ⟨hv.row_eq, hv.col_eq, hv.lt⟩, hw⟩, fun i hi => ?_⟩
  have hne : i ≠ n := fun heq => hi (heq ▸ hn)
  exact (Function.update_of_ne hne ..).trans (h.cells i hi)

/-- The label is the text of the number in six cells, blanks behind it. -/
theorem clockLabel_eq {i : Nat} (hi : i < 12) :
    clockLabel i = if i < 6 then (clockText n).getD i 0x20 else 0x20 := by
  by_cases hsix : i < 6
  · have hall : ∀ i < 6, clockLabel i = (ascii "ticks:".toList).getD i 0x20 := by decide
    have hlen : (ascii "ticks:".toList).length = 6 := rfl
    rw [if_pos hsix, hall i hsix, clockText, List.getD_append _ _ _ _ (by omega)]
  · have hall : ∀ i < 12, ¬ i < 6 → clockLabel i = 0x20 := by decide
    rw [if_neg hsix, hall i hi hsix]

/-- The column of the next round. -/
theorem toNat_col_succ {col : BitVec 8} (h : col.toNat < 80) :
    (col + 1).toNat = col.toNat + 1 := by
  rw [BitVec.toNat_add]
  show (col.toNat + 1) % 256 = _
  omega

/-- The digits, behind the six characters of the label. -/
theorem clockText_getD (n i : Nat) :
    (clockText n).getD (6 + i) 0x20 = (decimalText n).getD i 0x20 := by
  have hlen : (ascii "ticks:".toList).length = 6 := rfl
  rw [clockText, List.getD_append_right _ _ _ _ (by omega), hlen, Nat.add_sub_cancel_left]

/-- A step of `clock_thread` keeps the invariant. -/
theorem ClockInv.clock (h : ClockInv s) : ∃ s', clockThread s = .ok s' ∧ ClockInv s' := by
  obtain ⟨w, hcalls, hsame⟩ := h.same
  have hdraws := h.draws
  rw [clockThread]
  cases hpoint : s.point with
  | itoa =>
    obtain ⟨buf', hitoa, hholds⟩ := holdsNumber_itoaInto s.ticks s.buf
    rw [hitoa, ok_bind]
    refine ⟨_, rfl, ⟨w, hcalls, hsame⟩, hholds, rfl, rfl, rfl, Nat.zero_le _, fun _ i hi => ?_⟩
    exact absurd hi (Nat.not_lt_zero i)
  | label p =>
    rw [hpoint] at hdraws
    -- one cell of the label, or on to the number
    obtain ⟨hholds, hrow, hstr, hcol, hle, hshows⟩ := hdraws
    by_cases hlt : p.i < 12
    · -- none of the twelve characters that fit into the row is NUL
      have hchar : p.str p.i ≠ 0 := by
        have hall : ∀ i < 12, clockLabel i ≠ 0 := by decide
        rw [hstr]
        exact hall p.i hlt
      dsimp only
      rw [printAtStep_eq hrow (by omega) hchar]
      refine ⟨_, rfl, ⟨w, hcalls, hsame.clockCell ⟨by omega, by omega⟩ _⟩, hholds, hrow, hstr, ?_,
        hlt, fun halone i hi => ?_⟩
      · show (p.col + 1).toNat = 68 + (p.i + 1)
        rw [toNat_col_succ (by omega)]
        omega
      · replace hi : i < p.i + 1 := hi
        show Function.update s.vga.addr p.col.toNat (charCell (p.str p.i)) (68 + i) = _
        rw [hcol, hstr]
        by_cases heq : i = p.i
        · rw [heq, Function.update_self]
        · rw [Function.update_of_ne (by omega)]
          exact hshows halone i (by omega)
    · dsimp only
      -- the row ends at column 80, and the label with it; the number starts behind `ticks:`
      rw [printAtStep_end (.inl (by omega))]
      refine ⟨_, rfl, ⟨w, hcalls, hsame⟩, hholds, rfl, rfl, rfl, Nat.zero_le _, Nat.zero_le _,
        fun halone i hi => ?_⟩
      rw [hshows halone i (by omega)]
      exact congrArg charCell (clockLabel_eq hi)
  | number p =>
    rw [hpoint] at hdraws
    obtain ⟨hholds, hrow, hstr, hcol, hle, hlen, hshows⟩ := hdraws
    by_cases hlt : p.i < 6 ∧ p.i < (decimalText s.shown.toNat).length
    · obtain ⟨hget, hchar⟩ := hholds.1 p.i hlt.2
      rw [← hstr] at hget hchar
      dsimp only
      rw [printAtStep_eq hrow (by omega) hchar]
      refine ⟨_, rfl, ⟨w, hcalls, hsame.clockCell ⟨by omega, by omega⟩ _⟩, hholds, hrow, hstr, ?_,
        hlt.1, hlt.2, fun halone i hi => ?_⟩
      · show (p.col + 1).toNat = 74 + (p.i + 1)
        rw [toNat_col_succ (by omega)]
        omega
      · show Function.update s.vga.addr p.col.toNat (charCell (p.str p.i)) (68 + i) =
          charCell (if i < 6 + (p.i + 1) then (clockText s.shown.toNat).getD i 0x20 else 0x20)
        rw [hcol, hget]
        by_cases heq : i = 6 + p.i
        · rw [show 68 + i = 74 + p.i by omega, Function.update_self, if_pos (by omega), heq,
            clockText_getD]
        · rw [Function.update_of_ne (by omega), hshows halone i hi]
          by_cases hbefore : i < 6 + p.i
          · rw [if_pos hbefore, if_pos (by omega)]
          · rw [if_neg hbefore, if_neg (by omega)]
    · -- the row is full, or the number has ended
      have hend : 80 ≤ p.col.toNat ∨ p.str p.i = 0 := by
        by_cases hsix : p.i = 6
        · exact .inl (by omega)
        · have hlast : p.i = (decimalText s.shown.toNat).length := by omega
          right
          rw [hstr, hlast]
          exact hholds.2
      dsimp only
      rw [printAtStep_end hend]
      refine ⟨_, rfl, ⟨w, hcalls, hsame⟩, fun halone i hi => ?_⟩
      show s.vga.addr (68 + i) =
        charCell (if i < 12 then (clockText s.shown.toNat).getD i 0x20 else 0x20)
      rw [hshows halone i hi, if_pos hi]
      by_cases hbefore : i < 6 + p.i
      · rw [if_pos hbefore]
      · -- the number has ended before the row
        have hlast : p.i = (decimalText s.shown.toNat).length := by
          by_contra hne
          exact hlt ⟨by omega, by omega⟩
        obtain ⟨j, rfl⟩ : ∃ j, i = 6 + j := ⟨i - 6, by omega⟩
        rw [if_neg hbefore, clockText_getD, List.getD_eq_default _ _ (by omega)]
  | delay => exact ⟨_, rfl, ⟨w, hcalls, hsame⟩, trivial⟩

theorem terminalCalls_concat {v w w' : Vga} {calls : List TerminalCall} {c : TerminalCall}
    (hcalls : terminalCalls v calls = .ok w) (hc : terminalCall w c = .ok w') :
    terminalCalls v (calls ++ [c]) = .ok w' := by
  induction calls generalizing v with
  | nil =>
    obtain rfl := Except.ok.inj hcalls
    rw [List.nil_append, terminalCalls, hc]
    rfl
  | cons call calls ih =>
    obtain ⟨v₁, hfirst, hrest⟩ := bind_eq_ok.mp hcalls
    rw [List.cons_append, terminalCalls, hfirst, ok_bind]
    exact ih hrest

/-- A call by another task. -/
theorem ClockInv.call (h : ClockInv s) (c : TerminalCall) :
    ∃ vga, terminalCall s.vga c = .ok vga ∧
      ClockInv { s with vga, calls := s.calls ++ [c], alone := false } := by
  obtain ⟨w, hcalls, hsame⟩ := h.same
  obtain ⟨vga, w', hv, hw, hsame'⟩ := hsame.terminalCall c
  refine ⟨vga, hv, ⟨w', terminalCalls_concat hcalls hw, hsame'⟩, ?_⟩
  · have hdraws := h.draws
    cases hpoint : s.point with
    | itoa => trivial
    | label p =>
      rw [hpoint] at hdraws
      obtain ⟨hholds, hrow, hstr, hcol, hle, -⟩ := hdraws
      exact ⟨hholds, hrow, hstr, hcol, hle, fun halone => Bool.noConfusion halone⟩
    | number p =>
      rw [hpoint] at hdraws
      obtain ⟨hholds, hrow, hstr, hcol, hle, hlen, -⟩ := hdraws
      exact ⟨hholds, hrow, hstr, hcol, hle, hlen, fun halone => Bool.noConfusion halone⟩
    | delay => exact fun halone => Bool.noConfusion halone

/-- Nothing has been called and nothing is shown at the start. -/
theorem ClockInv.start (h : ClockStart s) : ClockInv s := by
  obtain ⟨p, hp⟩ := h.onScreen
  refine ⟨⟨s.vga, ?_, ⟨p, hp, hp⟩, fun _ _ => rfl⟩, ?_⟩
  · rw [h.start_eq, h.calls_eq]
    rfl
  · rw [h.point_eq]
    trivial

/-- Nothing is ever in the way of the timer, the clock and the other tasks. -/
theorem ClockInv.step (h : ClockInv s) (a : ClockAction) :
    ∃ s', clockStep s a = some s' ∧ ClockInv s' := by
  cases a with
  | tick =>
    refine ⟨_, rfl, h.same, ?_⟩
    have hdraws := h.draws
    cases hpoint : s.point with
    | itoa => trivial
    | label p => rwa [hpoint] at hdraws
    | number p => rwa [hpoint] at hdraws
    | delay => rwa [hpoint] at hdraws
  | clock =>
    obtain ⟨s', hclock, h'⟩ := h.clock
    refine ⟨s', ?_, h'⟩
    rw [clockStep, hclock]
  | call c =>
    obtain ⟨vga, hc, h'⟩ := h.call c
    refine ⟨_, ?_, h'⟩
    rw [clockStep, hc]

theorem ClockInv.reachable (h : clockSystem.Reachable s) : ClockInv s :=
  h.invariant (fun _ hinit => .start hinit) fun s a s' _ hinv hstep => by
    obtain ⟨s'', hs'', h''⟩ := hinv.step a
    rw [Option.some.inj (hstep.symm.trans hs'')]
    exact h''

/-- In every run of the timer, of `clock_thread` cell by cell, and of calls of `print` and
`removeChar` by the other tasks: the cursor is where these calls alone would have put it, and so is
every character outside the twelve cells at the end of the top row. When the clock has come
through without such a call in between, these cells show `ticks:` and the number it began with, or
the first six digits of that. And no step ever leaves the screen or a buffer. -/
theorem clock_runs (h : clockSystem.Reachable s) :
    (∃ w, terminalCalls s.start s.calls = .ok w ∧ s.vga.row = w.row ∧ s.vga.col = w.col ∧
      ∀ i, ¬ ClockCell i → s.vga.addr i = w.addr i) ∧
    (s.point = .delay → s.alone = true → ∀ i < 12,
      s.vga.addr (68 + i) = charCell ((clockText s.shown.toNat).getD i 0x20)) ∧
    ∀ a, ∃ s', clockStep s a = some s' := by
  have hinv := ClockInv.reachable h
  obtain ⟨w, hcalls, hsame⟩ := hinv.same
  obtain ⟨p, hv, hw⟩ := hsame.cursor
  refine ⟨⟨w, hcalls, hv.row_eq.trans hw.row_eq.symm, hv.col_eq.trans hw.col_eq.symm,
    hsame.cells⟩, fun hpoint halone i hi => ?_, fun a => ?_⟩
  · have hdraws := hinv.draws
    rw [hpoint] at hdraws
    have hcell := hdraws halone i hi
    rwa [if_pos hi] at hcell
  · obtain ⟨s', hstep, -⟩ := hinv.step a
    exact ⟨s', hstep⟩

/-- A blank screen, and `clock_thread` at its beginning. -/
def clockZero : Clocked where
  vga := blankVga
  ticks := 0
  buf := fun _ => 0
  point := .itoa
  start := blankVga
  calls := []
  shown := 0
  alone := false

/-- Two rounds of the clock at tick 2. A task prints during the first one. -/
def clockRounds : List ClockAction :=
  [.tick, .tick] ++ List.replicate 5 .clock ++ [.call (.print [0x48, 0x49])] ++
    List.replicate 28 .clock

theorem clockRounds_runs : (TransitionSystem.runActions clockStep clockRounds clockZero).map
    (fun s => (s.calls.length, s.point matches .delay, s.alone, s.shown)) =
      some (1, true, true, 2) := by
  decide +kernel

theorem clock_runs_hi :
    ∃ s, TransitionSystem.runActions clockStep clockRounds clockZero = some s ∧
      s.calls.length = 1 ∧
      (∃ w, terminalCalls s.start s.calls = .ok w ∧ s.vga.row = w.row ∧
        s.vga.col = w.col ∧ ∀ i, ¬ ClockCell i → s.vga.addr i = w.addr i) ∧
      ∀ i < 12, s.vga.addr (68 + i) = charCell ((clockText 2).getD i 0x20) := by
  have hstart : clockSystem.Reachable clockZero :=
    .init ⟨⟨0, rfl, rfl, by decide⟩, rfl, rfl, rfl⟩
  obtain ⟨s, hrun, hends⟩ := Option.map_eq_some_iff.mp clockRounds_runs
  obtain ⟨hcalls, hends⟩ := Prod.mk.inj hends
  obtain ⟨hpoint, hends⟩ := Prod.mk.inj hends
  obtain ⟨halone, hshown⟩ := Prod.mk.inj hends
  have hdelay : s.point = .delay := by
    cases hcase : s.point <;> rw [hcase] at hpoint <;> first | rfl | cases hpoint
  obtain ⟨hsame, hcells, -⟩ := clock_runs (TransitionSystem.reachable_of_runActions hstart hrun)
  refine ⟨s, hrun, hcalls, hsame, fun i hi => ?_⟩
  rw [hcells hdelay halone i hi, hshown]
  rfl

end Draws

end Pelikan

end SystemsProjects
