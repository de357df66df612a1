import SystemsProjects.Pelikan.ShellScreen

/-!
# The terminal (`print`, `removeChar`, `cmd_clear`)

Any calls of `print` and `removeChar`, one after the other. A line that has not begun yet is shown
where the cursor is, so what holds of it (`ShowsLine`) says that the cells from the cursor on are
blank.

- `ShowsLine.mapToVGA`, `ShowsLine.removeChar`, `terminalCall_blank`: the calls keep it so.
- `BlankAhead`: the same in terms of rows and columns.
- `terminal_blankAhead`: it holds after any calls, and then `cmd_clear` leaves a blank screen.

A call may scroll, go to a new row or step back, and in all cases the cells behind the cursor
are blank afterwards: scrolling brings a blank row in at the bottom, and the cursor never goes
back over a cell without blanking it. `cmd_clear` counts on this: it steps back to the first
cell and so has cleared them all.
-/

namespace SystemsProjects

namespace Pelikan

/-- The calls that change the screen. -/
inductive TerminalCall where
  | print (s : List (BitVec 8))
  | removeChar

/-- One call. A cell that is not on the screen is a fault. -/
def terminalCall (vga : Vga) : TerminalCall → Except Int Vga
  | .print s => print vga s
  | .removeChar => removeChar vga

/-- The calls one after the other. -/
def terminalCalls (vga : Vga) : List TerminalCall → Except Int Vga
  | [] => .ok vga
  | call :: calls => do
    let vga ← terminalCall vga call
    terminalCalls vga calls

/-- The cursor is on the screen, and from it on all cells are blank. -/
structure BlankAhead (vga : Vga) : Prop where
  row_range : 0 ≤ vga.row ∧ vga.row < 25
  col_range : 0 ≤ vga.col ∧ vga.col < 80
  char_eq : ∀ row < 25, ∀ col < 80,
    vga.row * 80 + vga.col ≤ (row * 80 + col : Nat) → vga.char row col = 0x20

/-- A blank screen with the cursor in the first cell. -/
structure Cleared (vga : Vga) : Prop where
  row_eq : vga.row = 0
  col_eq : vga.col = 0
  char_eq : ∀ row < 25, ∀ col < 80, vga.char row col = 0x20

section

variable {vga : Vga} {p start : Nat} {line : List (BitVec 8)}

/-- Behind a line there are blanks. -/
theorem ShowsLine.ahead (h : ShowsLine vga start line) :
    ShowsLine vga (start + line.length) [] where
  cursor := h.cursor
  char_eq q hq hq' := by
    rw [h.char_eq q (by omega) hq', List.getD_eq_default _ _ (by omega)]
    rfl

/-- An empty line is blank ahead of the cursor. -/
theorem ShowsLine.blankAhead (h : ShowsLine vga p []) : BlankAhead vga where
  row_range := by
    have hrow := h.cursor.row_eq
    have hlt := h.cursor.lt
    simp only [List.length_nil] at hrow hlt
    omega
  col_range := by
    have hcol := h.cursor.col_eq
    omega
  char_eq row hrow col hcol hle := by
    have hindex := h.cursor.index_eq
    rw [List.length_nil] at hindex
    exact h.char_eq (row * 80 + col) (by omega) (by omega)

/-- A cleared screen shows an empty line at the first cell. -/
theorem Cleared.showsLine (h : Cleared vga) : ShowsLine vga 0 [] where
  cursor := ⟨h.row_eq, h.col_eq, by decide⟩
  char_eq q _ hq := by
    have hchar := h.char_eq (q / 80) (by omega) (q % 80) (by omega)
    rwa [Vga.char, Nat.div_add_mod' q 80] at hchar

/-- An empty line at the first cell is a cleared screen. -/
theorem ShowsLine.cleared (h : ShowsLine vga 0 []) : Cleared vga where
  row_eq := h.cursor.row_eq
  col_eq := h.cursor.col_eq
  char_eq row _ col _ := h.char_eq (row * 80 + col) (Nat.zero_le _) (by omega)

/-! ## The calls -/

/-- The next row was blank, or scrolling has made it so. -/
theorem ShowsLine.newline (h : ShowsLine vga p []) :
    ∃ vga', Pelikan.mapToVGA vga 0x0A = .ok vga' ∧ ∃ q, ShowsLine vga' q [] := by
  have hrow : vga.row = (p / 80 : Nat) := h.cursor.row_eq
  have hlt : p < 2000 := h.cursor.lt
  by_cases hlast : vga.row = 24
  · rw [Pelikan.mapToVGA, if_neg fun hrow => hrow.2 hlast, if_pos ⟨rfl, hlast⟩, makeSpace_spec]
    refine ⟨_, rfl, 1920, ⟨rfl, rfl, by decide⟩, fun q hq hq' => ?_⟩
    show (scrollBetween 0 2000 vga.addr q).setWidth 8 = 0x20
    rw [scrollBetween_of_mem ⟨Nat.zero_le q, hq'⟩, scrolled, if_neg (by omega)]
    rfl
  · rw [Pelikan.mapToVGA, if_pos ⟨rfl, hlast⟩]
    refine ⟨_, rfl, (p / 80 + 1) * 80, ⟨?_, ?_, ?_⟩, fun q hq hq' => ?_⟩
    · show vga.row + 1 = (((p / 80 + 1) * 80 + 0) / 80 : Nat)
      omega
    · show (0 : Int) = (((p / 80 + 1) * 80 + 0) % 80 : Nat)
      omega
    · show (p / 80 + 1) * 80 + 0 < 2000
      omega
    · exact h.char_eq q (by omega) hq'

/-- A character leaves blanks ahead, wherever it puts the cursor. -/
theorem ShowsLine.mapToVGA (h : ShowsLine vga p []) (c : BitVec 8) :
    ∃ vga', Pelikan.mapToVGA vga c = .ok vga' ∧ ∃ q, ShowsLine vga' q [] := by
  by_cases hc : c = 0x0A
  · rw [hc]
    exact h.newline
  · obtain ⟨vga', hmap, hshows⟩ := h.write hc (Nat.zero_lt_succ 126)
    split at hshows
    · exact ⟨vga', hmap, _, hshows.2.ahead⟩
    · exact ⟨vga', hmap, _, hshows.ahead⟩

/-- The cell that the cursor steps back to is blanked; in the first cell nothing happens. -/
theorem ShowsLine.removeChar (h : ShowsLine vga p []) :
    ∃ vga', Pelikan.removeChar vga = .ok vga' ∧ ShowsLine vga' (p - 1) [] := by
  cases p with
  | zero => exact ⟨vga, h.cursor.removeChar_zero, h⟩
  | succ p =>
    refine ⟨_, Vga.At.removeChar h.cursor, cursorAt_at (Nat.lt_of_succ_lt h.cursor.lt), ?_⟩
    intro q hq hq'
    show (Function.update vga.addr p 0x20 q).setWidth 8 = 0x20
    by_cases hcell : q = p
    · rw [hcell, Function.update_self]
      rfl
    · have hle : p ≤ q := hq
      rw [Function.update_of_ne hcell]
      exact h.char_eq q (by omega) hq'

theorem terminalCall_blank (h : ∃ p, ShowsLine vga p []) (call : TerminalCall) :
    ∃ vga', terminalCall vga call = .ok vga' ∧ ∃ q, ShowsLine vga' q [] := by
  cases call with
  | print s => exact print_keeps (fun _ c ⟨_, h⟩ => h.mapToVGA c) h s
  | removeChar =>
    obtain ⟨p, h⟩ := h
    obtain ⟨vga', hremove, h'⟩ := h.removeChar
    exact ⟨vga', hremove, p - 1, h'⟩

theorem terminalCalls_blank (h : ∃ p, ShowsLine vga p []) (calls : List TerminalCall) :
    ∃ vga', terminalCalls vga calls = .ok vga' ∧ ∃ q, ShowsLine vga' q [] := by
  induction calls generalizing vga with
  | nil => exact ⟨vga, rfl, h⟩
  | cons call calls ih =>
    obtain ⟨vga₁, hcall, h₁⟩ := terminalCall_blank h call
    rw [terminalCalls, hcall, ok_bind]
    exact ih h₁

/-! ## `cmd_clear` -/

/-- As many calls of `removeChar` as there are cells in front of the cursor lead to the first. -/
theorem ShowsLine.removeChars {s : Shell} (h : ShowsLine s.vga p []) {n : Nat} (hp : p ≤ n) :
    ∃ s', s.removeChars n = .ok s' ∧ ShowsLine s'.vga 0 [] := by
  induction n generalizing s p with
  | zero =>
    obtain rfl : p = 0 := Nat.le_zero.mp hp
    exact ⟨s, rfl, h⟩
  | succ n ih =>
    obtain ⟨vga', hremove, h'⟩ := h.removeChar
    have hshell : s.removeChar = .ok { s with vga := vga' } := by rw [Shell.removeChar, hremove]
    rw [Shell.removeChars, hshell, ok_bind]
    exact ih h' (by omega)

end

/-- From a blank screen, any calls of `print` and `removeChar` stay on the screen and leave the
cells from the cursor on blank, so that `cmd_clear` leaves all of them blank. -/
theorem terminal_blankAhead {vga : Vga} (hrow : vga.row = 0) (hcol : vga.col = 0)
    (hblank : ∀ row < 25, ∀ col < 80, vga.char row col = 0x20) (calls : List TerminalCall) :
    ∃ vga', terminalCalls vga calls = .ok vga' ∧ BlankAhead vga' ∧
      ∀ (s : Shell) (key : Key), s.vga = vga' →
        ∃ s', runCommand s key .clear = .ok s' ∧ Cleared s'.vga := by
  have hstart : ShowsLine vga 0 [] := Cleared.showsLine ⟨hrow, hcol, hblank⟩
  obtain ⟨vga', hcalls, p, h⟩ := terminalCalls_blank ⟨0, hstart⟩ calls
  refine ⟨vga', hcalls, h.blankAhead, ?_⟩
  rintro s key rfl
  obtain ⟨s', hclear, h'⟩ := h.removeChars (Nat.le_of_lt h.cursor.lt)
  exact ⟨s', hclear, h'.cleared⟩

theorem terminal_blankAhead_blankVga :
    ∃ vga', terminalCalls blankVga
        [.print [0x48, 0x69, 0x0A, 0x21], .removeChar, .removeChar, .print [0xFF]] = .ok vga' ∧
      BlankAhead vga' ∧ ∀ (s : Shell) (key : Key), s.vga = vga' →
        ∃ s', runCommand s key .clear = .ok s' ∧ Cleared s'.vga :=
  terminal_blankAhead rfl rfl (fun _ _ _ _ => rfl) _

end Pelikan

end SystemsProjects
