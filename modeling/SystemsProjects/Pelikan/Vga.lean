import Mathlib.Data.List.GetD
import Mathlib.Logic.Function.Basic
import SystemsProjects.Lib.Checked
import SystemsProjects.Lib.Rows

/-!
# The screen (`vga.c`)

`mapToVGA`, `makeSpace` and `print`. A cell is a 16-bit word with the character in its low
byte. Every access checks that its index is one of the 2000 cells; a function returns the first
index that is not.

- `makeSpace_spec`: scrolling moves every row up by one and blanks the last.
- `Displays`: the screen shows the last 25 rows of a layout, with the cursor behind them.
- `printAll_displays`: the screen shows the end of what was printed.

The screen is read through the layout of `Rows`. The three ways in which a character can go on
(in its row, to the next row, with a scroll) are lemmas about `Shows`, and `Displays.mapToVGA`
puts them together; from there on, printing is an induction over the characters.
-/

namespace SystemsProjects

namespace Pelikan

/-- `struct vga_state` -/
structure Vga where
  row : Int
  col : Int
  addr : Nat → BitVec 16

/-- `vga.addr[i]` -/
def vgaRead (vga : Vga) (i : Int) : Except Int (BitVec 16) :=
  if 0 ≤ i ∧ i < 2000 then .ok (vga.addr i.toNat) else .error i

/-- `vga.addr[i] = cell` -/
def vgaWrite (vga : Vga) (i : Int) (cell : BitVec 16) : Except Int Vga :=
  if 0 ≤ i ∧ i < 2000 then .ok { vga with addr := Function.update vga.addr i.toNat cell }
  else .error i

/-- The cell of a character: `(0x0F << 8) | s`, on `int`, cut to 16 bits. -/
def charCell (s : BitVec 8) : BitVec 16 :=
  ((0x0F <<< 8 : BitVec 32) ||| s.signExtend 32).setWidth 16

/-- The body of the inner loop of `makeSpace`. -/
def makeSpaceCell (vga : Vga) : Except Int Vga :=
  if vga.row = 24 then vgaWrite vga (vga.row * 80 + vga.col) 0x20
  else do
    let cell ← vgaRead vga ((vga.row + 1) * 80 + vga.col)
    vgaWrite vga (vga.row * 80 + vga.col) cell

theorem vgaWrite_cursor {vga vga' : Vga} {i : Int} {cell : BitVec 16}
    (h : vgaWrite vga i cell = .ok vga') : vga'.row = vga.row ∧ vga'.col = vga.col := by
  unfold vgaWrite at h
  split at h
  · obtain rfl := Except.ok.inj h
    exact ⟨rfl, rfl⟩
  · cases h

theorem makeSpaceCell_cursor {vga vga' : Vga} (h : makeSpaceCell vga = .ok vga') :
    vga'.row = vga.row ∧ vga'.col = vga.col := by
  unfold makeSpaceCell at h
  split at h
  · exact vgaWrite_cursor h
  · obtain ⟨cell, -, h⟩ := bind_eq_ok.mp h
    exact vgaWrite_cursor h

/-- `while(vga.col < 80)` -/
def makeSpaceCols (vga : Vga) : Except Int Vga :=
  if vga.col < 80 then
    match _h : makeSpaceCell vga with
    | .error i => .error i
    | .ok vga' => makeSpaceCols { vga' with col := vga'.col + 1 }
  else .ok vga
termination_by (80 - vga.col).toNat
decreasing_by
  rw [(makeSpaceCell_cursor ‹_›).2]
  omega

theorem makeSpaceCols_row {vga vga' : Vga} (h : makeSpaceCols vga = .ok vga') :
    vga'.row = vga.row := by
  fun_induction makeSpaceCols vga with
  | case1 => cases h
  | case2 vga _ vga₁ hcell ih =>
    rw [ih h]
    exact (makeSpaceCell_cursor hcell).1
  | case3 =>
    obtain rfl := Except.ok.inj h
    rfl

/-- `while(vga.row < 25)` -/
def makeSpaceRows (vga : Vga) : Except Int Vga :=
  if vga.row < 25 then
    match _h : makeSpaceCols vga with
    | .error i => .error i
    | .ok vga' => makeSpaceRows { vga' with row := vga'.row + 1, col := 0 }
  else .ok vga
termination_by (25 - vga.row).toNat
decreasing_by
  rw [makeSpaceCols_row ‹_›]
  omega

/-- `makeSpace` -/
def makeSpace (vga : Vga) : Except Int Vga := do
  let vga ← makeSpaceRows { vga with row := 0, col := 0 }
  return { vga with row := 24, col := 0 }

/-- `mapToVGA` -/
def mapToVGA (vga : Vga) (s : BitVec 8) : Except Int Vga :=
  if s = 0x0A ∧ vga.row ≠ 24 then .ok { vga with col := 0, row := vga.row + 1 }
  else if s = 0x0A ∧ vga.row = 24 then makeSpace vga
  else if vga.row < 25 then do
    let vga ← if vga.col < 80 then vgaWrite vga (vga.row * 80 + vga.col) (charCell s) else .ok vga
    let vga := { vga with col := vga.col + 1 }
    if vga.col ≥ 80 then
      let vga := { vga with col := 0, row := vga.row + 1 }
      if vga.row ≥ 25 then makeSpace vga else .ok vga
    else .ok vga
  else .ok vga

/-- `removeChar` -/
def removeChar (vga : Vga) : Except Int Vga :=
  if vga.row > 0 then
    if vga.col = 0 then
      let vga := { vga with row := vga.row - 1, col := 79 }
      vgaWrite vga (vga.row * 80 + vga.col) 0x20
    else if vga.col > 0 then
      let vga := { vga with col := vga.col - 1 }
      vgaWrite vga (vga.row * 80 + vga.col) 0x20
    else .ok vga
  else if vga.col > 0 then
    let vga := { vga with col := vga.col - 1 }
    vgaWrite vga (vga.row * 80 + vga.col) 0x20
  else .ok vga

/-- `print`: the characters up to the NUL. -/
def print (vga : Vga) : List (BitVec 8) → Except Int Vga
  | [] => .ok vga
  | c :: cs =>
    if c = 0 then .ok vga
    else do
      let vga ← mapToVGA vga c
      print vga cs

/-- Several calls of `print`. -/
def printAll (vga : Vga) : List (List (BitVec 8)) → Except Int Vga
  | [] => .ok vga
  | s :: ss => do
    let vga ← print vga s
    printAll vga ss

/-- The character in a cell. -/
def Vga.char (vga : Vga) (row col : Nat) : BitVec 8 := (vga.addr (row * 80 + col)).setWidth 8

/-! ## Scrolling -/

section Scroll

variable {vga : Vga} {i j : Nat}

theorem vgaWrite_of_lt {k : Int} (hi : k = i) (hlt : i < 2000) (cell : BitVec 16) :
    vgaWrite vga k cell = .ok { vga with addr := Function.update vga.addr i cell } := by
  have hrange : (0 : Int) ≤ i ∧ (i : Int) < 2000 := by omega
  rw [vgaWrite, hi, if_pos hrange, Int.toNat_natCast]

theorem vgaRead_of_lt {k : Int} (hi : k = i) (hlt : i < 2000) :
    vgaRead vga k = .ok (vga.addr i) := by
  have hrange : (0 : Int) ≤ i ∧ (i : Int) < 2000 := by omega
  rw [vgaRead, hi, if_pos hrange, Int.toNat_natCast]

/-- What a cell becomes when its row is scrolled. -/
def scrolled (addr : Nat → BitVec 16) (i : Nat) : BitVec 16 :=
  if i < 1920 then addr (i + 80) else 0x20

/-- The cells from `i` on and before `j` are scrolled. -/
def scrollBetween (i j : Nat) (addr : Nat → BitVec 16) : Nat → BitVec 16 := fun k =>
  if i ≤ k ∧ k < j then scrolled addr k else addr k

/-- A cell gets what is below it, or a blank in the last row. -/
theorem makeSpaceCell_eq {row col : Nat} (hrow : vga.row = row) (hcol : vga.col = col)
    (hrow' : row < 25) (hcol' : col < 80) :
    makeSpaceCell vga = .ok { vga with
      addr := Function.update vga.addr (row * 80 + col) (scrolled vga.addr (row * 80 + col)) } := by
  unfold makeSpaceCell scrolled
  have hindex : vga.row * 80 + vga.col = ((row * 80 + col : Nat) : Int) := by omega
  by_cases hlast : row = 24
  · have hrow24 : vga.row = 24 := by omega
    rw [if_pos hrow24, vgaWrite_of_lt hindex (by omega), if_neg (by omega)]
  · have hrow24 : vga.row ≠ 24 := by omega
    have hnext : (vga.row + 1) * 80 + vga.col = ((row * 80 + col + 80 : Nat) : Int) := by omega
    rw [if_neg hrow24, vgaRead_of_lt hnext (by omega), ok_bind, vgaWrite_of_lt hindex (by omega),
      if_pos (by omega)]

theorem scrollBetween_of_mem {addr : Nat → BitVec 16} {k : Nat} (h : i ≤ k ∧ k < j) :
    scrollBetween i j addr k = scrolled addr k := if_pos h

theorem scrollBetween_of_notMem {addr : Nat → BitVec 16} {k : Nat} (h : ¬ (i ≤ k ∧ k < j)) :
    scrollBetween i j addr k = addr k := if_neg h

/-- What comes up depends on the cell below only. -/
theorem scrolled_congr {addr addr' : Nat → BitVec 16} {k : Nat}
    (h : addr (k + 80) = addr' (k + 80)) :
    scrolled addr k = scrolled addr' k := by
  rw [scrolled, scrolled, h]

/-- Scrolling a cell and then those behind it. -/
theorem scrollBetween_update {addr : Nat → BitVec 16} (hij : i < j) :
    scrollBetween (i + 1) j (Function.update addr i (scrolled addr i)) =
      scrollBetween i j addr := by
  funext k
  by_cases hk : k = i
  · subst hk
    rw [scrollBetween_of_notMem (by omega), Function.update_self,
      scrollBetween_of_mem ⟨Nat.le_refl k, hij⟩]
  · by_cases hrange : i + 1 ≤ k ∧ k < j
    · rw [scrollBetween_of_mem hrange, scrollBetween_of_mem (by omega)]
      -- the cell that is read lies behind the one that was written
      exact scrolled_congr (Function.update_of_ne (by omega) ..)
    · rw [scrollBetween_of_notMem hrange, scrollBetween_of_notMem (by omega),
        Function.update_of_ne hk]

/-- The inner loop scrolls the rest of its row. -/
theorem makeSpaceCols_eq (n : Nat) {vga : Vga} {row col : Nat} (hrow : vga.row = row)
    (hcol : vga.col = col) (hrow' : row < 25) (hn : col + n = 80) :
    makeSpaceCols vga = .ok { vga with
      col := 80, addr := scrollBetween (row * 80 + col) (row * 80 + 80) vga.addr } := by
  induction n generalizing vga col with
  | zero =>
    have hend : ¬ vga.col < 80 := by omega
    have hempty : scrollBetween (row * 80 + col) (row * 80 + 80) vga.addr = vga.addr := by
      funext k
      exact if_neg (by omega)
    have hcol80 : vga.col = 80 := by omega
    rw [makeSpaceCols, if_neg hend, hempty, ← hcol80]
  | succ n ih =>
    have hin : vga.col < 80 := by omega
    rw [makeSpaceCols, if_pos hin]
    have hcell := makeSpaceCell_eq hrow hcol hrow' (by omega)
    split
    · next i heq =>
      rw [hcell] at heq
      cases heq
    · next vga' heq =>
      rw [hcell] at heq
      obtain rfl := Except.ok.inj heq
      -- the state after one cell: the next column, and this cell moved up
      let next : Vga := { vga with
        col := vga.col + 1
        addr := Function.update vga.addr (row * 80 + col) (scrolled vga.addr (row * 80 + col)) }
      have hnext : next.col = ((col + 1 : Nat) : Int) := by
        show vga.col + 1 = _
        omega
      have hrest := ih (show next.row = row from hrow) hnext (by omega)
      refine hrest.trans ?_
      rw [← Nat.add_assoc, scrollBetween_update (by omega)]

theorem scrollBetween_scrollBetween {addr : Nat → BitVec 16} {k : Nat} (hij : i ≤ j) (hjk : j ≤ k) :
    scrollBetween j k (scrollBetween i j addr) = scrollBetween i k addr := by
  funext l
  by_cases hl : l < j
  · rw [scrollBetween_of_notMem (by omega)]
    by_cases hil : i ≤ l
    · rw [scrollBetween_of_mem ⟨hil, hl⟩, scrollBetween_of_mem ⟨hil, by omega⟩]
    · rw [scrollBetween_of_notMem (by omega), scrollBetween_of_notMem (by omega)]
  · by_cases hlk : l < k
    · rw [scrollBetween_of_mem (by omega), scrollBetween_of_mem (by omega)]
      exact scrolled_congr (scrollBetween_of_notMem (by omega))
    · rw [scrollBetween_of_notMem (by omega), scrollBetween_of_notMem (by omega),
        scrollBetween_of_notMem (by omega)]

/-- The outer loop scrolls the rest of the screen. -/
theorem makeSpaceRows_eq (n : Nat) {vga : Vga} {row : Nat} (hrow : vga.row = row)
    (hcol : vga.col = 0) (hn : row + n = 25) :
    makeSpaceRows vga = .ok { vga with
      row := 25, col := 0, addr := scrollBetween (row * 80) 2000 vga.addr } := by
  induction n generalizing vga row with
  | zero =>
    have hend : ¬ vga.row < 25 := by omega
    have hempty : scrollBetween (row * 80) 2000 vga.addr = vga.addr := by
      funext k
      exact if_neg (by omega)
    have hrow25 : vga.row = 25 := by omega
    rw [makeSpaceRows, if_neg hend, hempty, ← hrow25, ← hcol]
  | succ n ih =>
    have hin : vga.row < 25 := by omega
    rw [makeSpaceRows, if_pos hin]
    have hcols := makeSpaceCols_eq 80 hrow (show vga.col = (0 : Nat) from hcol) (by omega) rfl
    split
    · next i heq =>
      rw [hcols] at heq
      cases heq
    · next vga' heq =>
      rw [hcols] at heq
      obtain rfl := Except.ok.inj heq
      have hnext : vga.row + 1 = ((row + 1 : Nat) : Int) := by omega
      have hstart : (row + 1) * 80 = row * 80 + 80 := by omega
      refine (ih hnext rfl (by omega)).trans ?_
      rw [hstart, scrollBetween_scrollBetween (by omega) (by omega), Nat.add_zero]

/-- Scrolling, from any cursor. -/
theorem makeSpace_spec (vga : Vga) :
    makeSpace vga = .ok { row := 24, col := 0, addr := scrollBetween 0 2000 vga.addr } := by
  let start : Vga := { vga with row := 0, col := 0 }
  have hrow : start.row = (0 : Nat) := rfl
  have hrows := makeSpaceRows_eq 25 hrow rfl rfl
  rw [makeSpace, hrows]
  rfl

end Scroll

/-! ## The cursor as a position -/

/-- The cursor is at the cell `p`. -/
structure Vga.At (vga : Vga) (p : Nat) : Prop where
  row_eq : vga.row = (p / 80 : Nat)
  col_eq : vga.col = (p % 80 : Nat)
  lt : p < 2000

/-- The cursor at the cell `p`, over these cells. -/
def cursorAt (p : Nat) (addr : Nat → BitVec 16) : Vga := ⟨(p / 80 : Nat), (p % 80 : Nat), addr⟩

/-- Whether `mapToVGA` scrolls. -/
def makesSpace (vga : Vga) (c : BitVec 8) : Bool :=
  if c = 0x0A then vga.row = 24 else vga.row = 24 ∧ vga.col = 79

section Position

variable {vga : Vga} {p : Nat} {c : BitVec 8}

theorem cursorAt_at {addr : Nat → BitVec 16} (h : p < 2000) : (cursorAt p addr).At p :=
  ⟨rfl, rfl, h⟩

theorem Vga.At.index_eq (h : vga.At p) : vga.row * 80 + vga.col = (p : Int) := by
  have hrow := h.row_eq
  have hcol := h.col_eq
  omega

/-- A character that is written: the cursor goes on, and from the last cell the screen scrolls. -/
theorem Vga.At.mapToVGA (h : vga.At p) (hc : c ≠ 0x0A) :
    (makesSpace vga c = true ↔ p = 1999) ∧
    Pelikan.mapToVGA vga c = .ok (if p = 1999 then
        cursorAt 1920 (scrollBetween 0 2000 (Function.update vga.addr p (charCell c)))
      else cursorAt (p + 1) (Function.update vga.addr p (charCell c))) := by
  have hrow := h.row_eq
  have hcol := h.col_eq
  have hlt := h.lt
  have hbefore : vga.row < 25 := by omega
  have hcol80 : vga.col < 80 := by omega
  refine ⟨?_, ?_⟩
  · rw [makesSpace, if_neg hc, decide_eq_true_iff]
    omega
  · rw [Pelikan.mapToVGA, if_neg fun hbreak => hc hbreak.1, if_neg fun hbreak => hc hbreak.1,
      if_pos hbefore, if_pos hcol80, vgaWrite_of_lt h.index_eq hlt, ok_bind]
    dsimp only
    by_cases hfull : vga.col + 1 ≥ 80
    · rw [if_pos hfull]
      by_cases hlast : vga.row + 1 ≥ 25
      · rw [if_pos hlast, makeSpace_spec, if_pos (by omega)]
        rfl
      · -- the beginning of the next row
        have hnext : vga.row + 1 = ((p + 1) / 80 : Nat) ∧ ((p + 1) % 80 : Nat) = 0 := by omega
        rw [if_neg hlast, if_neg (by omega), cursorAt, hnext.1, hnext.2]
        rfl
    · have hnext : vga.row = ((p + 1) / 80 : Nat) ∧ vga.col + 1 = ((p + 1) % 80 : Nat) := by omega
      rw [if_neg hfull, if_neg (by omega), cursorAt, ← hnext.1, ← hnext.2]

/-- A new line: the next row, or the last one after the screen has scrolled. -/
theorem Vga.At.newline (h : vga.At p) :
    ∃ vga' q, Pelikan.mapToVGA vga 0x0A = .ok vga' ∧ vga'.At q := by
  have hrow := h.row_eq
  have hlt := h.lt
  by_cases hlast : vga.row = 24
  · rw [Pelikan.mapToVGA, if_neg fun hrow => hrow.2 hlast, if_pos ⟨rfl, hlast⟩, makeSpace_spec]
    exact ⟨_, 1920, rfl, rfl, rfl, by decide⟩
  · rw [Pelikan.mapToVGA, if_pos ⟨rfl, hlast⟩]
    refine ⟨_, (p / 80 + 1) * 80, rfl, ?_, ?_, ?_⟩
    · show vga.row + 1 = _
      omega
    · show (0 : Int) = _
      omega
    · omega

/-- The cursor steps back and the cell is blanked. -/
theorem Vga.At.removeChar (h : vga.At (p + 1)) :
    Pelikan.removeChar vga = .ok (cursorAt p (Function.update vga.addr p 0x20)) := by
  have hrow := h.row_eq
  have hcol := h.col_eq
  have hlt := h.lt
  have hp : p < 2000 := Nat.lt_of_succ_lt hlt
  rw [Pelikan.removeChar]
  dsimp only
  by_cases htop : vga.row > 0
  · rw [if_pos htop]
    by_cases hfirst : vga.col = 0
    · have hprev : vga.row - 1 = (p / 80 : Nat) ∧ (79 : Int) = (p % 80 : Nat) := by omega
      have hindex : (vga.row - 1) * 80 + 79 = (p : Int) := by omega
      rw [if_pos hfirst, vgaWrite_of_lt hindex hp, cursorAt, ← hprev.1, ← hprev.2]
    · have hprev : vga.row = (p / 80 : Nat) ∧ vga.col - 1 = (p % 80 : Nat) := by omega
      have hindex : vga.row * 80 + (vga.col - 1) = (p : Int) := by omega
      rw [if_neg hfirst, if_pos (by omega), vgaWrite_of_lt hindex hp, cursorAt, ← hprev.1,
        ← hprev.2]
  · have hprev : vga.row = (p / 80 : Nat) ∧ vga.col - 1 = (p % 80 : Nat) := by omega
    have hindex : vga.row * 80 + (vga.col - 1) = (p : Int) := by omega
    rw [if_neg htop, if_pos (by omega), vgaWrite_of_lt hindex hp, cursorAt, ← hprev.1, ← hprev.2]

/-- In the first cell there is nothing to remove. -/
theorem Vga.At.removeChar_zero (h : vga.At 0) : Pelikan.removeChar vga = .ok vga := by
  have hrow := h.row_eq
  have hcol := h.col_eq
  rw [Pelikan.removeChar, if_neg (by omega), if_neg (by omega)]

/-- What every character keeps, a string keeps. -/
theorem print_keeps {P : Vga → Prop}
    (hmap : ∀ vga c, P vga → ∃ vga', mapToVGA vga c = .ok vga' ∧ P vga') (h : P vga)
    (s : List (BitVec 8)) : ∃ vga', print vga s = .ok vga' ∧ P vga' := by
  induction s generalizing vga with
  | nil => exact ⟨vga, rfl, h⟩
  | cons c s ih =>
    rw [print]
    by_cases hnul : c = 0
    · rw [if_pos hnul]
      exact ⟨vga, rfl, h⟩
    · obtain ⟨vga₁, hmapped, h₁⟩ := hmap vga c h
      rw [if_neg hnul, hmapped, ok_bind]
      exact ih h₁

/-- The cursor is on the screen. -/
def Vga.OnScreen (vga : Vga) : Prop := ∃ p, vga.At p

/-- A character is written inside the screen and leaves the cursor there. -/
theorem Vga.OnScreen.mapToVGA (h : vga.OnScreen) (c : BitVec 8) :
    ∃ vga', Pelikan.mapToVGA vga c = .ok vga' ∧ vga'.OnScreen := by
  obtain ⟨p, hp⟩ := h
  by_cases hc : c = 0x0A
  · obtain ⟨vga', q, hmap, hq⟩ := hp.newline
    rw [hc]
    exact ⟨vga', hmap, q, hq⟩
  · refine ⟨_, (hp.mapToVGA hc).2, ?_⟩
    have hlt := hp.lt
    by_cases hlast : p = 1999
    · rw [if_pos hlast]
      exact ⟨_, cursorAt_at (by decide)⟩
    · rw [if_neg hlast]
      exact ⟨_, cursorAt_at (by omega)⟩

theorem Vga.OnScreen.print (h : vga.OnScreen) (s : List (BitVec 8)) :
    ∃ vga', Pelikan.print vga s = .ok vga' ∧ vga'.OnScreen :=
  print_keeps (fun _ c h => h.mapToVGA c) h s

theorem Vga.OnScreen.printAll (h : vga.OnScreen) (texts : List (List (BitVec 8))) :
    ∃ vga', Pelikan.printAll vga texts = .ok vga' ∧ vga'.OnScreen := by
  induction texts generalizing vga with
  | nil => exact ⟨vga, rfl, h⟩
  | cons s texts ih =>
    obtain ⟨vga₁, hprint, h₁⟩ := h.print s
    rw [Pelikan.printAll, hprint, ok_bind]
    exact ih h₁

/-- Taking a character back stays inside the screen. -/
theorem Vga.OnScreen.removeChar (h : vga.OnScreen) :
    ∃ vga', Pelikan.removeChar vga = .ok vga' ∧ vga'.OnScreen := by
  obtain ⟨p, hp⟩ := h
  cases p with
  | zero => exact ⟨vga, hp.removeChar_zero, 0, hp⟩
  | succ p => exact ⟨_, hp.removeChar, p, cursorAt_at (Nat.lt_of_succ_lt hp.lt)⟩

end Position

/-! ## The rows on the screen -/

/-- The screen shows these rows, padded with blanks. -/
structure Shows (rows : List (List (BitVec 8))) (vga : Vga) : Prop where
  length_le : rows.length ≤ 25
  char_eq : ∀ row < 25, ∀ col < 80, vga.char row col = (rows.getD row []).getD col 0x20

/-- The screen shows the last rows, and the cursor is at the end of the very last. -/
structure Displays (rows : List (List (BitVec 8))) (vga : Vga) : Prop where
  shows : Shows (lastRows 25 rows) vga
  row_eq : vga.row = (min 25 rows.length : Nat) - 1
  cursor : ∃ above last, rows = above ++ [last] ∧ last.length < 80 ∧ vga.col = last.length

/-- The layout of a text on the screen. -/
def screenLayout (text : List (BitVec 8)) : List (List (BitVec 8)) :=
  layout (fun c => c = 0x0A) 80 text

/-- The characters of a C string: those before the NUL. -/
def cString (s : List (BitVec 8)) : List (BitVec 8) := s.takeWhile fun c => c ≠ 0

section

variable {vga vga' : Vga} {rows above : List (List (BitVec 8))} {last row : List (BitVec 8)}
  {c : BitVec 8}

theorem setWidth_charCell (s : BitVec 8) : (charCell s).setWidth 8 = s := by
  unfold charCell
  ext i hi
  simp [BitVec.getLsbD_signExtend, hi]
  omega

/-- The same cells show the same. -/
theorem Shows.congr (h : Shows rows vga) (haddr : vga'.addr = vga.addr) : Shows rows vga' where
  length_le := h.length_le
  char_eq r hr c hc := by
    rw [Vga.char, haddr]
    exact h.char_eq r hr c hc

theorem getD_concat {β : Type} (l : List β) (b d : β) (i : Nat) :
    (l ++ [b]).getD i d = if i = l.length then b else l.getD i d := by
  by_cases hlt : i < l.length
  · rw [if_neg (by omega), List.getD_append _ _ _ _ hlt]
  · rw [List.getD_append_right _ _ _ _ (by omega), List.getD_eq_default l _ (by omega)]
    by_cases hi : i = l.length
    · rw [if_pos hi, hi, Nat.sub_self, List.getD_cons_zero]
    · rw [if_neg hi, List.getD_eq_default]
      rw [List.length_singleton]
      omega

/-- An empty row is shown by a blank one. -/
theorem Shows.blank (h : Shows rows vga) (hlt : rows.length < 25) : Shows (rows ++ [[]]) vga where
  length_le := by
    rw [List.length_append]
    exact hlt
  char_eq r hr c hc := by
    rw [h.char_eq r hr c hc, getD_concat]
    split
    · next hlast => rw [List.getD_eq_default rows _ (Nat.le_of_eq hlast.symm)]
    · rfl

/-- A character at the end of the last row. -/
theorem Shows.write (h : Shows (above ++ [last]) vga) (hcol : last.length < 80) :
    Shows (above ++ [last ++ [c]]) { vga with
      addr := Function.update vga.addr (above.length * 80 + last.length) (charCell c) } where
  length_le := by
    have hle := h.length_le
    rw [List.length_append] at hle ⊢
    exact hle
  char_eq r hr k hk := by
    have hold := h.char_eq r hr k hk
    unfold Vga.char at hold ⊢
    dsimp only
    rw [getD_concat] at hold ⊢
    by_cases hrow : r = above.length
    · rw [if_pos hrow] at hold ⊢
      rw [getD_concat]
      by_cases hk' : k = last.length
      · rw [if_pos hk', hrow, hk', Function.update_self, setWidth_charCell]
      · rw [if_neg hk', Function.update_of_ne (by omega), hold]
    · -- another row, so another cell
      rw [if_neg hrow] at hold ⊢
      rw [Function.update_of_ne (by omega), hold]

/-- Scrolling drops the first of 25 rows. -/
theorem Shows.scroll (h : Shows (row :: rows) vga) (hlen : rows.length = 24) :
    Shows (rows ++ [[]]) { row := 24, col := 0, addr := scrollBetween 0 2000 vga.addr } where
  length_le := by
    rw [List.length_append, List.length_singleton]
    omega
  char_eq r hr c hc := by
    unfold Vga.char
    dsimp only
    rw [scrollBetween_of_mem (by omega), scrolled]
    by_cases hr' : r < 24
    · have hold := h.char_eq (r + 1) (by omega) c hc
      have hindex : r * 80 + c + 80 = (r + 1) * 80 + c := by omega
      rw [if_pos (by omega), hindex, getD_concat, if_neg (by omega)]
      exact hold
    · obtain rfl : r = 24 := by omega
      rw [if_neg (by omega), getD_concat, if_pos hlen.symm]
      rfl

/-- The next row, when there is room below. -/
theorem Shows.nextRow (h : Shows (lastRows 25 rows) vga)
    (hrow : vga.row = (min 25 rows.length : Nat) - 1) (hlt : rows.length < 25) :
    Displays (rows ++ [[]]) { vga with row := vga.row + 1, col := 0 } where
  shows := by
    rw [lastRows_of_le (Nat.le_of_lt hlt)] at h
    rw [lastRows_concat, lastRows_of_le (Nat.le_of_lt_succ hlt)]
    exact (h.blank hlt).congr rfl
  row_eq := by
    rw [List.length_append, List.length_singleton]
    show vga.row + 1 = _
    omega
  cursor := ⟨rows, [], rfl, Nat.zero_lt_succ 79, rfl⟩

/-- The next row, when the screen scrolls. -/
theorem Shows.scrollRow (h : Shows (lastRows 25 rows) vga) (hle : 25 ≤ rows.length) :
    Displays (rows ++ [[]]) { row := 24, col := 0, addr := scrollBetween 0 2000 vga.addr } where
  shows := by
    obtain ⟨row, hrows⟩ := lastRows_succ (n := 24) hle
    rw [hrows] at h
    rw [lastRows_concat]
    refine h.scroll ?_
    rw [length_lastRows]
    omega
  row_eq := by
    rw [List.length_append, List.length_singleton]
    show (24 : Int) = _
    omega
  cursor := ⟨rows, [], rfl, Nat.zero_lt_succ 79, rfl⟩

/-- One character more. -/
theorem Displays.mapToVGA (h : Displays (above ++ [last]) vga) (c : BitVec 8) :
    ∃ vga', mapToVGA vga c = .ok vga' ∧
      Displays (above ++ putChar (fun c => c = 0x0A) 80 last c) vga' := by
  obtain ⟨hshows, hrow, above', last', hlast, hlt, hcol⟩ := h
  obtain ⟨rfl, hsingle⟩ := List.append_inj' hlast rfl
  obtain rfl := (List.cons.inj hsingle).1
  have hlen : (above ++ [last]).length = above.length + 1 := by simp
  unfold Pelikan.mapToVGA putChar
  by_cases hbreak : c = 0x0A
  · rw [if_pos (decide_eq_true hbreak)]
    have hrows : above ++ [last, []] = above ++ [last] ++ [[]] := by simp
    rw [hrows]
    by_cases hfit : (above ++ [last]).length < 25
    · rw [if_pos ⟨hbreak, by omega⟩]
      exact ⟨_, rfl, hshows.nextRow hrow hfit⟩
    · rw [if_neg (by omega), if_pos ⟨hbreak, by omega⟩, makeSpace_spec]
      exact ⟨_, rfl, hshows.scrollRow (by omega)⟩
  · have hnobreak : ¬ decide (c = 0x0A) = true := by simpa using hbreak
    have hinside : vga.row < 25 := by omega
    have hcol80 : vga.col < 80 := by omega
    -- the row on the screen
    have hlen' : (lastRows 24 above).length = min 24 above.length := length_lastRows 24 above
    have hindex : vga.row * 80 + vga.col =
        (((lastRows 24 above).length * 80 + last.length : Nat) : Int) := by omega
    rw [lastRows_concat] at hshows
    have hwritten := hshows.write (c := c) hlt
    rw [← lastRows_concat] at hwritten
    have hlen'' : (above ++ [last ++ [c]]).length = (above ++ [last]).length := by simp
    rw [if_neg hnobreak, if_neg fun hc => hbreak hc.1, if_neg fun hc => hbreak hc.1,
      if_pos hinside, if_pos hcol80, vgaWrite_of_lt hindex (by omega), ok_bind]
    dsimp only
    by_cases hfull : last.length + 1 = 80
    · have hrows : above ++ [last ++ [c], []] = above ++ [last ++ [c]] ++ [[]] := by simp
      rw [if_pos hfull, if_pos (by omega), hrows]
      by_cases hfit : (above ++ [last ++ [c]]).length < 25
      · rw [if_neg (by omega)]
        exact ⟨_, rfl, hwritten.nextRow (by rw [hlen'']; exact hrow) hfit⟩
      · rw [if_pos (by omega), makeSpace_spec]
        exact ⟨_, rfl, hwritten.scrollRow (by omega)⟩
    · rw [if_neg hfull, if_neg (by omega)]
      refine ⟨_, rfl, hwritten.congr rfl, ?_, above, last ++ [c], rfl, ?_, ?_⟩
      · rw [hlen'']
        exact hrow
      · rw [List.length_append, List.length_singleton]
        omega
      · rw [List.length_append, List.length_singleton]
        show vga.col + 1 = _
        omega

/-- A string behind a text. -/
theorem Displays.print {text : List (BitVec 8)} (h : Displays (screenLayout text) vga)
    (s : List (BitVec 8)) :
    ∃ vga', print vga s = .ok vga' ∧ Displays (screenLayout (text ++ cString s)) vga' := by
  induction s generalizing vga text with
  | nil =>
    refine ⟨vga, rfl, ?_⟩
    rw [cString, List.takeWhile_nil, List.append_nil]
    exact h
  | cons c s ih =>
    unfold Pelikan.print
    by_cases hnul : c = 0
    · have hempty : cString (c :: s) = [] := List.takeWhile_cons_of_neg (by simpa using hnul)
      rw [if_pos hnul, hempty, List.append_nil]
      exact ⟨vga, rfl, h⟩
    · have hcons : cString (c :: s) = c :: cString s :=
        List.takeWhile_cons_of_pos (by simpa using hnul)
      obtain ⟨above, last, hrows, hnext⟩ := layout_concat (fun c => c = 0x0A) 80 text c
      have hbefore : Displays (above ++ [last]) vga := hrows ▸ h
      obtain ⟨vga₁, hmap, h₁⟩ := hbefore.mapToVGA c
      rw [← hnext] at h₁
      obtain ⟨vga₂, hprint, h₂⟩ := ih (show Displays (screenLayout (text ++ [c])) vga₁ from h₁)
      rw [if_neg hnul, hmap, ok_bind, hcons, ← List.singleton_append, ← List.append_assoc]
      exact ⟨vga₂, hprint, h₂⟩

/-- The empty text on a blank screen. -/
theorem displays_blank (hrow : vga.row = 0) (hcol : vga.col = 0)
    (hblank : ∀ row < 25, ∀ col < 80, vga.char row col = 0x20) :
    Displays (screenLayout []) vga where
  shows := by
    constructor
    · decide
    · intro row hr col hc
      rw [hblank row hr col hc]
      cases row <;> rfl
  row_eq := hrow
  cursor := ⟨[], [], rfl, Nat.zero_lt_succ 79, hcol⟩

theorem Displays.printAll {text : List (BitVec 8)} (h : Displays (screenLayout text) vga)
    (texts : List (List (BitVec 8))) :
    ∃ vga', printAll vga texts = .ok vga' ∧
      Displays (screenLayout (text ++ texts.flatMap cString)) vga' := by
  induction texts generalizing vga text with
  | nil =>
    refine ⟨vga, rfl, ?_⟩
    rw [List.flatMap_nil, List.append_nil]
    exact h
  | cons s texts ih =>
    obtain ⟨vga₁, hprint, h₁⟩ := h.print s
    obtain ⟨vga₂, hall, h₂⟩ := ih h₁
    rw [Pelikan.printAll, hprint, ok_bind, List.flatMap_cons, ← List.append_assoc]
    exact ⟨vga₂, hall, h₂⟩

end

/-- From a blank screen, the calls of `print` stay on the screen, and the screen shows the last
25 rows of all that was printed. -/
theorem printAll_displays {vga : Vga} (hrow : vga.row = 0) (hcol : vga.col = 0)
    (hblank : ∀ row < 25, ∀ col < 80, vga.char row col = 0x20) (texts : List (List (BitVec 8))) :
    ∃ vga', printAll vga texts = .ok vga' ∧
      Displays (screenLayout (texts.flatMap cString)) vga' :=
  (displays_blank hrow hcol hblank).printAll texts

/-- The screen after it was cleared. -/
def blankVga : Vga where
  row := 0
  col := 0
  addr := fun _ => 0x20

theorem printAll_displays_blankVga :
    ∃ vga', printAll blankVga [[0x48, 0x69, 0x0A, 0]] = .ok vga' ∧
      Displays (screenLayout [0x48, 0x69, 0x0A]) vga' :=
  printAll_displays rfl rfl (fun _ _ _ _ => rfl) [[0x48, 0x69, 0x0A, 0]]

end Pelikan

end SystemsProjects
