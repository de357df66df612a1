import SystemsProjects.Pelikan.Shell

/-!
# The line on the screen (`shell_run`, `mapToVGA`, `removeChar`)

The shell echoes the characters that it accepts, and takes them back from the screen when it
takes them back from the line.

- `ShowsLine vga start line`: from the cell `start` on the screen shows the line, and blanks.
- `ShowsLine.write`, `ShowsLine.erase`: what one character and one backspace make of it, also
  where the row ends and where the screen scrolls.
- `typeKeys_showsLine`: the screen shows the line buffer, for any sequence of both.

`start` is a number of cells from the top, and the whole line moves up by a row whenever its
echo scrolls the screen. So the statement has the number of scrolls in it, and a line can be
taken back past the beginning of a row, since `removeChar` goes back over it. What stood above
the line is not spoken of.
-/

namespace SystemsProjects

namespace Pelikan

/-- From the cell `start` on there are the characters of the line and then blanks, and the cursor
is just past the last character. -/
structure ShowsLine (vga : Vga) (start : Nat) (line : List (BitVec 8)) : Prop where
  cursor : vga.At (start + line.length)
  char_eq : ∀ q, start ≤ q → q < 2000 → (vga.addr q).setWidth 8 = line.getD (q - start) 0x20

section

variable {vga vga' : Vga} {start : Nat} {line : List (BitVec 8)} {c : BitVec 8}

/-- One character more. When it fills the last cell, the line moves up by a row. -/
theorem ShowsLine.write (h : ShowsLine vga start line) (hc : c ≠ 0x0A) (hlen : line.length < 127) :
    ∃ vga', mapToVGA vga c = .ok vga' ∧
      if makesSpace vga c then 80 ≤ start ∧ ShowsLine vga' (start - 80) (line ++ [c])
      else ShowsLine vga' start (line ++ [c]) := by
  obtain ⟨hscroll, hmap⟩ := h.cursor.mapToVGA hc
  have hlt := h.cursor.lt
  refine ⟨_, hmap, ?_⟩
  have hlength : (line ++ [c]).length = line.length + 1 := by simp
  -- the last cell of the screen: everything moves up a row
  by_cases hlast : start + line.length = 1999
  · rw [if_pos (hscroll.mpr hlast), if_pos hlast]
    refine ⟨by omega, ?_, fun q hq hq' => ?_⟩
    · have hend : start - 80 + (line ++ [c]).length = 1920 := by omega
      rw [hend]
      exact cursorAt_at (by decide)
    · -- the cell shows what the cell below it has shown
      show (scrollBetween 0 2000 _ q).setWidth 8 = _
      rw [scrollBetween_of_mem ⟨Nat.zero_le q, hq'⟩, scrolled, getD_concat]
      by_cases hrow : q < 1920
      · rw [if_pos hrow]
        by_cases hnew : q + 80 = start + line.length
        · rw [hnew, Function.update_self, setWidth_charCell, if_pos (by omega)]
        · have hindex : q + 80 - start = q - (start - 80) := by omega
          rw [Function.update_of_ne hnew, h.char_eq _ (by omega) (by omega), hindex,
            if_neg (by omega)]
      · rw [if_neg hrow, if_neg (by omega), List.getD_eq_default _ _ (by omega)]
        rfl
  · -- the cell is not the last one, and nothing moves
    rw [if_neg fun hspace => hlast (hscroll.mp hspace), if_neg hlast]
    constructor
    · rw [hlength, ← Nat.add_assoc]
      exact cursorAt_at (by omega)
    · intro q hq hq'
      show (Function.update vga.addr (start + line.length) (charCell c) q).setWidth 8 = _
      rw [getD_concat]
      by_cases hnew : q = start + line.length
      · rw [hnew, Function.update_self, setWidth_charCell, if_pos (by omega)]
      · rw [Function.update_of_ne hnew, h.char_eq q hq hq', if_neg (by omega)]

/-- One character less. -/
theorem ShowsLine.erase (h : ShowsLine vga start line) (hne : line ≠ []) :
    ∃ vga', removeChar vga = .ok vga' ∧ ShowsLine vga' start line.dropLast := by
  have hpos := List.length_pos_iff.mpr hne
  have hlt := h.cursor.lt
  have hcursor : vga.At (start + (line.length - 1) + 1) := by
    have hlast : start + (line.length - 1) + 1 = start + line.length := by omega
    rw [hlast]
    exact h.cursor
  refine ⟨_, hcursor.removeChar, ?_, fun q hq hq' => ?_⟩
  · rw [List.length_dropLast]
    exact cursorAt_at (by omega)
  · show (Function.update vga.addr (start + (line.length - 1)) 0x20 q).setWidth 8 = _
    rw [getD_dropLast]
    by_cases hlast : q = start + (line.length - 1)
    · rw [hlast, Function.update_self, if_neg (by omega)]
      rfl
    · rw [Function.update_of_ne hlast, h.char_eq q hq hq']
      split
      · rfl
      · rw [List.getD_eq_default _ _ (by omega)]

end

/-! ## Keys -/

/-- A printable character of ASCII. -/
def Printable (c : BitVec 8) : Prop := 0x20 ≤ c.toNat ∧ c.toNat ≤ 0x7E

instance (c : BitVec 8) : Decidable (Printable c) := inferInstanceAs (Decidable (_ ∧ _))

/-- Whether the echo of the character scrolls the screen. -/
def Shell.scrollsOn (s : Shell) (c : BitVec 8) : Bool :=
  c ≠ 0x08 ∧ c ≠ 0x0A ∧ s.linebufIndex < 127 ∧ makesSpace s.vga c

/-- The loop of `shell_run`, with the number of times that the screen has scrolled. -/
def typeKeys (s : Shell) (scrolls : Nat) : List Key → Except ShellFault (Shell × Nat)
  | [] => .ok (s, scrolls)
  | key :: keys => do
    let (s', _) ← shellKey s key
    typeKeys s' (if s.scrollsOn key.c then scrolls + 1 else scrolls) keys

section

variable {s s' : Shell} {key : Key} {line : List (BitVec 8)} {d : List Dispatched} {start : Nat}

/-- `print` of a string of one character. -/
theorem printAll_singleton {vga : Vga} {c : BitVec 8} (hc : c ≠ 0) :
    printAll vga [[c]] = mapToVGA vga c := by
  rw [printAll, print, if_neg hc]
  cases mapToVGA vga c with
  | error i => rfl
  | ok vga' => rfl

/-- A printable character is no backspace, no line feed and no NUL. -/
theorem Printable.ne {c : BitVec 8} (h : Printable c) : c ≠ 0x08 ∧ c ≠ 0x0A ∧ c ≠ 0 := by
  have hlo := h.1
  refine ⟨?_, ?_, ?_⟩
  · rintro rfl
    exact absurd hlo (by decide)
  · rintro rfl
    exact absurd hlo (by decide)
  · rintro rfl
    exact absurd hlo (by decide)

/-- A call that has changed the screen. -/
theorem vga_of_prints {texts : List (List (BitVec 8))} (h : s.prints texts = .ok s') :
    printAll s.vga texts = .ok s'.vga := by
  rw [Shell.prints] at h
  split at h
  · next vga hprint =>
    obtain rfl := Except.ok.inj h
    exact hprint
  · cases h

/-- The shell takes the character from its screen. -/
theorem vga_of_removeChar (h : s.removeChar = .ok s') : removeChar s.vga = .ok s'.vga := by
  rw [Shell.removeChar] at h
  split at h
  · next vga hremove =>
    obtain rfl := Except.ok.inj h
    exact hremove
  · cases h

/-- The echo of a character. -/
theorem vga_of_character (h : shellKey s key = .ok (s', d)) (hprintable : Printable key.c)
    (hroom : s.linebufIndex < 127) : mapToVGA s.vga key.c = .ok s'.vga := by
  obtain ⟨hback, hbreak, hnul⟩ := hprintable.ne
  rw [shellKey, if_neg hback, if_neg hbreak, if_pos hroom, charsWrite_of_lt (by omega),
    ok_bind] at h
  obtain ⟨s₁, hprint, hdone⟩ := bind_eq_ok.mp h
  obtain ⟨rfl, -⟩ := Prod.mk.inj (Except.ok.inj hdone)
  have hall := vga_of_prints hprint
  rwa [printAll_singleton hnul] at hall

/-- The echo of a backspace. -/
theorem vga_of_backspace (h : shellKey s key = .ok (s', d)) (hc : key.c = 0x08)
    (hpos : 0 < s.linebufIndex) (hle : s.linebufIndex ≤ 127) :
    removeChar s.vga = .ok s'.vga := by
  rw [shellKey, if_pos hc, if_pos hpos, charsWrite_of_lt (by omega), ok_bind] at h
  obtain ⟨s₁, hremove, hdone⟩ := bind_eq_ok.mp h
  obtain ⟨rfl, -⟩ := Prod.mk.inj (Except.ok.inj hdone)
  have hall := vga_of_removeChar hremove
  exact hall

/-- Keys that are not accepted leave the screen as it is. -/
theorem eq_of_ignored (h : shellKey s key = .ok (s', d))
    (hkey : (key.c = 0x08 ∧ s.linebufIndex = 0) ∨ (Printable key.c ∧ 127 ≤ s.linebufIndex)) :
    s' = s := by
  rcases hkey with ⟨hc, hzero⟩ | ⟨hprintable, hfull⟩
  · rw [shellKey, if_pos hc, if_neg (by omega)] at h
    exact (Prod.mk.inj (Except.ok.inj h)).1.symm
  · obtain ⟨hback, hbreak, -⟩ := hprintable.ne
    rw [shellKey, if_neg hback, if_neg hbreak, if_neg (by omega)] at h
    exact (Prod.mk.inj (Except.ok.inj h)).1.symm

/-- The line buffer holds the line, and the screen shows it. -/
structure LineShown (s : Shell) (start : Nat) (line : List (BitVec 8)) : Prop where
  holds : s.Holds line
  shows : ShowsLine s.vga start line

/-- A key, and how far the line moves up. -/
theorem LineShown.shellKey (h : LineShown s start line)
    (hkey : Printable key.c ∨ key.c = 0x08) :
    ∃ s' d, Pelikan.shellKey s key = .ok (s', d) ∧
      if s.scrollsOn key.c then 80 ≤ start ∧ LineShown s' (start - 80) (editLine line key.c)
      else LineShown s' start (editLine line key.c) := by
  have hindex := h.holds.index_eq
  have hlen := h.holds.length_le
  have hnul : key.c ≠ 0 := by
    rcases hkey with hprintable | hback
    · exact hprintable.ne.2.2
    · rw [hback]
      decide
  obtain ⟨s', hrun, hholds⟩ := h.holds.shellKey hnul
  refine ⟨s', _, hrun, ?_⟩
  rcases hkey with hprintable | hback
  · obtain ⟨hback, hbreak, -⟩ := hprintable.ne
    have hedit : editLine line key.c = if line.length < 127 then line ++ [key.c] else line := by
      rw [editLine, if_neg hback, if_neg hbreak]
    rw [hedit] at hholds ⊢
    by_cases hroom : line.length < 127
    · obtain ⟨vga, hmap, hshows⟩ := h.shows.write hbreak hroom
      obtain rfl := Except.ok.inj (hmap.symm.trans (vga_of_character hrun hprintable (by omega)))
      have hscroll : s.scrollsOn key.c = makesSpace s.vga key.c := by
        rw [Shell.scrollsOn, Bool.eq_iff_iff, decide_eq_true_iff]
        have hindex127 : s.linebufIndex < 127 := by omega
        exact ⟨fun hall => hall.2.2.2, fun hspace => ⟨hback, hbreak, hindex127, hspace⟩⟩
      rw [hscroll, if_pos hroom]
      rw [if_pos hroom] at hholds
      split at hshows
      · next hspace =>
        rw [if_pos hspace]
        exact ⟨hshows.1, hholds, hshows.2⟩
      · next hspace =>
        rw [if_neg hspace]
        exact ⟨hholds, hshows⟩
    · -- the line is full: nothing is stored and nothing is echoed
      obtain rfl := eq_of_ignored hrun (.inr ⟨hprintable, by omega⟩)
      have hscroll : ¬ s'.scrollsOn key.c = true := by
        rw [Shell.scrollsOn, decide_eq_true_iff]
        omega
      rw [if_neg hscroll, if_neg hroom]
      exact h
  · have hscroll : ¬ s.scrollsOn key.c = true := by
      rw [Shell.scrollsOn, decide_eq_true_iff]
      exact fun hall => hall.1 hback
    have hedit : editLine line key.c = line.dropLast := by rw [editLine, if_pos hback]
    rw [if_neg hscroll]
    rw [hedit] at hholds ⊢
    -- on an empty line the screen is left alone, as what is in front of the line is not typed
    by_cases hempty : line = []
    · obtain rfl := eq_of_ignored hrun (.inl ⟨hback, by rw [hindex, hempty]; rfl⟩)
      rw [hempty] at h ⊢
      exact h
    · have hpos := List.length_pos_iff.mpr hempty
      obtain ⟨vga, hremove, hshows⟩ := h.shows.erase hempty
      obtain rfl := Except.ok.inj
        (hremove.symm.trans (vga_of_backspace hrun hback (by omega) (by omega)))
      exact ⟨hholds, hshows⟩

/-- Any sequence of characters and backspaces. -/
theorem LineShown.typeKeys {keys : List Key} (h : LineShown s start line)
    (hkeys : ∀ key ∈ keys, Printable key.c ∨ key.c = 0x08) (scrolls : Nat) :
    ∃ s' k, Pelikan.typeKeys s scrolls keys = .ok (s', scrolls + k) ∧ 80 * k ≤ start ∧
      LineShown s' (start - 80 * k) ((keys.map Key.c).foldl editLine line) := by
  induction keys generalizing s start line scrolls with
  | nil => exact ⟨s, 0, rfl, Nat.zero_le _, h⟩
  | cons key keys ih =>
    rw [List.forall_mem_cons] at hkeys
    obtain ⟨s₁, d, hrun, h₁⟩ := h.shellKey hkeys.1
    rw [Pelikan.typeKeys, hrun, ok_bind]
    dsimp only
    split at h₁
    · next hscroll =>
      obtain ⟨s₂, k, hrest, hle, h₂⟩ := ih h₁.2 hkeys.2 (scrolls + 1)
      have hcount : scrolls + 1 + k = scrolls + (k + 1) := by omega
      have hstart : start - 80 - 80 * k = start - 80 * (k + 1) := by omega
      rw [if_pos hscroll, hrest, hcount]
      rw [hstart] at h₂
      exact ⟨s₂, k + 1, rfl, by omega, h₂⟩
    · next hscroll =>
      obtain ⟨s₂, k, hrest, hle, h₂⟩ := ih h₁ hkeys.2 scrolls
      rw [if_neg hscroll, hrest]
      exact ⟨s₂, k, rfl, hle, h₂⟩

end

/-- What is on the screen is what will be run. A line that is started at the cell `start`, with
blanks from there on, is shown there after any characters and backspaces: `80` cells further up
for each of the `k` times that the screen has scrolled, with blanks behind it and the cursor just
past its end. It is the line that is in the line buffer, the one that the keys edit. -/
theorem typeKeys_showsLine {s : Shell} {start : Nat} (hempty : s.Holds [])
    (hstart : ShowsLine s.vga start []) {keys : List Key}
    (hkeys : ∀ key ∈ keys, Printable key.c ∨ key.c = 0x08) :
    ∃ s' k line, typeKeys s 0 keys = .ok (s', k) ∧ line = (keys.map Key.c).foldl editLine [] ∧
      s'.Holds line ∧ 80 * k ≤ start ∧ ShowsLine s'.vga (start - 80 * k) line := by
  have hline : LineShown s start [] := ⟨hempty, hstart⟩
  obtain ⟨s', k, hrun, hle, hshown⟩ := hline.typeKeys hkeys 0
  rw [Nat.zero_add] at hrun
  exact ⟨s', k, _, hrun, rfl, hshown.holds, hle, hshown.shows⟩

/-- The cursor in the last cell but one of a blank screen. -/
def shellAtEnd : Shell := { shellZero with vga := cursorAt 1998 fun _ => 0x20 }

/-- The screen scrolls at the second character, and again the line is taken back past it. The line
is then `ad`. -/
theorem typeKeys_showsLine_scroll :
    ∃ s' k line, typeKeys shellAtEnd 0 (['a', 'b', 'c', '\x08', '\x08', 'd'].map typed) =
        .ok (s', k) ∧ line = [0x61, 0x64] ∧ s'.Holds line ∧ 80 * k ≤ 1998 ∧
      ShowsLine s'.vga (1998 - 80 * k) line := by
  have honScreen : (cursorAt 1998 fun _ => 0x20).At 1998 := cursorAt_at (by decide)
  have hholds : shellAtEnd.Holds [] := ⟨fun _ _ => rfl, rfl, by decide, by decide, _, honScreen⟩
  have hshows : ShowsLine shellAtEnd.vga 1998 [] := ⟨honScreen, fun _ _ _ => rfl⟩
  exact typeKeys_showsLine hholds hshows (by decide)

end Pelikan

end SystemsProjects
