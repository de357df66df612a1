import SystemsProjects.Pelikan.Keyboard
import SystemsProjects.Pelikan.Shell

/-!
# The console: from the keyboard to the commands

The keyboard interrupt, the task of the shell and the other tasks, put together. Between two
statements of `shell_run` there can be any number of keys, and other tasks can print.

- `consoleStep`: a step of the keyboard, a round of `shell_run` with the character that
  `kbd_getchar` has given it, or a call of `print` by another task.
- `ConsoleInv`: the accepted keys are the characters the shell is through with, the one it is
  working on, and the pending ones.
- `console_runs`: what is dispatched are the edited lines of the characters it is through with.

Keys are followed from the interrupt to the line. A character is in one of three places: it has
been through a round of the shell, the shell is working on it, or it is pending in the
keyboard's buffer; concatenated they are the keys that were accepted. The two systems,
`Keyboard` and `Shell`, are used as they are, each with its own invariant.
-/

namespace SystemsProjects

namespace Pelikan

/-- The keyboard, the shell and the character in the `c` of `shell_run` while it is worked on.
`pressed` are the characters of all keys so far, `dispatched` the lines that were run. -/
structure Console where
  keyboard : Keyboard
  shell : Shell
  current : Option (BitVec 8)
  pressed : List (BitVec 8)
  dispatched : List Dispatched

/-- What can happen. -/
inductive ConsoleAction where
  /-- a key, a change of the interrupt flag, or a statement of `kbd_getchar` -/
  | keyboard (a : KeyboardAction)
  /-- the body of the loop of `shell_run`, with what the rest of the kernel contributes -/
  | round (key : Key)
  /-- another task prints -/
  | prints (texts : List (List (BitVec 8)))

/-- The key of an interrupt. -/
def KeyboardAction.pressed : KeyboardAction → List (BitVec 8)
  | .key scancode => (keyOf scancode).toList
  | .setInterrupts _ | .getchar | .next => []

/-- What `kbd_getchar` returns with at its last statement. -/
def PopPoint.delivers : PopPoint → Option (BitVec 8)
  | .shortened _ out => some out
  | _ => none

/-- `c` after a step of the keyboard. -/
def Console.currentAfter (s : Console) : KeyboardAction → Option (BitVec 8)
  | .next => s.keyboard.point.delivers.or s.current
  | .key _ | .setInterrupts _ | .getchar => s.current

/-- A call of `print` outside the shell. -/
def Console.prints (s : Console) (texts : List (List (BitVec 8))) : Option Console :=
  match s.shell.prints texts with
  | .ok shell => some { s with shell }
  | .error _ => none

/-- The body of the loop of `shell_run`, once `kbd_getchar` has returned 1. -/
def Console.round (s : Console) (key : Key) : Option Console :=
  if s.current = some key.c then
    match shellKey s.shell key with
    | .ok (shell, log) => some { s with shell, current := none, dispatched := s.dispatched ++ log }
    | .error _ => none
  else none

/-- One step. The shell calls `kbd_getchar` when it is through with the character before. -/
def consoleStep (s : Console) : ConsoleAction → Option Console
  | .keyboard a =>
    if a = .getchar ∧ s.current ≠ none then none
    else
      match keyboardStep s.keyboard a with
      | some keyboard =>
        some { s with keyboard, current := s.currentAfter a, pressed := s.pressed ++ a.pressed }
      | none => none
  | .round key => s.round key
  | .prints texts => s.prints texts

/-- `keyboard_init` has been called, and `shell_run` has cleared its line. -/
structure ConsoleStart (s : Console) : Prop where
  keyboard : KeyboardStart s.keyboard
  shell : ∃ shell : Shell, shell.vga.OnScreen ∧
    s.shell = { shell with linebuf := charsClear shell.linebuf, linebufIndex := 0 }
  current_eq : s.current = none
  pressed_eq : s.pressed = []
  dispatched_eq : s.dispatched = []

/-- The keyboard, the shell and the tasks that print. -/
def consoleSystem : TransitionSystem Console ConsoleAction := .ofFunction ConsoleStart consoleStep

/-! ## Lines of a longer text -/

/-- One more character ends the line that was edited, or goes into it. -/
theorem submitted_concat (line cs : List (BitVec 8)) (c : BitVec 8) :
    submitted line (cs ++ [c]) = submitted line cs ++
      if c = 0x0A ∧ cs.foldl editLine line ≠ [] then [cs.foldl editLine line] else [] := by
  induction cs generalizing line with
  | nil =>
    rw [List.nil_append, submitted, submitted, List.nil_append, List.foldl_nil]
    split
    · rfl
    · rfl
  | cons d cs ih =>
    rw [List.cons_append, submitted, submitted, List.foldl_cons]
    by_cases hline : d = 0x0A ∧ line ≠ []
    · have hempty : editLine line d = [] := by
        rw [editLine, if_neg (by rw [hline.1]; decide), if_pos hline.1]
      rw [if_pos hline, if_pos hline, ih, hempty]
      rfl
    · rw [if_neg hline, if_neg hline, ih]

/-! ## The invariant -/

/-- The characters `done` have been through a round of the shell. -/
structure ConsoleInv (s : Console) (done : List (BitVec 8)) : Prop where
  keyboard : KeyboardInv s.keyboard
  returned_eq : s.keyboard.returned = done ++ s.current.toList
  idle : s.current ≠ none → s.keyboard.point = .outside
  nonzero : 0 ∉ s.keyboard.accepted
  kept : s.keyboard.accepted.Sublist s.pressed
  holds : s.shell.Holds (done.foldl editLine [])
  dispatched_eq : s.dispatched = (submitted [] done).map dispatchedOf

section

variable {s s' : Console} {done : List (BitVec 8)}

/-- A scancode that stands for a key gives a character that is not NUL. -/
theorem ne_zero_of_keyOf {scancode key : BitVec 8} (h : keyOf scancode = some key) : key ≠ 0 := by
  unfold keyOf at h
  split at h
  · cases h
  · simp only at h
    split at h
    · cases h
    · next hne =>
      rw [← Option.some.inj h]
      exact hne

/-- Printing changes nothing of the line. -/
theorem Shell.Holds.of_sameLine {shell shell' : Shell} {line : List (BitVec 8)}
    (h : shell.Holds line) (hsame : SameLine shell shell') : shell'.Holds line where
  eq_getD i hi := by
    rw [hsame.linebuf_eq]
    exact h.eq_getD i hi
  index_eq := hsame.linebufIndex_eq.trans h.index_eq
  length_le := h.length_le
  noNul := h.noNul
  onScreen := hsame.onScreen

/-- What a key changes. -/
theorem keyStep_cases {k k' : Keyboard} {scancode : BitVec 8} (h : keyStep k scancode = some k') :
    k'.point = k.point ∧ k'.returned = k.returned ∧ (k'.accepted = k.accepted ∨
      ∃ key, keyOf scancode = some key ∧ k'.accepted = k.accepted ++ [key]) := by
  unfold keyStep at h
  split at h
  · obtain rfl := Option.some.inj h
    refine ⟨rfl, rfl, ?_⟩
    cases hkey : keyOf scancode with
    | none => exact .inl rfl
    | some key =>
      by_cases hlen : k.rb.len = 256
      · exact .inl (if_pos hlen)
      · exact .inr ⟨key, rfl, if_neg hlen⟩
  · cases h

/-- What a statement of `ringbuf_pop` changes. -/
theorem popStep_cases {k k' : Keyboard} (h : popStep k = some k') :
    k'.accepted = k.accepted ∧ k'.returned = k.returned ++ k.point.delivers.toList ∧
      k.point ≠ .outside ∧ (k.point.delivers ≠ none → k'.point = .outside) := by
  unfold popStep at h
  cases hp : k.point with
  | outside =>
    rw [hp] at h
    cases h
  | entered =>
    rw [hp] at h
    dsimp only at h
    split at h
    · obtain rfl := Option.some.inj h
      simp [PopPoint.delivers]
    · obtain rfl := Option.some.inj h
      simp [PopPoint.delivers]
  | shortened flags out =>
    rw [hp] at h
    obtain rfl := Option.some.inj h
    simp [PopPoint.delivers]
  | _ =>
    rw [hp] at h
    obtain rfl := Option.some.inj h
    simp [PopPoint.delivers]

theorem ConsoleInv.start (h : ConsoleStart s) : ConsoleInv s [] := by
  obtain ⟨shell, hscreen, hshell⟩ := h.shell
  refine ⟨.start h.keyboard, ?_, ?_, ?_, ?_, ?_, h.dispatched_eq⟩
  · rw [h.keyboard.returned_eq, h.current_eq]
    rfl
  · intro hcurrent
    exact absurd h.current_eq hcurrent
  · rw [h.keyboard.accepted_eq]
    exact List.not_mem_nil
  · rw [h.keyboard.accepted_eq]
    exact List.nil_sublist _
  · rw [hshell]
    exact holds_nil hscreen

/-- A key that is accepted is pressed, and is no NUL. -/
theorem ConsoleInv.key (h : ConsoleInv s done) {keyboard : Keyboard} {scancode : BitVec 8}
    (hstep : keyStep s.keyboard scancode = some keyboard) :
    ConsoleInv { s with keyboard, pressed := s.pressed ++ (keyOf scancode).toList } done := by
  obtain ⟨hpoint, hreturned, haccepted⟩ := keyStep_cases hstep
  refine ⟨(h.keyboard.key hstep).1, hreturned.trans h.returned_eq, fun hcurrent => ?_, ?_, ?_,
    h.holds, h.dispatched_eq⟩
  · exact hpoint.trans (h.idle hcurrent)
  · rcases haccepted with heq | ⟨key, hkey, heq⟩
    · dsimp only
      rw [heq]
      exact h.nonzero
    · dsimp only
      rw [heq, List.mem_append, List.mem_singleton, not_or]
      exact ⟨h.nonzero, (ne_zero_of_keyOf hkey).symm⟩
  · rcases haccepted with heq | ⟨key, hkey, heq⟩
    · dsimp only
      rw [heq]
      exact h.kept.trans (List.sublist_append_left ..)
    · dsimp only
      rw [heq, hkey]
      exact h.kept.append (.refl _)

/-- A statement of `kbd_getchar`; the last one gives the character to the shell. -/
theorem ConsoleInv.pop (h : ConsoleInv s done) {keyboard : Keyboard}
    (hstep : popStep s.keyboard = some keyboard) :
    ConsoleInv { s with keyboard, current := s.currentAfter .next } done := by
  obtain ⟨haccepted, hreturned, hinside, houtside⟩ := popStep_cases hstep
  have hnone : s.current = none := by
    by_contra hcurrent
    exact hinside (h.idle hcurrent)
  have hcurrent : s.currentAfter .next = s.keyboard.point.delivers := by
    rw [Console.currentAfter, hnone, Option.or_none]
  refine ⟨h.keyboard.pop hstep, ?_, fun hne => ?_, ?_, ?_, h.holds, h.dispatched_eq⟩
  · dsimp only
    rw [hreturned, h.returned_eq, hnone, hcurrent, Option.toList_none, List.append_nil]
  · dsimp only at hne
    rw [hcurrent] at hne
    exact houtside hne
  · dsimp only
    rw [haccepted]
    exact h.nonzero
  · dsimp only
    rw [haccepted]
    exact h.kept

/-- A step of the keyboard. -/
theorem ConsoleInv.keyboardStep (h : ConsoleInv s done) {a : KeyboardAction} {keyboard : Keyboard}
    (hidle : ¬ (a = .getchar ∧ s.current ≠ none))
    (hstep : Pelikan.keyboardStep s.keyboard a = some keyboard) :
    ConsoleInv { s with keyboard, current := s.currentAfter a, pressed := s.pressed ++ a.pressed }
      done := by
  have hinv := h.keyboard.step hstep
  cases a with
  | key scancode => exact h.key hstep
  | next =>
    have hpop := h.pop hstep
    rwa [KeyboardAction.pressed, List.append_nil]
  | setInterrupts flag =>
    obtain ⟨hpoint, heq⟩ := Option.ite_none_right_eq_some.mp hstep
    obtain rfl := Option.some.inj heq
    rw [KeyboardAction.pressed, List.append_nil]
    exact ⟨hinv, h.returned_eq, fun _ => hpoint, h.nonzero, h.kept, h.holds, h.dispatched_eq⟩
  | getchar =>
    obtain ⟨hpoint, heq⟩ := Option.ite_none_right_eq_some.mp hstep
    obtain rfl := Option.some.inj heq
    rw [KeyboardAction.pressed, List.append_nil]
    exact ⟨hinv, h.returned_eq, fun hne => absurd ⟨rfl, hne⟩ hidle, h.nonzero, h.kept, h.holds,
      h.dispatched_eq⟩

/-- The character the shell works on is no NUL. -/
theorem ConsoleInv.current_ne (h : ConsoleInv s done) {c : BitVec 8} (hc : s.current = some c) :
    c ≠ 0 := by
  rintro rfl
  refine h.nonzero ?_
  rw [← h.keyboard.history, h.returned_eq, hc]
  simp

/-- A round of the shell, with the character that was delivered. -/
theorem ConsoleInv.round (h : ConsoleInv s done) {key : Key} (hc : s.current = some key.c) :
    ∃ s', s.round key = some s' ∧ ConsoleInv s' (done ++ [key.c]) := by
  obtain ⟨shell, hround, hholds⟩ := Shell.Holds.shellKey h.holds (h.current_ne hc)
  refine ⟨_, by rw [Console.round, if_pos hc, hround], ?_⟩
  refine ⟨h.keyboard, ?_, fun hne => absurd rfl hne, h.nonzero, h.kept, ?_, ?_⟩
  · rw [h.returned_eq, hc]
    simp
  · rw [List.foldl_append]
    exact hholds
  · dsimp only
    rw [submitted_concat, h.dispatched_eq, List.map_append]
    split
    · rfl
    · rfl

/-- What a command prints touches neither the line nor the keys. -/
theorem ConsoleInv.prints (h : ConsoleInv s done) (texts : List (List (BitVec 8))) :
    ∃ s', s.prints texts = some s' ∧ ConsoleInv s' done := by
  obtain ⟨shell, hprint, hsame⟩ := prints_sameLine h.holds.onScreen texts
  exact ⟨{ s with shell }, by rw [Console.prints, hprint], h.keyboard, h.returned_eq, h.idle,
    h.nonzero, h.kept, h.holds.of_sameLine hsame, h.dispatched_eq⟩

/-- Every step of the console, with one more key done or none. -/
theorem ConsoleInv.step (h : ConsoleInv s done) {a : ConsoleAction}
    (hstep : consoleStep s a = some s') : ∃ done, ConsoleInv s' done := by
  cases a with
  | keyboard a =>
    rw [consoleStep] at hstep
    split at hstep
    · cases hstep
    · next hidle =>
      split at hstep
      · next keyboard hkeyboard =>
        obtain rfl := Option.some.inj hstep
        exact ⟨done, h.keyboardStep hidle hkeyboard⟩
      · cases hstep
  | round key =>
    have hc : s.current = some key.c := by
      by_contra hne
      rw [consoleStep, Console.round, if_neg hne] at hstep
      cases hstep
    obtain ⟨s₁, hround, hinv⟩ := h.round hc
    obtain rfl := Option.some.inj (hround.symm.trans hstep)
    exact ⟨_, hinv⟩
  | prints texts =>
    obtain ⟨s₁, hprint, hinv⟩ := h.prints texts
    obtain rfl := Option.some.inj (hprint.symm.trans hstep)
    exact ⟨_, hinv⟩

end

/-- **From the keys to the commands.** Whatever order keys, statements of the shell and calls of
`print` come in, the accepted keys are some of the pressed ones in order: first those that the
shell is through with, then the one it is working on, then the pending ones. It has dispatched the
lines that the first of these edit, holds the line they leave, and will not leave its arrays or the
screen in the round for the next. -/
theorem console_runs {s : Console} (h : consoleSystem.Reachable s) :
    s.keyboard.accepted.Sublist s.pressed ∧
    ∃ done, s.keyboard.accepted = done ++ s.current.toList ++ s.keyboard.pending ∧
      s.dispatched = (submitted [] done).map dispatchedOf ∧
      s.shell.Holds (done.foldl editLine []) ∧
      ∀ key, s.current = some key.c → ∃ s', consoleStep s (.round key) = some s' := by
  obtain ⟨done, hinv⟩ : ∃ done, ConsoleInv s done :=
    h.invariant (P := fun s => ∃ done, ConsoleInv s done) (fun _ hs => ⟨[], .start hs⟩)
      fun _ _ _ _ ⟨_, hinv⟩ hstep => hinv.step hstep
  refine ⟨hinv.kept, done, ?_, hinv.dispatched_eq, hinv.holds, fun key hc => ?_⟩
  · rw [← hinv.keyboard.history, hinv.returned_eq]
  · obtain ⟨s', hround, -⟩ := hinv.round hc
    exact ⟨s', hround⟩

/-- The console at start-up. -/
def consoleZero : Console where
  keyboard := keyboardZero
  shell := { shellZero with linebuf := charsClear shellZero.linebuf, linebufIndex := 0 }
  current := none
  pressed := []
  dispatched := []

/-- What `kbd_getchar` does until it returns. -/
def getcharRun : List ConsoleAction := .keyboard .getchar :: List.replicate 7 (.keyboard .next)

/-- `q` is typed, and a line feed while the shell is at it. A task prints, and `w` is delivered
behind the line. -/
def consoleRun : List ConsoleAction :=
  [.keyboard (.key 0x10), .keyboard .getchar, .keyboard .next, .keyboard (.key 0x1C)] ++
    List.replicate 6 (.keyboard .next) ++
    [.round (typed 'q'), .prints [[0x48, 0x49]], .keyboard (.key 0x11)] ++ getcharRun ++
    [.round (typed '\n')] ++ getcharRun

theorem consoleRun_ends :
    (TransitionSystem.runActions consoleStep consoleRun consoleZero).map
      (fun s => (s.current, s.pressed, s.dispatched)) =
        some (some 0x77, [0x71, 0x0A, 0x77], [dispatchedOf [0x71]]) := by
  decide +kernel

theorem console_runs_two : ∃ s, consoleSystem.Reachable s ∧ s.pressed = [0x71, 0x0A, 0x77] ∧
    s.dispatched = [dispatchedOf [0x71]] ∧ s.keyboard.accepted.Sublist s.pressed ∧
    ∃ done, s.keyboard.accepted = done ++ s.current.toList ++ s.keyboard.pending ∧
      s.dispatched = (submitted [] done).map dispatchedOf ∧
      s.shell.Holds (done.foldl editLine []) ∧
      ∃ s', consoleStep s (.round (typed 'w')) = some s' := by
  obtain ⟨s, hrun, hends⟩ := Option.map_eq_some_iff.mp consoleRun_ends
  obtain ⟨hcurrent, hends⟩ := Prod.mk.inj hends
  obtain ⟨hpressed, hdispatched⟩ := Prod.mk.inj hends
  have hstart : consoleSystem.Reachable consoleZero :=
    .init ⟨⟨⟨_, rfl⟩, rfl, rfl, rfl⟩, ⟨shellZero, ⟨0, rfl, rfl, by decide⟩, rfl⟩, rfl, rfl, rfl⟩
  have hreach : consoleSystem.Reachable s := TransitionSystem.reachable_of_runActions hstart hrun
  obtain ⟨hkept, done, haccepted, hlines, hholds, hround⟩ := console_runs hreach
  exact ⟨s, hreach, hpressed, hdispatched, hkept, done, haccepted, hlines, hholds,
    hround (typed 'w') hcurrent⟩

end Pelikan

end SystemsProjects
