import SystemsProjects.Lib.Arrays
import SystemsProjects.Pelikan.Vga

/-!
# The shell (`shell.c`, `strcmp` of `string.c`)

`shell_run` as a function of one character that `kbd_getchar` has delivered, with the line buffer,
its index, the argument of `spawn` and the screen as the state. The three arrays of 129 `char`
check the indices that are used on them; the bytes of `cmd` are what the stack happens to hold.

- `Carries b str`: the array begins with the string and its NUL.
- `Carries.stringFrom`, `Carries.strcmp`, `Carries.copyWord`, `Carries.copyRest`: what `print`,
  `strcmp` and the two loops of `dispatch` read of such an array.
- `Shell.Holds.dispatch`: the command is what stands in front of the first space, the argument
  what stands behind it.
- `shellRun_spec`: the lines that are dispatched are those that were edited.

The arrays hold more than the strings in them, and old text behind a NUL may be read by a loop
that misses it. `Carries` gives the loops what they need: the characters up to the NUL, and that
it is inside the array. Each loop gets one lemma for a string that is carried, and `dispatch` is
these lemmas one after the other.
-/

namespace SystemsProjects

namespace Pelikan

/-- A `char[129]`. -/
abbrev Chars := Nat → BitVec 8

/-- The array that was left, with the index, or the cell of the screen. -/
inductive ShellFault where
  | linebuf (i : Nat)
  | cmd (i : Nat)
  | spawnArg (i : Nat)
  | screen (i : Int)
  deriving DecidableEq

/-- `b[i]` -/
def charsRead (fault : Nat → ShellFault) (b : Chars) (i : Nat) : Except ShellFault (BitVec 8) :=
  if i < 129 then .ok (b i) else .error (fault i)

/-- `b[i] = c` -/
def charsWrite (fault : Nat → ShellFault) (b : Chars) (i : Nat) (c : BitVec 8) :
    Except ShellFault Chars :=
  if i < 129 then .ok (Function.update b i c) else .error (fault i)

/-- `memset(b, 0, 129)` -/
def charsClear (b : Chars) : Chars := fun i => if i < 129 then 0 else b i

/-- The characters of a string constant. -/
def ascii (s : List Char) : List (BitVec 8) := s.map fun c => BitVec.ofNat 8 c.toNat

/-- The bytes that `print` reads from `b[i]` on, with `n` bytes left in the array. -/
def stringFrom (fault : Nat → ShellFault) (b : Chars) (i : Nat) :
    Nat → Except ShellFault (List (BitVec 8))
  | 0 => .error (fault i)
  | n + 1 =>
    if b i = 0 then .ok []
    else do
      let rest ← stringFrom fault b (i + 1) n
      return b i :: rest

/-- The string in the array. -/
def stringOf (fault : Nat → ShellFault) (b : Chars) : Except ShellFault (List (BitVec 8)) :=
  stringFrom fault b 0 129

/-- The string in the `n` bytes from `b[i]` on, as a record of what the array holds. -/
def textFrom (b : Chars) (i : Nat) : Nat → List (BitVec 8)
  | 0 => []
  | n + 1 => if b i = 0 then [] else b i :: textFrom b (i + 1) n

/-- The string in an array of 129 bytes. -/
def text (b : Chars) : List (BitVec 8) := textFrom b 0 129

/-- `strcmp` of the array, from `b[i]` on, and a constant. -/
def strcmp (fault : Nat → ShellFault) (b : Chars) (i : Nat) :
    List (BitVec 8) → Except ShellFault Int
  | [] => do
    let a ← charsRead fault b i
    return a.toNat
  | d :: name => do
    let a ← charsRead fault b i
    if a ≠ 0 ∧ a = d then strcmp fault b (i + 1) name else return (a.toNat : Int) - d.toNat

/-- The loops over `commands` and `spawnables`: the first entry with the name in the array. -/
def lookup {α : Type} (fault : Nat → ShellFault) (name : α → List (BitVec 8)) (b : Chars) :
    List α → Except ShellFault (Option α)
  | [] => .ok none
  | a :: rest => do
    let r ← strcmp fault b 0 (name a)
    if r = 0 then return some a else lookup fault name b rest

/-! ## Commands -/

/-- `commands` -/
inductive Command where
  | help | clear | ps | mem | spawn
  deriving DecidableEq

/-- The first column of `commands`. -/
def Command.name : Command → List (BitVec 8)
  | .help => ascii ['h', 'e', 'l', 'p']
  | .clear => ascii ['c', 'l', 'e', 'a', 'r']
  | .ps => ascii ['p', 's']
  | .mem => ascii ['m', 'e', 'm']
  | .spawn => ascii ['s', 'p', 'a', 'w', 'n']

/-- `commands`, in the order of the array. -/
def commands : List Command := [.help, .clear, .ps, .mem, .spawn]

/-- `spawnables` -/
inductive Spawnable where
  | counter | once
  deriving DecidableEq

/-- The first column of `spawnables`. -/
def Spawnable.name : Spawnable → List (BitVec 8)
  | .counter => ascii ['c', 'o', 'u', 'n', 't', 'e', 'r']
  | .once => ascii ['o', 'n', 'c', 'e']

/-- `spawnables`, in the order of the array. -/
def spawnables : List Spawnable := [.counter, .once]

/-- The state of `shell_run`, with the screen and the tasks that it has asked for. -/
structure Shell where
  linebuf : Chars
  linebufIndex : Nat
  spawnArg : Chars
  nextSpawnId : BitVec 32
  spawned : List (Spawnable × BitVec 32)
  vga : Vga

/-- A character from `kbd_getchar`, with what the rest of the kernel contributes until the next
one: the bytes on the stack where `cmd` lies, and what `ps`, `mem` and `itoa` print. -/
structure Key where
  c : BitVec 8
  stack : Chars
  tasks : List (List (BitVec 8))
  freeCount : List (BitVec 8)
  itoaId : List (BitVec 8)

/-- Calls of `print`. -/
def Shell.prints (s : Shell) (texts : List (List (BitVec 8))) : Except ShellFault Shell :=
  match printAll s.vga texts with
  | .ok vga => .ok { s with vga }
  | .error i => .error (.screen i)

/-- `removeChar()` -/
def Shell.removeChar (s : Shell) : Except ShellFault Shell :=
  match Pelikan.removeChar s.vga with
  | .ok vga => .ok { s with vga }
  | .error i => .error (.screen i)

/-- The loop of `cmd_clear`. -/
def Shell.removeChars (s : Shell) : Nat → Except ShellFault Shell
  | 0 => .ok s
  | n + 1 => do
    let s ← s.removeChar
    s.removeChars n

/-- `cmd_help` -/
def cmdHelp (s : Shell) : Except ShellFault Shell :=
  s.prints ([ascii ['c', 'o', 'm', 'm', 'a', 'n', 'd', 's', ':', '\n']] ++
    commands.flatMap (fun k => [ascii [' ', ' '], k.name, ascii ['\n']]) ++
    [ascii ['s', 'p', 'a', 'w', 'n', 'a', 'b', 'l', 'e', ':', ' ']] ++
    spawnables.flatMap (fun k => [k.name, ascii [' ']]) ++ [ascii ['\n']])

/-- `cmd_spawn` -/
def cmdSpawn (s : Shell) (key : Key) : Except ShellFault Shell := do
  let first ← charsRead .spawnArg s.spawnArg 0
  if first = 0 then
    s.prints [ascii ['u', 's', 'a', 'g', 'e', ':', ' ', 's', 'p', 'a', 'w', 'n', ' ', '<', 'n', 'a',
      'm', 'e', '>', '\n']]
  else
    match ← lookup .spawnArg Spawnable.name s.spawnArg spawnables with
    | some task =>
      let arg ← stringOf .spawnArg s.spawnArg
      let s ← s.prints [ascii ['s', 'p', 'a', 'w', 'n', 'e', 'd', ' ', '\''], arg,
        ascii ['\'', ' ', 'a', 's', ' ', 'i', 'd', ' '], key.itoaId, ascii ['\n']]
      return { s with
        spawned := s.spawned ++ [(task, s.nextSpawnId)]
        nextSpawnId := s.nextSpawnId + 1 }
    | none =>
      let arg ← stringOf .spawnArg s.spawnArg
      s.prints [ascii ['n', 'o', ' ', 's', 'u', 'c', 'h', ' ', 't', 'a', 's', 'k', ':', ' '], arg,
        ascii ['\n']]

/-- `commands[k].fn()` -/
def runCommand (s : Shell) (key : Key) : Command → Except ShellFault Shell
  | .help => cmdHelp s
  | .clear => s.removeChars 2000
  | .ps => s.prints key.tasks
  | .mem => s.prints [ascii ['f', 'r', 'e', 'e', ' ', 'f', 'r', 'a', 'm', 'e', 's', ':', ' '],
      key.freeCount, ascii ['\n']]
  | .spawn => cmdSpawn s key

/-! ## Lines -/

/-- The first loop of `dispatch`: what stands in front of the first space goes to `cmd`. -/
def copyWord (line cmd : Chars) (i : Nat) : Except ShellFault (Chars × Nat) :=
  match charsRead .linebuf line i with
  | .error f => .error f
  | .ok c =>
    if _ : c ≠ 0 ∧ c ≠ 0x20 ∧ i < 128 then
      match charsWrite .cmd cmd i c with
      | .error f => .error f
      | .ok cmd => copyWord line cmd (i + 1)
    else .ok (cmd, i)
termination_by 128 - i
decreasing_by omega

/-- The second loop: the rest goes to `spawn_arg`. -/
def copyRest (line arg : Chars) (i j : Nat) : Except ShellFault (Chars × Nat) :=
  match charsRead .linebuf line i with
  | .error f => .error f
  | .ok c =>
    if _ : c ≠ 0 ∧ j < 128 then
      match charsWrite .spawnArg arg j c with
      | .error f => .error f
      | .ok arg => copyRest line arg (i + 1) (j + 1)
    else .ok (arg, j)
termination_by 128 - j
decreasing_by omega

/-- The space behind the command is skipped, and the loop runs, if there is one. -/
def copyArgument (line arg : Chars) (i : Nat) : Except ShellFault (Chars × Nat) := do
  let c ← charsRead .linebuf line i
  if c = 0x20 then copyRest line arg (i + 1) 0 else return (arg, 0)

/-- What a call of `dispatch` was given, what it has made of it, and the entry of `commands` that
it has called. -/
structure Dispatched where
  line : List (BitVec 8)
  cmd : List (BitVec 8)
  arg : List (BitVec 8)
  command : Option Command
  deriving DecidableEq

/-- `dispatch(linebuf)`; nothing is done about an empty line. -/
def dispatch (s : Shell) (key : Key) : Except ShellFault (Shell × List Dispatched) := do
  let first ← charsRead .linebuf s.linebuf 0
  if first = 0 then return (s, [])
  else
    let (cmd, i) ← copyWord s.linebuf key.stack 0
    let cmd ← charsWrite .cmd cmd i 0
    let (arg, j) ← copyArgument s.linebuf s.spawnArg i
    let arg ← charsWrite .spawnArg arg j 0
    let s := { s with spawnArg := arg }
    let command ← lookup .cmd Command.name cmd commands
    let dispatched := [⟨text s.linebuf, text cmd, text arg, command⟩]
    match command with
    | some k =>
      let s ← runCommand s key k
      return (s, dispatched)
    | none =>
      let unknown ← stringOf .cmd cmd
      let s ← s.prints [ascii ['u', 'n', 'k', 'n', 'o', 'w', 'n', ' ', 'c', 'o', 'm', 'm', 'a',
        'n', 'd', ' ', ':', ' '], unknown, ascii ['\n']]
      return (s, dispatched)

/-- A round of `shell_run` in which `kbd_getchar` delivers a character, with the lines that it
has dispatched. -/
def shellKey (s : Shell) (key : Key) : Except ShellFault (Shell × List Dispatched) :=
  if key.c = 0x08 then
    if s.linebufIndex > 0 then do
      let linebuf ← charsWrite .linebuf s.linebuf (s.linebufIndex - 1) 0
      let s ← { s with linebuf, linebufIndex := s.linebufIndex - 1 }.removeChar
      return (s, [])
    else .ok (s, [])
  else if key.c = 0x0A then do
    let s ← s.prints [ascii ['\n']]
    let (s, dispatched) ← dispatch s key
    return ({ s with linebuf := charsClear s.linebuf, linebufIndex := 0 }, dispatched)
  else if s.linebufIndex < 127 then do
    let linebuf ← charsWrite .linebuf s.linebuf s.linebufIndex key.c
    let s ← { s with linebuf, linebufIndex := s.linebufIndex + 1 }.prints [[key.c]]
    return (s, [])
  else .ok (s, [])

/-- The loop of `shell_run`, as long as there are characters. -/
def shellLoop (s : Shell) : List Key → Except ShellFault (Shell × List Dispatched)
  | [] => .ok (s, [])
  | key :: keys => do
    let (s, dispatched) ← shellKey s key
    let (s, later) ← shellLoop s keys
    return (s, dispatched ++ later)

/-- `shell_run`: the line buffer is cleared first. -/
def shellRun (s : Shell) (keys : List Key) : Except ShellFault (Shell × List Dispatched) :=
  shellLoop { s with linebuf := charsClear s.linebuf, linebufIndex := 0 } keys

/-! ## Strings in arrays -/

/-- The array begins with the string and its NUL. -/
structure Carries (b : Chars) (str : List (BitVec 8)) : Prop where
  noNul : 0 ∉ str
  eq_getD : ∀ i ≤ str.length, b i = str.getD i 0

section Strings

variable {fault : Nat → ShellFault} {b b' : Chars} {pre rest str name : List (BitVec 8)}
  {c : BitVec 8} {n j : Nat}

/-- The byte behind a part of the string. -/
theorem Carries.at_cons (h : Carries b (pre ++ c :: rest)) : b pre.length = c ∧ c ≠ 0 := by
  refine ⟨?_, ?_⟩
  · rw [h.eq_getD _ (by simp), List.getD_append_right _ _ _ _ (Nat.le_refl _), Nat.sub_self]
    rfl
  · rintro rfl
    exact h.noNul (List.mem_append_right _ (List.mem_cons_self ..))

theorem Carries.at_end (h : Carries b str) : b str.length = 0 := by
  rw [h.eq_getD _ (Nat.le_refl _), List.getD_eq_default _ _ (Nat.le_refl _)]

theorem getD_dropLast {α : Type} (l : List α) (d : α) (i : Nat) :
    l.dropLast.getD i d = if i < l.length - 1 then l.getD i d else d := by
  split
  · next hlt =>
    rw [List.getD_eq_getElem?_getD, List.getElem?_dropLast, if_pos hlt, List.getD_eq_getElem?_getD]
  · next hle =>
    rw [List.getD_eq_getElem?_getD, List.getElem?_dropLast, if_neg hle]
    rfl

theorem append_cons_eq : pre ++ c :: rest = pre ++ [c] ++ rest := by simp

/-- The rest of the string is read from its place on. -/
theorem Carries.stringFrom (h : Carries b (pre ++ rest)) (hn : rest.length < n) :
    Pelikan.stringFrom fault b pre.length n = .ok rest ∧ textFrom b pre.length n = rest := by
  induction rest generalizing pre n with
  | nil =>
    rw [List.append_nil] at h
    cases n with
    | zero => exact absurd hn (Nat.not_lt_zero _)
    | succ n =>
      rw [Pelikan.stringFrom, textFrom, if_pos h.at_end, if_pos h.at_end]
      exact ⟨rfl, rfl⟩
  | cons c rest ih =>
    obtain ⟨hc, hne⟩ := h.at_cons
    rw [append_cons_eq] at h
    cases n with
    | zero => exact absurd hn (Nat.not_lt_zero _)
    | succ n =>
      obtain ⟨hstring, htext⟩ := ih h (Nat.lt_of_succ_lt_succ hn)
      rw [List.length_append, List.length_singleton] at hstring htext
      rw [Pelikan.stringFrom, textFrom, hc, if_neg hne, if_neg hne, hstring, htext]
      exact ⟨rfl, rfl⟩

theorem Carries.stringOf (h : Carries b str) (hlen : str.length < 129) :
    Pelikan.stringOf fault b = .ok str ∧ text b = str :=
  (show Carries b ([] ++ str) from h).stringFrom hlen

theorem Carries.text_eq (h : Carries b str) (hlen : str.length < 129) : text b = str :=
  (@Carries.stringOf .cmd _ _ h hlen).2

theorem charsRead_of_lt (h : n < 129) : charsRead fault b n = .ok (b n) := if_pos h

theorem charsWrite_of_lt (h : n < 129) :
    charsWrite fault b n c = .ok (Function.update b n c) := if_pos h

/-- `strcmp` is zero exactly on the name itself. -/
theorem Carries.strcmp (h : Carries b (pre ++ rest)) (hlen : (pre ++ rest).length < 129)
    (hname : 0 ∉ name) :
    ∃ r, Pelikan.strcmp fault b pre.length name = .ok r ∧ (r = 0 ↔ rest = name) := by
  have hpre : pre.length < 129 := by
    rw [List.length_append] at hlen
    omega
  induction name generalizing pre rest with
  | nil =>
    rw [Pelikan.strcmp, charsRead_of_lt hpre, ok_bind]
    cases rest with
    | nil =>
      rw [List.append_nil] at h
      rw [h.at_end]
      exact ⟨0, rfl, iff_of_true rfl rfl⟩
    | cons c rest =>
      obtain ⟨hc, hne⟩ := h.at_cons
      have hpos : (c.toNat : Int) ≠ 0 := fun hzero =>
        hne (BitVec.eq_of_toNat_eq (Int.ofNat_eq_zero.mp hzero))
      rw [hc]
      exact ⟨_, rfl, iff_of_false hpos (List.cons_ne_nil c rest)⟩
  | cons d name ih =>
    rw [List.mem_cons, not_or] at hname
    rw [Pelikan.strcmp, charsRead_of_lt hpre, ok_bind]
    cases rest with
    | nil =>
      rw [List.append_nil] at h
      -- the string in the array is the shorter one
      rw [h.at_end, if_neg fun hboth => hboth.1 rfl]
      have hd : d.toNat ≠ 0 := fun hzero => hname.1 (BitVec.eq_of_toNat_eq hzero.symm)
      have hneg : ((0 : BitVec 8).toNat : Int) - d.toNat ≠ 0 := by
        show (0 : Int) - d.toNat ≠ 0
        omega
      exact ⟨_, rfl, iff_of_false hneg (List.cons_ne_nil d name).symm⟩
    | cons c rest =>
      obtain ⟨hc, hne⟩ := h.at_cons
      rw [hc]
      by_cases hcd : c = d
      · rw [if_pos ⟨hne, hcd⟩]
        rw [append_cons_eq] at h hlen
        have hnext : (pre ++ [c]).length < 129 := by
          rw [List.length_append] at hlen
          omega
        -- one more character is behind both cursors
        obtain ⟨r, hr, hiff⟩ := ih h hlen hname.2 hnext
        rw [List.length_append, List.length_singleton] at hr
        refine ⟨r, hr, hiff.trans ?_⟩
        rw [hcd, List.cons_inj_right]
      · rw [if_neg fun hboth => hcd hboth.2]
        have hdiff : (c.toNat : Int) - d.toNat ≠ 0 := fun hzero =>
          hcd (BitVec.eq_of_toNat_eq (by omega))
        exact ⟨_, rfl, iff_of_false hdiff fun heq => hcd (List.cons.inj heq).1⟩

/-- The command is looked up by the string that the array carries. -/
theorem Carries.lookup {α : Type} {nameOf : α → List (BitVec 8)} {l : List α}
    (h : Carries b str) (hlen : str.length < 129) (hnames : ∀ a ∈ l, 0 ∉ nameOf a) :
    Pelikan.lookup fault nameOf b l = .ok (l.find? fun a => nameOf a = str) := by
  induction l with
  | nil => rfl
  | cons a l ih =>
    rw [List.forall_mem_cons] at hnames
    have hcmp : ∃ r, Pelikan.strcmp fault b 0 (nameOf a) = .ok r ∧ (r = 0 ↔ str = nameOf a) :=
      (show Carries b ([] ++ str) from h).strcmp hlen hnames.1
    obtain ⟨r, hr, hiff⟩ := hcmp
    rw [Pelikan.lookup, hr, ok_bind, List.find?_cons]
    by_cases hname : nameOf a = str
    · rw [if_pos (hiff.mpr hname.symm), decide_eq_true hname]
      rfl
    · rw [if_neg fun hzero => hname (hiff.mp hzero).symm, decide_eq_false hname]
      exact ih hnames.2

/-! ### The loops of `dispatch` -/

theorem overwrite_cons {a : Chars} {i : Nat} :
    overwrite (Function.update a i c) (i + 1) str = overwrite a i (c :: str) := by
  rw [update_overwrite_singleton]
  exact overwrite_append a i [c] str

/-- The first loop of `dispatch` copies up to the first space. -/
theorem Carries.copyWord {cmd : Chars} (h : Carries b (pre ++ rest))
    (hlen : (pre ++ rest).length < 128) :
    Pelikan.copyWord b cmd pre.length =
      .ok (overwrite cmd pre.length (rest.takeWhile (· ≠ 0x20)),
        pre.length + (rest.takeWhile (· ≠ 0x20)).length) := by
  induction rest generalizing pre cmd with
  | nil =>
    rw [List.append_nil] at h hlen
    rw [Pelikan.copyWord, charsRead_of_lt (by omega), h.at_end]
    dsimp only
    -- the NUL ends the loop
    rw [dif_neg fun hall => hall.1 rfl, List.takeWhile_nil, ← overwrite_nil]
    rfl
  | cons c rest ih =>
    obtain ⟨hc, hne⟩ := h.at_cons
    have hpre : pre.length < 128 := by
      rw [List.length_append] at hlen
      omega
    rw [Pelikan.copyWord, charsRead_of_lt (by omega), hc]
    dsimp only
    by_cases hspace : c = 0x20
    · have hnone : (c :: rest).takeWhile (· ≠ 0x20) = [] :=
        List.takeWhile_cons_of_neg (by simpa using hspace)
      rw [dif_neg fun hall => hall.2.1 hspace, hnone, ← overwrite_nil]
      rfl
    · -- the character is copied, and the loop goes on behind it
      have hword : (c :: rest).takeWhile (· ≠ 0x20) = c :: rest.takeWhile (· ≠ 0x20) :=
        List.takeWhile_cons_of_pos (by simpa using hspace)
      rw [append_cons_eq] at h hlen
      have hrest := @ih _ (Function.update cmd pre.length c) h hlen
      rw [List.length_append, List.length_singleton] at hrest
      rw [dif_pos ⟨hne, hspace, hpre⟩, charsWrite_of_lt (by omega), hword]
      dsimp only
      rw [hrest, overwrite_cons, List.length_cons, Nat.add_assoc, Nat.add_comm 1]

theorem Carries.copyRest {arg : Chars} (h : Carries b (pre ++ rest))
    (hlen : (pre ++ rest).length < 129) (hj : j + rest.length ≤ 128) :
    Pelikan.copyRest b arg pre.length j = .ok (overwrite arg j rest, j + rest.length) := by
  induction rest generalizing pre arg j with
  | nil =>
    rw [List.append_nil] at h hlen
    rw [Pelikan.copyRest, charsRead_of_lt hlen, h.at_end]
    dsimp only
    rw [dif_neg fun hall => hall.1 rfl, ← overwrite_nil]
    rfl
  | cons c rest ih =>
    obtain ⟨hc, hne⟩ := h.at_cons
    have hpre : pre.length < 129 := by
      rw [List.length_append] at hlen
      omega
    rw [List.length_cons] at hj
    rw [append_cons_eq] at h hlen
    have hroom : j + 1 + rest.length ≤ 128 := by omega
    have hrest := @ih _ _ (Function.update arg j c) h hlen hroom
    rw [List.length_append, List.length_singleton] at hrest
    rw [Pelikan.copyRest, charsRead_of_lt hpre, hc]
    dsimp only
    rw [dif_pos ⟨hne, by omega⟩, charsWrite_of_lt (by omega)]
    dsimp only
    rw [hrest, overwrite_cons, List.length_cons, Nat.add_assoc, Nat.add_comm 1]

/-- A string that was stored at the beginning of an array, with its NUL. -/
theorem carries_update (hnul : 0 ∉ str) :
    Carries (Function.update (overwrite b 0 str) str.length 0) str where
  noNul := hnul
  eq_getD i hi := by
    by_cases hend : i = str.length
    · rw [hend, Function.update_self, List.getD_eq_default _ _ (Nat.le_refl _)]
    · have hlt : i < str.length := by omega
      have hold := overwrite_add b 0 str i
      rw [Nat.zero_add] at hold
      rw [Function.update_of_ne hend, hold, List.getElem?_eq_getElem hlt, Option.getD_some,
        List.getD_eq_getElem _ _ hlt]

end Strings

/-! ## Commands leave the line alone -/

/-- The line is the same, and the cursor is on the screen. -/
structure SameLine (s s' : Shell) : Prop where
  linebuf_eq : s'.linebuf = s.linebuf
  linebufIndex_eq : s'.linebufIndex = s.linebufIndex
  onScreen : s'.vga.OnScreen

section Commands

variable {s s' s'' : Shell} {key : Key} {arg : List (BitVec 8)}

theorem SameLine.refl (h : s.vga.OnScreen) : SameLine s s := ⟨rfl, rfl, h⟩

theorem SameLine.trans (h : SameLine s s') (h' : SameLine s' s'') : SameLine s s'' :=
  ⟨h'.linebuf_eq.trans h.linebuf_eq, h'.linebufIndex_eq.trans h.linebufIndex_eq, h'.onScreen⟩

/-- Printing goes through and leaves the line alone. -/
theorem prints_sameLine (h : s.vga.OnScreen) (texts : List (List (BitVec 8))) :
    ∃ s', s.prints texts = .ok s' ∧ SameLine s s' := by
  obtain ⟨vga, hprint, hvga⟩ := h.printAll texts
  rw [Shell.prints, hprint]
  exact ⟨_, rfl, rfl, rfl, hvga⟩

theorem removeChar_sameLine (h : s.vga.OnScreen) :
    ∃ s', s.removeChar = .ok s' ∧ SameLine s s' := by
  obtain ⟨vga, hremove, hvga⟩ := h.removeChar
  rw [Shell.removeChar, hremove]
  exact ⟨_, rfl, rfl, rfl, hvga⟩

theorem removeChars_sameLine (h : s.vga.OnScreen) (n : Nat) :
    ∃ s', s.removeChars n = .ok s' ∧ SameLine s s' := by
  induction n generalizing s with
  | zero => exact ⟨s, rfl, .refl h⟩
  | succ n ih =>
    obtain ⟨s₁, hremove, h₁⟩ := removeChar_sameLine h
    obtain ⟨s₂, hrest, h₂⟩ := ih h₁.onScreen
    rw [Shell.removeChars, hremove, ok_bind]
    exact ⟨s₂, hrest, h₁.trans h₂⟩

theorem cmdSpawn_sameLine (h : s.vga.OnScreen) (harg : Carries s.spawnArg arg)
    (hlen : arg.length < 129) : ∃ s', cmdSpawn s key = .ok s' ∧ SameLine s s' := by
  have hnames : ∀ a ∈ spawnables, 0 ∉ a.name := by decide
  rw [cmdSpawn, charsRead_of_lt (by decide), ok_bind]
  by_cases hempty : s.spawnArg 0 = 0
  · rw [if_pos hempty]
    exact prints_sameLine h _
  · rw [if_neg hempty, harg.lookup hlen hnames, ok_bind]
    cases spawnables.find? fun a => a.name = arg with
    | none =>
      dsimp only
      rw [(harg.stringOf hlen).1, ok_bind]
      exact prints_sameLine h _
    | some task =>
      dsimp only
      rw [(harg.stringOf hlen).1, ok_bind]
      obtain ⟨s₁, hprint, h₁⟩ := prints_sameLine h _
      rw [hprint, ok_bind]
      exact ⟨_, rfl, h₁.linebuf_eq, h₁.linebufIndex_eq, h₁.onScreen⟩

theorem runCommand_sameLine (h : s.vga.OnScreen) (harg : Carries s.spawnArg arg)
    (hlen : arg.length < 129) (k : Command) :
    ∃ s', runCommand s key k = .ok s' ∧ SameLine s s' := by
  cases k with
  | help => exact prints_sameLine h _
  | clear => exact removeChars_sameLine h 2000
  | ps => exact prints_sameLine h _
  | mem => exact prints_sameLine h _
  | spawn => exact cmdSpawn_sameLine h harg hlen

end Commands

/-! ## Lines -/

/-- The edited line, after a character. -/
def editLine (line : List (BitVec 8)) (c : BitVec 8) : List (BitVec 8) :=
  if c = 0x08 then line.dropLast
  else if c = 0x0A then []
  else if line.length < 127 then line ++ [c]
  else line

/-- The lines that are not empty when a newline comes. -/
def submitted (line : List (BitVec 8)) : List (BitVec 8) → List (List (BitVec 8))
  | [] => []
  | c :: cs =>
    if c = 0x0A ∧ line ≠ [] then line :: submitted [] cs else submitted (editLine line c) cs

/-- What stands in front of the first space. -/
def commandOf (line : List (BitVec 8)) : List (BitVec 8) := line.takeWhile (· ≠ 0x20)

/-- What stands behind the first space, if there is one. -/
def argumentOf (line : List (BitVec 8)) : List (BitVec 8) := (line.dropWhile (· ≠ 0x20)).drop 1

/-- What `dispatch` should make of a line. -/
def dispatchedOf (line : List (BitVec 8)) : Dispatched where
  line := line
  cmd := commandOf line
  arg := argumentOf line
  command := commands.find? fun k => k.name = commandOf line

/-- The line buffer holds the line, and NULs behind it. -/
structure Shell.Holds (s : Shell) (line : List (BitVec 8)) : Prop where
  eq_getD : ∀ i < 129, s.linebuf i = line.getD i 0
  index_eq : s.linebufIndex = line.length
  length_le : line.length ≤ 127
  noNul : 0 ∉ line
  onScreen : s.vga.OnScreen

section Lines

variable {s s' : Shell} {key : Key} {line : List (BitVec 8)}

theorem Shell.Holds.carries (h : s.Holds line) : Carries s.linebuf line where
  noNul := h.noNul
  eq_getD i hi := by
    have hle := h.length_le
    exact h.eq_getD i (by omega)

/-- Nothing is stored behind the line after `memset`. -/
theorem holds_nil (h : s.vga.OnScreen) :
    { s with linebuf := charsClear s.linebuf, linebufIndex := 0 }.Holds [] where
  eq_getD _ hi := if_pos hi
  index_eq := rfl
  length_le := Nat.zero_le _
  noNul := List.not_mem_nil
  onScreen := h

/-- A line is its command, and the space and the argument behind it. -/
theorem line_cases (line : List (BitVec 8)) :
    (commandOf line = line ∧ argumentOf line = []) ∨
      line = commandOf line ++ 0x20 :: argumentOf line := by
  have hsplit := List.takeWhile_append_dropWhile (p := (· ≠ (0x20 : BitVec 8))) (l := line)
  rw [commandOf, argumentOf]
  cases hrest : line.dropWhile (· ≠ (0x20 : BitVec 8)) with
  | nil =>
    rw [hrest, List.append_nil] at hsplit
    exact .inl ⟨hsplit, rfl⟩
  | cons c rest =>
    have hcons : line.dropWhile (· ≠ (0x20 : BitVec 8)) ≠ [] := by
      rw [hrest]
      exact List.cons_ne_nil c rest
    have hhead := List.head_dropWhile_not (· ≠ (0x20 : BitVec 8)) hcons
    simp only [hrest, List.head_cons] at hhead
    obtain rfl : c = 0x20 := by simpa using hhead
    right
    rw [hrest] at hsplit
    exact hsplit.symm

/-- The argument goes to the beginning of `spawn_arg`. -/
theorem Shell.Holds.copyArgument (h : s.Holds line) :
    Pelikan.copyArgument s.linebuf s.spawnArg (commandOf line).length =
      .ok (overwrite s.spawnArg 0 (argumentOf line), (argumentOf line).length) := by
  have hcarries := h.carries
  have hlen := h.length_le
  have hcmdLen : (commandOf line).length ≤ line.length :=
    (List.takeWhile_sublist _).length_le
  rw [Pelikan.copyArgument, charsRead_of_lt (by omega), ok_bind]
  rcases line_cases line with ⟨hcmd, harg⟩ | hsplit
  · have hend : s.linebuf (commandOf line).length = 0 := by
      rw [hcmd]
      exact hcarries.at_end
    rw [hend, if_neg (by decide), harg, ← overwrite_nil]
    rfl
  · generalize commandOf line = cmd, argumentOf line = arg at hsplit
    rw [hsplit] at hcarries hlen
    have hspace := hcarries.at_cons.1
    rw [append_cons_eq] at hcarries hlen
    have hlen' := hlen
    rw [List.length_append, List.length_append] at hlen'
    have hcopy := @Carries.copyRest _ _ _ 0 s.spawnArg hcarries (by omega) (by omega)
    rw [List.length_append, List.length_singleton, Nat.zero_add] at hcopy
    rw [hspace, if_pos rfl, hcopy]

/-- `dispatch` on a line. -/
theorem Shell.Holds.dispatch (h : s.Holds line) (hne : line ≠ []) :
    ∃ s', Pelikan.dispatch s key = .ok (s', [dispatchedOf line]) ∧ SameLine s s' := by
  have hcarries := h.carries
  have hlen := h.length_le
  have hcmdLen : (commandOf line).length ≤ line.length :=
    (List.takeWhile_sublist _).length_le
  have hargLen : (argumentOf line).length ≤ line.length :=
    ((List.drop_sublist _ _).trans (List.dropWhile_sublist _)).length_le
  have hcmdNul : 0 ∉ commandOf line := fun hmem =>
    h.noNul ((List.takeWhile_sublist _).subset hmem)
  have hargNul : 0 ∉ argumentOf line := fun hmem =>
    h.noNul (((List.drop_sublist _ _).trans (List.dropWhile_sublist _)).subset hmem)
  have hfirst : s.linebuf 0 ≠ 0 := by
    obtain ⟨c, rest, rfl⟩ := List.exists_cons_of_ne_nil hne
    obtain ⟨hc, hnul⟩ := (show Carries s.linebuf ([] ++ c :: rest) from hcarries).at_cons
    exact fun hzero => hnul (hc.symm.trans hzero)
  have hword : copyWord s.linebuf key.stack 0 =
      .ok (overwrite key.stack 0 (commandOf line), (commandOf line).length) := by
    have hcopy := @Carries.copyWord _ _ _ key.stack
      (show Carries s.linebuf ([] ++ line) from hcarries) (Nat.lt_succ_of_le hlen)
    rw [List.length_nil, Nat.zero_add] at hcopy
    exact hcopy
  have hcmd : Carries (Function.update (overwrite key.stack 0 (commandOf line))
      (commandOf line).length 0) (commandOf line) := carries_update hcmdNul
  have harg : Carries (Function.update (overwrite s.spawnArg 0 (argumentOf line))
      (argumentOf line).length 0) (argumentOf line) := carries_update hargNul
  have hnames : ∀ k ∈ commands, 0 ∉ k.name := by decide
  -- the loops run and both copies get their NUL
  rw [Pelikan.dispatch, charsRead_of_lt (by decide), ok_bind, if_neg hfirst, hword, ok_bind]
  dsimp only
  rw [charsWrite_of_lt (by omega), ok_bind, h.copyArgument, ok_bind]
  dsimp only
  rw [charsWrite_of_lt (by omega), ok_bind, hcmd.lookup (by omega) hnames, ok_bind,
    hcarries.text_eq (by omega), hcmd.text_eq (by omega), harg.text_eq (by omega)]
  let s₁ : Shell := { s with
    spawnArg := Function.update (overwrite s.spawnArg 0 (argumentOf line))
      (argumentOf line).length 0 }
  have h₁ : SameLine s s₁ := ⟨rfl, rfl, h.onScreen⟩
  have hlog : dispatchedOf line = ⟨line, commandOf line, argumentOf line,
    commands.find? fun k => k.name = commandOf line⟩ := rfl
  -- what is called, or the message about an unknown command, leaves the line alone
  cases hfind : commands.find? fun k => k.name = commandOf line with
  | some k =>
    obtain ⟨s₂, hrun, h₂⟩ := @runCommand_sameLine s₁ key _ h.onScreen harg (by omega) k
    rw [hfind] at hlog
    dsimp only
    rw [hrun, ok_bind, hlog]
    exact ⟨s₂, rfl, h₁.trans h₂⟩
  | none =>
    dsimp only
    rw [(hcmd.stringOf (by omega)).1, ok_bind]
    obtain ⟨s₂, hprint, h₂⟩ := prints_sameLine (s := s₁) h.onScreen _
    rw [hfind] at hlog
    rw [hprint, ok_bind, hlog]
    exact ⟨s₂, rfl, h₁.trans h₂⟩

/-- `dispatch` without a line. -/
theorem Shell.Holds.dispatch_nil (h : s.Holds []) : Pelikan.dispatch s key = .ok (s, []) := by
  have hfirst : s.linebuf 0 = 0 := h.carries.at_end
  rw [Pelikan.dispatch, charsRead_of_lt (by decide), ok_bind, if_pos hfirst]
  rfl

/-- A round of the loop. -/
theorem Shell.Holds.shellKey (h : s.Holds line) (hc : key.c ≠ 0) :
    ∃ s', Pelikan.shellKey s key =
        .ok (s', if key.c = 0x0A ∧ line ≠ [] then [dispatchedOf line] else []) ∧
      s'.Holds (editLine line key.c) := by
  have hindex := h.index_eq
  have hlen := h.length_le
  rw [Pelikan.shellKey, editLine]
  by_cases hback : key.c = 0x08
  · -- backspace: a character is taken off the line, if there is one
    have hnotline : ¬ (key.c = 0x0A ∧ line ≠ []) := by
      rw [hback]
      exact fun hboth => absurd hboth.1 (by decide)
    rw [if_pos hback, if_pos hback, if_neg hnotline]
    by_cases hpos : s.linebufIndex > 0
    · rw [if_pos hpos, charsWrite_of_lt (by omega), ok_bind]
      let s₁ : Shell := { s with
        linebuf := Function.update s.linebuf (s.linebufIndex - 1) 0
        linebufIndex := s.linebufIndex - 1 }
      obtain ⟨s₂, hremove, h₂⟩ := removeChar_sameLine (s := s₁) h.onScreen
      rw [hremove, ok_bind]
      refine ⟨s₂, rfl, ?_, ?_, ?_, ?_, h₂.onScreen⟩
      · intro i hi
        rw [h₂.linebuf_eq]
        show Function.update s.linebuf (s.linebufIndex - 1) 0 i = line.dropLast.getD i 0
        rw [hindex, getD_dropLast]
        -- the cell of the last character is cleared, the others are as they were
        by_cases hlast : i = line.length - 1
        · rw [hlast, Function.update_self, if_neg (Nat.lt_irrefl _)]
        · rw [Function.update_of_ne hlast, h.eq_getD i hi]
          split
          · rfl
          · rw [List.getD_eq_default _ _ (by omega)]
      · rw [h₂.linebufIndex_eq, List.length_dropLast]
        show s.linebufIndex - 1 = _
        rw [hindex]
      · rw [List.length_dropLast]
        omega
      · exact fun hmem => h.noNul (List.dropLast_subset _ hmem)
    · have hempty : line = [] := List.eq_nil_of_length_eq_zero (by omega)
      rw [if_neg hpos, hempty]
      rw [hempty] at h
      exact ⟨s, rfl, h⟩
  · rw [if_neg hback, if_neg hback]
    by_cases hbreak : key.c = 0x0A
    · rw [if_pos hbreak, if_pos hbreak]
      -- line break: it is printed, and the line goes to the commands
      obtain ⟨s₁, hprint, h₁⟩ := prints_sameLine h.onScreen [ascii ['\n']]
      have hholds : s₁.Holds line := by
        refine ⟨fun i hi => ?_, ?_, hlen, h.noNul, h₁.onScreen⟩
        · rw [h₁.linebuf_eq]
          exact h.eq_getD i hi
        · rw [h₁.linebufIndex_eq]
          exact hindex
      rw [hprint, ok_bind]
      by_cases hne : line = []
      · rw [if_neg fun hboth => hboth.2 hne]
        rw [hne] at hholds
        rw [hholds.dispatch_nil, ok_bind]
        exact ⟨_, rfl, holds_nil h₁.onScreen⟩
      · obtain ⟨s₂, hdispatch, h₂⟩ := @Shell.Holds.dispatch _ key _ hholds hne
        rw [if_pos ⟨hbreak, hne⟩, hdispatch, ok_bind]
        exact ⟨_, rfl, holds_nil h₂.onScreen⟩
    · -- any other key is stored while there is room, and else dropped
      have hnotline : ¬ (key.c = 0x0A ∧ line ≠ []) := fun hboth => hbreak hboth.1
      rw [if_neg hbreak, if_neg hbreak, if_neg hnotline]
      by_cases hroom : line.length < 127
      · rw [if_pos (by omega), if_pos hroom, charsWrite_of_lt (by omega), ok_bind]
        let s₁ : Shell := { s with
          linebuf := Function.update s.linebuf s.linebufIndex key.c
          linebufIndex := s.linebufIndex + 1 }
        obtain ⟨s₂, hprint, h₂⟩ := prints_sameLine (s := s₁) h.onScreen [[key.c]]
        rw [hprint, ok_bind]
        refine ⟨s₂, rfl, ?_, ?_, ?_, ?_, h₂.onScreen⟩
        · intro i hi
          rw [h₂.linebuf_eq, getD_concat]
          show Function.update s.linebuf s.linebufIndex key.c i = _
          rw [hindex]
          by_cases hlast : i = line.length
          · rw [if_pos hlast, hlast, Function.update_self]
          · rw [if_neg hlast, Function.update_of_ne hlast, h.eq_getD i hi]
        · rw [h₂.linebufIndex_eq, List.length_append, List.length_singleton]
          show s.linebufIndex + 1 = _
          rw [hindex]
        · rw [List.length_append, List.length_singleton]
          omega
        · rw [List.mem_append, List.mem_singleton, not_or]
          exact ⟨h.noNul, fun hzero => hc hzero.symm⟩
      · rw [if_neg (by omega), if_neg hroom]
        exact ⟨s, rfl, h⟩

/-- The loop, on characters that are not NUL. -/
theorem Shell.Holds.shellLoop {keys : List Key} (h : s.Holds line)
    (hkeys : ∀ key ∈ keys, key.c ≠ 0) :
    ∃ s', Pelikan.shellLoop s keys =
        .ok (s', (submitted line (keys.map Key.c)).map dispatchedOf) ∧
      s'.Holds ((keys.map Key.c).foldl editLine line) := by
  induction keys generalizing s line with
  | nil => exact ⟨s, rfl, h⟩
  | cons key keys ih =>
    rw [List.forall_mem_cons] at hkeys
    obtain ⟨s₁, hkey, h₁⟩ := h.shellKey hkeys.1
    obtain ⟨s₂, hrest, h₂⟩ := ih h₁ hkeys.2
    rw [Pelikan.shellLoop, hkey, ok_bind]
    dsimp only
    rw [hrest, ok_bind, List.map_cons, submitted]
    by_cases hline : key.c = 0x0A ∧ line ≠ []
    · have hempty : editLine line key.c = [] := by
        rw [editLine, if_neg (by rw [hline.1]; decide), if_pos hline.1]
      rw [if_pos hline, if_pos hline, hempty]
      exact ⟨s₂, rfl, h₂⟩
    · rw [if_neg hline, if_neg hline]
      exact ⟨s₂, rfl, h₂⟩

end Lines

/-- The shell runs the lines that were typed. Whatever characters are delivered, none of them NUL,
the loop stays inside its arrays, and what it dispatches are the edited lines: each with what
stands in front of its first space as the command, and what stands behind it as the argument. -/
theorem shellRun_spec {s : Shell} (hscreen : s.vga.OnScreen) {keys : List Key}
    (hkeys : ∀ key ∈ keys, key.c ≠ 0) :
    ∃ s', shellRun s keys = .ok (s', (submitted [] (keys.map Key.c)).map dispatchedOf) := by
  obtain ⟨s', hrun, -⟩ := (holds_nil hscreen).shellLoop hkeys
  exact ⟨s', hrun⟩

/-- The shell at start-up, on a blank screen. -/
def shellZero : Shell := ⟨fun _ => 0, 0, fun _ => 0, 100, [], blankVga⟩

/-- A character that is typed, when there is nothing to list. -/
def typed (c : Char) : Key := ⟨BitVec.ofNat 8 c.toNat, fun _ => 0x55, [], [], []⟩

/-- `spawn once`, with a typing error that is taken back. -/
theorem shellRun_spawn :
    ∃ s', shellRun shellZero (['s', 'p', 'a', 'w', 'n', ' ', 'i', '\x08', 'o', 'n', 'c', 'e',
        '\n'].map typed) =
      .ok (s', [⟨ascii ['s', 'p', 'a', 'w', 'n', ' ', 'o', 'n', 'c', 'e'],
        ascii ['s', 'p', 'a', 'w', 'n'], ascii ['o', 'n', 'c', 'e'], some .spawn⟩]) :=
  shellRun_spec ⟨0, rfl, rfl, by decide⟩ (by decide)

end Pelikan

end SystemsProjects
