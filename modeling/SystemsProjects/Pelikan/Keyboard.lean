import SystemsProjects.Lib.RingBuffer
import SystemsProjects.Lib.Transition

/-!
# The keyboard buffer (`keyboard.c`)

The interrupt handler writes, one task reads. The handler runs with interrupts off, so it is
one step; `ringbuf_pop` is cut at every point where the handler can come in between, and
behind its `cli` at every statement.

- `keyboardStep`: a key, a statement of the task, or its call of `kbd_getchar`.
- `KeyboardInv`: what has been returned, followed by what is pending, is what has been accepted.
- `keyboard_fifo`: the buffer is a queue of at most 256 bytes.

The invariant has to hold at every point of `ringbuf_pop`, so it is stated with the byte that
the task has in hand: `Keyboard.pending` counts it among those that have not been returned, and
`PopPoint.Fits` says what the counters are in the middle of the updates. Between `cli` and the
restored flag no key arrives.
-/

namespace SystemsProjects

namespace Pelikan

/-- `scancode_to_ascii` -/
def scancodeToAscii : List Char :=
  ['\x00', '\x00', '1', '2', '3', '4', '5', '6',
   '7', '8', '9', '0', '-', '=', '\x08', '\x00',
   'q', 'w', 'e', 'r', 't', 'y', 'u', 'i',
   'o', 'p', '[', ']', '\n', '\x00', 'a', 's',
   'd', 'f', 'g', 'h', 'j', 'k', 'l', ';',
   '\x27', '\x60', '\x00', '\x5c', 'z', 'x', 'c', 'v',
   'b', 'n', 'm', ',', '.', '/', '\x00', '\x00',
   '\x00', ' ', '\x00']

/-- `RB` -/
abbrev RB := Ring (BitVec 8)

/-- `ringbuf_init`; the array is left as it is. -/
def ringbufInit (rb : RB) : RB := { rb with head := 0, tail := 0, len := 0 }

/-- `ringbuf_push` -/
def ringbufPush (rb : RB) (byte : BitVec 8) : RB :=
  if rb.len = 256 then rb
  else
    { rb with
      data := Function.update rb.data rb.head byte
      head := (rb.head + 1) % 256
      len := rb.len + 1 }

/-- The key that `keyboard_handler` pushes: none when the scancode is that of a release or of a
key without a character. -/
def keyOf (scancode : BitVec 8) : Option (BitVec 8) :=
  if scancode &&& 0x80 ≠ 0 then none
  else
    let key := BitVec.ofNat 8 (scancodeToAscii.getD scancode.toNat '\x00').toNat
    if key = 0 then none else some key

/-- `keyboard_handler`, with the byte read from the port. -/
def keyboardHandler (rb : RB) (scancode : BitVec 8) : RB :=
  match keyOf scancode with
  | none => rb
  | some key => ringbufPush rb key

/-- Where the reading task is in `ringbuf_pop`. -/
inductive PopPoint where
  /-- not in the function -/
  | outside
  /-- at the test whether there is a byte -/
  | entered
  /-- at `pushfl` -/
  | tested
  /-- at `cli` -/
  | saved (flags : Bool)
  /-- at `*out = rb->data[rb->tail]` -/
  | locked (flags : Bool)
  /-- at `rb->tail = (rb->tail + 1) % RINGBUF_SIZE` -/
  | copied (flags : Bool) (out : BitVec 8)
  /-- at `rb->len--` -/
  | advanced (flags : Bool) (out : BitVec 8)
  /-- at `restore_flags(flags)` -/
  | shortened (flags : Bool) (out : BitVec 8)
  deriving DecidableEq

/-- The buffer, the interrupt flag and the task. `accepted` are the keys that `ringbuf_push` has
stored, `returned` the bytes that `kbd_getchar` has given. -/
structure Keyboard where
  rb : RB
  interrupts : Bool
  point : PopPoint
  accepted : List (BitVec 8)
  returned : List (BitVec 8)

/-- What can happen. -/
inductive KeyboardAction where
  /-- a keyboard interrupt -/
  | key (scancode : BitVec 8)
  /-- outside `kbd_getchar` the task sets the interrupt flag -/
  | setInterrupts (flag : Bool)
  /-- the task calls `kbd_getchar` -/
  | getchar
  /-- the next statement of `ringbuf_pop` -/
  | next
  deriving DecidableEq

/-- A keyboard interrupt, where it is possible. -/
def keyStep (s : Keyboard) (scancode : BitVec 8) : Option Keyboard :=
  if s.interrupts then
    let accepted :=
      match keyOf scancode with
      | none => s.accepted
      -- a full buffer drops the key
      | some key => if s.rb.len = 256 then s.accepted else s.accepted ++ [key]
    some { s with rb := keyboardHandler s.rb scancode, accepted }
  else none

/-- A statement of `ringbuf_pop`. -/
def popStep (s : Keyboard) : Option Keyboard :=
  match s.point with
  | .outside => none
  | .entered =>
    -- an empty buffer: `return 0`
    if s.rb.len = 0 then some { s with point := .outside }
    else some { s with point := .tested }
  | .tested => some { s with point := .saved s.interrupts }
  | .saved flags => some { s with interrupts := false, point := .locked flags }
  | .locked flags => some { s with point := .copied flags (s.rb.data s.rb.tail) }
  | .copied flags out =>
    some { s with rb := { s.rb with tail := (s.rb.tail + 1) % 256 }, point := .advanced flags out }
  | .advanced flags out =>
    some { s with rb := { s.rb with len := s.rb.len - 1 }, point := .shortened flags out }
  | .shortened flags out =>
    some { s with interrupts := flags, point := .outside, returned := s.returned ++ [out] }

/-- One step. -/
def keyboardStep (s : Keyboard) : KeyboardAction → Option Keyboard
  | .key scancode => keyStep s scancode
  | .setInterrupts flag =>
    if s.point = .outside then some { s with interrupts := flag } else none
  | .getchar => if s.point = .outside then some { s with point := .entered } else none
  | .next => popStep s

/-- `keyboard_init` has been called. -/
structure KeyboardStart (s : Keyboard) : Prop where
  rb_eq : ∃ rb, s.rb = ringbufInit rb
  point_eq : s.point = .outside
  accepted_eq : s.accepted = []
  returned_eq : s.returned = []

/-- The keyboard and the task that reads it. -/
def keyboardSystem : TransitionSystem Keyboard KeyboardAction :=
  .ofFunction KeyboardStart keyboardStep

/-! ## The queue -/

/-- Behind `cli`, so that a pop is midway. -/
def PopPoint.midway : PopPoint → Bool
  | .outside | .entered | .tested | .saved _ => false
  | .locked _ | .copied .. | .advanced .. | .shortened .. => true

/-- The accepted bytes that have not been returned. -/
def Keyboard.pending (s : Keyboard) : List (BitVec 8) :=
  match s.point with
  | .outside | .entered | .tested | .saved _ | .locked _ | .copied .. => s.rb.stored 256
  -- the byte has left the buffer, though `len` still counts it
  | .advanced _ out => out :: ({ s.rb with len := s.rb.len - 1 } : RB).stored 256
  | .shortened _ out => out :: s.rb.stored 256

/-- What the counters and the interrupt flag are at each point. -/
def PopPoint.Fits (rb : RB) (interrupts : Bool) : PopPoint → Prop
  | .outside | .entered => rb.WellFormed 256
  | .tested | .saved _ => rb.WellFormed 256 ∧ 0 < rb.len
  | .locked _ => rb.WellFormed 256 ∧ 0 < rb.len ∧ interrupts = false
  | .copied _ out =>
    rb.WellFormed 256 ∧ 0 < rb.len ∧ interrupts = false ∧ out = rb.data rb.tail
  | .advanced _ _ =>
    ({ rb with len := rb.len - 1 } : RB).WellFormed 256 ∧ 0 < rb.len ∧ interrupts = false
  | .shortened _ _ => rb.WellFormed 256 ∧ interrupts = false

/-- The invariant of the keyboard. -/
structure KeyboardInv (s : Keyboard) : Prop where
  fits : s.point.Fits s.rb s.interrupts
  history : s.returned ++ s.pending = s.accepted

section

variable {s s' : Keyboard} {rb : RB} {byte scancode : BitVec 8}

/-- A push on a ring that is not full is a write. -/
theorem ringbufPush_eq_write (hlen : rb.len ≠ 256) : ringbufPush rb byte = rb.write 256 byte := by
  unfold ringbufPush
  rw [if_neg hlen]
  rfl

/-- Interrupts are on only where the buffer is whole. -/
theorem PopPoint.Fits.wellFormed {p : PopPoint} {on : Bool} (h : p.Fits rb on) (hon : on = true) :
    rb.WellFormed 256 ∧ p.midway = false := by
  cases p with
  | outside => exact ⟨h, rfl⟩
  | entered => exact ⟨h, rfl⟩
  | tested => exact ⟨h.1, rfl⟩
  | saved => exact ⟨h.1, rfl⟩
  | locked => simp [h.2.2] at hon
  | copied => simp [h.2.2.1] at hon
  | advanced => simp [h.2.2] at hon
  | shortened => simp [h.2] at hon

/-- In front of and behind a pop, what is pending is what is stored. -/
theorem Keyboard.pending_eq_stored (h : s.point.midway = false) : s.pending = s.rb.stored 256 := by
  unfold Keyboard.pending
  cases hp : s.point <;> rw [hp] at h <;> first | rfl | cases h

/-- A push keeps the points outside the section with interrupts off. -/
theorem PopPoint.Fits.push {p : PopPoint} {on : Bool} (h : p.Fits rb on) (hon : on = true)
    (hlen : rb.len ≠ 256) : p.Fits (rb.write 256 byte) on := by
  have hlt : rb.len < 256 := Nat.lt_of_le_of_ne (h.wellFormed hon).1.len_le hlen
  cases p with
  | outside => exact Ring.WellFormed.write h hlt byte
  | entered => exact Ring.WellFormed.write h hlt byte
  | tested => exact ⟨h.1.write hlt byte, Nat.succ_pos _⟩
  | saved => exact ⟨h.1.write hlt byte, Nat.succ_pos _⟩
  | locked => simp [h.2.2] at hon
  | copied => simp [h.2.2.1] at hon
  | advanced => simp [h.2.2] at hon
  | shortened => simp [h.2] at hon

/-- A key is appended, or it is dropped and 256 bytes are pending. -/
theorem KeyboardInv.key (h : KeyboardInv s) (hstep : keyStep s scancode = some s') :
    KeyboardInv s' ∧ s'.returned = s.returned ∧ ∀ key, keyOf scancode = some key →
      s'.accepted = s.accepted ++ [key] ∨ s'.accepted = s.accepted ∧ s.pending.length = 256 := by
  unfold keyStep at hstep
  split at hstep
  · next hon =>
    obtain rfl := Option.some.inj hstep
    obtain ⟨hwf, hpoint⟩ := h.fits.wellFormed hon
    have hpending := Keyboard.pending_eq_stored hpoint
    cases hkey : keyOf scancode with
    | none =>
      -- a scancode without a key changes nothing
      have hrb : keyboardHandler s.rb scancode = s.rb := by rw [keyboardHandler, hkey]
      simp only [hrb]
      exact ⟨⟨h.fits, h.history⟩, trivial, nofun⟩
    | some key =>
      have hrb : keyboardHandler s.rb scancode = ringbufPush s.rb key := by
        rw [keyboardHandler, hkey]
      simp only [hrb]
      by_cases hlen : s.rb.len = 256
      · -- the ring is full, and the key is lost
        have hsame : ringbufPush s.rb key = s.rb := if_pos hlen
        simp only [hsame, if_pos hlen]
        refine ⟨⟨h.fits, h.history⟩, trivial, fun _ _ => .inr ⟨trivial, ?_⟩⟩
        rw [hpending, Ring.length_stored, hlen]
      · -- there is room, and the key goes behind the others
        have hlt : s.rb.len < 256 := Nat.lt_of_le_of_ne hwf.len_le hlen
        simp only [ringbufPush_eq_write hlen, if_neg hlen]
        refine ⟨⟨h.fits.push hon hlen, ?_⟩, trivial, ?_⟩
        · have hhistory := h.history
          rw [hpending] at hhistory
          let s' := { s with rb := s.rb.write 256 key, accepted := s.accepted ++ [key] }
          have hpending' : s'.pending = (s.rb.write 256 key).stored 256 :=
            Keyboard.pending_eq_stored (s := s') hpoint
          show s.returned ++ s'.pending = s.accepted ++ [key]
          rw [hpending', Ring.stored_write hwf hlt, ← List.append_assoc, hhistory]
        · intro key' heq
          obtain rfl := Option.some.inj heq
          exact .inl rfl
  · cases hstep

/-- A statement of `ringbuf_pop`. -/
theorem KeyboardInv.pop (h : KeyboardInv s) (hstep : popStep s = some s') : KeyboardInv s' := by
  obtain ⟨rb, on, p, accepted, returned⟩ := s
  obtain ⟨hfits, hhistory⟩ := h
  cases p with
  | outside => cases hstep
  | entered =>
    unfold popStep at hstep
    dsimp only at hstep
    split at hstep
    · obtain rfl := Option.some.inj hstep
      exact ⟨hfits, hhistory⟩
    · next hlen =>
      obtain rfl := Option.some.inj hstep
      exact ⟨⟨hfits, Nat.pos_of_ne_zero hlen⟩, hhistory⟩
  | tested =>
    obtain rfl := Option.some.inj hstep
    exact ⟨hfits, hhistory⟩
  | saved flags =>
    obtain rfl := Option.some.inj hstep
    exact ⟨⟨hfits.1, hfits.2, rfl⟩, hhistory⟩
  | locked flags =>
    obtain rfl := Option.some.inj hstep
    exact ⟨⟨hfits.1, hfits.2.1, hfits.2.2, rfl⟩, hhistory⟩
  | copied flags out =>
    obtain rfl := Option.some.inj hstep
    obtain ⟨hwf, hlen, hoff, hout⟩ := hfits
    have hout : out = rb.data rb.tail := hout
    refine ⟨⟨hwf.advance hlen, hlen, hoff⟩, ?_⟩
    -- the first stored byte is now the one in `out`
    show returned ++ out :: (rb.advance 256).stored 256 = accepted
    rw [hout, ← Ring.stored_eq_cons hwf hlen]
    exact hhistory
  | advanced flags out =>
    obtain rfl := Option.some.inj hstep
    exact ⟨⟨hfits.1, hfits.2.2⟩, hhistory⟩
  | shortened flags out =>
    obtain rfl := Option.some.inj hstep
    refine ⟨hfits.1, ?_⟩
    show (returned ++ [out]) ++ rb.stored 256 = accepted
    rw [List.append_assoc]
    exact hhistory

theorem KeyboardInv.start (h : KeyboardStart s) : KeyboardInv s := by
  obtain ⟨rb, hrb⟩ := h.rb_eq
  constructor
  · rw [h.point_eq, hrb]
    exact ⟨Nat.zero_lt_succ 255, Nat.zero_le 256, rfl⟩
  · unfold Keyboard.pending
    rw [h.point_eq, hrb, h.accepted_eq, h.returned_eq]
    rfl

/-- Every step keeps it: a key interrupt, or one statement of a pop. -/
theorem KeyboardInv.step {a : KeyboardAction} (h : KeyboardInv s)
    (hstep : keyboardStep s a = some s') : KeyboardInv s' := by
  cases a with
  | key scancode => exact (h.key hstep).1
  | setInterrupts flag =>
    obtain ⟨hpoint, heq⟩ := Option.ite_none_right_eq_some.mp hstep
    obtain rfl := Option.some.inj heq
    obtain ⟨hfits, hhistory⟩ := h
    rw [hpoint] at hfits
    refine ⟨?_, hhistory⟩
    dsimp only
    rw [hpoint]
    exact hfits
  | getchar =>
    obtain ⟨hpoint, heq⟩ := Option.ite_none_right_eq_some.mp hstep
    obtain rfl := Option.some.inj heq
    obtain ⟨hfits, hhistory⟩ := h
    rw [hpoint] at hfits
    rw [Keyboard.pending_eq_stored (by rw [hpoint]; rfl)] at hhistory
    exact ⟨hfits, hhistory⟩
  | next => exact h.pop hstep

theorem keyboardInv_reachable (h : keyboardSystem.Reachable s) : KeyboardInv s :=
  h.invariant (P := KeyboardInv) (fun _ => KeyboardInv.start) fun _ _ _ _ hinv hstep =>
    hinv.step hstep

end

/-- The buffer is a queue: in every state, what has been returned and what is pending are the
accepted bytes in order. Where no pop is midway the pending bytes are those in the buffer, and
the counters fit. A key is dropped only when 256 bytes are pending. -/
theorem keyboard_fifo {s : Keyboard} (h : keyboardSystem.Reachable s) :
    s.returned ++ s.pending = s.accepted ∧
    (s.point.midway = false →
      s.returned ++ s.rb.stored 256 = s.accepted ∧
      s.rb.head = (s.rb.tail + s.rb.len) % 256 ∧ s.rb.len ≤ 256) ∧
    (∀ scancode key s', keyboardStep s (.key scancode) = some s' → keyOf scancode = some key →
      s'.accepted = s.accepted ++ [key] ∨
        s'.accepted = s.accepted ∧ s.pending.length = 256) := by
  have hinv := keyboardInv_reachable h
  refine ⟨hinv.history, ?_, ?_⟩
  · intro hpoint
    have hwf : s.rb.WellFormed 256 := by
      have hfits := hinv.fits
      cases hp : s.point <;> rw [hp] at hfits hpoint
      · exact hfits
      · exact hfits
      · exact hfits.1
      · exact hfits.1
      all_goals cases hpoint
    refine ⟨?_, hwf.head_eq, hwf.len_le⟩
    rw [← Keyboard.pending_eq_stored hpoint]
    exact hinv.history
  · intro scancode key s' hstep hkey
    exact (hinv.key hstep).2.2 key hkey

/-- A key arrives between the test and the `cli`. -/
def keyboardRun : List KeyboardAction :=
  [.key 0x10, .getchar, .next, .key 0x11, .next, .next, .next, .next, .next, .next]

/-- The buffer after `keyboard_init`, with interrupts on. -/
def keyboardZero : Keyboard where
  rb := ringbufInit ⟨fun _ => 0, 0, 0, 0⟩
  interrupts := true
  point := .outside
  accepted := []
  returned := []

theorem keyboardRun_ends :
    (TransitionSystem.runActions keyboardStep keyboardRun keyboardZero).map
      (fun s => (s.accepted, s.returned, s.point)) = some ([0x71, 0x77], [0x71], .outside) := by
  decide

theorem keyboard_fifo_run :
    ∃ s, keyboardSystem.Reachable s ∧ s.accepted = [0x71, 0x77] ∧ s.rb.stored 256 = [0x77] ∧
      s.rb.head = (s.rb.tail + s.rb.len) % 256 := by
  obtain ⟨s, hrun, hends⟩ := Option.map_eq_some_iff.mp keyboardRun_ends
  obtain ⟨haccepted, hrest⟩ := Prod.mk.inj hends
  obtain ⟨hreturned, hpoint⟩ := Prod.mk.inj hrest
  have hstart : keyboardSystem.Reachable keyboardZero := .init ⟨⟨_, rfl⟩, rfl, rfl, rfl⟩
  have hreach : keyboardSystem.Reachable s :=
    TransitionSystem.reachable_of_runActions hstart hrun
  obtain ⟨-, hwhole, -⟩ := keyboard_fifo hreach
  obtain ⟨hhistory, hhead, -⟩ := hwhole (by rw [hpoint]; rfl)
  rw [hreturned, haccepted] at hhistory
  exact ⟨s, hreach, haccepted, List.cons.inj hhistory |>.2, hhead⟩

end Pelikan

end SystemsProjects
