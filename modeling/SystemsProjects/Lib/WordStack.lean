import SystemsProjects.Lib.ByteMemory

/-!
# Stacks of words

A stack in byte memory that grows downwards, one 32-bit word at a time, as the stack of an x86
machine does.

- `load`, `store`: words as bit vectors.
- `Words m a ws`: the words from `a` on are those of `ws`.
- `WordStack.push`, `WordStack.pushes`: with what they write (`pushes_words`) and what they leave
  alone (`pushes_apart`), as long as the stack does not run through address zero.

The first of the words is pushed first and stands highest; what was above the stack pointer
before stays where it is (`pushes_apart`).
-/

namespace SystemsProjects

namespace ByteMemory

variable {m m' : ByteMemory} {a b lo hi : Nat} {ws us vs : List (BitVec 32)}

/-- The word at `a`. -/
def load (m : ByteMemory) (a : Nat) : BitVec 32 := BitVec.ofNat 32 (word m a)

/-- Store a word at `a`. -/
def store (m : ByteMemory) (a : Nat) (v : BitVec 32) : ByteMemory := setWord m a v.toNat

@[simp] theorem load_store (m : ByteMemory) (a : Nat) (v : BitVec 32) :
    load (store m a v) a = v := by
  unfold load store
  rw [word_setWord v.isLt, BitVec.ofNat_toNat, BitVec.setWidth_eq]

/-- The two memories have the same bytes from `lo` up to `hi`. -/
def AgreeOn (m m' : ByteMemory) (lo hi : Nat) : Prop := ∀ b, lo ≤ b → b < hi → m' b = m b

namespace AgreeOn

theorem refl (m : ByteMemory) (lo hi : Nat) : AgreeOn m m lo hi := fun _ _ _ => rfl

theorem trans {m'' : ByteMemory} (h : AgreeOn m m' lo hi) (h' : AgreeOn m' m'' lo hi) :
    AgreeOn m m'' lo hi := fun b hb hb' => (h' b hb hb').trans (h b hb hb')

theorem mono (h : AgreeOn m m' lo hi) (ha : lo ≤ a) (hb : b ≤ hi) : AgreeOn m m' a b :=
  fun x hx hx' => h x (by omega) (by omega)

end AgreeOn

/-- A word depends on its four bytes. -/
theorem load_congr (ha : a + 4 ≤ 4294967296) (h : AgreeOn m m' a (a + 4)) :
    load m' a = load m a := by
  unfold load
  rw [word_congr]
  intro i hi
  rw [byteAddr_of_lt (by omega)]
  exact h _ (by omega) (by omega)

/-- A store leaves the bytes beside it alone. -/
theorem store_agreeOn (v : BitVec 32) (ha : a + 4 ≤ 4294967296) (h : hi ≤ a ∨ a + 4 ≤ lo) :
    AgreeOn m (store m a v) lo hi := by
  intro b hb hb'
  refine setWord_of_ne fun i hi => ?_
  rw [byteAddr_of_lt (by omega)]
  omega

theorem load_store_of_apart (v : BitVec 32) (ha : a + 4 ≤ 4294967296) (hb : b + 4 ≤ 4294967296)
    (h : a + 4 ≤ b ∨ b + 4 ≤ a) : load (store m a v) b = load m b :=
  load_congr hb (store_agreeOn v ha h.symm)

/-! ## Consecutive words -/

/-- The words from `a` on are those of the list. -/
def Words (m : ByteMemory) : Nat → List (BitVec 32) → Prop
  | _, [] => True
  | a, w :: ws => load m a = w ∧ Words m (a + 4) ws

@[simp] theorem words_nil : Words m a [] ↔ True := Iff.rfl

@[simp] theorem words_cons {w : BitVec 32} :
    Words m a (w :: ws) ↔ load m a = w ∧ Words m (a + 4) ws := Iff.rfl

namespace Words

theorem congr (h : Words m a ws) (hend : a + 4 * ws.length ≤ 4294967296)
    (hm : AgreeOn m m' a (a + 4 * ws.length)) : Words m' a ws := by
  induction ws generalizing a with
  | nil => trivial
  | cons w ws ih =>
    rw [List.length_cons] at hend hm
    constructor
    · rw [load_congr (by omega) (hm.mono (Nat.le_refl a) (by omega))]
      exact h.1
    · exact ih h.2 (by omega) (hm.mono (by omega) (by omega))

/-- Each word of the list at its place. -/
theorem get (h : Words m a ws) (i : Nat) (hi : i < ws.length) : load m (a + 4 * i) = ws[i] := by
  induction ws generalizing a i with
  | nil => exact absurd hi (Nat.not_lt_zero i)
  | cons w ws ih =>
    cases i with
    | zero => exact h.1
    | succ i =>
      rw [List.length_cons] at hi
      rw [List.getElem_cons_succ, ← ih h.2 i (by omega)]
      congr 1
      omega

/-- The words behind the first `k`. -/
theorem drop (h : Words m a ws) (k : Nat) (hk : k ≤ ws.length) :
    Words m (a + 4 * k) (ws.drop k) := by
  induction k generalizing a ws with
  | zero => exact h
  | succ k ih =>
    cases ws with
    | nil => exact absurd hk (by simp)
    | cons w ws =>
      rw [List.length_cons] at hk
      have := ih h.2 (by omega)
      rwa [Nat.add_assoc, Nat.add_comm 4, ← Nat.mul_succ] at this

theorem append : Words m a (us ++ vs) ↔ Words m a us ∧ Words m (a + 4 * us.length) vs := by
  induction us generalizing a with
  | nil => simp
  | cons u us ih =>
    rw [List.cons_append, words_cons, words_cons, ih, and_assoc, List.length_cons,
      Nat.add_assoc, Nat.add_comm 4, ← Nat.mul_succ]

end Words

end ByteMemory

open ByteMemory

/-- A stack: the address of its top word, and the memory it lies in. -/
structure WordStack where
  top : BitVec 32
  mem : ByteMemory

namespace WordStack

variable {s : WordStack} {v : BitVec 32} {vs ws : List (BitVec 32)}

/-- Push a word. -/
def push (s : WordStack) (v : BitVec 32) : WordStack where
  top := s.top - 4
  mem := store s.mem (s.top - 4).toNat v

/-- Push words, the first one first. -/
def pushes (s : WordStack) (vs : List (BitVec 32)) : WordStack := vs.foldl push s

@[simp] theorem pushes_nil (s : WordStack) : s.pushes [] = s := rfl

@[simp] theorem pushes_cons (s : WordStack) (v : BitVec 32) (vs : List (BitVec 32)) :
    s.pushes (v :: vs) = (s.push v).pushes vs := rfl

theorem pushes_append (s : WordStack) (us vs : List (BitVec 32)) :
    s.pushes (us ++ vs) = (s.pushes us).pushes vs := List.foldl_append

theorem toNat_sub_four {x : BitVec 32} (h : 4 ≤ x.toNat) : (x - 4).toNat = x.toNat - 4 :=
  BitVec.toNat_sub_of_le (BitVec.le_def.mpr h)

theorem push_top (h : 4 ≤ s.top.toNat) : (s.push v).top.toNat + 4 = s.top.toNat := by
  show (s.top - 4).toNat + 4 = s.top.toNat
  rw [toNat_sub_four h]
  omega

/-- A push leaves the bytes beside its word alone. -/
theorem push_apart {lo hi : Nat} (h : 4 ≤ s.top.toNat)
    (hapart : s.top.toNat ≤ lo ∨ hi ≤ s.top.toNat - 4) : AgreeOn s.mem (s.push v).mem lo hi := by
  have hlt := s.top.isLt
  refine store_agreeOn v ?_ ?_ <;> rw [toNat_sub_four h] <;> omega

/-- A push puts its word in front of those that lie on the stack. -/
theorem push_words (h : 4 ≤ s.top.toNat) (hend : s.top.toNat + 4 * ws.length ≤ 4294967296)
    (hws : Words s.mem s.top.toNat ws) :
    Words (s.push v).mem (s.push v).top.toNat (v :: ws) := by
  constructor
  · exact load_store ..
  · rw [push_top h]
    exact hws.congr hend (push_apart h (Or.inl (Nat.le_refl _)))

theorem pushes_top (h : 4 * vs.length ≤ s.top.toNat) :
    (s.pushes vs).top.toNat + 4 * vs.length = s.top.toNat := by
  induction vs generalizing s with
  | nil => rfl
  | cons v vs ih =>
    rw [List.length_cons] at h ⊢
    have htop := push_top (s := s) (v := v) (by omega)
    have := ih (s := s.push v) (by omega)
    rw [pushes_cons]
    omega

/-- Pushes leave alone what does not lie in the words they take. -/
theorem pushes_apart {lo hi : Nat} (h : 4 * vs.length ≤ s.top.toNat)
    (hapart : s.top.toNat ≤ lo ∨ hi + 4 * vs.length ≤ s.top.toNat) :
    AgreeOn s.mem (s.pushes vs).mem lo hi := by
  induction vs generalizing s with
  | nil => exact AgreeOn.refl _ _ _
  | cons v vs ih =>
    rw [List.length_cons] at h hapart
    have htop := push_top (s := s) (v := v) (by omega)
    rw [pushes_cons]
    exact (push_apart (by omega) (by omega)).trans (ih (by omega) (by omega))

/-- Pushes put their words in front, the last one first. -/
theorem pushes_words (h : 4 * vs.length ≤ s.top.toNat)
    (hend : s.top.toNat + 4 * ws.length ≤ 4294967296) (hws : Words s.mem s.top.toNat ws) :
    Words (s.pushes vs).mem (s.pushes vs).top.toNat (vs.reverse ++ ws) := by
  induction vs generalizing s ws with
  | nil => exact hws
  | cons v vs ih =>
    rw [List.length_cons] at h
    have htop := push_top (s := s) (v := v) (by omega)
    rw [pushes_cons, List.reverse_cons, List.append_assoc]
    refine ih (by omega) ?_ (push_words (by omega) hend hws)
    rw [List.length_append, List.length_singleton]
    omega

end WordStack

end SystemsProjects
