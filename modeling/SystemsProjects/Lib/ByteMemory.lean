import Mathlib.Logic.Function.Basic
import Mathlib.Tactic.NormNum

/-!
# Byte memory

The memory of a 32-bit machine, a byte for each address, and its little-endian words.
Addresses wrap around at `2 ^ 32`.

- `word`, `setWord`: a word at any address, aligned or not.
- `word_setWord`: a word that was stored is read back.
- `setWord_of_ne`, `word_congr`: storing a word changes its four bytes only, and a word
  depends on its four bytes only.
- `setWord_word`: storing the word that is there changes nothing.
-/

namespace SystemsProjects

/-- A byte for each address. -/
abbrev ByteMemory := Nat → BitVec 8

namespace ByteMemory

variable {m m' : ByteMemory} {a b v : Nat}

/-- The address `i` bytes behind `a`. -/
def byteAddr (a i : Nat) : Nat := (a + i) % 4294967296

/-- The `uint32_t` at `a`. -/
def word (m : ByteMemory) (a : Nat) : Nat :=
  (m (byteAddr a 0)).toNat + 256 * (m (byteAddr a 1)).toNat +
    65536 * (m (byteAddr a 2)).toNat + 16777216 * (m (byteAddr a 3)).toNat

/-- Store the `uint32_t` `v` at `a`. -/
def setWord (m : ByteMemory) (a v : Nat) : ByteMemory :=
  let m := Function.update m (byteAddr a 0) (BitVec.ofNat 8 v)
  let m := Function.update m (byteAddr a 1) (BitVec.ofNat 8 (v / 256))
  let m := Function.update m (byteAddr a 2) (BitVec.ofNat 8 (v / 65536))
  Function.update m (byteAddr a 3) (BitVec.ofNat 8 (v / 16777216))

theorem word_lt (m : ByteMemory) (a : Nat) : word m a < 4294967296 := by
  have h₀ := (m (byteAddr a 0)).isLt
  have h₁ := (m (byteAddr a 1)).isLt
  have h₂ := (m (byteAddr a 2)).isLt
  have h₃ := (m (byteAddr a 3)).isLt
  unfold word
  omega

/-- Below the top of the memory no address wraps around. -/
theorem byteAddr_of_lt {i : Nat} (h : a + i < 4294967296) : byteAddr a i = a + i :=
  Nat.mod_eq_of_lt h

/-- A word depends on its four bytes only. -/
theorem word_congr (h : ∀ i, i < 4 → m' (byteAddr a i) = m (byteAddr a i)) :
    word m' a = word m a := by
  unfold word
  rw [h 0 (by omega), h 1 (by omega), h 2 (by omega), h 3 (by omega)]

/-- Storing a word leaves the other bytes alone. -/
theorem setWord_of_ne (h : ∀ i, i < 4 → b ≠ byteAddr a i) : setWord m a v b = m b := by
  unfold setWord
  rw [Function.update_of_ne (h 3 (by omega)), Function.update_of_ne (h 2 (by omega)),
    Function.update_of_ne (h 1 (by omega)), Function.update_of_ne (h 0 (by omega))]

/-- The four bytes of a word are four bytes. -/
theorem byteAddr_ne {i j : Nat} (hi : i < 4) (hj : j < 4) (hne : i ≠ j) :
    byteAddr a i ≠ byteAddr a j := by
  unfold byteAddr
  omega

/-- Each byte of a stored word is where it is read. -/
theorem setWord_byteAddr {i : Nat} (hi : i < 4) :
    setWord m a v (byteAddr a i) = BitVec.ofNat 8 (v / 256 ^ i) := by
  have hcases : i = 0 ∨ i = 1 ∨ i = 2 ∨ i = 3 := by omega
  unfold setWord
  rcases hcases with rfl | rfl | rfl | rfl
  · rw [Function.update_of_ne (byteAddr_ne (by omega) (by omega) (by omega)),
      Function.update_of_ne (byteAddr_ne (by omega) (by omega) (by omega)),
      Function.update_of_ne (byteAddr_ne (by omega) (by omega) (by omega)), Function.update_self,
      Nat.pow_zero, Nat.div_one]
  · rw [Function.update_of_ne (byteAddr_ne (by omega) (by omega) (by omega)),
      Function.update_of_ne (byteAddr_ne (by omega) (by omega) (by omega)), Function.update_self,
      Nat.pow_one]
  · rw [Function.update_of_ne (byteAddr_ne (by omega) (by omega) (by omega)),
      Function.update_self]
    rfl
  · rw [Function.update_self]
    rfl

/-- A word that was stored is read back. -/
theorem word_setWord (hv : v < 4294967296) : word (setWord m a v) a = v := by
  unfold word
  rw [setWord_byteAddr (by omega), setWord_byteAddr (by omega), setWord_byteAddr (by omega),
    setWord_byteAddr (by omega)]
  simp only [BitVec.toNat_ofNat]
  omega

/-- The bytes of a word. -/
theorem ofNat_word_div {i : Nat} (hi : i < 4) :
    BitVec.ofNat 8 (word m a / 256 ^ i) = m (byteAddr a i) := by
  have h₀ := (m (byteAddr a 0)).isLt
  have h₁ := (m (byteAddr a 1)).isLt
  have h₂ := (m (byteAddr a 2)).isLt
  have h₃ := (m (byteAddr a 3)).isLt
  have hcases : i = 0 ∨ i = 1 ∨ i = 2 ∨ i = 3 := by omega
  refine BitVec.eq_of_toNat_eq ?_
  rw [BitVec.toNat_ofNat]
  unfold word
  rcases hcases with rfl | rfl | rfl | rfl
  · omega
  · omega
  · omega
  · omega

/-- Storing the word that is there changes nothing. -/
theorem setWord_word (m : ByteMemory) (a : Nat) : setWord m a (word m a) = m := by
  funext b
  by_cases hb : ∃ i, i < 4 ∧ b = byteAddr a i
  · obtain ⟨i, hi, rfl⟩ := hb
    rw [setWord_byteAddr hi, ofNat_word_div hi]
  · refine setWord_of_ne fun i hi heq => hb ?_
    exact ⟨i, hi, heq⟩

end ByteMemory

end SystemsProjects
