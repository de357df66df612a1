import Mathlib.Data.Nat.Digits.Lemmas

/-!
# Decimal numerals in ASCII

- `lowDigits`: the digits of a number, the lowest first; zero has the digit 0.
- `decimalText`: its numeral, the highest digit first.
- `IsDecimal`: a string that is the numeral of a number: digits only, no leading zero, and read
  back (`readDecimal`) it gives the number. `decimalText` is one (`isDecimal_decimalText`).

The digits are computed from the lowest on, as a program does it, and the numeral is their
reverse. That there is no leading zero is a fact about the last digit of `lowDigits`.
-/

namespace SystemsProjects

/-- The digits, the lowest first. -/
def lowDigits (n : Nat) : List Nat := if n = 0 then [0] else Nat.digits 10 n

/-- The ASCII character of a digit. -/
def digitChar (d : Nat) : BitVec 8 := BitVec.ofNat 8 (0x30 + d)

/-- The numeral. -/
def decimalText (n : Nat) : List (BitVec 8) := ((lowDigits n).map digitChar).reverse

/-- The number that a string of digits stands for. -/
def readDecimal (s : List (BitVec 8)) : Nat := s.foldl (fun n c => 10 * n + (c.toNat - 0x30)) 0

/-- The string is the numeral of `n`. -/
structure IsDecimal (s : List (BitVec 8)) (n : Nat) : Prop where
  digits : ∀ c ∈ s, 0x30 ≤ c.toNat ∧ c.toNat ≤ 0x39
  leading : s = [0x30] ∨ ∃ c rest, s = c :: rest ∧ c ≠ 0x30
  value : readDecimal s = n

section

variable {n d k : Nat}

/-! ## Digits -/

theorem lowDigits_of_div_eq_zero (h : n / 10 = 0) : lowDigits n = [n % 10] := by
  have hlt : n < 10 := by omega
  unfold lowDigits
  by_cases hn : n = 0
  · rw [if_pos hn, hn]
  · rw [if_neg hn, Nat.digits_of_lt 10 n hn hlt, Nat.mod_eq_of_lt hlt]

theorem lowDigits_of_div_ne_zero (h : n / 10 ≠ 0) :
    lowDigits n = n % 10 :: lowDigits (n / 10) := by
  have hn : n ≠ 0 := by
    rintro rfl
    exact h (Nat.zero_div 10)
  rw [lowDigits, if_neg hn, lowDigits, if_neg h]
  exact Nat.digits_def' (by decide) (Nat.pos_of_ne_zero hn)

theorem lowDigits_ne_nil (n : Nat) : lowDigits n ≠ [] := by
  by_cases h : n / 10 = 0
  · rw [lowDigits_of_div_eq_zero h]
    exact List.cons_ne_nil _ _
  · rw [lowDigits_of_div_ne_zero h]
    exact List.cons_ne_nil _ _

theorem lt_of_mem_lowDigits (h : d ∈ lowDigits n) : d < 10 := by
  unfold lowDigits at h
  split at h
  · rw [List.mem_singleton.mp h]
    decide
  · exact Nat.digits_lt_base (by decide) h

theorem ofDigits_lowDigits (n : Nat) : Nat.ofDigits 10 (lowDigits n) = n := by
  unfold lowDigits
  split
  · next hn => rw [hn, Nat.ofDigits_singleton]
  · exact Nat.ofDigits_digits 10 n

/-- A number below a power of ten has no more digits than its exponent. -/
theorem length_lowDigits_le (hk : 0 < k) (h : n < 10 ^ k) : (lowDigits n).length ≤ k := by
  unfold lowDigits
  split
  · exact hk
  · exact (Nat.digits_length_le_iff (by decide) n).mpr h

/-- The highest digit. -/
theorem getLast_lowDigits (hn : n ≠ 0) : ∃ low d, lowDigits n = low ++ [d] ∧ d ≠ 0 := by
  have hne : Nat.digits 10 n ≠ [] := Nat.digits_ne_nil_iff_ne_zero.mpr hn
  refine ⟨(Nat.digits 10 n).dropLast, (Nat.digits 10 n).getLast hne, ?_,
    Nat.getLast_digit_ne_zero 10 hn⟩
  rw [lowDigits, if_neg hn, List.dropLast_append_getLast hne]

/-! ## Numerals -/

theorem toNat_digitChar (h : d < 10) : (digitChar d).toNat = 0x30 + d := by
  rw [digitChar, BitVec.toNat_ofNat]
  exact Nat.mod_eq_of_lt (by omega)

theorem readDecimal_concat (s : List (BitVec 8)) (c : BitVec 8) :
    readDecimal (s ++ [c]) = 10 * readDecimal s + (c.toNat - 0x30) := by
  rw [readDecimal, List.foldl_append]
  rfl

/-- Reading the digits from the highest down gives the number. -/
theorem readDecimal_reverse {ds : List Nat} (h : ∀ d ∈ ds, d < 10) :
    readDecimal (ds.map digitChar).reverse = Nat.ofDigits 10 ds := by
  induction ds with
  | nil => rfl
  | cons d ds ih =>
    have hd := toNat_digitChar (h d (List.mem_cons_self ..))
    rw [List.map_cons, List.reverse_cons, readDecimal_concat, hd, Nat.ofDigits_cons,
      ih fun e he => h e (List.mem_cons_of_mem d he)]
    omega

/-- The text of a number is as long as its digits are many. -/
theorem length_decimalText_le (hk : 0 < k) (h : n < 10 ^ k) : (decimalText n).length ≤ k := by
  rw [decimalText, List.length_reverse, List.length_map]
  exact length_lowDigits_le hk h

/-- The text of a number is decimal and reads as it. -/
theorem isDecimal_decimalText (n : Nat) : IsDecimal (decimalText n) n where
  digits c hc := by
    obtain ⟨d, hd, rfl⟩ := List.mem_map.mp (List.mem_reverse.mp hc)
    have hlt := lt_of_mem_lowDigits hd
    rw [toNat_digitChar hlt]
    omega
  leading := by
    by_cases hn : n = 0
    · subst hn
      exact .inl rfl
    · obtain ⟨low, d, hlow, hd⟩ := getLast_lowDigits hn
      have hlt : d < 10 := by
        refine lt_of_mem_lowDigits (n := n) ?_
        rw [hlow]
        exact List.mem_append_right low (List.mem_singleton.mpr rfl)
      refine .inr ⟨digitChar d, ((low.map digitChar).reverse), ?_, fun hzero => ?_⟩
      · rw [decimalText, hlow, List.map_append, List.reverse_append]
        rfl
      · have htoNat := congrArg BitVec.toNat hzero
        rw [toNat_digitChar hlt] at htoNat
        exact hd (Nat.add_left_cancel (htoNat.trans (Nat.add_zero 0x30).symm))
  value := by
    rw [decimalText, readDecimal_reverse fun d hd => lt_of_mem_lowDigits hd]
    exact ofDigits_lowDigits n

end

end SystemsProjects
