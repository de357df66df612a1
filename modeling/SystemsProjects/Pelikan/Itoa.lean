import Mathlib.Data.List.Induction
import SystemsProjects.Lib.Decimal
import SystemsProjects.Pelikan.Shell
import SystemsProjects.Pelikan.TaskList

/-!
# Numbers in a buffer (`itoa.c`)

`itoa` with its two loops, on the bytes of `buf`: the digits are stored from the lowest on, and
then the buffer is turned round from both ends. Every access checks that its index is at most 10.

- `itoaLoop_eq`: the first loop stores the digits, the lowest first.
- `reverseLoop_eq`: the second loop turns round what lies between its two ends.
- `itoa_decimal`: the buffer begins with the numeral and its NUL, and is otherwise as it was.
- `ascii_itoa`: the numeral is what `scheduler_list_tasks` prints.

The first loop is an induction over the digits, with the number of those that are stored already
as a parameter; the second over the distance of the two indices. What lies behind the NUL keeps
its bytes, and a buffer of 11 is large enough for every 32-bit number, by the number of its
digits.
-/

namespace SystemsProjects

namespace Pelikan

/-- `buf[i]` -/
def bufRead (buf : Nat → BitVec 8) (i : Int) : Except Int (BitVec 8) :=
  if 0 ≤ i ∧ i ≤ 10 then .ok (buf i.toNat) else .error i

/-- `buf[i] = c` -/
def bufWrite (buf : Nat → BitVec 8) (i : Int) (c : BitVec 8) : Except Int (Nat → BitVec 8) :=
  if 0 ≤ i ∧ i ≤ 10 then .ok (Function.update buf i.toNat c) else .error i

/-- The loop test on 32 bits is that on numbers. -/
theorem div_ten_eq_zero {num : BitVec 32} : num / 10 = 0 ↔ num.toNat / 10 = 0 := by
  have hdiv : (num / 10).toNat = num.toNat / 10 := BitVec.toNat_udiv
  rw [← hdiv]
  exact BitVec.toNat_inj.symm

/-- `while(1)`, with `buf` and `dindex` at its end. -/
def itoaLoop (num : BitVec 32) (buf : Nat → BitVec 8) (dindex : Int) :
    Except Int ((Nat → BitVec 8) × Int) := do
  let digit := num % 10
  let buf ← bufWrite buf dindex (0x30 + digit.setWidth 8)
  let dindex := dindex + 1
  if num / 10 = 0 then return (buf, dindex) else itoaLoop (num / 10) buf dindex
termination_by num.toNat
decreasing_by
  rename_i hmore
  have hdiv : (num / 10).toNat = num.toNat / 10 := BitVec.toNat_udiv
  rw [div_ten_eq_zero] at hmore
  omega

/-- `while(left < right)` -/
def reverseLoop (buf : Nat → BitVec 8) (left right : Int) : Except Int (Nat → BitVec 8) :=
  if left < right then do
    let temp ← bufRead buf left
    let c ← bufRead buf right
    let buf ← bufWrite buf left c
    let buf ← bufWrite buf right temp
    reverseLoop buf (left + 1) (right - 1)
  else .ok buf
termination_by (right - left).toNat
decreasing_by omega

/-- `itoa(num, buf)` -/
def itoaInto (num : BitVec 32) (buf : Nat → BitVec 8) : Except Int (Nat → BitVec 8) := do
  let (buf, dindex) ← itoaLoop num buf 0
  let buf ← bufWrite buf dindex 0
  reverseLoop buf 0 (dindex - 1)

section

variable {buf : Nat → BitVec 8} {num : BitVec 32} {i : Int} {n : Nat}

theorem bufRead_eq (hi : i = n) (hn : n ≤ 10) : bufRead buf i = .ok (buf n) := by
  have hrange : (0 : Int) ≤ n ∧ (n : Int) ≤ 10 := by omega
  rw [bufRead, hi, if_pos hrange, Int.toNat_natCast]

theorem bufWrite_eq (hi : i = n) (hn : n ≤ 10) (c : BitVec 8) :
    bufWrite buf i c = .ok (Function.update buf n c) := by
  have hrange : (0 : Int) ≤ n ∧ (n : Int) ≤ 10 := by omega
  rw [bufWrite, hi, if_pos hrange, Int.toNat_natCast]

/-! ## The digits -/

/-- The character that the loop computes is that of the last digit. -/
theorem digitChar_mod_ten (num : BitVec 32) :
    0x30 + (num % 10).setWidth 8 = digitChar (num.toNat % 10) := by
  have hmod : (num % 10).toNat = num.toNat % 10 := BitVec.toNat_umod
  apply BitVec.eq_of_toNat_eq
  rw [toNat_digitChar (Nat.mod_lt _ (by decide)), BitVec.toNat_add, BitVec.toNat_setWidth, hmod]
  show (0x30 + num.toNat % 10 % 256) % 256 = _
  omega

/-- The digits are stored from `dindex` on, the lowest first. -/
theorem itoaLoop_eq (hi : i = n) (hn : n + (lowDigits num.toNat).length ≤ 11) :
    itoaLoop num buf i = .ok (overwrite buf n ((lowDigits num.toNat).map digitChar),
      (n + (lowDigits num.toNat).length : Nat)) := by
  fun_induction itoaLoop num buf i generalizing n with
  | case1 num buf i digit =>
    next ih =>
    have hdigit : 0x30 + digit.setWidth 8 = digitChar (num.toNat % 10) := digitChar_mod_ten num
    have hdiv : (num / 10).toNat = num.toNat / 10 := BitVec.toNat_udiv
    have hpos := List.length_pos_iff.mpr (lowDigits_ne_nil num.toNat)
    rw [bufWrite_eq hi (by omega), ok_bind, hdigit, update_overwrite_singleton]
    by_cases hlast : num / 10 = 0
    · rw [if_pos hlast, lowDigits_of_div_eq_zero (div_ten_eq_zero.mp hlast), hi]
      rfl
    · -- the higher digits are stored behind this one
      rw [lowDigits_of_div_ne_zero fun hzero => hlast (div_ten_eq_zero.mpr hzero), ← hdiv,
        List.length_cons] at hn ⊢
      have hrest := ih (overwrite buf n [digitChar (num.toNat % 10)]) hlast
        (show i + 1 = (n + 1 : Nat) by omega) (by omega)
      have happend := overwrite_append buf n [digitChar (num.toNat % 10)]
        ((lowDigits (num / 10).toNat).map digitChar)
      have hlength : n + 1 + (lowDigits (num / 10).toNat).length =
        n + ((lowDigits (num / 10).toNat).length + 1) := by omega
      rw [List.length_singleton] at happend
      rw [if_neg hlast, hrest, happend, hlength]
      rfl

/-! ## Turning round -/

/-- The character at a place of a written text. -/
theorem overwrite_at {buf : Nat → BitVec 8} {xs : List (BitVec 8)} {c : BitVec 8}
    {ys : List (BitVec 8)} : overwrite buf 0 (xs ++ c :: ys) xs.length = c := by
  have hget := overwrite_add buf 0 (xs ++ c :: ys) xs.length
  rw [Nat.zero_add, List.getElem?_append_right (Nat.le_refl _), Nat.sub_self] at hget
  exact hget

theorem update_overwrite_at {buf : Nat → BitVec 8} {xs : List (BitVec 8)} {b c : BitVec 8}
    {ys : List (BitVec 8)} : Function.update (overwrite buf 0 (xs ++ b :: ys)) xs.length c =
      overwrite buf 0 (xs ++ c :: ys) := by
  have hupdate := update_overwrite buf 0 xs ys b c
  rwa [Nat.zero_add] at hupdate

/-- What lies between the two ends is turned round, and the rest stays. -/
theorem reverseLoop_eq {buf : Nat → BitVec 8} {left right : Int} (ys : List (BitVec 8))
    {xs zs : List (BitVec 8)} (hleft : left = xs.length)
    (hright : right = xs.length + ys.length - 1) (hlen : xs.length + ys.length ≤ 11) :
    reverseLoop (overwrite buf 0 (xs ++ ys ++ zs)) left right =
      .ok (overwrite buf 0 (xs ++ ys.reverse ++ zs)) := by
  induction ys using List.bidirectionalRec generalizing xs zs left right with
  | nil =>
    rw [reverseLoop, if_neg (by rw [List.length_nil] at hright; omega)]
    rfl
  | singleton a =>
    rw [reverseLoop, if_neg (by rw [List.length_singleton] at hright; omega)]
    rfl
  | cons_append a ys b ih =>
    have hlength : (a :: (ys ++ [b])).length = ys.length + 2 := by simp
    have hmiddle : (xs ++ a :: ys).length = xs.length + ys.length + 1 := by
      rw [List.length_append, List.length_cons, Nat.add_assoc]
    rw [hlength] at hright hlen
    have hright' : right = ((xs ++ a :: ys).length : Nat) := by omega
    have hlist : xs ++ a :: (ys ++ [b]) ++ zs = xs ++ a :: (ys ++ b :: zs) := by simp
    have hreadLeft : overwrite buf 0 (xs ++ a :: (ys ++ b :: zs)) xs.length = a := overwrite_at
    have hreadRight : overwrite buf 0 (xs ++ a :: (ys ++ b :: zs)) (xs ++ a :: ys).length = b := by
      rw [← List.cons_append, ← List.append_assoc]
      exact overwrite_at
    have hwriteLeft : Function.update (overwrite buf 0 (xs ++ a :: (ys ++ b :: zs))) xs.length b =
      overwrite buf 0 (xs ++ b :: (ys ++ b :: zs)) := update_overwrite_at
    have hwriteRight : Function.update (overwrite buf 0 (xs ++ b :: (ys ++ b :: zs)))
        (xs ++ a :: ys).length a = overwrite buf 0 (xs ++ [b] ++ ys ++ a :: zs) := by
      have hsame : (xs ++ a :: ys).length = (xs ++ [b] ++ ys).length := by simp
      have hlist' : xs ++ b :: (ys ++ b :: zs) = xs ++ [b] ++ ys ++ b :: zs := by simp
      rw [hsame, hlist']
      exact update_overwrite_at
    -- the two ends are exchanged, and what is left lies between them
    have hrest := @ih (left + 1) (right - 1) (xs ++ [b]) (a :: zs)
      (by rw [List.length_append, List.length_singleton]; omega)
      (by rw [List.length_append, List.length_singleton]; omega)
      (by rw [List.length_append, List.length_singleton]; omega)
    rw [reverseLoop, if_pos (by omega), hlist, bufRead_eq hleft (by omega), ok_bind,
      bufRead_eq hright' (by omega), ok_bind, bufWrite_eq hleft (by omega), ok_bind,
      bufWrite_eq hright' (by omega), ok_bind, hreadLeft, hreadRight, hwriteLeft, hwriteRight,
      hrest]
    simp

/-! ## The numeral -/

/-- `itoa` writes the decimal text and a NUL, for every 32-bit number. -/
theorem itoaInto_eq (num : BitVec 32) (buf : Nat → BitVec 8) :
    itoaInto num buf = .ok (overwrite buf 0 (decimalText num.toNat ++ [0])) := by
  have hlen := length_lowDigits_le (n := num.toNat) (k := 10) (by decide) (by omega)
  have hpos := List.length_pos_iff.mpr (lowDigits_ne_nil num.toNat)
  have hloop := @itoaLoop_eq buf num 0 0 rfl (by omega)
  rw [Nat.zero_add] at hloop
  have hnul : Function.update (overwrite buf 0 ((lowDigits num.toNat).map digitChar))
      (lowDigits num.toNat).length 0 =
        overwrite buf 0 ((lowDigits num.toNat).map digitChar ++ [0]) := by
    have happend := overwrite_append buf 0 ((lowDigits num.toNat).map digitChar) [0]
    rw [List.length_map, Nat.zero_add] at happend
    rw [update_overwrite_singleton, happend]
  have hreverse := @reverseLoop_eq buf 0 ((lowDigits num.toNat).length - 1)
    ((lowDigits num.toNat).map digitChar) [] [0] rfl
    (by rw [List.length_map, List.length_nil]; omega)
    (by rw [List.length_map, List.length_nil]; omega)
  rw [List.nil_append, List.nil_append] at hreverse
  rw [itoaInto, hloop, ok_bind]
  dsimp only
  rw [bufWrite_eq rfl hlen, ok_bind, hnul, hreverse]
  rfl

end

/-- For every number and whatever the buffer held, it begins with the numeral and a NUL, within
its first 11 bytes; the rest is as it was. -/
theorem itoa_decimal (num : BitVec 32) (buf : Nat → BitVec 8) :
    itoaInto num buf = .ok (overwrite buf 0 (decimalText num.toNat ++ [0])) ∧
      (decimalText num.toNat).length ≤ 10 ∧ IsDecimal (decimalText num.toNat) num.toNat :=
  ⟨itoaInto_eq num buf, length_decimalText_le (by decide) (by omega),
    isDecimal_decimalText num.toNat⟩

/-! ## The listing -/

/-- The digits of the loop as characters, the lowest first. -/
theorem ascii_itoaDigits (n : Nat) : ascii (itoaDigits n) = (lowDigits n).map digitChar := by
  have hchar : ∀ d < 10, BitVec.ofNat 8 (Char.ofNat (48 + d)).toNat = digitChar d := by decide
  fun_induction itoaDigits n with
  | case1 n digit hlast =>
    rw [lowDigits_of_div_eq_zero hlast]
    exact congrArg (fun c => [c]) (hchar (n % 10) (Nat.mod_lt _ (by decide)))
  | case2 n digit hmore ih =>
    rw [lowDigits_of_div_ne_zero hmore, List.map_cons, ← ih,
      ← hchar (n % 10) (Nat.mod_lt _ (by decide))]
    rfl

/-- The text that `taskLine` has for a number is what `itoa` puts into the buffer. -/
theorem ascii_itoa (num : BitVec 32) : ascii (itoa num).toList = decimalText num.toNat := by
  rw [itoa, String.toList_ofList, decimalText, ← ascii_itoaDigits]
  exact List.map_reverse

end Pelikan

end SystemsProjects
