import LoxMachine.Number
import Mathlib.Algebra.Group.Nat.Defs

/-!
# Numerals

The digits of a number are read back as the number, and the hexadecimal digits of a small number
take the width they are given.
-/

namespace LoxMachine.Bytes

variable {base n m width : Nat} {digits more : Bytes}

/-- What stands in front of a number of digits counts for as many places. -/
theorem foldl_digits {α : Type} (value : α → Nat) (digits : List α) (start : Nat) :
    digits.foldl (fun n d => base * n + value d) start =
      start * base ^ digits.length + digits.foldl (fun n d => base * n + value d) 0 := by
  induction digits generalizing start with
  | nil => simp
  | cons d digits ih =>
      rw [List.foldl_cons, List.foldl_cons, ih, ih (base * 0 + value d), List.length_cons,
        Nat.pow_succ, Nat.mul_zero, Nat.zero_add, Nat.add_mul, Nat.add_assoc]
      congr 1
      ac_rfl

/-- Digits are read back, whatever reads each of them back. -/
theorem foldl_toDigits (hbase : 1 < base) {value : Char → Nat}
    (hvalue : ∀ d < base, value (Nat.digitChar d) = d) (n : Nat) :
    (Nat.toDigits base n).foldl (fun n d => base * n + value d) 0 = n := by
  induction n using Nat.strongRecOn with
  | ind n ih =>
    by_cases hsmall : n < base
    · rw [Nat.toDigits_of_lt_base hsmall, List.foldl_cons, List.foldl_nil, hvalue n hsmall,
        Nat.mul_zero, Nat.zero_add]
    · have hlarge := Nat.le_of_not_lt hsmall
      have hpos : 0 < base := Nat.zero_lt_of_lt hbase
      have hless : n / base < n := Nat.div_lt_self (Nat.lt_of_lt_of_le hpos hlarge) hbase
      rw [Nat.toDigits_of_base_le hbase hlarge, List.foldl_append, ih _ hless, List.foldl_cons,
        List.foldl_nil, hvalue _ (Nat.mod_lt _ hpos), Nat.div_add_mod]

/-! ## Decimal digits -/

theorem digitsValue_append (digits more : Bytes) :
    Number.digitsValue (digits ++ more) =
      Number.digitsValue digits * 10 ^ more.length + Number.digitsValue more := by
  rw [Number.digitsValue, List.foldl_append, foldl_digits]
  rfl

theorem digitsValue_zeros (k : Nat) : Number.digitsValue (List.replicate k 48) = 0 := by
  induction k with
  | zero => rfl
  | succ k ih => rwa [List.replicate_succ]

/-- Zeros in front of digits count for nothing. -/
theorem digitsValue_padded (k : Nat) (digits : Bytes) :
    Number.digitsValue (List.replicate k 48 ++ digits) = Number.digitsValue digits := by
  rw [digitsValue_append, digitsValue_zeros, Nat.zero_mul, Nat.zero_add]

theorem digitsValue_decimal (n : Nat) : Number.digitsValue (decimal n) = n := by
  rw [Number.digitsValue, decimal, List.foldl_map]
  exact foldl_toDigits (by decide) (by decide) n

theorem decimal_ne_nil (n : Nat) : decimal n ≠ [] :=
  fun h => Nat.toDigits_ne_nil (List.map_eq_nil_iff.mp h)

theorem mem_decimal {b : UInt8} (h : b ∈ decimal n) : 48 ≤ b.toNat ∧ b.toNat ≤ 57 := by
  obtain ⟨c, hc, rfl⟩ := List.mem_map.mp h
  have hdigit := Nat.isDigit_of_mem_toDigits (by decide) (by decide) hc
  simp only [Char.isDigit, Bool.and_eq_true, decide_eq_true_eq, ge_iff_le,
    UInt32.le_iff_toNat_le] at hdigit
  have hlow : 48 ≤ c.toNat := hdigit.1
  have hhigh : c.toNat ≤ 57 := hdigit.2
  rw [Nat.toUInt8_eq, UInt8.toNat_ofNat', Nat.mod_eq_of_lt (by omega)]
  exact ⟨hlow, hhigh⟩

/-! ## Hexadecimal digits -/

/-- The value of a hexadecimal digit, where letters are in lower case. -/
def hexValue (digit : UInt8) : Nat :=
  if digit.toNat < 58 then digit.toNat - 48 else digit.toNat - 87

/-- The number that hexadecimal digits stand for. -/
def hexNumber (digits : Bytes) : Nat :=
  digits.foldl (fun n d => 16 * n + hexValue d) 0

theorem hexNumber_hex (width n : Nat) : hexNumber (hex width n) = n := by
  have hzeros : ∀ k, hexNumber (List.replicate k 48) = 0 := by
    intro k
    induction k with
    | zero => rfl
    | succ k ih => rwa [List.replicate_succ]
  unfold hexNumber at hzeros ⊢
  rw [hex, List.foldl_append, hzeros, List.foldl_map]
  exact foldl_toDigits (by decide) (by decide) n

theorem length_hex (hwidth : 0 < width) (h : n < 16 ^ width) : (hex width n).length = width := by
  have hdigits := (Nat.length_toDigits_le_iff (by decide) hwidth).mpr h
  rw [hex, List.length_append, List.length_replicate, List.length_map]
  omega

end LoxMachine.Bytes
