import LoxMachine.Proofs.Bytes.Numerals
import LoxMachine.Proofs.Number.Shortest
import LoxMachine.Tree.Printer
import Mathlib.Data.List.TakeWhile

/-!
# The text of a number

The text of a decimal stands for the decimal, so the text of a double stands for a number in its
interval, and no two doubles have the same text.
-/

namespace LoxMachine.Number

open Bytes

variable {x y : Float} {mantissa mantissa' : Nat} {exponent exponent' : Int} {whole : Bytes}

/-- The number that digits with a point between them stand for. -/
def valueOf (text : Bytes) : ℚ :=
  let fraction := (text.dropWhile (· ≠ 46)).drop 1
  digitsValue (text.takeWhile (· ≠ 46) ++ fraction) / 10 ^ fraction.length

theorem valueOf_whole (h : 46 ∉ whole) : valueOf whole = digitsValue whole := by
  have hall : ∀ b ∈ whole, decide (b ≠ 46) = true :=
    fun b hb => decide_eq_true fun heq => h (heq ▸ hb)
  rw [valueOf, List.takeWhile_eq_self_iff.mpr hall, List.dropWhile_eq_nil_iff.mpr hall]
  simp

theorem valueOf_point (h : 46 ∉ whole) (fraction : Bytes) :
    valueOf (whole ++ 46 :: fraction) =
      digitsValue whole + digitsValue fraction / 10 ^ fraction.length := by
  have hall : ∀ b ∈ whole, decide (b ≠ 46) = true :=
    fun b hb => decide_eq_true fun heq => h (heq ▸ hb)
  rw [valueOf, List.takeWhile_append_of_pos hall, List.dropWhile_append_of_pos hall]
  simp only [ne_eq, not_true_eq_false, decide_false, List.takeWhile_cons, List.dropWhile_cons,
    Bool.false_eq_true, if_false, List.append_nil, List.drop_succ_cons, List.drop_zero]
  rw [digitsValue_append]
  push_cast
  field_simp

theorem point_notMem_decimal (n : Nat) : 46 ∉ decimal n :=
  fun h => absurd (mem_decimal h).1 (by decide)

/-- Digits behind the point, whose last zeros are left out, stand for the same fraction. -/
theorem digitsValue_fractionText {places fraction : Nat} (hplaces : 0 < places)
    (h : fraction < 10 ^ places) :
    digitsValue (fractionText places fraction) * 10 ^ places =
      fraction * 10 ^ (fractionText places fraction).length := by
  have hlength : (decimal fraction).length ≤ places := by
    rw [decimal, List.length_map]
    exact (Nat.length_toDigits_le_iff (by decide) hplaces).mpr h
  have hpadded : (List.replicate (places - (decimal fraction).length) 48 ++
      decimal fraction).length = places := by
    rw [List.length_append, List.length_replicate]
    omega
  have hvalue : digitsValue (List.replicate (places - (decimal fraction).length) 48 ++
      decimal fraction) = fraction := by
    rw [digitsValue_padded, digitsValue_decimal]
  unfold fractionText
  dsimp only
  generalize List.replicate (places - (decimal fraction).length) 48 ++ decimal fraction = padded
    at hpadded hvalue ⊢
  -- What is left out at the end are zeros.
  have hsplit : padded = (padded.reverse.dropWhile (· = 48)).reverse ++
      (padded.reverse.takeWhile (· = 48)).reverse := by
    rw [← List.reverse_append, List.takeWhile_append_dropWhile, List.reverse_reverse]
  have hzeros : (padded.reverse.takeWhile (· = 48)).reverse =
      List.replicate (padded.reverse.takeWhile (· = 48)).length 48 := by
    rw [List.eq_replicate_iff]
    refine ⟨List.length_reverse, fun b hb => ?_⟩
    have hzero := List.mem_takeWhile_imp (List.mem_reverse.mp hb)
    exact of_decide_eq_true hzero
  rw [hzeros] at hsplit
  generalize (padded.reverse.dropWhile (· = 48)).reverse = kept at hsplit ⊢
  generalize (padded.reverse.takeWhile (· = 48)).length = left at hsplit
  subst hsplit
  rw [digitsValue_append, digitsValue_zeros, List.length_replicate, Nat.add_zero] at hvalue
  rw [List.length_append, List.length_replicate] at hpadded
  rw [← hpadded, ← hvalue, Nat.pow_add]
  ring

/-- The text of a decimal stands for the decimal. -/
theorem valueOf_text (d : Decimal) : valueOf d.text = d.value := by
  have hvalue : d.value = ((d.digits * 10 ^ d.scale.toNat : Nat) : ℚ) / 10 ^ (-d.scale).toNat := by
    rw [Decimal.value, eq_div_iff (by positivity), mul_assoc, zpow_mul_toNat (by norm_num)]
    push_cast
    rfl
  rw [hvalue]
  unfold Decimal.text
  simp only [Nat.pow_eq]
  generalize d.digits * 10 ^ d.scale.toNat = number
  generalize (-d.scale).toNat = places
  by_cases hplaces : places = 0
  · subst hplaces
    rw [if_pos rfl, List.isEmpty_nil, if_pos rfl, List.append_nil, pow_zero, Nat.div_one,
      valueOf_whole (point_notMem_decimal number), digitsValue_decimal, pow_zero, div_one]
  · rw [if_neg hplaces]
    have hunit : 0 < 10 ^ places := by positivity
    have hfraction := digitsValue_fractionText (Nat.pos_of_ne_zero hplaces)
      (Nat.mod_lt number hunit)
    have hsplit : (number : ℚ) = (number / 10 ^ places : Nat) * 10 ^ places +
        (number % 10 ^ places : Nat) := by
      exact_mod_cast (Nat.div_add_mod' number (10 ^ places)).symm
    generalize fractionText places (number % 10 ^ places) = fraction at hfraction ⊢
    cases fraction with
    | nil =>
        have hrest : number % 10 ^ places = 0 := by simpa [digitsValue] using hfraction.symm
        rw [List.isEmpty_nil, if_pos rfl, List.append_nil,
          valueOf_whole (point_notMem_decimal _), digitsValue_decimal, hsplit, hrest]
        field_simp
        simp
    | cons digit digits =>
        have hcast : (digitsValue (digit :: digits) : ℚ) * 10 ^ places =
            (number % 10 ^ places : Nat) * 10 ^ (digit :: digits).length := by
          exact_mod_cast hfraction
        rw [List.isEmpty_cons, if_neg Bool.false_ne_true]
        change valueOf (decimal (number / 10 ^ places) ++ 46 :: digit :: digits) = _
        rw [valueOf_point (point_notMem_decimal _), digitsValue_decimal, hsplit]
        field_simp
        linarith

/-! ## The bytes of a text -/

theorem mem_fractionText {places fraction : Nat} {b : UInt8}
    (h : b ∈ fractionText places fraction) : 48 ≤ b.toNat ∧ b.toNat ≤ 57 := by
  unfold fractionText at h
  have hpadded := (List.dropWhile_sublist _).subset (List.mem_reverse.mp h)
  rcases List.mem_append.mp (List.mem_reverse.mp hpadded) with hzero | hdigit
  · rw [List.eq_of_mem_replicate hzero]
    decide
  · exact mem_decimal hdigit

/-- A decimal is written with digits and points, and begins with a digit. -/
theorem Decimal.text_digits (d : Decimal) :
    (∀ b ∈ d.text, b = 46 ∨ (48 ≤ b.toNat ∧ b.toNat ≤ 57)) ∧
      ∃ b more, d.text = b :: more ∧ 48 ≤ b.toNat ∧ b.toNat ≤ 57 := by
  unfold Decimal.text
  constructor
  · intro b hb
    rcases List.mem_append.mp hb with hwhole | hfraction
    · exact .inr (mem_decimal hwhole)
    · split at hfraction <;> split at hfraction
      next => exact absurd hfraction List.not_mem_nil
      next hnone => exact absurd rfl hnone
      next => exact absurd hfraction List.not_mem_nil
      next =>
        rcases List.mem_append.mp hfraction with hpoint | hdigit
        · exact .inl (List.mem_singleton.mp hpoint)
        · exact .inr (mem_fractionText hdigit)
  · obtain ⟨b, more, hwhole⟩ := List.exists_cons_of_ne_nil (decimal_ne_nil
      (d.digits * Nat.pow 10 d.scale.toNat / Nat.pow 10 (-d.scale).toNat))
    dsimp only
    rw [hwhole, List.cons_append]
    exact ⟨b, _, rfl, mem_decimal (hwhole ▸ List.mem_cons_self)⟩

/-! ## Numbers are read back -/

/-- The text of a finite number without its sign. -/
def magnitude (mantissa : Nat) (exponent : Int) : Bytes :=
  if mantissa = 0 then utf8 "0" else (shortest mantissa exponent).text

theorem magnitude_digits (mantissa : Nat) (exponent : Int) :
    (∀ b ∈ magnitude mantissa exponent, b = 46 ∨ (48 ≤ b.toNat ∧ b.toNat ≤ 57)) ∧
      ∃ b more, magnitude mantissa exponent = b :: more ∧ 48 ≤ b.toNat ∧ b.toNat ≤ 57 := by
  have hzero : utf8 "0" = [48] := rfl
  unfold magnitude
  split
  · rw [hzero]
    exact ⟨by simp, 48, [], rfl, by decide⟩
  · exact Decimal.text_digits _

/-- What a finite number's text stands for tells it from the others. -/
theorem magnitude_injective (h : Canonical mantissa exponent) (h' : Canonical mantissa' exponent')
    (heq : valueOf (magnitude mantissa exponent) = valueOf (magnitude mantissa' exponent')) :
    mantissa = mantissa' ∧ exponent = exponent' := by
  have hzero : valueOf (utf8 "0") = 0 := by
    change valueOf [48] = 0
    rw [valueOf_whole (by decide)]
    rfl
  unfold magnitude at heq
  split at heq <;> split at heq
  next hz hz' =>
    have hleast := h.full
    have hleast' := h'.full
    omega
  next hz hn =>
    have hpos := Nat.pos_of_ne_zero hn
    have hhas := pos_of_has_interval hpos (h'.has_shortest hpos)
    rw [valueOf_text, hzero] at heq
    exact absurd heq (ne_of_lt hhas)
  next hn hz =>
    have hpos := Nat.pos_of_ne_zero hn
    have hhas := pos_of_has_interval hpos (h.has_shortest hpos)
    rw [valueOf_text, hzero] at heq
    exact absurd heq (ne_of_gt hhas)
  next hn hn' =>
    rw [valueOf_text, valueOf_text] at heq
    have hhas := h'.has_shortest (Nat.pos_of_ne_zero hn')
    rw [← heq] at hhas
    exact h.unique h' (h.has_shortest (Nat.pos_of_ne_zero hn)) hhas

/-- What the text of a number says. -/
inductive Meaning where
  | finite (negative : Bool) (value : ℚ)
  | infinite (negative : Bool)
  | undefined

/-- The text of a number, read. -/
noncomputable def meaning : Bytes → Meaning
  | 43 :: _ => .infinite false
  | 45 :: 73 :: _ => .infinite true
  | 78 :: _ => .undefined
  | 45 :: digits => .finite true (valueOf digits)
  | digits => .finite false (valueOf digits)

theorem meaning_text (x : Float) : meaning (text Literal.spelling x) =
    match exact x with
    | .finite negative mantissa exponent => .finite negative (valueOf (magnitude mantissa exponent))
    | .infinite negative => .infinite negative
    | .undefined => .undefined := by
  unfold text
  cases exact x with
  | finite negative mantissa exponent =>
      change meaning ((if negative then [45] else []) ++ magnitude mantissa exponent) =
        .finite negative (valueOf (magnitude mantissa exponent))
      obtain ⟨b, more, htext, hlow, hhigh⟩ := (magnitude_digits mantissa exponent).2
      have hb : ∀ c : UInt8, (c.toNat < 48 ∨ 57 < c.toNat) → b ≠ c := by
        rintro c hc rfl
        omega
      rw [htext]
      cases negative with
      | true =>
          rw [if_pos rfl, List.singleton_append]
          unfold meaning
          split <;> simp_all
      | false =>
          rw [if_neg Bool.false_ne_true, List.nil_append]
          unfold meaning
          split <;> simp_all
  | infinite negative => cases negative <;> rfl
  | undefined => rfl

/-- No two numbers have the same text. -/
theorem text_injective (h : text Literal.spelling x = text Literal.spelling y) : x = y := by
  have hmeaning := congrArg meaning h
  rw [meaning_text, meaning_text] at hmeaning
  apply exact_injective
  cases hx : exact x <;> cases hy : exact y <;> rw [hx, hy] at hmeaning <;>
    simp only [Meaning.finite.injEq, Meaning.infinite.injEq, reduceCtorEq] at hmeaning
  next negative mantissa exponent negative' mantissa' exponent' =>
    obtain ⟨rfl, rfl⟩ := magnitude_injective (canonical_of_exact hx) (canonical_of_exact hy)
      hmeaning.2
    rw [hmeaning.1]
  next => rw [hmeaning]

/-- The text of a number begins with a digit, a sign or a capital letter. -/
theorem text_head (x : Float) :
    ∃ b more, text Literal.spelling x = b :: more ∧ b.toNat < 97 ∧ b ≠ 34 := by
  unfold text
  cases exact x with
  | finite negative mantissa exponent =>
      cases negative with
      | true => exact ⟨45, _, rfl, by decide⟩
      | false =>
          obtain ⟨b, more, htext, hlow, hhigh⟩ := (magnitude_digits mantissa exponent).2
          refine ⟨b, more, htext, by omega, ?_⟩
          rintro rfl
          exact absurd hlow (by decide)
  | infinite negative => cases negative <;> exact ⟨_, _, rfl, by decide⟩
  | undefined => exact ⟨_, _, rfl, by decide⟩

/-- The text of a number ends where its node does. -/
theorem closing_notMem_text (x : Float) : 41 ∉ text Literal.spelling x := by
  unfold text
  cases exact x with
  | finite negative mantissa exponent =>
      change 41 ∉ (if negative then [45] else []) ++ magnitude mantissa exponent
      intro hmem
      rcases List.mem_append.mp hmem with hsign | hdigit
      · cases negative
        · exact absurd hsign List.not_mem_nil
        · exact absurd hsign (by decide)
      · rcases (magnitude_digits mantissa exponent).1 41 hdigit with hpoint | hbounds
        · exact absurd hpoint (by decide)
        · exact absurd hbounds.1 (by decide)
  | infinite negative => cases negative <;> decide
  | undefined => decide

end LoxMachine.Number
