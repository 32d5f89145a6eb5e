import LoxMachine.Number
import Mathlib.Algebra.Group.Nat.Defs

/-!
# The exact value of a double

A double is determined by what it denotes, and a finite one is written with a mantissa of at most
53 bits: with all of them, unless its exponent is the least one.
-/

namespace LoxMachine.Number

open Float.Model Float.Model.UnpackedFloat

variable {x y : Float} {negative : Bool} {mantissa : Nat} {exponent : Int}

/-- The mantissa and the exponent that a double is kept with. -/
structure Canonical (mantissa : Nat) (exponent : Int) : Prop where
  bounded : mantissa < 2 ^ 53
  least : -1074 ≤ exponent
  full : exponent = -1074 ∨ 2 ^ 52 ≤ mantissa

/-- A double is its bits. -/
theorem eq_of_toBits (h : x.toBits.toNat = y.toBits.toNat) : x = y := by
  obtain ⟨⟨bits, hvalid⟩⟩ := x
  obtain ⟨⟨bits', hvalid'⟩⟩ := y
  have hbits : bits = bits' := UInt64.toNat_inj.mp h
  cases hbits
  rfl

/-- There is one double that is no number. -/
theorem toBits_of_undefined (hexponent : x.toBits.toNat / 2 ^ 52 % 2048 = 2047)
    (hfraction : x.toBits.toNat % 2 ^ 52 ≠ 0) :
    x.toBits.toBitVec = packedNaN Format.binary64 := by
  apply x.toModel.valid.eq_packedNaN
  · apply BitVec.eq_of_toNat_eq
    change x.toBits.toNat >>> 52 % 2 ^ 11 = 2047
    rw [Nat.shiftRight_eq_div_pow]
    exact hexponent
  · intro hzero
    have hnat := congrArg BitVec.toNat hzero
    change x.toBits.toNat >>> 0 % 2 ^ 52 = 0 at hnat
    exact hfraction hnat

/-- The sign, the exponent field and the fraction of the bits that denote a value. -/
def Exact.Fits (bits : Nat) : Exact → Prop
  | .finite negative mantissa exponent =>
      (bits / 2 ^ 63 % 2 = 1 ↔ negative = true) ∧ bits / 2 ^ 52 % 2048 < 2047 ∧
        ((bits / 2 ^ 52 % 2048 = 0 ∧ mantissa = bits % 2 ^ 52 ∧ exponent = -1074) ∨
          (0 < bits / 2 ^ 52 % 2048 ∧ mantissa = 2 ^ 52 + bits % 2 ^ 52 ∧
            exponent = (bits / 2 ^ 52 % 2048 : Nat) - 1075))
  | .infinite negative =>
      (bits / 2 ^ 63 % 2 = 1 ↔ negative = true) ∧ bits / 2 ^ 52 % 2048 = 2047 ∧ bits % 2 ^ 52 = 0
  | .undefined => bits / 2 ^ 52 % 2048 = 2047 ∧ bits % 2 ^ 52 ≠ 0

theorem fits_exact (x : Float) : (exact x).Fits x.toBits.toNat := by
  unfold exact
  simp only [Nat.pow_eq]
  split
  next hlast =>
    split
    next hzero => exact ⟨decide_eq_true_iff.symm, hlast, hzero⟩
    next hsome => exact ⟨hlast, hsome⟩
  split
  next hlast hfirst => exact ⟨decide_eq_true_iff.symm, by omega, .inl ⟨hfirst, rfl, rfl⟩⟩
  next hlast hfirst => exact ⟨decide_eq_true_iff.symm, by omega, .inr ⟨by omega, rfl, rfl⟩⟩

/-- What is finite is kept with a canonical mantissa and exponent. -/
theorem canonical_of_exact (h : exact x = .finite negative mantissa exponent) :
    Canonical mantissa exponent := by
  have hfits := fits_exact x
  rw [h] at hfits
  obtain ⟨-, hbiased, ⟨-, rfl, rfl⟩ | ⟨hpos, rfl, rfl⟩⟩ := hfits
  · exact ⟨by omega, by omega, .inl rfl⟩
  · exact ⟨by omega, by omega, .inr (by omega)⟩

/-- Doubles that denote the same are the same. -/
theorem exact_injective (h : exact x = exact y) : x = y := by
  have hx := x.toBits.toNat_lt
  have hy := y.toBits.toNat_lt
  have hfits := fits_exact x
  have hfits' := fits_exact y
  rw [← h] at hfits'
  cases hexact : exact x with
  | finite negative mantissa exponent =>
      rw [hexact] at hfits hfits'
      obtain ⟨hsign, hlt, hfields⟩ := hfits
      obtain ⟨hsign', hlt', hfields'⟩ := hfits'
      rw [← hsign'] at hsign
      exact eq_of_toBits (by omega)
  | infinite negative =>
      rw [hexact] at hfits hfits'
      obtain ⟨hsign, hlast, hzero⟩ := hfits
      obtain ⟨hsign', hlast', hzero'⟩ := hfits'
      rw [← hsign'] at hsign
      exact eq_of_toBits (by omega)
  | undefined =>
      rw [hexact] at hfits hfits'
      have hbits := (toBits_of_undefined hfits.1 hfits.2).trans
        (toBits_of_undefined hfits'.1 hfits'.2).symm
      exact eq_of_toBits (congrArg BitVec.toNat hbits)

end LoxMachine.Number
