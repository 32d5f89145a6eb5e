import LoxMachine.Proofs.Number.Exact
import Mathlib.Algebra.Order.Field.Power
import Mathlib.Data.Rat.Cast.Order
import Mathlib.Tactic.FieldSimp
import Mathlib.Tactic.Linarith
import Mathlib.Tactic.Positivity
import Mathlib.Tactic.Ring

/-!
# Shortest decimals

The reals that round to a double lie between the middles to its neighbours.  A grid of powers of
ten that is finer than that interval is wide has a point in it, seventeen digits are always fine
enough, and so the shortest decimal of a double lies in its interval.  The intervals of two doubles
have nothing in common.
-/

namespace LoxMachine.Number

variable {range : Interval} {scale : Int} {mantissa mantissa' : Nat} {exponent exponent' : Int}
  {q q' : ℚ} {d : Decimal}

/-- The number a decimal stands for. -/
def Decimal.value (d : Decimal) : ℚ :=
  d.digits * 10 ^ d.scale

/-- The number lies in the interval. -/
def Interval.Has (range : Interval) (q : ℚ) : Prop :=
  if range.closed then (range.low : ℚ) ≤ q * range.den ∧ q * range.den ≤ range.high
  else (range.low : ℚ) < q * range.den ∧ q * range.den < range.high

/-- A power with an integer exponent, without a fraction. -/
theorem zpow_mul_toNat {b : ℚ} (hb : b ≠ 0) (z : Int) : b ^ z * b ^ (-z).toNat = b ^ z.toNat := by
  rw [← zpow_natCast, ← zpow_natCast, ← zpow_add₀ hb]
  congr 1
  omega

/-! ## Grids -/

theorem roundDiv_cases (num den : Nat) :
    roundDiv num den = num / den ∨ roundDiv num den = num / den + 1 := by
  unfold roundDiv
  dsimp only
  split
  · exact .inl rfl
  split
  · exact .inr rfl
  split
  · exact .inl rfl
  · exact .inr rfl

/-- A point of a grid in whole numbers. -/
theorem grid_point (range : Interval) (scale : Int) (n : Nat) :
    ((n * (range.den * 10 ^ scale.toNat) : Nat) : ℚ) =
      Decimal.value ⟨n, scale⟩ * range.den * 10 ^ (-scale).toNat := by
  rw [Decimal.value]
  push_cast
  rw [← zpow_mul_toNat (by norm_num) scale]
  ring

/-- A point of a grid lies in an interval if it does so in whole numbers. -/
theorem has_grid_iff (range : Interval) (scale : Int) (n : Nat) :
    (if range.closed then
        range.low * Nat.pow 10 (-scale).toNat ≤ n * (range.den * Nat.pow 10 scale.toNat) ∧
          n * (range.den * Nat.pow 10 scale.toNat) ≤ range.high * Nat.pow 10 (-scale).toNat
      else
        range.low * Nat.pow 10 (-scale).toNat < n * (range.den * Nat.pow 10 scale.toNat) ∧
          n * (range.den * Nat.pow 10 scale.toNat) < range.high * Nat.pow 10 (-scale).toNat) ↔
      range.Has (Decimal.value ⟨n, scale⟩) := by
  have hpos : (0 : ℚ) < 10 ^ (-scale).toNat := by positivity
  have hside : ∀ k : Nat, ((k * 10 ^ (-scale).toNat : Nat) : ℚ) = k * 10 ^ (-scale).toNat :=
    fun k => by push_cast; rfl
  unfold Interval.Has
  simp only [Nat.pow_eq]
  split
  · rw [← Nat.cast_le (α := ℚ), ← Nat.cast_le (α := ℚ), grid_point, hside, hside,
      mul_le_mul_iff_left₀ hpos, mul_le_mul_iff_left₀ hpos]
  · rw [← Nat.cast_lt (α := ℚ), ← Nat.cast_lt (α := ℚ), grid_point, hside, hside,
      mul_lt_mul_iff_left₀ hpos, mul_lt_mul_iff_left₀ hpos]

/-- The point of a grid at the value of an interval or just below. -/
def Interval.floor (range : Interval) (scale : Int) : Nat :=
  range.value * Nat.pow 10 (-scale).toNat / (range.den * Nat.pow 10 scale.toNat)

/-- What is looked for on a grid: one of the two points about the value, if one lies in the
interval. -/
theorem onGrid?_cases (range : Interval) (scale : Int) :
    (∃ n, onGrid? range scale = some ⟨n, scale⟩ ∧ range.Has (Decimal.value ⟨n, scale⟩)) ∨
      (onGrid? range scale = none ∧ ¬ range.Has (Decimal.value ⟨range.floor scale, scale⟩) ∧
        ¬ range.Has (Decimal.value ⟨range.floor scale + 1, scale⟩)) := by
  have hround := roundDiv_cases (range.value * Nat.pow 10 (-scale).toNat)
    (range.den * Nat.pow 10 scale.toNat)
  unfold onGrid? Interval.floor
  dsimp only
  generalize range.value * Nat.pow 10 (-scale).toNat / (range.den * Nat.pow 10 scale.toNat) = n
    at hround ⊢
  by_cases hfloor : range.Has (Decimal.value ⟨n, scale⟩) <;>
    by_cases hnext : range.Has (Decimal.value ⟨n + 1, scale⟩)
  · rw [if_pos ((has_grid_iff _ _ _).mpr hfloor), if_pos ((has_grid_iff _ _ _).mpr hnext)]
    refine .inl ⟨_, rfl, ?_⟩
    rcases hround with heq | heq <;> rw [heq]
    · exact hfloor
    · exact hnext
  · rw [if_pos ((has_grid_iff _ _ _).mpr hfloor), if_neg (mt (has_grid_iff _ _ _).mp hnext)]
    exact .inl ⟨_, rfl, hfloor⟩
  · rw [if_neg (mt (has_grid_iff _ _ _).mp hfloor), if_pos ((has_grid_iff _ _ _).mpr hnext)]
    exact .inl ⟨_, rfl, hnext⟩
  · rw [if_neg (mt (has_grid_iff _ _ _).mp hfloor), if_neg (mt (has_grid_iff _ _ _).mp hnext)]
    exact .inr ⟨rfl, hfloor, hnext⟩

/-- An interval around its value, which is wider than a grid is coarse. -/
structure Interval.Spans (range : Interval) (scale : Int) : Prop where
  den_pos : 0 < range.den
  low_lt : range.low < range.value
  lt_high : range.value < range.high
  wide : (10 : ℚ) ^ scale * range.den < range.high - range.low

theorem Interval.has_of_lt (hlow : (range.low : ℚ) < q * range.den)
    (hhigh : q * range.den < range.high) : range.Has q := by
  unfold Interval.Has
  split
  · exact ⟨hlow.le, hhigh.le⟩
  · exact ⟨hlow, hhigh⟩

/-- The value lies between two neighbours of the grid. -/
theorem Interval.floor_bounds (hden : 0 < range.den) (scale : Int) :
    Decimal.value ⟨range.floor scale, scale⟩ * range.den ≤ range.value ∧
      (range.value : ℚ) < Decimal.value ⟨range.floor scale + 1, scale⟩ * range.den := by
  have hpos : (0 : ℚ) < 10 ^ (-scale).toNat := by positivity
  have hgrid : 0 < range.den * 10 ^ scale.toNat := by positivity
  have hvalue : ((range.value * 10 ^ (-scale).toNat : Nat) : ℚ) =
      range.value * 10 ^ (-scale).toNat := by push_cast; rfl
  constructor
  · rw [← mul_le_mul_iff_left₀ hpos, ← grid_point, ← hvalue, Nat.cast_le]
    exact Nat.div_mul_le_self _ _
  · rw [← mul_lt_mul_iff_left₀ hpos, ← grid_point, ← hvalue, Nat.cast_lt]
    exact Nat.lt_mul_of_div_lt (Nat.lt_succ_self _) hgrid

/-- A grid that is fine enough has a point in the interval. -/
theorem Interval.Spans.onGrid? (h : range.Spans scale) :
    ∃ n, Number.onGrid? range scale = some ⟨n, scale⟩ ∧ range.Has (Decimal.value ⟨n, scale⟩) := by
  rcases onGrid?_cases range scale with hfound | ⟨-, hfloor, hnext⟩
  · exact hfound
  exfalso
  obtain ⟨hbelow, habove⟩ := floor_bounds h.den_pos scale
  have hlow : (range.low : ℚ) < range.value := by exact_mod_cast h.low_lt
  have hhigh : (range.value : ℚ) < range.high := by exact_mod_cast h.lt_high
  have hunder : Decimal.value ⟨range.floor scale, scale⟩ * range.den ≤ range.low :=
    le_of_not_gt fun hin => hfloor (has_of_lt hin (lt_of_le_of_lt hbelow hhigh))
  have hover : (range.high : ℚ) ≤ Decimal.value ⟨range.floor scale + 1, scale⟩ * range.den :=
    le_of_not_gt fun hin => hnext (has_of_lt (lt_trans hlow habove) hin)
  have hstep : Decimal.value ⟨range.floor scale + 1, scale⟩ * range.den =
      Decimal.value ⟨range.floor scale, scale⟩ * range.den + 10 ^ scale * range.den := by
    simp only [Decimal.value]
    push_cast
    ring
  have hwide := h.wide
  linarith

/-- The first grid with a point in the interval is found, if one of those tried is fine enough. -/
theorem has_firstGrid {tries : Nat} (h : ∃ k < tries, range.Spans (scale - k)) :
    range.Has (firstGrid range tries scale).value := by
  induction tries generalizing scale with
  | zero =>
      obtain ⟨k, hk, -⟩ := h
      exact absurd hk (Nat.not_lt_zero k)
  | succ tries ih =>
      rw [firstGrid]
      rcases onGrid?_cases range scale with ⟨n, heq, hhas⟩ | ⟨heq, hfloor, hnext⟩
      · rw [heq]
        exact hhas
      · rw [heq]
        obtain ⟨k, hk, hspans⟩ := h
        cases k with
        | zero =>
            rw [Nat.cast_zero, sub_zero] at hspans
            obtain ⟨n, hsome, -⟩ := hspans.onGrid?
            rw [heq] at hsome
            cases hsome
        | succ k =>
            refine ih ⟨k, Nat.lt_of_succ_lt_succ hk, ?_⟩
            rw [sub_sub, add_comm 1 (k : Int)]
            exact hspans

/-! ## The leading digit -/

/-- The digits of a number, of which none is superfluous. -/
theorem pow_digitCount {n : Nat} (hn : 0 < n) : 10 ^ (digitCount n - 1) ≤ n := by
  rw [digitCount, if_neg (Nat.ne_of_gt hn)]
  rcases Nat.eq_zero_or_pos ((Nat.toDigits 10 n).length - 1) with hone | hmore
  · rw [hone]
    exact hn
  · have hlength := @Nat.length_toDigits_pos 10 n
    have hless := mt (Nat.length_toDigits_le_iff (b := 10) (n := n) (by decide) hmore).mpr
      (by omega)
    exact Nat.le_of_not_lt hless

theorem lt_pow_digitCount (n : Nat) : n < 10 ^ digitCount n := by
  unfold digitCount
  split
  next hzero =>
    rw [hzero]
    exact Nat.one_pos
  next => exact (Nat.length_toDigits_le_iff (by decide) Nat.length_toDigits_pos).mp (Nat.le_refl _)

/-- The power of ten of the leading digit is no larger than the number. -/
theorem zpow_leadingPower_le {num den : Nat} (hnum : 0 < num) (hden : 0 < den) :
    (10 : ℚ) ^ leadingPower num den * den ≤ num := by
  unfold leadingPower
  split
  next hle =>
    have hquot : 0 < num / den := Nat.div_pos hle hden
    have hcount : 1 ≤ digitCount (num / den) := by
      by_contra hnone
      have hlt := lt_pow_digitCount (num / den)
      rw [show digitCount (num / den) = 0 by omega] at hlt
      omega
    have hexponent : Int.ofNat (digitCount (num / den)) - 1 =
        ((digitCount (num / den) - 1 : Nat) : Int) := by
      rw [Int.ofNat_eq_natCast]
      omega
    rw [hexponent, zpow_natCast]
    have hnat : 10 ^ (digitCount (num / den) - 1) * den ≤ num :=
      (Nat.mul_le_mul_right _ (pow_digitCount hquot)).trans (Nat.div_mul_le_self _ _)
    exact_mod_cast hnat
  next hlt =>
    rw [Int.ofNat_eq_natCast, zpow_neg, zpow_natCast, inv_mul_le_iff₀ (by positivity)]
    have hcount := lt_pow_digitCount ((den + num - 1) / num - 1)
    have hceil : den ≤ (den + num - 1) / num * num := by
      have hlt := Nat.lt_div_mul_add hnum (a := den + num - 1)
      omega
    have hnat : den ≤ 10 ^ digitCount ((den + num - 1) / num - 1) * num :=
      hceil.trans (Nat.mul_le_mul_right _ (by omega))
    exact_mod_cast hnat

/-! ## The interval of a double -/

/-- An interval in multiples of a power of two: a quarter of the distance of the doubles. -/
theorem has_interval {closed : Bool} {low high value : Nat} (exponent : Int) :
    Interval.Has ⟨low * Nat.pow 2 exponent.toNat, value, high * Nat.pow 2 exponent.toNat,
        4 * Nat.pow 2 (-exponent).toNat, closed⟩ q ↔
      if closed then (low : ℚ) * 2 ^ exponent ≤ 4 * q ∧ 4 * q ≤ high * 2 ^ exponent
      else (low : ℚ) * 2 ^ exponent < 4 * q ∧ 4 * q < high * 2 ^ exponent := by
  have hpos : (0 : ℚ) < 2 ^ (-exponent).toNat := by positivity
  have hside : ∀ k : Nat, ((k * 2 ^ exponent.toNat : Nat) : ℚ) =
      k * 2 ^ exponent * 2 ^ (-exponent).toNat := by
    intro k
    push_cast
    rw [← zpow_mul_toNat (by norm_num) exponent]
    ring
  have hmiddle : q * ((4 * 2 ^ (-exponent).toNat : Nat) : ℚ) = 4 * q * 2 ^ (-exponent).toNat := by
    push_cast
    ring
  unfold Interval.Has
  simp only [Nat.pow_eq, hside, hmiddle, mul_le_mul_iff_left₀ hpos, mul_lt_mul_iff_left₀ hpos]

/-- How far below a double its interval goes, in the same measure. -/
def below (mantissa : Nat) (exponent : Int) : Nat :=
  if mantissa = 2 ^ 52 ∧ -1074 < exponent then 1 else 2

theorem below_le (mantissa : Nat) (exponent : Int) :
    1 ≤ below mantissa exponent ∧ below mantissa exponent ≤ 2 := by
  unfold below
  split <;> omega

/-- Below a power of two the doubles lie twice as close. -/
theorem below_half (h : -1074 < exponent) : below (2 ^ 52) exponent = 1 :=
  if_pos ⟨rfl, h⟩

theorem below_eq_two (h : mantissa ≠ 2 ^ 52) : below mantissa exponent = 2 :=
  if_neg fun hhalf => h hhalf.1

theorem has_interval_iff :
    (interval mantissa exponent).Has q ↔
      if mantissa % 2 = 0 then
        ((4 * mantissa - below mantissa exponent : Nat) : ℚ) * 2 ^ exponent ≤ 4 * q ∧
          4 * q ≤ ((4 * mantissa + 2 : Nat) : ℚ) * 2 ^ exponent
      else
        ((4 * mantissa - below mantissa exponent : Nat) : ℚ) * 2 ^ exponent < 4 * q ∧
          4 * q < ((4 * mantissa + 2 : Nat) : ℚ) * 2 ^ exponent := by
  rw [interval, has_interval]
  simp only [decide_eq_true_eq]
  rfl

/-- Seventeen digits are enough for the interval of a double. -/
theorem Canonical.spans (h : Canonical mantissa exponent) (hpos : 0 < mantissa) :
    (interval mantissa exponent).Spans
      (leadingPower (interval mantissa exponent).value (interval mantissa exponent).den - 16) := by
  have hscale : 0 < 2 ^ exponent.toNat := by positivity
  have hden : 0 < (interval mantissa exponent).den := by
    simp only [interval, Nat.pow_eq]
    positivity
  have hvalue : 0 < (interval mantissa exponent).value := by
    simp only [interval, Nat.pow_eq]
    positivity
  have hlead := zpow_leadingPower_le hvalue hden
  have hbounded := h.bounded
  have hbelow := below_le mantissa exponent
  have hhalf : mantissa ≠ 2 ^ 52 → below mantissa exponent = 2 := below_eq_two
  have hlow : (interval mantissa exponent).low =
      (4 * mantissa - below mantissa exponent) * 2 ^ exponent.toNat := rfl
  have hhigh : (interval mantissa exponent).high = (4 * mantissa + 2) * 2 ^ exponent.toNat := rfl
  have hmiddle : (interval mantissa exponent).value = 4 * mantissa * 2 ^ exponent.toNat := rfl
  refine ⟨hden, ?_, ?_, ?_⟩
  · rw [hlow, hmiddle]
    exact Nat.mul_lt_mul_of_pos_right (by omega) hscale
  · rw [hhigh, hmiddle]
    exact Nat.mul_lt_mul_of_pos_right (by omega) hscale
  · have hwide : (interval mantissa exponent).value + 10 ^ 16 * (interval mantissa exponent).low <
        10 ^ 16 * (interval mantissa exponent).high := by
      rw [hlow, hhigh, hmiddle, ← Nat.mul_assoc, ← Nat.mul_assoc, ← Nat.add_mul]
      exact Nat.mul_lt_mul_of_pos_right (by omega) hscale
    have hcast : ((interval mantissa exponent).value : ℚ) +
        10 ^ 16 * (interval mantissa exponent).low <
          10 ^ 16 * (interval mantissa exponent).high := by
      exact_mod_cast hwide
    rw [zpow_sub₀ (by norm_num), div_mul_eq_mul_div, div_lt_iff₀ (by positivity)]
    have hpow : (10 : ℚ) ^ (16 : ℤ) = 10 ^ 16 := by norm_num
    rw [hpow]
    linarith

/-- The shortest decimal of a double lies in its interval. -/
theorem Canonical.has_shortest (h : Canonical mantissa exponent) (hpos : 0 < mantissa) :
    (interval mantissa exponent).Has (shortest mantissa exponent).value :=
  has_firstGrid ⟨16, by decide, h.spans hpos⟩

/-- The interval of a positive double has positive numbers only. -/
theorem pos_of_has_interval (hpos : 0 < mantissa) (hq : (interval mantissa exponent).Has q) :
    0 < q := by
  have hbelow := below_le mantissa exponent
  have hlow : (0 : ℚ) < ((4 * mantissa - below mantissa exponent : Nat) : ℚ) * 2 ^ exponent := by
    refine mul_pos ?_ (by positivity)
    exact_mod_cast (by omega : 0 < 4 * mantissa - below mantissa exponent)
  rw [has_interval_iff] at hq
  split at hq <;> linarith

/-- Of two doubles, the interval of the one ends where the interval of the other starts or before,
and where they meet only one of the two has its end. -/
theorem Canonical.end_le (h : Canonical mantissa exponent) (h' : Canonical mantissa' exponent')
    (hless : exponent < exponent' ∨ (exponent = exponent' ∧ mantissa < mantissa')) :
    ((4 * mantissa + 2 : Nat) : ℚ) * 2 ^ exponent ≤
        ((4 * mantissa' - below mantissa' exponent' : Nat) : ℚ) * 2 ^ exponent' ∧
      (mantissa % 2 = 0 → mantissa' % 2 = 0 → ((4 * mantissa + 2 : Nat) : ℚ) * 2 ^ exponent <
        ((4 * mantissa' - below mantissa' exponent' : Nat) : ℚ) * 2 ^ exponent') := by
  have hunit : (0 : ℚ) < 2 ^ exponent := by positivity
  have hbounded := h.bounded
  have hbelow := below_le mantissa' exponent'
  rcases hless with hless | ⟨rfl, hless⟩
  · have hleast := h.least
    have hfull := h'.full.resolve_left (by omega)
    have hdouble : (2 : ℚ) ^ exponent * 2 ≤ 2 ^ exponent' := by
      rw [← zpow_add_one₀ (by norm_num)]
      exact zpow_le_zpow_right₀ one_le_two (by omega)
    have hhalf : mantissa' = 2 ^ 52 → below mantissa' exponent' = 1 := by
      rintro rfl
      exact below_half (by omega)
    have hstep : ((4 * mantissa + 2 : Nat) : ℚ) ≤
        2 * ((4 * mantissa' - below mantissa' exponent' : Nat) : ℚ) := by
      exact_mod_cast (by omega : 4 * mantissa + 2 ≤ 2 * (4 * mantissa' - below mantissa' exponent'))
    constructor
    · nlinarith
    · intro heven _
      have hstrict : ((4 * mantissa + 2 : Nat) : ℚ) <
          2 * ((4 * mantissa' - below mantissa' exponent' : Nat) : ℚ) := by
        exact_mod_cast
          (by omega : 4 * mantissa + 2 < 2 * (4 * mantissa' - below mantissa' exponent'))
      nlinarith
  · constructor
    · refine mul_le_mul_of_nonneg_right ?_ hunit.le
      exact_mod_cast (by omega : 4 * mantissa + 2 ≤ 4 * mantissa' - below mantissa' exponent)
    · intro heven heven'
      refine mul_lt_mul_of_pos_right ?_ hunit
      exact_mod_cast (by omega : 4 * mantissa + 2 < 4 * mantissa' - below mantissa' exponent)

/-- The intervals of two doubles lie one behind the other. -/
theorem Canonical.lt_of_has (h : Canonical mantissa exponent) (h' : Canonical mantissa' exponent')
    (hless : exponent < exponent' ∨ (exponent = exponent' ∧ mantissa < mantissa'))
    (hq : (interval mantissa exponent).Has q) (hq' : (interval mantissa' exponent').Has q') :
    q < q' := by
  obtain ⟨hends, hmeet⟩ := h.end_le h' hless
  rw [has_interval_iff] at hq hq'
  split at hq <;> split at hq'
  next heven heven' => linarith [hmeet heven heven']
  all_goals linarith

/-- No number lies in the intervals of two doubles. -/
theorem Canonical.unique (h : Canonical mantissa exponent) (h' : Canonical mantissa' exponent')
    (hq : (interval mantissa exponent).Has q) (hq' : (interval mantissa' exponent').Has q) :
    mantissa = mantissa' ∧ exponent = exponent' := by
  rcases lt_trichotomy exponent exponent' with hless | rfl | hless
  · exact absurd (h.lt_of_has h' (.inl hless) hq hq') (lt_irrefl q)
  · rcases lt_trichotomy mantissa mantissa' with hless | rfl | hless
    · exact absurd (h.lt_of_has h' (.inr ⟨rfl, hless⟩) hq hq') (lt_irrefl q)
    · exact ⟨rfl, rfl⟩
    · exact absurd (h'.lt_of_has h (.inr ⟨rfl, hless⟩) hq' hq) (lt_irrefl q)
  · exact absurd (h'.lt_of_has h (.inl hless) hq' hq) (lt_irrefl q)

end LoxMachine.Number
