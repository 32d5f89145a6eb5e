import LoxMachine.Bytes

/-!
# Numbers and their decimal text

A number is a double.  Its text is the shortest decimal that reads back as the
same number, always written positionally; reading a decimal rounds the exact
value to the nearest double.  All rounding is done on exact integers, and a tie
goes to the even neighbour.
-/

namespace LoxMachine.Number

/-- The quotient rounded to the nearest integer, a tie to the even one. -/
def roundDiv (num den : Nat) : Nat :=
  let floor := num / den
  let rest := num % den
  if 2 * rest < den then floor
  else if den < 2 * rest then floor + 1
  else if floor % 2 = 0 then floor else floor + 1

/-! ## The exact value of a double -/

/-- What a double denotes: `mantissa * 2 ^ exponent` with a sign, an infinity, or
no number at all. -/
inductive Exact where
  | finite (negative : Bool) (mantissa : Nat) (exponent : Int)
  | infinite (negative : Bool)
  | undefined
  deriving DecidableEq

/-- The exact value of a double, read off its bits. -/
def exact (x : Float) : Exact :=
  let bits := x.toBits.toNat
  let negative := bits / Nat.pow 2 63 % 2 = 1
  let biased := bits / Nat.pow 2 52 % 2048
  let fraction := bits % Nat.pow 2 52
  if biased = 2047 then
    if fraction = 0 then .infinite negative else .undefined
  else if biased = 0 then .finite negative fraction (-1074)
  else .finite negative (Nat.pow 2 52 + fraction) (Int.ofNat biased - 1075)

/-! ## Shortest decimals -/

/-- A positive decimal `digits * 10 ^ scale`. -/
structure Decimal where
  digits : Nat
  scale : Int
  deriving DecidableEq

/-- The reals that round to one double, as numerators over one denominator: the
double itself and the two ends, which belong to the interval if `closed`. -/
structure Interval where
  low : Nat
  value : Nat
  high : Nat
  den : Nat
  closed : Bool

/-- The interval of the double `mantissa * 2 ^ exponent`.  Below a power of two
the doubles lie twice as close, except at the smallest exponent. -/
def interval (mantissa : Nat) (exponent : Int) : Interval :=
  let scale := Nat.pow 2 exponent.toNat
  let below := if mantissa = Nat.pow 2 52 ∧ -1074 < exponent then 1 else 2
  { low := (4 * mantissa - below) * scale
    value := 4 * mantissa * scale
    high := (4 * mantissa + 2) * scale
    den := 4 * Nat.pow 2 (-exponent).toNat
    closed := mantissa % 2 = 0 }

/-- The number of decimal digits, none for zero. -/
def digitCount (n : Nat) : Nat :=
  if n = 0 then 0 else (Nat.toDigits 10 n).length

/-- The power of ten of the leading digit of `num / den`. -/
def leadingPower (num den : Nat) : Int :=
  if den ≤ num then Int.ofNat (digitCount (num / den)) - 1
  else -(Int.ofNat (digitCount ((den + num - 1) / num - 1)))

/-- The decimal on the grid `10 ^ scale` that lies in the interval, the nearer one
if both neighbours of the value do. -/
def onGrid? (range : Interval) (scale : Int) : Option Decimal :=
  let den := range.den * Nat.pow 10 scale.toNat
  let factor := Nat.pow 10 (-scale).toNat
  let value := range.value * factor
  let inside := fun (n : Nat) =>
    if range.closed then range.low * factor ≤ n * den ∧ n * den ≤ range.high * factor
    else range.low * factor < n * den ∧ n * den < range.high * factor
  let floor := value / den
  if inside floor then
    if inside (floor + 1) then some ⟨roundDiv value den, scale⟩ else some ⟨floor, scale⟩
  else if inside (floor + 1) then some ⟨floor + 1, scale⟩
  else none

/-- Tries the grids of ever more digits, the coarsest first. -/
def firstGrid (range : Interval) : (tries : Nat) → (scale : Int) → Decimal
  | 0, scale => ⟨range.value / range.den, scale⟩
  | tries + 1, scale =>
      match onGrid? range scale with
      | some decimal => decimal
      | none => firstGrid range tries (scale - 1)

/-- The decimal of fewest digits that reads back as `mantissa * 2 ^ exponent`.
Seventeen digits always do. -/
def shortest (mantissa : Nat) (exponent : Int) : Decimal :=
  let range := interval mantissa exponent
  firstGrid range 17 (leadingPower range.value range.den)

/-- Digits after the point, without the zeros at their end. -/
def fractionText (places : Nat) (fraction : Nat) : Bytes :=
  let digits := Bytes.decimal fraction
  let padded := List.replicate (places - digits.length) 48 ++ digits
  (padded.reverse.dropWhile (· = 48)).reverse

/-- A decimal written out in full, without an exponent. -/
def Decimal.text (d : Decimal) : Bytes :=
  let whole := d.digits * Nat.pow 10 d.scale.toNat
  let places := (-d.scale).toNat
  let unit := Nat.pow 10 places
  let fraction := if places = 0 then [] else fractionText places (whole % unit)
  Bytes.decimal (whole / unit) ++ (if fraction.isEmpty then [] else utf8 "." ++ fraction)

/-- How the doubles that are no finite number are written. -/
structure Spelling where
  positiveInfinity : Bytes
  negativeInfinity : Bytes
  undefined : Bytes

/-- The text of a number. -/
def text (spelling : Spelling) (x : Float) : Bytes :=
  match exact x with
  | .infinite false => spelling.positiveInfinity
  | .infinite true => spelling.negativeInfinity
  | .undefined => spelling.undefined
  | .finite negative mantissa exponent =>
      (if negative then utf8 "-" else [])
        ++ if mantissa = 0 then utf8 "0" else (shortest mantissa exponent).text

/-- The text of the non-negative value `mantissa * 2 ^ exponent` with two places. -/
def twoPlaces (mantissa : Nat) (exponent : Int) : Bytes :=
  let hundredths :=
    roundDiv (100 * mantissa * Nat.pow 2 exponent.toNat) (Nat.pow 2 (-exponent).toNat)
  let fraction := Bytes.decimal (hundredths % 100)
  Bytes.decimal (hundredths / 100) ++ utf8 "."
    ++ List.replicate (2 - fraction.length) 48 ++ fraction

/-! ## Reading decimals -/

/-- The bits of the double nearest to `num / den`, where too large a value gives
infinity.  Moving the exponent by one moves the bits by `2 ^ 52`, so a mantissa
that rounds up to the next power of two needs no case of its own. -/
def nearestBits (num den : Nat) : Nat :=
  if num = 0 then 0
  else
    let quotientAt := fun (e : Int) => (num * Nat.pow 2 (-e).toNat, den * Nat.pow 2 e.toNat)
    let guess : Int := Int.ofNat num.log2 - Int.ofNat den.log2 - 52
    let (n, d) := quotientAt guess
    let fitted := if n / d < Nat.pow 2 52 then guess - 1 else guess
    let exponent := max fitted (-1074)
    let (n, d) := quotientAt exponent
    let bits := (exponent + 1074).toNat * Nat.pow 2 52 + roundDiv n d
    min bits (2047 * Nat.pow 2 52)

/-- The value of a run of decimal digits. -/
def digitsValue (digits : Bytes) : Nat :=
  digits.foldl (fun n b => 10 * n + (b.toNat - 48)) 0

/-- The double nearest to a decimal given by its digits before and after the
point. -/
def ofDigits (whole fraction : Bytes) : Float :=
  Float.ofBits (nearestBits (digitsValue (whole ++ fraction)) (Nat.pow 10 fraction.length)).toUInt64

/-- The number a literal such as `12` or `0.5` denotes. -/
def ofLiteral (literal : Bytes) : Float :=
  ofDigits (literal.takeWhile (· ≠ 46)) ((literal.dropWhile (· ≠ 46)).drop 1)

end LoxMachine.Number
