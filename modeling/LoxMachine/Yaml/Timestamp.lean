import LoxMachine.Bytes

/-!
# Points in time

A plain scalar such as `2001-12-14` or `2001-12-14t21:59:43.10-05:00` is a point
in time.  Only whether a text is one matters here.
-/

namespace LoxMachine.Yaml.Timestamp

def isDigit (b : UInt8) : Bool :=
  48 ≤ b && b ≤ 57

/-- The value of a digit. -/
def digit (b : UInt8) : Nat :=
  b.toNat - 48

/-- A number of one or two digits at the head of a text, and the rest. -/
def shortNumber? : Bytes → Option (Nat × Bytes)
  | a :: b :: rest =>
      if !isDigit a then none
      else if isDigit b then some (10 * digit a + digit b, rest)
      else some (digit a, b :: rest)
  | [a] => if isDigit a then some (digit a, []) else none
  | [] => none

/-- The number of days of a month. -/
def daysIn (year month : Nat) : Nat :=
  if month = 2 then
    if year % 4 = 0 && (year % 100 ≠ 0 || year % 400 = 0) then 29 else 28
  else if month = 4 || month = 6 || month = 9 || month = 11 then 30
  else 31

/-- What follows a date at the head of a text. -/
def afterDate? (text : Bytes) : Option Bytes := do
  let year := text.takeWhile isDigit
  if year.length ≠ 4 then none
  else
    let rest ← Bytes.stripStart? (utf8 "-") (text.drop 4)
    let (month, rest) ← shortNumber? rest
    let rest ← Bytes.stripStart? (utf8 "-") rest
    let (day, rest) ← shortNumber? rest
    let year := year.foldl (fun n b => 10 * n + digit b) 0
    if 1 ≤ month ∧ month ≤ 12 ∧ 1 ≤ day ∧ day ≤ daysIn year month then some rest else none

/-- A text without a fraction of a second at its head. -/
def withoutFraction : Bytes → Bytes
  | mark :: b :: rest =>
      if (mark = 46 || mark = 44) && isDigit b then rest.dropWhile isDigit else mark :: b :: rest
  | text => text

/-- What follows a time of day at the head of a text. -/
def afterTime? (text : Bytes) : Option Bytes := do
  let (hour, rest) ← shortNumber? text
  let rest ← Bytes.stripStart? (utf8 ":") rest
  let (minute, rest) ← shortNumber? rest
  let rest ← Bytes.stripStart? (utf8 ":") rest
  let (second, rest) ← shortNumber? rest
  if hour < 24 ∧ minute < 60 ∧ second < 60 then some (withoutFraction rest) else none

/-- Whether a text is a time zone: `Z`, or a sign with hours and minutes. Offsets of exactly 24
hours or 60 minutes are taken. -/
def isZone : Bytes → Bool
  | [90] => true
  | [sign, a, b, 58, c, d] =>
      (sign = 43 || sign = 45) && [a, b, c, d].all isDigit
        && 10 * digit a + digit b ≤ 24 && 10 * digit c + digit d ≤ 60
  | _ => false

/-- Whether a text is a date, or a date and a time with a zone behind a letter, or with none
behind spaces. -/
def accepts (text : Bytes) : Bool :=
  match afterDate? text with
  | none => false
  | some [] => true
  | some (mark :: rest) =>
      if mark = 84 || mark = 116 then (afterTime? rest).any isZone
      else if mark = 32 then (afterTime? (rest.dropWhile (· = 32))).any List.isEmpty
      else false

end LoxMachine.Yaml.Timestamp
