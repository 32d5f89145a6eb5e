import LoxMachine.Number
import LoxMachine.Yaml.Fault
import LoxMachine.Yaml.Timestamp

/-!
# Values of scalars

A plain scalar is null, a truth value, a number or a point in time if it is
written as one, and a string otherwise.  A tag can ask for one of these, or for
bytes, or for a string.
-/

namespace LoxMachine.Yaml

/-- What a scalar stands for, as far as it matters. -/
inductive Value where
  | null
  | bool (value : Bool)
  | int (value : Int)
  | float
  | timestamp
  | string (text : Bytes)
  deriving DecidableEq

/-! ## Tags -/

def nullTag : Bytes := utf8 "!!null"

def boolTag : Bytes := utf8 "!!bool"

def intTag : Bytes := utf8 "!!int"

def floatTag : Bytes := utf8 "!!float"

def timestampTag : Bytes := utf8 "!!timestamp"

def strTag : Bytes := utf8 "!!str"

def binaryTag : Bytes := utf8 "!!binary"

def mergeTag : Bytes := utf8 "!!merge"

def seqTag : Bytes := utf8 "!!seq"

def mapTag : Bytes := utf8 "!!map"

/-- The tag of a value. -/
def Value.tag : Value → Bytes
  | .null => nullTag
  | .bool _ => boolTag
  | .int _ => intTag
  | .float => floatTag
  | .timestamp => timestampTag
  | .string _ => strTag

/-! ## Integers -/

/-- The value of a digit in bases up to 36. -/
def digitValue? (b : UInt8) : Option Nat :=
  let b := Bytes.lowerByte b
  if 48 ≤ b && b ≤ 57 then some (b.toNat - 48)
  else if 97 ≤ b && b ≤ 122 then some (b.toNat - 87)
  else none

/-- The natural number of some digits, of which there may be none. -/
def digits? (base : Nat) (text : Bytes) : Option Nat :=
  text.foldlM (fun n b => do
    let d ← digitValue? b
    if d < base then some (n * base + d) else none) 0

/-- A sign at the head of a text, and the rest. -/
def splitSign : Bytes → Option UInt8 × Bytes
  | b :: rest => if b = 43 || b = 45 then (some b, rest) else (none, b :: rest)
  | [] => (none, [])

/-- A natural number whose base shows in its first characters: a zero in front makes it octal,
and a letter behind the zero binary, octal or hexadecimal. -/
def natural? (text : Bytes) : Option Nat :=
  match text with
  | [] => none
  | 48 :: mark :: digit :: rest =>
      match Bytes.lowerByte mark with
      | 98 => digits? 2 (digit :: rest)
      | 111 => digits? 8 (digit :: rest)
      | 120 => digits? 16 (digit :: rest)
      | _ => digits? 8 (mark :: digit :: rest)
  | 48 :: rest => digits? 8 rest
  | text => digits? 10 text

/-- A number of 64 bits with the sign that was written. Without one it can use all of them. -/
def fitted? (sign : Option UInt8) (n : Nat) : Option Int :=
  match sign with
  | some 45 => if n ≤ Nat.pow 2 63 then some (-(n : Int)) else none
  | some _ => if n < Nat.pow 2 63 then some n else none
  | none => if n < Nat.pow 2 64 then some n else none

/-- A number in a base, with a sign behind the letter of the base. -/
def signedInBase? (start : Bytes) (base : Nat) (text : Bytes) : Option Int := do
  let rest ← Bytes.stripStart? start text
  let (sign, digits) := splitSign rest
  if sign.isNone || digits.isEmpty then none
  else fitted? sign (← digits? base digits)

/-- An integer of 64 bits. -/
def integer? (text : Bytes) : Option Int :=
  let (sign, rest) := splitSign text
  (natural? rest).bind (fitted? sign)

/-- An integer with its sign behind the letter of its base. -/
def lateSigned? (text : Bytes) : Option Int :=
  (signedInBase? (utf8 "0b") 2 text).or (signedInBase? (utf8 "0o") 8 text)

/-! ## Decimals -/

/-- A decimal without sign: its digits before and after the point, and its exponent. -/
structure Decimal where
  whole : Bytes
  fraction : Bytes
  exponent : Int

/-- The exponent at the end of a decimal. -/
def exponent? : Bytes → Option Int
  | [] => some 0
  | mark :: rest =>
      let (sign, digits) := splitSign rest
      if (mark = 101 || mark = 69) && !digits.isEmpty && digits.all Timestamp.isDigit then
        let n : Int := Number.digitsValue digits
        some (if sign = some 45 then -n else n)
      else none

/-- A decimal without sign. A digit stands before its point, or one behind it. -/
def decimal? (text : Bytes) : Option Decimal :=
  let whole := text.takeWhile Timestamp.isDigit
  let rest := text.drop whole.length
  let pointed := rest.head? = some 46
  let behind := if pointed then rest.drop 1 else rest
  let fraction := if pointed then behind.takeWhile Timestamp.isDigit else []
  if whole.isEmpty && fraction.isEmpty then none
  else (exponent? (behind.drop fraction.length)).map fun e => ⟨whole, fraction, e⟩

/-- A power of ten beyond all doubles, in both directions. -/
def farPower : Int := 400

/-- Whether a decimal rounds to a double that is finite. -/
def Decimal.isFinite (d : Decimal) : Bool :=
  let digits := (d.whole ++ d.fraction).dropWhile (· = 48)
  let scale := d.exponent - d.fraction.length
  let power := scale + digits.length
  if digits.isEmpty || power < -farPower then true
  else if farPower < power then false
  else
    let n := Number.digitsValue digits
    Number.nearestBits (n * Nat.pow 10 scale.toNat) (Nat.pow 10 (-scale).toNat)
      < 2047 * Nat.pow 2 52

def isFloat (text : Bytes) : Bool :=
  (decimal? (splitSign text).2).any Decimal.isFinite

/-- Whether every underscore of a text stands between two digits. `after` is what stands before
the text: a digit or not. -/
def underscoresFit : (after : Bool) → Bytes → Bool
  | _, [] => true
  | after, b :: rest =>
      if b = 95 then after && (rest.head?.any Timestamp.isDigit) && underscoresFit false rest
      else underscoresFit (Timestamp.isDigit b) rest

/-! ## Plain scalars -/

/-- A text without its underscores. -/
def withoutUnderscores (text : Bytes) : Bytes :=
  text.filter (· ≠ 95)

/-- The value of a text that begins with a digit or a sign. -/
def Value.ofNumeral (times : Bool) (text : Bytes) : Value :=
  if times && Timestamp.accepts text then .timestamp
  else
    let plain := withoutUnderscores text
    match integer? plain with
    | some n => .int n
    | none =>
        if isFloat plain then .float
        else
          match lateSigned? plain with
          | some n => .int n
          | none => .string text

/-- Words that are no string. -/
def Value.ofWord? (text : Bytes) : Option Value :=
  if [utf8 "", utf8 "~", utf8 "null", utf8 "Null", utf8 "NULL"].contains text then some .null
  else if [utf8 "true", utf8 "True", utf8 "TRUE"].contains text then some (.bool true)
  else if [utf8 "false", utf8 "False", utf8 "FALSE"].contains text then some (.bool false)
  else if [utf8 ".nan", utf8 ".NaN", utf8 ".NAN"].contains text then some .float
  else if [utf8 ".inf", utf8 ".Inf", utf8 ".INF"].contains (splitSign text).2 then some .float
  else none

/-- The value of a text. Points in time are only looked for if `times` says so. -/
def Value.ofText (times : Bool) (text : Bytes) : Value :=
  match Value.ofWord? text, text with
  | some value, _ => value
  | none, first :: _ =>
      if first = 46 then
        if underscoresFit false text && isFloat (withoutUnderscores text) then .float
        else .string text
      else if first = 43 || first = 45 || Timestamp.isDigit first then Value.ofNumeral times text
      else .string text
  | none, [] => .null

/-! ## Bytes in base 64 -/

/-- The value of a digit in base 64. -/
def sextet? (b : UInt8) : Option Nat :=
  if 65 ≤ b && b ≤ 90 then some (b.toNat - 65)
  else if 97 ≤ b && b ≤ 122 then some (b.toNat - 71)
  else if 48 ≤ b && b ≤ 57 then some (b.toNat + 4)
  else if b = 43 then some 62
  else if b = 47 then some 63
  else none

/-- The bytes of groups of four digits, the last of which may be filled up. -/
def base64Groups? : Bytes → Option Bytes
  | [] => some []
  | [a, b, 61, 61] => do
      let n := 64 * (← sextet? a) + (← sextet? b)
      return [(n / 16).toUInt8]
  | [a, b, c, 61] => do
      let n := 4096 * (← sextet? a) + 64 * (← sextet? b) + (← sextet? c)
      return [(n / 1024).toUInt8, (n / 4).toUInt8]
  | a :: b :: c :: d :: rest => do
      let n := 262144 * (← sextet? a) + 4096 * (← sextet? b) + 64 * (← sextet? c) + (← sextet? d)
      let others ← base64Groups? rest
      return (n / 65536).toUInt8 :: (n / 256).toUInt8 :: n.toUInt8 :: others
  | _ => none

/-- The bytes of a text in base 64, in which line ends do not count. -/
def base64? (text : Bytes) : Option Bytes :=
  base64Groups? (text.filter fun b => b ≠ 10 && b ≠ 13)

/-! ## Tagged scalars -/

/-- The value of a text with a tag. A tag that names a kind of value asks for it, where an
integer is also a float; every other tag leaves a string. -/
def Value.tagged (tag text : Bytes) : Except Fault Value :=
  if tag = strTag then .ok (.string text)
  else if tag = binaryTag then
    match base64? text with
    | some bytes => .ok (.string bytes)
    | none => .error .badBinary
  else if [nullTag, boolTag, intTag, floatTag, timestampTag].contains tag then
    let value := Value.ofText (tag = timestampTag) text
    match value with
    | .int n =>
        if tag = intTag then .ok value
        else if tag = floatTag && n < Nat.pow 2 63 then .ok .float
        else .error (.mismatchedTag value.tag text tag)
    | value =>
        if value.tag = tag then .ok value else .error (.mismatchedTag value.tag text tag)
  else .ok (.string text)

end LoxMachine.Yaml
