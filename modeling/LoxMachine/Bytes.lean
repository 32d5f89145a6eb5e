/-!
# Byte strings

Source text, names and string values are all byte strings.  Whether the bytes
are well-formed UTF-8 matters only where characters are counted or shown, so
nothing below assumes it.
-/

namespace LoxMachine

/-- Text, as the bytes that hold it. -/
abbrev Bytes := List UInt8

/-- The UTF-8 bytes of a string. -/
def utf8 (s : String) : Bytes :=
  s.toUTF8.data.toList

namespace Bytes

/-- The line feed, which ends a line. -/
def lineFeed : UInt8 := 10

/-- The carriage return, which may stand before a line feed. -/
def carriageReturn : UInt8 := 13

/-! ## Numerals -/

/-- The decimal digits of a natural number. -/
def decimal (n : Nat) : Bytes :=
  (Nat.toDigits 10 n).map fun c => c.toNat.toUInt8

/-- The decimal digits of an integer, after a minus sign if it is negative. -/
def decimalInt : Int → Bytes
  | .ofNat n => decimal n
  | .negSucc n => utf8 "-" ++ decimal (n + 1)

/-- Lower-case hexadecimal digits, with zeros in front up to `width`. -/
def hex (width n : Nat) : Bytes :=
  let digits := (Nat.toDigits 16 n).map fun c => c.toNat.toUInt8
  List.replicate (width - digits.length) 48 ++ digits

/-- The upper-case form of an ASCII letter; every other byte is kept. -/
def upperByte (b : UInt8) : UInt8 :=
  if 97 ≤ b ∧ b ≤ 122 then b - 32 else b

/-- The lower-case form of an ASCII letter; every other byte is kept. -/
def lowerByte (b : UInt8) : UInt8 :=
  if 65 ≤ b ∧ b ≤ 90 then b + 32 else b

/-- Upper-case hexadecimal digits, with zeros in front up to `width`. -/
def hexUpper (width n : Nat) : Bytes :=
  (hex width n).map upperByte

/-! ## Layout -/

/-- That many spaces. -/
def spaces (n : Nat) : Bytes :=
  List.replicate n 32

/-- `text`, with spaces after it up to `width`. -/
def padRight (width : Nat) (text : Bytes) : Bytes :=
  text ++ spaces (width - text.length)

/-- `text`, with spaces before it up to `width`. -/
def padLeft (width : Nat) (text : Bytes) : Bytes :=
  spaces (width - text.length) ++ text

/-- The parts in order, with `separator` between each two. -/
def join (separator : Bytes) : List Bytes → Bytes
  | [] => []
  | [part] => part
  | part :: rest => part ++ separator ++ join separator rest

/-- A text without one carriage return at its end. -/
def withoutReturn (text : Bytes) : Bytes :=
  if text.getLast? = some carriageReturn then text.dropLast else text

/-- A text without the line feeds at its end. -/
def trimLineFeeds (text : Bytes) : Bytes :=
  (text.reverse.dropWhile (· = lineFeed)).reverse

/-- The rest of `text` after `start`, if it begins with it. -/
def stripStart? : (start text : Bytes) → Option Bytes
  | [], text => some text
  | _ :: _, [] => none
  | s :: start, b :: text => if s = b then stripStart? start text else none

/-- Whether `text` begins with `start`. -/
def startsWith (start text : Bytes) : Bool :=
  (stripStart? start text).isSome

/-- Whether `text` ends with `ending`. -/
def endsWith (ending text : Bytes) : Bool :=
  startsWith ending.reverse text.reverse

end Bytes

end LoxMachine
