import LoxMachine.Bytes.Character
import LoxMachine.Bytes.Utf8

/-!
# Quoted text

The quoted form of a byte string stands between double quotes and shows every
byte: printable characters as themselves, all others as escapes.  The trimmed
form of a byte string has no white space at its ends.
-/

namespace LoxMachine.Bytes

/-- One character as it stands between the quotes.  A byte outside every
well-formed sequence is `\xNN`; so is an ASCII control byte without a letter of
its own. -/
def escaped (code : Option Nat) (bytes : Bytes) : Bytes :=
  match code with
  | none => bytes.flatMap fun b => utf8 "\\x" ++ hex 2 b.toNat
  | some 7 => utf8 "\\a"
  | some 8 => utf8 "\\b"
  | some 9 => utf8 "\\t"
  | some 10 => utf8 "\\n"
  | some 11 => utf8 "\\v"
  | some 12 => utf8 "\\f"
  | some 13 => utf8 "\\r"
  | some 34 => utf8 "\\\""
  | some 92 => utf8 "\\\\"
  | some code =>
      if Character.isPrintable code then bytes
      else if code < 0x80 then utf8 "\\x" ++ hex 2 code
      else if code < 0x10000 then utf8 "\\u" ++ hex 4 code
      else utf8 "\\U" ++ hex 8 code

/-- The quoted form of a text. -/
def quoted (text : Bytes) : Bytes :=
  utf8 "\"" ++ (mapCharacters escaped text.length text).flatten ++ utf8 "\""

/-- A text without the white space at its two ends. -/
def trimBlank (text : Bytes) : Bytes :=
  let blank : Option Nat × Bytes → Bool := fun c => c.1.any Character.isBlank
  let kept := (text.characters.dropWhile blank).reverse.dropWhile blank
  (kept.reverse.map Prod.snd).flatten

end LoxMachine.Bytes
