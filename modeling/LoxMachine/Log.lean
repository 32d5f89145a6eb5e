import LoxMachine.Bytes.Quoted
import LoxMachine.Machine

/-!
# The log as text

A record is one line of `key=value` pairs.  A value is quoted where it would not
be read back as one word.
-/

namespace LoxMachine.Record

/-- Whether a character forces quotes around the value it stands in. -/
def forcesQuotes : Option Nat × Bytes → Bool
  | (none, _) => true
  | (some code, _) =>
      if code < 0x80 then code ≤ 0x20 || code == 0x22 || code == 0x3D
      else code == 0xFFFD || !Character.isPrintable code

/-- A value as it stands in the log. -/
def valueText (value : Bytes) : Bytes :=
  if value.isEmpty || value.characters.any forcesQuotes then Bytes.quoted value else value

/-- A record without its line end. All records have the level of debugging. -/
def text (record : Record) : Bytes :=
  utf8 "level=DEBUG msg=" ++ valueText record.message
    ++ record.attributes.flatMap fun entry =>
      utf8 " " ++ entry.1 ++ utf8 "=" ++ valueText entry.2

/-- Records, one line each. -/
def logText (records : List Record) : Bytes :=
  records.flatMap fun record => record.text ++ utf8 "\n"

end LoxMachine.Record
