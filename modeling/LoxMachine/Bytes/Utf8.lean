import LoxMachine.Bytes

/-!
# Characters of a byte string

A character is a well-formed UTF-8 sequence.  A byte that begins none counts as
one character of its own, so every byte string is a sequence of characters.
-/

namespace LoxMachine.Bytes

/-- A continuation byte. -/
def isTail (b : UInt8) : Bool :=
  0x80 ≤ b && b ≤ 0xBF

/-- The code point at the head of a text and the bytes it takes, if the text
begins with a well-formed sequence: no overlong form, no surrogate, nothing
above U+10FFFF. -/
def scalar? : Bytes → Option (Nat × Nat)
  | [] => none
  | a :: rest =>
      if a < 0x80 then some (a.toNat, 1)
      else if 0xC2 ≤ a && a ≤ 0xDF then
        match rest with
        | b :: _ =>
            if isTail b then some ((a.toNat - 0xC0) * 64 + (b.toNat - 0x80), 2) else none
        | _ => none
      else if 0xE0 ≤ a && a ≤ 0xEF then
        match rest with
        | b :: c :: _ =>
            let low : UInt8 := if a = 0xE0 then 0xA0 else 0x80
            let high : UInt8 := if a = 0xED then 0x9F else 0xBF
            if low ≤ b && b ≤ high && isTail c then
              some ((a.toNat - 0xE0) * 4096 + (b.toNat - 0x80) * 64 + (c.toNat - 0x80), 3)
            else none
        | _ => none
      else if 0xF0 ≤ a && a ≤ 0xF4 then
        match rest with
        | b :: c :: d :: _ =>
            let low : UInt8 := if a = 0xF0 then 0x90 else 0x80
            let high : UInt8 := if a = 0xF4 then 0x8F else 0xBF
            if low ≤ b && b ≤ high && isTail c && isTail d then
              some ((a.toNat - 0xF0) * 262144 + (b.toNat - 0x80) * 4096
                + (c.toNat - 0x80) * 64 + (d.toNat - 0x80), 4)
            else none
        | _ => none
      else none

/-- The number of bytes of the character at the head of a text. -/
def headWidth (text : Bytes) : Nat :=
  match scalar? text with
  | some (_, width) => width
  | none => 1

/-- The number of whole characters of `text` that end within its first `limit`
bytes.  The first argument bounds how many are looked at. -/
def countWithin : Nat → (limit : Nat) → Bytes → Nat
  | 0, _, _ => 0
  | _ + 1, _, [] => 0
  | steps + 1, limit, text@(_ :: _) =>
      let width := headWidth text
      if width ≤ limit then countWithin steps (limit - width) (text.drop width) + 1 else 0

/-- The number of whole characters of `text` within its first `limit` bytes. -/
def charactersWithin (limit : Nat) (text : Bytes) : Nat :=
  countWithin limit limit text

/-- Maps each character of a text, given as its code point (none for a byte that
belongs to no well-formed sequence) and its bytes.  The first argument bounds
how many are looked at. -/
def mapCharacters {α : Type} (f : Option Nat → Bytes → α) : Nat → Bytes → List α
  | 0, _ => []
  | _ + 1, [] => []
  | steps + 1, text@(_ :: _) =>
      match scalar? text with
      | some (code, width) =>
          f (some code) (text.take width) :: mapCharacters f steps (text.drop width)
      | none => f none (text.take 1) :: mapCharacters f steps (text.drop 1)

/-- The characters of a text in order, each with its code point and its bytes. -/
def characters (text : Bytes) : List (Option Nat × Bytes) :=
  mapCharacters (fun code bytes => (code, bytes)) text.length text

end LoxMachine.Bytes
