import LoxMachine.Bytes
import LoxMachine.Yaml.Fault

/-!
# Characters of a document

A document is read from bytes in pieces.  Bytes that stand for no allowed
character make their whole piece unreadable, so a fault shows as soon as
anything of that piece is looked at, and not at all if nothing is.
-/

namespace LoxMachine.Yaml

/-! ## Encodings -/

inductive Encoding where
  | utf8
  | utf16Little
  | utf16Big
  deriving DecidableEq

/-- The encoding a text announces by its first bytes, and how many of them do so. -/
def Encoding.detect (text : Bytes) : Encoding × Nat :=
  if Bytes.startsWith [0xFF, 0xFE] text then (.utf16Little, 2)
  else if Bytes.startsWith [0xFE, 0xFF] text then (.utf16Big, 2)
  else if Bytes.startsWith [0xEF, 0xBB, 0xBF] text then (.utf8, 3)
  else (.utf8, 0)

/-- Whether a document may hold the character of this code point. -/
def isAllowed (code : Nat) : Bool :=
  code = 0x09 || code = 0x0A || code = 0x0D || (0x20 ≤ code && code ≤ 0x7E) || code = 0x85
    || (0xA0 ≤ code && code ≤ 0xD7FF) || (0xE000 ≤ code && code ≤ 0xFFFD)
    || (0x10000 ≤ code && code ≤ 0x10FFFF)

/-- The length of the sequence an octet begins. -/
def sequenceWidth? (octet : UInt8) : Option Nat :=
  if octet &&& 0x80 = 0x00 then some 1
  else if octet &&& 0xE0 = 0xC0 then some 2
  else if octet &&& 0xF0 = 0xE0 then some 3
  else if octet &&& 0xF8 = 0xF0 then some 4
  else none

/-- The bits of a first octet that belong to the code point. -/
def leadingBits (width : Nat) (octet : UInt8) : Nat :=
  match width with
  | 1 => octet.toNat
  | 2 => (octet &&& 0x1F).toNat
  | 3 => (octet &&& 0x0F).toNat
  | _ => (octet &&& 0x07).toNat

/-- The least code point that needs a sequence of this length. -/
def leastCode : (width : Nat) → Nat
  | 2 => 0x80
  | 3 => 0x800
  | 4 => 0x10000
  | _ => 0

/-- A code point at the head of a text, and how many bytes it takes; none if the text ends
too early. -/
abbrev Head := Except Fault (Option (Nat × Nat))

/-- The UTF-8 sequence at the head of a text that is not empty. -/
def utf8Head : Bytes → Head
  | [] => .ok none
  | octet :: rest =>
      match sequenceWidth? octet with
      | none => .error .leadingOctet
      | some width =>
          let tail := rest.take (width - 1)
          if tail.length < width - 1 then .ok none
          else if tail.any fun b => b &&& 0xC0 ≠ 0x80 then .error .trailingOctet
          else
            let code := tail.foldl (fun n b => n * 64 + (b &&& 0x3F).toNat)
              (leadingBits width octet)
            if code < leastCode width then .error .sequenceLength
            else if (0xD800 ≤ code && code ≤ 0xDFFF) || 0x10FFFF < code then .error .surrogate
            else .ok (some (code, width))

/-- The UTF-16 units at the head of a text. -/
def utf16Head (big : Bool) (text : Bytes) : Head :=
  let unit : UInt8 → UInt8 → Nat := fun a b =>
    if big then a.toNat * 256 + b.toNat else b.toNat * 256 + a.toNat
  match text with
  | a :: b :: rest =>
      let first := unit a b
      if 0xDC00 ≤ first && first ≤ 0xDFFF then .error .lonelyLowSurrogate
      else if 0xD800 ≤ first && first ≤ 0xDBFF then
        match rest with
        | c :: d :: _ =>
            let second := unit c d
            if 0xDC00 ≤ second && second ≤ 0xDFFF then
              .ok (some (0x10000 + (first - 0xD800) * 1024 + (second - 0xDC00), 4))
            else .error .lonelyHighSurrogate
        | _ => .ok none
      else .ok (some (first, 2))
  | _ => .ok none

def Encoding.head : Encoding → Bytes → Head
  | .utf8 => utf8Head
  | .utf16Little => utf16Head false
  | .utf16Big => utf16Head true

/-- What is wrong with bytes at the end of a text that begin a character. -/
def Encoding.incomplete (encoding : Encoding) (rest : Bytes) : Fault :=
  match encoding with
  | .utf8 => .incompleteSequence
  | _ => if rest.length < 2 then .incompleteUnit else .incompletePair

/-! ## Pieces -/

/-- The characters of a piece, and the bytes at its end that begin another one. -/
def decodePiece (encoding : Encoding) : (steps : Nat) → Bytes → Except Fault (List Char × Bytes)
  | 0, rest => .ok ([], rest)
  | _ + 1, [] => .ok ([], [])
  | steps + 1, text => do
      match ← encoding.head text with
      | none => return ([], text)
      | some (code, width) =>
          if !isAllowed code then throw .controlCharacter
          let (chars, rest) ← decodePiece encoding steps (text.drop width)
          return (Char.ofNat code :: chars, rest)

/-- The bytes of a piece. -/
def pieceSize : Nat := 512

/-- The characters of a text up to its first unreadable piece, and what is wrong with
that. The first piece has `size` bytes. -/
def decode (encoding : Encoding) : (steps : Nat) → (size : Nat) → Bytes →
    List Char × Option Fault
  | 0, _, _ => ([], none)
  | steps + 1, size, text =>
      match decodePiece encoding size (text.take size) with
      | .error fault => ([], some fault)
      | .ok (chars, rest) =>
          match text.drop size with
          | [] => (chars, if rest.isEmpty then none else some (encoding.incomplete rest))
          | more =>
              let (others, fault) := decode encoding steps pieceSize (rest ++ more)
              (chars ++ others, fault)

/-! ## Classes of characters -/

/-- What is seen after the last character. No document holds it. -/
def eof : Char := '\x00'

def isBlank (c : Char) : Bool :=
  c = ' ' || c = '\t'

/-- Whether a character ends a line. -/
def isBreak (c : Char) : Bool :=
  c = '\r' || c = '\n' || c = '\u0085' || c = '\u2028' || c = '\u2029'

def isBreakOrEnd (c : Char) : Bool :=
  isBreak c || c = eof

def isBlankOrEnd (c : Char) : Bool :=
  isBlank c || isBreakOrEnd c

/-- The characters of names of anchors and handles. -/
def isNameChar (c : Char) : Bool :=
  c.isAlphanum || c = '_' || c = '-'

/-- The value of a hexadecimal digit. -/
def hexValue? (c : Char) : Option Nat :=
  if c.isDigit then some (c.toNat - 48)
  else if 'a' ≤ c && c ≤ 'f' then some (c.toNat - 87)
  else if 'A' ≤ c && c ≤ 'F' then some (c.toNat - 55)
  else none

/-- The bytes of some characters. -/
def textBytes (chars : List Char) : Bytes :=
  chars.flatMap String.utf8EncodeChar

/-! ## Streams -/

/-- The characters still to be read, what comes after them if that is unreadable, the place
they begin at, and whether only blanks stand before that place on its line, below another
line. -/
structure Stream where
  chars : List Char
  fault : Option Fault
  mark : Mark := {}
  lineStart : Bool := false

namespace Stream

/-- The characters of a text. -/
def ofBytes (text : Bytes) : Stream :=
  let (encoding, width) := Encoding.detect text
  let (chars, fault) := decode encoding (text.length + 1) (pieceSize - width) (text.drop width)
  ⟨chars, fault, {}, false⟩

/-- The next character. -/
def head (s : Stream) : Char :=
  s.chars.headD eof

/-- The character `i` places further on. -/
def ahead (s : Stream) (i : Nat) : Char :=
  s.chars.getD i eof

/-- Makes sure that this many characters can be looked at. -/
def require (s : Stream) (count : Nat) : Except Error Unit :=
  match s.fault with
  | some fault => if (s.chars.take count).length < count then .error ⟨fault, none⟩ else .ok ()
  | none => .ok ()

/-- Passes the next character, which ends no line. -/
def skip (s : Stream) : Stream :=
  { s with
    chars := s.chars.tail
    mark := { s.mark with index := s.mark.index + 1, column := s.mark.column + 1 }
    lineStart := s.lineStart && isBlank s.head }

/-- Passes this many characters, none of which ends a line. -/
def skipMany : (count : Nat) → Stream → Stream
  | 0, s => s
  | count + 1, s => skipMany count s.skip

/-- How many characters the end of a line at the head takes. -/
def breakWidth (s : Stream) : Nat :=
  if s.head = '\r' && s.ahead 1 = '\n' then 2 else 1

/-- Passes the end of a line. -/
def skipLine (s : Stream) : Stream :=
  { s with
    chars := s.chars.drop s.breakWidth
    mark := ⟨s.mark.index + s.breakWidth, s.mark.line + 1, 0⟩
    lineStart := true }

/-- The end of a line as it counts in a text: line and paragraph separators are kept, all
others are line feeds. -/
def breakChar (c : Char) : Char :=
  if c = '\u2028' || c = '\u2029' then c else '\n'

/-- Takes characters as long as they are of a class that no end of a line is in. -/
def takeWhile (s : Stream) (inClass : Char → Bool) : Except Error (List Char × Stream) := do
  let taken := s.chars.takeWhile inClass
  let s := skipMany taken.length s
  s.require 1
  return (taken, s)

/-- Passes characters of a class that no end of a line is in. -/
def dropWhile (s : Stream) (inClass : Char → Bool) : Except Error Stream := do
  let (_, s) ← s.takeWhile inClass
  return s

/-- Passes blanks and a comment up to the end of the line, and that too, behind what began at
`start`. -/
def passLineEnd (start : Mark) (s : Stream) : Except Error Stream := do
  let s ← s.dropWhile isBlank
  let s ← if s.head = '#' then s.dropWhile (fun c => !isBreakOrEnd c) else pure s
  if !isBreakOrEnd s.head then throw (.atToken .lineEndExpected start s.mark)
  s.require 2
  return if isBreak s.head then s.skipLine else s

/-- Whether a line that separates documents begins here. -/
def atDocumentMark (s : Stream) : Bool :=
  s.mark.column = 0
    && (s.chars.take 3 = ['-', '-', '-'] || s.chars.take 3 = ['.', '.', '.'])
    && isBlankOrEnd (s.ahead 3)

end Stream

end LoxMachine.Yaml
