import LoxMachine.Report
import LoxMachine.Token

/-!
# Scanning

A text is cut into pieces from the left.  After white space and comments, the
head of what remains is either a token, the longest one that starts there, or a
fault, which is reported and skipped.
-/

namespace LoxMachine.Token

/-! ## Classes of bytes -/

def isDigit (b : UInt8) : Bool :=
  48 ≤ b && b ≤ 57

/-- A letter or an underscore. -/
def isNameStart (b : UInt8) : Bool :=
  b == 95 || (97 ≤ b && b ≤ 122) || (65 ≤ b && b ≤ 90)

def isNamePart (b : UInt8) : Bool :=
  isNameStart b || isDigit b

/-- Space, tab, vertical tab, line feed or carriage return. -/
def isSpace (b : UInt8) : Bool :=
  b == 32 || b == 9 || b == 11 || b == 10 || b == 13

/-! ## Pieces -/

/-- Why no token starts at a place. -/
inductive Fault where
  | unterminatedString
  | invalidByte (byte : UInt8)
  | unexpectedCharacter (code : Nat) (text : Bytes)
  deriving DecidableEq

def Fault.message : Fault → Bytes
  | .unterminatedString => utf8 "unterminated string"
  | .invalidByte byte => utf8 "invalid UTF-8 byte 0x" ++ Bytes.hexUpper 2 byte.toNat
  | .unexpectedCharacter code text =>
      utf8 "unexpected character '" ++ text ++ utf8 "' (U+"
        ++ Bytes.hexUpper (if code > 0xFFFF then 5 else 4) code ++ utf8 ")"

/-- What the head of a text is: a token or a fault. -/
inductive Content where
  | token (kind : Kind)
  | fault (cause : Fault)
  deriving DecidableEq

/-- A stretch of text that is one token or one fault. -/
structure Piece where
  start : Nat
  text : Bytes
  content : Content
  deriving DecidableEq

def Piece.stop (piece : Piece) : Nat :=
  piece.start + piece.text.length

/-- The number of bytes of white space and comments at the head of a text. A
comment ends before its line feed. -/
def triviaLength : (inComment : Bool) → Bytes → Nat
  | _, [] => 0
  | true, b :: rest => triviaLength (b != Bytes.lineFeed) rest + 1
  | false, b :: rest =>
      if isSpace b then triviaLength false rest + 1
      else if b = 47 ∧ rest.head? = some 47 then triviaLength true rest + 1
      else 0

/-- The length of the number at the head of a text: digits, and a point with
digits after it. -/
def numberLength (text : Bytes) : Nat :=
  let whole := (text.takeWhile isDigit).length
  match text.drop whole with
  | 46 :: rest =>
      let fraction := (rest.takeWhile isDigit).length
      if fraction = 0 then whole else whole + 1 + fraction
  | _ => whole

/-- Whether a text is a number as a whole. -/
def isNumeral (text : Bytes) : Bool :=
  text.head?.any isDigit && numberLength text == text.length

/-- The token or fault at the head of a text after an opening quote, with the
number of bytes up to its end. -/
def stringHead (rest : Bytes) : Content × Nat :=
  let inner := (rest.takeWhile (· ≠ 34)).length
  if inner < rest.length then (.token .string, inner + 2)
  else (.fault .unterminatedString, inner + 1)

/-- The longer kind if an equals sign follows, else the shorter one. -/
def operatorHead (rest : Bytes) (long short : Kind) : Content × Nat :=
  if rest.head? = some 61 then (.token long, 2) else (.token short, 1)

/-- The fault of a character that starts no token. -/
def faultHead (text : Bytes) (byte : UInt8) : Content × Nat :=
  match Bytes.scalar? text with
  | some (code, width) => (.fault (.unexpectedCharacter code (text.take width)), width)
  | none => (.fault (.invalidByte byte), 1)

/-- The token or fault that starts with `b`, and its length. -/
def head (b : UInt8) (rest : Bytes) : Content × Nat :=
  if isNameStart b then
    let name := (b :: rest).takeWhile isNamePart
    match Keyword.ofSpelling? name with
    | some word => (.token (.keyword word), name.length)
    | none => (.token .identifier, name.length)
  else if isDigit b then (.token .number, numberLength (b :: rest))
  else
    match b with
    | 34 => stringHead rest
    | 40 => (.token .leftParen, 1)
    | 41 => (.token .rightParen, 1)
    | 123 => (.token .leftBrace, 1)
    | 125 => (.token .rightBrace, 1)
    | 44 => (.token .comma, 1)
    | 46 => (.token .dot, 1)
    | 59 => (.token .semicolon, 1)
    | 43 => (.token .plus, 1)
    | 45 => (.token .minus, 1)
    | 42 => (.token .star, 1)
    | 47 => (.token .slash, 1)
    | 33 => operatorHead rest .bangEqual .bang
    | 61 => operatorHead rest .equalEqual .equal
    | 60 => operatorHead rest .lessEqual .less
    | 62 => operatorHead rest .greaterEqual .greater
    | _ => faultHead (b :: rest) b

/-- Adds the pieces of `text`, which starts at `offset`, to those already found,
latest first. Every piece takes at least one byte, so as many steps as bytes are
enough. -/
def collect : (steps offset : Nat) → (text : Bytes) → (found : List Piece) → List Piece
  | 0, _, _, found => found
  | steps + 1, offset, text, found =>
      let skipped := triviaLength false text
      match text.drop skipped with
      | [] => found
      | b :: rest =>
          let start := offset + skipped
          let (content, width) := head b rest
          collect steps (start + width) (rest.drop (width - 1))
            (⟨start, (b :: rest).take width, content⟩ :: found)

/-- The pieces of a text from left to right. -/
def pieces (text : Bytes) : List Piece :=
  (collect text.length 0 text []).reverse

/-! ## Tokens of a source -/

/-- The tokens of a source, of which the last marks its end, and a bag with its
faults. -/
def scan (src : Source) : List Token × Bag :=
  let found := pieces src.text
  let rangeOf := fun (piece : Piece) => (⟨some src, piece.start, piece.stop⟩ : Range)
  let tokens := found.filterMap fun piece =>
    match piece.content with
    | .token kind => some ⟨kind, piece.text, rangeOf piece⟩
    | .fault _ => none
  let faults := found.filterMap fun piece =>
    match piece.content with
    | .token _ => none
    | .fault cause => some ⟨.error, rangeOf piece, cause.message⟩
  let stop := src.text.length
  (tokens ++ [⟨.eof, [], ⟨some src, stop, stop⟩⟩], ⟨faults.toArray⟩)

end LoxMachine.Token
