import LoxMachine.Yaml.Stream

/-!
# Tokens of a document

A token is an indicator, a scalar, a property of a node, a directive, or one of the
starts and ends that indentation stands for.
-/

namespace LoxMachine.Yaml

/-- What a token is. -/
inductive TokenKind where
  | streamEnd
  | version (major minor : Nat)
  | handle (name expansion : Bytes)
  | documentStart
  | documentEnd
  | blockSequenceStart
  | blockMappingStart
  | blockEnd
  | flowSequenceStart
  | flowSequenceEnd
  | flowMappingStart
  | flowMappingEnd
  | blockEntry
  | flowEntry
  | key
  | value
  | alias (name : Bytes)
  | anchor (name : Bytes)
  | tag (handle suffix : Bytes)
  | scalar (plain : Bool) (text : Bytes)
  deriving DecidableEq

/-- A token, where it begins and where it ends. -/
structure Token where
  kind : TokenKind
  start : Mark
  stop : Mark

/-! ## Anchors and aliases -/

/-- Characters that may stand behind the name of an anchor. -/
def endsAnchor (c : Char) : Bool :=
  isBlankOrEnd c || ['?', ':', ',', ']', '\x7d', '%', '@', '\x60'].contains c

/-- Reads the name of an anchor behind its indicator. -/
def readAnchor (s : Stream) : Except Error (Bytes × Stream) := do
  let start := s.mark
  let (name, s) ← s.skip.takeWhile isNameChar
  if name.isEmpty || !endsAnchor s.head then throw (.atToken .anchorName start s.mark)
  return (textBytes name, s)

/-! ## Tags -/

/-- The characters of a tag that need no escape. -/
def isUriChar (c : Char) : Bool :=
  isNameChar c || [';', '/', '?', ':', '@', '&', '=', '+', '$', ',', '.', '!', '~', '*', '\'',
    '(', ')', '[', ']'].contains c

/-- Reads one octet that is written as a percent sign and two digits. -/
def readOctet (start : Mark) (s : Stream) : Except Error (UInt8 × Stream) := do
  s.require 3
  match s.chars.take 3 with
  | ['%', a, b] =>
      match hexValue? a, hexValue? b with
      | some high, some low => return ((16 * high + low).toUInt8, Stream.skipMany 3 s)
      | _, _ => throw (.atToken .tagEscape start s.mark)
  | _ => throw (.atToken .tagEscape start s.mark)

/-- Reads escaped octets that continue a character. -/
def readTrailingOctets (start : Mark) : (count : Nat) → Stream → Except Error (Bytes × Stream)
  | 0, s => .ok ([], s)
  | count + 1, s => do
      let (octet, next) ← readOctet start s
      if octet &&& 0xC0 ≠ 0x80 then throw (.atToken .tagTrailingOctet start s.mark)
      let (others, s) ← readTrailingOctets start count next
      return (octet :: others, s)

/-- Reads a character of escaped octets. -/
def readEscapedOctets (start : Mark) (s : Stream) : Except Error (Bytes × Stream) := do
  let (octet, next) ← readOctet start s
  match sequenceWidth? octet with
  | none => throw (.atToken .tagLeadingOctet start s.mark)
  | some width =>
      let (others, s) ← readTrailingOctets start (width - 1) next
      return (octet :: others, s)

/-- Reads on in a tag, after the bytes `before`. -/
def readUriRuns (start : Mark) : (steps : Nat) → (before : Bytes) → Stream →
    Except Error (Bytes × Stream)
  | 0, before, s => .ok (before, s)
  | steps + 1, before, s => do
      let (run, s) ← s.takeWhile isUriChar
      let before := before ++ textBytes run
      if s.head = '%' then
        let (octets, s) ← readEscapedOctets start s
        readUriRuns start steps (before ++ octets) s
      else return (before, s)

/-- Reads a tag after the part `before` of it, which may be all unless it is `none`. -/
def readUri (start : Mark) (before : Option Bytes) (s : Stream) :
    Except Error (Bytes × Stream) := do
  s.require 1
  if before.isNone && !(isUriChar s.head || s.head = '%') then
    throw (.atToken .tagUri start s.mark)
  readUriRuns start (s.chars.length + 1) (before.getD []) s

/-- Reads a handle: an exclamation mark, and perhaps a name and a second one. A directive
takes no other text. -/
def readHandle (start : Mark) (directive : Bool) (s : Stream) : Except Error (Bytes × Stream) := do
  s.require 1
  if s.head ≠ '!' then throw (.atToken .tagMark start s.mark)
  let (name, s) ← s.skip.takeWhile isNameChar
  let handle := 33 :: textBytes name
  if s.head = '!' then return (handle ++ [33], s.skip)
  else if directive && !name.isEmpty then throw (.atToken .tagMark start s.mark)
  else return (handle, s)

/-- Whether a text is a handle that is closed by a second mark. -/
def isClosedHandle (handle : Bytes) : Bool :=
  1 < handle.length && handle.getLast? = some 33

/-- Reads a tag up to what ends it. -/
def readTagParts (start : Mark) (s : Stream) : Except Error (Bytes × Bytes × Stream) := do
  s.require 2
  if s.ahead 1 = '<' then
    let (suffix, s) ← readUri start none s.skip.skip
    if s.head ≠ '>' then throw (.atToken .tagBracket start s.mark)
    return ([], suffix, s.skip)
  let (handle, s) ← readHandle start false s
  if isClosedHandle handle then
    let (suffix, s) ← readUri start none s
    return (handle, suffix, s)
  let (suffix, s) ← readUri start (some (handle.drop 1)) s
  return if suffix.isEmpty then ([], utf8 "!", s) else (utf8 "!", suffix, s)

/-- Reads a tag: its handle, which stands for the start of it, and the rest of it. -/
def readTag (s : Stream) : Except Error (Bytes × Bytes × Stream) := do
  let start := s.mark
  let (handle, suffix, s) ← readTagParts start s
  s.require 1
  if !isBlankOrEnd s.head then throw (.atToken .tagEnd start s.mark)
  return (handle, suffix, s)

/-! ## Directives -/

/-- Reads a number of a version, of at most two digits. -/
def readVersionNumber (start : Mark) (s : Stream) : Except Error (Nat × Stream) := do
  let digits := s.chars.takeWhile Char.isDigit
  if 2 < digits.length then
    throw (.atToken .longVersionNumber start (Stream.skipMany 2 s).mark)
  let (digits, s) ← s.takeWhile Char.isDigit
  if digits.isEmpty then throw (.atToken .versionNumber start s.mark)
  return (digits.foldl (fun n c => 10 * n + (c.toNat - 48)) 0, s)

/-- Reads the version behind its name. -/
def readVersion (start : Mark) (s : Stream) : Except Error (TokenKind × Stream) := do
  let s ← s.dropWhile isBlank
  let (major, s) ← readVersionNumber start s
  if s.head ≠ '.' then throw (.atToken .versionPoint start s.mark)
  let (minor, s) ← readVersionNumber start s.skip
  return (.version major minor, s)

/-- Reads a handle and what it stands for. -/
def readHandleDirective (start : Mark) (s : Stream) : Except Error (TokenKind × Stream) := do
  let s ← s.dropWhile isBlank
  let (handle, s) ← readHandle start true s
  s.require 1
  if !isBlank s.head then throw (.atToken .tagBlank start s.mark)
  let s ← s.dropWhile isBlank
  let (expansion, s) ← readUri start none s
  if !isBlankOrEnd s.head then throw (.atToken .tagEnd start s.mark)
  return (.handle handle expansion, s)

/-- Reads a directive, and where its token ends. The rest of its line may be a comment. -/
def readDirective (s : Stream) : Except Error (Token × Stream) := do
  let start := s.mark
  let (name, s) ← s.skip.takeWhile isNameChar
  if name.isEmpty then throw (.atToken .missingDirectiveName start s.mark)
  if !isBlankOrEnd s.head then throw (.atToken .directiveNameEnd start s.mark)
  let (kind, s) ←
    if name = ['Y', 'A', 'M', 'L'] then readVersion start s
    else if name = ['T', 'A', 'G'] then readHandleDirective start s
    else throw (.atToken .unknownDirective start s.mark)
  let token := Token.mk kind start s.mark
  return (token, ← s.passLineEnd start)

end LoxMachine.Yaml
