import LoxMachine.Bytes

/-!
# What can be wrong with a document

A text that is no YAML document has one fault, found on the way from bytes to
nodes, and mostly a line to look at.
-/

namespace LoxMachine.Yaml

/-- Why a text is no document. -/
inductive Fault where
  -- bytes
  | leadingOctet
  | trailingOctet
  | incompleteSequence
  | sequenceLength
  | surrogate
  | controlCharacter
  | incompleteUnit
  | incompletePair
  | lonelyLowSurrogate
  | lonelyHighSurrogate
  -- tokens
  | noTokenStart
  | blockEntryNotAllowed
  | keyNotAllowed
  | valueNotAllowed
  | missingColon
  | tooDeep
  | unknownDirective
  | missingDirectiveName
  | directiveNameEnd
  | lineEndExpected
  | versionNumber
  | longVersionNumber
  | versionPoint
  | anchorName
  | tagMark
  | tagBracket
  | tagEnd
  | tagBlank
  | tagUri
  | tagEscape
  | tagLeadingOctet
  | tagTrailingOctet
  | zeroIndentation
  | tabInIndentation
  | tabBeforeText
  | documentInQuotes
  | endInQuotes
  | unknownEscape
  | hexadecimalExpected
  | escapedSurrogate
  -- structure
  | duplicateVersion
  | incompatibleVersion
  | duplicateHandle
  | documentStartExpected
  | undefinedHandle
  | contentExpected
  | entryExpected
  | keyExpected
  | sequenceEndExpected
  | mappingEndExpected
  -- meaning
  | unknownAnchor (name : Bytes)
  | selfContained (name : Bytes)
  | mergeOfNoMapping
  | mismatchedTag (found text wanted : Bytes)
  | badBinary
  deriving DecidableEq

namespace Fault

def message : Fault → Bytes
  | .leadingOctet => utf8 "invalid leading UTF-8 octet"
  | .trailingOctet => utf8 "invalid trailing UTF-8 octet"
  | .incompleteSequence => utf8 "incomplete UTF-8 octet sequence"
  | .sequenceLength => utf8 "invalid length of a UTF-8 sequence"
  | .surrogate => utf8 "invalid Unicode character"
  | .controlCharacter => utf8 "control characters are not allowed"
  | .incompleteUnit => utf8 "incomplete UTF-16 character"
  | .incompletePair => utf8 "incomplete UTF-16 surrogate pair"
  | .lonelyLowSurrogate => utf8 "unexpected low surrogate area"
  | .lonelyHighSurrogate => utf8 "expected low surrogate area"
  | .noTokenStart => utf8 "found character that cannot start any token"
  | .blockEntryNotAllowed => utf8 "block sequence entries are not allowed in this context"
  | .keyNotAllowed => utf8 "mapping keys are not allowed in this context"
  | .valueNotAllowed => utf8 "mapping values are not allowed in this context"
  | .missingColon => utf8 "could not find expected ':'"
  | .tooDeep => utf8 "exceeded max depth of 10000"
  | .unknownDirective => utf8 "found unknown directive name"
  | .missingDirectiveName => utf8 "could not find expected directive name"
  | .directiveNameEnd => utf8 "found unexpected non-alphabetical character"
  | .lineEndExpected => utf8 "did not find expected comment or line break"
  | .versionNumber => utf8 "did not find expected version number"
  | .longVersionNumber => utf8 "found extremely long version number"
  | .versionPoint => utf8 "did not find expected digit or '.' character"
  | .anchorName => utf8 "did not find expected alphabetic or numeric character"
  | .tagMark => utf8 "did not find expected '!'"
  | .tagBracket => utf8 "did not find the expected '>'"
  | .tagEnd => utf8 "did not find expected whitespace or line break"
  | .tagBlank => utf8 "did not find expected whitespace"
  | .tagUri => utf8 "did not find expected tag URI"
  | .tagEscape => utf8 "did not find URI escaped octet"
  | .tagLeadingOctet => utf8 "found an incorrect leading UTF-8 octet"
  | .tagTrailingOctet => utf8 "found an incorrect trailing UTF-8 octet"
  | .zeroIndentation => utf8 "found an indentation indicator equal to 0"
  | .tabInIndentation => utf8 "found a tab character where an indentation space is expected"
  | .tabBeforeText => utf8 "found a tab character that violates indentation"
  | .documentInQuotes => utf8 "found unexpected document indicator"
  | .endInQuotes => utf8 "found unexpected end of stream"
  | .unknownEscape => utf8 "found unknown escape character"
  | .hexadecimalExpected => utf8 "did not find expected hexdecimal number"
  | .escapedSurrogate => utf8 "found invalid Unicode character escape code"
  | .duplicateVersion => utf8 "found duplicate %YAML directive"
  | .incompatibleVersion => utf8 "found incompatible YAML document"
  | .duplicateHandle => utf8 "found duplicate %TAG directive"
  | .documentStartExpected => utf8 "did not find expected <document start>"
  | .undefinedHandle => utf8 "found undefined tag handle"
  | .contentExpected => utf8 "did not find expected node content"
  | .entryExpected => utf8 "did not find expected '-' indicator"
  | .keyExpected => utf8 "did not find expected key"
  | .sequenceEndExpected => utf8 "did not find expected ',' or ']'"
  | .mappingEndExpected => utf8 "did not find expected ',' or '\x7d'"
  | .unknownAnchor name => utf8 "unknown anchor '" ++ name ++ utf8 "' referenced"
  | .selfContained name => utf8 "anchor '" ++ name ++ utf8 "' value contains itself"
  | .mergeOfNoMapping => utf8 "map merge requires map or sequence of maps as the value"
  | .mismatchedTag found text wanted =>
      utf8 "cannot decode " ++ found ++ utf8 " `" ++ text ++ utf8 "` as a " ++ wanted
  | .badBinary => utf8 "!!binary value contains invalid base64 data"

end Fault

/-- A place in a text: the characters before it, and its line and column, all counted
from zero. -/
structure Mark where
  index : Nat := 0
  line : Nat := 0
  column : Nat := 0
  deriving DecidableEq

/-- A fault, and the number of the line it is reported at if there is one. -/
structure Error where
  fault : Fault
  line : Option Nat := none
  deriving DecidableEq

namespace Error

/-- The line of the first of two marks that is below the topmost line. -/
def lineOf? (context place : Mark) : Option Nat :=
  if context.line ≠ 0 then some context.line
  else if place.line ≠ 0 then some place.line
  else none

/-- A fault at a place inside a token that begins at `context`. Nothing on the topmost
line is reported with its number. -/
def atToken (fault : Fault) (context place : Mark) : Error :=
  ⟨fault, (lineOf? context place).map (· + 1)⟩

/-- A fault at a token inside a structure that begins at `context`. It is reported at the
line above. -/
def inStructure (fault : Fault) (context place : Mark) : Error :=
  ⟨fault, lineOf? context place⟩

def message (error : Error) : Bytes :=
  let line :=
    match error.line with
    | some n => utf8 "line " ++ Bytes.decimal n ++ utf8 ": "
    | none => []
  utf8 "yaml: " ++ line ++ error.fault.message

end Error

end LoxMachine.Yaml
