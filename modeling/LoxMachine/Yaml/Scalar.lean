import LoxMachine.Yaml.Stream

/-!
# Scalars

The three ways to write a scalar: plain, between quotes, and as a block of
indented lines.  Each gives the text that it stands for and the characters after
it.
-/

namespace LoxMachine.Yaml

/-! ## Blanks and line ends inside a scalar -/

/-- What stands between two runs of characters: blanks, or line ends, of which the first may
have been taken back by an escape. -/
structure Gap where
  blanks : List Char := []
  broken : Bool := false
  firstBreak : Option Char := none
  otherBreaks : List Char := []

namespace Gap

/-- A gap as it counts in the text: one line feed is a space, of more the first is lost. -/
def text (gap : Gap) : List Char :=
  if gap.broken then
    match gap.firstBreak with
    | some '\n' => if gap.otherBreaks.isEmpty then [' '] else gap.otherBreaks
    | some c => c :: gap.otherBreaks
    | none => gap.otherBreaks
  else gap.blanks

/-- Adds the end of a line. -/
def addBreak (gap : Gap) (c : Char) : Gap :=
  let c := Stream.breakChar c
  if gap.broken then { gap with otherBreaks := gap.otherBreaks ++ [c] }
  else ⟨[], true, some c, []⟩

/-- Adds a blank. Blanks at the start of a line do not count. -/
def addBlank (gap : Gap) (c : Char) : Gap :=
  if gap.broken then gap else { gap with blanks := gap.blanks ++ [c] }

/-- Reads blanks and line ends. After a line end no tab may stand before column `indent` in a
scalar that began at `start`. -/
def read (start : Mark) (indent : Nat) : (steps : Nat) → Gap → Stream →
    Except Error (Gap × Stream)
  | 0, gap, s => .ok (gap, s)
  | steps + 1, gap, s => do
      s.require 2
      if isBlank s.head then
        if gap.broken && s.mark.column < indent && s.head = '\t' then
          throw (.atToken .tabBeforeText start s.mark)
        read start indent steps (gap.addBlank s.head) s.skip
      else if isBreak s.head then
        read start indent steps (gap.addBreak s.head) s.skipLine
      else return (gap, s)

end Gap

/-! ## Plain scalars -/

/-- Characters that end a plain scalar between brackets. -/
def endsFlowScalar (c : Char) : Bool :=
  c = ',' || c = '?' || c = '[' || c = ']' || c = '\x7b' || c = '\x7d'

/-- How many characters belong to a plain scalar before the next blank. -/
def plainLength (flow : Bool) : List Char → Nat
  | [] => 0
  | c :: rest =>
      if isBlankOrEnd c || (c = ':' && isBlankOrEnd (rest.headD eof))
          || (flow && endsFlowScalar c) then 0
      else plainLength flow rest + 1

/-- A plain scalar as it was read: its text, and whether lines were passed after it. -/
structure PlainScalar where
  text : List Char
  broken : Bool

/-- Reads on in a plain scalar, after the text `before` and a gap. Outside brackets its lines are
indented to column `indent`. -/
def readPlainRuns (flow : Bool) (indent : Nat) (start : Mark) : (steps : Nat) →
    (before : List Char) → Gap → Stream → Except Error (PlainScalar × Stream)
  | 0, before, gap, s => .ok (⟨before, gap.broken⟩, s)
  | steps + 1, before, gap, s => do
      s.require 4
      if s.atDocumentMark || s.head = '#' then return (⟨before, gap.broken⟩, s)
      let length := plainLength flow s.chars
      let run := s.chars.take length
      let s := Stream.skipMany length s
      s.require 2
      let text := if run.isEmpty then before else before ++ gap.text ++ run
      let gap := if run.isEmpty then gap else {}
      if !(isBlank s.head || isBreak s.head) then return (⟨text, gap.broken⟩, s)
      let (gap, s) ← Gap.read start indent (s.chars.length + 1) gap s
      if !flow && s.mark.column < indent then return (⟨text, gap.broken⟩, s)
      readPlainRuns flow indent start steps text gap s

/-- Reads a plain scalar. -/
def readPlain (flow : Bool) (indent : Nat) (s : Stream) : Except Error (PlainScalar × Stream) :=
  readPlainRuns flow indent s.mark (s.chars.length + 1) [] {} s

/-! ## Quoted scalars -/

/-- What an escape of one character stands for. -/
def simpleEscape? (c : Char) : Option Char :=
  match c with
  | '0' => some '\x00'
  | 'a' => some '\x07'
  | 'b' => some '\x08'
  | 't' => some '\t'
  | '\t' => some '\t'
  | 'n' => some '\n'
  | 'v' => some '\x0b'
  | 'f' => some '\x0c'
  | 'r' => some '\r'
  | 'e' => some '\x1b'
  | ' ' => some ' '
  | '"' => some '"'
  | '\'' => some '\''
  | '\\' => some '\\'
  | 'N' => some '\u0085'
  | '_' => some '\u00a0'
  | 'L' => some '\u2028'
  | 'P' => some '\u2029'
  | _ => none

/-- How many hexadecimal digits an escape has. -/
def escapeDigits? (c : Char) : Option Nat :=
  match c with
  | 'x' => some 2
  | 'u' => some 4
  | 'U' => some 8
  | _ => none

/-- Reads a character given by hexadecimal digits. -/
def readCode (start : Mark) (digits : Nat) (s : Stream) : Except Error (Char × Stream) := do
  s.require digits
  match (s.chars.take digits).mapM hexValue? with
  | none => throw (.atToken .hexadecimalExpected start s.mark)
  | some values =>
      if values.length < digits then throw (.atToken .hexadecimalExpected start s.mark)
      let code := values.foldl (fun n d => 16 * n + d) 0
      if (0xD800 ≤ code && code ≤ 0xDFFF) || 0x10FFFF < code then
        throw (.atToken .escapedSurrogate start s.mark)
      return (Char.ofNat code, Stream.skipMany digits s)

/-- Reads an escape, which begins with a backslash. -/
def readEscape (start : Mark) (s : Stream) : Except Error (Char × Stream) :=
  let c := s.ahead 1
  match simpleEscape? c, escapeDigits? c with
  | some meant, _ => .ok (meant, s.skip.skip)
  | none, some digits => readCode start digits s.skip.skip
  | none, none => .error (.atToken .unknownEscape start s.mark)

/-- Reads characters between quotes up to a blank, the closing quote, or an escaped line end,
which it also reads. The characters before them are given last first. -/
def readQuotedRun (single : Bool) (start : Mark) : (steps : Nat) → (before : List Char) →
    Stream → Except Error (List Char × Gap × Stream)
  | 0, before, s => .ok (before.reverse, {}, s)
  | steps + 1, before, s => do
      s.require 2
      let c := s.head
      if isBlankOrEnd c then return (before.reverse, {}, s)
      else if single && c = '\'' then
        if s.ahead 1 = '\'' then readQuotedRun single start steps ('\'' :: before) s.skip.skip
        else return (before.reverse, {}, s)
      else if !single && c = '"' then return (before.reverse, {}, s)
      else if !single && c = '\\' then
        if isBreak (s.ahead 1) then
          s.require 3
          return (before.reverse, { broken := true }, s.skip.skipLine)
        else
          let (meant, s) ← readEscape start s
          readQuotedRun single start steps (meant :: before) s
      else readQuotedRun single start steps (c :: before) s.skip

/-- Reads on between quotes, up to and with the closing one. -/
def readQuotedRuns (single : Bool) (start : Mark) : (steps : Nat) → (before : List Char) →
    Stream → Except Error (List Char × Stream)
  | 0, before, s => .ok (before, s)
  | steps + 1, before, s => do
      s.require 4
      if s.atDocumentMark then throw (.atToken .documentInQuotes start s.mark)
      if s.head = eof then throw (.atToken .endInQuotes start s.mark)
      let (run, gap, s) ← readQuotedRun single start (s.chars.length + 1) [] s
      s.require 1
      if s.head = (if single then '\'' else '"') then return (before ++ run, s.skip)
      let (gap, s) ← Gap.read start 0 (s.chars.length + 1) gap s
      readQuotedRuns single start steps (before ++ run ++ gap.text) s

/-- Reads a scalar between single or double quotes. -/
def readQuoted (single : Bool) (s : Stream) : Except Error (List Char × Stream) :=
  readQuotedRuns single s.mark (s.chars.length + 1) [] s.skip

/-! ## Block scalars -/

/-- What becomes of the line ends after a block. -/
inductive Chomping where
  | clip
  | strip
  | keep
  deriving DecidableEq

/-- How a block is laid out: what becomes of its end, and how far it is indented beyond what
it stands in, if that is said. -/
structure BlockHeader where
  chomping : Chomping := .clip
  increment : Option Nat := none

/-- Reads a mark for the end of a block, if there is one. -/
def readChomping (header : BlockHeader) (s : Stream) : BlockHeader × Stream :=
  if s.head = '+' then ({ header with chomping := .keep }, s.skip)
  else if s.head = '-' then ({ header with chomping := .strip }, s.skip)
  else (header, s)

/-- Reads a digit for the indentation, if there is one. -/
def readIncrement (start : Mark) (header : BlockHeader) (s : Stream) :
    Except Error (BlockHeader × Stream) :=
  if s.head = '0' then .error (.atToken .zeroIndentation start s.mark)
  else if s.head.isDigit then
    .ok ({ header with increment := some (s.head.toNat - 48) }, s.skip)
  else .ok (header, s)

/-- Reads the two in either order. -/
def readBlockHeader (start : Mark) (s : Stream) : Except Error (BlockHeader × Stream) := do
  s.require 2
  if s.head = '+' || s.head = '-' then
    let (header, s) := readChomping {} s
    readIncrement start header s
  else
    let (header, s) ← readIncrement start {} s
    return if header.increment.isSome then readChomping header s else (header, s)

/-- The line ends before the next line of a block, and the deepest indentation met on the way.
Where the indentation is not known all spaces belong to it. -/
def readBlockBreaks (start : Mark) (indent : Option Nat) : (steps : Nat) → (breaks : List Char) →
    (deepest : Nat) → Stream → Except Error (List Char × Nat × Stream)
  | 0, breaks, deepest, s => .ok (breaks, deepest, s)
  | steps + 1, breaks, deepest, s => do
      let inside : Nat → Bool := fun column => indent.all fun limit => column < limit
      let spaces := (s.chars.takeWhile (· = ' ')).length
      let spaces := match indent with
        | some limit => min spaces (limit - s.mark.column)
        | none => spaces
      let s := Stream.skipMany spaces s
      s.require 2
      let deepest := max deepest s.mark.column
      if inside s.mark.column && s.head = '\t' then
        throw (.atToken .tabInIndentation start s.mark)
      if isBreak s.head then
        readBlockBreaks start indent steps (breaks ++ [Stream.breakChar s.head]) deepest s.skipLine
      else return (breaks, deepest, s)

/-- The lines of a block so far: its text, the end of its last line, the empty lines after
that, and whether that line begins with a blank. -/
structure BlockText where
  text : List Char := []
  lastBreak : List Char := []
  emptyLines : List Char := []
  blank : Bool := false

/-- Adds a line. In a folded block a line end between two lines that begin with no blank is a
space, or nothing if empty lines follow it. -/
def BlockText.addLine (folded : Bool) (block : BlockText) (line : List Char) : BlockText :=
  let blank := line.head?.any isBlank
  let joint :=
    if folded && !block.blank && !blank && block.lastBreak.head? = some '\n' then
      if block.emptyLines.isEmpty then [' '] else []
    else block.lastBreak
  { text := block.text ++ joint ++ block.emptyLines ++ line
    blank := blank }

/-- The text of a block with the end it is to have. -/
def BlockText.finish (chomping : Chomping) (block : BlockText) : List Char :=
  match chomping with
  | .strip => block.text
  | .clip => block.text ++ block.lastBreak
  | .keep => block.text ++ block.lastBreak ++ block.emptyLines

/-- Reads the lines of a block that are indented to column `indent`. -/
def readBlockLines (folded : Bool) (start : Mark) (indent : Nat) : (steps : Nat) → BlockText →
    Stream → Except Error (BlockText × Stream)
  | 0, block, s => .ok (block, s)
  | steps + 1, block, s => do
      if s.mark.column ≠ indent || s.head = eof then return (block, s)
      let (line, s) ← s.takeWhile fun c => !isBreakOrEnd c
      s.require 2
      let lineBreak := if isBreak s.head then [Stream.breakChar s.head] else []
      let s := if isBreak s.head then s.skipLine else s
      let (breaks, _, s) ← readBlockBreaks start (some indent) (s.chars.length + 1) [] 0 s
      let block := { block.addLine folded line with lastBreak := lineBreak, emptyLines := breaks }
      readBlockLines folded start indent steps block s

/-- Reads a block scalar inside what is indented to column `outer`, if anything is. -/
def readBlock (folded : Bool) (outer : Option Nat) (s : Stream) :
    Except Error (List Char × Stream) := do
  let start := s.mark
  let (header, s) ← readBlockHeader start s.skip
  let s ← s.passLineEnd start
  let indent := header.increment.map (outer.getD 0 + ·)
  let (breaks, deepest, s) ← readBlockBreaks start indent (s.chars.length + 1) [] 0 s
  let least := max 1 ((outer.map (· + 1)).getD 0)
  let indent := indent.getD (max deepest least)
  let (block, s) ← readBlockLines folded start indent (s.chars.length + 1)
    { emptyLines := breaks } s
  return (block.finish header.chomping, s)

end LoxMachine.Yaml
