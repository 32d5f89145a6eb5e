import LoxMachine.Yaml.Scalar
import LoxMachine.Yaml.Token

/-!
# From characters to tokens

Whether a token is a key shows only at the colon behind it.  So tokens wait in a
queue, and the key and the start of its mapping are put in front of a token that
turns out to be one.  Columns of lines give the starts and ends of blocks.
-/

namespace LoxMachine.Yaml

/-- A token that a colon may turn into a key: its number and where it begins. It has to be one
if it stands where only keys can. -/
structure KeyStart where
  number : Nat
  mark : Mark
  required : Bool

/-- The tokens that wait, how many were taken before them, and what the next token depends on:
the columns of the blocks it is in, the innermost first; the last token that may begin a key, and
those outside each open bracket; and whether a key may begin. -/
structure Scanner where
  stream : Stream
  queue : List Token := []
  taken : Nat := 0
  columns : List Nat := []
  keyStart : Option KeyStart := none
  outerKeyStarts : List (Option KeyStart) := []
  keyAllowed : Bool := true

namespace Scanner

/-- Whether a bracket is open. -/
def inFlow (sc : Scanner) : Bool :=
  !sc.outerKeyStarts.isEmpty

/-- The first column that belongs to a node inside the innermost block. -/
def innerColumn (sc : Scanner) : Nat :=
  (sc.columns.head?.map (· + 1)).getD 0

def mark (sc : Scanner) : Mark :=
  sc.stream.mark

/-- Appends a token. -/
def push (sc : Scanner) (kind : TokenKind) (start stop : Mark) : Scanner :=
  { sc with queue := sc.queue ++ [⟨kind, start, stop⟩] }

/-- Puts a token in front of the one of this number. -/
def insert (sc : Scanner) (number : Nat) (kind : TokenKind) (mark : Mark) : Scanner :=
  let place := number - sc.taken
  { sc with queue := sc.queue.take place ++ ⟨kind, mark, mark⟩ :: sc.queue.drop place }

/-- The number of the next token. -/
def nextNumber (sc : Scanner) : Nat :=
  sc.taken + sc.queue.length

/-! ## Keys -/

/-- How far a colon can be from the start of its key. -/
def keyLimit : Nat := 1024

/-- Whether a key that began at `key` can still end at `mark`. -/
def reaches (key : KeyStart) (mark : Mark) : Bool :=
  !(key.mark.line < mark.line || key.mark.index + keyLimit < mark.index)

/-- Gives up a key. -/
def abandon (sc : Scanner) (key : KeyStart) : Except Error Unit :=
  if key.required then .error (.atToken .missingColon key.mark sc.mark) else .ok ()

/-- Gives up the last token that may begin a key. -/
def dropKey (sc : Scanner) : Except Error Scanner := do
  match sc.keyStart with
  | some key => sc.abandon key
  | none => pure ()
  return { sc with keyStart := none }

/-- Notes that the next token may begin a key, if it may. -/
def noteKey (sc : Scanner) : Except Error Scanner := do
  if sc.keyAllowed then
    let required := !sc.inFlow && sc.columns.head? = some sc.mark.column
    let cleared ← sc.dropKey
    return { cleared with keyStart := some ⟨sc.nextNumber, sc.mark, required⟩ }
  else return sc

/-- The last token that may begin a key, if it can still be one. -/
def reachableKey (sc : Scanner) : Except Error (Option KeyStart) := do
  match sc.keyStart with
  | none => return none
  | some key =>
      if reaches key sc.mark then return some key
      else
        sc.abandon key
        return none

/-! ## Blocks -/

/-- How many blocks or brackets can be open. -/
def depthLimit : Nat := 10000

/-- Opens a block at a column, unless one is open there. Its first token gets this number. -/
def openBlock (sc : Scanner) (kind : TokenKind) (column number : Nat) (mark : Mark) :
    Except Error Scanner := do
  if sc.inFlow || column < sc.innerColumn then return sc
  else
    let opened := { sc with columns := column :: sc.columns }
    if depthLimit < opened.columns.length then
      throw (.atToken .tooDeep ((sc.keyStart.map KeyStart.mark).getD {}) sc.mark)
    return opened.insert number kind mark

/-- Closes the blocks that lie to the right of a column. -/
def closeBlocks (sc : Scanner) (isOpen : Nat → Bool) (mark : Mark) : Scanner :=
  if sc.inFlow then sc
  else
    let closed := sc.columns.takeWhile fun column => !isOpen column
    { sc with
      columns := sc.columns.drop closed.length
      queue := sc.queue ++ closed.map fun _ => ⟨.blockEnd, mark, mark⟩ }

/-! ## Comments and blanks -/

/-- How many characters behind a token or a comment are searched for a comment. -/
def commentReach : Nat := 511

/-- How many characters there are up to the next comment, if only blanks and line ends stand
before it. -/
def commentDistance? : (limit : Nat) → List Char → Option Nat
  | 0, _ => none
  | _, [] => none
  | limit + 1, c :: rest =>
      if c = '#' then some 0
      else if isBlank c || c = '\r' || c = '\n' then
        (commentDistance? limit rest).map (· + 1)
      else none

/-- Passes blanks and line ends up to the character of this index. -/
def passTo (index : Nat) : (steps : Nat) → Stream → Stream
  | 0, s => s
  | steps + 1, s =>
      if index ≤ s.mark.index then s
      else passTo index steps (if isBreak s.head then s.skipLine else s.skip)

/-- Passes a comment, and those on the lines below it. -/
def passComments : (steps : Nat) → Stream → Except Error Stream
  | 0, s => .ok s
  | steps + 1, s => do
      let s ← s.dropWhile fun c => !isBreakOrEnd c
      if s.head = '\r' || s.head = '\n' then
        match commentDistance? commentReach s.chars.tail with
        | some distance =>
            passComments steps (passTo (s.mark.index + distance + 1) (distance + 1) s)
        | none => return s
      else return s

/-- Passes a comment behind a token on the same line. -/
def passLineComment (s : Stream) : Except Error Stream := do
  if s.lineStart then return s
  let blanks := (s.chars.takeWhile isBlank).length
  if blanks ≤ commentReach && s.ahead blanks = '#' then
    (Stream.skipMany blanks s).dropWhile fun c => !isBreakOrEnd c
  else return s

/-- Passes blanks, comments and line ends before the next token. A tab is no blank where a key
may begin, and a key may begin on a new line. -/
def passBlanks : (steps : Nat) → Scanner → Except Error Scanner
  | 0, sc => .ok sc
  | steps + 1, sc => do
      sc.stream.require 1
      let s := sc.stream
      let s := if s.mark.column = 0 && s.head = '\ufeff' then s.skip else s
      let tabs := sc.inFlow || !sc.keyAllowed
      let s ← s.dropWhile fun c => c = ' ' || (tabs && c = '\t')
      let s ← if s.head = '#' then passComments (s.chars.length + 1) s else pure s
      if isBreak s.head then
        s.require 2
        passBlanks steps { sc with stream := s.skipLine, keyAllowed := sc.keyAllowed || !sc.inFlow }
      else return { sc with stream := s }

/-! ## Single tokens -/

/-- Appends an indicator of this many characters. -/
def pushIndicator (sc : Scanner) (kind : TokenKind) (width : Nat) : Scanner :=
  let s := Stream.skipMany width sc.stream
  { sc with stream := s }.push kind sc.mark s.mark

/-- The end of all. -/
def fetchEnd (sc : Scanner) : Except Error Scanner := do
  let mark := sc.mark
  let mark := if mark.column = 0 then mark else { mark with line := mark.line + 1, column := 0 }
  let sc := { sc with stream := { sc.stream with mark := mark } }
  let sc ← (sc.closeBlocks (fun _ => false) mark).dropKey
  return { sc with keyAllowed := false }.push .streamEnd mark mark

def fetchDirective (sc : Scanner) : Except Error Scanner := do
  let sc ← (sc.closeBlocks (fun _ => false) sc.mark).dropKey
  let (token, s) ← readDirective sc.stream
  return { sc with keyAllowed := false, stream := s, queue := sc.queue ++ [token] }

def fetchDocumentMark (sc : Scanner) : Except Error Scanner := do
  let kind := if sc.stream.head = '-' then TokenKind.documentStart else .documentEnd
  let sc ← (sc.closeBlocks (fun _ => false) sc.mark).dropKey
  return { sc with keyAllowed := false }.pushIndicator kind 3

/-- An opening bracket. -/
def fetchOpening (sc : Scanner) (kind : TokenKind) : Except Error Scanner := do
  let sc ← sc.noteKey
  let outer := sc.keyStart :: sc.outerKeyStarts
  if depthLimit < outer.length then throw (.atToken .tooDeep sc.mark sc.mark)
  let inside := { sc with keyStart := none, outerKeyStarts := outer, keyAllowed := true }
  return inside.pushIndicator kind 1

/-- A closing bracket. -/
def fetchClosing (sc : Scanner) (kind : TokenKind) : Except Error Scanner := do
  let sc ← sc.dropKey
  let sc :=
    match sc.outerKeyStarts with
    | key :: outer => { sc with keyStart := key, outerKeyStarts := outer }
    | [] => sc
  return { sc with keyAllowed := false }.pushIndicator kind 1

def fetchFlowEntry (sc : Scanner) : Except Error Scanner := do
  let sc ← sc.dropKey
  return { sc with keyAllowed := true }.pushIndicator .flowEntry 1

def fetchBlockEntry (sc : Scanner) : Except Error Scanner := do
  if !sc.inFlow && !sc.keyAllowed then
    throw (.atToken .blockEntryNotAllowed sc.mark sc.mark)
  let sc ← sc.openBlock .blockSequenceStart sc.mark.column sc.nextNumber sc.mark
  let sc ← sc.dropKey
  return { sc with keyAllowed := true }.pushIndicator .blockEntry 1

/-- A question mark, which announces a key. -/
def fetchKey (sc : Scanner) : Except Error Scanner := do
  if !sc.inFlow && !sc.keyAllowed then throw (.atToken .keyNotAllowed sc.mark sc.mark)
  let sc ← sc.openBlock .blockMappingStart sc.mark.column sc.nextNumber sc.mark
  let sc ← sc.dropKey
  return { sc with keyAllowed := !sc.inFlow }.pushIndicator .key 1

/-- A colon. It makes a key of the token that may be one, else it follows a question mark. -/
def fetchValue (sc : Scanner) : Except Error Scanner := do
  match ← sc.reachableKey with
  | some key =>
      let sc := sc.insert key.number .key key.mark
      let sc ← sc.openBlock .blockMappingStart key.mark.column key.number key.mark
      return { sc with keyStart := none, keyAllowed := false }.pushIndicator .value 1
  | none =>
      if !sc.inFlow && !sc.keyAllowed then throw (.atToken .valueNotAllowed sc.mark sc.mark)
      let sc := { sc with keyStart := none }
      let sc ← sc.openBlock .blockMappingStart sc.mark.column sc.nextNumber sc.mark
      return { sc with keyAllowed := !sc.inFlow }.pushIndicator .value 1

/-- A token that `read` gets from the characters, and that may begin a key. -/
def fetchContent (sc : Scanner) (read : Stream → Except Error (TokenKind × Stream)) :
    Except Error Scanner := do
  let sc ← sc.noteKey
  let (kind, s) ← read sc.stream
  return { sc with stream := s, keyAllowed := false }.push kind sc.mark s.mark

def fetchAnchor (sc : Scanner) (kind : Bytes → TokenKind) : Except Error Scanner :=
  sc.fetchContent fun s => do
    let (name, s) ← readAnchor s
    return (kind name, s)

def fetchTag (sc : Scanner) : Except Error Scanner :=
  sc.fetchContent fun s => do
    let (handle, suffix, s) ← readTag s
    return (.tag handle suffix, s)

def fetchQuoted (sc : Scanner) (single : Bool) : Except Error Scanner :=
  sc.fetchContent fun s => do
    let (text, s) ← readQuoted single s
    return (.scalar false (textBytes text), s)

/-- A plain scalar. A key may begin behind it if lines were passed. -/
def fetchPlain (sc : Scanner) : Except Error Scanner := do
  let sc ← sc.noteKey
  let (scalar, s) ← readPlain sc.inFlow sc.innerColumn sc.stream
  return { sc with stream := s, keyAllowed := scalar.broken }.push
    (.scalar true (textBytes scalar.text)) sc.mark s.mark

def fetchBlockScalar (sc : Scanner) (folded : Bool) : Except Error Scanner := do
  let sc ← sc.dropKey
  let (text, s) ← readBlock folded sc.columns.head? sc.stream
  return { sc with stream := s, keyAllowed := true }.push
    (.scalar false (textBytes text)) sc.mark s.mark

/-- Whether a plain scalar may begin with a character that `next` follows. -/
def startsPlain (flow : Bool) (c next : Char) : Bool :=
  if c = '-' then !isBlank next
  else if c = '?' || c = ':' then !flow && !isBlankOrEnd next
  else
    !(isBlankOrEnd c || [',', '[', ']', '\x7b', '\x7d', '#', '&', '*', '!', '|', '>', '\'', '"',
      '%', '@', '\x60'].contains c)

/-- The token that begins with the next character. -/
def fetchToken (sc : Scanner) : Except Error Scanner :=
  let c := sc.stream.head
  let next := sc.stream.ahead 1
  let standsAlone := isBlankOrEnd next
  match c with
  | '[' => sc.fetchOpening .flowSequenceStart
  | '\x7b' => sc.fetchOpening .flowMappingStart
  | ']' => sc.fetchClosing .flowSequenceEnd
  | '\x7d' => sc.fetchClosing .flowMappingEnd
  | ',' => sc.fetchFlowEntry
  | '*' => sc.fetchAnchor .alias
  | '&' => sc.fetchAnchor .anchor
  | '!' => sc.fetchTag
  | '\'' => sc.fetchQuoted true
  | '"' => sc.fetchQuoted false
  | c =>
      if c = '-' && standsAlone then sc.fetchBlockEntry
      else if c = '?' && (sc.inFlow || standsAlone) then sc.fetchKey
      else if c = ':' && (sc.inFlow || standsAlone) then sc.fetchValue
      else if c = '|' && !sc.inFlow then sc.fetchBlockScalar false
      else if c = '>' && !sc.inFlow then sc.fetchBlockScalar true
      else if startsPlain sc.inFlow c next then sc.fetchPlain
      else .error (.atToken .noTokenStart sc.mark sc.mark)

/-- Appends the next token, with the ends of blocks before it, and passes a comment behind
it. The comment behind a dash is left to what the dash begins. -/
def fetch (sc : Scanner) : Except Error Scanner := do
  let before := sc.mark
  let sc ← passBlanks (sc.stream.chars.length + 1) sc
  let sc := sc.closeBlocks (fun column => column ≤ sc.mark.column) before
  sc.stream.require 4
  if sc.stream.head = eof then sc.fetchEnd
  else if sc.mark.column = 0 && sc.stream.head = '%' then sc.fetchDirective
  else if sc.stream.atDocumentMark then sc.fetchDocumentMark
  else
    let sc ← sc.fetchToken
    if sc.queue.getLast?.any fun token => token.kind = .blockEntry then return sc
    return { sc with stream := ← passLineComment sc.stream }

/-! ## The queue -/

/-- How many tokens wait at least. -/
def lookahead : Nat := 3

/-- Whether the first token in the queue may still become a key. -/
def headIsOpen (sc : Scanner) : Except Error Bool := do
  match (sc.keyStart :: sc.outerKeyStarts).find? fun key =>
      key.any fun start => start.number = sc.taken with
  | some (some key) =>
      if reaches key sc.mark then return true
      else
        sc.abandon key
        return false
  | _ => return false

/-- Appends tokens until it is known what the first one is. -/
def fill : (steps : Nat) → Scanner → Except Error Scanner
  | 0, sc => .ok sc
  | steps + 1, sc => do
      let enough ← if sc.queue.length < lookahead then pure false else (! ·) <$> sc.headIsOpen
      if enough then return sc else fill steps (← sc.fetch)

/-- The first token, with the tokens that wait behind it. -/
def peek (sc : Scanner) : Except Error (Token × Scanner) := do
  let sc ← fill (sc.stream.chars.length + lookahead + 1) sc
  return (sc.queue.headD ⟨.streamEnd, sc.mark, sc.mark⟩, sc)

/-- Takes the first token away. -/
def advance (sc : Scanner) : Scanner :=
  { sc with queue := sc.queue.tail, taken := sc.taken + 1 }

/-- The tokens of a text. -/
def ofBytes (text : Bytes) : Scanner :=
  { stream := Stream.ofBytes text }

end Scanner

end LoxMachine.Yaml
