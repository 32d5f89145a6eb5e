import LoxMachine.Pattern.Class

/-!
# Reading patterns

A pattern is read from left to right.  Groups that are still open wait, each with
what was read before it.  Every error names the part of the text to blame.
-/

namespace LoxMachine.Pattern

/-! ## Problems -/

/-- Why a text is no pattern, with the part that is to blame. -/
inductive Problem where
  | missingBracket (part : Bytes)
  | missingParen (part : Bytes)
  | unexpectedParen (part : Bytes)
  | missingArgument (part : Bytes)
  | nestedRepetition (part : Bytes)
  | repeatCount (part : Bytes)
  | invalidEscape (part : Bytes)
  | trailingBackslash
  | invalidRange (part : Bytes)
  | invalidGroup (part : Bytes)
  | invalidName (part : Bytes)
  | notUtf8 (part : Bytes)
  deriving DecidableEq

/-- The name of a problem and the part to blame. -/
def Problem.parts : Problem → Bytes × Bytes
  | .missingBracket part => (utf8 "missing closing ]", part)
  | .missingParen part => (utf8 "missing closing )", part)
  | .unexpectedParen part => (utf8 "unexpected )", part)
  | .missingArgument part => (utf8 "missing argument to repetition operator", part)
  | .nestedRepetition part => (utf8 "invalid nested repetition operator", part)
  | .repeatCount part => (utf8 "invalid repeat count", part)
  | .invalidEscape part => (utf8 "invalid escape sequence", part)
  | .trailingBackslash => (utf8 "trailing backslash at end of expression", [])
  | .invalidRange part => (utf8 "invalid character class range", part)
  | .invalidGroup part => (utf8 "invalid or unsupported Perl syntax", part)
  | .invalidName part => (utf8 "invalid named capture", part)
  | .notUtf8 part => (utf8 "invalid UTF-8", part)

def Problem.message (problem : Problem) : Bytes :=
  let (name, part) := problem.parts
  utf8 "error parsing regexp: " ++ name ++ utf8 ": `" ++ part ++ utf8 "`"

/-! ## Characters -/

/-- The characters of a text, each with its code point, if it has one, and its bytes. -/
abbrev Chars := List (Option Nat × Bytes)

/-- The bytes of characters. -/
def Chars.bytes (cs : Chars) : Bytes :=
  cs.flatMap Prod.snd

/-- The bytes of `cs` before its end `rest`. -/
def Chars.before (cs rest : Chars) : Bytes :=
  Chars.bytes (cs.take (cs.length - rest.length))

/-- The code point of the first character, if there is one. -/
def Chars.code? (cs : Chars) : Option Nat :=
  cs.head?.bind Prod.fst

/-- The first character and the rest. -/
def nextCode (cs : Chars) : Except Problem (Option Nat × Chars) :=
  match cs with
  | [] => .ok (none, [])
  | (some code, _) :: rest => .ok (some code, rest)
  | (none, _) :: _ => .error (.notUtf8 (Chars.bytes cs))

/-- Whether a code point is an ASCII letter or digit. -/
def isAlphanumeric (code : Nat) : Bool :=
  (48 ≤ code && code ≤ 57) || (65 ≤ code && code ≤ 90) || (97 ≤ code && code ≤ 122)

def hexValue? (code : Nat) : Option Nat :=
  if 48 ≤ code && code ≤ 57 then some (code - 48)
  else if 97 ≤ code && code ≤ 102 then some (code - 87)
  else if 65 ≤ code && code ≤ 70 then some (code - 55)
  else none

/-! ## Escapes -/

/-- Up to `count` octal digits after the value of others. -/
def octalDigits : (count : Nat) → (value : Nat) → Chars → Nat × Chars
  | 0, value, cs => (value, cs)
  | count + 1, value, cs =>
      match cs with
      | (some code, _) :: rest =>
          if 48 ≤ code && code ≤ 55 then octalDigits count (8 * value + (code - 48)) rest
          else (value, cs)
      | _ => (value, cs)

/-- A number in braces, after the value of digits that were read; the escape is wrong if there
is none. `whole` begins with the backslash. -/
def bracedCode (whole : Chars) : (value : Option Nat) → Chars → Except Problem (Nat × Chars)
  | _, [] => .error (.invalidEscape (Chars.bytes whole))
  | _, (none, bytes) :: rest => .error (.notUtf8 (Chars.bytes ((none, bytes) :: rest)))
  | value, (some code, _) :: rest =>
      if code = 125 then
        match value with
        | some n => .ok (n, rest)
        | none => .error (.invalidEscape (whole.before rest))
      else
        match hexValue? code with
        | none => .error (.invalidEscape (whole.before rest))
        | some d =>
            let n := 16 * value.getD 0 + d
            if lastCode < n then .error (.invalidEscape (whole.before rest))
            else bracedCode whole (some n) rest

/-- A character given by hexadecimal digits: two, or any number in braces. -/
def hexCode (whole : Chars) (cs : Chars) : Except Problem (Nat × Chars) := do
  let (first, rest) ← nextCode cs
  if first = some 123 then bracedCode whole none rest
  else
    let (second, after) ← if first.isNone then pure (none, rest) else nextCode rest
    match first.bind hexValue?, second.bind hexValue? with
    | some a, some b => return (16 * a + b, after)
    | _, _ => throw (.invalidEscape (whole.before after))

/-- The character that a letter behind a backslash stands for. -/
def letterCode? (code : Nat) : Option Nat :=
  match code with
  | 97 => some 7
  | 102 => some 12
  | 110 => some 10
  | 114 => some 13
  | 116 => some 9
  | 118 => some 11
  | _ => none

/-- The character that an escape stands for. `whole` begins with the backslash. -/
def escapedCode (whole : Chars) : Except Problem (Nat × Chars) := do
  let (code?, rest) ← nextCode whole.tail
  match code? with
  | none => throw .trailingBackslash
  | some code =>
      let invalid := Problem.invalidEscape (whole.before rest)
      if code < 0x80 && !isAlphanumeric code then return (code, rest)
      else if code = 48 then return octalDigits 2 0 rest
      else if 49 ≤ code && code ≤ 55 then
        if rest.code?.any fun next => 48 ≤ next && next ≤ 55 then
          return octalDigits 2 (code - 48) rest
        else throw invalid
      else if code = 120 then
        if rest.isEmpty then throw invalid else hexCode whole rest
      else
        match letterCode? code with
        | some meant => return (meant, rest)
        | none => throw invalid

/-- The set that `\p` and a name stand for. Only the set of all characters has a name. `whole`
begins with the backslash. -/
def propertyClass (whole : Chars) : Except Problem (Ranges × Chars) := do
  let negative := Chars.code? whole.tail = some 80
  let (first, rest) ← nextCode (whole.drop 2)
  let (part, name, after) ←
    if first = some 123 then
      match whole.span fun c => c.1 ≠ some 125 with
      | (inside, closing :: after) =>
          pure (Chars.bytes (inside ++ [closing]), Chars.bytes (inside.drop 3), after)
      | (_, []) => throw (.invalidRange (Chars.bytes whole))
    else pure (whole.before rest, Chars.bytes ((whole.drop 2).take 1), rest)
  let inverted := name.head? = some 94
  let name := if inverted then name.drop 1 else name
  if name = utf8 "Any" then
    return (if negative != inverted then [] else [(0, lastCode)], after)
  else throw (.invalidRange part)

/-! ## Sets -/

/-- What stands before the next colon with a closing bracket behind it, and what stands after
the two. -/
def splitAtColon? : Chars → Option (Chars × Chars)
  | [] => none
  | (some 58, _) :: (some 93, _) :: rest => some ([], rest)
  | c :: rest => (splitAtColon? rest).map fun (inside, after) => (c :: inside, after)

/-- A set with a name between colons, if the text begins with one. -/
def namedSet? (fold : Bool) (cs : Chars) : Except Problem (Option (Ranges × Chars)) :=
  match cs with
  | (some 91, _) :: (some 58, _) :: rest =>
      match splitAtColon? rest with
      | none => .ok none
      | some (name, after) =>
          match namedClass? fold name.bytes with
          | some ranges => .ok (some (ranges, after))
          | none => .error (.invalidRange (cs.before after))
  | _ => .ok none

/-- A set that stands for itself inside brackets, if the text begins with one. -/
def innerSet? (fold : Bool) (cs : Chars) : Except Problem (Option (Ranges × Chars)) := do
  match ← namedSet? fold cs with
  | some found => return some found
  | none =>
      match cs with
      | (some 92, _) :: (some code, _) :: rest =>
          if code = 112 || code = 80 then some <$> propertyClass cs
          else return (letterClass? fold code).map fun ranges => (ranges, rest)
      | _ => return none

/-- One end of a range inside brackets. `whole` is the text from the opening bracket on. -/
def rangeEnd (whole cs : Chars) : Except Problem (Nat × Chars) := do
  if cs.isEmpty then throw (.missingBracket whole.bytes)
  else if cs.code? = some 92 then escapedCode cs
  else
    let (code, rest) ← nextCode cs
    return (code.getD 0, rest)

/-- One character or range inside brackets. -/
def innerRange (whole cs : Chars) : Except Problem ((Nat × Nat) × Chars) := do
  let (low, after) ← rangeEnd whole cs
  match after with
  | (some 45, _) :: next :: more =>
      if next.1 = some 93 then return ((low, low), after)
      let (high, rest) ← rangeEnd whole (next :: more)
      if high < low then throw (.invalidRange (cs.before rest))
      return ((low, high), rest)
  | _ => return ((low, low), after)

/-- What stands between brackets, and the text after the closing one. A bracket that closes right
away is a member. -/
def bracketRanges (fold : Bool) (whole : Chars) : (steps : Nat) → (first : Bool) →
    (found : Ranges) → Chars → Except Problem (Ranges × Chars)
  | 0, _, found, cs => .ok (found, cs)
  | steps + 1, first, found, cs => do
      if cs.code? = some 93 && !first then return (found, cs.tail)
      match ← innerSet? fold cs with
      | some (ranges, rest) => bracketRanges fold whole steps false (found ++ ranges) rest
      | none =>
          let (range, rest) ← innerRange whole cs
          bracketRanges fold whole steps false (found ++ foldIf fold [range]) rest

/-- A set in brackets, of which `whole` begins with the first. -/
def bracketSet (fold : Bool) (whole : Chars) : Except Problem (Pattern × Chars) := do
  let negated := Chars.code? whole.tail = some 94
  let inside := if negated then whole.drop 2 else whole.drop 1
  let (ranges, rest) ← bracketRanges fold whole (inside.length + 1) true [] inside
  return (.chars negated ranges, rest)

/-! ## Open groups -/

/-- What letters between a question mark and a colon can change: whether case counts, whether the
ends of lines count as ends, and whether a dot is also a line feed. -/
structure Flags where
  fold : Bool := false
  lines : Bool := false
  dotAll : Bool := false

/-- A part of a pattern: its alternatives that are complete, and the items of the next one, all
last first. -/
structure Group where
  alternatives : List Pattern := []
  items : List Pattern := []

/-- The pattern of some items in order. -/
def ofItems : List Pattern → Pattern
  | [] => .empty
  | [item] => item
  | item :: rest => .seq item (ofItems rest)

/-- The pattern of some alternatives. -/
def ofAlternatives : List Pattern → Pattern
  | [] => .empty
  | [item] => item
  | item :: rest => .alt item (ofAlternatives rest)

namespace Group

def add (group : Group) (p : Pattern) : Group :=
  { group with items := p :: group.items }

/-- Begins the next alternative. -/
def split (group : Group) : Group :=
  ⟨ofItems group.items.reverse :: group.alternatives, []⟩

def pattern (group : Group) : Pattern :=
  ofAlternatives (group.split.alternatives.reverse)

end Group

/-- What was read so far: the innermost group, the groups around it with the flags that were set
in them, the flags that are set now, and the text from the last item on if that is a
repetition. -/
structure Progress where
  group : Group := {}
  outer : List (Group × Flags) := []
  flags : Flags := {}
  lastRepeat : Option Chars := none

namespace Progress

/-- Adds an item that is no repetition. -/
def add (state : Progress) (p : Pattern) : Progress :=
  { state with group := state.group.add p, lastRepeat := none }

/-- Adds a character. -/
def addCode (state : Progress) (code : Nat) : Progress :=
  state.add (.chars false (foldIf state.flags.fold (single code)))

/-- Opens a group, inside which other flags are set. -/
def openGroup (state : Progress) (flags : Flags) : Progress :=
  ⟨{}, (state.group, state.flags) :: state.outer, flags, none⟩

/-- Closes the innermost group, if one is open. -/
def closeGroup? (state : Progress) : Option Progress :=
  match state.outer with
  | [] => none
  | (group, flags) :: outer => some ⟨group.add state.group.pattern, outer, flags, none⟩

end Progress

/-! ## Repetition -/

/-- The most copies a repetition can ask for, with those inside it. -/
def copyLimit : Nat := 1000

/-- Whether repetitions ask for at most this many copies. -/
def fits : Pattern → (limit : Nat) → Bool
  | .seq first second, limit => fits first limit && fits second limit
  | .alt first second, limit => fits first limit && fits second limit
  | .many inner, limit => fits inner limit
  | .opt inner, limit => fits inner limit
  | .times least most inner, limit =>
      let copies := most.getD least
      if most = some 0 then true
      else if limit < copies then false
      else fits inner (if copies = 0 then limit else limit / copies)
  | _, _ => true

/-- Drops the mark of a lazy repetition, which matches the same texts. -/
def dropLazy (cs : Chars) : Chars :=
  if cs.code? = some 63 then cs.tail else cs

/-- Repeats the last item. The operator begins at `cs` and ends before `after`. -/
def repeatLast (state : Progress) (op : Pattern → Pattern) (counted : Bool) (cs after : Chars) :
    Except Problem (Progress × Chars) := do
  let after := dropLazy after
  if let some earlier := state.lastRepeat then
    throw (.nestedRepetition (earlier.before after))
  match state.group.items with
  | [] => throw (.missingArgument (cs.before after))
  | item :: items =>
      let repeated := op item
      if counted && !fits repeated copyLimit then throw (.repeatCount (cs.before after))
      return ({ state with
        group := { state.group with items := repeated :: items }
        lastRepeat := some cs }, after)

/-- A number without zeros in front. -/
def count? (cs : Chars) : Option (Nat × Chars) :=
  let isDigit : Option Nat × Bytes → Bool := fun c =>
    c.1.any fun code => 48 ≤ code && code ≤ 57
  let digits := cs.takeWhile isDigit
  if digits.isEmpty || (1 < digits.length && Chars.code? digits = some 48) then none
  else
    let value := digits.foldl (fun n c => 10 * n + (c.1.getD 48 - 48)) 0
    some (value, cs.drop digits.length)

/-- The bounds of a repetition in braces, if there are such. -/
def bounds? (cs : Chars) : Option (Nat × Option Nat × Chars) := do
  let (least, rest) ← count? cs.tail
  match rest with
  | (some 125, _) :: after => some (least, some least, after)
  | (some 44, _) :: (some 125, _) :: after => some (least, none, after)
  | (some 44, _) :: more =>
      match count? more with
      | some (most, (some 125, _) :: after) => some (least, some most, after)
      | _ => none
  | _ => none

/-- A repetition in braces. Braces that hold no bounds are characters. -/
def repeatCounted (state : Progress) (cs : Chars) : Except Problem (Progress × Chars) :=
  match bounds? cs with
  | none => .ok (state.addCode 123, cs.tail)
  | some (least, most, after) =>
      if copyLimit < least || most.any fun n => copyLimit < n || n < least then
        .error (.repeatCount (cs.before after))
      else
        let counted := 2 ≤ least || most.any fun n => 2 ≤ n
        repeatLast state (.times least most) counted cs after

/-! ## Groups with a question mark -/

/-- Reads flags up to a colon or a closing parenthesis. `on` says what a letter does; `saw` that
one was read since. `whole` begins with the opening parenthesis. -/
def readFlags (whole : Chars) : (flags : Flags) → (on saw : Bool) → Chars →
    Except Problem (Flags × Bool × Chars)
  | _, _, _, [] => .error (.invalidGroup whole.bytes)
  | _, _, _, (none, bytes) :: rest => .error (.notUtf8 (Chars.bytes ((none, bytes) :: rest)))
  | flags, on, saw, (some code, _) :: rest =>
      match code with
      | 105 => readFlags whole { flags with fold := on } on true rest
      | 109 => readFlags whole { flags with lines := on } on true rest
      | 115 => readFlags whole { flags with dotAll := on } on true rest
      | 85 => readFlags whole flags on true rest
      | 45 =>
          if on then readFlags whole flags false false rest
          else .error (.invalidGroup (whole.before rest))
      | _ =>
          if (code = 58 || code = 41) && (on || saw) then .ok (flags, code = 58, rest)
          else .error (.invalidGroup (whole.before rest))

/-- Whether a text can name a group. -/
def isGroupName (name : Chars) : Bool :=
  !name.isEmpty && name.all fun c => c.1.any fun code => code = 95 || isAlphanumeric code

/-- Reads a name up to the closing angle bracket, and opens its group. -/
def openNamed (state : Progress) (whole name : Chars) : Except Problem (Progress × Chars) :=
  match name.span fun c => c.1 ≠ some 62 with
  | (_, []) => .error (.invalidName whole.bytes)
  | (name, _ :: rest) =>
      if isGroupName name then .ok (state.openGroup state.flags, rest)
      else .error (.invalidName (whole.before rest))

/-- Reads what follows an opening parenthesis and a question mark: the name of a group, or flags
for a group or for what follows. -/
def openSpecial (state : Progress) (whole : Chars) : Except Problem (Progress × Chars) := do
  match whole.drop 2 with
  | (some 80, _) :: (some 60, _) :: c :: name => openNamed state whole (c :: name)
  | (some 60, _) :: c :: name => openNamed state whole (c :: name)
  | letters =>
      let (flags, group, rest) ← readFlags whole state.flags true false letters
      if group then return (state.openGroup flags, rest)
      else return ({ state with flags := flags, lastRepeat := none }, rest)

/-! ## Patterns -/

/-- Adds characters as they are, up to the mark that ends them. -/
def addQuoted : (steps : Nat) → Progress → Chars → Except Problem (Progress × Chars)
  | 0, state, cs => .ok (state, cs)
  | steps + 1, state, cs => do
      match cs with
      | [] => return (state, [])
      | (some 92, _) :: (some 69, _) :: rest => return (state, rest)
      | cs =>
          let (code, rest) ← nextCode cs
          addQuoted steps (state.addCode (code.getD 0)) rest

/-- Reads what begins with a backslash. -/
def readEscape (state : Progress) (cs : Chars) : Except Problem (Progress × Chars) := do
  let ordinary := do
    let (code, rest) ← escapedCode cs
    return (state.addCode code, rest)
  match cs.tail with
  | (some code, _) :: rest =>
      match code with
      | 65 => return (state.add .textStart, rest)
      | 98 => return (state.add (.boundary false), rest)
      | 66 => return (state.add (.boundary true), rest)
      | 122 => return (state.add .textEnd, rest)
      | 67 => throw (.invalidEscape (cs.before rest))
      | 81 => addQuoted (rest.length + 1) { state with lastRepeat := none } rest
      | code =>
          if code = 112 || code = 80 then
            let (ranges, rest) ← propertyClass cs
            return (state.add (.chars false ranges), rest)
          else
            match letterClass? state.flags.fold code with
            | some ranges => return (state.add (.chars false ranges), rest)
            | none => ordinary
  | _ => ordinary

/-- Reads the next item. `text` is the whole pattern. -/
def readItem (text : Bytes) (state : Progress) (cs : Chars) :
    Except Problem (Progress × Chars) := do
  let rest := cs.tail
  match cs.code? with
  | some 40 =>
      if Chars.code? rest = some 63 then openSpecial state cs
      else return (state.openGroup state.flags, rest)
  | some 124 => return ({ state with group := state.group.split, lastRepeat := none }, rest)
  | some 41 =>
      match state.closeGroup? with
      | some state => return (state, rest)
      | none => throw (.unexpectedParen text)
  | some 94 => return (state.add (if state.flags.lines then .lineStart else .textStart), rest)
  | some 36 => return (state.add (if state.flags.lines then .lineEnd else .textEnd), rest)
  | some 46 =>
      return (state.add (.chars true (if state.flags.dotAll then [] else single 10)), rest)
  | some 91 =>
      let (set, rest) ← bracketSet state.flags.fold cs
      return (state.add set, rest)
  | some 42 => repeatLast state .many false cs rest
  | some 43 => repeatLast state (fun p => .seq p (.many p)) false cs rest
  | some 63 => repeatLast state .opt false cs rest
  | some 123 => repeatCounted state cs
  | some 92 => readEscape state cs
  | _ =>
      let (code, rest) ← nextCode cs
      return (state.addCode (code.getD 0), rest)

/-- Reads all items. -/
def readItems (text : Bytes) : (steps : Nat) → Progress → Chars → Except Problem Progress
  | _, state, [] => .ok state
  | 0, state, _ => .ok state
  | steps + 1, state, cs => do
      let (state, rest) ← readItem text state cs
      readItems text steps state rest

/-- Reads a pattern. An unclosed group is blamed on the whole text. -/
def parse (text : Bytes) : Except Problem Pattern := do
  let cs : Chars := text.characters
  let state ← readItems text cs.length {} cs
  if state.outer.isEmpty then return state.group.pattern
  else throw (.missingParen text)

end LoxMachine.Pattern
