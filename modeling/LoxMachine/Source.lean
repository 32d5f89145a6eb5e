import LoxMachine.Bytes.Utf8

/-!
# Sources, positions and ranges

A source is a named text.  A range is a half-open interval of byte offsets in a
source, and a position is the line and column of an offset, both counted from
one; columns count characters, not bytes.
-/

namespace LoxMachine

/-- A unit of program text and the name it is known by. -/
structure Source where
  uri : Bytes
  text : Bytes
  deriving DecidableEq

namespace Source

/-- The 32-bit hash that names snippets: start from the offset basis, and for each
byte take the exclusive or and multiply by the prime. -/
def hash (text : Bytes) : UInt32 :=
  text.foldl (fun h b => (h ^^^ b.toUInt32) * 16777619) 2166136261

/-- The name of a text that comes from no file. Equal texts share it. -/
def snippetUri (text : Bytes) : Bytes :=
  utf8 "lox:/snippet/" ++ Bytes.hex 8 (hash text).toNat

/-- A text that comes from no file, as a source. -/
def ofSnippet (text : Bytes) : Source :=
  ⟨snippetUri text, text⟩

/-! ## Lines -/

/-- The offsets right behind the line feeds of a text that stands at `offset`. -/
def startsFrom : (offset : Nat) → Bytes → List Nat
  | _, [] => []
  | offset, b :: rest =>
      if b = Bytes.lineFeed then (offset + 1) :: startsFrom (offset + 1) rest
      else startsFrom (offset + 1) rest

/-- The offsets at which the lines start, in order. -/
def lineStarts (src : Source) : Array Nat :=
  (0 :: startsFrom 0 src.text).toArray

/-- Halves the interval from `low` up to `high` until the place is found where a test
begins to hold that fails before it and holds from there on. As many steps as the
interval is wide are enough. -/
def bisect (test : Nat → Bool) : (steps low high : Nat) → Nat
  | 0, low, _ => low
  | steps + 1, low, high =>
      if low < high then
        let middle := (low + high) / 2
        if test middle then bisect test steps low middle
        else bisect test steps (middle + 1) high
      else low

/-- The line and column of a byte offset. An offset outside of the text counts as the
nearer end, and one inside a character as the start of the character. -/
def position (src : Source) (offset : Int) : Nat × Nat :=
  let offset := min offset.toNat src.text.length
  let starts := src.lineStarts
  let line := bisect (fun i => decide (offset < starts.getD i 0)) starts.size 0 starts.size - 1
  let start := starts.getD line 0
  (line + 1, Bytes.charactersWithin (offset - start) (src.text.drop start) + 1)

/-- The text of a line, counted from one, without its line end. A line that does
not exist is empty. -/
def line (src : Source) (n : Int) : Bytes :=
  let starts := src.lineStarts
  if n < 1 ∨ starts.size < n then []
  else
    let start := starts.getD (n.toNat - 1) 0
    let stop := if n < starts.size then starts.getD n.toNat 0 - 1 else src.text.length
    Bytes.withoutReturn ((src.text.drop start).take (stop - start))

end Source

/-- The bytes `start` to `stop` (exclusive) of a source, if there is one. -/
structure Range where
  source : Option Source
  start : Nat
  stop : Nat
  deriving DecidableEq

namespace Range

/-- The range that belongs to no source. -/
def nowhere : Range := ⟨none, 0, 0⟩

/-- The bytes a range covers. -/
def text (range : Range) : Bytes :=
  match range.source with
  | none => []
  | some src => (src.text.drop range.start).take (range.stop - range.start)

/-- The name of the source, empty if there is none. -/
def uri (range : Range) : Bytes :=
  match range.source with
  | none => []
  | some src => src.uri

/-- The line and column where a range starts, zero if it has no source. -/
def position (range : Range) : Nat × Nat :=
  match range.source with
  | none => (0, 0)
  | some src => src.position range.start

/-- The start of a range as `uri:line:column:` parts, without the last colon. -/
def positionText (range : Range) : Bytes :=
  let (line, column) := range.position
  range.uri ++ utf8 ":" ++ Bytes.decimal line ++ utf8 ":" ++ Bytes.decimal column

/-- Where a range starts, for a reader. -/
def toText (range : Range) : Bytes :=
  if range.uri.isEmpty then utf8 "<unknown>" else range.positionText

/-- The smallest range that covers both, where a range without a source covers
nothing. -/
def join (a b : Range) : Range :=
  match a.source, b.source with
  | none, _ => b
  | some _, none => a
  | some src, some _ => ⟨some src, min a.start b.start, max a.stop b.stop⟩

end Range

end LoxMachine
