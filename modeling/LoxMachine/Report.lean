import LoxMachine.Source

/-!
# Diagnostics and their report

A diagnostic is a message about a range, of some severity.  A bag keeps the
diagnostics of one compilation in the order they were found; its report lists
them by position, each with the source line and a caret.
-/

namespace LoxMachine

/-- How serious a diagnostic is. Levels beyond the three named ones are written by
their number. -/
inductive Severity where
  | info
  | warning
  | error
  | level (n : Int)
  deriving DecidableEq

namespace Severity

/-- The severity of a number: 0, 1 and 2 are the named levels. -/
def ofInt : Int → Severity
  | 0 => .info
  | 1 => .warning
  | 2 => .error
  | n => .level n

def name : Severity → Bytes
  | .info => utf8 "info"
  | .warning => utf8 "warning"
  | .error => utf8 "error"
  | .level n => utf8 "severity(" ++ Bytes.decimalInt n ++ utf8 ")"

end Severity

/-- A message about a range of a source. -/
structure Diagnostic where
  severity : Severity
  range : Range
  message : Bytes
  deriving DecidableEq

namespace Diagnostic

/-- The diagnostic that stands for "none found". -/
def blank : Diagnostic := ⟨.info, Range.nowhere, []⟩

def isError (d : Diagnostic) : Bool :=
  d.severity = .error

/-- One line: the position, unless the source has no name, the severity and the
message. -/
def headline (d : Diagnostic) : Bytes :=
  let said := d.severity.name ++ utf8 ": " ++ d.message
  if d.range.uri.isEmpty then said else d.range.positionText ++ utf8 ": " ++ said

/-- The source line with a caret under the start of the range; nothing if there is
no source or the line is empty. -/
def excerpt (d : Diagnostic) : List Bytes :=
  match d.range.source with
  | none => []
  | some src =>
      let (line, column) := d.range.position
      let text := src.line line
      if text.isEmpty then []
      else [utf8 "  " ++ text, utf8 "  " ++ Bytes.spaces (column - 1) ++ utf8 "^"]

/-- What the report orders diagnostics by. -/
structure Key where
  uri : Bytes
  line : Nat
  column : Nat
  deriving DecidableEq

def key (d : Diagnostic) : Key :=
  let (line, column) := d.range.position
  ⟨d.range.uri, line, column⟩

/-- The lexicographic order of keys: the name bytewise, then line, then column. -/
def Key.le (a b : Key) : Bool :=
  if a.uri ≠ b.uri then decide (a.uri < b.uri)
  else if a.line ≠ b.line then decide (a.line < b.line)
  else decide (a.column ≤ b.column)

end Diagnostic

/-- The diagnostics of one compilation, in the order they were found. -/
structure Bag where
  items : Array Diagnostic
  deriving DecidableEq

namespace Bag

def empty : Bag := ⟨#[]⟩

def add (bag : Bag) (d : Diagnostic) : Bag :=
  ⟨bag.items.push d⟩

/-- Adds an error. -/
def error (bag : Bag) (range : Range) (message : Bytes) : Bag :=
  bag.add ⟨.error, range, message⟩

def size (bag : Bag) : Nat :=
  bag.items.size

def firstError? (bag : Bag) : Option Diagnostic :=
  bag.items.find? Diagnostic.isError

/-- Whether no error was found. -/
def isClean (bag : Bag) : Bool :=
  bag.firstError?.isNone

/-- The diagnostics by position; those at the same position stay in the order they
were found. -/
def sorted (bag : Bag) : List Diagnostic :=
  let keyed := bag.items.toList.map fun d => (d.key, d)
  (keyed.mergeSort fun a b => a.1.le b.1).map Prod.snd

/-- The lines of the report. -/
def reportLines (bag : Bag) : List Bytes :=
  bag.sorted.flatMap fun d => d.headline :: d.excerpt

/-- The report as one text, without line feeds at its end. -/
def report (bag : Bag) : Bytes :=
  Bytes.trimLineFeeds (Bytes.join (utf8 "\n") bag.reportLines)

/-- A short account of a failed compilation: its first error and the number of
diagnostics. -/
def summary (bag : Bag) : Bytes :=
  match bag.firstError? with
  | some d => d.headline ++ utf8 " (" ++ Bytes.decimal bag.size ++ utf8 " diagnostics)"
  | none => utf8 "compilation failed"

end Bag

end LoxMachine
