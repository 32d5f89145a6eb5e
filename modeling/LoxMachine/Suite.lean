import LoxMachine.Pattern
import LoxMachine.Session

/-!
# Test suites

A suite runs each test of the host as a module of its own, in one session, and
counts how they went.
-/

namespace LoxMachine.Suite

/-- A test whose first line is this is not run. -/
def skipMarker : Bytes := utf8 "// skip"

def isSkipped (text : Bytes) : Bool :=
  Bytes.trimBlank (text.takeWhile (· ≠ Bytes.lineFeed)) = skipMarker

/-- A time in microseconds: from a thousand on, in milliseconds with two places. -/
def durationText (microseconds : Int) : Bytes :=
  if microseconds < 1000 then Bytes.decimalInt microseconds ++ utf8 "us"
  else
    match Number.exact (Float.ofInt microseconds / 1000) with
    | .finite _ mantissa exponent => Number.twoPlaces mantissa exponent ++ utf8 "ms"
    | _ => utf8 "ms"

/-- How many tests passed, failed and were skipped. -/
structure Tally where
  passed : Nat
  failed : Nat
  skipped : Nat
  deriving DecidableEq

namespace Tally

def zero : Tally := ⟨0, 0, 0⟩

def total (t : Tally) : Nat :=
  t.passed + t.failed + t.skipped

def text (t : Tally) : Bytes :=
  if t.total = 0 then utf8 "[test] no tests found"
  else
    utf8 "[test] " ++ Bytes.decimal t.passed ++ utf8 " passed, " ++ Bytes.decimal t.failed
      ++ utf8 " failed"
      ++ if t.skipped = 0 then [] else utf8 ", " ++ Bytes.decimal t.skipped ++ utf8 " skipped"

/-- The error of a suite in which a test failed. -/
def failure? (t : Tally) : Option Failure :=
  if t.failed = 0 then none
  else some (.outside (Bytes.decimal t.failed ++ utf8 " test(s) failed"))

end Tally

/-- Writes how a test went and counts it. The diagnostics of a test that does not
compile follow in full. -/
def conclude (s : Session) (t : Tally) (uri duration : Bytes) :
    Except Failure Unit → Tally × Session
  | .ok () =>
      ({ t with passed := t.passed + 1 },
        s.write (utf8 "[PASS] " ++ uri ++ utf8 " (" ++ duration ++ utf8 ")"))
  | .error failure =>
      let s := s.write (utf8 "[FAIL] " ++ uri ++ utf8 " (" ++ duration ++ utf8 "): "
        ++ failure.message)
      let s :=
        match failure with
        | .compile _ => s.report failure
        | _ => s
      ({ t with failed := t.failed + 1 }, s)

/-- Counts a test that is not run. -/
def skip (s : Session) (t : Tally) (uri : Bytes) : Tally × Session :=
  ({ t with skipped := t.skipped + 1 }, s.write (utf8 "[SKIP] " ++ uri))

/-- The tests whose names a filter selects; all of them without one. -/
def selected (filter : Option Pattern) (sources : List Source) : List Source :=
  match filter with
  | none => sources
  | some p => sources.filter fun src => p.matchesIn src.uri

/-- Runs tests in order. `duration` tells how long the test of a name took. -/
def runAll (fuel : Nat) (duration : Bytes → Bytes) : List Source → Tally × Session →
    Tally × Session
  | [], state => state
  | src :: rest, (t, s) =>
      if isSkipped src.text then runAll fuel duration rest (skip s t src.uri)
      else
        let (outcome, s) := s.eval fuel src .sourceFile
        runAll fuel duration rest (conclude s t src.uri (duration src.uri) outcome)

/-- The outcome of a suite: the counts, the failure if there was one, and the session
afterwards. -/
structure Outcome where
  tally : Tally
  failure : Option Failure
  session : Session

/-- Writes the counts at the end of a suite. -/
def summarize (t : Tally) (s : Session) : Outcome :=
  ⟨t, t.failure?, s.write t.text⟩

/-- Runs the tests of the host that the filter selects. -/
def run (s : Session) (fuel : Nat) (host : Host) (filter : Option Pattern)
    (duration : Bytes → Bytes) : Outcome :=
  match host.testSources with
  | .error message => ⟨Tally.zero, some (.outside message), s⟩
  | .ok sources =>
      let (t, s) := runAll fuel duration (selected filter sources) (Tally.zero, s)
      summarize t s

end LoxMachine.Suite
