import LoxMachine.Machine.Step
import LoxMachine.Scope
import LoxMachine.Token.Scan
import LoxMachine.Tree.Statement

/-!
# Sessions

A session compiles and runs texts one after another.  It keeps what outlives a
run: the store with the global environment, the depths of everything compiled so
far, the last node number, and what has been written.
-/

namespace LoxMachine

/-- What a session needs from outside: texts by name, and the tests to run. The
errors are texts for the reader. -/
structure Host where
  read : Bytes → Except Bytes Source
  testSources : Except Bytes (List Source)

/-- Why a step of a session failed. -/
inductive Failure where
  | compile (bag : Bag)
  | runtime (e : RuntimeError)
  | outside (message : Bytes)
  | broken (d : Defect)
  | malformed (reason : Module.Malformed)
  | unfinished
  deriving DecidableEq

namespace Failure

/-- The failure in one line. -/
def message : Failure → Bytes
  | .compile bag => bag.summary
  | .runtime e => e.message
  | .outside message => message
  | .broken d => d.message
  | .malformed reason => reason.message
  | .unfinished => utf8 "out of steps"

/-- The failure as it is reported: all diagnostics of a text that does not compile,
or the one error of a run. -/
def report : Failure → Bytes
  | .compile bag => bag.report
  | .runtime e => e.diagnostic.headline
  | failure => failure.message

end Failure

/-- The natives every session starts with. -/
def Native.all : List Native :=
  [⟨utf8 "clock", 0⟩, ⟨utf8 "pcall", 1⟩]

structure Session where
  options : Options
  logging : Bool
  lastId : Nat
  depths : Depths
  store : Store
  trace : Array Event

/-- A text that compiled: the module and the depths of its references. -/
structure Compiled where
  module : Module
  depths : Depths

namespace Session

/-- The place of the global environment. -/
def globals : Nat := 0

/-- The store of a new session: a global environment that holds the natives. -/
def initialStore (clock : Clock) : Store :=
  let (env, store) := (Store.empty clock).newEnv none Bindings.empty
  Native.all.foldl (fun store native =>
    let (ref, store) := store.newNative native
    store.define env native.name (.native ref)) store

/-- A new session.  Its clock stands still unless one is given. -/
def new (options : Options) (logging : Bool) (clock : Clock := .still 0) : Session :=
  ⟨options, logging, 0, Depths.empty, initialStore clock, #[]⟩

/-! ## Output -/

def write (s : Session) (line : Bytes) : Session :=
  { s with trace := s.trace.push (.line line) }

/-- Writes a line if it is wanted. -/
def writeIf (s : Session) (wanted : Bool) (line : Unit → Bytes) : Session :=
  if wanted then s.write (line ()) else s

/-- Adds a record to the log, if there is one. -/
def log (s : Session) (message : Bytes) (attributes : List (Bytes × Bytes)) : Session :=
  if s.logging then { s with trace := s.trace.push (.record ⟨message, attributes⟩) } else s

/-- Forgets what has been written. -/
def reset (s : Session) : Session :=
  { s with trace := #[] }

/-- The lines written so far. -/
def lines (trace : Array Event) : List Bytes :=
  trace.toList.filterMap fun event =>
    match event with
    | .line text => some text
    | .record _ => none

/-- The log records written so far. -/
def records (trace : Array Event) : List Record :=
  trace.toList.filterMap fun event =>
    match event with
    | .line _ => none
    | .record entry => some entry

/-! ## Compiling -/

/-- Compiles a text: tokens, tree, scopes, and no further than the first of these
that has an error. What the options ask to see is written as it becomes known. -/
def compile (s : Session) (src : Source) (kind : ModuleKind) :
    Except Failure Compiled × Session :=
  let (tokens, bag) := Token.scan src
  let s := s.writeIf s.options.printTokens fun _ => Token.dump tokens
  if bag.isClean = false then (.error (.compile bag), s)
  else
    match Module.parse tokens kind s.lastId bag with
    | .error reason => (.error (.malformed reason), s)
    | .ok parsed =>
        let s := { s with lastId := parsed.lastId }
        let m := parsed.module
        let s := s.writeIf (s.options.printTree && !m.body.isEmpty) fun _ => m.dump
        if parsed.bag.isClean = false then (.error (.compile parsed.bag), s)
        else
          let (depths, bag) := Scope.resolve m parsed.bag
          let s := s.writeIf (s.options.printLocals && depths.size != 0) fun _ => depths.text
          if bag.isClean = false then (.error (.compile bag), s)
          else
            (.ok ⟨m, depths⟩, s.log (utf8 "compiled")
              [(utf8 "uri", src.uri), (utf8 "kind", kind.name),
                (utf8 "tokens", Bytes.decimal tokens.length),
                (utf8 "statements", Bytes.decimal m.body.length),
                (utf8 "locals", Bytes.decimal depths.size)])

/-! ## Running -/

/-- What the machine takes from a session. -/
def setting (s : Session) : Setting :=
  ⟨s.depths, s.options, s.logging⟩

/-- The state in which the machine starts on a module. An isolated module gets an
environment of its own inside the global one. -/
def start (s : Session) (m : Module) : State :=
  let (env, store) :=
    if m.kind.isolated then s.store.newEnv (some globals) Bindings.empty else (globals, s.store)
  ⟨.done, [.program m.body], env, 0, store, s.trace⟩

/-- Takes over what a run has left behind, and says how it went. -/
def finish (s : Session) (src : Source) (ending : Option Ending) (final : State) :
    Except Failure Unit × Session :=
  let s := { s with store := final.store, trace := final.trace }
  match ending with
  | some .finished => (.ok (), s.log (utf8 "run finished") [(utf8 "uri", src.uri)])
  | some (.failed e) =>
      (.error (.runtime e),
        s.log (utf8 "run failed") [(utf8 "uri", src.uri), (utf8 "error", e.message)])
  | some (.broken d) => (.error (.broken d), s)
  | none => (.error .unfinished, s)

/-- Prepares a compiled text for its run. -/
def prepare (s : Session) (src : Source) (compiled : Compiled) : Session :=
  { s with depths := s.depths.merge compiled.depths }.log (utf8 "run module")
    [(utf8 "uri", src.uri), (utf8 "kind", compiled.module.kind.name)]

/-- Compiles and runs a text, for at most `fuel` steps, without reporting. -/
def eval (s : Session) (fuel : Nat) (src : Source) (kind : ModuleKind) :
    Except Failure Unit × Session :=
  match s.compile src kind with
  | (.error failure, s) => (.error failure, s)
  | (.ok compiled, s) =>
      let s := s.prepare src compiled
      let (ending, final) := run s.setting fuel (s.start compiled.module)
      s.finish src ending final

/-- Writes the report of a failure. -/
def report (s : Session) (failure : Failure) : Session :=
  s.write failure.report

/-- Compiles and runs a text, and reports a failure. -/
def runSource (s : Session) (fuel : Nat) (src : Source) (kind : ModuleKind) :
    Except Failure Unit × Session :=
  match s.eval fuel src kind with
  | (.ok (), s) => (.ok (), s)
  | (.error failure, s) => (.error failure, s.report failure)

/-- Runs a text of the host as a module of its own. -/
def runFile (s : Session) (fuel : Nat) (host : Host) (uri : Bytes) :
    Except Failure Unit × Session :=
  match host.read uri with
  | .ok src => s.runSource fuel src .sourceFile
  | .error message => (.error (.outside message), s.write message)

/-- Runs a line in the global scope. -/
def runLine (s : Session) (fuel : Nat) (text : Bytes) : Except Failure Unit × Session :=
  s.runSource fuel (Source.ofSnippet text) .replLine

end Session

end LoxMachine
