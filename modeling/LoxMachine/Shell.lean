import LoxMachine.Command
import LoxMachine.Log
import LoxMachine.Pattern.Parse
import LoxMachine.Suite

/-!
# The command

What the command does with its arguments, its input and a disk: it runs a file,
a suite of tests, or the lines of an interactive session, and ends with an exit
code.
-/

namespace LoxMachine.Shell

def exitOk : Nat := 0

def exitFailure : Nat := 1

def exitUsage : Nat := 2

/-- What a run of the command leaves behind. The history is there if it was written. -/
structure Result where
  exit : Nat
  stdout : Bytes
  stderr : Bytes
  history : Option Bytes
  deriving DecidableEq

/-- A line of output. -/
def lineText (line : Bytes) : Bytes :=
  line ++ utf8 "\n"

/-- The standard output of what was written. -/
def outText (trace : Array Event) : Bytes :=
  (Session.lines trace).flatMap lineText

/-- The log of what was written. -/
def logText (trace : Array Event) : Bytes :=
  Record.logText (Session.records trace)

/-! ## Options and filters -/

/-- The options of a command: its flags, and those of the options file it names or of
the one in the working directory. -/
def options (disk : Disk) (cwd : Bytes) (c : Command) : Except Bytes Options :=
  let path? := if c.config.isEmpty then Options.find? disk cwd else some c.config
  match path? with
  | none => .ok c.options
  | some path => do
      let file ← Options.load disk path
      return c.options.merge file

/-- The filter of a command, if it has one. -/
def filter (c : Command) : Except Bytes (Option Pattern) :=
  if c.pattern.isEmpty then .ok none
  else
    match Pattern.parse c.pattern with
    | .ok p => .ok (some p)
    | .error problem => .error (utf8 "invalid --run pattern: " ++ problem.message)

/-! ## Interactive sessions -/

/-- The most bytes of a line that are read at once. -/
def lineLimit : Nat := 4096

/-- Whether a text has no line end within the bytes read at once. -/
def isLong (text : Bytes) : Bool :=
  let head := text.take lineLimit
  lineLimit ≤ head.length && !head.contains Bytes.lineFeed

/-- The next line of a text without its end, whether more of it follows, and the rest. A line
that is too long is cut, but not between a carriage return and its line feed. -/
def nextLine? (text : Bytes) : Option (Bytes × Bool × Bytes) :=
  if text.isEmpty then none
  else if isLong text then
    let piece := Bytes.withoutReturn (text.take lineLimit)
    some (piece, true, text.drop piece.length)
  else
    let line := text.takeWhile (· ≠ Bytes.lineFeed)
    match text.drop line.length with
    | [] => some (line, false, [])
    | _ :: rest => some (Bytes.withoutReturn line, false, rest)

/-- The most entries a history keeps. -/
def historyLimit : Nat := 1000

/-- A history without what is too old. -/
def recent (entries : List Bytes) : List Bytes :=
  entries.drop (entries.length - historyLimit)

/-- Whether a text is well-formed UTF-8. -/
def isWellFormed (text : Bytes) : Bool :=
  text.characters.all fun c => c.1.isSome

/-- The entries of a history file, up to one that is too long or no text. -/
def historyEntries : (steps : Nat) → Bytes → List Bytes
  | 0, _ => []
  | steps + 1, text =>
      match nextLine? text with
      | none => []
      | some (line, goesOn, rest) =>
          if goesOn || !isWellFormed line then [] else line :: historyEntries steps rest

/-- The entries of a history file. -/
def readHistory (text : Bytes) : List Bytes :=
  recent (historyEntries text.length text)

/-- The text of a history file. -/
def historyText (entries : List Bytes) : Bytes :=
  entries.flatMap lineText

/-- Adds a line to a history, unless it repeats the last one. -/
def remember (entries : List Bytes) (line : Bytes) : List Bytes :=
  if entries.getLast? = some line then entries else recent (entries ++ [line])

/-- An interactive session and its history. -/
structure Repl where
  session : Session
  history : List Bytes

/-- What is shown before a line is read. -/
def prompt : Bytes := utf8 "> "

/-- The line that ends an interactive session. -/
def exitCommand : Bytes := utf8 ".exit"

/-- What to do about a line. -/
inductive Action where
  | leave
  | ignore
  | execute
  deriving DecidableEq

def Action.of (line : Bytes) : Action :=
  let text := Bytes.trimBlank line
  if text = exitCommand then .leave
  else if text.isEmpty then .ignore
  else .execute

/-- Runs a line and remembers it. Errors are part of what is written. -/
def Repl.execute (repl : Repl) (fuel : Nat) (line : Bytes) : Repl :=
  ⟨(repl.session.runLine fuel line).2, remember repl.history line⟩

/-- Reads lines until the input or the session ends, and gives what was written, with
the prompts, after `before`. -/
def replLoop (fuel : Nat) : (steps : Nat) → (input : Bytes) → Repl → (before : Bytes) →
    Repl × Bytes
  | 0, _, repl, before => (repl, before)
  | steps + 1, input, repl, before =>
      let before := before ++ prompt
      match nextLine? input with
      | none => (repl, before)
      | some (line, _, rest) =>
          match Action.of line with
          | .leave => (repl, before)
          | .ignore => replLoop fuel steps rest repl before
          | .execute =>
              let seen := repl.session.trace.size
              let repl := repl.execute fuel line
              let written := repl.session.trace.extract seen repl.session.trace.size
              replLoop fuel steps rest repl (before ++ outText written)

/-! ## The command -/

/-- What the command sees of the world besides its arguments. -/
structure World where
  disk : Disk
  cwd : Bytes
  input : Bytes
  history : Option Bytes
  clock : Clock

/-- The outcome of a session that ended with a failure or without one. -/
def conclude (world : World) (s : Session) (failed : Bool) : Result :=
  ⟨if failed then exitFailure else exitOk, outText s.trace, logText s.trace, world.history⟩

/-- Refuses to continue. -/
def refuse (world : World) (exit : Nat) (message : Bytes) : Result :=
  ⟨exit, [], message, world.history⟩

/-- Runs a file. -/
def runFile (world : World) (fuel : Nat) (s : Session) (path : Bytes) : Result :=
  let (outcome, s) := s.runFile fuel (world.disk.host path) path
  match outcome with
  | .ok () => conclude world s false
  | .error _ => conclude world s true

/-- Runs the tests below a path. -/
def runTests (world : World) (fuel : Nat) (duration : Bytes → Bytes) (s : Session)
    (path : Bytes) (filter : Option Pattern) : Result :=
  let root := if path.isEmpty then utf8 "." else path
  let outcome := Suite.run s fuel (world.disk.host root) filter duration
  match outcome.failure with
  | none => conclude world outcome.session false
  | some failure =>
      conclude world
        (outcome.session.log (utf8 "test run failed") [(utf8 "error", failure.message)]) true

/-- Runs an interactive session on the whole input. -/
def runRepl (world : World) (fuel : Nat) (s : Session) : Result :=
  let start : Repl := ⟨s, readHistory (world.history.getD [])⟩
  let (repl, out) := replLoop fuel (world.input.length + 1) world.input start []
  ⟨exitOk, out, logText repl.session.trace, some (historyText repl.history)⟩

/-- Runs the command with these arguments. -/
def run (world : World) (fuel : Nat) (duration : Bytes → Bytes) (args : List Bytes) : Result :=
  match Command.parse args with
  | .error refusal =>
      refuse world exitUsage (lineText refusal.message ++ Command.usage)
  | .ok c =>
      match filter c with
      | .error message => refuse world exitUsage (lineText message)
      | .ok filter =>
          match options world.disk world.cwd c with
          | .error message => refuse world exitFailure (lineText message)
          | .ok options =>
              let s := Session.new options c.verbose world.clock
              match c.mode with
              | .run => runFile world fuel s c.path
              | .test => runTests world fuel duration s c.path filter
              | .repl => runRepl world fuel s

end LoxMachine.Shell
