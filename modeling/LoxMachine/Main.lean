import LoxMachine.Shell
import Std.Time.DateTime.Timestamp

/-!
# The executable

The outer layer: it reads files and lines, runs the machine in slices so that
output appears while a program runs, and writes what was left behind.
-/

namespace LoxMachine.Executable

/-! ## Input and output -/

def toBytes (text : ByteArray) : Bytes :=
  text.data.toList

def ofBytes (text : Bytes) : ByteArray :=
  ⟨text.toArray⟩

/-- A path from the command line as a string. -/
def pathString (path : Bytes) : String :=
  (String.fromUTF8? (ofBytes path)).getD ""

/-- Writes to the two output streams what a session has left for the reader. -/
def emit (trace : Array Event) : IO Unit := do
  let out ← IO.getStdout
  let err ← IO.getStderr
  for event in trace do
    match event with
    | .line text => out.write (ofBytes (Shell.lineText text))
    | .record entry => err.write (ofBytes (Shell.lineText entry.text))
  out.flush

/-- Writes what a session has left for the reader, and forgets it. -/
def flush (s : Session) : IO Session := do
  emit s.trace
  return s.reset

/-- The time of day in seconds since the start of 1970. -/
def seconds : IO Float := do
  let now ← Std.Time.Timestamp.now
  return Float.ofInt now.toNanosecondsSinceUnixEpoch.val / 1000000000.0

/-! ## Files -/

/-- The contents of a file, or why there are none. -/
def readFile (path : Bytes) : IO (Except Trouble Bytes) := do
  let place := (← IO.currentDir) / pathString path
  if path.isEmpty then return .error .missing
  else if ← place.isDir then return .error .isDirectory
  else
    try
      return .ok (toBytes (← IO.FS.readBinFile place))
    catch _ =>
      return .error .missing

/-- The tests below a path, named relative to it. -/
def readTests (root : Bytes) : IO (Except Trouble (List Source)) := do
  let place := (← IO.currentDir) / pathString root
  if ← place.isDir then
    let found ← place.walkDir
    let mut sources := []
    for file in found do
      let name := utf8 ((file.toString.drop (place.toString.length + 1)).toString)
      if Bytes.endsWith testSuffix name then
        if !(← file.isDir) then
          sources := ⟨name, toBytes (← IO.FS.readBinFile file)⟩ :: sources
    return .ok (Source.sortByUri sources)
  else if ← place.pathExists then
    if Bytes.endsWith testSuffix root then
      return .ok [⟨utf8 ".", toBytes (← IO.FS.readBinFile place)⟩]
    else return .ok []
  else return .error .missing

/-- The part of the disk a command looks at. -/
def observe (cwd : Bytes) (c : Command) : IO Disk := do
  let root := if c.path.isEmpty then utf8 "." else c.path
  let paths := [cwd ++ utf8 "/" ++ Options.fileName, c.config, c.path]
  let files ← paths.mapM fun path => do return (path, ← readFile path)
  let tests ← if c.mode = .test then readTests root else pure (.ok [])
  return {
    read := fun path =>
      ((files.find? fun file => file.1 = path).map Prod.snd).getD (.error .missing)
    tests := fun _ => tests }

/-! ## Runs -/

/-- The steps the machine takes at most before its output is written. -/
def slice : Nat := 100000

/-- Runs the machine to its end, slice by slice. A slice ends where the program is about
to look at the clock, so that the clock shows the time of each look. -/
partial def drive (s : Session) (state : State) : IO (Option Ending × State) := do
  let store := { state.store with clock := .still (← seconds) }
  let (ending, state) := runSlice s.setting slice { state with store := store }
  emit state.trace
  let state := { state with trace := #[] }
  match ending with
  | none => drive s state
  | some ending => return (some ending, state)

/-- Compiles and runs a text, and writes its output as it comes. -/
def execute (s : Session) (src : Source) (kind : ModuleKind) :
    IO (Except Failure Unit × Session) := do
  let (compiled, s) := s.compile src kind
  let s ← flush s
  match compiled with
  | .error failure => return (.error failure, s)
  | .ok compiled =>
      let s ← flush (s.prepare src compiled)
      let (ending, final) ← drive s (s.start compiled.module)
      let (outcome, s) := s.finish src ending final
      return (outcome, ← flush s)

/-- Compiles and runs a text, and reports a failure. -/
def executeAndReport (s : Session) (src : Source) (kind : ModuleKind) : IO (Bool × Session) := do
  let (outcome, s) ← execute s src kind
  match outcome with
  | .ok () => return (true, s)
  | .error failure => return (false, ← flush (s.report failure))

/-- Runs a file. -/
def runFile (s : Session) (host : Host) (path : Bytes) : IO Nat := do
  match host.read path with
  | .error message =>
      let _ ← flush (s.write message)
      return Shell.exitFailure
  | .ok src =>
      let (passed, _) ← executeAndReport s src .sourceFile
      return if passed then Shell.exitOk else Shell.exitFailure

/-- Runs the tests of a host. -/
def runTests (s : Session) (host : Host) (filter : Option Pattern) : IO Nat := do
  match host.testSources with
  | .error message =>
      let _ ← flush (s.log (utf8 "test run failed") [(utf8 "error", message)])
      return Shell.exitFailure
  | .ok sources =>
      let mut tally := Suite.Tally.zero
      let mut session := s
      for src in Suite.selected filter sources do
        let before ← IO.monoNanosNow
        let (next, s) ←
          if Suite.isSkipped src.text then pure (Suite.skip session tally src.uri)
          else do
            let (outcome, s) ← execute session src .sourceFile
            let after ← IO.monoNanosNow
            let duration := Suite.durationText (Int.ofNat ((after - before) / 1000))
            pure (Suite.conclude s tally src.uri duration outcome)
        tally := next
        session ← flush s
      let outcome := Suite.summarize tally session
      let s ← flush outcome.session
      match outcome.failure with
      | none => return Shell.exitOk
      | some failure =>
          let _ ← flush (s.log (utf8 "test run failed") [(utf8 "error", failure.message)])
          return Shell.exitFailure

/-! ## Interactive sessions -/

/-- Reads on until a line is complete, the input ends, or the line is too long. -/
partial def fill (input : IO.FS.Stream) (pending : Bytes) : IO Bytes := do
  if pending.contains Bytes.lineFeed || Shell.lineLimit ≤ pending.length then return pending
  else
    let byte ← input.read 1
    if byte.isEmpty then return pending else fill input (pending ++ toBytes byte)

/-- Reads and runs lines until the input or the session ends. -/
partial def converse (input : IO.FS.Stream) (pending : Bytes) (repl : Shell.Repl) :
    IO Shell.Repl := do
  let out ← IO.getStdout
  out.write (ofBytes Shell.prompt)
  out.flush
  match Shell.nextLine? (← fill input pending) with
  | none => return repl
  | some (line, _, rest) =>
      match Shell.Action.of line with
      | .leave => return repl
      | .ignore => converse input rest repl
      | .execute =>
          let (_, s) ← executeAndReport repl.session (Source.ofSnippet line) .replLine
          converse input rest ⟨s, Shell.remember repl.history line⟩

/-- Runs an interactive session and keeps its history. -/
def runRepl (s : Session) : IO Nat := do
  let home := (← IO.getEnv "HOME").getD ""
  let place := home ++ "/.lox_history"
  let old ← readFile (utf8 place)
  let history := match old with
    | .ok text => Shell.readHistory text
    | .error _ => []
  let repl ← converse (← IO.getStdin) [] ⟨s, history⟩
  try
    IO.FS.writeBinFile place (ofBytes (Shell.historyText repl.history))
  catch _ =>
    pure ()
  return Shell.exitOk

/-- Writes a message to the error stream and ends with a code. -/
def refuse (exit : Nat) (message : Bytes) : IO Nat := do
  (← IO.getStderr).write (ofBytes message)
  return exit

/-- Runs the command with these arguments. -/
def start (args : List Bytes) : IO Nat := do
  match Command.parse args with
  | .error refusal => refuse Shell.exitUsage (Shell.lineText refusal.message ++ Command.usage)
  | .ok c =>
      match Shell.filter c with
      | .error message => refuse Shell.exitUsage (Shell.lineText message)
      | .ok filter =>
          let cwd := utf8 (← IO.currentDir).toString
          let disk ← observe cwd c
          match Shell.options disk cwd c with
          | .error message => refuse Shell.exitFailure (Shell.lineText message)
          | .ok options =>
              let s := Session.new options c.verbose (← seconds)
              match c.mode with
              | .run => runFile s (disk.host c.path) c.path
              | .test =>
                  runTests s (disk.host (if c.path.isEmpty then utf8 "." else c.path)) filter
              | .repl => runRepl s

end LoxMachine.Executable

/-- Runs the command with the arguments of the process. -/
def main (args : List String) : IO UInt32 := do
  return (← LoxMachine.Executable.start (args.map LoxMachine.utf8)).toUInt32
