import LoxMachine.Options.File

/-!
# Command lines

The arguments of the command and what they ask for.
-/

namespace LoxMachine

/-- What the command does. -/
inductive Mode where
  | repl
  | run
  | test
  deriving DecidableEq

def Mode.name : Mode → Bytes
  | .repl => utf8 "repl"
  | .run => utf8 "run"
  | .test => utf8 "test"

/-- What a command line asks for. Empty texts stand for what is not given. -/
structure Command where
  mode : Mode := .repl
  path : Bytes := []
  config : Bytes := []
  verbose : Bool := false
  pattern : Bytes := []
  options : Options := {}
  deriving DecidableEq

namespace Command

/-- Why a command line is refused. -/
inductive Refusal where
  | missingValue (flag : Bytes)
  | unknownFlag (flag : Bytes)
  | missingFile
  | unknownCommand (word : Bytes)
  | extraArgument (word : Bytes)
  | patternWithoutTest
  deriving DecidableEq

def Refusal.message : Refusal → Bytes
  | .missingValue flag => utf8 "missing value for " ++ flag
  | .unknownFlag flag => utf8 "unknown flag: " ++ flag
  | .missingFile => utf8 "run: missing file"
  | .unknownCommand word => utf8 "unknown command: " ++ word
  | .extraArgument word => utf8 "unexpected extra arg: " ++ word
  | .patternWithoutTest => utf8 "--run is only valid with test"

/-- Flags without a value. -/
inductive Switch where
  | verbose
  | option (field : Options.Field)
  deriving DecidableEq

/-- The flag of an option: its name with dashes. -/
def optionFlag (field : Options.Field) : Bytes :=
  utf8 "--" ++ field.name.map fun b => if b = 95 then 45 else b

def Switch.ofWord? (word : Bytes) : Option Switch :=
  if word = utf8 "-v" ∨ word = utf8 "--verbose" then some .verbose
  else (Options.Field.all.find? fun field => optionFlag field = word).map Switch.option

def turnOn (c : Command) : Switch → Command
  | .verbose => { c with verbose := true }
  | .option field => { c with options := c.options.set field true }

/-- Flags with a value. -/
inductive Setting where
  | config
  | pattern
  deriving DecidableEq

def Setting.flag : Setting → Bytes
  | .config => utf8 "--config"
  | .pattern => utf8 "--run"

def assign (c : Command) (setting : Setting) (value : Bytes) : Command :=
  match setting with
  | .config => { c with config := value }
  | .pattern => { c with pattern := value }

/-- What one word is, seen by itself. -/
inductive Word where
  | switch (s : Switch)
  | flag (setting : Setting)
  | setting (setting : Setting) (value : Bytes)
  | unknown
  | plain
  deriving DecidableEq

/-- Sorts a word. A flag with a value may be joined to it by an equals sign. -/
def Word.of (word : Bytes) : Word :=
  match Switch.ofWord? word with
  | some s => .switch s
  | none =>
      if word = Setting.config.flag then .flag .config
      else if word = Setting.pattern.flag then .flag .pattern
      else
        match Bytes.stripStart? (Setting.config.flag ++ utf8 "=") word with
        | some value => .setting .config value
        | none =>
            match Bytes.stripStart? (Setting.pattern.flag ++ utf8 "=") word with
            | some value => .setting .pattern value
            | none => if Bytes.startsWith (utf8 "-") word then .unknown else .plain

/-- Takes the flags out of a command line and leaves the other words in order; those
already found are in `words`, latest first. -/
def scan : (c : Command) → (words : List Bytes) → List Bytes →
    Except Refusal (Command × List Bytes)
  | c, words, [] => .ok (c, words.reverse)
  | c, words, word :: rest =>
      match Word.of word with
      | .switch s => scan (c.turnOn s) words rest
      | .setting setting value => scan (c.assign setting value) words rest
      | .flag setting =>
          match rest with
          | [] => .error (.missingValue word)
          | value :: rest => scan (c.assign setting value) words rest
      | .unknown => .error (.unknownFlag word)
      | .plain => scan c (word :: words) rest

/-- Refuses words that are left over. -/
def noMore (c : Command) : List Bytes → Except Refusal Command
  | [] => .ok c
  | word :: _ => .error (.extraArgument word)

/-- Decides on what to do from the words that are no flags. -/
def choose (c : Command) : List Bytes → Except Refusal Command
  | [] => .ok { c with mode := .repl }
  | word :: rest =>
      if word = utf8 "run" then
        match rest with
        | [] => .error .missingFile
        | path :: rest => { c with mode := .run, path := path }.noMore rest
      else if word = utf8 "test" then
        match rest with
        | [] => .ok { c with mode := .test, path := utf8 "." }
        | path :: rest => { c with mode := .test, path := path }.noMore rest
      else .error (.unknownCommand word)

/-- Reads a command line. -/
def parse (args : List Bytes) : Except Refusal Command := do
  let (c, words) ← scan {} [] args
  let c ← c.choose words
  if c.pattern ≠ [] ∧ c.mode ≠ .test then throw .patternWithoutTest
  return c

/-- How the command is used. -/
def usage : Bytes :=
  Bytes.join (utf8 "\n") [
    utf8 "lox - tree-walking interpreter",
    utf8 "usage:",
    utf8 "  lox [flags]                start the REPL",
    utf8 "  lox [flags] run <file>     run a source file",
    utf8 "  lox [flags] test [dir]     run every *.test.lox below dir",
    utf8 "",
    utf8 "flags:",
    utf8 "  -v, --verbose                 debug logging on stderr",
    utf8 "  --config=<path>               options file (default: ./lox.yaml if present)",
    utf8 "  --print-tokens                dump tokens of every compiled module",
    utf8 "  --print-tree                  dump the syntax tree of every compiled module",
    utf8 "  --print-locals                dump resolved local depths",
    utf8 "  --allow-under-application     missing arguments become nil",
    utf8 "  --allow-over-application      extra arguments are ignored",
    utf8 "  --disable-print               print statements produce no output",
    utf8 "test flags:",
    utf8 "  --run=<regex>                 run tests whose relative path matches regex",
    utf8 ""]

end Command

end LoxMachine
