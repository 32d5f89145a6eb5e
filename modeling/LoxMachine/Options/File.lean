import LoxMachine.Bytes.Quoted
import LoxMachine.Disk
import LoxMachine.Options
import LoxMachine.Yaml.Node
import LoxMachine.Yaml.Value

/-!
# Options files

An options file is a YAML document: a mapping from option names to truth values.
A mapping may take over the entries of others.  All that is wrong with entries is
collected, in their order.
-/

namespace LoxMachine.Options

open Yaml (Document Fault Node)

/-! ## Problems -/

/-- What is wrong with an entry, at some line. -/
inductive Problem where
  | unknownField (name : Bytes)
  | repeatedField (name : Bytes)
  | duplicateKey (name : Bytes) (earlier : Nat)
  | mismatch (found wanted : Bytes)
  deriving DecidableEq

/-- What the options are called in problems. -/
def typeName : Bytes := utf8 "config.Options"

def Problem.message : Problem → Bytes
  | .unknownField name => utf8 "field " ++ name ++ utf8 " not found in type " ++ typeName
  | .repeatedField name => utf8 "field " ++ name ++ utf8 " already set in type " ++ typeName
  | .duplicateKey name earlier =>
      utf8 "mapping key " ++ Bytes.quoted name ++ utf8 " already defined at line "
        ++ Bytes.decimal earlier
  | .mismatch found wanted => utf8 "cannot unmarshal " ++ found ++ utf8 " into " ++ wanted

/-- Why a text holds no options: it is no document, or some entries are wrong. -/
inductive Failure where
  | malformed (error : Yaml.Error)
  | problems (items : List (Nat × Problem))

def Failure.message : Failure → Bytes
  | .malformed error => error.message
  | .problems items =>
      utf8 "yaml: unmarshal errors:" ++ items.flatMap fun item =>
        utf8 "\n  line " ++ Bytes.decimal item.1 ++ utf8 ": " ++ item.2.message

/-! ## Nodes -/

/-- A node, or the one that an alias stands for. -/
def target (document : Document) : Node → Node
  | .alias _ place _ _ => (document.node? place).getD (.empty {})
  | node => node

/-- The line of a node. -/
def lineOf : Node → Nat
  | .scalar _ _ _ line => line
  | .sequence _ _ line => line
  | .mapping _ _ line => line
  | .alias _ _ _ line => line

/-- The text that a node shows in problems: of a scalar its own, of an alias its name. -/
def textOf : Node → Bytes
  | .scalar _ _ text _ => text
  | .alias name _ _ _ => name
  | _ => []

/-- The key that is replaced by the entries of other mappings. -/
def mergeKey : Bytes := utf8 "<<"

/-- The tag of a node that is no alias. -/
def tagOf : Node → Bytes
  | .scalar (some tag) _ _ _ => tag
  | .scalar none false _ _ => Yaml.strTag
  | .scalar none true text _ =>
      if text = mergeKey then Yaml.mergeTag else (Yaml.Value.ofText true text).tag
  | .sequence tag _ _ => tag.getD Yaml.seqTag
  | .mapping tag _ _ => tag.getD Yaml.mapTag
  | .alias _ _ _ _ => []

/-- The value of a scalar. -/
def scalarValue (tag : Option Bytes) (plain : Bool) (text : Bytes) : Except Fault Yaml.Value :=
  match tag with
  | some tag => Yaml.Value.tagged tag text
  | none => .ok (if plain && text ≠ mergeKey then Yaml.Value.ofText true text else .string text)

/-- A text in a problem: a long one is cut. -/
def excerpt (text : Bytes) : Bytes :=
  let shown := if 10 < text.length then text.take 7 ++ utf8 "..." else text
  utf8 " `" ++ shown ++ utf8 "`"

/-- A node where something else is wanted. -/
def mismatch (node : Node) (wanted : Bytes) : Nat × Problem :=
  let tag := tagOf node
  let text := textOf node
  let shown := if tag = Yaml.seqTag || tag = Yaml.mapTag then text else excerpt text
  (lineOf node, .mismatch (tag ++ shown) wanted)

/-- Whether two keys are written alike. -/
def sameKey : Node → Node → Bool
  | .scalar _ _ a _, .scalar _ _ b _ => a = b
  | .alias a _ _ _, .alias b _ _ _ => a = b
  | .sequence _ _ _, .sequence _ _ _ => true
  | .mapping _ _ _, .mapping _ _ _ => true
  | _, _ => false

/-- Keys that repeat an earlier one, each pair once. -/
def duplicates : List Node → List (Nat × Problem)
  | [] => []
  | key :: rest =>
      (rest.filter (sameKey key)).map
          (fun other => (lineOf other, .duplicateKey (textOf other) (lineOf key)))
        ++ duplicates rest

/-- What is wrong with a collection where something else is wanted. Keys of a mapping that occur
twice are reported alone. -/
def misplaced (node : Node) (wanted : Bytes) : List (Nat × Problem) :=
  match node with
  | .mapping _ entries _ =>
      match duplicates (entries.map Prod.fst) with
      | [] => [mismatch node wanted]
      | repeats => repeats
  | node => [mismatch node wanted]

/-! ## Truth values and names -/

/-- Strings that also stand for a truth value. -/
def wordValue? (text : Bytes) : Option Bool :=
  let yes := ["y", "Y", "yes", "Yes", "YES", "on", "On", "ON"]
  let no := ["n", "N", "no", "No", "NO", "off", "Off", "OFF"]
  if (yes.map utf8).contains text then some true
  else if (no.map utf8).contains text then some false
  else none

/-- What an entry gives: nothing, something, or problems. -/
inductive Reading (α : Type) where
  | nothing
  | found (value : α)
  | wrong (problems : List (Nat × Problem))

/-- The truth value of a node; null gives none. -/
def readTruth (document : Document) (node : Node) : Except Fault (Reading Bool) := do
  match target document node with
  | .scalar tag plain text line =>
      match ← scalarValue tag plain text with
      | .null => return .nothing
      | .bool value => return .found value
      | .string word =>
          match wordValue? word with
          | some value => return .found value
          | none => return .wrong [mismatch (.scalar tag plain text line) (utf8 "bool")]
      | _ => return .wrong [mismatch (.scalar tag plain text line) (utf8 "bool")]
  | node => return .wrong (misplaced node (utf8 "bool"))

/-- The name a key stands for; null gives none. -/
def readName (document : Document) (node : Node) : Except Fault (Reading Bytes) := do
  match target document node with
  | .scalar tag plain text _ =>
      match ← scalarValue tag plain text with
      | .null => return .nothing
      | .string name => return .found name
      | _ => return .found text
  | node => return .wrong (misplaced node (utf8 "string"))

/-- Whether a key asks for the entries of other mappings. -/
def isMerge : Node → Bool
  | .scalar tag plain text line =>
      text = mergeKey && tagOf (.scalar tag plain text line) = Yaml.mergeTag
  | _ => false

/-- The keys that are strings. Merged entries do not replace those. -/
def stringKeys (document : Document) (entries : List (Node × Node)) : List Bytes :=
  entries.filterMap fun entry =>
    match target document entry.1 with
    | .scalar tag plain text _ =>
        match scalarValue tag plain text with
        | .ok (.string name) => some name
        | _ => none
    | _ => none

/-! ## Entries -/

/-- The options so far, what is wrong so far, and, while entries of other mappings are taken
over, the names that are settled. -/
structure State where
  options : Options := {}
  problems : List (Nat × Problem) := []
  settled : Option (List Bytes) := none

namespace State

def addProblems (state : State) (problems : List (Nat × Problem)) : State :=
  { state with problems := state.problems ++ problems }

/-- Sets an option to the truth value of a node. -/
def setField (document : Document) (state : State) (field : Field) (node : Node) :
    Except Fault State := do
  match ← readTruth document node with
  | .nothing => return state
  | .found value => return { state with options := state.options.set field value }
  | .wrong problems => return state.addProblems problems

/-- Takes an entry over, where `done` are the options that this mapping has set. -/
def addEntry (document : Document) (state : State) (done : List Field) (entry : Node × Node) :
    Except Fault (State × List Field) := do
  match ← readName document entry.1 with
  | .nothing => return (state, done)
  | .wrong problems => return (state.addProblems problems, done)
  | .found name =>
      if state.settled.any fun names => names.contains name then return (state, done)
      let state := { state with settled := state.settled.map (name :: ·) }
      let line := lineOf entry.1
      match Field.ofName? name with
      | none => return (state.addProblems [(line, .unknownField name)], done)
      | some field =>
          if done.contains field then
            return (state.addProblems [(line, .repeatedField name)], done)
          return (← state.setField document field entry.2, field :: done)

/-- Takes over the entries that are no merge. -/
def addEntries (document : Document) (state : State) (entries : List (Node × Node)) :
    Except Fault State := do
  let own := entries.filter fun entry => !isMerge entry.1
  let (state, _) ← own.foldlM
    (fun (state, done) entry => addEntry document state done entry) (state, [])
  return state

end State

mutual

/-- Takes over a mapping, whose keys have to be different. The places of the aliases that led to
it are `path`. -/
def addMapping (document : Document) : (fuel : Nat) → (path : List Nat) → State →
    List (Node × Node) → Except Fault State
  | 0, _, state, _ => .ok state
  | fuel + 1, path, state, entries => do
      match duplicates (entries.map Prod.fst) with
      | [] =>
          let state ← state.addEntries document entries
          match entries.find? fun entry => isMerge entry.1 with
          | none => return state
          | some entry =>
              let settled := state.settled.getD (stringKeys document entries)
              let start := { state with settled := some settled }
              let merged ← addMerged document fuel path start entry.2
              return { merged with settled := state.settled.bind fun _ => merged.settled }
      | repeats => return state.addProblems repeats

/-- Takes over what a merge names: a mapping, or a sequence of mappings. -/
def addMerged (document : Document) : (fuel : Nat) → (path : List Nat) → State → Node →
    Except Fault State
  | 0, _, state, _ => .ok state
  | fuel + 1, path, state, node => do
      match node with
      | .sequence _ items _ =>
          items.foldlM (fun state item => addSource document fuel path state item) state
      | node => addSource document fuel path state node

/-- Takes over a mapping or what an alias of one stands for. -/
def addSource (document : Document) : (fuel : Nat) → (path : List Nat) → State → Node →
    Except Fault State
  | 0, _, state, _ => .ok state
  | fuel + 1, path, state, node =>
      match node, target document node with
      | .alias name _ place _, .mapping _ entries _ =>
          if path.contains place then .error (.selfContained name)
          else addMapping document fuel (place :: path) state entries
      | _, .mapping _ entries _ => addMapping document fuel path state entries
      | _, _ => .error .mergeOfNoMapping

end

/-! ## Documents -/

/-- The options of a document. Null leaves all options off. -/
def ofDocument (fuel : Nat) (document : Document) : Except Fault State := do
  match document.root with
  | .mapping _ entries _ => addMapping document fuel [] {} entries
  | .scalar tag plain text line =>
      match ← scalarValue tag plain text with
      | .null => return {}
      | _ => return State.addProblems {} [mismatch (.scalar tag plain text line) typeName]
  | node => return State.addProblems {} [mismatch node typeName]

/-- Reads options from a text. A text without content leaves all options off. -/
def parse (text : Bytes) : Except Failure Options :=
  match Document.parse text with
  | .error error => .error (.malformed error)
  | .ok none => .ok {}
  | .ok (some document) =>
      match ofDocument ((text.length + 4) * (text.length + 4)) document with
      | .error fault => .error (.malformed ⟨fault, none⟩)
      | .ok state =>
          if state.problems.isEmpty then .ok state.options else .error (.problems state.problems)

/-! ## Files -/

/-- The name of the options file of a directory. -/
def fileName : Bytes := utf8 "lox.yaml"

/-- The options file of a directory, if there is one. -/
def find? (disk : Disk) (dir : Bytes) : Option Bytes :=
  let path := if dir = utf8 "." then fileName else dir ++ utf8 "/" ++ fileName
  match disk.read path with
  | .ok _ => some path
  | .error _ => none

/-- Loads an options file. -/
def load (disk : Disk) (path : Bytes) : Except Bytes Options :=
  match disk.read path with
  | .error .isDirectory =>
      .error (utf8 "config: parse " ++ path ++ utf8 ": yaml: input error: "
        ++ Trouble.isDirectory.readMessage path)
  | .error trouble =>
      .error (utf8 "config: open " ++ path ++ utf8 ": " ++ trouble.readMessage path)
  | .ok text =>
      match parse text with
      | .ok options => .ok options
      | .error failure =>
          .error (utf8 "config: parse " ++ path ++ utf8 ": " ++ failure.message)

end LoxMachine.Options
