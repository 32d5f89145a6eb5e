import LoxMachine.Bindings
import LoxMachine.Value

/-!
# The store

Everything a program makes and can refer to: environments, functions, classes and
instances.  Each is known by its place among those of its sort.  Nothing is ever
removed, and what an environment, a closure or a class refers to is older than
itself.  Beside them stands the clock, which shows something else whenever a
program looks at it.
-/

namespace LoxMachine

/-- One scope of variables, with the place of the scope around it. -/
structure Environment where
  parent : Option Nat
  vars : Bindings Value

/-- A function with the environment it was declared in. -/
structure Closure where
  decl : Function
  env : Nat

/-- A class. Methods named `init` are kept apart. -/
structure Class where
  name : Bytes
  superclass : Option Nat
  init : Option Closure
  methods : Bindings Closure

/-- The method a class itself declares under a name. -/
def Class.own? (cls : Class) (name : Bytes) : Option Closure :=
  if name = utf8 "init" then cls.init.or (cls.methods.get? name) else cls.methods.get? name

/-- An instance of a class. -/
structure Instance where
  cls : Nat
  fields : Bindings Value

/-- A function that is not written in the language. -/
structure Native where
  name : Bytes
  arity : Nat
  deriving DecidableEq

/-- A clock: what it shows at one look after the other, and how often a program has
looked at it. -/
structure Clock where
  reading : Nat → Float
  looks : Nat

namespace Clock

/-- A clock that always shows the same. -/
def still (time : Float) : Clock := ⟨fun _ => time, 0⟩

instance : Coe Float Clock := ⟨still⟩

/-- What the clock shows at the next look. -/
def now (c : Clock) : Float :=
  c.reading c.looks

/-- The clock after `n` more looks. -/
def after (c : Clock) (n : Nat) : Clock :=
  { c with looks := c.looks + n }

end Clock

/-- A reference or a binding that has to exist and does not. -/
inductive Defect where
  | chainTooShort (depth : Nat)
  | notBound (name : Bytes) (depth : Nat)
  | unresolvedSuper
  | unresolvedThis
  | superNotClass
  | thisNotInstance
  | noImplementation (name : Bytes)
  | dangling
  | stray
  deriving DecidableEq

namespace Defect

def message : Defect → Bytes
  | .chainTooShort depth =>
      utf8 "interp: environment chain shorter than depth " ++ Bytes.decimal depth
  | .notBound name depth =>
      utf8 "interp: " ++ Bytes.quoted name ++ utf8 " not found at depth " ++ Bytes.decimal depth
  | .unresolvedSuper => utf8 "interp: unresolved 'super'"
  | .unresolvedThis => utf8 "interp: unresolved 'this' for 'super'"
  | .superNotClass => utf8 "interp: 'super' is not a class"
  | .thisNotInstance => utf8 "interp: 'this' is not an instance"
  | .noImplementation name =>
      utf8 "interp: native " ++ Bytes.quoted name ++ utf8 " has no implementation"
  | .dangling => utf8 "interp: reference to nothing"
  | .stray => utf8 "interp: nothing awaits this"

end Defect

/-- All objects, each sort in the order of creation, and the clock. -/
structure Store where
  envs : Array Environment
  functions : Array Closure
  classes : Array Class
  instances : Array Instance
  natives : Array Native
  clock : Clock

namespace Store

def empty (clock : Clock := .still 0) : Store := ⟨#[], #[], #[], #[], #[], clock⟩

/-- The store after a look at the clock. -/
def tick (st : Store) : Store :=
  { st with clock := st.clock.after 1 }

/-! ## Environments -/

/-- Adds an environment and gives its place. -/
def newEnv (st : Store) (parent : Option Nat) (vars : Bindings Value) : Nat × Store :=
  (st.envs.size, { st with envs := st.envs.push ⟨parent, vars⟩ })

/-- Binds a name in an environment, in place of any earlier binding of it. -/
def define (st : Store) (env : Nat) (name : Bytes) (value : Value) : Store :=
  { st with envs := st.envs.modify env fun e => { e with vars := e.vars.set name value } }

/-- Walks outwards from `env`, at most `steps` environments, to the first that binds
`name`. -/
def search (st : Store) (name : Bytes) : (steps env : Nat) → Option (Nat × Value)
  | 0, _ => none
  | steps + 1, env =>
      match st.envs[env]? with
      | none => none
      | some e =>
          match e.vars.get? name with
          | some value => some (env, value)
          | none =>
              match e.parent with
              | some parent => search st name steps parent
              | none => none

/-- The innermost environment from `env` outwards that binds `name`, with its value.
What encloses an environment is older, so `env + 1` steps reach the outermost one. -/
def nearest? (st : Store) (env : Nat) (name : Bytes) : Option (Nat × Value) :=
  st.search name (env + 1) env

/-- The value of a name, searched from `env` outwards. -/
def get? (st : Store) (env : Nat) (name : Bytes) : Option Value :=
  (st.nearest? env name).map Prod.snd

/-- Changes the innermost binding of a name from `env` outwards, if there is one. -/
def assign? (st : Store) (env : Nat) (name : Bytes) (value : Value) : Option Store :=
  (st.nearest? env name).map fun found => st.define found.1 name value

/-- The environment `steps` scopes up from `env`. -/
def climb (st : Store) : (steps env : Nat) → Option Nat
  | 0, env => some env
  | steps + 1, env =>
      match st.envs[env]? with
      | none => none
      | some e =>
          match e.parent with
          | some parent => climb st steps parent
          | none => none

/-- The environment exactly `depth` scopes up from `env`, which has to bind `name`,
with the value it has there. -/
def bindingAt (st : Store) (env depth : Nat) (name : Bytes) : Except Defect (Nat × Value) :=
  match st.climb depth env with
  | none => .error (.chainTooShort depth)
  | some owner =>
      match st.envs[owner]? with
      | none => .error .dangling
      | some e =>
          match e.vars.get? name with
          | some value => .ok (owner, value)
          | none => .error (.notBound name depth)

/-- The value of a name exactly `depth` scopes up from `env`. -/
def getAt (st : Store) (env depth : Nat) (name : Bytes) : Except Defect Value :=
  (st.bindingAt env depth name).map Prod.snd

/-- Changes the value of a name exactly `depth` scopes up from `env`. -/
def assignAt (st : Store) (env depth : Nat) (name : Bytes) (value : Value) :
    Except Defect Store :=
  (st.bindingAt env depth name).map fun found => st.define found.1 name value

/-! ## Functions, classes and instances -/

def newFunction (st : Store) (closure : Closure) : Nat × Store :=
  (st.functions.size, { st with functions := st.functions.push closure })

def newClass (st : Store) (cls : Class) : Nat × Store :=
  (st.classes.size, { st with classes := st.classes.push cls })

def newInstance (st : Store) (cls : Nat) : Nat × Store :=
  (st.instances.size, { st with instances := st.instances.push ⟨cls, Bindings.empty⟩ })

def newNative (st : Store) (native : Native) : Nat × Store :=
  (st.natives.size, { st with natives := st.natives.push native })

/-- Sets a field of an instance. -/
def setField (st : Store) (object : Nat) (name : Bytes) (value : Value) : Store :=
  { st with
    instances := st.instances.modify object fun o => { o with fields := o.fields.set name value } }

/-- Walks upwards from a class, at most `steps` classes, to the first that declares a
method. -/
def searchMethod (st : Store) (name : Bytes) : (steps cls : Nat) → Option Closure
  | 0, _ => none
  | steps + 1, cls =>
      match st.classes[cls]? with
      | none => none
      | some c =>
          match c.own? name with
          | some closure => some closure
          | none =>
              match c.superclass with
              | some parent => searchMethod st name steps parent
              | none => none

/-- The method of a class or of the nearest class above it. A superclass is older
than its subclasses, so `cls + 1` steps reach the topmost one. -/
def method? (st : Store) (cls : Nat) (name : Bytes) : Option Closure :=
  st.searchMethod name (cls + 1) cls

/-- A method bound to an instance: its environment gets one more scope, which holds
`this`. -/
def bindMethod (st : Store) (method : Closure) (object : Nat) : Closure × Store :=
  let (env, st) :=
    st.newEnv (some method.env) (Bindings.empty.set (utf8 "this") (.objectRef object))
  (⟨method.decl, env⟩, st)

/-! ## Text of values -/

/-- The name of an object after a word for its sort. -/
def label (sort : Bytes) : Option Bytes → Bytes
  | some name => utf8 "<" ++ sort ++ utf8 " " ++ name ++ utf8 ">"
  | none => utf8 "<?>"

/-- A value as `print` shows it. -/
def text (st : Store) : Value → Bytes
  | .nil => utf8 "nil"
  | .bool true => utf8 "true"
  | .bool false => utf8 "false"
  | .number value => Number.text Value.spelling value
  | .string value => value
  | .classRef ref => label (utf8 "class") (st.classes[ref]?.map Class.name)
  | .objectRef ref =>
      label (utf8 "instance")
        ((st.instances[ref]?.bind fun o => st.classes[o.cls]?).map Class.name)
  | .function ref => label (utf8 "fn") (st.functions[ref]?.map fun f => f.decl.name.text)
  | .native ref => label (utf8 "native fn") (st.natives[ref]?.map Native.name)
  | .unknown _ => utf8 "<?>"

/-- A value as error messages show it: as printed, but strings are quoted. -/
def debugText (st : Store) : Value → Bytes
  | .string value => Bytes.quoted value
  | v => st.text v

end Store

end LoxMachine
