import LoxMachine.Bytes.Quoted
import LoxMachine.Tree

/-!
# Values

A value is plain data or refers to an object by its place in the store.
-/

namespace LoxMachine

/-- Values. The last form is no value a program can make: it stands for a kind that
is not known. -/
inductive Value where
  | nil
  | bool (value : Bool)
  | number (value : Float)
  | string (value : Bytes)
  | classRef (ref : Nat)
  | objectRef (ref : Nat)
  | function (ref : Nat)
  | native (ref : Nat)
  | unknown (tag : Int)

/-- The kinds of value a program can tell apart by an error message. -/
inductive ValueKind where
  | nil
  | boolean
  | number
  | string
  | classKind
  | instanceKind
  | function
  | unknown (tag : Int)
  deriving DecidableEq

def ValueKind.name : ValueKind → Bytes
  | .nil => utf8 "nil"
  | .boolean => utf8 "boolean"
  | .number => utf8 "number"
  | .string => utf8 "string"
  | .classKind => utf8 "class"
  | .instanceKind => utf8 "instance"
  | .function => utf8 "function"
  | .unknown tag => utf8 "ValueKind(" ++ Bytes.decimalInt tag ++ utf8 ")"

namespace Value

def kind : Value → ValueKind
  | .nil => .nil
  | .bool _ => .boolean
  | .number _ => .number
  | .string _ => .string
  | .classRef _ => .classKind
  | .objectRef _ => .instanceKind
  | .function _ => .function
  | .native _ => .function
  | .unknown tag => .unknown tag

/-- The value of a literal. -/
def ofLiteral : Literal → Value
  | .nil => .nil
  | .bool value => .bool value
  | .number value => .number value
  | .string value => .string value

/-- The literal that denotes a value, for plain data. -/
def literal? : Value → Option Literal
  | .nil => some .nil
  | .bool value => some (.bool value)
  | .number value => some (.number value)
  | .string value => some (.string value)
  | _ => none

/-- Everything but `nil` and `false` counts as true. -/
def truthy : Value → Bool
  | .nil => false
  | .bool value => value
  | _ => true

/-- Equality as a program sees it: plain data by value, where a number may differ
from itself, and objects by identity. Values of different kinds differ. -/
def same : Value → Value → Bool
  | .nil, .nil => true
  | .bool a, .bool b => a == b
  | .number a, .number b => a == b
  | .string a, .string b => a == b
  | .classRef a, .classRef b => a == b
  | .objectRef a, .objectRef b => a == b
  | .function a, .function b => a == b
  | .native a, .native b => a == b
  | _, _ => false

def isCallable : Value → Bool
  | .classRef _ => true
  | .function _ => true
  | .native _ => true
  | _ => false

/-- Numbers in output spell the infinities as words. -/
def spelling : Number.Spelling :=
  ⟨utf8 "inf", utf8 "-inf", utf8 "nan"⟩

end Value

end LoxMachine
