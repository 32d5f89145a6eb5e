import LoxMachine.Depths
import LoxMachine.Options
import LoxMachine.Report
import LoxMachine.Store

/-!
# The machine

A program runs on an abstract machine.  Its state is what it is about to do, the
frames that wait for the outcome, the current environment, the number of active
calls, the store, and what has been written.  Nothing the machine does grows with
the depth of the program's own recursion except the list of frames.
-/

namespace LoxMachine

/-! ## Errors of a running program -/

/-- Why a program cannot continue. -/
inductive Cause where
  | assertionFailed
  | assertionUnequal (left right : Bytes)
  | onlyInstances
  | undefinedVariable (name : Bytes)
  | undefinedProperty (name : Bytes)
  | unsupportedOperand (operand : ValueKind)
  | unsupportedOperation (left : ValueKind) (op : BinaryOp) (right : ValueKind)
  | notCallable (callee : Bytes)
  | tooFewArguments (callee : Bytes)
  | tooManyArguments (callee : Bytes)
  | stackOverflow
  | superclassNotClass
  | other (message : Bytes)
  deriving DecidableEq

def Cause.message : Cause → Bytes
  | .assertionFailed => utf8 "assertion failed"
  | .assertionUnequal left right =>
      utf8 "assertion failed: " ++ left ++ utf8 " != " ++ right
  | .onlyInstances => utf8 "only instances have properties"
  | .undefinedVariable name => utf8 "undefined variable '" ++ name ++ utf8 "'"
  | .undefinedProperty name => utf8 "undefined property '" ++ name ++ utf8 "'"
  | .unsupportedOperand operand => utf8 "unsupported operand: -" ++ operand.name
  | .unsupportedOperation left op right =>
      utf8 "unsupported operation: " ++ left.name ++ utf8 " " ++ op.spelling ++ utf8 " "
        ++ right.name
  | .notCallable callee => callee ++ utf8 " is not callable"
  | .tooFewArguments callee => utf8 "too few arguments for " ++ callee
  | .tooManyArguments callee => utf8 "too many arguments for " ++ callee
  | .stackOverflow => utf8 "stack overflow"
  | .superclassNotClass => utf8 "superclass must be a class"
  | .other message => message

/-- An error of a running program: the place in the program and the cause. -/
structure RuntimeError where
  range : Range
  cause : Cause
  deriving DecidableEq

namespace RuntimeError

/-- The error with its place, as far as it has one. -/
def message (e : RuntimeError) : Bytes :=
  match e.range.source with
  | none => e.cause.message
  | some _ => e.range.toText ++ utf8 ": " ++ e.cause.message

def diagnostic (e : RuntimeError) : Diagnostic :=
  ⟨.error, e.range, e.cause.message⟩

end RuntimeError

/-! ## What is written -/

/-- A record of the log: what happened, and what is known about it. -/
structure Record where
  message : Bytes
  attributes : List (Bytes × Bytes)
  deriving DecidableEq

/-- What a run leaves behind for a reader, in order: lines and log records. -/
inductive Event where
  | line (text : Bytes)
  | record (entry : Record)
  deriving DecidableEq

/-! ## States -/

/-- What waits for an outcome. The first group waits for the value of an expression,
the second for the end of a statement or of a call. -/
inductive Frame where
  | assign (id : Nat) (name : Name)
  | unary (op : UnaryOp) (span : Range)
  | left (op : BinaryOp) (right : Expr) (span : Range)
  | right (op : BinaryOp) (left : Value) (span : Range)
  | logical (op : LogicalOp) (right : Expr)
  | callee (args : List Expr) (span : Range)
  | argument (callee : Value) (before : List Value) (rest : List Expr) (span : Range)
  | get (name : Name)
  | target (name : Name) (value : Expr)
  | field (object : Nat) (name : Name)
  | discard
  | print
  | assert (range : Range)
  | assertLeft (right : Expr) (range : Range)
  | assertRight (left : Value) (range : Range)
  | branch (thenBranch : Stmt) (elseBranch : Option Stmt)
  | test (test : Expr) (body : Stmt)
  | declare (name : Name)
  | giveBack
  | construct (object : Nat)
  | protect
  | body (test : Expr) (body : Stmt)
  | sequence (rest : List Stmt)
  | scope (saved : Nat)
  | activation (saved : Nat) (closure : Closure)
  | program (rest : List Stmt)

/-- What the machine is about to do: evaluate, execute or call something, or hand an
outcome to the topmost frame. -/
inductive Control where
  | eval (e : Expr)
  | exec (s : Stmt)
  | run (body : List Stmt)
  | call (range : Range) (callee : Value) (args : List Value)
  | value (v : Value)
  | done
  | returning (v : Value)
  | failing (e : RuntimeError)

/-- A state of the machine. -/
structure State where
  control : Control
  frames : List Frame
  env : Nat
  depth : Nat
  store : Store
  trace : Array Event

/-- What does not change during a run. -/
structure Setting where
  depths : Depths
  options : Options
  logging : Bool

/-- How a run ends. A defect is an inconsistency of the machine, not an error of the
program. -/
inductive Ending where
  | finished
  | failed (e : RuntimeError)
  | broken (d : Defect)
  deriving DecidableEq

/-- The outcome of one step. -/
inductive Progress where
  | next (s : State)
  | halt (ending : Ending) (s : State)

end LoxMachine
