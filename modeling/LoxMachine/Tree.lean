import LoxMachine.Number
import LoxMachine.Source

/-!
# Syntax trees

Expressions, statements and modules.  Nodes that refer to a variable carry a
number, by which later stages record what the reference means; every node knows
the range it was read from.
-/

namespace LoxMachine

/-- An identifier and where it stands. -/
structure Name where
  text : Bytes
  range : Range
  deriving DecidableEq

inductive Literal where
  | nil
  | bool (value : Bool)
  | number (value : Float)
  | string (value : Bytes)

inductive UnaryOp where
  | not
  | negate
  deriving DecidableEq

inductive BinaryOp where
  | equal
  | notEqual
  | less
  | lessEqual
  | greater
  | greaterEqual
  | add
  | subtract
  | multiply
  | divide
  deriving DecidableEq

inductive LogicalOp where
  | and
  | or
  deriving DecidableEq

def UnaryOp.spelling : UnaryOp → Bytes
  | .not => utf8 "!"
  | .negate => utf8 "-"

def BinaryOp.spelling : BinaryOp → Bytes
  | .equal => utf8 "=="
  | .notEqual => utf8 "!="
  | .less => utf8 "<"
  | .lessEqual => utf8 "<="
  | .greater => utf8 ">"
  | .greaterEqual => utf8 ">="
  | .add => utf8 "+"
  | .subtract => utf8 "-"
  | .multiply => utf8 "*"
  | .divide => utf8 "/"

def LogicalOp.spelling : LogicalOp → Bytes
  | .and => utf8 "and"
  | .or => utf8 "or"

/-- Expressions. `super` refers to two variables, the class it starts from and the
receiver, and has a number for each. -/
inductive Expr where
  | literal (value : Literal) (span : Range)
  | var (id : Nat) (name : Name)
  | assign (id : Nat) (name : Name) (value : Expr) (span : Range)
  | unary (op : UnaryOp) (operand : Expr) (span : Range)
  | binary (op : BinaryOp) (left right : Expr) (span : Range)
  | logical (op : LogicalOp) (left right : Expr) (span : Range)
  | group (inner : Expr) (span : Range)
  | call (callee : Expr) (args : List Expr) (span : Range)
  | get (object : Expr) (name : Name) (span : Range)
  | set (object : Expr) (name : Name) (value : Expr) (span : Range)
  | this (id : Nat) (keyword : Range)
  | super (id thisId : Nat) (keyword : Range) (method : Name) (span : Range)

def Expr.span : Expr → Range
  | .literal _ span => span
  | .var _ name => name.range
  | .assign _ _ _ span => span
  | .unary _ _ span => span
  | .binary _ _ _ span => span
  | .logical _ _ _ span => span
  | .group _ span => span
  | .call _ _ span => span
  | .get _ _ span => span
  | .set _ _ _ span => span
  | .this _ keyword => keyword
  | .super _ _ _ _ span => span

/-- What kind of function a declaration makes. -/
inductive FunctionKind where
  | function
  | method
  | initializer
  deriving DecidableEq

/-- The superclass of a class declaration: a reference to a variable. -/
structure Superclass where
  id : Nat
  name : Name
  deriving DecidableEq

mutual

/-- Statements. `assertEqual` is an assertion of the form `a == b`, kept apart so
that its failure can show both sides. -/
inductive Stmt where
  | expr (value : Expr) (span : Range)
  | print (value : Expr) (span : Range)
  | assert (value : Expr) (span : Range)
  | assertEqual (left right : Expr) (span : Range)
  | var (name : Name) (init : Option Expr) (span : Range)
  | block (body : List Stmt) (span : Range)
  | cond (test : Expr) (thenBranch : Stmt) (elseBranch : Option Stmt) (span : Range)
  | loop (test : Expr) (body : Stmt) (span : Range)
  | ret (keyword : Range) (value : Option Expr) (span : Range)
  | function (decl : Function)
  | classDecl (name : Name) (superclass : Option Superclass) (methods : List Function)
      (span : Range)

/-- A function declaration. Its body shares one scope with the parameters. -/
inductive Function where
  | mk (kind : FunctionKind) (name : Name) (params : List Name) (body : List Stmt)
      (span : Range)

end

namespace Function

def kind : Function → FunctionKind
  | .mk kind _ _ _ _ => kind

def name : Function → Name
  | .mk _ name _ _ _ => name

def params : Function → List Name
  | .mk _ _ params _ _ => params

def body : Function → List Stmt
  | .mk _ _ _ body _ => body

def span : Function → Range
  | .mk _ _ _ _ span => span

/-- The number of arguments a call has to supply. -/
def arity (f : Function) : Nat :=
  f.params.length

end Function

def Stmt.span : Stmt → Range
  | .expr _ span => span
  | .print _ span => span
  | .assert _ span => span
  | .assertEqual _ _ span => span
  | .var _ _ span => span
  | .block _ span => span
  | .cond _ _ _ span => span
  | .loop _ _ span => span
  | .ret _ _ span => span
  | .function decl => decl.span
  | .classDecl _ _ _ span => span

/-- How a module is run: a file of its own, or a line of an interactive session,
which shares the global scope. -/
inductive ModuleKind where
  | sourceFile
  | replLine
  | unknown
  deriving DecidableEq

namespace ModuleKind

def name : ModuleKind → Bytes
  | .sourceFile => utf8 "source-file"
  | .replLine => utf8 "repl-line"
  | .unknown => utf8 "unknown"

/-- Whether the module has a top-level scope of its own. -/
def isolated (kind : ModuleKind) : Bool :=
  kind ≠ .replLine

end ModuleKind

/-- One parsed text. -/
structure Module where
  kind : ModuleKind
  body : List Stmt
  span : Range

end LoxMachine
