import LoxMachine.Bytes.Quoted
import LoxMachine.Tree

/-!
# Trees as text

The text of a tree is a parenthesised list: the name of the node, then its parts.
Names stand between bars, and absent parts are left out.  Each function puts the
text of a node in front of the text that follows it, so a tree is written in one
pass.
-/

namespace LoxMachine

/-- Numbers in a tree spell the infinities with their sign. -/
def Literal.spelling : Number.Spelling :=
  ⟨utf8 "+Inf", utf8 "-Inf", utf8 "NaN"⟩

def Literal.text : Literal → Bytes
  | .nil => utf8 "nil"
  | .bool true => utf8 "true"
  | .bool false => utf8 "false"
  | .number value => Number.text spelling value
  | .string value => Bytes.quoted value

/-- A name between bars. -/
def Name.barred (name : Name) (rest : Bytes) : Bytes :=
  124 :: (name.text ++ 124 :: rest)

/-- The end of a node. -/
def closing (rest : Bytes) : Bytes :=
  41 :: rest

mutual

/-- The text of an expression, in front of `rest`. -/
def Expr.onto : Expr → Bytes → Bytes
  | .literal value _, rest => utf8 "(literal " ++ (value.text ++ closing rest)
  | .var _ name, rest => utf8 "(var " ++ name.barred (closing rest)
  | .assign _ name value _, rest =>
      utf8 "(assign " ++ name.barred (32 :: value.onto (closing rest))
  | .unary op operand _, rest =>
      40 :: (op.spelling ++ 32 :: operand.onto (closing rest))
  | .binary op left right _, rest =>
      40 :: (op.spelling ++ 32 :: left.onto (32 :: right.onto (closing rest)))
  | .logical op left right _, rest =>
      40 :: (op.spelling ++ 32 :: left.onto (32 :: right.onto (closing rest)))
  | .group inner _, rest => utf8 "(group " ++ inner.onto (closing rest)
  | .call callee args _, rest =>
      utf8 "(call " ++ callee.onto (Expr.allOnto args (closing rest))
  | .get object name _, rest =>
      utf8 "(get " ++ object.onto (32 :: name.barred (closing rest))
  | .set object name value _, rest =>
      utf8 "(set " ++ object.onto (32 :: name.barred (32 :: value.onto (closing rest)))
  | .this _ _, rest => utf8 "(this)" ++ rest
  | .super _ _ _ method _, rest => utf8 "(super " ++ method.barred (closing rest)

/-- The texts of expressions, each after a space. -/
def Expr.allOnto : List Expr → Bytes → Bytes
  | [], rest => rest
  | e :: more, rest => 32 :: e.onto (Expr.allOnto more rest)

end

def Expr.text (e : Expr) : Bytes :=
  e.onto []

/-- An optional expression after a space, or nothing. -/
def Expr.optionOnto : Option Expr → Bytes → Bytes
  | none, rest => rest
  | some e, rest => 32 :: e.onto rest

/-- Parameter names between parentheses. -/
def Name.listOnto (names : List Name) (rest : Bytes) : Bytes :=
  40 :: (Bytes.join (utf8 " ") (names.map fun name => name.barred []) ++ closing rest)

def Superclass.optionOnto : Option Superclass → Bytes → Bytes
  | none, rest => rest
  | some s, rest => utf8 " (var " ++ s.name.barred (closing rest)

mutual

/-- The text of a statement, in front of `rest`. -/
def Stmt.onto : Stmt → Bytes → Bytes
  | .expr value _, rest => utf8 "(expr " ++ value.onto (closing rest)
  | .print value _, rest => utf8 "(print " ++ value.onto (closing rest)
  | .assert value _, rest => utf8 "(assert " ++ value.onto (closing rest)
  | .assertEqual left right _, rest =>
      utf8 "(assert== " ++ left.onto (32 :: right.onto (closing rest))
  | .var name init _, rest =>
      utf8 "(var " ++ name.barred (Expr.optionOnto init (closing rest))
  | .block body _, rest => utf8 "(block" ++ Stmt.allOnto body (closing rest)
  | .cond test thenBranch none _, rest =>
      utf8 "(if " ++ test.onto (32 :: thenBranch.onto (closing rest))
  | .cond test thenBranch (some elseBranch) _, rest =>
      utf8 "(if " ++ test.onto
        (32 :: thenBranch.onto (32 :: elseBranch.onto (closing rest)))
  | .loop test body _, rest =>
      utf8 "(while " ++ test.onto (32 :: body.onto (closing rest))
  | .ret _ value _, rest => utf8 "(return" ++ Expr.optionOnto value (closing rest)
  | .function decl, rest => decl.onto rest
  | .classDecl name superclass methods _, rest =>
      utf8 "(class " ++ name.barred
        (Superclass.optionOnto superclass (Function.allOnto methods (closing rest)))

/-- The texts of statements, each after a space. -/
def Stmt.allOnto : List Stmt → Bytes → Bytes
  | [], rest => rest
  | s :: more, rest => 32 :: s.onto (Stmt.allOnto more rest)

/-- The text of a function declaration, in front of `rest`. -/
def Function.onto : Function → Bytes → Bytes
  | .mk _ name params body _, rest =>
      utf8 "(fun " ++ name.barred
        (32 :: Name.listOnto params (Stmt.allOnto body (closing rest)))

/-- The texts of methods, each after a space. -/
def Function.allOnto : List Function → Bytes → Bytes
  | [], rest => rest
  | f :: more, rest => 32 :: f.onto (Function.allOnto more rest)

end

def Stmt.text (s : Stmt) : Bytes :=
  s.onto []

/-- The text of a whole module. -/
def Module.text (m : Module) : Bytes :=
  utf8 "(module " ++ m.kind.name ++ Stmt.allOnto m.body (closing [])

/-- The statements of a module, one line each. -/
def Module.dump (m : Module) : Bytes :=
  Bytes.join (utf8 "\n") (m.body.map Stmt.text)

end LoxMachine
