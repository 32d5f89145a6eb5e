import LoxMachine.Tree.Parser

/-!
# Parsing expressions

Binary operators are parsed by climbing their levels, all of them associating to
the left.  Each parser here takes the parser of its operands as an argument; the
knot is tied in `expression`, whose first argument bounds the nesting.
-/

namespace LoxMachine.Parser

/-! ## Binary operators -/

/-- An operator between two operands. -/
inductive Operator where
  | binary (op : BinaryOp)
  | logical (op : LogicalOp)
  deriving DecidableEq

namespace Operator

def ofKind? : Kind → Option Operator
  | .star => some (.binary .multiply)
  | .slash => some (.binary .divide)
  | .plus => some (.binary .add)
  | .minus => some (.binary .subtract)
  | .less => some (.binary .less)
  | .lessEqual => some (.binary .lessEqual)
  | .greater => some (.binary .greater)
  | .greaterEqual => some (.binary .greaterEqual)
  | .equalEqual => some (.binary .equal)
  | .bangEqual => some (.binary .notEqual)
  | .keyword .andWord => some (.logical .and)
  | .keyword .orWord => some (.logical .or)
  | _ => none

/-- How tightly an operator binds, from `or` at one to products at six. -/
def level : Operator → Nat
  | .logical .or => 1
  | .logical .and => 2
  | .binary .equal => 3
  | .binary .notEqual => 3
  | .binary .less => 4
  | .binary .lessEqual => 4
  | .binary .greater => 4
  | .binary .greaterEqual => 4
  | .binary .add => 5
  | .binary .subtract => 5
  | .binary .multiply => 6
  | .binary .divide => 6

/-- The node of an operator and its operands. -/
def node (op : Operator) (left right : Expr) : Expr :=
  let span := left.span.join right.span
  match op with
  | .binary op => .binary op left right span
  | .logical op => .logical op left right span

end Operator

mutual

/-- An operand and the operators after it that bind at least as tightly as
`level`. -/
def climb (operand : Parser Expr) : (steps level : Nat) → Parser Expr
  | 0, _ => exhaust
  | steps + 1, level => do
      let left ← operand
      extend operand steps level left

/-- Extends `left` by the operators after it that bind at least as tightly as
`level`. -/
def extend (operand : Parser Expr) : (steps level : Nat) → (left : Expr) → Parser Expr
  | 0, _, _ => exhaust
  | steps + 1, level, left => do
      match Operator.ofKind? (← peek).kind with
      | none => return left
      | some op =>
          if op.level < level then return left
          else
            skip
            let right ← climb operand steps (op.level + 1)
            extend operand steps level (op.node left right)

end

/-! ## Operands -/

/-- The text between the quotes of a string literal. -/
def unquoted (text : Bytes) : Bytes :=
  if 2 ≤ text.length ∧ text.head? = some 34 ∧ text.getLast? = some 34 then
    (text.drop 1).dropLast
  else text

/-- The literal of a number token.  A text that is no number stands for zero and is complained
about; tokens that are scanned have none. -/
def numberLiteral (token : Token) : Parser Expr := do
  if Token.isNumeral token.text then
    return .literal (.number (Number.ofLiteral token.text)) token.range
  else
    complain token.range (.invalidNumber token.text)
    return .literal (.number 0) token.range

/-- The simplest expressions: literals, names, `this`, `super` with a method, and an
`inner` expression between parentheses. -/
def primary (inner : Parser Expr) : Parser Expr := do
  let token ← peek
  match token.kind with
  | .keyword .falseWord =>
      skip
      return .literal (.bool false) token.range
  | .keyword .trueWord =>
      skip
      return .literal (.bool true) token.range
  | .keyword .nilWord =>
      skip
      return .literal .nil token.range
  | .number =>
      skip
      numberLiteral token
  | .string =>
      skip
      return .literal (.string (unquoted token.text)) token.range
  | .keyword .superWord =>
      skip
      let _ ← expect .dot (utf8 "'.' after 'super'")
      let method ← expectName (utf8 "superclass method name")
      let id ← nextId
      let thisId ← nextId
      return .super id thisId token.range method (token.range.join method.range)
  | .keyword .thisWord =>
      skip
      let id ← nextId
      return .this id token.range
  | .identifier =>
      skip
      let id ← nextId
      return .var id ⟨token.text, token.range⟩
  | .leftParen =>
      skip
      let e ← inner
      let close ← expect .rightParen (utf8 "')' after parenthesized expression")
      return .group e (token.range.join close.range)
  | _ =>
      complain token.range .expectedExpression
      giveUp

/-- One or more arguments with commas between them, after those in `before`, latest
first. -/
def arguments (inner : Parser Expr) : (steps : Nat) → (before : List Expr) →
    Parser (List Expr)
  | 0, _ => exhaust
  | steps + 1, before => do
      let e ← inner
      match ← accept? .comma with
      | some _ => arguments inner steps (e :: before)
      | none => return (e :: before).reverse

/-- Extends `e` by the calls and property accesses after it. -/
def suffixes (inner : Parser Expr) : (steps : Nat) → (e : Expr) → Parser Expr
  | 0, _ => exhaust
  | steps + 1, e => do
      match (← peek).kind with
      | .leftParen =>
          skip
          let args ← if ← isAt .rightParen then pure [] else arguments inner steps []
          let close ← expect .rightParen (utf8 "')' after argument list")
          suffixes inner steps (.call e args (e.span.join close.range))
      | .dot =>
          skip
          let name ← expectName (utf8 "property name")
          suffixes inner steps (.get e name (e.span.join name.range))
      | _ => return e

/-- The operator a token stands for in front of an operand. -/
def unaryOp? : Kind → Option UnaryOp
  | .bang => some .not
  | .minus => some .negate
  | _ => none

/-- An operand with any number of unary operators in front. -/
def unary (operand : Parser Expr) : (steps : Nat) → Parser Expr
  | 0 => exhaust
  | steps + 1 => do
      let token ← peek
      match unaryOp? token.kind with
      | none => operand
      | some op =>
          skip
          let e ← unary operand steps
          return .unary op e (token.range.join e.span)

/-- A simple expression with its calls, property accesses and unary operators. -/
def operand (inner : Parser Expr) (steps : Nat) : Parser Expr :=
  unary (do let e ← primary inner; suffixes inner steps e) steps

/-! ## Assignment -/

/-- The assignment of `value` to what `target` denotes. Only variables and
properties can be assigned to; any other target draws a complaint at the equals
sign and stays as it is. -/
def assignTo (target value : Expr) (equals : Range) : Parser Expr := do
  let span := target.span.join value.span
  match target with
  | .var _ name =>
      let id ← nextId
      return .assign id name value span
  | .get object name _ => return .set object name value span
  | _ =>
      complain equals .invalidTarget
      return target

/-- An expression nested at most `steps` deep. -/
def expression : (steps : Nat) → Parser Expr
  | 0 => exhaust
  | steps + 1 => do
      let target ← climb (operand (expression steps) (steps + 1)) (steps + 1) 1
      match ← accept? .equal with
      | none => return target
      | some equals =>
          let value ← expression steps
          assignTo target value equals.range

end LoxMachine.Parser
