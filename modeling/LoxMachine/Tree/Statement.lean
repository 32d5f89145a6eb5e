import LoxMachine.Tree.Expression

/-!
# Parsing statements and modules

Declarations, statements and whole modules.  A declaration that breaks off is
dropped, and parsing resumes behind it; the module then holds the declarations
that were read in full.
-/

namespace LoxMachine.Parser

/-! ## Simple statements -/

/-- The rest of a variable declaration, after `var`. -/
def variableRest (expr : Parser Expr) (start : Range) : Parser Stmt := do
  let name ← expectName (utf8 "variable name")
  let init ←
    match ← accept? .equal with
    | some _ => do let e ← expr; pure (some e)
    | none => pure none
  let close ← expect .semicolon (utf8 "';' after variable declaration")
  return .var name init (start.join close.range)

def printRest (expr : Parser Expr) (start : Range) : Parser Stmt := do
  let e ← expr
  let close ← expect .semicolon (utf8 "';' after printed value")
  return .print e (start.join close.range)

/-- The statement that asserts `e`, where an equation is taken apart. -/
def assertion (e : Expr) (span : Range) : Stmt :=
  match e with
  | .binary .equal left right _ => .assertEqual left right span
  | e => .assert e span

def assertRest (expr : Parser Expr) (start : Range) : Parser Stmt := do
  let e ← expr
  let close ← expect .semicolon (utf8 "';' after asserted value")
  return assertion e (start.join close.range)

def returnRest (expr : Parser Expr) (start : Range) : Parser Stmt := do
  let value ← if ← isAt .semicolon then pure none else do let e ← expr; pure (some e)
  let close ← expect .semicolon (utf8 "';' after return value")
  return .ret start value (start.join close.range)

/-- An expression and a semicolon. -/
def expressionStatement (expr : Parser Expr) (wanted : Bytes) : Parser Stmt := do
  let e ← expr
  let close ← expect .semicolon wanted
  return .expr e (e.span.join close.range)

/-! ## Control flow -/

/-- A condition between parentheses. -/
def condition (expr : Parser Expr) : Parser Expr := do
  let _ ← expect .leftParen (utf8 "'(' before condition")
  let test ← expr
  let _ ← expect .rightParen (utf8 "')' after condition")
  return test

def ifRest (expr : Parser Expr) (stmt : Parser Stmt) (start : Range) : Parser Stmt := do
  let test ← condition expr
  let thenBranch ← stmt
  match ← accept? (.keyword .elseWord) with
  | some _ =>
      let elseBranch ← stmt
      return .cond test thenBranch (some elseBranch) (start.join elseBranch.span)
  | none => return .cond test thenBranch none (start.join thenBranch.span)

def whileRest (expr : Parser Expr) (stmt : Parser Stmt) (start : Range) : Parser Stmt := do
  let test ← condition expr
  let body ← stmt
  return .loop test body (start.join body.span)

/-- The clauses of a `for` statement as a loop. The step runs after the body, in a
block with it; the initializer and the loop share a block of their own. -/
def forLoop (init : Option Stmt) (test : Expr) (step : Option Expr) (body : Stmt)
    (span : Range) : Stmt :=
  let body :=
    match step with
    | some e => .block [body, .expr e e.span] body.span
    | none => body
  let loop := Stmt.loop test body span
  match init with
  | some s => .block [s, loop] span
  | none => loop

/-- The first clause of a `for` statement, up to its semicolon. -/
def forInit (expr : Parser Expr) : Parser (Option Stmt) := do
  let token ← peek
  match token.kind with
  | .semicolon =>
      skip
      return none
  | .keyword .varWord =>
      skip
      let s ← variableRest expr token.range
      return some s
  | _ =>
      let s ← expressionStatement expr (utf8 "';' after loop initializer")
      return some s

def forRest (expr : Parser Expr) (stmt : Parser Stmt) (start : Range) : Parser Stmt := do
  let _ ← expect .leftParen (utf8 "'(' after 'for'")
  let init ← forInit expr
  let test ← if ← isAt .semicolon then pure none else do let e ← expr; pure (some e)
  let close ← expect .semicolon (utf8 "';' after loop condition")
  let test := test.getD (.literal (.bool true) close.range)
  let step ← if ← isAt .rightParen then pure none else do let e ← expr; pure (some e)
  let _ ← expect .rightParen (utf8 "')' after for clauses")
  let body ← stmt
  return forLoop init test step body (start.join body.span)

/-! ## Blocks, functions and classes -/

/-- Whether a block ends here. -/
def atBlockEnd : Parser Bool := do
  let token ← peek
  return token.kind = .rightBrace || token.kind = .eof

/-- Declarations up to the end of a block, after those in `before`, latest first. -/
def declarations (decl : Parser (Option Stmt)) : (steps : Nat) → (before : List Stmt) →
    Parser (List Stmt)
  | 0, _ => exhaust
  | steps + 1, before => do
      if ← atBlockEnd then return before.reverse
      else
        match ← decl with
        | some s => declarations decl steps (s :: before)
        | none => declarations decl steps before

/-- The declarations of a block and its closing brace. -/
def blockRest (decl : Parser (Option Stmt)) (steps : Nat) : Parser (List Stmt × Range) := do
  let body ← declarations decl steps []
  let close ← expect .rightBrace (utf8 "'\x7d' after block")
  return (body, close.range)

/-- One or more parameters with commas between them, after those in `before`, latest
first. -/
def parameters : (steps : Nat) → (before : List Name) → Parser (List Name)
  | 0, _ => exhaust
  | steps + 1, before => do
      let name ← expectName (utf8 "parameter name")
      match ← accept? .comma with
      | some _ => parameters steps (name :: before)
      | none => return (name :: before).reverse

/-- The word for a kind of function in complaints. -/
def functionWord : FunctionKind → Bytes
  | .function => utf8 "function"
  | .method => utf8 "method"
  | .initializer => utf8 "initializer"

/-- A method named `init` is an initializer. -/
def declaredKind (kind : FunctionKind) (name : Name) : FunctionKind :=
  if kind = .method ∧ name.text = utf8 "init" then .initializer else kind

/-- A function from its name on. -/
def functionRest (decl : Parser (Option Stmt)) (steps : Nat) (kind : FunctionKind)
    (start : Range) : Parser Function := do
  let word := functionWord kind
  let name ← expectName (word ++ utf8 " name")
  let _ ← expect .leftParen (utf8 "'(' after " ++ word ++ utf8 " name")
  let params ← if ← isAt .rightParen then pure [] else parameters steps []
  let _ ← expect .rightParen (utf8 "')' after parameters")
  let _ ← expect .leftBrace (utf8 "'\x7b' before " ++ word ++ utf8 " body")
  let (body, close) ← blockRest decl steps
  return .mk (declaredKind kind name) name params body (start.join close)

/-- Methods up to the end of a class body, after those in `before`, latest first. -/
def methods (decl : Parser (Option Stmt)) : (steps : Nat) → (before : List Function) →
    Parser (List Function)
  | 0, _ => exhaust
  | steps + 1, before => do
      if ← atBlockEnd then return before.reverse
      else
        let start ← peek
        let f ← functionRest decl steps .method start.range
        methods decl steps (f :: before)

def superclass? : Parser (Option Superclass) := do
  match ← accept? .less with
  | none => return none
  | some _ =>
      let name ← expectName (utf8 "superclass name")
      let id ← nextId
      return some ⟨id, name⟩

def classRest (decl : Parser (Option Stmt)) (steps : Nat) (start : Range) : Parser Stmt := do
  let name ← expectName (utf8 "class name")
  let parent ← superclass?
  let _ ← expect .leftBrace (utf8 "'\x7b' at the start of class body")
  let found ← methods decl steps []
  let close ← expect .rightBrace (utf8 "'\x7d' at the end of class body")
  return .classDecl name parent found (start.join close.range)

/-! ## Statements and declarations -/

/-- A statement, given the parsers of what is nested in it. -/
def statementWith (decl : Parser (Option Stmt)) (stmt : Parser Stmt) (steps : Nat) :
    Parser Stmt := do
  let expr := expression steps
  let token ← peek
  match token.kind with
  | .keyword .forWord =>
      skip
      forRest expr stmt token.range
  | .keyword .ifWord =>
      skip
      ifRest expr stmt token.range
  | .keyword .printWord =>
      skip
      printRest expr token.range
  | .keyword .assertWord =>
      skip
      assertRest expr token.range
  | .keyword .whileWord =>
      skip
      whileRest expr stmt token.range
  | .keyword .returnWord =>
      skip
      returnRest expr token.range
  | .leftBrace =>
      skip
      let (body, close) ← blockRest decl steps
      return .block body (token.range.join close)
  | _ => expressionStatement expr (utf8 "';' after expression")

/-- A declaration, given the parsers of what is nested in it. -/
def declarationWith (decl : Parser (Option Stmt)) (stmt : Parser Stmt) (steps : Nat) :
    Parser Stmt := do
  let token ← peek
  match token.kind with
  | .keyword .classWord =>
      skip
      classRest decl steps token.range
  | .keyword .funWord =>
      skip
      let f ← functionRest decl steps .function token.range
      return .function f
  | .keyword .varWord =>
      skip
      variableRest (expression steps) token.range
  | _ => statementWith decl stmt steps

mutual

/-- A statement nested at most `steps` deep. -/
def statement : (steps : Nat) → Parser Stmt
  | 0 => exhaust
  | steps + 1 => statementWith (declaration steps) (statement steps) (steps + 1)

/-- A declaration nested at most `steps` deep; none if it broke off. -/
def declaration : (steps : Nat) → Parser (Option Stmt)
  | 0 => exhaust
  | steps + 1 =>
      recovering (declarationWith (declaration steps) (statement steps) (steps + 1))

end

/-! ## Modules -/

/-- Declarations up to the end, after those in `before`, latest first. -/
def topLevel (decl : Parser (Option Stmt)) : (steps : Nat) → (before : List Stmt) →
    Parser (List Stmt)
  | 0, _ => exhaust
  | steps + 1, before => do
      if ← isAt .eof then return before.reverse
      else
        match ← decl with
        | some s => topLevel decl steps (s :: before)
        | none => topLevel decl steps before

/-- A whole module. -/
def program (kind : ModuleKind) (steps : Nat) : Parser Module := do
  let first ← peek
  let body ← topLevel (declaration steps) steps []
  let last ← peek
  return ⟨kind, body, first.range.join last.range⟩

end LoxMachine.Parser

namespace LoxMachine.Module

/-- Why a token list cannot be parsed at all. -/
inductive Malformed where
  | noEndMarker
  | tooFewSteps
  deriving DecidableEq

def Malformed.message : Malformed → Bytes
  | .noEndMarker => utf8 "parser: token stream must end with EOF"
  | .tooFewSteps => utf8 "parser: nesting exceeds the number of tokens"

/-- What parsing yields: the module, the last node number used, and the diagnostics
after those already there. -/
structure Outcome where
  module : Module
  lastId : Nat
  bag : Bag

/-- Parses a token list that ends with the end marker. Node numbers continue after
`lastId`, so that several modules can share them. -/
def parse (tokens : List Token) (kind : ModuleKind) (lastId : Nat) (bag : Bag) :
    Except Malformed Outcome :=
  match tokens.getLast? with
  | none => .error .noEndMarker
  | some eof =>
      if eof.kind ≠ .eof then .error .noEndMarker
      else
        match Parser.program kind (tokens.length + 1) ⟨tokens.dropLast, eof, lastId, bag⟩ with
        | .ok m c => .ok ⟨m, c.lastId, c.bag⟩
        | .stuck _ => .error .tooFewSteps
        | .exhausted => .error .tooFewSteps

end LoxMachine.Module
