import LoxMachine.Token.Scan
import LoxMachine.Tree

/-!
# Parsers over tokens

A parser moves a cursor over the tokens of a text.  It succeeds with a value, or
it records a diagnostic and gives up, in which case the cursor stays where the
problem was found and parsing resumes at the next statement.
-/

namespace LoxMachine

/-- Where a parser stands: the tokens to come, the token that marks the end, the
last node number given out, and the diagnostics so far. -/
structure Cursor where
  rest : List Token
  eof : Token
  lastId : Nat
  bag : Bag

/-- The outcome of a parser. `stuck` asks for recovery; `exhausted` says that the
bound on nesting was too small, which a bound taken from the number of tokens
never is. -/
inductive Parsed (α : Type) where
  | ok (value : α) (next : Cursor)
  | stuck (next : Cursor)
  | exhausted

/-- A parser of values of type `α`. -/
def Parser (α : Type) : Type :=
  Cursor → Parsed α

namespace Parser

@[always_inline, inline]
protected def pure {α : Type} (a : α) : Parser α :=
  fun c => .ok a c

@[always_inline, inline]
protected def bind {α β : Type} (p : Parser α) (f : α → Parser β) : Parser β :=
  fun c =>
    match p c with
    | .ok a next => f a next
    | .stuck next => .stuck next
    | .exhausted => .exhausted

instance : Monad Parser where
  pure := Parser.pure
  bind := Parser.bind

/-- What is wrong with a text at some token. -/
inductive Complaint where
  | missing (found : Kind) (wanted : Bytes)
  | expectedExpression
  | invalidTarget
  | invalidNumber (text : Bytes)
  deriving DecidableEq

def Complaint.message : Complaint → Bytes
  | .missing found wanted => utf8 "received " ++ found.name ++ utf8 ", expected " ++ wanted
  | .expectedExpression => utf8 "expected expression"
  | .invalidTarget => utf8 "invalid assignment target"
  | .invalidNumber text => utf8 "invalid number literal " ++ text

/-- The token at the cursor. -/
def peek : Parser Token :=
  fun c => .ok (c.rest.headD c.eof) c

/-- Moves past the token at the cursor, but never past the end. -/
def skip : Parser Unit :=
  fun c =>
    match c.rest with
    | [] => .ok () c
    | t :: rest => if t.kind = .eof then .ok () c else .ok () { c with rest := rest }

/-- Takes the token at the cursor if it has that kind. -/
def accept? (kind : Kind) : Parser (Option Token) := do
  let token ← peek
  if token.kind = kind then
    skip
    return some token
  else return none

/-- Whether the token at the cursor has that kind. -/
def isAt (kind : Kind) : Parser Bool := do
  return (← peek).kind = kind

/-- A number for a new node. Numbers start at one and are never used again. -/
def nextId : Parser Nat :=
  fun c => .ok (c.lastId + 1) { c with lastId := c.lastId + 1 }

/-- Records a complaint and continues. -/
def complain (range : Range) (complaint : Complaint) : Parser Unit :=
  fun c => .ok () { c with bag := c.bag.error range complaint.message }

/-- Gives up on the current declaration. -/
def giveUp {α : Type} : Parser α :=
  fun c => .stuck c

/-- Stops for want of steps. -/
def exhaust {α : Type} : Parser α :=
  fun _ => .exhausted

/-- Takes a token of that kind, or complains that `wanted` is missing and gives up. -/
def expect (kind : Kind) (wanted : Bytes) : Parser Token := do
  let token ← peek
  if token.kind = kind then
    skip
    return token
  else
    complain token.range (.missing token.kind wanted)
    giveUp

/-- An identifier as a name. -/
def expectName (wanted : Bytes) : Parser Name := do
  let token ← expect .identifier wanted
  return ⟨token.text, token.range⟩

/-! ## Recovery -/

/-- Whether a statement or declaration can start with this kind, other than with an
expression or a brace. -/
def startsStatement : Kind → Bool
  | .keyword .varWord => true
  | .keyword .funWord => true
  | .keyword .classWord => true
  | .keyword .ifWord => true
  | .keyword .whileWord => true
  | .keyword .forWord => true
  | .keyword .printWord => true
  | .keyword .returnWord => true
  | .keyword .assertWord => true
  | _ => false

/-- The tokens from the next place to resume at: after a semicolon, or in front of
the start of a statement. `last` is the kind just passed. -/
def resume (last : Kind) : List Token → List Token
  | [] => []
  | t :: rest =>
      if t.kind = .eof ∨ last = .semicolon ∨ startsStatement t.kind = true then t :: rest
      else resume t.kind rest

/-- Skips the offending token and what follows up to the next place to resume at. -/
def synchronize (c : Cursor) : Cursor :=
  match c.rest with
  | [] => c
  | t :: rest => if t.kind = .eof then c else { c with rest := resume t.kind rest }

/-- Runs a parser and, if it gives up, moves to the next place to resume at. -/
def recovering {α : Type} (p : Parser α) : Parser (Option α) :=
  fun c =>
    match p c with
    | .ok a next => .ok (some a) next
    | .stuck next => .ok none (synchronize next)
    | .exhausted => .exhausted

end Parser

end LoxMachine
