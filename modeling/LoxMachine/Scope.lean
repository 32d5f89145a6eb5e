import LoxMachine.Bindings
import LoxMachine.Depths
import LoxMachine.Report

/-!
# Scopes

A pass over a module that follows its scopes.  It records for each reference to a
variable how many scopes it has to climb, and reports what a module may not
contain: a name declared twice in a scope, and `return`, `this` and `super` where
they mean nothing.
-/

namespace LoxMachine.Scope

/-- What is wrong with a module that parses. -/
inductive Violation where
  | alreadyDefined (name : Bytes)
  | returnOutside
  | thisOutside
  | superOutside
  | superWithoutSuperclass
  | inheritsItself
  deriving DecidableEq

def Violation.message : Violation → Bytes
  | .alreadyDefined name =>
      utf8 "item named '" ++ name ++ utf8 "' is already defined in this scope"
  | .returnOutside => utf8 "cannot return outside of functions"
  | .thisOutside => utf8 "cannot use 'this' outside of a class"
  | .superOutside => utf8 "cannot use 'super' outside of a class"
  | .superWithoutSuperclass => utf8 "cannot use 'super' in a class with no superclass"
  | .inheritsItself => utf8 "a class cannot inherit from itself"

/-- The innermost class around a place in a module. -/
inductive Enclosing where
  | noClass
  | plainClass
  | subclass
  deriving DecidableEq

/-- What surrounds a place in a module. -/
structure Context where
  inFunction : Bool
  enclosing : Enclosing

/-- The outermost place of a module. -/
def Context.outermost : Context := ⟨false, .noClass⟩

/-- The open scopes, the innermost first, with what has been found so far. A name
of a scope is bound to whether it can be used already. -/
structure State where
  scopes : List (Bindings Bool)
  depths : Depths
  bag : Bag

namespace State

def push (s : State) : State :=
  { s with scopes := Bindings.empty :: s.scopes }

def pop (s : State) : State :=
  { s with scopes := s.scopes.tail }

def report (s : State) (range : Range) (violation : Violation) : State :=
  { s with bag := s.bag.error range violation.message }

/-- Sets whether `name` can be used in the innermost scope. Outside all scopes names
are global, and nothing is kept. -/
def mark (s : State) (name : Bytes) (usable : Bool) : State :=
  match s.scopes with
  | [] => s
  | scope :: outer => { s with scopes := scope.set name usable :: outer }

/-- Declares a name: it belongs to the innermost scope but cannot be used yet. -/
def declare (s : State) (name : Name) : State :=
  match s.scopes with
  | [] => s
  | scope :: _ =>
      let s := if scope.contains name.text then s.report name.range (.alreadyDefined name.text)
        else s
      s.mark name.text false

/-- Makes a name usable in the innermost scope. -/
def define (s : State) (name : Bytes) : State :=
  s.mark name true

/-- Declares a name that can be used at once. -/
def bind (s : State) (name : Name) : State :=
  (s.declare name).define name.text

end State

/-- The number of scopes to climb to the innermost one where `name` can be used. -/
def lookup (name : Bytes) : List (Bindings Bool) → Option Nat
  | [] => none
  | scope :: outer =>
      if scope.get? name = some true then some 0 else (lookup name outer).map (· + 1)

/-- Records where a reference to `name` leads, unless it is to a global. -/
def State.refer (s : State) (id : Nat) (name : Bytes) (node : Expr) : State :=
  match lookup name s.scopes with
  | some depth => { s with depths := s.depths.insert id ⟨depth, node⟩ }
  | none => s

mutual

/-- Follows an expression. -/
def visit (ctx : Context) : Expr → State → State
  | .literal _ _, s => s
  | e@(.var id name), s => s.refer id name.text e
  | e@(.assign id name value _), s => (visit ctx value s).refer id name.text e
  | .unary _ operand _, s => visit ctx operand s
  | .binary _ left right _, s => visit ctx right (visit ctx left s)
  | .logical _ left right _, s => visit ctx right (visit ctx left s)
  | .group inner _, s => visit ctx inner s
  | .call callee args _, s => visitAll ctx args (visit ctx callee s)
  | .get object _ _, s => visit ctx object s
  | .set object _ value _, s => visit ctx object (visit ctx value s)
  | e@(.this id keyword), s =>
      if ctx.enclosing = .noClass then s.report keyword .thisOutside
      else s.refer id (utf8 "this") e
  | e@(.super id thisId keyword _ span), s =>
      let s :=
        match ctx.enclosing with
        | .noClass => s.report keyword .superOutside
        | .plainClass => s.report keyword .superWithoutSuperclass
        | .subclass => s
      (s.refer id (utf8 "super") e).refer thisId (utf8 "this") (.this thisId span)

/-- Follows expressions from left to right. -/
def visitAll (ctx : Context) : List Expr → State → State
  | [], s => s
  | e :: rest, s => visitAll ctx rest (visit ctx e s)

end

/-- Follows an optional expression. -/
def visitOption (ctx : Context) : Option Expr → State → State
  | none, s => s
  | some e, s => visit ctx e s

/-- Follows the head of a class and opens the scopes around its methods: one for
`super` if there is a superclass, and inside it one for `this`. -/
def enterClass (ctx : Context) (name : Name) (superclass : Option Superclass) (s : State) :
    State :=
  let s := s.bind name
  let s :=
    match superclass with
    | none => s
    | some parent =>
        let s := if parent.name.text = name.text then s.report parent.name.range .inheritsItself
          else s
        let s := visit { ctx with enclosing := .subclass } (.var parent.id parent.name) s
        s.push.define (utf8 "super")
  s.push.define (utf8 "this")

/-- Closes the scopes around the methods of a class. -/
def leaveClass (superclass : Option Superclass) (s : State) : State :=
  if superclass.isSome then s.pop.pop else s.pop

/-- What surrounds the methods of a class. -/
def Context.inClass (ctx : Context) (superclass : Option Superclass) : Context :=
  { ctx with enclosing := if superclass.isSome then .subclass else .plainClass }

mutual

/-- Follows a statement. -/
def walk (ctx : Context) : Stmt → State → State
  | .expr value _, s => visit ctx value s
  | .print value _, s => visit ctx value s
  | .assert value _, s => visit ctx value s
  | .assertEqual left right _, s => visit ctx right (visit ctx left s)
  | .var name init _, s => (visitOption ctx init (s.declare name)).define name.text
  | .block body _, s => (walkAll ctx body s.push).pop
  | .cond test thenBranch none _, s => walk ctx thenBranch (visit ctx test s)
  | .cond test thenBranch (some elseBranch) _, s =>
      walk ctx elseBranch (walk ctx thenBranch (visit ctx test s))
  | .loop test body _, s => walk ctx body (visit ctx test s)
  | .ret keyword value _, s =>
      visitOption ctx value (if ctx.inFunction then s else s.report keyword .returnOutside)
  | .function decl, s => walkFunction ctx decl (s.bind decl.name)
  | .classDecl name superclass methods _, s =>
      leaveClass superclass
        (walkMethods (ctx.inClass superclass) methods (enterClass ctx name superclass s))

/-- Follows statements in order. -/
def walkAll (ctx : Context) : List Stmt → State → State
  | [], s => s
  | stmt :: rest, s => walkAll ctx rest (walk ctx stmt s)

/-- Follows a function, whose parameters and body share a scope. -/
def walkFunction (ctx : Context) : Function → State → State
  | .mk _ _ params body _, s =>
      (walkAll { ctx with inFunction := true } body (params.foldl State.bind s.push)).pop

/-- Follows methods in order. -/
def walkMethods (ctx : Context) : List Function → State → State
  | [], s => s
  | f :: rest, s => walkMethods ctx rest (walkFunction ctx f s)

end

/-- Follows a module. An isolated one has a scope of its own. -/
def resolve (m : Module) (bag : Bag) : Depths × Bag :=
  let start : State := ⟨if m.kind.isolated then [Bindings.empty] else [], Depths.empty, bag⟩
  let final := walkAll Context.outermost m.body start
  (final.depths, final.bag)

end LoxMachine.Scope
