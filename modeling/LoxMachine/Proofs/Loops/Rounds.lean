import LoxMachine.Proofs.Grammar.Spans
import LoxMachine.Proofs.Scope.Violations

/-!
# Rounds of loops

A `for` statement with an increment is parsed as a loop over a block: the body, and behind it the
increment.  This block can be told from all blocks that are written, and its body declares
nothing.
-/

namespace LoxMachine

open Scope

/-- Whether a block holds the body and the increment of a `for` statement. It has the span of the
body, while a written block begins in front of its first statement. -/
def isRound (body : List Stmt) (span : Range) : Bool :=
  match body with
  | [stmt, .expr _ _] => decide (span = stmt.span)
  | _ => false

mutual

/-- The bodies of the `for` statements in a tree declare nothing. -/
def Stmt.Tidy : Stmt → Prop
  | .expr _ _ => True
  | .print _ _ => True
  | .assert _ _ => True
  | .assertEqual _ _ _ => True
  | .var _ _ _ => True
  | .block body span => (isRound body span = true → allDeclarations body = []) ∧ Stmt.TidyAll body
  | .cond _ thenBranch none _ => thenBranch.Tidy
  | .cond _ thenBranch (some elseBranch) _ => thenBranch.Tidy ∧ elseBranch.Tidy
  | .loop _ body _ => body.Tidy
  | .ret _ _ _ => True
  | .function decl => decl.Tidy
  | .classDecl _ _ methods _ => Function.TidyAll methods

def Stmt.TidyAll : List Stmt → Prop
  | [] => True
  | stmt :: rest => stmt.Tidy ∧ Stmt.TidyAll rest

def Function.Tidy : Function → Prop
  | .mk _ _ _ body _ => Stmt.TidyAll body

def Function.TidyAll : List Function → Prop
  | [] => True
  | f :: rest => f.Tidy ∧ Function.TidyAll rest

end

/-- The round of a `for` statement is what its loop runs. -/
theorem isRound_step (body : Stmt) (step : Expr) (span : Range) :
    isRound [body, .expr step span] body.span = true :=
  decide_eq_true rfl

namespace Grammar

open LoxMachine.Parser

variable {src : Source} {ts us : List Token} {body : List Stmt} {s : Stmt} {left right : Token}
  {n m : Nat} {span : Range}

/-- No written block is a round. -/
theorem isRound_written (hread : Reads (.declarations body) n ts m)
    (horder : InOrder src (left :: (ts ++ [right]))) :
    isRound body (left.range.join right.range) = false := by
  refine Bool.eq_false_iff.mpr fun hround => ?_
  unfold isRound at hround
  split at hround
  next stmt _ _ =>
    cases hread with
    | @declarations _ _ _ _ _ ts us hfirst _ =>
        have hinner : InOrder src ([left] ++ ts) := horder.sublist (by simp)
        have hapart := (across_single hinner.front).apart hinner (hfirst.spans hinner.rest)
        rw [← of_decide_eq_true hround] at hapart
        have hproper := (horder.proper left List.mem_cons_self).nonempty
        obtain ⟨first, last, hhead, _, hjoin⟩ := across_around _ horder rfl
        cases hhead
        rw [hjoin] at hapart
        exact absurd hapart (Nat.not_le_of_lt hproper)
  next => cases hround

/-- What is known of the statements that the phrase stands for. -/
def Phrase.Tidy : Phrase → Prop
  | .declarations body => Stmt.TidyAll body
  | .declaration s | .variable s => s.Tidy
  | .function _ _ f => f.Tidy
  | .methods fs => Function.TidyAll fs
  | .statement _ s => s.Tidy ∧ Scope.declarations s = []
  | .initializer init => ∀ s ∈ init, s.Tidy
  | _ => True

theorem tidy_loop {init : Option Stmt} (test : Expr) (span : Range) (hinit : ∀ i ∈ init, i.Tidy)
    (htidy : s.Tidy) (hnone : Scope.declarations s = []) :
    (forLoop init test none s span).Tidy ∧
      Scope.declarations (forLoop init test none s span) = [] := by
  cases init with
  | none => exact ⟨htidy, hnone⟩
  | some i => exact ⟨⟨nofun, hinit i rfl, htidy, trivial⟩, rfl⟩

theorem tidy_forLoop {init : Option Stmt} {step : Option Expr} (test : Expr) (span : Range)
    (hinit : ∀ i ∈ init, i.Tidy) (hbody : s.Tidy ∧ Scope.declarations s = []) :
    (forLoop init test step s span).Tidy ∧
      Scope.declarations (forLoop init test step s span) = [] := by
  obtain ⟨htidy, hnone⟩ := hbody
  cases step with
  | none => exact tidy_loop test span hinit htidy hnone
  | some e =>
      have hround : (Stmt.block [s, .expr e e.span] s.span).Tidy := by
        refine ⟨fun _ => ?_, htidy, trivial, trivial⟩
        rw [allDeclarations, hnone]
        rfl
      exact tidy_loop test span hinit hround rfl

theorem Reads.tidy {φ : Phrase} (h : Reads φ n ts m) (horder : InOrder src ts) : φ.Tidy := by
  induction h with
  | noParameter | parameters | lastName | name | absent | present | noArgument | arguments
  | lastExpression | expressions | assign | setProperty | loosest | binary | tighter | operand
  | signed | unsigned | call | property | primary | literal | this | super | identifier | group
  | unset | set | noDeclaration | noMethod => trivial
  | noInitializer => exact nofun
  | declarations _ _ ih ihs => exact ⟨ih horder.front, ihs horder.rest⟩
  | plainClass _ _ _ _ _ ih => exact ih horder.tail.tail.tail.front
  | subclass _ _ _ _ _ _ _ ih => exact ih horder.tail.tail.tail.tail.tail.front
  | function _ _ ih => exact ih horder.tail
  | newVariable _ ih => exact ih horder
  | statement _ ih => exact (ih horder).1
  | body _ _ _ _ _ _ _ _ ih => exact ih horder.tail.tail.rest.tail.tail.front
  | methods _ _ _ ih ihs => exact ⟨ih horder.front, ihs horder.rest⟩
  | forLoop _ _ _ _ _ _ _ _ ihinit _ _ ihbody =>
      exact tidy_forLoop _ _ (ihinit horder.tail.tail.front)
        (ihbody horder.tail.tail.rest.rest.tail.rest.tail)
  | ifThen _ _ _ _ _ _ ih => exact ih horder.tail.tail.rest.tail
  | ifElse _ _ _ _ _ _ _ _ ih ih' =>
      have hthen := ih horder.tail.tail.rest.tail.front
      have helse := ih' horder.tail.tail.rest.tail.rest.tail
      exact ⟨⟨hthen.1, helse.1⟩, List.append_eq_nil_iff.mpr ⟨hthen.2, helse.2⟩⟩
  | whileLoop _ _ _ _ _ _ ih => exact ih horder.tail.tail.rest.tail
  | print | assertEqual | assert | ret | expr => exact ⟨trivial, rfl⟩
  | block _ hread _ ih =>
      refine ⟨⟨fun hround => ?_, ih horder.tail.front⟩, rfl⟩
      rw [isRound_written hread horder] at hround
      cases hround
  | initVariable _ ih => exact fun s hs => Option.some.inj hs ▸ ih horder
  | initExpr => exact fun s hs => Option.some.inj hs ▸ trivial

end Grammar

end LoxMachine
