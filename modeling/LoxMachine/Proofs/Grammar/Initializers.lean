import LoxMachine.Proofs.Grammar
import LoxMachine.Proofs.Scope.Features

/-!
# Initializers

In every class that is read the initializers are the methods named `init`.
-/

namespace LoxMachine

/-- The methods named `init` are the initializers. -/
def Initializers (methods : List Function) : Prop :=
  ∀ f ∈ methods, f.kind = .initializer ↔ f.name.text = utf8 "init"

namespace Grammar

open LoxMachine.Parser

def Phrase.features : Phrase → List Feature
  | .declarations body => Stmt.allFeatures body
  | .declaration s => s.features
  | .variable s => s.features
  | .function _ _ f => f.features
  | .methods fs => Function.allFeatures fs
  | .statement _ s => s.features
  | .initializer none => []
  | .initializer (some s) => s.features
  | .optional e => Expr.optionFeatures e
  | .expression e => e.features
  | .level _ e => e.features
  | .unary e => e.features
  | .call e => e.features
  | .primary e => e.features
  | .arguments es => Expr.allFeatures es
  | .expressions es => Expr.allFeatures es
  | .parameters _ => []
  | .names _ => []

theorem Reads.initializer_methods {fs : List Function} {n m : Nat} {ts : List Token}
    (h : Reads (.methods fs) n ts m) : Initializers fs := by
  induction fs generalizing n ts with
  | nil => exact nofun
  | cons g fs ih =>
      cases h with
      | methods _ hg hfs =>
          intro f hf
          rcases List.mem_cons.mp hf with rfl | hf
          · cases hg
            simp [Function.kind, Function.name, declaredKind]
          · exact ih hfs f hf

theorem features_node (op : Operator) (l r : Expr) :
    (op.node l r).features = l.features ++ r.features := by
  cases op <;> simp [Operator.node, Expr.features]

/-- The features of a `for` loop are those of its parts. -/
theorem mem_features_forLoop {init : Option Stmt} {test : Expr} {step : Option Expr} {s : Stmt}
    {span : Range} {x : Feature} (h : x ∈ (forLoop init test step s span).features) :
    x ∈ (Phrase.initializer init).features ∨ x ∈ test.features ∨
      x ∈ Expr.optionFeatures step ∨ x ∈ s.features := by
  cases init <;> cases step <;>
    simp only [forLoop, Stmt.features, Stmt.allFeatures, Phrase.features, Expr.optionFeatures,
      List.append_nil, List.mem_append] at h ⊢ <;> grind

/-- Whatever is read, the classes in it have proper initializers. -/
theorem Reads.initializers {φ : Phrase} {n m : Nat} {ts : List Token} (h : Reads φ n ts m) :
    ∀ methods, .cls methods ∈ φ.features → Initializers methods := by
  induction h with
  | noDeclaration | noMethod | noParameter | absent | noArgument | noInitializer _
  | literal _ _ | unset _ _ _ | lastName _ | name _ _ _ | parameters _ | this _ | identifier _ =>
      intro methods hmem
      simp [Phrase.features, Stmt.allFeatures, Function.allFeatures, Expr.optionFeatures,
        Expr.allFeatures, Expr.features, Stmt.features] at hmem
  | super _ _ _ =>
      intro methods hmem
      simp [Phrase.features, Expr.features] at hmem
  | newVariable _ ih | statement _ ih | initVariable _ ih | present _ ih
  | loosest _ ih | tighter _ ih | operand _ ih | unsigned _ ih | primary _ ih
  | arguments _ ih | function _ _ ih | set _ _ _ _ _ ih | print _ _ _ ih | assertEqual _ _ _ ih
  | assert _ _ _ _ ih | ret _ _ _ ih | expr _ _ ih | initExpr _ _ ih | group _ _ _ ih
  | signed _ _ ih | property _ _ _ ih | block _ _ _ ih | assign _ _ _ ih =>
      intro methods hmem
      apply ih methods
      simpa only [Phrase.features, Stmt.features, Expr.optionFeatures, Expr.features] using hmem
  | declarations _ _ ih ihs =>
      intro methods hmem
      rw [Phrase.features, Stmt.allFeatures, List.mem_append] at hmem
      exact hmem.elim (ih methods) (ihs methods)
  | plainClass _ _ _ hfs _ ih | subclass _ _ _ _ _ hfs _ ih =>
      intro methods hmem
      rw [Phrase.features, Stmt.features] at hmem
      rcases List.mem_cons.mp hmem with heq | hmem
      · cases heq
        exact hfs.initializer_methods
      · exact ih methods (List.mem_filter.mp hmem).1
  | body _ _ _ _ _ _ _ _ ihs =>
      intro methods hmem
      rw [Phrase.features, Function.features] at hmem
      exact ihs methods hmem
  | methods _ _ _ ih ihs =>
      intro methods hmem
      rw [Phrase.features, Function.allFeatures, List.mem_append] at hmem
      exact hmem.elim (ih methods) (ihs methods)
  | @forLoop _ _ _ _ _ init test step d s is cs ss bs kw left semi right _ _ _ _ _ _ _ _ ihi ihc
      ihs ihb =>
      intro methods hmem
      rcases mem_features_forLoop hmem with hmem | hmem | hmem | hmem
      · exact ihi methods hmem
      · apply ihc methods
        cases test with
        | none => simp [Expr.features] at hmem
        | some test => exact hmem
      · exact ihs methods hmem
      · exact ihb methods hmem
  | ifThen _ _ _ _ _ ihc iha =>
      intro methods hmem
      rw [Phrase.features, Stmt.features, List.mem_append] at hmem
      exact hmem.elim (ihc methods) (iha methods)
  | ifElse _ _ _ _ _ _ _ ihc iha ihb =>
      intro methods hmem
      rw [Phrase.features, Stmt.features, List.mem_append, List.mem_append] at hmem
      exact hmem.elim (ihc methods) fun h => h.elim (iha methods) (ihb methods)
  | whileLoop _ _ _ _ _ ihc ihb =>
      intro methods hmem
      rw [Phrase.features, Stmt.features, List.mem_append] at hmem
      exact hmem.elim (ihc methods) (ihb methods)
  | setProperty _ _ _ _ _ iho ih =>
      intro methods hmem
      rw [Phrase.features, Expr.features, List.mem_append] at hmem
      exact hmem.elim (iho methods) (ih methods)
  | binary _ _ _ _ ihl ihr =>
      intro methods hmem
      rw [Phrase.features, features_node, List.mem_append] at hmem
      exact hmem.elim (ihl methods) (ihr methods)
  | call _ _ _ _ ih iha =>
      intro methods hmem
      rw [Phrase.features, Expr.features, List.mem_append] at hmem
      exact hmem.elim (ih methods) (iha methods)
  | lastExpression _ ih =>
      intro methods hmem
      rw [Phrase.features, Expr.allFeatures, List.mem_append] at hmem
      exact hmem.elim (ih methods) fun h => by simp [Expr.allFeatures] at h
  | expressions _ _ _ ih ihs =>
      intro methods hmem
      rw [Phrase.features, Expr.allFeatures, List.mem_append] at hmem
      exact hmem.elim (ih methods) (ihs methods)

end Grammar

end LoxMachine
