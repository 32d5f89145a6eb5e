import LoxMachine.Proofs.Source.Ranges
import LoxMachine.Report
import LoxMachine.Tree

/-!
# Trees of a source

A tree is located in a source if every range in it covers some of the source.  A run takes
a tree apart into its nodes, and blames an error on a range of the node it failed at.
-/

namespace LoxMachine

variable {src : Source}

/-- Every diagnostic is about a range within the source. -/
def Bag.Within (src : Source) (bag : Bag) : Prop :=
  ∀ d ∈ bag.items, d.range.Within src

theorem Bag.Within.error {bag : Bag} (h : bag.Within src) {range : Range}
    (hrange : range.Within src) (message : Bytes) : (bag.error range message).Within src := by
  intro d hd
  rcases Array.mem_push.mp hd with hd | rfl
  · exact h d hd
  · exact hrange

/-! ## Located trees -/

/-- Every range in the expression covers some of the source. -/
inductive Expr.Located (src : Source) : Expr → Prop where
  | literal {value span} (hspan : span.Proper src) : Expr.Located src (.literal value span)
  | var {id name} (hname : name.range.Proper src) : Expr.Located src (.var id name)
  | assign {id name value span} (hname : name.range.Proper src) (hvalue : Expr.Located src value)
      (hspan : span.Proper src) : Expr.Located src (.assign id name value span)
  | unary {op operand span} (hoperand : Expr.Located src operand) (hspan : span.Proper src) :
      Expr.Located src (.unary op operand span)
  | binary {op left right span} (hleft : Expr.Located src left) (hright : Expr.Located src right)
      (hspan : span.Proper src) : Expr.Located src (.binary op left right span)
  | logical {op left right span} (hleft : Expr.Located src left)
      (hright : Expr.Located src right) (hspan : span.Proper src) :
      Expr.Located src (.logical op left right span)
  | group {inner span} (hinner : Expr.Located src inner) (hspan : span.Proper src) :
      Expr.Located src (.group inner span)
  | call {callee args span} (hcallee : Expr.Located src callee)
      (hargs : ∀ e ∈ args, Expr.Located src e) (hspan : span.Proper src) :
      Expr.Located src (.call callee args span)
  | get {object name span} (hobject : Expr.Located src object) (hname : name.range.Proper src)
      (hspan : span.Proper src) : Expr.Located src (.get object name span)
  | set {object name value span} (hobject : Expr.Located src object)
      (hname : name.range.Proper src) (hvalue : Expr.Located src value)
      (hspan : span.Proper src) : Expr.Located src (.set object name value span)
  | this {id keyword} (hkeyword : keyword.Proper src) : Expr.Located src (.this id keyword)
  | super {id thisId keyword method span} (hkeyword : keyword.Proper src)
      (hmethod : method.range.Proper src) (hspan : span.Proper src) :
      Expr.Located src (.super id thisId keyword method span)

mutual

/-- Every range in the statement covers some of the source. -/
inductive Stmt.Located (src : Source) : Stmt → Prop where
  | expr {value span} (hvalue : value.Located src) (hspan : span.Proper src) :
      Stmt.Located src (.expr value span)
  | print {value span} (hvalue : value.Located src) (hspan : span.Proper src) :
      Stmt.Located src (.print value span)
  | assert {value span} (hvalue : value.Located src) (hspan : span.Proper src) :
      Stmt.Located src (.assert value span)
  | assertEqual {left right span} (hleft : left.Located src) (hright : right.Located src)
      (hspan : span.Proper src) : Stmt.Located src (.assertEqual left right span)
  | var {name init span} (hname : name.range.Proper src) (hinit : ∀ e ∈ init, e.Located src)
      (hspan : span.Proper src) : Stmt.Located src (.var name init span)
  | block {body span} (hbody : ∀ s ∈ body, Stmt.Located src s) (hspan : span.Proper src) :
      Stmt.Located src (.block body span)
  | cond {test thenBranch elseBranch span} (htest : test.Located src)
      (hthen : Stmt.Located src thenBranch) (helse : ∀ s ∈ elseBranch, Stmt.Located src s)
      (hspan : span.Proper src) : Stmt.Located src (.cond test thenBranch elseBranch span)
  | loop {test body span} (htest : test.Located src) (hbody : Stmt.Located src body)
      (hspan : span.Proper src) : Stmt.Located src (.loop test body span)
  | ret {keyword value span} (hkeyword : keyword.Proper src) (hvalue : ∀ e ∈ value, e.Located src)
      (hspan : span.Proper src) : Stmt.Located src (.ret keyword value span)
  | function {decl} (hdecl : Function.Located src decl) : Stmt.Located src (.function decl)
  | classDecl {name superclass methods span} (hname : name.range.Proper src)
      (hparent : ∀ parent ∈ superclass, parent.name.range.Proper src)
      (hmethods : ∀ f ∈ methods, Function.Located src f) (hspan : span.Proper src) :
      Stmt.Located src (.classDecl name superclass methods span)

/-- Every range in the function covers some of the source. -/
inductive Function.Located (src : Source) : Function → Prop where
  | mk {kind name params body span} (hname : name.range.Proper src)
      (hparams : ∀ p ∈ params, p.range.Proper src) (hbody : ∀ s ∈ body, Stmt.Located src s)
      (hspan : span.Proper src) : Function.Located src (.mk kind name params body span)

end

theorem Expr.Located.span {e : Expr} (h : e.Located src) : e.span.Proper src := by
  cases h <;> assumption

theorem Function.Located.span {f : Function} (h : f.Located src) : f.span.Proper src := by
  cases h
  assumption

theorem Function.Located.name {f : Function} (h : f.Located src) :
    f.name.range.Proper src := by
  cases h
  assumption

theorem Function.Located.body {f : Function} (h : f.Located src) :
    ∀ s ∈ f.body, s.Located src := by
  cases h
  assumption

theorem Stmt.Located.span {s : Stmt} (h : s.Located src) : s.span.Proper src := by
  cases h with
  | function hdecl => exact hdecl.span
  | _ => assumption

/-! ## Nodes -/

/-- A node of a tree that a run can come to. -/
inductive TreeNode where
  | expr (e : Expr)
  | stmt (s : Stmt)

namespace TreeNode

/-- The expressions directly in an expression. -/
def ofExpr : Expr → List TreeNode
  | .literal _ _ => []
  | .var _ _ => []
  | .assign _ _ value _ => [.expr value]
  | .unary _ operand _ => [.expr operand]
  | .binary _ left right _ => [.expr left, .expr right]
  | .logical _ left right _ => [.expr left, .expr right]
  | .group inner _ => [.expr inner]
  | .call callee args _ => .expr callee :: args.map .expr
  | .get object _ _ => [.expr object]
  | .set object _ value _ => [.expr object, .expr value]
  | .this _ _ => []
  | .super _ _ _ _ _ => []

/-- The statements of the body of a function. -/
def ofFunction (f : Function) : List TreeNode :=
  f.body.map .stmt

/-- The expressions and statements directly in a statement, be it in the body of a function
or of a method. -/
def ofStmt : Stmt → List TreeNode
  | .expr value _ => [.expr value]
  | .print value _ => [.expr value]
  | .assert value _ => [.expr value]
  | .assertEqual left right _ => [.expr left, .expr right]
  | .var _ init _ => init.toList.map .expr
  | .block body _ => body.map .stmt
  | .cond test thenBranch elseBranch _ =>
      .expr test :: .stmt thenBranch :: elseBranch.toList.map .stmt
  | .loop test body _ => [.expr test, .stmt body]
  | .ret _ value _ => value.toList.map .expr
  | .function decl => ofFunction decl
  | .classDecl _ _ methods _ => methods.flatMap ofFunction

/-- The nodes directly in a node. -/
def children : TreeNode → List TreeNode
  | .expr e => ofExpr e
  | .stmt s => ofStmt s

/-- The range that an error is reported at if a run fails at the node: the name of a variable,
a property, a method or a superclass, what is asserted, or else the whole node. -/
def blamed : TreeNode → Range
  | .expr (.var _ name) => name.range
  | .expr (.assign _ name _ _) => name.range
  | .expr (.get _ name _) => name.range
  | .expr (.set _ name _ _) => name.range
  | .expr (.super _ _ _ method _) => method.range
  | .expr e => e.span
  | .stmt (.assert value _) => value.span
  | .stmt (.assertEqual left right _) => left.span.join right.span
  | .stmt (.classDecl _ (some parent) _ _) => parent.name.range
  | .stmt s => s.span

/-- Every range in the node covers some of the source. -/
def Located (src : Source) : TreeNode → Prop
  | .expr e => e.Located src
  | .stmt s => s.Located src

/-- A set of nodes that has, with each node, all nodes in it. -/
def Closed (P : TreeNode → Prop) : Prop :=
  ∀ n, P n → ∀ child ∈ n.children, P child

theorem closed_located (src : Source) : Closed (Located src) := by
  have hbody : ∀ {body : List Stmt}, (∀ s ∈ body, s.Located src) →
      ∀ child ∈ body.map TreeNode.stmt, child.Located src :=
    fun h => List.forall_mem_map.mpr h
  have hvalues : ∀ {values : List Expr}, (∀ e ∈ values, e.Located src) →
      ∀ child ∈ values.map TreeNode.expr, child.Located src :=
    fun h => List.forall_mem_map.mpr h
  have hoption : ∀ {value : Option Expr}, (∀ e ∈ value, e.Located src) →
      ∀ child ∈ value.toList.map TreeNode.expr, child.Located src :=
    fun h => hvalues fun e he => h e (Option.mem_toList.mp he)
  intro n hn
  cases n with
  | expr e =>
      cases hn with
      | literal | var | this | super => exact List.forall_mem_nil _
      | assign _ h _ | unary h _ | group h _ | get h _ _ => exact List.forall_mem_singleton.mpr h
      | binary hleft hright _ | logical hleft hright _ | set hleft _ hright _ =>
          exact List.forall_mem_cons.mpr ⟨hleft, List.forall_mem_singleton.mpr hright⟩
      | call hcallee hargs _ => exact List.forall_mem_cons.mpr ⟨hcallee, hvalues hargs⟩
  | stmt s =>
      cases hn with
      | expr h _ | print h _ | assert h _ => exact List.forall_mem_singleton.mpr h
      | assertEqual hleft hright _ =>
          exact List.forall_mem_cons.mpr ⟨hleft, List.forall_mem_singleton.mpr hright⟩
      | loop htest hbody _ =>
          exact List.forall_mem_cons.mpr ⟨htest, List.forall_mem_singleton.mpr hbody⟩
      | var _ h _ | ret _ h _ => exact hoption h
      | block h _ => exact hbody h
      | cond htest hthen helse _ =>
          refine List.forall_mem_cons.mpr ⟨htest, List.forall_mem_cons.mpr ⟨hthen, ?_⟩⟩
          exact hbody fun s hs => helse s (Option.mem_toList.mp hs)
      | function h => exact hbody h.body
      | classDecl _ _ h _ =>
          exact List.forall_mem_flatMap.mpr fun f hf => hbody (h f hf).body

/-- A located node is blamed for an error at a range that covers some of the source. -/
theorem Located.blamed {n : TreeNode} (h : n.Located src) : n.blamed.Proper src := by
  cases n with
  | expr e => cases h <;> assumption
  | stmt s =>
      cases h with
      | assert hvalue _ => exact hvalue.span
      | assertEqual hleft hright _ => exact hleft.span.join hright.span
      | function hdecl => exact hdecl.span
      | @classDecl _ superclass _ _ _ hparent _ hspan =>
          cases superclass with
          | none => exact hspan
          | some parent => exact hparent parent rfl
      | _ => assumption

end TreeNode

/-- The nodes of a module: its statements and all nodes in them. -/
inductive Module.Has (m : Module) : TreeNode → Prop where
  | top {s : Stmt} (h : s ∈ m.body) : Has m (.stmt s)
  | inner {n child : TreeNode} (h : Has m n) (hchild : child ∈ n.children) : Has m child

/-- What holds of the statements of a module and is closed holds of all its nodes. -/
theorem Module.Has.closed {m : Module} {n : TreeNode} {P : TreeNode → Prop} (h : m.Has n)
    (hP : TreeNode.Closed P) (hbody : ∀ s ∈ m.body, P (.stmt s)) : P n := by
  induction h with
  | top h => exact hbody _ h
  | inner _ hchild ih => exact hP _ ih _ hchild

end LoxMachine
