import LoxMachine.Proofs.Grammar.Soundness
import LoxMachine.Proofs.Source.Trees
import Mathlib.Logic.Relation

/-!
# Parts of a tree

Each expression in a tree is read from some of the tokens that the tree is read from, which
stand together there.  The one exception is the condition that a `for` statement without a
condition is given.
-/

namespace LoxMachine

namespace TreeNode

/-- One node is the other or lies in it. -/
def Contains : TreeNode → TreeNode → Prop :=
  Relation.ReflTransGen fun node child => child ∈ node.children

/-- The expression that a node is, or that a class has for its superclass. -/
def expressions : TreeNode → List Expr
  | .expr e => [e]
  | .stmt (.classDecl _ (some parent) _ _) => [.var parent.id parent.name]
  | .stmt _ => []

theorem Contains.of_child {node child other : TreeNode} (hchild : child ∈ node.children)
    (h : child.Contains other) : node.Contains other :=
  Relation.ReflTransGen.head hchild h

/-- There are only expressions in an expression. -/
theorem exists_of_contains_expr {e : Expr} {node : TreeNode}
    (h : (TreeNode.expr e).Contains node) : ∃ e', node = .expr e' := by
  induction h with
  | refl => exact ⟨e, rfl⟩
  | tail _ hchild ih =>
      obtain ⟨e', rfl⟩ := ih
      cases e' with
      | literal | var | this | super => cases hchild
      | assign | unary | group | get => exact ⟨_, List.mem_singleton.mp hchild⟩
      | binary | logical | set =>
          rcases List.mem_cons.mp hchild with rfl | hchild
          · exact ⟨_, rfl⟩
          · exact ⟨_, List.mem_singleton.mp hchild⟩
      | call =>
          rcases List.mem_cons.mp hchild with rfl | hchild
          · exact ⟨_, rfl⟩
          · obtain ⟨arg, _, rfl⟩ := List.mem_map.mp hchild
            exact ⟨arg, rfl⟩

end TreeNode

/-- An expression of a module, at one of its nodes. -/
def Module.HasExpr (m : Module) (e : Expr) : Prop :=
  ∃ node, m.Has node ∧ e ∈ node.expressions

theorem Module.Has.contains {m : Module} {node : TreeNode} (h : m.Has node) :
    ∃ s ∈ m.body, (TreeNode.stmt s).Contains node := by
  induction h with
  | top h => exact ⟨_, h, .refl⟩
  | inner _ hchild ih =>
      obtain ⟨s, hs, hcontains⟩ := ih
      exact ⟨s, hs, hcontains.tail hchild⟩

theorem Module.Has.of_contains {m : Module} {node other : TreeNode} (h : m.Has node)
    (hcontains : node.Contains other) : m.Has other := by
  induction hcontains with
  | refl => exact h
  | tail _ hchild ih => exact .inner ih hchild

namespace Grammar

open LoxMachine.Parser

variable {ts us : List Token} {t : Token} {e : Expr} {root : TreeNode}
  {nodes others : List TreeNode} {n m : Nat}

/-! ## Expressions and their tokens -/

/-- The expression is read from some of the tokens that stand together. -/
def Written (ts : List Token) (e : Expr) : Prop :=
  ∃ mid n m, mid <:+: ts ∧ Reads (.expression e) n mid m

/-- The expression is the condition of a loop and was read from no tokens; its span is that of
a semicolon. -/
def Supplied (ts : List Token) (root : TreeNode) (e : Expr) : Prop :=
  ∃ body span, root.Contains (.stmt (.loop e body span)) ∧
    ∃ semi ∈ ts, semi.kind = .semicolon ∧ e = .literal (.bool true) semi.range

/-- All expressions in these nodes are written or supplied. -/
def Accounts (ts : List Token) (nodes : List TreeNode) : Prop :=
  ∀ root ∈ nodes, ∀ node, root.Contains node → ∀ e ∈ node.expressions,
    Written ts e ∨ Supplied ts root e

theorem Accounts.infix (h : Accounts ts nodes) (hts : ts <:+: us) : Accounts us nodes := by
  intro root hroot node hnode e he
  refine (h root hroot node hnode e he).imp ?_ ?_
  · rintro ⟨mid, n, m, hmid, hread⟩
    exact ⟨mid, n, m, hmid.trans hts, hread⟩
  · rintro ⟨body, span, hin, semi, hsemi, heq⟩
    exact ⟨body, span, hin, semi, hts.subset hsemi, heq⟩

theorem Accounts.cons (h : Accounts ts nodes) : Accounts (t :: ts) nodes :=
  h.infix (List.suffix_cons t ts).isInfix

theorem Accounts.before (h : Accounts ts nodes) : Accounts (ts ++ us) nodes :=
  h.infix (List.prefix_append ts us).isInfix

theorem Accounts.behind (h : Accounts us nodes) : Accounts (ts ++ us) nodes :=
  h.infix (List.suffix_append ts us).isInfix

theorem accounts_nil : Accounts ts [] :=
  List.forall_mem_nil _

theorem Accounts.append (h : Accounts ts nodes) (h' : Accounts ts others) :
    Accounts ts (nodes ++ others) :=
  List.forall_mem_append.mpr ⟨h, h'⟩

theorem Accounts.and (h : Accounts ts [root]) (h' : Accounts ts others) :
    Accounts ts (root :: others) :=
  h.append h'

/-- A node is accounted for if its own expressions and the nodes in it are. -/
theorem Accounts.node (hown : ∀ e ∈ root.expressions, Written ts e)
    (h : Accounts ts root.children) : Accounts ts [root] := by
  refine List.forall_mem_singleton.mpr fun node hnode e he => ?_
  rcases Relation.ReflTransGen.cases_head hnode with rfl | ⟨child, hchild, hnode⟩
  · exact .inl (hown e he)
  · refine (h child hchild node hnode e he).imp_right ?_
    rintro ⟨body, span, hin, hsemi⟩
    exact ⟨body, span, hin.of_child hchild, hsemi⟩

/-- A statement that has no expression of its own. -/
theorem Accounts.stmt {s : Stmt} (h : Accounts ts (TreeNode.ofStmt s))
    (hnone : (TreeNode.stmt s).expressions = []) : Accounts ts [.stmt s] := by
  refine .node ?_ h
  rw [hnone]
  exact List.forall_mem_nil _

/-- Nothing in an expression is supplied. -/
theorem Accounts.written (h : Accounts ts [.expr e]) {e' : Expr}
    (he : (TreeNode.expr e).Contains (.expr e')) : Written ts e' := by
  refine (h _ List.mem_cons_self _ he e' List.mem_cons_self).resolve_right ?_
  rintro ⟨body, span, hin, _⟩
  obtain ⟨_, hexpr⟩ := TreeNode.exists_of_contains_expr hin
  cases hexpr

theorem Accounts.operands (h : Accounts ts [.expr e]) : Accounts ts (TreeNode.ofExpr e) := by
  intro child hchild node hnode e' he
  have hcontains : (TreeNode.expr e).Contains node := .of_child hchild hnode
  obtain ⟨e'', rfl⟩ := TreeNode.exists_of_contains_expr hcontains
  obtain rfl := List.mem_singleton.mp he
  exact .inl (h.written hcontains)

theorem Reads.accounts_expr (hread : Reads (.expression e) n ts m)
    (h : Accounts ts (TreeNode.ofExpr e)) : Accounts ts [.expr e] :=
  .node (List.forall_mem_singleton.mpr ⟨ts, n, m, List.infix_rfl, hread⟩) h

/-- A loop whose condition may be supplied. -/
theorem accounts_loop {test : Option Expr} {semi : Token} {body : Stmt} {span : Range}
    (hsemi : semi ∈ ts) (hkind : semi.kind = .semicolon)
    (htest : Accounts ts (test.toList.map .expr)) (hbody : Accounts ts [.stmt body]) :
    Accounts ts [.stmt (.loop (test.getD (.literal (.bool true) semi.range)) body span)] := by
  cases test with
  | some e => exact Accounts.stmt (htest.and hbody) rfl
  | none =>
      refine List.forall_mem_singleton.mpr fun node hnode e he => ?_
      rcases Relation.ReflTransGen.cases_head hnode with rfl | ⟨child, hchild, hnode⟩
      · cases he
      · rcases List.mem_cons.mp hchild with rfl | hchild'
        · obtain ⟨e', rfl⟩ := TreeNode.exists_of_contains_expr hnode
          rcases Relation.ReflTransGen.cases_head hnode with heq | ⟨_, hnone, _⟩
          · cases heq
            obtain rfl := List.mem_singleton.mp he
            exact .inr ⟨body, span, .refl, semi, hsemi, hkind, rfl⟩
          · cases hnone
        · refine (hbody child hchild' node hnode e he).imp_right ?_
          rintro ⟨body, span, hin, hsemi⟩
          exact ⟨body, span, hin.of_child hchild, hsemi⟩

theorem accounts_forLoop {init : Option Stmt} {test step : Option Expr} {semi : Token}
    {body : Stmt} {span : Range} (hsemi : semi ∈ ts) (hkind : semi.kind = .semicolon)
    (hinit : Accounts ts (init.toList.map .stmt)) (htest : Accounts ts (test.toList.map .expr))
    (hstep : Accounts ts (step.toList.map .expr)) (hbody : Accounts ts [.stmt body]) :
    Accounts ts
      [.stmt (forLoop init (test.getD (.literal (.bool true) semi.range)) step body span)] := by
  have hloop : ∀ {body : Stmt}, Accounts ts [.stmt body] → Accounts ts
      [.stmt (.loop (test.getD (.literal (.bool true) semi.range)) body span)] :=
    accounts_loop hsemi hkind htest
  have hclosed : ∀ {body : Stmt}, Accounts ts [.stmt body] → Accounts ts
      [.stmt (forLoop init (test.getD (.literal (.bool true) semi.range)) none body span)] := by
    intro body hbody
    cases init with
    | none => exact hloop hbody
    | some s => exact Accounts.stmt (hinit.and (hloop hbody)) rfl
  cases step with
  | none => exact hclosed hbody
  | some e =>
      have hblock : Accounts ts [.stmt (.block [body, .expr e e.span] body.span)] :=
        Accounts.stmt (hbody.and (Accounts.stmt hstep rfl)) rfl
      exact hclosed hblock

/-! ## Phrases -/

/-- The nodes that a phrase stands for. -/
def Phrase.roots : Phrase → List TreeNode
  | .declarations body => body.map .stmt
  | .declaration s | .variable s | .statement _ s => [.stmt s]
  | .function _ _ f => TreeNode.ofFunction f
  | .methods fs => fs.flatMap TreeNode.ofFunction
  | .parameters _ | .names _ => []
  | .initializer init => init.toList.map .stmt
  | .optional e => e.toList.map .expr
  | .expression e | .level _ e | .unary e | .call e | .primary e => [.expr e]
  | .arguments es | .expressions es => es.map .expr

theorem ofExpr_node (op : Operator) (l r : Expr) :
    TreeNode.ofExpr (op.node l r) = [.expr l, .expr r] := by
  cases op <;> rfl

theorem Reads.expression_of_level {k : Nat} (h : Reads (.level k e) n ts m) :
    Reads (.expression e) n ts m := by
  cases k with
  | succ k => exact (h.lower (Nat.succ_le_succ (Nat.zero_le k))).loosest
  | zero =>
      cases h with
      | binary _ hop => cases hop
      | tighter h => exact h.loosest

theorem Reads.expression_of_unary (h : Reads (.unary e) n ts m) : Reads (.expression e) n ts m :=
  h.operand.expression_of_level

theorem Reads.accounts_primary (hread : Reads (.primary e) n ts m)
    (h : Accounts ts (TreeNode.ofExpr e)) : Accounts ts [.expr e] :=
  hread.primary.unsigned.expression_of_unary.accounts_expr h

/-- The expressions in what some tokens are read as are written there or supplied. -/
theorem Reads.accounts {φ : Phrase} (h : Reads φ n ts m) : Accounts ts φ.roots := by
  induction h with
  | noDeclaration | noMethod | noParameter | parameters | lastName | name | noInitializer | absent
  | noArgument => exact accounts_nil
  | declarations _ _ ihs ihbody => exact ihs.before.and ihbody.behind
  | plainClass _ _ _ _ _ ih => exact Accounts.stmt ih.before.cons.cons.cons rfl
  | @subclass n _ _ _ kw name less parent left right _ _ _ hparent _ _ _ ih =>
      refine .node (List.forall_mem_singleton.mpr ?_) ih.before.cons.cons.cons.cons.cons
      refine ⟨[parent], n, n + 1, ⟨[kw, name, less], left :: (_ ++ [right]), rfl⟩, ?_⟩
      exact (Reads.identifier hparent).primary.unsigned.expression_of_unary
  | function _ _ ih => exact Accounts.stmt ih.cons rfl
  | newVariable _ ih | statement _ ih | loosest _ ih | tighter _ ih | operand _ ih | unsigned _ ih
  | primary _ ih | arguments _ ih | lastExpression _ ih | initVariable _ ih | present _ ih => exact ih
  | unset => exact Accounts.stmt accounts_nil rfl
  | set _ _ _ _ _ ih => exact Accounts.stmt ih.before.cons.cons.cons rfl
  | body _ _ _ _ _ _ _ _ ih => exact ih.before.cons.cons.behind.cons.cons
  | methods _ _ _ ihf ihfs => exact ihf.before.append ihfs.behind
  | forLoop _ _ _ _ hsemi _ _ _ ihinit ihtest ihstep ihbody =>
      refine accounts_forLoop (by simp) hsemi ihinit.before.cons.cons
        ihtest.before.behind.cons.cons ihstep.before.cons.behind.behind.cons.cons
        ihbody.cons.behind.cons.behind.behind.cons.cons
  | ifThen _ _ _ _ _ ihtest ihthen =>
      exact Accounts.stmt (ihtest.before.cons.cons.and ihthen.cons.behind.cons.cons) rfl
  | ifElse _ _ _ _ _ _ _ ihtest ihthen ihelse =>
      exact Accounts.stmt (ihtest.before.cons.cons.and (ihthen.before.cons.behind.cons.cons.and
        ihelse.cons.behind.cons.behind.cons.cons)) rfl
  | whileLoop _ _ _ _ _ ihtest ihbody =>
      exact Accounts.stmt (ihtest.before.cons.cons.and ihbody.cons.behind.cons.cons) rfl
  | print _ _ _ ih | assert _ _ _ _ ih | ret _ _ _ ih | block _ _ _ ih =>
      exact Accounts.stmt ih.before.cons rfl
  | assertEqual _ _ _ ih => exact Accounts.stmt ih.operands.before.cons rfl
  | expr _ _ ih | initExpr _ _ ih => exact Accounts.stmt ih.before rfl
  | assign hname hequals hread ih =>
      exact (hread.assign hname hequals).accounts_expr ih.cons.cons
  | setProperty hobject hdot hname hequals hread ihobject ih =>
      exact (hobject.setProperty hdot hname hequals hread).accounts_expr
        (ihobject.before.and ih.cons.cons.cons.behind)
  | binary hl hop hnode hr ihl ihr =>
      refine (hl.binary hop hnode hr).expression_of_level.accounts_expr ?_
      rw [ofExpr_node]
      exact ihl.before.and ihr.cons.behind
  | signed hop hread ih => exact (hread.signed hop).expression_of_unary.accounts_expr ih.cons
  | call hcallee hleft hargs hright ihcallee ihargs =>
      exact (hcallee.call hleft hargs hright).unsigned.expression_of_unary.accounts_expr
        (ihcallee.before.and ihargs.before.cons.behind)
  | property hread hdot hname ih =>
      exact (hread.property hdot hname).unsigned.expression_of_unary.accounts_expr ih.before
  | @literal n _ h h' => exact (@Reads.literal n _ h h').accounts_primary accounts_nil
  | @this n _ h => exact (@Reads.this n _ h).accounts_primary accounts_nil
  | @super n _ _ _ h hdot hname =>
      exact (@Reads.super n _ _ _ h hdot hname).accounts_primary accounts_nil
  | @identifier n _ h => exact (@Reads.identifier n _ h).accounts_primary accounts_nil
  | group hleft hread hright ih => exact (hread.group hleft hright).accounts_primary ih.before.cons
  | expressions _ _ _ ih ihs => exact ih.before.and ihs.cons.behind

end Grammar

end LoxMachine
