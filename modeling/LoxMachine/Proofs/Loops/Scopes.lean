import LoxMachine.Proofs.Loops.Rounds
import LoxMachine.Proofs.Scope.Resolution

/-!
# Scopes of loops

A pass over a module in which the rounds of `for` statements open no scopes leads each reference
to the same declaration as the pass over scopes does, over as many scopes less as are those of
rounds.
-/

namespace LoxMachine.Scope

/-! ## The direct pass -/

mutual

/-- Follows a statement. The body and the increment of a `for` statement stand in the scope of
the statement. -/
def walkDirectly (ctx : Context) : Stmt → State → State
  | .expr value _, s => visit ctx value s
  | .print value _, s => visit ctx value s
  | .assert value _, s => visit ctx value s
  | .assertEqual left right _, s => visit ctx right (visit ctx left s)
  | .var name init _, s => (visitOption ctx init (s.declare name)).define name.text
  | .block body span, s =>
      if isRound body span then walkAllDirectly ctx body s
      else (walkAllDirectly ctx body s.push).pop
  | .cond test thenBranch none _, s => walkDirectly ctx thenBranch (visit ctx test s)
  | .cond test thenBranch (some elseBranch) _, s =>
      walkDirectly ctx elseBranch (walkDirectly ctx thenBranch (visit ctx test s))
  | .loop test body _, s => walkDirectly ctx body (visit ctx test s)
  | .ret keyword value _, s =>
      visitOption ctx value (if ctx.inFunction then s else s.report keyword .returnOutside)
  | .function decl, s => walkFunctionDirectly ctx decl (s.bind decl.name)
  | .classDecl name superclass methods _, s =>
      leaveClass superclass
        (walkMethodsDirectly (ctx.inClass superclass) methods (enterClass ctx name superclass s))

def walkAllDirectly (ctx : Context) : List Stmt → State → State
  | [], s => s
  | stmt :: rest, s => walkAllDirectly ctx rest (walkDirectly ctx stmt s)

def walkFunctionDirectly (ctx : Context) : Function → State → State
  | .mk _ _ params body _, s =>
      (walkAllDirectly { ctx with inFunction := true } body (params.foldl State.bind s.push)).pop

def walkMethodsDirectly (ctx : Context) : List Function → State → State
  | [], s => s
  | f :: rest, s => walkMethodsDirectly ctx rest (walkFunctionDirectly ctx f s)

end

/-- The depths of the references of a module over the scopes without those of rounds. -/
def resolveDirectly (m : Module) : Depths :=
  (walkAllDirectly Context.outermost m.body
    ⟨if m.kind.isolated then [Bindings.empty] else [], Depths.empty, Bag.empty⟩).depths

/-! ## Marks -/

/-- A reference or a declaration. For each scope around it, the innermost first, it is said
whether the scope is that of a round. -/
inductive Mark where
  | use (around : List Bool) (id : Nat)
  | declare (around : List Bool)

def markIds (marks : List Mark) : List Nat :=
  marks.filterMap fun
    | .use _ id => some id
    | .declare _ => none

mutual

def exprMarks (g : List Bool) : Expr → List Mark
  | .literal _ _ => []
  | .var id _ => [.use g id]
  | .assign id _ value _ => exprMarks g value ++ [.use g id]
  | .unary _ operand _ => exprMarks g operand
  | .binary _ left right _ => exprMarks g left ++ exprMarks g right
  | .logical _ left right _ => exprMarks g left ++ exprMarks g right
  | .group inner _ => exprMarks g inner
  | .call callee args _ => exprMarks g callee ++ argMarks g args
  | .get object _ _ => exprMarks g object
  | .set object _ value _ => exprMarks g value ++ exprMarks g object
  | .this id _ => [.use g id]
  | .super id thisId _ _ _ => [.use g id, .use g thisId]

def argMarks (g : List Bool) : List Expr → List Mark
  | [] => []
  | e :: rest => exprMarks g e ++ argMarks g rest

end

def optionMarks (g : List Bool) : Option Expr → List Mark
  | none => []
  | some e => exprMarks g e

def parentMarks (g : List Bool) : Option Superclass → List Mark
  | none => []
  | some parent => [.use g parent.id]

/-- The scopes in which the methods of a class are declared. -/
def outerMarks (g : List Bool) : Option Superclass → List Bool
  | none => g
  | some _ => false :: g

mutual

def stmtMarks (g : List Bool) : Stmt → List Mark
  | .expr value _ => exprMarks g value
  | .print value _ => exprMarks g value
  | .assert value _ => exprMarks g value
  | .assertEqual left right _ => exprMarks g left ++ exprMarks g right
  | .var _ init _ => .declare g :: optionMarks g init
  | .block body span => bodyMarks (isRound body span :: g) body
  | .cond test thenBranch none _ => exprMarks g test ++ stmtMarks g thenBranch
  | .cond test thenBranch (some elseBranch) _ =>
      exprMarks g test ++ (stmtMarks g thenBranch ++ stmtMarks g elseBranch)
  | .loop test body _ => exprMarks g test ++ stmtMarks g body
  | .ret _ value _ => optionMarks g value
  | .function decl => .declare g :: functionMarks g decl
  | .classDecl _ superclass methods _ =>
      .declare g :: (parentMarks g superclass ++
        methodMarks (false :: outerMarks g superclass) methods)

def bodyMarks (g : List Bool) : List Stmt → List Mark
  | [] => []
  | s :: rest => stmtMarks g s ++ bodyMarks g rest

def functionMarks (g : List Bool) : Function → List Mark
  | .mk _ _ _ body _ => bodyMarks (false :: g) body

def methodMarks (g : List Bool) : List Function → List Mark
  | [] => []
  | f :: rest => functionMarks g f ++ methodMarks g rest

end

def moduleMarks (m : Module) : List Mark :=
  bodyMarks (if m.kind.isolated then [false] else []) m.body

/-! ## Numbers of marks -/

@[simp] theorem markIds_nil : markIds [] = [] := rfl

@[simp] theorem markIds_use (g : List Bool) (id : Nat) (marks : List Mark) :
    markIds (.use g id :: marks) = id :: markIds marks := rfl

@[simp] theorem markIds_declare (g : List Bool) (marks : List Mark) :
    markIds (.declare g :: marks) = markIds marks := rfl

@[simp] theorem markIds_append (a b : List Mark) : markIds (a ++ b) = markIds a ++ markIds b :=
  List.filterMap_append

mutual

theorem markIds_expr (g : List Bool) (Γ : List Layer) :
    ∀ e, markIds (exprMarks g e) = siteIds (exprSites Γ e)
  | .literal _ _ | .var _ _ | .this _ _ | .super _ _ _ _ _ => rfl
  | .assign _ _ value _ => by simp [exprMarks, exprSites, Site.ids, markIds_expr g Γ value]
  | .unary _ operand _ => markIds_expr g Γ operand
  | .binary _ left right _ | .logical _ left right _ | .set left _ right _ => by
      simp [exprMarks, exprSites, markIds_expr g Γ left, markIds_expr g Γ right]
  | .group inner _ => markIds_expr g Γ inner
  | .call callee args _ => by
      simp [exprMarks, exprSites, markIds_expr g Γ callee, markIds_args g Γ args]
  | .get object _ _ => markIds_expr g Γ object

theorem markIds_args (g : List Bool) (Γ : List Layer) :
    ∀ es, markIds (argMarks g es) = siteIds (argSites Γ es)
  | [] => rfl
  | e :: rest => by simp [argMarks, argSites, markIds_expr g Γ e, markIds_args g Γ rest]

end

theorem markIds_option (g : List Bool) (Γ : List Layer) :
    ∀ e, markIds (optionMarks g e) = siteIds (optionSites Γ e)
  | none => rfl
  | some e => markIds_expr g Γ e

theorem markIds_parent (g : List Bool) (Γ : List Layer) :
    ∀ parent, markIds (parentMarks g parent) = siteIds (parentSites Γ parent)
  | none | some _ => rfl

theorem siteIds_declares (names : List Bytes) : siteIds (names.map Site.declare) = [] := by
  rw [siteIds, List.flatMap_map]
  exact List.flatMap_eq_nil_iff.mpr fun _ _ => rfl

mutual

theorem markIds_stmt (g : List Bool) (Γ : List Layer) :
    ∀ s, markIds (stmtMarks g s) = siteIds (stmtSites Γ s)
  | .expr value _ | .print value _ | .assert value _ => markIds_expr g Γ value
  | .assertEqual left right _ => by
      simp [stmtMarks, stmtSites, markIds_expr g Γ left, markIds_expr g Γ right]
  | .var name init _ => markIds_option g (mark name.text false Γ) init
  | .block body span => markIds_body (isRound body span :: g) (blockLayer body :: Γ) body
  | .cond test thenBranch none _ => by
      simp [stmtMarks, stmtSites, Site.ids, markIds_expr g Γ test, markIds_stmt g Γ thenBranch]
  | .cond test thenBranch (some elseBranch) _ => by
      simp [stmtMarks, stmtSites, Site.ids, markIds_expr g Γ test, markIds_stmt g Γ thenBranch,
        markIds_stmt g Γ elseBranch]
  | .loop test body _ => by
      simp [stmtMarks, stmtSites, Site.ids, markIds_expr g Γ test, markIds_stmt g Γ body]
  | .ret _ value _ => markIds_option g Γ value
  | .function decl => markIds_function g (bind decl.name.text Γ) decl
  | .classDecl name superclass methods _ => by
      simp [stmtMarks, stmtSites, Site.ids, markIds_parent g (bind name.text Γ) superclass,
        markIds_methods (false :: outerMarks g superclass)
          (receiverLayer :: outerLayers superclass (bind name.text Γ)) methods]

theorem markIds_body (g : List Bool) (Γ : List Layer) :
    ∀ body, markIds (bodyMarks g body) = siteIds (bodySites Γ body)
  | [] => rfl
  | s :: rest => by
      simp [bodyMarks, bodySites, markIds_stmt g Γ s,
        markIds_body g (bindAll (declared s) Γ) rest]

theorem markIds_function (g : List Bool) (Γ : List Layer) :
    ∀ f, markIds (functionMarks g f) = siteIds (functionSites Γ f)
  | .mk _ _ params body _ => by
      simp [functionMarks, functionSites, Site.ids, siteIds_declares,
        markIds_body (false :: g) (bodyLayers params body Γ) body]

theorem markIds_methods (g : List Bool) (Γ : List Layer) :
    ∀ fs, markIds (methodMarks g fs) = siteIds (methodSites Γ fs)
  | [] => rfl
  | f :: rest => by
      simp [methodMarks, methodSites, markIds_function g Γ f, markIds_methods g Γ rest]

end

theorem markIds_module (m : Module) : markIds (moduleMarks m) = siteIds (moduleSites m) := by
  have hscope : siteIds (if m.kind.isolated then [.scope (declaredAll m.body)] else []) = [] := by
    split <;> rfl
  rw [moduleMarks, moduleSites, siteIds_append, hscope, markIds_body _ (moduleLayers m)]
  rfl

end LoxMachine.Scope
