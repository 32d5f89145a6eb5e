import LoxMachine.Proofs.Placing.Trees
import LoxMachine.Proofs.Scope.Resolution

/-!
# The pass over trees in other places

A pass over a tree that stands elsewhere, after other trees, records the same depths on top
of those it finds, and finds the tree as good as it was.
-/

namespace LoxMachine.Scope

/-- The passes over two trees stand at the same place. The second one has in addition found
the depths `D`, and reports nothing as long as the first does not. -/
structure Overlaid (D : Depths) (s s' : State) : Prop where
  scopes : s'.scopes = s.scopes
  depths : ∀ id, s'.depths.depth? id = (s.depths.depth? id).or (D.depth? id)
  clean : s.bag.isClean = true → s'.bag.isClean = true

variable {D : Depths} {s s' : State} {f : Range → Range}

/-! ## Scopes and references -/

theorem Overlaid.push (h : Overlaid D s s') : Overlaid D s.push s'.push :=
  { h with scopes := congrArg (Bindings.empty :: ·) h.scopes }

theorem Overlaid.pop (h : Overlaid D s s') : Overlaid D s.pop s'.pop :=
  { h with scopes := congrArg List.tail h.scopes }

theorem Overlaid.report (h : Overlaid D s s') (range range' : Range) (violation : Violation) :
    Overlaid D (s.report range violation) (s'.report range' violation) where
  scopes := h.scopes
  depths := h.depths
  clean hclean := by
    rw [State.report, Bag.isClean_error] at hclean
    cases hclean

theorem Overlaid.mark (h : Overlaid D s s') (name : Bytes) (usable : Bool) :
    Overlaid D (s.mark name usable) (s'.mark name usable) := by
  unfold State.mark
  rw [h.scopes]
  split
  · exact h
  · exact { h with scopes := rfl }

theorem Overlaid.declare (h : Overlaid D s s') (name : Name) :
    Overlaid D (s.declare name) (s'.declare (name.place f)) := by
  unfold State.declare
  rw [h.scopes]
  split
  · exact h
  next scope _ _ =>
    dsimp only
    by_cases hbound : scope.contains name.text = true
    · have hbound' : scope.contains (name.place f).text = true := hbound
      rw [if_pos hbound, if_pos hbound']
      exact (h.report _ _ _).mark _ _
    · have hbound' : ¬ scope.contains (name.place f).text = true := hbound
      rw [if_neg hbound, if_neg hbound']
      exact h.mark _ _

theorem Overlaid.bind (h : Overlaid D s s') (name : Name) :
    Overlaid D (s.bind name) (s'.bind (name.place f)) :=
  (h.declare name).mark name.text true

theorem Overlaid.bindAll (h : Overlaid D s s') (names : List Name) :
    Overlaid D (names.foldl State.bind s) ((names.map (Name.place f)).foldl State.bind s') := by
  induction names generalizing s s' with
  | nil => exact h
  | cons name names ih => exact ih (h.bind name)

theorem Overlaid.refer (h : Overlaid D s s') (id : Nat) (name : Bytes) (node node' : Expr) :
    Overlaid D (s.refer id name node) (s'.refer id name node') := by
  unfold State.refer
  rw [h.scopes]
  split
  next depth _ =>
    refine ⟨rfl, fun other => ?_, h.clean⟩
    rw [Depths.depth?_insert, Depths.depth?_insert, h.depths]
    split <;> rfl
  next => exact h

/-! ## Expressions -/

mutual

theorem Overlaid.visit {ctx : Context} : ∀ (e : Expr) {s s' : State}, Overlaid D s s' →
    Overlaid D (visit ctx e s) (visit ctx (e.place f) s')
  | .literal _ _, _, _, h => h
  | .var id name, _, _, h => h.refer id name.text _ _
  | .assign id name value _, _, _, h => (Overlaid.visit value h).refer id name.text _ _
  | .unary _ operand _, _, _, h => Overlaid.visit operand h
  | .binary _ left right _, _, _, h => Overlaid.visit right (Overlaid.visit left h)
  | .logical _ left right _, _, _, h => Overlaid.visit right (Overlaid.visit left h)
  | .group inner _, _, _, h => Overlaid.visit inner h
  | .call callee args _, _, _, h => Overlaid.visitAll args (Overlaid.visit callee h)
  | .get object _ _, _, _, h => Overlaid.visit object h
  | .set object _ value _, _, _, h => Overlaid.visit object (Overlaid.visit value h)
  | .this id keyword, _, _, h => by
      simp only [Scope.visit, Expr.place]
      split
      · exact h.report _ _ _
      · exact h.refer id _ _ _
  | .super id thisId keyword method span, _, _, h => by
      simp only [Scope.visit, Expr.place]
      cases ctx.enclosing with
      | noClass => exact ((h.report _ _ _).refer id _ _ _).refer thisId _ _ _
      | plainClass => exact ((h.report _ _ _).refer id _ _ _).refer thisId _ _ _
      | subclass => exact (h.refer id _ _ _).refer thisId _ _ _

theorem Overlaid.visitAll {ctx : Context} : ∀ (es : List Expr) {s s' : State}, Overlaid D s s' →
    Overlaid D (visitAll ctx es s) (visitAll ctx (Expr.placeAll f es) s')
  | [], _, _, h => h
  | e :: rest, _, _, h => Overlaid.visitAll rest (Overlaid.visit e h)

end

theorem Overlaid.visitOption {ctx : Context} (h : Overlaid D s s') (e : Option Expr) :
    Overlaid D (visitOption ctx e s) (visitOption ctx (e.map (Expr.place f)) s') := by
  cases e with
  | none => exact h
  | some e => exact h.visit e

/-! ## Statements -/

theorem Overlaid.enterClass {ctx : Context} (h : Overlaid D s s') (name : Name)
    (superclass : Option Superclass) :
    Overlaid D (enterClass ctx name superclass s)
      (enterClass ctx (name.place f) (superclass.map (Superclass.place f)) s') := by
  cases superclass with
  | none => exact (h.bind name).push.mark _ _
  | some parent =>
      simp only [Scope.enterClass, Option.map_some, Superclass.place]
      by_cases hself : parent.name.text = name.text
      · have hself' : (parent.name.place f).text = (name.place f).text := hself
        rw [if_pos hself, if_pos hself']
        exact ((((h.bind name).report _ _ _).refer parent.id _ _ _).push.mark _ _).push.mark _ _
      · have hself' : ¬ (parent.name.place f).text = (name.place f).text := hself
        rw [if_neg hself, if_neg hself']
        exact (((h.bind name).refer parent.id _ _ _).push.mark _ _).push.mark _ _

theorem Overlaid.leaveClass (h : Overlaid D s s') (superclass : Option Superclass) :
    Overlaid D (leaveClass superclass s)
      (leaveClass (superclass.map (Superclass.place f)) s') := by
  cases superclass with
  | none => exact h.pop
  | some parent => exact h.pop.pop

mutual

theorem Overlaid.walk : ∀ (stmt : Stmt) {ctx : Context} {s s' : State}, Overlaid D s s' →
    Overlaid D (walk ctx stmt s) (walk ctx (stmt.place f) s')
  | .expr value _, _, _, _, h => h.visit value
  | .print value _, _, _, _, h => h.visit value
  | .assert value _, _, _, _, h => h.visit value
  | .assertEqual left right _, _, _, _, h => (h.visit left).visit right
  | .var name init _, _, _, _, h => ((h.declare name).visitOption init).mark _ _
  | .block body _, _, _, _, h => (Overlaid.walkAll body h.push).pop
  | .cond test thenBranch none _, _, _, _, h => Overlaid.walk thenBranch (h.visit test)
  | .cond test thenBranch (some elseBranch) _, _, _, _, h =>
      Overlaid.walk elseBranch (Overlaid.walk thenBranch (h.visit test))
  | .loop test body _, _, _, _, h => Overlaid.walk body (h.visit test)
  | .ret keyword value _, _, _, _, h => by
      simp only [Scope.walk, Stmt.place]
      split
      · exact h.visitOption value
      · exact (h.report _ _ _).visitOption value
  | .function decl, _, _, _, h => by
      simp only [Scope.walk, Stmt.place, Function.name_place]
      exact Overlaid.walkFunction decl (h.bind decl.name)
  | .classDecl name superclass methods _, ctx, _, _, h => by
      have hctx : ctx.inClass (superclass.map (Superclass.place f)) = ctx.inClass superclass := by
        cases superclass <;> rfl
      simp only [Scope.walk, Stmt.place, hctx]
      exact (Overlaid.walkMethods methods (h.enterClass name superclass)).leaveClass superclass

theorem Overlaid.walkAll : ∀ (body : List Stmt) {ctx : Context} {s s' : State},
    Overlaid D s s' → Overlaid D (walkAll ctx body s) (walkAll ctx (Stmt.placeAll f body) s')
  | [], _, _, _, h => h
  | stmt :: rest, _, _, _, h => Overlaid.walkAll rest (Overlaid.walk stmt h)

theorem Overlaid.walkFunction : ∀ (decl : Function) {ctx : Context} {s s' : State},
    Overlaid D s s' → Overlaid D (walkFunction ctx decl s) (walkFunction ctx (decl.place f) s')
  | .mk _ _ params body _, _, _, _, h => (Overlaid.walkAll body (h.push.bindAll params)).pop

theorem Overlaid.walkMethods : ∀ (fs : List Function) {ctx : Context} {s s' : State},
    Overlaid D s s' → Overlaid D (walkMethods ctx fs s) (walkMethods ctx (Function.placeAll f fs) s')
  | [], _, _, _, h => h
  | decl :: rest, _, _, _, h => Overlaid.walkMethods rest (Overlaid.walkFunction decl h)

end

/-! ## Modules one after another -/

theorem walkAll_append (ctx : Context) (body rest : List Stmt) (s : State) :
    walkAll ctx (body ++ rest) s = walkAll ctx rest (walkAll ctx body s) := by
  induction body generalizing s with
  | nil => rfl
  | cons stmt body ih => exact ih _

/-- Following two lines one after another comes to the same as following each by itself. -/
theorem resolve_joined {m m₁ m₂ : Module} {g : Range → Range} {bag bag₁ bag₂ : Bag}
    (hkind : m.kind = .replLine) (hkind₁ : m₁.kind = .replLine) (hkind₂ : m₂.kind = .replLine)
    (hbody : m.body = Stmt.placeAll f m₁.body ++ Stmt.placeAll g m₂.body)
    (hproper : ∀ site ∈ moduleSites m₁, site.Proper) (hclean : bag.isClean = true)
    (h₁ : (resolve m₁ bag₁).2.isClean = true) (h₂ : (resolve m₂ bag₂).2.isClean = true) :
    (resolve m bag).2.isClean = true ∧
      ∀ id, (resolve m bag).1.depth? id =
        ((resolve m₂ bag₂).1.depth? id).or ((resolve m₁ bag₁).1.depth? id) := by
  have hshared : ∀ kind : ModuleKind, kind = .replLine →
      (if kind.isolated then [Bindings.empty] else ([] : List (Bindings Bool))) = [] := by
    rintro kind rfl
    rfl
  have hlayers : moduleLayers m₁ = [] := by
    rw [moduleLayers, hkind₁]
    rfl
  unfold resolve at h₁ h₂ ⊢
  dsimp only at h₁ h₂ ⊢
  rw [hshared _ hkind, hbody, walkAll_append]
  rw [hshared _ hkind₁] at h₁ ⊢
  rw [hshared _ hkind₂] at h₂ ⊢
  -- After the first line no scope is open.
  have hfollows : Follows [] (declaredAll m₁.body) (bodySites [] m₁.body) ⟨[], Depths.empty, bag₁⟩
      (walkAll Context.outermost m₁.body ⟨[], Depths.empty, bag₁⟩) :=
    follows_walkAll m₁.body nofun ⟨fun h => absurd rfl h, nofun⟩ rfl
      fun site hmem => hproper site (List.mem_append_right _ (hlayers ▸ hmem))
  have hscopes := hfollows.scopes
  rw [bindAll_nil] at hscopes
  have hfirst : Overlaid Depths.empty (walkAll Context.outermost m₁.body ⟨[], Depths.empty, bag₁⟩)
      (walkAll Context.outermost (Stmt.placeAll f m₁.body) ⟨[], Depths.empty, bag⟩) :=
    Overlaid.walkAll m₁.body ⟨rfl, fun _ => rfl, fun _ => hclean⟩
  generalize walkAll Context.outermost m₁.body ⟨[], Depths.empty, bag₁⟩ = t₁
    at h₁ hscopes hfirst ⊢
  generalize walkAll Context.outermost (Stmt.placeAll f m₁.body) ⟨[], Depths.empty, bag⟩ = t
    at hfirst ⊢
  have hsecond : Overlaid t.depths (walkAll Context.outermost m₂.body ⟨[], Depths.empty, bag₂⟩)
      (walkAll Context.outermost (Stmt.placeAll g m₂.body) t) :=
    Overlaid.walkAll m₂.body
      ⟨hfirst.scopes.trans hscopes, fun _ => rfl, fun _ => hfirst.clean h₁⟩
  refine ⟨hsecond.clean h₂, fun id => ?_⟩
  rw [hsecond.depths, hfirst.depths, depth?_empty, Option.or_none]

end LoxMachine.Scope
