import LoxMachine.Proofs.Source.Trees
import LoxMachine.Scope

/-!
# Where violations are reported

The pass over a tree reports every violation at a name or a keyword of the tree, so in a tree
of a source at a place in the source.
-/

namespace LoxMachine.Scope

variable {src : Source} {s : State}

/-- All that has been reported is about places in the source. -/
def State.Within (src : Source) (s : State) : Prop :=
  s.bag.Within src

namespace State

theorem Within.report (h : s.Within src) {range : Range} (hrange : range.Proper src)
    (violation : Violation) : (s.report range violation).Within src :=
  Bag.Within.error h hrange.within _

theorem Within.push (h : s.Within src) : s.push.Within src :=
  h

theorem Within.mark (h : s.Within src) (name : Bytes) (usable : Bool) :
    (s.mark name usable).Within src := by
  unfold State.mark
  split <;> exact h

theorem Within.declare (h : s.Within src) {name : Name} (hname : name.range.Proper src) :
    (s.declare name).Within src := by
  unfold State.declare
  split
  · exact h
  · split
    · exact (h.report hname _).mark _ _
    · exact h.mark _ _

theorem Within.bind (h : s.Within src) {name : Name} (hname : name.range.Proper src) :
    (s.bind name).Within src :=
  (h.declare hname).mark _ _

theorem Within.bindAll (h : s.Within src) {params : List Name}
    (hparams : ∀ p ∈ params, p.range.Proper src) : (params.foldl State.bind s).Within src := by
  induction params generalizing s with
  | nil => exact h
  | cons p params ih =>
      obtain ⟨hp, hrest⟩ := List.forall_mem_cons.mp hparams
      exact ih (h.bind hp) hrest

theorem Within.refer (h : s.Within src) (id : Nat) (name : Bytes) (node : Expr) :
    (s.refer id name node).Within src := by
  unfold State.refer
  split <;> exact h

end State

/-! ## Expressions -/

mutual

theorem State.Within.visit {ctx : Context} :
    ∀ (e : Expr) {s : State}, e.Located src → s.Within src → (visit ctx e s).Within src
  | .literal _ _, _, _, h => h
  | .var id name, _, _, h => h.refer id name.text _
  | .assign id name value _, _, .assign _ hvalue _, h =>
      (State.Within.visit value hvalue h).refer id name.text _
  | .unary _ operand _, _, .unary hoperand _, h => State.Within.visit operand hoperand h
  | .binary _ left right _, _, .binary hleft hright _, h =>
      State.Within.visit right hright (State.Within.visit left hleft h)
  | .logical _ left right _, _, .logical hleft hright _, h =>
      State.Within.visit right hright (State.Within.visit left hleft h)
  | .group inner _, _, .group hinner _, h => State.Within.visit inner hinner h
  | .call callee args _, _, .call hcallee hargs _, h =>
      State.Within.visitAll args hargs (State.Within.visit callee hcallee h)
  | .get object _ _, _, .get hobject _ _, h => State.Within.visit object hobject h
  | .set object _ value _, _, .set hobject _ hvalue _, h =>
      State.Within.visit object hobject (State.Within.visit value hvalue h)
  | .this id keyword, _, .this hkeyword, h => by
      simp only [Scope.visit]
      split
      · exact h.report hkeyword _
      · exact h.refer id _ _
  | .super id thisId keyword method span, s, .super hkeyword _ _, h => by
      simp only [Scope.visit]
      cases ctx.enclosing with
      | noClass => exact ((h.report hkeyword _).refer id _ _).refer thisId _ _
      | plainClass => exact ((h.report hkeyword _).refer id _ _).refer thisId _ _
      | subclass => exact (h.refer id _ _).refer thisId _ _

theorem State.Within.visitAll {ctx : Context} : ∀ (es : List Expr) {s : State},
    (∀ e ∈ es, e.Located src) → s.Within src → (visitAll ctx es s).Within src
  | [], _, _, h => h
  | e :: rest, _, hes, h => by
      obtain ⟨he, hrest⟩ := List.forall_mem_cons.mp hes
      exact State.Within.visitAll rest hrest (State.Within.visit e he h)

end

theorem State.Within.visitOption {ctx : Context} (h : s.Within src) {value : Option Expr}
    (hvalue : ∀ e ∈ value, e.Located src) : (visitOption ctx value s).Within src := by
  cases value with
  | none => exact h
  | some e => exact h.visit e (hvalue e rfl)

/-! ## Statements -/

theorem State.Within.enterClass {ctx : Context} (h : s.Within src) {name : Name}
    (hname : name.range.Proper src) {superclass : Option Superclass}
    (hparent : ∀ parent ∈ superclass, parent.name.range.Proper src) :
    (enterClass ctx name superclass s).Within src := by
  have hbind := h.bind hname
  cases superclass with
  | none => exact hbind.push.mark _ _
  | some parent =>
      have hrange := hparent parent rfl
      simp only [Scope.enterClass]
      split
      · exact (((hbind.report hrange _).visit _ (.var hrange)).push.mark _ _).push.mark _ _
      · exact ((hbind.visit _ (.var hrange)).push.mark _ _).push.mark _ _

theorem State.Within.leaveClass (h : s.Within src) (superclass : Option Superclass) :
    (leaveClass superclass s).Within src := by
  unfold Scope.leaveClass
  split <;> exact h

mutual

theorem State.Within.walk : ∀ (stmt : Stmt) {ctx : Context} {s : State}, stmt.Located src →
    s.Within src → (walk ctx stmt s).Within src
  | .expr value _, _, _, .expr hvalue _, h => h.visit value hvalue
  | .print value _, _, _, .print hvalue _, h => h.visit value hvalue
  | .assert value _, _, _, .assert hvalue _, h => h.visit value hvalue
  | .assertEqual left right _, _, _, .assertEqual hleft hright _, h =>
      (h.visit left hleft).visit right hright
  | .var name init _, _, _, .var hname hinit _, h => ((h.declare hname).visitOption hinit).mark _ _
  | .block body _, _, _, .block hbody _, h => State.Within.walkAll body hbody h.push
  | .cond test thenBranch none _, _, _, .cond htest hthen _ _, h =>
      State.Within.walk thenBranch hthen (h.visit test htest)
  | .cond test thenBranch (some elseBranch) _, _, _, .cond htest hthen helse _, h =>
      State.Within.walk elseBranch (helse elseBranch rfl)
        (State.Within.walk thenBranch hthen (h.visit test htest))
  | .loop test body _, _, _, .loop htest hbody _, h =>
      State.Within.walk body hbody (h.visit test htest)
  | .ret keyword value _, ctx, _, .ret hkeyword hvalue _, h => by
      simp only [Scope.walk]
      split
      · exact h.visitOption hvalue
      · exact (h.report hkeyword _).visitOption hvalue
  | .function decl, _, _, .function hdecl, h =>
      State.Within.walkFunction decl hdecl (h.bind hdecl.name)
  | .classDecl name superclass methods _, ctx, _, .classDecl hname hparent hmethods _, h =>
      (State.Within.walkMethods methods hmethods (h.enterClass hname hparent)).leaveClass superclass

theorem State.Within.walkAll : ∀ (body : List Stmt) {ctx : Context} {s : State},
    (∀ stmt ∈ body, stmt.Located src) → s.Within src → (walkAll ctx body s).Within src
  | [], _, _, _, h => h
  | stmt :: rest, _, _, hbody, h => by
      obtain ⟨hstmt, hrest⟩ := List.forall_mem_cons.mp hbody
      exact State.Within.walkAll rest hrest (State.Within.walk stmt hstmt h)

theorem State.Within.walkFunction : ∀ (f : Function) {ctx : Context} {s : State},
    f.Located src → s.Within src → (walkFunction ctx f s).Within src
  | .mk _ _ _ body _, _, _, .mk _ hparams hbody _, h =>
      State.Within.walkAll body hbody (h.push.bindAll hparams)

theorem State.Within.walkMethods : ∀ (fs : List Function) {ctx : Context} {s : State},
    (∀ f ∈ fs, f.Located src) → s.Within src → (walkMethods ctx fs s).Within src
  | [], _, _, _, h => h
  | f :: rest, _, _, hfs, h => by
      obtain ⟨hf, hrest⟩ := List.forall_mem_cons.mp hfs
      exact State.Within.walkMethods rest hrest (State.Within.walkFunction f hf h)

end

/-- What is reported about a module that is located in a source is about places in it. -/
theorem within_resolve {m : Module} {bag : Bag} (hbody : ∀ s ∈ m.body, s.Located src)
    (hbag : bag.Within src) : (resolve m bag).2.Within src :=
  State.Within.walkAll m.body hbody
    (s := ⟨if m.kind.isolated then [Bindings.empty] else [], Depths.empty, bag⟩) hbag

end LoxMachine.Scope
