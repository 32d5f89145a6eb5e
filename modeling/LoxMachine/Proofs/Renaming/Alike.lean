import LoxMachine.Proofs.Scope.Sites
import Mathlib.Logic.Equiv.Basic

/-!
# Trees that are alike

Two trees are alike if in some of their scopes the names `x` and `y` are exchanged,
declarations together with the references that lead there, and nothing else differs.
Marks say of the scopes around a place, the innermost first, in which of them that is.
-/

namespace LoxMachine.Renaming

/-! ## Exchanging names -/

/-- Exchanges two names where it is asked for. -/
def turn (x y : Bytes) (marked : Bool) (name : Bytes) : Bytes :=
  if marked = true then Equiv.swap x y name else name

variable {x y : Bytes} {marked : Bool} {name : Bytes}

@[simp] theorem turn_false (name : Bytes) : turn x y false name = name := rfl

theorem turn_turn (marked : Bool) (name : Bytes) :
    turn x y marked (turn x y marked name) = name := by
  cases marked with
  | false => rfl
  | true => exact Equiv.swap_apply_self x y name

theorem turn_injective (marked : Bool) : Function.Injective (turn x y marked) := by
  intro a b h
  rw [← turn_turn marked a, h, turn_turn]

theorem turn_of_ne (hx : name ≠ x) (hy : name ≠ y) : turn x y marked name = name := by
  cases marked with
  | false => rfl
  | true => exact Equiv.swap_apply_of_ne_of_ne hx hy

theorem turn_eq_iff {a b : Bytes} : turn x y marked a = turn x y marked b ↔ a = b :=
  (turn_injective marked).eq_iff

theorem get?_empty_turn {α : Type} (marked : Bool) (n : Bytes) :
    (Bindings.empty : Bindings α).get? (turn x y marked n) = Bindings.empty.get? n := rfl

/-- Bindings that hold the same under exchanged names still do after one more is set. -/
theorem get?_set_turn {α : Type} {b b' : Bindings α}
    (h : ∀ n, b'.get? (turn x y marked n) = b.get? n) (name : Bytes) (v : α) (n : Bytes) :
    (b'.set (turn x y marked name) v).get? (turn x y marked n) = (b.set name v).get? n := by
  by_cases hn : n = name
  · rw [hn, Bindings.get?_set_self, Bindings.get?_set_self]
  · rw [Bindings.get?_set_ne _ hn, Bindings.get?_set_ne _ fun heq => hn (turn_eq_iff.mp heq), h]

/-! ## Marks -/

/-- Whether the scope so many steps out is marked. -/
def markAt (marks : List Bool) (depth : Nat) : Bool :=
  marks.getD depth false

@[simp] theorem markAt_nil (depth : Nat) : markAt [] depth = false := rfl

@[simp] theorem markAt_zero (marked : Bool) (marks : List Bool) :
    markAt (marked :: marks) 0 = marked := rfl

@[simp] theorem markAt_succ (marked : Bool) (marks : List Bool) (depth : Nat) :
    markAt (marked :: marks) (depth + 1) = markAt marks depth := rfl

/-- A site at which `y` is neither declared nor referred to. -/
def Avoids (y : Bytes) : Scope.Site → Prop
  | .read _ _ name => name ≠ y
  | .write _ _ name => name ≠ y
  | .declare name => name ≠ y
  | _ => True

instance (y : Bytes) : DecidablePred (Avoids y)
  | .read _ _ name | .write _ _ name | .declare name => inferInstanceAs (Decidable (name ≠ y))
  | .this _ _ | .super _ _ _ | .scope _ | .branch _ | .function _ => .isTrue trivial

/-- The names by which a node refers to a variable: exchanged if its depth leads to a
marked scope. Without a depth they are the same, whichever scope they may be found in. -/
def Denotes (D : Depths) (x y : Bytes) (marks : List Bool) (id : Nat) (name name' : Bytes) :
    Prop :=
  match D.depth? id with
  | some depth => name' = turn x y (markAt marks depth) name
  | none => name' = name ∧ ∀ k, turn x y (markAt marks k) name = name

/-! ## Alike trees -/

mutual

inductive AlikeExpr (D : Depths) (x y : Bytes) (marks : List Bool) : Expr → Expr → Prop where
  | literal {value span} : AlikeExpr D x y marks (.literal value span) (.literal value span)
  | var {id name name'} (hrange : name'.range = name.range)
      (h : Denotes D x y marks id name.text name'.text) :
      AlikeExpr D x y marks (.var id name) (.var id name')
  | assign {id name name' value value' span} (hrange : name'.range = name.range)
      (h : Denotes D x y marks id name.text name'.text)
      (hvalue : AlikeExpr D x y marks value value') :
      AlikeExpr D x y marks (.assign id name value span) (.assign id name' value' span)
  | unary {op operand operand' span} (h : AlikeExpr D x y marks operand operand') :
      AlikeExpr D x y marks (.unary op operand span) (.unary op operand' span)
  | binary {op left left' right right' span} (hleft : AlikeExpr D x y marks left left')
      (hright : AlikeExpr D x y marks right right') :
      AlikeExpr D x y marks (.binary op left right span) (.binary op left' right' span)
  | logical {op left left' right right' span} (hleft : AlikeExpr D x y marks left left')
      (hright : AlikeExpr D x y marks right right') :
      AlikeExpr D x y marks (.logical op left right span) (.logical op left' right' span)
  | group {inner inner' span} (h : AlikeExpr D x y marks inner inner') :
      AlikeExpr D x y marks (.group inner span) (.group inner' span)
  | call {callee callee' args args' span} (hcallee : AlikeExpr D x y marks callee callee')
      (hargs : AlikeArgs D x y marks args args') :
      AlikeExpr D x y marks (.call callee args span) (.call callee' args' span)
  | get {object object' name span} (h : AlikeExpr D x y marks object object') :
      AlikeExpr D x y marks (.get object name span) (.get object' name span)
  | set {object object' name value value' span} (hobject : AlikeExpr D x y marks object object')
      (hvalue : AlikeExpr D x y marks value value') :
      AlikeExpr D x y marks (.set object name value span) (.set object' name value' span)
  | this {id keyword} : AlikeExpr D x y marks (.this id keyword) (.this id keyword)
  | super {id thisId keyword method span} :
      AlikeExpr D x y marks (.super id thisId keyword method span)
        (.super id thisId keyword method span)

inductive AlikeArgs (D : Depths) (x y : Bytes) (marks : List Bool) :
    List Expr → List Expr → Prop where
  | nil : AlikeArgs D x y marks [] []
  | cons {e e' rest rest'} (h : AlikeExpr D x y marks e e')
      (hrest : AlikeArgs D x y marks rest rest') :
      AlikeArgs D x y marks (e :: rest) (e' :: rest')

end

/-- Superclasses: references like others, or none. -/
inductive AlikeParent (D : Depths) (x y : Bytes) (marks : List Bool) :
    Option Superclass → Option Superclass → Prop where
  | absent : AlikeParent D x y marks none none
  | present {id name name'} (hrange : name'.range = name.range)
      (h : Denotes D x y marks id name.text name'.text) :
      AlikeParent D x y marks (some ⟨id, name⟩) (some ⟨id, name'⟩)

/-- The marks around the methods of a class: the scopes for `super` and `this` have none. -/
def methodMarks (superclass : Option Superclass) (marks : List Bool) : List Bool :=
  false :: (if superclass.isSome then false :: marks else marks)

mutual

inductive AlikeStmt (D : Depths) (x y : Bytes) : List Bool → Stmt → Stmt → Prop where
  | expr {marks value value' span} (h : AlikeExpr D x y marks value value') :
      AlikeStmt D x y marks (.expr value span) (.expr value' span)
  | print {marks value value' span} (h : AlikeExpr D x y marks value value') :
      AlikeStmt D x y marks (.print value span) (.print value' span)
  | assert {marks value value' span} (h : AlikeExpr D x y marks value value') :
      AlikeStmt D x y marks (.assert value span) (.assert value' span)
  | assertEqual {marks left left' right right' span} (hleft : AlikeExpr D x y marks left left')
      (hright : AlikeExpr D x y marks right right') :
      AlikeStmt D x y marks (.assertEqual left right span) (.assertEqual left' right' span)
  | var {marks name name' span}
      (hname : name'.text = turn x y (markAt marks 0) name.text) :
      AlikeStmt D x y marks (.var name none span) (.var name' none span)
  | init {marks name name' init init' span}
      (hname : name'.text = turn x y (markAt marks 0) name.text)
      (h : AlikeExpr D x y marks init init') :
      AlikeStmt D x y marks (.var name (some init) span) (.var name' (some init') span)
  | block {marks body body' span} (marked : Bool)
      (h : AlikeBody D x y (marked :: marks) body body') :
      AlikeStmt D x y marks (.block body span) (.block body' span)
  | cond {marks test test' branch branch' span} (htest : AlikeExpr D x y marks test test')
      (hthen : AlikeStmt D x y marks branch branch') :
      AlikeStmt D x y marks (.cond test branch none span) (.cond test' branch' none span)
  | choice {marks test test' branch branch' other other' span}
      (htest : AlikeExpr D x y marks test test') (hthen : AlikeStmt D x y marks branch branch')
      (helse : AlikeStmt D x y marks other other') :
      AlikeStmt D x y marks (.cond test branch (some other) span)
        (.cond test' branch' (some other') span)
  | loop {marks test test' body body' span} (htest : AlikeExpr D x y marks test test')
      (hbody : AlikeStmt D x y marks body body') :
      AlikeStmt D x y marks (.loop test body span) (.loop test' body' span)
  | ret {marks keyword span} :
      AlikeStmt D x y marks (.ret keyword none span) (.ret keyword none span)
  | giveBack {marks keyword value value' span} (h : AlikeExpr D x y marks value value') :
      AlikeStmt D x y marks (.ret keyword (some value) span) (.ret keyword (some value') span)
  | function {marks decl decl'} (hname : turn x y (markAt marks 0) decl.name.text = decl.name.text)
      (h : AlikeFunction D x y marks decl decl') :
      AlikeStmt D x y marks (.function decl) (.function decl')
  | classDecl {marks name superclass superclass' methods methods' span}
      (hname : turn x y (markAt marks 0) name.text = name.text)
      (hparent : AlikeParent D x y marks superclass superclass')
      (hmethods : AlikeMethods D x y (methodMarks superclass marks) methods methods') :
      AlikeStmt D x y marks (.classDecl name superclass methods span)
        (.classDecl name superclass' methods' span)

inductive AlikeBody (D : Depths) (x y : Bytes) : List Bool → List Stmt → List Stmt → Prop where
  | nil {marks} : AlikeBody D x y marks [] []
  | cons {marks s s' rest rest'} (h : AlikeStmt D x y marks s s')
      (hrest : AlikeBody D x y marks rest rest') :
      AlikeBody D x y marks (s :: rest) (s' :: rest')

inductive AlikeFunction (D : Depths) (x y : Bytes) : List Bool → Function → Function → Prop where
  | mk {marks kind name params params' body body' span} (marked : Bool)
      (hparams : params'.map Name.text = params.map fun p => turn x y marked p.text)
      (h : AlikeBody D x y (marked :: marks) body body') :
      AlikeFunction D x y marks (.mk kind name params body span) (.mk kind name params' body' span)

inductive AlikeMethods (D : Depths) (x y : Bytes) :
    List Bool → List Function → List Function → Prop where
  | nil {marks} : AlikeMethods D x y marks [] []
  | cons {marks f f' rest rest'} (h : AlikeFunction D x y marks f f')
      (hrest : AlikeMethods D x y marks rest rest') :
      AlikeMethods D x y marks (f :: rest) (f' :: rest')

end

variable {D : Depths} {marks : List Bool}

theorem AlikeExpr.span_eq {e e' : Expr} (h : AlikeExpr D x y marks e e') : e'.span = e.span := by
  cases h with
  | var hrange => exact hrange
  | _ => rfl

theorem AlikeFunction.name_eq {f f' : Function} (h : AlikeFunction D x y marks f f') :
    f'.name = f.name := by
  cases h
  rfl

theorem AlikeFunction.kind_eq {f f' : Function} (h : AlikeFunction D x y marks f f') :
    f'.kind = f.kind := by
  cases h
  rfl

theorem AlikeFunction.arity_eq {f f' : Function} (h : AlikeFunction D x y marks f f') :
    f'.arity = f.arity := by
  cases h with
  | mk marked hparams hbody =>
      have hlength := congrArg List.length hparams
      rw [List.length_map, List.length_map] at hlength
      exact hlength

/-! ## Trees are like themselves -/

theorem Denotes.refl (h : ∀ k, markAt marks k = false) (id : Nat) (name : Bytes) :
    Denotes D x y marks id name name := by
  unfold Denotes
  split
  · rw [h, turn_false]
  · exact ⟨rfl, fun k => by rw [h, turn_false]⟩

theorem markAt_cons_false (h : ∀ k, markAt marks k = false) (k : Nat) :
    markAt (false :: marks) k = false := by
  cases k with
  | zero => rfl
  | succ k => exact h k

mutual

theorem AlikeExpr.refl {marks : List Bool} (h : ∀ k, markAt marks k = false) :
    ∀ e, AlikeExpr D x y marks e e
  | .literal _ _ => .literal
  | .var id name => .var rfl (Denotes.refl h id name.text)
  | .assign id name value _ => .assign rfl (Denotes.refl h id name.text) (AlikeExpr.refl h value)
  | .unary _ operand _ => .unary (AlikeExpr.refl h operand)
  | .binary _ left right _ => .binary (AlikeExpr.refl h left) (AlikeExpr.refl h right)
  | .logical _ left right _ => .logical (AlikeExpr.refl h left) (AlikeExpr.refl h right)
  | .group inner _ => .group (AlikeExpr.refl h inner)
  | .call callee args _ => .call (AlikeExpr.refl h callee) (AlikeArgs.refl h args)
  | .get object _ _ => .get (AlikeExpr.refl h object)
  | .set object _ value _ => .set (AlikeExpr.refl h object) (AlikeExpr.refl h value)
  | .this _ _ => .this
  | .super _ _ _ _ _ => .super

theorem AlikeArgs.refl {marks : List Bool} (h : ∀ k, markAt marks k = false) :
    ∀ es, AlikeArgs D x y marks es es
  | [] => .nil
  | e :: rest => .cons (AlikeExpr.refl h e) (AlikeArgs.refl h rest)

end

theorem AlikeParent.refl {marks : List Bool} (h : ∀ k, markAt marks k = false) :
    ∀ parent, AlikeParent D x y marks parent parent
  | none => .absent
  | some ⟨id, name⟩ => .present rfl (Denotes.refl h id name.text)

theorem markAt_methodMarks {marks : List Bool} (h : ∀ k, markAt marks k = false)
    (superclass : Option Superclass) (k : Nat) :
    markAt (methodMarks superclass marks) k = false := by
  unfold methodMarks
  split
  · exact markAt_cons_false (markAt_cons_false h) k
  · exact markAt_cons_false h k

mutual

theorem AlikeStmt.refl : ∀ {marks : List Bool}, (∀ k, markAt marks k = false) →
    ∀ s, AlikeStmt D x y marks s s
  | _, h, .expr value _ => .expr (AlikeExpr.refl h value)
  | _, h, .print value _ => .print (AlikeExpr.refl h value)
  | _, h, .assert value _ => .assert (AlikeExpr.refl h value)
  | _, h, .assertEqual left right _ =>
      .assertEqual (AlikeExpr.refl h left) (AlikeExpr.refl h right)
  | _, h, .var name none _ => .var (by rw [h 0, turn_false])
  | _, h, .var name (some init) _ =>
      .init (by rw [h 0, turn_false]) (AlikeExpr.refl h init)
  | _, h, .block body _ => .block false (AlikeBody.refl (markAt_cons_false h) body)
  | _, h, .cond test branch none _ =>
      .cond (AlikeExpr.refl h test) (AlikeStmt.refl h branch)
  | _, h, .cond test branch (some other) _ =>
      .choice (AlikeExpr.refl h test) (AlikeStmt.refl h branch) (AlikeStmt.refl h other)
  | _, h, .loop test body _ => .loop (AlikeExpr.refl h test) (AlikeStmt.refl h body)
  | _, _, .ret _ none _ => .ret
  | _, h, .ret _ (some value) _ => .giveBack (AlikeExpr.refl h value)
  | _, h, .function decl => .function (by rw [h 0, turn_false]) (AlikeFunction.refl h decl)
  | _, h, .classDecl name superclass methods _ =>
      .classDecl (by rw [h 0, turn_false]) (AlikeParent.refl h superclass)
        (AlikeMethods.refl (markAt_methodMarks h superclass) methods)

theorem AlikeBody.refl : ∀ {marks : List Bool}, (∀ k, markAt marks k = false) →
    ∀ body, AlikeBody D x y marks body body
  | _, _, [] => .nil
  | _, h, s :: rest => .cons (AlikeStmt.refl h s) (AlikeBody.refl h rest)

theorem AlikeFunction.refl : ∀ {marks : List Bool}, (∀ k, markAt marks k = false) →
    ∀ f, AlikeFunction D x y marks f f
  | _, h, .mk _ _ _ body _ => .mk false rfl (AlikeBody.refl (markAt_cons_false h) body)

theorem AlikeMethods.refl : ∀ {marks : List Bool}, (∀ k, markAt marks k = false) →
    ∀ fs, AlikeMethods D x y marks fs fs
  | _, _, [] => .nil
  | _, h, f :: rest => .cons (AlikeFunction.refl h f) (AlikeMethods.refl h rest)

end

end LoxMachine.Renaming
