import LoxMachine.Proofs.Scope.Sites
import LoxMachine.Machine

/-!
# Trees in other places

The same code may stand elsewhere, in another text or at other offsets.  A tree whose
ranges have been changed is the same in all else.
-/

namespace LoxMachine

open Scope

/-- A change of ranges that keeps what covers what. -/
def Range.Keeps (f : Range → Range) : Prop :=
  ∀ a b, f (a.join b) = (f a).join (f b)

namespace Range

theorem keeps_id : Keeps fun r => r :=
  fun _ _ => rfl

theorem keeps_nowhere : Keeps fun _ => nowhere :=
  fun _ _ => rfl

/-- The range at a later offset of another source. -/
def shift (src : Source) (offset : Nat) (r : Range) : Range :=
  ⟨r.source.map fun _ => src, r.start + offset, r.stop + offset⟩

theorem keeps_shift (src : Source) (offset : Nat) : Keeps (shift src offset) := by
  rintro ⟨source, start, stop⟩ ⟨source', start', stop'⟩
  cases source with
  | none => rfl
  | some _ =>
      cases source' with
      | none => rfl
      | some _ =>
          simp only [shift, join, Option.map_some, Nat.add_min_add_right, Nat.add_max_add_right]

end Range

/-! ## Changing ranges -/

def Name.place (f : Range → Range) (name : Name) : Name :=
  ⟨name.text, f name.range⟩

mutual

def Expr.place (f : Range → Range) : Expr → Expr
  | .literal value span => .literal value (f span)
  | .var id name => .var id (name.place f)
  | .assign id name value span => .assign id (name.place f) (value.place f) (f span)
  | .unary op operand span => .unary op (operand.place f) (f span)
  | .binary op left right span => .binary op (left.place f) (right.place f) (f span)
  | .logical op left right span => .logical op (left.place f) (right.place f) (f span)
  | .group inner span => .group (inner.place f) (f span)
  | .call callee args span => .call (callee.place f) (Expr.placeAll f args) (f span)
  | .get object name span => .get (object.place f) (name.place f) (f span)
  | .set object name value span =>
      .set (object.place f) (name.place f) (value.place f) (f span)
  | .this id keyword => .this id (f keyword)
  | .super id thisId keyword method span =>
      .super id thisId (f keyword) (method.place f) (f span)

def Expr.placeAll (f : Range → Range) : List Expr → List Expr
  | [] => []
  | e :: rest => e.place f :: Expr.placeAll f rest

end

def Superclass.place (f : Range → Range) (parent : Superclass) : Superclass :=
  ⟨parent.id, parent.name.place f⟩

mutual

def Stmt.place (f : Range → Range) : Stmt → Stmt
  | .expr value span => .expr (value.place f) (f span)
  | .print value span => .print (value.place f) (f span)
  | .assert value span => .assert (value.place f) (f span)
  | .assertEqual left right span => .assertEqual (left.place f) (right.place f) (f span)
  | .var name init span => .var (name.place f) (init.map (Expr.place f)) (f span)
  | .block body span => .block (Stmt.placeAll f body) (f span)
  | .cond test thenBranch none span => .cond (test.place f) (thenBranch.place f) none (f span)
  | .cond test thenBranch (some elseBranch) span =>
      .cond (test.place f) (thenBranch.place f) (some (elseBranch.place f)) (f span)
  | .loop test body span => .loop (test.place f) (body.place f) (f span)
  | .ret keyword value span => .ret (f keyword) (value.map (Expr.place f)) (f span)
  | .function decl => .function (decl.place f)
  | .classDecl name superclass methods span =>
      .classDecl (name.place f) (superclass.map (Superclass.place f))
        (Function.placeAll f methods) (f span)

def Stmt.placeAll (f : Range → Range) : List Stmt → List Stmt
  | [] => []
  | s :: rest => s.place f :: Stmt.placeAll f rest

def Function.place (f : Range → Range) : Function → Function
  | .mk kind name params body span =>
      .mk kind (name.place f) (params.map (Name.place f)) (Stmt.placeAll f body) (f span)

def Function.placeAll (f : Range → Range) : List Function → List Function
  | [] => []
  | decl :: rest => decl.place f :: Function.placeAll f rest

end

variable {f : Range → Range}

theorem Stmt.placeAll_eq_map (f : Range → Range) (body : List Stmt) :
    Stmt.placeAll f body = body.map (Stmt.place f) := by
  induction body with
  | nil => rfl
  | cons s body ih => rw [Stmt.placeAll, ih, List.map_cons]

theorem Stmt.placeAll_append (f : Range → Range) (body rest : List Stmt) :
    Stmt.placeAll f (body ++ rest) = Stmt.placeAll f body ++ Stmt.placeAll f rest := by
  simp only [placeAll_eq_map, List.map_append]

/-! ## What stays -/

@[simp] theorem Name.text_place (name : Name) : (name.place f).text = name.text := rfl

@[simp] theorem Expr.span_place (e : Expr) : (e.place f).span = f e.span := by
  cases e <;> rfl

@[simp] theorem Function.kind_place (decl : Function) : (decl.place f).kind = decl.kind := by
  cases decl
  rfl

@[simp] theorem Function.name_place (decl : Function) :
    (decl.place f).name = decl.name.place f := by
  cases decl
  rfl

@[simp] theorem Function.params_place (decl : Function) :
    (decl.place f).params = decl.params.map (Name.place f) := by
  cases decl
  rfl

@[simp] theorem Function.body_place (decl : Function) :
    (decl.place f).body = Stmt.placeAll f decl.body := by
  cases decl
  rfl

@[simp] theorem Function.arity_place (decl : Function) : (decl.place f).arity = decl.arity := by
  unfold Function.arity
  rw [params_place, List.length_map]

@[simp] theorem Stmt.span_place (s : Stmt) : (s.place f).span = f s.span := by
  cases s with
  | cond test thenBranch elseBranch span => cases elseBranch <;> rfl
  | function decl =>
      cases decl
      rfl
  | _ => rfl

/-! ## Changing ranges twice -/

mutual

theorem Expr.place_place (f g : Range → Range) :
    ∀ e : Expr, (e.place f).place g = e.place fun r => g (f r)
  | .literal _ _ | .var _ _ | .this _ _ | .super _ _ _ _ _ => rfl
  | .assign _ _ value _ => by simp only [Expr.place, Name.place, place_place f g value]
  | .unary _ operand _ => by simp only [Expr.place, place_place f g operand]
  | .binary _ left right _ | .logical _ left right _ => by
      simp only [Expr.place, place_place f g left, place_place f g right]
  | .set object _ value _ => by
      simp only [Expr.place, Name.place, place_place f g object, place_place f g value]
  | .group inner _ => by simp only [Expr.place, place_place f g inner]
  | .call callee args _ => by
      simp only [Expr.place, place_place f g callee, Expr.placeAll_placeAll f g args]
  | .get object _ _ => by simp only [Expr.place, Name.place, place_place f g object]

theorem Expr.placeAll_placeAll (f g : Range → Range) :
    ∀ es : List Expr, Expr.placeAll g (Expr.placeAll f es) = Expr.placeAll (fun r => g (f r)) es
  | [] => rfl
  | e :: rest => by
      simp only [Expr.placeAll, Expr.place_place f g e, Expr.placeAll_placeAll f g rest]

end

theorem Expr.optionPlace_place (f g : Range → Range) (e : Option Expr) :
    (e.map (Expr.place f)).map (Expr.place g) = e.map (Expr.place fun r => g (f r)) := by
  rw [Option.map_map]
  exact Option.map_congr fun e _ => e.place_place f g

mutual

theorem Stmt.place_place (f g : Range → Range) :
    ∀ s : Stmt, (s.place f).place g = s.place fun r => g (f r)
  | .expr value _ | .print value _ | .assert value _ => by
      simp only [Stmt.place, value.place_place f g]
  | .assertEqual left right _ => by
      simp only [Stmt.place, left.place_place f g, right.place_place f g]
  | .var _ init _ => by simp only [Stmt.place, Name.place, Expr.optionPlace_place]
  | .block body _ => by simp only [Stmt.place, Stmt.placeAll_placeAll f g body]
  | .cond test thenBranch none _ => by
      simp only [Stmt.place, test.place_place f g, Stmt.place_place f g thenBranch]
  | .cond test thenBranch (some elseBranch) _ => by
      simp only [Stmt.place, test.place_place f g, Stmt.place_place f g thenBranch,
        Stmt.place_place f g elseBranch]
  | .loop test body _ => by
      simp only [Stmt.place, test.place_place f g, Stmt.place_place f g body]
  | .ret _ value _ => by simp only [Stmt.place, Expr.optionPlace_place]
  | .function decl => by simp only [Stmt.place, Function.place_place f g decl]
  | .classDecl _ superclass methods _ => by
      cases superclass <;>
        simp only [Stmt.place, Name.place, Option.map_none, Option.map_some, Superclass.place,
          Function.placeAll_placeAll f g methods]

theorem Stmt.placeAll_placeAll (f g : Range → Range) :
    ∀ body : List Stmt,
      Stmt.placeAll g (Stmt.placeAll f body) = Stmt.placeAll (fun r => g (f r)) body
  | [] => rfl
  | s :: rest => by
      simp only [Stmt.placeAll, Stmt.place_place f g s, Stmt.placeAll_placeAll f g rest]

theorem Function.place_place (f g : Range → Range) :
    ∀ decl : Function, (decl.place f).place g = decl.place fun r => g (f r)
  | .mk _ _ params body _ => by
      simp only [Function.place, Name.place, List.map_map, Stmt.placeAll_placeAll f g body]
      rfl

theorem Function.placeAll_placeAll (f g : Range → Range) :
    ∀ fs : List Function,
      Function.placeAll g (Function.placeAll f fs) = Function.placeAll (fun r => g (f r)) fs
  | [] => rfl
  | decl :: rest => by
      simp only [Function.placeAll, Function.place_place f g decl,
        Function.placeAll_placeAll f g rest]

end

/-! ## Leaving ranges as they are -/

mutual

theorem Expr.place_id : ∀ e : Expr, e.place (fun r => r) = e
  | .literal _ _ | .var _ _ | .this _ _ | .super _ _ _ _ _ => rfl
  | .assign _ _ value _ => by simp only [Expr.place, Name.place, place_id value]
  | .unary _ operand _ => by simp only [Expr.place, place_id operand]
  | .binary _ left right _ | .logical _ left right _ => by
      simp only [Expr.place, place_id left, place_id right]
  | .set object _ value _ => by
      simp only [Expr.place, Name.place, place_id object, place_id value]
  | .group inner _ => by simp only [Expr.place, place_id inner]
  | .call callee args _ => by simp only [Expr.place, place_id callee, Expr.placeAll_id args]
  | .get object _ _ => by simp only [Expr.place, Name.place, place_id object]

theorem Expr.placeAll_id : ∀ es : List Expr, Expr.placeAll (fun r => r) es = es
  | [] => rfl
  | e :: rest => by simp only [Expr.placeAll, Expr.place_id e, Expr.placeAll_id rest]

end

theorem Expr.optionPlace_id (e : Option Expr) : e.map (Expr.place fun r => r) = e := by
  cases e with
  | none => rfl
  | some e => rw [Option.map_some, e.place_id]

theorem Name.allPlace_id (names : List Name) : names.map (Name.place fun r => r) = names :=
  List.map_id' names

mutual

theorem Stmt.place_id : ∀ s : Stmt, s.place (fun r => r) = s
  | .expr value _ | .print value _ | .assert value _ => by
      simp only [Stmt.place, value.place_id]
  | .assertEqual left right _ => by simp only [Stmt.place, left.place_id, right.place_id]
  | .var _ init _ => by simp only [Stmt.place, Name.place, Expr.optionPlace_id]
  | .block body _ => by simp only [Stmt.place, Stmt.placeAll_id body]
  | .cond test thenBranch none _ => by
      simp only [Stmt.place, test.place_id, Stmt.place_id thenBranch]
  | .cond test thenBranch (some elseBranch) _ => by
      simp only [Stmt.place, test.place_id, Stmt.place_id thenBranch, Stmt.place_id elseBranch]
  | .loop test body _ => by simp only [Stmt.place, test.place_id, Stmt.place_id body]
  | .ret _ value _ => by simp only [Stmt.place, Expr.optionPlace_id]
  | .function decl => by simp only [Stmt.place, Function.place_id decl]
  | .classDecl _ superclass methods _ => by
      cases superclass <;>
        simp only [Stmt.place, Name.place, Option.map_none, Option.map_some, Superclass.place,
          Function.placeAll_id methods]

theorem Stmt.placeAll_id : ∀ body : List Stmt, Stmt.placeAll (fun r => r) body = body
  | [] => rfl
  | s :: rest => by simp only [Stmt.placeAll, Stmt.place_id s, Stmt.placeAll_id rest]

theorem Function.place_id : ∀ decl : Function, decl.place (fun r => r) = decl
  | .mk _ _ params body _ => by
      simp only [Function.place, Name.place, Name.allPlace_id, Stmt.placeAll_id body]

theorem Function.placeAll_id : ∀ fs : List Function, Function.placeAll (fun r => r) fs = fs
  | [] => rfl
  | decl :: rest => by
      simp only [Function.placeAll, Function.place_id decl, Function.placeAll_id rest]

end

end LoxMachine
