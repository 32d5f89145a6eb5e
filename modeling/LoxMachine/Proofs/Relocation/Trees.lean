import LoxMachine.Proofs.Scope.Sites
import LoxMachine.Tree.Printer

/-!
# Trees with other node numbers

Numbers that come after a gap are moved up by its width.  A tree whose nodes are
numbered anew is the same in all else: it has the same spans and the same text, and it
is the same tree if none of its own numbers has changed.
-/

namespace LoxMachine

open Scope

/-- Some numbers that are left out: from `start` on, numbers are moved up by `width`. -/
structure Gap where
  start : Nat
  width : Nat

namespace Gap

variable {g : Gap} {i j : Nat}

def move (g : Gap) (i : Nat) : Nat :=
  if i < g.start then i else i + g.width

theorem move_of_lt (h : i < g.start) : g.move i = i :=
  if_pos h

theorem move_of_le (h : g.start ≤ i) : g.move i = i + g.width :=
  if_neg (Nat.not_lt_of_le h)

theorem le_move (g : Gap) (i : Nat) : i ≤ g.move i := by
  unfold move
  split <;> omega

@[simp] theorem move_inj : g.move i = g.move j ↔ i = j := by
  unfold move
  split <;> split <;> omega

theorem move_lt_move (h : i < j) : g.move i < g.move j := by
  unfold move
  split <;> split <;> omega

/-- Every number outside the gap is a moved one. -/
theorem exists_move (h : ¬ (g.start ≤ i ∧ i < g.start + g.width)) : ∃ j, i = g.move j := by
  by_cases hlt : i < g.start
  · exact ⟨i, (move_of_lt hlt).symm⟩
  · refine ⟨i - g.width, ?_⟩
    rw [move_of_le (by omega)]
    omega

/-- No moved number is in the gap. -/
theorem move_ne (hle : g.start ≤ j) (hlt : j < g.start + g.width) : g.move i ≠ j := by
  unfold move
  split <;> omega

end Gap

/-! ## Numbering trees anew -/

mutual

def Expr.renumber (f : Nat → Nat) : Expr → Expr
  | .literal value span => .literal value span
  | .var id name => .var (f id) name
  | .assign id name value span => .assign (f id) name (value.renumber f) span
  | .unary op operand span => .unary op (operand.renumber f) span
  | .binary op left right span => .binary op (left.renumber f) (right.renumber f) span
  | .logical op left right span => .logical op (left.renumber f) (right.renumber f) span
  | .group inner span => .group (inner.renumber f) span
  | .call callee args span => .call (callee.renumber f) (Expr.renumberAll f args) span
  | .get object name span => .get (object.renumber f) name span
  | .set object name value span => .set (object.renumber f) name (value.renumber f) span
  | .this id keyword => .this (f id) keyword
  | .super id thisId keyword method span => .super (f id) (f thisId) keyword method span

def Expr.renumberAll (f : Nat → Nat) : List Expr → List Expr
  | [] => []
  | e :: rest => e.renumber f :: Expr.renumberAll f rest

end

def Superclass.renumber (f : Nat → Nat) (parent : Superclass) : Superclass :=
  ⟨f parent.id, parent.name⟩

mutual

def Stmt.renumber (f : Nat → Nat) : Stmt → Stmt
  | .expr value span => .expr (value.renumber f) span
  | .print value span => .print (value.renumber f) span
  | .assert value span => .assert (value.renumber f) span
  | .assertEqual left right span => .assertEqual (left.renumber f) (right.renumber f) span
  | .var name init span => .var name (init.map fun e => e.renumber f) span
  | .block body span => .block (Stmt.renumberAll f body) span
  | .cond test thenBranch none span =>
      .cond (test.renumber f) (thenBranch.renumber f) none span
  | .cond test thenBranch (some elseBranch) span =>
      .cond (test.renumber f) (thenBranch.renumber f) (some (elseBranch.renumber f)) span
  | .loop test body span => .loop (test.renumber f) (body.renumber f) span
  | .ret keyword value span => .ret keyword (value.map fun e => e.renumber f) span
  | .function decl => .function (decl.renumber f)
  | .classDecl name superclass methods span =>
      .classDecl name (superclass.map (Superclass.renumber f)) (Function.renumberAll f methods)
        span

def Stmt.renumberAll (f : Nat → Nat) : List Stmt → List Stmt
  | [] => []
  | s :: rest => s.renumber f :: Stmt.renumberAll f rest

def Function.renumber (f : Nat → Nat) : Function → Function
  | .mk kind name params body span => .mk kind name params (Stmt.renumberAll f body) span

def Function.renumberAll (f : Nat → Nat) : List Function → List Function
  | [] => []
  | decl :: rest => decl.renumber f :: Function.renumberAll f rest

end

def Module.renumber (f : Nat → Nat) (m : Module) : Module :=
  { m with body := Stmt.renumberAll f m.body }

variable {f : Nat → Nat}

theorem Expr.renumberAll_eq_map (f : Nat → Nat) (es : List Expr) :
    Expr.renumberAll f es = es.map fun e => e.renumber f := by
  induction es with
  | nil => rfl
  | cons e es ih => rw [Expr.renumberAll, ih, List.map_cons]

theorem Stmt.renumberAll_eq_map (f : Nat → Nat) (body : List Stmt) :
    Stmt.renumberAll f body = body.map fun s => s.renumber f := by
  induction body with
  | nil => rfl
  | cons s body ih => rw [Stmt.renumberAll, ih, List.map_cons]

theorem Function.renumberAll_eq_map (f : Nat → Nat) (fs : List Function) :
    Function.renumberAll f fs = fs.map fun decl => decl.renumber f := by
  induction fs with
  | nil => rfl
  | cons decl fs ih => rw [Function.renumberAll, ih, List.map_cons]

/-! ## What stays -/

@[simp] theorem Expr.span_renumber (e : Expr) : (e.renumber f).span = e.span := by
  cases e <;> rfl

@[simp] theorem Function.kind_renumber (decl : Function) :
    (decl.renumber f).kind = decl.kind := by
  cases decl
  rfl

@[simp] theorem Function.name_renumber (decl : Function) :
    (decl.renumber f).name = decl.name := by
  cases decl
  rfl

@[simp] theorem Function.params_renumber (decl : Function) :
    (decl.renumber f).params = decl.params := by
  cases decl
  rfl

@[simp] theorem Function.body_renumber (decl : Function) :
    (decl.renumber f).body = Stmt.renumberAll f decl.body := by
  cases decl
  rfl

@[simp] theorem Stmt.span_renumber (s : Stmt) : (s.renumber f).span = s.span := by
  cases s with
  | cond test thenBranch elseBranch span => cases elseBranch <;> rfl
  | function decl =>
      cases decl
      rfl
  | _ => rfl

mutual

/-- The text of a tree does not show its numbers. -/
theorem Expr.onto_renumber (f : Nat → Nat) :
    ∀ (e : Expr) (rest : Bytes), (e.renumber f).onto rest = e.onto rest
  | .literal _ _, _ | .var _ _, _ | .this _ _, _ | .super _ _ _ _ _, _ => rfl
  | .assign _ _ value _, _ => by simp only [Expr.renumber, Expr.onto, onto_renumber f value]
  | .unary _ operand _, _ => by simp only [Expr.renumber, Expr.onto, onto_renumber f operand]
  | .binary _ left right _, _ | .logical _ left right _, _ | .set left _ right _, _ => by
      simp only [Expr.renumber, Expr.onto, onto_renumber f left, onto_renumber f right]
  | .group inner _, _ => by simp only [Expr.renumber, Expr.onto, onto_renumber f inner]
  | .call callee args _, _ => by
      simp only [Expr.renumber, Expr.onto, onto_renumber f callee, allOnto_renumberAll f args]
  | .get object _ _, _ => by simp only [Expr.renumber, Expr.onto, onto_renumber f object]

theorem Expr.allOnto_renumberAll (f : Nat → Nat) :
    ∀ (es : List Expr) (rest : Bytes), Expr.allOnto (Expr.renumberAll f es) rest =
      Expr.allOnto es rest
  | [], _ => rfl
  | e :: more, _ => by
      simp only [Expr.renumberAll, Expr.allOnto, onto_renumber f e, allOnto_renumberAll f more]

end

theorem Expr.optionOnto_renumber (f : Nat → Nat) (e : Option Expr) (rest : Bytes) :
    Expr.optionOnto (e.map fun e => e.renumber f) rest = Expr.optionOnto e rest := by
  cases e with
  | none => rfl
  | some e => simp only [Option.map_some, Expr.optionOnto, e.onto_renumber f]

theorem Superclass.optionOnto_renumber (f : Nat → Nat) (parent : Option Superclass)
    (rest : Bytes) :
    Superclass.optionOnto (parent.map (Superclass.renumber f)) rest =
      Superclass.optionOnto parent rest := by
  cases parent <;> rfl

mutual

theorem Stmt.onto_renumber (f : Nat → Nat) :
    ∀ (s : Stmt) (rest : Bytes), (s.renumber f).onto rest = s.onto rest
  | .expr value _, _ | .print value _, _ | .assert value _, _ => by
      simp only [Stmt.renumber, Stmt.onto, value.onto_renumber f]
  | .assertEqual left right _, _ => by
      simp only [Stmt.renumber, Stmt.onto, left.onto_renumber f, right.onto_renumber f]
  | .var _ init _, _ => by simp only [Stmt.renumber, Stmt.onto, Expr.optionOnto_renumber]
  | .block body _, _ => by simp only [Stmt.renumber, Stmt.onto, Stmt.allOnto_renumberAll f body]
  | .cond test thenBranch none _, _ => by
      simp only [Stmt.renumber, Stmt.onto, test.onto_renumber f, Stmt.onto_renumber f thenBranch]
  | .cond test thenBranch (some elseBranch) _, _ => by
      simp only [Stmt.renumber, Stmt.onto, test.onto_renumber f, Stmt.onto_renumber f thenBranch,
        Stmt.onto_renumber f elseBranch]
  | .loop test body _, _ => by
      simp only [Stmt.renumber, Stmt.onto, test.onto_renumber f, Stmt.onto_renumber f body]
  | .ret _ value _, _ => by simp only [Stmt.renumber, Stmt.onto, Expr.optionOnto_renumber]
  | .function decl, _ => by simp only [Stmt.renumber, Stmt.onto, Function.onto_renumber f decl]
  | .classDecl _ superclass methods _, _ => by
      simp only [Stmt.renumber, Stmt.onto, Superclass.optionOnto_renumber,
        Function.allOnto_renumberAll f methods]

theorem Stmt.allOnto_renumberAll (f : Nat → Nat) :
    ∀ (body : List Stmt) (rest : Bytes), Stmt.allOnto (Stmt.renumberAll f body) rest =
      Stmt.allOnto body rest
  | [], _ => rfl
  | s :: more, _ => by
      simp only [Stmt.renumberAll, Stmt.allOnto, Stmt.onto_renumber f s,
        Stmt.allOnto_renumberAll f more]

theorem Function.onto_renumber (f : Nat → Nat) :
    ∀ (decl : Function) (rest : Bytes), (decl.renumber f).onto rest = decl.onto rest
  | .mk _ _ _ body _, _ => by
      simp only [Function.renumber, Function.onto, Stmt.allOnto_renumberAll f body]

theorem Function.allOnto_renumberAll (f : Nat → Nat) :
    ∀ (fs : List Function) (rest : Bytes), Function.allOnto (Function.renumberAll f fs) rest =
      Function.allOnto fs rest
  | [], _ => rfl
  | decl :: more, _ => by
      simp only [Function.renumberAll, Function.allOnto, Function.onto_renumber f decl,
        Function.allOnto_renumberAll f more]

end

theorem Module.dump_renumber (f : Nat → Nat) (m : Module) : (m.renumber f).dump = m.dump := by
  unfold Module.dump Module.renumber
  rw [Stmt.renumberAll_eq_map, List.map_map]
  congr 1
  exact List.map_congr_left fun s _ => s.onto_renumber f []

/-! ## Trees whose numbers do not move -/

mutual

theorem Expr.renumber_eq_self {Γ : List Layer} :
    ∀ (e : Expr), (∀ id ∈ siteIds (exprSites Γ e), f id = id) → e.renumber f = e
  | .literal _ _, _ => rfl
  | .var id _, h => by rw [Expr.renumber, h id (by simp [exprSites, Site.ids])]
  | .assign id _ value _, h => by
      rw [exprSites, siteIds_append, List.forall_mem_append] at h
      rw [Expr.renumber, h.2 id (by simp [Site.ids]), renumber_eq_self value h.1]
  | .unary _ operand _, h => by rw [Expr.renumber, renumber_eq_self operand h]
  | .binary _ left right _, h | .logical _ left right _, h => by
      rw [exprSites, siteIds_append, List.forall_mem_append] at h
      rw [Expr.renumber, renumber_eq_self left h.1, renumber_eq_self right h.2]
  | .group inner _, h => by rw [Expr.renumber, renumber_eq_self inner h]
  | .call callee args _, h => by
      rw [exprSites, siteIds_append, List.forall_mem_append] at h
      rw [Expr.renumber, renumber_eq_self callee h.1, renumberAll_eq_self args h.2]
  | .get object _ _, h => by rw [Expr.renumber, renumber_eq_self object h]
  | .set object _ value _, h => by
      rw [exprSites, siteIds_append, List.forall_mem_append] at h
      rw [Expr.renumber, renumber_eq_self object h.2, renumber_eq_self value h.1]
  | .this id _, h => by rw [Expr.renumber, h id (by simp [exprSites, Site.ids])]
  | .super id thisId _ _ _, h => by
      rw [Expr.renumber, h id (by simp [exprSites, Site.ids]),
        h thisId (by simp [exprSites, Site.ids])]

theorem Expr.renumberAll_eq_self {Γ : List Layer} :
    ∀ (es : List Expr), (∀ id ∈ siteIds (argSites Γ es), f id = id) →
      Expr.renumberAll f es = es
  | [], _ => rfl
  | e :: rest, h => by
      rw [argSites, siteIds_append, List.forall_mem_append] at h
      rw [Expr.renumberAll, renumber_eq_self e h.1, renumberAll_eq_self rest h.2]

end

theorem Expr.map_renumber_eq_self {Γ : List Layer} {e : Option Expr}
    (h : ∀ id ∈ siteIds (optionSites Γ e), f id = id) : (e.map fun e => e.renumber f) = e := by
  cases e with
  | none => rfl
  | some e => rw [Option.map_some, e.renumber_eq_self h]

theorem Superclass.map_renumber_eq_self {Γ : List Layer} {parent : Option Superclass}
    (h : ∀ id ∈ siteIds (parentSites Γ parent), f id = id) :
    parent.map (Superclass.renumber f) = parent := by
  cases parent with
  | none => rfl
  | some parent =>
      rw [Option.map_some, Superclass.renumber, h parent.id (by simp [parentSites, Site.ids])]

mutual

theorem Stmt.renumber_eq_self :
    ∀ (s : Stmt) {Γ : List Layer}, (∀ id ∈ siteIds (stmtSites Γ s), f id = id) → s.renumber f = s
  | .expr value _, _, h | .print value _, _, h | .assert value _, _, h => by
      rw [Stmt.renumber, value.renumber_eq_self h]
  | .assertEqual left right _, _, h => by
      rw [stmtSites, siteIds_append, List.forall_mem_append] at h
      rw [Stmt.renumber, left.renumber_eq_self h.1, right.renumber_eq_self h.2]
  | .var _ init _, _, h => by
      simp only [stmtSites, siteIds_cons, Site.ids, List.nil_append] at h
      rw [Stmt.renumber, Expr.map_renumber_eq_self h]
  | .block body _, _, h => by
      simp only [stmtSites, siteIds_cons, Site.ids, List.nil_append] at h
      rw [Stmt.renumber, Stmt.renumberAll_eq_self body h]
  | .cond test thenBranch none _, _, h => by
      simp only [stmtSites, siteIds_cons, siteIds_append, Site.ids, List.nil_append,
        List.forall_mem_append] at h
      rw [Stmt.renumber, test.renumber_eq_self h.1, Stmt.renumber_eq_self thenBranch h.2]
  | .cond test thenBranch (some elseBranch) _, _, h => by
      simp only [stmtSites, siteIds_cons, siteIds_append, Site.ids, List.nil_append,
        List.forall_mem_append] at h
      rw [Stmt.renumber, test.renumber_eq_self h.1, Stmt.renumber_eq_self thenBranch h.2.1,
        Stmt.renumber_eq_self elseBranch h.2.2]
  | .loop test body _, _, h => by
      simp only [stmtSites, siteIds_cons, siteIds_append, Site.ids, List.nil_append,
        List.forall_mem_append] at h
      rw [Stmt.renumber, test.renumber_eq_self h.1, Stmt.renumber_eq_self body h.2]
  | .ret _ value _, _, h => by rw [Stmt.renumber, Expr.map_renumber_eq_self h]
  | .function decl, _, h => by
      simp only [stmtSites, siteIds_cons, Site.ids, List.nil_append] at h
      rw [Stmt.renumber, Function.renumber_eq_self decl h]
  | .classDecl _ superclass methods _, _, h => by
      simp only [stmtSites, siteIds_cons, siteIds_append, Site.ids, List.nil_append,
        List.forall_mem_append] at h
      rw [Stmt.renumber, Superclass.map_renumber_eq_self h.1,
        Function.renumberAll_eq_self methods h.2]

theorem Stmt.renumberAll_eq_self :
    ∀ (body : List Stmt) {Γ : List Layer}, (∀ id ∈ siteIds (bodySites Γ body), f id = id) →
      Stmt.renumberAll f body = body
  | [], _, _ => rfl
  | s :: rest, _, h => by
      rw [bodySites, siteIds_append, List.forall_mem_append] at h
      rw [Stmt.renumberAll, Stmt.renumber_eq_self s h.1, Stmt.renumberAll_eq_self rest h.2]

theorem Function.renumber_eq_self :
    ∀ (decl : Function) {Γ : List Layer}, (∀ id ∈ siteIds (functionSites Γ decl), f id = id) →
      decl.renumber f = decl
  | .mk _ _ _ body _, _, h => by
      simp only [functionSites, siteIds_cons, siteIds_append, Site.ids, List.nil_append,
        List.forall_mem_append] at h
      rw [Function.renumber, Stmt.renumberAll_eq_self body h.2]

theorem Function.renumberAll_eq_self :
    ∀ (fs : List Function) {Γ : List Layer}, (∀ id ∈ siteIds (methodSites Γ fs), f id = id) →
      Function.renumberAll f fs = fs
  | [], _, _ => rfl
  | decl :: rest, _, h => by
      rw [methodSites, siteIds_append, List.forall_mem_append] at h
      rw [Function.renumberAll, Function.renumber_eq_self decl h.1,
        Function.renumberAll_eq_self rest h.2]

end

end LoxMachine
