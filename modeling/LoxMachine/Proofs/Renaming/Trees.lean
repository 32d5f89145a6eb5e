import LoxMachine.Proofs.Renaming.Alike
import Mathlib.Data.List.Perm.Basic

/-!
# Renaming a variable

A variable is renamed in its scope, which is known by its place in the module: the
indices of the statements and methods that lead there, the last first.  The outcome is
like the module it was made from.
-/

namespace LoxMachine

open Scope

/-- What to rename: a variable `old` of the scope at an address becomes `new`. Which nodes
refer to it is a matter of their depths. -/
structure Renaming where
  depths : Depths
  address : List Nat
  old : Bytes
  new : Bytes

namespace Renaming

/-! ## Renamed trees -/

def rename (r : Renaming) (marked : Bool) (name : Name) : Name :=
  if marked = true ∧ name.text = r.old then { name with text := r.new } else name

/-- Whether a node refers to a variable of a marked scope. -/
def leads (r : Renaming) (marks : List Bool) (id : Nat) : Bool :=
  match r.depths.depth? id with
  | some depth => markAt marks depth
  | none => false

mutual

def expr (r : Renaming) (marks : List Bool) : Expr → Expr
  | .literal value span => .literal value span
  | .var id name => .var id (r.rename (r.leads marks id) name)
  | .assign id name value span =>
      .assign id (r.rename (r.leads marks id) name) (r.expr marks value) span
  | .unary op operand span => .unary op (r.expr marks operand) span
  | .binary op left right span => .binary op (r.expr marks left) (r.expr marks right) span
  | .logical op left right span => .logical op (r.expr marks left) (r.expr marks right) span
  | .group inner span => .group (r.expr marks inner) span
  | .call callee args span => .call (r.expr marks callee) (r.exprs marks args) span
  | .get object name span => .get (r.expr marks object) name span
  | .set object name value span => .set (r.expr marks object) name (r.expr marks value) span
  | .this id keyword => .this id keyword
  | .super id thisId keyword method span => .super id thisId keyword method span

def exprs (r : Renaming) (marks : List Bool) : List Expr → List Expr
  | [] => []
  | e :: rest => r.expr marks e :: r.exprs marks rest

end

def parent (r : Renaming) (marks : List Bool) (superclass : Option Superclass) :
    Option Superclass :=
  superclass.map fun parent => ⟨parent.id, r.rename (r.leads marks parent.id) parent.name⟩

/-- The names a statement declares with `var`. -/
def varNames : Stmt → List Bytes
  | .var name _ _ => [name.text]
  | _ => []

/-- Whether the scope at an address, with these variables, is the one. -/
def picks (r : Renaming) (here : List Nat) (names : List Bytes) : Bool :=
  decide (here = r.address ∧ r.old ∈ names)

mutual

def stmt (r : Renaming) (here : List Nat) (marks : List Bool) : Stmt → Stmt
  | .expr value span => .expr (r.expr marks value) span
  | .print value span => .print (r.expr marks value) span
  | .assert value span => .assert (r.expr marks value) span
  | .assertEqual left right span => .assertEqual (r.expr marks left) (r.expr marks right) span
  | .var name init span => .var (r.rename (markAt marks 0) name) (init.map (r.expr marks)) span
  | .block body span =>
      .block (r.body here 0 (r.picks here (body.flatMap varNames) :: marks) body) span
  | .cond test branch none span =>
      .cond (r.expr marks test) (r.stmt (0 :: here) marks branch) none span
  | .cond test branch (some other) span =>
      .cond (r.expr marks test) (r.stmt (0 :: here) marks branch)
        (some (r.stmt (1 :: here) marks other)) span
  | .loop test body span => .loop (r.expr marks test) (r.stmt (0 :: here) marks body) span
  | .ret keyword value span => .ret keyword (value.map (r.expr marks)) span
  | .function decl => .function (r.function here marks decl)
  | .classDecl name superclass methods span =>
      .classDecl name (r.parent marks superclass)
        (r.methods here 0 (methodMarks superclass marks) methods) span

/-- Statements, the first of which is the one with index `i`. -/
def body (r : Renaming) (here : List Nat) (i : Nat) (marks : List Bool) :
    List Stmt → List Stmt
  | [] => []
  | s :: rest => r.stmt (i :: here) marks s :: r.body here (i + 1) marks rest

def function (r : Renaming) (here : List Nat) (marks : List Bool) : Function → Function
  | .mk kind name params body span =>
      let marked := r.picks here (paramNames params ++ body.flatMap varNames)
      .mk kind name (params.map (r.rename marked)) (r.body here 0 (marked :: marks) body) span

def methods (r : Renaming) (here : List Nat) (i : Nat) (marks : List Bool) :
    List Function → List Function
  | [] => []
  | f :: rest => r.function (i :: here) marks f :: r.methods here (i + 1) marks rest

end

/-- The marks at the top of a module. -/
def moduleMarks (r : Renaming) (m : Module) : List Bool :=
  if m.kind.isolated then [r.picks [] (m.body.flatMap varNames)] else []

/-- The module with the variable renamed. -/
def apply (r : Renaming) (m : Module) : Module :=
  { m with body := r.body [] 0 (r.moduleMarks m) m.body }

/-! ## Renamed trees are alike -/

/-- A site at which the variable can be renamed, where `D` has the same depths. -/
def Allows (r : Renaming) (D : Depths) : Site → Prop
  | .read _ id name => D.depth? id = r.depths.depth? id ∧ name ≠ r.new ∧
      (r.depths.depth? id = none → name ≠ r.old)
  | .write _ id name => D.depth? id = r.depths.depth? id ∧ name ≠ r.new ∧
      (r.depths.depth? id = none → name ≠ r.old)
  | .declare name => name ≠ r.new
  | .scope names => names.Nodup
  | .branch s => declared s = []
  | _ => True

variable {r : Renaming} {D : Depths} {marks : List Bool}

theorem text_rename {marked : Bool} {name : Name} (h : name.text ≠ r.new) :
    (r.rename marked name).text = turn r.old r.new marked name.text := by
  unfold rename
  cases marked with
  | false => rfl
  | true =>
      by_cases hold : name.text = r.old
      · rw [if_pos ⟨rfl, hold⟩, hold]
        exact (Equiv.swap_apply_left r.old r.new).symm
      · rw [if_neg fun hand => hold hand.2]
        exact (turn_of_ne hold h).symm

theorem range_rename (marked : Bool) (name : Name) : (r.rename marked name).range = name.range := by
  unfold rename
  split <;> rfl

/-- A renamed reference denotes what it did. -/
theorem denotes_rename {id : Nat} {name : Name} (hD : D.depth? id = r.depths.depth? id)
    (hnew : name.text ≠ r.new) (hold : r.depths.depth? id = none → name.text ≠ r.old) :
    Denotes D r.old r.new marks id name.text (r.rename (r.leads marks id) name).text := by
  rw [text_rename hnew]
  unfold Denotes leads
  rw [hD]
  cases hdepth : r.depths.depth? id with
  | some depth => rfl
  | none => exact ⟨rfl, fun k => turn_of_ne (hold hdepth) hnew⟩

mutual

theorem alike_expr {Γ : List Layer} : ∀ e, (∀ site ∈ exprSites Γ e, r.Allows D site) →
    AlikeExpr D r.old r.new marks e (r.expr marks e)
  | .literal _ _, _ => .literal
  | .var id name, h => by
      obtain ⟨hD, hnew, hold⟩ := h (.read Γ id name.text) List.mem_cons_self
      exact .var (range_rename _ _) (denotes_rename hD hnew hold)
  | .assign id name value _, h => by
      obtain ⟨hD, hnew, hold⟩ := h (.write Γ id name.text)
        (List.mem_append_right _ List.mem_cons_self)
      exact .assign (range_rename _ _) (denotes_rename hD hnew hold)
        (alike_expr value fun site hmem => h site (List.mem_append_left _ hmem))
  | .unary _ operand _, h => .unary (alike_expr operand h)
  | .binary _ left right _, h =>
      .binary (alike_expr left fun site hmem => h site (List.mem_append_left _ hmem))
        (alike_expr right fun site hmem => h site (List.mem_append_right _ hmem))
  | .logical _ left right _, h =>
      .logical (alike_expr left fun site hmem => h site (List.mem_append_left _ hmem))
        (alike_expr right fun site hmem => h site (List.mem_append_right _ hmem))
  | .group inner _, h => .group (alike_expr inner h)
  | .call callee args _, h =>
      .call (alike_expr callee fun site hmem => h site (List.mem_append_left _ hmem))
        (alike_exprs args fun site hmem => h site (List.mem_append_right _ hmem))
  | .get object _ _, h => .get (alike_expr object h)
  | .set object _ value _, h =>
      .set (alike_expr object fun site hmem => h site (List.mem_append_right _ hmem))
        (alike_expr value fun site hmem => h site (List.mem_append_left _ hmem))
  | .this _ _, _ => .this
  | .super _ _ _ _ _, _ => .super

theorem alike_exprs {Γ : List Layer} : ∀ es, (∀ site ∈ argSites Γ es, r.Allows D site) →
    AlikeArgs D r.old r.new marks es (r.exprs marks es)
  | [], _ => .nil
  | e :: rest, h =>
      .cons (alike_expr e fun site hmem => h site (List.mem_append_left _ hmem))
        (alike_exprs rest fun site hmem => h site (List.mem_append_right _ hmem))

end

theorem alike_parent {Γ : List Layer} {superclass : Option Superclass}
    (h : ∀ site ∈ parentSites Γ superclass, r.Allows D site) :
    AlikeParent D r.old r.new marks superclass (r.parent marks superclass) := by
  cases superclass with
  | none => exact .absent
  | some parent =>
      obtain ⟨hD, hnew, hold⟩ := h _ List.mem_cons_self
      exact .present (range_rename _ _) (denotes_rename hD hnew hold)

/-- The names a statement declares otherwise than with `var`. -/
def itemNames : Stmt → List Bytes
  | .function decl => [decl.name.text]
  | .classDecl name _ _ _ => [name.text]
  | _ => []

theorem declared_eq (s : Stmt) : declared s = varNames s ++ itemNames s := by
  cases s <;> rfl

/-- In a scope where no name is declared twice a variable is nothing else. -/
theorem not_mem_itemNames {x : Bytes} {params : List Bytes} {body : List Stmt}
    (h : (params ++ declaredAll body).Nodup) (hx : x ∈ params ++ body.flatMap varNames) :
    x ∉ body.flatMap itemNames := by
  have hperm : (body.flatMap varNames ++ body.flatMap itemNames).Perm (declaredAll body) := by
    rw [declaredAll, funext declared_eq]
    exact List.flatMap_append_perm body varNames itemNames
  have hnodup := (hperm.append_left params).nodup_iff.mpr h
  rw [← List.append_assoc] at hnodup
  exact fun hmem => (List.nodup_append.mp hnodup).2.2 x hx x hmem rfl

theorem itemNames_of_declared {s : Stmt} (h : declared s = []) (x : Bytes) :
    x ∉ itemNames s := by
  rw [declared_eq] at h
  rw [(List.append_eq_nil_iff.mp h).2]
  exact List.not_mem_nil

/-- A name that is no variable of a marked scope stays as it is. -/
theorem turn_item {marked : Bool} {name : Bytes} (hitem : marked = true → r.old ≠ name)
    (hnew : name ≠ r.new) : turn r.old r.new marked name = name := by
  cases marked with
  | false => rfl
  | true => exact turn_of_ne (Ne.symm (hitem rfl)) hnew

mutual

theorem alike_stmt : ∀ (s : Stmt) {here : List Nat} {marks : List Bool} {Γ : List Layer},
    (∀ site ∈ stmtSites Γ s, r.Allows D site) →
    (markAt marks 0 = true → r.old ∉ itemNames s) →
    AlikeStmt D r.old r.new marks s (r.stmt here marks s)
  | .expr value _, _, _, _, h, _ => .expr (alike_expr value h)
  | .print value _, _, _, _, h, _ => .print (alike_expr value h)
  | .assert value _, _, _, _, h, _ => .assert (alike_expr value h)
  | .assertEqual left right _, _, _, _, h, _ =>
      .assertEqual (alike_expr left fun site hmem => h site (List.mem_append_left _ hmem))
        (alike_expr right fun site hmem => h site (List.mem_append_right _ hmem))
  | .var _ none _, _, _, _, h, _ =>
      .var (text_rename (h _ List.mem_cons_self))
  | .var _ (some init) _, _, _, _, h, _ =>
      .init (text_rename (h _ List.mem_cons_self))
        (alike_expr init fun site hmem => h site (List.mem_cons_of_mem _ hmem))
  | .block body _, here, marks, _, h, _ => by
      have hnodup : ([] ++ declaredAll body).Nodup := h _ List.mem_cons_self
      exact .block _ (alike_body body (fun site hmem => h site (List.mem_cons_of_mem _ hmem))
        fun hpicks => not_mem_itemNames hnodup (of_decide_eq_true hpicks).2)
  | .cond test branch none _, _, _, _, h, _ => by
      have hnone : declared branch = [] := h (.branch branch) List.mem_cons_self
      replace h := fun site hmem => h site (List.mem_cons_of_mem _ hmem)
      exact .cond (alike_expr test fun site hmem => h site (List.mem_append_left _ hmem))
        (alike_stmt branch (fun site hmem => h site (List.mem_append_right _ hmem))
          fun _ => itemNames_of_declared hnone _)
  | .cond test branch (some other) _, _, _, _, h, _ => by
      have hnone : declared branch = [] := h (.branch branch) List.mem_cons_self
      replace h := fun site hmem => h site (List.mem_cons_of_mem _ hmem)
      have hnone' : declared other = [] := h (.branch other) List.mem_cons_self
      replace h := fun site hmem => h site (List.mem_cons_of_mem _ hmem)
      have hbranches := fun site hmem => h site (List.mem_append_right _ hmem)
      exact .choice (alike_expr test fun site hmem => h site (List.mem_append_left _ hmem))
        (alike_stmt branch (fun site hmem => hbranches site (List.mem_append_left _ hmem))
          fun _ => itemNames_of_declared hnone _)
        (alike_stmt other (fun site hmem => hbranches site (List.mem_append_right _ hmem))
          fun _ => itemNames_of_declared hnone' _)
  | .loop test body _, _, _, _, h, _ => by
      have hnone : declared body = [] := h (.branch body) List.mem_cons_self
      replace h := fun site hmem => h site (List.mem_cons_of_mem _ hmem)
      exact .loop (alike_expr test fun site hmem => h site (List.mem_append_left _ hmem))
        (alike_stmt body (fun site hmem => h site (List.mem_append_right _ hmem))
          fun _ => itemNames_of_declared hnone _)
  | .ret _ none _, _, _, _, _, _ => .ret
  | .ret _ (some value) _, _, _, _, h, _ => .giveBack (alike_expr value h)
  | .function decl, _, _, _, h, hitems =>
      .function (turn_item (fun hmark heq => hitems hmark (heq ▸ List.mem_cons_self))
          (h _ List.mem_cons_self))
        (alike_function decl fun site hmem =>
          h site (List.mem_cons_of_mem _ (List.mem_cons_of_mem _ hmem)))
  | .classDecl name superclass methods _, _, _, _, h, hitems =>
      .classDecl (turn_item (fun hmark heq => hitems hmark (heq ▸ List.mem_cons_self))
          (h _ List.mem_cons_self))
        (alike_parent fun site hmem =>
          h site (List.mem_cons_of_mem _ (List.mem_append_left _ hmem)))
        (alike_methods methods fun site hmem =>
          h site (List.mem_cons_of_mem _ (List.mem_append_right _ hmem)))

theorem alike_body : ∀ (body : List Stmt) {here : List Nat} {i : Nat} {marks : List Bool}
    {Γ : List Layer}, (∀ site ∈ bodySites Γ body, r.Allows D site) →
    (markAt marks 0 = true → r.old ∉ body.flatMap itemNames) →
    AlikeBody D r.old r.new marks body (r.body here i marks body)
  | [], _, _, _, _, _, _ => .nil
  | s :: rest, _, _, _, _, h, hitems =>
      .cons (alike_stmt s (fun site hmem => h site (List.mem_append_left _ hmem))
          fun hmark hmem => hitems hmark (List.mem_append_left _ hmem))
        (alike_body rest (fun site hmem => h site (List.mem_append_right _ hmem))
          fun hmark hmem => hitems hmark (List.mem_append_right _ hmem))

theorem alike_function : ∀ (f : Function) {here : List Nat} {marks : List Bool}
    {Γ : List Layer}, (∀ site ∈ functionSites Γ f, r.Allows D site) →
    AlikeFunction D r.old r.new marks f (r.function here marks f)
  | .mk _ _ params body _, here, marks, _, h => by
      have hnodup : (paramNames params ++ declaredAll body).Nodup := h _ List.mem_cons_self
      replace h := fun site hmem => h site (List.mem_cons_of_mem _ hmem)
      refine .mk _ ?_ (alike_body body (fun site hmem => h site (List.mem_append_right _ hmem))
        fun hpicks => not_mem_itemNames hnodup (of_decide_eq_true hpicks).2)
      rw [List.map_map]
      refine List.map_congr_left fun p hp => text_rename ?_
      exact h (.declare p.text) (List.mem_append_left _
        (List.mem_map_of_mem (List.mem_map_of_mem hp)))

theorem alike_methods : ∀ (fs : List Function) {here : List Nat} {i : Nat} {marks : List Bool}
    {Γ : List Layer}, (∀ site ∈ methodSites Γ fs, r.Allows D site) →
    AlikeMethods D r.old r.new marks fs (r.methods here i marks fs)
  | [], _, _, _, _, _ => .nil
  | f :: rest, _, _, _, _, h =>
      .cons (alike_function f fun site hmem => h site (List.mem_append_left _ hmem))
        (alike_methods rest fun site hmem => h site (List.mem_append_right _ hmem))

end

/-- The top of a module and the top of the renamed one. -/
theorem alike_module {m : Module} (h : ∀ site ∈ moduleSites m, r.Allows D site) :
    AlikeBody D r.old r.new (r.moduleMarks m) m.body (r.apply m).body := by
  refine alike_body m.body (fun site hmem => h site (List.mem_append_right _ hmem)) ?_
  unfold moduleMarks
  split
  next hkind =>
    intro hpicks
    have hnodup : ([] ++ declaredAll m.body).Nodup := by
      refine h (.scope (declaredAll m.body)) (List.mem_append_left _ ?_)
      rw [if_pos hkind]
      exact List.mem_cons_self
    exact not_mem_itemNames hnodup (of_decide_eq_true hpicks).2
  next => nofun

end Renaming

end LoxMachine
