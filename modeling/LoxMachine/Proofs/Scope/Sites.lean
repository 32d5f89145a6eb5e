import LoxMachine.Scope
import Mathlib.Tactic.Common

/-!
# Sites

The places of a tree that its meaning hangs on: references, declarations, scopes and
branches, each with the scopes that are open there.  A site is settled if the depths
recorded for it are right and nothing is declared where it must not be.
-/

namespace LoxMachine.Scope

/-! ## Layers -/

/-- What a scope belongs to. -/
inductive Region where
  | module
  | block
  | function
  | superclass
  | receiver
  deriving DecidableEq

/-- A scope at some place: what it belongs to, its names so far, with whether they can
be used, and all the names it ever gets. -/
structure Layer where
  region : Region
  names : Bindings Bool
  declares : List Bytes

/-- The names of layers, as the pass over a module keeps them. -/
def names (Γ : List Layer) : List (Bindings Bool) :=
  Γ.map Layer.names

/-- Sets whether `name` can be used in the innermost layer. -/
def mark (name : Bytes) (usable : Bool) : List Layer → List Layer
  | [] => []
  | layer :: Γ => { layer with names := layer.names.set name usable } :: Γ

/-- Declares a name in the innermost layer and makes it usable. -/
def bind (name : Bytes) (Γ : List Layer) : List Layer :=
  mark name true (mark name false Γ)

def bindAll (ns : List Bytes) (Γ : List Layer) : List Layer :=
  ns.foldl (fun Γ name => bind name Γ) Γ

/-- The layer that holds `this`. -/
def receiverLayer : Layer :=
  ⟨.receiver, Bindings.empty.set (utf8 "this") true, [utf8 "this"]⟩

/-- The layer that holds `super`. -/
def superclassLayer : Layer :=
  ⟨.superclass, Bindings.empty.set (utf8 "super") true, [utf8 "super"]⟩

/-- The layers in which the methods of a class are declared. -/
def outerLayers (superclass : Option Superclass) (Γ : List Layer) : List Layer :=
  match superclass with
  | none => Γ
  | some _ => superclassLayer :: Γ

/-! ## Declared names -/

/-- The names a statement adds to the scope it stands in. -/
def declared : Stmt → List Bytes
  | .var name _ _ => [name.text]
  | .function decl => [decl.name.text]
  | .classDecl name _ _ _ => [name.text]
  | _ => []

def declaredAll (body : List Stmt) : List Bytes :=
  body.flatMap declared

def paramNames (params : List Name) : List Bytes :=
  params.map Name.text

/-- An empty layer for the statements of a block. -/
def blockLayer (body : List Stmt) : Layer :=
  ⟨.block, Bindings.empty, declaredAll body⟩

/-- The layers of the body of a function. -/
def bodyLayers (params : List Name) (body : List Stmt) (Γ : List Layer) : List Layer :=
  bindAll (paramNames params)
    (⟨.function, Bindings.empty, paramNames params ++ declaredAll body⟩ :: Γ)

/-- The layers at the top of a module. -/
def moduleLayers (m : Module) : List Layer :=
  if m.kind.isolated then [⟨.module, Bindings.empty, declaredAll m.body⟩] else []

/-! ## Sites -/

/-- A place of a tree. References come with the layers they are made in. -/
inductive Site where
  | read (Γ : List Layer) (id : Nat) (name : Bytes)
  | write (Γ : List Layer) (id : Nat) (name : Bytes)
  | this (Γ : List Layer) (id : Nat)
  | super (Γ : List Layer) (id thisId : Nat)
  | declare (name : Bytes)
  | scope (names : List Bytes)
  | branch (s : Stmt)
  | function (f : Function)

mutual

def exprSites (Γ : List Layer) : Expr → List Site
  | .literal _ _ => []
  | .var id name => [.read Γ id name.text]
  | .assign id name value _ => exprSites Γ value ++ [.write Γ id name.text]
  | .unary _ operand _ => exprSites Γ operand
  | .binary _ left right _ => exprSites Γ left ++ exprSites Γ right
  | .logical _ left right _ => exprSites Γ left ++ exprSites Γ right
  | .group inner _ => exprSites Γ inner
  | .call callee args _ => exprSites Γ callee ++ argSites Γ args
  | .get object _ _ => exprSites Γ object
  | .set object _ value _ => exprSites Γ value ++ exprSites Γ object
  | .this id _ => [.this Γ id]
  | .super id thisId _ _ _ => [.super Γ id thisId]

def argSites (Γ : List Layer) : List Expr → List Site
  | [] => []
  | e :: rest => exprSites Γ e ++ argSites Γ rest

end

def optionSites (Γ : List Layer) : Option Expr → List Site
  | none => []
  | some e => exprSites Γ e

/-- The reference to a superclass, if there is one. -/
def parentSites (Γ : List Layer) : Option Superclass → List Site
  | none => []
  | some parent => [.read Γ parent.id parent.name.text]

mutual

def stmtSites (Γ : List Layer) : Stmt → List Site
  | .expr value _ => exprSites Γ value
  | .print value _ => exprSites Γ value
  | .assert value _ => exprSites Γ value
  | .assertEqual left right _ => exprSites Γ left ++ exprSites Γ right
  | .var name init _ => .declare name.text :: optionSites (mark name.text false Γ) init
  | .block body _ => .scope (declaredAll body) :: bodySites (blockLayer body :: Γ) body
  | .cond test thenBranch none _ =>
      .branch thenBranch :: (exprSites Γ test ++ stmtSites Γ thenBranch)
  | .cond test thenBranch (some elseBranch) _ =>
      .branch thenBranch :: .branch elseBranch ::
        (exprSites Γ test ++ (stmtSites Γ thenBranch ++ stmtSites Γ elseBranch))
  | .loop test body _ => .branch body :: (exprSites Γ test ++ stmtSites Γ body)
  | .ret _ value _ => optionSites Γ value
  | .function decl =>
      .declare decl.name.text :: .function decl :: functionSites (bind decl.name.text Γ) decl
  | .classDecl name superclass methods _ =>
      .declare name.text :: (parentSites (bind name.text Γ) superclass ++
        methodSites (receiverLayer :: outerLayers superclass (bind name.text Γ)) methods)

def bodySites (Γ : List Layer) : List Stmt → List Site
  | [] => []
  | s :: rest => stmtSites Γ s ++ bodySites (bindAll (declared s) Γ) rest

def functionSites (Γ : List Layer) : Function → List Site
  | .mk _ _ params body _ =>
      .scope (paramNames params ++ declaredAll body) ::
        ((paramNames params).map Site.declare ++ bodySites (bodyLayers params body Γ) body)

def methodSites (Γ : List Layer) : List Function → List Site
  | [] => []
  | f :: rest => functionSites Γ f ++ methodSites Γ rest

end

/-- The sites of a module. -/
def moduleSites (m : Module) : List Site :=
  (if m.kind.isolated then [.scope (declaredAll m.body)] else []) ++
    bodySites (moduleLayers m) m.body

/-! ## Settled sites -/

namespace Site

/-- The numbers of the nodes at a site. -/
def ids : Site → List Nat
  | .read _ id _ => [id]
  | .write _ id _ => [id]
  | .this _ id => [id]
  | .super _ id thisId => [id, thisId]
  | _ => []

/-- The name declared at a site, if it is a declaration. -/
def declaredNames : Site → List Bytes
  | .declare name => [name]
  | _ => []

end Site

/-- A name that a program can declare. -/
def Plain (name : Bytes) : Prop :=
  name ≠ utf8 "this" ∧ name ≠ utf8 "super"

instance (name : Bytes) : Decidable (Plain name) :=
  inferInstanceAs (Decidable (_ ∧ _))

/-- The node leads to a layer of that region, in which `name` can be used. -/
def Leads (D : Depths) (Γ : List Layer) (id : Nat) (name : Bytes) (region : Region) : Prop :=
  ∃ depth layer, D.depth? id = some depth ∧ Γ[depth]? = some layer ∧
    layer.names.get? name = some true ∧ layer.region = region

/-- The place is in a method of a subclass, `depth` layers inside that of its receiver,
and the layers in between belong to that method. -/
structure InMethod (Γ : List Layer) (depth : Nat) : Prop where
  inner : ∀ k < depth, ∀ layer, Γ[k]? = some layer → utf8 "this" ∉ layer.declares ∧
    layer.region ≠ .receiver ∧ layer.region ≠ .superclass
  receiver : ∃ layer, Γ[depth]? = some layer ∧ layer.names.get? (utf8 "this") = some true ∧
    layer.region = .receiver
  superclass : ∃ layer, Γ[depth + 1]? = some layer ∧
    layer.names.get? (utf8 "super") = some true ∧ layer.region = .superclass

/-- What has to hold at a site for the module to run. -/
def Site.Settled (D : Depths) : Site → Prop
  | .read Γ id name => D.depth? id = lookup name (names Γ) ∧ Plain name
  | .write Γ id name => D.depth? id = lookup name (names Γ) ∧ Plain name
  | .this Γ id => Leads D Γ id (utf8 "this") .receiver
  | .super Γ id thisId => ∃ depth, InMethod Γ depth ∧ D.depth? thisId = some depth ∧
      D.depth? id = some (depth + 1)
  | .declare name => Plain name
  | .scope ns => ns.Nodup
  | .branch s => declared s = []
  | .function f => f.kind ≠ .initializer

/-- What the grammar alone gives of that. -/
def Site.Proper : Site → Prop
  | .read _ _ name => Plain name
  | .write _ _ name => Plain name
  | .declare name => Plain name
  | .branch s => declared s = []
  | .function f => f.kind ≠ .initializer
  | _ => True

/-- The numbers of all nodes at some sites. -/
def siteIds (sites : List Site) : List Nat :=
  sites.flatMap Site.ids

@[simp] theorem siteIds_nil : siteIds [] = [] := rfl

@[simp] theorem siteIds_cons (site : Site) (sites : List Site) :
    siteIds (site :: sites) = site.ids ++ siteIds sites := List.flatMap_cons

@[simp] theorem siteIds_append (a b : List Site) :
    siteIds (a ++ b) = siteIds a ++ siteIds b := List.flatMap_append

/-- A site looks at the depths of its own nodes only. -/
theorem Site.Settled.congr {D D' : Depths} {site : Site} (h : site.Settled D)
    (heq : ∀ id ∈ site.ids, D'.depth? id = D.depth? id) : site.Settled D' := by
  cases site with
  | read Γ id name => exact ⟨(heq id (by simp [ids])).trans h.1, h.2⟩
  | write Γ id name => exact ⟨(heq id (by simp [ids])).trans h.1, h.2⟩
  | this Γ id =>
      obtain ⟨depth, layer, hdepth, hlayer⟩ := h
      exact ⟨depth, layer, (heq id (by simp [ids])).trans hdepth, hlayer⟩
  | super Γ id thisId =>
      obtain ⟨depth, hmethod, hthis, hsuper⟩ := h
      exact ⟨depth, hmethod, (heq thisId (by simp [ids])).trans hthis,
        (heq id (by simp [ids])).trans hsuper⟩
  | declare name => exact h
  | scope ns => exact h
  | branch s => exact h
  | function f => exact h

/-! ## Names of layers -/

/-- Names made usable, one after another. -/
def bindNames (ns : List Bytes) (b : Bindings Bool) : Bindings Bool :=
  ns.foldl (fun b name => (b.set name false).set name true) b

theorem bindAll_nil (ns : List Bytes) : bindAll ns [] = [] := by
  induction ns with
  | nil => rfl
  | cons name ns ih => exact ih

theorem bindAll_cons (ns : List Bytes) (layer : Layer) (Γ : List Layer) :
    bindAll ns (layer :: Γ) = { layer with names := bindNames ns layer.names } :: Γ := by
  induction ns generalizing layer with
  | nil => rfl
  | cons name ns ih => exact ih _

theorem bindAll_append (ns ms : List Bytes) (Γ : List Layer) :
    bindAll (ns ++ ms) Γ = bindAll ms (bindAll ns Γ) :=
  List.foldl_append

theorem get?_bindNames (ns : List Bytes) (b : Bindings Bool) (name : Bytes) :
    (bindNames ns b).get? name = if name ∈ ns then some true else b.get? name := by
  induction ns generalizing b with
  | nil => simp [bindNames]
  | cons first ns ih =>
      rw [bindNames, List.foldl_cons, ← bindNames, ih]
      by_cases hmem : name ∈ ns
      · simp [hmem]
      · by_cases heq : name = first
        · simp [heq]
        · simp [hmem, heq, Bindings.get?_set_ne _ heq]

/-! ## Looking up names -/

theorem lookup_eq_some {name : Bytes} {Γ : List Layer} {depth : Nat}
    (h : lookup name (names Γ) = some depth) :
    ∃ layer, Γ[depth]? = some layer ∧ layer.names.get? name = some true := by
  induction Γ generalizing depth with
  | nil => cases h
  | cons layer Γ ih =>
      rw [names, List.map_cons, lookup] at h
      split at h
      next husable =>
        cases h
        exact ⟨layer, rfl, husable⟩
      next =>
        obtain ⟨inner, hinner, rfl⟩ := Option.map_eq_some_iff.mp h
        exact ih hinner

/-- The innermost layer in which a name can be used. -/
theorem lookup_eq_of {name : Bytes} {Γ : List Layer} {depth : Nat} {layer : Layer}
    (hlayer : Γ[depth]? = some layer) (husable : layer.names.get? name = some true)
    (hinner : ∀ k < depth, ∀ l, Γ[k]? = some l → l.names.get? name ≠ some true) :
    lookup name (names Γ) = some depth := by
  induction Γ generalizing depth with
  | nil => cases hlayer
  | cons top Γ ih =>
      rw [names, List.map_cons, lookup]
      cases depth with
      | zero =>
          cases hlayer
          rw [if_pos husable]
      | succ depth =>
          rw [if_neg (hinner 0 (Nat.succ_pos depth) top rfl)]
          have hrest := ih hlayer fun k hk l hl => hinner (k + 1) (Nat.succ_lt_succ hk) l hl
          rw [names] at hrest
          rw [hrest]
          rfl

theorem lookup_isSome {name : Bytes} {Γ : List Layer} {layer : Layer} (hmem : layer ∈ Γ)
    (h : layer.names.get? name = some true) : ∃ depth, lookup name (names Γ) = some depth := by
  induction Γ with
  | nil => cases hmem
  | cons top Γ ih =>
      rw [names, List.map_cons, lookup]
      split
      next => exact ⟨0, rfl⟩
      next hnot =>
        rcases List.mem_cons.mp hmem with rfl | hmem
        · exact absurd h hnot
        · obtain ⟨depth, hdepth⟩ := ih hmem
          rw [names] at hdepth
          exact ⟨depth + 1, by rw [hdepth]; rfl⟩

end LoxMachine.Scope
