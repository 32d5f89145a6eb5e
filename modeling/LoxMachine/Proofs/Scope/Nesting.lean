import LoxMachine.Proofs.Store.Chains

/-!
# Nesting

The layers in which a reference of a tree is made are those around the tree, with
blocks, functions and classes inside them.
-/

namespace LoxMachine.Scope

variable {Γ Δ Θ : List Layer}

/-- The origin of an environment inside a module. -/
def Inner (origin : Origin) : Prop :=
  (∃ region declares, origin = .scope region declares ∧
    (region = .block ∨ region = .function)) ∨
  origin = superclassLayer.origin ∨ origin = receiverLayer.origin

def origins (Γ : List Layer) : List Origin :=
  Γ.map Layer.origin

/-- The layers `Δ` are those of `Γ`, whatever their names, with more inside. -/
def Nested (Γ Δ : List Layer) : Prop :=
  ∃ inner, origins Δ = inner ++ origins Γ ∧ ∀ origin ∈ inner, Inner origin

/-- The layers of a reference. -/
def Site.layers? : Site → Option (List Layer)
  | .read Γ _ _ => some Γ
  | .write Γ _ _ => some Γ
  | .this Γ _ => some Γ
  | .super Γ _ _ => some Γ
  | _ => none

/-- All references at some sites are made inside `Γ`. -/
def Surrounds (Γ : List Layer) (sites : List Site) : Prop :=
  ∀ site ∈ sites, ∀ Δ, site.layers? = some Δ → Nested Γ Δ

theorem origins_mark (name : Bytes) (usable : Bool) (Γ : List Layer) :
    origins (mark name usable Γ) = origins Γ := by
  cases Γ <;> rfl

theorem origins_bindAll (ns : List Bytes) (Γ : List Layer) :
    origins (bindAll ns Γ) = origins Γ := by
  cases Γ with
  | nil => rw [bindAll_nil]
  | cons layer Γ =>
      rw [bindAll_cons]
      rfl

theorem Nested.refl (Γ : List Layer) : Nested Γ Γ :=
  ⟨[], rfl, nofun⟩

/-- What lies inside one more layer lies inside. -/
theorem Nested.of_cons {layer : Layer} (hlayer : Inner layer.origin)
    (h : Nested (layer :: Γ) Δ) : Nested Γ Δ := by
  obtain ⟨inner, heq, hinner⟩ := h
  refine ⟨inner ++ [layer.origin], ?_, ?_⟩
  · rw [heq, List.append_assoc]
    rfl
  · intro origin hmem
    rcases List.mem_append.mp hmem with hmem | hmem
    · exact hinner origin hmem
    · exact List.mem_singleton.mp hmem ▸ hlayer

theorem Nested.congr (h : Nested Γ Δ) (heq : origins Γ = origins Θ) : Nested Θ Δ := by
  obtain ⟨inner, hΔ, hinner⟩ := h
  exact ⟨inner, heq ▸ hΔ, hinner⟩

theorem Surrounds.append {a b : List Site} (ha : Surrounds Γ a) (hb : Surrounds Γ b) :
    Surrounds Γ (a ++ b) := by
  intro site hmem
  rcases List.mem_append.mp hmem with hmem | hmem
  · exact ha site hmem
  · exact hb site hmem

theorem Surrounds.cons {site : Site} {sites : List Site} (h : Surrounds Γ sites)
    (hsite : site.layers? = none) : Surrounds Γ (site :: sites) := by
  intro other hmem Δ hΔ
  rcases List.mem_cons.mp hmem with rfl | hmem
  · rw [hsite] at hΔ
    cases hΔ
  · exact h other hmem Δ hΔ

theorem Surrounds.of_cons {layer : Layer} {sites : List Site} (hlayer : Inner layer.origin)
    (h : Surrounds (layer :: Γ) sites) : Surrounds Γ sites :=
  fun site hmem Δ hΔ => (h site hmem Δ hΔ).of_cons hlayer

theorem Surrounds.congr {sites : List Site} (h : Surrounds Γ sites)
    (heq : origins Γ = origins Θ) : Surrounds Θ sites :=
  fun site hmem Δ hΔ => (h site hmem Δ hΔ).congr heq

theorem surrounds_singleton {site : Site} (h : site.layers? = some Γ) : Surrounds Γ [site] := by
  intro other hmem Δ hΔ
  rw [List.mem_singleton.mp hmem, h] at hΔ
  cases hΔ
  exact Nested.refl Γ

mutual

theorem surrounds_expr (Γ : List Layer) : ∀ e, Surrounds Γ (exprSites Γ e)
  | .literal _ _ => nofun
  | .var _ _ => surrounds_singleton rfl
  | .assign _ _ value _ => (surrounds_expr Γ value).append (surrounds_singleton rfl)
  | .unary _ operand _ => surrounds_expr Γ operand
  | .binary _ left right _ => (surrounds_expr Γ left).append (surrounds_expr Γ right)
  | .logical _ left right _ => (surrounds_expr Γ left).append (surrounds_expr Γ right)
  | .group inner _ => surrounds_expr Γ inner
  | .call callee args _ => (surrounds_expr Γ callee).append (surrounds_args Γ args)
  | .get object _ _ => surrounds_expr Γ object
  | .set object _ value _ => (surrounds_expr Γ value).append (surrounds_expr Γ object)
  | .this _ _ => surrounds_singleton rfl
  | .super _ _ _ _ _ => surrounds_singleton rfl

theorem surrounds_args (Γ : List Layer) : ∀ es, Surrounds Γ (argSites Γ es)
  | [] => nofun
  | e :: rest => (surrounds_expr Γ e).append (surrounds_args Γ rest)

end

theorem surrounds_option (Γ : List Layer) : ∀ e, Surrounds Γ (optionSites Γ e)
  | none => nofun
  | some e => surrounds_expr Γ e

theorem surrounds_parent (Γ : List Layer) : ∀ parent, Surrounds Γ (parentSites Γ parent)
  | none => nofun
  | some _ => surrounds_singleton rfl

theorem surrounds_names (Γ : List Layer) (ns : List Bytes) :
    Surrounds Γ (ns.map Site.declare) := by
  intro site hmem Δ hΔ
  obtain ⟨name, _, rfl⟩ := List.mem_map.mp hmem
  cases hΔ

mutual

theorem surrounds_stmt (Γ : List Layer) : ∀ s, Surrounds Γ (stmtSites Γ s)
  | .expr value _ => surrounds_expr Γ value
  | .print value _ => surrounds_expr Γ value
  | .assert value _ => surrounds_expr Γ value
  | .assertEqual left right _ => (surrounds_expr Γ left).append (surrounds_expr Γ right)
  | .var name init _ =>
      ((surrounds_option _ init).congr (origins_mark name.text false Γ)).cons rfl
  | .block body _ =>
      ((surrounds_body (blockLayer body :: Γ) body).of_cons
        (.inl ⟨_, _, rfl, .inl rfl⟩)).cons rfl
  | .cond test thenBranch none _ =>
      ((surrounds_expr Γ test).append (surrounds_stmt Γ thenBranch)).cons rfl
  | .cond test thenBranch (some elseBranch) _ =>
      (((surrounds_expr Γ test).append ((surrounds_stmt Γ thenBranch).append
        (surrounds_stmt Γ elseBranch))).cons rfl).cons rfl
  | .loop test body _ => ((surrounds_expr Γ test).append (surrounds_stmt Γ body)).cons rfl
  | .ret _ value _ => surrounds_option Γ value
  | .function decl =>
      (((surrounds_function _ decl).congr
        (origins_bindAll [decl.name.text] Γ)).cons rfl).cons rfl
  | .classDecl name superclass methods _ => by
      have hbind := origins_bindAll [name.text] Γ
      have hmethods := (surrounds_methods
        (receiverLayer :: outerLayers superclass (bind name.text Γ)) methods).of_cons
        (.inr (.inr rfl))
      refine (((surrounds_parent _ superclass).congr hbind).append ?_).cons rfl
      cases superclass with
      | none => exact hmethods.congr hbind
      | some _ => exact (hmethods.of_cons (.inr (.inl rfl))).congr hbind

theorem surrounds_body (Γ : List Layer) : ∀ body, Surrounds Γ (bodySites Γ body)
  | [] => nofun
  | s :: rest =>
      (surrounds_stmt Γ s).append ((surrounds_body _ rest).congr (origins_bindAll _ Γ))

theorem surrounds_function (Γ : List Layer) : ∀ f, Surrounds Γ (functionSites Γ f)
  | .mk _ _ params body _ => by
      refine ((surrounds_names Γ _).append ?_).cons rfl
      let layer : Layer := ⟨.function, Bindings.empty, paramNames params ++ declaredAll body⟩
      exact ((surrounds_body (bodyLayers params body Γ) body).congr
        (origins_bindAll _ (layer :: Γ))).of_cons (.inl ⟨_, _, rfl, .inr rfl⟩)

theorem surrounds_methods (Γ : List Layer) : ∀ fs, Surrounds Γ (methodSites Γ fs)
  | [] => nofun
  | f :: rest => (surrounds_function Γ f).append (surrounds_methods Γ rest)

end

/-- All references of a module are made inside its own layers. -/
theorem surrounds_module (m : Module) : Surrounds (moduleLayers m) (moduleSites m) := by
  unfold moduleSites
  split
  · exact (surrounds_body _ m.body).cons rfl
  · exact surrounds_body _ m.body

end LoxMachine.Scope
