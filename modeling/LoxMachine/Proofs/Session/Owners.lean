import LoxMachine.Proofs.Scope.Nesting
import LoxMachine.Proofs.Session.History

/-!
# Owners of unresolved names

A reference without a depth is searched for by name through all environments around
it.  It finds a global, or a variable at the top of its module, unless a block or a
function around the reference has bound the name by then.
-/

namespace LoxMachine

open Scope Store

/-- The node and the name of the variable that the machine is about to look at. -/
def State.referent? (s : State) : Option (Nat × Bytes) :=
  match s.control, s.frames with
  | .eval (.var id name), _ => some (id, name.text)
  | .value _, .assign id name :: _ => some (id, name.text)
  | .exec (.classDecl _ (some parent) _ _), _ => some (parent.id, parent.name.text)
  | _, _ => none

/-- The store in which it will look: the name of a class is bound before its superclass
is looked at. -/
def State.searched (s : State) : Store :=
  match s.control with
  | .exec (.classDecl name _ _ _) => (s.define name.text .nil).store
  | _ => s.store

/-- A block or a function among the layers declares the name, and its environment, which
is `owner`, has bound it. -/
def Captures (st : Store) (env : Nat) (Γ : List Layer) (name : Bytes) (owner : Nat) : Prop :=
  ∃ (k : Nat) (layer : Layer), Γ[k]? = some layer ∧
    (layer.region = .block ∨ layer.region = .function) ∧ name ∈ layer.declares ∧
    st.climb k env = some owner ∧ (st.at? owner name).isSome

/-- The variable belongs to the globals or to the top of an isolated module. -/
def Run.Holds (r : Run) (owner : Nat) : Prop :=
  owner = Session.globals ∨ r.module.kind.isolated = true ∧ owner = r.base

instance (r : Run) (owner : Nat) : Decidable (r.Holds owner) :=
  inferInstanceAs (Decidable (_ ∨ _))

variable {W : World} {R : Sites} {st : Store} {env owner : Nat} {Γ : List Layer} {name : Bytes}

/-- A search ends at a layer or at the globals. -/
theorem climb_layer_or_globals {base d : Nat} (hs : Sound W R st)
    (hchain : Chain W st base Γ env) (hclimb : st.climb d env = some owner) :
    owner = Session.globals ∨ ∃ layer, Γ[d]? = some layer ∧ W owner = layer.origin ∧
      (layer.region = .module → owner = base) := by
  by_cases hd : d < Γ.length
  · obtain ⟨owner', _, hclimb', _, horigin, _, hbase⟩ :=
      hchain.climb (List.getElem?_eq_getElem hd)
    obtain rfl := Option.some.inj (hclimb'.symm.trans hclimb)
    exact .inr ⟨Γ[d], List.getElem?_eq_getElem hd, horigin, hbase⟩
  · -- There is nothing beyond the globals.
    obtain ⟨rest, rfl⟩ := Nat.exists_eq_add_of_le (Nat.le_of_not_lt hd)
    rw [climb_add, hchain.climb_length] at hclimb
    cases rest with
    | zero => exact .inl (Option.some.inj hclimb).symm
    | succ rest =>
        have hroot : st.parent? 0 = none := by
          cases hparent : st.parent? 0 with
          | none => rfl
          | some p => exact absurd (hs.older 0 p hparent) (Nat.not_lt_zero p)
        simp only [Option.bind_some, climb_succ, hroot, Option.bind_none] at hclimb
        cases hclimb

/-- A layer of a reference is the top of its module or lies further inside. -/
theorem layer_cases {m : Module} {layer : Layer} {d : Nat} (hnested : Nested (moduleLayers m) Γ)
    (hlayer : Γ[d]? = some layer) :
    Inner layer.origin ∨
      m.kind.isolated = true ∧ layer.region = .module ∧ d + 1 = Γ.length := by
  obtain ⟨inner, horigins, hinner⟩ := hnested
  have hd : (origins Γ)[d]? = some layer.origin := by
    rw [origins, List.getElem?_map, hlayer]
    rfl
  have hlength : Γ.length = inner.length + (moduleLayers m).length := by
    have h := congrArg List.length horigins
    simpa only [origins, List.length_append, List.length_map] using h
  rw [horigins] at hd
  by_cases hlt : d < inner.length
  · rw [List.getElem?_append_left hlt] at hd
    exact .inl (hinner _ (List.mem_of_getElem? hd))
  · rw [List.getElem?_append_right (Nat.le_of_not_lt hlt)] at hd
    unfold moduleLayers at hd hlength
    split at hd
    next hkind =>
      rw [if_pos hkind] at hlength
      have hzero : d - inner.length = 0 := by
        have := (List.getElem?_eq_some_iff.mp hd).1
        simpa [origins] using this
      rw [hzero] at hd
      refine .inr ⟨hkind, ?_, ?_⟩
      · have horigin := Option.some.inj hd
        rw [Layer.origin, Layer.origin] at horigin
        exact (Origin.scope.inj horigin).1.symm
      · rw [List.length_singleton] at hlength
        omega
    next => cases hd

theorem Scope.Inner.ne_module {layer : Layer} (h : Inner layer.origin) : layer.region ≠ .module := by
  rcases h with ⟨region, declares, heq, hregion⟩ | heq | heq
  · rw [(Origin.scope.inj heq).1]
    rcases hregion with rfl | rfl <;> nofun
  · rw [(Origin.scope.inj heq).1]
    nofun
  · rw [(Origin.scope.inj heq).1]
    nofun

/-- The outermost layer of a reference in an isolated module is that of the module. -/
theorem module_layer {m : Module} (hnested : Nested (moduleLayers m) Γ)
    (hkind : m.kind.isolated = true) :
    ∃ (k : Nat) (layer : Layer), Γ[k]? = some layer ∧ layer.region = .module := by
  obtain ⟨inner, horigins, _⟩ := hnested
  have hlast : (origins Γ)[inner.length]? = some (.scope .module (declaredAll m.body)) := by
    rw [horigins, moduleLayers, if_pos hkind, List.getElem?_append_right (Nat.le_refl _),
      Nat.sub_self]
    rfl
  rw [origins, List.getElem?_map] at hlast
  obtain ⟨layer, hlayer, horigin⟩ := Option.map_eq_some_iff.mp hlast
  exact ⟨inner.length, layer, hlayer, (Origin.scope.inj horigin).1⟩

/-- The owner of a searched name is a global or at the top of the module, or else the
environment of a block or a function that captures it. -/
theorem holds_or_captures {r : Run} (hs : Sound W R st) (hchain : Chain W st r.base Γ env)
    (hnested : Nested (moduleLayers r.module) Γ) (hplain : Plain name) {d : Nat} {v : Value}
    (hclimb : st.climb d env = some owner) (hat : st.at? owner name = some v) :
    r.Holds owner ∨ Captures st env Γ name owner := by
  rcases climb_layer_or_globals hs hchain hclimb with hglobal | ⟨layer, hlayer, horigin, hbase⟩
  · exact .inl (.inl hglobal)
  · have hallowed := hs.allowed owner name v hat
    rw [horigin] at hallowed
    rcases layer_cases hnested hlayer with hinner | ⟨hkind, hmodule, _⟩
    · rcases hinner with ⟨region, declares, heq, hregion⟩ | heq | heq
      · have hregion' : layer.region = region := (Origin.scope.inj heq).1
        exact .inr ⟨d, layer, hlayer, hregion' ▸ hregion, hallowed, hclimb,
          Option.isSome_of_eq_some hat⟩
      · rw [heq] at hallowed
        exact absurd (List.mem_singleton.mp hallowed) hplain.2
      · rw [heq] at hallowed
        exact absurd (List.mem_singleton.mp hallowed) hplain.1
    · exact .inl (.inr ⟨hkind, hbase hmodule⟩)

/-- The innermost environment that binds a name is a global one or that of the module
only if no block or function captures the name. -/
theorem not_captures_of_holds {r : Run} (hs : Sound W R st) (hchain : Chain W st r.base Γ env)
    (hnested : Nested (moduleLayers r.module) Γ) {d : Nat}
    (hclimb : st.climb d env = some owner)
    (hpassed : ∀ k < d, ∀ o, st.climb k env = some o → st.at? o name = none)
    (hholds : r.Holds owner) (inner : Nat) : ¬ Captures st env Γ name inner := by
  rintro ⟨k, layer, hlayer, hregion, _, hinner, hbound⟩
  have hk := (List.getElem?_eq_some_iff.mp hlayer).1
  have hle : d ≤ k := by
    by_contra hlt
    rw [hpassed k (Nat.lt_of_not_le hlt) inner hinner] at hbound
    cases hbound
  -- The owner belongs to a layer, so it is not the global environment.
  have hd : d < Γ.length := Nat.lt_of_le_of_lt hle hk
  obtain ⟨owner', _, hclimb', _, horigin, _⟩ := hchain.climb (List.getElem?_eq_getElem hd)
  obtain rfl := Option.some.inj (hclimb'.symm.trans hclimb)
  rcases hholds with hglobal | ⟨hkind, hbase⟩
  · rw [hglobal, Session.globals, hs.root] at horigin
    cases horigin
  · -- It is the environment of the last layer, and no block or function lies around that.
    obtain ⟨j, last, hj, hmodule⟩ := module_layer hnested hkind
    obtain ⟨owner'', _, _, _, horigin', _, hbase'⟩ := hchain.climb hj
    rw [hbase, ← hbase' hmodule, horigin'] at horigin
    have hregion' : (Γ[d]).region = .module := (Origin.scope.inj horigin).1 ▸ hmodule
    rcases layer_cases hnested (List.getElem?_eq_getElem hd) with hinner' | ⟨_, _, hlast⟩
    · exact absurd hregion' (Inner.ne_module hinner')
    · obtain rfl : k = d := by omega
      rw [List.getElem?_eq_getElem hd] at hlayer
      rw [Option.some.inj hlayer] at hregion'
      rw [hregion'] at hregion
      rcases hregion with hregion | hregion <;> cases hregion

/-! ## Moments of a run -/

/-- A reference that the machine is about to look at is a site of the code, made in
layers that the environments are instances of. -/
theorem Valid.referent {set : Setting} {s : State} {id : Nat}
    (hR : ∀ base site, R base site → site.Settled set.depths) (h : Valid W R s)
    (hreferent : s.referent? = some (id, name)) :
    ∃ base Γ site, Sound W R s.searched ∧ Chain W s.searched base Γ s.env ∧ R base site ∧
      (site = .read Γ id name ∨ site = .write Γ id name) := by
  obtain ⟨control, frames, env, depth, store, trace⟩ := s
  obtain ⟨hs, hpoised⟩ := h
  cases hpoised with
  | @eval _ e h _ =>
      cases e with
      | var id' name' =>
          cases hreferent
          obtain ⟨base, Γ, hchain, _, hsites⟩ := h
          exact ⟨base, Γ, _, hs, hchain, hsites _ List.mem_cons_self, .inl rfl⟩
      | _ => cases hreferent
  | value _ hstack =>
      cases hstack with
      | push hlink _ =>
          cases hlink with
          | assign h =>
              cases hreferent
              obtain ⟨base, Γ, hchain, _, hsites⟩ := h
              exact ⟨base, Γ, _, hs, hchain, hsites _ List.mem_cons_self, .inr rfl⟩
          | _ => cases hreferent
  | @exec _ stmt h _ =>
      cases stmt with
      | classDecl className superclass methods span =>
          cases superclass with
          | none => cases hreferent
          | some parent =>
              cases hreferent
              obtain ⟨base, Γ, hchain, hroom, hsites⟩ := h
              obtain ⟨_, hsound, hinner, _⟩ := continues_define (v := .nil)
                (s := ⟨_, frames, env, depth, store, trace⟩) hs hchain hroom
                (hR base _ (hsites _ List.mem_cons_self)) trivial
              exact ⟨base, _, _, hsound, hinner,
                hsites _ (List.mem_cons_of_mem _ (List.mem_append_left _ List.mem_cons_self)),
                .inl rfl⟩
      | _ => cases hreferent
  | _ => cases hreferent

namespace Session

/-- The machine on a text that compiles, after `fuel` steps, if it has not stopped. -/
def moment (s : Session) (fuel : Nat) (src : Source) (kind : ModuleKind) :
    Option (Setting × State) :=
  match s.compile src kind with
  | (.ok c, t) =>
      let p := t.prepare src c
      match run p.setting fuel (p.start c.module) with
      | (none, state) => some (p.setting, state)
      | (some _, _) => none
  | (.error _, _) => none

/-- At a moment of a run the text has compiled, and the machine has not stopped. -/
theorem moment_eq_some {s : Session} {fuel : Nat} {src : Source} {kind : ModuleKind}
    {set : Setting} {state : State} (h : s.moment fuel src kind = some (set, state)) :
    ∃ c t, s.compile src kind = (.ok c, t) ∧ set = (t.prepare src c).setting ∧
      run (t.prepare src c).setting fuel ((t.prepare src c).start c.module) = (none, state) := by
  unfold Session.moment at h
  split at h
  next c t hcompile =>
    dsimp only at h
    split at h
    next state' hrun =>
      cases h
      exact ⟨c, t, hcompile, rfl, hrun⟩
    next => cases h
  next => cases h

theorem Coherent.moment {s : Session} {runs : List Run} (h : s.Coherent runs) {fuel : Nat}
    {src : Source} {kind : ModuleKind} {set : Setting} {state : State}
    (hmoment : s.moment fuel src kind = some (set, state)) :
    (∀ base site, Run.sites (s.launch src kind ++ runs) base site → site.Settled set.depths) ∧
      ∃ W, Valid W (Run.sites (s.launch src kind ++ runs)) state := by
  obtain ⟨c, t, hcompile, rfl, hrun⟩ := moment_eq_some hmoment
  obtain ⟨hprepared, W, hvalid⟩ := h.launch hcompile
  obtain ⟨_, W', _, _, _, hstate⟩ := run_valid hprepared.sites fuel hvalid
  rw [hrun] at hstate
  exact ⟨hprepared.sites, W', hstate rfl⟩

/-- Whenever a variable without a depth is found, at any moment of any run, it belongs to
the globals or to the top of the isolated module that refers to it exactly if no block or
function around the reference has bound the name by then; otherwise it belongs to one of
these. -/
theorem searched_holds_iff (options : Options) (logging : Bool) (clock : Clock)
    (history : List (Request × Nat)) (fuel : Nat) (src : Source) (kind : ModuleKind)
    {set : Setting} {state : State} {id owner : Nat} {name : Bytes}
    (hmoment : ((new options logging clock).after history).moment fuel src kind =
      some (set, state))
    (hreferent : state.referent? = some (id, name)) (hdepth : set.depths.depth? id = none)
    (hfound : (state.searched.nearest? state.env name).map Prod.fst = some owner) :
    ∃ r ∈ ((new options logging clock).after history).launch src kind ++
        (new options logging clock).runs history,
      ∃ Γ, (Site.read Γ id name ∈ moduleSites r.module ∨
          Site.write Γ id name ∈ moduleSites r.module) ∧
        lookup name (names Γ) = none ∧
        (r.Holds owner ↔ ¬ ∃ inner, Captures state.searched state.env Γ name inner) ∧
        (r.Holds owner ∨ Captures state.searched state.env Γ name owner) := by
  have hcoherent := (coherent_new options logging clock).after history
  rw [List.append_nil] at hcoherent
  obtain ⟨hR, W, hvalid⟩ := hcoherent.moment hmoment
  obtain ⟨base, Γ, site, hs, hchain, hsite, hreads⟩ := hvalid.referent hR hreferent
  obtain ⟨r, hr, rfl, hmem⟩ := hsite
  obtain ⟨⟨found, v⟩, hnearest, rfl⟩ := Option.map_eq_some_iff.mp hfound
  obtain ⟨hat, d, hclimb, hpassed⟩ := climb_of_search hnearest
  have hsettled : set.depths.depth? id = lookup name (names Γ) ∧ Plain name := by
    have h := hR r.base site ⟨r, hr, rfl, hmem⟩
    rcases hreads with rfl | rfl <;> exact h
  have hnested : Nested (moduleLayers r.module) Γ := by
    have h := surrounds_module r.module site hmem Γ
    rcases hreads with rfl | rfl <;> exact h rfl
  have hcases := holds_or_captures hs hchain hnested hsettled.2 hclimb hat
  refine ⟨r, hr, Γ, ?_, hsettled.1.symm.trans hdepth, ⟨?_, ?_⟩, hcases⟩
  · rcases hreads with rfl | rfl
    · exact .inl hmem
    · exact .inr hmem
  · rintro hholds ⟨inner, hinner⟩
    exact not_captures_of_holds hs hchain hnested hclimb hpassed hholds inner hinner
  · intro hnone
    exact hcases.resolve_right fun hcaptures => hnone ⟨_, hcaptures⟩

/-- A function that refers to a global, and a block around it that later declares a
variable of that name. -/
def capturing : Source :=
  Source.ofSnippet
    (utf8 "var a = true; { fun f() { print a; } f(); var a = false; f(); }")

/-- Where the reference of that function leads after some steps. -/
theorem moment_capturing (fuel owner : Nat)
    (h : (((new {} false).moment fuel capturing .replLine).any fun m =>
      decide (m.2.referent? = some (1, utf8 "a") ∧ m.1.depths.depth? 1 = none ∧
        (m.2.searched.nearest? m.2.env (utf8 "a")).map Prod.fst = some owner)) = true) :
    ∃ set state, (new {} false).moment fuel capturing .replLine = some (set, state) ∧
      state.referent? = some (1, utf8 "a") ∧ set.depths.depth? 1 = none ∧
      (state.searched.nearest? state.env (utf8 "a")).map Prod.fst = some owner := by
  obtain ⟨⟨set, state⟩, hmoment, hfacts⟩ := (Option.any_eq_true _ _).mp h
  exact ⟨set, state, hmoment, of_decide_eq_true hfacts⟩

theorem searched_holds_iff_capturing : ∃ set state,
    (new {} false).moment 37 capturing .replLine = some (set, state) ∧
    ∃ r ∈ (new {} false).launch capturing .replLine ++ (new {} false).runs [],
      ∃ Γ, (Site.read Γ 1 (utf8 "a") ∈ moduleSites r.module ∨
          Site.write Γ 1 (utf8 "a") ∈ moduleSites r.module) ∧
        lookup (utf8 "a") (names Γ) = none ∧
        (r.Holds 1 ↔ ¬ ∃ inner, Captures state.searched state.env Γ (utf8 "a") inner) ∧
        (r.Holds 1 ∨ Captures state.searched state.env Γ (utf8 "a") 1) := by
  obtain ⟨set, state, hmoment, hreferent, hdepth, hfound⟩ :=
    moment_capturing 37 1 (by decide +kernel)
  exact ⟨set, state, hmoment,
    searched_holds_iff {} false _ [] 37 capturing .replLine hmoment hreferent hdepth hfound⟩

/-- The reference finds the global at first, and the variable of the block later. -/
theorem reference_changes_owner :
    (∃ set state, (new {} false).moment 17 capturing .replLine = some (set, state) ∧
      state.referent? = some (1, utf8 "a") ∧ set.depths.depth? 1 = none ∧
      (state.searched.nearest? state.env (utf8 "a")).map Prod.fst = some globals) ∧
    (∃ set state, (new {} false).moment 37 capturing .replLine = some (set, state) ∧
      state.referent? = some (1, utf8 "a") ∧ set.depths.depth? 1 = none ∧
      (state.searched.nearest? state.env (utf8 "a")).map Prod.fst = some 1) ∧
    ∀ r ∈ (new {} false).launch capturing .replLine, ¬ r.Holds 1 :=
  ⟨moment_capturing 17 globals (by decide +kernel), moment_capturing 37 1 (by decide +kernel),
    by decide +kernel⟩

end Session

end LoxMachine
