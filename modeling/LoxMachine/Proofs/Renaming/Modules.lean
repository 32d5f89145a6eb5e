import LoxMachine.Proofs.Renaming.Lockstep
import LoxMachine.Proofs.Renaming.Scopes
import LoxMachine.Proofs.Renaming.Trees
import LoxMachine.Proofs.Session.History

/-!
# Names of local variables do not matter

A local variable of a module can be renamed to any name that is not used there: the
module resolves as before and runs as before.
-/

namespace LoxMachine

open Scope Store

namespace Renaming

variable {D : Depths} {x y : Bytes} {Z : Marked} {st st' : Store}

/-! ## Where the machines start -/

/-- Nothing is marked. -/
def Marked.none : Marked := fun _ => false

theorem along_none {env : Nat} (henv : env < st.envs.size) : Along Marked.none st env [] :=
  ⟨henv, fun _ _ _ => rfl⟩

/-- A sound store is its own twin. -/
theorem twin_self {W : World} {R : Sites} (h : Sound W R st) :
    Twin D x y Marked.none st st where
  clock := rfl
  size := rfl
  parent _ := rfl
  ordered := h.older
  vars _ _ := rfl
  functionCount := rfl
  functions i := by
    cases hc : st.functions[i]? with
    | none => exact .none
    | some c =>
        obtain ⟨base, Γ, hchain, _⟩ := h.functions i c hc
        exact .some ⟨rfl, [], along_none (h.lt_of_chain hchain),
          AlikeFunction.refl markAt_nil c.decl⟩
  classCount := rfl
  classes i := by
    cases hcls : st.classes[i]? with
    | none => exact .none
    | some cls =>
        refine .some ⟨rfl, rfl, fun n => ?_⟩
        cases hc : cls.own? n with
        | none => exact .none
        | some c =>
            obtain ⟨base, Γ, hchain, _⟩ := h.methods i cls n c hcls hc
            exact .some ⟨rfl, [], along_none (h.lt_of_chain hchain),
              AlikeFunction.refl (markAt_cons_false markAt_nil) c.decl⟩
  instances := rfl
  natives := rfl

/-- Machines on alike modules start side by side. -/
theorem beside_start {s s' : Session} {W : World} {R : Sites} (hsound : Sound W R s.store)
    (hstore : s'.store = s.store) (htrace : s'.trace = s.trace) {m m' : Module}
    (hkind : m'.kind = m.kind) {marks : List Bool}
    (hmarks : marks.length = (moduleLayers m).length)
    (halike : AlikeBody D x y marks m.body m'.body) :
    ∃ Z, Beside D x y Z (s.start m) (s'.start m') ∧
      Controls D x y Z (s.start m).store (s.start m).env (s.start m).control
        (s'.start m').control := by
  have htwin : Twin D x y Marked.none s.store s'.store := by
    rw [hstore]
    exact twin_self hsound
  have hglobals : Along Marked.none s.store Session.globals [] := along_none hsound.nonempty
  unfold moduleLayers at hmarks
  by_cases hisolated : m.kind.isolated = true
  · rw [if_pos hisolated] at hmarks
    obtain ⟨marked, rfl⟩ := List.length_eq_one_iff.mp hmarks
    rw [s.start_of_isolated hisolated, s'.start_of_isolated (hkind ▸ hisolated)]
    have hunder := hglobals.newEnv hsound.older marked Bindings.empty
    refine ⟨_, ⟨htwin.size, rfl, htrace, ?_, .cons (.program ⟨_, hunder, halike⟩) .nil⟩, .done⟩
    exact htwin.newEnv hglobals.1 marked (get?_empty_turn marked)
  · rw [if_neg hisolated] at hmarks
    obtain rfl := List.length_eq_zero_iff.mp hmarks
    rw [s.start_of_shared hisolated, s'.start_of_shared (hkind ▸ hisolated)]
    exact ⟨_, ⟨rfl, rfl, htrace, htwin, .cons (.program ⟨_, hglobals, halike⟩) .nil⟩, .done⟩

/-! ## Where variables can be renamed -/

/-- A site at which a reference to `x` has a depth. -/
def Located (D : Depths) (x : Bytes) : Site → Prop
  | .read _ id name => name = x → (D.depth? id).isSome
  | .write _ id name => name = x → (D.depth? id).isSome
  | _ => True

instance (D : Depths) (x : Bytes) : DecidablePred (Located D x)
  | .read _ id name | .write _ id name =>
      inferInstanceAs (Decidable (name = x → (D.depth? id).isSome))
  | .this _ _ | .super _ _ _ | .declare _ | .scope _ | .branch _ | .function _ => .isTrue trivial

theorem declare_mem_of_declaredNames {sites : List Site}
    (h : x ∈ sites.flatMap Site.declaredNames) : .declare x ∈ sites := by
  obtain ⟨site, hsite, hx⟩ := List.mem_flatMap.mp h
  cases site with
  | declare name =>
      obtain rfl := List.mem_singleton.mp hx
      exact hsite
  | _ => cases hx

theorem allows_of_located {r : Renaming} {site : Site} (hsettled : site.Settled r.depths)
    (hlocated : Located r.depths r.old site) (hfresh : Avoids r.new site)
    (hD : ∀ id ∈ site.ids, D.depth? id = r.depths.depth? id) : r.Allows D site := by
  have hne : ∀ {id : Nat} {name : Bytes}, (name = r.old → (r.depths.depth? id).isSome) →
      r.depths.depth? id = none → name ≠ r.old := by
    intro id name hsome hnone heq
    rw [hnone] at hsome
    exact Bool.false_ne_true (hsome heq)
  cases site with
  | read Γ id name => exact ⟨hD id List.mem_cons_self, hfresh, hne hlocated⟩
  | write Γ id name => exact ⟨hD id List.mem_cons_self, hfresh, hne hlocated⟩
  | declare name => exact hfresh
  | scope names => exact hsettled
  | branch s => exact hsettled
  | _ => trivial

theorem length_moduleMarks (r : Renaming) (m : Module) :
    (r.moduleMarks m).length = (moduleLayers m).length := by
  unfold moduleMarks moduleLayers
  split <;> rfl

end Renaming

namespace Session

open Renaming

/-! ## Running compiled texts -/

/-- Runs a compiled text, for at most `fuel` steps. -/
def execute (s : Session) (fuel : Nat) (src : Source) (c : Compiled) :
    Except Failure Unit × Session :=
  let s := s.prepare src c
  let (ending, final) := run s.setting fuel (s.start c.module)
  s.finish src ending final

/-- To evaluate a text is to compile and to execute it. -/
theorem eval_eq_execute {s t : Session} {src : Source} {kind : ModuleKind} {c : Compiled}
    (hcompile : s.compile src kind = (.ok c, t)) (fuel : Nat) :
    s.eval fuel src kind = t.execute fuel src c := by
  rw [eval, hcompile]
  rfl

theorem finish_congr {s s' : Session} (hlogging : s'.logging = s.logging) {src : Source}
    {ending : Option Ending} {final final' : State} (htrace : final'.trace = final.trace) :
    (s'.finish src ending final').1 = (s.finish src ending final).1 ∧
      (s'.finish src ending final').2.trace = (s.finish src ending final).2.trace := by
  unfold finish
  split
  next =>
    refine ⟨rfl, ?_⟩
    simp only [log, hlogging, htrace]
    split <;> rfl
  next =>
    refine ⟨rfl, ?_⟩
    simp only [log, hlogging, htrace]
    split <;> rfl
  next => exact ⟨rfl, htrace⟩
  next => exact ⟨rfl, htrace⟩

/-- Preparing texts of the same kind leads to sessions that differ in their depths. -/
theorem prepare_congr (s : Session) (src : Source) {c c' : Compiled}
    (hkind : c'.module.kind = c.module.kind) :
    s.prepare src c' = { s.prepare src c with depths := s.depths.merge c'.depths } := by
  unfold prepare log
  rw [hkind]
  dsimp only
  split <;> rfl

/-- Alike modules with the same depths are executed alike. -/
theorem execute_alike {s : Session} {src : Source} {c : Compiled} {runs : List Run} {W : World}
    (h : (s.prepare src c).Coherent runs)
    (hvalid : Valid W (Run.sites runs) ((s.prepare src c).start c.module))
    {x y : Bytes} (hplain : Plain x ∧ Plain y) (c' : Compiled)
    (hkind : c'.module.kind = c.module.kind)
    (hdepths : ∀ id, c'.depths.depth? id = c.depths.depth? id) {marks : List Bool}
    (hmarks : marks.length = (moduleLayers c.module).length)
    (halike : AlikeBody (s.prepare src c).depths x y marks c.module.body c'.module.body)
    (fuel : Nat) :
    (s.execute fuel src c').1 = (s.execute fuel src c).1 ∧
      (s.execute fuel src c').2.trace = (s.execute fuel src c).2.trace := by
  have hsession := s.prepare_congr src hkind
  have hset : Settings (s.prepare src c).depths x y (s.prepare src c).setting
      (s.prepare src c').setting := by
    refine ⟨hplain, fun _ => rfl, fun id => ?_, ?_, ?_⟩
    · rw [setting, prepare_depths, prepare_depths, Depths.depth?_merge, Depths.depth?_merge,
        hdepths]
    all_goals rw [hsession]; rfl
  obtain ⟨W₀, hsound⟩ := h.store
  have hstore : (s.prepare src c').store = (s.prepare src c).store := by rw [hsession]
  obtain ⟨Z, hbeside, hcontrol⟩ := beside_start hsound hstore (by rw [hsession]) hkind hmarks
    halike
  unfold execute
  dsimp only
  rcases hbeside.run hset hcontrol fuel with ⟨d, hbroken⟩ | ⟨hending, htrace⟩
  · exact absurd hbroken ((run_valid h.sites fuel hvalid).1 d)
  · rw [hending]
    exact finish_congr (by rw [hsession]) htrace

/-- A module in which a local variable gets another name, one that does not occur there,
resolves without an error to the same depths, and is executed as the text is evaluated: it ends
the same way and writes the same. -/
theorem execute_renamed (options : Options) (logging : Bool) (clock : Clock)
    (history : List (Request × Nat)) (src : Source) (kind : ModuleKind) {c : Compiled}
    {t : Session}
    (hcompile : ((new options logging clock).after history).compile src kind = (.ok c, t))
    (address : List Nat) {x y : Bytes}
    (hdeclared : x ∈ (moduleSites c.module).flatMap Site.declaredNames)
    (hlocated : ∀ site ∈ moduleSites c.module, Located c.depths x site) (hplain : Plain y)
    (hfresh : ∀ site ∈ moduleSites c.module, Avoids y site) {bag : Bag}
    (hbag : bag.isClean = true) (fuel : Nat) :
    let m := Renaming.apply ⟨c.depths, address, x, y⟩ c.module
    let evaluated := ((new options logging clock).after history).eval fuel src kind
    (resolve m bag).2.isClean = true ∧
      (∀ id, (resolve m bag).1.depth? id = c.depths.depth? id) ∧
      (t.execute fuel src ⟨m, (resolve m bag).1⟩).1 = evaluated.1 ∧
      (t.execute fuel src ⟨m, (resolve m bag).1⟩).2.trace = evaluated.2.trace := by
  intro m evaluated
  have heval : evaluated = t.execute fuel src c := eval_eq_execute hcompile fuel
  let r : Renaming := ⟨c.depths, address, x, y⟩
  have hcoherent := (coherent_new options logging clock).after history
  obtain ⟨hquiet, hresolves⟩ := compile_spec ((new options logging clock).after history) src kind
  rw [hcompile] at hquiet hresolves
  obtain ⟨hprepared, W, hvalid⟩ := hcoherent.launch hcompile
  have hplains : Plain x ∧ Plain y :=
    ⟨hresolves.settled _ (declare_mem_of_declaredNames hdeclared), hplain⟩
  -- The depths of the module are the same in its own table and in that of the session.
  have hmerged : ∀ site ∈ moduleSites c.module, ∀ id ∈ site.ids,
      (t.prepare src c).depths.depth? id = c.depths.depth? id := by
    intro site hsite id hid
    have hrange := hresolves.numbered.range id (List.mem_flatMap.mpr ⟨site, hsite, hid⟩)
    rw [prepare_depths, Depths.depth?_merge, hquiet.depths, hcoherent.unused id hrange.1,
      Option.or_none]
  have hallows : ∀ {D : Depths}, (∀ site ∈ moduleSites c.module, ∀ id ∈ site.ids,
      D.depth? id = c.depths.depth? id) → ∀ site ∈ moduleSites c.module, r.Allows D site :=
    fun hD site hsite => allows_of_located (hresolves.settled site hsite) (hlocated site hsite)
      (hfresh site hsite) (hD site hsite)
  obtain ⟨bag₀, hdepths, hclean⟩ := hresolves.resolved
  have hkind : m.kind = c.module.kind := rfl
  have hresolve := resolve_alike hplains.1 hplains.2 hkind
    (length_moduleMarks r c.module) (alike_module (hallows fun _ _ _ _ => rfl))
    (fun site hsite => ⟨hresolves.settled site hsite, hfresh site hsite⟩) hclean hbag
  rw [← hdepths] at hresolve
  rw [heval]
  exact ⟨hresolve.1, hresolve.2, execute_alike hprepared hvalid hplains ⟨m, (resolve m bag).1⟩
    hkind hresolve.2 (length_moduleMarks r c.module) (alike_module (hallows hmerged)) fuel⟩

/-- A variable of a block, which a function assigns to and another one hides. -/
def counting : Source :=
  Source.ofSnippet
    (utf8 "{ var a = 1; fun f(a) { return a; } fun g() { a = a + f(2); } g(); print a; }")

theorem compile_counting {P : Compiled → Prop} [DecidablePred P]
    (h : (((new {} false).compile counting .replLine).1.toOption.any fun c =>
      decide (P c)) = true) :
    ∃ c t, (new {} false).compile counting .replLine = (.ok c, t) ∧ P c := by
  obtain ⟨c, hc, hP⟩ := (Option.any_eq_true _ _).mp h
  cases hcompile : (new {} false).compile counting .replLine with
  | mk outcome t =>
      rw [hcompile] at hc
      cases outcome with
      | error failure => cases hc
      | ok found =>
          cases hc
          exact ⟨c, t, rfl, of_decide_eq_true hP⟩

theorem execute_renamed_counting : ∃ c t,
    (new {} false).compile counting .replLine = (.ok c, t) ∧
    let m := Renaming.apply ⟨c.depths, [0], utf8 "a", utf8 "b"⟩ c.module
    m.dump ≠ c.module.dump ∧ (resolve m Bag.empty).2.isClean = true ∧
      (∀ id, (resolve m Bag.empty).1.depth? id = c.depths.depth? id) ∧
      (t.execute 100 counting ⟨m, (resolve m Bag.empty).1⟩).1 =
        ((new {} false).eval 100 counting .replLine).1 ∧
      (t.execute 100 counting ⟨m, (resolve m Bag.empty).1⟩).2.trace =
        ((new {} false).eval 100 counting .replLine).2.trace := by
  obtain ⟨c, t, hcompile, hdump, hdeclared, hlocated, hfresh⟩ := compile_counting
    (P := fun c =>
      (Renaming.apply ⟨c.depths, [0], utf8 "a", utf8 "b"⟩ c.module).dump ≠ c.module.dump ∧
      utf8 "a" ∈ (moduleSites c.module).flatMap Site.declaredNames ∧
      (∀ site ∈ moduleSites c.module, Located c.depths (utf8 "a") site) ∧
      ∀ site ∈ moduleSites c.module, Avoids (utf8 "b") site) (by decide +kernel)
  have hempty : Bag.empty.isClean = true := rfl
  obtain ⟨hclean, hdepths, hending, htrace⟩ := execute_renamed {} false (.still 0) [] counting
    .replLine hcompile [0] hdeclared hlocated (by decide +kernel) hfresh hempty 100
  rw [after] at hending htrace
  exact ⟨c, t, hcompile, hdump, hclean, hdepths, hending, htrace⟩

end Session

end LoxMachine
