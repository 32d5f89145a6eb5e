import LoxMachine.Proofs.Machine.Receivers
import LoxMachine.Proofs.Placing.Lockstep
import LoxMachine.Proofs.Session.Superclasses

/-!
# Receivers in sessions

In every run of every session, an initializer that comes to its end gives the instance it is
bound to, however it is called and whatever it returns.  For an environment that was made for
`this` or for `super` holds it alone, and nothing that the session does later changes that.
-/

namespace LoxMachine

open Scope Store

/-- Environments of keywords hold them alone, and the globals are no such environment. -/
def Store.Kept (st : Store) : Prop :=
  st.Reserved ∧ st.Keyless Session.globals

namespace Session

variable {s t : Session} {runs : List Run}

theorem kept_initialStore {clock : Clock} : (initialStore clock).Kept := by
  have hnone : ∀ env n, ¬ Plain n → (initialStore clock).at? env n = none := by
    intro env n hn
    cases env with
    | zero =>
        by_cases hthis : n = utf8 "this"
        · rw [hthis]
          rfl
        · have hsuper : n = utf8 "super" := by
            by_contra hne
            exact hn ⟨hthis, hne⟩
          rw [hsuper]
          rfl
    | succ env => rfl
  refine ⟨fun env n v hn hv => ?_, Nat.one_pos, fun n hn => hnone _ n hn⟩
  rw [hnone env n hn] at hv
  cases hv

/-! ## Runs of a session -/

theorem guarded_start (h : s.store.Kept) (m : Module) :
    (s.start m).Guarded ∧ s.store.Keeps (s.start m).store := by
  obtain ⟨hreserved, hglobals⟩ := h
  by_cases hkind : m.kind.isolated = true
  · rw [s.start_of_isolated hkind]
    obtain ⟨hstore, hkeyless⟩ :=
      @Reserved.newEnv_keyless _ hreserved (some globals) Bindings.empty fun _ _ => rfl
    exact ⟨⟨hstore, fun _ _ => trivial, hkeyless, fun _ _ => trivial, hkeyless⟩, keeps_newEnv _ _⟩
  · rw [s.start_of_shared hkind]
    exact ⟨⟨hreserved, fun _ _ => trivial, hglobals, fun _ _ => trivial, hglobals⟩, keeps_refl _⟩

/-- However long a text runs, the environments of keywords are left to themselves. -/
theorem Coherent.guarded_launch (h : s.Coherent runs) (hd : s.store.Descended runs)
    (hkept : s.store.Kept) {src : Source} {kind : ModuleKind} {c : Compiled}
    (hcompile : s.compile src kind = (.ok c, t)) (fuel : Nat) {ending : Option Ending}
    {state : State}
    (hrun : run (t.prepare src c).setting fuel ((t.prepare src c).start c.module) =
      (ending, state)) :
    state.store.Reserved ∧ s.store.Keeps state.store ∧ (ending = none → state.Guarded) := by
  have hquiet := (s.compile_spec src kind).1
  rw [hcompile] at hquiet
  obtain ⟨hprepared, W, hvalid⟩ := h.launch hcompile
  obtain ⟨hdescended, horderly⟩ := orderly_of_compile hd hcompile
  have hstore : (t.prepare src c).store = s.store := (prepare_store t src c).trans hquiet.store
  obtain ⟨hguarded, hstart⟩ := @guarded_start (t.prepare src c) (hstore.symm ▸ hkept) c.module
  rw [hstore] at hstart
  have hlast := hguarded.run hdescended.known hprepared.sites fuel hvalid horderly
  rw [hrun] at hlast
  obtain ⟨hreserved, hkeep, hgoes⟩ := hlast
  exact ⟨hreserved, hstart.trans hkeep, hgoes⟩

theorem Coherent.kept_eval (h : s.Coherent runs) (hd : s.store.Descended runs)
    (hkept : s.store.Kept) (fuel : Nat) (src : Source) (kind : ModuleKind) :
    (s.eval fuel src kind).2.store.Kept ∧ s.store.Keeps (s.eval fuel src kind).2.store := by
  have hquiet := (s.compile_spec src kind).1
  unfold Session.eval
  cases hcompile : s.compile src kind with
  | mk outcome t =>
      rw [hcompile] at hquiet
      cases outcome with
      | error failure =>
          have hstore : t.store = s.store := hquiet.store
          change t.store.Kept ∧ s.store.Keeps t.store
          rw [hstore]
          exact ⟨hkept, keeps_refl _⟩
      | ok c =>
          obtain ⟨hreserved, hkeep, _⟩ := h.guarded_launch hd hkept hcompile fuel rfl
          dsimp only
          rw [store_finish]
          exact ⟨⟨hreserved, hkept.2.mono hkeep⟩, hkeep⟩

/-- After any history the environments of keywords are in order, and what was bound to keywords
before is bound to them still. -/
theorem Coherent.kept_after (h : s.Coherent runs) (hd : s.store.Descended runs)
    (hkept : s.store.Kept) (history : List (Request × Nat)) :
    (s.after history).store.Kept ∧ s.store.Keeps (s.after history).store := by
  refine h.after_of_eval (P := fun st => st.Kept ∧ s.store.Keeps st) ?_ hd
    ⟨hkept, keeps_refl _⟩ history
  rintro s' runs' hs' hds' ⟨hkept', hkeep'⟩ fuel src kind
  obtain ⟨hlast, hlater⟩ := hs'.kept_eval hds' hkept' fuel src kind
  exact ⟨hlast, hkeep'.trans hlater⟩

/-- At every moment of a run the environments of keywords are left to themselves, and what is
bound to keywords then is bound to them when the run is left, however late that is. -/
theorem Coherent.guarded_moment (h : s.Coherent runs) (hd : s.store.Descended runs)
    (hkept : s.store.Kept) {fuel : Nat} {src : Source} {kind : ModuleKind} {set : Setting}
    {state : State} (hmoment : s.moment fuel src kind = some (set, state)) :
    state.Guarded ∧ ∀ fuel' ≥ fuel, state.store.Keeps (s.eval fuel' src kind).2.store := by
  obtain ⟨hR, W, hvalid⟩ := h.moment hmoment
  obtain ⟨hknown, horderly⟩ := h.orderly_moment hd hmoment
  obtain ⟨c, t, hcompile, rfl, hrun⟩ := moment_eq_some hmoment
  have hguarded := (h.guarded_launch hd hkept hcompile fuel hrun).2.2 rfl
  refine ⟨hguarded, fun fuel' hfuel => ?_⟩
  obtain ⟨more, rfl⟩ := Nat.exists_eq_add_of_le hfuel
  rw [Session.eval, hcompile]
  dsimp only
  rw [store_finish, run_add hrun]
  exact (hguarded.run hknown hR more hvalid horderly).2.1

/-- At every moment of every run: a function that is an initializer is called bound to an
instance, which is the new one if it is called with its class, and comes to no other value; a
class comes to no other value than its new instance; an environment that is made for `this` or
for `super` holds the instance or the class and nothing else, and whatever binds one of these
names holds it alone, then and for ever after. -/
theorem initializers_return_receivers (options : Options) (logging : Bool) (clock : Clock)
    (history : List (Request × Nat)) (fuel : Nat) (request : Request) (src : Source)
    (kind : ModuleKind) {set : Setting} {state : State}
    (htext : request.text? = some (src, kind))
    (hmoment : ((new options logging clock).after history).moment fuel src kind =
      some (set, state)) :
    (∀ c st waiting, state.Invokes c st waiting → c.decl.kind = .initializer →
      ∃ object, object < st.instances.size ∧
        st.BindsOnly c.env (utf8 "this") (.objectRef object) ∧
        (∀ range cls args, state.control = .call range (.classRef cls) args →
          object = state.store.instances.size) ∧
        ∀ t v, Concludes set waiting state t → t.control = .value v → v = .objectRef object) ∧
    (∀ range cls args t v, state.control = .call range (.classRef cls) args →
      Concludes set state.frames state t → t.control = .value v →
      v = .objectRef state.store.instances.size) ∧
    (∀ n v, state.Makes set n v →
      (advance set state).state.store.BindsOnly state.store.envs.size n v) ∧
    ∀ env n v, n = utf8 "this" ∨ n = utf8 "super" → state.store.at? env n = some v →
      state.store.KeywordValue n v ∧
      (∀ k, (run set k state).2.store.BindsOnly env n v) ∧
      ∀ fuel' ≥ fuel, ∀ more,
        ((((new options logging clock).after history).perform fuel' request).2.after
          more).store.BindsOnly env n v := by
  have hnew := coherent_new options logging clock
  have hcoherent := hnew.after history
  have hdescended := hnew.descended_after descended_initialStore history
  have hkept := (hnew.kept_after descended_initialStore kept_initialStore history).1
  obtain ⟨hR, W, hvalid⟩ := hcoherent.moment hmoment
  obtain ⟨hknown, horderly⟩ := hcoherent.orderly_moment hdescended hmoment
  obtain ⟨hguarded, hafter⟩ := hcoherent.guarded_moment hdescended hkept hmoment
  refine ⟨?_, ?_, ?_, ?_⟩
  · intro c st waiting hinvokes hkind
    obtain ⟨object, hlt, honly, hfresh⟩ := hguarded.receives hvalid hinvokes hkind
    refine ⟨object, hlt, honly, hfresh, fun t v hconcludes hvalue => ?_⟩
    exact hguarded.initializer_value horderly hknown hR hvalid hinvokes hkind honly hconcludes
      hvalue
  · intro range cls args t v hcontrol hconcludes hvalue
    exact hconcludes.new_instance hcontrol hvalue
  · intro n v hmakes
    exact hmakes.bindsOnly hguarded.code.frames.here.1
  · intro env n v hname hv
    have hn : ¬ Plain n := by
      rcases hname with rfl | rfl
      · exact not_plain_this
      · exact not_plain_super
    refine ⟨(hguarded.store env n v hn hv).1, fun k => ?_, fun fuel' hfuel more => ?_⟩
    · obtain ⟨hreserved, hkeep, _⟩ := hguarded.run hknown hR k hvalid horderly
      exact hreserved.bindsOnly hkeep hn hv
    · have hperform := hafter fuel' hfuel
      rw [← store_perform _ fuel' htext] at hperform
      have hlast := hcoherent.perform_of_eval
        (fun hs hds hkept fuel src kind => (hs.kept_eval hds hkept fuel src kind).1) hdescended
        hkept fuel' request
      obtain ⟨hlater, hkeep⟩ := (hcoherent.perform fuel' request).2.2.kept_after
        (hcoherent.descended_perform hdescended fuel' request) hlast more
      exact hlater.1.bindsOnly (hperform.trans hkeep) hn hv

/-- A class with an inherited initializer that returns early, which is called on an instance, as
a bound method in a protected call. -/
def returningInit : Source := Source.ofSnippet
  (utf8 "class A { init() { if (true) { return; } } } class B < A {} pcall(B().init);")

/-- The machine is about to call an initializer as a function, which comes to a value after as
many steps. -/
def callsInitializer (set : Setting) (n : Nat) (s : State) : Bool :=
  match s.control with
  | .call _ (.function ref) _ =>
      ((s.store.functions[ref]?).any fun c => decide (c.decl.kind = .initializer) &&
        (s.store.at? c.env (utf8 "this")).isSome) && s.yieldsAfter set n
  | _ => false

theorem exists_of_callsInitializer {set : Setting} {n : Nat} {s : State}
    (h : callsInitializer set n s = true) :
    ∃ c st w t v, s.Invokes c st s.frames ∧ c.decl.kind = .initializer ∧
      s.store.at? c.env (utf8 "this") = some w ∧ Concludes set s.frames s t ∧
      t.control = .value v := by
  unfold callsInitializer at h
  split at h
  next range ref args hcontrol =>
    obtain ⟨hinit, hyields⟩ := Bool.and_eq_true_iff.mp h
    obtain ⟨c, hclosure, hfacts⟩ := (Option.any_eq_true _ _).mp hinit
    obtain ⟨hkind, hthis⟩ := Bool.and_eq_true_iff.mp hfacts
    obtain ⟨w, hw⟩ := Option.isSome_iff_exists.mp hthis
    obtain ⟨t, ht, v, hvalue⟩ := State.exists_concludes_of_yieldsAfter hyields
    exact ⟨c, _, w, t, v, .function hcontrol hclosure, of_decide_eq_true hkind, hw, ht, hvalue⟩
  next => cases h

theorem initializers_return_receivers_bound : ∃ set state c st t object v,
    (new {} false).moment 29 returningInit .replLine = some (set, state) ∧
    state.Invokes c st state.frames ∧ c.decl.kind = .initializer ∧
    st.BindsOnly c.env (utf8 "this") (.objectRef object) ∧
    Concludes set state.frames state t ∧ t.control = .value (.objectRef object) ∧
    state.store.at? c.env (utf8 "this") = some v ∧ ∀ fuel' ≥ 29, ∀ more,
      (((new {} false).perform fuel' (.run returningInit .replLine)).2.after
        more).store.BindsOnly c.env (utf8 "this") v := by
  have hsome : (((new {} false).moment 29 returningInit .replLine).any fun m =>
      callsInitializer m.1 12 m.2) = true := by
    decide +kernel
  obtain ⟨⟨set, state⟩, hmoment, hcalls⟩ := (Option.any_eq_true _ _).mp hsome
  obtain ⟨c, st, w, t, v, hinvokes, hkind, hw, ht, hvalue⟩ := exists_of_callsInitializer hcalls
  obtain ⟨hreturns, _, _, hkept⟩ := initializers_return_receivers {} false (.still 0) [] 29
    (.run returningInit .replLine) returningInit .replLine rfl hmoment
  obtain ⟨object, _, honly, _, hreceiver⟩ := hreturns c st state.frames hinvokes hkind
  obtain ⟨_, _, hlater⟩ := hkept c.env _ w (.inl rfl) hw
  exact ⟨set, state, c, st, t, object, w, hmoment, hinvokes, hkind, honly, ht,
    hreceiver t v ht hvalue ▸ hvalue, hw, hlater⟩

end Session

end LoxMachine
