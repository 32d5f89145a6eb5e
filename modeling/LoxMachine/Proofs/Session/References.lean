import LoxMachine.Proofs.Machine.Growth
import LoxMachine.Proofs.Placing.Lockstep
import LoxMachine.Proofs.Session.Superclasses

/-!
# References between objects of a session

Whatever a session runs, its store grows by operations that add an object only after those
it refers to, and that leave these references alone for ever after.  So looking up variables
and methods comes to an end, however classes are declared again and their names assigned to.
-/

namespace LoxMachine

open Scope Store

namespace Session

variable {s t : Session} {runs : List Run} {clock : Clock}

theorem not_refers_initialStore (a b : Object) : ¬ (initialStore clock).Refers a b := by
  rintro (@⟨o, _, hparent⟩ | hc | ⟨k, hk, _⟩ | ⟨hk, _⟩)
  · have hnone : (initialStore clock).parent? o = none := by cases o <;> rfl
    cases hnone.symm.trans hparent
  · cases hc
  · cases hk
  · cases hk

theorem ordered_initialStore : (initialStore clock).Ordered where
  known a b h := absurd h (not_refers_initialStore a b)
  older _ _ h := absurd (.parent h) (not_refers_initialStore _ _)
  order _ _ h := absurd (.superclass h) (not_refers_initialStore _ _)
  globals := Nat.one_pos
  outermost := rfl
  enclosed _ ho hne := absurd (Nat.lt_one_iff.mp ho) hne

/-! ## Runs of a session -/

theorem grown_start (h : s.store.Has (.env globals)) (m : Module) :
    s.store.Grown (s.start m).store := by
  by_cases hkind : m.kind.isolated = true
  · rw [s.start_of_isolated hkind]
    exact .single (.newEnv h _)
  · rw [s.start_of_shared hkind]
    exact .refl

theorem Coherent.grown_eval (h : s.Coherent runs) (hd : s.store.Descended runs) (fuel : Nat)
    (src : Source) (kind : ModuleKind) : s.store.Grown (s.eval fuel src kind).2.store := by
  have hquiet := (s.compile_spec src kind).1
  unfold Session.eval
  cases hcompile : s.compile src kind with
  | mk outcome t =>
      rw [hcompile] at hquiet
      cases outcome with
      | error failure => exact hquiet.store ▸ .refl
      | ok c =>
          obtain ⟨hprepared, W, hvalid⟩ := h.launch hcompile
          obtain ⟨hdescended, horderly⟩ := orderly_of_compile hd hcompile
          have hstore : (t.prepare src c).store = s.store :=
            (prepare_store t src c).trans hquiet.store
          have hstart := @grown_start (t.prepare src c) (hstore ▸ hd.heritage.globals.1) c.module
          dsimp only
          rw [store_finish]
          rw [hstore] at hstart
          exact hstart.trans (horderly.grown_run hdescended.known hprepared.sites fuel hvalid)

theorem Coherent.grown_after (h : s.Coherent runs) (hd : s.store.Descended runs)
    (history : List (Request × Nat)) : s.store.Grown (s.after history).store := by
  refine h.after_of_eval (P := s.store.Grown) ?_ hd .refl history
  exact fun hs hds hgrown fuel src kind => hgrown.trans (hs.grown_eval hds fuel src kind)

/-- The store of a moment has grown from that of the session, and grows on until the run is
left, however late that is. -/
theorem Coherent.grown_moment (h : s.Coherent runs) (hd : s.store.Descended runs) {fuel : Nat}
    {src : Source} {kind : ModuleKind} {set : Setting} {state : State}
    (hmoment : s.moment fuel src kind = some (set, state)) :
    s.store.Grown state.store ∧
      ∀ fuel' ≥ fuel, state.store.Grown (s.eval fuel' src kind).2.store := by
  obtain ⟨hR, W, hvalid⟩ := h.moment hmoment
  obtain ⟨hknown, horderly⟩ := h.orderly_moment hd hmoment
  have heval := h.grown_eval hd fuel src kind
  obtain ⟨c, t, hcompile, rfl, hrun⟩ := moment_eq_some hmoment
  constructor
  · rw [Session.eval, hcompile] at heval
    dsimp only at heval
    rwa [store_finish, hrun] at heval
  · intro fuel' hfuel
    obtain ⟨more, rfl⟩ := Nat.exists_eq_add_of_le hfuel
    rw [Session.eval, hcompile]
    dsimp only
    rw [store_finish, run_add hrun]
    exact horderly.grown_run hknown hR more hvalid

/-- In every state of every session, between runs and in the midst of them, the store is
founded, and nothing that the session does later changes what its objects refer to. -/
theorem references_founded (options : Options) (logging : Bool) (clock : Clock)
    (history : List (Request × Nat)) :
    let s := (new options logging clock).after history
    (Founded (initialStore clock) s.store ∧ ∀ more, s.store.Fixed (s.after more).store) ∧
    ∀ fuel request src kind set state, request.text? = some (src, kind) →
      s.moment fuel src kind = some (set, state) →
      Founded (initialStore clock) state.store ∧ s.store.Fixed state.store ∧
        (∀ fuel' ≥ fuel, ∀ more,
          state.store.Fixed ((s.perform fuel' request).2.after more).store) ∧
        state.store.Has (.env state.env) ∧
        ∀ c env st, state.Enters c env st → c.env < env ∧ st.parent? env = some c.env := by
  intro s
  have hnew := coherent_new options logging clock
  have hcoherent := hnew.after history
  have hdescended := hnew.descended_after descended_initialStore history
  have hgrown := hnew.grown_after descended_initialStore history
  have hfounded : ∀ {st : Store}, (initialStore clock).Grown st → Founded (initialStore clock) st :=
    fun h => Grown.founded h ordered_initialStore not_refers_initialStore
  refine ⟨⟨hfounded hgrown, fun more => Grown.fixed (hcoherent.grown_after hdescended more)⟩, ?_⟩
  intro fuel request src kind set state htext hmoment
  obtain ⟨hbefore, hafter⟩ := hcoherent.grown_moment hdescended hmoment
  obtain ⟨_, horderly⟩ := hcoherent.orderly_moment hdescended hmoment
  refine ⟨hfounded (hgrown.trans hbefore), Grown.fixed hbefore, fun fuel' hfuel more => ?_,
    horderly.code.frames.here.1, fun c env st henters => henters.inside horderly.store⟩
  have hperform := hafter fuel' hfuel
  rw [← store_perform _ fuel' htext] at hperform
  have hmore := (hcoherent.perform fuel' request).2.2.grown_after
    (hcoherent.descended_perform hdescended fuel' request) more
  exact Grown.fixed (hperform.trans hmore)

/-- Lines that declare classes and then assign one of them to the name of the other. -/
def reassigning : List (Request × Nat) :=
  [(.line (utf8 "class A { m() { return this; } } class B < A {}"), 40),
    (.line (utf8 "A = B;"), 40)]

/-- A line that declares both classes again, below the old ones, and calls a method of the
oldest one. -/
def redeclaring : Source :=
  Source.ofSnippet (utf8 "class C < A {} class A < C {} class B < A {} B().m();")

theorem references_founded_redeclaring : ∃ set state,
    ((new {} false).after reassigning).moment 25 redeclaring .replLine = some (set, state) ∧
    Founded (initialStore (.still 0)) state.store ∧
    ∀ fuel ≥ 25, ∀ more, state.store.Fixed
      ((((new {} false).after reassigning).perform fuel (.run redeclaring .replLine)).2.after
        more).store := by
  have hsome : (((new {} false).after reassigning).moment 25 redeclaring
      .replLine).isSome = true := by
    decide +kernel
  obtain ⟨⟨set, state⟩, hmoment⟩ := Option.isSome_iff_exists.mp hsome
  obtain ⟨hfounded, _, hfixed, _⟩ := (references_founded {} false (.still 0) reassigning).2 25
    (.run redeclaring .replLine) redeclaring .replLine set state rfl hmoment
  exact ⟨set, state, hmoment, hfounded, hfixed⟩

end Session

end LoxMachine
