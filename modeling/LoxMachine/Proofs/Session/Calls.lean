import LoxMachine.Proofs.Machine.Activations
import LoxMachine.Proofs.Session.Owners

/-!
# Calls in sessions

In every run of every session, whatever is evaluated, executed or called comes to its outcome
where it began, however it ends.  The number of active calls is kept, never exceeds its bound,
and a call fails for it exactly at the bound.
-/

namespace LoxMachine.Session

open Scope Store

variable {s : Session} {fuel : Nat} {src : Source} {kind : ModuleKind} {set : Setting}
  {state : State}

theorem counted_start (s : Session) (m : Module) : (s.start m).Counted :=
  ⟨rfl, Nat.zero_le _⟩

theorem counted_moment (hmoment : s.moment fuel src kind = some (set, state)) :
    state.Counted := by
  obtain ⟨c, t, hcompile, rfl, hrun⟩ := moment_eq_some hmoment
  exact (counted_start (t.prepare src c) c.module).reaches ⟨fuel, hrun⟩

/-- At every moment of every run: what is begun lasts until it is concluded, is concluded in
the environment and with the number of active calls it began with, and has been concluded when
the run ends; the number of active calls is that of the frames of calls and at most 10000; and
a call of a function that takes the arguments overflows the stack exactly if 10000 calls are
active. -/
theorem calls_balanced (options : Options) (logging : Bool) (clock : Clock)
    (history : List (Request × Nat)) (fuel : Nat) (src : Source) (kind : ModuleKind)
    {set : Setting} {state : State}
    (hmoment : ((new options logging clock).after history).moment fuel src kind =
      some (set, state)) :
    (∀ waiting, state.Begins waiting →
      (∀ t, Concludes set waiting state t → t.env = state.env ∧ t.depth = state.depth) ∧
      (∀ n u, run set n state = (none, u) → u = state ∨ (∃ above, u.frames = above ++ waiting) ∨
        ∃ t, Concludes set waiting state t ∧ Reaches set t u) ∧
      ∀ n ending u, run set n state = (some ending, u) → ∃ t, Concludes set waiting state t) ∧
    (state.depth = activeCalls state.frames ∧ state.depth ≤ 10000) ∧
    ∀ c env st range f args, state.Enters c env st → state.control = .call range f args →
      (args.length < c.decl.arity → set.options.allowUnderApplication = true) →
      (c.decl.arity < args.length → set.options.allowOverApplication = true) →
      ((∃ t, advance set state = .next t ∧ t.control = .failing ⟨range, .stackOverflow⟩) ↔
        activeCalls state.frames = 10000) := by
  have hcoherent := (coherent_new options logging clock).after history
  obtain ⟨hR, W, hvalid⟩ := hcoherent.moment hmoment
  have hcounted := counted_moment hmoment
  refine ⟨fun waiting hbegins => ⟨?_, ?_, ?_⟩, hcounted, ?_⟩
  · intro t ht
    exact ht.restores hbegins
  · intro n u hrun
    exact hbegins.lasts hrun
  · intro n ending u hrun
    obtain ⟨hending, _⟩ := run_valid hR n hvalid
    rw [hrun] at hending
    exact hbegins.exists_concludes_of_halt hrun fun d hd => hending d (congrArg some hd)
  · intro c env st range f args henters hcontrol hunder hover
    have hdistinct := State.nodup_of_enters hR hvalid.1 henters
    exact hcounted.overflows_iff henters hcontrol hunder hover hdistinct

/-- A class whose initializer fails, in a protected call. -/
def failingInit : Source :=
  Source.ofSnippet (utf8 "class A { init() { -true; } } pcall(A);")

/-- The machine is about to call a class with an initializer. -/
def initializes (s : State) : Bool :=
  match s.control with
  | .call _ (.classRef cls) [] =>
      (s.store.method? cls (utf8 "init")).any fun init => init.decl.arity == 0
  | _ => false

theorem begins_of_initializes (h : initializes state = true) :
    state.Begins (.construct state.store.instances.size :: state.frames) ∧
      ∃ c env st range f, state.Enters c env st ∧ state.control = .call range f [] ∧
        c.decl.arity = 0 := by
  unfold initializes at h
  split at h
  next range cls hcontrol =>
      obtain ⟨init, hinit, harity⟩ := (Option.any_eq_true _ _).mp h
      exact ⟨.initializer hcontrol hinit, _, _, _, range, _, .initializer hcontrol hinit, hcontrol,
        beq_iff_eq.mp harity⟩
  next => cases h

theorem calls_balanced_failing : ∃ set state,
    (new {} false).moment 10 failingInit .replLine = some (set, state) ∧
    (∃ t, Concludes set (.construct state.store.instances.size :: state.frames) state t ∧
      t.env = state.env ∧ t.depth = state.depth) ∧
    state.depth = activeCalls state.frames ∧
    ∃ c env st range f, state.Enters c env st ∧ state.control = .call range f [] ∧
      ((∃ t, advance set state = .next t ∧ t.control = .failing ⟨range, .stackOverflow⟩) ↔
        activeCalls state.frames = 10000) := by
  have hsome : (((new {} false).moment 10 failingInit .replLine).any fun m =>
      initializes m.2 && decide ((run m.1 14 m.2).1 = some .finished)) = true := by
    decide +kernel
  obtain ⟨⟨set, state⟩, hmoment, hfacts⟩ := (Option.any_eq_true _ _).mp hsome
  obtain ⟨hinitializes, hfinished⟩ := Bool.and_eq_true_iff.mp hfacts
  obtain ⟨hbegins, c, env, st, range, f, henters, hcontrol, harity⟩ :=
    begins_of_initializes hinitializes
  obtain ⟨hbalanced, hcounted, hoverflows⟩ :=
    calls_balanced {} false (.still 0) [] 10 failingInit .replLine hmoment
  obtain ⟨hrestores, _, hconcludes⟩ := hbalanced _ hbegins
  obtain ⟨t, ht⟩ := hconcludes 14 .finished _ (Prod.ext (of_decide_eq_true hfinished) rfl)
  refine ⟨set, state, hmoment, ⟨t, ht, hrestores t ht⟩, hcounted.1, c, env, st, range, f,
    henters, hcontrol, hoverflows c env st range f [] henters hcontrol ?_ ?_⟩
  · intro hunder
    rw [harity] at hunder
    exact absurd hunder (Nat.not_lt_zero _)
  · intro hover
    rw [harity] at hover
    exact absurd hover (Nat.not_lt_zero _)

end LoxMachine.Session
