import LoxMachine.Proofs.Machine.Exits
import LoxMachine.Proofs.Placing.Programs
import LoxMachine.Proofs.Session.Calls

/-!
# Returns in sessions

In every run of every session a return stays in the call it is executed in: it ends that call
with its value, nothing of the body is executed after it, and no statement at the top of a
program comes to a return.
-/

namespace LoxMachine

open Scope

/-- A module that is resolved without a complaint breaks no rule. -/
theorem Scope.breaches_of_isClean {m : Module} {bag : Bag}
    (h : (resolve m bag).2.isClean = true) : breaches (moduleSpots m) = [] := by
  obtain ⟨found, hitems, hperm⟩ := reports_resolve m bag
  have hnone : found = [] := by
    refine List.eq_nil_iff_forall_not_mem.mpr fun b hb => ?_
    have hmem : b.diagnostic ∈ (resolve m bag).2.items.toList := by
      rw [hitems]
      exact List.mem_append_right _ (List.mem_map_of_mem hb)
    cases (Bag.isClean_iff _).mp h _ hmem
  rw [hnone] at hperm
  exact hperm.nil_eq.symm

namespace Session

variable {s t : Session} {fuel : Nat} {src : Source} {kind : ModuleKind} {set : Setting}
  {state : State}

theorem confined_start {m : Module} (h : ¬ Stmt.AnyReturns m.body) : (s.start m).Confined :=
  ⟨False.elim, fun hreturns => absurd hreturns h, trivial⟩

theorem confined_moment (hmoment : s.moment fuel src kind = some (set, state)) :
    state.Confined := by
  obtain ⟨c, t, hcompile, rfl, hrun⟩ := moment_eq_some hmoment
  have hclean := (parse_of_compile hcompile).2.2.2
  have hnone := not_anyReturns_of_breaches (breaches_of_isClean hclean)
  exact (confined_start hnone).reaches ⟨fuel, hrun⟩

/-- At every moment of every run: a return that passes up the frames is in a call; a statement
at the top of the program does not come to a return; and a return that is executed in a call,
however deep in blocks, branches and loops, ends that call with its value, or with the receiver
if that is the call of an initializer, and nothing of the body is executed any more. -/
theorem returns_end_calls (options : Options) (logging : Bool) (clock : Clock)
    (history : List (Request × Nat)) (fuel : Nat) (src : Source) (kind : ModuleKind)
    {set : Setting} {state : State}
    (hmoment : ((new options logging clock).after history).moment fuel src kind =
      some (set, state)) :
    (∀ v, state.control = .returning v → inCall state.frames = true) ∧
    (∀ stmt rest t v, state.control = .exec stmt → state.frames = [.program rest] →
      Concludes set state.frames state t → t.control ≠ .returning v) ∧
    ∀ c st waiting m u keyword value span, state.Invokes c st waiting →
      Lasts set waiting m state u → u.Within c waiting →
      u.control = .exec (.ret keyword value span) →
      (∀ k > m, ∀ x, Lasts set waiting k state x → x.Within c waiting → ¬ x.GoesOn) ∧
      ∀ t w, Concludes set waiting state t → t.control = .value w →
        ∃ v y, u.GivesBack set value v ∧ Reaches set u y ∧ y.control = .returning v ∧
          y.Within c waiting ∧ advance set y = .next t ∧
          (c.decl.kind ≠ .initializer → w = v) ∧
          (c.decl.kind = .initializer → y.store.getAt c.env 0 (utf8 "this") = .ok w) := by
  have hcoherent := (coherent_new options logging clock).after history
  obtain ⟨hR, W, hvalid⟩ := hcoherent.moment hmoment
  have hconfined := confined_moment hmoment
  refine ⟨fun v hcontrol => ?_, ?_, ?_⟩
  · exact hconfined.1 (by rw [hcontrol]; trivial)
  · intro stmt rest t v _ hframes hconcludes hreturning
    obtain ⟨n, hrun, hhands, _⟩ := hconcludes
    have hcall := (hconfined.reaches ⟨n, hrun⟩).1 (by rw [hreturning]; trivial)
    rw [hhands.1, hframes] at hcall
    cases hcall
  · intro c st waiting m u keyword value span _ hlasts hwithin hcontrol
    obtain ⟨W', hvalid'⟩ := hvalid.reached hR hlasts.1
    refine ⟨fun k hk x hx hxwithin => ?_, fun t w ht hvalue => ?_⟩
    · exact hvalid'.not_goesOn hlasts hwithin hcontrol hk hx hxwithin
    · exact hvalid'.ends_of_return hlasts hwithin hcontrol ht hvalue

/-- A function that returns from a branch in a loop, the second time round. -/
def returningLoop : Source := Source.ofSnippet
  (utf8 "fun f(a) { for (;; a = true) { if (a) { return a; } } } f(false);")

/-- The machine is about to call a function that comes to a value, and after as many steps of the
body it is about to execute a return of a value there. -/
def callsReturning (set : Setting) (m n : Nat) (s : State) : Bool :=
  match s.control, advance set { s with frames := [] } with
  | .call _ (.function ref) _, .next t =>
      (s.store.functions[ref]?).isSome && s.yieldsAfter set n &&
        match run set m { t with frames := [] } with
        | (none, ⟨.exec (.ret _ (some _) _), frames, _, _, _, _⟩) => !inCall frames
        | _ => false
  | _, _ => false

theorem exists_of_callsReturning {m n : Nat} (h : callsReturning set m n state = true) :
    ∃ c st u keyword e span t v, state.Invokes c st state.frames ∧
      Lasts set state.frames (m + 1) state u ∧ u.Within c state.frames ∧
      u.control = .exec (.ret keyword (some e) span) ∧ Concludes set state.frames state t ∧
      t.control = .value v := by
  unfold callsReturning at h
  split at h
  next range ref args t hcontrol hstep =>
    obtain ⟨hcalls, hreturns⟩ := Bool.and_eq_true_iff.mp h
    obtain ⟨hclosure, hyields⟩ := Bool.and_eq_true_iff.mp hcalls
    obtain ⟨c, hclosure⟩ := Option.isSome_iff_exists.mp hclosure
    obtain ⟨last, hlast, v, hvalue⟩ := State.exists_concludes_of_yieldsAfter hyields
    split at hreturns
    next keyword e span above env depth store trace hrun =>
      let own : State := ⟨.exec (.ret keyword (some e) span), above, env, depth, store, trace⟩
      have hnone : inCall above = false := by
        rw [← Bool.not_eq_true']
        exact hreturns
      have halone : State.Invokes { state with frames := [] } c _ [] := .function hcontrol hclosure
      rcases halone.next hstep with ⟨failure, hfailing, hframes⟩ | ⟨b, hruns, rfl⟩
      · let refused : State := { t with frames := [] }
        have hthrough : refused.Through := ⟨rfl, by simp only [refused, hfailing]⟩
        obtain ⟨ending, hhalt⟩ := hthrough.halts set
        have hown : refused = own := Reaches.eq_of_halt ⟨m, hrun⟩ hhalt
        have hcontrol : refused.control = own.control := congrArg State.control hown
        cases hfailing.symm.trans hcontrol
      · have hb : { b.onto [.activation state.env c] with frames := [] } = b := by
          rw [← hruns.frames]
          rfl
        rw [hb] at hrun
        have hbody : run set (m + 1) { state with frames := [] } =
            (none, own.onto [.activation state.env c]) := by
          rw [run, hstep]
          exact run_onto hrun _
        refine ⟨c, _, _, keyword, e, span, last, v, .function hcontrol hclosure,
          lasts_onto hbody state.frames, ⟨above, state.env, ?_, hnone⟩, rfl, hlast, hvalue⟩
        exact List.append_assoc _ _ _
    next => cases hreturns
  next => cases h

theorem returns_end_calls_loop : ∃ set state c st u keyword e span t v w,
    (new {} false).moment 9 returningLoop .replLine = some (set, state) ∧
    state.Invokes c st state.frames ∧ Lasts set state.frames 37 state u ∧
    u.Within c state.frames ∧ u.control = .exec (.ret keyword (some e) span) ∧
    u.GivesBack set (some e) v ∧ Concludes set state.frames state t ∧ t.control = .value w ∧
    (c.decl.kind ≠ .initializer → w = v) ∧
    ∀ k > 37, ∀ x, Lasts set state.frames k state x → x.Within c state.frames → ¬ x.GoesOn := by
  have hsome : (((new {} false).moment 9 returningLoop .replLine).any fun m =>
      callsReturning m.1 36 49 m.2) = true := by
    decide +kernel
  obtain ⟨⟨set, state⟩, hmoment, hcalls⟩ := (Option.any_eq_true _ _).mp hsome
  obtain ⟨c, st, u, keyword, e, span, t, w, hinvokes, hlasts, hwithin, hcontrol, ht, hvalue⟩ :=
    exists_of_callsReturning hcalls
  obtain ⟨_, _, hreturns⟩ := returns_end_calls {} false _ [] 9 returningLoop .replLine hmoment
  obtain ⟨hover, hends⟩ :=
    hreturns c st _ _ u keyword _ span hinvokes hlasts hwithin hcontrol
  obtain ⟨v, _, hgives, _, _, _, _, hsame, _⟩ := hends t w ht hvalue
  exact ⟨set, state, c, st, u, keyword, e, span, t, v, w, hmoment, hinvokes, hlasts, hwithin,
    hcontrol, hgives, ht, hvalue, hsame, hover⟩

end Session

end LoxMachine
