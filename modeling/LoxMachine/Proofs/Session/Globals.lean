import LoxMachine.Proofs.Machine.Whereabouts
import LoxMachine.Proofs.Session.Owners

/-!
# Isolated runs and the globals

A module with a top level of its own never runs code in the global environment, whatever
it calls.  So it binds no global, and it changes one only by an assignment that has no
depth.
-/

namespace LoxMachine

open Scope Store

/-- The machine is about to carry out an assignment to a global, of a node that has no
depth. -/
def State.AssignsGlobal (set : Setting) (s : State) (name : Bytes) (v : Value) : Prop :=
  ∃ id written rest, s.control = .value v ∧ s.frames = .assign id written :: rest ∧
    written.text = name ∧ set.depths.depth? id = none ∧
    s.owner set id name = .ok (some Session.globals)

/-- The machine does not run code in the global environment, nor will it go back to it. -/
def State.Abroad (s : State) : Prop :=
  s.Suits (· ≠ Session.globals) fun _ _ => True

variable {W : World} {R : Sites} {set : Setting} {s : State}

/-! ## Steps -/

theorem State.Abroad.advance (h : s.Abroad) (hsize : 0 < s.store.envs.size) :
    (LoxMachine.advance set s).Suits (· ≠ Session.globals) fun _ _ => True := by
  refine Suits.advance h (fun _ _ _ _ => ?_) fun closure env st henters _ => ?_
  · exact ⟨Nat.ne_of_gt hsize, fun _ _ => trivial⟩
  · refine ⟨?_, fun _ _ => trivial⟩
    cases henters with
    | function => exact Nat.ne_of_gt hsize
    | initializer => exact Nat.succ_ne_zero _

/-- An assignment with a depth is made in the environment of a layer. -/
theorem owner_ne_globals {base id owner : Nat} {Γ : List Layer} {name : Bytes}
    (hs : Sound W R s.store) (hchain : Chain W s.store base Γ s.env) {depth : Nat}
    (hdepth : set.depths.depth? id = some depth)
    (hlookup : Scope.lookup name (names Γ) = some depth)
    (howner : s.owner set id name = .ok (some owner)) : owner ≠ Session.globals := by
  obtain ⟨layer, hlayer, husable⟩ := lookup_eq_some hlookup
  obtain ⟨found, _, hclimb, _, horigin, hnames, _⟩ := hchain.climb hlayer
  obtain ⟨v, hat⟩ := Option.isSome_iff_exists.mp (hnames name husable)
  obtain rfl : found = owner := by
    simp only [State.owner, hdepth, bindingAt_eq_ok hclimb hat, Except.map] at howner
    exact Option.some.inj (Except.ok.inj howner)
  intro heq
  rw [heq, Session.globals, hs.root] at horigin
  cases horigin

/-- A step changes a global only by an assignment that has no depth, and only one that is
bound. -/
theorem globals_advance (hR : ∀ base site, R base site → site.Settled set.depths)
    (hvalid : Valid W R s) (habroad : s.Abroad) (name : Bytes) :
    (advance set s).state.store.at? Session.globals name =
        s.store.at? Session.globals name ∨
      ∃ v, s.AssignsGlobal set name v ∧ (s.store.at? Session.globals name).isSome ∧
        (advance set s).state.store.at? Session.globals name = some v := by
  have hnonempty := hvalid.store.nonempty
  rcases (effect_advance set s).at? hnonempty (fun _ => Ne.symm habroad.frames.here) name with
    hkept | ⟨id, written, v, rest, hcontrol, hframes, howner, hname, hstore⟩
  · exact .inl hkept
  · right
    obtain ⟨control, frames, env, depth, store, trace⟩ := s
    cases hcontrol
    cases hframes
    subst hname
    cases hvalid.poised with
    | value _ hstack =>
        cases hstack with
        | push hlink _ =>
            cases hlink with
            | assign hfits =>
                obtain ⟨base, Γ, hchain, _, hsites⟩ := hfits
                obtain ⟨hdepth, _⟩ := hR base _ (hsites _ List.mem_cons_self)
                refine ⟨v, ⟨id, written, rest, rfl, rfl, rfl, ?_, howner⟩, ?_, ?_⟩
                · cases hlookup : Scope.lookup written.text (names Γ) with
                  | none => exact hdepth.trans hlookup
                  | some depth =>
                      exact absurd rfl (owner_ne_globals hvalid.store hchain
                        (hdepth.trans hlookup) hlookup howner)
                · rcases owner_eq_ok hchain hdepth with ⟨hnone, _⟩ | ⟨found, old, hfound, _, hold⟩
                  · rw [howner] at hnone
                    cases hnone
                  · rw [howner] at hfound
                    cases hfound
                    exact Option.isSome_of_eq_some hold
                · rw [hstore, at?_define hnonempty, if_pos ⟨rfl, rfl⟩]

/-! ## Runs -/

/-- However long it goes on, a run abroad binds the globals that were bound before it, and
any that it changed has the value of an assignment without a depth. -/
theorem globals_run (hR : ∀ base site, R base site → site.Settled set.depths) (fuel : Nat)
    (hvalid : Valid W R s) (habroad : s.Abroad) (name : Bytes) :
    ((run set fuel s).2.store.at? Session.globals name).isSome =
        (s.store.at? Session.globals name).isSome ∧
      ((run set fuel s).2.store.at? Session.globals name ≠ s.store.at? Session.globals name →
        ∃ k < fuel, ∃ t v, run set k s = (none, t) ∧ t.AssignsGlobal set name v ∧
          (run set fuel s).2.store.at? Session.globals name = some v) := by
  induction fuel generalizing W s with
  | zero => exact ⟨rfl, fun hne => absurd rfl hne⟩
  | succ fuel ih =>
      have hglobals := globals_advance hR hvalid habroad name
      have hcontinues := continues_advance hR hvalid
      have habroad' := @State.Abroad.advance set s habroad hvalid.store.nonempty
      -- A change that the first step makes and the rest of the run leaves.
      have hfirst : ∀ {final : Store},
          final.at? Session.globals name =
            (advance set s).state.store.at? Session.globals name →
          (final.at? Session.globals name).isSome =
              (s.store.at? Session.globals name).isSome ∧
            (final.at? Session.globals name ≠ s.store.at? Session.globals name →
              ∃ k < fuel + 1, ∃ t v, run set k s = (none, t) ∧ t.AssignsGlobal set name v ∧
                final.at? Session.globals name = some v) := by
        intro final hfinal
        rw [hfinal]
        rcases hglobals with hkept | ⟨v, hassigns, hbound, hv⟩
        · exact ⟨congrArg Option.isSome hkept, fun hne => absurd hkept hne⟩
        · rw [hv, hbound]
          exact ⟨rfl, fun _ => ⟨0, Nat.succ_pos fuel, s, v, rfl, hassigns, rfl⟩⟩
      rw [run]
      cases hadvance : advance set s with
      | halt ending t =>
          rw [hadvance] at hfirst
          exact hfirst rfl
      | next t =>
          rw [hadvance] at hfirst hcontinues habroad'
          obtain ⟨W', _, _, hvalid'⟩ := hcontinues
          obtain ⟨hsame, hchanged⟩ := ih hvalid' habroad'
          dsimp only
          by_cases hrest : (run set fuel t).2.store.at? Session.globals name =
              t.store.at? Session.globals name
          · exact hfirst hrest
          · obtain ⟨k, hk, u, v, hrun, hassigns, hv⟩ := hchanged hrest
            refine ⟨?_, fun _ => ⟨k + 1, Nat.succ_lt_succ hk, u, v, ?_, hassigns, hv⟩⟩
            · rw [hsame]
              exact (@hfirst t.store rfl).1
            · rw [run, hadvance]
              exact hrun

namespace Session

/-! ## Requests -/

/-- After it has taken over what a run has left behind, a session only adds to its log. -/
theorem quiet_finish (s : Session) (src : Source) (ending : Option Ending) (final : State) :
    ({ s with store := final.store, trace := final.trace } : Session).Quiet
      (s.finish src ending final).2 := by
  unfold finish
  dsimp only
  split
  · exact quiet_log _ _ _
  · exact quiet_log _ _ _
  · exact Quiet.refl _
  · exact Quiet.refl _

theorem store_finish (s : Session) (src : Source) (ending : Option Ending) (final : State) :
    (s.finish src ending final).2.store = final.store :=
  (quiet_finish s src ending final).store

theorem lastId_finish (s : Session) (src : Source) (ending : Option Ending) (final : State) :
    (s.finish src ending final).2.lastId = s.lastId := by
  unfold finish
  dsimp only
  split
  · exact lastId_log _ _ _
  · exact lastId_log _ _ _
  · rfl
  · rfl

theorem store_runSource (s : Session) (fuel : Nat) (src : Source) (kind : ModuleKind) :
    (s.runSource fuel src kind).2.store = (s.eval fuel src kind).2.store := by
  unfold runSource
  split
  next heval => rw [heval]
  next heval =>
    rw [heval]
    rfl

theorem outcome_runSource (s : Session) (fuel : Nat) (src : Source) (kind : ModuleKind) :
    (s.runSource fuel src kind).1 = (s.eval fuel src kind).1 := by
  unfold runSource
  split
  next heval => rw [heval]
  next heval => rw [heval]

/-- A request with a text evaluates it, and may report how that failed. -/
theorem perform_eq_or (s : Session) (fuel : Nat) {request : Request} {src : Source}
    {kind : ModuleKind} (htext : request.text? = some (src, kind)) :
    s.perform fuel request = s.eval fuel src kind ∨
      s.perform fuel request = s.runSource fuel src kind := by
  cases request with
  | line text =>
      cases htext
      exact .inr rfl
  | eval src kind =>
      cases htext
      exact .inl rfl
  | run src kind =>
      cases htext
      exact .inr rfl
  | file host uri =>
      simp only [Request.text?] at htext
      simp only [perform, runFile]
      cases hread : host.read uri with
      | ok src =>
          rw [hread] at htext
          cases htext
          exact .inr rfl
      | error message =>
          rw [hread] at htext
          cases htext

/-- A request without a text is refused. -/
theorem perform_eq_outside (s : Session) (fuel : Nat) {request : Request}
    (htext : request.text? = none) :
    ∃ message, s.perform fuel request = (.error (.outside message), s.write message) := by
  cases request with
  | file host uri =>
      simp only [Request.text?] at htext
      simp only [perform, runFile]
      cases hread : host.read uri with
      | ok src =>
          rw [hread] at htext
          cases htext
      | error message => exact ⟨message, rfl⟩
  | _ => cases htext

/-- A request leaves behind the store of the evaluation of its text. -/
theorem store_perform (s : Session) (fuel : Nat) {request : Request} {src : Source}
    {kind : ModuleKind} (htext : request.text? = some (src, kind)) :
    (s.perform fuel request).2.store = (s.eval fuel src kind).2.store := by
  rcases s.perform_eq_or fuel htext with heq | heq
  · rw [heq]
  · rw [heq, store_runSource]

theorem store_perform_none (s : Session) (fuel : Nat) {request : Request}
    (htext : request.text? = none) : (s.perform fuel request).2.store = s.store := by
  obtain ⟨message, heq⟩ := s.perform_eq_outside fuel htext
  rw [heq]
  rfl

/-- A request ends like the evaluation of its text. -/
theorem outcome_perform (s : Session) (fuel : Nat) {request : Request} {src : Source}
    {kind : ModuleKind} (htext : request.text? = some (src, kind)) :
    (s.perform fuel request).1 = (s.eval fuel src kind).1 := by
  rcases s.perform_eq_or fuel htext with heq | heq
  · rw [heq]
  · rw [heq, outcome_runSource]

/-- An isolated module starts abroad. -/
theorem abroad_start (s : Session) {m : Module} (hkind : m.kind.isolated = true)
    (hsize : 0 < s.store.envs.size) : (s.start m).Abroad := by
  have henv : s.store.envs.size ≠ globals := Nat.ne_of_gt hsize
  rw [s.start_of_isolated hkind]
  exact ⟨fun _ _ => trivial, henv, fun _ _ => trivial, henv⟩

theorem kind_of_compile {s t : Session} {src : Source} {kind : ModuleKind} {c : Compiled}
    (hcompile : s.compile src kind = (.ok c, t)) : c.module.kind = kind := by
  obtain ⟨_, _, _, _, _, hkind, _⟩ := readsModule_of_compile hcompile
  exact hkind

/-- What an evaluation with an isolated kind does to the globals. -/
theorem Coherent.globals_eval {s : Session} {runs : List Run} (h : s.Coherent runs) (fuel : Nat)
    (src : Source) {kind : ModuleKind} (hkind : kind.isolated = true) (name : Bytes) :
    ((s.eval fuel src kind).2.store.at? globals name).isSome =
        (s.store.at? globals name).isSome ∧
      ((s.eval fuel src kind).2.store.at? globals name ≠ s.store.at? globals name →
        ∃ k < fuel, ∃ set state v, s.moment k src kind = some (set, state) ∧
          state.AssignsGlobal set name v ∧
          (s.eval fuel src kind).2.store.at? globals name = some v) := by
  cases hcompile : s.compile src kind with
  | mk outcome t =>
      have hquiet := (s.compile_spec src kind).1
      rw [hcompile] at hquiet
      cases outcome with
      | error failure =>
          have hstore : (s.eval fuel src kind).2.store = s.store := by
            rw [Session.eval, hcompile]
            exact hquiet.store
          rw [hstore]
          exact ⟨rfl, fun hne => absurd rfl hne⟩
      | ok c =>
          obtain ⟨hprepared, W, hvalid⟩ := h.launch hcompile
          let p := t.prepare src c
          have hmodule : c.module.kind.isolated = true := kind_of_compile hcompile ▸ hkind
          have hpstore : p.store = s.store := (prepare_store t src c).trans hquiet.store
          obtain ⟨W₀, hsound⟩ := h.store
          have hsize : 0 < p.store.envs.size := hpstore ▸ hsound.nonempty
          -- The environment of the module is new, so the globals are as they were.
          have hstart : (p.start c.module).store.at? globals name = s.store.at? globals name := by
            rw [p.start_of_isolated hmodule, ← hpstore]
            exact at?_newEnv_lt hsize _ _ name
          have hstore : (s.eval fuel src kind).2.store =
              (run p.setting fuel (p.start c.module)).2.store := by
            rw [Session.eval, hcompile]
            exact store_finish _ _ _ _
          obtain ⟨hsame, hchanged⟩ := globals_run hprepared.sites fuel hvalid
            (p.abroad_start hmodule hsize) name
          rw [hstore, ← hstart]
          refine ⟨hsame, fun hne => ?_⟩
          obtain ⟨k, hk, state, v, hrun, hassigns, hv⟩ := hchanged hne
          refine ⟨k, hk, p.setting, state, v, ?_, hassigns, hv⟩
          rw [Session.moment, hcompile]
          dsimp only
          rw [hrun]

/-- However an isolated module ends and whatever it calls, the globals that are bound after
it are those that were bound before it, and one that has another value was assigned to by
a node without a depth at some moment of the run. -/
theorem isolated_perform_globals (options : Options) (logging : Bool) (clock : Clock)
    (history : List (Request × Nat)) (request : Request) (fuel : Nat) {src : Source}
    {kind : ModuleKind} (htext : request.text? = some (src, kind))
    (hkind : kind.isolated = true) (name : Bytes) :
    ((((new options logging clock).after history).perform fuel request).2.store.at? globals
        name).isSome =
      (((new options logging clock).after history).store.at? globals name).isSome ∧
    ((((new options logging clock).after history).perform fuel request).2.store.at? globals
        name ≠ ((new options logging clock).after history).store.at? globals name →
      ∃ k < fuel, ∃ set state v,
        ((new options logging clock).after history).moment k src kind = some (set, state) ∧
        state.AssignsGlobal set name v ∧
        (((new options logging clock).after history).perform fuel request).2.store.at? globals
          name = some v) := by
  rw [store_perform _ fuel htext]
  exact ((coherent_new options logging clock).after history).globals_eval fuel src hkind name

/-- A line that declares a global and a function that assigns to it. -/
def finishing : Request × Nat :=
  (.line (utf8 "var done = false; fun finish() { done = true; }"), 20)

/-- A module that calls the function and declares a variable of the same name. -/
def finished : Source :=
  Source.ofSnippet (utf8 "finish(); var done = nil;")

theorem isolated_perform_globals_finished :
    ∃ k < 40, ∃ set state v,
      ((new {} false).after [finishing]).moment k finished .sourceFile = some (set, state) ∧
      state.AssignsGlobal set (utf8 "done") v ∧
      (((new {} false).after [finishing]).perform 40 (.eval finished .sourceFile)).2.store.at?
        globals (utf8 "done") = some v := by
  refine (isolated_perform_globals {} false (.still 0) [finishing] (.eval finished .sourceFile) 40
    rfl rfl (utf8 "done")).2 fun heq => ?_
  have htruthy := congrArg (Option.any Value.truthy) heq
  revert htruthy
  decide +kernel

end Session

end LoxMachine
