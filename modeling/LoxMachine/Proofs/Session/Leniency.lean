import LoxMachine.Proofs.Machine.Arguments
import LoxMachine.Proofs.Session.Failing
import LoxMachine.Proofs.Session.Output

/-!
# Leniency

Two of the options allow calls with too few or too many arguments.  They only matter where
a call would be refused without them: as long as none is, sessions with and without them go
on in the same way.  With them the arguments are evaluated and bound as ever, parameters
without an argument are `nil`, and natives still refuse.
-/

namespace LoxMachine

/-- The options, with leave to pass too few or too many arguments given or taken away. -/
def Options.allowing (options : Options) (fewer more : Bool) : Options :=
  { options with allowUnderApplication := fewer, allowOverApplication := more }

/-- The setting with options that allow fewer or more arguments. -/
def Setting.allowing (set : Setting) (fewer more : Bool) : Setting :=
  { set with options := set.options.allowing fewer more }

/-- The session with options that allow fewer or more arguments. -/
def Session.allowing (s : Session) (fewer more : Bool) : Session :=
  { s with options := s.options.allowing fewer more }

/-- Whether a call was refused for the number of its arguments. -/
def Cause.isArity : Cause → Bool
  | .tooFewArguments _ => true
  | .tooManyArguments _ => true
  | _ => false

namespace State

/-- Whether the machine has just refused a call for the number of its arguments, or still
passes that error on. -/
def refuses (s : State) : Bool :=
  match s.control with
  | .failing e => e.cause.isArity
  | _ => false

end State

/-! ## Steps -/

section Steps

variable {set : Setting} {s t : State} {fewer more : Bool}

/-- A check of arguments that finds no fault is passed under any options, and the fault it
finds is one of arity. -/
theorem arityCause?_strict (want got : Nat) (callee : Bytes) :
    State.arityCause? false false want got callee = none ∧
        (∀ fewer more, State.arityCause? fewer more want got callee = none) ∨
      ∃ cause, State.arityCause? false false want got callee = some cause ∧
        cause.isArity = true := by
  rcases Nat.lt_trichotomy got want with h | h | h
  · exact .inr ⟨.tooFewArguments callee, by simp [State.arityCause?, h], rfl⟩
  · subst h
    refine .inl ⟨?_, fun fewer more => ?_⟩ <;> simp [State.arityCause?]
  · exact .inr ⟨.tooManyArguments callee,
      by simp [State.arityCause?, h, Nat.not_lt_of_gt h], rfl⟩

/-- A step that does not end in the refusal of a call. -/
def Progress.Accepts (p : Progress) : Prop :=
  ∀ t, p = .next t → t.refuses = false

theorem not_accepts_fail {range : Range} {cause : Cause} (h : cause.isArity = true) :
    ¬ (s.fail range cause).Accepts := by
  intro haccepts
  have hrefuses := haccepts _ rfl
  cases h.symm.trans hrefuses

theorem enter_allowing {range : Range} {c : Closure} {args : List Value}
    (h : (s.enter (set.allowing false false) range c args).Accepts) :
    s.enter (set.allowing fewer more) range c args =
      s.enter (set.allowing false false) range c args := by
  unfold State.enter at h ⊢
  dsimp only [Setting.allowing, Options.allowing] at h ⊢
  rcases arityCause?_strict c.decl.arity args.length
    (Store.label (utf8 "fn") (some c.decl.name.text)) with ⟨hstrict, hany⟩ | ⟨cause, hcause, hkind⟩
  · rw [hstrict, hany]
    rfl
  · rw [hcause] at h
    exact absurd h (not_accepts_fail hkind)

theorem instantiate_allowing {range : Range} {cls : Nat} {args : List Value}
    (h : (s.instantiate (set.allowing false false) range cls args).Accepts) :
    s.instantiate (set.allowing fewer more) range cls args =
      s.instantiate (set.allowing false false) range cls args := by
  unfold State.instantiate at h ⊢
  dsimp only at h ⊢
  split at h
  next => exact enter_allowing h
  next =>
    dsimp only [Setting.allowing, Options.allowing] at h ⊢
    rcases arityCause?_strict 0 args.length
      ((s.store.newInstance cls).2.text (.classRef cls)) with ⟨hstrict, hany⟩ | ⟨cause, hcause, hkind⟩
    · rw [hstrict, hany]
    · rw [hcause] at h
      exact absurd h (not_accepts_fail hkind)

/-- A strict step that refuses no call is the same with leniency. -/
theorem advance_allowing (h : (advance (set.allowing false false) s).Accepts) :
    advance (set.allowing fewer more) s = advance (set.allowing false false) s := by
  obtain ⟨control, frames, env, depth, store, trace⟩ := s
  cases control with
  | call range callee args =>
      cases callee with
      | function ref =>
          simp only [advance, State.callValue] at h ⊢
          split at h
          next => exact enter_allowing h
          next => rfl
      | classRef cls => exact instantiate_allowing h
      | _ => rfl
  | eval e => cases e <;> rfl
  | exec stmt =>
      cases stmt with
      | var name init => cases init <;> rfl
      | ret keyword value => cases value <;> rfl
      | _ => rfl
  | run body => rfl
  | _ =>
      cases frames with
      | nil => rfl
      | cons frame frames => cases frame <;> rfl

/-- As long as no call is refused, the machine runs the same with leniency. -/
theorem run_allowing (n : Nat)
    (h : ∀ m ≤ n, ∀ t, run (set.allowing false false) m s = (none, t) → t.refuses = false) :
    run (set.allowing fewer more) n s = run (set.allowing false false) n s := by
  induction n generalizing s with
  | zero => rfl
  | succ n ih =>
      have haccepts : (advance (set.allowing false false) s).Accepts := by
        intro t ht
        exact h 1 (Nat.le_add_left 1 n) t (by rw [run, ht]; rfl)
      rw [run, run, advance_allowing haccepts]
      cases hstep : advance (set.allowing false false) s with
      | halt ending t => rfl
      | next t =>
          refine ih fun m hm u hu => h (m + 1) (Nat.succ_le_succ hm) u ?_
          rw [run, hstep]
          exact hu

end Steps

/-! ## Calls -/

namespace State

/-- How calls are made in a state. -/
structure Calls (set : Setting) (s : State) : Prop where
  /-- A call is made once its callee and then its arguments, from left to right, have yielded
  values, and is made with these. -/
  operands : ∀ callee args span, s.control = .eval (.call callee args span) → ∀ f vs t,
    Reaches set (s.alone s.control) (t.alone (.call span f vs)) ↔
      ∃ u, Yields set s callee f u ∧ YieldsAll set u args vs t
  /-- What waits for a call has no part in it. -/
  waiting : ∀ t, Reaches set (s.alone s.control) t → Reaches set s (t.onto s.frames)
  /-- A function or an initializer takes any number of arguments that the options allow, and
  binds them to its parameters in their order. -/
  parameters : ∀ range f args c env st, s.control = .call range f args → s.Enters c env st →
    (args.length < c.decl.arity → set.options.allowUnderApplication = true) →
    (c.decl.arity < args.length → set.options.allowOverApplication = true) →
    ∃ t, advance set s = .next t ∧
      if s.depth < maxDepth then t.Starts c args ∧ t.env = env ∧ t.store = st
      else t.control = .failing ⟨range, .stackOverflow⟩
  /-- A native takes what it wants and no other number of arguments. -/
  natives : ∀ range ref native args, s.control = .call range (.native ref) args →
    s.store.natives[ref]? = some native →
    (args.length < native.arity →
        advance set s = s.fail range (.tooFewArguments (s.store.text (.native ref)))) ∧
      (native.arity < args.length →
        advance set s = s.fail range (.tooManyArguments (s.store.text (.native ref))))

theorem calls_of_sound {W : World} {R : Sites} {set : Setting} {s : State}
    (hR : ∀ base site, R base site → site.Settled set.depths) (hs : Store.Sound W R s.store) :
    s.Calls set where
  operands callee args span hcontrol f vs t := by
    rw [hcontrol]
    exact reaches_call_iff
  waiting t ht := ht.onto s.frames
  parameters range f args c env st hcontrol henters hunder hover := by
    have hdistinct := nodup_of_enters hR hs henters
    split
    next hdepth => exact henters.starts hcontrol hunder hover hdepth hdistinct
    next hdepth => exact henters.overflows hcontrol hunder hover (Nat.le_of_not_lt hdepth)
  natives range ref native args hcontrol hnative := by
    rw [advance, hcontrol]
    exact callNative_refuses hnative

end State

/-! ## Sessions -/

namespace Session

variable {s : Session} {fewer more : Bool}

/-- At some step of a request a call is refused for the number of its arguments, whether
or not that is ever noticed. -/
def Refuses (s : Session) (fuel : Nat) (request : Request) : Prop :=
  ∃ src kind, request.text? = some (src, kind) ∧
    ∃ n ≤ fuel, ∃ set state, s.moment n src kind = some (set, state) ∧ state.refuses = true

/-- None of the requests ever refuses a call for the number of its arguments. -/
def NeverRefuses (s : Session) : List (Request × Nat) → Prop
  | [] => True
  | (request, fuel) :: later =>
      ¬ s.Refuses fuel request ∧ (s.perform fuel request).2.NeverRefuses later

theorem writeIf_allowing (s : Session) (wanted : Bool) (line : Unit → Bytes) :
    (s.allowing fewer more).writeIf wanted line = (s.writeIf wanted line).allowing fewer more := by
  unfold writeIf
  split <;> rfl

theorem log_allowing (s : Session) (message : Bytes) (attributes : List (Bytes × Bytes)) :
    (s.allowing fewer more).log message attributes =
      (s.log message attributes).allowing fewer more := by
  unfold log allowing
  dsimp only
  split <;> rfl

/-- Compiling has nothing to do with leniency. -/
theorem compile_allowing (s : Session) (src : Source) (kind : ModuleKind) :
    (s.allowing fewer more).compile src kind =
      ((s.compile src kind).1, (s.compile src kind).2.allowing fewer more) := by
  have hlast : ∀ (s : Session) lastId,
      ({ s.allowing fewer more with lastId := lastId } : Session) =
        ({ s with lastId := lastId } : Session).allowing fewer more := fun _ _ => rfl
  have hdumps : ∀ s : Session,
      (s.allowing fewer more).options.printTokens = s.options.printTokens ∧
      (s.allowing fewer more).options.printTree = s.options.printTree ∧
      (s.allowing fewer more).options.printLocals = s.options.printLocals := fun _ =>
    ⟨rfl, rfl, rfl⟩
  have hid : ∀ s : Session, (s.allowing fewer more).lastId = s.lastId := fun _ => rfl
  unfold compile
  simp only [hdumps, writeIf_allowing, hlast, hid, log_allowing]
  split
  · rfl
  · split
    · rfl
    · split
      · rfl
      · split <;> rfl

theorem finish_allowing (s : Session) (src : Source) (ending : Option Ending) (final : State) :
    (s.allowing fewer more).finish src ending final =
      ((s.finish src ending final).1, (s.finish src ending final).2.allowing fewer more) := by
  have hfinal : ({ s.allowing fewer more with
      store := final.store, trace := final.trace } : Session) =
        ({ s with store := final.store, trace := final.trace } : Session).allowing fewer more := rfl
  unfold finish
  simp only [hfinal, log_allowing]
  split <;> rfl

theorem prepare_allowing (s : Session) (src : Source) (c : Compiled) :
    (s.allowing fewer more).prepare src c = (s.prepare src c).allowing fewer more :=
  log_allowing ({ s with depths := s.depths.merge c.depths }) _ _

/-- A text that refuses no call is evaluated the same with leniency. -/
theorem eval_allowing {fuel : Nat} {src : Source} {kind : ModuleKind}
    (h : ∀ n ≤ fuel, ∀ set state,
      (s.allowing false false).moment n src kind = some (set, state) → state.refuses = false) :
    (s.allowing fewer more).eval fuel src kind =
      (((s.allowing false false).eval fuel src kind).1,
        ((s.allowing false false).eval fuel src kind).2.allowing fewer more) := by
  unfold moment at h
  unfold eval
  rw [compile_allowing] at h ⊢
  rw [compile_allowing]
  generalize s.compile src kind = result at h ⊢
  obtain ⟨outcome, t⟩ := result
  cases outcome with
  | error failure => rfl
  | ok c =>
      simp only [prepare_allowing] at h ⊢
      generalize t.prepare src c = p at h ⊢
      have hrun : run (p.allowing fewer more).setting fuel ((p.allowing fewer more).start c.module) =
          run (p.allowing false false).setting fuel ((p.allowing false false).start c.module) := by
        refine @run_allowing p.setting _ _ _ fuel fun n hn state hstate => h n hn
          (p.allowing false false).setting state ?_
        rw [show run (p.allowing false false).setting n ((p.allowing false false).start c.module) =
          (none, state) from hstate]
      rw [hrun, finish_allowing, finish_allowing]
      rfl

theorem runSource_allowing {fuel : Nat} {src : Source} {kind : ModuleKind}
    (h : ∀ n ≤ fuel, ∀ set state,
      (s.allowing false false).moment n src kind = some (set, state) → state.refuses = false) :
    (s.allowing fewer more).runSource fuel src kind =
      (((s.allowing false false).runSource fuel src kind).1,
        ((s.allowing false false).runSource fuel src kind).2.allowing fewer more) := by
  unfold runSource
  rw [eval_allowing h]
  generalize (s.allowing false false).eval fuel src kind = result
  obtain ⟨outcome, t⟩ := result
  cases outcome <;> rfl

/-- A request that refuses no call comes to the same with leniency. -/
theorem perform_allowing {fuel : Nat} {request : Request}
    (h : ¬ (s.allowing false false).Refuses fuel request) :
    (s.allowing fewer more).perform fuel request =
      (((s.allowing false false).perform fuel request).1,
        ((s.allowing false false).perform fuel request).2.allowing fewer more) := by
  have hmoments : ∀ {src kind}, request.text? = some (src, kind) →
      ∀ n ≤ fuel, ∀ set state, (s.allowing false false).moment n src kind = some (set, state) →
        state.refuses = false := by
    intro src kind htext n hn set state hmoment
    by_contra hrefuses
    exact h ⟨src, kind, htext, n, hn, set, state, hmoment, Bool.not_eq_false _ ▸ hrefuses⟩
  cases request with
  | line text => exact runSource_allowing (hmoments rfl)
  | eval src kind => exact eval_allowing (hmoments rfl)
  | run src kind => exact runSource_allowing (hmoments rfl)
  | file host uri =>
      simp only [perform, runFile]
      cases hread : host.read uri with
      | error message => rfl
      | ok src =>
          have htext : (Request.file host uri).text? = some (src, .sourceFile) := by
            rw [Request.text?, hread]
            rfl
          exact runSource_allowing (hmoments htext)

theorem allowing_of_options {t : Session} (h : t.options = s.options.allowing fewer more) :
    t.allowing fewer more = t := by
  obtain ⟨options, logging, lastId, depths, store, trace⟩ := t
  obtain rfl : options = _ := h
  rfl

/-- A strict session that never refuses a call can as well be lenient. -/
theorem answers_allowing {later : List (Request × Nat)}
    (h : (s.allowing false false).NeverRefuses later) :
    (s.allowing fewer more).answers later = (s.allowing false false).answers later ∧
      (s.allowing fewer more).after later =
        ((s.allowing false false).after later).allowing fewer more := by
  induction later generalizing s with
  | nil => exact ⟨rfl, rfl⟩
  | cons step later ih =>
      obtain ⟨request, fuel⟩ := step
      obtain ⟨hfirst, hlater⟩ := h
      have hperform := @perform_allowing s fewer more fuel request hfirst
      have hstrict := allowing_of_options
        ((s.allowing false false).shares_perform fuel request).options
      rw [← hstrict] at hlater
      obtain ⟨hanswers, hafter⟩ := ih hlater
      rw [hstrict] at hanswers hafter
      refine ⟨?_, ?_⟩
      · rw [answers, answers, answer, answer, hperform, hanswers]
        rfl
      · rw [after, after, hperform, hafter]

theorem moment_options {fuel : Nat} {src : Source} {kind : ModuleKind} {set : Setting}
    {state : State} (hmoment : s.moment fuel src kind = some (set, state)) :
    set.options = s.options := by
  have hquiet := (s.compile_spec src kind).1
  obtain ⟨c, t, hcompile, rfl, _⟩ := moment_eq_some hmoment
  rw [hcompile] at hquiet
  exact (quiet_prepare t src c).options.trans hquiet.options

/-! ## What leniency does -/

/-- With leave to pass fewer or more arguments, any session goes on as without for as long
as no call is refused for the number of its arguments, whether that is noticed or caught.
With and without leave, calls are made as they should be at every moment of every run. -/
theorem leniency_conservative (options : Options) (logging : Bool) (clock : Clock)
    (before : List (Request × Nat)) :
    let s := (new options logging clock).after before
    (∀ fewer more later, (s.allowing false false).NeverRefuses later →
      (s.allowing fewer more).answers later = (s.allowing false false).answers later ∧
        (s.allowing fewer more).after later =
          ((s.allowing false false).after later).allowing fewer more) ∧
    ∀ fuel src kind set state, s.moment fuel src kind = some (set, state) →
      set.options = options ∧ state.Calls set := by
  intro s
  have hcoherent := (coherent_new options logging clock).after before
  rw [List.append_nil] at hcoherent
  refine ⟨fun fewer more later h => answers_allowing h, ?_⟩
  intro fuel src kind set state hmoment
  obtain ⟨hR, W, hvalid⟩ := hcoherent.moment hmoment
  exact ⟨(moment_options hmoment).trans (shares_after _ before).options,
    State.calls_of_sound hR hvalid.1⟩

/-- Options that allow fewer and more arguments. -/
def lenient : Options := { allowUnderApplication := true, allowOverApplication := true }

/-- A line that calls a function with all its arguments, and a text that does not. -/
def partly : (Request × Nat) × Source :=
  ((.line (utf8 "fun f(a) { print a; } f(nil);"), 30),
    Source.ofSnippet (utf8 "fun f(a, b) { print b; } f(true);"))

/-- The state is a call of a function with parameters `a` and `b` and the one argument
`true`. -/
def callsPartly (s : State) : Bool :=
  match s.control with
  | .call _ (.function ref) [.bool true] =>
      match s.store.functions[ref]? with
      | some c => decide (c.decl.params.map (·.text) = [utf8 "a", utf8 "b"] ∧ s.depth < maxDepth)
      | none => false
  | _ => false

theorem leniency_conservative_partly :
    ((new {} false).allowing true true).answers [partly.1] =
        (new {} false).answers [partly.1] ∧
      ∃ set state t, (new lenient false).moment 9 partly.2 .replLine = some (set, state) ∧
        advance set state = .next t ∧
        t.store.at? t.env (utf8 "a") = some (.bool true) ∧
        t.store.at? t.env (utf8 "b") = some .nil := by
  constructor
  · have hmoments : ∀ n ≤ partly.1.2,
        (((new {} false).moment n (Source.ofSnippet (utf8 "fun f(a) { print a; } f(nil);"))
          .replLine).any fun m => m.2.refuses) = false := by
      decide +kernel
    have hnever : (new {} false).NeverRefuses [partly.1] := by
      refine ⟨?_, trivial⟩
      rintro ⟨src, kind, htext, n, hn, set, state, hmoment, hrefuses⟩
      cases htext
      have hmoments := hmoments n hn
      rw [hmoment, Option.any_some] at hmoments
      cases hrefuses.symm.trans hmoments
    exact ((leniency_conservative {} false (.still 0) []).1 true true [partly.1] hnever).1
  · have hsome : ((new lenient false).moment 9 partly.2 .replLine).any
        (fun m => callsPartly m.2) = true := by
      decide +kernel
    obtain ⟨⟨set, state⟩, hmoment, hcalls⟩ := (Option.any_eq_true _ _).mp hsome
    obtain ⟨hoptions, hmakes⟩ :=
      (leniency_conservative lenient false (.still 0) []).2 9 partly.2 .replLine set state hmoment
    unfold callsPartly at hcalls
    split at hcalls
    next hcontrol =>
      split at hcalls
      next c hclosure =>
        obtain ⟨hparams, hdepth⟩ := of_decide_eq_true hcalls
        obtain ⟨t, hstep, hstarts⟩ := hmakes.parameters _ _ _ c _ _ hcontrol
          (.function hcontrol hclosure) (fun _ => by rw [hoptions]; rfl)
          fun _ => by rw [hoptions]; rfl
        rw [if_pos hdepth] at hstarts
        have hbound := hstarts.1.bound
        obtain ⟨p, rest, hpq, hp, hrest⟩ := List.map_eq_cons_iff.mp hparams
        obtain ⟨q, none, rfl, hq, _⟩ := List.map_eq_cons_iff.mp hrest
        rw [hpq] at hbound
        exact ⟨set, state, t, hmoment, hstep, hp ▸ hbound 0 p rfl, hq ▸ hbound 1 q rfl⟩
      next => cases hcalls
    next => cases hcalls

end Session

end LoxMachine
