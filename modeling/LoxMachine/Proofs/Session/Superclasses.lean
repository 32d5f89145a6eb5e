import LoxMachine.Proofs.Machine.Dispatch
import LoxMachine.Proofs.Session.Globals

/-!
# Methods of superclasses

Whatever a session has run before, a `super` expression finds the method of the nearest
class from the superclass upwards that declares one, where the superclass is that of the
class the expression was written in, and binds it to the receiver of the running method.
-/

namespace LoxMachine

open Scope Store

/-- The methods of a class declaration of one of the modules. -/
def Run.Declares (runs : List Run) (methods : List Function) : Prop :=
  ∃ r ∈ runs, .cls methods ∈ Stmt.allFeatures r.module.body

/-- The classes of a store were declared by modules with proper initializers. -/
structure Store.Descended (st : Store) (runs : List Run) : Prop where
  initializers : ∀ methods, Run.Declares runs methods → Initializers methods
  heritage : Heritage (Run.Declares runs) st

variable {st : Store} {runs : List Run}

theorem Store.Descended.known (h : st.Descended runs) : Known (Run.Declares runs) where
  initializers := h.initializers
  nested methods f inner hmethods hf hinner := by
    obtain ⟨r, hr, hmem⟩ := hmethods
    exact ⟨r, hr, Stmt.closed_allFeatures r.module.body methods f _ hmem hf hinner rfl⟩

/-- One more module is started. -/
theorem Store.Descended.cons (h : st.Descended runs) {r : Run}
    (hr : ∀ methods, .cls methods ∈ Stmt.allFeatures r.module.body → Initializers methods) :
    st.Descended (r :: runs) where
  initializers := by
    rintro methods ⟨r', hr', hmem⟩
    rcases List.mem_cons.mp hr' with rfl | hr'
    · exact hr methods hmem
    · exact h.initializers methods ⟨r', hr', hmem⟩
  heritage := h.heritage.weaken fun _ ⟨r', hr', hmem⟩ => ⟨r', List.mem_cons_of_mem _ hr', hmem⟩

/-- At the top of a module nothing is written in a method. -/
theorem Store.Heritage.written_globals {D : List Function → Prop} (h : Heritage D st)
    {x : Feature} (hx : ∀ methods, x = .cls methods → D methods) :
    Written D st Session.globals x := by
  cases x with
  | super e =>
      intro t v hnearest
      have hroot : st.parent? Session.globals = none := by
        cases hparent : st.parent? Session.globals with
        | none => rfl
        | some p => exact absurd (h.older _ p hparent) (Nat.not_lt_zero p)
      have hthis : st.at? Session.globals (utf8 "this") = none := by
        cases hat : st.at? Session.globals (utf8 "this") with
        | none => rfl
        | some v =>
            obtain ⟨_, _, _, _, _, _, _, _, _, _, _, hparent⟩ := h.receivers _ v hat
            rw [hroot] at hparent
            cases hparent
      rw [Store.nearest?, search_succ, hthis, hroot] at hnearest
      cases hnearest
  | cls methods => exact hx methods rfl

namespace Session

variable {s t : Session}

/-! ## Running texts -/

theorem descended_initialStore {clock : Clock} : (initialStore clock).Descended [] where
  initializers := by
    rintro methods ⟨r, hr, _⟩
    cases hr
  heritage := by
    refine ⟨sound_initialStore.older, ?_, nofun, nofun, nofun, ?_, nofun, Nat.one_pos, rfl⟩
    · rintro cls parent ⟨k, hk, _⟩
      cases hk
    · intro t v hv
      cases t with
      | zero => cases hv
      | succ t => cases hv

/-- A module of a run starts with all code in order. -/
theorem orderly_start (h : s.store.Descended runs) {m : Module} {base : Nat}
    (hm : ⟨m, base⟩ ∈ runs) : (s.start m).Orderly (Run.Declares runs) := by
  have hwritten : ∀ x ∈ Stmt.allFeatures m.body,
      Written (Run.Declares runs) s.store globals x := by
    intro x hx
    refine h.heritage.written_globals fun methods heq => ?_
    exact ⟨_, hm, heq ▸ hx⟩
  have hglobals := h.heritage.globals
  by_cases hkind : m.kind.isolated = true
  · rw [s.start_of_isolated hkind]
    have hground : (s.store.newEnv (some globals) Bindings.empty).2.Ground s.store.envs.size :=
      ground_newEnv rfl
    refine ⟨h.heritage.newEnv hglobals.1 nofun, nofun, hground, ?_, hground⟩
    exact fun x hx => (hwritten x hx).newEnv h.heritage hglobals.1 rfl
  · rw [s.start_of_shared hkind]
    exact ⟨h.heritage, nofun, hglobals, hwritten, hglobals⟩

/-- The module of a text that compiles has proper initializers. -/
theorem initializers_of_compile {src : Source} {kind : ModuleKind} {c : Compiled}
    (hcompile : s.compile src kind = (.ok c, t)) :
    ∀ methods, .cls methods ∈ Stmt.allFeatures c.module.body → Initializers methods := by
  obtain ⟨_, _, _, _, hreads, _⟩ := readsModule_of_compile hcompile
  exact hreads.initializers

/-- The machine starts on a text that compiles with all code in order. -/
theorem orderly_of_compile (hd : s.store.Descended runs) {src : Source} {kind : ModuleKind}
    {c : Compiled} (hcompile : s.compile src kind = (.ok c, t)) :
    s.store.Descended (s.launch src kind ++ runs) ∧
      ((t.prepare src c).start c.module).Orderly (Run.Declares (s.launch src kind ++ runs)) := by
  have hquiet := (s.compile_spec src kind).1
  have hlaunch : s.launch src kind = [s.runOf c.module] := by
    rw [Session.launch, hcompile]
    rfl
  rw [hcompile] at hquiet
  rw [hlaunch]
  have hdescended : s.store.Descended ([s.runOf c.module] ++ runs) :=
    hd.cons (initializers_of_compile hcompile)
  have hstore : (t.prepare src c).store = s.store := (prepare_store t src c).trans hquiet.store
  have hprepared : (t.prepare src c).store.Descended ([s.runOf c.module] ++ runs) := by
    rw [hstore]
    exact hdescended
  exact ⟨hdescended, orderly_start hprepared List.mem_cons_self⟩

theorem Coherent.descended_eval (h : s.Coherent runs) (hd : s.store.Descended runs) (fuel : Nat)
    (src : Source) (kind : ModuleKind) :
    (s.eval fuel src kind).2.store.Descended (s.launch src kind ++ runs) := by
  cases hcompile : s.compile src kind with
  | mk outcome t =>
      cases outcome with
      | error failure =>
          have hquiet := (s.compile_spec src kind).1
          have hlaunch : s.launch src kind = [] := by rw [Session.launch, hcompile]
          rw [hcompile] at hquiet
          rw [hlaunch, Session.eval, hcompile]
          have hstore : t.store = s.store := hquiet.store
          exact hstore ▸ hd
      | ok c =>
          obtain ⟨hprepared, W, hvalid⟩ := h.launch hcompile
          obtain ⟨hdescended, horderly⟩ := orderly_of_compile hd hcompile
          have hstore : (s.eval fuel src kind).2.store = (LoxMachine.run (t.prepare src c).setting
              fuel ((t.prepare src c).start c.module)).2.store := by
            rw [Session.eval, hcompile]
            exact store_finish _ _ _ _
          rw [hstore]
          exact ⟨hdescended.initializers,
            (State.Orderly.run hdescended.known hprepared.sites fuel hvalid horderly).1⟩

theorem Coherent.descended_perform (h : s.Coherent runs) (hd : s.store.Descended runs)
    (fuel : Nat) (request : Request) :
    (s.perform fuel request).2.store.Descended (s.runs [(request, fuel)] ++ runs) := by
  simp only [Session.runs, List.nil_append]
  cases htext : request.text? with
  | some text =>
      obtain ⟨src, kind⟩ := text
      rw [store_perform s fuel htext]
      exact h.descended_eval hd fuel src kind
  | none => exact store_perform_none s fuel htext ▸ hd

/-- After any history the classes are in order. -/
theorem Coherent.descended_after (h : s.Coherent runs) (hd : s.store.Descended runs)
    (history : List (Request × Nat)) :
    (s.after history).store.Descended (s.runs history ++ runs) := by
  induction history generalizing s runs with
  | nil => exact hd
  | cons step history ih =>
      obtain ⟨request, fuel⟩ := step
      have hstep := ih (h.perform fuel request).2.2 (h.descended_perform hd fuel request)
      simpa only [Session.after, Session.runs, List.nil_append, List.append_assoc] using hstep

/-- What every text that is run keeps is kept by every request and by any history. -/
theorem Coherent.perform_of_eval {P : Store → Prop}
    (heval : ∀ {s : Session} {runs : List Run}, s.Coherent runs → s.store.Descended runs →
      P s.store → ∀ fuel src kind, P (s.eval fuel src kind).2.store)
    (h : s.Coherent runs) (hd : s.store.Descended runs) (hP : P s.store) (fuel : Nat)
    (request : Request) : P (s.perform fuel request).2.store := by
  cases htext : request.text? with
  | some text =>
      obtain ⟨src, kind⟩ := text
      rw [store_perform s fuel htext]
      exact heval h hd hP fuel src kind
  | none => exact store_perform_none s fuel htext ▸ hP

theorem Coherent.after_of_eval {P : Store → Prop}
    (heval : ∀ {s : Session} {runs : List Run}, s.Coherent runs → s.store.Descended runs →
      P s.store → ∀ fuel src kind, P (s.eval fuel src kind).2.store)
    (h : s.Coherent runs) (hd : s.store.Descended runs) (hP : P s.store)
    (history : List (Request × Nat)) : P (s.after history).store := by
  induction history generalizing s runs with
  | nil => exact hP
  | cons step history ih =>
      obtain ⟨request, fuel⟩ := step
      exact ih (h.perform fuel request).2.2 (h.descended_perform hd fuel request)
        (h.perform_of_eval heval hd hP fuel request)

/-- At every moment of a run the code is in order. -/
theorem Coherent.orderly_moment (h : s.Coherent runs) (hd : s.store.Descended runs) {fuel : Nat}
    {src : Source} {kind : ModuleKind} {set : Setting} {state : State}
    (hmoment : s.moment fuel src kind = some (set, state)) :
    Known (Run.Declares (s.launch src kind ++ runs)) ∧
      state.Orderly (Run.Declares (s.launch src kind ++ runs)) := by
  obtain ⟨c, t, hcompile, rfl, hstate⟩ := moment_eq_some hmoment
  obtain ⟨hprepared, W, hvalid⟩ := h.launch hcompile
  obtain ⟨hdescended, horderly⟩ := orderly_of_compile hd hcompile
  have hrun := (State.Orderly.run hdescended.known hprepared.sites fuel hvalid horderly).2
  rw [hstate] at hrun
  exact ⟨hdescended.known, hrun rfl⟩

end Session

/-! ## Finding methods -/

theorem Store.Line.lt {cls : Nat} {line : List Nat} (h : st.Line cls line) :
    ∀ i ∈ line, i < st.classes.size := by
  induction h with
  | top hcls _ =>
      intro i hi
      rw [List.mem_singleton.mp hi]
      exact (Array.getElem?_eq_some_iff.mp hcls).1
  | under hcls _ _ ih =>
      intro i hi
      rcases List.mem_cons.mp hi with rfl | hi
      · exact (Array.getElem?_eq_some_iff.mp hcls).1
      · exact ih i hi

/-- A class was made by a declaration of one of the modules: it has the last methods of
each name, and its initializers are the methods named `init`. -/
def Store.Declared (st : Store) (runs : List Run) (cls : Nat) : Prop :=
  ∃ k methods env, st.classes[cls]? = some k ∧ Run.Declares runs methods ∧
    Initializers methods ∧ k.MadeOf methods env

theorem Store.Descended.declared (h : st.Descended runs) {cls : Nat}
    (hcls : cls < st.classes.size) : st.Declared runs cls := by
  have hk := Array.getElem?_eq_getElem hcls
  obtain ⟨methods, env, hmethods, hmade, _⟩ := h.heritage.made cls _ hk
  exact ⟨_, methods, env, hk, hmethods, h.initializers methods hmethods, hmade⟩

/-- A step gives a method as a value, bound to an instance: its environment is that of the
method with one more scope, which holds the instance and nothing else. -/
def State.Gives (s : State) (c : Closure) (object : Nat) (p : Progress) : Prop :=
  ∃ s' ref env, p = .next s' ∧ s'.control = .value (.function ref) ∧ s'.frames = s.frames ∧
    s'.env = s.env ∧ s'.store.functions[ref]? = some ⟨c.decl, env⟩ ∧
    s'.store.parent? env = some c.env ∧
    ∀ n, s'.store.at? env n = if n = utf8 "this" then some (.objectRef object) else none

theorem State.gives_yieldMethod (s : State) (c : Closure) (object : Nat) :
    s.Gives c object (s.yieldMethod c object) := by
  refine ⟨_, s.store.functions.size, s.store.envs.size, rfl, rfl, rfl, rfl,
    Array.getElem?_push_size .., ?_, fun n => ?_⟩
  · have hparent := @parent?_newEnv s.store (some c.env)
      (Bindings.empty.set (utf8 "this") (.objectRef object)) s.store.envs.size
    rw [if_pos rfl] at hparent
    exact hparent
  · have hat := @at?_newEnv s.store (some c.env)
      (Bindings.empty.set (utf8 "this") (.objectRef object)) s.store.envs.size n
    rw [if_pos rfl] at hat
    apply hat.trans
    split
    next heq =>
      rw [heq]
      exact Bindings.get?_set_self ..
    next hne => exact Bindings.get?_set_ne _ hne _

/-- In a method of the class, bound to the instance, `super` gives the method of the nearest
class from the superclass upwards that declares one, bound to that instance; if there is
none, that is an error. -/
def State.FindsAbove (runs : List Run) (set : Setting) (s : State) (method : Name)
    (cls object : Nat) : Prop :=
  ∃ k parent line o, s.store.classes[cls]? = some k ∧ k.superclass = some parent ∧
    s.store.Line parent line ∧ (∀ i ∈ cls :: line, s.store.Declared runs i) ∧
    s.store.instances[object]? = some o ∧ s.store.Descends o.cls cls ∧
    match line.findSome? fun i => s.store.classes[i]?.bind fun k => k.own? method.text with
    | some c => s.Gives c object (advance set s)
    | none => advance set s = s.fail method.range (.undefinedProperty method.text)

theorem Store.Descended.findsAbove {W : World} {R : Sites} {set : Setting} {s : State}
    {id thisId cls object : Nat} {keyword span : Range} {method : Name}
    (h : s.store.Descended runs) (hR : ∀ base site, R base site → site.Settled set.depths)
    (hvalid : Valid W R s)
    (hcontrol : s.control = .eval (.super id thisId keyword method span))
    (hactive : s.store.Active s.env (.super id thisId keyword method span) cls object) :
    s.FindsAbove runs set method cls object := by
  obtain ⟨k, parent, o, depth, hk, hparent, ho, hdescends, hthis, hsuper, hreceiver, hclass⟩ :=
    hactive.super hR hvalid h.heritage hcontrol
  have hcls := (Array.getElem?_eq_some_iff.mp hk).1
  have hlt := Nat.lt_trans (h.heritage.order cls parent ⟨k, hk, hparent⟩) hcls
  obtain ⟨line, hline⟩ := exists_line h.heritage.order hlt
  have hstep : advance set s =
      match s.store.method? parent method.text with
      | some c => s.yieldMethod c object
      | none => s.fail method.range (.undefinedProperty method.text) := by
    rw [advance, hcontrol]
    cases hmethod : s.store.method? parent method.text <;>
      simp only [State.eval, State.evalSuper, hthis, hsuper, hreceiver, hclass, hmethod]
  refine ⟨k, parent, line, o, hk, hparent, hline, ?_, ho, hdescends, ?_⟩
  · intro i hi
    rcases List.mem_cons.mp hi with rfl | hi
    · exact h.declared hcls
    · exact h.declared (hline.lt i hi)
  · rw [method?_eq_findSome? h.heritage.order hline] at hstep
    split
    next c hc =>
      rw [hstep, hc]
      exact s.gives_yieldMethod c object
    next hnone => rw [hstep, hnone]

namespace Session

/-- Whenever `super` is evaluated, in any run of any session, it stands in a method of a
class, which is bound to an instance; and in whatever class and for whatever instance that
is so, it finds the method above that class and binds it to that instance. -/
theorem super_findsAbove (options : Options) (logging : Bool) (clock : Clock)
    (history : List (Request × Nat)) (fuel : Nat) (src : Source) (kind : ModuleKind)
    {set : Setting} {state : State} {id thisId : Nat} {keyword span : Range} {method : Name}
    (hmoment : ((new options logging clock).after history).moment fuel src kind =
      some (set, state))
    (hcontrol : state.control = .eval (.super id thisId keyword method span)) :
    (∃ cls object,
      state.store.Active state.env (.super id thisId keyword method span) cls object) ∧
    ∀ cls object,
      state.store.Active state.env (.super id thisId keyword method span) cls object →
      state.FindsAbove (((new options logging clock).after history).launch src kind ++
        (new options logging clock).runs history) set method cls object := by
  have hnew := coherent_new options logging clock
  have hcoherent := hnew.after history
  have hdescended := hnew.descended_after descended_initialStore history
  rw [List.append_nil] at hcoherent hdescended
  obtain ⟨hR, W, hvalid⟩ := hcoherent.moment hmoment
  obtain ⟨hknown, horderly⟩ := hcoherent.orderly_moment hdescended hmoment
  refine ⟨horderly.exists_active hR hvalid hcontrol, fun cls object hactive => ?_⟩
  have hstate : state.store.Descended _ := ⟨hknown.initializers, horderly.store⟩
  exact hstate.findsAbove hR hvalid hcontrol hactive

/-- A method that calls the one it overrides, for an instance of a class below its own. -/
def overriding : Source :=
  Source.ofSnippet
    (utf8 "class A { m() {} } class B < A { m() { super.m(); } } class C < B {} C().m();")

theorem super_findsAbove_overriding : ∃ set state id thisId keyword method span cls object,
    (new {} false).moment 20 overriding .sourceFile = some (set, state) ∧
    state.control = .eval (.super id thisId keyword method span) ∧
    state.store.Active state.env (.super id thisId keyword method span) cls object ∧
    state.FindsAbove ((new {} false).launch overriding .sourceFile ++ []) set method cls
      object := by
  have hsuper : (((new {} false).moment 20 overriding .sourceFile).any fun m =>
      match m.2.control with
      | .eval (.super _ _ _ _ _) => true
      | _ => false) = true := by
    decide +kernel
  obtain ⟨⟨set, state⟩, hmoment, hcontrol⟩ := (Option.any_eq_true _ _).mp hsuper
  dsimp only at hcontrol
  split at hcontrol
  next id thisId keyword method span heq =>
    obtain ⟨⟨cls, object, hactive⟩, hfinds⟩ :=
      super_findsAbove {} false (.still 0) [] 20 overriding .sourceFile hmoment heq
    exact ⟨set, state, id, thisId, keyword, method, span, cls, object, hmoment, heq, hactive,
      hfinds cls object hactive⟩
  next => cases hcontrol

end Session

end LoxMachine
