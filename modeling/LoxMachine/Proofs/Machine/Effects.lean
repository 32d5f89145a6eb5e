import LoxMachine.Proofs.Machine.Safety

/-!
# What a step does to the store

Most steps leave the store alone.  The others declare a name, assign to a variable, set
a field, look at the clock, or make an environment, a function, a class or an instance;
each of them is told here by what the machine was about to do.
-/

namespace LoxMachine

open Store

/-- Methods are found by the classes alone. -/
theorem Store.searchMethod_congr {st st' : Store} (h : st'.classes = st.classes) (name : Bytes)
    (steps cls : Nat) : st'.searchMethod name steps cls = st.searchMethod name steps cls := by
  induction steps generalizing cls with
  | zero => rfl
  | succ steps ih => simp only [searchMethod, h, ih]

theorem Store.at?_define_ne {st : Store} {env o : Nat} {name : Bytes} {v : Value} (h : o ≠ env)
    (n : Bytes) : (st.define env name v).at? o n = st.at? o n := by
  unfold at? define
  rw [Array.getElem?_modify, if_neg (Ne.symm h)]

theorem Store.at?_newEnv_lt {st : Store} {o : Nat} (h : o < st.envs.size) (parent : Option Nat)
    (vars : Bindings Value) (n : Bytes) :
    (st.newEnv parent vars).2.at? o n = st.at? o n := by
  rw [at?_newEnv, if_neg (Nat.ne_of_lt h)]

theorem Store.method?_newInstance (st : Store) (made cls : Nat) (name : Bytes) :
    (st.newInstance made).2.method? cls name = st.method? cls name := by
  have hclasses : (st.newInstance made).2.classes = st.classes := rfl
  exact searchMethod_congr hclasses name (cls + 1) cls

/-- The state that a step leads to, be it the last one or not. -/
def Progress.state : Progress → State
  | .next s => s
  | .halt _ s => s

namespace State

variable {s : State} {set : Setting}

@[simp] theorem state_proceed (s : State) (control : Control) :
    (s.proceed control).state = { s with control := control } := rfl

/-- The class that a declaration makes, with its methods in `env`. -/
def classOf (name : Bytes) (superclass : Option Nat) (env : Nat) (methods : List Function) :
    Class :=
  ⟨name, superclass, (collectMethods env methods none Bindings.empty).1,
    (collectMethods env methods none Bindings.empty).2⟩

/-- Binds a method to an instance and keeps it as a function. -/
def storeMethod (st : Store) (method : Closure) (object : Nat) : Store :=
  ((st.bindMethod method object).2.newFunction (st.bindMethod method object).1).2

/-- Makes the environment of a call. -/
def storeCall (st : Store) (closure : Closure) (args : List Value) : Store :=
  (st.newEnv (some closure.env) (bindParams closure.decl.params args Bindings.empty)).2

/-- The machine is about to bind a name in the current environment, with this value. -/
inductive Declares (s : State) : Name → Value → Prop where
  | unset {name span} (hcontrol : s.control = .exec (.var name none span)) :
      Declares s name .nil
  | value {name v rest} (hcontrol : s.control = .value v)
      (hframes : s.frames = .declare name :: rest) : Declares s name v
  | unfinished {name parent methods span}
      (hcontrol : s.control = .exec (.classDecl name (some parent) methods span)) :
      Declares s name .nil

/-- The machine executes a statement or binds a name in the current environment. -/
def Declaring (s : State) : Prop :=
  (∃ stmt, s.control = .exec stmt) ∨ ∃ name v, s.Declares name v

/-- The machine is about to bind a method to an instance. -/
inductive Binds (set : Setting) (s : State) : Closure → Nat → Prop where
  | property {object rest o} {name : Name} {method : Closure}
      (hcontrol : s.control = .value (.objectRef object)) (hframes : s.frames = .get name :: rest)
      (hobject : s.store.instances[object]? = some o)
      (hmethod : s.store.method? o.cls name.text = some method) : Binds set s method object
  | super {id thisId keyword span depth thisDepth cls object} {name : Name} {method : Closure}
      (hcontrol : s.control = .eval (.super id thisId keyword name span))
      (hdepth : set.depths.depth? id = some depth)
      (hthisDepth : set.depths.depth? thisId = some thisDepth)
      (hclass : s.store.getAt s.env depth (utf8 "super") = .ok (.classRef cls))
      (hthis : s.store.getAt s.env thisDepth (utf8 "this") = .ok (.objectRef object))
      (hmethod : s.store.method? cls name.text = some method) : Binds set s method object

/-- The stores that a step can lead to. -/
inductive Effect (set : Setting) (s : State) : Store → Prop where
  | none : Effect set s s.store
  | declare {name : Name} {v} (h : s.Declares name v) :
      Effect set s (s.store.define s.env name.text v)
  | assign {id name v rest owner} (hcontrol : s.control = .value v)
      (hframes : s.frames = .assign id name :: rest)
      (howner : s.owner set id name.text = .ok (some owner)) :
      Effect set s (s.store.define owner name.text v)
  | field {object v rest} {name : Name} (hcontrol : s.control = .value v)
      (hframes : s.frames = .field object name :: rest) :
      Effect set s (s.store.setField object name.text v)
  | block {body span} (hcontrol : s.control = .exec (.block body span)) :
      Effect set s (s.store.newEnv (some s.env) Bindings.empty).2
  | function {decl} (hcontrol : s.control = .exec (.function decl)) :
      Effect set s ((s.store.newFunction ⟨decl, s.env⟩).2.define s.env decl.name.text
        (.function s.store.functions.size))
  | plainClass {name methods span}
      (hcontrol : s.control = .exec (.classDecl name none methods span)) :
      Effect set s (((s.store.define s.env name.text .nil).newClass
        (classOf name.text none s.env methods)).2.define s.env name.text
          (.classRef s.store.classes.size))
  | subclass {name parent methods span ref}
      (hcontrol : s.control = .exec (.classDecl name (some parent) methods span))
      (hparent : (s.define name.text .nil).lookup set parent.id parent.name.text =
        .ok (some (.classRef ref))) :
      Effect set s ((((s.store.define s.env name.text .nil).newEnv (some s.env)
        (Bindings.empty.set (utf8 "super") (.classRef ref))).2.newClass
          (classOf name.text (some ref) s.store.envs.size methods)).2.define s.env name.text
            (.classRef s.store.classes.size))
  | bind {method object} (h : s.Binds set method object) :
      Effect set s (storeMethod s.store method object)
  | call {range ref args closure} (hcontrol : s.control = .call range (.function ref) args)
      (hclosure : s.store.functions[ref]? = some closure) :
      Effect set s (storeCall s.store closure args)
  | look (hlooks : s.looks = true) : Effect set s s.store.tick
  | object {range cls args} (hcontrol : s.control = .call range (.classRef cls) args) :
      Effect set s (s.store.newInstance cls).2
  | unstarted {range cls args init} (hcontrol : s.control = .call range (.classRef cls) args)
      (hinit : s.store.method? cls (utf8 "init") = some init) :
      Effect set s ((s.store.newInstance cls).2.bindMethod init s.store.instances.size).2
  | initializer {range cls args init} (hcontrol : s.control = .call range (.classRef cls) args)
      (hinit : s.store.method? cls (utf8 "init") = some init) :
      Effect set s (storeCall
        ((s.store.newInstance cls).2.bindMethod init s.store.instances.size).2
        ⟨init.decl, s.store.envs.size⟩ args)

/-! ## Steps that look at the store -/

theorem store_enter (s : State) (set : Setting) (range : Range) (closure : Closure)
    (args : List Value) :
    (s.enter set range closure args).state.store = s.store ∨
      (s.enter set range closure args).state.store = storeCall s.store closure args := by
  unfold enter
  dsimp only
  split
  next => exact .inl rfl
  next =>
    split
    next => exact .inl rfl
    next =>
      right
      simp only [Progress.state, storeCall, log_store]

theorem store_leave (s : State) (saved : Nat) (closure : Closure) (v : Value) :
    (s.leave saved closure v).state.store = s.store := by
  unfold leave
  dsimp only
  split
  · split <;> rfl
  · rfl

theorem store_callNative (s : State) (range : Range) (ref : Nat) (args : List Value) :
    (s.callNative range ref args).state.store = s.store ∨
      (s.store.natives[ref]?.any fun native => native.name = utf8 "clock") = true ∧
        (s.callNative range ref args).state.store = s.store.tick := by
  unfold callNative
  split
  · exact .inl rfl
  next native hnative =>
    split
    · exact .inl rfl
    · split
      next hclock =>
        rw [hnative, Option.any_some]
        exact .inr ⟨decide_eq_true hclock, rfl⟩
      · left
        split
        · split
          · split <;> rfl
          · rfl
        · rfl

theorem effect_callValue {range : Range} {callee : Value} {args : List Value}
    (hcontrol : s.control = .call range callee args) :
    Effect set s (s.callValue set range callee args).state.store := by
  cases callee with
  | function ref =>
      unfold callValue
      dsimp only
      split
      next closure hclosure =>
        rcases store_enter s set range closure args with h | h
        · rw [h]
          exact .none
        · rw [h]
          exact .call hcontrol hclosure
      next => exact .none
  | native ref =>
      rw [callValue]
      rcases store_callNative s range ref args with h | ⟨hclock, h⟩
      · rw [h]
        exact .none
      · rw [h]
        refine .look ?_
        rw [State.looks, hcontrol]
        exact hclock
  | classRef cls =>
      unfold callValue instantiate
      dsimp only
      split
      next init hinit =>
        rw [method?_newInstance] at hinit
        rcases store_enter { s with
            store := ((s.store.newInstance cls).2.bindMethod init s.store.instances.size).2
            frames := .construct s.store.instances.size :: s.frames }
          set range ⟨init.decl, s.store.envs.size⟩ args with h | h
        · have hstore : Effect set s _ := .unstarted hcontrol hinit
          exact h ▸ hstore
        · have hstore : Effect set s _ := .initializer hcontrol hinit
          exact h ▸ hstore
      next =>
        split
        · exact .object hcontrol
        · exact .object hcontrol
  | _ => exact .none

theorem effect_execClass {name : Name} {superclass : Option Superclass}
    {methods : List Function} {span : Range}
    (hcontrol : s.control = .exec (.classDecl name superclass methods span)) :
    Effect set s (s.execClass set name superclass methods).state.store := by
  cases superclass with
  | none => exact .plainClass hcontrol
  | some parent =>
      have hunfinished : Effect set s (s.store.define s.env name.text .nil) :=
        .declare (.unfinished hcontrol)
      unfold execClass
      dsimp only
      split
      next => exact hunfinished
      next => exact hunfinished
      next ref hparent =>
        have hsize : ((s.define name.text .nil).store).envs.size = s.store.envs.size := size_define
        have hstore : Effect set s _ := .subclass hcontrol hparent
        rw [← hsize] at hstore
        exact hstore
      next => exact hunfinished

theorem effect_eval {e : Expr} (hcontrol : s.control = .eval e) :
    Effect set s (s.eval set e).state.store := by
  have hvariable : ∀ id name, Effect set s (s.evalVariable set id name).state.store := by
    intro id name
    unfold evalVariable
    split <;> exact .none
  cases e with
  | var id name => exact hvariable id name
  | this id keyword => exact hvariable id _
  | super id thisId keyword method span =>
      unfold eval evalSuper
      dsimp only
      split
      next => exact .none
      next => exact .none
      next depth thisDepth hdepth hthisDepth =>
        split
        next => exact .none
        next => exact .none
        next cls object hclass hthis =>
          split
          next closure hmethod =>
            exact .bind (.super hcontrol hdepth hthisDepth hclass hthis hmethod)
          next => exact .none
        next => exact .none
        next => exact .none
  | _ => exact .none

theorem effect_exec {stmt : Stmt} (hcontrol : s.control = .exec stmt) :
    Effect set s (s.exec set stmt).state.store := by
  cases stmt with
  | var name init span =>
      cases init with
      | none => exact .declare (.unset hcontrol)
      | some init => exact .none
  | block body span => exact .block hcontrol
  | ret keyword value span => cases value <;> exact .none
  | function decl => exact .function hcontrol
  | classDecl name superclass methods span => exact effect_execClass hcontrol
  | _ => exact .none

/-- What a value does to the store, once the frame that waited for it is taken off. -/
theorem effect_receive {v : Value} {frame : Frame} {rest : List Frame}
    (hcontrol : s.control = .value v) (hframes : s.frames = frame :: rest) :
    Effect set s (({ s with frames := rest } : State).receive set v frame).state.store := by
  cases frame with
  | assign id name =>
      rw [receive, assignVariable]
      dsimp only
      split
      next => exact .none
      next owner howner => exact .assign hcontrol hframes howner
      next => exact .none
  | unary op span =>
      rw [receive]
      unfold settle
      split <;> exact .none
  | right op left span =>
      rw [receive]
      unfold settle
      split <;> exact .none
  | logical op right =>
      cases op with
      | and =>
          rw [receive]
          split <;> exact .none
      | or =>
          rw [receive]
          split <;> exact .none
  | callee args span => cases args <;> exact .none
  | argument callee before rest span => cases rest <;> exact .none
  | get name =>
      cases v with
      | objectRef object =>
          rw [receive, getProperty]
          dsimp only
          split
          next => exact .none
          next o hobject =>
            split
            next => exact .none
            next =>
              split
              next method hmethod => exact .bind (.property hcontrol hframes hobject hmethod)
              next => exact .none
      | _ => exact .none
  | target name value => cases v <;> exact .none
  | field object name => exact .field hcontrol hframes
  | print =>
      rw [receive]
      split <;> exact .none
  | assert range =>
      rw [receive]
      split <;> exact .none
  | assertRight left range =>
      rw [receive]
      split <;> exact .none
  | branch thenBranch elseBranch =>
      cases elseBranch with
      | none =>
          rw [receive]
          split <;> exact .none
      | some elseBranch =>
          rw [receive]
          split <;> exact .none
  | test test body =>
      rw [receive]
      split <;> exact .none
  | declare name => exact .declare (.value hcontrol hframes)
  | _ => exact .none

theorem store_complete (s : State) (frame : Frame) : (s.complete frame).state.store = s.store := by
  cases frame with
  | activation saved closure => exact store_leave s saved closure .nil
  | program rest => cases rest <;> rfl
  | _ => rfl

theorem store_unwind (s : State) (v : Value) (frame : Frame) :
    (s.unwind v frame).state.store = s.store := by
  cases frame with
  | activation saved closure => exact store_leave s saved closure v
  | _ => rfl

theorem store_raise (s : State) (set : Setting) (e : RuntimeError) (frame : Frame) :
    (s.raise set e frame).state.store = s.store := by
  cases frame with
  | protect => exact log_store s set _
  | _ => rfl

end State

/-- An environment changes by assignments alone, unless it is the current one and the machine
declares something. -/
theorem State.Effect.at? {set : Setting} {s : State} {st' : Store} (h : s.Effect set st')
    {o : Nat} (ho : o < s.store.envs.size) (hother : s.Declaring → o ≠ s.env) (n : Bytes) :
    st'.at? o n = s.store.at? o n ∨
      ∃ id name v rest, s.control = .value v ∧ s.frames = .assign id name :: rest ∧
        s.owner set id name.text = .ok (some o) ∧ name.text = n ∧
        st' = s.store.define o n v := by
  cases h with
  | none => exact .inl rfl
  | declare h => exact .inl (at?_define_ne (hother (.inr ⟨_, _, h⟩)) n)
  | @assign id name v rest owner hcontrol hframes howner =>
      by_cases heq : o = owner ∧ n = name.text
      · obtain ⟨rfl, rfl⟩ := heq
        exact .inr ⟨id, name, v, rest, hcontrol, hframes, howner, rfl, rfl⟩
      · left
        by_cases howned : o = owner
        · rw [howned] at ho ⊢
          rw [at?_define ho, if_neg fun h => heq ⟨howned, h.2⟩]
        · exact at?_define_ne howned n
  | field | look => exact .inl rfl
  | block => exact .inl (at?_newEnv_lt ho _ _ n)
  | function hcontrol =>
      have hother := hother (.inl ⟨_, hcontrol⟩)
      left
      rw [at?_define_ne hother]
      rfl
  | plainClass hcontrol =>
      have hother := hother (.inl ⟨_, hcontrol⟩)
      left
      rw [at?_define_ne hother]
      exact at?_define_ne hother n
  | @subclass name _ _ _ ref hcontrol _ =>
      have hother := hother (.inl ⟨_, hcontrol⟩)
      left
      rw [at?_define_ne hother]
      have hkept : ((s.store.define s.env name.text .nil).newEnv (some s.env)
          (Bindings.empty.set (utf8 "super") (.classRef ref))).2.at? o n = s.store.at? o n := by
        have hsize : o < (s.store.define s.env name.text .nil).envs.size := by rwa [size_define]
        rw [at?_newEnv_lt hsize, at?_define_ne hother]
      exact hkept
  | bind => exact .inl (at?_newEnv_lt ho _ _ n)
  | call => exact .inl (at?_newEnv_lt ho _ _ n)
  | object => exact .inl rfl
  | @unstarted _ cls _ _ _ _ =>
      exact .inl (@at?_newEnv_lt (s.store.newInstance cls).2 o ho _ _ n)
  | @initializer _ cls _ init _ _ =>
      left
      have hkept : ((s.store.newInstance cls).2.bindMethod init
          s.store.instances.size).2.at? o n = s.store.at? o n :=
        @at?_newEnv_lt (s.store.newInstance cls).2 o ho _ _ n
      refine (at?_newEnv_lt ?_ _ _ n).trans hkept
      exact Nat.lt_of_lt_of_le ho (@extends_newEnv (s.store.newInstance cls).2 _ _).size

/-- No step takes an environment away. -/
theorem State.Effect.size_le {set : Setting} {s : State} {st' : Store} (h : s.Effect set st') :
    s.store.envs.size ≤ st'.envs.size := by
  have hmade : ∀ (st : Store) parent vars, st.envs.size ≤ (st.newEnv parent vars).2.envs.size :=
    fun _ parent vars => (extends_newEnv parent vars).size
  cases h with
  | none | field | look | object => exact Nat.le_refl _
  | declare | assign | function => exact Nat.le_of_eq size_define.symm
  | plainClass => exact Nat.le_of_eq (size_define.trans size_define).symm
  | @subclass name _ _ _ ref =>
      have hscope := hmade (s.store.define s.env name.text .nil) (some s.env)
        (Bindings.empty.set (utf8 "super") (.classRef ref))
      rw [size_define] at hscope
      exact Nat.le_trans hscope (Nat.le_of_eq size_define.symm)
  | block | bind | call => exact hmade s.store _ _
  | @unstarted _ cls => exact hmade (s.store.newInstance cls).2 _ _
  | @initializer _ cls =>
      exact Nat.le_trans (hmade (s.store.newInstance cls).2 _ _) (hmade _ _ _)

/-- Every step has one of the effects. -/
theorem effect_advance (set : Setting) (s : State) :
    s.Effect set (advance set s).state.store := by
  obtain ⟨control, frames, env, depth, store, trace⟩ := s
  cases control with
  | eval e => exact State.effect_eval rfl
  | exec stmt => exact State.effect_exec rfl
  | run body => cases body <;> exact .none
  | call range callee args => exact State.effect_callValue rfl
  | value v =>
      cases frames with
      | nil => exact .none
      | cons frame rest => exact State.effect_receive rfl rfl
  | done =>
      cases frames with
      | nil => exact .none
      | cons frame rest =>
          have hstore := State.store_complete ⟨.done, rest, env, depth, store, trace⟩ frame
          exact Eq.symm hstore ▸ .none
  | returning v =>
      cases frames with
      | nil => exact .none
      | cons frame rest =>
          have hstore := State.store_unwind ⟨.returning v, rest, env, depth, store, trace⟩ v frame
          exact Eq.symm hstore ▸ .none
  | failing e =>
      cases frames with
      | nil => exact .none
      | cons frame rest =>
          have hstore := State.store_raise ⟨.failing e, rest, env, depth, store, trace⟩ set e frame
          exact Eq.symm hstore ▸ .none

/-! ## Natives and the clock -/

/-- What any number of steps leaves as it is: no native is made or taken away, and the clock
goes on from where it was. -/
structure Store.Ages (st st' : Store) : Prop where
  natives : st'.natives = st.natives
  clock : ∃ looks, st'.clock = st.clock.after looks

theorem Store.Ages.refl (st : Store) : st.Ages st :=
  ⟨rfl, 0, rfl⟩

theorem Store.Ages.trans {st st' st'' : Store} (h : st.Ages st') (h' : st'.Ages st'') :
    st.Ages st'' := by
  obtain ⟨looks, hclock⟩ := h.clock
  obtain ⟨more, hclock'⟩ := h'.clock
  refine ⟨h'.natives.trans h.natives, looks + more, ?_⟩
  rw [hclock', hclock, Clock.after, Clock.after, Clock.after, Nat.add_assoc]

theorem State.Effect.ages {set : Setting} {s : State} {st : Store} (h : s.Effect set st) :
    s.store.Ages st := by
  cases h with
  | look => exact ⟨rfl, 1, rfl⟩
  | _ => exact ⟨rfl, 0, rfl⟩

theorem ages_run (set : Setting) (fuel : Nat) (s : State) :
    s.store.Ages (run set fuel s).2.store := by
  induction fuel generalizing s with
  | zero => exact .refl s.store
  | succ fuel ih =>
      have hstep := (effect_advance set s).ages
      rw [run]
      generalize advance set s = p at hstep
      cases p with
      | next t => exact hstep.trans (ih t)
      | halt ending t => exact hstep

theorem State.Effect.clock {set : Setting} {s : State} {st : Store} (h : s.Effect set st) :
    st.clock = s.store.clock ∨ s.looks = true ∧ st.clock = s.store.clock.after 1 := by
  cases h with
  | look hlooks => exact .inr ⟨hlooks, rfl⟩
  | _ => exact .inl rfl

/-- A slice is a run of at most as many steps, and no step but the first looks at the clock. -/
theorem runSlice_eq_run (set : Setting) (fuel : Nat) (s : State) :
    ∃ k ≤ fuel, runSlice set fuel s = run set k s ∧
      ((run set k s).2.store.clock = s.store.clock ∨
        s.looks = true ∧ (run set k s).2.store.clock = s.store.clock.after 1) := by
  induction fuel generalizing s with
  | zero => exact ⟨0, Nat.le_refl 0, rfl, .inl rfl⟩
  | succ fuel ih =>
      have hclock := (effect_advance set s).clock
      rw [runSlice]
      cases hstep : advance set s with
      | halt ending t =>
          refine ⟨1, Nat.succ_le_succ (Nat.zero_le fuel), ?_⟩
          rw [run, hstep]
          rw [hstep] at hclock
          exact ⟨rfl, hclock⟩
      | next t =>
          rw [hstep] at hclock
          by_cases hlooks : t.looks = true
          · refine ⟨1, Nat.succ_le_succ (Nat.zero_le fuel), ?_⟩
            rw [run, hstep]
            exact ⟨if_pos hlooks, hclock⟩
          · obtain ⟨k, hk, hrun, hlater⟩ := ih t
            have hkept : (run set k t).2.store.clock = t.store.clock :=
              hlater.resolve_right fun h => hlooks h.1
            refine ⟨k + 1, Nat.succ_le_succ hk, ?_⟩
            rw [run, hstep]
            dsimp only
            rw [if_neg hlooks, hrun, hkept]
            exact ⟨rfl, hclock⟩

end LoxMachine
