import LoxMachine.Proofs.Placing.Stores

/-!
# Machines in other surroundings

A run does not depend on the frames below its own, on what the program does afterwards,
on where its code stands or on what was written before.  In other surroundings the
machine takes the same steps, as long as it does not come to an end of what is its own.
-/

namespace LoxMachine

/-- What can surround a state: other places for its code, statements after those of its
program, frames below its own, and what was written before. -/
structure Surroundings where
  place : Range → Range
  program : List Stmt
  frames : List Frame
  trace : Array Event

def RuntimeError.place (f : Range → Range) (e : RuntimeError) : RuntimeError :=
  ⟨f e.range, e.cause⟩

def Ending.place (f : Range → Range) : Ending → Ending
  | .failed e => .failed (e.place f)
  | ending => ending

def Control.place (f : Range → Range) : Control → Control
  | .eval e => .eval (e.place f)
  | .exec s => .exec (s.place f)
  | .run body => .run (Stmt.placeAll f body)
  | .call range callee args => .call (f range) callee args
  | .failing e => .failing (e.place f)
  | control => control

def Frame.within (h : Surroundings) : Frame → Frame
  | .assign id name => .assign id (name.place h.place)
  | .unary op span => .unary op (h.place span)
  | .left op operand span => .left op (operand.place h.place) (h.place span)
  | .right op operand span => .right op operand (h.place span)
  | .logical op operand => .logical op (operand.place h.place)
  | .callee args span => .callee (Expr.placeAll h.place args) (h.place span)
  | .argument v before rest span =>
      .argument v before (Expr.placeAll h.place rest) (h.place span)
  | .get name => .get (name.place h.place)
  | .target name value => .target (name.place h.place) (value.place h.place)
  | .field object name => .field object (name.place h.place)
  | .assert range => .assert (h.place range)
  | .assertLeft operand range => .assertLeft (operand.place h.place) (h.place range)
  | .assertRight operand range => .assertRight operand (h.place range)
  | .branch thenBranch elseBranch =>
      .branch (thenBranch.place h.place) (elseBranch.map (Stmt.place h.place))
  | .test cond stmt => .test (cond.place h.place) (stmt.place h.place)
  | .declare name => .declare (name.place h.place)
  | .body cond stmt => .body (cond.place h.place) (stmt.place h.place)
  | .sequence rest => .sequence (Stmt.placeAll h.place rest)
  | .activation saved closure => .activation saved (closure.place h.place)
  | .program rest => .program (Stmt.placeAll h.place rest ++ h.program)
  | frame => frame

def State.within (h : Surroundings) (s : State) : State :=
  ⟨s.control.place h.place, s.frames.map (Frame.within h) ++ h.frames, s.env, s.depth,
    s.store.place h.place, h.trace ++ s.trace⟩

def Progress.within (h : Surroundings) : Progress → Progress
  | .next s => .next (s.within h)
  | .halt ending s => .halt (ending.place h.place) (s.within h)

/-! ## Node numbers -/

/-- The node numbers that the next step looks up. -/
def Expr.consulted : Expr → List Nat
  | .var id _ => [id]
  | .this id _ => [id]
  | .super id thisId _ _ _ => [id, thisId]
  | _ => []

def Stmt.consulted : Stmt → List Nat
  | .classDecl _ (some parent) _ _ => [parent.id]
  | _ => []

def Frame.consulted : Frame → List Nat
  | .assign id _ => [id]
  | _ => []

def State.consulted (s : State) : List Nat :=
  match s.control, s.frames with
  | .eval e, _ => e.consulted
  | .exec stmt, _ => stmt.consulted
  | .value _, frame :: _ => frame.consulted
  | _, _ => []

/-- Settings that differ at most in the depths of other nodes than these. -/
structure Setting.Serves (set set' : Setting) (ids : List Nat) : Prop where
  depths : ∀ id ∈ ids, set'.depths.depth? id = set.depths.depth? id
  options : set'.options = set.options
  logging : set'.logging = set.logging

theorem Setting.serves_refl (set : Setting) (ids : List Nat) : set.Serves set ids :=
  ⟨fun _ _ => rfl, rfl, rfl⟩

namespace State

variable {set set' : Setting} {ids : List Nat} {h : Surroundings}

/-! ## Moves -/

theorem define_within (s : State) (name : Bytes) (v : Value) :
    (s.within h).define name v = (s.define name v).within h := rfl

theorem write_within (s : State) (event : Event) :
    (s.within h).write event = (s.write event).within h := by
  simp only [write, within, Array.append_push]

theorem log_within (hset : set.Serves set' ids) (s : State) (record : Record) :
    (s.within h).log set' record = (s.log set record).within h := by
  simp only [log, hset.logging, write_within]
  split <;> rfl

/-! ## Expressions -/

theorem lookup_within (hset : set.Serves set' ids) {id : Nat} (hid : id ∈ ids) (s : State)
    (name : Bytes) : (s.within h).lookup set' id name = s.lookup set id name := by
  simp only [lookup, hset.depths id hid, within, Store.getAt_place, Store.get?_place]

theorem owner_within (hset : set.Serves set' ids) {id : Nat} (hid : id ∈ ids) (s : State)
    (name : Bytes) : (s.within h).owner set' id name = s.owner set id name := by
  simp only [owner, hset.depths id hid, within, Store.bindingAt_place, Store.nearest?_place]

theorem evalVariable_within (hset : set.Serves set' ids) {id : Nat} (hid : id ∈ ids) (s : State)
    (name : Name) :
    (s.within h).evalVariable set' id (name.place h.place) =
      (s.evalVariable set id name).within h := by
  simp only [evalVariable, Name.text_place, lookup_within hset hid]
  split <;> rfl

theorem assignVariable_within (hset : set.Serves set' ids) {id : Nat} (hid : id ∈ ids)
    (s : State) (name : Name) (v : Value) :
    (s.within h).assignVariable set' id (name.place h.place) v =
      (s.assignVariable set id name v).within h := by
  simp only [assignVariable, Name.text_place, owner_within hset hid]
  split <;> rfl

theorem yieldMethod_within (s : State) (method : Closure) (object : Nat) :
    (s.within h).yieldMethod (method.place h.place) object =
      (s.yieldMethod method object).within h := by
  simp only [yieldMethod, within, Store.bindMethod_place, Store.newFunction_place]
  rfl

theorem getProperty_within (s : State) (name : Name) (v : Value) :
    (s.within h).getProperty (name.place h.place) v = (s.getProperty name v).within h := by
  cases v with
  | objectRef object =>
      have hinstances : (s.within h).store.instances = s.store.instances := rfl
      simp only [getProperty, Name.text_place, hinstances]
      cases s.store.instances[object]? with
      | none => rfl
      | some o =>
          dsimp only
          cases o.fields.get? name.text with
          | some v => rfl
          | none =>
              have hmethod : (s.within h).store.method? o.cls name.text =
                  (s.store.method? o.cls name.text).map (Closure.place h.place) :=
                s.store.method?_place o.cls name.text
              simp only [hmethod]
              cases s.store.method? o.cls name.text with
              | none => rfl
              | some method => exact s.yieldMethod_within method object
  | _ => rfl

theorem evalSuper_within {id thisId : Nat} (hset : set.Serves set' [id, thisId]) (s : State)
    (method : Name) :
    (s.within h).evalSuper set' id thisId (method.place h.place) =
      (s.evalSuper set id thisId method).within h := by
  have hgetAt : ∀ depth name, (s.within h).store.getAt s.env depth name =
      s.store.getAt s.env depth name := fun depth name => s.store.getAt_place s.env depth name
  have henv : (s.within h).env = s.env := rfl
  simp only [evalSuper, hset.depths id List.mem_cons_self,
    hset.depths thisId (List.mem_cons_of_mem _ List.mem_cons_self), henv, hgetAt,
    Name.text_place]
  split
  · rfl
  · rfl
  · split
    case h_3 cls object _ _ =>
      have hmethod : (s.within h).store.method? cls method.text =
          (s.store.method? cls method.text).map (Closure.place h.place) :=
        s.store.method?_place cls method.text
      simp only [hmethod]
      cases s.store.method? cls method.text with
      | none => rfl
      | some found => exact s.yieldMethod_within found object
    all_goals rfl

theorem settle_within (s : State) (range : Range) (outcome : Except Cause Value) :
    (s.within h).settle (h.place range) outcome = (s.settle range outcome).within h := by
  cases outcome <;> rfl

theorem eval_within (s : State) (e : Expr) (hset : set.Serves set' e.consulted) :
    (s.within h).eval set' (e.place h.place) = (s.eval set e).within h := by
  cases e with
  | var id name => exact evalVariable_within hset List.mem_cons_self s name
  | this id keyword =>
      exact evalVariable_within hset List.mem_cons_self s ⟨utf8 "this", keyword⟩
  | super id thisId keyword method span => exact evalSuper_within hset s method
  | _ => rfl

/-! ## Calls -/

theorem bindParams_place (f : Range → Range) (params : List Name) (args : List Value)
    (vars : Bindings Value) :
    bindParams (params.map (Name.place f)) args vars = bindParams params args vars := by
  induction params generalizing args vars with
  | nil => rfl
  | cons p params ih => cases args <;> exact ih _ _

theorem enter_within (hset : set.Serves set' ids) (s : State) (range : Range) (c : Closure)
    (args : List Value) :
    (s.within h).enter set' (h.place range) (c.place h.place) args =
      (s.enter set range c args).within h := by
  have hdepth : (s.within h).depth = s.depth := rfl
  simp only [enter, hset.options, Closure.decl_place, Function.name_place, Name.text_place,
    Function.arity_place, Function.params_place, Function.body_place, Closure.env_place,
    bindParams_place, hdepth, log_within hset]
  split
  · rfl
  · split <;> rfl

theorem leave_within (s : State) (saved : Nat) (c : Closure) (v : Value) :
    (s.within h).leave saved (c.place h.place) v = (s.leave saved c v).within h := by
  have hgetAt : (s.within h).store.getAt c.env 0 (utf8 "this") =
      s.store.getAt c.env 0 (utf8 "this") := s.store.getAt_place _ _ _
  simp only [leave, Closure.decl_place, Function.kind_place, Closure.env_place, hgetAt]
  split
  · split <;> rfl
  · rfl

theorem instantiate_within (hset : set.Serves set' ids) (s : State) (range : Range) (cls : Nat)
    (args : List Value) :
    (s.within h).instantiate set' (h.place range) cls args =
      (s.instantiate set range cls args).within h := by
  have hmade : (s.within h).store.newInstance cls =
      ((s.store.newInstance cls).1, (s.store.newInstance cls).2.place h.place) := rfl
  simp only [instantiate, hset.options, hmade, Store.method?_place, Store.text_place]
  cases (s.store.newInstance cls).2.method? cls (utf8 "init") with
  | none =>
      simp only [Option.map_none]
      split <;> rfl
  | some init =>
      let bound := (s.store.newInstance cls).2.bindMethod init (s.store.newInstance cls).1
      let made : State :=
        { s with store := bound.2, frames := .construct (s.store.newInstance cls).1 :: s.frames }
      exact made.enter_within hset range bound.1 args

theorem callNative_within (s : State) (range : Range) (ref : Nat) (args : List Value) :
    (s.within h).callNative (h.place range) ref args =
      (s.callNative range ref args).within h := by
  have hnatives : (s.within h).store.natives = s.store.natives := rfl
  have htext : ∀ v, (s.within h).store.text v = s.store.text v := s.store.text_place
  have hdebug : ∀ v, (s.within h).store.debugText v = s.store.debugText v :=
    s.store.debugText_place
  simp only [callNative, hnatives, htext, hdebug]
  split
  · rfl
  · split
    · rfl
    · split
      · rfl
      · split
        · split
          · split <;> rfl
          · rfl
        · rfl

theorem callValue_within (hset : set.Serves set' ids) (s : State) (range : Range)
    (callee : Value) (args : List Value) :
    (s.within h).callValue set' (h.place range) callee args =
      (s.callValue set range callee args).within h := by
  cases callee with
  | function ref =>
      have hclosure : (s.within h).store.functions[ref]? =
          s.store.functions[ref]?.map (Closure.place h.place) :=
        s.store.getElem?_functions_place ref
      simp only [callValue, hclosure]
      cases s.store.functions[ref]? with
      | none => rfl
      | some c => exact enter_within hset s range c args
  | native ref => exact callNative_within s range ref args
  | classRef cls => exact instantiate_within hset s range cls args
  | _ =>
      have hdebug : ∀ v, (s.within h).store.debugText v = s.store.debugText v :=
        s.store.debugText_place
      simp only [callValue, hdebug]
      rfl

/-! ## Statements -/

theorem collectMethods_place (f : Range → Range) (env : Nat) (methods : List Function)
    (init : Option Closure) (found : Bindings Closure) :
    collectMethods env (Function.placeAll f methods) (init.map (Closure.place f))
        (found.map (Closure.place f)) =
      ((collectMethods env methods init found).1.map (Closure.place f),
        (collectMethods env methods init found).2.map (Closure.place f)) := by
  induction methods generalizing init found with
  | nil => rfl
  | cons decl rest ih =>
      simp only [Function.placeAll, collectMethods, Function.kind_place, Function.name_place,
        Name.text_place]
      split
      · exact ih (some ⟨decl, env⟩) found
      · rw [← ih, Bindings.map_set]
        rfl

theorem declareClass_within (s : State) (name : Bytes) (superclass : Option Nat)
    (methods : List Function) :
    (s.within h).declareClass name superclass (Function.placeAll h.place methods) =
      (s.declareClass name superclass methods).within h := by
  -- The methods are collected in the same environment, into a class that is placed.
  have hmake : ∀ (st : Store) (env : Nat),
      (st.place h.place).newClass ⟨name, superclass,
          (collectMethods env (Function.placeAll h.place methods) none Bindings.empty).1,
          (collectMethods env (Function.placeAll h.place methods) none Bindings.empty).2⟩ =
        ((st.newClass ⟨name, superclass, (collectMethods env methods none Bindings.empty).1,
            (collectMethods env methods none Bindings.empty).2⟩).1,
          (st.newClass ⟨name, superclass, (collectMethods env methods none Bindings.empty).1,
            (collectMethods env methods none Bindings.empty).2⟩).2.place h.place) := by
    intro st env
    have hcollect := collectMethods_place h.place env methods none Bindings.empty
    rw [Option.map_none, Bindings.map_empty] at hcollect
    rw [hcollect]
    exact st.newClass_place ⟨name, superclass, _, _⟩
  cases superclass with
  | none =>
      simp only [declareClass, within, hmake]
      rfl
  | some parent =>
      simp only [declareClass, within, Store.newEnv_place, hmake]
      rfl

theorem execClass_within (s : State) (name : Name) (superclass : Option Superclass)
    (methods : List Function) (span : Range)
    (hset : set.Serves set' (Stmt.classDecl name superclass methods span).consulted) :
    (s.within h).execClass set' (name.place h.place) (superclass.map (Superclass.place h.place))
        (Function.placeAll h.place methods) =
      (s.execClass set name superclass methods).within h := by
  cases superclass with
  | none => exact declareClass_within (s.define name.text .nil) name.text none methods
  | some parent =>
      simp only [execClass, Option.map_some, Superclass.place, Name.text_place, define_within,
        lookup_within hset List.mem_cons_self]
      split
      · rfl
      · rfl
      · exact declareClass_within (s.define name.text .nil) name.text _ methods
      · rfl

theorem exec_within (hf : Range.Keeps h.place) (s : State) (stmt : Stmt)
    (hset : set.Serves set' stmt.consulted) :
    (s.within h).exec set' (stmt.place h.place) = (s.exec set stmt).within h := by
  cases stmt with
  | assert value span =>
      simp only [Stmt.place, exec, Expr.span_place]
      rfl
  | assertEqual left right span =>
      simp only [Stmt.place, exec, Expr.span_place, ← hf left.span right.span]
      rfl
  | var name init span => cases init <;> rfl
  | cond test thenBranch elseBranch span => cases elseBranch <;> rfl
  | ret keyword value span => cases value <;> rfl
  | function decl =>
      have hmade : (s.within h).store.newFunction ⟨decl.place h.place, s.env⟩ =
          ((s.store.newFunction ⟨decl, s.env⟩).1,
            (s.store.newFunction ⟨decl, s.env⟩).2.place h.place) :=
        s.store.newFunction_place ⟨decl, s.env⟩
      have henv : (s.within h).env = s.env := rfl
      simp only [Stmt.place, exec, henv, hmade, Function.name_place, Name.text_place]
      rfl
  | classDecl name superclass methods span =>
      exact execClass_within s name superclass methods span hset
  | _ => rfl

theorem execAll_within (s : State) (body : List Stmt) :
    (s.within h).execAll (Stmt.placeAll h.place body) = (s.execAll body).within h := by
  cases body <;> rfl

/-! ## Outcomes -/

theorem nextArgument_within (s : State) (callee : Value) (before : List Value) (span : Range)
    (rest : List Expr) :
    (s.within h).nextArgument callee before (h.place span) (Expr.placeAll h.place rest) =
      (s.nextArgument callee before span rest).within h := by
  cases rest <;> rfl

theorem receive_within (s : State) (v : Value) (frame : Frame)
    (hset : set.Serves set' frame.consulted) :
    (s.within h).receive set' v (frame.within h) = (s.receive set v frame).within h := by
  have htext : (s.within h).store.text v = s.store.text v := s.store.text_place v
  have hdebug : ∀ v, (s.within h).store.debugText v = s.store.debugText v :=
    s.store.debugText_place
  cases frame with
  | assign id name => exact assignVariable_within hset List.mem_cons_self s name v
  | unary op span => exact s.settle_within span _
  | right op left span => exact s.settle_within span _
  | logical op right =>
      cases op with
      | or =>
          simp only [Frame.within, receive]
          split <;> rfl
      | and =>
          simp only [Frame.within, receive]
          split <;> rfl
  | callee args span => exact s.nextArgument_within v [] span args
  | argument callee before rest span =>
      exact s.nextArgument_within callee (v :: before) span rest
  | get name => exact s.getProperty_within name v
  | target name value => cases v <;> rfl
  | print =>
      simp only [Frame.within, receive, hset.options, htext, write_within]
      split <;> rfl
  | assert range =>
      simp only [Frame.within, receive]
      split <;> rfl
  | assertRight left range =>
      simp only [Frame.within, receive, hdebug]
      split <;> rfl
  | branch thenBranch elseBranch =>
      simp only [Frame.within, receive]
      split
      · rfl
      · cases elseBranch <;> rfl
  | test test body =>
      simp only [Frame.within, receive]
      split <;> rfl
  | _ => rfl

theorem complete_within (s : State) (frame : Frame)
    (hprogram : frame = .program [] → h.program = []) :
    (s.within h).complete (frame.within h) = (s.complete frame).within h := by
  cases frame with
  | activation saved c => exact leave_within s saved c .nil
  | program rest =>
      cases rest with
      | nil =>
          rw [Frame.within, hprogram rfl]
          rfl
      | cons stmt rest => rfl
  | _ => rfl

theorem unwind_within (s : State) (v : Value) (frame : Frame) :
    (s.within h).unwind v (frame.within h) = (s.unwind v frame).within h := by
  cases frame with
  | activation saved c => exact leave_within s saved c v
  | _ => rfl

theorem raise_within (hset : set.Serves set' ids) (s : State) (e : RuntimeError)
    (frame : Frame) :
    (s.within h).raise set' (e.place h.place) (frame.within h) = (s.raise set e frame).within h := by
  cases frame with
  | protect =>
      simp only [Frame.within, raise, RuntimeError.place, log_within hset]
      rfl
  | _ => rfl

/-- The next step goes on with what surrounds the state. -/
def Leaves (h : Surroundings) (s : State) : Prop :=
  match s.control, s.frames with
  | .done, .program [] :: _ => h.program ≠ []
  | .value _, [] => h.frames ≠ []
  | .done, [] => h.frames ≠ []
  | .returning _, [] => h.frames ≠ []
  | .failing _, [] => h.frames ≠ []
  | _, _ => False

end State

variable {set set' : Setting} {s : State} {h : Surroundings}

/-- A step in other surroundings. -/
theorem advance_within (hf : Range.Keeps h.place) (hset : set.Serves set' s.consulted)
    (hleaves : ¬ s.Leaves h) :
    advance set' (s.within h) = (advance set s).within h := by
  obtain ⟨control, frames, env, depth, store, trace⟩ := s
  cases control with
  | eval e => exact State.eval_within _ e hset
  | exec stmt => exact State.exec_within hf _ stmt hset
  | run body => exact State.execAll_within _ body
  | call range callee args => exact State.callValue_within hset _ range callee args
  | value v =>
      cases frames with
      | nil =>
          obtain ⟨_, _, below, _⟩ := h
          obtain rfl : below = [] := Classical.not_not.mp hleaves
          rfl
      | cons frame rest =>
          exact State.receive_within ⟨.value v, rest, env, depth, store, trace⟩ v frame hset
  | done =>
      cases frames with
      | nil =>
          obtain ⟨_, _, below, _⟩ := h
          obtain rfl : below = [] := Classical.not_not.mp hleaves
          rfl
      | cons frame rest =>
          refine State.complete_within ⟨.done, rest, env, depth, store, trace⟩ frame ?_
          rintro rfl
          exact Classical.not_not.mp hleaves
  | returning v =>
      cases frames with
      | nil =>
          obtain ⟨_, _, below, _⟩ := h
          obtain rfl : below = [] := Classical.not_not.mp hleaves
          rfl
      | cons frame rest =>
          exact State.unwind_within ⟨.returning v, rest, env, depth, store, trace⟩ v frame
  | failing e =>
      cases frames with
      | nil =>
          obtain ⟨_, _, below, _⟩ := h
          obtain rfl : below = [] := Classical.not_not.mp hleaves
          rfl
      | cons frame rest =>
          exact State.raise_within hset ⟨.failing e, rest, env, depth, store, trace⟩ e frame

/-! ## Runs -/

/-- A run that has not come to an end has made its first step. -/
theorem exists_next_of_run {t : State} {n : Nat} (hrun : run set (n + 1) s = (none, t)) :
    ∃ u, advance set s = .next u ∧ run set n u = (none, t) := by
  rw [run] at hrun
  cases hstep : advance set s with
  | next u =>
      rw [hstep] at hrun
      exact ⟨u, rfl, hrun⟩
  | halt ending u =>
      rw [hstep] at hrun
      cases hrun

theorem run_of_next {u : State} (hstep : advance set s = .next u) (n : Nat) :
    run set (n + 1) s = run set n u := by
  rw [run, hstep]

/-- A run goes on from where a shorter one has got to. -/
theorem run_add {t : State} {m : Nat} (hreached : run set m s = (none, t)) (n : Nat) :
    run set (m + n) s = run set n t := by
  induction m generalizing s with
  | zero =>
      cases hreached
      rw [Nat.zero_add]
  | succ m ih =>
      obtain ⟨u, hstep, hrest⟩ := exists_next_of_run hreached
      rw [Nat.succ_add, run_of_next hstep]
      exact ih hrest

/-- A run in other surroundings, as long as the machine looks up no other nodes and stays
among its own frames. -/
theorem run_within (hf : Range.Keeps h.place) (n : Nat)
    (hstays : ∀ m < n, ∀ t, run set m s = (none, t) →
      set.Serves set' t.consulted ∧ ¬ t.Leaves h) :
    run set' n (s.within h) =
      ((run set n s).1.map (Ending.place h.place), (run set n s).2.within h) := by
  induction n generalizing s with
  | zero => rfl
  | succ n ih =>
      obtain ⟨hset, hleaves⟩ := hstays 0 (Nat.succ_pos n) s rfl
      rw [run, run, advance_within hf hset hleaves]
      cases hstep : advance set s with
      | halt ending t => rfl
      | next s' =>
          refine ih fun m hm t ht => hstays (m + 1) (Nat.succ_lt_succ hm) t ?_
          rw [run, hstep]
          exact ht

/-! ## The same place -/

theorem Ending.place_id (ending : Ending) : ending.place (fun r => r) = ending := by
  cases ending <;> rfl

theorem Control.place_id (control : Control) : control.place (fun r => r) = control := by
  cases control with
  | eval e => rw [place, e.place_id]
  | exec s => rw [place, s.place_id]
  | run body => rw [place, Stmt.placeAll_id]
  | _ => rfl

theorem Frame.within_id (frame : Frame) (below : List Frame) (before : Array Event) :
    frame.within ⟨fun r => r, [], below, before⟩ = frame := by
  cases frame with
  | left op operand span => rw [within, operand.place_id]
  | logical op operand => rw [within, operand.place_id]
  | callee args span => rw [within, Expr.placeAll_id]
  | argument v before rest span => rw [within, Expr.placeAll_id]
  | target name value =>
      rw [within, value.place_id]
      rfl
  | assertLeft operand range => rw [within, operand.place_id]
  | branch thenBranch elseBranch =>
      rw [within, thenBranch.place_id]
      cases elseBranch with
      | none => rfl
      | some elseBranch => rw [Option.map_some, elseBranch.place_id]
  | test cond stmt => rw [within, cond.place_id, stmt.place_id]
  | body cond stmt => rw [within, cond.place_id, stmt.place_id]
  | sequence rest => rw [within, Stmt.placeAll_id]
  | activation saved c => rw [within, c.place_id]
  | program rest => rw [within, Stmt.placeAll_id, List.append_nil]
  | _ => rfl

theorem State.within_id (s : State) (below : List Frame) (before : Array Event) :
    s.within ⟨fun r => r, [], below, before⟩ =
      { s with frames := s.frames ++ below, trace := before ++ s.trace } := by
  have hframes : s.frames.map (Frame.within ⟨fun r => r, [], below, before⟩) = s.frames :=
    (List.map_congr_left fun frame _ => frame.within_id below before).trans (List.map_id' _)
  rw [within, s.control.place_id, s.store.place_id, hframes]

/-- What was written before a step makes no difference to it. -/
theorem advance_after (set : Setting) (s : State) (before : Array Event) :
    advance set { s with trace := before ++ s.trace } =
      match advance set s with
      | .next t => .next { t with trace := before ++ t.trace }
      | .halt ending t => .halt ending { t with trace := before ++ t.trace } := by
  have hstep : advance set (s.within ⟨fun r => r, [], [], before⟩) =
      (advance set s).within ⟨fun r => r, [], [], before⟩ := by
    refine advance_within Range.keeps_id (set.serves_refl _) ?_
    unfold State.Leaves
    split <;> simp
  simp only [State.within_id, List.append_nil] at hstep
  rw [hstep]
  cases advance set s with
  | next t => simp only [Progress.within, State.within_id, List.append_nil]
  | halt ending t =>
      simp only [Progress.within, State.within_id, List.append_nil, Ending.place_id]

end LoxMachine
