import LoxMachine.Proofs.Machine.Dispatch
import LoxMachine.Proofs.Relocation.Stores

/-!
# Relocated machines run in lockstep

A machine whose store stands inside another and whose code has other node numbers takes
the same steps as the original, writes the same and comes to the same end, unless the
original breaks down.
-/

namespace LoxMachine

open Store

/-! ## Relocated states -/

/-- After `T` and `T'` the same has been written. -/
def Echoes (T T' trace trace' : Array Event) : Prop :=
  ∃ written, trace = T ++ written ∧ trace' = T' ++ written

theorem echoes_refl (T T' : Array Event) : Echoes T T' T T' :=
  ⟨#[], Array.append_empty.symm, Array.append_empty.symm⟩

theorem Echoes.push {T T' trace trace' : Array Event} (h : Echoes T T' trace trace')
    (event : Event) : Echoes T T' (trace.push event) (trace'.push event) := by
  obtain ⟨written, rfl, rfl⟩ := h
  exact ⟨written.push event, Array.append_push.symm, Array.append_push.symm⟩

section Relocate

variable (ρ : Relocation)

def Frame.relocate : Frame → Frame
  | .assign id name => .assign (ρ.ids.move id) name
  | .left op e span => .left op (e.renumber ρ.ids.move) span
  | .right op v span => .right op (v.relocate ρ) span
  | .logical op e => .logical op (e.renumber ρ.ids.move)
  | .callee args span => .callee (Expr.renumberAll ρ.ids.move args) span
  | .argument v before rest span =>
      .argument (v.relocate ρ) (before.map (Value.relocate ρ))
        (Expr.renumberAll ρ.ids.move rest) span
  | .target name value => .target name (value.renumber ρ.ids.move)
  | .field object name => .field (ρ.instances.move object) name
  | .assertLeft e range => .assertLeft (e.renumber ρ.ids.move) range
  | .assertRight v range => .assertRight (v.relocate ρ) range
  | .branch thenBranch elseBranch =>
      .branch (thenBranch.renumber ρ.ids.move) (elseBranch.map fun s => s.renumber ρ.ids.move)
  | .test e s => .test (e.renumber ρ.ids.move) (s.renumber ρ.ids.move)
  | .construct object => .construct (ρ.instances.move object)
  | .body e s => .body (e.renumber ρ.ids.move) (s.renumber ρ.ids.move)
  | .sequence rest => .sequence (Stmt.renumberAll ρ.ids.move rest)
  | .scope saved => .scope (ρ.envs.move saved)
  | .activation saved closure => .activation (ρ.envs.move saved) (closure.relocate ρ)
  | .program rest => .program (Stmt.renumberAll ρ.ids.move rest)
  | frame => frame

def Control.relocate : Control → Control
  | .eval e => .eval (e.renumber ρ.ids.move)
  | .exec s => .exec (s.renumber ρ.ids.move)
  | .run body => .run (Stmt.renumberAll ρ.ids.move body)
  | .call range callee args =>
      .call range (callee.relocate ρ) (args.map (Value.relocate ρ))
  | .value v => .value (v.relocate ρ)
  | .returning v => .returning (v.relocate ρ)
  | control => control

end Relocate

namespace Relocation

/-- Two states that differ by a relocation in all but what they are about to do. -/
structure Beside (ρ : Relocation) (T T' : Array Event) (s s' : State) : Prop where
  env : s'.env = ρ.envs.move s.env
  depth : s'.depth = s.depth
  frames : s'.frames = s.frames.map (Frame.relocate ρ)
  store : Placed ρ s.store s'.store
  trace : Echoes T T' s.trace s'.trace

/-- Two steps lead to states side by side or to the same end, unless the first breaks
down. -/
inductive Matches (ρ : Relocation) (T T' : Array Event) : Progress → Progress → Prop where
  | next {s s'} (h : Beside ρ T T' s s') (hcontrol : s'.control = s.control.relocate ρ) :
      Matches ρ T T' (.next s) (.next s')
  | halt {ending s s'} (hstore : Placed ρ s.store s'.store)
      (htrace : Echoes T T' s.trace s'.trace) :
      Matches ρ T T' (.halt ending s) (.halt ending s')
  | broken {d s p} : Matches ρ T T' (.halt (.broken d) s) p

/-- Settings with the same depths for moved node numbers. -/
structure Settings (ρ : Relocation) (set set' : Setting) : Prop where
  depths : ∀ id, set'.depths.depth? (ρ.ids.move id) = set.depths.depth? id
  options : set'.options = set.options
  logging : set'.logging = set.logging

/-- The machine stands in an environment of the store, and environments and classes are
younger than what they refer to. -/
structure Layered (s : State) : Prop where
  here : s.env < s.store.envs.size
  older : ∀ o p, s.store.parent? o = some p → p < o
  order : ∀ cls parent, s.store.Inherits cls parent → parent < cls

variable {ρ : Relocation} {T T' : Array Event} {s s' : State} {set set' : Setting}
  {control control' : Control}

/-! ## Moves -/

theorem Beside.proceed (h : Beside ρ T T' s s') (hcontrol : control' = control.relocate ρ) :
    Matches ρ T T' (s.proceed control) (s'.proceed control') :=
  .next ⟨h.env, h.depth, h.frames, h.store, h.trace⟩ hcontrol

theorem Beside.push (h : Beside ρ T T' s s') (frame : Frame) :
    Beside ρ T T' { s with frames := frame :: s.frames }
      { s' with frames := frame.relocate ρ :: s'.frames } :=
  ⟨h.env, h.depth, congrArg (frame.relocate ρ :: ·) h.frames, h.store, h.trace⟩

theorem Beside.await (h : Beside ρ T T' s s') (frame : Frame) (control : Control) :
    Matches ρ T T' (s.await frame control)
      (s'.await (frame.relocate ρ) (control.relocate ρ)) :=
  (h.push frame).proceed rfl

theorem Beside.fail (h : Beside ρ T T' s s') (range : Range) (cause : Cause) :
    Matches ρ T T' (s.fail range cause) (s'.fail range cause) :=
  h.proceed rfl

theorem Beside.update (h : Beside ρ T T' s s') {st st' : Store} (hstore : Placed ρ st st') :
    Beside ρ T T' { s with store := st } { s' with store := st' } :=
  ⟨h.env, h.depth, h.frames, hstore, h.trace⟩

theorem Beside.back (h : Beside ρ T T' s s') (env : Nat) :
    Beside ρ T T' { s with env := env } { s' with env := ρ.envs.move env } :=
  ⟨rfl, h.depth, h.frames, h.store, h.trace⟩

/-- Both machines go back to where a call was made. -/
theorem Beside.return (h : Beside ρ T T' s s') (env : Nat) :
    Beside ρ T T' { s with env := env, depth := s.depth - 1 }
      { s' with env := ρ.envs.move env, depth := s'.depth - 1 } :=
  ⟨rfl, congrArg (· - 1) h.depth, h.frames, h.store, h.trace⟩

theorem Beside.write (h : Beside ρ T T' s s') (event : Event) :
    Beside ρ T T' (s.write event) (s'.write event) :=
  ⟨h.env, h.depth, h.frames, h.store, h.trace.push event⟩

theorem Beside.log (h : Beside ρ T T' s s') (hset : Settings ρ set set') (record : Record) :
    Beside ρ T T' (s.log set record) (s'.log set' record) := by
  unfold State.log
  rw [hset.logging]
  split
  · exact h.write _
  · exact h

theorem Beside.define (h : Beside ρ T T' s s') (hhere : s.env < s.store.envs.size)
    (name : Bytes) (v : Value) :
    Beside ρ T T' (s.define name v) (s'.define name (v.relocate ρ)) := by
  have hstore := h.store.define hhere name v
  rw [← h.env] at hstore
  exact h.update hstore

/-! ## Variables -/

/-- Moved nodes find their variables in moved environments. -/
theorem Beside.owner_eq (h : Beside ρ T T' s s') (hset : Settings ρ set set')
    (holder : ∀ o p, s.store.parent? o = some p → p < o) (id : Nat) (name : Bytes) :
    ((∃ d, s.owner set id name = .error d) ∧ ∃ d, s.lookup set id name = .error d) ∨
    (s.owner set id name = .ok none ∧ s'.owner set' (ρ.ids.move id) name = .ok none ∧
      s.lookup set id name = .ok none ∧ s'.lookup set' (ρ.ids.move id) name = .ok none) ∨
    ∃ owner v, owner < s.store.envs.size ∧ s.owner set id name = .ok (some owner) ∧
      s'.owner set' (ρ.ids.move id) name = .ok (some (ρ.envs.move owner)) ∧
      s.lookup set id name = .ok (some v) ∧
      s'.lookup set' (ρ.ids.move id) name = .ok (some (v.relocate ρ)) := by
  unfold State.owner State.lookup
  rw [hset.depths, h.env]
  cases set.depths.depth? id with
  | some depth =>
      rcases h.store.bindingAt_eq s.env depth name with
        ⟨d, hbroken⟩ | ⟨owner, v, hfirst, hlt, hsecond⟩
      · refine .inl ⟨⟨d, ?_⟩, d, ?_⟩
        · simp only [hbroken, Except.map]
        · simp only [getAt, hbroken, Except.map]
      · refine .inr (.inr ⟨owner, v, hlt, ?_, ?_, ?_, ?_⟩)
        · simp only [hfirst, Except.map]
        · simp only [hsecond, Except.map]
        · simp only [getAt, hfirst, Except.map]
        · simp only [getAt, hsecond, Except.map]
  | none =>
      refine .inr ?_
      simp only [get?, h.store.nearest_eq holder]
      cases hfound : s.store.nearest? s.env name with
      | none => exact .inl ⟨rfl, rfl, rfl, rfl⟩
      | some found =>
          obtain ⟨owner, v⟩ := found
          exact .inr ⟨owner, v, lt_of_at? (climb_of_search hfound).1, rfl, rfl, rfl, rfl⟩

theorem Beside.evalVariable (h : Beside ρ T T' s s') (hset : Settings ρ set set')
    (holder : ∀ o p, s.store.parent? o = some p → p < o) (id : Nat) (name : Name) :
    Matches ρ T T' (s.evalVariable set id name)
      (s'.evalVariable set' (ρ.ids.move id) name) := by
  unfold State.evalVariable
  rcases h.owner_eq hset holder id name.text with
    ⟨_, d, hbroken⟩ | ⟨_, _, hnone, hnone'⟩ | ⟨owner, v, _, _, _, hv, hv'⟩
  · rw [hbroken]
    exact .broken
  · rw [hnone, hnone']
    exact h.fail _ _
  · rw [hv, hv']
    exact h.proceed rfl

theorem Beside.assignVariable (h : Beside ρ T T' s s') (hset : Settings ρ set set')
    (holder : ∀ o p, s.store.parent? o = some p → p < o) (id : Nat) (name : Name) (v : Value) :
    Matches ρ T T' (s.assignVariable set id name v)
      (s'.assignVariable set' (ρ.ids.move id) name (v.relocate ρ)) := by
  unfold State.assignVariable
  rcases h.owner_eq hset holder id name.text with
    ⟨⟨d, hbroken⟩, _⟩ | ⟨hnone, hnone', _⟩ | ⟨owner, _, hlt, howner, howner', _⟩
  · rw [hbroken]
    exact .broken
  · rw [hnone, hnone']
    exact h.fail _ _
  · rw [howner, howner']
    exact (h.update (h.store.define hlt name.text v)).proceed rfl

/-! ## Properties -/

theorem Beside.yieldMethod (h : Beside ρ T T' s s') (method : Closure) (object : Nat) :
    Matches ρ T T' (s.yieldMethod method object)
      (s'.yieldMethod (method.relocate ρ) (ρ.instances.move object)) := by
  obtain ⟨hclosure, hplaced⟩ := h.store.bindMethod method object
  have hmade := hplaced.newFunction (s.store.bindMethod method object).1
  unfold State.yieldMethod
  dsimp only
  rw [hclosure]
  refine (h.update hmade).proceed ?_
  simp only [Control.relocate, Value.relocate, Store.newFunction, hplaced.functions.move_size]

theorem Beside.getProperty (h : Beside ρ T T' s s')
    (horder : ∀ cls parent, s.store.Inherits cls parent → parent < cls) (name : Name)
    (v : Value) :
    Matches ρ T T' (s.getProperty name v) (s'.getProperty name (v.relocate ρ)) := by
  cases v with
  | objectRef object =>
      simp only [Value.relocate, State.getProperty, h.store.instances.map_eq]
      cases s.store.instances[object]? with
      | none => exact .broken
      | some o =>
          simp only [Option.map_some, Instance.relocate, Bindings.get?_map,
            h.store.method_eq horder]
          cases o.fields.get? name.text with
          | some v => exact h.proceed rfl
          | none =>
              cases s.store.method? o.cls name.text with
              | some method => exact h.yieldMethod method object
              | none => exact h.fail _ _
  | _ => exact h.fail _ _

theorem Beside.evalSuper (h : Beside ρ T T' s s') (hset : Settings ρ set set')
    (horder : ∀ cls parent, s.store.Inherits cls parent → parent < cls) (id thisId : Nat)
    (method : Name) :
    Matches ρ T T' (s.evalSuper set id thisId method)
      (s'.evalSuper set' (ρ.ids.move id) (ρ.ids.move thisId) method) := by
  unfold State.evalSuper
  rw [hset.depths, hset.depths, h.env]
  cases set.depths.depth? id with
  | none => exact .broken
  | some superDepth =>
      cases set.depths.depth? thisId with
      | none => exact .broken
      | some thisDepth =>
          rcases h.store.getAt_eq s.env superDepth (utf8 "super") with
            ⟨d, hbroken⟩ | ⟨above, habove, habove'⟩
          · simp only [hbroken]
            exact .broken
          rcases h.store.getAt_eq s.env thisDepth (utf8 "this") with
            ⟨d, hbroken⟩ | ⟨this, hthis, hthis'⟩
          · simp only [habove, hbroken]
            exact .broken
          simp only [habove, habove', hthis, hthis']
          cases above with
          | classRef cls =>
              cases this with
              | objectRef object =>
                  simp only [Value.relocate, h.store.method_eq horder]
                  cases s.store.method? cls method.text with
                  | some closure => exact h.yieldMethod closure object
                  | none => exact h.fail _ _
              | _ => exact .broken
          | _ => cases this <;> exact .broken

/-! ## Operators -/

theorem operate_relocate (op : BinaryOp) (left right : Value) :
    State.operate op (left.relocate ρ) (right.relocate ρ) =
      (State.operate op left right).map (Value.relocate ρ) := by
  cases left <;> cases right <;> cases op <;>
    simp only [Value.relocate, State.operate, Value.same, beq_eq_decide, Gap.move_inj] <;> rfl

theorem operateUnary_relocate (op : UnaryOp) (operand : Value) :
    State.operateUnary op (operand.relocate ρ) =
      (State.operateUnary op operand).map (Value.relocate ρ) := by
  cases op <;> cases operand <;> rfl

theorem Beside.settle (h : Beside ρ T T' s s') (range : Range) (outcome : Except Cause Value) :
    Matches ρ T T' (s.settle range outcome)
      (s'.settle range (outcome.map (Value.relocate ρ))) := by
  cases outcome with
  | ok v => exact h.proceed rfl
  | error cause => exact h.fail _ _

/-! ## Calls -/

theorem bindParams_relocate (params : List Name) (args : List Value) (vars : Bindings Value) :
    State.bindParams params (args.map (Value.relocate ρ)) (vars.map (Value.relocate ρ)) =
      (State.bindParams params args vars).map (Value.relocate ρ) := by
  induction params generalizing args vars with
  | nil => cases args <;> rfl
  | cons p params ih =>
      cases args with
      | nil =>
          have hrest := ih [] (vars.set p.text .nil)
          rw [Bindings.map_set] at hrest
          exact hrest
      | cons v args =>
          have hrest := ih args (vars.set p.text v)
          rw [Bindings.map_set] at hrest
          exact hrest

theorem Beside.enter (h : Beside ρ T T' s s') (hset : Settings ρ set set') (range : Range)
    (c : Closure) (args : List Value) :
    Matches ρ T T' (s.enter set range c args)
      (s'.enter set' range (c.relocate ρ) (args.map (Value.relocate ρ))) := by
  have harity : (c.relocate ρ).decl.arity = c.decl.arity := by
    rw [Function.arity, Closure.relocate, Function.params_renumber, Function.arity]
  have hname : (c.relocate ρ).decl.name = c.decl.name := Function.name_renumber _
  unfold State.enter
  rw [hset.options, harity, hname, h.depth, List.length_map]
  dsimp only
  split
  · exact h.fail _ _
  split
  · exact h.fail _ _
  generalize Record.mk (utf8 "call") _ = record
  have hlog := h.log hset record
  generalize s.log set record = t at hlog ⊢
  generalize s'.log set' record = t' at hlog ⊢
  have hvars := bindParams_relocate (ρ := ρ) c.decl.params args Bindings.empty
  have hplaced := hlog.store.newEnv (some c.env)
    (State.bindParams c.decl.params args Bindings.empty)
  rw [← hvars] at hplaced
  refine .next ⟨?_, congrArg (· + 1) hlog.depth, ?_, ?_, hlog.trace⟩ ?_
  · exact hlog.store.move_size.symm
  · rw [hlog.env, hlog.frames]
    rfl
  · simp only [Closure.relocate, Function.params_renumber]
    exact hplaced
  · simp only [Closure.relocate, Function.body_renumber]
    rfl

theorem Beside.leave (h : Beside ρ T T' s s') (saved : Nat) (c : Closure) (v : Value) :
    Matches ρ T T' (s.leave saved c v)
      (s'.leave (ρ.envs.move saved) (c.relocate ρ) (v.relocate ρ)) := by
  have hback := h.return saved
  have hkind : (c.relocate ρ).decl.kind = c.decl.kind := Function.kind_renumber _
  unfold State.leave
  rw [hkind]
  dsimp only
  split
  · rcases h.store.getAt_eq c.env 0 (utf8 "this") with ⟨d, hbroken⟩ | ⟨this, hthis, hthis'⟩
    · rw [hbroken]
      exact .broken
    · simp only [Closure.relocate, hthis, hthis']
      exact hback.proceed rfl
  · exact hback.proceed rfl

theorem Beside.instantiate (h : Beside ρ T T' s s') (hset : Settings ρ set set')
    (horder : ∀ cls parent, s.store.Inherits cls parent → parent < cls) (range : Range)
    (cls : Nat) (args : List Value) :
    Matches ρ T T' (s.instantiate set range cls args)
      (s'.instantiate set' range (ρ.classes.move cls) (args.map (Value.relocate ρ))) := by
  have hplaced := h.store.newInstance cls
  have hobject : (s'.store.newInstance (ρ.classes.move cls)).1 =
      ρ.instances.move (s.store.newInstance cls).1 := h.store.instances.move_size.symm
  have horder' : ∀ cls' parent, (s.store.newInstance cls).2.Inherits cls' parent →
      parent < cls' := horder
  have htext := hplaced.text_eq (.classRef cls)
  simp only [Value.relocate] at htext
  unfold State.instantiate
  dsimp only
  rw [hplaced.method_eq horder', hobject]
  cases (s.store.newInstance cls).2.method? cls (utf8 "init") with
  | none =>
      dsimp only [Option.map_none]
      rw [hset.options, htext, List.length_map]
      split
      · exact (h.update hplaced).fail _ _
      · exact (h.update hplaced).proceed rfl
  | some init =>
      obtain ⟨hclosure, hbound⟩ := hplaced.bindMethod init (s.store.newInstance cls).1
      dsimp only [Option.map_some]
      rw [hclosure]
      exact ((h.update hbound).push (.construct (s.store.newInstance cls).1)).enter hset _ _ _

theorem Beside.callNative (h : Beside ρ T T' s s') (range : Range) (ref : Nat)
    (args : List Value) :
    Matches ρ T T' (s.callNative range ref args)
      (s'.callNative range ref (args.map (Value.relocate ρ))) := by
  have htext := h.store.text_eq (.native ref)
  simp only [Value.relocate] at htext
  unfold State.callNative
  rw [h.store.natives]
  cases s.store.natives[ref]? with
  | none => exact .broken
  | some native =>
      dsimp only
      rw [htext, List.length_map, h.store.clock]
      split
      · exact h.fail _ _
      split
      · exact (h.update h.store.tick).proceed rfl
      split
      · cases args with
        | nil => exact .broken
        | cons callee rest =>
            simp only [List.map_cons, Value.isCallable_relocate, h.store.debugText_eq]
            split
            · exact h.await .protect (.call range callee [])
            · exact h.fail _ _
      · exact .broken

theorem Beside.callValue (h : Beside ρ T T' s s') (hset : Settings ρ set set')
    (horder : ∀ cls parent, s.store.Inherits cls parent → parent < cls) (range : Range)
    (callee : Value) (args : List Value) :
    Matches ρ T T' (s.callValue set range callee args)
      (s'.callValue set' range (callee.relocate ρ) (args.map (Value.relocate ρ))) := by
  have htext := h.store.debugText_eq callee
  cases callee with
  | function ref =>
      simp only [Value.relocate, State.callValue, h.store.functions.map_eq]
      cases s.store.functions[ref]? with
      | none => exact .broken
      | some c => exact h.enter hset range c args
  | native ref => exact h.callNative range ref args
  | classRef cls => exact h.instantiate hset horder range cls args
  | _ =>
      simp only [Value.relocate] at htext
      simp only [Value.relocate, State.callValue, htext]
      exact h.fail _ _

/-! ## Declarations -/

theorem collectMethods_relocate (env : Nat) (methods : List Function) (init : Option Closure)
    (found : Bindings Closure) :
    State.collectMethods (ρ.envs.move env) (Function.renumberAll ρ.ids.move methods)
        (init.map (Closure.relocate ρ)) (found.map (Closure.relocate ρ)) =
      ((State.collectMethods env methods init found).1.map (Closure.relocate ρ),
        (State.collectMethods env methods init found).2.map (Closure.relocate ρ)) := by
  induction methods generalizing init found with
  | nil => rfl
  | cons f rest ih =>
      rw [Function.renumberAll, State.collectMethods, State.collectMethods,
        Function.kind_renumber, Function.name_renumber]
      split
      · exact ih (some ⟨f, env⟩) found
      · have hrest := ih init (found.set f.name.text ⟨f, env⟩)
        rw [Bindings.map_set] at hrest
        exact hrest

theorem classOf_relocate (name : Bytes) (superclass : Option Nat) (env : Nat)
    (methods : List Function) :
    State.classOf name (superclass.map ρ.classes.move) (ρ.envs.move env)
        (Function.renumberAll ρ.ids.move methods) =
      (State.classOf name superclass env methods).relocate ρ := by
  have hmethods := collectMethods_relocate (ρ := ρ) env methods none Bindings.empty
  simp only [Option.map_none, Bindings.map_empty] at hmethods
  simp only [State.classOf, Class.relocate, hmethods]

theorem Beside.newClass (h : Beside ρ T T' s s') (hhere : s.env < s.store.envs.size)
    (name : Bytes) (k : Class) :
    Matches ρ T T'
      (.next { s with
        control := .done
        store := (s.store.newClass k).2.define s.env name (.classRef (s.store.newClass k).1) })
      (.next { s' with
        control := .done
        store := (s'.store.newClass (k.relocate ρ)).2.define s'.env name
          (.classRef (s'.store.newClass (k.relocate ρ)).1) }) := by
  have hplaced := h.store.newClass k
  have hbound := (h.update hplaced).define hhere name (.classRef (s.store.newClass k).1)
  have href : Value.relocate ρ (.classRef (s.store.newClass k).1) =
      .classRef (s'.store.newClass (k.relocate ρ)).1 := by
    rw [Value.relocate, Store.newClass, h.store.classes.move_size]
    rfl
  rw [href] at hbound
  exact hbound.proceed rfl

theorem Beside.declareClass (h : Beside ρ T T' s s') (hhere : s.env < s.store.envs.size)
    (name : Bytes) (superclass : Option Nat) (methods : List Function) :
    Matches ρ T T' (s.declareClass name superclass methods)
      (s'.declareClass name (superclass.map ρ.classes.move)
        (Function.renumberAll ρ.ids.move methods)) := by
  have hclass := fun env => classOf_relocate (ρ := ρ) name superclass env methods
  cases superclass with
  | none =>
      have hmatches := h.newClass hhere name (State.classOf name none s.env methods)
      rw [← hclass, ← h.env] at hmatches
      exact hmatches
  | some parent =>
      have hplaced := h.store.newEnv (some s.env)
        (Bindings.empty.set (utf8 "super") (.classRef parent))
      have hlt : s.env < (s.store.newEnv (some s.env)
          (Bindings.empty.set (utf8 "super") (.classRef parent))).2.envs.size := by
        rw [size_newEnv]
        exact Nat.lt_succ_of_lt hhere
      have hmatches := (h.update hplaced).newClass hlt name
        (State.classOf name (some parent) s.store.envs.size methods)
      rw [← hclass, h.store.move_size] at hmatches
      simp only [Option.map_some, ← h.env] at hmatches
      exact hmatches

theorem Beside.execClass (h : Beside ρ T T' s s') (hset : Settings ρ set set')
    (hlayered : Layered s) (name : Name) (superclass : Option Superclass)
    (methods : List Function) :
    Matches ρ T T' (s.execClass set name superclass methods)
      (s'.execClass set' name (superclass.map (Superclass.renumber ρ.ids.move))
        (Function.renumberAll ρ.ids.move methods)) := by
  have hbound := h.define hlayered.here name.text .nil
  have hhere : (s.define name.text .nil).env < (s.define name.text .nil).store.envs.size := by
    rw [State.define, size_define]
    exact hlayered.here
  have holder : ∀ o p, (s.define name.text .nil).store.parent? o = some p → p < o := by
    intro o p hp
    rw [State.define, parent?_define] at hp
    exact hlayered.older o p hp
  unfold State.execClass
  cases superclass with
  | none => exact hbound.declareClass hhere _ _ _
  | some parent =>
      rcases hbound.owner_eq hset holder parent.id parent.name.text with
        ⟨_, d, hbroken⟩ | ⟨_, _, hnone, hnone'⟩ | ⟨_, v, _, _, _, hv, hv'⟩
      · simp only [hbroken]
        exact .broken
      · simp only [Value.relocate] at hnone'
        simp only [Option.map_some, Superclass.renumber, hnone, hnone']
        exact hbound.fail _ _
      · simp only [Value.relocate] at hv'
        simp only [Option.map_some, Superclass.renumber, hv, hv']
        cases v with
        | classRef ref => exact hbound.declareClass hhere _ _ _
        | _ => exact hbound.fail _ _

/-! ## Expressions and statements -/

theorem Beside.eval (h : Beside ρ T T' s s') (hset : Settings ρ set set')
    (hlayered : Layered s) (e : Expr) :
    Matches ρ T T' (s.eval set e) (s'.eval set' (e.renumber ρ.ids.move)) := by
  cases e with
  | literal value span => exact h.proceed (congrArg _ (Value.relocate_ofLiteral value).symm)
  | var id name => exact h.evalVariable hset hlayered.older id name
  | assign id name value span => exact h.await (.assign id name) (.eval value)
  | unary op operand span => exact h.await (.unary op span) (.eval operand)
  | binary op left right span => exact h.await (.left op right span) (.eval left)
  | logical op left right span => exact h.await (.logical op right) (.eval left)
  | group inner span => exact h.proceed rfl
  | call callee args span => exact h.await (.callee args span) (.eval callee)
  | get object name span => exact h.await (.get name) (.eval object)
  | set object name value span => exact h.await (.target name value) (.eval object)
  | this id keyword => exact h.evalVariable hset hlayered.older id _
  | super id thisId keyword method span => exact h.evalSuper hset hlayered.order id thisId method

theorem Beside.execBlock (h : Beside ρ T T' s s') (body : List Stmt) (span : Range) :
    Matches ρ T T' (s.exec set (.block body span))
      (s'.exec set' (.block (Stmt.renumberAll ρ.ids.move body) span)) := by
  have hplaced := h.store.newEnv (some s.env) Bindings.empty
  unfold State.exec
  dsimp only
  rw [h.env]
  refine .next ⟨h.store.move_size.symm, h.depth, ?_, hplaced, h.trace⟩ rfl
  exact congrArg (Frame.scope (ρ.envs.move s.env) :: ·) h.frames

theorem Beside.execFunction (h : Beside ρ T T' s s') (hhere : s.env < s.store.envs.size)
    (decl : Function) :
    Matches ρ T T' (s.exec set (.function decl))
      (s'.exec set' (.function (decl.renumber ρ.ids.move))) := by
  have hplaced := h.store.newFunction ⟨decl, s.env⟩
  have hbound := (h.update hplaced).define hhere decl.name.text
    (.function (s.store.newFunction ⟨decl, s.env⟩).1)
  have hmatches : Matches ρ T T' (State.proceed _ .done) (State.proceed _ .done) :=
    hbound.proceed rfl
  have href : Value.relocate ρ (.function (s.store.newFunction ⟨decl, s.env⟩).1) =
      .function s'.store.functions.size := by
    rw [Value.relocate, Store.newFunction, h.store.functions.move_size]
  rw [href] at hmatches
  unfold State.exec
  dsimp only
  rw [Function.name_renumber, h.env]
  simp only [State.define, h.env] at hmatches
  exact hmatches

theorem Beside.exec (h : Beside ρ T T' s s') (hset : Settings ρ set set')
    (hlayered : Layered s) (stmt : Stmt) :
    Matches ρ T T' (s.exec set stmt) (s'.exec set' (stmt.renumber ρ.ids.move)) := by
  cases stmt with
  | expr value span => exact h.await .discard (.eval value)
  | print value span => exact h.await .print (.eval value)
  | assert value span =>
      simp only [Stmt.renumber, State.exec, Expr.span_renumber]
      exact h.await (.assert value.span) (.eval value)
  | assertEqual left right span =>
      simp only [Stmt.renumber, State.exec, Expr.span_renumber]
      exact h.await (.assertLeft right (left.span.join right.span)) (.eval left)
  | var name init span =>
      cases init with
      | none => exact (h.define hlayered.here name.text .nil).proceed rfl
      | some init => exact h.await (.declare name) (.eval init)
  | block body span => exact h.execBlock body span
  | cond test thenBranch elseBranch span =>
      cases elseBranch with
      | none => exact h.await (.branch thenBranch none) (.eval test)
      | some elseBranch => exact h.await (.branch thenBranch (some elseBranch)) (.eval test)
  | loop test body span => exact h.await (.test test body) (.eval test)
  | ret keyword value span =>
      cases value with
      | none => exact h.proceed rfl
      | some value => exact h.await .giveBack (.eval value)
  | function decl => exact h.execFunction hlayered.here decl
  | classDecl name superclass methods span => exact h.execClass hset hlayered name superclass methods

theorem Beside.execAll (h : Beside ρ T T' s s') (body : List Stmt) :
    Matches ρ T T' (s.execAll body) (s'.execAll (Stmt.renumberAll ρ.ids.move body)) := by
  cases body with
  | nil => exact h.proceed rfl
  | cons stmt rest => exact h.await (.sequence rest) (.exec stmt)

/-! ## Outcomes -/

theorem Beside.nextArgument (h : Beside ρ T T' s s') (callee : Value) (before : List Value)
    (span : Range) (es : List Expr) :
    Matches ρ T T' (s.nextArgument callee before span es)
      (s'.nextArgument (callee.relocate ρ) (before.map (Value.relocate ρ)) span
        (Expr.renumberAll ρ.ids.move es)) := by
  cases es with
  | nil =>
      apply h.proceed
      rw [Control.relocate, List.map_reverse]
  | cons e rest => exact h.await (.argument callee before rest span) (.eval e)

theorem Beside.receive (h : Beside ρ T T' s s') (hset : Settings ρ set set')
    (hlayered : Layered s) (v : Value) (frame : Frame) :
    Matches ρ T T' (s.receive set v frame)
      (s'.receive set' (v.relocate ρ) (frame.relocate ρ)) := by
  cases frame with
  | assign id name => exact h.assignVariable hset hlayered.older id name v
  | unary op span =>
      simp only [Frame.relocate, State.receive, operateUnary_relocate]
      exact h.settle _ _
  | left op right span => exact h.await (.right op v span) (.eval right)
  | right op left span =>
      simp only [Frame.relocate, State.receive, operate_relocate]
      exact h.settle _ _
  | logical op right =>
      cases op with
      | or =>
          simp only [Frame.relocate, State.receive, Value.truthy_relocate]
          split
          · exact h.proceed rfl
          · exact h.proceed rfl
      | and =>
          simp only [Frame.relocate, State.receive, Value.truthy_relocate]
          split
          · exact h.proceed rfl
          · exact h.proceed rfl
  | callee args span => exact h.nextArgument v [] span args
  | argument callee before rest span => exact h.nextArgument callee (v :: before) span rest
  | get name => exact h.getProperty hlayered.order name v
  | target name value =>
      cases v with
      | objectRef object => exact h.await (.field object name) (.eval value)
      | _ => exact h.fail _ _
  | field object name => exact (h.update (h.store.setField object name.text v)).proceed rfl
  | discard => exact h.proceed rfl
  | print =>
      simp only [Frame.relocate, State.receive, hset.options, h.store.text_eq]
      split
      · exact h.proceed rfl
      · exact (h.write _).proceed rfl
  | assert range =>
      simp only [Frame.relocate, State.receive, Value.truthy_relocate]
      split
      · exact h.proceed rfl
      · exact h.fail _ _
  | assertLeft right range => exact h.await (.assertRight v range) (.eval right)
  | assertRight left range =>
      simp only [Frame.relocate, State.receive, Value.same_relocate, h.store.debugText_eq]
      split
      · exact h.proceed rfl
      · exact h.fail _ _
  | branch thenBranch elseBranch =>
      simp only [Frame.relocate, State.receive, Value.truthy_relocate]
      split
      · exact h.proceed rfl
      · cases elseBranch with
        | none => exact h.proceed rfl
        | some stmt => exact h.proceed rfl
  | test test body =>
      simp only [Frame.relocate, State.receive, Value.truthy_relocate]
      split
      · exact h.await (.body test body) (.exec body)
      · exact h.proceed rfl
  | declare name => exact (h.define hlayered.here name.text v).proceed rfl
  | giveBack => exact h.proceed rfl
  | construct object => exact h.proceed rfl
  | protect => exact h.proceed rfl
  | _ => exact .broken

theorem Beside.complete (h : Beside ρ T T' s s') (frame : Frame) :
    Matches ρ T T' (s.complete frame) (s'.complete (frame.relocate ρ)) := by
  cases frame with
  | body test body => exact h.await (.test test body) (.eval test)
  | sequence rest => exact h.proceed rfl
  | scope saved => exact (h.back saved).proceed rfl
  | activation saved closure => exact h.leave saved closure .nil
  | program rest =>
      cases rest with
      | nil => exact h.proceed rfl
      | cons stmt rest => exact h.await (.program rest) (.exec stmt)
  | _ => exact .broken

theorem Beside.unwind (h : Beside ρ T T' s s') (v : Value) (frame : Frame) :
    Matches ρ T T' (s.unwind v frame) (s'.unwind (v.relocate ρ) (frame.relocate ρ)) := by
  cases frame with
  | activation saved closure => exact h.leave saved closure v
  | scope saved => exact (h.back saved).proceed rfl
  | program rest => exact h.await (.program rest) .done
  | _ => exact h.proceed rfl

theorem Beside.raise (h : Beside ρ T T' s s') (hset : Settings ρ set set') (e : RuntimeError)
    (frame : Frame) :
    Matches ρ T T' (s.raise set e frame) (s'.raise set' e (frame.relocate ρ)) := by
  cases frame with
  | activation saved closure => exact (h.return saved).proceed rfl
  | scope saved => exact (h.back saved).proceed rfl
  | protect => exact (h.log hset _).proceed rfl
  | _ => exact h.proceed rfl

/-! ## Runs -/

/-- Both machines have a frame to take off, or neither. -/
theorem Beside.pop (h : Beside ρ T T' s s') :
    s.pop = none ∧ s'.pop = none ∨
    ∃ frame rest, s.pop = some (frame, { s with frames := rest }) ∧
      s'.pop = some (frame.relocate ρ, { s' with frames := rest.map (Frame.relocate ρ) }) ∧
      Beside ρ T T' { s with frames := rest }
        { s' with frames := rest.map (Frame.relocate ρ) } := by
  unfold State.pop
  rw [h.frames]
  cases s.frames with
  | nil => exact .inl ⟨rfl, rfl⟩
  | cons frame rest =>
      exact .inr ⟨frame, rest, rfl, rfl, h.env, h.depth, rfl, h.store, h.trace⟩

theorem Beside.advance (h : Beside ρ T T' s s') (hcontrol : s'.control = s.control.relocate ρ)
    (hset : Settings ρ set set') (hlayered : Layered s) :
    Matches ρ T T' (LoxMachine.advance set s) (LoxMachine.advance set' s') := by
  have hlower : ∀ rest, Layered { s with frames := rest } := fun _ =>
    ⟨hlayered.here, hlayered.older, hlayered.order⟩
  unfold LoxMachine.advance
  rw [hcontrol]
  cases s.control with
  | eval e => exact h.eval hset hlayered e
  | exec stmt => exact h.exec hset hlayered stmt
  | run body => exact h.execAll body
  | call range callee args => exact h.callValue hset hlayered.order range callee args
  | value v =>
      simp only [Control.relocate]
      rcases h.pop with ⟨hpop, hpop'⟩ | ⟨frame, rest, hpop, hpop', hrest⟩
      · rw [hpop]
        exact .broken
      · rw [hpop, hpop']
        exact hrest.receive hset (hlower rest) v frame
  | done =>
      simp only [Control.relocate]
      rcases h.pop with ⟨hpop, hpop'⟩ | ⟨frame, rest, hpop, hpop', hrest⟩
      · rw [hpop, hpop']
        exact .halt h.store h.trace
      · rw [hpop, hpop']
        exact hrest.complete frame
  | returning v =>
      simp only [Control.relocate]
      rcases h.pop with ⟨hpop, hpop'⟩ | ⟨frame, rest, hpop, hpop', hrest⟩
      · rw [hpop]
        exact .broken
      · rw [hpop, hpop']
        exact hrest.unwind v frame
  | failing e =>
      simp only [Control.relocate]
      rcases h.pop with ⟨hpop, hpop'⟩ | ⟨frame, rest, hpop, hpop', hrest⟩
      · rw [hpop, hpop']
        exact .halt h.store h.trace
      · rw [hpop, hpop']
        exact hrest.raise hset e frame

theorem layered_of_orderly {D : List Function → Prop} (h : s.Orderly D) : Layered s :=
  ⟨h.code.frames.here.1, h.store.older, h.store.order⟩

variable {D : List Function → Prop} {W : World} {R : Sites}

/-- Machines side by side come to the same end, with stores one inside the other, and have
written the same. -/
theorem Beside.run (h : Beside ρ T T' s s') (hcontrol : s'.control = s.control.relocate ρ)
    (hset : Settings ρ set set') (hD : Known D)
    (hR : ∀ base site, R base site → site.Settled set.depths) (fuel : Nat)
    (hvalid : Valid W R s) (horderly : s.Orderly D) :
    (LoxMachine.run set' fuel s').1 = (LoxMachine.run set fuel s).1 ∧
      Placed ρ (LoxMachine.run set fuel s).2.store (LoxMachine.run set' fuel s').2.store ∧
      Echoes T T' (LoxMachine.run set fuel s).2.trace (LoxMachine.run set' fuel s').2.trace := by
  -- Validity keeps the first machine from breaking down, where the second may do anything;
  -- order keeps searches along parents from running out of steps.
  induction fuel generalizing W s s' with
  | zero => exact ⟨rfl, h.store, h.trace⟩
  | succ fuel ih =>
      have hstep := h.advance hcontrol hset (layered_of_orderly horderly)
      have hcontinues := continues_advance hR hvalid
      have horder := horderly.advance hD hR hvalid
      rw [LoxMachine.run, LoxMachine.run]
      generalize LoxMachine.advance set s = p at hstep hcontinues horder
      generalize LoxMachine.advance set' s' = p' at hstep
      cases hstep with
      | next hbeside hcontrol =>
          obtain ⟨W', _, _, hvalid'⟩ := hcontinues
          exact ih hbeside hcontrol hvalid' (horder.2 _ rfl)
      | halt hstore htrace => exact ⟨rfl, hstore, htrace⟩
      | broken => exact absurd rfl (hcontinues.1 _)

end Relocation

end LoxMachine
