import LoxMachine.Proofs.Machine.Safety
import LoxMachine.Proofs.Renaming.Stores

/-!
# Alike programs run in lockstep

Two machines on alike code and twin stores take the same steps, write the same and come
to the same end, unless the first one breaks down.
-/

namespace LoxMachine.Renaming

open Store Scope

/-! ## States side by side -/

/-- Something holds for the marks of the environments around `env`. -/
def Under (Z : Marked) (st : Store) (env : Nat) (P : List Bool → Prop) : Prop :=
  ∃ marks, Along Z st env marks ∧ P marks

section Relations

variable (D : Depths) (x y : Bytes) (Z : Marked) (st : Store)

/-- Frames that wait in `env` above frames that wait in another environment. -/
inductive Pair : Nat → Frame → Frame → Nat → Prop where
  | assign {env id name name'} (hrange : name'.range = name.range)
      (h : Under Z st env fun marks => Denotes D x y marks id name.text name'.text) :
      Pair env (.assign id name) (.assign id name') env
  | unary {env op span} : Pair env (.unary op span) (.unary op span) env
  | left {env op right right' span}
      (h : Under Z st env fun marks => AlikeExpr D x y marks right right') :
      Pair env (.left op right span) (.left op right' span) env
  | right {env op left span} : Pair env (.right op left span) (.right op left span) env
  | logical {env op right right'}
      (h : Under Z st env fun marks => AlikeExpr D x y marks right right') :
      Pair env (.logical op right) (.logical op right') env
  | callee {env args args' span}
      (h : Under Z st env fun marks => AlikeArgs D x y marks args args') :
      Pair env (.callee args span) (.callee args' span) env
  | argument {env callee before rest rest' span}
      (h : Under Z st env fun marks => AlikeArgs D x y marks rest rest') :
      Pair env (.argument callee before rest span) (.argument callee before rest' span) env
  | get {env name} : Pair env (.get name) (.get name) env
  | target {env name value value'}
      (h : Under Z st env fun marks => AlikeExpr D x y marks value value') :
      Pair env (.target name value) (.target name value') env
  | field {env object name} : Pair env (.field object name) (.field object name) env
  | discard {env} : Pair env .discard .discard env
  | print {env} : Pair env .print .print env
  | assert {env range} : Pair env (.assert range) (.assert range) env
  | assertLeft {env right right' range}
      (h : Under Z st env fun marks => AlikeExpr D x y marks right right') :
      Pair env (.assertLeft right range) (.assertLeft right' range) env
  | assertRight {env left range} :
      Pair env (.assertRight left range) (.assertRight left range) env
  | branch {env branch branch'}
      (h : Under Z st env fun marks => AlikeStmt D x y marks branch branch') :
      Pair env (.branch branch none) (.branch branch' none) env
  | choice {env branch branch' other other'}
      (h : Under Z st env fun marks => AlikeStmt D x y marks branch branch' ∧
        AlikeStmt D x y marks other other') :
      Pair env (.branch branch (some other)) (.branch branch' (some other')) env
  | test {env test test' body body'}
      (h : Under Z st env fun marks => AlikeExpr D x y marks test test' ∧
        AlikeStmt D x y marks body body') :
      Pair env (.test test body) (.test test' body') env
  | declare {env name name'}
      (h : Under Z st env fun marks => name'.text = turn x y (markAt marks 0) name.text) :
      Pair env (.declare name) (.declare name') env
  | giveBack {env} : Pair env .giveBack .giveBack env
  | construct {env} (object : Nat) : Pair env (.construct object) (.construct object) env
  | protect {env} : Pair env .protect .protect env
  | body {env test test' body body'}
      (h : Under Z st env fun marks => AlikeExpr D x y marks test test' ∧
        AlikeStmt D x y marks body body') :
      Pair env (.body test body) (.body test' body') env
  | sequence {env rest rest'}
      (h : Under Z st env fun marks => AlikeBody D x y marks rest rest') :
      Pair env (.sequence rest) (.sequence rest') env
  | scope {env saved} : Pair env (.scope saved) (.scope saved) saved
  | activation {env saved closure closure'} (henv : closure'.env = closure.env)
      (hkind : closure'.decl.kind = closure.decl.kind) :
      Pair env (.activation saved closure) (.activation saved closure') saved
  | program {env rest rest'}
      (h : Under Z st env fun marks => AlikeBody D x y marks rest rest') :
      Pair env (.program rest) (.program rest') env

inductive Stacks : Nat → List Frame → List Frame → Prop where
  | nil {env} : Stacks env [] []
  | cons {env env' frame frame' frames frames'} (hpair : Pair D x y Z st env frame frame' env')
      (hrest : Stacks env' frames frames') : Stacks env (frame :: frames) (frame' :: frames')

/-- What two machines are about to do in `env`. -/
inductive Controls (env : Nat) : Control → Control → Prop where
  | eval {e e'} (h : Under Z st env fun marks => AlikeExpr D x y marks e e') :
      Controls env (.eval e) (.eval e')
  | exec {s s'} (h : Under Z st env fun marks => AlikeStmt D x y marks s s') :
      Controls env (.exec s) (.exec s')
  | run {body body'} (h : Under Z st env fun marks => AlikeBody D x y marks body body') :
      Controls env (.run body) (.run body')
  | call {range callee args} : Controls env (.call range callee args) (.call range callee args)
  | value {v} : Controls env (.value v) (.value v)
  | done : Controls env .done .done
  | returning {v} : Controls env (.returning v) (.returning v)
  | failing {e} : Controls env (.failing e) (.failing e)

/-- Two states that agree in all but what they are about to do. -/
structure Beside (s s' : State) : Prop where
  env : s'.env = s.env
  depth : s'.depth = s.depth
  trace : s'.trace = s.trace
  store : Twin D x y Z s.store s'.store
  frames : Stacks D x y Z s.store s.env s.frames s'.frames

end Relations

/-- Two steps lead to states side by side or to the same end, unless the first breaks
down. -/
inductive Matches (D : Depths) (x y : Bytes) : Progress → Progress → Prop where
  | next {Z s s'} (h : Beside D x y Z s s')
      (hcontrol : Controls D x y Z s.store s.env s.control s'.control) :
      Matches D x y (.next s) (.next s')
  | halt {ending s s'} (htrace : s'.trace = s.trace) :
      Matches D x y (.halt ending s) (.halt ending s')
  | broken {d s p} : Matches D x y (.halt (.broken d) s) p

/-- Settings of programs in which two names are exchanged that are no keywords. -/
structure Settings (D : Depths) (x y : Bytes) (set set' : Setting) : Prop where
  plain : Plain x ∧ Plain y
  depths : ∀ id, set.depths.depth? id = D.depth? id
  depths' : ∀ id, set'.depths.depth? id = D.depth? id
  options : set'.options = set.options
  logging : set'.logging = set.logging

variable {D : Depths} {x y : Bytes} {Z Z' : Marked} {st later : Store} {env env' : Nat}
  {frame frame' : Frame} {frames frames' : List Frame} {P Q : List Bool → Prop} {s s' : State}

/-! ## Later stores -/

theorem Under.mono (h : Under Z st env P) (hlater : Prolongs st later) (hordered : Ordered st)
    (hZ : ∀ o < st.envs.size, Z' o = Z o) : Under Z' later env P := by
  obtain ⟨marks, halong, hP⟩ := h
  exact ⟨marks, halong.mono hlater hordered hZ, hP⟩

theorem Under.imp (h : Under Z st env P) (hPQ : ∀ marks, P marks → Q marks) :
    Under Z st env Q := by
  obtain ⟨marks, halong, hP⟩ := h
  exact ⟨marks, halong, hPQ marks hP⟩

theorem Pair.mono (h : Pair D x y Z st env frame frame' env') (hlater : Prolongs st later)
    (hordered : Ordered st) (hZ : ∀ o < st.envs.size, Z' o = Z o) :
    Pair D x y Z' later env frame frame' env' := by
  cases h with
  | assign hrange h => exact .assign hrange (h.mono hlater hordered hZ)
  | unary => exact .unary
  | left h => exact .left (h.mono hlater hordered hZ)
  | right => exact .right
  | logical h => exact .logical (h.mono hlater hordered hZ)
  | callee h => exact .callee (h.mono hlater hordered hZ)
  | argument h => exact .argument (h.mono hlater hordered hZ)
  | get => exact .get
  | target h => exact .target (h.mono hlater hordered hZ)
  | field => exact .field
  | discard => exact .discard
  | print => exact .print
  | assert => exact .assert
  | assertLeft h => exact .assertLeft (h.mono hlater hordered hZ)
  | assertRight => exact .assertRight
  | branch h => exact .branch (h.mono hlater hordered hZ)
  | choice h => exact .choice (h.mono hlater hordered hZ)
  | test h => exact .test (h.mono hlater hordered hZ)
  | declare h => exact .declare (h.mono hlater hordered hZ)
  | giveBack => exact .giveBack
  | construct object => exact .construct object
  | protect => exact .protect
  | body h => exact .body (h.mono hlater hordered hZ)
  | sequence h => exact .sequence (h.mono hlater hordered hZ)
  | scope => exact .scope
  | activation henv hkind => exact .activation henv hkind
  | program h => exact .program (h.mono hlater hordered hZ)

theorem Stacks.mono (h : Stacks D x y Z st env frames frames') (hlater : Prolongs st later)
    (hordered : Ordered st) (hZ : ∀ o < st.envs.size, Z' o = Z o) :
    Stacks D x y Z' later env frames frames' := by
  induction h with
  | nil => exact .nil
  | cons hpair _ ih => exact .cons (hpair.mono hlater hordered hZ) ih

/-! ## Moves -/

variable {set set' : Setting} {control control' : Control}

theorem Beside.proceed (h : Beside D x y Z s s')
    (hcontrol : Controls D x y Z s.store s.env control control') :
    Matches D x y (s.proceed control) (s'.proceed control') :=
  .next (Z := Z) ⟨h.env, h.depth, h.trace, h.store, h.frames⟩ hcontrol

theorem Beside.push (h : Beside D x y Z s s')
    (hpair : Pair D x y Z s.store s.env frame frame' s.env) :
    Beside D x y Z { s with frames := frame :: s.frames }
      { s' with frames := frame' :: s'.frames } :=
  ⟨h.env, h.depth, h.trace, h.store, .cons hpair h.frames⟩

theorem Beside.await (h : Beside D x y Z s s')
    (hpair : Pair D x y Z s.store s.env frame frame' s.env)
    (hcontrol : Controls D x y Z s.store s.env control control') :
    Matches D x y (s.await frame control) (s'.await frame' control') :=
  (h.push hpair).proceed hcontrol

theorem Beside.fail (h : Beside D x y Z s s') (range : Range) (cause : Cause) :
    Matches D x y (s.fail range cause) (s'.fail range cause) :=
  h.proceed .failing

/-- The states with later stores. -/
theorem Beside.update (h : Beside D x y Z s s') {later later' : Store}
    (hstore : Twin D x y Z' later later') (hlater : Prolongs s.store later)
    (hZ : ∀ o < s.store.envs.size, Z' o = Z o) :
    Beside D x y Z' { s with store := later } { s' with store := later' } :=
  ⟨h.env, h.depth, h.trace, hstore, h.frames.mono hlater h.store.ordered hZ⟩

theorem Beside.write (h : Beside D x y Z s s') (event : Event) :
    Beside D x y Z (s.write event) (s'.write event) :=
  ⟨h.env, h.depth, congrArg (Array.push · event) h.trace, h.store, h.frames⟩

theorem Beside.log (h : Beside D x y Z s s') (hset : Settings D x y set set') (record : Record) :
    Beside D x y Z (s.log set record) (s'.log set' record) := by
  unfold State.log
  rw [hset.logging]
  split
  · exact h.write _
  · exact h

theorem Beside.define (h : Beside D x y Z s s') (henv : s.env < s.store.envs.size)
    {name name' : Bytes} (hname : name' = turn x y (Z s.env) name) (v : Value) :
    Beside D x y Z (s.define name v) (s'.define name' v) := by
  refine ⟨h.env, h.depth, h.trace, ?_, ?_⟩
  · rw [State.define, State.define, h.env, hname]
    exact h.store.define henv name v
  · exact h.frames.mono (prolongs_define name v) h.store.ordered fun _ _ => rfl

/-! ## Variables -/

variable {id : Nat} {name name' : Bytes}

/-- A variable that a node denotes at a depth is bound in the same environment, or not
there in the first store. -/
theorem Twin.bindingAt_eq {st' : Store} (h : Twin D x y Z st st') (depth : Nat)
    (hname : ∀ o, st.climb depth env = some o → name' = turn x y (Z o) name) :
    (∃ d, st.bindingAt env depth name = .error d) ∨
      ∃ owner v, st.climb depth env = some owner ∧
        st.bindingAt env depth name = .ok (owner, v) ∧
        st'.bindingAt env depth name' = .ok (owner, v) := by
  cases hbinding : st.bindingAt env depth name with
  | error d => exact .inl ⟨d, rfl⟩
  | ok found =>
      obtain ⟨owner, v⟩ := found
      obtain ⟨hclimb, hat⟩ := bindingAt_eq_ok_iff.mp hbinding
      refine .inr ⟨owner, v, hclimb, rfl, ?_⟩
      refine bindingAt_eq_ok ((h.climb_eq depth env).trans hclimb) ?_
      rw [hname owner hclimb, h.vars]
      exact hat

/-- Two nodes that denote the same variable find it in the same place. -/
theorem Beside.owner_eq (h : Beside D x y Z s s') (hset : Settings D x y set set')
    (hdenotes : Under Z s.store s.env fun marks => Denotes D x y marks id name name') :
    ((∃ d, s.owner set id name = .error d) ∧ ∃ d, s.lookup set id name = .error d) ∨
    (s.owner set id name = .ok none ∧ s'.owner set' id name' = .ok none ∧
      s.lookup set id name = .ok none ∧ s'.lookup set' id name' = .ok none ∧ name' = name) ∨
    ∃ owner v, s.owner set id name = .ok (some owner) ∧
      s'.owner set' id name' = .ok (some owner) ∧ s.lookup set id name = .ok (some v) ∧
      s'.lookup set' id name' = .ok (some v) ∧ owner < s.store.envs.size ∧
      name' = turn x y (Z owner) name := by
  obtain ⟨marks, ⟨henv, halong⟩, hname⟩ := hdenotes
  have hlt : ∀ k o, s.store.climb k s.env = some o → o < s.store.envs.size :=
    fun k o hclimb => Nat.lt_of_le_of_lt (h.store.ordered.climb_le hclimb) henv
  unfold Denotes at hname
  unfold State.owner State.lookup
  rw [hset.depths, hset.depths', h.env]
  cases hdepth : D.depth? id with
  | some depth =>
      rw [hdepth] at hname
      have hturn : ∀ o, s.store.climb depth s.env = some o → name' = turn x y (Z o) name :=
        fun o hclimb => by rw [halong depth o hclimb]; exact hname
      rcases h.store.bindingAt_eq depth hturn with ⟨d, hbroken⟩ | ⟨owner, v, hclimb, hfirst, hsecond⟩
      · refine .inl ⟨⟨d, ?_⟩, d, ?_⟩
        · simp only [hbroken, Except.map]
        · simp only [getAt, hbroken, Except.map]
      · refine .inr (.inr ⟨owner, v, ?_, ?_, ?_, ?_, hlt depth owner hclimb, hturn owner hclimb⟩)
        · simp only [hfirst, Except.map]
        · simp only [hsecond, Except.map]
        · simp only [getAt, hfirst, Except.map]
        · simp only [getAt, hsecond, Except.map]
  | none =>
      rw [hdepth] at hname
      obtain ⟨rfl, hfixed⟩ := hname
      have hturn : ∀ k o, s.store.climb k s.env = some o → turn x y (Z o) name' = name' :=
        fun k o hclimb => by rw [halong k o hclimb]; exact hfixed k
      have hsearch : s'.store.nearest? s.env name' = s.store.nearest? s.env name' :=
        h.store.search_eq (s.env + 1) hturn
      refine .inr ?_
      simp only [get?, hsearch]
      cases hfound : s.store.nearest? s.env name' with
      | none => exact .inl (by simp only [Option.map_none, and_self])
      | some found =>
          obtain ⟨owner, v⟩ := found
          obtain ⟨_, depth, hclimb, _⟩ := climb_of_search hfound
          exact .inr ⟨owner, v, rfl, rfl, rfl, rfl, hlt depth owner hclimb,
            (hturn depth owner hclimb).symm⟩

/-- A name that is none of the two denotes itself. -/
theorem denotes_fixed (hset : Settings D x y set set') (hthis : name = utf8 "this") (id : Nat)
    (marks : List Bool) : Denotes D x y marks id name name := by
  have hfixed : ∀ marked, turn x y marked name = name := fun marked =>
    turn_of_ne (hthis ▸ hset.plain.1.1.symm) (hthis ▸ hset.plain.2.1.symm)
  unfold Denotes
  split
  · exact (hfixed _).symm
  · exact ⟨rfl, fun k => hfixed _⟩

theorem Beside.evalVariable (h : Beside D x y Z s s') (hset : Settings D x y set set')
    {name name' : Name} (hrange : name'.range = name.range)
    (hdenotes : Under Z s.store s.env fun marks => Denotes D x y marks id name.text name'.text) :
    Matches D x y (s.evalVariable set id name) (s'.evalVariable set' id name') := by
  unfold State.evalVariable
  rcases h.owner_eq hset hdenotes with ⟨_, d, hbroken⟩ | ⟨_, _, hnone, hnone', htext⟩ |
    ⟨owner, v, _, _, hv, hv', _⟩
  · simp only [hbroken]
    exact .broken
  · simp only [hnone, hnone']
    rw [hrange, htext]
    exact h.fail _ _
  · simp only [hv, hv']
    exact h.proceed .value

theorem Beside.assignVariable (h : Beside D x y Z s s') (hset : Settings D x y set set')
    {name name' : Name} (hrange : name'.range = name.range)
    (hdenotes : Under Z s.store s.env fun marks => Denotes D x y marks id name.text name'.text)
    (v : Value) :
    Matches D x y (s.assignVariable set id name v) (s'.assignVariable set' id name' v) := by
  unfold State.assignVariable
  rcases h.owner_eq hset hdenotes with ⟨⟨d, hbroken⟩, _⟩ | ⟨hnone, hnone', _, _, htext⟩ |
    ⟨owner, _, howner, howner', _, _, hlt, htext⟩
  · simp only [hbroken]
    exact .broken
  · simp only [hnone, hnone']
    rw [hrange, htext]
    exact h.fail _ _
  · simp only [howner, howner']
    rw [htext]
    have hbeside := h.update (h.store.define hlt name.text v) (prolongs_define name.text v)
      fun _ _ => rfl
    exact hbeside.proceed .value

/-! ## Properties -/

variable {c c' : Closure}

theorem Beside.yieldMethod (h : Beside D x y Z s s') (hc : TwinMethod D x y Z s.store c c')
    (object : Nat) : Matches D x y (s.yieldMethod c object) (s'.yieldMethod c' object) := by
  obtain ⟨htwin, hclosure⟩ := h.store.bindMethod hc object
  have hbound := h.update htwin (prolongs_newEnv _ _) fun o => Z.extend_of_lt false
  have hbeside := hbound.update (htwin.newFunction hclosure) (prolongs_of_envs rfl) fun _ _ => rfl
  have hmatches := hbeside.proceed (.value (v := .function s.store.functions.size))
  unfold State.yieldMethod
  simp only [Store.newFunction, htwin.functionCount]
  exact hmatches

theorem Beside.getProperty (h : Beside D x y Z s s') (name : Name) (v : Value) :
    Matches D x y (s.getProperty name v) (s'.getProperty name v) := by
  cases v with
  | objectRef object =>
      simp only [State.getProperty, h.store.instances]
      cases s.store.instances[object]? with
      | none => exact .broken
      | some o =>
          cases hfield : o.fields.get? name.text with
          | some v =>
              simp only [hfield]
              exact h.proceed .value
          | none =>
              rcases rel_cases (h.store.method_rel o.cls name.text) with
                ⟨hnone, hnone'⟩ | ⟨c, c', hc, hc', hmethod⟩
              · simp only [hfield, hnone, hnone']
                exact h.fail _ _
              · simp only [hfield, hc, hc']
                exact h.yieldMethod hmethod object
  | _ => exact h.fail _ _

/-- `this` and `super` are found in the same place, if they are. -/
theorem Beside.getAt_eq (h : Beside D x y Z s s') {name : Bytes} (hx : x ≠ name) (hy : y ≠ name)
    (env depth : Nat) :
    (∃ d, s.store.getAt env depth name = .error d) ∨
      ∃ v, s.store.getAt env depth name = .ok v ∧ s'.store.getAt env depth name = .ok v := by
  have hfixed : ∀ o, s.store.climb depth env = some o → name = turn x y (Z o) name :=
    fun o _ => (turn_of_ne hx.symm hy.symm).symm
  unfold getAt
  rcases h.store.bindingAt_eq depth hfixed with ⟨d, hbroken⟩ | ⟨owner, v, _, hfirst, hsecond⟩
  · exact .inl ⟨d, by rw [hbroken]; rfl⟩
  · exact .inr ⟨v, by rw [hfirst]; rfl, by rw [hsecond]; rfl⟩

theorem Beside.evalSuper (h : Beside D x y Z s s') (hset : Settings D x y set set')
    (id thisId : Nat) (method : Name) :
    Matches D x y (s.evalSuper set id thisId method) (s'.evalSuper set' id thisId method) := by
  unfold State.evalSuper
  rw [hset.depths, hset.depths, hset.depths', hset.depths', h.env]
  cases D.depth? id with
  | none => exact .broken
  | some superDepth =>
      cases D.depth? thisId with
      | none => exact .broken
      | some thisDepth =>
          rcases h.getAt_eq hset.plain.1.2 hset.plain.2.2 s.env superDepth with
            ⟨d, hbroken⟩ | ⟨above, habove, habove'⟩
          · simp only [hbroken]
            exact .broken
          rcases h.getAt_eq hset.plain.1.1 hset.plain.2.1 s.env thisDepth with
            ⟨d, hbroken⟩ | ⟨this, hthis, hthis'⟩
          · simp only [habove, hbroken]
            exact .broken
          simp only [habove, habove', hthis, hthis']
          cases above with
          | classRef cls =>
              cases this with
              | objectRef object =>
                  rcases rel_cases (h.store.method_rel cls method.text) with
                    ⟨hnone, hnone'⟩ | ⟨c, c', hc, hc', hmethod⟩
                  · simp only [hnone, hnone']
                    exact h.fail _ _
                  · simp only [hc, hc']
                    exact h.yieldMethod hmethod object
              | _ => exact .broken
          | _ => cases this <;> exact .broken

/-! ## Calls -/

variable {range : Range} {args : List Value}

theorem bindParams_turn {marked : Bool} {params params' : List Name} {vars vars' : Bindings Value}
    (hparams : params'.map Name.text = params.map fun p => turn x y marked p.text)
    (hvars : ∀ n, vars'.get? (turn x y marked n) = vars.get? n) (args : List Value) (n : Bytes) :
    (State.bindParams params' args vars').get? (turn x y marked n) =
      (State.bindParams params args vars).get? n := by
  induction params generalizing params' args vars vars' with
  | nil =>
      rw [List.map_nil, List.map_eq_nil_iff] at hparams
      subst hparams
      cases args <;> exact hvars n
  | cons p params ih =>
      obtain ⟨p', rest, rfl, hp, hrest⟩ := List.map_eq_cons_iff.mp hparams
      cases args with
      | nil =>
          rw [State.bindParams, State.bindParams, hp]
          exact ih hrest (get?_set_turn hvars p.text .nil) []
      | cons v args =>
          rw [State.bindParams, State.bindParams, hp]
          exact ih hrest (get?_set_turn hvars p.text v) args

/-- The body of a function in a new environment, marked if the function's scope is. -/
theorem Beside.enter (h : Beside D x y Z s s') (hset : Settings D x y set set')
    (hc : TwinClosure D x y Z s.store c c') (range : Range) (args : List Value) :
    Matches D x y (s.enter set range c args) (s'.enter set' range c' args) := by
  obtain ⟨decl, outer⟩ := c
  obtain ⟨decl', outer'⟩ := c'
  obtain ⟨henv, marks, halong, halike⟩ := hc
  simp only at henv halong halike
  subst henv
  unfold State.enter
  rw [hset.options, halike.name_eq, halike.arity_eq, h.depth]
  dsimp only
  split
  · exact h.fail _ _
  split
  · exact h.fail _ _
  generalize Record.mk (utf8 "call") _ = record
  have hlog := h.log hset record
  rw [← log_store s set record] at halong
  generalize s.log set record = t at hlog halong ⊢
  generalize s'.log set' record = t' at hlog ⊢
  have hkind := halike.kind_eq
  cases halike with
  | mk marked hparams hbody =>
      have htwin := hlog.store.newEnv halong.1 marked
        (bindParams_turn hparams (get?_empty_turn marked) args)
      have hbeside := hlog.update htwin (prolongs_newEnv _ _) fun o => Z.extend_of_lt marked
      refine .next ⟨?_, ?_, ?_, htwin, ?_⟩
        (.run ⟨_, halong.newEnv hlog.store.ordered marked _, hbody⟩)
      · exact hlog.store.size
      · exact congrArg (· + 1) hlog.depth
      · exact hlog.trace
      · rw [hlog.env]
        exact .cons (.activation rfl hkind) hbeside.frames

theorem Beside.leave (h : Beside D x y Z { s with env := env } { s' with env := env })
    (hset : Settings D x y set set') (henv : c'.env = c.env)
    (hkind : c'.decl.kind = c.decl.kind) (v : Value) :
    Matches D x y (s.leave env c v) (s'.leave env c' v) := by
  have hback : Beside D x y Z { s with env := env, depth := s.depth - 1 }
      { s' with env := env, depth := s'.depth - 1 } :=
    ⟨rfl, congrArg (· - 1) h.depth, h.trace, h.store, h.frames⟩
  unfold State.leave
  rw [hkind, henv]
  split
  · rcases hback.getAt_eq hset.plain.1.1 hset.plain.2.1 c.env 0 with
      ⟨d, hbroken⟩ | ⟨this, hthis, hthis'⟩
    · simp only at hbroken
      simp only [hbroken]
      exact .broken
    · simp only at hthis hthis'
      simp only [hthis, hthis']
      exact hback.proceed .value
  · exact hback.proceed .value

theorem Beside.instantiate (h : Beside D x y Z s s') (hset : Settings D x y set set')
    (range : Range) (cls : Nat) (args : List Value) :
    Matches D x y (s.instantiate set range cls args) (s'.instantiate set' range cls args) := by
  have htwin := h.store.newInstance cls
  have hmade := h.update htwin (prolongs_of_envs rfl) fun _ _ => rfl
  have hobject : (s'.store.newInstance cls).1 = (s.store.newInstance cls).1 :=
    congrArg Array.size h.store.instances
  unfold State.instantiate
  dsimp only
  rw [hobject]
  rcases rel_cases (htwin.method_rel cls (utf8 "init")) with
    ⟨hnone, hnone'⟩ | ⟨c, c', hc, hc', hmethod⟩
  · simp only [hnone, hnone', htwin.text_eq, hset.options]
    split
    · exact hmade.fail _ _
    · exact hmade.proceed .value
  · simp only [hc, hc']
    obtain ⟨hbind, hclosure⟩ := htwin.bindMethod hmethod (s.store.newInstance cls).1
    have hbound := hmade.update hbind (prolongs_newEnv _ _) fun o => Z.extend_of_lt false
    have hpushed := hbound.push (.construct (s.store.newInstance cls).1)
    exact hpushed.enter hset hclosure range args

theorem Beside.callNative (h : Beside D x y Z s s') (range : Range) (ref : Nat)
    (args : List Value) :
    Matches D x y (s.callNative range ref args) (s'.callNative range ref args) := by
  simp only [State.callNative, h.store.natives, h.store.text_eq, h.store.debugText_eq,
    h.store.clock]
  cases s.store.natives[ref]? with
  | none => exact .broken
  | some native =>
      dsimp only
      split
      · exact h.fail _ _
      split
      · exact (h.update h.store.tick (prolongs_of_envs rfl) fun _ _ => rfl).proceed .value
      split
      · cases args with
        | nil => exact .broken
        | cons callee rest =>
            dsimp only
            split
            · exact h.await .protect .call
            · exact h.fail _ _
      · exact .broken

theorem Beside.callValue (h : Beside D x y Z s s') (hset : Settings D x y set set')
    (range : Range) (callee : Value) (args : List Value) :
    Matches D x y (s.callValue set range callee args) (s'.callValue set' range callee args) := by
  cases callee with
  | function ref =>
      rcases rel_cases (h.store.functions ref) with ⟨hnone, hnone'⟩ | ⟨c, c', hc, hc', hclosure⟩
      · simp only [State.callValue, hnone]
        exact .broken
      · simp only [State.callValue, hc, hc']
        exact h.enter hset hclosure range args
  | native ref => exact h.callNative range ref args
  | classRef cls => exact h.instantiate hset range cls args
  | _ =>
      simp only [State.callValue, h.store.debugText_eq]
      exact h.fail _ _

/-! ## Declarations -/

/-- The methods collected from alike declarations. -/
theorem collectMethods_rel {marks : List Bool} (halong : Along Z st env marks)
    {fs fs' : List Function} (halike : AlikeMethods D x y (false :: marks) fs fs')
    {init init' : Option Closure} {found found' : Bindings Closure}
    (hinit : Option.Rel (TwinMethod D x y Z st) init init')
    (hfound : ∀ n, Option.Rel (TwinMethod D x y Z st) (found.get? n) (found'.get? n)) :
    Option.Rel (TwinMethod D x y Z st) (State.collectMethods env fs init found).1
        (State.collectMethods env fs' init' found').1 ∧
      ∀ n, Option.Rel (TwinMethod D x y Z st)
        ((State.collectMethods env fs init found).2.get? n)
        ((State.collectMethods env fs' init' found').2.get? n) := by
  induction fs generalizing fs' init init' found found' with
  | nil =>
      cases halike
      exact ⟨hinit, hfound⟩
  | cons f rest ih =>
      cases halike with
      | cons hf hrest =>
          have hmethod := fun f' (hf : AlikeFunction D x y (false :: marks) f f') =>
            (⟨rfl, marks, halong, hf⟩ : TwinMethod D x y Z st ⟨f, env⟩ ⟨f', env⟩)
          rw [State.collectMethods, State.collectMethods, hf.kind_eq, hf.name_eq]
          split
          · exact ih hrest (.some (hmethod _ hf)) hfound
          · refine ih hrest hinit fun n => ?_
            by_cases hn : n = f.name.text
            · rw [hn, Bindings.get?_set_self, Bindings.get?_set_self]
              exact .some (hmethod _ hf)
            · rw [Bindings.get?_set_ne _ hn, Bindings.get?_set_ne _ hn]
              exact hfound n

theorem twinClass_of_methods {marks : List Bool} (halong : Along Z st env marks)
    {fs fs' : List Function} (halike : AlikeMethods D x y (false :: marks) fs fs')
    (name : Bytes) (superclass : Option Nat) :
    TwinClass D x y Z st
      ⟨name, superclass, (State.collectMethods env fs none Bindings.empty).1,
        (State.collectMethods env fs none Bindings.empty).2⟩
      ⟨name, superclass, (State.collectMethods env fs' none Bindings.empty).1,
        (State.collectMethods env fs' none Bindings.empty).2⟩ := by
  have hempty : ∀ n, Option.Rel (TwinMethod D x y Z st)
      ((Bindings.empty : Bindings Closure).get? n) (Bindings.empty.get? n) := fun _ => .none
  obtain ⟨hinit, hfound⟩ := collectMethods_rel halong halike .none hempty
  refine ⟨rfl, rfl, fun n => ?_⟩
  unfold Class.own?
  split
  · rcases rel_cases hinit with ⟨hnone, hnone'⟩ | ⟨c, c', hc, hc', hmethod⟩
    · simp only [hnone, hnone', Option.none_or]
      exact hfound n
    · simp only [hc, hc', Option.some_or]
      exact .some hmethod
  · exact hfound n

/-- A new class under a name that is the same in both. -/
theorem Beside.newClass (h : Beside D x y Z s s') (henv : s.env < s.store.envs.size)
    {cls cls' : Class} (hclass : TwinClass D x y Z s.store cls cls') {name : Bytes}
    (hname : turn x y (Z s.env) name = name) :
    Matches D x y
      (.next { s with
        control := .done
        store := (s.store.newClass cls).2.define s.env name
          (.classRef (s.store.newClass cls).1) })
      (.next { s' with
        control := .done
        store := (s'.store.newClass cls').2.define s'.env name
          (.classRef (s'.store.newClass cls').1) }) := by
  have hmade := h.update (h.store.newClass hclass) (prolongs_of_envs rfl) fun _ _ => rfl
  have hbound := hmade.define henv hname.symm (.classRef (s.store.newClass cls).1)
  have hmatches := hbound.proceed .done
  simp only [Store.newClass, h.store.classCount]
  exact hmatches

theorem Beside.declareClass (h : Beside D x y Z s s') {marks : List Bool}
    (halong : Along Z s.store s.env marks) {name : Bytes}
    (hname : turn x y (markAt marks 0) name = name) {parent : Option Superclass}
    {superclass : Option Nat} (hsome : parent.isSome = superclass.isSome)
    {methods methods' : List Function}
    (hmethods : AlikeMethods D x y (methodMarks parent marks) methods methods') :
    Matches D x y (s.declareClass name superclass methods)
      (s'.declareClass name superclass methods') := by
  have hfixed : turn x y (Z s.env) name = name := by rw [halong.head, hname]
  unfold methodMarks at hmethods
  rw [hsome] at hmethods
  unfold State.declareClass
  cases superclass with
  | none =>
      rw [h.env]
      have hmatches := h.newClass halong.1 (twinClass_of_methods halong hmethods name none) hfixed
      rw [h.env] at hmatches
      exact hmatches
  | some ref =>
      have htwin := h.store.newEnv halong.1 false fun n =>
        (rfl : (Bindings.empty.set (utf8 "super") (Value.classRef ref)).get? (turn x y false n) = _)
      have hmade := h.update htwin (prolongs_newEnv _ _) fun o => Z.extend_of_lt false
      have hinner := halong.newEnv h.store.ordered false
        (Bindings.empty.set (utf8 "super") (Value.classRef ref))
      have hlt : s.env < (s.store.newEnv (some s.env)
          (Bindings.empty.set (utf8 "super") (Value.classRef ref))).2.envs.size := by
        rw [size_newEnv]
        exact Nat.lt_succ_of_lt halong.1
      have hfixed' : turn x y (Z.extend s.store.envs.size false s.env) name = name := by
        rw [Z.extend_of_lt false halong.1, hfixed]
      have hmatches := hmade.newClass hlt
        (twinClass_of_methods hinner hmethods name (some ref)) hfixed'
      dsimp only [Store.newEnv] at hmatches ⊢
      rw [h.env] at hmatches
      rw [h.env, h.store.size]
      exact hmatches

theorem Beside.execClass (h : Beside D x y Z s s') (hset : Settings D x y set set')
    {marks : List Bool} (halong : Along Z s.store s.env marks) {name : Name}
    (hname : turn x y (markAt marks 0) name.text = name.text)
    {superclass superclass' : Option Superclass}
    (hparent : AlikeParent D x y marks superclass superclass')
    {methods methods' : List Function}
    (hmethods : AlikeMethods D x y (methodMarks superclass marks) methods methods') :
    Matches D x y (s.execClass set name superclass methods)
      (s'.execClass set' name superclass' methods') := by
  have hfixed : name.text = turn x y (Z s.env) name.text := by rw [halong.head, hname]
  have hbound := h.define halong.1 hfixed .nil
  replace halong : Along Z (s.define name.text .nil).store (s.define name.text .nil).env marks :=
    halong.mono (prolongs_define name.text .nil) h.store.ordered fun _ _ => rfl
  unfold State.execClass
  cases hparent with
  | absent => exact hbound.declareClass halong hname rfl hmethods
  | @present id parent parent' hrange hdenotes =>
      dsimp only
      rcases hbound.owner_eq hset ⟨marks, halong, hdenotes⟩ with
        ⟨_, d, hbroken⟩ | ⟨_, _, hnone, hnone', htext⟩ | ⟨owner, v, _, _, hv, hv', _⟩
      · simp only [hbroken]
        exact .broken
      · simp only [hnone, hnone']
        rw [hrange, htext]
        exact hbound.fail _ _
      · simp only [hv, hv']
        cases v with
        | classRef ref => exact hbound.declareClass halong hname rfl hmethods
        | _ =>
            dsimp only
            rw [hrange]
            exact hbound.fail _ _

/-! ## Expressions and statements -/

theorem Beside.eval (h : Beside D x y Z s s') (hset : Settings D x y set set') {e e' : Expr}
    (hunder : Under Z s.store s.env fun marks => AlikeExpr D x y marks e e') :
    Matches D x y (s.eval set e) (s'.eval set' e') := by
  obtain ⟨marks, halong, halike⟩ := hunder
  cases halike with
  | literal => exact h.proceed .value
  | var hrange hdenotes => exact h.evalVariable hset hrange ⟨marks, halong, hdenotes⟩
  | assign hrange hdenotes hvalue =>
      exact h.await (.assign hrange ⟨marks, halong, hdenotes⟩) (.eval ⟨marks, halong, hvalue⟩)
  | unary hoperand => exact h.await .unary (.eval ⟨marks, halong, hoperand⟩)
  | binary hleft hright =>
      exact h.await (.left ⟨marks, halong, hright⟩) (.eval ⟨marks, halong, hleft⟩)
  | logical hleft hright =>
      exact h.await (.logical ⟨marks, halong, hright⟩) (.eval ⟨marks, halong, hleft⟩)
  | group hinner => exact h.proceed (.eval ⟨marks, halong, hinner⟩)
  | call hcallee hargs =>
      exact h.await (.callee ⟨marks, halong, hargs⟩) (.eval ⟨marks, halong, hcallee⟩)
  | get hobject => exact h.await .get (.eval ⟨marks, halong, hobject⟩)
  | set hobject hvalue =>
      exact h.await (.target ⟨marks, halong, hvalue⟩) (.eval ⟨marks, halong, hobject⟩)
  | @this id keyword =>
      exact h.evalVariable hset rfl ⟨marks, halong, denotes_fixed hset rfl id marks⟩
  | super => exact h.evalSuper hset _ _ _

/-- A block in a new environment, marked if its scope is. -/
theorem Beside.execBlock (h : Beside D x y Z s s') {marks : List Bool}
    (halong : Along Z s.store s.env marks) {body body' : List Stmt} {marked : Bool}
    (halike : AlikeBody D x y (marked :: marks) body body') (span : Range) :
    Matches D x y (s.exec set (.block body span)) (s'.exec set' (.block body' span)) := by
  have htwin := h.store.newEnv halong.1 marked (get?_empty_turn marked)
  have hmade := h.update htwin (prolongs_newEnv _ _) fun o => Z.extend_of_lt marked
  unfold State.exec
  dsimp only
  rw [h.env]
  refine .next ⟨h.store.size, h.depth, h.trace, htwin, ?_⟩
    (.run ⟨_, halong.newEnv h.store.ordered marked _, halike⟩)
  exact .cons .scope hmade.frames

theorem Beside.execFunction (h : Beside D x y Z s s') {marks : List Bool}
    (halong : Along Z s.store s.env marks) {decl decl' : Function}
    (hname : turn x y (markAt marks 0) decl.name.text = decl.name.text)
    (halike : AlikeFunction D x y marks decl decl') :
    Matches D x y (s.exec set (.function decl)) (s'.exec set' (.function decl')) := by
  have hfixed : decl.name.text = turn x y (Z s.env) decl.name.text := by rw [halong.head, hname]
  have hclosure : TwinClosure D x y Z s.store ⟨decl, s.env⟩ ⟨decl', s.env⟩ :=
    ⟨rfl, marks, halong, halike⟩
  have hmade := h.update (h.store.newFunction hclosure) (prolongs_of_envs rfl) fun _ _ => rfl
  have hbound := hmade.define halong.1 hfixed
    (.function (s.store.newFunction ⟨decl, s.env⟩).1)
  have hmatches := hbound.proceed .done
  unfold State.exec
  simp only [Store.newFunction, halike.name_eq, h.store.functionCount, h.env]
  simp only [State.define, State.proceed, Store.newFunction, h.env] at hmatches
  exact hmatches

theorem Beside.exec (h : Beside D x y Z s s') (hset : Settings D x y set set') {t t' : Stmt}
    (hunder : Under Z s.store s.env fun marks => AlikeStmt D x y marks t t') :
    Matches D x y (s.exec set t) (s'.exec set' t') := by
  obtain ⟨marks, halong, halike⟩ := hunder
  cases halike with
  | expr hvalue => exact h.await .discard (.eval ⟨marks, halong, hvalue⟩)
  | print hvalue => exact h.await .print (.eval ⟨marks, halong, hvalue⟩)
  | assert hvalue =>
      unfold State.exec
      dsimp only
      rw [hvalue.span_eq]
      exact h.await .assert (.eval ⟨marks, halong, hvalue⟩)
  | assertEqual hleft hright =>
      unfold State.exec
      dsimp only
      rw [hleft.span_eq, hright.span_eq]
      exact h.await (.assertLeft ⟨marks, halong, hright⟩) (.eval ⟨marks, halong, hleft⟩)
  | var hname =>
      have hbound := h.define halong.1 (hname.trans (by rw [halong.head])) .nil
      exact hbound.proceed .done
  | init hname hinit =>
      exact h.await (.declare ⟨marks, halong, hname⟩) (.eval ⟨marks, halong, hinit⟩)
  | block marked hbody => exact h.execBlock halong hbody _
  | cond htest hthen =>
      exact h.await (.branch ⟨marks, halong, hthen⟩) (.eval ⟨marks, halong, htest⟩)
  | choice htest hthen helse =>
      exact h.await (.choice ⟨marks, halong, hthen, helse⟩) (.eval ⟨marks, halong, htest⟩)
  | loop htest hbody =>
      exact h.await (.test ⟨marks, halong, htest, hbody⟩) (.eval ⟨marks, halong, htest⟩)
  | ret => exact h.proceed .returning
  | giveBack hvalue => exact h.await .giveBack (.eval ⟨marks, halong, hvalue⟩)
  | function hname hdecl => exact h.execFunction halong hname hdecl
  | classDecl hname hparent hmethods => exact h.execClass hset halong hname hparent hmethods

theorem Beside.execAll (h : Beside D x y Z s s') {body body' : List Stmt}
    (hunder : Under Z s.store s.env fun marks => AlikeBody D x y marks body body') :
    Matches D x y (s.execAll body) (s'.execAll body') := by
  obtain ⟨marks, halong, halike⟩ := hunder
  cases halike with
  | nil => exact h.proceed .done
  | cons hfirst hrest =>
      exact h.await (.sequence ⟨marks, halong, hrest⟩) (.exec ⟨marks, halong, hfirst⟩)

/-! ## Outcomes -/

theorem Beside.nextArgument (h : Beside D x y Z s s') (callee : Value) (before : List Value)
    (span : Range) {es es' : List Expr}
    (hunder : Under Z s.store s.env fun marks => AlikeArgs D x y marks es es') :
    Matches D x y (s.nextArgument callee before span es)
      (s'.nextArgument callee before span es') := by
  obtain ⟨marks, halong, halike⟩ := hunder
  cases halike with
  | nil => exact h.proceed .call
  | cons hfirst hrest =>
      exact h.await (.argument ⟨marks, halong, hrest⟩) (.eval ⟨marks, halong, hfirst⟩)

theorem Beside.settle (h : Beside D x y Z s s') (range : Range) (outcome : Except Cause Value) :
    Matches D x y (s.settle range outcome) (s'.settle range outcome) := by
  cases outcome with
  | ok v => exact h.proceed .value
  | error cause => exact h.fail _ _

/-- The states on the frames below a frame that waits in the same environment. -/
theorem Beside.stay (h : Beside D x y Z { s with env := s.env } { s' with env := s.env })
    (henv : s'.env = s.env) : Beside D x y Z s s' :=
  ⟨henv, h.depth, h.trace, h.store, h.frames⟩

theorem Beside.receive (h : Beside D x y Z { s with env := env } { s' with env := env })
    (henv : s'.env = s.env) (hset : Settings D x y set set')
    (hpair : Pair D x y Z s.store s.env frame frame' env) (v : Value) :
    Matches D x y (s.receive set v frame) (s'.receive set' v frame') := by
  cases hpair with
  | assign hrange hdenotes => exact (h.stay henv).assignVariable hset hrange hdenotes v
  | unary => exact (h.stay henv).settle _ _
  | left hright => exact (h.stay henv).await .right (.eval hright)
  | right => exact (h.stay henv).settle _ _
  | @logical op _ _ hright =>
      have h := h.stay henv
      cases op with
      | or =>
          rw [State.receive, State.receive]
          split
          · exact h.proceed .value
          · exact h.proceed (.eval hright)
      | and =>
          rw [State.receive, State.receive]
          split
          · exact h.proceed (.eval hright)
          · exact h.proceed .value
  | callee hargs => exact (h.stay henv).nextArgument _ _ _ hargs
  | argument hrest => exact (h.stay henv).nextArgument _ _ _ hrest
  | get => exact (h.stay henv).getProperty _ v
  | target hvalue =>
      cases v with
      | objectRef object => exact (h.stay henv).await .field (.eval hvalue)
      | _ => exact (h.stay henv).fail _ _
  | @field object name =>
      have h := h.stay henv
      have hset := h.update (h.store.setField object name.text v) (prolongs_of_envs rfl)
        fun _ _ => rfl
      exact hset.proceed .value
  | discard => exact (h.stay henv).proceed .done
  | print =>
      have h := h.stay henv
      rw [State.receive, State.receive, hset.options, h.store.text_eq]
      split
      · exact h.proceed .done
      · exact (h.write _).proceed .done
  | assert =>
      have h := h.stay henv
      rw [State.receive, State.receive]
      split
      · exact h.proceed .done
      · exact h.fail _ _
  | assertLeft hright => exact (h.stay henv).await .assertRight (.eval hright)
  | assertRight =>
      have h := h.stay henv
      rw [State.receive, State.receive, h.store.debugText_eq, h.store.debugText_eq]
      split
      · exact h.proceed .done
      · exact h.fail _ _
  | branch hthen =>
      have h := h.stay henv
      rw [State.receive.eq_def, State.receive.eq_def]
      dsimp only
      split
      · exact h.proceed (.exec hthen)
      · exact h.proceed .done
  | choice hboth =>
      have h := h.stay henv
      rw [State.receive.eq_def, State.receive.eq_def]
      dsimp only
      split
      · exact h.proceed (.exec (hboth.imp fun _ hboth => hboth.1))
      · exact h.proceed (.exec (hboth.imp fun _ hboth => hboth.2))
  | test hboth =>
      have h := h.stay henv
      rw [State.receive, State.receive]
      split
      · exact h.await (.body hboth) (.exec (hboth.imp fun _ hboth => hboth.2))
      · exact h.proceed .done
  | declare hname =>
      obtain ⟨marks, halong, hname⟩ := hname
      have hbound := (h.stay henv).define halong.1 (hname.trans (by rw [halong.head])) v
      exact hbound.proceed .done
  | giveBack => exact (h.stay henv).proceed .returning
  | construct object => exact (h.stay henv).proceed .value
  | protect => exact (h.stay henv).proceed .value
  | _ => exact .broken

theorem Beside.complete (h : Beside D x y Z { s with env := env } { s' with env := env })
    (henv : s'.env = s.env) (hset : Settings D x y set set')
    (hpair : Pair D x y Z s.store s.env frame frame' env) :
    Matches D x y (s.complete frame) (s'.complete frame') := by
  cases hpair with
  | body hboth =>
      exact (h.stay henv).await (.test hboth) (.eval (hboth.imp fun _ hboth => hboth.1))
  | sequence hrest => exact (h.stay henv).proceed (.run hrest)
  | scope => exact h.proceed .done
  | activation hclosure hkind => exact h.leave hset hclosure hkind .nil
  | program hrest =>
      obtain ⟨marks, halong, halike⟩ := hrest
      cases halike with
      | nil => exact (h.stay henv).proceed .done
      | cons hfirst hrest =>
          exact (h.stay henv).await (.program ⟨marks, halong, hrest⟩)
            (.exec ⟨marks, halong, hfirst⟩)
  | _ => exact .broken

theorem Beside.unwind (h : Beside D x y Z { s with env := env } { s' with env := env })
    (henv : s'.env = s.env) (hset : Settings D x y set set')
    (hpair : Pair D x y Z s.store s.env frame frame' env) (v : Value) :
    Matches D x y (s.unwind v frame) (s'.unwind v frame') := by
  cases hpair with
  | activation hclosure hkind => exact h.leave hset hclosure hkind v
  | scope => exact h.proceed .returning
  | program hrest => exact (h.stay henv).await (.program hrest) .done
  | _ => exact (h.stay henv).proceed .returning

theorem Beside.raise (h : Beside D x y Z { s with env := env } { s' with env := env })
    (henv : s'.env = s.env) (hset : Settings D x y set set')
    (hpair : Pair D x y Z s.store s.env frame frame' env) (e : RuntimeError) :
    Matches D x y (s.raise set e frame) (s'.raise set' e frame') := by
  cases hpair with
  | activation =>
      have hback : Beside D x y Z { s with env := env, depth := s.depth - 1 }
          { s' with env := env, depth := s'.depth - 1 } :=
        ⟨rfl, congrArg (· - 1) h.depth, h.trace, h.store, h.frames⟩
      exact hback.proceed .failing
  | scope => exact h.proceed .failing
  | protect => exact ((h.stay henv).log hset _).proceed .value
  | _ => exact (h.stay henv).proceed .failing

/-! ## Runs -/

/-- Alike frames on top of alike stacks. -/
theorem Beside.pop (h : Beside D x y Z s s') :
    s.pop = none ∧ s'.pop = none ∨
    ∃ frame frame' t t' env, s.pop = some (frame, t) ∧ s'.pop = some (frame', t') ∧
      t'.env = t.env ∧ Pair D x y Z t.store t.env frame frame' env ∧
      Beside D x y Z { t with env := env } { t' with env := env } := by
  obtain ⟨henv, hdepth, htrace, hstore, hframes⟩ := h
  unfold State.pop
  generalize s.frames = frames at hframes
  generalize s'.frames = frames' at hframes
  cases hframes with
  | nil => exact .inl ⟨rfl, rfl⟩
  | @cons _ env frame frame' rest rest' hpair hrest =>
      exact .inr ⟨frame, frame', _, _, env, rfl, rfl, henv, hpair, rfl, hdepth, htrace, hstore,
        hrest⟩

theorem Beside.advance (h : Beside D x y Z s s') (hset : Settings D x y set set')
    (hcontrol : Controls D x y Z s.store s.env s.control s'.control) :
    Matches D x y (advance set s) (advance set' s') := by
  unfold LoxMachine.advance
  generalize hfirst : s.control = control at hcontrol
  generalize hsecond : s'.control = control' at hcontrol
  cases hcontrol with
  | eval hunder => exact h.eval hset hunder
  | exec hunder => exact h.exec hset hunder
  | run hunder => exact h.execAll hunder
  | call => exact h.callValue hset _ _ _
  | value =>
      rcases h.pop with ⟨hpop, hpop'⟩ | ⟨frame, frame', t, t', env, hpop, hpop', henv, hpair, ht⟩
      · simp only [hpop]
        exact .broken
      · simp only [hpop, hpop']
        exact ht.receive henv hset hpair _
  | done =>
      rcases h.pop with ⟨hpop, hpop'⟩ | ⟨frame, frame', t, t', env, hpop, hpop', henv, hpair, ht⟩
      · simp only [hpop, hpop']
        exact .halt h.trace
      · simp only [hpop, hpop']
        exact ht.complete henv hset hpair
  | returning =>
      rcases h.pop with ⟨hpop, hpop'⟩ | ⟨frame, frame', t, t', env, hpop, hpop', henv, hpair, ht⟩
      · simp only [hpop]
        exact .broken
      · simp only [hpop, hpop']
        exact ht.unwind henv hset hpair _
  | failing =>
      rcases h.pop with ⟨hpop, hpop'⟩ | ⟨frame, frame', t, t', env, hpop, hpop', henv, hpair, ht⟩
      · simp only [hpop, hpop']
        exact .halt h.trace
      · simp only [hpop, hpop']
        exact ht.raise henv hset hpair _

/-- Machines side by side come to the same end and have written the same. -/
theorem Beside.run (h : Beside D x y Z s s') (hset : Settings D x y set set')
    (hcontrol : Controls D x y Z s.store s.env s.control s'.control) (fuel : Nat) :
    (∃ d, (run set fuel s).1 = some (.broken d)) ∨
      (run set' fuel s').1 = (run set fuel s).1 ∧
        (run set' fuel s').2.trace = (run set fuel s).2.trace := by
  induction fuel generalizing Z s s' with
  | zero => exact .inr ⟨rfl, h.trace⟩
  | succ fuel ih =>
      have hstep := h.advance hset hcontrol
      rw [LoxMachine.run, LoxMachine.run]
      generalize LoxMachine.advance set s = p at hstep
      generalize LoxMachine.advance set' s' = p' at hstep
      cases hstep with
      | next hbeside hcontrol => exact ih hbeside hcontrol
      | halt htrace => exact .inr ⟨rfl, htrace⟩
      | broken => exact .inl ⟨_, rfl⟩

end LoxMachine.Renaming
