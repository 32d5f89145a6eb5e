import LoxMachine.Proofs.Loops.Code
import LoxMachine.Proofs.Machine.Safety

/-!
# Loops without environments for rounds

A machine that runs the body and the increment of a `for` statement in the environment of the
statement takes the same steps as the machine that makes an environment for every round.  Its
store is the folded one.
-/

namespace LoxMachine

open Scope Store Folding

/-! ## The direct machine -/

/-- Begins to execute a statement. A round of a `for` statement gets no environment. -/
def State.execDirectly (s : State) (set : Setting) : Stmt → Progress
  | .block body span =>
      if isRound body span then
        .next { s with control := .run body, frames := .scope s.env :: s.frames }
      else s.exec set (.block body span)
  | stmt => s.exec set stmt

def advanceDirectly (set : Setting) (s : State) : Progress :=
  match s.control with
  | .exec stmt => s.execDirectly set stmt
  | _ => advance set s

/-- Runs the direct machine for at most `fuel` steps. -/
def runDirectly (set : Setting) : (fuel : Nat) → State → Option Ending × State
  | 0, s => (none, s)
  | fuel + 1, s =>
      match advanceDirectly set s with
      | .next s => runDirectly set fuel s
      | .halt ending s => (some ending, s)

/-! ## Frames -/

def Frame.fold (φ : Folding) : Frame → Frame
  | .scope saved => .scope (φ.place saved)
  | .activation saved closure => .activation (φ.place saved) (closure.fold φ)
  | frame => frame

/-- The frame has nothing to do with environments. -/
def Frame.plain : Frame → Bool
  | .scope _ => false
  | .activation _ _ => false
  | _ => true

/-- The environment in which the frames below run. -/
def Frame.below (env : Nat) : Frame → Nat
  | .scope saved => saved
  | .activation saved _ => saved
  | _ => env

def Frame.closures : Frame → List Closure
  | .activation _ closure => [closure]
  | _ => []

/-- The marks of the code that waits in a frame. -/
def Frame.marks : Frame → List Bool → List Mark
  | .assign id _, g => [.use g id]
  | .left _ operand _, g => exprMarks g operand
  | .logical _ operand, g => exprMarks g operand
  | .callee args _, g => argMarks g args
  | .argument _ _ rest _, g => argMarks g rest
  | .target _ value, g => exprMarks g value
  | .assertLeft operand _, g => exprMarks g operand
  | .branch thenBranch none, g => stmtMarks g thenBranch
  | .branch thenBranch (some elseBranch), g => stmtMarks g thenBranch ++ stmtMarks g elseBranch
  | .test cond stmt, g => exprMarks g cond ++ stmtMarks g stmt
  | .declare _, g => [.declare g]
  | .body cond stmt, g => exprMarks g cond ++ stmtMarks g stmt
  | .sequence rest, g => bodyMarks g rest
  | .program rest, g => bodyMarks g rest
  | _, _ => []

/-- The marks of the code that the machine is about to run. -/
def Control.marks : Control → List Bool → List Mark
  | .eval e, g => exprMarks g e
  | .exec s, g => stmtMarks g s
  | .run body, g => bodyMarks g body
  | _, _ => []

/-- The code in the frames suits the environments that it will run in. -/
def Waits (K : Mark → Prop) (φ : Folding) (st : Store) : Nat → List Frame → Prop
  | env, [] => Suits K φ st env fun _ => []
  | env, frame :: rest => Suits K φ st env frame.marks ∧
      (∀ c ∈ frame.closures, c.env < st.envs.size) ∧ Waits K φ st (frame.below env) rest

/-- The second state is the first one with its store folded, in all but what the machines are
about to do. -/
structure State.Folded (φ : Folding) (s s' : State) : Prop where
  env : s'.env = φ.place s.env
  depth : s'.depth = s.depth
  frames : s'.frames = s.frames.map (Frame.fold φ)
  store : Store.Folded φ s.store s'.store
  trace : s'.trace = s.trace

/-- Moreover, all code suits its environment. -/
structure Alongside (K : Mark → Prop) (φ : Folding) (s s' : State) : Prop
    extends s.Folded φ s' where
  marked : Marked K φ s.store
  waits : Waits K φ s.store s.env s.frames

/-- Two steps lead to states alongside each other or to the same end, unless the first breaks
down. -/
inductive Keeping (K : Mark → Prop) : Progress → Progress → Prop where
  | next {φ s s'} (h : Alongside K φ s s') (hcontrol : s'.control = s.control)
      (hcode : Suits K φ s.store s.env s.control.marks) : Keeping K (.next s) (.next s')
  | halt {φ ending s s'} (h : Alongside K φ s s') (hcontrol : s'.control = s.control) :
      Keeping K (.halt ending s) (.halt ending s')
  | broken {d s p} : Keeping K (.halt (.broken d) s) p

/-- The depths of the settings lead known references to the same environments, and no known
declaration stands in a round. -/
structure Settings (K : Mark → Prop) (set set' : Setting) : Prop where
  depths : ∀ g id, K (.use g id) → Matched set.depths set'.depths g id
  bare : ∀ g, K (.declare g) → g.head? ≠ some true
  options : set'.options = set.options
  logging : set'.logging = set.logging

variable {K : Mark → Prop} {φ φ' : Folding} {st later : Store} {s s' : State} {env : Nat}
  {set set' : Setting} {frame : Frame} {frames : List Frame} {control : Control}

/-! ## Moves -/

theorem Waits.mono (h : Waits K φ st env frames) (hgrows : Grows φ φ' st later) :
    Waits K φ' later env frames := by
  induction frames generalizing env with
  | nil => exact Suits.mono h hgrows
  | cons frame rest ih =>
      obtain ⟨hframe, hclosures, hrest⟩ := h
      exact ⟨hframe.mono hgrows, fun c hc => Nat.lt_of_lt_of_le (hclosures c hc) hgrows.size,
        ih hrest⟩

theorem Waits.here (h : Waits K φ st env frames) : Suits K φ st env fun _ => [] := by
  cases frames with
  | nil => exact h
  | cons => exact h.1.nothing

theorem Waits.fold_eq (h : Waits K φ st env frames) (hφ : φ.Agrees φ' st.envs.size) :
    frames.map (Frame.fold φ') = frames.map (Frame.fold φ) := by
  induction frames generalizing env with
  | nil => rfl
  | cons frame rest ih =>
      obtain ⟨_, hclosures, hrest⟩ := h
      have hframe : frame.fold φ' = frame.fold φ := by
        have hlt := hrest.here.lt
        cases frame with
        | scope saved => rw [Frame.fold, Frame.fold, (hφ saved hlt).1]
        | activation saved c =>
            rw [Frame.fold, Frame.fold, (hφ saved hlt).1,
              Closure.fold_congr hφ (hclosures c List.mem_cons_self)]
        | _ => rfl
      rw [List.map_cons, List.map_cons, hframe, ih hrest]

theorem Frame.fold_of_plain (hplain : frame.plain = true) : frame.fold φ = frame := by
  cases frame with
  | scope | activation => cases hplain
  | _ => rfl

theorem Frame.below_of_plain (hplain : frame.plain = true) : frame.below env = env := by
  cases frame with
  | scope | activation => cases hplain
  | _ => rfl

theorem Frame.closures_of_plain (hplain : frame.plain = true) : frame.closures = [] := by
  cases frame with
  | scope | activation => cases hplain
  | _ => rfl

theorem Folding.Suits.bare (h : Suits K φ st env fun g => [.declare g])
    (hset : Settings K set set') : φ.idle env = false := by
  obtain ⟨g, hnests, hmarks⟩ := h
  exact hnests.bare (hset.bare g (hmarks _ List.mem_cons_self))

namespace Alongside

theorem here (h : Alongside K φ s s') : Suits K φ s.store s.env fun _ => [] :=
  h.waits.here

theorem turn (h : Alongside K φ s s') {control control' : Control} (hcontrol : control' = control)
    (hcode : Suits K φ s.store s.env control.marks) :
    Keeping K (s.proceed control) (s'.proceed control') :=
  .next ⟨⟨h.env, h.depth, h.frames, h.store, h.trace⟩, h.marked, h.waits⟩ hcontrol hcode

theorem proceed (h : Alongside K φ s s') (control : Control)
    (hcode : Suits K φ s.store s.env control.marks) :
    Keeping K (s.proceed control) (s'.proceed control) :=
  h.turn rfl hcode

theorem push (h : Alongside K φ s s') (frame : Frame) (hplain : frame.plain = true)
    (hframe : Suits K φ s.store s.env frame.marks) :
    Alongside K φ { s with frames := frame :: s.frames } { s' with frames := frame :: s'.frames } := by
  refine ⟨⟨h.env, h.depth, ?_, h.store, h.trace⟩, h.marked, hframe, ?_, ?_⟩
  · rw [List.map_cons, Frame.fold_of_plain hplain, h.frames]
  · rw [Frame.closures_of_plain hplain]
    exact List.forall_mem_nil _
  · rw [Frame.below_of_plain hplain]
    exact h.waits

theorem await (h : Alongside K φ s s') (frame : Frame) (control : Control)
    (hplain : frame.plain = true) (hframe : Suits K φ s.store s.env frame.marks)
    (hcode : Suits K φ s.store s.env control.marks) :
    Keeping K (s.await frame control) (s'.await frame control) :=
  (h.push frame hplain hframe).proceed control hcode

theorem fail (h : Alongside K φ s s') (range : Range) (cause : Cause) :
    Keeping K (s.fail range cause) (s'.fail range cause) :=
  h.proceed (.failing ⟨range, cause⟩) h.here

/-- Both stores have changed, and the environments are what they were. -/
theorem update (h : Alongside K φ s s') {st st' : Store} (hstore : Folded φ st st')
    (hmarked : Marked K φ st) (hgrows : Grows φ φ s.store st) :
    Alongside K φ { s with store := st } { s' with store := st' } :=
  ⟨⟨h.env, h.depth, h.frames, hstore, h.trace⟩, hmarked, h.waits.mono hgrows⟩

theorem write (h : Alongside K φ s s') (event : Event) :
    Alongside K φ (s.write event) (s'.write event) :=
  ⟨⟨h.env, h.depth, h.frames, h.store, congrArg (Array.push · event) h.trace⟩, h.marked, h.waits⟩

theorem log (h : Alongside K φ s s') (hset : Settings K set set') (record : Record) :
    Alongside K φ (s.log set record) (s'.log set' record) := by
  unfold State.log
  rw [hset.logging]
  split
  · exact h.write _
  · exact h

theorem define (h : Alongside K φ s s') (hset : Settings K set set')
    (hcode : Suits K φ s.store s.env fun g => [.declare g]) (name : Bytes) (v : Value) :
    Alongside K φ (s.define name v) (s'.define name v) := by
  have hstore := h.store.define hcode.lt (hcode.bare hset) name v
  rw [← h.env] at hstore
  exact h.update hstore (h.marked.define s.env name v) (grows_define φ s.store s.env name v)

/-! ## Variables -/

/-- A reference finds the same variable in both stores. -/
theorem owner_eq (h : Alongside K φ s s') (hset : Settings K set set') {id : Nat}
    (hcode : Suits K φ s.store s.env fun g => [.use g id]) (name : Bytes) :
    ((∃ d, s.owner set id name = .error d) ∧ ∃ d, s.lookup set id name = .error d) ∨
    (s.owner set id name = .ok none ∧ s'.owner set' id name = .ok none ∧
      s.lookup set id name = .ok none ∧ s'.lookup set' id name = .ok none) ∨
    ∃ owner v, owner < s.store.envs.size ∧ φ.idle owner = false ∧
      s.owner set id name = .ok (some owner) ∧
      s'.owner set' id name = .ok (some (φ.place owner)) ∧
      s.lookup set id name = .ok (some v) ∧ s'.lookup set' id name = .ok (some v) := by
  obtain ⟨g, hnests, hmarks⟩ := hcode
  unfold State.owner State.lookup
  rw [h.env]
  rcases hset.depths g id (hmarks _ List.mem_cons_self) with ⟨hd, hd'⟩ | ⟨d, d', hd, hd', hcounts⟩
  · rw [hd, hd']
    refine .inr ?_
    simp only [get?, h.store.nearest?_eq name hnests.lt]
    cases hfound : s.store.nearest? s.env name with
    | none => exact .inl ⟨rfl, rfl, rfl, rfl⟩
    | some found =>
        obtain ⟨owner, v⟩ := found
        have hat := (climb_of_search hfound).1
        exact .inr ⟨owner, v, lt_of_at? hat, h.store.bare_of_at? hat, rfl, rfl, rfl, rfl⟩
  · rw [hd, hd']
    rcases h.store.bindingAt_eq hnests hcounts name with
      ⟨defect, hbroken⟩ | ⟨owner, v, hlt, hbare, hok, hok'⟩
    · refine .inl ⟨⟨defect, ?_⟩, defect, ?_⟩
      · simp only [hbroken, Except.map]
      · simp only [getAt, hbroken, Except.map]
    · refine .inr (.inr ⟨owner, v, hlt, hbare, ?_, ?_, ?_, ?_⟩)
      · simp only [hok, Except.map]
      · simp only [hok', Except.map]
      · simp only [getAt, hok, Except.map]
      · simp only [getAt, hok', Except.map]

theorem evalVariable (h : Alongside K φ s s') (hset : Settings K set set') {id : Nat}
    (hcode : Suits K φ s.store s.env fun g => [.use g id]) (name : Name) :
    Keeping K (s.evalVariable set id name) (s'.evalVariable set' id name) := by
  unfold State.evalVariable
  rcases h.owner_eq hset hcode name.text with
    ⟨_, d, hbroken⟩ | ⟨_, _, hnone, hnone'⟩ | ⟨_, v, _, _, _, _, hv, hv'⟩
  · rw [hbroken]
    exact .broken
  · rw [hnone, hnone']
    exact h.fail _ _
  · rw [hv, hv']
    exact h.proceed (.value v) h.here

theorem assignVariable (h : Alongside K φ s s') (hset : Settings K set set') {id : Nat}
    (hcode : Suits K φ s.store s.env fun g => [.use g id]) (name : Name) (v : Value) :
    Keeping K (s.assignVariable set id name v) (s'.assignVariable set' id name v) := by
  unfold State.assignVariable
  rcases h.owner_eq hset hcode name.text with
    ⟨⟨d, hbroken⟩, _⟩ | ⟨hnone, hnone', _⟩ | ⟨owner, _, hlt, hbare, howner, howner', _⟩
  · rw [hbroken]
    exact .broken
  · rw [hnone, hnone']
    exact h.fail _ _
  · rw [howner, howner']
    have hbound := h.update (h.store.define hlt hbare name.text v)
      (h.marked.define owner name.text v) (grows_define φ s.store owner name.text v)
    exact hbound.proceed (.value v) hbound.here

/-! ## New environments -/

/-- A new environment in both stores. -/
theorem newEnv (h : Alongside K φ s s') {parent : Nat} (hparent : parent < s.store.envs.size)
    (vars : Bindings Value) :
    Alongside K (φ.extend s.store.envs.size s'.store.envs.size false)
      { s with store := (s.store.newEnv (some parent) vars).2 }
      { s' with store := (s'.store.newEnv (some (φ.place parent)) vars).2 } := by
  have hgrows := grows_newEnv φ s.store parent vars s'.store.envs.size false
  refine ⟨⟨?_, h.depth, ?_, h.store.newEnv h.marked.bounded hparent vars, h.trace⟩,
    h.marked.newEnv parent vars _ _, h.waits.mono hgrows⟩
  · exact h.env.trans (hgrows.agrees s.env h.here.lt).1.symm
  · exact h.frames.trans (h.waits.fold_eq hgrows.agrees).symm

/-- A new environment for a round, in the first store only. -/
theorem newRound (h : Alongside K φ s s') :
    Alongside K (φ.extend s.store.envs.size (φ.place s.env) true)
      { s with store := (s.store.newEnv (some s.env) Bindings.empty).2 } s' := by
  have hgrows := grows_newEnv φ s.store s.env Bindings.empty (φ.place s.env) true
  refine ⟨⟨?_, h.depth, ?_, h.store.newRound h.marked.bounded h.here.lt, h.trace⟩,
    h.marked.newEnv s.env _ _ _, h.waits.mono hgrows⟩
  · exact h.env.trans (hgrows.agrees s.env h.here.lt).1.symm
  · exact h.frames.trans (h.waits.fold_eq hgrows.agrees).symm

/-! ## Properties -/

/-- A method bound to an instance gets a new environment in either store. -/
theorem bindMethod (h : Alongside K φ s s') {method : Closure}
    (hmethod : Suits K φ s.store method.env fun g => functionMarks (false :: g) method.decl)
    (object : Nat) :
    ∃ φ', Alongside K φ' { s with store := (s.store.bindMethod method object).2 }
        { s' with store := (s'.store.bindMethod (method.fold φ) object).2 } ∧
      (s'.store.bindMethod (method.fold φ) object).1 =
        (s.store.bindMethod method object).1.fold φ' ∧
      Suits K φ' (s.store.bindMethod method object).2 (s.store.bindMethod method object).1.env
        fun g => functionMarks g method.decl := by
  refine ⟨_, h.newEnv hmethod.lt _, ?_, hmethod.newEnv (functionMarks · method.decl) _ _⟩
  rw [Closure.fold, Store.bindMethod, Store.bindMethod]
  exact congrArg (Closure.mk method.decl) (extend_place_self ..).symm

theorem yieldMethod (h : Alongside K φ s s') {method : Closure}
    (hmethod : Suits K φ s.store method.env fun g => functionMarks (false :: g) method.decl)
    (object : Nat) :
    Keeping K (s.yieldMethod method object) (s'.yieldMethod (method.fold φ) object) := by
  obtain ⟨φ', hbound, hclosure, hcode⟩ := h.bindMethod hmethod object
  have hmade := hbound.update (hbound.store.newFunction _) (hbound.marked.newFunction hcode)
    (grows_of_envs φ' rfl)
  unfold State.yieldMethod
  dsimp only
  rw [hclosure]
  refine hmade.turn ?_ hmade.here
  exact congrArg (fun ref => Control.value (.function ref)) hbound.store.functions_size

theorem getProperty (h : Alongside K φ s s') (name : Name) (v : Value) :
    Keeping K (s.getProperty name v) (s'.getProperty name v) := by
  cases v with
  | objectRef object =>
      simp only [State.getProperty, h.store.instances]
      cases s.store.instances[object]? with
      | none => exact .broken
      | some o =>
          simp only [h.store.method?_eq]
          cases o.fields.get? name.text with
          | some v => exact h.proceed (.value v) h.here
          | none =>
              cases hmethod : s.store.method? o.cls name.text with
              | some method => exact h.yieldMethod (h.marked.method hmethod) object
              | none => exact h.fail _ _
  | _ => exact h.fail _ _

theorem evalSuper (h : Alongside K φ s s') (hset : Settings K set set') {id thisId : Nat}
    (hcode : Suits K φ s.store s.env fun g => [.use g id, .use g thisId]) (method : Name) :
    Keeping K (s.evalSuper set id thisId method) (s'.evalSuper set' id thisId method) := by
  obtain ⟨g, hnests, hmarks⟩ := hcode
  unfold State.evalSuper
  rw [h.env]
  rcases hset.depths g id (hmarks _ List.mem_cons_self) with
    ⟨hd, _⟩ | ⟨d, d', hd, hd', hcounts⟩
  · rw [hd]
    exact .broken
  rcases hset.depths g thisId (hmarks _ (List.mem_cons_of_mem _ List.mem_cons_self)) with
    ⟨hthis, _⟩ | ⟨u, u', hu, hu', hcounts'⟩
  · rw [hd, hthis]
    exact .broken
  rw [hd, hd', hu, hu']
  rcases h.store.getAt_eq hnests hcounts (utf8 "super") with
    ⟨defect, hbroken⟩ | ⟨above, habove, habove'⟩
  · simp only [hbroken]
    exact .broken
  rcases h.store.getAt_eq hnests hcounts' (utf8 "this") with
    ⟨defect, hbroken⟩ | ⟨this, hthis, hthis'⟩
  · simp only [habove, hbroken]
    exact .broken
  simp only [habove, habove', hthis, hthis']
  cases above with
  | classRef cls =>
      cases this with
      | objectRef object =>
          simp only [h.store.method?_eq]
          cases hmethod : s.store.method? cls method.text with
          | some closure => exact h.yieldMethod (h.marked.method hmethod) object
          | none => exact h.fail _ _
      | _ => exact .broken
  | _ => cases this <;> exact .broken

theorem settle (h : Alongside K φ s s') (range : Range) (outcome : Except Cause Value) :
    Keeping K (s.settle range outcome) (s'.settle range outcome) := by
  cases outcome with
  | ok v => exact h.proceed (.value v) h.here
  | error cause => exact h.fail _ _

/-! ## Calls -/

theorem functionMarks_eq (g : List Bool) (f : Function) :
    functionMarks g f = bodyMarks (false :: g) f.body := by
  cases f
  rfl

theorem enter (h : Alongside K φ s s') (hset : Settings K set set') (range : Range) {c : Closure}
    (hc : Suits K φ s.store c.env fun g => functionMarks g c.decl) (args : List Value) :
    Keeping K (s.enter set range c args) (s'.enter set' range (c.fold φ) args) := by
  unfold State.enter
  rw [hset.options, h.depth]
  dsimp only [Closure.fold]
  split
  · exact h.fail _ _
  split
  · exact h.fail _ _
  generalize Record.mk (utf8 "call") _ = record
  have hlog := h.log hset record
  rw [← log_store s set record] at hc
  generalize s.log set record = t at hlog hc ⊢
  generalize s'.log set' record = t' at hlog ⊢
  have hmade := hlog.newEnv hc.lt (State.bindParams c.decl.params args Bindings.empty)
  have hφ := φ.agrees_extend t.store.envs.size t'.store.envs.size false
  have hbody : Suits K φ t.store c.env fun g => bodyMarks (false :: g) c.decl.body :=
    hc.part fun g mark hmark => functionMarks_eq g c.decl ▸ hmark
  have hcode := hbody.newEnv (fun g => bodyMarks g c.decl.body)
    (State.bindParams c.decl.params args Bindings.empty) t'.store.envs.size
  have hframes : Frame.activation t'.env (c.fold φ) :: t'.frames =
      (Frame.activation t.env c :: t.frames).map
        (Frame.fold (φ.extend t.store.envs.size t'.store.envs.size false)) := by
    rw [List.map_cons, Frame.fold, Closure.fold_congr hφ hc.lt]
    exact List.cons_eq_cons.mpr ⟨congrArg (Frame.activation · (c.fold φ)) hmade.env, hmade.frames⟩
  refine .next ⟨⟨(extend_place_self ..).symm, congrArg (· + 1) hlog.depth, hframes, hmade.store,
    hmade.trace⟩, hmade.marked, hcode.nothing, ?_, hmade.waits⟩ rfl hcode
  refine List.forall_mem_singleton.mpr (Nat.lt_of_lt_of_le hc.lt ?_)
  exact (grows_newEnv φ t.store c.env _ 0 false).size

/-- The receiver is found in an environment that is not of a round. -/
theorem getAt_this (h : Alongside K φ s s') (hlt : env < s.store.envs.size) (name : Bytes) :
    (∃ d, s.store.getAt env 0 name = .error d) ∨
      ∃ v, s.store.getAt env 0 name = .ok v ∧ s'.store.getAt (φ.place env) 0 name = .ok v := by
  cases hat : s.store.at? env name with
  | none =>
      rw [at?, Array.getElem?_eq_getElem hlt, Option.bind_some] at hat
      refine .inl ⟨.notBound name 0, ?_⟩
      simp only [getAt, bindingAt, climb, Array.getElem?_eq_getElem hlt, hat, Except.map]
  | some v =>
      refine .inr ⟨v, getAt_eq_ok rfl hat, getAt_eq_ok rfl ?_⟩
      rw [h.store.vars env hlt (h.store.bare_of_at? hat), hat]

theorem leave (s s' : State) {saved : Nat} {c : Closure}
    (hback : Alongside K φ { s with env := saved, depth := s.depth - 1 }
      { s' with env := φ.place saved, depth := s'.depth - 1 })
    (hc : c.env < s.store.envs.size) (v : Value) :
    Keeping K (s.leave saved c v) (s'.leave (φ.place saved) (c.fold φ) v) := by
  have hkind : (c.fold φ).decl.kind = c.decl.kind := rfl
  unfold State.leave
  rw [hkind]
  dsimp only [Closure.fold]
  split
  · rcases hback.getAt_this hc (utf8 "this") with ⟨d, hbroken⟩ | ⟨this, hthis, hthis'⟩
    · rw [hbroken]
      exact .broken
    · simp only [hthis, hthis']
      exact hback.proceed (.value this) hback.here
  · exact hback.proceed (.value v) hback.here

theorem instantiate (h : Alongside K φ s s') (hset : Settings K set set') (range : Range)
    (cls : Nat) (args : List Value) :
    Keeping K (s.instantiate set range cls args) (s'.instantiate set' range cls args) := by
  have hgrows : Grows φ φ s.store (s.store.newInstance cls).2 := grows_of_envs φ rfl
  have hmade := h.update (h.store.newInstance cls) (h.marked.mono hgrows rfl rfl) hgrows
  have hobject : (s'.store.newInstance cls).1 = (s.store.newInstance cls).1 :=
    congrArg Array.size h.store.instances
  unfold State.instantiate
  dsimp only
  rw [hmade.store.method?_eq, hobject]
  cases hinit : (s.store.newInstance cls).2.method? cls (utf8 "init") with
  | none =>
      dsimp only [Option.map_none]
      have htext : (s'.store.newInstance cls).2.text (.classRef cls) =
          (s.store.newInstance cls).2.text (.classRef cls) := hmade.store.text_eq _
      rw [hset.options, htext]
      split
      · exact hmade.fail _ _
      · exact hmade.proceed (.value (.objectRef (s.store.newInstance cls).1)) hmade.here
  | some init =>
      obtain ⟨φ', hbound, hclosure, hcode⟩ :=
        hmade.bindMethod (hmade.marked.method hinit) (s.store.newInstance cls).1
      dsimp only [Option.map_some]
      rw [hclosure]
      have hwaiting := hbound.push (.construct (s.store.newInstance cls).1) rfl hbound.here
      exact hwaiting.enter hset range hcode args

theorem callNative (h : Alongside K φ s s') (range : Range) (ref : Nat) (args : List Value) :
    Keeping K (s.callNative range ref args) (s'.callNative range ref args) := by
  unfold State.callNative
  rw [h.store.natives]
  cases s.store.natives[ref]? with
  | none => exact .broken
  | some native =>
      dsimp only
      rw [h.store.text_eq, h.store.clock]
      split
      · exact h.fail _ _
      split
      · have hgrows : Grows φ φ s.store s.store.tick := grows_of_envs φ rfl
        have hlooked := h.update h.store.tick (h.marked.mono hgrows rfl rfl) hgrows
        exact hlooked.proceed (.value (.number s.store.clock.now)) hlooked.here
      split
      · cases args with
        | nil => exact .broken
        | cons callee rest =>
            simp only [h.store.debugText_eq]
            split
            · exact h.await .protect (.call range callee []) rfl h.here h.here
            · exact h.fail _ _
      · exact .broken

theorem callValue (h : Alongside K φ s s') (hset : Settings K set set') (range : Range)
    (callee : Value) (args : List Value) :
    Keeping K (s.callValue set range callee args) (s'.callValue set' range callee args) := by
  cases callee with
  | function ref =>
      simp only [State.callValue, h.store.function_eq]
      cases hc : s.store.functions[ref]? with
      | none => exact .broken
      | some c => exact h.enter hset range (h.marked.function hc) args
  | native ref => exact h.callNative range ref args
  | classRef cls => exact h.instantiate hset range cls args
  | _ =>
      simp only [State.callValue, h.store.debugText_eq]
      exact h.fail _ _

/-! ## Declarations -/

theorem newClass (h : Alongside K φ s s') (hset : Settings K set set')
    (hcode : Suits K φ s.store s.env fun g => [.declare g]) (name : Bytes) {k : Class}
    (hk : ∀ c ∈ k.closures, Suits K φ s.store c.env fun g => functionMarks (false :: g) c.decl) :
    Keeping K
      (.next { s with
        control := .done
        store := (s.store.newClass k).2.define s.env name (.classRef (s.store.newClass k).1) })
      (.next { s' with
        control := .done
        store := (s'.store.newClass (k.fold φ)).2.define s'.env name
          (.classRef (s'.store.newClass (k.fold φ)).1) }) := by
  have hgrows : Grows φ φ s.store (s.store.newClass k).2 := grows_of_envs φ rfl
  have hmade := h.update (h.store.newClass k) (h.marked.newClass hk) hgrows
  have hbound := hmade.define hset (hcode.mono hgrows) name (.classRef (s.store.newClass k).1)
  have href : (s'.store.newClass (k.fold φ)).1 = (s.store.newClass k).1 := h.store.classes_size
  rw [href]
  exact hbound.proceed .done hbound.here

theorem declareClass (h : Alongside K φ s s') (hset : Settings K set set')
    {superclass : Option Nat} (parent : Option Superclass)
    (hparent : superclass.isSome = parent.isSome) {methods : List Function}
    (hcode : Suits K φ s.store s.env fun g =>
      .declare g :: methodMarks (false :: outerMarks g parent) methods) (name : Bytes) :
    Keeping K (s.declareClass name superclass methods)
      (s'.declareClass name superclass methods) := by
  have hdeclare : Suits K φ s.store s.env fun g => [.declare g] :=
    hcode.part fun g => List.forall_mem_singleton.mpr List.mem_cons_self
  have hmethods : Suits K φ s.store s.env fun g =>
      methodMarks (false :: outerMarks g parent) methods :=
    hcode.part fun g mark => List.mem_cons_of_mem _
  have hclosures : ∀ {φ : Folding} {st : Store} {env : Nat},
      (Suits K φ st env fun g => methodMarks (false :: g) methods) →
      ∀ c ∈ (State.classOf name superclass env methods).closures,
        Suits K φ st c.env fun g => functionMarks (false :: g) c.decl := by
    intro φ st env hmethods c hc
    obtain ⟨henv, hdecl⟩ := State.mem_classOf hc
    rw [henv]
    exact hmethods.part fun g => mem_methodMarks hdecl _
  have hclass := fun env => classOf_fold φ name superclass env methods
  cases superclass with
  | none =>
      cases parent with
      | some => cases hparent
      | none =>
          have hmade := h.newClass hset hdeclare name (hclosures hmethods)
          rw [← hclass, ← h.env] at hmade
          exact hmade
  | some ref =>
      cases parent with
      | none => cases hparent
      | some parent =>
          have hmade := h.newEnv hcode.lt (Bindings.empty.set (utf8 "super") (.classRef ref))
          have hgrows := grows_newEnv φ s.store s.env
            (Bindings.empty.set (utf8 "super") (.classRef ref)) s'.store.envs.size false
          have hinner := hmethods.newEnv (fun g => methodMarks (false :: g) methods)
            (Bindings.empty.set (utf8 "super") (.classRef ref)) s'.store.envs.size
          have hdeclared := hmade.newClass hset (hdeclare.mono hgrows) name (hclosures hinner)
          rw [← classOf_fold, extend_place_self, ← h.env] at hdeclared
          exact hdeclared

theorem execClass (h : Alongside K φ s s') (hset : Settings K set set') (name : Name)
    (superclass : Option Superclass) {methods : List Function}
    (hcode : Suits K φ s.store s.env fun g => .declare g ::
      (parentMarks g superclass ++ methodMarks (false :: outerMarks g superclass) methods)) :
    Keeping K (s.execClass set name superclass methods)
      (s'.execClass set' name superclass methods) := by
  have hdeclare : Suits K φ s.store s.env fun g => [.declare g] :=
    hcode.part fun g => List.forall_mem_singleton.mpr List.mem_cons_self
  have hbound := h.define hset hdeclare name.text .nil
  have hgrows := grows_define φ s.store s.env name.text .nil
  have hclass : Suits K φ (s.store.define s.env name.text .nil) s.env fun g =>
      .declare g :: methodMarks (false :: outerMarks g superclass) methods := by
    refine (hcode.mono hgrows).part fun g => List.forall_mem_cons.mpr ⟨List.mem_cons_self, ?_⟩
    exact fun mark hmark => List.mem_cons_of_mem _ (List.mem_append_right _ hmark)
  unfold State.execClass
  cases superclass with
  | none => exact hbound.declareClass hset none rfl hclass name.text
  | some parent =>
      have hparent : Suits K φ (s.store.define s.env name.text .nil) s.env fun g =>
          [.use g parent.id] :=
        (hcode.mono hgrows).part fun g mark hmark =>
          List.mem_cons_of_mem _ (List.mem_append_left _ hmark)
      dsimp only
      rcases hbound.owner_eq hset hparent parent.name.text with
        ⟨_, d, hbroken⟩ | ⟨_, _, hnone, hnone'⟩ | ⟨_, v, _, _, _, _, hv, hv'⟩
      · rw [hbroken]
        exact .broken
      · rw [hnone, hnone']
        exact hbound.fail _ _
      · rw [hv, hv']
        cases v with
        | classRef ref => exact hbound.declareClass hset (some parent) rfl hclass name.text
        | _ => exact hbound.fail _ _

/-! ## Expressions and statements -/

theorem eval (h : Alongside K φ s s') (hset : Settings K set set') (e : Expr)
    (hcode : Suits K φ s.store s.env fun g => exprMarks g e) :
    Keeping K (s.eval set e) (s'.eval set' e) := by
  cases e with
  | literal value span => exact h.proceed (.value (Value.ofLiteral value)) h.here
  | var id name => exact h.evalVariable hset hcode name
  | assign id name value span =>
      have hparts : Suits K φ s.store s.env fun g => exprMarks g value ++ [.use g id] := hcode
      exact h.await (.assign id name) (.eval value) rfl hparts.right hparts.left
  | unary op operand span => exact h.await (.unary op span) (.eval operand) rfl h.here hcode
  | binary op left right span =>
      have hparts : Suits K φ s.store s.env fun g => exprMarks g left ++ exprMarks g right := hcode
      exact h.await (.left op right span) (.eval left) rfl hparts.right hparts.left
  | logical op left right span =>
      have hparts : Suits K φ s.store s.env fun g => exprMarks g left ++ exprMarks g right := hcode
      exact h.await (.logical op right) (.eval left) rfl hparts.right hparts.left
  | group inner span => exact h.proceed (.eval inner) hcode
  | call callee args span =>
      have hparts : Suits K φ s.store s.env fun g => exprMarks g callee ++ argMarks g args := hcode
      exact h.await (.callee args span) (.eval callee) rfl hparts.right hparts.left
  | get object name span => exact h.await (.get name) (.eval object) rfl h.here hcode
  | set object name value span =>
      have hparts : Suits K φ s.store s.env fun g => exprMarks g value ++ exprMarks g object :=
        hcode
      exact h.await (.target name value) (.eval object) rfl hparts.left hparts.right
  | this id keyword => exact h.evalVariable hset hcode _
  | super id thisId keyword method span => exact h.evalSuper hset hcode method

theorem execFunction (h : Alongside K φ s s') (hset : Settings K set set') (decl : Function)
    (hcode : Suits K φ s.store s.env fun g => .declare g :: functionMarks g decl) :
    Keeping K (s.exec set (.function decl)) (s'.exec set' (.function decl)) := by
  have hdeclare : Suits K φ s.store s.env fun g => [.declare g] :=
    hcode.part fun g => List.forall_mem_singleton.mpr List.mem_cons_self
  have hfunction : Suits K φ s.store s.env fun g => functionMarks g decl :=
    hcode.part fun g mark => List.mem_cons_of_mem _
  have hgrows : Grows φ φ s.store (s.store.newFunction ⟨decl, s.env⟩).2 := grows_of_envs φ rfl
  have hmade := h.update (h.store.newFunction ⟨decl, s.env⟩) (h.marked.newFunction hfunction) hgrows
  have hbound := hmade.define hset (hdeclare.mono hgrows) decl.name.text
    (.function (s.store.newFunction ⟨decl, s.env⟩).1)
  have hclosure : Closure.fold φ ⟨decl, s.env⟩ = ⟨decl, s'.env⟩ :=
    congrArg (Closure.mk decl) h.env.symm
  have href : (s'.store.newFunction ⟨decl, s'.env⟩).1 = (s.store.newFunction ⟨decl, s.env⟩).1 :=
    h.store.functions_size
  rw [hclosure] at hbound
  unfold State.exec
  dsimp only
  rw [href]
  exact hbound.proceed .done hbound.here

/-- A block that is not a round. -/
theorem execBlock (h : Alongside K φ s s') {body : List Stmt} {span : Range}
    (hcode : Suits K φ s.store s.env fun g => bodyMarks (false :: g) body) :
    Keeping K (s.exec set (.block body span)) (s'.exec set' (.block body span)) := by
  have hmade := h.newEnv hcode.lt Bindings.empty
  have hbody := hcode.newEnv (fun g => bodyMarks g body) Bindings.empty s'.store.envs.size
  have hframes : Frame.scope s'.env :: s'.frames = (Frame.scope s.env :: s.frames).map
      (Frame.fold (φ.extend s.store.envs.size s'.store.envs.size false)) :=
    List.cons_eq_cons.mpr ⟨congrArg Frame.scope hmade.env, hmade.frames⟩
  unfold State.exec
  dsimp only
  rw [h.env]
  rw [h.env] at hframes
  exact .next ⟨⟨(extend_place_self ..).symm, h.depth, hframes, hmade.store, h.trace⟩, hmade.marked,
    hbody.nothing, List.forall_mem_nil _, hmade.waits⟩ rfl hbody

/-- A round, which the direct machine runs where it stands. -/
theorem execRound (h : Alongside K φ s s') {body : List Stmt} (span : Range)
    (hcode : Suits K φ s.store s.env fun g => bodyMarks (true :: g) body) :
    Keeping K (s.exec set (.block body span))
      (.next { s' with control := .run body, frames := .scope s'.env :: s'.frames }) := by
  have hmade := h.newRound
  have hbody := hcode.newEnv (fun g => bodyMarks g body) Bindings.empty (φ.place s.env)
  have hframes : Frame.scope s'.env :: s'.frames = (Frame.scope s.env :: s.frames).map
      (Frame.fold (φ.extend s.store.envs.size (φ.place s.env) true)) :=
    List.cons_eq_cons.mpr ⟨congrArg Frame.scope hmade.env, hmade.frames⟩
  have henv : s'.env = (φ.extend s.store.envs.size (φ.place s.env) true).place
      s.store.envs.size := h.env.trans (extend_place_self ..).symm
  exact .next ⟨⟨henv, h.depth, hframes, hmade.store, h.trace⟩, hmade.marked, hbody.nothing,
    List.forall_mem_nil _, hmade.waits⟩ rfl hbody

theorem exec (h : Alongside K φ s s') (hset : Settings K set set') (stmt : Stmt)
    (hcode : Suits K φ s.store s.env fun g => stmtMarks g stmt) :
    Keeping K (s.exec set stmt) (s'.execDirectly set' stmt) := by
  cases stmt with
  | expr value span => exact h.await .discard (.eval value) rfl h.here hcode
  | print value span => exact h.await .print (.eval value) rfl h.here hcode
  | assert value span => exact h.await (.assert value.span) (.eval value) rfl h.here hcode
  | assertEqual left right span =>
      have hparts : Suits K φ s.store s.env fun g => exprMarks g left ++ exprMarks g right := hcode
      exact h.await (.assertLeft right (left.span.join right.span)) (.eval left) rfl hparts.right
        hparts.left
  | var name init span =>
      have hdeclare : Suits K φ s.store s.env fun g => [.declare g] :=
        hcode.part fun g => List.forall_mem_singleton.mpr List.mem_cons_self
      cases init with
      | none =>
          have hbound := h.define hset hdeclare name.text .nil
          exact hbound.proceed .done hbound.here
      | some init =>
          have hinit : Suits K φ s.store s.env fun g => exprMarks g init :=
            hcode.part fun g mark => List.mem_cons_of_mem _
          exact h.await (.declare name) (.eval init) rfl hdeclare hinit
  | block body span =>
      have hbody : Suits K φ s.store s.env fun g => bodyMarks (isRound body span :: g) body := hcode
      rw [State.execDirectly]
      split
      next hround =>
        rw [hround] at hbody
        exact h.execRound span hbody
      next hround =>
        rw [Bool.eq_false_iff.mpr hround] at hbody
        exact h.execBlock hbody
  | cond test thenBranch elseBranch span =>
      cases elseBranch with
      | none =>
          have hparts : Suits K φ s.store s.env fun g =>
            exprMarks g test ++ stmtMarks g thenBranch := hcode
          exact h.await (.branch thenBranch none) (.eval test) rfl hparts.right hparts.left
      | some elseBranch =>
          have hparts : Suits K φ s.store s.env fun g => exprMarks g test ++
            (stmtMarks g thenBranch ++ stmtMarks g elseBranch) := hcode
          exact h.await (.branch thenBranch (some elseBranch)) (.eval test) rfl hparts.right
            hparts.left
  | loop test body span =>
      have hparts : Suits K φ s.store s.env fun g => exprMarks g test ++ stmtMarks g body := hcode
      exact h.await (.test test body) (.eval test) rfl hcode hparts.left
  | ret keyword value span =>
      cases value with
      | none => exact h.proceed (.returning .nil) h.here
      | some value => exact h.await .giveBack (.eval value) rfl h.here hcode
  | function decl => exact h.execFunction hset decl hcode
  | classDecl name superclass methods span => exact h.execClass hset name superclass hcode

theorem execAll (h : Alongside K φ s s') (body : List Stmt)
    (hcode : Suits K φ s.store s.env fun g => bodyMarks g body) :
    Keeping K (s.execAll body) (s'.execAll body) := by
  cases body with
  | nil => exact h.proceed .done h.here
  | cons stmt rest =>
      have hparts : Suits K φ s.store s.env fun g => stmtMarks g stmt ++ bodyMarks g rest := hcode
      exact h.await (.sequence rest) (.exec stmt) rfl hparts.right hparts.left

/-! ## Outcomes -/

theorem nextArgument (h : Alongside K φ s s') (callee : Value) (before : List Value)
    (span : Range) (es : List Expr) (hcode : Suits K φ s.store s.env fun g => argMarks g es) :
    Keeping K (s.nextArgument callee before span es) (s'.nextArgument callee before span es) := by
  cases es with
  | nil => exact h.proceed (.call span callee before.reverse) h.here
  | cons e rest =>
      have hparts : Suits K φ s.store s.env fun g => exprMarks g e ++ argMarks g rest := hcode
      exact h.await (.argument callee before rest span) (.eval e) rfl hparts.right hparts.left

/-- A value is handed to a frame that has nothing to do with environments. -/
theorem receive (h : Alongside K φ s s') (hset : Settings K set set') (v : Value)
    (hplain : frame.plain = true) (hframe : Suits K φ s.store s.env frame.marks) :
    Keeping K (s.receive set v frame) (s'.receive set' v frame) := by
  cases frame with
  | assign id name => exact h.assignVariable hset hframe name v
  | unary op span => exact h.settle _ _
  | left op right span => exact h.await (.right op v span) (.eval right) rfl h.here hframe
  | right op left span => exact h.settle _ _
  | logical op right =>
      cases op with
      | or =>
          rw [State.receive, State.receive]
          split
          · exact h.proceed (.value v) h.here
          · exact h.proceed (.eval right) hframe
      | and =>
          rw [State.receive, State.receive]
          split
          · exact h.proceed (.eval right) hframe
          · exact h.proceed (.value v) h.here
  | callee args span => exact h.nextArgument v [] span args hframe
  | argument callee before rest span => exact h.nextArgument callee (v :: before) span rest hframe
  | get name => exact h.getProperty name v
  | target name value =>
      cases v with
      | objectRef object => exact h.await (.field object name) (.eval value) rfl h.here hframe
      | _ => exact h.fail _ _
  | field object name =>
      have hgrows : Grows φ φ s.store (s.store.setField object name.text v) := grows_of_envs φ rfl
      have hset := h.update (h.store.setField object name.text v) (h.marked.mono hgrows rfl rfl)
        hgrows
      exact hset.proceed (.value v) hset.here
  | discard => exact h.proceed .done h.here
  | print =>
      rw [State.receive, State.receive, hset.options, h.store.text_eq]
      split
      · exact h.proceed .done h.here
      · exact (h.write _).proceed .done h.here
  | assert range =>
      rw [State.receive, State.receive]
      split
      · exact h.proceed .done h.here
      · exact h.fail _ _
  | assertLeft right range => exact h.await (.assertRight v range) (.eval right) rfl h.here hframe
  | assertRight left range =>
      rw [State.receive, State.receive, h.store.debugText_eq, h.store.debugText_eq]
      split
      · exact h.proceed .done h.here
      · exact h.fail _ _
  | branch thenBranch elseBranch =>
      cases elseBranch with
      | none =>
          rw [State.receive, State.receive]
          split
          · exact h.proceed (.exec thenBranch) hframe
          · exact h.proceed .done h.here
      | some elseBranch =>
          have hparts : Suits K φ s.store s.env fun g =>
            stmtMarks g thenBranch ++ stmtMarks g elseBranch := hframe
          rw [State.receive, State.receive]
          split
          · exact h.proceed (.exec thenBranch) hparts.left
          · exact h.proceed (.exec elseBranch) hparts.right
  | test test body =>
      have hparts : Suits K φ s.store s.env fun g => exprMarks g test ++ stmtMarks g body := hframe
      rw [State.receive, State.receive]
      split
      · exact h.await (.body test body) (.exec body) rfl hframe hparts.right
      · exact h.proceed .done h.here
  | declare name =>
      have hbound := h.define hset hframe name.text v
      exact hbound.proceed .done hbound.here
  | giveBack => exact h.proceed (.returning v) h.here
  | construct object => exact h.proceed (.value (.objectRef object)) h.here
  | protect => exact h.proceed (.value (.bool true)) h.here
  | _ => exact .broken

theorem complete (h : Alongside K φ s s') (hplain : frame.plain = true)
    (hframe : Suits K φ s.store s.env frame.marks) :
    Keeping K (s.complete frame) (s'.complete frame) := by
  cases frame with
  | body test body =>
      have hparts : Suits K φ s.store s.env fun g => exprMarks g test ++ stmtMarks g body := hframe
      exact h.await (.test test body) (.eval test) rfl hframe hparts.left
  | sequence rest => exact h.proceed (.run rest) hframe
  | program rest =>
      cases rest with
      | nil => exact h.proceed .done h.here
      | cons stmt rest =>
          have hparts : Suits K φ s.store s.env fun g => stmtMarks g stmt ++ bodyMarks g rest :=
            hframe
          exact h.await (.program rest) (.exec stmt) rfl hparts.right hparts.left
  | scope | activation => cases hplain
  | _ => exact .broken

theorem unwind (h : Alongside K φ s s') (v : Value) (hplain : frame.plain = true)
    (hframe : Suits K φ s.store s.env frame.marks) :
    Keeping K (s.unwind v frame) (s'.unwind v frame) := by
  cases frame with
  | program rest => exact h.await (.program rest) .done rfl hframe h.here
  | scope | activation => cases hplain
  | _ => exact h.proceed (.returning v) h.here

theorem raise (h : Alongside K φ s s') (hset : Settings K set set') (e : RuntimeError)
    (hplain : frame.plain = true) : Keeping K (s.raise set e frame) (s'.raise set' e frame) := by
  cases frame with
  | protect =>
      have hlog := h.log hset ⟨utf8 "pcall caught runtime error", [(utf8 "error", e.cause.message)]⟩
      exact hlog.proceed (.value (.bool false)) hlog.here
  | scope | activation => cases hplain
  | _ => exact h.proceed (.failing e) h.here

/-! ## Runs -/

end Alongside

/-- How frames are taken off two stacks: both machines have none, a frame of the same kind that
has nothing to do with environments, or one that leads back to an environment. -/
inductive Popped (K : Mark → Prop) (φ : Folding) (s s' : State) : Prop where
  | none (hs : s.pop = none) (hs' : s'.pop = none)
  | plain {frame rest rest'} (hs : s.pop = some (frame, { s with frames := rest }))
      (hs' : s'.pop = some (frame, { s' with frames := rest' })) (hplain : frame.plain = true)
      (hframe : Suits K φ s.store s.env frame.marks)
      (h : Alongside K φ { s with frames := rest } { s' with frames := rest' })
  | scope {saved rest rest'} (hs : s.pop = some (.scope saved, { s with frames := rest }))
      (hs' : s'.pop = some (.scope (φ.place saved), { s' with frames := rest' }))
      (h : Alongside K φ { s with frames := rest, env := saved }
        { s' with frames := rest', env := φ.place saved })
  | activation {saved c rest rest'}
      (hs : s.pop = some (.activation saved c, { s with frames := rest }))
      (hs' : s'.pop = some (.activation (φ.place saved) (c.fold φ), { s' with frames := rest' }))
      (h : Alongside K φ { s with frames := rest, env := saved, depth := s.depth - 1 }
        { s' with frames := rest', env := φ.place saved, depth := s'.depth - 1 })
      (hc : c.env < s.store.envs.size)

namespace Alongside

theorem pop (h : Alongside K φ s s') : Popped K φ s s' := by
  obtain ⟨control, frames, env, depth, store, trace⟩ := s
  obtain ⟨control', frames', env', depth', store', trace'⟩ := s'
  obtain rfl : frames' = frames.map (Frame.fold φ) := h.frames
  cases frames with
  | nil => exact .none rfl rfl
  | cons frame rest =>
      obtain ⟨hframe, hclosures, hwaits⟩ := h.waits
      cases hplain : frame.plain with
      | true =>
          have hpop : State.pop ⟨control', (frame :: rest).map (Frame.fold φ), env', depth', store',
              trace'⟩ = some (frame, ⟨control', rest.map (Frame.fold φ), env', depth', store',
                trace'⟩) := by
            rw [List.map_cons, Frame.fold_of_plain hplain]
            rfl
          rw [Frame.below_of_plain hplain] at hwaits
          exact .plain rfl hpop hplain hframe
            ⟨⟨h.env, h.depth, rfl, h.store, h.trace⟩, h.marked, hwaits⟩
      | false =>
          cases frame with
          | scope saved =>
              exact .scope rfl rfl ⟨⟨rfl, h.depth, rfl, h.store, h.trace⟩, h.marked, hwaits⟩
          | activation saved c =>
              exact .activation rfl rfl ⟨⟨rfl, congrArg (· - 1) h.depth, rfl, h.store, h.trace⟩,
                h.marked, hwaits⟩ (hclosures c List.mem_cons_self)
          | _ => cases hplain

theorem handValue (h : Alongside K φ s s') (hset : Settings K set set') (v : Value)
    (hcontrol : s.control = .value v) (hcontrol' : s'.control = .value v) :
    Keeping K (LoxMachine.advance set s) (LoxMachine.advance set' s') := by
  unfold LoxMachine.advance
  rw [hcontrol, hcontrol']
  cases h.pop with
  | none hs hs' =>
      dsimp only
      rw [hs]
      exact .broken
  | plain hs hs' hplain hframe hrest =>
      dsimp only
      rw [hs, hs']
      exact hrest.receive hset v hplain hframe
  | scope hs hs' hback | activation hs hs' hback =>
      dsimp only
      rw [hs]
      exact .broken

theorem handDone (h : Alongside K φ s s') (set set' : Setting) (hcontrol : s.control = .done)
    (hcontrol' : s'.control = .done) :
    Keeping K (LoxMachine.advance set s) (LoxMachine.advance set' s') := by
  unfold LoxMachine.advance
  rw [hcontrol, hcontrol']
  cases h.pop with
  | none hs hs' =>
      dsimp only
      rw [hs, hs']
      exact .halt h (hcontrol'.trans hcontrol.symm)
  | plain hs hs' hplain hframe hrest =>
      dsimp only
      rw [hs, hs']
      exact hrest.complete hplain hframe
  | scope hs hs' hback =>
      dsimp only
      rw [hs, hs']
      exact hback.proceed .done hback.here
  | @activation saved c rest rest' hs hs' hback hc =>
      dsimp only
      rw [hs, hs']
      exact leave { s with frames := rest } { s' with frames := rest' } hback hc .nil

theorem handReturn (h : Alongside K φ s s') (set set' : Setting) (v : Value)
    (hcontrol : s.control = .returning v)
    (hcontrol' : s'.control = .returning v) :
    Keeping K (LoxMachine.advance set s) (LoxMachine.advance set' s') := by
  unfold LoxMachine.advance
  rw [hcontrol, hcontrol']
  cases h.pop with
  | none hs hs' =>
      dsimp only
      rw [hs]
      exact .broken
  | plain hs hs' hplain hframe hrest =>
      dsimp only
      rw [hs, hs']
      exact hrest.unwind v hplain hframe
  | scope hs hs' hback =>
      dsimp only
      rw [hs, hs']
      exact hback.proceed (.returning v) hback.here
  | @activation saved c rest rest' hs hs' hback hc =>
      dsimp only
      rw [hs, hs']
      exact leave { s with frames := rest } { s' with frames := rest' } hback hc v

theorem handError (h : Alongside K φ s s') (hset : Settings K set set') (e : RuntimeError)
    (hcontrol : s.control = .failing e) (hcontrol' : s'.control = .failing e) :
    Keeping K (LoxMachine.advance set s) (LoxMachine.advance set' s') := by
  unfold LoxMachine.advance
  rw [hcontrol, hcontrol']
  cases h.pop with
  | none hs hs' =>
      dsimp only
      rw [hs, hs']
      exact .halt h (hcontrol'.trans hcontrol.symm)
  | plain hs hs' hplain hframe hrest =>
      dsimp only
      rw [hs, hs']
      exact hrest.raise hset e hplain
  | scope hs hs' hback | activation hs hs' hback =>
      dsimp only
      rw [hs, hs']
      exact hback.proceed (.failing e) hback.here

theorem advance (h : Alongside K φ s s') (hcontrol : s'.control = s.control)
    (hcode : Suits K φ s.store s.env s.control.marks) (hset : Settings K set set') :
    Keeping K (LoxMachine.advance set s) (advanceDirectly set' s') := by
  obtain ⟨control, frames, env, depth, store, trace⟩ := s
  obtain ⟨control', frames', env', depth', store', trace'⟩ := s'
  obtain rfl : control' = control := hcontrol
  cases control' with
  | eval e => exact h.eval hset e hcode
  | exec stmt => exact h.exec hset stmt hcode
  | run body => exact h.execAll body hcode
  | call range callee args => exact h.callValue hset range callee args
  | value v => exact h.handValue hset v rfl rfl
  | done => exact h.handDone set set' rfl rfl
  | returning v => exact h.handReturn set set' v rfl rfl
  | failing e => exact h.handError hset e rfl rfl

/-- The machines come to the same end, with stores of which one is the other one folded, and have
written the same. -/
theorem run {W : World} {R : Sites} (h : Alongside K φ s s') (hcontrol : s'.control = s.control)
    (hcode : Suits K φ s.store s.env s.control.marks) (hset : Settings K set set')
    (hR : ∀ base site, R base site → site.Settled set.depths) (fuel : Nat) (hvalid : Valid W R s) :
    (runDirectly set' fuel s').1 = (LoxMachine.run set fuel s).1 ∧
      (runDirectly set' fuel s').2.control = (LoxMachine.run set fuel s).2.control ∧
      ∃ φ', Alongside K φ' (LoxMachine.run set fuel s).2 (runDirectly set' fuel s').2 ∧
        ((LoxMachine.run set fuel s).1 = none →
          Suits K φ' (LoxMachine.run set fuel s).2.store (LoxMachine.run set fuel s).2.env
            (LoxMachine.run set fuel s).2.control.marks) := by
  -- Validity keeps the first machine from breaking down, where the second may do anything.
  induction fuel generalizing W φ s s' with
  | zero => exact ⟨rfl, hcontrol, φ, h, fun _ => hcode⟩
  | succ fuel ih =>
      have hstep := h.advance hcontrol hcode hset
      have hcontinues := continues_advance hR hvalid
      rw [LoxMachine.run, runDirectly]
      generalize LoxMachine.advance set s = p at hstep hcontinues
      generalize advanceDirectly set' s' = p' at hstep
      cases hstep with
      | next h hcontrol hcode =>
          obtain ⟨W', _, _, hvalid'⟩ := hcontinues
          exact ih h hcontrol hcode hvalid'
      | halt h hcontrol =>
          exact ⟨rfl, hcontrol, _, h, fun hnone => absurd hnone (Option.some_ne_none _)⟩
      | broken => exact absurd rfl (hcontinues.1 _)

end Alongside

end LoxMachine
