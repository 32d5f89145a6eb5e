import LoxMachine.Proofs.Machine.Stack

/-!
# The machine never breaks down

A state is valid if its store is sound and what it is about to do fits the stack.  A
step takes a valid state to a valid one, and it never ends with a defect.
-/

namespace LoxMachine

open Scope Store

/-- What the machine is about to do fits the environment and the frames. -/
inductive Poised (W : World) (R : Sites) (st : Store) : Nat → List Frame → Control → Prop where
  | eval {env frames e} (h : Evaluates W R st env e)
      (hstack : Stack W R st .value env frames) : Poised W R st env frames (.eval e)
  | exec {env frames s} (h : Executes W R st env s)
      (hstack : Stack W R st (.done (declared s)) env frames) :
      Poised W R st env frames (.exec s)
  | run {env frames body} (h : Resumes W R st env [] body)
      (hstack : Stack W R st (.done []) env frames) : Poised W R st env frames (.run body)
  | call {env frames range callee args} (hcallee : st.Knows callee)
      (hargs : ∀ v ∈ args, st.Knows v) (hstack : Stack W R st .value env frames) :
      Poised W R st env frames (.call range callee args)
  | value {env frames v} (hv : st.Knows v) (hstack : Stack W R st .value env frames) :
      Poised W R st env frames (.value v)
  | done {env frames owed} (h : ∀ n ∈ owed, (st.at? env n).isSome)
      (hstack : Stack W R st (.done owed) env frames) : Poised W R st env frames .done
  | finished {env} : Poised W R st env [] .done
  | returning {env frames v} (hv : st.Knows v) (hstack : Stack W R st (.done []) env frames) :
      Poised W R st env frames (.returning v)
  | failing {env frames e a} (hstack : Stack W R st a env frames) :
      Poised W R st env frames (.failing e)
  | failed {env e} : Poised W R st env [] (.failing e)

structure Valid (W : World) (R : Sites) (s : State) : Prop where
  store : Sound W R s.store
  poised : Poised W R s.store s.env s.frames s.control

/-- A step from a store leads to a valid state, or to an end that is no defect. -/
def Continues (W : World) (R : Sites) (st : Store) : Progress → Prop
  | .next s => ∃ W', W.Agrees W' st.envs.size ∧ st.Extends s.store ∧ Valid W' R s
  | .halt ending s => (∀ d, ending ≠ .broken d) ∧
      ∃ W', W.Agrees W' st.envs.size ∧ st.Extends s.store ∧ Sound W' R s.store

variable {W W' : World} {R : Sites} {st st' : Store} {set : Setting} {s : State}

/-! ## Moves -/

theorem Continues.trans {p : Progress} (h : Continues W' R st' p)
    (hW : W.Agrees W' st.envs.size) (hext : st.Extends st') : Continues W R st p := by
  cases p with
  | next s =>
      obtain ⟨W'', hW', hext', hvalid⟩ := h
      exact ⟨W'', hW.trans hW' hext.size, hext.trans hext', hvalid⟩
  | halt ending s =>
      obtain ⟨hending, W'', hW', hext', hsound⟩ := h
      exact ⟨hending, W'', hW.trans hW' hext.size, hext.trans hext', hsound⟩

/-- A step to another valid state of the same world. -/
theorem continues_next (hext : st.Extends s.store) (hs : Sound W R s.store)
    (h : Poised W R s.store s.env s.frames s.control) : Continues W R st (.next s) :=
  ⟨W, World.Agrees.refl _ _, hext, hs, h⟩

theorem continues_proceed {control : Control} (hs : Sound W R s.store)
    (h : Poised W R s.store s.env s.frames control) :
    Continues W R s.store (s.proceed control) :=
  ⟨W, World.Agrees.refl _ _, Extends.refl _, hs, h⟩

theorem continues_await {frame : Frame} {control : Control} (hs : Sound W R s.store)
    (h : Poised W R s.store s.env (frame :: s.frames) control) :
    Continues W R s.store (s.await frame control) :=
  ⟨W, World.Agrees.refl _ _, Extends.refl _, hs, h⟩

theorem continues_fail {range : Range} {cause : Cause} {a : Awaited} (hs : Sound W R s.store)
    (hstack : Stack W R s.store a s.env s.frames) :
    Continues W R s.store (s.fail range cause) :=
  continues_proceed hs (.failing hstack)

/-- The end of a statement that owes nothing. -/
theorem continues_done (hs : Sound W R s.store)
    (hstack : Stack W R s.store (.done []) s.env s.frames) :
    Continues W R s.store (s.proceed .done) :=
  continues_proceed hs (.done (fun _ hn => absurd hn List.not_mem_nil) hstack)

@[simp] theorem log_store (s : State) (set : Setting) (record : Record) :
    (s.log set record).store = s.store := by
  unfold State.log
  split <;> rfl

@[simp] theorem log_env (s : State) (set : Setting) (record : Record) :
    (s.log set record).env = s.env := by
  unfold State.log
  split <;> rfl

@[simp] theorem log_frames (s : State) (set : Setting) (record : Record) :
    (s.log set record).frames = s.frames := by
  unfold State.log
  split <;> rfl

/-! ## Variables -/

section Variables

variable {base env id : Nat} {Γ : List Layer} {name : Bytes} {region : Region}

/-- A name that the pass over the module found is bound where it says. -/
theorem bindingAt_of_lookup (hchain : Chain W st base Γ env) {depth : Nat}
    (h : Scope.lookup name (names Γ) = some depth) :
    ∃ owner v, st.bindingAt env depth name = .ok (owner, v) ∧ st.at? owner name = some v := by
  obtain ⟨layer, hlayer, husable⟩ := lookup_eq_some h
  obtain ⟨owner, _, hclimb, _, _, hnames, _⟩ := hchain.climb hlayer
  obtain ⟨v, hv⟩ := Option.isSome_iff_exists.mp (hnames name husable)
  exact ⟨owner, v, bindingAt_eq_ok hclimb hv, hv⟩

/-- A settled reference has an owner, or is searched for without success. -/
theorem owner_eq_ok (hchain : Chain W s.store base Γ s.env)
    (hdepth : set.depths.depth? id = Scope.lookup name (names Γ)) :
    s.owner set id name = .ok none ∧ s.lookup set id name = .ok none ∨
    ∃ owner v, s.owner set id name = .ok (some owner) ∧
      s.lookup set id name = .ok (some v) ∧ s.store.at? owner name = some v := by
  unfold State.owner State.lookup
  rw [hdepth]
  cases hlookup : Scope.lookup name (names Γ) with
  | some depth =>
      obtain ⟨owner, v, hbinding, hv⟩ := bindingAt_of_lookup hchain hlookup
      refine .inr ⟨owner, v, ?_, ?_, hv⟩
      · simp only [hbinding, Except.map]
      · simp only [getAt, hbinding, Except.map]
  | none =>
      cases hfound : s.store.nearest? s.env name with
      | none => exact .inl ⟨rfl, by simp only [get?, hfound, Option.map_none]⟩
      | some found =>
          obtain ⟨owner, v⟩ := found
          refine .inr ⟨owner, v, rfl, ?_, (climb_of_search hfound).1⟩
          simp only [get?, hfound, Option.map_some]

/-- `this` and `super` lead to the environments made for them. -/
theorem climb_of_leads (hchain : Chain W st base Γ env)
    (h : Leads set.depths Γ id name region) :
    ∃ depth owner declares, set.depths.depth? id = some depth ∧
      st.climb depth env = some owner ∧ owner < st.envs.size ∧
      W owner = .scope region declares := by
  obtain ⟨depth, layer, hdepth, hlayer, _, rfl⟩ := h
  obtain ⟨owner, _, hclimb, hparent, horigin, _⟩ := hchain.climb hlayer
  exact ⟨depth, owner, layer.declares, hdepth, hclimb, lt_of_parent? hparent, horigin⟩

theorem continues_read {name : Name} (hR : ∀ base site, R base site → site.Settled set.depths)
    (hs : Sound W R s.store)
    (h : Fits W R s.store s.env [] fun Γ => [.read Γ id name.text])
    (hstack : Stack W R s.store .value s.env s.frames) :
    Continues W R s.store (s.evalVariable set id name) := by
  obtain ⟨base, Γ, hchain, _, hsites⟩ := h
  obtain ⟨hdepth, _⟩ := hR base _ (hsites _ List.mem_cons_self)
  unfold State.evalVariable
  rcases owner_eq_ok hchain hdepth with ⟨_, hlookup⟩ | ⟨owner, v, _, hlookup, hv⟩
  · rw [hlookup]
    exact continues_fail hs hstack
  · rw [hlookup]
    exact continues_proceed hs (.value (hs.values owner _ v hv) hstack)

theorem continues_write {name : Name} {v : Value}
    (hR : ∀ base site, R base site → site.Settled set.depths) (hs : Sound W R s.store)
    (h : Fits W R s.store s.env [] fun Γ => [.write Γ id name.text]) (hv : s.store.Knows v)
    (hstack : Stack W R s.store .value s.env s.frames) :
    Continues W R s.store (s.assignVariable set id name v) := by
  obtain ⟨base, Γ, hchain, _, hsites⟩ := h
  obtain ⟨hdepth, hplain⟩ := hR base _ (hsites _ List.mem_cons_self)
  unfold State.assignVariable
  rcases owner_eq_ok hchain hdepth with ⟨howner, _⟩ | ⟨owner, old, howner, _, hold⟩
  · rw [howner]
    exact continues_fail hs hstack
  · rw [howner]
    have hlt := lt_of_at? hold
    have hext : s.store.Extends (s.store.define owner name.text v) := extends_define hlt
    exact continues_next hext (hs.define hlt hv hplain (hs.allowed owner _ old hold))
      (.value (hv.mono hext) (hstack.mono hext (World.Agrees.refl _ _)))

theorem continues_this {keyword : Range}
    (hR : ∀ base site, R base site → site.Settled set.depths) (hs : Sound W R s.store)
    (h : Fits W R s.store s.env [] fun Γ => [.this Γ id])
    (hstack : Stack W R s.store .value s.env s.frames) :
    Continues W R s.store (s.evalVariable set id ⟨utf8 "this", keyword⟩) := by
  obtain ⟨base, Γ, hchain, _, hsites⟩ := h
  have hleads := hR base _ (hsites _ List.mem_cons_self)
  obtain ⟨depth, owner, declares, hdepth, hclimb, hlt, horigin⟩ := climb_of_leads hchain hleads
  obtain ⟨object, hthis⟩ := hs.receiver owner declares hlt horigin
  unfold State.evalVariable State.lookup
  simp only [hdepth, getAt_eq_ok hclimb hthis, Except.map]
  exact continues_proceed hs (.value (hs.values owner _ _ hthis) hstack)

end Variables

/-! ## Properties -/

theorem continues_yieldMethod {method : Closure} {object : Nat} (hs : Sound W R s.store)
    (hmethod : Bindable W R s.store method) (hobject : object < s.store.instances.size)
    (hstack : Stack W R s.store .value s.env s.frames) :
    Continues W R s.store (s.yieldMethod method object) := by
  obtain ⟨W', hW, hbound, hrunnable⟩ := hs.bindMethod hmethod hobject
  have hext : s.store.Extends (s.store.bindMethod method object).2 := extends_newEnv _ _
  have hext' := hext.trans (extends_newFunction (s.store.bindMethod method object).1)
  exact ⟨W', hW, hext', hbound.newFunction hrunnable,
    .value (knows_newFunction _) (hstack.mono hext' hW)⟩

theorem continues_getProperty {name : Name} {v : Value} (hs : Sound W R s.store)
    (hv : s.store.Knows v) (hstack : Stack W R s.store .value s.env s.frames) :
    Continues W R s.store (s.getProperty name v) := by
  cases v with
  | objectRef object =>
      have hobject : object < s.store.instances.size := hv
      unfold State.getProperty
      simp only [Array.getElem?_eq_getElem hobject]
      split
      next w hw =>
        exact continues_proceed hs
          (.value (hs.fields object _ _ w (Array.getElem?_eq_getElem hobject) hw) hstack)
      next =>
        split
        next method hmethod =>
          exact continues_yieldMethod hs (hs.method hmethod) hobject hstack
        next => exact continues_fail hs hstack
  | _ => exact continues_fail hs hstack

/-- In a method of a subclass the environment of the receiver lies inside that of the
superclass. -/
theorem Scope.InMethod.climb {base env depth : Nat} {Γ : List Layer} (h : InMethod Γ depth)
    (hs : Sound W R st) (hchain : Chain W st base Γ env) :
    ∃ t p object cls, st.climb depth env = some t ∧ st.parent? t = some p ∧
      st.at? t (utf8 "this") = some (.objectRef object) ∧
      st.climb (depth + 1) env = some p ∧ st.at? p (utf8 "super") = some (.classRef cls) := by
  obtain ⟨receiver, hreceiver, _, hregion⟩ := h.receiver
  obtain ⟨superclass, hsuperclass, _, hregion'⟩ := h.superclass
  obtain ⟨t, p, hclimb, hparent, horigin, _⟩ := hchain.climb hreceiver
  obtain ⟨p', _, hclimb', hparent', horigin', _⟩ := hchain.climb hsuperclass
  obtain rfl : p = p' := by
    rw [climb_add, hclimb, Option.bind_some, climb_succ, hparent] at hclimb'
    exact Option.some.inj hclimb'
  rw [Layer.origin, hregion] at horigin
  rw [Layer.origin, hregion'] at horigin'
  obtain ⟨object, hobject⟩ := hs.receiver t _ (lt_of_parent? hparent) horigin
  obtain ⟨cls, hcls⟩ := hs.superclass p _ (lt_of_parent? hparent') horigin'
  exact ⟨t, p, object, cls, hclimb, hparent, hobject, hclimb', hcls⟩

theorem continues_super {id thisId : Nat} {method : Name}
    (hR : ∀ base site, R base site → site.Settled set.depths) (hs : Sound W R s.store)
    (h : Fits W R s.store s.env [] fun Γ => [.super Γ id thisId])
    (hstack : Stack W R s.store .value s.env s.frames) :
    Continues W R s.store (s.evalSuper set id thisId method) := by
  obtain ⟨base, Γ, hchain, _, hsites⟩ := h
  obtain ⟨depth, hmethod, hthis, hsuper⟩ := hR base _ (hsites _ List.mem_cons_self)
  obtain ⟨t, p, object, cls, hclimb, hparent, hobject, hclimb', hcls⟩ :=
    hmethod.climb hs hchain
  unfold State.evalSuper
  simp only [hthis, hsuper, getAt_eq_ok hclimb' hcls, getAt_eq_ok hclimb hobject]
  split
  next closure hclosure =>
    exact continues_yieldMethod hs (hs.method hclosure) (hs.values t _ _ hobject) hstack
  next => exact continues_fail hs hstack

/-! ## Operators -/

theorem knows_operate {op : BinaryOp} {left right v : Value}
    (h : State.operate op left right = .ok v) : st.Knows v := by
  unfold State.operate at h
  split at h
  · cases h; trivial
  · cases h; trivial
  · cases h; trivial
  · cases h
    cases op <;> trivial
  · cases h

theorem knows_operateUnary {op : UnaryOp} {operand v : Value}
    (h : State.operateUnary op operand = .ok v) : st.Knows v := by
  unfold State.operateUnary at h
  split at h
  · cases h; trivial
  · cases h; trivial
  · cases h

theorem continues_settle {range : Range} {outcome : Except Cause Value} (hs : Sound W R s.store)
    (h : ∀ v, outcome = .ok v → s.store.Knows v)
    (hstack : Stack W R s.store .value s.env s.frames) :
    Continues W R s.store (s.settle range outcome) := by
  cases outcome with
  | ok v => exact continues_proceed hs (.value (h v rfl) hstack)
  | error cause => exact continues_fail hs hstack

/-! ## Calls -/

/-- A name is bound after the parameters are if it is one of them or was bound before. -/
theorem isSome_bindParams {n : Bytes} (params : List Name) (args : List Value)
    (vars : Bindings Value) :
    ((State.bindParams params args vars).get? n).isSome ↔
      n ∈ paramNames params ∨ (vars.get? n).isSome := by
  induction params generalizing args vars with
  | nil => simp [State.bindParams, paramNames]
  | cons p params ih =>
      have hcons : ∀ v rest, ((State.bindParams params rest (vars.set p.text v)).get? n).isSome ↔
          n ∈ paramNames (p :: params) ∨ (vars.get? n).isSome := by
        intro v rest
        refine (ih rest _).trans ?_
        rw [Bindings.isSome_get?_set]
        simp [paramNames, or_assoc, or_left_comm]
      cases args with
      | nil => exact hcons .nil []
      | cons v args => exact hcons v args

theorem knows_bindParams {n : Bytes} {w : Value} (params : List Name) (args : List Value)
    (vars : Bindings Value) (hargs : ∀ v ∈ args, st.Knows v)
    (hvars : ∀ m v, vars.get? m = some v → st.Knows v)
    (h : (State.bindParams params args vars).get? n = some w) : st.Knows w := by
  have hset : ∀ {vars : Bindings Value} {p : Name} {v}, st.Knows v →
      (∀ m v, vars.get? m = some v → st.Knows v) →
      ∀ m w, (vars.set p.text v).get? m = some w → st.Knows w := by
    intro vars p v hv hvars m w hw
    rcases Bindings.get?_set_cases hw with ⟨_, rfl⟩ | hw
    · exact hv
    · exact hvars m w hw
  induction params generalizing args vars with
  | nil => exact hvars n w h
  | cons p params ih =>
      cases args with
      | nil => exact ih [] _ nofun (hset (v := .nil) trivial hvars) h
      | cons v args =>
          exact ih args _ (fun v' hv' => hargs v' (List.mem_cons_of_mem _ hv'))
            (hset (hargs v List.mem_cons_self) hvars) h

theorem continues_enter {range : Range} {closure : Closure} {args : List Value}
    (hs : Sound W R s.store) (hclosure : Runnable W R s.store closure)
    (hargs : ∀ v ∈ args, s.store.Knows v)
    (hstack : Stack W R s.store .value s.env s.frames) :
    Continues W R s.store (s.enter set range closure args) := by
  obtain ⟨base, Γ, hchain, hsites, hinit⟩ := hclosure
  obtain ⟨decl, env⟩ := closure
  obtain ⟨kind, name, params, body, span⟩ := decl
  unfold State.enter
  simp only
  split
  next => exact continues_fail hs hstack
  next =>
    split
    next => exact continues_fail hs hstack
    next =>
      -- The environment of the call is the layer of the parameters and the body.
      let layer : Layer := ⟨.function, bindNames (paramNames params) Bindings.empty,
        paramNames params ++ declaredAll body⟩
      let vars := State.bindParams params args Bindings.empty
      have hlayers : bodyLayers params body Γ = layer :: Γ := bindAll_cons ..
      have hext : s.store.Extends (s.store.newEnv (some env) vars).2 := extends_newEnv _ _
      have hW := W.agrees_extend s.store.envs.size layer.origin
      have hbound : ∀ n, (vars.get? n).isSome ↔ n ∈ paramNames params := fun n =>
        (isSome_bindParams params args Bindings.empty).trans (by simp)
      have hfurnished : s.store.Furnished layer.origin vars := by
        refine ⟨fun n v hv => ?_, fun n v hv => ?_, nofun, nofun⟩
        · exact knows_bindParams params args Bindings.empty hargs nofun hv
        · exact List.mem_append_left _ ((hbound n).mp (Option.isSome_of_eq_some hv))
      have hnames : ∀ n, layer.names.get? n = some true → (vars.get? n).isSome := by
        intro n hn
        rw [get?_bindNames] at hn
        split at hn
        next hmem => exact (hbound n).mpr hmem
        next => cases hn
      refine ⟨W.extend s.store.envs.size layer.origin, hW, ?_, ?_, ?_⟩
      · rw [log_store]
        exact hext
      · rw [log_store]
        exact hs.newEnv (hs.lt_of_chain hchain) hfurnished
      · simp only [log_store, log_env, log_frames]
        refine .run ⟨base, layer :: Γ, hchain.newEnv hnames nofun, ?_, ?_⟩ (.push
          (.activation fun hkind => (hinit hkind).mono hext hW) (hstack.mono hext hW))
        · exact fun n hn => List.mem_append_right _ hn
        · intro site hmem
          rw [← hlayers] at hmem
          exact hsites site (List.mem_cons_of_mem _ (List.mem_append_right _ hmem))

theorem continues_leave {saved : Nat} {closure : Closure} {v : Value} (hs : Sound W R s.store)
    (hclosure : closure.decl.kind = .initializer → Receives W s.store closure.env)
    (hv : s.store.Knows v) (hstack : Stack W R s.store .value saved s.frames) :
    Continues W R s.store (s.leave saved closure v) := by
  unfold State.leave
  simp only
  split
  next hkind =>
    obtain ⟨hlt, declares, horigin⟩ := hclosure hkind
    obtain ⟨object, hthis⟩ := hs.receiver closure.env declares hlt horigin
    rw [getAt_eq_ok rfl hthis]
    exact continues_proceed (s := { s with env := saved, depth := s.depth - 1 }) hs
      (.value (hs.values _ _ _ hthis) hstack)
  next =>
    exact continues_proceed (s := { s with env := saved, depth := s.depth - 1 }) hs
      (.value hv hstack)

theorem continues_instantiate {range : Range} {cls : Nat} {args : List Value}
    (hs : Sound W R s.store) (hargs : ∀ v ∈ args, s.store.Knows v)
    (hstack : Stack W R s.store .value s.env s.frames) :
    Continues W R s.store (s.instantiate set range cls args) := by
  have hext : s.store.Extends (s.store.newInstance cls).2 := extends_newInstance cls
  have hW := World.Agrees.refl W s.store.envs.size
  have hmade := hs.newInstance cls
  have hobject : (s.store.newInstance cls).2.Knows (.objectRef s.store.instances.size) :=
    knows_newInstance cls
  unfold State.instantiate
  simp only
  split
  next init hinit =>
    obtain ⟨W', hW', hbound, hrunnable⟩ := hmade.bindMethod (hmade.method hinit) hobject
    have hext' : s.store.Extends
        ((s.store.newInstance cls).2.bindMethod init s.store.instances.size).2 :=
      hext.trans (extends_newEnv _ _)
    refine (continues_enter
      (s := { s with
        store := ((s.store.newInstance cls).2.bindMethod init s.store.instances.size).2
        frames := .construct s.store.instances.size :: s.frames })
      hbound hrunnable (fun v hv => (hargs v hv).mono hext') ?_).trans hW' hext'
    exact .push (.construct hobject) (hstack.mono hext' hW')
  next =>
    split
    next =>
      exact (continues_fail (s := { s with store := (s.store.newInstance cls).2 }) hmade
        (hstack.mono hext hW)).trans hW hext
    next =>
      exact (continues_proceed (s := { s with store := (s.store.newInstance cls).2 }) hmade
        (.value hobject (hstack.mono hext hW))).trans hW hext

/-- Arguments that natives do not refuse are as many as they take. -/
theorem length_of_arityCause? {want got : Nat} {callee : Bytes}
    (h : State.arityCause? false false want got callee = none) : got = want := by
  unfold State.arityCause? at h
  split at h
  next => cases h
  next hfew =>
    split at h
    next => cases h
    next hmany =>
      simp only [and_true] at hfew hmany
      exact Nat.le_antisymm (Nat.le_of_not_lt hmany) (Nat.le_of_not_lt hfew)

theorem continues_callNative {range : Range} {ref : Nat} {args : List Value}
    (hs : Sound W R s.store) (href : s.store.Knows (.native ref))
    (hargs : ∀ v ∈ args, s.store.Knows v)
    (hstack : Stack W R s.store .value s.env s.frames) :
    Continues W R s.store (s.callNative range ref args) := by
  have hlt : ref < s.store.natives.size := href
  have hnative := Array.getElem?_eq_getElem hlt
  have hknown := hs.natives ref _ hnative
  unfold State.callNative
  rw [hnative]
  generalize s.store.natives[ref] = native at hknown
  simp only
  split
  next => exact continues_fail hs hstack
  next harity =>
    split
    next =>
      have hext := extends_tick s.store
      have hW := World.Agrees.refl W s.store.envs.size
      have hknown : s.store.tick.Knows (.number s.store.clock.now) := trivial
      exact (continues_proceed (s := { s with store := s.store.tick }) hs.tick
        (.value hknown (hstack.mono hext hW))).trans hW hext
    next hclock =>
      split
      next hpcall =>
        cases args with
        | nil =>
            -- Only `pcall` gets here, and it takes an argument.
            have hlength := length_of_arityCause? harity
            rcases List.mem_cons.mp hknown with rfl | hknown
            · exact absurd rfl hclock
            · obtain rfl := List.mem_singleton.mp hknown
              cases hlength
        | cons callee rest =>
            simp only
            split
            next =>
              exact continues_await hs
                (.call (hargs callee List.mem_cons_self) nofun (.push .protect hstack))
            next => exact continues_fail hs hstack
      next hpcall =>
        rcases List.mem_cons.mp hknown with rfl | hknown
        · exact absurd rfl hclock
        · exact absurd (List.mem_singleton.mp hknown ▸ rfl) hpcall

theorem continues_callValue {range : Range} {callee : Value} {args : List Value}
    (hs : Sound W R s.store) (hcallee : s.store.Knows callee)
    (hargs : ∀ v ∈ args, s.store.Knows v)
    (hstack : Stack W R s.store .value s.env s.frames) :
    Continues W R s.store (s.callValue set range callee args) := by
  cases callee with
  | function ref =>
      have hlt : ref < s.store.functions.size := hcallee
      have hclosure := Array.getElem?_eq_getElem hlt
      unfold State.callValue
      simp only [hclosure]
      exact continues_enter hs (hs.functions ref _ hclosure) hargs hstack
  | native ref => exact continues_callNative hs hcallee hargs hstack
  | classRef cls => exact continues_instantiate hs hargs hstack
  | _ => exact continues_fail hs hstack

/-! ## Declarations -/

/-- Every method of a new class is a closure of one of the declarations. -/
theorem own?_collectMethods {name n : Bytes} {superclass : Option Nat} {env : Nat}
    {fs : List Function} {c : Closure}
    (h : Class.own? ⟨name, superclass, (State.collectMethods env fs none Bindings.empty).1,
      (State.collectMethods env fs none Bindings.empty).2⟩ n = some c) :
    ∃ f ∈ fs, c = ⟨f, env⟩ := by
  have hcollect : ∀ (fs gs : List Function) init methods, (∀ g ∈ gs, g ∈ fs) →
      (∀ c, init = some c → ∃ f ∈ fs, c = ⟨f, env⟩) →
      (∀ n c, methods.get? n = some c → ∃ f ∈ fs, c = ⟨f, env⟩) →
      (∀ c, (State.collectMethods env gs init methods).1 = some c → ∃ f ∈ fs, c = ⟨f, env⟩) ∧
      ∀ n c, (State.collectMethods env gs init methods).2.get? n = some c →
        ∃ f ∈ fs, c = ⟨f, env⟩ := by
    intro fs gs
    induction gs with
    | nil => exact fun init methods _ hinit hmethods => ⟨hinit, hmethods⟩
    | cons g gs ih =>
        intro init methods hgs hinit hmethods
        have hg := hgs g List.mem_cons_self
        replace hgs := fun g' hg' => hgs g' (List.mem_cons_of_mem _ hg')
        rw [State.collectMethods]
        split
        next =>
          refine ih _ _ hgs ?_ hmethods
          rintro c ⟨⟩
          exact ⟨g, hg, rfl⟩
        next =>
          refine ih _ _ hgs hinit ?_
          intro n c hc
          rcases Bindings.get?_set_cases hc with ⟨_, rfl⟩ | hc
          · exact ⟨g, hg, rfl⟩
          · exact hmethods n c hc
  obtain ⟨hinit, hmethods⟩ := hcollect fs fs none Bindings.empty (fun _ h => h) nofun nofun
  unfold Class.own? at h
  split at h
  next =>
    rcases Option.or_eq_some_iff.mp h with hc | ⟨_, hc⟩
    · exact hinit c hc
    · exact hmethods n c hc
  next => exact hmethods n c h

theorem mem_methodSites {Γ : List Layer} {fs : List Function} {f : Function} {site : Site}
    (hf : f ∈ fs) (h : site ∈ functionSites Γ f) : site ∈ methodSites Γ fs := by
  induction fs with
  | nil => cases hf
  | cons g fs ih =>
      rcases List.mem_cons.mp hf with rfl | hf
      · exact List.mem_append_left _ h
      · exact List.mem_append_right _ (ih hf)

theorem continues_declareClass {base : Nat} {Γ : List Layer} {name : Bytes}
    {superclass : Option Superclass} {parent : Option Nat} {methods : List Function}
    (hs : Sound W R s.store) (hchain : Chain W s.store base Γ s.env)
    (hsites : ∀ site ∈ methodSites (receiverLayer :: outerLayers superclass Γ) methods,
      R base site)
    (hplain : Plain name) (hallows : (W s.env).Allows name)
    (hparent : superclass.isSome = parent.isSome)
    (hknown : ∀ cls, parent = some cls → cls < s.store.classes.size)
    (hstack : Stack W R s.store (.done [name]) s.env s.frames) :
    Continues W R s.store (s.declareClass name parent methods) := by
  -- A store in which the methods can be bound, whatever becomes of the class.
  have hdeclare : ∀ {W' : World} {st : Store} {env : Nat} {Δ : List Layer},
      W.Agrees W' s.store.envs.size → s.store.Extends st → Sound W' R st →
      Chain W' st base Δ env →
      (∀ site ∈ methodSites (receiverLayer :: Δ) methods, R base site) →
      ∀ cls, (∀ n c, cls.own? n = some c → ∃ f ∈ methods, c = ⟨f, env⟩) →
      Continues W R s.store (.next { s with
        control := .done
        store := (st.newClass cls).2.define s.env name (.classRef (st.newClass cls).1) }) := by
    intro W' st env Δ hW hext hst hchain' hsites cls hown
    have hbindable : ∀ n c, cls.own? n = some c → Bindable W' R st c := by
      intro n c hc
      obtain ⟨f, hf, rfl⟩ := hown n c hc
      exact ⟨base, Δ, hchain', fun site hmem => hsites site (mem_methodSites hf hmem)⟩
    have hlt : s.env < (st.newClass cls).2.envs.size :=
      Nat.lt_of_lt_of_le (hs.lt_of_chain hchain) hext.size
    have hext' : s.store.Extends
        ((st.newClass cls).2.define s.env name (.classRef (st.newClass cls).1)) :=
      (hext.trans (extends_newClass cls)).trans (extends_define hlt)
    refine ⟨W', hW, hext', ?_, .done ?_ (hstack.mono hext' hW)⟩
    · refine (hst.newClass hbindable).define hlt (knows_newClass cls) hplain ?_
      rw [hW s.env (hs.lt_of_chain hchain)]
      exact hallows
    · exact fun n hn => isSome_define hlt hn
  unfold State.declareClass
  cases parent with
  | none =>
      cases superclass with
      | some _ => cases hparent
      | none =>
          exact hdeclare (World.Agrees.refl _ _) (Extends.refl _) hs hchain hsites _
            fun n c => own?_collectMethods
  | some cls =>
      cases superclass with
      | none => cases hparent
      | some _ =>
          exact hdeclare (W.agrees_extend _ _) (extends_newEnv _ _)
            (hs.newEnv (hs.lt_of_chain hchain) (furnished_superclass (hknown cls rfl)))
            (hchain.newEnv (fun n => usable_singleton) nofun) hsites _
            fun n c => own?_collectMethods

/-- A name that is declared where the code runs, with the store in which it is bound. -/
theorem continues_define {base : Nat} {Γ : List Layer} {name : Bytes} {v : Value}
    (hs : Sound W R s.store) (hchain : Chain W s.store base Γ s.env) (hroom : Room Γ [name])
    (hplain : Plain name) (hv : s.store.Knows v) :
    s.store.Extends (s.define name v).store ∧ Sound W R (s.define name v).store ∧
      Chain W (s.define name v).store base (bind name Γ) s.env ∧
      ∀ n ∈ [name], ((s.define name v).store.at? s.env n).isSome := by
  have hlt := hs.lt_of_chain hchain
  have hext : s.store.Extends (s.define name v).store := extends_define hlt
  have hbound : ∀ n ∈ [name], ((s.define name v).store.at? s.env n).isSome :=
    fun n hn => isSome_define hlt hn
  refine ⟨hext, ?_, ?_, hbound⟩
  · exact hs.define hlt hv hplain (hchain.allows hs.root hroom List.mem_cons_self)
  · exact (hchain.mono hext (World.Agrees.refl _ _)).bindAll hbound

theorem continues_declare {name : Name} {v : Value}
    (hR : ∀ base site, R base site → site.Settled set.depths) (hs : Sound W R s.store)
    (h : Fits W R s.store s.env [name.text] fun _ => [.declare name.text])
    (hv : s.store.Knows v) (hstack : Stack W R s.store (.done [name.text]) s.env s.frames) :
    Continues W R s.store ((s.define name.text v).proceed .done) := by
  obtain ⟨base, Γ, hchain, hroom, hsites⟩ := h
  obtain ⟨hext, hsound, _, hbound⟩ := continues_define hs hchain hroom
    (hR base _ (hsites _ List.mem_cons_self)) hv
  exact continues_next hext hsound
    (.done hbound (hstack.mono hext (World.Agrees.refl _ _)))

theorem continues_execClass {name : Name} {superclass : Option Superclass}
    {methods : List Function} {span : Range}
    (hR : ∀ base site, R base site → site.Settled set.depths) (hs : Sound W R s.store)
    (h : Executes W R s.store s.env (.classDecl name superclass methods span))
    (hstack : Stack W R s.store (.done [name.text]) s.env s.frames) :
    Continues W R s.store (s.execClass set name superclass methods) := by
  obtain ⟨base, Γ, hchain, hroom, hsites⟩ := h
  have hplain : Plain name.text := hR base _ (hsites _ List.mem_cons_self)
  replace hsites := fun site hmem => hsites site (List.mem_cons_of_mem _ hmem)
  have hmethods := fun site hmem => hsites site (List.mem_append_right _ hmem)
  obtain ⟨hext, hsound, hinner, _⟩ := continues_define (v := .nil) hs hchain hroom hplain trivial
  have hallows := hchain.allows hs.root hroom List.mem_cons_self
  have hW := World.Agrees.refl W s.store.envs.size
  have hstack' := hstack.mono hext hW
  unfold State.execClass
  simp only
  cases superclass with
  | none =>
      exact (continues_declareClass (s := s.define name.text .nil) hsound hinner hmethods hplain
        hallows rfl (fun _ h => by cases h) hstack').trans hW hext
  | some parent =>
      obtain ⟨hdepth, _⟩ := hR base _ (hsites _ (List.mem_append_left _ List.mem_cons_self))
      simp only
      rcases owner_eq_ok (s := s.define name.text .nil) hinner hdepth with
        ⟨_, hlookup⟩ | ⟨owner, v, _, hlookup, hv⟩
      · rw [hlookup]
        exact (continues_fail hsound hstack').trans hW hext
      · rw [hlookup]
        cases v with
        | classRef cls =>
            exact (continues_declareClass (s := s.define name.text .nil) hsound hinner hmethods
              hplain hallows rfl (fun cls' heq => Option.some.inj heq ▸ hsound.values _ _ _ hv)
              hstack').trans hW hext
        | _ => exact (continues_fail hsound hstack').trans hW hext

/-- A name set twice has the later value. -/
theorem Store.define_define (st : Store) (env : Nat) (name : Bytes) (v w : Value) :
    (st.define env name v).define env name w = st.define env name w := by
  have hput : ∀ entries : List (Bytes × Value),
      Bindings.put name w (Bindings.put name v entries) = Bindings.put name w entries := by
    intro entries
    induction entries with
    | nil => simp [Bindings.put]
    | cons entry rest ih =>
        by_cases heq : entry.1 = name <;> simp [Bindings.put, heq, ih]
  unfold Store.define
  congr 1
  apply Array.ext_getElem?
  intro i
  simp only [Array.getElem?_modify]
  split
  next =>
    cases st.envs[i]? with
    | none => rfl
    | some e => simp [Bindings.set, hput]
  next => rfl

theorem continues_function {decl : Function}
    (hR : ∀ base site, R base site → site.Settled set.depths) (hs : Sound W R s.store)
    (h : Executes W R s.store s.env (.function decl))
    (hstack : Stack W R s.store (.done [decl.name.text]) s.env s.frames) :
    Continues W R s.store (s.exec set (.function decl)) := by
  obtain ⟨base, Γ, hchain, hroom, hsites⟩ := h
  have hplain : Plain decl.name.text := hR base _ (hsites _ List.mem_cons_self)
  replace hsites := fun site hmem => hsites site (List.mem_cons_of_mem _ hmem)
  have hkind : decl.kind ≠ .initializer := hR base _ (hsites _ List.mem_cons_self)
  -- The function may refer to itself, so its name is bound to something first.
  obtain ⟨hext, hsound, hinner, _⟩ := continues_define (v := .nil) hs hchain hroom hplain trivial
  have hrunnable : Runnable W R (s.define decl.name.text .nil).store ⟨decl, s.env⟩ :=
    ⟨base, _, hinner, fun site hmem => hsites site (List.mem_cons_of_mem _ hmem),
      fun hinit => absurd hinit hkind⟩
  have hmade := hsound.newFunction hrunnable
  have hext' := hext.trans (extends_newFunction ⟨decl, s.env⟩)
  have hallows := hchain.allows hs.root hroom List.mem_cons_self
  have hlt := Nat.lt_of_lt_of_le (hs.lt_of_chain hchain) hext'.size
  have hdefined : Sound W R ((s.store.newFunction ⟨decl, s.env⟩).2.define s.env
      decl.name.text (.function s.store.functions.size)) := by
    rw [← Store.define_define _ s.env decl.name.text .nil]
    exact hmade.define hlt (knows_newFunction _) hplain hallows
  have hlt' : s.env < (s.store.newFunction ⟨decl, s.env⟩).2.envs.size := hs.lt_of_chain hchain
  have hfinal : s.store.Extends ((s.store.newFunction ⟨decl, s.env⟩).2.define s.env
      decl.name.text (.function s.store.functions.size)) :=
    (extends_newFunction _).trans (extends_define hlt')
  exact continues_next hfinal hdefined
    (.done (fun n hn => isSome_define hlt' hn) (hstack.mono hfinal (World.Agrees.refl _ _)))

/-! ## Expressions and statements -/

theorem continues_eval {e : Expr} (hR : ∀ base site, R base site → site.Settled set.depths)
    (hs : Sound W R s.store) (h : Evaluates W R s.store s.env e)
    (hstack : Stack W R s.store .value s.env s.frames) :
    Continues W R s.store (s.eval set e) := by
  cases e with
  | literal value span =>
      refine continues_proceed hs (.value ?_ hstack)
      cases value <;> trivial
  | var id name => exact continues_read hR hs h hstack
  | assign id name value span =>
      exact continues_await hs (.eval (h.expr fun _ _ => List.mem_append_left _)
        (.push (.assign (h.expr fun _ _ => List.mem_append_right _)) hstack))
  | unary op operand span => exact continues_await hs (.eval h (.push .unary hstack))
  | binary op left right span =>
      exact continues_await hs (.eval (h.expr fun _ _ => List.mem_append_left _)
        (.push (.left (h.expr fun _ _ => List.mem_append_right _)) hstack))
  | logical op left right span =>
      exact continues_await hs (.eval (h.expr fun _ _ => List.mem_append_left _)
        (.push (.logical (h.expr fun _ _ => List.mem_append_right _)) hstack))
  | group inner span => exact continues_proceed hs (.eval h hstack)
  | call callee args span =>
      exact continues_await hs (.eval (h.expr fun _ _ => List.mem_append_left _)
        (.push (.callee (h.expr fun _ _ => List.mem_append_right _)) hstack))
  | get object name span => exact continues_await hs (.eval h (.push .get hstack))
  | set object name value span =>
      exact continues_await hs (.eval (h.expr fun _ _ => List.mem_append_right _)
        (.push (.target (h.expr fun _ _ => List.mem_append_left _)) hstack))
  | this id keyword => exact continues_this hR hs h hstack
  | super id thisId keyword method span => exact continues_super hR hs h hstack

theorem continues_block {body : List Stmt} {span : Range} (hs : Sound W R s.store)
    (h : Executes W R s.store s.env (.block body span))
    (hstack : Stack W R s.store (.done []) s.env s.frames) :
    Continues W R s.store (s.exec set (.block body span)) := by
  obtain ⟨base, Γ, hchain, _, hsites⟩ := h
  have hext : s.store.Extends (s.store.newEnv (some s.env) Bindings.empty).2 :=
    extends_newEnv _ _
  have hW := W.agrees_extend s.store.envs.size (blockLayer body).origin
  have hfurnished : s.store.Furnished (blockLayer body).origin Bindings.empty :=
    ⟨nofun, nofun, nofun, nofun⟩
  refine ⟨_, hW, hext, hs.newEnv (hs.lt_of_chain hchain) hfurnished, .run
    ⟨base, blockLayer body :: Γ, hchain.newEnv nofun nofun, fun _ hn => hn, ?_⟩
    (.push .scope (hstack.mono hext hW))⟩
  exact fun site hmem => hsites site (List.mem_cons_of_mem _ hmem)

/-- The branches of a statement declare nothing. -/
theorem Executes.branch {stmt : Stmt} {ns : List Bytes} {sites : List Layer → List Site}
    (hR : ∀ base site, R base site → site.Settled set.depths)
    (h : Fits W R s.store s.env ns sites)
    (hbranch : ∀ Γ, .branch stmt ∈ sites Γ)
    (hsites : ∀ Γ, ∀ site ∈ stmtSites Γ stmt, site ∈ sites Γ) :
    Executes W R s.store s.env stmt ∧ declared stmt = [] := by
  obtain ⟨base, Γ, hchain, hroom, hall⟩ := h
  have hnone : declared stmt = [] := hR base _ (hall _ (hbranch Γ))
  refine ⟨⟨base, Γ, hchain, ?_, fun site hmem => hall site (hsites Γ site hmem)⟩, hnone⟩
  rw [hnone]
  exact hroom.mono nofun

theorem continues_exec {stmt : Stmt} (hR : ∀ base site, R base site → site.Settled set.depths)
    (hs : Sound W R s.store) (h : Executes W R s.store s.env stmt)
    (hstack : Stack W R s.store (.done (declared stmt)) s.env s.frames) :
    Continues W R s.store (s.exec set stmt) := by
  cases stmt with
  | expr value span => exact continues_await hs (.eval h (.push .discard hstack))
  | print value span => exact continues_await hs (.eval h (.push .print hstack))
  | assert value span => exact continues_await hs (.eval h (.push .assert hstack))
  | assertEqual left right span =>
      exact continues_await hs (.eval (h.expr fun _ _ => List.mem_append_left _)
        (.push (.assertLeft (h.expr fun _ _ => List.mem_append_right _)) hstack))
  | var name init span =>
      have hdeclare : Fits W R s.store s.env [name.text] fun _ => [.declare name.text] :=
        h.sub (fun _ hn => hn) fun _ site hmem => List.mem_singleton.mp hmem ▸ List.mem_cons_self
      cases init with
      | none => exact continues_declare hR hs hdeclare trivial hstack
      | some init =>
          obtain ⟨base, Γ, hchain, hroom, hsites⟩ := h
          refine continues_await hs (.eval ?_ (.push (.declare hdeclare) hstack))
          refine ⟨base, mark name.text false Γ, hchain.mark_false _, ?_, ?_⟩
          · cases Γ with
            | nil => trivial
            | cons layer Γ => exact nofun
          · exact fun site hmem => hsites site (List.mem_cons_of_mem _ hmem)
  | block body span => exact continues_block hs h hstack
  | cond test thenBranch elseBranch span =>
      have htest : Evaluates W R s.store s.env test := by
        cases elseBranch with
        | none =>
            exact h.expr fun _ _ hmem => List.mem_cons_of_mem _ (List.mem_append_left _ hmem)
        | some elseBranch =>
            exact h.expr fun _ _ hmem =>
              List.mem_cons_of_mem _ (List.mem_cons_of_mem _ (List.mem_append_left _ hmem))
      refine continues_await hs (.eval htest (.push (.branch ?_) hstack))
      intro stmt hmem
      cases elseBranch with
      | none =>
          obtain rfl := List.mem_singleton.mp hmem
          exact Executes.branch hR h (fun _ => List.mem_cons_self) fun _ _ hmem =>
            List.mem_cons_of_mem _ (List.mem_append_right _ hmem)
      | some elseBranch =>
          have hsites : ∀ {Γ site}, site ∈ stmtSites Γ thenBranch ++ stmtSites Γ elseBranch →
              site ∈ stmtSites Γ (.cond test thenBranch (some elseBranch) span) := fun hmem =>
            List.mem_cons_of_mem _ (List.mem_cons_of_mem _ (List.mem_append_right _ hmem))
          rcases List.mem_cons.mp hmem with rfl | hmem
          · exact Executes.branch hR h (fun _ => List.mem_cons_self) fun _ _ hmem =>
              hsites (List.mem_append_left _ hmem)
          · obtain rfl := List.mem_singleton.mp hmem
            exact Executes.branch hR h (fun _ => List.mem_cons_of_mem _ List.mem_cons_self)
              fun _ _ hmem => hsites (List.mem_append_right _ hmem)
  | loop test body span =>
      obtain ⟨hbody, hnone⟩ : Executes W R s.store s.env body ∧ declared body = [] :=
        Executes.branch hR h (fun _ => List.mem_cons_self) fun _ _ hmem =>
          List.mem_cons_of_mem _ (List.mem_append_right _ hmem)
      have htest : Evaluates W R s.store s.env test := h.expr fun _ _ hmem =>
        List.mem_cons_of_mem _ (List.mem_append_left _ hmem)
      exact continues_await hs (.eval htest (.push (.test htest hbody hnone) hstack))
  | ret keyword value span =>
      cases value with
      | none => exact continues_proceed hs (.returning trivial hstack)
      | some value => exact continues_await hs (.eval h (.push .giveBack hstack))
  | function decl => exact continues_function hR hs h hstack
  | classDecl name superclass methods span => exact continues_execClass hR hs h hstack

/-- Once the names are bound nothing is owed any more. -/
theorem Resumes.pay {env : Nat} {owed : List Bytes} {rest : List Stmt}
    (h : Resumes W R st env owed rest) (howed : ∀ n ∈ owed, (st.at? env n).isSome) :
    Resumes W R st env [] rest := by
  obtain ⟨base, Γ, hchain, hroom, hsites⟩ := h
  exact ⟨base, bindAll owed Γ, hchain.bindAll howed, hroom.bindAll owed, hsites⟩

theorem continues_execAll {body : List Stmt} (hs : Sound W R s.store)
    (h : Resumes W R s.store s.env [] body)
    (hstack : Stack W R s.store (.done []) s.env s.frames) :
    Continues W R s.store (s.execAll body) := by
  cases body with
  | nil => exact continues_done hs hstack
  | cons stmt rest =>
      refine continues_await hs (.exec ?_ (.push (.sequence ?_) hstack))
      · exact h.sub (fun _ => List.mem_append_left _) fun _ _ => List.mem_append_left _
      · exact h.sub (fun _ => List.mem_append_right _) fun _ _ => List.mem_append_right _

/-! ## Outcomes -/

theorem continues_nextArgument {callee : Value} {before : List Value} {span : Range}
    {rest : List Expr} (hs : Sound W R s.store) (hcallee : s.store.Knows callee)
    (hbefore : ∀ v ∈ before, s.store.Knows v)
    (h : Fits W R s.store s.env [] fun Γ => argSites Γ rest)
    (hstack : Stack W R s.store .value s.env s.frames) :
    Continues W R s.store (s.nextArgument callee before span rest) := by
  cases rest with
  | nil =>
      exact continues_proceed hs
        (.call hcallee (fun v hv => hbefore v (List.mem_reverse.mp hv)) hstack)
  | cons e rest =>
      exact continues_await hs (.eval (h.expr fun _ _ => List.mem_append_left _)
        (.push (.argument hcallee hbefore (h.expr fun _ _ => List.mem_append_right _)) hstack))

theorem continues_receive {v : Value} {frame : Frame} {b : Awaited} {env : Nat}
    (hR : ∀ base site, R base site → site.Settled set.depths) (hs : Sound W R s.store)
    (hv : s.store.Knows v) (hlink : Link W R s.store .value s.env frame b env)
    (hstack : Stack W R s.store b env s.frames) :
    Continues W R s.store (s.receive set v frame) := by
  cases hlink with
  | assign h => exact continues_write hR hs h hv hstack
  | unary => exact continues_settle hs (fun _ => knows_operateUnary) hstack
  | left h => exact continues_await hs (.eval h (.push .right hstack))
  | right => exact continues_settle hs (fun _ => knows_operate) hstack
  | @logical _ op right h =>
      cases op with
      | and =>
          rw [State.receive]
          split
          · exact continues_proceed hs (.eval h hstack)
          · exact continues_proceed hs (.value hv hstack)
      | or =>
          rw [State.receive]
          split
          · exact continues_proceed hs (.value hv hstack)
          · exact continues_proceed hs (.eval h hstack)
  | callee h => exact continues_nextArgument hs hv nofun h hstack
  | argument hcallee hbefore h =>
      refine continues_nextArgument hs hcallee ?_ h hstack
      intro w hw
      rcases List.mem_cons.mp hw with rfl | hw
      · exact hv
      · exact hbefore w hw
  | get => exact continues_getProperty hs hv hstack
  | target h =>
      cases v with
      | objectRef object => exact continues_await hs (.eval h (.push .field hstack))
      | _ => exact continues_fail hs hstack
  | @field _ object name =>
      have hext : s.store.Extends (s.store.setField object name.text v) := extends_setField ..
      exact continues_next hext (hs.setField object name.text hv)
        (.value (hv.mono hext) (hstack.mono hext (World.Agrees.refl _ _)))
  | discard => exact continues_done hs hstack
  | print =>
      rw [State.receive]
      split
      · exact continues_done hs hstack
      · exact continues_done (s := s.write _) hs hstack
  | assert =>
      rw [State.receive]
      split
      · exact continues_done hs hstack
      · exact continues_fail hs hstack
  | assertLeft h => exact continues_await hs (.eval h (.push .assertRight hstack))
  | assertRight =>
      rw [State.receive]
      split
      · exact continues_done hs hstack
      · exact continues_fail hs hstack
  | @branch _ thenBranch elseBranch h =>
      have hexec : ∀ stmt ∈ thenBranch :: elseBranch.toList,
          Continues W R s.store (s.proceed (.exec stmt)) := by
        intro stmt hmem
        obtain ⟨hstmt, hnone⟩ := h stmt hmem
        exact continues_proceed hs (.exec hstmt (hnone ▸ hstack))
      rw [State.receive.eq_def]
      simp only
      split
      · exact hexec thenBranch List.mem_cons_self
      · cases elseBranch with
        | none => exact continues_done hs hstack
        | some stmt => exact hexec stmt (List.mem_cons_of_mem _ List.mem_cons_self)
  | test htest hbody hnone =>
      rw [State.receive]
      split
      · refine continues_await hs (.exec hbody ?_)
        rw [hnone]
        exact .push (.body htest hbody hnone) hstack
      · exact continues_done hs hstack
  | declare h => exact continues_declare hR hs h hv hstack
  | giveBack => exact continues_proceed hs (.returning hv hstack)
  | construct h => exact continues_proceed hs (.value h hstack)
  | protect => exact continues_proceed hs (.value trivial hstack)

theorem continues_complete {frame : Frame} {owed : List Bytes} {b : Awaited} {env : Nat}
    (hs : Sound W R s.store) (howed : ∀ n ∈ owed, (s.store.at? s.env n).isSome)
    (hlink : Link W R s.store (.done owed) s.env frame b env)
    (hstack : Stack W R s.store b env s.frames) :
    Continues W R s.store (s.complete frame) := by
  cases hlink with
  | body htest hbody hnone =>
      exact continues_await hs (.eval htest (.push (.test htest hbody hnone) hstack))
  | sequence h => exact continues_proceed hs (.run (h.pay howed) hstack)
  | scope => exact continues_done (s := { s with env := env }) hs hstack
  | activation h => exact continues_leave hs h trivial hstack

/-- The end of a statement at the top of the program. -/
theorem continues_program {rest : List Stmt} (hs : Sound W R s.store)
    (h : Resumes W R s.store s.env [] rest) (hframes : s.frames = []) :
    Continues W R s.store (s.complete (.program rest)) := by
  cases rest with
  | nil =>
      refine continues_proceed hs ?_
      rw [hframes]
      exact .finished
  | cons stmt rest =>
      refine continues_await hs (.exec ?_ ?_)
      · exact h.sub (fun _ => List.mem_append_left _) fun _ _ => List.mem_append_left _
      · rw [hframes]
        exact .program
          (h.sub (fun _ => List.mem_append_right _) fun _ _ => List.mem_append_right _)

theorem continues_unwind {v : Value} {frame : Frame} {b : Awaited} {env : Nat}
    (hs : Sound W R s.store) (hv : s.store.Knows v)
    (hlink : Link W R s.store (.done []) s.env frame b env)
    (hstack : Stack W R s.store b env s.frames) :
    Continues W R s.store (s.unwind v frame) := by
  cases hlink with
  | body => exact continues_proceed hs (.returning hv hstack)
  | sequence => exact continues_proceed hs (.returning hv hstack)
  | scope => exact continues_proceed (s := { s with env := env }) hs (.returning hv hstack)
  | activation h => exact continues_leave hs h hv hstack

theorem continues_raise {e : RuntimeError} {frame : Frame} {a b : Awaited} {env : Nat}
    (hs : Sound W R s.store) (hlink : Link W R s.store a s.env frame b env)
    (hstack : Stack W R s.store b env s.frames) :
    Continues W R s.store (s.raise set e frame) := by
  cases hlink with
  | protect =>
      have hpass : ∀ record, Continues W R s.store
          ((s.log set record).proceed (.value (.bool false))) := by
        intro record
        refine ⟨W, World.Agrees.refl _ _, ?_, ?_, ?_⟩
        · exact log_store s set record ▸ Extends.refl _
        · exact log_store s set record ▸ hs
        · refine .value trivial ?_
          simpa only [log_store, log_env, log_frames] using hstack
      exact hpass _
  | scope => exact continues_proceed (s := { s with env := env }) hs (.failing hstack)
  | activation =>
      exact continues_proceed (s := { s with env := env, depth := s.depth - 1 }) hs
        (.failing hstack)
  | _ => exact continues_proceed hs (.failing hstack)

/-! ## Steps and runs -/

/-- A step of a valid state leads to a valid state or to an end that is no defect. -/
theorem continues_advance (hR : ∀ base site, R base site → site.Settled set.depths)
    (h : Valid W R s) : Continues W R s.store (advance set s) := by
  obtain ⟨control, frames, env, depth, store, trace⟩ := s
  obtain ⟨hs, hpoised⟩ := h
  cases hpoised with
  | eval h hstack => exact continues_eval hR hs h hstack
  | exec h hstack => exact continues_exec hR hs h hstack
  | run h hstack => exact continues_execAll hs h hstack
  | call hcallee hargs hstack => exact continues_callValue hs hcallee hargs hstack
  | value hv hstack =>
      cases hstack with
      | @push _ _ frame b env' frames hlink hrest =>
          exact continues_receive (s := ⟨_, frames, env, depth, store, trace⟩) hR hs hv hlink hrest
  | done howed hstack =>
      cases hstack with
      | program h =>
          exact continues_program (s := ⟨_, [], env, depth, store, trace⟩) hs (h.pay howed) rfl
      | @push _ _ frame b env' frames hlink hrest =>
          exact continues_complete (s := ⟨_, frames, env, depth, store, trace⟩) hs howed hlink
            hrest
  | finished =>
      exact ⟨nofun, W, World.Agrees.refl _ _, Extends.refl _, hs⟩
  | returning hv hstack =>
      cases hstack with
      | program h =>
          refine continues_done (s := ⟨_, [.program _], env, depth, store, trace⟩) hs
            (.program h)
      | @push _ _ frame b env' frames hlink hrest =>
          exact continues_unwind (s := ⟨_, frames, env, depth, store, trace⟩) hs hv hlink hrest
  | failing hstack =>
      cases hstack with
      | program h =>
          exact continues_proceed (s := ⟨_, [], env, depth, store, trace⟩) hs .failed
      | @push _ _ frame b env' frames hlink hrest =>
          exact continues_raise (s := ⟨_, frames, env, depth, store, trace⟩) hs hlink hrest
  | failed => exact ⟨nofun, W, World.Agrees.refl _ _, Extends.refl _, hs⟩

/-- However long it goes on, a run from a valid state never ends with a defect, and while
it goes on its states are valid. -/
theorem run_valid (hR : ∀ base site, R base site → site.Settled set.depths) (fuel : Nat)
    (h : Valid W R s) :
    (∀ d, (run set fuel s).1 ≠ some (.broken d)) ∧
      ∃ W', W.Agrees W' s.store.envs.size ∧ s.store.Extends (run set fuel s).2.store ∧
        Sound W' R (run set fuel s).2.store ∧
        ((run set fuel s).1 = none → Valid W' R (run set fuel s).2) := by
  induction fuel generalizing W s with
  | zero =>
      exact ⟨nofun, W, World.Agrees.refl _ _, Extends.refl _, h.store, fun _ => h⟩
  | succ fuel ih =>
      have hstep := continues_advance hR h
      rw [run]
      cases hadvance : advance set s with
      | next s' =>
          rw [hadvance] at hstep
          obtain ⟨W', hW, hext, hvalid⟩ := hstep
          obtain ⟨hending, W'', hW', hext', hrest⟩ := ih hvalid
          exact ⟨hending, W'', hW.trans hW' hext.size, hext.trans hext', hrest⟩
      | halt ending s' =>
          rw [hadvance] at hstep
          obtain ⟨hending, W', hW, hext, hsound⟩ := hstep
          exact ⟨fun d heq => hending d (Option.some.inj heq), W', hW, hext, hsound, nofun⟩

end LoxMachine
