import LoxMachine.Proofs.Machine.Dispatch
import LoxMachine.Proofs.Machine.Invocations
import LoxMachine.Proofs.Store.Keywords

/-!
# Receivers

No step touches an environment that was made for `this` or for `super`: names are bound where
code runs, and an assignment goes where its name is bound already.  So when an initializer
comes to its end, it finds the receiver that it was bound to.
-/

namespace LoxMachine

open Scope Store

/-- Environments of keywords hold them alone, and code runs in other environments. -/
structure State.Guarded (s : State) : Prop where
  store : s.store.Reserved
  code : s.Suits s.store.Keyless fun _ _ => True

variable {D : List Function → Prop} {W : World} {R : Sites} {set : Setting} {s t : State}
  {st st' : Store} {c : Closure} {waiting : List Frame}

/-- An assignment goes to a variable that is bound. -/
theorem State.at?_of_owner {id owner : Nat} {name : Bytes}
    (h : s.owner set id name = .ok (some owner)) : ∃ v, s.store.at? owner name = some v := by
  unfold State.owner at h
  split at h
  next depth _ =>
    cases hfound : s.store.bindingAt s.env depth name with
    | error d =>
        rw [hfound] at h
        cases h
    | ok found =>
        rw [hfound] at h
        cases h
        exact ⟨found.2, (bindingAt_eq_ok_iff.mp hfound).2⟩
  next =>
    cases hfound : s.store.nearest? s.env name with
    | none =>
        rw [hfound] at h
        cases h
    | some found =>
        rw [hfound] at h
        cases h
        exact ⟨found.2, (climb_of_search hfound).1⟩

/-! ## Steps -/

/-- The environment of a call binds no keyword. -/
theorem Store.Reserved.storeCall (h : st.Reserved)
    (hR : ∀ base site, R base site → site.Settled set.depths) {base : Nat} {Γ : List Layer}
    (hsites : ∀ site ∈ functionSites Γ c.decl, R base site) (args : List Value) :
    (State.storeCall st c args).Reserved ∧ (State.storeCall st c args).Keyless st.envs.size :=
  h.newEnv_keyless (some c.env) fun _ hn => get?_bindParams_keyword hR hsites args hn

/-- A class is declared where code runs. -/
theorem Store.Reserved.declareClass {name : Bytes} {env : Nat} {k : Class} (h : st.Reserved)
    (hname : Plain name) (henv : st.Keyless env) (v : Value) :
    ((st.newClass k).2.define env name v).Reserved := by
  have hclass : (st.newClass k).2.Reserved :=
    h.congr rfl (Nat.le_refl _) (Nat.le_of_lt (by simp [Store.newClass]))
  exact hclass.define hname (henv.mono (keeps_newClass k)) v

/-- Every step leaves the environments of keywords to themselves. -/
theorem State.Guarded.effect (h : s.Guarded) (horderly : s.Orderly D)
    (hR : ∀ base site, R base site → site.Settled set.depths) (hvalid : Valid W R s)
    (heffect : s.Effect set st') : st'.Reserved := by
  have henv := h.code.frames.here
  have hstore := h.store
  cases heffect with
  | none => exact hstore
  | @declare _ v hdeclares => exact hstore.define (hvalid.plain_declares hR hdeclares) henv v
  | @assign _ _ v _ _ hcontrol hframes howner =>
      have hname := hvalid.plain_assign hR hcontrol hframes
      obtain ⟨_, hbound⟩ := State.at?_of_owner howner
      exact hstore.define hname (hstore.keyless_of_bound hname hbound) v
  | field => exact hstore.congr rfl (Nat.le_of_eq (Array.size_modify ..).symm) (Nat.le_refl _)
  | look => exact hstore.congr rfl (Nat.le_refl _) (Nat.le_refl _)
  | block => exact (hstore.newEnv_keyless _ fun _ _ => rfl).1
  | @function decl hcontrol =>
      have hname := hvalid.plain_exec hR hcontrol decl.name.text List.mem_cons_self
      have hfunction : (s.store.newFunction ⟨decl, s.env⟩).2.Reserved :=
        hstore.congr rfl (Nat.le_refl _) (Nat.le_refl _)
      exact hfunction.define hname (henv.mono (keeps_newFunction _)) _
  | @plainClass name _ _ hcontrol =>
      have hname := hvalid.plain_exec hR hcontrol name.text List.mem_cons_self
      exact (hstore.define hname henv .nil).declareClass hname (henv.mono (keeps_define hname)) _
  | @subclass name _ _ _ ref hcontrol hparent =>
      have hname := hvalid.plain_exec hR hcontrol name.text List.mem_cons_self
      have hsuper : (s.store.define s.env name.text .nil).KeywordValue (utf8 "super")
          (.classRef ref) := .super (hvalid.knows_superclass hR hcontrol hparent)
      have hscope := ((hstore.define hname henv .nil).newEnv_keyword (some s.env) hsuper).1
      have hdefine : s.store.Keeps (s.store.define s.env name.text .nil) := keeps_define hname
      exact hscope.declareClass hname (henv.mono (hdefine.trans (keeps_newEnv _ _))) _
  | @bind c object hbinds =>
      obtain ⟨o, _, _, _, ho, _⟩ := hbinds.descends hR hvalid horderly
      have hobject := (Array.getElem?_eq_some_iff.mp ho).1
      exact (hstore.bindMethod hobject c).1.congr rfl (Nat.le_refl _) (Nat.le_refl _)
  | @call _ ref args c _ hclosure =>
      obtain ⟨base, Γ, _, hsites, _⟩ := hvalid.store.functions ref c hclosure
      exact (hstore.storeCall hR hsites args).1
  | object => exact hstore.newInstance _
  | @unstarted _ cls _ init => exact (hstore.bindInitializer cls init).1
  | @initializer _ cls args init _ hinit =>
      obtain ⟨base, Γ, _, hsites⟩ := hvalid.store.method hinit
      exact ((hstore.bindInitializer cls init).1.storeCall (c := ⟨init.decl, s.store.envs.size⟩) hR
        hsites args).1

/-- Bodies of calls run in environments of their own. -/
theorem State.Guarded.keyless_enters (h : s.Guarded)
    (hR : ∀ base site, R base site → site.Settled set.depths) (hvalid : Valid W R s) {env : Nat}
    (henters : s.Enters c env st) : st.Keyless env := by
  cases henters with
  | @function _ ref args c _ hclosure =>
      obtain ⟨base, Γ, _, hsites, _⟩ := hvalid.store.functions ref c hclosure
      exact (h.store.storeCall hR hsites args).2
  | @initializer _ cls args init _ hinit =>
      obtain ⟨base, Γ, _, hsites⟩ := hvalid.store.method hinit
      have hsize : ((s.store.newInstance cls).2.bindMethod init
          s.store.instances.size).2.envs.size = s.store.envs.size + 1 := size_newEnv ..
      rw [← hsize]
      exact ((h.store.bindInitializer cls init).1.storeCall (c := ⟨init.decl, s.store.envs.size⟩)
        hR hsites args).2

theorem State.Guarded.advance (h : s.Guarded) (horderly : s.Orderly D) (hD : Known D)
    (hR : ∀ base site, R base site → site.Settled set.depths) (hvalid : Valid W R s) :
    (LoxMachine.advance set s).state.store.Reserved ∧
      ∀ s', LoxMachine.advance set s = .next s' → s'.Guarded := by
  have hstore := h.effect horderly hR hvalid (effect_advance set s)
  have hkeep := (horderly.effect hD hR hvalid (effect_advance set s)).2
  have hcode : s.Suits (LoxMachine.advance set s).state.store.Keyless fun _ _ => True :=
    h.code.mono (fun _ henv => henv.mono hkeep) fun _ _ _ _ => trivial
  have hsuits : (LoxMachine.advance set s).Suits _ _ := hcode.advance ?hblock ?hcall
  case hblock =>
    intro body span _ heq
    rw [heq]
    exact ⟨(h.store.newEnv_keyless _ fun _ _ => rfl).2, fun _ _ => trivial⟩
  case hcall =>
    intro closure env st henters heq
    rw [heq]
    exact ⟨h.keyless_enters hR hvalid henters, fun _ _ => trivial⟩
  refine ⟨hstore, fun s' hs' => ?_⟩
  rw [hs'] at hstore hsuits
  exact ⟨hstore, hsuits⟩

/-- However long it goes on, a run leaves the environments of keywords to themselves, and what
they bind as it was. -/
theorem State.Guarded.run (hD : Known D)
    (hR : ∀ base site, R base site → site.Settled set.depths) (fuel : Nat)
    (hvalid : Valid W R s) (horderly : s.Orderly D) (h : s.Guarded) :
    (LoxMachine.run set fuel s).2.store.Reserved ∧
      s.store.Keeps (LoxMachine.run set fuel s).2.store ∧
      ((LoxMachine.run set fuel s).1 = none → (LoxMachine.run set fuel s).2.Guarded) := by
  induction fuel generalizing W s with
  | zero => exact ⟨h.store, keeps_refl _, fun _ => h⟩
  | succ fuel ih =>
      obtain ⟨hstore, hnext⟩ := h.advance horderly hD hR hvalid
      have hkeep := (horderly.effect hD hR hvalid (effect_advance set s)).2
      have horderly' := (horderly.advance hD hR hvalid).2
      have hcontinues := continues_advance hR hvalid
      rw [LoxMachine.run]
      cases hadvance : LoxMachine.advance set s with
      | next s' =>
          rw [hadvance] at hcontinues hkeep
          obtain ⟨W', _, _, hvalid'⟩ := hcontinues
          obtain ⟨hlast, hkept, hgoes⟩ := ih hvalid' (horderly' s' hadvance) (hnext s' hadvance)
          exact ⟨hlast, hkeep.trans hkept, hgoes⟩
      | halt ending s' =>
          rw [hadvance] at hstore hkeep
          exact ⟨hstore, hkeep, fun hnone => absurd hnone (Option.some_ne_none ending)⟩

/-! ## Making the environments -/

/-- The machine is about to make an environment for a keyword: it binds a method or the
initializer of a new instance, or it declares a class with a superclass. -/
inductive State.Makes (set : Setting) (s : State) : Bytes → Value → Prop where
  | property {object rest o} {name : Name} {method : Closure}
      (hcontrol : s.control = .value (.objectRef object)) (hframes : s.frames = .get name :: rest)
      (hobject : s.store.instances[object]? = some o) (hfield : o.fields.get? name.text = none)
      (hmethod : s.store.method? o.cls name.text = some method) :
      Makes set s (utf8 "this") (.objectRef object)
  | above {id thisId keyword span depth thisDepth cls object} {name : Name} {method : Closure}
      (hcontrol : s.control = .eval (.super id thisId keyword name span))
      (hdepth : set.depths.depth? id = some depth)
      (hthisDepth : set.depths.depth? thisId = some thisDepth)
      (hclass : s.store.getAt s.env depth (utf8 "super") = .ok (.classRef cls))
      (hthis : s.store.getAt s.env thisDepth (utf8 "this") = .ok (.objectRef object))
      (hmethod : s.store.method? cls name.text = some method) :
      Makes set s (utf8 "this") (.objectRef object)
  | initializer {range cls args init} (hcontrol : s.control = .call range (.classRef cls) args)
      (hinit : s.store.method? cls (utf8 "init") = some init) :
      Makes set s (utf8 "this") (.objectRef s.store.instances.size)
  | subclass {name parent methods span ref}
      (hcontrol : s.control = .exec (.classDecl name (some parent) methods span))
      (hparent : (s.define name.text .nil).lookup set parent.id parent.name.text =
        .ok (some (.classRef ref))) : Makes set s (utf8 "super") (.classRef ref)

theorem Store.bindsOnly_newEnv (st : Store) (parent : Option Nat) (name : Bytes) (v : Value) :
    (st.newEnv parent (Bindings.empty.set name v)).2.BindsOnly st.envs.size name v := by
  intro m
  rw [at?_newEnv, if_pos rfl, get?_single]

theorem Store.BindsOnly.newEnv {env : Nat} {n : Bytes} {v : Value} (h : st.BindsOnly env n v)
    (parent : Option Nat) (vars : Bindings Value) : (st.newEnv parent vars).2.BindsOnly env n v :=
  fun m => (at?_newEnv_lt (lt_of_at? h.at?) parent vars m).trans (h m)

/-- What is made for a keyword holds that keyword alone. -/
theorem State.Makes.bindsOnly {n : Bytes} {v : Value} (h : s.Makes set n v)
    (henv : s.env < s.store.envs.size) :
    (LoxMachine.advance set s).state.store.BindsOnly s.store.envs.size n v := by
  obtain ⟨control, frames, env, depth, store, trace⟩ := s
  cases h with
  | @property object rest o name method hcontrol hframes hobject hfield hmethod =>
      obtain rfl : control = _ := hcontrol
      obtain rfl : frames = _ := hframes
      simp only [LoxMachine.advance, pop, receive, getProperty, hobject, hfield, hmethod]
      exact bindsOnly_newEnv store _ _ _
  | above hcontrol hdepth hthisDepth hclass hthis hmethod =>
      obtain rfl : control = _ := hcontrol
      simp only [LoxMachine.advance, eval, evalSuper, hdepth, hthisDepth, hclass, hthis, hmethod]
      exact bindsOnly_newEnv store _ _ _
  | @initializer range cls args init hcontrol hinit =>
      obtain rfl : control = _ := hcontrol
      have hinit : (store.newInstance cls).2.method? cls (utf8 "init") = some init :=
        (store.method?_newInstance cls cls (utf8 "init")).trans hinit
      have hmade : ((store.newInstance cls).2.bindMethod init store.instances.size).2.BindsOnly
          store.envs.size (utf8 "this") (.objectRef store.instances.size) :=
        bindsOnly_newEnv (store.newInstance cls).2 _ _ _
      simp only [LoxMachine.advance, callValue, instantiate, hinit]
      rcases store_enter _ set range _ args with heq | heq
      · rw [heq]
        exact hmade
      · rw [heq]
        exact hmade.newEnv _ _
  | @subclass name parent methods _ ref hcontrol hparent =>
      obtain rfl : control = _ := hcontrol
      have hmade : ((store.define env name.text .nil).newEnv (some env)
          (Bindings.empty.set (utf8 "super") (.classRef ref))).2.BindsOnly store.envs.size
          (utf8 "super") (.classRef ref) := by
        have hsize : (store.define env name.text .nil).envs.size = store.envs.size := size_define
        exact hsize ▸ bindsOnly_newEnv _ _ _ _
      simp only [LoxMachine.advance, exec, execClass, hparent]
      -- The class is bound where the declaration is, in an older environment.
      intro m
      exact (at?_define_ne (Nat.ne_of_gt henv) m).trans (hmade m)

/-! ## Initializers -/

theorem State.leave_of_initializer {saved : Nat} {v : Value}
    (hkind : c.decl.kind = .initializer) (hthis : s.store.at? c.env (utf8 "this") = some v)
    (r : Value) : s.leave saved c r =
      .next { s with control := .value v, env := saved, depth := s.depth - 1 } := by
  have hread : s.store.getAt c.env 0 (utf8 "this") = .ok v := getAt_eq_ok rfl hthis
  unfold leave
  simp only [hkind, hread]
  rfl

/-- A function that is an initializer is called bound to an instance, and with its class it is
called bound to the new one. -/
theorem State.Guarded.receives (h : s.Guarded) (hvalid : Valid W R s)
    (hinvokes : s.Invokes c st waiting) (hkind : c.decl.kind = .initializer) :
    ∃ object, object < st.instances.size ∧
      st.BindsOnly c.env (utf8 "this") (.objectRef object) ∧
      ∀ range cls args, s.control = .call range (.classRef cls) args →
        object = s.store.instances.size := by
  cases hinvokes with
  | @function _ ref args c hcontrol hclosure =>
      obtain ⟨base, Γ, _, hsites, hreceives⟩ := hvalid.store.functions ref c hclosure
      obtain ⟨hlt, declares, horigin⟩ := hreceives hkind
      obtain ⟨object, hobject⟩ := hvalid.store.receiver c.env declares hlt horigin
      obtain ⟨hvalue, honly⟩ := h.store c.env _ _ not_plain_this hobject
      refine ⟨object, ?_, honly.newEnv _ _, fun range cls args hcls => ?_⟩
      · cases hvalue with
        | this hlt => exact hlt
      · cases hcontrol.symm.trans hcls
  | @initializer _ cls args init _ _ =>
      refine ⟨s.store.instances.size, ?_, ?_, fun _ _ _ _ => rfl⟩
      · simp [State.storeCall, Store.newEnv, Store.bindMethod, Store.newInstance]
      · exact (h.store.bindInitializer cls init).2.newEnv _ _

/-- An initializer that comes to a value comes to the instance that it is bound to. -/
theorem State.Guarded.initializer_value (h : s.Guarded) (horderly : s.Orderly D) (hD : Known D)
    (hR : ∀ base site, R base site → site.Settled set.depths) (hvalid : Valid W R s)
    (hinvokes : s.Invokes c st waiting) (hkind : c.decl.kind = .initializer) {object : Nat}
    (hobject : st.BindsOnly c.env (utf8 "this") (.objectRef object)) {v : Value}
    (hconcludes : Concludes set waiting s t) (hvalue : t.control = .value v) :
    v = .objectRef object := by
  obtain ⟨b, u, w, r, hruns, hstep, hu, _, _, hleave, rfl⟩ :=
    hinvokes.concludes_value hconcludes hvalue
  have hguarded := (h.advance horderly hD hR hvalid).2 _ hstep
  have horderly' := (horderly.advance hD hR hvalid).2 _ hstep
  have hcontinues := continues_advance hR hvalid
  rw [hstep] at hcontinues
  obtain ⟨W', _, _, hvalid'⟩ := hcontinues
  -- What the body does leaves the receiver as it was.
  obtain ⟨n, hrun⟩ := hu.onto (.activation s.env c :: waiting)
  have hkeep := (hguarded.run hD hR n hvalid' horderly').2.1
  rw [hrun] at hkeep
  have hthis : u.store.at? c.env (utf8 "this") = some (.objectRef object) := by
    rw [← hruns.store] at hobject
    exact (hkeep.keyword c.env _ (lt_of_at? hobject.at?) not_plain_this).trans hobject.at?
  rw [State.leave_of_initializer hkind hthis] at hleave
  cases hleave
  cases hvalue
  rfl

/-- A class that is called and comes to a value comes to the new instance. -/
theorem Concludes.new_instance {range : Range} {cls : Nat} {args : List Value} {v : Value}
    (h : Concludes set s.frames s t) (hcontrol : s.control = .call range (.classRef cls) args)
    (hvalue : t.control = .value v) : v = .objectRef s.store.instances.size := by
  let alone : State := { s with frames := [] }
  have halone : s = alone.onto s.frames := rfl
  cases hinit : s.store.method? cls (utf8 "init") with
  | some init =>
      obtain ⟨b, hstep⟩ : ∃ b : State, advance set alone = _ :=
        next_construct (s := alone) hcontrol rfl hinit
      rw [halone] at h
      obtain ⟨u, w, _, hthrough, hrest, hend, rfl⟩ := (concludes_await_iff hstep).mp h
      have hnext := next_of_pending .construct hthrough hrest hend
      obtain ⟨control, frames, env, depth, store, trace⟩ := u
      obtain ⟨hframes, houtcome⟩ := hthrough
      obtain rfl : frames = [] := hframes
      cases control with
      | value =>
          cases hnext
          cases hvalue
          rfl
      | done => cases hnext
      | returning | failing =>
          cases hnext
          cases hvalue
      | _ => exact houtcome.elim
  | none =>
      have hnone : (s.store.newInstance cls).2.method? cls (utf8 "init") = none :=
        (s.store.method?_newInstance cls cls (utf8 "init")).trans hinit
      obtain ⟨w, hstep, hframes, hcase⟩ : ∃ w : State, advance set alone = .next w ∧
          w.frames = [] ∧ ((∃ e, w.control = .failing e) ∨
            w.control = .value (.objectRef s.store.instances.size)) := by
        simp only [alone, advance, hcontrol, State.callValue, State.instantiate, hnone]
        split
        · exact ⟨_, rfl, rfl, .inl ⟨_, rfl⟩⟩
        · exact ⟨_, rfl, rfl, .inr rfl⟩
      have hthrough : w.Through := ⟨hframes, by
        rcases hcase with ⟨e, hcontrol⟩ | hcontrol <;> rw [hcontrol] <;> trivial⟩
      rw [halone] at h
      obtain rfl := (concludes_next_iff hstep hthrough).mp h
      rcases hcase with ⟨e, hfailing⟩ | hobject
      · cases hfailing.symm.trans hvalue
      · cases hobject.symm.trans hvalue
        rfl

end LoxMachine
