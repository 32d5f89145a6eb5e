import LoxMachine.Proofs.Machine.Whereabouts
import LoxMachine.Proofs.Store.Heritage

/-!
# What `super` means to a running method

Whenever `super` is evaluated, the innermost `this` around it is the receiver of the
method it was written in, and the search for the method starts at the superclass of the
class that the method was declared in.  Binding the method that is found keeps all this
in order for the next one.
-/

namespace LoxMachine

open Scope Store

/-- What is known of class declarations: their initializers are proper, and the classes in
their methods are known. -/
structure Known (D : List Function → Prop) : Prop where
  initializers : ∀ methods, D methods → Initializers methods
  nested : ∀ methods f inner, D methods → f ∈ methods → .cls inner ∈ f.features → D inner

/-- The classes of the store and the code that the machine runs are in order. -/
structure State.Orderly (D : List Function → Prop) (s : State) : Prop where
  store : Heritage D s.store
  code : s.Suits s.store.Ground (Written D s.store)

variable {D : List Function → Prop} {W : World} {R : Sites} {st : Store} {set : Setting}
  {s : State}

/-! ## Names that are no keywords -/

theorem Executes.plain {env : Nat} {stmt : Stmt}
    (hR : ∀ base site, R base site → site.Settled set.depths) (h : Executes W R st env stmt) :
    ∀ n ∈ declared stmt, Plain n := by
  obtain ⟨base, Γ, _, _, hsites⟩ := h
  intro n hn
  cases stmt with
  | var | function | classDecl =>
      rw [List.mem_singleton.mp hn]
      exact hR base _ (hsites _ List.mem_cons_self)
  | _ => cases hn

theorem Valid.plain_exec {stmt : Stmt} (hR : ∀ base site, R base site → site.Settled set.depths)
    (h : Valid W R s) (hcontrol : s.control = .exec stmt) : ∀ n ∈ declared stmt, Plain n := by
  obtain ⟨control, frames, env, depth, store, trace⟩ := s
  cases hcontrol
  cases h.poised with
  | exec hstmt _ => exact hstmt.plain hR

theorem Valid.plain_declares {name : Name} {v : Value}
    (hR : ∀ base site, R base site → site.Settled set.depths) (h : Valid W R s)
    (hdeclares : s.Declares name v) : Plain name.text := by
  cases hdeclares with
  | unset hcontrol => exact h.plain_exec hR hcontrol _ List.mem_cons_self
  | unfinished hcontrol => exact h.plain_exec hR hcontrol _ List.mem_cons_self
  | value hcontrol hframes =>
      obtain ⟨control, frames, env, depth, store, trace⟩ := s
      cases hcontrol
      cases hframes
      cases h.poised with
      | value _ hstack =>
          cases hstack with
          | push hlink _ =>
              cases hlink with
              | declare hfits =>
                  obtain ⟨base, Γ, _, _, hsites⟩ := hfits
                  exact hR base _ (hsites _ List.mem_cons_self)

theorem Valid.plain_assign {id : Nat} {name : Name} {v : Value} {rest : List Frame}
    (hR : ∀ base site, R base site → site.Settled set.depths) (h : Valid W R s)
    (hcontrol : s.control = .value v) (hframes : s.frames = .assign id name :: rest) :
    Plain name.text := by
  obtain ⟨control, frames, env, depth, store, trace⟩ := s
  cases hcontrol
  cases hframes
  cases h.poised with
  | value _ hstack =>
      cases hstack with
      | push hlink _ =>
          cases hlink with
          | assign hfits =>
              obtain ⟨base, Γ, _, _, hsites⟩ := hfits
              exact (hR base _ (hsites _ List.mem_cons_self)).2

/-- The environment of a call binds no keyword. -/
theorem get?_bindParams_keyword {Γ : List Layer} {f : Function} {base : Nat}
    (hR : ∀ base site, R base site → site.Settled set.depths)
    (hsites : ∀ site ∈ functionSites Γ f, R base site) (args : List Value) {n : Bytes}
    (hn : ¬ Plain n) : (State.bindParams f.params args Bindings.empty).get? n = none := by
  obtain ⟨kind, name, params, body, span⟩ := f
  cases hget : (State.bindParams params args Bindings.empty).get? n with
  | none => exact hget
  | some v =>
      have hbound := (isSome_bindParams params args Bindings.empty).mp
        (Option.isSome_of_eq_some hget)
      rcases hbound with hmem | hnone
      · refine absurd (hR base (.declare n) (hsites _ ?_)) hn
        exact List.mem_cons_of_mem _ (List.mem_append_left _ (List.mem_map_of_mem hmem))
      · cases hnone

/-! ## Values that are known -/

theorem Valid.knows_class {range : Range} {cls : Nat} {args : List Value} (h : Valid W R s)
    (hcontrol : s.control = .call range (.classRef cls) args) : cls < s.store.classes.size := by
  obtain ⟨control, frames, env, depth, store, trace⟩ := s
  cases hcontrol
  cases h.poised with
  | call hcallee _ _ => exact hcallee

/-- The superclass of a declaration is a class of the store. -/
theorem Valid.knows_superclass {name : Name} {parent : Superclass} {methods : List Function}
    {span : Range} {ref : Nat} (hR : ∀ base site, R base site → site.Settled set.depths)
    (h : Valid W R s)
    (hcontrol : s.control = .exec (.classDecl name (some parent) methods span))
    (hlookup : (s.define name.text .nil).lookup set parent.id parent.name.text =
      .ok (some (.classRef ref))) : ref < s.store.classes.size := by
  have hplain := h.plain_exec hR hcontrol name.text List.mem_cons_self
  obtain ⟨control, frames, env, depth, store, trace⟩ := s
  cases hcontrol
  cases h.poised with
  | exec hstmt _ =>
      obtain ⟨base, Γ, hchain, hroom, hsites⟩ := hstmt
      obtain ⟨_, hsound, hinner, _⟩ := continues_define (v := .nil)
        (s := ⟨_, frames, env, depth, store, trace⟩) h.store hchain hroom hplain trivial
      obtain ⟨hdepth, _⟩ := hR base _
        (hsites _ (List.mem_cons_of_mem _ (List.mem_append_left _ List.mem_cons_self)))
      rcases owner_eq_ok hinner hdepth with ⟨_, hnone⟩ | ⟨owner, v, _, hfound, hv⟩
      · have heq := hnone.symm.trans hlookup
        cases heq
      · have heq := hfound.symm.trans hlookup
        cases heq
        exact hsound.values owner _ _ hv

/-! ## The method that runs -/

/-- A `super` expression is written in a method of the class, and the method that runs is
bound to the instance. -/
def Store.Active (st : Store) (env : Nat) (e : Expr) (cls object : Nat) : Prop :=
  ∃ (k : Class) (n : Bytes) (c : Closure) (t : Nat), st.classes[cls]? = some k ∧
    k.own? n = some c ∧ .super e ∈ c.decl.features ∧
    st.nearest? env (utf8 "this") = some (t, .objectRef object) ∧ st.parent? t = some c.env

theorem Store.nearest?_of_climb (holder : ∀ o p, st.parent? o = some p → p < o) {n : Bytes}
    {depth env t : Nat} {v : Value} (hclimb : st.climb depth env = some t)
    (hat : st.at? t n = some v)
    (hpassed : ∀ k < depth, ∀ o, st.climb k env = some o → st.at? o n = none) :
    st.nearest? env n = some (t, v) := by
  induction depth generalizing env with
  | zero =>
      cases hclimb
      rw [Store.nearest?, search_succ, hat]
  | succ depth ih =>
      rw [climb_succ] at hclimb
      obtain ⟨p, hparent, hclimb⟩ := Option.bind_eq_some_iff.mp hclimb
      rw [Store.nearest?, search_succ, hpassed 0 (Nat.succ_pos depth) env rfl, hparent,
        Option.bind_some, search_eq_nearest? holder (holder env p hparent)]
      refine ih hclimb fun k hk o ho => hpassed (k + 1) (Nat.succ_lt_succ hk) o ?_
      rw [climb_succ, hparent]
      exact ho

section Super

variable {id thisId : Nat} {keyword span : Range} {method : Name}

/-- Where the machine reads the class and the receiver of a `super` expression. -/
theorem Valid.super (hR : ∀ base site, R base site → site.Settled set.depths)
    (h : Valid W R s) (hcontrol : s.control = .eval (.super id thisId keyword method span)) :
    ∃ depth t p object cls, set.depths.depth? thisId = some depth ∧
      set.depths.depth? id = some (depth + 1) ∧
      s.store.getAt s.env depth (utf8 "this") = .ok (.objectRef object) ∧
      s.store.getAt s.env (depth + 1) (utf8 "super") = .ok (.classRef cls) ∧
      s.store.nearest? s.env (utf8 "this") = some (t, .objectRef object) ∧
      s.store.parent? t = some p ∧ s.store.at? p (utf8 "super") = some (.classRef cls) := by
  obtain ⟨control, frames, env, sdepth, store, trace⟩ := s
  cases hcontrol
  cases h.poised with
  | eval hexpr _ =>
      obtain ⟨base, Γ, hchain, _, hsites⟩ := hexpr
      obtain ⟨depth, hmethod, hthis, hsuper⟩ := hR base _ (hsites _ List.mem_cons_self)
      obtain ⟨t, p, object, cls, hclimb, hparent, hobject, hclimb', hcls⟩ :=
        hmethod.climb h.store hchain
      refine ⟨depth, t, p, object, cls, hthis, hsuper, getAt_eq_ok hclimb hobject,
        getAt_eq_ok hclimb' hcls, ?_, hparent, hcls⟩
      refine nearest?_of_climb h.store.older hclimb hobject fun k hk o ho => ?_
      -- The layers in between belong to functions and blocks, which never bind `this`.
      have hlt : k < Γ.length := by
        obtain ⟨layer, hlayer, _⟩ := hmethod.receiver
        exact Nat.lt_trans hk (List.getElem?_eq_some_iff.mp hlayer).1
      obtain ⟨o', _, ho', _, horigin, _⟩ := hchain.climb (List.getElem?_eq_getElem hlt)
      obtain rfl := Option.some.inj (ho'.symm.trans ho)
      cases hat : store.at? o' (utf8 "this") with
      | none => rfl
      | some v =>
          have hallowed := h.store.allowed o' _ v hat
          rw [horigin] at hallowed
          exact absurd hallowed (hmethod.inner k hk _ (List.getElem?_eq_getElem hlt)).1

/-- There is a method that runs, and it has the expression. -/
theorem State.Orderly.exists_active (hR : ∀ base site, R base site → site.Settled set.depths)
    (hvalid : Valid W R s) (h : s.Orderly D)
    (hcontrol : s.control = .eval (.super id thisId keyword method span)) :
    ∃ cls object, s.store.Active s.env (.super id thisId keyword method span) cls object := by
  obtain ⟨_, t, _, object, _, _, _, _, _, hnearest, _⟩ := hvalid.super hR hcontrol
  have hwritten := h.code.code (.super (.super id thisId keyword method span))
    (by rw [hcontrol]; exact List.mem_cons_self) t _ hnearest
  obtain ⟨cls, k, n, c, hk, hc, he, hparent⟩ := hwritten
  exact ⟨cls, object, k, n, c, t, hk, hc, he, hnearest, hparent⟩

/-- The class of the method that runs has a superclass, the receiver is an instance of the
class or of one below it, and the machine reads these two. -/
theorem Store.Active.super {cls object : Nat}
    (hactive : s.store.Active s.env (.super id thisId keyword method span) cls object)
    (hR : ∀ base site, R base site → site.Settled set.depths) (hvalid : Valid W R s)
    (h : Heritage D s.store)
    (hcontrol : s.control = .eval (.super id thisId keyword method span)) :
    ∃ k parent o depth, s.store.classes[cls]? = some k ∧ k.superclass = some parent ∧
      s.store.instances[object]? = some o ∧ s.store.Descends o.cls cls ∧
      set.depths.depth? thisId = some depth ∧ set.depths.depth? id = some (depth + 1) ∧
      s.store.getAt s.env depth (utf8 "this") = .ok (.objectRef object) ∧
      s.store.getAt s.env (depth + 1) (utf8 "super") = .ok (.classRef parent) := by
  obtain ⟨k, n, c, t, hk, hc, _, hnearest, hparent⟩ := hactive
  obtain ⟨depth, t', p, object', parent, hthis, hsuper, hreceiver, hclass, hnearest', hparent',
    hat⟩ := hvalid.super hR hcontrol
  obtain ⟨rfl, hobject⟩ := Prod.mk.inj (Option.some.inj (hnearest.symm.trans hnearest'))
  cases hobject
  obtain rfl := Option.some.inj (hparent.symm.trans hparent')
  -- The environment of the method binds `super` to the superclass.
  obtain ⟨methods, env, _, hmade, _, hbound⟩ := h.made cls k hk
  obtain ⟨f, _, rfl⟩ := Option.map_eq_some_iff.mp ((hmade n).symm.trans hc)
  have hsuperclass : k.superclass = some parent := by
    rw [hat] at hbound
    obtain ⟨ref, href, heq⟩ := Option.map_eq_some_iff.mp hbound.symm
    cases heq
    exact href
  -- No other class has its methods there, so this is the one the receiver belongs to.
  obtain ⟨o', o, cls', k', n', c', heq, ho, hdescends, hk', hc', hparent''⟩ :=
    h.receivers t _ (climb_of_search hnearest).1
  cases heq
  obtain rfl : cls' = cls := h.apart cls cls' k k' n n' _ c' hk hk' hc hc'
    (Option.some.inj (hparent''.symm.trans hparent)) (Option.isSome_of_eq_some hsuperclass)
  exact ⟨k, parent, o, depth, hk, hsuperclass, ho, hdescends, hthis, hsuper, hreceiver, hclass⟩

end Super

/-! ## Steps -/

/-- A method of a class of the store has its own features and no others. -/
theorem Store.Heritage.known {cls : Nat} {k : Class} {n : Bytes} {c : Closure}
    (h : Heritage D st) (hD : Known D) (hk : st.classes[cls]? = some k)
    (hc : k.own? n = some c) : ∀ inner, .cls inner ∈ c.decl.features → D inner := by
  obtain ⟨methods, env, hmethods, hmade, _⟩ := h.made cls k hk
  obtain ⟨f, hf, rfl⟩ := Option.map_eq_some_iff.mp ((hmade n).symm.trans hc)
  have hmem : f ∈ methods := List.mem_reverse.mp (List.mem_of_find?_eq_some hf)
  exact fun inner hinner => hD.nested methods f inner hmethods hmem hinner

/-- The method that is bound is one of the class of the instance or of one above it. -/
theorem State.Binds.descends {c : Closure} {object : Nat} (h : s.Binds set c object)
    (hR : ∀ base site, R base site → site.Settled set.depths) (hvalid : Valid W R s)
    (horderly : s.Orderly D) :
    ∃ o cls k n, s.store.instances[object]? = some o ∧ s.store.Descends o.cls cls ∧
      s.store.classes[cls]? = some k ∧ k.own? n = some c := by
  cases h with
  | @property _ _ o name _ hcontrol hframes hobject hmethod =>
      obtain ⟨cls, k, hdescends, hk, hc⟩ := descends_of_method? hmethod
      exact ⟨o, cls, k, name.text, hobject, hdescends, hk, hc⟩
  | @super _ _ _ _ _ _ ref _ name _ hcontrol hdepth hthisDepth hclass hthis hmethod =>
      obtain ⟨cls, object', hactive⟩ := horderly.exists_active hR hvalid hcontrol
      obtain ⟨k, parent, o, d, hk, hsuperclass, ho, hdescends, hthis', hsuper', hreceiver, hfound⟩ :=
        hactive.super hR hvalid horderly.store hcontrol
      -- What the machine read is the superclass and the receiver.
      obtain rfl := Option.some.inj (hthisDepth.symm.trans hthis')
      obtain rfl := Option.some.inj (hdepth.symm.trans hsuper')
      have hobject := hthis.symm.trans hreceiver
      have hparent := hclass.symm.trans hfound
      cases hobject
      cases hparent
      obtain ⟨above, k', habove, hk', hc'⟩ := descends_of_method? hmethod
      exact ⟨o, above, k', name.text, ho,
        hdescends.trans (.head ⟨k, hk, hsuperclass⟩ habove), hk', hc'⟩

section Effects

variable {st' : Store}

theorem keeps_storeMethod (st : Store) (c : Closure) (object : Nat) :
    st.Keeps (State.storeMethod st c object) :=
  (keeps_bindMethod c object).trans (keeps_newFunction _)

theorem keeps_storeCall (st : Store) (c : Closure) (args : List Value) :
    st.Keeps (State.storeCall st c args) :=
  keeps_newEnv _ _

theorem Store.Heritage.storeCall {c : Closure} (h : Heritage D st)
    (hR : ∀ base site, R base site → site.Settled set.depths) {base : Nat} {Γ : List Layer}
    (hsites : ∀ site ∈ functionSites Γ c.decl, R base site) (hlt : c.env < st.envs.size)
    (args : List Value) : Heritage D (State.storeCall st c args) := by
  refine h.newEnv hlt fun v hv => ?_
  rw [get?_bindParams_keyword hR hsites args not_plain_this] at hv
  cases hv

/-- The body of a function is in order in the environment of a call. -/
theorem written_storeCall {c : Closure} (h : Heritage D st)
    (hR : ∀ base site, R base site → site.Settled set.depths) {base : Nat} {Γ : List Layer}
    (hsites : ∀ site ∈ functionSites Γ c.decl, R base site) (hlt : c.env < st.envs.size)
    (args : List Value) (hcode : ∀ x ∈ c.decl.features, Written D st c.env x) :
    (State.storeCall st c args).Ground st.envs.size ∧
      ∀ x ∈ c.decl.features, Written D (State.storeCall st c args) st.envs.size x := by
  refine ⟨ground_newEnv (get?_bindParams_keyword hR hsites args not_plain_super), ?_⟩
  exact fun x hx => (hcode x hx).newEnv h hlt
    (get?_bindParams_keyword hR hsites args not_plain_this)

/-- The classes of a store are in order after the declaration of one more. -/
theorem Store.Heritage.subclass {name : Bytes} {env ref : Nat} {methods : List Function}
    (h : Heritage D st) (hD : Known D) (hname : Plain name) (hmethods : D methods)
    (henv : env < st.envs.size) (href : ref < st.classes.size) (v : Value) :
    Heritage D ((((st.define env name .nil).newEnv (some env)
      (Bindings.empty.set (utf8 "super") (.classRef ref))).2.newClass
        (State.classOf name (some ref) st.envs.size methods)).2.define env name v) := by
  have hdefined : Heritage D (st.define env name .nil) := h.define hname
  have hsize : (st.define env name .nil).envs.size = st.envs.size := size_define
  have hnew : Heritage D ((st.define env name .nil).newEnv (some env)
      (Bindings.empty.set (utf8 "super") (.classRef ref))).2 := by
    refine hdefined.newEnv (hsize ▸ henv) fun w hw => ?_
    rcases Bindings.get?_set_cases hw with ⟨heq, _⟩ | hnone
    · exact absurd heq (by decide)
    · cases hnone
  refine (hnew.newClass hmethods (madeOf_classOf (hD.initializers _ hmethods) _ _ _) ?_ ?_ ?_
    ?_).define hname
  · rw [size_newEnv, hsize]
    exact Nat.lt_succ_self _
  · rw [at?_newEnv, hsize, if_pos rfl]
    exact Bindings.get?_set_self ..
  · rintro parent ⟨⟩
    exact href
  · -- The environment of the methods is a new one.
    intro _ i k n c hk hc
    obtain ⟨_, env', _, hmade, hlt, _⟩ := h.made i k hk
    obtain ⟨f, _, rfl⟩ := Option.map_eq_some_iff.mp ((hmade n).symm.trans hc)
    exact Nat.ne_of_lt hlt

/-- Every step leaves the classes in order and keeps what methods depend on. -/
theorem State.Orderly.effect (h : s.Orderly D) (hD : Known D)
    (hR : ∀ base site, R base site → site.Settled set.depths) (hvalid : Valid W R s)
    (heffect : s.Effect set st') : Heritage D st' ∧ s.store.Keeps st' := by
  have hground := h.code.frames.here
  have hstore := h.store
  cases heffect with
  | none => exact ⟨hstore, keeps_refl _⟩
  | declare hdeclares =>
      have hname := hvalid.plain_declares hR hdeclares
      exact ⟨hstore.define hname, keeps_define hname⟩
  | assign hcontrol hframes _ =>
      have hname := hvalid.plain_assign hR hcontrol hframes
      exact ⟨hstore.define hname, keeps_define hname⟩
  | field => exact ⟨hstore.setField _ _ _, keeps_setField _ _ _⟩
  | look => exact ⟨hstore.tick, keeps_tick _⟩
  | block => exact ⟨hstore.newEnv hground.1 nofun, keeps_newEnv _ _⟩
  | @function decl hcontrol =>
      have hname := hvalid.plain_exec hR hcontrol decl.name.text List.mem_cons_self
      have hcode : ∀ x ∈ decl.features, Written D s.store s.env x := by
        intro x hx
        apply h.code.code x
        rw [hcontrol, Control.features, Stmt.features]
        exact hx
      exact ⟨(hstore.newFunction hground.1 hcode).define hname,
        (keeps_newFunction _).trans (keeps_define hname)⟩
  | @plainClass name methods _ hcontrol =>
      have hname := hvalid.plain_exec hR hcontrol name.text List.mem_cons_self
      have hmethods : D methods := h.code.code (.cls methods) (by
        rw [hcontrol, Control.features, Stmt.features]
        exact List.mem_cons_self)
      have hkeep : s.store.Keeps (s.store.define s.env name.text .nil) := keeps_define hname
      have hground' := hground.mono hkeep
      have hmade := madeOf_classOf (hD.initializers _ hmethods) name.text none s.env
      refine ⟨((hstore.define hname).newClass hmethods hmade hground'.1 hground'.2 nofun
        nofun).define hname, ?_⟩
      exact (hkeep.trans (keeps_newClass _)).trans (keeps_define hname)
  | @subclass name _ methods _ ref hcontrol hparent =>
      have hname := hvalid.plain_exec hR hcontrol name.text List.mem_cons_self
      have hmethods : D methods := h.code.code (.cls methods) (by
        rw [hcontrol, Control.features, Stmt.features]
        exact List.mem_cons_self)
      refine ⟨hstore.subclass hD hname hmethods hground.1
        (hvalid.knows_superclass hR hcontrol hparent) _, ?_⟩
      exact (((keeps_define hname).trans (keeps_newEnv _ _)).trans (keeps_newClass _)).trans
        (keeps_define hname)
  | @bind c object hbinds =>
      obtain ⟨o, cls, k, n, ho, hdescends, hk, hc⟩ := hbinds.descends hR hvalid h
      refine ⟨(hstore.bindMethod ho hdescends hk hc).newFunction ?_ ?_, keeps_storeMethod _ _ _⟩
      · rw [Store.bindMethod, size_newEnv]
        exact Nat.lt_succ_self _
      · exact written_bindMethod (hstore.known hD hk hc) hk hc
  | @call _ ref args closure _ hclosure =>
      obtain ⟨base, Γ, _, hsites, _⟩ := hvalid.store.functions ref closure hclosure
      exact ⟨hstore.storeCall hR hsites (hstore.functions ref closure hclosure).1 args,
        keeps_storeCall _ _ _⟩
  | object hcontrol =>
      exact ⟨hstore.newInstance (hvalid.knows_class hcontrol), keeps_newInstance _⟩
  | @unstarted _ cls _ init hcontrol hinit =>
      obtain ⟨i, k, hdescends, hk, hc⟩ := descends_of_method? hinit
      have hkeep : s.store.Keeps (s.store.newInstance cls).2 := keeps_newInstance cls
      refine ⟨(hstore.newInstance (hvalid.knows_class hcontrol)).bindMethod
        (Array.getElem?_push_size ..) (hkeep.descends hdescends) hk hc, ?_⟩
      exact hkeep.trans (keeps_bindMethod _ _)
  | @initializer _ cls args init hcontrol hinit =>
      obtain ⟨i, k, hdescends, hk, hc⟩ := descends_of_method? hinit
      have hkeep : s.store.Keeps (s.store.newInstance cls).2 := keeps_newInstance cls
      obtain ⟨base, Γ, _, hsites⟩ := hvalid.store.method hinit
      refine ⟨Heritage.storeCall (c := ⟨init.decl, s.store.envs.size⟩)
        ((hstore.newInstance (hvalid.knows_class hcontrol)).bindMethod
          (Array.getElem?_push_size ..) (hkeep.descends hdescends) hk hc) hR hsites ?_ args, ?_⟩
      · rw [Store.bindMethod, size_newEnv]
        exact Nat.lt_succ_self _
      · exact (hkeep.trans (keeps_bindMethod _ _)).trans (keeps_storeCall _ _ _)

end Effects

/-- A step leaves the classes in order, and the code as well if it goes on. -/
theorem State.Orderly.advance (h : s.Orderly D) (hD : Known D)
    (hR : ∀ base site, R base site → site.Settled set.depths) (hvalid : Valid W R s) :
    Heritage D (LoxMachine.advance set s).state.store ∧
      ∀ s', LoxMachine.advance set s = .next s' → s'.Orderly D := by
  obtain ⟨hstore, hkeep⟩ := h.effect hD hR hvalid (effect_advance set s)
  have hcode : s.Suits (LoxMachine.advance set s).state.store.Ground
      (Written D (LoxMachine.advance set s).state.store) :=
    h.code.mono (fun _ henv => henv.mono hkeep)
      fun _ _ henv hx => hx.mono hkeep h.store.older henv.1
  have hsuits : (LoxMachine.advance set s).Suits _ _ := hcode.advance ?hblock ?hcall
  case hblock =>
    intro body span _ heq
    rw [heq] at hstore ⊢
    refine ⟨ground_newEnv rfl, fun x hx => hx.inner hstore.older ?_ ?_⟩
    · rw [parent?_newEnv, if_pos rfl]
    · rw [at?_newEnv, if_pos rfl]
      rfl
  case hcall =>
    intro closure env st henters heq
    rw [heq]
    cases henters with
    | @function _ ref args closure hcontrol hclosure =>
        obtain ⟨base, Γ, _, hsites, _⟩ := hvalid.store.functions ref closure hclosure
        obtain ⟨hlt, hwritten⟩ := h.store.functions ref closure hclosure
        exact written_storeCall h.store hR hsites hlt args hwritten
    | @initializer _ cls args init hcontrol hinit =>
        obtain ⟨i, k, hdescends, hk, hc⟩ := descends_of_method? hinit
        obtain ⟨base, Γ, _, hsites⟩ := hvalid.store.method hinit
        have hbound := (h.store.newInstance (hvalid.knows_class hcontrol)).bindMethod
          (Array.getElem?_push_size ..) ((keeps_newInstance cls).descends hdescends) hk hc
        have hsize : ((s.store.newInstance cls).2.bindMethod init
            s.store.instances.size).2.envs.size = s.store.envs.size + 1 := size_newEnv ..
        rw [← hsize]
        refine written_storeCall (c := ⟨init.decl, s.store.envs.size⟩) hbound hR hsites
          (hsize ▸ Nat.lt_succ_self _) args ?_
        exact @written_bindMethod D (s.store.newInstance cls).2 _ _ _ _ _ (h.store.known hD hk hc) hk hc
  refine ⟨hstore, fun s' hs' => ?_⟩
  rw [hs'] at hstore hsuits
  exact ⟨hstore, hsuits⟩

/-- However long it goes on, a run leaves the classes in order, and the code as well while
it goes on. -/
theorem State.Orderly.run (hD : Known D)
    (hR : ∀ base site, R base site → site.Settled set.depths) (fuel : Nat)
    (hvalid : Valid W R s) (h : s.Orderly D) :
    Heritage D (LoxMachine.run set fuel s).2.store ∧
      ((LoxMachine.run set fuel s).1 = none → (LoxMachine.run set fuel s).2.Orderly D) := by
  induction fuel generalizing W s with
  | zero => exact ⟨h.store, fun _ => h⟩
  | succ fuel ih =>
      obtain ⟨hstore, hnext⟩ := h.advance hD hR hvalid
      have hcontinues := continues_advance hR hvalid
      rw [LoxMachine.run]
      cases hadvance : LoxMachine.advance set s with
      | next s' =>
          rw [hadvance] at hcontinues
          obtain ⟨W', _, _, hvalid'⟩ := hcontinues
          exact ih hvalid' (hnext s' hadvance)
      | halt ending s' =>
          rw [hadvance] at hstore
          exact ⟨hstore, fun hnone => absurd hnone (Option.some_ne_none ending)⟩

end LoxMachine
