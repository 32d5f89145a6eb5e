import LoxMachine.Proofs.Machine.Dispatch
import LoxMachine.Proofs.Store.Order

/-!
# How a run adds to the store

Every step of the machine carries out at most a few operations on the store, and each of
them adds an object only after those that it refers to.
-/

namespace LoxMachine

open Scope Store

variable {D : List Function → Prop} {W : World} {R : Sites} {st st' : Store} {set : Setting}
  {s : State}

/-- The methods of a declared class are closures of one environment. -/
theorem env_of_classOf {name : Bytes} {superclass : Option Nat} {env : Nat}
    {methods : List Function} (h : Initializers methods) {n : Bytes} {c : Closure}
    (hc : (State.classOf name superclass env methods).own? n = some c) : c.env = env := by
  obtain ⟨f, _, rfl⟩ :=
    Option.map_eq_some_iff.mp ((madeOf_classOf h name superclass env n).symm.trans hc)
  rfl

/-- A method of the store was declared in an environment of the store. -/
theorem Store.Heritage.has_method (h : Heritage D st) {cls : Nat} {n : Bytes} {c : Closure}
    (hmethod : st.method? cls n = some c) : st.Has (.env c.env) := by
  obtain ⟨i, k, _, hk, hc⟩ := descends_of_method? hmethod
  obtain ⟨methods, env, _, hmade, henv, _⟩ := h.made i k hk
  obtain ⟨f, _, rfl⟩ := Option.map_eq_some_iff.mp ((hmade n).symm.trans hc)
  exact henv

theorem State.Binds.has {c : Closure} {object : Nat} (h : s.Binds set c object)
    (hstore : Heritage D s.store) : s.store.Has (.env c.env) := by
  cases h with
  | property _ _ _ hmethod => exact hstore.has_method hmethod
  | super _ _ _ _ _ hmethod => exact hstore.has_method hmethod

section Classes

variable {name : Bytes} {env ref : Nat} {methods : List Function}

/-- A class is added after the environment of its methods. -/
theorem Store.grows_classOf {superclass : Option Nat} (hmethods : Initializers methods)
    (henv : st.Has (.env env))
    (hparent : ∀ parent, superclass = some parent → st.Has (.cls parent)) :
    st.Grows (st.newClass (State.classOf name superclass env methods)).2 :=
  .newClass hparent fun _ _ hc => env_of_classOf hmethods hc ▸ henv

theorem Store.grown_declareClass (hmethods : Initializers methods) (henv : st.Has (.env env))
    (v : Value) :
    st.Grown (((st.define env name .nil).newClass
      (State.classOf name none env methods)).2.define env name v) := by
  have hdefine : st.Grows (st.define env name .nil) := .define env name .nil
  have hclass := @grows_classOf _ name env methods none hmethods (hdefine.fixed.has henv) nofun
  exact (hdefine.grown.tail hclass).tail (.define _ _ _)

/-- The class of a declaration with a superclass is added after that one. -/
theorem Store.grown_declareSubclass (hmethods : Initializers methods) (henv : st.Has (.env env))
    (href : st.Has (.cls ref)) (v : Value) :
    st.Grown ((((st.define env name .nil).newEnv (some env)
      (Bindings.empty.set (utf8 "super") (.classRef ref))).2.newClass
        (State.classOf name (some ref) st.envs.size methods)).2.define env name v) := by
  have hdefine : st.Grows (st.define env name .nil) := .define env name .nil
  have hscope := Grows.newEnv (hdefine.fixed.has henv)
    (Bindings.empty.set (utf8 "super") (.classRef ref))
  have hnew := @has_newEnv (st.define env name .nil) (some env)
    (Bindings.empty.set (utf8 "super") (.classRef ref))
  rw [size_define] at hnew
  have hclass := @grows_classOf _ name _ methods (some ref) hmethods hnew (by
    rintro parent ⟨⟩
    exact href)
  exact ((hdefine.grown.tail hscope).tail hclass).tail (.define _ _ _)

end Classes

/-- Every step carries out operations that keep to the order of creation. -/
theorem State.Orderly.grown (h : s.Orderly D) (hD : Known D)
    (hR : ∀ base site, R base site → site.Settled set.depths) (hvalid : Valid W R s)
    (heffect : s.Effect set st') : s.store.Grown st' := by
  have henv : s.store.Has (.env s.env) := h.code.frames.here.1
  have hknown : ∀ {methods}, .cls methods ∈ s.control.features → Initializers methods :=
    fun hmem => hD.initializers _ (h.code.code _ hmem)
  cases heffect with
  | none => exact .refl
  | declare => exact .single (.define _ _ _)
  | assign => exact .single (.define _ _ _)
  | field => exact .single (.setField _ _ _)
  | look => exact .single .tick
  | block => exact .single (.newEnv henv _)
  | @function decl =>
      have hfunction : s.store.Grows (s.store.newFunction ⟨decl, s.env⟩).2 := .newFunction henv
      exact hfunction.grown.tail (.define _ _ _)
  | plainClass hcontrol =>
      refine grown_declareClass (hknown ?_) henv _
      rw [hcontrol, Control.features, Stmt.features]
      exact List.mem_cons_self
  | subclass hcontrol hparent =>
      refine grown_declareSubclass (hknown ?_) henv (hvalid.knows_superclass hR hcontrol hparent) _
      rw [hcontrol, Control.features, Stmt.features]
      exact List.mem_cons_self
  | @bind c object hbinds =>
      have hscope := grows_bindMethod (hbinds.has h.store) object
      exact hscope.grown.tail (.newFunction (has_newEnv _ _))
  | call _ hclosure => exact .single (.newEnv (h.store.functions _ _ hclosure).1 _)
  | object => exact .single (.newInstance _)
  | @unstarted _ cls _ init _ hinit =>
      have hobject : s.store.Grows (s.store.newInstance cls).2 := .newInstance cls
      have hinit := hobject.fixed.has (h.store.has_method hinit)
      exact hobject.grown.tail (grows_bindMethod hinit _)
  | @initializer _ cls args init _ hinit =>
      have hobject : s.store.Grows (s.store.newInstance cls).2 := .newInstance cls
      have hinit := hobject.fixed.has (h.store.has_method hinit)
      exact (hobject.grown.tail (grows_bindMethod hinit _)).tail (.newEnv (has_newEnv _ _) _)

/-- However long it goes on, a run carries out operations that keep to the order of
creation. -/
theorem State.Orderly.grown_run (hD : Known D)
    (hR : ∀ base site, R base site → site.Settled set.depths) (fuel : Nat)
    (hvalid : Valid W R s) (h : s.Orderly D) :
    s.store.Grown (LoxMachine.run set fuel s).2.store := by
  induction fuel generalizing W s with
  | zero => exact .refl
  | succ fuel ih =>
      have hstep := h.grown hD hR hvalid (effect_advance set s)
      have hnext := (h.advance hD hR hvalid).2
      have hcontinues := continues_advance hR hvalid
      rw [LoxMachine.run]
      cases hadvance : LoxMachine.advance set s with
      | next s' =>
          rw [hadvance] at hstep hcontinues
          obtain ⟨W', _, _, hvalid'⟩ := hcontinues
          exact hstep.trans (ih hvalid' (hnext s' hadvance))
      | halt ending s' =>
          rw [hadvance] at hstep
          exact hstep

/-- A call is entered in a new environment, directly inside that of the function, which was
there before. -/
theorem State.Enters.inside {c : Closure} {env : Nat} (h : s.Enters c env st)
    (hstore : Heritage D s.store) :
    c.env < env ∧ st.parent? env = some c.env := by
  cases h with
  | function _ hclosure =>
      refine ⟨(hstore.functions _ _ hclosure).1, ?_⟩
      rw [storeCall, parent?_newEnv, if_pos rfl]
  | @initializer _ cls _ init _ _ =>
      have hsize : ((s.store.newInstance cls).2.bindMethod init
          s.store.instances.size).2.envs.size = s.store.envs.size + 1 := size_newEnv _ _
      refine ⟨Nat.lt_succ_self _, ?_⟩
      rw [storeCall, parent?_newEnv, if_pos hsize.symm]

end LoxMachine
