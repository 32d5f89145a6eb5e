import LoxMachine.Proofs.Store.Chains
import LoxMachine.Session

/-!
# Sound stores

A store is sound in a world if its environments bind what they may and have to, its
values refer to what exists, and its closures sit in chains of environments that fit
their code.
-/

namespace LoxMachine

open Scope

/-- Which sites may be run in modules with a given base environment. -/
def Sites : Type := Nat → Site → Prop

namespace Store

/-- An environment that holds the receiver of a method. -/
def Receives (W : World) (st : Store) (env : Nat) : Prop :=
  env < st.envs.size ∧ ∃ declares, W env = .scope .receiver declares

/-- A function whose code may run in an environment inside `c.env`. An initializer is
always bound to an instance. -/
def Runnable (W : World) (R : Sites) (st : Store) (c : Closure) : Prop :=
  ∃ base Γ, Chain W st base Γ c.env ∧ (∀ site ∈ functionSites Γ c.decl, R base site) ∧
    (c.decl.kind = .initializer → Receives W st c.env)

/-- A method, which becomes a function once it is bound to an instance. -/
def Bindable (W : World) (R : Sites) (st : Store) (c : Closure) : Prop :=
  ∃ base Γ, Chain W st base Γ c.env ∧
    ∀ site ∈ functionSites (receiverLayer :: Γ) c.decl, R base site

structure Sound (W : World) (R : Sites) (st : Store) : Prop where
  root : W 0 = .globals
  nonempty : 0 < st.envs.size
  older : ∀ o p, st.parent? o = some p → p < o
  values : ∀ o n v, st.at? o n = some v → st.Knows v
  allowed : ∀ o n v, st.at? o n = some v → (W o).Allows n
  receiver : ∀ o declares, o < st.envs.size → W o = .scope .receiver declares →
    ∃ object, st.at? o (utf8 "this") = some (.objectRef object)
  superclass : ∀ o declares, o < st.envs.size → W o = .scope .superclass declares →
    ∃ cls, st.at? o (utf8 "super") = some (.classRef cls)
  functions : ∀ (i : Nat) c, st.functions[i]? = some c → Runnable W R st c
  methods : ∀ (i : Nat) cls n c, st.classes[i]? = some cls → cls.own? n = some c →
    Bindable W R st c
  fields : ∀ (i : Nat) object n v, st.instances[i]? = some object →
    object.fields.get? n = some v → st.Knows v
  natives : ∀ (i : Nat) native, st.natives[i]? = some native → native ∈ Native.all

variable {W W' : World} {R R' : Sites} {st st' : Store} {c : Closure}

/-! ## Later stores -/

theorem Receives.mono {env : Nat} (h : Receives W st env) (hext : st.Extends st')
    (hW : W.Agrees W' st.envs.size) : Receives W' st' env := by
  obtain ⟨hlt, declares, horigin⟩ := h
  exact ⟨Nat.lt_of_lt_of_le hlt hext.size, declares, (hW env hlt).trans horigin⟩

theorem Runnable.mono (h : Runnable W R st c) (hext : st.Extends st')
    (hW : W.Agrees W' st.envs.size) : Runnable W' R st' c := by
  obtain ⟨base, Γ, hchain, hsites, hinit⟩ := h
  exact ⟨base, Γ, hchain.mono hext hW, hsites, fun hkind => (hinit hkind).mono hext hW⟩

theorem Bindable.mono (h : Bindable W R st c) (hext : st.Extends st')
    (hW : W.Agrees W' st.envs.size) : Bindable W' R st' c := by
  obtain ⟨base, Γ, hchain, hsites⟩ := h
  exact ⟨base, Γ, hchain.mono hext hW, hsites⟩

/-- A sound store stays sound if more code may be run. -/
theorem Sound.weaken (h : Sound W R st) (hR : ∀ base site, R base site → R' base site) :
    Sound W R' st := by
  refine { h with functions := ?_, methods := ?_ }
  · intro i c hc
    obtain ⟨base, Γ, hchain, hsites, hinit⟩ := h.functions i c hc
    exact ⟨base, Γ, hchain, fun site hmem => hR base site (hsites site hmem), hinit⟩
  · intro i cls n c hcls hc
    obtain ⟨base, Γ, hchain, hsites⟩ := h.methods i cls n c hcls hc
    exact ⟨base, Γ, hchain, fun site hmem => hR base site (hsites site hmem)⟩

theorem Sound.lt_of_chain (h : Sound W R st) {base env : Nat} {Γ : List Layer}
    (hchain : Chain W st base Γ env) : env < st.envs.size := by
  cases Γ with
  | nil =>
      obtain rfl : env = 0 := hchain
      exact h.nonempty
  | cons layer Γ =>
      obtain ⟨⟨parent, hparent, _⟩, _⟩ := hchain
      exact lt_of_parent? hparent

/-- The method of a class can be bound, wherever above the class it was found. -/
theorem Sound.method (h : Sound W R st) {cls : Nat} {n : Bytes}
    (hfound : st.method? cls n = some c) : Bindable W R st c := by
  have hsearch : ∀ steps cls, st.searchMethod n steps cls = some c → Bindable W R st c := by
    intro steps
    induction steps with
    | zero => nofun
    | succ steps ih =>
        intro cls hfound
        rw [searchMethod] at hfound
        split at hfound
        next => cases hfound
        next k hk =>
          split at hfound
          next m hm =>
            cases hfound
            exact h.methods cls k n c hk hm
          next =>
            split at hfound
            next parent _ => exact ih parent hfound
            next => cases hfound
  exact hsearch (cls + 1) cls hfound

/-! ## Binding names -/

section Define

variable {env : Nat} {name : Bytes} {v : Value}

theorem extends_define (hlt : env < st.envs.size) : st.Extends (st.define env name v) where
  size := Nat.le_of_eq size_define.symm
  parent o p hp := by rwa [parent?_define]
  bound o n hn := by
    rw [at?_define hlt]
    split
    · rfl
    · exact hn
  functions := Nat.le_refl _
  classes := Nat.le_refl _
  instances := Nat.le_refl _
  natives := Nat.le_refl _

theorem Sound.define (h : Sound W R st) (hlt : env < st.envs.size) (hv : st.Knows v)
    (hplain : Plain name) (hallows : (W env).Allows name) :
    Sound W R (st.define env name v) := by
  have hext : st.Extends (st.define env name v) := extends_define hlt
  have hW := World.Agrees.refl W st.envs.size
  have hkeep : ∀ o keyword, keyword ≠ name →
      (st.define env name v).at? o keyword = st.at? o keyword := fun o keyword hne => by
    rw [at?_define hlt, if_neg fun heq => hne heq.2]
  refine ⟨h.root, ?_, ?_, ?_, ?_, ?_, ?_, ?_, ?_, ?_, h.natives⟩
  · rw [size_define]
    exact h.nonempty
  · intro o p hp
    rw [parent?_define] at hp
    exact h.older o p hp
  · intro o n w hw
    rw [at?_define hlt] at hw
    split at hw
    next =>
      cases hw
      exact hv.mono hext
    next => exact (h.values o n w hw).mono hext
  · intro o n w hw
    rw [at?_define hlt] at hw
    split at hw
    next heq => rwa [heq.1, heq.2]
    next => exact h.allowed o n w hw
  · intro o declares ho horigin
    rw [hkeep o _ (Ne.symm hplain.1)]
    exact h.receiver o declares (size_define ▸ ho) horigin
  · intro o declares ho horigin
    rw [hkeep o _ (Ne.symm hplain.2)]
    exact h.superclass o declares (size_define ▸ ho) horigin
  · exact fun i c hc => (h.functions i c hc).mono hext hW
  · exact fun i cls n c hcls hc => (h.methods i cls n c hcls hc).mono hext hW
  · exact fun i object n w ho hw => (h.fields i object n w ho hw).mono hext

end Define

/-! ## New environments -/

section NewEnv

variable {parent : Nat} {vars : Bindings Value} {origin : Origin}

theorem extends_newEnv (parent : Option Nat) (vars : Bindings Value) :
    st.Extends (st.newEnv parent vars).2 where
  size := by
    rw [size_newEnv]
    exact Nat.le_succ _
  parent o p hp := by
    rw [parent?_newEnv, if_neg (Nat.ne_of_lt (lt_of_parent? hp))]
    exact hp
  bound o n hn := by
    obtain ⟨v, hv⟩ := Option.isSome_iff_exists.mp hn
    rw [at?_newEnv, if_neg (Nat.ne_of_lt (lt_of_at? hv))]
    exact hn
  functions := Nat.le_refl _
  classes := Nat.le_refl _
  instances := Nat.le_refl _
  natives := Nat.le_refl _

/-- What the variables of a new environment have to be like. -/
structure Furnished (st : Store) (origin : Origin) (vars : Bindings Value) : Prop where
  values : ∀ n v, vars.get? n = some v → st.Knows v
  allowed : ∀ n v, vars.get? n = some v → origin.Allows n
  receiver : ∀ declares, origin = .scope .receiver declares →
    ∃ object, vars.get? (utf8 "this") = some (.objectRef object)
  superclass : ∀ declares, origin = .scope .superclass declares →
    ∃ cls, vars.get? (utf8 "super") = some (.classRef cls)

theorem Sound.newEnv (h : Sound W R st) (hparent : parent < st.envs.size)
    (hvars : st.Furnished origin vars) :
    Sound (W.extend st.envs.size origin) R (st.newEnv (some parent) vars).2 := by
  have hext : st.Extends (st.newEnv (some parent) vars).2 := extends_newEnv _ _
  have hW := W.agrees_extend st.envs.size origin
  -- The new environment is the last one; all others are as they were.
  have hcases : ∀ {o}, o < (st.newEnv (some parent) vars).2.envs.size →
      o = st.envs.size ∨ o < st.envs.size := by
    intro o ho
    rw [size_newEnv] at ho
    exact (Nat.lt_succ_iff_lt_or_eq.mp ho).symm
  have hold : ∀ {o} (n), o < st.envs.size →
      (st.newEnv (some parent) vars).2.at? o n = st.at? o n := by
    intro o n ho
    rw [at?_newEnv, if_neg (Nat.ne_of_lt ho)]
  have hnew : ∀ n, (st.newEnv (some parent) vars).2.at? st.envs.size n = vars.get? n := by
    intro n
    rw [at?_newEnv, if_pos rfl]
  refine ⟨(hW 0 h.nonempty).trans h.root, Nat.lt_of_lt_of_le h.nonempty hext.size, ?_, ?_, ?_,
    ?_, ?_, ?_, ?_, ?_, h.natives⟩
  · intro o p hp
    rw [parent?_newEnv] at hp
    split at hp
    next heq =>
      cases hp
      exact heq ▸ hparent
    next => exact h.older o p hp
  · intro o n v hv
    rcases hcases (lt_of_at? hv) with rfl | ho
    · rw [hnew] at hv
      exact (hvars.values n v hv).mono hext
    · rw [hold n ho] at hv
      exact (h.values o n v hv).mono hext
  · intro o n v hv
    rcases hcases (lt_of_at? hv) with rfl | ho
    · rw [hnew] at hv
      rw [World.extend_self]
      exact hvars.allowed n v hv
    · rw [hold n ho] at hv
      rw [hW o ho]
      exact h.allowed o n v hv
  · intro o declares hlt horigin
    rcases hcases hlt with rfl | ho
    · rw [World.extend_self] at horigin
      rw [hnew]
      exact hvars.receiver declares horigin
    · rw [hW o ho] at horigin
      rw [hold _ ho]
      exact h.receiver o declares ho horigin
  · intro o declares hlt horigin
    rcases hcases hlt with rfl | ho
    · rw [World.extend_self] at horigin
      rw [hnew]
      exact hvars.superclass declares horigin
    · rw [hW o ho] at horigin
      rw [hold _ ho]
      exact h.superclass o declares ho horigin
  · exact fun i c hc => (h.functions i c hc).mono hext hW
  · exact fun i cls n c hcls hc => (h.methods i cls n c hcls hc).mono hext hW
  · exact fun i object n v ho hv => (h.fields i object n v ho hv).mono hext

end NewEnv

/-! ## New functions, classes and instances -/

theorem extends_newFunction (c : Closure) : st.Extends (st.newFunction c).2 where
  __ := Extends.refl st
  functions := by simp [newFunction]

theorem extends_newClass (cls : Class) : st.Extends (st.newClass cls).2 where
  __ := Extends.refl st
  classes := by simp [newClass]

theorem extends_newInstance (cls : Nat) : st.Extends (st.newInstance cls).2 where
  __ := Extends.refl st
  instances := by simp [newInstance]

theorem extends_setField (object : Nat) (name : Bytes) (v : Value) :
    st.Extends (st.setField object name v) where
  __ := Extends.refl st
  instances := by simp [setField]

theorem extends_tick (st : Store) : st.Extends st.tick where
  __ := Extends.refl st

theorem knows_newFunction (c : Closure) :
    (st.newFunction c).2.Knows (.function (st.newFunction c).1) := by
  simp [Knows, newFunction]

theorem knows_newClass (cls : Class) :
    (st.newClass cls).2.Knows (.classRef (st.newClass cls).1) := by
  simp [Knows, newClass]

theorem knows_newInstance (cls : Nat) :
    (st.newInstance cls).2.Knows (.objectRef (st.newInstance cls).1) := by
  simp [Knows, newInstance]

/-- A store with the same environments, in which all else that is new is in order. -/
theorem Sound.grow (h : Sound W R st) (hext : st.Extends st') (henvs : st'.envs = st.envs)
    (hnatives : st'.natives = st.natives)
    (hfunctions : ∀ (i : Nat) c, st'.functions[i]? = some c →
      st.functions[i]? = some c ∨ Runnable W R st c)
    (hclasses : ∀ (i : Nat) cls, st'.classes[i]? = some cls →
      st.classes[i]? = some cls ∨ ∀ n c, cls.own? n = some c → Bindable W R st c)
    (hinstances : ∀ (i : Nat) object n v, st'.instances[i]? = some object →
      object.fields.get? n = some v → st.Knows v) :
    Sound W R st' := by
  have hW := World.Agrees.refl W st.envs.size
  have hat : ∀ o n, st'.at? o n = st.at? o n := fun o n => by rw [at?, henvs, at?]
  have hparent : ∀ o, st'.parent? o = st.parent? o := fun o => by rw [parent?, henvs, parent?]
  refine ⟨h.root, henvs ▸ h.nonempty, ?_, ?_, ?_, ?_, ?_, ?_, ?_, ?_, ?_⟩
  · exact fun o p hp => h.older o p (hparent o ▸ hp)
  · exact fun o n v hv => (h.values o n v (hat o n ▸ hv)).mono hext
  · exact fun o n v hv => h.allowed o n v (hat o n ▸ hv)
  · intro o declares ho horigin
    rw [hat]
    exact h.receiver o declares (henvs ▸ ho) horigin
  · intro o declares ho horigin
    rw [hat]
    exact h.superclass o declares (henvs ▸ ho) horigin
  · intro i c hc
    rcases hfunctions i c hc with hold | hnew
    · exact (h.functions i c hold).mono hext hW
    · exact hnew.mono hext hW
  · intro i cls n c hcls hc
    rcases hclasses i cls hcls with hold | hnew
    · exact (h.methods i cls n c hold hc).mono hext hW
    · exact (hnew n c hc).mono hext hW
  · exact fun i object n v ho hv => (hinstances i object n v ho hv).mono hext
  · exact fun i native hnative => h.natives i native (hnatives ▸ hnative)

theorem Sound.newFunction (h : Sound W R st) (hc : Runnable W R st c) :
    Sound W R (st.newFunction c).2 := by
  refine h.grow (extends_newFunction c) rfl rfl ?_ (fun _ _ hcls => .inl hcls) h.fields
  intro i c' hc'
  rw [Store.newFunction, Array.getElem?_push] at hc'
  split at hc'
  next =>
    cases hc'
    exact .inr hc
  next => exact .inl hc'

theorem Sound.newClass (h : Sound W R st) {cls : Class}
    (hcls : ∀ n c, cls.own? n = some c → Bindable W R st c) :
    Sound W R (st.newClass cls).2 := by
  refine h.grow (extends_newClass cls) rfl rfl (fun _ _ hc => .inl hc) ?_ h.fields
  intro i cls' hcls'
  rw [Store.newClass, Array.getElem?_push] at hcls'
  split at hcls'
  next =>
    cases hcls'
    exact .inr hcls
  next => exact .inl hcls'

theorem Sound.newInstance (h : Sound W R st) (cls : Nat) :
    Sound W R (st.newInstance cls).2 := by
  refine h.grow (extends_newInstance cls) rfl rfl (fun _ _ hc => .inl hc)
    (fun _ _ hcls => .inl hcls) ?_
  intro i object n v hobject hv
  rw [Store.newInstance, Array.getElem?_push] at hobject
  split at hobject
  next =>
    cases hobject
    cases hv
  next => exact h.fields i object n v hobject hv

theorem Sound.setField (h : Sound W R st) (ref : Nat) (name : Bytes) {v : Value}
    (hv : st.Knows v) : Sound W R (st.setField ref name v) := by
  refine h.grow (extends_setField ref name v) rfl rfl (fun _ _ hc => .inl hc)
    (fun _ _ hcls => .inl hcls) ?_
  intro i object n w hobject hw
  rw [Store.setField, Array.getElem?_modify] at hobject
  split at hobject
  next =>
    obtain ⟨before, hbefore, rfl⟩ := Option.map_eq_some_iff.mp hobject
    rcases Bindings.get?_set_cases hw with ⟨rfl, rfl⟩ | hw
    · exact hv
    · exact h.fields i before n w hbefore hw
  next => exact h.fields i object n w hobject hw

theorem Sound.tick (h : Sound W R st) : Sound W R st.tick :=
  h.grow (extends_tick st) rfl rfl (fun _ _ hc => .inl hc) (fun _ _ hcls => .inl hcls) h.fields

/-! ## Binding methods -/

theorem furnished_receiver {object : Nat} (h : object < st.instances.size) :
    st.Furnished receiverLayer.origin
      (Bindings.empty.set (utf8 "this") (.objectRef object)) where
  values n v hv := by
    rcases Bindings.get?_set_cases hv with ⟨rfl, rfl⟩ | hnone
    · exact h
    · cases hnone
  allowed n v hv := by
    rcases Bindings.get?_set_cases hv with ⟨rfl, rfl⟩ | hnone
    · exact List.mem_singleton_self _
    · cases hnone
  receiver _ _ := ⟨object, Bindings.get?_set_self ..⟩
  superclass := nofun

theorem furnished_superclass {cls : Nat} (h : cls < st.classes.size) :
    st.Furnished superclassLayer.origin
      (Bindings.empty.set (utf8 "super") (.classRef cls)) where
  values n v hv := by
    rcases Bindings.get?_set_cases hv with ⟨rfl, rfl⟩ | hnone
    · exact h
    · cases hnone
  allowed n v hv := by
    rcases Bindings.get?_set_cases hv with ⟨rfl, rfl⟩ | hnone
    · exact List.mem_singleton_self _
    · cases hnone
  receiver := nofun
  superclass _ _ := ⟨cls, Bindings.get?_set_self ..⟩

/-- A new environment continues a chain. -/
theorem Chain.newEnv {base env : Nat} {Γ : List Layer} (h : Chain W st base Γ env)
    {layer : Layer} {vars : Bindings Value}
    (hnames : ∀ n, layer.names.get? n = some true → (vars.get? n).isSome)
    (hbase : layer.region = .module → st.envs.size = base) :
    Chain (W.extend st.envs.size layer.origin) (st.newEnv (some env) vars).2 base (layer :: Γ)
      st.envs.size := by
  refine (h.mono (extends_newEnv _ _) (W.agrees_extend _ _)).push ?_ (W.extend_self _ _) ?_
    hbase
  · rw [parent?_newEnv, if_pos rfl]
  · intro n hn
    rw [at?_newEnv, if_pos rfl]
    exact hnames n hn

theorem usable_singleton {keyword n : Bytes} {v : Value}
    (h : (Bindings.empty.set keyword true).get? n = some true) :
    ((Bindings.empty.set keyword v).get? n).isSome := by
  rcases Bindings.get?_set_cases h with ⟨rfl, _⟩ | hnone
  · rw [Bindings.get?_set_self]
    rfl
  · cases hnone

theorem Sound.bindMethod (h : Sound W R st) (hc : Bindable W R st c) {object : Nat}
    (hobject : object < st.instances.size) :
    ∃ W', W.Agrees W' st.envs.size ∧ Sound W' R (st.bindMethod c object).2 ∧
      Runnable W' R (st.bindMethod c object).2 (st.bindMethod c object).1 := by
  obtain ⟨base, Γ, hchain, hsites⟩ := hc
  refine ⟨W.extend st.envs.size receiverLayer.origin, W.agrees_extend _ _,
    h.newEnv (h.lt_of_chain hchain) (furnished_receiver hobject), base, receiverLayer :: Γ,
    hchain.newEnv (fun n => usable_singleton) nofun, hsites, fun _ => ?_⟩
  refine ⟨?_, [utf8 "this"], W.extend_self _ _⟩
  rw [Store.bindMethod, size_newEnv]
  exact Nat.lt_succ_self _

end Store

end LoxMachine
