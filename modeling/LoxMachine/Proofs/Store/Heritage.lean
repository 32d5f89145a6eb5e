import LoxMachine.Proofs.Grammar.Initializers
import LoxMachine.Proofs.Machine.Effects
import Mathlib.Logic.Relation

/-!
# Classes and the environments of their methods

A class knows the declaration it was made of by its methods: they are closures of one
environment, which binds `super` exactly if there is a superclass.  An environment that
binds `this` lies directly in the environment of such a method, and what it binds `this`
to is an instance of that class or of one below it.
-/

namespace LoxMachine

open Scope

/-- The last of some methods that has a name. -/
def lastNamed (methods : List Function) (name : Bytes) : Option Function :=
  methods.reverse.find? fun f => decide (f.name.text = name)

/-- What a class declares are the last methods of each name, as closures of `env`. -/
def Class.MadeOf (k : Class) (methods : List Function) (env : Nat) : Prop :=
  ∀ name, k.own? name = (lastNamed methods name).map fun f => ⟨f, env⟩

theorem lastNamed_cons (f : Function) (methods : List Function) (name : Bytes) :
    lastNamed (f :: methods) name =
      (lastNamed methods name).or (if f.name.text = name then some f else none) := by
  unfold lastNamed
  rw [List.reverse_cons, List.find?_append]
  by_cases h : f.name.text = name <;> simp [h]

/-- How methods are collected, the later ones in place of the earlier. -/
theorem collectMethods_eq {env : Nat} {methods : List Function} (h : Initializers methods)
    (init : Option Closure) (found : Bindings Closure) :
    (State.collectMethods env methods init found).1 =
        ((lastNamed methods (utf8 "init")).map fun f => ⟨f, env⟩).or init ∧
      ∀ name, (State.collectMethods env methods init found).2.get? name =
        if name = utf8 "init" then found.get? name
        else ((lastNamed methods name).map fun f => ⟨f, env⟩).or (found.get? name) := by
  induction methods generalizing init found with
  | nil => simp [State.collectMethods, lastNamed]
  | cons f methods ih =>
      have hrest : Initializers methods := fun g hg => h g (List.mem_cons_of_mem _ hg)
      have hkind := h f List.mem_cons_self
      rw [State.collectMethods]
      by_cases hinit : f.kind = .initializer
      · rw [if_pos hinit]
        obtain ⟨hfirst, hothers⟩ := ih hrest (some ⟨f, env⟩) found
        refine ⟨?_, fun name => ?_⟩
        · rw [hfirst, lastNamed_cons, if_pos (hkind.mp hinit)]
          cases lastNamed methods (utf8 "init") <;> rfl
        · rw [hothers name, lastNamed_cons]
          split
          · rfl
          · next hname =>
            rw [if_neg (hkind.mp hinit ▸ Ne.symm hname), Option.or_none]
      · rw [if_neg hinit]
        have hname := fun heq => hinit (hkind.mpr heq)
        obtain ⟨hfirst, hothers⟩ := ih hrest init (found.set f.name.text ⟨f, env⟩)
        refine ⟨?_, fun name => ?_⟩
        · rw [hfirst, lastNamed_cons, if_neg hname, Option.or_none]
        · rw [hothers name, lastNamed_cons]
          split
          · next heq =>
            subst heq
            exact Bindings.get?_set_ne _ (Ne.symm hname) _
          · by_cases heq : f.name.text = name
            · subst heq
              rw [Bindings.get?_set_self, if_pos rfl]
              cases lastNamed methods f.name.text <;> rfl
            · rw [Bindings.get?_set_ne _ (Ne.symm heq), if_neg heq, Option.or_none]

/-- The class of a declaration has the last methods of each name. -/
theorem madeOf_classOf {methods : List Function} (h : Initializers methods) (name : Bytes)
    (superclass : Option Nat) (env : Nat) :
    (State.classOf name superclass env methods).MadeOf methods env := by
  obtain ⟨hinit, hothers⟩ := @collectMethods_eq env methods h none Bindings.empty
  intro n
  unfold Class.own? State.classOf
  dsimp only
  rw [hinit, hothers n]
  split
  · next heq =>
    subst heq
    simp
  · simp

namespace Store

variable {D D' : List Function → Prop} {st st' : Store}

/-! ## Superclasses -/

/-- One class has the other as its superclass. -/
def Inherits (st : Store) (cls parent : Nat) : Prop :=
  ∃ k, st.classes[cls]? = some k ∧ k.superclass = some parent

/-- A class is another one or somewhere below it. -/
def Descends (st : Store) : Nat → Nat → Prop :=
  Relation.ReflTransGen st.Inherits

/-- A class and all classes above it, from the bottom up. -/
inductive Line (st : Store) : Nat → List Nat → Prop where
  | top {cls k} (hcls : st.classes[cls]? = some k) (hparent : k.superclass = none) :
      Line st cls [cls]
  | under {cls k parent rest} (hcls : st.classes[cls]? = some k)
      (hparent : k.superclass = some parent) (hrest : Line st parent rest) :
      Line st cls (cls :: rest)

/-- A class of the store has a line of classes above it. -/
theorem exists_line (horder : ∀ i parent, st.Inherits i parent → parent < i) {cls : Nat}
    (hcls : cls < st.classes.size) : ∃ line, st.Line cls line := by
  induction cls using Nat.strongRecOn with
  | ind cls ih =>
      have hk := Array.getElem?_eq_getElem hcls
      cases hparent : st.classes[cls].superclass with
      | none => exact ⟨_, .top hk hparent⟩
      | some parent =>
          have hlt := horder cls parent ⟨_, hk, hparent⟩
          obtain ⟨line, hline⟩ := ih parent hlt (Nat.lt_trans hlt hcls)
          exact ⟨_, .under hk hparent hline⟩

/-- A method that is found belongs to the class itself or to one above it. -/
theorem descends_of_method? {cls : Nat} {name : Bytes} {c : Closure}
    (h : st.method? cls name = some c) :
    ∃ i k, st.Descends cls i ∧ st.classes[i]? = some k ∧ k.own? name = some c := by
  have hsearch : ∀ steps cls, st.searchMethod name steps cls = some c →
      ∃ i k, st.Descends cls i ∧ st.classes[i]? = some k ∧ k.own? name = some c := by
    intro steps
    induction steps with
    | zero => nofun
    | succ steps ih =>
        intro cls hfound
        rw [searchMethod] at hfound
        split at hfound
        next => cases hfound
        next k hk =>
          split at hfound
          next m hm =>
            cases hfound
            exact ⟨cls, k, .refl, hk, hm⟩
          next =>
            split at hfound
            next parent hparent =>
              obtain ⟨i, k', hdescends, hfacts⟩ := ih parent hfound
              exact ⟨i, k', .head ⟨k, hk, hparent⟩ hdescends, hfacts⟩
            next => cases hfound
  exact hsearch (cls + 1) cls h

/-- The search for a method goes along the line of a class. -/
theorem method?_eq_findSome? {cls : Nat} {line : List Nat}
    (horder : ∀ i parent, st.Inherits i parent → parent < i) (h : st.Line cls line)
    (name : Bytes) :
    st.method? cls name = line.findSome? fun i => st.classes[i]?.bind fun k => k.own? name := by
  have hlength : line.length ≤ cls + 1 := by
    induction h with
    | top => exact Nat.succ_le_succ (Nat.zero_le _)
    | under hcls hparent _ ih =>
        have hlt := horder _ _ ⟨_, hcls, hparent⟩
        rw [List.length_cons]
        omega
  have hsearch : ∀ steps, line.length ≤ steps → st.searchMethod name steps cls =
      line.findSome? fun i => st.classes[i]?.bind fun k => k.own? name := by
    clear hlength
    induction h with
    | @top _ k hcls hparent =>
        intro steps hsteps
        obtain ⟨steps, rfl⟩ : ∃ m, steps = m + 1 := ⟨steps - 1, (Nat.sub_add_cancel hsteps).symm⟩
        rw [searchMethod]
        simp only [hcls, hparent, List.findSome?_cons, List.findSome?_nil, Option.bind_some]
        cases k.own? name <;> rfl
    | @under _ k _ _ hcls hparent hrest ih =>
        intro steps hsteps
        obtain ⟨steps, rfl⟩ : ∃ m, steps = m + 1 := ⟨steps - 1,
          (Nat.sub_add_cancel (Nat.le_trans (Nat.succ_le_succ (Nat.zero_le _)) hsteps)).symm⟩
        rw [searchMethod]
        simp only [hcls, hparent, List.findSome?_cons, Option.bind_some,
          ih steps (Nat.le_of_succ_le_succ hsteps)]
        cases k.own? name <;> rfl
  exact hsearch (cls + 1) hlength

/-! ## Where methods are -/

/-- A feature is where it was written: a `super` expression runs in a method that has it,
and a class is a known one. -/
def Written (D : List Function → Prop) (st : Store) (env : Nat) : Feature → Prop
  | .super e => ∀ t v, st.nearest? env (utf8 "this") = some (t, v) →
      ∃ (cls : Nat) (k : Class) (n : Bytes) (c : Closure), st.classes[cls]? = some k ∧
        k.own? n = some c ∧ .super e ∈ c.decl.features ∧ st.parent? t = some c.env
  | .cls methods => D methods

/-- An environment binds `this` to an instance, and lies in the environment of a method of
its class or of one above it. -/
def Receiver (st : Store) (t : Nat) (v : Value) : Prop :=
  ∃ object o cls k n c, v = .objectRef object ∧ st.instances[object]? = some o ∧
    st.Descends o.cls cls ∧ st.classes[cls]? = some k ∧ k.own? n = some c ∧
    st.parent? t = some c.env

/-- Code runs in environments that do not bind `super`. -/
def Ground (st : Store) (env : Nat) : Prop :=
  env < st.envs.size ∧ st.at? env (utf8 "super") = none

structure Heritage (D : List Function → Prop) (st : Store) : Prop where
  older : ∀ o p, st.parent? o = some p → p < o
  order : ∀ cls parent, st.Inherits cls parent → parent < cls
  made : ∀ (cls : Nat) k, st.classes[cls]? = some k → ∃ methods env, D methods ∧
    k.MadeOf methods env ∧ env < st.envs.size ∧
    st.at? env (utf8 "super") = k.superclass.map Value.classRef
  apart : ∀ (cls other : Nat) k k' n n' c c', st.classes[cls]? = some k →
    st.classes[other]? = some k' → k.own? n = some c → k'.own? n' = some c' →
    c'.env = c.env → k.superclass.isSome → other = cls
  instances : ∀ (object : Nat) o, st.instances[object]? = some o → o.cls < st.classes.size
  receivers : ∀ t v, st.at? t (utf8 "this") = some v → st.Receiver t v
  functions : ∀ (i : Nat) c, st.functions[i]? = some c → c.env < st.envs.size ∧
    ∀ x ∈ c.decl.features, Written D st c.env x
  globals : st.Ground Session.globals

/-! ## Later stores -/

/-- The store is a later one, in which nothing that methods depend on has changed. -/
structure Keeps (st st' : Store) : Prop where
  size : st.envs.size ≤ st'.envs.size
  keyword : ∀ o n, o < st.envs.size → ¬ Plain n → st'.at? o n = st.at? o n
  parent : ∀ o, o < st.envs.size → st'.parent? o = st.parent? o
  classes : ∀ (i : Nat) k, st.classes[i]? = some k → st'.classes[i]? = some k
  instances : ∀ (i : Nat) o, st.instances[i]? = some o →
    ∃ o', st'.instances[i]? = some o' ∧ o'.cls = o.cls

/-- What encloses an environment is older, so more steps do not reach further. -/
theorem search_eq_nearest? (holder : ∀ o p, st.parent? o = some p → p < o) {n : Bytes}
    {steps env : Nat} (h : env < steps) : st.search n steps env = st.nearest? env n := by
  have hsteps : ∀ steps more env, env < steps → env < more →
      st.search n steps env = st.search n more env := by
    intro steps
    induction steps with
    | zero => exact fun _ _ h => absurd h (Nat.not_lt_zero _)
    | succ steps ih =>
        intro more env hsteps hmore
        obtain ⟨more, rfl⟩ : ∃ m, more = m + 1 :=
          ⟨more - 1, (Nat.sub_add_cancel (Nat.lt_of_le_of_lt (Nat.zero_le _) hmore)).symm⟩
        rw [search_succ, search_succ]
        cases st.at? env n with
        | some v => rfl
        | none =>
            cases hparent : st.parent? env with
            | none => rfl
            | some p =>
                have hp := holder env p hparent
                exact ih more p (by omega) (by omega)
  exact hsteps steps (env + 1) env h (Nat.lt_succ_self env)

theorem not_plain_this : ¬ Plain (utf8 "this") := fun h => h.1 rfl

theorem not_plain_super : ¬ Plain (utf8 "super") := fun h => h.2 rfl

theorem Keeps.nearest? (h : st.Keeps st') (holder : ∀ o p, st.parent? o = some p → p < o)
    {env : Nat} (henv : env < st.envs.size) {n : Bytes} (hn : ¬ Plain n) :
    st'.nearest? env n = st.nearest? env n := by
  have hsearch : ∀ steps env, env < st.envs.size →
      st'.search n steps env = st.search n steps env := by
    intro steps
    induction steps with
    | zero => exact fun _ _ => rfl
    | succ steps ih =>
        intro env henv
        rw [search_succ, search_succ, h.keyword env n henv hn, h.parent env henv]
        cases st.at? env n with
        | some v => rfl
        | none =>
            cases hparent : st.parent? env with
            | none => rfl
            | some p => exact ih p (Nat.lt_trans (holder env p hparent) henv)
  exact hsearch (env + 1) env henv

theorem Keeps.descends (h : st.Keeps st') {cls above : Nat} (hd : st.Descends cls above) :
    st'.Descends cls above := by
  refine Relation.ReflTransGen.mono (fun i parent hparent => ?_) cls above hd
  obtain ⟨k, hk, hsuper⟩ := hparent
  exact ⟨k, h.classes i k hk, hsuper⟩

theorem Ground.mono {env : Nat} (h : st.Ground env) (hkeep : st.Keeps st') : st'.Ground env :=
  ⟨Nat.lt_of_lt_of_le h.1 hkeep.size, (hkeep.keyword env _ h.1 not_plain_super).trans h.2⟩

theorem Written.mono {env : Nat} {x : Feature} (h : Written D st env x) (hkeep : st.Keeps st')
    (holder : ∀ o p, st.parent? o = some p → p < o) (henv : env < st.envs.size) :
    Written D st' env x := by
  cases x with
  | super e =>
      intro t v hnearest
      rw [hkeep.nearest? holder henv not_plain_this] at hnearest
      obtain ⟨cls, k, n, c, hk, hc, he, hparent⟩ := h t v hnearest
      have ht := lt_of_parent? hparent
      exact ⟨cls, k, n, c, hkeep.classes cls k hk, hc, he, (hkeep.parent t ht).trans hparent⟩
  | cls methods => exact h

theorem Receiver.mono {t : Nat} {v : Value} (h : st.Receiver t v) (hkeep : st.Keeps st') :
    st'.Receiver t v := by
  obtain ⟨object, o, cls, k, n, c, hv, ho, hdescends, hk, hc, hparent⟩ := h
  obtain ⟨o', ho', hcls⟩ := hkeep.instances object o ho
  exact ⟨object, o', cls, k, n, c, hv, ho', hcls ▸ hkeep.descends hdescends,
    hkeep.classes cls k hk, hc, (hkeep.parent t (lt_of_parent? hparent)).trans hparent⟩

theorem Heritage.weaken (h : Heritage D st) (hD : ∀ methods, D methods → D' methods) :
    Heritage D' st := by
  refine { h with made := fun cls k hk => ?_, functions := fun i c hc => ?_ }
  · obtain ⟨methods, env, hmethods, hmade⟩ := h.made cls k hk
    exact ⟨methods, env, hD methods hmethods, hmade⟩
  · refine ⟨(h.functions i c hc).1, fun x hx => ?_⟩
    have hwritten := (h.functions i c hc).2 x hx
    cases x with
    | super e => exact hwritten
    | cls methods => exact hD methods hwritten

/-- A store without new classes, in which all else that is new is in order. -/
theorem Heritage.grow (h : Heritage D st) (hkeep : st.Keeps st')
    (hclasses : st'.classes = st.classes)
    (holder : ∀ o p, st.envs.size ≤ o → st'.parent? o = some p → p < o)
    (hinstances : ∀ (object : Nat) o, st'.instances[object]? = some o →
      o.cls < st.classes.size)
    (hreceivers : ∀ t v, st.envs.size ≤ t → st'.at? t (utf8 "this") = some v →
      st'.Receiver t v)
    (hfunctions : ∀ (i : Nat) c, st'.functions[i]? = some c → st.functions[i]? = some c ∨
      c.env < st'.envs.size ∧ ∀ x ∈ c.decl.features, Written D st' c.env x) :
    Heritage D st' := by
  refine ⟨?_, ?_, ?_, ?_, ?_, ?_, ?_, h.globals.mono hkeep⟩
  · intro o p hp
    rcases Nat.lt_or_ge o st.envs.size with ho | ho
    · exact h.older o p (hkeep.parent o ho ▸ hp)
    · exact holder o p ho hp
  · rintro cls parent ⟨k, hk, hparent⟩
    exact h.order cls parent ⟨k, hclasses ▸ hk, hparent⟩
  · intro cls k hk
    obtain ⟨methods, env, hmethods, hmade, henv, hsuper⟩ := h.made cls k (hclasses ▸ hk)
    exact ⟨methods, env, hmethods, hmade, Nat.lt_of_lt_of_le henv hkeep.size,
      (hkeep.keyword env _ henv not_plain_super).trans hsuper⟩
  · rw [hclasses]
    exact h.apart
  · rw [hclasses]
    exact hinstances
  · intro t v hv
    rcases Nat.lt_or_ge t st.envs.size with ht | ht
    · rw [hkeep.keyword t _ ht not_plain_this] at hv
      exact (h.receivers t v hv).mono hkeep
    · exact hreceivers t v ht hv
  · intro i c hc
    rcases hfunctions i c hc with hold | hnew
    · obtain ⟨henv, hwritten⟩ := h.functions i c hold
      exact ⟨Nat.lt_of_lt_of_le henv hkeep.size,
        fun x hx => (hwritten x hx).mono hkeep h.older henv⟩
    · exact hnew

/-! ## Operations -/

section Define

variable {env : Nat} {name : Bytes} {v : Value}

theorem keeps_define (hname : Plain name) : st.Keeps (st.define env name v) where
  size := Nat.le_of_eq size_define.symm
  keyword o n ho hn := by
    by_cases heq : o = env
    · subst heq
      have hne : n ≠ name := fun heq => hn (heq ▸ hname)
      rw [at?_define ho, if_neg (not_and_of_not_right _ hne)]
    · exact at?_define_ne heq n
  parent o _ := parent?_define o
  classes _ _ hk := hk
  instances _ o ho := ⟨o, ho, rfl⟩

theorem Heritage.define (h : Heritage D st) (hname : Plain name) :
    Heritage D (st.define env name v) := by
  have hlt : ∀ {o}, st.envs.size ≤ o → ¬ o < (st.define env name v).envs.size := by
    intro o ho
    rw [size_define]
    exact Nat.not_lt_of_le ho
  refine h.grow (keeps_define hname) rfl ?_ h.instances ?_ fun _ _ hc => .inl hc
  · exact fun o p ho hp => absurd (lt_of_parent? hp) (hlt ho)
  · exact fun t w ht hw => absurd (lt_of_at? hw) (hlt ht)

end Define

section NewEnv

variable {parent : Nat} {vars : Bindings Value}

theorem keeps_newEnv (parent : Option Nat) (vars : Bindings Value) :
    st.Keeps (st.newEnv parent vars).2 where
  size := (extends_newEnv parent vars).size
  keyword o n ho _ := at?_newEnv_lt ho parent vars n
  parent o ho := by rw [parent?_newEnv, if_neg (Nat.ne_of_lt ho)]
  classes _ _ hk := hk
  instances _ o ho := ⟨o, ho, rfl⟩

/-- The only new environment. -/
theorem eq_of_newEnv {o : Nat} (ho : st.envs.size ≤ o)
    (hlt : o < (st.newEnv (some parent) vars).2.envs.size) : o = st.envs.size := by
  rw [size_newEnv] at hlt
  exact Nat.le_antisymm (Nat.le_of_lt_succ hlt) ho

theorem Heritage.newEnv (h : Heritage D st) (hparent : parent < st.envs.size)
    (hvars : ∀ v, vars.get? (utf8 "this") = some v →
      (st.newEnv (some parent) vars).2.Receiver st.envs.size v) :
    Heritage D (st.newEnv (some parent) vars).2 := by
  refine h.grow (keeps_newEnv _ _) rfl ?_ h.instances ?_ fun _ _ hc => .inl hc
  · intro o p ho hp
    obtain rfl := eq_of_newEnv ho (lt_of_parent? hp)
    rw [parent?_newEnv, if_pos rfl] at hp
    cases hp
    exact hparent
  · intro t v ht hv
    obtain rfl := eq_of_newEnv ht (lt_of_at? hv)
    rw [at?_newEnv, if_pos rfl] at hv
    exact hvars v hv

/-- An environment for code, which binds neither keyword. -/
theorem ground_newEnv (hvars : vars.get? (utf8 "super") = none) :
    (st.newEnv (some parent) vars).2.Ground st.envs.size := by
  refine ⟨?_, ?_⟩
  · rw [size_newEnv]
    exact Nat.lt_succ_self _
  · rw [at?_newEnv, if_pos rfl]
    exact hvars

/-- What is written around an environment is written in it, unless it binds `this`. -/
theorem Written.inner {env : Nat} {x : Feature} (h : Written D st parent x)
    (holder : ∀ o p, st.parent? o = some p → p < o) (hparent : st.parent? env = some parent)
    (hthis : st.at? env (utf8 "this") = none) : Written D st env x := by
  cases x with
  | super e =>
      intro t v hnearest
      apply h t v
      rw [Store.nearest?, search_succ, hthis, hparent, Option.bind_some,
        search_eq_nearest? holder (holder env parent hparent)] at hnearest
      exact hnearest
  | cls methods => exact h

/-- What was written around a new environment is written in it. -/
theorem Written.newEnv {x : Feature} (h : Written D st parent x) (hst : Heritage D st)
    (hparent : parent < st.envs.size) (hvars : vars.get? (utf8 "this") = none) :
    Written D (st.newEnv (some parent) vars).2 st.envs.size x := by
  have hnew : Heritage D (st.newEnv (some parent) vars).2 := by
    refine hst.newEnv hparent fun v hv => ?_
    rw [hvars] at hv
    cases hv
  refine (h.mono (keeps_newEnv (some parent) vars) hst.older hparent).inner hnew.older ?_ ?_
  · rw [parent?_newEnv, if_pos rfl]
  · rw [at?_newEnv, if_pos rfl]
    exact hvars

end NewEnv

theorem keeps_refl (st : Store) : st.Keeps st where
  size := Nat.le_refl _
  keyword _ _ _ _ := rfl
  parent _ _ := rfl
  classes _ _ hk := hk
  instances _ o ho := ⟨o, ho, rfl⟩

theorem Keeps.trans {a b c : Store} (h : a.Keeps b) (h' : b.Keeps c) : a.Keeps c where
  size := Nat.le_trans h.size h'.size
  keyword o n ho hn :=
    (h'.keyword o n (Nat.lt_of_lt_of_le ho h.size) hn).trans (h.keyword o n ho hn)
  parent o ho := (h'.parent o (Nat.lt_of_lt_of_le ho h.size)).trans (h.parent o ho)
  classes i k hk := h'.classes i k (h.classes i k hk)
  instances i o ho := by
    obtain ⟨o', ho', hcls⟩ := h.instances i o ho
    obtain ⟨o'', ho'', hcls'⟩ := h'.instances i o' ho'
    exact ⟨o'', ho'', hcls'.trans hcls⟩

/-- An element of a longer array is an old one or the new one. -/
theorem getElem?_push_cases {α : Type} {xs : Array α} {x y : α} {i : Nat}
    (h : (xs.push x)[i]? = some y) : xs[i]? = some y ∨ i = xs.size ∧ y = x := by
  rw [Array.getElem?_push] at h
  split at h
  next heq =>
    cases h
    exact .inr ⟨heq, rfl⟩
  next => exact .inl h

theorem getElem?_push_lt {α : Type} {xs : Array α} {x y : α} {i : Nat} (h : xs[i]? = some y) :
    (xs.push x)[i]? = some y := by
  have hlt := (Array.getElem?_eq_some_iff.mp h).1
  rw [Array.getElem?_push, if_neg (Nat.ne_of_lt hlt), h]

theorem keeps_newFunction (c : Closure) : st.Keeps (st.newFunction c).2 where
  __ := keeps_refl st

theorem Heritage.newFunction (h : Heritage D st) {c : Closure} (henv : c.env < st.envs.size)
    (hc : ∀ x ∈ c.decl.features, Written D st c.env x) : Heritage D (st.newFunction c).2 := by
  refine h.grow (keeps_newFunction c) rfl ?_ h.instances ?_ ?_
  · exact fun o p ho hp => absurd (lt_of_parent? hp) (Nat.not_lt_of_le ho)
  · exact fun t v ht hv => absurd (lt_of_at? hv) (Nat.not_lt_of_le ht)
  · intro i c' hc'
    rcases getElem?_push_cases hc' with hold | ⟨_, rfl⟩
    · exact .inl hold
    · exact .inr ⟨henv, fun x hx => (hc x hx).mono (keeps_newFunction _) h.older henv⟩

theorem keeps_newInstance (cls : Nat) : st.Keeps (st.newInstance cls).2 where
  __ := keeps_refl st
  instances _ o ho := ⟨o, getElem?_push_lt ho, rfl⟩

theorem Heritage.newInstance (h : Heritage D st) {cls : Nat} (hcls : cls < st.classes.size) :
    Heritage D (st.newInstance cls).2 := by
  refine h.grow (keeps_newInstance cls) rfl ?_ ?_ ?_ fun _ _ hc => .inl hc
  · exact fun o p ho hp => absurd (lt_of_parent? hp) (Nat.not_lt_of_le ho)
  · intro object o ho
    rcases getElem?_push_cases ho with hold | ⟨_, rfl⟩
    · exact h.instances object o hold
    · exact hcls
  · exact fun t v ht hv => absurd (lt_of_at? hv) (Nat.not_lt_of_le ht)

theorem keeps_setField (object : Nat) (name : Bytes) (v : Value) :
    st.Keeps (st.setField object name v) where
  __ := keeps_refl st
  instances i o ho := by
    rw [setField, Array.getElem?_modify, ho]
    split
    · exact ⟨_, rfl, rfl⟩
    · exact ⟨o, rfl, rfl⟩

theorem Heritage.setField (h : Heritage D st) (object : Nat) (name : Bytes) (v : Value) :
    Heritage D (st.setField object name v) := by
  refine h.grow (keeps_setField object name v) rfl ?_ ?_ ?_ fun _ _ hc => .inl hc
  · exact fun o p ho hp => absurd (lt_of_parent? hp) (Nat.not_lt_of_le ho)
  · intro i o ho
    rw [Store.setField, Array.getElem?_modify] at ho
    split at ho
    next =>
      obtain ⟨before, hbefore, rfl⟩ := Option.map_eq_some_iff.mp ho
      exact h.instances i before hbefore
    next => exact h.instances i o ho
  · exact fun t w ht hw => absurd (lt_of_at? hw) (Nat.not_lt_of_le ht)

theorem keeps_tick (st : Store) : st.Keeps st.tick where
  __ := keeps_refl st

theorem Heritage.tick (h : Heritage D st) : Heritage D st.tick := by
  refine h.grow (keeps_tick st) rfl ?_ h.instances ?_ fun _ _ hc => .inl hc
  · exact fun o p ho hp => absurd (lt_of_parent? hp) (Nat.not_lt_of_le ho)
  · exact fun t w ht hw => absurd (lt_of_at? hw) (Nat.not_lt_of_le ht)

/-! ## Methods of an instance -/

theorem keeps_bindMethod (c : Closure) (object : Nat) :
    st.Keeps (st.bindMethod c object).2 :=
  keeps_newEnv _ _

section Bind

variable {object cls : Nat} {o : Instance} {k : Class} {n : Bytes} {c : Closure}

/-- A method that is bound to an instance of its class or of one below it. -/
theorem Heritage.bindMethod (h : Heritage D st) (ho : st.instances[object]? = some o)
    (hdescends : st.Descends o.cls cls) (hk : st.classes[cls]? = some k)
    (hc : k.own? n = some c) : Heritage D (st.bindMethod c object).2 := by
  obtain ⟨methods, env, _, hmade, henv, _⟩ := h.made cls k hk
  obtain ⟨f, _, rfl⟩ := Option.map_eq_some_iff.mp ((hmade n).symm.trans hc)
  refine h.newEnv henv fun v hv => ?_
  rcases Bindings.get?_set_cases hv with ⟨_, rfl⟩ | hnone
  · refine ⟨object, o, cls, k, n, ⟨f, env⟩, rfl, ho, ?_, hk, hc, ?_⟩
    · exact (keeps_newEnv _ _).descends hdescends
    · rw [parent?_newEnv, if_pos rfl]
  · cases hnone

/-- All of a method is written in the environment of its receiver. -/
theorem written_bindMethod (hknown : ∀ methods, .cls methods ∈ c.decl.features → D methods)
    (hk : st.classes[cls]? = some k) (hc : k.own? n = some c) (x : Feature)
    (hx : x ∈ c.decl.features) :
    Written D (st.bindMethod c object).2 st.envs.size x := by
  cases x with
  | super e =>
      intro t v hnearest
      have hthis : (st.bindMethod c object).2.at? st.envs.size (utf8 "this") =
          some (.objectRef object) := by
        rw [bindMethod, at?_newEnv, if_pos rfl]
        exact Bindings.get?_set_self ..
      rw [Store.nearest?, search_succ, hthis] at hnearest
      cases hnearest
      refine ⟨cls, k, n, c, hk, hc, hx, ?_⟩
      rw [bindMethod, parent?_newEnv, if_pos rfl]
  | cls methods => exact hknown methods hx

end Bind

/-! ## New classes -/

theorem keeps_newClass (k : Class) : st.Keeps (st.newClass k).2 where
  __ := keeps_refl st
  classes _ _ hk := getElem?_push_lt hk

theorem Heritage.newClass (h : Heritage D st) {k : Class} {methods : List Function} {env : Nat}
    (hmethods : D methods) (hmade : k.MadeOf methods env) (henv : env < st.envs.size)
    (hsuper : st.at? env (utf8 "super") = k.superclass.map Value.classRef)
    (hparent : ∀ parent, k.superclass = some parent → parent < st.classes.size)
    (hfresh : k.superclass.isSome → ∀ (i : Nat) k' n c, st.classes[i]? = some k' →
      k'.own? n = some c → c.env ≠ env) : Heritage D (st.newClass k).2 := by
  have hkeep : st.Keeps (st.newClass k).2 := keeps_newClass k
  have hown : ∀ {n c}, k.own? n = some c → c.env = env := by
    intro n c hc
    obtain ⟨f, _, rfl⟩ := Option.map_eq_some_iff.mp ((hmade n).symm.trans hc)
    rfl
  refine ⟨h.older, ?_, ?_, ?_, ?_, ?_, ?_, h.globals.mono hkeep⟩
  · rintro cls parent ⟨k', hk', hsuperclass⟩
    rcases getElem?_push_cases hk' with hold | ⟨rfl, rfl⟩
    · exact h.order cls parent ⟨k', hold, hsuperclass⟩
    · exact hparent parent hsuperclass
  · intro cls k' hk'
    rcases getElem?_push_cases hk' with hold | ⟨_, rfl⟩
    · exact h.made cls k' hold
    · exact ⟨methods, env, hmethods, hmade, henv, hsuper⟩
  · intro i j a b n n' c c' ha hb hc hc' heq hsome
    rcases getElem?_push_cases ha with hold | ⟨rfl, rfl⟩
    · rcases getElem?_push_cases hb with hold' | ⟨rfl, rfl⟩
      · exact h.apart i j a b n n' c c' hold hold' hc hc' heq hsome
      · -- An older class with a superclass has its methods in another environment.
        exfalso
        obtain ⟨_, env', _, hmade', _, hsuper'⟩ := h.made i a hold
        obtain ⟨f, _, rfl⟩ := Option.map_eq_some_iff.mp ((hmade' n).symm.trans hc)
        obtain rfl : env' = env := heq.symm.trans (hown hc')
        rw [hsuper'] at hsuper
        obtain ⟨parent, hparent'⟩ := Option.isSome_iff_exists.mp hsome
        rw [hparent'] at hsuper
        have hsome' : b.superclass.isSome := by
          cases hb' : b.superclass with
          | none =>
              rw [hb'] at hsuper
              cases hsuper
          | some _ => rfl
        exact hfresh hsome' i a n _ hold hc rfl
    · rcases getElem?_push_cases hb with hold' | ⟨rfl, _⟩
      · exact absurd (heq.trans (hown hc)) (hfresh hsome j b n' c' hold' hc')
      · rfl
  · intro object o ho
    have hlt := h.instances object o ho
    simp only [Store.newClass, Array.size_push]
    exact Nat.lt_succ_of_lt hlt
  · exact fun t v hv => (h.receivers t v hv).mono hkeep
  · intro i c hc
    obtain ⟨hlt, hwritten⟩ := h.functions i c hc
    exact ⟨hlt, fun x hx => (hwritten x hx).mono hkeep h.older hlt⟩

end Store

end LoxMachine
