import LoxMachine.Proofs.Renaming.Alike
import LoxMachine.Proofs.Store.Environments

/-!
# Twin stores

Two stores are twins if they hold the same objects in the same places, with the names
`x` and `y` exchanged in some environments, and code that is alike.
-/

namespace LoxMachine.Renaming

open Store

/-! ## Marked environments -/

/-- Which environments have their names exchanged. -/
def Marked : Type := Nat → Bool

def Marked.extend (Z : Marked) (env : Nat) (marked : Bool) : Marked :=
  fun o => if o = env then marked else Z o

/-- The later store has the same environments around the old ones. -/
structure Prolongs (st later : Store) : Prop where
  size : st.envs.size ≤ later.envs.size
  parent : ∀ o < st.envs.size, later.parent? o = st.parent? o

/-- From `env` outwards the marked environments are those that the marks say. -/
def Along (Z : Marked) (st : Store) (env : Nat) (marks : List Bool) : Prop :=
  env < st.envs.size ∧ ∀ k o, st.climb k env = some o → Z o = markAt marks k

/-- Whatever encloses an environment is older. -/
def Ordered (st : Store) : Prop :=
  ∀ o p, st.parent? o = some p → p < o

variable {Z Z' : Marked} {st st' later later' : Store} {env : Nat} {marks : List Bool}

theorem Ordered.climb_le (h : Ordered st) {k o : Nat} (hclimb : st.climb k env = some o) :
    o ≤ env := by
  induction k generalizing env with
  | zero =>
      cases hclimb
      exact Nat.le_refl _
  | succ k ih =>
      rw [climb_succ] at hclimb
      obtain ⟨parent, hparent, hrest⟩ := Option.bind_eq_some_iff.mp hclimb
      exact Nat.le_trans (ih hrest) (Nat.le_of_lt (h env parent hparent))

theorem Prolongs.climb_eq (h : Prolongs st later) (hordered : Ordered st)
    (henv : env < st.envs.size) (k : Nat) : later.climb k env = st.climb k env := by
  induction k generalizing env with
  | zero => rfl
  | succ k ih =>
      rw [climb_succ, climb_succ, h.parent env henv]
      refine Option.bind_congr fun parent hparent => ?_
      exact ih (Nat.lt_trans (hordered env parent hparent) henv)

theorem Along.mono (h : Along Z st env marks) (hlater : Prolongs st later)
    (hordered : Ordered st) (hZ : ∀ o < st.envs.size, Z' o = Z o) :
    Along Z' later env marks := by
  obtain ⟨henv, hmarks⟩ := h
  refine ⟨Nat.lt_of_lt_of_le henv hlater.size, fun k o hclimb => ?_⟩
  rw [hlater.climb_eq hordered henv] at hclimb
  rw [hZ o (Nat.lt_of_le_of_lt (hordered.climb_le hclimb) henv)]
  exact hmarks k o hclimb

theorem Along.head (h : Along Z st env marks) : Z env = markAt marks 0 :=
  h.2 0 env rfl

/-! ## New environments and marks -/

theorem prolongs_newEnv (parent : Option Nat) (vars : Bindings Value) :
    Prolongs st (st.newEnv parent vars).2 where
  size := by
    rw [size_newEnv]
    exact Nat.le_succ _
  parent o ho := by rw [parent?_newEnv, if_neg (Nat.ne_of_lt ho)]

theorem Marked.extend_of_lt (Z : Marked) {size o : Nat} (marked : Bool) (ho : o < size) :
    Z.extend size marked o = Z o :=
  if_neg (Nat.ne_of_lt ho)

theorem Along.newEnv (h : Along Z st env marks) (hordered : Ordered st) (marked : Bool)
    (vars : Bindings Value) :
    Along (Z.extend st.envs.size marked) (st.newEnv (some env) vars).2 st.envs.size
      (marked :: marks) := by
  refine ⟨?_, fun k o hclimb => ?_⟩
  · rw [size_newEnv]
    exact Nat.lt_succ_self _
  · cases k with
    | zero =>
        cases hclimb
        exact if_pos rfl
    | succ k =>
        rw [climb_succ, parent?_newEnv, if_pos rfl] at hclimb
        exact (h.mono (prolongs_newEnv _ _) hordered fun o => Z.extend_of_lt marked).2 k o hclimb

/-! ## Twins -/

section Twins

variable (D : Depths) (x y : Bytes) (Z : Marked) (st : Store)

def TwinClosure (c c' : Closure) : Prop :=
  c'.env = c.env ∧ ∃ marks, Along Z st c.env marks ∧ AlikeFunction D x y marks c.decl c'.decl

/-- Methods, which run inside one more scope than they were declared in. -/
def TwinMethod (c c' : Closure) : Prop :=
  c'.env = c.env ∧ ∃ marks, Along Z st c.env marks ∧
    AlikeFunction D x y (false :: marks) c.decl c'.decl

structure TwinClass (cls cls' : Class) : Prop where
  name : cls'.name = cls.name
  superclass : cls'.superclass = cls.superclass
  own : ∀ n, Option.Rel (TwinMethod D x y Z st) (cls.own? n) (cls'.own? n)

structure Twin (st' : Store) : Prop where
  size : st'.envs.size = st.envs.size
  parent : ∀ o, st'.parent? o = st.parent? o
  ordered : Ordered st
  vars : ∀ o n, st'.at? o (turn x y (Z o) n) = st.at? o n
  functionCount : st'.functions.size = st.functions.size
  functions : ∀ i : Nat, Option.Rel (TwinClosure D x y Z st) st.functions[i]? st'.functions[i]?
  classCount : st'.classes.size = st.classes.size
  classes : ∀ i : Nat, Option.Rel (TwinClass D x y Z st) st.classes[i]? st'.classes[i]?
  instances : st'.instances = st.instances
  natives : st'.natives = st.natives
  clock : st'.clock = st.clock

end Twins

variable {D : Depths} {x y : Bytes} {c c' : Closure} {cls cls' : Class}

theorem rel_mono {α β : Type} {R S : α → β → Prop} (hRS : ∀ a b, R a b → S a b) {a : Option α}
    {b : Option β} (h : Option.Rel R a b) : Option.Rel S a b := by
  cases h with
  | some h => exact .some (hRS _ _ h)
  | none => exact .none

theorem rel_cases {α β : Type} {R : α → β → Prop} {a : Option α} {b : Option β}
    (h : Option.Rel R a b) :
    a = none ∧ b = none ∨ ∃ u v, a = some u ∧ b = some v ∧ R u v := by
  cases h with
  | some h => exact .inr ⟨_, _, rfl, rfl, h⟩
  | none => exact .inl ⟨rfl, rfl⟩

theorem TwinClosure.mono (h : TwinClosure D x y Z st c c') (hlater : Prolongs st later)
    (hordered : Ordered st) (hZ : ∀ o < st.envs.size, Z' o = Z o) :
    TwinClosure D x y Z' later c c' := by
  obtain ⟨henv, marks, halong, halike⟩ := h
  exact ⟨henv, marks, halong.mono hlater hordered hZ, halike⟩

theorem TwinMethod.mono (h : TwinMethod D x y Z st c c') (hlater : Prolongs st later)
    (hordered : Ordered st) (hZ : ∀ o < st.envs.size, Z' o = Z o) :
    TwinMethod D x y Z' later c c' := by
  obtain ⟨henv, marks, halong, halike⟩ := h
  exact ⟨henv, marks, halong.mono hlater hordered hZ, halike⟩

theorem TwinClass.mono (h : TwinClass D x y Z st cls cls') (hlater : Prolongs st later)
    (hordered : Ordered st) (hZ : ∀ o < st.envs.size, Z' o = Z o) :
    TwinClass D x y Z' later cls cls' :=
  ⟨h.name, h.superclass, fun n =>
    rel_mono (fun _ _ hmethod => hmethod.mono hlater hordered hZ) (h.own n)⟩

/-- Functions and classes stay twins when environments are added. -/
theorem Twin.functions_mono (h : Twin D x y Z st st') (hlater : Prolongs st later)
    (hZ : ∀ o < st.envs.size, Z' o = Z o) (i : Nat) :
    Option.Rel (TwinClosure D x y Z' later) st.functions[i]? st'.functions[i]? :=
  rel_mono (fun _ _ hc => hc.mono hlater h.ordered hZ) (h.functions i)

theorem Twin.classes_mono (h : Twin D x y Z st st') (hlater : Prolongs st later)
    (hZ : ∀ o < st.envs.size, Z' o = Z o) (i : Nat) :
    Option.Rel (TwinClass D x y Z' later) st.classes[i]? st'.classes[i]? :=
  rel_mono (fun _ _ hcls => hcls.mono hlater h.ordered hZ) (h.classes i)

/-! ## Operations on twins -/

theorem prolongs_define (name : Bytes) (v : Value) : Prolongs st (st.define env name v) :=
  ⟨Nat.le_of_eq size_define.symm, fun _ _ => parent?_define _⟩

theorem Twin.define (h : Twin D x y Z st st') (henv : env < st.envs.size) (name : Bytes)
    (v : Value) :
    Twin D x y Z (st.define env name v) (st'.define env (turn x y (Z env) name) v) where
  size := by rw [size_define, size_define, h.size]
  parent o := by rw [parent?_define, parent?_define, h.parent]
  ordered o p hp := h.ordered o p (by rwa [parent?_define] at hp)
  vars o n := by
    rw [at?_define henv, at?_define (h.size ▸ henv), h.vars]
    by_cases ho : o = env
    · subst ho
      simp only [true_and, turn_eq_iff]
    · simp only [ho, false_and, if_false]
  functionCount := h.functionCount
  functions := h.functions_mono (prolongs_define name v) fun _ _ => rfl
  classCount := h.classCount
  classes := h.classes_mono (prolongs_define name v) fun _ _ => rfl
  instances := h.instances
  natives := h.natives
  clock := h.clock

theorem Twin.newEnv (h : Twin D x y Z st st') (henv : env < st.envs.size) (marked : Bool)
    {vars vars' : Bindings Value} (hvars : ∀ n, vars'.get? (turn x y marked n) = vars.get? n) :
    Twin D x y (Z.extend st.envs.size marked) (st.newEnv (some env) vars).2
      (st'.newEnv (some env) vars').2 where
  size := by rw [size_newEnv, size_newEnv, h.size]
  parent o := by rw [parent?_newEnv, parent?_newEnv, h.size, h.parent]
  ordered o p hp := by
    rw [parent?_newEnv] at hp
    split at hp
    next heq =>
      cases hp
      exact heq ▸ henv
    next => exact h.ordered o p hp
  vars o n := by
    rw [at?_newEnv, at?_newEnv, h.size]
    by_cases ho : o = st.envs.size
    · rw [if_pos ho, if_pos ho, Marked.extend, if_pos ho, hvars]
    · rw [if_neg ho, if_neg ho, Marked.extend, if_neg ho, h.vars]
  functionCount := h.functionCount
  functions := h.functions_mono (prolongs_newEnv _ _) fun o => Z.extend_of_lt marked
  classCount := h.classCount
  classes := h.classes_mono (prolongs_newEnv _ _) fun o => Z.extend_of_lt marked
  instances := h.instances
  natives := h.natives
  clock := h.clock

/-- A store with the same environments is later in no way. -/
theorem prolongs_of_envs (henvs : later.envs = st.envs) : Prolongs st later :=
  ⟨Nat.le_of_eq (congrArg Array.size henvs.symm), fun o _ => by rw [parent?, henvs, parent?]⟩

/-- Twins to which functions, classes and instances are added stay twins. -/
theorem Twin.grow (h : Twin D x y Z st st') (henvs : later.envs = st.envs)
    (henvs' : later'.envs = st'.envs) (hfunctionCount : later'.functions.size = later.functions.size)
    (hfunctions : ∀ i : Nat,
      Option.Rel (TwinClosure D x y Z st) later.functions[i]? later'.functions[i]?)
    (hclassCount : later'.classes.size = later.classes.size)
    (hclasses : ∀ i : Nat,
      Option.Rel (TwinClass D x y Z st) later.classes[i]? later'.classes[i]?)
    (hinstances : later'.instances = later.instances) (hnatives : later'.natives = later.natives)
    (hclock : later'.clock = later.clock) : Twin D x y Z later later' where
  size := by rw [henvs, henvs', h.size]
  parent o := by
    rw [parent?, henvs', parent?, henvs]
    exact h.parent o
  ordered o p hp := h.ordered o p (by rwa [parent?, henvs] at hp)
  vars o n := by
    rw [at?, henvs', at?, henvs]
    exact h.vars o n
  functionCount := hfunctionCount
  functions i := rel_mono (fun _ _ hc =>
    hc.mono (prolongs_of_envs henvs) h.ordered fun _ _ => rfl) (hfunctions i)
  classCount := hclassCount
  classes i := rel_mono (fun _ _ hcls =>
    hcls.mono (prolongs_of_envs henvs) h.ordered fun _ _ => rfl) (hclasses i)
  instances := hinstances
  natives := hnatives
  clock := hclock

/-- Related elements pushed on related arrays. -/
theorem rel_push {α : Type} {R : α → α → Prop} {as bs : Array α} {a b : α}
    (hsize : bs.size = as.size) (h : ∀ i : Nat, Option.Rel R as[i]? bs[i]?) (hab : R a b)
    (i : Nat) : Option.Rel R (as.push a)[i]? (bs.push b)[i]? := by
  rw [Array.getElem?_push, Array.getElem?_push, hsize]
  split
  · exact .some hab
  · exact h i

theorem Twin.newFunction (h : Twin D x y Z st st') (hc : TwinClosure D x y Z st c c') :
    Twin D x y Z (st.newFunction c).2 (st'.newFunction c').2 := by
  refine h.grow rfl rfl ?_ (rel_push h.functionCount h.functions hc) h.classCount h.classes
    h.instances h.natives h.clock
  simp [Store.newFunction, h.functionCount]

theorem Twin.newClass (h : Twin D x y Z st st') (hcls : TwinClass D x y Z st cls cls') :
    Twin D x y Z (st.newClass cls).2 (st'.newClass cls').2 := by
  refine h.grow rfl rfl h.functionCount h.functions ?_
    (rel_push h.classCount h.classes hcls) h.instances h.natives h.clock
  simp [Store.newClass, h.classCount]

theorem Twin.newInstance (h : Twin D x y Z st st') (ref : Nat) :
    Twin D x y Z (st.newInstance ref).2 (st'.newInstance ref).2 := by
  refine h.grow rfl rfl h.functionCount h.functions h.classCount h.classes ?_ h.natives
    h.clock
  simp only [Store.newInstance, h.instances]

theorem Twin.setField (h : Twin D x y Z st st') (object : Nat) (name : Bytes) (v : Value) :
    Twin D x y Z (st.setField object name v) (st'.setField object name v) := by
  refine h.grow rfl rfl h.functionCount h.functions h.classCount h.classes ?_ h.natives
    h.clock
  simp only [Store.setField, h.instances]

theorem Twin.tick (h : Twin D x y Z st st') : Twin D x y Z st.tick st'.tick :=
  h.grow rfl rfl h.functionCount h.functions h.classCount h.classes h.instances h.natives
    (congrArg (Clock.after · 1) h.clock)

/-- A method bound to an instance: the environment made for it is not marked. -/
theorem Twin.bindMethod (h : Twin D x y Z st st') (hc : TwinMethod D x y Z st c c')
    (object : Nat) :
    Twin D x y (Z.extend st.envs.size false) (st.bindMethod c object).2
        (st'.bindMethod c' object).2 ∧
      TwinClosure D x y (Z.extend st.envs.size false) (st.bindMethod c object).2
        (st.bindMethod c object).1 (st'.bindMethod c' object).1 := by
  obtain ⟨henv, marks, halong, halike⟩ := hc
  unfold Store.bindMethod
  rw [henv]
  refine ⟨h.newEnv halong.1 false fun _ => rfl, h.size, false :: marks, ?_, halike⟩
  exact halong.newEnv h.ordered false _

/-! ## Looking into twins -/

theorem Twin.climb_eq (h : Twin D x y Z st st') (k env : Nat) :
    st'.climb k env = st.climb k env := by
  induction k generalizing env with
  | zero => rfl
  | succ k ih =>
      rw [climb_succ, climb_succ, h.parent]
      exact Option.bind_congr fun parent _ => ih parent

/-- A name that is the same in all environments around is found in the same place. -/
theorem Twin.search_eq (h : Twin D x y Z st st') {name : Bytes} (steps : Nat)
    (hfixed : ∀ k o, st.climb k env = some o → turn x y (Z o) name = name) :
    st'.search name steps env = st.search name steps env := by
  induction steps generalizing env with
  | zero => rfl
  | succ steps ih =>
      have hat : st'.at? env name = st.at? env name := by
        have hvars := h.vars env name
        rwa [hfixed 0 env rfl] at hvars
      rw [search_succ, search_succ, hat, h.parent]
      cases st.at? env name with
      | some v => rfl
      | none =>
          refine Option.bind_congr fun parent hparent => ?_
          refine ih fun k o hclimb => hfixed (k + 1) o ?_
          rw [climb_succ, hparent]
          exact hclimb

theorem Twin.text_eq (h : Twin D x y Z st st') (v : Value) : st'.text v = st.text v := by
  have hclass : ∀ i : Nat, st'.classes[i]?.map Class.name = st.classes[i]?.map Class.name := by
    intro i
    rcases rel_cases (h.classes i) with ⟨hnone, hnone'⟩ | ⟨cls, cls', hcls, hcls', htwin⟩
    · rw [hnone, hnone']
    · rw [hcls, hcls', Option.map_some, Option.map_some, htwin.name]
  cases v with
  | classRef ref =>
      rw [text, text, hclass]
  | objectRef ref =>
      rw [text, text, h.instances]
      cases st.instances[ref]? with
      | none => rfl
      | some object =>
          simp only [Option.bind_some, hclass]
  | function ref =>
      rw [text, text]
      rcases rel_cases (h.functions ref) with ⟨hnone, hnone'⟩ | ⟨c, c', hc, hc', _, _, _, halike⟩
      · rw [hnone, hnone']
      · rw [hc, hc', Option.map_some, Option.map_some, halike.name_eq]
  | native ref => rw [text, text, h.natives]
  | bool b => cases b <;> rfl
  | _ => rfl

theorem Twin.debugText_eq (h : Twin D x y Z st st') (v : Value) :
    st'.debugText v = st.debugText v := by
  cases v with
  | string value => rfl
  | nil => rfl
  | bool b => exact h.text_eq (.bool b)
  | number value => rfl
  | classRef ref => exact h.text_eq (.classRef ref)
  | objectRef ref => exact h.text_eq (.objectRef ref)
  | function ref => exact h.text_eq (.function ref)
  | native ref => exact h.text_eq (.native ref)
  | unknown tag => rfl

theorem Twin.method_rel (h : Twin D x y Z st st') (ref : Nat) (name : Bytes) :
    Option.Rel (TwinMethod D x y Z st) (st.method? ref name) (st'.method? ref name) := by
  have hsearch : ∀ steps ref, Option.Rel (TwinMethod D x y Z st)
      (st.searchMethod name steps ref) (st'.searchMethod name steps ref) := by
    intro steps
    induction steps with
    | zero => exact fun _ => .none
    | succ steps ih =>
        intro ref
        rw [searchMethod, searchMethod]
        rcases rel_cases (h.classes ref) with ⟨hnone, hnone'⟩ | ⟨cls, cls', hcls, hcls', htwin⟩
        · rw [hnone, hnone']
          exact .none
        · simp only [hcls, hcls', htwin.superclass]
          rcases rel_cases (htwin.own name) with ⟨hnone, hnone'⟩ | ⟨c, c', hc, hc', hmethod⟩
          · simp only [hnone, hnone']
            cases cls.superclass with
            | some parent => exact ih parent
            | none => exact .none
          · simp only [hc, hc']
            exact .some hmethod
  exact hsearch (ref + 1) ref

end LoxMachine.Renaming
