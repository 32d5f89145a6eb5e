import LoxMachine.Proofs.Store.Heritage

/-!
# Environments of keywords

An environment that binds `this` or `super` was made for it and binds nothing else.  No
operation but the one that makes it has to do with what it binds.
-/

namespace LoxMachine.Store

open Scope

variable {st st' : Store} {env owner : Nat} {n name : Bytes} {v w : Value}

/-- The environment binds the name to the value, and binds no other name. -/
def BindsOnly (st : Store) (env : Nat) (name : Bytes) (v : Value) : Prop :=
  ∀ m, st.at? env m = if m = name then some v else none

/-- What the keywords are bound to: `this` to an instance and `super` to a class. -/
inductive KeywordValue (st : Store) : Bytes → Value → Prop where
  | this {object} (h : object < st.instances.size) :
      KeywordValue st (utf8 "this") (.objectRef object)
  | super {cls} (h : cls < st.classes.size) : KeywordValue st (utf8 "super") (.classRef cls)

/-- An environment that binds a keyword holds it alone. -/
def Reserved (st : Store) : Prop :=
  ∀ env n v, ¬ Plain n → st.at? env n = some v → st.KeywordValue n v ∧ st.BindsOnly env n v

/-- An environment of the store that binds no keyword. -/
def Keyless (st : Store) (env : Nat) : Prop :=
  env < st.envs.size ∧ ∀ n, ¬ Plain n → st.at? env n = none

theorem BindsOnly.at? (h : st.BindsOnly env name v) : st.at? env name = some v :=
  (h name).trans (if_pos rfl)

theorem KeywordValue.mono (h : st.KeywordValue n v)
    (hinstances : st.instances.size ≤ st'.instances.size)
    (hclasses : st.classes.size ≤ st'.classes.size) : st'.KeywordValue n v := by
  cases h with
  | this h => exact .this (Nat.lt_of_lt_of_le h hinstances)
  | super h => exact .super (Nat.lt_of_lt_of_le h hclasses)

theorem Keyless.mono (h : st.Keyless env) (hkeep : st.Keeps st') : st'.Keyless env :=
  ⟨Nat.lt_of_lt_of_le h.1 hkeep.size, fun n hn => (hkeep.keyword env n h.1 hn).trans (h.2 n hn)⟩

/-- Where a keyword is bound, it is bound to the same in a later store, and alone. -/
theorem Reserved.bindsOnly (h : st'.Reserved) (hkeep : st.Keeps st') (hn : ¬ Plain n)
    (hv : st.at? env n = some v) : st'.BindsOnly env n v := by
  rw [← hkeep.keyword env n (lt_of_at? hv) hn] at hv
  exact (h env n v hn hv).2

/-- An environment that binds another name binds no keyword. -/
theorem Reserved.keyless_of_bound (h : st.Reserved) (hname : Plain name)
    (hv : st.at? env name = some v) : st.Keyless env := by
  refine ⟨lt_of_at? hv, fun n hn => ?_⟩
  cases hkeyword : st.at? env n with
  | none => rfl
  | some w =>
      have honly := (h env n w hn hkeyword).2 name
      have hne : name ≠ n := fun heq => hn (heq ▸ hname)
      rw [if_neg hne, hv] at honly
      cases honly

/-! ## Operations -/

/-- Operations on anything but environments leave them as they are. -/
theorem Reserved.congr (h : st.Reserved) (henvs : st'.envs = st.envs)
    (hinstances : st.instances.size ≤ st'.instances.size)
    (hclasses : st.classes.size ≤ st'.classes.size) : st'.Reserved := by
  have hat : ∀ env n, st'.at? env n = st.at? env n := fun env n => by
    rw [Store.at?, henvs, Store.at?]
  intro env n v hn hv
  rw [hat] at hv
  obtain ⟨hvalue, honly⟩ := h env n v hn hv
  exact ⟨hvalue.mono hinstances hclasses, fun m => (hat env m).trans (honly m)⟩

theorem Reserved.newInstance (h : st.Reserved) (cls : Nat) : (st.newInstance cls).2.Reserved :=
  h.congr rfl (Nat.le_of_lt (by simp [Store.newInstance])) (Nat.le_refl _)

/-- A name is bound in an environment that binds no keyword. -/
theorem Reserved.define (h : st.Reserved) (hname : Plain name) (henv : st.Keyless env)
    (v : Value) : (st.define env name v).Reserved := by
  intro o n w hn hw
  have hne : n ≠ name := fun heq => hn (heq ▸ hname)
  rw [at?_define henv.1, if_neg (not_and_of_not_right _ hne)] at hw
  obtain ⟨hvalue, honly⟩ := h o n w hn hw
  have hother : o ≠ env := by
    rintro rfl
    rw [henv.2 n hn] at hw
    cases hw
  refine ⟨hvalue.mono (Nat.le_refl _) (Nat.le_refl _), fun m => ?_⟩
  exact (at?_define_ne hother m).trans (honly m)

/-- A new environment binds no keyword, or a keyword alone. -/
theorem Reserved.newEnv (h : st.Reserved) (parent : Option Nat) {vars : Bindings Value}
    (hvars : ∀ n v, ¬ Plain n → vars.get? n = some v →
      st.KeywordValue n v ∧ ∀ m, vars.get? m = if m = n then some v else none) :
    (st.newEnv parent vars).2.Reserved := by
  intro o n v hn hv
  have hsame : ∀ n v, st.KeywordValue n v → (st.newEnv parent vars).2.KeywordValue n v :=
    fun n v hvalue => hvalue.mono (Nat.le_refl _) (Nat.le_refl _)
  rw [at?_newEnv] at hv
  split at hv
  next heq =>
    subst heq
    obtain ⟨hvalue, honly⟩ := hvars n v hn hv
    refine ⟨hsame n v hvalue, fun m => ?_⟩
    rw [at?_newEnv, if_pos rfl]
    exact honly m
  next hne =>
    obtain ⟨hvalue, honly⟩ := h o n v hn hv
    refine ⟨hsame n v hvalue, fun m => ?_⟩
    rw [at?_newEnv, if_neg hne]
    exact honly m

/-- An environment for code. -/
theorem Reserved.newEnv_keyless (h : st.Reserved) (parent : Option Nat) {vars : Bindings Value}
    (hvars : ∀ n, ¬ Plain n → vars.get? n = none) :
    (st.newEnv parent vars).2.Reserved ∧ (st.newEnv parent vars).2.Keyless st.envs.size := by
  refine ⟨h.newEnv parent fun n v hn hv => ?_, ?_, fun n hn => ?_⟩
  · rw [hvars n hn] at hv
    cases hv
  · rw [size_newEnv]
    exact Nat.lt_succ_self _
  · rw [at?_newEnv, if_pos rfl]
    exact hvars n hn

theorem get?_single (name : Bytes) (v : Value) (m : Bytes) :
    (Bindings.empty.set name v).get? m = if m = name then some v else none := by
  split
  next heq =>
    rw [heq]
    exact Bindings.get?_set_self ..
  next hne => exact Bindings.get?_set_ne _ hne _

/-- An environment for a keyword. -/
theorem Reserved.newEnv_keyword (h : st.Reserved) (parent : Option Nat)
    (hvalue : st.KeywordValue name v) :
    (st.newEnv parent (Bindings.empty.set name v)).2.Reserved ∧
      (st.newEnv parent (Bindings.empty.set name v)).2.BindsOnly st.envs.size name v := by
  refine ⟨h.newEnv parent fun n w hn hw => ?_, fun m => ?_⟩
  · rw [get?_single] at hw
    split at hw
    next heq =>
      cases hw
      rw [heq]
      exact ⟨hvalue, get?_single name v⟩
    next => cases hw
  · rw [at?_newEnv, if_pos rfl, get?_single]

theorem Reserved.bindMethod (h : st.Reserved) {object : Nat} (hobject : object < st.instances.size)
    (c : Closure) : (st.bindMethod c object).2.Reserved ∧
      (st.bindMethod c object).2.BindsOnly st.envs.size (utf8 "this") (.objectRef object) :=
  h.newEnv_keyword (some c.env) (.this hobject)

/-- The receiver of a new instance's initializer is the instance. -/
theorem Reserved.bindInitializer (h : st.Reserved) (cls : Nat) (c : Closure) :
    ((st.newInstance cls).2.bindMethod c st.instances.size).2.Reserved ∧
      ((st.newInstance cls).2.bindMethod c st.instances.size).2.BindsOnly st.envs.size
        (utf8 "this") (.objectRef st.instances.size) :=
  (h.newInstance cls).bindMethod (by simp [Store.newInstance]) c

end LoxMachine.Store
