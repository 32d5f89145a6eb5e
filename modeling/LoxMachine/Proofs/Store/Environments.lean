import LoxMachine.Store
import Mathlib.Tactic.Common

/-!
# Reading environments

What a store says about one environment is what it binds and what encloses it.  All
operations on environments are told by these two readings.
-/

namespace LoxMachine

/-- What a name is bound to after another has been set. -/
theorem Bindings.get?_set_cases {α : Type} {b : Bindings α} {name other : Bytes} {v w : α}
    (h : (b.set name v).get? other = some w) : other = name ∧ w = v ∨ b.get? other = some w := by
  by_cases hname : other = name
  · rw [hname, get?_set_self] at h
    exact .inl ⟨hname, (Option.some.inj h).symm⟩
  · rw [get?_set_ne _ hname] at h
    exact .inr h

theorem Bindings.isSome_get?_set {α : Type} (b : Bindings α) (name other : Bytes) (v : α) :
    ((b.set name v).get? other).isSome ↔ other = name ∨ (b.get? other).isSome := by
  by_cases hname : other = name
  · simp [hname]
  · simp [hname, get?_set_ne _ hname]

namespace Store

variable {st : Store} {env owner depth : Nat} {name : Bytes} {value : Value}

/-- The value an environment itself binds a name to. -/
def at? (st : Store) (env : Nat) (name : Bytes) : Option Value :=
  st.envs[env]?.bind fun e => e.vars.get? name

/-- The environment around an environment. -/
def parent? (st : Store) (env : Nat) : Option Nat :=
  st.envs[env]?.bind Environment.parent

theorem lt_of_parent? {parent : Nat} (h : st.parent? env = some parent) :
    env < st.envs.size := by
  obtain ⟨e, he, _⟩ := Option.bind_eq_some_iff.mp h
  exact (Array.getElem?_eq_some_iff.mp he).1

theorem lt_of_at? (h : st.at? env name = some value) : env < st.envs.size := by
  obtain ⟨e, he, _⟩ := Option.bind_eq_some_iff.mp h
  exact (Array.getElem?_eq_some_iff.mp he).1

/-! ## Binding a name -/

theorem at?_define (hlt : env < st.envs.size) (o : Nat) (n : Bytes) :
    (st.define env name value).at? o n =
      if o = env ∧ n = name then some value else st.at? o n := by
  unfold at? define
  rw [Array.getElem?_modify]
  by_cases ho : env = o
  · subst ho
    rw [if_pos rfl, Array.getElem?_eq_getElem hlt]
    by_cases hn : n = name
    · simp [hn]
    · simp [hn, Bindings.get?_set_ne _ hn]
  · simp [ho, Ne.symm ho]

theorem isSome_define (hlt : env < st.envs.size) {n : Bytes} (h : n ∈ [name]) :
    ((st.define env name value).at? env n).isSome := by
  rw [at?_define hlt, if_pos ⟨rfl, List.mem_singleton.mp h⟩]
  rfl

theorem parent?_define (o : Nat) : (st.define env name value).parent? o = st.parent? o := by
  unfold parent? define
  rw [Array.getElem?_modify]
  by_cases ho : env = o
  · subst ho
    rw [if_pos rfl]
    cases st.envs[env]? <;> rfl
  · rw [if_neg ho]

theorem size_define : (st.define env name value).envs.size = st.envs.size :=
  Array.size_modify ..

/-! ## New environments -/

theorem at?_newEnv (parent : Option Nat) (vars : Bindings Value) (o : Nat) (n : Bytes) :
    (st.newEnv parent vars).2.at? o n =
      if o = st.envs.size then vars.get? n else st.at? o n := by
  unfold at? newEnv
  rw [Array.getElem?_push]
  by_cases ho : o = st.envs.size
  · simp [ho]
  · simp [ho]

theorem parent?_newEnv (parent : Option Nat) (vars : Bindings Value) (o : Nat) :
    (st.newEnv parent vars).2.parent? o =
      if o = st.envs.size then parent else st.parent? o := by
  unfold parent? newEnv
  rw [Array.getElem?_push]
  by_cases ho : o = st.envs.size
  · simp [ho]
  · simp [ho]

theorem size_newEnv (parent : Option Nat) (vars : Bindings Value) :
    (st.newEnv parent vars).2.envs.size = st.envs.size + 1 :=
  Array.size_push ..

/-! ## Walking outwards -/

theorem climb_succ (steps env : Nat) :
    st.climb (steps + 1) env = (st.parent? env).bind (st.climb steps) := by
  rw [climb, parent?]
  cases st.envs[env]? with
  | none => rfl
  | some e => cases h : e.parent <;> simp [h]

theorem climb_add (k steps env : Nat) :
    st.climb (k + steps) env = (st.climb k env).bind (st.climb steps) := by
  induction k generalizing env with
  | zero =>
      rw [Nat.zero_add]
      rfl
  | succ k ih =>
      rw [Nat.succ_add, climb_succ, climb_succ, Option.bind_assoc]
      exact Option.bind_congr fun parent _ => ih parent

theorem search_succ (steps env : Nat) :
    st.search name (steps + 1) env =
      match st.at? env name with
      | some value => some (env, value)
      | none => (st.parent? env).bind (st.search name steps) := by
  rw [search, parent?, at?]
  cases st.envs[env]? with
  | none => rfl
  | some e => cases hv : e.vars.get? name <;> cases hp : e.parent <;> simp [hv, hp]

theorem bindingAt_eq_ok (hclimb : st.climb depth env = some owner)
    (hat : st.at? owner name = some value) :
    st.bindingAt env depth name = .ok (owner, value) := by
  obtain ⟨e, he, hv⟩ := Option.bind_eq_some_iff.mp hat
  simp only [bindingAt, hclimb, he, hv]

theorem getAt_eq_ok (hclimb : st.climb depth env = some owner)
    (hat : st.at? owner name = some value) : st.getAt env depth name = .ok value := by
  rw [getAt, bindingAt_eq_ok hclimb hat]
  rfl

/-- What is found at a depth is bound where the chain leads. -/
theorem bindingAt_eq_ok_iff : st.bindingAt env depth name = .ok (owner, value) ↔
    st.climb depth env = some owner ∧ st.at? owner name = some value := by
  constructor
  · intro h
    unfold bindingAt at h
    split at h
    next => cases h
    next o hclimb =>
      split at h
      next => cases h
      next e he =>
        split at h
        next v hv =>
          cases h
          exact ⟨hclimb, Option.bind_eq_some_iff.mpr ⟨e, he, hv⟩⟩
        next => cases h
  · rintro ⟨hclimb, hat⟩
    exact bindingAt_eq_ok hclimb hat

/-- A search finds a binding some steps up, and none of the environments it passed has
one. -/
theorem climb_of_search {steps : Nat} (h : st.search name steps env = some (owner, value)) :
    st.at? owner name = some value ∧ ∃ depth, st.climb depth env = some owner ∧
      ∀ k < depth, ∀ o, st.climb k env = some o → st.at? o name = none := by
  induction steps generalizing env with
  | zero => cases h
  | succ steps ih =>
      rw [search_succ] at h
      cases hat : st.at? env name with
      | some v =>
          rw [hat] at h
          cases h
          exact ⟨hat, 0, rfl, fun k hk => absurd hk (Nat.not_lt_zero k)⟩
      | none =>
          rw [hat] at h
          obtain ⟨parent, hparent, hfound⟩ := Option.bind_eq_some_iff.mp h
          obtain ⟨hvalue, depth, hclimb, hpassed⟩ := ih hfound
          refine ⟨hvalue, depth + 1, ?_, ?_⟩
          · rw [climb_succ, hparent]
            exact hclimb
          · intro k hk o ho
            cases k with
            | zero =>
                cases ho
                exact hat
            | succ k =>
                rw [climb_succ, hparent] at ho
                exact hpassed k (Nat.lt_of_succ_lt_succ hk) o ho

end Store

end LoxMachine
