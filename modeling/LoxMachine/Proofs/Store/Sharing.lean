import LoxMachine.Machine.Step
import LoxMachine.Proofs.Store.Environments

/-!
# Variables shared by environments

Environments form a tree, and what encloses several of them is shared.  An assignment
changes one binding, and it is seen from exactly those environments from which that
binding is the one that is found.
-/

namespace LoxMachine

namespace Store

/-- `Nearest st name env owner`: from `env` outwards, `owner` is the first environment that
binds the name. -/
inductive Nearest (st : Store) (name : Bytes) : Nat → Nat → Prop where
  | here {env} (hbound : (st.at? env name).isSome) : Nearest st name env env
  | outside {env parent owner} (hfree : st.at? env name = none)
      (hparent : st.parent? env = some parent) (h : Nearest st name parent owner) :
      Nearest st name env owner

/-- Of all bindings in the store, only that of `name` in `owner` is another one afterwards. -/
structure Sets (st st' : Store) (owner : Nat) (name : Bytes) (value : Value) : Prop where
  at?_eq : ∀ o n, st'.at? o n = if o = owner ∧ n = name then some value else st.at? o n
  parent?_eq : ∀ o, st'.parent? o = st.parent? o
  size : st'.envs.size = st.envs.size
  others : { st' with envs := st.envs } = st

variable {st st' : Store} {env env' depth depth' owner o : Nat} {name n : Bytes} {value : Value}

/-! ## The nearest binding -/

theorem Nearest.bound (h : st.Nearest name env owner) : (st.at? owner name).isSome := by
  induction h with
  | here hbound => exact hbound
  | outside _ _ _ ih => exact ih

theorem Nearest.unique (h : st.Nearest name env owner) (h' : st.Nearest name env o) :
    owner = o := by
  induction h with
  | here hbound =>
      cases h' with
      | here => rfl
      | outside hfree => simp [hfree] at hbound
  | outside hfree hparent _ ih =>
      cases h' with
      | here hbound => simp [hfree] at hbound
      | outside _ hparent' h' =>
          obtain rfl := Option.some.inj (hparent.symm.trans hparent')
          exact ih h'

/-- What a search finds is the nearest binding. -/
theorem nearest_of_search {steps : Nat} (h : st.search name steps env = some (owner, value)) :
    st.Nearest name env owner ∧ st.at? owner name = some value := by
  induction steps generalizing env with
  | zero => cases h
  | succ steps ih =>
      rw [search_succ] at h
      cases hat : st.at? env name with
      | some v =>
          rw [hat] at h
          cases h
          exact ⟨.here (Option.isSome_of_mem hat), hat⟩
      | none =>
          rw [hat] at h
          obtain ⟨parent, hparent, hfound⟩ := Option.bind_eq_some_iff.mp h
          obtain ⟨hnearest, hvalue⟩ := ih hfound
          exact ⟨.outside hat hparent hnearest, hvalue⟩

/-- A search with more steps than there are older environments finds the nearest binding. -/
theorem Nearest.search_eq (holder : ∀ o p, st.parent? o = some p → p < o)
    (h : st.Nearest name env owner) (hat : st.at? owner name = some value) {steps : Nat}
    (hsteps : env < steps) : st.search name steps env = some (owner, value) := by
  induction h generalizing steps with
  | here _ =>
      obtain ⟨steps, rfl⟩ := Nat.exists_eq_add_of_lt hsteps
      rw [search_succ, hat]
  | @outside env parent owner hfree hparent _ ih =>
      obtain ⟨more, rfl⟩ := Nat.exists_eq_add_of_lt hsteps
      -- The parent is older, so the steps that remain are enough for it.
      have hlt := holder env parent hparent
      rw [search_succ, hfree]
      dsimp only
      rw [hparent]
      exact ih hat (Nat.lt_of_lt_of_le hlt (Nat.le_add_right _ _))

theorem nearest?_eq_some_iff (holder : ∀ o p, st.parent? o = some p → p < o) :
    st.nearest? env name = some (owner, value) ↔
      st.Nearest name env owner ∧ st.at? owner name = some value :=
  ⟨nearest_of_search, fun h => h.1.search_eq holder h.2 (Nat.lt_succ_self env)⟩

theorem get?_eq_some_iff (holder : ∀ o p, st.parent? o = some p → p < o) :
    st.get? env name = some value ↔
      ∃ owner, st.Nearest name env owner ∧ st.at? owner name = some value := by
  rw [get?, Option.map_eq_some_iff]
  constructor
  · rintro ⟨⟨owner, _⟩, hfound, rfl⟩
    exact ⟨owner, (nearest?_eq_some_iff holder).mp hfound⟩
  · rintro ⟨owner, h⟩
    exact ⟨_, (nearest?_eq_some_iff holder).mpr h, rfl⟩

/-! ## One binding changed -/

theorem sets_define (hbound : (st.at? owner name).isSome) :
    st.Sets (st.define owner name value) owner name value := by
  obtain ⟨v, hat⟩ := Option.isSome_iff_exists.mp hbound
  exact ⟨at?_define (lt_of_at? hat), parent?_define, size_define, rfl⟩

section Sets

variable (h : st.Sets st' owner name value)

include h

theorem Sets.climb_eq (steps env : Nat) : st'.climb steps env = st.climb steps env := by
  induction steps generalizing env with
  | zero => rfl
  | succ steps ih =>
      rw [climb_succ, climb_succ, h.parent?_eq]
      exact Option.bind_congr fun parent _ => ih parent

/-- No name becomes bound or free. -/
theorem Sets.isSome_iff (hbound : (st.at? owner name).isSome) :
    (st'.at? o n).isSome ↔ (st.at? o n).isSome := by
  rw [h.at?_eq]
  split
  next heq =>
    obtain ⟨rfl, rfl⟩ := heq
    exact iff_of_true rfl hbound
  next => rfl

theorem Sets.eq_none_iff (hbound : (st.at? owner name).isSome) :
    st'.at? o n = none ↔ st.at? o n = none := by
  rw [← Option.not_isSome_iff_eq_none, ← Option.not_isSome_iff_eq_none, h.isSome_iff hbound]

theorem Sets.nearest_iff (hbound : (st.at? owner name).isSome) :
    st'.Nearest n env o ↔ st.Nearest n env o := by
  constructor <;> intro hnearest
  · induction hnearest with
    | here hn => exact .here ((h.isSome_iff hbound).mp hn)
    | outside hfree hparent _ ih =>
        exact .outside ((h.eq_none_iff hbound).mp hfree) (h.parent?_eq _ ▸ hparent) ih
  · induction hnearest with
    | here hn => exact .here ((h.isSome_iff hbound).mpr hn)
    | outside hfree hparent _ ih =>
        exact .outside ((h.eq_none_iff hbound).mpr hfree) ((h.parent?_eq _).trans hparent) ih

end Sets

/-! ## Accesses at a depth -/

theorem getAt_eq (env depth : Nat) (name : Bytes) :
    st.getAt env depth name =
      match st.climb depth env with
      | none => .error (.chainTooShort depth)
      | some owner =>
          match st.at? owner name with
          | some value => .ok value
          | none =>
              .error (if owner < st.envs.size then .notBound name depth else .dangling) := by
  rw [getAt, bindingAt]
  cases st.climb depth env with
  | none => rfl
  | some owner =>
      dsimp only
      rw [at?]
      by_cases howner : owner < st.envs.size
      · rw [Array.getElem?_eq_getElem howner, Option.bind_some, if_pos howner]
        dsimp only
        cases st.envs[owner].vars.get? name <;> rfl
      · rw [Array.getElem?_eq_none (Nat.le_of_not_lt howner), if_neg howner]
        rfl

theorem getAt_eq_ok_iff : st.getAt env depth name = .ok value ↔
    ∃ owner, st.climb depth env = some owner ∧ st.at? owner name = some value := by
  constructor
  · intro h
    rw [getAt_eq] at h
    split at h
    next => cases h
    next owner hclimb =>
      split at h
      next hat =>
        cases h
        exact ⟨owner, hclimb, hat⟩
      next => cases h
  · rintro ⟨owner, hclimb, hat⟩
    exact getAt_eq_ok hclimb hat

theorem assignAt_eq_ok_iff : st.assignAt env depth name value = .ok st' ↔
    ∃ owner, st.climb depth env = some owner ∧ (st.at? owner name).isSome ∧
      st' = st.define owner name value := by
  constructor
  · intro h
    unfold assignAt at h
    cases hbinding : st.bindingAt env depth name with
    | error d =>
        rw [hbinding] at h
        cases h
    | ok found =>
        obtain ⟨owner, v⟩ := found
        rw [hbinding] at h
        cases h
        obtain ⟨hclimb, hat⟩ := bindingAt_eq_ok_iff.mp hbinding
        exact ⟨owner, hclimb, Option.isSome_of_mem hat, rfl⟩
  · rintro ⟨owner, hclimb, hbound, rfl⟩
    obtain ⟨v, hat⟩ := Option.isSome_iff_exists.mp hbound
    rw [assignAt, bindingAt_eq_ok hclimb hat]
    rfl

/-- What is read at a depth after one binding has changed. -/
theorem Sets.getAt_eq (h : st.Sets st' owner name value) (env depth : Nat) (n : Bytes) :
    st'.getAt env depth n =
      if st.climb depth env = some owner ∧ n = name then .ok value
      else st.getAt env depth n := by
  rw [Store.getAt_eq, Store.getAt_eq, h.climb_eq]
  cases hclimb : st.climb depth env with
  | none => rfl
  | some o =>
      simp only [h.at?_eq, h.size, Option.some.injEq]
      by_cases hsame : o = owner ∧ n = name
      · rw [if_pos hsame, if_pos hsame]
      · rw [if_neg hsame, if_neg hsame]

/-- An assignment at a depth is seen from wherever the same environment is reached. -/
theorem getAt_of_assignAt (h : st.assignAt env depth name value = .ok st') (env' depth' : Nat)
    (n : Bytes) : st'.getAt env' depth' n =
      if st.climb depth' env' = st.climb depth env ∧ n = name then .ok value
      else st.getAt env' depth' n := by
  obtain ⟨owner, hclimb, hbound, rfl⟩ := assignAt_eq_ok_iff.mp h
  rw [hclimb]
  exact (sets_define hbound).getAt_eq env' depth' n

theorem exists_assignAt_iff :
    (∃ st', st.assignAt env depth name value = .ok st') ↔
      ∃ w, st.getAt env depth name = .ok w := by
  constructor
  · rintro ⟨st', h⟩
    obtain ⟨owner, hclimb, hbound, _⟩ := assignAt_eq_ok_iff.mp h
    obtain ⟨w, hat⟩ := Option.isSome_iff_exists.mp hbound
    exact ⟨w, getAt_eq_ok_iff.mpr ⟨owner, hclimb, hat⟩⟩
  · rintro ⟨w, h⟩
    obtain ⟨owner, hclimb, hat⟩ := getAt_eq_ok_iff.mp h
    exact ⟨_, assignAt_eq_ok_iff.mpr ⟨owner, hclimb, Option.isSome_of_mem hat, rfl⟩⟩

/-! ## Accesses along the chain -/

theorem isSome_assign? : (st.assign? env name value).isSome = (st.get? env name).isSome := by
  rw [assign?, get?, Option.isSome_map, Option.isSome_map]

section Older

variable (holder : ∀ o p, st.parent? o = some p → p < o)

include holder

theorem assign?_eq_some_iff : st.assign? env name value = some st' ↔
    ∃ owner, st.Nearest name env owner ∧ st' = st.define owner name value := by
  rw [assign?, Option.map_eq_some_iff]
  constructor
  · rintro ⟨⟨owner, v⟩, hfound, rfl⟩
    exact ⟨owner, ((nearest?_eq_some_iff holder).mp hfound).1, rfl⟩
  · rintro ⟨owner, hnearest, rfl⟩
    obtain ⟨v, hat⟩ := Option.isSome_iff_exists.mp hnearest.bound
    exact ⟨(owner, v), (nearest?_eq_some_iff holder).mpr ⟨hnearest, hat⟩, rfl⟩

theorem Sets.older (h : st.Sets st' owner name value) (o p : Nat)
    (hparent : st'.parent? o = some p) : p < o :=
  holder o p (h.parent?_eq o ▸ hparent)

/-- A changed binding is seen from where it is the nearest one. -/
theorem Sets.get?_eq_some (h : st.Sets st' owner name value)
    (hnearest : st.Nearest name env owner) : st'.get? env name = some value := by
  refine (get?_eq_some_iff (h.older holder)).mpr ⟨owner, (h.nearest_iff hnearest.bound).mpr hnearest, ?_⟩
  rw [h.at?_eq, if_pos ⟨rfl, rfl⟩]

/-- From where another binding is the nearest one, or none is, nothing has changed. -/
theorem Sets.get?_eq (h : st.Sets st' owner name value) (hbound : (st.at? owner name).isSome)
    (hother : ¬ (n = name ∧ st.Nearest n env owner)) : st'.get? env n = st.get? env n := by
  refine Option.ext fun w => ?_
  rw [get?_eq_some_iff (h.older holder), get?_eq_some_iff holder]
  refine exists_congr fun o => ?_
  -- The nearest environment is the same one as before, and it is not the changed binding.
  rw [h.nearest_iff hbound, h.at?_eq]
  refine and_congr_right fun hnearest => ?_
  have hne : ¬ (o = owner ∧ n = name) := fun heq => hother ⟨heq.2, heq.1 ▸ hnearest⟩
  rw [if_neg hne]

end Older

end Store

/-! ## Variables of a program -/

namespace State

open Store

/-- An assignment to a variable is one to the environment, at the depth recorded for the node
or along the chain if there is none. -/
theorem assignVariable_eq (s : State) (set : Setting) (id : Nat) (name : Name) (v : Value) :
    s.assignVariable set id name v =
      match set.depths.depth? id with
      | some depth =>
          match s.store.assignAt s.env depth name.text v with
          | .ok st => .next { s with control := .value v, store := st }
          | .error d => .halt (.broken d) s
      | none =>
          match s.store.assign? s.env name.text v with
          | some st => .next { s with control := .value v, store := st }
          | none =>
              .next { s with control := .failing ⟨name.range, .undefinedVariable name.text⟩ } := by
  rw [assignVariable, owner]
  cases set.depths.depth? id with
  | some depth =>
      dsimp only
      rw [assignAt]
      cases s.store.bindingAt s.env depth name.text <;> rfl
  | none =>
      dsimp only
      rw [assign?]
      cases s.store.nearest? s.env name.text <;> rfl

end State

namespace Store

/-- What one access to a variable does to all others.  Environments enclose each other in any
way, and a name may be bound in any number of them. -/
structure Shared (st : Store) : Prop where
  /-- At a depth, what can be read can be assigned. -/
  assignAt_iff : ∀ env depth name v,
    (∃ st', st.assignAt env depth name v = .ok st') ↔ ∃ w, st.getAt env depth name = .ok w
  /-- What is then read at any depth from anywhere. -/
  getAt_assignAt : ∀ env depth name v st', st.assignAt env depth name v = .ok st' →
    ∀ env' depth' name', st'.getAt env' depth' name' =
      if st.climb depth' env' = st.climb depth env ∧ name' = name then .ok v
      else st.getAt env' depth' name'
  /-- Along the chain, what can be read can be assigned. -/
  assign?_iff : ∀ env name v,
    (∃ st', st.assign? env name v = some st') ↔ ∃ w, st.get? env name = some w
  /-- Only the nearest binding is changed.  Its new value is read from wherever it is the nearest
  one, and all else is read as before. -/
  get?_assign? : ∀ env name v st', st.assign? env name v = some st' →
    ∃ owner, st.Nearest name env owner ∧ st.Sets st' owner name v ∧
      (∀ env', st.Nearest name env' owner → st'.get? env' name = some v) ∧
      ∀ env' name', ¬ (name' = name ∧ st.Nearest name' env' owner) →
        st'.get? env' name' = st.get? env' name'
  /-- A program that assigns to a variable at a depth goes on in that store. -/
  assignedAt : ∀ (s : State) (set : Setting) (id depth : Nat) (name : Name) (v : Value)
    (st' : Store), s.store = st → set.depths.depth? id = some depth →
    st.assignAt s.env depth name.text v = .ok st' →
    s.assignVariable set id name v = .next { s with control := .value v, store := st' }
  /-- So does one that assigns along the chain. -/
  assigned : ∀ (s : State) (set : Setting) (id : Nat) (name : Name) (v : Value) (st' : Store),
    s.store = st → set.depths.depth? id = none → st.assign? s.env name.text v = some st' →
    s.assignVariable set id name v = .next { s with control := .value v, store := st' }
  /-- A program that reads or assigns what is not bound along the chain fails, and nothing else
  about it changes. -/
  failing : ∀ (s : State) (set : Setting) (id : Nat) (name : Name) (v : Value),
    s.store = st → set.depths.depth? id = none → st.get? s.env name.text = none →
    s.evalVariable set id name =
        .next { s with control := .failing ⟨name.range, .undefinedVariable name.text⟩ } ∧
      s.assignVariable set id name v =
        .next { s with control := .failing ⟨name.range, .undefinedVariable name.text⟩ }

/-- In any tree of environments, variables are shared by the environments from which they are
found.  What encloses an environment is older than it, as in every store that a program makes. -/
theorem shared_of_older {st : Store} (holder : ∀ o p, st.parent? o = some p → p < o) :
    Shared st where
  assignAt_iff _ _ _ _ := exists_assignAt_iff
  getAt_assignAt _ _ _ _ _ := getAt_of_assignAt
  assign?_iff env name v := by
    rw [← Option.isSome_iff_exists, ← Option.isSome_iff_exists, isSome_assign?]
  get?_assign? env name v st' h := by
    obtain ⟨owner, hnearest, rfl⟩ := (assign?_eq_some_iff holder).mp h
    have hsets : st.Sets (st.define owner name v) owner name v := sets_define hnearest.bound
    exact ⟨owner, hnearest, hsets, fun _ => hsets.get?_eq_some holder,
      fun _ _ => hsets.get?_eq holder hnearest.bound⟩
  assignedAt s set id depth name v st' hst hdepth h := by
    subst hst
    rw [State.assignVariable_eq, hdepth]
    dsimp only
    rw [h]
  assigned s set id name v st' hst hdepth h := by
    subst hst
    rw [State.assignVariable_eq, hdepth]
    dsimp only
    rw [h]
  failing s set id name v hst hdepth hget := by
    subst hst
    have hassign : s.store.assign? s.env name.text v = none := by
      rw [← Option.not_isSome_iff_eq_none, isSome_assign?, hget]
      exact Bool.false_ne_true
    constructor
    · rw [State.evalVariable, State.lookup, hdepth]
      dsimp only
      rw [hget]
      rfl
    · rw [State.assignVariable_eq, hdepth]
      dsimp only
      rw [hassign]

/-- Two environments in a third one, which hides a name of the globals, and one beside it. -/
def sharing : Store :=
  { Store.empty with
    envs := #[
      ⟨none, (Bindings.empty.set (utf8 "a") .nil).set (utf8 "b") .nil⟩,
      ⟨some 0, Bindings.empty.set (utf8 "a") .nil⟩,
      ⟨some 1, Bindings.empty⟩,
      ⟨some 1, Bindings.empty.set (utf8 "b") .nil⟩,
      ⟨some 0, Bindings.empty⟩] }

theorem shared_of_older_sharing :
    (∀ o p, sharing.parent? o = some p → p < o) ∧ Shared sharing ∧
      ((sharing.assign? 2 (utf8 "a") (.bool true)).map fun st =>
          [0, 1, 2, 3, 4].map fun env => st.get? env (utf8 "a")) =
        some [some .nil, some (.bool true), some (.bool true), some (.bool true), some .nil] := by
  have holder : ∀ o p, sharing.parent? o = some p → p < o := by
    intro o p hparent
    have hall : ∀ o < 5, ∀ p ∈ sharing.parent? o, p < o := by decide
    exact hall o (lt_of_parent? hparent) p hparent
  exact ⟨holder, shared_of_older holder, rfl⟩

end Store

end LoxMachine
