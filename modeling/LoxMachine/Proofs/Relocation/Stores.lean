import LoxMachine.Proofs.Relocation.Trees
import LoxMachine.Proofs.Store.Heritage

/-!
# A store inside another

All that a store holds may stand in a larger one, behind objects the first knows nothing
of.  References are moved accordingly, and every reading of the first store can be made in
the second.
-/

namespace LoxMachine

/-- How node numbers and the places of the objects of a store are moved. -/
structure Relocation where
  ids : Gap
  envs : Gap
  functions : Gap
  classes : Gap
  instances : Gap

/-! ## Moving references -/

namespace Bindings

variable {α β : Type}

def map (f : α → β) (b : Bindings α) : Bindings β :=
  ⟨b.entries.map fun entry => (entry.1, f entry.2)⟩

@[simp] theorem map_empty (f : α → β) : (empty : Bindings α).map f = empty := rfl

@[simp] theorem get?_map (f : α → β) (b : Bindings α) (name : Bytes) :
    (b.map f).get? name = (b.get? name).map f := by
  obtain ⟨entries⟩ := b
  unfold map get?
  induction entries with
  | nil => rfl
  | cons entry rest ih =>
      simp only [List.map_cons, find?]
      split
      · rfl
      · exact ih

@[simp] theorem map_set (f : α → β) (b : Bindings α) (name : Bytes) (value : α) :
    (b.set name value).map f = (b.map f).set name (f value) := by
  obtain ⟨entries⟩ := b
  unfold map set
  congr 1
  induction entries with
  | nil => rfl
  | cons entry rest ih =>
      simp only [List.map_cons, put]
      split
      · rfl
      · exact congrArg (_ :: ·) ih

end Bindings

section Relocate

variable (ρ : Relocation)

def Value.relocate : Value → Value
  | .classRef ref => .classRef (ρ.classes.move ref)
  | .objectRef ref => .objectRef (ρ.instances.move ref)
  | .function ref => .function (ρ.functions.move ref)
  | v => v

def Closure.relocate (c : Closure) : Closure :=
  ⟨c.decl.renumber ρ.ids.move, ρ.envs.move c.env⟩

def Class.relocate (k : Class) : Class :=
  ⟨k.name, k.superclass.map ρ.classes.move, k.init.map (Closure.relocate ρ),
    k.methods.map (Closure.relocate ρ)⟩

def Instance.relocate (o : Instance) : Instance :=
  ⟨ρ.classes.move o.cls, o.fields.map (Value.relocate ρ)⟩

end Relocate

variable {ρ : Relocation}

@[simp] theorem Value.truthy_relocate (v : Value) : (v.relocate ρ).truthy = v.truthy := by
  cases v <;> rfl

@[simp] theorem Value.isCallable_relocate (v : Value) :
    (v.relocate ρ).isCallable = v.isCallable := by
  cases v <;> rfl

@[simp] theorem Value.same_relocate (v w : Value) :
    (v.relocate ρ).same (w.relocate ρ) = v.same w := by
  cases v <;> cases w <;> simp only [Value.relocate, Value.same, beq_eq_decide, Gap.move_inj]

@[simp] theorem Value.relocate_ofLiteral (value : Literal) :
    (Value.ofLiteral value).relocate ρ = Value.ofLiteral value := by
  cases value <;> rfl

@[simp] theorem Class.own?_relocate (k : Class) (name : Bytes) :
    (k.relocate ρ).own? name = (k.own? name).map (Closure.relocate ρ) := by
  unfold Class.own? Class.relocate
  split
  · cases k.init <;> simp
  · simp

/-- What is looked up in the second class is what is looked up in the first, moved. -/
structure Class.Relocates (ρ : Relocation) (k k' : Class) : Prop where
  name : k'.name = k.name
  superclass : k'.superclass = k.superclass.map ρ.classes.move
  own : ∀ n, k'.own? n = (k.own? n).map (Closure.relocate ρ)

theorem Class.relocates_relocate (k : Class) : k.Relocates ρ (k.relocate ρ) :=
  ⟨rfl, rfl, k.own?_relocate⟩

/-! ## Arrays with a gap -/

/-- The second array has elements related to those of the first in moved places. -/
structure Spread {α : Type} (g : Gap) (R : α → α → Prop) (xs ys : Array α) : Prop where
  start : g.start ≤ xs.size
  size : ys.size = xs.size + g.width
  elems : ∀ i : Nat, Option.Rel R xs[i]? ys[g.move i]?

namespace Spread

variable {α : Type} {g : Gap} {R : α → α → Prop} {f : α → α} {xs ys : Array α}

theorem move_size (h : Spread g R xs ys) : g.move xs.size = ys.size := by
  rw [Gap.move_of_le h.start, h.size]

theorem map_eq (h : Spread g (fun x y => y = f x) xs ys) (i : Nat) :
    ys[g.move i]? = xs[i]?.map f := by
  have helem := h.elems i
  generalize xs[i]? = a at helem ⊢
  generalize ys[g.move i]? = b at helem ⊢
  cases helem with
  | some heq => exact congrArg some heq
  | none => rfl

theorem push (h : Spread g R xs ys) {x y : α} (hxy : R x y) :
    Spread g R (xs.push x) (ys.push y) where
  start := by
    rw [Array.size_push]
    exact Nat.le_succ_of_le h.start
  size := by
    rw [Array.size_push, Array.size_push, h.size]
    omega
  elems i := by
    rw [Array.getElem?_push, Array.getElem?_push, ← h.move_size]
    simp only [Gap.move_inj]
    split
    · exact .some hxy
    · exact h.elems i

theorem modify (h : Spread g R xs ys) (i : Nat) {u v : α → α}
    (hR : ∀ x y, R x y → R (u x) (v y)) :
    Spread g R (xs.modify i u) (ys.modify (g.move i) v) where
  start := by
    rw [Array.size_modify]
    exact h.start
  size := by rw [Array.size_modify, Array.size_modify, h.size]
  elems j := by
    rw [Array.getElem?_modify, Array.getElem?_modify]
    simp only [Gap.move_inj]
    have helem := h.elems j
    split
    · generalize xs[j]? = a at helem ⊢
      generalize ys[g.move j]? = b at helem ⊢
      cases helem with
      | some hab => exact .some (hR _ _ hab)
      | none => exact .none
    · exact helem

end Spread

/-! ## Placed stores -/

namespace Store

/-- The second store holds what the first one holds, in moved places. -/
structure Placed (ρ : Relocation) (st st' : Store) : Prop where
  envStart : ρ.envs.start ≤ st.envs.size
  envCount : st'.envs.size = st.envs.size + ρ.envs.width
  parent : ∀ o, st'.parent? (ρ.envs.move o) = (st.parent? o).map ρ.envs.move
  vars : ∀ o n, st'.at? (ρ.envs.move o) n = (st.at? o n).map (Value.relocate ρ)
  functions : Spread ρ.functions (fun c c' => c' = c.relocate ρ) st.functions st'.functions
  classes : Spread ρ.classes (Class.Relocates ρ) st.classes st'.classes
  instances : Spread ρ.instances (fun o o' => o' = o.relocate ρ) st.instances st'.instances
  natives : st'.natives = st.natives
  clock : st'.clock = st.clock

variable {st st' later later' : Store} {env : Nat}

theorem Placed.move_size (h : Placed ρ st st') : ρ.envs.move st.envs.size = st'.envs.size := by
  rw [Gap.move_of_le h.envStart, h.envCount]

theorem Placed.lt (h : Placed ρ st st') (henv : env < st.envs.size) :
    ρ.envs.move env < st'.envs.size :=
  h.move_size ▸ Gap.move_lt_move henv

/-! ## Operations -/

theorem Placed.define (h : Placed ρ st st') (henv : env < st.envs.size) (name : Bytes)
    (v : Value) :
    Placed ρ (st.define env name v) (st'.define (ρ.envs.move env) name (v.relocate ρ)) where
  envStart := by
    rw [size_define]
    exact h.envStart
  envCount := by rw [size_define, size_define, h.envCount]
  parent o := by rw [parent?_define, parent?_define, h.parent]
  vars o n := by
    rw [at?_define henv, at?_define (h.lt henv), h.vars]
    simp only [Gap.move_inj]
    split
    · rfl
    · rfl
  functions := h.functions
  classes := h.classes
  instances := h.instances
  natives := h.natives
  clock := h.clock

theorem Placed.newEnv (h : Placed ρ st st') (parent : Option Nat) (vars : Bindings Value) :
    Placed ρ (st.newEnv parent vars).2
      (st'.newEnv (parent.map ρ.envs.move) (vars.map (Value.relocate ρ))).2 where
  envStart := by
    rw [size_newEnv]
    exact Nat.le_succ_of_le h.envStart
  envCount := by
    rw [size_newEnv, size_newEnv, h.envCount]
    omega
  parent o := by
    rw [parent?_newEnv, parent?_newEnv, ← h.move_size, h.parent]
    simp only [Gap.move_inj]
    split
    · rfl
    · rfl
  vars o n := by
    rw [at?_newEnv, at?_newEnv, ← h.move_size, h.vars]
    simp only [Gap.move_inj]
    split
    · exact Bindings.get?_map ..
    · rfl
  functions := h.functions
  classes := h.classes
  instances := h.instances
  natives := h.natives
  clock := h.clock

theorem Placed.newFunction (h : Placed ρ st st') (c : Closure) :
    Placed ρ (st.newFunction c).2 (st'.newFunction (c.relocate ρ)).2 :=
  { h with functions := h.functions.push rfl }

theorem Placed.newClass (h : Placed ρ st st') (k : Class) :
    Placed ρ (st.newClass k).2 (st'.newClass (k.relocate ρ)).2 :=
  { h with classes := h.classes.push k.relocates_relocate }

theorem Placed.newInstance (h : Placed ρ st st') (cls : Nat) :
    Placed ρ (st.newInstance cls).2 (st'.newInstance (ρ.classes.move cls)).2 :=
  { h with instances := h.instances.push rfl }

theorem Placed.setField (h : Placed ρ st st') (object : Nat) (name : Bytes) (v : Value) :
    Placed ρ (st.setField object name v)
      (st'.setField (ρ.instances.move object) name (v.relocate ρ)) := by
  have hspread := h.instances.modify object (u := fun o => ⟨o.cls, o.fields.set name v⟩)
    (v := fun o => ⟨o.cls, o.fields.set name (v.relocate ρ)⟩) fun o o' hmoved => by
      rw [hmoved, Instance.relocate, Instance.relocate, Bindings.map_set]
  exact { h with instances := hspread }

theorem Placed.tick (h : Placed ρ st st') : Placed ρ st.tick st'.tick :=
  { h with clock := congrArg (Clock.after · 1) h.clock }

/-- A method bound to an instance gets a new environment in either store. -/
theorem Placed.bindMethod (h : Placed ρ st st') (c : Closure) (object : Nat) :
    (st'.bindMethod (c.relocate ρ) (ρ.instances.move object)).1 =
        (st.bindMethod c object).1.relocate ρ ∧
      Placed ρ (st.bindMethod c object).2
        (st'.bindMethod (c.relocate ρ) (ρ.instances.move object)).2 := by
  have hnew := h.newEnv (some c.env)
    (Bindings.empty.set (utf8 "this") (.objectRef object))
  refine ⟨?_, hnew⟩
  simp only [Store.bindMethod, Store.newEnv, Closure.relocate, h.move_size]

/-! ## Readings -/

theorem Placed.climb_eq (h : Placed ρ st st') (k env : Nat) :
    st'.climb k (ρ.envs.move env) = (st.climb k env).map ρ.envs.move := by
  induction k generalizing env with
  | zero => rfl
  | succ k ih =>
      rw [climb_succ, climb_succ, h.parent]
      cases st.parent? env with
      | none => rfl
      | some parent => exact ih parent

/-- A binding at a depth is found in the moved environment, unless it is missing. -/
theorem Placed.bindingAt_eq (h : Placed ρ st st') (env depth : Nat) (name : Bytes) :
    (∃ d, st.bindingAt env depth name = .error d) ∨
      ∃ owner v, st.bindingAt env depth name = .ok (owner, v) ∧ owner < st.envs.size ∧
        st'.bindingAt (ρ.envs.move env) depth name = .ok (ρ.envs.move owner, v.relocate ρ) := by
  cases hbinding : st.bindingAt env depth name with
  | error d => exact .inl ⟨d, rfl⟩
  | ok found =>
      obtain ⟨owner, v⟩ := found
      obtain ⟨hclimb, hat⟩ := bindingAt_eq_ok_iff.mp hbinding
      refine .inr ⟨owner, v, rfl, lt_of_at? hat, ?_⟩
      apply bindingAt_eq_ok
      · rw [h.climb_eq, hclimb]
        rfl
      · rw [h.vars, hat]
        rfl

theorem Placed.getAt_eq (h : Placed ρ st st') (env depth : Nat) (name : Bytes) :
    (∃ d, st.getAt env depth name = .error d) ∨
      ∃ v, st.getAt env depth name = .ok v ∧
        st'.getAt (ρ.envs.move env) depth name = .ok (v.relocate ρ) := by
  unfold getAt
  rcases h.bindingAt_eq env depth name with ⟨d, hbroken⟩ | ⟨owner, v, hfirst, _, hsecond⟩
  · exact .inl ⟨d, by rw [hbroken]; rfl⟩
  · exact .inr ⟨v, by rw [hfirst]; rfl, by rw [hsecond]; rfl⟩

/-- A search that may go on longer, because its places are higher, finds the same. -/
theorem Placed.nearest_eq (h : Placed ρ st st') (holder : ∀ o p, st.parent? o = some p → p < o)
    (env : Nat) (name : Bytes) :
    st'.nearest? (ρ.envs.move env) name =
      (st.nearest? env name).map fun found => (ρ.envs.move found.1, found.2.relocate ρ) := by
  have hsearch : ∀ env steps, env < steps → st'.search name steps (ρ.envs.move env) =
      (st.nearest? env name).map fun found => (ρ.envs.move found.1, found.2.relocate ρ) := by
    -- A parent is older, so any number of steps greater than the place is enough.
    intro env
    induction env using Nat.strongRecOn with
    | ind env ih =>
        intro steps hsteps
        obtain ⟨steps, rfl⟩ := Nat.exists_eq_add_one_of_ne_zero (Nat.ne_zero_of_lt hsteps)
        rw [search_succ, nearest?, search_succ, h.vars]
        cases st.at? env name with
        | some v => rfl
        | none =>
            rw [Option.map_none, h.parent]
            cases hparent : st.parent? env with
            | none => rfl
            | some parent =>
                have hlt := holder env parent hparent
                rw [Option.map_some, Option.bind_some, Option.bind_some,
                  search_eq_nearest? holder hlt]
                exact ih parent hlt steps (Nat.lt_of_lt_of_le hlt (Nat.le_of_lt_succ hsteps))
  exact hsearch env _ (Nat.lt_succ_of_le (Gap.le_move ..))

theorem searchMethod_succ (name : Bytes) (steps cls : Nat) :
    st.searchMethod name (steps + 1) cls =
      st.classes[cls]?.bind fun k =>
        (k.own? name).or (k.superclass.bind (st.searchMethod name steps)) := by
  rw [searchMethod]
  cases st.classes[cls]? with
  | none => rfl
  | some k => cases hown : k.own? name <;> cases hparent : k.superclass <;> simp [hown, hparent]

/-- The method of a class is that of the moved class. -/
theorem Placed.method_eq (h : Placed ρ st st')
    (horder : ∀ cls parent, st.Inherits cls parent → parent < cls) (cls : Nat) (name : Bytes) :
    st'.method? (ρ.classes.move cls) name = (st.method? cls name).map (Closure.relocate ρ) := by
  have hsearch : ∀ cls steps more, cls < steps → cls < more →
      st'.searchMethod name more (ρ.classes.move cls) =
        (st.searchMethod name steps cls).map (Closure.relocate ρ) := by
    intro cls
    induction cls using Nat.strongRecOn with
    | ind cls ih =>
        intro steps more hsteps hmore
        obtain ⟨steps, rfl⟩ := Nat.exists_eq_add_one_of_ne_zero (Nat.ne_zero_of_lt hsteps)
        obtain ⟨more, rfl⟩ := Nat.exists_eq_add_one_of_ne_zero (Nat.ne_zero_of_lt hmore)
        rw [searchMethod_succ, searchMethod_succ]
        have helem := h.classes.elems cls
        generalize hk : st.classes[cls]? = found at helem ⊢
        generalize st'.classes[ρ.classes.move cls]? = found' at helem ⊢
        cases helem with
        | none => rfl
        | @some k k' hmoved =>
            rw [Option.bind_some, Option.bind_some, hmoved.own, hmoved.superclass]
            cases k.own? name with
            | some c => rfl
            | none =>
                cases hparent : k.superclass with
                | none => rfl
                | some parent =>
                    have hlt := horder cls parent ⟨k, hk, hparent⟩
                    exact ih parent hlt steps more (by omega) (by omega)
  exact hsearch cls _ _ (Nat.lt_succ_self _) (Nat.lt_succ_of_le (Gap.le_move ..))

theorem Placed.className_eq (h : Placed ρ st st') (cls : Nat) :
    st'.classes[ρ.classes.move cls]?.map Class.name = st.classes[cls]?.map Class.name := by
  have helem := h.classes.elems cls
  generalize st.classes[cls]? = k at helem ⊢
  generalize st'.classes[ρ.classes.move cls]? = k' at helem ⊢
  cases helem with
  | some hmoved => exact congrArg some hmoved.name
  | none => rfl

theorem Placed.text_eq (h : Placed ρ st st') (v : Value) :
    st'.text (v.relocate ρ) = st.text v := by
  cases v with
  | bool value => cases value <;> rfl
  | classRef ref => simp only [Value.relocate, text, h.className_eq]
  | objectRef ref =>
      simp only [Value.relocate, text, h.instances.map_eq]
      cases st.instances[ref]? with
      | none => rfl
      | some o =>
          simp only [Option.map_some, Option.bind_some, Instance.relocate, h.className_eq]
  | function ref =>
      simp only [Value.relocate, text, h.functions.map_eq, Option.map_map, Function.comp_def,
        Closure.relocate, Function.name_renumber]
  | native ref => simp only [Value.relocate, text, h.natives]
  | _ => rfl

theorem Placed.debugText_eq (h : Placed ρ st st') (v : Value) :
    st'.debugText (v.relocate ρ) = st.debugText v := by
  have htext := h.text_eq v
  cases v with
  | string value => rfl
  | _ => exact htext

end Store

/-! ## Moving numbers only -/

/-- The relocation that leaves everything but node numbers in its place. -/
def Relocation.renumbering (ids : Gap) : Relocation :=
  ⟨ids, ⟨0, 0⟩, ⟨0, 0⟩, ⟨0, 0⟩, ⟨0, 0⟩⟩

theorem Gap.move_empty : (⟨0, 0⟩ : Gap).move = id :=
  funext fun i => move_of_le (Nat.zero_le i)

theorem Spread.of_self {α : Type} {R : α → α → Prop} {xs : Array α}
    (h : ∀ (i : Nat) x, xs[i]? = some x → R x x) : Spread ⟨0, 0⟩ R xs xs where
  start := Nat.zero_le _
  size := rfl
  elems i := by
    rw [Gap.move_empty, id]
    cases hx : xs[i]? with
    | none => exact .none
    | some x => exact .some (h i x hx)

section Renumbering

variable {ids : Gap}

theorem Value.relocate_renumbering : Value.relocate (.renumbering ids) = id := by
  funext v
  cases v <;> simp only [Value.relocate, Relocation.renumbering, Gap.move_empty, id]

theorem Closure.relocate_renumbering {c : Closure} (h : c.decl.renumber ids.move = c.decl) :
    c.relocate (.renumbering ids) = c := by
  simp only [Closure.relocate, Relocation.renumbering, Gap.move_empty, h, id]

theorem Instance.relocate_renumbering (o : Instance) : o.relocate (.renumbering ids) = o := by
  rw [Instance.relocate, Value.relocate_renumbering]
  simp only [Relocation.renumbering, Gap.move_empty, Bindings.map, id, List.map_id']

/-- A store in whose code no number moves is placed in itself. -/
theorem Store.placed_renumbering {st : Store}
    (hfunctions : ∀ (i : Nat) c, st.functions[i]? = some c → c.decl.renumber ids.move = c.decl)
    (hmethods : ∀ (i : Nat) k n c, st.classes[i]? = some k → k.own? n = some c →
      c.decl.renumber ids.move = c.decl) :
    Placed (.renumbering ids) st st where
  envStart := Nat.zero_le _
  envCount := rfl
  parent o := by
    simp only [Relocation.renumbering, Gap.move_empty, id, Option.map_id_fun]
  vars o n := by
    rw [Value.relocate_renumbering, Option.map_id_fun]
    simp only [Relocation.renumbering, Gap.move_empty, id]
  functions := .of_self fun i c hc => (Closure.relocate_renumbering (hfunctions i c hc)).symm
  classes := by
    refine .of_self fun i k hk => ⟨rfl, ?_, fun n => ?_⟩
    · simp only [Relocation.renumbering, Gap.move_empty, Option.map_id_fun, id]
    · cases hc : k.own? n with
      | none => rfl
      | some c => rw [Option.map_some, Closure.relocate_renumbering (hmethods i k n c hk hc)]
  instances := .of_self fun i o _ => o.relocate_renumbering.symm
  natives := rfl
  clock := rfl

end Renumbering

end LoxMachine
