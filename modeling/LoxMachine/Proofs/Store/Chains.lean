import LoxMachine.Proofs.Scope.Sites
import LoxMachine.Proofs.Store.Environments

/-!
# Chains of environments

Code runs in a chain of environments that are instances of the layers it was written
in.  A world says of each environment what it was made for; it is not part of the
store, but what the store has to live up to.
-/

namespace LoxMachine

open Scope

/-- What an environment was made for. -/
inductive Origin where
  | globals
  | scope (region : Region) (declares : List Bytes)

/-- Whether a name may be bound in an environment of that origin. -/
def Origin.Allows : Origin → Bytes → Prop
  | .globals, _ => True
  | .scope _ declares, name => name ∈ declares

def Scope.Layer.origin (layer : Layer) : Origin :=
  .scope layer.region layer.declares

/-- The origins of environments by their places. -/
def World : Type := Nat → Origin

namespace World

/-- The world with one more environment. -/
def extend (W : World) (env : Nat) (origin : Origin) : World :=
  fun o => if o = env then origin else W o

/-- The worlds agree on the first environments. -/
def Agrees (W W' : World) (size : Nat) : Prop :=
  ∀ o < size, W' o = W o

theorem Agrees.refl (W : World) (size : Nat) : W.Agrees W size :=
  fun _ _ => rfl

theorem Agrees.trans {W W' W'' : World} {size size' : Nat} (h : W.Agrees W' size)
    (h' : W'.Agrees W'' size') (hle : size ≤ size') : W.Agrees W'' size :=
  fun o ho => (h' o (Nat.lt_of_lt_of_le ho hle)).trans (h o ho)

theorem agrees_extend (W : World) (size : Nat) (origin : Origin) :
    W.Agrees (W.extend size origin) size :=
  fun _ ho => if_neg (Nat.ne_of_lt ho)

theorem extend_self (W : World) (env : Nat) (origin : Origin) :
    W.extend env origin env = origin :=
  if_pos rfl

end World

namespace Store

/-! ## Later stores -/

/-- Whatever was in the store is still there, and what was bound is bound. -/
structure Extends (st st' : Store) : Prop where
  size : st.envs.size ≤ st'.envs.size
  parent : ∀ o p, st.parent? o = some p → st'.parent? o = some p
  bound : ∀ o n, (st.at? o n).isSome → (st'.at? o n).isSome
  functions : st.functions.size ≤ st'.functions.size
  classes : st.classes.size ≤ st'.classes.size
  instances : st.instances.size ≤ st'.instances.size
  natives : st.natives.size ≤ st'.natives.size

theorem Extends.refl (st : Store) : st.Extends st :=
  ⟨Nat.le_refl _, fun _ _ h => h, fun _ _ h => h, Nat.le_refl _, Nat.le_refl _, Nat.le_refl _,
    Nat.le_refl _⟩

theorem Extends.trans {a b c : Store} (h : a.Extends b) (h' : b.Extends c) : a.Extends c where
  size := Nat.le_trans h.size h'.size
  parent o p hp := h'.parent o p (h.parent o p hp)
  bound o n hn := h'.bound o n (h.bound o n hn)
  functions := Nat.le_trans h.functions h'.functions
  classes := Nat.le_trans h.classes h'.classes
  instances := Nat.le_trans h.instances h'.instances
  natives := Nat.le_trans h.natives h'.natives

/-- A value refers to something in the store, if to anything. -/
def Knows (st : Store) : Value → Prop
  | .classRef ref => ref < st.classes.size
  | .objectRef ref => ref < st.instances.size
  | .function ref => ref < st.functions.size
  | .native ref => ref < st.natives.size
  | _ => True

theorem Knows.mono {st st' : Store} {v : Value} (h : st.Knows v) (hext : st.Extends st') :
    st'.Knows v := by
  cases v with
  | classRef ref => exact Nat.lt_of_lt_of_le h hext.classes
  | objectRef ref => exact Nat.lt_of_lt_of_le h hext.instances
  | function ref => exact Nat.lt_of_lt_of_le h hext.functions
  | native ref => exact Nat.lt_of_lt_of_le h hext.natives
  | _ => trivial

/-! ## Chains -/

/-- From `env` outwards there is an environment for each layer, which binds what can be
used there, and then come the globals. The layer of a module is the environment `base`. -/
def Chain (W : World) (st : Store) (base : Nat) : List Layer → Nat → Prop
  | [], env => env = 0
  | layer :: Γ, env =>
      (∃ parent, st.parent? env = some parent ∧ Chain W st base Γ parent) ∧
      W env = layer.origin ∧
      (∀ n, layer.names.get? n = some true → (st.at? env n).isSome) ∧
      (layer.region = .module → env = base)

variable {W W' : World} {st st' : Store} {base env depth : Nat} {Γ : List Layer}
  {layer : Layer} {name : Bytes}

theorem Chain.mono (h : Chain W st base Γ env) (hext : st.Extends st')
    (hW : W.Agrees W' st.envs.size) : Chain W' st' base Γ env := by
  induction Γ generalizing env with
  | nil => exact h
  | cons layer Γ ih =>
      obtain ⟨⟨parent, hparent, hrest⟩, horigin, hnames, hbase⟩ := h
      refine ⟨⟨parent, hext.parent _ _ hparent, ih hrest⟩, ?_, ?_, hbase⟩
      · exact (hW env (lt_of_parent? hparent)).trans horigin
      · exact fun n hn => hext.bound _ _ (hnames n hn)

/-- The environment of a layer. -/
theorem Chain.climb (h : Chain W st base Γ env) (hlayer : Γ[depth]? = some layer) :
    ∃ owner parent, st.climb depth env = some owner ∧ st.parent? owner = some parent ∧
      W owner = layer.origin ∧ (∀ n, layer.names.get? n = some true → (st.at? owner n).isSome) ∧
      (layer.region = .module → owner = base) := by
  induction Γ generalizing env depth with
  | nil => cases hlayer
  | cons top Γ ih =>
      obtain ⟨⟨parent, hparent, hrest⟩, horigin, hnames, hbase⟩ := h
      cases depth with
      | zero =>
          cases hlayer
          exact ⟨env, parent, rfl, hparent, horigin, hnames, hbase⟩
      | succ depth =>
          obtain ⟨owner, outer, hclimb, hown⟩ := ih hrest hlayer
          refine ⟨owner, outer, ?_, hown⟩
          rw [climb_succ, hparent]
          exact hclimb

/-- Beyond the layers come the globals. -/
theorem Chain.climb_length (h : Chain W st base Γ env) : st.climb Γ.length env = some 0 := by
  induction Γ generalizing env with
  | nil => exact congrArg some h
  | cons top Γ ih =>
      obtain ⟨⟨parent, hparent, hrest⟩, _⟩ := h
      rw [List.length_cons, climb_succ, hparent]
      exact ih hrest

/-- A name that is declared but cannot be used asks for nothing. -/
theorem Chain.mark_false (h : Chain W st base Γ env) (name : Bytes) :
    Chain W st base (mark name false Γ) env := by
  cases Γ with
  | nil => exact h
  | cons layer Γ =>
      obtain ⟨hparent, horigin, hnames, hbase⟩ := h
      refine ⟨hparent, horigin, ?_, hbase⟩
      intro n hn
      by_cases hname : n = name
      · subst hname
        rw [Bindings.get?_set_self] at hn
        cases hn
      · rw [Bindings.get?_set_ne _ hname] at hn
        exact hnames n hn

/-- Names that are bound can be used. -/
theorem Chain.bindAll (h : Chain W st base Γ env) {ns : List Bytes}
    (hns : ∀ n ∈ ns, (st.at? env n).isSome) : Chain W st base (bindAll ns Γ) env := by
  cases Γ with
  | nil => rwa [bindAll_nil]
  | cons layer Γ =>
      rw [bindAll_cons]
      obtain ⟨hparent, horigin, hnames, hbase⟩ := h
      refine ⟨hparent, horigin, ?_, hbase⟩
      intro n hn
      rw [get?_bindNames] at hn
      split at hn
      next hmem => exact hns n hmem
      next => exact hnames n hn

/-- A new environment for one more layer. -/
theorem Chain.push (h : Chain W st base Γ env) {fresh : Nat}
    (hparent : st.parent? fresh = some env) (horigin : W fresh = layer.origin)
    (hnames : ∀ n, layer.names.get? n = some true → (st.at? fresh n).isSome)
    (hbase : layer.region = .module → fresh = base) : Chain W st base (layer :: Γ) fresh :=
  ⟨⟨env, hparent, h⟩, horigin, hnames, hbase⟩

/-! ## What a name needs to be bound -/

/-- The names can be bound in the innermost layer. -/
def Room : List Layer → List Bytes → Prop
  | [], _ => True
  | layer :: _, ns => ∀ n ∈ ns, n ∈ layer.declares

theorem Room.mono {ns ms : List Bytes} (h : Room Γ ns) (hsub : ∀ n ∈ ms, n ∈ ns) :
    Room Γ ms := by
  cases Γ with
  | nil => trivial
  | cons layer Γ => exact fun n hn => h n (hsub n hn)

theorem Room.bindAll {ns : List Bytes} (h : Room Γ ns) (ms : List Bytes) :
    Room (bindAll ms Γ) ns := by
  cases Γ with
  | nil => rwa [bindAll_nil]
  | cons layer Γ => rwa [bindAll_cons]

theorem Chain.allows (h : Chain W st base Γ env) (hroot : W 0 = .globals) {ns : List Bytes}
    (hroom : Room Γ ns) (hmem : name ∈ ns) : (W env).Allows name := by
  cases Γ with
  | nil =>
      obtain rfl : env = 0 := h
      rw [hroot]
      trivial
  | cons layer Γ =>
      rw [h.2.1]
      exact hroom name hmem

end Store

end LoxMachine
