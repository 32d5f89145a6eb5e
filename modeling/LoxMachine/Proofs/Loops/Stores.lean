import LoxMachine.Proofs.Loops.Scopes
import LoxMachine.Proofs.Machine.Effects
import LoxMachine.Proofs.Relocation.Stores

/-!
# Stores without the environments of rounds

The environment that is made for a round of a loop never binds anything.  A store can be folded
into one that has no such environments: whatever refers to one of them refers to the
environment around it, and all that can be looked up is found in the folded store.
-/

namespace LoxMachine

/-- Which environments are those of rounds, and where the others are in a folded store. The
environment of a round is folded into the one around it. -/
structure Folding where
  place : Nat → Nat
  idle : Nat → Bool

namespace Folding

/-- The folding of a store with one more environment. -/
def extend (φ : Folding) (env place : Nat) (idle : Bool) : Folding :=
  ⟨fun o => if o = env then place else φ.place o, fun o => if o = env then idle else φ.idle o⟩

/-- The foldings agree on the first environments. -/
def Agrees (φ φ' : Folding) (size : Nat) : Prop :=
  ∀ o < size, φ'.place o = φ.place o ∧ φ'.idle o = φ.idle o

theorem agrees_refl (φ : Folding) (size : Nat) : φ.Agrees φ size :=
  fun _ _ => ⟨rfl, rfl⟩

theorem agrees_extend (φ : Folding) (size place : Nat) (idle : Bool) :
    φ.Agrees (φ.extend size place idle) size :=
  fun _ ho => ⟨if_neg (Nat.ne_of_lt ho), if_neg (Nat.ne_of_lt ho)⟩

@[simp] theorem extend_place_self (φ : Folding) (env place : Nat) (idle : Bool) :
    (φ.extend env place idle).place env = place := if_pos rfl

@[simp] theorem extend_idle_self (φ : Folding) (env place : Nat) (idle : Bool) :
    (φ.extend env place idle).idle env = idle := if_pos rfl

end Folding

variable {φ φ' : Folding}

/-! ## Closures and classes -/

def Closure.fold (φ : Folding) (c : Closure) : Closure :=
  ⟨c.decl, φ.place c.env⟩

def Class.fold (φ : Folding) (k : Class) : Class :=
  ⟨k.name, k.superclass, k.init.map (Closure.fold φ), k.methods.map (Closure.fold φ)⟩

/-- The methods of a class. -/
def Class.closures (k : Class) : List Closure :=
  k.init.toList ++ k.methods.entries.map Prod.snd

theorem Class.own?_fold (φ : Folding) (k : Class) (name : Bytes) :
    (k.fold φ).own? name = (k.own? name).map (Closure.fold φ) := by
  unfold Class.own? Class.fold
  split
  · cases k.init <;> simp
  · simp

theorem Bindings.mem_of_get? {α : Type} {b : Bindings α} {name : Bytes} {value : α}
    (h : b.get? name = some value) : value ∈ b.entries.map Prod.snd := by
  obtain ⟨entries⟩ := b
  unfold Bindings.get? at h
  induction entries with
  | nil => cases h
  | cons entry rest ih =>
      rw [Bindings.find?] at h
      split at h
      · cases h
        exact List.mem_cons_self
      · exact List.mem_cons_of_mem _ (ih h)

theorem Class.mem_closures {k : Class} {name : Bytes} {c : Closure} (h : k.own? name = some c) :
    c ∈ k.closures := by
  have hinit : k.init = some c → c ∈ k.closures := fun hinit =>
    List.mem_append_left _ (Option.mem_toList.mpr hinit)
  have hmethod : k.methods.get? name = some c → c ∈ k.closures := fun hmethod =>
    List.mem_append_right _ (Bindings.mem_of_get? hmethod)
  unfold Class.own? at h
  split at h
  · rcases Option.or_eq_some_iff.mp h with h | ⟨_, h⟩
    · exact hinit h
    · exact hmethod h
  · exact hmethod h

theorem Closure.fold_congr {size : Nat} (hφ : φ.Agrees φ' size) {c : Closure}
    (hc : c.env < size) : c.fold φ' = c.fold φ := by
  rw [fold, fold, (hφ c.env hc).1]

theorem Class.fold_congr {size : Nat} (hφ : φ.Agrees φ' size) {k : Class}
    (hk : ∀ c ∈ k.closures, c.env < size) : k.fold φ' = k.fold φ := by
  have hinit : k.init.map (Closure.fold φ') = k.init.map (Closure.fold φ) :=
    Option.map_congr fun c hc => Closure.fold_congr hφ
      (hk c (List.mem_append_left _ (Option.mem_toList.mpr hc)))
  have hmethods : k.methods.map (Closure.fold φ') = k.methods.map (Closure.fold φ) := by
    refine congrArg Bindings.mk (List.map_congr_left fun entry hentry => ?_)
    rw [Closure.fold_congr hφ (hk entry.2 (List.mem_append_right _ (List.mem_map_of_mem hentry)))]
  rw [fold, fold, hinit, hmethods]

namespace Store

/-- Everything callable was declared in an environment of the store. -/
structure Bounded (st : Store) : Prop where
  functions : ∀ c ∈ st.functions, c.env < st.envs.size
  classes : ∀ k ∈ st.classes, ∀ c ∈ k.closures, c.env < st.envs.size

/-- The second store is the first one without the environments of rounds, which are empty. -/
structure Folded (φ : Folding) (st st' : Store) : Prop where
  nonempty : Session.globals < st.envs.size
  globals : φ.idle Session.globals = false ∧ φ.place Session.globals = Session.globals
  parent : ∀ o < st.envs.size, φ.idle o = false →
    st'.parent? (φ.place o) = (st.parent? o).map φ.place
  vars : ∀ o < st.envs.size, φ.idle o = false → ∀ n, st'.at? (φ.place o) n = st.at? o n
  round : ∀ o < st.envs.size, φ.idle o = true →
    (∃ p, st.parent? o = some p ∧ φ.place o = φ.place p) ∧ ∀ n, st.at? o n = none
  lt : ∀ o < st.envs.size, φ.place o < st'.envs.size
  unique : ∀ o < st.envs.size, ∀ u < st.envs.size, φ.idle o = false → φ.idle u = false →
    φ.place o = φ.place u → o = u
  whole : ∀ u < st'.envs.size, ∃ o < st.envs.size, φ.idle o = false ∧ φ.place o = u
  older : ∀ o p, st.parent? o = some p → p < o
  older' : ∀ o p, st'.parent? o = some p → p < o
  functions : st'.functions = st.functions.map (Closure.fold φ)
  classes : st'.classes = st.classes.map (Class.fold φ)
  instances : st'.instances = st.instances
  natives : st'.natives = st.natives
  clock : st'.clock = st.clock

variable {st st' : Store} {env : Nat} {g : List Bool}

theorem Bounded.functions_fold_congr (h : st.Bounded) (hφ : φ.Agrees φ' st.envs.size) :
    st.functions.map (Closure.fold φ') = st.functions.map (Closure.fold φ) :=
  Array.map_congr_left fun c hc => Closure.fold_congr hφ (h.functions c hc)

theorem Bounded.classes_fold_congr (h : st.Bounded) (hφ : φ.Agrees φ' st.envs.size) :
    st.classes.map (Class.fold φ') = st.classes.map (Class.fold φ) :=
  Array.map_congr_left fun k hk => Class.fold_congr hφ (h.classes k hk)

/-- What binds a name is not the environment of a round. -/
theorem Folded.bare_of_at? (h : Folded φ st st') {name : Bytes} {v : Value}
    (hat : st.at? env name = some v) : φ.idle env = false := by
  by_contra hidle
  have hnone := (h.round env (lt_of_at? hat) (Bool.not_eq_false _ ▸ hidle)).2 name
  cases hat.symm.trans hnone

/-! ## Operations -/

theorem Folded.define (h : Folded φ st st') (henv : env < st.envs.size)
    (hbare : φ.idle env = false) (name : Bytes) (v : Value) :
    Folded φ (st.define env name v) (st'.define (φ.place env) name v) where
  nonempty := Nat.lt_of_lt_of_eq h.nonempty size_define.symm
  globals := h.globals
  parent o ho hidle := by
    rw [size_define] at ho
    rw [parent?_define, parent?_define, h.parent o ho hidle]
  vars o ho hidle n := by
    rw [size_define] at ho
    have heq : φ.place o = φ.place env ↔ o = env :=
      ⟨h.unique o ho env henv hidle hbare, congrArg φ.place⟩
    rw [at?_define henv, at?_define (h.lt env henv), h.vars o ho hidle]
    simp only [heq]
  round o ho hidle := by
    rw [size_define] at ho
    obtain ⟨hparent, hnone⟩ := h.round o ho hidle
    refine ⟨?_, fun n => ?_⟩
    · rw [parent?_define]
      exact hparent
    · have hne : o ≠ env := by
        rintro rfl
        cases hidle.symm.trans hbare
      rw [at?_define henv, if_neg fun heq => hne heq.1, hnone]
  lt o ho := by
    rw [size_define] at ho ⊢
    exact h.lt o ho
  unique o ho u hu := by
    rw [size_define] at ho hu
    exact h.unique o ho u hu
  whole u hu := by
    rw [size_define] at hu ⊢
    exact h.whole u hu
  older o p hp := h.older o p (parent?_define o ▸ hp)
  older' o p hp := h.older' o p (parent?_define o ▸ hp)
  functions := h.functions
  classes := h.classes
  instances := h.instances
  natives := h.natives
  clock := h.clock

section NewEnv

variable {parent : Nat} {vars : Bindings Value}

theorem parent?_newEnv_lt {o : Nat} (ho : o < st.envs.size) :
    (st.newEnv (some parent) vars).2.parent? o = st.parent? o := by
  rw [parent?_newEnv, if_neg (Nat.ne_of_lt ho)]

theorem lt_or_eq_newEnv {o : Nat} (ho : o < (st.newEnv (some parent) vars).2.envs.size) :
    o < st.envs.size ∨ o = st.envs.size := by
  rw [size_newEnv] at ho
  exact Nat.lt_or_eq_of_le (Nat.le_of_lt_succ ho)

theorem older_newEnv (holder : ∀ o p, st.parent? o = some p → p < o)
    (hparent : parent < st.envs.size) (o p : Nat)
    (hp : (st.newEnv (some parent) vars).2.parent? o = some p) : p < o := by
  rw [parent?_newEnv] at hp
  split at hp
  next heq =>
    cases hp
    exact heq ▸ hparent
  next => exact holder o p hp

/-- The places of parents stay what they were. -/
theorem Folded.map_place (h : Folded φ st st') (hφ : φ.Agrees φ' st.envs.size) {o : Nat}
    (ho : o < st.envs.size) : (st.parent? o).map φ'.place = (st.parent? o).map φ.place :=
  Option.map_congr fun p hp => (hφ p (Nat.lt_trans (h.older o p hp) ho)).1

/-- The globals stay what they were. -/
theorem Folded.globals_extend (h : Folded φ st st') (hφ : φ.Agrees φ' st.envs.size) :
    φ'.idle Session.globals = false ∧ φ'.place Session.globals = Session.globals := by
  obtain ⟨hplace, hidle⟩ := hφ Session.globals h.nonempty
  exact ⟨hidle.trans h.globals.1, hplace.trans h.globals.2⟩

/-- The environments of earlier rounds stay empty, and are folded into the same ones. -/
theorem Folded.round_newEnv (h : Folded φ st st') (hφ : φ.Agrees φ' st.envs.size) {o : Nat}
    (ho : o < st.envs.size) (hidle : φ'.idle o = true) :
    (∃ p, (st.newEnv (some parent) vars).2.parent? o = some p ∧ φ'.place o = φ'.place p) ∧
      ∀ n, (st.newEnv (some parent) vars).2.at? o n = none := by
  rw [(hφ o ho).2] at hidle
  obtain ⟨⟨p, hp, hplace⟩, hnone⟩ := h.round o ho hidle
  refine ⟨⟨p, ?_, ?_⟩, fun n => ?_⟩
  · rw [parent?_newEnv_lt ho, hp]
  · rw [(hφ o ho).1, (hφ p (Nat.lt_trans (h.older o p hp) ho)).1, hplace]
  · rw [at?_newEnv_lt ho, hnone]

theorem nonempty_newEnv (hnonempty : Session.globals < st.envs.size) :
    Session.globals < (st.newEnv (some parent) vars).2.envs.size := by
  rw [size_newEnv]
  exact Nat.lt_succ_of_lt hnonempty

theorem Folded.newEnv (h : Folded φ st st') (hbound : st.Bounded)
    (hparent : parent < st.envs.size) (vars : Bindings Value) :
    Folded (φ.extend st.envs.size st'.envs.size false) (st.newEnv (some parent) vars).2
      (st'.newEnv (some (φ.place parent)) vars).2 := by
  have hφ := φ.agrees_extend st.envs.size st'.envs.size false
  constructor
  case nonempty => exact nonempty_newEnv h.nonempty
  case globals => exact h.globals_extend hφ
  case parent =>
    intro o ho hidle
    rcases lt_or_eq_newEnv ho with ho | rfl
    · rw [(hφ o ho).2] at hidle
      rw [(hφ o ho).1, parent?_newEnv_lt ho, parent?_newEnv_lt (h.lt o ho), h.map_place hφ ho,
        h.parent o ho hidle]
    · rw [Folding.extend_place_self, parent?_newEnv, parent?_newEnv, if_pos rfl, if_pos rfl,
        Option.map_some, (hφ parent hparent).1]
  case vars =>
    intro o ho hidle n
    rcases lt_or_eq_newEnv ho with ho | rfl
    · rw [(hφ o ho).2] at hidle
      rw [(hφ o ho).1, at?_newEnv_lt ho, at?_newEnv_lt (h.lt o ho), h.vars o ho hidle]
    · rw [Folding.extend_place_self, at?_newEnv, at?_newEnv, if_pos rfl, if_pos rfl]
  case round =>
    intro o ho hidle
    rcases lt_or_eq_newEnv ho with ho | rfl
    · exact h.round_newEnv hφ ho hidle
    · rw [Folding.extend_idle_self] at hidle
      cases hidle
  case lt =>
    intro o ho
    rw [size_newEnv]
    rcases lt_or_eq_newEnv ho with ho | rfl
    · rw [(hφ o ho).1]
      exact Nat.lt_succ_of_lt (h.lt o ho)
    · rw [Folding.extend_place_self]
      exact Nat.lt_succ_self _
  case unique =>
    intro o ho u hu hidle hidle' heq
    rcases lt_or_eq_newEnv ho with ho | rfl
    · rcases lt_or_eq_newEnv hu with hu | rfl
      · rw [(hφ o ho).2] at hidle
        rw [(hφ u hu).2] at hidle'
        rw [(hφ o ho).1, (hφ u hu).1] at heq
        exact h.unique o ho u hu hidle hidle' heq
      · rw [(hφ o ho).1, Folding.extend_place_self] at heq
        exact absurd heq (Nat.ne_of_lt (h.lt o ho))
    · rcases lt_or_eq_newEnv hu with hu | rfl
      · rw [(hφ u hu).1, Folding.extend_place_self] at heq
        exact absurd heq.symm (Nat.ne_of_lt (h.lt u hu))
      · rfl
  case whole =>
    intro u hu
    rw [size_newEnv]
    rcases lt_or_eq_newEnv hu with hu | rfl
    · obtain ⟨o, ho, hidle, hplace⟩ := h.whole u hu
      exact ⟨o, Nat.lt_succ_of_lt ho, (hφ o ho).2.trans hidle, (hφ o ho).1.trans hplace⟩
    · exact ⟨_, Nat.lt_succ_self _, Folding.extend_idle_self .., Folding.extend_place_self ..⟩
  case older => exact older_newEnv h.older hparent
  case older' => exact older_newEnv h.older' (h.lt parent hparent)
  case functions => exact h.functions.trans (hbound.functions_fold_congr hφ).symm
  case classes => exact h.classes.trans (hbound.classes_fold_congr hφ).symm
  case instances => exact h.instances
  case natives => exact h.natives
  case clock => exact h.clock

/-- The environment of a round has no counterpart. -/
theorem Folded.newRound (h : Folded φ st st') (hbound : st.Bounded)
    (hparent : parent < st.envs.size) :
    Folded (φ.extend st.envs.size (φ.place parent) true)
      (st.newEnv (some parent) Bindings.empty).2 st' := by
  have hφ := φ.agrees_extend st.envs.size (φ.place parent) true
  have hold : ∀ {o : Nat}, o < (st.newEnv (some parent) Bindings.empty).2.envs.size →
      (φ.extend st.envs.size (φ.place parent) true).idle o = false → o < st.envs.size := by
    intro o ho hidle
    rcases lt_or_eq_newEnv ho with ho | rfl
    · exact ho
    · rw [Folding.extend_idle_self] at hidle
      cases hidle
  constructor
  case nonempty => exact nonempty_newEnv h.nonempty
  case globals => exact h.globals_extend hφ
  case parent =>
    intro o ho hidle
    have ho := hold ho hidle
    rw [(hφ o ho).2] at hidle
    rw [(hφ o ho).1, parent?_newEnv_lt ho, h.map_place hφ ho, h.parent o ho hidle]
  case vars =>
    intro o ho hidle n
    have ho := hold ho hidle
    rw [(hφ o ho).2] at hidle
    rw [(hφ o ho).1, at?_newEnv_lt ho, h.vars o ho hidle]
  case round =>
    intro o ho hidle
    rcases lt_or_eq_newEnv ho with ho | rfl
    · exact h.round_newEnv hφ ho hidle
    · refine ⟨⟨parent, ?_, ?_⟩, fun n => ?_⟩
      · rw [parent?_newEnv, if_pos rfl]
      · rw [Folding.extend_place_self, (hφ parent hparent).1]
      · rw [at?_newEnv, if_pos rfl, Bindings.get?_empty]
  case lt =>
    intro o ho
    rcases lt_or_eq_newEnv ho with ho | rfl
    · rw [(hφ o ho).1]
      exact h.lt o ho
    · rw [Folding.extend_place_self]
      exact h.lt parent hparent
  case unique =>
    intro o ho u hu hidle hidle' heq
    have ho := hold ho hidle
    have hu := hold hu hidle'
    rw [(hφ o ho).2] at hidle
    rw [(hφ u hu).2] at hidle'
    rw [(hφ o ho).1, (hφ u hu).1] at heq
    exact h.unique o ho u hu hidle hidle' heq
  case whole =>
    intro u hu
    rw [size_newEnv]
    obtain ⟨o, ho, hidle, hplace⟩ := h.whole u hu
    exact ⟨o, Nat.lt_succ_of_lt ho, (hφ o ho).2.trans hidle, (hφ o ho).1.trans hplace⟩
  case older => exact older_newEnv h.older hparent
  case older' => exact h.older'
  case functions => exact h.functions.trans (hbound.functions_fold_congr hφ).symm
  case classes => exact h.classes.trans (hbound.classes_fold_congr hφ).symm
  case instances => exact h.instances
  case natives => exact h.natives
  case clock => exact h.clock

end NewEnv

theorem Folded.newFunction (h : Folded φ st st') (c : Closure) :
    Folded φ (st.newFunction c).2 (st'.newFunction (c.fold φ)).2 := by
  have hfunctions : (st'.newFunction (c.fold φ)).2.functions =
      (st.newFunction c).2.functions.map (Closure.fold φ) := by
    rw [Store.newFunction, Store.newFunction, Array.map_push, h.functions]
  exact { h with functions := hfunctions }

theorem Folded.newClass (h : Folded φ st st') (k : Class) :
    Folded φ (st.newClass k).2 (st'.newClass (k.fold φ)).2 := by
  have hclasses : (st'.newClass (k.fold φ)).2.classes =
      (st.newClass k).2.classes.map (Class.fold φ) := by
    rw [Store.newClass, Store.newClass, Array.map_push, h.classes]
  exact { h with classes := hclasses }

theorem Folded.newInstance (h : Folded φ st st') (cls : Nat) :
    Folded φ (st.newInstance cls).2 (st'.newInstance cls).2 :=
  { h with instances := congrArg (fun xs => xs.push ⟨cls, Bindings.empty⟩) h.instances }

theorem Folded.tick (h : Folded φ st st') : Folded φ st.tick st'.tick :=
  { h with clock := congrArg (Clock.after · 1) h.clock }

theorem Folded.setField (h : Folded φ st st') (object : Nat) (name : Bytes) (v : Value) :
    Folded φ (st.setField object name v) (st'.setField object name v) := by
  have hinstances : (st'.setField object name v).instances =
      (st.setField object name v).instances := by
    rw [Store.setField, Store.setField, h.instances]
  exact { h with instances := hinstances }

theorem Folded.functions_size (h : Folded φ st st') :
    st'.functions.size = st.functions.size := by
  rw [h.functions, Array.size_map]

theorem Folded.classes_size (h : Folded φ st st') : st'.classes.size = st.classes.size := by
  rw [h.classes, Array.size_map]

/-! ## Readings -/

theorem Folded.function_eq (h : Folded φ st st') (ref : Nat) :
    st'.functions[ref]? = st.functions[ref]?.map (Closure.fold φ) := by
  rw [h.functions, Array.getElem?_map]

/-- A search that passes the environments of rounds finds the same. -/
theorem Folded.nearest?_eq (h : Folded φ st st') (name : Bytes) (henv : env < st.envs.size) :
    st'.nearest? (φ.place env) name =
      (st.nearest? env name).map fun found => (φ.place found.1, found.2) := by
  induction env using Nat.strongRecOn with
  | ind env ih =>
      have houter : ∀ p, st.parent? env = some p → st.search name env p = st.nearest? p name :=
        fun p hp => search_eq_nearest? h.older (h.older env p hp)
      have hstep : st.nearest? env name = _ := search_succ env env
      cases hidle : φ.idle env with
      | true =>
          obtain ⟨⟨p, hp, hplace⟩, hnone⟩ := h.round env henv hidle
          have hlt := h.older env p hp
          rw [hstep, hnone, hp, hplace]
          dsimp only
          rw [Option.bind_some, houter p hp]
          exact ih p hlt (Nat.lt_trans hlt henv)
      | false =>
          rw [hstep, nearest?, search_succ, h.vars env henv hidle]
          cases st.at? env name with
          | some v => rfl
          | none =>
              rw [h.parent env henv hidle]
              cases hp : st.parent? env with
              | none => rfl
              | some p =>
                  have hlt := h.older env p hp
                  have hplace : st'.parent? (φ.place env) = some (φ.place p) := by
                    rw [h.parent env henv hidle, hp]
                    rfl
                  rw [Option.map_some]
                  dsimp only
                  rw [Option.bind_some, Option.bind_some, houter p hp,
                    search_eq_nearest? h.older' (h.older' _ _ hplace)]
                  exact ih p hlt (Nat.lt_trans hlt henv)

theorem Folded.method?_eq (h : Folded φ st st') (cls : Nat) (name : Bytes) :
    st'.method? cls name = (st.method? cls name).map (Closure.fold φ) := by
  have hsearch : ∀ steps cls, st'.searchMethod name steps cls =
      (st.searchMethod name steps cls).map (Closure.fold φ) := by
    intro steps
    induction steps with
    | zero => exact fun _ => rfl
    | succ steps ih =>
        intro cls
        rw [searchMethod_succ, searchMethod_succ, h.classes, Array.getElem?_map]
        cases st.classes[cls]? with
        | none => rfl
        | some k =>
            rw [Option.map_some, Option.bind_some, Option.bind_some, Class.own?_fold]
            cases k.own? name with
            | some c => rfl
            | none =>
                cases hparent : k.superclass with
                | none => simp only [Class.fold, hparent]; rfl
                | some parent =>
                    simp only [Class.fold, hparent]
                    exact ih parent
  exact hsearch _ cls

theorem Folded.text_eq (h : Folded φ st st') (v : Value) : st'.text v = st.text v := by
  have hname : ∀ cls : Nat, st'.classes[cls]?.map Class.name = st.classes[cls]?.map Class.name := by
    intro cls
    rw [h.classes, Array.getElem?_map, Option.map_map]
    rfl
  cases v with
  | bool value => cases value <;> rfl
  | classRef ref => simp only [text, hname]
  | objectRef ref =>
      simp only [text, h.instances]
      cases st.instances[ref]? with
      | none => rfl
      | some o => simp only [Option.bind_some, hname]
  | function ref =>
      simp only [text, h.function_eq, Option.map_map]
      rfl
  | native ref => simp only [text, h.natives]
  | _ => rfl

theorem Folded.debugText_eq (h : Folded φ st st') (v : Value) :
    st'.debugText v = st.debugText v := by
  have htext := h.text_eq v
  cases v with
  | string value => rfl
  | _ => exact htext

end Store

end LoxMachine
