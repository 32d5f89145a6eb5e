import LoxMachine.Proofs.Placing.Trees
import LoxMachine.Proofs.Relocation.Stores

/-!
# Stores with code in other places

The functions and classes of a store carry code.  Nothing a store is asked depends on
where that code stands.
-/

namespace LoxMachine

def Closure.place (f : Range → Range) (c : Closure) : Closure :=
  ⟨c.decl.place f, c.env⟩

def Class.place (f : Range → Range) (k : Class) : Class :=
  ⟨k.name, k.superclass, k.init.map (Closure.place f), k.methods.map (Closure.place f)⟩

def Store.place (f : Range → Range) (st : Store) : Store :=
  ⟨st.envs, st.functions.map (Closure.place f), st.classes.map (Class.place f), st.instances,
    st.natives, st.clock⟩

variable {f : Range → Range}

@[simp] theorem Closure.decl_place (c : Closure) : (c.place f).decl = c.decl.place f := rfl

@[simp] theorem Closure.env_place (c : Closure) : (c.place f).env = c.env := rfl

@[simp] theorem Class.own?_place (k : Class) (name : Bytes) :
    (k.place f).own? name = (k.own? name).map (Closure.place f) := by
  simp only [Class.own?, Class.place, Bindings.get?_map]
  split
  · cases k.init <;> rfl
  · rfl

namespace Store

/-! ## Environments -/

@[simp] theorem instances_place (st : Store) : (st.place f).instances = st.instances := rfl

@[simp] theorem search_place (st : Store) (name : Bytes) (steps env : Nat) :
    (st.place f).search name steps env = st.search name steps env := by
  induction steps generalizing env with
  | zero => rfl
  | succ steps ih =>
      simp only [search, ih]
      rfl

@[simp] theorem nearest?_place (st : Store) (env : Nat) (name : Bytes) :
    (st.place f).nearest? env name = st.nearest? env name :=
  st.search_place name (env + 1) env

@[simp] theorem get?_place (st : Store) (env : Nat) (name : Bytes) :
    (st.place f).get? env name = st.get? env name := by
  rw [get?, get?, nearest?_place]

@[simp] theorem climb_place (st : Store) (steps env : Nat) :
    (st.place f).climb steps env = st.climb steps env := by
  induction steps generalizing env with
  | zero => rfl
  | succ steps ih =>
      simp only [climb, ih]
      rfl

@[simp] theorem bindingAt_place (st : Store) (env depth : Nat) (name : Bytes) :
    (st.place f).bindingAt env depth name = st.bindingAt env depth name := by
  simp only [bindingAt, climb_place]
  rfl

@[simp] theorem getAt_place (st : Store) (env depth : Nat) (name : Bytes) :
    (st.place f).getAt env depth name = st.getAt env depth name := by
  rw [getAt, getAt, bindingAt_place]

@[simp] theorem newEnv_place (st : Store) (parent : Option Nat) (vars : Bindings Value) :
    (st.place f).newEnv parent vars =
      ((st.newEnv parent vars).1, (st.newEnv parent vars).2.place f) := rfl

/-! ## Functions, classes and instances -/

@[simp] theorem getElem?_functions_place (st : Store) (i : Nat) :
    (st.place f).functions[i]? = st.functions[i]?.map (Closure.place f) := by
  rw [place, Array.getElem?_map]

@[simp] theorem getElem?_classes_place (st : Store) (i : Nat) :
    (st.place f).classes[i]? = st.classes[i]?.map (Class.place f) := by
  rw [place, Array.getElem?_map]

@[simp] theorem newFunction_place (st : Store) (c : Closure) :
    (st.place f).newFunction (c.place f) =
      ((st.newFunction c).1, (st.newFunction c).2.place f) := by
  simp only [newFunction, place, Array.size_map, Array.map_push]

@[simp] theorem newClass_place (st : Store) (k : Class) :
    (st.place f).newClass (k.place f) = ((st.newClass k).1, (st.newClass k).2.place f) := by
  simp only [newClass, place, Array.size_map, Array.map_push]

@[simp] theorem searchMethod_place (st : Store) (name : Bytes) (steps cls : Nat) :
    (st.place f).searchMethod name steps cls =
      (st.searchMethod name steps cls).map (Closure.place f) := by
  induction steps generalizing cls with
  | zero => rfl
  | succ steps ih =>
      simp only [searchMethod_succ, getElem?_classes_place]
      cases st.classes[cls]? with
      | none => rfl
      | some k =>
          simp only [Option.map_some, Option.bind_some, Class.own?_place]
          cases k.own? name with
          | some c => rfl
          | none =>
              cases hparent : k.superclass with
              | none => simp [Class.place, hparent]
              | some parent => simp [Class.place, hparent, ih]

@[simp] theorem method?_place (st : Store) (cls : Nat) (name : Bytes) :
    (st.place f).method? cls name = (st.method? cls name).map (Closure.place f) :=
  st.searchMethod_place name (cls + 1) cls

@[simp] theorem bindMethod_place (st : Store) (c : Closure) (object : Nat) :
    (st.place f).bindMethod (c.place f) object =
      ((st.bindMethod c object).1.place f, (st.bindMethod c object).2.place f) := rfl

/-! ## Text of values -/

@[simp] theorem className_place (st : Store) (cls : Nat) :
    ((st.place f).classes[cls]?).map Class.name = (st.classes[cls]?).map Class.name := by
  rw [getElem?_classes_place, Option.map_map]
  rfl

@[simp] theorem text_place (st : Store) (v : Value) : (st.place f).text v = st.text v := by
  cases v with
  | bool b => cases b <;> rfl
  | classRef ref => simp only [text, className_place]
  | objectRef ref =>
      simp only [text, instances_place]
      cases st.instances[ref]? with
      | none => rfl
      | some o => simp only [Option.bind_some, className_place]
  | function ref =>
      simp only [text, getElem?_functions_place, Option.map_map, Function.comp_def,
        Closure.decl_place, Function.name_place, Name.text_place]
  | _ => rfl

@[simp] theorem debugText_place (st : Store) (v : Value) :
    (st.place f).debugText v = st.debugText v := by
  cases v with
  | string value => rfl
  | _ => simp only [debugText, text_place]

end Store

/-! ## Changing ranges twice -/

theorem Closure.place_place (f g : Range → Range) (c : Closure) :
    (c.place f).place g = c.place fun r => g (f r) := by
  rw [place, place, Function.place_place]
  rfl

theorem Class.place_place (f g : Range → Range) (k : Class) :
    (k.place f).place g = k.place fun r => g (f r) := by
  have hclosures : Closure.place g ∘ Closure.place f = Closure.place fun r => g (f r) :=
    funext (Closure.place_place f g)
  simp only [place, Bindings.map, ← hclosures, Option.map_map, List.map_map]
  rfl

theorem Store.place_place (f g : Range → Range) (st : Store) :
    (st.place f).place g = st.place fun r => g (f r) := by
  have hclosures : Closure.place g ∘ Closure.place f = Closure.place fun r => g (f r) :=
    funext (Closure.place_place f g)
  have hclasses : Class.place g ∘ Class.place f = Class.place fun r => g (f r) :=
    funext (Class.place_place f g)
  simp only [place, Array.map_map, hclosures, hclasses]

/-! ## Leaving ranges as they are -/

theorem Closure.place_id (c : Closure) : c.place (fun r => r) = c := by
  rw [place, Function.place_id]

theorem Class.place_id (k : Class) : k.place (fun r => r) = k := by
  obtain ⟨name, superclass, init, ⟨entries⟩⟩ := k
  have hid : (Closure.place fun r => r) = id := funext Closure.place_id
  have hentries : (entries.map fun entry => (entry.1, id entry.2)) = entries :=
    List.map_id entries
  rw [place, Bindings.map, hid, Option.map_id, id, hentries]

theorem Store.place_id (st : Store) : st.place (fun r => r) = st := by
  have hfunctions : (Closure.place fun r => r) = id := funext Closure.place_id
  have hclasses : (Class.place fun r => r) = id := funext Class.place_id
  rw [place, hfunctions, hclasses, Array.map_id, Array.map_id]

end LoxMachine
