import LoxMachine.Bytes

/-!
# Bindings

A finite map from names to values, kept in the order the names were first bound.
-/

namespace LoxMachine

/-- Names with what they are bound to. -/
structure Bindings (α : Type) where
  entries : List (Bytes × α)

namespace Bindings

variable {α : Type}

def empty : Bindings α := ⟨[]⟩

/-- The value of `name` in a list of pairs, the first that has it. -/
def find? (name : Bytes) : List (Bytes × α) → Option α
  | [] => none
  | (key, value) :: rest => if key = name then some value else find? name rest

/-- The value a name is bound to. -/
def get? (b : Bindings α) (name : Bytes) : Option α :=
  find? name b.entries

def contains (b : Bindings α) (name : Bytes) : Bool :=
  (b.get? name).isSome

/-- Replaces the value of `name`, or adds it at the end. -/
def put (name : Bytes) (value : α) : List (Bytes × α) → List (Bytes × α)
  | [] => [(name, value)]
  | (key, old) :: rest =>
      if key = name then (key, value) :: rest else (key, old) :: put name value rest

/-- Binds a name, in place of any earlier binding of it. -/
def set (b : Bindings α) (name : Bytes) (value : α) : Bindings α :=
  ⟨put name value b.entries⟩

@[simp] theorem get?_empty (name : Bytes) : (empty : Bindings α).get? name = none := rfl

theorem find?_put_self (name : Bytes) (value : α) (entries : List (Bytes × α)) :
    find? name (put name value entries) = some value := by
  induction entries with
  | nil => simp [put, find?]
  | cons entry rest ih =>
      by_cases h : entry.1 = name <;> simp [put, find?, h, ih]

theorem find?_put_ne {name other : Bytes} (h : other ≠ name) (value : α)
    (entries : List (Bytes × α)) :
    find? other (put name value entries) = find? other entries := by
  induction entries with
  | nil => simp [put, find?, Ne.symm h]
  | cons entry rest ih =>
      by_cases hn : entry.1 = name
      · simp [put, find?, hn, Ne.symm h]
      · by_cases ho : entry.1 = other <;> simp [put, find?, hn, ho, h, ih]

@[simp] theorem get?_set_self (b : Bindings α) (name : Bytes) (value : α) :
    (b.set name value).get? name = some value :=
  find?_put_self name value b.entries

theorem get?_set_ne (b : Bindings α) {name other : Bytes} (h : other ≠ name) (value : α) :
    (b.set name value).get? other = b.get? other :=
  find?_put_ne h value b.entries

end Bindings

end LoxMachine
