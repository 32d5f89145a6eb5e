import LoxMachine.Source

/-!
# Ranges of a source

A range may be of a source and lie in its text, and it may cover some of it.
-/

namespace LoxMachine.Range

/-- A range of a source that ends with its text at the latest. -/
structure Within (src : Source) (r : Range) : Prop where
  source : r.source = some src
  ordered : r.start ≤ r.stop
  bounded : r.stop ≤ src.text.length

/-- A range within a source that covers a byte at least. -/
structure Proper (src : Source) (r : Range) : Prop where
  source : r.source = some src
  nonempty : r.start < r.stop
  bounded : r.stop ≤ src.text.length

/-- A byte the range covers. -/
def Covers (r : Range) (i : Nat) : Prop :=
  r.start ≤ i ∧ i < r.stop

variable {src : Source} {a b : Range}

theorem Proper.within (h : a.Proper src) : a.Within src :=
  ⟨h.source, Nat.le_of_lt h.nonempty, h.bounded⟩

theorem Proper.join (ha : a.Proper src) (hb : b.Proper src) : (a.join b).Proper src := by
  unfold Range.join
  rw [ha.source, hb.source]
  exact ⟨rfl, Nat.lt_of_le_of_lt (Nat.min_le_left _ _)
    (Nat.lt_of_lt_of_le ha.nonempty (Nat.le_max_left _ _)), Nat.max_le.mpr ⟨ha.bounded, hb.bounded⟩⟩

end LoxMachine.Range
