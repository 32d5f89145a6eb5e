import LoxMachine.Tree.Printer
import Std.Data.TreeMap

/-!
# Depth tables

A depth table says, for the number of a node that refers to a variable, how many
scopes lie between the reference and the declaration.  A node without an entry
refers to a global variable.
-/

namespace LoxMachine

/-- Where a reference leads, and the node it was recorded for. -/
structure Resolved where
  depth : Nat
  node : Expr

/-- The references of some modules by their node numbers. -/
structure Depths where
  table : Std.TreeMap Nat Resolved

namespace Depths

def empty : Depths := ⟨{}⟩

def insert (d : Depths) (id : Nat) (entry : Resolved) : Depths :=
  ⟨d.table.insert id entry⟩

/-- The depth recorded for a node. -/
def depth? (d : Depths) (id : Nat) : Option Nat :=
  (d.table[id]?).map Resolved.depth

def size (d : Depths) : Nat :=
  d.table.size

/-- Both tables together; where both have an entry, the second one counts. -/
def merge (d other : Depths) : Depths :=
  ⟨other.table.foldl (fun table id entry => table.insert id entry) d.table⟩

/-- Node numbers and depths, by increasing number. -/
def entries (d : Depths) : List (Nat × Nat) :=
  d.table.toList.map fun entry => (entry.1, entry.2.depth)

/-- The table as text: a line for each entry, by increasing node number. -/
def text (d : Depths) : Bytes :=
  Bytes.join (utf8 "\n") (d.table.toList.map fun entry =>
    utf8 "at depth " ++ Bytes.decimal entry.2.depth ++ utf8 ": " ++ entry.2.node.text)

end Depths

end LoxMachine
