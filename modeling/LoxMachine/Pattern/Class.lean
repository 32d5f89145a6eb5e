import LoxMachine.Pattern

/-!
# Sets of characters

The sets that have names, and sets in which the case of letters does not count.
Sets are lists of ranges of code points.
-/

namespace LoxMachine.Pattern

abbrev Ranges := List (Nat × Nat)

/-- The last code point. -/
def lastCode : Nat := 0x10FFFF

def single (code : Nat) : Ranges :=
  [(code, code)]

/-! ## Complements -/

/-- What lies between ranges that are sorted, from `low` on. -/
def gaps : (low : Nat) → Ranges → Ranges
  | low, [] => if low ≤ lastCode then [(low, lastCode)] else []
  | low, range :: rest =>
      let gap := if low < range.1 then [(low, range.1 - 1)] else []
      gap ++ gaps (max low (range.2 + 1)) rest

/-- All other characters. -/
def complement (ranges : Ranges) : Ranges :=
  gaps 0 (ranges.mergeSort fun a b => a.1 ≤ b.1)

/-! ## Case -/

/-- The part of a range that lies in another one, moved by an offset. -/
def shifted (low high : Nat) (move : Nat → Nat) (range : Nat × Nat) : Ranges :=
  let least := max low range.1
  let greatest := min high range.2
  if least ≤ greatest then [(move least, move greatest)] else []

/-- Letters that are one but for their case, beyond the pairs of ASCII. -/
def caseFamilies : List (List Nat) :=
  [[75, 107, 0x212A], [83, 115, 0x17F]]

/-- A range with the letters that differ from its own only in case. ASCII letters have such, and
the Kelvin sign and the long s are among them. -/
def foldRange (range : Nat × Nat) : Ranges :=
  let families := caseFamilies.filter fun family =>
    family.any fun code => range.1 ≤ code && code ≤ range.2
  range :: shifted 97 122 (· - 32) range ++ shifted 65 90 (· + 32) range
    ++ families.flatten.flatMap single

/-- A set with the letters that differ from its own only in case, if that does not count. -/
def foldIf (fold : Bool) (ranges : Ranges) : Ranges :=
  if fold then ranges.flatMap foldRange else ranges

/-! ## Names -/

def digitRanges : Ranges := [(48, 57)]

def spaceRanges : Ranges := [(9, 10), (12, 13), (32, 32)]

/-- The set that a letter behind a backslash names. A capital letter is for all others. -/
def letterClass? (fold : Bool) (code : Nat) : Option Ranges :=
  match code with
  | 100 => some digitRanges
  | 68 => some (complement digitRanges)
  | 115 => some spaceRanges
  | 83 => some (complement spaceRanges)
  | 119 => some (foldIf fold wordRanges)
  | 87 => some (complement (foldIf fold wordRanges))
  | _ => none

/-- The sets that have a name between colons. -/
def namedClasses : List (Bytes × Ranges) :=
  [(utf8 "alnum", [(48, 57), (65, 90), (97, 122)]),
    (utf8 "alpha", [(65, 90), (97, 122)]),
    (utf8 "ascii", [(0, 127)]),
    (utf8 "blank", [(9, 9), (32, 32)]),
    (utf8 "cntrl", [(0, 31), (127, 127)]),
    (utf8 "digit", digitRanges),
    (utf8 "graph", [(33, 126)]),
    (utf8 "lower", [(97, 122)]),
    (utf8 "print", [(32, 126)]),
    (utf8 "punct", [(33, 47), (58, 64), (91, 96), (123, 126)]),
    (utf8 "space", [(9, 13), (32, 32)]),
    (utf8 "upper", [(65, 90)]),
    (utf8 "word", wordRanges),
    (utf8 "xdigit", [(48, 57), (65, 70), (97, 102)])]

/-- The set of a name between colons. A caret in front is for all others. -/
def namedClass? (fold : Bool) (name : Bytes) : Option Ranges :=
  let find := fun (plain : Bytes) =>
    (namedClasses.find? fun entry => entry.1 = plain).map fun entry => foldIf fold entry.2
  match name with
  | 94 :: plain => (find plain).map complement
  | plain => find plain

end LoxMachine.Pattern
