import LoxMachine.Bytes.Utf8

/-!
# Patterns

Regular expressions over characters.  A pattern matches a text if it matches some
stretch of it.  Only whether it does matters, so a match is described by the
places where it can end.
-/

namespace LoxMachine

/-- Patterns. A set of characters is a list of ranges, or all characters outside of them. The
ends of the text and of its lines, and the boundaries of its words, match no character. -/
inductive Pattern where
  | empty
  | chars (negated : Bool) (ranges : List (Nat × Nat))
  | textStart
  | textEnd
  | lineStart
  | lineEnd
  | boundary (negated : Bool)
  | seq (first second : Pattern)
  | alt (first second : Pattern)
  | many (inner : Pattern)
  | opt (inner : Pattern)
  | times (least : Nat) (most : Option Nat) (inner : Pattern)

namespace Pattern

/-- Whether a set of characters holds a code point. -/
def holds (negated : Bool) (ranges : List (Nat × Nat)) (code : Nat) : Bool :=
  (ranges.any fun range => range.1 ≤ code && code ≤ range.2) != negated

/-- Digits, letters and the underscore, which words consist of. -/
def wordRanges : List (Nat × Nat) := [(48, 57), (65, 90), (95, 95), (97, 122)]

/-- Whether a place is inside a text and has a character of a word. -/
def isWordAt (text : Array Nat) (place : Nat) : Bool :=
  (text[place]?).any (holds false wordRanges)

/-- Whether a word starts or ends at a place. -/
def isBoundary (text : Array Nat) (place : Nat) : Bool :=
  (0 < place && isWordAt text (place - 1)) != isWordAt text place

/-- The places reached from some places by any number of moves, of which at most
`steps` are followed one after another. -/
def closure (move : Nat → List Nat) : (steps : Nat) → List Nat → List Nat
  | 0, places => places
  | steps + 1, places => closure move steps (places ++ places.flatMap move).eraseDups

/-- The places reached from some places by this many moves. -/
def iterate (move : Nat → List Nat) : (count : Nat) → List Nat → List Nat
  | 0, places => places
  | count + 1, places => iterate move count (places.flatMap move).eraseDups

/-- The places where a match that starts at `place` can end. -/
def reach (text : Array Nat) : Pattern → (place : Nat) → List Nat
  | .empty, place => [place]
  | .chars negated ranges, place =>
      match text[place]? with
      | some code => if holds negated ranges code then [place + 1] else []
      | none => []
  | .textStart, place => if place = 0 then [place] else []
  | .textEnd, place => if place = text.size then [place] else []
  | .lineStart, place => if place = 0 || text[place - 1]? = some 10 then [place] else []
  | .lineEnd, place => if place = text.size || text[place]? = some 10 then [place] else []
  | .boundary negated, place => if isBoundary text place != negated then [place] else []
  | .seq first second, place => ((reach text first place).flatMap (reach text second)).eraseDups
  | .alt first second, place => (reach text first place ++ reach text second place).eraseDups
  | .many inner, place => closure (reach text inner) text.size [place]
  | .opt inner, place => place :: reach text inner place
  | .times least most inner, place =>
      let more := (most.map (· - least)).getD text.size
      closure (reach text inner) (min more text.size) (iterate (reach text inner) least [place])

/-- Whether a pattern matches some stretch of a text. A byte that is no character
counts as the replacement character. -/
def matchesIn (p : Pattern) (text : Bytes) : Bool :=
  let codes := (text.characters.map fun c => c.1.getD 0xFFFD).toArray
  (List.range (codes.size + 1)).any fun place => !(reach codes p place).isEmpty

end Pattern

end LoxMachine
