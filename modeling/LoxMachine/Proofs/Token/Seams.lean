import LoxMachine.Proofs.Bytes.Characters
import LoxMachine.Proofs.Token.Munch
import Mathlib.Data.List.Basic

/-!
# Texts joined by a line feed

No token reaches over a line feed but a string, and no character does.  So what is found
in a text is found again in front of a line feed, whatever stands behind it, and what
stands there is cut as if it stood alone.
-/

namespace LoxMachine

/-- What starts a list ends in front of a given place or reaches over it. -/
theorem prefix_or_mem {α : Type} {word before after : List α} {x : α}
    (h : word <+: before ++ x :: after) : word <+: before ∨ x ∈ word := by
  have hseam : before ++ [x] <+: before ++ x :: after :=
    (List.prefix_append_right_inj before).mpr (List.prefix_append [x] after)
  rcases List.prefix_or_prefix_of_prefix h hseam with hinside | hover
  · rcases List.prefix_concat_iff.mp hinside with rfl | hinside
    · exact .inr (List.mem_append_right _ List.mem_cons_self)
    · exact .inl hinside
  · exact .inr (hover.subset (List.mem_append_right _ List.mem_cons_self))

/-! ## Characters -/

namespace Bytes

variable {code : Nat} {a b : UInt8} {tail text : Bytes}

theorem Encodes.isTail_of_mem (h : Encodes code (a :: tail)) : ∀ b ∈ tail, isTail b = true := by
  cases h with
  | one => exact nofun
  | two _ _ hb => simpa using hb
  | three _ _ hb hc => simpa using ⟨hb, hc⟩
  | four _ _ hb hc hd => simpa using ⟨hb, hc, hd⟩

/-- A byte that starts no character of a text starts none in front of a byte that continues
none. -/
theorem scalar?_append_eq_none (h : scalar? (a :: text) = none) (hb : isTail b = false)
    (after : Bytes) : scalar? (a :: (text ++ b :: after)) = none := by
  refine scalar?_eq_none fun code bytes hencodes hstarts => ?_
  obtain ⟨c, tail, rfl⟩ := List.exists_cons_of_ne_nil hencodes.ne_nil
  obtain ⟨rfl, htail⟩ := List.cons_prefix_cons.mp hstarts
  rcases prefix_or_mem htail with hinside | hmem
  · exact not_encodes_of_scalar?_eq_none h hencodes (List.cons_prefix_cons.mpr ⟨rfl, hinside⟩)
  · rw [hencodes.isTail_of_mem b hmem] at hb
    cases hb

/-- A character is the same whatever stands behind the text. -/
theorem scalar?_append_eq_some {width : Nat} (h : scalar? text = some (code, width))
    (after : Bytes) : scalar? (text ++ after) = some (code, width) := by
  obtain ⟨bytes, rest, rfl, hencodes, rfl⟩ := exists_encodes h
  rw [List.append_assoc]
  exact hencodes.scalar?_append _

end Bytes

namespace Token

/-! ## In front of a line feed -/

section Seam

variable {b : UInt8} {kind : Kind} {word text gap gap' after : Bytes} {cause : Fault}
  {content : Content}

/-- No token that starts in front of white space reaches over it where another one ends. -/
theorem Longest.seam (h : Longest kind word (word ++ after)) (hspace : isSpace b = true)
    (c : Bytes) : Longest kind word (word ++ (after ++ b :: c)) where
  spells := h.spells
  starts := List.prefix_append _ _
  longest kind' other hother hstarts := by
    refine Nat.le_of_not_lt fun hlonger => ?_
    obtain ⟨tail, rfl⟩ := List.prefix_of_prefix_length_le (List.prefix_append _ _) hstarts
      (Nat.le_of_lt hlonger)
    rcases prefix_or_mem ((List.prefix_append_right_inj word).mp hstarts) with hinside | hmem
    · have hlength := h.longest _ _ hother ((List.prefix_append_right_inj word).mpr hinside)
      exact Nat.not_le_of_lt hlonger hlength
    · exact h.spells.no_space_behind hother hspace hmem

/-- Where neither a token nor a quote starts, no token starts over a line feed. -/
theorem not_startsToken_seam (h : ¬ StartsToken text) (hquote : text.head? ≠ some 34)
    (c : Bytes) : ¬ StartsToken (text ++ Bytes.lineFeed :: c) := by
  rintro ⟨kind, word, hspells, hstarts⟩
  rcases prefix_or_mem hstarts with hinside | hmem
  · exact h ⟨kind, word, hspells, hinside⟩
  · have hhead := hspells.head_of_space rfl hmem
    obtain ⟨rest, rfl⟩ := List.head?_eq_some_iff.mp hhead
    cases text with
    | nil => exact absurd (List.cons_prefix_cons.mp hstarts).1 (by decide)
    | cons b text => exact hquote (congrArg some (List.cons_prefix_cons.mp hstarts).1.symm)

theorem Faulty.head_ne_quote (h : Faulty cause text after) (hclosed : cause ≠ .unterminatedString) :
    (text ++ after).head? ≠ some 34 := by
  intro hhead
  have hfault := h.faultHead_eq hhead
  rw [if_pos rfl] at hfault
  exact hclosed hfault.1

theorem Faulty.seam (h : Faulty cause text after) (hclosed : cause ≠ .unterminatedString)
    (c : Bytes) : Faulty cause text (after ++ Bytes.lineFeed :: c) := by
  cases h with
  | unterminatedString => exact absurd rfl hclosed
  | invalidByte hscalar => exact .invalidByte (Bytes.scalar?_append_eq_none hscalar rfl c)
  | unexpectedCharacter hquote hscalar =>
      refine .unexpectedCharacter hquote ?_
      rw [← List.append_assoc]
      exact Bytes.scalar?_append_eq_some hscalar _

/-- What is found in a text, but an open string, is found there in front of a line feed. -/
theorem Content.Fits.seam (h : content.Fits text after)
    (hclosed : content ≠ .fault .unterminatedString) (c : Bytes) :
    content.Fits text (after ++ Bytes.lineFeed :: c) := by
  cases h with
  | token h => exact .token (h.seam rfl c)
  | fault hnone h =>
      have hclosed : _ ≠ Fault.unterminatedString := fun heq => hclosed (congrArg _ heq)
      refine .fault ?_ (h.seam hclosed c)
      rw [← List.append_assoc]
      exact not_startsToken_seam hnone (h.head_ne_quote hclosed) c

/-- White space and comments up to the end of a text go on behind a line feed. -/
theorem Blank.seam (h : Blank gap []) (h' : Blank gap' after) :
    Blank (gap ++ Bytes.lineFeed :: gap') after := by
  generalize hend : ([] : Bytes) = rest at h
  induction h with
  | nil => exact .space rfl h'
  | space hspace _ ih => exact .space hspace (ih hend)
  | @comment body gap rest hbody hstop _ ih =>
      subst hend
      rw [List.cons_append, List.cons_append, List.append_assoc]
      refine .comment hbody (fun b hb => ?_) (ih rfl)
      cases gap with
      | nil => exact (Option.some.inj hb).symm
      | cons => exact hstop b hb

end Seam

/-! ## Cuts of joined texts -/

/-- The same piece in a text in which more stands before it. -/
def Piece.shift (offset : Nat) (piece : Piece) : Piece :=
  ⟨piece.start + offset, piece.text, piece.content⟩

theorem Piece.stop_shift (offset : Nat) (piece : Piece) :
    (piece.shift offset).stop = piece.stop + offset :=
  Nat.add_right_comm ..

/-- No string is left open. -/
def Closed (pieces : List Piece) : Prop :=
  ∀ piece ∈ pieces, piece.content ≠ .fault .unterminatedString

theorem Faultless.closed {ps : List Piece} (h : Faultless ps) : Closed ps := by
  intro piece hmem hopen
  obtain ⟨kind, hkind⟩ := h piece hmem
  rw [hkind] at hopen
  cases hopen

section Cut

variable {offset : Nat} {a c : Bytes} {ps qs : List Piece}

theorem Cut.shift (h : Cut offset a ps) (k : Nat) :
    Cut (offset + k) a (ps.map (Piece.shift k)) := by
  induction h with
  | nil hblank => exact .nil hblank
  | @cons offset gap piece after pieces hblank hstarts hstart hfits _ ih =>
      rw [← Piece.stop_shift] at ih
      refine @Cut.cons (offset + k) gap (piece.shift k) after _ hblank hstarts ?_ hfits ih
      rw [Piece.shift, hstart]
      exact Nat.add_right_comm ..

/-- White space and comments up to the line feed are skipped with it. -/
theorem Cut.behind_blank (hblank : Blank a []) (h : Cut (offset + a.length + 1) c qs) :
    Cut offset (a ++ Bytes.lineFeed :: c) qs := by
  generalize hoffset : offset + a.length + 1 = offset' at h
  cases h with
  | nil hblank' => exact .nil (hblank.seam hblank')
  | @cons _ gap piece after pieces hblank' hstarts hstart hfits h =>
      rw [← List.cons_append, ← List.append_assoc]
      refine .cons (hblank.seam hblank') hstarts ?_ hfits h
      rw [hstart, ← hoffset, List.length_append, List.length_cons]
      omega

/-- A cut without open strings goes on behind a line feed with any other cut. -/
theorem Cut.seam (h : Cut offset a ps) (hclosed : Closed ps)
    (h' : Cut (offset + a.length + 1) c qs) :
    Cut offset (a ++ Bytes.lineFeed :: c) (ps ++ qs) := by
  induction h with
  | nil hblank => exact .behind_blank hblank h'
  | @cons offset gap piece after pieces hblank hstarts hstart hfits _ ih =>
      obtain ⟨hpiece, hclosed⟩ := List.forall_mem_cons.mp hclosed
      have hne : piece.text ++ after ≠ [] := List.append_ne_nil_of_left_ne_nil hfits.ne_nil _
      have hlength : offset + (gap ++ (piece.text ++ after)).length + 1 =
          piece.stop + after.length + 1 := by
        rw [Piece.stop, hstart, List.length_append, List.length_append]
        omega
      rw [hlength] at h'
      rw [List.append_assoc, List.append_assoc]
      refine .cons (hblank.congr ?_) ?_ hstart (hfits.seam hpiece c) (ih hclosed h')
      · rw [← List.append_assoc, List.head?_append_of_ne_nil _ hne]
      · rw [← List.append_nil (piece.text ++ after)] at hstarts
        rw [← List.append_assoc]
        exact not_startsBlank_append hstarts hne fun hslash =>
          absurd (Option.some.inj hslash) (by decide)

end Cut

/-- The pieces of two texts joined by a line feed are those of the first, if it leaves no
string open, and those of the second further to the right. -/
theorem pieces_seam {a : Bytes} (h : Closed (pieces a)) (c : Bytes) :
    pieces (a ++ Bytes.lineFeed :: c) =
      pieces a ++ (pieces c).map (Piece.shift (a.length + 1)) := by
  have hcut := (cut_pieces c).shift (a.length + 1)
  rw [← Nat.add_assoc] at hcut
  exact (cut_iff.mp ((cut_pieces a).seam h hcut)).symm

end Token

end LoxMachine
