import LoxMachine.Token.Scan
import Mathlib.Tactic.Common

/-!
# Scanned tokens

What is known of every token of a scanned text: only the last one marks the end, and
an identifier is never spelled like a keyword.
-/

namespace LoxMachine.Token

/-! ## Pieces -/

theorem operatorHead_kind {rest : Bytes} {long short kind : Kind}
    (h : (operatorHead rest long short).1 = .token kind) : kind = long ∨ kind = short := by
  unfold operatorHead at h
  split at h
  · cases h
    exact Or.inl rfl
  · cases h
    exact Or.inr rfl

theorem stringHead_kind {rest : Bytes} {kind : Kind}
    (h : (stringHead rest).1 = .token kind) : kind = .string := by
  unfold stringHead at h
  dsimp only at h
  split at h
  · cases h
    rfl
  · cases h

theorem faultHead_ne_token (text : Bytes) (byte : UInt8) (kind : Kind) :
    (faultHead text byte).1 ≠ .token kind := by
  unfold faultHead
  split <;> simp

theorem head_ne_eof (b : UInt8) (rest : Bytes) : (head b rest).1 ≠ .token .eof := by
  intro h
  unfold head at h
  split at h
  · dsimp only at h
    split at h <;> cases h
  split at h
  · cases h
  split at h
  case h_1 => cases stringHead_kind h
  case h_17 => exact absurd h (faultHead_ne_token _ _ _)
  all_goals
    first
      | cases h
      | rcases operatorHead_kind h with h | h <;> cases h

/-- The text of an identifier is no keyword. -/
theorem head_identifier (b : UInt8) (rest : Bytes) (h : (head b rest).1 = .token .identifier) :
    Keyword.ofSpelling? ((b :: rest).take (head b rest).2) = none := by
  unfold head at h ⊢
  split at h
  next hb =>
    rw [if_pos hb]
    dsimp only at h ⊢
    cases hword : Keyword.ofSpelling? ((b :: rest).takeWhile isNamePart) with
    | some word =>
        rw [hword] at h
        simp at h
    | none =>
        have htake : (b :: rest).take ((b :: rest).takeWhile isNamePart).length =
            (b :: rest).takeWhile isNamePart :=
          List.prefix_iff_eq_take.mp (List.takeWhile_prefix isNamePart) |>.symm
        dsimp only
        rw [htake]
        exact hword
  next =>
    split at h
    · cases h
    split at h
    case h_1 => cases stringHead_kind h
    case h_17 => exact absurd h (faultHead_ne_token _ _ _)
    all_goals
      first
        | cases h
        | rcases operatorHead_kind h with h | h <;> cases h

/-! ## The width of a token -/

theorem stringHead_width {a : Bytes} {kind : Kind} (h : (stringHead a).1 = .token kind) :
    1 ≤ (stringHead a).2 ∧ (stringHead a).2 ≤ a.length + 1 := by
  unfold stringHead at h ⊢
  dsimp only at h ⊢
  split at h
  next hclosed =>
    rw [if_pos hclosed]
    exact ⟨Nat.succ_pos _, Nat.succ_le_succ hclosed⟩
  next => cases h

theorem numberLength_bounds (a : Bytes) :
    (a.takeWhile isDigit).length ≤ numberLength a ∧ numberLength a ≤ a.length := by
  have hwhole : (a.takeWhile isDigit).length ≤ a.length := (List.takeWhile_prefix _).length_le
  unfold numberLength
  dsimp only
  split
  next rest hrest =>
    have hfraction : (rest.takeWhile isDigit).length ≤ rest.length :=
      (List.takeWhile_prefix _).length_le
    have hlength := congrArg List.length hrest
    rw [List.length_drop, List.length_cons] at hlength
    split <;> omega
  next => exact ⟨Nat.le_refl _, hwhole⟩

/-- A token takes a byte at least, and no more than there are. -/
theorem head_width {kind : Kind} {b : UInt8} {a : Bytes} (h : (head b a).1 = .token kind) :
    1 ≤ (head b a).2 ∧ (head b a).2 ≤ a.length + 1 := by
  have hwhile : ∀ p : UInt8 → Bool, p b = true → 1 ≤ ((b :: a).takeWhile p).length := by
    intro p hp
    rw [List.takeWhile_cons, hp]
    exact Nat.succ_pos _
  have hoperator : ∀ long short, 1 ≤ (operatorHead a long short).2 ∧
      (operatorHead a long short).2 ≤ a.length + 1 := by
    intro long short
    cases a with
    | nil => exact ⟨Nat.le_refl _, Nat.le_refl _⟩
    | cons c a =>
        unfold operatorHead
        split <;> simp
  unfold head at h ⊢
  split at h
  next hstart =>
    have hname : 1 ≤ ((b :: a).takeWhile isNamePart).length ∧
        ((b :: a).takeWhile isNamePart).length ≤ a.length + 1 :=
      ⟨hwhile isNamePart (by rw [isNamePart, hstart]; rfl), (List.takeWhile_prefix _).length_le⟩
    rw [if_pos hstart]
    dsimp only
    split <;> exact hname
  next hstart =>
    rw [if_neg hstart]
    split at h
    next hdigit =>
      rw [if_pos hdigit]
      have hbounds := numberLength_bounds (b :: a)
      exact ⟨Nat.le_trans (hwhile isDigit hdigit) hbounds.1, hbounds.2⟩
    next hdigit =>
      rw [if_neg hdigit]
      split at h
      case h_1 => exact stringHead_width h
      case h_17 => exact absurd h (faultHead_ne_token _ _ _)
      all_goals
        first
          | exact ⟨Nat.le_refl _, Nat.le_add_left _ _⟩
          | exact hoperator _ _

/-! ## Collecting pieces -/

theorem collect_eq_append (steps offset : Nat) (text : Bytes) (found : List Piece) :
    collect steps offset text found = collect steps offset text [] ++ found := by
  induction steps generalizing offset text found with
  | zero => rfl
  | succ steps ih =>
      simp only [collect]
      split
      · rfl
      · rw [ih, ih _ _ [_], List.append_assoc]
        rfl

/-- Every piece is what stands at the head of some text. -/
theorem mem_collect (steps offset : Nat) (text : Bytes) (found : List Piece) {piece : Piece}
    (h : piece ∈ collect steps offset text found) :
    piece ∈ found ∨ ∃ b rest, piece.content = (head b rest).1 ∧
      piece.text = (b :: rest).take (head b rest).2 := by
  induction steps generalizing offset text found with
  | zero => exact Or.inl h
  | succ steps ih =>
      rw [collect] at h
      dsimp only at h
      split at h
      next => exact Or.inl h
      next b rest _ =>
        rcases ih _ _ _ h with hmem | hhead
        · rcases List.mem_cons.mp hmem with rfl | hmem
          · exact Or.inr ⟨b, rest, rfl, rfl⟩
          · exact Or.inl hmem
        · exact Or.inr hhead

/-! ## Tokens -/

/-- All pieces are tokens. -/
def Faultless (pieces : List Piece) : Prop :=
  ∀ piece ∈ pieces, ∃ kind, piece.content = .token kind

/-- The token that a piece of a source is, unless it is a fault. -/
def Piece.token? (src : Source) (piece : Piece) : Option Token :=
  match piece.content with
  | .token kind => some ⟨kind, piece.text, ⟨some src, piece.start, piece.stop⟩⟩
  | .fault _ => none

theorem scan_tokens_eq (src : Source) :
    (scan src).1 = (pieces src.text).filterMap (Piece.token? src) ++
      [⟨.eof, [], ⟨some src, src.text.length, src.text.length⟩⟩] :=
  rfl

/-- The complaint about a piece of a source that is a fault. -/
def Piece.fault? (src : Source) (piece : Piece) : Option Diagnostic :=
  match piece.content with
  | .token _ => none
  | .fault cause => some ⟨.error, ⟨some src, piece.start, piece.stop⟩, cause.message⟩

theorem scan_faults_eq (src : Source) :
    (scan src).2 = ⟨((pieces src.text).filterMap (Piece.fault? src)).toArray⟩ :=
  rfl

/-- A token whose text is a number as a whole, if it is said to be one. -/
def Legible (t : Token) : Prop :=
  t.kind = .number → isNumeral t.text = true

instance : DecidablePred Legible :=
  fun t => inferInstanceAs (Decidable (t.kind = .number → isNumeral t.text = true))

theorem legible_of_kind_ne {t : Token} (h : t.kind ≠ .number) : t.Legible :=
  fun hnumber => absurd hnumber h

/-- A token other than the end marker stands for a piece of the text. -/
structure Scanned (token : Token) : Prop where
  ne_eof : token.kind ≠ .eof
  identifier : token.kind = .identifier → Keyword.ofSpelling? token.text = none

/-- Every token other than the end marker is what stands at the head of some text. -/
theorem exists_head {src : Source} {t : Token}
    (h : t ∈ (pieces src.text).filterMap (Piece.token? src)) :
    ∃ b rest, (head b rest).1 = .token t.kind ∧ t.text = (b :: rest).take (head b rest).2 := by
  obtain ⟨piece, hmem, hpiece⟩ := List.mem_filterMap.mp h
  have hhead : ∃ b rest, piece.content = (head b rest).1 ∧
      piece.text = (b :: rest).take (head b rest).2 := by
    rcases mem_collect _ _ _ _ (List.mem_reverse.mp hmem) with hnil | hhead
    · cases hnil
    · exact hhead
  obtain ⟨b, rest, hcontent, htext⟩ := hhead
  rw [Piece.token?] at hpiece
  cases hc : piece.content with
  | fault cause =>
      rw [hc] at hpiece
      cases hpiece
  | token kind =>
      rw [hc] at hpiece hcontent
      cases hpiece
      exact ⟨b, rest, hcontent.symm, htext⟩

theorem scan_tokens (src : Source) :
    ∃ ts eof, (scan src).1 = ts ++ [eof] ∧ eof.kind = .eof ∧ ∀ t ∈ ts, Scanned t := by
  refine ⟨_, _, rfl, rfl, ?_⟩
  intro t ht
  obtain ⟨b, rest, hcontent, htext⟩ := exists_head ht
  constructor
  · intro hkind
    rw [hkind] at hcontent
    exact head_ne_eof b rest hcontent
  · intro hkind
    rw [hkind] at hcontent
    rw [htext]
    exact head_identifier b rest hcontent

/-- The tokens in front of the end marker. -/
theorem filter_scan (src : Source) :
    ((scan src).1.filter fun t => t.kind ≠ .eof) =
      (pieces src.text).filterMap (Piece.token? src) := by
  obtain ⟨ts, eof, hscan, heof, hts⟩ := scan_tokens src
  have hnone : [eof].filter (fun t => t.kind ≠ .eof) = [] := by
    rw [List.filter_cons_of_neg (by simpa using heof), List.filter_nil]
  have hall : ts.filter (fun t => t.kind ≠ .eof) = ts :=
    List.filter_eq_self.mpr fun t ht => decide_eq_true (hts t ht).ne_eof
  rw [hscan, List.filter_append, hall, hnone, List.append_nil]
  exact (List.append_inj' (hscan.symm.trans (scan_tokens_eq src)) rfl).1

end LoxMachine.Token
