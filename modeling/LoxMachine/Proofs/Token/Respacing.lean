import LoxMachine.Proofs.Token.Coverage
import LoxMachine.Proofs.Token.Seams
import Mathlib.Data.List.Basic

/-!
# Tokens set apart by spaces

A token in front of a space, or of the end, is cut off there again, whatever stood behind
it before.  So the tokens of any text can be told from their texts with spaces between them.
-/

namespace LoxMachine.Token

/-! ## Tokens in front of a space -/

/-- Nothing follows, or a space. -/
def Spaced (after : Bytes) : Prop :=
  ∀ b ∈ after.head?, b = 32

theorem Spells.longest {kind : Kind} {word after : Bytes} (h : Spells kind word)
    (hafter : Spaced after) : Longest kind word (word ++ after) := by
  have halone : Longest kind word (word ++ []) := by
    rw [List.append_nil]
    exact ⟨h, List.prefix_refl word, fun _ _ _ hstarts => hstarts.length_le⟩
  cases after with
  | nil => exact halone
  | cons b after =>
      obtain rfl := hafter b rfl
      exact halone.seam rfl after

theorem Spells.head_not_space {kind : Kind} {b : UInt8} {rest : Bytes}
    (h : Spells kind (b :: rest)) : isSpace b = false := by
  refine Bool.eq_false_iff.mpr fun hspace => ?_
  obtain rfl : b = 34 := Option.some.inj (h.head_of_space hspace List.mem_cons_self)
  cases hspace

theorem Spells.not_startsBlank {kind : Kind} {word after : Bytes} (h : Spells kind word)
    (hafter : Spaced after) : ¬ StartsBlank (word ++ after) := by
  have halone : ¬ StartsBlank (word ++ []) := by
    rw [List.append_nil]
    rintro (⟨hspace⟩ | _)
    · rw [h.head_not_space] at hspace
      cases hspace
    · cases h.leads with
      | word hstart => cases hstart
      | number hdigit => cases hdigit
      | mark hmark =>
          have hall : ∀ m ∈ marks, m.2.head? = some 47 → m.2 = [47] := by decide
          exact List.cons_ne_nil _ _ (List.cons.inj (hall _ hmark rfl)).2
  refine not_startsBlank_append halone h.ne_nil fun hslash => ?_
  exact absurd (hafter 47 hslash) (by decide)

/-! ## Texts made of tokens -/

/-- The kind and the text of a piece that is a token. -/
def Piece.lexeme? (p : Piece) : Option (Kind × Bytes) :=
  match p.content with
  | .token kind => some (kind, p.text)
  | .fault _ => none

/-- Those texts, each behind a space. -/
def behindSpaces : List Bytes → Bytes
  | [] => []
  | word :: words => 32 :: (word ++ behindSpaces words)

theorem spaced_behindSpaces (words : List Bytes) : Spaced (behindSpaces words) := by
  cases words with
  | nil => exact nofun
  | cons word words =>
      rintro b hb
      exact (Option.some.inj hb).symm

theorem join_spaces (word : Bytes) (words : List Bytes) :
    Bytes.join [32] (word :: words) = word ++ behindSpaces words := by
  induction words generalizing word with
  | nil => exact (List.append_nil word).symm
  | cons word' words ih =>
      show word ++ [32] ++ Bytes.join [32] (word' :: words) = _
      rw [ih, List.append_assoc]
      rfl

/-- A token with spaces around it is cut off there. -/
theorem cut_token {offset : Nat} {gap after : Bytes} {kind : Kind} {word : Bytes}
    {ps : List Piece} (hblank : Blank gap (word ++ after)) (h : Spells kind word)
    (hafter : Spaced after) (hcut : Cut (offset + gap.length + word.length) after ps) :
    Cut offset (gap ++ (word ++ after)) (⟨offset + gap.length, word, .token kind⟩ :: ps) :=
  @Cut.cons _ gap ⟨offset + gap.length, word, .token kind⟩ after _ hblank
    (h.not_startsBlank hafter) rfl (.token (h.longest hafter)) hcut

theorem exists_cut_behindSpaces (words : List (Kind × Bytes))
    (h : ∀ w ∈ words, Spells w.1 w.2) (offset : Nat) :
    ∃ ps, Cut offset (behindSpaces (words.map Prod.snd)) ps ∧ Faultless ps ∧
      ps.filterMap Piece.lexeme? = words := by
  induction words generalizing offset with
  | nil => exact ⟨[], .nil .nil, nofun, rfl⟩
  | cons w words ih =>
      obtain ⟨hw, hwords⟩ := List.forall_mem_cons.mp h
      obtain ⟨ps, hcut, hfaultless, hlexemes⟩ := ih hwords (offset + 1 + w.2.length)
      refine ⟨_, cut_token (.space rfl .nil) hw (spaced_behindSpaces _) hcut, ?_, ?_⟩
      · exact List.forall_mem_cons.mpr ⟨⟨w.1, rfl⟩, hfaultless⟩
      · exact congrArg (w :: ·) hlexemes

theorem exists_cut_join (words : List (Kind × Bytes)) (h : ∀ w ∈ words, Spells w.1 w.2) :
    ∃ ps, Cut 0 (Bytes.join [32] (words.map Prod.snd)) ps ∧ Faultless ps ∧
      ps.filterMap Piece.lexeme? = words := by
  cases words with
  | nil => exact ⟨[], .nil .nil, nofun, rfl⟩
  | cons w words =>
      obtain ⟨hw, hwords⟩ := List.forall_mem_cons.mp h
      obtain ⟨ps, hcut, hfaultless, hlexemes⟩ :=
        exists_cut_behindSpaces words hwords (0 + w.2.length)
      rw [List.map_cons, join_spaces]
      refine ⟨_, cut_token .nil hw (spaced_behindSpaces _) hcut, ?_, ?_⟩
      · exact List.forall_mem_cons.mpr ⟨⟨w.1, rfl⟩, hfaultless⟩
      · exact congrArg (w :: ·) hlexemes

/-! ## Scanning again -/

/-- The kinds of tokens and the texts they were read from. -/
def lexemes (tokens : List Token) : List (Kind × Bytes) :=
  tokens.map fun t => (t.kind, t.range.text)

theorem lexemes_tokens {src : Source} {ps : List Piece} (h : ps ⊆ pieces src.text) :
    lexemes (ps.filterMap (Piece.token? src)) = ps.filterMap Piece.lexeme? := by
  rw [lexemes, List.map_filterMap]
  refine List.filterMap_congr fun p hp => ?_
  have htext := range_text (cut_pieces src.text) (h hp)
  cases hcontent : p.content with
  | token kind => simpa [Piece.token?, Piece.lexeme?, Piece.range, hcontent] using htext
  | fault cause => simp [Piece.token?, Piece.lexeme?, hcontent]

theorem lexemes_scan (src : Source) :
    lexemes (scan src).1 = (pieces src.text).filterMap Piece.lexeme? ++ [(.eof, [])] := by
  have hend : (⟨some src, src.text.length, src.text.length⟩ : Range).text = [] := by
    show (src.text.drop src.text.length).take _ = []
    rw [List.drop_length, List.take_nil]
  rw [← lexemes_tokens (List.Subset.refl _), scan_tokens_eq, lexemes, List.map_append,
    List.map_singleton, hend]
  rfl

theorem texts_scan (src : Source) :
    ((scan src).1.filter fun t => t.kind ≠ .eof).map (fun t => t.range.text) =
      ((pieces src.text).filterMap Piece.lexeme?).map Prod.snd := by
  rw [filter_scan, ← lexemes_tokens (List.Subset.refl _), lexemes, List.map_map]
  rfl

theorem spells_lexeme (text : Bytes) :
    ∀ w ∈ (pieces text).filterMap Piece.lexeme?, Spells w.1 w.2 := by
  intro w hw
  obtain ⟨p, hp, hlexeme⟩ := List.mem_filterMap.mp hw
  unfold Piece.lexeme? at hlexeme
  split at hlexeme <;> cases hlexeme
  next kind hcontent =>
    exact (@longest_of_cut ⟨[], text⟩ _ (cut_pieces text) p hp kind hcontent).spells

theorem scan_faultless {src : Source} (h : Faultless (pieces src.text)) :
    (scan src).2 = Bag.empty := by
  have hnone : (pieces src.text).filterMap (Piece.fault? src) = [] := by
    refine List.filterMap_eq_nil_iff.mpr fun p hp => ?_
    obtain ⟨kind, hkind⟩ := h p hp
    rw [Piece.fault?, hkind]
  rw [scan_faults_eq, hnone]
  rfl

/-- Scanning the texts of all tokens but the end marker, with single spaces between them,
gives no fault and the same kinds and texts. -/
theorem scan_respaced (src : Source) (uri : Bytes) :
    let tokens := (scan src).1.filter fun t => t.kind ≠ .eof
    let respaced : Source := ⟨uri, Bytes.join [32] (tokens.map fun t => t.range.text)⟩
    (scan respaced).2 = Bag.empty ∧ lexemes (scan respaced).1 = lexemes (scan src).1 := by
  intro tokens respaced
  obtain ⟨ps, hcut, hfaultless, hlexemes⟩ := exists_cut_join _ (spells_lexeme src.text)
  rw [← texts_scan src, cut_iff] at hcut
  subst hcut
  refine ⟨scan_faultless hfaultless, ?_⟩
  rw [lexemes_scan, lexemes_scan, hlexemes]

end LoxMachine.Token
