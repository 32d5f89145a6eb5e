import LoxMachine.Proofs.Source.Ranges
import LoxMachine.Proofs.Token.Lexemes

/-!
# The cut of a text into tokens

A text is white space, comments, tokens and faults, one after another.  There is one way
to cut it so that every token is the longest one where it starts and every fault stands
where no token starts, and it is the one found by scanning.
-/

namespace LoxMachine.Token

/-! ## Between tokens -/

/-- `Blank gap after`: the bytes `gap` are white space and comments, in front of `after`.
A comment ends before its line feed, or with the text. -/
inductive Blank : Bytes → Bytes → Prop where
  | nil {after} : Blank [] after
  | space {b gap after} (hspace : isSpace b = true) (h : Blank gap after) : Blank (b :: gap) after
  | comment {body gap after} (hbody : Bytes.lineFeed ∉ body)
      (hend : ∀ b ∈ (gap ++ after).head?, b = Bytes.lineFeed) (h : Blank gap after) :
      Blank (47 :: 47 :: (body ++ gap)) after

/-- White space or a comment starts a text. -/
inductive StartsBlank : Bytes → Prop where
  | space {b rest} (h : isSpace b = true) : StartsBlank (b :: rest)
  | comment {rest} : StartsBlank (47 :: 47 :: rest)

/-- A comment is skipped up to its line feed, and then what is blank after it. -/
theorem triviaLength_comment (text : Bytes) :
    triviaLength true text =
      (text.takeWhile (· != Bytes.lineFeed)).length +
        triviaLength false (text.dropWhile (· != Bytes.lineFeed)) := by
  induction text with
  | nil => rfl
  | cons b rest ih =>
      rw [List.takeWhile_cons, List.dropWhile_cons]
      cases hb : b != Bytes.lineFeed with
      | true =>
          rw [triviaLength, hb, ih]
          exact Nat.add_right_comm _ _ _
      | false =>
          obtain rfl : b = Bytes.lineFeed := by simpa using hb
          exact (Nat.zero_add _).symm

theorem triviaLength_zero {text : Bytes} (h : ¬ StartsBlank text) :
    triviaLength false text = 0 := by
  cases text with
  | nil => rfl
  | cons b rest =>
      have hspace : ¬ isSpace b = true := fun hb => h (.space hb)
      have hcomment : ¬ (b = 47 ∧ rest.head? = some 47) := by
        rintro ⟨rfl, hrest⟩
        obtain ⟨more, rfl⟩ := List.head?_eq_some_iff.mp hrest
        exact h .comment
      rw [triviaLength, if_neg hspace, if_neg hcomment]

/-- What is blank in front of anything else is skipped. -/
theorem Blank.triviaLength_eq {gap after : Bytes} (h : Blank gap after)
    (hafter : ¬ StartsBlank after) : triviaLength false (gap ++ after) = gap.length := by
  induction h with
  | nil => exact triviaLength_zero hafter
  | space hspace _ ih =>
      rw [List.cons_append, triviaLength, if_pos hspace, ih hafter]
      rfl
  | @comment body gap after hbody hend _ ih =>
      have hall : ∀ b ∈ body, (b != Bytes.lineFeed) = true := fun b hb =>
        bne_iff_ne.mpr fun heq => hbody (heq ▸ hb)
      have hstop : (gap ++ after).takeWhile (· != Bytes.lineFeed) = [] := by
        cases htext : gap ++ after with
        | nil => rfl
        | cons b rest =>
            obtain rfl := hend b (by rw [htext]; rfl)
            rfl
      have hrest : (gap ++ after).dropWhile (· != Bytes.lineFeed) = gap ++ after := by
        have hsplit := List.takeWhile_append_dropWhile (p := (· != Bytes.lineFeed))
          (l := gap ++ after)
        rwa [hstop, List.nil_append] at hsplit
      have hslashes : triviaLength false (47 :: 47 :: (body ++ gap ++ after)) =
          triviaLength true (body ++ gap ++ after) + 1 + 1 := rfl
      rw [List.cons_append, List.cons_append, hslashes, triviaLength_comment, List.append_assoc,
        List.takeWhile_append_of_pos hall, List.dropWhile_append_of_pos hall, hstop, hrest,
        ih hafter, List.append_nil]
      simp only [List.length_cons, List.length_append]

theorem exists_blank (text : Bytes) :
    ∃ gap after, text = gap ++ after ∧ Blank gap after ∧ ¬ StartsBlank after := by
  by_cases hstarts : StartsBlank text
  · cases hstarts with
    | @space b rest hspace =>
        obtain ⟨gap, after, hsplit, hblank, hafter⟩ := exists_blank rest
        exact ⟨b :: gap, after, congrArg (b :: ·) hsplit, .space hspace hblank, hafter⟩
    | @comment rest =>
        have hshorter : (rest.dropWhile (· != Bytes.lineFeed)).length ≤ rest.length :=
          (List.dropWhile_suffix _).length_le
        obtain ⟨gap, after, hsplit, hblank, hafter⟩ :=
          exists_blank (rest.dropWhile (· != Bytes.lineFeed))
        refine ⟨47 :: 47 :: (rest.takeWhile (· != Bytes.lineFeed) ++ gap), after, ?_,
          .comment (fun hmem => ?_) (fun b hb => ?_) hblank, hafter⟩
        · rw [List.cons_append, List.cons_append, List.append_assoc, ← hsplit,
            List.takeWhile_append_dropWhile]
        · simpa using List.mem_takeWhile_imp hmem
        · have hstop := List.head?_dropWhile_not (· != Bytes.lineFeed) rest
          rw [hsplit, hb] at hstop
          simpa using hstop
  · exact ⟨[], text, rfl, .nil, hstarts⟩
termination_by text.length
decreasing_by
  · exact Nat.lt_succ_self _
  · exact Nat.lt_succ_of_le (Nat.le_succ_of_le hshorter)

/-- What is blank ends in one place. -/
theorem Blank.unique {gap after gap' after' : Bytes} (h : Blank gap after)
    (hafter : ¬ StartsBlank after) (h' : Blank gap' after') (hafter' : ¬ StartsBlank after')
    (heq : gap ++ after = gap' ++ after') : gap = gap' ∧ after = after' := by
  have hlength : gap.length = gap'.length := by
    rw [← h.triviaLength_eq hafter, heq, h'.triviaLength_eq hafter']
  exact List.append_inj heq hlength

/-- What is blank depends on no more than the first byte behind it. -/
theorem Blank.congr {gap after after' : Bytes} (h : Blank gap after)
    (heq : after.head? = after'.head?) : Blank gap after' := by
  induction h with
  | nil => exact .nil
  | space hspace _ ih => exact .space hspace (ih heq)
  | comment hbody hend _ ih =>
      refine .comment hbody (fun b hb => hend b ?_) (ih heq)
      rwa [List.head?_append, heq, ← List.head?_append]

theorem not_startsBlank_nil : ¬ StartsBlank [] := nofun

/-- Whether white space or a comment starts a text can be told from its first bytes, unless
another slash follows them. -/
theorem not_startsBlank_append {text after after' : Bytes} (h : ¬ StartsBlank (text ++ after))
    (hne : text ≠ []) (hslash : after'.head? ≠ some 47) : ¬ StartsBlank (text ++ after') := by
  obtain ⟨b, rest, rfl⟩ := List.exists_cons_of_ne_nil hne
  generalize htext : b :: rest ++ after' = text
  rintro (⟨hspace⟩ | _)
  · obtain ⟨rfl, _⟩ := List.cons.inj htext
    exact h (.space hspace)
  · obtain ⟨rfl, hrest⟩ := List.cons.inj htext
    cases rest with
    | nil => exact hslash (congrArg List.head? hrest)
    | cons c rest =>
        obtain ⟨rfl, _⟩ := List.cons.inj hrest
        exact h .comment

/-! ## Cuts -/

/-- `Fits content text after`: in front of `after`, the bytes `text` are that token or fault. -/
inductive Content.Fits : Content → Bytes → Bytes → Prop where
  | token {kind text after} (h : Longest kind text (text ++ after)) : Fits (.token kind) text after
  | fault {cause text after} (hnone : ¬ StartsToken (text ++ after))
      (h : Faulty cause text after) : Fits (.fault cause) text after

/-- `Cut offset text pieces`: a text that starts at `offset` is made of these pieces, with white
space and comments between them. -/
inductive Cut : Nat → Bytes → List Piece → Prop where
  | nil {offset gap} (hblank : Blank gap []) : Cut offset gap []
  | cons {offset gap piece after pieces} (hblank : Blank gap (piece.text ++ after))
      (hstarts : ¬ StartsBlank (piece.text ++ after)) (hstart : piece.start = offset + gap.length)
      (hfits : piece.content.Fits piece.text after) (h : Cut piece.stop after pieces) :
      Cut offset (gap ++ (piece.text ++ after)) (piece :: pieces)

theorem Piece.ext {piece piece' : Piece} (hstart : piece.start = piece'.start)
    (htext : piece.text = piece'.text) (hcontent : piece.content = piece'.content) :
    piece = piece' := by
  cases piece
  cases piece'
  cases hstart
  cases htext
  cases hcontent
  rfl

theorem Longest.unique {kind kind' : Kind} {word word' text : Bytes} (h : Longest kind word text)
    (h' : Longest kind' word' text) : kind = kind' ∧ word = word' := by
  have hlength := Nat.le_antisymm (h'.longest _ _ h.spells h.starts)
    (h.longest _ _ h'.spells h'.starts)
  obtain rfl : word = word' :=
    (List.prefix_of_prefix_length_le h.starts h'.starts (Nat.le_of_eq hlength)).eq_of_length hlength
  exact ⟨h.spells.kind_eq h'.spells, rfl⟩

theorem Content.Fits.ne_nil {content : Content} {text after : Bytes}
    (h : content.Fits text after) : text ≠ [] := by
  cases h with
  | token h => exact h.spells.ne_nil
  | fault _ h => exact h.ne_nil

theorem Content.Fits.unique {content content' : Content} {text after text' after' : Bytes}
    (h : content.Fits text after) (h' : content'.Fits text' after')
    (heq : text ++ after = text' ++ after') :
    content = content' ∧ text = text' ∧ after = after' := by
  have hall : content = content' ∧ text = text' := by
    cases h with
    | token h =>
        cases h' with
        | token h' =>
            obtain ⟨rfl, htext⟩ := h.unique (heq ▸ h')
            exact ⟨rfl, htext⟩
        | fault hnone _ =>
            exact absurd ⟨_, _, h.spells, heq ▸ h.starts⟩ hnone
    | fault hnone h =>
        cases h' with
        | token h' => exact absurd ⟨_, _, h'.spells, heq ▸ h'.starts⟩ hnone
        | fault _ h' =>
            obtain ⟨rfl, htext⟩ := h.unique h' heq
            exact ⟨rfl, htext⟩
  obtain ⟨rfl, rfl⟩ := hall
  exact ⟨rfl, rfl, List.append_cancel_left heq⟩

/-- A cut begins with what stands behind the white space and comments. -/
theorem Cut.head {offset : Nat} {gap after : Bytes} {ps : List Piece}
    (h : Cut offset (gap ++ after) ps) (hblank : Blank gap after) (hafter : ¬ StartsBlank after) :
    (after = [] ∧ ps = []) ∨ ∃ piece rest pieces, ps = piece :: pieces ∧
      after = piece.text ++ rest ∧ piece.start = offset + gap.length ∧
      piece.content.Fits piece.text rest ∧ Cut piece.stop rest pieces := by
  generalize htext : gap ++ after = text at h
  cases h with
  | nil hblank' =>
      rw [← List.append_nil text] at htext
      exact .inl ⟨(hblank.unique hafter hblank' not_startsBlank_nil htext).2, rfl⟩
  | cons hblank' hstarts hstart hfits h =>
      obtain ⟨rfl, rfl⟩ := hblank.unique hafter hblank' hstarts htext
      exact .inr ⟨_, _, _, rfl, rfl, hstart, hfits, h⟩

/-- There is one way to cut a text. -/
theorem Cut.unique {offset : Nat} {text : Bytes} {ps ps' : List Piece} (h : Cut offset text ps)
    (h' : Cut offset text ps') : ps = ps' := by
  induction h generalizing ps' with
  | @nil offset gap hblank =>
      rw [← List.append_nil gap] at h'
      rcases h'.head hblank not_startsBlank_nil with
        ⟨_, rfl⟩ | ⟨piece, rest, _, _, hnil, _, hfits, _⟩
      · rfl
      · exact absurd (List.append_eq_nil_iff.mp hnil.symm).1 hfits.ne_nil
  | @cons offset gap piece after pieces hblank hstarts hstart hfits _ ih =>
      rcases h'.head hblank hstarts with ⟨hnil, _⟩ | ⟨piece', rest, pieces', rfl, htext, hstart',
        hfits', hcut⟩
      · exact absurd (List.append_eq_nil_iff.mp hnil).1 hfits.ne_nil
      · obtain ⟨hcontent, hpiece, rfl⟩ := hfits.unique hfits' htext
        rw [← hstart'] at hstart
        obtain rfl : piece = piece' := Piece.ext hstart hpiece hcontent
        rw [ih hcut]

/-- What is found at the head of a text fits. -/
theorem fits_head (b : UInt8) (rest : Bytes) :
    (head b rest).1.Fits ((b :: rest).take (head b rest).2) ((b :: rest).drop (head b rest).2) := by
  cases hcontent : (head b rest).1 with
  | token kind =>
      refine .token ?_
      rw [List.take_append_drop]
      exact longest_head hcontent
  | fault cause =>
      obtain ⟨hnone, hfaulty, _⟩ := head_fault hcontent
      refine .fault ?_ hfaulty
      rwa [List.take_append_drop]

/-- A piece takes a byte at least, and no more than there are. -/
theorem head_bounds (b : UInt8) (rest : Bytes) :
    1 ≤ (head b rest).2 ∧ (head b rest).2 ≤ (b :: rest).length := by
  refine ⟨Nat.pos_of_ne_zero fun hzero => (fits_head b rest).ne_nil ?_, ?_⟩
  · rw [hzero]
    rfl
  · cases hcontent : (head b rest).1 with
    | token kind => exact (head_width hcontent).2
    | fault cause => exact (head_fault hcontent).2.2

/-- The pieces collected from a text cut it. -/
theorem cut_collect (steps offset : Nat) (text : Bytes) (h : text.length ≤ steps) :
    Cut offset text (collect steps offset text []).reverse := by
  induction steps generalizing offset text with
  | zero =>
      obtain rfl : text = [] := List.length_eq_zero_iff.mp (Nat.le_zero.mp h)
      exact .nil .nil
  | succ steps ih =>
      obtain ⟨gap, after, rfl, hblank, hafter⟩ := exists_blank text
      simp only [collect, hblank.triviaLength_eq hafter, List.drop_left]
      cases after with
      | nil =>
          rw [List.append_nil]
          exact .nil hblank
      | cons b rest =>
          have hfits := fits_head b rest
          obtain ⟨hpositive, hwidth⟩ := head_bounds b rest
          have hdrop : rest.drop ((head b rest).2 - 1) = (b :: rest).drop (head b rest).2 := by
            obtain ⟨n, hn⟩ := Nat.exists_eq_add_of_le' hpositive
            rw [hn]
            rfl
          have hsplit := List.take_append_drop (head b rest).2 (b :: rest)
          dsimp only
          rw [collect_eq_append, List.reverse_append, hdrop]
          have hrest : ((b :: rest).drop (head b rest).2).length ≤ steps := by
            rw [List.length_append, List.length_cons] at h
            rw [List.length_drop, List.length_cons]
            omega
          have hcut := ih (offset + gap.length + (head b rest).2) _ hrest
          have hlength : ((b :: rest).take (head b rest).2).length = (head b rest).2 := by
            rw [List.length_take, Nat.min_eq_left hwidth]
          generalize (b :: rest).take (head b rest).2 = text at hfits hsplit hlength ⊢
          generalize (b :: rest).drop (head b rest).2 = more at hfits hsplit hcut ⊢
          rw [← hsplit] at hblank hafter ⊢
          refine @Cut.cons _ gap ⟨offset + gap.length, text, _⟩ more _ hblank hafter rfl hfits ?_
          rw [Piece.stop, hlength]
          exact hcut

theorem cut_pieces (text : Bytes) : Cut 0 text (pieces text) :=
  cut_collect _ _ _ (Nat.le_refl _)

theorem cut_iff {text : Bytes} {ps : List Piece} : Cut 0 text ps ↔ ps = pieces text :=
  ⟨fun h => h.unique (cut_pieces text), fun h => h ▸ cut_pieces text⟩

end LoxMachine.Token
