import LoxMachine.Proofs.Token.Munch

/-!
# What scanning makes of each byte

Every byte of a source belongs to one token, to one fault, or to the white space and
comments between them.
-/

namespace LoxMachine.Token

/-! ## Where the pieces of a cut stand -/

section Cut

variable {whole text : Bytes} {offset : Nat} {ps : List Piece}

theorem Cut.bounds (h : Cut offset text ps) :
    ∀ p ∈ ps, offset ≤ p.start ∧ p.start < p.stop ∧ p.stop ≤ offset + text.length := by
  induction h with
  | nil => exact fun _ hmem => nomatch hmem
  | @cons offset gap piece after _ _ _ hstart hfits _ ih =>
      have hpositive := List.length_pos_iff.mpr hfits.ne_nil
      have hlength : (gap ++ (piece.text ++ after)).length =
          gap.length + (piece.text.length + after.length) := by
        rw [List.length_append, List.length_append]
      have hstop : piece.stop = piece.start + piece.text.length := rfl
      rw [List.forall_mem_cons, hlength]
      refine ⟨by omega, fun p hmem => ?_⟩
      have hp := ih p hmem
      omega

theorem Cut.pairwise (h : Cut offset text ps) : ps.Pairwise fun p q => p.stop ≤ q.start := by
  induction h with
  | nil => exact .nil
  | cons _ _ _ _ hcut ih => exact .cons (fun q hmem => (hcut.bounds q hmem).1) ih

/-- What of the whole text stands at a piece and behind it. -/
theorem drop_piece {gap after : Bytes} {piece : Piece}
    (hwhole : whole.drop offset = gap ++ (piece.text ++ after))
    (hstart : piece.start = offset + gap.length) :
    whole.drop piece.start = piece.text ++ after ∧ whole.drop piece.stop = after := by
  have hhead : whole.drop piece.start = piece.text ++ after := by
    rw [hstart, ← List.drop_drop, hwhole, List.drop_left]
  refine ⟨hhead, ?_⟩
  rw [Piece.stop, ← List.drop_drop, hhead, List.drop_left]

/-- Each piece fits where it stands in the whole text. -/
theorem Cut.fits (h : Cut offset text ps) (hwhole : whole.drop offset = text) :
    ∀ p ∈ ps, whole.drop p.start = p.text ++ whole.drop p.stop ∧
      p.content.Fits p.text (whole.drop p.stop) := by
  induction h with
  | nil => exact fun _ hmem => nomatch hmem
  | cons _ _ hstart hfits _ ih =>
      obtain ⟨hhead, hafter⟩ := drop_piece hwhole hstart
      rw [List.forall_mem_cons, hafter]
      exact ⟨⟨hhead, hfits⟩, ih hafter⟩

/-- What lies in no piece lies between two of them, or before the first or after the last,
where there is nothing but white space and comments. -/
theorem Cut.covers (h : Cut offset text ps) (hwhole : whole.drop offset = text) {i : Nat}
    (hi : offset ≤ i ∧ i < whole.length) :
    (∃ p ∈ ps, p.start ≤ i ∧ i < p.stop) ∨
      ∃ a b, (a = offset ∨ ∃ p ∈ ps, p.stop = a) ∧ (b = whole.length ∨ ∃ p ∈ ps, p.start = b) ∧
        (∀ p ∈ ps, p.stop ≤ a ∨ b ≤ p.start) ∧ (offset ≤ a ∧ a ≤ i ∧ i < b) ∧
        Blank ((whole.drop a).take (b - a)) (whole.drop b) := by
  induction h with
  | @nil offset gap hblank =>
      refine .inr ⟨offset, whole.length, .inl rfl, .inl rfl, nofun, ⟨Nat.le_refl _, hi⟩, ?_⟩
      rw [List.drop_length, hwhole, List.take_of_length_le]
      · exact hblank
      · rw [← hwhole, List.length_drop]
  | @cons offset gap piece after pieces hblank _ hstart hfits hcut ih =>
      obtain ⟨hhead, hafter⟩ := drop_piece hwhole hstart
      have hlater : ∀ p ∈ pieces, piece.stop ≤ p.start := fun p hmem => (hcut.bounds p hmem).1
      rcases Nat.lt_or_ge i piece.start with hbefore | hbehind
      · refine .inr ⟨offset, piece.start, .inl rfl, .inr ⟨piece, List.mem_cons_self, rfl⟩, ?_,
          ⟨Nat.le_refl _, hi.1, hbefore⟩, ?_⟩
        · rw [List.forall_mem_cons]
          refine ⟨.inr (Nat.le_refl _), fun p hmem => .inr ?_⟩
          exact Nat.le_trans (Nat.le_add_right _ _) (hlater p hmem)
        · rw [hhead, hwhole, hstart, Nat.add_sub_cancel_left, List.take_left]
          exact hblank
      · rcases Nat.lt_or_ge i piece.stop with hinside | houtside
        · exact .inl ⟨piece, List.mem_cons_self, hbehind, hinside⟩
        · rcases ih hafter ⟨houtside, hi.2⟩ with ⟨p, hmem, hp⟩ | ⟨a, b, ha, hb, hfree, hi', hgap⟩
          · exact .inl ⟨p, List.mem_cons_of_mem _ hmem, hp⟩
          · refine .inr ⟨a, b, .inr ?_, ?_, ?_, ⟨?_, hi'.2⟩, hgap⟩
            · rcases ha with rfl | ⟨p, hmem, hp⟩
              · exact ⟨piece, List.mem_cons_self, rfl⟩
              · exact ⟨p, List.mem_cons_of_mem _ hmem, hp⟩
            · exact hb.imp_right fun ⟨p, hmem, hp⟩ => ⟨p, List.mem_cons_of_mem _ hmem, hp⟩
            · exact List.forall_mem_cons.mpr ⟨.inl hi'.1, hfree⟩
            · have hstop : piece.stop = piece.start + piece.text.length := rfl
              omega

/-- Each piece stands behind all the white space and comments in front of it. -/
theorem Cut.not_startsBlank (h : Cut offset text ps) (hwhole : whole.drop offset = text) :
    ∀ p ∈ ps, ¬ StartsBlank (whole.drop p.start) := by
  induction h with
  | nil => exact fun _ hmem => nomatch hmem
  | cons _ hstarts hstart _ _ ih =>
      obtain ⟨hhead, hafter⟩ := drop_piece hwhole hstart
      rw [List.forall_mem_cons, hhead]
      exact ⟨hstarts, ih hafter⟩

/-- Two pieces of a cut are the same or lie apart. -/
theorem Cut.eq_or_apart (h : Cut offset text ps) {p q : Piece} (hp : p ∈ ps) (hq : q ∈ ps) :
    p = q ∨ p.stop ≤ q.start ∨ q.stop ≤ p.start := by
  obtain ⟨i, hi, rfl⟩ := List.getElem_of_mem hp
  obtain ⟨j, hj, rfl⟩ := List.getElem_of_mem hq
  have hordered := List.pairwise_iff_getElem.mp h.pairwise
  rcases Nat.lt_trichotomy i j with hlt | rfl | hgt
  · exact .inr (.inl (hordered i j hi hj hlt))
  · exact .inl rfl
  · exact .inr (.inr (hordered j i hj hi hgt))

end Cut

/-! ## The ranges of a scanned source -/

/-- The ranges of tokens and of what was found wrong. -/
def spans (tokens : List Token) (faults : List Diagnostic) : List Range :=
  tokens.map Token.range ++ faults.map Diagnostic.range

/-- The byte at `i` lies in white space and comments, from where a range ends or the text
starts to where a range starts or the text ends. -/
inductive Trivia (src : Source) (ranges : List Range) (i : Nat) : Prop where
  | between {a b} (hleft : a = 0 ∨ ∃ r ∈ ranges, r.stop = a)
      (hright : b = src.text.length ∨ ∃ r ∈ ranges, r.start = b)
      (hfree : ∀ r ∈ ranges, r.stop ≤ a ∨ b ≤ r.start) (hi : a ≤ i ∧ i < b)
      (hblank : Blank ((src.text.drop a).take (b - a)) (src.text.drop b))

/-- Those tokens and faults are the text of a source, read from left to right with the
longest token first. -/
structure Munched (src : Source) (tokens : List Token) (faults : List Diagnostic) : Prop where
  proper : ∀ r ∈ spans tokens faults, r.Proper src
  apart : (spans tokens faults).Pairwise fun a b => a.stop ≤ b.start ∨ b.stop ≤ a.start
  tokens_increase : tokens.Pairwise fun a b => a.range.stop ≤ b.range.start
  faults_increase : faults.Pairwise fun a b => a.range.stop ≤ b.range.start
  /-- Every byte lies in one range or between ranges, and not both. -/
  partition : ∀ i < src.text.length,
    Xor (∃! r, r ∈ spans tokens faults ∧ r.Covers i) (Trivia src (spans tokens faults) i)
  /-- White space and comments go before tokens and faults. -/
  not_startsBlank : ∀ r ∈ spans tokens faults, ¬ StartsBlank (src.text.drop r.start)
  ne_eof : ∀ t ∈ tokens, t.kind ≠ .eof
  text_eq : ∀ t ∈ tokens, t.text = t.range.text
  longest : ∀ t ∈ tokens, Longest t.kind t.text (src.text.drop t.range.start)
  keyword_iff : ∀ t ∈ tokens, ∀ word, t.kind = .keyword word ↔ t.text = word.spelling
  /-- A fault is found exactly where a token is due and none starts. -/
  fault_iff : ∀ i < src.text.length, ¬ Trivia src (spans tokens faults) i →
    (∀ r ∈ spans tokens faults, ¬ (r.start < i ∧ i < r.stop)) →
    ((∃ d ∈ faults, d.range.start = i) ↔ ¬ StartsToken (src.text.drop i))
  faulty : ∀ d ∈ faults, d.severity = .error ∧ ∃ cause, d.message = Fault.message cause ∧
    Faulty cause d.range.text (src.text.drop d.range.stop)

/-! ## Scanning -/

section Scan

variable (src : Source)

def Piece.range (p : Piece) : Range :=
  ⟨some src, p.start, p.stop⟩

variable {src}

theorem mem_tokens_iff {ps : List Piece} {t : Token} :
    t ∈ ps.filterMap (Piece.token? src) ↔
      ∃ p ∈ ps, ∃ kind, p.content = .token kind ∧ t = ⟨kind, p.text, p.range src⟩ := by
  rw [List.mem_filterMap]
  refine exists_congr fun p => and_congr_right fun _ => ?_
  unfold Piece.token?
  cases p.content with
  | token kind => simp [Piece.range, eq_comm]
  | fault cause => simp

theorem mem_faults_iff {ps : List Piece} {d : Diagnostic} :
    d ∈ ps.filterMap (Piece.fault? src) ↔
      ∃ p ∈ ps, ∃ cause, p.content = .fault cause ∧ d = ⟨.error, p.range src, cause.message⟩ := by
  rw [List.mem_filterMap]
  refine exists_congr fun p => and_congr_right fun _ => ?_
  unfold Piece.fault?
  cases p.content with
  | token kind => simp
  | fault cause => simp [Piece.range, eq_comm]

/-- The ranges of the tokens and faults are those of the pieces. -/
theorem mem_spans_iff {ps : List Piece} {r : Range} :
    r ∈ spans (ps.filterMap (Piece.token? src)) (ps.filterMap (Piece.fault? src)) ↔
      ∃ p ∈ ps, r = p.range src := by
  rw [spans, List.mem_append, List.mem_map, List.mem_map]
  constructor
  · rintro (⟨t, ht, rfl⟩ | ⟨d, hd, rfl⟩)
    · obtain ⟨p, hp, _, _, rfl⟩ := mem_tokens_iff.mp ht
      exact ⟨p, hp, rfl⟩
    · obtain ⟨p, hp, _, _, rfl⟩ := mem_faults_iff.mp hd
      exact ⟨p, hp, rfl⟩
  · rintro ⟨p, hp, rfl⟩
    cases hcontent : p.content with
    | token kind => exact .inl ⟨_, mem_tokens_iff.mpr ⟨p, hp, kind, hcontent, rfl⟩, rfl⟩
    | fault cause => exact .inr ⟨_, mem_faults_iff.mpr ⟨p, hp, cause, hcontent, rfl⟩, rfl⟩

theorem range_text {ps : List Piece} (h : Cut 0 src.text ps) {p : Piece} (hp : p ∈ ps) :
    (p.range src).text = p.text := by
  show (src.text.drop p.start).take (p.stop - p.start) = p.text
  rw [(h.fits List.drop_zero p hp).1, Piece.stop, Nat.add_sub_cancel_left, List.take_left]

theorem covered_or_trivia {ps : List Piece} (h : Cut 0 src.text ps) {i : Nat}
    (hi : i < src.text.length) :
    (∃ p ∈ ps, (p.range src).Covers i) ∨
      Trivia src (spans (ps.filterMap (Piece.token? src)) (ps.filterMap (Piece.fault? src))) i := by
  rcases h.covers List.drop_zero ⟨Nat.zero_le i, hi⟩ with
    hcovered | ⟨a, b, ha, hb, hfree, ⟨_, hi⟩, hblank⟩
  · exact .inl hcovered
  · refine .inr (.between (ha.imp_right ?_) (hb.imp_right ?_) ?_ hi hblank)
    · exact fun ⟨p, hp, hstop⟩ => ⟨p.range src, mem_spans_iff.mpr ⟨p, hp, rfl⟩, hstop⟩
    · exact fun ⟨p, hp, hstart⟩ => ⟨p.range src, mem_spans_iff.mpr ⟨p, hp, rfl⟩, hstart⟩
    · intro r hr
      obtain ⟨p, hp, rfl⟩ := mem_spans_iff.mp hr
      exact hfree p hp

theorem longest_of_cut {ps : List Piece} (h : Cut 0 src.text ps) {p : Piece} (hp : p ∈ ps)
    {kind : Kind} (hcontent : p.content = .token kind) :
    Longest kind p.text (src.text.drop p.start) := by
  obtain ⟨htext, hfits⟩ := h.fits List.drop_zero p hp
  rw [hcontent] at hfits
  cases hfits with
  | token hlongest =>
      rw [htext]
      exact hlongest

theorem Trivia.not_covers {ranges : List Range} {i : Nat} (h : Trivia src ranges i) {r : Range}
    (hr : r ∈ ranges) : ¬ r.Covers i := by
  rintro ⟨hstart, hstop⟩
  cases h with
  | between _ _ hfree hi _ => rcases hfree r hr with hleft | hright <;> omega

theorem pairwise_of_cut {α : Type} {ps : List Piece} (h : Cut 0 src.text ps)
    (read : Piece → Option α) (range : α → Range)
    (hread : ∀ p x, read p = some x → range x = p.range src) :
    (ps.filterMap read).Pairwise fun x y => (range x).stop ≤ (range y).start := by
  refine List.pairwise_filterMap.mpr (h.pairwise.imp ?_)
  intro p q hordered x hx y hy
  rw [hread p x hx, hread q y hy]
  exact hordered

theorem tokens_increase {ps : List Piece} (h : Cut 0 src.text ps) :
    (ps.filterMap (Piece.token? src)).Pairwise fun t u => t.range.stop ≤ u.range.start := by
  refine pairwise_of_cut h _ Token.range fun p t ht => ?_
  unfold Piece.token? at ht
  split at ht <;> cases ht
  rfl

theorem faults_increase {ps : List Piece} (h : Cut 0 src.text ps) :
    (ps.filterMap (Piece.fault? src)).Pairwise fun d e => d.range.stop ≤ e.range.start := by
  refine pairwise_of_cut h _ Diagnostic.range fun p d hd => ?_
  unfold Piece.fault? at hd
  split at hd <;> cases hd
  rfl

theorem munched_of_cut {ps : List Piece} (h : Cut 0 src.text ps) :
    Munched src (ps.filterMap (Piece.token? src)) (ps.filterMap (Piece.fault? src)) where
  proper := by
    intro r hr
    obtain ⟨p, hp, rfl⟩ := mem_spans_iff.mp hr
    obtain ⟨_, hnonempty, hstop⟩ := h.bounds p hp
    exact ⟨rfl, hnonempty, Nat.zero_add src.text.length ▸ hstop⟩
  apart := by
    refine List.pairwise_append.mpr ⟨List.pairwise_map.mpr ((tokens_increase h).imp .inl),
      List.pairwise_map.mpr ((faults_increase h).imp .inl), ?_⟩
    intro a ha b hb
    obtain ⟨t, ht, rfl⟩ := List.mem_map.mp ha
    obtain ⟨d, hd, rfl⟩ := List.mem_map.mp hb
    obtain ⟨p, hp, kind, hkind, rfl⟩ := mem_tokens_iff.mp ht
    obtain ⟨q, hq, cause, hcause, rfl⟩ := mem_faults_iff.mp hd
    refine (h.eq_or_apart hp hq).resolve_left ?_
    rintro rfl
    rw [hkind] at hcause
    cases hcause
  tokens_increase := tokens_increase h
  faults_increase := faults_increase h
  partition := by
    intro i hi
    rcases covered_or_trivia h hi with ⟨p, hp, hcovers⟩ | htrivia
    · refine .inl ⟨⟨p.range src, ⟨mem_spans_iff.mpr ⟨p, hp, rfl⟩, hcovers⟩, ?_⟩, ?_⟩
      · rintro r ⟨hr, hstart, hstop⟩
        obtain ⟨q, hq, rfl⟩ := mem_spans_iff.mp hr
        rcases h.eq_or_apart hp hq with rfl | hapart
        · rfl
        · obtain ⟨hstart', hstop'⟩ := hcovers
          simp only [Piece.range] at hstart hstop hstart' hstop'
          omega
      · exact fun htrivia => htrivia.not_covers (mem_spans_iff.mpr ⟨p, hp, rfl⟩) hcovers
    · exact .inr ⟨htrivia, fun ⟨r, ⟨hr, hcovers⟩, _⟩ => htrivia.not_covers hr hcovers⟩
  not_startsBlank := by
    intro r hr
    obtain ⟨p, hp, rfl⟩ := mem_spans_iff.mp hr
    exact h.not_startsBlank List.drop_zero p hp
  ne_eof := by
    intro t ht
    obtain ⟨p, hp, kind, hcontent, rfl⟩ := mem_tokens_iff.mp ht
    exact (longest_of_cut h hp hcontent).spells.ne_eof
  text_eq := by
    intro t ht
    obtain ⟨p, hp, _, _, rfl⟩ := mem_tokens_iff.mp ht
    exact (range_text h hp).symm
  longest := by
    intro t ht
    obtain ⟨p, hp, kind, hcontent, rfl⟩ := mem_tokens_iff.mp ht
    exact longest_of_cut h hp hcontent
  keyword_iff := by
    intro t ht word
    obtain ⟨p, hp, kind, hcontent, rfl⟩ := mem_tokens_iff.mp ht
    exact spells_keyword_iff (longest_of_cut h hp hcontent).spells word
  fault_iff := by
    intro i hi hdue hinside
    obtain ⟨p, hp, hstart, hstop⟩ := (covered_or_trivia h hi).resolve_right hdue
    obtain rfl : p.start = i := by
      have hnot := hinside _ (mem_spans_iff.mpr ⟨p, hp, rfl⟩)
      simp only [Piece.range] at hstart hstop hnot
      omega
    constructor
    · rintro ⟨d, hd, hat⟩
      obtain ⟨q, hq, cause, hcontent, rfl⟩ := mem_faults_iff.mp hd
      obtain ⟨htext, hfits⟩ := h.fits List.drop_zero q hq
      rw [hcontent] at hfits
      cases hfits with
      | fault hnone _ =>
          rw [← hat]
          exact htext ▸ hnone
    · intro hnone
      cases hcontent : p.content with
      | token kind =>
          have hlongest := longest_of_cut h hp hcontent
          exact absurd ⟨kind, p.text, hlongest.spells, hlongest.starts⟩ hnone
      | fault cause => exact ⟨_, mem_faults_iff.mpr ⟨p, hp, cause, hcontent, rfl⟩, rfl⟩
  faulty := by
    intro d hd
    obtain ⟨p, hp, cause, hcontent, rfl⟩ := mem_faults_iff.mp hd
    have hfits := (h.fits List.drop_zero p hp).2
    rw [hcontent] at hfits
    cases hfits with
    | fault _ hfaulty =>
        refine ⟨rfl, cause, rfl, ?_⟩
        rw [range_text h hp]
        exact hfaulty

end Scan

/-- What scanning finds in front of the end marker is the text cut into longest tokens, white
space, comments and faults. -/
theorem munched_scan (src : Source) :
    Munched src ((pieces src.text).filterMap (Piece.token? src)) (scan src).2.items.toList :=
  munched_of_cut (cut_pieces src.text)

/-- Scanning ends with one end marker behind the text, and the rest of what it finds is the
text cut into longest tokens, white space, comments and faults. -/
theorem scan_munched (src : Source) :
    ∃ tokens, (scan src).1 =
        tokens ++ [⟨.eof, [], ⟨some src, src.text.length, src.text.length⟩⟩] ∧
      Munched src tokens (scan src).2.items.toList :=
  ⟨_, rfl, munched_of_cut (cut_pieces src.text)⟩

end LoxMachine.Token
