import LoxMachine.Proofs.Placing.Reading
import LoxMachine.Proofs.Token.Respacing

/-!
# Excerpts of a text

The text from where one token starts to where another one ends is cut into the same tokens
when it stands alone, also with a semicolon behind it.
-/

namespace LoxMachine.Token

/-! ## Tokens in front of the end -/

/-- What may stand behind an excerpt, and the token that it is. -/
inductive Closing : Bytes → List (Kind × Bytes) → Prop where
  | nothing : Closing [] []
  | semicolon : Closing (utf8 ";") [(.semicolon, utf8 ";")]

variable {kind kind' : Kind} {word before after tail : Bytes} {words : List (Kind × Bytes)}

/-- No token goes on with a semicolon. -/
theorem Spells.no_semicolon_behind (hword : word ≠ []) (h : Spells kind (word ++ utf8 ";")) :
    False := by
  have hmem : (59 : UInt8) ∈ word ++ utf8 ";" := List.mem_append_right _ (by decide)
  obtain ⟨b, rest, rfl⟩ := List.exists_cons_of_ne_nil hword
  cases h.leads with
  | word _ hword => exact nomatch hword.isNamePart _ hmem
  | number _ hnumeral => exact absurd (hnumeral.isDigit_or_point _ hmem) (by decide)
  | string hinner hrest =>
      obtain ⟨_, hlast⟩ := List.append_inj' hrest rfl
      exact absurd hlast (by decide)
  | mark hmark =>
      have hall : ∀ m ∈ marks, (59 : UInt8) ∈ m.2 → m.2.length = 1 := by decide
      have hlength : (rest ++ utf8 ";").length = 0 := Nat.succ.inj (hall _ hmark hmem)
      have hnil := List.length_eq_zero_iff.mp hlength
      exact absurd (List.append_eq_nil_iff.mp hnil).2 (by decide)

theorem Longest.truncate (h : Longest kind word (word ++ (before ++ after)))
    (htail : Closing tail words) : Longest kind word (word ++ (before ++ tail)) where
  spells := h.spells
  starts := List.prefix_append _ _
  longest kind' other hother hstarts := by
    have hinside : other <+: word ++ before → other.length ≤ word.length := by
      intro hprefix
      apply h.longest _ _ hother
      rw [← List.append_assoc]
      exact hprefix.trans (List.prefix_append _ _)
    rw [← List.append_assoc] at hstarts
    cases htail with
    | nothing =>
        rw [List.append_nil] at hstarts
        exact hinside hstarts
    | semicolon =>
        rcases List.prefix_concat_iff.mp hstarts with rfl | hprefix
        · have hne : word ++ before ≠ [] := List.append_ne_nil_of_left_ne_nil h.spells.ne_nil _
          exact (Spells.no_semicolon_behind hne hother).elim
        · exact hinside hprefix

theorem Closing.head_ne_slash (h : Closing tail words) : tail.head? ≠ some 47 := by
  cases h <;> decide

/-! ## Cuts of an excerpt -/

variable {whole text : Bytes} {offset : Nat} {ps qs rs : List Piece}

/-- The text up to the end of some tokens is cut like the whole text. -/
theorem Cut.truncate (h : Cut offset text (ps ++ qs)) (hfaultless : Faultless ps) :
    ∃ before after, text = before ++ after ∧
      (ps.getLast?.map Piece.stop).getD offset = offset + before.length ∧
      ∀ {tail words}, Closing tail words → ∀ {rs}, Cut (offset + before.length) tail rs →
        Cut offset (before ++ tail) (ps ++ rs) := by
  induction ps generalizing offset text with
  | nil => exact ⟨[], text, rfl, rfl, fun _ _ hrs => hrs⟩
  | cons p ps ih =>
      cases h with
      | @cons _ gap _ rest _ hblank hstarts hstart hfits h =>
          obtain ⟨⟨kind, hkind⟩, hfaultless⟩ := List.forall_mem_cons.mp hfaultless
          obtain ⟨before, after, rfl, hlast, hcut⟩ := ih h hfaultless
          have hlength : offset + (gap ++ (p.text ++ before)).length = p.stop + before.length := by
            rw [Piece.stop, hstart, List.length_append, List.length_append]
            omega
          refine ⟨gap ++ (p.text ++ before), after, by simp only [List.append_assoc], ?_, ?_⟩
          · rw [hlength, ← hlast, List.getLast?_cons]
            cases ps.getLast? <;> rfl
          · intro tail words htail rs hrs
            rw [hlength] at hrs
            rw [hkind] at hfits
            cases hfits with
            | token hlongest =>
                have hne := hlongest.spells.ne_nil
                simp only [List.append_assoc]
                refine .cons (hblank.congr ?_) ?_ hstart ?_ (hcut htail hrs)
                · rw [List.head?_append_of_ne_nil _ hne, List.head?_append_of_ne_nil _ hne]
                · rw [← List.append_assoc] at hstarts ⊢
                  exact not_startsBlank_append hstarts
                    (List.append_ne_nil_of_left_ne_nil hne _) htail.head_ne_slash
                · rw [hkind]
                  exact .token (hlongest.truncate htail)

/-- What stands from a piece on is cut like the whole text. -/
theorem Cut.behind {p : Piece} (h : Cut offset text (ps ++ p :: qs))
    (hwhole : whole.drop offset = text) : Cut p.start (whole.drop p.start) (p :: qs) := by
  induction ps generalizing offset text with
  | nil =>
      cases h with
      | cons hblank hstarts hstart hfits h =>
          rw [(drop_piece hwhole hstart).1]
          exact @Cut.cons p.start [] p _ qs .nil hstarts (Nat.add_zero _).symm hfits h
  | cons q ps ih =>
      cases h with
      | cons _ _ hstart _ h => exact ih h (drop_piece hwhole hstart).2

/-- The same text is cut into the same tokens and faults wherever it starts. -/
theorem Cut.elsewhere (h : Cut offset text ps) (offset' : Nat) :
    ∃ ps', Cut offset' text ps' ∧
      ps'.map (fun p => (p.text, p.content)) = ps.map fun p => (p.text, p.content) := by
  induction h generalizing offset' with
  | nil hblank => exact ⟨[], .nil hblank, rfl⟩
  | @cons offset gap p after ps hblank hstarts _ hfits _ ih =>
      let p' : Piece := ⟨offset' + gap.length, p.text, p.content⟩
      obtain ⟨ps', hcut, hsame⟩ := ih p'.stop
      exact ⟨p' :: ps', @Cut.cons offset' gap p' after ps' hblank hstarts rfl hfits hcut,
        congrArg ((p.text, p.content) :: ·) hsame⟩

/-- A closing is cut into its tokens. -/
theorem Closing.cut (h : Closing tail words) (offset : Nat) :
    ∃ rs, Cut offset tail rs ∧ Faultless rs ∧ rs.filterMap Piece.lexeme? = words := by
  cases h with
  | nothing => exact ⟨[], .nil .nil, nofun, rfl⟩
  | semicolon =>
      have hspells : Spells .semicolon (utf8 ";") := .mark (by decide)
      have hcut := @cut_token offset [] [] .semicolon (utf8 ";") [] .nil hspells nofun (.nil .nil)
      exact ⟨_, hcut, List.forall_mem_singleton.mpr ⟨_, rfl⟩, rfl⟩

theorem Faultless.congr (h : Faultless ps)
    (hsame : qs.map (fun p => (p.text, p.content)) = ps.map fun p => (p.text, p.content)) :
    Faultless qs ∧ qs.filterMap Piece.lexeme? = ps.filterMap Piece.lexeme? := by
  have hcontents : qs.map Piece.content = ps.map Piece.content := by
    have hmap := congrArg (List.map Prod.snd) hsame
    rwa [List.map_map, List.map_map] at hmap
  constructor
  · intro q hq
    obtain ⟨p, hp, heq⟩ := List.mem_map.mp (hcontents ▸ List.mem_map_of_mem hq)
    obtain ⟨kind, hkind⟩ := h p hp
    exact ⟨kind, heq.symm.trans hkind⟩
  · have hlexeme : ∀ ps : List Piece, ps.filterMap Piece.lexeme? =
        (ps.map fun p => (p.text, p.content)).filterMap fun x => Piece.lexeme? ⟨0, x.1, x.2⟩ := by
      intro ps
      rw [List.filterMap_map]
      rfl
    rw [hlexeme, hlexeme, hsame]

/-! ## Scanning an excerpt -/

variable {src : Source} {ts mid : List Token} {first last eof : Token}

/-- The bytes from the start of one token to the end of another. -/
def excerpt (text : Bytes) (first last : Token) : Bytes :=
  (text.drop first.range.start).take (last.range.stop - first.range.start)

/-- Each piece of a faultless text is a token. -/
theorem ranges_tokens (h : Faultless ps) :
    (ps.filterMap (Piece.token? src)).map Token.range = ps.map (Piece.range src) := by
  induction ps with
  | nil => rfl
  | cons p ps ih =>
      obtain ⟨⟨kind, hkind⟩, hps⟩ := List.forall_mem_cons.mp h
      have htoken : Piece.token? src p = some ⟨kind, p.text, p.range src⟩ := by
        rw [Piece.token?, hkind]
        rfl
      rw [List.filterMap_cons_some htoken, List.map_cons, List.map_cons, ih hps]

/-- Standing alone, the text from where a token starts to where a later one ends is scanned
without a fault into the tokens that it was scanned into before. -/
theorem scan_excerpt (hclean : (scan src).2.isClean = true) (htokens : (scan src).1 = ts ++ [eof])
    (hmid : mid <:+: ts) (hfirst : mid.head? = some first) (hlast : mid.getLast? = some last)
    (htail : Closing tail words) (uri : Bytes) :
    (scan ⟨uri, excerpt src.text first last ++ tail⟩).2 = Bag.empty ∧
      lexemes (scan ⟨uri, excerpt src.text first last ++ tail⟩).1 =
        lexemes mid ++ words ++ [(.eof, [])] := by
  obtain ⟨rfl, _⟩ := List.append_inj' ((scan_tokens_eq src).symm.trans htokens) rfl
  obtain ⟨a, b, hsplit⟩ := hmid
  obtain ⟨ps, qs, hpieces, hps, rfl⟩ := List.filterMap_eq_append_iff.mp hsplit.symm
  obtain ⟨os, ps, rfl, rfl, rfl⟩ := List.filterMap_eq_append_iff.mp hps
  have hsubset : ps ⊆ pieces src.text := by
    rw [hpieces]
    exact fun p hp => List.mem_append_left _ (List.mem_append_right _ hp)
  have hfaultless : Faultless ps := fun p hp => (isClean_scan_iff src).mp hclean p (hsubset hp)
  have hstart : ps.head?.map (Piece.range src) = some first.range := by
    rw [← List.head?_map, ← ranges_tokens hfaultless, List.head?_map, hfirst]
    rfl
  have hstop : ps.getLast?.map (Piece.range src) = some last.range := by
    rw [← List.getLast?_map, ← ranges_tokens hfaultless, List.getLast?_map, hlast]
    rfl
  obtain ⟨p, hp, hpfirst⟩ := Option.map_eq_some_iff.mp hstart
  obtain ⟨q, hq, hqlast⟩ := Option.map_eq_some_iff.mp hstop
  obtain ⟨more, rfl⟩ := List.head?_eq_some_iff.mp hp
  have hcut := cut_pieces src.text
  rw [hpieces, List.append_assoc, List.cons_append] at hcut
  obtain ⟨before, after, htext, hend, htruncate⟩ :=
    @Cut.truncate _ _ (p :: more) qs (hcut.behind List.drop_zero) hfaultless
  have hexcerpt : excerpt src.text first last = before := by
    rw [hq, Option.map_some, Option.getD_some] at hend
    have hwidth : last.range.stop - first.range.start = before.length := by
      rw [← hpfirst, ← hqlast]
      exact Nat.sub_eq_of_eq_add' hend
    rw [excerpt, hwidth, ← hpfirst]
    exact htext ▸ List.take_left
  obtain ⟨rs, hrs, hrsfaultless, hwords⟩ := htail.cut (p.start + before.length)
  obtain ⟨ps', hcut', hsame⟩ := (htruncate htail hrs).elsewhere 0
  obtain ⟨hfaultless', hlexemes⟩ := Faultless.congr
    (List.forall_mem_append.mpr ⟨hfaultless, hrsfaultless⟩) hsame
  rw [hexcerpt]
  obtain rfl := cut_iff.mp hcut'
  refine ⟨scan_faultless hfaultless', ?_⟩
  rw [lexemes_scan, hlexemes, List.filterMap_append, hwords, lexemes_tokens hsubset]

end LoxMachine.Token
