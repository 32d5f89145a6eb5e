import LoxMachine.Proofs.Grammar.Parts
import LoxMachine.Proofs.Grammar.Spans
import LoxMachine.Proofs.Recovery.Shapes
import LoxMachine.Proofs.Token.Excerpts

/-!
# Excerpts of a source

The text of the span of an expression, with a semicolon behind it, and the text of the span of
a top-level statement are read by themselves as what they were read as in their source.
-/

namespace LoxMachine

open Grammar Token

variable {src : Source} {text tail : Bytes} {words : List (Kind × Bytes)}
  {ts us mid : List Token} {body : List Stmt} {s : Stmt} {e : Expr} {r : Range} {n m : Nat}

/-- By itself the text is scanned and parsed without a diagnostic, to one statement, and that is
`s` up to node numbers and ranges. -/
def StandsFor (text : Bytes) (s : Stmt) : Prop :=
  ∀ uri kind n, (Token.scan ⟨uri, text⟩).2 = Bag.empty ∧
    ∃ outcome s', Module.parse (Token.scan ⟨uri, text⟩).1 kind n Bag.empty = .ok outcome ∧
      outcome.bag = Bag.empty ∧ outcome.module.body = [s'] ∧ Stmt.shapes [s'] = Stmt.shapes [s]

/-- The expression is the condition of a loop that was given it for want of one: it is `true`
at a semicolon. -/
def Module.Supplies (module : Module) (e : Expr) : Prop :=
  ∃ body span r, module.Has (.stmt (.loop e body span)) ∧ e = .literal (.bool true) r ∧
    r.text = utf8 ";"

/-- The spans in a module say where its expressions and its statements were read from. -/
structure Module.Faithful (src : Source) (module : Module) : Prop where
  proper : ∀ e, module.HasExpr e → e.span.Proper src
  nested : ∀ e e', module.HasExpr e → (TreeNode.expr e).Contains (.expr e') →
    e.span.start ≤ e'.span.start ∧ e'.span.stop ≤ e.span.stop
  expressions : ∀ e, module.HasExpr e → ¬ module.Supplies e →
    StandsFor (e.span.text ++ utf8 ";") (.expr e e.span)
  statements : ∀ s ∈ module.body, s.span.Proper src ∧ StandsFor s.span.text s
  increasing : module.body.Pairwise fun s u => s.span.stop ≤ u.span.start

/-! ## Tokens of a source -/

theorem Token.Spells.of_semicolon {word : Bytes} (h : Spells .semicolon word) : word = utf8 ";" := by
  cases h with
  | mark h =>
      have hall : ∀ m ∈ marks, m.1 = .semicolon → m.2 = utf8 ";" := by decide
      exact hall _ h rfl

theorem Token.Munched.inOrder {faults : List Diagnostic} (h : Munched src ts faults) : InOrder src ts :=
  ⟨fun _ ht => h.proper _ (List.mem_append_left _ (List.mem_map_of_mem ht)), h.tokens_increase⟩

namespace Grammar

/-! ## The same tokens elsewhere -/

theorem lexemes_place (hts : ∀ t ∈ ts, t.text = t.range.text)
    (hus : ∀ t ∈ us, t.text = t.range.text) (h : lexemes us = lexemes ts) :
    us.map (Token.place fun _ => Range.nowhere) = ts.map (Token.place fun _ => Range.nowhere) := by
  have hplace : ∀ {ts : List Token}, (∀ t ∈ ts, t.text = t.range.text) →
      ts.map (Token.place fun _ => Range.nowhere) =
        (lexemes ts).map fun w => ⟨w.1, w.2, Range.nowhere⟩ := by
    intro ts hts
    rw [lexemes, List.map_map]
    refine List.map_congr_left fun t ht => ?_
    rw [Token.place, hts t ht]
    rfl
  rw [hplace hus, hplace hts, h]

theorem eq_singleton_of_shapes (h : Stmt.shapes body = Stmt.shapes [s]) : ∃ s', body = [s'] := by
  have hlength := congrArg List.length h
  simp only [Stmt.shapes, Stmt.renumberAll_eq_map, Stmt.placeAll_eq_map, List.length_map] at hlength
  exact List.length_eq_one_iff.mp hlength

/-- A text stands for a declaration if it is scanned into the tokens of the declaration. -/
theorem standsFor_of_reads (hread : Reads (.declaration s) n ts m)
    (hts : ∀ t ∈ ts, t.kind ≠ .eof ∧ t.text = t.range.text)
    (hscan : ∀ uri, (Token.scan ⟨uri, text⟩).2 = Bag.empty ∧
      lexemes (Token.scan ⟨uri, text⟩).1 = lexemes ts ++ [(.eof, [])]) :
    StandsFor text s := by
  intro uri kind k
  obtain ⟨hclean, hlexemes⟩ := hscan uri
  have hus := scan_tokens_eq ⟨uri, text⟩
  have hmunched := munched_scan ⟨uri, text⟩
  generalize (pieces text).filterMap _ = us at hus hmunched
  rw [hus, lexemes, List.map_append] at hlexemes
  have hsame := lexemes_place (fun t ht => (hts t ht).2) hmunched.text_eq (List.append_inj' hlexemes rfl).1
  have hone : Reads (.declarations [s]) n ts m := by
    have happend := Reads.declarations hread .noDeclaration
    rwa [List.append_nil] at happend
  have hmodule : ReadsModule kind n (ts ++ [mark .eof])
      ⟨kind, [s], (ts.headD (mark .eof)).range.join (mark .eof).range⟩ m :=
    ⟨ts, mark .eof, rfl, rfl, hone, rfl, rfl⟩
  have hparses : ParsesAs us [s] :=
    ⟨ts, mark .eof, kind, n, Bag.empty, _, hsame.symm, fun t ht => (hts t ht).1, rfl,
      parse_of_readsModule _ hmodule, rfl, rfl⟩
  obtain ⟨body, l, hread', hshape⟩ := hparses.readsAs k
  obtain ⟨s', rfl⟩ := eq_singleton_of_shapes hshape
  have hmodule' : ReadsModule kind k (Token.scan ⟨uri, text⟩).1 ⟨kind, [s'], _⟩ l :=
    ⟨us, _, hus, rfl, hread', rfl, rfl⟩
  exact ⟨hclean, _, s', parse_of_readsModule Bag.empty hmodule', rfl, rfl, hshape⟩

/-- A text stands for an expression if it is scanned into its tokens and a semicolon. -/
theorem standsFor_of_expression (hread : Reads (.expression e) n ts m)
    (hts : ∀ t ∈ ts, t.kind ≠ .eof ∧ t.text = t.range.text)
    (hscan : ∀ uri, (Token.scan ⟨uri, text⟩).2 = Bag.empty ∧
      lexemes (Token.scan ⟨uri, text⟩).1 =
        lexemes ts ++ [(.semicolon, utf8 ";")] ++ [(.eof, [])]) :
    StandsFor text (.expr e e.span) := by
  let semi : Token := ⟨.semicolon, utf8 ";", ⟨some ⟨[], utf8 ";"⟩, 0, 1⟩⟩
  have hdecl : Reads (.declaration (.expr e (e.span.join semi.range))) n (ts ++ [semi]) m :=
    .statement (.expr hread rfl)
  have hwhole : ∀ t ∈ ts ++ [semi], t.kind ≠ .eof ∧ t.text = t.range.text :=
    List.forall_mem_append.mpr ⟨hts, List.forall_mem_singleton.mpr ⟨nofun, rfl⟩⟩
  -- Up to ranges it does not matter where the statement ends.
  change StandsFor text (.expr e (e.span.join semi.range))
  refine standsFor_of_reads hdecl hwhole fun uri => ?_
  have hlexemes : lexemes (ts ++ [semi]) = lexemes ts ++ [(.semicolon, utf8 ";")] :=
    List.map_append
  rw [hlexemes]
  exact hscan uri

/-! ## Excerpts across tokens -/

/-- The text across some tokens of a source is scanned into these. -/
theorem Across.scan {eof : Token} (h : Across src mid r) (hclean : (Token.scan src).2 = Bag.empty)
    (htokens : (Token.scan src).1 = ts ++ [eof]) (hmid : mid <:+: ts) (htail : Closing tail words)
    (uri : Bytes) :
    (Token.scan ⟨uri, r.text ++ tail⟩).2 = Bag.empty ∧
      lexemes (Token.scan ⟨uri, r.text ++ tail⟩).1 = lexemes mid ++ words ++ [(.eof, [])] := by
  obtain ⟨first, last, hfirst, hlast, rfl⟩ := h
  have hisClean : (Token.scan src).2.isClean = true := by
    rw [hclean]
    rfl
  exact scan_excerpt hisClean htokens hmid hfirst hlast htail uri

theorem Reads.declaration_of_mem (h : Reads (.declarations body) n ts m) (hs : s ∈ body) :
    ∃ mid n m, mid <:+: ts ∧ Reads (.declaration s) n mid m := by
  induction body generalizing n ts with
  | nil => cases hs
  | cons first body ih =>
      cases h with
      | @declarations _ j _ _ _ ts us hfirst hmore =>
          rcases List.mem_cons.mp hs with rfl | hs
          · exact ⟨ts, n, j, (List.prefix_append ts us).isInfix, hfirst⟩
          · obtain ⟨mid, n, m, hmid, hread⟩ := ih hmore hs
            exact ⟨mid, n, m, hmid.trans (List.suffix_append ts us).isInfix, hread⟩

/-- Declarations stand one behind the other. -/
theorem Reads.increasing (h : Reads (.declarations body) n ts m) (horder : InOrder src ts) :
    body.Pairwise fun s u => s.span.stop ≤ u.span.start := by
  induction body generalizing n ts with
  | nil => exact .nil
  | cons first body ih =>
      cases h with
      | @declarations _ _ _ _ _ ts us hfirst hmore =>
          refine .cons (fun s hs => ?_) (ih hmore horder.rest)
          obtain ⟨mid, _, _, hmid, hread⟩ := hmore.declaration_of_mem hs
          have hboth : InOrder src (ts ++ mid) :=
            horder.sublist ((List.Sublist.refl ts).append hmid.sublist)
          exact (hfirst.spans hboth.front).apart hboth (hread.spans hboth.rest)

end Grammar

namespace Module

/-! ## Modules read from a source -/

variable {module : Module}

theorem written_or_supplied (hread : Reads (.declarations module.body) n ts m)
    (h : module.HasExpr e) : Written ts e ∨ ∃ body span, module.Has (.stmt (.loop e body span)) ∧
      ∃ semi ∈ ts, semi.kind = .semicolon ∧ e = .literal (.bool true) semi.range := by
  obtain ⟨node, hnode, he⟩ := h
  obtain ⟨s, hs, hcontains⟩ := hnode.contains
  have hroot : TreeNode.stmt s ∈ module.body.map TreeNode.stmt := List.mem_map_of_mem hs
  refine (hread.accounts _ hroot node hcontains e he).imp_right ?_
  rintro ⟨body, span, hin, hsemi⟩
  exact ⟨body, span, Has.of_contains (.top hs) hin, hsemi⟩

theorem nested_of_reads (horder : InOrder src ts) (hread : Reads (.declarations module.body) n ts m)
    (h : module.HasExpr e) {e' : Expr} (hin : (TreeNode.expr e).Contains (.expr e')) :
    e.span.start ≤ e'.span.start ∧ e'.span.stop ≤ e.span.stop := by
  rcases written_or_supplied hread h with ⟨mid, k, l, hmid, hexpr⟩ | ⟨_, _, _, semi, _, _, rfl⟩
  · have horder' := horder.sublist hmid.sublist
    obtain ⟨mid', _, _, hmid', hexpr'⟩ := hexpr.accounts.written hin
    exact (hexpr.spans horder').within horder' hmid'.subset
      (hexpr'.spans (horder'.sublist hmid'.sublist))
  · rcases Relation.ReflTransGen.cases_head hin with heq | ⟨_, hnone, _⟩
    · rw [← TreeNode.expr.inj heq]
      exact ⟨Nat.le_refl _, Nat.le_refl _⟩
    · cases hnone

/-- The spans of every source that is scanned and parsed without a diagnostic are faithful. -/
theorem spans_faithful (src : Source) (kind : ModuleKind) (n : Nat) {outcome : Outcome}
    (hscan : (Token.scan src).2 = Bag.empty)
    (hparse : Module.parse (Token.scan src).1 kind n Bag.empty = .ok outcome)
    (hclean : outcome.bag = Bag.empty) : outcome.module.Faithful src := by
  have htokens := scan_tokens_eq src
  have hmunched := munched_scan src
  generalize (pieces src.text).filterMap _ = ts at htokens hmunched
  rw [htokens] at hparse
  have hread := reads_of_parse rfl hmunched.ne_eof hparse hclean
  have horder := hmunched.inOrder
  have hplain : ∀ {mid : List Token}, mid <:+: ts →
      ∀ t ∈ mid, t.kind ≠ .eof ∧ t.text = t.range.text := fun hmid t ht =>
    ⟨hmunched.ne_eof t (hmid.subset ht), hmunched.text_eq t (hmid.subset ht)⟩
  constructor
  case proper =>
    intro e he
    rcases written_or_supplied hread he with ⟨mid, _, _, hmid, hexpr⟩ | ⟨_, _, _, semi, hsemi, _, rfl⟩
    · have horder' := horder.sublist hmid.sublist
      exact (hexpr.spans horder').proper horder'
    · exact horder.proper semi hsemi
  case nested => exact fun e e' he hin => nested_of_reads horder hread he hin
  case expressions =>
    intro e he hnot
    rcases written_or_supplied hread he with
      ⟨mid, k, l, hmid, hexpr⟩ | ⟨body, span, hloop, semi, hsemi, hkind, rfl⟩
    · have horder' := horder.sublist hmid.sublist
      have hacross := hexpr.spans horder'
      exact standsFor_of_expression hexpr (hplain hmid)
        fun uri => hacross.scan hscan htokens hmid .semicolon uri
    · refine absurd ⟨body, span, semi.range, hloop, rfl, ?_⟩ hnot
      rw [← hmunched.text_eq semi hsemi]
      have hspells := (hmunched.longest semi hsemi).spells
      rw [hkind] at hspells
      exact hspells.of_semicolon
  case statements =>
    intro s hs
    obtain ⟨mid, _, _, hmid, hdecl⟩ := hread.declaration_of_mem hs
    have horder' := horder.sublist hmid.sublist
    have hacross := hdecl.spans horder'
    refine ⟨hacross.proper horder', standsFor_of_reads hdecl (hplain hmid) fun uri => ?_⟩
    have hexcerpt := hacross.scan hscan htokens hmid .nothing uri
    rwa [List.append_nil, List.append_nil] at hexcerpt
  case increasing => exact hread.increasing horder

/-- The source has a loop with and one without a condition, a class with a superclass,
assignments, calls and nested expressions, and comments between them. -/
theorem spans_faithful_sample :
    let src : Source := ⟨[], utf8 ("class A < B \x7b m(x) \x7b return super.m(this.y = -x) ; \x7d \x7d" ++
      "for (var i = 0; ; i = i + 1) // no end\n print ( a . b ) == c(i, \"s\") or !d;" ++
      "while (true) if (x) y = 1.5; else nil();")⟩
    (Token.scan src).2 = Bag.empty ∧ ∃ outcome : Outcome,
      Module.parse (Token.scan src).1 .sourceFile 0 Bag.empty = .ok outcome ∧
        outcome.bag = Bag.empty ∧ outcome.module.body.length = 3 ∧
        outcome.module.Faithful src := by
  intro src
  have hscan : (Token.scan src).2 = Bag.empty := by decide +kernel
  have hparse : (Module.parse (Token.scan src).1 .sourceFile 0 Bag.empty).map
      (fun outcome => (outcome.bag, outcome.module.body.length)) = .ok (Bag.empty, 3) := by
    decide +kernel
  cases h : Module.parse (Token.scan src).1 .sourceFile 0 Bag.empty with
  | error failure =>
      rw [h] at hparse
      cases hparse
  | ok outcome =>
      rw [h] at hparse
      obtain ⟨hclean, hlength⟩ := Prod.mk.inj (Except.ok.inj hparse)
      exact ⟨hscan, outcome, rfl, hclean, hlength, spans_faithful src _ _ hscan h hclean⟩

end Module

end LoxMachine
