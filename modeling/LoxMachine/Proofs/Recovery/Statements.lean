import LoxMachine.Proofs.Recovery.Confinement
import LoxMachine.Proofs.Recovery.Detours
import LoxMachine.Proofs.Recovery.Shapes

/-!
# A broken simple statement harms only itself

A broken statement that neither holds a brace nor starts another statement costs one
complaint, about one of its tokens or its semicolon.  Everything else is parsed as if it
were not there, in a module as in a block or the body of a function.
-/

namespace LoxMachine.Parser

open LoxMachine.Grammar

/-! ## Recovery -/

section Fences

variable {α : Type} {φ : Fence} {k n m : Nat} {ts us : List Token}

/-- Recovery stops right behind the semicolon. -/
theorem resume_fence {last : Kind} (hlast : last ≠ .semicolon) (hts : ∀ t ∈ ts, Tame t) :
    resume last (ts ++ φ.semi :: φ.rest) = φ.rest := by
  induction ts generalizing last with
  | nil =>
      have hbehind : resume .semicolon φ.rest = φ.rest := by
        cases φ.rest with
        | nil => rfl
        | cons t rest => simp [resume]
      rw [List.nil_append, resume, if_neg (by simp [φ.closes, hlast, startsStatement]), φ.closes]
      exact hbehind
  | cons t ts ih =>
      obtain ⟨⟨hkind, hstart, -⟩, hts⟩ := List.forall_mem_cons.mp hts
      simp only [List.mem_cons, List.not_mem_nil, or_false, not_or] at hkind
      rw [List.cons_append, resume, if_neg (by simp [hkind, hlast, hstart])]
      exact ih hkind.1 hts

theorem synchronize_fence (bag : Bag) (hts : ∀ t ∈ ts, Tame t) :
    synchronize { φ.cursor n ts with bag := bag } = ⟨φ.rest, φ.eof, n, bag⟩ := by
  cases ts with
  | nil =>
      have hkind : φ.semi.kind ≠ .eof := by rw [φ.closes]; decide
      have hbehind : resume φ.semi.kind φ.rest = φ.rest := by
        rw [φ.closes]
        cases φ.rest with
        | nil => rfl
        | cons t rest => simp [resume]
      simp only [synchronize, Fence.cursor, List.nil_append, if_neg hkind, hbehind]
  | cons t ts =>
      obtain ⟨⟨hkind, -, -⟩, hts⟩ := List.forall_mem_cons.mp hts
      simp only [List.mem_cons, List.not_mem_nil, or_false, not_or] at hkind
      obtain ⟨hsemi, _, _, _, hend⟩ := hkind
      simp only [synchronize, Fence.cursor, List.cons_append, if_neg hend,
        resume_fence hsemi hts]

/-- A parser that is confined in front of the semicolon succeeds behind it, or recovery
leads there after one complaint. -/
theorem Confined.recovering {p : Parser α} (h : Confined φ true p)
    (hts : ∀ t ∈ ts, Tame t) :
    recovering p (φ.cursor n ts) = .exhausted ∨
      (∃ a m, recovering p (φ.cursor n ts) = .ok (some a) ⟨φ.rest, φ.eof, m, φ.bag⟩) ∨
      ∃ (m : Nat) (t : Token) (complaint : Complaint), t ∈ ts ++ [φ.semi] ∧
        recovering p (φ.cursor n ts) =
          .ok none ⟨φ.rest, φ.eof, m, φ.bag.error t.range complaint.message⟩ := by
  have hc := h ts n hts
  unfold Parser.recovering
  generalize p (φ.cursor n ts) = outcome at hc ⊢
  cases hc with
  | past => exact Or.inr (Or.inl ⟨_, _, rfl⟩)
  | @stuck _ us m t complaint hus ht =>
      refine Or.inr (Or.inr ⟨m, t, complaint, ht, ?_⟩)
      exact congrArg (Parsed.ok none) (synchronize_fence _ fun t ht => hts t (hus.subset ht))
  | exhausted => exact Or.inl rfl

end Fences

end LoxMachine.Parser

namespace LoxMachine.Grammar

open LoxMachine.Parser

/-! ## Broken statements -/

/-- The tokens of a statement up to its semicolon that are no valid declaration: they hold
neither braces nor an assignment, and no word that starts a statement but that of a
variable declaration or a simple statement at their start.  What they have as numbers are
numbers, as it is with all tokens that are scanned. -/
structure Broken (text : List Token) (semi : Token) : Prop where
  closes : semi.kind = .semicolon
  plain : ∀ t ∈ text, t.kind ∉ [Kind.semicolon, .leftBrace, .rightBrace, .equal, .eof]
  first : ∀ t ∈ text.head?, startsStatement t.kind = true →
    t.kind ∈ [Kind.keyword .varWord, .keyword .printWord, .keyword .returnWord,
      .keyword .assertWord]
  later : ∀ t ∈ text.tail, startsStatement t.kind = false
  alone : ∀ t ∈ text.head?, t.kind ≠ .keyword .elseWord
  legible : ∀ t ∈ text, t.Legible
  invalid : ¬ Derives .declaration ((text ++ [semi]).map Token.kind)

variable {text : List Token} {semi : Token} {k n : Nat}

/-- A kind that starts no statement of its own starts an expression, if anything. -/
theorem rest_eq_none {kind : Kind} (hstart : startsStatement kind = false)
    (hbrace : kind ≠ .leftBrace) :
    declarationRest (declaration k) (k + 1) kind = none ∧
      statementRest (declaration k) (statement k) (k + 1) kind = none := by
  unfold declarationRest statementRest
  constructor
  · split <;> first | rfl | cases hstart
  · split <;> first | rfl | exact absurd rfl hbrace | cases hstart

theorem declaration_expression {t : Token} {ts : List Token} {eof : Token} {bag : Bag}
    (hstart : startsStatement t.kind = false) (hbrace : t.kind ≠ .leftBrace) :
    declaration (k + 1) ⟨t :: ts, eof, n, bag⟩ =
      recovering (expressionStatement (expression (k + 1)) (utf8 "';' after expression"))
        ⟨t :: ts, eof, n, bag⟩ := by
  obtain ⟨hdecl, hstmt⟩ := rest_eq_none (k := k) hstart hbrace
  rw [declaration_statement hdecl, recovering, recovering, statement, statementWith_eq,
    bind_apply]
  simp only [peek, List.headD_cons, hstmt]

theorem declaration_simple {t : Token} {ts : List Token} {eof : Token} {bag : Bag}
    {p : Range → Parser Stmt} (hdecl : declarationRest (declaration k) (k + 1) t.kind = none)
    (hstmt : statementRest (declaration k) (statement k) (k + 1) t.kind = some p) :
    declaration (k + 1) ⟨t :: ts, eof, n, bag⟩ =
      recovering (p t.range) ⟨ts, eof, n, bag⟩ := by
  rw [declaration_statement hdecl, recovering, recovering, statement_rest hstmt]

/-- Its declaration is confined in front of the semicolon. -/
theorem Broken.confined {φ : Fence} (h : Broken text φ.semi) (k n : Nat) :
    ∃ (p : Parser Stmt) (us : List Token), Confined φ true p ∧ (∀ t ∈ us, Tame t) ∧
      us <:+ text ∧ declaration (k + 1) (φ.cursor n text) = recovering p (φ.cursor n us) := by
  have hexpr : Confined φ false (expression (k + 1)) := confined_expression (k + 1)
  cases text with
  | nil =>
      exact ⟨_, [], confined_expressionStatement hexpr _, nofun, List.suffix_refl _,
        declaration_expression (by rw [φ.closes]; rfl) (by rw [φ.closes]; decide)⟩
  | cons t us =>
      have hus : ∀ t ∈ us, Tame t := fun t ht =>
        ⟨h.plain t (List.mem_cons_of_mem _ ht), h.later t ht,
          h.legible t (List.mem_cons_of_mem _ ht)⟩
      have hplain := h.plain t List.mem_cons_self
      cases hstart : startsStatement t.kind with
      | false =>
          exact ⟨_, t :: us, confined_expressionStatement hexpr _,
            List.forall_mem_cons.mpr ⟨⟨hplain, hstart, h.legible t List.mem_cons_self⟩, hus⟩,
            List.suffix_refl _,
            declaration_expression hstart fun heq => hplain (by rw [heq]; decide)⟩
      | true =>
          have hkind := h.first t rfl hstart
          simp only [List.mem_cons, List.not_mem_nil, or_false] at hkind
          rcases hkind with hkind | hkind | hkind | hkind
          · exact ⟨_, us, confined_variableRest t.range, hus, List.suffix_cons _ _,
              declaration_rest (by rw [hkind]; rfl)⟩
          · exact ⟨_, us, confined_printRest hexpr t.range, hus, List.suffix_cons _ _,
              declaration_simple (by rw [hkind]; rfl) (by rw [hkind]; rfl)⟩
          · exact ⟨_, us, confined_returnRest hexpr t.range, hus, List.suffix_cons _ _,
              declaration_simple (by rw [hkind]; rfl) (by rw [hkind]; rfl)⟩
          · exact ⟨_, us, confined_assertRest hexpr t.range, hus, List.suffix_cons _ _,
              declaration_simple (by rw [hkind]; rfl) (by rw [hkind]; rfl)⟩

/-- Its declaration breaks off, and recovery stops right behind the semicolon. -/
theorem Broken.declaration_eq (φ : Fence) (heof : φ.eof.kind = .eof) (h : Broken text φ.semi)
    (n : Nat) :
    ∃ (m : Nat) (t : Token) (complaint : Complaint), t ∈ text ++ [φ.semi] ∧
      declaration ((φ.cursor n text).rest.length + 1) (φ.cursor n text) =
        .ok none ⟨φ.rest, φ.eof, m, φ.bag.error t.range complaint.message⟩ := by
  have hend : ((φ.cursor n text).rest.headD φ.eof).kind ≠ .eof := by
    cases htext : text with
    | nil =>
        rw [Fence.cursor, List.nil_append, List.headD_cons, φ.closes]
        decide
    | cons t us =>
        intro heq
        rw [Fence.cursor, List.cons_append, List.headD_cons] at heq
        exact h.plain t (by rw [htext]; exact List.mem_cons_self) (by rw [heq]; decide)
  let k := (φ.cursor n text).rest.length
  obtain ⟨p, us, hp, hus, hsuffix, hdecl⟩ := h.confined k n
  rcases hp.recovering (n := n) hus with hshort | ⟨s, m, hok⟩ | ⟨m, t, complaint, ht, hnone⟩
  · have hmoves := (moves_statement_declaration (k + 1) (Nat.le_refl _)).2 _ hend
      (φ.cursor n text) heof (Nat.lt_succ_self _) rfl
    rw [hdecl, hshort] at hmoves
    exact hmoves.elim
  · -- A declaration that is read would be the broken one.
    rw [← hdecl] at hok
    obtain ⟨s', vs, hsome, hsplit, hread⟩ :=
      (sound_statement_declaration heof (k + 1)).2 hok
    have hvs : text ++ [φ.semi] = vs := by
      refine (List.append_left_inj φ.rest).mp ?_
      rw [← hsplit, List.append_assoc]
      rfl
    exact absurd (hvs ▸ hread.derives) h.invalid
  · refine ⟨m, t, complaint, ?_, hdecl.trans hnone⟩
    rcases List.mem_append.mp ht with ht | ht
    · exact List.mem_append_left _ (hsuffix.subset ht)
    · exact List.mem_append_right _ ht

/-- No broken statement starts with these. -/
theorem Broken.head_ne (h : Broken text semi) :
    ∃ t us, text ++ [semi] = t :: us ∧
      ∀ kind ∈ [Kind.rightBrace, .eof, .keyword .elseWord], t.kind ≠ kind := by
  cases htext : text with
  | nil =>
      refine ⟨semi, [], rfl, ?_⟩
      rw [h.closes]
      decide
  | cons t us =>
      have hplain := h.plain t (by rw [htext]; exact List.mem_cons_self)
      have halone := h.alone t (by rw [htext]; rfl)
      simp only [List.mem_cons, List.not_mem_nil, or_false, not_or] at hplain
      exact ⟨t, us ++ [semi], rfl, by simp [hplain, halone]⟩

/-- The broken statement is left out by one round of the loop over declarations. -/
theorem Broken.skips {eof : Token} (heof : eof.kind = .eof) (h : Broken text semi)
    {R : List Token} (hR : (R.headD eof).kind ≠ .keyword .elseWord) (bag : Bag) (n : Nat) :
    ∃ (w : Nat) (t : Token) (complaint : Complaint), t ∈ text ++ [semi] ∧
      Skips eof bag (bag.error t.range complaint.message) n w (text ++ [semi]) R := by
  let φ : Fence := ⟨semi, R, eof, bag, h.closes⟩
  obtain ⟨m, t, complaint, ht, hdecl⟩ := h.declaration_eq φ heof n
  obtain ⟨head, us, htokens, hhead⟩ := h.head_ne
  have hcursor : φ.cursor n text = ⟨head :: (us ++ R), eof, n, bag⟩ := by
    rw [← List.cons_append, ← htokens, List.append_assoc]
    rfl
  rw [hcursor] at hdecl
  obtain ⟨w, hpasses⟩ :=
    passes_declaration heof (hhead _ (by decide)) (hhead _ (by decide)) hdecl
  rw [← htokens] at hpasses
  refine ⟨w, t, complaint, ht, ?_, hR, hpasses⟩
  rw [htokens, List.cons_append, List.headD_cons]
  exact hhead _ (by decide)

/-! ## What stands around -/

/-- `pre` and `post` are what comes before and behind some declarations `body` where the
whole text is read as `wrap body`. -/
inductive Wraps : List Token → List Token → (List Stmt → List Stmt) → Prop where
  | here : Wraps [] [] id
  | beside {pre post wrap P Q p q} : Wraps pre post wrap → ReadsAs P p → ReadsAs Q q →
      Wraps (pre ++ P) (Q ++ post) fun body => wrap (p ++ body ++ q)
  | block {pre post wrap} {left right : Token} : Wraps pre post wrap →
      left.kind = .leftBrace → right.kind = .rightBrace →
      Wraps (pre ++ [left]) (right :: post) fun body => wrap [.block body Range.nowhere]
  | function {pre post wrap n m ps ts} {kw name left close brace right : Token} :
      Wraps pre post wrap → kw.kind = .keyword .funWord → name.kind = .identifier →
      left.kind = .leftParen → Reads (.parameters ps) n ts m → close.kind = .rightParen →
      brace.kind = .leftBrace → right.kind = .rightBrace →
      Wraps (pre ++ kw :: name :: left :: (ts ++ [close, brace])) (right :: post) fun body =>
        wrap [.function (.mk .function (nameOf name) ps body Range.nowhere)]

section Wrapping

variable {pre post ts : List Token} {wrap : List Stmt → List Stmt} {body : List Stmt}

theorem Wraps.opening (h : Wraps pre post wrap) (n : Nat) :
    ∃ m, Opening .declarations n pre m := by
  induction h with
  | here => exact ⟨n, .here⟩
  | beside _ hP _ ih =>
      obtain ⟨m, hopen⟩ := ih
      obtain ⟨p, k, hread, _⟩ := hP m
      exact ⟨k, hopen.append hread.opening⟩
  | block _ hleft _ ih =>
      obtain ⟨m, hopen⟩ := ih
      exact ⟨m, hopen.append (.statement (.block hleft .here))⟩
  | function _ hkw hname hleft hps hclose hbrace _ ih =>
      obtain ⟨m, hopen⟩ := ih
      exact ⟨m, hopen.append
        (.function hkw (.body hname hleft (hps.parameters_any.2 m) hclose hbrace .here))⟩

theorem Wraps.readsAs (h : Wraps pre post wrap) (hts : ReadsAs ts body) :
    ReadsAs (pre ++ ts ++ post) (wrap body) := by
  induction h generalizing ts body with
  | here => simpa using hts
  | beside _ hP hQ ih => simpa using ih ((hP.append hts).append hQ)
  | block _ hleft hright ih => simpa using ih (hts.block hleft hright Range.nowhere)
  | function _ hkw hname hleft hps hclose hbrace hright ih =>
      simpa using ih (hts.function hkw hname hleft hps hclose hbrace hright Range.nowhere)

theorem Wraps.head_ne_else {eof : Token} (heof : eof.kind = .eof) (h : Wraps pre post wrap) :
    (post.headD eof).kind ≠ .keyword .elseWord := by
  induction h with
  | here =>
      rw [List.headD_nil, heof]
      decide
  | beside _ _ hQ ih =>
      obtain ⟨q, m, hread, _⟩ := hQ 0
      exact declarations_head_ne_else hread ih
  | block _ _ hright _ =>
      rw [List.headD_cons, hright]
      decide
  | function _ _ _ _ _ _ _ hright _ =>
      rw [List.headD_cons, hright]
      decide

end Wrapping

/-- Among declarations that are parsed without a complaint, in a module, a block or the
body of a function, a broken statement costs one complaint about one of its tokens, and the
declarations are parsed as if it were not there. -/
theorem parse_broken_statement {pre post S₁ S₂ : List Token} {b₁ b₂ : List Stmt}
    {wrap : List Stmt → List Stmt} {eof : Token} (heof : eof.kind = .eof)
    (hwraps : Wraps pre post wrap) (h₁ : ParsesAs S₁ b₁) (h₂ : ParsesAs S₂ b₂)
    (hbroken : Broken text semi) (kind : ModuleKind) (n : Nat) (bag : Bag) :
    ∃ (outcome : Module.Outcome) (t : Token) (complaint : Complaint),
      Module.parse (pre ++ (S₁ ++ text ++ semi :: S₂) ++ post ++ [eof]) kind n bag =
        .ok outcome ∧
      t ∈ text ++ [semi] ∧ outcome.bag = bag.error t.range complaint.message ∧
      Stmt.shapes outcome.module.body = Stmt.shapes (wrap (b₁ ++ b₂)) := by
  have haround := Wraps.beside hwraps h₁.readsAs h₂.readsAs
  obtain ⟨m, hopen⟩ := haround.opening n
  obtain ⟨w, t, complaint, ht, hskips⟩ :=
    hbroken.skips heof (haround.head_ne_else heof) bag m
  obtain ⟨plain, skipped, hplain, hskipped, hbody, -, hbag⟩ :=
    parse_detour heof hopen hskips kind
  obtain ⟨body, k, hread, hshapes⟩ := haround.readsAs readsAs_nil n
  -- Without the broken statement, the tokens are read as what is around it.
  rw [List.append_nil] at hread
  have hmodule : ReadsModule kind n (pre ++ S₁ ++ (S₂ ++ post) ++ [eof])
      ⟨kind, body, ((pre ++ S₁ ++ (S₂ ++ post)).headD eof).range.join eof.range⟩ k :=
    ⟨_, eof, rfl, heof, hread, rfl, rfl⟩
  have hclean := parse_of_readsModule bag hmodule
  cases hplain.symm.trans hclean
  refine ⟨skipped, t, complaint, ?_, ht, ?_, ?_⟩
  · rw [← hskipped]
    simp
  · exact hbag.eq_iff.mp rfl
  · rw [hbody, Stmt.shapes_renumberAll]
    simpa using hshapes

theorem exists_parsesAs {ts : List Token} (hts : ∀ t ∈ ts, t.kind ≠ .eof)
    (h : (Module.parse (ts ++ [mark .eof]) .sourceFile 0 Bag.empty).map Module.Outcome.bag =
      .ok Bag.empty) : ∃ body, ParsesAs ts body := by
  obtain ⟨m, c, -, hparse⟩ := parse_eq_ok ts (show (mark .eof).kind = .eof from rfl)
    .sourceFile 0 Bag.empty
  rw [hparse] at h
  exact ⟨m.body, ts, mark .eof, .sourceFile, 0, Bag.empty, _, rfl, hts, rfl, hparse,
    Except.ok.inj h, rfl⟩

theorem not_derives_of_complaint {ts : List Token} (hlegible : ∀ t ∈ ts, t.Legible)
    (h : (Module.parse (ts ++ [mark .eof]) .sourceFile 0 Bag.empty).map Module.Outcome.bag ≠
      .ok Bag.empty) : ¬ Derives .declaration (ts.map Token.kind) := by
  intro hderives
  obtain ⟨s, m, hread⟩ := hderives.readable ts ⟨rfl, hlegible⟩ 0
  have hbody := Reads.declarations hread .noDeclaration
  rw [List.append_nil] at hbody
  have hmodule : ReadsModule .sourceFile 0 (ts ++ [mark .eof])
      ⟨.sourceFile, [s], (ts.headD (mark .eof)).range.join (mark .eof).range⟩ m :=
    ⟨ts, mark .eof, rfl, rfl, hbody, rfl, rfl⟩
  refine h ?_
  rw [parse_of_readsModule Bag.empty hmodule]
  rfl

/-- In the body of a function, a broken statement costs a complaint between two others. -/
theorem parse_broken_statement_in_body :
    ∃ b₁ b₂ : List Stmt,
      ParsesAs (lexed (utf8 "print a;")) b₁ ∧ ParsesAs (lexed (utf8 "return a;")) b₂ ∧
      ∃ (outcome : Module.Outcome) (t : Token) (complaint : Complaint),
        Module.parse ([Kind.keyword .funWord, .identifier, .leftParen, .identifier,
            .rightParen, .leftBrace].map mark ++
          (lexed (utf8 "print a;") ++ lexed (utf8 "print ) a +") ++
            mark .semicolon :: lexed (utf8 "return a;")) ++
          [mark .rightBrace] ++ [mark .eof]) .sourceFile 0 Bag.empty = .ok outcome ∧
        t ∈ lexed (utf8 "print ) a +") ++ [mark .semicolon] ∧
        outcome.bag = Bag.empty.error t.range complaint.message ∧
        Stmt.shapes outcome.module.body = Stmt.shapes [.function (.mk .function
          (nameOf (mark .identifier)) [nameOf (mark .identifier)] (b₁ ++ b₂)
          Range.nowhere)] := by
  obtain ⟨b₁, h₁⟩ : ∃ b₁, ParsesAs (lexed (utf8 "print a;")) b₁ :=
    exists_parsesAs (by decide +kernel) (by decide +kernel)
  obtain ⟨b₂, h₂⟩ : ∃ b₂, ParsesAs (lexed (utf8 "return a;")) b₂ :=
    exists_parsesAs (by decide +kernel) (by decide +kernel)
  have hnames : Reads (.parameters [nameOf (mark .identifier)]) 0 [mark .identifier] 0 :=
    .parameters (.lastName rfl)
  have hwraps : Wraps ([Kind.keyword .funWord, .identifier, .leftParen, .identifier,
      .rightParen, .leftBrace].map mark) [mark .rightBrace] fun body =>
        [.function (.mk .function (nameOf (mark .identifier)) [nameOf (mark .identifier)] body
          Range.nowhere)] :=
    .function .here rfl rfl rfl hnames rfl rfl rfl
  have hbroken : Broken (lexed (utf8 "print ) a +")) (mark .semicolon) := by
    refine ⟨rfl, by decide +kernel, by decide +kernel, by decide +kernel, by decide +kernel,
      by decide +kernel, ?_⟩
    exact not_derives_of_complaint (by decide +kernel) (by decide +kernel)
  exact ⟨b₁, b₂, h₁, h₂, parse_broken_statement rfl hwraps h₁ h₂ hbroken .sourceFile 0 Bag.empty⟩

end LoxMachine.Grammar
