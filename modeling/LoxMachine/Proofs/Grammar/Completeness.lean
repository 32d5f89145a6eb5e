import LoxMachine.Proofs.Grammar.Soundness

/-!
# Readable tokens are accepted

If tokens can be read as a phrase and what follows them does not go on with it, the
parser of that phrase accepts them and makes the same tree, as soon as its bounds
exceed the number of tokens left.
-/

namespace LoxMachine.Grammar

open LoxMachine.Parser

/-! ## First tokens -/

/-- The kinds a simple expression can start with. -/
def simpleStarts : List Kind :=
  [.keyword .superWord, .keyword .thisWord, .identifier, .leftParen] ++ literals

/-- The kinds an expression can start with. -/
def exprStarts : List Kind :=
  [.bang, .minus] ++ simpleStarts

/-- The kinds a statement can start with. -/
def stmtStarts : List Kind :=
  [.keyword .forWord, .keyword .ifWord, .keyword .whileWord, .keyword .printWord,
    .keyword .assertWord, .keyword .returnWord, .leftBrace] ++ exprStarts

/-- The kinds a phrase can start with, unless it can be empty. -/
def Phrase.starts? : Phrase → Option (List Kind)
  | .declaration _ => some ([.keyword .classWord, .keyword .funWord, .keyword .varWord] ++
      stmtStarts)
  | .variable _ => some [.keyword .varWord]
  | .function _ _ _ => some [.identifier]
  | .names _ => some [.identifier]
  | .statement _ _ => some stmtStarts
  | .initializer _ => some ([.semicolon, .keyword .varWord] ++ exprStarts)
  | .expression _ => some exprStarts
  | .level _ _ => some exprStarts
  | .unary _ => some exprStarts
  | .call _ => some simpleStarts
  | .primary _ => some simpleStarts
  | .expressions _ => some exprStarts
  | _ => none

theorem Reads.starts {φ : Phrase} {n m : Nat} {ts : List Token} (h : Reads φ n ts m) :
    ∀ {ks}, φ.starts? = some ks → ∃ t us, ts = t :: us ∧ t.kind ∈ ks := by
  induction h with
  | noDeclaration | noMethod | noParameter | absent | noArgument => intro ks hks; cases hks
  | declarations _ _ _ _ | methods _ _ _ _ _ | parameters _ _ | present _ _
  | arguments _ _ => intro ks hks; cases hks
  | plainClass hk | subclass hk | function hk | unset hk | set hk | forLoop hk | ifThen hk
  | ifElse hk | whileLoop hk | print hk | assertEqual hk | assert hk | ret hk | block hk
  | body hk | lastName hk | name hk | noInitializer hk | this hk | super hk | identifier hk
  | group hk | assign hk =>
      intro ks hks
      cases hks
      exact ⟨_, _, rfl, by rw [hk]; decide⟩
  | literal ht _ =>
      intro ks hks
      cases hks
      exact ⟨_, _, rfl, List.mem_append_right _ ht⟩
  | signed hop _ _ =>
      intro ks hks
      cases hks
      refine ⟨_, _, rfl, ?_⟩
      unfold unaryOp? at hop
      split at hop
      next hk => rw [hk]; decide
      next hk => rw [hk]; decide
      next => cases hop
  | loosest _ ih | tighter _ ih | operand _ ih | primary _ ih | lastExpression _ ih =>
      intro ks hks
      cases hks
      exact ih rfl
  | unsigned _ ih | newVariable _ ih | initVariable _ ih | statement _ ih =>
      intro ks hks
      cases hks
      obtain ⟨t, us, rfl, ht⟩ := ih rfl
      refine ⟨t, us, rfl, ?_⟩
      first
        | exact List.mem_append_right _ ht
        | rw [List.mem_singleton.mp ht]; decide
  | expr _ _ ih | initExpr _ _ ih =>
      intro ks hks
      cases hks
      obtain ⟨t, us, rfl, ht⟩ := ih rfl
      exact ⟨t, _, rfl, List.mem_append_right _ ht⟩
  | setProperty _ _ _ _ _ ih _ =>
      intro ks hks
      cases hks
      obtain ⟨t, us, rfl, ht⟩ := ih rfl
      exact ⟨t, _, rfl, List.mem_append_right _ ht⟩
  | binary _ _ _ _ ih _ | call _ _ _ _ ih _ | property _ _ _ ih | expressions _ _ _ ih _ =>
      intro ks hks
      cases hks
      obtain ⟨t, us, rfl, ht⟩ := ih rfl
      exact ⟨t, _, rfl, ht⟩

/-! ## What completeness says of each phrase -/

/-- No call or property access goes on at the head of the tokens. -/
def NoSuffix (eof : Token) (ts : List Token) : Prop :=
  (ts.headD eof).kind ≠ .leftParen ∧ (ts.headD eof).kind ≠ .dot

/-- The token at the head is one of those that end an expression. -/
def ExprEnd (eof : Token) (ts : List Token) : Prop :=
  (ts.headD eof).kind ∈ [Kind.semicolon, .rightParen, .comma, .rightBrace]

/-- A simple expression and its suffixes. -/
def chain (steps : Nat) : Parser Expr := do
  let e ← primary (expression steps)
  suffixes (expression steps) (steps + 1) e

/-- The tokens `ts`, with suitable ones behind, are accepted as `φ`.  For operands of
binary operators and for calls, whose readings are left-recursive, whatever is
accepted after the phrase is accepted with it. -/
def Complete (eof : Token) (bag : Bag) : Phrase → Nat → List Token → Nat → Prop
  | .declarations body, n, ts, m => ∀ rest k s before, (ts ++ rest).length < k →
      (ts ++ rest).length < s → BlockEnd eof rest →
      Accepts eof bag (declarations (declaration k) s before) n (ts ++ rest)
        (before.reverse ++ body) m rest
  | .declaration s, n, ts, m => ∀ rest k, (ts ++ rest).length < k →
      (rest.headD eof).kind ≠ .keyword .elseWord →
      Accepts eof bag (declaration k) n (ts ++ rest) (some s) m rest
  | .variable s, n, ts, m => ∃ kw us, ts = kw :: us ∧ kw.kind = .keyword .varWord ∧
      ∀ rest k, (ts ++ rest).length < k →
      Accepts eof bag (variableRest (expression k) kw.range) n (us ++ rest) s m rest
  | .function kind start f, n, ts, m => ∀ rest k s, (ts ++ rest).length < k →
      (ts ++ rest).length ≤ s →
      Accepts eof bag (functionRest (declaration k) s kind start) n (ts ++ rest) f m rest
  | .methods fs, n, ts, m => ∀ rest k s before, (ts ++ rest).length < k →
      (ts ++ rest).length < s → BlockEnd eof rest →
      Accepts eof bag (methods (declaration k) s before) n (ts ++ rest)
        (before.reverse ++ fs) m rest
  | .parameters ps, n, ts, m => ∀ rest s, (ts ++ rest).length < s →
      (rest.headD eof).kind = .rightParen →
      AcceptsList eof bag (parameters s []) .rightParen n (ts ++ rest) ps m rest
  | .names ps, n, ts, m => ∀ rest s before, (ts ++ rest).length < s →
      (rest.headD eof).kind = .rightParen →
      Accepts eof bag (parameters s before) n (ts ++ rest) (before.reverse ++ ps) m rest
  | .statement d s, n, ts, m => ∀ rest k, (ts ++ rest).length < k →
      (d = true → (rest.headD eof).kind ≠ .keyword .elseWord) →
      Accepts eof bag (statement k) n (ts ++ rest) s m rest
  | .initializer init, n, ts, m => ∀ rest k, (ts ++ rest).length < k →
      Accepts eof bag (forInit (expression k)) n (ts ++ rest) init m rest
  | .optional e, n, ts, m => ∀ rest k stop, (ts ++ rest).length < k →
      (rest.headD eof).kind = stop → stop ∈ [Kind.semicolon, .rightParen] →
      AcceptsOptional eof bag (expression k) stop n (ts ++ rest) e m rest
  | .expression e, n, ts, m => ∀ rest k, (ts ++ rest).length < k → ExprEnd eof rest →
      Accepts eof bag (expression k) n (ts ++ rest) e m rest
  | .level j e, n, ts, m => ∀ rest k s level x m' us, (ts ++ rest).length ≤ k →
      (ts ++ rest).length < s → level ≤ j → NoSuffix eof rest →
      ¬ OperatorAhead eof rest (j + 1) →
      (∀ s, rest.length < s → Accepts eof bag
        (extend (operand (expression k) (k + 1)) s level e) m rest x m' us) →
      Accepts eof bag (climb (operand (expression k) (k + 1)) s level) n (ts ++ rest) x m' us
  | .unary e, n, ts, m => ∀ rest k s, (ts ++ rest).length ≤ k → (ts ++ rest).length < s →
      NoSuffix eof rest → Accepts eof bag (unary (chain k) s) n (ts ++ rest) e m rest
  | .call e, n, ts, m => ∀ rest k x m' us, (ts ++ rest).length ≤ k →
      (∀ s, rest.length < s → Accepts eof bag (suffixes (expression k) s e) m rest x m' us) →
      Accepts eof bag (chain k) n (ts ++ rest) x m' us
  | .primary e, n, ts, m => ∀ rest k, (ts ++ rest).length ≤ k →
      Accepts eof bag (primary (expression k)) n (ts ++ rest) e m rest
  | .arguments es, n, ts, m => ∀ rest k s, (ts ++ rest).length < k →
      (ts ++ rest).length < s → (rest.headD eof).kind = .rightParen →
      AcceptsList eof bag (arguments (expression k) s []) .rightParen n (ts ++ rest) es m rest
  | .expressions es, n, ts, m => ∀ rest k s before, (ts ++ rest).length < k →
      (ts ++ rest).length < s → (rest.headD eof).kind = .rightParen →
      Accepts eof bag (arguments (expression k) s before) n (ts ++ rest)
        (before.reverse ++ es) m rest

variable {eof : Token} {bag : Bag} {n m k : Nat} {ts us : List Token}

/-! ## Simple expressions -/

theorem exprEnd_kinds : ∀ kind ∈ [Kind.semicolon, .rightParen, .comma, .rightBrace],
    kind ≠ .leftParen ∧ kind ≠ .dot ∧ kind ≠ .equal ∧ Operator.ofKind? kind = none := by
  decide

theorem ExprEnd.noSuffix (h : ExprEnd eof ts) : NoSuffix eof ts := by
  obtain ⟨hparen, hdot, _, _⟩ := exprEnd_kinds _ h
  exact ⟨hparen, hdot⟩

theorem ExprEnd.ne_equal (h : ExprEnd eof ts) : (ts.headD eof).kind ≠ .equal :=
  (exprEnd_kinds _ h).2.2.1

theorem ExprEnd.not_operatorAhead (h : ExprEnd eof ts) (level : Nat) :
    ¬ OperatorAhead eof ts level := by
  rintro ⟨op, hop, _⟩
  rw [(exprEnd_kinds _ h).2.2.2] at hop
  cases hop

theorem exprEnd_cons {t : Token} (h : t.kind ∈ [Kind.semicolon, .rightParen, .comma, .rightBrace]) :
    ExprEnd eof (t :: ts) := h

theorem complete_literal {t : Token} (ht : t.kind ∈ literals) (hlegible : t.Legible) :
    Complete eof bag (.primary (.literal (literalOf t) t.range)) n [t] n := by
  intro rest k _
  exact (accepts_primary_literal ht).mpr ⟨hlegible, rfl, rfl, rfl⟩

theorem complete_this {t : Token} (ht : t.kind = .keyword .thisWord) :
    Complete eof bag (.primary (.this (n + 1) t.range)) n [t] (n + 1) := by
  intro rest k _
  exact (accepts_primary_this ht).mpr ⟨rfl, rfl, rfl⟩

theorem complete_super (heof : eof.kind = .eof) {t dot name : Token}
    (ht : t.kind = .keyword .superWord) (hdot : dot.kind = .dot)
    (hname : name.kind = .identifier) :
    Complete eof bag (.primary (.super (n + 1) (n + 2) t.range (nameOf name)
      (t.range.join name.range))) n [t, dot, name] (n + 2) := by
  intro rest k _
  exact (accepts_primary_super heof ht).mpr ⟨dot, name, hdot, hname, rfl, rfl, rfl⟩

theorem complete_identifier {t : Token} (ht : t.kind = .identifier) :
    Complete eof bag (.primary (.var (n + 1) (nameOf t))) n [t] (n + 1) := by
  intro rest k _
  exact (accepts_primary_identifier ht).mpr ⟨rfl, rfl, rfl⟩

theorem complete_group (heof : eof.kind = .eof) {e : Expr} {left right : Token}
    (hleft : left.kind = .leftParen) (h : Complete eof bag (.expression e) n ts m)
    (hright : right.kind = .rightParen) :
    Complete eof bag (.primary (.group e (left.range.join right.range))) n
      (left :: (ts ++ [right])) m := by
  intro rest k hk
  simp only [List.cons_append, List.append_assoc, List.nil_append] at hk ⊢
  have hinner := h (right :: rest) k hk (exprEnd_cons (by simp [hright]))
  exact (accepts_primary_group heof (orderly_expression k) hleft).mpr
    ⟨e, right, hinner, hright, rfl⟩

theorem accepts_chain {e : Expr} :
    Accepts eof bag (chain k) n ts e m us ↔
      ∃ e' j vs, Accepts eof bag (primary (expression k)) n ts e' j vs ∧
        Accepts eof bag (suffixes (expression k) (k + 1) e') j vs e m us :=
  accepts_bind (orderly_primary (orderly_expression k)) fun e =>
    orderly_suffixes (orderly_expression k) (k + 1) e

theorem orderly_chain (k : Nat) : Orderly (chain k) :=
  (orderly_primary (orderly_expression k)).bind fun e =>
    orderly_suffixes (orderly_expression k) (k + 1) e

theorem complete_primary {e : Expr} (h : Complete eof bag (.primary e) n ts m) :
    Complete eof bag (.call e) n ts m := by
  intro rest k x m' us hk hmore
  simp only [List.length_append] at hk
  exact accepts_chain.mpr ⟨e, m, rest, h rest k (by simpa using hk), hmore (k + 1) (by omega)⟩

/-! ## Calls and property accesses -/

theorem complete_lastExpression (heof : eof.kind = .eof) {e : Expr}
    (h : Complete eof bag (.expression e) n ts m) :
    Complete eof bag (.expressions [e]) n ts m := by
  intro rest k s before hk hs hright
  obtain ⟨s, rfl⟩ : ∃ s', s = s' + 1 := Nat.exists_eq_succ_of_ne_zero (by omega)
  have he := h rest k hk (by rw [ExprEnd, hright]; decide)
  refine (accepts_arguments heof (orderly_expression k) s before).mpr
    ⟨e, m, rest, he, Or.inr ⟨by rw [hright]; decide, by simp, rfl, rfl⟩⟩

theorem complete_expressions (heof : eof.kind = .eof) {e : Expr} {es : List Expr} {j : Nat}
    {comma : Token} (h : Complete eof bag (.expression e) n ts j) (hc : comma.kind = .comma)
    (hes : Complete eof bag (.expressions es) j us m) :
    Complete eof bag (.expressions (e :: es)) n (ts ++ comma :: us) m := by
  intro rest k s before hk hs hright
  obtain ⟨s, rfl⟩ : ∃ s', s = s' + 1 := Nat.exists_eq_succ_of_ne_zero (by omega)
  simp only [List.append_assoc, List.cons_append, List.length_append, List.length_cons]
    at hk hs ⊢
  have he := h (comma :: (us ++ rest)) k (by simp; omega) (exprEnd_cons (by simp [hc]))
  have hmore := hes rest k s (e :: before) (by simp; omega) (by simp; omega) hright
  refine (accepts_arguments heof (orderly_expression k) s before).mpr
    ⟨e, j, _, he, Or.inl ⟨comma, us ++ rest, hc, rfl, ?_⟩⟩
  simpa using hmore

theorem complete_noArgument : Complete eof bag (.arguments []) n [] n :=
  fun _ _ _ _ _ hright => Or.inl ⟨hright, rfl, rfl, rfl⟩

theorem head_ne_of_starts {t : Token} {kind : Kind} {ks : List Kind} (ht : t.kind ∈ ks)
    (hkind : kind ∉ ks) : t.kind ≠ kind :=
  fun h => hkind (h ▸ ht)

theorem complete_arguments {es : List Expr} (hread : Reads (.expressions es) n ts m)
    (h : Complete eof bag (.expressions es) n ts m) :
    Complete eof bag (.arguments es) n ts m := by
  intro rest k s hk hs hright
  obtain ⟨t, vs, rfl, ht⟩ := hread.starts rfl
  refine Or.inr ⟨head_ne_of_starts ht (by decide), ?_⟩
  simpa using h rest k s [] hk hs hright

theorem complete_call (heof : eof.kind = .eof) {e : Expr} {es : List Expr} {j : Nat}
    {left right : Token} (h : Complete eof bag (.call e) n ts j)
    (hleft : left.kind = .leftParen) (hes : Complete eof bag (.arguments es) j us m)
    (hright : right.kind = .rightParen) :
    Complete eof bag (.call (.call e es (e.span.join right.range))) n
      (ts ++ left :: (us ++ [right])) m := by
  intro rest k x m' ws hk hmore
  simp only [List.append_assoc, List.cons_append, List.nil_append] at hk ⊢
  refine h _ k x m' ws hk ?_
  intro s hs
  obtain ⟨s, rfl⟩ : ∃ s', s = s' + 1 := Nat.exists_eq_succ_of_ne_zero (by omega)
  simp only [List.length_append, List.length_cons] at hk hs
  have hargs := hes (right :: rest) k s (by simp; omega) (by simp; omega) hright
  exact (accepts_suffixes_call heof (orderly_expression k) hleft).mpr
    ⟨es, m, right, rest, hargs, hright, hmore s (by omega)⟩

theorem complete_property (heof : eof.kind = .eof) {e : Expr} {dot name : Token}
    (h : Complete eof bag (.call e) n ts m) (hdot : dot.kind = .dot)
    (hname : name.kind = .identifier) :
    Complete eof bag (.call (.get e (nameOf name) (e.span.join name.range))) n
      (ts ++ [dot, name]) m := by
  intro rest k x m' ws hk hmore
  simp only [List.append_assoc, List.cons_append, List.nil_append] at hk ⊢
  refine h _ k x m' ws hk ?_
  intro s hs
  obtain ⟨s, rfl⟩ : ∃ s', s = s' + 1 := Nat.exists_eq_succ_of_ne_zero (by omega)
  simp only [List.length_cons] at hs
  exact (accepts_suffixes_property heof (orderly_expression k) hdot).mpr
    ⟨name, rest, hname, rfl, hmore s (by omega)⟩

/-! ## Operators -/

theorem unaryOp?_simpleStarts : ∀ kind ∈ simpleStarts, unaryOp? kind = none := by
  decide

theorem complete_unsigned {e : Expr} (hread : Reads (.call e) n ts m)
    (h : Complete eof bag (.call e) n ts m) : Complete eof bag (.unary e) n ts m := by
  intro rest k s hk hs hrest
  obtain ⟨s, rfl⟩ : ∃ s', s = s' + 1 := Nat.exists_eq_succ_of_ne_zero (by omega)
  obtain ⟨t, vs, rfl, ht⟩ := hread.starts rfl
  have hop : unaryOp? ((t :: vs ++ rest).headD eof).kind = none := unaryOp?_simpleStarts _ ht
  refine (accepts_unary_stop hop).mpr ?_
  refine h rest k e m rest hk ?_
  intro s hs
  obtain ⟨s, rfl⟩ : ∃ s', s = s' + 1 := Nat.exists_eq_succ_of_ne_zero (by omega)
  exact (accepts_suffixes_stop hrest.1 hrest.2).mpr ⟨rfl, rfl, rfl⟩

theorem complete_signed {e : Expr} {op : UnaryOp} {t : Token}
    (hop : unaryOp? t.kind = some op) (h : Complete eof bag (.unary e) n ts m) :
    Complete eof bag (.unary (.unary op e (t.range.join e.span))) n (t :: ts) m := by
  intro rest k s hk hs hrest
  obtain ⟨s, rfl⟩ : ∃ s', s = s' + 1 := Nat.exists_eq_succ_of_ne_zero (by omega)
  simp only [List.cons_append, List.length_cons] at hk hs ⊢
  exact (accepts_unary_operator (orderly_chain k) hop).mpr
    ⟨e, h rest k s (by omega) (by omega) hrest, rfl⟩

theorem complete_operand {e : Expr} (hread : Reads (.unary e) n ts m)
    (h : Complete eof bag (.unary e) n ts m) : Complete eof bag (.level 7 e) n ts m := by
  intro rest k s level x m' us hk hs _ hrest _ hmore
  obtain ⟨s, rfl⟩ : ∃ s', s = s' + 1 := Nat.exists_eq_succ_of_ne_zero (by omega)
  have hne : 0 < ts.length := by
    obtain ⟨t, vs, rfl, _⟩ := hread.starts rfl
    exact Nat.succ_pos _
  have hunary := h rest k (k + 1) hk (by omega) hrest
  simp only [List.length_append] at hs
  exact (accepts_climb (orderly_operand (orderly_expression k) (k + 1)) s level).mpr
    ⟨e, m, rest, hunary, hmore s (by omega)⟩

theorem complete_tighter {e : Expr} {j : Nat} (h : Complete eof bag (.level (j + 1) e) n ts m) :
    Complete eof bag (.level j e) n ts m := by
  intro rest k s level x m' us hk hs hlevel hrest hahead hmore
  refine h rest k s level x m' us hk hs (by omega) hrest ?_ hmore
  rintro ⟨op, hop, hle⟩
  exact hahead ⟨op, hop, by omega⟩

theorem Complete.lower {e : Expr} {i j : Nat} (h : Complete eof bag (.level j e) n ts m)
    (hij : i ≤ j) : Complete eof bag (.level i e) n ts m := by
  induction j with
  | zero =>
      obtain rfl : i = 0 := Nat.le_zero.mp hij
      exact h
  | succ j ih =>
      rcases Nat.le_succ_iff.mp hij with hle | rfl
      · exact ih (complete_tighter h) hle
      · exact h

theorem level_of_mem_operators {t : Kind} {op : Operator} {j : Nat} (hj : t ∈ operators j)
    (h : Operator.ofKind? t = some op) : op.level = j := by
  unfold operators at hj
  split at hj <;> simp only [List.mem_cons, List.not_mem_nil, or_false] at hj <;>
    rcases hj with rfl | rfl | rfl | rfl <;> cases h <;> rfl

theorem complete_binary {l r : Expr} {op : Operator} {i j : Nat} {t : Token}
    (hl : Complete eof bag (.level j l) n ts i) (ht : t.kind ∈ operators j)
    (hop : Operator.ofKind? t.kind = some op)
    (hr : Complete eof bag (.level (j + 1) r) i us m) :
    Complete eof bag (.level j (op.node l r)) n (ts ++ t :: us) m := by
  intro rest k s level x m' vs hk hs hlevel hrest hahead hmore
  have hopj := level_of_mem_operators ht hop
  simp only [List.append_assoc, List.cons_append] at hk hs ⊢
  have hsuffix : NoSuffix eof (t :: (us ++ rest)) := by
    constructor <;> intro heq <;> rw [List.headD_cons] at heq <;> rw [heq] at hop <;> cases hop
  have hstop : ¬ OperatorAhead eof (t :: (us ++ rest)) (j + 1) := by
    rintro ⟨op', hop', hle⟩
    rw [List.headD_cons, hop] at hop'
    cases hop'
    omega
  refine hl _ k s level x m' vs hk hs hlevel hsuffix hstop ?_
  intro s hs
  obtain ⟨s, rfl⟩ : ∃ s', s = s' + 1 := Nat.exists_eq_succ_of_ne_zero (by omega)
  simp only [List.length_append, List.length_cons] at hk hs
  have ho := orderly_operand (orderly_expression k) (k + 1)
  refine (accepts_extend_operator ho hop (by omega)).mpr
    ⟨r, m, rest, ?_, hmore s (by omega)⟩
  rw [hopj]
  have htight : ¬ OperatorAhead eof rest (j + 1 + 1) := by
    rintro ⟨op', hop', hle⟩
    exact hahead ⟨op', hop', by omega⟩
  refine hr rest k s (j + 1) r m rest (by simp; omega) (by simp; omega) (Nat.le_refl _) hrest
    htight ?_
  intro s hs
  obtain ⟨s, rfl⟩ : ∃ s', s = s' + 1 := Nat.exists_eq_succ_of_ne_zero (by omega)
  exact (accepts_extend_stop hahead).mpr ⟨rfl, rfl, rfl⟩

/-! ## Assignments -/

/-- What is read at the loosest level is accepted if no operator follows. -/
theorem accepts_loosest {e : Expr} (h : Complete eof bag (.level 1 e) n ts m)
    {rest : List Token} (hk : (ts ++ rest).length ≤ k) (hrest : NoSuffix eof rest)
    (hahead : ∀ level, ¬ OperatorAhead eof rest level) :
    Accepts eof bag (climb (operand (expression k) (k + 1)) (k + 1) 1) n (ts ++ rest) e m
      rest := by
  refine h rest k (k + 1) 1 e m rest hk (by omega) (Nat.le_refl _) hrest (hahead _) ?_
  intro s hs
  obtain ⟨s, rfl⟩ : ∃ s', s = s' + 1 := Nat.exists_eq_succ_of_ne_zero (by omega)
  exact (accepts_extend_stop (hahead _)).mpr ⟨rfl, rfl, rfl⟩

theorem complete_loosest (heof : eof.kind = .eof) {e : Expr}
    (h : Complete eof bag (.level 1 e) n ts m) : Complete eof bag (.expression e) n ts m := by
  intro rest k hk hrest
  obtain ⟨k, rfl⟩ : ∃ k', k = k' + 1 := Nat.exists_eq_succ_of_ne_zero (by omega)
  have hclimb := accepts_loosest h (Nat.le_of_lt_succ hk) hrest.noSuffix hrest.not_operatorAhead
  exact (accepts_expression heof k).mpr
    ⟨e, m, rest, hclimb, Or.inl ⟨hrest.ne_equal, rfl, rfl, rfl⟩⟩

/-- A call in front of an equals sign is accepted as a target. -/
theorem accepts_target {e : Expr} (hread : Reads (.call e) n ts m)
    (h : Complete eof bag (.call e) n ts m) {equals : Token} (heq : equals.kind = .equal)
    (rest : List Token) (hk : (ts ++ equals :: rest).length ≤ k) :
    Accepts eof bag (climb (operand (expression k) (k + 1)) (k + 1) 1) n
      (ts ++ equals :: rest) e m (equals :: rest) := by
  have hunary := complete_unsigned hread h
  have hlevel := (complete_operand hread.unsigned hunary).lower (show 1 ≤ 7 by decide)
  refine accepts_loosest hlevel hk ⟨?_, ?_⟩ ?_
  · rw [List.headD_cons, heq]
    decide
  · rw [List.headD_cons, heq]
    decide
  · rintro level ⟨op, hop, _⟩
    rw [List.headD_cons, heq] at hop
    cases hop

theorem complete_assign (heof : eof.kind = .eof) {e : Expr} {name equals : Token}
    (hname : name.kind = .identifier) (heq : equals.kind = .equal)
    (h : Complete eof bag (.expression e) (n + 1) ts m) :
    Complete eof bag (.expression (.assign (m + 1) (nameOf name) e (name.range.join e.span))) n
      (name :: equals :: ts) (m + 1) := by
  intro rest k hk hrest
  obtain ⟨k, rfl⟩ : ∃ k', k = k' + 1 := Nat.exists_eq_succ_of_ne_zero (by omega)
  simp only [List.cons_append, List.length_cons] at hk ⊢
  have hvar : Complete eof bag (.call (.var (n + 1) (nameOf name))) n [name] (n + 1) :=
    complete_primary (complete_identifier hname)
  have htarget := accepts_target (k := k) (Reads.identifier hname).primary hvar heq (ts ++ rest)
    (by simp only [List.length_append, List.length_cons, List.length_nil] at hk ⊢; omega)
  have hvalue := h rest k (by omega) hrest
  exact (accepts_expression heof k).mpr ⟨_, _, _, htarget, Or.inr ⟨equals, ts ++ rest, e, m,
    rest, rfl, heq, hvalue, accepts_assignTo.mpr ⟨rfl, Or.inl ⟨_, _, rfl, rfl, rfl⟩⟩⟩⟩

theorem complete_setProperty (heof : eof.kind = .eof) {o e : Expr} {j : Nat}
    {dot name equals : Token} (hread : Reads (.call o) n ts j)
    (ho : Complete eof bag (.call o) n ts j) (hdot : dot.kind = .dot)
    (hname : name.kind = .identifier) (heq : equals.kind = .equal)
    (h : Complete eof bag (.expression e) j us m) :
    Complete eof bag (.expression (.set o (nameOf name) e
      ((o.span.join name.range).join e.span))) n (ts ++ dot :: name :: equals :: us) m := by
  intro rest k hk hrest
  obtain ⟨k, rfl⟩ : ∃ k', k = k' + 1 := Nat.exists_eq_succ_of_ne_zero (by omega)
  simp only [List.append_assoc, List.cons_append, List.length_append, List.length_cons] at hk ⊢
  have htarget := accepts_target (k := k) (hread.property hdot hname)
    (complete_property heof ho hdot hname) heq (us ++ rest) (by simp; omega)
  simp only [List.append_assoc, List.cons_append, List.nil_append] at htarget
  have hvalue := h rest k (by simp; omega) hrest
  exact (accepts_expression heof k).mpr ⟨_, _, _, htarget, Or.inr ⟨equals, us ++ rest, e, m,
    rest, rfl, heq, hvalue,
    accepts_assignTo.mpr ⟨rfl, Or.inr ⟨o, nameOf name, _, rfl, rfl, rfl⟩⟩⟩⟩

/-! ## Statements -/

theorem complete_absent : Complete eof bag (.optional none) n [] n :=
  fun _ _ _ _ hstop _ => Or.inl ⟨hstop, rfl, rfl, rfl⟩

theorem complete_present {e : Expr} (hread : Reads (.expression e) n ts m)
    (h : Complete eof bag (.expression e) n ts m) :
    Complete eof bag (.optional (some e)) n ts m := by
  intro rest k stop hk hrest hstop
  have hend : ExprEnd eof rest := by
    rw [ExprEnd, hrest]
    simp only [List.mem_cons, List.not_mem_nil, or_false] at hstop ⊢
    rcases hstop with rfl | rfl <;> simp
  obtain ⟨t, vs, rfl, ht⟩ := hread.starts rfl
  refine Or.inr ⟨head_ne_of_starts ht ?_, e, rfl, h rest k hk hend⟩
  simp only [List.mem_cons, List.not_mem_nil, or_false] at hstop
  rcases hstop with rfl | rfl <;> decide

theorem complete_unset (heof : eof.kind = .eof) {kw name semi : Token}
    (hkw : kw.kind = .keyword .varWord) (hname : name.kind = .identifier)
    (hsemi : semi.kind = .semicolon) :
    Complete eof bag (.variable (.var (nameOf name) none (kw.range.join semi.range))) n
      [kw, name, semi] n :=
  ⟨kw, [name, semi], rfl, hkw, fun _ k _ => (accepts_variableRest heof
    (orderly_expression k)).mpr ⟨name, semi, hname, hsemi, Or.inl ⟨rfl, rfl, rfl⟩⟩⟩

theorem complete_set (heof : eof.kind = .eof) {e : Expr} {kw name equals semi : Token}
    (hkw : kw.kind = .keyword .varWord) (hname : name.kind = .identifier)
    (heq : equals.kind = .equal) (h : Complete eof bag (.expression e) n ts m)
    (hsemi : semi.kind = .semicolon) :
    Complete eof bag (.variable (.var (nameOf name) (some e) (kw.range.join semi.range))) n
      (kw :: name :: equals :: (ts ++ [semi])) m := by
  refine ⟨kw, name :: equals :: (ts ++ [semi]), rfl, hkw, ?_⟩
  intro rest k hk
  simp only [List.cons_append, List.append_assoc, List.nil_append, List.length_cons] at hk ⊢
  have he := h (semi :: rest) k (by omega) (exprEnd_cons (by simp [hsemi]))
  exact (accepts_variableRest heof (orderly_expression k)).mpr
    ⟨name, semi, hname, hsemi, Or.inr ⟨equals, _, e, rfl, heq, he, rfl⟩⟩

/-- A statement after its first token. -/
theorem accepts_statement_rest {k : Nat} {t : Token} {s : Stmt} {p : Range → Parser Stmt}
    (hp : statementRest (declaration k) (statement k) (k + 1) t.kind = some p)
    (h : Accepts eof bag (p t.range) n ts s m us) :
    Accepts eof bag (statement (k + 1)) n (t :: ts) s m us := by
  rw [statement]
  exact (accepts_statementWith_rest hp).mpr h

/-- A statement of an expression and a semicolon, after its first token. -/
theorem complete_closed (heof : eof.kind = .eof) (make : Expr → Token → Stmt)
    (wanted : Bytes) {e : Expr} {semi : Token} (h : Complete eof bag (.expression e) n ts m)
    (hsemi : semi.kind = .semicolon) {rest : List Token}
    (hk : (ts ++ semi :: rest).length < k) :
    Accepts eof bag (do
      let e ← expression k
      let close ← expect .semicolon wanted
      return make e close) n (ts ++ semi :: rest) (make e semi) m rest := by
  have he := h (semi :: rest) k hk (exprEnd_cons (by simp [hsemi]))
  exact (accepts_closed heof (orderly_expression k)).mpr ⟨e, semi, he, hsemi, rfl⟩

theorem complete_print (heof : eof.kind = .eof) {e : Expr} {kw semi : Token}
    (hkw : kw.kind = .keyword .printWord) (h : Complete eof bag (.expression e) n ts m)
    (hsemi : semi.kind = .semicolon) :
    Complete eof bag (.statement false (.print e (kw.range.join semi.range))) n
      (kw :: (ts ++ [semi])) m := by
  intro rest k hk _
  obtain ⟨k, rfl⟩ : ∃ k', k = k' + 1 := Nat.exists_eq_succ_of_ne_zero (by omega)
  simp only [List.cons_append, List.append_assoc, List.nil_append, List.length_cons] at hk ⊢
  have hlen : (ts ++ semi :: rest).length < k + 1 := by omega
  exact accepts_statement_rest (by rw [hkw]; rfl) (complete_closed heof _ _ h hsemi hlen)

theorem complete_assertion (heof : eof.kind = .eof) {e : Expr} {kw semi : Token}
    (hkw : kw.kind = .keyword .assertWord) (h : Complete eof bag (.expression e) n ts m)
    (hsemi : semi.kind = .semicolon) :
    Complete eof bag (.statement false (assertion e (kw.range.join semi.range))) n
      (kw :: (ts ++ [semi])) m := by
  intro rest k hk _
  obtain ⟨k, rfl⟩ : ∃ k', k = k' + 1 := Nat.exists_eq_succ_of_ne_zero (by omega)
  simp only [List.cons_append, List.append_assoc, List.nil_append, List.length_cons] at hk ⊢
  have hlen : (ts ++ semi :: rest).length < k + 1 := by omega
  exact accepts_statement_rest (by rw [hkw]; rfl) (complete_closed heof _ _ h hsemi hlen)

theorem complete_ret (heof : eof.kind = .eof) {e : Option Expr} {kw semi : Token}
    (hkw : kw.kind = .keyword .returnWord) (h : Complete eof bag (.optional e) n ts m)
    (hsemi : semi.kind = .semicolon) :
    Complete eof bag (.statement false (.ret kw.range e (kw.range.join semi.range))) n
      (kw :: (ts ++ [semi])) m := by
  intro rest k hk _
  obtain ⟨k, rfl⟩ : ∃ k', k = k' + 1 := Nat.exists_eq_succ_of_ne_zero (by omega)
  simp only [List.cons_append, List.append_assoc, List.nil_append, List.length_cons] at hk ⊢
  have he := h (semi :: rest) (k + 1) .semicolon (by omega) hsemi (by decide)
  exact accepts_statement_rest (by rw [hkw]; rfl)
    ((accepts_returnRest heof (orderly_expression (k + 1))).mpr ⟨e, semi, he, hsemi, rfl⟩)

theorem complete_block (heof : eof.kind = .eof) {body : List Stmt} {left right : Token}
    (hleft : left.kind = .leftBrace) (h : Complete eof bag (.declarations body) n ts m)
    (hright : right.kind = .rightBrace) :
    Complete eof bag (.statement false (.block body (left.range.join right.range))) n
      (left :: (ts ++ [right])) m := by
  intro rest k hk _
  obtain ⟨k, rfl⟩ : ∃ k', k = k' + 1 := Nat.exists_eq_succ_of_ne_zero (by omega)
  simp only [List.cons_append, List.append_assoc, List.nil_append, List.length_cons] at hk ⊢
  have hbody := h (right :: rest) k (k + 1) [] (by omega) (by omega) (Or.inl hright)
  exact accepts_statement_rest (by rw [hleft]; rfl)
    ((accepts_block (orderly_statement_declaration k).2 heof).mpr
      ⟨body, right, hbody, hright, rfl⟩)

theorem statementRest_exprStarts {decl : Parser (Option Stmt)} {stmt : Parser Stmt} {k : Nat}
    {kind : Kind} (h : kind ∈ exprStarts) : statementRest decl stmt k kind = none := by
  simp only [exprStarts, simpleStarts, literals, List.cons_append, List.nil_append,
    List.mem_cons, List.not_mem_nil, or_false] at h
  rcases h with rfl | rfl | rfl | rfl | rfl | rfl | rfl | rfl | rfl | rfl | rfl <;> rfl

theorem complete_expr (heof : eof.kind = .eof) {e : Expr} {semi : Token}
    (hread : Reads (.expression e) n ts m) (h : Complete eof bag (.expression e) n ts m)
    (hsemi : semi.kind = .semicolon) :
    Complete eof bag (.statement false (.expr e (e.span.join semi.range))) n (ts ++ [semi])
      m := by
  intro rest k hk _
  obtain ⟨k, rfl⟩ : ∃ k', k = k' + 1 := Nat.exists_eq_succ_of_ne_zero (by omega)
  simp only [List.append_assoc, List.cons_append, List.nil_append] at hk ⊢
  have hclosed := complete_closed heof (fun e semi => .expr e (e.span.join semi.range))
    (utf8 "';' after expression") h hsemi hk
  obtain ⟨t, vs, rfl, ht⟩ := hread.starts rfl
  have hrest : statementRest (declaration k) (statement k) (k + 1)
      ((t :: vs ++ semi :: rest).headD eof).kind = none := statementRest_exprStarts ht
  rw [statement]
  exact (accepts_statementWith_expr hrest).mpr hclosed

theorem complete_condition (heof : eof.kind = .eof) {c : Expr} {left right : Token}
    (hleft : left.kind = .leftParen) (h : Complete eof bag (.expression c) n ts m)
    (hright : right.kind = .rightParen) {rest : List Token}
    (hk : (ts ++ right :: rest).length < k) :
    Accepts eof bag (condition (expression k)) n (left :: (ts ++ right :: rest)) c m rest := by
  have hc := h (right :: rest) k hk (exprEnd_cons (by simp [hright]))
  exact (accepts_condition heof (orderly_expression k)).mpr
    ⟨left, _, right, hleft, rfl, hc, hright⟩

theorem complete_ifThen (heof : eof.kind = .eof) {c : Expr} {a : Stmt} {d : Bool} {j : Nat}
    {kw left right : Token} (hkw : kw.kind = .keyword .ifWord)
    (hleft : left.kind = .leftParen) (hc : Complete eof bag (.expression c) n ts j)
    (hright : right.kind = .rightParen) (ha : Complete eof bag (.statement d a) j us m) :
    Complete eof bag (.statement true (.cond c a none (kw.range.join a.span))) n
      (kw :: left :: (ts ++ right :: us)) m := by
  intro rest k hk hels
  obtain ⟨k, rfl⟩ : ∃ k', k = k' + 1 := Nat.exists_eq_succ_of_ne_zero (by omega)
  simp only [List.cons_append, List.append_assoc, List.length_cons] at hk ⊢
  have hlen : (ts ++ right :: (us ++ rest)).length < k + 1 := by omega
  have htest := complete_condition heof hleft hc hright hlen
  have hthen := ha rest k (by simp at hk ⊢; omega) fun _ => hels rfl
  exact accepts_statement_rest (by rw [hkw]; rfl)
    ((accepts_ifRest heof (orderly_expression (k + 1)) (orderly_statement_declaration k).1).mpr
      ⟨c, j, _, a, m, rest, htest, hthen, Or.inl ⟨hels rfl, rfl, rfl, rfl⟩⟩)

theorem complete_ifElse (heof : eof.kind = .eof) {c : Expr} {a b : Stmt} {d : Bool}
    {i j : Nat} {ws : List Token} {kw left right els : Token}
    (hkw : kw.kind = .keyword .ifWord) (hleft : left.kind = .leftParen)
    (hc : Complete eof bag (.expression c) n ts i) (hright : right.kind = .rightParen)
    (ha : Complete eof bag (.statement false a) i us j)
    (hels : els.kind = .keyword .elseWord) (hb : Complete eof bag (.statement d b) j ws m) :
    Complete eof bag (.statement d (.cond c a (some b) (kw.range.join b.span))) n
      (kw :: left :: (ts ++ right :: (us ++ els :: ws))) m := by
  intro rest k hk hnext
  obtain ⟨k, rfl⟩ : ∃ k', k = k' + 1 := Nat.exists_eq_succ_of_ne_zero (by omega)
  simp only [List.cons_append, List.append_assoc, List.length_cons] at hk ⊢
  have hlen : (ts ++ right :: (us ++ els :: (ws ++ rest))).length < k + 1 := by omega
  have htest := complete_condition heof hleft hc hright hlen
  have hthen := ha (els :: (ws ++ rest)) k (by simp at hk ⊢; omega) (by simp)
  have helse := hb rest k (by simp at hk ⊢; omega) hnext
  exact accepts_statement_rest (by rw [hkw]; rfl)
    ((accepts_ifRest heof (orderly_expression (k + 1)) (orderly_statement_declaration k).1).mpr
      ⟨c, i, _, a, j, _, htest, hthen, Or.inr ⟨els, _, b, rfl, hels, helse, rfl⟩⟩)

theorem complete_whileLoop (heof : eof.kind = .eof) {c : Expr} {s : Stmt} {d : Bool} {j : Nat}
    {kw left right : Token} (hkw : kw.kind = .keyword .whileWord)
    (hleft : left.kind = .leftParen) (hc : Complete eof bag (.expression c) n ts j)
    (hright : right.kind = .rightParen) (hs : Complete eof bag (.statement d s) j us m) :
    Complete eof bag (.statement d (.loop c s (kw.range.join s.span))) n
      (kw :: left :: (ts ++ right :: us)) m := by
  intro rest k hk hnext
  obtain ⟨k, rfl⟩ : ∃ k', k = k' + 1 := Nat.exists_eq_succ_of_ne_zero (by omega)
  simp only [List.cons_append, List.append_assoc, List.length_cons] at hk ⊢
  have hlen : (ts ++ right :: (us ++ rest)).length < k + 1 := by omega
  have htest := complete_condition heof hleft hc hright hlen
  have hbody := hs rest k (by simp at hk ⊢; omega) hnext
  exact accepts_statement_rest (by rw [hkw]; rfl)
    ((accepts_whileRest (orderly_expression (k + 1)) (orderly_statement_declaration k).1).mpr
      ⟨c, j, _, s, htest, hbody, rfl⟩)

theorem complete_noInitializer {semi : Token} (hsemi : semi.kind = .semicolon) :
    Complete eof bag (.initializer none) n [semi] n :=
  fun _ _ _ => (accepts_forInit_none hsemi).mpr ⟨rfl, rfl, rfl⟩

theorem complete_initVariable {s : Stmt} (h : Complete eof bag (.variable s) n ts m) :
    Complete eof bag (.initializer (some s)) n ts m := by
  intro rest k hk
  obtain ⟨kw, us, rfl, hkw, hs⟩ := h
  exact (accepts_forInit_variable (orderly_expression k) hkw).mpr ⟨s, hs rest k hk, rfl⟩

theorem complete_initExpr (heof : eof.kind = .eof) {e : Expr} {semi : Token}
    (hread : Reads (.expression e) n ts m) (h : Complete eof bag (.expression e) n ts m)
    (hsemi : semi.kind = .semicolon) :
    Complete eof bag (.initializer (some (.expr e (e.span.join semi.range)))) n (ts ++ [semi])
      m := by
  intro rest k hk
  simp only [List.append_assoc, List.cons_append, List.nil_append] at hk ⊢
  have he := h (semi :: rest) k hk (exprEnd_cons (by simp [hsemi]))
  obtain ⟨t, vs, rfl, ht⟩ := hread.starts rfl
  exact (accepts_forInit_expr heof (orderly_expression k) (head_ne_of_starts ht (by decide))
    (head_ne_of_starts ht (by decide))).mpr ⟨e, semi, he, hsemi, rfl⟩

theorem complete_forLoop (heof : eof.kind = .eof) {init : Option Stmt} {test step : Option Expr}
    {s : Stmt} {d : Bool} {i j l : Nat} {is cs ss bs : List Token}
    {kw left semi right : Token} (hkw : kw.kind = .keyword .forWord)
    (hleft : left.kind = .leftParen) (hinit : Complete eof bag (.initializer init) n is i)
    (htest : Complete eof bag (.optional test) i cs j) (hsemi : semi.kind = .semicolon)
    (hstep : Complete eof bag (.optional step) j ss l) (hright : right.kind = .rightParen)
    (hs : Complete eof bag (.statement d s) l bs m) :
    Complete eof bag (.statement d (forLoop init
      (test.getD (.literal (.bool true) semi.range)) step s (kw.range.join s.span))) n
      (kw :: left :: (is ++ (cs ++ semi :: (ss ++ right :: bs)))) m := by
  intro rest k hk hnext
  obtain ⟨k, rfl⟩ : ∃ k', k = k' + 1 := Nat.exists_eq_succ_of_ne_zero (by omega)
  simp only [List.cons_append, List.append_assoc, List.length_cons, List.length_append]
    at hk ⊢
  have h₁ := hinit (cs ++ semi :: (ss ++ right :: (bs ++ rest))) (k + 1) (by simp; omega)
  have h₂ := htest (semi :: (ss ++ right :: (bs ++ rest))) (k + 1) .semicolon (by simp; omega)
    hsemi (by decide)
  have h₃ := hstep (right :: (bs ++ rest)) (k + 1) .rightParen (by simp; omega) hright
    (by decide)
  have h₄ := hs rest k (by simp; omega) hnext
  exact accepts_statement_rest (by rw [hkw]; rfl)
    ((accepts_forRest heof (orderly_expression (k + 1)) (orderly_statement_declaration k).1).mpr
      ⟨left, _, init, i, _, test, j, semi, _, step, l, right, _, s, hleft, rfl, h₁, h₂, hsemi,
        h₃, hright, h₄, rfl⟩)

/-! ## Declarations -/

theorem declarationRest_stmtStarts {decl : Parser (Option Stmt)} {k : Nat} {kind : Kind}
    (h : kind ∈ stmtStarts) : declarationRest decl k kind = none := by
  unfold declarationRest
  split
  · exact absurd h (by decide)
  · exact absurd h (by decide)
  · exact absurd h (by decide)
  · rfl

theorem accepts_declaration_rest {k : Nat} {t : Token} {s : Stmt} {p : Range → Parser Stmt}
    (hp : declarationRest (declaration k) (k + 1) t.kind = some p)
    (h : Accepts eof bag (p t.range) n ts s m us) :
    Accepts eof bag (declaration (k + 1)) n (t :: ts) (some s) m us :=
  (accepts_declaration k).mpr ⟨s, rfl, (accepts_declarationWith_rest hp).mpr h⟩

theorem complete_statement {s : Stmt} {d : Bool} (hread : Reads (.statement d s) n ts m)
    (h : Complete eof bag (.statement d s) n ts m) :
    Complete eof bag (.declaration s) n ts m := by
  intro rest k hk hels
  obtain ⟨k, rfl⟩ : ∃ k', k = k' + 1 := Nat.exists_eq_succ_of_ne_zero (by omega)
  have hs := h rest (k + 1) hk fun _ => hels
  obtain ⟨t, vs, rfl, ht⟩ := hread.starts rfl
  have hrest : declarationRest (declaration k) (k + 1)
      ((t :: vs ++ rest).headD eof).kind = none := declarationRest_stmtStarts ht
  rw [statement] at hs
  exact (accepts_declaration k).mpr
    ⟨s, rfl, (accepts_declarationWith_statement hrest).mpr hs⟩

theorem complete_newVariable {s : Stmt} (h : Complete eof bag (.variable s) n ts m) :
    Complete eof bag (.declaration s) n ts m := by
  intro rest k hk _
  obtain ⟨k, rfl⟩ : ∃ k', k = k' + 1 := Nat.exists_eq_succ_of_ne_zero (by omega)
  obtain ⟨kw, us, rfl, hkw, hs⟩ := h
  exact accepts_declaration_rest (by rw [hkw]; rfl) (hs rest (k + 1) hk)

theorem complete_lastName (heof : eof.kind = .eof) {name : Token}
    (hname : name.kind = .identifier) :
    Complete eof bag (.names [nameOf name]) n [name] n := by
  intro rest s before hs hright
  obtain ⟨s, rfl⟩ : ∃ s', s = s' + 1 := Nat.exists_eq_succ_of_ne_zero (by omega)
  exact (accepts_parameters heof s).mpr
    ⟨name, rest, hname, rfl, Or.inr ⟨by rw [hright]; decide, by simp, rfl, rfl⟩⟩

theorem complete_name (heof : eof.kind = .eof) {name comma : Token} {ps : List Name}
    (hname : name.kind = .identifier) (hcomma : comma.kind = .comma)
    (h : Complete eof bag (.names ps) n ts m) :
    Complete eof bag (.names (nameOf name :: ps)) n (name :: comma :: ts) m := by
  intro rest s before hs hright
  obtain ⟨s, rfl⟩ : ∃ s', s = s' + 1 := Nat.exists_eq_succ_of_ne_zero (by omega)
  simp only [List.cons_append, List.length_cons] at hs ⊢
  have hmore := h rest s (nameOf name :: before) (by omega) hright
  refine (accepts_parameters heof s).mpr
    ⟨name, _, hname, rfl, Or.inl ⟨comma, ts ++ rest, hcomma, rfl, ?_⟩⟩
  simpa using hmore

theorem complete_noParameter : Complete eof bag (.parameters []) n [] n :=
  fun _ _ _ hright => Or.inl ⟨hright, rfl, rfl, rfl⟩

theorem complete_parameters {ps : List Name} (hread : Reads (.names ps) n ts m)
    (h : Complete eof bag (.names ps) n ts m) : Complete eof bag (.parameters ps) n ts m := by
  intro rest s hs hright
  obtain ⟨t, vs, rfl, ht⟩ := hread.starts rfl
  refine Or.inr ⟨head_ne_of_starts ht (by decide), ?_⟩
  simpa using h rest s [] hs hright

theorem complete_body (heof : eof.kind = .eof) {kind : FunctionKind} {start : Range} {j : Nat}
    {ps : List Name} {ss : List Stmt} {name left right brace close : Token}
    (hname : name.kind = .identifier) (hleft : left.kind = .leftParen)
    (hps : Complete eof bag (.parameters ps) n ts j) (hright : right.kind = .rightParen)
    (hbrace : brace.kind = .leftBrace) (hss : Complete eof bag (.declarations ss) j us m)
    (hclose : close.kind = .rightBrace) :
    Complete eof bag (.function kind start (.mk (declaredKind kind (nameOf name)) (nameOf name)
      ps ss (start.join close.range))) n
      (name :: left :: (ts ++ right :: brace :: (us ++ [close]))) m := by
  intro rest k s hk hs
  simp only [List.cons_append, List.append_assoc, List.nil_append, List.length_cons,
    List.length_append] at hk hs ⊢
  have h₁ := hps (right :: brace :: (us ++ close :: rest)) s (by simp; omega) hright
  have h₂ := hss (close :: rest) k s [] (by simp; omega) (by simp; omega) (Or.inl hclose)
  exact (accepts_functionRest heof (orderly_statement_declaration k).2).mpr
    ⟨name, left, _, ps, j, right, brace, _, ss, close, hname, hleft, rfl, h₁, hright, hbrace,
      h₂, hclose, rfl⟩

theorem complete_function {f : Function} {kw : Token} (hkw : kw.kind = .keyword .funWord)
    (h : Complete eof bag (.function .function kw.range f) n ts m) :
    Complete eof bag (.declaration (.function f)) n (kw :: ts) m := by
  intro rest k hk _
  obtain ⟨k, rfl⟩ : ∃ k', k = k' + 1 := Nat.exists_eq_succ_of_ne_zero (by omega)
  simp only [List.cons_append, List.length_cons] at hk ⊢
  have hf := h rest k (k + 1) (by omega) (by omega)
  exact accepts_declaration_rest (by rw [hkw]; rfl)
    ((accepts_function (orderly_statement_declaration k).2).mpr ⟨f, hf, rfl⟩)

theorem complete_noMethod : Complete eof bag (.methods []) n [] n := by
  intro rest k s before _ hs hend
  obtain ⟨s, rfl⟩ : ∃ s', s = s' + 1 := Nat.exists_eq_succ_of_ne_zero (by omega)
  exact (accepts_methods_stop hend).mpr ⟨by simp, rfl, rfl⟩

theorem not_blockEnd {t : Token} {ks : List Kind} (ht : t.kind ∈ ks)
    (hbrace : Kind.rightBrace ∉ ks) (hend : Kind.eof ∉ ks) : ¬ BlockEnd eof (t :: ts) := by
  rintro (h | h)
  · exact head_ne_of_starts ht hbrace h
  · exact head_ne_of_starts ht hend h

theorem complete_methods {f : Function} {fs : List Function} {j : Nat} {first : Token}
    (hfirst : ts.head? = some first) (hread : Reads (.function .method first.range f) n ts j)
    (h : Complete eof bag (.function .method first.range f) n ts j)
    (hfs : Complete eof bag (.methods fs) j us m) :
    Complete eof bag (.methods (f :: fs)) n (ts ++ us) m := by
  intro rest k s before hk hs hend
  obtain ⟨s, rfl⟩ : ∃ s', s = s' + 1 := Nat.exists_eq_succ_of_ne_zero (by omega)
  obtain ⟨t, vs, rfl, ht⟩ := hread.starts rfl
  cases hfirst
  simp only [List.append_assoc, List.cons_append, List.length_cons, List.length_append]
    at hk hs ⊢
  have hf := h (us ++ rest) k s (by simp; omega) (by simp; omega)
  have hmore := hfs rest k s (f :: before) (by simp; omega) (by simp; omega) hend
  refine (accepts_methods (orderly_statement_declaration k).2
    (not_blockEnd ht (by decide) (by decide))).mpr ⟨f, j, us ++ rest, hf, ?_⟩
  simpa using hmore

theorem complete_class (heof : eof.kind = .eof) (ws : List Token) {parent : Option Superclass}
    {fs : List Function} {j : Nat} {kw name brace close : Token}
    (hkw : kw.kind = .keyword .classWord) (hname : name.kind = .identifier)
    (hparent : ∀ rest, Accepts eof bag superclass? n (ws ++ brace :: rest) parent j
      (brace :: rest))
    (hbrace : brace.kind = .leftBrace) (h : Complete eof bag (.methods fs) j ts m)
    (hclose : close.kind = .rightBrace) :
    Complete eof bag (.declaration (.classDecl (nameOf name) parent fs
      (kw.range.join close.range))) n (kw :: name :: (ws ++ brace :: (ts ++ [close]))) m := by
  intro rest k hk _
  obtain ⟨k, rfl⟩ : ∃ k', k = k' + 1 := Nat.exists_eq_succ_of_ne_zero (by omega)
  simp only [List.cons_append, List.append_assoc, List.nil_append, List.length_cons,
    List.length_append] at hk ⊢
  have hfs := h (close :: rest) k (k + 1) [] (by simp; omega) (by simp; omega) (Or.inl hclose)
  exact accepts_declaration_rest (by rw [hkw]; rfl)
    ((accepts_classRest heof (orderly_statement_declaration k).2).mpr
      ⟨name, _, parent, j, brace, _, fs, close, hname, rfl, hparent _, hbrace, hfs, hclose,
        rfl⟩)

theorem complete_plainClass (heof : eof.kind = .eof) {fs : List Function}
    {kw name brace close : Token} (hkw : kw.kind = .keyword .classWord)
    (hname : name.kind = .identifier) (hbrace : brace.kind = .leftBrace)
    (h : Complete eof bag (.methods fs) n ts m) (hclose : close.kind = .rightBrace) :
    Complete eof bag (.declaration (.classDecl (nameOf name) none fs
      (kw.range.join close.range))) n (kw :: name :: brace :: (ts ++ [close])) m := by
  refine complete_class heof [] hkw hname (fun rest => ?_) hbrace h hclose
  have hless : ((brace :: rest).headD eof).kind ≠ .less := by
    rw [List.headD_cons, hbrace]
    decide
  exact (accepts_superclass? heof).mpr (Or.inl ⟨hless, rfl, rfl, rfl⟩)

theorem complete_subclass (heof : eof.kind = .eof) {fs : List Function}
    {kw name less parent brace close : Token} (hkw : kw.kind = .keyword .classWord)
    (hname : name.kind = .identifier) (hless : less.kind = .less)
    (hparent : parent.kind = .identifier) (hbrace : brace.kind = .leftBrace)
    (h : Complete eof bag (.methods fs) (n + 1) ts m) (hclose : close.kind = .rightBrace) :
    Complete eof bag (.declaration (.classDecl (nameOf name) (some ⟨n + 1, nameOf parent⟩) fs
      (kw.range.join close.range))) n
      (kw :: name :: less :: parent :: brace :: (ts ++ [close])) m :=
  complete_class heof [less, parent] hkw hname (fun _ => (accepts_superclass? heof).mpr
    (Or.inr ⟨less, parent, hless, hparent, rfl, rfl, rfl⟩)) hbrace h hclose

theorem complete_noDeclaration : Complete eof bag (.declarations []) n [] n := by
  intro rest k s before _ hs hend
  obtain ⟨s, rfl⟩ : ∃ s', s = s' + 1 := Nat.exists_eq_succ_of_ne_zero (by omega)
  exact (accepts_declarations_stop hend).mpr ⟨by simp, rfl, rfl⟩

/-- What can follow in a block does not go on with an unfinished `if`. -/
theorem declarations_head_ne_else {body : List Stmt} {rest : List Token}
    (hread : Reads (.declarations body) n ts m)
    (hrest : (rest.headD eof).kind ≠ .keyword .elseWord) :
    ((ts ++ rest).headD eof).kind ≠ .keyword .elseWord := by
  cases hread with
  | noDeclaration => exact hrest
  | declarations h _ =>
      obtain ⟨t, vs, rfl, ht⟩ := h.starts rfl
      exact head_ne_of_starts ht (by decide)

theorem complete_declarations {s : Stmt} {body : List Stmt} {j : Nat}
    (hread : Reads (.declaration s) n ts j) (h : Complete eof bag (.declaration s) n ts j)
    (hreads : Reads (.declarations body) j us m)
    (hbody : Complete eof bag (.declarations body) j us m) :
    Complete eof bag (.declarations (s :: body)) n (ts ++ us) m := by
  intro rest k l before hk hl hend
  obtain ⟨l, rfl⟩ : ∃ l', l = l' + 1 := Nat.exists_eq_succ_of_ne_zero (by omega)
  obtain ⟨t, vs, rfl, ht⟩ := hread.starts rfl
  simp only [List.append_assoc, List.cons_append, List.length_cons, List.length_append]
    at hk hl ⊢
  have hels : (rest.headD eof).kind ≠ .keyword .elseWord := by
    rcases hend with hend | hend <;> rw [hend] <;> decide
  have hs := h (us ++ rest) k (by simp; omega) (declarations_head_ne_else hreads hels)
  have hmore := hbody rest k l (s :: before) (by simp; omega) (by simp; omega) hend
  refine (accepts_declarations (orderly_statement_declaration k).2
    (not_blockEnd ht (by decide) (by decide))).mpr ⟨some s, j, us ++ rest, hs, ?_⟩
  simpa using hmore

/-! ## All phrases -/

theorem complete_of_reads (heof : eof.kind = .eof) {φ : Phrase} (h : Reads φ n ts m) :
    Complete eof bag φ n ts m := by
  induction h with
  | noDeclaration => exact complete_noDeclaration
  | declarations h hs ih ihs => exact complete_declarations h ih hs ihs
  | plainClass hkw hname hl _ hr ih => exact complete_plainClass heof hkw hname hl ih hr
  | subclass hkw hname hless hp hl _ hr ih =>
      exact complete_subclass heof hkw hname hless hp hl ih hr
  | function hkw _ ih => exact complete_function hkw ih
  | newVariable _ ih => exact complete_newVariable ih
  | statement h ih => exact complete_statement h ih
  | unset hkw hname hsemi => exact complete_unset heof hkw hname hsemi
  | set hkw hname heq _ hsemi ih => exact complete_set heof hkw hname heq ih hsemi
  | body hname ho _ hc hl _ hr ihp ihs => exact complete_body heof hname ho ihp hc hl ihs hr
  | noMethod => exact complete_noMethod
  | methods hf h _ ih ihs => exact complete_methods hf h ih ihs
  | noParameter => exact complete_noParameter
  | parameters h ih => exact complete_parameters h ih
  | lastName hname => exact complete_lastName heof hname
  | name hname hc _ ih => exact complete_name heof hname hc ih
  | forLoop hkw hl _ _ hsemi _ hr _ ihi ihc ihs ihb =>
      exact complete_forLoop heof hkw hl ihi ihc hsemi ihs hr ihb
  | ifThen hkw hl _ hr _ ihc iha => exact complete_ifThen heof hkw hl ihc hr iha
  | ifElse hkw hl _ hr _ hels _ ihc iha ihb =>
      exact complete_ifElse heof hkw hl ihc hr iha hels ihb
  | whileLoop hkw hl _ hr _ ihc ihb => exact complete_whileLoop heof hkw hl ihc hr ihb
  | print hkw _ hsemi ih => exact complete_print heof hkw ih hsemi
  | assertEqual hkw _ hsemi ih => exact complete_assertion heof hkw ih hsemi
  | @assert n m e ts kw semi hkw _ hne hsemi ih =>
      have h := complete_assertion heof hkw ih hsemi
      unfold assertion at h
      split at h
      · exact absurd rfl (hne _ _ _)
      · exact h
  | ret hkw _ hsemi ih => exact complete_ret heof hkw ih hsemi
  | block hl _ hr ih => exact complete_block heof hl ih hr
  | expr h hsemi ih => exact complete_expr heof h ih hsemi
  | noInitializer hsemi => exact complete_noInitializer hsemi
  | initVariable _ ih => exact complete_initVariable ih
  | initExpr h hsemi ih => exact complete_initExpr heof h ih hsemi
  | absent => exact complete_absent
  | present h ih => exact complete_present h ih
  | assign hname heq _ ih => exact complete_assign heof hname heq ih
  | setProperty h hdot hname heq _ iho ih =>
      exact complete_setProperty heof h iho hdot hname heq ih
  | loosest _ ih => exact complete_loosest heof ih
  | binary _ ht hop _ ihl ihr => exact complete_binary ihl ht hop ihr
  | tighter _ ih => exact complete_tighter ih
  | operand h ih => exact complete_operand h ih
  | signed hop _ ih => exact complete_signed hop ih
  | unsigned h ih => exact complete_unsigned h ih
  | call _ hl _ hr ih iha => exact complete_call heof ih hl iha hr
  | property _ hdot hname ih => exact complete_property heof ih hdot hname
  | primary _ ih => exact complete_primary ih
  | literal ht hlegible => exact complete_literal ht hlegible
  | this ht => exact complete_this ht
  | super ht hdot hname => exact complete_super heof ht hdot hname
  | identifier ht => exact complete_identifier ht
  | group hl _ hr ih => exact complete_group heof hl ih hr
  | noArgument => exact complete_noArgument
  | arguments h ih => exact complete_arguments h ih
  | lastExpression _ ih => exact complete_lastExpression heof ih
  | expressions _ hc _ ih ihs => exact complete_expressions heof ih hc ihs

/-- Declarations up to the end of the tokens are accepted as a whole. -/
theorem accepts_topLevel_of_reads (heof : eof.kind = .eof) {body : List Stmt} {s : Nat}
    (before : List Stmt) (hread : Reads (.declarations body) n ts m) (hk : ts.length < k)
    (hs : ts.length < s) :
    Accepts eof bag (topLevel (declaration k) s before) n ts (before.reverse ++ body) m [] := by
  have hend : (([] : List Token).headD eof).kind = .eof := heof
  obtain ⟨s, rfl⟩ : ∃ s', s = s' + 1 := Nat.exists_eq_succ_of_ne_zero (by omega)
  induction body generalizing n ts s before with
  | nil =>
      cases hread
      exact (accepts_topLevel_stop hend).mpr ⟨by simp, rfl, rfl⟩
  | cons stmt body ih =>
      cases hread with
      | @declarations _ j _ _ _ ts us hfirst hmore =>
          have hels : ((us ++ []).headD eof).kind ≠ .keyword .elseWord :=
            declarations_head_ne_else hmore (by rw [hend]; decide)
          rw [List.append_nil] at hels
          have hstmt : Accepts eof bag (declaration k) n (ts ++ us) (some stmt) j us :=
            complete_of_reads heof hfirst us k hk hels
          obtain ⟨t, vs, rfl, ht⟩ := hfirst.starts rfl
          simp only [List.cons_append, List.length_cons, List.length_append] at hk hs
          obtain ⟨s, rfl⟩ : ∃ s', s = s' + 1 := Nat.exists_eq_succ_of_ne_zero (by omega)
          have hrest := ih (stmt :: before) hmore (by omega) s (by omega)
          refine (accepts_topLevel (orderly_statement_declaration k).2
            (head_ne_of_starts ht (by decide))).mpr ⟨some stmt, j, us, hstmt, ?_⟩
          simpa using hrest

end LoxMachine.Grammar
