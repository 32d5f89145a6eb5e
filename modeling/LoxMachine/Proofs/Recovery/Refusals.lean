import LoxMachine.Proofs.Recovery.Detours

/-!
# Statements without their last semicolon

If the semicolon that ends a statement is missing in front of a brace, the parser gives up
at that brace with one complaint, however deep the statement is.  Recovery then passes the
brace as well.
-/

namespace LoxMachine.Parser

open LoxMachine.Grammar

/-! ## Giving up at a token -/

/-- On the tokens `ts`, the parser gives up at their later token `t`, after one complaint
about it. -/
def Refuses {α : Type} (eof : Token) (bag : Bag) (t : Token) (rest : List Token) (p : Parser α)
    (n : Nat) (ts : List Token) : Prop :=
  ∃ (m : Nat) (complaint : Complaint), p ⟨ts, eof, n, bag⟩ =
    .stuck ⟨t :: rest, eof, m, bag.error t.range complaint.message⟩

section Refusing

variable {α β : Type} {eof t : Token} {bag : Bag} {rest ts us : List Token} {n m k : Nat}

theorem Refuses.bind {p : Parser α} (h : Refuses eof bag t rest p n ts) (f : α → Parser β) :
    Refuses eof bag t rest (p >>= f) n ts := by
  obtain ⟨m, complaint, h⟩ := h
  refine ⟨m, complaint, ?_⟩
  rw [bind_apply, h]

/-- A parser that accepts what is in front leaves it to the next to give up. -/
theorem refuses_after {p : Parser α} {f : α → Parser β} {a : α}
    (hp : Accepts eof bag p n ts a m us) (h : Refuses eof bag t rest (f a) m us) :
    Refuses eof bag t rest (p >>= f) n ts := by
  obtain ⟨l, complaint, h⟩ := h
  refine ⟨l, complaint, ?_⟩
  unfold Accepts at hp
  rw [bind_apply, hp]
  exact h

theorem refuses_peek_bind {f : Token → Parser β} (h : Refuses eof bag t rest (f t) n (t :: rest)) :
    Refuses eof bag t rest (peek >>= f) n (t :: rest) :=
  refuses_after (accepts_peek.mpr ⟨rfl, rfl, rfl⟩) h

theorem refuses_refuse (complaint : Complaint) :
    Refuses eof bag t rest (do complain t.range complaint; giveUp : Parser α) n (t :: rest) :=
  ⟨n, complaint, rfl⟩

theorem refuses_optional {expr : Parser Expr} {f : Option Expr → Parser β} {stop : Kind}
    {e : Option Expr} (hp : AcceptsOptional eof bag expr stop n ts e m us)
    (h : Refuses eof bag t rest (f e) m us) :
    Refuses eof bag t rest
      (do
        let absent ← isAt stop
        if absent = true then (do let e ← pure none; f e)
          else do let e ← expr; let e ← pure (some e); f e) n ts := by
  obtain ⟨hp, rfl, rfl, rfl⟩ | ⟨hp, e, rfl, he⟩ := hp
  · exact refuses_after (accepts_isAt.mpr ⟨(decide_eq_true hp).symm, rfl, rfl⟩) h
  · exact refuses_after (accepts_isAt.mpr ⟨(decide_eq_false hp).symm, rfl, rfl⟩)
      (refuses_after he h)

/-- The parser gives up in an expression that could be left out. -/
theorem refuses_present {expr : Parser Expr} {f : Option Expr → Parser β} {stop : Kind}
    (hstop : (ts.headD eof).kind ≠ stop) (h : Refuses eof bag t rest expr n ts) :
    Refuses eof bag t rest
      (do
        let absent ← isAt stop
        if absent = true then (do let e ← pure none; f e)
          else do let e ← expr; let e ← pure (some e); f e) n ts :=
  refuses_after (accepts_isAt.mpr ⟨(decide_eq_false hstop).symm, rfl, rfl⟩) (h.bind _)

theorem refuses_expect {kind : Kind} (ht : t.kind ≠ kind) (wanted : Bytes) :
    Refuses eof bag t rest (expect kind wanted) n (t :: rest) := by
  refine refuses_peek_bind ?_
  rw [if_neg ht]
  exact refuses_refuse _

/-- No expression starts with such a token. -/
theorem refuses_expression (ht : t.kind ∉ exprStarts) (k : Nat) :
    Refuses eof bag t rest (expression (k + 1)) n (t :: rest) := by
  have hprimary : Refuses eof bag t rest (primary (expression k)) n (t :: rest) := by
    refine refuses_peek_bind ?_
    split
    case h_10 => exact refuses_refuse _
    all_goals
      next hkind => exact absurd (by rw [hkind]; decide) ht
  have hunary : Refuses eof bag t rest (operand (expression k) (k + 1)) n (t :: rest) := by
    refine refuses_peek_bind ?_
    split
    next => exact hprimary.bind _
    next op hop =>
      unfold unaryOp? at hop
      split at hop
      next hkind => exact absurd (by rw [hkind]; decide) ht
      next hkind => exact absurd (by rw [hkind]; decide) ht
      next => cases hop
  have hclimb : Refuses eof bag t rest (climb (operand (expression k) (k + 1)) (k + 1) 1) n
      (t :: rest) := by
    rw [climb]
    exact hunary.bind _
  rw [expression]
  exact hclimb.bind _

theorem Refuses.recovering {p : Parser α} (h : Refuses eof bag t rest p n ts)
    (ht : t.kind ≠ .eof) :
    ∃ (m : Nat) (complaint : Complaint), recovering p ⟨ts, eof, n, bag⟩ =
      .ok none ⟨resume t.kind rest, eof, m, bag.error t.range complaint.message⟩ := by
  obtain ⟨m, complaint, h⟩ := h
  refine ⟨m, complaint, ?_⟩
  unfold Parser.recovering
  rw [h]
  simp only [synchronize, if_neg ht]

/-- An expression whose semicolon is missing. -/
theorem refuses_closed {expr : Parser Expr} {e : Expr} (hsemi : t.kind ≠ .semicolon)
    (he : Accepts eof bag expr n ts e m (t :: rest)) (wanted : Bytes)
    (make : Expr → Token → Stmt) :
    Refuses eof bag t rest (do
      let e ← expr
      let close ← expect .semicolon wanted
      return make e close) n ts :=
  refuses_after he ((refuses_expect hsemi wanted).bind _)

end Refusing

end LoxMachine.Parser

namespace LoxMachine.Grammar

open LoxMachine.Parser

/-! ## The missing semicolon -/

/-- The tokens `D`, in front of the brace `t`, lack the semicolon at the end of the phrase. -/
def Lacks (eof : Token) (bag : Bag) (t : Token) (rest : List Token) :
    Phrase → Nat → List Token → Prop
  | .declaration _, n, D => ∀ k, (D ++ t :: rest).length < k →
      ∃ (m : Nat) (complaint : Complaint), declaration k ⟨D ++ t :: rest, eof, n, bag⟩ =
        .ok none ⟨resume t.kind rest, eof, m, bag.error t.range complaint.message⟩
  | .variable _, n, D => ∃ kw us, D = kw :: us ∧ kw.kind = .keyword .varWord ∧
      ∀ k, (D ++ t :: rest).length < k →
        Refuses eof bag t rest (variableRest (expression k) kw.range) n (us ++ t :: rest)
  | .statement _ _, n, D => ∀ k, (D ++ t :: rest).length < k →
      Refuses eof bag t rest (statement k) n (D ++ t :: rest)
  | .function _ _ _, _, _ => False
  | _, _, _ => True

section Lacking

variable {eof t semi : Token} {bag : Bag} {rest ts us D : List Token} {n m k : Nat}

/-- Where a list ends, its last part does, unless it is empty. -/
theorem eq_concat_of_append {H T : List Token} (h : H ++ T = D ++ [semi]) (hT : T ≠ []) :
    ∃ D', T = D' ++ [semi] ∧ D = H ++ D' := by
  obtain ⟨T', x, rfl⟩ := (List.eq_nil_or_concat T).resolve_left hT
  rw [List.concat_eq_append, ← List.append_assoc] at h
  obtain ⟨hD, hx⟩ := List.append_inj' h rfl
  exact ⟨T', by rw [List.concat_eq_append, hx], hD.symm⟩

theorem refuses_statement_rest {kw : Token} {p : Range → Parser Stmt}
    (hp : statementRest (declaration k) (statement k) (k + 1) kw.kind = some p)
    (h : Refuses eof bag t rest (p kw.range) n ts) :
    Refuses eof bag t rest (statement (k + 1)) n (kw :: ts) := by
  obtain ⟨m, complaint, h⟩ := h
  exact ⟨m, complaint, (statement_rest hp).trans h⟩

variable (hbrace : t.kind = .rightBrace)

include hbrace

/-- A word, an expression and the missing semicolon. -/
theorem lacks_closed (heof : eof.kind = .eof) {d : Bool} {s : Stmt} {e : Expr} {kw : Token}
    {make : Range → Expr → Token → Stmt} {wanted : Bytes}
    (hrest : ∀ k, statementRest (declaration k) (statement k) (k + 1) kw.kind =
      some fun start => do
        let e ← expression (k + 1)
        let close ← expect .semicolon wanted
        return make start e close)
    (he : Reads (.expression e) n ts m) :
    Lacks eof bag t rest (.statement d s) n (kw :: ts) := by
  intro k hk
  obtain ⟨k, rfl⟩ := Nat.exists_eq_succ_of_ne_zero (Nat.ne_zero_of_lt hk)
  rw [List.cons_append, List.length_cons] at hk
  have hexpr : Accepts eof bag (expression (k + 1)) n (ts ++ t :: rest) e m (t :: rest) :=
    complete_of_reads heof he (t :: rest) (k + 1) (by omega) (exprEnd_cons (by simp [hbrace]))
  exact refuses_statement_rest (hrest k)
    (refuses_closed (by rw [hbrace]; decide) hexpr wanted (make kw.range))

theorem lacks_expr (heof : eof.kind = .eof) {d : Bool} {s : Stmt} {e : Expr}
    (he : Reads (.expression e) n ts m) : Lacks eof bag t rest (.statement d s) n ts := by
  intro k hk
  obtain ⟨k, rfl⟩ := Nat.exists_eq_succ_of_ne_zero (Nat.ne_zero_of_lt hk)
  have hexpr : Accepts eof bag (expression (k + 1)) n (ts ++ t :: rest) e m (t :: rest) :=
    complete_of_reads heof he (t :: rest) (k + 1) hk (exprEnd_cons (by simp [hbrace]))
  obtain ⟨l, complaint, h⟩ := refuses_closed (by rw [hbrace]; decide) hexpr
    (utf8 "';' after expression") fun e close => .expr e (e.span.join close.range)
  refine ⟨l, complaint, ?_⟩
  obtain ⟨first, vs, rfl, hfirst⟩ := he.starts rfl
  rw [statement, statementWith_eq, bind_apply]
  simp only [peek, List.cons_append, List.headD_cons, statementRest_exprStarts hfirst]
  exact h

theorem lacks_ret (heof : eof.kind = .eof) {d : Bool} {s : Stmt} {e : Option Expr}
    {kw : Token} (hkw : kw.kind = .keyword .returnWord) (he : Reads (.optional e) n ts m) :
    Lacks eof bag t rest (.statement d s) n (kw :: ts) := by
  intro k hk
  obtain ⟨k, rfl⟩ := Nat.exists_eq_succ_of_ne_zero (Nat.ne_zero_of_lt hk)
  rw [List.cons_append, List.length_cons] at hk
  refine refuses_statement_rest (by rw [hkw]; rfl) ?_
  cases he with
  | absent =>
      have hstop : t.kind ≠ .semicolon := by rw [hbrace]; decide
      exact refuses_present hstop (refuses_expression (by rw [hbrace]; decide) k)
  | present he =>
      have hexpr : Accepts eof bag (expression (k + 1)) n (ts ++ t :: rest) _ m (t :: rest) :=
        complete_of_reads heof he (t :: rest) (k + 1) (by omega)
          (exprEnd_cons (by simp [hbrace]))
      obtain ⟨first, vs, rfl, hfirst⟩ := he.starts rfl
      have hsome : AcceptsOptional eof bag (expression (k + 1)) .semicolon n
          (first :: vs ++ t :: rest) (some _) m (t :: rest) :=
        Or.inr ⟨head_ne_of_starts hfirst (by decide), _, rfl, hexpr⟩
      exact refuses_optional hsome ((refuses_expect (by rw [hbrace]; decide) _).bind _)

theorem lacks_unset (heof : eof.kind = .eof) {s : Stmt} {kw name : Token}
    (hkw : kw.kind = .keyword .varWord) (hname : name.kind = .identifier) :
    Lacks eof bag t rest (.variable s) n [kw, name] := by
  refine ⟨kw, [name], rfl, hkw, fun k _ => ?_⟩
  have hequal : t.kind ≠ .equal := by rw [hbrace]; decide
  refine refuses_after ((accepts_expectName heof).mpr ⟨rfl, name, hname, rfl, rfl⟩) ?_
  refine refuses_after
    ((accepts_accept? heof (by decide)).mpr ⟨rfl, Or.inr ⟨rfl, hequal, rfl⟩⟩) ?_
  exact (refuses_expect (by rw [hbrace]; decide) _).bind _

theorem lacks_set (heof : eof.kind = .eof) {s : Stmt} {e : Expr} {kw name equals : Token}
    (hkw : kw.kind = .keyword .varWord) (hname : name.kind = .identifier)
    (hequals : equals.kind = .equal) (he : Reads (.expression e) n ts m) :
    Lacks eof bag t rest (.variable s) n (kw :: name :: equals :: ts) := by
  refine ⟨kw, name :: equals :: ts, rfl, hkw, fun k hk => ?_⟩
  simp only [List.cons_append, List.length_cons] at hk ⊢
  have hexpr : Accepts eof bag (expression k) n (ts ++ t :: rest) e m (t :: rest) :=
    complete_of_reads heof he (t :: rest) k (by omega) (exprEnd_cons (by simp [hbrace]))
  refine refuses_after ((accepts_expectName heof).mpr ⟨rfl, name, hname, rfl, rfl⟩) ?_
  refine refuses_after
    ((accepts_accept? heof (by decide)).mpr ⟨rfl, Or.inl ⟨equals, rfl, hequals, rfl⟩⟩) ?_
  exact refuses_after hexpr ((refuses_expect (by rw [hbrace]; decide) _).bind _)

omit hbrace

/-! ## Statements that end with another -/

/-- A word, a condition, and a statement that lacks its semicolon. -/
theorem lacks_guarded (heof : eof.kind = .eof) {c : Expr} {a s : Stmt} {d d' : Bool}
    {kw left right : Token} {f : Nat → Range → Expr → Stmt → Parser Stmt}
    (hrest : ∀ k, statementRest (declaration k) (statement k) (k + 1) kw.kind =
      some fun start => do
        let test ← condition (expression (k + 1))
        let a ← statement k
        f k start test a)
    (hleft : left.kind = .leftParen) (hc : Reads (.expression c) n ts m)
    (hright : right.kind = .rightParen) (ha : Lacks eof bag t rest (.statement d a) m us) :
    Lacks eof bag t rest (.statement d' s) n (kw :: left :: (ts ++ right :: us)) := by
  intro k hk
  obtain ⟨k, rfl⟩ := Nat.exists_eq_succ_of_ne_zero (Nat.ne_zero_of_lt hk)
  simp only [List.cons_append, List.append_assoc, List.length_cons] at hk ⊢
  have hlen : (ts ++ right :: (us ++ t :: rest)).length < k + 1 := by omega
  refine refuses_statement_rest (hrest k) ?_
  refine refuses_after (complete_condition heof hleft (complete_of_reads heof hc) hright hlen) ?_
  exact (ha k (by simp at hk ⊢; omega)).bind _

theorem lacks_ifElse (heof : eof.kind = .eof) {c : Expr} {a b s : Stmt} {d d' : Bool} {j : Nat}
    {ws : List Token} {kw left right els : Token} (hkw : kw.kind = .keyword .ifWord)
    (hleft : left.kind = .leftParen) (hc : Reads (.expression c) n ts m)
    (hright : right.kind = .rightParen) (ha : Reads (.statement false a) m us j)
    (hels : els.kind = .keyword .elseWord) (hb : Lacks eof bag t rest (.statement d b) j ws) :
    Lacks eof bag t rest (.statement d' s) n
      (kw :: left :: (ts ++ right :: (us ++ els :: ws))) := by
  intro k hk
  obtain ⟨k, rfl⟩ := Nat.exists_eq_succ_of_ne_zero (Nat.ne_zero_of_lt hk)
  simp only [List.cons_append, List.append_assoc, List.length_cons] at hk ⊢
  have hlen : (ts ++ right :: (us ++ els :: (ws ++ t :: rest))).length < k + 1 := by omega
  have hthen : Accepts eof bag (statement k) m (us ++ els :: (ws ++ t :: rest)) a j
      (els :: (ws ++ t :: rest)) :=
    complete_of_reads heof ha (els :: (ws ++ t :: rest)) k (by simp at hk ⊢; omega) (by simp)
  refine refuses_statement_rest (by rw [hkw]; rfl) ?_
  refine refuses_after (complete_condition heof hleft (complete_of_reads heof hc) hright hlen) ?_
  refine refuses_after hthen ?_
  refine refuses_after
    ((accepts_accept? heof (by decide)).mpr ⟨rfl, Or.inl ⟨els, rfl, hels, rfl⟩⟩) ?_
  exact (hb k (by simp at hk ⊢; omega)).bind _

theorem lacks_forLoop (heof : eof.kind = .eof) {init : Option Stmt} {test step : Option Expr}
    {a s : Stmt} {d d' : Bool} {i j l : Nat} {is cs ss bs : List Token}
    {kw left semi right : Token} (hkw : kw.kind = .keyword .forWord)
    (hleft : left.kind = .leftParen) (hinit : Reads (.initializer init) n is i)
    (htest : Reads (.optional test) i cs j) (hsemi : semi.kind = .semicolon)
    (hstep : Reads (.optional step) j ss l) (hright : right.kind = .rightParen)
    (ha : Lacks eof bag t rest (.statement d a) l bs) :
    Lacks eof bag t rest (.statement d' s) n
      (kw :: left :: (is ++ (cs ++ semi :: (ss ++ right :: bs)))) := by
  intro k hk
  obtain ⟨k, rfl⟩ := Nat.exists_eq_succ_of_ne_zero (Nat.ne_zero_of_lt hk)
  simp only [List.cons_append, List.append_assoc, List.length_cons, List.length_append] at hk ⊢
  refine refuses_statement_rest (by rw [hkw]; rfl) ?_
  refine refuses_after ((accepts_expect heof (by decide)).mpr ⟨rfl, hleft, rfl⟩) ?_
  refine refuses_after (complete_of_reads heof hinit
    (cs ++ semi :: (ss ++ right :: (bs ++ t :: rest))) (k + 1) (by simp; omega)) ?_
  refine refuses_optional (complete_of_reads heof htest
    (semi :: (ss ++ right :: (bs ++ t :: rest))) (k + 1) .semicolon (by simp; omega) hsemi
    (by decide)) ?_
  refine refuses_after ((accepts_expect heof (by decide)).mpr ⟨rfl, hsemi, rfl⟩) ?_
  refine refuses_optional (complete_of_reads heof hstep (right :: (bs ++ t :: rest)) (k + 1)
    .rightParen (by simp; omega) hright (by decide)) ?_
  refine refuses_after ((accepts_expect heof (by decide)).mpr ⟨rfl, hright, rfl⟩) ?_
  exact (ha k (by simp; omega)).bind _

/-! ## Every phrase -/

theorem Lacks.declaration_of_statement {d : Bool} {s : Stmt} (hend : t.kind ≠ .eof)
    {first : Token} {vs : List Token} (hts : ts = first :: vs) (hfirst : first.kind ∈ stmtStarts)
    (h : Lacks eof bag t rest (.statement d s) n ts) :
    Lacks eof bag t rest (.declaration s) n ts := by
  subst hts
  intro k hk
  obtain ⟨k, rfl⟩ := Nat.exists_eq_succ_of_ne_zero (Nat.ne_zero_of_lt hk)
  rw [List.cons_append, declaration_statement (declarationRest_stmtStarts hfirst)]
  exact (h (k + 1) hk).recovering hend

theorem Lacks.declaration_of_variable {s : Stmt} (hend : t.kind ≠ .eof)
    (h : Lacks eof bag t rest (.variable s) n ts) :
    Lacks eof bag t rest (.declaration s) n ts := by
  obtain ⟨kw, us, rfl, hkw, hus⟩ := h
  intro k hk
  obtain ⟨k, rfl⟩ := Nat.exists_eq_succ_of_ne_zero (Nat.ne_zero_of_lt hk)
  have hrest : declarationRest (declaration k) (k + 1) kw.kind =
      some (variableRest (expression (k + 1))) := by
    rw [hkw]
    rfl
  rw [List.cons_append, declaration_rest hrest]
  exact (hus (k + 1) hk).recovering hend

/-- Every declaration and statement that ends with a semicolon lacks it in front of the
brace. -/
theorem Reads.lacks (heof : eof.kind = .eof) (hbrace : t.kind = .rightBrace)
    (hsemi : semi.kind = .semicolon) {φ : Phrase} (h : Reads φ n ts m) (hts : ts = D ++ [semi]) :
    Lacks eof bag t rest φ n D := by
  have hend : t.kind ≠ .eof := by rw [hbrace]; decide
  -- A phrase that ends with a brace does not end with the semicolon.
  have hclosed : ∀ {H D : List Token} {right : Token}, right.kind = .rightBrace →
      H ++ [right] ≠ D ++ [semi] := by
    intro H D right hright heq
    have hlast := (List.append_inj' heq rfl).2
    rw [List.cons.injEq] at hlast
    rw [hlast.1, hsemi] at hright
    cases hright
  have hstatement : ∀ {d : Bool} {s : Stmt} {n m : Nat} {us : List Token},
      Reads (.statement d s) n us m → us ≠ [] := by
    intro d s n m us h
    obtain ⟨first, vs, rfl, _⟩ := h.starts rfl
    exact List.cons_ne_nil _ _
  induction h generalizing D with
  | noDeclaration | declarations | noMethod | methods | noParameter | parameters | lastName | name
  | noInitializer | initVariable | initExpr | absent | present | assign | setProperty | loosest
  | binary | tighter | operand | signed | unsigned | call | property | primary | literal | this
  | super | identifier | group | noArgument | arguments | lastExpression | expressions => trivial
  | @plainClass n m fs ts kw name left right _ _ _ _ hright _ =>
      exact absurd hts (hclosed (H := kw :: name :: left :: ts) hright)
  | @subclass n m fs ts kw name less parent left right _ _ _ _ _ _ hright _ =>
      exact absurd hts (hclosed (H := kw :: name :: less :: parent :: left :: ts) hright)
  | @body n m k ps ss ts us kind start name left close brace right _ _ _ _ _ _ hright _ _ =>
      refine absurd ?_
        (hclosed (H := name :: left :: (ts ++ close :: brace :: us)) (D := D) hright)
      simpa using hts
  | @block n m ss ts left right _ _ hright _ =>
      exact absurd hts (hclosed (H := left :: ts) hright)
  | @function n m f ts kw _ h ih =>
      obtain ⟨first, vs, rfl, _⟩ := h.starts rfl
      obtain ⟨D', hus, _⟩ := eq_concat_of_append (H := [kw]) hts (List.cons_ne_nil _ _)
      exact (ih hus).elim
  | newVariable _ ih => exact (ih hts).declaration_of_variable hend
  | statement h ih =>
      obtain ⟨first, vs, rfl, hfirst⟩ := h.starts rfl
      cases D with
      | nil =>
          rw [List.nil_append, List.cons.injEq] at hts
          rw [hts.1, hsemi] at hfirst
          exact absurd hfirst (by decide)
      | cons t' D =>
          obtain rfl : first = t' := (List.cons.inj hts).1
          exact (ih hts).declaration_of_statement hend rfl hfirst
  | @unset n kw name semi' hkw hname _ =>
      obtain rfl : [kw, name] = D := List.append_inj_left' hts rfl
      exact lacks_unset hbrace heof hkw hname
  | @set n m e ts kw name equals semi' hkw hname hequals he _ _ =>
      obtain rfl : kw :: name :: equals :: ts = D := List.append_inj_left' hts rfl
      exact lacks_set hbrace heof hkw hname hequals he
  | @print n m e ts kw semi' hkw he _ _ =>
      obtain rfl : kw :: ts = D := List.append_inj_left' hts rfl
      exact lacks_closed hbrace heof (fun k => by rw [hkw]; rfl) he
  | @assertEqual n m l r span ts kw semi' hkw he _ _ =>
      obtain rfl : kw :: ts = D := List.append_inj_left' hts rfl
      exact lacks_closed hbrace heof (fun k => by rw [hkw]; rfl) he
  | @assert n m e ts kw semi' hkw he _ _ _ =>
      obtain rfl : kw :: ts = D := List.append_inj_left' hts rfl
      exact lacks_closed hbrace heof (fun k => by rw [hkw]; rfl) he
  | @ret n m e ts kw semi' hkw he _ _ =>
      obtain rfl : kw :: ts = D := List.append_inj_left' hts rfl
      exact lacks_ret hbrace heof hkw he
  | @expr n m e ts semi' he _ _ =>
      obtain rfl : ts = D := List.append_inj_left' hts rfl
      exact lacks_expr hbrace heof he
  | @ifThen n m k c d a cs as kw left right hkw hleft hc hright ha _ ih =>
      obtain ⟨D', rfl, rfl⟩ := eq_concat_of_append (H := kw :: left :: (cs ++ [right]))
        (by simpa using hts) (hstatement ha)
      simpa only [List.cons_append, List.append_assoc, List.nil_append] using
        lacks_guarded heof (fun k => by rw [hkw]; rfl) hleft hc hright (ih rfl)
  | @whileLoop n m k c d a cs as kw left right hkw hleft hc hright ha _ ih =>
      obtain ⟨D', rfl, rfl⟩ := eq_concat_of_append (H := kw :: left :: (cs ++ [right]))
        (by simpa using hts) (hstatement ha)
      simpa only [List.cons_append, List.append_assoc, List.nil_append] using
        lacks_guarded heof (fun k => by rw [hkw]; rfl) hleft hc hright (ih rfl)
  | @ifElse n m k l c d a b cs as bs kw left right els hkw hleft hc hright ha hels hb _ _ ih =>
      obtain ⟨D', rfl, rfl⟩ := eq_concat_of_append
        (H := kw :: left :: (cs ++ right :: (as ++ [els]))) (by simpa using hts) (hstatement hb)
      simpa only [List.cons_append, List.append_assoc, List.nil_append] using
        lacks_ifElse heof hkw hleft hc hright ha hels (ih rfl)
  | @forLoop n₁ n₂ n₃ n₄ n₅ init test step d s is cs ss bs kw left semi' right hkw hleft hi hc
      hsemi' hs hright hb _ _ _ ih =>
      obtain ⟨D', rfl, rfl⟩ := eq_concat_of_append
        (H := kw :: left :: (is ++ (cs ++ semi' :: (ss ++ [right])))) (by simpa using hts)
        (hstatement hb)
      simpa only [List.cons_append, List.append_assoc, List.nil_append] using
        lacks_forLoop heof hkw hleft hi hc hsemi' hs hright (ih rfl)

end Lacking

end LoxMachine.Grammar
