import LoxMachine.Proofs.Parser.Clauses

/-!
# Accepted tokens can be read

If a parser accepts, the tokens it takes can be read as the tree it makes.  The
loops carry what has been read so far; the loop over binary operators also carries
that no tighter operator comes next.
-/

namespace LoxMachine.Grammar

open LoxMachine.Parser

/-! ## Operators -/

theorem mem_operators_level {t : Kind} {op : Operator} (h : Operator.ofKind? t = some op) :
    t ∈ operators op.level := by
  unfold Operator.ofKind? at h
  split at h <;> cases h <;> decide

theorem operatorLevel_le (op : Operator) : op.level ≤ 6 := by
  cases op with
  | binary op => cases op <;> decide
  | logical op => cases op <;> decide

theorem Reads.lower {n m j k : Nat} {e : Expr} {ts : List Token}
    (h : Reads (.level j e) n ts m) (hk : k ≤ j) : Reads (.level k e) n ts m := by
  induction j with
  | zero =>
      obtain rfl : k = 0 := Nat.le_zero.mp hk
      exact h
  | succ j ih =>
      rcases Nat.le_succ_iff.mp hk with hle | rfl
      · exact ih h.tighter hle
      · exact h

/-- The expression of a phrase that can stand where an operand is wanted. -/
def Phrase.operand? : Phrase → Option Expr
  | .level _ e => some e
  | .unary e => some e
  | .call e => some e
  | .primary e => some e
  | _ => none

/-- An expression that can be assigned to is at least as tight as a call. -/
theorem Reads.call_of_target {φ : Phrase} {n m : Nat} {ts : List Token} {e : Expr}
    (h : Reads φ n ts m) (hφ : φ.operand? = some e)
    (htarget : (∃ id name, e = .var id name) ∨ ∃ object name span, e = .get object name span) :
    Reads (.call e) n ts m := by
  induction h with
  | tighter _ ih => exact ih hφ
  | operand _ ih => exact ih hφ
  | unsigned _ ih => exact ih hφ
  | primary h _ =>
      cases hφ
      exact h.primary
  | property h hdot hname _ =>
      cases hφ
      exact h.property hdot hname
  | call h hl ha hr _ _ =>
      cases hφ
      exact h.call hl ha hr
  | identifier ht =>
      cases hφ
      exact (Reads.identifier ht).primary
  | binary hl _ hop hr _ _ =>
      cases hφ
      rcases htarget with ⟨id, name, heq⟩ | ⟨object, name, span, heq⟩ <;>
        · unfold Operator.node at heq
          split at heq <;> cases heq
  | signed _ _ _ | literal _ _ | this _ | super _ _ _ | group _ _ _ _ =>
      cases hφ
      rcases htarget with ⟨id, name, heq⟩ | ⟨object, name, span, heq⟩ <;> cases heq
  | _ => cases hφ

variable {eof : Token} {bag : Bag} {n m : Nat} {ts us : List Token}

/-! ## Expressions -/

/-- Whatever `p` accepts can be read as the phrase that `φ` makes of the result. -/
def Sound {α : Type} (eof : Token) (bag : Bag) (p : Parser α) (φ : α → Phrase) : Prop :=
  ∀ ⦃n ts a m us⦄, Accepts eof bag p n ts a m us → ∃ vs, ts = vs ++ us ∧ Reads (φ a) n vs m

section Expressions

variable {operand inner : Parser Expr}

theorem not_operatorAhead_eight (ts : List Token) : ¬ OperatorAhead eof ts 8 := by
  rintro ⟨op, _, hle⟩
  have := operatorLevel_le op
  omega

theorem sound_climb_extend (ho : Orderly operand) (hs : Sound eof bag operand .unary)
    (heof : eof.kind = .eof) (steps : Nat) :
    (∀ {level n ts e m us}, level ≤ 7 → Accepts eof bag (climb operand steps level) n ts e m us →
      ∃ vs, ts = vs ++ us ∧ Reads (.level level e) n vs m ∧ ¬ OperatorAhead eof us level) ∧
    ∀ {level j left n₀ ws n ts e m us}, level ≤ j → Reads (.level j left) n₀ ws n →
      ¬ OperatorAhead eof ts (j + 1) →
      Accepts eof bag (extend operand steps level left) n ts e m us →
      ∃ vs, ts = vs ++ us ∧ Reads (.level level e) n₀ (ws ++ vs) m ∧
        ¬ OperatorAhead eof us level := by
  induction steps with
  | zero =>
      constructor
      · intro level n ts e m us _ h
        rw [climb] at h
        exact absurd h not_accepts_exhaust
      · intro level j left n₀ ws n ts e m us _ _ _ h
        rw [extend] at h
        exact absurd h not_accepts_exhaust
  | succ steps ih =>
      obtain ⟨ihclimb, ihextend⟩ := ih
      constructor
      · intro level n ts e m us hlevel h
        obtain ⟨left, k, vs, hleft, hext⟩ := (accepts_climb ho steps level).mp h
        obtain ⟨ws, rfl, hread⟩ := hs hleft
        obtain ⟨xs, rfl, hreads, hstop⟩ :=
          ihextend hlevel hread.operand (not_operatorAhead_eight vs) hext
        exact ⟨ws ++ xs, (List.append_assoc ..).symm, hreads, hstop⟩
      · intro level j left n₀ ws n ts e m us hle hread hahead h
        by_cases hstop : OperatorAhead eof ts level
        · obtain ⟨op, hop, hlop⟩ := hstop
          cases ts with
          | nil =>
              rw [List.headD_nil, heof] at hop
              cases hop
          | cons t rest =>
              rw [List.headD_cons] at hop
              have hopj : op.level ≤ j := by
                by_contra hlt
                exact hahead ⟨op, hop, Nat.lt_of_not_le hlt⟩
              obtain ⟨right, k, vs, hright, hext⟩ :=
                (accepts_extend_operator ho hop hlop).mp h
              have hop7 : op.level + 1 ≤ 7 := Nat.succ_le_succ (operatorLevel_le op)
              obtain ⟨xs, rfl, hrr, hnext⟩ := ihclimb hop7 hright
              have hnode := (hread.lower hopj).binary (mem_operators_level hop) hop hrr
              obtain ⟨ys, rfl, hreads, hend⟩ := ihextend hlop hnode hnext hext
              refine ⟨t :: (xs ++ ys), by simp, ?_, hend⟩
              simpa using hreads
        · obtain ⟨rfl, rfl, rfl⟩ := (accepts_extend_stop hstop).mp h
          exact ⟨[], rfl, by simpa using hread.lower hle, hstop⟩

theorem sound_primary (ho : Orderly inner) (hs : Sound eof bag inner .expression)
    (heof : eof.kind = .eof) : Sound eof bag (primary inner) .primary := by
  intro n ts e m us h
  cases ts with
  | nil =>
      exact absurd h (not_accepts_primary heof (by simp [literals]) (by decide) (by decide)
        (by decide) (by decide))
  | cons t rest =>
      by_cases hlit : t.kind ∈ literals
      · obtain ⟨hlegible, rfl, rfl, rfl⟩ := (accepts_primary_literal hlit).mp h
        exact ⟨[t], rfl, .literal hlit hlegible⟩
      by_cases hsuper : t.kind = .keyword .superWord
      · obtain ⟨dot, name, hdot, hname, rfl, rfl, rfl⟩ :=
          (accepts_primary_super heof hsuper).mp h
        exact ⟨[t, dot, name], rfl, .super hsuper hdot hname⟩
      by_cases hthis : t.kind = .keyword .thisWord
      · obtain ⟨rfl, rfl, rfl⟩ := (accepts_primary_this hthis).mp h
        exact ⟨[t], rfl, .this hthis⟩
      by_cases hid : t.kind = .identifier
      · obtain ⟨rfl, rfl, rfl⟩ := (accepts_primary_identifier hid).mp h
        exact ⟨[t], rfl, .identifier hid⟩
      by_cases hparen : t.kind = .leftParen
      · obtain ⟨e', close, he, hclose, rfl⟩ := (accepts_primary_group heof ho hparen).mp h
        obtain ⟨vs, rfl, hread⟩ := hs he
        exact ⟨t :: (vs ++ [close]), by simp, .group hparen hread hclose⟩
      · exact absurd h (not_accepts_primary rfl hlit hsuper hthis hid hparen)

theorem sound_arguments (ho : Orderly inner) (hs : Sound eof bag inner .expression)
    (heof : eof.kind = .eof) (steps : Nat) {before es : List Expr} {n m : Nat}
    {ts us : List Token} (h : Accepts eof bag (arguments inner steps before) n ts es m us) :
    ∃ es' vs, es = before.reverse ++ es' ∧ ts = vs ++ us ∧ Reads (.expressions es') n vs m := by
  induction steps generalizing before n ts with
  | zero =>
      rw [arguments] at h
      exact absurd h not_accepts_exhaust
  | succ steps ih =>
      obtain ⟨e, k, vs, he, hrest⟩ := (accepts_arguments heof ho steps before).mp h
      obtain ⟨ws, rfl, hread⟩ := hs he
      rcases hrest with ⟨comma, rest, hcomma, rfl, hmore⟩ | ⟨_, rfl, rfl, rfl⟩
      · obtain ⟨es', xs, rfl, rfl, hreads⟩ := ih hmore
        exact ⟨e :: es', ws ++ comma :: xs, by simp, by simp, hread.expressions hcomma hreads⟩
      · exact ⟨[e], ws, by simp, rfl, hread.lastExpression⟩

theorem sound_argumentList (ho : Orderly inner) (hs : Sound eof bag inner .expression)
    (heof : eof.kind = .eof) {steps : Nat} {es : List Expr} {n m : Nat} {ts us : List Token}
    (h : AcceptsList eof bag (arguments inner steps []) .rightParen n ts es m us) :
    ∃ vs, ts = vs ++ us ∧ Reads (.arguments es) n vs m := by
  rcases h with ⟨_, rfl, rfl, rfl⟩ | ⟨_, h⟩
  · exact ⟨[], rfl, .noArgument⟩
  · obtain ⟨es', vs, rfl, rfl, hreads⟩ := sound_arguments ho hs heof steps h
    exact ⟨vs, rfl, hreads.arguments⟩

theorem sound_suffixes (ho : Orderly inner) (hs : Sound eof bag inner .expression)
    (heof : eof.kind = .eof) (steps : Nat) {left e : Expr} {n₀ n m : Nat}
    {ws ts us : List Token} (hread : Reads (.call left) n₀ ws n)
    (h : Accepts eof bag (suffixes inner steps left) n ts e m us) :
    ∃ vs, ts = vs ++ us ∧ Reads (.call e) n₀ (ws ++ vs) m := by
  induction steps generalizing left n ws ts with
  | zero =>
      rw [suffixes] at h
      exact absurd h not_accepts_exhaust
  | succ steps ih =>
      by_cases hparen : (ts.headD eof).kind = .leftParen
      · cases ts with
        | nil =>
            rw [List.headD_nil, heof] at hparen
            cases hparen
        | cons t rest =>
            obtain ⟨args, k, close, rest', hargs, hclose, hmore⟩ :=
              (accepts_suffixes_call heof ho hparen).mp h
            obtain ⟨xs, rfl, hxs⟩ := sound_argumentList ho hs heof hargs
            obtain ⟨ys, rfl, hreads⟩ := ih (hread.call hparen hxs hclose) hmore
            exact ⟨t :: (xs ++ close :: ys), by simp, by simpa using hreads⟩
      by_cases hdot : (ts.headD eof).kind = .dot
      · cases ts with
        | nil =>
            rw [List.headD_nil, heof] at hdot
            cases hdot
        | cons t rest =>
            obtain ⟨name, rest', hname, rfl, hmore⟩ :=
              (accepts_suffixes_property heof ho hdot).mp h
            obtain ⟨ys, rfl, hreads⟩ := ih (hread.property hdot hname) hmore
            exact ⟨t :: name :: ys, by simp, by simpa using hreads⟩
      · obtain ⟨rfl, rfl, rfl⟩ := (accepts_suffixes_stop hparen hdot).mp h
        exact ⟨[], rfl, by simpa using hread⟩

theorem sound_unary (ho : Orderly operand) (hs : Sound eof bag operand .call)
    (heof : eof.kind = .eof) (steps : Nat) : Sound eof bag (unary operand steps) .unary := by
  induction steps with
  | zero =>
      intro n ts e m us h
      rw [unary] at h
      exact absurd h not_accepts_exhaust
  | succ steps ih =>
      intro n ts e m us h
      cases hop : unaryOp? (ts.headD eof).kind with
      | none =>
          obtain ⟨vs, rfl, hread⟩ := hs ((accepts_unary_stop hop).mp h)
          exact ⟨vs, rfl, hread.unsigned⟩
      | some op =>
          cases ts with
          | nil =>
              rw [List.headD_nil, heof] at hop
              cases hop
          | cons t rest =>
              obtain ⟨e', he, rfl⟩ := (accepts_unary_operator ho hop).mp h
              obtain ⟨vs, rfl, hread⟩ := ih he
              exact ⟨t :: vs, rfl, .signed hop hread⟩

theorem sound_operand (ho : Orderly inner) (hs : Sound eof bag inner .expression)
    (heof : eof.kind = .eof) (steps : Nat) :
    Sound eof bag (Parser.operand inner steps) .unary := by
  refine sound_unary ((orderly_primary ho).bind fun e => orderly_suffixes ho steps e) ?_ heof
    steps
  intro n ts e m us h
  obtain ⟨first, k, vs, hfirst, hrest⟩ :=
    (accepts_bind (orderly_primary ho) fun e => orderly_suffixes ho steps e).mp h
  obtain ⟨ws, rfl, hread⟩ := sound_primary ho hs heof hfirst
  obtain ⟨xs, rfl, hreads⟩ := sound_suffixes ho hs heof steps hread.primary hrest
  exact ⟨ws ++ xs, (List.append_assoc ..).symm, hreads⟩

end Expressions

theorem sound_assignTo {target value e : Expr} {equals : Token} {n k m : Nat}
    {ws xs : List Token} {j : Nat} (hequals : equals.kind = .equal)
    (htarget : Reads (.level 1 target) n ws k) (hvalue : Reads (.expression value) k xs j)
    (h : Accepts eof bag (assignTo target value equals.range) j ts e m us) :
    us = ts ∧ Reads (.expression e) n (ws ++ equals :: xs) m := by
  obtain ⟨rfl, ⟨id, name, rfl, rfl, rfl⟩ | ⟨object, name, span, rfl, rfl, rfl⟩⟩ :=
    accepts_assignTo.mp h
  · refine ⟨rfl, ?_⟩
    have hcall := htarget.call_of_target rfl (Or.inl ⟨id, name, rfl⟩)
    cases hcall with
    | primary hprim =>
        cases hprim with
        | identifier ht => exact .assign ht hequals hvalue
  · refine ⟨rfl, ?_⟩
    have hcall := htarget.call_of_target rfl (Or.inr ⟨object, name, span, rfl⟩)
    cases hcall with
    | primary hprim => cases hprim
    | property hobj hdot hname =>
        simpa [Expr.span] using Reads.setProperty hobj hdot hname hequals hvalue

theorem sound_expression (heof : eof.kind = .eof) (steps : Nat) :
    Sound eof bag (expression steps) .expression := by
  induction steps with
  | zero =>
      intro n ts e m us h
      rw [expression] at h
      exact absurd h not_accepts_exhaust
  | succ steps ih =>
      intro n ts e m us h
      have ho := orderly_operand (orderly_expression steps) (steps + 1)
      have hoperand := sound_operand (orderly_expression steps) ih heof (steps + 1)
      obtain ⟨target, k, vs, htarget, hrest⟩ := (accepts_expression heof steps).mp h
      obtain ⟨ws, rfl, hread, _⟩ :=
        (sound_climb_extend ho hoperand heof (steps + 1)).1 (by decide) htarget
      rcases hrest with ⟨_, rfl, rfl, rfl⟩ | ⟨equals, rest, value, j, zs, rfl, heq, hval, hasg⟩
      · exact ⟨ws, rfl, hread.loosest⟩
      · obtain ⟨xs, rfl, hv⟩ := ih hval
        obtain ⟨rfl, hreads⟩ := sound_assignTo heq hread hv hasg
        exact ⟨ws ++ equals :: xs, by simp, hreads⟩

/-! ## Statements -/

section Statements

variable {expr : Parser Expr} {stmt : Parser Stmt} {decl : Parser (Option Stmt)}

/-- A statement that can still take an `else` is not followed by one. -/
def SoundStatement (eof : Token) (bag : Bag) (stmt : Parser Stmt) : Prop :=
  ∀ ⦃n ts s m us⦄, Accepts eof bag stmt n ts s m us →
    ∃ d vs, ts = vs ++ us ∧ Reads (.statement d s) n vs m ∧
      (d = true → (us.headD eof).kind ≠ .keyword .elseWord)

def SoundDeclaration (eof : Token) (bag : Bag) (decl : Parser (Option Stmt)) : Prop :=
  ∀ ⦃n ts found m us⦄, Accepts eof bag decl n ts found m us →
    ∃ s vs, found = some s ∧ ts = vs ++ us ∧ Reads (.declaration s) n vs m

theorem sound_optional (hs : Sound eof bag expr .expression) {stop : Kind} {e : Option Expr}
    (h : AcceptsOptional eof bag expr stop n ts e m us) :
    ∃ vs, ts = vs ++ us ∧ Reads (.optional e) n vs m := by
  rcases h with ⟨_, rfl, rfl, rfl⟩ | ⟨_, e', rfl, he⟩
  · exact ⟨[], rfl, .absent⟩
  · obtain ⟨vs, rfl, hread⟩ := hs he
    exact ⟨vs, rfl, hread.present⟩

theorem sound_variableRest (ho : Orderly expr) (hs : Sound eof bag expr .expression)
    (heof : eof.kind = .eof) {kw : Token} (hkw : kw.kind = .keyword .varWord) {s : Stmt}
    (h : Accepts eof bag (variableRest expr kw.range) n ts s m us) :
    ∃ vs, ts = vs ++ us ∧ Reads (.variable s) n (kw :: vs) m := by
  obtain ⟨name, semi, hname, hsemi, ⟨rfl, rfl, rfl⟩ | ⟨equals, rest, e, rfl, heq, he, rfl⟩⟩ :=
    (accepts_variableRest heof ho).mp h
  · exact ⟨[name, semi], rfl, .unset hkw hname hsemi⟩
  · obtain ⟨vs, rfl, hread⟩ := hs he
    exact ⟨name :: equals :: (vs ++ [semi]), by simp, .set hkw hname heq hread hsemi⟩

theorem sound_condition (ho : Orderly expr) (hs : Sound eof bag expr .expression)
    (heof : eof.kind = .eof) {test : Expr}
    (h : Accepts eof bag (condition expr) n ts test m us) :
    ∃ (left : Token) (vs : List Token) (right : Token), left.kind = .leftParen ∧
      right.kind = .rightParen ∧ ts = left :: (vs ++ right :: us) ∧
      Reads (.expression test) n vs m := by
  obtain ⟨left, rest, right, hleft, rfl, ht, hright⟩ := (accepts_condition heof ho).mp h
  obtain ⟨vs, rfl, hread⟩ := hs ht
  exact ⟨left, vs, right, hleft, hright, rfl, hread⟩

theorem sound_ifRest (ho : Orderly expr) (hs : Sound eof bag expr .expression)
    (hos : Orderly stmt) (hss : SoundStatement eof bag stmt) (heof : eof.kind = .eof)
    {kw : Token} (hkw : kw.kind = .keyword .ifWord) {s : Stmt}
    (h : Accepts eof bag (ifRest expr stmt kw.range) n ts s m us) :
    ∃ d vs, ts = vs ++ us ∧ Reads (.statement d s) n (kw :: vs) m ∧
      (d = true → (us.headD eof).kind ≠ .keyword .elseWord) := by
  obtain ⟨test, k, vs, a, j, ws, htest, ha, hrest⟩ := (accepts_ifRest heof ho hos).mp h
  obtain ⟨left, xs, right, hleft, hright, rfl, hread⟩ := sound_condition ho hs heof htest
  obtain ⟨d, ys, rfl, hreada, hdangling⟩ := hss ha
  rcases hrest with ⟨hnext, rfl, rfl, rfl⟩ | ⟨els, rest, b, rfl, hels, hb, rfl⟩
  · exact ⟨true, left :: (xs ++ right :: ys), by simp,
      .ifThen hkw hleft hread hright hreada, fun _ => hnext⟩
  · -- the first branch is followed by `else`, so it cannot take one itself
    have hd : d = false := by
      cases d with
      | false => rfl
      | true => exact absurd hels (hdangling rfl)
    subst hd
    obtain ⟨d', zs, rfl, hreadb, hnext⟩ := hss hb
    exact ⟨d', left :: (xs ++ right :: (ys ++ els :: zs)), by simp,
      .ifElse hkw hleft hread hright hreada hels hreadb, hnext⟩

theorem sound_whileRest (ho : Orderly expr) (hs : Sound eof bag expr .expression)
    (hos : Orderly stmt) (hss : SoundStatement eof bag stmt) (heof : eof.kind = .eof)
    {kw : Token} (hkw : kw.kind = .keyword .whileWord) {s : Stmt}
    (h : Accepts eof bag (whileRest expr stmt kw.range) n ts s m us) :
    ∃ d vs, ts = vs ++ us ∧ Reads (.statement d s) n (kw :: vs) m ∧
      (d = true → (us.headD eof).kind ≠ .keyword .elseWord) := by
  obtain ⟨test, k, vs, body, htest, hbody, rfl⟩ := (accepts_whileRest ho hos).mp h
  obtain ⟨left, xs, right, hleft, hright, rfl, hread⟩ := sound_condition ho hs heof htest
  obtain ⟨d, ys, rfl, hreadb, hnext⟩ := hss hbody
  exact ⟨d, left :: (xs ++ right :: ys), by simp,
    .whileLoop hkw hleft hread hright hreadb, hnext⟩

theorem sound_forInit (ho : Orderly expr) (hs : Sound eof bag expr .expression)
    (heof : eof.kind = .eof) {init : Option Stmt}
    (h : Accepts eof bag (forInit expr) n ts init m us) :
    ∃ vs, ts = vs ++ us ∧ Reads (.initializer init) n vs m := by
  by_cases hsemi : (ts.headD eof).kind = .semicolon
  · cases ts with
    | nil =>
        rw [List.headD_nil, heof] at hsemi
        cases hsemi
    | cons t rest =>
        obtain ⟨rfl, rfl, rfl⟩ := (accepts_forInit_none hsemi).mp h
        exact ⟨[t], rfl, .noInitializer hsemi⟩
  by_cases hvar : (ts.headD eof).kind = .keyword .varWord
  · cases ts with
    | nil =>
        rw [List.headD_nil, heof] at hvar
        cases hvar
    | cons t rest =>
        obtain ⟨s, hv, rfl⟩ := (accepts_forInit_variable ho hvar).mp h
        obtain ⟨vs, rfl, hread⟩ := sound_variableRest ho hs heof hvar hv
        exact ⟨t :: vs, rfl, hread.initVariable⟩
  · obtain ⟨e, semi, he, hclose, rfl⟩ := (accepts_forInit_expr heof ho hsemi hvar).mp h
    obtain ⟨vs, rfl, hread⟩ := hs he
    exact ⟨vs ++ [semi], by simp, hread.initExpr hclose⟩

theorem sound_forRest (ho : Orderly expr) (hs : Sound eof bag expr .expression)
    (hos : Orderly stmt) (hss : SoundStatement eof bag stmt) (heof : eof.kind = .eof)
    {kw : Token} (hkw : kw.kind = .keyword .forWord) {s : Stmt}
    (h : Accepts eof bag (forRest expr stmt kw.range) n ts s m us) :
    ∃ d vs, ts = vs ++ us ∧ Reads (.statement d s) n (kw :: vs) m ∧
      (d = true → (us.headD eof).kind ≠ .keyword .elseWord) := by
  obtain ⟨left, rest, init, n₁, ts₁, test, n₂, semi, ts₂, step, n₃, right, ts₃, body, hleft,
    rfl, hinit, htest, hsemi, hstep, hright, hbody, rfl⟩ := (accepts_forRest heof ho hos).mp h
  obtain ⟨is, rfl, hreadi⟩ := sound_forInit ho hs heof hinit
  obtain ⟨cs, rfl, hreadc⟩ := sound_optional hs htest
  obtain ⟨ss, rfl, hreads⟩ := sound_optional hs hstep
  obtain ⟨d, bs, rfl, hreadb, hnext⟩ := hss hbody
  exact ⟨d, left :: (is ++ (cs ++ semi :: (ss ++ right :: bs))), by simp,
    .forLoop hkw hleft hreadi hreadc hsemi hreads hright hreadb, hnext⟩

theorem sound_assertRest (ho : Orderly expr) (hs : Sound eof bag expr .expression)
    (heof : eof.kind = .eof) {kw : Token} (hkw : kw.kind = .keyword .assertWord) {s : Stmt}
    (h : Accepts eof bag (assertRest expr kw.range) n ts s m us) :
    ∃ vs, ts = vs ++ us ∧ Reads (.statement false s) n (kw :: vs) m := by
  obtain ⟨e, semi, he, hsemi, rfl⟩ := (accepts_closed heof ho).mp h
  obtain ⟨vs, rfl, hread⟩ := hs he
  refine ⟨vs ++ [semi], by simp, ?_⟩
  unfold assertion
  split
  · exact .assertEqual hkw hread hsemi
  next hne => exact .assert hkw hread hne hsemi

/-! ## Blocks, functions and classes -/

theorem sound_declarations (ho : Orderly decl) (hs : SoundDeclaration eof bag decl)
    (steps : Nat) {before body : List Stmt} {n m : Nat} {ts us : List Token}
    (h : Accepts eof bag (declarations decl steps before) n ts body m us) :
    ∃ body' vs, body = before.reverse ++ body' ∧ ts = vs ++ us ∧
      Reads (.declarations body') n vs m := by
  induction steps generalizing before n ts with
  | zero =>
      rw [declarations] at h
      exact absurd h not_accepts_exhaust
  | succ steps ih =>
      by_cases hend : BlockEnd eof ts
      · obtain ⟨rfl, rfl, rfl⟩ := (accepts_declarations_stop hend).mp h
        exact ⟨[], [], by simp, rfl, .noDeclaration⟩
      · obtain ⟨found, k, vs, hfound, hmore⟩ := (accepts_declarations ho hend).mp h
        obtain ⟨s, xs, rfl, rfl, hread⟩ := hs hfound
        obtain ⟨body', ys, rfl, rfl, hreads⟩ := ih hmore
        exact ⟨s :: body', xs ++ ys, by simp, by simp, hread.declarations hreads⟩

theorem sound_parameters (heof : eof.kind = .eof) (steps : Nat) {before ps : List Name}
    {ts us : List Token} {n m : Nat}
    (h : Accepts eof bag (parameters steps before) n ts ps m us) :
    ∃ ps' vs, ps = before.reverse ++ ps' ∧ ts = vs ++ us ∧ Reads (.names ps') n vs m := by
  induction steps generalizing before ts with
  | zero =>
      rw [parameters] at h
      exact absurd h not_accepts_exhaust
  | succ steps ih =>
      obtain ⟨name, vs, hname, rfl, hrest⟩ := (accepts_parameters heof steps).mp h
      rcases hrest with ⟨comma, rest, hcomma, rfl, hmore⟩ | ⟨_, rfl, rfl, rfl⟩
      · obtain ⟨ps', ys, rfl, rfl, hreads⟩ := ih hmore
        exact ⟨nameOf name :: ps', name :: comma :: ys, by simp, rfl, .name hname hcomma hreads⟩
      · exact ⟨[nameOf name], [name], by simp, rfl, .lastName hname⟩

theorem sound_functionRest (ho : Orderly decl) (hs : SoundDeclaration eof bag decl)
    (heof : eof.kind = .eof) {steps : Nat} {kind : FunctionKind} {start : Range}
    {f : Function} (h : Accepts eof bag (functionRest decl steps kind start) n ts f m us) :
    ∃ vs, ts = vs ++ us ∧ Reads (.function kind start f) n vs m ∧
      (vs.headD eof) = ts.headD eof := by
  obtain ⟨name, left, ts₁, params, k, right, brace, ts₂, body, close, hname, hleft, rfl,
    hparams, hright, hbrace, hbody, hclose, rfl⟩ := (accepts_functionRest heof ho).mp h
  obtain ⟨ps, rfl, hreadp⟩ : ∃ vs, ts₁ = vs ++ right :: brace :: ts₂ ∧
      Reads (.parameters params) n vs k := by
    rcases hparams with ⟨_, rfl, rfl, rfl⟩ | ⟨_, hp⟩
    · exact ⟨[], rfl, .noParameter⟩
    · obtain ⟨ps', vs, rfl, rfl, hreads⟩ := sound_parameters heof steps hp
      exact ⟨vs, rfl, hreads.parameters⟩
  obtain ⟨body', bs, rfl, rfl, hreadb⟩ := sound_declarations ho hs steps hbody
  exact ⟨name :: left :: (ps ++ right :: brace :: (bs ++ [close])), by simp,
    .body hname hleft hreadp hright hbrace hreadb hclose, rfl⟩

theorem sound_methods (ho : Orderly decl) (hs : SoundDeclaration eof bag decl)
    (heof : eof.kind = .eof) (steps : Nat) {before fs : List Function} {n m : Nat}
    {ts us : List Token} (h : Accepts eof bag (methods decl steps before) n ts fs m us) :
    ∃ fs' vs, fs = before.reverse ++ fs' ∧ ts = vs ++ us ∧ Reads (.methods fs') n vs m := by
  induction steps generalizing before n ts with
  | zero =>
      rw [methods] at h
      exact absurd h not_accepts_exhaust
  | succ steps ih =>
      by_cases hend : BlockEnd eof ts
      · obtain ⟨rfl, rfl, rfl⟩ := (accepts_methods_stop hend).mp h
        exact ⟨[], [], by simp, rfl, .noMethod⟩
      · obtain ⟨f, k, vs, hf, hmore⟩ := (accepts_methods ho hend).mp h
        obtain ⟨xs, rfl, hread, hhead⟩ := sound_functionRest ho hs heof hf
        obtain ⟨fs', ys, rfl, rfl, hreads⟩ := ih hmore
        rw [← hhead] at hread
        have hfirst : xs.head? = some (xs.headD eof) := by
          cases hread
          rfl
        exact ⟨f :: fs', xs ++ ys, by simp, by simp, .methods hfirst hread hreads⟩

theorem sound_classRest (ho : Orderly decl) (hs : SoundDeclaration eof bag decl)
    (heof : eof.kind = .eof) {steps : Nat} {kw : Token}
    (hkw : kw.kind = .keyword .classWord) {s : Stmt}
    (h : Accepts eof bag (classRest decl steps kw.range) n ts s m us) :
    ∃ vs, ts = vs ++ us ∧ Reads (.declaration s) n (kw :: vs) m := by
  obtain ⟨name, ts₁, parent, k, brace, ts₂, fs, close, hname, rfl, hparent, hbrace, hfs,
    hclose, rfl⟩ := (accepts_classRest heof ho).mp h
  obtain ⟨fs', xs, rfl, rfl, hreads⟩ := sound_methods ho hs heof steps hfs
  rcases (accepts_superclass? heof).mp hparent with
    ⟨_, rfl, rfl, rfl⟩ | ⟨less, sup, hless, hsup, rfl, rfl, rfl⟩
  · exact ⟨name :: brace :: (xs ++ [close]), by simp,
      .plainClass hkw hname hbrace hreads hclose⟩
  · exact ⟨name :: less :: sup :: brace :: (xs ++ [close]), by simp,
      .subclass hkw hname hless hsup hbrace hreads hclose⟩

/-! ## Statements and declarations -/

theorem sound_statementWith (hod : Orderly decl) (hsd : SoundDeclaration eof bag decl)
    (hos : Orderly stmt) (hss : SoundStatement eof bag stmt) (heof : eof.kind = .eof)
    (steps : Nat) : SoundStatement eof bag (statementWith decl stmt steps) := by
  intro n ts s m us h
  have ho := orderly_expression steps
  have hs : Sound eof bag (expression steps) .expression := sound_expression heof steps
  cases hrest : statementRest decl stmt steps (ts.headD eof).kind with
  | none =>
      obtain ⟨e, semi, he, hsemi, rfl⟩ :=
        (accepts_closed heof ho).mp ((accepts_statementWith_expr hrest).mp h)
      obtain ⟨vs, rfl, hread⟩ := hs he
      exact ⟨false, vs ++ [semi], by simp, hread.expr hsemi, by simp⟩
  | some p =>
      cases ts with
      | nil =>
          rw [List.headD_nil, heof] at hrest
          cases hrest
      | cons t rest =>
          rw [List.headD_cons] at hrest
          replace h := (accepts_statementWith_rest hrest).mp h
          unfold statementRest at hrest
          split at hrest
          next hk =>
            cases hrest
            obtain ⟨d, vs, rfl, hread, hnext⟩ := sound_forRest ho hs hos hss heof hk h
            exact ⟨d, t :: vs, rfl, hread, hnext⟩
          next hk =>
            cases hrest
            obtain ⟨d, vs, rfl, hread, hnext⟩ := sound_ifRest ho hs hos hss heof hk h
            exact ⟨d, t :: vs, rfl, hread, hnext⟩
          next hk =>
            cases hrest
            obtain ⟨e, semi, he, hsemi, rfl⟩ := (accepts_closed heof ho).mp h
            obtain ⟨vs, rfl, hread⟩ := hs he
            exact ⟨false, t :: (vs ++ [semi]), by simp, .print hk hread hsemi, by simp⟩
          next hk =>
            cases hrest
            obtain ⟨vs, rfl, hread⟩ := sound_assertRest ho hs heof hk h
            exact ⟨false, t :: vs, rfl, hread, by simp⟩
          next hk =>
            cases hrest
            obtain ⟨d, vs, rfl, hread, hnext⟩ := sound_whileRest ho hs hos hss heof hk h
            exact ⟨d, t :: vs, rfl, hread, hnext⟩
          next hk =>
            cases hrest
            obtain ⟨value, semi, hv, hsemi, rfl⟩ := (accepts_returnRest heof ho).mp h
            obtain ⟨vs, rfl, hread⟩ := sound_optional hs hv
            exact ⟨false, t :: (vs ++ [semi]), by simp, .ret hk hread hsemi, by simp⟩
          next hk =>
            cases hrest
            obtain ⟨body, close, hbody, hclose, rfl⟩ := (accepts_block hod heof).mp h
            obtain ⟨body', vs, rfl, rfl, hread⟩ := sound_declarations hod hsd steps hbody
            exact ⟨false, t :: (vs ++ [close]), by simp, .block hk hread hclose, by simp⟩
          next => cases hrest

theorem sound_declarationWith (hod : Orderly decl) (hsd : SoundDeclaration eof bag decl)
    (hos : Orderly stmt) (hss : SoundStatement eof bag stmt) (heof : eof.kind = .eof)
    (steps : Nat) : Sound eof bag (declarationWith decl stmt steps) .declaration := by
  intro n ts s m us h
  cases hrest : declarationRest decl steps (ts.headD eof).kind with
  | none =>
      obtain ⟨d, vs, rfl, hread, _⟩ := sound_statementWith hod hsd hos hss heof steps
        ((accepts_declarationWith_statement hrest).mp h)
      exact ⟨vs, rfl, hread.statement⟩
  | some p =>
      cases ts with
      | nil =>
          rw [List.headD_nil, heof] at hrest
          cases hrest
      | cons t rest =>
          rw [List.headD_cons] at hrest
          replace h := (accepts_declarationWith_rest hrest).mp h
          unfold declarationRest at hrest
          split at hrest
          next hk =>
            cases hrest
            obtain ⟨vs, rfl, hread⟩ := sound_classRest hod hsd heof hk h
            exact ⟨t :: vs, rfl, hread⟩
          next hk =>
            cases hrest
            obtain ⟨f, hf, rfl⟩ := (accepts_function hod).mp h
            obtain ⟨vs, rfl, hread, _⟩ := sound_functionRest hod hsd heof hf
            exact ⟨t :: vs, rfl, .function hk hread⟩
          next hk =>
            cases hrest
            obtain ⟨vs, rfl, hread⟩ := sound_variableRest (orderly_expression steps)
              (sound_expression heof steps) heof hk h
            exact ⟨t :: vs, rfl, hread.newVariable⟩
          next => cases hrest

end Statements

theorem sound_statement_declaration (heof : eof.kind = .eof) (steps : Nat) :
    SoundStatement eof bag (statement steps) ∧
      SoundDeclaration eof bag (declaration steps) := by
  induction steps with
  | zero =>
      constructor
      · intro n ts s m us h
        rw [statement] at h
        exact absurd h not_accepts_exhaust
      · intro n ts s m us h
        rw [declaration] at h
        exact absurd h not_accepts_exhaust
  | succ steps ih =>
      obtain ⟨hss, hsd⟩ := ih
      obtain ⟨hos, hod⟩ := orderly_statement_declaration steps
      constructor
      · intro n ts s m us h
        rw [statement] at h
        exact sound_statementWith hod hsd hos hss heof (steps + 1) h
      · intro n ts found m us h
        obtain ⟨s, rfl, hs⟩ := (accepts_declaration steps).mp h
        obtain ⟨vs, rfl, hread⟩ := sound_declarationWith hod hsd hos hss heof (steps + 1) hs
        exact ⟨s, vs, rfl, rfl, hread⟩

theorem sound_topLevel {decl : Parser (Option Stmt)} (ho : Orderly decl)
    (hs : SoundDeclaration eof bag decl) (steps : Nat) {before body : List Stmt} {n m : Nat}
    {ts us : List Token} (h : Accepts eof bag (topLevel decl steps before) n ts body m us) :
    (us.headD eof).kind = .eof ∧ ∃ body' vs, body = before.reverse ++ body' ∧ ts = vs ++ us ∧
      Reads (.declarations body') n vs m := by
  induction steps generalizing before n ts with
  | zero =>
      rw [topLevel] at h
      exact absurd h not_accepts_exhaust
  | succ steps ih =>
      by_cases hend : (ts.headD eof).kind = .eof
      · obtain ⟨rfl, rfl, rfl⟩ := (accepts_topLevel_stop hend).mp h
        exact ⟨hend, [], [], by simp, rfl, .noDeclaration⟩
      · obtain ⟨found, k, vs, hfound, hmore⟩ := (accepts_topLevel ho hend).mp h
        obtain ⟨s, xs, rfl, rfl, hread⟩ := hs hfound
        obtain ⟨hlast, body', ys, rfl, rfl, hreads⟩ := ih hmore
        exact ⟨hlast, s :: body', xs ++ ys, by simp, by simp, hread.declarations hreads⟩

end LoxMachine.Grammar
