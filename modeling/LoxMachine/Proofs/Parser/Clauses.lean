import LoxMachine.Proofs.Grammar
import LoxMachine.Proofs.Parser.Orderly

/-!
# What each parser accepts

For each parser, the pieces it takes from the tokens and the tree it makes of them,
in terms of what its operands accept.  The recursive ones are unfolded once.
-/

namespace LoxMachine.Parser

open Grammar

variable {eof : Token} {bag : Bag} {n m : Nat} {ts us : List Token}

/-! ## What may be left out -/

/-- An expression, unless `stop` is at the head of the tokens. -/
def AcceptsOptional (eof : Token) (bag : Bag) (expr : Parser Expr) (stop : Kind) (n : Nat)
    (ts : List Token) (e : Option Expr) (m : Nat) (us : List Token) : Prop :=
  ((ts.headD eof).kind = stop ∧ e = none ∧ m = n ∧ us = ts) ∨
    ((ts.headD eof).kind ≠ stop ∧ ∃ e', e = some e' ∧ Accepts eof bag expr n ts e' m us)

/-- A list, unless `stop` is at the head of the tokens. -/
def AcceptsList {α : Type} (eof : Token) (bag : Bag) (list : Parser (List α)) (stop : Kind)
    (n : Nat) (ts : List Token) (l : List α) (m : Nat) (us : List Token) : Prop :=
  ((ts.headD eof).kind = stop ∧ l = [] ∧ m = n ∧ us = ts) ∨
    ((ts.headD eof).kind ≠ stop ∧ Accepts eof bag list n ts l m us)

theorem exact_optional_bind {β : Type} {expr : Parser Expr} {f : Option Expr → Parser β}
    {S : Option Expr → Nat → List Token → β → Nat → List Token → Prop} (h : Orderly expr)
    (hf : ∀ e, Exact eof bag (f e) (S e)) (stop : Kind) :
    Exact eof bag (do
      let absent ← isAt stop
      if absent = true then (do let e ← pure none; f e)
        else do let e ← expr; let e ← pure (some e); f e)
      fun n ts b m us => ∃ e k vs, AcceptsOptional eof bag expr stop n ts e k vs ∧
        S e k vs b m us := by
  refine ⟨(orderly_isAt stop).bind (orderly_optional h fun e => (hf e).orderly), ?_⟩
  intro n ts b m us
  rw [accepts_isAt_bind]
  by_cases hstop : (ts.headD eof).kind = stop
  · simp only [hstop, decide_true, if_true, accepts_pure_bind, (hf _).accepts_iff]
    constructor
    · intro hb
      exact ⟨none, n, ts, Or.inl ⟨hstop, rfl, rfl, rfl⟩, hb⟩
    · rintro ⟨e, k, vs, ⟨_, rfl, rfl, rfl⟩ | ⟨hne, _⟩, hb⟩
      · exact hb
      · exact absurd hstop hne
  · simp only [hstop, decide_false, Bool.false_eq_true, if_false]
    rw [accepts_bind h fun e => (orderly_pure _).bind fun e => (hf e).orderly]
    simp only [accepts_pure_bind, (hf _).accepts_iff]
    constructor
    · rintro ⟨e, k, vs, he, hb⟩
      exact ⟨some e, k, vs, Or.inr ⟨hstop, e, rfl, he⟩, hb⟩
    · rintro ⟨e, k, vs, ⟨heq, _⟩ | ⟨_, e', rfl, he⟩, hb⟩
      · exact absurd heq hstop
      · exact ⟨e', k, vs, he, hb⟩

theorem exact_list_bind {α β : Type} {list : Parser (List α)} {f : List α → Parser β}
    {S : List α → Nat → List Token → β → Nat → List Token → Prop} (h : Orderly list)
    (hf : ∀ l, Exact eof bag (f l) (S l)) (stop : Kind) :
    Exact eof bag (do
      let absent ← isAt stop
      if absent = true then (do let l ← pure []; f l) else do let l ← list; f l)
      fun n ts b m us => ∃ l k vs, AcceptsList eof bag list stop n ts l k vs ∧
        S l k vs b m us := by
  refine ⟨(orderly_isAt stop).bind (orderly_list h fun l => (hf l).orderly), ?_⟩
  intro n ts b m us
  rw [accepts_isAt_bind]
  by_cases hstop : (ts.headD eof).kind = stop
  · simp only [hstop, decide_true, if_true, accepts_pure_bind, (hf _).accepts_iff]
    constructor
    · intro hb
      exact ⟨[], n, ts, Or.inl ⟨hstop, rfl, rfl, rfl⟩, hb⟩
    · rintro ⟨l, k, vs, ⟨_, rfl, rfl, rfl⟩ | ⟨hne, _⟩, hb⟩
      · exact hb
      · exact absurd hstop hne
  · simp only [hstop, decide_false, Bool.false_eq_true, if_false]
    rw [accepts_bind h fun l => (hf l).orderly]
    simp only [(hf _).accepts_iff]
    constructor
    · rintro ⟨l, k, vs, hl, hb⟩
      exact ⟨l, k, vs, Or.inr ⟨hstop, hl⟩, hb⟩
    · rintro ⟨l, k, vs, ⟨heq, _⟩ | ⟨_, hl⟩, hb⟩
      · exact absurd heq hstop
      · exact ⟨l, k, vs, hl, hb⟩

/-! ## Expressions -/

section Expressions

variable {operand inner : Parser Expr} {e left : Expr}

theorem accepts_climb (h : Orderly operand) (steps level : Nat) :
    Accepts eof bag (climb operand (steps + 1) level) n ts e m us ↔
      ∃ left k vs, Accepts eof bag operand n ts left k vs ∧
        Accepts eof bag (extend operand steps level left) k vs e m us :=
  accepts_bind h fun left => (orderly_climb_extend h steps).2 level left

/-- Whether an operator of at least that level stands at the head of the tokens. -/
def OperatorAhead (eof : Token) (ts : List Token) (level : Nat) : Prop :=
  ∃ op, Operator.ofKind? (ts.headD eof).kind = some op ∧ level ≤ op.level

theorem Operator.ofKind?_eof : Operator.ofKind? .eof = none := rfl

theorem accepts_extend_stop {steps level : Nat} (hstop : ¬ OperatorAhead eof ts level) :
    Accepts eof bag (extend operand (steps + 1) level left) n ts e m us ↔
      e = left ∧ m = n ∧ us = ts := by
  rw [extend]
  rw [accepts_peek_bind]
  cases hop : Operator.ofKind? (ts.headD eof).kind with
  | none => exact accepts_pure
  | some op =>
      have hlt : op.level < level := by
        by_contra hge
        exact hstop ⟨op, hop, Nat.not_lt.mp hge⟩
      simp only [if_pos hlt]
      exact accepts_pure

theorem accepts_extend_operator (h : Orderly operand) {steps level : Nat} {t : Token}
    {op : Operator} (hop : Operator.ofKind? t.kind = some op) (hle : level ≤ op.level) :
    Accepts eof bag (extend operand (steps + 1) level left) n (t :: ts) e m us ↔
      ∃ right k vs, Accepts eof bag (climb operand steps (op.level + 1)) n ts right k vs ∧
        Accepts eof bag (extend operand steps level (op.node left right)) k vs e m us := by
  have hte : t.kind ≠ .eof := by
    intro heq
    rw [heq, Operator.ofKind?_eof] at hop
    cases hop
  rw [extend]
  rw [accepts_peek_bind]
  simp only [List.headD_cons, hop, if_neg (Nat.not_lt.mpr hle)]
  rw [accepts_skip_bind hte]
  exact accepts_bind ((orderly_climb_extend h steps).1 _) fun right =>
    (orderly_climb_extend h steps).2 level (op.node left right)

theorem kind_ne_eof_of_mem_literals {t : Token} (h : t.kind ∈ literals) : t.kind ≠ .eof := by
  intro heq
  rw [heq] at h
  simp [literals] at h

/-- A number is accepted if its text is one. -/
theorem accepts_numberLiteral {t : Token} (hkind : t.kind = .number) :
    Accepts eof bag (numberLiteral t) n ts e m us ↔
      t.Legible ∧ e = .literal (literalOf t) t.range ∧ m = n ∧ us = ts := by
  unfold numberLiteral
  split
  next hnumeral =>
    rw [accepts_pure, literalOf, hkind]
    exact ⟨fun h => ⟨fun _ => hnumeral, h⟩, fun h => h.2⟩
  next hother =>
    rw [accepts_bind (orderly_complain _ _) fun _ => orderly_pure _]
    simp only [not_accepts_complain, false_and, exists_false, false_iff]
    exact fun h => hother (h.1 hkind)

theorem accepts_primary_literal {t : Token} (ht : t.kind ∈ literals) :
    Accepts eof bag (primary inner) n (t :: ts) e m us ↔
      t.Legible ∧ e = .literal (literalOf t) t.range ∧ m = n ∧ us = ts := by
  have hte := kind_ne_eof_of_mem_literals ht
  by_cases hnumber : t.kind = .number
  · unfold primary
    rw [accepts_peek_bind]
    simp only [List.headD_cons, hnumber]
    rw [accepts_skip_bind hte, accepts_numberLiteral hnumber]
  · rw [and_iff_right (Token.legible_of_kind_ne hnumber)]
    unfold primary
    rw [accepts_peek_bind]
    simp only [literals, List.mem_cons, List.not_mem_nil, or_false, hnumber, false_or] at ht
    rcases ht with h | h | h | h <;>
      simp only [List.headD_cons, h, literalOf, accepts_skip_bind hte, accepts_pure]

theorem accepts_primary_super (heof : eof.kind = .eof) {t : Token}
    (ht : t.kind = .keyword .superWord) :
    Accepts eof bag (primary inner) n (t :: ts) e m us ↔
      ∃ dot name : Token, dot.kind = .dot ∧ name.kind = .identifier ∧ ts = dot :: name :: us ∧
        m = n + 2 ∧
        e = .super (n + 1) (n + 2) t.range (nameOf name) (t.range.join name.range) := by
  have hte : t.kind ≠ .eof := by rw [ht]; decide
  unfold primary
  rw [accepts_peek_bind]
  simp only [List.headD_cons, ht]
  rw [accepts_skip_bind hte]
  refine ((exact_expect heof _ _ (by decide)).bind fun _ =>
    (exact_expectName heof _).bind fun _ => exact_nextId.bind fun _ =>
      exact_nextId.bind fun _ => exact_pure _).accepts_iff.trans ?_
  constructor
  · rintro ⟨dot, _, _, ⟨rfl, hdot, rfl⟩, _, _, _, ⟨rfl, name, hname, rfl, rfl⟩, _, _, _,
      ⟨rfl, rfl, rfl⟩, _, _, _, ⟨rfl, rfl, rfl⟩, rfl, rfl, rfl⟩
    exact ⟨dot, name, hdot, hname, rfl, rfl, rfl⟩
  · rintro ⟨dot, name, hdot, hname, rfl, rfl, rfl⟩
    exact ⟨dot, _, _, ⟨rfl, hdot, rfl⟩, _, _, _, ⟨rfl, name, hname, rfl, rfl⟩, _, _, _,
      ⟨rfl, rfl, rfl⟩, _, _, _, ⟨rfl, rfl, rfl⟩, rfl, rfl, rfl⟩

theorem accepts_primary_this {t : Token} (ht : t.kind = .keyword .thisWord) :
    Accepts eof bag (primary inner) n (t :: ts) e m us ↔
      e = .this (n + 1) t.range ∧ m = n + 1 ∧ us = ts := by
  have hte : t.kind ≠ .eof := by rw [ht]; decide
  unfold primary
  rw [accepts_peek_bind]
  simp only [List.headD_cons, ht]
  rw [accepts_skip_bind hte]
  exact accepts_pure

theorem accepts_primary_identifier {t : Token} (ht : t.kind = .identifier) :
    Accepts eof bag (primary inner) n (t :: ts) e m us ↔
      e = .var (n + 1) (nameOf t) ∧ m = n + 1 ∧ us = ts := by
  have hte : t.kind ≠ .eof := by rw [ht]; decide
  unfold primary
  rw [accepts_peek_bind]
  simp only [List.headD_cons, ht]
  rw [accepts_skip_bind hte]
  exact accepts_pure

theorem accepts_primary_group (heof : eof.kind = .eof) (h : Orderly inner) {t : Token}
    (ht : t.kind = .leftParen) :
    Accepts eof bag (primary inner) n (t :: ts) e m us ↔
      ∃ (e' : Expr) (close : Token), Accepts eof bag inner n ts e' m (close :: us) ∧
        close.kind = .rightParen ∧ e = .group e' (t.range.join close.range) := by
  have hte : t.kind ≠ .eof := by rw [ht]; decide
  unfold primary
  rw [accepts_peek_bind]
  simp only [List.headD_cons, ht]
  rw [accepts_skip_bind hte]
  refine (h.exact.bind fun _ => (exact_expect heof _ _ (by decide)).bind fun _ =>
    exact_pure _).accepts_iff.trans ?_
  constructor
  · rintro ⟨e', _, _, he, close, _, _, ⟨rfl, hclose, rfl⟩, rfl, rfl, rfl⟩
    exact ⟨e', close, he, hclose, rfl⟩
  · rintro ⟨e', close, he, hclose, rfl⟩
    exact ⟨e', _, _, he, close, _, _, ⟨rfl, hclose, rfl⟩, rfl, rfl, rfl⟩

/-- No other token starts a simple expression. -/
theorem not_accepts_primary {kind : Kind} (hkind : (ts.headD eof).kind = kind)
    (hlit : kind ∉ literals) (hsuper : kind ≠ .keyword .superWord)
    (hthis : kind ≠ .keyword .thisWord) (hid : kind ≠ .identifier)
    (hparen : kind ≠ .leftParen) : ¬ Accepts eof bag (primary inner) n ts e m us := by
  unfold primary
  rw [accepts_peek_bind]
  simp only [literals, List.mem_cons, List.not_mem_nil, or_false, not_or] at hlit
  split <;> simp_all

theorem accepts_arguments (heof : eof.kind = .eof) (h : Orderly inner) (steps : Nat)
    (before : List Expr) {es : List Expr} :
    Accepts eof bag (arguments inner (steps + 1) before) n ts es m us ↔
      ∃ e k vs, Accepts eof bag inner n ts e k vs ∧
        ((∃ (comma : Token) (rest : List Token), comma.kind = .comma ∧ vs = comma :: rest ∧
            Accepts eof bag (arguments inner steps (e :: before)) k rest es m us) ∨
          ((vs.headD eof).kind ≠ .comma ∧ es = (e :: before).reverse ∧ m = k ∧ us = vs)) := by
  refine (h.exact.bind fun e => (exact_accept? heof .comma (by decide)).bind
    (S := fun found => found.elim
      (fun n ts b m us => b = (e :: before).reverse ∧ m = n ∧ us = ts)
      fun _ => Accepts eof bag (arguments inner steps (e :: before)))
    fun found => ?_).accepts_iff.trans ?_
  · cases found with
    | some _ => exact (orderly_arguments h steps _).exact
    | none => exact exact_pure _
  constructor
  · rintro ⟨e, k, vs, he, found, _, _, ⟨rfl, ⟨comma, rfl, hc, rfl⟩ | ⟨rfl, hc, rfl⟩⟩, hrest⟩
    · exact ⟨e, _, _, he, Or.inl ⟨comma, _, hc, rfl, hrest⟩⟩
    · exact ⟨e, _, _, he, Or.inr ⟨hc, hrest⟩⟩
  · rintro ⟨e, k, vs, he, ⟨comma, rest, hc, rfl, hrest⟩ | ⟨hc, hrest⟩⟩
    · exact ⟨e, _, _, he, _, _, _, ⟨rfl, Or.inl ⟨comma, rfl, hc, rfl⟩⟩, hrest⟩
    · exact ⟨e, _, _, he, _, _, _, ⟨rfl, Or.inr ⟨rfl, hc, rfl⟩⟩, hrest⟩

theorem accepts_suffixes_stop {steps : Nat} (hparen : (ts.headD eof).kind ≠ .leftParen)
    (hdot : (ts.headD eof).kind ≠ .dot) :
    Accepts eof bag (suffixes inner (steps + 1) left) n ts e m us ↔
      e = left ∧ m = n ∧ us = ts := by
  rw [suffixes, accepts_peek_bind]
  split
  next heq => exact absurd heq hparen
  next heq => exact absurd heq hdot
  next => exact accepts_pure

theorem accepts_suffixes_call (heof : eof.kind = .eof) (h : Orderly inner) {steps : Nat}
    {t : Token} (ht : t.kind = .leftParen) :
    Accepts eof bag (suffixes inner (steps + 1) left) n (t :: ts) e m us ↔
      ∃ (args : List Expr) (k : Nat) (close : Token) (rest : List Token),
        AcceptsList eof bag (arguments inner steps []) .rightParen n ts args k
          (close :: rest) ∧ close.kind = .rightParen ∧
        Accepts eof bag (suffixes inner steps (.call left args (left.span.join close.range)))
          k rest e m us := by
  have hte : t.kind ≠ .eof := by rw [ht]; decide
  rw [suffixes, accepts_peek_bind]
  simp only [List.headD_cons, ht]
  rw [accepts_skip_bind hte]
  refine (exact_list_bind (orderly_arguments h steps []) (fun _ =>
    (exact_expect heof _ _ (by decide)).bind fun _ =>
      (orderly_suffixes h steps _).exact) .rightParen).accepts_iff.trans ?_
  constructor
  · rintro ⟨args, k, _, hargs, close, _, rest, ⟨rfl, hclose, rfl⟩, hrest⟩
    exact ⟨args, _, close, rest, hargs, hclose, hrest⟩
  · rintro ⟨args, k, close, rest, hargs, hclose, hrest⟩
    exact ⟨args, k, _, hargs, close, _, rest, ⟨rfl, hclose, rfl⟩, hrest⟩

theorem accepts_suffixes_property (heof : eof.kind = .eof) (h : Orderly inner) {steps : Nat}
    {t : Token} (ht : t.kind = .dot) :
    Accepts eof bag (suffixes inner (steps + 1) left) n (t :: ts) e m us ↔
      ∃ (name : Token) (rest : List Token), name.kind = .identifier ∧ ts = name :: rest ∧
        Accepts eof bag
          (suffixes inner steps (.get left (nameOf name) (left.span.join name.range)))
          n rest e m us := by
  have hte : t.kind ≠ .eof := by rw [ht]; decide
  rw [suffixes, accepts_peek_bind]
  simp only [List.headD_cons, ht]
  rw [accepts_skip_bind hte]
  refine ((exact_expectName heof _).bind fun _ =>
    (orderly_suffixes h steps _).exact).accepts_iff.trans ?_
  constructor
  · rintro ⟨_, _, rest, ⟨rfl, name, hname, rfl, rfl⟩, hrest⟩
    exact ⟨name, rest, hname, rfl, hrest⟩
  · rintro ⟨name, rest, hname, rfl, hrest⟩
    exact ⟨_, _, rest, ⟨rfl, name, hname, rfl, rfl⟩, hrest⟩

theorem accepts_unary_stop {steps : Nat} (hop : unaryOp? (ts.headD eof).kind = none) :
    Accepts eof bag (unary operand (steps + 1)) n ts e m us ↔
      Accepts eof bag operand n ts e m us := by
  rw [unary, accepts_peek_bind, hop]

theorem accepts_unary_operator (h : Orderly operand) {steps : Nat} {t : Token} {op : UnaryOp}
    (hop : unaryOp? t.kind = some op) :
    Accepts eof bag (unary operand (steps + 1)) n (t :: ts) e m us ↔
      ∃ e', Accepts eof bag (unary operand steps) n ts e' m us ∧
        e = .unary op e' (t.range.join e'.span) := by
  have hte : t.kind ≠ .eof := by
    intro heq
    rw [heq] at hop
    cases hop
  rw [unary, accepts_peek_bind]
  simp only [List.headD_cons, hop]
  rw [accepts_skip_bind hte]
  refine ((orderly_unary h steps).exact.bind fun _ => exact_pure _).accepts_iff.trans ?_
  constructor
  · rintro ⟨e', _, _, he, rfl, rfl, rfl⟩
    exact ⟨e', he, rfl⟩
  · rintro ⟨e', he, rfl⟩
    exact ⟨e', _, _, he, rfl, rfl, rfl⟩

theorem accepts_assignTo {target value : Expr} {equals : Range} :
    Accepts eof bag (assignTo target value equals) n ts e m us ↔
      us = ts ∧
        ((∃ id name, target = .var id name ∧ m = n + 1 ∧
            e = .assign (n + 1) name value (target.span.join value.span)) ∨
          ∃ object name span, target = .get object name span ∧ m = n ∧
            e = .set object name value (target.span.join value.span)) := by
  unfold assignTo
  split
  next id name =>
    refine (exact_nextId.bind fun _ => exact_pure _).accepts_iff.trans ?_
    constructor
    · rintro ⟨_, _, _, ⟨rfl, rfl, rfl⟩, rfl, rfl, rfl⟩
      exact ⟨rfl, Or.inl ⟨id, name, rfl, rfl, rfl⟩⟩
    · rintro ⟨rfl, ⟨_, _, heq, rfl, rfl⟩ | ⟨_, _, _, heq, _⟩⟩
      · cases heq
        exact ⟨_, _, _, ⟨rfl, rfl, rfl⟩, rfl, rfl, rfl⟩
      · cases heq
  next object name span =>
    refine accepts_pure.trans ?_
    constructor
    · rintro ⟨rfl, rfl, rfl⟩
      exact ⟨rfl, Or.inr ⟨object, name, span, rfl, rfl, rfl⟩⟩
    · rintro ⟨rfl, ⟨_, _, heq, _⟩ | ⟨_, _, _, heq, rfl, rfl⟩⟩
      · cases heq
      · cases heq
        exact ⟨rfl, rfl, rfl⟩
  next hvar hget =>
    rw [accepts_bind (orderly_complain _ _) fun _ => orderly_pure _]
    simp only [not_accepts_complain, false_and, exists_false, false_iff]
    rintro ⟨_, ⟨id, name, heq, _⟩ | ⟨object, name, span, heq, _⟩⟩
    · exact hvar id name heq
    · exact hget object name span heq

theorem accepts_expression (heof : eof.kind = .eof) (steps : Nat) :
    Accepts eof bag (expression (steps + 1)) n ts e m us ↔
      ∃ target k vs,
        Accepts eof bag (climb (Parser.operand (expression steps) (steps + 1)) (steps + 1) 1)
          n ts target k vs ∧
        (((vs.headD eof).kind ≠ .equal ∧ e = target ∧ m = k ∧ us = vs) ∨
          ∃ (equals : Token) (rest : List Token) (value : Expr) (j : Nat) (ws : List Token),
            vs = equals :: rest ∧ equals.kind = .equal ∧
            Accepts eof bag (expression steps) k rest value j ws ∧
            Accepts eof bag (assignTo target value equals.range) j ws e m us) := by
  have hclimb := (orderly_climb_extend (orderly_operand (orderly_expression steps) (steps + 1))
    (steps + 1)).1 1
  rw [expression]
  refine (hclimb.exact.bind fun target => (exact_accept? heof .equal (by decide)).bind
    (S := fun found => found.elim
      (fun n ts b m us => b = target ∧ m = n ∧ us = ts)
      fun equals n ts b m us => ∃ value j ws,
        Accepts eof bag (expression steps) n ts value j ws ∧
          Accepts eof bag (assignTo target value equals.range) j ws b m us)
    fun found => ?_).accepts_iff.trans ?_
  · cases found with
    | none => exact exact_pure _
    | some equals =>
        exact (orderly_expression steps).exact.bind fun value =>
          (orderly_assignTo target value equals.range).exact
  · constructor
    · rintro ⟨target, k, vs, ht, _, _, _, ⟨rfl, ⟨equals, rfl, heq, rfl⟩ | ⟨rfl, heq, rfl⟩⟩, hr⟩
      · obtain ⟨value, j, ws, hv, ha⟩ := hr
        exact ⟨target, _, _, ht, Or.inr ⟨equals, _, value, j, ws, rfl, heq, hv, ha⟩⟩
      · exact ⟨target, _, _, ht, Or.inl ⟨heq, hr⟩⟩
    · rintro ⟨target, k, vs, ht, ⟨heq, hr⟩ | ⟨equals, rest, value, j, ws, rfl, heq, hv, ha⟩⟩
      · exact ⟨target, _, _, ht, _, _, _, ⟨rfl, Or.inr ⟨rfl, heq, rfl⟩⟩, hr⟩
      · exact ⟨target, _, _, ht, _, _, _, ⟨rfl, Or.inl ⟨equals, rfl, heq, rfl⟩⟩, value, j, ws,
          hv, ha⟩

end Expressions

/-! ## Simple statements -/

section Statements

variable {expr : Parser Expr} {stmt : Parser Stmt} {decl : Parser (Option Stmt)} {s : Stmt}

theorem accepts_variableRest (heof : eof.kind = .eof) (h : Orderly expr) {start : Range} :
    Accepts eof bag (variableRest expr start) n ts s m us ↔
      ∃ (name : Token) (semi : Token), name.kind = .identifier ∧ semi.kind = .semicolon ∧
        ((ts = name :: semi :: us ∧ m = n ∧
            s = .var (nameOf name) none (start.join semi.range)) ∨
          ∃ (equals : Token) (rest : List Token) (e : Expr), ts = name :: equals :: rest ∧
            equals.kind = .equal ∧ Accepts eof bag expr n rest e m (semi :: us) ∧
            s = .var (nameOf name) (some e) (start.join semi.range)) := by
  unfold variableRest
  refine ((exact_expectName heof _).bind fun name => (exact_accept? heof .equal
    (by decide)).bind
    (S := fun found => found.elim
      (fun n ts b m us => ∃ close j ws,
        (j = n ∧ close.kind = .semicolon ∧ ts = close :: ws) ∧
          b = .var name none (start.join close.range) ∧ m = j ∧ us = ws)
      fun _ n ts b m us => ∃ e k vs, Accepts eof bag expr n ts e k vs ∧
        ∃ close j ws, (j = k ∧ close.kind = .semicolon ∧ vs = close :: ws) ∧
          b = .var name (some e) (start.join close.range) ∧ m = j ∧ us = ws)
    fun found => ?_).accepts_iff.trans ?_
  · cases found with
    | some _ =>
        exact h.exact.bind fun e => (exact_expect heof .semicolon
          (utf8 "';' after variable declaration") (by decide)).bind fun close =>
            exact_pure (Stmt.var name (some e) (start.join close.range))
    | none =>
        exact (exact_expect heof .semicolon (utf8 "';' after variable declaration")
          (by decide)).bind fun close =>
            exact_pure (Stmt.var name none (start.join close.range))
  · constructor
    · rintro ⟨_, _, _, ⟨rfl, name, hname, rfl, rfl⟩, _, _, _,
        ⟨rfl, ⟨equals, rfl, heq, rfl⟩ | ⟨rfl, heq, rfl⟩⟩, hr⟩
      · obtain ⟨e, _, _, he, semi, _, _, ⟨rfl, hsemi, rfl⟩, rfl, rfl, rfl⟩ := hr
        exact ⟨name, semi, hname, hsemi, Or.inr ⟨equals, _, e, rfl, heq, he, rfl⟩⟩
      · obtain ⟨semi, _, _, ⟨rfl, hsemi, rfl⟩, rfl, rfl, rfl⟩ := hr
        exact ⟨name, semi, hname, hsemi, Or.inl ⟨rfl, rfl, rfl⟩⟩
    · rintro ⟨name, semi, hname, hsemi, ⟨rfl, rfl, rfl⟩ | ⟨equals, rest, e, rfl, heq, he, rfl⟩⟩
      · have hne : ((semi :: us).headD eof).kind ≠ .equal := by
          rw [List.headD_cons, hsemi]
          decide
        exact ⟨_, _, _, ⟨rfl, name, hname, rfl, rfl⟩, _, _, _, ⟨rfl, Or.inr ⟨rfl, hne, rfl⟩⟩,
          semi, _, _, ⟨rfl, hsemi, rfl⟩, rfl, rfl, rfl⟩
      · exact ⟨_, _, _, ⟨rfl, name, hname, rfl, rfl⟩, _, _, _,
          ⟨rfl, Or.inl ⟨equals, rfl, heq, rfl⟩⟩, e, _, _, he, semi, _, _, ⟨rfl, hsemi, rfl⟩,
          rfl, rfl, rfl⟩

/-- An expression with a semicolon behind it, and what is made of the two. -/
theorem accepts_closed (heof : eof.kind = .eof) (h : Orderly expr) {wanted : Bytes}
    {make : Expr → Token → Stmt} :
    Accepts eof bag (do
      let e ← expr
      let close ← expect .semicolon wanted
      return make e close) n ts s m us ↔
      ∃ (e : Expr) (semi : Token), Accepts eof bag expr n ts e m (semi :: us) ∧
        semi.kind = .semicolon ∧ s = make e semi := by
  refine (h.exact.bind fun _ => (exact_expect heof _ _ (by decide)).bind fun _ =>
    exact_pure _).accepts_iff.trans ?_
  constructor
  · rintro ⟨e, _, _, he, semi, _, _, ⟨rfl, hsemi, rfl⟩, rfl, rfl, rfl⟩
    exact ⟨e, semi, he, hsemi, rfl⟩
  · rintro ⟨e, semi, he, hsemi, rfl⟩
    exact ⟨e, _, _, he, semi, _, _, ⟨rfl, hsemi, rfl⟩, rfl, rfl, rfl⟩

theorem accepts_returnRest (heof : eof.kind = .eof) (h : Orderly expr) {start : Range} :
    Accepts eof bag (returnRest expr start) n ts s m us ↔
      ∃ (value : Option Expr) (semi : Token),
        AcceptsOptional eof bag expr .semicolon n ts value m (semi :: us) ∧
          semi.kind = .semicolon ∧ s = .ret start value (start.join semi.range) := by
  refine (exact_optional_bind h (fun _ => (exact_expect heof _ _ (by decide)).bind fun _ =>
    exact_pure _) .semicolon).accepts_iff.trans ?_
  constructor
  · rintro ⟨value, _, _, hv, semi, _, _, ⟨rfl, hsemi, rfl⟩, rfl, rfl, rfl⟩
    exact ⟨value, semi, hv, hsemi, rfl⟩
  · rintro ⟨value, semi, hv, hsemi, rfl⟩
    exact ⟨value, _, _, hv, semi, _, _, ⟨rfl, hsemi, rfl⟩, rfl, rfl, rfl⟩

/-! ## Control flow -/

theorem accepts_condition (heof : eof.kind = .eof) (h : Orderly expr) {test : Expr} :
    Accepts eof bag (condition expr) n ts test m us ↔
      ∃ (left : Token) (rest : List Token) (right : Token), left.kind = .leftParen ∧
        ts = left :: rest ∧ Accepts eof bag expr n rest test m (right :: us) ∧
        right.kind = .rightParen := by
  refine ((exact_expect heof _ _ (by decide)).bind fun _ => h.exact.bind fun _ =>
    (exact_expect heof _ _ (by decide)).bind fun _ => exact_pure _).accepts_iff.trans ?_
  constructor
  · rintro ⟨left, _, rest, ⟨rfl, hleft, rfl⟩, test, _, _, ht, right, _, _,
      ⟨rfl, hright, rfl⟩, rfl, rfl, rfl⟩
    exact ⟨left, rest, right, hleft, rfl, ht, hright⟩
  · rintro ⟨left, rest, right, hleft, rfl, ht, hright⟩
    exact ⟨left, _, rest, ⟨rfl, hleft, rfl⟩, test, _, _, ht, right, _, _,
      ⟨rfl, hright, rfl⟩, rfl, rfl, rfl⟩

theorem accepts_ifRest (heof : eof.kind = .eof) (h : Orderly expr) (hs : Orderly stmt)
    {start : Range} :
    Accepts eof bag (ifRest expr stmt start) n ts s m us ↔
      ∃ test k vs a j ws, Accepts eof bag (condition expr) n ts test k vs ∧
        Accepts eof bag stmt k vs a j ws ∧
        (((ws.headD eof).kind ≠ .keyword .elseWord ∧ m = j ∧ us = ws ∧
            s = .cond test a none (start.join a.span)) ∨
          ∃ (els : Token) (rest : List Token) (b : Stmt), ws = els :: rest ∧
            els.kind = .keyword .elseWord ∧ Accepts eof bag stmt j rest b m us ∧
            s = .cond test a (some b) (start.join b.span)) := by
  refine ((orderly_condition h).exact.bind fun test => hs.exact.bind fun a =>
    (exact_accept? heof (.keyword .elseWord) (by decide)).bind
    (S := fun found => found.elim
      (fun n ts s m us => s = .cond test a none (start.join a.span) ∧ m = n ∧ us = ts)
      fun _ n ts s m us => ∃ b k vs, Accepts eof bag stmt n ts b k vs ∧
        s = .cond test a (some b) (start.join b.span) ∧ m = k ∧ us = vs)
    fun found => ?_).accepts_iff.trans ?_
  · cases found with
    | some _ => exact hs.exact.bind fun b => exact_pure _
    | none => exact exact_pure _
  · constructor
    · rintro ⟨test, k, vs, ht, a, _, _, ha, _, _, _,
        ⟨rfl, ⟨els, rfl, hels, rfl⟩ | ⟨rfl, hels, rfl⟩⟩, hr⟩
      · obtain ⟨b, _, _, hb, rfl, rfl, rfl⟩ := hr
        exact ⟨test, k, vs, a, _, _, ht, ha, Or.inr ⟨els, _, b, rfl, hels, hb, rfl⟩⟩
      · obtain ⟨rfl, rfl, rfl⟩ := hr
        exact ⟨test, k, vs, a, _, _, ht, ha, Or.inl ⟨hels, rfl, rfl, rfl⟩⟩
    · rintro ⟨test, k, vs, a, j, ws, ht, ha,
        ⟨hels, rfl, rfl, rfl⟩ | ⟨els, rest, b, rfl, hels, hb, rfl⟩⟩
      · exact ⟨test, k, vs, ht, a, _, _, ha, _, _, _, ⟨rfl, Or.inr ⟨rfl, hels, rfl⟩⟩,
          rfl, rfl, rfl⟩
      · exact ⟨test, k, vs, ht, a, _, _, ha, _, _, _, ⟨rfl, Or.inl ⟨els, rfl, hels, rfl⟩⟩,
          b, _, _, hb, rfl, rfl, rfl⟩

theorem accepts_whileRest (h : Orderly expr) (hs : Orderly stmt) {start : Range} :
    Accepts eof bag (whileRest expr stmt start) n ts s m us ↔
      ∃ test k vs body, Accepts eof bag (condition expr) n ts test k vs ∧
        Accepts eof bag stmt k vs body m us ∧ s = .loop test body (start.join body.span) := by
  refine ((orderly_condition h).exact.bind fun _ => hs.exact.bind fun _ =>
    exact_pure _).accepts_iff.trans ?_
  constructor
  · rintro ⟨test, k, vs, ht, body, _, _, hb, rfl, rfl, rfl⟩
    exact ⟨test, k, vs, body, ht, hb, rfl⟩
  · rintro ⟨test, k, vs, body, ht, hb, rfl⟩
    exact ⟨test, k, vs, ht, body, _, _, hb, rfl, rfl, rfl⟩

theorem accepts_some {α : Type} {p : Parser α} (hp : Orderly p) {a : Option α} :
    Accepts eof bag (do let s ← p; return some s) n ts a m us ↔
      ∃ s, Accepts eof bag p n ts s m us ∧ a = some s := by
  refine (hp.exact.bind fun _ => exact_pure _).accepts_iff.trans ?_
  constructor
  · rintro ⟨s, _, _, hs, rfl, rfl, rfl⟩
    exact ⟨s, hs, rfl⟩
  · rintro ⟨s, hs, rfl⟩
    exact ⟨s, _, _, hs, rfl, rfl, rfl⟩

theorem accepts_forInit_none {t : Token} (ht : t.kind = .semicolon) {init : Option Stmt} :
    Accepts eof bag (forInit expr) n (t :: ts) init m us ↔ init = none ∧ m = n ∧ us = ts := by
  have hte : t.kind ≠ .eof := by rw [ht]; decide
  unfold forInit
  rw [accepts_peek_bind]
  simp only [List.headD_cons, ht]
  rw [accepts_skip_bind hte]
  exact accepts_pure

theorem accepts_forInit_variable (h : Orderly expr) {t : Token}
    (ht : t.kind = .keyword .varWord) {init : Option Stmt} :
    Accepts eof bag (forInit expr) n (t :: ts) init m us ↔
      ∃ s, Accepts eof bag (variableRest expr t.range) n ts s m us ∧ init = some s := by
  have hte : t.kind ≠ .eof := by rw [ht]; decide
  unfold forInit
  rw [accepts_peek_bind]
  simp only [List.headD_cons, ht]
  rw [accepts_skip_bind hte]
  exact accepts_some (orderly_variableRest h t.range)

theorem accepts_forInit_expr (heof : eof.kind = .eof) (h : Orderly expr)
    (hsemi : (ts.headD eof).kind ≠ .semicolon)
    (hvar : (ts.headD eof).kind ≠ .keyword .varWord) {init : Option Stmt} :
    Accepts eof bag (forInit expr) n ts init m us ↔
      ∃ (e : Expr) (semi : Token), Accepts eof bag expr n ts e m (semi :: us) ∧
        semi.kind = .semicolon ∧ init = some (.expr e (e.span.join semi.range)) := by
  unfold forInit
  rw [accepts_peek_bind]
  split
  next heq => exact absurd heq hsemi
  next heq => exact absurd heq hvar
  next =>
    rw [accepts_some (orderly_expressionStatement h _)]
    simp only [expressionStatement, accepts_closed heof h]
    constructor
    · rintro ⟨_, ⟨e, semi, he, hs, rfl⟩, rfl⟩
      exact ⟨e, semi, he, hs, rfl⟩
    · rintro ⟨e, semi, he, hs, rfl⟩
      exact ⟨_, ⟨e, semi, he, hs, rfl⟩, rfl⟩

theorem accepts_forRest (heof : eof.kind = .eof) (h : Orderly expr) (hs : Orderly stmt)
    {start : Range} :
    Accepts eof bag (forRest expr stmt start) n ts s m us ↔
      ∃ (left : Token) (rest : List Token) (init : Option Stmt) (n₁ : Nat) (ts₁ : List Token)
        (test : Option Expr) (n₂ : Nat) (semi : Token) (ts₂ : List Token)
        (step : Option Expr) (n₃ : Nat) (right : Token) (ts₃ : List Token) (body : Stmt),
        left.kind = .leftParen ∧ ts = left :: rest ∧
        Accepts eof bag (forInit expr) n rest init n₁ ts₁ ∧
        AcceptsOptional eof bag expr .semicolon n₁ ts₁ test n₂ (semi :: ts₂) ∧
        semi.kind = .semicolon ∧
        AcceptsOptional eof bag expr .rightParen n₂ ts₂ step n₃ (right :: ts₃) ∧
        right.kind = .rightParen ∧ Accepts eof bag stmt n₃ ts₃ body m us ∧
        s = forLoop init (test.getD (.literal (.bool true) semi.range)) step body
          (start.join body.span) := by
  refine ((exact_expect heof _ _ (by decide)).bind fun _ =>
    (orderly_forInit h).exact.bind fun _ => exact_optional_bind h (fun _ =>
      (exact_expect heof _ _ (by decide)).bind fun _ => exact_optional_bind h (fun _ =>
        (exact_expect heof _ _ (by decide)).bind fun _ => hs.exact.bind fun _ =>
          exact_pure _) .rightParen) .semicolon).accepts_iff.trans ?_
  constructor
  · rintro ⟨left, _, rest, ⟨rfl, hleft, rfl⟩, init, n₁, ts₁, hinit, test, _, _, htest,
      semi, _, _, ⟨rfl, hsemi, rfl⟩, step, _, _, hstep, right, _, _, ⟨rfl, hright, rfl⟩,
      body, _, _, hbody, rfl, rfl, rfl⟩
    exact ⟨left, rest, init, n₁, ts₁, test, _, semi, _, step, _, right, _, body, hleft, rfl,
      hinit, htest, hsemi, hstep, hright, hbody, rfl⟩
  · rintro ⟨left, rest, init, n₁, ts₁, test, n₂, semi, ts₂, step, n₃, right, ts₃, body, hleft,
      rfl, hinit, htest, hsemi, hstep, hright, hbody, rfl⟩
    exact ⟨left, _, rest, ⟨rfl, hleft, rfl⟩, init, n₁, ts₁, hinit, test, _, _, htest,
      semi, _, _, ⟨rfl, hsemi, rfl⟩, step, _, _, hstep, right, _, _, ⟨rfl, hright, rfl⟩,
      body, _, _, hbody, rfl, rfl, rfl⟩

/-! ## Blocks, functions and classes -/

/-- Whether a block ends at the head of the tokens. -/
def BlockEnd (eof : Token) (ts : List Token) : Prop :=
  (ts.headD eof).kind = .rightBrace ∨ (ts.headD eof).kind = .eof

theorem accepts_atBlockEnd_bind {β : Type} {f : Bool → Parser β} {b : β} :
    Accepts eof bag (atBlockEnd >>= f) n ts b m us ↔
      Accepts eof bag (f ((ts.headD eof).kind = .rightBrace || (ts.headD eof).kind = .eof))
        n ts b m us := Iff.rfl

theorem accepts_declarations_stop {steps : Nat} {before body : List Stmt}
    (hend : BlockEnd eof ts) :
    Accepts eof bag (declarations decl (steps + 1) before) n ts body m us ↔
      body = before.reverse ∧ m = n ∧ us = ts := by
  rw [declarations, accepts_atBlockEnd_bind, if_pos (by simpa [BlockEnd] using hend)]
  exact accepts_pure

theorem accepts_declarations (h : Orderly decl) {steps : Nat} {before body : List Stmt}
    (hend : ¬ BlockEnd eof ts) :
    Accepts eof bag (declarations decl (steps + 1) before) n ts body m us ↔
      ∃ found k vs, Accepts eof bag decl n ts found k vs ∧
        Accepts eof bag (declarations decl steps (found.toList ++ before)) k vs body m us := by
  rw [declarations, accepts_atBlockEnd_bind, if_neg (by simpa [BlockEnd] using hend)]
  refine (h.exact.bind
    (S := fun found => Accepts eof bag (declarations decl steps (found.toList ++ before)))
    fun found => ?_).accepts_iff
  cases found with
  | some s => exact (orderly_declarations h steps _).exact
  | none => exact (orderly_declarations h steps _).exact

theorem accepts_blockRest (heof : eof.kind = .eof) (h : Orderly decl) {steps : Nat}
    {r : List Stmt × Range} :
    Accepts eof bag (blockRest decl steps) n ts r m us ↔
      ∃ (body : List Stmt) (close : Token),
        Accepts eof bag (declarations decl steps []) n ts body m (close :: us) ∧
        close.kind = .rightBrace ∧ r = (body, close.range) := by
  refine ((orderly_declarations h steps []).exact.bind fun _ =>
    (exact_expect heof _ _ (by decide)).bind fun _ => exact_pure _).accepts_iff.trans ?_
  constructor
  · rintro ⟨body, _, _, hb, close, _, _, ⟨rfl, hclose, rfl⟩, rfl, rfl, rfl⟩
    exact ⟨body, close, hb, hclose, rfl⟩
  · rintro ⟨body, close, hb, hclose, rfl⟩
    exact ⟨body, _, _, hb, close, _, _, ⟨rfl, hclose, rfl⟩, rfl, rfl, rfl⟩

theorem accepts_parameters (heof : eof.kind = .eof) (steps : Nat) {before ps : List Name} :
    Accepts eof bag (parameters (steps + 1) before) n ts ps m us ↔
      ∃ (name : Token) (vs : List Token), name.kind = .identifier ∧ ts = name :: vs ∧
        ((∃ (comma : Token) (rest : List Token), comma.kind = .comma ∧ vs = comma :: rest ∧
            Accepts eof bag (parameters steps (nameOf name :: before)) n rest ps m us) ∨
          ((vs.headD eof).kind ≠ .comma ∧ ps = (nameOf name :: before).reverse ∧ m = n ∧
            us = vs)) := by
  refine ((exact_expectName heof _).bind fun name =>
    (exact_accept? heof .comma (by decide)).bind
    (S := fun found => found.elim
      (fun n ts b m us => b = (name :: before).reverse ∧ m = n ∧ us = ts)
      fun _ => Accepts eof bag (parameters steps (name :: before)))
    fun found => ?_).accepts_iff.trans ?_
  · cases found with
    | some _ => exact (orderly_parameters steps _).exact
    | none => exact exact_pure _
  · constructor
    · rintro ⟨_, _, vs, ⟨rfl, name, hname, rfl, rfl⟩, _, _, _,
        ⟨rfl, ⟨comma, rfl, hc, rfl⟩ | ⟨rfl, hc, rfl⟩⟩, hr⟩
      · exact ⟨name, _, hname, rfl, Or.inl ⟨comma, _, hc, rfl, hr⟩⟩
      · exact ⟨name, _, hname, rfl, Or.inr ⟨hc, hr⟩⟩
    · rintro ⟨name, vs, hname, rfl, ⟨comma, rest, hc, rfl, hr⟩ | ⟨hc, hr⟩⟩
      · exact ⟨_, _, _, ⟨rfl, name, hname, rfl, rfl⟩, _, _, _,
          ⟨rfl, Or.inl ⟨comma, rfl, hc, rfl⟩⟩, hr⟩
      · exact ⟨_, _, _, ⟨rfl, name, hname, rfl, rfl⟩, _, _, _,
          ⟨rfl, Or.inr ⟨rfl, hc, rfl⟩⟩, hr⟩

theorem accepts_functionRest (heof : eof.kind = .eof) (h : Orderly decl) {steps : Nat}
    {kind : FunctionKind} {start : Range} {f : Function} :
    Accepts eof bag (functionRest decl steps kind start) n ts f m us ↔
      ∃ (name left : Token) (ts₁ : List Token) (params : List Name) (k : Nat)
        (right brace : Token) (ts₂ : List Token) (body : List Stmt) (close : Token),
        name.kind = .identifier ∧ left.kind = .leftParen ∧ ts = name :: left :: ts₁ ∧
        AcceptsList eof bag (parameters steps []) .rightParen n ts₁ params k
          (right :: brace :: ts₂) ∧
        right.kind = .rightParen ∧ brace.kind = .leftBrace ∧
        Accepts eof bag (declarations decl steps []) k ts₂ body m (close :: us) ∧
        close.kind = .rightBrace ∧
        f = .mk (declaredKind kind (nameOf name)) (nameOf name) params body
          (start.join close.range) := by
  refine ((exact_expectName heof _).bind fun _ => (exact_expect heof _ _ (by decide)).bind
    fun _ => exact_list_bind (orderly_parameters steps []) (fun _ =>
      (exact_expect heof _ _ (by decide)).bind fun _ =>
        (exact_expect heof _ _ (by decide)).bind fun _ =>
          (orderly_blockRest h steps).exact.bind fun _ => exact_pure _)
      .rightParen).accepts_iff.trans ?_
  simp only [accepts_blockRest heof h]
  constructor
  · rintro ⟨_, _, _, ⟨rfl, name, hname, rfl, rfl⟩, left, _, _, ⟨rfl, hleft, rfl⟩, params, _, _,
      hparams, right, _, _, ⟨rfl, hright, rfl⟩, brace, _, _, ⟨rfl, hbrace, rfl⟩, _, _, _,
      ⟨body, close, hbody, hclose, rfl⟩, rfl, rfl, rfl⟩
    exact ⟨name, left, _, params, _, right, brace, _, body, close, hname, hleft, rfl, hparams,
      hright, hbrace, hbody, hclose, rfl⟩
  · rintro ⟨name, left, ts₁, params, k, right, brace, ts₂, body, close, hname, hleft, rfl,
      hparams, hright, hbrace, hbody, hclose, rfl⟩
    exact ⟨_, _, _, ⟨rfl, name, hname, rfl, rfl⟩, left, _, _, ⟨rfl, hleft, rfl⟩, params, _, _,
      hparams, right, _, _, ⟨rfl, hright, rfl⟩, brace, _, _, ⟨rfl, hbrace, rfl⟩, _, _, _,
      ⟨body, close, hbody, hclose, rfl⟩, rfl, rfl, rfl⟩

theorem accepts_methods_stop {steps : Nat} {before fs : List Function}
    (hend : BlockEnd eof ts) :
    Accepts eof bag (methods decl (steps + 1) before) n ts fs m us ↔
      fs = before.reverse ∧ m = n ∧ us = ts := by
  rw [methods, accepts_atBlockEnd_bind, if_pos (by simpa [BlockEnd] using hend)]
  exact accepts_pure

theorem accepts_methods (h : Orderly decl) {steps : Nat} {before fs : List Function}
    (hend : ¬ BlockEnd eof ts) :
    Accepts eof bag (methods decl (steps + 1) before) n ts fs m us ↔
      ∃ f k vs,
        Accepts eof bag (functionRest decl steps .method (ts.headD eof).range) n ts f k vs ∧
        Accepts eof bag (methods decl steps (f :: before)) k vs fs m us := by
  rw [methods, accepts_atBlockEnd_bind, if_neg (by simpa [BlockEnd] using hend),
    accepts_peek_bind]
  exact accepts_bind (orderly_functionRest h steps _ _) fun f => orderly_methods h steps _

theorem accepts_superclass? (heof : eof.kind = .eof) {parent : Option Superclass} :
    Accepts eof bag superclass? n ts parent m us ↔
      ((ts.headD eof).kind ≠ .less ∧ parent = none ∧ m = n ∧ us = ts) ∨
        ∃ less name : Token, less.kind = .less ∧ name.kind = .identifier ∧
          ts = less :: name :: us ∧ m = n + 1 ∧ parent = some ⟨n + 1, nameOf name⟩ := by
  refine ((exact_accept? heof .less (by decide)).bind
    (S := fun found => found.elim
      (fun n ts b m us => b = none ∧ m = n ∧ us = ts)
      fun _ n ts b m us => ∃ name k vs,
        (k = n ∧ ∃ t : Token, t.kind = .identifier ∧ name = ⟨t.text, t.range⟩ ∧ ts = t :: vs) ∧
          ∃ id j ws, (id = k + 1 ∧ j = k + 1 ∧ ws = vs) ∧
            b = some (⟨id, name⟩ : Superclass) ∧ m = j ∧ us = ws)
    fun found => ?_).accepts_iff.trans ?_
  · cases found with
    | none => exact exact_pure _
    | some _ =>
        exact (exact_expectName heof _).bind fun _ => exact_nextId.bind fun _ => exact_pure _
  · constructor
    · rintro ⟨_, _, _, ⟨rfl, ⟨less, rfl, hless, rfl⟩ | ⟨rfl, hless, rfl⟩⟩, hr⟩
      · obtain ⟨_, _, _, ⟨rfl, name, hname, rfl, rfl⟩, _, _, _, ⟨rfl, rfl, rfl⟩, rfl, rfl,
          rfl⟩ := hr
        exact Or.inr ⟨less, name, hless, hname, rfl, rfl, rfl⟩
      · exact Or.inl ⟨hless, hr⟩
    · rintro (⟨hless, hr⟩ | ⟨less, name, hless, hname, rfl, rfl, rfl⟩)
      · exact ⟨_, _, _, ⟨rfl, Or.inr ⟨rfl, hless, rfl⟩⟩, hr⟩
      · exact ⟨_, _, _, ⟨rfl, Or.inl ⟨less, rfl, hless, rfl⟩⟩, _, _, _,
          ⟨rfl, name, hname, rfl, rfl⟩, _, _, _, ⟨rfl, rfl, rfl⟩, rfl, rfl, rfl⟩

theorem accepts_classRest (heof : eof.kind = .eof) (h : Orderly decl) {steps : Nat}
    {start : Range} :
    Accepts eof bag (classRest decl steps start) n ts s m us ↔
      ∃ (name : Token) (ts₁ : List Token) (parent : Option Superclass) (k : Nat)
        (brace : Token) (ts₂ : List Token) (fs : List Function) (close : Token),
        name.kind = .identifier ∧ ts = name :: ts₁ ∧
        Accepts eof bag superclass? n ts₁ parent k (brace :: ts₂) ∧ brace.kind = .leftBrace ∧
        Accepts eof bag (methods decl steps []) k ts₂ fs m (close :: us) ∧
        close.kind = .rightBrace ∧
        s = .classDecl (nameOf name) parent fs (start.join close.range) := by
  refine ((exact_expectName heof _).bind fun _ => orderly_superclass?.exact.bind fun _ =>
    (exact_expect heof _ _ (by decide)).bind fun _ =>
      (orderly_methods h steps []).exact.bind fun _ =>
        (exact_expect heof _ _ (by decide)).bind fun _ => exact_pure _).accepts_iff.trans ?_
  constructor
  · rintro ⟨_, _, _, ⟨rfl, name, hname, rfl, rfl⟩, parent, _, _, hparent, brace, _, _,
      ⟨rfl, hbrace, rfl⟩, fs, _, _, hfs, close, _, _, ⟨rfl, hclose, rfl⟩, rfl, rfl, rfl⟩
    exact ⟨name, _, parent, _, brace, _, fs, close, hname, rfl, hparent, hbrace, hfs, hclose,
      rfl⟩
  · rintro ⟨name, ts₁, parent, k, brace, ts₂, fs, close, hname, rfl, hparent, hbrace, hfs,
      hclose, rfl⟩
    exact ⟨_, _, _, ⟨rfl, name, hname, rfl, rfl⟩, parent, _, _, hparent, brace, _, _,
      ⟨rfl, hbrace, rfl⟩, fs, _, _, hfs, close, _, _, ⟨rfl, hclose, rfl⟩, rfl, rfl, rfl⟩

/-! ## Statements and declarations -/

/-- How a statement goes on after its first token, if it is not an expression. -/
def statementRest (decl : Parser (Option Stmt)) (stmt : Parser Stmt) (steps : Nat) :
    Kind → Option (Range → Parser Stmt)
  | .keyword .forWord => some (forRest (expression steps) stmt)
  | .keyword .ifWord => some (ifRest (expression steps) stmt)
  | .keyword .printWord => some (printRest (expression steps))
  | .keyword .assertWord => some (assertRest (expression steps))
  | .keyword .whileWord => some (whileRest (expression steps) stmt)
  | .keyword .returnWord => some (returnRest (expression steps))
  | .leftBrace => some fun start => do
      let (body, close) ← blockRest decl steps
      return .block body (start.join close)
  | _ => none

theorem statementWith_eq (decl : Parser (Option Stmt)) (stmt : Parser Stmt) (steps : Nat) :
    statementWith decl stmt steps = peek >>= fun token =>
      match statementRest decl stmt steps token.kind with
      | some rest => skip >>= fun _ => rest token.range
      | none => expressionStatement (expression steps) (utf8 "';' after expression") := by
  refine congrArg (peek >>= ·) (funext fun token => ?_)
  cases token.kind with
  | keyword word => cases word <;> rfl
  | _ => rfl

theorem accepts_statementWith_rest {steps : Nat} {t : Token} {p : Range → Parser Stmt}
    (hp : statementRest decl stmt steps t.kind = some p) :
    Accepts eof bag (statementWith decl stmt steps) n (t :: ts) s m us ↔
      Accepts eof bag (p t.range) n ts s m us := by
  have hkind : t.kind ≠ .eof := by
    intro heq
    rw [heq] at hp
    cases hp
  rw [statementWith_eq, accepts_peek_bind, List.headD_cons, hp]
  exact accepts_skip_bind hkind

theorem accepts_statementWith_expr {steps : Nat}
    (hnone : statementRest decl stmt steps (ts.headD eof).kind = none) :
    Accepts eof bag (statementWith decl stmt steps) n ts s m us ↔
      Accepts eof bag (expressionStatement (expression steps) (utf8 "';' after expression"))
        n ts s m us := by
  rw [statementWith_eq, accepts_peek_bind, hnone]

theorem accepts_block (hd : Orderly decl) (heof : eof.kind = .eof) {steps : Nat}
    {start : Range} :
    Accepts eof bag (do
      let (body, close) ← blockRest decl steps
      return .block body (start.join close)) n ts s m us ↔
      ∃ (body : List Stmt) (close : Token),
        Accepts eof bag (declarations decl steps []) n ts body m (close :: us) ∧
          close.kind = .rightBrace ∧ s = .block body (start.join close.range) := by
  refine ((orderly_blockRest hd steps).exact.bind fun _ => exact_pure _).accepts_iff.trans ?_
  simp only [accepts_blockRest heof hd]
  constructor
  · rintro ⟨_, _, _, ⟨body, close, hb, hclose, rfl⟩, rfl, rfl, rfl⟩
    exact ⟨body, close, hb, hclose, rfl⟩
  · rintro ⟨body, close, hb, hclose, rfl⟩
    exact ⟨_, _, _, ⟨body, close, hb, hclose, rfl⟩, rfl, rfl, rfl⟩

/-- How a declaration goes on after its first token, if it is not a statement. -/
def declarationRest (decl : Parser (Option Stmt)) (steps : Nat) :
    Kind → Option (Range → Parser Stmt)
  | .keyword .classWord => some (classRest decl steps)
  | .keyword .funWord => some fun start => do
      let f ← functionRest decl steps .function start
      return .function f
  | .keyword .varWord => some (variableRest (expression steps))
  | _ => none

theorem declarationWith_eq (decl : Parser (Option Stmt)) (stmt : Parser Stmt) (steps : Nat) :
    declarationWith decl stmt steps = peek >>= fun token =>
      match declarationRest decl steps token.kind with
      | some rest => skip >>= fun _ => rest token.range
      | none => statementWith decl stmt steps := by
  refine congrArg (peek >>= ·) (funext fun token => ?_)
  cases token.kind with
  | keyword word => cases word <;> rfl
  | _ => rfl

theorem accepts_declarationWith_rest {steps : Nat} {t : Token} {p : Range → Parser Stmt}
    (hp : declarationRest decl steps t.kind = some p) :
    Accepts eof bag (declarationWith decl stmt steps) n (t :: ts) s m us ↔
      Accepts eof bag (p t.range) n ts s m us := by
  have hkind : t.kind ≠ .eof := by
    intro heq
    rw [heq] at hp
    cases hp
  rw [declarationWith_eq, accepts_peek_bind, List.headD_cons, hp]
  exact accepts_skip_bind hkind

theorem accepts_declarationWith_statement {steps : Nat}
    (hnone : declarationRest decl steps (ts.headD eof).kind = none) :
    Accepts eof bag (declarationWith decl stmt steps) n ts s m us ↔
      Accepts eof bag (statementWith decl stmt steps) n ts s m us := by
  rw [declarationWith_eq, accepts_peek_bind, hnone]

theorem accepts_function (hd : Orderly decl) {steps : Nat} {start : Range} :
    Accepts eof bag (do
      let f ← functionRest decl steps .function start
      return .function f) n ts s m us ↔
      ∃ f, Accepts eof bag (functionRest decl steps .function start) n ts f m us ∧
        s = .function f := by
  refine ((orderly_functionRest hd steps .function start).exact.bind fun _ =>
    exact_pure _).accepts_iff.trans ?_
  constructor
  · rintro ⟨f, _, _, hf, rfl, rfl, rfl⟩
    exact ⟨f, hf, rfl⟩
  · rintro ⟨f, hf, rfl⟩
    exact ⟨f, _, _, hf, rfl, rfl, rfl⟩

theorem accepts_declaration (steps : Nat) {found : Option Stmt} :
    Accepts eof bag (declaration (steps + 1)) n ts found m us ↔
      ∃ s, found = some s ∧ Accepts eof bag
        (declarationWith (declaration steps) (statement steps) (steps + 1)) n ts s m us := by
  rw [declaration]
  exact accepts_recovering (orderly_declarationWith (orderly_statement_declaration steps).2
    (orderly_statement_declaration steps).1 (steps + 1))

theorem accepts_topLevel_stop {steps : Nat} {before body : List Stmt}
    (hend : (ts.headD eof).kind = .eof) :
    Accepts eof bag (topLevel decl (steps + 1) before) n ts body m us ↔
      body = before.reverse ∧ m = n ∧ us = ts := by
  rw [topLevel, accepts_isAt_bind, if_pos (by simpa using hend)]
  exact accepts_pure

theorem accepts_topLevel (h : Orderly decl) {steps : Nat} {before body : List Stmt}
    (hend : (ts.headD eof).kind ≠ .eof) :
    Accepts eof bag (topLevel decl (steps + 1) before) n ts body m us ↔
      ∃ found k vs, Accepts eof bag decl n ts found k vs ∧
        Accepts eof bag (topLevel decl steps (found.toList ++ before)) k vs body m us := by
  rw [topLevel, accepts_isAt_bind, if_neg (by simpa using hend)]
  refine (h.exact.bind
    (S := fun found => Accepts eof bag (topLevel decl steps (found.toList ++ before)))
    fun found => ?_).accepts_iff
  cases found with
  | some s => exact (orderly_topLevel h steps _).exact
  | none => exact (orderly_topLevel h steps _).exact

end Statements

theorem accepts_program {kind : ModuleKind} {steps : Nat} {module : Module} :
    Accepts eof bag (program kind steps) n ts module m us ↔
      ∃ body, Accepts eof bag (topLevel (declaration steps) steps []) n ts body m us ∧
        module = ⟨kind, body, (ts.headD eof).range.join (us.headD eof).range⟩ := by
  unfold program
  rw [accepts_peek_bind]
  refine ((orderly_topLevel (orderly_statement_declaration steps).2 steps []).exact.bind
    fun _ => exact_peek.bind fun _ => exact_pure _).accepts_iff.trans ?_
  constructor
  · rintro ⟨body, _, _, hb, _, _, _, ⟨rfl, rfl, rfl⟩, rfl, rfl, rfl⟩
    exact ⟨body, hb, rfl⟩
  · rintro ⟨body, hb, rfl⟩
    exact ⟨body, _, _, hb, _, _, _, ⟨rfl, rfl, rfl⟩, rfl, rfl, rfl⟩

end LoxMachine.Parser
