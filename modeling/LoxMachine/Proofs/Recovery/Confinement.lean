import LoxMachine.Proofs.Parser.Bounds
import LoxMachine.Proofs.Token.Scanned

/-!
# Broken statements up to their semicolon

Among tokens that neither end a statement nor start one, the parsers of expressions stay in
front of the next semicolon: they either succeed without a complaint or give up after one.
Recovery then passes that semicolon and stops right behind it.
-/

namespace LoxMachine.Parser

/-! ## In front of a semicolon -/

/-- A token that can stand inside a simple statement, other than an assignment. -/
structure Tame (t : Token) : Prop where
  kind : t.kind ∉ [Kind.semicolon, .leftBrace, .rightBrace, .equal, .eof]
  start : startsStatement t.kind = false
  legible : t.Legible

/-- A semicolon, the tokens behind it, and the complaints made in front of it. -/
structure Fence where
  semi : Token
  rest : List Token
  eof : Token
  bag : Bag
  closes : semi.kind = .semicolon

/-- The cursor with `ts` to come in front of the semicolon. -/
def Fence.cursor (φ : Fence) (n : Nat) (ts : List Token) : Cursor :=
  ⟨ts ++ φ.semi :: φ.rest, φ.eof, n, φ.bag⟩

/-- From `ts` in front of the semicolon, success comes without a complaint, in front of the
semicolon or, if `past`, right behind it; giving up comes after one complaint about one of
the tokens or the semicolon. -/
inductive Confines {α : Type} (φ : Fence) (ts : List Token) : Bool → Parsed α → Prop where
  | ok {a : α} {us n} (hus : us <:+ ts) : Confines φ ts false (.ok a (φ.cursor n us))
  | past {a : α} {n} : Confines φ ts true (.ok a ⟨φ.rest, φ.eof, n, φ.bag⟩)
  | stuck {past us n t} {complaint : Complaint} (hus : us <:+ ts) (ht : t ∈ ts ++ [φ.semi]) :
      Confines φ ts past (.stuck
        { φ.cursor n us with bag := φ.bag.error t.range complaint.message })
  | exhausted {past} : Confines φ ts past .exhausted

variable {α β : Type} {φ : Fence} {past : Bool} {n : Nat} {ts us : List Token}

def Confined (φ : Fence) (past : Bool) (p : Parser α) : Prop :=
  ∀ ts n, (∀ t ∈ ts, Tame t) → Confines φ ts past (p (φ.cursor n ts))

/-- The same where `t` is the token to come. -/
def ConfinedOn (φ : Fence) (t : Token) (past : Bool) (p : Parser α) : Prop :=
  ∀ ts n, (∀ t ∈ ts, Tame t) → (ts ++ φ.semi :: φ.rest).headD φ.eof = t →
    Confines φ ts past (p (φ.cursor n ts))

theorem Confines.weaken {r : Parsed α} (h : Confines φ us past r) (hus : us <:+ ts) :
    Confines φ ts past r := by
  cases h with
  | ok hvs => exact .ok (hvs.trans hus)
  | past => exact .past
  | stuck hvs ht =>
      refine .stuck (hvs.trans hus) ?_
      rcases List.mem_append.mp ht with ht | ht
      · exact List.mem_append_left _ (hus.subset ht)
      · exact List.mem_append_right _ ht
  | exhausted => exact .exhausted

theorem Confined.bind {p : Parser α} {f : α → Parser β} (hp : Confined φ false p)
    (hf : ∀ a, Confined φ past (f a)) : Confined φ past (p >>= f) := by
  intro ts n hts
  have hc := hp ts n hts
  rw [bind_apply]
  generalize p (φ.cursor n ts) = outcome at hc
  cases hc with
  | ok hus => exact (hf _ _ _ fun t ht => hts t (hus.subset ht)).weaken hus
  | stuck hus ht => exact .stuck hus ht
  | exhausted => exact .exhausted

theorem Confined.on {p : Parser α} (h : Confined φ past p) (t : Token) :
    ConfinedOn φ t past p :=
  fun ts n hts _ => h ts n hts

theorem confined_pure (a : α) : Confined φ false (pure a : Parser α) :=
  fun _ _ _ => .ok (List.suffix_refl _)

theorem confined_exhaust : Confined φ past (exhaust : Parser α) :=
  fun _ _ _ => .exhausted

theorem confined_nextId : Confined φ false nextId :=
  fun _ _ _ => .ok (List.suffix_refl _)

theorem confined_peek_bind {f : Token → Parser β} (h : ∀ t, ConfinedOn φ t past (f t)) :
    Confined φ past (peek >>= f) :=
  fun ts n hts => h _ ts n hts rfl

theorem confinedOn_skip_bind {f : Unit → Parser β} {t : Token} (ht : t.kind ≠ .semicolon)
    (hf : Tame t → Confined φ past (f ())) : ConfinedOn φ t past (skip >>= f) := by
  intro ts n hts hhead
  cases ts with
  | nil =>
      rw [List.nil_append, List.headD_cons] at hhead
      exact absurd (hhead ▸ φ.closes) ht
  | cons t' us =>
      obtain ⟨htame, hus⟩ := List.forall_mem_cons.mp hts
      have hend : t'.kind ≠ .eof := fun heq => htame.kind (by rw [heq]; decide)
      have hskip : skip (φ.cursor n (t' :: us)) = .ok () (φ.cursor n us) := by
        simp only [skip, Fence.cursor, List.cons_append, if_neg hend]
      rw [bind_apply, hskip]
      rw [List.cons_append, List.headD_cons] at hhead
      exact (hf (hhead ▸ htame) us n hus).weaken (List.suffix_cons _ _)

theorem confinedOn_refuse {t : Token} (complaint : Complaint) :
    ConfinedOn φ t past (do complain t.range complaint; giveUp : Parser α) := by
  intro ts n _ hhead
  refine @Confines.stuck _ _ _ _ ts n t complaint (List.suffix_refl _) ?_
  rw [← hhead]
  cases ts with
  | nil => exact List.mem_singleton_self _
  | cons t' us => exact List.mem_cons_self

theorem confined_accept? {kind : Kind} (hk : kind ≠ .semicolon) :
    Confined φ false (accept? kind) := by
  refine confined_peek_bind fun t => ?_
  split
  next hkind => exact confinedOn_skip_bind (by rw [hkind]; exact hk) fun _ => confined_pure _
  next => exact (confined_pure _).on t

theorem confined_isAt (kind : Kind) : Confined φ false (isAt kind) :=
  confined_peek_bind fun t => (confined_pure _).on t

theorem confined_expect {kind : Kind} (hk : kind ≠ .semicolon) (wanted : Bytes) :
    Confined φ false (expect kind wanted) := by
  refine confined_peek_bind fun t => ?_
  split
  next hkind => exact confinedOn_skip_bind (by rw [hkind]; exact hk) fun _ => confined_pure _
  next => exact confinedOn_refuse _

theorem confined_expectName (wanted : Bytes) : Confined φ false (expectName wanted) :=
  (confined_expect (by decide) _).bind fun _ => confined_pure _

/-- There is no equals sign in front of the semicolon. -/
theorem confined_accept?_equal {f : Option Token → Parser β} (hf : Confined φ past (f none)) :
    Confined φ past (accept? .equal >>= f) := by
  intro ts n hts
  have hne : ((ts ++ φ.semi :: φ.rest).headD φ.eof).kind ≠ .equal := by
    cases ts with
    | nil =>
        rw [List.nil_append, List.headD_cons, φ.closes]
        decide
    | cons t us =>
        intro heq
        rw [List.cons_append, List.headD_cons] at heq
        exact (hts t List.mem_cons_self).kind (by rw [heq]; decide)
  have hnone : accept? .equal (φ.cursor n ts) = .ok none (φ.cursor n ts) := by
    simp only [accept?, bind_apply, peek, Fence.cursor, if_neg hne, pure_apply]
  rw [bind_apply, hnone]
  exact hf ts n hts

/-- The semicolon is where a statement ends. -/
theorem confined_close {f : Token → α} (wanted : Bytes) :
    Confined φ true (do let close ← expect .semicolon wanted; return f close) := by
  intro ts n hts
  cases ts with
  | nil =>
      have hclose : expect .semicolon wanted (φ.cursor n []) =
          .ok φ.semi ⟨φ.rest, φ.eof, n, φ.bag⟩ := by
        simp [expect, bind_apply, peek, Fence.cursor, φ.closes, skip, pure_apply]
      rw [bind_apply, hclose]
      exact .past
  | cons t us =>
      have hne : t.kind ≠ .semicolon := fun heq =>
        (hts t List.mem_cons_self).kind (by rw [heq]; decide)
      have hrefuse : expect .semicolon wanted (φ.cursor n (t :: us)) =
          .stuck { φ.cursor n (t :: us) with
            bag := φ.bag.error t.range (Complaint.missing t.kind wanted).message } := by
        simp only [expect, bind_apply, peek, Fence.cursor, List.cons_append, List.headD_cons,
          if_neg hne, complain, giveUp]
      rw [bind_apply, hrefuse]
      exact .stuck (List.suffix_refl _) (List.mem_append_left _ List.mem_cons_self)

/-! ## Expressions -/

section Expressions

variable {operand inner : Parser Expr}

theorem confined_climb_extend (h : Confined φ false operand) (steps : Nat) :
    (∀ level, Confined φ false (climb operand steps level)) ∧
      ∀ level left, Confined φ false (extend operand steps level left) := by
  induction steps with
  | zero => exact ⟨fun _ => confined_exhaust, fun _ _ => confined_exhaust⟩
  | succ steps ih =>
      obtain ⟨hclimb, hextend⟩ := ih
      constructor
      · intro level
        rw [climb]
        exact h.bind fun left => hextend level left
      · intro level left
        rw [extend]
        refine confined_peek_bind fun t => ?_
        split
        next => exact (confined_pure left).on t
        next op hop =>
          have ht : t.kind ≠ .semicolon := by
            intro heq
            rw [heq] at hop
            cases hop
          split
          · exact (confined_pure left).on t
          · exact confinedOn_skip_bind ht fun _ => (hclimb _).bind fun _ => hextend _ _

/-- No complaint is made about a number that is one. -/
theorem confined_numberLiteral {t : Token} (h : Token.isNumeral t.text = true) :
    Confined φ false (numberLiteral t) := by
  rw [numberLiteral, if_pos h]
  exact confined_pure _

theorem confined_primary (h : Confined φ false inner) : Confined φ false (primary inner) := by
  refine confined_peek_bind fun t => ?_
  split
  case h_10 => exact confinedOn_refuse _
  all_goals
    next hkind =>
      have ht : t.kind ≠ .semicolon := by rw [hkind]; decide
      first
        | exact confinedOn_skip_bind ht fun _ => confined_pure _
        | exact confinedOn_skip_bind ht fun htame => confined_numberLiteral (htame.legible hkind)
        | exact confinedOn_skip_bind ht fun _ => confined_nextId.bind fun _ => confined_pure _
        | exact confinedOn_skip_bind ht fun _ => (confined_expect (by decide) _).bind fun _ =>
            (confined_expectName _).bind fun _ => confined_nextId.bind fun _ =>
              confined_nextId.bind fun _ => confined_pure _
        | exact confinedOn_skip_bind ht fun _ => h.bind fun _ =>
            (confined_expect (by decide) _).bind fun _ => confined_pure _

theorem confined_arguments (h : Confined φ false inner) (steps : Nat) (before : List Expr) :
    Confined φ false (arguments inner steps before) := by
  induction steps generalizing before with
  | zero => exact confined_exhaust
  | succ steps ih =>
      refine h.bind fun e => (confined_accept? (by decide)).bind fun found => ?_
      cases found with
      | some _ => exact ih _
      | none => exact confined_pure _

theorem confined_suffixes (h : Confined φ false inner) (steps : Nat) (e : Expr) :
    Confined φ false (suffixes inner steps e) := by
  induction steps generalizing e with
  | zero => exact confined_exhaust
  | succ steps ih =>
      refine confined_peek_bind fun t => ?_
      split
      next hkind =>
        refine confinedOn_skip_bind (by rw [hkind]; decide) fun _ =>
          (confined_isAt _).bind fun absent => ?_
        have hclose : ∀ args : List Expr, Confined φ false
            (expect .rightParen (utf8 "')' after argument list") >>= fun close =>
              suffixes inner steps (.call e args (e.span.join close.range))) :=
          fun args => (confined_expect (by decide) _).bind fun _ => ih _
        cases absent with
        | true => exact hclose []
        | false => exact (confined_arguments h steps []).bind hclose
      next hkind =>
        exact confinedOn_skip_bind (by rw [hkind]; decide) fun _ =>
          (confined_expectName _).bind fun _ => ih _
      next => exact (confined_pure e).on t

theorem confined_unary (h : Confined φ false operand) (steps : Nat) :
    Confined φ false (unary operand steps) := by
  induction steps with
  | zero => exact confined_exhaust
  | succ steps ih =>
      refine confined_peek_bind fun t => ?_
      split
      next => exact h.on t
      next op hop =>
        have ht : t.kind ≠ .semicolon := by
          intro heq
          rw [heq] at hop
          cases hop
        exact confinedOn_skip_bind ht fun _ => ih.bind fun _ => confined_pure _

theorem confined_operand (h : Confined φ false inner) (steps : Nat) :
    Confined φ false (Parser.operand inner steps) :=
  confined_unary ((confined_primary h).bind fun e => confined_suffixes h steps e) steps

theorem confined_expression (steps : Nat) : Confined φ false (expression steps) := by
  induction steps with
  | zero => exact confined_exhaust
  | succ steps ih =>
      exact ((confined_climb_extend (confined_operand ih _) _).1 _).bind fun target =>
        confined_accept?_equal (confined_pure target)

end Expressions

/-! ## Simple statements -/

section Statements

variable {expr : Parser Expr}

theorem confined_closed (h : Confined φ false expr) (wanted : Bytes)
    (make : Expr → Token → Stmt) :
    Confined φ true (do
      let e ← expr
      let close ← expect .semicolon wanted
      return make e close) :=
  h.bind fun _ => confined_close _

theorem confined_expressionStatement (h : Confined φ false expr) (wanted : Bytes) :
    Confined φ true (expressionStatement expr wanted) :=
  confined_closed h _ _

theorem confined_printRest (h : Confined φ false expr) (start : Range) :
    Confined φ true (printRest expr start) :=
  confined_closed h _ _

theorem confined_assertRest (h : Confined φ false expr) (start : Range) :
    Confined φ true (assertRest expr start) :=
  confined_closed h _ _

theorem confined_variableRest (start : Range) :
    Confined φ true (variableRest expr start) :=
  (confined_expectName _).bind fun _ => confined_accept?_equal (confined_close _)

theorem confined_returnRest (h : Confined φ false expr) (start : Range) :
    Confined φ true (returnRest expr start) := by
  refine (confined_isAt _).bind fun absent => ?_
  cases absent with
  | true => exact confined_close _
  | false => exact h.bind fun _ => confined_close _

end Statements

end LoxMachine.Parser
