import LoxMachine.Proofs.Parser.Bounds
import Mathlib.Tactic.Common

/-!
# What parsed trees are made of

What is known of the tokens of a text is known of the trees that are parsed from it, of those
with complaints as well: each name in a tree is the text of an identifier, each range joins
ranges of tokens, none of which is the end marker, and a function is declared as its kind says.
-/

namespace LoxMachine

/-- What is known of tokens, of the ranges and the names taken from them, and of the ranges that
are complained about. -/
structure Parser.Stock where
  token : Token → Prop
  range : Range → Prop
  name : Name → Prop
  fault : Range → Prop
  range_of_token : ∀ {t}, token t → t.kind ≠ .eof → range t.range
  name_of_token : ∀ {t}, token t → t.kind = .identifier → name ⟨t.text, t.range⟩
  fault_of_token : ∀ {t}, token t → fault t.range
  range_of_name : ∀ {n}, name n → range n.range
  fault_of_range : ∀ {r}, range r → fault r
  join : ∀ {r s}, range r → range s → range (r.join s)

variable {K : Parser.Stock}

theorem Parser.Stock.range_of_kind (K : Stock) {t : Token} {kind : Kind} (h : K.token t)
    (hkind : t.kind = kind) (hne : kind ≠ .eof) : K.range t.range :=
  K.range_of_token h (hkind ▸ hne)

/-! ## Trees -/

/-- An expression made of known ranges and names. -/
inductive Expr.Made (K : Parser.Stock) : Expr → Prop where
  | literal {value span} (hspan : K.range span) : Expr.Made K (.literal value span)
  | var {id name} (hname : K.name name) : Expr.Made K (.var id name)
  | assign {id name value span} (hname : K.name name) (hvalue : Expr.Made K value)
      (hspan : K.range span) : Expr.Made K (.assign id name value span)
  | unary {op operand span} (hoperand : Expr.Made K operand) (hspan : K.range span) :
      Expr.Made K (.unary op operand span)
  | binary {op left right span} (hleft : Expr.Made K left) (hright : Expr.Made K right)
      (hspan : K.range span) : Expr.Made K (.binary op left right span)
  | logical {op left right span} (hleft : Expr.Made K left) (hright : Expr.Made K right)
      (hspan : K.range span) : Expr.Made K (.logical op left right span)
  | group {inner span} (hinner : Expr.Made K inner) (hspan : K.range span) :
      Expr.Made K (.group inner span)
  | call {callee args span} (hcallee : Expr.Made K callee) (hargs : ∀ e ∈ args, Expr.Made K e)
      (hspan : K.range span) : Expr.Made K (.call callee args span)
  | get {object name span} (hobject : Expr.Made K object) (hname : K.name name)
      (hspan : K.range span) : Expr.Made K (.get object name span)
  | set {object name value span} (hobject : Expr.Made K object) (hname : K.name name)
      (hvalue : Expr.Made K value) (hspan : K.range span) :
      Expr.Made K (.set object name value span)
  | this {id keyword} (hkeyword : K.range keyword) : Expr.Made K (.this id keyword)
  | super {id thisId keyword method span} (hkeyword : K.range keyword) (hmethod : K.name method)
      (hspan : K.range span) : Expr.Made K (.super id thisId keyword method span)

mutual

/-- A statement made of known ranges and names. -/
inductive Stmt.Made (K : Parser.Stock) : Stmt → Prop where
  | expr {value span} (hvalue : value.Made K) (hspan : K.range span) :
      Stmt.Made K (.expr value span)
  | print {value span} (hvalue : value.Made K) (hspan : K.range span) :
      Stmt.Made K (.print value span)
  | assert {value span} (hvalue : value.Made K) (hspan : K.range span) :
      Stmt.Made K (.assert value span)
  | assertEqual {left right span} (hleft : left.Made K) (hright : right.Made K)
      (hspan : K.range span) : Stmt.Made K (.assertEqual left right span)
  | var {name init span} (hname : K.name name) (hinit : ∀ e ∈ init, e.Made K)
      (hspan : K.range span) : Stmt.Made K (.var name init span)
  | block {body span} (hbody : ∀ s ∈ body, Stmt.Made K s) (hspan : K.range span) :
      Stmt.Made K (.block body span)
  | cond {test thenBranch elseBranch span} (htest : test.Made K)
      (hthen : Stmt.Made K thenBranch) (helse : ∀ s ∈ elseBranch, Stmt.Made K s)
      (hspan : K.range span) : Stmt.Made K (.cond test thenBranch elseBranch span)
  | loop {test body span} (htest : test.Made K) (hbody : Stmt.Made K body)
      (hspan : K.range span) : Stmt.Made K (.loop test body span)
  | ret {keyword value span} (hkeyword : K.range keyword) (hvalue : ∀ e ∈ value, e.Made K)
      (hspan : K.range span) : Stmt.Made K (.ret keyword value span)
  | function {decl} (hdecl : Function.Made K .function decl) : Stmt.Made K (.function decl)
  | classDecl {name superclass methods span} (hname : K.name name)
      (hparent : ∀ parent ∈ superclass, K.name parent.name)
      (hmethods : ∀ f ∈ methods, Function.Made K .method f) (hspan : K.range span) :
      Stmt.Made K (.classDecl name superclass methods span)

/-- A function made of known ranges and names, declared as one of a kind. -/
inductive Function.Made (K : Parser.Stock) : FunctionKind → Function → Prop where
  | mk {kind name params body span} (hname : K.name name) (hparams : ∀ p ∈ params, K.name p)
      (hbody : ∀ s ∈ body, Stmt.Made K s) (hspan : K.range span) :
      Function.Made K kind (.mk (Parser.declaredKind kind name) name params body span)

end

theorem Expr.Made.span {e : Expr} (h : e.Made K) : K.range e.span := by
  cases h with
  | var hname => exact K.range_of_name hname
  | _ => assumption

theorem Function.Made.span {kind : FunctionKind} {f : Function} (h : f.Made K kind) :
    K.range f.span := by
  cases h
  assumption

theorem Function.Made.body {kind : FunctionKind} {f : Function} (h : f.Made K kind) :
    ∀ s ∈ f.body, s.Made K := by
  cases h
  assumption

theorem Stmt.Made.span {s : Stmt} (h : s.Made K) : K.range s.span := by
  cases h with
  | function hdecl => exact hdecl.span
  | _ => assumption

/-! ## Cursors -/

/-- The tokens to come are known ones, and so are all ranges complained about. -/
structure Cursor.Stocked (K : Parser.Stock) (c : Cursor) : Prop where
  tokens : ∀ t ∈ c.rest, K.token t
  stop : K.token c.eof
  bag : ∀ d ∈ c.bag.items, K.fault d.range

theorem Cursor.Stocked.peeked {c : Cursor} (h : c.Stocked K) : K.token (c.rest.headD c.eof) := by
  obtain ⟨rest, eof, lastId, bag⟩ := c
  cases rest with
  | nil => exact h.stop
  | cons t rest => exact h.tokens t List.mem_cons_self

/-- Fewer tokens to come are still known ones. -/
theorem Cursor.Stocked.suffix {c : Cursor} {rest : List Token} (h : c.Stocked K)
    (hrest : rest <:+ c.rest) : ({ c with rest := rest } : Cursor).Stocked K :=
  { h with tokens := fun t ht => h.tokens t (hrest.subset ht) }

theorem Cursor.Stocked.complain {c : Cursor} (h : c.Stocked K) {range : Range}
    (hrange : K.fault range) (message : Bytes) :
    ({ c with bag := c.bag.error range message } : Cursor).Stocked K := by
  refine { h with bag := fun d hd => ?_ }
  rcases Array.mem_push.mp hd with hd | rfl
  · exact h.bag d hd
  · exact hrange

namespace Parser

variable {α β : Type} {P : α → Prop} {Q : β → Prop}

/-- What is parsed has a property, and all that is known of tokens stays known. -/
def MakesTo (K : Stock) (P : α → Prop) : Parsed α → Prop
  | .ok a next => P a ∧ next.Stocked K
  | .stuck next => next.Stocked K
  | .exhausted => True

/-- From known tokens the parser makes only what has a property. -/
def Makes (K : Stock) (P : α → Prop) (p : Parser α) : Prop :=
  ∀ c, c.Stocked K → MakesTo K P (p c)

theorem forall_mem_some {a : α} (h : P a) : ∀ b ∈ some a, P b := by
  rintro _ ⟨⟩
  exact h

/-- Items that are collected latest first. -/
theorem forall_mem_reverse_cons {a : α} {before : List α} (ha : P a)
    (hbefore : ∀ b ∈ before, P b) : ∀ b ∈ (a :: before).reverse, P b :=
  fun _ hb => List.forall_mem_cons.mpr ⟨ha, hbefore⟩ _ (List.mem_reverse.mp hb)

/-! ## The smallest parsers -/

theorem makes_pure {a : α} (h : P a) : Makes K P (pure a) :=
  fun _ hc => ⟨h, hc⟩

theorem Makes.bind {p : Parser α} {f : α → Parser β} (hp : Makes K P p)
    (hf : ∀ a, P a → Makes K Q (f a)) : Makes K Q (p >>= f) := by
  intro c hc
  have hpc := hp c hc
  rw [bind_apply]
  cases h : p c with
  | exhausted => trivial
  | stuck next =>
      rw [h] at hpc
      exact hpc
  | ok a next =>
      rw [h] at hpc
      exact hf a hpc.1 next hpc.2

theorem makes_exhaust : Makes K P exhaust :=
  fun _ _ => trivial

theorem makes_peek : Makes K K.token peek :=
  fun _ hc => ⟨hc.peeked, hc⟩

theorem makes_skip : Makes K (fun _ => True) skip := by
  intro c hc
  unfold skip
  split
  · exact ⟨trivial, hc⟩
  next t rest hrest =>
    split
    · exact ⟨trivial, hc⟩
    · exact ⟨trivial, hc.suffix (hrest ▸ List.suffix_cons t rest)⟩

theorem makes_nextId : Makes K (fun _ => True) nextId :=
  fun _ hc => ⟨trivial, { hc with }⟩

theorem makes_complain {range : Range} (h : K.fault range) (complaint : Complaint) :
    Makes K (fun _ => True) (complain range complaint) :=
  fun _ hc => ⟨trivial, hc.complain h _⟩

theorem makes_refuse {range : Range} (h : K.fault range) (complaint : Complaint) :
    Makes K P (do complain range complaint; giveUp) :=
  (makes_complain h complaint).bind fun _ _ _ hc => hc

theorem makes_accept? {kind : Kind} (hkind : kind ≠ .eof) :
    Makes K (fun found => ∀ t ∈ found, K.range t.range) (accept? kind) := by
  refine makes_peek.bind fun token ht => ?_
  split
  next h =>
    exact makes_skip.bind fun _ _ => makes_pure (forall_mem_some (K.range_of_kind ht h hkind))
  next => exact makes_pure nofun

theorem makes_isAt (kind : Kind) : Makes K (fun _ => True) (isAt kind) :=
  makes_peek.bind fun _ _ => makes_pure trivial

theorem makes_expect {kind : Kind} (hkind : kind ≠ .eof) (wanted : Bytes) :
    Makes K (fun t => K.range t.range) (expect kind wanted) := by
  refine makes_peek.bind fun token ht => ?_
  split
  next h => exact makes_skip.bind fun _ _ => makes_pure (K.range_of_kind ht h hkind)
  next => exact makes_refuse (K.fault_of_token ht) _

theorem makes_expectName (wanted : Bytes) : Makes K K.name (expectName wanted) := by
  have hexpect : Makes K (fun t => K.token t ∧ t.kind = .identifier)
      (expect .identifier wanted) := by
    refine makes_peek.bind fun token ht => ?_
    split
    next h => exact makes_skip.bind fun _ _ => makes_pure ⟨ht, h⟩
    next => exact makes_refuse (K.fault_of_token ht) _
  exact hexpect.bind fun _ ht => makes_pure (K.name_of_token ht.1 ht.2)

theorem Cursor.Stocked.synchronize {c : Cursor} (h : c.Stocked K) :
    (synchronize c).Stocked K := by
  unfold Parser.synchronize
  split
  · exact h
  next t rest hrest =>
    split
    · exact h
    · exact h.suffix (hrest ▸ (resume_suffix t.kind rest).trans (List.suffix_cons t rest))

theorem Makes.recovering {p : Parser α} (hp : Makes K P p) :
    Makes K (fun found => ∀ a ∈ found, P a) (recovering p) := by
  intro c hc
  have hpc := hp c hc
  unfold Parser.recovering
  cases h : p c with
  | exhausted => trivial
  | stuck next =>
      rw [h] at hpc
      exact ⟨nofun, Cursor.Stocked.synchronize hpc⟩
  | ok a next =>
      rw [h] at hpc
      exact ⟨forall_mem_some hpc.1, hpc.2⟩

/-! ## What may be left out -/

/-- A list that is left out if a test says so, and what is done with it. -/
theorem makes_list {list : Parser (List α)} {f : List α → Parser β}
    (h : Makes K (fun l => ∀ a ∈ l, P a) list)
    (hf : ∀ l, (∀ a ∈ l, P a) → Makes K Q (f l)) (absent : Bool) :
    Makes K Q
      (if absent = true then (do let l ← pure []; f l) else do let l ← list; f l) := by
  cases absent with
  | true => exact hf [] (List.forall_mem_nil _)
  | false => exact h.bind hf

/-- Something that is left out if a test says so, and what is done with it. -/
theorem makes_optional {p : Parser α} {f : Option α → Parser β} (h : Makes K P p)
    (hf : ∀ found, (∀ a ∈ found, P a) → Makes K Q (f found)) (absent : Bool) :
    Makes K Q (if absent = true then (do let a ← pure none; f a)
      else do let a ← p; let a ← pure (some a); f a) := by
  cases absent with
  | true => exact hf none nofun
  | false => exact h.bind fun a ha => hf (some a) (forall_mem_some ha)

/-! ## Expressions -/

section Expressions

variable {operand inner : Parser Expr}

theorem made_node (op : Operator) {left right : Expr} (hleft : left.Made K)
    (hright : right.Made K) : (op.node left right).Made K := by
  have hspan := K.join hleft.span hright.span
  cases op with
  | binary op => exact .binary hleft hright hspan
  | logical op => exact .logical hleft hright hspan

theorem makes_climb_extend (h : Makes K (Expr.Made K) operand) (steps : Nat) :
    (∀ level, Makes K (Expr.Made K) (climb operand steps level)) ∧
      ∀ level left, left.Made K →
        Makes K (Expr.Made K) (extend operand steps level left) := by
  induction steps with
  | zero => exact ⟨fun _ => makes_exhaust, fun _ _ _ => makes_exhaust⟩
  | succ steps ih =>
      obtain ⟨hclimb, hextend⟩ := ih
      constructor
      · intro level
        exact h.bind fun left hleft => hextend level left hleft
      · intro level left hleft
        refine makes_peek.bind fun token _ => ?_
        split
        · exact makes_pure hleft
        next op _ =>
          split
          · exact makes_pure hleft
          · exact makes_skip.bind fun _ _ => (hclimb _).bind fun right hright =>
              hextend _ _ (made_node op hleft hright)

theorem makes_literal {token : Token} {kind : Kind} (ht : K.token token)
    (hkind : token.kind = kind) (hne : kind ≠ .eof) (value : Literal) :
    Makes K (Expr.Made K) (do skip; return .literal value token.range) :=
  makes_skip.bind fun _ _ => makes_pure (.literal (K.range_of_kind ht hkind hne))

theorem makes_numberLiteral {token : Token} (ht : K.token token) (hkind : token.kind = .number) :
    Makes K (Expr.Made K) (numberLiteral token) := by
  have hspan := K.range_of_kind ht hkind nofun
  unfold numberLiteral
  split
  · exact makes_pure (.literal hspan)
  · exact (makes_complain (K.fault_of_token ht) _).bind fun _ _ => makes_pure (.literal hspan)

theorem makes_primary (h : Makes K (Expr.Made K) inner) :
    Makes K (Expr.Made K) (primary inner) := by
  refine makes_peek.bind fun token ht => ?_
  split
  next hkind => exact makes_literal ht hkind nofun _
  next hkind => exact makes_literal ht hkind nofun _
  next hkind => exact makes_literal ht hkind nofun _
  next hkind => exact makes_skip.bind fun _ _ => makes_numberLiteral ht hkind
  next hkind => exact makes_literal ht hkind nofun _
  next hkind =>
    have hstart := K.range_of_kind ht hkind nofun
    exact makes_skip.bind fun _ _ => (makes_expect (by decide) _).bind fun _ _ =>
      (makes_expectName _).bind fun method hmethod => makes_nextId.bind fun _ _ =>
        makes_nextId.bind fun _ _ =>
          makes_pure (.super hstart hmethod (K.join hstart (K.range_of_name hmethod)))
  next hkind =>
    exact makes_skip.bind fun _ _ => makes_nextId.bind fun _ _ =>
      makes_pure (.this (K.range_of_kind ht hkind nofun))
  next hkind =>
    exact makes_skip.bind fun _ _ => makes_nextId.bind fun _ _ =>
      makes_pure (.var (K.name_of_token ht hkind))
  next hkind =>
    exact makes_skip.bind fun _ _ => h.bind fun e he =>
      (makes_expect (by decide) _).bind fun close hclose =>
        makes_pure (.group he (K.join (K.range_of_kind ht hkind nofun) hclose))
  next => exact makes_refuse (K.fault_of_token ht) _

theorem makes_arguments (h : Makes K (Expr.Made K) inner) (steps : Nat)
    (before : List Expr) (hbefore : ∀ e ∈ before, e.Made K) :
    Makes K (fun args => ∀ e ∈ args, e.Made K) (arguments inner steps before) := by
  induction steps generalizing before with
  | zero => exact makes_exhaust
  | succ steps ih =>
      refine h.bind fun e he => (makes_accept? (by decide)).bind fun found _ => ?_
      cases found with
      | some _ => exact ih (e :: before) (List.forall_mem_cons.mpr ⟨he, hbefore⟩)
      | none => exact makes_pure (forall_mem_reverse_cons he hbefore)

theorem makes_suffixes (h : Makes K (Expr.Made K) inner) (steps : Nat) (e : Expr)
    (he : e.Made K) : Makes K (Expr.Made K) (suffixes inner steps e) := by
  induction steps generalizing e with
  | zero => exact makes_exhaust
  | succ steps ih =>
      refine makes_peek.bind fun token _ => ?_
      split
      · exact makes_skip.bind fun _ _ => (makes_isAt _).bind fun atEnd _ =>
          makes_list (makes_arguments h steps [] (List.forall_mem_nil _))
            (fun args hargs => (makes_expect (by decide) _).bind fun close hclose =>
              ih _ (.call he hargs (K.join he.span hclose))) atEnd
      · exact makes_skip.bind fun _ _ => (makes_expectName _).bind fun name hname =>
          ih _ (.get he hname (K.join he.span (K.range_of_name hname)))
      · exact makes_pure he

theorem makes_unary (h : Makes K (Expr.Made K) operand) (steps : Nat) :
    Makes K (Expr.Made K) (unary operand steps) := by
  induction steps with
  | zero => exact makes_exhaust
  | succ steps ih =>
      refine makes_peek.bind fun token ht => ?_
      split
      · exact h
      next op hop =>
        have hstart : K.range token.range := by
          refine K.range_of_token ht fun heof => ?_
          rw [heof] at hop
          cases hop
        exact makes_skip.bind fun _ _ => ih.bind fun e he =>
          makes_pure (.unary he (K.join hstart he.span))

theorem makes_operand (h : Makes K (Expr.Made K) inner) (steps : Nat) :
    Makes K (Expr.Made K) (Parser.operand inner steps) :=
  makes_unary ((makes_primary h).bind fun e he => makes_suffixes h steps e he) steps

theorem makes_assignTo {target value : Expr} {equals : Range} (htarget : target.Made K)
    (hvalue : value.Made K) (hequals : K.range equals) :
    Makes K (Expr.Made K) (assignTo target value equals) := by
  have hspan := K.join htarget.span hvalue.span
  unfold assignTo
  split
  next =>
    cases htarget with
    | var hname =>
        exact makes_nextId.bind fun _ _ => makes_pure (.assign hname hvalue hspan)
  next =>
    cases htarget with
    | get hobject hname _ => exact makes_pure (.set hobject hname hvalue hspan)
  next => exact (makes_complain (K.fault_of_range hequals) _).bind fun _ _ => makes_pure htarget

theorem makes_expression (steps : Nat) :
    Makes K (Expr.Made K) (expression steps) := by
  induction steps with
  | zero => exact makes_exhaust
  | succ steps ih =>
      refine ((makes_climb_extend (makes_operand ih _) _).1 _).bind fun target htarget =>
        (makes_accept? (by decide)).bind fun found hfound => ?_
      cases found with
      | none => exact makes_pure htarget
      | some equals =>
          exact ih.bind fun value hvalue => makes_assignTo htarget hvalue (hfound equals rfl)

end Expressions

/-! ## Statements -/

section Statements

variable {expr : Parser Expr} {stmt : Parser Stmt} {decl : Parser (Option Stmt)} {start : Range}

theorem makes_variableRest (h : Makes K (Expr.Made K) expr)
    (hstart : K.range start) : Makes K (Stmt.Made K) (variableRest expr start) := by
  refine (makes_expectName _).bind fun name hname =>
    (makes_accept? (by decide)).bind fun found _ => ?_
  have hrest : ∀ init : Option Expr, (∀ e ∈ init, e.Made K) →
      Makes K (Stmt.Made K) (do
        let close ← expect .semicolon (utf8 "';' after variable declaration")
        return .var name init (start.join close.range)) :=
    fun init hinit => (makes_expect (by decide) _).bind fun close hclose =>
      makes_pure (.var hname hinit (K.join hstart hclose))
  cases found with
  | some _ => exact makes_optional h hrest false
  | none => exact makes_optional h hrest true

/-- An expression and its semicolon, and the statement made of them. -/
theorem makes_closed (h : Makes K (Expr.Made K) expr) {wanted : Bytes}
    {make : Expr → Token → Stmt} (hmake : ∀ e close, e.Made K → K.range (close.range) →
      (make e close).Made K) :
    Makes K (Stmt.Made K)
      (do let e ← expr; let close ← expect .semicolon wanted; return make e close) :=
  h.bind fun e he => (makes_expect (by decide) _).bind fun close hclose =>
    makes_pure (hmake e close he hclose)

theorem made_assertion {e : Expr} {span : Range} (h : e.Made K)
    (hspan : K.range span) : (assertion e span).Made K := by
  unfold assertion
  split
  next =>
    cases h with
    | binary hleft hright _ => exact .assertEqual hleft hright hspan
  next => exact .assert h hspan

theorem makes_returnRest (h : Makes K (Expr.Made K) expr)
    (hstart : K.range start) : Makes K (Stmt.Made K) (returnRest expr start) :=
  (makes_isAt _).bind fun absent _ => makes_optional h
    (fun value hvalue => (makes_expect (by decide) _).bind fun close hclose =>
      makes_pure (.ret hstart hvalue (K.join hstart hclose))) absent

theorem makes_expressionStatement (h : Makes K (Expr.Made K) expr) (wanted : Bytes) :
    Makes K (Stmt.Made K) (expressionStatement expr wanted) :=
  makes_closed h fun _ _ he hclose => .expr he (K.join he.span hclose)

theorem makes_condition (h : Makes K (Expr.Made K) expr) :
    Makes K (Expr.Made K) (condition expr) :=
  (makes_expect (by decide) _).bind fun _ _ => h.bind fun _ htest =>
    (makes_expect (by decide) _).bind fun _ _ => makes_pure htest

theorem makes_ifRest (h : Makes K (Expr.Made K) expr)
    (hs : Makes K (Stmt.Made K) stmt) (hstart : K.range start) :
    Makes K (Stmt.Made K) (ifRest expr stmt start) := by
  refine (makes_condition h).bind fun test htest => hs.bind fun thenBranch hthen =>
    (makes_accept? (by decide)).bind fun found _ => ?_
  cases found with
  | none => exact makes_pure (.cond htest hthen nofun (K.join hstart hthen.span))
  | some _ =>
      exact hs.bind fun elseBranch helse => makes_pure
        (.cond htest hthen (forall_mem_some helse) (K.join hstart helse.span))

theorem makes_whileRest (h : Makes K (Expr.Made K) expr)
    (hs : Makes K (Stmt.Made K) stmt) (hstart : K.range start) :
    Makes K (Stmt.Made K) (whileRest expr stmt start) :=
  (makes_condition h).bind fun _ htest => hs.bind fun _ hbody =>
    makes_pure (.loop htest hbody (K.join hstart hbody.span))

theorem made_forLoop {init : Option Stmt} {test : Expr} {step : Option Expr} {body : Stmt}
    {span : Range} (hinit : ∀ s ∈ init, s.Made K) (htest : test.Made K)
    (hstep : ∀ e ∈ step, e.Made K) (hbody : body.Made K) (hspan : K.range span) :
    (forLoop init test step body span).Made K := by
  have hpair : ∀ {a b : Stmt}, a.Made K → b.Made K → ∀ s ∈ [a, b], s.Made K :=
    fun ha hb => List.forall_mem_cons.mpr ⟨ha, List.forall_mem_singleton.mpr hb⟩
  have hloop : ∀ {inner : Stmt}, inner.Made K →
      (forLoop init test none inner span).Made K := by
    intro inner hinner
    have hloop : (Stmt.loop test inner span).Made K := .loop htest hinner hspan
    cases init with
    | none => exact hloop
    | some s => exact .block (hpair (hinit s rfl) hloop) hspan
  cases step with
  | none => exact hloop hbody
  | some e =>
      have he := hstep e rfl
      exact hloop (.block (hpair hbody (.expr he he.span)) hbody.span)

theorem makes_forInit (h : Makes K (Expr.Made K) expr) :
    Makes K (fun init => ∀ s ∈ init, s.Made K) (forInit expr) := by
  refine makes_peek.bind fun token ht => ?_
  split
  · exact makes_skip.bind fun _ _ => makes_pure nofun
  next hkind =>
    exact makes_skip.bind fun _ _ =>
      (makes_variableRest h (K.range_of_kind ht hkind nofun)).bind fun s hs =>
        makes_pure (forall_mem_some hs)
  next =>
    exact (makes_expressionStatement h _).bind fun s hs => makes_pure (forall_mem_some hs)

theorem makes_forRest (h : Makes K (Expr.Made K) expr)
    (hs : Makes K (Stmt.Made K) stmt) (hstart : K.range start) :
    Makes K (Stmt.Made K) (forRest expr stmt start) := by
  refine (makes_expect (by decide) _).bind fun _ _ => (makes_forInit h).bind fun init hinit =>
    (makes_isAt _).bind fun noTest _ => makes_optional h (fun test htest =>
      (makes_expect (by decide) _).bind fun close hclose =>
        (makes_isAt _).bind fun noStep _ => makes_optional h (fun step hstep =>
          (makes_expect (by decide) _).bind fun _ _ => hs.bind fun body hbody =>
            makes_pure (made_forLoop hinit ?_ hstep hbody (K.join hstart hbody.span)))
          noStep) noTest
  -- A test that is left out stands at the semicolon behind it.
  cases test with
  | none => exact .literal hclose
  | some test => exact htest test rfl

/-- A block may end here; else there is a token other than the end marker. -/
theorem makes_atBlockEnd_bind {p : Parser β} {f : Token → Parser β} (hend : Makes K Q p)
    (hmore : ∀ t, K.range t.range → Makes K Q (f t)) :
    Makes K Q (do if ← atBlockEnd then p else let t ← peek; f t) := by
  intro c hc
  by_cases hat : ((c.rest.headD c.eof).kind = .rightBrace ||
      (c.rest.headD c.eof).kind = .eof) = true
  · have hp : (do if ← atBlockEnd then p else let t ← peek; f t : Parser β) c = p c := by
      show (if _ then p else peek >>= f) c = p c
      rw [if_pos hat]
    exact hp ▸ hend c hc
  · have hf : (do if ← atBlockEnd then p else let t ← peek; f t : Parser β) c =
        f (c.rest.headD c.eof) c := by
      show (if _ then p else peek >>= f) c = _
      rw [if_neg hat]
      rfl
    rw [hf]
    refine hmore _ (K.range_of_token hc.peeked fun heof => hat ?_) c hc
    rw [heof]
    rfl

theorem makes_atBlockEnd : Makes K (fun _ => True) atBlockEnd :=
  makes_peek.bind fun _ _ => makes_pure trivial

theorem makes_declarations (h : Makes K (fun found => ∀ s ∈ found, s.Made K) decl)
    (steps : Nat) (before : List Stmt) (hbefore : ∀ s ∈ before, s.Made K) :
    Makes K (fun body => ∀ s ∈ body, s.Made K) (declarations decl steps before) := by
  induction steps generalizing before with
  | zero => exact makes_exhaust
  | succ steps ih =>
      refine makes_atBlockEnd.bind fun atEnd _ => ?_
      split
      · exact makes_pure fun s hs => hbefore s (List.mem_reverse.mp hs)
      · refine h.bind fun found hfound => ?_
        cases found with
        | some s => exact ih (s :: before) (List.forall_mem_cons.mpr ⟨hfound s rfl, hbefore⟩)
        | none => exact ih before hbefore

theorem makes_blockRest (h : Makes K (fun found => ∀ s ∈ found, s.Made K) decl)
    (steps : Nat) :
    Makes K (fun block => (∀ s ∈ block.1, s.Made K) ∧ K.range (block.2))
      (blockRest decl steps) :=
  (makes_declarations h steps [] (List.forall_mem_nil _)).bind fun _ hbody =>
    (makes_expect (by decide) _).bind fun _ hclose => makes_pure ⟨hbody, hclose⟩

theorem makes_parameters (steps : Nat) (before : List Name)
    (hbefore : ∀ p ∈ before, K.name p) :
    Makes K (fun params => ∀ p ∈ params, K.name p) (parameters steps before) := by
  induction steps generalizing before with
  | zero => exact makes_exhaust
  | succ steps ih =>
      refine (makes_expectName _).bind fun name hname =>
        (makes_accept? (by decide)).bind fun found _ => ?_
      cases found with
      | some _ => exact ih (name :: before) (List.forall_mem_cons.mpr ⟨hname, hbefore⟩)
      | none => exact makes_pure (forall_mem_reverse_cons hname hbefore)

theorem makes_functionRest (h : Makes K (fun found => ∀ s ∈ found, s.Made K) decl)
    (steps : Nat) (kind : FunctionKind) (hstart : K.range start) :
    Makes K (Function.Made K kind) (functionRest decl steps kind start) :=
  (makes_expectName _).bind fun _ hname => (makes_expect (by decide) _).bind fun _ _ =>
    (makes_isAt _).bind fun absent _ =>
      makes_list (makes_parameters steps [] (List.forall_mem_nil _)) (fun _ hparams =>
        (makes_expect (by decide) _).bind fun _ _ =>
          (makes_expect (by decide) _).bind fun _ _ =>
            (makes_blockRest h steps).bind fun _ hblock =>
              makes_pure (.mk hname hparams hblock.1 (K.join hstart hblock.2))) absent

theorem makes_methods (h : Makes K (fun found => ∀ s ∈ found, s.Made K) decl)
    (steps : Nat) (before : List Function) (hbefore : ∀ f ∈ before, Function.Made K .method f) :
    Makes K (fun found => ∀ f ∈ found, Function.Made K .method f) (methods decl steps before) := by
  induction steps generalizing before with
  | zero => exact makes_exhaust
  | succ steps ih =>
      refine makes_atBlockEnd_bind
        (makes_pure fun f hf => hbefore f (List.mem_reverse.mp hf)) fun start hstart => ?_
      exact (makes_functionRest h steps .method hstart).bind fun f hf =>
        ih (f :: before) (List.forall_mem_cons.mpr ⟨hf, hbefore⟩)

theorem makes_superclass? :
    Makes K (fun parent => ∀ p ∈ parent, K.name p.name) superclass? := by
  refine (makes_accept? (by decide)).bind fun found _ => ?_
  cases found with
  | none => exact makes_pure nofun
  | some _ =>
      exact (makes_expectName _).bind fun name hname =>
        makes_nextId.bind fun _ _ => makes_pure (forall_mem_some hname)

theorem makes_classRest (h : Makes K (fun found => ∀ s ∈ found, s.Made K) decl)
    (steps : Nat) (hstart : K.range start) :
    Makes K (Stmt.Made K) (classRest decl steps start) :=
  (makes_expectName _).bind fun _ hname => makes_superclass?.bind fun _ hparent =>
    (makes_expect (by decide) _).bind fun _ _ =>
      (makes_methods h steps [] (List.forall_mem_nil _)).bind fun _ hmethods =>
        (makes_expect (by decide) _).bind fun _ hclose =>
          makes_pure (.classDecl hname hparent hmethods (K.join hstart hclose))

theorem makes_statementWith (hd : Makes K (fun found => ∀ s ∈ found, s.Made K) decl)
    (hs : Makes K (Stmt.Made K) stmt) (steps : Nat) :
    Makes K (Stmt.Made K) (statementWith decl stmt steps) := by
  have he := @makes_expression K steps
  refine makes_peek.bind fun token ht => ?_
  split
  next hkind =>
    exact makes_skip.bind fun _ _ => makes_forRest he hs (K.range_of_kind ht hkind nofun)
  next hkind =>
    exact makes_skip.bind fun _ _ => makes_ifRest he hs (K.range_of_kind ht hkind nofun)
  next hkind =>
    exact makes_skip.bind fun _ _ => makes_closed he fun _ _ hvalue hclose =>
      .print hvalue (K.join (K.range_of_kind ht hkind nofun) hclose)
  next hkind =>
    exact makes_skip.bind fun _ _ => makes_closed he fun _ _ hvalue hclose =>
      made_assertion hvalue (K.join (K.range_of_kind ht hkind nofun) hclose)
  next hkind =>
    exact makes_skip.bind fun _ _ => makes_whileRest he hs (K.range_of_kind ht hkind nofun)
  next hkind =>
    exact makes_skip.bind fun _ _ => makes_returnRest he (K.range_of_kind ht hkind nofun)
  next hkind =>
    exact makes_skip.bind fun _ _ => (makes_blockRest hd steps).bind fun _ hblock =>
      makes_pure (.block hblock.1 (K.join (K.range_of_kind ht hkind nofun) hblock.2))
  next => exact makes_expressionStatement he _

theorem makes_declarationWith
    (hd : Makes K (fun found => ∀ s ∈ found, s.Made K) decl)
    (hs : Makes K (Stmt.Made K) stmt) (steps : Nat) :
    Makes K (Stmt.Made K) (declarationWith decl stmt steps) := by
  refine makes_peek.bind fun token ht => ?_
  split
  next hkind =>
    exact makes_skip.bind fun _ _ => makes_classRest hd steps (K.range_of_kind ht hkind nofun)
  next hkind =>
    exact makes_skip.bind fun _ _ =>
      (makes_functionRest hd steps _ (K.range_of_kind ht hkind nofun)).bind fun _ hf =>
        makes_pure (.function hf)
  next hkind =>
    exact makes_skip.bind fun _ _ =>
      makes_variableRest (makes_expression steps) (K.range_of_kind ht hkind nofun)
  next => exact makes_statementWith hd hs steps

theorem makes_statement_declaration (steps : Nat) :
    Makes K (Stmt.Made K) (statement steps) ∧
      Makes K (fun found => ∀ s ∈ found, s.Made K) (declaration steps) := by
  induction steps with
  | zero => exact ⟨makes_exhaust, makes_exhaust⟩
  | succ steps ih =>
      obtain ⟨hs, hd⟩ := ih
      exact ⟨makes_statementWith hd hs _, (makes_declarationWith hd hs _).recovering⟩

theorem makes_topLevel (h : Makes K (fun found => ∀ s ∈ found, s.Made K) decl)
    (steps : Nat) (before : List Stmt) (hbefore : ∀ s ∈ before, s.Made K) :
    Makes K (fun body => ∀ s ∈ body, s.Made K) (topLevel decl steps before) := by
  induction steps generalizing before with
  | zero => exact makes_exhaust
  | succ steps ih =>
      refine (makes_isAt _).bind fun atEnd _ => ?_
      split
      · exact makes_pure fun s hs => hbefore s (List.mem_reverse.mp hs)
      · refine h.bind fun found hfound => ?_
        cases found with
        | some s => exact ih (s :: before) (List.forall_mem_cons.mpr ⟨hfound s rfl, hbefore⟩)
        | none => exact ih before hbefore

end Statements

theorem makes_program (kind : ModuleKind) (steps : Nat) :
    Makes K (fun m => ∀ s ∈ m.body, s.Made K) (program kind steps) :=
  makes_peek.bind fun _ _ =>
    (makes_topLevel (makes_statement_declaration steps).2 steps []
      (List.forall_mem_nil _)).bind fun _ hbody =>
        makes_peek.bind fun _ _ => makes_pure hbody

end Parser

/-- Known tokens are parsed to statements made of them, and all that is complained about is
known. -/
theorem Module.made_of_parse {tokens : List Token} {kind : ModuleKind} {lastId : Nat} {bag : Bag}
    {outcome : Outcome} (htokens : ∀ t ∈ tokens, K.token t)
    (hbag : ∀ d ∈ bag.items, K.fault d.range)
    (h : parse tokens kind lastId bag = .ok outcome) :
    (∀ s ∈ outcome.module.body, s.Made K) ∧ ∀ d ∈ outcome.bag.items, K.fault d.range := by
  unfold parse at h
  split at h
  · cases h
  next eof hlast =>
    split at h
    · cases h
    have heof := htokens eof (List.mem_of_getLast? hlast)
    have hmakes := Parser.makes_program kind (tokens.length + 1)
      ⟨tokens.dropLast, eof, lastId, bag⟩
      ⟨fun t ht => htokens t (List.dropLast_subset tokens ht), heof, hbag⟩
    split at h
    next m c hrun =>
      cases h
      rw [hrun] at hmakes
      exact ⟨hmakes.1, hmakes.2.bag⟩
    next => cases h
    next => cases h

end LoxMachine
