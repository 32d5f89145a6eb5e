import LoxMachine.Proofs.Grammar
import Mathlib.Tactic.Common

/-!
# Derivable kinds and readable tokens

The tokens that can be read are those whose kinds can be derived.  A derivation may
give an `else` to any `if` before it; the reading gives it to the nearest one, which
is found by going down into the statement that ends in front of the `else`.
-/

namespace LoxMachine.Grammar

open LoxMachine.Parser

/-! ## From readings to derivations -/

@[simp] def Phrase.symbol : Phrase → Symbol
  | .declarations _ => .declarations
  | .declaration _ => .declaration
  | .variable _ => .variable
  | .function _ _ _ => .function
  | .methods _ => .methods
  | .parameters _ => .parameters
  | .names _ => .names
  | .statement _ _ => .statement
  | .initializer _ => .initializer
  | .optional _ => .optional
  | .expression _ => .expression
  | .level k _ => .level k
  | .unary _ => .unary
  | .call _ => .call
  | .primary _ => .primary
  | .arguments _ => .arguments
  | .expressions _ => .expressions

theorem unaryOp?_eq_some {kind : Kind} {op : UnaryOp} (h : unaryOp? kind = some op) :
    kind = .bang ∨ kind = .minus := by
  unfold unaryOp? at h
  split at h
  · exact Or.inl rfl
  · exact Or.inr rfl
  · cases h

theorem Reads.derives {φ : Phrase} {n m : Nat} {ts : List Token} (h : Reads φ n ts m) :
    Derives φ.symbol (ts.map Token.kind) := by
  induction h with
  | noDeclaration => exact .noDeclaration
  | declarations _ _ ih ihs => rw [List.map_append]; exact ih.declarations ihs
  | plainClass hkw hname hl _ hr ih => simpa [*] using ih.plainClass
  | subclass hkw hname hless hp hl _ hr ih => simpa [*] using ih.subclass
  | function hkw _ ih => simpa [hkw] using ih.function
  | newVariable _ ih => exact ih.newVariable
  | statement _ ih => exact ih.statement
  | unset hkw hname hsemi => simpa [*] using Derives.unset
  | set hkw hname heq _ hsemi ih => simpa [*] using ih.set
  | body hname ho _ hc hl _ hr ihp ihs => simpa [*] using ihp.body ihs
  | noMethod => exact .noMethod
  | methods _ _ _ ih ihs => rw [List.map_append]; exact ih.methods ihs
  | noParameter => exact .noParameter
  | parameters _ ih => exact ih.parameters
  | lastName hname => simpa [hname] using Derives.lastName
  | name hname hc _ ih => simpa [*] using ih.name
  | forLoop hkw hl _ _ hsemi _ hr _ ihi ihc ihs ihb => simpa [*] using ihi.forLoop ihc ihs ihb
  | ifThen hkw hl _ hr _ ihc iha => simpa [*] using ihc.ifThen iha
  | ifElse hkw hl _ hr _ hels _ ihc iha ihb => simpa [*] using ihc.ifElse iha ihb
  | whileLoop hkw hl _ hr _ ihc ihb => simpa [*] using ihc.whileLoop ihb
  | print hkw _ hsemi ih => simpa [*] using ih.print
  | assertEqual hkw _ hsemi ih => simpa [*] using ih.assert
  | assert hkw _ _ hsemi ih => simpa [hkw, hsemi] using ih.assert
  | ret hkw _ hsemi ih => simpa [*] using ih.ret
  | block hl _ hr ih => simpa [*] using ih.block
  | expr _ hsemi ih => simpa [*] using ih.expr
  | noInitializer hsemi => simpa [hsemi] using Derives.noInitializer
  | initVariable _ ih => exact ih.initVariable
  | initExpr _ hsemi ih => simpa [*] using ih.initExpr
  | absent => exact .absent
  | present _ ih => exact ih.present
  | assign hname heq _ ih => simpa [*] using ih.assign
  | setProperty _ hdot hname heq _ iho ih => simpa [*] using iho.setProperty ih
  | loosest _ ih => exact ih.loosest
  | binary _ ht _ _ ihl ihr => simpa using ihl.binary ht ihr
  | tighter _ ih => exact ih.tighter
  | operand _ ih => exact ih.operand
  | signed hop _ ih => exact ih.signed (unaryOp?_eq_some hop)
  | unsigned _ ih => exact ih.unsigned
  | call _ hl _ hr ih iha => simpa [*] using ih.call iha
  | property _ hdot hname ih => simpa [*] using ih.property
  | primary _ ih => exact ih.primary
  | literal ht _ => exact .literal ht
  | this ht => simpa [ht] using Derives.this
  | super ht hdot hname => simpa [*] using Derives.super
  | identifier ht => simpa [ht] using Derives.identifier
  | group hl _ hr ih => simpa [*] using ih.group
  | noArgument => exact .noArgument
  | arguments _ ih => exact ih.arguments
  | lastExpression _ ih => exact ih.lastExpression
  | expressions _ hc _ ih ihs => simpa [*] using ih.expressions ihs

theorem operators_ofKind? {kind : Kind} {k : Nat} (h : kind ∈ operators k) :
    ∃ op, Operator.ofKind? kind = some op := by
  unfold operators at h
  split at h <;> simp only [List.mem_cons, List.not_mem_nil, or_false] at h <;>
    rcases h with rfl | rfl | rfl | rfl <;> exact ⟨_, rfl⟩

theorem ne_number_of_mem_operators {kind : Kind} {k : Nat} (h : kind ∈ operators k) :
    kind ≠ .number := by
  rintro rfl
  obtain ⟨op, hop⟩ := operators_ofKind? h
  cases hop

/-- What is read as a number is one. -/
theorem Reads.legible {φ : Phrase} {n m : Nat} {ts : List Token} (h : Reads φ n ts m) :
    ∀ t ∈ ts, t.Legible := by
  induction h with
  | literal _ hlegible => simpa using hlegible
  | binary _ ht _ _ ihl ihr =>
      have hne := ne_number_of_mem_operators ht
      simp_all [Token.Legible, or_imp]
  | signed hop _ ih =>
      rcases unaryOp?_eq_some hop with hkind | hkind <;> simp_all [Token.Legible, or_imp]
  | _ => simp_all [Token.Legible, or_imp]

/-! ## The nearest `if` -/

/-- The tokens can be read as a statement, whatever numbers are given out before. -/
def ReadableStatement (ts : List Token) : Prop :=
  ∀ n, ∃ d s m, Reads (.statement d s) n ts m

/-- An `else` after a statement that can take one makes a statement with it. -/
theorem Reads.attach {n m : Nat} {a : Stmt} {ts bs : List Token} {els : Token}
    (h : Reads (.statement true a) n ts m) (hels : els.kind = .keyword .elseWord)
    (hb : ReadableStatement bs) :
    ∃ d s k, Reads (.statement d s) n (ts ++ els :: bs) k := by
  generalize hφ : Phrase.statement true a = φ at h
  induction h generalizing a with
  | @ifThen n m k c d a' cs as kw left right hkw hl hc hr ha _ iha =>
      cases d with
      | true =>
          obtain ⟨d, s, l, hs⟩ := iha rfl
          exact ⟨true, _, l, by simpa using hc.ifThen hkw hl hr hs⟩
      | false =>
          obtain ⟨d, s, l, hs⟩ := hb k
          exact ⟨d, _, l, by simpa using hc.ifElse hkw hl hr ha hels hs⟩
  | ifElse hkw hl hc hr ha hels' _ _ _ ihb =>
      cases hφ
      obtain ⟨d, s, l, hs⟩ := ihb rfl
      exact ⟨d, _, l, by simpa using hc.ifElse hkw hl hr ha hels' hs⟩
  | whileLoop hkw hl hc hr _ _ ihb =>
      cases hφ
      obtain ⟨d, s, l, hs⟩ := ihb rfl
      exact ⟨d, _, l, by simpa using hc.whileLoop hkw hl hr hs⟩
  | forLoop hkw hl hi hc hsemi hs hr _ _ _ _ ihb =>
      cases hφ
      obtain ⟨d, s, l, hs'⟩ := ihb rfl
      exact ⟨d, _, l, by simpa using hi.forLoop hkw hl hc hsemi hs hr hs'⟩
  | _ => cases hφ

theorem ReadableStatement.ifElse {cs as bs : List Token} {kw left right els : Token}
    (hkw : kw.kind = .keyword .ifWord) (hl : left.kind = .leftParen)
    (hc : ∀ n, ∃ c m, Reads (.expression c) n cs m) (hr : right.kind = .rightParen)
    (ha : ReadableStatement as) (hels : els.kind = .keyword .elseWord)
    (hb : ReadableStatement bs) :
    ReadableStatement (kw :: left :: (cs ++ right :: (as ++ els :: bs))) := by
  intro n
  obtain ⟨c, m, hread⟩ := hc n
  obtain ⟨d, a, k, hreada⟩ := ha m
  cases d with
  | true =>
      obtain ⟨d, s, l, hs⟩ := hreada.attach hels hb
      exact ⟨true, _, l, hread.ifThen hkw hl hr hs⟩
  | false =>
      obtain ⟨d, s, l, hs⟩ := hb k
      exact ⟨d, _, l, hread.ifElse hkw hl hr hreada hels hs⟩

/-! ## From derivations to readings -/

/-- The tokens can be read as what the symbol stands for, whatever numbers are given out
before. -/
def Readable : Symbol → List Token → Prop
  | .module, ts => ∃ us eof, ts = us ++ [eof] ∧ eof.kind = .eof ∧
      ∀ n, ∃ body m, Reads (.declarations body) n us m
  | .declarations, ts => ∀ n, ∃ body m, Reads (.declarations body) n ts m
  | .declaration, ts => ∀ n, ∃ s m, Reads (.declaration s) n ts m
  | .variable, ts => ∀ n, ∃ s m, Reads (.variable s) n ts m
  | .function, ts => ∀ kind start n, ∃ f m, Reads (.function kind start f) n ts m
  | .methods, ts => ∀ n, ∃ fs m, Reads (.methods fs) n ts m
  | .parameters, ts => ∀ n, ∃ ps m, Reads (.parameters ps) n ts m
  | .names, ts => ∀ n, ∃ ps m, Reads (.names ps) n ts m
  | .statement, ts => ReadableStatement ts
  | .initializer, ts => ∀ n, ∃ init m, Reads (.initializer init) n ts m
  | .optional, ts => ∀ n, ∃ e m, Reads (.optional e) n ts m
  | .expression, ts => ∀ n, ∃ e m, Reads (.expression e) n ts m
  | .level k, ts => ∀ n, ∃ e m, Reads (.level k e) n ts m
  | .unary, ts => ∀ n, ∃ e m, Reads (.unary e) n ts m
  | .call, ts => ∀ n, ∃ e m, Reads (.call e) n ts m
  | .primary, ts => ∀ n, ∃ e m, Reads (.primary e) n ts m
  | .arguments, ts => ∀ n, ∃ es m, Reads (.arguments es) n ts m
  | .expressions, ts => ∀ n, ∃ es m, Reads (.expressions es) n ts m

/-- Tokens of these kinds, whose numbers are numbers. -/
def Spells (ts : List Token) (w : List Kind) : Prop :=
  ts.map Token.kind = w ∧ ∀ t ∈ ts, t.Legible

section Spelling

variable {ts : List Token} {u v : List Kind} {kind : Kind}

theorem spells_nil : Spells ts [] ↔ ts = [] := by
  rw [Spells, List.map_eq_nil_iff]
  exact ⟨fun h => h.1, fun h => ⟨h, h ▸ List.forall_mem_nil _⟩⟩

theorem spells_cons (hkind : kind ≠ .number) : Spells ts (kind :: v) ↔
    ∃ t us, ts = t :: us ∧ t.kind = kind ∧ Spells us v := by
  constructor
  · rintro ⟨hkinds, hlegible⟩
    obtain ⟨t, us, rfl, ht, hus⟩ := List.map_eq_cons_iff.mp hkinds
    exact ⟨t, us, rfl, ht, hus, (List.forall_mem_cons.mp hlegible).2⟩
  · rintro ⟨t, us, rfl, rfl, rfl, hlegible⟩
    exact ⟨rfl, List.forall_mem_cons.mpr ⟨Token.legible_of_kind_ne hkind, hlegible⟩⟩

theorem spells_append : Spells ts (u ++ v) ↔
    ∃ us vs, ts = us ++ vs ∧ Spells us u ∧ Spells vs v := by
  constructor
  · rintro ⟨hkinds, hlegible⟩
    obtain ⟨us, vs, rfl, hus, hvs⟩ := List.map_eq_append_iff.mp hkinds
    obtain ⟨hlegible, hlegible'⟩ := List.forall_mem_append.mp hlegible
    exact ⟨us, vs, rfl, ⟨hus, hlegible⟩, hvs, hlegible'⟩
  · rintro ⟨us, vs, rfl, ⟨rfl, hlegible⟩, rfl, hlegible'⟩
    exact ⟨List.map_append, List.forall_mem_append.mpr ⟨hlegible, hlegible'⟩⟩

end Spelling

theorem readable_declarations {ts us : List Token} (h : Readable .declaration ts)
    (hs : Readable .declarations us) : Readable .declarations (ts ++ us) := by
  intro n
  obtain ⟨s, m, hread⟩ := h n
  obtain ⟨body, k, hreads⟩ := hs m
  exact ⟨_, k, hread.declarations hreads⟩

theorem readable_body {ps us : List Token} {name left right brace close : Token}
    (hname : name.kind = .identifier) (hl : left.kind = .leftParen)
    (hp : Readable .parameters ps) (hr : right.kind = .rightParen)
    (hbrace : brace.kind = .leftBrace) (hs : Readable .declarations us)
    (hclose : close.kind = .rightBrace) :
    Readable .function (name :: left :: (ps ++ right :: brace :: (us ++ [close]))) := by
  intro kind start n
  obtain ⟨params, m, hps⟩ := hp n
  obtain ⟨body, k, hbody⟩ := hs m
  exact ⟨_, k, hps.body hname hl hr hbrace hbody hclose⟩

theorem readable_methods {ts us : List Token} (h : Readable .function ts)
    (hs : Readable .methods us) : Readable .methods (ts ++ us) := by
  intro n
  cases ts with
  | nil =>
      obtain ⟨f, m, hread⟩ := h .method .nowhere n
      cases hread
  | cons t ts =>
      obtain ⟨f, m, hread⟩ := h .method t.range n
      obtain ⟨fs, k, hreads⟩ := hs m
      exact ⟨_, k, .methods rfl hread hreads⟩

theorem readable_forLoop {is cs ss bs : List Token} {kw left semi right : Token}
    (hkw : kw.kind = .keyword .forWord) (hl : left.kind = .leftParen)
    (hi : Readable .initializer is) (hc : Readable .optional cs)
    (hsemi : semi.kind = .semicolon) (hs : Readable .optional ss)
    (hr : right.kind = .rightParen) (hb : ReadableStatement bs) :
    ReadableStatement (kw :: left :: (is ++ (cs ++ semi :: (ss ++ right :: bs)))) := by
  intro n
  obtain ⟨init, n₁, hinit⟩ := hi n
  obtain ⟨test, n₂, htest⟩ := hc n₁
  obtain ⟨step, n₃, hstep⟩ := hs n₂
  obtain ⟨d, body, n₄, hbody⟩ := hb n₃
  exact ⟨d, _, n₄, hinit.forLoop hkw hl htest hsemi hstep hr hbody⟩

theorem readable_assert {ts : List Token} {kw semi : Token}
    (hkw : kw.kind = .keyword .assertWord) (h : Readable .expression ts)
    (hsemi : semi.kind = .semicolon) : ReadableStatement (kw :: (ts ++ [semi])) := by
  intro n
  obtain ⟨e, m, hread⟩ := h n
  by_cases heq : ∃ l r span, e = .binary .equal l r span
  · obtain ⟨l, r, span, rfl⟩ := heq
    exact ⟨false, _, m, hread.assertEqual hkw hsemi⟩
  · refine ⟨false, _, m, hread.assert hkw ?_ hsemi⟩
    intro l r span he
    exact heq ⟨l, r, span, he⟩

theorem readable_binary {ts us : List Token} {t : Token} {k : Nat}
    (hl : Readable (.level k) ts) (ht : t.kind ∈ operators k)
    (hr : Readable (.level (k + 1)) us) : Readable (.level k) (ts ++ t :: us) := by
  intro n
  obtain ⟨l, m, hleft⟩ := hl n
  obtain ⟨r, j, hright⟩ := hr m
  obtain ⟨op, hop⟩ := operators_ofKind? ht
  exact ⟨_, j, hleft.binary ht hop hright⟩

theorem Derives.readable {σ : Symbol} {w : List Kind} (h : Derives σ w) :
    ∀ ts : List Token, Spells ts w → Readable σ ts := by
  induction h with
  | noDeclaration | noMethod | noParameter | absent | noArgument =>
      intro ts hts n
      obtain rfl := spells_nil.mp hts
      exact ⟨_, n, by constructor⟩
  | newVariable _ ih | parameters _ ih | initVariable _ ih | present _ ih | loosest _ ih
  | tighter _ ih | unsigned _ ih | primary _ ih | arguments _ ih | lastExpression _ ih =>
      intro ts hts n
      obtain ⟨_, m, hread⟩ := ih ts hts n
      exact ⟨_, m, by constructor; exact hread⟩
  | operand _ ih =>
      intro ts hts n
      obtain ⟨e, m, hread⟩ := ih ts hts n
      exact ⟨e, m, hread.operand⟩
  | statement _ ih =>
      intro ts hts n
      obtain ⟨d, s, m, hread⟩ := ih ts hts n
      exact ⟨s, m, hread.statement⟩
  | module _ ih =>
      intro ts hts
      simp (disch := decide) only [spells_append, spells_cons, spells_nil] at hts
      obtain ⟨us, _, rfl, hus, eof, _, rfl, heof, rfl⟩ := hts
      exact ⟨us, eof, rfl, heof, ih us hus⟩
  | declarations _ _ ih ihs =>
      intro ts hts
      obtain ⟨us, vs, rfl, hus, hvs⟩ := spells_append.mp hts
      exact readable_declarations (ih us hus) (ihs vs hvs)
  | methods _ _ ih ihs =>
      intro ts hts
      obtain ⟨us, vs, rfl, hus, hvs⟩ := spells_append.mp hts
      exact readable_methods (ih us hus) (ihs vs hvs)
  | plainClass _ ih =>
      intro ts hts n
      simp (disch := decide) only [spells_append, spells_cons, spells_nil] at hts
      obtain ⟨kw, _, rfl, hkw, name, _, rfl, hname, left, _, rfl, hl, ws, _, rfl, hws, right, _,
        rfl, hr, rfl⟩ := hts
      obtain ⟨fs, m, hread⟩ := ih ws hws n
      exact ⟨_, m, .plainClass hkw hname hl hread hr⟩
  | subclass _ ih =>
      intro ts hts n
      simp (disch := decide) only [spells_append, spells_cons, spells_nil] at hts
      obtain ⟨kw, _, rfl, hkw, name, _, rfl, hname, less, _, rfl, hless, sup, _, rfl, hsup, left,
        _, rfl, hl, ws, _, rfl, hws, right, _, rfl, hr, rfl⟩ := hts
      obtain ⟨fs, m, hread⟩ := ih ws hws (n + 1)
      exact ⟨_, m, .subclass hkw hname hless hsup hl hread hr⟩
  | function _ ih =>
      intro ts hts n
      obtain ⟨kw, us, rfl, hkw, hus⟩ := (spells_cons (by decide)).mp hts
      obtain ⟨f, m, hread⟩ := ih us hus .function kw.range n
      exact ⟨_, m, .function hkw hread⟩
  | unset =>
      intro ts hts n
      simp (disch := decide) only [spells_cons, spells_nil] at hts
      obtain ⟨kw, _, rfl, hkw, name, _, rfl, hname, semi, _, rfl, hsemi, rfl⟩ := hts
      exact ⟨_, n, .unset hkw hname hsemi⟩
  | set _ ih =>
      intro ts hts n
      simp (disch := decide) only [spells_append, spells_cons, spells_nil] at hts
      obtain ⟨kw, _, rfl, hkw, name, _, rfl, hname, eq, _, rfl, heq, ws, _, rfl, hws, semi, _,
        rfl, hsemi, rfl⟩ := hts
      obtain ⟨e, m, hread⟩ := ih ws hws n
      exact ⟨_, m, .set hkw hname heq hread hsemi⟩
  | body _ _ ihp ihs =>
      intro ts hts
      simp (disch := decide) only [spells_append, spells_cons, spells_nil] at hts
      obtain ⟨name, _, rfl, hname, left, _, rfl, hl, ps, _, rfl, hps, right, _, rfl, hr, brace, _,
        rfl, hbrace, ws, _, rfl, hws, close, _, rfl, hclose, rfl⟩ := hts
      exact readable_body hname hl (ihp ps hps) hr hbrace (ihs ws hws) hclose
  | lastName =>
      intro ts hts n
      simp (disch := decide) only [spells_cons, spells_nil] at hts
      obtain ⟨name, _, rfl, hname, rfl⟩ := hts
      exact ⟨_, n, .lastName hname⟩
  | name _ ih =>
      intro ts hts n
      simp (disch := decide) only [spells_cons] at hts
      obtain ⟨name, _, rfl, hname, comma, us, rfl, hcomma, hus⟩ := hts
      obtain ⟨ps, m, hread⟩ := ih us hus n
      exact ⟨_, m, .name hname hcomma hread⟩
  | forLoop _ _ _ _ ihi ihc ihs ihb =>
      intro ts hts
      simp (disch := decide) only [spells_append, spells_cons] at hts
      obtain ⟨kw, _, rfl, hkw, left, _, rfl, hl, is, _, rfl, his, cs, _, rfl, hcs, semi, _, rfl,
        hsemi, ss, _, rfl, hss, right, bs, rfl, hr, hbs⟩ := hts
      exact readable_forLoop hkw hl (ihi is his) (ihc cs hcs) hsemi (ihs ss hss) hr (ihb bs hbs)
  | ifThen _ _ ihc iha =>
      intro ts hts n
      simp (disch := decide) only [spells_append, spells_cons] at hts
      obtain ⟨kw, _, rfl, hkw, left, _, rfl, hl, cs, _, rfl, hcs, right, as, rfl, hr, has⟩ := hts
      obtain ⟨c, m, hc⟩ := ihc cs hcs n
      obtain ⟨d, a, k, ha⟩ := iha as has m
      exact ⟨true, _, k, hc.ifThen hkw hl hr ha⟩
  | ifElse _ _ _ ihc iha ihb =>
      intro ts hts
      simp (disch := decide) only [spells_append, spells_cons] at hts
      obtain ⟨kw, _, rfl, hkw, left, _, rfl, hl, cs, _, rfl, hcs, right, _, rfl, hr, as, _, rfl,
        has, els, bs, rfl, hels, hbs⟩ := hts
      exact ReadableStatement.ifElse hkw hl (ihc cs hcs) hr (iha as has) hels (ihb bs hbs)
  | whileLoop _ _ ihc ihb =>
      intro ts hts n
      simp (disch := decide) only [spells_append, spells_cons] at hts
      obtain ⟨kw, _, rfl, hkw, left, _, rfl, hl, cs, _, rfl, hcs, right, bs, rfl, hr, hbs⟩ := hts
      obtain ⟨c, m, hc⟩ := ihc cs hcs n
      obtain ⟨d, s, k, hs⟩ := ihb bs hbs m
      exact ⟨d, _, k, hc.whileLoop hkw hl hr hs⟩
  | print _ ih =>
      intro ts hts n
      simp (disch := decide) only [spells_append, spells_cons, spells_nil] at hts
      obtain ⟨kw, _, rfl, hkw, ws, _, rfl, hws, semi, _, rfl, hsemi, rfl⟩ := hts
      obtain ⟨e, m, hread⟩ := ih ws hws n
      exact ⟨false, _, m, hread.print hkw hsemi⟩
  | assert _ ih =>
      intro ts hts
      simp (disch := decide) only [spells_append, spells_cons, spells_nil] at hts
      obtain ⟨kw, _, rfl, hkw, ws, _, rfl, hws, semi, _, rfl, hsemi, rfl⟩ := hts
      exact readable_assert hkw (ih ws hws) hsemi
  | ret _ ih =>
      intro ts hts n
      simp (disch := decide) only [spells_append, spells_cons, spells_nil] at hts
      obtain ⟨kw, _, rfl, hkw, ws, _, rfl, hws, semi, _, rfl, hsemi, rfl⟩ := hts
      obtain ⟨e, m, hread⟩ := ih ws hws n
      exact ⟨false, _, m, hread.ret hkw hsemi⟩
  | block _ ih =>
      intro ts hts n
      simp (disch := decide) only [spells_append, spells_cons, spells_nil] at hts
      obtain ⟨left, _, rfl, hl, ws, _, rfl, hws, right, _, rfl, hr, rfl⟩ := hts
      obtain ⟨body, m, hread⟩ := ih ws hws n
      exact ⟨false, _, m, hread.block hl hr⟩
  | expr _ ih =>
      intro ts hts n
      simp (disch := decide) only [spells_append, spells_cons, spells_nil] at hts
      obtain ⟨ws, _, rfl, hws, semi, _, rfl, hsemi, rfl⟩ := hts
      obtain ⟨e, m, hread⟩ := ih ws hws n
      exact ⟨false, _, m, hread.expr hsemi⟩
  | noInitializer =>
      intro ts hts n
      simp (disch := decide) only [spells_cons, spells_nil] at hts
      obtain ⟨semi, _, rfl, hsemi, rfl⟩ := hts
      exact ⟨_, n, .noInitializer hsemi⟩
  | initExpr _ ih =>
      intro ts hts n
      simp (disch := decide) only [spells_append, spells_cons, spells_nil] at hts
      obtain ⟨ws, _, rfl, hws, semi, _, rfl, hsemi, rfl⟩ := hts
      obtain ⟨e, m, hread⟩ := ih ws hws n
      exact ⟨_, m, hread.initExpr hsemi⟩
  | assign _ ih =>
      intro ts hts n
      simp (disch := decide) only [spells_cons] at hts
      obtain ⟨name, _, rfl, hname, eq, us, rfl, heq, hus⟩ := hts
      obtain ⟨e, m, hread⟩ := ih us hus (n + 1)
      exact ⟨_, m + 1, .assign hname heq hread⟩
  | setProperty _ _ iho ih =>
      intro ts hts n
      simp (disch := decide) only [spells_append, spells_cons] at hts
      obtain ⟨us, _, rfl, hus, dot, _, rfl, hdot, name, _, rfl, hname, eq, ws, rfl, heq, hws⟩ :=
        hts
      obtain ⟨o, m, ho⟩ := iho us hus n
      obtain ⟨e, k, he⟩ := ih ws hws m
      exact ⟨_, k, ho.setProperty hdot hname heq he⟩
  | binary _ hop _ ihl ihr =>
      intro ts hts
      rw [spells_append] at hts
      obtain ⟨us, _, rfl, hus, hts⟩ := hts
      obtain ⟨t, ws, rfl, rfl, hws⟩ := (spells_cons (ne_number_of_mem_operators hop)).mp hts
      exact readable_binary (ihl us hus) hop (ihr ws hws)
  | signed hop _ ih =>
      intro ts hts n
      obtain ⟨t, us, rfl, rfl, hus⟩ :=
        (spells_cons (by rcases hop with rfl | rfl <;> decide)).mp hts
      obtain ⟨e, m, hread⟩ := ih us hus n
      obtain ⟨op, hop⟩ : ∃ op, unaryOp? t.kind = some op := by
        rcases hop with h | h <;> rw [h] <;> exact ⟨_, rfl⟩
      exact ⟨_, m, .signed hop hread⟩
  | call _ _ ih iha =>
      intro ts hts n
      simp (disch := decide) only [spells_append, spells_cons, spells_nil] at hts
      obtain ⟨us, _, rfl, hus, left, _, rfl, hl, as, _, rfl, has, right, _, rfl, hr, rfl⟩ := hts
      obtain ⟨e, m, hread⟩ := ih us hus n
      obtain ⟨es, k, hargs⟩ := iha as has m
      exact ⟨_, k, hread.call hl hargs hr⟩
  | property _ ih =>
      intro ts hts n
      simp (disch := decide) only [spells_append, spells_cons, spells_nil] at hts
      obtain ⟨us, _, rfl, hus, dot, _, rfl, hdot, name, _, rfl, hname, rfl⟩ := hts
      obtain ⟨e, m, hread⟩ := ih us hus n
      exact ⟨_, m, hread.property hdot hname⟩
  | literal hlit =>
      intro ts hts n
      obtain ⟨hkinds, hlegible⟩ := hts
      simp only [List.map_eq_cons_iff, List.map_eq_nil_iff] at hkinds
      obtain ⟨t, _, rfl, rfl, rfl⟩ := hkinds
      exact ⟨_, n, .literal hlit (hlegible t List.mem_cons_self)⟩
  | this =>
      intro ts hts n
      simp (disch := decide) only [spells_cons, spells_nil] at hts
      obtain ⟨t, _, rfl, ht, rfl⟩ := hts
      exact ⟨_, n + 1, .this ht⟩
  | super =>
      intro ts hts n
      simp (disch := decide) only [spells_cons, spells_nil] at hts
      obtain ⟨t, _, rfl, ht, dot, _, rfl, hdot, name, _, rfl, hname, rfl⟩ := hts
      exact ⟨_, n + 2, .super ht hdot hname⟩
  | identifier =>
      intro ts hts n
      simp (disch := decide) only [spells_cons, spells_nil] at hts
      obtain ⟨t, _, rfl, ht, rfl⟩ := hts
      exact ⟨_, n + 1, .identifier ht⟩
  | group _ ih =>
      intro ts hts n
      simp (disch := decide) only [spells_append, spells_cons, spells_nil] at hts
      obtain ⟨left, _, rfl, hl, ws, _, rfl, hws, right, _, rfl, hr, rfl⟩ := hts
      obtain ⟨e, m, hread⟩ := ih ws hws n
      exact ⟨_, m, hread.group hl hr⟩
  | expressions _ _ ih ihs =>
      intro ts hts n
      simp (disch := decide) only [spells_append, spells_cons] at hts
      obtain ⟨us, _, rfl, hus, comma, ws, rfl, hcomma, hws⟩ := hts
      obtain ⟨e, m, hread⟩ := ih us hus n
      obtain ⟨es, k, hreads⟩ := ihs ws hws m
      exact ⟨_, k, hread.expressions hcomma hreads⟩

end LoxMachine.Grammar
