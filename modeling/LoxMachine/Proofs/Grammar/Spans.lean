import LoxMachine.Proofs.Grammar.Soundness
import LoxMachine.Proofs.Source.Ranges

/-!
# Spans

The span of an expression, a statement or a declaration reaches from the start of the first
token it is read from to the end of the last one.
-/

namespace LoxMachine.Grammar

open LoxMachine.Parser

variable {src : Source} {ts us ps qs : List Token} {t first last : Token} {a b r : Range}
  {n m : Nat}

/-! ## Tokens in their order -/

/-- The tokens are of the source, and each stands behind those before it. -/
structure InOrder (src : Source) (ts : List Token) : Prop where
  proper : ∀ t ∈ ts, t.range.Proper src
  increasing : ts.Pairwise fun t u => t.range.stop ≤ u.range.start

/-- The range from the start of the first of some tokens to the end of the last. -/
def Across (src : Source) (ts : List Token) (r : Range) : Prop :=
  ∃ first last, ts.head? = some first ∧ ts.getLast? = some last ∧
    r = ⟨some src, first.range.start, last.range.stop⟩

theorem InOrder.sublist (h : InOrder src ts) (hus : us.Sublist ts) : InOrder src us :=
  ⟨fun t ht => h.proper t (hus.subset ht), h.increasing.sublist hus⟩

theorem InOrder.front (h : InOrder src (ts ++ us)) : InOrder src ts :=
  h.sublist (List.sublist_append_left ts us)

theorem InOrder.rest (h : InOrder src (ts ++ us)) : InOrder src us :=
  h.sublist (List.sublist_append_right ts us)

theorem InOrder.tail (h : InOrder src (t :: ts)) : InOrder src ts :=
  h.sublist (List.sublist_cons_self t ts)

theorem InOrder.first_le (h : InOrder src ts) (hfirst : ts.head? = some first) (ht : t ∈ ts) :
    first.range.start ≤ t.range.start := by
  obtain ⟨rest, rfl⟩ := List.head?_eq_some_iff.mp hfirst
  rcases List.mem_cons.mp ht with rfl | ht
  · exact Nat.le_refl _
  · have hnonempty := (h.proper first List.mem_cons_self).nonempty
    exact Nat.le_trans (Nat.le_of_lt hnonempty) (List.rel_of_pairwise_cons h.increasing ht)

theorem InOrder.le_last (h : InOrder src ts) (hlast : ts.getLast? = some last) (ht : t ∈ ts) :
    t.range.stop ≤ last.range.stop := by
  obtain ⟨rest, rfl⟩ := List.getLast?_eq_some_iff.mp hlast
  rcases List.mem_append.mp ht with ht | ht
  · have hnonempty := (h.proper last (by simp)).nonempty
    have hbefore := (List.pairwise_append.mp h.increasing).2.2 t ht last List.mem_cons_self
    exact Nat.le_trans hbefore (Nat.le_of_lt hnonempty)
  · obtain rfl := List.mem_singleton.mp ht
    exact Nat.le_refl _

/-- A range across some of the tokens lies in a range across all of them. -/
theorem Across.within (h : InOrder src ts) (ha : Across src ts a) (hus : us ⊆ ts)
    (hb : Across src us b) : a.start ≤ b.start ∧ b.stop ≤ a.stop := by
  obtain ⟨first, last, hfirst, hlast, rfl⟩ := ha
  obtain ⟨first', last', hfirst', hlast', rfl⟩ := hb
  exact ⟨h.first_le hfirst (hus (List.mem_of_head? hfirst')),
    h.le_last hlast (hus (List.mem_of_getLast? hlast'))⟩

theorem Across.proper (h : InOrder src ts) (ha : Across src ts a) : a.Proper src := by
  obtain ⟨first, last, hfirst, hlast, rfl⟩ := ha
  have hmem := List.mem_of_head? hfirst
  have hproper := h.proper first hmem
  refine ⟨rfl, ?_, (h.proper last (List.mem_of_getLast? hlast)).bounded⟩
  exact Nat.lt_of_lt_of_le hproper.nonempty (h.le_last hlast hmem)

/-- Ranges across tokens that stand apart lie apart. -/
theorem Across.apart (h : InOrder src (ts ++ us)) (ha : Across src ts a)
    (hb : Across src us b) : a.stop ≤ b.start := by
  obtain ⟨_, last, _, hlast, rfl⟩ := ha
  obtain ⟨first, _, hfirst, _, rfl⟩ := hb
  exact (List.pairwise_append.mp h.increasing).2.2 last (List.mem_of_getLast? hlast) first
    (List.mem_of_head? hfirst)

theorem across_single (h : InOrder src [t]) : Across src [t] t.range := by
  refine ⟨t, t, rfl, rfl, ?_⟩
  have hsource := (h.proper t List.mem_cons_self).source
  rw [← hsource]

/-- Two ranges are joined across what stands between them. -/
theorem Across.join (mid : List Token) (h : InOrder src ts) (hts : ts = ps ++ (mid ++ qs))
    (ha : Across src ps a) (hb : Across src qs b) : Across src ts (a.join b) := by
  subst hts
  have hsource : ∀ {us r}, Across src us r → r.source = some src := by
    rintro us r ⟨_, _, _, _, rfl⟩
    rfl
  have hapart := ha.apart (h.sublist ((List.Sublist.refl ps).append
    (List.sublist_append_right mid qs))) hb
  have hleft := ha.proper h.front
  have hright := hb.proper h.rest.rest
  obtain ⟨first, last, hfirst, _, rfl⟩ := ha
  obtain ⟨first', last', _, hlast', rfl⟩ := hb
  refine ⟨first, last', ?_, ?_, ?_⟩
  · rw [List.head?_append, hfirst]
    rfl
  · rw [List.getLast?_append, List.getLast?_append, hlast']
    rfl
  · have hstart : first.range.start ≤ first'.range.start :=
      Nat.le_trans (Nat.le_of_lt hleft.nonempty) hapart
    have hstop : last.range.stop ≤ last'.range.stop :=
      Nat.le_trans hapart (Nat.le_of_lt hright.nonempty)
    simp only [Range.join, Nat.min_eq_left hstart, Nat.max_eq_right hstop]

/-- A token in front, and what comes last. -/
theorem Across.behind (mid : List Token) (h : InOrder src (first :: ts)) (hts : ts = mid ++ qs)
    (hb : Across src qs b) : Across src (first :: ts) (first.range.join b) := by
  have hfirst : InOrder src [first] := h.sublist (by simp)
  exact Across.join mid h (congrArg (first :: ·) hts) (across_single hfirst) hb

/-- A token in front and one at the end. -/
theorem across_around (mid : List Token) (h : InOrder src (first :: ts))
    (hts : ts = mid ++ [last]) :
    Across src (first :: ts) (first.range.join last.range) := by
  subst hts
  exact Across.behind mid h rfl (across_single h.tail.rest)

/-! ## Phrases -/

/-- The span of what the phrase stands for is across the tokens. A function starts where it is
said to start. -/
def Phrase.Spans (src : Source) : Phrase → List Token → Prop
  | .declaration s, ts | .variable s, ts | .statement _ s, ts => Across src ts s.span
  | .expression e, ts | .level _ e, ts | .unary e, ts | .call e, ts | .primary e, ts =>
      Across src ts e.span
  | .function _ start f, ts =>
      ∃ us right, ts = us ++ [right] ∧ f.span = start.join right.range
  | _, _ => True

theorem span_node (op : Operator) (l r : Expr) : (op.node l r).span = l.span.join r.span := by
  cases op <;> rfl

theorem span_forLoop (init : Option Stmt) (test : Expr) (step : Option Expr) (body : Stmt)
    (span : Range) : (forLoop init test step body span).span = span := by
  cases init <;> rfl

theorem Reads.spans {φ : Phrase} (h : Reads φ n ts m) (horder : InOrder src ts) :
    φ.Spans src ts := by
  induction h with
  | noDeclaration | declarations | noMethod | methods | noParameter | parameters | lastName | name
  | noInitializer | initVariable | initExpr | absent | present | noArgument | arguments
  | lastExpression | expressions => trivial
  | @plainClass _ _ _ ts _ name left right | @set _ _ _ ts _ name left right =>
      exact across_around (name :: left :: ts) horder rfl
  | @subclass _ _ _ ts _ name less parent left right =>
      exact across_around (name :: less :: parent :: left :: ts) horder rfl
  | function _ _ ih =>
      obtain ⟨us, right, rfl, hspan⟩ := ih horder.tail
      change Across src _ (Function.span _)
      rw [hspan]
      exact across_around us horder rfl
  | newVariable _ ih | statement _ ih | loosest _ ih | tighter _ ih | operand _ ih | unsigned _ ih
  | primary _ ih => exact ih horder
  | @unset _ _ name => exact across_around [name] horder rfl
  | @body _ _ _ _ _ ts us _ _ name left close brace right =>
      exact ⟨name :: left :: (ts ++ close :: brace :: us), right, by simp, rfl⟩
  | @forLoop _ _ _ _ _ _ _ _ _ _ is cs ss bs _ left semi right _ _ _ _ _ _ _ _ _ _ _ ih =>
      change Across src _ (Stmt.span _)
      rw [span_forLoop]
      have hbs := ih horder.tail.tail.rest.rest.tail.rest.tail
      exact Across.behind (left :: (is ++ (cs ++ semi :: (ss ++ [right])))) horder (by simp) hbs
  | @ifThen _ _ _ _ _ _ cs as _ left right _ _ _ _ _ _ ih =>
      have has := ih horder.tail.tail.rest.tail
      exact Across.behind (left :: (cs ++ [right])) horder (by simp) has
  | @ifElse _ _ _ _ _ _ _ _ cs as bs _ left right els _ _ _ _ _ _ _ _ _ ih =>
      have hbs := ih horder.tail.tail.rest.tail.rest.tail
      exact Across.behind (left :: (cs ++ right :: (as ++ [els]))) horder (by simp) hbs
  | @whileLoop _ _ _ _ _ _ cs bs _ left right _ _ _ _ _ _ ih =>
      have hbs := ih horder.tail.tail.rest.tail
      exact Across.behind (left :: (cs ++ [right])) horder (by simp) hbs
  | @print _ _ _ ts | @assertEqual _ _ _ _ _ ts | @assert _ _ _ ts | @ret _ _ _ ts
  | @block _ _ _ ts | @group _ _ _ ts => exact across_around ts horder rfl
  | expr _ _ ih =>
      exact Across.join [] horder rfl (ih horder.front) (across_single horder.rest)
  | @assign _ _ _ _ _ equals _ _ _ ih =>
      exact Across.behind [equals] horder rfl (ih horder.tail.tail)
  | @setProperty _ _ _ _ _ ts us dot name equals _ _ _ _ _ iho ihe =>
      have hname : InOrder src (ts ++ ([dot] ++ [name])) := by
        refine horder.sublist ((List.Sublist.refl ts).append ?_)
        simp
      have hget := Across.join [dot] hname rfl (iho horder.front) (across_single hname.rest.rest)
      exact Across.join [equals] horder (by simp) hget (ihe horder.rest.tail.tail.tail)
  | @binary _ _ _ _ _ _ _ _ _ t _ _ _ _ ihl ihr =>
      change Across src _ (Expr.span _)
      rw [span_node]
      exact Across.join [t] horder rfl (ihl horder.front) (ihr horder.rest.tail)
  | signed _ _ ih => exact Across.behind [] horder rfl (ih horder.tail)
  | @call _ _ _ _ _ _ us left right _ _ _ _ ih =>
      exact Across.join (left :: us) horder rfl (ih horder.front)
        (across_single horder.rest.tail.rest)
  | @property _ _ _ _ dot _ _ _ _ ih =>
      exact Across.join [dot] horder rfl (ih horder.front) (across_single horder.rest.tail)
  | literal | this | identifier => exact across_single horder
  | @super _ _ dot => exact across_around [dot] horder rfl

end LoxMachine.Grammar
