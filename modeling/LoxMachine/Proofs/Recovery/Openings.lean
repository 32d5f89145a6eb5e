import LoxMachine.Proofs.Grammar.Sequences

/-!
# Places where a declaration can stand

A text leads up to such a place by declarations that are complete and by the beginnings of
those around it.  The trees read on the way have no number that is given out later.
-/

namespace LoxMachine.Grammar

open LoxMachine.Parser

/-! ## Numbers that stay -/

section Numbers

variable {n m : Nat} {ts : List Token}

theorem Reads.le {φ : Phrase} (h : Reads φ n ts m) : n ≤ m := by
  induction h <;> omega

/-- Renumbering does not change the tree. -/
def Phrase.Fixed (f : Nat → Nat) : Phrase → Prop
  | .declarations body => Stmt.renumberAll f body = body
  | .declaration s => s.renumber f = s
  | .variable s => s.renumber f = s
  | .function _ _ decl => decl.renumber f = decl
  | .methods fs => Function.renumberAll f fs = fs
  | .parameters _ => True
  | .names _ => True
  | .statement _ s => s.renumber f = s
  | .initializer init => init.map (Stmt.renumber f) = init
  | .optional e => e.map (Expr.renumber f) = e
  | .expression e => e.renumber f = e
  | .level _ e => e.renumber f = e
  | .unary e => e.renumber f = e
  | .call e => e.renumber f = e
  | .primary e => e.renumber f = e
  | .arguments es => Expr.renumberAll f es = es
  | .expressions es => Expr.renumberAll f es = es

/-- A tree is the same if the numbers given out up to its end do not change. -/
theorem Reads.fixed {f : Nat → Nat} {φ : Phrase} (h : Reads φ n ts m)
    (hf : ∀ i ≤ m, f i = i) : φ.Fixed f := by
  induction h with
  | noParameter | parameters _ _ | lastName _ | name _ _ _ _ => trivial
  | noDeclaration | noMethod | unset _ _ _ | noInitializer _ | absent | noArgument
  | literal _ _ => rfl
  | newVariable _ ih | statement _ ih | loosest _ ih | tighter _ ih
  | operand _ ih | unsigned _ ih | primary _ ih | arguments _ ih => exact ih hf
  | initVariable _ ih | present _ ih => exact congrArg some (ih hf)
  | declarations _ hs ih ihs =>
      have h₁ := ih fun i hi => hf i (Nat.le_trans hi hs.le)
      simp only [Phrase.Fixed, Stmt.renumberAll] at h₁ ihs ⊢
      rw [h₁, ihs hf]
  | plainClass _ _ _ _ _ ih | function _ _ ih | set _ _ _ _ _ ih | print _ _ _ ih
  | assert _ _ _ _ ih | ret _ _ _ ih | block _ _ _ ih | expr _ _ ih | initExpr _ _ ih
  | group _ _ _ ih | property _ _ _ ih | signed _ _ ih | lastExpression _ ih =>
      have hpart := ih hf
      simp only [Phrase.Fixed] at hpart
      simp only [Phrase.Fixed, Stmt.renumber, Expr.renumber, Expr.renumberAll, Option.map_none,
        Option.map_some, hpart]
  | @assertEqual n m l r span ts _ _ _ _ _ ih =>
      have hpart := ih hf
      simp only [Phrase.Fixed, Expr.renumber, Expr.binary.injEq, true_and, and_true] at hpart
      simp only [Phrase.Fixed, Stmt.renumber, hpart]
  | @subclass n m _ _ _ _ _ _ _ _ _ _ _ _ _ h _ ih =>
      have hpart := ih hf
      have hparent := hf (n + 1) h.le
      simp only [Phrase.Fixed] at hpart
      simp only [Phrase.Fixed, Stmt.renumber, Option.map_some, Superclass.renumber, hpart, hparent]
  | body _ _ _ _ _ _ _ _ ih =>
      have hpart := ih hf
      simp only [Phrase.Fixed] at hpart
      simp only [Phrase.Fixed, Function.renumber, hpart]
  | methods _ _ hs ih ihs =>
      have hfirst := ih fun i hi => hf i (Nat.le_trans hi hs.le)
      have hrest := ihs hf
      simp only [Phrase.Fixed] at hfirst hrest
      simp only [Phrase.Fixed, Function.renumberAll, hfirst, hrest]
  | forLoop _ _ _ hc _ hs _ hb ihi ihc ihs ihb =>
      have hsb := Nat.le_trans hs.le hb.le
      have hinit := ihi fun i hi => hf i (Nat.le_trans hi (Nat.le_trans hc.le hsb))
      have htest := ihc fun i hi => hf i (Nat.le_trans hi hsb)
      have hstep := ihs fun i hi => hf i (Nat.le_trans hi hb.le)
      have hbody := ihb hf
      simp only [Phrase.Fixed] at hinit htest hstep hbody
      rw [Phrase.Fixed, ← forLoop_renumber, hinit, hstep, hbody, ← getD_renumber, htest]
  | ifThen _ _ _ _ ha ihc iha | whileLoop _ _ _ _ ha ihc iha =>
      have htest := ihc fun i hi => hf i (Nat.le_trans hi ha.le)
      have hbody := iha hf
      simp only [Phrase.Fixed] at htest hbody
      simp only [Phrase.Fixed, Stmt.renumber, htest, hbody]
  | ifElse _ _ _ _ ha _ hb ihc iha ihb =>
      have htest := ihc fun i hi => hf i (Nat.le_trans hi (Nat.le_trans ha.le hb.le))
      have hthen := iha fun i hi => hf i (Nat.le_trans hi hb.le)
      have helse := ihb hf
      simp only [Phrase.Fixed] at htest hthen helse
      simp only [Phrase.Fixed, Stmt.renumber, htest, hthen, helse]
  | @assign n m _ _ _ _ _ _ h ih =>
      have hvalue := ih fun i hi => hf i (Nat.le_succ_of_le hi)
      have hid := hf (m + 1) (Nat.le_refl _)
      simp only [Phrase.Fixed] at hvalue
      simp only [Phrase.Fixed, Expr.renumber, hvalue, hid]
  | setProperty _ _ _ _ h iho ih =>
      have hobject := iho fun i hi => hf i (Nat.le_trans hi h.le)
      have hvalue := ih hf
      simp only [Phrase.Fixed] at hobject hvalue
      simp only [Phrase.Fixed, Expr.renumber, hobject, hvalue]
  | binary _ _ _ hr ihl ihr =>
      have hleft := ihl fun i hi => hf i (Nat.le_trans hi hr.le)
      have hright := ihr hf
      simp only [Phrase.Fixed] at hleft hright
      rw [Phrase.Fixed, ← node_renumber, hleft, hright]
  | call _ _ ha _ ih iha =>
      have hcallee := ih fun i hi => hf i (Nat.le_trans hi ha.le)
      have hargs := iha hf
      simp only [Phrase.Fixed] at hcallee hargs
      simp only [Phrase.Fixed, Expr.renumber, hcallee, hargs]
  | @this n _ _ | @identifier n _ _ =>
      have hid := hf (n + 1) (Nat.le_refl _)
      simp only [Phrase.Fixed, Expr.renumber, hid]
  | @super n _ _ _ _ _ _ =>
      have hid := hf (n + 1) (Nat.le_succ _)
      have hthis := hf (n + 2) (Nat.le_refl _)
      simp only [Phrase.Fixed, Expr.renumber, hid, hthis]
  | expressions _ _ hs ih ihs =>
      have hfirst := ih fun i hi => hf i (Nat.le_trans hi hs.le)
      have hrest := ihs hf
      simp only [Phrase.Fixed] at hfirst hrest
      simp only [Phrase.Fixed, Expr.renumberAll, hfirst, hrest]

end Numbers

/-! ## Places -/

/-- The constructs with declarations in them. -/
inductive Construct where
  | declarations
  | statement
  | function
  | methods

/-- The tokens `ts` begin a construct and lead up to a place where a declaration can stand,
which is behind an earlier declaration or at the start of a body.  The node numbers from
`n + 1` to `m` are given out on the way. -/
inductive Opening : Construct → Nat → List Token → Nat → Prop where
  | here {n} : Opening .declarations n [] n
  | behind {n m k s ts us} : Reads (.declaration s) n ts m → Opening .declarations m us k →
      Opening .declarations n (ts ++ us) k
  | statement {n m ts} : Opening .statement n ts m → Opening .declarations n ts m
  | function {n m ts} {kw : Token} : kw.kind = .keyword .funWord → Opening .function n ts m →
      Opening .declarations n (kw :: ts) m
  | plainClass {n m ts} {kw name left : Token} : kw.kind = .keyword .classWord →
      name.kind = .identifier → left.kind = .leftBrace → Opening .methods n ts m →
      Opening .declarations n (kw :: name :: left :: ts) m
  | subclass {n m ts} {kw name less parent left : Token} : kw.kind = .keyword .classWord →
      name.kind = .identifier → less.kind = .less → parent.kind = .identifier →
      left.kind = .leftBrace → Opening .methods (n + 1) ts m →
      Opening .declarations n (kw :: name :: less :: parent :: left :: ts) m
  | method {n m ts} : Opening .function n ts m → Opening .methods n ts m
  | behindMethod {n m k f ts us} {first : Token} : ts.head? = some first →
      Reads (.function .method first.range f) n ts m → Opening .methods m us k →
      Opening .methods n (ts ++ us) k
  | body {n m k ps ts us} {name left right brace : Token} : name.kind = .identifier →
      left.kind = .leftParen → Reads (.parameters ps) n ts m → right.kind = .rightParen →
      brace.kind = .leftBrace → Opening .declarations m us k →
      Opening .function n (name :: left :: (ts ++ right :: brace :: us)) k
  | block {n m ts} {left : Token} : left.kind = .leftBrace → Opening .declarations n ts m →
      Opening .statement n (left :: ts) m
  | ifThen {n m k c ts us} {kw left right : Token} : kw.kind = .keyword .ifWord →
      left.kind = .leftParen → Reads (.expression c) n ts m → right.kind = .rightParen →
      Opening .statement m us k → Opening .statement n (kw :: left :: (ts ++ right :: us)) k
  | ifElse {n m k l c a ts us vs} {kw left right els : Token} : kw.kind = .keyword .ifWord →
      left.kind = .leftParen → Reads (.expression c) n ts m → right.kind = .rightParen →
      Reads (.statement false a) m us k → els.kind = .keyword .elseWord →
      Opening .statement k vs l →
      Opening .statement n (kw :: left :: (ts ++ right :: (us ++ els :: vs))) l
  | whileLoop {n m k c ts us} {kw left right : Token} : kw.kind = .keyword .whileWord →
      left.kind = .leftParen → Reads (.expression c) n ts m → right.kind = .rightParen →
      Opening .statement m us k → Opening .statement n (kw :: left :: (ts ++ right :: us)) k
  | forLoop {n₁ n₂ n₃ n₄ n₅ init test step is cs ss us} {kw left semi right : Token} :
      kw.kind = .keyword .forWord → left.kind = .leftParen →
      Reads (.initializer init) n₁ is n₂ → Reads (.optional test) n₂ cs n₃ →
      semi.kind = .semicolon → Reads (.optional step) n₃ ss n₄ → right.kind = .rightParen →
      Opening .statement n₄ us n₅ →
      Opening .statement n₁ (kw :: left :: (is ++ (cs ++ semi :: (ss ++ right :: us)))) n₅

variable {n m : Nat} {ts : List Token}

theorem Opening.le {c : Construct} (h : Opening c n ts m) : n ≤ m := by
  induction h with
  | here => exact Nat.le_refl _
  | behind h _ ih | behindMethod _ h _ ih | body _ _ h _ _ _ ih | ifThen _ _ h _ _ ih
  | whileLoop _ _ h _ _ ih => exact Nat.le_trans h.le ih
  | statement _ ih | function _ _ ih | plainClass _ _ _ _ ih | method _ ih | block _ _ ih =>
      exact ih
  | subclass _ _ _ _ _ _ ih => exact Nat.le_of_succ_le ih
  | ifElse _ _ hc _ ha _ _ ih => exact Nat.le_trans hc.le (Nat.le_trans ha.le ih)
  | forLoop _ _ hi hc _ hs _ _ ih =>
      exact Nat.le_trans hi.le (Nat.le_trans hc.le (Nat.le_trans hs.le ih))

/-- What leads from one place to another also leads there from outside. -/
theorem Opening.append {c : Construct} {k : Nat} {us : List Token} (h : Opening c n ts m)
    (hus : Opening .declarations m us k) : Opening c n (ts ++ us) k := by
  induction h with
  | here => exact hus
  | behind h _ ih =>
      rw [List.append_assoc]
      exact .behind h (ih hus)
  | statement _ ih => exact .statement (ih hus)
  | function hkw _ ih => exact .function hkw (ih hus)
  | plainClass hkw hname hleft _ ih => exact .plainClass hkw hname hleft (ih hus)
  | subclass hkw hname hless hparent hleft _ ih =>
      exact .subclass hkw hname hless hparent hleft (ih hus)
  | method _ ih => exact .method (ih hus)
  | behindMethod hfirst h _ ih =>
      rw [List.append_assoc]
      exact .behindMethod hfirst h (ih hus)
  | body hname hleft h hright hbrace _ ih =>
      simp only [List.cons_append, List.append_assoc]
      exact .body hname hleft h hright hbrace (ih hus)
  | block hleft _ ih => exact .block hleft (ih hus)
  | ifThen hkw hleft h hright _ ih =>
      simp only [List.cons_append, List.append_assoc]
      exact .ifThen hkw hleft h hright (ih hus)
  | ifElse hkw hleft hc hright ha hels _ ih =>
      simp only [List.cons_append, List.append_assoc]
      exact .ifElse hkw hleft hc hright ha hels (ih hus)
  | whileLoop hkw hleft h hright _ ih =>
      simp only [List.cons_append, List.append_assoc]
      exact .whileLoop hkw hleft h hright (ih hus)
  | forLoop hkw hleft hi hc hsemi hs hright _ ih =>
      simp only [List.cons_append, List.append_assoc]
      exact .forLoop hkw hleft hi hc hsemi hs hright (ih hus)

/-- A declaration can stand behind others. -/
theorem Reads.opening {body : List Stmt} (h : Reads (.declarations body) n ts m) :
    Opening .declarations n ts m := by
  induction body generalizing n ts with
  | nil =>
      cases h
      exact .here
  | cons s body ih =>
      cases h with
      | declarations hfirst hmore => exact .behind hfirst (ih hmore)

/-- The kinds a construct can start with. -/
def Construct.starts : Construct → List Kind
  | .declarations => [.keyword .classWord, .keyword .funWord, .keyword .varWord] ++ stmtStarts
  | .statement => stmtStarts
  | .function => [.identifier]
  | .methods => [.identifier]

theorem Opening.starts {c : Construct} (h : Opening c n ts m) :
    (c = .declarations ∧ ts = []) ∨ ∃ t vs, ts = t :: vs ∧ t.kind ∈ c.starts := by
  induction h with
  | here => exact Or.inl ⟨rfl, rfl⟩
  | behind h _ _ =>
      obtain ⟨t, vs, rfl, ht⟩ := h.starts rfl
      exact Or.inr ⟨t, _, rfl, ht⟩
  | behindMethod _ h _ _ =>
      obtain ⟨t, vs, rfl, ht⟩ := h.starts rfl
      exact Or.inr ⟨t, _, rfl, ht⟩
  | statement _ ih =>
      obtain ⟨h, _⟩ | ⟨t, vs, rfl, ht⟩ := ih
      · cases h
      · exact Or.inr ⟨t, vs, rfl, List.mem_append_right _ ht⟩
  | method _ ih =>
      obtain ⟨h, _⟩ | h := ih
      · cases h
      · exact Or.inr h
  | function hk _ _ | plainClass hk _ _ _ _ | subclass hk _ _ _ _ _ _ | body hk _ _ _ _ _ _
  | block hk _ _ | ifThen hk _ _ _ _ _ | ifElse hk _ _ _ _ _ _ _ | whileLoop hk _ _ _ _ _
  | forLoop hk _ _ _ _ _ _ _ _ =>
      exact Or.inr ⟨_, _, rfl, by rw [hk]; decide⟩

theorem Opening.head_ne_else {eof : Token} {us : List Token}
    (h : Opening .declarations n ts m) (hus : (us.headD eof).kind ≠ .keyword .elseWord) :
    ((ts ++ us).headD eof).kind ≠ .keyword .elseWord := by
  obtain ⟨_, rfl⟩ | ⟨t, vs, rfl, ht⟩ := h.starts
  · exact hus
  · exact head_ne_of_starts ht (by decide)

end LoxMachine.Grammar
