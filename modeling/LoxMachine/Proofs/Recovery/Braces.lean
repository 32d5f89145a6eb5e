import LoxMachine.Proofs.Recovery.Refusals
import LoxMachine.Proofs.Recovery.Statements

/-!
# A semicolon missing in front of a closing brace

Recovery passes the brace together with the broken statement, so that the block stays
open.  What is parsed from there on is not what would be behind the block: as a rule there
are more complaints.
-/

namespace LoxMachine.Grammar

open LoxMachine.Parser

/-! ## Braces -/

theorem not_brace_of_mem_operators {k : Nat} {op : Kind} (h : op ∈ operators k) :
    op ≠ .leftBrace ∧ op ≠ .rightBrace := by
  obtain ⟨o, ho⟩ := operators_ofKind? h
  constructor
  · rintro rfl
    cases ho
  · rintro rfl
    cases ho

theorem not_brace_of_mem_literals :
    ∀ kind ∈ literals, kind ≠ .leftBrace ∧ kind ≠ .rightBrace := by
  decide

/-- As many braces are opened as closed. -/
theorem Derives.balanced {s : Symbol} {w : List Kind} (h : Derives s w) :
    w.count .leftBrace = w.count .rightBrace := by
  induction h with
  | binary _ hop _ ihu ihv =>
      have hne := not_brace_of_mem_operators hop
      simp [ihu, ihv, hne]
  | literal ht =>
      have hne := not_brace_of_mem_literals _ ht
      simp [hne]
  | signed hop _ ih => obtain rfl | rfl := hop <;> simp [ih]
  | newVariable _ ih | statement _ ih | parameters _ ih | initVariable _ ih | present _ ih
  | loosest _ ih | tighter _ ih | operand _ ih | unsigned _ ih | primary _ ih | arguments _ ih
  | lastExpression _ ih => exact ih
  | _ =>
      simp only [List.count_cons, List.count_append, List.count_nil, beq_iff_eq, reduceCtorEq,
        if_true, if_false, Nat.add_zero] <;> omega

/-- The symbols of what is made of expressions and names alone. -/
def Symbol.flat : Symbol → Bool
  | .module | .declarations | .declaration | .function | .methods | .statement => false
  | _ => true

theorem Derives.rightBrace_notMem {s : Symbol} {w : List Kind} (h : Derives s w)
    (hs : s.flat = true) : Kind.rightBrace ∉ w := by
  induction h with
  | binary _ hop _ ihu ihv =>
      have hne := not_brace_of_mem_operators hop
      simp [ihu rfl, ihv rfl, Ne.symm hne.2]
  | literal ht =>
      have hne := not_brace_of_mem_literals _ ht
      simp [Ne.symm hne.2]
  | signed hop _ ih => obtain rfl | rfl := hop <;> simp [ih rfl]
  | module | noDeclaration | declarations | plainClass | subclass | function | newVariable
  | statement | body | noMethod | methods | forLoop | ifThen | ifElse | whileLoop | print | assert
  | ret | block | expr => cases hs
  | _ => simp_all [Symbol.flat]

section Holes

variable {eof semi brace : Token} {n m : Nat} {ts us H T A B D : List Token}

theorem Reads.flat {φ : Phrase} (h : Reads φ n ts m) (hφ : φ.symbol.flat = true) :
    ∀ t ∈ ts, t.kind ≠ .rightBrace := by
  intro t ht heq
  exact h.derives.rightBrace_notMem hφ (heq ▸ List.mem_map_of_mem ht)

/-! ## The place of the semicolon -/

/-- The tokens `A` lead up to a declaration that ends with the semicolon behind them. -/
def EndsIn (semi : Token) (c : Construct) (n : Nat) (A : List Token) : Prop :=
  ∃ A₀ D s k l, A = A₀ ++ D ∧ Opening c n A₀ k ∧ Reads (.declaration s) k (D ++ [semi]) l

theorem EndsIn.under {c c' : Construct} {n' : Nat} (h : EndsIn semi c' n' A)
    (hopen : ∀ {A₀ k}, Opening c' n' A₀ k → Opening c n (H ++ A₀) k) :
    EndsIn semi c n (H ++ A) := by
  obtain ⟨A₀, D, s, k, l, rfl, hplace, hread⟩ := h
  exact ⟨H ++ A₀, D, s, k, l, (List.append_assoc _ _ _).symm, hopen hplace, hread⟩

/-- Two neighbours stand in the first part, in the second, or on either side. -/
theorem append_eq_neighbours (h : H ++ T = A ++ semi :: brace :: B) :
    (∃ A', A = H ++ A' ∧ T = A' ++ semi :: brace :: B) ∨
      (H = A ++ [semi] ∧ T = brace :: B) ∨
      ∃ B', H = A ++ semi :: brace :: B' := by
  obtain ⟨A', hA, hT⟩ | ⟨C, hH, hC⟩ := List.append_eq_append_iff.mp h
  · exact Or.inl ⟨A', hA, hT⟩
  · cases C with
    | nil => exact Or.inl ⟨[], by simpa using hH.symm, hC.symm⟩
    | cons x C =>
        obtain ⟨hx, hT⟩ := List.cons.inj hC
        subst hx
        cases C with
        | nil => exact Or.inr (Or.inl ⟨hH, hT.symm⟩)
        | cons y C =>
            obtain ⟨hy, -⟩ := List.cons.inj hT
            subst hy
            exact Or.inr (Or.inr ⟨C, hH⟩)

/-- The neighbours stand behind what holds no brace and does not end with a semicolon. -/
theorem neighbours_behind {x : Token} (hsemi : semi.kind = .semicolon)
    (hbrace : brace.kind = .rightBrace) (h : H ++ x :: T = A ++ semi :: brace :: B)
    (hH : ∀ t ∈ H, t.kind ≠ .rightBrace) (hx : x.kind ∉ [Kind.semicolon, .rightBrace]) :
    ∃ A', A = H ++ x :: A' ∧ T = A' ++ semi :: brace :: B := by
  simp only [List.mem_cons, List.not_mem_nil, or_false, not_or] at hx
  have hsplit : (H ++ [x]) ++ T = A ++ semi :: brace :: B := by simpa using h
  obtain ⟨A', rfl, hT⟩ | ⟨hlast, -⟩ | ⟨B', hin⟩ := append_eq_neighbours hsplit
  · exact ⟨A', by simp, hT⟩
  · have hsame := (List.append_inj' hlast rfl).2
    rw [List.cons.injEq] at hsame
    exact absurd (hsame.1 ▸ hsemi) hx.1
  · have hmem : brace ∈ H ++ [x] := by rw [hin]; simp
    rcases List.mem_append.mp hmem with hmem | hmem
    · exact absurd hbrace (hH brace hmem)
    · exact absurd (List.mem_singleton.mp hmem ▸ hbrace) hx.2

/-- Either the semicolon is the last token of a body, or both stand in it. -/
theorem neighbours_body {right : Token} (h : ts ++ [right] = A ++ semi :: brace :: B) :
    ts = A ++ [semi] ∨ ∃ B', ts = A ++ semi :: brace :: B' := by
  obtain ⟨A', -, hlast⟩ | ⟨hts, -⟩ | hin := append_eq_neighbours h
  · have hlen := congrArg List.length hlast
    simp only [List.length_cons, List.length_nil, List.length_append] at hlen
    omega
  · exact Or.inl hts
  · exact Or.inr hin

/-- The last of several declarations ends where they do. -/
theorem Reads.endsIn {body : List Stmt} (h : Reads (.declarations body) n (A ++ [semi]) m) :
    EndsIn semi .declarations n A := by
  induction body generalizing n A with
  | nil =>
      generalize hts : A ++ [semi] = ts at h
      cases h
      simp at hts
  | cons s body ih =>
      generalize hts : A ++ [semi] = ts at h
      cases h with
      | @declarations _ j _ _ _ us vs hfirst hmore =>
          by_cases hvs : vs = []
          · rw [hvs, List.append_nil] at hts
            subst hts
            exact ⟨[], A, s, n, j, rfl, .here, hfirst⟩
          · obtain ⟨A', rfl, rfl⟩ := eq_concat_of_append hts.symm hvs
            exact (ih hmore).under (.behind hfirst)

/-- No method ends with a semicolon. -/
theorem Reads.methods_ne_concat (hsemi : semi.kind = .semicolon) {fs : List Function}
    (h : Reads (.methods fs) n ts m) : ts ≠ A ++ [semi] := by
  have hmark : (mark .rightBrace).kind = .rightBrace := rfl
  have heof : (mark .eof).kind = .eof := rfl
  induction fs generalizing n ts A with
  | nil =>
      cases h
      simp
  | cons f fs ih =>
      cases h with
      | @methods _ j _ _ _ us vs _ _ hfirst hmore =>
          intro hts
          by_cases hvs : vs = []
          · rw [hvs, List.append_nil] at hts
            have hlacks : Lacks (mark .eof) Bag.empty (mark .rightBrace) [] (.function _ _ f) n A :=
              hfirst.lacks heof hmark hsemi hts
            exact hlacks.elim
          · obtain ⟨A', hvs, -⟩ := eq_concat_of_append hts hvs
            exact ih hmore hvs

/-- The constructs that a declaration can stand in. -/
def Phrase.construct? : Phrase → Option Construct
  | .declarations _ => some .declarations
  | .declaration _ => some .declarations
  | .statement _ _ => some .statement
  | .function _ _ _ => some .function
  | .methods _ => some .methods
  | _ => none

theorem Reads.declarations_ne_brace {body : List Stmt} (hbrace : brace.kind = .rightBrace)
    (h : Reads (.declarations body) n ts m) : ts ≠ brace :: B := by
  cases h with
  | noDeclaration => exact (List.cons_ne_nil _ _).symm
  | declarations hfirst _ =>
      obtain ⟨t, vs, rfl, ht⟩ := hfirst.starts rfl
      intro hts
      rw [(List.cons.inj hts).1, hbrace] at ht
      exact absurd ht (by decide)

theorem Reads.methods_ne_brace {fs : List Function} (hbrace : brace.kind = .rightBrace)
    (h : Reads (.methods fs) n ts m) : ts ≠ brace :: B := by
  cases h with
  | noMethod => exact (List.cons_ne_nil _ _).symm
  | methods _ hfirst _ =>
      obtain ⟨t, vs, rfl, ht⟩ := hfirst.starts rfl
      intro hts
      rw [(List.cons.inj hts).1, hbrace] at ht
      exact absurd ht (by decide)

/-- A semicolon in front of a closing brace ends a declaration. -/
theorem Reads.neighbours (hsemi : semi.kind = .semicolon) (hbrace : brace.kind = .rightBrace)
    {φ : Phrase} (h : Reads φ n ts m) {c : Construct} (hφ : φ.construct? = some c)
    (hts : ts = A ++ semi :: brace :: B) : EndsIn semi c n A := by
  -- A simple statement holds no closing brace.
  have hflat : ∀ {A B C : List Token} {s : Token}, (∀ t ∈ C, t.kind ≠ .rightBrace) →
      s.kind = .semicolon → C ++ [s] ≠ A ++ semi :: brace :: B := by
    intro A B C s hC hs heq
    have hmem : brace ∈ C ++ [s] := by rw [heq]; simp
    rcases List.mem_append.mp hmem with hmem | hmem
    · exact hC brace hmem hbrace
    · rw [List.mem_singleton.mp hmem, hs] at hbrace
      cases hbrace
  induction h generalizing c A B with
  | noParameter | parameters | lastName | name | noInitializer | initVariable | initExpr | absent
  | present | assign | setProperty | loosest | binary | tighter | operand | signed | unsigned
  | call | property | primary | literal | this | super | identifier | group | noArgument
  | arguments | lastExpression | expressions | unset | set => cases hφ
  | noDeclaration | noMethod => simp at hts
  | declarations hfirst hmore ih ihs =>
      cases hφ
      obtain ⟨A', rfl, hus⟩ | ⟨-, hus⟩ | ⟨B', hts⟩ := append_eq_neighbours hts
      · exact (ihs rfl hus).under (.behind hfirst)
      · exact absurd hus (hmore.declarations_ne_brace hbrace)
      · exact ih rfl hts
  | methods hhead hfirst hmore ih ihs =>
      cases hφ
      obtain ⟨A', rfl, hus⟩ | ⟨-, hus⟩ | ⟨B', hts⟩ := append_eq_neighbours hts
      · exact (ihs rfl hus).under (.behindMethod hhead hfirst)
      · exact absurd hus (hmore.methods_ne_brace hbrace)
      · exact (ih rfl hts).under (H := []) .method
  | @plainClass n m fs ts kw name left right hkw hname hleft hmethods hright ih =>
      cases hφ
      obtain ⟨A', rfl, hbody⟩ := neighbours_behind (H := [kw, name]) hsemi hbrace hts
        (by simp [hkw, hname]) (by simp [hleft])
      obtain hlast | ⟨B', hin⟩ := neighbours_body hbody
      · exact absurd hlast (hmethods.methods_ne_concat hsemi)
      · exact (ih rfl hin).under (H := [kw, name, left]) (.plainClass hkw hname hleft)
  | @subclass n m fs ts kw name less parent left right hkw hname hless hparent hleft hmethods
      hright ih =>
      cases hφ
      obtain ⟨A', rfl, hbody⟩ := neighbours_behind (H := [kw, name, less, parent]) hsemi hbrace hts
        (by simp [hkw, hname, hless, hparent]) (by simp [hleft])
      obtain hlast | ⟨B', hin⟩ := neighbours_body hbody
      · exact absurd hlast (hmethods.methods_ne_concat hsemi)
      · exact (ih rfl hin).under (H := [kw, name, less, parent, left])
          (.subclass hkw hname hless hparent hleft)
  | @function n m f ts kw hkw _ ih =>
      cases hφ
      obtain ⟨A', rfl, hbody⟩ := neighbours_behind (H := []) hsemi hbrace hts (by simp)
        (by simp [hkw])
      exact (ih rfl hbody).under (H := [kw]) (.function hkw)
  | newVariable h => exact absurd hbrace (h.flat rfl brace (by rw [hts]; simp))
  | statement _ ih =>
      cases hφ
      exact (ih rfl hts).under (H := []) .statement
  | @body n m k ps ss ts us kind start name left close brace' right hname hleft hps hclose hbrace'
      hbody hright _ ih =>
      cases hφ
      obtain ⟨A', rfl, hin⟩ := neighbours_behind (H := name :: left :: (ts ++ [close]))
        (T := us ++ [right]) hsemi hbrace (by simpa using hts)
        (by simpa [hname, hleft, hclose, or_imp, forall_and] using hps.flat rfl)
        (by simp [hbrace'])
      have hunder : EndsIn semi .declarations m A' := by
        obtain rfl | ⟨B', hin⟩ := neighbours_body hin
        · exact hbody.endsIn
        · exact ih rfl hin
      simpa using hunder.under (c := .function) (n := n)
        (H := name :: left :: (ts ++ [close, brace']))
        fun h => by simpa using Opening.body hname hleft hps hclose hbrace' h
  | @block n m ss ts left right hleft hbody hright ih =>
      cases hφ
      obtain ⟨A', rfl, hin⟩ := neighbours_behind (H := []) hsemi hbrace hts (by simp)
        (by simp [hleft])
      have hunder : EndsIn semi .declarations n A' := by
        obtain rfl | ⟨B', hin⟩ := neighbours_body hin
        · exact hbody.endsIn
        · exact ih rfl hin
      exact hunder.under (H := [left]) (.block hleft)
  | print hkw he hsemi' _ | ret hkw he hsemi' _ | assertEqual hkw he hsemi' _
  | assert hkw he _ hsemi' _ =>
      exact absurd hts (hflat (List.forall_mem_cons.mpr ⟨by rw [hkw]; decide, he.flat rfl⟩) hsemi')
  | expr he hsemi' _ => exact absurd hts (hflat (he.flat rfl) hsemi')
  | @ifThen n m k c d a cs as kw left right hkw hleft hc hright ha _ ih =>
      cases hφ
      obtain ⟨A', rfl, hin⟩ := neighbours_behind (H := kw :: left :: cs) hsemi hbrace hts
        (by simpa [hkw, hleft] using hc.flat rfl) (by simp [hright])
      simpa using (ih rfl hin).under (c := .statement) (n := n)
        (H := kw :: left :: (cs ++ [right]))
        fun h => by simpa using Opening.ifThen hkw hleft hc hright h
  | @whileLoop n m k c d a cs as kw left right hkw hleft hc hright ha _ ih =>
      cases hφ
      obtain ⟨A', rfl, hin⟩ := neighbours_behind (H := kw :: left :: cs) hsemi hbrace hts
        (by simpa [hkw, hleft] using hc.flat rfl) (by simp [hright])
      simpa using (ih rfl hin).under (c := .statement) (n := n)
        (H := kw :: left :: (cs ++ [right]))
        fun h => by simpa using Opening.whileLoop hkw hleft hc hright h
  | @ifElse n m k l c d a b cs as bs kw left right els hkw hleft hc hright ha hels hb _ iha ihb =>
      cases hφ
      obtain ⟨A', rfl, hin⟩ := neighbours_behind (H := kw :: left :: cs) hsemi hbrace hts
        (by simpa [hkw, hleft] using hc.flat rfl) (by simp [hright])
      obtain ⟨A'', rfl, hbs⟩ | ⟨-, hbs⟩ | ⟨B', has⟩ := append_eq_neighbours hin
      · obtain ⟨A', rfl, htail⟩ := neighbours_behind (H := []) hsemi hbrace hbs (by simp)
          (by simp [hels])
        simpa using (ihb rfl htail).under (c := .statement) (n := n)
          (H := kw :: left :: (cs ++ right :: (as ++ [els])))
          fun h => by simpa using Opening.ifElse hkw hleft hc hright ha hels h
      · rw [← (List.cons.inj hbs).1, hels] at hbrace
        cases hbrace
      · simpa using (iha rfl has).under (c := .statement) (n := n)
          (H := kw :: left :: (cs ++ [right]))
          fun h => by simpa using Opening.ifThen hkw hleft hc hright h
  | @forLoop n₁ n₂ n₃ n₄ n₅ init test step d s is cs ss bs kw left semi' right hkw hleft hi hc
      hsemi' hs hright hb _ _ _ ih =>
      cases hφ
      have hkinds : ∀ t ∈ kw :: left :: (is ++ (cs ++ semi' :: ss)), t.kind ≠ .rightBrace := by
        have hboth := List.forall_mem_append.mpr ⟨hi.flat rfl, List.forall_mem_append.mpr
          ⟨hc.flat rfl, List.forall_mem_cons.mpr ⟨by rw [hsemi']; decide, hs.flat rfl⟩⟩⟩
        simpa only [List.forall_mem_cons, hkw, hleft, ne_eq, reduceCtorEq, not_false_eq_true,
          true_and] using hboth
      obtain ⟨A', rfl, hin⟩ := neighbours_behind (T := bs) hsemi hbrace (by simpa using hts)
        hkinds (by simp [hright])
      simpa using (ih rfl hin).under (c := .statement) (n := n₁)
        (H := kw :: left :: (is ++ (cs ++ semi' :: (ss ++ [right]))))
        fun h => by simpa using Opening.forLoop hkw hleft hi hc hsemi' hs hright h

/-! ## An `else` without an `if` -/

/-- An `else` where a declaration should start costs a complaint. -/
theorem declaration_else {els : Token} (hels : els.kind = .keyword .elseWord) (k : Nat)
    (T : List Token) (eof : Token) (n : Nat) (bag : Bag) :
    ∃ (m : Nat) (complaint : Complaint), declaration (k + 1) ⟨els :: T, eof, n, bag⟩ =
      .ok none ⟨resume els.kind T, eof, m, bag.error els.range complaint.message⟩ := by
  rw [declaration_expression (by rw [hels]; rfl) (by rw [hels]; decide)]
  exact ((refuses_expression (by rw [hels]; decide) k).bind _).recovering (by rw [hels]; decide)

/-- The loop gets past all of them that follow one another. -/
theorem exists_passes_else (heof : eof.kind = .eof) (T : List Token) (n : Nat) (bag : Bag) :
    ∃ X R w late, T = X ++ R ∧ (R.headD eof).kind ≠ .keyword .elseWord ∧
      Passes eof bag late n w X R ∧ bag.Grows late ∧
      ((T.headD eof).kind = .keyword .elseWord ∧ bag.items.size < late.items.size ∨
        X = [] ∧ late = bag) := by
  induction hlen : T.length using Nat.strongRecOn generalizing T n bag with
  | ind len ih =>
      by_cases hT : (T.headD eof).kind = .keyword .elseWord
      · cases T with
        | nil =>
            rw [List.headD_nil, heof] at hT
            cases hT
        | cons els T =>
            rw [List.headD_cons] at hT
            obtain ⟨m, complaint, hdecl⟩ :=
              declaration_else hT (els :: T).length T eof n bag
            obtain ⟨X, hX⟩ := resume_suffix els.kind T
            generalize resume els.kind T = R at hdecl hX
            subst hX
            obtain ⟨w, hpasses⟩ :=
              passes_declaration heof (by rw [hT]; decide) (by rw [hT]; decide) hdecl
            obtain ⟨X', R', w', late, rfl, hR', hpasses', hgrows, -⟩ :=
              ih R.length (by rw [← hlen]; simp only [List.length_cons, List.length_append]; omega)
                R (n + w) _ rfl
            have herror := bag.grows_error els.range complaint.message
            refine ⟨els :: X ++ X', R', w + w', late, by simp, hR', hpasses.append hpasses',
              herror.trans hgrows, Or.inl ⟨hT, ?_⟩⟩
            have hsize := hgrows.size_le
            rw [Bag.size_error] at hsize
            omega
      · exact ⟨[], T, 0, bag, rfl, hT, passes_nil eof bag n T, Bag.Grows.refl bag,
          Or.inr ⟨rfl, rfl⟩⟩

/-! ## Parsing without the semicolon -/

/-- The declaration in front of the brace is left out with the brace and what recovery
skips behind it. -/
theorem passes_unclosed (heof : eof.kind = .eof) (hsemi : semi.kind = .semicolon)
    (hbrace : brace.kind = .rightBrace) {s : Stmt} {l : Nat}
    (h : Reads (.declaration s) n (D ++ [semi]) l) (bag : Bag) (B : List Token) :
    ∃ (w : Nat) (skipped : List Token) (complaint : Complaint),
      B = skipped ++ resume .rightBrace B ∧
      (∀ R, ((D ++ brace :: skipped ++ R).headD eof).kind ≠ .keyword .elseWord) ∧
      Passes eof bag (bag.error brace.range complaint.message) n w (D ++ brace :: skipped)
        (resume .rightBrace B) := by
  have hlacks : Lacks eof bag brace B (.declaration s) n D := h.lacks heof hbrace hsemi rfl
  obtain ⟨m, complaint, hdecl⟩ := hlacks _ (Nat.lt_succ_self _)
  obtain ⟨first, us, hfirst, hkind⟩ := h.starts rfl
  cases D with
  | nil =>
      rw [List.nil_append, List.cons.injEq] at hfirst
      rw [← hfirst.1, hsemi] at hkind
      exact absurd hkind (by decide)
  | cons d D =>
      rw [← (List.cons.inj hfirst).1] at hkind
      obtain ⟨skipped, hskipped⟩ := resume_suffix .rightBrace B
      rw [hbrace] at hdecl
      have htokens : d :: D ++ brace :: B =
          d :: (D ++ brace :: skipped ++ resume .rightBrace B) := by
        rw [List.append_assoc, List.cons_append, List.cons_append, hskipped]
      rw [htokens] at hdecl
      obtain ⟨w, hpasses⟩ := passes_declaration heof (head_ne_of_starts hkind (by decide))
        (head_ne_of_starts hkind (by decide)) hdecl
      exact ⟨w, skipped, complaint, hskipped.symm,
        fun R => head_ne_of_starts hkind (by decide), hpasses⟩

/-- What is skipped opens a brace more than it closes if what is left is a text. -/
theorem exists_leftBrace {kind : ModuleKind} {n' : Nat} {bag bag' : Bag}
    {whole plain : Module.Outcome} {s : Stmt} {k l : Nat} {skipped R : List Token}
    (heof : eof.kind = .eof) (hsemi : semi.kind = .semicolon) (hbrace : brace.kind = .rightBrace)
    (hread : Reads (.declaration s) k (D ++ [semi]) l)
    (hts : ∀ t ∈ A ++ D ++ semi :: brace :: (skipped ++ R), t.kind ≠ .eof)
    (hwhole : Module.parse (A ++ D ++ semi :: brace :: (skipped ++ R) ++ [eof]) kind n bag =
      .ok whole) (hclean : whole.bag = bag)
    (hplain : Module.parse (A ++ R ++ [eof]) kind n' bag' = .ok plain) (hbag : plain.bag = bag') :
    ∃ t ∈ skipped, t.kind = .leftBrace := by
  have hall := (reads_of_parse heof hts hwhole hclean).derives.balanced
  have hleft : ∀ t ∈ A ++ R, t.kind ≠ .eof := by
    intro t ht
    refine hts t ?_
    simp only [List.mem_append, List.mem_cons] at ht ⊢
    tauto
  have hrest := (reads_of_parse heof hleft hplain hbag).derives.balanced
  have hdecl := hread.derives.balanced
  simp only [List.map_append, List.map_cons, List.map_nil, List.count_append, List.count_cons,
    List.count_nil, hsemi, hbrace, beq_iff_eq, reduceCtorEq, if_true, if_false] at hall hrest hdecl
  have hpos : 0 < (skipped.map Token.kind).count .leftBrace := by omega
  obtain ⟨t, ht, hkind⟩ := List.mem_map.mp (List.count_pos_iff.mp hpos)
  exact ⟨t, ht, hkind⟩

/-- Without the semicolon in front of a closing brace, a text that is parsed without a
complaint draws one at that brace.  It is the only one exactly if the text without the
statement, the brace and what recovery skips behind it is parsed without a complaint and
does not go on with an `else` there; recovery has then skipped an opening brace as well. -/
theorem parse_without_semicolon (heof : eof.kind = .eof) (hsemi : semi.kind = .semicolon)
    (hbrace : brace.kind = .rightBrace) (hts : ∀ t ∈ A ++ semi :: brace :: B, t.kind ≠ .eof)
    {kind : ModuleKind} {bag : Bag} {whole : Module.Outcome}
    (h : Module.parse (A ++ semi :: brace :: B ++ [eof]) kind n bag = .ok whole)
    (hclean : whole.bag = bag) :
    ∃ (A₀ D skipped R : List Token) (s : Stmt) (m l : Nat) (complaint : Complaint)
      (plain broken : Module.Outcome),
      A = A₀ ++ D ∧ Opening .declarations n A₀ m ∧ Reads (.declaration s) m (D ++ [semi]) l ∧
      B = skipped ++ R ∧ R = resume .rightBrace B ∧
      Module.parse (A₀ ++ R ++ [eof]) kind n bag = .ok plain ∧
      Module.parse (A ++ brace :: B ++ [eof]) kind n bag = .ok broken ∧
      (bag.error brace.range complaint.message).Grows broken.bag ∧
      (broken.bag.items.size = bag.items.size + 1 ↔
        (R.headD eof).kind ≠ .keyword .elseWord ∧ plain.bag = bag) ∧
      (broken.bag.items.size = bag.items.size + 1 → ∃ t ∈ skipped, t.kind = .leftBrace) := by
  have hreads := reads_of_parse heof hts h hclean
  obtain ⟨A₀, D, s, m, l, rfl, hopen, hread⟩ := hreads.neighbours hsemi hbrace rfl rfl
  obtain ⟨w, skipped, complaint, hB, hstart, hpasses⟩ :=
    passes_unclosed heof hsemi hbrace hread bag B
  obtain ⟨R, hR⟩ : ∃ R, R = resume .rightBrace B := ⟨_, rfl⟩
  rw [← hR] at hB hpasses
  subst hB
  obtain ⟨_, c, -, hplain⟩ := parse_eq_ok (A₀ ++ R) heof kind n bag
  have hgrows := (parse_grows hplain).1
  obtain ⟨X, R', w', late, hsplit, hnext, hpasses', hlate, hor⟩ :=
    exists_passes_else heof R (m + w) (bag.error brace.range complaint.message)
  have hskips : Skips eof bag late m (w + w') (D ++ brace :: skipped ++ X) R' := by
    refine ⟨?_, hnext, (hsplit ▸ hpasses).append hpasses'⟩
    rw [List.append_assoc]
    exact hstart _
  obtain ⟨left, broken, hleft, hbroken, -, -, hparallel⟩ := parse_detour heof hopen hskips kind
  have hleftgrows := (parse_grows hleft).1
  have hsize := hparallel.size
  have hiff : broken.bag.items.size = bag.items.size + 1 ↔
      (R.headD eof).kind ≠ .keyword .elseWord ∧ c.bag = bag := by
    have hle := hleftgrows.size_le
    rcases hor with ⟨hels, hlt⟩ | ⟨rfl, rfl⟩
    · rw [Bag.size_error] at hlt
      constructor
      · intro hone
        omega
      · rintro ⟨hne, -⟩
        exact absurd hels hne
    · obtain rfl : R = R' := hsplit
      cases hplain.symm.trans hleft
      rw [Bag.size_error] at hsize
      constructor
      · intro hone
        exact ⟨hnext, hgrows.eq_of_size (by dsimp only at hsize ⊢; omega)⟩
      · rintro ⟨-, hbag⟩
        dsimp only at hsize
        rw [hbag] at hsize
        omega
  refine ⟨A₀, D, skipped, R, s, m, l, complaint, _, broken, rfl, hopen, hread, rfl, hR,
    hplain, ?_, hlate.trans (hparallel.grows hleftgrows), hiff, fun hone => ?_⟩
  · rw [← hbroken, hsplit]
    simp
  · exact exists_leftBrace heof hsemi hbrace hread hts h hclean hplain (hiff.mp hone).2

end Holes

/-- Between two blocks there is only one complaint, because the second block takes the place
of the rest of the first. -/
theorem parse_without_semicolon_between_blocks :
    ∃ (A₀ skipped R : List Token) (plain broken : Module.Outcome),
      lexed (utf8 "\x7b print 2; \x7d") = skipped ++ R ∧
      Module.parse (A₀ ++ R ++ [mark .eof]) .sourceFile 0 Bag.empty = .ok plain ∧
      plain.bag = Bag.empty ∧
      Module.parse (lexed (utf8 "\x7b print 1") ++
        mark .rightBrace :: lexed (utf8 "\x7b print 2; \x7d") ++ [mark .eof]) .sourceFile 0
        Bag.empty = .ok broken ∧
      broken.bag.items.size = 1 ∧ ∃ t ∈ skipped, t.kind = .leftBrace := by
  have hstop : (mark .eof).kind = .eof := rfl
  obtain ⟨m, c, -, hparse⟩ := parse_eq_ok (lexed (utf8 "\x7b print 1") ++
    mark .semicolon :: mark .rightBrace :: lexed (utf8 "\x7b print 2; \x7d")) hstop .sourceFile 0
    Bag.empty
  have hclean : (Module.parse (lexed (utf8 "\x7b print 1") ++
      mark .semicolon :: mark .rightBrace :: lexed (utf8 "\x7b print 2; \x7d") ++ [mark .eof])
      .sourceFile 0 Bag.empty).map Module.Outcome.bag = .ok Bag.empty := by
    decide +kernel
  rw [hparse] at hclean
  obtain ⟨A₀, D, skipped, R, s, k, l, complaint, plain, broken, -, -, -, hB, -, hplain, hbroken,
    -, hiff, hskipped⟩ := parse_without_semicolon hstop rfl rfl (by decide +kernel) hparse
      (Except.ok.inj hclean)
  have hsize : (Module.parse (lexed (utf8 "\x7b print 1") ++
      mark .rightBrace :: lexed (utf8 "\x7b print 2; \x7d") ++ [mark .eof]) .sourceFile 0
      Bag.empty).map (fun broken => broken.bag.items.size) = .ok 1 := by
    decide +kernel
  rw [hbroken] at hsize
  have hone := Except.ok.inj hsize
  exact ⟨A₀, skipped, R, plain, broken, hB, hplain, (hiff.mp hone).2, hbroken, hone,
    hskipped hone⟩

/-- At the end of a text there are two complaints, the second about the block that is not
closed. -/
theorem missing_semicolon_cascades :
    ∃ whole broken : Module.Outcome,
      Module.parse (lexed (utf8 "\x7b print 1") ++ mark .semicolon :: mark .rightBrace :: [] ++
        [mark .eof]) .sourceFile 0 Bag.empty = .ok whole ∧
      whole.bag = Bag.empty ∧
      Module.parse (lexed (utf8 "\x7b print 1") ++ mark .rightBrace :: [] ++ [mark .eof])
        .sourceFile 0 Bag.empty = .ok broken ∧
      broken.bag.items.size = 2 := by
  have hstop : (mark .eof).kind = .eof := rfl
  obtain ⟨m, c, -, hwhole⟩ := parse_eq_ok (lexed (utf8 "\x7b print 1") ++
    mark .semicolon :: mark .rightBrace :: []) hstop .sourceFile 0 Bag.empty
  obtain ⟨m', c', -, hbroken⟩ := parse_eq_ok (lexed (utf8 "\x7b print 1") ++
    mark .rightBrace :: []) hstop .sourceFile 0 Bag.empty
  have hclean : (Module.parse (lexed (utf8 "\x7b print 1") ++
      mark .semicolon :: mark .rightBrace :: [] ++ [mark .eof]) .sourceFile 0
      Bag.empty).map Module.Outcome.bag = .ok Bag.empty := by
    decide +kernel
  have hsize : (Module.parse (lexed (utf8 "\x7b print 1") ++ mark .rightBrace :: [] ++
      [mark .eof]) .sourceFile 0 Bag.empty).map (fun broken => broken.bag.items.size) =
        .ok 2 := by
    decide +kernel
  rw [hwhole] at hclean
  rw [hbroken] at hsize
  exact ⟨_, _, hwhole, Except.ok.inj hclean, hbroken, Except.ok.inj hsize⟩

end LoxMachine.Grammar
