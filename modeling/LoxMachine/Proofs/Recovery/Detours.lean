import LoxMachine.Proofs.Recovery.Openings

/-!
# Parsing past something that is skipped

Some tokens that stand where a declaration can stand, and that only cost complaints, do
not change how the rest of a text is parsed: it is parsed as if they were not there, with
its numbers moved.
-/

namespace LoxMachine.Parser

open LoxMachine.Grammar

/-! ## Two runs up to the same place -/

section Steps

variable {α β γ : Type} {g : Detour} {σ : β → γ} {eof : Token} {bag : Bag} {n m : Nat}
  {ts ts' us us' : List Token}

/-- What both runs accept leaves them where they were to each other. -/
theorem tracks_after {p q : Parser α} {f : α → Parser β} {f' : α → Parser γ} {a : α}
    (hp : Accepts eof bag p n ts a m us) (hq : Accepts eof bag q n ts' a m us')
    (h : Tracks g σ (f a ⟨us, eof, m, bag⟩) (f' a ⟨us', eof, m, bag⟩)) :
    Tracks g σ ((p >>= f) ⟨ts, eof, n, bag⟩) ((q >>= f') ⟨ts', eof, n, bag⟩) := by
  unfold Accepts at hp hq
  rw [bind_apply, bind_apply, hp, hq]
  exact h

theorem tracks_optional {expr expr' : Parser Expr} {f : Option Expr → Parser β}
    {f' : Option Expr → Parser γ} {stop : Kind} {e : Option Expr}
    (hp : AcceptsOptional eof bag expr stop n ts e m us)
    (hq : AcceptsOptional eof bag expr' stop n ts' e m us')
    (h : Tracks g σ (f e ⟨us, eof, m, bag⟩) (f' e ⟨us', eof, m, bag⟩)) :
    Tracks g σ
      ((do
        let absent ← isAt stop
        if absent = true then (do let e ← pure none; f e)
          else do let e ← expr; let e ← pure (some e); f e : Parser β) ⟨ts, eof, n, bag⟩)
      ((do
        let absent ← isAt stop
        if absent = true then (do let e ← pure none; f' e)
          else do let e ← expr'; let e ← pure (some e); f' e : Parser γ)
        ⟨ts', eof, n, bag⟩) := by
  rcases hp with ⟨hp, rfl, rfl, rfl⟩ | ⟨hp, e, rfl, he⟩
  · obtain ⟨hq, -, -, rfl⟩ | ⟨_, e, hsome, _⟩ := hq
    · exact tracks_after (accepts_isAt.mpr ⟨(decide_eq_true hp).symm, rfl, rfl⟩)
        (accepts_isAt.mpr ⟨(decide_eq_true hq).symm, rfl, rfl⟩) h
    · cases hsome
  · obtain ⟨_, hnone, _⟩ | ⟨hq, e', hsome, he'⟩ := hq
    · cases hnone
    · cases hsome
      exact tracks_after (accepts_isAt.mpr ⟨(decide_eq_false hp).symm, rfl, rfl⟩)
        (accepts_isAt.mpr ⟨(decide_eq_false hq).symm, rfl, rfl⟩) (tracks_after he he' h)

/-- The same for a list that may be left out. -/
theorem tracks_list {list list' : Parser (List α)} {f : List α → Parser β}
    {f' : List α → Parser γ} {stop : Kind} {l : List α}
    (hp : AcceptsList eof bag list stop n ts l m us)
    (hq : AcceptsList eof bag list' stop n ts' l m us')
    (hne : (ts.headD eof).kind = (ts'.headD eof).kind)
    (h : Tracks g σ (f l ⟨us, eof, m, bag⟩) (f' l ⟨us', eof, m, bag⟩)) :
    Tracks g σ
      ((do
        let absent ← isAt stop
        if absent = true then (do let l ← pure []; f l) else do let l ← list; f l : Parser β)
        ⟨ts, eof, n, bag⟩)
      ((do
        let absent ← isAt stop
        if absent = true then (do let l ← pure []; f' l) else do let l ← list'; f' l : Parser γ)
        ⟨ts', eof, n, bag⟩) := by
  rcases hp with ⟨hp, rfl, rfl, rfl⟩ | ⟨hp, hl⟩
  · obtain ⟨hq, -, -, rfl⟩ | ⟨hq, _⟩ := hq
    · exact tracks_after (accepts_isAt.mpr ⟨(decide_eq_true hp).symm, rfl, rfl⟩)
        (accepts_isAt.mpr ⟨(decide_eq_true hq).symm, rfl, rfl⟩) h
    · exact absurd (hne.symm.trans hp) hq
  · obtain ⟨hq, _⟩ | ⟨hq, hl'⟩ := hq
    · exact absurd (hne.trans hq) hp
    · exact tracks_after (accepts_isAt.mpr ⟨(decide_eq_false hp).symm, rfl, rfl⟩)
        (accepts_isAt.mpr ⟨(decide_eq_false hq).symm, rfl, rfl⟩) (tracks_after hl hl' h)

/-- A condition that can be read leaves both runs where they were to each other. -/
theorem tracks_condition {k k' : Nat} {f : Expr → Parser β} {f' : Expr → Parser γ} {c : Expr}
    {cs : List Token} {left right : Token} (heof : eof.kind = .eof)
    (hleft : left.kind = .leftParen) (hc : Reads (.expression c) n cs m)
    (hright : right.kind = .rightParen) (hk : (cs ++ right :: us).length < k)
    (hk' : (cs ++ right :: us').length < k')
    (h : Tracks g σ (f c ⟨us, eof, m, bag⟩) (f' c ⟨us', eof, m, bag⟩)) :
    Tracks g σ
      ((condition (expression k) >>= f) ⟨left :: (cs ++ right :: us), eof, n, bag⟩)
      ((condition (expression k') >>= f') ⟨left :: (cs ++ right :: us'), eof, n, bag⟩) :=
  tracks_after (complete_condition heof hleft (complete_of_reads heof hc) hright hk)
    (complete_condition heof hleft (complete_of_reads heof hc) hright hk') h

end Steps

/-! ## Declarations by their first token -/

section Heads

variable {eof : Token} {bag : Bag} {n k : Nat} {t : Token} {ts : List Token}

theorem statement_rest {p : Range → Parser Stmt}
    (hp : statementRest (declaration k) (statement k) (k + 1) t.kind = some p) :
    statement (k + 1) ⟨t :: ts, eof, n, bag⟩ = p t.range ⟨ts, eof, n, bag⟩ := by
  have hkind : t.kind ≠ .eof := by
    intro heq
    rw [heq] at hp
    cases hp
  rw [statement, statementWith_eq, bind_apply]
  simp only [peek, List.headD_cons, hp, bind_apply, skip, if_neg hkind]

theorem declaration_rest {p : Range → Parser Stmt}
    (hp : declarationRest (declaration k) (k + 1) t.kind = some p) :
    declaration (k + 1) ⟨t :: ts, eof, n, bag⟩ = recovering (p t.range) ⟨ts, eof, n, bag⟩ := by
  have hkind : t.kind ≠ .eof := by
    intro heq
    rw [heq] at hp
    cases hp
  rw [declaration, recovering, recovering, declarationWith_eq, bind_apply]
  simp only [peek, List.headD_cons, hp, bind_apply, skip, if_neg hkind]

theorem declaration_statement
    (hnone : declarationRest (declaration k) (k + 1) t.kind = none) :
    declaration (k + 1) ⟨t :: ts, eof, n, bag⟩ =
      recovering (statement (k + 1)) ⟨t :: ts, eof, n, bag⟩ := by
  rw [declaration, recovering, recovering, declarationWith_eq, bind_apply, statement]
  simp only [peek, List.headD_cons, hnone]

theorem methods_succ {decl : Parser (Option Stmt)} {s : Nat} {before : List Function}
    (h : ¬ BlockEnd eof ts) :
    methods decl (s + 1) before ⟨ts, eof, n, bag⟩ =
      (functionRest decl s .method (ts.headD eof).range >>= fun f =>
        methods decl s (f :: before)) ⟨ts, eof, n, bag⟩ := by
  have hgoes : ¬ (decide ((ts.headD eof).kind = .rightBrace) ||
      decide ((ts.headD eof).kind = .eof)) = true := by
    simpa [BlockEnd] using h
  simp only [methods, bind_apply, atBlockEnd, peek, pure_apply]
  rw [if_neg hgoes]
  rfl

end Heads

/-! ## Rejoining -/

/-- In some rounds of the loop over declarations, the tokens `X` in front of `R` are left
out: they only cost the complaints of `late` and `w` node numbers. -/
def Passes (eof : Token) (bag late : Bag) (m w : Nat) (X R : List Token) : Prop :=
  ∃ j ≤ X.length, ∀ nested k s before, (X ++ R).length < k →
    sequence nested (declaration k) (j + s) before ⟨X ++ R, eof, m, bag⟩ =
      sequence nested (declaration k) s before ⟨R, eof, m + w, late⟩

theorem passes_nil (eof : Token) (bag : Bag) (m : Nat) (R : List Token) :
    Passes eof bag bag m 0 [] R :=
  ⟨0, Nat.le_refl _, fun nested k s before _ => by rw [Nat.zero_add]; rfl⟩

theorem Passes.append {eof : Token} {bag late last : Bag} {m v w : Nat} {X Y R : List Token}
    (hX : Passes eof bag late m v X (Y ++ R)) (hY : Passes eof late last (m + v) w Y R) :
    Passes eof bag last m (v + w) (X ++ Y) R := by
  obtain ⟨i, hi, hX⟩ := hX
  obtain ⟨j, hj, hY⟩ := hY
  refine ⟨i + j, by rw [List.length_append]; omega, fun nested k s before hk => ?_⟩
  rw [List.append_assoc] at hk ⊢
  rw [Nat.add_assoc, hX nested k _ before hk, hY nested k s before, Nat.add_assoc]
  rw [List.length_append] at hk
  omega

/-- One round leaves out a declaration that breaks off. -/
theorem passes_declaration {eof : Token} {bag late : Bag} {m l : Nat} {t : Token}
    {X R : List Token} (heof : eof.kind = .eof) (hbrace : t.kind ≠ .rightBrace)
    (hend : t.kind ≠ .eof)
    (h : declaration ((t :: (X ++ R)).length + 1) ⟨t :: (X ++ R), eof, m, bag⟩ =
      .ok none ⟨R, eof, l, late⟩) :
    ∃ w, Passes eof bag late m w (t :: X) R := by
  have hle : m ≤ l := by
    have horderly := (orderly_statement_declaration ((t :: (X ++ R)).length + 1)).2
      ⟨t :: (X ++ R), eof, m, bag⟩
    rw [h] at horderly
    exact horderly.lastId
  obtain ⟨w, rfl⟩ := Nat.exists_eq_add_of_le hle
  refine ⟨w, 1, by simp, fun nested k s before hk => ?_⟩
  rw [List.cons_append] at hk ⊢
  rw [Nat.add_comm, sequence_succ (c := ⟨t :: (X ++ R), eof, m, bag⟩) hbrace hend, bind_apply,
    declaration_more heof h hk]
  rfl

/-- The same between tokens that do not go on with what is in front of them. -/
structure Skips (eof : Token) (bag late : Bag) (m w : Nat) (X R : List Token) : Prop where
  start : ((X ++ R).headD eof).kind ≠ .keyword .elseWord
  next : (R.headD eof).kind ≠ .keyword .elseWord
  rounds : Passes eof bag late m w X R

/-- A run through `ts`, `X` and `R` rejoins one through `ts` and `R`. -/
def Rejoins (g : Detour) (eof : Token) (X R : List Token) :
    Construct → Nat → List Token → Prop
  | .declarations, n, ts => ∀ nested k k' s s' before, (ts ++ R).length < k →
      k + X.length ≤ k' → (ts ++ R).length < s → s + X.length ≤ s' →
      before.map (moveStmt g) = before →
      Tracks g (List.map (moveStmt g))
        (sequence nested (declaration k) s before ⟨ts ++ R, eof, n, g.bag⟩)
        (sequence nested (declaration k') s' before ⟨ts ++ (X ++ R), eof, n, g.bag⟩)
  | .statement, n, ts => ∀ k k', (ts ++ R).length < k → k + X.length ≤ k' →
      Tracks g (moveStmt g) (statement k ⟨ts ++ R, eof, n, g.bag⟩)
        (statement k' ⟨ts ++ (X ++ R), eof, n, g.bag⟩)
  | .function, n, ts => ∀ k k' s s' kind start, (ts ++ R).length < k →
      k + X.length ≤ k' → (ts ++ R).length ≤ s → s + X.length ≤ s' →
      Tracks g (moveFunction g)
        (functionRest (declaration k) s kind start ⟨ts ++ R, eof, n, g.bag⟩)
        (functionRest (declaration k') s' kind start ⟨ts ++ (X ++ R), eof, n, g.bag⟩)
  | .methods, n, ts => ∀ k k' s s' before, (ts ++ R).length < k →
      k + X.length ≤ k' → (ts ++ R).length < s → s + X.length ≤ s' →
      before.map (moveFunction g) = before →
      Tracks g (List.map (moveFunction g))
        (methods (declaration k) s before ⟨ts ++ R, eof, n, g.bag⟩)
        (methods (declaration k') s' before ⟨ts ++ (X ++ R), eof, n, g.bag⟩)

section Rejoining

variable {eof : Token} {bag late : Bag} {n m w : Nat} {X R ts us : List Token}

theorem rejoins_here (heof : eof.kind = .eof) (h : Skips eof bag late m w X R) :
    Rejoins ⟨⟨m + 1, w⟩, bag, late, R⟩ eof X R .declarations m [] := by
  intro nested k k' s s' before hk hkk hs hss hbefore
  obtain ⟨j, hj, hrounds⟩ := h.rounds
  rw [List.nil_append] at hk
  obtain ⟨s', rfl⟩ : ∃ r, s' = j + r := ⟨s' - j, by omega⟩
  have hlen : (X ++ R).length < k' := by
    rw [List.length_append]
    omega
  rw [List.nil_append, List.nil_append, hrounds nested k' s' before hlen]
  have hcarries := carries_sequence (g := ⟨⟨m + 1, w⟩, bag, late, R⟩)
    (carries_statement_declaration (Nat.le_of_add_right_le hkk)).2
    (show s ≤ s' by omega) nested before
  rw [hbefore] at hcarries
  exact hcarries _ _ ⟨rfl, rfl, Nat.le_refl _, rfl, Bag.Parallel.refl bag late,
    List.suffix_refl R, heof⟩

variable {g : Detour}

theorem rejoins_behind (heof : eof.kind = .eof) {j : Nat} {s : Stmt}
    (hread : Reads (.declaration s) n ts j) (hs : s.renumber g.move = s)
    (hopen : Opening .declarations j us m) (h : Rejoins g eof X R .declarations j us)
    (hX : ((X ++ R).headD eof).kind ≠ .keyword .elseWord)
    (hR : (R.headD eof).kind ≠ .keyword .elseWord) :
    Rejoins g eof X R .declarations n (ts ++ us) := by
  intro nested k k' r r' before hk hkk hr hrr hbefore
  have hleft := (complete_of_reads heof hread : Complete eof g.bag _ _ _ _) (us ++ R) k
    (by simpa using hk) (hopen.head_ne_else hR)
  have hright := (complete_of_reads heof hread : Complete eof g.bag _ _ _ _) (us ++ (X ++ R)) k'
    (by simp only [List.length_append] at hk ⊢; omega) (hopen.head_ne_else hX)
  obtain ⟨t, vs, rfl, ht⟩ := hread.starts rfl
  simp only [List.append_assoc, List.cons_append, List.length_cons, List.length_append]
    at hk hr ⊢
  obtain ⟨r, rfl⟩ : ∃ i, r = i + 1 := Nat.exists_eq_succ_of_ne_zero (by omega)
  obtain ⟨r', rfl⟩ : ∃ i, r' = i + 1 := Nat.exists_eq_succ_of_ne_zero (by omega)
  rw [sequence_succ (head_ne_of_starts ht (by decide)) (head_ne_of_starts ht (by decide)),
    sequence_succ (head_ne_of_starts ht (by decide)) (head_ne_of_starts ht (by decide))]
  refine tracks_after hleft hright ?_
  apply h nested k k' r r' (s :: before)
  · rw [List.length_append]
    omega
  · exact hkk
  · rw [List.length_append]
    omega
  · omega
  · rw [List.map_cons, hbefore]
    exact congrArg (· :: before) hs

/-- A round of the loop in which both runs differ by the detour. -/
theorem tracks_round {nested : Bool} {k k' s s' : Nat} {before : List Stmt} {t : Token}
    {vs vs' : List Token}
    (hbrace : t.kind ≠ .rightBrace) (hend : t.kind ≠ .eof)
    (h : Tracks g (Option.map (moveStmt g)) (declaration k ⟨t :: vs, eof, n, bag⟩)
      (declaration k' ⟨t :: vs', eof, n, bag⟩))
    (hk : k ≤ k') (hs : s ≤ s') (hbefore : before.map (moveStmt g) = before) :
    Tracks g (List.map (moveStmt g))
      (sequence nested (declaration k) (s + 1) before ⟨t :: vs, eof, n, bag⟩)
      (sequence nested (declaration k') (s' + 1) before ⟨t :: vs', eof, n, bag⟩) := by
  rw [sequence_succ (c := ⟨t :: vs, eof, n, bag⟩) hbrace hend,
    sequence_succ (c := ⟨t :: vs', eof, n, bag⟩) hbrace hend]
  refine h.bind fun found => ?_
  have hcarries := carries_sequence (g := g) (carries_statement_declaration hk).2 hs nested
    (found.toList ++ before)
  rw [List.map_append, hbefore] at hcarries
  cases found with
  | none => exact hcarries
  | some s => exact hcarries

/-- A declaration that begins with a word of its own. -/
theorem rejoins_word {t : Token} {p : Nat → Range → Parser Stmt}
    (hp : ∀ k, declarationRest (declaration k) (k + 1) t.kind = some (p k))
    (hbrace : t.kind ≠ .rightBrace) (hend : t.kind ≠ .eof)
    (h : ∀ k k', (ts ++ R).length < k → k + X.length ≤ k' →
      Tracks g (moveStmt g) (p k t.range ⟨ts ++ R, eof, n, g.bag⟩)
        (p k' t.range ⟨ts ++ (X ++ R), eof, n, g.bag⟩)) :
    Rejoins g eof X R .declarations n (t :: ts) := by
  intro nested k k' s s' before hk hkk hs hss hbefore
  simp only [List.cons_append, List.length_cons] at hk hs ⊢
  obtain ⟨k, rfl⟩ : ∃ i, k = i + 1 := Nat.exists_eq_succ_of_ne_zero (by omega)
  obtain ⟨k', rfl⟩ : ∃ i, k' = i + 1 := Nat.exists_eq_succ_of_ne_zero (by omega)
  obtain ⟨s, rfl⟩ : ∃ i, s = i + 1 := Nat.exists_eq_succ_of_ne_zero (by omega)
  obtain ⟨s', rfl⟩ : ∃ i, s' = i + 1 := Nat.exists_eq_succ_of_ne_zero (by omega)
  refine tracks_round hbrace hend ?_ (by omega) (by omega) hbefore
  rw [declaration_rest (hp k), declaration_rest (hp k')]
  exact (h k k' (by omega) (by omega)).recovering

theorem rejoins_statement (hopen : Opening .statement n ts m)
    (h : Rejoins g eof X R .statement n ts) : Rejoins g eof X R .declarations n ts := by
  intro nested k k' s s' before hk hkk hs hss hbefore
  have hstatement := h k k' hk hkk
  obtain ⟨hc, _⟩ | ⟨t, vs, rfl, ht⟩ := hopen.starts
  · cases hc
  simp only [List.cons_append, List.length_cons] at hk hs hstatement ⊢
  obtain ⟨k, rfl⟩ : ∃ i, k = i + 1 := Nat.exists_eq_succ_of_ne_zero (by omega)
  obtain ⟨k', rfl⟩ : ∃ i, k' = i + 1 := Nat.exists_eq_succ_of_ne_zero (by omega)
  obtain ⟨s, rfl⟩ : ∃ i, s = i + 1 := Nat.exists_eq_succ_of_ne_zero (by omega)
  obtain ⟨s', rfl⟩ : ∃ i, s' = i + 1 := Nat.exists_eq_succ_of_ne_zero (by omega)
  refine tracks_round (head_ne_of_starts ht (by decide)) (head_ne_of_starts ht (by decide)) ?_
    (by omega) (by omega) hbefore
  rw [declaration_statement (declarationRest_stmtStarts ht),
    declaration_statement (declarationRest_stmtStarts ht)]
  exact hstatement.recovering

/-- A statement that begins with a word or a brace. -/
theorem rejoins_rest {t : Token} {p : Nat → Range → Parser Stmt}
    (hp : ∀ k, statementRest (declaration k) (statement k) (k + 1) t.kind = some (p k))
    (h : ∀ k k', (ts ++ R).length < k → k + X.length ≤ k' →
      Tracks g (moveStmt g) (p k t.range ⟨ts ++ R, eof, n, g.bag⟩)
        (p k' t.range ⟨ts ++ (X ++ R), eof, n, g.bag⟩)) :
    Rejoins g eof X R .statement n (t :: ts) := by
  intro k k' hk hkk
  simp only [List.cons_append, List.length_cons] at hk ⊢
  obtain ⟨k, rfl⟩ : ∃ i, k = i + 1 := Nat.exists_eq_succ_of_ne_zero (by omega)
  obtain ⟨k', rfl⟩ : ∃ i, k' = i + 1 := Nat.exists_eq_succ_of_ne_zero (by omega)
  rw [statement_rest (hp k), statement_rest (hp k')]
  exact h k k' (by omega) (by omega)

theorem rejoins_function {kw : Token} (hkw : kw.kind = .keyword .funWord)
    (h : Rejoins g eof X R .function n ts) : Rejoins g eof X R .declarations n (kw :: ts) := by
  refine rejoins_word (fun k => by rw [hkw]; rfl) (by rw [hkw]; decide) (by rw [hkw]; decide)
    fun k k' hk hkk => ?_
  have hf := h k k' (k + 1) (k' + 1) .function kw.range hk hkk (by omega) (by omega)
  exact hf.bind fun f => carries_pure rfl

theorem rejoins_class (heof : eof.kind = .eof) (ws : List Token) (parent : Option Superclass)
    {j : Nat} {kw name brace : Token} (hkw : kw.kind = .keyword .classWord)
    (hname : name.kind = .identifier)
    (hparent : ∀ rest, Accepts eof g.bag superclass? n (ws ++ brace :: rest) parent j
      (brace :: rest))
    (hfixed : parent.map (Superclass.renumber g.move) = parent)
    (hbrace : brace.kind = .leftBrace) (h : Rejoins g eof X R .methods j ts) :
    Rejoins g eof X R .declarations n (kw :: name :: (ws ++ brace :: ts)) := by
  refine rejoins_word (fun k => by rw [hkw]; rfl) (by rw [hkw]; decide) (by rw [hkw]; decide)
    fun k k' hk hkk => ?_
  simp only [List.cons_append, List.append_assoc, List.length_cons, List.length_append] at hk ⊢
  have hmethods := h k k' (k + 1) (k' + 1) [] (by rw [List.length_append]; omega) hkk
    (by rw [List.length_append]; omega) (by omega) rfl
  refine tracks_after ((accepts_expectName heof).mpr ⟨rfl, name, hname, rfl, rfl⟩)
    ((accepts_expectName heof).mpr ⟨rfl, name, hname, rfl, rfl⟩) ?_
  refine tracks_after (hparent _) (hparent _) ?_
  refine tracks_after ((accepts_expect heof (by decide)).mpr ⟨rfl, hbrace, rfl⟩)
    ((accepts_expect heof (by decide)).mpr ⟨rfl, hbrace, rfl⟩) ?_
  refine hmethods.bind fun fs => (carries_expect _ _).bind fun close => carries_pure ?_
  rw [moveStmt, Stmt.renumber, hfixed, Function.renumberAll_eq_map]

theorem rejoins_method (hopen : Opening .function n ts m)
    (h : Rejoins g eof X R .function n ts) : Rejoins g eof X R .methods n ts := by
  intro k k' s s' before hk hkk hs hss hbefore
  obtain ⟨s, rfl⟩ : ∃ i, s = i + 1 := Nat.exists_eq_succ_of_ne_zero (by omega)
  obtain ⟨s', rfl⟩ : ∃ i, s' = i + 1 := Nat.exists_eq_succ_of_ne_zero (by omega)
  obtain ⟨hc, _⟩ | ⟨t, vs, rfl, ht⟩ := hopen.starts
  · cases hc
  have hf := h k k' s s' .method t.range hk hkk (by omega) (by omega)
  simp only [List.cons_append] at hf ⊢
  rw [methods_succ (not_blockEnd ht (by decide) (by decide)),
    methods_succ (not_blockEnd ht (by decide) (by decide))]
  refine Tracks.bind hf fun f => ?_
  have hcarries := carries_methods (g := g) (carries_statement_declaration
    (Nat.le_of_add_right_le hkk)).2 (show s ≤ s' by omega) (f :: before)
  rw [List.map_cons, hbefore] at hcarries
  exact hcarries

theorem rejoins_behindMethod (heof : eof.kind = .eof) {j : Nat} {f : Function} {first : Token}
    (hfirst : ts.head? = some first) (hread : Reads (.function .method first.range f) n ts j)
    (hf : f.renumber g.move = f) (h : Rejoins g eof X R .methods j us) :
    Rejoins g eof X R .methods n (ts ++ us) := by
  intro k k' s s' before hk hkk hs hss hbefore
  obtain ⟨s, rfl⟩ : ∃ i, s = i + 1 := Nat.exists_eq_succ_of_ne_zero (by omega)
  obtain ⟨s', rfl⟩ : ∃ i, s' = i + 1 := Nat.exists_eq_succ_of_ne_zero (by omega)
  simp only [List.append_assoc, List.length_append] at hk hs ⊢
  have hleft := (complete_of_reads heof hread : Complete eof g.bag _ _ _ _) (us ++ R) k s
    (by simp only [List.length_append]; omega) (by simp only [List.length_append]; omega)
  have hright := (complete_of_reads heof hread : Complete eof g.bag _ _ _ _) (us ++ (X ++ R)) k' s'
    (by simp only [List.length_append]; omega) (by simp only [List.length_append]; omega)
  obtain ⟨t, vs, rfl, ht⟩ := hread.starts rfl
  cases hfirst
  simp only [List.cons_append, List.length_cons] at hk hs hleft hright ⊢
  rw [methods_succ (not_blockEnd ht (by decide) (by decide)),
    methods_succ (not_blockEnd ht (by decide) (by decide))]
  refine tracks_after hleft hright ?_
  apply h k k' s s' (f :: before)
  · rw [List.length_append]
    omega
  · exact hkk
  · rw [List.length_append]
    omega
  · omega
  · rw [List.map_cons, hbefore]
    exact congrArg (· :: before) hf

/-- The rest of a block, from a place in it. -/
theorem Rejoins.blockRest (h : Rejoins g eof X R .declarations n ts) (k k' s s' : Nat)
    (hk : (ts ++ R).length < k) (hkk : k + X.length ≤ k') (hs : (ts ++ R).length < s)
    (hss : s + X.length ≤ s') :
    Tracks g (Prod.map (Stmt.renumberAll g.move) fun r => r)
      (blockRest (declaration k) s ⟨ts ++ R, eof, n, g.bag⟩)
      (blockRest (declaration k') s' ⟨ts ++ (X ++ R), eof, n, g.bag⟩) := by
  refine (h true k k' s s' [] hk hkk hs hss rfl).bind fun body =>
    (carries_expect _ _).bind fun _ => carries_pure ?_
  rw [Prod.map_apply, Stmt.renumberAll_eq_map]

theorem rejoins_body (heof : eof.kind = .eof) {j : Nat} {ps : List Name}
    {name left right brace : Token} (hname : name.kind = .identifier)
    (hleft : left.kind = .leftParen) (hps : Reads (.parameters ps) n ts j)
    (hright : right.kind = .rightParen) (hbrace : brace.kind = .leftBrace)
    (h : Rejoins g eof X R .declarations j us) :
    Rejoins g eof X R .function n (name :: left :: (ts ++ right :: brace :: us)) := by
  intro k k' s s' kind start hk hkk hs hss
  simp only [List.cons_append, List.append_assoc, List.length_cons, List.length_append]
    at hk hs ⊢
  have hblock := h.blockRest k k' s s' (by rw [List.length_append]; omega) hkk
    (by rw [List.length_append]; omega) hss
  have hparams := (complete_of_reads heof hps : Complete eof g.bag _ _ _ _)
    (right :: brace :: (us ++ R)) s
    (by simp only [List.length_append, List.length_cons]; omega) hright
  have hparams' := (complete_of_reads heof hps : Complete eof g.bag _ _ _ _)
    (right :: brace :: (us ++ (X ++ R))) s'
    (by simp only [List.length_append, List.length_cons]; omega) hright
  refine tracks_after ((accepts_expectName heof).mpr ⟨rfl, name, hname, rfl, rfl⟩)
    ((accepts_expectName heof).mpr ⟨rfl, name, hname, rfl, rfl⟩) ?_
  refine tracks_after ((accepts_expect heof (by decide)).mpr ⟨rfl, hleft, rfl⟩)
    ((accepts_expect heof (by decide)).mpr ⟨rfl, hleft, rfl⟩) ?_
  refine tracks_list hparams hparams' (by cases ts <;> rfl) ?_
  refine tracks_after ((accepts_expect heof (by decide)).mpr ⟨rfl, hright, rfl⟩)
    ((accepts_expect heof (by decide)).mpr ⟨rfl, hright, rfl⟩) ?_
  refine tracks_after ((accepts_expect heof (by decide)).mpr ⟨rfl, hbrace, rfl⟩)
    ((accepts_expect heof (by decide)).mpr ⟨rfl, hbrace, rfl⟩) ?_
  exact hblock.bind fun found => carries_pure rfl

theorem rejoins_block {left : Token} (hleft : left.kind = .leftBrace)
    (h : Rejoins g eof X R .declarations n ts) :
    Rejoins g eof X R .statement n (left :: ts) := by
  refine rejoins_rest (fun k => by rw [hleft]; rfl) fun k k' hk hkk => ?_
  exact (h.blockRest k k' (k + 1) (k' + 1) hk hkk (by omega) (by omega)).bind
    fun found => carries_pure rfl

theorem rejoins_ifThen (heof : eof.kind = .eof) {j : Nat} {c : Expr} {kw left right : Token}
    (hkw : kw.kind = .keyword .ifWord) (hleft : left.kind = .leftParen)
    (hc : Reads (.expression c) n ts j) (hfixed : c.renumber g.move = c)
    (hright : right.kind = .rightParen) (h : Rejoins g eof X R .statement j us) :
    Rejoins g eof X R .statement n (kw :: left :: (ts ++ right :: us)) := by
  refine rejoins_rest (fun k => by rw [hkw]; rfl) fun k k' hk hkk => ?_
  simp only [List.cons_append, List.append_assoc, List.length_cons, List.length_append] at hk ⊢
  refine tracks_condition heof hleft hc hright
    (by simp only [List.length_append, List.length_cons]; omega)
    (by simp only [List.length_append, List.length_cons]; omega) ?_
  have hthen := h k k' (by rw [List.length_append]; omega) hkk
  refine hthen.bind fun a => (carries_accept? _).bind fun found => ?_
  cases found with
  | some _ =>
      refine (carries_statement_declaration (Nat.le_of_add_right_le hkk)).1.bind fun b =>
        carries_pure ?_
      simp only [moveStmt, Stmt.renumber, Stmt.span_renumber, hfixed]
  | none =>
      refine carries_pure ?_
      rw [moveStmt, moveStmt, Stmt.renumber, Stmt.span_renumber, hfixed]

theorem rejoins_ifElse (heof : eof.kind = .eof) {i j : Nat} {c : Expr} {a : Stmt}
    {vs : List Token} {kw left right els : Token} (hkw : kw.kind = .keyword .ifWord)
    (hleft : left.kind = .leftParen) (hc : Reads (.expression c) n ts i)
    (hfixed : c.renumber g.move = c) (hright : right.kind = .rightParen)
    (ha : Reads (.statement false a) i us j) (hfixed' : a.renumber g.move = a)
    (hels : els.kind = .keyword .elseWord) (h : Rejoins g eof X R .statement j vs) :
    Rejoins g eof X R .statement n (kw :: left :: (ts ++ right :: (us ++ els :: vs))) := by
  refine rejoins_rest (fun k => by rw [hkw]; rfl) fun k k' hk hkk => ?_
  simp only [List.cons_append, List.append_assoc, List.length_cons, List.length_append] at hk ⊢
  refine tracks_condition heof hleft hc hright
    (by simp only [List.length_append, List.length_cons]; omega)
    (by simp only [List.length_append, List.length_cons]; omega) ?_
  have hthen := (complete_of_reads heof ha : Complete eof g.bag _ _ _ _) (els :: (vs ++ R)) k
    (by simp only [List.length_append, List.length_cons]; omega) (by simp)
  have hthen' := (complete_of_reads heof ha : Complete eof g.bag _ _ _ _)
    (els :: (vs ++ (X ++ R))) k'
    (by simp only [List.length_append, List.length_cons]; omega) (by simp)
  refine tracks_after hthen hthen' ?_
  refine tracks_after
    ((accepts_accept? heof (by decide)).mpr ⟨rfl, Or.inl ⟨els, rfl, hels, rfl⟩⟩)
    ((accepts_accept? heof (by decide)).mpr ⟨rfl, Or.inl ⟨els, rfl, hels, rfl⟩⟩) ?_
  have helse := h k k' (by rw [List.length_append]; omega) hkk
  refine helse.bind fun b => carries_pure ?_
  simp only [moveStmt, Stmt.renumber, Stmt.span_renumber, hfixed, hfixed']

theorem rejoins_whileLoop (heof : eof.kind = .eof) {j : Nat} {c : Expr} {kw left right : Token}
    (hkw : kw.kind = .keyword .whileWord) (hleft : left.kind = .leftParen)
    (hc : Reads (.expression c) n ts j) (hfixed : c.renumber g.move = c)
    (hright : right.kind = .rightParen) (h : Rejoins g eof X R .statement j us) :
    Rejoins g eof X R .statement n (kw :: left :: (ts ++ right :: us)) := by
  refine rejoins_rest (fun k => by rw [hkw]; rfl) fun k k' hk hkk => ?_
  simp only [List.cons_append, List.append_assoc, List.length_cons, List.length_append] at hk ⊢
  refine tracks_condition heof hleft hc hright
    (by simp only [List.length_append, List.length_cons]; omega)
    (by simp only [List.length_append, List.length_cons]; omega) ?_
  have hbody := h k k' (by rw [List.length_append]; omega) hkk
  refine hbody.bind fun s => carries_pure ?_
  rw [moveStmt, moveStmt, Stmt.renumber, Stmt.span_renumber, hfixed]

theorem rejoins_forLoop (heof : eof.kind = .eof) {i j l : Nat} {init : Option Stmt}
    {test step : Option Expr} {is cs ss : List Token} {kw left semi right : Token}
    (hkw : kw.kind = .keyword .forWord) (hleft : left.kind = .leftParen)
    (hinit : Reads (.initializer init) n is i)
    (hfixed : init.map (Stmt.renumber g.move) = init)
    (htest : Reads (.optional test) i cs j)
    (hfixed' : test.map (Expr.renumber g.move) = test) (hsemi : semi.kind = .semicolon)
    (hstep : Reads (.optional step) j ss l)
    (hfixed'' : step.map (Expr.renumber g.move) = step) (hright : right.kind = .rightParen)
    (h : Rejoins g eof X R .statement l us) :
    Rejoins g eof X R .statement n
      (kw :: left :: (is ++ (cs ++ semi :: (ss ++ right :: us)))) := by
  refine rejoins_rest (fun k => by rw [hkw]; rfl) fun k k' hk hkk => ?_
  simp only [List.cons_append, List.append_assoc, List.length_cons, List.length_append] at hk ⊢
  refine tracks_after ((accepts_expect heof (by decide)).mpr ⟨rfl, hleft, rfl⟩)
    ((accepts_expect heof (by decide)).mpr ⟨rfl, hleft, rfl⟩) ?_
  refine tracks_after
    (complete_of_reads heof hinit (cs ++ semi :: (ss ++ right :: (us ++ R))) (k + 1)
      (by simp only [List.length_append, List.length_cons]; omega))
    (complete_of_reads heof hinit (cs ++ semi :: (ss ++ right :: (us ++ (X ++ R)))) (k' + 1)
      (by simp only [List.length_append, List.length_cons]; omega)) ?_
  refine tracks_optional
    (complete_of_reads heof htest (semi :: (ss ++ right :: (us ++ R))) (k + 1) .semicolon
      (by simp only [List.length_append, List.length_cons]; omega) hsemi (by decide))
    (complete_of_reads heof htest (semi :: (ss ++ right :: (us ++ (X ++ R)))) (k' + 1)
      .semicolon (by simp only [List.length_append, List.length_cons]; omega) hsemi
      (by decide)) ?_
  refine tracks_after ((accepts_expect heof (by decide)).mpr ⟨rfl, hsemi, rfl⟩)
    ((accepts_expect heof (by decide)).mpr ⟨rfl, hsemi, rfl⟩) ?_
  refine tracks_optional
    (complete_of_reads heof hstep (right :: (us ++ R)) (k + 1) .rightParen
      (by simp only [List.length_append, List.length_cons]; omega) hright (by decide))
    (complete_of_reads heof hstep (right :: (us ++ (X ++ R))) (k' + 1) .rightParen
      (by simp only [List.length_append, List.length_cons]; omega) hright (by decide)) ?_
  refine tracks_after ((accepts_expect heof (by decide)).mpr ⟨rfl, hright, rfl⟩)
    ((accepts_expect heof (by decide)).mpr ⟨rfl, hright, rfl⟩) ?_
  have hbody := h k k' (by rw [List.length_append]; omega) hkk
  refine hbody.bind fun s => carries_pure ?_
  rw [moveStmt, moveStmt, ← forLoop_renumber, ← getD_renumber, hfixed, hfixed', hfixed'',
    Stmt.span_renumber]

/-- From every place where a declaration can stand, the two runs go on alike. -/
theorem rejoins_of_opening (heof : eof.kind = .eof) {c : Construct}
    (hskips : Skips eof bag late m w X R) (h : Opening c n ts m) :
    Rejoins ⟨⟨m + 1, w⟩, bag, late, R⟩ eof X R c n ts := by
  have hfixed : ∀ {φ : Phrase} {i j : Nat} {vs : List Token}, Reads φ i vs j → j ≤ m →
      φ.Fixed (⟨⟨m + 1, w⟩, bag, late, R⟩ : Detour).move := fun hread hle =>
    hread.fixed fun i hi => Gap.move_of_lt (Nat.lt_succ_of_le (Nat.le_trans hi hle))
  induction h with
  | here => exact rejoins_here heof hskips
  | behind hread hopen ih =>
      exact rejoins_behind heof hread (hfixed hread hopen.le) hopen (ih hskips hfixed)
        hskips.start hskips.next
  | statement hopen ih => exact rejoins_statement hopen (ih hskips hfixed)
  | function hkw _ ih => exact rejoins_function hkw (ih hskips hfixed)
  | @plainClass n m ts kw name left hkw hname hleft _ ih =>
      refine rejoins_class heof [] none hkw hname (fun rest => ?_) rfl hleft
        (ih hskips hfixed)
      have hless : ((left :: rest).headD eof).kind ≠ .less := by
        rw [List.headD_cons, hleft]
        decide
      exact (accepts_superclass? heof).mpr (Or.inl ⟨hless, rfl, rfl, rfl⟩)
  | @subclass n m ts kw name less parent left hkw hname hless hparent hleft hopen ih =>
      refine rejoins_class heof [less, parent] (some ⟨n + 1, nameOf parent⟩) hkw hname
        (fun rest => ?_) ?_ hleft (ih hskips hfixed)
      · exact (accepts_superclass? heof).mpr
          (Or.inr ⟨less, parent, hless, hparent, rfl, rfl, rfl⟩)
      · rw [Option.map_some, Superclass.renumber, Detour.move,
          Gap.move_of_lt (Nat.lt_succ_of_le hopen.le)]
  | method hopen ih => exact rejoins_method hopen (ih hskips hfixed)
  | behindMethod hfirst hread hopen ih =>
      exact rejoins_behindMethod heof hfirst hread (hfixed hread hopen.le) (ih hskips hfixed)
  | body hname hleft hps hright hbrace _ ih =>
      exact rejoins_body heof hname hleft hps hright hbrace (ih hskips hfixed)
  | block hleft _ ih => exact rejoins_block hleft (ih hskips hfixed)
  | ifThen hkw hleft hc hright hopen ih =>
      exact rejoins_ifThen heof hkw hleft hc (hfixed hc hopen.le) hright (ih hskips hfixed)
  | ifElse hkw hleft hc hright ha hels hopen ih =>
      exact rejoins_ifElse heof hkw hleft hc (hfixed hc (Nat.le_trans ha.le hopen.le)) hright ha
        (hfixed ha hopen.le) hels (ih hskips hfixed)
  | whileLoop hkw hleft hc hright hopen ih =>
      exact rejoins_whileLoop heof hkw hleft hc (hfixed hc hopen.le) hright (ih hskips hfixed)
  | forLoop hkw hleft hi hc hsemi hs hright hopen ih =>
      have hle := Nat.le_trans hs.le hopen.le
      exact rejoins_forLoop heof hkw hleft hi (hfixed hi (Nat.le_trans hc.le hle)) hc
        (hfixed hc hle) hsemi hs (hfixed hs hopen.le) hright (ih hskips hfixed)

end Rejoining

end LoxMachine.Parser

namespace LoxMachine.Grammar

open LoxMachine.Parser

/-- A text in which tokens are skipped at a place where a declaration can stand is parsed
as the text without them, with the numbers behind moved and the complaints about the
skipped tokens in front of those made later. -/
theorem parse_detour {eof : Token} {bag late : Bag} {n m w : Nat} {A X R : List Token}
    (heof : eof.kind = .eof) (hopen : Opening .declarations n A m)
    (hskips : Skips eof bag late m w X R) (kind : ModuleKind) :
    ∃ plain skipped : Module.Outcome,
      Module.parse (A ++ R ++ [eof]) kind n bag = .ok plain ∧
      Module.parse (A ++ X ++ R ++ [eof]) kind n bag = .ok skipped ∧
      skipped.module.body =
        Stmt.renumberAll (⟨m + 1, w⟩ : Gap).move plain.module.body ∧
      skipped.lastId = plain.lastId + w ∧ Bag.Parallel bag late plain.bag skipped.bag := by
  obtain ⟨body, d, htop, _, _⟩ := topLevel_eq_ok (k := (A ++ R).length + 2)
    (s := (A ++ R).length + 2) (c := ⟨A ++ R, eof, n, bag⟩) heof (by simp) (by simp) []
  have hlonger : (A ++ R).length + 2 + X.length ≤ (A ++ X ++ R).length + 2 := by
    simp only [List.length_append]
    omega
  have htracks := rejoins_of_opening heof hskips hopen false ((A ++ R).length + 2)
    ((A ++ X ++ R).length + 2) ((A ++ R).length + 2) ((A ++ X ++ R).length + 2) []
    (by omega) hlonger (by omega) hlonger rfl
  rw [← List.append_assoc] at htracks
  change Tracks _ _ (topLevel _ _ _ _) (topLevel _ _ _ _) at htracks
  rw [htop] at htracks
  generalize hrun : topLevel (declaration ((A ++ X ++ R).length + 2))
    ((A ++ X ++ R).length + 2) [] ⟨A ++ X ++ R, eof, n, bag⟩ = outcome at htracks
  cases htracks with
  | ok hbody hbehind =>
      refine ⟨_, _, parse_of_topLevel heof htop kind, parse_of_topLevel heof hrun kind, ?_,
        hbehind.lastId, hbehind.bag⟩
      rw [hbody, Stmt.renumberAll_eq_map]

end LoxMachine.Grammar
