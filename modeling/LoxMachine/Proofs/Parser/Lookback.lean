import LoxMachine.Proofs.Grammar.Sequences

/-!
# Looking back at the token just passed

Where a parser needs a token it has just moved past, it can look it up in front of its
position instead of keeping it: it never does so at the start, where there is none.  The
parsers here look back and do what those do that keep the token.  With this, parsing comes
to the end of every list of tokens, and each declaration takes tokens away.
-/

namespace LoxMachine.Lookback

open LoxMachine.Parser

/-! ## Parsers that look back -/

/-- The token in front of the cursor in `tokens`. At their start there is none, and the
parser has no outcome. -/
def previous (tokens : List Token) : Parser Token :=
  fun c =>
    match tokens.length - c.rest.length with
    | 0 => .exhausted
    | pos + 1 => .ok (tokens.getD pos c.eof) c

variable (tokens : List Token)

/-- Moves on to the end, behind a semicolon or to the start of a statement. -/
def seek : (steps : Nat) → Parser Unit
  | 0 => exhaust
  | steps + 1 => do
      if ← isAt .eof then return ()
      else
        let last ← previous tokens
        if last.kind = .semicolon then return ()
        else
          let next ← peek
          if startsStatement next.kind = true then return ()
          else
            skip
            seek steps

def synchronize : Parser Unit := do
  skip
  seek tokens (tokens.length + 1)

def recovering {α : Type} (p : Parser α) : Parser (Option α) :=
  fun c =>
    match p c with
    | .ok a next => .ok (some a) next
    | .stuck next => (do synchronize tokens; return none) next
    | .exhausted => .exhausted

def expression : (steps : Nat) → Parser Expr
  | 0 => exhaust
  | steps + 1 => do
      let target ← climb (operand (expression steps) (steps + 1)) (steps + 1) 1
      match ← accept? .equal with
      | none => return target
      | some _ =>
          let equals ← previous tokens
          let value ← expression steps
          assignTo target value equals.range

def forInit (expr : Parser Expr) : Parser (Option Stmt) := do
  let token ← peek
  match token.kind with
  | .semicolon =>
      skip
      return none
  | .keyword .varWord =>
      skip
      let start ← previous tokens
      let s ← variableRest expr start.range
      return some s
  | _ =>
      let s ← expressionStatement expr (utf8 "';' after loop initializer")
      return some s

def forRest (expr : Parser Expr) (stmt : Parser Stmt) (start : Range) : Parser Stmt := do
  let _ ← expect .leftParen (utf8 "'(' after 'for'")
  let init ← forInit tokens expr
  let test ← if ← isAt .semicolon then pure none else do let e ← expr; pure (some e)
  let close ← expect .semicolon (utf8 "';' after loop condition")
  let test := test.getD (.literal (.bool true) close.range)
  let step ← if ← isAt .rightParen then pure none else do let e ← expr; pure (some e)
  let _ ← expect .rightParen (utf8 "')' after for clauses")
  let body ← stmt
  return forLoop init test step body (start.join body.span)

/-- The statement after its first token, which is looked up again. -/
def statementWith (decl : Parser (Option Stmt)) (stmt : Parser Stmt) (steps : Nat) :
    Parser Stmt := do
  let expr := expression tokens steps
  match (← peek).kind with
  | .keyword .forWord =>
      skip
      let start ← previous tokens
      forRest tokens expr stmt start.range
  | .keyword .ifWord =>
      skip
      let start ← previous tokens
      ifRest expr stmt start.range
  | .keyword .printWord =>
      skip
      let start ← previous tokens
      printRest expr start.range
  | .keyword .assertWord =>
      skip
      let start ← previous tokens
      assertRest expr start.range
  | .keyword .whileWord =>
      skip
      let start ← previous tokens
      whileRest expr stmt start.range
  | .keyword .returnWord =>
      skip
      let start ← previous tokens
      returnRest expr start.range
  | .leftBrace =>
      skip
      let start ← previous tokens
      let (body, close) ← blockRest decl steps
      return .block body (start.range.join close)
  | _ => expressionStatement expr (utf8 "';' after expression")

def declarationWith (decl : Parser (Option Stmt)) (stmt : Parser Stmt) (steps : Nat) :
    Parser Stmt := do
  match (← peek).kind with
  | .keyword .classWord =>
      skip
      let start ← previous tokens
      classRest decl steps start.range
  | .keyword .funWord =>
      skip
      let start ← previous tokens
      let f ← functionRest decl steps .function start.range
      return .function f
  | .keyword .varWord =>
      skip
      let start ← previous tokens
      variableRest (expression tokens steps) start.range
  | _ => statementWith tokens decl stmt steps

mutual

def statement : (steps : Nat) → Parser Stmt
  | 0 => exhaust
  | steps + 1 => statementWith tokens (declaration steps) (statement steps) (steps + 1)

def declaration : (steps : Nat) → Parser (Option Stmt)
  | 0 => exhaust
  | steps + 1 =>
      recovering tokens (declarationWith tokens (declaration steps) (statement steps) (steps + 1))

end

def program (kind : ModuleKind) (steps : Nat) : Parser Module := do
  let first ← peek
  let body ← topLevel (declaration tokens steps) steps []
  let last ← peek
  return ⟨kind, body, first.range.join last.range⟩

/-! ## Behind a token -/

section Behind

variable {α β : Type} {tokens : List Token} {g : Detour} {c : Cursor}

theorem previous_eq {t : Token} (h : t :: c.rest <:+ tokens) :
    previous tokens c = .ok t c := by
  obtain ⟨pre, rfl⟩ := h
  have hlength : (pre ++ t :: c.rest).length - c.rest.length = pre.length + 1 := by
    simp only [List.length_append, List.length_cons]
    omega
  have hat : (pre ++ t :: c.rest).getD pre.length c.eof = t := by simp [List.getD]
  simp only [previous, hlength, hat]

/-- Looking back finds the place to resume at. -/
theorem seek_eq (hend : c.eof.kind = .eof) {t : Token} {steps : Nat}
    (h : t :: c.rest <:+ tokens) (hsteps : c.rest.length < steps) :
    seek tokens steps c = .ok () { c with rest := resume t.kind c.rest } := by
  obtain ⟨rest, eof, n, bag⟩ := c
  dsimp only at hend h hsteps
  induction rest generalizing t steps with
  | nil =>
      obtain ⟨steps, rfl⟩ := Nat.exists_eq_succ_of_ne_zero (Nat.ne_zero_of_lt hsteps)
      simp only [seek, bind_apply, isAt, peek, pure_apply, List.headD_nil, hend, decide_true,
        if_true, resume]
  | cons next rest ih =>
      obtain ⟨steps, rfl⟩ := Nat.exists_eq_succ_of_ne_zero (Nat.ne_zero_of_lt hsteps)
      have hlater : next :: rest <:+ tokens := (List.suffix_cons _ _).trans h
      have hprevious : previous tokens ⟨next :: rest, eof, n, bag⟩ =
          .ok t ⟨next :: rest, eof, n, bag⟩ := previous_eq h
      rw [seek, bind_apply]
      simp only [isAt, bind_apply, peek, pure_apply, List.headD_cons, decide_eq_true_eq]
      by_cases heof : next.kind = .eof
      · simp only [pure_apply, resume, heof, true_or, if_true]
      · rw [if_neg heof, bind_apply, hprevious]
        by_cases hsemi : t.kind = .semicolon
        · simp only [pure_apply, resume, hsemi, true_or, or_true, if_true]
        · simp only [if_neg hsemi, bind_apply, peek, List.headD_cons]
          by_cases hstart : startsStatement next.kind = true
          · simp only [pure_apply, resume, hstart, or_true, if_true]
          · rw [if_neg hstart, bind_apply]
            simp only [skip, if_neg heof]
            rw [ih hlater (Nat.lt_of_succ_lt_succ hsteps), resume,
              if_neg (by simp [heof, hsemi, hstart])]

theorem synchronize_eq (hend : c.eof.kind = .eof) (h : c.rest <:+ tokens) :
    synchronize tokens c = .ok () (Parser.synchronize c) := by
  obtain ⟨rest, eof, n, bag⟩ := c
  dsimp only at hend h
  have hstop : ∀ ts : List Token, (ts.headD eof).kind = .eof →
      seek tokens (tokens.length + 1) ⟨ts, eof, n, bag⟩ = .ok () ⟨ts, eof, n, bag⟩ := by
    intro ts hts
    simp only [seek, bind_apply, isAt, peek, pure_apply, hts, decide_true, if_true]
  cases rest with
  | nil => exact hstop [] hend
  | cons t rest =>
      rw [synchronize, bind_apply]
      simp only [skip, Parser.synchronize]
      by_cases ht : t.kind = .eof
      · rw [if_pos ht, if_pos ht]
        exact hstop (t :: rest) ht
      · rw [if_neg ht, if_neg ht]
        have hlength := h.length_le
        rw [List.length_cons] at hlength
        exact seek_eq hend h (Nat.lt_of_succ_lt (Nat.lt_succ_of_le hlength))

end Behind

/-! ## The same outcomes -/

section Carrying

variable {α β γ δ : Type} {g : Detour} {σ : β → δ}

/-- What the two parsers do alike where `t` is the token to come. -/
def CarriesOn (g : Detour) (σ : β → δ) (t : Token) (p : Parser β) (q : Parser δ) : Prop :=
  ∀ c c', Behind g c c' → c.rest.headD c.eof = t → Tracks g σ (p c) (q c')

theorem Carries.on {p : Parser β} {q : Parser δ} (h : Carries g σ p q) (t : Token) :
    CarriesOn g σ t p q :=
  fun c c' hc _ => h c c' hc

theorem carries_peek_bind {f : Token → Parser β} {f' : Token → Parser δ}
    (h : ∀ t, CarriesOn g σ t (f t) (f' t)) : Carries g σ (peek >>= f) (peek >>= f') := by
  intro c c' hc
  rw [bind_apply, bind_apply]
  simp only [peek, hc.rest, hc.eof]
  exact h _ c c' hc rfl

/-- Keeping a token that is passed, and looking it up behind it. -/
theorem carriesOn_skip_bind {t : Token} {f : Unit → Parser β} {f' : Token → Parser δ}
    (ht : t.kind ≠ .eof) (h : Carries g σ (f ()) (f' t)) :
    CarriesOn g σ t (skip >>= f) (do skip; let t ← previous g.tokens; f' t) := by
  intro c c' hc hhead
  have hrest := hc.rest
  have hwithin := hc.within
  obtain ⟨rest, eof, n, bag⟩ := c
  obtain ⟨rest', eof', n', bag'⟩ := c'
  obtain rfl : rest' = rest := hrest
  cases rest' with
  | nil =>
      obtain rfl : eof = t := hhead
      exact absurd hc.ends ht
  | cons first rest =>
      obtain rfl : first = t := hhead
      have hskip : ∀ eof n bag, skip ⟨first :: rest, eof, n, bag⟩ =
          .ok () ⟨rest, eof, n, bag⟩ := by
        intro eof n bag
        simp only [skip, if_neg ht]
      rw [bind_apply, bind_apply, hskip, hskip]
      dsimp only
      rw [bind_apply, previous_eq hwithin]
      exact h _ _ { hc with rest := rfl, within := (List.suffix_cons _ _).trans hwithin }

theorem accept?_bind (kind : Kind) (f : Option Token → Parser β) :
    (accept? kind >>= f) = (do
      let t ← peek
      if t.kind = kind then (do skip; f (some t)) else f none) := by
  funext c
  by_cases hkind : (c.rest.headD c.eof).kind = kind
  · simp only [accept?, bind_apply, peek, if_pos hkind]
    cases skip c <;> rfl
  · simp only [accept?, bind_apply, peek, if_neg hkind, pure_apply]

/-- A token that may be there, and is looked up if it is. -/
theorem carries_accept?_bind {kind : Kind} (hk : kind ≠ .eof) {f : Option Token → Parser β}
    {f' : Option Token → Parser δ} (f'' : Token → Parser δ)
    (hf' : ∀ t, f' (some t) = (previous g.tokens >>= f''))
    (hnone : Carries g σ (f none) (f' none)) (hsome : ∀ t, Carries g σ (f (some t)) (f'' t)) :
    Carries g σ (accept? kind >>= f) (accept? kind >>= f') := by
  rw [accept?_bind, accept?_bind]
  refine carries_peek_bind fun t => ?_
  split
  next hkind =>
      rw [hf' t]
      exact carriesOn_skip_bind (by rw [hkind]; exact hk) (hsome t)
  next => exact Carries.on hnone t

theorem Tracks.recovering {p : Parser β} {q : Parser δ} {c c' : Cursor}
    (h : Tracks g σ (p c) (q c')) :
    Tracks g (Option.map σ) (Parser.recovering p c) (recovering g.tokens q c') := by
  unfold Parser.recovering Lookback.recovering
  generalize p c = outcome at h ⊢
  generalize q c' = outcome' at h ⊢
  cases h with
  | ok hb hnext =>
      subst hb
      exact .ok rfl hnext
  | @stuck next next' hnext =>
      have hend : next'.eof.kind = .eof := by rw [hnext.eof]; exact hnext.ends
      have hwithin : next'.rest <:+ g.tokens := by rw [hnext.rest]; exact hnext.within
      dsimp only
      rw [bind_apply, synchronize_eq hend hwithin]
      exact .ok rfl hnext.synchronize
  | exhausted => exact .exhausted

theorem carries_expression (steps : Nat) :
    Carries g (moveExpr g) (Parser.expression steps) (expression g.tokens steps) := by
  induction steps with
  | zero => exact carries_exhaust
  | succ steps ih =>
      refine ((carries_climb_extend (carries_operand ih (Nat.le_refl _)) (Nat.le_refl _)).1
        _).bind fun target => ?_
      exact carries_accept?_bind (by decide)
        (fun equals => expression g.tokens steps >>= fun value =>
          assignTo (moveExpr g target) value equals.range)
        (fun _ => rfl) (carries_pure rfl)
        fun equals => ih.bind fun value => carries_assignTo _ _ _

section Statements

variable {expr expr' : Parser Expr} {decl decl' : Parser (Option Stmt)}
  {stmt stmt' : Parser Stmt}

theorem carries_forInit (h : Carries g (moveExpr g) expr expr') :
    Carries g (Option.map (moveStmt g)) (Parser.forInit expr) (forInit g.tokens expr') := by
  let wanted := utf8 "';' after loop initializer"
  have hexpr : Carries g (Option.map (moveStmt g))
      (do let s ← expressionStatement expr wanted; return some s)
      (do let s ← expressionStatement expr' wanted; return some s) :=
    (carries_expressionStatement h wanted).bind fun _ => carries_pure rfl
  refine carries_peek_bind fun t => ?_
  cases hkind : t.kind with
  | semicolon =>
      refine Carries.on ?_ t
      exact carries_skip.bind fun _ => carries_pure rfl
  | keyword word =>
      cases word with
      | varWord =>
          refine carriesOn_skip_bind (by rw [hkind]; decide) ?_
          exact (carries_variableRest h _).bind fun _ => carries_pure rfl
      | _ => exact Carries.on hexpr t
  | _ => exact Carries.on hexpr t

theorem carries_forRest (h : Carries g (moveExpr g) expr expr')
    (hs : Carries g (moveStmt g) stmt stmt') (start : Range) :
    Carries g (moveStmt g) (Parser.forRest expr stmt start)
      (forRest g.tokens expr' stmt' start) := by
  refine (carries_expect _ _).bind fun _ => (carries_forInit h).bind fun init =>
    (carries_isAt _).bind fun noTest => carries_optional h (fun test => ?_) noTest
  refine (carries_expect _ _).bind fun close =>
    (carries_isAt _).bind fun noStep => carries_optional h (fun step => ?_) noStep
  refine (carries_expect _ _).bind fun _ => hs.bind fun body => carries_pure ?_
  have htest := getD_renumber test (.bool true) close.range g.move
  rw [htest, Stmt.span_renumber]
  exact forLoop_renumber _ _ _ _ _ _

theorem carries_statementWith (hd : Carries g (Option.map (moveStmt g)) decl decl')
    (hs : Carries g (moveStmt g) stmt stmt') (steps : Nat) :
    Carries g (moveStmt g) (Parser.statementWith decl stmt steps)
      (statementWith g.tokens decl' stmt' steps) := by
  have he := carries_expression (g := g) steps
  have hexpr := carries_expressionStatement he (utf8 "';' after expression")
  refine carries_peek_bind fun t => ?_
  cases hkind : t.kind with
  | keyword word =>
      have hne : t.kind ≠ .eof := by rw [hkind]; exact nofun
      cases word with
      | forWord => exact carriesOn_skip_bind hne (carries_forRest he hs _)
      | ifWord => exact carriesOn_skip_bind hne (carries_ifRest he hs _)
      | printWord => exact carriesOn_skip_bind hne (carries_printRest he _)
      | assertWord => exact carriesOn_skip_bind hne (carries_assertRest he _)
      | whileWord => exact carriesOn_skip_bind hne (carries_whileRest he hs _)
      | returnWord => exact carriesOn_skip_bind hne (carries_returnRest he _)
      | _ => exact Carries.on hexpr t
  | leftBrace =>
      refine carriesOn_skip_bind (by rw [hkind]; decide) ?_
      exact (carries_blockRest hd (Nat.le_refl _)).bind fun _ => carries_pure rfl
  | _ => exact Carries.on hexpr t

theorem carries_declarationWith (hd : Carries g (Option.map (moveStmt g)) decl decl')
    (hs : Carries g (moveStmt g) stmt stmt') (steps : Nat) :
    Carries g (moveStmt g) (Parser.declarationWith decl stmt steps)
      (declarationWith g.tokens decl' stmt' steps) := by
  have hle := Nat.le_refl steps
  have hstmt := carries_statementWith hd hs steps
  refine carries_peek_bind fun t => ?_
  cases hkind : t.kind with
  | keyword word =>
      have hne : t.kind ≠ .eof := by rw [hkind]; exact nofun
      cases word with
      | classWord => exact carriesOn_skip_bind hne (carries_classRest hd hle _)
      | funWord =>
          refine carriesOn_skip_bind hne ?_
          exact (carries_functionRest hd hle _ _).bind fun _ => carries_pure rfl
      | varWord =>
          exact carriesOn_skip_bind hne (carries_variableRest (carries_expression steps) _)
      | _ => exact Carries.on hstmt t
  | _ => exact Carries.on hstmt t

theorem carries_statement_declaration (steps : Nat) :
    Carries g (moveStmt g) (Parser.statement steps) (statement g.tokens steps) ∧
      Carries g (Option.map (moveStmt g)) (Parser.declaration steps)
        (declaration g.tokens steps) := by
  induction steps with
  | zero => exact ⟨carries_exhaust, carries_exhaust⟩
  | succ steps ih =>
      obtain ⟨hs, hd⟩ := ih
      exact ⟨carries_statementWith hd hs _,
        fun c c' hc => Tracks.recovering (carries_declarationWith hd hs _ c c' hc)⟩

end Statements

theorem carries_program (kind : ModuleKind) (steps : Nat) :
    Carries g (Module.renumber g.move) (Parser.program kind steps)
      (program g.tokens kind steps) := by
  refine carries_peek.bind fun _ =>
    (carries_topLevel (carries_statement_declaration steps).2 (Nat.le_refl _) [] []).bind fun _ =>
      carries_peek.bind fun _ => carries_pure ?_
  rw [Module.renumber, Stmt.renumberAll_eq_map]
  rfl

end Carrying

/-! ## Any tokens in front of the end -/

section Debris

variable {ts : List Token} {eof : Token} {steps : Nat} {c : Cursor}

/-- With steps for all the tokens, a declaration comes back. -/
theorem declaration_eq_ok (hend : c.eof.kind = .eof) (hhead : (c.rest.headD c.eof).kind ≠ .eof)
    (hsteps : c.rest.length < steps) :
    ∃ found d, Parser.declaration steps c = .ok found d ∧ Shrinks c d ∧
      d.rest.length < c.rest.length := by
  have hmoves := (moves_statement_declaration steps hsteps).2 _ hhead c hend
    (Nat.lt_succ_self _) rfl
  cases h : Parser.declaration steps c with
  | exhausted =>
      rw [h] at hmoves
      exact hmoves.elim
  | stuck d => exact absurd h (declaration_ne_stuck steps c d)
  | ok found d =>
      rw [h] at hmoves
      exact ⟨found, d, rfl, hmoves.1, hmoves.2 rfl⟩

/-- A declaration that comes back with fewer steps has taken tokens away as well. -/
theorem declaration_shrinks (hend : c.eof.kind = .eof)
    (hhead : (c.rest.headD c.eof).kind ≠ .eof) {found : Option Stmt} {d : Cursor}
    (h : Parser.declaration steps c = .ok found d) :
    Shrinks c d ∧ d.rest.length < c.rest.length := by
  have hmore := declaration_more hend h (Nat.le_add_right steps (c.rest.length + 1))
  have hlt : c.rest.length < steps + (c.rest.length + 1) := by omega
  obtain ⟨found', d', heq, hshrinks, hless⟩ := declaration_eq_ok hend hhead hlt
  obtain ⟨rfl, rfl⟩ := Parsed.ok.inj (hmore.symm.trans heq)
  exact ⟨hshrinks, hless⟩

/-- A declaration that comes back never looks back in front of the tokens. -/
theorem declaration_eq (hend : c.eof.kind = .eof) (hc : c.rest <:+ ts) {found : Option Stmt}
    {d : Cursor} (h : Parser.declaration steps c = .ok found d) :
    declaration ts steps c = .ok found d := by
  have htracks : Tracks (straight c ts) (Option.map (moveStmt (straight c ts)))
      (Parser.declaration steps c) (declaration ts steps c) :=
    (carries_statement_declaration steps).2 c c (behind_straight hend hc)
  rw [h] at htracks
  refine htracks.eq_ok ?_
  rw [moveStmt_straight, Option.map_id]
  rfl

/-- Nor does a whole module that is parsed. -/
theorem program_eq (hend : c.eof.kind = .eof) (hc : c.rest <:+ ts) {kind : ModuleKind}
    {m : Module} {d : Cursor} (h : Parser.program kind steps c = .ok m d) :
    program ts kind steps c = .ok m d := by
  have htracks : Tracks (straight c ts) (Module.renumber (straight c ts).move)
      (Parser.program kind steps c) (program ts kind steps c) :=
    carries_program kind steps c c (behind_straight hend hc)
  rw [h] at htracks
  exact htracks.eq_ok (moveModule_straight c ts m)

/-- A whole module is parsed to the end of the tokens. -/
theorem program_reaches_end (heof : eof.kind = .eof) (hts : ∀ t ∈ ts, t.kind ≠ .eof)
    (kind : ModuleKind) (n : Nat) (bag : Bag) :
    ∃ m d, Parser.program kind (ts.length + 2) ⟨ts, eof, n, bag⟩ = .ok m d ∧
      d.rest = [] ∧ d.eof = eof := by
  obtain ⟨body, d, htop, hshrinks, hlast⟩ := topLevel_eq_ok (k := ts.length + 2)
    (s := ts.length + 2) (c := ⟨ts, eof, n, bag⟩) heof (Nat.lt_add_of_pos_right Nat.two_pos)
    (Nat.lt_add_of_pos_right Nat.two_pos) []
  obtain ⟨m, hrun⟩ :
      ∃ m, Parser.program kind (ts.length + 2) ⟨ts, eof, n, bag⟩ = .ok m d := by
    rw [Parser.program, bind_apply]
    dsimp only [peek]
    rw [bind_apply, htop]
    exact ⟨_, rfl⟩
  exact ⟨m, d, hrun, Grammar.rest_eq_nil hshrinks hlast hts, hshrinks.1⟩

/-- Any tokens with the end marker behind them are parsed to the end, without a look back in
front of the first.  No declaration leaves recovery to what it stands in, and each one that
is started in front of the end takes a token away. -/
theorem parse_reaches_end (heof : eof.kind = .eof) (hts : ∀ t ∈ ts, t.kind ≠ .eof)
    (kind : ModuleKind) (n : Nat) (bag : Bag) :
    (∃ m d, program ts kind (ts.length + 2) ⟨ts, eof, n, bag⟩ = .ok m d ∧
        Parser.program kind (ts.length + 2) ⟨ts, eof, n, bag⟩ = .ok m d ∧
        Module.parse (ts ++ [eof]) kind n bag = .ok ⟨m, d.lastId, d.bag⟩ ∧
        d.rest = [] ∧ d.eof = eof) ∧
      ∀ (steps : Nat) (c : Cursor), c.rest <:+ ts → c.rest ≠ [] → c.eof = eof →
        (c.rest.length < steps → ∃ found d, Parser.declaration steps c = .ok found d) ∧
        (∀ d, Parser.declaration steps c ≠ .stuck d) ∧
        ∀ found d, Parser.declaration steps c = .ok found d →
          declaration ts steps c = .ok found d ∧ d.rest <:+ c.rest ∧
            d.rest.length < c.rest.length ∧ d.eof = eof := by
  constructor
  · obtain ⟨m, d, hrun, hrest, hend⟩ := program_reaches_end heof hts kind n bag
    exact ⟨m, d, program_eq heof (List.suffix_refl ts) hrun, hrun,
      Grammar.parse_of_run heof hrun, hrest, hend⟩
  · intro steps c hc hne hend
    have hkind : c.eof.kind = .eof := by rw [hend]; exact heof
    have hhead : (c.rest.headD c.eof).kind ≠ .eof := by
      obtain ⟨t, rest, hrest⟩ := List.exists_cons_of_ne_nil hne
      rw [hrest, List.headD_cons]
      exact hts t (hc.subset (by rw [hrest]; exact List.mem_cons_self))
    refine ⟨fun hsteps => ?_, declaration_ne_stuck steps c, fun found d h => ?_⟩
    · obtain ⟨found, d, h, -⟩ := declaration_eq_ok hkind hhead hsteps
      exact ⟨found, d, h⟩
    · obtain ⟨hshrinks, hless⟩ := declaration_shrinks hkind hhead h
      exact ⟨declaration_eq hkind hc h, hshrinks.2, hless, hshrinks.1.trans hend⟩

/-- Tokens that hardly are a program. -/
def debris : List Token :=
  Grammar.lexed (utf8 ") \x7b ; class +")

/-- Each declaration of the debris takes a token away. -/
theorem parse_reaches_end_of_debris :
    (∃ m d, program debris .sourceFile (debris.length + 2)
        ⟨debris, Grammar.mark .eof, 0, Bag.empty⟩ = .ok m d ∧ d.rest = []) ∧
      ∀ c : Cursor, c.rest <:+ debris → c.rest ≠ [] → c.eof = Grammar.mark .eof →
        ∃ found d, Parser.declaration (debris.length + 1) c = .ok found d ∧
          d.rest.length < c.rest.length := by
  have hkinds : ∀ t ∈ debris, t.kind ≠ .eof := by decide +kernel
  have hstop : (Grammar.mark .eof).kind = .eof := rfl
  obtain ⟨⟨m, d, hrun, -, -, hrest, -⟩, hdeclaration⟩ :=
    parse_reaches_end hstop hkinds .sourceFile 0 Bag.empty
  refine ⟨⟨m, d, hrun, hrest⟩, fun c hc hne hend => ?_⟩
  obtain ⟨hok, -, hspec⟩ := hdeclaration (debris.length + 1) c hc hne hend
  obtain ⟨found, d, h⟩ := hok (Nat.lt_succ_of_le hc.length_le)
  exact ⟨found, d, h, (hspec found d h).2.2.1⟩

end Debris

end LoxMachine.Lookback
