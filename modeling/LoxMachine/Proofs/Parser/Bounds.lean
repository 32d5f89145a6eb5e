import LoxMachine.Proofs.Parser.Acceptance
import LoxMachine.Tree.Statement

/-!
# Bounds on the parsers

The bounds of the parsers never run out as long as they exceed the number of tokens
to come: each round of a loop and each level of nesting takes a token away, and so
does recovery, unless the end has been reached.
-/

namespace LoxMachine.Parser

variable {α β : Type} {b k s : Nat} {strict : Bool} {c d : Cursor}

/-! ## Moving on -/

/-- Some tokens may have been taken from the front. -/
def Shrinks (c d : Cursor) : Prop :=
  d.eof = c.eof ∧ d.rest <:+ c.rest

theorem Shrinks.refl (c : Cursor) : Shrinks c c :=
  ⟨rfl, List.suffix_refl _⟩

theorem Shrinks.length_le (h : Shrinks c d) : d.rest.length ≤ c.rest.length :=
  h.2.length_le

theorem Shrinks.trans {e : Cursor} (hcd : Shrinks c d) (hde : Shrinks d e) : Shrinks c e :=
  ⟨hde.1.trans hcd.1, hde.2.trans hcd.2⟩

/-- From `c`, the outcome is not for want of steps, and no tokens were put back. A
strict move takes at least one token unless it gets stuck. -/
def MovesFrom (strict : Bool) (c : Cursor) : Parsed α → Prop
  | .ok _ d => Shrinks c d ∧ (strict = true → d.rest.length < c.rest.length)
  | .stuck d => Shrinks c d
  | .exhausted => False

/-- `p` moves on whenever fewer than `b` tokens are to come. -/
def Moves (strict : Bool) (b : Nat) (p : Parser α) : Prop :=
  ∀ c, c.eof.kind = .eof → c.rest.length < b → MovesFrom strict c (p c)

theorem MovesFrom.loosen {r : Parsed α} (h : MovesFrom strict c r) : MovesFrom false c r := by
  cases r with
  | ok a d => exact ⟨h.1, by simp⟩
  | stuck d => exact h
  | exhausted => exact h

theorem Moves.loosen {p : Parser α} (h : Moves strict b p) : Moves false b p :=
  fun c heof hc => (h c heof hc).loosen

theorem Moves.mono {p : Parser α} (h : Moves strict b p) (hk : k ≤ b) : Moves strict k p :=
  fun c heof hc => h c heof (Nat.lt_of_lt_of_le hc hk)

theorem moves_zero (p : Parser α) : Moves strict 0 p :=
  fun _ _ hc => absurd hc (Nat.not_lt_zero _)

/-- What comes after a move that takes tokens away starts from fewer of them. -/
theorem MovesFrom.andThen {r : Parsed α} {f : α → Cursor → Parsed β} {first later : Bool}
    (hr : MovesFrom first c r)
    (hf : ∀ a d, Shrinks c d → (first = true → d.rest.length < c.rest.length) →
      MovesFrom later d (f a d)) :
    MovesFrom (first || later) c
      (match r with
        | .ok a d => f a d
        | .stuck d => .stuck d
        | .exhausted => .exhausted) := by
  cases r with
  | exhausted => exact hr
  | stuck d => exact hr
  | ok a d =>
      have hd := hf a d hr.1 hr.2
      dsimp only
      cases hfd : f a d with
      | exhausted =>
          rw [hfd] at hd
          exact hd
      | stuck e =>
          rw [hfd] at hd
          exact hr.1.trans hd
      | ok x e =>
          rw [hfd] at hd
          refine ⟨hr.1.trans hd.1, ?_⟩
          intro hstrict
          rcases Bool.or_eq_true_iff.mp hstrict with h | h
          · exact Nat.lt_of_le_of_lt hd.1.length_le (hr.2 h)
          · exact Nat.lt_of_lt_of_le (hd.2 h) hr.1.length_le

theorem Moves.bind {p : Parser α} {f : α → Parser β} (hp : Moves false b p)
    (hf : ∀ a, Moves strict b (f a)) : Moves strict b (p >>= f) := by
  intro c heof hc
  refine (hp c heof hc).andThen fun a d hd _ => hf a d ?_ ?_
  · rw [hd.1]
    exact heof
  · exact Nat.lt_of_le_of_lt hd.length_le hc

theorem Moves.seq {p : Parser α} {f : α → Parser β} (hp : Moves true (b + 1) p)
    (hf : ∀ a, Moves false b (f a)) : Moves true (b + 1) (p >>= f) := by
  intro c heof hc
  refine (hp c heof hc).andThen fun a d hd hlt => hf a d ?_ ?_
  · rw [hd.1]
    exact heof
  · exact Nat.lt_of_lt_of_le (hlt rfl) (Nat.le_of_lt_succ hc)

/-! ## The smallest parsers -/

theorem moves_pure (a : α) : Moves false b (pure a : Parser α) :=
  fun c _ _ => ⟨Shrinks.refl c, by simp⟩

theorem moves_peek : Moves false b peek :=
  fun c _ _ => ⟨Shrinks.refl c, by simp⟩

theorem moves_nextId : Moves false b nextId :=
  fun _ _ _ => ⟨⟨rfl, List.suffix_refl _⟩, by simp⟩

theorem moves_complain (range : Range) (complaint : Complaint) :
    Moves false b (complain range complaint) :=
  fun _ _ _ => ⟨⟨rfl, List.suffix_refl _⟩, by simp⟩

theorem moves_refuse (range : Range) (complaint : Complaint) :
    Moves strict b (do complain range complaint; giveUp : Parser α) :=
  fun _ _ _ => ⟨rfl, List.suffix_refl _⟩

/-- `p` moves on whenever `t` is at the head of fewer than `b` tokens. -/
def MovesOn (t : Token) (strict : Bool) (b : Nat) (p : Parser α) : Prop :=
  ∀ c, c.eof.kind = .eof → c.rest.length < b → c.rest.headD c.eof = t →
    MovesFrom strict c (p c)

theorem Moves.on {p : Parser α} (h : Moves strict b p) (t : Token) : MovesOn t strict b p :=
  fun c heof hc _ => h c heof hc

theorem MovesOn.loosen {t : Token} {p : Parser α} (h : MovesOn t strict b p) :
    MovesOn t false b p :=
  fun c heof hc ht => (h c heof hc ht).loosen

theorem moves_peek_bind {f : Token → Parser β} (h : ∀ t, MovesOn t strict b (f t)) :
    Moves strict b (peek >>= f) :=
  fun c heof hc => h (c.rest.headD c.eof) c heof hc rfl

/-- A test of the token at the head, and what follows it. -/
theorem moves_test_bind {f : Bool → Parser β} (v : Token → Bool)
    (h : ∀ t, MovesOn t strict b (f (v t))) :
    Moves strict b ((do let t ← peek; return v t) >>= f) :=
  fun c heof hc => h (c.rest.headD c.eof) c heof hc rfl

/-- Skipping a token that is not the end marker. -/
theorem movesOn_skip_bind {f : Unit → Parser β} {t : Token} (ht : t.kind ≠ .eof)
    (hf : Moves false b (f ())) : MovesOn t true (b + 1) (skip >>= f) := by
  intro c heof hc hhead
  have hskip : MovesFrom true c (skip c) := by
    unfold skip
    cases hrest : c.rest with
    | nil =>
        rw [hrest] at hhead
        exact absurd (hhead ▸ heof) ht
    | cons t' rest =>
        rw [hrest, List.headD_cons] at hhead
        subst hhead
        simp only [if_neg ht]
        refine ⟨⟨rfl, ?_⟩, fun _ => ?_⟩
        · rw [hrest]
          exact List.suffix_cons _ _
        · rw [hrest]
          exact Nat.lt_succ_self _
  refine hskip.andThen fun _ d hd hlt => hf d ?_ ?_
  · rw [hd.1]
    exact heof
  · exact Nat.lt_of_lt_of_le (hlt rfl) (Nat.le_of_lt_succ hc)

theorem moves_accept? {kind : Kind} (hk : kind ≠ .eof) : Moves false b (accept? kind) := by
  refine moves_peek_bind fun t => ?_
  split
  next hkind =>
    cases b with
    | zero => exact (moves_zero _).on t
    | succ b =>
        have ht : t.kind ≠ .eof := by rw [hkind]; exact hk
        exact (movesOn_skip_bind ht (moves_pure (some t))).loosen
  next => exact (moves_pure none).on t

theorem moves_isAt (kind : Kind) : Moves false b (isAt kind) :=
  moves_peek.bind fun _ => moves_pure _

theorem moves_expect {kind : Kind} (hk : kind ≠ .eof) (wanted : Bytes) :
    Moves true b (expect kind wanted) := by
  refine moves_peek_bind fun t => ?_
  split
  next hkind =>
    cases b with
    | zero => exact (moves_zero _).on t
    | succ b =>
        have ht : t.kind ≠ .eof := by rw [hkind]; exact hk
        exact movesOn_skip_bind ht (moves_pure t)
  next => exact (moves_refuse _ _).on t

theorem moves_expectName (wanted : Bytes) : Moves true b (expectName wanted) := by
  cases b with
  | zero => exact moves_zero _
  | succ b => exact (moves_expect (by decide) wanted).seq fun _ => moves_pure _

/-! ## Expressions -/

theorem moves_climb_extend {operand : Parser Expr} (s : Nat) :
    ∀ {b}, b ≤ s → Moves true b operand →
      (∀ level, Moves true b (climb operand s level)) ∧
        ∀ level left, Moves false b (extend operand s level left) := by
  induction s with
  | zero =>
      intro b hb _
      obtain rfl : b = 0 := Nat.le_zero.mp hb
      exact ⟨fun _ => moves_zero _, fun _ _ => moves_zero _⟩
  | succ s ih =>
      intro b hb ho
      cases b with
      | zero => exact ⟨fun _ => moves_zero _, fun _ _ => moves_zero _⟩
      | succ b =>
          obtain ⟨hclimb, hextend⟩ := ih (Nat.le_of_succ_le_succ hb) (ho.mono (Nat.le_succ b))
          constructor
          · intro level
            rw [climb]
            exact ho.seq fun left => hextend level left
          · intro level left
            rw [extend]
            refine moves_peek_bind fun t => ?_
            split
            next => exact (moves_pure left).on t
            next op hop =>
              have ht : t.kind ≠ .eof := by
                intro heq
                rw [heq] at hop
                cases hop
              split
              · exact (moves_pure left).on t
              · exact (movesOn_skip_bind ht
                  ((hclimb _).loosen.bind fun _ => hextend _ _)).loosen

theorem moves_numberLiteral (t : Token) : Moves false b (numberLiteral t) := by
  unfold numberLiteral
  split
  · exact moves_pure _
  · exact (moves_complain _ _).bind fun _ => moves_pure _

theorem moves_primary {inner : Parser Expr} (h : Moves true b inner) :
    Moves true (b + 1) (primary inner) := by
  refine moves_peek_bind fun t => ?_
  split
  case h_10 => exact (moves_refuse _ _).on t
  all_goals
    next hkind =>
      have ht : t.kind ≠ .eof := by rw [hkind]; decide
      first
        | exact movesOn_skip_bind ht (moves_pure _)
        | exact movesOn_skip_bind ht (moves_numberLiteral _)
        | exact movesOn_skip_bind ht (moves_nextId.bind fun _ => moves_pure _)
        | exact movesOn_skip_bind ht ((moves_expect (by decide) _).loosen.bind fun _ =>
            (moves_expectName _).loosen.bind fun _ => moves_nextId.bind fun _ =>
              moves_nextId.bind fun _ => moves_pure _)
        | exact movesOn_skip_bind ht (h.loosen.bind fun _ =>
            (moves_expect (by decide) _).loosen.bind fun _ => moves_pure _)

theorem moves_arguments {inner : Parser Expr} (s : Nat) :
    ∀ {b}, b ≤ s → Moves true b inner → ∀ before, Moves true b (arguments inner s before) := by
  induction s with
  | zero =>
      intro b hb _ before
      obtain rfl : b = 0 := Nat.le_zero.mp hb
      exact moves_zero _
  | succ s ih =>
      intro b hb h before
      cases b with
      | zero => exact moves_zero _
      | succ b =>
          rw [arguments]
          refine h.seq fun e => (moves_accept? (by decide)).bind fun found => ?_
          cases found with
          | none => exact moves_pure _
          | some _ =>
              exact (ih (Nat.le_of_succ_le_succ hb) (h.mono (Nat.le_succ b)) _).loosen

/-- A list that may be left out, and what follows it. -/
theorem moves_list_bind {list : Parser (List α)} {f : List α → Parser β} {stop : Kind}
    (h : Moves true b list) (hf : ∀ l, Moves strict b (f l)) :
    Moves strict b (do
      let absent ← isAt stop
      if absent = true then (do let l ← pure []; f l) else do let l ← list; f l) := by
  refine (moves_isAt stop).bind fun absent => ?_
  split
  · exact (moves_pure _).bind hf
  · exact h.loosen.bind hf

theorem moves_suffixes {inner : Parser Expr} (s : Nat) :
    ∀ {b e}, b + 1 ≤ s → Moves true b inner → Moves false (b + 1) (suffixes inner s e) := by
  induction s with
  | zero =>
      intro b e hb _
      exact absurd hb (Nat.not_succ_le_zero b)
  | succ s ih =>
      intro b e hb h
      have hmore : ∀ e, Moves false b (suffixes inner s e) := by
        intro e
        cases b with
        | zero => exact moves_zero _
        | succ b => exact ih (Nat.le_of_succ_le_succ hb) (h.mono (Nat.le_succ b))
      rw [suffixes]
      refine moves_peek_bind fun t => ?_
      split
      next hkind =>
        have ht : t.kind ≠ .eof := by rw [hkind]; decide
        have hargs := moves_arguments s (Nat.le_of_succ_le_succ hb) h
        exact (movesOn_skip_bind ht (moves_list_bind (hargs []) fun _ =>
          (moves_expect (by decide) _).loosen.bind fun _ => hmore _)).loosen
      next hkind =>
        have ht : t.kind ≠ .eof := by rw [hkind]; decide
        exact (movesOn_skip_bind ht ((moves_expectName _).loosen.bind fun _ => hmore _)).loosen
      next => exact (moves_pure e).on t

theorem moves_unary {operand : Parser Expr} (s : Nat) :
    ∀ {b}, b ≤ s → Moves true b operand → Moves true b (unary operand s) := by
  induction s with
  | zero =>
      intro b hb _
      obtain rfl : b = 0 := Nat.le_zero.mp hb
      exact moves_zero _
  | succ s ih =>
      intro b hb h
      cases b with
      | zero => exact moves_zero _
      | succ b =>
          rw [unary]
          refine moves_peek_bind fun t => ?_
          split
          next => exact h.on t
          next op hop =>
            have ht : t.kind ≠ .eof := by
              intro heq
              rw [heq] at hop
              cases hop
            exact movesOn_skip_bind ht ((ih (Nat.le_of_succ_le_succ hb)
              (h.mono (Nat.le_succ b))).loosen.bind fun _ => moves_pure _)

theorem moves_operand {inner : Parser Expr} (hb : b + 1 ≤ s) (h : Moves true b inner) :
    Moves true (b + 1) (operand inner s) :=
  moves_unary s hb ((moves_primary h).seq fun _ =>
    (moves_suffixes s hb h).mono (Nat.le_succ b))

theorem moves_assignTo (target value : Expr) (equals : Range) :
    Moves false b (assignTo target value equals) := by
  unfold assignTo
  split
  · exact moves_nextId.bind fun _ => moves_pure _
  · exact moves_pure _
  · exact (moves_complain _ _).bind fun _ => moves_pure _

theorem moves_expression (s : Nat) : ∀ {b}, b ≤ s → Moves true b (expression s) := by
  induction s with
  | zero =>
      intro b hb
      obtain rfl : b = 0 := Nat.le_zero.mp hb
      exact moves_zero _
  | succ s ih =>
      intro b hb
      cases b with
      | zero => exact moves_zero _
      | succ b =>
          have hinner := ih (Nat.le_of_succ_le_succ hb)
          have hclimb := (moves_climb_extend (s + 1) hb (moves_operand hb hinner)).1 1
          rw [expression]
          refine hclimb.seq fun target => (moves_accept? (by decide)).bind fun found => ?_
          cases found with
          | none => exact moves_pure _
          | some equals => exact hinner.loosen.bind fun value => moves_assignTo _ _ _

/-! ## Statements -/

section Statements

variable {expr : Parser Expr} {stmt : Parser Stmt} {decl : Parser (Option Stmt)}

/-- An expression that may be left out, and what follows it. -/
theorem moves_optional_bind {f : Option Expr → Parser β} {stop : Kind} (h : Moves true b expr)
    (hf : ∀ e, Moves strict b (f e)) :
    Moves strict b (do
      let absent ← isAt stop
      if absent = true then (do let e ← pure none; f e)
        else do let e ← expr; let e ← pure (some e); f e) := by
  refine (moves_isAt stop).bind fun absent => ?_
  split
  · exact (moves_pure _).bind hf
  · exact h.loosen.bind fun e => (moves_pure _).bind hf

theorem moves_variableRest (h : Moves true b expr) (start : Range) :
    Moves false b (variableRest expr start) := by
  refine (moves_expectName _).loosen.bind fun name => (moves_accept? (by decide)).bind
    fun found => ?_
  cases found with
  | none => exact (moves_expect (by decide) _).loosen.bind fun _ => moves_pure _
  | some _ =>
      exact h.loosen.bind fun _ => (moves_expect (by decide) _).loosen.bind fun _ =>
        moves_pure _

theorem moves_closed (h : Moves true b expr) (wanted : Bytes) (make : Expr → Token → Stmt) :
    Moves true b (do
      let e ← expr
      let close ← expect .semicolon wanted
      return make e close) := by
  cases b with
  | zero => exact moves_zero _
  | succ b =>
      exact h.seq fun _ => (moves_expect (by decide) _).loosen.bind fun _ => moves_pure _

theorem moves_returnRest (h : Moves true b expr) (start : Range) :
    Moves false b (returnRest expr start) :=
  moves_optional_bind h fun _ => (moves_expect (by decide) _).loosen.bind fun _ => moves_pure _

theorem moves_condition (h : Moves true b expr) : Moves false b (condition expr) :=
  (moves_expect (by decide) _).loosen.bind fun _ => h.loosen.bind fun _ =>
    (moves_expect (by decide) _).loosen.bind fun _ => moves_pure _

theorem moves_ifRest (h : Moves true b expr) (hs : Moves true b stmt) (start : Range) :
    Moves false b (ifRest expr stmt start) := by
  refine (moves_condition h).bind fun test => hs.loosen.bind fun a =>
    (moves_accept? (by decide)).bind fun found => ?_
  cases found with
  | none => exact moves_pure _
  | some _ => exact hs.loosen.bind fun _ => moves_pure _

theorem moves_whileRest (h : Moves true b expr) (hs : Moves true b stmt) (start : Range) :
    Moves false b (whileRest expr stmt start) :=
  (moves_condition h).bind fun _ => hs.loosen.bind fun _ => moves_pure _

theorem moves_forInit (h : Moves true b expr) : Moves false b (forInit expr) := by
  cases b with
  | zero => exact moves_zero _
  | succ b =>
      refine moves_peek_bind fun t => ?_
      split
      next hkind =>
        have ht : t.kind ≠ .eof := by rw [hkind]; decide
        exact (movesOn_skip_bind ht (moves_pure none)).loosen
      next hkind =>
        have ht : t.kind ≠ .eof := by rw [hkind]; decide
        exact (movesOn_skip_bind ht ((moves_variableRest (h.mono (Nat.le_succ b)) _).bind
          fun _ => moves_pure _)).loosen
      next =>
        exact ((moves_closed h _ _).loosen.bind fun _ => moves_pure _).on t

theorem moves_forRest (h : Moves true b expr) (hs : Moves true b stmt) (start : Range) :
    Moves false b (forRest expr stmt start) :=
  (moves_expect (by decide) _).loosen.bind fun _ => (moves_forInit h).bind fun _ =>
    moves_optional_bind h fun _ => (moves_expect (by decide) _).loosen.bind fun _ =>
      moves_optional_bind h fun _ => (moves_expect (by decide) _).loosen.bind fun _ =>
        hs.loosen.bind fun _ => moves_pure _

/-! ## Blocks, functions and classes -/

/-- Away from the end, `p` moves on and takes a token away even if it has to recover. -/
def Advances (b : Nat) (p : Parser α) : Prop :=
  ∀ t : Token, t.kind ≠ .eof → MovesOn t true b p

theorem Advances.mono {p : Parser α} (h : Advances b p) (hk : k ≤ b) : Advances k p :=
  fun t ht c heof hc hhead => h t ht c heof (Nat.lt_of_lt_of_le hc hk) hhead

theorem advances_zero (p : Parser α) : Advances 0 p :=
  fun t _ => (moves_zero p).on t

theorem Advances.bind {p : Parser α} {f : α → Parser β} {t : Token} (hp : Advances (b + 1) p)
    (ht : t.kind ≠ .eof) (hf : ∀ a, Moves false b (f a)) :
    MovesOn t true (b + 1) (p >>= f) := by
  intro c heof hc hhead
  refine (hp t ht c heof hc hhead).andThen fun a d hd hlt => hf a d ?_ ?_
  · rw [hd.1]
    exact heof
  · exact Nat.lt_of_lt_of_le (hlt rfl) (Nat.le_of_lt_succ hc)

theorem moves_atBlockEnd_bind {f : Bool → Parser β} (hend : Moves strict b (f true))
    (hmore : ∀ t : Token, t.kind ≠ .eof → MovesOn t strict b (f false)) :
    Moves strict b (atBlockEnd >>= f) := by
  refine moves_test_bind (fun t => t.kind = .rightBrace || t.kind = .eof) fun t => ?_
  cases hv : (decide (t.kind = .rightBrace) || decide (t.kind = .eof)) with
  | true => exact hend.on t
  | false =>
      refine hmore t ?_
      intro ht
      simp [ht] at hv

theorem moves_declarations (s : Nat) :
    ∀ {b}, b ≤ s → Advances b decl → ∀ before, Moves false b (declarations decl s before) := by
  induction s with
  | zero =>
      intro b hb _ before
      obtain rfl : b = 0 := Nat.le_zero.mp hb
      exact moves_zero _
  | succ s ih =>
      intro b hb h before
      cases b with
      | zero => exact moves_zero _
      | succ b =>
          have hmore := ih (Nat.le_of_succ_le_succ hb) (h.mono (Nat.le_succ b))
          rw [declarations]
          refine moves_atBlockEnd_bind (moves_pure _) fun t ht => ?_
          refine (h.bind ht fun found => ?_).loosen
          cases found with
          | some s => exact hmore _
          | none => exact hmore _

theorem moves_blockRest (hb : b ≤ s) (h : Advances b decl) :
    Moves false b (blockRest decl s) :=
  (moves_declarations s hb h []).bind fun _ => (moves_expect (by decide) _).loosen.bind
    fun _ => moves_pure _

theorem moves_parameters (s : Nat) : ∀ {b}, b ≤ s → ∀ before,
    Moves true b (parameters s before) := by
  induction s with
  | zero =>
      intro b hb before
      obtain rfl : b = 0 := Nat.le_zero.mp hb
      exact moves_zero _
  | succ s ih =>
      intro b hb before
      cases b with
      | zero => exact moves_zero _
      | succ b =>
          rw [parameters]
          refine (moves_expectName _).seq fun name => (moves_accept? (by decide)).bind
            fun found => ?_
          cases found with
          | none => exact moves_pure _
          | some _ => exact (ih (Nat.le_of_succ_le_succ hb) _).loosen

theorem moves_functionRest (hb : b ≤ s) (h : Advances b decl) (kind : FunctionKind)
    (start : Range) : Moves true (b + 1) (functionRest decl s kind start) :=
  (moves_expectName _).seq fun _ => (moves_expect (by decide) _).loosen.bind fun _ =>
    moves_list_bind (moves_parameters s hb []) fun _ =>
      (moves_expect (by decide) _).loosen.bind fun _ =>
        (moves_expect (by decide) _).loosen.bind fun _ =>
          (moves_blockRest hb h).bind fun _ => moves_pure _

theorem moves_methods (s : Nat) :
    ∀ {b}, b ≤ s → Advances b decl → ∀ before, Moves false b (methods decl s before) := by
  induction s with
  | zero =>
      intro b hb _ before
      obtain rfl : b = 0 := Nat.le_zero.mp hb
      exact moves_zero _
  | succ s ih =>
      intro b hb h before
      cases b with
      | zero => exact moves_zero _
      | succ b =>
          have hd := h.mono (Nat.le_succ b)
          have hmore := ih (Nat.le_of_succ_le_succ hb) hd
          rw [methods]
          refine moves_atBlockEnd_bind (moves_pure _) fun t _ => Moves.on ?_ t
          exact moves_peek.bind fun start =>
            ((moves_functionRest (Nat.le_of_succ_le_succ hb) hd _ _).seq fun _ =>
              hmore _).loosen

theorem moves_superclass? : Moves false b superclass? := by
  refine (moves_accept? (by decide)).bind fun found => ?_
  cases found with
  | none => exact moves_pure _
  | some _ =>
      exact (moves_expectName _).loosen.bind fun _ => moves_nextId.bind fun _ => moves_pure _

theorem moves_classRest (hb : b ≤ s) (h : Advances b decl) (start : Range) :
    Moves false b (classRest decl s start) :=
  (moves_expectName _).loosen.bind fun _ => moves_superclass?.bind fun _ =>
    (moves_expect (by decide) _).loosen.bind fun _ => (moves_methods s hb h []).bind fun _ =>
      (moves_expect (by decide) _).loosen.bind fun _ => moves_pure _

/-! ## Statements and declarations -/

theorem moves_statementWith (hb : b + 1 ≤ s) (hd : Advances b decl) (hs : Moves true b stmt) :
    Moves true (b + 1) (statementWith decl stmt s) := by
  have hexpr : Moves true (b + 1) (expression s) := moves_expression s hb
  have he := hexpr.mono (Nat.le_succ b)
  have hbs : b ≤ s := Nat.le_of_succ_le hb
  refine moves_peek_bind fun t => ?_
  split
  case h_8 => exact (moves_closed hexpr _ _).on t
  all_goals
    next hkind =>
      have ht : t.kind ≠ .eof := by rw [hkind]; decide
      first
        | exact movesOn_skip_bind ht (moves_forRest he hs _)
        | exact movesOn_skip_bind ht (moves_ifRest he hs _)
        | exact movesOn_skip_bind ht (moves_closed he _ _).loosen
        | exact movesOn_skip_bind ht (moves_whileRest he hs _)
        | exact movesOn_skip_bind ht (moves_returnRest he _)
        | exact movesOn_skip_bind ht ((moves_blockRest hbs hd).bind fun _ => moves_pure _)

theorem moves_declarationWith (hb : b + 1 ≤ s) (hd : Advances b decl)
    (hs : Moves true b stmt) : Moves true (b + 1) (declarationWith decl stmt s) := by
  have he : Moves true b (expression s) := moves_expression s (Nat.le_of_succ_le hb)
  have hbs : b ≤ s := Nat.le_of_succ_le hb
  refine moves_peek_bind fun t => ?_
  split
  next hkind =>
    have ht : t.kind ≠ .eof := by rw [hkind]; decide
    exact movesOn_skip_bind ht (moves_classRest hbs hd _)
  next hkind =>
    have ht : t.kind ≠ .eof := by rw [hkind]; decide
    exact movesOn_skip_bind ht (((moves_functionRest hbs hd _ _).mono
      (Nat.le_succ b)).loosen.bind fun _ => moves_pure _)
  next hkind =>
    have ht : t.kind ≠ .eof := by rw [hkind]; decide
    exact movesOn_skip_bind ht (moves_variableRest he _)
  next => exact (moves_statementWith hb hd hs).on t

end Statements

/-! ## Recovery -/

theorem resume_suffix (last : Kind) (ts : List Token) : resume last ts <:+ ts := by
  induction ts generalizing last with
  | nil => exact List.suffix_refl _
  | cons t rest ih =>
      rw [resume]
      split
      · exact List.suffix_refl _
      · exact (ih t.kind).trans (List.suffix_cons t rest)

theorem shrinks_synchronize (c : Cursor) : Shrinks c (synchronize c) := by
  refine ⟨(later_synchronize c).eof, ?_⟩
  unfold synchronize
  split
  next => exact List.suffix_refl _
  next t rest hrest =>
    split
    · exact List.suffix_refl _
    · rw [hrest]
      exact (resume_suffix _ _).trans (List.suffix_cons t rest)

theorem synchronize_length_lt (heof : c.eof.kind = .eof)
    (hhead : (c.rest.headD c.eof).kind ≠ .eof) :
    (synchronize c).rest.length < c.rest.length := by
  unfold synchronize
  split
  next hrest =>
    rw [hrest] at hhead
    exact absurd heof hhead
  next t rest hrest =>
    rw [hrest, List.headD_cons] at hhead
    rw [if_neg hhead, hrest]
    exact Nat.lt_succ_of_le (resume_suffix _ _).length_le

theorem Moves.recovering {p : Parser α} (h : Moves true b p) : Advances b (recovering p) := by
  intro t ht c heof hc hhead
  have hp := h c heof hc
  unfold Parser.recovering
  cases hpc : p c with
  | exhausted =>
      rw [hpc] at hp
      exact hp
  | ok a d =>
      rw [hpc] at hp
      exact hp
  | stuck d =>
      rw [hpc] at hp
      have hd : Shrinks c d := hp
      refine ⟨hd.trans (shrinks_synchronize d), fun _ => ?_⟩
      -- where nothing was taken, the head is still not the end marker
      rcases Nat.eq_or_lt_of_le hd.length_le with hlength | hless
      · have hsame := hd.2.eq_of_length hlength
        rw [← hsame]
        refine synchronize_length_lt (by rw [hd.1]; exact heof) ?_
        rw [hsame, hd.1, hhead]
        exact ht
      · exact Nat.lt_of_le_of_lt (shrinks_synchronize d).length_le hless

/-! ## Modules -/

theorem moves_statement_declaration (s : Nat) :
    ∀ {b}, b ≤ s → Moves true b (statement s) ∧ Advances b (declaration s) := by
  induction s with
  | zero =>
      intro b hb
      obtain rfl : b = 0 := Nat.le_zero.mp hb
      exact ⟨moves_zero _, advances_zero _⟩
  | succ s ih =>
      intro b hb
      cases b with
      | zero => exact ⟨moves_zero _, advances_zero _⟩
      | succ b =>
          obtain ⟨hs, hd⟩ := ih (Nat.le_of_succ_le_succ hb)
          constructor
          · rw [statement]
            exact moves_statementWith hb hd hs
          · rw [declaration]
            exact (moves_declarationWith hb hd hs).recovering

theorem moves_topLevel {decl : Parser (Option Stmt)} (s : Nat) :
    ∀ {b}, b ≤ s → Advances b decl → ∀ before, Moves false b (topLevel decl s before) := by
  induction s with
  | zero =>
      intro b hb _ before
      obtain rfl : b = 0 := Nat.le_zero.mp hb
      exact moves_zero _
  | succ s ih =>
      intro b hb h before
      cases b with
      | zero => exact moves_zero _
      | succ b =>
          have hmore := ih (Nat.le_of_succ_le_succ hb) (h.mono (Nat.le_succ b))
          rw [topLevel]
          refine moves_test_bind (fun t => t.kind = .eof) fun t => ?_
          by_cases ht : t.kind = .eof
          · rw [if_pos (decide_eq_true ht)]
            exact (moves_pure _).on t
          · rw [if_neg (by simpa using ht)]
            refine (h.bind ht fun found => ?_).loosen
            cases found with
            | some s => exact hmore _
            | none => exact hmore _

theorem declaration_ne_stuck (s : Nat) (c d : Cursor) : declaration s c ≠ .stuck d := by
  cases s with
  | zero =>
      rw [declaration]
      exact nofun
  | succ s =>
      rw [declaration]
      unfold recovering
      split <;> exact nofun

/-- Recovery leaves nothing that could be stuck. -/
theorem topLevel_ne_stuck {decl : Parser (Option Stmt)} (h : ∀ c d, decl c ≠ .stuck d)
    (s : Nat) (before : List Stmt) (c d : Cursor) : topLevel decl s before c ≠ .stuck d := by
  induction s generalizing before c with
  | zero =>
      rw [topLevel]
      exact nofun
  | succ s ih =>
      rw [topLevel, bind_apply]
      dsimp only [isAt, bind_apply, peek, pure_apply]
      split
      · exact nofun
      · rw [bind_apply]
        cases hdecl : decl c with
        | exhausted => exact nofun
        | stuck e => exact absurd hdecl (h c e)
        | ok found e =>
            cases found with
            | some s => exact ih _ e
            | none => exact ih _ e

/-- The loop over the declarations of a module only ends where the tokens end. -/
theorem topLevel_at_end {decl : Parser (Option Stmt)} (s : Nat) {before body : List Stmt}
    {c d : Cursor} (h : topLevel decl s before c = .ok body d) :
    (d.rest.headD d.eof).kind = .eof := by
  induction s generalizing before c with
  | zero =>
      rw [topLevel] at h
      cases h
  | succ s ih =>
      rw [topLevel, bind_apply] at h
      dsimp only [isAt, bind_apply, peek, pure_apply] at h
      split at h
      next hend =>
        cases h
        simpa using hend
      next =>
        rw [bind_apply] at h
        cases hdecl : decl c with
        | exhausted => simp [hdecl] at h
        | stuck e => simp [hdecl] at h
        | ok found e =>
            rw [hdecl] at h
            cases found with
            | some s => exact ih h
            | none => exact ih h

/-- The declarations of a module are parsed up to the end of the tokens, as soon as the
bounds exceed their number. -/
theorem topLevel_eq_ok (heof : c.eof.kind = .eof) (hk : c.rest.length < k)
    (hs : c.rest.length < s) (before : List Stmt) :
    ∃ body d, topLevel (declaration k) s before c = .ok body d ∧ Shrinks c d ∧
      (d.rest.headD d.eof).kind = .eof := by
  have hd : Advances (c.rest.length + 1) (declaration k) :=
    (moves_statement_declaration k hk).2
  have hmoves := moves_topLevel s hs hd before c heof (Nat.lt_succ_self _)
  cases htop : topLevel (declaration k) s before c with
  | exhausted =>
      rw [htop] at hmoves
      exact hmoves.elim
  | stuck d => exact absurd htop (topLevel_ne_stuck (declaration_ne_stuck k) s before c d)
  | ok body d =>
      rw [htop] at hmoves
      exact ⟨body, d, rfl, hmoves.1, topLevel_at_end s htop⟩

/-- A whole module is parsed as soon as the bound exceeds the number of tokens. -/
theorem program_eq_ok (kind : ModuleKind) (heof : c.eof.kind = .eof)
    (hc : c.rest.length < s) : ∃ m d, program kind s c = .ok m d := by
  obtain ⟨body, d, htop, _, _⟩ := topLevel_eq_ok heof hc hc []
  unfold program
  rw [bind_apply]
  dsimp only [peek]
  rw [bind_apply, htop]
  exact ⟨_, d, rfl⟩

end LoxMachine.Parser
