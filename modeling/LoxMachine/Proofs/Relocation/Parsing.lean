import LoxMachine.Proofs.Parser.Bounds
import LoxMachine.Proofs.Relocation.Trees

/-!
# Parsing the same tokens with another past

What a parser does with the tokens to come does not depend on what it has done before:
behind a gap in the numbers, with other complaints already made, and with more steps left,
it takes the same way through the tokens.  It gives the same trees with their numbers
moved, and makes the same complaints.
-/

namespace LoxMachine

/-- What a second run has behind it when a first one comes to the same tokens: its numbers
are moved over a gap, and its complaints so far are those of `late` instead of `bag`. -/
structure Detour where
  gap : Gap
  bag : Bag
  late : Bag
  tokens : List Token

/-- How the numbers from here on are moved. -/
abbrev Detour.move (g : Detour) (i : Nat) : Nat :=
  g.gap.move i

namespace Bag

variable {b b' c c' : Bag}

/-- What `c` has that `b` had not is what `c'` has that `b'` had not. -/
def Parallel (b b' c c' : Bag) : Prop :=
  ∃ ds : List Diagnostic, c.items.toList = b.items.toList ++ ds ∧
    c'.items.toList = b'.items.toList ++ ds

theorem Parallel.refl (b b' : Bag) : Parallel b b' b b' :=
  ⟨[], by simp, by simp⟩

theorem Parallel.error (h : Parallel b b' c c') (range : Range) (message : Bytes) :
    Parallel b b' (c.error range message) (c'.error range message) := by
  obtain ⟨ds, hc, hc'⟩ := h
  exact ⟨ds ++ [⟨.error, range, message⟩], by simp [Bag.error, add, hc],
    by simp [Bag.error, add, hc']⟩

theorem Parallel.eq_iff (h : Parallel b b' c c') : c = b ↔ c' = b' := by
  obtain ⟨ds, hc, hc'⟩ := h
  constructor
  · rintro rfl
    have hnil : ds = [] := by simpa using hc
    rw [hnil, List.append_nil] at hc'
    exact ext_toList hc'
  · rintro rfl
    have hnil : ds = [] := by simpa using hc'
    rw [hnil, List.append_nil] at hc
    exact ext_toList hc

theorem Parallel.eq (h : Parallel b b c c') : c = c' := by
  obtain ⟨ds, hc, hc'⟩ := h
  exact ext_toList (hc.trans hc'.symm)

/-- Two bags that grow alike grow by as many complaints. -/
theorem Parallel.size (h : Parallel b b' c c') :
    c'.items.size + b.items.size = c.items.size + b'.items.size := by
  obtain ⟨ds, hc, hc'⟩ := h
  have hlen := congrArg List.length hc
  have hlen' := congrArg List.length hc'
  simp only [List.length_append, Array.length_toList] at hlen hlen'
  omega

theorem Parallel.grows (h : Parallel b b' c c') (hgrows : b.Grows c) : b'.Grows c' := by
  obtain ⟨ds, hc, hc'⟩ := h
  obtain ⟨es, hes, herrors⟩ := hgrows
  obtain rfl : ds = es := List.append_cancel_left (hc.symm.trans hes)
  exact ⟨ds, hc', herrors⟩

end Bag

namespace Parser

/-- The second cursor is where the first one is, after a detour. -/
structure Behind (g : Detour) (c c' : Cursor) : Prop where
  rest : c'.rest = c.rest
  eof : c'.eof = c.eof
  start : g.gap.start ≤ c.lastId + 1
  lastId : c'.lastId = c.lastId + g.gap.width
  bag : Bag.Parallel g.bag g.late c.bag c'.bag
  within : c.rest <:+ g.tokens
  ends : c.eof.kind = .eof

variable {α β γ δ : Type} {g : Detour}

/-- Outcomes that differ by the detour, where `σ` moves the numbers of a value. The first
run may be short of steps. -/
inductive Tracks (g : Detour) (σ : α → β) : Parsed α → Parsed β → Prop where
  | ok {a : α} {b : β} {next next' : Cursor} (hb : b = σ a) (h : Behind g next next') :
      Tracks g σ (.ok a next) (.ok b next')
  | stuck {next next' : Cursor} (h : Behind g next next') :
      Tracks g σ (.stuck next) (.stuck next')
  | exhausted {outcome : Parsed β} : Tracks g σ .exhausted outcome

/-- After the detour, the second parser does what the first does without it. -/
def Carries (g : Detour) (σ : α → β) (p : Parser α) (q : Parser β) : Prop :=
  ∀ c c', Behind g c c' → Tracks g σ (p c) (q c')

/-! ## Straight on -/

/-- No detour at all. -/
def straight (c : Cursor) (tokens : List Token) : Detour :=
  ⟨⟨c.lastId + 1, 0⟩, c.bag, c.bag, tokens⟩

section Straight

variable {c d d' : Cursor} {tokens : List Token}

theorem straight_move (c : Cursor) (tokens : List Token) : (straight c tokens).move = id := by
  funext i
  exact ite_self i

theorem behind_straight (hend : c.eof.kind = .eof) (h : c.rest <:+ tokens) :
    Behind (straight c tokens) c c :=
  ⟨rfl, rfl, Nat.le_refl _, rfl, Bag.Parallel.refl _ _, h, hend⟩

theorem Behind.eq (h : Behind (straight c tokens) d d') : d' = d := by
  obtain ⟨rest, eof, lastId, bag⟩ := d
  obtain ⟨rest', eof', lastId', bag'⟩ := d'
  obtain ⟨rfl, rfl, -, rfl, hbag, -, -⟩ := h
  obtain rfl : bag = bag' := hbag.eq
  rfl

/-- The second run ends as the first one does. -/
theorem Tracks.eq_ok {σ : α → α} {a : α} {outcome : Parsed α}
    (h : Tracks (straight c tokens) σ (.ok a d) outcome) (ha : σ a = a) :
    outcome = .ok a d := by
  cases h with
  | ok hb hbehind => rw [hb, ha, hbehind.eq]

/-- So it does if the first one gets stuck. -/
theorem Tracks.eq_of_ne_exhausted {σ : α → α} {outcome outcome' : Parsed α}
    (h : Tracks (straight c tokens) σ outcome outcome') (hσ : ∀ a, σ a = a)
    (hne : outcome ≠ .exhausted) : outcome' = outcome := by
  cases h with
  | ok hb hbehind => rw [hb, hσ, hbehind.eq]
  | stuck hbehind => rw [hbehind.eq]
  | exhausted => exact absurd rfl hne

end Straight

/-! ## Sequences and primitives -/

theorem carries_pure {σ : α → β} {a : α} {b : β} (h : b = σ a) :
    Carries g σ (pure a) (pure b) :=
  fun _ _ hc => .ok h hc

/-- What comes after two outcomes that differ by the detour. -/
theorem Tracks.bind {σ : α → γ} {τ : β → δ} {p : Parser α} {q : Parser γ} {f : α → Parser β}
    {f' : γ → Parser δ} {c c' : Cursor} (h : Tracks g σ (p c) (q c'))
    (hf : ∀ a, Carries g τ (f a) (f' (σ a))) : Tracks g τ ((p >>= f) c) ((q >>= f') c') := by
  rw [bind_apply, bind_apply]
  generalize p c = outcome at h ⊢
  generalize q c' = outcome' at h ⊢
  cases h with
  | ok hb hnext =>
      subst hb
      exact hf _ _ _ hnext
  | stuck hnext => exact .stuck hnext
  | exhausted => exact .exhausted

theorem Carries.bind {σ : α → γ} {τ : β → δ} {p : Parser α} {q : Parser γ} {f : α → Parser β}
    {f' : γ → Parser δ} (hp : Carries g σ p q) (hf : ∀ a, Carries g τ (f a) (f' (σ a))) :
    Carries g τ (p >>= f) (q >>= f') :=
  fun c c' hc => (hp c c' hc).bind hf

theorem carries_peek : Carries g (fun t => t) peek peek :=
  fun c c' hc => .ok (by rw [hc.rest, hc.eof]) hc

theorem carries_skip : Carries g (fun u => u) skip skip := by
  rintro ⟨rest, eof, lastId, bag⟩ ⟨rest', eof', lastId', bag'⟩ hc
  obtain rfl : rest' = rest := hc.rest
  cases rest' with
  | nil => exact .ok rfl hc
  | cons t rest =>
      simp only [skip]
      split
      · exact .ok rfl hc
      · exact .ok rfl { hc with rest := rfl, within := (List.suffix_cons _ _).trans hc.within }

theorem carries_nextId : Carries g g.move nextId nextId := by
  intro c c' hc
  have hmove : c'.lastId + 1 = g.move (c.lastId + 1) := by
    rw [Detour.move, Gap.move_of_le hc.start, hc.lastId]
    omega
  refine .ok hmove { hc with start := Nat.le_succ_of_le hc.start, lastId := ?_ }
  dsimp only
  rw [hc.lastId]
  omega

theorem carries_complain (range : Range) (complaint : Complaint) :
    Carries g (fun u => u) (complain range complaint) (complain range complaint) :=
  fun _ _ hc => .ok rfl { hc with bag := hc.bag.error range complaint.message }

theorem carries_giveUp {σ : α → β} : Carries g σ giveUp giveUp :=
  fun _ _ hc => .stuck hc

theorem carries_exhaust {σ : α → β} {q : Parser β} : Carries g σ exhaust q :=
  fun _ _ _ => .exhausted

theorem carries_accept? (kind : Kind) : Carries g (fun t => t) (accept? kind) (accept? kind) := by
  refine carries_peek.bind fun token => ?_
  split
  · exact carries_skip.bind fun _ => carries_pure rfl
  · exact carries_pure rfl

theorem carries_isAt (kind : Kind) : Carries g (fun b => b) (isAt kind) (isAt kind) :=
  carries_peek.bind fun _ => carries_pure rfl

theorem carries_expect (kind : Kind) (wanted : Bytes) :
    Carries g (fun t => t) (expect kind wanted) (expect kind wanted) := by
  refine carries_peek.bind fun token => ?_
  split
  · exact carries_skip.bind fun _ => carries_pure rfl
  · exact (carries_complain _ _).bind fun _ => carries_giveUp

theorem carries_expectName (wanted : Bytes) :
    Carries g (fun n => n) (expectName wanted) (expectName wanted) :=
  (carries_expect _ _).bind fun _ => carries_pure rfl

theorem Behind.synchronize {c c' : Cursor} (h : Behind g c c') :
    Behind g (synchronize c) (synchronize c') := by
  obtain ⟨rest, eof, lastId, bag⟩ := c
  obtain ⟨rest', eof', lastId', bag'⟩ := c'
  obtain rfl : rest' = rest := h.rest
  cases rest' with
  | nil => exact h
  | cons t rest =>
      have hresume : resume t.kind rest <:+ g.tokens :=
        (resume_suffix t.kind rest).trans ((List.suffix_cons _ _).trans h.within)
      simp only [Parser.synchronize]
      split
      · exact h
      · exact { h with rest := rfl, within := hresume }

theorem Tracks.recovering {σ : α → β} {p : Parser α} {q : Parser β} {c c' : Cursor}
    (h : Tracks g σ (p c) (q c')) :
    Tracks g (Option.map σ) (recovering p c) (recovering q c') := by
  unfold Parser.recovering
  generalize p c = outcome at h ⊢
  generalize q c' = outcome' at h ⊢
  cases h with
  | ok hb hnext =>
      subst hb
      exact .ok rfl hnext
  | stuck hnext => exact .ok rfl hnext.synchronize
  | exhausted => exact .exhausted

theorem Carries.recovering {σ : α → β} {p : Parser α} {q : Parser β} (h : Carries g σ p q) :
    Carries g (Option.map σ) (recovering p) (recovering q) :=
  fun c c' hc => (h c c' hc).recovering

/-! ## Expressions -/

/-- The numbers of an expression moved over the gap. -/
abbrev moveExpr (g : Detour) (e : Expr) : Expr :=
  e.renumber g.move

section Expressions

variable {operand operand' inner inner' : Parser Expr} {steps steps' : Nat}

theorem node_renumber (op : Operator) (left right : Expr) (f : Nat → Nat) :
    op.node (left.renumber f) (right.renumber f) = (op.node left right).renumber f := by
  cases op <;> simp only [Operator.node, Expr.renumber, Expr.span_renumber]

theorem carries_climb_extend (h : Carries g (moveExpr g) operand operand')
    (hle : steps ≤ steps') :
    (∀ level, Carries g (moveExpr g) (climb operand steps level)
        (climb operand' steps' level)) ∧
      ∀ level left, Carries g (moveExpr g) (extend operand steps level left)
        (extend operand' steps' level (moveExpr g left)) := by
  induction steps generalizing steps' with
  | zero => exact ⟨fun _ => carries_exhaust, fun _ _ => carries_exhaust⟩
  | succ steps ih =>
      obtain ⟨steps', rfl⟩ := Nat.exists_eq_succ_of_ne_zero (Nat.ne_zero_of_lt hle)
      obtain ⟨hclimb, hextend⟩ := ih (Nat.le_of_succ_le_succ hle)
      constructor
      · intro level
        exact h.bind fun left => hextend level left
      · intro level left
        refine carries_peek.bind fun token => ?_
        split
        · exact carries_pure rfl
        next op _ =>
          split
          · exact carries_pure rfl
          · refine carries_skip.bind fun _ => (hclimb _).bind fun right => ?_
            rw [moveExpr, moveExpr, node_renumber]
            exact hextend level _

theorem carries_numberLiteral (token : Token) :
    Carries g (moveExpr g) (numberLiteral token) (numberLiteral token) := by
  unfold numberLiteral
  split
  · exact carries_pure rfl
  · exact (carries_complain _ _).bind fun _ => carries_pure rfl

theorem carries_primary (h : Carries g (moveExpr g) inner inner') :
    Carries g (moveExpr g) (primary inner) (primary inner') := by
  refine carries_peek.bind fun token => ?_
  split
  · exact carries_skip.bind fun _ => carries_pure rfl
  · exact carries_skip.bind fun _ => carries_pure rfl
  · exact carries_skip.bind fun _ => carries_pure rfl
  · exact carries_skip.bind fun _ => carries_numberLiteral _
  · exact carries_skip.bind fun _ => carries_pure rfl
  · exact carries_skip.bind fun _ => (carries_expect _ _).bind fun _ =>
      (carries_expectName _).bind fun _ => carries_nextId.bind fun _ =>
        carries_nextId.bind fun _ => carries_pure rfl
  · exact carries_skip.bind fun _ => carries_nextId.bind fun _ => carries_pure rfl
  · exact carries_skip.bind fun _ => carries_nextId.bind fun _ => carries_pure rfl
  · exact carries_skip.bind fun _ => h.bind fun _ =>
      (carries_expect _ _).bind fun _ => carries_pure rfl
  · exact (carries_complain _ _).bind fun _ => carries_giveUp

theorem carries_arguments (h : Carries g (moveExpr g) inner inner') (hle : steps ≤ steps')
    (before : List Expr) :
    Carries g (List.map (moveExpr g)) (arguments inner steps before)
      (arguments inner' steps' (before.map (moveExpr g))) := by
  induction steps generalizing steps' before with
  | zero => exact carries_exhaust
  | succ steps ih =>
      obtain ⟨steps', rfl⟩ := Nat.exists_eq_succ_of_ne_zero (Nat.ne_zero_of_lt hle)
      refine h.bind fun e => (carries_accept? _).bind fun found => ?_
      cases found with
      | some _ => exact ih (Nat.le_of_succ_le_succ hle) (e :: before)
      | none => exact carries_pure (List.map_reverse (l := e :: before)).symm

/-- A list that is left out if a test says so, and what is done with it. -/
theorem carries_list {ε : Type} {σ : ε → ε} {τ : β → δ} {list list' : Parser (List ε)}
    {f : List ε → Parser β} {f' : List ε → Parser δ} (h : Carries g (List.map σ) list list')
    (hf : ∀ l, Carries g τ (f l) (f' (l.map σ))) (absent : Bool) :
    Carries g τ (if absent = true then (do let l ← pure []; f l) else do let l ← list; f l)
      (if absent = true then (do let l ← pure []; f' l) else do let l ← list'; f' l) := by
  cases absent with
  | true => exact hf []
  | false => exact h.bind hf

theorem carries_suffixes (h : Carries g (moveExpr g) inner inner') (hle : steps ≤ steps')
    (e : Expr) :
    Carries g (moveExpr g) (suffixes inner steps e) (suffixes inner' steps' (moveExpr g e)) := by
  induction steps generalizing steps' e with
  | zero => exact carries_exhaust
  | succ steps ih =>
      obtain ⟨steps', rfl⟩ := Nat.exists_eq_succ_of_ne_zero (Nat.ne_zero_of_lt hle)
      have hless := Nat.le_of_succ_le_succ hle
      refine carries_peek.bind fun token => ?_
      split
      · refine carries_skip.bind fun _ => (carries_isAt _).bind fun atEnd =>
          carries_list (carries_arguments h hless []) (fun args => ?_) atEnd
        refine (carries_expect _ _).bind fun close => ?_
        rw [Expr.span_renumber, ← Expr.renumberAll_eq_map]
        exact ih hless _
      · refine carries_skip.bind fun _ => (carries_expectName _).bind fun name => ?_
        rw [Expr.span_renumber]
        exact ih hless _
      · exact carries_pure rfl

theorem carries_unary (h : Carries g (moveExpr g) operand operand') (hle : steps ≤ steps') :
    Carries g (moveExpr g) (unary operand steps) (unary operand' steps') := by
  induction steps generalizing steps' with
  | zero => exact carries_exhaust
  | succ steps ih =>
      obtain ⟨steps', rfl⟩ := Nat.exists_eq_succ_of_ne_zero (Nat.ne_zero_of_lt hle)
      refine carries_peek.bind fun token => ?_
      split
      · exact h
      · refine carries_skip.bind fun _ => (ih (Nat.le_of_succ_le_succ hle)).bind fun e =>
          carries_pure ?_
        rw [Expr.span_renumber]
        rfl

theorem carries_operand (h : Carries g (moveExpr g) inner inner') (hle : steps ≤ steps') :
    Carries g (moveExpr g) (Parser.operand inner steps) (Parser.operand inner' steps') :=
  carries_unary ((carries_primary h).bind fun e => carries_suffixes h hle e) hle

theorem carries_assignTo (target value : Expr) (equals : Range) :
    Carries g (moveExpr g) (assignTo target value equals)
      (assignTo (moveExpr g target) (moveExpr g value) equals) := by
  unfold assignTo
  rw [Expr.span_renumber, Expr.span_renumber]
  cases target with
  | var id name => exact carries_nextId.bind fun _ => carries_pure rfl
  | get object name span => exact carries_pure rfl
  | _ => exact (carries_complain _ _).bind fun _ => carries_pure rfl

theorem carries_expression (hle : steps ≤ steps') :
    Carries g (moveExpr g) (expression steps) (expression steps') := by
  induction steps generalizing steps' with
  | zero => exact carries_exhaust
  | succ steps ih =>
      obtain ⟨steps', rfl⟩ := Nat.exists_eq_succ_of_ne_zero (Nat.ne_zero_of_lt hle)
      have hinner := ih (Nat.le_of_succ_le_succ hle)
      refine ((carries_climb_extend (carries_operand hinner hle) hle).1 _).bind fun target =>
        (carries_accept? _).bind fun found => ?_
      cases found with
      | none => exact carries_pure rfl
      | some equals => exact hinner.bind fun _ => carries_assignTo _ _ _

end Expressions

/-! ## Statements -/

/-- The numbers of a statement moved over the gap. -/
abbrev moveStmt (g : Detour) (s : Stmt) : Stmt :=
  s.renumber g.move

/-- The numbers of a function moved over the gap. -/
abbrev moveFunction (g : Detour) (f : Function) : Function :=
  f.renumber g.move

section Statements

variable {expr expr' : Parser Expr} {stmt stmt' : Parser Stmt}
  {decl decl' : Parser (Option Stmt)} {steps steps' : Nat}

/-- An expression that is left out if a test says so, and what is done with it. -/
theorem carries_optional {τ : β → δ} {f : Option Expr → Parser β} {f' : Option Expr → Parser δ}
    (h : Carries g (moveExpr g) expr expr')
    (hf : ∀ e, Carries g τ (f e) (f' (e.map (moveExpr g)))) (absent : Bool) :
    Carries g τ (if absent = true then (do let e ← pure none; f e)
        else do let e ← expr; let e ← pure (some e); f e)
      (if absent = true then (do let e ← pure none; f' e)
        else do let e ← expr'; let e ← pure (some e); f' e) := by
  cases absent with
  | true => exact hf none
  | false => exact h.bind fun e => hf (some e)

theorem carries_variableRest (h : Carries g (moveExpr g) expr expr') (start : Range) :
    Carries g (moveStmt g) (variableRest expr start) (variableRest expr' start) := by
  refine (carries_expectName _).bind fun name => (carries_accept? _).bind fun found => ?_
  cases found with
  | some _ =>
      refine h.bind fun e => ?_
      exact (carries_expect _ _).bind fun _ => carries_pure rfl
  | none => exact (carries_expect _ _).bind fun _ => carries_pure rfl

theorem carries_printRest (h : Carries g (moveExpr g) expr expr') (start : Range) :
    Carries g (moveStmt g) (printRest expr start) (printRest expr' start) :=
  h.bind fun _ => (carries_expect _ _).bind fun _ => carries_pure rfl

theorem assertion_renumber (e : Expr) (span : Range) (f : Nat → Nat) :
    assertion (e.renumber f) span = (assertion e span).renumber f := by
  cases e with
  | binary op left right opSpan => cases op <;> rfl
  | _ => rfl

theorem carries_assertRest (h : Carries g (moveExpr g) expr expr') (start : Range) :
    Carries g (moveStmt g) (assertRest expr start) (assertRest expr' start) :=
  h.bind fun _ => (carries_expect _ _).bind fun _ => carries_pure (assertion_renumber _ _ _)

theorem carries_returnRest (h : Carries g (moveExpr g) expr expr') (start : Range) :
    Carries g (moveStmt g) (returnRest expr start) (returnRest expr' start) := by
  refine (carries_isAt _).bind fun absent => carries_optional h (fun value => ?_) absent
  exact (carries_expect _ _).bind fun _ => carries_pure rfl

theorem carries_expressionStatement (h : Carries g (moveExpr g) expr expr') (wanted : Bytes) :
    Carries g (moveStmt g) (expressionStatement expr wanted)
      (expressionStatement expr' wanted) := by
  refine h.bind fun e => (carries_expect _ _).bind fun close => carries_pure ?_
  rw [Expr.span_renumber]
  rfl

theorem carries_condition (h : Carries g (moveExpr g) expr expr') :
    Carries g (moveExpr g) (condition expr) (condition expr') :=
  (carries_expect _ _).bind fun _ => h.bind fun _ => (carries_expect _ _).bind fun _ =>
    carries_pure rfl

theorem carries_ifRest (h : Carries g (moveExpr g) expr expr')
    (hs : Carries g (moveStmt g) stmt stmt') (start : Range) :
    Carries g (moveStmt g) (ifRest expr stmt start) (ifRest expr' stmt' start) := by
  refine (carries_condition h).bind fun test => hs.bind fun thenBranch =>
    (carries_accept? _).bind fun found => ?_
  cases found with
  | some _ =>
      refine hs.bind fun elseBranch => carries_pure ?_
      rw [Stmt.span_renumber]
      rfl
  | none =>
      apply carries_pure
      rw [Stmt.span_renumber]
      rfl

theorem carries_whileRest (h : Carries g (moveExpr g) expr expr')
    (hs : Carries g (moveStmt g) stmt stmt') (start : Range) :
    Carries g (moveStmt g) (whileRest expr stmt start) (whileRest expr' stmt' start) := by
  refine (carries_condition h).bind fun _ => hs.bind fun _ => carries_pure ?_
  rw [Stmt.span_renumber]
  rfl

theorem forLoop_renumber (init : Option Stmt) (test : Expr) (step : Option Expr) (body : Stmt)
    (span : Range) (f : Nat → Nat) :
    forLoop (init.map fun s => s.renumber f) (test.renumber f) (step.map fun e => e.renumber f)
        (body.renumber f) span = (forLoop init test step body span).renumber f := by
  cases init <;> cases step <;>
    simp only [forLoop, Option.map_none, Option.map_some, Stmt.renumber, Stmt.renumberAll,
      Expr.span_renumber, Stmt.span_renumber]

theorem getD_renumber (e : Option Expr) (value : Literal) (span : Range) (f : Nat → Nat) :
    (e.map (Expr.renumber f)).getD (.literal value span) =
      (e.getD (.literal value span)).renumber f := by
  cases e <;> rfl

theorem carries_forInit (h : Carries g (moveExpr g) expr expr') :
    Carries g (Option.map (moveStmt g)) (forInit expr) (forInit expr') := by
  refine carries_peek.bind fun token => ?_
  split
  · exact carries_skip.bind fun _ => carries_pure rfl
  · exact carries_skip.bind fun _ => (carries_variableRest h _).bind fun _ => carries_pure rfl
  · exact (carries_expressionStatement h _).bind fun _ => carries_pure rfl

theorem carries_forRest (h : Carries g (moveExpr g) expr expr')
    (hs : Carries g (moveStmt g) stmt stmt') (start : Range) :
    Carries g (moveStmt g) (forRest expr stmt start) (forRest expr' stmt' start) := by
  refine (carries_expect _ _).bind fun _ => (carries_forInit h).bind fun init =>
    (carries_isAt _).bind fun noTest => carries_optional h (fun test => ?_) noTest
  refine (carries_expect _ _).bind fun close =>
    (carries_isAt _).bind fun noStep => carries_optional h (fun step => ?_) noStep
  refine (carries_expect _ _).bind fun _ => hs.bind fun body => carries_pure ?_
  have htest := getD_renumber test (.bool true) close.range g.move
  rw [htest, Stmt.span_renumber]
  exact forLoop_renumber _ _ _ _ _ _

theorem carries_atBlockEnd : Carries g (fun b => b) atBlockEnd atBlockEnd :=
  carries_peek.bind fun _ => carries_pure rfl

theorem carries_declarations (h : Carries g (Option.map (moveStmt g)) decl decl')
    (hle : steps ≤ steps') (before : List Stmt) :
    Carries g (List.map (moveStmt g)) (declarations decl steps before)
      (declarations decl' steps' (before.map (moveStmt g))) := by
  induction steps generalizing steps' before with
  | zero => exact carries_exhaust
  | succ steps ih =>
      obtain ⟨steps', rfl⟩ := Nat.exists_eq_succ_of_ne_zero (Nat.ne_zero_of_lt hle)
      refine carries_atBlockEnd.bind fun atEnd => ?_
      split
      · exact carries_pure List.map_reverse.symm
      · refine h.bind fun found => ?_
        cases found with
        | some s => exact ih (Nat.le_of_succ_le_succ hle) (s :: before)
        | none => exact ih (Nat.le_of_succ_le_succ hle) before

theorem carries_blockRest (h : Carries g (Option.map (moveStmt g)) decl decl')
    (hle : steps ≤ steps') :
    Carries g (Prod.map (Stmt.renumberAll g.move) fun r => r) (blockRest decl steps)
      (blockRest decl' steps') := by
  refine (carries_declarations h hle []).bind fun body => (carries_expect _ _).bind fun _ =>
    carries_pure ?_
  rw [Prod.map_apply, Stmt.renumberAll_eq_map]

theorem carries_parameters (hle : steps ≤ steps') (before : List Name) :
    Carries g (List.map fun p => p) (parameters steps before) (parameters steps' before) := by
  induction steps generalizing steps' before with
  | zero => exact carries_exhaust
  | succ steps ih =>
      obtain ⟨steps', rfl⟩ := Nat.exists_eq_succ_of_ne_zero (Nat.ne_zero_of_lt hle)
      refine (carries_expectName _).bind fun name => (carries_accept? _).bind fun found => ?_
      cases found with
      | some _ => exact ih (Nat.le_of_succ_le_succ hle) _
      | none => exact carries_pure (List.map_id' _).symm

theorem carries_functionRest (h : Carries g (Option.map (moveStmt g)) decl decl')
    (hle : steps ≤ steps') (kind : FunctionKind) (start : Range) :
    Carries g (moveFunction g) (functionRest decl steps kind start)
      (functionRest decl' steps' kind start) := by
  refine (carries_expectName _).bind fun _ => (carries_expect _ _).bind fun _ =>
    (carries_isAt _).bind fun absent =>
      carries_list (carries_parameters hle []) (fun params => ?_) absent
  refine (carries_expect _ _).bind fun _ => (carries_expect _ _).bind fun _ =>
    (carries_blockRest h hle).bind fun found => carries_pure ?_
  rw [List.map_id']
  rfl

theorem carries_methods (h : Carries g (Option.map (moveStmt g)) decl decl')
    (hle : steps ≤ steps') (before : List Function) :
    Carries g (List.map (moveFunction g)) (methods decl steps before)
      (methods decl' steps' (before.map (moveFunction g))) := by
  induction steps generalizing steps' before with
  | zero => exact carries_exhaust
  | succ steps ih =>
      obtain ⟨steps', rfl⟩ := Nat.exists_eq_succ_of_ne_zero (Nat.ne_zero_of_lt hle)
      have hless := Nat.le_of_succ_le_succ hle
      refine carries_atBlockEnd.bind fun atEnd => ?_
      split
      · exact carries_pure List.map_reverse.symm
      · exact carries_peek.bind fun _ => (carries_functionRest h hless _ _).bind fun f =>
          ih hless (f :: before)

theorem carries_superclass? :
    Carries g (Option.map (Superclass.renumber g.move)) superclass? superclass? := by
  refine (carries_accept? _).bind fun found => ?_
  cases found with
  | none => exact carries_pure rfl
  | some _ => exact (carries_expectName _).bind fun _ => carries_nextId.bind fun _ =>
      carries_pure rfl

theorem carries_classRest (h : Carries g (Option.map (moveStmt g)) decl decl')
    (hle : steps ≤ steps') (start : Range) :
    Carries g (moveStmt g) (classRest decl steps start) (classRest decl' steps' start) := by
  refine (carries_expectName _).bind fun _ => carries_superclass?.bind fun _ =>
    (carries_expect _ _).bind fun _ => (carries_methods h hle []).bind fun _ =>
      (carries_expect _ _).bind fun _ => carries_pure ?_
  rw [moveStmt, Stmt.renumber, Function.renumberAll_eq_map]

theorem carries_statementWith (hd : Carries g (Option.map (moveStmt g)) decl decl')
    (hs : Carries g (moveStmt g) stmt stmt') (hle : steps ≤ steps') :
    Carries g (moveStmt g) (statementWith decl stmt steps)
      (statementWith decl' stmt' steps') := by
  have he := carries_expression (g := g) hle
  refine carries_peek.bind fun token => ?_
  split
  · exact carries_skip.bind fun _ => carries_forRest he hs _
  · exact carries_skip.bind fun _ => carries_ifRest he hs _
  · exact carries_skip.bind fun _ => carries_printRest he _
  · exact carries_skip.bind fun _ => carries_assertRest he _
  · exact carries_skip.bind fun _ => carries_whileRest he hs _
  · exact carries_skip.bind fun _ => carries_returnRest he _
  · exact carries_skip.bind fun _ => (carries_blockRest hd hle).bind fun _ => carries_pure rfl
  · exact carries_expressionStatement he _

theorem carries_declarationWith (hd : Carries g (Option.map (moveStmt g)) decl decl')
    (hs : Carries g (moveStmt g) stmt stmt') (hle : steps ≤ steps') :
    Carries g (moveStmt g) (declarationWith decl stmt steps)
      (declarationWith decl' stmt' steps') := by
  refine carries_peek.bind fun token => ?_
  split
  · exact carries_skip.bind fun _ => carries_classRest hd hle _
  · exact carries_skip.bind fun _ => (carries_functionRest hd hle _ _).bind fun _ =>
      carries_pure rfl
  · exact carries_skip.bind fun _ => carries_variableRest (carries_expression hle) _
  · exact carries_statementWith hd hs hle

theorem carries_statement_declaration (hle : steps ≤ steps') :
    Carries g (moveStmt g) (statement steps) (statement steps') ∧
      Carries g (Option.map (moveStmt g)) (declaration steps) (declaration steps') := by
  induction steps generalizing steps' with
  | zero => exact ⟨carries_exhaust, carries_exhaust⟩
  | succ steps ih =>
      obtain ⟨steps', rfl⟩ := Nat.exists_eq_succ_of_ne_zero (Nat.ne_zero_of_lt hle)
      obtain ⟨hs, hd⟩ := ih (Nat.le_of_succ_le_succ hle)
      exact ⟨carries_statementWith hd hs hle, (carries_declarationWith hd hs hle).recovering⟩

theorem moveStmt_straight (c : Cursor) (tokens : List Token) :
    moveStmt (straight c tokens) = id := by
  funext s
  rw [moveStmt, straight_move]
  exact Stmt.renumber_eq_self (Γ := []) s fun _ _ => rfl

theorem moveModule_straight (c : Cursor) (tokens : List Token) (m : Module) :
    m.renumber (straight c tokens).move = m := by
  have hbody : m.body.map (moveStmt (straight c tokens)) = m.body := by
    rw [moveStmt_straight, List.map_id]
  rw [Module.renumber, Stmt.renumberAll_eq_map, hbody]

/-- More steps do not change a declaration. -/
theorem declaration_more {c d : Cursor} {found : Option Stmt} (hend : c.eof.kind = .eof)
    (h : declaration steps c = .ok found d) (hle : steps ≤ steps') :
    declaration steps' c = .ok found d := by
  have htracks := (carries_statement_declaration hle).2 c c
    (behind_straight hend (List.suffix_refl c.rest))
  rw [h] at htracks
  refine htracks.eq_ok ?_
  rw [moveStmt_straight, Option.map_id]
  rfl

/-- The second run may come with more declarations behind it. -/
theorem carries_topLevel (h : Carries g (Option.map (moveStmt g)) decl decl')
    (hle : steps ≤ steps') (before more : List Stmt) :
    Carries g (fun body => more.reverse ++ body.map (moveStmt g)) (topLevel decl steps before)
      (topLevel decl' steps' (before.map (moveStmt g) ++ more)) := by
  induction steps generalizing steps' before with
  | zero => exact carries_exhaust
  | succ steps ih =>
      obtain ⟨steps', rfl⟩ := Nat.exists_eq_succ_of_ne_zero (Nat.ne_zero_of_lt hle)
      refine (carries_isAt _).bind fun atEnd => ?_
      split
      · refine carries_pure ?_
        rw [List.reverse_append, List.map_reverse]
      · refine h.bind fun found => ?_
        cases found with
        | some s => exact ih (Nat.le_of_succ_le_succ hle) (s :: before)
        | none => exact ih (Nat.le_of_succ_le_succ hle) before

end Statements

theorem carries_program (kind : ModuleKind) {steps steps' : Nat} (hle : steps ≤ steps') :
    Carries g (Module.renumber g.move) (program kind steps) (program kind steps') := by
  refine carries_peek.bind fun _ =>
    (carries_topLevel (carries_statement_declaration hle).2 hle [] []).bind fun _ =>
      carries_peek.bind fun _ => carries_pure ?_
  rw [Module.renumber, Stmt.renumberAll_eq_map]
  rfl

end Parser

end LoxMachine

namespace LoxMachine.Module

/-- A module that was read with its numbers behind a gap. -/
def Outcome.renumber (g : Gap) (parsed : Outcome) : Outcome :=
  ⟨parsed.module.renumber g.move, parsed.lastId + g.width, parsed.bag⟩

/-- Behind a gap, the same module is read with its numbers moved. -/
theorem parse_behind (g : Gap) (tokens : List Token) (kind : ModuleKind) {lastId : Nat}
    (hstart : g.start ≤ lastId + 1) (bag : Bag) :
    parse tokens kind (lastId + g.width) bag =
      (parse tokens kind lastId bag).map (Outcome.renumber g) := by
  unfold parse
  cases tokens.getLast? with
  | none => rfl
  | some eof =>
      dsimp only
      split
      next => rfl
      next =>
        have heof : eof.kind = .eof := not_not.mp ‹_›
        have htracks := Parser.carries_program (g := ⟨g, bag, bag, tokens.dropLast⟩) kind
          (Nat.le_refl (tokens.length + 1)) ⟨tokens.dropLast, eof, lastId, bag⟩
          ⟨tokens.dropLast, eof, lastId + g.width, bag⟩
          ⟨rfl, rfl, hstart, rfl, Bag.Parallel.refl bag bag, List.suffix_refl _, heof⟩
        have hlength : tokens.dropLast.length < tokens.length + 1 := by
          rw [List.length_dropLast]
          omega
        obtain ⟨m, d, hrun⟩ := Parser.program_eq_ok
          (c := ⟨tokens.dropLast, eof, lastId, bag⟩) kind heof hlength
        rw [hrun] at htracks ⊢
        generalize Parser.program kind (tokens.length + 1)
          ⟨tokens.dropLast, eof, lastId + g.width, bag⟩ = outcome at htracks ⊢
        cases htracks with
        | ok hm hd =>
            subst hm
            simp only [Except.map, Outcome.renumber, hd.lastId, hd.bag.eq]

end LoxMachine.Module
