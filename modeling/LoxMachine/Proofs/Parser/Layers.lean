import LoxMachine.Proofs.Grammar.Sequences

/-!
# One parser for each level of operators

Expressions can be parsed by descending through the levels of operators: the parser of a
level reads operands with that of the next tighter one, and goes on as long as one of its own
operators is ahead.  Climbing the levels comes to the same tree, or breaks off with the same
complaint, at the same token and with the same numbers given out.
-/

namespace LoxMachine.Parser

variable {α β : Type}

/-! ## Short of steps -/

/-- `outcome` is `outcome'` or came about for want of steps. -/
def Short (outcome outcome' : Parsed α) : Prop :=
  outcome = .exhausted ∨ outcome = outcome'

/-- `p` does what `q` does as far as its steps go. -/
def Shorter (p q : Parser α) : Prop :=
  ∀ c, Short (p c) (q c)

theorem Short.refl (outcome : Parsed α) : Short outcome outcome :=
  .inr rfl

theorem Short.trans {r r' r'' : Parsed α} (h : Short r r') (h' : Short r' r'') : Short r r'' := by
  rcases h with h | rfl
  · exact .inl h
  · exact h'

theorem Shorter.trans {p q r : Parser α} (h : Shorter p q) (h' : Shorter q r) : Shorter p r :=
  fun c => (h c).trans (h' c)

theorem shorter_exhaust (p : Parser α) : Shorter exhaust p :=
  fun _ => .inl rfl

theorem Short.bind {p q : Parser α} {f f' : α → Parser β} {c : Cursor} (h : Short (p c) (q c))
    (hf : ∀ a d, p c = .ok a d → Short (f a d) (f' a d)) :
    Short ((p >>= f) c) ((q >>= f') c) := by
  rw [bind_apply, bind_apply]
  rcases h with h | h
  · exact .inl (by rw [h])
  · rw [← h]
    cases hp : p c with
    | ok a d => exact hf a d hp
    | stuck d => exact .refl _
    | exhausted => exact .refl _

theorem Shorter.bind {p q : Parser α} {f f' : α → Parser β} (h : Shorter p q)
    (hf : ∀ a, Shorter (f a) (f' a)) : Shorter (p >>= f) (q >>= f') :=
  fun c => (h c).bind fun a d _ => hf a d

theorem bind_of_ok {p : Parser α} {a : α} {c d : Cursor} (h : p c = .ok a d)
    (f : α → Parser β) : (p >>= f) c = f a d := by
  rw [bind_apply, h]

theorem bind_congr {p q : Parser α} {c : Cursor} (h : p c = q c) (f : α → Parser β) :
    (p >>= f) c = (q >>= f) c := by
  rw [bind_apply, bind_apply, h]

theorem bind_assoc {γ : Type} (p : Parser α) (f : α → Parser β) (f' : β → Parser γ) :
    (p >>= f) >>= f' = p >>= fun a => f a >>= f' := by
  funext c
  simp only [bind_apply]
  cases p c <;> rfl

theorem Carries.longer {g : Detour} {σ : α → β} {p : Parser α} {q q' : Parser β}
    (h : Carries g σ p q) (hq : Shorter q q') : Carries g σ p q' := by
  intro c c' hc
  have htracks := h c c' hc
  rcases hq c' with hshort | hsame
  · rw [hshort] at htracks
    generalize p c = outcome at htracks ⊢
    cases htracks with
    | exhausted => exact .exhausted
  · rwa [← hsame]

/-! ## Climbing -/

variable {operand : Parser Expr} {steps steps' n : Nat} {left e : Expr} {c d : Cursor}
  {op : Operator}

theorem extend_of_stop (hstop : ¬ OperatorAhead c.eof c.rest n) :
    extend operand (steps + 1) n left c = .ok left c := by
  rw [extend, bind_apply]
  dsimp only [peek]
  cases hop : Operator.ofKind? (c.rest.headD c.eof).kind with
  | none => rfl
  | some op =>
      have hlt : op.level < n := Nat.lt_of_not_le fun hle => hstop ⟨op, hop, hle⟩
      simp only [if_pos hlt]
      rfl

theorem extend_of_operator (hop : Operator.ofKind? (c.rest.headD c.eof).kind = some op)
    (hle : n ≤ op.level) :
    extend operand (steps + 1) n left c =
      (do
        skip
        let right ← climb operand steps (op.level + 1)
        extend operand steps n (op.node left right)) c := by
  rw [extend, bind_apply]
  simp only [peek, hop, if_neg (Nat.not_lt_of_le hle)]

/-- Climbing only ends where no operator is left that it could take. -/
theorem extend_stops (h : extend operand steps n left c = .ok e d) :
    ¬ OperatorAhead d.eof d.rest n := by
  induction steps generalizing left c with
  | zero => cases h
  | succ steps ih =>
      by_cases hahead : OperatorAhead c.eof c.rest n
      · obtain ⟨op, hop, hle⟩ := hahead
        rw [extend_of_operator hop hle, bind_apply] at h
        split at h
        next b _ =>
          rw [bind_apply] at h
          split at h
          next right _ => exact ih h
          all_goals cases h
        all_goals cases h
      · rw [extend_of_stop hahead] at h
        cases h
        exact hahead

theorem climb_stops (h : climb operand steps n c = .ok e d) : ¬ OperatorAhead d.eof d.rest n := by
  cases steps with
  | zero => cases h
  | succ steps =>
      rw [climb, bind_apply] at h
      split at h
      next left _ => exact extend_stops h
      all_goals cases h

theorem shorter_climb_extend (hle : steps ≤ steps') :
    (∀ n, Shorter (climb operand steps n) (climb operand steps' n)) ∧
      ∀ n left, Shorter (extend operand steps n left) (extend operand steps' n left) := by
  induction steps generalizing steps' with
  | zero => exact ⟨fun _ => shorter_exhaust _, fun _ _ => shorter_exhaust _⟩
  | succ steps ih =>
      obtain ⟨steps', rfl⟩ := Nat.exists_eq_succ_of_ne_zero (Nat.ne_zero_of_lt hle)
      obtain ⟨hclimb, hextend⟩ := ih (Nat.le_of_succ_le_succ hle)
      refine ⟨fun n => Shorter.bind (fun _ => .refl _) fun left => hextend n left, ?_⟩
      intro n left c
      by_cases hahead : OperatorAhead c.eof c.rest n
      · obtain ⟨op, hop, hn⟩ := hahead
        rw [extend_of_operator hop hn, extend_of_operator hop hn]
        exact Short.bind (.refl _) fun _ d _ =>
          (hclimb _ d).bind fun right d' _ => hextend n (op.node left right) d'
      · rw [extend_of_stop hahead, extend_of_stop hahead]
        exact .refl _

end LoxMachine.Parser

namespace LoxMachine.Layers

open LoxMachine.Parser

/-! ## Levels -/

/-- The levels of operators between two operands, from the loosest to the tightest. -/
inductive Level where
  | disjunction
  | conjunction
  | equality
  | comparison
  | sum
  | product

/-- The operator of the level that a token of this kind stands for. -/
def Level.operator? : Level → Kind → Option Operator
  | .disjunction, .keyword .orWord => some (.logical .or)
  | .conjunction, .keyword .andWord => some (.logical .and)
  | .equality, .equalEqual => some (.binary .equal)
  | .equality, .bangEqual => some (.binary .notEqual)
  | .comparison, .less => some (.binary .less)
  | .comparison, .lessEqual => some (.binary .lessEqual)
  | .comparison, .greater => some (.binary .greater)
  | .comparison, .greaterEqual => some (.binary .greaterEqual)
  | .sum, .plus => some (.binary .add)
  | .sum, .minus => some (.binary .subtract)
  | .product, .star => some (.binary .multiply)
  | .product, .slash => some (.binary .divide)
  | _, _ => none

/-- The levels from the loosest at one to the tightest at six. -/
def Level.number : Level → Nat
  | .disjunction => 1
  | .conjunction => 2
  | .equality => 3
  | .comparison => 4
  | .sum => 5
  | .product => 6

/-! ## Parsers of the levels -/

/-- Extends `left` by an operator of the level and an operand that `tighter` reads, as long
as there is such an operator ahead. -/
def chain (level : Level) (tighter : Parser Expr) : (steps : Nat) → (left : Expr) → Parser Expr
  | 0, _ => exhaust
  | steps + 1, left => do
      match level.operator? (← peek).kind with
      | none => return left
      | some op =>
          skip
          let right ← tighter
          chain level tighter steps (op.node left right)

/-- Operands that `tighter` reads, with operators of the level between them. -/
def layer (level : Level) (tighter : Parser Expr) (steps : Nat) : Parser Expr := do
  let left ← tighter
  chain level tighter steps left

section

variable (operand : Parser Expr) (steps : Nat)

def product : Parser Expr := layer .product operand steps

def sum : Parser Expr := layer .sum (product operand steps) steps

def comparison : Parser Expr := layer .comparison (sum operand steps) steps

def equality : Parser Expr := layer .equality (comparison operand steps) steps

def conjunction : Parser Expr := layer .conjunction (equality operand steps) steps

def disjunction : Parser Expr := layer .disjunction (conjunction operand steps) steps

/-- The parser of a level, on top of those of all tighter ones. -/
def descend : Level → Parser Expr
  | .disjunction => disjunction operand steps
  | .conjunction => conjunction operand steps
  | .equality => equality operand steps
  | .comparison => comparison operand steps
  | .sum => sum operand steps
  | .product => product operand steps

end

/-- An expression nested at most `steps` deep, with the levels parsed one by one. -/
def expression : (steps : Nat) → Parser Expr
  | 0 => exhaust
  | steps + 1 => do
      let target ← disjunction (operand (expression steps) (steps + 1)) (steps + 1)
      match ← accept? .equal with
      | none => return target
      | some equals =>
          let value ← expression steps
          assignTo target value equals.range

/-! ## Chains -/

variable {operand tighter tighter' : Parser Expr} {steps steps' n : Nat} {level : Level}
  {left : Expr} {c : Cursor} {op : Operator}

theorem Level.operator?_eq_some_iff {kind : Kind} :
    level.operator? kind = some op ↔
      Operator.ofKind? kind = some op ∧ op.level = level.number := by
  constructor
  · intro h
    unfold Level.operator? at h
    split at h <;> cases h <;> exact ⟨rfl, rfl⟩
  · rintro ⟨hop, hlevel⟩
    unfold Operator.ofKind? at hop
    split at hop <;> cases hop <;> cases level <;> first | rfl | cases hlevel

theorem chain_of_other (hother : ∀ op, Operator.ofKind? (c.rest.headD c.eof).kind = some op →
    op.level ≠ level.number) : chain level tighter (steps + 1) left c = .ok left c := by
  rw [chain, bind_apply]
  dsimp only [peek]
  cases hop : level.operator? (c.rest.headD c.eof).kind with
  | none => rfl
  | some op =>
      obtain ⟨hkind, hlevel⟩ := Level.operator?_eq_some_iff.mp hop
      exact absurd hlevel (hother op hkind)

theorem chain_of_operator (hop : Operator.ofKind? (c.rest.headD c.eof).kind = some op)
    (hlevel : op.level = level.number) :
    chain level tighter (steps + 1) left c =
      (do
        skip
        let right ← tighter
        chain level tighter steps (op.node left right)) c := by
  rw [chain, bind_apply]
  simp only [peek, Level.operator?_eq_some_iff.mpr ⟨hop, hlevel⟩]

theorem shorter_chain (h : Shorter tighter tighter') (hle : steps ≤ steps') (left : Expr) :
    Shorter (chain level tighter steps left) (chain level tighter' steps' left) := by
  induction steps generalizing steps' left with
  | zero => exact shorter_exhaust _
  | succ steps ih =>
      obtain ⟨steps', rfl⟩ := Nat.exists_eq_succ_of_ne_zero (Nat.ne_zero_of_lt hle)
      refine Shorter.bind (fun _ => .refl _) fun token => ?_
      split
      · exact fun _ => .refl _
      next op _ =>
        exact Shorter.bind (fun _ => .refl _) fun _ => h.bind fun right =>
          ih (Nat.le_of_succ_le_succ hle) (op.node left right)

/-! ## Climbing and descending -/

/-- What climbing from a level on takes is first what it takes from the next tighter level on,
and then a chain of the level. -/
theorem shorter_extend_chain (steps : Nat) (left : Expr) :
    Shorter (extend operand steps level.number left) (do
      let e ← extend operand steps (level.number + 1) left
      chain level (climb operand steps (level.number + 1)) steps e) := by
  induction steps generalizing left with
  | zero => exact shorter_exhaust _
  | succ steps ih =>
      have hmore : Shorter (climb operand steps (level.number + 1))
          (climb operand (steps + 1) (level.number + 1)) :=
        (shorter_climb_extend (Nat.le_succ steps)).1 _
      intro c
      by_cases hahead : OperatorAhead c.eof c.rest level.number
      · obtain ⟨op, hop, hle⟩ := hahead
        rw [extend_of_operator hop hle]
        rcases Nat.eq_or_lt_of_le hle with hlevel | hlt
        · -- The operator is one of the level, and the tighter climb leaves it alone.
          have hstop : ¬ OperatorAhead c.eof c.rest (level.number + 1) := by
            rintro ⟨op', hop', hle'⟩
            obtain rfl := Option.some.inj (hop.symm.trans hop')
            omega
          rw [bind_of_ok (extend_of_stop hstop), chain_of_operator hop hlevel.symm, ← hlevel]
          refine Short.bind (.refl _) fun _ b _ => (hmore b).bind fun right d hright => ?_
          have hrest := ih (op.node left right) d
          cases steps with
          | zero => exact .inl rfl
          | succ steps =>
              rw [bind_of_ok (extend_of_stop (climb_stops hright))] at hrest
              exact hrest.trans (shorter_chain hmore (Nat.le_refl _) _ d)
        · -- The tighter climb takes the operator as well.
          rw [bind_congr (extend_of_operator hop hlt), bind_assoc]
          refine Short.bind (.refl _) fun _ b _ => ?_
          rw [bind_assoc]
          refine Short.bind (.refl _) fun right d _ => (ih _ d).trans ?_
          exact Short.bind (.refl _) fun e d' _ => shorter_chain hmore (Nat.le_succ _) e d'
      · have hstop : ¬ OperatorAhead c.eof c.rest (level.number + 1) :=
          fun ⟨op, hop, hle⟩ => hahead ⟨op, hop, Nat.le_of_succ_le hle⟩
        rw [extend_of_stop hahead, bind_of_ok (extend_of_stop hstop)]
        refine .inr (chain_of_other fun op hop hlevel => ?_).symm
        exact hahead ⟨op, hop, Nat.le_of_eq hlevel.symm⟩

/-- Climbing from a level on does what the parser of the level does on top of one that does what
climbing from the next tighter level on does. -/
theorem shorter_climb_layer (level : Level)
    (h : Shorter (climb operand steps (level.number + 1)) tighter) :
    Shorter (climb operand steps level.number) (layer level tighter steps) := by
  cases steps with
  | zero => exact shorter_exhaust _
  | succ steps =>
      have hmore : Shorter (climb operand steps (level.number + 1))
          (climb operand (steps + 1) (level.number + 1)) :=
        (shorter_climb_extend (Nat.le_succ steps)).1 _
      refine Shorter.trans ?_ (h.bind fun left => shorter_chain h (Nat.le_refl _) left)
      rw [climb, climb, bind_assoc]
      refine Shorter.bind (fun _ => .refl _) fun left => (shorter_extend_chain steps left).trans ?_
      exact Shorter.bind (fun _ => .refl _) fun e => shorter_chain hmore (Nat.le_succ _) e

/-- No operator is tighter than those of products. -/
theorem shorter_climb_operand (operand : Parser Expr) (steps : Nat) :
    Shorter (climb operand steps (Level.product.number + 1)) operand := by
  intro c
  cases steps with
  | zero => exact .inl rfl
  | succ steps =>
      rw [climb, bind_apply]
      cases operand c with
      | ok left d =>
          cases steps with
          | zero => exact .inl rfl
          | succ steps =>
              refine .inr (extend_of_stop ?_)
              rintro ⟨op, _, hle⟩
              exact Nat.not_le_of_lt hle (Grammar.operatorLevel_le op)
      | stuck d => exact .refl _
      | exhausted => exact .refl _

/-- Climbing from a level on does what the parser of the level does. -/
theorem shorter_climb_descend (operand : Parser Expr) (steps : Nat) (level : Level) :
    Shorter (climb operand steps level.number) (descend operand steps level) := by
  have hproduct := shorter_climb_layer .product (shorter_climb_operand operand steps)
  have hsum := shorter_climb_layer .sum hproduct
  have hcomparison := shorter_climb_layer .comparison hsum
  have hequality := shorter_climb_layer .equality hcomparison
  have hconjunction := shorter_climb_layer .conjunction hequality
  cases level with
  | disjunction => exact shorter_climb_layer .disjunction hconjunction
  | conjunction => exact hconjunction
  | equality => exact hequality
  | comparison => exact hcomparison
  | sum => exact hsum
  | product => exact hproduct

/-! ## Nested expressions -/

theorem carries_expression (g : Detour) (steps : Nat) :
    Carries g (moveExpr g) (Parser.expression steps) (expression steps) := by
  induction steps with
  | zero => exact carries_exhaust
  | succ steps ih =>
      have hclimb := (carries_climb_extend (carries_operand ih (Nat.le_refl (steps + 1)))
        (Nat.le_refl (steps + 1))).1 Level.disjunction.number
      refine (hclimb.longer (shorter_climb_descend _ _ .disjunction)).bind fun target =>
        (carries_accept? _).bind fun found => ?_
      cases found with
      | none => exact carries_pure rfl
      | some equals => exact ih.bind fun value => carries_assignTo _ _ _

/-- Wherever the steps exceed the tokens to come, climbing from a level on and descending from
it have the same outcome: the same tree or complaint, at the same place and with the same numbers
and complaints behind it. -/
theorem climb_eq_descend (hend : c.eof.kind = .eof) (hnested : c.rest.length ≤ n)
    (hsteps : c.rest.length < steps) (level : Level) :
    climb (Parser.operand (Parser.expression n) (n + 1)) steps level.number c =
        descend (Parser.operand (expression n) (n + 1)) steps level c ∧
      descend (Parser.operand (expression n) (n + 1)) steps level c ≠ .exhausted := by
  have hmoves : Moves true (c.rest.length + 1) (Parser.operand (Parser.expression n) (n + 1)) :=
    moves_operand (Nat.succ_le_succ hnested) (moves_expression n hnested)
  have hclimbs := (moves_climb_extend steps hsteps hmoves).1 level.number c hend
    (Nat.lt_succ_self _)
  have hne : climb (Parser.operand (Parser.expression n) (n + 1)) steps level.number c ≠
      .exhausted := by
    intro hexhausted
    rw [hexhausted] at hclimbs
    exact hclimbs
  have hcarries := (carries_climb_extend (carries_operand
    (carries_expression (straight c c.rest) n) (Nat.le_refl (n + 1)))
    (Nat.le_refl steps)).1 level.number
  have htracks := (hcarries.longer (shorter_climb_descend _ _ level)) c c
    (behind_straight hend (List.suffix_refl c.rest))
  have heq := htracks.eq_of_ne_exhausted (fun e => ?_) hne
  · exact ⟨heq.symm, heq ▸ hne⟩
  · rw [moveExpr, straight_move]
    exact e.renumber_eq_self (Γ := []) fun _ _ => rfl

/-- In front of an operand that is missing between parentheses. -/
def broken : Cursor :=
  ⟨Grammar.lexed (utf8 "a or 1 - 2 * (b and ) == c"), Grammar.mark .eof, 0, Bag.empty⟩

/-- The tokens from the closing parenthesis on are left when the missing operand is found. -/
theorem climb_eq_descend_broken :
    (broken.eof.kind = .eof ∧ broken.rest.length = 12) ∧
      (∀ level : Level,
        climb (Parser.operand (Parser.expression 12) 13) 13 level.number broken =
          descend (Parser.operand (expression 12) 13) 13 level broken) ∧
      ∃ d, descend (Parser.operand (expression 12) 13) 13 .disjunction broken = .stuck d ∧
        d.rest.length = 3 ∧ d.lastId = 2 ∧ d.bag.items.size = 1 := by
  have hlength : broken.rest.length = 12 := by decide +kernel
  have hsteps : broken.rest.length < 13 := Nat.lt_of_le_of_lt (Nat.le_of_eq hlength) (by decide)
  have hsame := fun level : Level =>
    (climb_eq_descend rfl (Nat.le_of_eq hlength) hsteps level).1
  refine ⟨⟨rfl, hlength⟩, hsame, ?_⟩
  rw [← hsame .disjunction]
  have hstuck : (match climb (Parser.operand (Parser.expression 12) 13) 13 1 broken with
      | .stuck d => some (d.rest.length, d.lastId, d.bag.items.size)
      | _ => none) = some (3, 2, 1) := by
    decide +kernel
  split at hstuck
  next d hd =>
    simp only [Option.some.injEq, Prod.mk.injEq] at hstuck
    exact ⟨d, hd, hstuck⟩
  next => cases hstuck

end LoxMachine.Layers
