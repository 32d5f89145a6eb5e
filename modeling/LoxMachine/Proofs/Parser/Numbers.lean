import LoxMachine.Proofs.Parser.Acceptance
import LoxMachine.Tree.Statement
import Mathlib.Data.List.Perm.Subperm

/-!
# The numbers parsers give out

Whatever is wrong with a text, the nodes that end up in its tree have different numbers,
all of them given out while the text was parsed.  A number may be lost with a node that is
given up or replaced, but none is used twice.
-/

namespace LoxMachine

/-! ## The numbers in a tree -/

mutual

/-- The numbers of the nodes of an expression that refer to variables. -/
def Expr.ids : Expr → List Nat
  | .literal _ _ => []
  | .var id _ => [id]
  | .assign id _ value _ => value.ids ++ [id]
  | .unary _ operand _ => operand.ids
  | .binary _ left right _ => left.ids ++ right.ids
  | .logical _ left right _ => left.ids ++ right.ids
  | .group inner _ => inner.ids
  | .call callee args _ => callee.ids ++ Expr.allIds args
  | .get object _ _ => object.ids
  | .set object _ value _ => object.ids ++ value.ids
  | .this id _ => [id]
  | .super id thisId _ _ _ => [id, thisId]

def Expr.allIds : List Expr → List Nat
  | [] => []
  | e :: rest => e.ids ++ Expr.allIds rest

end

/-- The numbers of something that may be missing. -/
def optionIds {α : Type} (ids : α → List Nat) (a : Option α) : List Nat :=
  a.elim [] ids

mutual

/-- The numbers of the nodes of a statement that refer to variables. -/
def Stmt.ids : Stmt → List Nat
  | .expr value _ => value.ids
  | .print value _ => value.ids
  | .assert value _ => value.ids
  | .assertEqual left right _ => left.ids ++ right.ids
  | .var _ init _ => optionIds Expr.ids init
  | .block body _ => Stmt.allIds body
  | .cond test thenBranch none _ => test.ids ++ thenBranch.ids
  | .cond test thenBranch (some elseBranch) _ => test.ids ++ (thenBranch.ids ++ elseBranch.ids)
  | .loop test body _ => test.ids ++ body.ids
  | .ret _ value _ => optionIds Expr.ids value
  | .function decl => decl.ids
  | .classDecl _ superclass methods _ =>
      optionIds (fun parent => [parent.id]) superclass ++ Function.allIds methods

def Stmt.allIds : List Stmt → List Nat
  | [] => []
  | s :: rest => s.ids ++ Stmt.allIds rest

def Function.ids : Function → List Nat
  | .mk _ _ _ body _ => Stmt.allIds body

def Function.allIds : List Function → List Nat
  | [] => []
  | f :: rest => f.ids ++ Function.allIds rest

end

/-- The numbers of the nodes of a module that refer to variables. -/
def Module.ids (m : Module) : List Nat :=
  Stmt.allIds m.body

theorem Expr.allIds_eq (es : List Expr) : allIds es = es.flatMap ids := by
  induction es with
  | nil => rfl
  | cons e es ih => rw [allIds, ih, List.flatMap_cons]

theorem Stmt.allIds_eq (body : List Stmt) : allIds body = body.flatMap ids := by
  induction body with
  | nil => rfl
  | cons s body ih => rw [allIds, ih, List.flatMap_cons]

theorem Function.allIds_eq (fs : List Function) : allIds fs = fs.flatMap ids := by
  induction fs with
  | nil => rfl
  | cons f fs ih => rw [allIds, ih, List.flatMap_cons]

/-! ## Fresh numbers -/

/-- The numbers are different, after `n` and up to `m`. -/
structure Fresh (n : Nat) (ids : List Nat) (m : Nat) : Prop where
  le : n ≤ m
  nodup : ids.Nodup
  range : ∀ id ∈ ids, n < id ∧ id ≤ m

variable {n m k : Nat} {a b : List Nat}

theorem fresh_nil (h : n ≤ m) : Fresh n [] m :=
  ⟨h, List.nodup_nil, nofun⟩

theorem Fresh.append (ha : Fresh n a m) (hb : Fresh m b k) : Fresh n (a ++ b) k where
  le := Nat.le_trans ha.le hb.le
  nodup := by
    rw [List.nodup_append]
    refine ⟨ha.nodup, hb.nodup, ?_⟩
    rintro i hi j hj rfl
    exact absurd (hb.range i hj).1 (Nat.not_lt_of_le (ha.range i hi).2)
  range id hid := by
    rcases List.mem_append.mp hid with hid | hid
    · exact ⟨(ha.range id hid).1, Nat.le_trans (ha.range id hid).2 hb.le⟩
    · exact ⟨Nat.lt_of_le_of_lt ha.le (hb.range id hid).1, (hb.range id hid).2⟩

/-- Numbers may be lost, and the others may come in another order. -/
theorem Fresh.subperm (ha : Fresh n a m) (h : b.Subperm a) : Fresh n b m where
  le := ha.le
  nodup := by
    obtain ⟨l, hperm, hsub⟩ := h
    exact hperm.nodup_iff.mp (hsub.nodup ha.nodup)
  range id hid := ha.range id (h.subset hid)

theorem Fresh.mono (ha : Fresh n a m) (h : m ≤ k) : Fresh n a k where
  le := Nat.le_trans ha.le h
  nodup := ha.nodup
  range id hid := ⟨(ha.range id hid).1, Nat.le_trans (ha.range id hid).2 h⟩

namespace Parser

/-! ## Parsers that give out numbers -/

variable {α β : Type} {held : List Nat} {ids : α → List Nat} {later : β → List Nat}

/-- From `n` on, the numbers of what was parsed are fresh, if those held before were. -/
def SpendsFrom (n lastId : Nat) (ids : α → List Nat) : Parsed α → Prop
  | .ok a next => lastId ≤ next.lastId ∧ Fresh n (ids a) next.lastId
  | .stuck next => lastId ≤ next.lastId
  | .exhausted => True

/-- The parser makes the numbers of its value from those that are held and from new ones. -/
def Spends (held : List Nat) (ids : α → List Nat) (p : Parser α) : Prop :=
  ∀ n c, Fresh n held c.lastId → SpendsFrom n c.lastId ids (p c)

/-- The parser gives out no number. -/
def Still (p : Parser α) : Prop :=
  ∀ c, match p c with
    | .ok _ next => next.lastId = c.lastId
    | .stuck next => next.lastId = c.lastId
    | .exhausted => True

theorem spends_pure {x : α} (h : (ids x).Subperm held) : Spends held ids (pure x) :=
  fun _ _ hheld => ⟨Nat.le_refl _, hheld.subperm h⟩

/-- A parser may lose some of what is held. -/
theorem Spends.subperm {more : List Nat} {p : Parser α} (hp : Spends held ids p)
    (h : held.Subperm more) : Spends more ids p :=
  fun n c hmore => hp n c (hmore.subperm h)

theorem Spends.bind {p : Parser α} {f : α → Parser β} (hp : Spends held ids p)
    (hf : ∀ x, Spends (ids x) later (f x)) : Spends held later (p >>= f) := by
  intro n c hheld
  have hc := hp n c hheld
  rw [bind_apply]
  cases hpc : p c with
  | exhausted => trivial
  | stuck next =>
      rw [hpc] at hc
      exact hc
  | ok x next =>
      rw [hpc] at hc
      have hnext := hf x n next hc.2
      dsimp only
      cases hfx : f x next with
      | exhausted => trivial
      | stuck last =>
          rw [hfx] at hnext
          exact Nat.le_trans hc.1 hnext
      | ok y last =>
          rw [hfx] at hnext
          exact ⟨Nat.le_trans hc.1 hnext.1, hnext.2⟩

/-- What is held stays apart from what a parser gives out on its own. -/
theorem Spends.beside {p : Parser α} (hp : Spends [] ids p) (held : List Nat) :
    Spends held (fun x => held ++ ids x) p := by
  intro n c hheld
  have hc := hp c.lastId c (fresh_nil (Nat.le_refl _))
  cases hpc : p c with
  | exhausted => trivial
  | stuck next =>
      rw [hpc] at hc
      exact hc
  | ok x next =>
      rw [hpc] at hc
      exact ⟨hc.1, hheld.append hc.2⟩

/-- A parser of its own, and then one that holds its numbers as well. -/
theorem Spends.next {p : Parser α} {f : α → Parser β} (hp : Spends [] ids p)
    (hf : ∀ x, Spends (held ++ ids x) later (f x)) : Spends held later (p >>= f) :=
  (hp.beside held).bind hf

theorem Still.spends {p : Parser α} (hp : Still p) : Spends held (fun _ => held) p := by
  intro n c hheld
  have hc := hp c
  cases hpc : p c with
  | exhausted => trivial
  | stuck next =>
      rw [hpc] at hc
      exact Nat.le_of_eq hc.symm
  | ok x next =>
      rw [hpc] at hc
      exact ⟨Nat.le_of_eq hc.symm, hheld.mono (Nat.le_of_eq hc.symm)⟩

/-- After a parser that gives out no number the same numbers are held. -/
theorem Still.next {p : Parser α} {f : α → Parser β} (hp : Still p)
    (hf : ∀ x, Spends held later (f x)) : Spends held later (p >>= f) :=
  hp.spends.bind hf

theorem Still.bind {p : Parser α} {f : α → Parser β} (hp : Still p) (hf : ∀ x, Still (f x)) :
    Still (p >>= f) := by
  intro c
  have hc := hp c
  rw [bind_apply]
  cases hpc : p c with
  | exhausted => trivial
  | stuck next =>
      rw [hpc] at hc
      exact hc
  | ok x next =>
      rw [hpc] at hc
      have hnext := hf x next
      dsimp only
      cases hfx : f x next with
      | exhausted => trivial
      | stuck last =>
          rw [hfx] at hnext
          exact hnext.trans hc
      | ok y last =>
          rw [hfx] at hnext
          exact hnext.trans hc

/-! ## The smallest parsers -/

theorem still_pure (x : α) : Still (pure x : Parser α) :=
  fun _ => rfl

theorem still_peek : Still peek :=
  fun _ => rfl

theorem still_skip : Still skip := by
  intro c
  obtain ⟨rest, eof, lastId, bag⟩ := c
  cases rest with
  | nil => rfl
  | cons t rest =>
      by_cases ht : t.kind = .eof
      · simp only [skip, if_pos ht]
      · simp only [skip, if_neg ht]

theorem still_complain (range : Range) (complaint : Complaint) : Still (complain range complaint) :=
  fun _ => rfl

theorem still_giveUp : Still (giveUp : Parser α) :=
  fun _ => rfl

theorem still_accept? (kind : Kind) : Still (accept? kind) := by
  refine still_peek.bind fun token => ?_
  split
  · exact still_skip.bind fun _ => still_pure _
  · exact still_pure _

theorem still_isAt (kind : Kind) : Still (isAt kind) :=
  still_peek.bind fun _ => still_pure _

theorem still_expect (kind : Kind) (wanted : Bytes) : Still (expect kind wanted) := by
  refine still_peek.bind fun token => ?_
  split
  · exact still_skip.bind fun _ => still_pure _
  · exact (still_complain _ _).bind fun _ => still_giveUp

theorem still_expectName (wanted : Bytes) : Still (expectName wanted) :=
  (still_expect _ _).bind fun _ => still_pure _

theorem spends_exhaust : Spends held ids (exhaust : Parser α) :=
  fun _ _ _ => trivial

theorem spends_refuse (range : Range) (complaint : Complaint) :
    Spends held ids (do complain range complaint; giveUp : Parser α) :=
  (still_complain _ _).next fun _ => fun _ _ _ => Nat.le_refl _

theorem spends_nextId : Spends [] (fun id => [id]) nextId := by
  intro n c hheld
  refine ⟨Nat.le_succ _, Nat.le_succ_of_le hheld.le, by simp, ?_⟩
  intro id hid
  rw [List.mem_singleton.mp hid]
  exact ⟨Nat.lt_succ_of_le hheld.le, Nat.le_refl _⟩

theorem lastId_synchronize (c : Cursor) : (synchronize c).lastId = c.lastId := by
  unfold synchronize
  split
  · rfl
  · split <;> rfl

theorem Spends.recovering {p : Parser α} (hp : Spends [] ids p) :
    Spends [] (optionIds ids) (recovering p) := by
  intro n c hheld
  have hc := hp n c hheld
  unfold Parser.recovering
  cases hpc : p c with
  | exhausted => trivial
  | stuck next =>
      rw [hpc] at hc
      have hle : c.lastId ≤ (synchronize next).lastId := (lastId_synchronize next).symm ▸ hc
      exact ⟨hle, fresh_nil (Nat.le_trans hheld.le hle)⟩
  | ok x next =>
      rw [hpc] at hc
      exact hc

/-! ## Expressions -/

section Expressions

variable {operand inner : Parser Expr}

theorem node_ids (op : Operator) (left right : Expr) :
    (op.node left right).ids = left.ids ++ right.ids := by
  cases op <;> rfl

theorem spends_climb_extend (h : Spends [] Expr.ids operand) (steps : Nat) :
    (∀ level, Spends [] Expr.ids (climb operand steps level)) ∧
      ∀ level left, Spends left.ids Expr.ids (extend operand steps level left) := by
  induction steps with
  | zero => exact ⟨fun _ => spends_exhaust, fun _ _ => spends_exhaust⟩
  | succ steps ih =>
      obtain ⟨hclimb, hextend⟩ := ih
      constructor
      · intro level
        exact h.bind fun left => hextend level left
      · intro level left
        refine still_peek.next fun token => ?_
        split
        · exact spends_pure (List.Subperm.refl _)
        next op _ =>
          split
          · exact spends_pure (List.Subperm.refl _)
          · refine still_skip.next fun _ => (hclimb _).next fun right => ?_
            rw [← node_ids]
            exact hextend level _

theorem spends_numberLiteral (token : Token) : Spends [] Expr.ids (numberLiteral token) := by
  unfold numberLiteral
  split
  · exact spends_pure (List.Subperm.refl _)
  · exact (still_complain _ _).next fun _ => spends_pure (List.Subperm.refl _)

theorem spends_primary (h : Spends [] Expr.ids inner) : Spends [] Expr.ids (primary inner) := by
  refine still_peek.next fun token => ?_
  split
  · exact still_skip.next fun _ => spends_pure (List.Subperm.refl _)
  · exact still_skip.next fun _ => spends_pure (List.Subperm.refl _)
  · exact still_skip.next fun _ => spends_pure (List.Subperm.refl _)
  · exact still_skip.next fun _ => spends_numberLiteral _
  · exact still_skip.next fun _ => spends_pure (List.Subperm.refl _)
  · exact still_skip.next fun _ => (still_expect _ _).next fun _ =>
      (still_expectName _).next fun _ => spends_nextId.next fun _ =>
        spends_nextId.next fun _ => spends_pure (List.Subperm.refl _)
  · exact still_skip.next fun _ => spends_nextId.bind fun _ => spends_pure (List.Subperm.refl _)
  · exact still_skip.next fun _ => spends_nextId.bind fun _ => spends_pure (List.Subperm.refl _)
  · exact still_skip.next fun _ => h.bind fun _ =>
      (still_expect _ _).next fun _ => spends_pure (List.Subperm.refl _)
  · exact spends_refuse _ _

theorem exprIds_reverse (es : List Expr) : (Expr.allIds es.reverse).Perm (Expr.allIds es) := by
  rw [Expr.allIds_eq, Expr.allIds_eq]
  exact es.reverse_perm.flatMap_right Expr.ids

theorem spends_arguments (h : Spends [] Expr.ids inner) (steps : Nat) (before : List Expr) :
    Spends (Expr.allIds before) Expr.allIds (arguments inner steps before) := by
  induction steps generalizing before with
  | zero => exact spends_exhaust
  | succ steps ih =>
      refine h.next fun e => (still_accept? _).next fun found => ?_
      have hperm : (Expr.allIds (e :: before)).Perm (Expr.allIds before ++ e.ids) :=
        List.perm_append_comm
      cases found with
      | some _ => exact (ih (e :: before)).subperm hperm.subperm
      | none => exact spends_pure ((exprIds_reverse (e :: before)).trans hperm).subperm

/-- A list that is left out if a test says so, and what is done with it. -/
theorem spends_list {γ : Type} {held : List Nat} {listIds : List γ → List Nat}
    {list : Parser (List γ)} {f : List γ → Parser β} (hnil : listIds [] = [])
    (h : Spends [] listIds list) (hf : ∀ l, Spends (held ++ listIds l) later (f l))
    (absent : Bool) :
    Spends held later
      (if absent = true then (do let l ← pure []; f l) else do let l ← list; f l) := by
  cases absent with
  | true =>
      have hempty := hf []
      rw [hnil, List.append_nil] at hempty
      exact hempty
  | false => exact h.next hf

theorem spends_suffixes (h : Spends [] Expr.ids inner) (steps : Nat) (e : Expr) :
    Spends e.ids Expr.ids (suffixes inner steps e) := by
  induction steps generalizing e with
  | zero => exact spends_exhaust
  | succ steps ih =>
      refine still_peek.next fun token => ?_
      split
      · exact still_skip.next fun _ => (still_isAt _).next fun atEnd =>
          spends_list rfl (spends_arguments h steps [])
            (fun args => (still_expect _ _).next fun _ => ih (.call e args _)) atEnd
      · exact still_skip.next fun _ => (still_expectName _).next fun name =>
          ih (.get e name _)
      · exact spends_pure (List.Subperm.refl _)

theorem spends_unary (h : Spends [] Expr.ids operand) (steps : Nat) :
    Spends [] Expr.ids (unary operand steps) := by
  induction steps with
  | zero => exact spends_exhaust
  | succ steps ih =>
      refine still_peek.next fun token => ?_
      split
      · exact h
      · exact still_skip.next fun _ => ih.bind fun _ => spends_pure (List.Subperm.refl _)

theorem spends_operand (h : Spends [] Expr.ids inner) (steps : Nat) :
    Spends [] Expr.ids (Parser.operand inner steps) :=
  spends_unary ((spends_primary h).bind fun e => spends_suffixes h steps e) steps

/-- The number of a variable that is assigned to is lost, and so is the value of an
assignment to anything that is no target. -/
theorem spends_assignTo (target value : Expr) (equals : Range) :
    Spends (target.ids ++ value.ids) Expr.ids (assignTo target value equals) := by
  unfold assignTo
  split
  · refine spends_nextId.next fun id => spends_pure ?_
    exact ((List.sublist_append_right _ _).append_right [id]).subperm
  · exact spends_pure (List.Subperm.refl _)
  · exact (still_complain _ _).next fun _ =>
      spends_pure (List.sublist_append_left _ _).subperm

theorem spends_expression (steps : Nat) : Spends [] Expr.ids (expression steps) := by
  induction steps with
  | zero => exact spends_exhaust
  | succ steps ih =>
      refine ((spends_climb_extend (spends_operand ih _) _).1 _).bind fun target =>
        (still_accept? _).next fun found => ?_
      cases found with
      | none => exact spends_pure (List.Subperm.refl _)
      | some equals => exact ih.next fun _ => spends_assignTo _ _ _

end Expressions

/-! ## Statements -/

section Statements

variable {expr : Parser Expr} {stmt : Parser Stmt} {decl : Parser (Option Stmt)}

/-- An expression that is left out if a test says so, and what is done with it. -/
theorem spends_optional {held : List Nat} {f : Option Expr → Parser β}
    (h : Spends [] Expr.ids expr)
    (hf : ∀ e, Spends (held ++ optionIds Expr.ids e) later (f e)) (absent : Bool) :
    Spends held later (if absent = true then (do let e ← pure none; f e)
      else do let e ← expr; let e ← pure (some e); f e) := by
  cases absent with
  | true =>
      have hempty : Spends (held ++ []) later (f none) := hf none
      rw [List.append_nil] at hempty
      exact hempty
  | false => exact h.next fun e => hf (some e)

theorem spends_variableRest (h : Spends [] Expr.ids expr) (start : Range) :
    Spends [] Stmt.ids (variableRest expr start) := by
  refine (still_expectName _).next fun name => (still_accept? _).next fun found => ?_
  cases found with
  | some _ =>
      refine h.bind fun e => ?_
      exact (still_expect _ _).next fun _ => spends_pure (List.Subperm.refl _)
  | none => exact (still_expect _ _).next fun _ => spends_pure (List.Subperm.refl _)

theorem spends_printRest (h : Spends [] Expr.ids expr) (start : Range) :
    Spends [] Stmt.ids (printRest expr start) :=
  h.bind fun _ => (still_expect _ _).next fun _ => spends_pure (List.Subperm.refl _)

theorem assertion_ids (e : Expr) (span : Range) : (assertion e span).ids = e.ids := by
  unfold assertion
  split <;> rfl

theorem spends_assertRest (h : Spends [] Expr.ids expr) (start : Range) :
    Spends [] Stmt.ids (assertRest expr start) :=
  h.bind fun _ => (still_expect _ _).next fun _ =>
    spends_pure (assertion_ids _ _ ▸ List.Subperm.refl _)

theorem spends_returnRest (h : Spends [] Expr.ids expr) (start : Range) :
    Spends [] Stmt.ids (returnRest expr start) := by
  refine (still_isAt _).next fun absent => spends_optional h (fun value => ?_) absent
  exact (still_expect _ _).next fun _ => spends_pure (List.Subperm.refl _)

theorem spends_expressionStatement (h : Spends [] Expr.ids expr) (wanted : Bytes) :
    Spends [] Stmt.ids (expressionStatement expr wanted) :=
  h.bind fun _ => (still_expect _ _).next fun _ => spends_pure (List.Subperm.refl _)

theorem spends_condition (h : Spends [] Expr.ids expr) : Spends [] Expr.ids (condition expr) :=
  (still_expect _ _).next fun _ => h.bind fun _ => (still_expect _ _).next fun _ =>
    spends_pure (List.Subperm.refl _)

theorem spends_ifRest (h : Spends [] Expr.ids expr) (hs : Spends [] Stmt.ids stmt)
    (start : Range) : Spends [] Stmt.ids (ifRest expr stmt start) := by
  refine (spends_condition h).bind fun test => hs.next fun thenBranch =>
    (still_accept? _).next fun found => ?_
  cases found with
  | some _ =>
      refine hs.next fun elseBranch => spends_pure ?_
      rw [List.append_assoc]
      exact List.Subperm.refl _
  | none => exact spends_pure (List.Subperm.refl _)

theorem spends_whileRest (h : Spends [] Expr.ids expr) (hs : Spends [] Stmt.ids stmt)
    (start : Range) : Spends [] Stmt.ids (whileRest expr stmt start) :=
  (spends_condition h).bind fun _ => hs.next fun _ => spends_pure (List.Subperm.refl _)

theorem spends_forInit (h : Spends [] Expr.ids expr) :
    Spends [] (optionIds Stmt.ids) (forInit expr) := by
  refine still_peek.next fun token => ?_
  split
  · exact still_skip.next fun _ => spends_pure (List.Subperm.refl _)
  · exact still_skip.next fun _ => (spends_variableRest h _).bind fun _ =>
      spends_pure (List.Subperm.refl _)
  · exact (spends_expressionStatement h _).bind fun _ => spends_pure (List.Subperm.refl _)

/-- The step stands behind the body, although it is read before it. -/
theorem forLoop_ids (init : Option Stmt) (test : Expr) (step : Option Expr) (body : Stmt)
    (span : Range) :
    (forLoop init test step body span).ids.Perm
      (optionIds Stmt.ids init ++ test.ids ++ optionIds Expr.ids step ++ body.ids) := by
  have hbody : (test.ids ++ (body.ids ++ optionIds Expr.ids step)).Perm
      (test.ids ++ optionIds Expr.ids step ++ body.ids) := by
    rw [List.append_assoc]
    exact List.perm_append_comm.append_left _
  have hloop : (forLoop none test step body span).ids =
      test.ids ++ (body.ids ++ optionIds Expr.ids step) := by
    cases step <;> simp [forLoop, Stmt.ids, Stmt.allIds, optionIds]
  cases init with
  | none => exact hloop ▸ hbody
  | some first =>
      have hblock : (forLoop (some first) test step body span).ids =
          first.ids ++ (forLoop none test step body span).ids := by
        cases step <;> simp [forLoop, Stmt.ids, Stmt.allIds]
      rw [hblock, hloop, List.append_assoc (optionIds _ _), List.append_assoc (optionIds _ _)]
      exact hbody.append_left _

theorem getD_ids (test : Option Expr) (value : Literal) (span : Range) :
    (test.getD (.literal value span)).ids = optionIds Expr.ids test := by
  cases test <;> rfl

theorem spends_forRest (h : Spends [] Expr.ids expr) (hs : Spends [] Stmt.ids stmt)
    (start : Range) : Spends [] Stmt.ids (forRest expr stmt start) :=
  (still_expect _ _).next fun _ => (spends_forInit h).bind fun init =>
    (still_isAt _).next fun noTest => spends_optional h (fun test =>
      (still_expect _ _).next fun close => (still_isAt _).next fun noStep =>
        spends_optional h (fun step => (still_expect _ _).next fun _ =>
          hs.next fun body => spends_pure
            (getD_ids test _ close.range ▸ (forLoop_ids init _ step body _).subperm)) noStep) noTest

theorem stmtIds_reverse (body : List Stmt) :
    (Stmt.allIds body.reverse).Perm (Stmt.allIds body) := by
  rw [Stmt.allIds_eq, Stmt.allIds_eq]
  exact body.reverse_perm.flatMap_right Stmt.ids

theorem still_atBlockEnd : Still atBlockEnd :=
  still_peek.bind fun _ => still_pure _

theorem spends_declarations (h : Spends [] (optionIds Stmt.ids) decl) (steps : Nat)
    (before : List Stmt) :
    Spends (Stmt.allIds before) Stmt.allIds (declarations decl steps before) := by
  induction steps generalizing before with
  | zero => exact spends_exhaust
  | succ steps ih =>
      refine still_atBlockEnd.next fun atEnd => ?_
      split
      · exact spends_pure (stmtIds_reverse before).subperm
      · refine h.next fun found => ?_
        cases found with
        | some s => exact (ih (s :: before)).subperm List.perm_append_comm.subperm
        | none => exact (ih before).subperm (List.sublist_append_left _ _).subperm

theorem spends_blockRest (h : Spends [] (optionIds Stmt.ids) decl) (steps : Nat) :
    Spends [] (fun found : List Stmt × Range => Stmt.allIds found.1) (blockRest decl steps) :=
  (spends_declarations h steps []).bind fun _ => (still_expect _ _).next fun _ =>
    spends_pure (List.Subperm.refl _)

theorem still_parameters (steps : Nat) (before : List Name) : Still (parameters steps before) := by
  induction steps generalizing before with
  | zero => exact fun _ => trivial
  | succ steps ih =>
      refine (still_expectName _).bind fun name => (still_accept? _).bind fun found => ?_
      cases found with
      | some _ => exact ih _
      | none => exact still_pure _

theorem spends_functionRest (h : Spends [] (optionIds Stmt.ids) decl) (steps : Nat)
    (kind : FunctionKind) (start : Range) :
    Spends [] Function.ids (functionRest decl steps kind start) := by
  refine (still_expectName _).next fun name => (still_expect _ _).next fun _ =>
    (still_isAt _).next fun absent =>
      spends_list rfl (still_parameters steps []).spends (fun params => ?_) absent
  exact (still_expect _ _).next fun _ => (still_expect _ _).next fun _ =>
    (spends_blockRest h steps).bind fun _ => spends_pure (List.Subperm.refl _)

theorem functionIds_reverse (fs : List Function) :
    (Function.allIds fs.reverse).Perm (Function.allIds fs) := by
  rw [Function.allIds_eq, Function.allIds_eq]
  exact fs.reverse_perm.flatMap_right Function.ids

theorem spends_methods (h : Spends [] (optionIds Stmt.ids) decl) (steps : Nat)
    (before : List Function) :
    Spends (Function.allIds before) Function.allIds (methods decl steps before) := by
  induction steps generalizing before with
  | zero => exact spends_exhaust
  | succ steps ih =>
      refine still_atBlockEnd.next fun atEnd => ?_
      split
      · exact spends_pure (functionIds_reverse before).subperm
      · exact still_peek.next fun _ => (spends_functionRest h _ _ _).next fun f =>
          (ih (f :: before)).subperm List.perm_append_comm.subperm

theorem spends_superclass? :
    Spends [] (optionIds fun parent : Superclass => [parent.id]) superclass? := by
  refine (still_accept? _).next fun found => ?_
  cases found with
  | none => exact spends_pure (List.Subperm.refl _)
  | some _ => exact (still_expectName _).next fun _ => spends_nextId.bind fun _ =>
      spends_pure (List.Subperm.refl _)

theorem spends_classRest (h : Spends [] (optionIds Stmt.ids) decl) (steps : Nat)
    (start : Range) : Spends [] Stmt.ids (classRest decl steps start) :=
  (still_expectName _).next fun _ => spends_superclass?.bind fun _ =>
    (still_expect _ _).next fun _ => (spends_methods h steps []).next fun _ =>
      (still_expect _ _).next fun _ => spends_pure (List.Subperm.refl _)

theorem spends_statementWith (hd : Spends [] (optionIds Stmt.ids) decl)
    (hs : Spends [] Stmt.ids stmt) (steps : Nat) :
    Spends [] Stmt.ids (statementWith decl stmt steps) := by
  have he := spends_expression steps
  refine still_peek.next fun token => ?_
  split
  · exact still_skip.next fun _ => spends_forRest he hs _
  · exact still_skip.next fun _ => spends_ifRest he hs _
  · exact still_skip.next fun _ => spends_printRest he _
  · exact still_skip.next fun _ => spends_assertRest he _
  · exact still_skip.next fun _ => spends_whileRest he hs _
  · exact still_skip.next fun _ => spends_returnRest he _
  · exact still_skip.next fun _ => (spends_blockRest hd steps).bind fun _ =>
      spends_pure (List.Subperm.refl _)
  · exact spends_expressionStatement he _

theorem spends_declarationWith (hd : Spends [] (optionIds Stmt.ids) decl)
    (hs : Spends [] Stmt.ids stmt) (steps : Nat) :
    Spends [] Stmt.ids (declarationWith decl stmt steps) := by
  refine still_peek.next fun token => ?_
  split
  · exact still_skip.next fun _ => spends_classRest hd steps _
  · exact still_skip.next fun _ => (spends_functionRest hd steps _ _).bind fun _ =>
      spends_pure (List.Subperm.refl _)
  · exact still_skip.next fun _ => spends_variableRest (spends_expression steps) _
  · exact spends_statementWith hd hs steps

theorem spends_statement_declaration (steps : Nat) :
    Spends [] Stmt.ids (statement steps) ∧
      Spends [] (optionIds Stmt.ids) (declaration steps) := by
  induction steps with
  | zero => exact ⟨spends_exhaust, spends_exhaust⟩
  | succ steps ih =>
      obtain ⟨hs, hd⟩ := ih
      exact ⟨spends_statementWith hd hs _, (spends_declarationWith hd hs _).recovering⟩

theorem spends_topLevel (h : Spends [] (optionIds Stmt.ids) decl) (steps : Nat)
    (before : List Stmt) :
    Spends (Stmt.allIds before) Stmt.allIds (topLevel decl steps before) := by
  induction steps generalizing before with
  | zero => exact spends_exhaust
  | succ steps ih =>
      refine (still_isAt _).next fun atEnd => ?_
      split
      · exact spends_pure (stmtIds_reverse before).subperm
      · refine h.next fun found => ?_
        cases found with
        | some s => exact (ih (s :: before)).subperm List.perm_append_comm.subperm
        | none => exact (ih before).subperm (List.sublist_append_left _ _).subperm

end Statements

theorem spends_program (kind : ModuleKind) (steps : Nat) :
    Spends [] Module.ids (program kind steps) :=
  still_peek.next fun _ => (spends_topLevel (spends_statement_declaration steps).2 steps []).bind
    fun _ => still_peek.next fun _ => spends_pure (List.Subperm.refl _)

end Parser

/-- The nodes of a parsed module have different numbers, all of them new, whatever
complaints there are. -/
theorem Module.fresh_of_parse {tokens : List Token} {kind : ModuleKind} {lastId : Nat} {bag : Bag}
    {outcome : Outcome} (h : parse tokens kind lastId bag = .ok outcome) :
    Fresh lastId outcome.module.ids outcome.lastId := by
  unfold parse at h
  split at h
  next => cases h
  next eof _ =>
    split at h
    · cases h
    · have hspends := Parser.spends_program kind (tokens.length + 1) lastId
        ⟨tokens.dropLast, eof, lastId, bag⟩ (fresh_nil (Nat.le_refl _))
      split at h
      next m c hrun =>
        cases h
        rw [hrun] at hspends
        exact hspends.2
      next => cases h
      next => cases h

end LoxMachine
