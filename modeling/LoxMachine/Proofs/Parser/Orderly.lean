import LoxMachine.Proofs.Parser.Acceptance
import LoxMachine.Tree.Statement

/-!
# All parsers are orderly

One statement for each parser of expressions, statements and modules, in the order
in which they are built from one another.
-/

namespace LoxMachine.Parser

/-! ## Expressions -/

section Expressions

variable {operand inner : Parser Expr}

theorem orderly_climb_extend (h : Orderly operand) (steps : Nat) :
    (∀ level, Orderly (climb operand steps level)) ∧
      ∀ level left, Orderly (extend operand steps level left) := by
  induction steps with
  | zero => exact ⟨fun _ => orderly_exhaust, fun _ _ => orderly_exhaust⟩
  | succ steps ih =>
      obtain ⟨hclimb, hextend⟩ := ih
      constructor
      · intro level
        exact h.bind fun left => hextend level left
      · intro level left
        refine orderly_peek.bind fun token => ?_
        split
        · exact orderly_pure _
        next op _ =>
          split
          · exact orderly_pure _
          · exact orderly_skip.bind fun _ => (hclimb _).bind fun _ => hextend _ _

theorem orderly_numberLiteral (token : Token) : Orderly (numberLiteral token) := by
  unfold numberLiteral
  split
  · exact orderly_pure _
  · exact (orderly_complain _ _).bind fun _ => orderly_pure _

theorem orderly_primary (h : Orderly inner) : Orderly (primary inner) := by
  refine orderly_peek.bind fun token => ?_
  split
  · exact orderly_skip.bind fun _ => orderly_pure _
  · exact orderly_skip.bind fun _ => orderly_pure _
  · exact orderly_skip.bind fun _ => orderly_pure _
  · exact orderly_skip.bind fun _ => orderly_numberLiteral _
  · exact orderly_skip.bind fun _ => orderly_pure _
  · exact orderly_skip.bind fun _ => (orderly_expect _ _).bind fun _ =>
      (orderly_expectName _).bind fun _ => orderly_nextId.bind fun _ =>
        orderly_nextId.bind fun _ => orderly_pure _
  · exact orderly_skip.bind fun _ => orderly_nextId.bind fun _ => orderly_pure _
  · exact orderly_skip.bind fun _ => orderly_nextId.bind fun _ => orderly_pure _
  · exact orderly_skip.bind fun _ => h.bind fun _ =>
      (orderly_expect _ _).bind fun _ => orderly_pure _
  · exact orderly_refuse _ _

theorem orderly_arguments (h : Orderly inner) (steps : Nat) (before : List Expr) :
    Orderly (arguments inner steps before) := by
  induction steps generalizing before with
  | zero => exact orderly_exhaust
  | succ steps ih =>
      refine h.bind fun e => (orderly_accept? _).bind fun found => ?_
      cases found with
      | some _ => exact ih _
      | none => exact orderly_pure _

/-- A list that is left out if a test says so, and what is done with it. -/
theorem orderly_list {α β : Type} {some' : Parser (List α)} {f : List α → Parser β}
    (h : Orderly some') (hf : ∀ l, Orderly (f l)) (absent : Bool) :
    Orderly (if absent = true then (do let l ← pure []; f l) else do let l ← some'; f l) := by
  cases absent with
  | true => exact (orderly_pure _).bind hf
  | false => exact h.bind hf

theorem orderly_suffixes (h : Orderly inner) (steps : Nat) (e : Expr) :
    Orderly (suffixes inner steps e) := by
  induction steps generalizing e with
  | zero => exact orderly_exhaust
  | succ steps ih =>
      refine orderly_peek.bind fun token => ?_
      split
      · exact orderly_skip.bind fun _ => (orderly_isAt _).bind fun atEnd =>
          orderly_list (orderly_arguments h steps [])
            (fun _ => (orderly_expect _ _).bind fun _ => ih _) atEnd
      · exact orderly_skip.bind fun _ => (orderly_expectName _).bind fun _ => ih _
      · exact orderly_pure _

theorem orderly_unary (h : Orderly operand) (steps : Nat) : Orderly (unary operand steps) := by
  induction steps with
  | zero => exact orderly_exhaust
  | succ steps ih =>
      refine orderly_peek.bind fun token => ?_
      split
      · exact h
      · exact orderly_skip.bind fun _ => ih.bind fun _ => orderly_pure _

theorem orderly_operand (h : Orderly inner) (steps : Nat) : Orderly (Parser.operand inner steps) :=
  orderly_unary ((orderly_primary h).bind fun e => orderly_suffixes h steps e) steps

theorem orderly_assignTo (target value : Expr) (equals : Range) :
    Orderly (assignTo target value equals) := by
  unfold assignTo
  split
  · exact orderly_nextId.bind fun _ => orderly_pure _
  · exact orderly_pure _
  · exact (orderly_complain _ _).bind fun _ => orderly_pure _

theorem orderly_expression (steps : Nat) : Orderly (expression steps) := by
  induction steps with
  | zero => exact orderly_exhaust
  | succ steps ih =>
      refine ((orderly_climb_extend (orderly_operand ih _) _).1 _).bind fun target =>
        (orderly_accept? _).bind fun found => ?_
      cases found with
      | none => exact orderly_pure _
      | some equals => exact ih.bind fun _ => orderly_assignTo _ _ _

end Expressions

/-! ## Statements -/

section Statements

variable {expr : Parser Expr} {stmt : Parser Stmt} {decl : Parser (Option Stmt)}

/-- An expression that is left out if a test says so, and what is done with it. -/
theorem orderly_optional {β : Type} {f : Option Expr → Parser β} (h : Orderly expr)
    (hf : ∀ e, Orderly (f e)) (absent : Bool) :
    Orderly (if absent = true then (do let e ← pure none; f e)
      else do let e ← expr; let e ← pure (some e); f e) := by
  cases absent with
  | true => exact (orderly_pure _).bind hf
  | false => exact h.bind fun _ => (orderly_pure _).bind hf

theorem orderly_variableRest (h : Orderly expr) (start : Range) :
    Orderly (variableRest expr start) := by
  refine (orderly_expectName _).bind fun name => (orderly_accept? _).bind fun found => ?_
  cases found with
  | some _ => exact h.bind fun _ => (orderly_pure _).bind fun _ =>
      (orderly_expect _ _).bind fun _ => orderly_pure _
  | none => exact (orderly_pure _).bind fun _ => (orderly_expect _ _).bind fun _ =>
      orderly_pure _

theorem orderly_printRest (h : Orderly expr) (start : Range) : Orderly (printRest expr start) :=
  h.bind fun _ => (orderly_expect _ _).bind fun _ => orderly_pure _

theorem orderly_assertRest (h : Orderly expr) (start : Range) :
    Orderly (assertRest expr start) :=
  h.bind fun _ => (orderly_expect _ _).bind fun _ => orderly_pure _

theorem orderly_returnRest (h : Orderly expr) (start : Range) :
    Orderly (returnRest expr start) :=
  (orderly_isAt _).bind fun absent => orderly_optional h
    (fun _ => (orderly_expect _ _).bind fun _ => orderly_pure _) absent

theorem orderly_expressionStatement (h : Orderly expr) (wanted : Bytes) :
    Orderly (expressionStatement expr wanted) :=
  h.bind fun _ => (orderly_expect _ _).bind fun _ => orderly_pure _

theorem orderly_condition (h : Orderly expr) : Orderly (condition expr) :=
  (orderly_expect _ _).bind fun _ => h.bind fun _ => (orderly_expect _ _).bind fun _ =>
    orderly_pure _

theorem orderly_ifRest (h : Orderly expr) (hs : Orderly stmt) (start : Range) :
    Orderly (ifRest expr stmt start) := by
  refine (orderly_condition h).bind fun test => hs.bind fun thenBranch =>
    (orderly_accept? _).bind fun found => ?_
  cases found with
  | some _ => exact hs.bind fun _ => orderly_pure _
  | none => exact orderly_pure _

theorem orderly_whileRest (h : Orderly expr) (hs : Orderly stmt) (start : Range) :
    Orderly (whileRest expr stmt start) :=
  (orderly_condition h).bind fun _ => hs.bind fun _ => orderly_pure _

theorem orderly_forInit (h : Orderly expr) : Orderly (forInit expr) := by
  refine orderly_peek.bind fun token => ?_
  split
  · exact orderly_skip.bind fun _ => orderly_pure _
  · exact orderly_skip.bind fun _ => (orderly_variableRest h _).bind fun _ => orderly_pure _
  · exact (orderly_expressionStatement h _).bind fun _ => orderly_pure _

theorem orderly_forRest (h : Orderly expr) (hs : Orderly stmt) (start : Range) :
    Orderly (forRest expr stmt start) :=
  (orderly_expect _ _).bind fun _ => (orderly_forInit h).bind fun _ =>
    (orderly_isAt _).bind fun noTest => orderly_optional h (fun _ =>
      (orderly_expect _ _).bind fun _ => (orderly_isAt _).bind fun noStep =>
        orderly_optional h (fun _ => (orderly_expect _ _).bind fun _ =>
          hs.bind fun _ => orderly_pure _) noStep) noTest

theorem orderly_atBlockEnd : Orderly atBlockEnd :=
  orderly_peek.bind fun _ => orderly_pure _

theorem orderly_declarations (h : Orderly decl) (steps : Nat) (before : List Stmt) :
    Orderly (declarations decl steps before) := by
  induction steps generalizing before with
  | zero => exact orderly_exhaust
  | succ steps ih =>
      refine orderly_atBlockEnd.bind fun atEnd => ?_
      split
      · exact orderly_pure _
      · refine h.bind fun found => ?_
        cases found with
        | some s => exact ih _
        | none => exact ih _

theorem orderly_blockRest (h : Orderly decl) (steps : Nat) : Orderly (blockRest decl steps) :=
  (orderly_declarations h steps []).bind fun _ => (orderly_expect _ _).bind fun _ =>
    orderly_pure _

theorem orderly_parameters (steps : Nat) (before : List Name) :
    Orderly (parameters steps before) := by
  induction steps generalizing before with
  | zero => exact orderly_exhaust
  | succ steps ih =>
      refine (orderly_expectName _).bind fun name => (orderly_accept? _).bind fun found => ?_
      cases found with
      | some _ => exact ih _
      | none => exact orderly_pure _

theorem orderly_functionRest (h : Orderly decl) (steps : Nat) (kind : FunctionKind)
    (start : Range) : Orderly (functionRest decl steps kind start) :=
  (orderly_expectName _).bind fun _ => (orderly_expect _ _).bind fun _ =>
    (orderly_isAt _).bind fun absent => orderly_list (orderly_parameters steps []) (fun _ =>
      (orderly_expect _ _).bind fun _ => (orderly_expect _ _).bind fun _ =>
        (orderly_blockRest h steps).bind fun _ => orderly_pure _) absent

theorem orderly_methods (h : Orderly decl) (steps : Nat) (before : List Function) :
    Orderly (methods decl steps before) := by
  induction steps generalizing before with
  | zero => exact orderly_exhaust
  | succ steps ih =>
      refine orderly_atBlockEnd.bind fun atEnd => ?_
      split
      · exact orderly_pure _
      · exact orderly_peek.bind fun _ => (orderly_functionRest h _ _ _).bind fun _ => ih _

theorem orderly_superclass? : Orderly superclass? := by
  refine (orderly_accept? _).bind fun found => ?_
  cases found with
  | none => exact orderly_pure _
  | some _ => exact (orderly_expectName _).bind fun _ => orderly_nextId.bind fun _ =>
      orderly_pure _

theorem orderly_classRest (h : Orderly decl) (steps : Nat) (start : Range) :
    Orderly (classRest decl steps start) :=
  (orderly_expectName _).bind fun _ => orderly_superclass?.bind fun _ =>
    (orderly_expect _ _).bind fun _ => (orderly_methods h steps []).bind fun _ =>
      (orderly_expect _ _).bind fun _ => orderly_pure _

theorem orderly_statementWith (hd : Orderly decl) (hs : Orderly stmt) (steps : Nat) :
    Orderly (statementWith decl stmt steps) := by
  have he := orderly_expression steps
  refine orderly_peek.bind fun token => ?_
  split
  · exact orderly_skip.bind fun _ => orderly_forRest he hs _
  · exact orderly_skip.bind fun _ => orderly_ifRest he hs _
  · exact orderly_skip.bind fun _ => orderly_printRest he _
  · exact orderly_skip.bind fun _ => orderly_assertRest he _
  · exact orderly_skip.bind fun _ => orderly_whileRest he hs _
  · exact orderly_skip.bind fun _ => orderly_returnRest he _
  · exact orderly_skip.bind fun _ => (orderly_blockRest hd steps).bind fun _ => orderly_pure _
  · exact orderly_expressionStatement he _

theorem orderly_declarationWith (hd : Orderly decl) (hs : Orderly stmt) (steps : Nat) :
    Orderly (declarationWith decl stmt steps) := by
  refine orderly_peek.bind fun token => ?_
  split
  · exact orderly_skip.bind fun _ => orderly_classRest hd steps _
  · exact orderly_skip.bind fun _ => (orderly_functionRest hd steps _ _).bind fun _ =>
      orderly_pure _
  · exact orderly_skip.bind fun _ => orderly_variableRest (orderly_expression steps) _
  · exact orderly_statementWith hd hs steps

theorem orderly_statement_declaration (steps : Nat) :
    Orderly (statement steps) ∧ Orderly (declaration steps) := by
  induction steps with
  | zero => exact ⟨orderly_exhaust, orderly_exhaust⟩
  | succ steps ih =>
      obtain ⟨hs, hd⟩ := ih
      exact ⟨orderly_statementWith hd hs _, (orderly_declarationWith hd hs _).recovering⟩

theorem orderly_topLevel (h : Orderly decl) (steps : Nat) (before : List Stmt) :
    Orderly (topLevel decl steps before) := by
  induction steps generalizing before with
  | zero => exact orderly_exhaust
  | succ steps ih =>
      refine (orderly_isAt _).bind fun atEnd => ?_
      split
      · exact orderly_pure _
      · refine h.bind fun found => ?_
        cases found with
        | some s => exact ih _
        | none => exact ih _

end Statements

theorem orderly_program (kind : ModuleKind) (steps : Nat) : Orderly (program kind steps) :=
  orderly_peek.bind fun _ =>
    (orderly_topLevel (orderly_statement_declaration steps).2 steps []).bind fun _ =>
      orderly_peek.bind fun _ => orderly_pure _

end LoxMachine.Parser
