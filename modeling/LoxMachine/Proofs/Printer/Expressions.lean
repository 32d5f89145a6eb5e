import LoxMachine.Proofs.Bytes.Quoted
import LoxMachine.Proofs.Number.Text
import LoxMachine.Proofs.Parser.Made
import LoxMachine.Proofs.Recovery.Shapes

/-!
# The text of an expression is read in one way

Two expressions whose texts begin alike have the same shape, and what stands behind their texts
is the same too.  The first word of a text tells the kind of the node; a name ends at the first
bar, so it must not have one itself.
-/

namespace LoxMachine

variable {rest rest' : Bytes}

/-! ## Words and names -/

theorem Bytes.append_cons_inj {b : UInt8} {text text' : Bytes} (h : b ∉ text) (h' : b ∉ text')
    (heq : text ++ b :: rest = text' ++ b :: rest') : text = text' ∧ rest = rest' := by
  induction text generalizing text' with
  | nil =>
      cases text' with
      | nil => exact ⟨rfl, (List.cons.inj heq).2⟩
      | cons c text' => exact absurd ((List.cons.inj heq).1 ▸ List.mem_cons_self) h'
  | cons c text ih =>
      cases text' with
      | nil => exact absurd ((List.cons.inj heq).1 ▸ List.mem_cons_self) h
      | cons c' text' =>
          obtain ⟨rfl, hmore⟩ := List.cons.inj heq
          obtain ⟨rfl, hrest⟩ := ih (fun hmem => h (List.mem_cons_of_mem _ hmem))
            (fun hmem => h' (List.mem_cons_of_mem _ hmem)) hmore
          exact ⟨rfl, hrest⟩

/-- The names of a text hold no bars. -/
def Parser.Stock.unbarred : Stock where
  token := fun t => t.kind = .identifier → 124 ∉ t.text
  range := fun _ => True
  name := fun n => 124 ∉ n.text
  fault := fun _ => True
  range_of_token := fun _ _ => trivial
  name_of_token := fun h hkind => h hkind
  fault_of_token := fun _ => trivial
  range_of_name := fun _ => trivial
  fault_of_range := fun _ => trivial
  join := fun _ _ => trivial

theorem Name.barred_inj {name name' : Name} (h : 124 ∉ name.text) (h' : 124 ∉ name'.text)
    (heq : name.barred rest = name'.barred rest') :
    (name.place fun _ => Range.nowhere) = name'.place (fun _ => Range.nowhere) ∧ rest = rest' := by
  obtain ⟨htext, hrest⟩ := Bytes.append_cons_inj h h' (List.cons.inj heq).2
  exact ⟨by rw [Name.place, Name.place, htext], hrest⟩

/-! ## Literals -/

/-- What a literal is written as is told by its first byte. -/
inductive Literal.Form where
  | nil
  | bool (value : Bool)
  | number
  | string

def Literal.form : Literal → Form
  | .nil => .nil
  | .bool value => .bool value
  | .number _ => .number
  | .string _ => .string

def Literal.formOf : Bytes → Form
  | 110 :: _ => .nil
  | 116 :: _ => .bool true
  | 102 :: _ => .bool false
  | 34 :: _ => .string
  | _ => .number

theorem Literal.formOf_text (value : Literal) (rest : Bytes) :
    formOf (value.text ++ closing rest) = value.form := by
  cases value with
  | nil => rfl
  | bool value => cases value <;> rfl
  | string value =>
      change formOf (Bytes.quoted value ++ closing rest) = .string
      rw [Bytes.quoted_eq]
      rfl
  | number value =>
      obtain ⟨b, more, htext, hb⟩ := Number.text_head value
      change formOf (Number.text spelling value ++ closing rest) = .number
      rw [htext, List.cons_append]
      unfold formOf
      split <;> simp_all

theorem Literal.closing_notMem {value : Literal} (h : value.form ≠ .string) :
    41 ∉ value.text := by
  cases value with
  | nil => decide
  | bool value => cases value <;> decide
  | number value => exact Number.closing_notMem_text value
  | string value => exact absurd rfl h

theorem Literal.text_inj {value value' : Literal}
    (heq : value.text ++ closing rest = value'.text ++ closing rest') :
    value = value' ∧ rest = rest' := by
  have hform := congrArg formOf heq
  rw [formOf_text, formOf_text] at hform
  by_cases hstring : value.form = .string
  · have hstring' := hform ▸ hstring
    cases value <;> cases hstring
    cases value' <;> cases hstring'
    obtain ⟨rfl, hrest⟩ := Bytes.quoted_append_inj heq
    exact ⟨rfl, (List.cons.inj hrest).2⟩
  · obtain ⟨htext, hrest⟩ :=
      Bytes.append_cons_inj (closing_notMem hstring) (closing_notMem (hform ▸ hstring)) heq
    refine ⟨?_, hrest⟩
    cases value <;> cases value' <;> cases hform
    · rfl
    · rfl
    · rw [Number.text_injective htext]
    · exact absurd rfl hstring

/-! ## Heads -/

/-- What a node is by its first word.  A variable has the same word as the declaration of one. -/
inductive Head where
  | literal
  | var
  | assign
  | operator (spelling : Bytes)
  | group
  | call
  | get
  | set
  | this
  | super
  | expr
  | print
  | assert
  | assertEqual
  | block
  | cond
  | loop
  | ret
  | function
  | classDecl

namespace Head

/-- The words of the nodes that are no operators. -/
def words : List (Bytes × Head) :=
  [(utf8 "literal", literal), (utf8 "var", var), (utf8 "assign", assign), (utf8 "group", group),
    (utf8 "call", call), (utf8 "get", get), (utf8 "set", set), (utf8 "this", this),
    (utf8 "super", super), (utf8 "expr", expr), (utf8 "print", print), (utf8 "assert", assert),
    (utf8 "assert==", assertEqual), (utf8 "block", block), (utf8 "if", cond),
    (utf8 "while", loop), (utf8 "return", ret), (utf8 "fun", function),
    (utf8 "class", classDecl)]

/-- The head of a text, whose first word ends at a space or at the end of the node. -/
def ofText (text : Bytes) : Head :=
  let word := (text.drop 1).takeWhile fun b => b ≠ 32 ∧ b ≠ 41
  (words.lookup word).getD (operator word)

end Head

def Expr.head : Expr → Head
  | .literal _ _ => .literal
  | .var _ _ => .var
  | .assign _ _ _ _ => .assign
  | .unary op _ _ => .operator op.spelling
  | .binary op _ _ _ => .operator op.spelling
  | .logical op _ _ _ => .operator op.spelling
  | .group _ _ => .group
  | .call _ _ _ => .call
  | .get _ _ _ => .get
  | .set _ _ _ _ => .set
  | .this _ _ => .this
  | .super _ _ _ _ _ => .super

theorem Expr.ofText_onto (e : Expr) (rest : Bytes) : Head.ofText (e.onto rest) = e.head := by
  cases e with
  | unary op _ _ | binary op _ _ _ | logical op _ _ _ => cases op <;> rfl
  | _ => rfl

theorem Expr.head_eq {e e' : Expr} (h : e.onto rest = e'.onto rest') : e.head = e'.head := by
  rw [← e.ofText_onto rest, h, e'.ofText_onto]

theorem UnaryOp.spelling_inj {op op' : UnaryOp} (h : op.spelling = op'.spelling) : op = op' := by
  cases op <;> cases op' <;> first | rfl | exact absurd h (by decide)

theorem BinaryOp.spelling_inj {op op' : BinaryOp} (h : op.spelling = op'.spelling) :
    op = op' := by
  cases op <;> cases op' <;> first | rfl | exact absurd h (by decide)

theorem LogicalOp.spelling_inj {op op' : LogicalOp} (h : op.spelling = op'.spelling) :
    op = op' := by
  cases op <;> cases op' <;> first | rfl | exact absurd h (by decide)

theorem BinaryOp.spelling_ne (op : BinaryOp) (op' : LogicalOp) : op.spelling ≠ op'.spelling := by
  cases op <;> cases op' <;> decide

/-! ## Expressions -/

/-- An expression without its node numbers and ranges. -/
def Expr.shape (e : Expr) : Expr :=
  (e.place fun _ => Range.nowhere).renumber fun _ => 0

def Expr.shapes (es : List Expr) : List Expr :=
  Expr.renumberAll (fun _ => 0) (Expr.placeAll (fun _ => Range.nowhere) es)

/-- The text of the expression ends where it ends, and is the text of one shape only. -/
def Expr.Told (e : Expr) : Prop :=
  ∀ {e' : Expr} {rest rest' : Bytes}, e'.Made .unbarred → e.onto rest = e'.onto rest' →
    e.shape = e'.shape ∧ rest = rest'

namespace Expr.Told

variable {id thisId : Nat} {name method : Name} {keyword span : Range}
  {operand left right object callee value : Expr} {args : List Expr}

theorem literal {value : Literal} : (Expr.literal value span).Told := by
  intro e' rest rest' _ h
  have hhead := Expr.head_eq h
  cases e' with
  | literal value' _ =>
      obtain ⟨rfl, hrest⟩ := Literal.text_inj (List.append_cancel_left h)
      exact ⟨rfl, hrest⟩
  | _ => cases hhead

theorem var (hname : 124 ∉ name.text) : (Expr.var id name).Told := by
  intro e' rest rest' he' h
  have hhead := Expr.head_eq h
  cases he' with
  | var hname' =>
      obtain ⟨hsame, hrest⟩ := Name.barred_inj hname hname' (List.append_cancel_left h)
      exact ⟨congrArg (Expr.var 0) hsame, (List.cons.inj hrest).2⟩
  | _ => cases hhead

theorem assign (hname : 124 ∉ name.text) (hvalue : value.Told) :
    (Expr.assign id name value span).Told := by
  intro e' rest rest' he' h
  have hhead := Expr.head_eq h
  cases he' with
  | assign hname' hvalue' _ =>
      obtain ⟨hsame, hmore⟩ := Name.barred_inj hname hname' (List.append_cancel_left h)
      obtain ⟨hshape, hrest⟩ := hvalue hvalue' (List.cons.inj hmore).2
      refine ⟨?_, (List.cons.inj hrest).2⟩
      simp only [Expr.shape, Expr.place, Expr.renumber] at hshape ⊢
      rw [hsame, hshape]
  | _ => cases hhead

/-- Behind one operand the node ends, or a second operand comes. -/
theorem operand_ne_operands {spelling spelling' : Bytes} (hoperand : operand.Told)
    (hleft : left.Made .unbarred) (hspelling : spelling = spelling') :
    40 :: (spelling ++ 32 :: operand.onto (closing rest)) ≠
      40 :: (spelling' ++ 32 :: left.onto (32 :: rest')) := by
  intro h
  subst hspelling
  cases (hoperand hleft (List.cons.inj (List.append_cancel_left (List.cons.inj h).2)).2).2

/-- Behind the first of two operands another one comes, so it does not end the node. -/
theorem operands_ne_operand {spelling spelling' : Bytes} (hleft : left.Told)
    (hoperand : operand.Made .unbarred) (hspelling : spelling = spelling') :
    40 :: (spelling ++ 32 :: left.onto (32 :: rest)) ≠
      40 :: (spelling' ++ 32 :: operand.onto (closing rest')) := by
  intro h
  subst hspelling
  cases (hleft hoperand (List.cons.inj (List.append_cancel_left (List.cons.inj h).2)).2).2

/-- Two operands up to the end of their node. -/
theorem operands {left' right' : Expr} (hleft : left.Told) (hright : right.Told)
    (hleft' : left'.Made .unbarred) (hright' : right'.Made .unbarred)
    (h : left.onto (32 :: right.onto (closing rest)) =
      left'.onto (32 :: right'.onto (closing rest'))) :
    left.shape = left'.shape ∧ right.shape = right'.shape ∧ rest = rest' := by
  obtain ⟨hshape, hmore⟩ := hleft hleft' h
  obtain ⟨hshape', hrest⟩ := hright hright' (List.cons.inj hmore).2
  exact ⟨hshape, hshape', (List.cons.inj hrest).2⟩

theorem unary {op : UnaryOp} (hoperand : operand.Told) : (Expr.unary op operand span).Told := by
  intro e' rest rest' he' h
  have hhead := Expr.head_eq h
  cases he' with
  | unary hoperand' _ =>
      cases UnaryOp.spelling_inj (Head.operator.inj hhead)
      have htail := List.append_cancel_left (List.cons.inj h).2
      obtain ⟨hshape, hrest⟩ := hoperand hoperand' (List.cons.inj htail).2
      refine ⟨?_, (List.cons.inj hrest).2⟩
      simp only [Expr.shape, Expr.place, Expr.renumber] at hshape ⊢
      rw [hshape]
  | binary hleft' _ _ | logical hleft' _ _ =>
      exact absurd h (hoperand.operand_ne_operands hleft' (Head.operator.inj hhead))
  | _ => cases hhead

theorem binary {op : BinaryOp} (hleft : left.Told) (hright : right.Told) :
    (Expr.binary op left right span).Told := by
  intro e' rest rest' he' h
  have hhead := Expr.head_eq h
  cases he' with
  | binary hleft' hright' _ =>
      cases BinaryOp.spelling_inj (Head.operator.inj hhead)
      have htail := List.append_cancel_left (List.cons.inj h).2
      obtain ⟨hshape, hshape', hrest⟩ :=
        hleft.operands hright hleft' hright' (List.cons.inj htail).2
      refine ⟨?_, hrest⟩
      simp only [Expr.shape, Expr.place, Expr.renumber] at hshape hshape' ⊢
      rw [hshape, hshape']
  | unary hoperand' _ =>
      exact absurd h (hleft.operands_ne_operand hoperand' (Head.operator.inj hhead))
  | logical => exact absurd (Head.operator.inj hhead) (BinaryOp.spelling_ne _ _)
  | _ => cases hhead

theorem logical {op : LogicalOp} (hleft : left.Told) (hright : right.Told) :
    (Expr.logical op left right span).Told := by
  intro e' rest rest' he' h
  have hhead := Expr.head_eq h
  cases he' with
  | logical hleft' hright' _ =>
      cases LogicalOp.spelling_inj (Head.operator.inj hhead)
      have htail := List.append_cancel_left (List.cons.inj h).2
      obtain ⟨hshape, hshape', hrest⟩ :=
        hleft.operands hright hleft' hright' (List.cons.inj htail).2
      refine ⟨?_, hrest⟩
      simp only [Expr.shape, Expr.place, Expr.renumber] at hshape hshape' ⊢
      rw [hshape, hshape']
  | unary hoperand' _ =>
      exact absurd h (hleft.operands_ne_operand hoperand' (Head.operator.inj hhead))
  | binary => exact absurd (Head.operator.inj hhead).symm (BinaryOp.spelling_ne _ _)
  | _ => cases hhead

theorem group (hinner : operand.Told) : (Expr.group operand span).Told := by
  intro e' rest rest' he' h
  have hhead := Expr.head_eq h
  cases he' with
  | group hinner' _ =>
      obtain ⟨hshape, hrest⟩ := hinner hinner' (List.append_cancel_left h)
      refine ⟨?_, (List.cons.inj hrest).2⟩
      simp only [Expr.shape, Expr.place, Expr.renumber] at hshape ⊢
      rw [hshape]
  | _ => cases hhead

/-- Expressions up to the end of their node are the expressions of one text only. -/
theorem all (hall : ∀ e ∈ args, e.Told) {args' : List Expr}
    (hall' : ∀ e ∈ args', e.Made .unbarred)
    (h : Expr.allOnto args (closing rest) = Expr.allOnto args' (closing rest')) :
    Expr.shapes args = Expr.shapes args' ∧ rest = rest' := by
  induction args generalizing args' with
  | nil =>
      cases args' with
      | nil => exact ⟨rfl, (List.cons.inj h).2⟩
      | cons e' args' => cases h
  | cons e args ih =>
      cases args' with
      | nil => cases h
      | cons e' args' =>
          obtain ⟨he, hargs⟩ := List.forall_mem_cons.mp hall
          obtain ⟨he', hargs'⟩ := List.forall_mem_cons.mp hall'
          obtain ⟨hshape, hmore⟩ := he he' (List.cons.inj h).2
          obtain ⟨hshapes, hrest⟩ := ih hargs hargs' hmore
          exact ⟨List.cons_eq_cons.mpr ⟨hshape, hshapes⟩, hrest⟩

theorem call (hcallee : callee.Told) (hargs : ∀ e ∈ args, e.Told) :
    (Expr.call callee args span).Told := by
  intro e' rest rest' he' h
  have hhead := Expr.head_eq h
  cases he' with
  | call hcallee' hargs' _ =>
      obtain ⟨hshape, hmore⟩ := hcallee hcallee' (List.append_cancel_left h)
      obtain ⟨hshapes, hrest⟩ := all hargs hargs' hmore
      refine ⟨?_, hrest⟩
      simp only [Expr.shape, Expr.shapes, Expr.place, Expr.renumber] at hshape hshapes ⊢
      rw [hshape, hshapes]
  | _ => cases hhead

theorem get (hobject : object.Told) (hname : 124 ∉ name.text) :
    (Expr.get object name span).Told := by
  intro e' rest rest' he' h
  have hhead := Expr.head_eq h
  cases he' with
  | get hobject' hname' _ =>
      obtain ⟨hshape, hmore⟩ := hobject hobject' (List.append_cancel_left h)
      obtain ⟨hsame, hrest⟩ := Name.barred_inj hname hname' (List.cons.inj hmore).2
      refine ⟨?_, (List.cons.inj hrest).2⟩
      simp only [Expr.shape, Expr.place, Expr.renumber] at hshape ⊢
      rw [hshape, hsame]
  | _ => cases hhead

theorem set (hobject : object.Told) (hname : 124 ∉ name.text) (hvalue : value.Told) :
    (Expr.set object name value span).Told := by
  intro e' rest rest' he' h
  have hhead := Expr.head_eq h
  cases he' with
  | set hobject' hname' hvalue' _ =>
      obtain ⟨hshape, hmore⟩ := hobject hobject' (List.append_cancel_left h)
      obtain ⟨hsame, hmore⟩ := Name.barred_inj hname hname' (List.cons.inj hmore).2
      obtain ⟨hshape', hrest⟩ := hvalue hvalue' (List.cons.inj hmore).2
      refine ⟨?_, (List.cons.inj hrest).2⟩
      simp only [Expr.shape, Expr.place, Expr.renumber] at hshape hshape' ⊢
      rw [hshape, hsame, hshape']
  | _ => cases hhead

theorem this : (Expr.this id keyword).Told := by
  intro e' rest rest' _ h
  have hhead := Expr.head_eq h
  cases e' with
  | this _ _ => exact ⟨rfl, List.append_cancel_left h⟩
  | _ => cases hhead

theorem super (hmethod : 124 ∉ method.text) :
    (Expr.super id thisId keyword method span).Told := by
  intro e' rest rest' he' h
  have hhead := Expr.head_eq h
  cases he' with
  | super _ hmethod' _ =>
      obtain ⟨hsame, hrest⟩ := Name.barred_inj hmethod hmethod' (List.append_cancel_left h)
      refine ⟨?_, (List.cons.inj hrest).2⟩
      simp only [Expr.shape, Expr.place, Expr.renumber]
      rw [hsame]
  | _ => cases hhead

end Expr.Told

theorem Expr.Made.told {e : Expr} (h : e.Made .unbarred) : e.Told := by
  induction h with
  | literal => exact Told.literal
  | var hname => exact Told.var hname
  | assign hname _ _ ih => exact Told.assign hname ih
  | unary _ _ ih => exact Told.unary ih
  | binary _ _ _ ihleft ihright => exact Told.binary ihleft ihright
  | logical _ _ _ ihleft ihright => exact Told.logical ihleft ihright
  | group _ _ ih => exact Told.group ih
  | call _ _ _ ih ihargs => exact Told.call ih ihargs
  | get _ hname _ ih => exact Told.get ih hname
  | set _ hname _ _ ihobject ihvalue => exact Told.set ihobject hname ihvalue
  | this => exact Told.this
  | super _ hmethod _ => exact Told.super hmethod

/-- No two shapes have the same text. -/
theorem Expr.text_inj {e e' : Expr} (he : e.Made .unbarred) (he' : e'.Made .unbarred)
    (h : e.text = e'.text) : e.shape = e'.shape :=
  (he.told he' h).1

end LoxMachine
