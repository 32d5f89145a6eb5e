import LoxMachine.Proofs.Printer.Expressions

/-!
# The text of a statement is read in one way

Statements stand one behind the other in the text of a block, a function or a module, and the
end of their node tells where they stop.  The kind of a function is not written: it follows from
the place of the declaration and its name.
-/

namespace LoxMachine

variable {rest rest' : Bytes}

/-! ## Heads -/

def Stmt.head : Stmt → Head
  | .expr _ _ => .expr
  | .print _ _ => .print
  | .assert _ _ => .assert
  | .assertEqual _ _ _ => .assertEqual
  | .var _ _ _ => .var
  | .block _ _ => .block
  | .cond _ _ _ _ => .cond
  | .loop _ _ _ => .loop
  | .ret _ _ _ => .ret
  | .function _ => .function
  | .classDecl _ _ _ _ => .classDecl

theorem Function.ofText_onto (f : Function) (rest : Bytes) :
    Head.ofText (f.onto rest) = .function := by
  cases f
  rfl

theorem Stmt.ofText_onto (s : Stmt) (rest : Bytes) : Head.ofText (s.onto rest) = s.head := by
  cases s with
  | function decl => exact decl.ofText_onto rest
  | block body _ => cases body <;> rfl
  | ret _ value _ => cases value <;> rfl
  | cond _ _ elseBranch _ => cases elseBranch <;> rfl
  | _ => rfl

theorem Stmt.head_eq {s s' : Stmt} (h : s.onto rest = s'.onto rest') : s.head = s'.head := by
  rw [← s.ofText_onto rest, h, s'.ofText_onto]

/-! ## What may be left out -/

theorem Expr.optionOnto_inj {e e' : Option Expr} (he : ∀ a ∈ e, a.Made .unbarred)
    (he' : ∀ a ∈ e', a.Made .unbarred)
    (h : Expr.optionOnto e (closing rest) = Expr.optionOnto e' (closing rest')) :
    e.map Expr.shape = e'.map Expr.shape ∧ rest = rest' := by
  cases e with
  | none =>
      cases e' with
      | none => exact ⟨rfl, (List.cons.inj h).2⟩
      | some e' => cases h
  | some e =>
      cases e' with
      | none => cases h
      | some e' =>
          obtain ⟨hshape, hrest⟩ := (he e rfl).told (he' e' rfl) (List.cons.inj h).2
          exact ⟨congrArg some hshape, (List.cons.inj hrest).2⟩

theorem Name.barred_append (name : Name) (rest : Bytes) :
    name.barred [] ++ rest = name.barred rest := by
  simp only [Name.barred, List.cons_append, List.append_assoc, List.nil_append]

theorem Name.join_cons (name next : Name) (names : List Name) (rest : Bytes) :
    Bytes.join (utf8 " ") ((name :: next :: names).map fun n => n.barred []) ++ rest =
      name.barred (32 :: (Bytes.join (utf8 " ") ((next :: names).map fun n => n.barred []) ++
        rest)) := by
  change name.barred [] ++ [32] ++ Bytes.join (utf8 " ") _ ++ rest = _
  rw [List.append_assoc, List.append_assoc, Name.barred_append]
  rfl

/-- Names up to a closing parenthesis. -/
theorem Name.join_inj : ∀ {names names' : List Name} {rest rest' : Bytes},
    (∀ n ∈ names, 124 ∉ n.text) → (∀ n ∈ names', 124 ∉ n.text) →
    Bytes.join (utf8 " ") (names.map fun n => n.barred []) ++ closing rest =
      Bytes.join (utf8 " ") (names'.map fun n => n.barred []) ++ closing rest' →
    names.map (Name.place fun _ => Range.nowhere) =
      names'.map (Name.place fun _ => Range.nowhere) ∧ rest = rest'
  | [], [], _, _, _, _, h => ⟨rfl, (List.cons.inj h).2⟩
  | [], [_], _, _, _, _, h | [], _ :: _ :: _, _, _, _, _, h => nomatch h
  | [_], [], _, _, _, _, h | _ :: _ :: _, [], _, _, _, _, h => nomatch h
  | [name], [name'], _, _, hnames, hnames', h => by
      obtain ⟨hsame, hrest⟩ := Name.barred_inj (hnames _ List.mem_cons_self)
        (hnames' _ List.mem_cons_self)
        ((name.barred_append _).symm.trans (h.trans (name'.barred_append _)))
      exact ⟨congrArg (fun n => [n]) hsame, (List.cons.inj hrest).2⟩
  | [name], name' :: next' :: names', _, _, hnames, hnames', h => by
      obtain ⟨-, hrest⟩ := Name.barred_inj (hnames _ List.mem_cons_self)
        (hnames' _ List.mem_cons_self)
        ((name.barred_append _).symm.trans (h.trans (Name.join_cons name' next' names' _)))
      cases hrest
  | name :: next :: names, [name'], _, _, hnames, hnames', h => by
      obtain ⟨-, hrest⟩ := Name.barred_inj (hnames _ List.mem_cons_self)
        (hnames' _ List.mem_cons_self)
        ((Name.join_cons name next names _).symm.trans (h.trans (name'.barred_append _)))
      cases hrest
  | name :: next :: names, name' :: next' :: names', _, _, hnames, hnames', h => by
      rw [Name.join_cons, Name.join_cons] at h
      obtain ⟨hname, hnames⟩ := List.forall_mem_cons.mp hnames
      obtain ⟨hname', hnames'⟩ := List.forall_mem_cons.mp hnames'
      obtain ⟨hsame, hmore⟩ := Name.barred_inj hname hname' h
      obtain ⟨hall, hrest⟩ := Name.join_inj hnames hnames' (List.cons.inj hmore).2
      exact ⟨List.cons_eq_cons.mpr ⟨hsame, hall⟩, hrest⟩

/-- A superclass is a variable and stands in front of the methods, which are functions. -/
theorem Superclass.optionOnto_inj {parent parent' : Option Superclass}
    {methods methods' : List Function} (hparent : ∀ p ∈ parent, 124 ∉ p.name.text)
    (hparent' : ∀ p ∈ parent', 124 ∉ p.name.text)
    (h : Superclass.optionOnto parent (Function.allOnto methods (closing rest)) =
      Superclass.optionOnto parent' (Function.allOnto methods' (closing rest'))) :
    (parent.map (Superclass.place fun _ => Range.nowhere)).map (Superclass.renumber fun _ => 0) =
        (parent'.map (Superclass.place fun _ => Range.nowhere)).map
          (Superclass.renumber fun _ => 0) ∧
      Function.allOnto methods (closing rest) = Function.allOnto methods' (closing rest') := by
  have hfirst : ∀ {methods : List Function} {p : Superclass} {rest rest' : Bytes},
      Function.allOnto methods (closing rest) ≠ Superclass.optionOnto (some p) rest' := by
    rintro methods p rest rest' h
    cases methods with
    | nil => cases h
    | cons f methods => cases f; cases h
  cases parent with
  | none =>
      cases parent' with
      | none => exact ⟨rfl, h⟩
      | some p' => exact absurd h hfirst
  | some p =>
      cases parent' with
      | none => exact absurd h.symm hfirst
      | some p' =>
          obtain ⟨hsame, hmore⟩ := Name.barred_inj (hparent p rfl) (hparent' p' rfl)
            (List.append_cancel_left h)
          simp only [Option.map_some, Superclass.place, Superclass.renumber]
          exact ⟨by rw [hsame], (List.cons.inj hmore).2⟩

/-! ## Statements -/

/-- A statement without its node numbers and ranges. -/
def Stmt.shape (s : Stmt) : Stmt :=
  (s.place fun _ => Range.nowhere).renumber fun _ => 0

/-- A function without its node numbers and ranges. -/
def Function.shape (f : Function) : Function :=
  (f.place fun _ => Range.nowhere).renumber fun _ => 0

def Function.shapes (fs : List Function) : List Function :=
  Function.renumberAll (fun _ => 0) (Function.placeAll (fun _ => Range.nowhere) fs)

theorem Stmt.shape_var {name : Name} {init : Option Expr} {span : Range} :
    (Stmt.var name init span).shape =
      .var (name.place fun _ => Range.nowhere) (init.map Expr.shape) Range.nowhere := by
  cases init <;> rfl

theorem Stmt.shape_ret {keyword span : Range} {value : Option Expr} :
    (Stmt.ret keyword value span).shape =
      .ret Range.nowhere (value.map Expr.shape) Range.nowhere := by
  cases value <;> rfl

/-- The text of the statement ends where it ends, and is the text of one shape only. -/
def Stmt.Told (s : Stmt) : Prop :=
  ∀ {s' : Stmt} {rest rest' : Bytes}, s'.Made .unbarred → s.onto rest = s'.onto rest' →
    s.shape = s'.shape ∧ rest = rest'

/-- Among functions declared as one kind, the text is the text of one shape only. -/
def Function.Told (kind : FunctionKind) (f : Function) : Prop :=
  ∀ {f' : Function} {rest rest' : Bytes}, f'.Made .unbarred kind → f.onto rest = f'.onto rest' →
    f.shape = f'.shape ∧ rest = rest'

/-- Statements up to the end of their node are the statements of one text only. -/
theorem Stmt.Told.all {body body' : List Stmt} (hall : ∀ s ∈ body, s.Told)
    (hall' : ∀ s ∈ body', s.Made .unbarred)
    (h : Stmt.allOnto body (closing rest) = Stmt.allOnto body' (closing rest')) :
    Stmt.shapes body = Stmt.shapes body' ∧ rest = rest' := by
  induction body generalizing body' with
  | nil =>
      cases body' with
      | nil => exact ⟨rfl, (List.cons.inj h).2⟩
      | cons s' body' => cases h
  | cons s body ih =>
      cases body' with
      | nil => cases h
      | cons s' body' =>
          obtain ⟨hs, hbody⟩ := List.forall_mem_cons.mp hall
          obtain ⟨hs', hbody'⟩ := List.forall_mem_cons.mp hall'
          obtain ⟨hshape, hmore⟩ := hs hs' (List.cons.inj h).2
          obtain ⟨hshapes, hrest⟩ := ih hbody hbody' hmore
          exact ⟨List.cons_eq_cons.mpr ⟨hshape, hshapes⟩, hrest⟩

/-- Methods up to the end of their class. -/
theorem Function.Told.all {fs fs' : List Function} (hall : ∀ f ∈ fs, Function.Told .method f)
    (hall' : ∀ f ∈ fs', Function.Made .unbarred .method f)
    (h : Function.allOnto fs (closing rest) = Function.allOnto fs' (closing rest')) :
    Function.shapes fs = Function.shapes fs' ∧ rest = rest' := by
  induction fs generalizing fs' with
  | nil =>
      cases fs' with
      | nil => exact ⟨rfl, (List.cons.inj h).2⟩
      | cons f' fs' => cases h
  | cons f fs ih =>
      cases fs' with
      | nil => cases h
      | cons f' fs' =>
          obtain ⟨hf, hfs⟩ := List.forall_mem_cons.mp hall
          obtain ⟨hf', hfs'⟩ := List.forall_mem_cons.mp hall'
          obtain ⟨hshape, hmore⟩ := hf hf' (List.cons.inj h).2
          obtain ⟨hshapes, hrest⟩ := ih hfs hfs' hmore
          exact ⟨List.cons_eq_cons.mpr ⟨hshape, hshapes⟩, hrest⟩

theorem Function.Told.mk {kind : FunctionKind} {name : Name} {params : List Name}
    {body : List Stmt} {span : Range} (hname : 124 ∉ name.text)
    (hparams : ∀ p ∈ params, 124 ∉ p.text) (hbody : ∀ s ∈ body, s.Told) :
    Function.Told kind (.mk (Parser.declaredKind kind name) name params body span) := by
  intro f' rest rest' hf' h
  cases hf' with | @mk _ name' params' body' _ hname' hparams' hbody' _ =>
  obtain ⟨hsame, hmore⟩ := Name.barred_inj hname hname' (List.append_cancel_left h)
  obtain ⟨hsames, hmore⟩ := Name.join_inj hparams hparams'
    (List.cons.inj (List.cons.inj hmore).2).2
  obtain ⟨hshapes, hrest⟩ := Stmt.Told.all hbody hbody' hmore
  refine ⟨?_, hrest⟩
  -- The kind is not written, but it is a matter of the name.
  have hkind : Parser.declaredKind kind name = Parser.declaredKind kind name' := by
    have htext : name.text = name'.text := (Name.mk.inj hsame).1
    rw [Parser.declaredKind, Parser.declaredKind, htext]
  simp only [Function.shape, Stmt.shapes, Function.place, Function.renumber] at hshapes ⊢
  rw [hkind, hsame, hsames, hshapes]

namespace Stmt.Told

variable {value left right test : Expr} {name : Name} {keyword span : Range}
  {thenBranch elseBranch loopBody : Stmt} {body : List Stmt}

theorem expr (hvalue : value.Told) : (Stmt.expr value span).Told := by
  intro s' rest rest' hs' h
  have hhead := Stmt.head_eq h
  cases hs' with
  | expr hvalue' _ =>
      obtain ⟨hshape, hrest⟩ := hvalue hvalue' (List.append_cancel_left h)
      exact ⟨congrArg (Stmt.expr · Range.nowhere) hshape, (List.cons.inj hrest).2⟩
  | _ => cases hhead

theorem print (hvalue : value.Told) : (Stmt.print value span).Told := by
  intro s' rest rest' hs' h
  have hhead := Stmt.head_eq h
  cases hs' with
  | print hvalue' _ =>
      obtain ⟨hshape, hrest⟩ := hvalue hvalue' (List.append_cancel_left h)
      exact ⟨congrArg (Stmt.print · Range.nowhere) hshape, (List.cons.inj hrest).2⟩
  | _ => cases hhead

theorem assert (hvalue : value.Told) : (Stmt.assert value span).Told := by
  intro s' rest rest' hs' h
  have hhead := Stmt.head_eq h
  cases hs' with
  | assert hvalue' _ =>
      obtain ⟨hshape, hrest⟩ := hvalue hvalue' (List.append_cancel_left h)
      exact ⟨congrArg (Stmt.assert · Range.nowhere) hshape, (List.cons.inj hrest).2⟩
  | _ => cases hhead

theorem assertEqual (hleft : left.Told) (hright : right.Told) :
    (Stmt.assertEqual left right span).Told := by
  intro s' rest rest' hs' h
  have hhead := Stmt.head_eq h
  cases hs' with
  | assertEqual hleft' hright' _ =>
      obtain ⟨hshape, hshape', hrest⟩ :=
        hleft.operands hright hleft' hright' (List.append_cancel_left h)
      exact ⟨congrArg₂ (Stmt.assertEqual · · Range.nowhere) hshape hshape', hrest⟩
  | _ => cases hhead

theorem var {init : Option Expr} (hname : 124 ∉ name.text)
    (hinit : ∀ e ∈ init, e.Made .unbarred) : (Stmt.var name init span).Told := by
  intro s' rest rest' hs' h
  have hhead := Stmt.head_eq h
  cases hs' with
  | var hname' hinit' _ =>
      obtain ⟨hsame, hmore⟩ := Name.barred_inj hname hname' (List.append_cancel_left h)
      obtain ⟨hshape, hrest⟩ := Expr.optionOnto_inj hinit hinit' hmore
      refine ⟨?_, hrest⟩
      rw [Stmt.shape_var, Stmt.shape_var, hsame, hshape]
  | _ => cases hhead

theorem block (hbody : ∀ s ∈ body, s.Told) : (Stmt.block body span).Told := by
  intro s' rest rest' hs' h
  have hhead := Stmt.head_eq h
  cases hs' with
  | block hbody' _ =>
      obtain ⟨hshapes, hrest⟩ := all hbody hbody' (List.append_cancel_left h)
      exact ⟨congrArg (Stmt.block · Range.nowhere) hshapes, hrest⟩
  | _ => cases hhead

/-- Without a second branch the node ends behind the first one. -/
theorem cond (htest : test.Told) (hthen : thenBranch.Told) :
    (Stmt.cond test thenBranch none span).Told := by
  intro s' rest rest' hs' h
  have hhead := Stmt.head_eq h
  cases hs' with
  | @cond _ _ elseBranch' _ htest' hthen' _ _ =>
      cases elseBranch' with
      | none =>
          obtain ⟨hshape, hmore⟩ := htest htest' (List.append_cancel_left h)
          obtain ⟨hshape', hrest⟩ := hthen hthen' (List.cons.inj hmore).2
          refine ⟨?_, (List.cons.inj hrest).2⟩
          exact congrArg₂ (Stmt.cond · · none Range.nowhere) hshape hshape'
      | some elseBranch' =>
          obtain ⟨-, hmore⟩ := htest htest' (List.append_cancel_left h)
          obtain ⟨-, hrest⟩ := hthen hthen' (List.cons.inj hmore).2
          cases hrest
  | _ => cases hhead

theorem cond_else (htest : test.Told) (hthen : thenBranch.Told) (helse : elseBranch.Told) :
    (Stmt.cond test thenBranch (some elseBranch) span).Told := by
  intro s' rest rest' hs' h
  have hhead := Stmt.head_eq h
  cases hs' with
  | @cond _ _ elseBranch' _ htest' hthen' helse' _ =>
      cases elseBranch' with
      | none =>
          obtain ⟨-, hmore⟩ := htest htest' (List.append_cancel_left h)
          obtain ⟨-, hrest⟩ := hthen hthen' (List.cons.inj hmore).2
          cases hrest
      | some elseBranch' =>
          obtain ⟨htests, hmore⟩ := htest htest' (List.append_cancel_left h)
          obtain ⟨hthens, hmore⟩ := hthen hthen' (List.cons.inj hmore).2
          obtain ⟨helses, hrest⟩ := helse (helse' _ rfl) (List.cons.inj hmore).2
          refine ⟨?_, (List.cons.inj hrest).2⟩
          simp only [Stmt.shape, Expr.shape, Stmt.place, Stmt.renumber] at htests hthens helses ⊢
          rw [htests, hthens, helses]
  | _ => cases hhead

theorem loop (htest : test.Told) (hbody : loopBody.Told) : (Stmt.loop test loopBody span).Told := by
  intro s' rest rest' hs' h
  have hhead := Stmt.head_eq h
  cases hs' with
  | loop htest' hbody' _ =>
      obtain ⟨hshape, hmore⟩ := htest htest' (List.append_cancel_left h)
      obtain ⟨hshape', hrest⟩ := hbody hbody' (List.cons.inj hmore).2
      refine ⟨?_, (List.cons.inj hrest).2⟩
      exact congrArg₂ (Stmt.loop · · Range.nowhere) hshape hshape'
  | _ => cases hhead

theorem ret {value : Option Expr} (hvalue : ∀ e ∈ value, e.Made .unbarred) :
    (Stmt.ret keyword value span).Told := by
  intro s' rest rest' hs' h
  have hhead := Stmt.head_eq h
  cases hs' with
  | ret _ hvalue' _ =>
      obtain ⟨hshape, hrest⟩ := Expr.optionOnto_inj hvalue hvalue' (List.append_cancel_left h)
      refine ⟨?_, hrest⟩
      rw [Stmt.shape_ret, Stmt.shape_ret, hshape]
  | _ => cases hhead

theorem function {decl : Function} (hdecl : Function.Told .function decl) :
    (Stmt.function decl).Told := by
  intro s' rest rest' hs' h
  have hhead := Stmt.head_eq h
  cases hs' with
  | function hdecl' =>
      obtain ⟨hshape, hrest⟩ := hdecl hdecl' h
      exact ⟨congrArg Stmt.function hshape, hrest⟩
  | _ => cases hhead

theorem classDecl {parent : Option Superclass} {methods : List Function}
    (hname : 124 ∉ name.text) (hparent : ∀ p ∈ parent, 124 ∉ p.name.text)
    (hmethods : ∀ f ∈ methods, Function.Told .method f) :
    (Stmt.classDecl name parent methods span).Told := by
  intro s' rest rest' hs' h
  have hhead := Stmt.head_eq h
  cases hs' with
  | classDecl hname' hparent' hmethods' _ =>
      obtain ⟨hsame, hmore⟩ := Name.barred_inj hname hname' (List.append_cancel_left h)
      obtain ⟨hparents, hmore⟩ := Superclass.optionOnto_inj hparent hparent' hmore
      obtain ⟨hshapes, hrest⟩ := Function.Told.all hmethods hmethods' hmore
      refine ⟨?_, hrest⟩
      simp only [Stmt.shape, Function.shapes, Stmt.place, Stmt.renumber] at hshapes ⊢
      rw [hsame, hparents, hshapes]
  | _ => cases hhead

end Stmt.Told

mutual

theorem Stmt.Made.told {s : Stmt} : s.Made .unbarred → s.Told
  | .expr hvalue _ => Stmt.Told.expr hvalue.told
  | .print hvalue _ => Stmt.Told.print hvalue.told
  | .assert hvalue _ => Stmt.Told.assert hvalue.told
  | .assertEqual hleft hright _ => Stmt.Told.assertEqual hleft.told hright.told
  | .var hname hinit _ => Stmt.Told.var hname hinit
  | .block hbody _ => Stmt.Told.block fun s hs => Stmt.Made.told (hbody s hs)
  | @Stmt.Made.cond _ _ _ none _ htest hthen _ _ =>
      Stmt.Told.cond htest.told (Stmt.Made.told hthen)
  | @Stmt.Made.cond _ _ _ (some _) _ htest hthen helse _ =>
      Stmt.Told.cond_else htest.told (Stmt.Made.told hthen) (Stmt.Made.told (helse _ rfl))
  | .loop htest hbody _ => Stmt.Told.loop htest.told (Stmt.Made.told hbody)
  | .ret _ hvalue _ => Stmt.Told.ret hvalue
  | .function hdecl => Stmt.Told.function (Function.Made.told hdecl)
  | .classDecl hname hparent hmethods _ =>
      Stmt.Told.classDecl hname hparent fun f hf => Function.Made.told (hmethods f hf)

theorem Function.Made.told {kind : FunctionKind} {f : Function} :
    f.Made .unbarred kind → f.Told kind
  | .mk hname hparams hbody _ =>
      Function.Told.mk hname hparams fun s hs => Stmt.Made.told (hbody s hs)

end

end LoxMachine
