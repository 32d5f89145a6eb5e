import LoxMachine.Proofs.Grammar.Sequences
import LoxMachine.Proofs.Placing.Reading

/-!
# Trees up to their numbers and places

Tokens are read as the same tree, up to its node numbers and ranges, whatever number they
start from and wherever they stand.
-/

namespace LoxMachine

/-! ## Shapes -/

mutual

theorem Expr.shape_renumber (f : Nat → Nat) :
    ∀ e : Expr, ((e.renumber f).place fun _ => Range.nowhere).renumber (fun _ => 0) =
      (e.place fun _ => Range.nowhere).renumber fun _ => 0
  | .literal _ _ | .var _ _ | .this _ _ | .super _ _ _ _ _ => rfl
  | .assign _ _ value _ => by
      simp only [Expr.renumber, Expr.place, shape_renumber f value]
  | .unary _ operand _ => by simp only [Expr.renumber, Expr.place, shape_renumber f operand]
  | .binary _ left right _ | .logical _ left right _ | .set left _ right _ => by
      simp only [Expr.renumber, Expr.place, shape_renumber f left, shape_renumber f right]
  | .group inner _ => by simp only [Expr.renumber, Expr.place, shape_renumber f inner]
  | .call callee args _ => by
      simp only [Expr.renumber, Expr.place, shape_renumber f callee,
        Expr.shapeAll_renumber f args]
  | .get object _ _ => by simp only [Expr.renumber, Expr.place, shape_renumber f object]

theorem Expr.shapeAll_renumber (f : Nat → Nat) :
    ∀ es : List Expr,
      Expr.renumberAll (fun _ => 0)
          (Expr.placeAll (fun _ => Range.nowhere) (Expr.renumberAll f es)) =
        Expr.renumberAll (fun _ => 0) (Expr.placeAll (fun _ => Range.nowhere) es)
  | [] => rfl
  | e :: rest => by
      simp only [Expr.renumberAll, Expr.placeAll, Expr.shape_renumber f e,
        Expr.shapeAll_renumber f rest]

end

theorem Expr.optionShape_renumber (f : Nat → Nat) (e : Option Expr) :
    ((e.map (Expr.renumber f)).map (Expr.place fun _ => Range.nowhere)).map
        (Expr.renumber fun _ => 0) =
      (e.map (Expr.place fun _ => Range.nowhere)).map (Expr.renumber fun _ => 0) := by
  cases e with
  | none => rfl
  | some e => simp only [Option.map_some, e.shape_renumber f]

mutual

theorem Stmt.shape_renumber (f : Nat → Nat) :
    ∀ s : Stmt, ((s.renumber f).place fun _ => Range.nowhere).renumber (fun _ => 0) =
      (s.place fun _ => Range.nowhere).renumber fun _ => 0
  | .expr value _ | .print value _ | .assert value _ => by
      simp only [Stmt.renumber, Stmt.place, value.shape_renumber f]
  | .assertEqual left right _ => by
      simp only [Stmt.renumber, Stmt.place, left.shape_renumber f, right.shape_renumber f]
  | .var _ init _ | .ret _ init _ => by
      simp only [Stmt.renumber, Stmt.place, Expr.optionShape_renumber]
  | .block body _ => by simp only [Stmt.renumber, Stmt.place, Stmt.shapeAll_renumber f body]
  | .cond test thenBranch none _ => by
      simp only [Stmt.renumber, Stmt.place, test.shape_renumber f,
        Stmt.shape_renumber f thenBranch]
  | .cond test thenBranch (some elseBranch) _ => by
      simp only [Stmt.renumber, Stmt.place, test.shape_renumber f,
        Stmt.shape_renumber f thenBranch, Stmt.shape_renumber f elseBranch]
  | .loop test body _ => by
      simp only [Stmt.renumber, Stmt.place, test.shape_renumber f, Stmt.shape_renumber f body]
  | .function decl => by
      simp only [Stmt.renumber, Stmt.place, Function.shape_renumber f decl]
  | .classDecl _ superclass methods _ => by
      cases superclass <;>
        simp only [Stmt.renumber, Stmt.place, Option.map_none, Option.map_some,
          Superclass.renumber, Superclass.place, Function.shapeAll_renumber f methods]

theorem Stmt.shapeAll_renumber (f : Nat → Nat) :
    ∀ body : List Stmt,
      Stmt.renumberAll (fun _ => 0)
          (Stmt.placeAll (fun _ => Range.nowhere) (Stmt.renumberAll f body)) =
        Stmt.renumberAll (fun _ => 0) (Stmt.placeAll (fun _ => Range.nowhere) body)
  | [] => rfl
  | s :: rest => by
      simp only [Stmt.renumberAll, Stmt.placeAll, Stmt.shape_renumber f s,
        Stmt.shapeAll_renumber f rest]

theorem Function.shape_renumber (f : Nat → Nat) :
    ∀ decl : Function, ((decl.renumber f).place fun _ => Range.nowhere).renumber (fun _ => 0) =
      (decl.place fun _ => Range.nowhere).renumber fun _ => 0
  | .mk _ _ _ body _ => by
      simp only [Function.renumber, Function.place, Stmt.shapeAll_renumber f body]

theorem Function.shapeAll_renumber (f : Nat → Nat) :
    ∀ fs : List Function,
      Function.renumberAll (fun _ => 0)
          (Function.placeAll (fun _ => Range.nowhere) (Function.renumberAll f fs)) =
        Function.renumberAll (fun _ => 0) (Function.placeAll (fun _ => Range.nowhere) fs)
  | [] => rfl
  | decl :: rest => by
      simp only [Function.renumberAll, Function.placeAll, Function.shape_renumber f decl,
        Function.shapeAll_renumber f rest]

end

/-- The declarations without their node numbers and ranges. -/
def Stmt.shapes (body : List Stmt) : List Stmt :=
  Stmt.renumberAll (fun _ => 0) (Stmt.placeAll (fun _ => Range.nowhere) body)

@[simp] theorem Stmt.shapes_renumberAll (f : Nat → Nat) (body : List Stmt) :
    Stmt.shapes (Stmt.renumberAll f body) = Stmt.shapes body :=
  Stmt.shapeAll_renumber f body

@[simp] theorem Stmt.shapes_placeAll (f : Range → Range) (body : List Stmt) :
    Stmt.shapes (Stmt.placeAll f body) = Stmt.shapes body := by
  rw [Stmt.shapes, Stmt.placeAll_placeAll]
  rfl

@[simp] theorem Stmt.shapes_append (body rest : List Stmt) :
    Stmt.shapes (body ++ rest) = Stmt.shapes body ++ Stmt.shapes rest := by
  simp only [Stmt.shapes, Stmt.placeAll_append, Stmt.renumberAll_eq_map, List.map_append]

namespace Grammar

open LoxMachine.Parser

variable {a b body : List Stmt} {n m k l : Nat} {ts us : List Token}

/-- The same tokens have the same shape from all numbers. -/
theorem shapes_unique (ha : Reads (.declarations a) n ts m)
    (hb : Reads (.declarations b) k ts l) : Stmt.shapes a = Stmt.shapes b := by
  let eof : Token := ⟨.eof, [], Range.nowhere⟩
  obtain ⟨o, c, -, hparse⟩ := parse_eq_ok ts (show eof.kind = .eof from rfl) .unknown 0 Bag.empty
  have hshape : ∀ {body : List Stmt} {i j : Nat}, Reads (.declarations body) i ts j →
      Stmt.shapes body = Stmt.shapes o.body := by
    intro body i j hread
    have hmodule : ReadsModule .unknown i (ts ++ [eof])
        ⟨.unknown, body, (ts.headD eof).range.join eof.range⟩ j :=
      ⟨ts, eof, rfl, rfl, hread, rfl, rfl⟩
    have hbehind := Module.parse_behind ⟨1, i⟩ (ts ++ [eof]) .unknown (Nat.le_refl 1) Bag.empty
    rw [Nat.zero_add, parse_of_readsModule Bag.empty hmodule, hparse] at hbehind
    have hbody := congrArg (fun outcome : Module.Outcome => outcome.module.body)
      (Except.ok.inj hbehind)
    dsimp only at hbody
    rw [hbody]
    exact Stmt.shapes_renumberAll _ _
  rw [hshape ha, hshape hb]

/-- Tokens of these kinds and texts, wherever they stand, are parsed by themselves to the
declarations, without a complaint. -/
def ParsesAs (ts : List Token) (body : List Stmt) : Prop :=
  ∃ us eof kind n bag outcome,
    us.map (Token.place fun _ => Range.nowhere) = ts.map (Token.place fun _ => Range.nowhere) ∧
    (∀ t ∈ us, t.kind ≠ .eof) ∧ eof.kind = .eof ∧
    Module.parse (us ++ [eof]) kind n bag = .ok outcome ∧ outcome.bag = bag ∧
    outcome.module.body = body

/-- From every number, the tokens are read as the declarations, up to numbers and ranges. -/
def ReadsAs (ts : List Token) (body : List Stmt) : Prop :=
  ∀ n, ∃ body' m, Reads (.declarations body') n ts m ∧ Stmt.shapes body' = Stmt.shapes body

theorem ParsesAs.readsAs (h : ParsesAs ts body) : ReadsAs ts body := by
  intro n
  obtain ⟨us, eof, kind, k, bag, outcome, hsame, hus, heof, hparse, hclean, rfl⟩ := h
  have hreads := reads_of_parse heof hus hparse hclean
  have hspells : Spells ts (us.map Token.kind) := by
    constructor
    · have hkinds := congrArg (List.map Token.kind) hsame
      rw [List.map_map, List.map_map] at hkinds
      exact hkinds.symm
    · intro t ht
      obtain ⟨u, hu, hplaced⟩ := List.mem_map.mp (hsame ▸ List.mem_map_of_mem ht)
      have hlegible : (u.place fun _ => Range.nowhere).Legible := hreads.legible u hu
      rw [hplaced] at hlegible
      exact hlegible
  obtain ⟨body', m, hread⟩ := hreads.derives.readable ts hspells n
  refine ⟨body', m, hread, ?_⟩
  -- Taken out of their places, both are readings of the same tokens.
  have hplaced := hreads.place Range.keeps_nowhere
  rw [hsame] at hplaced
  have hshapes := shapes_unique (hread.place Range.keeps_nowhere) hplaced
  rwa [Stmt.shapes_placeAll, Stmt.shapes_placeAll] at hshapes

theorem readsAs_nil : ReadsAs [] [] :=
  fun n => ⟨[], n, .noDeclaration, rfl⟩

theorem ReadsAs.append (ha : ReadsAs ts a) (hb : ReadsAs us b) :
    ReadsAs (ts ++ us) (a ++ b) := by
  intro n
  obtain ⟨a', m, hreada, hshapea⟩ := ha n
  obtain ⟨b', k, hreadb, hshapeb⟩ := hb m
  refine ⟨a' ++ b', k, hreada.declarations_append hreadb, ?_⟩
  rw [Stmt.shapes_append, Stmt.shapes_append, hshapea, hshapeb]

theorem readsAs_singleton {s : Stmt}
    (h : ∀ n, ∃ s' m, Reads (.declaration s') n ts m ∧ Stmt.shapes [s'] = Stmt.shapes [s]) :
    ReadsAs ts [s] := by
  intro n
  obtain ⟨s', m, hread, hshape⟩ := h n
  refine ⟨[s'], m, ?_, hshape⟩
  rw [← List.append_nil ts]
  exact .declarations hread .noDeclaration

theorem ReadsAs.block {left right : Token} (hleft : left.kind = .leftBrace)
    (hright : right.kind = .rightBrace) (h : ReadsAs ts body) (span : Range) :
    ReadsAs (left :: (ts ++ [right])) [.block body span] := by
  refine readsAs_singleton fun n => ?_
  obtain ⟨body', m, hread, hshape⟩ := h n
  refine ⟨_, m, .statement (.block hleft hread hright), ?_⟩
  simp only [Stmt.shapes, Stmt.placeAll, Stmt.place, Stmt.renumberAll, Stmt.renumber] at hshape ⊢
  rw [hshape]

/-- Parameters are read without numbers. -/
theorem Reads.parameters_any {ps : List Name} (h : Reads (.parameters ps) n ts m) :
    m = n ∧ ∀ k, Reads (.parameters ps) k ts k := by
  have hnames : ∀ {ps : List Name} {ts : List Token}, Reads (.names ps) n ts m →
      m = n ∧ ∀ k, Reads (.names ps) k ts k := by
    intro ps
    induction ps with
    | nil =>
        intro ts h
        cases h
    | cons p ps ih =>
        intro ts h
        cases h with
        | lastName hname => exact ⟨rfl, fun _ => .lastName hname⟩
        | name hname hcomma hmore =>
            obtain ⟨rfl, hany⟩ := ih hmore
            exact ⟨rfl, fun k => .name hname hcomma (hany k)⟩
  cases h with
  | noParameter => exact ⟨rfl, fun _ => .noParameter⟩
  | parameters h =>
      obtain ⟨rfl, hany⟩ := hnames h
      exact ⟨rfl, fun k => .parameters (hany k)⟩

theorem ReadsAs.function {us : List Token} {ps : List Name}
    {kw name left close brace right : Token} (hkw : kw.kind = .keyword .funWord)
    (hname : name.kind = .identifier) (hleft : left.kind = .leftParen)
    (hps : Reads (.parameters ps) n us m) (hclose : close.kind = .rightParen)
    (hbrace : brace.kind = .leftBrace) (hright : right.kind = .rightBrace)
    (h : ReadsAs ts body) (span : Range) :
    ReadsAs (kw :: name :: left :: (us ++ close :: brace :: (ts ++ [right])))
      [.function (.mk .function (nameOf name) ps body span)] := by
  refine readsAs_singleton fun k => ?_
  obtain ⟨body', l, hread, hshape⟩ := h k
  refine ⟨_, l, .function hkw (.body hname hleft (hps.parameters_any.2 k) hclose hbrace hread
    hright), ?_⟩
  simp only [Stmt.shapes, Stmt.placeAll, Stmt.place, Stmt.renumberAll, Stmt.renumber,
    Function.place, Function.renumber] at hshape ⊢
  rw [hshape]
  rfl

end Grammar

end LoxMachine
