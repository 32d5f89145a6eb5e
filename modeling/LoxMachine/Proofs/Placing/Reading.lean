import LoxMachine.Proofs.Grammar.Modules
import LoxMachine.Proofs.Placing.Trees
import LoxMachine.Proofs.Token.Seams

/-!
# Reading texts in other places

Tokens that stand elsewhere are read as the same tree with its ranges changed, and
declarations that are read one after another are read together.
-/

namespace LoxMachine

/-- The same token in another place. -/
def Token.place (f : Range → Range) (token : Token) : Token :=
  ⟨token.kind, token.text, f token.range⟩

/-- The same message about another place. -/
def Diagnostic.place (f : Range → Range) (d : Diagnostic) : Diagnostic :=
  ⟨d.severity, f d.range, d.message⟩

namespace Grammar

open LoxMachine.Parser

variable {f : Range → Range} {n m k : Nat} {ts us : List Token}

def Phrase.place (f : Range → Range) : Phrase → Phrase
  | .declarations body => .declarations (Stmt.placeAll f body)
  | .declaration s => .declaration (s.place f)
  | .variable s => .variable (s.place f)
  | .function kind start decl => .function kind (f start) (decl.place f)
  | .methods fs => .methods (Function.placeAll f fs)
  | .parameters ps => .parameters (ps.map (Name.place f))
  | .names ps => .names (ps.map (Name.place f))
  | .statement dangling s => .statement dangling (s.place f)
  | .initializer init => .initializer (init.map (Stmt.place f))
  | .optional e => .optional (e.map (Expr.place f))
  | .expression e => .expression (e.place f)
  | .level k e => .level k (e.place f)
  | .unary e => .unary (e.place f)
  | .call e => .call (e.place f)
  | .primary e => .primary (e.place f)
  | .arguments es => .arguments (Expr.placeAll f es)
  | .expressions es => .expressions (Expr.placeAll f es)

theorem place_node (hf : Range.Keeps f) (op : Operator) (left right : Expr) :
    (op.node left right).place f = op.node (left.place f) (right.place f) := by
  cases op <;> simp only [Operator.node, Expr.place, Expr.span_place, hf left.span right.span]

theorem place_forLoop (init : Option Stmt) (test : Expr) (step : Option Expr) (body : Stmt)
    (span : Range) :
    (forLoop init test step body span).place f =
      forLoop (init.map (Stmt.place f)) (test.place f) (step.map (Expr.place f)) (body.place f)
        (f span) := by
  cases init <;> cases step <;>
    simp only [forLoop, Stmt.place, Stmt.placeAll, Option.map_none, Option.map_some,
      Stmt.span_place, Expr.span_place]

theorem place_ne_equal {e : Expr} (h : ∀ l r span, e ≠ .binary .equal l r span) (l r : Expr)
    (span : Range) : e.place f ≠ .binary .equal l r span := by
  intro heq
  cases e with
  | binary op left right span' =>
      cases heq
      exact h left right span' rfl
  | _ => cases heq

/-- Tokens in other places are read as the tree with its ranges changed. -/
theorem Reads.place (hf : Range.Keeps f) {φ : Phrase} (h : Reads φ n ts m) :
    Reads (φ.place f) n (ts.map (Token.place f)) m := by
  have hjoin : ∀ a b : Range, f (a.join b) = (f a).join (f b) := hf
  have hexpr : ∀ e : Expr, f e.span = (e.place f).span := fun e => e.span_place.symm
  have hstmt : ∀ s : Stmt, f s.span = (s.place f).span := fun s => s.span_place.symm
  have hkind : ∀ {t : Token} {kind : Kind}, t.kind = kind → (t.place f).kind = kind := fun h => h
  have htest : ∀ (e : Option Expr) (span : Range),
      (e.getD (.literal (.bool true) span)).place f =
        (e.map (Expr.place f)).getD (.literal (.bool true) (f span)) := by
    intro e span
    cases e <;> rfl
  induction h <;>
    simp only [Phrase.place, Stmt.place, Stmt.placeAll, Function.place, Function.placeAll,
      Expr.place, Expr.placeAll, place_forLoop, place_node hf, hjoin, List.map_append,
      List.map_cons, List.map_nil, Option.map_none, Option.map_some, hexpr, hstmt, htest]
  case noDeclaration => exact .noDeclaration
  case declarations ihs ihbody => exact .declarations ihs ihbody
  case plainClass hkw hname hleft _ hright ih =>
    exact .plainClass (hkind hkw) (hkind hname) (hkind hleft) ih (hkind hright)
  case subclass hkw hname hless hparent hleft _ hright ih =>
    exact .subclass (hkind hkw) (hkind hname) (hkind hless) (hkind hparent) (hkind hleft) ih
      (hkind hright)
  case function hkw _ ih => exact .function (hkind hkw) ih
  case newVariable ih => exact .newVariable ih
  case statement ih => exact .statement ih
  case unset hkw hname hsemi => exact .unset (hkind hkw) (hkind hname) (hkind hsemi)
  case set hkw hname hequals _ hsemi ih =>
    exact .set (hkind hkw) (hkind hname) (hkind hequals) ih (hkind hsemi)
  case body hname hopen _ hclose hleft _ hright ihps ihss =>
    exact .body (hkind hname) (hkind hopen) ihps (hkind hclose) (hkind hleft) ihss (hkind hright)
  case noMethod => exact .noMethod
  case methods hfirst _ _ ihf ihfs =>
    have hfirst := congrArg (Option.map (Token.place f)) hfirst
    rw [← List.head?_map] at hfirst
    exact .methods hfirst ihf ihfs
  case noParameter => exact .noParameter
  case parameters ih => exact .parameters ih
  case lastName hname => exact .lastName (hkind hname)
  case name hname hcomma _ ih => exact .name (hkind hname) (hkind hcomma) ih
  case forLoop hkw hleft _ _ hsemi _ hright _ ihinit ihtest ihstep ihbody =>
    exact .forLoop (hkind hkw) (hkind hleft) ihinit ihtest (hkind hsemi) ihstep (hkind hright)
      ihbody
  case ifThen hkw hleft _ hright _ ihtest ihthen =>
    exact .ifThen (hkind hkw) (hkind hleft) ihtest (hkind hright) ihthen
  case ifElse hkw hleft _ hright _ hels _ ihtest ihthen ihelse =>
    exact .ifElse (hkind hkw) (hkind hleft) ihtest (hkind hright) ihthen (hkind hels) ihelse
  case whileLoop hkw hleft _ hright _ ihtest ihbody =>
    exact .whileLoop (hkind hkw) (hkind hleft) ihtest (hkind hright) ihbody
  case print hkw _ hsemi ih => exact .print (hkind hkw) ih (hkind hsemi)
  case assertEqual hkw _ hsemi ih => exact .assertEqual (hkind hkw) ih (hkind hsemi)
  case assert hkw _ hne hsemi ih => exact .assert (hkind hkw) ih (place_ne_equal hne) (hkind hsemi)
  case ret hkw _ hsemi ih => exact .ret (hkind hkw) ih (hkind hsemi)
  case block hleft _ hright ih => exact .block (hkind hleft) ih (hkind hright)
  case expr _ hsemi ih => exact .expr ih (hkind hsemi)
  case noInitializer hsemi => exact .noInitializer (hkind hsemi)
  case initVariable ih => exact .initVariable ih
  case initExpr _ hsemi ih => exact .initExpr ih (hkind hsemi)
  case absent => exact .absent
  case present ih => exact .present ih
  case assign hname hequals _ ih => exact .assign (hkind hname) (hkind hequals) ih
  case setProperty _ hdot hname hequals _ iho ihe =>
    exact .setProperty iho (hkind hdot) (hkind hname) (hkind hequals) ihe
  case loosest ih => exact .loosest ih
  case binary t _ hmem hop _ ihl ihr => exact .binary (t := t.place f) ihl hmem hop ihr
  case tighter ih => exact .tighter ih
  case operand ih => exact .operand ih
  case signed t hop _ ih => exact .signed (t := t.place f) hop ih
  case unsigned ih => exact .unsigned ih
  case call _ hleft _ hright ihe ihes => exact .call ihe (hkind hleft) ihes (hkind hright)
  case property _ hdot hname ih => exact .property ih (hkind hdot) (hkind hname)
  case primary ih => exact .primary ih
  case literal t hmem hlegible => exact .literal (t := t.place f) hmem hlegible
  case this hkw => exact .this (hkind hkw)
  case super hkw hdot hname => exact .super (hkind hkw) (hkind hdot) (hkind hname)
  case identifier hname => exact .identifier (hkind hname)
  case group hleft _ hright ih => exact .group (hkind hleft) ih (hkind hright)
  case noArgument => exact .noArgument
  case arguments ih => exact .arguments ih
  case lastExpression ih => exact .lastExpression ih
  case expressions _ hcomma _ ihe ihes => exact .expressions ihe (hkind hcomma) ihes

/-- Declarations that are read one after another are read together. -/
theorem Reads.declarations_append {body rest : List Stmt} (h : Reads (.declarations body) n ts m)
    (hrest : Reads (.declarations rest) m us k) :
    Reads (.declarations (body ++ rest)) n (ts ++ us) k := by
  induction body generalizing n ts with
  | nil =>
      cases h
      exact hrest
  | cons s body ih =>
      cases h with
      | declarations hs hbody =>
          rw [List.append_assoc]
          exact .declarations hs (ih hbody)

end Grammar

/-! ## Scanning -/

namespace Token

/-- A text is scanned without complaint if none of its pieces is a fault. -/
theorem isClean_scan_iff (src : Source) :
    (scan src).2.isClean = true ↔ Faultless (pieces src.text) := by
  rw [Bag.isClean_iff]
  constructor
  · intro h piece hmem
    cases hcontent : piece.content with
    | token kind => exact ⟨kind, rfl⟩
    | fault cause =>
        have hfault : (⟨.error, ⟨some src, piece.start, piece.stop⟩, cause.message⟩ : Diagnostic) ∈
            (scan src).2.items.toList := by
          refine List.mem_filterMap.mpr ⟨piece, hmem, ?_⟩
          rw [hcontent]
        cases h _ hfault
  · intro h d hd
    obtain ⟨piece, hmem, hpiece⟩ := List.mem_filterMap.mp hd
    obtain ⟨kind, hkind⟩ := h piece hmem
    rw [hkind] at hpiece
    cases hpiece

/-- A string left open is reported as such. -/
theorem closed_pieces {src : Source}
    (h : ∀ d ∈ (scan src).2.items.toList, d.message ≠ Fault.unterminatedString.message) :
    Closed (pieces src.text) := by
  intro piece hmem hopen
  have hfault : Piece.fault? src piece =
      some ⟨.error, ⟨some src, piece.start, piece.stop⟩, Fault.unterminatedString.message⟩ := by
    rw [Piece.fault?, hopen]
  exact h _ (List.mem_filterMap.mpr ⟨piece, hmem, hfault⟩) rfl

section Shift

variable (src src' : Source) (k : Nat)

theorem token?_shift (piece : Piece) :
    Piece.token? src' (piece.shift k) =
      (Piece.token? src piece).map (Token.place (Range.shift src' k)) := by
  unfold Piece.token?
  rw [Piece.stop_shift]
  cases hcontent : piece.content with
  | token kind => simp only [Piece.shift, hcontent]; rfl
  | fault cause => simp only [Piece.shift, hcontent]; rfl

theorem fault?_shift (piece : Piece) :
    Piece.fault? src' (piece.shift k) =
      (Piece.fault? src piece).map (Diagnostic.place (Range.shift src' k)) := by
  unfold Piece.fault?
  rw [Piece.stop_shift]
  cases hcontent : piece.content with
  | token kind => simp only [Piece.shift, hcontent]; rfl
  | fault cause => simp only [Piece.shift, hcontent]; rfl

theorem tokens_shift (ps : List Piece) :
    (ps.map (Piece.shift k)).filterMap (Piece.token? src') =
      (ps.filterMap (Piece.token? src)).map (Token.place (Range.shift src' k)) := by
  rw [List.filterMap_map, List.map_filterMap]
  exact congrArg (List.filterMap · ps) (funext (token?_shift src src' k))

theorem faults_shift (ps : List Piece) :
    (ps.map (Piece.shift k)).filterMap (Piece.fault? src') =
      (ps.filterMap (Piece.fault? src)).map (Diagnostic.place (Range.shift src' k)) := by
  rw [List.filterMap_map, List.map_filterMap]
  exact congrArg (List.filterMap · ps) (funext (fault?_shift src src' k))

end Shift

/-- The pieces of two texts joined by a line feed, told by how far each moves. -/
theorem pieces_joined {src src₁ src₂ : Source}
    (htext : src.text = src₁.text ++ Bytes.lineFeed :: src₂.text)
    (hclosed : Closed (pieces src₁.text)) :
    pieces src.text = (pieces src₁.text).map (Piece.shift 0) ++
      (pieces src₂.text).map (Piece.shift (src₁.text.length + 1)) := by
  have hzero : Piece.shift 0 = id := rfl
  rw [htext, pieces_seam hclosed, hzero, List.map_id]

/-- The tokens of two texts joined by a line feed are those of the first and then those of
the second, in their new places. -/
theorem scan_joined {src src₁ src₂ : Source}
    (htext : src.text = src₁.text ++ Bytes.lineFeed :: src₂.text)
    (h₁ : (scan src₁).2.isClean = true) (h₂ : (scan src₂).2.isClean = true) :
    (scan src).2.isClean = true ∧
      ∃ ts us e₁ e₂ e, (scan src₁).1 = ts ++ [e₁] ∧ (scan src₂).1 = us ++ [e₂] ∧
        (scan src).1 = ts.map (Token.place (Range.shift src 0)) ++
          us.map (Token.place (Range.shift src (src₁.text.length + 1))) ++ [e] ∧
        e.kind = .eof := by
  rw [isClean_scan_iff] at h₁ h₂ ⊢
  have hpieces := pieces_joined htext h₁.closed
  refine ⟨?_, _, _, _, _, ⟨.eof, [], ⟨some src, src.text.length, src.text.length⟩⟩,
    scan_tokens_eq src₁, scan_tokens_eq src₂, ?_, rfl⟩
  · intro piece hmem
    rw [hpieces, List.mem_append, List.mem_map, List.mem_map] at hmem
    rcases hmem with ⟨old, hold, rfl⟩ | ⟨old, hold, rfl⟩
    · exact h₁ old hold
    · exact h₂ old hold
  · rw [scan_tokens_eq, hpieces, List.filterMap_append, tokens_shift src₁, tokens_shift src₂]

/-- Behind a text that leaves no string open and a line feed, another text is scanned as if it
stood alone: the tokens in front of the end of the first are followed by those of the second,
and the complaints about the first by those about the second. -/
theorem scan_append_lineFeed {src src₁ src₂ : Source}
    (htext : src.text = src₁.text ++ Bytes.lineFeed :: src₂.text)
    (hclosed : ∀ d ∈ (scan src₁).2.items.toList,
      d.message ≠ Fault.unterminatedString.message) :
    (scan src).1 =
        ((scan src₁).1.filter fun t => t.kind ≠ .eof).map (Token.place (Range.shift src 0)) ++
          (scan src₂).1.map (Token.place (Range.shift src (src₁.text.length + 1))) ∧
      (scan src).2.items.toList =
        (scan src₁).2.items.toList.map (Diagnostic.place (Range.shift src 0)) ++
          (scan src₂).2.items.toList.map
            (Diagnostic.place (Range.shift src (src₁.text.length + 1))) := by
  have hpieces := pieces_joined htext (closed_pieces hclosed)
  have hend : src.text.length = src₂.text.length + (src₁.text.length + 1) := by
    rw [htext, List.length_append, List.length_cons]
    omega
  constructor
  · rw [filter_scan, scan_tokens_eq src, scan_tokens_eq src₂, hpieces, List.filterMap_append,
      tokens_shift src₁, tokens_shift src₂, List.append_assoc, List.map_append, hend]
    rfl
  · rw [scan_faults_eq, scan_faults_eq, scan_faults_eq, hpieces, List.filterMap_append,
      faults_shift src₁, faults_shift src₂]

/-- Ends in a number with a point, a comment, and two bytes of a character of three. -/
def endsShort : Source :=
  ⟨[], utf8 "a = 1. // \"" ++ Bytes.lineFeed :: (utf8 "!" ++ [0xE2, 0x82])⟩

/-- Starts with a byte that could be the third, and leaves a string open. -/
def startsShort : Source :=
  ⟨[], 0xAC :: utf8 "= 5 \"b"⟩

def joinedShort : Source :=
  ⟨[], endsShort.text ++ Bytes.lineFeed :: startsShort.text⟩

theorem scan_append_lineFeed_short :
    (∀ d ∈ (scan endsShort).2.items.toList, d.message ≠ Fault.unterminatedString.message) ∧
      (scan joinedShort).1 =
        ((scan endsShort).1.filter fun t => t.kind ≠ .eof).map
            (Token.place (Range.shift joinedShort 0)) ++
          (scan startsShort).1.map
            (Token.place (Range.shift joinedShort (endsShort.text.length + 1))) ∧
      (scan joinedShort).2.items.toList =
        (scan endsShort).2.items.toList.map (Diagnostic.place (Range.shift joinedShort 0)) ++
          (scan startsShort).2.items.toList.map
            (Diagnostic.place (Range.shift joinedShort (endsShort.text.length + 1))) :=
  have hclosed := by decide +kernel
  ⟨hclosed, scan_append_lineFeed rfl hclosed⟩

end Token

/-- The text of two modules joined by a line feed is read as both bodies, one after the
other. -/
theorem Grammar.readsModule_joined {src src₁ src₂ : Source} {kind : ModuleKind} {n k l : Nat}
    {m₁ m₂ : Module} (htext : src.text = src₁.text ++ Bytes.lineFeed :: src₂.text)
    (hclean₁ : (Token.scan src₁).2.isClean = true) (hclean₂ : (Token.scan src₂).2.isClean = true)
    (h₁ : ReadsModule kind n (Token.scan src₁).1 m₁ k)
    (h₂ : ReadsModule kind k (Token.scan src₂).1 m₂ l) :
    (Token.scan src).2.isClean = true ∧
      ∃ m, ReadsModule kind n (Token.scan src).1 m l ∧
        m.body = Stmt.placeAll (Range.shift src 0) m₁.body ++
          Stmt.placeAll (Range.shift src (src₁.text.length + 1)) m₂.body := by
  obtain ⟨hclean, ts, us, e₁, e₂, eof, hscan₁, hscan₂, hjoined, heof⟩ :=
    Token.scan_joined htext hclean₁ hclean₂
  obtain ⟨ts', e₁', htokens₁, _, hreads₁, _⟩ := h₁
  obtain ⟨us', e₂', htokens₂, _, hreads₂, _⟩ := h₂
  obtain ⟨rfl, _⟩ := List.append_inj' (hscan₁.symm.trans htokens₁) rfl
  obtain ⟨rfl, _⟩ := List.append_inj' (hscan₂.symm.trans htokens₂) rfl
  have hbody := (hreads₁.place (Range.keeps_shift src 0)).declarations_append
    (hreads₂.place (Range.keeps_shift src (src₁.text.length + 1)))
  exact ⟨hclean, ⟨kind, _, _⟩, ⟨_, eof, hjoined, heof, hbody, rfl, rfl⟩, rfl⟩

end LoxMachine
