import LoxMachine.Proofs.Parser.Made
import LoxMachine.Proofs.Source.Trees

/-!
# Where parsed trees stand

Tokens of a source are parsed to trees of the source: every range that a parser makes up
joins ranges of tokens, none of which is the end marker, and a complaint is made at a token.
-/

namespace LoxMachine

variable {src : Source}

/-- A token within a source covers some of it, unless it is the end marker. -/
structure Token.Located (src : Source) (t : Token) : Prop where
  within : t.range.Within src
  covers : t.kind ≠ .eof → t.range.Proper src

/-- The tokens of a source, whose ranges cover some of it. -/
def Parser.Stock.located (src : Source) : Stock where
  token := Token.Located src
  range := Range.Proper src
  name := fun n => n.range.Proper src
  fault := Range.Within src
  range_of_token := fun h => h.covers
  name_of_token := fun h hkind => h.covers fun heof => by
    rw [hkind] at heof
    cases heof
  fault_of_token := fun h => h.within
  range_of_name := id
  fault_of_range := fun h => h.within
  join := fun h h' => h.join h'

theorem Expr.Made.located {e : Expr} (h : e.Made (.located src)) : e.Located src := by
  induction h with
  | literal hspan => exact .literal hspan
  | var hname => exact .var hname
  | assign hname _ hspan ih => exact .assign hname ih hspan
  | unary _ hspan ih => exact .unary ih hspan
  | binary _ _ hspan ihleft ihright => exact .binary ihleft ihright hspan
  | logical _ _ hspan ihleft ihright => exact .logical ihleft ihright hspan
  | group _ hspan ih => exact .group ih hspan
  | call _ _ hspan ih ihargs => exact .call ih ihargs hspan
  | get _ hname hspan ih => exact .get ih hname hspan
  | set _ hname _ hspan ihobject ihvalue => exact .set ihobject hname ihvalue hspan
  | this hkeyword => exact .this hkeyword
  | super hkeyword hmethod hspan => exact .super hkeyword hmethod hspan

mutual

theorem Stmt.Made.located {s : Stmt} : s.Made (.located src) → s.Located src
  | .expr hvalue hspan => .expr hvalue.located hspan
  | .print hvalue hspan => .print hvalue.located hspan
  | .assert hvalue hspan => .assert hvalue.located hspan
  | .assertEqual hleft hright hspan => .assertEqual hleft.located hright.located hspan
  | .var hname hinit hspan => .var hname (fun e he => (hinit e he).located) hspan
  | .block hbody hspan => .block (fun s hs => Stmt.Made.located (hbody s hs)) hspan
  | .cond htest hthen helse hspan =>
      .cond htest.located (Stmt.Made.located hthen)
        (fun s hs => Stmt.Made.located (helse s hs)) hspan
  | .loop htest hbody hspan => .loop htest.located (Stmt.Made.located hbody) hspan
  | .ret hkeyword hvalue hspan => .ret hkeyword (fun e he => (hvalue e he).located) hspan
  | .function hdecl => .function (Function.Made.located hdecl)
  | .classDecl hname hparent hmethods hspan =>
      .classDecl hname hparent (fun f hf => Function.Made.located (hmethods f hf)) hspan

theorem Function.Made.located {kind : FunctionKind} {f : Function} :
    f.Made (.located src) kind → f.Located src
  | .mk hname hparams hbody hspan =>
      .mk hname hparams (fun s hs => Stmt.Made.located (hbody s hs)) hspan

end

/-- Tokens of a source and the marker of its end are parsed to statements located in the
source, and all that is complained about lies in it. -/
theorem Module.located_of_parse {tokens : List Token} {eof : Token} {kind : ModuleKind}
    {lastId : Nat} {bag : Bag} {outcome : Outcome} (htokens : ∀ t ∈ tokens, t.range.Proper src)
    (heof : eof.range.Within src) (hbag : bag.Within src)
    (h : parse (tokens ++ [eof]) kind lastId bag = .ok outcome) :
    (∀ s ∈ outcome.module.body, s.Located src) ∧ outcome.bag.Within src := by
  have hmarked : eof.kind = .eof := by
    by_contra hne
    unfold parse at h
    rw [List.getLast?_concat] at h
    dsimp only at h
    rw [if_pos hne] at h
    cases h
  have hstock : ∀ t ∈ tokens ++ [eof], (Parser.Stock.located src).token t := by
    intro t ht
    rcases List.mem_append.mp ht with ht | ht
    · exact ⟨(htokens t ht).within, fun _ => htokens t ht⟩
    · rw [List.mem_singleton.mp ht]
      exact ⟨heof, fun hne => absurd hmarked hne⟩
  obtain ⟨hbody, hfaults⟩ := made_of_parse hstock hbag h
  exact ⟨fun s hs => (hbody s hs).located, hfaults⟩

end LoxMachine
