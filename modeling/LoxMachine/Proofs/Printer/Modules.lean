import LoxMachine.Proofs.Grammar.Parts
import LoxMachine.Proofs.Printer.Statements
import LoxMachine.Proofs.Token.Coverage

/-!
# The text of a module determines its tree

Whatever was parsed, with or without complaints, no two trees have the same text unless they
differ in node numbers and ranges only.
-/

namespace LoxMachine

variable {K : Parser.Stock}

/-! ## Parsed trees -/

/-- A node made of known ranges and names. -/
def TreeNode.Made (K : Parser.Stock) : TreeNode → Prop
  | .expr e => e.Made K
  | .stmt s => s.Made K

theorem TreeNode.closed_made (K : Parser.Stock) : Closed (TreeNode.Made K) := by
  have hbody : ∀ {body : List Stmt}, (∀ s ∈ body, s.Made K) →
      ∀ child ∈ body.map TreeNode.stmt, child.Made K :=
    fun h => List.forall_mem_map.mpr h
  have hvalues : ∀ {values : List Expr}, (∀ e ∈ values, e.Made K) →
      ∀ child ∈ values.map TreeNode.expr, child.Made K :=
    fun h => List.forall_mem_map.mpr h
  have hoption : ∀ {value : Option Expr}, (∀ e ∈ value, e.Made K) →
      ∀ child ∈ value.toList.map TreeNode.expr, child.Made K :=
    fun h => hvalues fun e he => h e (Option.mem_toList.mp he)
  rintro (e | s) hn
  · cases hn with
    | literal | var | this | super => exact List.forall_mem_nil _
    | assign _ h _ | unary h _ | group h _ | get h _ _ => exact List.forall_mem_singleton.mpr h
    | binary hleft hright _ | logical hleft hright _ | set hleft _ hright _ =>
        exact List.forall_mem_cons.mpr ⟨hleft, List.forall_mem_singleton.mpr hright⟩
    | call hcallee hargs _ => exact List.forall_mem_cons.mpr ⟨hcallee, hvalues hargs⟩
  · cases hn with
    | expr h _ | print h _ | assert h _ => exact List.forall_mem_singleton.mpr h
    | assertEqual hleft hright _ =>
        exact List.forall_mem_cons.mpr ⟨hleft, List.forall_mem_singleton.mpr hright⟩
    | loop htest hbody _ =>
        exact List.forall_mem_cons.mpr ⟨htest, List.forall_mem_singleton.mpr hbody⟩
    | var _ h _ | ret _ h _ => exact hoption h
    | block h _ => exact hbody h
    | cond htest hthen helse _ =>
        refine List.forall_mem_cons.mpr ⟨htest, List.forall_mem_cons.mpr ⟨hthen, ?_⟩⟩
        exact hbody fun s hs => helse s (Option.mem_toList.mp hs)
    | function h => exact hbody h.body
    | classDecl _ _ h _ => exact List.forall_mem_flatMap.mpr fun f hf => hbody (h f hf).body

/-- What is known of the names of a module is known of the names in its expressions. -/
theorem Module.HasExpr.made {m : Module} {e : Expr} (h : m.HasExpr e)
    (hbody : ∀ s ∈ m.body, s.Made K) : e.Made K := by
  obtain ⟨node, hnode, he⟩ := h
  have hmade := hnode.closed (TreeNode.closed_made K) hbody
  cases node with
  | expr e' => exact List.mem_singleton.mp he ▸ hmade
  | stmt s =>
      unfold TreeNode.expressions at he
      split at he
      next => contradiction
      next heq =>
        cases heq
        cases hmade with | classDecl _ hparent _ _ =>
        exact List.mem_singleton.mp he ▸ .var (hparent _ rfl)
      next => exact absurd he List.not_mem_nil

/-- There is no bar in an identifier. -/
theorem Token.unbarred_scan (src : Source) :
    ∀ t ∈ (scan src).1, Parser.Stock.unbarred.token t := by
  intro t ht hkind hbar
  rw [scan_tokens_eq] at ht
  rcases List.mem_append.mp ht with ht | ht
  · have hspells := ((munched_scan src).longest t ht).spells
    rw [hkind] at hspells
    cases hspells with
    | identifier hword _ => exact nomatch hword.isNamePart 124 hbar
    | mark hmark => exact absurd hmark (by simp [marks])
  · rw [List.mem_singleton.mp ht] at hkind
    cases hkind

/-! ## Modules -/

namespace Module

/-- The text of a module is the text of one kind and of one list of declarations. -/
theorem text_inj {m m' : Module} (hm : ∀ s ∈ m.body, s.Made .unbarred)
    (hm' : ∀ s ∈ m'.body, s.Made .unbarred) (h : m.text = m'.text) :
    m.kind = m'.kind ∧ Stmt.shapes m.body = Stmt.shapes m'.body := by
  obtain ⟨kind, body, _⟩ := m
  obtain ⟨kind', body', _⟩ := m'
  unfold text at h
  rw [List.append_assoc, List.append_assoc] at h
  have hbehind := List.append_cancel_left h
  have htold : ∀ s ∈ body, s.Told := fun s hs => (hm s hs).told
  cases kind <;> cases kind' <;>
    first
      | exact ⟨rfl, (Stmt.Told.all htold hm' (List.append_cancel_left hbehind)).1⟩
      | exact nomatch hbehind

/-- Modules that were parsed from any texts, with or without complaints, have the same text only
if they are of one kind and the same up to node numbers and ranges; and so have their
expressions. -/
theorem text_determines_tree (src src' : Source) (kind kind' : ModuleKind) (n n' : Nat)
    (bag bag' : Bag) {outcome outcome' : Outcome}
    (h : parse (Token.scan src).1 kind n bag = .ok outcome)
    (h' : parse (Token.scan src').1 kind' n' bag' = .ok outcome') :
    (outcome.module.text = outcome'.module.text →
      outcome.module.kind = outcome'.module.kind ∧
        Stmt.shapes outcome.module.body = Stmt.shapes outcome'.module.body) ∧
      ∀ e e', outcome.module.HasExpr e → outcome'.module.HasExpr e' → e.text = e'.text →
        e.shape = e'.shape := by
  obtain ⟨hbody, -⟩ := made_of_parse (Token.unbarred_scan src) (fun _ _ => trivial) h
  obtain ⟨hbody', -⟩ := made_of_parse (Token.unbarred_scan src') (fun _ _ => trivial) h'
  exact ⟨text_inj hbody hbody',
    fun e e' he he' htext => Expr.text_inj (he.made hbody) (he'.made hbody') htext⟩

/-- Two texts that differ in their spaces, a comment and the digits of a number, parsed from
different node numbers. -/
theorem text_determines_tree_respaced :
    let src : Source :=
      ⟨[], utf8 "class A < B \x7b init(x) \x7b this.y = -x; \x7d \x7d print \"|\" + 1;"⟩
    let src' : Source :=
      ⟨[], utf8 "class A<B\x7binit(x)\x7bthis . y = - x;\x7d\x7d // |\nprint \"|\" + 1.0;"⟩
    ∃ outcome outcome' : Outcome,
      parse (Token.scan src).1 .sourceFile 0 Bag.empty = .ok outcome ∧
      parse (Token.scan src').1 .sourceFile 7 Bag.empty = .ok outcome' ∧
      outcome.lastId ≠ outcome'.lastId ∧ outcome.module.text = outcome'.module.text ∧
      outcome.module.kind = outcome'.module.kind ∧
      Stmt.shapes outcome.module.body = Stmt.shapes outcome'.module.body := by
  intro src src'
  have hids : (parse (Token.scan src).1 .sourceFile 0 Bag.empty).map Outcome.lastId = .ok 3 := by
    decide +kernel
  have hids' : (parse (Token.scan src').1 .sourceFile 7 Bag.empty).map Outcome.lastId = .ok 10 := by
    decide +kernel
  have htext : (parse (Token.scan src).1 .sourceFile 0 Bag.empty).map (fun o => o.module.text) =
      (parse (Token.scan src').1 .sourceFile 7 Bag.empty).map (fun o => o.module.text) := by
    decide +kernel
  cases h : parse (Token.scan src).1 .sourceFile 0 Bag.empty with
  | error failure =>
      rw [h] at hids
      cases hids
  | ok outcome =>
      cases h' : parse (Token.scan src').1 .sourceFile 7 Bag.empty with
      | error failure =>
          rw [h'] at hids'
          cases hids'
      | ok outcome' =>
          rw [h] at hids htext
          rw [h'] at hids' htext
          have hsame := Except.ok.inj htext
          have hids := Except.ok.inj hids
          have hids' := Except.ok.inj hids'
          exact ⟨outcome, outcome', rfl, rfl, by omega, hsame,
            (text_determines_tree src src' _ _ _ _ _ _ h h').1 hsame⟩

end Module

end LoxMachine
