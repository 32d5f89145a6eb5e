import LoxMachine.Proofs.Grammar.Modules
import LoxMachine.Proofs.Relocation.Parsing

/-!
# One sequence of declarations after another

Declarations that can be read are parsed in the same way whatever tokens come behind them,
as long as those do not go on with an `else`.  What comes behind is parsed as if it stood
alone, with the node numbers that are left.
-/

namespace LoxMachine.Parser

/-- The loop over the declarations of a block, if `nested`, or else of a module. -/
def sequence (nested : Bool) (decl : Parser (Option Stmt)) :
    (steps : Nat) → (before : List Stmt) → Parser (List Stmt) :=
  if nested then declarations decl else topLevel decl

variable {decl : Parser (Option Stmt)} {nested : Bool} {s : Nat} {before : List Stmt}

/-- A round of the loop, away from a closing brace and from the end. -/
theorem sequence_succ {c : Cursor} (hbrace : (c.rest.headD c.eof).kind ≠ .rightBrace)
    (hend : (c.rest.headD c.eof).kind ≠ .eof) :
    sequence nested decl (s + 1) before c =
      (decl >>= fun found => sequence nested decl s (found.toList ++ before)) c := by
  have hgoes : ¬ (decide ((c.rest.headD c.eof).kind = .rightBrace) ||
      decide ((c.rest.headD c.eof).kind = .eof)) = true := by
    simp only [Bool.or_eq_true, decide_eq_true_eq, not_or]
    exact ⟨hbrace, hend⟩
  cases nested with
  | true =>
      simp only [sequence, if_true, declarations, bind_apply, atBlockEnd, peek, pure_apply]
      rw [if_neg hgoes, bind_apply]
      cases decl c with
      | ok found d => cases found <;> rfl
      | _ => rfl
  | false =>
      simp only [sequence, Bool.false_eq_true, if_false, topLevel, bind_apply, isAt, peek,
        pure_apply]
      rw [if_neg (mt of_decide_eq_true hend), bind_apply]
      cases decl c with
      | ok found d => cases found <;> rfl
      | _ => rfl

theorem carries_sequence {g : Detour} {decl' : Parser (Option Stmt)} {s' : Nat}
    (h : Carries g (Option.map (moveStmt g)) decl decl') (hle : s ≤ s') (nested : Bool)
    (before : List Stmt) :
    Carries g (List.map (moveStmt g)) (sequence nested decl s before)
      (sequence nested decl' s' (before.map (moveStmt g))) := by
  cases nested with
  | true => exact carries_declarations h hle before
  | false =>
      have htop := carries_topLevel h hle before []
      rw [List.append_nil] at htop
      exact htop

end LoxMachine.Parser

namespace LoxMachine.Grammar

open LoxMachine.Parser

variable {ts rest : List Token} {eof : Token} {n m k : Nat} {body : List Stmt}

/-- The loop goes through declarations that can be read, one round for each. -/
theorem sequence_of_reads (heof : eof.kind = .eof) (h : Reads (.declarations body) n ts m)
    (hrest : (rest.headD eof).kind ≠ .keyword .elseWord) (hk : (ts ++ rest).length < k)
    (nested : Bool) (s : Nat) (before : List Stmt) (bag : Bag) :
    sequence nested (declaration k) (body.length + s) before ⟨ts ++ rest, eof, n, bag⟩ =
      sequence nested (declaration k) s (body.reverse ++ before) ⟨rest, eof, m, bag⟩ := by
  induction body generalizing n ts before with
  | nil =>
      cases h
      rw [List.length_nil, Nat.zero_add, List.nil_append]
      rfl
  | cons stmt body ih =>
      cases h with
      | @declarations _ j _ _ _ ts us hfirst hmore =>
          rw [List.append_assoc] at hk ⊢
          have hels := declarations_head_ne_else hmore hrest
          have hstmt : declaration k ⟨ts ++ (us ++ rest), eof, n, bag⟩ =
              .ok (some stmt) ⟨us ++ rest, eof, j, bag⟩ :=
            complete_of_reads heof hfirst (us ++ rest) k hk hels
          obtain ⟨t, vs, rfl, ht⟩ := hfirst.starts rfl
          rw [List.length_cons, Nat.add_right_comm,
            sequence_succ (head_ne_of_starts ht (by decide)) (head_ne_of_starts ht (by decide)),
            bind_apply, hstmt]
          dsimp only
          rw [ih hmore (by rw [List.length_append] at hk; omega)]
          simp

/-! ## Modules -/

theorem parse_of_topLevel (heof : eof.kind = .eof) {bag : Bag} {d : Cursor}
    (h : topLevel (declaration (ts.length + 2)) (ts.length + 2) [] ⟨ts, eof, n, bag⟩ =
      .ok body d) (kind : ModuleKind) :
    Module.parse (ts ++ [eof]) kind n bag =
      .ok ⟨⟨kind, body, (ts.headD eof).range.join (d.rest.headD d.eof).range⟩, d.lastId,
        d.bag⟩ := by
  refine parse_of_run heof ?_
  rw [program, bind_apply]
  dsimp only [peek]
  rw [bind_apply, h]
  rfl

/-- Where no token but the last is the end marker, parsing ends at the last. -/
theorem rest_eq_nil {c d : Cursor} (h : Shrinks c d) (hend : (d.rest.headD d.eof).kind = .eof)
    (hc : ∀ t ∈ c.rest, t.kind ≠ .eof) : d.rest = [] := by
  cases hrest : d.rest with
  | nil => rfl
  | cons t us =>
      rw [hrest, List.headD_cons] at hend
      exact absurd hend (hc t (h.2.subset (by rw [hrest]; exact List.mem_cons_self)))

/-- Declarations that are parsed without a complaint can be read. -/
theorem reads_of_parse {kind : ModuleKind} {bag : Bag} {outcome : Module.Outcome}
    (heof : eof.kind = .eof) (hts : ∀ t ∈ ts, t.kind ≠ .eof)
    (h : Module.parse (ts ++ [eof]) kind n bag = .ok outcome) (hbag : outcome.bag = bag) :
    Reads (.declarations outcome.module.body) n ts outcome.lastId := by
  obtain ⟨us, eof', hsplit, _, hreads, _⟩ := readsModule_of_parse heof hts h hbag
  obtain rfl : ts = us := (List.append_inj' hsplit rfl).1
  exact hreads

theorem Reads.length_le (h : Reads (.declarations body) n ts m) : body.length ≤ ts.length := by
  induction body generalizing n ts with
  | nil => exact Nat.zero_le _
  | cons stmt body ih =>
      cases h with
      | declarations hfirst hmore =>
          obtain ⟨t, vs, rfl, _⟩ := hfirst.starts rfl
          have hle := ih hmore
          simp only [List.cons_append, List.length_cons, List.length_append]
          omega

/-- Parsing goes on behind declarations that are read without a complaint as if it started
there, with the numbers they leave. -/
theorem parse_append {P₁ P₂ : List Token} {eof₁ : Token} {kind : ModuleKind} {bag₁ : Bag}
    {first : Module.Outcome} (heof₁ : eof₁.kind = .eof) (heof : eof.kind = .eof)
    (hP₁ : ∀ t ∈ P₁, t.kind ≠ .eof) (hP₂ : ∀ t ∈ P₂, t.kind ≠ .eof)
    (hfirst : Module.parse (P₁ ++ [eof₁]) kind n bag₁ = .ok first) (hclean : first.bag = bag₁)
    (hels : (P₂.headD eof).kind ≠ .keyword .elseWord) (bag : Bag) :
    ∃ second, Module.parse (P₂ ++ [eof]) kind first.lastId bag = .ok second ∧
      Module.parse (P₁ ++ P₂ ++ [eof]) kind n bag =
        .ok ⟨⟨kind, first.module.body ++ second.module.body,
          ((P₁ ++ P₂).headD eof).range.join eof.range⟩, second.lastId, second.bag⟩ := by
  have hreads := reads_of_parse heof₁ hP₁ hfirst hclean
  obtain ⟨body, d, htop, hshrinks, hend⟩ := topLevel_eq_ok (k := P₂.length + 2)
    (s := P₂.length + 2) (c := ⟨P₂, eof, first.lastId, bag⟩) heof (by simp) (by simp) []
  have hrest : d.rest = [] := rest_eq_nil hshrinks hend hP₂
  refine ⟨_, parse_of_topLevel heof htop kind, ?_⟩
  -- The rounds that go through the first part leave enough steps for the second.
  obtain ⟨s, hs⟩ : ∃ s, (P₁ ++ P₂).length + 2 = first.module.body.length + s ∧
      P₂.length + 2 ≤ s := by
    have hle := hreads.length_le
    rw [List.length_append]
    exact ⟨P₁.length + P₂.length + 2 - first.module.body.length, by omega, by omega⟩
  have hrounds := sequence_of_reads heof hreads hels (Nat.lt_add_of_pos_right Nat.two_pos)
    false s [] bag
  have hle : P₂.length + 2 ≤ (P₁ ++ P₂).length + 2 := by
    rw [List.length_append]
    omega
  have htracks := carries_topLevel (carries_statement_declaration hle).2 hs.2 []
    first.module.body.reverse ⟨P₂, eof, first.lastId, bag⟩ _
    (behind_straight heof (List.suffix_refl P₂))
  rw [htop, List.map_nil, List.nil_append] at htracks
  rw [← hs.1, List.append_nil] at hrounds
  -- The second run goes on from where the first part ends.
  generalize hrun : topLevel (declaration ((P₁ ++ P₂).length + 2)) s
    first.module.body.reverse ⟨P₂, eof, first.lastId, bag⟩ = outcome at htracks
  cases htracks with
  | @ok _ whole _ d' hwhole hbehind =>
      have hjoint : topLevel (declaration ((P₁ ++ P₂).length + 2)) ((P₁ ++ P₂).length + 2) []
          ⟨P₁ ++ P₂, eof, n, bag⟩ = .ok whole d' := hrounds.trans hrun
      rw [List.reverse_reverse, moveStmt_straight, List.map_id] at hwhole
      rw [parse_of_topLevel heof hjoint, hwhole, hbehind.eq, hrest, hshrinks.1]
      rfl

/-- The tokens of a text without the end marker. -/
def lexed (text : Bytes) : List Token :=
  (Token.scan (Source.ofSnippet text)).1.dropLast

/-- A token of this kind that stands nowhere. -/
def mark (kind : Kind) : Token :=
  ⟨kind, [], Range.nowhere⟩

/-- Behind a statement that is read, a broken one costs a complaint. -/
theorem parse_append_broken :
    ∃ first second : Module.Outcome,
      Module.parse (lexed (utf8 "if (a) b;") ++ [mark .eof]) .sourceFile 0 Bag.empty = .ok first ∧
      first.bag = Bag.empty ∧
      Module.parse (lexed (utf8 ") c; d;") ++ [mark .eof]) .sourceFile first.lastId Bag.empty =
        .ok second ∧
      second.bag.items.size = 1 ∧
      Module.parse (lexed (utf8 "if (a) b;") ++ lexed (utf8 ") c; d;") ++ [mark .eof]) .sourceFile 0
        Bag.empty = .ok ⟨⟨.sourceFile, first.module.body ++ second.module.body,
          ((lexed (utf8 "if (a) b;") ++ lexed (utf8 ") c; d;")).headD (mark .eof)).range.join
            (mark .eof).range⟩, second.lastId, second.bag⟩ := by
  have hkinds : ∀ t ∈ lexed (utf8 "if (a) b;") ++ lexed (utf8 ") c; d;"), t.kind ≠ .eof := by
    decide +kernel
  obtain ⟨h₁, h₂⟩ := List.forall_mem_append.mp hkinds
  have hstop : (mark .eof).kind = .eof := rfl
  obtain ⟨m, c, -, hparse⟩ := parse_eq_ok (lexed (utf8 "if (a) b;")) hstop .sourceFile 0 Bag.empty
  have hfirst : (Module.parse (lexed (utf8 "if (a) b;") ++ [mark .eof]) .sourceFile 0
      Bag.empty).map (fun first => (first.bag, first.lastId)) = .ok (Bag.empty, 2) := by
    decide +kernel
  rw [hparse] at hfirst
  obtain ⟨hbag, hlast⟩ := Prod.mk.inj (Except.ok.inj hfirst)
  obtain ⟨second, hsecond, hwhole⟩ := parse_append hstop hstop h₁ h₂ hparse hbag
    (by decide +kernel) Bag.empty
  refine ⟨_, second, hparse, hbag, hsecond, ?_, hwhole⟩
  dsimp only at hlast
  have hsize : (Module.parse (lexed (utf8 ") c; d;") ++ [mark .eof]) .sourceFile 2
      Bag.empty).map (fun second => second.bag.items.size) = .ok 1 := by
    decide +kernel
  rw [← hlast, hsecond] at hsize
  exact Except.ok.inj hsize

end LoxMachine.Grammar
