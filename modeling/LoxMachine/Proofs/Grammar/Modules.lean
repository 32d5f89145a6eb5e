import LoxMachine.Proofs.Grammar.Completeness
import LoxMachine.Proofs.Grammar.Readability
import LoxMachine.Proofs.Parser.Bounds
import LoxMachine.Proofs.Token.Lexemes

/-!
# Parsing whole modules

Parsing a scanned text always yields a module.  It adds no complaint exactly if the
kinds of the tokens derive from the grammar, and then the module is the only tree
that the tokens can be read as.
-/

namespace LoxMachine.Grammar

open LoxMachine.Parser

variable {ts : List Token} {eof : Token} {kind : ModuleKind} {lastId : Nat} {bag : Bag}

theorem parse_of_run (heof : eof.kind = .eof) {m : Module} {c : Cursor}
    (h : program kind (ts.length + 2) ⟨ts, eof, lastId, bag⟩ = .ok m c) :
    Module.parse (ts ++ [eof]) kind lastId bag = .ok ⟨m, c.lastId, c.bag⟩ := by
  have hsteps : (ts ++ [eof]).length + 1 = ts.length + 2 := by simp
  unfold Module.parse
  rw [hsteps, List.getLast?_concat, List.dropLast_concat]
  simp [heof, h]

/-- Parsing tokens with their end marker never fails. -/
theorem parse_eq_ok (ts : List Token) (heof : eof.kind = .eof) (kind : ModuleKind)
    (lastId : Nat) (bag : Bag) :
    ∃ m c, program kind (ts.length + 2) ⟨ts, eof, lastId, bag⟩ = .ok m c ∧
      Module.parse (ts ++ [eof]) kind lastId bag = .ok ⟨m, c.lastId, c.bag⟩ := by
  obtain ⟨m, c, hrun⟩ := program_eq_ok (c := ⟨ts, eof, lastId, bag⟩) kind heof
    (Nat.lt_add_of_pos_right Nat.two_pos)
  exact ⟨m, c, hrun, parse_of_run heof hrun⟩

/-- Parsing only adds complaints and node numbers. -/
theorem parse_grows {tokens : List Token} {outcome : Module.Outcome}
    (h : Module.parse tokens kind lastId bag = .ok outcome) :
    bag.Grows outcome.bag ∧ lastId ≤ outcome.lastId := by
  unfold Module.parse at h
  split at h
  next => cases h
  next eof _ =>
    split at h
    · cases h
    · have hgrows := orderly_program kind (tokens.length + 1)
        ⟨tokens.dropLast, eof, lastId, bag⟩
      split at h
      next m c hrun =>
        cases h
        rw [hrun] at hgrows
        exact ⟨hgrows.grows, hgrows.lastId⟩
      next => cases h
      next => cases h

/-- If parsing adds no complaint, the tokens can be read as the module. -/
theorem readsModule_of_parse (heof : eof.kind = .eof) (hts : ∀ t ∈ ts, t.kind ≠ .eof)
    {outcome : Module.Outcome}
    (h : Module.parse (ts ++ [eof]) kind lastId bag = .ok outcome)
    (hbag : outcome.bag = bag) :
    ReadsModule kind lastId (ts ++ [eof]) outcome.module outcome.lastId := by
  obtain ⟨m, c, hrun, hparse⟩ := parse_eq_ok ts heof kind lastId bag
  rw [hparse] at h
  cases h
  have hend : c.eof = eof := by
    have horderly := orderly_program kind (ts.length + 2) ⟨ts, eof, lastId, bag⟩
    rw [hrun] at horderly
    exact horderly.eof
  have haccepts : Accepts eof bag (program kind (ts.length + 2)) lastId ts m c.lastId
      c.rest := by
    unfold Accepts
    rw [hrun]
    obtain ⟨rest, eof', last, bag'⟩ := c
    obtain rfl : eof' = eof := hend
    obtain rfl : bag' = bag := hbag
    rfl
  obtain ⟨body, htop, rfl⟩ := accepts_program.mp haccepts
  obtain ⟨_, hdecl⟩ := orderly_statement_declaration (ts.length + 2)
  obtain ⟨_, hsound⟩ := sound_statement_declaration heof (ts.length + 2)
  obtain ⟨hlast, body', vs, rfl, hsplit, hreads⟩ := sound_topLevel hdecl hsound _ htop
  have hrest : c.rest = [] := by
    cases hc : c.rest with
    | nil => rfl
    | cons t rest =>
        rw [hc] at hlast hsplit
        refine absurd hlast (hts t ?_)
        rw [hsplit]
        exact List.mem_append_right _ List.mem_cons_self
  rw [hrest, List.append_nil] at hsplit
  subst hsplit
  refine ⟨ts, eof, rfl, heof, by simpa using hreads, rfl, ?_⟩
  rw [hrest]
  rfl

/-- Tokens that can be read as a module are parsed as it without a complaint. -/
theorem parse_of_readsModule (bag : Bag) {tokens : List Token} {m : Module} {k : Nat}
    (h : ReadsModule kind lastId tokens m k) :
    Module.parse tokens kind lastId bag = .ok ⟨m, k, bag⟩ := by
  obtain ⟨ts, eof, rfl, heof, hreads, hkind, hspan⟩ := h
  have hlen : ts.length < ts.length + 2 := Nat.lt_add_of_pos_right Nat.two_pos
  have htop : Accepts eof bag (topLevel (declaration (ts.length + 2)) (ts.length + 2) [])
      lastId ts m.body k [] := accepts_topLevel_of_reads heof [] hreads hlen hlen
  have hmodule : m = ⟨kind, m.body, (ts.headD eof).range.join eof.range⟩ := by
    obtain ⟨kind', body, span⟩ := m
    obtain rfl : kind' = kind := hkind
    obtain rfl : span = _ := hspan
    rfl
  have haccepts : Accepts eof bag (program kind (ts.length + 2)) lastId ts m k [] :=
    accepts_program.mpr ⟨m.body, htop, hmodule⟩
  exact parse_of_run heof haccepts

end LoxMachine.Grammar
