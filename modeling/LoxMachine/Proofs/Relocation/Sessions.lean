import LoxMachine.Proofs.Relocation.Lockstep
import LoxMachine.Proofs.Relocation.Parsing
import LoxMachine.Proofs.Relocation.Scopes
import LoxMachine.Proofs.Session.Superclasses

/-!
# Sessions side by side

Two sessions that differ only by a relocation answer every request alike: the outcome is
the same, and so is what they write, although the nodes of what they compile are numbered
differently.
-/

namespace LoxMachine.Relocation

open Scope Store

/-- The second session has the store of the first inside its own, and the depths of the
first under moved node numbers; it will number nodes behind the gap. -/
structure Displaced (ρ : Relocation) (T T' : Array Event) (s s' : Session) : Prop where
  options : s'.options = s.options
  logging : s'.logging = s.logging
  start : ρ.ids.start ≤ s.lastId + 1
  lastId : s'.lastId = s.lastId + ρ.ids.width
  depths : ∀ id, s'.depths.depth? (ρ.ids.move id) = s.depths.depth? id
  globals : ρ.envs.move Session.globals = Session.globals
  store : Placed ρ s.store s'.store
  trace : Echoes T T' s.trace s'.trace

/-- Two outcomes of compiling the same text, one with its numbers moved. -/
inductive Compiles (ρ : Relocation) : Except Failure Compiled → Except Failure Compiled → Prop where
  | error {failure} : Compiles ρ (.error failure) (.error failure)
  | ok {c depths} (h : c.depths.Moved ρ.ids depths) :
      Compiles ρ (.ok c) (.ok ⟨c.module.renumber ρ.ids.move, depths⟩)

variable {ρ : Relocation} {T T' : Array Event} {s s' t t' : Session}

/-! ## Output -/

theorem Displaced.write (h : Displaced ρ T T' s s') (line : Bytes) :
    Displaced ρ T T' (s.write line) (s'.write line) :=
  { h with trace := h.trace.push (.line line) }

theorem Displaced.writeIf (h : Displaced ρ T T' s s') {wanted wanted' : Bool}
    (hwanted : wanted' = wanted) {line line' : Bytes} (hline : line' = line) :
    Displaced ρ T T' (s.writeIf wanted fun _ => line) (s'.writeIf wanted' fun _ => line') := by
  unfold Session.writeIf
  rw [hwanted, hline]
  split
  · exact h.write _
  · exact h

theorem Displaced.log (h : Displaced ρ T T' s s') (message : Bytes)
    (attributes : List (Bytes × Bytes)) :
    Displaced ρ T T' (s.log message attributes) (s'.log message attributes) := by
  unfold Session.log
  by_cases hlogging : s.logging = true
  · rw [if_pos hlogging, if_pos (h.logging.trans hlogging)]
    exact { h with trace := h.trace.push _ }
  · rw [if_neg hlogging, if_neg (h.logging ▸ hlogging)]
    exact h

/-- From now on what is written is compared. -/
theorem Displaced.rebase (h : Displaced ρ T T' s s') :
    Displaced ρ s.trace s'.trace s s' :=
  { h with trace := echoes_refl _ _ }

/-! ## Compiling -/

theorem Displaced.compile (h : Displaced ρ T T' s s') (src : Source) (kind : ModuleKind) :
    Compiles ρ (s.compile src kind).1 (s'.compile src kind).1 ∧
      Displaced ρ T T' (s.compile src kind).2 (s'.compile src kind).2 := by
  unfold Session.compile
  dsimp only
  have hfirst : Displaced ρ T T'
      (s.writeIf s.options.printTokens fun _ => Token.dump (Token.scan src).1)
      (s'.writeIf s'.options.printTokens fun _ => Token.dump (Token.scan src).1) :=
    h.writeIf (congrArg Options.printTokens h.options) rfl
  generalize s.writeIf s.options.printTokens (fun _ => Token.dump (Token.scan src).1) = s₁
    at hfirst ⊢
  generalize s'.writeIf s'.options.printTokens (fun _ => Token.dump (Token.scan src).1) = s₁'
    at hfirst ⊢
  split
  · exact ⟨.error, hfirst⟩
  · rw [hfirst.lastId, Module.parse_behind ρ.ids _ _ hfirst.start]
    cases hparse : Module.parse (Token.scan src).1 kind s₁.lastId (Token.scan src).2 with
    | error reason => exact ⟨.error, hfirst⟩
    | ok parsed =>
        have hbody : (parsed.module.renumber ρ.ids.move).body.isEmpty =
            parsed.module.body.isEmpty := by
          rw [Module.renumber, Stmt.renumberAll_eq_map, List.isEmpty_map]
        have hlength : (parsed.module.renumber ρ.ids.move).body.length =
            parsed.module.body.length := by
          rw [Module.renumber, Stmt.renumberAll_eq_map, List.length_map]
        obtain ⟨hmoved, hbag⟩ := resolve_renumber ρ.ids parsed.module parsed.bag
        -- The parse gave out numbers beyond the gap only, so the gap is where it was.
        have hparsed : Displaced ρ T T' { s₁ with lastId := parsed.lastId }
            { s₁' with lastId := parsed.lastId + ρ.ids.width } :=
          { hfirst with
            start := Nat.le_trans hfirst.start (Nat.succ_le_succ (Grammar.parse_grows hparse).2)
            lastId := rfl }
        simp only [Except.map, Module.Outcome.renumber, hbody, hlength, hbag, hmoved.size_eq]
        have htree : Displaced ρ T T'
            (({ s₁ with lastId := parsed.lastId } : Session).writeIf
              (s₁.options.printTree && !parsed.module.body.isEmpty) fun _ => parsed.module.dump)
            (({ s₁' with lastId := parsed.lastId + ρ.ids.width } : Session).writeIf
              (s₁'.options.printTree && !parsed.module.body.isEmpty)
              fun _ => (parsed.module.renumber ρ.ids.move).dump) :=
          hparsed.writeIf (by rw [hfirst.options]) (parsed.module.dump_renumber _)
        generalize ({ s₁ with lastId := parsed.lastId } : Session).writeIf _ _ = s₂ at htree ⊢
        generalize Session.writeIf _ _ (fun _ => (parsed.module.renumber ρ.ids.move).dump) = s₂'
          at htree ⊢
        split
        · exact ⟨.error, htree⟩
        · have hlocals := htree.writeIf
            (congrArg (·.printLocals && (resolve parsed.module parsed.bag).1.size != 0)
              htree.options) hmoved.text_eq
          split
          · exact ⟨.error, hlocals⟩
          · exact ⟨.ok hmoved, hlocals.log _ _⟩

/-! ## Running -/

variable {runs : List Run}

theorem Displaced.prepare (h : Displaced ρ T T' s s') (src : Source) {c : Compiled}
    {depths : Depths} (hmoved : c.depths.Moved ρ.ids depths) :
    Displaced ρ T T' (s.prepare src c)
      (s'.prepare src ⟨c.module.renumber ρ.ids.move, depths⟩) := by
  have hdepths : ∀ id, (s'.depths.merge depths).depth? (ρ.ids.move id) =
      (s.depths.merge c.depths).depth? id := by
    intro id
    rw [Depths.depth?_merge, Depths.depth?_merge, hmoved.depth?, h.depths]
  have hmerged : Displaced ρ T T' { s with depths := s.depths.merge c.depths }
      { s' with depths := s'.depths.merge depths } := { h with depths := hdepths }
  exact hmerged.log _ _

/-- The machines start side by side. -/
theorem Displaced.beside (h : Displaced ρ T T' s s') (m : Module) :
    Beside ρ T T' (s.start m) (s'.start (m.renumber ρ.ids.move)) ∧
      (s'.start (m.renumber ρ.ids.move)).control = (s.start m).control.relocate ρ := by
  by_cases hkind : m.kind.isolated = true
  · have hplaced := h.store.newEnv (some Session.globals) Bindings.empty
    rw [Option.map_some, h.globals] at hplaced
    rw [s.start_of_isolated hkind, Session.start_of_isolated s' (m := m.renumber ρ.ids.move) hkind]
    exact ⟨⟨h.store.move_size.symm, rfl, rfl, hplaced, h.trace⟩, rfl⟩
  · rw [s.start_of_shared hkind, Session.start_of_shared s' (m := m.renumber ρ.ids.move) hkind]
    exact ⟨⟨h.globals.symm, rfl, rfl, h.store, h.trace⟩, rfl⟩

theorem Displaced.finish (h : Displaced ρ T T' s s') (src : Source) (ending : Option Ending)
    {final final' : State} (hstore : Placed ρ final.store final'.store)
    (htrace : Echoes T T' final.trace final'.trace) :
    (s'.finish src ending final').1 = (s.finish src ending final).1 ∧
      Displaced ρ T T' (s.finish src ending final).2 (s'.finish src ending final').2 := by
  have hleft : Displaced ρ T T' { s with store := final.store, trace := final.trace }
      { s' with store := final'.store, trace := final'.trace } :=
    { h with store := hstore, trace := htrace }
  unfold Session.finish
  dsimp only
  split
  · exact ⟨rfl, hleft.log _ _⟩
  · exact ⟨rfl, hleft.log _ _⟩
  · exact ⟨rfl, hleft⟩
  · exact ⟨rfl, hleft⟩

/-- Displaced sessions evaluate a text alike. -/
theorem Displaced.eval (h : Displaced ρ T T' s s') (hc : s.Coherent runs)
    (hd : s.store.Descended runs) (fuel : Nat) (src : Source) (kind : ModuleKind) :
    (s'.eval fuel src kind).1 = (s.eval fuel src kind).1 ∧
      Displaced ρ T T' (s.eval fuel src kind).2 (s'.eval fuel src kind).2 := by
  obtain ⟨hcompiles, hcompiled⟩ := h.compile src kind
  unfold Session.eval
  cases hfirst : s.compile src kind with
  | mk outcome t =>
      cases hsecond : s'.compile src kind with
      | mk outcome' t' =>
          rw [hfirst, hsecond] at hcompiles hcompiled
          cases hcompiles with
          | error => exact ⟨rfl, hcompiled⟩
          | @ok c depths hmoved =>
              have hprepared := hcompiled.prepare src hmoved
              obtain ⟨hbeside, hcontrol⟩ := hprepared.beside c.module
              have hset : Settings ρ (t.prepare src c).setting
                  (t'.prepare src ⟨c.module.renumber ρ.ids.move, depths⟩).setting :=
                ⟨hprepared.depths, hprepared.options, hprepared.logging⟩
              obtain ⟨hcoherent, W, hvalid⟩ := hc.launch hfirst
              obtain ⟨hdescended, horderly⟩ := Session.orderly_of_compile hd hfirst
              obtain ⟨hending, hstore, htrace⟩ := hbeside.run hcontrol hset hdescended.known
                hcoherent.sites fuel hvalid horderly
              dsimp only
              rw [hending]
              exact hprepared.finish src _ hstore htrace

theorem Displaced.runSource (h : Displaced ρ T T' s s') (hc : s.Coherent runs)
    (hd : s.store.Descended runs) (fuel : Nat) (src : Source) (kind : ModuleKind) :
    (s'.runSource fuel src kind).1 = (s.runSource fuel src kind).1 ∧
      Displaced ρ T T' (s.runSource fuel src kind).2 (s'.runSource fuel src kind).2 := by
  obtain ⟨houtcome, hevaluated⟩ := h.eval hc hd fuel src kind
  unfold Session.runSource
  generalize s.eval fuel src kind = result at houtcome hevaluated
  generalize s'.eval fuel src kind = result' at houtcome hevaluated
  obtain ⟨outcome, t⟩ := result
  obtain ⟨outcome', t'⟩ := result'
  dsimp only at houtcome
  subst houtcome
  cases outcome' with
  | ok _ => exact ⟨rfl, hevaluated⟩
  | error failure => exact ⟨rfl, hevaluated.write _⟩

/-- Displaced sessions answer a request alike. -/
theorem Displaced.perform (h : Displaced ρ T T' s s') (hc : s.Coherent runs)
    (hd : s.store.Descended runs) (fuel : Nat) (request : Request) :
    (s'.perform fuel request).1 = (s.perform fuel request).1 ∧
      Displaced ρ T T' (s.perform fuel request).2 (s'.perform fuel request).2 := by
  cases request with
  | line text => exact h.runSource hc hd fuel _ _
  | eval src kind => exact h.eval hc hd fuel src kind
  | run src kind => exact h.runSource hc hd fuel src kind
  | file host uri =>
      simp only [Session.perform, Session.runFile]
      cases host.read uri with
      | ok src => exact h.runSource hc hd fuel src _
      | error message => exact ⟨rfl, h.write _⟩

end LoxMachine.Relocation
