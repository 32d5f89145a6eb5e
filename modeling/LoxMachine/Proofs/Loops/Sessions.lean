import LoxMachine.Proofs.Loops.Lockstep
import LoxMachine.Proofs.Grammar.Excerpts
import LoxMachine.Proofs.Session.Leniency

/-!
# Sessions without environments for rounds

A session can run what it compiles on the direct machine, with the depths of the direct pass.  It
gives the same answers as ever, and wherever the one machine is in a text, so is the other.
-/

namespace LoxMachine

open Scope Store Folding

namespace Session

/-! ## The direct session -/

/-- Compiles a text as ever, and runs it directly, for at most `fuel` steps. -/
def evalDirectly (s : Session) (fuel : Nat) (src : Source) (kind : ModuleKind) :
    Except Failure Unit × Session :=
  match s.compile src kind with
  | (.error failure, s) => (.error failure, s)
  | (.ok compiled, s) =>
      let s := s.prepare src ⟨compiled.module, resolveDirectly compiled.module⟩
      let (ending, final) := runDirectly s.setting fuel (s.start compiled.module)
      s.finish src ending final

def runSourceDirectly (s : Session) (fuel : Nat) (src : Source) (kind : ModuleKind) :
    Except Failure Unit × Session :=
  match s.evalDirectly fuel src kind with
  | (.ok (), s) => (.ok (), s)
  | (.error failure, s) => (.error failure, s.report failure)

def performDirectly (s : Session) (fuel : Nat) : Request → Except Failure Unit × Session
  | .line text => s.runSourceDirectly fuel (Source.ofSnippet text) .replLine
  | .file host uri =>
      match host.read uri with
      | .ok src => s.runSourceDirectly fuel src .sourceFile
      | .error message => (.error (.outside message), s.write message)
  | .eval src kind => s.evalDirectly fuel src kind
  | .run src kind => s.runSourceDirectly fuel src kind

/-- The session after some requests that were all run directly. -/
def afterDirectly (s : Session) : List (Request × Nat) → Session
  | [] => s
  | (request, fuel) :: history => (s.performDirectly fuel request).2.afterDirectly history

/-- The direct machine on a text that compiles, after `fuel` steps, if it has not stopped. -/
def momentDirectly (s : Session) (fuel : Nat) (src : Source) (kind : ModuleKind) :
    Option (Setting × State) :=
  match s.compile src kind with
  | (.ok c, t) =>
      let p := t.prepare src ⟨c.module, resolveDirectly c.module⟩
      match runDirectly p.setting fuel (p.start c.module) with
      | (none, state) => some (p.setting, state)
      | (some _, _) => none
  | (.error _, _) => none

/-! ## Other depths and another store -/

/-- The session with other depths and another store. -/
def holding (s : Session) (D : Depths) (st : Store) : Session :=
  { s with depths := D, store := st }

variable {s t : Session} {runs : List Run} {D : Depths} {st : Store} {φ : Folding} {src : Source}
  {kind : ModuleKind} {c : Compiled}

theorem writeIf_holding (s : Session) (D : Depths) (st : Store) (wanted : Bool)
    (line : Unit → Bytes) :
    (s.holding D st).writeIf wanted line = (s.writeIf wanted line).holding D st := by
  unfold writeIf
  split <;> rfl

theorem log_holding (s : Session) (D : Depths) (st : Store) (message : Bytes)
    (attributes : List (Bytes × Bytes)) :
    (s.holding D st).log message attributes = (s.log message attributes).holding D st := by
  unfold log holding
  dsimp only
  split <;> rfl

/-- Compiling has nothing to do with depths and stores. -/
theorem compile_holding (s : Session) (D : Depths) (st : Store) (src : Source)
    (kind : ModuleKind) :
    (s.holding D st).compile src kind =
      ((s.compile src kind).1, (s.compile src kind).2.holding D st) := by
  have hlast : ∀ (s : Session) lastId,
      ({ s.holding D st with lastId := lastId } : Session) =
        ({ s with lastId := lastId } : Session).holding D st := fun _ _ => rfl
  have hdumps : ∀ s : Session,
      (s.holding D st).options.printTokens = s.options.printTokens ∧
      (s.holding D st).options.printTree = s.options.printTree ∧
      (s.holding D st).options.printLocals = s.options.printLocals := fun _ => ⟨rfl, rfl, rfl⟩
  have hid : ∀ s : Session, (s.holding D st).lastId = s.lastId := fun _ => rfl
  unfold compile
  simp only [hdumps, writeIf_holding, hlast, hid, log_holding]
  split
  · rfl
  · split
    · rfl
    · split
      · rfl
      · split <;> rfl

theorem prepare_holding (s : Session) (D E : Depths) (st : Store) (src : Source) (c : Compiled) :
    (s.holding D st).prepare src ⟨c.module, E⟩ = (s.prepare src c).holding (D.merge E) st :=
  log_holding { s with depths := s.depths.merge c.depths } (D.merge E) st _ _

theorem finish_holding (s : Session) (D : Depths) (st : Store) (src : Source)
    (ending : Option Ending) {final final' : State} (htrace : final'.trace = final.trace) :
    (s.holding D st).finish src ending final' =
      ((s.finish src ending final).1, (s.finish src ending final).2.holding D final'.store) := by
  have hfinal : ({ s.holding D st with
      store := final'.store, trace := final'.trace } : Session) =
        ({ s with store := final.store, trace := final.trace } : Session).holding D final'.store := by
    rw [htrace]
    rfl
  unfold finish
  simp only [hfinal, log_holding]
  split <;> rfl

/-! ## Mirrored sessions -/

/-- The mark of something that was compiled: its number is an old one, and both tables of depths
treat it alike. -/
structure Known (D D' : Depths) (n : Nat) (mark : Mark) : Prop where
  fits : mark.Fits D D'
  old : ∀ id ∈ markIds [mark], id ≤ n

/-- These depths and this store serve the direct session as its own serve the session. -/
structure Mirrored (φ : Folding) (s : Session) (D : Depths) (st : Store) : Prop where
  store : Store.Folded φ s.store st
  marked : Marked (Known s.depths D s.lastId) φ s.store
  unused : ∀ id, s.lastId < id → D.depth? id = none

theorem Known.mono {D' : Depths} {n n' : Nat} {mark : Mark} (h : Known D D' n mark)
    (hle : n ≤ n') : Known D D' n' mark :=
  ⟨h.fits, fun id hid => Nat.le_trans (h.old id hid) hle⟩

theorem Mirrored.quiet (h : Mirrored φ s D st) (hquiet : s.Quiet t) : Mirrored φ t D st where
  store := hquiet.store ▸ h.store
  marked := by
    rw [hquiet.store, hquiet.depths]
    exact h.marked.weaken fun mark hmark => hmark.mono hquiet.lastId
  unused id hid := h.unused id (Nat.lt_of_le_of_lt hquiet.lastId hid)

theorem setting_of_mirrored (p : Session) (D : Depths) (st : Store) {n : Nat} :
    Settings (Known p.depths D n) p.setting (p.holding D st).setting where
  depths _ _ hknown := hknown.fits
  bare _ hknown := hknown.fits
  options := rfl
  logging := rfl

/-! ## New modules -/

/-- The module of a text that compiles is tidy. -/
theorem tidy_of_compile (h : s.compile src kind = (.ok c, t)) : Stmt.TidyAll c.module.body := by
  obtain ⟨us, eof, hsplit, _, hreads, _⟩ := readsModule_of_compile h
  obtain ⟨rfl, _⟩ := List.append_inj' (hsplit.symm.trans (Token.scan_tokens_eq src)) rfl
  exact hreads.tidy (Token.munched_scan src).inOrder

/-- The depths of a new module go well with all that is known. -/
theorem Coherent.prepare_mirrored (hc : s.Coherent runs) (h : Mirrored φ s D st)
    (hcompile : s.compile src kind = (.ok c, t)) :
    Mirrored φ (t.prepare src c) (D.merge (resolveDirectly c.module)) st ∧
      ∀ mark ∈ moduleMarks c.module, Known (t.prepare src c).depths
        (D.merge (resolveDirectly c.module)) (t.prepare src c).lastId mark := by
  obtain ⟨hquiet, hresolves⟩ := s.compile_spec src kind
  rw [hcompile] at hquiet hresolves
  dsimp only at hquiet hresolves
  obtain ⟨bag, hdepths, _⟩ := hresolves.resolved
  obtain ⟨hfits, hothers⟩ := resolveDirectly_fits bag (tidy_of_compile hcompile)
    hresolves.numbered.nodup
  rw [← hdepths] at hfits hothers
  have hmerge := Depths.depth?_merge s.depths c.depths
  have hmerge' := Depths.depth?_merge D (resolveDirectly c.module)
  have hnew : ∀ id, id ≤ s.lastId ∨ t.lastId < id → id ∉ siteIds (moduleSites c.module) := by
    intro id hid hmem
    obtain ⟨hlow, hhigh⟩ := hresolves.numbered.range id hmem
    omega
  have hmem : ∀ {mark id}, mark ∈ moduleMarks c.module → id ∈ markIds [mark] →
      id ∈ siteIds (moduleSites c.module) := by
    intro mark id hmark hid
    rw [← markIds_module]
    exact ((List.singleton_sublist.mpr hmark).filterMap _).subset hid
  have hstore := (prepare_store t src c).trans hquiet.store
  have hprepared : (t.prepare src c).depths = s.depths.merge c.depths := by
    rw [prepare_depths, hquiet.depths]
  rw [hprepared, lastId_prepare]
  refine ⟨⟨hstore ▸ h.store, ?_, fun id hid => ?_⟩, fun mark hmark => ⟨?_, fun id hid => ?_⟩⟩
  · -- The old nodes are not among the new ones.
    rw [hstore, hprepared, lastId_prepare]
    refine h.marked.weaken fun mark hmark => ?_
    have hold : ∀ id ∈ markIds [mark], id ∉ siteIds (moduleSites c.module) := fun id hid =>
      hnew id (.inl (hmark.old id hid))
    refine Known.mono ⟨hmark.fits.congr (fun id hid => ?_) (fun id hid => ?_), hmark.old⟩
      hquiet.lastId
    · rw [hmerge, (hothers id (hold id hid)).1, Option.none_or]
    · rw [hmerge', (hothers id (hold id hid)).2, Option.none_or]
  · rw [lastId_prepare] at hid
    rw [hmerge', (hothers id (hnew id (.inr hid))).2, h.unused id (Nat.lt_of_le_of_lt hquiet.lastId hid)]
    rfl
  · -- The new nodes were not in the tables before.
    have hids : ∀ id ∈ markIds [mark], s.lastId < id := fun id hid =>
      (hresolves.numbered.range id (hmem hmark hid)).1
    refine (hfits mark hmark).congr (fun id hid => ?_) (fun id hid => ?_)
    · rw [hmerge, hc.unused id (hids id hid), Option.or_none]
    · rw [hmerge', h.unused id (hids id hid), Option.or_none]
  · exact (hresolves.numbered.range id (hmem hmark hid)).2

/-- Both machines start on a module alongside each other. -/
theorem Mirrored.start (h : Mirrored φ s D st) {m : Module}
    (hm : ∀ mark ∈ moduleMarks m, Known s.depths D s.lastId mark) :
    ∃ φ', Alongside (Known s.depths D s.lastId) φ' (s.start m) ((s.holding D st).start m) := by
  have hnests : Nests φ s.store globals [] := .outermost h.store.nonempty h.store.globals.1
  have hnothing : Suits (Known s.depths D s.lastId) φ s.store globals fun _ => [] :=
    ⟨[], hnests, List.forall_mem_nil _⟩
  have hglobals : Alongside (Known s.depths D s.lastId) φ ⟨.done, [], globals, 0, s.store, s.trace⟩
      ⟨.done, [], globals, 0, st, s.trace⟩ :=
    ⟨⟨h.store.globals.2.symm, rfl, rfl, h.store, rfl⟩, h.marked, hnothing⟩
  unfold moduleMarks at hm
  by_cases hkind : m.kind.isolated = true
  · rw [s.start_of_isolated hkind, (s.holding D st).start_of_isolated hkind]
    rw [if_pos hkind] at hm
    have hbody : Suits (Known s.depths D s.lastId) φ s.store globals fun g =>
        bodyMarks (false :: g) m.body := ⟨[], hnests, hm⟩
    have hcode := hbody.newEnv (fun g => bodyMarks g m.body) Bindings.empty st.envs.size
    have hmade := hglobals.newEnv hnests.lt Bindings.empty
    rw [h.store.globals.2] at hmade
    refine ⟨_, ⟨⟨(extend_place_self ..).symm, rfl, rfl, hmade.store, rfl⟩, hmade.marked,
      hcode, List.forall_mem_nil _, hcode.nothing⟩⟩
  · rw [s.start_of_shared hkind, (s.holding D st).start_of_shared hkind]
    rw [if_neg hkind] at hm
    exact ⟨φ, hglobals.push (.program m.body) rfl ⟨[], hnests, hm⟩⟩

/-- Both machines run a new module alongside each other. -/
theorem Coherent.run_mirrored (hc : s.Coherent runs) (h : Mirrored φ s D st)
    (hcompile : s.compile src kind = (.ok c, t)) (fuel : Nat) :
    let p := t.prepare src c
    let p' := p.holding (D.merge (resolveDirectly c.module)) st
    let r := LoxMachine.run p.setting fuel (p.start c.module)
    let r' := runDirectly p'.setting fuel (p'.start c.module)
    r'.1 = r.1 ∧ r'.2.control = r.2.control ∧
      ∃ φ', Alongside (Known p.depths p'.depths p.lastId) φ' r.2 r'.2 ∧
        (r.1 = none → Suits (Known p.depths p'.depths p.lastId) φ' r.2.store r.2.env
          r.2.control.marks) := by
  intro p p' r r'
  obtain ⟨hprepared, hmarks⟩ := hc.prepare_mirrored h hcompile
  obtain ⟨hcoherent, W, hvalid⟩ := hc.launch hcompile
  obtain ⟨φ', hstart⟩ := hprepared.start hmarks
  exact hstart.run rfl hstart.here (setting_of_mirrored p p'.depths st) hcoherent.sites fuel hvalid

/-! ## Requests -/

/-- The direct session comes to the same. -/
def Follows (p p' : Except Failure Unit × Session) : Prop :=
  ∃ φ D st, p' = (p.1, p.2.holding D st) ∧ Mirrored φ p.2 D st

theorem Coherent.eval_mirrored (hc : s.Coherent runs) (h : Mirrored φ s D st) (fuel : Nat)
    (src : Source) (kind : ModuleKind) :
    Follows (s.eval fuel src kind) ((s.holding D st).evalDirectly fuel src kind) := by
  have hquiet := (s.compile_spec src kind).1
  unfold Session.eval evalDirectly
  rw [compile_holding]
  cases hcompile : s.compile src kind with
  | mk outcome t =>
      rw [hcompile] at hquiet
      cases outcome with
      | error failure => exact ⟨φ, D, st, rfl, h.quiet hquiet⟩
      | ok c =>
          obtain ⟨hending, _, φ', hfinal, _⟩ := hc.run_mirrored h hcompile fuel
          obtain ⟨hprepared, _⟩ := hc.prepare_mirrored h hcompile
          dsimp only at hending hfinal ⊢
          rw [prepare_holding]
          generalize t.prepare src c = p at hending hfinal hprepared ⊢
          generalize D.merge (resolveDirectly c.module) = E at hending hfinal hprepared ⊢
          generalize LoxMachine.run p.setting fuel (p.start c.module) = r at hending hfinal ⊢
          generalize runDirectly (p.holding E st).setting fuel ((p.holding E st).start c.module) =
            r' at hending hfinal ⊢
          obtain ⟨ending, final⟩ := r
          obtain ⟨ending', final'⟩ := r'
          obtain rfl : ending' = ending := hending
          refine ⟨φ', E, final'.store, finish_holding p E st src ending' hfinal.trace, ?_⟩
          have hleft : Mirrored φ' { p with store := final.store, trace := final.trace } E
              final'.store := ⟨hfinal.store, hfinal.marked, hprepared.unused⟩
          exact hleft.quiet (quiet_finish p src ending' final)

theorem Coherent.runSource_mirrored (hc : s.Coherent runs) (h : Mirrored φ s D st) (fuel : Nat)
    (src : Source) (kind : ModuleKind) :
    Follows (s.runSource fuel src kind) ((s.holding D st).runSourceDirectly fuel src kind) := by
  obtain ⟨φ', D', st', heval, hmirrored⟩ := hc.eval_mirrored h fuel src kind
  unfold Session.runSource runSourceDirectly
  rw [heval]
  generalize s.eval fuel src kind = r at hmirrored ⊢
  obtain ⟨outcome, t⟩ := r
  cases outcome with
  | ok _ => exact ⟨φ', D', st', rfl, hmirrored⟩
  | error failure => exact ⟨φ', D', st', rfl, hmirrored.quiet (quiet_write t _)⟩

theorem Coherent.perform_mirrored (hc : s.Coherent runs) (h : Mirrored φ s D st) (fuel : Nat)
    (request : Request) :
    Follows (s.perform fuel request) ((s.holding D st).performDirectly fuel request) := by
  cases request with
  | line text => exact hc.runSource_mirrored h fuel _ _
  | eval src kind => exact hc.eval_mirrored h fuel src kind
  | run src kind => exact hc.runSource_mirrored h fuel src kind
  | file host uri =>
      unfold Session.perform performDirectly runFile
      dsimp only
      cases host.read uri with
      | ok src => exact hc.runSource_mirrored h fuel src .sourceFile
      | error message => exact ⟨φ, D, st, rfl, h.quiet (quiet_write s message)⟩

/-! ## Histories -/

theorem Coherent.after_mirrored (hc : s.Coherent runs) (h : Mirrored φ s D st)
    (history : List (Request × Nat)) :
    ∃ φ' D' st', (s.holding D st).afterDirectly history = (s.after history).holding D' st' ∧
      Mirrored φ' (s.after history) D' st' := by
  induction history generalizing s runs φ D st with
  | nil => exact ⟨φ, D, st, rfl, h⟩
  | cons step history ih =>
      obtain ⟨request, fuel⟩ := step
      obtain ⟨φ', D', st', hperform, hmirrored⟩ := hc.perform_mirrored h fuel request
      obtain ⟨_, _, hcoherent⟩ := hc.perform fuel request
      rw [afterDirectly, Session.after, hperform]
      exact ih hcoherent hmirrored

/-- A new session mirrors itself. -/
theorem mirrored_new (options : Options) (logging : Bool) (clock : Clock) :
    Mirrored ⟨fun o => o, fun _ => false⟩ (new options logging clock) Depths.empty
      (initialStore clock) := by
  have hparent : ∀ o p, (initialStore clock).parent? o ≠ some p := by
    intro o p
    cases o <;> exact nofun
  refine ⟨?_, ⟨fun c hc => ?_, fun k hk => ?_⟩, fun id _ => depth?_empty id⟩
  · exact {
      nonempty := Nat.one_pos
      globals := ⟨rfl, rfl⟩
      parent := fun o _ _ => Option.map_id'.symm
      vars := fun _ _ _ _ => rfl
      round := fun _ _ hidle => nomatch hidle
      lt := fun _ ho => ho
      unique := fun _ _ _ _ _ _ heq => heq
      whole := fun o ho => ⟨o, ho, rfl, rfl⟩
      older := fun o p hp => absurd hp (hparent o p)
      older' := fun o p hp => absurd hp (hparent o p)
      functions := Array.map_empty.symm
      classes := Array.map_empty.symm
      instances := rfl
      natives := rfl
      clock := rfl }
  · cases Array.not_mem_empty c hc
  · cases Array.not_mem_empty k hk

/-- Where the machine is in a text, there the direct machine is as well. -/
theorem Coherent.moment_mirrored (hc : s.Coherent runs) (h : Mirrored φ s D st) {fuel : Nat}
    {set : Setting} {state : State} (hmoment : s.moment fuel src kind = some (set, state)) :
    ∃ K set' state' φ', (s.holding D st).momentDirectly fuel src kind = some (set', state') ∧
      Settings K set set' ∧ Alongside K φ' state state' ∧ state'.control = state.control ∧
      Suits K φ' state.store state.env state.control.marks := by
  unfold Session.moment at hmoment
  unfold momentDirectly
  rw [compile_holding]
  cases hcompile : s.compile src kind with
  | mk outcome t =>
      rw [hcompile] at hmoment
      cases outcome with
      | error failure => cases hmoment
      | ok c =>
          obtain ⟨hending, hcontrol, φ', hstate, hcode⟩ := hc.run_mirrored h hcompile fuel
          dsimp only at hmoment hending hcontrol hstate hcode ⊢
          rw [prepare_holding]
          generalize t.prepare src c = p at hmoment hending hcontrol hstate hcode ⊢
          generalize D.merge (resolveDirectly c.module) = E at hending hcontrol hstate hcode ⊢
          have hset := setting_of_mirrored p E st (n := p.lastId)
          generalize LoxMachine.run p.setting fuel (p.start c.module) = r at *
          generalize runDirectly (p.holding E st).setting fuel ((p.holding E st).start c.module) =
            r' at hending hcontrol hstate hcode ⊢
          obtain ⟨ending, final⟩ := r
          obtain ⟨ending', final'⟩ := r'
          obtain rfl : ending' = ending := hending
          cases ending' with
          | some => cases hmoment
          | none =>
              cases hmoment
              exact ⟨_, _, final', φ', rfl, hset, hstate, hcontrol, hcode rfl⟩

end Session

end LoxMachine
