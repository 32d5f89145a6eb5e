import LoxMachine.Proofs.Machine.Blame
import LoxMachine.Proofs.Parser.Located
import LoxMachine.Proofs.Scope.Located
import LoxMachine.Proofs.Session.Failing
import LoxMachine.Proofs.Session.Globals
import LoxMachine.Proofs.Session.Owners
import LoxMachine.Proofs.Token.Coverage

/-!
# Where diagnostics and errors point

Every diagnostic of a text points into that text.  An error of a run is blamed on a node of
a text that the session has compiled, the running one or an earlier one, and points into the
text in which that node was written.
-/

namespace LoxMachine

open Scope Store

/-! ## Compiling -/

variable {src : Source}

theorem Token.within_scan (src : Source) : (scan src).2.Within src := by
  have hmunched := munched_scan src
  intro d hd
  exact (hmunched.proper _ (List.mem_append_right _
    (List.mem_map_of_mem (Array.mem_toList_iff.mpr hd)))).within

/-- The tree of a scanned text is located in it, and complaints point into it. -/
theorem Module.located_of_scan {kind : ModuleKind} {lastId : Nat} {parsed : Outcome}
    (h : parse (Token.scan src).1 kind lastId (Token.scan src).2 = .ok parsed) :
    (∀ s ∈ parsed.module.body, s.Located src) ∧ parsed.bag.Within src := by
  have hmunched := Token.munched_scan src
  rw [Token.scan_tokens_eq] at h
  refine located_of_parse (fun t ht => ?_) ⟨rfl, Nat.le_refl _, Nat.le_refl _⟩
    (Token.within_scan src) h
  exact hmunched.proper _ (List.mem_append_left _ (List.mem_map_of_mem ht))

/-- A text that was compiled, with its module. -/
structure Compilation where
  source : Source
  module : Module

/-- The nodes of the modules that were compiled. -/
def Compilation.Wrote (cs : List Compilation) (n : TreeNode) : Prop :=
  ∃ c ∈ cs, c.module.Has n

/-- The error is blamed on a node of a compiled module, and points into the text in which the
node was written. -/
def Compilation.Explains (cs : List Compilation) (n : TreeNode) (e : RuntimeError) : Prop :=
  ∃ c ∈ cs, c.module.Has n ∧ e.range = n.blamed ∧ e.range.Proper c.source

theorem Compilation.closed_wrote (cs : List Compilation) : TreeNode.Closed (Wrote cs) := by
  rintro n ⟨c, hc, hn⟩ child hchild
  exact ⟨c, hc, .inner hn hchild⟩

namespace Session

/-- A text with its module, if it compiles. -/
def compilation (s : Session) (src : Source) (kind : ModuleKind) : List Compilation :=
  match s.compile src kind with
  | (.ok c, _) => [⟨src, c.module⟩]
  | (.error _, _) => []

/-- The texts of some requests that compile, the latest first. -/
def compilations (s : Session) : List (Request × Nat) → List Compilation
  | [] => []
  | (request, fuel) :: history =>
      (s.perform fuel request).2.compilations history ++
        match request.text? with
        | some (src, kind) => s.compilation src kind
        | none => []

variable {s t : Session} {cs : List Compilation} {kind : ModuleKind} {fuel : Nat}

theorem within_compile {bag : Bag}
    (h : s.compile src kind = (.error (.compile bag), t)) : bag.Within src := by
  unfold compile at h
  dsimp only at h
  split at h
  next =>
    cases h
    exact Token.within_scan src
  next =>
    split at h
    next => cases h
    next parsed hparse =>
      obtain ⟨hbody, hbag⟩ := Module.located_of_scan hparse
      split at h
      next =>
        cases h
        exact hbag
      next =>
        split at h
        next =>
          cases h
          exact within_resolve hbody hbag
        next => cases h

theorem failed_of_finish {ending : Option Ending} {final : State} {e : RuntimeError}
    (h : (s.finish src ending final).1 = .error (.runtime e)) : ending = some (.failed e) := by
  unfold finish at h
  dsimp only at h
  split at h
  next => cases h
  next =>
    cases h
    rfl
  next => cases h
  next => cases h

theorem within_eval {bag : Bag} (h : (s.eval fuel src kind).1 = .error (.compile bag)) :
    bag.Within src := by
  unfold Session.eval at h
  cases hcompile : s.compile src kind with
  | mk outcome t =>
      rw [hcompile] at h
      cases outcome with
      | error failure =>
          cases h
          exact within_compile hcompile
      | ok c => exact absurd h (finish_ne_compile _ _ _ _ bag)

theorem located_of_compile {c : Compiled} (h : s.compile src kind = (.ok c, t)) :
    ∀ stmt ∈ c.module.body, stmt.Located src :=
  (Module.located_of_scan (parse_of_compile h).2.1).1

/-! ## Sessions that run what they have compiled -/

/-- All code of the session was written in compiled texts, each of which its module is
located in. -/
structure Traced (s : Session) (cs : List Compilation) : Prop where
  store : s.store.Stems (Compilation.Wrote cs)
  located : ∀ c ∈ cs, ∀ stmt ∈ c.module.body, stmt.Located c.source

theorem traced_new (options : Options) (logging : Bool) (clock : Clock) :
    (new options logging clock).Traced [] :=
  ⟨⟨nofun, nofun⟩, nofun⟩

/-- An error that is blamed on a node points into the text in which the node was written. -/
theorem Traced.explains (h : s.Traced cs) {n : TreeNode} {e : RuntimeError}
    (hn : Compilation.Wrote cs n) (he : e.range = n.blamed) : Compilation.Explains cs n e := by
  obtain ⟨c, hc, hhas⟩ := hn
  have hlocated : n.Located c.source :=
    hhas.closed (TreeNode.closed_located c.source) (h.located c hc)
  exact ⟨c, hc, hhas, he, he ▸ hlocated.blamed⟩

/-- A text that compiles is one more text whose code the session may run. -/
theorem Traced.compile (h : s.Traced cs) {c : Compiled}
    (hcompile : s.compile src kind = (.ok c, t)) :
    (t.prepare src c).Traced (⟨src, c.module⟩ :: cs) where
  store := by
    have hquiet := (s.compile_spec src kind).1
    rw [hcompile] at hquiet
    rw [prepare_store, hquiet.store]
    exact h.store.weaken fun n ⟨c, hc, hn⟩ => ⟨c, List.mem_cons_of_mem _ hc, hn⟩
  located := List.forall_mem_cons.mpr ⟨located_of_compile hcompile, h.located⟩

theorem Traced.start (h : s.Traced cs) {m : Module}
    (hm : ∀ stmt ∈ m.body, Compilation.Wrote cs (.stmt stmt)) :
    (s.start m).Stems (Compilation.Wrote cs) (·.Blames (Compilation.Wrote cs)) ∧
      (s.start m).store.Stems (Compilation.Wrote cs) := by
  by_cases hkind : m.kind.isolated = true
  · rw [s.start_of_isolated hkind]
    exact ⟨⟨trivial, List.forall_mem_singleton.mpr (.program hm)⟩, h.store.newEnv _ _⟩
  · rw [s.start_of_shared hkind]
    exact ⟨⟨trivial, List.forall_mem_singleton.mpr (.program hm)⟩, h.store⟩

/-- However long it goes on, the run of a text that compiles only runs code of that text and
of earlier ones. -/
theorem Traced.run (h : s.Traced cs) {c : Compiled}
    (hcompile : s.compile src kind = (.ok c, t)) (fuel : Nat) :
    let p := t.prepare src c
    let after := LoxMachine.run p.setting fuel (p.start c.module)
    let wrote := Compilation.Wrote (⟨src, c.module⟩ :: cs)
    after.2.Stems wrote (·.Blames wrote) ∧ after.2.store.Stems wrote ∧
      ∀ e, after.1 = some (.failed e) → e.Blames wrote := by
  intro p after wrote
  have hwrote : ∀ stmt ∈ c.module.body, wrote (.stmt stmt) := fun stmt hstmt =>
    ⟨⟨src, c.module⟩, List.mem_cons_self, .top hstmt⟩
  obtain ⟨hstems, hstore⟩ := (h.compile hcompile).start hwrote
  exact hstems.run hstore (Compilation.closed_wrote _) fuel

theorem Traced.eval (h : s.Traced cs) (fuel : Nat) (src : Source) (kind : ModuleKind) :
    (s.eval fuel src kind).2.Traced (s.compilation src kind ++ cs) ∧
      ∀ e, (s.eval fuel src kind).1 = .error (.runtime e) →
        ∃ n, Compilation.Explains (s.compilation src kind ++ cs) n e := by
  have hspec := s.compile_spec src kind
  unfold Session.eval Session.compilation
  cases hcompile : s.compile src kind with
  | mk outcome t =>
      rw [hcompile] at hspec
      cases outcome with
      | error failure =>
          obtain ⟨hquiet, bag, rfl⟩ := hspec
          refine ⟨⟨hquiet.store ▸ h.store, h.located⟩, ?_⟩
          rintro e ⟨⟩
      | ok c =>
          have htraced := h.compile hcompile
          obtain ⟨_, hstore, hfailed⟩ := h.run hcompile fuel
          dsimp only
          refine ⟨⟨?_, htraced.located⟩, fun e he => ?_⟩
          · rw [store_finish]
            exact hstore
          · obtain ⟨n, hn, hrange⟩ := hfailed e (failed_of_finish he)
            exact ⟨n, htraced.explains hn hrange⟩

theorem Traced.perform (h : s.Traced cs) (fuel : Nat) (request : Request) :
    (s.perform fuel request).2.Traced (s.compilations [(request, fuel)] ++ cs) := by
  simp only [Session.compilations, List.nil_append]
  cases htext : request.text? with
  | some text =>
      obtain ⟨src, kind⟩ := text
      obtain ⟨hstore, hlocated⟩ := (h.eval fuel src kind).1
      exact ⟨(store_perform s fuel htext).symm ▸ hstore, hlocated⟩
  | none => exact ⟨(store_perform_none s fuel htext).symm ▸ h.store, h.located⟩

theorem Traced.after (h : s.Traced cs) (history : List (Request × Nat)) :
    (s.after history).Traced (s.compilations history ++ cs) := by
  induction history generalizing s cs with
  | nil => exact h
  | cons step history ih =>
      obtain ⟨request, fuel⟩ := step
      have hstep := ih (h.perform fuel request)
      simpa only [Session.after, Session.compilations, List.nil_append, List.append_assoc]
        using hstep

/-- At every moment of every run, all that may run stems from the text that is running and
from earlier ones. -/
theorem Traced.moment (h : s.Traced cs) {set : Setting} {state : State}
    (hmoment : s.moment fuel src kind = some (set, state)) :
    let wrote := Compilation.Wrote (s.compilation src kind ++ cs)
    state.Stems wrote (·.Blames wrote) ∧ state.store.Stems wrote := by
  obtain ⟨c, t, hcompile, rfl, hrun⟩ := moment_eq_some hmoment
  obtain ⟨hstems, hstore, _⟩ := h.run hcompile fuel
  rw [hrun] at hstems hstore
  rw [Session.compilation, hcompile]
  exact ⟨hstems, hstore⟩

/-- Scanning, parsing and resolving any text report only ranges of that text.  After any
history, the diagnostics with which a request is refused are ranges of its text; an error that
a run raises is blamed on the node that the machine is at, and has a range that covers some of
the text in which that node was written, be it the running text or an earlier one; and so has
every error that is on its way to a protected call or to the end of the run. -/
theorem reported_ranges_proper (options : Options) (logging : Bool) (clock : Clock)
    (history : List (Request × Nat)) :
    let s := (new options logging clock).after history
    let earlier := (new options logging clock).compilations history
    (∀ (src : Source) (kind : ModuleKind) (lastId : Nat), (Token.scan src).2.Within src ∧
      ∃ parsed, Module.parse (Token.scan src).1 kind lastId (Token.scan src).2 = .ok parsed ∧
        parsed.bag.Within src ∧ (resolve parsed.module parsed.bag).2.Within src) ∧
    (∀ fuel request src kind, request.text? = some (src, kind) →
      (∀ bag, (s.perform fuel request).1 = .error (.compile bag) → bag.Within src) ∧
      ∀ e, (s.perform fuel request).1 = .error (.runtime e) →
        ∃ n, Compilation.Explains (s.compilation src kind ++ earlier) n e) ∧
    ∀ fuel src kind set state, s.moment fuel src kind = some (set, state) → ∀ e,
      (state.control = .failing e →
        ∃ n, Compilation.Explains (s.compilation src kind ++ earlier) n e) ∧
      ((advance set state).state.control = .failing e → state.control ≠ .failing e →
        ∃ n, state.At n ∧ Compilation.Explains (s.compilation src kind ++ earlier) n e) := by
  intro s earlier
  have htraced : s.Traced earlier := by
    have h := (traced_new options logging clock).after history
    rwa [List.append_nil] at h
  refine ⟨fun src kind lastId => ⟨Token.within_scan src, ?_⟩, ?_, ?_⟩
  · obtain ⟨ts, eof, htokens, heof, _⟩ := Token.scan_tokens src
    obtain ⟨m, c, _, hparse⟩ := Grammar.parse_eq_ok ts heof kind lastId (Token.scan src).2
    rw [← htokens] at hparse
    obtain ⟨hbody, hbag⟩ := Module.located_of_scan hparse
    exact ⟨_, hparse, hbag, within_resolve hbody hbag⟩
  · intro fuel request src kind htext
    rw [outcome_perform s fuel htext]
    exact ⟨fun bag => within_eval, (htraced.eval fuel src kind).2⟩
  · intro fuel src kind set state hmoment e
    obtain ⟨hstems, hstore⟩ := htraced.moment hmoment
    have hnow := (htraced.eval fuel src kind).1
    constructor
    · intro he
      have hblames := hstems.control
      rw [he] at hblames
      obtain ⟨n, hn, hrange⟩ := hblames
      exact ⟨n, hnow.explains hn hrange⟩
    · intro he hnew
      obtain ⟨n, ⟨hn, hat⟩, hrange⟩ :=
        (hstems.raised hstore (Compilation.closed_wrote _) he).resolve_left hnew
      exact ⟨n, hat, hnow.explains hn hrange⟩

/-- A text that declares a function whose body fails. -/
def flawed : Source :=
  Source.ofSnippet (utf8 "fun f() { return -true; }")

/-- A later text that calls the function and catches what it raises. -/
def catching : Source :=
  Source.ofSnippet (utf8 "pcall(f);")

/-- A text that breaks off. -/
def broken : Source :=
  Source.ofSnippet (utf8 "return")

/-- The error that the machine is taking up the frames. -/
def error? : Control → Option RuntimeError
  | .failing e => some e
  | _ => none

theorem failing_of_error? {control : Control} {e : RuntimeError} (h : error? control = some e) :
    control = .failing e := by
  cases control with
  | failing e' =>
      cases h
      rfl
  | _ => cases h

theorem reported_ranges_proper_flawed :
    (∃ bag, (((new {} false).after [(.run flawed .replLine, 10)]).perform 10
        (.run broken .replLine)).1 = .error (.compile bag) ∧ bag.Within broken) ∧
    ∃ set state e n, ((new {} false).after [(.run flawed .replLine, 10)]).moment 13 catching
        .replLine = some (set, state) ∧
      (advance set state).state.control = .failing e ∧ e.range = ⟨some flawed, 17, 22⟩ ∧
      state.At n ∧
      Compilation.Explains
        (((new {} false).after [(.run flawed .replLine, 10)]).compilation catching .replLine ++
          (new {} false).compilations [(.run flawed .replLine, 10)]) n e := by
  let e : RuntimeError := ⟨⟨some flawed, 17, 22⟩, .unsupportedOperand .boolean⟩
  let bag : Bag := Bag.empty.error ⟨some broken, 6, 6⟩ (utf8 "expected expression")
  have hrefused : (((new {} false).after [(.run flawed .replLine, 10)]).perform 10
      (.run broken .replLine)).1 = .error (.compile bag) := by
    decide +kernel
  have hraised : ((((new {} false).after [(.run flawed .replLine, 10)]).moment 13 catching
      .replLine).any fun m => decide (error? m.2.control = none ∧
        error? (advance m.1 m.2).state.control = some e)) = true := by
    decide +kernel
  obtain ⟨_, hrequests, hmoments⟩ :=
    reported_ranges_proper {} false (.still 0) [(.run flawed .replLine, 10)]
  constructor
  · obtain ⟨hcompile, _⟩ := hrequests 10 (.run broken .replLine) broken .replLine rfl
    exact ⟨bag, hrefused, hcompile bag hrefused⟩
  · obtain ⟨⟨set, state⟩, hmoment, hfacts⟩ := (Option.any_eq_true _ _).mp hraised
    obtain ⟨hcalm, herror⟩ := of_decide_eq_true hfacts
    have hfailing := failing_of_error? herror
    have hnew : state.control ≠ .failing e := by
      intro h
      rw [h] at hcalm
      cases hcalm
    obtain ⟨n, hat, hexplains⟩ :=
      (hmoments 13 catching .replLine set state hmoment e).2 hfailing hnew
    exact ⟨set, state, e, n, hmoment, hfailing, rfl, hat, hexplains⟩

end Session

end LoxMachine
