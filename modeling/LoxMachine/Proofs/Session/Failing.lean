import LoxMachine.Proofs.Relocation.Sessions

/-!
# Requests that do not compile

A text that does not compile may use up node numbers and nothing else.  None of its code
runs, and every later request is answered as if the text had never been there.
-/

namespace LoxMachine

open Scope Store

namespace Session

variable {s s' t : Session} {runs : List Run} {T T' : Array Event}

/-! ## Answers -/

/-- The answer to a request: how it went, and all that was written meanwhile. -/
def answer (s : Session) (fuel : Nat) (request : Request) :
    Except Failure Unit × List Event :=
  ((s.perform fuel request).1, (s.perform fuel request).2.trace.toList.drop s.trace.size)

/-- The answers to some requests, one after another. -/
def answers (s : Session) : List (Request × Nat) → List (Except Failure Unit × List Event)
  | [] => []
  | (request, fuel) :: history =>
      s.answer fuel request :: (s.perform fuel request).2.answers history

theorem answers_append (s : Session) (before later : List (Request × Nat)) :
    s.answers (before ++ later) = s.answers before ++ (s.after before).answers later := by
  induction before generalizing s with
  | nil => rfl
  | cons step before ih =>
      obtain ⟨request, fuel⟩ := step
      rw [List.cons_append, answers, answers, ih, List.cons_append, after]

theorem length_answers (s : Session) (history : List (Request × Nat)) :
    (s.answers history).length = history.length := by
  induction history generalizing s with
  | nil => rfl
  | cons step history ih =>
      obtain ⟨request, fuel⟩ := step
      rw [answers, List.length_cons, ih, List.length_cons]

/-- What was written after the same beginnings is the same. -/
theorem drop_of_echoes {trace trace' : Array Event} (h : Echoes T T' trace trace') :
    trace'.toList.drop T'.size = trace.toList.drop T.size := by
  obtain ⟨written, rfl, rfl⟩ := h
  simp only [Array.toList_append, ← Array.length_toList, List.drop_left]

/-- Displaced sessions give the same answers. -/
theorem answers_displaced {ρ : Relocation} (h : ρ.Displaced T T' s s') (hc : s.Coherent runs)
    (hd : s.store.Descended runs) (history : List (Request × Nat)) :
    s'.answers history = s.answers history := by
  induction history generalizing s s' T T' runs with
  | nil => rfl
  | cons step history ih =>
      obtain ⟨request, fuel⟩ := step
      obtain ⟨houtcome, hnext⟩ := h.rebase.perform hc hd fuel request
      have hanswer : s'.answer fuel request = s.answer fuel request := by
        rw [answer, answer, houtcome, drop_of_echoes hnext.trace]
      rw [answers, answers, hanswer]
      congr 1
      exact ih hnext (hc.perform fuel request).2.2 (hc.descended_perform hd fuel request)

/-! ## Failing to compile -/

theorem finish_ne_compile (s : Session) (src : Source) (ending : Option Ending) (final : State)
    (bag : Bag) : (s.finish src ending final).1 ≠ .error (.compile bag) := by
  unfold finish
  dsimp only
  split <;> exact nofun

/-- An evaluation gives diagnostics only if its text does not compile. -/
theorem compile_of_eval {fuel : Nat} {src : Source} {kind : ModuleKind} {bag : Bag}
    (h : (s.eval fuel src kind).1 = .error (.compile bag)) :
    (∃ failure t, s.compile src kind = (.error failure, t)) ∧ s.Quiet (s.eval fuel src kind).2 := by
  have hquiet := (s.compile_spec src kind).1
  rw [Session.eval] at h ⊢
  cases hcompile : s.compile src kind with
  | mk outcome t =>
      rw [hcompile] at h hquiet
      cases outcome with
      | error failure => exact ⟨⟨failure, t, rfl⟩, hquiet⟩
      | ok c => exact absurd h (finish_ne_compile _ _ _ _ bag)

theorem compile_of_runSource {fuel : Nat} {src : Source} {kind : ModuleKind} {bag : Bag}
    (h : (s.runSource fuel src kind).1 = .error (.compile bag)) :
    (∃ failure t, s.compile src kind = (.error failure, t)) ∧
      s.Quiet (s.runSource fuel src kind).2 := by
  have hspec := @compile_of_eval s fuel src kind bag
  rw [Session.runSource] at h ⊢
  generalize s.eval fuel src kind = result at h hspec ⊢
  obtain ⟨outcome, t⟩ := result
  cases outcome with
  | ok _ => cases h
  | error failure =>
      obtain ⟨hcompile, hquiet⟩ := hspec h
      exact ⟨hcompile, hquiet.trans (quiet_write _ _)⟩

/-- A request is answered with diagnostics only if its text does not compile. -/
theorem compile_of_perform {request : Request} {fuel : Nat} {bag : Bag}
    (h : (s.perform fuel request).1 = .error (.compile bag)) :
    ∃ src kind, request.text? = some (src, kind) ∧
      (∃ failure t, s.compile src kind = (.error failure, t)) ∧
      s.Quiet (s.perform fuel request).2 := by
  cases request with
  | line text => exact ⟨_, _, rfl, compile_of_runSource h⟩
  | eval src kind => exact ⟨src, kind, rfl, compile_of_eval h⟩
  | run src kind => exact ⟨src, kind, rfl, compile_of_runSource h⟩
  | file host uri =>
      simp only [perform, runFile] at h ⊢
      cases hread : host.read uri with
      | error message =>
          rw [hread] at h
          cases h
      | ok src =>
          rw [hread] at h
          refine ⟨src, .sourceFile, ?_, compile_of_runSource h⟩
          rw [Request.text?, hread]
          rfl

/-- The code of a session has no number that it has not given out. -/
theorem Coherent.placed (h : s.Coherent runs) (width : Nat) :
    Placed (.renumbering ⟨s.lastId + 1, width⟩) s.store s.store := by
  obtain ⟨W, hW⟩ := h.store
  have hstill : ∀ {base : Nat} {Γ : List Layer} {f : Function},
      (∀ site ∈ functionSites Γ f, Run.sites runs base site) →
      f.renumber (⟨s.lastId + 1, width⟩ : Gap).move = f := by
    intro base Γ f hsites
    have hids : ∀ id ∈ siteIds (functionSites Γ f), (⟨s.lastId + 1, width⟩ : Gap).move id = id := by
      intro id hid
      obtain ⟨site, hsite, hmem⟩ := List.mem_flatMap.mp hid
      obtain ⟨r, hr, _, hin⟩ := hsites site hsite
      have hused := h.used r hr id (List.mem_flatMap.mpr ⟨site, hin, hmem⟩)
      exact Gap.move_of_lt (Nat.lt_succ_of_le hused)
    exact f.renumber_eq_self hids
  refine placed_renumbering (fun i c hc => ?_) fun i k n c hk hc => ?_
  · obtain ⟨_, _, _, hsites, _⟩ := hW.functions i c hc
    exact hstill hsites
  · obtain ⟨_, _, _, hsites⟩ := hW.methods i k n c hk hc
    exact hstill hsites

/-- A session that has used up numbers is displaced by that. -/
theorem Coherent.displaced (h : s.Coherent runs) (hquiet : s.Quiet t) :
    (Relocation.renumbering ⟨s.lastId + 1, t.lastId - s.lastId⟩).Displaced s.trace t.trace s t where
  options := hquiet.options
  logging := hquiet.logging
  start := Nat.le_refl _
  lastId := (Nat.add_sub_cancel' hquiet.lastId).symm
  depths id := by
    rw [hquiet.depths]
    by_cases hid : id < s.lastId + 1
    · rw [Relocation.renumbering, Gap.move_of_lt hid]
    · -- A number that was not given out has no depth, moved or not.
      have hunused := h.unused id (Nat.lt_of_succ_le (Nat.le_of_not_lt hid))
      rw [hunused]
      exact h.unused _ (Nat.lt_of_lt_of_le (Nat.lt_of_succ_le (Nat.le_of_not_lt hid))
        (Gap.le_move ..))
  globals := congrFun Gap.move_empty globals
  store := by
    rw [hquiet.store]
    exact h.placed _
  trace := echoes_refl _ _

/-- A request that does not compile runs no code, leaves the store with the globals and the
depths as they were, and can be left out: all other requests, before it and after it, are
answered the same. -/
theorem failing_leaves_no_trace (options : Options) (logging : Bool) (clock : Clock)
    (before later : List (Request × Nat)) (request : Request) (fuel : Nat) {bag : Bag}
    (hfails : (((new options logging clock).after before).perform fuel request).1 =
      .error (.compile bag)) :
    (∃ src kind, request.text? = some (src, kind) ∧
      ∀ k, ((new options logging clock).after before).moment k src kind = none) ∧
    (((new options logging clock).after before).perform fuel request).2.store =
      ((new options logging clock).after before).store ∧
    (((new options logging clock).after before).perform fuel request).2.depths =
      ((new options logging clock).after before).depths ∧
    (new options logging clock).answers (before ++ later) =
      ((new options logging clock).answers (before ++ (request, fuel) :: later)).eraseIdx
        before.length := by
  have hnew := coherent_new options logging clock
  have hcoherent := hnew.after before
  have hdescended := hnew.descended_after descended_initialStore before
  obtain ⟨src, kind, htext, ⟨failure, t, hcompile⟩, hquiet⟩ := compile_of_perform hfails
  refine ⟨⟨src, kind, htext, fun k => ?_⟩, hquiet.store, hquiet.depths, ?_⟩
  · rw [Session.moment, hcompile]
  · -- The session after the request is the one before it, but for the numbers used up.
    rw [answers_append, answers_append, answers, ← length_answers (new options logging clock),
      List.eraseIdx_append_of_length_le (Nat.le_refl _), Nat.sub_self, List.eraseIdx_cons_zero,
      answers_displaced (hcoherent.displaced hquiet) hcoherent hdescended]

/-- A line that uses up numbers for a reference and then declares a name twice. -/
def twice : Request × Nat :=
  (.line (utf8 "{ var b = a; { var c = b; var c; } }"), 40)

/-- Lines around it whose references need depths. -/
def around : List (Request × Nat) × List (Request × Nat) :=
  ([(.line (utf8 "var a = 1; fun f() { var b = a; return b; }"), 40)],
    [(.line (utf8 "{ var b = f(); print b; }"), 60)])

theorem failing_leaves_no_trace_twice : ∃ bag,
    (((new {} false).after around.1).perform twice.2 twice.1).1 = .error (.compile bag) ∧
    (new {} false).answers (around.1 ++ around.2) =
      ((new {} false).answers (around.1 ++ twice :: around.2)).eraseIdx 1 := by
  have hdiagnosed : (match (((new {} false).after around.1).perform twice.2 twice.1).1 with
      | .error (.compile _) => true
      | _ => false) = true := by
    decide +kernel
  split at hdiagnosed
  next bag hfails =>
    obtain ⟨_, _, _, hanswers⟩ :=
      failing_leaves_no_trace {} false (.still 0) around.1 around.2 twice.1 twice.2 hfails
    exact ⟨bag, hfails, hanswers⟩
  next => cases hdiagnosed

end Session

end LoxMachine
