import LoxMachine.Proofs.Loops.Clauses
import LoxMachine.Proofs.Loops.Sessions
import LoxMachine.Proofs.Session.Calls

/-!
# `for` statements

In every run of every session the tree that stands for a `for` statement does what the clauses of
the statement say: it comes to the same outcome, writes the same lines, and leaves the same store
behind, but for the empty environments of rounds, to which no name leads.
-/

namespace LoxMachine

open Scope Store Folding

/-- At all times the direct machine is where the machine is, with the store folded. -/
def Together (set set' : Setting) (s s' : State) : Prop :=
  ∀ n, (runDirectly set' n s').1 = (run set n s).1 ∧
    (runDirectly set' n s').2.control = (run set n s).2.control ∧
    ∃ φ, (run set n s).2.Folded φ (runDirectly set' n s').2

variable {set set' : Setting} {s s' t u v w : State} {fs fs' : List Frame} {n m env : Nat}
  {φ : Folding}

/-! ## Runs above other frames -/

theorem Ends.unique (h : Ends set n s t) (h' : Ends set m s u) : n = m ∧ t = u := by
  induction n generalizing s m with
  | zero =>
      obtain ⟨hrun, hthrough⟩ := h
      cases hrun
      obtain ⟨rfl, rfl⟩ := h'.eq_of_through hthrough
      exact ⟨rfl, rfl⟩
  | succ n ih =>
      cases hs : advanceDirectly set s with
      | halt ending w => cases (h.of_halt hs).1
      | next w =>
          obtain ⟨_, hn, hrest⟩ := h.of_next hs
          cases hn
          obtain ⟨m, rfl, hrest'⟩ := h'.of_next hs
          obtain ⟨rfl, rfl⟩ := ih hrest hrest'
          exact ⟨rfl, rfl⟩

theorem runDirectly_onto (fs : List Frame) (h : runDirectly set n v = (none, w)) :
    runDirectly set n (v.onto fs) = (none, w.onto fs) := by
  induction n generalizing v with
  | zero =>
      cases h
      rfl
  | succ n ih =>
      rw [runDirectly] at h
      cases hv : advanceDirectly set v with
      | halt ending v' =>
          rw [hv] at h
          cases h
      | next v' =>
          rw [hv] at h
          have hstep := advanceDirectly_onto set fs (not_through_of_next hv)
          rw [hv] at hstep
          rw [runDirectly, hstep]
          exact ih h

/-- Until the direct machine is through with its own, it does not touch the frames below. -/
theorem exists_onto_of_runDirectly (hrun : runDirectly set n (v.onto fs) = (none, u))
    (hfirst : ∀ m < n, ∀ w, runDirectly set m v = (none, w) → ¬ w.Through) :
    ∃ w, u = w.onto fs ∧ runDirectly set n v = (none, w) := by
  induction n generalizing v with
  | zero =>
      cases hrun
      exact ⟨v, rfl, rfl⟩
  | succ n ih =>
      have hstep := advanceDirectly_onto set fs (hfirst 0 (Nat.succ_pos n) v rfl)
      cases hv : advanceDirectly set v with
      | halt ending v' =>
          rw [hv] at hstep
          rw [runDirectly, hstep] at hrun
          cases hrun
      | next v' =>
          rw [hv] at hstep
          rw [runDirectly, hstep] at hrun
          obtain ⟨w, hw, hown⟩ := ih hrun fun m hm w hw => by
            refine hfirst (m + 1) (Nat.succ_lt_succ hm) w ?_
            rw [runDirectly, hv]
            exact hw
          refine ⟨w, hw, ?_⟩
          rw [runDirectly, hv]
          exact hown

/-! ## Conclusions -/

/-- Above stacks of the same height, both machines are through with their own or neither is. -/
theorem State.Folded.hands_iff (h : (v.onto fs).Folded φ (w.onto fs'))
    (hcontrol : w.control = v.control) (hlength : fs'.length = fs.length) :
    (v.onto fs).Hands fs ↔ w.Through := by
  have hframes : w.frames.length = v.frames.length := by
    have hmap := congrArg List.length h.frames
    rw [List.length_map] at hmap
    simp only [State.onto, List.length_append, hlength] at hmap
    exact Nat.add_right_cancel hmap
  have hnone : v.frames = [] ↔ w.frames = [] := by
    rw [← List.length_eq_zero_iff, ← hframes, List.length_eq_zero_iff]
  rw [hands_onto_iff, State.Through, State.Through, hcontrol, hnone]

namespace Together

theorem length_eq (h : Together set set' s s') : s'.frames.length = s.frames.length := by
  obtain ⟨_, _, φ, hfolded⟩ := h 0
  exact (congrArg List.length hfolded.frames).trans (List.length_map _)

theorem exists_run (h : Together set set' s s') (hrun : runDirectly set' n s' = (none, v)) :
    ∃ u, run set n s = (none, u) := by
  have hending := (h n).1
  rw [hrun] at hending
  exact ⟨(run set n s).2, Prod.ext hending.symm rfl⟩

/-- As long as neither is through with what it has begun, each machine is above the frames that
wait for it. -/
theorem above (h : Together set set' s s')
    (hfirst : ∀ m < n, ∀ u, run set m s = (none, u) → ¬ u.Hands s.frames)
    (hfirst' : ∀ m < n, ∀ w, runDirectly set' m (s'.begin s'.env s'.control) = (none, w) →
      ¬ w.Through)
    (hrun : run set n s = (none, u)) :
    ∃ w φ, runDirectly set' n (s'.begin s'.env s'.control) = (none, w) ∧
      w.control = u.control ∧ u.Folded φ (w.onto s'.frames) ∧ (u.Hands s.frames ↔ w.Through) := by
  obtain ⟨hending, hcontrol, φ, hfolded⟩ := h n
  rw [hrun] at hending hcontrol hfolded
  have hrun' : runDirectly set' n ((s'.begin s'.env s'.control).onto s'.frames) =
      (none, (runDirectly set' n s').2) := Prod.ext hending rfl
  obtain ⟨w, hw, hown⟩ := exists_onto_of_runDirectly hrun' hfirst'
  obtain ⟨v, rfl, _⟩ := @exists_onto_of_run set _ ({ s with frames := [] } : State) s.frames n hrun
    hfirst
  rw [hw] at hcontrol hfolded
  exact ⟨w, φ, hown, hcontrol, hfolded, hfolded.hands_iff hcontrol h.length_eq⟩

theorem not_through (h : Together set set' s s')
    (hfirst : ∀ m < n, ∀ u, run set m s = (none, u) → ¬ u.Hands s.frames) :
    ∀ m < n, ∀ w, runDirectly set' m (s'.begin s'.env s'.control) = (none, w) → ¬ w.Through := by
  intro m
  induction m using Nat.strong_induction_on with
  | _ m ih =>
      intro hm w hw hthrough
      obtain ⟨u, hu⟩ := h.exists_run (runDirectly_onto s'.frames hw)
      obtain ⟨w', _, hown, _, _, hiff⟩ := h.above
        (fun k hk => hfirst k (Nat.lt_trans hk hm)) (fun k hk => ih k hk (Nat.lt_trans hk hm)) hu
      cases hw.symm.trans hown
      exact hfirst m hm u hu (hiff.mpr hthrough)

theorem not_hands (h : Together set set' s s')
    (hfirst : ∀ m < n, ∀ w, runDirectly set' m (s'.begin s'.env s'.control) = (none, w) →
      ¬ w.Through) :
    ∀ m < n, ∀ u, run set m s = (none, u) → ¬ u.Hands s.frames := by
  intro m
  induction m using Nat.strong_induction_on with
  | _ m ih =>
      intro hm u hu hhands
      obtain ⟨w, _, hown, _, _, hiff⟩ := h.above
        (fun k hk => ih k hk (Nat.lt_trans hk hm)) (fun k hk => hfirst k (Nat.lt_trans hk hm)) hu
      exact hfirst m hm w hown (hiff.mp hhands)

/-- What the machine concludes the direct machine concludes as well. -/
theorem comes (h : Together set set' s s') (ht : Concludes set s.frames s t) :
    ∃ t' φ, Comes set' s'.env s'.control s' t' ∧ t'.control = t.control ∧
      t.Folded φ (t'.onto s'.frames) := by
  obtain ⟨n, hrun, hhands, hfirst⟩ := ht
  obtain ⟨w, φ, hown, hcontrol, hfolded, hiff⟩ := h.above hfirst (h.not_through hfirst) hrun
  exact ⟨w, φ, ⟨n, hown, hiff.mp hhands⟩, hcontrol, hfolded⟩

/-- What the direct machine concludes the machine concludes as well. -/
theorem concludes {t' : State} (h : Together set set' s s')
    (ht : Comes set' s'.env s'.control s' t') :
    ∃ t φ, Concludes set s.frames s t ∧ t'.control = t.control ∧
      t.Folded φ (t'.onto s'.frames) := by
  obtain ⟨n, hends⟩ := ht
  have hfirst : ∀ m < n, ∀ w, runDirectly set' m (s'.begin s'.env s'.control) = (none, w) →
      ¬ w.Through := by
    intro m hm w hw hthrough
    obtain ⟨rfl, _⟩ := hends.unique ⟨hw, hthrough⟩
    exact Nat.lt_irrefl n hm
  obtain ⟨t, hrun⟩ := h.exists_run (runDirectly_onto s'.frames hends.1)
  obtain ⟨w, φ, hown, hcontrol, hfolded, hiff⟩ := h.above (h.not_hands hfirst) hfirst hrun
  cases hends.1.symm.trans hown
  exact ⟨t, φ, ⟨n, hrun, hiff.mpr hends.2, h.not_hands hfirst⟩, hcontrol, hfolded⟩

end Together

/-! ## Declarations -/

/-- What a statement declares where it stands is marked there. -/
theorem mem_stmtMarks {g : List Bool} :
    ∀ {stmt : Stmt}, declarations stmt ≠ [] → .declare g ∈ stmtMarks g stmt
  | .var _ _ _, _ => List.mem_cons_self
  | .function _, _ => List.mem_cons_self
  | .classDecl _ _ _ _, _ => List.mem_cons_self
  | .cond _ thenBranch none _, h => List.mem_append_right _ (mem_stmtMarks h)
  | .cond _ thenBranch (some elseBranch) _, h => by
      refine List.mem_append_right _ ?_
      by_cases hthen : declarations thenBranch = []
      · have helse : declarations elseBranch ≠ [] := fun helse =>
          h (List.append_eq_nil_iff.mpr ⟨hthen, helse⟩)
        exact List.mem_append_right _ (mem_stmtMarks helse)
      · exact List.mem_append_left _ (mem_stmtMarks hthen)
  | .loop _ body _, h => List.mem_append_right _ (mem_stmtMarks h)
  | .expr _ _, h => absurd rfl h
  | .print _ _, h => absurd rfl h
  | .assert _ _, h => absurd rfl h
  | .assertEqual _ _ _, h => absurd rfl h
  | .block _ _, h => absurd rfl h
  | .ret _ _ _, h => absurd rfl h

theorem mem_roundMarks {g : List Bool} (body : Stmt) (e : Expr) :
    ∀ mark ∈ stmtMarks (true :: g) body, mark ∈ stmtMarks g (roundOf body (some e)) := by
  intro mark hmark
  rw [roundOf, stmtMarks, isRound_step]
  exact List.mem_append_left _ hmark

/-- In a `for` statement with an increment, the body declares nothing that the increment could
see. -/
theorem Folding.Suits.declares_nothing {K : Mark → Prop} {st : Store} {init : Option Stmt}
    {test e : Expr} {body : Stmt} {span : Range}
    (h : Suits K φ st env fun g => stmtMarks g (Parser.forLoop init test (some e) body span))
    (hset : Settings K set set') : declarations body = [] := by
  obtain ⟨g, _, hmarks⟩ := h
  rw [forLoop_eq] at hmarks
  have hbody : ∃ g, ∀ mark ∈ stmtMarks (true :: g) body, K mark := by
    cases init with
    | none =>
        refine ⟨g, fun mark hmark => hmarks mark ?_⟩
        exact List.mem_append_right _ (mem_roundMarks body e mark hmark)
    | some i =>
        refine ⟨false :: g, fun mark hmark => hmarks mark ?_⟩
        have hloop := List.mem_append_right (exprMarks (false :: g) test)
          (mem_roundMarks body e mark hmark)
        exact List.mem_append_right _ (List.mem_append_left _ hloop)
  obtain ⟨g, hbody⟩ := hbody
  by_contra hsome
  exact hset.bare _ (hbody _ (mem_stmtMarks hsome)) rfl

/-! ## Sessions -/

namespace Session

variable {fuel : Nat} {src : Source} {kind : ModuleKind} {state : State}

/-- In a session and in the direct session, whatever is asked comes to the same, and the same is
written. -/
theorem perform_directly (options : Options) (logging : Bool) (clock : Clock)
    (history : List (Request × Nat)) (fuel : Nat) (request : Request) :
    let p := ((new options logging clock).after history).perform fuel request
    let p' := ((new options logging clock).afterDirectly history).performDirectly fuel request
    p'.1 = p.1 ∧ p'.2.trace = p.2.trace := by
  intro p p'
  have hnew := coherent_new options logging clock
  obtain ⟨φ, D, st, hafter, hmirrored⟩ :=
    hnew.after_mirrored (mirrored_new options logging clock) history
  obtain ⟨_, _, _, hperform, _⟩ := (hnew.after history).perform_mirrored hmirrored fuel request
  rw [← hafter] at hperform
  have hp' : p' = _ := hperform
  rw [hp']
  exact ⟨rfl, rfl⟩

/-- Whenever a `for` statement begins, in whatever session, the direct session stands at the same
place, and from there the machines go on side by side.  What the machine concludes is what the
clauses come to, with the same outcome, the same lines and the same store but for the environments
of rounds, and no increment sees a declaration of the body. -/
theorem for_runs_clauses (options : Options) (logging : Bool) (clock : Clock)
    (history : List (Request × Nat)) (fuel : Nat) (src : Source) (kind : ModuleKind)
    {set : Setting} {state : State} {init : Option Stmt} {cond step : Option Expr} {body : Stmt}
    {close span : Range}
    (hmoment : ((new options logging clock).after history).moment fuel src kind =
      some (set, state))
    (hcontrol : state.control = .exec
      (Parser.forLoop init (cond.getD (.literal (.bool true) close)) step body span)) :
    ∃ set' state',
      ((new options logging clock).afterDirectly history).momentDirectly fuel src kind =
        some (set', state') ∧
      Together set set' state state' ∧
      (step.isSome = true → declarations body = []) ∧
      (∀ t, Concludes set state.frames state t → ∃ t' φ,
        RunsFor set' cond step body init state' t' ∧ t'.control = t.control ∧
          t.Folded φ (t'.onto state'.frames)) ∧
      ∀ t', RunsFor set' cond step body init state' t' → ∃ t φ,
        Concludes set state.frames state t ∧ t'.control = t.control ∧
          t.Folded φ (t'.onto state'.frames) := by
  have hnew := coherent_new options logging clock
  have hcoherent := hnew.after history
  obtain ⟨φ, D, st, hafter, hmirrored⟩ :=
    hnew.after_mirrored (mirrored_new options logging clock) history
  obtain ⟨K, set', state', φ', hmoment', hset, halong, hsame, hcode⟩ :=
    hcoherent.moment_mirrored hmirrored hmoment
  obtain ⟨hR, W, hvalid⟩ := hcoherent.moment hmoment
  have htogether : Together set set' state state' := by
    intro n
    obtain ⟨hending, hcontrol, φ, hfinal, _⟩ := halong.run hsame hcode hset hR n hvalid
    exact ⟨hending, hcontrol, φ, hfinal.toFolded⟩
  rw [← hafter] at hmoment'
  have hruns : ∀ t', Comes set' state'.env state'.control state' t' ↔
      RunsFor set' cond step body init state' t' := by
    intro t'
    rw [hsame, hcontrol]
    exact runsFor_iff
  refine ⟨set', state', hmoment', htogether, ?_, fun t ht => ?_, fun t' ht' => ?_⟩
  · intro hstep
    obtain ⟨e, rfl⟩ := Option.isSome_iff_exists.mp hstep
    rw [hcontrol] at hcode
    exact hcode.declares_nothing hset
  · obtain ⟨t', φ, hcomes, hfolded⟩ := htogether.comes ht
    exact ⟨t', φ, (hruns t').mp hcomes, hfolded⟩
  · exact htogether.concludes ((hruns t').mpr ht')

/-- A loop with a closure that outlives the round in which it was made. -/
def closureLoop : Source :=
  Source.ofSnippet (utf8 ("var f; for (var i = true; i; i = false) \x7b " ++
    "fun g() \x7b print i; \x7d f = g; \x7d f();"))

/-- The machine is about to execute a `for` statement with an initializer and an increment. -/
def beginsFor (s : State) : Bool :=
  match s.control with
  | .exec (.block [_, .loop _ (.block [body, .expr e span] whole) inner] outer) =>
      decide (span = e.span ∧ whole = body.span ∧ inner = outer)
  | _ => false

theorem control_of_beginsFor (h : beginsFor state = true) :
    ∃ init cond step body span, state.control = .exec
      (Parser.forLoop (some init) ((some cond).getD (.literal (.bool true) span)) (some step) body
        span) := by
  unfold beginsFor at h
  split at h
  next init cond body step span whole inner outer hcontrol =>
      obtain ⟨rfl, rfl, rfl⟩ := of_decide_eq_true h
      exact ⟨init, cond, step, body, inner, hcontrol⟩
  next => cases h

theorem for_runs_clauses_closure : ∃ set state init cond step body span set' state',
    (new {} false).moment 3 closureLoop .replLine = some (set, state) ∧
    state.control = .exec
      (Parser.forLoop init (cond.getD (.literal (.bool true) span)) step body span) ∧
    (new {} false).momentDirectly 3 closureLoop .replLine = some (set', state') ∧
    declarations body = [] ∧
    ∃ t t' φ, Concludes set state.frames state t ∧ RunsFor set' cond step body init state' t' ∧
      t.Folded φ (t'.onto state'.frames) := by
  have hsome : (((new {} false).moment 3 closureLoop .replLine).any fun m =>
      beginsFor m.2 && decide ((run m.1 100 m.2).1 = some .finished)) = true := by
    decide +kernel
  obtain ⟨⟨set, state⟩, hmoment, hfacts⟩ := (Option.any_eq_true _ _).mp hsome
  obtain ⟨hbegins, hfinished⟩ := Bool.and_eq_true_iff.mp hfacts
  obtain ⟨init, cond, step, body, span, hcontrol⟩ := control_of_beginsFor hbegins
  obtain ⟨set', state', hmoment', _, hdeclares, hruns, _⟩ :=
    for_runs_clauses {} false (.still 0) [] 3 closureLoop .replLine hmoment hcontrol
  obtain ⟨t, ht⟩ := (State.Begins.statement hcontrol).exists_concludes_of_halt
    (Prod.ext (of_decide_eq_true hfinished) rfl) nofun
  obtain ⟨t', φ, hfor, _, hfolded⟩ := hruns t ht
  exact ⟨set, state, some init, some cond, some step, body, span, set', state', hmoment, hcontrol,
    hmoment', hdeclares rfl, t, t', φ, ht, hfor, hfolded⟩

end Session

end LoxMachine
