import LoxMachine.Proofs.Loops.Lockstep
import LoxMachine.Proofs.Machine.Activations

/-!
# The clauses of a `for` statement

What a `for` statement does, clause by clause: the initializer runs once in a scope of its own,
and the condition, the body and the increment run in that one scope again and again.  The direct
machine does just this with the tree that stands for the statement.
-/

namespace LoxMachine

/-- The outcome of a return or of an error. -/
def Control.IsAbrupt : Control → Prop
  | .returning _ | .failing _ => True
  | _ => False

/-- The machine about to do something in an environment, where nothing waits for the outcome. -/
def State.begin (s : State) (env : Nat) (control : Control) : State :=
  { s with control := control, frames := [], env := env }

/-- In this many steps the direct machine comes to an outcome for which nothing waits. -/
def Ends (set : Setting) (n : Nat) (s t : State) : Prop :=
  runDirectly set n s = (none, t) ∧ t.Through

/-- On its own in an environment the direct machine comes to this outcome. -/
def Comes (set : Setting) (env : Nat) (control : Control) (s t : State) : Prop :=
  ∃ n, Ends set n (s.begin env control) t

/-! ## The clauses -/

/-- The outcome of a condition. If it is omitted, it is true. -/
inductive Tests (set : Setting) (env : Nat) : Option Expr → State → State → Prop where
  | omitted {s} : Tests set env none s (s.begin env (.value (.bool true)))
  | given {e s t} (h : Comes set env (.eval e) s t) : Tests set env (some e) s t

/-- The outcome of a body and of the increment behind it. A return or an error in the body keeps
the increment from being evaluated. -/
inductive RunsRound (set : Setting) (env : Nat) (body : Stmt) : Option Expr → State → State → Prop
  where
  | plain {s t} (hbody : Comes set env (.exec body) s t) : RunsRound set env body none s t
  | broken {step s t} (hbody : Comes set env (.exec body) s t) (habrupt : t.control.IsAbrupt) :
      RunsRound set env body (some step) s t
  | failed {step s u t} (hbody : Comes set env (.exec body) s u) (hdone : u.control = .done)
      (hstep : Comes set env (.eval step) u t) (habrupt : t.control.IsAbrupt) :
      RunsRound set env body (some step) s t
  | full {step s u t v} (hbody : Comes set env (.exec body) s u) (hdone : u.control = .done)
      (hstep : Comes set env (.eval step) u t) (hvalue : t.control = .value v) :
      RunsRound set env body (some step) s (t.begin env .done)

/-- The outcome of a loop whose clauses all run in the same environment. -/
inductive RunsLoop (set : Setting) (env : Nat) (cond step : Option Expr) (body : Stmt) :
    State → State → Prop where
  | failed {s t} (htest : Tests set env cond s t) (habrupt : t.control.IsAbrupt) :
      RunsLoop set env cond step body s t
  | stopped {s t v} (htest : Tests set env cond s t) (hvalue : t.control = .value v)
      (hfalsy : v.truthy = false) : RunsLoop set env cond step body s (t.begin env .done)
  | broken {s u t v} (htest : Tests set env cond s u) (hvalue : u.control = .value v)
      (htruthy : v.truthy = true) (hround : RunsRound set env body step u t)
      (habrupt : t.control.IsAbrupt) : RunsLoop set env cond step body s t
  | again {s u w t v} (htest : Tests set env cond s u) (hvalue : u.control = .value v)
      (htruthy : v.truthy = true) (hround : RunsRound set env body step u w)
      (hdone : w.control = .done) (hloop : RunsLoop set env cond step body w t) :
      RunsLoop set env cond step body s t

/-- A new scope inside the current environment. -/
def State.opened (s : State) : State :=
  { s with store := (s.store.newEnv (some s.env) Bindings.empty).2 }

/-- The outcome of a `for` statement. With an initializer it has a scope of its own, in which the
initializer runs first. -/
inductive RunsFor (set : Setting) (cond step : Option Expr) (body : Stmt) :
    Option Stmt → State → State → Prop where
  | plain {s t} (hloop : RunsLoop set s.env cond step body s t) :
      RunsFor set cond step body none s t
  | broken {init s t} (hinit : Comes set s.store.envs.size (.exec init) s.opened t)
      (habrupt : t.control.IsAbrupt) : RunsFor set cond step body (some init) s { t with env := s.env }
  | full {init s u t} (hinit : Comes set s.store.envs.size (.exec init) s.opened u)
      (hdone : u.control = .done)
      (hloop : RunsLoop set s.store.envs.size cond step body u t) :
      RunsFor set cond step body (some init) s { t with env := s.env }

variable {set : Setting} {s t u v w : State} {fs : List Frame} {frame : Frame} {n env : Nat}
  {body : Stmt} {control : Control}

/-! ## Steps of the direct machine -/

/-- The direct machine runs a round where it stands. -/
theorem advanceDirectly_round {stmts : List Stmt} {span : Range} (set : Setting)
    (hcontrol : s.control = .exec (.block stmts span)) (hround : isRound stmts span = true) :
    advanceDirectly set s =
      .next { s with control := .run stmts, frames := .scope s.env :: s.frames } := by
  simp only [advanceDirectly, hcontrol, State.execDirectly, if_pos hround]

/-- Otherwise it takes the same steps as the machine. -/
theorem advanceDirectly_eq (set : Setting)
    (hcontrol : ∀ stmts span, s.control = .exec (.block stmts span) → isRound stmts span = false) :
    advanceDirectly set s = advance set s := by
  obtain ⟨control, frames, env, depth, store, trace⟩ := s
  cases control with
  | exec stmt =>
      cases stmt with
      | block stmts span =>
          simp only [advanceDirectly, State.execDirectly, hcontrol stmts span rfl, advance]
          rfl
      | _ => rfl
  | _ => rfl

theorem rounds_or (control : Control) :
    (∃ stmts span, control = .exec (.block stmts span) ∧ isRound stmts span = true) ∨
      ∀ stmts span, control = .exec (.block stmts span) → isRound stmts span = false := by
  by_cases h : ∃ stmts span, control = .exec (.block stmts span) ∧ isRound stmts span = true
  · exact .inl h
  · refine .inr fun stmts span hcontrol => ?_
    exact Bool.eq_false_iff.mpr fun hround => h ⟨stmts, span, hcontrol, hround⟩

/-- A step of its own is the same with more frames below. -/
theorem advanceDirectly_onto (set : Setting) (fs : List Frame) (hthrough : ¬ s.Through) :
    advanceDirectly set (s.onto fs) =
      match advanceDirectly set s with
      | .next t => .next (t.onto fs)
      | .halt ending t => .halt ending (t.onto fs) := by
  rcases rounds_or s.control with ⟨stmts, span, hcontrol, hround⟩ | hplain
  · rw [advanceDirectly_round set hcontrol hround,
      advanceDirectly_round (s := s.onto fs) set hcontrol hround]
    rfl
  · rw [advanceDirectly_eq set hplain, advanceDirectly_eq (s := s.onto fs) set hplain]
    exact advance_onto set (mt State.through_of_leaves hthrough)

theorem State.Through.halts_directly (h : s.Through) (set : Setting) :
    ∃ ending, advanceDirectly set s = .halt ending s := by
  obtain ⟨ending, hhalt⟩ := h.halts set
  refine ⟨ending, hhalt ▸ advanceDirectly_eq set fun stmts span hcontrol => ?_⟩
  have houtcome := h.2
  rw [hcontrol] at houtcome
  exact houtcome.elim

theorem ground_advanceDirectly (h : advanceDirectly set s = .next t) : t.ground = s.ground := by
  rcases rounds_or s.control with ⟨stmts, span, hcontrol, hround⟩ | hplain
  · rw [advanceDirectly_round set hcontrol hround] at h
    cases h
    rfl
  · rw [advanceDirectly_eq set hplain] at h
    exact ground_advance h

/-! ## Runs of the direct machine -/

theorem not_through_of_next (h : advanceDirectly set s = .next u) : ¬ s.Through := by
  intro hthrough
  obtain ⟨ending, hhalt⟩ := hthrough.halts_directly set
  cases h.symm.trans hhalt

/-- The direct machine goes on from the next state. -/
theorem Ends.of_next (h : Ends set n s t) (hstep : advanceDirectly set s = .next u) :
    ∃ m, n = m + 1 ∧ Ends set m u t := by
  obtain ⟨hrun, hthrough⟩ := h
  cases n with
  | zero =>
      cases hrun
      exact absurd hthrough (not_through_of_next hstep)
  | succ n =>
      rw [runDirectly, hstep] at hrun
      exact ⟨n, rfl, hrun, hthrough⟩

theorem Ends.next (h : Ends set n u t) (hstep : advanceDirectly set s = .next u) :
    Ends set (n + 1) s t := by
  refine ⟨?_, h.2⟩
  rw [runDirectly, hstep]
  exact h.1

/-- A machine that stops has come to its outcome or does not come to one. -/
theorem Ends.of_halt (h : Ends set n s t) {ending : Ending}
    (hstep : advanceDirectly set s = .halt ending u) : n = 0 ∧ s = t := by
  obtain ⟨hrun, _⟩ := h
  cases n with
  | zero => exact ⟨rfl, congrArg Prod.snd hrun⟩
  | succ n =>
      rw [runDirectly, hstep] at hrun
      cases hrun

theorem State.Through.ends (h : s.Through) : Ends set 0 s s :=
  ⟨rfl, h⟩

theorem Ends.eq_of_through (h : Ends set n s t) (hs : s.Through) : n = 0 ∧ s = t := by
  obtain ⟨ending, hhalt⟩ := hs.halts_directly set
  exact h.of_halt hhalt

/-- What is above other frames comes to an outcome, which is handed to these. -/
theorem Ends.of_onto (h : Ends set n (v.onto fs) t) :
    ∃ a b u, a + b = n ∧ Ends set a v u ∧ Ends set b (u.onto fs) t := by
  induction n generalizing v with
  | zero =>
      obtain ⟨hrun, hthrough⟩ := h
      cases hrun
      obtain ⟨hframes, houtcome⟩ := hthrough
      have hv : v.Through := ⟨(List.append_eq_nil_iff.mp hframes).1, houtcome⟩
      exact ⟨0, 0, v, rfl, hv.ends, rfl, hframes, houtcome⟩
  | succ n ih =>
      by_cases hthrough : v.Through
      · exact ⟨0, n + 1, v, Nat.zero_add _, hthrough.ends, h⟩
      · have hstep := advanceDirectly_onto set fs hthrough
        cases hv : advanceDirectly set v with
        | halt ending v' =>
            rw [hv] at hstep
            cases (h.of_halt hstep).1
        | next v' =>
            rw [hv] at hstep
            obtain ⟨m, hm, hrest⟩ := h.of_next hstep
            cases hm
            obtain ⟨a, b, u, rfl, hfirst, hlast⟩ := ih hrest
            exact ⟨a + 1, b, u, Nat.add_right_comm a 1 b, hfirst.next hv, hlast⟩

theorem Ends.onto {m : Nat} (h : Ends set m v u) (hlast : Ends set n (u.onto fs) t) :
    Ends set (m + n) (v.onto fs) t := by
  induction m generalizing v with
  | zero =>
      obtain ⟨hrun, _⟩ := h
      cases hrun
      rwa [Nat.zero_add]
  | succ m ih =>
      cases hv : advanceDirectly set v with
      | halt ending v' => cases (h.of_halt hv).1
      | next v' =>
          obtain ⟨_, hm, hrest⟩ := h.of_next hv
          cases hm
          have hstep := advanceDirectly_onto set fs (not_through_of_next hv)
          rw [hv] at hstep
          rw [Nat.add_right_comm]
          exact (ih hrest).next hstep

theorem Ends.ground_eq (h : Ends set n s t) : t.ground = s.ground := by
  induction n generalizing s with
  | zero =>
      obtain ⟨hrun, _⟩ := h
      cases hrun
      rfl
  | succ n ih =>
      cases hs : advanceDirectly set s with
      | halt ending u => cases (h.of_halt hs).1
      | next u =>
          obtain ⟨_, hm, hrest⟩ := h.of_next hs
          cases hm
          exact (ih hrest).trans (ground_advanceDirectly hs)

/-- Whatever is run in an environment comes to its outcome there. -/
theorem Comes.env_eq (h : Comes set env control s t) : t.env = env := by
  obtain ⟨n, h⟩ := h
  have hground := h.ground_eq
  rw [State.ground, h.2.1] at hground
  exact congrArg Prod.fst hground

theorem Comes.through (h : Comes set env control s t) : t.Through := by
  obtain ⟨n, h⟩ := h
  exact h.2

/-! ## Outcomes -/

/-- A frame that waits for a clause and lets returns and errors pass. -/
inductive Frame.IsClause : Frame → Prop where
  | discard : IsClause .discard
  | test {e stmt} : IsClause (.test e stmt)
  | body {e stmt} : IsClause (.body e stmt)
  | sequence {rest} : IsClause (.sequence rest)

/-- What is run in an environment is, in the end, there with nothing that waits. -/
theorem Comes.begin_eq (h : Comes set env control s t) : t.begin env t.control = t := by
  obtain ⟨hframes, _⟩ := h.through
  have henv := h.env_eq
  obtain ⟨control, frames, env', depth, store, trace⟩ := t
  obtain rfl : frames = [] := hframes
  obtain rfl : env' = env := henv
  rfl

theorem exists_ends_next (hstep : advanceDirectly set s = .next u) :
    (∃ n, Ends set n s t) ↔ ∃ n, Ends set n u t := by
  constructor
  · rintro ⟨n, h⟩
    obtain ⟨m, _, hrest⟩ := h.of_next hstep
    exact ⟨m, hrest⟩
  · rintro ⟨n, h⟩
    exact ⟨n + 1, h.next hstep⟩

theorem exists_ends_through (hs : s.Through) : (∃ n, Ends set n s t) ↔ t = s := by
  constructor
  · rintro ⟨n, h⟩
    exact (h.eq_of_through hs).2.symm
  · rintro rfl
    exact ⟨0, hs.ends⟩

theorem not_ends_halt {ending : Ending}
    (hstep : advanceDirectly set (s.onto [frame]) = .halt ending u) :
    ¬ Ends set n (s.onto [frame]) t := by
  intro h
  obtain ⟨_, rfl⟩ := h.of_halt hstep
  exact List.append_ne_nil_of_right_ne_nil _ (List.cons_ne_nil frame []) h.2.1

/-- An abrupt outcome passes a frame that waits for a clause. -/
theorem advanceDirectly_abrupt (set : Setting) (hframe : frame.IsClause) (hframes : u.frames = [])
    (habrupt : u.control.IsAbrupt) : advanceDirectly set (u.onto [frame]) = .next u := by
  obtain ⟨control, frames, env, depth, store, trace⟩ := u
  obtain rfl : frames = [] := hframes
  cases control with
  | returning v => cases hframe <;> rfl
  | failing e => cases hframe <;> rfl
  | _ => exact habrupt.elim

/-- A clause comes to an outcome, which passes if it is abrupt, and which is handed to the frame
otherwise. -/
theorem Ends.of_clause (h : Ends set n ((s.begin env control).onto [frame]) t)
    (hframe : frame.IsClause) :
    ∃ u, Comes set env control s u ∧
      (u.control.IsAbrupt ∧ t = u ∨ ∃ m ≤ n,
        (∃ v, u.control = .value v ∧ Ends set m ((u.begin env (.value v)).onto [frame]) t) ∨
          u.control = .done ∧ Ends set m ((u.begin env .done).onto [frame]) t) := by
  obtain ⟨a, b, u, hsum, hfirst, hlast⟩ := h.of_onto
  have hu : Comes set env control s u := ⟨a, hfirst⟩
  have hle : b ≤ n := hsum ▸ Nat.le_add_left b a
  have houtcome := hu.through.2
  have heq := hu.begin_eq
  refine ⟨u, hu, ?_⟩
  generalize hcontrol : u.control = outcome at houtcome heq ⊢
  cases outcome with
  | value v =>
      rw [← heq] at hlast
      exact .inr ⟨b, hle, .inl ⟨v, rfl, hlast⟩⟩
  | done =>
      rw [← heq] at hlast
      exact .inr ⟨b, hle, .inr ⟨rfl, hlast⟩⟩
  | returning v | failing e =>
      have hstep := advanceDirectly_abrupt set hframe hu.through.1
        (by rw [hcontrol]; trivial)
      obtain ⟨m, _, hrest⟩ := hlast.of_next hstep
      exact .inl ⟨trivial, (hrest.eq_of_through hu.through).2.symm⟩
  | _ => exact houtcome.elim

theorem Comes.ends_abrupt (hu : Comes set env control s u) (hframe : frame.IsClause)
    (habrupt : u.control.IsAbrupt) :
    ∃ n, Ends set n ((s.begin env control).onto [frame]) u := by
  have hstep := advanceDirectly_abrupt set hframe hu.through.1 habrupt
  obtain ⟨a, hfirst⟩ := hu
  exact ⟨_, hfirst.onto (hfirst.2.ends.next hstep)⟩

theorem Comes.handed (hu : Comes set env control s u) {outcome : Control}
    (hcontrol : u.control = outcome)
    (hlast : ∃ n, Ends set n ((u.begin env outcome).onto fs) t) :
    ∃ n, Ends set n ((s.begin env control).onto fs) t := by
  rw [← hcontrol, hu.begin_eq] at hlast
  obtain ⟨a, hfirst⟩ := hu
  obtain ⟨b, hlast⟩ := hlast
  exact ⟨a + b, hfirst.onto hlast⟩

/-! ## Sequences -/

theorem comes_nothing : Comes set env (.run []) s t ↔ t = s.begin env .done := by
  have hstep : advanceDirectly set (s.begin env (.run [])) = .next (s.begin env .done) := rfl
  rw [Comes, exists_ends_next hstep]
  exact exists_ends_through ⟨rfl, trivial⟩

/-- Statements run one after another, up to one that is broken off. -/
theorem comes_sequence {stmt : Stmt} {rest : List Stmt} :
    Comes set env (.run (stmt :: rest)) s t ↔
      ∃ u, Comes set env (.exec stmt) s u ∧
        (u.control.IsAbrupt ∧ t = u ∨ u.control = .done ∧ Comes set env (.run rest) u t) := by
  have hstep : advanceDirectly set (s.begin env (.run (stmt :: rest))) =
    .next ((s.begin env (.exec stmt)).onto [.sequence rest]) := rfl
  have hnext : ∀ u : State, advanceDirectly set ((u.begin env .done).onto [.sequence rest]) =
    .next (u.begin env (.run rest)) := fun _ => rfl
  rw [Comes, exists_ends_next hstep]
  constructor
  · rintro ⟨n, h⟩
    obtain ⟨u, hu, ⟨habrupt, rfl⟩ | ⟨m, _, ⟨v, _, hlast⟩ | ⟨hdone, hlast⟩⟩⟩ := h.of_clause .sequence
    · exact ⟨t, hu, .inl ⟨habrupt, rfl⟩⟩
    · exact absurd hlast (not_ends_halt rfl)
    · exact ⟨u, hu, .inr ⟨hdone, (exists_ends_next (hnext u)).mp ⟨m, hlast⟩⟩⟩
  · rintro ⟨u, hu, ⟨habrupt, rfl⟩ | ⟨hdone, hrest⟩⟩
    · exact hu.ends_abrupt .sequence habrupt
    · exact hu.handed hdone ((exists_ends_next (hnext u)).mpr hrest)

/-- An expression statement discards the value. -/
theorem comes_expr {e : Expr} {span : Range} :
    Comes set env (.exec (.expr e span)) s t ↔
      ∃ u, Comes set env (.eval e) s u ∧
        (u.control.IsAbrupt ∧ t = u ∨ ∃ v, u.control = .value v ∧ t = u.begin env .done) := by
  have hstep : advanceDirectly set (s.begin env (.exec (.expr e span))) =
    .next ((s.begin env (.eval e)).onto [.discard]) := rfl
  have hnext : ∀ (u : State) (v : Value),
    advanceDirectly set ((u.begin env (.value v)).onto [.discard]) = .next (u.begin env .done) :=
      fun _ _ => rfl
  have hdone : ∀ u : State, (u.begin env .done).Through := fun _ => ⟨rfl, trivial⟩
  rw [Comes, exists_ends_next hstep]
  constructor
  · rintro ⟨n, h⟩
    obtain ⟨u, hu, ⟨habrupt, rfl⟩ | ⟨m, _, ⟨v, hv, hlast⟩ | ⟨_, hlast⟩⟩⟩ := h.of_clause .discard
    · exact ⟨t, hu, .inl ⟨habrupt, rfl⟩⟩
    · obtain ⟨_, _, hrest⟩ := hlast.of_next (hnext u v)
      exact ⟨u, hu, .inr ⟨v, hv, (hrest.eq_of_through (hdone u)).2.symm⟩⟩
    · exact absurd hlast (not_ends_halt rfl)
  · rintro ⟨u, hu, ⟨habrupt, rfl⟩ | ⟨v, hv, rfl⟩⟩
    · exact hu.ends_abrupt .discard habrupt
    · exact hu.handed hv ⟨1, (hdone u).ends.next (hnext u v)⟩

/-- A frame that leads back to an environment is passed by all but values. -/
theorem exists_ends_scope {saved : Nat} :
    (∃ n, Ends set n ((s.begin env control).onto [.scope saved]) t) ↔
      ∃ u, Comes set env control s u ∧ (u.control.IsAbrupt ∨ u.control = .done) ∧
        t = { u with env := saved } := by
  constructor
  · rintro ⟨n, h⟩
    obtain ⟨a, b, u, _, hfirst, hlast⟩ := h.of_onto
    refine ⟨u, ⟨a, hfirst⟩, ?_⟩
    obtain ⟨control, frames, here, depth, store, trace⟩ := u
    obtain ⟨hframes, houtcome⟩ := hfirst.2
    obtain rfl : frames = [] := hframes
    have hback : ∀ c : Control, State.Through ⟨c, [], here, depth, store, trace⟩ →
        State.Through ⟨c, [], saved, depth, store, trace⟩ := fun _ h => h
    cases control with
    | value v => exact absurd hlast (not_ends_halt rfl)
    | done | returning v | failing e =>
        obtain ⟨_, _, hrest⟩ := hlast.of_next rfl
        have hends := hrest.eq_of_through (hback _ ⟨rfl, trivial⟩)
        exact ⟨by simp [Control.IsAbrupt], hends.2.symm⟩
    | _ => exact houtcome.elim
  · rintro ⟨u, ⟨a, hfirst⟩, houtcome, rfl⟩
    obtain ⟨control, frames, here, depth, store, trace⟩ := u
    obtain ⟨hframes, _⟩ := hfirst.2
    obtain rfl : frames = [] := hframes
    cases control with
    | done | returning v | failing e =>
        exact ⟨_, hfirst.onto (State.Through.ends ⟨rfl, trivial⟩ |>.next rfl)⟩
    | _ => simp [Control.IsAbrupt] at houtcome

/-! ## Clauses -/

theorem tests_iff {cond : Option Expr} {close : Range} :
    Comes set env (.eval (cond.getD (.literal (.bool true) close))) s t ↔
      Tests set env cond s t := by
  cases cond with
  | some e =>
      constructor
      · exact .given
      · rintro (_ | h)
        exact h
  | none =>
      have hstep : advanceDirectly set (s.begin env (.eval (.literal (.bool true) close))) =
        .next (s.begin env (.value (.bool true))) := rfl
      rw [Option.getD_none, Comes, exists_ends_next hstep, exists_ends_through ⟨rfl, trivial⟩]
      constructor
      · rintro rfl
        exact .omitted
      · rintro (_ | _)
        rfl

/-- What the loop of a `for` statement runs again and again. -/
def roundOf (body : Stmt) : Option Expr → Stmt
  | some e => .block [body, .expr e e.span] body.span
  | none => body

/-- The body and behind it the increment, as statements. -/
theorem comes_body_step {e : Expr} {span : Range} :
    Comes set env (.run [body, .expr e span]) s t ↔ RunsRound set env body (some e) s t := by
  rw [comes_sequence]
  constructor
  · rintro ⟨u, hbody, ⟨habrupt, rfl⟩ | ⟨hdone, hrest⟩⟩
    · exact .broken hbody habrupt
    · obtain ⟨w, hw, hend⟩ := comes_sequence.mp hrest
      obtain ⟨x, hstep, ⟨habrupt, rfl⟩ | ⟨v, hvalue, rfl⟩⟩ := comes_expr.mp hw
      · obtain ⟨_, rfl⟩ | ⟨hnot, _⟩ := hend
        · exact .failed hbody hdone hstep habrupt
        · rw [hnot] at habrupt
          exact habrupt.elim
      · obtain ⟨hnot, _⟩ | ⟨_, hnothing⟩ := hend
        · exact hnot.elim
        · obtain rfl := comes_nothing.mp hnothing
          exact .full (t := x) hbody hdone hstep hvalue
  · intro h
    cases h with
    | broken hbody habrupt => exact ⟨t, hbody, .inl ⟨habrupt, rfl⟩⟩
    | failed hbody hdone hstep habrupt =>
        refine ⟨_, hbody, .inr ⟨hdone, comes_sequence.mpr ⟨t, ?_, .inl ⟨habrupt, rfl⟩⟩⟩⟩
        exact comes_expr.mpr ⟨t, hstep, .inl ⟨habrupt, rfl⟩⟩
    | @full _ _ _ x v hbody hdone hstep hvalue =>
        have hend : Comes set env (.run []) (x.begin env .done) (x.begin env .done) :=
          comes_nothing.mpr rfl
        refine ⟨_, hbody, .inr ⟨hdone, comes_sequence.mpr ⟨_, ?_, .inr ⟨rfl, hend⟩⟩⟩⟩
        exact comes_expr.mpr ⟨x, hstep, .inr ⟨v, hvalue, rfl⟩⟩

theorem RunsRound.finishes {e : Expr} (h : RunsRound set env body (some e) s t) :
    t.control.IsAbrupt ∨ t.control = .done := by
  cases h with
  | broken _ habrupt => exact .inl habrupt
  | failed _ _ _ habrupt => exact .inl habrupt
  | full => exact .inr rfl

/-- The round of a `for` statement runs the body and the increment. -/
theorem runsRound_iff {step : Option Expr} :
    Comes set env (.exec (roundOf body step)) s t ↔ RunsRound set env body step s t := by
  cases step with
  | none =>
      constructor
      · exact .plain
      · rintro (h | _)
        exact h
  | some e =>
      have hstep : advanceDirectly set (s.begin env (.exec (roundOf body (some e)))) =
          .next ((s.begin env (.run [body, .expr e e.span])).onto [.scope env]) :=
        advanceDirectly_round set rfl (isRound_step body e e.span)
      have hback : ∀ {u : State}, Comes set env (.run [body, .expr e e.span]) s u →
          { u with env := env } = u := fun hu => by rw [← hu.env_eq]
      rw [Comes, exists_ends_next hstep, exists_ends_scope]
      constructor
      · rintro ⟨u, hu, _, rfl⟩
        rw [hback hu]
        exact comes_body_step.mp hu
      · intro h
        have ht : Comes set env (.run [body, .expr e e.span]) s t := comes_body_step.mpr h
        exact ⟨t, ht, h.finishes, (hback ht).symm⟩

/-! ## Loops -/

section

variable {cond step : Option Expr} {test : Expr}

theorem advanceDirectly_test {v : Value} {stmt : Stmt} (s : State) (htruthy : v.truthy = true) :
    advanceDirectly set ((s.begin env (.value v)).onto [.test test stmt]) =
      .next ((s.begin env (.exec stmt)).onto [.body test stmt]) :=
  if_pos htruthy

theorem advanceDirectly_test_false {v : Value} {stmt : Stmt} (s : State)
    (hfalsy : v.truthy = false) :
    advanceDirectly set ((s.begin env (.value v)).onto [.test test stmt]) =
      .next (s.begin env .done) :=
  if_neg (Bool.eq_false_iff.mp hfalsy)

theorem advanceDirectly_body {stmt : Stmt} (s : State) :
    advanceDirectly set ((s.begin env .done).onto [.body test stmt]) =
      .next ((s.begin env (.eval test)).onto [.test test stmt]) :=
  rfl

/-- The condition, the body and the increment run until one of them ends the loop. -/
theorem RunsLoop.of_ends
    (htest : ∀ s t, Comes set env (.eval test) s t → Tests set env cond s t)
    (h : Ends set n ((s.begin env (.eval test)).onto [.test test (roundOf body step)]) t) :
    RunsLoop set env cond step body s t := by
  induction n using Nat.strong_induction_on generalizing s with
  | _ n ih =>
      obtain ⟨u, hu, ⟨habrupt, rfl⟩ | ⟨m, hm, ⟨v, hv, hlast⟩ | ⟨_, hlast⟩⟩⟩ := h.of_clause .test
      · exact .failed (htest s t hu) habrupt
      · have hcond := htest s u hu
        cases hv' : v.truthy with
        | false =>
            obtain ⟨_, _, hrest⟩ := hlast.of_next (advanceDirectly_test_false u hv')
            obtain ⟨_, rfl⟩ := hrest.eq_of_through ⟨rfl, trivial⟩
            exact .stopped hcond hv hv'
        | true =>
            obtain ⟨k, rfl, hrest⟩ := hlast.of_next (advanceDirectly_test u hv')
            obtain ⟨w, hw, ⟨habrupt, rfl⟩ | ⟨l, hl, ⟨_, _, hlast⟩ | ⟨hdone, hlast⟩⟩⟩ :=
              hrest.of_clause .body
            · exact .broken hcond hv hv' (runsRound_iff.mp hw) habrupt
            · exact absurd hlast (not_ends_halt rfl)
            · obtain ⟨j, rfl, hagain⟩ := hlast.of_next (advanceDirectly_body w)
              exact .again hcond hv hv' (runsRound_iff.mp hw) hdone (ih j (by omega) hagain)
      · exact absurd hlast (not_ends_halt rfl)

theorem RunsLoop.ends (h : RunsLoop set env cond step body s t)
    (htest : ∀ s t, Tests set env cond s t → Comes set env (.eval test) s t) :
    ∃ n, Ends set n ((s.begin env (.eval test)).onto [.test test (roundOf body step)]) t := by
  have hround : ∀ {s u t : State} {v : Value}, Tests set env cond s u → u.control = .value v →
      v.truthy = true →
      (∃ n, Ends set n ((u.begin env (.exec (roundOf body step))).onto
        [.body test (roundOf body step)]) t) →
      ∃ n, Ends set n ((s.begin env (.eval test)).onto [.test test (roundOf body step)]) t := by
    intro s u t v hcond hv hv' hlast
    exact (htest s u hcond).handed hv ((exists_ends_next (advanceDirectly_test u hv')).mpr hlast)
  induction h with
  | failed hcond habrupt => exact (htest _ _ hcond).ends_abrupt .test habrupt
  | @stopped s t v hcond hv hv' =>
      have hdone : (t.begin env .done).Through := ⟨rfl, trivial⟩
      exact (htest s t hcond).handed hv ⟨1, hdone.ends.next (advanceDirectly_test_false t hv')⟩
  | broken hcond hv hv' hbody habrupt =>
      exact hround hcond hv hv' ((runsRound_iff.mpr hbody).ends_abrupt .body habrupt)
  | @again s u w t v hcond hv hv' hbody hdone _ ih =>
      refine hround hcond hv hv' ((runsRound_iff.mpr hbody).handed hdone ?_)
      exact (exists_ends_next (advanceDirectly_body w)).mpr ih

/-- A loop whose condition is that of a `for` statement runs its clauses. -/
theorem runsLoop_iff {close span : Range} :
    Comes set env (.exec (.loop (cond.getD (.literal (.bool true) close)) (roundOf body step) span))
        s t ↔ RunsLoop set env cond step body s t := by
  have hstep : ∀ test : Expr,
      advanceDirectly set (s.begin env (.exec (.loop test (roundOf body step) span))) =
        .next ((s.begin env (.eval test)).onto [.test test (roundOf body step)]) := fun _ => rfl
  rw [Comes, exists_ends_next (hstep _)]
  constructor
  · rintro ⟨n, h⟩
    exact .of_ends (fun _ _ => tests_iff.mp) h
  · intro h
    exact h.ends fun _ _ => tests_iff.mpr

theorem RunsLoop.finishes (h : RunsLoop set env cond step body s t) :
    t.control.IsAbrupt ∨ t.control = .done := by
  induction h with
  | failed _ habrupt => exact .inl habrupt
  | stopped => exact .inr rfl
  | broken _ _ _ _ habrupt => exact .inl habrupt
  | again _ _ _ _ _ _ ih => exact ih

theorem comes_loop {close span : Range} :
    Comes set env
        (.run [.loop (cond.getD (.literal (.bool true) close)) (roundOf body step) span]) s t ↔
      RunsLoop set env cond step body s t := by
  rw [comes_sequence]
  constructor
  · rintro ⟨u, hu, ⟨_, rfl⟩ | ⟨hdone, hnothing⟩⟩
    · exact runsLoop_iff.mp hu
    · obtain rfl := comes_nothing.mp hnothing
      rw [← hdone, hu.begin_eq]
      exact runsLoop_iff.mp hu
  · intro h
    have ht : Comes set env (.exec (.loop (cond.getD (.literal (.bool true) close))
      (roundOf body step) span)) s t := runsLoop_iff.mpr h
    refine ⟨t, ht, h.finishes.imp (fun habrupt => ⟨habrupt, rfl⟩) fun hdone => ⟨hdone, ?_⟩⟩
    rw [comes_nothing, ← hdone, ht.begin_eq]

theorem forLoop_eq (init : Option Stmt) (test : Expr) (step : Option Expr) (body : Stmt)
    (span : Range) :
    Parser.forLoop init test step body span =
      match init with
      | some i => .block [i, .loop test (roundOf body step) span] span
      | none => .loop test (roundOf body step) span := by
  cases step <;> cases init <;> rfl

/-- The tree that stands for a `for` statement does what the statement does. -/
theorem runsFor_iff {init : Option Stmt} {close span : Range} :
    Comes set s.env
        (.exec (Parser.forLoop init (cond.getD (.literal (.bool true) close)) step body span)) s t ↔
      RunsFor set cond step body init s t := by
  rw [forLoop_eq]
  cases init with
  | none =>
      rw [runsLoop_iff]
      constructor
      · exact .plain
      · rintro (h | _)
        exact h
  | some i =>
      have hstep : ∀ test : Expr, advanceDirectly set
          (s.begin s.env (.exec (.block [i, .loop test (roundOf body step) span] span))) =
            .next ((s.opened.begin s.store.envs.size
              (.run [i, .loop test (roundOf body step) span])).onto [.scope s.env]) := by
        intro test
        refine advanceDirectly_eq set fun stmts span hcontrol => ?_
        cases hcontrol
        rfl
      rw [Comes, exists_ends_next (hstep _), exists_ends_scope]
      constructor
      · rintro ⟨u, hu, _, rfl⟩
        obtain ⟨w, hinit, ⟨habrupt, rfl⟩ | ⟨hdone, hloop⟩⟩ := comes_sequence.mp hu
        · exact .broken hinit habrupt
        · exact .full hinit hdone (comes_loop.mp hloop)
      · rintro (_ | ⟨hinit, habrupt⟩ | ⟨hinit, hdone, hloop⟩)
        · exact ⟨_, comes_sequence.mpr ⟨_, hinit, .inl ⟨habrupt, rfl⟩⟩, .inl habrupt, rfl⟩
        · exact ⟨_, comes_sequence.mpr ⟨_, hinit, .inr ⟨hdone, comes_loop.mpr hloop⟩⟩,
            hloop.finishes, rfl⟩

end

end LoxMachine
