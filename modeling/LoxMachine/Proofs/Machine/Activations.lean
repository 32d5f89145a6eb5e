import LoxMachine.Proofs.Machine.Ground
import Mathlib.Data.Nat.Find

/-!
# Active calls

Whatever the machine begins, it comes to the outcome in the environment and with the number of
active calls it began with.  That number is the number of frames of calls, and a call that
would take it beyond its bound is refused.
-/

namespace LoxMachine

def Frame.isActivation : Frame → Bool
  | .activation _ _ => true
  | _ => false

/-- The number of functions that have been entered and not yet been left. -/
def activeCalls (frames : List Frame) : Nat :=
  frames.countP Frame.isActivation

def Control.IsOutcome : Control → Prop
  | .value _ | .done | .returning _ | .failing _ => True
  | _ => False

/-- The machine hands an outcome to these frames. -/
def State.Hands (s : State) (waiting : List Frame) : Prop :=
  s.frames = waiting ∧ s.control.IsOutcome

/-- The machine begins to evaluate, to execute or to call something, and these frames wait for
the outcome.  With the call of a class it also begins the call of the initializer, for which
the new instance waits. -/
inductive State.Begins (s : State) : List Frame → Prop where
  | evaluation {e} (hcontrol : s.control = .eval e) : Begins s s.frames
  | statement {stmt} (hcontrol : s.control = .exec stmt) : Begins s s.frames
  | statements {body} (hcontrol : s.control = .run body) : Begins s s.frames
  | call {range callee args} (hcontrol : s.control = .call range callee args) : Begins s s.frames
  | initializer {range cls args init} (hcontrol : s.control = .call range (.classRef cls) args)
      (hinit : s.store.method? cls (utf8 "init") = some init) :
      Begins s (.construct s.store.instances.size :: s.frames)

/-- From `s` the machine comes to `t` in `n` steps, and there it hands an outcome to these frames
for the first time. -/
def ConcludesAfter (set : Setting) (waiting : List Frame) (n : Nat) (s t : State) : Prop :=
  run set n s = (none, t) ∧ t.Hands waiting ∧
    ∀ m < n, ∀ u, run set m s = (none, u) → ¬ u.Hands waiting

/-- From `s` the machine comes to `t`, where it hands an outcome to these frames for the first
time. -/
def Concludes (set : Setting) (waiting : List Frame) (s t : State) : Prop :=
  ∃ n, ConcludesAfter set waiting n s t

variable {set : Setting} {s t u v : State} {waiting : List Frame} {frame : Frame} {n : Nat}

/-! ## Conclusions -/

theorem State.onto_onto (v : State) (above below : List Frame) :
    (v.onto above).onto below = v.onto (above ++ below) := by
  rw [State.onto, State.onto, State.onto, List.append_assoc]

theorem hands_onto_iff : (v.onto waiting).Hands waiting ↔ v.Through := by
  have houtcome : v.control.IsOutcome ↔ match v.control with
      | .value _ | .done | .returning _ | .failing _ => True
      | _ => False := by
    cases v.control <;> exact Iff.rfl
  exact and_congr List.append_left_eq_self houtcome

/-- Until an outcome is handed to the frames below, a run stays above them. -/
theorem exists_onto_of_run (hrun : run set n (v.onto waiting) = (none, u))
    (hfirst : ∀ m < n, ∀ u, run set m (v.onto waiting) = (none, u) → ¬ u.Hands waiting) :
    ∃ w : State, u = w.onto waiting ∧ run set n v = (none, w) := by
  induction n generalizing v with
  | zero =>
      cases hrun
      exact ⟨v, rfl, rfl⟩
  | succ n ih =>
      have hlasts : ¬ v.Through := fun hthrough =>
        hfirst 0 (Nat.succ_pos n) _ rfl (hands_onto_iff.mpr hthrough)
      have hstep : advance set (v.onto waiting) = _ :=
        advance_onto set (mt State.through_of_leaves hlasts)
      cases hv : advance set v with
      | halt ending t =>
          rw [run, hstep, hv] at hrun
          cases hrun
      | next v' =>
          rw [hv] at hstep
          rw [run_of_next hstep] at hrun
          have hlater : ∀ m < n, ∀ u, run set m (v'.onto waiting) = (none, u) →
              ¬ u.Hands waiting := by
            intro m hm u hu
            exact hfirst (m + 1) (Nat.succ_lt_succ hm) u ((run_of_next hstep m).trans hu)
          obtain ⟨w, hw, hown⟩ := ih hrun hlater
          exact ⟨w, hw, (run_of_next hv n).trans hown⟩

/-- A function is called above the frames that wait for it. -/
theorem exists_enter (s : State) (range : Range) (c : Closure) (args : List Value) :
    ∃ v : State, s.enter set range c args = .next (v.onto s.frames) := by
  unfold State.enter
  dsimp only
  split
  · exact ⟨{ s with control := _, frames := [] }, rfl⟩
  · split
    · exact ⟨{ s with control := _, frames := [] }, rfl⟩
    · rw [log_frames]
      exact ⟨⟨_, [_], _, _, _, _⟩, rfl⟩

/-- Called with nothing that waits, a class with an initializer makes its new instance wait. -/
theorem next_construct {range : Range} {cls : Nat} {args : List Value} {init : Closure}
    (hcontrol : s.control = .call range (.classRef cls) args) (hframes : s.frames = [])
    (hinit : s.store.method? cls (utf8 "init") = some init) :
    ∃ v : State, advance set s = .next (v.onto [.construct s.store.instances.size]) := by
  have hinit := (s.store.method?_newInstance cls cls (utf8 "init")).trans hinit
  simp only [advance, hcontrol, State.callValue, State.instantiate, hinit, hframes]
  exact exists_enter _ range _ args

theorem State.Begins.not_isOutcome (h : s.Begins waiting) : ¬ s.control.IsOutcome := by
  cases h with
  | evaluation hcontrol | statement hcontrol | statements hcontrol | call hcontrol
  | initializer hcontrol =>
      rw [hcontrol]
      exact id

/-- What is begun is run above the frames that wait for it until it is concluded, and above
where it began: at once, or after the step that makes an instance. -/
theorem State.Begins.onto_of_run (h : s.Begins waiting) (hrun : run set n s = (none, u))
    (hfirst : ∀ m < n, ∀ u, run set m s = (none, u) → ¬ u.Hands waiting) :
    u = s ∨ ∃ w : State, u = w.onto waiting ∧ w.ground = (s.env, s.depth) := by
  let alone : State := { s with frames := [] }
  have hs : alone.onto s.frames = s := rfl
  cases h with
  | evaluation | statement | statements | call =>
      rw [← hs] at hrun hfirst
      obtain ⟨w, rfl, hown⟩ := exists_onto_of_run hrun hfirst
      exact .inr ⟨w, rfl, ground_run hown⟩
  | @initializer range cls args init hcontrol hinit =>
      cases n with
      | zero =>
          cases hrun
          exact .inl rfl
      | succ n =>
          obtain ⟨v, hstep⟩ : ∃ v : State, advance set alone = _ :=
            next_construct hcontrol rfl hinit
          have hlasts : ¬ alone.Through := fun hthrough => by
            have houtcome := hthrough.2
            rw [hcontrol] at houtcome
            exact houtcome
          have honto : advance set (alone.onto s.frames) = _ :=
            advance_onto set (mt State.through_of_leaves hlasts)
          rw [hs, hstep] at honto
          dsimp only at honto
          rw [State.onto_onto] at honto
          have hv : v.ground = (s.env, s.depth) := by
            have hground := ground_advance hstep
            rw [State.ground, State.onto, groundOf, List.foldl_append] at hground
            exact hground
          rw [run_of_next honto] at hrun
          have hlater : ∀ m < n, ∀ u,
              run set m (v.onto (.construct s.store.instances.size :: s.frames)) = (none, u) →
              ¬ u.Hands (.construct s.store.instances.size :: s.frames) := by
            intro m hm u hu
            exact hfirst (m + 1) (Nat.succ_lt_succ hm) u ((run_of_next honto m).trans hu)
          obtain ⟨w, rfl, hown⟩ := exists_onto_of_run hrun hlater
          exact .inr ⟨w, rfl, (ground_run hown).trans hv⟩

/-- What is begun is concluded where it began. -/
theorem Concludes.restores (h : Concludes set waiting s t) (hs : s.Begins waiting) :
    t.env = s.env ∧ t.depth = s.depth := by
  obtain ⟨n, hrun, ⟨hframes, houtcome⟩, hfirst⟩ := h
  rcases hs.onto_of_run hrun hfirst with rfl | ⟨w, rfl, hground⟩
  · exact absurd houtcome hs.not_isOutcome
  · have hnone : w.frames = [] := List.append_left_eq_self.mp hframes
    rw [State.ground, hnone] at hground
    exact Prod.mk.inj hground

theorem exists_concludes (hrun : run set n s = (none, u)) (hhands : u.Hands waiting) :
    ∃ t, Concludes set waiting s t ∧ Reaches set t u := by
  classical
  have hsome : ∃ m, ∃ t, run set m s = (none, t) ∧ t.Hands waiting := ⟨n, u, hrun, hhands⟩
  obtain ⟨t, ht, hfirst⟩ := Nat.find_spec hsome
  have hle : Nat.find hsome ≤ n := Nat.find_le ⟨u, hrun, hhands⟩
  obtain ⟨more, hmore⟩ := Nat.exists_eq_add_of_le hle
  refine ⟨t, ⟨Nat.find hsome, ht, hfirst, fun m hm u hu hhands => ?_⟩, more, ?_⟩
  · exact Nat.find_min hsome hm ⟨u, hu, hhands⟩
  · rw [hmore, run_add ht] at hrun
    exact hrun

/-- On its own a machine is through in one way at most. -/
theorem Reaches.eq_of_through (h : Reaches set s t) (ht : t.Through) (h' : Reaches set s u)
    (hu : u.Through) : t = u := by
  obtain ⟨n, hn⟩ := h
  induction n generalizing s with
  | zero =>
      cases hn
      obtain ⟨ending, hhalt⟩ := ht.halts set
      exact h'.eq_of_halt hhalt
  | succ n ih =>
      obtain ⟨s', hstep, hrest⟩ := exists_next_of_run hn
      have hne : s ≠ u := by
        rintro rfl
        obtain ⟨ending, hhalt⟩ := hu.halts set
        cases hstep.symm.trans hhalt
      exact ih ((reaches_step hstep hne).mp h') hrest

/-- What the machine concludes above the frames that wait is what it is through with on its
own. -/
theorem concludes_onto_iff : Concludes set waiting (v.onto waiting) t ↔
    ∃ w, Reaches set v w ∧ w.Through ∧ t = w.onto waiting := by
  have hown : ∀ {t}, Concludes set waiting (v.onto waiting) t →
      ∃ w, Reaches set v w ∧ w.Through ∧ t = w.onto waiting := by
    rintro t ⟨n, hrun, hhands, hfirst⟩
    obtain ⟨w, rfl, hreached⟩ := exists_onto_of_run hrun hfirst
    exact ⟨w, ⟨n, hreached⟩, hands_onto_iff.mp hhands, rfl⟩
  refine ⟨hown, ?_⟩
  rintro ⟨w, ⟨n, hreached⟩, hthrough, rfl⟩
  obtain ⟨t, ht, _⟩ := exists_concludes (run_onto hreached waiting) (hands_onto_iff.mpr hthrough)
  obtain ⟨w', hreached', hthrough', rfl⟩ := hown ht
  rw [Reaches.eq_of_through ⟨n, hreached⟩ hthrough hreached' hthrough']
  exact ht

/-- What the machine has come to after as many steps, with nothing that waits. -/
def State.outcome? (set : Setting) (n : Nat) (s : State) : Option Control :=
  match run set n { s with frames := [] } with
  | (none, ⟨control, [], _, _, _, _⟩) => some control
  | _ => none

def State.failsAfter (set : Setting) (n : Nat) (s : State) : Bool :=
  match s.outcome? set n with
  | some (.failing _) => true
  | _ => false

def State.yieldsAfter (set : Setting) (n : Nat) (s : State) : Bool :=
  match s.outcome? set n with
  | some (.value _) => true
  | _ => false

theorem State.exists_concludes_of_outcome? {control : Control}
    (h : s.outcome? set n = some control) (houtcome : control.IsOutcome) :
    ∃ t, Concludes set s.frames s t ∧ t.control = control := by
  unfold outcome? at h
  split at h
  next control' env depth store trace hrun =>
    cases h
    let w : State := ⟨control, [], env, depth, store, trace⟩
    refine ⟨w.onto s.frames, ?_, rfl⟩
    have hthrough : w.Through := hands_onto_iff.mp ⟨List.nil_append s.frames, houtcome⟩
    change Concludes set s.frames (State.onto { s with frames := [] } s.frames) _
    exact concludes_onto_iff.mpr ⟨w, ⟨n, hrun⟩, hthrough, rfl⟩
  next => cases h

theorem State.exists_concludes_of_failsAfter (h : s.failsAfter set n = true) :
    ∃ t, Concludes set s.frames s t ∧ ∃ e, t.control = .failing e := by
  unfold failsAfter at h
  split at h
  next e houtcome =>
    obtain ⟨t, ht, hcontrol⟩ := exists_concludes_of_outcome? houtcome trivial
    exact ⟨t, ht, e, hcontrol⟩
  next => cases h

theorem State.exists_concludes_of_yieldsAfter (h : s.yieldsAfter set n = true) :
    ∃ t, Concludes set s.frames s t ∧ ∃ v, t.control = .value v := by
  unfold yieldsAfter at h
  split at h
  next v houtcome =>
    obtain ⟨t, ht, hcontrol⟩ := exists_concludes_of_outcome? houtcome trivial
    exact ⟨t, ht, v, hcontrol⟩
  next => cases h

/-- A machine that is through after a step is concluded with what it has come to. -/
theorem concludes_next_iff (hstep : advance set s = .next v) (hthrough : v.Through) :
    Concludes set waiting (s.onto waiting) t ↔ t = v.onto waiting := by
  rw [concludes_onto_iff]
  constructor
  · rintro ⟨w, hw, hend, rfl⟩
    rw [Reaches.eq_of_through (.of_next hstep) hthrough hw hend]
  · rintro rfl
    exact ⟨v, .of_next hstep, hthrough, rfl⟩

/-- A machine that stops without being through has no conclusion. -/
theorem not_concludes_of_halt {ending : Ending} (hstep : advance set s = .halt ending u)
    (hlasts : ¬ s.Through) : ¬ Concludes set waiting (s.onto waiting) t := by
  rw [concludes_onto_iff]
  rintro ⟨w, hw, hend, rfl⟩
  rw [hw.eq_of_halt hstep] at hlasts
  exact hlasts hend

/-- A frame that waits for a call takes one step to what it makes of the outcome. -/
theorem next_of_pending (hframe : frame.Pending) (hthrough : u.Through)
    (hrest : Reaches set (u.onto [frame]) v) (hend : v.Through) :
    advance set (u.onto [frame]) = .next v := by
  have hends := ends_of_pending set hframe hthrough
  cases hnext : advance set (u.onto [frame]) with
  | halt ending x =>
      rw [← hrest.eq_of_halt hnext] at hend
      exact absurd hend.1 (List.append_ne_nil_of_right_ne_nil _ (List.cons_ne_nil _ _))
  | next x =>
      rw [hnext] at hends
      rw [Reaches.eq_of_through (.of_next hnext) hends hrest hend]

/-- What is not concluded yet is concluded as after the next step. -/
theorem concludes_step_iff (hstep : advance set s = .next u) (hlasts : ¬ s.Hands waiting) :
    Concludes set waiting s t ↔ Concludes set waiting u t := by
  constructor
  · rintro ⟨n, hrun, hhands, hfirst⟩
    cases n with
    | zero =>
        cases hrun
        exact absurd hhands hlasts
    | succ n =>
        rw [run_of_next hstep] at hrun
        refine ⟨n, hrun, hhands, fun m hm x hx => ?_⟩
        exact hfirst (m + 1) (Nat.succ_lt_succ hm) x ((run_of_next hstep m).trans hx)
  · rintro ⟨n, hrun, hhands, hfirst⟩
    refine ⟨n + 1, (run_of_next hstep n).trans hrun, hhands, fun m hm x hx => ?_⟩
    cases m with
    | zero =>
        cases hx
        exact hlasts
    | succ m =>
        rw [run_of_next hstep] at hx
        exact hfirst m (Nat.lt_of_succ_lt_succ hm) x hx

/-- What begins with something for which a frame waits is concluded with what the frame makes of
its outcome. -/
theorem concludes_await_iff (hstep : advance set s = .next (v.onto [frame])) :
    Concludes set waiting (s.onto waiting) t ↔
      ∃ u w, Reaches set v u ∧ u.Through ∧ Reaches set (u.onto [frame]) w ∧ w.Through ∧
        t = w.onto waiting := by
  rw [concludes_onto_iff]
  constructor
  · rintro ⟨w, hw, hthrough, rfl⟩
    have hne : s ≠ w := by
      rintro rfl
      obtain ⟨ending, hhalt⟩ := hthrough.halts set
      cases hstep.symm.trans hhalt
    rcases ((reaches_step hstep hne).mp hw).of_onto with ⟨x, _, rfl⟩ | ⟨u, hu, huthrough, hrest⟩
    · exact absurd hthrough.1 (List.append_ne_nil_of_right_ne_nil _ (List.cons_ne_nil _ _))
    · exact ⟨u, w, hu, huthrough, hrest, hthrough, rfl⟩
  · rintro ⟨u, w, hu, _, hrest, hthrough, rfl⟩
    exact ⟨w, (Reaches.of_next hstep).trans ((hu.onto [frame]).trans hrest), hthrough, rfl⟩

/-- Whatever is begun lasts until it is concluded. -/
theorem State.Begins.lasts (h : s.Begins waiting) (hrun : run set n s = (none, u)) :
    u = s ∨ (∃ above, u.frames = above ++ waiting) ∨
      ∃ t, Concludes set waiting s t ∧ Reaches set t u := by
  by_cases hconcluded : ∃ m < n, ∃ t, run set m s = (none, t) ∧ t.Hands waiting
  · obtain ⟨m, hm, t, ht, hhands⟩ := hconcluded
    obtain ⟨t', hconcludes, hreaches⟩ := exists_concludes ht hhands
    obtain ⟨more, rfl⟩ := Nat.exists_eq_add_of_le (Nat.le_of_lt hm)
    rw [run_add ht] at hrun
    exact .inr (.inr ⟨t', hconcludes, hreaches.trans ⟨more, hrun⟩⟩)
  · have hfirst : ∀ m < n, ∀ u, run set m s = (none, u) → ¬ u.Hands waiting :=
      fun m hm t ht hhands => hconcluded ⟨m, hm, t, ht, hhands⟩
    rcases h.onto_of_run hrun hfirst with heq | ⟨w, rfl, _⟩
    · exact .inl heq
    · exact .inr (.inl ⟨w.frames, rfl⟩)

/-- A machine that stops without a defect is through. -/
theorem through_of_halt {ending : Ending} (h : advance set s = .halt ending t)
    (hending : ∀ d, ending ≠ .broken d) : s.Through := by
  by_contra hthrough
  have habove := above_advance set hthrough
  rw [h] at habove
  obtain ⟨d, hd⟩ := habove
  exact hending d hd

/-- Nothing that is begun is left without a conclusion when the run ends. -/
theorem State.Begins.exists_concludes_of_halt {ending : Ending} (h : s.Begins waiting)
    (hrun : run set n s = (some ending, u)) (hending : ∀ d, ending ≠ .broken d) :
    ∃ t, Concludes set waiting s t := by
  have hlast : ∃ m t, run set m s = (none, t) ∧ t.Through := by
    clear h
    induction n generalizing s with
    | zero => cases hrun
    | succ n ih =>
        rw [run] at hrun
        cases hstep : advance set s with
        | halt ending' t =>
            rw [hstep] at hrun
            cases hrun
            exact ⟨0, s, rfl, through_of_halt hstep hending⟩
        | next s' =>
            rw [hstep] at hrun
            obtain ⟨m, t, ht, hthrough⟩ := ih hrun
            exact ⟨m + 1, t, (run_of_next hstep m).trans ht, hthrough⟩
  obtain ⟨m, t, ht, hthrough⟩ := hlast
  have hhands : t.Hands [] := by
    have honto : t.onto [] = t := by rw [State.onto, List.append_nil]
    exact honto ▸ hands_onto_iff.mpr hthrough
  rcases h.lasts ht with rfl | ⟨above, habove⟩ | ⟨t', hconcludes, _⟩
  · exact absurd hhands.2 h.not_isOutcome
  · obtain ⟨_, hnone⟩ := List.append_eq_nil_iff.mp (habove.symm.trans hhands.1)
    rw [← hnone] at hhands
    obtain ⟨t', hconcludes, _⟩ := exists_concludes ht hhands
    exact ⟨t', hconcludes⟩
  · exact ⟨t', hconcludes⟩

/-! ## The number of active calls -/

/-- The machine keeps the number of active calls, and keeps it within its bound. -/
def State.Counted (s : State) : Prop :=
  s.depth = activeCalls s.frames ∧ s.depth ≤ maxDepth

def Progress.Counted : Progress → Prop
  | .next s => s.Counted
  | .halt _ _ => True

namespace State

theorem Counted.of_frame (h : { s with frames := frame :: s.frames : State }.Counted)
    (hframe : frame.isActivation = false) : s.Counted := by
  rw [Counted, activeCalls, List.countP_cons_of_neg (Bool.eq_false_iff.mp hframe)] at h
  exact h

theorem Counted.log (h : s.Counted) (set : Setting) (record : Record) :
    (s.log set record).Counted := by
  rw [Counted, log_depth, log_frames]
  exact h

theorem counted_enter (h : s.Counted) (range : Range) (c : Closure) (args : List Value) :
    (s.enter set range c args).Counted := by
  have hdepth := h.1
  unfold enter
  dsimp only
  split
  · exact h
  · split
    next => exact h
    next hlow =>
      rw [log_frames, log_depth]
      refine ⟨?_, Nat.lt_of_not_le hlow⟩
      rw [activeCalls, List.countP_cons_of_pos rfl, ← activeCalls, ← hdepth]

theorem counted_back {saved : Nat} {c : Closure}
    (h : { s with frames := .activation saved c :: s.frames : State }.Counted) (env : Nat) :
    { s with env := env, depth := s.depth - 1 : State }.Counted := by
  obtain ⟨hdepth, hbound⟩ := h
  rw [activeCalls, List.countP_cons_of_pos rfl] at hdepth
  exact ⟨Nat.sub_eq_of_eq_add hdepth, Nat.le_trans (Nat.sub_le _ _) hbound⟩

theorem counted_leave {saved : Nat} {c : Closure} (v : Value)
    (h : { s with frames := .activation saved c :: s.frames : State }.Counted) :
    (s.leave saved c v).Counted := by
  have hback := counted_back h saved
  unfold leave
  dsimp only
  split
  · split
    · exact hback
    · trivial
  · exact hback

theorem counted_callValue (h : s.Counted) (range : Range) (callee : Value) (args : List Value) :
    (s.callValue set range callee args).Counted := by
  cases callee with
  | function ref =>
      unfold callValue
      dsimp only
      split
      · exact counted_enter h _ _ _
      · trivial
  | native ref =>
      unfold callValue callNative
      dsimp only
      repeat' split
      all_goals trivial
  | classRef cls =>
      unfold callValue instantiate
      dsimp only
      split
      · exact counted_enter (s := { s with store := _, frames := .construct _ :: s.frames }) h _ _ _
      · split <;> exact h
  | _ => exact h

theorem counted_eval (h : s.Counted) (e : Expr) : (s.eval set e).Counted := by
  cases e with
  | var | this =>
      unfold eval evalVariable
      dsimp only
      split
      · trivial
      · exact h
      · exact h
  | super =>
      unfold eval evalSuper
      dsimp only
      repeat' split
      all_goals trivial
  | _ => exact h

theorem counted_exec (h : s.Counted) (stmt : Stmt) : (s.exec set stmt).Counted := by
  cases stmt with
  | var name init span => cases init <;> exact h
  | ret keyword value span => cases value <;> exact h
  | classDecl name superclass methods span =>
      unfold exec execClass
      dsimp only
      repeat' split
      all_goals trivial
  | _ => exact h

theorem counted_settle (h : s.Counted) (range : Range) (outcome : Except Cause Value) :
    (s.settle range outcome).Counted := by
  cases outcome <;> exact h

theorem counted_nextArgument (h : s.Counted) (callee : Value) (before : List Value)
    (span : Range) (rest : List Expr) : (s.nextArgument callee before span rest).Counted := by
  cases rest <;> exact h

theorem counted_getProperty (h : s.Counted) (name : Name) (v : Value) :
    (s.getProperty name v).Counted := by
  cases v with
  | objectRef object =>
      unfold getProperty
      dsimp only
      repeat' split
      all_goals trivial
  | _ => exact h

theorem counted_receive (h : { s with frames := frame :: s.frames : State }.Counted) (v : Value) :
    (s.receive set v frame).Counted := by
  cases frame with
  | body | sequence | scope | activation | program => trivial
  | unary | right => exact counted_settle (h.of_frame rfl) _ _
  | callee | argument => exact counted_nextArgument (h.of_frame rfl) _ _ _ _
  | get => exact counted_getProperty (h.of_frame rfl) _ _
  | assign id name =>
      rw [receive, assignVariable]
      split
      · trivial
      · exact h.of_frame rfl
      · exact h.of_frame rfl
  | logical op right => cases op <;> rw [receive] <;> split <;> exact h.of_frame rfl
  | target name value => cases v <;> exact h.of_frame rfl
  | print | assert | assertRight | test => rw [receive]; split <;> exact h.of_frame rfl
  | branch thenBranch elseBranch =>
      cases elseBranch <;> rw [receive] <;> split <;> exact h.of_frame rfl
  | _ => exact h.of_frame rfl

theorem counted_complete (h : { s with frames := frame :: s.frames : State }.Counted) :
    (s.complete frame).Counted := by
  cases frame with
  | activation => exact counted_leave .nil h
  | program rest => cases rest <;> exact h.of_frame rfl
  | body | sequence | scope => exact h.of_frame rfl
  | _ => trivial

theorem counted_unwind (h : { s with frames := frame :: s.frames : State }.Counted) (v : Value) :
    (s.unwind v frame).Counted := by
  cases frame with
  | activation => exact counted_leave v h
  | _ => exact h.of_frame rfl

theorem counted_raise (h : { s with frames := frame :: s.frames : State }.Counted)
    (e : RuntimeError) : (s.raise set e frame).Counted := by
  cases frame with
  | activation saved => exact counted_back h saved
  | protect => exact Counted.log (h.of_frame rfl) set _
  | _ => exact h.of_frame rfl

/-- Every step keeps the number of active calls. -/
theorem Counted.advance (h : s.Counted) : (LoxMachine.advance set s).Counted := by
  obtain ⟨control, frames, env, depth, store, trace⟩ := s
  cases control with
  | eval e => exact counted_eval h e
  | exec stmt => exact counted_exec h stmt
  | run body => cases body <;> exact h
  | call range callee args => exact counted_callValue h range callee args
  | value v =>
      cases frames with
      | nil => trivial
      | cons frame frames =>
          exact counted_receive (s := ⟨.value v, frames, env, depth, store, trace⟩) h v
  | done =>
      cases frames with
      | nil => trivial
      | cons frame frames =>
          exact counted_complete (s := ⟨.done, frames, env, depth, store, trace⟩) h
  | returning v =>
      cases frames with
      | nil => trivial
      | cons frame frames =>
          exact counted_unwind (s := ⟨.returning v, frames, env, depth, store, trace⟩) h v
  | failing e =>
      cases frames with
      | nil => trivial
      | cons frame frames =>
          exact counted_raise (s := ⟨.failing e, frames, env, depth, store, trace⟩) h e

theorem Counted.reaches (h : s.Counted) (hreaches : Reaches set s t) : t.Counted := by
  refine hreaches.preserves (fun {u w} hu hstep => ?_) h
  have hnext : (LoxMachine.advance set u).Counted := hu.advance
  rw [hstep] at hnext
  exact hnext

/-- A call with a number of arguments that is not refused overflows the stack exactly if no
more calls can be active. -/
theorem Counted.overflows_iff (h : s.Counted) {c : Closure} {env : Nat} {st : Store}
    {range : Range} {f : Value} {args : List Value} (henters : s.Enters c env st)
    (hcontrol : s.control = .call range f args)
    (hunder : args.length < c.decl.arity → set.options.allowUnderApplication = true)
    (hover : c.decl.arity < args.length → set.options.allowOverApplication = true)
    (hdistinct : (Scope.paramNames c.decl.params).Nodup) :
    (∃ t, LoxMachine.advance set s = .next t ∧ t.control = .failing ⟨range, .stackOverflow⟩) ↔
      activeCalls s.frames = maxDepth := by
  rw [← h.1]
  constructor
  · rintro ⟨t, hstep, hfailing⟩
    by_contra hne
    have hlow : s.depth < maxDepth := Nat.lt_of_le_of_ne h.2 hne
    obtain ⟨t', hstep', hstarts, _⟩ := henters.starts hcontrol hunder hover hlow hdistinct
    cases hstep.symm.trans hstep'
    cases hfailing.symm.trans hstarts.control
  · intro heq
    exact henters.overflows hcontrol hunder hover (Nat.le_of_eq heq.symm)

end State

end LoxMachine
