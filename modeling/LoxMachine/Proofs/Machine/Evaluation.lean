import LoxMachine.Proofs.Machine.Activations

/-!
# Evaluation

While an expression is evaluated, code runs in two kinds of places: the expression itself where
it is, and the bodies of calls in environments made for them.  So no statement is executed
where the expression is, and nothing is declared there.
-/

namespace LoxMachine

/-- The frames that wait for a part of an expression or for a call. -/
def Frame.isOperation : Frame → Bool
  | .assign _ _ | .unary _ _ | .left _ _ _ | .right _ _ _ | .logical _ _ => true
  | .callee _ _ | .argument _ _ _ _ | .get _ | .target _ _ | .field _ _ => true
  | .construct _ | .protect => true
  | _ => false

/-- What the machine is about to do belongs to an expression. -/
def Control.isOperation : Control → Bool
  | .eval _ | .call _ _ _ | .value _ | .failing _ => true
  | _ => false

/-- An expression is evaluated in the environment, with nothing that waits for it: the machine
is at a part of the expression, or in a call made from there. -/
inductive State.Evaluates (env : Nat) : State → Prop where
  | here {s : State} (hcontrol : s.control.isOperation = true)
      (hframes : ∀ frame ∈ s.frames, frame.isOperation = true) (henv : s.env = env) :
      Evaluates env s
  | away {v : State} {c : Closure} {below : List Frame}
      (habove : v.Suits (· ≠ env) fun _ _ => True)
      (hbelow : ∀ frame ∈ below, frame.isOperation = true) :
      Evaluates env (v.onto (.activation env c :: below))

/-- A step leads, if it leads on, to a state in which the expression is evaluated. -/
def Progress.Evaluates (env : Nat) : Progress → Prop
  | .next s => s.Evaluates env
  | .halt _ _ => True

variable {set : Setting} {s t v : State} {env : Nat} {frame : Frame} {below : List Frame}

namespace State

/-! ## At the expression -/

theorem evaluates_proceed {control : Control}
    (hframes : ∀ frame ∈ s.frames, frame.isOperation = true)
    (hcontrol : control.isOperation = true) : (s.proceed control).Evaluates s.env :=
  .here hcontrol hframes rfl

theorem evaluates_await {control : Control}
    (hframes : ∀ frame ∈ s.frames, frame.isOperation = true)
    (hframe : frame.isOperation = true) (hcontrol : control.isOperation = true) :
    (s.await frame control).Evaluates s.env :=
  .here hcontrol (List.forall_mem_cons.mpr ⟨hframe, hframes⟩) rfl

theorem evaluates_evalVariable (hframes : ∀ frame ∈ s.frames, frame.isOperation = true)
    (id : Nat) (name : Name) : (s.evalVariable set id name).Evaluates s.env := by
  unfold evalVariable
  split
  · trivial
  · exact evaluates_proceed hframes rfl
  · exact evaluates_proceed hframes rfl

theorem evaluates_eval (hframes : ∀ frame ∈ s.frames, frame.isOperation = true) (e : Expr) :
    (s.eval set e).Evaluates s.env := by
  cases e with
  | literal | group => exact evaluates_proceed hframes rfl
  | var | this => exact evaluates_evalVariable hframes _ _
  | super =>
      unfold eval evalSuper
      dsimp only
      repeat' split
      all_goals first | trivial | exact .here rfl hframes rfl
  | _ => exact evaluates_await hframes rfl rfl

theorem evaluates_settle (hframes : ∀ frame ∈ s.frames, frame.isOperation = true)
    (range : Range) (outcome : Except Cause Value) :
    (s.settle range outcome).Evaluates s.env := by
  cases outcome <;> exact evaluates_proceed hframes rfl

theorem evaluates_nextArgument (hframes : ∀ frame ∈ s.frames, frame.isOperation = true)
    (callee : Value) (before : List Value) (span : Range) (rest : List Expr) :
    (s.nextArgument callee before span rest).Evaluates s.env := by
  cases rest with
  | nil => exact evaluates_proceed hframes rfl
  | cons e rest => exact evaluates_await hframes rfl rfl

theorem evaluates_getProperty (hframes : ∀ frame ∈ s.frames, frame.isOperation = true)
    (name : Name) (v : Value) : (s.getProperty name v).Evaluates s.env := by
  cases v with
  | objectRef object =>
      unfold getProperty
      dsimp only
      repeat' split
      all_goals first | trivial | exact .here rfl hframes rfl
  | _ => exact evaluates_proceed hframes rfl

theorem evaluates_receive (hframes : ∀ frame ∈ s.frames, frame.isOperation = true)
    (hframe : frame.isOperation = true) (v : Value) :
    (s.receive set v frame).Evaluates s.env := by
  cases frame with
  | assign id name =>
      rw [receive, assignVariable]
      split
      · trivial
      · exact .here rfl hframes rfl
      · exact evaluates_proceed hframes rfl
  | unary | right => exact evaluates_settle hframes _ _
  | left => exact evaluates_await hframes rfl rfl
  | logical op right => cases op <;> rw [receive] <;> split <;> exact evaluates_proceed hframes rfl
  | callee | argument => exact evaluates_nextArgument hframes _ _ _ _
  | get => exact evaluates_getProperty hframes _ _
  | target name value =>
      cases v with
      | objectRef object => exact evaluates_await hframes rfl rfl
      | _ => exact evaluates_proceed hframes rfl
  | field => exact .here rfl hframes rfl
  | construct | protect => exact evaluates_proceed hframes rfl
  | _ => cases hframe

theorem evaluates_raise (hframes : ∀ frame ∈ s.frames, frame.isOperation = true)
    (hframe : frame.isOperation = true) (e : RuntimeError) :
    (s.raise set e frame).Evaluates s.env := by
  cases frame with
  | protect =>
      refine .here rfl ?_ (log_env _ _ _)
      rw [log_frames]
      exact hframes
  | activation | scope => cases hframe
  | _ => exact evaluates_proceed hframes rfl

/-! ## Calls -/

/-- A body is entered in an environment made for it. -/
theorem evaluates_enter (hframes : ∀ frame ∈ s.frames, frame.isOperation = true)
    (hsize : s.env < s.store.envs.size) (range : Range) (c : Closure) (args : List Value) :
    (s.enter set range c args).Evaluates s.env := by
  unfold enter
  dsimp only
  split
  · exact evaluates_proceed hframes rfl
  · split
    · exact evaluates_proceed hframes rfl
    · rw [log_frames, log_env, log_store]
      refine @Evaluates.away _ ⟨_, [], _, _, _, _⟩ _ _ ⟨fun _ _ => trivial, ?_⟩ hframes
      exact Nat.ne_of_gt hsize

theorem evaluates_callValue (hframes : ∀ frame ∈ s.frames, frame.isOperation = true)
    (hsize : s.env < s.store.envs.size) (range : Range) (f : Value) (args : List Value) :
    (s.callValue set range f args).Evaluates s.env := by
  cases f with
  | function ref =>
      unfold callValue
      dsimp only
      split
      · exact evaluates_enter hframes hsize range _ args
      · trivial
  | native ref =>
      unfold callValue callNative
      dsimp only
      repeat' split
      all_goals first
        | trivial
        | exact evaluates_await hframes rfl rfl
        | exact .here rfl hframes rfl
  | classRef cls =>
      unfold callValue instantiate
      dsimp only
      split
      next init _ =>
        refine evaluates_enter (s := { s with store := _, frames := .construct _ :: s.frames })
          (List.forall_mem_cons.mpr ⟨rfl, hframes⟩) ?_ range _ args
        exact Nat.lt_of_lt_of_le hsize (@Store.extends_newEnv (s.store.newInstance cls).2 _ _).size
      next =>
        split
        · exact .here rfl hframes rfl
        · exact .here rfl hframes rfl
  | _ => exact evaluates_proceed hframes rfl

theorem evaluates_leave (hframes : ∀ frame ∈ s.frames, frame.isOperation = true) (saved : Nat)
    (c : Closure) (v : Value) : (s.leave saved c v).Evaluates saved := by
  unfold leave
  dsimp only
  split
  · split
    · exact .here rfl hframes rfl
    · trivial
  · exact .here rfl hframes rfl

/-- A call that comes to an outcome goes back to the expression. -/
theorem evaluates_activation (hthrough : v.Through)
    (hbelow : ∀ frame ∈ below, frame.isOperation = true) (c : Closure) :
    (LoxMachine.advance set (v.onto (.activation env c :: below))).Evaluates env := by
  obtain ⟨control, frames, _, depth, store, trace⟩ := v
  obtain ⟨hframes, houtcome⟩ := hthrough
  obtain rfl : frames = [] := hframes
  cases control with
  | value v => trivial
  | done => exact evaluates_leave hbelow _ _ _
  | returning v => exact evaluates_leave hbelow _ _ _
  | failing e => exact .here rfl hbelow rfl
  | _ => exact houtcome.elim

/-! ## Steps -/

/-- Each step leads on with the evaluation, as long as its environment is there. -/
theorem Evaluates.advance (h : s.Evaluates env) (hsize : env < s.store.envs.size) :
    (LoxMachine.advance set s).Evaluates env := by
  cases h with
  | @here s hcontrol hframes henv =>
      obtain ⟨control, frames, env', depth, store, trace⟩ := s
      obtain rfl : env' = env := henv
      cases control with
      | eval e => exact evaluates_eval hframes e
      | call range f args => exact evaluates_callValue hframes hsize range f args
      | value v =>
          cases frames with
          | nil => trivial
          | cons frame frames =>
              obtain ⟨hframe, hrest⟩ := List.forall_mem_cons.mp hframes
              exact evaluates_receive (s := ⟨.value v, frames, env', depth, store, trace⟩) hrest
                hframe v
      | failing e =>
          cases frames with
          | nil => trivial
          | cons frame frames =>
              obtain ⟨hframe, hrest⟩ := List.forall_mem_cons.mp hframes
              exact evaluates_raise (s := ⟨.failing e, frames, env', depth, store, trace⟩) hrest
                hframe e
      | exec | run | done | returning => cases hcontrol
  | @away v c below habove hbelow =>
      by_cases hleaves : v.Leaves ⟨fun r => r, [], .activation env c :: below, #[]⟩
      · exact evaluates_activation (through_of_leaves hleaves) hbelow c
      · have hon : (LoxMachine.advance set v).Suits (· ≠ env) fun _ _ => True := by
          refine habove.advance (fun _ _ _ _ => ?_) fun closure made st henters _ => ?_
          · exact ⟨Nat.ne_of_gt hsize, fun _ _ => trivial⟩
          · refine ⟨?_, fun _ _ => trivial⟩
            cases henters with
            | function => exact Nat.ne_of_gt hsize
            | initializer => exact Nat.ne_of_gt (Nat.lt_succ_of_lt hsize)
        rw [advance_onto set hleaves]
        cases hstep : LoxMachine.advance set v with
        | next w =>
            rw [hstep] at hon
            exact .away hon hbelow
        | halt => trivial

/-- Nothing is declared where the expression is. -/
theorem Evaluates.env_ne (h : s.Evaluates env) (hdeclaring : s.Declaring) : env ≠ s.env := by
  cases h with
  | @here s hcontrol hframes _ =>
      exfalso
      have hnot : ∀ stmt, s.control ≠ .exec stmt := fun stmt heq => by
        rw [heq] at hcontrol
        cases hcontrol
      obtain ⟨stmt, heq⟩ | ⟨name, v, hdeclares⟩ := hdeclaring
      · exact hnot stmt heq
      · cases hdeclares with
        | unset heq | unfinished heq => exact hnot _ heq
        | value _ hdeclare =>
            rw [hdeclare] at hframes
            cases hframes _ List.mem_cons_self
  | away habove => exact Ne.symm habove.frames.here

/-- The machine is about to assign the value to the variable of the environment. -/
def AssignsTo (set : Setting) (s : State) (env : Nat) (n : Bytes) (v : Value) : Prop :=
  ∃ id name rest, s.control = .value v ∧ s.frames = .assign id name :: rest ∧
    s.owner set id name.text = .ok (some env) ∧ name.text = n

theorem AssignsTo.onto {n : Bytes} {v : Value} (h : s.AssignsTo set env n v)
    (below : List Frame) : (s.onto below).AssignsTo set env n v := by
  obtain ⟨id, name, rest, hcontrol, hframes, howner, hname⟩ := h
  exact ⟨id, name, rest ++ below, hcontrol, congrArg (· ++ below) hframes, howner, hname⟩

/-- A step of the evaluation changes a variable where the expression is by an assignment only. -/
theorem Evaluates.at? (h : s.Evaluates env) (hsize : env < s.store.envs.size) (n : Bytes) :
    (LoxMachine.advance set s).state.store.at? env n = s.store.at? env n ∨
      ∃ v, s.AssignsTo set env n v ∧
        (LoxMachine.advance set s).state.store.at? env n = some v := by
  rcases (effect_advance set s).at? hsize h.env_ne n with
    hkept | ⟨id, name, v, rest, hcontrol, hframes, howner, hname, hstore⟩
  · exact .inl hkept
  · refine .inr ⟨v, ⟨id, name, rest, hcontrol, hframes, howner, hname⟩, ?_⟩
    rw [hstore, Store.at?_define hsize, if_pos ⟨rfl, rfl⟩]

/-- However long it goes on, an evaluation changes a variable where the expression is by
assignments only, and takes none away. -/
theorem Evaluates.run {k : Nat} (h : s.Evaluates env) (hsize : env < s.store.envs.size)
    (hrun : LoxMachine.run set k s = (none, t)) :
    t.Evaluates env ∧ ∀ n,
      ((s.store.at? env n).isSome = true → (t.store.at? env n).isSome = true) ∧
      (t.store.at? env n = s.store.at? env n ∨
        ∃ m < k, ∃ u v, LoxMachine.run set m s = (none, u) ∧ u.AssignsTo set env n v) := by
  induction k generalizing s with
  | zero =>
      cases hrun
      exact ⟨h, fun n => ⟨id, .inl rfl⟩⟩
  | succ k ih =>
      have hnext : (LoxMachine.advance set s).Evaluates env := h.advance hsize
      have hsize' := (effect_advance set s).size_le
      have hat := fun n => @Evaluates.at? set s env h hsize n
      obtain ⟨s', hstep, hrest⟩ := exists_next_of_run hrun
      rw [hstep] at hnext hsize' hat
      obtain ⟨hlast, hlater⟩ := ih hnext (Nat.lt_of_lt_of_le hsize hsize') hrest
      refine ⟨hlast, fun n => ?_⟩
      obtain ⟨hbound, hchanged⟩ := hlater n
      have hat : s'.store.at? env n = s.store.at? env n ∨
        ∃ v, s.AssignsTo set env n v ∧ s'.store.at? env n = some v := hat n
      rcases hat with hkept | ⟨v, hassigns, hv⟩
      · rw [hkept] at hbound hchanged
        refine ⟨hbound, hchanged.imp_right ?_⟩
        rintro ⟨m, hm, u, v, hu, hassigns⟩
        exact ⟨m + 1, Nat.succ_lt_succ hm, u, v, (run_of_next hstep m).trans hu, hassigns⟩
      · exact ⟨fun _ => hbound (Option.isSome_of_eq_some hv),
          .inr ⟨0, Nat.succ_pos k, s, v, rfl, hassigns⟩⟩

end State

end LoxMachine
