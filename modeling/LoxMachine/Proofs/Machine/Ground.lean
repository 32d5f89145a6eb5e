import LoxMachine.Proofs.Machine.Arguments

/-!
# Back to the ground

Every frame that control goes past gives back the environment and the number of active
calls it has saved.  So a run that comes back to the rest of its program is where it began.
-/

namespace LoxMachine

/-- The environment and the number of active calls once control has gone past a frame. -/
def Frame.back : Frame → Nat × Nat → Nat × Nat
  | .scope saved, (_, depth) => (saved, depth)
  | .activation saved _, (_, depth) => (saved, depth - 1)
  | _, here => here

/-- Where control is once it has gone past all frames. -/
def groundOf (frames : List Frame) (here : Nat × Nat) : Nat × Nat :=
  frames.foldl (fun here frame => frame.back here) here

def State.ground (s : State) : Nat × Nat :=
  groundOf s.frames (s.env, s.depth)

/-- A step that leads on leads to a state above the same ground, and any other uncovers a
defect. -/
def Progress.Above (ground : Nat × Nat) : Progress → Prop
  | .next s => s.ground = ground
  | .halt ending _ => ∃ d, ending = .broken d

variable {set : Setting} {s : State} {frame : Frame}

namespace State

/-! ## Moves -/

theorem above_await (s : State) {frame : Frame} (control : Control)
    (hback : frame.back (s.env, s.depth) = (s.env, s.depth)) :
    (s.await frame control).Above s.ground :=
  congrArg (groundOf s.frames) hback

theorem above_fail (s : State) (range : Range) (cause : Cause) :
    (s.fail range cause).Above s.ground :=
  rfl

@[simp] theorem log_depth (s : State) (set : Setting) (record : Record) :
    (s.log set record).depth = s.depth := by
  unfold State.log
  split <;> rfl

@[simp] theorem log_ground (s : State) (set : Setting) (record : Record) :
    (s.log set record).ground = s.ground := by
  unfold ground
  rw [log_frames, log_env, log_depth]

/-! ## Calls -/

theorem above_enter (s : State) (range : Range) (c : Closure) (args : List Value) :
    (s.enter set range c args).Above s.ground := by
  unfold enter
  dsimp only
  split
  · exact s.above_fail _ _
  · split
    · exact s.above_fail _ _
    · -- The frame of the call takes off what was added for it.
      simp only [Progress.Above, ground, groundOf, List.foldl_cons, Frame.back, log_frames, log_env,
        log_depth, Nat.add_sub_cancel]

theorem above_leave (s : State) (saved : Nat) (c : Closure) (v : Value) :
    (s.leave saved c v).Above (groundOf s.frames (saved, s.depth - 1)) := by
  unfold leave
  dsimp only
  split
  · split
    · rfl
    · exact ⟨_, rfl⟩
  · rfl

theorem above_callNative (s : State) (range : Range) (ref : Nat) (args : List Value) :
    (s.callNative range ref args).Above s.ground := by
  unfold callNative
  split
  · exact ⟨_, rfl⟩
  · split
    · rfl
    · split
      · rfl
      · split
        · split
          · split
            · exact s.above_await _ rfl
            · rfl
          · exact ⟨_, rfl⟩
        · exact ⟨_, rfl⟩

theorem above_callValue (s : State) (range : Range) (callee : Value) (args : List Value) :
    (s.callValue set range callee args).Above s.ground := by
  cases callee with
  | function ref =>
      unfold callValue
      dsimp only
      split
      · exact s.above_enter _ _ _
      · exact ⟨_, rfl⟩
  | native ref => exact s.above_callNative _ _ _
  | classRef cls =>
      unfold callValue instantiate
      dsimp only
      split
      next =>
        exact above_enter { s with
          store := _, frames := .construct _ :: s.frames } range _ args
      next => split <;> rfl
  | _ => rfl

/-! ## Expressions and statements -/

theorem above_evalVariable (s : State) (id : Nat) (name : Name) :
    (s.evalVariable set id name).Above s.ground := by
  unfold evalVariable
  split
  · exact ⟨_, rfl⟩
  · rfl
  · rfl

theorem above_eval (s : State) (e : Expr) : (s.eval set e).Above s.ground := by
  cases e with
  | var id name => exact s.above_evalVariable _ _
  | this id keyword => exact s.above_evalVariable _ _
  | super id thisId keyword method span =>
      unfold eval evalSuper
      dsimp only
      split
      · exact ⟨_, rfl⟩
      · exact ⟨_, rfl⟩
      · split
        · exact ⟨_, rfl⟩
        · exact ⟨_, rfl⟩
        · split <;> rfl
        · exact ⟨_, rfl⟩
        · exact ⟨_, rfl⟩
  | _ => rfl

theorem above_exec (s : State) (stmt : Stmt) : (s.exec set stmt).Above s.ground := by
  cases stmt with
  | var name init span => cases init <;> rfl
  | ret keyword value span => cases value <;> rfl
  | classDecl name superclass methods span =>
      unfold exec execClass
      dsimp only
      split
      · rfl
      · split
        · exact ⟨_, rfl⟩
        · rfl
        · rfl
        · rfl
  | _ => rfl

/-! ## Outcomes -/

theorem above_nextArgument (s : State) (callee : Value) (before : List Value) (span : Range)
    (rest : List Expr) : (s.nextArgument callee before span rest).Above s.ground := by
  cases rest <;> rfl

theorem above_getProperty (s : State) (name : Name) (v : Value) :
    (s.getProperty name v).Above s.ground := by
  cases v with
  | objectRef object =>
      unfold getProperty
      dsimp only
      split
      · exact ⟨_, rfl⟩
      · split
        · rfl
        · split <;> rfl
  | _ => rfl

theorem above_settle (s : State) (range : Range) (outcome : Except Cause Value) :
    (s.settle range outcome).Above s.ground := by
  cases outcome <;> rfl

theorem above_receive (s : State) (v : Value) (frame : Frame) :
    (s.receive set v frame).Above (groundOf s.frames (frame.back (s.env, s.depth))) := by
  cases frame with
  | assign id name =>
      rw [receive, assignVariable]
      split
      · exact ⟨_, rfl⟩
      · rfl
      · rfl
  | unary op span => exact s.above_settle _ _
  | right op left span => exact s.above_settle _ _
  | callee args span => exact s.above_nextArgument _ _ _ _
  | argument callee before rest span => exact s.above_nextArgument _ _ _ _
  | get name => exact s.above_getProperty _ _
  | target name value => cases v <;> rfl
  | logical op right => cases op <;> rw [receive] <;> split <;> rfl
  | print => rw [receive]; split <;> rfl
  | assert range => rw [receive]; split <;> rfl
  | assertRight left range => rw [receive]; split <;> rfl
  | test test body => rw [receive]; split <;> rfl
  | branch thenBranch elseBranch => cases elseBranch <;> rw [receive] <;> split <;> rfl
  | body | sequence | scope | activation | program => exact ⟨_, rfl⟩
  | _ => rfl

theorem above_complete (s : State) (frame : Frame) :
    (s.complete frame).Above (groundOf s.frames (frame.back (s.env, s.depth))) := by
  cases frame with
  | body test body => rfl
  | sequence rest => rfl
  | scope saved => rfl
  | activation saved c => exact s.above_leave _ _ _
  | program rest => cases rest <;> rfl
  | _ => exact ⟨_, rfl⟩

theorem above_unwind (s : State) (v : Value) (frame : Frame) :
    (s.unwind v frame).Above (groundOf s.frames (frame.back (s.env, s.depth))) := by
  cases frame with
  | activation saved c => exact s.above_leave _ _ _
  | _ => rfl

theorem above_raise (s : State) (e : RuntimeError) (frame : Frame) :
    (s.raise set e frame).Above (groundOf s.frames (frame.back (s.env, s.depth))) := by
  cases frame with
  | protect => exact s.log_ground set _
  | _ => rfl

end State

/-! ## Steps and runs -/

/-- A step leaves the ground where it is, unless the machine is through. -/
theorem above_advance (set : Setting) (h : ¬ s.Through) : (advance set s).Above s.ground := by
  obtain ⟨control, frames, env, depth, store, trace⟩ := s
  cases control with
  | eval e => exact State.above_eval _ e
  | exec stmt => exact State.above_exec _ stmt
  | run body => cases body <;> rfl
  | call range callee args => exact State.above_callValue _ _ _ _
  | value v =>
      cases frames with
      | nil => exact absurd ⟨rfl, trivial⟩ h
      | cons frame frames =>
          exact State.above_receive ⟨.value v, frames, env, depth, store, trace⟩ v frame
  | done =>
      cases frames with
      | nil => exact absurd ⟨rfl, trivial⟩ h
      | cons frame frames =>
          exact State.above_complete ⟨.done, frames, env, depth, store, trace⟩ frame
  | returning v =>
      cases frames with
      | nil => exact absurd ⟨rfl, trivial⟩ h
      | cons frame frames =>
          exact State.above_unwind ⟨.returning v, frames, env, depth, store, trace⟩ v frame
  | failing e =>
      cases frames with
      | nil => exact absurd ⟨rfl, trivial⟩ h
      | cons frame frames =>
          exact State.above_raise ⟨.failing e, frames, env, depth, store, trace⟩ e frame

theorem ground_advance {t : State} (h : advance set s = .next t) : t.ground = s.ground := by
  have hthrough : ¬ s.Through := by
    intro hthrough
    obtain ⟨ending, hhalt⟩ := hthrough.halts set
    cases h.symm.trans hhalt
  have habove := above_advance set hthrough
  rw [h] at habove
  exact habove

theorem ground_run {n : Nat} {t : State} (h : run set n s = (none, t)) : t.ground = s.ground := by
  have hreaches : Reaches set s t := ⟨n, h⟩
  refine hreaches.preserves (P := fun u => u.ground = s.ground) (fun hu hstep => ?_) rfl
  exact (ground_advance hstep).trans hu

/-- A machine fails only with an error for which no frame waits. -/
theorem eq_of_failed {t : State} {e : RuntimeError} (h : advance set s = .halt (.failed e) t) :
    s.control = .failing e ∧ t = s := by
  by_cases hthrough : s.Through
  · obtain ⟨control, frames, env, depth, store, trace⟩ := s
    obtain ⟨hframes, houtcome⟩ := hthrough
    obtain rfl : frames = [] := hframes
    cases control with
    | failing e' =>
        cases h
        exact ⟨rfl, rfl⟩
    | value | returning | done => cases h
    | _ => exact houtcome.elim
  · have habove := above_advance set hthrough
    rw [h] at habove
    obtain ⟨_, hbroken⟩ := habove
    cases hbroken

/-- A machine finishes only with nothing left to wait for. -/
theorem eq_of_finished {t : State} (h : advance set s = .halt .finished t) :
    s.control = .done ∧ s.frames = [] ∧ t = s := by
  by_cases hthrough : s.Through
  · obtain ⟨control, frames, env, depth, store, trace⟩ := s
    obtain ⟨hframes, houtcome⟩ := hthrough
    obtain rfl : frames = [] := hframes
    cases control with
    | done =>
        cases h
        exact ⟨rfl, rfl, rfl⟩
    | value | returning | failing => cases h
    | _ => exact houtcome.elim
  · have habove := above_advance set hthrough
    rw [h] at habove
    obtain ⟨_, hbroken⟩ := habove
    cases hbroken

end LoxMachine
