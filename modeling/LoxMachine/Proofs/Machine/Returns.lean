import LoxMachine.Proofs.Machine.Activations
import LoxMachine.Proofs.Scope.Violations

/-!
# Returns

A module with a return outside all functions is refused.  So the code that waits below all
calls holds none, and whenever a return passes up the frames there is the frame of a call for
it to end at.
-/

namespace LoxMachine

open Scope

/-! ## Code that returns -/

mutual

/-- There is a return in the statement, and not only in a function of it. -/
def Stmt.Returns : Stmt → Prop
  | .expr _ _ => False
  | .print _ _ => False
  | .assert _ _ => False
  | .assertEqual _ _ _ => False
  | .var _ _ _ => False
  | .block body _ => Stmt.AnyReturns body
  | .cond _ thenBranch none _ => thenBranch.Returns
  | .cond _ thenBranch (some elseBranch) _ => thenBranch.Returns ∨ elseBranch.Returns
  | .loop _ body _ => body.Returns
  | .ret _ _ _ => True
  | .function _ => False
  | .classDecl _ _ _ _ => False

def Stmt.AnyReturns : List Stmt → Prop
  | [] => False
  | stmt :: rest => stmt.Returns ∨ Stmt.AnyReturns rest

end

/-- What the frame goes on with may come to a return. -/
def Frame.Returns : Frame → Prop
  | .branch thenBranch none => thenBranch.Returns
  | .branch thenBranch (some elseBranch) => thenBranch.Returns ∨ elseBranch.Returns
  | .test _ stmt => stmt.Returns
  | .body _ stmt => stmt.Returns
  | .sequence rest => Stmt.AnyReturns rest
  | .program rest => Stmt.AnyReturns rest
  | .giveBack => True
  | _ => False

def Control.Returns : Control → Prop
  | .exec stmt => stmt.Returns
  | .run body => Stmt.AnyReturns body
  | .returning _ => True
  | _ => False

mutual

/-- A return in a statement is one of its spots, with nothing but the statement around it. -/
theorem exists_spot_of_returns (around : List Enclosure) : ∀ stmt : Stmt, stmt.Returns →
    ∃ keyword, (around, .ret keyword) ∈ stmtSpots around stmt
  | .block body _, h => by
      obtain ⟨keyword, hmem⟩ := exists_spot_of_anyReturns around body h
      exact ⟨keyword, List.mem_cons_of_mem _ hmem⟩
  | .cond test thenBranch none _, h => by
      obtain ⟨keyword, hmem⟩ := exists_spot_of_returns around thenBranch h
      exact ⟨keyword, List.mem_append_right _ hmem⟩
  | .cond test thenBranch (some elseBranch) _, .inl h => by
      obtain ⟨keyword, hmem⟩ := exists_spot_of_returns around thenBranch h
      exact ⟨keyword, List.mem_append_right _ (List.mem_append_left _ hmem)⟩
  | .cond test thenBranch (some elseBranch) _, .inr h => by
      obtain ⟨keyword, hmem⟩ := exists_spot_of_returns around elseBranch h
      exact ⟨keyword, List.mem_append_right _ (List.mem_append_right _ hmem)⟩
  | .loop test body _, h => by
      obtain ⟨keyword, hmem⟩ := exists_spot_of_returns around body h
      exact ⟨keyword, List.mem_append_right _ hmem⟩
  | .ret keyword _ _, _ => ⟨keyword, List.mem_cons_self⟩

theorem exists_spot_of_anyReturns (around : List Enclosure) : ∀ body : List Stmt,
    Stmt.AnyReturns body → ∃ keyword, (around, .ret keyword) ∈ bodySpots around body
  | stmt :: rest, .inl h => by
      obtain ⟨keyword, hmem⟩ := exists_spot_of_returns around stmt h
      exact ⟨keyword, List.mem_append_left _ hmem⟩
  | stmt :: rest, .inr h => by
      obtain ⟨keyword, hmem⟩ := exists_spot_of_anyReturns around rest h
      exact ⟨keyword, List.mem_append_right _ hmem⟩

end

/-- A module without a breach returns nowhere outside its functions. -/
theorem not_anyReturns_of_breaches {m : Module} (h : breaches (moduleSpots m) = []) :
    ¬ Stmt.AnyReturns m.body := by
  intro hreturns
  obtain ⟨keyword, hmem⟩ := exists_spot_of_anyReturns [] m.body hreturns
  have hbreaks : (Spot.ret keyword).Breaks [] := List.not_mem_nil
  exact (exists_breaks_iff _).mp ⟨[], _, List.mem_append_right _ hmem, hbreaks⟩ h

/-! ## Returns in calls -/

/-- There is the frame of a call. -/
def inCall (frames : List Frame) : Bool :=
  frames.any Frame.isActivation

/-- Frames that may come to a return have the frame of a call below them. -/
def FramesConfined : List Frame → Prop
  | [] => True
  | frame :: below => (frame.Returns → inCall below = true) ∧ FramesConfined below

/-- Whatever may come to a return has the frame of a call below it. -/
def State.Confined (s : State) : Prop :=
  (s.control.Returns → inCall s.frames = true) ∧ FramesConfined s.frames

def Progress.Confined : Progress → Prop
  | .next s => s.Confined
  | .halt _ _ => True

variable {set : Setting} {s t : State} {frame : Frame}

namespace State

theorem confined_evalVariable (h : FramesConfined s.frames) (id : Nat) (name : Name) :
    (s.evalVariable set id name).Confined := by
  unfold evalVariable
  split
  · trivial
  · exact ⟨False.elim, h⟩
  · exact ⟨False.elim, h⟩

theorem confined_eval (h : FramesConfined s.frames) (e : Expr) : (s.eval set e).Confined := by
  cases e with
  | literal | group => exact ⟨False.elim, h⟩
  | var | this => exact confined_evalVariable h _ _
  | super =>
      unfold eval evalSuper
      dsimp only
      repeat' split
      all_goals first | trivial | exact ⟨False.elim, h⟩
  | _ => exact ⟨False.elim, False.elim, h⟩

theorem confined_exec {stmt : Stmt} (hstmt : stmt.Returns → inCall s.frames = true)
    (h : FramesConfined s.frames) : (s.exec set stmt).Confined := by
  cases stmt with
  | expr | print | assert | assertEqual => exact ⟨False.elim, False.elim, h⟩
  | var name init =>
      cases init with
      | none => exact ⟨False.elim, h⟩
      | some init => exact ⟨False.elim, False.elim, h⟩
  | block => exact ⟨hstmt, False.elim, h⟩
  | cond test thenBranch elseBranch => cases elseBranch <;> exact ⟨False.elim, hstmt, h⟩
  | loop => exact ⟨False.elim, hstmt, h⟩
  | ret keyword value =>
      cases value with
      | none => exact ⟨hstmt, h⟩
      | some value => exact ⟨False.elim, hstmt, h⟩
  | function => exact ⟨False.elim, h⟩
  | classDecl =>
      unfold exec execClass
      dsimp only
      repeat' split
      all_goals trivial

theorem confined_execAll {body : List Stmt}
    (hbody : Stmt.AnyReturns body → inCall s.frames = true) (h : FramesConfined s.frames) :
    (s.execAll body).Confined := by
  cases body with
  | nil => exact ⟨False.elim, h⟩
  | cons stmt rest => exact ⟨fun hstmt => hbody (.inl hstmt), fun hrest => hbody (.inr hrest), h⟩

/-! ## Calls -/

/-- Whatever a body comes to, the frame of its call is below it. -/
theorem confined_enter (h : FramesConfined s.frames) (range : Range) (c : Closure)
    (args : List Value) : (s.enter set range c args).Confined := by
  unfold enter
  dsimp only
  split
  · exact ⟨False.elim, h⟩
  · split
    · exact ⟨False.elim, h⟩
    · rw [log_frames]
      exact ⟨fun _ => rfl, False.elim, h⟩

theorem confined_callValue (h : FramesConfined s.frames) (range : Range) (callee : Value)
    (args : List Value) : (s.callValue set range callee args).Confined := by
  cases callee with
  | function =>
      unfold callValue
      dsimp only
      split
      · exact confined_enter h _ _ _
      · trivial
  | native =>
      unfold callValue callNative
      dsimp only
      repeat' split
      all_goals first | trivial | exact ⟨False.elim, h⟩ | exact ⟨False.elim, False.elim, h⟩
  | classRef =>
      unfold callValue instantiate
      dsimp only
      split
      · exact confined_enter (s := { s with store := _, frames := .construct _ :: s.frames })
          ⟨False.elim, h⟩ _ _ _
      · split <;> exact ⟨False.elim, h⟩
  | _ => exact ⟨False.elim, h⟩

theorem confined_leave (h : FramesConfined s.frames) (saved : Nat) (c : Closure) (v : Value) :
    (s.leave saved c v).Confined := by
  unfold leave
  dsimp only
  split
  · split
    · exact ⟨False.elim, h⟩
    · trivial
  · exact ⟨False.elim, h⟩

/-! ## Outcomes -/

theorem confined_settle (h : FramesConfined s.frames) (range : Range)
    (outcome : Except Cause Value) : (s.settle range outcome).Confined := by
  cases outcome <;> exact ⟨False.elim, h⟩

theorem confined_nextArgument (h : FramesConfined s.frames) (callee : Value)
    (before : List Value) (span : Range) (rest : List Expr) :
    (s.nextArgument callee before span rest).Confined := by
  cases rest with
  | nil => exact ⟨False.elim, h⟩
  | cons e rest => exact ⟨False.elim, False.elim, h⟩

theorem confined_getProperty (h : FramesConfined s.frames) (name : Name) (v : Value) :
    (s.getProperty name v).Confined := by
  cases v with
  | objectRef =>
      unfold getProperty
      dsimp only
      repeat' split
      all_goals first | trivial | exact ⟨False.elim, h⟩
  | _ => exact ⟨False.elim, h⟩

theorem confined_receive (hframe : frame.Returns → inCall s.frames = true)
    (h : FramesConfined s.frames) (v : Value) : (s.receive set v frame).Confined := by
  cases frame with
  | assign =>
      rw [receive, assignVariable]
      split
      · trivial
      · exact ⟨False.elim, h⟩
      · exact ⟨False.elim, h⟩
  | unary | right => exact confined_settle h _ _
  | left | assertLeft => exact ⟨False.elim, False.elim, h⟩
  | logical op => cases op <;> rw [receive] <;> split <;> exact ⟨False.elim, h⟩
  | callee | argument => exact confined_nextArgument h _ _ _ _
  | get => exact confined_getProperty h _ _
  | target =>
      cases v with
      | objectRef => exact ⟨False.elim, False.elim, h⟩
      | _ => exact ⟨False.elim, h⟩
  | print | assert | assertRight => rw [receive]; split <;> exact ⟨False.elim, h⟩
  | branch thenBranch elseBranch =>
      cases elseBranch with
      | none =>
          rw [receive]
          split
          · exact ⟨hframe, h⟩
          · exact ⟨False.elim, h⟩
      | some elseBranch =>
          rw [receive]
          split
          · exact ⟨fun hthen => hframe (.inl hthen), h⟩
          · exact ⟨fun helse => hframe (.inr helse), h⟩
  | test =>
      rw [receive]
      split
      · exact ⟨hframe, hframe, h⟩
      · exact ⟨False.elim, h⟩
  | giveBack => exact ⟨hframe, h⟩
  | body | sequence | scope | activation | program => trivial
  | _ => exact ⟨False.elim, h⟩

theorem confined_complete (hframe : frame.Returns → inCall s.frames = true)
    (h : FramesConfined s.frames) : (s.complete frame).Confined := by
  cases frame with
  | body => exact ⟨False.elim, hframe, h⟩
  | sequence => exact ⟨hframe, h⟩
  | scope => exact ⟨False.elim, h⟩
  | activation => exact confined_leave h _ _ _
  | program rest =>
      cases rest with
      | nil => exact ⟨False.elim, h⟩
      | cons stmt rest =>
          exact ⟨fun hstmt => hframe (.inl hstmt), fun hrest => hframe (.inr hrest), h⟩
  | _ => trivial

/-- A return passes every frame but that of a call. -/
theorem confined_unwind (hcall : inCall (frame :: s.frames) = true)
    (hframe : frame.Returns → inCall s.frames = true) (h : FramesConfined s.frames) (v : Value) :
    (s.unwind v frame).Confined := by
  cases frame with
  | activation => exact confined_leave h _ _ _
  | program => exact ⟨False.elim, hframe, h⟩
  | _ => exact ⟨fun _ => hcall, h⟩

theorem confined_raise (h : FramesConfined s.frames) (e : RuntimeError) :
    (s.raise set e frame).Confined := by
  cases frame with
  | protect =>
      refine ⟨False.elim, ?_⟩
      rw [log_frames]
      exact h
  | _ => exact ⟨False.elim, h⟩

/-! ## Steps -/

/-- Every step keeps returns in calls. -/
theorem Confined.advance (h : s.Confined) : (LoxMachine.advance set s).Confined := by
  obtain ⟨control, frames, env, depth, store, trace⟩ := s
  obtain ⟨hcontrol, hframes⟩ := h
  cases control with
  | eval e => exact confined_eval hframes e
  | exec stmt => exact confined_exec hcontrol hframes
  | run body => exact confined_execAll hcontrol hframes
  | call range callee args => exact confined_callValue hframes range callee args
  | value v =>
      cases frames with
      | nil => trivial
      | cons frame frames =>
          exact confined_receive (s := ⟨.value v, frames, env, depth, store, trace⟩) hframes.1
            hframes.2 v
  | done =>
      cases frames with
      | nil => trivial
      | cons frame frames =>
          exact confined_complete (s := ⟨.done, frames, env, depth, store, trace⟩) hframes.1
            hframes.2
  | returning v =>
      cases frames with
      | nil => trivial
      | cons frame frames =>
          exact confined_unwind (s := ⟨.returning v, frames, env, depth, store, trace⟩)
            (hcontrol trivial) hframes.1 hframes.2 v
  | failing e =>
      cases frames with
      | nil => trivial
      | cons frame frames =>
          exact confined_raise (s := ⟨.failing e, frames, env, depth, store, trace⟩) hframes.2 e

theorem Confined.reaches (h : s.Confined) (hreaches : Reaches set s t) : t.Confined := by
  refine hreaches.preserves (fun {u w} hu hstep => ?_) h
  have hnext : (LoxMachine.advance set u).Confined := hu.advance
  rw [hstep] at hnext
  exact hnext

end State

end LoxMachine
