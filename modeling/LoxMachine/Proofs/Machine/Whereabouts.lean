import LoxMachine.Proofs.Machine.Effects
import LoxMachine.Proofs.Scope.Features

/-!
# Where code runs

The machine takes code apart in the environment it began it in, and turns to another
environment in four ways only: it enters a block, it enters a call, and it goes back to
where it was before either.  So what holds of all code where it runs is kept by a step
if it holds for blocks and calls.
-/

namespace LoxMachine

/-- The features of what the machine is about to do. -/
def Control.features : Control → List Feature
  | .eval e => e.features
  | .exec s => s.features
  | .run body => Stmt.allFeatures body
  | _ => []

/-- The features of what a frame will do. -/
def Frame.features : Frame → List Feature
  | .left _ operand _ => operand.features
  | .logical _ operand => operand.features
  | .callee args _ => Expr.allFeatures args
  | .argument _ _ rest _ => Expr.allFeatures rest
  | .target _ value => value.features
  | .assertLeft operand _ => operand.features
  | .branch thenBranch none => thenBranch.features
  | .branch thenBranch (some elseBranch) => thenBranch.features ++ elseBranch.features
  | .test cond stmt => cond.features ++ stmt.features
  | .body cond stmt => cond.features ++ stmt.features
  | .sequence rest => Stmt.allFeatures rest
  | .program rest => Stmt.allFeatures rest
  | _ => []

/-- The environment of the frames below a frame. -/
def Frame.outer (env : Nat) : Frame → Nat
  | .scope saved => saved
  | .activation saved _ => saved
  | _ => env

variable {E E' : Nat → Prop} {Q Q' : Nat → Feature → Prop} {env : Nat} {frame : Frame}
  {frames : List Frame} {set : Setting} {s : State}

/-- The environments of the frames are of a kind, and so is the code that will run in
them. -/
def FramesSuit (E : Nat → Prop) (Q : Nat → Feature → Prop) : Nat → List Frame → Prop
  | env, [] => E env
  | env, frame :: frames =>
      E env ∧ (∀ x ∈ frame.features, Q env x) ∧ FramesSuit E Q (frame.outer env) frames

theorem FramesSuit.here (h : FramesSuit E Q env frames) : E env := by
  cases frames with
  | nil => exact h
  | cons frame frames => exact h.1

theorem FramesSuit.mono (h : FramesSuit E Q env frames) (hE : ∀ env, E env → E' env)
    (hQ : ∀ env x, E env → Q env x → Q' env x) : FramesSuit E' Q' env frames := by
  induction frames generalizing env with
  | nil => exact hE env h
  | cons frame frames ih =>
      obtain ⟨henv, hcode, hrest⟩ := h
      exact ⟨hE env henv, fun x hx => hQ env x henv (hcode x hx), ih hrest⟩

/-- All code that the machine will run without a call is where it should be. -/
structure State.Suits (E : Nat → Prop) (Q : Nat → Feature → Prop) (s : State) : Prop where
  code : ∀ x ∈ s.control.features, Q s.env x
  frames : FramesSuit E Q s.env s.frames

theorem State.Suits.mono (h : s.Suits E Q) (hE : ∀ env, E env → E' env)
    (hQ : ∀ env x, E env → Q env x → Q' env x) : s.Suits E' Q' where
  code x hx := hQ s.env x h.frames.here (h.code x hx)
  frames := h.frames.mono hE hQ

/-- The machine is about to enter the body of a function in a new environment, which it
makes in that store. -/
inductive State.Enters (s : State) : Closure → Nat → Store → Prop where
  | function {range ref args closure} (hcontrol : s.control = .call range (.function ref) args)
      (hclosure : s.store.functions[ref]? = some closure) :
      Enters s closure s.store.envs.size (storeCall s.store closure args)
  | initializer {range cls args init} (hcontrol : s.control = .call range (.classRef cls) args)
      (hinit : s.store.method? cls (utf8 "init") = some init) :
      Enters s ⟨init.decl, s.store.envs.size⟩ (s.store.envs.size + 1)
        (storeCall ((s.store.newInstance cls).2.bindMethod init s.store.instances.size).2
          ⟨init.decl, s.store.envs.size⟩ args)

/-- A step that leads on leads to a state in which all code is where it should be. -/
def Progress.Suits (E : Nat → Prop) (Q : Nat → Feature → Prop) : Progress → Prop
  | .next s => s.Suits E Q
  | .halt _ _ => True

namespace State

/-! ## Moves -/

/-- An outcome is no code. -/
theorem suits_settled {control : Control} (h : FramesSuit E Q s.env s.frames)
    (hcontrol : control.features = []) : (s.proceed control).Suits E Q :=
  ⟨fun _ hx => absurd (hcontrol ▸ hx) List.not_mem_nil, h⟩

theorem suits_proceed {control : Control} (h : FramesSuit E Q s.env s.frames)
    (hcontrol : ∀ x ∈ control.features, Q s.env x) : (s.proceed control).Suits E Q :=
  ⟨hcontrol, h⟩

theorem suits_await {frame : Frame} {control : Control} (h : FramesSuit E Q s.env s.frames)
    (houter : frame.outer s.env = s.env)
    (hframe : ∀ x ∈ frame.features, Q s.env x) (hcontrol : ∀ x ∈ control.features, Q s.env x) :
    (s.await frame control).Suits E Q := by
  refine ⟨hcontrol, h.here, hframe, ?_⟩
  rw [houter]
  exact h

theorem suits_fail {range : Range} {cause : Cause} (h : FramesSuit E Q s.env s.frames) :
    (s.fail range cause).Suits E Q :=
  suits_settled h rfl

/-! ## Calls -/

theorem suits_enter {range : Range} {closure : Closure} {args : List Value}
    (h : FramesSuit E Q s.env s.frames)
    (hcall : (s.enter set range closure args).state.store = storeCall s.store closure args →
      E s.store.envs.size ∧ ∀ x ∈ closure.decl.features, Q s.store.envs.size x) :
    (s.enter set range closure args).Suits E Q := by
  unfold enter at hcall ⊢
  dsimp only at hcall ⊢
  split
  next => exact suits_fail h
  next =>
    split
    next => exact suits_fail h
    next hcause hdepth =>
      rw [hcause] at hcall
      simp only [if_neg hdepth, Progress.state, log_store] at hcall
      obtain ⟨henv, hcode⟩ := hcall rfl
      rw [Function.features_eq] at hcode
      refine ⟨?_, ?_, List.forall_mem_nil _, ?_⟩
      · simp only [log_store]
        exact hcode
      · simp only [log_store]
        exact henv
      · simp only [Frame.outer, log_env, log_frames]
        exact h

theorem suits_leave {saved : Nat} {closure : Closure} {v : Value}
    (h : FramesSuit E Q saved s.frames) : (s.leave saved closure v).Suits E Q := by
  unfold leave
  dsimp only
  split
  · split
    · exact suits_settled h rfl
    · trivial
  · exact suits_settled h rfl

theorem suits_callNative {range : Range} {ref : Nat} {args : List Value}
    (h : FramesSuit E Q s.env s.frames) : (s.callNative range ref args).Suits E Q := by
  unfold callNative
  split
  · trivial
  · split
    · exact suits_fail h
    · split
      · exact suits_settled h rfl
      · split
        · split
          · split
            · exact suits_await h rfl (List.forall_mem_nil _) (List.forall_mem_nil _)
            · exact suits_fail h
          · trivial
        · trivial

theorem suits_callValue {range : Range} {callee : Value} {args : List Value}
    (h : FramesSuit E Q s.env s.frames) (hcontrol : s.control = .call range callee args)
    (hcall : ∀ closure env st, s.Enters closure env st →
      (s.callValue set range callee args).state.store = st →
      E env ∧ ∀ x ∈ closure.decl.features, Q env x) :
    (s.callValue set range callee args).Suits E Q := by
  cases callee with
  | function ref =>
      unfold callValue at hcall ⊢
      dsimp only at hcall ⊢
      split
      next closure hclosure =>
        simp only [hclosure] at hcall
        exact suits_enter h (hcall _ _ _ (.function hcontrol hclosure))
      next => trivial
  | native ref => exact suits_callNative h
  | classRef cls =>
      unfold callValue instantiate at hcall ⊢
      dsimp only at hcall ⊢
      split
      next init hinit =>
        simp only [hinit] at hcall
        rw [Store.method?_newInstance] at hinit
        have hsize : ((s.store.newInstance cls).2.bindMethod init
            s.store.instances.size).2.envs.size = s.store.envs.size + 1 := Store.size_newEnv ..
        have hentered := hcall _ _ _ (.initializer hcontrol hinit)
        rw [← hsize] at hentered
        exact suits_enter ⟨h.here, List.forall_mem_nil _, h⟩ hentered
      next =>
        split
        · exact suits_fail h
        · exact suits_settled h rfl
  | _ => exact suits_fail h

/-! ## Expressions and statements -/

theorem suits_evalVariable {id : Nat} {name : Name} (h : FramesSuit E Q s.env s.frames) :
    (s.evalVariable set id name).Suits E Q := by
  unfold evalVariable
  split
  · trivial
  · exact suits_settled h rfl
  · exact suits_fail h

theorem suits_eval {e : Expr} (h : FramesSuit E Q s.env s.frames)
    (hcode : ∀ x ∈ e.features, Q s.env x) : (s.eval set e).Suits E Q := by
  cases e with
  | literal value span => exact suits_settled h rfl
  | var id name => exact suits_evalVariable h
  | assign id name value span => exact suits_await h rfl (List.forall_mem_nil _) hcode
  | unary op operand span => exact suits_await h rfl (List.forall_mem_nil _) hcode
  | binary op left right span =>
      rw [Expr.features, List.forall_mem_append] at hcode
      exact suits_await h rfl hcode.2 hcode.1
  | logical op left right span =>
      rw [Expr.features, List.forall_mem_append] at hcode
      exact suits_await h rfl hcode.2 hcode.1
  | group inner span => exact suits_proceed h hcode
  | call callee args span =>
      rw [Expr.features, List.forall_mem_append] at hcode
      exact suits_await h rfl hcode.2 hcode.1
  | get object name span => exact suits_await h rfl (List.forall_mem_nil _) hcode
  | set object name value span =>
      rw [Expr.features, List.forall_mem_append] at hcode
      exact suits_await h rfl hcode.2 hcode.1
  | this id keyword => exact suits_evalVariable h
  | super id thisId keyword method span =>
      unfold eval evalSuper
      dsimp only
      split
      · trivial
      · trivial
      · split
        · trivial
        · trivial
        · split
          · exact ⟨List.forall_mem_nil _, h⟩
          · exact suits_fail h
        · trivial
        · trivial

theorem suits_exec {stmt : Stmt} (h : FramesSuit E Q s.env s.frames)
    (hcode : ∀ x ∈ stmt.features, Q s.env x)
    (hblock : ∀ body span, stmt = .block body span →
      E s.store.envs.size ∧ ∀ x, Q s.env x → Q s.store.envs.size x) :
    (s.exec set stmt).Suits E Q := by
  cases stmt with
  | expr value span => exact suits_await h rfl (List.forall_mem_nil _) hcode
  | print value span => exact suits_await h rfl (List.forall_mem_nil _) hcode
  | assert value span => exact suits_await h rfl (List.forall_mem_nil _) hcode
  | assertEqual left right span =>
      rw [Stmt.features, List.forall_mem_append] at hcode
      exact suits_await h rfl hcode.2 hcode.1
  | var name init span =>
      cases init with
      | none => exact ⟨List.forall_mem_nil _, h⟩
      | some init => exact suits_await h rfl (List.forall_mem_nil _) hcode
  | block body span =>
      obtain ⟨henv, hinner⟩ := hblock body span rfl
      rw [Stmt.features] at hcode
      exact ⟨fun x hx => hinner x (hcode x hx), henv, List.forall_mem_nil _, h⟩
  | cond test thenBranch elseBranch span =>
      cases elseBranch with
      | none =>
          rw [Stmt.features, List.forall_mem_append] at hcode
          exact suits_await h rfl hcode.2 hcode.1
      | some elseBranch =>
          rw [Stmt.features, List.forall_mem_append] at hcode
          exact suits_await h rfl hcode.2 hcode.1
  | loop test body span =>
      rw [Stmt.features] at hcode
      refine suits_await h rfl hcode ?_
      exact fun x hx => hcode x (List.mem_append_left _ hx)
  | ret keyword value span =>
      cases value with
      | none => exact suits_settled h rfl
      | some value => exact suits_await h rfl (List.forall_mem_nil _) hcode
  | function decl => exact ⟨List.forall_mem_nil _, h⟩
  | classDecl name superclass methods span =>
      unfold exec execClass
      dsimp only
      split
      · exact ⟨List.forall_mem_nil _, h⟩
      · split
        · trivial
        · exact suits_fail (s := s.define name.text .nil) h
        · exact ⟨List.forall_mem_nil _, h⟩
        · exact suits_fail (s := s.define name.text .nil) h

theorem suits_execAll {body : List Stmt} (h : FramesSuit E Q s.env s.frames)
    (hcode : ∀ x ∈ Stmt.allFeatures body, Q s.env x) : (s.execAll body).Suits E Q := by
  cases body with
  | nil => exact suits_settled h rfl
  | cons stmt rest =>
      rw [Stmt.allFeatures, List.forall_mem_append] at hcode
      exact suits_await h rfl hcode.2 hcode.1

/-! ## Outcomes -/

theorem suits_nextArgument {callee : Value} {before : List Value} {span : Range}
    {rest : List Expr} (h : FramesSuit E Q s.env s.frames)
    (hcode : ∀ x ∈ Expr.allFeatures rest, Q s.env x) :
    (s.nextArgument callee before span rest).Suits E Q := by
  cases rest with
  | nil => exact suits_settled h rfl
  | cons e rest =>
      rw [Expr.allFeatures, List.forall_mem_append] at hcode
      exact suits_await h rfl hcode.2 hcode.1

theorem suits_settle {range : Range} {outcome : Except Cause Value}
    (h : FramesSuit E Q s.env s.frames) : (s.settle range outcome).Suits E Q := by
  cases outcome with
  | ok v => exact suits_settled h rfl
  | error cause => exact suits_fail h

theorem suits_getProperty {name : Name} {v : Value} (h : FramesSuit E Q s.env s.frames) :
    (s.getProperty name v).Suits E Q := by
  cases v with
  | objectRef object =>
      unfold getProperty
      dsimp only
      split
      · trivial
      · split
        · exact suits_settled h rfl
        · split
          · exact ⟨List.forall_mem_nil _, h⟩
          · exact suits_fail h
  | _ => exact suits_fail h

/-- A frame that waits for a value leaves the environment as it is. -/
theorem suits_receive {v : Value} (hcode : ∀ x ∈ frame.features, Q s.env x)
    (h : FramesSuit E Q (frame.outer s.env) s.frames) : (s.receive set v frame).Suits E Q := by
  cases frame with
  | assign id name =>
      rw [receive, assignVariable]
      split
      · trivial
      · exact ⟨List.forall_mem_nil _, h⟩
      · exact suits_fail h
  | unary op span => exact suits_settle h
  | left op right span => exact suits_await h rfl (List.forall_mem_nil _) hcode
  | right op left span => exact suits_settle h
  | logical op right =>
      cases op with
      | and =>
          rw [receive]
          split
          · exact suits_proceed h hcode
          · exact suits_settled h rfl
      | or =>
          rw [receive]
          split
          · exact suits_settled h rfl
          · exact suits_proceed h hcode
  | callee args span => exact suits_nextArgument h hcode
  | argument callee before rest span => exact suits_nextArgument h hcode
  | get name => exact suits_getProperty h
  | target name value =>
      cases v with
      | objectRef object => exact suits_await h rfl (List.forall_mem_nil _) hcode
      | _ => exact suits_fail h
  | field object name => exact ⟨List.forall_mem_nil _, h⟩
  | discard => exact suits_settled h rfl
  | print =>
      rw [receive]
      split
      · exact suits_settled h rfl
      · exact ⟨List.forall_mem_nil _, h⟩
  | assert range =>
      rw [receive]
      split
      · exact suits_settled h rfl
      · exact suits_fail h
  | assertLeft right range => exact suits_await h rfl (List.forall_mem_nil _) hcode
  | assertRight left range =>
      rw [receive]
      split
      · exact suits_settled h rfl
      · exact suits_fail h
  | branch thenBranch elseBranch =>
      cases elseBranch with
      | none =>
          rw [receive]
          split
          · exact suits_proceed h hcode
          · exact suits_settled h rfl
      | some elseBranch =>
          rw [Frame.features, List.forall_mem_append] at hcode
          rw [receive]
          split
          · exact suits_proceed h hcode.1
          · exact suits_proceed h hcode.2
  | test test body =>
      rw [receive]
      split
      · exact suits_await h rfl hcode fun x hx => hcode x (List.mem_append_right _ hx)
      · exact suits_settled h rfl
  | declare name => exact ⟨List.forall_mem_nil _, h⟩
  | giveBack => exact suits_settled h rfl
  | construct object => exact suits_settled h rfl
  | protect => exact suits_settled h rfl
  | _ => trivial

theorem suits_complete (hcode : ∀ x ∈ frame.features, Q s.env x)
    (h : FramesSuit E Q (frame.outer s.env) s.frames) : (s.complete frame).Suits E Q := by
  cases frame with
  | body test body =>
      exact suits_await h rfl hcode fun x hx => hcode x (List.mem_append_left _ hx)
  | sequence rest => exact suits_proceed h hcode
  | scope saved => exact suits_settled (s := { s with env := saved }) h rfl
  | activation saved closure => exact suits_leave h
  | program rest =>
      cases rest with
      | nil => exact suits_settled h rfl
      | cons stmt rest =>
          rw [Frame.features, Stmt.allFeatures, List.forall_mem_append] at hcode
          exact suits_await h rfl hcode.2 hcode.1
  | _ => trivial

theorem suits_unwind {v : Value} (hcode : ∀ x ∈ frame.features, Q s.env x)
    (h : FramesSuit E Q (frame.outer s.env) s.frames) : (s.unwind v frame).Suits E Q := by
  cases frame with
  | activation saved closure => exact suits_leave h
  | scope saved => exact suits_settled (s := { s with env := saved }) h rfl
  | program rest => exact suits_await h rfl hcode (List.forall_mem_nil _)
  | _ => exact suits_settled h rfl

theorem suits_raise {e : RuntimeError} (h : FramesSuit E Q (frame.outer s.env) s.frames) :
    (s.raise set e frame).Suits E Q := by
  cases frame with
  | activation saved closure =>
      exact suits_settled (s := { s with env := saved, depth := s.depth - 1 }) h rfl
  | scope saved => exact suits_settled (s := { s with env := saved }) h rfl
  | protect =>
      refine suits_settled ?_ rfl
      simpa only [log_env, log_frames, Frame.outer] using h
  | _ => exact suits_settled h rfl

end State

/-! ## Steps -/

/-- Code stays where it should be if blocks and calls take it to where it should be. -/
theorem State.Suits.advance (h : s.Suits E Q)
    (hblock : ∀ body span, s.control = .exec (.block body span) →
      (LoxMachine.advance set s).state.store =
        (s.store.newEnv (some s.env) Bindings.empty).2 →
      E s.store.envs.size ∧ ∀ x, Q s.env x → Q s.store.envs.size x)
    (hcall : ∀ closure env st, s.Enters closure env st →
      (LoxMachine.advance set s).state.store = st →
      E env ∧ ∀ x ∈ closure.decl.features, Q env x) :
    (LoxMachine.advance set s).Suits E Q := by
  obtain ⟨control, frames, env, depth, store, trace⟩ := s
  obtain ⟨hcode, hframes⟩ := h
  cases control with
  | eval e => exact suits_eval hframes hcode
  | exec stmt =>
      refine suits_exec hframes hcode fun body span hstmt => ?_
      subst hstmt
      exact hblock body span rfl rfl
  | run body => exact suits_execAll hframes hcode
  | call range callee args => exact suits_callValue hframes rfl hcall
  | value v =>
      cases frames with
      | nil => trivial
      | cons frame frames =>
          exact suits_receive (s := ⟨_, frames, env, depth, store, trace⟩) hframes.2.1 hframes.2.2
  | done =>
      cases frames with
      | nil => trivial
      | cons frame frames =>
          exact suits_complete (s := ⟨_, frames, env, depth, store, trace⟩) hframes.2.1 hframes.2.2
  | returning v =>
      cases frames with
      | nil => trivial
      | cons frame frames =>
          exact suits_unwind (s := ⟨_, frames, env, depth, store, trace⟩) hframes.2.1 hframes.2.2
  | failing e =>
      cases frames with
      | nil => trivial
      | cons frame frames =>
          exact suits_raise (s := ⟨_, frames, env, depth, store, trace⟩) hframes.2.2

end LoxMachine
