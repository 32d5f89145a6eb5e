import LoxMachine.Proofs.Machine.Effects
import LoxMachine.Proofs.Machine.Ground
import LoxMachine.Proofs.Source.Trees
import LoxMachine.Proofs.Store.Heritage

/-!
# The nodes that a run comes to

All that a run executes stems from the trees it was given, be it at once or as the body of a
function that was stored long before.  A step that raises an error does so at a node of these
trees, and blames the error on a range of that node.
-/

namespace LoxMachine

open Store

/-! ## Code that stems from nodes -/

/-- The frame waits, on behalf of the node, for the outcome of something in it. -/
inductive TreeNode.Awaits : TreeNode → Frame → Prop where
  | assign {id name value span} : Awaits (.expr (.assign id name value span)) (.assign id name)
  | unary {op operand span} : Awaits (.expr (.unary op operand span)) (.unary op span)
  | left {op left right span} :
      Awaits (.expr (.binary op left right span)) (.left op right span)
  | right {op left right span v} : Awaits (.expr (.binary op left right span)) (.right op v span)
  | logical {op left right span} :
      Awaits (.expr (.logical op left right span)) (.logical op right)
  | callee {callee args span} : Awaits (.expr (.call callee args span)) (.callee args span)
  | argument {callee args span v before rest} (hrest : rest <:+ args) :
      Awaits (.expr (.call callee args span)) (.argument v before rest span)
  | get {object name span} : Awaits (.expr (.get object name span)) (.get name)
  | target {object name value span} :
      Awaits (.expr (.set object name value span)) (.target name value)
  | field {object name value span ref} :
      Awaits (.expr (.set object name value span)) (.field ref name)
  | discard {value span} : Awaits (.stmt (.expr value span)) .discard
  | print {value span} : Awaits (.stmt (.print value span)) .print
  | assert {value span} : Awaits (.stmt (.assert value span)) (.assert value.span)
  | assertLeft {left right span} :
      Awaits (.stmt (.assertEqual left right span)) (.assertLeft right (left.span.join right.span))
  | assertRight {left right span v} :
      Awaits (.stmt (.assertEqual left right span)) (.assertRight v (left.span.join right.span))
  | branch {test thenBranch elseBranch span} :
      Awaits (.stmt (.cond test thenBranch elseBranch span)) (.branch thenBranch elseBranch)
  | test {test body span} : Awaits (.stmt (.loop test body span)) (.test test body)
  | body {test body span} : Awaits (.stmt (.loop test body span)) (.body test body)
  | declare {name init span} : Awaits (.stmt (.var name (some init) span)) (.declare name)
  | giveBack {keyword value span} : Awaits (.stmt (.ret keyword (some value) span)) .giveBack

/-- What the machine is about to run stems from nodes of a set, and an error that it is taking
up the frames has a property. -/
def Control.Stems (P : TreeNode → Prop) (F : RuntimeError → Prop) : Control → Prop
  | .eval e => P (.expr e)
  | .exec s => P (.stmt s)
  | .run body => ∀ s ∈ body, P (.stmt s)
  | .call range _ _ => ∃ callee args, P (.expr (.call callee args range))
  | .value _ => True
  | .done => True
  | .returning _ => True
  | .failing e => F e

/-- What a frame will run stems from nodes of a set. -/
inductive Frame.Stems (P : TreeNode → Prop) : Frame → Prop where
  | node {n frame} (hn : P n) (hawaits : n.Awaits frame) : Stems P frame
  | sequence {rest} (h : ∀ s ∈ rest, P (.stmt s)) : Stems P (.sequence rest)
  | program {rest} (h : ∀ s ∈ rest, P (.stmt s)) : Stems P (.program rest)
  | scope {saved} : Stems P (.scope saved)
  | activation {saved closure} : Stems P (.activation saved closure)
  | construct {object} : Stems P (.construct object)
  | protect : Stems P .protect

/-- The body of a function stems from nodes of a set. -/
def Closure.Stems (P : TreeNode → Prop) (c : Closure) : Prop :=
  ∀ s ∈ c.decl.body, P (.stmt s)

/-- The bodies of all functions and methods of a store stem from nodes of a set. -/
structure Store.Stems (P : TreeNode → Prop) (st : Store) : Prop where
  functions : ∀ (i : Nat) (c : Closure), st.functions[i]? = some c → c.Stems P
  methods : ∀ (i : Nat) (k : Class) (name : Bytes) (c : Closure), st.classes[i]? = some k →
    k.own? name = some c → c.Stems P

/-- All that the machine will run without a call stems from nodes of a set. -/
structure State.Stems (P : TreeNode → Prop) (F : RuntimeError → Prop) (s : State) : Prop where
  control : s.control.Stems P F
  frames : ∀ frame ∈ s.frames, frame.Stems P

/-- The machine is at a node: it begins with it, or makes the call of it, or has a value that
is awaited on behalf of it. -/
inductive State.At (s : State) : TreeNode → Prop where
  | eval {e} (hcontrol : s.control = .eval e) : At s (.expr e)
  | exec {stmt} (hcontrol : s.control = .exec stmt) : At s (.stmt stmt)
  | call {callee args range v vs} (hcontrol : s.control = .call range v vs) :
      At s (.expr (.call callee args range))
  | value {n v frame frames} (hcontrol : s.control = .value v)
      (hframes : s.frames = frame :: frames) (hawaits : n.Awaits frame) : At s n

variable {P : TreeNode → Prop} {F : RuntimeError → Prop} {st st' : Store} {set : Setting}
  {s : State}

/-- Only the error that is taken up the frames depends on the property of errors. -/
theorem State.Stems.mono {G : RuntimeError → Prop} (h : s.Stems P F)
    (hG : ∀ e, s.control = .failing e → F e → G e) : s.Stems P G := by
  obtain ⟨control, frames, env, depth, store, trace⟩ := s
  obtain ⟨hcontrol, hframes⟩ := h
  refine ⟨?_, hframes⟩
  cases control with
  | failing e => exact hG e rfl hcontrol
  | _ => exact hcontrol

/-! ## Stores -/

theorem Store.Stems.weaken {Q : TreeNode → Prop} (h : st.Stems P)
    (hPQ : ∀ n, P n → Q n) : st.Stems Q where
  functions i c hc s hs := hPQ _ (h.functions i c hc s hs)
  methods i k name c hk hc s hs := hPQ _ (h.methods i k name c hk hc s hs)

theorem Store.Stems.define (h : st.Stems P) (env : Nat) (name : Bytes) (v : Value) :
    (st.define env name v).Stems P :=
  ⟨h.functions, h.methods⟩

theorem Store.Stems.newEnv (h : st.Stems P) (parent : Option Nat) (vars : Bindings Value) :
    (st.newEnv parent vars).2.Stems P :=
  ⟨h.functions, h.methods⟩

theorem Store.Stems.newFunction (h : st.Stems P) {c : Closure} (hc : c.Stems P) :
    (st.newFunction c).2.Stems P where
  functions i d hd := by
    rcases getElem?_push_cases hd with hold | ⟨_, rfl⟩
    · exact h.functions i d hold
    · exact hc
  methods := h.methods

theorem Store.Stems.newClass (h : st.Stems P) {cls : Class}
    (hmethods : ∀ name c, cls.own? name = some c → c.Stems P) : (st.newClass cls).2.Stems P where
  functions := h.functions
  methods i k name c hk hc := by
    rcases getElem?_push_cases hk with hold | ⟨_, rfl⟩
    · exact h.methods i k name c hold hc
    · exact hmethods name c hc

theorem Store.Stems.method? (h : st.Stems P) {cls : Nat} {name : Bytes} {c : Closure}
    (hmethod : st.method? cls name = some c) : c.Stems P := by
  obtain ⟨i, k, _, hk, hc⟩ := descends_of_method? hmethod
  exact h.methods i k name c hk hc

theorem State.Binds.stems {c : Closure} {object : Nat} (h : s.Binds set c object)
    (hst : s.store.Stems P) : c.Stems P := by
  cases h with
  | property _ _ _ hmethod => exact hst.method? hmethod
  | super _ _ _ _ _ hmethod => exact hst.method? hmethod

/-- The methods of a declared class stem from its declaration. -/
theorem TreeNode.Closed.classOf (hP : TreeNode.Closed P) {name : Name}
    {superclass : Option Superclass} {methods : List Function} {span : Range}
    (hn : P (.stmt (.classDecl name superclass methods span))) {made : Bytes}
    {parent : Option Nat} {env : Nat} {called : Bytes} {c : Closure}
    (hc : (State.classOf made parent env methods).own? called = some c) : c.Stems P := by
  obtain ⟨f, hf, rfl⟩ := own?_collectMethods hc
  intro s hs
  exact hP _ hn _ (List.mem_flatMap.mpr ⟨f, hf, List.mem_map_of_mem hs⟩)

/-- What a step adds to the store is declared at a node of the set, or has its body from what
was there before. -/
theorem State.Effect.stems (heffect : s.Effect set st') (h : s.Stems P F) (hst : s.store.Stems P)
    (hP : TreeNode.Closed P) : st'.Stems P := by
  have hnode : ∀ {stmt}, s.control = .exec stmt → P (.stmt stmt) := by
    intro stmt hcontrol
    have hstems := h.control
    rwa [hcontrol] at hstems
  cases heffect with
  | function hcontrol =>
      refine Stems.define (hst.newFunction fun s hs => ?_) _ _ _
      exact hP _ (hnode hcontrol) _ (List.mem_map_of_mem hs)
  | plainClass hcontrol =>
      refine Stems.define (Stems.newClass (hst.define _ _ _) fun _ _ hc => ?_) _ _ _
      exact hP.classOf (hnode hcontrol) hc
  | subclass hcontrol _ =>
      refine Stems.define (Stems.newClass (Stems.newEnv (hst.define _ _ _) _ _)
        fun _ _ hc => ?_) _ _ _
      exact hP.classOf (hnode hcontrol) hc
  | bind hbinds => exact Stems.newFunction (hst.newEnv _ _) (hbinds.stems hst)
  | _ => exact ⟨hst.functions, hst.methods⟩

/-! ## Moves -/

namespace State

variable {range : Range} {closure : Closure} {args : List Value} {v : Value}

theorem stems_proceed (h : s.Stems P F) {control : Control} (hcontrol : control.Stems P F) :
    (s.proceed control).state.Stems P F :=
  ⟨hcontrol, h.frames⟩

theorem stems_await (h : s.Stems P F) {frame : Frame} {control : Control}
    (hframe : frame.Stems P) (hcontrol : control.Stems P F) :
    (s.await frame control).state.Stems P F :=
  ⟨hcontrol, List.forall_mem_cons.mpr ⟨hframe, h.frames⟩⟩

theorem stems_fail (h : s.Stems P F) (hfail : ∀ cause, F ⟨range, cause⟩) (cause : Cause) :
    (s.fail range cause).state.Stems P F :=
  ⟨hfail cause, h.frames⟩

/-! ## Calls -/

theorem stems_enter (h : s.Stems P F) (hclosure : closure.Stems P)
    (hfail : ∀ cause, F ⟨range, cause⟩) :
    (s.enter set range closure args).state.Stems P F := by
  unfold enter
  dsimp only
  split
  · exact stems_fail h hfail _
  · split
    · exact stems_fail h hfail _
    · refine ⟨hclosure, List.forall_mem_cons.mpr ⟨.activation, ?_⟩⟩
      rw [log_frames]
      exact h.frames

theorem stems_leave (h : s.Stems P F) {saved : Nat} :
    (s.leave saved closure v).state.Stems P F := by
  unfold leave
  dsimp only
  split
  · split
    · exact ⟨trivial, h.frames⟩
    · exact ⟨h.control, h.frames⟩
  · exact ⟨trivial, h.frames⟩

theorem stems_callNative (h : s.Stems P F) {ref : Nat}
    (hcall : ∃ callee args, P (.expr (.call callee args range)))
    (hfail : ∀ cause, F ⟨range, cause⟩) :
    (s.callNative range ref args).state.Stems P F := by
  unfold callNative
  split
  · exact h
  · split
    · exact stems_fail h hfail _
    · split
      · exact ⟨trivial, h.frames⟩
      · split
        · split
          · split
            · exact stems_await h .protect hcall
            · exact stems_fail h hfail _
          · exact h
        · exact h

theorem stems_callValue (h : s.Stems P F) (hst : s.store.Stems P) {callee : Value}
    (hcall : ∃ callee args, P (.expr (.call callee args range)))
    (hfail : ∀ cause, F ⟨range, cause⟩) :
    (s.callValue set range callee args).state.Stems P F := by
  cases callee with
  | function ref =>
      rw [callValue]
      split
      next closure hclosure => exact stems_enter h (hst.functions ref closure hclosure) hfail
      next => exact h
  | native ref => exact stems_callNative h hcall hfail
  | classRef cls =>
      rw [callValue, instantiate]
      dsimp only
      split
      next init hinit =>
        have hbody : init.Stems P := hst.method? ((method?_newInstance ..).symm.trans hinit)
        refine stems_enter ⟨h.control, ?_⟩ hbody hfail
        exact List.forall_mem_cons.mpr ⟨.construct, h.frames⟩
      next =>
        split
        · exact ⟨hfail _, h.frames⟩
        · exact ⟨trivial, h.frames⟩
  | _ => exact stems_fail h hfail _

/-! ## Expressions and statements -/

theorem stems_evalVariable (h : s.Stems P F) {id : Nat} {name : Name}
    (hfail : ∀ cause, F ⟨name.range, cause⟩) : (s.evalVariable set id name).state.Stems P F := by
  unfold evalVariable
  split
  · exact h
  · exact stems_proceed h trivial
  · exact stems_fail h hfail _

theorem stems_evalSuper (h : s.Stems P F) {id thisId : Nat} {method : Name}
    (hfail : ∀ cause, F ⟨method.range, cause⟩) :
    (s.evalSuper set id thisId method).state.Stems P F := by
  unfold evalSuper
  split
  · exact h
  · exact h
  · split
    · exact h
    · exact h
    · split
      · exact ⟨trivial, h.frames⟩
      · exact stems_fail h hfail _
    · exact h
    · exact h

theorem stems_eval (h : s.Stems P F) (hP : TreeNode.Closed P) {e : Expr} (hn : P (.expr e))
    (hfail : ∀ cause, F ⟨(TreeNode.expr e).blamed, cause⟩) : (s.eval set e).state.Stems P F := by
  have hparts : ∀ part ∈ TreeNode.ofExpr e, P part := hP _ hn
  cases e with
  | literal value span => exact stems_proceed h trivial
  | var id name => exact stems_evalVariable h hfail
  | assign id name value span =>
      exact stems_await h (.node hn .assign) (hparts _ List.mem_cons_self)
  | unary op operand span => exact stems_await h (.node hn .unary) (hparts _ List.mem_cons_self)
  | binary op left right span => exact stems_await h (.node hn .left) (hparts _ List.mem_cons_self)
  | logical op left right span =>
      exact stems_await h (.node hn .logical) (hparts _ List.mem_cons_self)
  | group inner span => exact stems_proceed h (hparts _ List.mem_cons_self)
  | call callee args span => exact stems_await h (.node hn .callee) (hparts _ List.mem_cons_self)
  | get object name span => exact stems_await h (.node hn .get) (hparts _ List.mem_cons_self)
  | set object name value span =>
      exact stems_await h (.node hn .target) (hparts _ List.mem_cons_self)
  | this id keyword => exact stems_evalVariable h hfail
  | super id thisId keyword method span => exact stems_evalSuper h hfail

theorem stems_execClass (h : s.Stems P F) {name : Name} {superclass : Option Superclass}
    {methods : List Function} {span : Range}
    (hfail : ∀ cause, F ⟨(TreeNode.stmt (.classDecl name superclass methods span)).blamed, cause⟩) :
    (s.execClass set name superclass methods).state.Stems P F := by
  have hdefined : (s.define name.text .nil).Stems P F := ⟨h.control, h.frames⟩
  unfold execClass
  split
  · exact ⟨trivial, h.frames⟩
  next parent =>
    dsimp only
    split
    · exact hdefined
    · exact stems_fail hdefined hfail _
    · exact ⟨trivial, h.frames⟩
    · exact stems_fail hdefined hfail _

theorem stems_exec (h : s.Stems P F) (hP : TreeNode.Closed P) {stmt : Stmt} (hn : P (.stmt stmt))
    (hfail : ∀ cause, F ⟨(TreeNode.stmt stmt).blamed, cause⟩) :
    (s.exec set stmt).state.Stems P F := by
  have hparts : ∀ part ∈ TreeNode.ofStmt stmt, P part := hP _ hn
  cases stmt with
  | expr value span => exact stems_await h (.node hn .discard) (hparts _ List.mem_cons_self)
  | print value span => exact stems_await h (.node hn .print) (hparts _ List.mem_cons_self)
  | assert value span => exact stems_await h (.node hn .assert) (hparts _ List.mem_cons_self)
  | assertEqual left right span =>
      exact stems_await h (.node hn .assertLeft) (hparts _ List.mem_cons_self)
  | var name init span =>
      cases init with
      | none => exact ⟨trivial, h.frames⟩
      | some init => exact stems_await h (.node hn .declare) (hparts _ List.mem_cons_self)
  | block body span =>
      exact ⟨fun s hs => hparts _ (List.mem_map_of_mem hs),
        List.forall_mem_cons.mpr ⟨.scope, h.frames⟩⟩
  | cond test thenBranch elseBranch span =>
      exact stems_await h (.node hn .branch) (hparts _ List.mem_cons_self)
  | loop test body span => exact stems_await h (.node hn .test) (hparts _ List.mem_cons_self)
  | ret keyword value span =>
      cases value with
      | none => exact stems_proceed h trivial
      | some value => exact stems_await h (.node hn .giveBack) (hparts _ List.mem_cons_self)
  | function decl => exact ⟨trivial, h.frames⟩
  | classDecl name superclass methods span => exact stems_execClass h hfail

theorem stems_execAll (h : s.Stems P F) {body : List Stmt} (hbody : ∀ s ∈ body, P (.stmt s)) :
    (s.execAll body).state.Stems P F := by
  cases body with
  | nil => exact stems_proceed h trivial
  | cons stmt rest =>
      obtain ⟨hstmt, hrest⟩ := List.forall_mem_cons.mp hbody
      exact stems_await h (.sequence hrest) hstmt

/-! ## Outcomes -/

theorem stems_nextArgument (h : s.Stems P F) (hP : TreeNode.Closed P) {callee : Expr}
    {args rest : List Expr} {span : Range} (hn : P (.expr (.call callee args span)))
    (hrest : rest <:+ args) {before : List Value} :
    (s.nextArgument v before span rest).state.Stems P F := by
  cases rest with
  | nil => exact stems_proceed h ⟨callee, args, hn⟩
  | cons e rest =>
      have he : e ∈ args := hrest.subset List.mem_cons_self
      exact stems_await h (.node hn (.argument ((List.suffix_cons e rest).trans hrest)))
        (hP _ hn _ (List.mem_cons_of_mem _ (List.mem_map_of_mem he)))

theorem stems_settle (h : s.Stems P F) (hfail : ∀ cause, F ⟨range, cause⟩)
    (outcome : Except Cause Value) : (s.settle range outcome).state.Stems P F := by
  cases outcome with
  | ok v => exact stems_proceed h trivial
  | error cause => exact stems_fail h hfail cause

theorem stems_getProperty (h : s.Stems P F) {name : Name}
    (hfail : ∀ cause, F ⟨name.range, cause⟩) : (s.getProperty name v).state.Stems P F := by
  cases v with
  | objectRef object =>
      rw [getProperty]
      split
      · exact h
      · split
        · exact ⟨trivial, h.frames⟩
        · split
          · exact ⟨trivial, h.frames⟩
          · exact stems_fail h hfail _
  | _ => exact stems_fail h hfail _

theorem stems_assignVariable (h : s.Stems P F) {id : Nat} {name : Name}
    (hfail : ∀ cause, F ⟨name.range, cause⟩) :
    (s.assignVariable set id name v).state.Stems P F := by
  unfold assignVariable
  split
  · exact h
  · exact ⟨trivial, h.frames⟩
  · exact stems_fail h hfail _

/-- A value that a node waits for leads on to what is left of the node, or to an error that is
blamed on it. -/
theorem stems_receive_node (h : s.Stems P F) (hP : TreeNode.Closed P) {n : TreeNode} {frame : Frame}
    (hn : P n) (hawaits : n.Awaits frame) (hfail : ∀ cause, F ⟨n.blamed, cause⟩) :
    (s.receive set v frame).state.Stems P F := by
  have hsecond : ∀ {a b}, n.children = [a, b] → P b := fun heq =>
    hP _ hn _ (heq ▸ List.mem_cons_of_mem _ List.mem_cons_self)
  cases hawaits with
  | assign => exact stems_assignVariable h hfail
  | unary => exact stems_settle h hfail _
  | left => exact stems_await h (.node hn .right) (hsecond rfl)
  | right => exact stems_settle h hfail _
  | @logical op =>
      cases op with
      | and =>
          rw [receive]
          split
          · exact stems_proceed h (hsecond rfl)
          · exact ⟨trivial, h.frames⟩
      | or =>
          rw [receive]
          split
          · exact ⟨trivial, h.frames⟩
          · exact stems_proceed h (hsecond rfl)
  | callee => exact stems_nextArgument h hP hn (List.suffix_refl _)
  | argument hrest => exact stems_nextArgument h hP hn hrest
  | get => exact stems_getProperty h hfail
  | target =>
      cases v with
      | objectRef object => exact stems_await h (.node hn .field) (hsecond rfl)
      | _ => exact stems_fail h hfail _
  | field => exact ⟨trivial, h.frames⟩
  | discard => exact stems_proceed h trivial
  | print =>
      rw [receive]
      split
      · exact ⟨trivial, h.frames⟩
      · exact ⟨trivial, h.frames⟩
  | assert =>
      rw [receive]
      split
      · exact ⟨trivial, h.frames⟩
      · exact stems_fail h hfail _
  | assertLeft => exact stems_await h (.node hn .assertRight) (hsecond rfl)
  | assertRight =>
      rw [receive]
      split
      · exact ⟨trivial, h.frames⟩
      · exact stems_fail h hfail _
  | @branch test thenBranch elseBranch span =>
      have hthen : P (.stmt thenBranch) :=
        hP _ hn _ (List.mem_cons_of_mem _ List.mem_cons_self)
      cases elseBranch with
      | none =>
          rw [receive]
          split
          · exact stems_proceed h hthen
          · exact ⟨trivial, h.frames⟩
      | some stmt =>
          rw [receive]
          split
          · exact stems_proceed h hthen
          · exact stems_proceed h (hP _ hn _
              (List.mem_cons_of_mem _ (List.mem_cons_of_mem _ List.mem_cons_self)))
  | test =>
      rw [receive]
      split
      · exact stems_await h (.node hn .body) (hsecond rfl)
      · exact ⟨trivial, h.frames⟩
  | body => exact h
  | declare => exact ⟨trivial, h.frames⟩
  | giveBack => exact stems_proceed h trivial

theorem stems_receive (h : s.Stems P F) (hP : TreeNode.Closed P) {frame : Frame}
    (hframe : frame.Stems P) (hfail : ∀ n, P n → n.Awaits frame → ∀ cause, F ⟨n.blamed, cause⟩) :
    (s.receive set v frame).state.Stems P F := by
  cases hframe with
  | node hn hawaits => exact stems_receive_node h hP hn hawaits (hfail _ hn hawaits)
  | construct => exact stems_proceed h trivial
  | protect => exact stems_proceed h trivial
  | _ => exact h

theorem stems_complete (h : s.Stems P F) (hP : TreeNode.Closed P) {frame : Frame}
    (hframe : frame.Stems P) : (s.complete frame).state.Stems P F := by
  cases hframe with
  | node hn hawaits =>
      cases hawaits with
      | body => exact stems_await h (.node hn .test) (hP _ hn _ List.mem_cons_self)
      | _ => exact h
  | sequence hrest => exact stems_proceed h hrest
  | @program rest hrest =>
      cases rest with
      | nil => exact stems_proceed h trivial
      | cons stmt rest =>
          obtain ⟨hstmt, hrest⟩ := List.forall_mem_cons.mp hrest
          exact stems_await h (.program hrest) hstmt
  | scope => exact ⟨trivial, h.frames⟩
  | activation => exact stems_leave h
  | _ => exact h

theorem stems_unwind (h : s.Stems P F) {frame : Frame} (hframe : frame.Stems P) :
    (s.unwind v frame).state.Stems P F := by
  cases frame with
  | activation saved closure => exact stems_leave h
  | program rest => exact stems_await h hframe trivial
  | _ => exact ⟨trivial, h.frames⟩

theorem stems_raise (h : s.Stems P F) {frame : Frame} {e : RuntimeError} (he : F e) :
    (s.raise set e frame).state.Stems P F := by
  cases frame with
  | protect =>
      refine ⟨trivial, ?_⟩
      simp only [raise, state_proceed, log_frames]
      exact h.frames
  | _ => exact ⟨he, h.frames⟩

end State

/-! ## Steps -/

/-- What a step leads to stems from the same nodes, and an error that it raises is blamed on
the node that the machine was at. -/
theorem State.Stems.advance (set : Setting) (h : s.Stems P F) (hst : s.store.Stems P)
    (hP : TreeNode.Closed P) (hF : ∀ n, P n → s.At n → ∀ cause, F ⟨n.blamed, cause⟩) :
    (LoxMachine.advance set s).state.Stems P F := by
  obtain ⟨control, frames, env, depth, store, trace⟩ := s
  obtain ⟨hcontrol, hframes⟩ := h
  -- The state that is left when the topmost frame is taken off.
  have hpopped : ∀ {frame rest}, frames = frame :: rest → frame.Stems P ∧
      (⟨control, rest, env, depth, store, trace⟩ : State).Stems P F := by
    rintro frame rest rfl
    obtain ⟨hframe, hrest⟩ := List.forall_mem_cons.mp hframes
    exact ⟨hframe, hcontrol, hrest⟩
  cases control with
  | eval e => exact stems_eval ⟨hcontrol, hframes⟩ hP hcontrol (hF _ hcontrol (.eval rfl))
  | exec stmt => exact stems_exec ⟨hcontrol, hframes⟩ hP hcontrol (hF _ hcontrol (.exec rfl))
  | run body => exact stems_execAll ⟨hcontrol, hframes⟩ hcontrol
  | call range callee args =>
      have ⟨_, _, hn⟩ := hcontrol
      exact stems_callValue ⟨hcontrol, hframes⟩ hst hcontrol (hF _ hn (.call rfl))
  | value v =>
      cases frames with
      | nil => exact ⟨hcontrol, hframes⟩
      | cons frame rest =>
          obtain ⟨hframe, hrest⟩ := hpopped rfl
          exact stems_receive hrest hP hframe fun n hn hawaits =>
            hF n hn (.value rfl rfl hawaits)
  | done =>
      cases frames with
      | nil => exact ⟨hcontrol, hframes⟩
      | cons frame rest => exact stems_complete (hpopped rfl).2 hP (hpopped rfl).1
  | returning v =>
      cases frames with
      | nil => exact ⟨hcontrol, hframes⟩
      | cons frame rest => exact stems_unwind (hpopped rfl).2 (hpopped rfl).1
  | failing e =>
      cases frames with
      | nil => exact ⟨hcontrol, hframes⟩
      | cons frame rest => exact stems_raise (hpopped rfl).2 hcontrol

/-- An error is blamed on a node of a set. -/
def RuntimeError.Blames (e : RuntimeError) (P : TreeNode → Prop) : Prop :=
  ∃ n, P n ∧ e.range = n.blamed

/-- An error that a step leads to is the one the machine was taking up the frames, or it is
raised at the node the machine was at. -/
theorem State.Stems.raised (h : s.Stems P F) (hst : s.store.Stems P) (hP : TreeNode.Closed P)
    {e : RuntimeError} (he : (LoxMachine.advance set s).state.control = .failing e) :
    s.control = .failing e ∨ e.Blames fun n => P n ∧ s.At n := by
  have hstems : s.Stems P fun e => s.control = .failing e ∨ e.Blames fun n => P n ∧ s.At n :=
    h.mono fun _ hcontrol _ => .inl hcontrol
  have hnext := (hstems.advance set hst hP fun n hn hat _ =>
    .inr ⟨n, ⟨hn, hat⟩, rfl⟩).control
  rw [he] at hnext
  exact hnext

/-- However long it goes on, all that a run comes to stems from the same nodes, and so do the
errors on which it ends. -/
theorem State.Stems.run (h : s.Stems P (·.Blames P)) (hst : s.store.Stems P)
    (hP : TreeNode.Closed P) (fuel : Nat) :
    (LoxMachine.run set fuel s).2.Stems P (·.Blames P) ∧
      (LoxMachine.run set fuel s).2.store.Stems P ∧
      ∀ e, (LoxMachine.run set fuel s).1 = some (.failed e) → e.Blames P := by
  induction fuel generalizing s with
  | zero =>
      refine ⟨h, hst, ?_⟩
      rintro e ⟨⟩
  | succ fuel ih =>
      have hnext := h.advance set hst hP fun n hn _ _ => ⟨n, hn, rfl⟩
      have hstore := (effect_advance set s).stems h hst hP
      rw [LoxMachine.run]
      cases hadvance : LoxMachine.advance set s with
      | next s' =>
          rw [hadvance] at hnext hstore
          dsimp only [Progress.state] at hnext hstore ⊢
          exact ih hnext hstore
      | halt ending s' =>
          rw [hadvance] at hnext hstore
          refine ⟨hnext, hstore, fun e heq => ?_⟩
          obtain rfl : ending = .failed e := Option.some.inj heq
          have herror := h.control
          rwa [(eq_of_failed hadvance).1] at herror

end LoxMachine
