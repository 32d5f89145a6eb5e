import LoxMachine.Proofs.Machine.Effects
import LoxMachine.Proofs.Placing.Lockstep

/-!
# What a run writes

A line is written by a print statement and by nothing else; everything else that is
written is a record of the log.  Whether print statements are silent makes no other
difference to a run, and neither does what was written before it.
-/

namespace LoxMachine

namespace Session

@[simp] theorem lines_push_line (trace : Array Event) (text : Bytes) :
    lines (trace.push (.line text)) = lines trace ++ [text] := by
  simp [lines]

@[simp] theorem lines_push_record (trace : Array Event) (entry : Record) :
    lines (trace.push (.record entry)) = lines trace := by
  simp [lines]

@[simp] theorem lines_append (before after : Array Event) :
    lines (before ++ after) = lines before ++ lines after := by
  simp [lines]

@[simp] theorem records_push_line (trace : Array Event) (text : Bytes) :
    records (trace.push (.line text)) = records trace := by
  simp [records]

@[simp] theorem records_push_record (trace : Array Event) (entry : Record) :
    records (trace.push (.record entry)) = records trace ++ [entry] := by
  simp [records]

@[simp] theorem records_append (before after : Array Event) :
    records (before ++ after) = records before ++ records after := by
  simp [records]

end Session

/-- What a print statement is about to show: its value has been found. -/
def State.printing? (s : State) : Option Bytes :=
  match s.control, s.frames with
  | .value v, .print :: _ => some (s.store.text v)
  | _, _ => none

/-- What the print statements of a run show, in order. -/
def printed (set : Setting) : (fuel : Nat) → State → List Bytes
  | 0, _ => []
  | fuel + 1, s =>
      s.printing?.toList ++
        match advance set s with
        | .next s => printed set fuel s
        | .halt _ _ => []

/-- What is written of the texts that print statements show. -/
def Options.written (options : Options) (texts : List Bytes) : List Bytes :=
  if options.disablePrint then [] else texts

theorem Options.written_nil (options : Options) : options.written [] = [] :=
  ite_self []

theorem Options.written_append (options : Options) (texts more : List Bytes) :
    options.written (texts ++ more) = options.written texts ++ options.written more := by
  unfold written
  split <;> rfl

/-- What a print statement writes. -/
def Options.echo (options : Options) (text : Bytes) : Array Event :=
  if options.disablePrint then #[] else #[.line text]

@[simp] theorem Options.lines_echo (options : Options) (text : Bytes) :
    Session.lines (options.echo text) = options.written [text] := by
  unfold echo written
  split <;> rfl

@[simp] theorem Options.records_echo (options : Options) (text : Bytes) :
    Session.records (options.echo text) = [] := by
  unfold echo
  split <;> rfl

/-- Options under which calls are refused for the same numbers of arguments. -/
structure Options.Agrees (options options' : Options) : Prop where
  fewer : options'.allowUnderApplication = options.allowUnderApplication
  more : options'.allowOverApplication = options.allowOverApplication

namespace State

variable {set : Setting} {s : State}

/-! ## Steps that print nothing -/

theorem lines_log (s : State) (set : Setting) (record : Record) :
    Session.lines (s.log set record).trace = Session.lines s.trace := by
  unfold log
  split
  · exact Session.lines_push_record _ _
  · rfl

theorem lines_enter (s : State) (set : Setting) (range : Range) (closure : Closure)
    (args : List Value) :
    Session.lines (s.enter set range closure args).state.trace = Session.lines s.trace := by
  unfold enter
  dsimp only
  split
  · rfl
  · split
    · rfl
    · exact lines_log _ _ _

theorem trace_leave (s : State) (saved : Nat) (closure : Closure) (v : Value) :
    (s.leave saved closure v).state.trace = s.trace := by
  unfold leave
  dsimp only
  split
  · split <;> rfl
  · rfl

theorem trace_callNative (s : State) (range : Range) (ref : Nat) (args : List Value) :
    (s.callNative range ref args).state.trace = s.trace := by
  unfold callNative
  split
  · rfl
  · split
    · rfl
    · split
      · rfl
      · split
        · split
          · split <;> rfl
          · rfl
        · rfl

theorem lines_callValue (s : State) (set : Setting) (range : Range) (callee : Value)
    (args : List Value) :
    Session.lines (s.callValue set range callee args).state.trace = Session.lines s.trace := by
  cases callee with
  | function ref =>
      unfold callValue
      dsimp only
      split
      · exact lines_enter s set range _ args
      · rfl
  | native ref => rw [callValue, trace_callNative]
  | classRef cls =>
      unfold callValue instantiate
      dsimp only
      split
      · exact lines_enter _ set range _ args
      · split <;> rfl
  | _ => rfl

theorem trace_evalVariable (s : State) (set : Setting) (id : Nat) (name : Name) :
    (s.evalVariable set id name).state.trace = s.trace := by
  unfold evalVariable
  split <;> rfl

theorem trace_eval (s : State) (set : Setting) (e : Expr) :
    (s.eval set e).state.trace = s.trace := by
  cases e with
  | var id name => exact trace_evalVariable s set id name
  | this id keyword => exact trace_evalVariable s set id _
  | super id thisId keyword method span =>
      unfold eval evalSuper
      dsimp only
      split
      · rfl
      · rfl
      · split
        · rfl
        · rfl
        · split <;> rfl
        · rfl
        · rfl
  | _ => rfl

theorem trace_execClass (s : State) (set : Setting) (name : Name)
    (superclass : Option Superclass) (methods : List Function) :
    (s.execClass set name superclass methods).state.trace = s.trace := by
  cases superclass with
  | none => rfl
  | some parent =>
      unfold execClass
      dsimp only
      split <;> rfl

theorem trace_exec (s : State) (set : Setting) (stmt : Stmt) :
    (s.exec set stmt).state.trace = s.trace := by
  cases stmt with
  | var name init span => cases init <;> rfl
  | ret keyword value span => cases value <;> rfl
  | classDecl name superclass methods span => exact trace_execClass s set name superclass methods
  | _ => rfl

theorem trace_getProperty (s : State) (name : Name) (v : Value) :
    (s.getProperty name v).state.trace = s.trace := by
  cases v with
  | objectRef object =>
      unfold getProperty
      dsimp only
      split
      · rfl
      · split
        · rfl
        · split <;> rfl
  | _ => rfl

theorem trace_nextArgument (s : State) (callee : Value) (before : List Value) (span : Range)
    (rest : List Expr) : (s.nextArgument callee before span rest).state.trace = s.trace := by
  cases rest <;> rfl

theorem trace_settle (s : State) (range : Range) (outcome : Except Cause Value) :
    (s.settle range outcome).state.trace = s.trace := by
  cases outcome <;> rfl

theorem trace_receive (s : State) (set : Setting) (v : Value) {frame : Frame}
    (hframe : frame ≠ .print) : (s.receive set v frame).state.trace = s.trace := by
  cases frame with
  | assign id name =>
      rw [receive, assignVariable]
      split <;> rfl
  | unary op span => exact trace_settle s span _
  | right op left span => exact trace_settle s span _
  | logical op right =>
      cases op with
      | or =>
          rw [receive]
          split <;> rfl
      | and =>
          rw [receive]
          split <;> rfl
  | callee args span => exact trace_nextArgument s v [] span args
  | argument callee before rest span => exact trace_nextArgument s callee (v :: before) span rest
  | get name => exact trace_getProperty s name v
  | target name value => cases v <;> rfl
  | print => exact absurd rfl hframe
  | assert range =>
      rw [receive]
      split <;> rfl
  | assertRight left range =>
      rw [receive]
      split <;> rfl
  | branch thenBranch elseBranch =>
      cases elseBranch with
      | none =>
          rw [receive]
          split <;> rfl
      | some stmt =>
          rw [receive]
          split <;> rfl
  | test test body =>
      rw [receive]
      split <;> rfl
  | _ => rfl

theorem trace_complete (s : State) (frame : Frame) :
    (s.complete frame).state.trace = s.trace := by
  cases frame with
  | activation saved closure => exact trace_leave _ saved closure .nil
  | program rest => cases rest <;> rfl
  | _ => rfl

theorem trace_unwind (s : State) (v : Value) (frame : Frame) :
    (s.unwind v frame).state.trace = s.trace := by
  cases frame with
  | activation saved closure => exact trace_leave _ saved closure v
  | _ => rfl

theorem lines_raise (s : State) (set : Setting) (e : RuntimeError) (frame : Frame) :
    Session.lines (s.raise set e frame).state.trace = Session.lines s.trace := by
  cases frame with
  | protect => exact lines_log s set _
  | _ => rfl

theorem ne_print_of_printing? {v : Value} {frame : Frame} {rest : List Frame}
    (hcontrol : s.control = .value v) (hframes : s.frames = frame :: rest)
    (hprinting : s.printing? = none) : frame ≠ .print := by
  rintro rfl
  rw [printing?, hcontrol, hframes] at hprinting
  cases hprinting

theorem lines_advance (hprinting : s.printing? = none) :
    Session.lines (advance set s).state.trace = Session.lines s.trace := by
  obtain ⟨control, frames, env, depth, store, trace⟩ := s
  cases control with
  | eval e => exact congrArg Session.lines (trace_eval _ set e)
  | exec stmt => exact congrArg Session.lines (trace_exec _ set stmt)
  | run body => cases body <;> rfl
  | call range callee args => exact lines_callValue _ set range callee args
  | value v =>
      cases frames with
      | nil => rfl
      | cons frame rest =>
          exact congrArg Session.lines (trace_receive ⟨.value v, rest, env, depth, store, trace⟩
            set v (ne_print_of_printing? rfl rfl hprinting))
  | done =>
      cases frames with
      | nil => rfl
      | cons frame rest =>
          exact congrArg Session.lines
            (trace_complete ⟨.done, rest, env, depth, store, trace⟩ frame)
  | returning v =>
      cases frames with
      | nil => rfl
      | cons frame rest =>
          exact congrArg Session.lines
            (trace_unwind ⟨.returning v, rest, env, depth, store, trace⟩ v frame)
  | failing e =>
      cases frames with
      | nil => rfl
      | cons frame rest =>
          exact lines_raise ⟨.failing e, rest, env, depth, store, trace⟩ set e frame

theorem advance_printing {text : Bytes} (hprinting : s.printing? = some text) :
    advance set s = .next { s with
      control := .done
      frames := s.frames.tail
      trace := s.trace ++ set.options.echo text } := by
  obtain ⟨control, frames, env, depth, store, trace⟩ := s
  unfold printing? at hprinting
  split at hprinting
  next v rest hcontrol hframes =>
    cases hprinting
    obtain rfl : control = .value v := hcontrol
    obtain rfl : frames = .print :: rest := hframes
    unfold Options.echo
    cases hsilent : set.options.disablePrint with
    | true =>
        simp only [advance, pop, receive, hsilent]
        rfl
    | false =>
        simp only [advance, pop, receive, hsilent]
        rfl
  next => cases hprinting

/-! ## Other options -/

variable {options : Options}

theorem callValue_options (h : set.options.Agrees options) (s : State) (range : Range)
    (callee : Value) (args : List Value) :
    s.callValue { set with options := options } range callee args =
      s.callValue set range callee args := by
  cases callee with
  | function ref =>
      simp only [callValue, enter, h.fewer, h.more]
      rfl
  | classRef cls =>
      simp only [callValue, instantiate, enter, h.fewer, h.more]
      rfl
  | _ => rfl

/-- Options that agree on calls make a difference to print statements only. -/
theorem advance_options (h : set.options.Agrees options) (hprinting : s.printing? = none) :
    advance { set with options := options } s = advance set s := by
  obtain ⟨control, frames, env, depth, store, trace⟩ := s
  cases control with
  | call range callee args => exact callValue_options h _ range callee args
  | value v =>
      cases frames with
      | nil => rfl
      | cons frame rest =>
          have hframe := ne_print_of_printing? rfl rfl hprinting
          cases frame with
          | print => exact absurd rfl hframe
          | logical op right => cases op <;> rfl
          | _ => rfl
  | _ => rfl

end State

/-! ## Runs -/

/-- Runs under options that agree on calls differ in what print statements write, and in
nothing else. -/
theorem run_options {set : Setting} {options : Options} (h : set.options.Agrees options)
    (fuel : Nat) (s : State) (before : Array Event) :
    (run { set with options := options } fuel { s with trace := before }).1 =
        (run set fuel s).1 ∧
      printed { set with options := options } fuel { s with trace := before } =
        printed set fuel s ∧
      ∃ mine yours,
        (run set fuel s).2.trace = s.trace ++ mine ∧
        (run { set with options := options } fuel { s with trace := before }).2 =
          { (run set fuel s).2 with trace := before ++ yours } ∧
        Session.lines mine = set.options.written (printed set fuel s) ∧
        Session.lines yours = options.written (printed set fuel s) ∧
        Session.records yours = Session.records mine := by
  induction fuel generalizing s before with
  | zero =>
      refine ⟨rfl, rfl, #[], #[], Array.append_empty.symm, ?_, ?_, ?_, rfl⟩
      · rw [Array.append_empty]
        rfl
      · exact set.options.written_nil.symm
      · exact options.written_nil.symm
  | succ fuel ih =>
      rw [run, run, printed, printed]
      cases hprinting : s.printing? with
      | some text =>
          have hprinting' : ({ s with trace := before } : State).printing? = some text := hprinting
          rw [hprinting', State.advance_printing hprinting, State.advance_printing hprinting']
          dsimp only
          obtain ⟨hending, hprinted, mine, yours, hmine, hyours, hlines, hlines', hrecords⟩ := ih
            { s with
              control := .done
              frames := s.frames.tail
              trace := s.trace ++ set.options.echo text }
            (before ++ options.echo text)
          refine ⟨hending, congrArg (_ ++ ·) hprinted, set.options.echo text ++ mine,
            options.echo text ++ yours, ?_, ?_, ?_, ?_, ?_⟩
          · rw [hmine, Array.append_assoc]
          · rw [hyours, Array.append_assoc]
          · rw [Session.lines_append, Options.lines_echo, hlines, ← Options.written_append]
            rfl
          · rw [Session.lines_append, Options.lines_echo, hlines', ← Options.written_append]
            rfl
          · rw [Session.records_append, Session.records_append, Options.records_echo,
              Options.records_echo, hrecords]
      | none =>
          -- Both machines do what the machine does that has written nothing yet.
          have hfresh : ∀ trace, ({ s with trace := trace } : State).printing? = none :=
            fun _ => hprinting
          have hmine := advance_after set { s with trace := #[] } s.trace
          have hyours := advance_after set { s with trace := #[] } before
          have hsilent : Session.lines (advance set { s with trace := #[] }).state.trace = [] :=
            State.lines_advance (hfresh #[])
          rw [Array.append_empty] at hmine hyours
          rw [hfresh before, State.advance_options h (hfresh before), hmine, hyours]
          cases hstep : advance set { s with trace := #[] } with
          | halt ending t =>
              rw [hstep] at hsilent
              exact ⟨rfl, rfl, t.trace, t.trace, rfl, rfl, hsilent.trans set.options.written_nil.symm,
                hsilent.trans options.written_nil.symm, rfl⟩
          | next t =>
              rw [hstep] at hsilent
              dsimp only
              obtain ⟨hending, hprinted, mine, yours, hmine, hyours, hlines, hlines', hrecords⟩ := ih
                { t with trace := s.trace ++ t.trace } (before ++ t.trace)
              refine ⟨hending, hprinted, t.trace ++ mine, t.trace ++ yours, ?_, ?_, ?_, ?_, ?_⟩
              · rw [hmine, Array.append_assoc]
              · rw [hyours, Array.append_assoc]
              · rw [Session.lines_append, hlines]
                exact congrArg (· ++ _) hsilent
              · rw [Session.lines_append, hlines']
                exact congrArg (· ++ _) hsilent
              · rw [Session.records_append, Session.records_append, hrecords]

end LoxMachine
