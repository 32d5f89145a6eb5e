import LoxMachine.Machine

/-!
# Steps of the machine

One step looks at what the machine is about to do and, if that is an outcome, at
the topmost frame.  A value goes to a frame that waits for one; the end of a
statement, a return and an error pass up the frames until one deals with them, and
every frame they pass restores what it had saved.
-/

namespace LoxMachine

/-- The number of calls that may be active at once. -/
def maxDepth : Nat := 10000

namespace State

/-! ## Moves -/

/-- Turns to something else. -/
def proceed (s : State) (control : Control) : Progress :=
  .next { s with control := control }

/-- Turns to something else, and lets a frame wait for it. -/
def await (s : State) (frame : Frame) (control : Control) : Progress :=
  .next { s with control := control, frames := frame :: s.frames }

def fail (s : State) (range : Range) (cause : Cause) : Progress :=
  s.proceed (.failing ⟨range, cause⟩)

/-- Stops because of a defect. -/
def crash (s : State) (d : Defect) : Progress :=
  .halt (.broken d) s

def write (s : State) (event : Event) : State :=
  { s with trace := s.trace.push event }

/-- Adds a record to the log, if there is one. -/
def log (s : State) (set : Setting) (record : Record) : State :=
  if set.logging then s.write (.record record) else s

/-- Binds a name in the current environment. -/
def define (s : State) (name : Bytes) (value : Value) : State :=
  { s with store := s.store.define s.env name value }

/-! ## Variables -/

/-- The value a variable node denotes: at its recorded depth, or searched from the
current environment if it has none. -/
def lookup (s : State) (set : Setting) (id : Nat) (name : Bytes) :
    Except Defect (Option Value) :=
  match set.depths.depth? id with
  | some depth => (s.store.getAt s.env depth name).map some
  | none => .ok (s.store.get? s.env name)

/-- Evaluates a variable node. -/
def evalVariable (s : State) (set : Setting) (id : Nat) (name : Name) : Progress :=
  match s.lookup set id name.text with
  | .error d => s.crash d
  | .ok (some v) => s.proceed (.value v)
  | .ok none => s.fail name.range (.undefinedVariable name.text)

/-- The environment that holds the variable a node denotes, found like its value. -/
def owner (s : State) (set : Setting) (id : Nat) (name : Bytes) : Except Defect (Option Nat) :=
  match set.depths.depth? id with
  | some depth => (s.store.bindingAt s.env depth name).map fun found => some found.1
  | none => .ok ((s.store.nearest? s.env name).map Prod.fst)

/-- Assigns to the variable a node denotes. -/
def assignVariable (s : State) (set : Setting) (id : Nat) (name : Name) (v : Value) :
    Progress :=
  match s.owner set id name.text with
  | .error d => s.crash d
  | .ok (some env) =>
      .next { s with control := .value v, store := s.store.define env name.text v }
  | .ok none => s.fail name.range (.undefinedVariable name.text)

/-! ## Properties -/

/-- Binds a method to an instance and yields it as a value. -/
def yieldMethod (s : State) (method : Closure) (object : Nat) : Progress :=
  let (closure, store) := s.store.bindMethod method object
  let (ref, store) := store.newFunction closure
  .next { s with control := .value (.function ref), store := store }

/-- Reads a property: a field of the instance, else a method of its class. -/
def getProperty (s : State) (name : Name) : Value → Progress
  | .objectRef object =>
      match s.store.instances[object]? with
      | none => s.crash .dangling
      | some o =>
          match o.fields.get? name.text with
          | some v => s.proceed (.value v)
          | none =>
              match s.store.method? o.cls name.text with
              | some method => s.yieldMethod method object
              | none => s.fail name.range (.undefinedProperty name.text)
  | _ => s.fail name.range .onlyInstances

/-- Evaluates `super` with a method: the class above the one the code was written
in, and the instance the running method is bound to. -/
def evalSuper (s : State) (set : Setting) (id thisId : Nat) (method : Name) : Progress :=
  match set.depths.depth? id, set.depths.depth? thisId with
  | none, _ => s.crash .unresolvedSuper
  | some _, none => s.crash .unresolvedThis
  | some superDepth, some thisDepth =>
      match s.store.getAt s.env superDepth (utf8 "super"),
          s.store.getAt s.env thisDepth (utf8 "this") with
      | .error d, _ => s.crash d
      | .ok _, .error d => s.crash d
      | .ok (.classRef cls), .ok (.objectRef object) =>
          match s.store.method? cls method.text with
          | some closure => s.yieldMethod closure object
          | none => s.fail method.range (.undefinedProperty method.text)
      | .ok (.classRef _), .ok _ => s.crash .thisNotInstance
      | .ok _, .ok _ => s.crash .superNotClass

/-! ## Operators -/

/-- The value of an operator on two numbers. -/
def arithmetic (op : BinaryOp) (a b : Float) : Value :=
  match op with
  | .equal => .bool (a == b)
  | .notEqual => .bool (a != b)
  | .less => .bool (a < b)
  | .lessEqual => .bool (a ≤ b)
  | .greater => .bool (a > b)
  | .greaterEqual => .bool (a ≥ b)
  | .add => .number (a + b)
  | .subtract => .number (a - b)
  | .multiply => .number (a * b)
  | .divide => .number (a / b)

/-- The value of a binary operator: any two values can be compared for equality,
strings can be joined, and all else takes numbers. -/
def operate (op : BinaryOp) (left right : Value) : Except Cause Value :=
  match op, left, right with
  | .equal, _, _ => .ok (.bool (left.same right))
  | .notEqual, _, _ => .ok (.bool !(left.same right))
  | .add, .string a, .string b => .ok (.string (a ++ b))
  | _, .number a, .number b => .ok (arithmetic op a b)
  | _, _, _ => .error (.unsupportedOperation left.kind op right.kind)

/-- The value of a unary operator. -/
def operateUnary (op : UnaryOp) (operand : Value) : Except Cause Value :=
  match op, operand with
  | .not, _ => .ok (.bool !operand.truthy)
  | .negate, .number a => .ok (.number (-a))
  | .negate, _ => .error (.unsupportedOperand operand.kind)

/-- Hands on the outcome of an operator. -/
def settle (s : State) (range : Range) : Except Cause Value → Progress
  | .ok v => s.proceed (.value v)
  | .error cause => s.fail range cause

/-! ## Calls -/

/-- Whether a number of arguments is refused, given whether too few and too many are
allowed. -/
def arityCause? (fewer more : Bool) (want got : Nat) (callee : Bytes) : Option Cause :=
  if got < want ∧ fewer = false then some (.tooFewArguments callee)
  else if want < got ∧ more = false then some (.tooManyArguments callee)
  else none

/-- Parameters with the arguments at their places; those without one are `nil`. -/
def bindParams : List Name → List Value → Bindings Value → Bindings Value
  | [], _, vars => vars
  | p :: params, [], vars => bindParams params [] (vars.set p.text .nil)
  | p :: params, v :: args, vars => bindParams params args (vars.set p.text v)

/-- Starts the body of a function in a new environment. -/
def enter (s : State) (set : Setting) (range : Range) (closure : Closure) (args : List Value) :
    Progress :=
  let name := closure.decl.name.text
  match arityCause? set.options.allowUnderApplication set.options.allowOverApplication
      closure.decl.arity args.length (Store.label (utf8 "fn") (some name)) with
  | some cause => s.fail range cause
  | none =>
      if maxDepth ≤ s.depth then s.fail range .stackOverflow
      else
        let s := s.log set ⟨utf8 "call", [(utf8 "function", name),
          (utf8 "args", Bytes.decimal args.length), (utf8 "depth", Bytes.decimal (s.depth + 1))]⟩
        let (env, store) :=
          s.store.newEnv (some closure.env) (bindParams closure.decl.params args Bindings.empty)
        .next { s with
          control := .run closure.decl.body
          frames := .activation s.env closure :: s.frames
          env := env
          depth := s.depth + 1
          store := store }

/-- Ends the body of a function with a value. An initializer gives back its
receiver instead. -/
def leave (s : State) (saved : Nat) (closure : Closure) (v : Value) : Progress :=
  let s := { s with env := saved, depth := s.depth - 1 }
  if closure.decl.kind = .initializer then
    match s.store.getAt closure.env 0 (utf8 "this") with
    | .ok this => s.proceed (.value this)
    | .error d => s.crash d
  else s.proceed (.value v)

/-- Makes an instance of a class and runs its initializer, if it has one. -/
def instantiate (s : State) (set : Setting) (range : Range) (cls : Nat) (args : List Value) :
    Progress :=
  let (object, store) := s.store.newInstance cls
  match store.method? cls (utf8 "init") with
  | some init =>
      let (closure, store) := store.bindMethod init object
      { s with store := store, frames := .construct object :: s.frames }.enter set range closure
        args
  | none =>
      match arityCause? set.options.allowUnderApplication set.options.allowOverApplication 0
          args.length (store.text (.classRef cls)) with
      | some cause => { s with store := store }.fail range cause
      | none => { s with store := store }.proceed (.value (.objectRef object))

/-- Calls a native function. These never are lenient about their arguments. -/
def callNative (s : State) (range : Range) (ref : Nat) (args : List Value) : Progress :=
  match s.store.natives[ref]? with
  | none => s.crash .dangling
  | some native =>
      match arityCause? false false native.arity args.length (s.store.text (.native ref)) with
      | some cause => s.fail range cause
      | none =>
          if native.name = utf8 "clock" then
            { s with store := s.store.tick }.proceed (.value (.number s.store.clock.now))
          else if native.name = utf8 "pcall" then
            match args with
            | callee :: _ =>
                if callee.isCallable then s.await .protect (.call range callee [])
                else s.fail range (.notCallable (s.store.debugText callee))
            | [] => s.crash .stray
          else s.crash (.noImplementation native.name)

/-- Calls a value. -/
def callValue (s : State) (set : Setting) (range : Range) (callee : Value) (args : List Value) :
    Progress :=
  match callee with
  | .function ref =>
      match s.store.functions[ref]? with
      | some closure => s.enter set range closure args
      | none => s.crash .dangling
  | .native ref => s.callNative range ref args
  | .classRef cls => s.instantiate set range cls args
  | _ => s.fail range (.notCallable (s.store.debugText callee))

/-! ## Declarations -/

/-- Methods by name, the later ones in place of the earlier, and the initializer. -/
def collectMethods (env : Nat) : List Function → Option Closure → Bindings Closure →
    Option Closure × Bindings Closure
  | [], init, methods => (init, methods)
  | f :: rest, init, methods =>
      if f.kind = .initializer then collectMethods env rest (some ⟨f, env⟩) methods
      else collectMethods env rest init (methods.set f.name.text ⟨f, env⟩)

/-- Makes a class and binds its name. The methods of a subclass see one more scope,
which holds `super`. -/
def declareClass (s : State) (name : Bytes) (superclass : Option Nat)
    (methods : List Function) : Progress :=
  let (env, store) :=
    match superclass with
    | some parent =>
        s.store.newEnv (some s.env) (Bindings.empty.set (utf8 "super") (.classRef parent))
    | none => (s.env, s.store)
  let (init, found) := collectMethods env methods none Bindings.empty
  let (ref, store) := store.newClass ⟨name, superclass, init, found⟩
  .next { s with control := .done, store := store.define s.env name (.classRef ref) }

/-- Executes a class declaration. Its name is bound to `nil` before the superclass is
looked at. -/
def execClass (s : State) (set : Setting) (name : Name) (superclass : Option Superclass)
    (methods : List Function) : Progress :=
  let s := s.define name.text .nil
  match superclass with
  | none => s.declareClass name.text none methods
  | some parent =>
      match s.lookup set parent.id parent.name.text with
      | .error d => s.crash d
      | .ok none => s.fail parent.name.range (.undefinedVariable parent.name.text)
      | .ok (some (.classRef ref)) => s.declareClass name.text (some ref) methods
      | .ok (some _) => s.fail parent.name.range .superclassNotClass

/-! ## Expressions and statements -/

/-- Begins to evaluate an expression. -/
def eval (s : State) (set : Setting) : Expr → Progress
  | .literal value _ => s.proceed (.value (Value.ofLiteral value))
  | .var id name => s.evalVariable set id name
  | .assign id name value _ => s.await (.assign id name) (.eval value)
  | .unary op operand span => s.await (.unary op span) (.eval operand)
  | .binary op left right span => s.await (.left op right span) (.eval left)
  | .logical op left right _ => s.await (.logical op right) (.eval left)
  | .group inner _ => s.proceed (.eval inner)
  | .call callee args span => s.await (.callee args span) (.eval callee)
  | .get object name _ => s.await (.get name) (.eval object)
  | .set object name value _ => s.await (.target name value) (.eval object)
  | .this id keyword => s.evalVariable set id ⟨utf8 "this", keyword⟩
  | .super id thisId _ method _ => s.evalSuper set id thisId method

/-- Begins to execute a statement. -/
def exec (s : State) (set : Setting) : Stmt → Progress
  | .expr value _ => s.await .discard (.eval value)
  | .print value _ => s.await .print (.eval value)
  | .assert value _ => s.await (.assert value.span) (.eval value)
  | .assertEqual left right _ =>
      s.await (.assertLeft right (left.span.join right.span)) (.eval left)
  | .var name (some init) _ => s.await (.declare name) (.eval init)
  | .var name none _ => (s.define name.text .nil).proceed .done
  | .block body _ =>
      let (env, store) := s.store.newEnv (some s.env) Bindings.empty
      .next { s with
        control := .run body
        frames := .scope s.env :: s.frames
        env := env
        store := store }
  | .cond test thenBranch elseBranch _ => s.await (.branch thenBranch elseBranch) (.eval test)
  | .loop test body _ => s.await (.test test body) (.eval test)
  | .ret _ (some value) _ => s.await .giveBack (.eval value)
  | .ret _ none _ => s.proceed (.returning .nil)
  | .function decl =>
      let (ref, store) := s.store.newFunction ⟨decl, s.env⟩
      .next { s with
        control := .done
        store := store.define s.env decl.name.text (.function ref) }
  | .classDecl name superclass methods _ => s.execClass set name superclass methods

/-- Begins to execute statements in order. -/
def execAll (s : State) : List Stmt → Progress
  | [] => s.proceed .done
  | stmt :: rest => s.await (.sequence rest) (.exec stmt)

/-! ## Outcomes -/

/-- Calls `callee` once no argument is left to evaluate. -/
def nextArgument (s : State) (callee : Value) (before : List Value) (span : Range) :
    List Expr → Progress
  | [] => s.proceed (.call span callee before.reverse)
  | e :: rest => s.await (.argument callee before rest span) (.eval e)

/-- Hands a value to the frame that was topmost. -/
def receive (s : State) (set : Setting) (v : Value) : Frame → Progress
  | .assign id name => s.assignVariable set id name v
  | .unary op span => s.settle span (operateUnary op v)
  | .left op right span => s.await (.right op v span) (.eval right)
  | .right op left span => s.settle span (operate op left v)
  | .logical .or right => if v.truthy then s.proceed (.value v) else s.proceed (.eval right)
  | .logical .and right => if v.truthy then s.proceed (.eval right) else s.proceed (.value v)
  | .callee args span => s.nextArgument v [] span args
  | .argument callee before rest span => s.nextArgument callee (v :: before) span rest
  | .get name => s.getProperty name v
  | .target name value =>
      match v with
      | .objectRef object => s.await (.field object name) (.eval value)
      | _ => s.fail name.range .onlyInstances
  | .field object name =>
      .next { s with control := .value v, store := s.store.setField object name.text v }
  | .discard => s.proceed .done
  | .print =>
      if set.options.disablePrint then s.proceed .done
      else (s.write (.line (s.store.text v))).proceed .done
  | .assert range => if v.truthy then s.proceed .done else s.fail range .assertionFailed
  | .assertLeft right range => s.await (.assertRight v range) (.eval right)
  | .assertRight left range =>
      if left.same v then s.proceed .done
      else s.fail range (.assertionUnequal (s.store.debugText left) (s.store.debugText v))
  | .branch thenBranch elseBranch =>
      if v.truthy then s.proceed (.exec thenBranch)
      else
        match elseBranch with
        | some stmt => s.proceed (.exec stmt)
        | none => s.proceed .done
  | .test test body => if v.truthy then s.await (.body test body) (.exec body) else s.proceed .done
  | .declare name => (s.define name.text v).proceed .done
  | .giveBack => s.proceed (.returning v)
  | .construct object => s.proceed (.value (.objectRef object))
  | .protect => s.proceed (.value (.bool true))
  | .body _ _ => s.crash .stray
  | .sequence _ => s.crash .stray
  | .scope _ => s.crash .stray
  | .activation _ _ => s.crash .stray
  | .program _ => s.crash .stray

/-- Hands the end of a statement to the frame that was topmost. -/
def complete (s : State) : Frame → Progress
  | .body test body => s.await (.test test body) (.eval test)
  | .sequence rest => s.proceed (.run rest)
  | .scope saved => { s with env := saved }.proceed .done
  | .activation saved closure => s.leave saved closure .nil
  | .program [] => s.proceed .done
  | .program (stmt :: rest) => s.await (.program rest) (.exec stmt)
  | _ => s.crash .stray

/-- Takes a return past the frame that was topmost, up to the call it ends. -/
def unwind (s : State) (v : Value) : Frame → Progress
  | .activation saved closure => s.leave saved closure v
  | .scope saved => { s with env := saved }.proceed (.returning v)
  | .program rest => s.await (.program rest) .done
  | _ => s.proceed (.returning v)

/-- Takes an error past the frame that was topmost, up to a protected call. -/
def raise (s : State) (set : Setting) (e : RuntimeError) : Frame → Progress
  | .activation saved _ => { s with env := saved, depth := s.depth - 1 }.proceed (.failing e)
  | .scope saved => { s with env := saved }.proceed (.failing e)
  | .protect =>
      (s.log set ⟨utf8 "pcall caught runtime error", [(utf8 "error", e.cause.message)]⟩).proceed
        (.value (.bool false))
  | _ => s.proceed (.failing e)

/-- Takes the topmost frame off. -/
def pop (s : State) : Option (Frame × State) :=
  match s.frames with
  | [] => none
  | frame :: rest => some (frame, { s with frames := rest })

end State

/-- One step of the machine. -/
def advance (set : Setting) (s : State) : Progress :=
  match s.control with
  | .eval e => s.eval set e
  | .exec stmt => s.exec set stmt
  | .run body => s.execAll body
  | .call range callee args => s.callValue set range callee args
  | .value v =>
      match s.pop with
      | some (frame, s) => s.receive set v frame
      | none => s.crash .stray
  | .done =>
      match s.pop with
      | some (frame, s) => s.complete frame
      | none => .halt .finished s
  | .returning v =>
      match s.pop with
      | some (frame, s) => s.unwind v frame
      | none => s.crash .stray
  | .failing e =>
      match s.pop with
      | some (frame, s) => s.raise set e frame
      | none => .halt (.failed e) s

/-- Runs the machine for at most `fuel` steps. No ending means that it has not
come to one yet. -/
def run (set : Setting) : (fuel : Nat) → State → Option Ending × State
  | 0, s => (none, s)
  | fuel + 1, s =>
      match advance set s with
      | .next s => run set fuel s
      | .halt ending s => (some ending, s)

/-- Whether the program is about to call the native that looks at the clock. -/
def State.looks (s : State) : Bool :=
  match s.control with
  | .call _ (.native ref) _ =>
      s.store.natives[ref]?.any fun native => native.name = utf8 "clock"
  | _ => false

/-- Runs the machine for at most `fuel` steps, and after the first no further than to
where the program looks at the clock. -/
def runSlice (set : Setting) : (fuel : Nat) → State → Option Ending × State
  | 0, s => (none, s)
  | fuel + 1, s =>
      match advance set s with
      | .next s => if s.looks then (none, s) else runSlice set fuel s
      | .halt ending s => (some ending, s)

end LoxMachine
