import LoxMachine.Proofs.Store.Soundness

/-!
# Stacks of frames

What a machine is about to do and what its frames will do later has to fit the
environments it will happen in.  A statement that declares names owes them to the
frame that waits for its end.
-/

namespace LoxMachine

open Scope Store

/-- What a stack waits for: a value, or the end of a statement that binds some names. -/
inductive Awaited where
  | value
  | done (owed : List Bytes)

/-- Code with these sites may run in `env` and bind the names there. -/
def Fits (W : World) (R : Sites) (st : Store) (env : Nat) (ns : List Bytes)
    (sites : List Layer → List Site) : Prop :=
  ∃ base Γ, Chain W st base Γ env ∧ Room Γ ns ∧ ∀ site ∈ sites Γ, R base site

def Evaluates (W : World) (R : Sites) (st : Store) (env : Nat) (e : Expr) : Prop :=
  Fits W R st env [] fun Γ => exprSites Γ e

def Executes (W : World) (R : Sites) (st : Store) (env : Nat) (s : Stmt) : Prop :=
  Fits W R st env (declared s) fun Γ => stmtSites Γ s

/-- The statements may run once the names are bound. -/
def Resumes (W : World) (R : Sites) (st : Store) (env : Nat) (owed : List Bytes)
    (rest : List Stmt) : Prop :=
  Fits W R st env (declaredAll rest) fun Γ => bodySites (bindAll owed Γ) rest

/-- A frame that waits for `a` in `env`, above a stack that waits for `b` in `env'`. -/
inductive Link (W : World) (R : Sites) (st : Store) :
    Awaited → Nat → Frame → Awaited → Nat → Prop where
  | assign {env id name} (h : Fits W R st env [] fun Γ => [.write Γ id name.text]) :
      Link W R st .value env (.assign id name) .value env
  | unary {env op span} : Link W R st .value env (.unary op span) .value env
  | left {env op right span} (h : Evaluates W R st env right) :
      Link W R st .value env (.left op right span) .value env
  | right {env op left span} : Link W R st .value env (.right op left span) .value env
  | logical {env op right} (h : Evaluates W R st env right) :
      Link W R st .value env (.logical op right) .value env
  | callee {env args span} (h : Fits W R st env [] fun Γ => argSites Γ args) :
      Link W R st .value env (.callee args span) .value env
  | argument {env callee before rest span} (hcallee : st.Knows callee)
      (hbefore : ∀ v ∈ before, st.Knows v) (h : Fits W R st env [] fun Γ => argSites Γ rest) :
      Link W R st .value env (.argument callee before rest span) .value env
  | get {env name} : Link W R st .value env (.get name) .value env
  | target {env name value} (h : Evaluates W R st env value) :
      Link W R st .value env (.target name value) .value env
  | field {env object name} : Link W R st .value env (.field object name) .value env
  | discard {env} : Link W R st .value env .discard (.done []) env
  | print {env} : Link W R st .value env .print (.done []) env
  | assert {env range} : Link W R st .value env (.assert range) (.done []) env
  | assertLeft {env right range} (h : Evaluates W R st env right) :
      Link W R st .value env (.assertLeft right range) (.done []) env
  | assertRight {env left range} : Link W R st .value env (.assertRight left range) (.done []) env
  | branch {env thenBranch elseBranch}
      (h : ∀ s ∈ thenBranch :: elseBranch.toList, Executes W R st env s ∧ declared s = []) :
      Link W R st .value env (.branch thenBranch elseBranch) (.done []) env
  | test {env test body} (htest : Evaluates W R st env test) (hbody : Executes W R st env body)
      (hnone : declared body = []) : Link W R st .value env (.test test body) (.done []) env
  | declare {env name} (h : Fits W R st env [name.text] fun _ => [.declare name.text]) :
      Link W R st .value env (.declare name) (.done [name.text]) env
  | giveBack {env} : Link W R st .value env .giveBack (.done []) env
  | construct {env object} (h : object < st.instances.size) :
      Link W R st .value env (.construct object) .value env
  | protect {env} : Link W R st .value env .protect .value env
  | body {env test body} (htest : Evaluates W R st env test) (hbody : Executes W R st env body)
      (hnone : declared body = []) : Link W R st (.done []) env (.body test body) (.done []) env
  | sequence {env owed rest} (h : Resumes W R st env owed rest) :
      Link W R st (.done owed) env (.sequence rest) (.done []) env
  | scope {env saved} : Link W R st (.done []) env (.scope saved) (.done []) saved
  | activation {env saved closure}
      (h : closure.decl.kind = .initializer → Receives W st closure.env) :
      Link W R st (.done []) env (.activation saved closure) .value saved

/-- A stack of frames, down to the rest of the program. -/
inductive Stack (W : World) (R : Sites) (st : Store) : Awaited → Nat → List Frame → Prop where
  | program {env owed rest} (h : Resumes W R st env owed rest) :
      Stack W R st (.done owed) env [.program rest]
  | push {a env frame b env' frames} (hlink : Link W R st a env frame b env')
      (hrest : Stack W R st b env' frames) : Stack W R st a env (frame :: frames)

/-! ## Later stores -/

variable {W W' : World} {R : Sites} {st st' : Store} {env env' : Nat} {ns : List Bytes}
  {sites : List Layer → List Site} {frame : Frame} {frames : List Frame} {a b : Awaited}

theorem Fits.mono (h : Fits W R st env ns sites) (hext : st.Extends st')
    (hW : W.Agrees W' st.envs.size) : Fits W' R st' env ns sites := by
  obtain ⟨base, Γ, hchain, hroom, hsites⟩ := h
  exact ⟨base, Γ, hchain.mono hext hW, hroom, hsites⟩

theorem Link.mono (h : Link W R st a env frame b env') (hext : st.Extends st')
    (hW : W.Agrees W' st.envs.size) : Link W' R st' a env frame b env' := by
  cases h with
  | assign h => exact .assign (h.mono hext hW)
  | unary => exact .unary
  | left h => exact .left (h.mono hext hW)
  | right => exact .right
  | logical h => exact .logical (h.mono hext hW)
  | callee h => exact .callee (h.mono hext hW)
  | argument hcallee hbefore h =>
      exact .argument (hcallee.mono hext) (fun v hv => (hbefore v hv).mono hext) (h.mono hext hW)
  | get => exact .get
  | target h => exact .target (h.mono hext hW)
  | field => exact .field
  | discard => exact .discard
  | print => exact .print
  | assert => exact .assert
  | assertLeft h => exact .assertLeft (h.mono hext hW)
  | assertRight => exact .assertRight
  | branch h => exact .branch fun s hs => ⟨(h s hs).1.mono hext hW, (h s hs).2⟩
  | test htest hbody hnone => exact .test (htest.mono hext hW) (hbody.mono hext hW) hnone
  | declare h => exact .declare (h.mono hext hW)
  | giveBack => exact .giveBack
  | construct h => exact .construct (Nat.lt_of_lt_of_le h hext.instances)
  | protect => exact .protect
  | body htest hbody hnone => exact .body (htest.mono hext hW) (hbody.mono hext hW) hnone
  | sequence h => exact .sequence (h.mono hext hW)
  | scope => exact .scope
  | activation h => exact .activation fun hkind => (h hkind).mono hext hW

theorem Stack.mono (h : Stack W R st a env frames) (hext : st.Extends st')
    (hW : W.Agrees W' st.envs.size) : Stack W' R st' a env frames := by
  induction h with
  | program h => exact .program (h.mono hext hW)
  | push hlink _ ih => exact .push (hlink.mono hext hW) ih

/-! ## Parts of code -/

/-- Code that is part of other code fits where that does. -/
theorem Fits.sub {ms : List Bytes} {parts : List Layer → List Site}
    (h : Fits W R st env ns sites) (hns : ∀ n ∈ ms, n ∈ ns)
    (hparts : ∀ Γ, ∀ site ∈ parts Γ, site ∈ sites Γ) : Fits W R st env ms parts := by
  obtain ⟨base, Γ, hchain, hroom, hsites⟩ := h
  exact ⟨base, Γ, hchain, hroom.mono hns, fun site hmem => hsites site (hparts Γ site hmem)⟩

/-- Expressions bind no names. -/
theorem Fits.expr {parts : List Layer → List Site} (h : Fits W R st env ns sites)
    (hparts : ∀ Γ, ∀ site ∈ parts Γ, site ∈ sites Γ) : Fits W R st env [] parts :=
  h.sub nofun hparts

end LoxMachine
