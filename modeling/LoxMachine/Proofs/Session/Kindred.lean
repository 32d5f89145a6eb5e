import LoxMachine.Proofs.Placing.Programs
import LoxMachine.Proofs.Session.Output

/-!
# Kindred sessions

Sessions may differ in where the code that they hold stands, and in what they have written.
To every request they give the same answer, but for the places that errors mention.
-/

namespace LoxMachine

/-! ## What requests come to -/

/-- The failure without the place of an error. The diagnostics of a text are about this text
alone and stay. -/
def Failure.unplaced : Failure → Failure
  | .runtime e => .runtime (e.place fun _ => Range.nowhere)
  | failure => failure

namespace Session

/-- What a request comes to: how it went, but for the place of an error, and what was
written before that was reported. -/
def gist (s : Session) (fuel : Nat) (request : Request) : Except Failure Unit × List Bytes :=
  let outcome := (s.perform fuel request).1
  (outcome.mapError Failure.unplaced,
    (s.newLines fuel request).take
      ((s.newLines fuel request).length - (request.reports outcome).length))

/-- What some requests come to, one after another. -/
def gists (s : Session) : List (Request × Nat) → List (Except Failure Unit × List Bytes)
  | [] => []
  | (request, fuel) :: later =>
      s.gist fuel request :: (s.perform fuel request).2.gists later

/-- How the ending of a run is told. -/
def verdict : Option Ending → Except Failure Unit
  | some .finished => .ok ()
  | some (.failed e) => .error (.runtime e)
  | some (.broken d) => .error (.broken d)
  | none => .error .unfinished

theorem finish_verdict (s : Session) (src : Source) (ending : Option Ending) (final : State) :
    (s.finish src ending final).1 = verdict ending := by
  unfold finish verdict
  dsimp only
  split <;> rfl

theorem unplaced_verdict (ending : Option Ending) :
    (verdict ending).mapError Failure.unplaced = verdict (ending.map Ending.bare) := by
  cases ending with
  | none => rfl
  | some ending => cases ending <;> rfl

/-- Without the report, the lines are dumps and what print statements write. -/
theorem gist_eq (s : Session) (fuel : Nat) (request : Request) :
    s.gist fuel request = ((s.perform fuel request).1.mapError Failure.unplaced,
      request.dumps s.options s.lastId ++ s.options.written (request.shows s fuel)) := by
  rw [gist, newLines_eq, List.length_append, Nat.add_sub_cancel, List.take_left]

/-! ## Kindred sessions -/

/-- Two sessions that differ at most in the places of their code, in what they have written
and in how their depths are kept. -/
structure Kindred (s t : Session) : Prop where
  options : t.options = s.options
  logging : t.logging = s.logging
  lastId : t.lastId = s.lastId
  depths : ∀ id, t.depths.depth? id = s.depths.depth? id
  store : t.store.bare = s.store.bare

variable {s t s' t' : Session}

theorem Kindred.quiet (h : s.Kindred t) (hs : s.Quiet s') (ht : t.Quiet t')
    (hlast : t'.lastId = s'.lastId) : s'.Kindred t' where
  options := by rw [ht.options, hs.options, h.options]
  logging := by rw [ht.logging, hs.logging, h.logging]
  lastId := hlast
  depths id := by rw [ht.depths, hs.depths, h.depths]
  store := by rw [ht.store, hs.store, h.store]

theorem Kindred.write (h : s.Kindred t) (line line' : Bytes) :
    (s.write line).Kindred (t.write line') :=
  h.quiet (quiet_write s line) (quiet_write t line') h.lastId

/-! ## Compiling -/

/-- What a text compiles to depends on the numbers that are used up, and on nothing else. -/
theorem compile_congr (hlast : t.lastId = s.lastId) (src : Source) (kind : ModuleKind) :
    (t.compile src kind).1 = (s.compile src kind).1 ∧
      (t.compile src kind).2.lastId = (s.compile src kind).2.lastId := by
  have hs := lastId_writeIf s s.options.printTokens fun _ => Token.dump (Token.scan src).1
  have ht := lastId_writeIf t t.options.printTokens fun _ => Token.dump (Token.scan src).1
  unfold compile
  dsimp only
  generalize s.writeIf _ _ = s₁ at hs ⊢
  generalize t.writeIf _ _ = t₁ at ht ⊢
  have hfirst : t₁.lastId = s₁.lastId := ht.trans (hlast.trans hs.symm)
  rw [hfirst]
  split
  · exact ⟨rfl, hfirst⟩
  · cases Module.parse (Token.scan src).1 kind s₁.lastId (Token.scan src).2 with
    | error reason => exact ⟨rfl, hfirst⟩
    | ok parsed =>
        dsimp only
        split
        · exact ⟨rfl, by rw [lastId_writeIf, lastId_writeIf]⟩
        · split
          · exact ⟨rfl, by simp only [lastId_writeIf]⟩
          · exact ⟨rfl, by simp only [lastId_log, lastId_writeIf]⟩

theorem Kindred.compile (h : s.Kindred t) (src : Source) (kind : ModuleKind) :
    (t.compile src kind).1 = (s.compile src kind).1 ∧
      (s.compile src kind).2.Kindred (t.compile src kind).2 := by
  obtain ⟨houtcome, hlast⟩ := compile_congr h.lastId src kind
  exact ⟨houtcome, h.quiet (s.compile_spec src kind).1 (t.compile_spec src kind).1 hlast⟩

/-! ## Running -/

theorem Kindred.prepare (h : s.Kindred t) (src : Source) (c : Compiled) :
    (s.prepare src c).Kindred (t.prepare src c) := by
  have hdepths : ∀ id, (t.depths.merge c.depths).depth? id =
      (s.depths.merge c.depths).depth? id := by
    intro id
    rw [Depths.depth?_merge, Depths.depth?_merge, h.depths]
  have hmerged : Kindred { s with depths := s.depths.merge c.depths }
      { t with depths := t.depths.merge c.depths } := { h with depths := hdepths }
  refine hmerged.quiet (quiet_prepare s src c) (quiet_prepare t src c) ?_
  rw [lastId_prepare, lastId_prepare, h.lastId]

theorem Kindred.serves (h : s.Kindred t) (ids : List Nat) : s.setting.Serves t.setting ids :=
  ⟨fun id _ => h.depths id, h.options, h.logging⟩

/-- The machines start in the same state, but for places. -/
theorem Kindred.start (h : s.Kindred t) (m : Module) : (t.start m).bare = (s.start m).bare := by
  have hplaced := congrArg Store.envs h.store
  have henvs : t.store.envs = s.store.envs := hplaced
  have hbeginning : ∀ env {st st' : Store},
      st'.bare = st.bare →
      (State.beginning m.body env 0 st' t.trace).bare =
        (State.beginning m.body env 0 st s.trace).bare := by
    intro env st st' hstore
    rw [State.bare_beginning, State.bare_beginning, hstore]
  by_cases hkind : m.kind.isolated = true
  · rw [s.start_of_isolated hkind, t.start_of_isolated hkind, henvs]
    exact hbeginning _
      (congrArg (fun st => (st.newEnv (some globals) Bindings.empty).2) h.store)
  · rw [s.start_of_shared hkind, t.start_of_shared hkind]
    exact hbeginning _ h.store

/-- Sessions whose runs have ended alike are told so alike. -/
theorem Kindred.finish {final final' : State}
    (h : Kindred { s with store := final.store, trace := final.trace }
      { t with store := final'.store, trace := final'.trace })
    {ending ending' : Option Ending}
    (hending : ending'.map Ending.bare = ending.map Ending.bare) (src src' : Source) :
    (t.finish src' ending' final').1.mapError Failure.unplaced =
        (s.finish src ending final).1.mapError Failure.unplaced ∧
      (s.finish src ending final).2.Kindred (t.finish src' ending' final').2 := by
  rw [finish_verdict, finish_verdict, unplaced_verdict, unplaced_verdict, hending]
  refine ⟨rfl, h.quiet (quiet_finish s src ending final) (quiet_finish t src' ending' final') ?_⟩
  rw [lastId_finish, lastId_finish]
  exact h.lastId

theorem store_of_bare {u v : State} (h : v.bare = u.bare) :
    v.store.bare = u.store.bare :=
  congrArg State.store h

/-! ## Requests -/

theorem Kindred.eval (h : s.Kindred t) (fuel : Nat) (src : Source) (kind : ModuleKind) :
    (t.eval fuel src kind).1.mapError Failure.unplaced =
        (s.eval fuel src kind).1.mapError Failure.unplaced ∧
      t.shows fuel src kind = s.shows fuel src kind ∧
      (s.eval fuel src kind).2.Kindred (t.eval fuel src kind).2 := by
  obtain ⟨houtcome, hcompiled⟩ := h.compile src kind
  unfold Session.eval Session.shows
  cases hs : s.compile src kind with
  | mk outcome s₁ =>
      cases ht : t.compile src kind with
      | mk outcome' t₁ =>
          rw [hs, ht] at houtcome hcompiled
          obtain rfl : outcome' = outcome := houtcome
          cases outcome' with
          | error failure => exact ⟨rfl, rfl, hcompiled⟩
          | ok c =>
              have hprepared := hcompiled.prepare src c
              obtain ⟨hending, hprinted, hstate⟩ :=
                run_bare hprepared.serves (hprepared.start c.module) fuel
              obtain ⟨hverdict, hfinished⟩ := Kindred.finish
                { hprepared with store := store_of_bare hstate } hending src src
              exact ⟨hverdict, hprinted, hfinished⟩

/-- Whether the report of a failure is written makes no difference. -/
theorem Kindred.runSource_of_eval {fuel fuel' : Nat} {src src' : Source}
    {kind kind' : ModuleKind}
    (houtcome : (t.eval fuel' src' kind').1.mapError Failure.unplaced =
      (s.eval fuel src kind).1.mapError Failure.unplaced)
    (h : (s.eval fuel src kind).2.Kindred (t.eval fuel' src' kind').2) :
    (t.runSource fuel' src' kind').1.mapError Failure.unplaced =
        (s.runSource fuel src kind).1.mapError Failure.unplaced ∧
      (s.runSource fuel src kind).2.Kindred (t.runSource fuel' src' kind').2 := by
  unfold Session.runSource
  generalize s.eval fuel src kind = result at houtcome h ⊢
  generalize t.eval fuel' src' kind' = result' at houtcome h ⊢
  obtain ⟨outcome, s₁⟩ := result
  obtain ⟨outcome', t₁⟩ := result'
  cases outcome with
  | ok _ =>
      cases outcome' with
      | ok _ => exact ⟨rfl, h⟩
      | error _ => cases houtcome
  | error failure =>
      cases outcome' with
      | ok _ => cases houtcome
      | error failure' => exact ⟨houtcome, h.write failure.report failure'.report⟩

/-- Kindred sessions do the same when they are asked the same. -/
theorem Kindred.perform (h : s.Kindred t) (fuel : Nat) (request : Request) :
    t.gist fuel request = s.gist fuel request ∧
      (s.perform fuel request).2.Kindred (t.perform fuel request).2 := by
  have hrequest : (t.perform fuel request).1.mapError Failure.unplaced =
        (s.perform fuel request).1.mapError Failure.unplaced ∧
      request.shows t fuel = request.shows s fuel ∧
      (s.perform fuel request).2.Kindred (t.perform fuel request).2 := by
    have hsource : ∀ src kind, (t.runSource fuel src kind).1.mapError Failure.unplaced =
          (s.runSource fuel src kind).1.mapError Failure.unplaced ∧
        t.shows fuel src kind = s.shows fuel src kind ∧
        (s.runSource fuel src kind).2.Kindred (t.runSource fuel src kind).2 := by
      intro src kind
      obtain ⟨houtcome, hshows, hevaluated⟩ := h.eval fuel src kind
      obtain ⟨houtcome, hreported⟩ := Kindred.runSource_of_eval houtcome hevaluated
      exact ⟨houtcome, hshows, hreported⟩
    cases request with
    | line text => exact hsource _ _
    | eval src kind => exact h.eval fuel src kind
    | run src kind => exact hsource src kind
    | file host uri =>
        simp only [Session.perform, Session.runFile, Request.shows, Request.text?]
        cases host.read uri with
        | ok src => exact hsource src .sourceFile
        | error message => exact ⟨rfl, rfl, h.write message message⟩
  obtain ⟨houtcome, hshows, hnext⟩ := hrequest
  rw [gist_eq, gist_eq, houtcome, hshows, h.options, h.lastId]
  exact ⟨rfl, hnext⟩

/-- Whatever is asked of them, kindred sessions do the same. -/
theorem Kindred.gists (h : s.Kindred t) (later : List (Request × Nat)) :
    t.gists later = s.gists later := by
  induction later generalizing s t with
  | nil => rfl
  | cons step later ih =>
      obtain ⟨request, fuel⟩ := step
      obtain ⟨hgist, hnext⟩ := h.perform fuel request
      rw [Session.gists, Session.gists, hgist, ih hnext]

end Session

end LoxMachine
