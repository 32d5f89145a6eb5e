import LoxMachine.Proofs.Machine.Safety
import LoxMachine.Proofs.Session.Compiling

/-!
# Histories of sessions

What a session is asked to do, one request after another, and what holds after any
history: its store is sound, and all that was compiled is settled.
-/

namespace LoxMachine

open Scope Store

/-- What a session can be asked to do. -/
inductive Request where
  | line (text : Bytes)
  | file (host : Host) (uri : Bytes)
  | eval (src : Source) (kind : ModuleKind)
  | run (src : Source) (kind : ModuleKind)

/-- The text of a request, as far as there is one. -/
def Request.text? : Request → Option (Source × ModuleKind)
  | .line text => some (Source.ofSnippet text, .replLine)
  | .file host uri => (host.read uri).toOption.map fun src => (src, .sourceFile)
  | .eval src kind => some (src, kind)
  | .run src kind => some (src, kind)

/-- A module that was started, with the environment of its top level. -/
structure Run where
  module : Module
  base : Nat

/-- The sites of modules that were started. -/
def Run.sites (runs : List Run) : Sites :=
  fun base site => ∃ r ∈ runs, r.base = base ∧ site ∈ moduleSites r.module

namespace Session

/-- Does what is asked, in at most `fuel` steps. -/
def perform (s : Session) (fuel : Nat) : Request → Except Failure Unit × Session
  | .line text => s.runLine fuel text
  | .file host uri => s.runFile fuel host uri
  | .eval src kind => s.eval fuel src kind
  | .run src kind => s.runSource fuel src kind

/-- The session after some requests, each with the steps it was given. -/
def after (s : Session) : List (Request × Nat) → Session
  | [] => s
  | (request, fuel) :: history => (s.perform fuel request).2.after history

/-- The run that a text starts, if it compiles. -/
def launch (s : Session) (src : Source) (kind : ModuleKind) : List Run :=
  match s.compile src kind with
  | (.ok c, _) => [⟨c.module, (s.start c.module).env⟩]
  | (.error _, _) => []

/-- The runs of some requests, the latest first. -/
def runs (s : Session) : List (Request × Nat) → List Run
  | [] => []
  | (request, fuel) :: history =>
      (s.perform fuel request).2.runs history ++
        match request.text? with
        | some (src, kind) => s.launch src kind
        | none => []

/-! ## Coherent sessions -/

/-- All that was compiled is settled, and the store is sound for what was started. -/
structure Coherent (s : Session) (runs : List Run) : Prop where
  store : ∃ W, Sound W (Run.sites runs) s.store
  unused : ∀ id, s.lastId < id → s.depths.depth? id = none
  used : ∀ r ∈ runs, ∀ id ∈ siteIds (moduleSites r.module), id ≤ s.lastId
  settled : ∀ r ∈ runs, ∀ site ∈ moduleSites r.module, site.Settled s.depths

variable {s t : Session} {runs : List Run}

theorem Coherent.quiet (h : s.Coherent runs) (hquiet : s.Quiet t) : t.Coherent runs where
  store := hquiet.store ▸ h.store
  unused id hid := hquiet.depths ▸ h.unused id (Nat.lt_of_le_of_lt hquiet.lastId hid)
  used r hr id hid := Nat.le_trans (h.used r hr id hid) hquiet.lastId
  settled := hquiet.depths ▸ h.settled

theorem Coherent.sites (h : s.Coherent runs) (base : Nat) (site : Site)
    (hsite : Run.sites runs base site) : site.Settled s.setting.depths := by
  obtain ⟨r, hr, _, hmem⟩ := hsite
  exact h.settled r hr site hmem

theorem sound_initialStore {clock : Clock} :
    Sound (fun _ => .globals) (Run.sites []) (initialStore clock) := by
  have hat : ∀ {o n v}, (initialStore clock).at? o n = some v → v = .native 0 ∨ v = .native 1 := by
    intro o n v hv
    cases o with
    | zero =>
        rcases Bindings.get?_set_cases hv with ⟨_, rfl⟩ | hv
        · exact .inr rfl
        · rcases Bindings.get?_set_cases hv with ⟨_, rfl⟩ | hv
          · exact .inl rfl
          · cases hv
    | succ o => cases hv
  have hparent : ∀ o, (initialStore clock).parent? o = none := by
    intro o
    cases o <;> rfl
  refine ⟨rfl, Nat.one_pos, ?_, ?_, fun _ _ _ _ => trivial, nofun, nofun, nofun, nofun, nofun, ?_⟩
  · intro o p hp
    rw [hparent] at hp
    cases hp
  · intro o n v hv
    rcases hat hv with rfl | rfl
    · exact Nat.two_pos
    · exact Nat.one_lt_two
  · intro i native hnative
    match i with
    | 0 =>
        cases hnative
        exact List.mem_cons_self
    | 1 =>
        cases hnative
        exact List.mem_cons_of_mem _ List.mem_cons_self
    | i + 2 => cases hnative

theorem coherent_new (options : Options) (logging : Bool) (clock : Clock) :
    (new options logging clock).Coherent [] :=
  ⟨⟨_, sound_initialStore⟩, fun id _ => depth?_empty id, nofun, nofun⟩

/-! ## Starting a module -/

/-- The run of a compiled module, started in a session. -/
def runOf (s : Session) (m : Module) : Run :=
  ⟨m, (s.start m).env⟩

theorem quiet_prepare (s : Session) (src : Source) (c : Compiled) :
    ({ s with depths := s.depths.merge c.depths } : Session).Quiet (s.prepare src c) :=
  quiet_log { s with depths := s.depths.merge c.depths } _ _

theorem prepare_store (s : Session) (src : Source) (c : Compiled) :
    (s.prepare src c).store = s.store :=
  (quiet_prepare s src c).store

theorem prepare_depths (s : Session) (src : Source) (c : Compiled) :
    (s.prepare src c).depths = s.depths.merge c.depths :=
  (quiet_prepare s src c).depths

theorem lastId_prepare (s : Session) (src : Source) (c : Compiled) :
    (s.prepare src c).lastId = s.lastId :=
  lastId_log { s with depths := s.depths.merge c.depths } _ _

/-- Where a module starts is a matter of the store alone. -/
theorem runOf_congr (hstore : t.store = s.store) (m : Module) : t.runOf m = s.runOf m := by
  unfold runOf Session.start
  rw [hstore]

/-- The depths of a compiled module go well with those of the session. -/
theorem Coherent.prepare (h : s.Coherent runs) {n : Nat} {c : Compiled} (src : Source)
    (hc : Resolves n c s.lastId) (hn : ∀ id, n < id → s.depths.depth? id = none)
    (hruns : ∀ r ∈ runs, ∀ id ∈ siteIds (moduleSites r.module), id ≤ n) (base : Nat) :
    (s.prepare src c).Coherent (⟨c.module, base⟩ :: runs) := by
  have hmerge := Depths.depth?_merge s.depths c.depths
  refine Coherent.quiet (s := { s with depths := s.depths.merge c.depths }) ?_ (quiet_log _ _ _)
  refine ⟨?_, ?_, ?_, ?_⟩
  · obtain ⟨W, hW⟩ := h.store
    refine ⟨W, hW.weaken fun base site hsite => ?_⟩
    obtain ⟨r, hr, hbase, hmem⟩ := hsite
    exact ⟨r, List.mem_cons_of_mem _ hr, hbase, hmem⟩
  · intro id hid
    rw [hmerge, h.unused id hid, hc.others id fun hmem =>
      absurd (hc.numbered.range id hmem).2 (Nat.not_le_of_lt hid)]
    rfl
  · intro r hr id hid
    rcases List.mem_cons.mp hr with rfl | hr
    · exact (hc.numbered.range id hid).2
    · exact h.used r hr id hid
  · intro r hr site hsite
    have hids : ∀ id ∈ site.ids, id ∈ siteIds (moduleSites r.module) := fun id hid =>
      List.mem_flatMap.mpr ⟨site, hsite, hid⟩
    rcases List.mem_cons.mp hr with rfl | hr
    · -- The new nodes were not in the table before.
      refine (hc.settled site hsite).congr fun id hid => ?_
      rw [hmerge, hn id (hc.numbered.range id (hids id hid)).1, Option.or_none]
    · -- The old nodes are not among the new ones.
      refine (h.settled r hr site hsite).congr fun id hid => ?_
      rw [hmerge, hc.depth?_of_le (hruns r hr id (hids id hid))]
      rfl

/-- An isolated module starts in an environment of its own. -/
theorem start_of_isolated (s : Session) {m : Module} (hkind : m.kind.isolated = true) :
    s.start m = ⟨.done, [.program m.body], s.store.envs.size, 0,
      (s.store.newEnv (some globals) Bindings.empty).2, s.trace⟩ := by
  simp only [Session.start, hkind, if_true]
  rfl

theorem start_of_shared (s : Session) {m : Module} (hkind : ¬ m.kind.isolated = true) :
    s.start m = ⟨.done, [.program m.body], globals, 0, s.store, s.trace⟩ := by
  simp only [Session.start, hkind]
  rfl

/-- The machine starts on a module in a valid state. -/
theorem Coherent.start (h : s.Coherent runs) {m : Module}
    (hm : s.runOf m ∈ runs) : ∃ W, Valid W (Run.sites runs) (s.start m) := by
  obtain ⟨W, hW⟩ := h.store
  have hsites : ∀ site ∈ bodySites (moduleLayers m) m.body,
      Run.sites runs (s.start m).env site := fun site hmem =>
    ⟨s.runOf m, hm, rfl, List.mem_append_right _ hmem⟩
  have hpoised : ∀ {W : World} {st : Store},
      Chain W st (s.start m).env (moduleLayers m) (s.start m).env →
      Poised W (Run.sites runs) st (s.start m).env [.program m.body] .done := by
    intro W st hchain
    refine .done (fun _ hn => absurd hn List.not_mem_nil) (.program
      ⟨_, moduleLayers m, hchain, ?_, hsites⟩)
    unfold moduleLayers
    split
    · exact fun _ hn => hn
    · trivial
  by_cases hkind : m.kind.isolated = true
  · let layer : Layer := ⟨.module, Bindings.empty, declaredAll m.body⟩
    have hlayers : moduleLayers m = [layer] := if_pos hkind
    rw [hlayers, s.start_of_isolated hkind] at hpoised
    rw [s.start_of_isolated hkind]
    have hglobals : Chain W s.store s.store.envs.size [] globals := rfl
    have hchain : Chain (W.extend s.store.envs.size layer.origin)
        (s.store.newEnv (some globals) Bindings.empty).2 s.store.envs.size [layer]
        s.store.envs.size := hglobals.newEnv nofun fun _ => rfl
    have hfurnished : s.store.Furnished layer.origin Bindings.empty :=
      ⟨nofun, nofun, nofun, nofun⟩
    exact ⟨_, hW.newEnv hW.nonempty hfurnished, hpoised hchain⟩
  · have hlayers : moduleLayers m = [] := if_neg hkind
    rw [hlayers, s.start_of_shared hkind] at hpoised
    rw [s.start_of_shared hkind]
    exact ⟨W, hW, hpoised rfl⟩

/-! ## Running texts -/

/-- At every moment of the run of a text that compiles the state is valid, and nothing
that is left to run is unsettled. -/
theorem Coherent.launch (h : s.Coherent runs) {src : Source} {kind : ModuleKind} {c : Compiled}
    (hcompile : s.compile src kind = (.ok c, t)) :
    (t.prepare src c).Coherent (s.launch src kind ++ runs) ∧
      ∃ W, Valid W (Run.sites (s.launch src kind ++ runs)) ((t.prepare src c).start c.module) := by
  obtain ⟨hquiet, hresolves⟩ := s.compile_spec src kind
  have hlaunch : s.launch src kind = [s.runOf c.module] := by
    rw [Session.launch, hcompile]
    rfl
  rw [hcompile] at hquiet hresolves
  rw [hlaunch]
  have hprepared := (h.quiet hquiet).prepare src hresolves (hquiet.depths ▸ h.unused) h.used
    (s.runOf c.module).base
  have hstart : (t.prepare src c).runOf c.module = s.runOf c.module :=
    runOf_congr ((prepare_store t src c).trans hquiet.store) c.module
  exact ⟨hprepared, hprepared.start (hstart ▸ List.mem_cons_self)⟩

theorem Coherent.eval (h : s.Coherent runs) (fuel : Nat) (src : Source) (kind : ModuleKind) :
    (∀ d, (s.eval fuel src kind).1 ≠ .error (.broken d)) ∧
      (∀ reason, (s.eval fuel src kind).1 ≠ .error (.malformed reason)) ∧
      (s.eval fuel src kind).2.Coherent (s.launch src kind ++ runs) := by
  have hspec := s.compile_spec src kind
  unfold Session.eval
  cases hcompile : s.compile src kind with
  | mk outcome t =>
      cases outcome with
      | error failure =>
          rw [hcompile] at hspec
          obtain ⟨hquiet, bag, rfl⟩ := hspec
          have hlaunch : s.launch src kind = [] := by rw [Session.launch, hcompile]
          rw [hlaunch]
          exact ⟨nofun, nofun, h.quiet hquiet⟩
      | ok c =>
          obtain ⟨hprepared, W, hvalid⟩ := h.launch hcompile
          obtain ⟨hending, W', _, _, hsound, _⟩ := run_valid hprepared.sites fuel hvalid
          simp only
          generalize t.prepare src c = p at hprepared hending hsound ⊢
          generalize run p.setting fuel (p.start c.module) = result at hending hsound ⊢
          obtain ⟨ending, final⟩ := result
          have hfinal : ({ p with store := final.store, trace := final.trace } : Session).Coherent
              (s.launch src kind ++ runs) :=
            { hprepared with store := ⟨W', hsound⟩ }
          unfold Session.finish
          split
          next => exact ⟨nofun, nofun, hfinal.quiet (quiet_log _ _ _)⟩
          next => exact ⟨nofun, nofun, hfinal.quiet (quiet_log _ _ _)⟩
          next d heq => exact absurd heq (hending d)
          next => exact ⟨nofun, nofun, hfinal⟩

theorem Coherent.runSource (h : s.Coherent runs) (fuel : Nat) (src : Source)
    (kind : ModuleKind) :
    (∀ d, (s.runSource fuel src kind).1 ≠ .error (.broken d)) ∧
      (∀ reason, (s.runSource fuel src kind).1 ≠ .error (.malformed reason)) ∧
      (s.runSource fuel src kind).2.Coherent (s.launch src kind ++ runs) := by
  obtain ⟨hbroken, hmalformed, hcoherent⟩ := h.eval fuel src kind
  unfold Session.runSource
  cases heval : s.eval fuel src kind with
  | mk outcome t =>
      rw [heval] at hbroken hmalformed hcoherent
      cases outcome with
      | ok _ => exact ⟨nofun, nofun, hcoherent⟩
      | error failure => exact ⟨hbroken, hmalformed, hcoherent.quiet (quiet_write _ _)⟩

/-- A request never uncovers a defect, and leaves the session coherent. -/
theorem Coherent.perform (h : s.Coherent runs) (fuel : Nat) (request : Request) :
    (∀ d, (s.perform fuel request).1 ≠ .error (.broken d)) ∧
      (∀ reason, (s.perform fuel request).1 ≠ .error (.malformed reason)) ∧
      (s.perform fuel request).2.Coherent (s.runs [(request, fuel)] ++ runs) := by
  cases request with
  | line text => exact h.runSource fuel _ _
  | eval src kind => exact h.eval fuel src kind
  | run src kind => exact h.runSource fuel src kind
  | file host uri =>
      simp only [Session.perform, Session.runFile, Session.runs, Request.text?]
      cases host.read uri with
      | ok src => exact h.runSource fuel src .sourceFile
      | error message => exact ⟨nofun, nofun, h.quiet (quiet_write _ _)⟩

/-- A session stays coherent, whatever it is asked to do. -/
theorem Coherent.after (h : s.Coherent runs) (history : List (Request × Nat)) :
    (s.after history).Coherent (s.runs history ++ runs) := by
  induction history generalizing s runs with
  | nil => exact h
  | cons step history ih =>
      obtain ⟨request, fuel⟩ := step
      have hstep := ih (h.perform fuel request).2.2
      simpa only [Session.after, Session.runs, List.nil_append, List.append_assoc] using hstep

/-- No request of any history of any session uncovers a defect of the machine or of the
parser. -/
theorem perform_ne_defect (options : Options) (logging : Bool) (clock : Clock)
    (history : List (Request × Nat)) (request : Request) (fuel : Nat) :
    (∀ d, (((new options logging clock).after history).perform fuel request).1 ≠
      .error (.broken d)) ∧
    ∀ reason, (((new options logging clock).after history).perform fuel request).1 ≠
      .error (.malformed reason) := by
  obtain ⟨hbroken, hmalformed, _⟩ :=
    ((coherent_new options logging clock).after history).perform fuel request
  exact ⟨hbroken, hmalformed⟩

end Session

end LoxMachine
