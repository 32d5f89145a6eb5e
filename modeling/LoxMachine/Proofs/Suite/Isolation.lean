import LoxMachine.Proofs.Relocation.Sessions
import LoxMachine.Suite
import LoxMachine.Disk
import Mathlib.Data.List.Induction

/-!
# Tests side by side

All tests of a suite run in one session.  A test goes as it would alone in a new session,
and writes the same, unless a test before it has assigned to a native: the natives are
variables of the one global environment that all tests stand in.
-/

namespace LoxMachine

open Scope Store

namespace Session

variable {options : Options} {logging : Bool} {clock : Clock} {s t : Session}

/-! ## Sessions of modules of their own -/

/-- A session that was new once and may have been used since.  Its clock has gone on. -/
structure Seasoned (options : Options) (logging : Bool) (clock : Clock) (s : Session) : Prop where
  options : s.options = options
  logging : s.logging = logging
  coherent : ∃ runs, s.Coherent runs
  unnumbered : s.depths.depth? 0 = none
  ages : (initialStore clock).Ages s.store

theorem seasoned_new (options : Options) (logging : Bool) (clock : Clock) :
    (new options logging clock).Seasoned options logging clock :=
  ⟨rfl, rfl, ⟨[], coherent_new options logging clock⟩, depth?_empty 0, .refl _⟩

theorem Seasoned.quiet (h : s.Seasoned options logging clock) (hquiet : s.Quiet t) :
    t.Seasoned options logging clock where
  options := hquiet.options.trans h.options
  logging := hquiet.logging.trans h.logging
  coherent := h.coherent.imp fun _ hc => hc.quiet hquiet
  unnumbered := by
    rw [hquiet.depths]
    exact h.unnumbered
  ages := by
    rw [hquiet.store]
    exact h.ages

theorem ages_start (s : Session) (m : Module) : s.store.Ages (s.start m).store := by
  by_cases hkind : m.kind.isolated = true
  · rw [s.start_of_isolated hkind]
    exact ⟨rfl, 0, rfl⟩
  · rw [s.start_of_shared hkind]
    exact .refl s.store

theorem Seasoned.eval (h : s.Seasoned options logging clock) (fuel : Nat) (src : Source)
    (kind : ModuleKind) : (s.eval fuel src kind).2.Seasoned options logging clock := by
  obtain ⟨runs, hc⟩ := h.coherent
  have hcoherent := (hc.eval fuel src kind).2.2
  obtain ⟨hquiet, hresolves⟩ := s.compile_spec src kind
  unfold Session.eval at hcoherent ⊢
  cases hcompile : s.compile src kind with
  | mk outcome t =>
      rw [hcompile] at hcoherent hquiet hresolves
      have ht : t.Seasoned options logging clock := h.quiet hquiet
      cases outcome with
      | error failure => exact ht
      | ok c =>
          dsimp only at hcoherent hresolves ⊢
          have hlog := quiet_prepare t src c
          have hages := ages_run (t.prepare src c).setting fuel ((t.prepare src c).start c.module)
          generalize run (t.prepare src c).setting fuel ((t.prepare src c).start c.module) =
            result at hcoherent hages ⊢
          have hfinish := quiet_finish (t.prepare src c) src result.1 result.2
          refine ⟨(hfinish.options.trans hlog.options).trans ht.options,
            (hfinish.logging.trans hlog.logging).trans ht.logging, ⟨_, hcoherent⟩, ?_, ?_⟩
          · rw [hfinish.depths]
            dsimp only
            rw [prepare_depths, Depths.depth?_merge, hresolves.depth?_of_le (Nat.zero_le _),
              ht.unnumbered]
            rfl
          · rw [hfinish.store]
            refine Store.Ages.trans ?_ ((ages_start _ _).trans hages)
            rw [prepare_store]
            exact ht.ages

/-! ## New sessions inside seasoned ones -/

/-- Where the objects of a new session are in one that has been used. -/
def inside (s : Session) : Relocation :=
  ⟨⟨1, s.lastId⟩, ⟨1, s.store.envs.size - 1⟩, ⟨0, s.store.functions.size⟩,
    ⟨0, s.store.classes.size⟩, ⟨0, s.store.instances.size⟩⟩

theorem spread_empty {α : Type} (R : α → α → Prop) (xs : Array α) :
    Spread ⟨0, xs.size⟩ R #[] xs where
  start := Nat.le_refl _
  size := (Nat.zero_add _).symm
  elems i := by
    rw [Gap.move_of_le (Nat.zero_le i), Array.getElem?_eq_none (Nat.le_add_left _ _)]
    exact .none

theorem at?_initialStore_native {n : Bytes} {v : Value}
    (h : (initialStore clock).at? globals n = some v) :
    ∃ native ∈ Native.all, n = native.name ∧ ∃ ref, v = .native ref := by
  rcases Bindings.get?_set_cases h with ⟨rfl, rfl⟩ | h
  · exact ⟨⟨utf8 "pcall", 1⟩, List.mem_cons_of_mem _ List.mem_cons_self, rfl, _, rfl⟩
  · rcases Bindings.get?_set_cases h with ⟨rfl, rfl⟩ | h
    · exact ⟨⟨utf8 "clock", 0⟩, List.mem_cons_self, rfl, _, rfl⟩
    · cases h

/-- The natives are the only variables of a new session. -/
theorem placed_initialStore {runs : List Run} (hc : s.Coherent runs)
    (hages : (initialStore clock).Ages s.store)
    (hglobals : ∀ n, s.store.at? globals n = (initialStore clock).at? globals n) :
    Placed s.inside (initialStore s.store.clock) s.store := by
  obtain ⟨W, hW⟩ := hc.store
  have hroot : s.store.parent? globals = none := by
    cases hparent : s.store.parent? globals with
    | none => rfl
    | some p => exact absurd (hW.older _ p hparent) (Nat.not_lt_zero p)
  have hbeyond : ∀ o, s.store.envs[(s.inside).envs.move (o + 1)]? = none := by
    intro o
    apply Array.getElem?_eq_none
    change s.store.envs.size ≤ (⟨1, s.store.envs.size - 1⟩ : Gap).move (o + 1)
    rw [Gap.move_of_le (Nat.succ_le_succ (Nat.zero_le o))]
    dsimp only
    omega
  have hzero : (s.inside).envs.move 0 = 0 := Gap.move_of_lt Nat.one_pos
  refine ⟨Nat.le_refl _, ?_, fun o => ?_, fun o n => ?_, spread_empty _ _, spread_empty _ _,
    spread_empty _ _, hages.natives, rfl⟩
  · exact (Nat.add_sub_cancel' hW.nonempty).symm
  · cases o with
    | zero =>
        rw [hzero]
        exact hroot
    | succ o =>
        rw [parent?, hbeyond]
        rfl
  · cases o with
    | zero =>
        rw [hzero]
        refine (hglobals n).trans ?_
        cases hat : (initialStore clock).at? globals n with
        | none => exact (congrArg (Option.map _) hat).symm
        | some v =>
            obtain ⟨_, _, _, ref, rfl⟩ := at?_initialStore_native hat
            rw [show (initialStore s.store.clock).at? 0 n = _ from hat]
            rfl
    | succ o =>
        rw [at?, hbeyond]
        rfl

/-- A seasoned session whose globals are as they were is a displaced new one, with the clock
as it is by now. -/
theorem Seasoned.displaced (h : s.Seasoned options logging clock)
    (hglobals : ∀ n, s.store.at? globals n = (initialStore clock).at? globals n) :
    (s.inside).Displaced #[] s.trace (new options logging s.store.clock) s := by
  obtain ⟨runs, hc⟩ := h.coherent
  refine ⟨h.options, h.logging, Nat.le_refl _, (Nat.zero_add _).symm, fun id => ?_,
    Gap.move_of_lt Nat.one_pos, placed_initialStore hc h.ages hglobals, echoes_refl _ _⟩
  have hempty : (new options logging s.store.clock).depths.depth? id = none := depth?_empty id
  rw [hempty]
  cases id with
  | zero => exact h.unnumbered
  | succ id =>
      apply hc.unused
      change s.lastId < (⟨1, s.lastId⟩ : Gap).move (id + 1)
      rw [Gap.move_of_le (Nat.succ_le_succ (Nat.zero_le id))]
      exact Nat.lt_add_left_iff_pos.mpr (Nat.succ_pos id)

/-- In a seasoned session whose globals are as they were, a text is evaluated as in a new
one that begins at the same time. -/
theorem Seasoned.eval_eq (h : s.Seasoned options logging clock)
    (hglobals : ∀ n, s.store.at? globals n = (initialStore clock).at? globals n) (fuel : Nat)
    (src : Source) (kind : ModuleKind) :
    (s.eval fuel src kind).1 = ((new options logging s.store.clock).eval fuel src kind).1 ∧
      (s.eval fuel src kind).2.trace =
        s.trace ++ ((new options logging s.store.clock).eval fuel src kind).2.trace := by
  obtain ⟨houtcome, hafter⟩ := (h.displaced hglobals).eval
    (coherent_new options logging s.store.clock) descended_initialStore fuel src kind
  obtain ⟨written, hnew, hused⟩ := hafter.trace
  rw [Array.empty_append] at hnew
  rw [hnew]
  exact ⟨houtcome, hused⟩

end Session

namespace Suite

variable {options : Options} {logging : Bool} {clock : Clock} {fuel : Nat}
  {duration : Bytes → Bytes} {s : Session}

/-! ## Tests one after another -/

theorem runAll_append (fuel : Nat) (duration : Bytes → Bytes) (before later : List Source)
    (state : Tally × Session) :
    runAll fuel duration (before ++ later) state =
      runAll fuel duration later (runAll fuel duration before state) := by
  induction before generalizing state with
  | nil => rfl
  | cons src before ih =>
      obtain ⟨t, s⟩ := state
      rw [List.cons_append, runAll, runAll]
      split
      · exact ih _
      · exact ih _

theorem quiet_conclude (s : Session) (t : Tally) (uri duration : Bytes)
    (outcome : Except Failure Unit) : s.Quiet (conclude s t uri duration outcome).2 := by
  unfold conclude
  split
  · exact Session.quiet_write s _
  · dsimp only
    split
    · exact (Session.quiet_write s _).trans (Session.quiet_write _ _)
    · exact Session.quiet_write s _

/-- The session after some tests. -/
def afterTests (s : Session) (fuel : Nat) (duration : Bytes → Bytes) (tests : List Source) :
    Session :=
  (runAll fuel duration tests (Tally.zero, s)).2

theorem quiet_afterTests_skipped {src : Source} (hskipped : isSkipped src.text = true)
    (s : Session) (fuel : Nat) (duration : Bytes → Bytes) (tests : List Source) :
    (afterTests s fuel duration tests).Quiet (afterTests s fuel duration (tests ++ [src])) := by
  unfold afterTests
  rw [runAll_append, runAll, if_pos hskipped]
  exact Session.quiet_write _ _

theorem quiet_afterTests_run {src : Source} (hrun : isSkipped src.text = false)
    (s : Session) (fuel : Nat) (duration : Bytes → Bytes) (tests : List Source) :
    ((afterTests s fuel duration tests).eval fuel src .sourceFile).2.Quiet
      (afterTests s fuel duration (tests ++ [src])) := by
  unfold afterTests
  rw [runAll_append, runAll, hrun]
  exact quiet_conclude _ _ _ _ _

theorem seasoned_afterTests (fuel : Nat) (duration : Bytes → Bytes) (tests : List Source)
    (h : s.Seasoned options logging clock) :
    (afterTests s fuel duration tests).Seasoned options logging clock := by
  induction tests using List.reverseRecOn with
  | nil => exact h
  | append_singleton tests src ih =>
      cases hskip : isSkipped src.text with
      | true => exact ih.quiet (quiet_afterTests_skipped hskip s fuel duration tests)
      | false =>
          exact (ih.eval fuel src .sourceFile).quiet
            (quiet_afterTests_run hskip s fuel duration tests)

/-! ## Tests and natives -/

/-- One of some tests assigns to a native at some moment. -/
def Tampers (s : Session) (fuel : Nat) (duration : Bytes → Bytes) (tests : List Source) : Prop :=
  ∃ earlier src rest, tests = earlier ++ src :: rest ∧ isSkipped src.text = false ∧
    ∃ k < fuel, ∃ set state,
      (afterTests s fuel duration earlier).moment k src .sourceFile = some (set, state) ∧
      ∃ native ∈ Native.all, ∃ v, state.AssignsGlobal set native.name v

theorem Tampers.append {before : List Source} (h : Tampers s fuel duration before)
    (later : List Source) : Tampers s fuel duration (before ++ later) := by
  obtain ⟨earlier, src, rest, rfl, hassigns⟩ := h
  refine ⟨earlier, src, rest ++ later, ?_, hassigns⟩
  rw [List.append_assoc, List.cons_append]

/-- Tests that assign to no native leave the globals as they were. -/
theorem at?_afterTests (h : s.Seasoned options logging clock)
    (hglobals : ∀ n, s.store.at? Session.globals n =
      (Session.initialStore clock).at? Session.globals n)
    {tests : List Source} (hspared : ¬ Tampers s fuel duration tests) (n : Bytes) :
    (afterTests s fuel duration tests).store.at? Session.globals n =
      (Session.initialStore clock).at? Session.globals n := by
  induction tests using List.reverseRecOn with
  | nil => exact hglobals n
  | append_singleton tests src ih =>
      have hbefore := ih fun htampers => hspared (htampers.append [src])
      cases hskip : isSkipped src.text with
      | true =>
          rw [(quiet_afterTests_skipped hskip s fuel duration tests).store]
          exact hbefore
      | false =>
          rw [(quiet_afterTests_run hskip s fuel duration tests).store]
          obtain ⟨runs, hc⟩ := (seasoned_afterTests fuel duration tests h).coherent
          obtain ⟨hbound, hassigned⟩ :=
            @Session.Coherent.globals_eval _ _ hc fuel src .sourceFile rfl n
          refine Eq.trans (Classical.byContradiction fun hchanged => ?_) hbefore
          obtain ⟨k, hk, set, state, v, hmoment, hassigns, hv⟩ := hassigned hchanged
          -- A global that has changed was bound before, so it is a native.
          rw [hv, hbefore] at hbound
          obtain ⟨old, hold⟩ := Option.isSome_iff_exists.mp hbound.symm
          obtain ⟨native, hnative, rfl, _⟩ := Session.at?_initialStore_native hold
          exact hspared ⟨tests, src, [], rfl, hskip, k, hk, set, state, hmoment, native, hnative,
            v, hassigns⟩

/-! ## A test in its suite -/

/-- Unless a test before it assigns to a native, a test of a suite has the outcome that it has
alone in a new session, and writes the same.  The new session begins when the test does: its
clock is that of the suite, after the looks of the tests before. -/
theorem run_test_alone (options : Options) (logging : Bool) (clock : Clock) (fuel : Nat)
    (host : Host) (filter : Option Pattern) (duration : Bytes → Bytes)
    {sources before later : List Source} {src : Source}
    (hsources : host.testSources = .ok sources)
    (hselected : selected filter sources = before ++ src :: later)
    (hrun : isSkipped src.text = false)
    (hspared : ¬ Tampers (.new options logging clock) fuel duration before) :
    ∃ t s u looks,
      let alone := (Session.new options logging (clock.after looks)).eval fuel src .sourceFile
      runAll fuel duration before (Tally.zero, .new options logging clock) = (t, s) ∧
      s.store.clock = clock.after looks ∧
      s.eval fuel src .sourceFile = (alone.1, u) ∧
      u.trace = s.trace ++ alone.2.trace ∧
      run (.new options logging clock) fuel host filter duration =
        let (final, v) := runAll fuel duration later
          (conclude u t src.uri (duration src.uri) alone.1)
        summarize final v := by
  have hnew := Session.seasoned_new options logging clock
  have hseasoned := seasoned_afterTests fuel duration before hnew
  obtain ⟨houtcome, htrace⟩ := hseasoned.eval_eq
    (at?_afterTests hnew (fun _ => rfl) hspared) fuel src .sourceFile
  obtain ⟨looks, hclock⟩ := hseasoned.ages.clock
  change _ = clock.after looks at hclock
  rw [hclock] at houtcome htrace
  let s := afterTests (.new options logging clock) fuel duration before
  refine ⟨_, s, (s.eval fuel src .sourceFile).2, looks, rfl, hclock, Prod.ext houtcome rfl,
    htrace, ?_⟩
  rw [run, hsources]
  dsimp only
  rw [hselected, runAll_append, runAll, hrun, ← houtcome]
  rfl

/-- A test that looks at the clock, and then has a variable with the name of the native. -/
def shadowing : Source :=
  ⟨utf8 "a.test.lox", utf8 "clock(); var clock = nil; clock = true; assert clock;"⟩

/-- A test that calls the native. -/
def calling : Source :=
  ⟨utf8 "b.test.lox", utf8 "clock(); print clock;"⟩

/-- The machine is not about to assign to a variable without a depth. -/
def assignsAtDepth (moment : Setting × State) : Bool :=
  match moment.2.frames with
  | .assign id _ :: _ => (moment.1.depths.depth? id).isSome
  | _ => true

theorem run_test_alone_calling :
    ∃ t s u, runAll 40 (fun _ => []) [shadowing] (Tally.zero, .new {} false) = (t, s) ∧
      s.store.clock.looks = 1 ∧ s.eval 40 calling .sourceFile = (.ok (), u) ∧
      u.trace = s.trace.push (.line (utf8 "<native fn clock>")) := by
  have hspared : ¬ Tampers (.new {} false) 40 (fun _ => []) [shadowing] := by
    rintro ⟨earlier, src, rest, htests, -, k, hk, set, state, hmoment, _, _, _, hassigns⟩
    obtain ⟨id, written, frames, _, hframes, _, hdepth, _⟩ := hassigns
    -- Whenever the test assigns, the node has a depth.
    have hdepths : ∀ k < 40,
        ((Session.new {} false).moment k shadowing .sourceFile).all assignsAtDepth := by
      decide +kernel
    cases earlier with
    | nil =>
        cases htests
        have hsome := hdepths k hk
        rw [show (Session.new {} false).moment k shadowing .sourceFile = _ from hmoment,
          Option.all_some] at hsome
        simp only [assignsAtDepth, hframes, hdepth] at hsome
        cases hsome
    | cons _ earlier =>
        cases earlier with
        | nil => cases htests
        | cons _ _ => cases htests
  have hlooks : (runAll 40 (fun _ => []) [shadowing]
      (Tally.zero, .new {} false)).2.store.clock.looks = 1 := by
    decide +kernel
  have houtcome : ((Session.new {} false (Clock.after (.still 0) 1)).eval 40 calling
      .sourceFile).1 = .ok () := by
    decide +kernel
  have hwritten : ((Session.new {} false (Clock.after (.still 0) 1)).eval 40 calling
      .sourceFile).2.trace = #[.line (utf8 "<native fn clock>")] := by
    decide +kernel
  obtain ⟨t, s, u, looks, hbefore, hclock, heval, htrace, _⟩ := run_test_alone {} false _ 40
    ⟨fun _ => .error [], .ok [shadowing, calling]⟩ none (fun _ => []) rfl
    (show selected none [shadowing, calling] = [shadowing] ++ calling :: [] from rfl)
    (by decide +kernel) hspared
  rw [hbefore] at hlooks
  obtain rfl : looks = 1 := by
    rw [hclock, Clock.after, Clock.still, Nat.zero_add] at hlooks
    exact hlooks
  rw [houtcome] at heval
  rw [hwritten] at htrace
  exact ⟨t, s, u, hbefore, hlooks, heval, htrace⟩

/-- Two tests that pass alone: one assigns to a native, the other calls it. -/
def spoiling : Bindings Bytes :=
  ⟨[(utf8 "a.test.lox", utf8 "clock = nil;"), (utf8 "b.test.lox", utf8 "clock();")]⟩

theorem assigned_native_spoils :
    (∀ test ∈ spoiling.entries,
      ((Session.new {} false).eval 40 ⟨test.1, test.2⟩ .sourceFile).1 = .ok ()) ∧
    (run (.new {} false) 40 (.ofTexts spoiling) none fun _ => []).tally = ⟨1, 1, 0⟩ := by
  have hsorted : Source.sortByUri ((spoiling.entries.filter fun test =>
      Bytes.endsWith testSuffix test.1).map fun test => ⟨test.1, test.2⟩) =
      (spoiling.entries.filter fun test =>
        Bytes.endsWith testSuffix test.1).map fun test => ⟨test.1, test.2⟩ :=
    List.mergeSort_of_pairwise (by decide +kernel)
  rw [run, Host.ofTexts, hsorted]
  decide +kernel

end Suite

end LoxMachine
