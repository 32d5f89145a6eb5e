import LoxMachine.Proofs.Placing.Reading
import LoxMachine.Proofs.Placing.Scopes
import LoxMachine.Proofs.Relocation.Parsing
import LoxMachine.Proofs.Relocation.Scopes
import LoxMachine.Proofs.Session.Kindred

/-!
# Lines one after another

Lines share the global scope, so a line that has finished leaves nothing behind that the
next one does not find in a line which begins with it.  Two lines can be given as one.
-/

namespace LoxMachine

open Scope

namespace Session

variable {s t u v : Session} {runs : List Run}

/-! ## Compiling lines -/

/-- A text that compiles does so whatever numbers are used up. -/
theorem compile_anywhere {src : Source} {kind : ModuleKind} {c : Compiled}
    (h : s.compile src kind = (.ok c, t)) (u : Session) :
    ∃ d v, u.compile src kind = (.ok d, v) := by
  obtain ⟨hscanned, hparse, _, hresolved⟩ := parse_of_compile h
  let outset := Module.parse (Token.scan src).1 kind 0 (Token.scan src).2
  -- With `n` numbers used up the same is read, with its numbers moved by `n`.
  have hbehind : ∀ n, Module.parse (Token.scan src).1 kind n (Token.scan src).2 =
      outset.map (Module.Outcome.renumber ⟨1, n⟩) := by
    intro n
    have hmoved := Module.parse_behind ⟨1, n⟩ (Token.scan src).1 kind (Nat.le_refl 1)
      (Token.scan src).2
    rwa [Nat.zero_add] at hmoved
  have hu := hbehind u.lastId
  rw [hbehind] at hparse
  cases hout : outset with
  | error reason =>
      rw [hout] at hparse
      cases hparse
  | ok parsed =>
      rw [hout] at hparse hu
      obtain ⟨m, k, bag⟩ := parsed
      obtain ⟨hmodule, _, hbag⟩ := Module.Outcome.mk.inj (Except.ok.inj hparse)
      obtain rfl : bag = (Token.scan src).2 := hbag
      have hclean : (resolve (m.renumber (⟨1, u.lastId⟩ : Gap).move) (Token.scan src).2).2.isClean =
          true := by
        rw [← hmodule, (resolve_renumber _ m _).2] at hresolved
        rwa [(resolve_renumber _ m _).2]
      obtain ⟨v, hcompile, _⟩ := compile_of_parse u hscanned hu hclean
      exact ⟨_, v, hcompile⟩

/-- Two lines joined by a line feed compile to their bodies one after another. -/
theorem compile_joined {a b : Bytes} {c d : Compiled}
    (ha : s.compile (Source.ofSnippet a) .replLine = (.ok c, t)) (hlast : u.lastId = t.lastId)
    (hb : u.compile (Source.ofSnippet b) .replLine = (.ok d, v)) :
    ∃ joined w, s.compile (Source.ofSnippet (a ++ Bytes.lineFeed :: b)) .replLine =
        (.ok joined, w) ∧ w.lastId = v.lastId ∧
      (Stmt.bareAll joined.module.body =
        Stmt.bareAll c.module.body ++ Stmt.bareAll d.module.body) ∧
      ∀ id, joined.depths.depth? id = (d.depths.depth? id).or (c.depths.depth? id) := by
  obtain ⟨hscanned, _, hdepths, hresolved⟩ := parse_of_compile ha
  obtain ⟨hscanned', _, hdepths', hresolved'⟩ := parse_of_compile hb
  have hreads := readsModule_of_compile ha
  have hreads' := readsModule_of_compile hb
  rw [hlast] at hreads'
  have htext : (Source.ofSnippet (a ++ Bytes.lineFeed :: b)).text =
      (Source.ofSnippet a).text ++ Bytes.lineFeed :: (Source.ofSnippet b).text := rfl
  obtain ⟨hclean, m, hmodule, hbody⟩ :=
    Grammar.readsModule_joined htext hscanned hscanned' hreads hreads'
  have hkind : m.kind = .replLine := by
    obtain ⟨_, _, _, _, _, hkind, _⟩ := hmodule
    exact hkind
  have hproper : ∀ site ∈ moduleSites c.module, site.Proper := by
    have hresolves := (s.compile_spec (Source.ofSnippet a) .replLine).2
    rw [ha] at hresolves
    exact hresolves.numbered.proper
  obtain ⟨hresolve, hall⟩ := resolve_joined hkind (kind_of_compile ha) (kind_of_compile hb) hbody
    hproper hclean hresolved hresolved'
  obtain ⟨w, hcompile, hw⟩ :=
    compile_of_parse s hclean (Grammar.parse_of_readsModule _ hmodule) hresolve
  refine ⟨_, w, hcompile, hw, ?_, fun id => ?_⟩
  · rw [hbody, Stmt.bareAll_append, Stmt.bareAll_placeAll, Stmt.bareAll_placeAll]
  · rw [hdepths, hdepths', hall]

/-! ## Running lines -/

theorem eval_of_compile {src : Source} {kind : ModuleKind} {c : Compiled}
    (h : s.compile src kind = (.ok c, t)) (fuel : Nat) :
    s.eval fuel src kind =
      (t.prepare src c).finish src
        (run (t.prepare src c).setting fuel ((t.prepare src c).start c.module)).1
        (run (t.prepare src c).setting fuel ((t.prepare src c).start c.module)).2 := by
  rw [eval, h]

theorem shows_of_compile {src : Source} {kind : ModuleKind} {c : Compiled}
    (h : s.compile src kind = (.ok c, t)) (fuel : Nat) :
    s.shows fuel src kind =
      printed (t.prepare src c).setting fuel ((t.prepare src c).start c.module) := by
  rw [shows, h]

/-- Only the depths of a session and the numbers used up are others when a compiled text is
prepared. -/
theorem prepare_of_compile {src : Source} {kind : ModuleKind} {c : Compiled}
    (h : s.compile src kind = (.ok c, t)) :
    Quiet { s with lastId := t.lastId, depths := s.depths.merge c.depths } (t.prepare src c) := by
  have hquiet := (s.compile_spec src kind).1
  rw [h] at hquiet
  have hprepared := quiet_prepare t src c
  exact {
    options := hprepared.options.trans hquiet.options
    logging := hprepared.logging.trans hquiet.logging
    lastId := hprepared.lastId
    depths := hprepared.depths.trans (congrArg (·.merge c.depths) hquiet.depths)
    store := hprepared.store.trans hquiet.store }

/-- A text that runs without error compiles, its run finishes, and its depths and the store
of the run are what it leaves. -/
theorem finished_of_runSource {fuel : Nat} {src : Source} {kind : ModuleKind}
    (h : (s.runSource fuel src kind).1 = .ok ()) :
    ∃ c t final, s.compile src kind = (.ok c, t) ∧
      run (t.prepare src c).setting fuel ((t.prepare src c).start c.module) =
        (some .finished, final) ∧
      Quiet { s with
          lastId := t.lastId, depths := s.depths.merge c.depths, store := final.store }
        (s.runSource fuel src kind).2 ∧
      (s.runSource fuel src kind).2.lastId = t.lastId := by
  have heval : s.eval fuel src kind = (.ok (), (s.runSource fuel src kind).2) := by
    unfold runSource at h ⊢
    split at h
    next hresult => rw [hresult]
    next => cases h
  cases hcompile : s.compile src kind with
  | mk outcome t =>
      cases outcome with
      | error failure =>
          rw [eval, hcompile] at heval
          cases heval
      | ok c =>
          rw [eval_of_compile hcompile] at heval
          cases hrun : run (t.prepare src c).setting fuel ((t.prepare src c).start c.module) with
          | mk ending final =>
              rw [hrun] at heval
              have hverdict := congrArg Prod.fst heval
              have hleft := congrArg Prod.snd heval
              rw [finish_verdict] at hverdict
              obtain rfl : ending = some .finished := by
                cases ending with
                | none => cases hverdict
                | some ending => cases ending <;> first | rfl | cases hverdict
              dsimp only at hleft
              have hprepared := prepare_of_compile hcompile
              have hfinished := quiet_finish (t.prepare src c) src (some .finished) final
              have hlast := lastId_finish (t.prepare src c) src (some .finished) final
              rw [lastId_prepare] at hlast
              rw [hleft] at hfinished hlast
              refine ⟨c, t, final, rfl, hrun, ?_, hlast⟩
              exact {
                options := hfinished.options.trans hprepared.options
                logging := hfinished.logging.trans hprepared.logging
                lastId := Nat.le_of_eq hlast.symm
                depths := hfinished.depths.trans hprepared.depths
                store := hfinished.store }

theorem beginning_of_line (s : Session) {m : Module} (hkind : m.kind = .replLine) :
    s.start m = .beginning m.body globals 0 s.store s.trace := by
  refine s.start_of_shared ?_
  rw [hkind]
  nofun

/-- A line that begins with one that finishes comes to where the first one ends, and what
is left to do is the rest. -/
theorem Coherent.run_joined (h : s.Coherent runs) {src src' : Source} {c d joined : Compiled}
    {fuel : Nat} {final : State} (hcompile : s.compile src .replLine = (.ok c, t))
    (hrun : run (t.prepare src c).setting fuel ((t.prepare src c).start c.module) =
      (some .finished, final))
    (hjoined : s.compile src' .replLine = (.ok joined, u))
    (hbody : Stmt.bareAll joined.module.body =
      Stmt.bareAll c.module.body ++ Stmt.bareAll d.module.body)
    (hall : ∀ id, joined.depths.depth? id = (d.depths.depth? id).or (c.depths.depth? id))
    (hothers : ∀ id ≤ t.lastId, d.depths.depth? id = none) :
    ∃ n < fuel, ∃ x,
      run (u.prepare src' joined).setting n ((u.prepare src' joined).start joined.module) =
        (none, x) ∧
      x.bare = (State.beginning d.module.body globals 0 final.store #[]).bare ∧
      printed (u.prepare src' joined).setting n ((u.prepare src' joined).start joined.module) =
        printed (t.prepare src c).setting fuel ((t.prepare src c).start c.module) := by
  have hp := prepare_of_compile hcompile
  have hr := prepare_of_compile hjoined
  obtain ⟨hcoherent, W, hvalid⟩ := h.launch hcompile
  have hlast := lastId_prepare t src c
  rw [beginning_of_line _ (kind_of_compile hcompile)] at hrun hvalid ⊢
  rw [beginning_of_line _ (kind_of_compile hjoined)]
  generalize t.prepare src c = p at hp hcoherent hvalid hlast hrun ⊢
  generalize u.prepare src' joined = r at hr ⊢
  have hset : p.setting.Serves r.setting [] :=
    ⟨nofun, hr.options.trans hp.options.symm, hr.logging.trans hp.logging.symm⟩
  -- What has been started so far has no number of the second line.
  have hdepths : ∀ base site, Run.sites (s.launch src .replLine ++ runs) base site →
      ∀ id ∈ site.ids, r.depths.depth? id = p.depths.depth? id := by
    rintro base site ⟨started, hstarted, _, hmem⟩ id hid
    have hused := hcoherent.used started hstarted id (List.mem_flatMap.mpr ⟨site, hmem, hid⟩)
    rw [hr.depths, hp.depths, Depths.depth?_merge, Depths.depth?_merge, hall,
      hothers id (hlast ▸ hused), Option.none_or]
  have hstore : r.store = p.store := hr.store.trans hp.store.symm
  rw [hstore]
  exact LoxMachine.run_joined hcoherent.sites hdepths hset hvalid hrun hbody

/-- Once the second line has been prepared after the first one, and the joined line without
it, the sessions differ only in their stores and in what was written. -/
theorem kindred_joined {src src' : Source} {c d joined : Compiled} {w : Session} {before : Store}
    (hu : Quiet { s with
      lastId := t.lastId, depths := s.depths.merge c.depths, store := before } u)
    (hb : u.compile src .replLine = (.ok d, v))
    (hjoined : s.compile src' .replLine = (.ok joined, w))
    (hlast : w.lastId = v.lastId)
    (hall : ∀ id, joined.depths.depth? id = (d.depths.depth? id).or (c.depths.depth? id))
    (st st' : Store) (trace trace' : Array Event)
    (hstore : st'.bare = st.bare) :
    Kindred { v.prepare src d with store := st, trace := trace }
      { w.prepare src' joined with store := st', trace := trace' } := by
  have hq := prepare_of_compile hb
  have hr := prepare_of_compile hjoined
  refine ⟨hr.options.trans (hq.options.trans hu.options).symm,
    hr.logging.trans (hq.logging.trans hu.logging).symm, ?_, fun id => ?_, hstore⟩
  · dsimp only
    rw [lastId_prepare, lastId_prepare, hlast]
  · dsimp only
    rw [hr.depths, hq.depths, hu.depths, Depths.depth?_merge, Depths.depth?_merge,
      Depths.depth?_merge, hall, Option.or_assoc]

/-- After a line that finishes, a second line does what is left to do in the line that both
are joined to. -/
theorem Coherent.runLine_joined (h : s.Coherent runs) {a b : Bytes} {d : Compiled} {fuel : Nat}
    (ha : (s.runLine fuel a).1 = .ok ())
    (hb : (s.runLine fuel a).2.compile (Source.ofSnippet b) .replLine = (.ok d, v)) :
    (∃ c w, s.compile (Source.ofSnippet (a ++ Bytes.lineFeed :: b)) .replLine = (.ok c, w)) ∧
      ∃ n < fuel, ∀ more,
        (s.runLine (n + more) (a ++ Bytes.lineFeed :: b)).1.mapError Failure.unplaced =
            ((s.runLine fuel a).2.runLine more b).1.mapError Failure.unplaced ∧
          s.shows (n + more) (Source.ofSnippet (a ++ Bytes.lineFeed :: b)) .replLine =
            s.shows fuel (Source.ofSnippet a) .replLine ++
              (s.runLine fuel a).2.shows more (Source.ofSnippet b) .replLine ∧
          ((s.runLine fuel a).2.runLine more b).2.Kindred
            (s.runLine (n + more) (a ++ Bytes.lineFeed :: b)).2 := by
  unfold runLine at ha hb ⊢
  obtain ⟨c, t, final, hcompile, hrun, hu, hlast⟩ := finished_of_runSource ha
  generalize (s.runSource fuel (Source.ofSnippet a) .replLine).2 = u at hu hlast hb ⊢
  obtain ⟨joined, w, hjoined, hw, hbody, hall⟩ := compile_joined hcompile hlast hb
  have hothers : ∀ id ≤ t.lastId, d.depths.depth? id = none := by
    have hresolves := (u.compile_spec (Source.ofSnippet b) .replLine).2
    rw [hb] at hresolves
    exact fun id hid => hresolves.depth?_of_le (hlast ▸ hid)
  obtain ⟨n, hn, x, hreached, hbare, hprinted⟩ :=
    h.run_joined hcompile hrun hjoined hbody hall hothers
  refine ⟨⟨joined, w, hjoined⟩, n, hn, fun more => ?_⟩
  have hkindred := kindred_joined hu hb hjoined hw hall
  have hstore := (prepare_of_compile hb).store.trans hu.store
  have houtcome := eval_of_compile hb more
  have houtcome' := eval_of_compile hjoined (n + more)
  rw [run_add hreached] at houtcome'
  rw [shows_of_compile hjoined, shows_of_compile hb, shows_of_compile hcompile,
    printed_add hreached, hprinted]
  generalize v.prepare (Source.ofSnippet b) d = q at hkindred hstore houtcome ⊢
  generalize w.prepare (Source.ofSnippet (a ++ Bytes.lineFeed :: b)) joined = r
    at hkindred houtcome' ⊢
  have hserves : ∀ ids, q.setting.Serves r.setting ids :=
    (hkindred q.store q.store q.trace r.trace rfl).serves
  have hstart : x.bare = (q.start d.module).bare := by
    rw [beginning_of_line _ (kind_of_compile hb), hbare, State.bare_beginning,
      State.bare_beginning, hstore]
  -- From where the first line ends both machines go on alike.
  obtain ⟨hending, hsame, hstate⟩ := run_bare hserves hstart more
  obtain ⟨hverdict, hfinished⟩ := Kindred.finish (hkindred _ _ _ _ (store_of_bare hstate)) hending
    (Source.ofSnippet b) (Source.ofSnippet (a ++ Bytes.lineFeed :: b))
  rw [← houtcome, ← houtcome'] at hverdict hfinished
  obtain ⟨hsimilar, hnext⟩ := Kindred.runSource_of_eval hverdict hfinished
  exact ⟨hsimilar, congrArg (_ ++ ·) hsame, hnext⟩

/-! ## Lines and the line of both -/

/-- A line that runs without error and a line that compiles can be given as one line.  It
writes what both write one after the other, goes as the second one goes, and leaves a
session that does the same as theirs from then on.  The steps of the first line come on top
of those that the second one is given. -/
theorem joined_lines_compose (options : Options) (logging : Bool) (clock : Clock)
    (before : List (Request × Nat)) (a b : Bytes) (fuel : Nat)
    (htokens : options.printTokens = false) (htree : options.printTree = false)
    (hlocals : options.printLocals = false)
    (ha : (((new options logging clock).after before).perform fuel (.line a)).1 = .ok ())
    (hb : ∃ r c t, compile r (Source.ofSnippet b) .replLine = (.ok c, t)) :
    let s := (new options logging clock).after before
    let t := (s.perform fuel (.line a)).2
    let joined := a ++ Bytes.lineFeed :: b
    (∃ c u, s.compile (Source.ofSnippet joined) .replLine = (.ok c, u)) ∧
    ∃ n < fuel, ∀ more,
      s.gist (n + more) (.line joined) =
        ((t.gist more (.line b)).1, (s.gist fuel (.line a)).2 ++ (t.gist more (.line b)).2) ∧
      ∀ later, (s.perform (n + more) (.line joined)).2.gists later =
        (t.perform more (.line b)).2.gists later := by
  intro s t joined
  have hoptions : s.options = options := (shares_after _ before).options
  have hoptions' : t.options = options := (s.shares_perform fuel (.line a)).options.trans hoptions
  obtain ⟨_, _, _, hb⟩ := hb
  obtain ⟨_, _, hb⟩ := compile_anywhere hb t
  obtain ⟨hcompiles, n, hn, hruns⟩ :=
    ((coherent_new options logging clock).after before).runLine_joined ha hb
  refine ⟨hcompiles, n, hn, fun more => ?_⟩
  obtain ⟨houtcome, hshows, hnext⟩ := hruns more
  refine ⟨?_, hnext.gists⟩
  have hdumps := dumps_eq_nil htokens htree hlocals
  rw [gist_eq, gist_eq, gist_eq, hoptions, hoptions', hdumps, hdumps, hdumps, List.nil_append,
    List.nil_append, List.nil_append, ← Options.written_append]
  exact Prod.ext houtcome (congrArg options.written hshows)

/-- A line that ends in a comment, and one that uses what it declares and then fails. -/
def both : Bytes × Bytes :=
  (utf8 "fun f(n) { print n; return x; } f(2); // declared", utf8 "print f(3); y;")

/-- The joined line shows what both lines show, and fails as the second one does. -/
theorem joined_lines_compose_failing :
    let s := (new {} false).after [(.line (utf8 "var x = 1;"), 20)]
    ∃ n < 60, s.gist (n + 80) (.line (both.1 ++ Bytes.lineFeed :: both.2)) =
      (.error (.runtime ⟨Range.nowhere, .undefinedVariable (utf8 "y")⟩),
        [utf8 "2", utf8 "3", utf8 "1"]) := by
  intro s
  have ha : (s.perform 60 (.line both.1)).1 = .ok () := by decide +kernel
  have hb : ∃ r c t, compile r (Source.ofSnippet both.2) .replLine = (.ok c, t) := by
    have hok : (s.compile (Source.ofSnippet both.2) .replLine).1.isOk = true := by decide +kernel
    cases hcompile : s.compile (Source.ofSnippet both.2) .replLine with
    | mk outcome t =>
        cases outcome with
        | ok c => exact ⟨s, c, t, hcompile⟩
        | error _ =>
            rw [hcompile] at hok
            cases hok
  obtain ⟨_, n, hn, hruns⟩ :=
    joined_lines_compose {} false (.still 0) _ both.1 both.2 60 rfl rfl rfl ha hb
  have hfirst : (s.gist 60 (.line both.1)).2 = [utf8 "2"] := by decide +kernel
  have hsecond : (s.perform 60 (.line both.1)).2.gist 80 (.line both.2) =
      (.error (.runtime ⟨Range.nowhere, .undefinedVariable (utf8 "y")⟩),
        [utf8 "3", utf8 "1"]) := by
    decide +kernel
  refine ⟨n, hn, (hruns 80).1.trans ?_⟩
  rw [hfirst, hsecond]
  rfl

end Session

end LoxMachine
