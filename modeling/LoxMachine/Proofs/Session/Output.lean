import LoxMachine.Proofs.Machine.Printing
import LoxMachine.Proofs.Session.Globals

/-!
# Output

Four of the options are about output: three ask for dumps of what is compiled, and one
silences print statements.  Sessions that differ in these options alone do the same and
come to the same state; only the lines differ, and exactly by the dumps and by what print
statements show.
-/

namespace LoxMachine

/-- The options without a wish for more output or less. -/
def Options.plain (options : Options) : Options :=
  { options with printTokens := false, printTree := false, printLocals := false,
                 disablePrint := false }

namespace Session

/-- What the options ask to see of a text when it is compiled after `lastId`: its tokens,
the tree if the tokens are clean, and the depths if the tree is. -/
def dumps (options : Options) (lastId : Nat) (src : Source) (kind : ModuleKind) : List Bytes :=
  let (tokens, bag) := Token.scan src
  let shown := if options.printTokens then [Token.dump tokens] else []
  if bag.isClean = false then shown
  else
    match Module.parse tokens kind lastId bag with
    | .error _ => shown
    | .ok parsed =>
        let m := parsed.module
        let shown := shown ++ if options.printTree && !m.body.isEmpty then [m.dump] else []
        if parsed.bag.isClean = false then shown
        else
          let (depths, _) := Scope.resolve m parsed.bag
          shown ++ if options.printLocals && depths.size != 0 then [depths.text] else []

/-- What the print statements show when a text is run, if it compiles. -/
def shows (s : Session) (fuel : Nat) (src : Source) (kind : ModuleKind) : List Bytes :=
  match s.compile src kind with
  | (.ok c, t) =>
      let p := t.prepare src c
      printed p.setting fuel (p.start c.module)
  | (.error _, _) => []

/-- The lines a request adds. -/
def newLines (s : Session) (fuel : Nat) (request : Request) : List Bytes :=
  (lines (s.perform fuel request).2.trace).drop (lines s.trace).length

end Session

namespace Request

/-- The dumps that a request gives rise to after `lastId`. -/
def dumps (options : Options) (lastId : Nat) (request : Request) : List Bytes :=
  match request.text? with
  | some (src, kind) => Session.dumps options lastId src kind
  | none => []

/-- What the print statements show when a request is performed. -/
def shows (s : Session) (fuel : Nat) (request : Request) : List Bytes :=
  match request.text? with
  | some (src, kind) => s.shows fuel src kind
  | none => []

/-- The lines in which a request reports how it went. Only evaluating keeps silent. -/
def reports (outcome : Except Failure Unit) : Request → List Bytes
  | .eval _ _ => []
  | _ =>
      match outcome with
      | .ok () => []
      | .error failure => [failure.report]

end Request

namespace Session

variable {s t : Session}

/-! ## What stays -/

/-- The sessions were begun in the same way. -/
structure Shares (s t : Session) : Prop where
  options : t.options = s.options
  logging : t.logging = s.logging

theorem Shares.trans {u : Session} (h : s.Shares t) (h' : t.Shares u) : s.Shares u :=
  ⟨h'.options.trans h.options, h'.logging.trans h.logging⟩

theorem Quiet.shares (h : s.Quiet t) : s.Shares t :=
  ⟨h.options, h.logging⟩

theorem shares_eval (s : Session) (fuel : Nat) (src : Source) (kind : ModuleKind) :
    s.Shares (s.eval fuel src kind).2 := by
  have hcompiled := (s.compile_spec src kind).1.shares
  unfold eval
  cases hcompile : s.compile src kind with
  | mk outcome t =>
      rw [hcompile] at hcompiled
      cases outcome with
      | error failure => exact hcompiled
      | ok c =>
          have hlogged := (quiet_prepare t src c).shares
          have hprepared : t.Shares (t.prepare src c) :=
            ⟨hlogged.options, hlogged.logging⟩
          have hfinished : ∀ ending final,
              (t.prepare src c).Shares ((t.prepare src c).finish src ending final).2 := by
            intro ending final
            have h := (quiet_finish (t.prepare src c) src ending final).shares
            exact ⟨h.options, h.logging⟩
          exact (hcompiled.trans hprepared).trans (hfinished _ _)

theorem shares_runSource (s : Session) (fuel : Nat) (src : Source) (kind : ModuleKind) :
    s.Shares (s.runSource fuel src kind).2 := by
  have heval := s.shares_eval fuel src kind
  unfold runSource
  split
  next h =>
    rw [h] at heval
    exact heval
  next h =>
    rw [h] at heval
    exact heval.trans (quiet_write _ _).shares

theorem shares_perform (s : Session) (fuel : Nat) (request : Request) :
    s.Shares (s.perform fuel request).2 := by
  cases request with
  | line text => exact s.shares_runSource fuel _ _
  | eval src kind => exact s.shares_eval fuel src kind
  | run src kind => exact s.shares_runSource fuel src kind
  | file host uri =>
      simp only [perform, runFile]
      cases host.read uri with
      | ok src => exact s.shares_runSource fuel src .sourceFile
      | error message => exact (quiet_write _ _).shares

theorem shares_after (s : Session) (history : List (Request × Nat)) :
    s.Shares (s.after history) := by
  induction history generalizing s with
  | nil => exact ⟨rfl, rfl⟩
  | cons step history ih =>
      obtain ⟨request, fuel⟩ := step
      exact (s.shares_perform fuel request).trans (ih _)

/-! ## The lines of a request -/

theorem lines_writeIf (s : Session) (wanted : Bool) (line : Unit → Bytes) :
    lines (s.writeIf wanted line).trace =
      lines s.trace ++ if wanted then [line ()] else [] := by
  unfold writeIf
  split
  · exact lines_push_line _ _
  · exact (List.append_nil _).symm

theorem records_writeIf (s : Session) (wanted : Bool) (line : Unit → Bytes) :
    records (s.writeIf wanted line).trace = records s.trace := by
  unfold writeIf
  split
  · exact records_push_line _ _
  · rfl

theorem lines_log (s : Session) (message : Bytes) (attributes : List (Bytes × Bytes)) :
    lines (s.log message attributes).trace = lines s.trace := by
  unfold log
  split
  · exact lines_push_record _ _
  · rfl

theorem lines_compile (s : Session) (src : Source) (kind : ModuleKind) :
    lines (s.compile src kind).2.trace =
      lines s.trace ++ dumps s.options s.lastId src kind := by
  have hfirst := lines_writeIf s s.options.printTokens fun _ => Token.dump (Token.scan src).1
  have hlast := lastId_writeIf s s.options.printTokens fun _ => Token.dump (Token.scan src).1
  have hquiet := quiet_writeIf s s.options.printTokens fun _ => Token.dump (Token.scan src).1
  unfold compile dumps
  dsimp only
  rw [← hlast]
  generalize s.writeIf s.options.printTokens (fun _ => Token.dump (Token.scan src).1) = s₁
    at hfirst hquiet ⊢
  split
  · exact hfirst
  · cases Module.parse (Token.scan src).1 kind s₁.lastId (Token.scan src).2 with
    | error reason => exact hfirst
    | ok parsed =>
        dsimp only
        have htree := lines_writeIf { s₁ with lastId := parsed.lastId }
          (s₁.options.printTree && !parsed.module.body.isEmpty) fun _ => parsed.module.dump
        have hoptions := (quiet_writeIf { s₁ with lastId := parsed.lastId }
          (s₁.options.printTree && !parsed.module.body.isEmpty)
            fun _ => parsed.module.dump).options
        generalize ({ s₁ with lastId := parsed.lastId } : Session).writeIf _ _ = s₂
          at htree hoptions ⊢
        rw [hfirst, hquiet.options, List.append_assoc] at htree
        split
        · exact htree
        · split
          · rw [lines_writeIf, htree, hoptions, hquiet.options, List.append_assoc]
          · rw [lines_log, lines_writeIf, htree, hoptions, hquiet.options, List.append_assoc]

/-- Starting a module writes nothing. -/
theorem trace_start (s : Session) (m : Module) : (s.start m).trace = s.trace := rfl

theorem trace_finish (s : Session) (src : Source) (ending : Option Ending) (final : State) :
    lines (s.finish src ending final).2.trace = lines final.trace := by
  unfold finish
  dsimp only
  split
  · exact lines_log _ _ _
  · exact lines_log _ _ _
  · rfl
  · rfl

theorem lines_prepare (s : Session) (src : Source) (c : Compiled) :
    lines (s.prepare src c).trace = lines s.trace :=
  lines_log { s with depths := s.depths.merge c.depths } _ _

theorem lines_run (set : Setting) (fuel : Nat) (s : State) :
    lines (run set fuel s).2.trace =
      lines s.trace ++ set.options.written (printed set fuel s) := by
  have hagrees : set.options.Agrees set.options := ⟨rfl, rfl⟩
  obtain ⟨_, _, mine, _, hmine, _, hlines, _⟩ := run_options hagrees fuel s #[]
  rw [hmine, lines_append, hlines]

theorem lines_eval (s : Session) (fuel : Nat) (src : Source) (kind : ModuleKind) :
    lines (s.eval fuel src kind).2.trace =
      lines s.trace ++ (dumps s.options s.lastId src kind ++
        s.options.written (s.shows fuel src kind)) := by
  have hlines := s.lines_compile src kind
  have hquiet := (s.compile_spec src kind).1
  unfold eval shows
  cases hcompile : s.compile src kind with
  | mk outcome t =>
      rw [hcompile] at hlines hquiet
      cases outcome with
      | error failure =>
          dsimp only
          rw [Options.written_nil, List.append_nil]
          exact hlines
      | ok c =>
          have hoptions : (t.prepare src c).setting.options = s.options :=
            (quiet_prepare t src c).options.trans hquiet.options
          dsimp only
          rw [trace_finish, lines_run, trace_start, lines_prepare, hoptions, hlines,
            List.append_assoc]

theorem lines_runSource (s : Session) (fuel : Nat) (src : Source) (kind : ModuleKind) :
    lines (s.runSource fuel src kind).2.trace =
      lines s.trace ++ (dumps s.options s.lastId src kind ++
        s.options.written (s.shows fuel src kind) ++
        (Request.run src kind).reports (s.runSource fuel src kind).1) := by
  have hlines := s.lines_eval fuel src kind
  unfold runSource
  cases heval : s.eval fuel src kind with
  | mk outcome t =>
      rw [heval] at hlines
      cases outcome with
      | ok _ => exact hlines.trans (congrArg _ (List.append_nil _).symm)
      | error failure =>
          have hreport : lines (t.report failure).trace = lines t.trace ++ [failure.report] :=
            lines_push_line _ _
          dsimp only
          rw [hreport, hlines, List.append_assoc]
          rfl

theorem lines_perform (s : Session) (fuel : Nat) (request : Request) :
    lines (s.perform fuel request).2.trace =
      lines s.trace ++ (request.dumps s.options s.lastId ++
        s.options.written (request.shows s fuel) ++
        request.reports (s.perform fuel request).1) := by
  cases request with
  | line text => exact s.lines_runSource fuel _ _
  | eval src kind =>
      exact (s.lines_eval fuel src kind).trans (congrArg _ (List.append_nil _).symm)
  | run src kind => exact s.lines_runSource fuel src kind
  | file host uri =>
      simp only [perform, runFile, Request.dumps, Request.shows, Request.text?]
      cases host.read uri with
      | ok src => exact s.lines_runSource fuel src .sourceFile
      | error message =>
          have hwrite : lines (s.write message).trace = lines s.trace ++ [message] :=
            lines_push_line _ _
          simp only [Except.toOption, Option.map_none, Options.written_nil, List.nil_append]
          exact hwrite

theorem newLines_eq (s : Session) (fuel : Nat) (request : Request) :
    s.newLines fuel request =
      request.dumps s.options s.lastId ++ s.options.written (request.shows s fuel) ++
        request.reports (s.perform fuel request).1 := by
  rw [newLines, lines_perform, List.drop_left]

/-! ## Sessions with other output -/

/-- Two sessions that differ in what they write, and in the options about that. -/
structure Alike (s t : Session) : Prop where
  options : s.options.Agrees t.options
  logging : t.logging = s.logging
  lastId : t.lastId = s.lastId
  depths : t.depths = s.depths
  store : t.store = s.store
  records : Session.records t.trace = Session.records s.trace

theorem Alike.writeIf (h : s.Alike t) (wanted wanted' : Bool) (line line' : Unit → Bytes) :
    (s.writeIf wanted line).Alike (t.writeIf wanted' line') where
  options := by
    rw [(quiet_writeIf s wanted line).options, (quiet_writeIf t wanted' line').options]
    exact h.options
  logging := by
    rw [(quiet_writeIf s wanted line).logging, (quiet_writeIf t wanted' line').logging, h.logging]
  lastId := by rw [lastId_writeIf, lastId_writeIf, h.lastId]
  depths := by
    rw [(quiet_writeIf s wanted line).depths, (quiet_writeIf t wanted' line').depths, h.depths]
  store := by
    rw [(quiet_writeIf s wanted line).store, (quiet_writeIf t wanted' line').store, h.store]
  records := by rw [records_writeIf, records_writeIf, h.records]

theorem Alike.log (h : s.Alike t) (message : Bytes) (attributes : List (Bytes × Bytes)) :
    (s.log message attributes).Alike (t.log message attributes) := by
  unfold Session.log
  by_cases hlogging : s.logging = true
  · rw [if_pos hlogging, if_pos (h.logging.trans hlogging)]
    refine { h with records := ?_ }
    simp only [records_push_record, h.records]
  · rw [if_neg hlogging, if_neg (h.logging ▸ hlogging)]
    exact h

theorem Alike.compile (h : s.Alike t) (src : Source) (kind : ModuleKind) :
    (t.compile src kind).1 = (s.compile src kind).1 ∧
      (s.compile src kind).2.Alike (t.compile src kind).2 := by
  have hfirst := h.writeIf s.options.printTokens t.options.printTokens
    (fun _ => Token.dump (Token.scan src).1) (fun _ => Token.dump (Token.scan src).1)
  unfold Session.compile
  dsimp only
  generalize s.writeIf _ _ = s₁ at hfirst ⊢
  generalize t.writeIf _ _ = t₁ at hfirst ⊢
  rw [hfirst.lastId]
  split
  · exact ⟨rfl, hfirst⟩
  · cases Module.parse (Token.scan src).1 kind s₁.lastId (Token.scan src).2 with
    | error reason => exact ⟨rfl, hfirst⟩
    | ok parsed =>
        have hparsed : Alike { s₁ with lastId := parsed.lastId }
            { t₁ with lastId := parsed.lastId } := { hfirst with lastId := rfl }
        have htree := hparsed.writeIf (s₁.options.printTree && !parsed.module.body.isEmpty)
          (t₁.options.printTree && !parsed.module.body.isEmpty) (fun _ => parsed.module.dump)
          fun _ => parsed.module.dump
        dsimp only
        generalize Session.writeIf { s₁ with lastId := parsed.lastId } _ _ = s₂ at htree ⊢
        generalize Session.writeIf { t₁ with lastId := parsed.lastId } _ _ = t₂ at htree ⊢
        split
        · exact ⟨rfl, htree⟩
        · have hlocals := htree.writeIf
            (s₂.options.printLocals && (Scope.resolve parsed.module parsed.bag).1.size != 0)
            (t₂.options.printLocals && (Scope.resolve parsed.module parsed.bag).1.size != 0)
            (fun _ => (Scope.resolve parsed.module parsed.bag).1.text)
            fun _ => (Scope.resolve parsed.module parsed.bag).1.text
          split
          · exact ⟨rfl, hlocals⟩
          · exact ⟨rfl, hlocals.log _ _⟩

theorem Alike.prepare (h : s.Alike t) (src : Source) (c : Compiled) :
    (s.prepare src c).Alike (t.prepare src c) := by
  have hmerged : Alike { s with depths := s.depths.merge c.depths }
      { t with depths := t.depths.merge c.depths } :=
    { h with depths := congrArg (·.merge c.depths) h.depths }
  exact hmerged.log _ _

/-- The machine starts in the same state, and its setting differs in the options about
output. -/
theorem Alike.start (h : s.Alike t) (m : Module) :
    t.start m = { s.start m with trace := t.trace } ∧
      t.setting = { s.setting with options := t.options } := by
  unfold Session.start Session.setting
  rw [h.store, h.depths, h.logging]
  exact ⟨rfl, rfl⟩

theorem Alike.run (h : s.Alike t) (m : Module) (fuel : Nat) :
    (run t.setting fuel (t.start m)).1 = (run s.setting fuel (s.start m)).1 ∧
      printed t.setting fuel (t.start m) = printed s.setting fuel (s.start m) ∧
      (run t.setting fuel (t.start m)).2.store = (run s.setting fuel (s.start m)).2.store ∧
      Session.records (run t.setting fuel (t.start m)).2.trace =
        Session.records (run s.setting fuel (s.start m)).2.trace := by
  obtain ⟨hstart, hsetting⟩ := h.start m
  have hagrees : s.setting.options.Agrees t.options := h.options
  obtain ⟨hending, hprinted, mine, yours, hmine, hyours, _, _, hrecords⟩ :=
    run_options hagrees fuel (s.start m) t.trace
  rw [hstart, hsetting]
  refine ⟨hending, hprinted, ?_, ?_⟩
  · rw [hyours]
  · rw [hyours, hmine, records_append, records_append, hrecords, h.records, trace_start]

theorem Alike.finish (h : s.Alike t) (src : Source) (ending : Option Ending)
    {final final' : State} (hstore : final'.store = final.store)
    (hrecords : Session.records final'.trace = Session.records final.trace) :
    (t.finish src ending final').1 = (s.finish src ending final).1 ∧
      (s.finish src ending final).2.Alike (t.finish src ending final').2 := by
  have hfinal : Alike { s with store := final.store, trace := final.trace }
      { t with store := final'.store, trace := final'.trace } :=
    { h with store := hstore, records := hrecords }
  unfold Session.finish
  dsimp only
  split
  · exact ⟨rfl, hfinal.log _ _⟩
  · exact ⟨rfl, hfinal.log _ _⟩
  · exact ⟨rfl, hfinal⟩
  · exact ⟨rfl, hfinal⟩

theorem Alike.eval (h : s.Alike t) (fuel : Nat) (src : Source) (kind : ModuleKind) :
    (t.eval fuel src kind).1 = (s.eval fuel src kind).1 ∧
      t.shows fuel src kind = s.shows fuel src kind ∧
      (s.eval fuel src kind).2.Alike (t.eval fuel src kind).2 := by
  obtain ⟨houtcome, hcompiled⟩ := h.compile src kind
  unfold Session.eval Session.shows
  cases hs : s.compile src kind with
  | mk outcome s₁ =>
      cases ht : t.compile src kind with
      | mk outcome' t₁ =>
          rw [hs, ht] at houtcome hcompiled
          obtain rfl : outcome' = outcome := houtcome
          cases outcome' with
          | error failure => exact ⟨rfl, rfl, hcompiled⟩
          | ok c =>
              have hprepared : Alike (s₁.prepare src c) (t₁.prepare src c) :=
                hcompiled.prepare src c
              obtain ⟨hending, hprinted, hstore, hrecords⟩ := hprepared.run c.module fuel
              dsimp only
              rw [hending, hprinted]
              obtain ⟨houtcome, hfinished⟩ := hprepared.finish src _ hstore hrecords
              exact ⟨houtcome, rfl, hfinished⟩

theorem Alike.runSource (h : s.Alike t) (fuel : Nat) (src : Source) (kind : ModuleKind) :
    (t.runSource fuel src kind).1 = (s.runSource fuel src kind).1 ∧
      (s.runSource fuel src kind).2.Alike (t.runSource fuel src kind).2 := by
  obtain ⟨houtcome, _, hevaluated⟩ := h.eval fuel src kind
  unfold Session.runSource
  cases hs : s.eval fuel src kind with
  | mk outcome s₁ =>
      cases ht : t.eval fuel src kind with
      | mk outcome' t₁ =>
          rw [hs, ht] at houtcome hevaluated
          obtain rfl : outcome' = outcome := houtcome
          cases outcome' with
          | ok _ => exact ⟨rfl, hevaluated⟩
          | error failure =>
              have hwritten : Alike s₁ t₁ := hevaluated
              exact ⟨rfl, hwritten.writeIf true true (fun _ => failure.report)
                fun _ => failure.report⟩

/-- A request comes to the same in both sessions. -/
theorem Alike.perform (h : s.Alike t) (fuel : Nat) (request : Request) :
    (t.perform fuel request).1 = (s.perform fuel request).1 ∧
      request.shows t fuel = request.shows s fuel ∧
      (s.perform fuel request).2.Alike (t.perform fuel request).2 := by
  have hsource : ∀ src kind, (t.runSource fuel src kind).1 = (s.runSource fuel src kind).1 ∧
      t.shows fuel src kind = s.shows fuel src kind ∧
      (s.runSource fuel src kind).2.Alike (t.runSource fuel src kind).2 := fun src kind =>
    ⟨(h.runSource fuel src kind).1, (h.eval fuel src kind).2.1, (h.runSource fuel src kind).2⟩
  cases request with
  | line text => exact hsource _ _
  | eval src kind => exact h.eval fuel src kind
  | run src kind => exact hsource src kind
  | file host uri =>
      simp only [Session.perform, Session.runFile, Request.shows, Request.text?]
      cases host.read uri with
      | ok src => exact hsource src .sourceFile
      | error message =>
          exact ⟨rfl, rfl, h.writeIf true true (fun _ => message) fun _ => message⟩

theorem Alike.after (h : s.Alike t) (history : List (Request × Nat)) :
    (s.after history).Alike (t.after history) := by
  induction history generalizing s t with
  | nil => exact h
  | cons step history ih =>
      obtain ⟨request, fuel⟩ := step
      exact ih (h.perform fuel request).2.2

theorem alike_new (logging : Bool) (clock : Clock) {options options' : Options}
    (h : options.Agrees options') :
    (new options logging clock).Alike (new options' logging clock) :=
  ⟨h, rfl, rfl, rfl, rfl, rfl⟩

/-! ## What the options about output do -/

/-- What is not asked for is not dumped. -/
theorem dumps_eq_nil {options : Options} (htokens : options.printTokens = false)
    (htree : options.printTree = false) (hlocals : options.printLocals = false) (lastId : Nat)
    (request : Request) : request.dumps options lastId = [] := by
  unfold Request.dumps
  split
  next src kind _ =>
    unfold dumps
    rw [htokens, htree, hlocals]
    dsimp only
    split
    · rfl
    · split
      · rfl
      · split <;> rfl
  next => rfl

theorem dumps_plain (options : Options) (lastId : Nat) (request : Request) :
    request.dumps options.plain lastId = [] :=
  dumps_eq_nil rfl rfl rfl lastId request

/-- In sessions whose options differ only in what they say about output, every request has
the same outcome and leaves the same store, depths and last node number, and the same log.
Its lines are the dumps that are asked for, then what the session with plain options
writes, less what print statements show if these are to be silent. -/
theorem output_options_only_output (options options' : Options)
    (hplain : options'.plain = options.plain) (logging : Bool) (clock : Clock)
    (history : List (Request × Nat)) (request : Request) (fuel : Nat) :
    let s := (new options logging clock).after history
    let t := (new options' logging clock).after history
    let p := (new options.plain logging clock).after history
    ((t.perform fuel request).1 = (s.perform fuel request).1 ∧
      (t.perform fuel request).2.store = (s.perform fuel request).2.store ∧
      (t.perform fuel request).2.depths = (s.perform fuel request).2.depths ∧
      (t.perform fuel request).2.lastId = (s.perform fuel request).2.lastId ∧
      records (t.perform fuel request).2.trace = records (s.perform fuel request).2.trace) ∧
    p.newLines fuel request =
      request.shows p fuel ++ request.reports (p.perform fuel request).1 ∧
    s.newLines fuel request =
      request.dumps options p.lastId ++ options.written (request.shows p fuel) ++
        request.reports (p.perform fuel request).1 := by
  intro s t p
  have hunder := congrArg Options.allowUnderApplication hplain
  have hover := congrArg Options.allowOverApplication hplain
  have hagrees : options.plain.Agrees options := ⟨rfl, rfl⟩
  have hagrees' : options.plain.Agrees options' := ⟨hunder, hover⟩
  have hs : p.Alike s := (alike_new logging clock hagrees).after history
  have ht : p.Alike t := (alike_new logging clock hagrees').after history
  obtain ⟨houtcome, hshows, hnext⟩ := hs.perform fuel request
  obtain ⟨houtcome', _, hnext'⟩ := ht.perform fuel request
  refine ⟨⟨houtcome'.trans houtcome.symm, hnext'.store.trans hnext.store.symm,
    hnext'.depths.trans hnext.depths.symm, hnext'.lastId.trans hnext.lastId.symm,
    hnext'.records.trans hnext.records.symm⟩, ?_, ?_⟩
  · have hoptions : p.options = options.plain := (shares_after _ history).options
    rw [newLines_eq, hoptions, dumps_plain, List.nil_append]
    rfl
  · have hoptions : s.options = options := (shares_after _ history).options
    rw [newLines_eq, hoptions, hs.lastId, hshows, houtcome]

/-- Options that ask for the tokens and silence print statements. -/
def silent : Options := { printTokens := true, disablePrint := true }

/-- A text that prints and then fails, after a line that declares what is printed. -/
def halfway : List (Request × Nat) × Source :=
  ([(.line (utf8 "var a = 1;"), 20)], Source.ofSnippet (utf8 "print a; b;"))

/-- The silent session shows the tokens and the failure, the other one what is printed and
the failure. -/
theorem output_options_only_output_silent : ∃ report,
    ((new {} false).after halfway.1).newLines 40 (.run halfway.2 .replLine) =
        [utf8 "1", report] ∧
      ((new silent false).after halfway.1).newLines 40 (.run halfway.2 .replLine) =
        [Token.dump (Token.scan halfway.2).1, report] := by
  have hplain : silent.plain = {} := rfl
  obtain ⟨_, hlines, hsilent⟩ := output_options_only_output silent {} hplain.symm false (.still 0)
    halfway.1 (.run halfway.2 .replLine) 40
  rw [hplain] at hlines hsilent
  have hshows : (Request.run halfway.2 .replLine).shows ((new {} false).after halfway.1) 40 =
      [utf8 "1"] := by
    decide +kernel
  have hdumps : (Request.run halfway.2 .replLine).dumps silent
      ((new {} false).after halfway.1).lastId = [Token.dump (Token.scan halfway.2).1] := by
    decide +kernel
  have hreports : ((Request.run halfway.2 .replLine).reports
      (((new {} false).after halfway.1).perform 40 (.run halfway.2 .replLine)).1).length = 1 := by
    decide +kernel
  obtain ⟨report, hreport⟩ := List.length_eq_one_iff.mp hreports
  rw [hshows, hreport] at hlines hsilent
  rw [hdumps] at hsilent
  exact ⟨report, hlines, hsilent⟩

end Session

end LoxMachine
