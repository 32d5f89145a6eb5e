import LoxMachine.Proofs.Machine.Outcomes
import LoxMachine.Proofs.Machine.Printing
import LoxMachine.Proofs.Session.Owners

/-!
# Protected calls

A protected call makes the call without arguments and tells whether it came to a value.  What
the call has done to the store and what it has printed stay, but an error goes no further.
-/

namespace LoxMachine

variable {set : Setting} {s t u : State} {range : Range} {f v : Value} {ref : Nat}

/-- The machine about to call the value without arguments. -/
def State.calling (s : State) (range : Range) (f : Value) : State :=
  { s with control := .call range f [] }

/-- The second state tells of the outcome in the first: `true` of a value, `false` of an error.
It is as the first one left the store and what has been printed. -/
structure State.Contains (u t : State) : Prop where
  outcome : ∃ b, t.control = .value (.bool b) ∧ (b = true ↔ ∃ v, u.control = .value v) ∧
    (b = false ↔ ∃ e, u.control = .failing e)
  store : t.store = u.store
  lines : Session.lines t.trace = Session.lines u.trace

theorem State.contains_value (hu : u.control = .value v) (ht : t.control = .value (.bool true))
    (hstore : t.store = u.store) (hlines : Session.lines t.trace = Session.lines u.trace) :
    u.Contains t := by
  refine ⟨⟨true, ht, ⟨fun _ => ⟨v, hu⟩, fun _ => rfl⟩, nofun, ?_⟩, hstore, hlines⟩
  rintro ⟨e, he⟩
  cases hu.symm.trans he

theorem State.contains_failing {e : RuntimeError} (hu : u.control = .failing e)
    (ht : t.control = .value (.bool false)) (hstore : t.store = u.store)
    (hlines : Session.lines t.trace = Session.lines u.trace) : u.Contains t := by
  refine ⟨⟨false, ht, ⟨nofun, ?_⟩, fun _ => ⟨e, hu⟩, fun _ => rfl⟩, hstore, hlines⟩
  rintro ⟨v, hv⟩
  cases hu.symm.trans hv

/-- The frame of a protected call takes the value or the error that the call has come to. -/
theorem next_protect (hthrough : u.Through)
    (houtcome : (∃ v, u.control = .value v) ∨ ∃ e, u.control = .failing e) :
    ∃ t, advance set (u.onto [.protect]) = .next t ∧ t.Through ∧ ∀ waiting,
      (u.onto waiting).Contains (t.onto waiting) := by
  obtain ⟨control, frames, env, depth, store, trace⟩ := u
  obtain rfl : frames = [] := hthrough.1
  obtain ⟨v, hcontrol⟩ | ⟨e, hcontrol⟩ := houtcome
  · obtain rfl : control = _ := hcontrol
    exact ⟨_, rfl, ⟨rfl, trivial⟩, fun waiting => State.contains_value rfl rfl rfl rfl⟩
  · obtain rfl : control = _ := hcontrol
    refine ⟨_, rfl, ⟨log_frames _ _ _, trivial⟩, fun waiting => ?_⟩
    exact State.contains_failing rfl rfl (log_store _ _ _) (State.lines_log _ _ _)

/-- A protected call begins with the call that it protects. -/
theorem next_pcall (hcontrol : s.control = .call range (.native ref) [f])
    (hnative : s.store.natives[ref]? = some ⟨utf8 "pcall", 1⟩) (hf : f.isCallable = true) :
    advance set s = .next { s.calling range f with frames := .protect :: s.frames } := by
  have hclock : ¬ utf8 "pcall" = utf8 "clock" := by decide
  have harity : ∀ callee, State.arityCause? false false 1 [f].length callee = none := fun _ => rfl
  simp only [advance, hcontrol, State.callValue, State.callNative, hnative, harity,
    if_neg hclock, if_pos hf]
  rfl

/-- In every state, and whatever value it is given that can be called: as soon as the call of
the value comes to an outcome, the protected call comes to `true` if that is a value and to
`false` if it is an error, with the store and the lines as the call left them, and in the
environment and with the number of active calls it began with.  It comes to nothing else. -/
theorem pcall_contains (set : Setting) (s : State) {range : Range} {ref : Nat} {f : Value}
    (hcontrol : s.control = .call range (.native ref) [f])
    (hnative : s.store.natives[ref]? = some ⟨utf8 "pcall", 1⟩) (hf : f.isCallable = true) :
    (∀ u, Concludes set s.frames (s.calling range f) u → ∃ t, Concludes set s.frames s t ∧
      u.Contains t ∧ t.env = s.env ∧ t.depth = s.depth) ∧
    ∀ t, Concludes set s.frames s t → ∃ u, Concludes set s.frames (s.calling range f) u ∧
      u.Contains t ∧ t.env = s.env ∧ t.depth = s.depth := by
  let own : State := { s.calling range f with frames := [] }
  let outer : State := { s with frames := [] }
  have houter : s = outer.onto s.frames := rfl
  have hown : s.calling range f = own.onto s.frames := rfl
  have hfirst : advance set outer = .next (own.onto [.protect]) :=
    @next_pcall set outer range f ref hcontrol hnative hf
  have hcalling : own.Calling := .call rfl rfl
  have hbegins : s.Begins s.frames := .call hcontrol
  have hrestores : ∀ {t}, Concludes set s.frames s t → t.env = s.env ∧ t.depth = s.depth :=
    fun ht => ht.restores hbegins
  constructor
  · intro u hu
    rw [hown] at hu
    obtain ⟨v, hv, hthrough, rfl⟩ := concludes_onto_iff.mp hu
    obtain ⟨w, hnext, hend, hcontains⟩ := @next_protect set v hthrough
      ((hcalling.reaches hv).outcome hthrough)
    have hconcludes : Concludes set s.frames s (w.onto s.frames) := by
      rw [houter]
      exact (concludes_await_iff hfirst).mpr ⟨v, w, hv, hthrough, .of_next hnext, hend, rfl⟩
    exact ⟨w.onto s.frames, hconcludes, hcontains s.frames, hrestores hconcludes⟩
  · intro t ht
    have hback := hrestores ht
    rw [houter] at ht
    obtain ⟨v, w, hv, hthrough, hrest, hend, rfl⟩ := (concludes_await_iff hfirst).mp ht
    obtain ⟨x, hnext, hx, hcontains⟩ := @next_protect set v hthrough
      ((hcalling.reaches hv).outcome hthrough)
    obtain rfl : x = w := Reaches.eq_of_through (.of_next hnext) hx hrest hend
    refine ⟨v.onto s.frames, ?_, hcontains s.frames, hback⟩
    rw [hown]
    exact concludes_onto_iff.mpr ⟨v, hv, hthrough, rfl⟩

namespace Session

/-- A function that prints a line and fails, in a protected call. -/
def failingCallee : Source :=
  Source.ofSnippet (utf8 "fun f() { print 1; -true; } pcall(f);")

/-- The machine is about to make a protected call of something that fails after as many steps. -/
def protectsFailing (set : Setting) (n : Nat) (s : State) : Bool :=
  match s.control with
  | .call range (.native ref) [f] =>
      decide (s.store.natives[ref]? = some ⟨utf8 "pcall", 1⟩) && f.isCallable &&
        (s.calling range f).failsAfter set n
  | _ => false

theorem exists_of_protectsFailing {n : Nat} (h : protectsFailing set n s = true) :
    ∃ range ref f, s.control = .call range (.native ref) [f] ∧
      s.store.natives[ref]? = some ⟨utf8 "pcall", 1⟩ ∧ f.isCallable = true ∧
      ∃ u, Concludes set s.frames (s.calling range f) u ∧ ∃ e, u.control = .failing e := by
  unfold protectsFailing at h
  split at h
  next range ref f hcontrol =>
    obtain ⟨hcallee, hfails⟩ := Bool.and_eq_true_iff.mp h
    obtain ⟨hnative, hcallable⟩ := Bool.and_eq_true_iff.mp hcallee
    exact ⟨range, ref, f, hcontrol, of_decide_eq_true hnative, hcallable,
      State.exists_concludes_of_failsAfter hfails⟩
  next => cases h

theorem pcall_contains_failing : ∃ set s range ref f u t,
    (new {} false).moment 9 failingCallee .replLine = some (set, s) ∧
    s.control = .call range (.native ref) [f] ∧
    s.store.natives[ref]? = some ⟨utf8 "pcall", 1⟩ ∧ f.isCallable = true ∧
    Concludes set s.frames (s.calling range f) u ∧ (∃ e, u.control = .failing e) ∧
    Concludes set s.frames s t ∧ u.Contains t ∧ t.env = s.env ∧ t.depth = s.depth := by
  have hsome : (((new {} false).moment 9 failingCallee .replLine).any fun m =>
      protectsFailing m.1 14 m.2) = true := by
    decide +kernel
  obtain ⟨⟨set, s⟩, hmoment, hprotects⟩ := (Option.any_eq_true _ _).mp hsome
  obtain ⟨range, ref, f, hcontrol, hnative, hf, u, hu, hfails⟩ := exists_of_protectsFailing hprotects
  obtain ⟨t, ht, hcontains, henv, hdepth⟩ :=
    (pcall_contains set s hcontrol hnative hf).1 u hu
  exact ⟨set, s, range, ref, f, u, t, hmoment, hcontrol, hnative, hf, hu, hfails, ht, hcontains,
    henv, hdepth⟩

end Session

end LoxMachine
