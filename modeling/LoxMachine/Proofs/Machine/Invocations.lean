import LoxMachine.Proofs.Machine.Outcomes

/-!
# Calls of functions

A function is called as a value or, as an initializer, with its class.  The call comes to a
value when the body comes to its end or to a return, and the frame of the call makes the
value of it.
-/

namespace LoxMachine

/-- The machine is about to call a function, in that store once the body is entered, and these
frames wait for the outcome. -/
inductive State.Invokes (s : State) : Closure → Store → List Frame → Prop where
  | function {range ref args c} (hcontrol : s.control = .call range (.function ref) args)
      (hclosure : s.store.functions[ref]? = some c) :
      Invokes s c (storeCall s.store c args) s.frames
  | initializer {range cls args init} (hcontrol : s.control = .call range (.classRef cls) args)
      (hinit : s.store.method? cls (utf8 "init") = some init) :
      Invokes s ⟨init.decl, s.store.envs.size⟩
        (storeCall ((s.store.newInstance cls).2.bindMethod init s.store.instances.size).2
          ⟨init.decl, s.store.envs.size⟩ args)
        (.construct s.store.instances.size :: s.frames)

variable {set : Setting} {s t u w : State} {c : Closure} {st : Store} {waiting : List Frame}
  {saved : Nat} {v : Value}

namespace State

theorem Invokes.begins (h : s.Invokes c st waiting) : s.Begins waiting := by
  cases h with
  | function hcontrol => exact .call hcontrol
  | initializer hcontrol hinit => exact .initializer hcontrol hinit

/-- The body of a function runs, with nothing of its own that waits. -/
structure Runs (b : State) (c : Closure) (st : Store) : Prop where
  control : b.control = .run c.decl.body
  frames : b.frames = []
  store : b.store = st

/-- A call is refused, or runs the body above the frame that ends it. -/
theorem Invokes.next (h : s.Invokes c st waiting) (hstep : advance set s = .next t) :
    (∃ e, t.control = .failing e ∧ t.frames = waiting) ∨
      ∃ b : State, b.Runs c st ∧ t = b.onto (.activation s.env c :: waiting) := by
  have hentered : ∀ {x : State} {range : Range} {args : List Value},
      x.enter set range c args = .next t → x.env = s.env → x.frames = waiting →
      st = storeCall x.store c args →
      (∃ e, t.control = .failing e ∧ t.frames = waiting) ∨
        ∃ b : State, b.Runs c st ∧ t = b.onto (.activation s.env c :: waiting) := by
    intro x range args henter henv hwaiting hst
    rcases next_enter henter with ⟨e, hcontrol, hframes⟩ | ⟨hframes, hcontrol, hstore⟩
    · exact .inl ⟨e, hcontrol, hframes.trans hwaiting⟩
    · refine .inr ⟨{ t with frames := [] }, ⟨hcontrol, rfl, hstore.trans hst.symm⟩, ?_⟩
      rw [henv, hwaiting] at hframes
      rw [onto, List.nil_append, ← hframes]
  obtain ⟨control, frames, env, depth, store, trace⟩ := s
  cases h with
  | function hcontrol hclosure =>
      obtain rfl : control = _ := hcontrol
      simp only [advance, callValue, hclosure] at hstep
      exact hentered hstep rfl rfl rfl
  | @initializer _ cls _ init hcontrol hinit =>
      obtain rfl : control = _ := hcontrol
      have hinit : (store.newInstance cls).2.method? cls (utf8 "init") = some init :=
        (store.method?_newInstance cls cls (utf8 "init")).trans hinit
      simp only [advance, callValue, instantiate, hinit] at hstep
      exact hentered hstep rfl rfl rfl

end State

/-- What the body has come to, with the value that the call is left with. -/
inductive State.Gave : State → Value → Prop where
  | done {u : State} (hcontrol : u.control = .done) : Gave u .nil
  | returning {u : State} {r} (hcontrol : u.control = .returning r) : Gave u r

/-- The frame of a call makes a value of the end of its body and of a return. -/
theorem gave_of_next (hthrough : u.Through)
    (hstep : advance set (u.onto [.activation saved c]) = .next w) (hvalue : w.control = .value v) :
    ∃ r, u.Gave r ∧ u.leave saved c r = .next w := by
  obtain ⟨control, frames, env, depth, store, trace⟩ := u
  obtain ⟨hframes, houtcome⟩ := hthrough
  obtain rfl : frames = [] := hframes
  cases control with
  | value => cases hstep
  | done => exact ⟨.nil, .done rfl, hstep⟩
  | returning r => exact ⟨r, .returning rfl, hstep⟩
  | failing e =>
      cases hstep
      cases hvalue
  | _ => exact houtcome.elim

/-- A call that comes to a value has run the body, and its frame has made the value. -/
theorem State.Invokes.concludes_value (h : s.Invokes c st waiting)
    (hconcludes : Concludes set waiting s t) (hvalue : t.control = .value v) :
    ∃ b u w r, b.Runs c st ∧ advance set s = .next (b.onto (.activation s.env c :: waiting)) ∧
      Reaches set b u ∧ u.Through ∧ u.Gave r ∧ u.leave s.env c r = .next w ∧
      t = w.onto waiting := by
  have hlasts : ¬ s.Hands waiting := fun hhands => h.begins.not_isOutcome hhands.2
  cases hstep : advance set s with
  | halt ending x =>
      obtain ⟨n, hrun, hhands, _⟩ := hconcludes
      cases n with
      | zero =>
          cases hrun
          exact absurd hhands hlasts
      | succ n =>
          rw [run, hstep] at hrun
          cases hrun
  | next x =>
      rw [concludes_step_iff hstep hlasts] at hconcludes
      rcases h.next hstep with ⟨e, hcontrol, hframes⟩ | ⟨b, hruns, rfl⟩
      · -- A call that is refused is over.
        have hx : x = State.onto { x with frames := [] } waiting := by
          rw [State.onto, List.nil_append, ← hframes]
        rw [hx, concludes_onto_iff] at hconcludes
        obtain ⟨w, hw, _, rfl⟩ := hconcludes
        have hthrough : State.Through { x with frames := [] } := ⟨rfl, by rw [hcontrol]; trivial⟩
        obtain ⟨ending, hhalt⟩ := hthrough.halts set
        rw [← hw.eq_of_halt hhalt] at hvalue
        cases hcontrol.symm.trans hvalue
      · rw [← List.singleton_append, ← State.onto_onto, concludes_onto_iff] at hconcludes
        obtain ⟨w, hw, hend, rfl⟩ := hconcludes
        rcases hw.of_onto with ⟨x, _, rfl⟩ | ⟨u, hu, hthrough, hrest⟩
        · exact absurd hend.1 (List.append_ne_nil_of_right_ne_nil _ (List.cons_ne_nil _ _))
        · have hnext := next_of_pending .activation hthrough hrest hend
          obtain ⟨r, hgave, hleave⟩ := gave_of_next hthrough hnext hvalue
          exact ⟨b, u, w, r, hruns, rfl, hu, hthrough, hgave, hleave, rfl⟩

end LoxMachine
