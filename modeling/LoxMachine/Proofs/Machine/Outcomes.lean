import LoxMachine.Proofs.Machine.Activations

/-!
# Outcomes of calls

A call comes to a value or to an error, whatever its callee is.  Its body may come to its end
or to a return, but neither gets past the frame of the call.
-/

namespace LoxMachine

/-- The frames of a call that wait for another one. -/
inductive Frame.Relays : Frame → Prop where
  | construct {object} : Relays (.construct object)
  | protect : Relays .protect

/-- A call with nothing that waits for it: it is still to be made, has come to a value or to an
error, or lasts.  While it lasts its lowest frame is the frame of the body, or one that waits
for another call. -/
inductive State.Calling : State → Prop where
  | call {s : State} {range f args} (hframes : s.frames = [])
      (hcontrol : s.control = .call range f args) : Calling s
  | value {s : State} {v} (hframes : s.frames = []) (hcontrol : s.control = .value v) : Calling s
  | failing {s : State} {e} (hframes : s.frames = []) (hcontrol : s.control = .failing e) :
      Calling s
  | body {v : State} {saved c} : Calling (v.onto [.activation saved c])
  | relay {v : State} {frame : Frame} (hframe : frame.Relays) (h : Calling v) :
      Calling (v.onto [frame])

/-- A step leads, if it leads on, to a state in which the call lasts or is over. -/
def Progress.Calling : Progress → Prop
  | .next s => s.Calling
  | .halt _ _ => True

variable {set : Setting} {s t u v : State} {range : Range} {f : Value} {args : List Value}

namespace State

theorem Calling.outcome (h : s.Calling) (hthrough : s.Through) :
    (∃ v, s.control = .value v) ∨ ∃ e, s.control = .failing e := by
  cases h with
  | call _ hcontrol =>
      have houtcome := hthrough.2
      rw [hcontrol] at houtcome
      exact houtcome.elim
  | value _ hcontrol => exact .inl ⟨_, hcontrol⟩
  | failing _ hcontrol => exact .inr ⟨_, hcontrol⟩
  | body | relay =>
      exact absurd hthrough.1 (List.append_ne_nil_of_right_ne_nil _ (List.cons_ne_nil _ _))

theorem onto_nil (s : State) : s.onto [] = s := by
  rw [onto, List.append_nil]

/-! ## Calls -/

theorem exists_calling_enter (s : State) (range : Range) (c : Closure) (args : List Value) :
    ∃ v : State, s.enter set range c args = .next (v.onto s.frames) ∧ v.Calling := by
  obtain ⟨v, hv⟩ := @exists_enter set s range c args
  refine ⟨v, hv, ?_⟩
  rcases next_enter hv with ⟨e, hcontrol, hframes⟩ | ⟨hframes, _⟩
  · exact .failing (List.append_left_eq_self.mp hframes) hcontrol
  · rw [← List.singleton_append, onto] at hframes
    have hbody : v.frames = [.activation s.env c] := List.append_cancel_right hframes
    have honto : v = onto { v with frames := [] } [.activation s.env c] := by
      rw [onto, List.nil_append, ← hbody]
    rw [honto]
    exact .body

theorem calling_callNative (hframes : s.frames = []) (range : Range) (ref : Nat)
    (args : List Value) : (s.callNative range ref args).Calling := by
  unfold callNative
  split
  · trivial
  · split
    · exact .failing hframes rfl
    · split
      · exact .value hframes rfl
      · split
        · split
          · split
            next =>
              rw [await, hframes]
              exact @Calling.relay ⟨_, [], _, _, _, _⟩ _ .protect (.call rfl rfl)
            next => exact .failing hframes rfl
          · trivial
        · trivial

theorem calling_callValue (hframes : s.frames = []) (range : Range) (f : Value)
    (args : List Value) : (s.callValue set range f args).Calling := by
  cases f with
  | function ref =>
      unfold callValue
      dsimp only
      split
      next c _ =>
        obtain ⟨v, hv, hcalling⟩ := @exists_calling_enter set s range c args
        rw [hv, hframes, onto_nil]
        exact hcalling
      next => trivial
  | native ref => exact calling_callNative hframes range ref args
  | classRef cls =>
      unfold callValue instantiate
      dsimp only
      split
      next =>
        obtain ⟨v, hv, hcalling⟩ := @exists_calling_enter set { s with
          store := _, frames := .construct (s.store.newInstance cls).1 :: s.frames } range _ args
        rw [hv, hframes]
        exact .relay .construct hcalling
      next =>
        split
        · exact .failing hframes rfl
        · exact .value hframes rfl
  | _ => exact .failing hframes rfl

theorem calling_leave (hframes : s.frames = []) (saved : Nat) (c : Closure) (v : Value) :
    (s.leave saved c v).Calling := by
  unfold leave
  dsimp only
  split
  · split
    · exact .value hframes rfl
    · trivial
  · exact .value hframes rfl

/-- What the body of a call comes to ends the call. -/
theorem calling_activation (h : v.Through) (saved : Nat) (c : Closure) :
    (LoxMachine.advance set (v.onto [.activation saved c])).Calling := by
  obtain ⟨control, frames, env, depth, store, trace⟩ := v
  obtain ⟨hframes, houtcome⟩ := h
  obtain rfl : frames = [] := hframes
  cases control with
  | value v => trivial
  | done => exact calling_leave rfl _ _ _
  | returning v => exact calling_leave rfl _ _ _
  | failing e => exact .failing rfl rfl
  | _ => exact houtcome.elim

/-- A frame that waits for a call takes the value or the error that it comes to. -/
theorem calling_relay {frame : Frame} (hframe : frame.Relays) (h : v.Calling)
    (hthrough : v.Through) : (LoxMachine.advance set (v.onto [frame])).Calling := by
  have houtcome := h.outcome hthrough
  obtain ⟨control, frames, env, depth, store, trace⟩ := v
  obtain rfl : frames = [] := hthrough.1
  obtain ⟨w, hcontrol⟩ | ⟨e, hcontrol⟩ := houtcome
  · obtain rfl : control = _ := hcontrol
    cases hframe <;> exact .value rfl rfl
  · obtain rfl : control = _ := hcontrol
    cases hframe with
    | construct => exact .failing rfl rfl
    | protect => exact .value (log_frames _ _ _) rfl

/-- Every step of a call leads on with it or ends it. -/
theorem Calling.advance (h : s.Calling) : (LoxMachine.advance set s).Calling := by
  induction h with
  | @call s range f args hframes hcontrol =>
      rw [LoxMachine.advance, hcontrol]
      exact calling_callValue hframes range f args
  | @value s v hframes hcontrol =>
      have hthrough : s.Through := ⟨hframes, by rw [hcontrol]; trivial⟩
      obtain ⟨ending, hhalt⟩ := hthrough.halts set
      rw [hhalt]
      trivial
  | @failing s e hframes hcontrol =>
      have hthrough : s.Through := ⟨hframes, by rw [hcontrol]; trivial⟩
      obtain ⟨ending, hhalt⟩ := hthrough.halts set
      rw [hhalt]
      trivial
  | @body v saved c =>
      by_cases hleaves : v.Leaves ⟨fun r => r, [], [.activation saved c], #[]⟩
      · exact calling_activation (through_of_leaves hleaves) saved c
      · rw [advance_onto set hleaves]
        cases LoxMachine.advance set v with
        | next w => exact .body
        | halt => trivial
  | @relay v frame hframe h ih =>
      by_cases hleaves : v.Leaves ⟨fun r => r, [], [frame], #[]⟩
      · exact calling_relay hframe h (through_of_leaves hleaves)
      · rw [advance_onto set hleaves]
        cases hstep : LoxMachine.advance set v with
        | next w =>
            rw [hstep] at ih
            exact .relay hframe ih
        | halt => trivial

theorem Calling.reaches (h : s.Calling) (hreaches : Reaches set s t) : t.Calling := by
  refine hreaches.preserves (fun {u w} hu hstep => ?_) h
  have hnext : (LoxMachine.advance set u).Calling := hu.advance
  rw [hstep] at hnext
  exact hnext

end State

end LoxMachine
