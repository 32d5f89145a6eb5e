import LoxMachine.Proofs.Machine.Whereabouts
import LoxMachine.Proofs.Placing.Lockstep

/-!
# Arguments

A call evaluates its callee and then its arguments from left to right, whatever waits for
it.  What a function is entered with is bound to its parameters in that order.
-/

namespace LoxMachine

/-- The machine comes from one state to the other. -/
def Reaches (set : Setting) (s t : State) : Prop :=
  ∃ n, run set n s = (none, t)

namespace State

/-- The machine with nothing that waits for it. -/
def alone (s : State) (control : Control) : State :=
  { s with control := control, frames := [] }

/-- The machine with more frames below its own. -/
def onto (s : State) (below : List Frame) : State :=
  { s with frames := s.frames ++ below }

end State

/-- What the machine is about to do alone does not tell two states apart. -/
theorem State.alone_congr {s t : State} {c d : Control} (h : s.alone c = t.alone d)
    (control : Control) : s.alone control = t.alone control := by
  have heq := congrArg (fun x => State.alone x control) h
  exact heq

/-- Evaluating the expression on its own yields the value. -/
def Yields (set : Setting) (s : State) (e : Expr) (v : Value) (t : State) : Prop :=
  Reaches set (s.alone (.eval e)) (t.alone (.value v))

/-- Evaluating the expressions one after another yields the values. -/
def YieldsAll (set : Setting) : State → List Expr → List Value → State → Prop
  | s, [], [], t => t.alone .done = s.alone .done
  | s, e :: es, v :: vs, t => ∃ u, Yields set s e v u ∧ YieldsAll set u es vs t
  | _, _, _, _ => False

variable {set : Setting} {s t u : State} {below : List Frame}

/-! ## Reaching states -/

theorem Reaches.refl (set : Setting) (s : State) : Reaches set s s :=
  ⟨0, rfl⟩

theorem Reaches.trans (h : Reaches set s t) (h' : Reaches set t u) : Reaches set s u := by
  obtain ⟨m, hm⟩ := h
  obtain ⟨n, hn⟩ := h'
  exact ⟨m + n, (run_add hm n).trans hn⟩

theorem Reaches.of_next (hstep : advance set s = .next t) : Reaches set s t :=
  ⟨1, run_of_next hstep 0⟩

/-- What every step preserves holds of all that is reached. -/
theorem Reaches.preserves {P : State → Prop}
    (hstep : ∀ {s t}, P s → advance set s = .next t → P t) (h : Reaches set s t) (hs : P s) :
    P t := by
  obtain ⟨n, hrun⟩ := h
  induction n generalizing s with
  | zero =>
      cases hrun
      exact hs
  | succ n ih =>
      obtain ⟨u, hnext, hrest⟩ := exists_next_of_run hrun
      exact ih (hstep hs hnext) hrest

/-- A state that is not yet the one to reach reaches it exactly if the next one does. -/
theorem reaches_step (hstep : advance set s = .next t) (hne : s ≠ u) :
    Reaches set s u ↔ Reaches set t u := by
  constructor
  · rintro ⟨n, hn⟩
    cases n with
    | zero => exact absurd (congrArg Prod.snd hn) hne
    | succ n => exact ⟨n, (run_of_next hstep n).symm.trans hn⟩
  · rintro ⟨n, hn⟩
    exact ⟨n + 1, (run_of_next hstep n).trans hn⟩

/-- A machine that stops reaches nothing but where it is. -/
theorem Reaches.eq_of_halt {ending : Ending} (h : Reaches set s u)
    (hstep : advance set s = .halt ending t) : s = u := by
  obtain ⟨n, hn⟩ := h
  cases n with
  | zero => exact congrArg Prod.snd hn
  | succ n =>
      obtain ⟨u, hnext, _⟩ := exists_next_of_run hn
      cases hstep.symm.trans hnext

/-! ## Frames below -/

theorem onto_eq_within (s : State) (below : List Frame) :
    s.onto below = s.within ⟨fun r => r, [], below, #[]⟩ := by
  rw [State.within_id, Array.empty_append]
  rfl

/-- A step of its own is the same with more frames below. -/
theorem advance_onto (set : Setting) (hleaves : ¬ s.Leaves ⟨fun r => r, [], below, #[]⟩) :
    advance set (s.onto below) =
      match advance set s with
      | .next t => .next (t.onto below)
      | .halt ending t => .halt ending (t.onto below) := by
  rw [onto_eq_within, advance_within Range.keeps_id (set.serves_refl _) hleaves]
  cases advance set s with
  | next t => exact congrArg Progress.next (onto_eq_within t below).symm
  | halt ending t =>
      rw [Progress.within, ending.place_id, ← onto_eq_within]

/-- An outcome for which no frame of the machine's own waits. -/
def State.Through (s : State) : Prop :=
  s.frames = [] ∧ match s.control with
    | .value _ | .done | .returning _ | .failing _ => True
    | _ => False

theorem State.through_of_leaves (h : s.Leaves ⟨fun r => r, [], below, #[]⟩) : s.Through := by
  unfold Leaves at h
  split at h
  next => exact absurd rfl h
  next hcontrol hframes => exact ⟨hframes, by rw [hcontrol]; trivial⟩
  next hcontrol hframes => exact ⟨hframes, by rw [hcontrol]; trivial⟩
  next hcontrol hframes => exact ⟨hframes, by rw [hcontrol]; trivial⟩
  next hcontrol hframes => exact ⟨hframes, by rw [hcontrol]; trivial⟩
  next => exact h.elim

/-- On its own, a machine that is through stops. -/
theorem State.Through.halts (set : Setting) (h : s.Through) : ∃ ending, advance set s = .halt ending s := by
  obtain ⟨control, frames, env, depth, store, trace⟩ := s
  obtain ⟨hframes, houtcome⟩ := h
  obtain rfl : frames = [] := hframes
  cases control with
  | value v => exact ⟨_, rfl⟩
  | done => exact ⟨_, rfl⟩
  | returning v => exact ⟨_, rfl⟩
  | failing e => exact ⟨_, rfl⟩
  | _ => exact houtcome.elim

/-- A run of the machine on its own is the same with more frames below. -/
theorem run_onto {n : Nat} (hrun : run set n s = (none, t)) (below : List Frame) :
    run set n (s.onto below) = (none, t.onto below) := by
  induction n generalizing s with
  | zero =>
      cases hrun
      rfl
  | succ n ih =>
      obtain ⟨s', hstep, hrest⟩ := exists_next_of_run hrun
      have hleaves : ¬ s.Leaves ⟨fun r => r, [], below, #[]⟩ := by
        intro hleaves
        obtain ⟨ending, hhalt⟩ := (State.through_of_leaves hleaves).halts set
        cases hstep.symm.trans hhalt
      rw [run, advance_onto set hleaves, hstep]
      exact ih hrest

/-- What a machine reaches on its own it reaches with more frames below. -/
theorem Reaches.onto (h : Reaches set s t) (below : List Frame) :
    Reaches set (s.onto below) (t.onto below) := by
  obtain ⟨n, hn⟩ := h
  exact ⟨n, run_onto hn below⟩

/-- A machine with frames below either is still at its own or has been through. -/
theorem Reaches.of_onto (h : Reaches set (s.onto below) u) :
    (∃ t, Reaches set s t ∧ u = t.onto below) ∨
      ∃ t, Reaches set s t ∧ t.Through ∧ Reaches set (t.onto below) u := by
  obtain ⟨n, hn⟩ := h
  induction n generalizing s with
  | zero =>
      cases hn
      exact .inl ⟨s, Reaches.refl set s, rfl⟩
  | succ n ih =>
      by_cases hleaves : s.Leaves ⟨fun r => r, [], below, #[]⟩
      · exact .inr ⟨s, Reaches.refl set s, State.through_of_leaves hleaves, n + 1, hn⟩
      · rw [run, advance_onto set hleaves] at hn
        cases hstep : advance set s with
        | halt ending t =>
            rw [hstep] at hn
            cases hn
        | next s' =>
            rw [hstep] at hn
            have hfirst : Reaches set s s' := .of_next hstep
            rcases ih hn with ⟨t, ht, rfl⟩ | ⟨t, ht, hthrough, hrest⟩
            · exact .inl ⟨t, hfirst.trans ht, rfl⟩
            · exact .inr ⟨t, hfirst.trans ht, hthrough, hrest⟩

/-! ## Calls -/

/-- The frames that wait for the callee or for an argument of a call. -/
inductive Frame.Operand : Frame → Prop where
  | callee {args span} : Operand (.callee args span)
  | argument {f before rest span} : Operand (.argument f before rest span)

/-- Only a value gets past a frame that waits for an operand. -/
theorem reaches_operand {frame : Frame} (hframe : frame.Operand) {e : Expr} {span : Range}
    {f : Value} {vs : List Value} :
    Reaches set ((s.alone (.eval e)).onto [frame]) (t.alone (.call span f vs)) ↔
      ∃ u v, Yields set s e v u ∧
        Reaches set ((u.alone (.value v)).onto [frame]) (t.alone (.call span f vs)) := by
  constructor
  · intro h
    rcases h.of_onto with ⟨x, _, hx⟩ | ⟨x, hx, hthrough, hrest⟩
    · have hframes := congrArg State.frames hx
      exact absurd hframes.symm (List.append_ne_nil_of_right_ne_nil _ (List.cons_ne_nil _ _))
    · obtain ⟨control, frames, env, depth, store, trace⟩ := x
      obtain ⟨hframes, houtcome⟩ := hthrough
      obtain rfl : frames = [] := hframes
      cases control with
      | value v => exact ⟨⟨.value v, [], env, depth, store, trace⟩, v, hx, hrest⟩
      | done =>
          -- The frame cannot take this.
          have hhalt : ∃ ending state, advance set
              (State.onto ⟨.done, [], env, depth, store, trace⟩ [frame]) = .halt ending state := by
            cases hframe <;> exact ⟨_, _, rfl⟩
          obtain ⟨_, _, hhalt⟩ := hhalt
          cases hrest.eq_of_halt hhalt
      | returning v =>
          have hnext : advance set
              (State.onto ⟨.returning v, [], env, depth, store, trace⟩ [frame]) =
                .next ⟨.returning v, [], env, depth, store, trace⟩ := by
            cases hframe <;> rfl
          have hlast := (reaches_step hnext (by rintro ⟨⟩)).mp hrest
          cases hlast.eq_of_halt rfl
      | failing error =>
          have hnext : advance set
              (State.onto ⟨.failing error, [], env, depth, store, trace⟩ [frame]) =
                .next ⟨.failing error, [], env, depth, store, trace⟩ := by
            cases hframe <;> rfl
          have hlast := (reaches_step hnext (by rintro ⟨⟩)).mp hrest
          cases hlast.eq_of_halt rfl
      | _ => exact houtcome.elim
  · rintro ⟨u, v, hyields, hrest⟩
    exact (hyields.onto [frame]).trans hrest

/-- The frames that a call leaves behind while it lasts. -/
inductive Frame.Pending : Frame → Prop where
  | activation {saved closure} : Pending (.activation saved closure)
  | construct {object} : Pending (.construct object)
  | protect : Pending .protect

theorem State.Through.ne_call (h : s.Through) {range : Range} {f : Value} {vs : List Value} :
    s ≠ t.alone (.call range f vs) := by
  rintro rfl
  exact h.2

/-- A step that leads, if anywhere, to an outcome for which nothing waits. -/
def Progress.Ends : Progress → Prop
  | .next s => s.Through
  | .halt _ _ => True

theorem ends_leave (hframes : s.frames = []) (saved : Nat) (c : Closure) (v : Value) :
    (s.leave saved c v).Ends := by
  unfold State.leave
  dsimp only
  split
  · split
    · exact ⟨hframes, trivial⟩
    · trivial
  · exact ⟨hframes, trivial⟩

/-- Whatever a call comes to is an outcome of the call. -/
theorem ends_of_pending (set : Setting) {frame : Frame} (hframe : frame.Pending) (h : s.Through) :
    (advance set (s.onto [frame])).Ends := by
  obtain ⟨control, frames, env, depth, store, trace⟩ := s
  obtain ⟨hframes, houtcome⟩ := h
  obtain rfl : frames = [] := hframes
  cases control with
  | value v => cases hframe <;> trivial
  | done =>
      cases hframe with
      | activation => exact ends_leave rfl _ _ _
      | _ => trivial
  | returning v =>
      cases hframe with
      | activation => exact ends_leave rfl _ _ _
      | _ => exact ⟨rfl, trivial⟩
  | failing e =>
      cases hframe with
      | protect => exact ⟨log_frames _ _ _, trivial⟩
      | _ => exact ⟨rfl, trivial⟩
  | _ => exact houtcome.elim

theorem not_reaches_of_pending {frame : Frame} (hframe : frame.Pending) {above : List Frame}
    (hframes : s.frames = above ++ [frame]) {range : Range} {f : Value} {vs : List Value} :
    ¬ Reaches set s (t.alone (.call range f vs)) := by
  intro h
  have honto : s = ({ s with frames := above } : State).onto [frame] := by
    rw [State.onto, ← hframes]
  rw [honto] at h
  rcases h.of_onto with ⟨x, _, hx⟩ | ⟨x, _, hthrough, hrest⟩
  · have hframes := congrArg State.frames hx
    exact absurd hframes.symm (List.append_ne_nil_of_right_ne_nil _ (List.cons_ne_nil _ _))
  · have hends := ends_of_pending set hframe hthrough
    have hne : x.onto [frame] ≠ t.alone (.call range f vs) := fun heq =>
      List.append_ne_nil_of_right_ne_nil x.frames (List.cons_ne_nil frame [])
        (congrArg State.frames heq)
    cases hstep : advance set (x.onto [frame]) with
    | halt ending y => exact hne (hrest.eq_of_halt hstep)
    | next y =>
        rw [hstep] at hends
        have hlast := (reaches_step hstep hne).mp hrest
        obtain ⟨ending, hhalt⟩ := State.Through.halts set hends
        exact State.Through.ne_call hends (hlast.eq_of_halt hhalt)

/-- Where a call has got after one step: it is over, or a frame waits for it to be. -/
inductive State.Called (s : State) : Prop where
  | through (h : s.Through)
  | pending {above : List Frame} {frame : Frame} (hframe : frame.Pending)
      (h : s.frames = above ++ [frame])

theorem State.Called.single {frame : Frame} (hframe : frame.Pending) (h : s.frames = [frame]) :
    s.Called :=
  @pending s [] frame hframe h

/-- A call that is not refused runs the body above a frame that ends it. -/
theorem next_enter {range : Range} {c : Closure} {args : List Value}
    (h : s.enter set range c args = .next t) :
    (∃ e, t.control = .failing e ∧ t.frames = s.frames) ∨
      t.frames = .activation s.env c :: s.frames ∧ t.control = .run c.decl.body ∧
        t.store = State.storeCall s.store c args := by
  unfold State.enter at h
  dsimp only at h
  split at h
  · cases h
    exact .inl ⟨_, rfl, rfl⟩
  · split at h
    · cases h
      exact .inl ⟨_, rfl, rfl⟩
    · cases h
      refine .inr ⟨?_, rfl, ?_⟩
      · rw [log_frames, log_env]
      · rw [log_store]
        rfl

theorem called_callNative (hframes : s.frames = []) {range : Range} {ref : Nat}
    {args : List Value} (h : s.callNative range ref args = .next t) : t.Called := by
  unfold State.callNative at h
  split at h
  · cases h
  · split at h
    · cases h
      exact .through ⟨hframes, trivial⟩
    · split at h
      · cases h
        exact .through ⟨hframes, trivial⟩
      · split at h
        · split at h
          · split at h
            · cases h
              exact .single .protect (congrArg (Frame.protect :: ·) hframes)
            · cases h
              exact .through ⟨hframes, trivial⟩
          · cases h
        · cases h

/-- A step of a call with nothing that waits for it. -/
theorem called_callValue (hframes : s.frames = []) {range : Range} {f : Value}
    {args : List Value} (h : s.callValue set range f args = .next t) : t.Called := by
  cases f with
  | function ref =>
      unfold State.callValue at h
      dsimp only at h
      split at h
      next =>
        rcases next_enter h with ⟨e, hcontrol, hsame⟩ | ⟨hentered, _⟩
        · exact .through ⟨hsame.trans hframes, by rw [hcontrol]; trivial⟩
        · rw [hframes] at hentered
          exact .single .activation hentered
      next => cases h
  | native ref => exact called_callNative hframes h
  | classRef cls =>
      unfold State.callValue State.instantiate at h
      dsimp only at h
      split at h
      next =>
        rcases next_enter h with ⟨_, _, hsame⟩ | ⟨hentered, _⟩
        · rw [hframes] at hsame
          exact .single .construct hsame
        · rw [hframes] at hentered
          exact @State.Called.pending _ [.activation _ _] _ .construct hentered
      next =>
        split at h
        · cases h
          exact .through ⟨hframes, trivial⟩
        · cases h
          exact .through ⟨hframes, trivial⟩
  | _ =>
      cases h
      exact .through ⟨hframes, trivial⟩

/-- With nothing that waits for it a machine calls once at most. -/
theorem eq_of_reaches_call {range range' : Range} {f f' : Value} {args args' : List Value}
    (h : Reaches set (s.alone (.call range f args)) (t.alone (.call range' f' args'))) :
    s.alone (.call range f args) = t.alone (.call range' f' args') := by
  by_contra hne
  cases hstep : advance set (s.alone (.call range f args)) with
  | halt ending x => exact hne (h.eq_of_halt hstep)
  | next x =>
      have hrest := (reaches_step hstep hne).mp h
      have hcalled : x.Called := called_callValue (s := s.alone (.call range f args)) rfl hstep
      cases hcalled with
      | through hthrough =>
          obtain ⟨ending, hhalt⟩ := hthrough.halts set
          exact hthrough.ne_call (hrest.eq_of_halt hhalt)
      | pending hframe hframes => exact not_reaches_of_pending hframe hframes hrest

/-- Handing a value to a frame that waits for an operand. -/
theorem reaches_operand_value {frame : Frame} {v f g : Value} {vs before : List Value}
    {span : Range} {rest : List Expr}
    (hstep : advance set ((s.alone (.value v)).onto [frame]) =
      (s.alone (.value v)).nextArgument g before span rest) :
    Reaches set ((s.alone (.value v)).onto [frame]) (t.alone (.call span f vs)) ↔
      ∃ x, (s.alone (.value v)).nextArgument g before span rest = .next x ∧
        Reaches set x (t.alone (.call span f vs)) := by
  have hne : (s.alone (.value v)).onto [frame] ≠ t.alone (.call span f vs) := fun heq => by
    cases congrArg State.control heq
  obtain ⟨x, hx⟩ : ∃ x, (s.alone (.value v)).nextArgument g before span rest = .next x := by
    cases rest <;> exact ⟨_, rfl⟩
  rw [reaches_step (hstep.trans hx) hne]
  constructor
  · exact fun h => ⟨x, hx, h⟩
  · rintro ⟨y, hy, h⟩
    cases hx.symm.trans hy
    exact h

/-- The machine comes to a call with some arguments exactly if those left to evaluate yield
the last of them. -/
theorem reaches_arguments {span : Range} {f g : Value} {rest : List Expr}
    {before vs : List Value} {control : Control} :
    (∃ x, (s.alone control).nextArgument g before span rest = .next x ∧
        Reaches set x (t.alone (.call span f vs))) ↔
      g = f ∧ ∃ more, vs = before.reverse ++ more ∧ YieldsAll set s rest more t := by
  induction rest generalizing s before control with
  | nil =>
      constructor
      · rintro ⟨x, hx, hreaches⟩
        cases hx
        have heq : s.alone (.call span g before.reverse) = t.alone (.call span f vs) :=
          eq_of_reaches_call hreaches
        have hcall := congrArg State.control heq
        cases hcall
        exact ⟨rfl, [], (List.append_nil _).symm, State.alone_congr heq.symm .done⟩
      · rintro ⟨rfl, more, rfl, hyields⟩
        cases more with
        | nil =>
            rw [List.append_nil, State.alone_congr hyields (.call span g before.reverse)]
            exact ⟨_, rfl, Reaches.refl set _⟩
        | cons v more => exact hyields.elim
  | cons e rest ih =>
      have hpassed : ∀ u v,
          (Reaches set ((State.alone u (.value v)).onto [.argument g before rest span])
            (t.alone (.call span f vs)) ↔
          g = f ∧ ∃ more, vs = (v :: before).reverse ++ more ∧ YieldsAll set u rest more t) :=
        fun u v => (reaches_operand_value rfl).trans ih
      constructor
      · rintro ⟨x, hx, hreaches⟩
        cases hx
        obtain ⟨u, v, hyields, hrest⟩ := (reaches_operand .argument).mp hreaches
        obtain ⟨rfl, more, rfl, hmore⟩ := (hpassed u v).mp hrest
        exact ⟨rfl, v :: more, by simp, u, hyields, hmore⟩
      · rintro ⟨rfl, more, rfl, hyields⟩
        cases more with
        | nil => exact hyields.elim
        | cons v more =>
            obtain ⟨u, hyields, hmore⟩ := hyields
            refine ⟨_, rfl, (reaches_operand .argument).mpr ⟨u, v, hyields, ?_⟩⟩
            exact (hpassed u v).mpr ⟨rfl, more, by simp, hmore⟩

/-- The machine comes to a call exactly if the callee yields what is called and then the
arguments, from left to right, yield what it is called with. -/
theorem reaches_call_iff {callee : Expr} {args : List Expr} {span : Range} {f : Value}
    {vs : List Value} :
    Reaches set (s.alone (.eval (.call callee args span))) (t.alone (.call span f vs)) ↔
      ∃ u, Yields set s callee f u ∧ YieldsAll set u args vs t := by
  have hstep : advance set (s.alone (.eval (.call callee args span))) =
      .next ((s.alone (.eval callee)).onto [.callee args span]) := rfl
  have hne : s.alone (.eval (.call callee args span)) ≠ t.alone (.call span f vs) := fun heq => by
    cases congrArg State.control heq
  have hpassed : ∀ u g,
      (Reaches set ((State.alone u (.value g)).onto [.callee args span])
        (t.alone (.call span f vs)) ↔
      g = f ∧ ∃ more, vs = [].reverse ++ more ∧ YieldsAll set u args more t) :=
    fun u g => (reaches_operand_value rfl).trans reaches_arguments
  rw [reaches_step hstep hne, reaches_operand .callee]
  constructor
  · rintro ⟨u, g, hyields, hrest⟩
    obtain ⟨rfl, more, rfl, hmore⟩ := (hpassed u g).mp hrest
    exact ⟨u, hyields, hmore⟩
  · rintro ⟨u, hyields, hrest⟩
    exact ⟨u, f, hyields, (hpassed u f).mpr ⟨rfl, vs, rfl, hrest⟩⟩

/-! ## Parameters -/

namespace State

theorem get?_bindParams (params : List Name) (args : List Value) (vars : Bindings Value)
    (hdistinct : (Scope.paramNames params).Nodup) :
    (∀ i name, params[i]? = some name →
        (bindParams params args vars).get? name.text = some (args.getD i .nil)) ∧
      ∀ n, n ∉ Scope.paramNames params → (bindParams params args vars).get? n = vars.get? n := by
  induction params generalizing args vars with
  | nil => exact ⟨nofun, fun _ _ => rfl⟩
  | cons p params ih =>
      obtain ⟨hp, hrest⟩ := List.nodup_cons.mp hdistinct
      have hfirst : ∀ v, (vars.set p.text v).get? p.text = some v := vars.get?_set_self p.text
      have hothers : ∀ n v, n ∉ Scope.paramNames (p :: params) →
          (vars.set p.text v).get? n = vars.get? n := fun n v hn =>
        vars.get?_set_ne (List.ne_of_not_mem_cons hn) v
      cases args with
      | nil =>
          obtain ⟨hbound, hunbound⟩ := ih [] (vars.set p.text .nil) hrest
          refine ⟨fun i name hname => ?_, fun n hn => ?_⟩
          · cases i with
            | zero =>
                cases hname
                exact (hunbound _ hp).trans (hfirst .nil)
            | succ i => exact hbound i name hname
          · exact (hunbound n (List.not_mem_of_not_mem_cons hn)).trans (hothers n .nil hn)
      | cons v args =>
          obtain ⟨hbound, hunbound⟩ := ih args (vars.set p.text v) hrest
          refine ⟨fun i name hname => ?_, fun n hn => ?_⟩
          · cases i with
            | zero =>
                cases hname
                exact (hunbound _ hp).trans (hfirst v)
            | succ i => exact hbound i name hname
          · exact (hunbound n (List.not_mem_of_not_mem_cons hn)).trans (hothers n v hn)

theorem arityCause?_eq_none_iff {fewer more : Bool} {want got : Nat} {callee : Bytes} :
    arityCause? fewer more want got callee = none ↔
      (got < want → fewer = true) ∧ (want < got → more = true) := by
  unfold arityCause?
  split
  next h => simp [h.1, h.2]
  next hfew =>
    split
    next h => simp [h.1, h.2]
    next hmany =>
      simp only [true_iff]
      exact ⟨fun h => by simpa [h] using hfew, fun h => by simpa [h] using hmany⟩

/-- The machine is about to run the body of a function with these arguments, in an
environment in which each parameter has the argument at its place, or `nil` if there is
none, and nothing else is bound. -/
structure Starts (c : Closure) (args : List Value) (s : State) : Prop where
  control : s.control = .run c.decl.body
  parent : s.store.parent? s.env = some c.env
  bound : ∀ i name, c.decl.params[i]? = some name →
    s.store.at? s.env name.text = some (args.getD i .nil)
  unbound : ∀ n, n ∉ Scope.paramNames c.decl.params → s.store.at? s.env n = none

/-- A call that is not refused for the number of its arguments starts the body. -/
theorem starts_enter {c : Closure} {args : List Value} (range : Range)
    (hunder : args.length < c.decl.arity → set.options.allowUnderApplication = true)
    (hover : c.decl.arity < args.length → set.options.allowOverApplication = true)
    (hdepth : s.depth < maxDepth) (hdistinct : (Scope.paramNames c.decl.params).Nodup) :
    ∃ t, s.enter set range c args = .next t ∧ t.Starts c args ∧ t.env = s.store.envs.size ∧
      t.store = storeCall s.store c args := by
  obtain ⟨hbound, hunbound⟩ := get?_bindParams c.decl.params args Bindings.empty hdistinct
  have hcause : ∀ callee, arityCause? set.options.allowUnderApplication
      set.options.allowOverApplication c.decl.arity args.length callee = none := fun callee =>
    arityCause?_eq_none_iff.mpr ⟨hunder, hover⟩
  have hat : ∀ n, (storeCall s.store c args).at? s.store.envs.size n =
      (bindParams c.decl.params args Bindings.empty).get? n := by
    intro n
    rw [storeCall, Store.at?_newEnv, if_pos rfl]
  have hparent : (storeCall s.store c args).parent? s.store.envs.size = some c.env := by
    rw [storeCall, Store.parent?_newEnv, if_pos rfl]
  unfold enter
  simp only [hcause, if_neg (Nat.not_le_of_lt hdepth), log_store]
  refine ⟨_, rfl, ⟨rfl, hparent, fun i name hname => ?_, fun n hn => ?_⟩, rfl, rfl⟩
  · exact (hat name.text).trans (hbound i name hname)
  · exact (hat n).trans (hunbound n hn)

theorem overflows_enter {c : Closure} {args : List Value} (range : Range)
    (hunder : args.length < c.decl.arity → set.options.allowUnderApplication = true)
    (hover : c.decl.arity < args.length → set.options.allowOverApplication = true)
    (hdepth : maxDepth ≤ s.depth) :
    ∃ t, s.enter set range c args = .next t ∧ t.control = .failing ⟨range, .stackOverflow⟩ := by
  have hcause : ∀ callee, arityCause? set.options.allowUnderApplication
      set.options.allowOverApplication c.decl.arity args.length callee = none := fun callee =>
    arityCause?_eq_none_iff.mpr ⟨hunder, hover⟩
  unfold enter
  simp only [hcause, if_pos hdepth]
  exact ⟨_, rfl, rfl⟩

/-- The parameters of a function that can be called have different names. -/
theorem nodup_of_enters {W : World} {R : Sites} {c : Closure} {env : Nat} {st : Store}
    (hR : ∀ base site, R base site → site.Settled set.depths) (hs : Store.Sound W R s.store)
    (h : s.Enters c env st) : (Scope.paramNames c.decl.params).Nodup := by
  have hdistinct : ∀ {Γ : List Scope.Layer} {base : Nat} {f : Function},
      (∀ site ∈ Scope.functionSites Γ f, R base site) → (Scope.paramNames f.params).Nodup := by
    rintro Γ base ⟨kind, name, params, body, span⟩ hsites
    have hsettled := hR base _ (hsites _ List.mem_cons_self)
    exact (List.nodup_append.mp hsettled).1
  cases h with
  | function hcontrol hclosure =>
      obtain ⟨_, _, _, hsites, _⟩ := hs.functions _ _ hclosure
      exact hdistinct hsites
  | initializer hcontrol hinit =>
      obtain ⟨_, _, _, hsites⟩ := hs.method hinit
      exact hdistinct hsites

/-- A function or an initializer that is called with a number of arguments that is not
refused is entered with them. -/
theorem Enters.starts {range : Range} {f : Value} {c : Closure} {env : Nat} {st : Store}
    {args : List Value} (h : s.Enters c env st) (hcontrol : s.control = .call range f args)
    (hunder : args.length < c.decl.arity → set.options.allowUnderApplication = true)
    (hover : c.decl.arity < args.length → set.options.allowOverApplication = true)
    (hdepth : s.depth < maxDepth) (hdistinct : (Scope.paramNames c.decl.params).Nodup) :
    ∃ t, advance set s = .next t ∧ t.Starts c args ∧ t.env = env ∧ t.store = st := by
  obtain ⟨control, frames, here, depth, store, trace⟩ := s
  cases h with
  | function hcall hclosure =>
      obtain rfl : control = _ := hcontrol
      cases hcall
      simp only [advance, callValue, hclosure]
      exact starts_enter range hunder hover hdepth hdistinct
  | @initializer _ cls _ init hcall hinit =>
      obtain rfl : control = _ := hcontrol
      cases hcall
      have hinit : (store.newInstance cls).2.method? cls (utf8 "init") = some init :=
        (store.method?_newInstance cls cls (utf8 "init")).trans hinit
      have hsize : ((store.newInstance cls).2.bindMethod init store.instances.size).2.envs.size =
          store.envs.size + 1 := Store.size_newEnv ..
      simp only [advance, callValue, instantiate, hinit]
      rw [← hsize]
      exact starts_enter range hunder hover hdepth hdistinct

/-- A call that is not refused for the number of its arguments fails if too many calls are
active. -/
theorem Enters.overflows {range : Range} {f : Value} {c : Closure} {env : Nat} {st : Store}
    {args : List Value} (h : s.Enters c env st) (hcontrol : s.control = .call range f args)
    (hunder : args.length < c.decl.arity → set.options.allowUnderApplication = true)
    (hover : c.decl.arity < args.length → set.options.allowOverApplication = true)
    (hdepth : maxDepth ≤ s.depth) :
    ∃ t, advance set s = .next t ∧ t.control = .failing ⟨range, .stackOverflow⟩ := by
  obtain ⟨control, frames, here, depth, store, trace⟩ := s
  cases h with
  | function hcall hclosure =>
      obtain rfl : control = _ := hcontrol
      cases hcall
      simp only [advance, callValue, hclosure]
      exact overflows_enter range hunder hover hdepth
  | @initializer _ cls _ init hcall hinit =>
      obtain rfl : control = _ := hcontrol
      cases hcall
      have hinit : (store.newInstance cls).2.method? cls (utf8 "init") = some init :=
        (store.method?_newInstance cls cls (utf8 "init")).trans hinit
      simp only [advance, callValue, instantiate, hinit]
      exact overflows_enter range hunder hover hdepth

/-- A native never takes more or fewer arguments than it wants, whatever the options. -/
theorem callNative_refuses {range : Range} {ref : Nat} {native : Native} {args : List Value}
    (hnative : s.store.natives[ref]? = some native) :
    (args.length < native.arity → s.callNative range ref args =
        s.fail range (.tooFewArguments (s.store.text (.native ref)))) ∧
      (native.arity < args.length → s.callNative range ref args =
        s.fail range (.tooManyArguments (s.store.text (.native ref)))) := by
  unfold callNative
  simp only [hnative]
  constructor
  · intro h
    simp [arityCause?, h]
  · intro h
    simp [arityCause?, h, Nat.not_lt_of_gt h]

end State

end LoxMachine
