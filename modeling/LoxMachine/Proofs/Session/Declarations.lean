import LoxMachine.Proofs.Machine.Evaluation
import LoxMachine.Proofs.Session.Owners

/-!
# Failing declarations

A declaration of a variable binds its name when the initializer has come to a value, and so it
leaves no trace if the initializer fails.  A declaration of a class binds its name to `nil`
before the superclass is looked at, and that stays if the superclass is missing or no class.
-/

namespace LoxMachine

variable {set : Setting} {s t u v : State}

/-- The machine about to evaluate the expression. -/
def State.evaluating (s : State) (e : Expr) : State :=
  { s with control := .eval e }

/-! ## Variables -/

/-- A frame that waits for the value of an initializer lets an error pass, and fails for no
other reason. -/
theorem reaches_declare_failing {name : Name} {w : State} {e : RuntimeError}
    (hthrough : u.Through) (hend : w.Through) (hfailing : w.control = .failing e) :
    Reaches set (u.onto [.declare name]) w ↔ u = w := by
  have hnext : ∀ {x}, advance set (u.onto [.declare name]) = .next x → x.Through →
      (Reaches set (u.onto [.declare name]) w ↔ x = w) := by
    intro x hstep hx
    constructor
    · intro hreaches
      exact Reaches.eq_of_through (.of_next hstep) hx hreaches hend
    · rintro rfl
      exact .of_next hstep
  obtain ⟨control, frames, env, depth, store, trace⟩ := u
  obtain ⟨hframes, houtcome⟩ := hthrough
  obtain rfl : frames = [] := hframes
  have hother : ∀ {x : State}, (∀ e, x.control ≠ .failing e) → x ≠ w := by
    rintro x hx rfl
    exact hx e hfailing
  cases control with
  | value v =>
      rw [hnext rfl ⟨rfl, trivial⟩]
      exact iff_of_false (hother fun _ h => by cases h) (hother fun _ h => by cases h)
  | done =>
      refine iff_of_false (fun hreaches => ?_) (hother fun _ h => by cases h)
      exact hother (fun _ h => by cases h) (hreaches.eq_of_halt rfl)
  | returning v => exact hnext rfl ⟨rfl, trivial⟩
  | failing e' => exact hnext rfl ⟨rfl, trivial⟩
  | _ => exact houtcome.elim

/-- A declaration of a variable fails exactly as its initializer does. -/
theorem concludes_var_failing_iff {name : Name} {init : Option Expr} {span : Range}
    (hcontrol : s.control = .exec (.var name init span)) {e : RuntimeError}
    (hfailing : t.control = .failing e) :
    Concludes set s.frames s t ↔
      ∃ value, init = some value ∧ Concludes set s.frames (s.evaluating value) t := by
  let outer : State := { s with frames := [] }
  have houter : s = outer.onto s.frames := rfl
  cases init with
  | none =>
      have hstep : advance set outer = .next { s.define name.text .nil with
          control := .done, frames := [] } := by
        simp only [outer, advance, hcontrol]
        rfl
      rw [houter]
      constructor
      · intro h
        obtain rfl := (concludes_next_iff hstep ⟨rfl, trivial⟩).mp h
        cases hfailing
      · rintro ⟨_, ⟨⟩, _⟩
  | some value =>
      let own : State := { s.evaluating value with frames := [] }
      have hstep : advance set outer = .next (own.onto [.declare name]) := by
        simp only [outer, advance, hcontrol]
        rfl
      have hsame : Concludes set s.frames s t ↔ Concludes set s.frames (s.evaluating value) t := by
        change Concludes set s.frames (outer.onto s.frames) t ↔
          Concludes set s.frames (own.onto s.frames) t
        refine (concludes_await_iff hstep).trans (Iff.trans ?_ concludes_onto_iff.symm)
        constructor
        · rintro ⟨u, w, hu, hthrough, hrest, hend, rfl⟩
          obtain rfl := (reaches_declare_failing hthrough hend hfailing).mp hrest
          exact ⟨u, hu, hthrough, rfl⟩
        · rintro ⟨u, hu, hthrough, rfl⟩
          exact ⟨u, u, hu, hthrough,
            (reaches_declare_failing hthrough hthrough hfailing).mpr rfl, hthrough, rfl⟩
      rw [hsame]
      constructor
      · exact fun h => ⟨value, rfl, h⟩
      · rintro ⟨_, ⟨⟩, h⟩
        exact h

/-- While an expression is evaluated, a variable of the environment it is in changes by
assignments only. -/
theorem kept_or_assigned {e : Expr} {k : Nat} (hsize : s.env < s.store.envs.size)
    (h : ConcludesAfter set s.frames k (s.evaluating e) t) (n : Bytes) :
    ((s.store.at? s.env n).isSome = true → (t.store.at? s.env n).isSome = true) ∧
      (t.store.at? s.env n = s.store.at? s.env n ∨
        ∃ m < k, ∃ u v, run set m (s.evaluating e) = (none, u) ∧
          u.AssignsTo set s.env n v) := by
  let own : State := { s.evaluating e with frames := [] }
  have hown : s.evaluating e = own.onto s.frames := rfl
  have hevaluates : own.Evaluates s.env := .here rfl (List.forall_mem_nil _) rfl
  rw [hown] at h
  obtain ⟨hrun, _, hfirst⟩ := h
  -- Until the evaluation is concluded, the machine runs as it does with nothing that waits.
  obtain ⟨w, rfl, hreached⟩ := exists_onto_of_run hrun hfirst
  obtain ⟨hbound, hchanged⟩ := (hevaluates.run hsize hreached).2 n
  refine ⟨hbound, hchanged.imp_right ?_⟩
  rintro ⟨m, hm, u, v, hu, hassigns⟩
  exact ⟨m, hm, u.onto s.frames, v, run_onto hu s.frames, hassigns.onto s.frames⟩

/-! ## Classes -/

/-- The machine that has failed with the error. -/
def State.failed (s : State) (e : RuntimeError) : State :=
  { s with control := .failing e }

/-- The evaluation of a superclass comes to the value that is looked up, or to an error if there
is none. -/
theorem concludes_superclass_iff {parent : Superclass} :
    Concludes set s.frames (s.evaluating (.var parent.id parent.name)) u ↔
      (∃ v, s.lookup set parent.id parent.name.text = .ok (some v) ∧
        u = { s with control := .value v }) ∨
      s.lookup set parent.id parent.name.text = .ok none ∧
        u = s.failed ⟨parent.name.range, .undefinedVariable parent.name.text⟩ := by
  let own : State := { s.evaluating (.var parent.id parent.name) with frames := [] }
  have hlasts : ¬ own.Through := fun hthrough => hthrough.2
  have hstep : advance set own = own.evalVariable set parent.id parent.name := rfl
  have hlookup : own.lookup set parent.id parent.name.text =
    s.lookup set parent.id parent.name.text := rfl
  rw [State.evalVariable, hlookup] at hstep
  change Concludes set s.frames (own.onto s.frames) u ↔ _
  cases hfound : s.lookup set parent.id parent.name.text with
  | error d =>
      rw [hfound] at hstep
      refine iff_of_false (not_concludes_of_halt hstep hlasts) ?_
      rintro (⟨_, ⟨⟩, _⟩ | ⟨⟨⟩, _⟩)
  | ok found =>
      rw [hfound] at hstep
      cases found with
      | none =>
          refine (concludes_next_iff hstep ⟨rfl, trivial⟩).trans ?_
          constructor
          · exact fun h => .inr ⟨rfl, h⟩
          · rintro (⟨_, ⟨⟩, _⟩ | ⟨_, h⟩)
            exact h
      | some v =>
          refine (concludes_next_iff hstep ⟨rfl, trivial⟩).trans ?_
          constructor
          · exact fun h => .inl ⟨v, rfl, h⟩
          · rintro (⟨_, ⟨⟩, h⟩ | ⟨⟨⟩, _⟩)
            exact h

/-- A class that is made is no failure. -/
theorem not_concludes_declareClass {outer x : State} {n : Bytes} {superclass : Option Nat}
    {methods : List Function} {waiting : List Frame} {e : RuntimeError}
    (hstep : advance set outer = x.declareClass n superclass methods) (hframes : x.frames = [])
    (hfailing : t.control = .failing e) : ¬ Concludes set waiting (outer.onto waiting) t := by
  intro h
  obtain rfl := (concludes_next_iff hstep ⟨hframes, trivial⟩).mp h
  cases hfailing

/-- A declaration of a class with a superclass fails exactly if that does, or is no class, once
the name is bound to `nil`. -/
theorem concludes_subclass_failing_iff {name : Name} {parent : Superclass}
    {methods : List Function} {span : Range}
    (hcontrol : s.control = .exec (.classDecl name (some parent) methods span)) {e : RuntimeError}
    (hfailing : t.control = .failing e) :
    Concludes set s.frames s t ↔ ∃ u, Concludes set s.frames
        ((s.define name.text .nil).evaluating (.var parent.id parent.name)) u ∧
      (u.control = .failing e ∨ (∃ v, u.control = .value v ∧ ∀ cls, v ≠ .classRef cls) ∧
        e = ⟨parent.name.range, .superclassNotClass⟩) ∧
      t = u.failed e := by
  let outer : State := { s with frames := [] }
  let bound : State := s.define name.text .nil
  have hlasts : ¬ outer.Through := fun hthrough => by
    have houtcome := hthrough.2
    rw [hcontrol] at houtcome
    exact houtcome
  have hstep : advance set outer = outer.execClass set name (some parent) methods := by
    simp only [outer, advance, hcontrol, State.exec]
  have hlookup : (outer.define name.text .nil).lookup set parent.id parent.name.text =
    bound.lookup set parent.id parent.name.text := rfl
  unfold State.execClass at hstep
  dsimp only at hstep
  rw [hlookup] at hstep
  have hsuperclass := fun u => @concludes_superclass_iff set bound u parent
  change Concludes set s.frames (outer.onto s.frames) t ↔ _
  cases hfound : bound.lookup set parent.id parent.name.text with
  | error d =>
      rw [hfound] at hsuperclass hstep
      refine iff_of_false (not_concludes_of_halt hstep hlasts) ?_
      rintro ⟨u, hu, _⟩
      obtain (⟨_, ⟨⟩, _⟩ | ⟨⟨⟩, _⟩) := (hsuperclass u).mp hu
  | ok found =>
      rw [hfound] at hsuperclass hstep
      cases found with
      | none =>
          refine (concludes_next_iff hstep ⟨rfl, trivial⟩).trans ?_
          constructor
          · rintro rfl
            cases hfailing
            exact ⟨_, (hsuperclass _).mpr (.inr ⟨rfl, rfl⟩), .inl rfl, rfl⟩
          · rintro ⟨u, hu, hway, rfl⟩
            rcases (hsuperclass u).mp hu with ⟨_, ⟨⟩, _⟩ | ⟨_, rfl⟩
            rcases hway with hsame | ⟨⟨_, ⟨⟩, _⟩, _⟩
            cases hsame
            rfl
      | some v =>
          by_cases hclass : ∃ cls, v = .classRef cls
          · obtain ⟨cls, rfl⟩ := hclass
            refine iff_of_false (not_concludes_declareClass hstep rfl hfailing) ?_
            rintro ⟨u, hu, hway, rfl⟩
            rcases (hsuperclass u).mp hu with ⟨_, ⟨⟩, rfl⟩ | ⟨⟨⟩, _⟩
            rcases hway with ⟨⟨⟩⟩ | ⟨⟨_, ⟨⟩, hnot⟩, _⟩
            exact hnot cls rfl
          · have hrefused : advance set outer = State.fail (outer.define name.text .nil)
                parent.name.range .superclassNotClass := by
              cases v with
              | classRef cls => exact absurd ⟨cls, rfl⟩ hclass
              | _ => exact hstep
            refine (concludes_next_iff hrefused ⟨rfl, trivial⟩).trans ?_
            constructor
            · rintro rfl
              cases hfailing
              exact ⟨_, (hsuperclass _).mpr (.inl ⟨v, rfl, rfl⟩),
                .inr ⟨⟨v, rfl, fun cls h => hclass ⟨cls, h⟩⟩, rfl⟩, rfl⟩
            · rintro ⟨u, hu, hway, rfl⟩
              rcases (hsuperclass u).mp hu with ⟨_, ⟨⟩, rfl⟩ | ⟨⟨⟩, _⟩
              rcases hway with ⟨⟨⟩⟩ | ⟨_, rfl⟩
              rfl

/-- A declaration of a class fails exactly if it has a superclass, and as that does. -/
theorem concludes_class_failing_iff {name : Name} {superclass : Option Superclass}
    {methods : List Function} {span : Range}
    (hcontrol : s.control = .exec (.classDecl name superclass methods span)) {e : RuntimeError}
    (hfailing : t.control = .failing e) :
    Concludes set s.frames s t ↔ ∃ parent u, superclass = some parent ∧
      Concludes set s.frames
        ((s.define name.text .nil).evaluating (.var parent.id parent.name)) u ∧
      (u.control = .failing e ∨ (∃ v, u.control = .value v ∧ ∀ cls, v ≠ .classRef cls) ∧
        e = ⟨parent.name.range, .superclassNotClass⟩) ∧
      t = u.failed e := by
  cases superclass with
  | none =>
      let outer : State := { s with frames := [] }
      have hmade : advance set outer = State.declareClass (outer.define name.text .nil) name.text
          none methods := by
        simp only [outer, advance, hcontrol, State.exec, State.execClass]
      change Concludes set s.frames (outer.onto s.frames) t ↔ _
      refine iff_of_false (not_concludes_declareClass hmade rfl hfailing) ?_
      rintro ⟨_, _, ⟨⟩, _⟩
  | some parent =>
      rw [concludes_subclass_failing_iff hcontrol hfailing]
      constructor
      · rintro ⟨u, hu⟩
        exact ⟨parent, u, rfl, hu⟩
      · rintro ⟨_, u, ⟨⟩, hu⟩
        exact ⟨u, hu⟩

/-- In every state: a declaration of a variable fails exactly as the evaluation of its
initializer does, in the very state that this leaves.  There the variables of the environment
are bound as before, but for those to which the evaluation itself has assigned before it was
concluded.  A declaration of a class fails exactly as the evaluation of its superclass does, or
because that is no class, once its name is bound to `nil`; nothing else is changed. -/
theorem declaration_failing (set : Setting) (s t : State) (e : RuntimeError)
    (hfailing : t.control = .failing e) :
    (∀ name init span, s.control = .exec (.var name init span) →
      (Concludes set s.frames s t ↔
        ∃ value, init = some value ∧ Concludes set s.frames (s.evaluating value) t) ∧
      (Concludes set s.frames s t → s.env < s.store.envs.size → ∀ n,
        ((s.store.at? s.env n).isSome = true → (t.store.at? s.env n).isSome = true) ∧
        (t.store.at? s.env n = s.store.at? s.env n ∨ ∃ value k m u v, init = some value ∧
          ConcludesAfter set s.frames k (s.evaluating value) t ∧ m < k ∧
          run set m (s.evaluating value) = (none, u) ∧ u.AssignsTo set s.env n v))) ∧
    ∀ name superclass methods span,
      s.control = .exec (.classDecl name superclass methods span) →
      (Concludes set s.frames s t ↔ ∃ parent u, superclass = some parent ∧
        Concludes set s.frames
          ((s.define name.text .nil).evaluating (.var parent.id parent.name)) u ∧
        (u.control = .failing e ∨ (∃ v, u.control = .value v ∧ ∀ cls, v ≠ .classRef cls) ∧
          e = ⟨parent.name.range, .superclassNotClass⟩) ∧
        t = u.failed e) ∧
      (Concludes set s.frames s t → t = (s.define name.text .nil).failed e) := by
  constructor
  · intro name init span hcontrol
    have hiff := @concludes_var_failing_iff set s t name init span hcontrol e hfailing
    refine ⟨hiff, fun h hsize n => ?_⟩
    obtain ⟨value, rfl, k, hvalue⟩ := hiff.mp h
    obtain ⟨hbound, hchanged⟩ := kept_or_assigned hsize hvalue n
    refine ⟨hbound, hchanged.imp_right ?_⟩
    rintro ⟨m, hm, u, v, hu, hassigns⟩
    exact ⟨value, k, m, u, v, rfl, hvalue, hm, hu, hassigns⟩
  · intro name superclass methods span hcontrol
    have hiff := @concludes_class_failing_iff set s t name superclass methods span hcontrol e
      hfailing
    refine ⟨hiff, fun h => ?_⟩
    obtain ⟨parent, u, rfl, hu, _, rfl⟩ := hiff.mp h
    have hsuperclass := @concludes_superclass_iff set (s.define name.text .nil) u parent
    rcases hsuperclass.mp hu with ⟨v, _, rfl⟩ | ⟨_, rfl⟩
    · rfl
    · rfl

namespace Session

/-- A line that declares a global. -/
def declaring : Request × Nat :=
  (.line (utf8 "var a = true;"), 20)

/-- A line that declares it again as a variable, with an initializer that fails. -/
def failingVariable : Source :=
  Source.ofSnippet (utf8 "var a = -true;")

/-- A line that declares it again as a class, with a superclass that is missing. -/
def failingClass : Source :=
  Source.ofSnippet (utf8 "class a < missing {}")

/-- The machine is about to declare a variable that is bound already, with an initializer that
fails after as many steps. -/
def redeclaresVariable (set : Setting) (n : Nat) (s : State) : Bool :=
  match s.control with
  | .exec (.var name (some value) _) =>
      decide (s.env < s.store.envs.size) && (s.store.at? s.env name.text).isSome &&
        (s.evaluating value).failsAfter set n
  | _ => false

/-- The machine is about to declare a class of a name that is bound to something true, and
neither before nor after the name is bound to `nil` is its superclass found. -/
def redeclaresClass (set : Setting) (s : State) : Bool :=
  match s.control with
  | .exec (.classDecl name (some parent) _ _) =>
      decide (s.env < s.store.envs.size) && (s.store.at? s.env name.text).any Value.truthy &&
        (s.evaluating (.var parent.id parent.name)).failsAfter set 1 && s.failsAfter set 1
  | _ => false

theorem exists_of_redeclaresClass (h : redeclaresClass set s = true) :
    ∃ name parent methods span t u,
      s.control = .exec (.classDecl name (some parent) methods span) ∧
      s.env < s.store.envs.size ∧ (s.store.at? s.env name.text).any Value.truthy = true ∧
      (Concludes set s.frames s t ∧ ∃ e, t.control = .failing e) ∧
      Concludes set s.frames (s.evaluating (.var parent.id parent.name)) u ∧
      ∃ e, u.control = .failing e := by
  unfold redeclaresClass at h
  split at h
  next name parent methods span hcontrol =>
    obtain ⟨h, hfails⟩ := Bool.and_eq_true_iff.mp h
    obtain ⟨h, hmissing⟩ := Bool.and_eq_true_iff.mp h
    obtain ⟨hsize, htrue⟩ := Bool.and_eq_true_iff.mp h
    obtain ⟨t, ht⟩ := State.exists_concludes_of_failsAfter hfails
    obtain ⟨u, hu⟩ := State.exists_concludes_of_failsAfter hmissing
    exact ⟨name, parent, methods, span, t, u, hcontrol, of_decide_eq_true hsize, htrue, ht, hu⟩
  next => cases h

theorem declaration_failing_again :
    (∃ set s name value span t,
      ((new {} false).after [declaring]).moment 1 failingVariable .replLine = some (set, s) ∧
      s.control = .exec (.var name (some value) span) ∧
      (s.store.at? s.env name.text).isSome = true ∧
      Concludes set s.frames (s.evaluating value) t ∧ (∃ e, t.control = .failing e) ∧
      Concludes set s.frames s t ∧ (t.store.at? s.env name.text).isSome = true) ∧
    ∃ set s name parent methods span t e,
      ((new {} false).after [declaring]).moment 1 failingClass .replLine = some (set, s) ∧
      s.control = .exec (.classDecl name (some parent) methods span) ∧
      Concludes set s.frames s t ∧ t.control = .failing e ∧
      t = (s.define name.text .nil).failed e := by
  constructor
  · have hsome : (((new {} false).after [declaring]).moment 1 failingVariable .replLine).any
        (fun m => redeclaresVariable m.1 3 m.2) = true := by
      decide +kernel
    obtain ⟨⟨set, s⟩, hmoment, hredeclares⟩ := (Option.any_eq_true _ _).mp hsome
    unfold redeclaresVariable at hredeclares
    split at hredeclares
    next name value span hcontrol =>
      obtain ⟨h, hfails⟩ := Bool.and_eq_true_iff.mp hredeclares
      obtain ⟨hsize, hbound⟩ := Bool.and_eq_true_iff.mp h
      obtain ⟨t, ht, e, hfailing⟩ := State.exists_concludes_of_failsAfter hfails
      obtain ⟨hiff, hkept⟩ := (declaration_failing set s t e hfailing).1 _ _ _ hcontrol
      have hconcludes := hiff.mpr ⟨value, rfl, ht⟩
      exact ⟨set, s, name, value, span, t, hmoment, hcontrol, hbound, ht, ⟨e, hfailing⟩,
        hconcludes, (hkept hconcludes (of_decide_eq_true hsize) name.text).1 hbound⟩
    next => cases hredeclares
  · have hsome : (((new {} false).after [declaring]).moment 1 failingClass .replLine).any
        (fun m => redeclaresClass m.1 m.2) = true := by
      decide +kernel
    obtain ⟨⟨set, s⟩, hmoment, hredeclares⟩ := (Option.any_eq_true _ _).mp hsome
    obtain ⟨name, parent, methods, span, t, _, hcontrol, _, _, ⟨ht, e, hfailing⟩, _⟩ :=
      exists_of_redeclaresClass hredeclares
    obtain ⟨_, heq⟩ := (declaration_failing set s t e hfailing).2 _ _ _ _ hcontrol
    exact ⟨set, s, name, parent, methods, span, t, e, hmoment, hcontrol, ht, hfailing, heq ht⟩

/-- A line that declares a class again with a superclass that is missing takes the value of the
global, which the evaluation of the superclass alone leaves as it is. -/
theorem failed_class_forgets : ∃ set s name parent methods span t u,
    ((new {} false).after [declaring]).moment 1 failingClass .replLine = some (set, s) ∧
    s.control = .exec (.classDecl name (some parent) methods span) ∧
    (Concludes set s.frames s t ∧ ∃ e, t.control = .failing e) ∧
    Concludes set s.frames (s.evaluating (.var parent.id parent.name)) u ∧
    (s.store.at? s.env name.text).any Value.truthy = true ∧
    (u.store.at? s.env name.text).any Value.truthy = true ∧
    t.store.at? s.env name.text = some .nil := by
  have hsome : (((new {} false).after [declaring]).moment 1 failingClass .replLine).any
      (fun m => redeclaresClass m.1 m.2) = true := by
    decide +kernel
  obtain ⟨⟨set, s⟩, hmoment, hredeclares⟩ := (Option.any_eq_true _ _).mp hsome
  obtain ⟨name, parent, methods, span, t, u, hcontrol, hsize, htrue, ⟨ht, e, hfailing⟩, hu, _⟩ :=
    exists_of_redeclaresClass hredeclares
  refine ⟨set, s, name, parent, methods, span, t, u, hmoment, hcontrol, ⟨ht, e, hfailing⟩, hu,
    htrue, ?_, ?_⟩
  · rcases concludes_superclass_iff.mp hu with ⟨v, _, rfl⟩ | ⟨_, rfl⟩
    · exact htrue
    · exact htrue
  · obtain ⟨u', hu', _, rfl⟩ := (concludes_subclass_failing_iff hcontrol hfailing).mp ht
    have hnil : (s.define name.text .nil).store.at? s.env name.text = some .nil := by
      rw [State.define, Store.at?_define hsize, if_pos ⟨rfl, rfl⟩]
    have hsuperclass := @concludes_superclass_iff set (s.define name.text .nil) u' parent
    rcases hsuperclass.mp hu' with ⟨v, _, rfl⟩ | ⟨_, rfl⟩
    · exact hnil
    · exact hnil

end Session

end LoxMachine
