import LoxMachine.Proofs.Machine.Evaluation
import LoxMachine.Proofs.Machine.Invocations
import LoxMachine.Proofs.Machine.Returns

/-!
# The end of a call by a return

A return is executed where only blocks, loops and statements in order wait between it and the
frame of its call.  Once its value is there it passes all of them, so nothing of the body is
executed any more, and the call is left with that value.
-/

namespace LoxMachine

open Scope Store

/-- The frames that stand between a statement and the call it is executed in. -/
def Frame.isPassed : Frame → Bool
  | .body _ _ | .sequence _ | .scope _ => true
  | _ => false

/-- The machine is in the body that was entered with this call, and not in a call from there. -/
def State.Within (s : State) (c : Closure) (waiting : List Frame) : Prop :=
  ∃ above saved, s.frames = above ++ .activation saved c :: waiting ∧ inCall above = false

/-- The machine is about to go on with a body: with a statement of it, with the statements that
are left, or with the condition of a loop. -/
inductive State.GoesOn (s : State) : Prop where
  | statement {stmt} (hcontrol : s.control = .exec stmt) : GoesOn s
  | statements {body} (hcontrol : s.control = .run body) : GoesOn s
  | condition {e test body rest} (hcontrol : s.control = .eval e)
      (hframes : s.frames = .test test body :: rest) : GoesOn s

/-- The value that a return which is about to be executed gives. -/
inductive State.GivesBack (set : Setting) (s : State) : Option Expr → Value → Prop where
  | nothing : GivesBack set s none .nil
  | value {e x v} (hconcludes : Concludes set (.giveBack :: s.frames)
      { s with control := .eval e, frames := .giveBack :: s.frames } x)
      (hvalue : x.control = .value v) : GivesBack set s (some e) v

/-- After so many steps the machine is at `t`, and has handed no outcome to these frames
before. -/
def Lasts (set : Setting) (waiting : List Frame) (n : Nat) (s t : State) : Prop :=
  run set n s = (none, t) ∧ ∀ m < n, ∀ u, run set m s = (none, u) → ¬ u.Hands waiting

/-- A return is on its way to the end of its call: its value is evaluated, or it passes the
frames that are between with one of these values, or an error does. -/
inductive State.Exits (set : Setting) (P : Value → Prop) (saved : Nat) (c : Closure)
    (waiting : List Frame) : State → Prop where
  | evaluating {z : State} {above env} (hevaluates : z.Evaluates env)
      (hsize : env < z.store.envs.size)
      (hvalue : ∀ x v, Reaches set z x → x.Through → x.control = .value v → P v)
      (habove : ∀ frame ∈ above, Frame.isPassed frame = true) :
      Exits set P saved c waiting (z.onto (.giveBack :: (above ++ .activation saved c :: waiting)))
  | passing {s : State} {above v} (hcontrol : s.control = .returning v) (hvalue : P v)
      (hframes : s.frames = above ++ .activation saved c :: waiting)
      (habove : ∀ frame ∈ above, Frame.isPassed frame = true) : Exits set P saved c waiting s
  | failing {s : State} {above e} (hcontrol : s.control = .failing e)
      (hframes : s.frames = above ++ .activation saved c :: waiting)
      (habove : ∀ frame ∈ above, Frame.isPassed frame = true) : Exits set P saved c waiting s

variable {W : World} {R : Sites} {set : Setting} {s t u : State} {P : Value → Prop} {saved : Nat}
  {c : Closure} {waiting above frames : List Frame} {m n : Nat} {v : Value}

/-! ## Lasting -/

theorem exists_lasts (h : Concludes set waiting s t) :
    ∃ n, Lasts set waiting n s t ∧ t.Hands waiting := by
  obtain ⟨n, hrun, hhands, hfirst⟩ := h
  exact ⟨n, ⟨hrun, hfirst⟩, hhands⟩

/-- What lasts for a while lasts for the rest of it. -/
theorem Lasts.later (h : Lasts set waiting m s u) (h' : Lasts set waiting (m + n) s t) :
    Lasts set waiting n u t := by
  obtain ⟨hrun, hfirst⟩ := h'
  rw [run_add h.1] at hrun
  refine ⟨hrun, fun k hk x hx => hfirst (m + k) (Nat.add_lt_add_left hk m) x ?_⟩
  rw [run_add h.1]
  exact hx

theorem Lasts.next (h : Lasts set waiting (n + 1) s t) (hstep : advance set s = .next u) :
    Lasts set waiting n u t := by
  have hone : Lasts set waiting 1 s u := by
    refine ⟨run_of_next hstep 0, fun k hk => ?_⟩
    obtain rfl := Nat.lt_one_iff.mp hk
    exact h.2 0 (Nat.succ_pos n)
  rw [Nat.add_comm] at h
  exact hone.later h

theorem Lasts.eq_of_hands (h : Lasts set waiting n s t) (hhands : s.Hands waiting) : t = s := by
  obtain ⟨hrun, hfirst⟩ := h
  cases n with
  | zero =>
      cases hrun
      rfl
  | succ n => exact absurd hhands (hfirst 0 (Nat.succ_pos n) s rfl)

/-- Whatever lasts until now has not been concluded before. -/
theorem Lasts.le_of_hands (h : Lasts set waiting m s u) (h' : Lasts set waiting n s t)
    (hhands : t.Hands waiting) : m ≤ n := by
  by_contra hlt
  exact h.2 n (Nat.lt_of_not_le hlt) t h'.1 hhands

/-- On its own a machine hands nothing to the frames below as long as it goes on. -/
theorem lasts_onto (hrun : run set n s = (none, t)) (below : List Frame) :
    Lasts set below n (s.onto below) (t.onto below) := by
  refine ⟨run_onto hrun below, ?_⟩
  induction n generalizing s with
  | zero => exact fun m hm => absurd hm (Nat.not_lt_zero m)
  | succ n ih =>
      obtain ⟨u, hstep, hrest⟩ := exists_next_of_run hrun
      have hlasts : ¬ s.Through := fun hthrough => by
        obtain ⟨ending, hhalt⟩ := hthrough.halts set
        cases hstep.symm.trans hhalt
      intro m hm x hx hhands
      cases m with
      | zero =>
          cases hx
          exact hlasts (hands_onto_iff.mp hhands)
      | succ m =>
          rw [run, advance_onto set (mt State.through_of_leaves hlasts), hstep] at hx
          exact ih hrest m (Nat.lt_of_succ_lt_succ hm) x hx hhands

/-! ## Steps -/

namespace State

/-- On its own, what has evaluated an expression has its value or an error. -/
theorem Evaluates.outcome {env : Nat} (h : s.Evaluates env) (hthrough : s.Through) :
    (∃ v, s.control = .value v) ∨ ∃ e, s.control = .failing e := by
  cases h with
  | @here s hcontrol _ _ =>
      obtain ⟨control, frames, env', depth, store, trace⟩ := s
      obtain ⟨_, houtcome⟩ := hthrough
      cases control with
      | value v => exact .inl ⟨v, rfl⟩
      | failing e => exact .inr ⟨e, rfl⟩
      | eval | call => exact houtcome.elim
      | exec | run | done | returning => cases hcontrol
  | away => exact absurd hthrough.1 (List.append_ne_nil_of_right_ne_nil _ (List.cons_ne_nil _ _))

/-- A return that has come to its call ends it with the value, or with the receiver. -/
theorem next_of_returning (hcontrol : s.control = .returning v)
    (hframes : s.frames = .activation saved c :: waiting) (hstep : advance set s = .next t) :
    t.frames = waiting ∧ ∃ w, t.control = .value w ∧ (c.decl.kind ≠ .initializer → w = v) ∧
      (c.decl.kind = .initializer → s.store.getAt c.env 0 (utf8 "this") = .ok w) := by
  obtain ⟨control, frames, env, depth, store, trace⟩ := s
  obtain rfl : control = _ := hcontrol
  obtain rfl : frames = _ := hframes
  have hleave : leave ⟨.returning v, waiting, env, depth, store, trace⟩ saved c v = .next t := hstep
  unfold leave at hleave
  dsimp only at hleave
  split at hleave
  next hkind =>
    split at hleave
    next w hthis =>
      cases hleave
      exact ⟨rfl, w, rfl, fun hne => absurd hkind hne, fun _ => hthis⟩
    next => cases hleave
  next hkind =>
    cases hleave
    exact ⟨rfl, v, rfl, fun _ => rfl, fun heq => absurd heq hkind⟩

/-- Each step of the evaluation of the value leads on with it or is the last one. -/
theorem exits_evaluating {z : State} {env : Nat} (hevaluates : z.Evaluates env)
    (hsize : env < z.store.envs.size)
    (hvalue : ∀ x v, Reaches set z x → x.Through → x.control = .value v → P v)
    (habove : ∀ frame ∈ above, Frame.isPassed frame = true)
    (hstep : advance set (z.onto (.giveBack :: (above ++ .activation saved c :: waiting))) =
      .next t) : t.Exits set P saved c waiting := by
  by_cases hleaves :
      z.Leaves ⟨fun r => r, [], .giveBack :: (above ++ .activation saved c :: waiting), #[]⟩
  · -- The frame of the return takes what the value has come to.
    have hthrough := through_of_leaves hleaves
    have houtcome := hevaluates.outcome hthrough
    have hgives : ∀ v, z.control = .value v → P v := fun v =>
      hvalue z v (Reaches.refl set z) hthrough
    obtain ⟨control, frames, env, depth, store, trace⟩ := z
    obtain rfl : frames = [] := hthrough.1
    obtain ⟨v, hcontrol⟩ | ⟨e, hcontrol⟩ := houtcome
    · obtain rfl : control = _ := hcontrol
      cases hstep
      exact .passing rfl (hgives v rfl) rfl habove
    · obtain rfl : control = _ := hcontrol
      cases hstep
      exact .failing rfl rfl habove
  · have hnext : (advance set z).Evaluates env := hevaluates.advance hsize
    have hsize' := (effect_advance set z).size_le
    rw [advance_onto set hleaves] at hstep
    cases hz : advance set z with
    | halt ending x =>
        rw [hz] at hstep
        cases hstep
    | next z' =>
        rw [hz] at hstep hnext hsize'
        cases hstep
        refine .evaluating hnext (Nat.lt_of_lt_of_le hsize hsize') (fun x v hx => ?_) habove
        exact hvalue x v ((Reaches.of_next hz).trans hx)

/-- A step from where a return is on its way leads on with it, or ends the call. -/
theorem Exits.next (h : s.Exits set P saved c waiting) (hstep : advance set s = .next t) :
    t.Exits set P saved c waiting ∨ (t.frames = waiting ∧ ∃ e, t.control = .failing e) ∨
      ∃ v, P v ∧ s.control = .returning v ∧ s.frames = .activation saved c :: waiting := by
  cases h with
  | evaluating hevaluates hsize hvalue habove =>
      exact .inl (exits_evaluating hevaluates hsize hvalue habove hstep)
  | @passing s above v hcontrol hvalue hframes habove =>
      cases above with
      | nil => exact .inr (.inr ⟨v, hvalue, hcontrol, hframes⟩)
      | cons frame above =>
          obtain ⟨hframe, hothers⟩ := List.forall_mem_cons.mp habove
          obtain ⟨control, frames, env, depth, store, trace⟩ := s
          obtain rfl : control = _ := hcontrol
          obtain rfl : frames = _ := hframes
          left
          cases frame with
          | body | sequence | scope =>
              cases hstep
              exact .passing rfl hvalue rfl hothers
          | _ => cases hframe
  | @failing s above e hcontrol hframes habove =>
      obtain ⟨control, frames, env, depth, store, trace⟩ := s
      obtain rfl : control = _ := hcontrol
      obtain rfl : frames = _ := hframes
      cases above with
      | nil =>
          cases hstep
          exact .inr (.inl ⟨rfl, e, rfl⟩)
      | cons frame above =>
          obtain ⟨hframe, hothers⟩ := List.forall_mem_cons.mp habove
          left
          cases frame with
          | body | sequence | scope =>
              cases hstep
              exact .failing rfl rfl hothers
          | _ => cases hframe

/-- Until the call is over a return is on its way, and if it ends the call the value is given. -/
theorem Exits.lasts (h : s.Exits set P saved c waiting) (hlasts : Lasts set waiting n s t) :
    t.Exits set P saved c waiting ∨ (t.frames = waiting ∧ ∃ e, t.control = .failing e) ∨
      ∃ v y, P v ∧ Reaches set s y ∧ y.control = .returning v ∧
        y.frames = .activation saved c :: waiting ∧ advance set y = .next t := by
  induction n generalizing s with
  | zero =>
      cases hlasts.1
      exact .inl h
  | succ n ih =>
      obtain ⟨u, hstep, _⟩ := exists_next_of_run hlasts.1
      have hrest := hlasts.next hstep
      rcases h.next hstep with hexits | ⟨hframes, e, hfailing⟩ | ⟨v, hv, hcontrol, hframes⟩
      · refine (ih hexits hrest).imp_right (Or.imp_right ?_)
        rintro ⟨v, y, hv, hy, hlast⟩
        exact ⟨v, y, hv, (Reaches.of_next hstep).trans hy, hlast⟩
      · obtain rfl := hrest.eq_of_hands ⟨hframes, by rw [hfailing]; trivial⟩
        exact .inr (.inl ⟨hframes, e, hfailing⟩)
      · obtain ⟨hwaiting, w, hvalue, _⟩ := next_of_returning hcontrol hframes hstep
        obtain rfl := hrest.eq_of_hands ⟨hwaiting, by rw [hvalue]; trivial⟩
        exact .inr (.inr ⟨v, s, hv, Reaches.refl set s, hcontrol, hframes, hstep⟩)

/-! ## Returns -/

/-- What is in a call is not where the call is over. -/
theorem activation_ne (above : List Frame) : above ++ .activation saved c :: waiting ≠ waiting := by
  intro heq
  have hlength := congrArg List.length heq
  simp only [List.length_append, List.length_cons] at hlength
  omega

theorem Within.frames_ne (h : s.Within c waiting) : s.frames ≠ waiting := by
  obtain ⟨above, saved, hframes, _⟩ := h
  exact hframes ▸ activation_ne above

theorem Exits.frames_ne (h : s.Exits set P saved c waiting) : s.frames ≠ waiting := by
  cases h with
  | @evaluating z above =>
      rw [onto, ← List.cons_append, ← List.append_assoc]
      exact activation_ne _
  | passing _ _ hframes | failing _ hframes => exact hframes ▸ activation_ne _

theorem inCall_append (above below : List Frame) :
    inCall (above ++ below) = (inCall above || inCall below) :=
  List.any_append

/-- Where a return is on its way nothing of the body is executed. -/
theorem Exits.not_goesOn (h : s.Exits set P saved c waiting) (hwithin : s.Within c waiting) :
    ¬ s.GoesOn := by
  cases h with
  | @evaluating z above env hevaluates hsize hvalue habove =>
      obtain ⟨inner, saved', hframes, hnone⟩ := hwithin
      have hinner : z.frames ++ .giveBack :: above = inner := by
        have hsplit : (z.frames ++ .giveBack :: above) ++ .activation saved c :: waiting =
            inner ++ .activation saved' c :: waiting := by
          rw [List.append_assoc, List.cons_append]
          exact hframes
        exact (List.append_inj' hsplit rfl).1
      rw [← hinner, inCall_append, Bool.or_eq_false_iff] at hnone
      cases hevaluates with
      | @here z hcontrol hframes _ =>
          rintro (hexec | hrun | ⟨heval, htest⟩)
          · rw [show z.control = _ from hexec] at hcontrol
            cases hcontrol
          · rw [show z.control = _ from hrun] at hcontrol
            cases hcontrol
          · cases hz : z.frames with
            | nil =>
                rw [onto, hz] at htest
                cases htest
            | cons frame rest =>
                rw [onto, hz] at htest
                rw [hz] at hframes
                cases htest
                cases hframes _ List.mem_cons_self
      | away =>
          rw [onto, inCall_append, Bool.or_eq_false_iff] at hnone
          cases hnone.1.2
  | passing hcontrol =>
      rintro (h | h | ⟨h, _⟩) <;> cases hcontrol.symm.trans h
  | failing hcontrol =>
      rintro (h | h | ⟨h, _⟩) <;> cases hcontrol.symm.trans h

/-- Between a statement and the call it is executed in stand frames that a return passes. -/
theorem passed_of_stack {env : Nat} {st : Store} {owed : List Bytes}
    (h : Stack W R st (.done owed) env frames)
    (hframes : frames = above ++ .activation saved c :: waiting) (hnone : inCall above = false) :
    ∀ frame ∈ above, Frame.isPassed frame = true := by
  induction above generalizing frames env owed with
  | nil => exact List.forall_mem_nil _
  | cons frame above ih =>
      obtain ⟨hframe, hothers⟩ := Bool.or_eq_false_iff.mp hnone
      cases h with
      | program =>
          obtain ⟨_, hnil⟩ := List.cons.inj hframes
          exact absurd hnil.symm (List.append_ne_nil_of_right_ne_nil _ (List.cons_ne_nil _ _))
      | push hlink hrest =>
          obtain ⟨rfl, hbelow⟩ := List.cons.inj hframes
          cases hlink with
          | body | sequence | scope =>
              exact List.forall_mem_cons.mpr ⟨rfl, ih hrest hbelow hothers⟩
          | activation => cases hframe

end State

/-- A return that is executed is on its way to the end of its call, with the value it gives. -/
theorem Valid.exits {keyword span : Range} {value : Option Expr} (hvalid : Valid W R s)
    (hcontrol : s.control = .exec (.ret keyword value span))
    (hframes : s.frames = above ++ .activation saved c :: waiting) (hnone : inCall above = false)
    (hstep : advance set s = .next t) :
    t.Exits set (s.GivesBack set value) saved c waiting := by
  obtain ⟨control, frames, env, depth, store, trace⟩ := s
  obtain rfl : control = _ := hcontrol
  obtain ⟨hstore, hpoised⟩ := hvalid
  cases hpoised with
  | exec hexecutes hstack =>
      have habove := State.passed_of_stack hstack hframes hnone
      obtain rfl : frames = _ := hframes
      cases value with
      | none =>
          cases hstep
          exact .passing rfl .nothing rfl habove
      | some e =>
          cases hstep
          let z : State := ⟨.eval e, [], env, depth, store, trace⟩
          obtain ⟨base, Γ, hchain, _⟩ := hexecutes
          have hevaluates : z.Evaluates env := .here rfl (List.forall_mem_nil _) rfl
          refine State.Exits.evaluating (z := z) hevaluates (hstore.lt_of_chain hchain) ?_ habove
          intro x v hx hthrough hvalue
          exact .value (concludes_onto_iff.mpr ⟨x, hx, hthrough, rfl⟩) hvalue

/-- Whatever comes in a call after a return comes while that is on its way, or ends the call. -/
theorem Valid.after_return {keyword span : Range} {value : Option Expr} (hvalid : Valid W R u)
    (hu : Lasts set waiting m s u) (hwithin : u.Within c waiting)
    (hcontrol : u.control = .exec (.ret keyword value span)) (hlater : m < n)
    (ht : Lasts set waiting n s t) :
    ∃ saved, t.Exits set (u.GivesBack set value) saved c waiting ∨
      (t.frames = waiting ∧ ∃ e, t.control = .failing e) ∨
      ∃ v y, u.GivesBack set value v ∧ Reaches set u y ∧ y.control = .returning v ∧
        y.frames = .activation saved c :: waiting ∧ advance set y = .next t := by
  obtain ⟨above, saved, hframes, hnone⟩ := hwithin
  obtain ⟨k, rfl⟩ := Nat.exists_eq_add_of_lt hlater
  have hrest : Lasts set waiting (k + 1) u t := hu.later ht
  obtain ⟨x, hstep, _⟩ := exists_next_of_run hrest.1
  have hexits := hvalid.exits hcontrol hframes hnone hstep
  refine ⟨saved, (hexits.lasts (hrest.next hstep)).imp_right (Or.imp_right ?_)⟩
  rintro ⟨v, y, hv, hy, hlast⟩
  exact ⟨v, y, hv, (Reaches.of_next hstep).trans hy, hlast⟩

/-- After a return nothing of the body is executed. -/
theorem Valid.not_goesOn {keyword span : Range} {value : Option Expr} (hvalid : Valid W R u)
    (hu : Lasts set waiting m s u) (hwithin : u.Within c waiting)
    (hcontrol : u.control = .exec (.ret keyword value span)) (hlater : m < n)
    (ht : Lasts set waiting n s t) (htwithin : t.Within c waiting) : ¬ t.GoesOn := by
  obtain ⟨saved, hexits | ⟨hover, _⟩ | ⟨v, y, _, _, hy, hframes, hlast⟩⟩ :=
    hvalid.after_return hu hwithin hcontrol hlater ht
  · exact hexits.not_goesOn htwithin
  · exact absurd hover htwithin.frames_ne
  · exact absurd (State.next_of_returning hy hframes hlast).1 htwithin.frames_ne

/-- A call that comes to a value after a return was ended by that return. -/
theorem Valid.ends_of_return {keyword span : Range} {value : Option Expr} {w : Value}
    (hvalid : Valid W R u) (hu : Lasts set waiting m s u) (hwithin : u.Within c waiting)
    (hcontrol : u.control = .exec (.ret keyword value span))
    (hconcludes : Concludes set waiting s t) (hvalue : t.control = .value w) :
    ∃ v y, u.GivesBack set value v ∧ Reaches set u y ∧ y.control = .returning v ∧
      y.Within c waiting ∧ advance set y = .next t ∧ (c.decl.kind ≠ .initializer → w = v) ∧
      (c.decl.kind = .initializer → y.store.getAt c.env 0 (utf8 "this") = .ok w) := by
  obtain ⟨n, ht, hhands⟩ := exists_lasts hconcludes
  have hlater : m < n := by
    refine Nat.lt_of_le_of_ne (hu.le_of_hands ht hhands) ?_
    rintro rfl
    cases hu.1.symm.trans ht.1
    exact hwithin.frames_ne hhands.1
  obtain ⟨saved, hexits | ⟨_, e, hfailing⟩ | ⟨v, y, hv, hreached, hy, hframes, hlast⟩⟩ :=
    hvalid.after_return hu hwithin hcontrol hlater ht
  · exact absurd hhands.1 hexits.frames_ne
  · cases hfailing.symm.trans hvalue
  · obtain ⟨_, w', hw', hkind⟩ := State.next_of_returning hy hframes hlast
    cases hw'.symm.trans hvalue
    exact ⟨v, y, hv, hreached, hy, ⟨[], saved, hframes, rfl⟩, hlast, hkind⟩

end LoxMachine
