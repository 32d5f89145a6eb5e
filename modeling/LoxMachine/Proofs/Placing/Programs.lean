import LoxMachine.Proofs.Machine.Arguments
import LoxMachine.Proofs.Machine.Ground
import LoxMachine.Proofs.Machine.Printing

/-!
# Programs one after another

A program that finishes comes to its end where it began, with nothing left to wait for.
So a program with more statements behind it runs the same up to there, and then goes on
with these as with a program of its own.
-/

namespace LoxMachine

open Scope

variable {set set' : Setting} {s t : State} {h : Surroundings} {W : World} {R : Sites}

/-! ## Nodes -/

/-- The nodes that a valid state looks up belong to its sites. -/
theorem Valid.consulted (h : Valid W R s) {id : Nat} (hid : id ∈ s.consulted) :
    ∃ base site, R base site ∧ id ∈ site.ids := by
  obtain ⟨control, frames, env, depth, store, trace⟩ := s
  obtain ⟨hs, hpoised⟩ := h
  cases hpoised with
  | @eval _ e h _ =>
      obtain ⟨base, Γ, _, _, hsites⟩ := h
      cases e with
      | var | this | super => exact ⟨base, _, hsites _ List.mem_cons_self, hid⟩
      | _ => cases hid
  | value _ hstack =>
      cases hstack with
      | push hlink _ =>
          cases hlink with
          | assign h =>
              obtain ⟨base, Γ, _, _, hsites⟩ := h
              exact ⟨base, _, hsites _ List.mem_cons_self, hid⟩
          | _ => cases hid
  | @exec _ stmt h _ =>
      obtain ⟨base, Γ, _, _, hsites⟩ := h
      cases stmt with
      | classDecl className superclass methods span =>
          cases superclass with
          | none => cases hid
          | some parent =>
              refine ⟨base, _, hsites _ (List.mem_cons_of_mem _
                (List.mem_append_left _ List.mem_cons_self)), hid⟩
      | _ => cases hid
  | _ => cases hid

/-! ## What is printed -/

theorem printing?_within (hleaves : ¬ s.Leaves h) : (s.within h).printing? = s.printing? := by
  obtain ⟨control, frames, env, depth, store, trace⟩ := s
  cases control with
  | value v =>
      cases frames with
      | nil =>
          obtain ⟨place, program, below, before⟩ := h
          obtain rfl : below = [] := Classical.not_not.mp hleaves
          rfl
      | cons frame frames =>
          cases frame with
          | print => exact congrArg some (store.text_place v)
          | _ => rfl
  | _ => rfl

/-- In other surroundings a run prints the same. -/
theorem printed_within (hf : Range.Keeps h.place) (n : Nat)
    (hstays : ∀ m < n, ∀ t, run set m s = (none, t) →
      set.Serves set' t.consulted ∧ ¬ t.Leaves h) :
    printed set' n (s.within h) = printed set n s := by
  induction n generalizing s with
  | zero => rfl
  | succ n ih =>
      obtain ⟨hset, hleaves⟩ := hstays 0 (Nat.succ_pos n) s rfl
      rw [printed, printed, advance_within hf hset hleaves, printing?_within hleaves]
      cases hstep : advance set s with
      | halt ending t => rfl
      | next s' =>
          refine congrArg (_ ++ ·) (ih fun m hm t ht => hstays (m + 1) (Nat.succ_lt_succ hm) t ?_)
          rw [run, hstep]
          exact ht

/-! ## Without places -/

/-- The statements without their places. -/
def Stmt.bareAll (body : List Stmt) : List Stmt :=
  Stmt.placeAll (fun _ => Range.nowhere) body

/-- The store without the places of its code. -/
def Store.bare (st : Store) : Store :=
  st.place fun _ => Range.nowhere

@[simp] theorem Stmt.bareAll_append (body rest : List Stmt) :
    Stmt.bareAll (body ++ rest) = Stmt.bareAll body ++ Stmt.bareAll rest :=
  Stmt.placeAll_append _ body rest

@[simp] theorem Stmt.bareAll_placeAll (f : Range → Range) (body : List Stmt) :
    Stmt.bareAll (Stmt.placeAll f body) = Stmt.bareAll body :=
  Stmt.placeAll_placeAll f _ body

@[simp] theorem Stmt.bareAll_bareAll (body : List Stmt) :
    Stmt.bareAll (Stmt.bareAll body) = Stmt.bareAll body :=
  Stmt.bareAll_placeAll _ body

@[simp] theorem Store.bare_place (f : Range → Range) (st : Store) : (st.place f).bare = st.bare :=
  Store.place_place f _ st

/-- No statements and no frames around a state, and no places in it. -/
def Surroundings.bare : Surroundings := ⟨fun _ => Range.nowhere, [], [], #[]⟩

/-- The state without the places of its code and without what was written. -/
def State.bare (s : State) : State :=
  ({ s with trace := #[] } : State).within .bare

def Ending.bare : Ending → Ending :=
  Ending.place fun _ => Range.nowhere

theorem State.not_leaves_bare (s : State) : ¬ s.Leaves .bare := by
  unfold Leaves
  split <;> simp [Surroundings.bare]

/-- What was written before makes no difference to a run. -/
theorem run_trace (set : Setting) (n : Nat) (s : State) (before : Array Event) :
    (run set n { s with trace := before }).1 = (run set n s).1 ∧
      printed set n { s with trace := before } = printed set n s ∧
      (run set n { s with trace := before }).2.bare = (run set n s).2.bare := by
  have hagrees : set.options.Agrees set.options := ⟨rfl, rfl⟩
  obtain ⟨hending, hprinted, _, _, _, hstate, _⟩ := run_options hagrees n s before
  exact ⟨hending, hprinted, (congrArg State.bare hstate).trans rfl⟩

/-- States that are the same but for places run alike. -/
theorem run_bare (hset : ∀ ids, set.Serves set' ids) (hbare : t.bare = s.bare) (n : Nat) :
    (run set' n t).1.map Ending.bare = (run set n s).1.map Ending.bare ∧
      printed set' n t = printed set n s ∧ (run set' n t).2.bare = (run set n s).2.bare := by
  have hmine : run set' n s.bare = _ := run_within (h := .bare) Range.keeps_nowhere n
    (s := { s with trace := #[] }) fun _ _ u _ => ⟨hset _, u.not_leaves_bare⟩
  have hyours : run set' n t.bare = _ := run_within (h := .bare) Range.keeps_nowhere n
    (s := { t with trace := #[] }) fun _ _ u _ => ⟨set'.serves_refl _, u.not_leaves_bare⟩
  have hmine' : printed set' n s.bare = _ := printed_within (h := .bare) Range.keeps_nowhere n
    (s := { s with trace := #[] }) fun _ _ u _ => ⟨hset _, u.not_leaves_bare⟩
  have hyours' : printed set' n t.bare = _ := printed_within (h := .bare) Range.keeps_nowhere n
    (s := { t with trace := #[] }) fun _ _ u _ => ⟨set'.serves_refl _, u.not_leaves_bare⟩
  obtain ⟨hs, hsprinted, hsstate⟩ := run_trace set n s #[]
  obtain ⟨ht, htprinted, htstate⟩ := run_trace set' n t #[]
  rw [hbare] at hyours hyours'
  have heq := hyours.symm.trans hmine
  rw [hs, ht] at heq
  refine ⟨congrArg Prod.fst heq, ?_, ?_⟩
  · rw [← htprinted, ← hsprinted]
    exact hyours'.symm.trans hmine'
  · rw [← htstate, ← hsstate]
    exact congrArg (fun result => ({ result.2 with trace := #[] } : State)) heq

/-! ## The end of a program -/

/-- A run that ends takes a last step. -/
theorem run_last {n : Nat} {ending : Ending} (hrun : run set n s = (some ending, t)) :
    ∃ m < n, ∃ u, run set m s = (none, u) ∧ advance set u = .halt ending t := by
  induction n generalizing s with
  | zero => cases hrun
  | succ n ih =>
      rw [run] at hrun
      cases hstep : advance set s with
      | halt ending' u =>
          rw [hstep] at hrun
          cases hrun
          exact ⟨0, Nat.succ_pos n, s, rfl, hstep⟩
      | next s' =>
          rw [hstep] at hrun
          obtain ⟨m, hm, u, hreached, hlast⟩ := ih hrun
          refine ⟨m + 1, Nat.succ_lt_succ hm, u, ?_, hlast⟩
          rw [run, hstep]
          exact hreached

/-- The step before a state that a run comes to. -/
theorem run_previous {n : Nat} (hrun : run set (n + 1) s = (none, t)) :
    ∃ u, run set n s = (none, u) ∧ advance set u = .next t := by
  induction n generalizing s with
  | zero =>
      obtain ⟨s', hstep, hrest⟩ := exists_next_of_run hrun
      cases hrest
      exact ⟨s, rfl, hstep⟩
  | succ n ih =>
      obtain ⟨s', hstep, hrest⟩ := exists_next_of_run hrun
      obtain ⟨u, hreached, hlast⟩ := ih hrest
      exact ⟨u, (run_of_next hstep n).trans hreached, hlast⟩

/-- Only the end of the program leaves nothing to wait for. -/
theorem Valid.program_of_next (hvalid : Valid W R s) (hstep : advance set s = .next t)
    (hcontrol : t.control = .done) (hframes : t.frames = []) :
    s.control = .done ∧ s.frames = [.program []] := by
  obtain ⟨control, frames, env, depth, store, trace⟩ := s
  obtain ⟨_, hpoised⟩ := hvalid
  dsimp only at hpoised
  rcases List.eq_nil_or_concat frames with rfl | ⟨above, bottom, rfl⟩
  · -- Without frames a valid machine stops.
    cases hpoised with
    | finished | failed => cases hstep
    | eval h hstack | exec h hstack | run h hstack | call _ _ hstack | value h hstack
    | done h hstack | returning h hstack | failing hstack => cases hstack
  · rw [List.concat_eq_append] at hpoised hstep
    let top : State := ⟨control, above, env, depth, store, trace⟩
    by_cases hleaves : top.Leaves ⟨fun r => r, [], [bottom], #[]⟩
    · obtain ⟨habove, houtcome⟩ := State.through_of_leaves hleaves
      obtain rfl : above = [] := habove
      cases hpoised with
      | value _ hstack => cases hstack with | push _ hrest => cases hrest
      | done _ hstack =>
          cases hstack with
          | push _ hrest => cases hrest
          | @program _ _ rest =>
              cases rest with
              | nil => exact ⟨rfl, rfl⟩
              | cons stmt rest =>
                  cases hstep
                  cases hframes
      | returning _ hstack =>
          cases hstack with
          | push _ hrest => cases hrest
          | program =>
              cases hstep
              cases hframes
      | failing hstack =>
          cases hstack with
          | push _ hrest => cases hrest
          | program =>
              cases hstep
              cases hcontrol
      | _ => exact houtcome.elim
    · -- The lowest frame is still there.
      have honto := advance_onto set hleaves
      rw [show advance set (top.onto [bottom]) = .next t from hstep] at honto
      cases htop : advance set top with
      | halt ending u =>
          rw [htop] at honto
          cases honto
      | next u =>
          rw [htop] at honto
          cases honto
          exact absurd hframes (List.append_ne_nil_of_right_ne_nil _ (List.cons_ne_nil _ _))

theorem Valid.reached (hvalid : Valid W R s)
    (hR : ∀ base site, R base site → site.Settled set.depths) {n : Nat}
    (hrun : run set n s = (none, t)) : ∃ W', Valid W' R t := by
  obtain ⟨_, W', _, _, _, hstill⟩ := run_valid hR n hvalid
  rw [hrun] at hstill
  exact ⟨W', hstill rfl⟩

/-- The machine at the beginning of a program. -/
def State.beginning (body : List Stmt) (env depth : Nat) (st : Store) (trace : Array Event) :
    State :=
  ⟨.done, [.program body], env, depth, st, trace⟩

/-- The machine has come to the end of its program. -/
def State.AtEnd (s : State) : Prop :=
  s.control = .done ∧ ∃ below, s.frames = .program [] :: below

/-- A program that finishes comes to its end where it began, and not before. -/
theorem run_finished {body : List Stmt} {env depth fuel : Nat} {st : Store} {trace : Array Event}
    {final : State} (hR : ∀ base site, R base site → site.Settled set.depths)
    (hvalid : Valid W R (.beginning body env depth st trace))
    (hrun : run set fuel (.beginning body env depth st trace) = (some .finished, final)) :
    ∃ n < fuel,
      run set n (.beginning body env depth st trace) =
        (none, .beginning [] env depth final.store final.trace) ∧
      ∀ m < n, ∀ t, run set m (.beginning body env depth st trace) = (none, t) → ¬ t.AtEnd := by
  obtain ⟨m, hm, u, hreached, hlast⟩ := run_last hrun
  obtain ⟨hcontrol, hframes, rfl⟩ := eq_of_finished hlast
  cases m with
  | zero =>
      cases hreached
      cases hframes
  | succ n =>
      obtain ⟨v, hbefore, hstep⟩ := run_previous hreached
      obtain ⟨W', hvalid'⟩ := hvalid.reached hR hbefore
      obtain ⟨hdone, hprogram⟩ := hvalid'.program_of_next hstep hcontrol hframes
      have hground := ground_run hbefore
      obtain ⟨control, frames, env', depth', st', trace'⟩ := v
      obtain rfl : control = .done := hdone
      obtain rfl : frames = [.program []] := hprogram
      obtain ⟨rfl, rfl⟩ : env' = env ∧ depth' = depth := Prod.mk.inj hground
      cases hstep
      refine ⟨n, Nat.lt_of_succ_lt hm, hbefore, ?_⟩
      rintro k hk ⟨control, frames, env, depth, st, trace⟩ ht ⟨hdone, below, hprogram⟩
      obtain rfl : control = .done := hdone
      obtain rfl : frames = .program [] :: below := hprogram
      obtain ⟨_, _, hpoised⟩ := hvalid.reached hR ht
      obtain rfl : below = [] := by
        cases hpoised with
        | done _ hstack =>
            cases hstack with
            | program => rfl
            | push hlink _ => cases hlink
      -- From there it is two steps until the machine stops.
      obtain ⟨j, hj⟩ : ∃ j, n + 1 = k + (j + 2) := ⟨n - k - 1, by omega⟩
      rw [hj, run_add ht] at hreached
      cases hreached

theorem State.bare_beginning (body : List Stmt) (env depth : Nat) (st : Store)
    (trace : Array Event) :
    (State.beginning body env depth st trace).bare =
      .beginning (Stmt.bareAll body) env depth st.bare #[] :=
  congrArg (fun body => State.beginning body env depth st.bare #[]) (List.append_nil _)

/-- At its end a program has nothing more to print. -/
theorem printed_end (set : Setting) (n env depth : Nat) (st : Store) (trace : Array Event) :
    printed set n (.beginning [] env depth st trace) = [] := by
  match n with
  | 0 | 1 | _ + 2 => rfl

theorem printed_add {m : Nat} (hreached : run set m s = (none, t)) (n : Nat) :
    printed set (m + n) s = printed set m s ++ printed set n t := by
  induction m generalizing s with
  | zero =>
      cases hreached
      rw [Nat.zero_add]
      rfl
  | succ m ih =>
      rw [Nat.succ_add, printed, printed]
      rw [run] at hreached
      cases hstep : advance set s with
      | halt ending u =>
          rw [hstep] at hreached
          cases hreached
      | next s' =>
          rw [hstep] at hreached
          dsimp only
          rw [ih hreached, List.append_assoc]

/-- Only the end of a program leaves surroundings without frames. -/
theorem State.atEnd_of_leaves {f : Range → Range} {rest : List Stmt} {before : Array Event}
    (h : s.Leaves ⟨f, rest, [], before⟩) : s.AtEnd := by
  unfold Leaves at h
  split at h
  next hcontrol hframes => exact ⟨hcontrol, _, hframes⟩
  next => exact absurd rfl h
  next => exact absurd rfl h
  next => exact absurd rfl h
  next => exact absurd rfl h
  next => exact h.elim

/-- But for places, a program with statements behind it is the longer program. -/
theorem State.bare_beginning_within (f : Range → Range) (body rest : List Stmt) (env depth : Nat)
    (st : Store) (trace before : Array Event) :
    ((State.beginning body env depth st trace).within ⟨f, Stmt.bareAll rest, [], before⟩).bare =
      (State.beginning (body ++ rest) env depth st trace).bare := by
  have hwithin : (State.beginning body env depth st trace).within
      ⟨f, Stmt.bareAll rest, [], before⟩ =
      .beginning (Stmt.placeAll f body ++ Stmt.bareAll rest) env depth (st.place f)
        (before ++ trace) := rfl
  rw [hwithin, bare_beginning, bare_beginning]
  simp only [Stmt.bareAll_append, Stmt.bareAll_placeAll, Stmt.bareAll_bareAll, Store.bare_place]

/-- A program that finishes is followed by the rest of a longer one, in whatever places the
code of both stands. -/
theorem run_joined {body rest joined : List Stmt} {env depth fuel : Nat} {st : Store}
    {trace trace' : Array Event} {final : State}
    (hR : ∀ base site, R base site → site.Settled set.depths)
    (hdepths : ∀ base site, R base site → ∀ id ∈ site.ids,
      set'.depths.depth? id = set.depths.depth? id)
    (hset : set.Serves set' [])
    (hvalid : Valid W R (.beginning body env depth st trace))
    (hrun : run set fuel (.beginning body env depth st trace) = (some .finished, final))
    (hjoined : Stmt.bareAll joined = Stmt.bareAll body ++ Stmt.bareAll rest) :
    ∃ n < fuel, ∃ t, run set' n (.beginning joined env depth st trace') = (none, t) ∧
      t.bare = (State.beginning rest env depth final.store #[]).bare ∧
      printed set' n (.beginning joined env depth st trace') =
        printed set fuel (.beginning body env depth st trace) := by
  obtain ⟨n, hn, hend, hbefore⟩ := run_finished hR hvalid hrun
  let h : Surroundings := ⟨fun _ => Range.nowhere, Stmt.bareAll rest, [], #[]⟩
  have hstays : ∀ m < n, ∀ t, run set m (.beginning body env depth st trace) = (none, t) →
      set.Serves set' t.consulted ∧ ¬ t.Leaves h := by
    intro m hm t ht
    refine ⟨?_, fun hleaves => hbefore m hm t ht (State.atEnd_of_leaves hleaves)⟩
    obtain ⟨W', hvalid'⟩ := hvalid.reached hR ht
    refine { hset with depths := fun id hid => ?_ }
    obtain ⟨base, site, hsite, hmem⟩ := hvalid'.consulted hid
    exact hdepths base site hsite id hmem
  have hwithin := run_within Range.keeps_nowhere n hstays
  have hprinted := printed_within Range.keeps_nowhere n hstays
  have hbare : (State.beginning joined env depth st trace').bare =
      ((State.beginning body env depth st trace).within h).bare := by
    rw [State.bare_beginning_within, State.bare_beginning, State.bare_beginning,
      Stmt.bareAll_append, hjoined]
  obtain ⟨hending, hsame, hstate⟩ := run_bare set'.serves_refl hbare n
  rw [hwithin, hend] at hending hstate
  cases hrun' : run set' n (.beginning joined env depth st trace') with
  | mk ending t =>
      rw [hrun'] at hending hstate
      obtain rfl : ending = none := Option.map_eq_none_iff.mp hending
      refine ⟨n, hn, t, hrun', hstate.trans (State.bare_beginning_within ..), ?_⟩
      -- Behind its end the first program prints nothing.
      obtain ⟨k, rfl⟩ := Nat.exists_eq_add_of_lt hn
      rw [hsame, hprinted, Nat.add_assoc, printed_add hend, printed_end, List.append_nil]

end LoxMachine
