import LoxMachine.Proofs.Parser.Numbers
import LoxMachine.Proofs.Session.Globals

/-!
# Node numbers of a session

All texts of a session share one supply of node numbers.  A number stands for the same node
in all of them, so that what has been recorded for it is never replaced.
-/

namespace LoxMachine

namespace Module

/-- Texts parsed one after another, each with the faults of its own scan, with numbers that
continue after those of the text before. -/
def parseAll : (lastId : Nat) → List (Source × ModuleKind) → Except Malformed (List Outcome)
  | _, [] => .ok []
  | lastId, (src, kind) :: texts => do
      let outcome ← parse (Token.scan src).1 kind lastId (Token.scan src).2
      let outcomes ← parseAll outcome.lastId texts
      return outcome :: outcomes

/-- All texts are parsed, and no two nodes of them have the same number. -/
theorem fresh_parseAll (lastId : Nat) (texts : List (Source × ModuleKind)) :
    ∃ outcomes, parseAll lastId texts = .ok outcomes ∧ outcomes.length = texts.length ∧
      (∀ o ∈ outcomes, ∀ id ∈ o.module.ids, lastId < id) ∧
      (outcomes.flatMap fun o => o.module.ids).Nodup ∧
      outcomes.Pairwise fun earlier later =>
        ∀ i ∈ earlier.module.ids, ∀ j ∈ later.module.ids, i < j := by
  induction texts generalizing lastId with
  | nil => exact ⟨[], rfl, rfl, nofun, List.nodup_nil, .nil⟩
  | cons text texts ih =>
      obtain ⟨src, kind⟩ := text
      obtain ⟨ts, eof, htokens, heof, _⟩ := Token.scan_tokens src
      obtain ⟨m, c, _, hparse⟩ := Grammar.parse_eq_ok ts heof kind lastId (Token.scan src).2
      have hfresh := fresh_of_parse hparse
      obtain ⟨outcomes, hrest, hlength, hbeyond, hnodup, hpairwise⟩ := ih c.lastId
      -- The later texts start with the number after the last one of this text.
      have hlt : ∀ o ∈ outcomes, ∀ i ∈ m.ids, ∀ j ∈ o.module.ids, i < j := fun o ho i hi j hj =>
        Nat.lt_of_le_of_lt (hfresh.range i hi).2 (hbeyond o ho j hj)
      refine ⟨⟨m, c.lastId, c.bag⟩ :: outcomes, ?_, congrArg Nat.succ hlength, ?_, ?_,
        List.pairwise_cons.mpr ⟨hlt, hpairwise⟩⟩
      · rw [parseAll, htokens, hparse]
        simp only [bind, Except.bind, hrest]
        rfl
      · intro o ho id hid
        rcases List.mem_cons.mp ho with rfl | ho
        · exact (hfresh.range id hid).1
        · exact Nat.lt_of_le_of_lt hfresh.le (hbeyond o ho id hid)
      · rw [List.flatMap_cons, List.nodup_append]
        refine ⟨hfresh.nodup, hnodup, fun i hi j hj => ?_⟩
        obtain ⟨o, ho, hj⟩ := List.mem_flatMap.mp hj
        exact Nat.ne_of_lt (hlt o ho i hi j hj)

end Module

namespace Session

variable {s t : Session} {runs : List Run}

/-- The depths of a text that compiles add to those of the session. -/
theorem Coherent.depth?_merge (h : s.Coherent runs) {src : Source} {kind : ModuleKind}
    {c : Compiled} (hcompile : s.compile src kind = (.ok c, t)) {id depth : Nat}
    (hid : s.depths.depth? id = some depth) :
    (t.depths.merge c.depths).depth? id = some depth := by
  obtain ⟨hquiet, hresolves⟩ := s.compile_spec src kind
  rw [hcompile] at hquiet hresolves
  have hused : ¬ s.lastId < id := fun hlt => by
    rw [h.unused id hlt] at hid
    cases hid
  have hnone : c.depths.depth? id = none := hresolves.depth?_of_le (Nat.le_of_not_lt hused)
  rw [Depths.depth?_merge, hnone, hquiet.depths]
  exact hid

theorem Coherent.depth?_eval (h : s.Coherent runs) (fuel : Nat) (src : Source)
    (kind : ModuleKind) {id depth : Nat} (hid : s.depths.depth? id = some depth) :
    (s.eval fuel src kind).2.depths.depth? id = some depth := by
  have hquiet := (s.compile_spec src kind).1
  unfold Session.eval
  cases hcompile : s.compile src kind with
  | mk outcome t =>
      rw [hcompile] at hquiet
      cases outcome with
      | error failure => exact hquiet.depths ▸ hid
      | ok c =>
          dsimp only
          rw [(quiet_finish _ _ _ _).depths]
          dsimp only
          rw [prepare_depths]
          exact h.depth?_merge hcompile hid

theorem Coherent.depth?_perform (h : s.Coherent runs) (fuel : Nat) (request : Request)
    {id depth : Nat} (hid : s.depths.depth? id = some depth) :
    (s.perform fuel request).2.depths.depth? id = some depth := by
  have hsource : ∀ src kind, (s.runSource fuel src kind).2.depths.depth? id = some depth := by
    intro src kind
    have heval := h.depth?_eval fuel src kind hid
    unfold Session.runSource
    split
    next hresult => rwa [hresult] at heval
    next hresult =>
      rw [hresult] at heval
      exact heval
  cases request with
  | line text => exact hsource _ _
  | eval src kind => exact h.depth?_eval fuel src kind hid
  | run src kind => exact hsource src kind
  | file host uri =>
      simp only [Session.perform, Session.runFile]
      cases host.read uri with
      | ok src => exact hsource src _
      | error message => exact hid

theorem Coherent.depth?_after (h : s.Coherent runs) (history : List (Request × Nat))
    {id depth : Nat} (hid : s.depths.depth? id = some depth) :
    (s.after history).depths.depth? id = some depth := by
  induction history generalizing s runs with
  | nil => exact hid
  | cons step history ih =>
      obtain ⟨request, fuel⟩ := step
      exact ih (h.perform fuel request).2.2 (h.depth?_perform fuel request hid)

theorem after_append (s : Session) (before later : List (Request × Nat)) :
    s.after (before ++ later) = (s.after before).after later := by
  induction before generalizing s with
  | nil => rfl
  | cons step before ih =>
      obtain ⟨request, fuel⟩ := step
      exact ih _

/-- Texts that are parsed with shared numbers, complaints or not, have nodes with different
numbers, none of them zero and those of a later text larger.  So a text that compiles never
changes what a session has recorded for a node, and neither does any request. -/
theorem numbers_identify_nodes (lastId : Nat) (texts : List (Source × ModuleKind))
    (options : Options) (logging : Bool) (clock : Clock) (before later : List (Request × Nat)) :
    (∃ outcomes, Module.parseAll lastId texts = .ok outcomes ∧ outcomes.length = texts.length ∧
      (∀ o ∈ outcomes, ∀ id ∈ o.module.ids, lastId < id) ∧
      (outcomes.flatMap fun o => o.module.ids).Nodup ∧
      outcomes.Pairwise fun earlier later =>
        ∀ i ∈ earlier.module.ids, ∀ j ∈ later.module.ids, i < j) ∧
    (∀ src kind c t, ((new options logging clock).after before).compile src kind = (.ok c, t) →
      ∀ id depth, ((new options logging clock).after before).depths.depth? id = some depth →
        (t.depths.merge c.depths).depth? id = some depth) ∧
    ∀ id depth, ((new options logging clock).after before).depths.depth? id = some depth →
      ((new options logging clock).after (before ++ later)).depths.depth? id = some depth := by
  have hcoherent := (coherent_new options logging clock).after before
  refine ⟨Module.fresh_parseAll lastId texts, ?_, ?_⟩
  · intro src kind c t hcompile id depth hid
    exact hcoherent.depth?_merge hcompile hid
  · intro id depth hid
    rw [after_append]
    exact hcoherent.depth?_after later hid

end Session

end LoxMachine
