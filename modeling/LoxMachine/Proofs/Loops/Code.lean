import LoxMachine.Proofs.Loops.Passes
import LoxMachine.Proofs.Loops.Stores

/-!
# Code in folded stores

The scopes around a piece of code and the environments around the one it runs in are the same,
those of rounds among them.  So the depths of both tables lead to the same variable, the one
in a store and the other in the folded store.
-/

namespace LoxMachine

open Scope Store

namespace Folding

/-- From `env` outwards lie environments for these scopes, and behind them one that is not of a
round. -/
inductive Nests (φ : Folding) (st : Store) : Nat → List Bool → Prop where
  | outermost {env} (henv : env < st.envs.size) (hidle : φ.idle env = false) : Nests φ st env []
  | inside {env parent idle g} (hparent : st.parent? env = some parent)
      (hidle : φ.idle env = idle) (h : Nests φ st parent g) : Nests φ st env (idle :: g)

/-- The environment is one for code whose marks, in the scopes around it, are known. -/
def Suits (K : Mark → Prop) (φ : Folding) (st : Store) (env : Nat)
    (marks : List Bool → List Mark) : Prop :=
  ∃ g, Nests φ st env g ∧ ∀ mark ∈ marks g, K mark

/-- The later store has the environments of the earlier one, folded as before. -/
structure Grows (φ φ' : Folding) (st later : Store) : Prop where
  agrees : φ.Agrees φ' st.envs.size
  size : st.envs.size ≤ later.envs.size
  parent : ∀ o < st.envs.size, later.parent? o = st.parent? o

end Folding

open Folding

variable {K K' : Mark → Prop} {φ φ' : Folding} {st st' later : Store} {env : Nat} {g : List Bool}
  {marks more : List Bool → List Mark}

/-! ## Environments -/

theorem Folding.Nests.lt (h : Nests φ st env g) : env < st.envs.size := by
  cases h with
  | outermost henv => exact henv
  | inside hparent => exact lt_of_parent? hparent

theorem Folding.Nests.bare (h : Nests φ st env g) (hbare : g.head? ≠ some true) :
    φ.idle env = false := by
  cases h with
  | outermost _ hidle => exact hidle
  | @inside _ _ idle _ _ hidle =>
      cases idle with
      | false => exact hidle
      | true => exact absurd rfl hbare

theorem Folding.Nests.mono (h : Nests φ st env g) (hgrows : Grows φ φ' st later) :
    Nests φ' later env g := by
  induction h with
  | outermost henv hidle =>
      exact .outermost (Nat.lt_of_lt_of_le henv hgrows.size) ((hgrows.agrees _ henv).2.trans hidle)
  | inside hparent hidle _ ih =>
      have henv := lt_of_parent? hparent
      exact .inside ((hgrows.parent _ henv).trans hparent) ((hgrows.agrees _ henv).2.trans hidle) ih

theorem Folding.Suits.mono (h : Suits K φ st env marks) (hgrows : Grows φ φ' st later) :
    Suits K φ' later env marks := by
  obtain ⟨g, hnests, hmarks⟩ := h
  exact ⟨g, hnests.mono hgrows, hmarks⟩

theorem Folding.Suits.lt (h : Suits K φ st env marks) : env < st.envs.size := by
  obtain ⟨_, hnests, _⟩ := h
  exact hnests.lt

/-- Code that is a part of other code. -/
theorem Folding.Suits.part (h : Suits K φ st env marks)
    (hsub : ∀ g, ∀ mark ∈ more g, mark ∈ marks g) : Suits K φ st env more := by
  obtain ⟨g, hnests, hmarks⟩ := h
  exact ⟨g, hnests, fun mark hmark => hmarks mark (hsub g mark hmark)⟩

theorem Folding.Suits.left (h : Suits K φ st env fun g => marks g ++ more g) :
    Suits K φ st env marks :=
  h.part fun _ _ => List.mem_append_left _

theorem Folding.Suits.right (h : Suits K φ st env fun g => marks g ++ more g) :
    Suits K φ st env more :=
  h.part fun _ _ => List.mem_append_right _

theorem Folding.Suits.nothing (h : Suits K φ st env marks) : Suits K φ st env fun _ => [] :=
  h.part fun _ => List.forall_mem_nil _

/-- A store with other objects and the same environments. -/
theorem grows_of_envs (φ : Folding) (henvs : later.envs = st.envs) : Grows φ φ st later where
  agrees := agrees_refl φ _
  size := Nat.le_of_eq (congrArg Array.size henvs.symm)
  parent o _ := by rw [parent?, henvs, parent?]

theorem grows_define (φ : Folding) (st : Store) (env : Nat) (name : Bytes) (v : Value) :
    Grows φ φ st (st.define env name v) where
  agrees := agrees_refl φ _
  size := Nat.le_of_eq size_define.symm
  parent o _ := parent?_define o

theorem grows_newEnv (φ : Folding) (st : Store) (parent : Nat) (vars : Bindings Value)
    (place : Nat) (idle : Bool) :
    Grows φ (φ.extend st.envs.size place idle) st (st.newEnv (some parent) vars).2 where
  agrees := φ.agrees_extend _ place idle
  size := by
    rw [size_newEnv]
    exact Nat.le_succ _
  parent _ ho := parent?_newEnv_lt ho

/-- A new environment for a scope inside those of another. -/
theorem Folding.Nests.newEnv (h : Nests φ st env g) (vars : Bindings Value) (place : Nat)
    (idle : Bool) :
    Nests (φ.extend st.envs.size place idle) (st.newEnv (some env) vars).2 st.envs.size
      (idle :: g) := by
  refine .inside ?_ (extend_idle_self ..) (h.mono (grows_newEnv φ st env vars place idle))
  rw [parent?_newEnv, if_pos rfl]

theorem Folding.Suits.newEnv {idle : Bool} (marks : List Bool → List Mark)
    (h : Suits K φ st env fun g => marks (idle :: g)) (vars : Bindings Value) (place : Nat) :
    Suits K (φ.extend st.envs.size place idle) (st.newEnv (some env) vars).2 st.envs.size
      marks := by
  obtain ⟨g, hnests, hmarks⟩ := h
  exact ⟨_, hnests.newEnv vars place idle, hmarks⟩

/-! ## Depths -/

/-- Both ways lead outwards to the same environment. -/
theorem Store.Folded.climb (h : Folded φ st st') (hnests : Nests φ st env g) {d d' : Nat}
    (hcounts : Counts g d d') :
    ∃ o < st.envs.size, φ.idle o = false ∧ st.climb d env = some o ∧
      st'.climb d' (φ.place env) = some (φ.place o) := by
  induction hnests generalizing d d' with
  | outermost => cases hcounts
  | @inside env parent idle g hparent hidle _ ih =>
      have henv := lt_of_parent? hparent
      cases hcounts with
      | here => exact ⟨env, henv, hidle, rfl, rfl⟩
      | outside hcounts =>
          obtain ⟨o, ho, hbare, hclimb, hclimb'⟩ := ih hcounts
          refine ⟨o, ho, hbare, ?_, ?_⟩
          · rw [climb_succ, hparent]
            exact hclimb
          · rw [climb_succ, h.parent env henv hidle, hparent]
            exact hclimb'
      | round hcounts =>
          obtain ⟨o, ho, hbare, hclimb, hclimb'⟩ := ih hcounts
          obtain ⟨⟨p, hp, hplace⟩, _⟩ := h.round env henv hidle
          obtain rfl : p = parent := Option.some.inj (hp.symm.trans hparent)
          refine ⟨o, ho, hbare, ?_, ?_⟩
          · rw [climb_succ, hparent]
            exact hclimb
          · rw [hplace]
            exact hclimb'

/-- A binding at a depth is found in the folded store, unless it is missing. -/
theorem Store.Folded.bindingAt_eq (h : Folded φ st st') (hnests : Nests φ st env g) {d d' : Nat}
    (hcounts : Counts g d d') (name : Bytes) :
    (∃ defect, st.bindingAt env d name = .error defect) ∨
      ∃ o v, o < st.envs.size ∧ φ.idle o = false ∧ st.bindingAt env d name = .ok (o, v) ∧
        st'.bindingAt (φ.place env) d' name = .ok (φ.place o, v) := by
  obtain ⟨o, ho, hbare, hclimb, hclimb'⟩ := h.climb hnests hcounts
  cases hbinding : st.bindingAt env d name with
  | error defect => exact .inl ⟨defect, rfl⟩
  | ok found =>
      obtain ⟨owner, v⟩ := found
      obtain ⟨howner, hat⟩ := bindingAt_eq_ok_iff.mp hbinding
      obtain rfl : owner = o := Option.some.inj (howner.symm.trans hclimb)
      refine .inr ⟨owner, v, ho, hbare, rfl, bindingAt_eq_ok hclimb' ?_⟩
      rw [h.vars owner ho hbare, hat]

theorem Store.Folded.getAt_eq (h : Folded φ st st') (hnests : Nests φ st env g) {d d' : Nat}
    (hcounts : Counts g d d') (name : Bytes) :
    (∃ defect, st.getAt env d name = .error defect) ∨
      ∃ v, st.getAt env d name = .ok v ∧ st'.getAt (φ.place env) d' name = .ok v := by
  unfold getAt
  rcases h.bindingAt_eq hnests hcounts name with ⟨defect, hbroken⟩ | ⟨o, v, _, _, hok, hok'⟩
  · exact .inl ⟨defect, by rw [hbroken]; rfl⟩
  · exact .inr ⟨v, by rw [hok]; rfl, by rw [hok']; rfl⟩

/-! ## Closures -/

/-- All code in the store suits the environment it was declared in. The methods of a class run
inside one scope more. -/
structure Store.Marked (K : Mark → Prop) (φ : Folding) (st : Store) : Prop where
  functions : ∀ c ∈ st.functions, Suits K φ st c.env fun g => functionMarks g c.decl
  classes : ∀ k ∈ st.classes, ∀ c ∈ k.closures,
    Suits K φ st c.env fun g => functionMarks (false :: g) c.decl

namespace Store

theorem Marked.bounded (h : Marked K φ st) : st.Bounded :=
  ⟨fun c hc => (h.functions c hc).lt, fun k hk c hc => (h.classes k hk c hc).lt⟩

theorem Marked.mono (h : Marked K φ st) (hgrows : Grows φ φ' st later)
    (hfunctions : later.functions = st.functions) (hclasses : later.classes = st.classes) :
    Marked K φ' later where
  functions c hc := (h.functions c (hfunctions ▸ hc)).mono hgrows
  classes k hk c hc := (h.classes k (hclasses ▸ hk) c hc).mono hgrows

theorem Marked.weaken (h : Marked K φ st) (hK : ∀ mark, K mark → K' mark) : Marked K' φ st where
  functions c hc := by
    obtain ⟨g, hnests, hmarks⟩ := h.functions c hc
    exact ⟨g, hnests, fun mark hmark => hK mark (hmarks mark hmark)⟩
  classes k hk c hc := by
    obtain ⟨g, hnests, hmarks⟩ := h.classes k hk c hc
    exact ⟨g, hnests, fun mark hmark => hK mark (hmarks mark hmark)⟩

theorem Marked.define (h : Marked K φ st) (env : Nat) (name : Bytes) (v : Value) :
    Marked K φ (st.define env name v) :=
  h.mono (grows_define φ st env name v) rfl rfl

theorem Marked.newEnv (h : Marked K φ st) (parent : Nat) (vars : Bindings Value) (place : Nat)
    (idle : Bool) :
    Marked K (φ.extend st.envs.size place idle) (st.newEnv (some parent) vars).2 :=
  h.mono (grows_newEnv φ st parent vars place idle) rfl rfl

theorem Marked.newFunction (h : Marked K φ st) {c : Closure}
    (hc : Suits K φ st c.env fun g => functionMarks g c.decl) :
    Marked K φ (st.newFunction c).2 := by
  have hgrows : Grows φ φ st (st.newFunction c).2 := grows_of_envs φ rfl
  refine ⟨fun c' hc' => ?_, fun k hk c hc => (h.classes k hk c hc).mono hgrows⟩
  rcases Array.mem_push.mp hc' with hc' | rfl
  · exact (h.functions c' hc').mono hgrows
  · exact hc.mono hgrows

theorem Marked.newClass (h : Marked K φ st) {k : Class}
    (hk : ∀ c ∈ k.closures, Suits K φ st c.env fun g => functionMarks (false :: g) c.decl) :
    Marked K φ (st.newClass k).2 := by
  have hgrows : Grows φ φ st (st.newClass k).2 := grows_of_envs φ rfl
  refine ⟨fun c hc => (h.functions c hc).mono hgrows, fun k' hk' c hc => ?_⟩
  rcases Array.mem_push.mp hk' with hk' | rfl
  · exact (h.classes k' hk' c hc).mono hgrows
  · exact (hk c hc).mono hgrows

theorem Marked.function (h : Marked K φ st) {ref : Nat} {c : Closure}
    (hc : st.functions[ref]? = some c) : Suits K φ st c.env fun g => functionMarks g c.decl :=
  h.functions c (Array.mem_of_getElem? hc)

theorem Marked.method (h : Marked K φ st) {cls : Nat} {name : Bytes} {c : Closure}
    (hc : st.method? cls name = some c) :
    Suits K φ st c.env fun g => functionMarks (false :: g) c.decl := by
  have hsearch : ∀ steps cls, st.searchMethod name steps cls = some c →
      Suits K φ st c.env fun g => functionMarks (false :: g) c.decl := by
    intro steps
    induction steps with
    | zero => exact fun _ h => nomatch h
    | succ steps ih =>
        intro cls hfound
        rw [searchMethod_succ] at hfound
        obtain ⟨k, hk, hfound⟩ := Option.bind_eq_some_iff.mp hfound
        rcases Option.or_eq_some_iff.mp hfound with hown | ⟨_, hfound⟩
        · exact h.classes k (Array.mem_of_getElem? hk) c (Class.mem_closures hown)
        · obtain ⟨parent, _, hfound⟩ := Option.bind_eq_some_iff.mp hfound
          exact ih parent hfound
  exact hsearch _ cls hc

end Store

/-! ## Classes -/

theorem Bindings.mem_set {α : Type} {b : Bindings α} {name : Bytes} {value v : α}
    (h : v ∈ (b.set name value).entries.map Prod.snd) :
    v = value ∨ v ∈ b.entries.map Prod.snd := by
  obtain ⟨entries⟩ := b
  unfold Bindings.set at h
  dsimp only at h ⊢
  induction entries with
  | nil => exact .inl (List.mem_singleton.mp h)
  | cons entry rest ih =>
      rw [Bindings.put] at h
      split at h
      · rcases List.mem_cons.mp h with h | h
        · exact .inl h
        · exact .inr (List.mem_cons_of_mem _ h)
      · rcases List.mem_cons.mp h with h | h
        · exact .inr (h ▸ List.mem_cons_self)
        · exact (ih h).imp_right (List.mem_cons_of_mem _)

/-- The methods of a new class are the written ones. -/
theorem State.mem_classOf {name : Bytes} {superclass : Option Nat} {methods : List Function}
    {c : Closure} (h : c ∈ (State.classOf name superclass env methods).closures) :
    c.env = env ∧ c.decl ∈ methods := by
  have hcollect : ∀ (methods : List Function) (init : Option Closure) (found : Bindings Closure),
      (c ∈ (State.collectMethods env methods init found).1.toList ∨
        c ∈ (State.collectMethods env methods init found).2.entries.map Prod.snd) →
      c ∈ init.toList ∨ c ∈ found.entries.map Prod.snd ∨ c.env = env ∧ c.decl ∈ methods := by
    intro methods
    induction methods with
    | nil => exact fun init found h => h.imp_right .inl
    | cons f rest ih =>
        intro init found h
        rw [State.collectMethods] at h
        split at h
        · rcases ih _ _ h with hinit | hfound | ⟨henv, hrest⟩
          · obtain rfl := List.mem_singleton.mp hinit
            exact .inr (.inr ⟨rfl, List.mem_cons_self⟩)
          · exact .inr (.inl hfound)
          · exact .inr (.inr ⟨henv, List.mem_cons_of_mem _ hrest⟩)
        · rcases ih _ _ h with hinit | hfound | ⟨henv, hrest⟩
          · exact .inl hinit
          · rcases Bindings.mem_set hfound with rfl | hfound
            · exact .inr (.inr ⟨rfl, List.mem_cons_self⟩)
            · exact .inr (.inl hfound)
          · exact .inr (.inr ⟨henv, List.mem_cons_of_mem _ hrest⟩)
  rcases hcollect methods none Bindings.empty (List.mem_append.mp h) with hinit | hfound | hmethod
  · cases hinit
  · cases hfound
  · exact hmethod

theorem mem_methodMarks {f : Function} {fs : List Function} (hf : f ∈ fs) (g : List Bool) :
    ∀ mark ∈ functionMarks g f, mark ∈ methodMarks g fs := by
  induction fs with
  | nil => cases hf
  | cons f' rest ih =>
      intro mark hmark
      rcases List.mem_cons.mp hf with rfl | hf
      · exact List.mem_append_left _ hmark
      · exact List.mem_append_right _ (ih hf mark hmark)

theorem collectMethods_fold (φ : Folding) (env : Nat) (methods : List Function)
    (init : Option Closure) (found : Bindings Closure) :
    State.collectMethods (φ.place env) methods (init.map (Closure.fold φ))
        (found.map (Closure.fold φ)) =
      ((State.collectMethods env methods init found).1.map (Closure.fold φ),
        (State.collectMethods env methods init found).2.map (Closure.fold φ)) := by
  induction methods generalizing init found with
  | nil => rfl
  | cons f rest ih =>
      rw [State.collectMethods, State.collectMethods]
      split
      · exact ih (some ⟨f, env⟩) found
      · have hrest := ih init (found.set f.name.text ⟨f, env⟩)
        rw [Bindings.map_set] at hrest
        exact hrest

theorem classOf_fold (φ : Folding) (name : Bytes) (superclass : Option Nat) (env : Nat)
    (methods : List Function) :
    State.classOf name superclass (φ.place env) methods =
      (State.classOf name superclass env methods).fold φ := by
  have hmethods := collectMethods_fold φ env methods none Bindings.empty
  simp only [Option.map_none, Bindings.map_empty] at hmethods
  simp only [State.classOf, Class.fold, hmethods]

end LoxMachine
