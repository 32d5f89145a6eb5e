import LoxMachine.Proofs.Store.Heritage

/-!
# The order in which objects are made

A store grows by one operation after another.  Whatever is added refers to what is there
already, and what an object refers to never changes.  So references lead from later
objects to earlier ones, and every walk along them comes to an end.
-/

namespace LoxMachine.Store

/-- What others can refer to, and what refers to others. -/
inductive Object where
  | env (place : Nat)
  | function (place : Nat)
  | cls (place : Nat)

/-- The object is in the store. -/
def Has (st : Store) : Object → Prop
  | .env o => o < st.envs.size
  | .function i => i < st.functions.size
  | .cls i => i < st.classes.size

/-- `Refers st a b`: an environment refers to the one around it, a function to the one it was
declared in, and a class to its superclass and to the environments of its methods. -/
inductive Refers (st : Store) : Object → Object → Prop where
  | parent {o p} (h : st.parent? o = some p) : Refers st (.env o) (.env p)
  | closure {i : Nat} {c} (h : st.functions[i]? = some c) : Refers st (.function i) (.env c.env)
  | superclass {cls parent} (h : st.Inherits cls parent) : Refers st (.cls cls) (.cls parent)
  | method {cls : Nat} {k n c} (hk : st.classes[cls]? = some k) (hc : k.own? n = some c) :
      Refers st (.cls cls) (.env c.env)

/-- One operation on a store: it changes a variable or a field, looks at the clock, or adds an
object that refers to nothing but what is there. -/
inductive Grows (st : Store) : Store → Prop where
  | define (env : Nat) (name : Bytes) (v : Value) : Grows st (st.define env name v)
  | setField (object : Nat) (name : Bytes) (v : Value) : Grows st (st.setField object name v)
  | tick : Grows st st.tick
  | newInstance (cls : Nat) : Grows st (st.newInstance cls).2
  | newEnv {parent : Nat} (h : st.Has (.env parent)) (vars : Bindings Value) :
      Grows st (st.newEnv (some parent) vars).2
  | newFunction {c : Closure} (h : st.Has (.env c.env)) : Grows st (st.newFunction c).2
  | newClass {k : Class} (hparent : ∀ parent, k.superclass = some parent → st.Has (.cls parent))
      (hmethods : ∀ n c, k.own? n = some c → st.Has (.env c.env)) : Grows st (st.newClass k).2

/-- A number of operations, one after another. -/
def Grown : Store → Store → Prop :=
  Relation.ReflTransGen Grows

/-- Whatever was in the store is still there and refers to the same objects. -/
structure Fixed (st st' : Store) : Prop where
  size : st.envs.size ≤ st'.envs.size
  parent : ∀ o < st.envs.size, st'.parent? o = st.parent? o
  functions : ∀ (i : Nat) c, st.functions[i]? = some c → st'.functions[i]? = some c
  classes : ∀ (i : Nat) k, st.classes[i]? = some k → st'.classes[i]? = some k

variable {st st' st'' : Store} {a b : Object}

theorem Fixed.refl (st : Store) : st.Fixed st :=
  ⟨Nat.le_refl _, fun _ _ => rfl, fun _ _ h => h, fun _ _ h => h⟩

theorem Fixed.trans (h : st.Fixed st') (h' : st'.Fixed st'') : st.Fixed st'' where
  size := Nat.le_trans h.size h'.size
  parent o ho := (h'.parent o (Nat.lt_of_lt_of_le ho h.size)).trans (h.parent o ho)
  functions i c hc := h'.functions i c (h.functions i c hc)
  classes i k hk := h'.classes i k (h.classes i k hk)

theorem Fixed.has (h : st.Fixed st') (ha : st.Has a) : st'.Has a := by
  cases a with
  | env o => exact Nat.lt_of_lt_of_le ha h.size
  | function i =>
      exact (Array.getElem?_eq_some_iff.mp (h.functions i _ (Array.getElem?_eq_getElem ha))).1
  | cls i =>
      exact (Array.getElem?_eq_some_iff.mp (h.classes i _ (Array.getElem?_eq_getElem ha))).1

/-- What an object refers to is the same in a later store. -/
theorem Fixed.refers_iff (h : st.Fixed st') (ha : st.Has a) :
    st'.Refers a b ↔ st.Refers a b := by
  constructor
  · rintro (hparent | hc | ⟨k, hk, hparent⟩ | ⟨hk, hc⟩)
    · exact .parent (h.parent _ ha ▸ hparent)
    · have hold := Array.getElem?_eq_getElem ha
      obtain rfl := Option.some.inj ((h.functions _ _ hold).symm.trans hc)
      exact .closure hold
    · have hold := Array.getElem?_eq_getElem ha
      obtain rfl := Option.some.inj ((h.classes _ _ hold).symm.trans hk)
      exact .superclass ⟨_, hold, hparent⟩
    · have hold := Array.getElem?_eq_getElem ha
      obtain rfl := Option.some.inj ((h.classes _ _ hold).symm.trans hk)
      exact .method hold hc
  · rintro (hparent | hc | ⟨k, hk, hparent⟩ | ⟨hk, hc⟩)
    · exact .parent ((h.parent _ ha).trans hparent)
    · exact .closure (h.functions _ _ hc)
    · exact .superclass ⟨k, h.classes _ _ hk, hparent⟩
    · exact .method (h.classes _ _ hk) hc

theorem Refers.has (h : st.Refers a b) : st.Has a := by
  cases h with
  | parent h => exact lt_of_parent? h
  | closure h => exact (Array.getElem?_eq_some_iff.mp h).1
  | superclass h =>
      obtain ⟨k, hk, _⟩ := h
      exact (Array.getElem?_eq_some_iff.mp hk).1
  | method hk _ => exact (Array.getElem?_eq_some_iff.mp hk).1

/-! ## Operations -/

theorem Keeps.fixed (h : st.Keeps st')
    (hfunctions : ∀ (i : Nat) c, st.functions[i]? = some c → st'.functions[i]? = some c) :
    st.Fixed st' :=
  ⟨h.size, h.parent, hfunctions, h.classes⟩

theorem Grows.fixed (h : st.Grows st') : st.Fixed st' := by
  cases h with
  | define =>
      exact ⟨Nat.le_of_eq size_define.symm, fun o _ => parent?_define o, fun _ _ h => h,
        fun _ _ h => h⟩
  | setField => exact (keeps_setField _ _ _).fixed fun _ _ h => h
  | tick => exact (keeps_tick _).fixed fun _ _ h => h
  | newInstance => exact (keeps_newInstance _).fixed fun _ _ h => h
  | newEnv => exact (keeps_newEnv _ _).fixed fun _ _ h => h
  | newFunction => exact (keeps_newFunction _).fixed fun _ _ h => getElem?_push_lt h
  | newClass => exact (keeps_newClass _).fixed fun _ _ h => h

theorem Grown.fixed (h : st.Grown st') : st.Fixed st' := by
  induction h with
  | refl => exact .refl st
  | tail _ hstep ih => exact ih.trans hstep.fixed

theorem Grows.grown (h : st.Grows st') : st.Grown st' :=
  .single h

theorem has_newEnv (parent : Option Nat) (vars : Bindings Value) :
    (st.newEnv parent vars).2.Has (.env st.envs.size) :=
  Nat.lt_of_lt_of_eq (Nat.lt_succ_self _) (size_newEnv parent vars).symm

theorem grows_bindMethod {c : Closure} (h : st.Has (.env c.env)) (object : Nat) :
    st.Grows (st.bindMethod c object).2 :=
  .newEnv h _

/-- A new object refers to old ones only. -/
theorem Grows.refers_new (h : st.Grows st') (hnew : ¬ st.Has a) (hrefers : st'.Refers a b) :
    st.Has b := by
  have ha := hrefers.has
  cases h with
  | define env name v =>
      refine absurd ?_ hnew
      cases a with
      | env o => exact Nat.lt_of_lt_of_eq ha size_define
      | _ => exact ha
  | setField | tick | newInstance => cases a <;> exact absurd ha hnew
  | @newEnv parent h vars =>
      cases hrefers with
      | @parent o p hparent =>
          rw [parent?_newEnv] at hparent
          split at hparent
          next => exact Option.some.inj hparent ▸ h
          next => exact absurd (lt_of_parent? hparent) hnew
      | _ => exact absurd ha hnew
  | @newFunction c h =>
      cases hrefers with
      | closure hc =>
          rcases getElem?_push_cases hc with hold | ⟨_, rfl⟩
          · exact absurd (Array.getElem?_eq_some_iff.mp hold).1 hnew
          · exact h
      | _ => exact absurd ha hnew
  | @newClass k hparent hmethods =>
      cases hrefers with
      | superclass hinherits =>
          obtain ⟨k', hk', hsuperclass⟩ := hinherits
          rcases getElem?_push_cases hk' with hold | ⟨_, rfl⟩
          · exact absurd (Array.getElem?_eq_some_iff.mp hold).1 hnew
          · exact hparent _ hsuperclass
      | method hk' hc =>
          rcases getElem?_push_cases hk' with hold | ⟨_, rfl⟩
          · exact absurd (Array.getElem?_eq_some_iff.mp hold).1 hnew
          · exact hmethods _ _ hc
      | _ => exact absurd ha hnew

/-- A new environment has another one around it. -/
theorem Grows.exists_parent (h : st.Grows st') {o : Nat} (hnew : ¬ st.Has (.env o))
    (ho : st'.Has (.env o)) : ∃ p, st'.parent? o = some p := by
  cases h with
  | define => exact absurd (Nat.lt_of_lt_of_eq ho size_define) hnew
  | @newEnv parent _ vars =>
      have hlast : o = st.envs.size :=
        Nat.le_antisymm (Nat.le_of_lt_succ (Nat.lt_of_lt_of_eq ho (size_newEnv _ _)))
          (Nat.le_of_not_lt hnew)
      rw [parent?_newEnv, if_pos hlast]
      exact ⟨parent, rfl⟩
  | _ => exact absurd ho hnew

/-- On the way from one store to another, there was a time when the object `b` was there and
`a` was not, and then `a` was made. -/
def MadeBefore (start st : Store) (b a : Object) : Prop :=
  ∃ before after, start.Grown before ∧ before.Grows after ∧ after.Grown st ∧
    before.Has b ∧ ¬ before.Has a ∧ after.Has a

/-- What an object refers to was made before it. -/
theorem Grown.madeBefore {start : Store} (h : start.Grown st) (hstart : ∀ a b, ¬ start.Refers a b)
    (hrefers : st.Refers a b) : MadeBefore start st b a := by
  induction h with
  | refl => exact absurd hrefers (hstart a b)
  | @tail st st' hgrown hstep ih =>
      by_cases ha : st.Has a
      · obtain ⟨before, after, hbefore, hmade, hafter, hfacts⟩ :=
          ih ((hstep.fixed.refers_iff ha).mp hrefers)
        exact ⟨before, after, hbefore, hmade, hafter.tail hstep, hfacts⟩
      · exact ⟨st, st', hgrown, hstep, .refl, hstep.refers_new ha hrefers, ha, hrefers.has⟩

/-! ## Walks -/

/-- References lead to objects of the store, from later ones to earlier ones of a sort, and
all environments but the globals lie in others. -/
structure Ordered (st : Store) : Prop where
  known : ∀ a b, st.Refers a b → st.Has b
  older : ∀ o p, st.parent? o = some p → p < o
  order : ∀ cls parent, st.Inherits cls parent → parent < cls
  globals : st.Has (.env Session.globals)
  outermost : st.parent? Session.globals = none
  enclosed : ∀ o, st.Has (.env o) → o ≠ Session.globals → ∃ p, st.parent? o = some p

theorem Ordered.grows (h : st.Ordered) (hstep : st.Grows st') : st'.Ordered where
  known a b hrefers := by
    by_cases ha : st.Has a
    · exact hstep.fixed.has (h.known a b ((hstep.fixed.refers_iff ha).mp hrefers))
    · exact hstep.fixed.has (hstep.refers_new ha hrefers)
  older o p hparent := by
    by_cases ho : st.Has (.env o)
    · exact h.older o p (hstep.fixed.parent o ho ▸ hparent)
    · exact Nat.lt_of_lt_of_le (hstep.refers_new ho (.parent hparent)) (Nat.le_of_not_lt ho)
  order cls parent hinherits := by
    by_cases hcls : st.Has (.cls cls)
    · cases (hstep.fixed.refers_iff hcls).mp (.superclass hinherits) with
      | superclass hold => exact h.order cls parent hold
    · exact Nat.lt_of_lt_of_le (hstep.refers_new hcls (.superclass hinherits))
        (Nat.le_of_not_lt hcls)
  globals := hstep.fixed.has h.globals
  outermost := (hstep.fixed.parent _ h.globals).trans h.outermost
  enclosed o ho hne := by
    by_cases hold : st.Has (.env o)
    · obtain ⟨p, hp⟩ := h.enclosed o hold hne
      exact ⟨p, (hstep.fixed.parent o hold).trans hp⟩
    · exact hstep.exists_parent hold ho

theorem Ordered.grown (h : st.Ordered) (hgrown : st.Grown st') : st'.Ordered := by
  induction hgrown with
  | refl => exact h
  | tail _ hstep ih => exact ih.grows hstep

/-- Environments refer to environments alone, and functions and classes are referred to by
nothing but classes. -/
def rank : Object → Nat × Nat
  | .env o => (0, o)
  | .function i => (1, i)
  | .cls i => (2, i)

theorem Ordered.rank_lt (h : st.Ordered) (hrefers : st.Refers a b) :
    Prod.Lex (· < ·) (· < ·) (rank b) (rank a) := by
  cases hrefers with
  | parent hparent => exact .right _ (h.older _ _ hparent)
  | closure => exact .left _ _ Nat.zero_lt_one
  | superclass hinherits => exact .right _ (h.order _ _ hinherits)
  | method => exact .left _ _ Nat.zero_lt_two

theorem Ordered.wellFounded (h : st.Ordered) : WellFounded fun b a => st.Refers a b :=
  Subrelation.wf (fun hrefers => h.rank_lt hrefers)
    (InvImage.wf rank (Prod.lex Nat.lt_wfRel Nat.lt_wfRel).wf)

/-- An environment and all environments around it, from the inside out. -/
inductive Around (st : Store) : Nat → List Nat → Prop where
  | outermost {o} (ho : st.Has (.env o)) (hparent : st.parent? o = none) : Around st o [o]
  | inside {o p chain} (hparent : st.parent? o = some p) (hrest : Around st p chain) :
      Around st o (o :: chain)

/-- Around any environment there are finitely many, and the last one is that of the globals. -/
theorem Ordered.exists_around (h : st.Ordered) {o : Nat} (ho : st.Has (.env o)) :
    ∃ chain, st.Around o chain ∧ chain.getLast? = some Session.globals := by
  induction o using Nat.strongRecOn with
  | ind o ih =>
      by_cases hne : o = Session.globals
      · subst hne
        exact ⟨_, .outermost ho h.outermost, rfl⟩
      · obtain ⟨p, hp⟩ := h.enclosed o ho hne
        obtain ⟨chain, hchain, hlast⟩ := ih p (h.older o p hp) (h.known _ _ (.parent hp))
        refine ⟨_, .inside hp hchain, ?_⟩
        rw [List.getLast?_cons, hlast]
        rfl

theorem Around.unique {o : Nat} {chain chain' : List Nat} (h : st.Around o chain)
    (h' : st.Around o chain') : chain = chain' := by
  induction h generalizing chain' with
  | outermost _ hparent =>
      cases h' with
      | outermost => rfl
      | inside hparent' _ => cases hparent.symm.trans hparent'
  | inside hparent _ ih =>
      cases h' with
      | outermost _ hparent' => cases hparent.symm.trans hparent'
      | inside hparent' hrest =>
          cases hparent.symm.trans hparent'
          rw [ih hrest]

/-- Walking outwards meets ever older environments. -/
theorem Ordered.pairwise_around (h : st.Ordered) {o : Nat} {chain : List Nat}
    (hchain : st.Around o chain) : chain.Pairwise (· > ·) ∧ ∀ x ∈ chain, x ≤ o := by
  induction hchain with
  | outermost =>
      exact ⟨List.pairwise_singleton _ _, fun x hx => Nat.le_of_eq (List.mem_singleton.mp hx)⟩
  | inside hparent _ ih =>
      have hlt := h.older _ _ hparent
      have hall := fun x hx => Nat.lt_of_le_of_lt (ih.2 x hx) hlt
      refine ⟨.cons hall ih.1, List.forall_mem_cons.mpr ⟨Nat.le_refl _, fun x hx => ?_⟩⟩
      exact Nat.le_of_lt (hall x hx)

/-- Climbing ends at the environment so many steps outwards, or finds that there is none. -/
theorem Around.climb_eq {o : Nat} {chain : List Nat} (h : st.Around o chain) (depth : Nat) :
    st.climb depth o = chain[depth]? := by
  induction h generalizing depth with
  | outermost _ hparent =>
      cases depth with
      | zero => rfl
      | succ depth =>
          rw [climb_succ, hparent]
          rfl
  | inside hparent _ ih =>
      cases depth with
      | zero => rfl
      | succ depth =>
          rw [climb_succ, hparent, List.getElem?_cons_succ]
          exact ih depth

/-- A search goes outwards to the first environment that binds the name. -/
theorem Ordered.nearest?_eq (h : st.Ordered) {o : Nat} {chain : List Nat}
    (hchain : st.Around o chain) (name : Bytes) :
    st.nearest? o name = chain.findSome? fun x => (st.at? x name).map fun v => (x, v) := by
  have hsearch : ∀ steps, o < steps → st.search name steps o =
      chain.findSome? fun x => (st.at? x name).map fun v => (x, v) := by
    induction hchain with
    | @outermost o _ hparent =>
        intro steps hsteps
        obtain ⟨steps, rfl⟩ := Nat.exists_eq_add_of_lt hsteps
        rw [search_succ, hparent]
        cases hat : st.at? o name <;> simp [hat]
    | @inside o p _ hparent _ ih =>
        intro steps hsteps
        obtain ⟨more, rfl⟩ := Nat.exists_eq_add_of_lt hsteps
        have hlt := h.older _ _ hparent
        rw [search_succ, hparent, Option.bind_some,
          ih _ (Nat.lt_of_lt_of_le hlt (Nat.le_add_right _ _))]
        cases hat : st.at? o name <;> simp [hat]
  exact hsearch (o + 1) (Nat.lt_succ_self o)

/-- Walking upwards meets ever older classes. -/
theorem Ordered.pairwise_line (h : st.Ordered) {cls : Nat} {line : List Nat}
    (hline : st.Line cls line) : line.Pairwise (· > ·) ∧ ∀ x ∈ line, x ≤ cls := by
  induction hline with
  | top =>
      exact ⟨List.pairwise_singleton _ _, fun x hx => Nat.le_of_eq (List.mem_singleton.mp hx)⟩
  | under hcls hparent _ ih =>
      have hlt := h.order _ _ ⟨_, hcls, hparent⟩
      have hall := fun x hx => Nat.lt_of_le_of_lt (ih.2 x hx) hlt
      refine ⟨.cons hall ih.1, List.forall_mem_cons.mpr ⟨Nat.le_refl _, fun x hx => ?_⟩⟩
      exact Nat.le_of_lt (hall x hx)

theorem Ordered.acyclic (h : st.Ordered) (cls : Nat) :
    ¬ Relation.TransGen st.Inherits cls cls := by
  have hlt : ∀ {above}, Relation.TransGen st.Inherits cls above → above < cls := by
    intro above htrans
    induction htrans with
    | single hinherits => exact h.order _ _ hinherits
    | tail _ hinherits ih => exact Nat.lt_trans (h.order _ _ hinherits) ih
  exact fun hcycle => Nat.lt_irrefl _ (hlt hcycle)

/-! ## Founded stores -/

/-- In a store that has grown from `start`, what an object refers to was made before it, and
all walks along references end: outwards at the globals, and upwards at a class without a
superclass.  Variables and methods are looked up along these walks. -/
structure Founded (start st : Store) : Prop where
  known : ∀ a b, st.Refers a b → st.Has b
  madeBefore : ∀ a b, st.Refers a b → MadeBefore start st b a
  wellFounded : WellFounded fun b a => st.Refers a b
  chain : ∀ o, st.Has (.env o) → ∃ chain, st.Around o chain ∧ chain.Pairwise (· > ·) ∧
    chain.getLast? = some Session.globals
  climb_eq : ∀ o chain depth, st.Around o chain → st.climb depth o = chain[depth]?
  get?_eq : ∀ o chain name, st.Around o chain →
    st.get? o name = chain.findSome? fun x => st.at? x name
  assign?_eq : ∀ o chain name v, st.Around o chain → st.assign? o name v =
    (chain.find? fun x => (st.at? x name).isSome).map fun x => st.define x name v
  line : ∀ cls, st.Has (.cls cls) → ∃ line, st.Line cls line ∧ line.Pairwise (· > ·)
  acyclic : ∀ cls, ¬ Relation.TransGen st.Inherits cls cls
  method?_eq : ∀ cls line name, st.Line cls line →
    st.method? cls name = line.findSome? fun i => st.classes[i]?.bind fun k => k.own? name

/-- What is found first along a list. -/
theorem findSome?_snd {α β : Type} (f : α → Option β) (xs : List α) :
    (xs.findSome? fun x => (f x).map fun v => (x, v)).map Prod.snd = xs.findSome? f := by
  induction xs with
  | nil => rfl
  | cons x xs ih =>
      rw [List.findSome?_cons, List.findSome?_cons, ← ih]
      cases f x <;> rfl

/-- Where it is found. -/
theorem findSome?_fst {α β γ : Type} (f : α → Option β) (g : α → γ) (xs : List α) :
    (xs.findSome? fun x => (f x).map fun v => (x, v)).map (fun found => g found.1) =
      (xs.find? fun x => (f x).isSome).map g := by
  induction xs with
  | nil => rfl
  | cons x xs ih =>
      rw [List.findSome?_cons, List.find?_cons]
      cases f x with
      | some v => rfl
      | none => exact ih

theorem Grown.founded {start : Store} (hgrown : start.Grown st) (hordered : start.Ordered)
    (hstart : ∀ a b, ¬ start.Refers a b) : Founded start st := by
  have h := hordered.grown hgrown
  refine ⟨h.known, fun a b => hgrown.madeBefore hstart, h.wellFounded, fun o ho => ?_,
    fun o chain depth hchain => hchain.climb_eq depth, fun o chain name hchain => ?_,
    fun o chain name v hchain => ?_, fun cls hcls => ?_, h.acyclic,
    fun cls line name hline => method?_eq_findSome? h.order hline name⟩
  · obtain ⟨chain, hchain, hlast⟩ := h.exists_around ho
    exact ⟨chain, hchain, (h.pairwise_around hchain).1, hlast⟩
  · rw [Store.get?, h.nearest?_eq hchain]
    exact findSome?_snd (st.at? · name) chain
  · rw [Store.assign?, h.nearest?_eq hchain]
    exact findSome?_fst (st.at? · name) (st.define · name v) chain
  · obtain ⟨line, hline⟩ := exists_line h.order hcls
    exact ⟨line, hline, (h.pairwise_line hline).1⟩

end LoxMachine.Store
