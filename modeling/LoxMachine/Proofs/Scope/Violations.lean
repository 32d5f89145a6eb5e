import LoxMachine.Scope
import Mathlib.Data.List.Nodup
import Mathlib.Tactic.Tauto

/-!
# Violations

The rules that a module may break, each stated of a spot in its tree and of what that spot is
written in.  The pass over the scopes of a module reports each breach of each rule once, and
nothing else.
-/

namespace LoxMachine.Scope

/-! ## Spots -/

/-- What code can be written in. -/
inductive Enclosure where
  | function
  | cls (superclass : Option Superclass)
  deriving DecidableEq

/-- The part of a tree that a rule is about: a keyword, the head of a class with a superclass,
or the declarations of one scope. -/
inductive Spot where
  | ret (keyword : Range)
  | this (keyword : Range)
  | super (keyword : Range)
  | heir (cls superclass : Name)
  | scope (names : List Name)

mutual

/-- The names that a statement declares in the scope it stands in. -/
def declarations : Stmt → List Name
  | .expr _ _ => []
  | .print _ _ => []
  | .assert _ _ => []
  | .assertEqual _ _ _ => []
  | .var name _ _ => [name]
  | .block _ _ => []
  | .cond _ thenBranch none _ => declarations thenBranch
  | .cond _ thenBranch (some elseBranch) _ => declarations thenBranch ++ declarations elseBranch
  | .loop _ body _ => declarations body
  | .ret _ _ _ => []
  | .function decl => [decl.name]
  | .classDecl name _ _ _ => [name]

def allDeclarations : List Stmt → List Name
  | [] => []
  | stmt :: rest => declarations stmt ++ allDeclarations rest

end

mutual

/-- The spots of an expression, with what they are written in, the innermost first. -/
def exprSpots (around : List Enclosure) : Expr → List (List Enclosure × Spot)
  | .literal _ _ => []
  | .var _ _ => []
  | .assign _ _ value _ => exprSpots around value
  | .unary _ operand _ => exprSpots around operand
  | .binary _ left right _ => exprSpots around left ++ exprSpots around right
  | .logical _ left right _ => exprSpots around left ++ exprSpots around right
  | .group inner _ => exprSpots around inner
  | .call callee args _ => exprSpots around callee ++ argSpots around args
  | .get object _ _ => exprSpots around object
  | .set object _ value _ => exprSpots around value ++ exprSpots around object
  | .this _ keyword => [(around, .this keyword)]
  | .super _ _ keyword _ _ => [(around, .super keyword)]

def argSpots (around : List Enclosure) : List Expr → List (List Enclosure × Spot)
  | [] => []
  | e :: rest => exprSpots around e ++ argSpots around rest

end

def optionSpots (around : List Enclosure) : Option Expr → List (List Enclosure × Spot)
  | none => []
  | some e => exprSpots around e

def heirSpots (around : List Enclosure) (name : Name) :
    Option Superclass → List (List Enclosure × Spot)
  | none => []
  | some parent => [(around, .heir name parent.name)]

mutual

/-- The spots of a statement. The parameters and the body of a function share a scope. -/
def stmtSpots (around : List Enclosure) : Stmt → List (List Enclosure × Spot)
  | .expr value _ => exprSpots around value
  | .print value _ => exprSpots around value
  | .assert value _ => exprSpots around value
  | .assertEqual left right _ => exprSpots around left ++ exprSpots around right
  | .var _ init _ => optionSpots around init
  | .block body _ => (around, .scope (allDeclarations body)) :: bodySpots around body
  | .cond test thenBranch none _ => exprSpots around test ++ stmtSpots around thenBranch
  | .cond test thenBranch (some elseBranch) _ =>
      exprSpots around test ++ (stmtSpots around thenBranch ++ stmtSpots around elseBranch)
  | .loop test body _ => exprSpots around test ++ stmtSpots around body
  | .ret keyword value _ => (around, .ret keyword) :: optionSpots around value
  | .function decl => functionSpots around decl
  | .classDecl name superclass methods _ =>
      heirSpots around name superclass ++ methodSpots (.cls superclass :: around) methods

def bodySpots (around : List Enclosure) : List Stmt → List (List Enclosure × Spot)
  | [] => []
  | stmt :: rest => stmtSpots around stmt ++ bodySpots around rest

def functionSpots (around : List Enclosure) : Function → List (List Enclosure × Spot)
  | .mk _ _ params body _ =>
      (.function :: around, .scope (params ++ allDeclarations body)) ::
        bodySpots (.function :: around) body

def methodSpots (around : List Enclosure) : List Function → List (List Enclosure × Spot)
  | [] => []
  | f :: rest => functionSpots around f ++ methodSpots around rest

end

/-- The spots of a module. Its top level is a scope only if it is isolated. -/
def moduleSpots (m : Module) : List (List Enclosure × Spot) :=
  (if m.kind.isolated then [([], .scope (allDeclarations m.body))] else []) ++
    bodySpots [] m.body

/-! ## Rules -/

/-- The superclass, if any, of the innermost class around a spot, if any. -/
def enclosingClass? (around : List Enclosure) : Option (Option Superclass) :=
  around.findSome? fun
    | .function => none
    | .cls superclass => some superclass

/-- A spot breaks the rule for spots of its kind. -/
def Spot.Breaks (around : List Enclosure) : Spot → Prop
  | .ret _ => .function ∉ around
  | .this _ => enclosingClass? around = none
  | .super _ => enclosingClass? around = none ∨ enclosingClass? around = some none
  | .heir cls superclass => superclass.text = cls.text
  | .scope names => ¬ (names.map Name.text).Nodup

/-- A breach of a rule, and the token that is to blame. -/
structure Breach where
  range : Range
  violation : Violation

def Breach.diagnostic (b : Breach) : Diagnostic :=
  ⟨.error, b.range, b.violation.message⟩

/-- The names with the text of one that stands before them. -/
def repeated (before : List Name) : List Name → List Name
  | [] => []
  | name :: rest =>
      (if ∃ earlier ∈ before, earlier.text = name.text then [name] else []) ++
        repeated (before ++ [name]) rest

def redefinitions (before names : List Name) : List Breach :=
  (repeated before names).map fun name => ⟨name.range, .alreadyDefined name.text⟩

/-- The breaches at a spot: in a scope each declaration of a name that is declared before it
in that scope, elsewhere at most one. -/
def Spot.breaches (around : List Enclosure) : Spot → List Breach
  | .ret keyword => if .function ∈ around then [] else [⟨keyword, .returnOutside⟩]
  | .this keyword =>
      match enclosingClass? around with
      | none => [⟨keyword, .thisOutside⟩]
      | some _ => []
  | .super keyword =>
      match enclosingClass? around with
      | none => [⟨keyword, .superOutside⟩]
      | some none => [⟨keyword, .superWithoutSuperclass⟩]
      | some (some _) => []
  | .heir cls superclass =>
      if superclass.text = cls.text then [⟨superclass.range, .inheritsItself⟩] else []
  | .scope names => redefinitions [] names

/-- The breaches at some spots. -/
def breaches (spots : List (List Enclosure × Spot)) : List Breach :=
  spots.flatMap fun spot => spot.2.breaches spot.1

@[simp] theorem breaches_nil : breaches [] = [] := rfl

@[simp] theorem breaches_cons (around : List Enclosure) (spot : Spot)
    (spots : List (List Enclosure × Spot)) :
    breaches ((around, spot) :: spots) = spot.breaches around ++ breaches spots :=
  List.flatMap_cons

@[simp] theorem breaches_append (a b : List (List Enclosure × Spot)) :
    breaches (a ++ b) = breaches a ++ breaches b :=
  List.flatMap_append

theorem repeated_append (before a b : List Name) :
    repeated before (a ++ b) = repeated before a ++ repeated (before ++ a) b := by
  induction a generalizing before with
  | nil => rw [List.nil_append, List.append_nil, repeated, List.nil_append]
  | cons name a ih =>
      rw [List.cons_append, repeated, repeated, ih, List.append_assoc, List.append_assoc,
        List.singleton_append]

theorem repeated_eq_nil_iff (before names : List Name) :
    repeated before names = [] ↔
      (names.map Name.text).Nodup ∧ ∀ name ∈ names, name.text ∉ before.map Name.text := by
  induction names generalizing before with
  | nil => exact iff_of_true rfl ⟨List.nodup_nil, nofun⟩
  | cons name rest ih =>
      rw [repeated, List.append_eq_nil_iff, ih, List.map_cons, List.nodup_cons,
        List.forall_mem_cons]
      have hfirst : (if ∃ earlier ∈ before, earlier.text = name.text then [name] else []) = [] ↔
          name.text ∉ before.map Name.text := by
        rw [List.mem_map]
        split
        next hmem => exact iff_of_false (List.cons_ne_nil _ _) (not_not_intro hmem)
        next hmem => exact iff_of_true rfl hmem
      rw [hfirst]
      have hlater : (∀ other ∈ rest, other.text ∉ (before ++ [name]).map Name.text) ↔
          name.text ∉ rest.map Name.text ∧ ∀ other ∈ rest, other.text ∉ before.map Name.text := by
        simp only [List.map_append, List.map_singleton, List.mem_append, List.mem_singleton,
          List.mem_map, not_or, not_exists, not_and]
        exact ⟨fun h => ⟨fun other hmem heq => (h other hmem).2 heq,
          fun other hmem => (h other hmem).1⟩,
          fun h other hmem => ⟨h.2 other hmem, fun heq => h.1 other hmem heq⟩⟩
      rw [hlater]
      tauto

/-- A spot breaks its rule exactly if there is a breach at it. -/
theorem Spot.breaks_iff (around : List Enclosure) (spot : Spot) :
    spot.Breaks around ↔ spot.breaches around ≠ [] := by
  cases spot with
  | ret keyword =>
      rw [Breaks, breaches]
      split
      next hmem => exact iff_of_false (not_not_intro hmem) (not_not_intro rfl)
      next hmem => exact iff_of_true hmem (List.cons_ne_nil _ _)
  | this keyword =>
      rw [Breaks, breaches]
      split
      next hnone => exact iff_of_true hnone (List.cons_ne_nil _ _)
      next hsome => exact iff_of_false (hsome ▸ Option.some_ne_none _) (not_not_intro rfl)
  | super keyword =>
      rw [Breaks, breaches]
      split
      next hnone => exact iff_of_true (.inl hnone) (List.cons_ne_nil _ _)
      next hplain => exact iff_of_true (.inr hplain) (List.cons_ne_nil _ _)
      next hsub =>
        rw [hsub]
        exact iff_of_false (by rintro (h | h) <;> cases h) (not_not_intro rfl)
  | heir cls superclass =>
      rw [Breaks, breaches]
      split
      next heq => exact iff_of_true heq (List.cons_ne_nil _ _)
      next hne => exact iff_of_false hne (not_not_intro rfl)
  | scope names =>
      rw [Breaks, breaches, redefinitions, ne_eq, List.map_eq_nil_iff, repeated_eq_nil_iff]
      exact not_congr ⟨fun h => ⟨h, fun _ _ => List.not_mem_nil⟩, And.left⟩

theorem exists_breaks_iff (spots : List (List Enclosure × Spot)) :
    (∃ around spot, (around, spot) ∈ spots ∧ spot.Breaks around) ↔ breaches spots ≠ [] := by
  rw [breaches, ne_eq, List.flatMap_eq_nil_iff]
  simp only [Spot.breaks_iff, not_forall]
  exact ⟨fun ⟨around, spot, hmem, hbreaks⟩ => ⟨(around, spot), hmem, hbreaks⟩,
    fun ⟨⟨around, spot⟩, hmem, hbreaks⟩ => ⟨around, spot, hmem, hbreaks⟩⟩

/-! ## The pass over scopes -/

variable {around : List Enclosure} {before : Option (List Name)} {a b names : List Name}
  {x y : List Breach} {s t u : State}

/-- What surrounds a spot, as the pass keeps it. -/
def contextOf (around : List Enclosure) : Context where
  inFunction := .function ∈ around
  enclosing :=
    match enclosingClass? around with
    | none => .noClass
    | some none => .plainClass
    | some (some _) => .subclass

theorem contextOf_function (around : List Enclosure) :
    contextOf (.function :: around) = { contextOf around with inFunction := true } := by
  simp [contextOf, enclosingClass?]

theorem contextOf_cls (superclass : Option Superclass) (around : List Enclosure) :
    contextOf (.cls superclass :: around) = (contextOf around).inClass superclass := by
  cases superclass <;> simp [contextOf, enclosingClass?, Context.inClass]

/-- The innermost scope, if there is one, has these names and no others. -/
def Holds : Option (List Name) → State → Prop
  | none, s => s.scopes = []
  | some names, s => ∃ scope outer, s.scopes = scope :: outer ∧
      ∀ text, scope.contains text = true ↔ text ∈ names.map Name.text

/-- The names of the innermost scope, if there is one, with more of them. -/
def extended (before : Option (List Name)) (names : List Name) : Option (List Name) :=
  before.map (· ++ names)

/-- The breaches by declarations in the innermost scope, if there is one. -/
def redefinitionsIn (before : Option (List Name)) (names : List Name) : List Breach :=
  before.elim [] fun before => redefinitions before names

/-- The pass goes from `s` to `t`, where some more names are declared in the innermost scope,
and on its way reports these breaches and those by the declarations, each once. -/
structure Reports (before : Option (List Name)) (names : List Name) (x : List Breach)
    (s t : State) : Prop where
  holds : Holds (extended before names) t
  outer : t.scopes.tail = s.scopes.tail
  bag : ∃ found : List Breach,
    t.bag.items.toList = s.bag.items.toList ++ found.map Breach.diagnostic ∧
      found.Perm (x ++ redefinitionsIn before names)

theorem extended_nil (before : Option (List Name)) : extended before [] = before := by
  cases before <;> simp [extended]

theorem extended_append (before : Option (List Name)) (a b : List Name) :
    extended before (a ++ b) = extended (extended before a) b := by
  cases before <;> simp [extended]

theorem redefinitionsIn_nil (before : Option (List Name)) : redefinitionsIn before [] = [] := by
  cases before <;> rfl

theorem redefinitionsIn_append (before : Option (List Name)) (a b : List Name) :
    redefinitionsIn before (a ++ b) =
      redefinitionsIn before a ++ redefinitionsIn (extended before a) b := by
  cases before with
  | none => rfl
  | some before =>
      change redefinitions before (a ++ b) = redefinitions before a ++ redefinitions (before ++ a) b
      rw [redefinitions, repeated_append, List.map_append]
      rfl

theorem Reports.refl (h : Holds before s) : Reports before [] [] s s where
  holds := by rwa [extended_nil]
  outer := rfl
  bag := ⟨[], (List.append_nil _).symm, by rw [redefinitionsIn_nil, List.append_nil]⟩

theorem Reports.append (h : Reports before a x s t) (h' : Reports (extended before a) b y t u) :
    Reports before (a ++ b) (x ++ y) s u where
  holds := by
    rw [extended_append]
    exact h'.holds
  outer := h'.outer.trans h.outer
  bag := by
    obtain ⟨found, hfound, hperm⟩ := h.bag
    obtain ⟨more, hmore, hperm'⟩ := h'.bag
    refine ⟨found ++ more, ?_, ?_⟩
    · rw [hmore, hfound, List.map_append, List.append_assoc]
    · refine (hperm.append hperm').trans ?_
      rw [redefinitionsIn_append, List.append_assoc, List.append_assoc]
      exact List.Perm.append_left x (List.perm_append_comm_assoc _ _ _)

/-- After something that declares nothing. -/
theorem Reports.then (h : Reports before [] x s t)
    (h' : Holds before t → Reports before b y t u) : Reports before b (x ++ y) s u := by
  have hholds := h.holds
  rw [extended_nil] at hholds
  have hrest := h' hholds
  rw [← extended_nil before] at hrest
  exact h.append hrest

/-- Before something that declares nothing. -/
theorem Reports.plus (h : Reports before a x s t)
    (h' : Holds (extended before a) t → Reports (extended before a) [] y t u) :
    Reports before a (x ++ y) s u := by
  have hboth := h.append (h' h.holds)
  rwa [List.append_nil] at hboth

/-- Only the scopes and the diagnostics count. -/
theorem Reports.congr (h : Reports before names x s t) (hscopes : u.scopes = t.scopes)
    (hbag : u.bag = t.bag) : Reports before names x s u where
  holds := by
    have hholds := h.holds
    cases before with
    | none => exact hscopes.trans hholds
    | some before =>
        obtain ⟨scope, outer, ht, hnames⟩ := hholds
        exact ⟨scope, outer, hscopes.trans ht, hnames⟩
  outer := (congrArg List.tail hscopes).trans h.outer
  bag := hbag ▸ h.bag

theorem reports_report (h : Holds before s) (range : Range) (violation : Violation) :
    Reports before [] [⟨range, violation⟩] s (s.report range violation) where
  holds := by
    rw [extended_nil]
    cases before <;> exact h
  outer := rfl
  bag := by
    refine ⟨[⟨range, violation⟩], Array.toList_push, ?_⟩
    rw [redefinitionsIn_nil, List.append_nil]

theorem reports_refer (h : Holds before s) (id : Nat) (name : Bytes) (node : Expr) :
    Reports before [] [] s (s.refer id name node) := by
  unfold State.refer
  split
  · exact (Reports.refl h).congr rfl rfl
  · exact Reports.refl h

/-! ## Declarations -/

theorem contains_set (scope : Bindings Bool) (name text : Bytes) (usable : Bool) :
    (scope.set name usable).contains text = true ↔ scope.contains text = true ∨ text = name := by
  by_cases heq : text = name
  · subst heq
    simp [Bindings.contains]
  · simp [Bindings.contains, Bindings.get?_set_ne _ heq, heq]

/-- Whether a name can be used already makes no difference to what is reported. -/
theorem holds_mark (h : Holds before s) (name : Name) (usable : Bool) :
    Holds (extended before [name]) (s.mark name.text usable) ∧
      (s.mark name.text usable).scopes.tail = s.scopes.tail ∧
      (s.mark name.text usable).bag = s.bag := by
  unfold State.mark
  cases before with
  | none =>
      have hs : s.scopes = [] := h
      rw [hs]
      exact ⟨hs, congrArg List.tail hs, rfl⟩
  | some before =>
      obtain ⟨scope, outer, hs, hnames⟩ := h
      rw [hs]
      refine ⟨⟨_, outer, rfl, fun text => ?_⟩, rfl, rfl⟩
      rw [contains_set, hnames, List.map_append, List.mem_append, List.map_singleton,
        List.mem_singleton]

/-- A name that is declared becomes usable. -/
theorem reports_define {name : Name} (h : Holds (extended before [name]) s) :
    Reports (extended before [name]) [] [] s (s.define name.text) := by
  obtain ⟨hmark, houter, hbag⟩ := holds_mark h name true
  refine ⟨?_, houter, [], ?_, ?_⟩
  · rw [extended_nil]
    cases before with
    | none => exact hmark
    | some before =>
        obtain ⟨scope, outer, hs, hnames⟩ := hmark
        refine ⟨scope, outer, hs, fun text => (hnames text).trans ?_⟩
        simp
  · rw [State.define, hbag]
    exact (List.append_nil _).symm
  · rw [redefinitionsIn_nil, List.append_nil]

theorem reports_declare (h : Holds before s) (name : Name) :
    Reports before [name] [] s (s.declare name) := by
  cases before with
  | none =>
      rw [State.declare, show s.scopes = [] from h]
      exact ⟨h, rfl, [], (List.append_nil _).symm, .nil⟩
  | some before =>
      obtain ⟨scope, outer, hs, hnames⟩ := id h
      rw [State.declare, hs]
      dsimp only
      split
      next hmem =>
        have hreport : Holds (some before)
            (s.report name.range (.alreadyDefined name.text)) := h
        obtain ⟨hholds, houter, hbag⟩ := holds_mark hreport name false
        refine ⟨hholds, houter, [⟨name.range, .alreadyDefined name.text⟩], ?_, ?_⟩
        · rw [hbag]
          exact Array.toList_push
        · have hrepeated : repeated before [name] = [name] := by
            rw [repeated, repeated, if_pos (List.mem_map.mp ((hnames _).mp hmem)), List.append_nil]
          rw [redefinitionsIn, Option.elim, redefinitions, hrepeated]
          exact .rfl
      next hnot =>
        obtain ⟨hholds, houter, hbag⟩ := holds_mark h name false
        refine ⟨hholds, houter, [], ?_, ?_⟩
        · rw [hbag]
          exact (List.append_nil _).symm
        · have hrepeated : repeated before [name] = [] := by
            rw [repeated, repeated, if_neg (mt List.mem_map.mpr (mt (hnames _).mpr hnot)), List.append_nil]
          rw [redefinitionsIn, Option.elim, redefinitions, hrepeated]
          exact .nil

theorem reports_bind (h : Holds before s) (name : Name) :
    Reports before [name] [] s (s.bind name) :=
  (reports_declare h name).plus reports_define

theorem reports_params (h : Holds before s) (params : List Name) :
    Reports before params [] s (params.foldl State.bind s) := by
  induction params generalizing before s with
  | nil => exact Reports.refl h
  | cons name params ih =>
      have hfirst := reports_bind h name
      exact hfirst.append (ih hfirst.holds)

/-! ## Scopes of their own -/

theorem holds_push (s : State) : Holds (some []) s.push :=
  ⟨Bindings.empty, s.scopes, rfl, fun _ => by simp [Bindings.contains]⟩

/-- A scope that holds only a keyword. -/
theorem holds_keyword (s : State) (keyword : Bytes) :
    Holds (some [⟨keyword, Range.nowhere⟩]) (s.push.define keyword) :=
  (holds_mark (holds_push s) ⟨keyword, Range.nowhere⟩ true).1

/-- What happens in a scope of its own declares nothing outside. -/
theorem Reports.leave {inner : List Name} (hs : Holds before s)
    (h : Reports (some inner) names x t u) (houter : t.scopes.tail = s.scopes)
    (hbag : t.bag = s.bag) : Reports before [] (redefinitions inner names ++ x) s u.pop where
  holds := by
    have hscopes : u.pop.scopes = s.scopes := h.outer.trans houter
    rw [extended_nil]
    cases before with
    | none => exact hscopes.trans hs
    | some before =>
        obtain ⟨scope, outer, hs, hnames⟩ := hs
        exact ⟨scope, outer, hscopes.trans hs, hnames⟩
  outer := congrArg List.tail (h.outer.trans houter)
  bag := by
    obtain ⟨found, hfound, hperm⟩ := h.bag
    refine ⟨found, hbag ▸ hfound, hperm.trans ?_⟩
    rw [redefinitionsIn_nil, List.append_nil]
    exact List.perm_append_comm

/-! ## Trees -/

mutual

theorem reports_visit : ∀ (e : Expr) {s : State}, Holds before s →
    Reports before [] (breaches (exprSpots around e)) s (visit (contextOf around) e s)
  | .literal _ _, s, h => by
      rw [exprSpots, visit]
      exact Reports.refl h
  | .var id name, s, h => by
      rw [exprSpots, visit]
      exact reports_refer h id name.text _
  | .assign id name value span, s, h => by
      rw [exprSpots, visit, ← List.append_nil (breaches _)]
      exact (reports_visit value h).then fun h => reports_refer h id name.text _
  | .unary _ operand _, s, h => by
      rw [exprSpots, visit]
      exact reports_visit operand h
  | .binary _ left right _, s, h | .logical _ left right _, s, h => by
      rw [exprSpots, visit, breaches_append]
      exact (reports_visit left h).then (reports_visit right)
  | .group inner _, s, h => by
      rw [exprSpots, visit]
      exact reports_visit inner h
  | .call callee args _, s, h => by
      rw [exprSpots, visit, breaches_append]
      exact (reports_visit callee h).then (reports_visitAll args)
  | .get object _ _, s, h => by
      rw [exprSpots, visit]
      exact reports_visit object h
  | .set object _ value _, s, h => by
      rw [exprSpots, visit, breaches_append]
      exact (reports_visit value h).then (reports_visit object)
  | .this id keyword, s, h => by
      rw [exprSpots, visit, breaches_cons, breaches_nil, List.append_nil, Spot.breaches, contextOf]
      rcases enclosingClass? around with _ | _ | parent
      · exact reports_report h keyword .thisOutside
      · exact reports_refer h id _ _
      · exact reports_refer h id _ _
  | .super id thisId keyword method span, s, h => by
      rw [exprSpots, visit, breaches_cons, breaches_nil, Spot.breaches]
      refine Reports.then ?_ fun h =>
        (reports_refer h id _ _).then fun h => reports_refer h thisId _ _
      rw [contextOf]
      rcases enclosingClass? around with _ | _ | parent
      · exact reports_report h keyword .superOutside
      · exact reports_report h keyword .superWithoutSuperclass
      · exact Reports.refl h

theorem reports_visitAll : ∀ (es : List Expr) {s : State}, Holds before s →
    Reports before [] (breaches (argSpots around es)) s (visitAll (contextOf around) es s)
  | [], s, h => by
      rw [argSpots, visitAll]
      exact Reports.refl h
  | e :: rest, s, h => by
      rw [argSpots, visitAll, breaches_append]
      exact (reports_visit e h).then (reports_visitAll rest)

end

theorem reports_visitOption (e : Option Expr) (h : Holds before s) :
    Reports before [] (breaches (optionSpots around e)) s
      (visitOption (contextOf around) e s) := by
  cases e with
  | none => exact Reports.refl h
  | some e => exact reports_visit e h

/-- A scope that holds only a keyword is opened, and in the end closed. -/
theorem Reports.keyword {keyword : Bytes} (hs : Holds before s)
    (h : Reports (some [⟨keyword, Range.nowhere⟩]) [] x (s.push.define keyword) u) :
    Reports before [] x s u.pop :=
  h.leave hs rfl rfl

/-- The head of a class with a superclass. -/
theorem reports_heir (h : Holds before s) (around : List Enclosure) (name : Name)
    (parent : Superclass) :
    Reports before [name] (breaches (heirSpots around name (some parent))) s
      (visit { contextOf around with enclosing := .subclass } (.var parent.id parent.name)
        (if parent.name.text = name.text then
          (s.bind name).report parent.name.range .inheritsItself
        else s.bind name)) := by
  rw [heirSpots, breaches_cons, breaches_nil, List.append_nil, Spot.breaches, visit]
  split
  · have hreport := (reports_bind h name).plus fun h =>
      reports_report h parent.name.range .inheritsItself
    exact hreport.plus fun h => reports_refer h _ _ _
  · exact (reports_bind h name).plus fun h => reports_refer h _ _ _

mutual

theorem reports_walk : ∀ (stmt : Stmt) (around : List Enclosure) {before : Option (List Name)}
    {s : State}, Holds before s →
    Reports before (declarations stmt) (breaches (stmtSpots around stmt)) s
      (walk (contextOf around) stmt s)
  | .expr value _, _, _, _, h => by
      rw [declarations, stmtSpots, walk]
      exact reports_visit value h
  | .print value _, _, _, _, h => by
      rw [declarations, stmtSpots, walk]
      exact reports_visit value h
  | .assert value _, _, _, _, h => by
      rw [declarations, stmtSpots, walk]
      exact reports_visit value h
  | .assertEqual left right _, _, _, _, h => by
      rw [declarations, stmtSpots, walk, breaches_append]
      exact (reports_visit left h).then (reports_visit right)
  | .var name init _, _, _, _, h => by
      rw [declarations, stmtSpots, walk, ← List.append_nil (breaches _)]
      exact ((reports_declare h name).plus (reports_visitOption init)).plus reports_define
  | .block body _, _, _, s, h => by
      rw [declarations, stmtSpots, walk, breaches_cons, Spot.breaches]
      exact (reports_walkAll body _ (holds_push s)).leave h rfl rfl
  | .cond test thenBranch none _, _, _, _, h => by
      rw [declarations, stmtSpots, walk, breaches_append]
      exact (reports_visit test h).then (reports_walk thenBranch _)
  | .cond test thenBranch (some elseBranch) _, around, _, _, h => by
      rw [declarations, stmtSpots, walk, breaches_append, breaches_append]
      refine (reports_visit test h).then fun h => ?_
      have hthen := reports_walk thenBranch around h
      exact hthen.append (reports_walk elseBranch around hthen.holds)
  | .loop test body _, _, _, _, h => by
      rw [declarations, stmtSpots, walk, breaches_append]
      exact (reports_visit test h).then (reports_walk body _)
  | .ret keyword value _, around, _, _, h => by
      rw [declarations, stmtSpots, walk, breaches_cons, Spot.breaches]
      refine Reports.then ?_ (reports_visitOption value)
      rw [contextOf]
      by_cases hmem : .function ∈ around
      · rw [if_pos hmem, if_pos (decide_eq_true hmem)]
        exact Reports.refl h
      · rw [if_neg hmem, if_neg (mt of_decide_eq_true hmem)]
        exact reports_report h keyword .returnOutside
  | .function decl, _, _, _, h => by
      rw [declarations, stmtSpots, walk]
      exact (reports_bind h decl.name).plus (reports_walkFunction decl _)
  | .classDecl name none methods _, _, _, _, h => by
      rw [declarations, stmtSpots, walk, breaches_append, ← contextOf_cls]
      refine (reports_bind h name).plus fun h => ?_
      exact (reports_walkMethods methods _ (holds_keyword _ _)).keyword h
  | .classDecl name (some parent) methods _, around, _, _, h => by
      rw [declarations, stmtSpots, walk, breaches_append, ← contextOf_cls]
      refine (reports_heir h around name parent).plus fun h => ?_
      apply Reports.keyword h
      exact (reports_walkMethods methods _ (holds_keyword _ _)).keyword (holds_keyword _ _)

theorem reports_walkAll : ∀ (body : List Stmt) (around : List Enclosure)
    {before : Option (List Name)} {s : State}, Holds before s →
    Reports before (allDeclarations body) (breaches (bodySpots around body)) s
      (walkAll (contextOf around) body s)
  | [], _, _, _, h => by
      rw [allDeclarations, bodySpots, walkAll]
      exact Reports.refl h
  | stmt :: rest, around, _, _, h => by
      rw [allDeclarations, bodySpots, walkAll, breaches_append]
      have hfirst := reports_walk stmt around h
      exact hfirst.append (reports_walkAll rest around hfirst.holds)

theorem reports_walkFunction : ∀ (f : Function) (around : List Enclosure)
    {before : Option (List Name)} {s : State}, Holds before s →
    Reports before [] (breaches (functionSpots around f)) s (walkFunction (contextOf around) f s)
  | .mk _ _ params body _, around, _, s, h => by
      rw [functionSpots, walkFunction, breaches_cons, Spot.breaches, ← contextOf_function]
      have hparams := reports_params (holds_push s) params
      exact (hparams.append (reports_walkAll body _ hparams.holds)).leave h rfl rfl

theorem reports_walkMethods : ∀ (fs : List Function) (around : List Enclosure)
    {before : Option (List Name)} {s : State}, Holds before s →
    Reports before [] (breaches (methodSpots around fs)) s (walkMethods (contextOf around) fs s)
  | [], _, _, _, h => by
      rw [methodSpots, walkMethods]
      exact Reports.refl h
  | f :: rest, _, _, _, h => by
      rw [methodSpots, walkMethods, breaches_append]
      exact (reports_walkFunction f _ h).then (reports_walkMethods rest _)

end

theorem reports_resolve (m : Module) (bag : Bag) :
    ∃ found : List Breach,
      (resolve m bag).2.items.toList = bag.items.toList ++ found.map Breach.diagnostic ∧
        found.Perm (breaches (moduleSpots m)) := by
  rw [resolve, moduleSpots, breaches_append]
  by_cases hisolated : m.kind.isolated = true
  · rw [if_pos hisolated, if_pos hisolated]
    have hstart : Holds (some []) ⟨[Bindings.empty], Depths.empty, bag⟩ := holds_push ⟨[], _, _⟩
    obtain ⟨found, hfound, hperm⟩ := (reports_walkAll m.body [] hstart).bag
    refine ⟨found, hfound, hperm.trans ?_⟩
    rw [breaches_cons, breaches_nil, List.append_nil]
    exact List.perm_append_comm
  · rw [if_neg hisolated, if_neg hisolated]
    have hnone : Holds none ⟨[], Depths.empty, bag⟩ := rfl
    obtain ⟨found, hfound, hperm⟩ := (reports_walkAll m.body [] hnone).bag
    refine ⟨found, hfound, hperm.trans ?_⟩
    rw [redefinitionsIn, Option.elim, List.append_nil]
    exact .rfl

/-- The pass over a module adds to a bag one error for each breach at each spot of the module,
and nothing else; so it reports an error exactly if a spot breaks its rule. -/
theorem resolve_reports_breaches (m : Module) (bag : Bag) :
    ∃ found : List Diagnostic,
      (resolve m bag).2.items.toList = bag.items.toList ++ found ∧
      found.Perm ((breaches (moduleSpots m)).map Breach.diagnostic) ∧
      ((∃ d ∈ found, d.isError = true) ↔
        ∃ around spot, (around, spot) ∈ moduleSpots m ∧ spot.Breaks around) := by
  obtain ⟨found, hfound, hperm⟩ := reports_resolve m bag
  refine ⟨found.map Breach.diagnostic, hfound, hperm.map _, ?_⟩
  rw [exists_breaks_iff]
  constructor
  · rintro ⟨d, hd, -⟩ hnil
    obtain ⟨b, hb, -⟩ := List.mem_map.mp hd
    exact List.ne_nil_of_mem (hperm.mem_iff.mp hb) hnil
  · intro hne
    obtain ⟨b, hb⟩ := List.exists_mem_of_ne_nil _ hne
    exact ⟨b.diagnostic, List.mem_map_of_mem (hperm.mem_iff.mpr hb), rfl⟩

end LoxMachine.Scope
