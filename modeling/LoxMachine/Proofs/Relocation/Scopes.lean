import LoxMachine.Proofs.Relocation.Trees
import LoxMachine.Scope
import Mathlib.Data.List.Sort

/-!
# The pass over trees with other node numbers

A pass over a tree whose numbers have been moved over a gap records the same depths for
the moved numbers and reports the same.  As the numbers keep their order, the table has the
same text.
-/

namespace LoxMachine

open Scope

def Resolved.renumber (g : Gap) (entry : Resolved) : Resolved :=
  ⟨entry.depth, entry.node.renumber g.move⟩

/-- The second table has the entries of the first under moved numbers, and none in the
gap. -/
structure Depths.Moved (g : Gap) (D E : Depths) : Prop where
  entries : ∀ id, E.table[g.move id]? = D.table[id]?.map (Resolved.renumber g)
  absent : ∀ id, g.start ≤ id → id < g.start + g.width → E.table[id]? = none

namespace Depths

variable {g : Gap} {D E : Depths}

theorem moved_empty (g : Gap) : Moved g empty empty where
  entries _ := by simp only [empty, Std.TreeMap.getElem?_emptyc, Option.map_none]
  absent _ _ _ := by simp only [empty, Std.TreeMap.getElem?_emptyc]

theorem Moved.insert (h : Moved g D E) (id : Nat) (entry : Resolved) :
    Moved g (D.insert id entry) (E.insert (g.move id) (entry.renumber g)) where
  entries other := by
    simp only [Depths.insert, Std.TreeMap.getElem?_insert, Nat.compare_eq_eq, Gap.move_inj,
      h.entries]
    split
    · rfl
    · rfl
  absent other hle hlt := by
    simp only [Depths.insert, Std.TreeMap.getElem?_insert, Nat.compare_eq_eq,
      Gap.move_ne hle hlt, if_false, h.absent other hle hlt]

theorem Moved.depth? (h : Moved g D E) (id : Nat) : E.depth? (g.move id) = D.depth? id := by
  unfold Depths.depth?
  rw [h.entries, Option.map_map]
  rfl

theorem Moved.mem_toList_iff (h : Moved g D E) (id : Nat) (entry : Resolved) :
    (id, entry) ∈ E.table.toList ↔
      (id, entry) ∈ D.table.toList.map fun entry => (g.move entry.1, entry.2.renumber g) := by
  rw [Std.TreeMap.mem_toList_iff_getElem?_eq_some, List.mem_map]
  constructor
  · intro hentry
    have hout : ¬ (g.start ≤ id ∧ id < g.start + g.width) := by
      rintro ⟨hle, hlt⟩
      rw [h.absent id hle hlt] at hentry
      cases hentry
    obtain ⟨old, rfl⟩ := Gap.exists_move hout
    rw [h.entries] at hentry
    obtain ⟨found, hfound, rfl⟩ := Option.map_eq_some_iff.mp hentry
    exact ⟨(old, found), Std.TreeMap.mem_toList_iff_getElem?_eq_some.mpr hfound, rfl⟩
  · rintro ⟨⟨old, found⟩, hmem, heq⟩
    obtain ⟨rfl, rfl⟩ := Prod.mk.inj heq
    rw [h.entries, Std.TreeMap.mem_toList_iff_getElem?_eq_some.mp hmem]
    rfl

/-- By increasing number, the entries stand in the same order. -/
theorem Moved.toList_eq (h : Moved g D E) :
    E.table.toList = D.table.toList.map fun entry => (g.move entry.1, entry.2.renumber g) := by
  have hsorted : ∀ F : Depths, F.table.toList.Pairwise fun a b => a.1 < b.1 := fun F =>
    Std.TreeMap.ordered_keys_toList.imp fun hlt => Nat.compare_eq_lt.mp hlt
  have : Std.Irrefl fun a b : Nat × Resolved => a.1 < b.1 := ⟨fun a => Nat.lt_irrefl a.1⟩
  have : Std.Antisymm fun a b : Nat × Resolved => a.1 < b.1 :=
    ⟨fun a b hab hba => absurd hba (Nat.lt_asymm hab)⟩
  -- Moving keeps the order, and lists in order are the same if they have the same members.
  refine List.Pairwise.eq_of_mem_iff (hsorted E) ?_ fun (id, entry) => h.mem_toList_iff id entry
  exact List.pairwise_map.mpr ((hsorted D).imp Gap.move_lt_move)

theorem Moved.size_eq (h : Moved g D E) : E.size = D.size := by
  unfold Depths.size
  rw [← Std.TreeMap.length_toList, ← Std.TreeMap.length_toList, h.toList_eq, List.length_map]

theorem Moved.text_eq (h : Moved g D E) : E.text = D.text := by
  unfold Depths.text
  rw [h.toList_eq, List.map_map]
  congr 1
  refine List.map_congr_left fun entry _ => ?_
  simp only [Function.comp_apply, Resolved.renumber, Expr.text, Expr.onto_renumber]

end Depths

namespace Scope

/-- The passes over two trees stand at the same place and differ in their tables only. -/
structure Abreast (g : Gap) (s s' : State) : Prop where
  scopes : s'.scopes = s.scopes
  bag : s'.bag = s.bag
  depths : s.depths.Moved g s'.depths

variable {g : Gap} {s s' : State}

/-! ## Scopes and references -/

theorem Abreast.push (h : Abreast g s s') : Abreast g s.push s'.push :=
  ⟨congrArg (Bindings.empty :: ·) h.scopes, h.bag, h.depths⟩

theorem Abreast.pop (h : Abreast g s s') : Abreast g s.pop s'.pop :=
  ⟨congrArg List.tail h.scopes, h.bag, h.depths⟩

theorem Abreast.report (h : Abreast g s s') (range : Range) (violation : Violation) :
    Abreast g (s.report range violation) (s'.report range violation) :=
  ⟨h.scopes, congrArg (Bag.error · range violation.message) h.bag, h.depths⟩

theorem Abreast.mark (h : Abreast g s s') (name : Bytes) (usable : Bool) :
    Abreast g (s.mark name usable) (s'.mark name usable) := by
  unfold State.mark
  rw [h.scopes]
  split
  · exact h
  · exact ⟨rfl, h.bag, h.depths⟩

theorem Abreast.declare (h : Abreast g s s') (name : Name) :
    Abreast g (s.declare name) (s'.declare name) := by
  unfold State.declare
  rw [h.scopes]
  split
  · exact h
  · dsimp only
    split
    · exact (h.report _ _).mark _ _
    · exact h.mark _ _

theorem Abreast.bind (h : Abreast g s s') (name : Name) :
    Abreast g (s.bind name) (s'.bind name) :=
  (h.declare name).mark name.text true

theorem Abreast.bindAll (h : Abreast g s s') (names : List Name) :
    Abreast g (names.foldl State.bind s) (names.foldl State.bind s') := by
  induction names generalizing s s' with
  | nil => exact h
  | cons name names ih => exact ih (h.bind name)

theorem Abreast.refer (h : Abreast g s s') (id : Nat) (name : Bytes) (node : Expr) :
    Abreast g (s.refer id name node) (s'.refer (g.move id) name (node.renumber g.move)) := by
  unfold State.refer
  rw [h.scopes]
  split
  next depth _ => exact ⟨rfl, h.bag, h.depths.insert id ⟨depth, node⟩⟩
  next => exact h

/-! ## Expressions -/

mutual

theorem Abreast.visit {ctx : Context} : ∀ (e : Expr) {s s' : State}, Abreast g s s' →
    Abreast g (visit ctx e s) (visit ctx (e.renumber g.move) s')
  | .literal _ _, _, _, h => h
  | .var id name, _, _, h => h.refer id name.text _
  | .assign id name value span, _, _, h =>
      (Abreast.visit value h).refer id name.text (.assign id name value span)
  | .unary _ operand _, _, _, h => Abreast.visit operand h
  | .binary _ left right _, _, _, h => Abreast.visit right (Abreast.visit left h)
  | .logical _ left right _, _, _, h => Abreast.visit right (Abreast.visit left h)
  | .group inner _, _, _, h => Abreast.visit inner h
  | .call callee args _, _, _, h => Abreast.visitAll args (Abreast.visit callee h)
  | .get object _ _, _, _, h => Abreast.visit object h
  | .set object _ value _, _, _, h => Abreast.visit object (Abreast.visit value h)
  | .this id keyword, _, _, h => by
      simp only [Scope.visit, Expr.renumber]
      split
      · exact h.report _ _
      · exact h.refer id _ (.this id keyword)
  | .super id thisId keyword method span, s, s', h => by
      have href : ∀ {s s' : State}, Abreast g s s' →
          Abreast g ((s.refer id (utf8 "super") (.super id thisId keyword method span)).refer
              thisId (utf8 "this") (.this thisId span))
            ((s'.refer (g.move id) (utf8 "super")
              (.super (g.move id) (g.move thisId) keyword method span)).refer (g.move thisId)
                (utf8 "this") (.this (g.move thisId) span)) := fun h =>
        (h.refer id _ (.super id thisId keyword method span)).refer thisId _ (.this thisId span)
      simp only [Scope.visit, Expr.renumber]
      cases ctx.enclosing with
      | noClass => exact href (h.report _ _)
      | plainClass => exact href (h.report _ _)
      | subclass => exact href h

theorem Abreast.visitAll {ctx : Context} : ∀ (es : List Expr) {s s' : State}, Abreast g s s' →
    Abreast g (visitAll ctx es s) (visitAll ctx (Expr.renumberAll g.move es) s')
  | [], _, _, h => h
  | e :: rest, _, _, h => Abreast.visitAll rest (Abreast.visit e h)

end

theorem Abreast.visitOption {ctx : Context} (h : Abreast g s s') (e : Option Expr) :
    Abreast g (visitOption ctx e s) (visitOption ctx (e.map fun e => e.renumber g.move) s') := by
  cases e with
  | none => exact h
  | some e => exact h.visit e

/-! ## Statements -/

theorem Abreast.enterClass {ctx : Context} (h : Abreast g s s') (name : Name)
    (superclass : Option Superclass) :
    Abreast g (enterClass ctx name superclass s)
      (enterClass ctx name (superclass.map (Superclass.renumber g.move)) s') := by
  cases superclass with
  | none => exact (h.bind name).push.mark _ _
  | some parent =>
      have hvisit : ∀ {s s' : State}, Abreast g s s' →
          Abreast g
            (((Scope.visit { ctx with enclosing := .subclass } (.var parent.id parent.name)
              s).push.define (utf8 "super")).push.define (utf8 "this"))
            (((Scope.visit { ctx with enclosing := .subclass }
              (.var (g.move parent.id) parent.name) s').push.define (utf8 "super")).push.define
                (utf8 "this")) := fun h =>
        ((h.visit (.var parent.id parent.name)).push.mark _ _).push.mark _ _
      simp only [Scope.enterClass, Option.map_some, Superclass.renumber]
      split
      · exact hvisit ((h.bind name).report _ _)
      · exact hvisit (h.bind name)

theorem Abreast.leaveClass (h : Abreast g s s') (superclass : Option Superclass) :
    Abreast g (leaveClass superclass s)
      (leaveClass (superclass.map (Superclass.renumber g.move)) s') := by
  cases superclass with
  | none => exact h.pop
  | some parent => exact h.pop.pop

mutual

theorem Abreast.walk : ∀ (stmt : Stmt) {ctx : Context} {s s' : State}, Abreast g s s' →
    Abreast g (walk ctx stmt s) (walk ctx (stmt.renumber g.move) s')
  | .expr value _, _, _, _, h => h.visit value
  | .print value _, _, _, _, h => h.visit value
  | .assert value _, _, _, _, h => h.visit value
  | .assertEqual left right _, _, _, _, h => (h.visit left).visit right
  | .var name init _, _, _, _, h => ((h.declare name).visitOption init).mark _ _
  | .block body _, _, _, _, h => (Abreast.walkAll body h.push).pop
  | .cond test thenBranch none _, _, _, _, h => Abreast.walk thenBranch (h.visit test)
  | .cond test thenBranch (some elseBranch) _, _, _, _, h =>
      Abreast.walk elseBranch (Abreast.walk thenBranch (h.visit test))
  | .loop test body _, _, _, _, h => Abreast.walk body (h.visit test)
  | .ret keyword value _, ctx, _, _, h => by
      simp only [Scope.walk, Stmt.renumber]
      split
      · exact h.visitOption value
      · exact (h.report _ _).visitOption value
  | .function decl, _, _, _, h => by
      simp only [Scope.walk, Stmt.renumber, Function.name_renumber]
      exact Abreast.walkFunction decl (h.bind decl.name)
  | .classDecl name superclass methods _, ctx, _, _, h => by
      have hctx : ctx.inClass (superclass.map (Superclass.renumber g.move)) =
          ctx.inClass superclass := by
        cases superclass <;> rfl
      simp only [Scope.walk, Stmt.renumber, hctx]
      exact (Abreast.walkMethods methods (h.enterClass name superclass)).leaveClass superclass

theorem Abreast.walkAll : ∀ (body : List Stmt) {ctx : Context} {s s' : State}, Abreast g s s' →
    Abreast g (walkAll ctx body s) (walkAll ctx (Stmt.renumberAll g.move body) s')
  | [], _, _, _, h => h
  | stmt :: rest, _, _, _, h => Abreast.walkAll rest (Abreast.walk stmt h)

theorem Abreast.walkFunction : ∀ (f : Function) {ctx : Context} {s s' : State},
    Abreast g s s' →
    Abreast g (walkFunction ctx f s) (walkFunction ctx (f.renumber g.move) s')
  | .mk _ _ params body _, _, _, _, h => (Abreast.walkAll body (h.push.bindAll params)).pop

theorem Abreast.walkMethods : ∀ (fs : List Function) {ctx : Context} {s s' : State},
    Abreast g s s' →
    Abreast g (walkMethods ctx fs s) (walkMethods ctx (Function.renumberAll g.move fs) s')
  | [], _, _, _, h => h
  | f :: rest, _, _, _, h => Abreast.walkMethods rest (Abreast.walkFunction f h)

end

/-- The depths of a module with moved numbers are those of the module, moved, and the
reports are the same. -/
theorem resolve_renumber (g : Gap) (m : Module) (bag : Bag) :
    (resolve m bag).1.Moved g (resolve (m.renumber g.move) bag).1 ∧
      (resolve (m.renumber g.move) bag).2 = (resolve m bag).2 := by
  have hstart : Abreast g ⟨if m.kind.isolated then [Bindings.empty] else [], Depths.empty, bag⟩
      ⟨if m.kind.isolated then [Bindings.empty] else [], Depths.empty, bag⟩ :=
    ⟨rfl, rfl, Depths.moved_empty g⟩
  have hend := @Abreast.walkAll g m.body Context.outermost _ _ hstart
  exact ⟨hend.depths, hend.bag⟩

end Scope

end LoxMachine
