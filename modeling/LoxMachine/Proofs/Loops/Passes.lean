import LoxMachine.Proofs.Loops.Scopes

/-!
# Passes over loops

The pass over scopes and the direct one are made side by side.  They have the same scopes open
but for those of rounds, which stay empty, and so record the same declarations.
-/

namespace LoxMachine.Scope

/-! ## Depths -/

/-- Of the `d` innermost scopes all but `d'` are those of rounds, and the next one is none. -/
inductive Counts : List Bool → Nat → Nat → Prop where
  | here {g} : Counts (false :: g) 0 0
  | outside {g d d'} (h : Counts g d d') : Counts (false :: g) (d + 1) (d' + 1)
  | round {g d d'} (h : Counts g d d') : Counts (true :: g) (d + 1) d'

/-- Both tables lead a reference to the same scope, or to none. -/
def Matched (D D' : Depths) (g : List Bool) (id : Nat) : Prop :=
  D.depth? id = none ∧ D'.depth? id = none ∨
    ∃ d d', D.depth? id = some d ∧ D'.depth? id = some d' ∧ Counts g d d'

/-- A reference is led to the same scope by both tables, and no declaration stands in a round. -/
def Mark.Fits (D D' : Depths) : Mark → Prop
  | .use g id => Matched D D' g id
  | .declare g => g.head? ≠ some true

theorem Mark.Fits.congr {D D' E E' : Depths} {mark : Mark} (h : mark.Fits D D')
    (hD : ∀ id ∈ markIds [mark], E.depth? id = D.depth? id)
    (hD' : ∀ id ∈ markIds [mark], E'.depth? id = D'.depth? id) : mark.Fits E E' := by
  cases mark with
  | declare g => exact h
  | use g id =>
      rw [Mark.Fits, Matched, hD id List.mem_cons_self, hD' id List.mem_cons_self]
      exact h

/-! ## Scopes -/

/-- The scopes of the direct pass are those that are not of rounds; these are empty. -/
inductive Thinned : List Bool → List (Bindings Bool) → List (Bindings Bool) → Prop where
  | nil : Thinned [] [] []
  | scope {g scopes scopes'} (scope : Bindings Bool) (h : Thinned g scopes scopes') :
      Thinned (false :: g) (scope :: scopes) (scope :: scopes')
  | round {g scopes scopes'} (h : Thinned g scopes scopes') :
      Thinned (true :: g) (Bindings.empty :: scopes) scopes'

variable {f g : List Bool} {scopes scopes' : List (Bindings Bool)} {s s' t t' u u' : State}
  {marks more : List Mark}

theorem Thinned.lookup (h : Thinned g scopes scopes') (name : Bytes) :
    lookup name scopes = none ∧ lookup name scopes' = none ∨
      ∃ d d', lookup name scopes = some d ∧ lookup name scopes' = some d' ∧ Counts g d d' := by
  induction h with
  | nil => exact .inl ⟨rfl, rfl⟩
  | scope scope _ ih =>
      rw [Scope.lookup, Scope.lookup]
      split
      · exact .inr ⟨0, 0, rfl, rfl, .here⟩
      · rcases ih with ⟨hnone, hnone'⟩ | ⟨d, d', hd, hd', hcounts⟩
        · rw [hnone, hnone']
          exact .inl ⟨rfl, rfl⟩
        · rw [hd, hd']
          exact .inr ⟨d + 1, d' + 1, rfl, rfl, .outside hcounts⟩
  | round _ ih =>
      rw [Scope.lookup, Bindings.get?_empty, if_neg (Option.some_ne_none true).symm]
      rcases ih with ⟨hnone, hnone'⟩ | ⟨d, d', hd, hd', hcounts⟩
      · rw [hnone]
        exact .inl ⟨rfl, hnone'⟩
      · rw [hd]
        exact .inr ⟨d + 1, d', rfl, hd', .round hcounts⟩

theorem Thinned.mark (h : Thinned g s.scopes s'.scopes) (hbare : g.head? ≠ some true)
    (name : Bytes) (usable : Bool) :
    Thinned g (s.mark name usable).scopes (s'.mark name usable).scopes := by
  obtain ⟨scopes, depths, bag⟩ := s
  obtain ⟨scopes', depths', bag'⟩ := s'
  cases h with
  | nil => exact .nil
  | scope scope h => exact .scope _ h
  | round => exact absurd rfl hbare

/-! ## Two passes -/

/-- From `s` and from `s'` both passes have followed a tree with these marks. -/
structure Parallel (g : List Bool) (marks : List Mark) (s s' t t' : State) : Prop where
  scopes : Thinned g t.scopes t'.scopes
  frame : ∀ id ∉ markIds marks,
    t.depths.depth? id = s.depths.depth? id ∧ t'.depths.depth? id = s'.depths.depth? id
  fits : (markIds marks).Nodup →
    (∀ id ∈ markIds marks, s.depths.depth? id = none ∧ s'.depths.depth? id = none) →
    ∀ mark ∈ marks, mark.Fits t.depths t'.depths

theorem Parallel.refl (h : Thinned g s.scopes s'.scopes) : Parallel g [] s s' s s' :=
  ⟨h, fun _ _ => ⟨rfl, rfl⟩, fun _ _ => List.forall_mem_nil _⟩

theorem Parallel.append (h : Parallel f marks s s' t t') (h' : Parallel g more t t' u u') :
    Parallel g (marks ++ more) s s' u u' where
  scopes := h'.scopes
  frame id hid := by
    rw [markIds_append, List.mem_append, not_or] at hid
    obtain ⟨hfirst, hfirst'⟩ := h.frame id hid.1
    obtain ⟨hthen, hthen'⟩ := h'.frame id hid.2
    exact ⟨hthen.trans hfirst, hthen'.trans hfirst'⟩
  fits hnodup hnone := by
    rw [markIds_append] at hnodup hnone
    obtain ⟨hfirst, hmore, hdisjoint⟩ := List.nodup_append.mp hnodup
    refine List.forall_mem_append.mpr ⟨fun mark hmark => ?_, ?_⟩
    · have hfits := h.fits hfirst (fun id hid => hnone id (List.mem_append_left _ hid)) mark hmark
      -- What is followed next has other nodes.
      have hother : ∀ id ∈ markIds [mark], id ∉ markIds more := by
        intro id hid hid'
        have hmem : id ∈ markIds marks := by
          obtain ⟨before, after, rfl⟩ := List.append_of_mem hmark
          rw [← List.singleton_append, markIds_append, markIds_append]
          exact List.mem_append_right _ (List.mem_append_left _ hid)
        exact hdisjoint id hmem id hid' rfl
      exact hfits.congr (fun id hid => (h'.frame id (hother id hid)).1)
        fun id hid => (h'.frame id (hother id hid)).2
    · refine h'.fits hmore fun id hid => ?_
      have hnew := hnone id (List.mem_append_right _ hid)
      obtain ⟨hsame, hsame'⟩ := h.frame id fun hid' => hdisjoint id hid' id hid rfl
      exact ⟨hsame.trans hnew.1, hsame'.trans hnew.2⟩

/-- A step that records nothing. -/
theorem Parallel.of_depths (h : Thinned g t.scopes t'.scopes) (hdepths : t.depths = s.depths)
    (hdepths' : t'.depths = s'.depths) : Parallel g [] s s' t t' := by
  refine ⟨h, fun _ _ => ?_, fun _ _ => List.forall_mem_nil _⟩
  rw [hdepths, hdepths']
  exact ⟨rfl, rfl⟩

theorem Parallel.close (h : Parallel f marks s s' t t') (h' : Parallel g [] t t' u u') :
    Parallel g marks s s' u u' := by
  have happend := h.append h'
  rwa [List.append_nil] at happend

theorem Parallel.declare (h : Parallel g marks s s' t t') (hbare : g.head? ≠ some true) :
    Parallel g (.declare g :: marks) s s' t t' :=
  ⟨h.scopes, h.frame, fun hnodup hnone =>
    List.forall_mem_cons.mpr ⟨hbare, h.fits hnodup hnone⟩⟩

theorem parallel_refer (h : Thinned g s.scopes s'.scopes) (id : Nat) (name : Bytes)
    (node node' : Expr) :
    Parallel g [.use g id] s s' (s.refer id name node) (s'.refer id name node') where
  scopes := by
    rw [refer_scopes, refer_scopes]
    exact h
  frame other hother := by
    have hne : other ≠ id := fun heq => hother (heq ▸ List.mem_cons_self)
    exact ⟨refer_depth?_ne s hne name node, refer_depth?_ne s' hne name node'⟩
  fits _ hnone := by
    obtain ⟨hs, hs'⟩ := hnone id List.mem_cons_self
    refine List.forall_mem_singleton.mpr ?_
    rw [Mark.Fits, Matched, refer_depth?_self hs, refer_depth?_self hs']
    exact h.lookup name

/-! ## Expressions -/

/-- A reference for which neither pass records anything. -/
theorem Parallel.unused (h : Parallel g [] s s' t t') (id : Nat) :
    Parallel g [.use g id] s s' t t' where
  scopes := h.scopes
  frame other _ := h.frame other List.not_mem_nil
  fits _ hnone := by
    obtain ⟨hs, hs'⟩ := hnone id List.mem_cons_self
    obtain ⟨hsame, hsame'⟩ := h.frame id List.not_mem_nil
    exact List.forall_mem_singleton.mpr (.inl ⟨hsame.trans hs, hsame'.trans hs'⟩)

mutual

theorem parallel_visit (ctx : Context) : ∀ (e : Expr) {s s' : State},
    Thinned g s.scopes s'.scopes →
    Parallel g (exprMarks g e) s s' (visit ctx e s) (visit ctx e s')
  | .literal _ _, _, _, h => .refl h
  | .var id name, _, _, h => parallel_refer h id name.text _ _
  | .assign id name value _, _, _, h =>
      have hvalue := parallel_visit ctx value h
      hvalue.append (parallel_refer hvalue.scopes id name.text _ _)
  | .unary _ operand _, _, _, h => parallel_visit ctx operand h
  | .binary _ left right _, _, _, h | .logical _ left right _, _, _, h =>
      have hleft := parallel_visit ctx left h
      hleft.append (parallel_visit ctx right hleft.scopes)
  | .group inner _, _, _, h => parallel_visit ctx inner h
  | .call callee args _, _, _, h =>
      have hcallee := parallel_visit ctx callee h
      hcallee.append (parallel_visitAll ctx args hcallee.scopes)
  | .get object _ _, _, _, h => parallel_visit ctx object h
  | .set object _ value _, _, _, h =>
      have hvalue := parallel_visit ctx value h
      hvalue.append (parallel_visit ctx object hvalue.scopes)
  | .this id keyword, s, s', h => by
      rw [visit, visit]
      split
      · have hreport : Parallel g [] s s' (s.report keyword .thisOutside)
            (s'.report keyword .thisOutside) := .of_depths h rfl rfl
        exact hreport.unused id
      · exact parallel_refer h id _ _ _
  | .super id thisId keyword method span, s, s', h => by
      have hrefer : ∀ {s s' : State}, Thinned g s.scopes s'.scopes →
          Parallel g (exprMarks g (.super id thisId keyword method span)) s s'
            ((s.refer id (utf8 "super") (.super id thisId keyword method span)).refer thisId
              (utf8 "this") (.this thisId span))
            ((s'.refer id (utf8 "super") (.super id thisId keyword method span)).refer thisId
              (utf8 "this") (.this thisId span)) := by
        intro s s' h
        have hsuper := parallel_refer h id (utf8 "super") (.super id thisId keyword method span)
          (.super id thisId keyword method span)
        exact hsuper.append (parallel_refer hsuper.scopes thisId _ _ _)
      rw [visit, visit]
      cases ctx.enclosing with
      | noClass =>
          have hreport : Parallel g [] s s' (s.report keyword .superOutside)
              (s'.report keyword .superOutside) := .of_depths h rfl rfl
          exact hreport.append (hrefer hreport.scopes)
      | plainClass =>
          have hreport : Parallel g [] s s' (s.report keyword .superWithoutSuperclass)
              (s'.report keyword .superWithoutSuperclass) := .of_depths h rfl rfl
          exact hreport.append (hrefer hreport.scopes)
      | subclass => exact hrefer h

theorem parallel_visitAll (ctx : Context) : ∀ (es : List Expr) {s s' : State},
    Thinned g s.scopes s'.scopes →
    Parallel g (argMarks g es) s s' (visitAll ctx es s) (visitAll ctx es s')
  | [], _, _, h => .refl h
  | e :: rest, _, _, h =>
      have hfirst := parallel_visit ctx e h
      hfirst.append (parallel_visitAll ctx rest hfirst.scopes)

end

theorem parallel_visitOption (ctx : Context) (h : Thinned g s.scopes s'.scopes)
    (e : Option Expr) :
    Parallel g (optionMarks g e) s s' (visitOption ctx e s) (visitOption ctx e s') := by
  cases e with
  | none => exact .refl h
  | some e => exact parallel_visit ctx e h

/-! ## Declarations -/

theorem parallel_mark (h : Thinned g s.scopes s'.scopes) (hbare : g.head? ≠ some true)
    (name : Bytes) (usable : Bool) :
    Parallel g [] s s' (s.mark name usable) (s'.mark name usable) :=
  .of_depths (h.mark hbare name usable) (mark_depths s name usable) (mark_depths s' name usable)

theorem declare_eq (s : State) (name : Name) :
    ∃ bag, s.declare name = State.mark { s with bag := bag } name.text false := by
  obtain ⟨scopes, depths, bag⟩ := s
  cases scopes with
  | nil => exact ⟨bag, rfl⟩
  | cons scope outer =>
      unfold State.declare
      dsimp only
      split
      · exact ⟨_, rfl⟩
      · exact ⟨bag, rfl⟩

theorem parallel_declare (h : Thinned g s.scopes s'.scopes) (hbare : g.head? ≠ some true)
    (name : Name) : Parallel g [] s s' (s.declare name) (s'.declare name) := by
  obtain ⟨bag, hdeclare⟩ := declare_eq s name
  obtain ⟨bag', hdeclare'⟩ := declare_eq s' name
  have hreport : Parallel g [] s s' { s with bag := bag } { s' with bag := bag' } :=
    .of_depths h rfl rfl
  rw [hdeclare, hdeclare']
  exact hreport.close (parallel_mark hreport.scopes hbare name.text false)

theorem parallel_bind (h : Thinned g s.scopes s'.scopes) (hbare : g.head? ≠ some true)
    (name : Name) : Parallel g [] s s' (s.bind name) (s'.bind name) := by
  have hdeclare := parallel_declare h hbare name
  exact hdeclare.close (parallel_mark hdeclare.scopes hbare name.text true)

theorem parallel_bindAll (names : List Name) (hbare : g.head? ≠ some true) {s s' : State}
    (h : Thinned g s.scopes s'.scopes) :
    Parallel g [] s s' (names.foldl State.bind s) (names.foldl State.bind s') := by
  induction names generalizing s s' with
  | nil => exact .refl h
  | cons name names ih =>
      have hbind := parallel_bind h hbare name
      exact hbind.close (ih hbind.scopes)

/-! ## Opening and closing scopes -/

theorem parallel_push (h : Thinned g s.scopes s'.scopes) :
    Parallel (false :: g) [] s s' s.push s'.push :=
  .of_depths (.scope Bindings.empty h) rfl rfl

theorem parallel_pop (h : Thinned (false :: g) s.scopes s'.scopes) :
    Parallel g [] s s' s.pop s'.pop := by
  refine .of_depths ?_ rfl rfl
  unfold State.pop
  generalize s.scopes = scopes at h
  generalize s'.scopes = scopes' at h
  cases h with
  | scope _ h => exact h

theorem parallel_pushRound (h : Thinned g s.scopes s'.scopes) :
    Parallel (true :: g) [] s s' s.push s' :=
  .of_depths (.round h) rfl rfl

theorem parallel_popRound (h : Thinned (true :: g) s.scopes s'.scopes) :
    Parallel g [] s s' s.pop s' := by
  refine .of_depths ?_ rfl rfl
  unfold State.pop
  generalize s.scopes = scopes at h
  generalize s'.scopes = scopes' at h
  cases h with
  | round h => exact h

/-- A scope that holds one of the words `this` and `super`. -/
theorem parallel_keyword (h : Thinned g s.scopes s'.scopes) (keyword : Bytes) :
    Parallel (false :: g) [] s s' (s.push.define keyword) (s'.push.define keyword) :=
  .of_depths (.scope (Bindings.empty.set keyword true) h) rfl rfl

theorem parallel_enterClass (ctx : Context) (h : Thinned g s.scopes s'.scopes)
    (hbare : g.head? ≠ some true) (name : Name) (superclass : Option Superclass) :
    Parallel (false :: outerMarks g superclass) (parentMarks g superclass) s s'
      (enterClass ctx name superclass s) (enterClass ctx name superclass s') := by
  have hbind := parallel_bind h hbare name
  cases superclass with
  | none => exact hbind.close (parallel_keyword hbind.scopes _)
  | some parent =>
      have henter : ∀ {s s' : State}, Thinned g s.scopes s'.scopes →
          Parallel (false :: false :: g) [.use g parent.id] s s'
            (((visit { ctx with enclosing := .subclass } (.var parent.id parent.name)
              s).push.define (utf8 "super")).push.define (utf8 "this"))
            (((visit { ctx with enclosing := .subclass } (.var parent.id parent.name)
              s').push.define (utf8 "super")).push.define (utf8 "this")) := by
        intro s s' h
        have hparent := parallel_refer h parent.id parent.name.text
          (.var parent.id parent.name) (.var parent.id parent.name)
        have hsuper := parallel_keyword hparent.scopes (utf8 "super")
        exact (hparent.close hsuper).close (parallel_keyword hsuper.scopes (utf8 "this"))
      rw [enterClass, enterClass]
      dsimp only
      split
      · have hreport : Parallel g [] s s'
            ((s.bind name).report parent.name.range .inheritsItself)
            ((s'.bind name).report parent.name.range .inheritsItself) :=
          hbind.close (.of_depths hbind.scopes rfl rfl)
        exact hreport.append (henter hreport.scopes)
      · exact hbind.append (henter hbind.scopes)

theorem parallel_leaveClass {superclass : Option Superclass}
    (h : Thinned (false :: outerMarks g superclass) s.scopes s'.scopes) :
    Parallel g [] s s' (leaveClass superclass s) (leaveClass superclass s') := by
  cases superclass with
  | none => exact parallel_pop h
  | some parent =>
      have hpop := parallel_pop h
      exact hpop.close (parallel_pop hpop.scopes)

/-! ## Statements -/

mutual

theorem parallel_walk : ∀ (stmt : Stmt) (ctx : Context) {g : List Bool} {s s' : State},
    Thinned g s.scopes s'.scopes → stmt.Tidy → (g.head? = some true → declarations stmt = []) →
    Parallel g (stmtMarks g stmt) s s' (walk ctx stmt s) (walkDirectly ctx stmt s')
  | .expr value _, ctx, _, _, _, h, _, _ | .print value _, ctx, _, _, _, h, _, _
  | .assert value _, ctx, _, _, _, h, _, _ => parallel_visit ctx value h
  | .assertEqual left right _, ctx, _, _, _, h, _, _ =>
      have hleft := parallel_visit ctx left h
      hleft.append (parallel_visit ctx right hleft.scopes)
  | .var name init _, ctx, _, _, _, h, _, hnone => by
      have hbare := fun hround => List.cons_ne_nil _ _ (hnone hround)
      have hdeclare := parallel_declare h hbare name
      have hinit := hdeclare.append (parallel_visitOption ctx hdeclare.scopes init)
      exact (hinit.close (parallel_mark hinit.scopes hbare name.text true)).declare hbare
  | .block body span, ctx, _, _, _, h, htidy, _ => by
      rw [walk, walkDirectly, stmtMarks]
      cases hround : isRound body span with
      | true =>
          have hbody := (parallel_pushRound h).append
            (parallel_walkAll body ctx (.round h) htidy.2 fun _ => htidy.1 hround)
          exact hbody.close (parallel_popRound hbody.scopes)
      | false =>
          have hbody := (parallel_push h).append
            (parallel_walkAll body ctx (.scope _ h) htidy.2 nofun)
          exact hbody.close (parallel_pop hbody.scopes)
  | .cond test thenBranch none _, ctx, _, _, _, h, htidy, hnone =>
      have htest := parallel_visit ctx test h
      htest.append (parallel_walk thenBranch ctx htest.scopes htidy hnone)
  | .cond test thenBranch (some elseBranch) _, ctx, _, _, _, h, htidy, hnone => by
      have htest := parallel_visit ctx test h
      have hthen := parallel_walk thenBranch ctx htest.scopes htidy.1 fun hround =>
        (List.append_eq_nil_iff.mp (hnone hround)).1
      have helse := parallel_walk elseBranch ctx hthen.scopes htidy.2 fun hround =>
        (List.append_eq_nil_iff.mp (hnone hround)).2
      exact htest.append (hthen.append helse)
  | .loop test body _, ctx, _, _, _, h, htidy, hnone =>
      have htest := parallel_visit ctx test h
      htest.append (parallel_walk body ctx htest.scopes htidy hnone)
  | .ret keyword value _, ctx, _, s, s', h, _, _ => by
      rw [walk, walkDirectly]
      split
      · exact parallel_visitOption ctx h value
      · have hreport : Parallel _ [] s s' (s.report keyword .returnOutside)
            (s'.report keyword .returnOutside) := .of_depths h rfl rfl
        exact hreport.append (parallel_visitOption ctx hreport.scopes value)
  | .function decl, ctx, _, _, _, h, htidy, hnone => by
      have hbare := fun hround => List.cons_ne_nil _ _ (hnone hround)
      have hbind := parallel_bind h hbare decl.name
      exact (hbind.append (parallel_walkFunction decl ctx hbind.scopes htidy)).declare hbare
  | .classDecl name superclass methods _, ctx, _, _, _, h, htidy, hnone => by
      have hbare := fun hround => List.cons_ne_nil _ _ (hnone hround)
      have henter := parallel_enterClass ctx h hbare name superclass
      have hmethods := henter.append
        (parallel_walkMethods methods (ctx.inClass superclass) henter.scopes htidy)
      exact (hmethods.close (parallel_leaveClass hmethods.scopes)).declare hbare

theorem parallel_walkAll : ∀ (body : List Stmt) (ctx : Context) {g : List Bool} {s s' : State},
    Thinned g s.scopes s'.scopes → Stmt.TidyAll body →
    (g.head? = some true → allDeclarations body = []) →
    Parallel g (bodyMarks g body) s s' (walkAll ctx body s) (walkAllDirectly ctx body s')
  | [], _, _, _, _, h, _, _ => .refl h
  | stmt :: rest, ctx, _, _, _, h, htidy, hnone => by
      have hfirst := parallel_walk stmt ctx h htidy.1 fun hround =>
        (List.append_eq_nil_iff.mp (hnone hround)).1
      exact hfirst.append (parallel_walkAll rest ctx hfirst.scopes htidy.2 fun hround =>
        (List.append_eq_nil_iff.mp (hnone hround)).2)

theorem parallel_walkFunction : ∀ (f : Function) (ctx : Context) {g : List Bool}
    {s s' : State}, Thinned g s.scopes s'.scopes → f.Tidy →
    Parallel g (functionMarks g f) s s' (walkFunction ctx f s) (walkFunctionDirectly ctx f s')
  | .mk _ _ params body _, ctx, g, _, _, h, htidy => by
      have hbare : (false :: g).head? ≠ some true := nofun
      have hpush := parallel_push h
      have hparams := hpush.close (parallel_bindAll params hbare hpush.scopes)
      have hbody := hparams.append
        (parallel_walkAll body { ctx with inFunction := true } hparams.scopes htidy nofun)
      exact hbody.close (parallel_pop hbody.scopes)

theorem parallel_walkMethods : ∀ (fs : List Function) (ctx : Context) {g : List Bool}
    {s s' : State}, Thinned g s.scopes s'.scopes → Function.TidyAll fs →
    Parallel g (methodMarks g fs) s s' (walkMethods ctx fs s) (walkMethodsDirectly ctx fs s')
  | [], _, _, _, _, h, _ => .refl h
  | f :: rest, ctx, _, _, _, h, htidy =>
      have hfirst := parallel_walkFunction f ctx h htidy.1
      hfirst.append (parallel_walkMethods rest ctx hfirst.scopes htidy.2)

end

/-- The tables of both passes lead each reference of a module to the same scope, and have nothing
else. -/
theorem resolveDirectly_fits {m : Module} (bag : Bag) (htidy : Stmt.TidyAll m.body)
    (hnodup : (siteIds (moduleSites m)).Nodup) :
    (∀ mark ∈ moduleMarks m, mark.Fits (resolve m bag).1 (resolveDirectly m)) ∧
      ∀ id ∉ siteIds (moduleSites m), (resolve m bag).1.depth? id = none ∧
        (resolveDirectly m).depth? id = none := by
  have hstart : Thinned (if m.kind.isolated then [false] else [])
      (if m.kind.isolated then [Bindings.empty] else [])
      (if m.kind.isolated then [Bindings.empty] else []) := by
    split
    · exact .scope _ .nil
    · exact .nil
  have hbare : (if m.kind.isolated then [false] else []).head? = some true →
      allDeclarations m.body = [] := by
    split <;> exact nofun
  have hparallel := @parallel_walkAll m.body Context.outermost _
    ⟨if m.kind.isolated then [Bindings.empty] else [], Depths.empty, bag⟩
    ⟨if m.kind.isolated then [Bindings.empty] else [], Depths.empty, Bag.empty⟩
    hstart htidy hbare
  rw [← markIds_module m] at hnodup ⊢
  exact ⟨hparallel.fits hnodup fun _ _ => ⟨rfl, rfl⟩, hparallel.frame⟩

end LoxMachine.Scope
