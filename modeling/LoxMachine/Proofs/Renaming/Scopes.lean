import LoxMachine.Proofs.Renaming.Alike
import LoxMachine.Proofs.Scope.Resolution

/-!
# The pass over alike trees

Following alike trees gives the same depths, and no complaint about one of them that
there is not about the other.
-/

namespace LoxMachine.Renaming

open Scope

/-- The names of open scopes, exchanged in those that are marked. `y` is in none of the
first. -/
inductive Matched (x y : Bytes) :
    List Bool → List (Bindings Bool) → List (Bindings Bool) → Prop where
  | nil : Matched x y [] [] []
  | cons {marked marks scope scope' outer outer'}
      (hnames : ∀ n, scope'.get? (turn x y marked n) = scope.get? n)
      (hfree : scope.get? y = none) (hrest : Matched x y marks outer outer') :
      Matched x y (marked :: marks) (scope :: outer) (scope' :: outer')

/-- The passes over two trees stand at the same place. -/
structure Mirrors (x y : Bytes) (marks : List Bool) (Γ : List Layer) (s s' : Scope.State) :
    Prop where
  plain : Plain x ∧ Plain y
  layers : s.scopes = names Γ
  scopes : Matched x y marks s.scopes s'.scopes
  depths : ∀ id, s'.depths.depth? id = s.depths.depth? id
  clean : s.bag.isClean = true → s'.bag.isClean = true

variable {D : Depths} {x y : Bytes} {marks : List Bool} {Γ : List Layer} {s s' : Scope.State}
  {scopes scopes' : List (Bindings Bool)} {name name' : Bytes}

/-! ## Looking up names -/

/-- Exchanged twice, a name other than `y` is itself or becomes `y`. -/
theorem turn_turn_cases (a b : Bool) (h : name ≠ y) :
    turn x y a (turn x y b name) = name ∨ turn x y a (turn x y b name) = y := by
  by_cases hab : a = b
  · rw [hab, turn_turn]
    exact .inl rfl
  · by_cases hx : name = x
    · cases a <;> cases b
      · exact absurd rfl hab
      · exact .inr (hx ▸ Equiv.swap_apply_left x y)
      · exact .inr (hx ▸ Equiv.swap_apply_left x y)
      · exact absurd rfl hab
    · rw [turn_of_ne hx h, turn_of_ne hx h]
      exact .inl rfl

theorem Matched.lookup_some (h : Matched x y marks scopes scopes') (hy : name ≠ y) {depth : Nat}
    (hlookup : lookup name scopes = some depth) :
    lookup (turn x y (markAt marks depth) name) scopes' = some depth := by
  induction h generalizing depth with
  | nil => cases hlookup
  | @cons marked marks scope scope' outer outer' hnames hfree _ ih =>
      rw [lookup] at hlookup ⊢
      split at hlookup
      next husable =>
        cases hlookup
        rw [markAt_zero, hnames, if_pos husable]
      next hnot =>
        obtain ⟨inner, hinner, rfl⟩ := Option.map_eq_some_iff.mp hlookup
        rw [markAt_succ, ih hinner]
        have hpass : ¬ scope'.get? (turn x y (markAt marks inner) name) = some true := by
          rw [← turn_turn marked (turn x y (markAt marks inner) name), hnames]
          rcases turn_turn_cases marked (markAt marks inner) hy with heq | heq
          · rw [heq]
            exact hnot
          · rw [heq, hfree]
            exact (Option.some_ne_none true).symm
        rw [if_neg hpass]
        rfl

theorem Matched.lookup_eq (h : Matched x y marks scopes scopes')
    (hfixed : ∀ k, turn x y (markAt marks k) name = name) :
    lookup name scopes' = lookup name scopes := by
  induction h with
  | nil => rfl
  | @cons marked marks scope scope' outer outer' hnames _ _ ih =>
      have hget : scope'.get? name = scope.get? name := by
        have hname := hnames name
        rwa [show turn x y marked name = name from hfixed 0] at hname
      rw [lookup, lookup, hget, ih fun k => hfixed (k + 1)]

/-! ## Reports, references and declarations -/

/-- A report about the first tree ends all obligations. -/
theorem Mirrors.report (h : Mirrors x y marks Γ s s') (range range' : Range)
    (violation violation' : Violation) :
    Mirrors x y marks Γ (s.report range violation) (s'.report range' violation') :=
  ⟨h.plain, h.layers, h.scopes, h.depths, fun hclean => by
    rw [Scope.State.report, Bag.isClean_error] at hclean
    cases hclean⟩

theorem Mirrors.insert (h : Mirrors x y marks Γ s s') (id depth : Nat) (node node' : Expr) :
    Mirrors x y marks Γ { s with depths := s.depths.insert id ⟨depth, node⟩ }
      { s' with depths := s'.depths.insert id ⟨depth, node'⟩ } where
  plain := h.plain
  layers := h.layers
  scopes := h.scopes
  depths other := by rw [Depths.depth?_insert, Depths.depth?_insert, h.depths]
  clean := h.clean

theorem Mirrors.refer (h : Mirrors x y marks Γ s s') {id : Nat} {node node' : Expr}
    (hlookup : lookup name' s'.scopes = lookup name s.scopes) :
    Mirrors x y marks Γ (s.refer id name node) (s'.refer id name' node') := by
  unfold Scope.State.refer
  rw [hlookup]
  split
  · exact h.insert id _ node node'
  · exact h

/-- A reference leads the same way by either name. -/
theorem Mirrors.lookup_eq (h : Mirrors x y marks Γ s s') {id : Nat}
    (hdepth : D.depth? id = lookup name (names Γ)) (hy : name ≠ y)
    (hdenotes : Denotes D x y marks id name name') :
    lookup name' s'.scopes = lookup name s.scopes := by
  unfold Denotes at hdenotes
  rw [hdepth, ← h.layers] at hdenotes
  split at hdenotes
  next depth hlookup =>
    rw [hdenotes, hlookup]
    exact h.scopes.lookup_some hy hlookup
  next hlookup =>
    rw [hdenotes.1]
    exact h.scopes.lookup_eq hdenotes.2

/-- `this` and `super` are never exchanged. -/
theorem Mirrors.referThis (h : Mirrors x y marks Γ s s') (id : Nat) (node : Expr) :
    Mirrors x y marks Γ (s.refer id (utf8 "this") node) (s'.refer id (utf8 "this") node) :=
  h.refer (h.scopes.lookup_eq fun _ => turn_of_ne (Ne.symm h.plain.1.1) (Ne.symm h.plain.2.1))

theorem Mirrors.referSuper (h : Mirrors x y marks Γ s s') (id : Nat) (node : Expr) :
    Mirrors x y marks Γ (s.refer id (utf8 "super") node) (s'.refer id (utf8 "super") node) :=
  h.refer (h.scopes.lookup_eq fun _ => turn_of_ne (Ne.symm h.plain.1.2) (Ne.symm h.plain.2.2))

theorem Mirrors.mark (h : Mirrors x y marks Γ s s')
    (hname : name' = turn x y (markAt marks 0) name) (hy : name ≠ y) (usable : Bool) :
    Mirrors x y marks (mark name usable Γ) (s.mark name usable) (s'.mark name' usable) := by
  obtain ⟨scopes, depths, bag⟩ := s
  obtain ⟨scopes', depths', bag'⟩ := s'
  obtain ⟨hplain, hlayers, hscopes, hdepths, hclean⟩ := h
  obtain rfl : scopes = names Γ := hlayers
  cases Γ with
  | nil =>
      cases hscopes
      exact ⟨hplain, rfl, .nil, hdepths, hclean⟩
  | cons layer Γ =>
      cases hscopes with
      | cons hnames hfree hrest =>
          refine ⟨hplain, rfl, .cons ?_ ?_ hrest, hdepths, hclean⟩
          · intro n
            rw [hname]
            exact get?_set_turn hnames name usable n
          · rw [Bindings.get?_set_ne _ (Ne.symm hy)]
            exact hfree

theorem Mirrors.declare (h : Mirrors x y marks Γ s s') {first second : Name}
    (hname : second.text = turn x y (markAt marks 0) first.text) (hy : first.text ≠ y) :
    Mirrors x y marks (Scope.mark first.text false Γ) (s.declare first) (s'.declare second) := by
  have hmark := h.mark hname hy false
  have hreport := (h.report first.range second.range (.alreadyDefined first.text)
    (.alreadyDefined second.text)).mark hname hy false
  obtain ⟨scopes, depths, bag⟩ := s
  obtain ⟨scopes', depths', bag'⟩ := s'
  cases h.scopes with
  | nil => exact hmark
  | @cons marked _ scope scope' outer outer' hnames hfree hrest =>
      have hcontains : scope'.contains second.text = scope.contains first.text := by
        rw [Bindings.contains, Bindings.contains, hname]
        exact congrArg Option.isSome (hnames first.text)
      unfold Scope.State.declare
      simp only [hcontains]
      split
      · exact hreport
      · exact hmark

theorem Mirrors.bind (h : Mirrors x y marks Γ s s') {first second : Name}
    (hname : second.text = turn x y (markAt marks 0) first.text) (hy : first.text ≠ y) :
    Mirrors x y marks (Scope.bind first.text Γ) (s.bind first) (s'.bind second) :=
  (h.declare hname hy).mark hname hy true

theorem Mirrors.push (h : Mirrors x y marks Γ s s') (marked : Bool) (layer : Layer)
    (hempty : layer.names = Bindings.empty) :
    Mirrors x y (marked :: marks) (layer :: Γ) s.push s'.push where
  plain := h.plain
  layers := by
    rw [names, List.map_cons, hempty, ← names, ← h.layers]
    rfl
  scopes := .cons (fun _ => rfl) rfl h.scopes
  depths := h.depths
  clean := h.clean

theorem Mirrors.pop {marked : Bool} {layer : Layer}
    (h : Mirrors x y (marked :: marks) (layer :: Γ) s s') :
    Mirrors x y marks Γ s.pop s'.pop := by
  obtain ⟨scopes, depths, bag⟩ := s
  obtain ⟨scopes', depths', bag'⟩ := s'
  obtain ⟨hplain, hlayers, hscopes, hdepths, hclean⟩ := h
  obtain rfl : scopes = names (layer :: Γ) := hlayers
  cases hscopes with
  | cons _ _ hrest => exact ⟨hplain, rfl, hrest, hdepths, hclean⟩

/-! ## Expressions -/

/-- A site at which the depth is right and `y` does not occur. -/
def Apt (D : Depths) (y : Bytes) (site : Site) : Prop :=
  site.Settled D ∧ Avoids y site

variable (ctx : Context)

mutual

theorem mirrors_visit : ∀ {e e' : Expr} {s s' : Scope.State}, AlikeExpr D x y marks e e' →
    (∀ site ∈ exprSites Γ e, Apt D y site) → Mirrors x y marks Γ s s' →
    Mirrors x y marks Γ (visit ctx e s) (visit ctx e' s')
  | .literal _ _, _, _, _, halike, _, h => by
      cases halike
      exact h
  | .var id name, _, _, _, halike, hsites, h => by
      cases halike with
      | var _ hdenotes =>
          obtain ⟨⟨hdepth, _⟩, hfree⟩ := hsites _ List.mem_cons_self
          exact h.refer (h.lookup_eq hdepth hfree hdenotes)
  | .assign id name value _, _, _, _, halike, hsites, h => by
      cases halike with
      | assign _ hdenotes hvalue =>
          have hvisited := mirrors_visit hvalue
            (fun site hmem => hsites site (List.mem_append_left _ hmem)) h
          obtain ⟨⟨hdepth, _⟩, hfree⟩ := hsites _ (List.mem_append_right _ List.mem_cons_self)
          exact hvisited.refer (hvisited.lookup_eq hdepth hfree hdenotes)
  | .unary _ operand _, _, _, _, halike, hsites, h => by
      cases halike with
      | unary hoperand => exact (mirrors_visit hoperand hsites h :)
  | .binary _ left right _, _, _, _, halike, hsites, h => by
      cases halike with
      | binary hleft hright =>
          exact (mirrors_visit hright (fun site hmem => hsites site (List.mem_append_right _ hmem))
            (mirrors_visit hleft (fun site hmem => hsites site (List.mem_append_left _ hmem)) h) :)
  | .logical _ left right _, _, _, _, halike, hsites, h => by
      cases halike with
      | logical hleft hright =>
          exact (mirrors_visit hright (fun site hmem => hsites site (List.mem_append_right _ hmem))
            (mirrors_visit hleft (fun site hmem => hsites site (List.mem_append_left _ hmem)) h) :)
  | .group inner _, _, _, _, halike, hsites, h => by
      cases halike with
      | group hinner => exact (mirrors_visit hinner hsites h :)
  | .call callee args _, _, _, _, halike, hsites, h => by
      cases halike with
      | call hcallee hargs =>
          exact (mirrors_visitAll hargs (fun site hmem => hsites site (List.mem_append_right _ hmem))
            (mirrors_visit hcallee (fun site hmem => hsites site (List.mem_append_left _ hmem)) h) :)
  | .get object _ _, _, _, _, halike, hsites, h => by
      cases halike with
      | get hobject => exact (mirrors_visit hobject hsites h :)
  | .set object _ value _, _, _, _, halike, hsites, h => by
      cases halike with
      | set hobject hvalue =>
          exact (mirrors_visit hobject (fun site hmem => hsites site (List.mem_append_right _ hmem))
            (mirrors_visit hvalue (fun site hmem => hsites site (List.mem_append_left _ hmem)) h) :)
  | .this id keyword, _, _, _, halike, _, h => by
      cases halike
      rw [visit, visit]
      split
      · exact h.report _ _ _ _
      · exact h.referThis id _
  | .super id thisId keyword method span, _, s, s', halike, _, h => by
      cases halike
      rw [visit, visit]
      refine Mirrors.referThis (Mirrors.referSuper ?_ id _) thisId _
      cases ctx.enclosing with
      | noClass => exact h.report _ _ _ _
      | plainClass => exact h.report _ _ _ _
      | subclass => exact h

theorem mirrors_visitAll : ∀ {es es' : List Expr} {s s' : Scope.State},
    AlikeArgs D x y marks es es' → (∀ site ∈ argSites Γ es, Apt D y site) →
    Mirrors x y marks Γ s s' → Mirrors x y marks Γ (visitAll ctx es s) (visitAll ctx es' s')
  | [], _, _, _, halike, _, h => by
      cases halike
      exact h
  | e :: rest, _, _, _, halike, hsites, h => by
      cases halike with
      | cons he hrest =>
          exact (mirrors_visitAll hrest
            (fun site hmem => hsites site (List.mem_append_right _ hmem))
            (mirrors_visit he (fun site hmem => hsites site (List.mem_append_left _ hmem)) h) :)

end

/-! ## Statements -/

/-- The scope of a keyword is not marked. -/
theorem Mirrors.keyword (h : Mirrors x y marks Γ s s') {keyword : Bytes} (hy : keyword ≠ y)
    (region : Region) (declares : List Bytes) :
    Mirrors x y (false :: marks)
      (⟨region, Bindings.empty.set keyword true, declares⟩ :: Γ)
      (s.push.define keyword) (s'.push.define keyword) :=
  (h.push false ⟨region, Bindings.empty, declares⟩ rfl).mark rfl hy true

/-- A class inherits from itself by neither name, or by both. -/
theorem eq_of_denotes {id : Nat} {parent parent' : Bytes} (hparent : parent ≠ y)
    (hname : name ≠ y) (hdenotes : Denotes D x y marks id parent parent')
    (h : parent' = name) : parent = name := by
  unfold Denotes at hdenotes
  split at hdenotes
  next depth _ =>
    have heq : parent = turn x y (markAt marks depth) name := by
      rw [← h, hdenotes, turn_turn]
    by_cases hx : name = x
    · cases hmark : markAt marks depth with
      | false => rwa [hmark] at heq
      | true =>
          rw [hmark, hx] at heq
          exact absurd (heq.trans (Equiv.swap_apply_left x y)) hparent
    · rwa [turn_of_ne hx hname] at heq
  next => exact hdenotes.1.symm.trans h

theorem mirrors_parent {name : Name} {parent parent' : Superclass}
    (halike : AlikeParent D x y marks (some parent) (some parent'))
    (hsite : Apt D y (.read Γ parent.id parent.name.text)) (hname : name.text ≠ y)
    (h : Mirrors x y marks Γ s s') :
    Mirrors x y marks Γ
      (visit ctx (.var parent.id parent.name)
        (if parent.name.text = name.text then s.report parent.name.range .inheritsItself else s))
      (visit ctx (.var parent'.id parent'.name)
        (if parent'.name.text = name.text then s'.report parent'.name.range .inheritsItself
          else s')) := by
  obtain ⟨id, parentName⟩ := parent
  cases halike with
  | present hrange hdenotes =>
      refine mirrors_visit ctx (.var hrange hdenotes)
        (fun site hmem => List.mem_singleton.mp hmem ▸ hsite) ?_
      by_cases heq : parentName.text = name.text
      · rw [if_pos heq]
        split
        · exact h.report _ _ _ _
        · refine ⟨h.plain, h.layers, h.scopes, h.depths, fun hclean => ?_⟩
          rw [Scope.State.report, Bag.isClean_error] at hclean
          cases hclean
      · rw [if_neg heq, if_neg fun heq' => heq (eq_of_denotes hsite.2 hname hdenotes heq')]
        exact h

theorem mirrors_params {marked : Bool} : ∀ {params params' : List Name} {Γ : List Layer}
    {s s' : Scope.State},
    params'.map Name.text = params.map (fun p => turn x y marked p.text) →
    (∀ name ∈ paramNames params, name ≠ y) → Mirrors x y (marked :: marks) Γ s s' →
    Mirrors x y (marked :: marks) (bindAll (paramNames params) Γ)
      (params.foldl Scope.State.bind s) (params'.foldl Scope.State.bind s')
  | [], [], _, _, _, _, _, h => h
  | [], _ :: _, _, _, _, hparams, _, _ => by cases hparams
  | _ :: _, [], _, _, _, hparams, _, _ => by cases hparams
  | p :: params, p' :: params', _, _, _, hparams, hfree, h => by
      obtain ⟨hp, hparams⟩ := List.cons.inj hparams
      have hbound : Mirrors x y (marked :: marks) _ _ _ := h.bind hp (hfree p.text List.mem_cons_self)
      exact (mirrors_params hparams
        (fun name hmem => hfree name (List.mem_cons_of_mem _ hmem)) hbound :)

mutual

theorem mirrors_walk : ∀ (ctx : Context) {stmt stmt' : Stmt} {marks : List Bool}
    {Γ : List Layer} {s s' : Scope.State}, AlikeStmt D x y marks stmt stmt' →
    (∀ site ∈ stmtSites Γ stmt, Apt D y site) → Mirrors x y marks Γ s s' →
    Mirrors x y marks (bindAll (declared stmt) Γ) (walk ctx stmt s) (walk ctx stmt' s')
  | ctx, .expr _ _, _, _, _, _, _, .expr hvalue, hsites, h => mirrors_visit ctx hvalue hsites h
  | ctx, .print _ _, _, _, _, _, _, .print hvalue, hsites, h => mirrors_visit ctx hvalue hsites h
  | ctx, .assert _ _, _, _, _, _, _, .assert hvalue, hsites, h => mirrors_visit ctx hvalue hsites h
  | ctx, .assertEqual _ _ _, _, _, _, _, _, .assertEqual hleft hright, hsites, h =>
      mirrors_visit ctx hright (fun site hmem => hsites site (List.mem_append_right _ hmem))
        (mirrors_visit ctx hleft (fun site hmem => hsites site (List.mem_append_left _ hmem)) h)
  | ctx, .var name none _, _, _, _, _, _, .var hname, hsites, h =>
      (h.declare hname (hsites _ List.mem_cons_self).2).mark hname
        (hsites _ List.mem_cons_self).2 true
  | ctx, .var name (some init) _, _, _, _, _, _, .init hname hinit, hsites, h =>
      (mirrors_visit ctx hinit (fun site hmem => hsites site (List.mem_cons_of_mem _ hmem))
        (h.declare hname (hsites _ List.mem_cons_self).2)).mark hname
        (hsites _ List.mem_cons_self).2 true
  | ctx, .block body _, _, _, Γ, _, _, .block marked hbody, hsites, h => by
      have hwalked := mirrors_walkAll ctx hbody
        (fun site hmem => hsites site (List.mem_cons_of_mem _ hmem))
        (h.push marked (blockLayer body) rfl)
      rw [bindAll_cons] at hwalked
      exact hwalked.pop
  | ctx, .cond _ branch none _, _, _, _, _, _, .cond htest hthen, hsites, h => by
      have hnone : declared branch = [] := (hsites _ List.mem_cons_self).1
      replace hsites := fun site hmem => hsites site (List.mem_cons_of_mem _ hmem)
      have hbranch := mirrors_walk ctx hthen
        (fun site hmem => hsites site (List.mem_append_right _ hmem))
        (mirrors_visit ctx htest (fun site hmem => hsites site (List.mem_append_left _ hmem)) h)
      rw [hnone] at hbranch
      exact hbranch
  | ctx, .cond _ branch (some other) _, _, _, _, _, _, .choice htest hthen helse, hsites, h => by
      have hnone : declared branch = [] := (hsites _ List.mem_cons_self).1
      replace hsites := fun site hmem => hsites site (List.mem_cons_of_mem _ hmem)
      have hnone' : declared other = [] := (hsites _ List.mem_cons_self).1
      replace hsites := fun site hmem => hsites site (List.mem_cons_of_mem _ hmem)
      have hbranches := fun site hmem => hsites site (List.mem_append_right _ hmem)
      have hbranch := mirrors_walk ctx hthen
        (fun site hmem => hbranches site (List.mem_append_left _ hmem))
        (mirrors_visit ctx htest (fun site hmem => hsites site (List.mem_append_left _ hmem)) h)
      rw [hnone] at hbranch
      have hother := mirrors_walk ctx helse
        (fun site hmem => hbranches site (List.mem_append_right _ hmem)) hbranch
      rw [hnone'] at hother
      exact hother
  | ctx, .loop _ body _, _, _, _, _, _, .loop htest hbody, hsites, h => by
      have hnone : declared body = [] := (hsites _ List.mem_cons_self).1
      replace hsites := fun site hmem => hsites site (List.mem_cons_of_mem _ hmem)
      have hwalked := mirrors_walk ctx hbody
        (fun site hmem => hsites site (List.mem_append_right _ hmem))
        (mirrors_visit ctx htest (fun site hmem => hsites site (List.mem_append_left _ hmem)) h)
      rw [hnone] at hwalked
      exact hwalked
  | ctx, .ret _ none _, _, _, _, _, _, .ret, _, h => by
      rw [walk, walk]
      split
      · exact h
      · exact h.report _ _ _ _
  | ctx, .ret _ (some _) _, _, _, _, _, _, .giveBack hvalue, hsites, h => by
      rw [walk, walk]
      split
      · exact mirrors_visit ctx hvalue hsites h
      · exact mirrors_visit ctx hvalue hsites (h.report _ _ _ _)
  | ctx, .function decl, _, marks, _, _, _, @AlikeStmt.function _ _ _ _ _ decl' hname hdecl, hsites,
      h => by
      have hname' : decl'.name.text = turn x y (markAt marks 0) decl.name.text := by
        rw [hdecl.name_eq]
        exact hname.symm
      have hbound := h.bind hname' (hsites _ List.mem_cons_self).2
      exact mirrors_walkFunction ctx hdecl (fun site hmem =>
        hsites site (List.mem_cons_of_mem _ (List.mem_cons_of_mem _ hmem))) hbound
  | ctx, .classDecl name superclass methods _, _, _, Γ, s, s',
      .classDecl hname hparent hmethods, hsites, h => by
      have hfree : name.text ≠ y := (hsites _ List.mem_cons_self).2
      replace hsites := fun site hmem => hsites site (List.mem_cons_of_mem _ hmem)
      have hinner := fun site hmem => hsites site (List.mem_append_right _ hmem)
      have hbound := h.bind hname.symm hfree
      rw [walk, walk, enterClass.eq_def, enterClass.eq_def]
      cases superclass with
      | none =>
          cases hparent
          exact (mirrors_walkMethods (ctx.inClass none) hmethods hinner
            (hbound.keyword (Ne.symm h.plain.2.1) .receiver [utf8 "this"])).pop
      | some parent =>
          cases hsuper : hparent with
          | present hrange hdenotes =>
              have hvisited := mirrors_parent { ctx with enclosing := .subclass } hparent
                (hsites _ (List.mem_append_left _ List.mem_cons_self)) hfree hbound
              exact (mirrors_walkMethods (ctx.inClass (some _)) hmethods hinner
                ((hvisited.keyword (Ne.symm h.plain.2.2) .superclass [utf8 "super"]).keyword
                  (Ne.symm h.plain.2.1) .receiver [utf8 "this"])).pop.pop
termination_by structural _ stmt => stmt

theorem mirrors_walkAll : ∀ (ctx : Context) {body body' : List Stmt} {marks : List Bool}
    {Γ : List Layer} {s s' : Scope.State}, AlikeBody D x y marks body body' →
    (∀ site ∈ bodySites Γ body, Apt D y site) → Mirrors x y marks Γ s s' →
    Mirrors x y marks (bindAll (declaredAll body) Γ) (walkAll ctx body s) (walkAll ctx body' s')
  | _, [], _, _, _, _, _, .nil, _, h => h
  | ctx, stmt :: rest, _, _, Γ, _, _, .cons hstmt hrest, hsites, h => by
      have hfirst := mirrors_walk ctx hstmt
        (fun site hmem => hsites site (List.mem_append_left _ hmem)) h
      have hall := mirrors_walkAll ctx hrest
        (fun site hmem => hsites site (List.mem_append_right _ hmem)) hfirst
      rw [← bindAll_append] at hall
      exact hall
termination_by structural _ body => body

theorem mirrors_walkFunction : ∀ (ctx : Context) {f f' : Function} {marks : List Bool}
    {Γ : List Layer} {s s' : Scope.State}, AlikeFunction D x y marks f f' →
    (∀ site ∈ functionSites Γ f, Apt D y site) → Mirrors x y marks Γ s s' →
    Mirrors x y marks Γ (walkFunction ctx f s) (walkFunction ctx f' s')
  | ctx, .mk _ _ params body _, _, _, Γ, s, s', .mk marked hparams hbody, hsites, h => by
      replace hsites := fun site hmem => hsites site (List.mem_cons_of_mem _ hmem)
      have hpushed := mirrors_params hparams
        (fun name hmem => (hsites (.declare name)
          (List.mem_append_left _ (List.mem_map_of_mem hmem))).2)
        (h.push marked ⟨.function, Bindings.empty, paramNames params ++ declaredAll body⟩ rfl)
      have hwalked := mirrors_walkAll { ctx with inFunction := true } hbody
        (fun site hmem => hsites site (List.mem_append_right _ hmem)) hpushed
      rw [bodyLayers, ← bindAll_append, bindAll_cons] at hwalked
      exact hwalked.pop
termination_by structural _ f => f

theorem mirrors_walkMethods : ∀ (ctx : Context) {fs fs' : List Function} {marks : List Bool}
    {Γ : List Layer} {s s' : Scope.State}, AlikeMethods D x y marks fs fs' →
    (∀ site ∈ methodSites Γ fs, Apt D y site) → Mirrors x y marks Γ s s' →
    Mirrors x y marks Γ (walkMethods ctx fs s) (walkMethods ctx fs' s')
  | _, [], _, _, _, _, _, .nil, _, h => h
  | ctx, _ :: _, _, _, _, _, _, .cons hf hrest, hsites, h =>
      (mirrors_walkMethods ctx hrest (fun site hmem => hsites site (List.mem_append_right _ hmem))
        (mirrors_walkFunction ctx hf
          (fun site hmem => hsites site (List.mem_append_left _ hmem)) h) :)
termination_by structural _ fs => fs

end

/-! ## Modules -/

/-- A module that is like one that resolves without an error does so too, to the same
depths. -/
theorem resolve_alike {m m' : Module} (hx : Plain x) (hy : Plain y)
    (hkind : m'.kind = m.kind) (hmarks : marks.length = (moduleLayers m).length)
    (halike : AlikeBody D x y marks m.body m'.body)
    (hsites : ∀ site ∈ moduleSites m, Apt D y site) {bag bag' : Bag}
    (hclean : (resolve m bag).2.isClean = true) (hbag : bag'.isClean = true) :
    (resolve m' bag').2.isClean = true ∧
      ∀ id, (resolve m' bag').1.depth? id = (resolve m bag).1.depth? id := by
  have hbody := fun site hmem => hsites site (List.mem_append_right _ hmem)
  have hstart : Mirrors x y marks (moduleLayers m)
      ⟨if m.kind.isolated then [Bindings.empty] else [], Depths.empty, bag⟩
      ⟨if m'.kind.isolated then [Bindings.empty] else [], Depths.empty, bag'⟩ := by
    rw [hkind]
    unfold moduleLayers at hmarks ⊢
    split at hmarks
    next hisolated =>
      obtain ⟨marked, rfl⟩ := List.length_eq_one_iff.mp hmarks
      rw [if_pos hisolated, if_pos hisolated]
      exact ⟨⟨hx, hy⟩, rfl, .cons (fun _ => rfl) rfl .nil, fun _ => rfl, fun _ => hbag⟩
    next hisolated =>
      obtain rfl := List.length_eq_zero_iff.mp hmarks
      rw [if_neg hisolated, if_neg hisolated]
      exact ⟨⟨hx, hy⟩, rfl, .nil, fun _ => rfl, fun _ => hbag⟩
  have hend := mirrors_walkAll Context.outermost halike hbody hstart
  exact ⟨hend.clean hclean, hend.depths⟩

end LoxMachine.Renaming
