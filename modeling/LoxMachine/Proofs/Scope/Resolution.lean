import LoxMachine.Proofs.Parser.Acceptance
import LoxMachine.Proofs.Scope.Sites

/-!
# The pass over a module settles its sites

Following a tree keeps the scopes that the layers describe, leaves the depths of
other nodes alone, and, if it finds nothing to report, records the right depth for
each reference.
-/

namespace LoxMachine

namespace Depths

theorem depth?_insert (D : Depths) (id other : Nat) (entry : Resolved) :
    (D.insert id entry).depth? other =
      if id = other then some entry.depth else D.depth? other := by
  unfold depth? insert
  rw [Std.TreeMap.getElem?_insert]
  simp only [Nat.compare_eq_eq]
  split <;> rfl

end Depths

namespace Scope

variable {ctx : Context} {Γ : List Layer} {s t u : State}

/-! ## Layers around a place -/

/-- `this` and `super` are usable only in the layers made for them. -/
def Regular (Γ : List Layer) : Prop :=
  ∀ layer ∈ Γ, (layer.names.get? (utf8 "this") = some true → layer.region = .receiver) ∧
    (layer.names.get? (utf8 "super") = some true → layer.region = .superclass)

/-- Inside a class `this` can be used, and inside a subclass `super`. -/
def Within (ctx : Context) (Γ : List Layer) : Prop :=
  (ctx.enclosing ≠ .noClass →
    ∃ layer ∈ Γ, layer.names.get? (utf8 "this") = some true) ∧
  (ctx.enclosing = .subclass → ∃ depth, InMethod Γ depth)

theorem get?_set_plain {names : Bindings Bool} {name keyword : Bytes} {usable : Bool}
    (h : keyword ≠ name) : (names.set name usable).get? keyword = names.get? keyword :=
  names.get?_set_ne h usable

theorem Regular.mark (h : Regular Γ) {name : Bytes} (hname : Plain name) (usable : Bool) :
    Regular (mark name usable Γ) := by
  cases Γ with
  | nil => exact h
  | cons layer Γ =>
      intro other hmem
      rcases List.mem_cons.mp hmem with rfl | hmem
      · rw [get?_set_plain (Ne.symm hname.1), get?_set_plain (Ne.symm hname.2)]
        exact h layer List.mem_cons_self
      · exact h other (List.mem_cons_of_mem _ hmem)

theorem getElem?_mark (Γ : List Layer) (name : Bytes) (usable : Bool) (k : Nat) :
    (mark name usable Γ)[k]? = Γ[k]?.map fun layer =>
      { layer with names := if k = 0 then layer.names.set name usable else layer.names } := by
  cases Γ with
  | nil => rfl
  | cons layer Γ =>
      cases k with
      | zero => rfl
      | succ k => simp [mark]

theorem InMethod.mark {depth : Nat} (h : InMethod Γ depth) {name : Bytes} (hname : Plain name)
    (usable : Bool) : InMethod (mark name usable Γ) depth := by
  have hkeep : ∀ {k keyword} {names : Bindings Bool}, keyword ≠ name →
      (if k = 0 then names.set name usable else names).get? keyword = names.get? keyword := by
    intro k keyword names hne
    split
    · exact get?_set_plain hne
    · rfl
  refine ⟨?_, ?_, ?_⟩
  · intro k hk layer hlayer
    rw [getElem?_mark] at hlayer
    obtain ⟨old, hold, rfl⟩ := Option.map_eq_some_iff.mp hlayer
    exact h.inner k hk old hold
  · obtain ⟨layer, hlayer, husable, hregion⟩ := h.receiver
    rw [getElem?_mark, hlayer]
    exact ⟨_, rfl, (hkeep (Ne.symm hname.1)).trans husable, hregion⟩
  · obtain ⟨layer, hlayer, husable, hregion⟩ := h.superclass
    rw [getElem?_mark, hlayer]
    exact ⟨_, rfl, (hkeep (Ne.symm hname.2)).trans husable, hregion⟩

theorem Within.mark (h : Within ctx Γ) {name : Bytes} (hname : Plain name) (usable : Bool) :
    Within ctx (mark name usable Γ) := by
  refine ⟨fun hctx => ?_, fun hctx => ?_⟩
  · obtain ⟨l, hmem, hl⟩ := h.1 hctx
    cases Γ with
    | nil => cases hmem
    | cons layer Γ =>
        rcases List.mem_cons.mp hmem with rfl | hmem
        · exact ⟨_, List.mem_cons_self, (get?_set_plain (Ne.symm hname.1)).trans hl⟩
        · exact ⟨l, List.mem_cons_of_mem _ hmem, hl⟩
  · obtain ⟨depth, hmethod⟩ := h.2 hctx
    exact ⟨depth, hmethod.mark hname usable⟩

theorem Regular.bindAll {ns : List Bytes} (h : Regular Γ) (hns : ∀ name ∈ ns, Plain name) :
    Regular (bindAll ns Γ) := by
  induction ns generalizing Γ with
  | nil => exact h
  | cons name ns ih =>
      have hname := hns name List.mem_cons_self
      exact ih ((h.mark hname false).mark hname true)
        fun other hmem => hns other (List.mem_cons_of_mem _ hmem)

theorem Within.bindAll {ns : List Bytes} (h : Within ctx Γ) (hns : ∀ name ∈ ns, Plain name) :
    Within ctx (bindAll ns Γ) := by
  induction ns generalizing Γ with
  | nil => exact h
  | cons name ns ih =>
      have hname := hns name List.mem_cons_self
      exact ih ((h.mark hname false).mark hname true)
        fun other hmem => hns other (List.mem_cons_of_mem _ hmem)

/-- A layer without names can be put on top. -/
theorem Regular.push (h : Regular Γ) (layer : Layer) (hempty : layer.names = Bindings.empty) :
    Regular (layer :: Γ) := by
  intro other hmem
  rcases List.mem_cons.mp hmem with rfl | hmem
  · rw [hempty]
    exact ⟨nofun, nofun⟩
  · exact h other hmem

theorem InMethod.push {depth : Nat} (h : InMethod Γ depth) {layer : Layer}
    (hlayer : utf8 "this" ∉ layer.declares ∧ layer.region ≠ .receiver ∧
      layer.region ≠ .superclass) : InMethod (layer :: Γ) (depth + 1) where
  inner k hk other hother := by
    cases k with
    | zero =>
        cases hother
        exact hlayer
    | succ k => exact h.inner k (Nat.lt_of_succ_lt_succ hk) other hother
  receiver := h.receiver
  superclass := h.superclass

/-- A layer of a block or a function can be put on top. -/
theorem Within.push (h : Within ctx Γ) {layer : Layer}
    (hlayer : utf8 "this" ∉ layer.declares ∧ layer.region ≠ .receiver ∧
      layer.region ≠ .superclass) : Within ctx (layer :: Γ) := by
  refine ⟨fun hctx => ?_, fun hctx => ?_⟩
  · obtain ⟨l, hmem, hl⟩ := h.1 hctx
    exact ⟨l, List.mem_cons_of_mem _ hmem, hl⟩
  · obtain ⟨depth, hmethod⟩ := h.2 hctx
    exact ⟨depth + 1, hmethod.push hlayer⟩

/-! ## Following a tree -/

/-- The names are new to the innermost layer. -/
def Fresh : List Layer → List Bytes → Prop
  | [], _ => True
  | layer :: _, ns => ns.Nodup ∧ ∀ name ∈ ns, layer.names.contains name = false

/-- From `s` to `t` the pass has followed a tree with these sites, which declares the
names `ns` in the innermost layer. -/
structure Follows (Γ : List Layer) (ns : List Bytes) (sites : List Site) (s t : State) :
    Prop where
  scopes : t.scopes = names (bindAll ns Γ)
  grows : s.bag.Grows t.bag
  frame : ∀ id, id ∉ siteIds sites → t.depths.depth? id = s.depths.depth? id
  settled : t.bag = s.bag → (siteIds sites).Nodup →
    (∀ id ∈ siteIds sites, s.depths.depth? id = none) → ∀ site ∈ sites, site.Settled t.depths
  fresh : t.bag = s.bag → Fresh Γ ns

theorem Fresh.append {ns ms : List Bytes} (hns : Fresh Γ ns) (hms : Fresh (bindAll ns Γ) ms) :
    Fresh Γ (ns ++ ms) := by
  cases Γ with
  | nil => trivial
  | cons layer Γ =>
      rw [bindAll_cons] at hms
      have hnew : ∀ name ∈ ms, name ∉ ns ∧ layer.names.contains name = false := by
        intro name hmem
        have h := hms.2 name hmem
        rw [Bindings.contains, get?_bindNames] at h
        by_cases hold : name ∈ ns
        · simp [hold] at h
        · exact ⟨hold, by simpa [hold, Bindings.contains] using h⟩
      refine ⟨List.nodup_append.mpr ⟨hns.1, hms.1, ?_⟩, ?_⟩
      · rintro a ha b hb rfl
        exact (hnew a hb).1 ha
      · intro name hmem
        rcases List.mem_append.mp hmem with h | h
        · exact hns.2 name h
        · exact (hnew name h).2

theorem fresh_nil (Γ : List Layer) : Fresh Γ [] := by
  cases Γ with
  | nil => trivial
  | cons layer Γ => exact ⟨List.nodup_nil, fun _ hmem => by cases hmem⟩

theorem Follows.refl (h : s.scopes = names Γ) : Follows Γ [] [] s s where
  scopes := h
  grows := Bag.Grows.refl s.bag
  frame _ _ := rfl
  settled _ _ _ site hmem := by cases hmem
  fresh _ := fresh_nil Γ

theorem Follows.append {ns ms : List Bytes} {a b : List Site} (h : Follows Γ ns a s t)
    (h' : Follows (bindAll ns Γ) ms b t u) : Follows Γ (ns ++ ms) (a ++ b) s u where
  scopes := by rw [bindAll_append]; exact h'.scopes
  grows := h.grows.trans h'.grows
  frame id hid := by
    rw [siteIds_append, List.mem_append, not_or] at hid
    rw [h'.frame id hid.2, h.frame id hid.1]
  settled hbag hnodup hnone := by
    have ht : t.bag = s.bag := (h.grows.eq_of_grows (hbag ▸ h'.grows)).symm
    rw [siteIds_append] at hnodup hnone
    obtain ⟨hna, hnb, hdisjoint⟩ := List.nodup_append.mp hnodup
    intro site hmem
    rcases List.mem_append.mp hmem with hmem | hmem
    · -- what follows the first tree has other nodes
      refine (h.settled ht hna (fun id hid => hnone id (List.mem_append_left _ hid)) site
        hmem).congr fun id hid => h'.frame id ?_
      intro hid'
      exact hdisjoint id (List.mem_flatMap.mpr ⟨site, hmem, hid⟩) id hid' rfl
    · refine h'.settled (hbag.trans ht.symm) hnb (fun id hid => ?_) site hmem
      rw [h.frame id fun hid' => hdisjoint id hid' id hid rfl]
      exact hnone id (List.mem_append_right _ hid)
  fresh hbag := by
    have ht : t.bag = s.bag := (h.grows.eq_of_grows (hbag ▸ h'.grows)).symm
    exact (h.fresh ht).append (h'.fresh (hbag.trans ht.symm))

/-- A site without nodes, settled from the start. -/
theorem Follows.cons {ns : List Bytes} {sites : List Site} (site : Site)
    (h : Follows Γ ns sites s t) (hids : site.ids = [])
    (hsite : t.bag = s.bag → site.Settled t.depths) : Follows Γ ns (site :: sites) s t where
  scopes := h.scopes
  grows := h.grows
  frame id hid := h.frame id (by simpa [hids] using hid)
  settled hbag hnodup hnone other hmem := by
    rcases List.mem_cons.mp hmem with rfl | hmem
    · exact hsite hbag
    · exact h.settled hbag (by simpa [hids] using hnodup)
        (fun id hid => hnone id (by simpa [hids] using hid)) other hmem
  fresh := h.fresh

/-! ## Expressions -/

theorem refer_scopes (s : State) (id : Nat) (name : Bytes) (node : Expr) :
    (s.refer id name node).scopes = s.scopes := by
  unfold State.refer
  split <;> rfl

theorem refer_bag (s : State) (id : Nat) (name : Bytes) (node : Expr) :
    (s.refer id name node).bag = s.bag := by
  unfold State.refer
  split <;> rfl

theorem refer_depth?_ne (s : State) {id other : Nat} (h : other ≠ id) (name : Bytes)
    (node : Expr) : (s.refer id name node).depths.depth? other = s.depths.depth? other := by
  unfold State.refer
  split
  · rw [Depths.depth?_insert, if_neg (Ne.symm h)]
  · rfl

theorem refer_depth?_self {s : State} {id : Nat} (h : s.depths.depth? id = none)
    (name : Bytes) (node : Expr) :
    (s.refer id name node).depths.depth? id = lookup name s.scopes := by
  unfold State.refer
  split
  next depth heq => rw [Depths.depth?_insert, if_pos rfl, heq]
  next heq => rw [h, heq]

/-- A reference that is settled by what is recorded for it. -/
theorem follows_refer (site : Site) (hs : s.scopes = names Γ) (id : Nat) (name : Bytes)
    (node : Expr) (hids : site.ids = [id])
    (hsettled : ∀ D : Depths, D.depth? id = lookup name (names Γ) → site.Settled D) :
    Follows Γ [] [site] s (s.refer id name node) where
  scopes := (refer_scopes s id name node).trans hs
  grows := by rw [refer_bag]; exact Bag.Grows.refl s.bag
  frame other hother := refer_depth?_ne s (by simpa [hids] using hother) name node
  settled _ _ hnone other hmem := by
    rw [List.mem_singleton.mp hmem]
    refine hsettled _ ?_
    rw [refer_depth?_self (hnone id (by simp [hids])), hs]
  fresh _ := fresh_nil Γ

/-- Where `name` can be used in a layer, the lookup leads to one. -/
theorem leads_of_lookup {name : Bytes} {region : Region}
    (hregion : ∀ layer ∈ Γ, layer.names.get? name = some true → layer.region = region)
    (hexists : ∃ layer ∈ Γ, layer.names.get? name = some true) {D : Depths} {id : Nat}
    (hD : D.depth? id = lookup name (names Γ)) : Leads D Γ id name region := by
  obtain ⟨layer, hmem, husable⟩ := hexists
  obtain ⟨depth, hdepth⟩ := lookup_isSome hmem husable
  obtain ⟨found, hfound, hname⟩ := lookup_eq_some hdepth
  exact ⟨depth, found, hD.trans hdepth, hfound, hname,
    hregion found (List.mem_of_getElem? hfound) hname⟩

/-- After a complaint nothing has to be settled. -/
theorem follows_of_report {ns : List Bytes} {sites : List Site} (range : Range)
    (violation : Violation) (hscopes : t.scopes = names (bindAll ns Γ))
    (hgrows : (s.report range violation).bag.Grows t.bag)
    (hframe : ∀ id, id ∉ siteIds sites → t.depths.depth? id = s.depths.depth? id) :
    Follows Γ ns sites s t := by
  have hreport : s.bag.Grows (s.report range violation).bag := Bag.grows_error _ _ _
  have hne : t.bag ≠ s.bag := by
    intro hbag
    exact Bag.error_ne _ _ _ (hreport.eq_of_grows (hbag ▸ hgrows)).symm
  exact ⟨hscopes, hreport.trans hgrows, hframe, fun hbag => absurd hbag hne,
    fun hbag => absurd hbag hne⟩

theorem Follows.report {ns : List Bytes} {sites : List Site} {range : Range}
    {violation : Violation} (h : Follows Γ ns sites (s.report range violation) t) :
    Follows Γ ns sites s t :=
  follows_of_report range violation h.scopes h.grows h.frame

theorem follows_this (hs : s.scopes = names Γ) (hΓ : Regular Γ) (hctx : Within ctx Γ)
    (id : Nat) (keyword : Range) :
    Follows Γ [] [.this Γ id] s (visit ctx (.this id keyword) s) := by
  rw [visit]
  split
  next => exact follows_of_report keyword _ hs (Bag.Grows.refl _) fun _ _ => rfl
  next hclass =>
    exact follows_refer (.this Γ id) hs id _ _ rfl fun D hD =>
      leads_of_lookup (fun layer hmem => (hΓ layer hmem).1) (hctx.1 hclass) hD

theorem refer_refer_depth?_ne (s : State) {id thisId other : Nat}
    (h : other ∉ siteIds [.super Γ id thisId]) (a b : Bytes) (node node' : Expr) :
    ((s.refer id a node).refer thisId b node').depths.depth? other = s.depths.depth? other := by
  simp only [siteIds_cons, Site.ids, siteIds_nil, List.append_nil, List.mem_cons,
    List.not_mem_nil, or_false, not_or] at h
  rw [refer_depth?_ne _ h.2, refer_depth?_ne _ h.1]

/-- In a method of a subclass `this` and `super` are found in neighbouring layers. -/
theorem InMethod.lookup {depth : Nat} (h : InMethod Γ depth) (hΓ : Regular Γ) :
    Scope.lookup (utf8 "this") (names Γ) = some depth ∧
      Scope.lookup (utf8 "super") (names Γ) = some (depth + 1) := by
  obtain ⟨receiver, hreceiver, hthis, hregion⟩ := h.receiver
  obtain ⟨superclass, hsuperclass, hsuper, _⟩ := h.superclass
  constructor
  · refine lookup_eq_of hreceiver hthis fun k hk layer hlayer husable => ?_
    exact (h.inner k hk layer hlayer).2.1 ((hΓ layer (List.mem_of_getElem? hlayer)).1 husable)
  · refine lookup_eq_of hsuperclass hsuper fun k hk layer hlayer husable => ?_
    have hfound := (hΓ layer (List.mem_of_getElem? hlayer)).2 husable
    rcases Nat.lt_succ_iff_lt_or_eq.mp hk with hk | rfl
    · exact (h.inner k hk layer hlayer).2.2 hfound
    · rw [hreceiver] at hlayer
      cases hlayer
      rw [hregion] at hfound
      cases hfound

theorem follows_super (hs : s.scopes = names Γ) (hΓ : Regular Γ) (hctx : Within ctx Γ)
    (id thisId : Nat) (keyword span : Range) (method : Name) :
    Follows Γ [] [.super Γ id thisId] s (visit ctx (.super id thisId keyword method span) s) := by
  have hreport : ∀ violation, Follows Γ [] [.super Γ id thisId] s
      (((s.report keyword violation).refer id (utf8 "super")
        (.super id thisId keyword method span)).refer thisId (utf8 "this")
          (.this thisId span)) := by
    intro violation
    refine follows_of_report keyword violation ?_ ?_ fun other hother => ?_
    · rw [refer_scopes, refer_scopes]
      exact hs
    · rw [refer_bag, refer_bag]
      exact Bag.Grows.refl _
    · exact refer_refer_depth?_ne _ hother _ _ _ _
  rw [visit]
  split
  next => exact hreport _
  next => exact hreport _
  next hclass =>
    refine ⟨?_, ?_, fun other hother => refer_refer_depth?_ne _ hother _ _ _ _, ?_,
      fun _ => fresh_nil Γ⟩
    · rw [refer_scopes, refer_scopes]
      exact hs
    · rw [refer_bag, refer_bag]
      exact Bag.Grows.refl _
    · intro _ hnodup hnone site hmem
      rw [List.mem_singleton.mp hmem]
      have hne : id ≠ thisId := by
        intro heq
        simp [Site.ids, heq] at hnodup
      obtain ⟨depth, hmethod⟩ := hctx.2 hclass
      obtain ⟨hthis, hsuper⟩ := hmethod.lookup hΓ
      refine ⟨depth, hmethod, ?_, ?_⟩
      · rw [refer_depth?_self, refer_scopes, hs, hthis]
        rw [refer_depth?_ne _ (Ne.symm hne)]
        exact hnone thisId (by simp [Site.ids])
      · rw [refer_depth?_ne _ hne, refer_depth?_self (hnone id (by simp [Site.ids])), hs, hsuper]

mutual

theorem follows_visit (hΓ : Regular Γ) (hctx : Within ctx Γ) :
    ∀ (e : Expr) {s : State}, s.scopes = names Γ → (∀ site ∈ exprSites Γ e, site.Proper) →
      Follows Γ [] (exprSites Γ e) s (visit ctx e s)
  | .literal _ _, _, hs, _ => Follows.refl hs
  | .var id name, _, hs, hproper =>
      follows_refer (.read Γ id name.text) hs id _ _ rfl fun _ hD => ⟨hD, hproper _ List.mem_cons_self⟩
  | .assign id name value _, s, hs, hproper => by
      have hvalue := follows_visit hΓ hctx value hs fun site hmem =>
        hproper site (List.mem_append_left _ hmem)
      refine hvalue.append (follows_refer (.write Γ id name.text) hvalue.scopes id name.text _
        rfl fun _ hD => ⟨hD, ?_⟩)
      exact hproper (.write Γ id name.text) (List.mem_append_right _ List.mem_cons_self)
  | .unary _ operand _, _, hs, hproper => follows_visit hΓ hctx operand hs hproper
  | .binary _ left right _, _, hs, hproper => by
      have hleft := follows_visit hΓ hctx left hs fun site hmem =>
        hproper site (List.mem_append_left _ hmem)
      exact hleft.append (follows_visit hΓ hctx right hleft.scopes fun site hmem =>
        hproper site (List.mem_append_right _ hmem))
  | .logical _ left right _, _, hs, hproper => by
      have hleft := follows_visit hΓ hctx left hs fun site hmem =>
        hproper site (List.mem_append_left _ hmem)
      exact hleft.append (follows_visit hΓ hctx right hleft.scopes fun site hmem =>
        hproper site (List.mem_append_right _ hmem))
  | .group inner _, _, hs, hproper => follows_visit hΓ hctx inner hs hproper
  | .call callee args _, _, hs, hproper => by
      have hcallee := follows_visit hΓ hctx callee hs fun site hmem =>
        hproper site (List.mem_append_left _ hmem)
      exact hcallee.append (follows_visitAll hΓ hctx args hcallee.scopes fun site hmem =>
        hproper site (List.mem_append_right _ hmem))
  | .get object _ _, _, hs, hproper => follows_visit hΓ hctx object hs hproper
  | .set object _ value _, _, hs, hproper => by
      have hvalue := follows_visit hΓ hctx value hs fun site hmem =>
        hproper site (List.mem_append_left _ hmem)
      exact hvalue.append (follows_visit hΓ hctx object hvalue.scopes fun site hmem =>
        hproper site (List.mem_append_right _ hmem))
  | .this id keyword, _, hs, _ => follows_this hs hΓ hctx id keyword
  | .super id thisId keyword method span, _, hs, _ =>
      follows_super hs hΓ hctx id thisId keyword span method

theorem follows_visitAll (hΓ : Regular Γ) (hctx : Within ctx Γ) :
    ∀ (es : List Expr) {s : State}, s.scopes = names Γ →
      (∀ site ∈ argSites Γ es, site.Proper) →
      Follows Γ [] (argSites Γ es) s (visitAll ctx es s)
  | [], _, hs, _ => Follows.refl hs
  | e :: rest, _, hs, hproper => by
      have hfirst := follows_visit hΓ hctx e hs fun site hmem =>
        hproper site (List.mem_append_left _ hmem)
      exact hfirst.append (follows_visitAll hΓ hctx rest hfirst.scopes fun site hmem =>
        hproper site (List.mem_append_right _ hmem))

end

theorem follows_visitOption (hΓ : Regular Γ) (hctx : Within ctx Γ) (e : Option Expr)
    (hs : s.scopes = names Γ) (hproper : ∀ site ∈ optionSites Γ e, site.Proper) :
    Follows Γ [] (optionSites Γ e) s (visitOption ctx e s) := by
  cases e with
  | none => exact Follows.refl hs
  | some e => exact follows_visit hΓ hctx e hs hproper

/-! ## Declarations -/

theorem mark_scopes (hs : s.scopes = names Γ) (name : Bytes) (usable : Bool) :
    (s.mark name usable).scopes = names (mark name usable Γ) := by
  cases Γ with
  | nil =>
      have hnil : s.scopes = [] := hs
      simp [State.mark, hnil, mark, names]
  | cons layer Γ =>
      have hcons : s.scopes = layer.names :: names Γ := hs
      simp only [State.mark, hcons, mark, names, List.map_cons]

theorem mark_bag (s : State) (name : Bytes) (usable : Bool) :
    (s.mark name usable).bag = s.bag := by
  unfold State.mark
  split <;> rfl

theorem mark_depths (s : State) (name : Bytes) (usable : Bool) :
    (s.mark name usable).depths = s.depths := by
  unfold State.mark
  split <;> rfl

/-- A declaration, which the pass goes on from as if the name could not be used. -/
structure Declares (Γ : List Layer) (name : Bytes) (s t : State) : Prop where
  scopes : t.scopes = names (mark name false Γ)
  grows : s.bag.Grows t.bag
  depths : t.depths = s.depths
  fresh : t.bag = s.bag → Fresh Γ [name]

theorem declares_declare (hs : s.scopes = names Γ) (name : Name) :
    Declares Γ name.text s (s.declare name) := by
  unfold State.declare
  cases Γ with
  | nil =>
      have hnil : s.scopes = [] := hs
      simp only [hnil]
      exact ⟨hnil, Bag.Grows.refl _, rfl, fun _ => trivial⟩
  | cons layer Γ =>
      have hcons : s.scopes = layer.names :: names Γ := hs
      simp only [hcons]
      by_cases hold : layer.names.contains name.text = true
      · simp only [hold, if_true]
        have hreport : (s.report name.range (.alreadyDefined name.text)).scopes =
            names (layer :: Γ) := hs
        refine ⟨mark_scopes hreport name.text false, ?_, mark_depths _ _ _, ?_⟩
        · rw [mark_bag]
          exact Bag.grows_error _ _ _
        · intro hbag
          rw [mark_bag] at hbag
          exact absurd hbag (Bag.error_ne _ _ _)
      · simp only [hold, Bool.false_eq_true, if_false]
        refine ⟨mark_scopes hs name.text false, ?_, mark_depths _ _ _, ?_⟩
        · rw [mark_bag]
          exact Bag.Grows.refl _
        · intro _
          refine ⟨by simp, ?_⟩
          intro other hmem
          rw [List.mem_singleton.mp hmem]
          simpa using hold

/-- What is followed between a declaration and the definition of its name. -/
theorem Declares.define {name : Bytes} {sites : List Site} (h : Declares Γ name s t)
    (hmiddle : Follows (mark name false Γ) [] sites t u) :
    Follows Γ [name] sites s (u.define name) where
  scopes := mark_scopes hmiddle.scopes name true
  grows := by rw [State.define, mark_bag]; exact h.grows.trans hmiddle.grows
  frame id hid := by
    rw [State.define, mark_depths, hmiddle.frame id hid, h.depths]
  settled hbag hnodup hnone site hmem := by
    rw [State.define, mark_bag] at hbag
    have ht : t.bag = s.bag := (h.grows.eq_of_grows (hbag ▸ hmiddle.grows)).symm
    rw [State.define, mark_depths]
    exact hmiddle.settled (hbag.trans ht.symm) hnodup (fun id hid => by
      rw [h.depths]
      exact hnone id hid) site hmem
  fresh hbag := by
    rw [State.define, mark_bag] at hbag
    exact h.fresh (h.grows.eq_of_grows (hbag ▸ hmiddle.grows)).symm

theorem follows_bind (hs : s.scopes = names Γ) (name : Name) :
    Follows Γ [name.text] [] s (s.bind name) :=
  (declares_declare hs name).define (Follows.refl (declares_declare hs name).scopes)

theorem follows_params (params : List Name) :
    ∀ {Γ : List Layer} {s : State}, s.scopes = names Γ →
      (∀ name ∈ paramNames params, Plain name) →
      Follows Γ (paramNames params) ((paramNames params).map Site.declare) s
        (params.foldl State.bind s) := by
  induction params with
  | nil =>
      intro Γ s hs _
      exact Follows.refl hs
  | cons p params ih =>
      intro Γ s hs hplain
      have hfirst := (follows_bind hs p).cons (.declare p.text) rfl fun _ =>
        hplain p.text List.mem_cons_self
      exact hfirst.append (ih hfirst.scopes fun name hmem =>
        hplain name (List.mem_cons_of_mem _ hmem))

/-- Leaving a scope that was entered from `s`. -/
theorem Follows.leave {layer : Layer} {ns : List Bytes} {sites : List Site}
    {entered : State} (h : Follows (layer :: Γ) ns sites entered t)
    (hbag : entered.bag = s.bag) (hdepths : entered.depths = s.depths) :
    Follows Γ [] sites s t.pop where
  scopes := by
    have hscopes := h.scopes
    rw [bindAll_cons] at hscopes
    show t.scopes.tail = names Γ
    rw [hscopes]
    rfl
  grows := hbag ▸ h.grows
  frame id hid := hdepths ▸ h.frame id hid
  settled ht hnodup hnone := by
    rw [← hbag] at ht
    exact h.settled ht hnodup (hdepths ▸ hnone)
  fresh _ := fresh_nil Γ

/-- Leaving the scopes around the methods of a subclass. -/
theorem Follows.leaveTwice {ns : List Bytes} {sites : List Site}
    (h : Follows (receiverLayer :: superclassLayer :: Γ) ns sites
      ((s.push.define (utf8 "super")).push.define (utf8 "this")) t) :
    Follows Γ [] sites s t.pop.pop := by
  have houter : Follows (superclassLayer :: Γ) [] sites (s.push.define (utf8 "super")) t.pop :=
    h.leave rfl rfl
  exact houter.leave rfl rfl

theorem push_scopes (hs : s.scopes = names Γ) (layer : Layer)
    (hempty : layer.names = Bindings.empty) : s.push.scopes = names (layer :: Γ) := by
  show Bindings.empty :: s.scopes = _
  rw [hs, names, names, List.map_cons, hempty]

theorem push_define_scopes (hs : s.scopes = names Γ) (keyword : Bytes) (region : Region)
    (ns : List Bytes) : (s.push.define keyword).scopes =
      names (⟨region, Bindings.empty.set keyword true, ns⟩ :: Γ) :=
  mark_scopes (push_scopes hs ⟨region, Bindings.empty, ns⟩ rfl) keyword true

/-! ## Statements -/

theorem Regular.receiver (h : Regular Γ) : Regular (receiverLayer :: Γ) := by
  intro layer hmem
  rcases List.mem_cons.mp hmem with rfl | hmem
  · refine ⟨fun _ => rfl, fun hsuper => ?_⟩
    rw [receiverLayer, Bindings.get?_set_ne _ (by decide)] at hsuper
    cases hsuper
  · exact h layer hmem

theorem Regular.outer (h : Regular Γ) (superclass : Option Superclass) :
    Regular (outerLayers superclass Γ) := by
  cases superclass with
  | none => exact h
  | some parent =>
      intro layer hmem
      rcases List.mem_cons.mp hmem with rfl | hmem
      · refine ⟨fun hthis => ?_, fun _ => rfl⟩
        rw [superclassLayer, Bindings.get?_set_ne _ (by decide)] at hthis
        cases hthis
      · exact h layer hmem

theorem within_class (ctx : Context) (superclass : Option Superclass) (Γ : List Layer) :
    Within (ctx.inClass superclass) (receiverLayer :: outerLayers superclass Γ) := by
  constructor
  · intro _
    exact ⟨receiverLayer, List.mem_cons_self, Bindings.get?_set_self _ _ _⟩
  · intro hclass
    cases superclass with
    | none => cases hclass
    | some parent =>
        exact ⟨0, nofun, ⟨receiverLayer, rfl, Bindings.get?_set_self _ _ _, rfl⟩,
          superclassLayer, rfl, Bindings.get?_set_self _ _ _, rfl⟩

theorem Within.inFunction (h : Within ctx Γ) : Within { ctx with inFunction := true } Γ := h

theorem Fresh.nodup {layer : Layer} {ns : List Bytes} (h : Fresh (layer :: Γ) ns) : ns.Nodup :=
  h.1

theorem plain_of_declared {stmt : Stmt} (h : ∀ site ∈ stmtSites Γ stmt, site.Proper) :
    ∀ name ∈ declared stmt, Plain name := by
  intro name hmem
  cases stmt with
  | var x init span =>
      rw [List.mem_singleton.mp hmem]
      exact h (.declare x.text) List.mem_cons_self
  | function decl =>
      rw [List.mem_singleton.mp hmem]
      exact h (.declare decl.name.text) List.mem_cons_self
  | classDecl x superclass methods span =>
      rw [List.mem_singleton.mp hmem]
      exact h (.declare x.text) List.mem_cons_self
  | _ => cases hmem

theorem plain_of_declaredAll {body : List Stmt} (h : ∀ site ∈ bodySites Γ body, site.Proper) :
    ∀ name ∈ declaredAll body, Plain name := by
  induction body generalizing Γ with
  | nil => exact nofun
  | cons stmt rest ih =>
      intro name hmem
      rcases List.mem_append.mp hmem with hmem | hmem
      · exact plain_of_declared (fun site hsite => h site (List.mem_append_left _ hsite)) name hmem
      · exact ih (fun site hsite => h site (List.mem_append_right _ hsite)) name hmem

/-- The head of a class, up to the layers around its methods. -/
theorem follows_parent (ctx : Context) (hs : s.scopes = names Γ) (name : Name) (parent : Superclass)
    (hplain : Plain parent.name.text) :
    Follows Γ [] (parentSites Γ (some parent)) s
      (visit { ctx with enclosing := .subclass } (.var parent.id parent.name)
        (if parent.name.text = name.text then s.report parent.name.range .inheritsItself
          else s)) := by
  rw [visit]
  split
  · exact Follows.report (follows_refer (s := s.report parent.name.range .inheritsItself)
      (.read Γ parent.id parent.name.text) hs parent.id _ _ rfl fun D hD => ⟨hD, hplain⟩)
  · exact follows_refer (.read Γ parent.id parent.name.text) hs parent.id _ _ rfl
      fun D hD => ⟨hD, hplain⟩

mutual

theorem follows_walk : ∀ (stmt : Stmt) {ctx : Context} {Γ : List Layer} {s : State},
    Regular Γ → Within ctx Γ → s.scopes = names Γ →
    (∀ site ∈ stmtSites Γ stmt, site.Proper) →
    Follows Γ (declared stmt) (stmtSites Γ stmt) s (walk ctx stmt s)
  | .expr value _, _, _, _, hΓ, hctx, hs, hproper => follows_visit hΓ hctx value hs hproper
  | .print value _, _, _, _, hΓ, hctx, hs, hproper => follows_visit hΓ hctx value hs hproper
  | .assert value _, _, _, _, hΓ, hctx, hs, hproper => follows_visit hΓ hctx value hs hproper
  | .assertEqual left right _, _, _, _, hΓ, hctx, hs, hproper => by
      have hleft := follows_visit hΓ hctx left hs fun site hmem =>
        hproper site (List.mem_append_left _ hmem)
      exact hleft.append (follows_visit hΓ hctx right hleft.scopes fun site hmem =>
        hproper site (List.mem_append_right _ hmem))
  | .var name init _, _, _, _, hΓ, hctx, hs, hproper => by
      have hname : Plain name.text := hproper (.declare name.text) List.mem_cons_self
      have hdeclare := declares_declare hs name
      have hinit := follows_visitOption (hΓ.mark hname false) (hctx.mark hname false) init
        hdeclare.scopes fun site hmem => hproper site (List.mem_cons_of_mem _ hmem)
      exact (hdeclare.define hinit).cons (.declare name.text) rfl fun _ => hname
  | .block body _, _, Γ, s, hΓ, hctx, hs, hproper => by
      replace hproper := fun site hmem => hproper site (List.mem_cons_of_mem _ hmem)
      have hthis : utf8 "this" ∉ declaredAll body := fun hmem =>
        (plain_of_declaredAll hproper _ hmem).1 rfl
      have hbody := follows_walkAll body (hΓ.push (blockLayer body) rfl)
        (hctx.push ⟨hthis, nofun, nofun⟩) (push_scopes hs _ rfl) hproper
      exact (hbody.leave (s := s) rfl rfl).cons (.scope (declaredAll body)) rfl fun hbag =>
        (hbody.fresh hbag).nodup
  | .cond test a none _, _, _, _, hΓ, hctx, hs, hproper => by
      have hplain : declared a = [] := hproper (.branch a) List.mem_cons_self
      replace hproper := fun site hmem => hproper site (List.mem_cons_of_mem _ hmem)
      have htest := follows_visit hΓ hctx test hs fun site hmem =>
        hproper site (List.mem_append_left _ hmem)
      have hthen := follows_walk a hΓ hctx htest.scopes fun site hmem =>
        hproper site (List.mem_append_right _ hmem)
      rw [hplain] at hthen
      exact (htest.append hthen).cons (.branch a) rfl fun _ => hplain
  | .cond test a (some b) _, _, _, _, hΓ, hctx, hs, hproper => by
      have hplaina : declared a = [] := hproper (.branch a) List.mem_cons_self
      have hplainb : declared b = [] :=
        hproper (.branch b) (List.mem_cons_of_mem _ List.mem_cons_self)
      replace hproper := fun site hmem =>
        hproper site (List.mem_cons_of_mem _ (List.mem_cons_of_mem _ hmem))
      have htest := follows_visit hΓ hctx test hs fun site hmem =>
        hproper site (List.mem_append_left _ hmem)
      have hthen := follows_walk a hΓ hctx htest.scopes fun site hmem =>
        hproper site (List.mem_append_right _ (List.mem_append_left _ hmem))
      rw [hplaina] at hthen
      have helse := follows_walk b hΓ hctx hthen.scopes fun site hmem =>
        hproper site (List.mem_append_right _ (List.mem_append_right _ hmem))
      rw [hplainb] at helse
      exact ((htest.append (hthen.append helse)).cons (.branch b) rfl fun _ => hplainb).cons
        (.branch a) rfl fun _ => hplaina
  | .loop test body _, _, _, _, hΓ, hctx, hs, hproper => by
      have hplain : declared body = [] := hproper (.branch body) List.mem_cons_self
      replace hproper := fun site hmem => hproper site (List.mem_cons_of_mem _ hmem)
      have htest := follows_visit hΓ hctx test hs fun site hmem =>
        hproper site (List.mem_append_left _ hmem)
      have hbody := follows_walk body hΓ hctx htest.scopes fun site hmem =>
        hproper site (List.mem_append_right _ hmem)
      rw [hplain] at hbody
      exact (htest.append hbody).cons (.branch body) rfl fun _ => hplain
  | .ret keyword value _, ctx, _, s, hΓ, hctx, hs, hproper => by
      rw [walk]
      split
      · exact follows_visitOption hΓ hctx value hs hproper
      · exact (follows_visitOption (s := s.report keyword .returnOutside) hΓ hctx value hs
          hproper).report
  | .function decl, _, _, _, hΓ, hctx, hs, hproper => by
      have hname : Plain decl.name.text := hproper (.declare decl.name.text) List.mem_cons_self
      have hkind : decl.kind ≠ .initializer :=
        hproper (.function decl) (List.mem_cons_of_mem _ List.mem_cons_self)
      have hbind := follows_bind hs decl.name
      have hbody := follows_walkFunction decl ((hΓ.mark hname false).mark hname true)
        ((hctx.mark hname false).mark hname true) hbind.scopes fun site hmem =>
          hproper site (List.mem_cons_of_mem _ (List.mem_cons_of_mem _ hmem))
      exact ((hbind.append hbody).cons (.function decl) rfl fun _ => hkind).cons
        (.declare decl.name.text) rfl fun _ => hname
  | .classDecl name superclass methods _, ctx, Γ, s, hΓ, hctx, hs, hproper => by
      have hname : Plain name.text := hproper (.declare name.text) List.mem_cons_self
      replace hproper := fun site hmem => hproper site (List.mem_cons_of_mem _ hmem)
      have hbind := follows_bind hs name
      have hΓ' : Regular (bind name.text Γ) := (hΓ.mark hname false).mark hname true
      have hmethods := fun {t : State} ht => follows_walkMethods (s := t) methods
        (hΓ'.outer superclass).receiver (within_class ctx superclass (bind name.text Γ)) ht
        fun site hmem => hproper site (List.mem_append_right _ hmem)
      rw [walk, enterClass.eq_def, leaveClass]
      cases superclass with
      | none =>
          have hinner := hmethods (push_define_scopes hbind.scopes (utf8 "this") .receiver _)
          exact (hbind.append (hinner.leave rfl rfl)).cons (.declare name.text) rfl
            fun _ => hname
      | some parent =>
          have hparent := follows_parent ctx hbind.scopes name parent
            (hproper _ (List.mem_append_left _ List.mem_cons_self))
          have hsuper := push_define_scopes hparent.scopes (utf8 "super") .superclass
            [utf8 "super"]
          have hinner := hmethods (push_define_scopes hsuper (utf8 "this") .receiver _)
          exact (hbind.append (hparent.append hinner.leaveTwice)).cons (.declare name.text) rfl
            fun _ => hname

theorem follows_walkAll : ∀ (body : List Stmt) {ctx : Context} {Γ : List Layer} {s : State},
    Regular Γ → Within ctx Γ → s.scopes = names Γ →
    (∀ site ∈ bodySites Γ body, site.Proper) →
    Follows Γ (declaredAll body) (bodySites Γ body) s (walkAll ctx body s)
  | [], _, _, _, _, _, hs, _ => Follows.refl hs
  | stmt :: rest, _, _, _, hΓ, hctx, hs, hproper => by
      have hproper' := fun site hmem => hproper site (List.mem_append_left _ hmem)
      have hplain := plain_of_declared hproper'
      have hfirst := follows_walk stmt hΓ hctx hs hproper'
      exact hfirst.append (follows_walkAll rest (hΓ.bindAll hplain) (hctx.bindAll hplain)
        hfirst.scopes fun site hmem => hproper site (List.mem_append_right _ hmem))

theorem follows_walkFunction : ∀ (f : Function) {ctx : Context} {Γ : List Layer} {s : State},
    Regular Γ → Within ctx Γ → s.scopes = names Γ →
    (∀ site ∈ functionSites Γ f, site.Proper) →
    Follows Γ [] (functionSites Γ f) s (walkFunction ctx f s)
  | .mk _ _ params body _, _, Γ, s, hΓ, hctx, hs, hproper => by
      replace hproper := fun site hmem => hproper site (List.mem_cons_of_mem _ hmem)
      have hplain : ∀ name ∈ paramNames params, Plain name := fun name hmem =>
        hproper (.declare name) (List.mem_append_left _ (List.mem_map_of_mem hmem))
      let layer : Layer := ⟨.function, Bindings.empty, paramNames params ++ declaredAll body⟩
      have hproper' := fun site hmem => hproper site (List.mem_append_right _ hmem)
      have hthis : utf8 "this" ∉ paramNames params ++ declaredAll body := by
        intro hmem
        rcases List.mem_append.mp hmem with hmem | hmem
        · exact (hplain _ hmem).1 rfl
        · exact (plain_of_declaredAll hproper' _ hmem).1 rfl
      have hpush : s.push.scopes = names (layer :: Γ) := push_scopes hs layer rfl
      have hparams := follows_params params hpush hplain
      have hinner : Within _ (layer :: Γ) := hctx.push ⟨hthis, nofun, nofun⟩
      have hbody := follows_walkAll body ((hΓ.push layer rfl).bindAll hplain)
        (hinner.bindAll hplain).inFunction hparams.scopes hproper'
      have hall := hparams.append hbody
      exact (hall.leave (s := s) rfl rfl).cons (.scope (paramNames params ++ declaredAll body)) rfl
        fun hbag => (hall.fresh hbag).nodup

theorem follows_walkMethods : ∀ (fs : List Function) {ctx : Context} {Γ : List Layer}
    {s : State}, Regular Γ → Within ctx Γ → s.scopes = names Γ →
    (∀ site ∈ methodSites Γ fs, site.Proper) →
    Follows Γ [] (methodSites Γ fs) s (walkMethods ctx fs s)
  | [], _, _, _, _, _, hs, _ => Follows.refl hs
  | f :: rest, _, _, _, hΓ, hctx, hs, hproper => by
      have hfirst := follows_walkFunction f hΓ hctx hs fun site hmem =>
        hproper site (List.mem_append_left _ hmem)
      exact hfirst.append (follows_walkMethods rest hΓ hctx hfirst.scopes fun site hmem =>
        hproper site (List.mem_append_right _ hmem))

end

/-! ## Modules -/

theorem depth?_empty (id : Nat) : Depths.empty.depth? id = none := rfl

/-- The pass over a whole module. -/
theorem resolve_follows {m : Module} (bag : Bag)
    (hproper : ∀ site ∈ moduleSites m, site.Proper) :
    bag.Grows (resolve m bag).2 ∧
    (∀ id, id ∉ siteIds (moduleSites m) → (resolve m bag).1.depth? id = none) ∧
    ((resolve m bag).2 = bag → (siteIds (moduleSites m)).Nodup →
      ∀ site ∈ moduleSites m, site.Settled (resolve m bag).1) := by
  have hΓ : Regular (moduleLayers m) := by
    unfold moduleLayers
    split
    · exact Regular.push (Γ := []) nofun _ rfl
    · exact nofun
  have hctx : Within Context.outermost (moduleLayers m) :=
    ⟨fun h => absurd rfl h, nofun⟩
  have hbody := follows_walkAll m.body
    (s := ⟨if m.kind.isolated then [Bindings.empty] else [], Depths.empty, bag⟩) hΓ hctx
    (by unfold moduleLayers; split <;> rfl)
    fun site hmem => hproper site (List.mem_append_right _ hmem)
  refine ⟨hbody.grows, ?_, ?_⟩
  · intro id hid
    rw [moduleSites, siteIds_append, List.mem_append, not_or] at hid
    exact (hbody.frame id hid.2).trans (depth?_empty id)
  · intro hbag hnodup site hmem
    rw [moduleSites, siteIds_append] at hnodup
    rcases List.mem_append.mp hmem with hscope | hmem
    · have hfresh := hbody.fresh hbag
      unfold moduleLayers at hfresh
      split at hscope
      next hkind =>
        rw [if_pos hkind] at hfresh
        rw [List.mem_singleton.mp hscope]
        exact hfresh.nodup
      next => cases hscope
    · exact hbody.settled hbag (List.nodup_append.mp hnodup).2.1 (fun id _ => depth?_empty id)
        site hmem

end Scope

end LoxMachine
