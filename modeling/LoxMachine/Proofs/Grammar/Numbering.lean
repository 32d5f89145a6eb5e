import LoxMachine.Proofs.Grammar
import LoxMachine.Proofs.Scope.Sites
import LoxMachine.Proofs.Token.Scanned

/-!
# Node numbers of a tree

Reading gives each node a number of its own, from the numbers it says it gives out.
The trees it makes are proper: names are identifiers, a branch declares nothing, and
only a method can be an initializer.
-/

namespace LoxMachine.Grammar

open LoxMachine.Parser LoxMachine.Scope

/-! ## Numbered sites -/

/-- The sites are proper, and their nodes have different numbers after `n` and up to
`m`. -/
structure Numbered (n : Nat) (sites : List Site) (m : Nat) : Prop where
  le : n ≤ m
  nodup : (siteIds sites).Nodup
  range : ∀ id ∈ siteIds sites, n < id ∧ id ≤ m
  proper : ∀ site ∈ sites, site.Proper

variable {n m k : Nat} {a b : List Site}

theorem Numbered.nil (n : Nat) : Numbered n [] n :=
  ⟨Nat.le_refl n, List.nodup_nil, nofun, nofun⟩

theorem Numbered.append (ha : Numbered n a m) (hb : Numbered m b k) :
    Numbered n (a ++ b) k where
  le := Nat.le_trans ha.le hb.le
  nodup := by
    rw [siteIds_append, List.nodup_append]
    refine ⟨ha.nodup, hb.nodup, ?_⟩
    rintro i hi j hj rfl
    have h₁ := ha.range i hi
    have h₂ := hb.range i hj
    omega
  range id hid := by
    rw [siteIds_append, List.mem_append] at hid
    have h₁ := ha.le
    have h₂ := hb.le
    rcases hid with hid | hid
    · have := ha.range id hid
      omega
    · have := hb.range id hid
      omega
  proper site hmem := by
    rcases List.mem_append.mp hmem with h | h
    · exact ha.proper site h
    · exact hb.proper site h

theorem Numbered.perm (ha : Numbered n a m) (h : b.Perm a) : Numbered n b m where
  le := ha.le
  nodup := (h.flatMap_right Site.ids).nodup_iff.mpr ha.nodup
  range id hid := ha.range id ((h.flatMap_right Site.ids).mem_iff.mp hid)
  proper site hmem := ha.proper site (h.mem_iff.mp hmem)

/-- The same in the other order. -/
theorem Numbered.append_swap (ha : Numbered n a m) (hb : Numbered m b k) :
    Numbered n (b ++ a) k :=
  (ha.append hb).perm List.perm_append_comm

theorem Numbered.cons (ha : Numbered n a m) (site : Site) (hids : site.ids = [])
    (hproper : site.Proper) : Numbered n (site :: a) m where
  le := ha.le
  nodup := by simpa [hids] using ha.nodup
  range id hid := ha.range id (by simpa [hids] using hid)
  proper other hmem := by
    rcases List.mem_cons.mp hmem with rfl | hmem
    · exact hproper
    · exact ha.proper other hmem

theorem Numbered.next (n : Nat) (site : Site) (hids : site.ids = [n + 1])
    (hproper : site.Proper) : Numbered n [site] (n + 1) where
  le := Nat.le_succ n
  nodup := by simp [hids]
  range id hid := by
    simp only [siteIds_cons, hids, siteIds_nil, List.append_nil, List.mem_singleton] at hid
    omega
  proper other hmem := by
    rw [List.mem_singleton.mp hmem]
    exact hproper

theorem Numbered.weaken (ha : Numbered n a m) (hk : k ≤ n) : Numbered k a m where
  le := Nat.le_trans hk ha.le
  nodup := ha.nodup
  range id hid := by
    have := ha.range id hid
    omega
  proper := ha.proper

/-! ## Sites of a phrase -/

def Phrase.sites (Γ : List Layer) : Phrase → List Site
  | .declarations body => bodySites Γ body
  | .declaration s => stmtSites Γ s
  | .variable s => stmtSites Γ s
  | .function _ _ f => functionSites Γ f
  | .methods fs => methodSites Γ fs
  | .parameters ps => (paramNames ps).map Site.declare
  | .names ps => (paramNames ps).map Site.declare
  | .statement _ s => stmtSites Γ s
  | .initializer none => []
  | .initializer (some s) => stmtSites Γ s
  | .optional e => optionSites Γ e
  | .expression e => exprSites Γ e
  | .level _ e => exprSites Γ e
  | .unary e => exprSites Γ e
  | .call e => exprSites Γ e
  | .primary e => exprSites Γ e
  | .arguments es => argSites Γ es
  | .expressions es => argSites Γ es

theorem plain_of_scanned {t : Token} (h : Token.Scanned t) (ht : t.kind = .identifier) :
    Plain t.text := by
  have hnone := h.identifier ht
  constructor
  · intro heq
    rw [heq] at hnone
    revert hnone
    decide
  · intro heq
    rw [heq] at hnone
    revert hnone
    decide

/-- A statement declares nothing in the scope it stands in. -/
theorem Reads.declared_statement {d : Bool} {s : Stmt} {ts : List Token}
    (h : Reads (.statement d s) n ts m) : declared s = [] := by
  cases h with
  | @forLoop _ _ _ _ _ init _ step =>
      cases init <;> cases step <;> rfl
  | _ => rfl

theorem Reads.kind_function {start : Range} {f : Function} {ts : List Token}
    (h : Reads (.function .function start f) n ts m) : f.kind ≠ .initializer := by
  cases h
  simp [Function.kind, declaredKind]

theorem node_sites (Γ : List Layer) (op : Operator) (l r : Expr) :
    exprSites Γ (op.node l r) = exprSites Γ l ++ exprSites Γ r := by
  cases op <;> simp [Operator.node, exprSites]

theorem getD_sites (Γ : List Layer) (test : Option Expr) (value : Literal) (span : Range) :
    exprSites Γ (test.getD (.literal value span)) = optionSites Γ test := by
  cases test <;> simp [optionSites, exprSites]

section Loops

variable {init : Option Stmt} {test step : Option Expr} {s : Stmt} {i j l : Nat}

/-- The loop of a `for` statement without its initializer: the step is read before the
body but stands behind it. -/
theorem numbered_loop (htest : ∀ Γ, Numbered i (optionSites Γ test) j)
    (hstep : ∀ Γ, Numbered j (optionSites Γ step) l)
    (hbody : ∀ Γ, Numbered l (stmtSites Γ s) m) (hplain : declared s = []) (semi span : Range)
    (Γ : List Layer) :
    Numbered i (stmtSites Γ
      (forLoop none (test.getD (.literal (.bool true) semi)) step s span)) m := by
  cases step with
  | none =>
      simp only [forLoop, stmtSites, getD_sites]
      have hall := (htest Γ).append ((hstep Γ).append (hbody Γ))
      exact hall.cons (.branch s) rfl hplain
  | some e =>
      simp only [forLoop, stmtSites, bodySites, getD_sites, List.append_nil]
      let Δ := blockLayer [s, .expr e e.span] :: Γ
      have hblock := ((hstep (bindAll (declared s) Δ)).append_swap (hbody Δ)).cons
        (.scope (declaredAll [s, .expr e e.span])) rfl trivial
      exact ((htest Γ).append hblock).cons (.branch _) rfl rfl

theorem numbered_forLoop (hinit : ∀ Γ, Numbered n ((Phrase.initializer init).sites Γ) i)
    (htest : ∀ Γ, Numbered i (optionSites Γ test) j)
    (hstep : ∀ Γ, Numbered j (optionSites Γ step) l)
    (hbody : ∀ Γ, Numbered l (stmtSites Γ s) m) (hplain : declared s = []) (semi span : Range)
    (Γ : List Layer) :
    Numbered n (stmtSites Γ
      (forLoop init (test.getD (.literal (.bool true) semi)) step s span)) m := by
  have hloop := numbered_loop htest hstep hbody hplain semi span
  cases init with
  | none => exact (hinit Γ).append (hloop Γ)
  | some first =>
      let loop := forLoop none (test.getD (.literal (.bool true) semi)) step s span
      let Δ := blockLayer [first, loop] :: Γ
      have hblock := ((hinit Δ).append (hloop (bindAll (declared first) Δ))).cons
        (.scope (declaredAll [first, loop])) rfl trivial
      have hsites : stmtSites Γ (.block [first, loop] span) = .scope (declaredAll [first, loop]) ::
          (stmtSites Δ first ++ stmtSites (bindAll (declared first) Δ) loop) := by
        simp only [stmtSites, bodySites, List.append_nil]
        rfl
      exact hsites ▸ hblock

end Loops

/-! ## All phrases -/

theorem Reads.numbered {φ : Phrase} {n m : Nat} {ts : List Token} (h : Reads φ n ts m) :
    (∀ t ∈ ts, Token.Scanned t) → ∀ Γ, Numbered n (φ.sites Γ) m := by
  induction h with
  | noDeclaration | noMethod | noParameter | absent | noArgument | noInitializer _
  | literal _ _ => exact fun _ _ => Numbered.nil _
  | newVariable _ ih | statement _ ih | parameters _ ih | initVariable _ ih | present _ ih
  | loosest _ ih | tighter _ ih | operand _ ih | unsigned _ ih | primary _ ih
  | arguments _ ih => exact ih
  | declarations _ _ ih ihs =>
      intro hts Γ
      obtain ⟨h₁, h₂⟩ := List.forall_mem_append.mp hts
      exact (ih h₁ Γ).append (ihs h₂ _)
  | plainClass _ hname _ _ _ ih =>
      intro hts Γ
      have hplain := plain_of_scanned (hts _ (by simp)) hname
      have hmethods := ih (fun t ht => hts t (by simp [ht]))
      exact (hmethods _).cons (.declare _) rfl hplain
  | @subclass n m fs ts kw name less parent left right _ hname _ hparent _ _ _ ih =>
      intro hts Γ
      have hplain := plain_of_scanned (hts name (by simp)) hname
      have hplain' := plain_of_scanned (hts parent (by simp)) hparent
      have hmethods := ih (fun t ht => hts t (by simp [ht]))
      have hall := (Numbered.next n (.read (bind name.text Γ) (n + 1) parent.text) rfl
        hplain').append (hmethods (receiverLayer :: superclassLayer :: bind name.text Γ))
      exact hall.cons (.declare name.text) rfl hplain
  | @function n m f ts kw _ h ih =>
      intro hts Γ
      have hbody := ih (fun t ht => hts t (by simp [ht]))
      have hkind := h.kind_function
      cases h with
      | body hname =>
          have hplain := plain_of_scanned (hts _ (by simp)) hname
          exact ((hbody _).cons (.function _) rfl hkind).cons (.declare _) rfl hplain
  | unset _ hname _ =>
      intro hts Γ
      have hplain := plain_of_scanned (hts _ (by simp)) hname
      exact (Numbered.nil _).cons (.declare _) rfl hplain
  | set _ hname _ _ _ ih =>
      intro hts Γ
      have hplain := plain_of_scanned (hts _ (by simp)) hname
      exact (ih (fun t ht => hts t (by simp [ht])) _).cons (.declare _) rfl hplain
  | body _ _ _ _ _ _ _ ihp ihs =>
      intro hts Γ
      have hparams := ihp (fun t ht => hts t (by simp [ht]))
      have hbody := ihs (fun t ht => hts t (by simp [ht]))
      exact ((hparams Γ).append (hbody _)).cons (.scope _) rfl trivial
  | methods _ _ _ ih ihs =>
      intro hts Γ
      obtain ⟨h₁, h₂⟩ := List.forall_mem_append.mp hts
      exact (ih h₁ Γ).append (ihs h₂ Γ)
  | lastName hname =>
      intro hts Γ
      have hplain := plain_of_scanned (hts _ (by simp)) hname
      exact (Numbered.nil _).cons (.declare _) rfl hplain
  | name hname _ _ ih =>
      intro hts Γ
      have hplain := plain_of_scanned (hts _ (by simp)) hname
      exact (ih (fun t ht => hts t (by simp [ht])) Γ).cons (.declare _) rfl hplain
  | forLoop _ _ _ _ _ _ _ hb ihi ihc ihs ihb =>
      intro hts Γ
      exact numbered_forLoop (ihi fun t ht => hts t (by simp [ht]))
        (ihc fun t ht => hts t (by simp [ht])) (ihs fun t ht => hts t (by simp [ht]))
        (ihb fun t ht => hts t (by simp [ht])) hb.declared_statement _ _ Γ
  | ifThen _ _ _ _ ha ihc iha =>
      intro hts Γ
      have hc := ihc (fun t ht => hts t (by simp [ht])) Γ
      have hthen := iha (fun t ht => hts t (by simp [ht])) Γ
      exact (hc.append hthen).cons (.branch _) rfl ha.declared_statement
  | ifElse _ _ _ _ ha _ hb ihc iha ihb =>
      intro hts Γ
      have hc := ihc (fun t ht => hts t (by simp [ht])) Γ
      have hthen := iha (fun t ht => hts t (by simp [ht])) Γ
      have helse := ihb (fun t ht => hts t (by simp [ht])) Γ
      exact ((hc.append (hthen.append helse)).cons (.branch _) rfl hb.declared_statement).cons
        (.branch _) rfl ha.declared_statement
  | whileLoop _ _ _ _ hb ihc ihb =>
      intro hts Γ
      have hc := ihc (fun t ht => hts t (by simp [ht])) Γ
      have hbody := ihb (fun t ht => hts t (by simp [ht])) Γ
      exact (hc.append hbody).cons (.branch _) rfl hb.declared_statement
  | print _ _ _ ih | assertEqual _ _ _ ih | assert _ _ _ _ ih | ret _ _ _ ih | expr _ _ ih
  | initExpr _ _ ih | group _ _ _ ih | signed _ _ ih | property _ _ _ ih =>
      intro hts Γ
      exact ih (fun t ht => hts t (by simp [ht])) Γ
  | block _ _ _ ih =>
      intro hts Γ
      exact (ih (fun t ht => hts t (by simp [ht])) _).cons (.scope _) rfl trivial
  | @assign n m e ts name equals hname _ _ ih =>
      intro hts Γ
      have hplain := plain_of_scanned (hts name (by simp)) hname
      have hvalue := ih (fun t ht => hts t (by simp [ht])) Γ
      exact (hvalue.weaken (Nat.le_succ n)).append
        (Numbered.next m (.write Γ (m + 1) name.text) rfl hplain)
  | setProperty _ _ _ _ _ iho ih =>
      intro hts Γ
      have hobject := iho (fun t ht => hts t (by simp [ht])) Γ
      exact hobject.append_swap (ih (fun t ht => hts t (by simp [ht])) Γ)
  | binary _ _ _ _ ihl ihr =>
      intro hts Γ
      have hleft := ihl (fun t ht => hts t (by simp [ht])) Γ
      have hright := ihr (fun t ht => hts t (by simp [ht])) Γ
      rw [Phrase.sites, node_sites]
      exact hleft.append hright
  | call _ _ _ _ ih iha =>
      intro hts Γ
      have hcallee := ih (fun t ht => hts t (by simp [ht])) Γ
      exact hcallee.append (iha (fun t ht => hts t (by simp [ht])) Γ)
  | this _ => exact fun _ Γ => Numbered.next _ (.this Γ _) rfl trivial
  | @super n t dot name _ _ _ =>
      intro _ Γ
      refine ⟨by omega, by simp [Phrase.sites, exprSites, Site.ids], ?_, ?_⟩
      · intro id hid
        simp only [Phrase.sites, exprSites, siteIds_cons, Site.ids, siteIds_nil,
          List.append_nil, List.mem_cons, List.not_mem_nil, or_false] at hid
        omega
      · intro site hmem
        rw [List.mem_singleton.mp hmem]
        trivial
  | @identifier n t ht =>
      intro hts Γ
      exact Numbered.next n (.read Γ (n + 1) t.text) rfl (plain_of_scanned (hts t (by simp)) ht)
  | lastExpression _ ih =>
      intro hts Γ
      have he := ih hts Γ
      simpa only [Phrase.sites, argSites, List.append_nil] using he
  | expressions _ _ _ ih ihs =>
      intro hts Γ
      have he := ih (fun t ht => hts t (by simp [ht])) Γ
      exact he.append (ihs (fun t ht => hts t (by simp [ht])) Γ)

end LoxMachine.Grammar
