import LoxMachine.Tree.Parser
import Mathlib.Tactic.Common

/-!
# Acceptance

A parser accepts if it succeeds without a complaint.  Complaints are never taken
back, so a sequence of parsers accepts exactly if each of them does; what a parser
accepts can be read off its text, step by step.
-/

namespace LoxMachine

namespace Bag

/-- `later` holds what `bag` holds and after that nothing but errors. -/
def Grows (bag later : Bag) : Prop :=
  ∃ ds : List Diagnostic, later.items.toList = bag.items.toList ++ ds ∧
    ∀ d ∈ ds, d.isError = true

theorem ext_toList {a b : Bag} (h : a.items.toList = b.items.toList) : a = b := by
  cases a
  cases b
  simpa only [mk.injEq, Array.toList_inj] using h

theorem Grows.refl (bag : Bag) : bag.Grows bag :=
  ⟨[], by simp, by simp⟩

theorem Grows.trans {a b c : Bag} (hab : a.Grows b) (hbc : b.Grows c) : a.Grows c := by
  obtain ⟨ds, hds, hed⟩ := hab
  obtain ⟨es, hes, hee⟩ := hbc
  refine ⟨ds ++ es, by rw [hes, hds, List.append_assoc], ?_⟩
  intro d hd
  rcases List.mem_append.mp hd with h | h
  · exact hed d h
  · exact hee d h

theorem Grows.size_le {b c : Bag} (h : b.Grows c) : b.items.size ≤ c.items.size := by
  obtain ⟨ds, hc, _⟩ := h
  have hlen := congrArg List.length hc
  simp only [List.length_append, Array.length_toList] at hlen
  omega

theorem Grows.eq_of_size {b c : Bag} (h : b.Grows c) (hsize : c.items.size = b.items.size) :
    c = b := by
  obtain ⟨ds, hc, _⟩ := h
  have hlen := congrArg List.length hc
  simp only [List.length_append, Array.length_toList] at hlen
  have hnil : ds = [] := List.length_eq_zero_iff.mp (by omega)
  rw [hnil, List.append_nil] at hc
  exact ext_toList hc

theorem Grows.eq_of_grows {a b : Bag} (hab : a.Grows b) (hba : b.Grows a) : a = b :=
  hba.eq_of_size (Nat.le_antisymm hab.size_le hba.size_le)

theorem size_error (bag : Bag) (range : Range) (message : Bytes) :
    (bag.error range message).items.size = bag.items.size + 1 := by
  simp [error, add]

theorem grows_error (bag : Bag) (range : Range) (message : Bytes) :
    bag.Grows (bag.error range message) :=
  ⟨[⟨.error, range, message⟩], by simp [error, add], by simp [Diagnostic.isError]⟩

theorem error_ne (bag : Bag) (range : Range) (message : Bytes) :
    bag.error range message ≠ bag := by
  intro h
  have hsize := size_error bag range message
  rw [h] at hsize
  omega

theorem isClean_iff (bag : Bag) :
    bag.isClean = true ↔ ∀ d ∈ bag.items.toList, d.isError = false := by
  simp [isClean, firstError?]

theorem isClean_error (bag : Bag) (range : Range) (message : Bytes) :
    (bag.error range message).isClean = false := by
  rw [Bool.eq_false_iff]
  intro hclean
  have hitems := (isClean_iff _).mp hclean ⟨.error, range, message⟩ (by simp [error, add])
  cases hitems

/-- A clean bag has grown from an equal one. -/
theorem Grows.eq_of_isClean {a b : Bag} (h : a.Grows b) (hb : b.isClean = true) : b = a := by
  obtain ⟨ds, hds, herr⟩ := h
  have hnil : ds = [] := by
    apply List.eq_nil_iff_forall_not_mem.mpr
    intro d hd
    have hclean := (isClean_iff b).mp hb d (by rw [hds]; exact List.mem_append_right _ hd)
    simp [herr d hd] at hclean
  rw [hnil, List.append_nil] at hds
  exact ext_toList hds

end Bag

namespace Parser

variable {α β : Type}

/-! ## Orderly parsers -/

/-- The end marker stays the same, and node numbers and complaints are only added. -/
structure Later (c next : Cursor) : Prop where
  eof : next.eof = c.eof
  lastId : c.lastId ≤ next.lastId
  grows : c.bag.Grows next.bag

theorem Later.refl (c : Cursor) : Later c c :=
  ⟨rfl, Nat.le_refl _, Bag.Grows.refl c.bag⟩

theorem Later.trans {a b c : Cursor} (hab : Later a b) (hbc : Later b c) : Later a c :=
  ⟨hbc.eof.trans hab.eof, Nat.le_trans hab.lastId hbc.lastId, hab.grows.trans hbc.grows⟩

/-- The parser only moves on, and giving up is never silent. -/
def Orderly (p : Parser α) : Prop :=
  ∀ c, match p c with
    | .ok _ next => Later c next
    | .stuck next => Later c next ∧ next.bag ≠ c.bag
    | .exhausted => True

theorem bind_apply (p : Parser α) (f : α → Parser β) (c : Cursor) :
    (p >>= f) c =
      match p c with
      | .ok a next => f a next
      | .stuck next => .stuck next
      | .exhausted => .exhausted := rfl

theorem pure_apply (a : α) (c : Cursor) : (pure a : Parser α) c = .ok a c := rfl

theorem orderly_pure (a : α) : Orderly (pure a : Parser α) :=
  fun c => Later.refl c

theorem Orderly.bind {p : Parser α} {f : α → Parser β} (hp : Orderly p)
    (hf : ∀ a, Orderly (f a)) : Orderly (p >>= f) := by
  intro c
  have hc := hp c
  rw [bind_apply]
  cases h : p c with
  | exhausted => trivial
  | stuck next =>
      rw [h] at hc
      exact hc
  | ok a next =>
      rw [h] at hc
      have hn := hf a next
      dsimp only
      cases h' : f a next with
      | exhausted => trivial
      | ok b last =>
          rw [h'] at hn
          exact hc.trans hn
      | stuck last =>
          rw [h'] at hn
          refine ⟨hc.trans hn.1, ?_⟩
          intro heq
          exact hn.2 (Bag.Grows.eq_of_grows (heq ▸ hc.grows) hn.1.grows)

theorem orderly_peek : Orderly peek :=
  fun c => Later.refl c

theorem orderly_skip : Orderly skip := by
  intro c
  unfold skip
  cases c.rest with
  | nil => exact Later.refl c
  | cons t rest =>
      by_cases ht : t.kind = .eof
      · simpa [ht] using Later.refl c
      · simpa [ht] using ⟨rfl, Nat.le_refl _, Bag.Grows.refl c.bag⟩

theorem orderly_nextId : Orderly nextId :=
  fun c => ⟨rfl, Nat.le_succ _, Bag.Grows.refl c.bag⟩

theorem orderly_complain (range : Range) (complaint : Complaint) :
    Orderly (complain range complaint) :=
  fun c => ⟨rfl, Nat.le_refl _, Bag.grows_error c.bag range complaint.message⟩

theorem orderly_exhaust : Orderly (exhaust : Parser α) :=
  fun _ => trivial

/-- Giving up right after a complaint is not silent. -/
theorem orderly_refuse (range : Range) (complaint : Complaint) :
    Orderly (do complain range complaint; giveUp : Parser α) :=
  fun c => ⟨⟨rfl, Nat.le_refl _, Bag.grows_error c.bag range complaint.message⟩,
    Bag.error_ne c.bag range complaint.message⟩

theorem orderly_accept? (kind : Kind) : Orderly (accept? kind) := by
  refine orderly_peek.bind fun token => ?_
  split
  · exact orderly_skip.bind fun _ => orderly_pure _
  · exact orderly_pure _

theorem orderly_isAt (kind : Kind) : Orderly (isAt kind) :=
  orderly_peek.bind fun _ => orderly_pure _

theorem orderly_expect (kind : Kind) (wanted : Bytes) : Orderly (expect kind wanted) := by
  refine orderly_peek.bind fun token => ?_
  split
  · exact orderly_skip.bind fun _ => orderly_pure _
  · exact orderly_refuse _ _

theorem orderly_expectName (wanted : Bytes) : Orderly (expectName wanted) :=
  (orderly_expect _ _).bind fun _ => orderly_pure _

theorem synchronize_bag (c : Cursor) : (synchronize c).bag = c.bag := by
  unfold synchronize
  cases c.rest with
  | nil => rfl
  | cons t rest => by_cases ht : t.kind = .eof <;> simp [ht]

theorem later_synchronize (c : Cursor) : Later c (synchronize c) := by
  unfold synchronize
  cases c.rest with
  | nil => exact Later.refl c
  | cons t rest =>
      by_cases ht : t.kind = .eof
      · simpa [ht] using Later.refl c
      · simpa [ht] using ⟨rfl, Nat.le_refl _, Bag.Grows.refl c.bag⟩

theorem Orderly.recovering {p : Parser α} (hp : Orderly p) : Orderly (recovering p) := by
  intro c
  have hc := hp c
  unfold Parser.recovering
  cases h : p c with
  | exhausted => trivial
  | ok a next =>
      rw [h] at hc
      exact hc
  | stuck next =>
      rw [h] at hc
      exact hc.1.trans (later_synchronize next)

/-! ## Acceptance -/

/-- Run on the tokens `ts`, with `n` the last node number given out, `p` yields `a`
without a complaint and leaves `us` and `m`. -/
def Accepts (eof : Token) (bag : Bag) (p : Parser α) (n : Nat) (ts : List Token) (a : α)
    (m : Nat) (us : List Token) : Prop :=
  p ⟨ts, eof, n, bag⟩ = .ok a ⟨us, eof, m, bag⟩

variable {eof : Token} {bag : Bag} {n m : Nat} {ts us : List Token}

theorem accepts_bind {p : Parser α} {f : α → Parser β} (hp : Orderly p)
    (hf : ∀ a, Orderly (f a)) {b : β} :
    Accepts eof bag (p >>= f) n ts b m us ↔
      ∃ a k vs, Accepts eof bag p n ts a k vs ∧ Accepts eof bag (f a) k vs b m us := by
  constructor
  · intro h
    unfold Accepts at h
    rw [bind_apply] at h
    have hc := hp ⟨ts, eof, n, bag⟩
    cases hpc : p ⟨ts, eof, n, bag⟩ with
    | exhausted => simp [hpc] at h
    | stuck next => simp [hpc] at h
    | ok a next =>
        simp only [hpc] at h hc
        have hn := hf a next
        rw [h] at hn
        -- the complaints after the first parser lie between two equal bags
        have hbag : bag = next.bag := Bag.Grows.eq_of_grows hc.grows hn.grows
        obtain ⟨rest, eof', k, bag'⟩ := next
        obtain rfl : eof' = eof := hc.eof
        obtain rfl : bag = bag' := hbag
        exact ⟨a, k, rest, hpc, h⟩
  · rintro ⟨a, k, vs, hpa, hfa⟩
    unfold Accepts at hpa ⊢
    rw [bind_apply, hpa]
    exact hfa

/-- A parser whose outcome is known accepts nothing else. -/
theorem accepts_iff_of_run {p : Parser α} {b : α} {k : Nat} {vs : List Token}
    (h : p ⟨ts, eof, n, bag⟩ = .ok b ⟨vs, eof, k, bag⟩) {a : α} :
    Accepts eof bag p n ts a m us ↔ a = b ∧ m = k ∧ us = vs := by
  unfold Accepts
  rw [h]
  constructor
  · intro heq
    cases heq
    exact ⟨rfl, rfl, rfl⟩
  · rintro ⟨rfl, rfl, rfl⟩
    rfl

@[simp] theorem accepts_pure {a b : α} :
    Accepts eof bag (pure a) n ts b m us ↔ b = a ∧ m = n ∧ us = ts :=
  accepts_iff_of_run rfl

@[simp] theorem accepts_peek {t : Token} :
    Accepts eof bag peek n ts t m us ↔ t = ts.headD eof ∧ m = n ∧ us = ts :=
  accepts_iff_of_run rfl

theorem accepts_skip {t : Token} (ht : t.kind ≠ .eof) {u : Unit} :
    Accepts eof bag skip n (t :: ts) u m us ↔ m = n ∧ us = ts := by
  have hrun : skip ⟨t :: ts, eof, n, bag⟩ = .ok () ⟨ts, eof, n, bag⟩ := by
    simp only [skip, if_neg ht]
  rw [accepts_iff_of_run hrun]
  simp

@[simp] theorem accepts_nextId {k : Nat} :
    Accepts eof bag nextId n ts k m us ↔ k = n + 1 ∧ m = n + 1 ∧ us = ts :=
  accepts_iff_of_run rfl

@[simp] theorem not_accepts_complain {range : Range} {complaint : Complaint} {u : Unit} :
    ¬ Accepts eof bag (complain range complaint) n ts u m us := by
  simp only [Accepts, complain, Parsed.ok.injEq, Cursor.mk.injEq]
  rintro ⟨-, -, -, -, hbag⟩
  exact Bag.error_ne _ _ _ hbag

@[simp] theorem not_accepts_refuse {range : Range} {complaint : Complaint} {a : α} :
    ¬ Accepts eof bag (do complain range complaint; giveUp) n ts a m us := by
  simp [Accepts, bind_apply, complain, giveUp]

@[simp] theorem not_accepts_exhaust {a : α} :
    ¬ Accepts eof bag exhaust n ts a m us := by
  simp [Accepts, exhaust]

theorem accepts_accept? (heof : eof.kind = .eof) {kind : Kind} (hk : kind ≠ .eof)
    {a : Option Token} :
    Accepts eof bag (accept? kind) n ts a m us ↔
      m = n ∧ ((∃ t, a = some t ∧ t.kind = kind ∧ ts = t :: us) ∨
        (a = none ∧ (ts.headD eof).kind ≠ kind ∧ us = ts)) := by
  unfold accept?
  rw [accepts_bind orderly_peek fun token => by
    split
    · exact orderly_skip.bind fun _ => orderly_pure _
    · exact orderly_pure _]
  simp only [accepts_peek]
  constructor
  · rintro ⟨t, k, vs, ⟨rfl, rfl, rfl⟩, h⟩
    split at h
    next ht =>
      cases vs with
      | nil => exact absurd (heof.symm.trans ht) (Ne.symm hk)
      | cons t rest =>
          have hte : t.kind ≠ .eof := fun h' => hk (ht.symm.trans h')
          rw [accepts_bind orderly_skip fun _ => orderly_pure _] at h
          simp only [accepts_skip hte, accepts_pure] at h
          obtain ⟨_, _, _, ⟨rfl, rfl⟩, rfl, rfl, rfl⟩ := h
          exact ⟨rfl, Or.inl ⟨t, rfl, ht, rfl⟩⟩
    next ht =>
      obtain ⟨rfl, rfl, rfl⟩ := accepts_pure.mp h
      exact ⟨rfl, Or.inr ⟨rfl, ht, rfl⟩⟩
  · rintro ⟨rfl, ⟨t, rfl, ht, rfl⟩ | ⟨rfl, ht, rfl⟩⟩
    · have hte : t.kind ≠ .eof := fun h' => hk (ht.symm.trans h')
      refine ⟨t, m, t :: us, ⟨rfl, rfl, rfl⟩, ?_⟩
      rw [if_pos ht, accepts_bind orderly_skip fun _ => orderly_pure _]
      exact ⟨(), m, us, (accepts_skip hte).mpr ⟨rfl, rfl⟩, accepts_pure.mpr ⟨rfl, rfl, rfl⟩⟩
    · refine ⟨us.headD eof, m, us, ⟨rfl, rfl, rfl⟩, ?_⟩
      rw [if_neg ht]
      exact accepts_pure.mpr ⟨rfl, rfl, rfl⟩

theorem accepts_isAt {kind : Kind} {b : Bool} :
    Accepts eof bag (isAt kind) n ts b m us ↔
      b = decide ((ts.headD eof).kind = kind) ∧ m = n ∧ us = ts := by
  unfold isAt
  rw [accepts_bind orderly_peek fun _ => orderly_pure _]
  simp only [accepts_peek, accepts_pure]
  constructor
  · rintro ⟨t, k, vs, ⟨rfl, rfl, rfl⟩, rfl, rfl, rfl⟩
    exact ⟨rfl, rfl, rfl⟩
  · rintro ⟨rfl, rfl, rfl⟩
    exact ⟨_, _, _, ⟨rfl, rfl, rfl⟩, rfl, rfl, rfl⟩

theorem accepts_expect (heof : eof.kind = .eof) {kind : Kind} (hk : kind ≠ .eof)
    {wanted : Bytes} {t : Token} :
    Accepts eof bag (expect kind wanted) n ts t m us ↔
      m = n ∧ t.kind = kind ∧ ts = t :: us := by
  unfold expect
  rw [accepts_bind orderly_peek fun token => by
    split
    · exact orderly_skip.bind fun _ => orderly_pure _
    · exact orderly_refuse _ _]
  simp only [accepts_peek]
  constructor
  · rintro ⟨t', k, vs, ⟨rfl, rfl, rfl⟩, h⟩
    split at h
    next ht =>
      cases vs with
      | nil => exact absurd (heof.symm.trans ht) (Ne.symm hk)
      | cons t' rest =>
          have hte : t'.kind ≠ .eof := fun h' => hk (ht.symm.trans h')
          rw [accepts_bind orderly_skip fun _ => orderly_pure _] at h
          simp only [accepts_skip hte, accepts_pure] at h
          obtain ⟨_, _, _, ⟨rfl, rfl⟩, rfl, rfl, rfl⟩ := h
          exact ⟨rfl, ht, rfl⟩
    next => exact absurd h not_accepts_refuse
  · rintro ⟨rfl, ht, rfl⟩
    have hte : t.kind ≠ .eof := fun h' => hk (ht.symm.trans h')
    refine ⟨t, m, t :: us, ⟨rfl, rfl, rfl⟩, ?_⟩
    rw [if_pos ht, accepts_bind orderly_skip fun _ => orderly_pure _]
    exact ⟨(), m, us, (accepts_skip hte).mpr ⟨rfl, rfl⟩, accepts_pure.mpr ⟨rfl, rfl, rfl⟩⟩

theorem accepts_expectName (heof : eof.kind = .eof) {wanted : Bytes} {name : Name} :
    Accepts eof bag (expectName wanted) n ts name m us ↔
      m = n ∧ ∃ t : Token, t.kind = .identifier ∧ name = ⟨t.text, t.range⟩ ∧ ts = t :: us := by
  unfold expectName
  rw [accepts_bind (orderly_expect _ _) fun _ => orderly_pure _]
  have hk : Kind.identifier ≠ .eof := by decide
  simp only [accepts_expect heof hk, accepts_pure]
  constructor
  · rintro ⟨t, k, vs, ⟨rfl, ht, rfl⟩, rfl, rfl, rfl⟩
    exact ⟨rfl, t, ht, rfl, rfl⟩
  · rintro ⟨rfl, t, ht, rfl, rfl⟩
    exact ⟨t, _, _, ⟨rfl, ht, rfl⟩, rfl, rfl, rfl⟩

/-- Recovery plays no part in acceptance. -/
theorem accepts_recovering {p : Parser α} (hp : Orderly p) {a : Option α} :
    Accepts eof bag (recovering p) n ts a m us ↔
      ∃ b, a = some b ∧ Accepts eof bag p n ts b m us := by
  have hc := hp ⟨ts, eof, n, bag⟩
  unfold Accepts recovering
  cases h : p ⟨ts, eof, n, bag⟩ with
  | exhausted => simp
  | ok b next =>
      simp only [Parsed.ok.injEq]
      constructor
      · rintro ⟨rfl, rfl⟩
        exact ⟨b, rfl, rfl, rfl⟩
      · rintro ⟨b', rfl, rfl, rfl⟩
        exact ⟨rfl, rfl⟩
  | stuck next =>
      simp only [h] at hc
      constructor
      · intro heq
        simp only [Parsed.ok.injEq] at heq
        have hbag : next.bag = bag := by
          rw [← synchronize_bag next, heq.2]
        exact absurd hbag hc.2
      · rintro ⟨b, _, hb⟩
        cases hb

/-! ## Steps that need no outcome -/

theorem accepts_peek_bind {f : Token → Parser β} {b : β} :
    Accepts eof bag (peek >>= f) n ts b m us ↔
      Accepts eof bag (f (ts.headD eof)) n ts b m us := Iff.rfl

theorem accepts_isAt_bind {kind : Kind} {f : Bool → Parser β} {b : β} :
    Accepts eof bag (isAt kind >>= f) n ts b m us ↔
      Accepts eof bag (f (decide ((ts.headD eof).kind = kind))) n ts b m us := Iff.rfl

theorem accepts_pure_bind {a : α} {f : α → Parser β} {b : β} :
    Accepts eof bag (pure a >>= f) n ts b m us ↔ Accepts eof bag (f a) n ts b m us := Iff.rfl

theorem accepts_skip_bind {t : Token} (ht : t.kind ≠ .eof) {f : Unit → Parser β} {b : β} :
    Accepts eof bag (skip >>= f) n (t :: ts) b m us ↔
      Accepts eof bag (f ()) n ts b m us := by
  simp only [Accepts, bind_apply, skip, if_neg ht]

/-! ## Parsers with a known relation -/

/-- `p` is orderly and accepts just what `R` relates. -/
structure Exact (eof : Token) (bag : Bag) (p : Parser α)
    (R : Nat → List Token → α → Nat → List Token → Prop) : Prop where
  orderly : Orderly p
  accepts_iff : ∀ {n ts a m us}, Accepts eof bag p n ts a m us ↔ R n ts a m us

theorem Orderly.exact {p : Parser α} (h : Orderly p) :
    Exact eof bag p (Accepts eof bag p) :=
  ⟨h, Iff.rfl⟩

/-- The relation of a sequence is the composition of the relations. -/
theorem Exact.bind {p : Parser α} {f : α → Parser β}
    {R : Nat → List Token → α → Nat → List Token → Prop}
    {S : α → Nat → List Token → β → Nat → List Token → Prop}
    (hp : Exact eof bag p R) (hf : ∀ a, Exact eof bag (f a) (S a)) :
    Exact eof bag (p >>= f)
      fun n ts b m us => ∃ a k vs, R n ts a k vs ∧ S a k vs b m us := by
  refine ⟨hp.orderly.bind fun a => (hf a).orderly, ?_⟩
  intro n ts b m us
  rw [accepts_bind hp.orderly fun a => (hf a).orderly]
  simp only [hp.accepts_iff, (hf _).accepts_iff]

theorem exact_pure (a : α) :
    Exact eof bag (pure a) fun n ts b m us => b = a ∧ m = n ∧ us = ts :=
  ⟨orderly_pure a, accepts_pure⟩

theorem exact_peek :
    Exact eof bag peek fun n ts t m us => t = ts.headD eof ∧ m = n ∧ us = ts :=
  ⟨orderly_peek, accepts_peek⟩

theorem exact_nextId :
    Exact eof bag nextId fun n ts k m us => k = n + 1 ∧ m = n + 1 ∧ us = ts :=
  ⟨orderly_nextId, accepts_nextId⟩

theorem exact_accept? (heof : eof.kind = .eof) (kind : Kind) (hk : kind ≠ .eof) :
    Exact eof bag (accept? kind) fun n ts a m us =>
      m = n ∧ ((∃ t, a = some t ∧ t.kind = kind ∧ ts = t :: us) ∨
        (a = none ∧ (ts.headD eof).kind ≠ kind ∧ us = ts)) :=
  ⟨orderly_accept? kind, accepts_accept? heof hk⟩

theorem exact_expect (heof : eof.kind = .eof) (kind : Kind) (wanted : Bytes)
    (hk : kind ≠ .eof) :
    Exact eof bag (expect kind wanted) fun n ts t m us =>
      m = n ∧ t.kind = kind ∧ ts = t :: us :=
  ⟨orderly_expect kind wanted, accepts_expect heof hk⟩

theorem exact_expectName (heof : eof.kind = .eof) (wanted : Bytes) :
    Exact eof bag (expectName wanted) fun n ts name m us =>
      m = n ∧ ∃ t : Token, t.kind = .identifier ∧ name = ⟨t.text, t.range⟩ ∧ ts = t :: us :=
  ⟨orderly_expectName wanted, accepts_expectName heof⟩

end Parser

end LoxMachine
