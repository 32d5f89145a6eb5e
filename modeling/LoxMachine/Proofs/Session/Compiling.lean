import LoxMachine.Proofs.Grammar.Modules
import LoxMachine.Proofs.Grammar.Numbering
import LoxMachine.Proofs.Scope.Resolution
import LoxMachine.Session

/-!
# Compiled texts

A text that compiles gives a module whose nodes have new numbers and whose sites are
all settled by the depths that come with it.
-/

namespace LoxMachine

open Scope

namespace Depths

theorem table_foldl_insert (entries : List (Nat × Resolved))
    (hdistinct : entries.Pairwise fun a b => a.1 ≠ b.1) (table : Std.TreeMap Nat Resolved)
    (id : Nat) :
    (entries.foldl (fun table entry => table.insert entry.1 entry.2) table)[id]? =
      ((entries.find? fun entry => entry.1 == id).map Prod.snd).or table[id]? := by
  induction entries generalizing table with
  | nil => rfl
  | cons entry entries ih =>
      rw [List.pairwise_cons] at hdistinct
      rw [List.foldl_cons, ih hdistinct.2, Std.TreeMap.getElem?_insert]
      simp only [Nat.compare_eq_eq]
      by_cases hid : entry.1 = id
      · have hnone : entries.find? (fun other => other.1 == id) = none := by
          rw [List.find?_eq_none]
          intro other hmem heq
          exact hdistinct.1 other hmem (hid.trans (beq_iff_eq.mp heq).symm)
        simp [hid, hnone]
      · simp [hid]

/-- Where both tables have an entry, the second one counts. -/
theorem depth?_merge (D E : Depths) (id : Nat) :
    (D.merge E).depth? id = (E.depth? id).or (D.depth? id) := by
  have hdistinct : E.table.toList.Pairwise fun a b => a.1 ≠ b.1 :=
    Std.TreeMap.distinct_keys_toList.imp fun h heq => h (Nat.compare_eq_eq.mpr heq)
  have hfind : (E.table.toList.find? fun entry => entry.1 == id).map Prod.snd = E.table[id]? := by
    cases hid : E.table[id]? with
    | none =>
        rw [Option.map_eq_none_iff, List.find?_eq_none]
        intro entry hmem heq
        have hentry := Std.TreeMap.mem_toList_iff_getElem?_eq_some.mp hmem
        rw [beq_iff_eq.mp heq, hid] at hentry
        cases hentry
    | some entry =>
        have hmem := Std.TreeMap.mem_toList_iff_getElem?_eq_some.mpr hid
        cases hfound : E.table.toList.find? fun entry => entry.1 == id with
        | none =>
            have hnone := List.find?_eq_none.mp hfound _ hmem
            exact absurd (beq_self_eq_true id) hnone
        | some found =>
            have hkey := List.find?_some hfound
            have hvalue := Std.TreeMap.mem_toList_iff_getElem?_eq_some.mp
              (List.mem_of_find?_eq_some hfound)
            rw [beq_iff_eq.mp hkey, hid] at hvalue
            exact congrArg some (Option.some.inj hvalue).symm
  unfold merge depth?
  rw [Std.TreeMap.foldl_eq_foldl_toList, table_foldl_insert _ hdistinct, hfind]
  cases E.table[id]? <;> rfl

end Depths

namespace Session

/-! ## What compiling leaves alone -/

/-- Nothing has happened but that something was written and node numbers were given
out. -/
structure Quiet (s t : Session) : Prop where
  options : t.options = s.options
  logging : t.logging = s.logging
  lastId : s.lastId ≤ t.lastId
  depths : t.depths = s.depths
  store : t.store = s.store

variable {s t u : Session}

theorem Quiet.refl (s : Session) : s.Quiet s :=
  ⟨rfl, rfl, Nat.le_refl _, rfl, rfl⟩

theorem Quiet.trans (h : s.Quiet t) (h' : t.Quiet u) : s.Quiet u where
  options := h'.options.trans h.options
  logging := h'.logging.trans h.logging
  lastId := Nat.le_trans h.lastId h'.lastId
  depths := h'.depths.trans h.depths
  store := h'.store.trans h.store

theorem quiet_write (s : Session) (line : Bytes) : s.Quiet (s.write line) :=
  ⟨rfl, rfl, Nat.le_refl _, rfl, rfl⟩

theorem quiet_writeIf (s : Session) (wanted : Bool) (line : Unit → Bytes) :
    s.Quiet (s.writeIf wanted line) := by
  unfold writeIf
  split
  · exact quiet_write s _
  · exact Quiet.refl s

theorem quiet_log (s : Session) (message : Bytes) (attributes : List (Bytes × Bytes)) :
    s.Quiet (s.log message attributes) := by
  unfold log
  split
  · exact ⟨rfl, rfl, Nat.le_refl _, rfl, rfl⟩
  · exact Quiet.refl s

theorem lastId_writeIf (s : Session) (wanted : Bool) (line : Unit → Bytes) :
    (s.writeIf wanted line).lastId = s.lastId := by
  unfold writeIf
  split <;> rfl

theorem lastId_log (s : Session) (message : Bytes) (attributes : List (Bytes × Bytes)) :
    (s.log message attributes).lastId = s.lastId := by
  unfold log
  split <;> rfl

/-! ## What compiling gives -/

/-- A compiled text, between the node numbers `n` and `m`. -/
structure Resolves (n : Nat) (c : Compiled) (m : Nat) : Prop where
  resolved : ∃ bag, c.depths = (resolve c.module bag).1 ∧
    (resolve c.module bag).2.isClean = true
  numbered : Grammar.Numbered n (moduleSites c.module) m
  settled : ∀ site ∈ moduleSites c.module, site.Settled c.depths
  others : ∀ id, id ∉ siteIds (moduleSites c.module) → c.depths.depth? id = none

/-- A compiled text has depths for its own numbers only. -/
theorem Resolves.depth?_of_le {n k id : Nat} {c : Compiled} (h : Resolves n c k) (hid : id ≤ n) :
    c.depths.depth? id = none :=
  h.others id fun hmem => absurd (h.numbered.range id hmem).1 (Nat.not_lt_of_le hid)

theorem numbered_moduleSites {src : Source} {kind : ModuleKind} {n k : Nat} {m : Module}
    (h : Grammar.ReadsModule kind n (Token.scan src).1 m k) :
    Grammar.Numbered n (moduleSites m) k := by
  obtain ⟨ts, eof, htokens, _, hts⟩ := Token.scan_tokens src
  obtain ⟨us, eof', hsplit, _, hreads, _⟩ := h
  have hus : ∀ t ∈ us, Token.Scanned t := by
    intro t ht
    obtain ⟨rfl, _⟩ := List.append_inj' (hsplit.symm.trans htokens) rfl
    exact hts t ht
  have hbody : Grammar.Numbered n (bodySites (moduleLayers m) m.body) k :=
    hreads.numbered hus (moduleLayers m)
  unfold moduleSites
  split
  · exact hbody.cons (.scope (declaredAll m.body)) rfl trivial
  · exact hbody

theorem resolves_of_parse {src : Source} {kind : ModuleKind} {bag : Bag} {n : Nat}
    {parsed : Module.Outcome}
    (hparse : Module.parse (Token.scan src).1 kind n bag = .ok parsed)
    (hclean : parsed.bag.isClean = true)
    (hresolved : (resolve parsed.module parsed.bag).2.isClean = true) :
    Resolves n ⟨parsed.module, (resolve parsed.module parsed.bag).1⟩ parsed.lastId := by
  obtain ⟨ts, eof, htokens, heof, hts⟩ := Token.scan_tokens src
  have hbag := (Grammar.parse_grows hparse).1.eq_of_isClean hclean
  have hnumbered : Grammar.Numbered n (moduleSites parsed.module) parsed.lastId := by
    have hreads : Grammar.ReadsModule kind n (Token.scan src).1 parsed.module
        parsed.lastId := by
      rw [htokens] at hparse ⊢
      exact Grammar.readsModule_of_parse heof (fun t ht => (hts t ht).ne_eof) hparse hbag
    exact numbered_moduleSites hreads
  obtain ⟨hgrows, hothers, hsettled⟩ := resolve_follows parsed.bag hnumbered.proper
  exact ⟨⟨parsed.bag, rfl, hresolved⟩, hnumbered,
    hsettled (hgrows.eq_of_isClean hresolved) hnumbered.nodup, hothers⟩

/-- Compiling is quiet; it gives a module with settled sites, or diagnostics. -/
theorem compile_spec (s : Session) (src : Source) (kind : ModuleKind) :
    s.Quiet (s.compile src kind).2 ∧
      match (s.compile src kind).1 with
      | .ok c => Resolves s.lastId c (s.compile src kind).2.lastId
      | .error failure => ∃ bag, failure = .compile bag := by
  unfold compile
  simp only
  have hfirst := quiet_writeIf s s.options.printTokens fun _ => Token.dump (Token.scan src).1
  have hlast := lastId_writeIf s s.options.printTokens fun _ => Token.dump (Token.scan src).1
  generalize s.writeIf s.options.printTokens (fun _ => Token.dump (Token.scan src).1) = s₁
    at hfirst hlast ⊢
  split
  next => exact ⟨hfirst, _, rfl⟩
  next =>
    obtain ⟨parsed, hparse⟩ : ∃ parsed, Module.parse (Token.scan src).1 kind s₁.lastId
        (Token.scan src).2 = .ok parsed := by
      obtain ⟨ts, eof, htokens, heof, _⟩ := Token.scan_tokens src
      rw [htokens]
      obtain ⟨m, c, _, hparse⟩ := Grammar.parse_eq_ok ts heof kind s₁.lastId (Token.scan src).2
      exact ⟨_, hparse⟩
    rw [hparse]
    simp only
    have hparsed : s.Quiet { s₁ with lastId := parsed.lastId } :=
      { hfirst with lastId := Nat.le_trans hfirst.lastId (Grammar.parse_grows hparse).2 }
    have hsecond := hparsed.trans (quiet_writeIf _
      (s₁.options.printTree && !parsed.module.body.isEmpty) fun _ => parsed.module.dump)
    have hlast₂ := lastId_writeIf { s₁ with lastId := parsed.lastId }
      (s₁.options.printTree && !parsed.module.body.isEmpty) fun _ => parsed.module.dump
    generalize ({ s₁ with lastId := parsed.lastId } : Session).writeIf
      (s₁.options.printTree && !parsed.module.body.isEmpty) (fun _ => parsed.module.dump) = s₂
      at hsecond hlast₂ ⊢
    split
    next => exact ⟨hsecond, _, rfl⟩
    next hclean =>
      have hthird := hsecond.trans (quiet_writeIf s₂
        (s₂.options.printLocals && (resolve parsed.module parsed.bag).1.size != 0)
        fun _ => (resolve parsed.module parsed.bag).1.text)
      split
      next => exact ⟨hthird, _, rfl⟩
      next hresolved =>
        refine ⟨hthird.trans (quiet_log _ _ _), ?_⟩
        simp only [lastId_log, lastId_writeIf]
        rw [hlast₂, ← hlast]
        exact resolves_of_parse hparse (Bool.not_eq_false _ ▸ hclean)
          (Bool.not_eq_false _ ▸ hresolved)

/-- A text that compiles is scanned, parsed and resolved without a complaint. -/
theorem parse_of_compile {s t : Session} {src : Source} {kind : ModuleKind} {c : Compiled}
    (h : s.compile src kind = (.ok c, t)) :
    (Token.scan src).2.isClean = true ∧
      Module.parse (Token.scan src).1 kind s.lastId (Token.scan src).2 =
        .ok ⟨c.module, t.lastId, (Token.scan src).2⟩ ∧
      c.depths = (resolve c.module (Token.scan src).2).1 ∧
      (resolve c.module (Token.scan src).2).2.isClean = true := by
  have hlast := lastId_writeIf s s.options.printTokens fun _ => Token.dump (Token.scan src).1
  unfold compile at h
  dsimp only at h
  generalize s.writeIf s.options.printTokens (fun _ => Token.dump (Token.scan src).1) = s₁
    at h hlast
  split at h
  next => cases h
  next hscanned =>
    split at h
    next => cases h
    next parsed hparse =>
      split at h
      next => cases h
      next hclean =>
        split at h
        next => cases h
        next hresolved =>
          cases h
          have hbag := (Grammar.parse_grows hparse).1.eq_of_isClean (Bool.not_eq_false _ ▸ hclean)
          obtain ⟨m, last, bag⟩ := parsed
          obtain rfl : bag = _ := hbag
          rw [lastId_log, lastId_writeIf, lastId_writeIf, ← hlast]
          exact ⟨Bool.not_eq_false _ ▸ hscanned, hparse, rfl, Bool.not_eq_false _ ▸ hresolved⟩

/-- A text that is scanned, parsed and resolved without a complaint compiles. -/
theorem compile_of_parse (s : Session) {src : Source} {kind : ModuleKind} {m : Module} {k : Nat}
    (hscanned : (Token.scan src).2.isClean = true)
    (hparse : Module.parse (Token.scan src).1 kind s.lastId (Token.scan src).2 =
      .ok ⟨m, k, (Token.scan src).2⟩)
    (hresolved : (resolve m (Token.scan src).2).2.isClean = true) :
    ∃ t, s.compile src kind = (.ok ⟨m, (resolve m (Token.scan src).2).1⟩, t) ∧ t.lastId = k := by
  have hlast := lastId_writeIf s s.options.printTokens fun _ => Token.dump (Token.scan src).1
  unfold compile
  dsimp only
  generalize s.writeIf s.options.printTokens (fun _ => Token.dump (Token.scan src).1) = s₁
    at hlast ⊢
  rw [← hlast] at hparse
  rw [hparse, if_neg (by rw [hscanned]; nofun)]
  dsimp only
  rw [if_neg (by rw [hscanned]; nofun), if_neg (by rw [hresolved]; nofun)]
  exact ⟨_, rfl, by rw [lastId_log, lastId_writeIf, lastId_writeIf]⟩

/-- A text that compiles is read as its module. -/
theorem readsModule_of_compile {s t : Session} {src : Source} {kind : ModuleKind} {c : Compiled}
    (h : s.compile src kind = (.ok c, t)) :
    Grammar.ReadsModule kind s.lastId (Token.scan src).1 c.module t.lastId := by
  obtain ⟨ts, eof, htokens, heof, hts⟩ := Token.scan_tokens src
  obtain ⟨_, hparse, _⟩ := parse_of_compile h
  rw [htokens] at hparse ⊢
  exact Grammar.readsModule_of_parse heof (fun t ht => (hts t ht).ne_eof) hparse rfl

end Session

end LoxMachine
