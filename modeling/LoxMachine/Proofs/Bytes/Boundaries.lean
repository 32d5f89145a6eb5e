import LoxMachine.Proofs.Bytes.Characters

/-!
# Where characters end

The offsets at which the characters of a text end.  As many characters are counted within a limit
as end there, and a text that is cut behind a character keeps the characters in front of the cut.
-/

namespace LoxMachine.Bytes

variable {limit steps offset : Nat} {text rest : Bytes} {c : Option Nat × Bytes}
  {chars others : List (Option Nat × Bytes)}

/-- The bytes of characters that stand one behind the other. -/
def joined (chars : List (Option Nat × Bytes)) : Bytes :=
  (chars.map Prod.snd).flatten

theorem joined_append (chars others : List (Option Nat × Bytes)) :
    joined (chars ++ others) = joined chars ++ joined others := by
  rw [joined, List.map_append, List.flatten_append]
  rfl

/-- The offsets at which the characters end. -/
def ends : List (Option Nat × Bytes) → List Nat
  | [] => []
  | c :: more => c.2.length :: (ends more).map (c.2.length + ·)

theorem le_of_mem_ends {e : Nat} (h : e ∈ ends (c :: chars)) : c.2.length ≤ e := by
  rcases List.mem_cons.mp h with rfl | h
  · exact Nat.le_refl _
  · obtain ⟨e', -, rfl⟩ := List.mem_map.mp h
    exact Nat.le_add_right _ _

theorem countP_ends_cons (h : c.2.length ≤ limit) :
    (ends (c :: chars)).countP (· ≤ limit) =
      (ends chars).countP (· ≤ limit - c.2.length) + 1 := by
  rw [ends, List.countP_cons, if_pos (decide_eq_true h), List.countP_map]
  congr 1
  refine List.countP_congr fun e _ => ?_
  simp only [Function.comp_apply, decide_eq_true_eq]
  omega

theorem countP_ends_of_lt (h : limit < c.2.length) :
    (ends (c :: chars)).countP (· ≤ limit) = 0 := by
  refine List.countP_eq_zero.mpr fun e he => ?_
  have hle := le_of_mem_ends he
  rw [decide_eq_true_eq]
  omega

theorem Splits.length_pos (h : Splits text chars) : ∀ c ∈ chars, 0 < c.2.length := by
  induction h with
  | nil => exact List.forall_mem_nil _
  | encoded h _ ih => exact List.forall_mem_cons.mpr ⟨List.length_pos_iff.mpr h.ne_nil, ih⟩
  | stray _ _ ih => exact List.forall_mem_cons.mpr ⟨Nat.one_pos, ih⟩

/-- A character at the head of a text is counted if it ends within the limit. -/
theorem countWithin_cons {bytes : Bytes} (hwidth : headWidth (bytes ++ rest) = bytes.length)
    (hpos : bytes ≠ []) (hlimit : limit ≤ steps) :
    countWithin steps limit (bytes ++ rest) =
      if bytes.length ≤ limit then
        countWithin (steps - 1) (limit - bytes.length) rest + 1
      else 0 := by
  obtain ⟨a, tail, rfl⟩ := List.exists_cons_of_ne_nil hpos
  cases steps with
  | zero =>
      rw [if_neg (by rw [List.length_cons]; omega)]
      rfl
  | succ steps =>
      rw [List.cons_append, countWithin, ← List.cons_append, hwidth, List.drop_left,
        Nat.add_sub_cancel]

/-- With as many steps as the limit has bytes, every character that ends within the limit is
counted. -/
theorem Splits.countWithin_eq (h : Splits text chars) (hlimit : limit ≤ steps) :
    countWithin steps limit text = (ends chars).countP (· ≤ limit) := by
  have hone : ∀ {code : Option Nat} {bytes rest : Bytes} {chars : List (Option Nat × Bytes)}
      {limit steps : Nat}, headWidth (bytes ++ rest) = bytes.length → bytes ≠ [] → limit ≤ steps →
      (∀ {limit steps : Nat}, limit ≤ steps →
        countWithin steps limit rest = (ends chars).countP (· ≤ limit)) →
      countWithin steps limit (bytes ++ rest) =
        (ends ((code, bytes) :: chars)).countP (· ≤ limit) := by
    intro code bytes rest chars limit steps hwidth hpos hlimit ih
    rw [countWithin_cons hwidth hpos hlimit]
    have hlength := List.length_pos_iff.mpr hpos
    split
    next hle => rw [countP_ends_cons hle, ih (by omega)]
    next hlt => rw [countP_ends_of_lt (Nat.lt_of_not_le hlt)]
  induction h generalizing limit steps with
  | nil => cases steps <;> rfl
  | encoded h _ ih =>
      exact hone (by rw [headWidth, h.scalar?_append]) h.ne_nil hlimit fun hlimit => ih hlimit
  | @stray b rest _ h _ ih =>
      have hwidth : headWidth ([b] ++ rest) = 1 := by
        rw [headWidth, List.singleton_append, scalar?_eq_none h]
      exact @hone none [b] rest _ _ _ hwidth (List.cons_ne_nil _ _) hlimit fun hlimit => ih hlimit

/-- The characters of a text within its first bytes are those that end there. -/
theorem charactersWithin_eq (limit : Nat) (text : Bytes) :
    charactersWithin limit text = (ends text.characters).countP (· ≤ limit) :=
  (splits_characters text).countWithin_eq (Nat.le_refl limit)

/-! ## Boundaries -/

/-- An offset at which a character ends, or the start of the text. -/
def Boundary (text : Bytes) (offset : Nat) : Prop :=
  ∃ chars others, text.characters = chars ++ others ∧ (joined chars).length = offset

/-- A text that is cut behind a character keeps the characters in front. -/
theorem Splits.front (h : Splits text (chars ++ others)) : Splits (joined chars) chars := by
  generalize hall : chars ++ others = all at h
  induction h generalizing chars with
  | nil =>
      rw [(List.append_eq_nil_iff.mp hall).1]
      exact .nil
  | @encoded code bytes rest all h _ ih =>
      cases chars with
      | nil => exact .nil
      | cons c chars =>
          obtain ⟨rfl, htail⟩ := List.cons.inj hall
          exact .encoded h (ih htail)
  | @stray b rest all h hrest ih =>
      cases chars with
      | nil => exact .nil
      | cons c chars =>
          obtain ⟨rfl, htail⟩ := List.cons.inj hall
          refine .stray (fun code bytes hencodes hprefix => h code bytes hencodes ?_) (ih htail)
          -- What begins the shorter text begins the longer one too.
          have hsplit : rest = joined chars ++ joined others := by
            rw [← joined_append, show chars ++ others = all from htail]
            exact hrest.flatten_eq.symm
          rw [hsplit, ← List.cons_append]
          exact hprefix.trans (List.prefix_append _ _)

/-- All characters in front of a cut end there, and none behind it does. -/
theorem countP_ends_joined (h : ∀ c ∈ others, 0 < c.2.length) :
    (ends (chars ++ others)).countP (· ≤ (joined chars).length) = chars.length := by
  induction chars with
  | nil =>
      cases others with
      | nil => rfl
      | cons c others => exact countP_ends_of_lt (h c List.mem_cons_self)
  | cons c chars ih =>
      have hlength : (joined (c :: chars)).length = c.2.length + (joined chars).length := by
        rw [joined, List.map_cons, List.flatten_cons, List.length_append]
        rfl
      rw [List.cons_append, countP_ends_cons (by omega), hlength, Nat.add_sub_cancel_left, ih,
        List.length_cons]

/-- At a boundary, the text in front has as many characters as are counted there, and they are
the first ones of the whole text. -/
theorem Boundary.take (h : Boundary text offset) :
    (characters (text.take offset)).length = charactersWithin offset text ∧
      characters (text.take offset) <+: text.characters := by
  obtain ⟨chars, others, hchars, rfl⟩ := h
  have hsplits := splits_characters text
  rw [hchars] at hsplits
  have htext : text = joined chars ++ joined others := by
    rw [← joined_append]
    exact hsplits.flatten_eq.symm
  have hfront : characters (text.take (joined chars).length) = chars := by
    rw [htext, List.take_left]
    exact (splits_iff.mp hsplits.front).symm
  rw [hfront, charactersWithin_eq, hchars, countP_ends_joined fun c hc =>
    hsplits.length_pos c (List.mem_append_right _ hc)]
  exact ⟨rfl, List.prefix_append _ _⟩

end LoxMachine.Bytes
