import LoxMachine.Bytes.Utf8

/-!
# The characters of a text

The encoding of a code point, told without reference to how a text is decoded, and what follows
for texts: each is the sequence of its characters, and a character is found from its first byte on
whatever stands behind it.
-/

namespace LoxMachine.Bytes

/-! ## Encoded code points -/

/-- `Encodes code bytes`: the bytes are the UTF-8 form of the code point.  No code point has a
longer form than it needs, none is a surrogate, and none lies above U+10FFFF. -/
inductive Encodes : Nat → Bytes → Prop where
  | one {a : UInt8} (ha : a.toNat < 0x80) : Encodes a.toNat [a]
  | two {a b : UInt8} (hlow : 0xC2 ≤ a.toNat) (hhigh : a.toNat ≤ 0xDF) (hb : isTail b = true) :
      Encodes ((a.toNat - 0xC0) * 64 + (b.toNat - 0x80)) [a, b]
  | three {a b c : UInt8} (hlow : 0xE0 ≤ a.toNat) (hhigh : a.toNat ≤ 0xEF) (hb : isTail b = true)
      (hc : isTail c = true) (hlong : a = 0xE0 → 0xA0 ≤ b.toNat)
      (hsurrogate : a = 0xED → b.toNat ≤ 0x9F) :
      Encodes ((a.toNat - 0xE0) * 4096 + (b.toNat - 0x80) * 64 + (c.toNat - 0x80)) [a, b, c]
  | four {a b c d : UInt8} (hlow : 0xF0 ≤ a.toNat) (hhigh : a.toNat ≤ 0xF4) (hb : isTail b = true)
      (hc : isTail c = true) (hd : isTail d = true) (hlong : a = 0xF0 → 0x90 ≤ b.toNat)
      (hlarge : a = 0xF4 → b.toNat ≤ 0x8F) :
      Encodes ((a.toNat - 0xF0) * 262144 + (b.toNat - 0x80) * 4096 + (c.toNat - 0x80) * 64
        + (d.toNat - 0x80)) [a, b, c, d]

variable {code width : Nat} {bytes rest text : Bytes} {a b : UInt8}

theorem isTail_iff : isTail b = true ↔ 0x80 ≤ b.toNat ∧ b.toNat ≤ 0xBF := by
  simp [isTail, UInt8.le_iff_toNat_le]

theorem Encodes.ne_nil (h : Encodes code bytes) : bytes ≠ [] := by
  cases h <;> exact List.cons_ne_nil _ _

/-- The second byte of a long form, where only part of the continuation bytes may follow the
first one. -/
theorem second_bounds {low high : UInt8} {special special' : UInt8} (hlow : 0x80 ≤ low.toNat)
    (hhigh : high.toNat ≤ 0xBF) :
    ((decide ((if a = special then low else 0x80) ≤ b) &&
        decide (b ≤ (if a = special' then high else 0xBF))) = true) ↔
      isTail b = true ∧ (a = special → low.toNat ≤ b.toNat) ∧
        (a = special' → b.toNat ≤ high.toNat) := by
  rw [isTail_iff, Bool.and_eq_true, decide_eq_true_eq, decide_eq_true_eq,
    UInt8.le_iff_toNat_le, UInt8.le_iff_toNat_le, apply_ite UInt8.toNat, apply_ite UInt8.toNat]
  rw [show (0x80 : UInt8).toNat = 128 from rfl, show (0xBF : UInt8).toNat = 191 from rfl]
  split <;> split <;> grind

/-- An encoded code point is decoded, whatever stands behind it. -/
theorem Encodes.scalar?_append (h : Encodes code bytes) (rest : Bytes) :
    scalar? (bytes ++ rest) = some (code, bytes.length) := by
  cases h with
  | one ha =>
      have hone : _ < (0x80 : UInt8) := UInt8.lt_iff_toNat_lt.mpr ha
      simp only [List.cons_append, List.nil_append, scalar?]
      rw [if_pos hone]
      rfl
  | @two a b hlow hhigh hb =>
      have hone : ¬ a < 0x80 := by simp [UInt8.lt_iff_toNat_lt]; omega
      have htwo : 0xC2 ≤ a ∧ a ≤ 0xDF :=
        ⟨UInt8.le_iff_toNat_le.mpr hlow, UInt8.le_iff_toNat_le.mpr hhigh⟩
      simp only [List.cons_append, List.nil_append, scalar?]
      rw [if_neg hone, if_pos (by simpa using htwo), if_pos hb]
      rfl
  | @three a b c hlow hhigh hb hc hlong hsurrogate =>
      have hone : ¬ a < 0x80 := by simp [UInt8.lt_iff_toNat_lt]; omega
      have htwo : ¬ a ≤ 0xDF := by simp [UInt8.le_iff_toNat_le]; omega
      have hthree : 0xE0 ≤ a ∧ a ≤ 0xEF :=
        ⟨UInt8.le_iff_toNat_le.mpr hlow, UInt8.le_iff_toNat_le.mpr hhigh⟩
      simp only [List.cons_append, List.nil_append, scalar?]
      rw [if_neg hone, if_neg (by simp [htwo]), if_pos (by simpa using hthree), if_pos]
      · rfl
      · rw [Bool.and_eq_true]
        exact ⟨(second_bounds (by decide) (by decide)).mpr ⟨hb, hlong, hsurrogate⟩, hc⟩
  | @four a b c d hlow hhigh hb hc hd hlong hlarge =>
      have hone : ¬ a < 0x80 := by simp [UInt8.lt_iff_toNat_lt]; omega
      have htwo : ¬ a ≤ 0xDF := by simp [UInt8.le_iff_toNat_le]; omega
      have hthree : ¬ a ≤ 0xEF := by simp [UInt8.le_iff_toNat_le]; omega
      have hfour : 0xF0 ≤ a ∧ a ≤ 0xF4 :=
        ⟨UInt8.le_iff_toNat_le.mpr hlow, UInt8.le_iff_toNat_le.mpr hhigh⟩
      simp only [List.cons_append, List.nil_append, scalar?]
      rw [if_neg hone, if_neg (by simp [htwo]), if_neg (by simp [hthree]),
        if_pos (by simpa using hfour), if_pos]
      · rfl
      · rw [Bool.and_eq_true, Bool.and_eq_true]
        exact ⟨⟨(second_bounds (by decide) (by decide)).mpr ⟨hb, hlong, hlarge⟩, hc⟩, hd⟩

/-- What is decoded at the head of a text is encoded there. -/
theorem exists_encodes (h : scalar? text = some (code, width)) :
    ∃ bytes rest, text = bytes ++ rest ∧ Encodes code bytes ∧ bytes.length = width := by
  unfold scalar? at h
  split at h
  next => cases h
  next a rest =>
    split at h
    next hone =>
      cases h
      exact ⟨[a], rest, rfl, .one (UInt8.lt_iff_toNat_lt.mp hone), rfl⟩
    split at h
    next htwo =>
      simp only [Bool.and_eq_true, decide_eq_true_eq, UInt8.le_iff_toNat_le] at htwo
      split at h
      next b rest =>
        obtain ⟨hb, heq⟩ := Option.ite_none_right_eq_some.mp h
        obtain ⟨rfl, rfl⟩ := Prod.mk.inj (Option.some.inj heq)
        exact ⟨[a, b], rest, rfl, .two htwo.1 htwo.2 hb, rfl⟩
      next => cases h
    split at h
    next hthree =>
      simp only [Bool.and_eq_true, decide_eq_true_eq, UInt8.le_iff_toNat_le] at hthree
      split at h
      next b c rest =>
        obtain ⟨hbounds, heq⟩ := Option.ite_none_right_eq_some.mp h
        obtain ⟨rfl, rfl⟩ := Prod.mk.inj (Option.some.inj heq)
        rw [Bool.and_eq_true] at hbounds
        obtain ⟨hsecond, hc⟩ := hbounds
        obtain ⟨hb, hlong, hsurrogate⟩ := (second_bounds (by decide) (by decide)).mp hsecond
        exact ⟨[a, b, c], rest, rfl, .three hthree.1 hthree.2 hb hc hlong hsurrogate, rfl⟩
      next => cases h
    split at h
    next hfour =>
      simp only [Bool.and_eq_true, decide_eq_true_eq, UInt8.le_iff_toNat_le] at hfour
      split at h
      next b c d rest =>
        obtain ⟨hbounds, heq⟩ := Option.ite_none_right_eq_some.mp h
        obtain ⟨rfl, rfl⟩ := Prod.mk.inj (Option.some.inj heq)
        rw [Bool.and_eq_true, Bool.and_eq_true] at hbounds
        obtain ⟨⟨hsecond, hc⟩, hd⟩ := hbounds
        obtain ⟨hb, hlong, hlarge⟩ := (second_bounds (by decide) (by decide)).mp hsecond
        exact ⟨[a, b, c, d], rest, rfl, .four hfour.1 hfour.2 hb hc hd hlong hlarge, rfl⟩
      next => cases h
    next => cases h

/-- The number of bytes of an encoding is a matter of the code point. -/
theorem Encodes.length_eq (h : Encodes code bytes) :
    bytes.length =
      if code < 0x80 then 1 else if code < 0x800 then 2 else if code < 0x10000 then 3 else 4 := by
  cases h with
  | one ha => exact (if_pos ha).symm
  | @two a b hlow hhigh hb =>
      rw [isTail_iff] at hb
      rw [if_neg (by omega), if_pos (by omega)]
      rfl
  | @three a b c hlow hhigh hb hc hlong hsurrogate =>
      rw [isTail_iff] at hb hc
      have hsecond : a.toNat = 0xE0 → 0xA0 ≤ b.toNat := fun h => hlong (UInt8.toNat_inj.mp h)
      rw [if_neg (by omega), if_neg (by omega), if_pos (by omega)]
      rfl
  | @four a b c d hlow hhigh hb hc hd hlong hlarge =>
      rw [isTail_iff] at hb hc hd
      have hsecond : a.toNat = 0xF0 → 0x90 ≤ b.toNat := fun h => hlong (UInt8.toNat_inj.mp h)
      rw [if_neg (by omega), if_neg (by omega), if_neg (by omega)]
      rfl

/-- Nothing above U+10FFFF is encoded. -/
theorem Encodes.lt (h : Encodes code bytes) : code < 0x110000 := by
  cases h with
  | one ha => omega
  | two _ hhigh hb =>
      rw [isTail_iff] at hb
      omega
  | three _ hhigh hb hc _ _ =>
      rw [isTail_iff] at hb hc
      omega
  | @four a b c d _ hhigh hb hc hd _ hlarge =>
      rw [isTail_iff] at hb hc hd
      have hsecond : a.toNat = 0xF4 → b.toNat ≤ 0x8F := fun h => hlarge (UInt8.toNat_inj.mp h)
      omega

/-- An ASCII character is a single byte, and all bytes of other ones lie above. -/
theorem Encodes.cases_ascii (h : Encodes code bytes) :
    (code < 0x80 ∧ bytes = [code.toUInt8]) ∨
      (0x80 ≤ code ∧ ∃ a tail, bytes = a :: tail ∧ 0x80 ≤ a.toNat) := by
  have hlength := h.length_eq
  cases h with
  | @one a ha => exact .inl ⟨ha, by rw [Nat.toUInt8_eq, UInt8.ofNat_toNat]⟩
  | two | three | four =>
      refine .inr ⟨Nat.le_of_not_lt fun hsmall => ?_, _, _, rfl, by omega⟩
      rw [if_pos hsmall] at hlength
      cases hlength

/-- A code point has one encoding. -/
theorem Encodes.unique {bytes' : Bytes} (h : Encodes code bytes) (h' : Encodes code bytes') :
    bytes = bytes' := by
  have hlength : bytes.length = bytes'.length := h.length_eq.trans h'.length_eq.symm
  generalize hcode : code = code' at h'
  cases h with
  | @one a _ =>
      cases h' with
      | one _ => rw [UInt8.toNat_inj.mp hcode]
      | _ => cases hlength
  | @two a b hlow _ hb =>
      cases h' with
      | @two a' b' hlow' _ hb' =>
          rw [isTail_iff] at hb hb'
          have hfirst : a = a' := UInt8.toNat_inj.mp (by omega)
          have hsecond : b = b' := UInt8.toNat_inj.mp (by omega)
          rw [hfirst, hsecond]
      | _ => cases hlength
  | @three a b c hlow _ hb hc =>
      cases h' with
      | @three a' b' c' hlow' _ hb' hc' =>
          rw [isTail_iff] at hb hb' hc hc'
          have hfirst : a = a' := UInt8.toNat_inj.mp (by omega)
          have hsecond : b = b' := UInt8.toNat_inj.mp (by omega)
          have hthird : c = c' := UInt8.toNat_inj.mp (by omega)
          rw [hfirst, hsecond, hthird]
      | _ => cases hlength
  | @four a b c d hlow _ hb hc hd =>
      cases h' with
      | @four a' b' c' d' hlow' _ hb' hc' hd' =>
          rw [isTail_iff] at hb hb' hc hc' hd hd'
          have hfirst : a = a' := UInt8.toNat_inj.mp (by omega)
          have hsecond : b = b' := UInt8.toNat_inj.mp (by omega)
          have hthird : c = c' := UInt8.toNat_inj.mp (by omega)
          have hfourth : d = d' := UInt8.toNat_inj.mp (by omega)
          rw [hfirst, hsecond, hthird, hfourth]
      | _ => cases hlength

/-! ## The characters of a text -/

/-- What a text is made of: encoded code points, and bytes by themselves that begin none. -/
inductive Splits : Bytes → List (Option Nat × Bytes) → Prop where
  | nil : Splits [] []
  | encoded {code bytes rest chars} (h : Encodes code bytes) (hrest : Splits rest chars) :
      Splits (bytes ++ rest) ((some code, bytes) :: chars)
  | stray {byte rest chars} (h : ∀ code bytes, Encodes code bytes → ¬ bytes <+: byte :: rest)
      (hrest : Splits rest chars) : Splits (byte :: rest) ((none, [byte]) :: chars)

/-- What a single character is: an encoded code point, or a byte that is none. -/
inductive IsCharacter : Option Nat × Bytes → Prop where
  | encoded {code : Nat} {bytes : Bytes} (h : Encodes code bytes) : IsCharacter (some code, bytes)
  | stray {byte : UInt8} (h : 0x80 ≤ byte.toNat) : IsCharacter (none, [byte])

theorem Splits.isCharacter {chars : List (Option Nat × Bytes)} (h : Splits text chars) :
    ∀ c ∈ chars, IsCharacter c := by
  induction h with
  | nil => exact List.forall_mem_nil _
  | encoded h _ ih => exact List.forall_mem_cons.mpr ⟨.encoded h, ih⟩
  | @stray b rest chars h _ ih =>
      refine List.forall_mem_cons.mpr ⟨.stray (Nat.le_of_not_lt fun hone => ?_), ih⟩
      exact h _ _ (.one hone) (List.prefix_append [b] rest)

theorem scalar?_eq_none (h : ∀ code bytes, Encodes code bytes → ¬ bytes <+: text) :
    scalar? text = none := by
  cases hscalar : scalar? text with
  | none => rfl
  | some found =>
      obtain ⟨bytes, rest, rfl, hencodes, -⟩ := exists_encodes hscalar
      exact absurd (List.prefix_append _ _) (h _ _ hencodes)

theorem not_encodes_of_scalar?_eq_none (h : scalar? text = none) (hencodes : Encodes code bytes) :
    ¬ bytes <+: text := by
  rintro ⟨rest, rfl⟩
  rw [hencodes.scalar?_append] at h
  cases h

/-- With as many steps as bytes, all characters of a text are mapped. -/
theorem Splits.mapCharacters_eq {α : Type} (f : Option Nat → Bytes → α)
    {chars : List (Option Nat × Bytes)} (h : Splits text chars) {steps : Nat}
    (hsteps : text.length ≤ steps) :
    mapCharacters f steps text = chars.map fun c => f c.1 c.2 := by
  induction h generalizing steps with
  | nil => cases steps <;> rfl
  | @encoded code bytes rest chars h _ ih =>
      obtain ⟨a, tail, rfl⟩ := List.exists_cons_of_ne_nil h.ne_nil
      rw [List.length_append, List.length_cons] at hsteps
      obtain ⟨steps, rfl⟩ := Nat.exists_eq_add_of_lt (show 0 < steps by omega)
      rw [Nat.zero_add, List.cons_append, mapCharacters]
      have hscalar := h.scalar?_append rest
      rw [List.cons_append] at hscalar
      rw [hscalar]
      dsimp only
      rw [← List.cons_append, List.take_left, List.drop_left, ih (by omega), List.map_cons]
  | @stray b rest chars h _ ih =>
      rw [List.length_cons] at hsteps
      obtain ⟨steps, rfl⟩ := Nat.exists_eq_add_of_lt (show 0 < steps by omega)
      rw [Nat.zero_add, mapCharacters, scalar?_eq_none h]
      dsimp only
      rw [List.take_succ_cons, List.take_zero, List.drop_succ_cons, List.drop_zero,
        ih (by omega), List.map_cons]

/-- Every text splits. -/
theorem exists_splits (text : Bytes) : ∃ chars, Splits text chars := by
  induction hlength : text.length using Nat.strongRecOn generalizing text with
  | ind n ih =>
    cases text with
    | nil => exact ⟨[], .nil⟩
    | cons b rest =>
        cases hscalar : scalar? (b :: rest) with
        | none =>
            have hshorter : rest.length < n := by
              rw [← hlength]
              exact Nat.lt_succ_self _
            obtain ⟨chars, hchars⟩ := ih rest.length hshorter rest rfl
            exact ⟨_, .stray (fun _ _ => not_encodes_of_scalar?_eq_none hscalar) hchars⟩
        | some found =>
            obtain ⟨bytes, rest', heq, hencodes, -⟩ := exists_encodes hscalar
            have hpos := List.length_pos_iff.mpr hencodes.ne_nil
            rw [heq, List.length_append] at hlength
            obtain ⟨chars, hchars⟩ := ih rest'.length (by omega) rest' rfl
            rw [heq]
            exact ⟨_, .encoded hencodes hchars⟩

/-- The characters of a text are what it splits into. -/
theorem splits_iff {chars : List (Option Nat × Bytes)} :
    Splits text chars ↔ chars = text.characters := by
  have hchars : ∀ {chars}, Splits text chars → text.characters = chars := fun h => by
    rw [characters, h.mapCharacters_eq _ (Nat.le_refl _)]
    exact List.map_id' _
  constructor
  · exact fun h => (hchars h).symm
  · rintro rfl
    obtain ⟨chars, h⟩ := exists_splits text
    rwa [hchars h]

theorem splits_characters (text : Bytes) : Splits text text.characters :=
  splits_iff.mpr rfl

theorem mapCharacters_eq {α : Type} (f : Option Nat → Bytes → α) (text : Bytes) :
    mapCharacters f text.length text = text.characters.map fun c => f c.1 c.2 :=
  (splits_characters text).mapCharacters_eq f (Nat.le_refl _)

theorem Splits.flatten_eq {chars : List (Option Nat × Bytes)} (h : Splits text chars) :
    (chars.map Prod.snd).flatten = text := by
  induction h with
  | nil => rfl
  | encoded _ _ ih => rw [List.map_cons, List.flatten_cons, ih]
  | stray _ _ ih =>
      rw [List.map_cons, List.flatten_cons, ih]
      rfl

/-- A text is its characters one after the other. -/
theorem flatten_characters (text : Bytes) : (text.characters.map Prod.snd).flatten = text :=
  (splits_characters text).flatten_eq

end LoxMachine.Bytes
