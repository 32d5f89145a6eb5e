import LoxMachine.Bytes.Quoted
import LoxMachine.Proofs.Bytes.Characters
import LoxMachine.Proofs.Bytes.Numerals

/-!
# Quoted texts

A quoted text can be read back: each escape tells which character it stands for and where it ends,
so the closing quote is found, and texts with the same quoted form are the same.
-/

namespace LoxMachine.Bytes

variable {text text' rest rest' word : Bytes} {c c' : Option Nat × Bytes}

/-! ## Escapes -/

/-- The code point of an escape by a letter. -/
def letterCode? (letter : UInt8) : Option Nat :=
  [(97, 7), (98, 8), (116, 9), (110, 10), (118, 11), (102, 12), (114, 13), (34, 34),
    (92, 92)].lookup letter

/-- `Escape c word`: in a quoted text the character `c` is written `word`. -/
inductive Escape : Option Nat × Bytes → Bytes → Prop where
  | plain {code bytes} (h : Encodes code bytes) (hquote : code ≠ 34) (hslash : code ≠ 92) :
      Escape (some code, bytes) bytes
  | letter {letter code bytes} (h : letterCode? letter = some code) :
      Escape (some code, bytes) [92, letter]
  | byte {b : UInt8} (h : 0x80 ≤ b.toNat) : Escape (none, [b]) (92 :: 120 :: hex 2 b.toNat)
  | control {code bytes} (h : code < 0x80) : Escape (some code, bytes) (92 :: 120 :: hex 2 code)
  | short {code bytes} (h : code < 0x10000) : Escape (some code, bytes) (92 :: 117 :: hex 4 code)
  | long {code bytes} (h : code < 0x110000) : Escape (some code, bytes) (92 :: 85 :: hex 8 code)

theorem escape_escaped (h : IsCharacter c) : Escape c (escaped c.1 c.2) := by
  cases h with
  | @stray b hb =>
      have hone : escaped none [b] = 92 :: 120 :: hex 2 b.toNat :=
        List.append_nil (92 :: 120 :: hex 2 b.toNat)
      rw [hone]
      exact .byte hb
  | @encoded code bytes h =>
      unfold escaped
      dsimp only
      split
      next heq => cases heq
      case h_11 hquote hslash heq =>
        cases heq
        split
        · exact .plain h hquote hslash
        split
        next hsmall => exact .control hsmall
        split
        next hshort => exact .short hshort
        next => exact .long h.lt
      all_goals
        next heq =>
          cases heq
          exact .letter rfl

/-- The first byte of an encoding is no ASCII byte but that of its code point. -/
theorem Encodes.head_ne {code : Nat} {bytes : Bytes} (h : Encodes code bytes) {b : UInt8}
    (hb : b.toNat < 0x80) (hne : code ≠ b.toNat) : ∃ a tail, bytes = a :: tail ∧ a ≠ b := by
  rcases h.cases_ascii with ⟨hsmall, rfl⟩ | ⟨_, a, tail, rfl, ha⟩
  · refine ⟨_, _, rfl, fun heq => hne ?_⟩
    rw [← heq, Nat.toUInt8_eq, UInt8.toNat_ofNat', Nat.mod_eq_of_lt (by omega)]
  · refine ⟨_, _, rfl, fun heq => ?_⟩
    rw [heq] at ha
    exact absurd hb (Nat.not_lt.mpr ha)

/-- A quote is never written as itself. -/
theorem Escape.head_ne_quote (h : Escape c word) : ∃ b tail, word = b :: tail ∧ b ≠ 34 := by
  cases h with
  | plain h hquote _ => exact h.head_ne (by decide) hquote
  | letter | byte | control | short | long => exact ⟨_, _, rfl, by decide⟩

/-! ## Reading escapes -/

/-- What an escape tells of a character: its code point, or the byte that is none. -/
def told (c : Option Nat × Bytes) : Option Nat × Bytes :=
  (c.1, if c.1.isSome then [] else c.2)

/-- Reads one character of a quoted text, and what stands behind it. -/
def unescape? (text : Bytes) : Option ((Option Nat × Bytes) × Bytes) :=
  match text with
  | 92 :: kind :: rest =>
      if kind = 120 then
        let n := hexNumber (rest.take 2)
        some (if n < 0x80 then (some n, []) else (none, [n.toUInt8]), rest.drop 2)
      else if kind = 117 then some ((some (hexNumber (rest.take 4)), []), rest.drop 4)
      else if kind = 85 then some ((some (hexNumber (rest.take 8)), []), rest.drop 8)
      else (letterCode? kind).map fun code => ((some code, []), rest)
  | text => (scalar? text).map fun found => ((some found.1, []), text.drop found.2)

theorem take_hex {width n : Nat} (hwidth : 0 < width) (h : n < 16 ^ width) (rest : Bytes) :
    hexNumber ((hex width n ++ rest).take width) = n ∧ (hex width n ++ rest).drop width = rest := by
  have hlength := length_hex hwidth h
  exact ⟨by rw [List.take_left' hlength, hexNumber_hex], List.drop_left' hlength⟩

theorem unescape?_hex {n : Nat} (h : n < 256) (rest : Bytes) :
    unescape? (92 :: 120 :: (hex 2 n ++ rest)) =
      some (if n < 0x80 then (some n, []) else (none, [n.toUInt8]), rest) := by
  obtain ⟨hread, hdrop⟩ := take_hex (by decide) (show n < 16 ^ 2 from h) rest
  show (let m := hexNumber ((hex 2 n ++ rest).take 2)
    some (if m < 0x80 then (some m, []) else (none, [m.toUInt8]), (hex 2 n ++ rest).drop 2)) = _
  rw [hread, hdrop]

/-- An escape is read back, whatever stands behind it. -/
theorem Escape.unescape?_append (h : Escape c word) (rest : Bytes) :
    unescape? (word ++ rest) = some (told c, rest) := by
  cases h with
  | @plain code bytes h hquote hslash =>
      obtain ⟨a, tail, rfl, ha⟩ := h.head_ne (show (92 : UInt8).toNat < 0x80 by decide) hslash
      have hscalar := h.scalar?_append rest
      unfold unescape?
      split
      next heq => exact absurd (List.cons.inj heq).1 ha
      next => rw [hscalar, Option.map_some, List.drop_left, told, Option.isSome_some, if_pos rfl]
  | @letter letter code bytes h =>
      have hother : letter ≠ 120 ∧ letter ≠ 117 ∧ letter ≠ 85 := by
        refine ⟨?_, ?_, ?_⟩ <;> rintro rfl <;> cases h
      show (if letter = 120 then _ else _) = _
      rw [if_neg hother.1, if_neg hother.2.1, if_neg hother.2.2, h]
      rfl
  | @byte b hb =>
      rw [List.cons_append, List.cons_append, unescape?_hex b.toNat_lt,
        if_neg (Nat.not_lt.mpr hb), Nat.toUInt8_eq, UInt8.ofNat_toNat]
      rfl
  | @control code bytes hsmall =>
      rw [List.cons_append, List.cons_append, unescape?_hex (by omega), if_pos hsmall]
      rfl
  | @short code bytes hshort =>
      obtain ⟨hread, hdrop⟩ := take_hex (by decide) (show code < 16 ^ 4 from hshort) rest
      show some ((some (hexNumber ((hex 4 code ++ rest).take 4)), []),
        (hex 4 code ++ rest).drop 4) = _
      rw [hread, hdrop]
      rfl
  | @long code bytes hlong =>
      obtain ⟨hread, hdrop⟩ := take_hex (by decide) (show code < 16 ^ 8 by omega) rest
      show some ((some (hexNumber ((hex 8 code ++ rest).take 8)), []),
        (hex 8 code ++ rest).drop 8) = _
      rw [hread, hdrop]
      rfl

/-- What is told of a character is all there is to it. -/
theorem told_injective (h : IsCharacter c) (h' : IsCharacter c') (heq : told c = told c') :
    c = c' := by
  cases h with
  | encoded h =>
      cases h' with
      | encoded h' =>
          obtain ⟨hcode, -⟩ := Prod.mk.inj heq
          cases hcode
          rw [h.unique h']
      | stray => cases (Prod.mk.inj heq).1
  | stray _ =>
      cases h' with
      | encoded => cases (Prod.mk.inj heq).1
      | stray _ => exact heq

/-! ## Quoted texts -/

theorem quoted_eq (text : Bytes) :
    quoted text = 34 :: (text.characters.flatMap (fun c => escaped c.1 c.2) ++ [34]) := by
  rw [quoted, mapCharacters_eq, List.flatMap]
  rfl

/-- Escapes are read back up to the closing quote. -/
theorem escapes_append_inj {chars chars' : List (Option Nat × Bytes)}
    (h : ∀ c ∈ chars, IsCharacter c) (h' : ∀ c ∈ chars', IsCharacter c)
    (heq : chars.flatMap (fun c => escaped c.1 c.2) ++ 34 :: rest =
      chars'.flatMap (fun c => escaped c.1 c.2) ++ 34 :: rest') :
    chars = chars' ∧ rest = rest' := by
  induction chars generalizing chars' with
  | nil =>
      cases chars' with
      | nil => exact ⟨rfl, (List.cons.inj heq).2⟩
      | cons c' chars' =>
          obtain ⟨b, tail, hword, hb⟩ :=
            (escape_escaped (h' c' List.mem_cons_self)).head_ne_quote
          rw [List.flatMap_cons, hword] at heq
          exact absurd (List.cons.inj heq).1.symm hb
  | cons c chars ih =>
      have hescape := escape_escaped (h c List.mem_cons_self)
      cases chars' with
      | nil =>
          obtain ⟨b, tail, hword, hb⟩ := hescape.head_ne_quote
          rw [List.flatMap_cons, hword] at heq
          exact absurd (List.cons.inj heq).1 hb
      | cons c' chars' =>
          have hescape' := escape_escaped (h' c' List.mem_cons_self)
          rw [List.flatMap_cons, List.flatMap_cons, List.append_assoc, List.append_assoc] at heq
          have hread := hescape.unescape?_append
            (chars.flatMap (fun c => escaped c.1 c.2) ++ 34 :: rest)
          rw [heq, hescape'.unescape?_append] at hread
          obtain ⟨htold, htail⟩ := Prod.mk.inj (Option.some.inj hread)
          obtain ⟨rfl, hrest⟩ := ih (fun c hc => h c (List.mem_cons_of_mem _ hc))
            (fun c hc => h' c (List.mem_cons_of_mem _ hc)) htail.symm
          rw [told_injective (h' c' List.mem_cons_self) (h c List.mem_cons_self) htold]
          exact ⟨rfl, hrest⟩

/-- A quoted text ends at its closing quote and is the quoted form of one text only. -/
theorem quoted_append_inj (heq : quoted text ++ rest = quoted text' ++ rest') :
    text = text' ∧ rest = rest' := by
  rw [quoted_eq, quoted_eq, List.cons_append, List.cons_append, List.append_assoc,
    List.append_assoc] at heq
  obtain ⟨hchars, hrest⟩ := escapes_append_inj (splits_characters text).isCharacter
    (splits_characters text').isCharacter (List.cons.inj heq).2
  refine ⟨?_, hrest⟩
  rw [← flatten_characters text, hchars, flatten_characters]

end LoxMachine.Bytes
