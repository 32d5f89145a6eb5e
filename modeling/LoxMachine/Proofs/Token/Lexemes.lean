import LoxMachine.Proofs.Token.Scanned
import Mathlib.Data.List.TakeWhile

/-!
# The language of tokens

How each kind of token is spelled, and what may stand between tokens, told without
reference to how a text is scanned.
-/

namespace LoxMachine.Token

/-! ## Spellings -/

/-- The operators and punctuation marks. -/
def marks : List (Kind × Bytes) :=
  [(.leftBrace, utf8 "\x7b"), (.rightBrace, utf8 "\x7d"), (.leftParen, utf8 "("),
    (.rightParen, utf8 ")"), (.minus, utf8 "-"), (.star, utf8 "*"), (.slash, utf8 "/"),
    (.semicolon, utf8 ";"), (.comma, utf8 ","), (.dot, utf8 "."), (.plus, utf8 "+"),
    (.bang, utf8 "!"), (.bangEqual, utf8 "!="), (.equal, utf8 "="), (.equalEqual, utf8 "=="),
    (.less, utf8 "<"), (.lessEqual, utf8 "<="), (.greater, utf8 ">"),
    (.greaterEqual, utf8 ">=")]

/-- A letter or an underscore, and then letters, underscores and digits. -/
inductive IsWord : Bytes → Prop where
  | word {b rest} (hstart : isNameStart b = true) (hrest : ∀ c ∈ rest, isNamePart c = true) :
      IsWord (b :: rest)

/-- Digits, or digits on both sides of a point. -/
inductive IsNumeral : Bytes → Prop where
  | whole {digits} (hsome : digits ≠ []) (h : ∀ b ∈ digits, isDigit b = true) :
      IsNumeral digits
  | fraction {whole digits} (hwhole : whole ≠ []) (h : ∀ b ∈ whole, isDigit b = true)
      (hsome : digits ≠ []) (hdigits : ∀ b ∈ digits, isDigit b = true) :
      IsNumeral (whole ++ 46 :: digits)

/-- `Spells kind word`: the bytes `word` are a token of that kind. -/
inductive Spells : Kind → Bytes → Prop where
  | keyword (word : Keyword) : Spells (.keyword word) word.spelling
  | identifier {name} (h : IsWord name) (hreserved : ∀ word : Keyword, word.spelling ≠ name) :
      Spells .identifier name
  | number {numeral} (h : IsNumeral numeral) : Spells .number numeral
  | string {inner} (h : 34 ∉ inner) : Spells .string (34 :: (inner ++ [34]))
  | mark {kind spelling} (h : (kind, spelling) ∈ marks) : Spells kind spelling

/-- Some token starts a text. -/
def StartsToken (text : Bytes) : Prop :=
  ∃ kind word, Spells kind word ∧ word <+: text

/-- Of all tokens that start a text, `word` is the longest. -/
structure Longest (kind : Kind) (word text : Bytes) : Prop where
  spells : Spells kind word
  starts : word <+: text
  longest : ∀ kind' other, Spells kind' other → other <+: text → other.length ≤ word.length

/-- `Faulty cause text after`: the bytes `text` are skipped for that cause in front of
`after`. -/
inductive Faulty : Fault → Bytes → Bytes → Prop where
  | unterminatedString {inner} (h : 34 ∉ inner) : Faulty .unterminatedString (34 :: inner) []
  | invalidByte {b after} (h : Bytes.scalar? (b :: after) = none) :
      Faulty (.invalidByte b) [b] after
  | unexpectedCharacter {code text after} (hquote : text.head? ≠ some 34)
      (h : Bytes.scalar? (text ++ after) = some (code, text.length)) :
      Faulty (.unexpectedCharacter code text) text after

/-! ## Words and numerals -/

theorem isWord_spelling (word : Keyword) : IsWord word.spelling := by
  cases word <;> exact .word rfl (by decide +kernel)

theorem ofSpelling?_eq_some_iff {text : Bytes} {word : Keyword} :
    Keyword.ofSpelling? text = some word ↔ text = word.spelling := by
  constructor
  · intro h
    have hfound := List.find?_some h
    exact (of_decide_eq_true hfound).symm
  · rintro rfl
    cases word <;> rfl

/-- The kind of a word. -/
theorem spells_word {text : Bytes} (h : IsWord text) :
    Spells ((Keyword.ofSpelling? text).elim .identifier .keyword) text := by
  cases hword : Keyword.ofSpelling? text with
  | some word =>
      rw [ofSpelling?_eq_some_iff.mp hword]
      exact .keyword word
  | none =>
      refine .identifier h fun word heq => ?_
      rw [ofSpelling?_eq_some_iff.mpr heq.symm] at hword
      cases hword

theorem length_le_takeWhile {p : UInt8 → Bool} {word text : Bytes} (h : word <+: text)
    (hall : ∀ b ∈ word, p b = true) : word.length ≤ (text.takeWhile p).length := by
  obtain ⟨rest, rfl⟩ := h
  rw [List.takeWhile_append_of_pos hall, List.length_append]
  exact Nat.le_add_right _ _

theorem take_length_takeWhile (p : UInt8 → Bool) (text : Bytes) :
    text.take (text.takeWhile p).length = text.takeWhile p :=
  (List.prefix_iff_eq_take.mp (List.takeWhile_prefix p)).symm

theorem drop_length_takeWhile (p : UInt8 → Bool) (text : Bytes) :
    text.drop (text.takeWhile p).length = text.dropWhile p := by
  have h := @List.drop_left _ (text.takeWhile p) (text.dropWhile p)
  rwa [List.takeWhile_append_dropWhile] at h

/-- The digits, and a point with digits after it, are a numeral. -/
theorem isNumeral_take {b : UInt8} {rest : Bytes} (hb : isDigit b = true) :
    IsNumeral ((b :: rest).take (numberLength (b :: rest))) := by
  have hwhole : (b :: rest).takeWhile isDigit ≠ [] := by
    rw [List.takeWhile_cons, hb]
    exact List.cons_ne_nil _ _
  have hdigits : ∀ c ∈ (b :: rest).takeWhile isDigit, isDigit c = true :=
    fun c hc => List.mem_takeWhile_imp hc
  generalize b :: rest = text at hwhole hdigits ⊢
  unfold numberLength
  dsimp only
  split
  next after hafter =>
    split
    next =>
      rw [take_length_takeWhile]
      exact .whole hwhole hdigits
    next hfraction =>
      have hsplit : text = text.takeWhile isDigit ++ 46 :: after := by
        rw [← hafter, drop_length_takeWhile, List.takeWhile_append_dropWhile]
      generalize text.takeWhile isDigit = whole at hwhole hdigits hsplit ⊢
      rw [hsplit, Nat.add_assoc, List.take_length_add_append, Nat.add_comm, List.take_succ_cons,
        take_length_takeWhile]
      refine .fraction hwhole hdigits (fun hnil => hfraction ?_)
        fun c hc => List.mem_takeWhile_imp hc
      rw [hnil]
      rfl
  next =>
    rw [take_length_takeWhile]
    exact .whole hwhole hdigits

/-- No numeral at the head of a text is longer. -/
theorem IsNumeral.length_le {numeral text : Bytes} (h : IsNumeral numeral)
    (hstarts : numeral <+: text) : numeral.length ≤ numberLength text := by
  cases h with
  | whole _ hdigits =>
      exact Nat.le_trans (length_le_takeWhile hstarts hdigits) (numberLength_bounds text).1
  | @fraction whole digits _ hwhole hsome hdigits =>
      obtain ⟨rest, rfl⟩ := hstarts
      have hpoint : isDigit 46 = false := rfl
      -- The point ends the digits in front of it.
      have htake : (whole ++ 46 :: digits ++ rest).takeWhile isDigit = whole := by
        rw [List.append_assoc, List.takeWhile_append_of_pos hwhole, List.cons_append,
          List.takeWhile_cons, hpoint]
        exact List.append_nil whole
      have hdrop : (whole ++ 46 :: digits ++ rest).drop whole.length = 46 :: (digits ++ rest) := by
        rw [List.append_assoc, List.drop_left]
        rfl
      have hfraction := length_le_takeWhile (List.prefix_append digits rest) hdigits
      have hpositive := List.length_pos_iff.mpr hsome
      unfold numberLength
      simp only [htake, hdrop, List.length_append, List.length_cons]
      split <;> omega

theorem IsNumeral.ne_nil {numeral : Bytes} (h : IsNumeral numeral) : numeral ≠ [] := by
  cases h with
  | whole hsome _ => exact hsome
  | fraction hwhole _ _ _ => simp [hwhole]

theorem IsNumeral.isDigit_head {b : UInt8} {rest : Bytes} (h : IsNumeral (b :: rest)) :
    isDigit b = true := by
  generalize hnumeral : b :: rest = numeral at h
  cases h with
  | whole _ hdigits =>
      subst hnumeral
      exact hdigits b List.mem_cons_self
  | @fraction whole digits hsome hwhole _ _ =>
      cases whole with
      | nil => exact absurd rfl hsome
      | cons c whole =>
          obtain ⟨rfl, _⟩ := List.cons.inj hnumeral
          exact hwhole b List.mem_cons_self

theorem Spells.ne_nil {kind : Kind} {word : Bytes} (h : Spells kind word) : word ≠ [] := by
  cases h with
  | keyword word => cases word <;> exact List.cons_ne_nil _ _
  | identifier h _ =>
      cases h
      exact List.cons_ne_nil _ _
  | number h => exact h.ne_nil
  | string _ => exact List.cons_ne_nil _ _
  | mark h =>
      have hall : ∀ m ∈ marks, m.2 ≠ [] := by decide
      exact hall _ h

/-- What a token is can be told by its first byte. -/
inductive Leads : Kind → UInt8 → Bytes → Prop where
  | word {b rest} (hstart : isNameStart b = true) (h : IsWord (b :: rest)) :
      Leads ((Keyword.ofSpelling? (b :: rest)).elim .identifier .keyword) b rest
  | number {b rest} (hstart : isDigit b = true) (h : IsNumeral (b :: rest)) :
      Leads .number b rest
  | string {rest inner} (h : 34 ∉ inner) (hrest : rest = inner ++ [34]) : Leads .string 34 rest
  | mark {kind b rest} (h : (kind, b :: rest) ∈ marks) : Leads kind b rest

theorem IsWord.leads {b : UInt8} {rest : Bytes} (h : IsWord (b :: rest)) :
    Leads ((Keyword.ofSpelling? (b :: rest)).elim .identifier .keyword) b rest := by
  cases h with
  | word hstart hrest => exact .word hstart (.word hstart hrest)

theorem Spells.leads {kind : Kind} {b : UInt8} {rest : Bytes} (h : Spells kind (b :: rest)) :
    Leads kind b rest := by
  generalize htext : b :: rest = text at h
  cases h with
  | keyword word =>
      have hword := isWord_spelling word
      have hkind : (Keyword.ofSpelling? word.spelling).elim .identifier .keyword =
          Kind.keyword word := by
        rw [ofSpelling?_eq_some_iff.mpr rfl]
        rfl
      rw [← htext] at hword hkind
      exact hkind ▸ hword.leads
  | identifier h hreserved =>
      have hnone : Keyword.ofSpelling? text = none := by
        cases hfound : Keyword.ofSpelling? text with
        | none => rfl
        | some word => exact absurd (ofSpelling?_eq_some_iff.mp hfound).symm (hreserved word)
      subst htext
      have hleads := h.leads
      rw [hnone] at hleads
      exact hleads
  | number h =>
      subst htext
      exact .number h.isDigit_head h
  | string h =>
      obtain ⟨rfl, rfl⟩ := List.cons.inj htext
      exact .string h rfl
  | mark h =>
      subst htext
      exact .mark h

theorem isNamePart_of_isNameStart {b : UInt8} (h : isNameStart b = true) : isNamePart b = true := by
  rw [isNamePart, h]
  rfl

theorem IsWord.isNamePart {text : Bytes} (h : IsWord text) : ∀ b ∈ text, isNamePart b = true := by
  cases h with
  | word hstart hrest => exact List.forall_mem_cons.mpr ⟨isNamePart_of_isNameStart hstart, hrest⟩

theorem isDigit_of_isNameStart {b : UInt8} (h : isNameStart b = true) : isDigit b = false := by
  unfold isNameStart isDigit at *
  grind

/-- The first bytes of the marks start no other token. -/
theorem head_of_mem_marks {kind : Kind} {b : UInt8} {rest : Bytes}
    (h : (kind, b :: rest) ∈ marks) : isNameStart b = false ∧ isDigit b = false ∧ b ≠ 34 := by
  have hall : ∀ m ∈ marks, ∀ c ∈ m.2.head?,
      isNameStart c = false ∧ isDigit c = false ∧ c ≠ 34 := by decide +kernel
  exact hall _ h b rfl

/-- The kind of a token can be told by its spelling. -/
theorem Spells.kind_eq {kind kind' : Kind} {word : Bytes} (h : Spells kind word)
    (h' : Spells kind' word) : kind = kind' := by
  cases word with
  | nil => exact absurd rfl h.ne_nil
  | cons b rest =>
      have hmarks : ∀ m ∈ marks, ∀ m' ∈ marks, m.2 = m'.2 → m.1 = m'.1 := by decide
      have hleads := h.leads
      have hleads' := h'.leads
      cases hleads with
      | word hstart _ =>
          cases hleads' with
          | word => rfl
          | number hdigit => simp [isDigit_of_isNameStart hstart] at hdigit
          | string => cases hstart
          | mark hmark => simp [(head_of_mem_marks hmark).1] at hstart
      | number hdigit _ =>
          cases hleads' with
          | word hstart => simp [isDigit_of_isNameStart hstart] at hdigit
          | number => rfl
          | string => cases hdigit
          | mark hmark => simp [(head_of_mem_marks hmark).2.1] at hdigit
      | string _ =>
          cases hleads' with
          | word hstart => cases hstart
          | number hdigit => cases hdigit
          | string => rfl
          | mark hmark => exact absurd rfl (head_of_mem_marks hmark).2.2
      | mark hmark =>
          cases hleads' with
          | word hstart => simp [(head_of_mem_marks hmark).1] at hstart
          | number hdigit => simp [(head_of_mem_marks hmark).2.1] at hdigit
          | string => exact absurd rfl (head_of_mem_marks hmark).2.2
          | mark hmark' => exact hmarks _ hmark _ hmark' rfl

theorem Spells.ne_eof {kind : Kind} {word : Bytes} (h : Spells kind word) : kind ≠ .eof := by
  rintro rfl
  cases h with
  | mark h =>
      have hall : ∀ m ∈ marks, m.1 ≠ .eof := by decide
      exact hall _ h rfl

theorem spells_keyword_iff {kind : Kind} {text : Bytes} (h : Spells kind text) (word : Keyword) :
    kind = .keyword word ↔ text = word.spelling := by
  constructor
  · rintro rfl
    cases h with
    | keyword => rfl
    | mark h =>
        have hall : ∀ m ∈ marks, m.1.keyword? = none := by decide
        exact nomatch hall _ h
  · rintro rfl
    exact h.kind_eq (.keyword word)

/-! ## What starts a text -/

theorem Spells.exists_cons {kind : Kind} {word rest : Bytes} {b : UInt8} (h : Spells kind word)
    (hstarts : word <+: b :: rest) : ∃ tail, word = b :: tail ∧ tail <+: rest := by
  cases word with
  | nil => exact absurd rfl h.ne_nil
  | cons c tail =>
      obtain ⟨rfl, htail⟩ := List.cons_prefix_cons.mp hstarts
      exact ⟨tail, rfl, htail⟩

theorem longest_take {kind : Kind} {width : Nat} {text : Bytes}
    (hspells : Spells kind (text.take width)) (hwidth : width ≤ text.length)
    (h : ∀ kind' other, Spells kind' other → other <+: text → other.length ≤ width) :
    Longest kind (text.take width) text where
  spells := hspells
  starts := List.take_prefix width text
  longest kind' other hother hstarts := by
    rw [List.length_take, Nat.min_eq_left hwidth]
    exact h kind' other hother hstarts

section First

variable {b : UInt8} {rest : Bytes}

theorem longest_word (hstart : isNameStart b = true) :
    Longest ((Keyword.ofSpelling? ((b :: rest).takeWhile isNamePart)).elim .identifier .keyword)
      ((b :: rest).take ((b :: rest).takeWhile isNamePart).length) (b :: rest) := by
  refine longest_take ?_ (List.takeWhile_prefix _).length_le ?_
  · rw [take_length_takeWhile]
    refine spells_word ?_
    rw [List.takeWhile_cons, isNamePart_of_isNameStart hstart]
    exact .word hstart fun c hc => List.mem_takeWhile_imp hc
  · intro kind other hother hstarts
    obtain ⟨tail, rfl, _⟩ := hother.exists_cons hstarts
    cases hother.leads with
    | word _ hword => exact length_le_takeWhile hstarts hword.isNamePart
    | number hdigit => simp [isDigit_of_isNameStart hstart] at hdigit
    | string => cases hstart
    | mark hmark => simp [(head_of_mem_marks hmark).1] at hstart

theorem longest_numeral (hdigit : isDigit b = true) :
    Longest .number ((b :: rest).take (numberLength (b :: rest))) (b :: rest) := by
  refine longest_take (.number (isNumeral_take hdigit)) (numberLength_bounds _).2 ?_
  intro kind other hother hstarts
  obtain ⟨tail, rfl, _⟩ := hother.exists_cons hstarts
  cases hother.leads with
  | word hstart => simp [isDigit_of_isNameStart hstart] at hdigit
  | number _ hnumeral => exact hnumeral.length_le hstarts
  | string => cases hdigit
  | mark hmark => simp [(head_of_mem_marks hmark).2.1] at hdigit

/-- A quote and a text without quotes, up to the first quote after it. -/
theorem takeWhile_quote {inner rest : Bytes} (h : 34 ∉ inner) (hstarts : inner ++ [34] <+: rest) :
    rest.takeWhile (· ≠ 34) = inner := by
  obtain ⟨more, rfl⟩ := hstarts
  have hinner : ∀ c ∈ inner, decide (c ≠ 34) = true := fun c hc =>
    decide_eq_true fun heq => h (heq ▸ hc)
  rw [List.append_assoc, List.takeWhile_append_of_pos hinner, List.singleton_append,
    List.takeWhile_cons]
  exact List.append_nil inner

theorem quote_notMem_takeWhile (text : Bytes) : 34 ∉ text.takeWhile (· ≠ 34) := by
  intro hmem
  have hne := List.mem_takeWhile_imp hmem
  exact absurd rfl (of_decide_eq_true hne)

theorem exists_of_takeWhile_lt (h : (rest.takeWhile (· ≠ 34)).length < rest.length) :
    ∃ more, rest = rest.takeWhile (· ≠ 34) ++ 34 :: more := by
  have hdrop := drop_length_takeWhile (· ≠ 34) rest
  have hhead := List.head?_dropWhile_not (fun b : UInt8 => decide (b ≠ 34)) rest
  cases hafter : rest.dropWhile (· ≠ 34) with
  | nil =>
      rw [hafter] at hdrop
      exact absurd (List.drop_eq_nil_iff.mp hdrop) (Nat.not_le_of_lt h)
  | cons c more =>
      rw [hafter] at hhead
      obtain rfl : c = 34 := by simpa using hhead
      exact ⟨more, by rw [← hafter, List.takeWhile_append_dropWhile]⟩

/-- A string that starts a text is closed by the first quote after the opening one. -/
theorem Spells.of_quote {kind : Kind} {tail : Bytes} (h : Spells kind (34 :: tail))
    (hstarts : tail <+: rest) :
    kind = .string ∧ tail = rest.takeWhile (· ≠ 34) ++ [34] := by
  cases h.leads with
  | word hstart => cases hstart
  | number hdigit => cases hdigit
  | string hinner htail =>
      subst htail
      exact ⟨rfl, congrArg (· ++ [34]) (takeWhile_quote hinner hstarts).symm⟩
  | mark hmark => exact absurd rfl (head_of_mem_marks hmark).2.2

theorem longest_string {kind : Kind} (h : (stringHead rest).1 = .token kind) :
    Longest kind ((34 :: rest).take (stringHead rest).2) (34 :: rest) := by
  obtain rfl := stringHead_kind h
  have hwidth := (stringHead_width h).2
  unfold stringHead at h hwidth ⊢
  dsimp only at h hwidth ⊢
  split at h
  next hclosed =>
    rw [if_pos hclosed] at hwidth ⊢
    have hquote := quote_notMem_takeWhile rest
    refine longest_take ?_ hwidth ?_
    · obtain ⟨more, hrest⟩ := exists_of_takeWhile_lt hclosed
      generalize rest.takeWhile (· ≠ 34) = inner at hquote hrest ⊢
      subst hrest
      rw [List.take_succ_cons, List.take_length_add_append, List.take_succ_cons, List.take_zero]
      exact .string hquote
    · intro kind' other hother hstarts
      obtain ⟨tail, rfl, htail⟩ := hother.exists_cons hstarts
      rw [(hother.of_quote htail).2]
      simp
  next => cases h

/-- What starts with the first byte of a mark is a mark. -/
theorem Spells.of_mark {kind kind' : Kind} {tail tail' : Bytes} (hmark : (kind, b :: tail) ∈ marks)
    (h : Spells kind' (b :: tail')) : (kind', b :: tail') ∈ marks := by
  obtain ⟨hstart, hdigit, hquote⟩ := head_of_mem_marks hmark
  cases h.leads with
  | word hletter =>
      rw [hstart] at hletter
      cases hletter
  | number hnumeral =>
      rw [hdigit] at hnumeral
      cases hnumeral
  | string => exact absurd rfl hquote
  | mark h => exact h

theorem longest_mark {kind : Kind} (h : (kind, [b]) ∈ marks)
    (honly : ∀ m ∈ marks, m.2.head? = some b → m.2.length ≤ 1) :
    Longest kind ((b :: rest).take 1) (b :: rest) := by
  refine longest_take (.mark h) (Nat.succ_le_succ (Nat.zero_le _)) ?_
  intro kind' other hother hstarts
  obtain ⟨tail, rfl, _⟩ := hother.exists_cons hstarts
  exact honly _ (hother.of_mark h) rfl

theorem longest_operator {kind long short : Kind} (hlong : (long, [b, 61]) ∈ marks)
    (hshort : (short, [b]) ∈ marks)
    (honly : ∀ m ∈ marks, m.2.head? = some b → m.2 = [b] ∨ m.2 = [b, 61])
    (h : (operatorHead rest long short).1 = .token kind) :
    Longest kind ((b :: rest).take (operatorHead rest long short).2) (b :: rest) := by
  unfold operatorHead at h ⊢
  split at h
  next hequals =>
    cases h
    rw [if_pos hequals]
    obtain ⟨more, rfl⟩ := List.head?_eq_some_iff.mp hequals
    refine longest_take (.mark hlong) (Nat.le_add_left _ _) ?_
    intro kind' other hother hstarts
    obtain ⟨tail, rfl, _⟩ := hother.exists_cons hstarts
    rcases honly _ (hother.of_mark hshort) rfl with hspelling | hspelling <;>
      exact Nat.le_trans (Nat.le_of_eq (congrArg List.length hspelling)) (by simp)
  next hequals =>
    cases h
    rw [if_neg hequals]
    refine longest_take (.mark hshort) (Nat.le_add_left _ _) ?_
    intro kind' other hother hstarts
    obtain ⟨tail, rfl, htail⟩ := hother.exists_cons hstarts
    rcases honly _ (hother.of_mark hshort) rfl with hspelling | hspelling
    · exact Nat.le_of_eq (congrArg List.length hspelling)
    · obtain rfl : tail = [61] := (List.cons.inj hspelling).2
      obtain ⟨more, rfl⟩ := htail
      exact absurd rfl hequals

/-- The head of a text is the longest token that starts it. -/
theorem longest_head {kind : Kind} (h : (head b rest).1 = .token kind) :
    Longest kind ((b :: rest).take (head b rest).2) (b :: rest) := by
  unfold head at h ⊢
  split at h
  next hstart =>
    rw [if_pos hstart]
    have hlongest := @longest_word b rest hstart
    dsimp only at h ⊢
    cases hword : Keyword.ofSpelling? ((b :: rest).takeWhile isNamePart) <;>
      · rw [hword] at h hlongest
        cases h
        exact hlongest
  next hstart =>
    rw [if_neg hstart]
    split at h
    next hdigit =>
      rw [if_pos hdigit]
      cases h
      exact longest_numeral hdigit
    next hdigit =>
      rw [if_neg hdigit]
      split at h
      case h_1 => exact longest_string h
      case h_17 => exact absurd h (faultHead_ne_token _ _ _)
      all_goals
        first
          | cases h
            exact longest_mark (by decide) (by decide)
          | exact longest_operator (by decide) (by decide) (by decide) h

theorem scalar?_width {text : Bytes} {code width : Nat}
    (h : Bytes.scalar? text = some (code, width)) : 1 ≤ width ∧ width ≤ text.length := by
  unfold Bytes.scalar? at h
  grind

theorem stringHead_fault {cause : Fault} (h : (stringHead rest).1 = .fault cause) :
    ¬ StartsToken (34 :: rest) ∧ cause = .unterminatedString ∧ 34 ∉ rest ∧
      (stringHead rest).2 = rest.length + 1 := by
  have hle : (rest.takeWhile (· ≠ 34)).length ≤ rest.length :=
    (List.takeWhile_prefix _).length_le
  unfold stringHead at h ⊢
  dsimp only at h ⊢
  split at h
  next => cases h
  next hopen =>
    cases h
    have hlength := Nat.le_antisymm hle (Nat.le_of_not_lt hopen)
    rw [if_neg hopen, hlength]
    refine ⟨?_, rfl, ?_, rfl⟩
    · rintro ⟨kind, word, hspells, hstarts⟩
      obtain ⟨tail, rfl, htail⟩ := hspells.exists_cons hstarts
      rw [(hspells.of_quote htail).2] at htail
      have hlonger := htail.length_le
      rw [List.length_append] at hlonger
      exact hopen hlonger
    · intro hmem
      rw [← (List.takeWhile_prefix _).eq_of_length hlength] at hmem
      exact quote_notMem_takeWhile rest hmem

theorem faulty_of_quote {cause : Fault} (h : (stringHead rest).1 = .fault cause) :
    Faulty cause ((34 :: rest).take (stringHead rest).2)
      ((34 :: rest).drop (stringHead rest).2) := by
  obtain ⟨_, rfl, hquote, hwidth⟩ := stringHead_fault h
  rw [hwidth, List.take_succ_cons, List.take_length, List.drop_succ_cons, List.drop_length]
  exact .unterminatedString hquote

theorem faulty_of_character {cause : Fault} (hb : b ≠ 34)
    (h : (faultHead (b :: rest) b).1 = .fault cause) :
    Faulty cause ((b :: rest).take (faultHead (b :: rest) b).2)
      ((b :: rest).drop (faultHead (b :: rest) b).2) := by
  unfold faultHead at h ⊢
  split at h
  next code width hscalar =>
    cases h
    obtain ⟨hpositive, hwidth⟩ := scalar?_width hscalar
    obtain ⟨n, rfl⟩ := Nat.exists_eq_add_of_le' hpositive
    refine .unexpectedCharacter (fun hhead => hb (Option.some.inj hhead)) ?_
    rw [List.take_append_drop, List.length_take, Nat.min_eq_left hwidth]
    exact hscalar
  next hscalar =>
    cases h
    exact .invalidByte hscalar

theorem faultHead_width : (faultHead (b :: rest) b).2 ≤ rest.length + 1 := by
  unfold faultHead
  split
  next hscalar => exact (scalar?_width hscalar).2
  next => exact Nat.le_add_left _ _

theorem not_startsToken (hstart : isNameStart b = false) (hdigit : isDigit b = false)
    (hquote : b ≠ 34) (hmarks : ∀ m ∈ marks, m.2.head? ≠ some b) : ¬ StartsToken (b :: rest) := by
  rintro ⟨kind, word, hspells, hstarts⟩
  obtain ⟨tail, rfl, _⟩ := hspells.exists_cons hstarts
  cases hspells.leads with
  | word hletter =>
      rw [hstart] at hletter
      cases hletter
  | number hnumeral =>
      rw [hdigit] at hnumeral
      cases hnumeral
  | string => exact hquote rfl
  | mark h => exact hmarks _ h rfl

/-- A fault at the head of a text stands where no token starts. -/
theorem head_fault {cause : Fault} (h : (head b rest).1 = .fault cause) :
    ¬ StartsToken (b :: rest) ∧
      Faulty cause ((b :: rest).take (head b rest).2) ((b :: rest).drop (head b rest).2) ∧
      (head b rest).2 ≤ rest.length + 1 := by
  unfold head at h ⊢
  split at h
  next =>
    dsimp only at h
    split at h <;> cases h
  next hstart =>
    rw [if_neg hstart]
    split at h
    next => cases h
    next hdigit =>
      rw [if_neg hdigit]
      split at h
      case h_1 =>
        obtain ⟨hnone, _, _, hwidth⟩ := stringHead_fault h
        exact ⟨hnone, faulty_of_quote h, Nat.le_of_eq hwidth⟩
      case h_17 =>
        have hheads : ∀ m ∈ marks, ∀ c ∈ m.2.head?,
            c ∈ [40, 41, 123, 125, 44, 46, 59, 43, 45, 42, 47, 33, 61, 60, 62] := by decide +kernel
        have hmarks : ∀ m ∈ marks, m.2.head? ≠ some b := fun m hm hhead => by
          have hmem := hheads m hm b hhead
          simp_all
        have hquote : b ≠ 34 := by assumption
        exact ⟨not_startsToken (Bool.eq_false_iff.mpr hstart) (Bool.eq_false_iff.mpr hdigit)
          hquote hmarks, faulty_of_character hquote h, faultHead_width⟩
      all_goals
        first
          | cases h
          | unfold operatorHead at h
            split at h <;> cases h

theorem Faulty.ne_nil {cause : Fault} {text after : Bytes} (h : Faulty cause text after) :
    text ≠ [] := by
  cases h with
  | unterminatedString => exact List.cons_ne_nil _ _
  | invalidByte => exact List.cons_ne_nil _ _
  | unexpectedCharacter _ hscalar => exact List.length_pos_iff.mp (scalar?_width hscalar).1

/-- The cause of a fault, and how far it reaches. -/
theorem Faulty.faultHead_eq {cause : Fault} {text after : Bytes} (h : Faulty cause text after)
    (hhead : (text ++ after).head? = some b) :
    if b = 34 then cause = .unterminatedString ∧ after = []
    else faultHead (text ++ after) b = (.fault cause, text.length) := by
  cases h with
  | unterminatedString =>
      have hb : b = 34 := (Option.some.inj hhead).symm
      rw [if_pos hb]
      exact ⟨rfl, rfl⟩
  | @invalidByte c after hscalar =>
      obtain rfl : c = b := Option.some.inj hhead
      have hb : ¬ c = 34 := by
        rintro rfl
        cases hscalar
      rw [if_neg hb, faultHead, List.singleton_append, hscalar]
      rfl
  | @unexpectedCharacter code text after hquote hscalar =>
      obtain ⟨c, tail, rfl⟩ := List.exists_cons_of_length_pos (scalar?_width hscalar).1
      obtain rfl : c = b := Option.some.inj hhead
      have hb : ¬ c = 34 := fun hb => hquote (congrArg some hb)
      rw [if_neg hb, faultHead, hscalar]
      dsimp only
      rw [List.take_left]

/-- What is skipped can be told by the text. -/
theorem Faulty.unique {cause cause' : Fault} {text after text' after' : Bytes}
    (h : Faulty cause text after) (h' : Faulty cause' text' after')
    (heq : text ++ after = text' ++ after') : cause = cause' ∧ text = text' := by
  obtain ⟨b, tail, rfl⟩ := List.exists_cons_of_ne_nil h.ne_nil
  have hhead : (b :: tail ++ after).head? = some b := rfl
  have hfault := h.faultHead_eq hhead
  have hfault' := h'.faultHead_eq (heq ▸ hhead)
  split at hfault
  next hb =>
    rw [if_pos hb] at hfault'
    rw [hfault.2, hfault'.2, List.append_nil, List.append_nil] at heq
    exact ⟨hfault.1.trans hfault'.1.symm, heq⟩
  next hb =>
    rw [if_neg hb, ← heq, hfault, Prod.mk.injEq] at hfault'
    exact ⟨Content.fault.inj hfault'.1, List.append_inj_left heq hfault'.2⟩

end First

/-! ## White space in tokens -/

section Space

variable {b : UInt8} {kind kind' : Kind} {word tail : Bytes}

theorem IsNumeral.isDigit_or_point {numeral : Bytes} (h : IsNumeral numeral) :
    ∀ b ∈ numeral, isDigit b = true ∨ b = 46 := by
  intro b hb
  cases h with
  | whole _ hdigits => exact .inl (hdigits b hb)
  | fraction _ hwhole _ hdigits =>
      rcases List.mem_append.mp hb with hb | hb
      · exact .inl (hwhole b hb)
      · exact (List.mem_cons.mp hb).symm.imp_left (hdigits b)

theorem isNamePart_of_isSpace (h : isSpace b = true) : isNamePart b = false := by
  unfold isSpace at h
  unfold isNamePart isNameStart isDigit
  grind

theorem isDigit_of_isSpace (h : isSpace b = true) : isDigit b = false := by
  have hpart := isNamePart_of_isSpace h
  rw [isNamePart, Bool.or_eq_false_iff] at hpart
  exact hpart.2

/-- No token but a string has white space in it. -/
theorem Spells.head_of_space (h : Spells kind word) (hspace : isSpace b = true) (hmem : b ∈ word) :
    word.head? = some 34 := by
  obtain ⟨c, rest, rfl⟩ := List.exists_cons_of_ne_nil h.ne_nil
  cases h.leads with
  | word _ hword =>
      have hpart := hword.isNamePart b hmem
      rw [isNamePart_of_isSpace hspace] at hpart
      cases hpart
  | number _ hnumeral =>
      rcases hnumeral.isDigit_or_point b hmem with hdigit | rfl
      · rw [isDigit_of_isSpace hspace] at hdigit
        cases hdigit
      · cases hspace
  | string => rfl
  | mark hmark =>
      have hall : ∀ m ∈ marks, ∀ c ∈ m.2, isSpace c = false := by decide +kernel
      rw [hall _ hmark b hmem] at hspace
      cases hspace

/-- A token that goes on behind another one has no white space there. -/
theorem Spells.no_space_behind (h : Spells kind word) (h' : Spells kind' (word ++ tail))
    (hspace : isSpace b = true) : b ∉ tail := by
  intro hmem
  have hquote := h'.head_of_space hspace (List.mem_append_right word hmem)
  obtain ⟨c, rest, rfl⟩ := List.exists_cons_of_ne_nil h.ne_nil
  obtain rfl : c = 34 := Option.some.inj hquote
  -- Both are closed by the first quote after the opening one.
  have hword := (h.of_quote (List.prefix_append rest tail)).2
  have hlonger : rest ++ tail = (rest ++ tail).takeWhile (· ≠ 34) ++ [34] :=
    (h'.of_quote (List.prefix_refl _)).2
  obtain rfl := List.append_right_eq_self.mp (hlonger.trans hword.symm)
  cases hmem

end Space

end LoxMachine.Token
