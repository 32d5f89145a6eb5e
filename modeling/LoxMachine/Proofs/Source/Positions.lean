import LoxMachine.Proofs.Bytes.Boundaries
import LoxMachine.Report
import Mathlib.Data.List.GetD
import Mathlib.Data.List.Induction

/-!
# Positions in a source

The position of an offset is read off the text in front of it: the line feeds there, and the
characters behind the last one of them.  The line is searched among the starts of all lines, which
comes to the same as a walk through the text.  Where the offset stands at the start of a character,
what the line has in front of it is shown in front of the caret of a report.
-/

namespace LoxMachine

open Bytes

variable {before onLine rest : Bytes}

/-! ## Excerpts -/

/-- What a line has in front is in front of the line without its carriage return, or is the whole
line with it. -/
theorem Bytes.front_withoutReturn (front tail : Bytes) :
    front <+: withoutReturn (front ++ tail) ∨
      front = withoutReturn (front ++ tail) ++ [carriageReturn] := by
  unfold withoutReturn
  split
  next hreturn =>
    rcases List.eq_nil_or_concat tail with rfl | ⟨tail, last, rfl⟩
    · rw [List.append_nil] at hreturn ⊢
      obtain ⟨body, rfl⟩ := List.getLast?_eq_some_iff.mp hreturn
      exact .inr (by rw [List.dropLast_concat])
    · rw [List.concat_eq_append, ← List.append_assoc, List.dropLast_concat]
      exact .inl (List.prefix_append _ _)
  next => exact .inl (List.prefix_append _ _)

namespace Diagnostic

variable {d : Diagnostic} {src : Source}

theorem excerpt_of_source_none (h : d.range.source = none) : d.excerpt = [] := by
  rw [excerpt, h]

theorem excerpt_of_line_nil (h : d.range.source = some src)
    (hline : src.line (src.position d.range.start).1 = []) : d.excerpt = [] := by
  rw [excerpt, Range.position, h]
  dsimp only
  rw [hline]
  rfl

theorem excerpt_of_line_ne_nil (h : d.range.source = some src)
    (hline : src.line (src.position d.range.start).1 ≠ []) :
    d.excerpt = [utf8 "  " ++ src.line (src.position d.range.start).1,
      utf8 "  " ++ Bytes.spaces ((src.position d.range.start).2 - 1) ++ utf8 "^"] := by
  rw [excerpt, Range.position, h]
  exact if_neg fun hempty => hline (List.isEmpty_iff.mp hempty)

end Diagnostic

/-! ## Where the lines start -/

namespace Source

/-- An offset, with the lines before its line and what its line has in front of it. -/
structure Cut (text before onLine rest : Bytes) : Prop where
  text_eq : text = before ++ (onLine ++ rest)
  fresh : before = [] ∨ ∃ lines, before = lines ++ [lineFeed]
  unbroken : lineFeed ∉ onLine

theorem startsFrom_append (offset : Nat) (front rest : Bytes) :
    startsFrom offset (front ++ rest) =
      startsFrom offset front ++ startsFrom (offset + front.length) rest := by
  induction front generalizing offset with
  | nil => rfl
  | cons b front ih =>
      rw [List.cons_append, startsFrom, startsFrom, ih, List.length_cons, Nat.add_right_comm,
        Nat.add_assoc offset]
      split <;> rfl

theorem startsFrom_unbroken (h : lineFeed ∉ onLine) (offset : Nat) :
    startsFrom offset onLine = [] := by
  induction onLine generalizing offset with
  | nil => rfl
  | cons b onLine ih =>
      rw [startsFrom, if_neg fun hfeed : b = lineFeed => h (hfeed ▸ List.mem_cons_self)]
      exact ih (fun hmem => h (List.mem_cons_of_mem _ hmem)) _

theorem length_startsFrom (offset : Nat) (text : Bytes) :
    (startsFrom offset text).length = text.count lineFeed := by
  induction text generalizing offset with
  | nil => rfl
  | cons b text ih =>
      rw [startsFrom, List.count_cons]
      split
      next hfeed => rw [List.length_cons, ih, if_pos (beq_iff_eq.mpr hfeed)]
      next hother => rw [ih, if_neg fun heq => hother (beq_iff_eq.mp heq), Nat.add_zero]

theorem bounds_of_mem_startsFrom {start offset : Nat} {text : Bytes}
    (h : start ∈ startsFrom offset text) : offset < start ∧ start ≤ offset + text.length := by
  induction text generalizing offset with
  | nil => exact absurd h List.not_mem_nil
  | cons b text ih =>
      rw [List.length_cons]
      rw [startsFrom] at h
      have hlater : start ∈ startsFrom (offset + 1) text →
          offset < start ∧ start ≤ offset + (text.length + 1) := fun hmem => by
        have := ih hmem
        omega
      split at h
      · rcases List.mem_cons.mp h with rfl | hmem
        · omega
        · exact hlater hmem
      · exact hlater h

theorem size_lineStarts (src : Source) :
    src.lineStarts.size = src.text.count lineFeed + 1 := by
  rw [lineStarts, List.size_toArray, List.length_cons, length_startsFrom]

theorem getD_toArray {α : Type} (xs : List α) (i : Nat) (fallback : α) :
    xs.toArray.getD i fallback = xs.getD i fallback := by
  rw [Array.getD_eq_getD_getElem?, List.getElem?_toArray, List.getD_eq_getElem?_getD]

/-- The line starts of a text, parted at a cut: those of the lines before, the start of its line,
and those behind the offset. -/
theorem Cut.lineStarts {src : Source} (h : Cut src.text before onLine rest) :
    ∃ earlier, earlier.length = before.count lineFeed ∧ (∀ s ∈ earlier, s ≤ before.length) ∧
      src.lineStarts = (earlier ++ before.length ::
        startsFrom (before.length + onLine.length) rest).toArray := by
  have hbehind : startsFrom before.length (onLine ++ rest) =
      startsFrom (before.length + onLine.length) rest := by
    rw [startsFrom_append, startsFrom_unbroken h.unbroken, List.nil_append]
  unfold Source.lineStarts
  rw [h.text_eq, startsFrom_append, Nat.zero_add, hbehind]
  rcases h.fresh with rfl | ⟨lines, rfl⟩
  · exact ⟨[], rfl, fun _ hmem => absurd hmem List.not_mem_nil, rfl⟩
  · refine ⟨0 :: startsFrom 0 lines, ?_, fun s hmem => ?_, ?_⟩
    · rw [List.length_cons, length_startsFrom, List.count_append, List.count_singleton_self]
    · rcases List.mem_cons.mp hmem with rfl | hmem
      · exact Nat.zero_le _
      · have := (bounds_of_mem_startsFrom hmem).2
        rw [List.length_append]
        omega
    · rw [startsFrom_append, startsFrom, if_pos rfl, startsFrom, Nat.zero_add,
        List.length_append, List.length_singleton, List.cons_append, List.append_assoc,
        List.singleton_append]

theorem Cut.getD_lineStarts {src : Source} (h : Cut src.text before onLine rest) (k : Nat) :
    src.lineStarts.getD (before.count lineFeed + k) 0 =
      (before.length :: startsFrom (before.length + onLine.length) rest).getD k 0 := by
  obtain ⟨earlier, hcount, -, hstarts⟩ := h.lineStarts
  rw [hstarts, getD_toArray, ← hcount, List.getD_append_right _ _ _ _ (Nat.le_add_right _ _),
    Nat.add_sub_cancel_left]

/-- The number of a cut's line finds the start of the line. -/
theorem Cut.lineStart_eq {src : Source} (h : Cut src.text before onLine rest) :
    src.lineStarts.getD (before.count lineFeed) 0 = before.length :=
  h.getD_lineStarts 0

/-- Where a test fails below a place and holds from it on, halving finds the place. -/
theorem bisect_eq {test : Nat → Bool} {place : Nat} (hbelow : ∀ i < place, test i = false) :
    ∀ {steps low high : Nat}, low ≤ place → place ≤ high → high - low ≤ steps →
      (∀ i, place ≤ i → i < high → test i = true) → bisect test steps low high = place := by
  intro steps
  induction steps with
  | zero =>
      intro low high hlow hhigh hsteps _
      rw [bisect]
      omega
  | succ steps ih =>
      intro low high hlow hhigh hsteps habove
      rw [bisect]
      dsimp only
      split
      next hopen =>
        -- The half that is kept is at least one place narrower and has the place in it.
        by_cases hmiddle : place ≤ (low + high) / 2
        · rw [if_pos (habove _ hmiddle (by omega))]
          exact ih hlow hmiddle (by omega) fun i hi hlt => habove i hi (by omega)
        · rw [hbelow _ (Nat.lt_of_not_le hmiddle), if_neg Bool.false_ne_true]
          exact ih (by omega) hhigh (by omega) habove
      next hclosed => omega

/-- The search of a cut's offset among the line starts ends behind the start of its line. -/
theorem bisect_lineStarts {earlier later : List Nat} {start offset : Nat}
    (hearlier : ∀ s ∈ earlier, s ≤ offset) (hstart : start ≤ offset)
    (hlater : ∀ s ∈ later, offset < s) :
    let starts := (earlier ++ start :: later).toArray
    bisect (fun i => decide (offset < starts.getD i 0)) starts.size 0 starts.size =
      earlier.length + 1 := by
  intro starts
  have hget : ∀ i, starts.getD i 0 = (earlier ++ start :: later).getD i 0 :=
    fun i => getD_toArray _ i 0
  have hsize : starts.size = earlier.length + 1 + later.length := by
    rw [List.size_toArray, List.length_append, List.length_cons]
    omega
  refine bisect_eq (fun i hi => ?_) (Nat.zero_le _) (by omega) (by omega) fun i hi hlt => ?_
  · rw [hget, decide_eq_false_iff_not, Nat.not_lt]
    rcases Nat.lt_or_eq_of_le (Nat.le_of_lt_succ hi) with hlt | rfl
    · rw [List.getD_append _ _ _ _ hlt, List.getD_eq_getElem _ _ hlt]
      exact hearlier _ (List.getElem_mem hlt)
    · rw [List.getD_append_right _ _ _ _ (Nat.le_refl _), Nat.sub_self]
      exact hstart
  · obtain ⟨k, rfl⟩ := Nat.exists_eq_add_of_le hi
    have hk : k < later.length := by omega
    rw [hget, decide_eq_true_eq, List.getD_append_right _ _ _ _ (by omega),
      show earlier.length + 1 + k - earlier.length = k + 1 by omega, List.getD_cons_succ,
      List.getD_eq_getElem _ _ hk]
    exact hlater _ (List.getElem_mem hk)

/-- The position of the offset at a cut. -/
theorem Cut.position {src : Source} (h : Cut src.text before onLine rest) :
    src.position (before.length + onLine.length : Nat) =
      (before.count lineFeed + 1, charactersWithin onLine.length (onLine ++ rest) + 1) := by
  obtain ⟨earlier, hcount, hearlier, hstarts⟩ := h.lineStarts
  have hoffset : min (before.length + onLine.length) src.text.length =
      before.length + onLine.length := by
    rw [h.text_eq, List.length_append, List.length_append]
    omega
  have hlater : ∀ s ∈ startsFrom (before.length + onLine.length) rest,
      before.length + onLine.length < s :=
    fun s hs => (bounds_of_mem_startsFrom hs).1
  have hsearch := bisect_lineStarts (fun s hs => Nat.le_trans (hearlier s hs)
    (Nat.le_add_right _ onLine.length)) (Nat.le_add_right _ _) hlater
  rw [← hstarts, hcount] at hsearch
  rw [Source.position, Int.toNat_natCast, hoffset]
  rw [hsearch, Nat.add_sub_cancel, h.lineStart_eq, Nat.add_sub_cancel_left, h.text_eq,
    List.drop_left]

/-- An offset outside of the text counts as the nearer end. -/
theorem position_clamp (src : Source) (offset : Int) :
    src.position (min offset.toNat src.text.length : Nat) = src.position offset := by
  rw [Source.position, Source.position, Int.toNat_natCast, Nat.min_assoc, Nat.min_self]

/-- Each offset of a text is at a cut. -/
theorem exists_cut {text : Bytes} {offset : Nat} (h : offset ≤ text.length) :
    ∃ before onLine rest, Cut text before onLine rest ∧ before.length + onLine.length = offset := by
  have hlast : ∀ walked : Bytes, ∃ before onLine, walked = before ++ onLine ∧
      (before = [] ∨ ∃ lines, before = lines ++ [lineFeed]) ∧ lineFeed ∉ onLine := by
    intro walked
    induction walked using List.reverseRecOn with
    | nil => exact ⟨[], [], rfl, .inl rfl, List.not_mem_nil⟩
    | append_singleton walked b ih =>
        obtain ⟨before, onLine, rfl, hfresh, hunbroken⟩ := ih
        by_cases hfeed : b = lineFeed
        · subst hfeed
          exact ⟨before ++ onLine ++ [lineFeed], [], (List.append_nil _).symm, .inr ⟨_, rfl⟩,
            List.not_mem_nil⟩
        · refine ⟨before, onLine ++ [b], List.append_assoc _ _ _, hfresh, fun hmem => ?_⟩
          rcases List.mem_append.mp hmem with hmem | hmem
          · exact hunbroken hmem
          · exact hfeed (List.mem_singleton.mp hmem).symm
  obtain ⟨before, onLine, hwalked, hfresh, hunbroken⟩ := hlast (text.take offset)
  refine ⟨before, onLine, text.drop offset, ⟨?_, hfresh, hunbroken⟩, ?_⟩
  · rw [← List.append_assoc, ← hwalked, List.take_append_drop]
  · rw [← List.length_append, ← hwalked, List.length_take, Nat.min_eq_left h]

/-- What follows an offset, parted at the next line feed. -/
theorem exists_tail (rest : Bytes) : ∃ tail after, rest = tail ++ after ∧ lineFeed ∉ tail ∧
    (after = [] ∨ ∃ more, after = lineFeed :: more) := by
  by_cases hfeed : lineFeed ∈ rest
  · obtain ⟨tail, more, rfl, htail⟩ := List.eq_append_cons_of_mem hfeed
    exact ⟨tail, lineFeed :: more, rfl, htail, .inr ⟨more, rfl⟩⟩
  · exact ⟨rest, [], (List.append_nil _).symm, hfeed, .inl rfl⟩

/-- The line of the offset at a cut goes on to the next line feed. -/
theorem Cut.line {src : Source} {tail after : Bytes}
    (h : Cut src.text before onLine (tail ++ after)) (htail : lineFeed ∉ tail)
    (hafter : after = [] ∨ ∃ more, after = lineFeed :: more) :
    src.line (before.count lineFeed + 1 : Nat) = withoutReturn (onLine ++ tail) := by
  have hsize : src.lineStarts.size = before.count lineFeed + 1 + after.count lineFeed := by
    rw [size_lineStarts, h.text_eq, List.count_append, List.count_append, List.count_append,
      List.count_eq_zero.mpr h.unbroken, List.count_eq_zero.mpr htail]
    omega
  have hnext := h.getD_lineStarts 1
  rw [startsFrom_append, startsFrom_unbroken htail, List.nil_append] at hnext
  rw [Source.line, if_neg (by omega), Int.toNat_natCast, Nat.add_sub_cancel]
  dsimp only
  rw [h.lineStart_eq, hnext, h.text_eq, List.drop_left, ← List.append_assoc onLine]
  congr 1
  rcases hafter with rfl | ⟨more, rfl⟩
  · rw [if_neg (by rw [hsize, List.count_nil]; omega), List.append_nil, List.length_append,
      Nat.add_sub_cancel_left, List.take_length]
  · rw [if_pos (by rw [hsize, List.count_cons_self]; omega), startsFrom, if_pos rfl,
      List.getD_cons_succ, List.getD_cons_zero, Nat.add_sub_cancel, Nat.add_assoc,
      Nat.add_sub_cancel_left, ← List.length_append, List.take_left]

/-- Where the line of an offset starts: there is no line feed between the two. -/
structure LineStart (text : Bytes) (offset start : Nat) : Prop where
  le : start ≤ offset
  fresh : start = 0 ∨ (text.take start).getLast? = some lineFeed
  unbroken : lineFeed ∉ (text.drop start).take (offset - start)

theorem Cut.lineStart {text : Bytes} (h : Cut text before onLine rest) :
    LineStart text (before.length + onLine.length) before.length where
  le := Nat.le_add_right _ _
  fresh := by
    rw [h.text_eq, List.take_left]
    rcases h.fresh with rfl | ⟨lines, rfl⟩
    · exact .inl rfl
    · exact .inr List.getLast?_concat
  unbroken := by
    rw [h.text_eq, List.drop_left, Nat.add_sub_cancel_left, List.take_left]
    exact h.unbroken

theorem LineStart.front_append {text : Bytes} {offset start : Nat}
    (h : LineStart text offset start) :
    (text.drop start).take (offset - start) ++ text.drop offset = text.drop start := by
  have hsplit := (text.drop start).take_append_drop (offset - start)
  rwa [List.drop_drop, Nat.add_sub_cancel' h.le] at hsplit

theorem LineStart.cut {text : Bytes} {offset start : Nat} (h : LineStart text offset start) :
    Cut text (text.take start) ((text.drop start).take (offset - start)) (text.drop offset) where
  text_eq := by rw [h.front_append, List.take_append_drop]
  fresh := by
    rcases h.fresh with rfl | hfeed
    · exact .inl (List.take_zero)
    · exact .inr (List.getLast?_eq_some_iff.mp hfeed)
  unbroken := h.unbroken

/-- The line of an offset is told by the line feeds in front of it. -/
theorem position_line {src : Source} {offset : Nat} (h : offset ≤ src.text.length) :
    (src.position offset).1 = 1 + (src.text.take offset).count lineFeed := by
  obtain ⟨before, onLine, rest, hcut, rfl⟩ := exists_cut h
  rw [hcut.position, hcut.text_eq, ← List.append_assoc, ← List.length_append, List.take_left,
    List.count_append, List.count_eq_zero.mpr hcut.unbroken, Nat.add_zero]
  exact Nat.add_comm _ 1

/-- Going on in a text, one comes to later lines, or to later columns of the same line. -/
theorem position_mono (src : Source) {offset offset' : Nat} (hle : offset ≤ offset')
    (hend : offset' ≤ src.text.length) :
    (src.position offset).1 < (src.position offset').1 ∨
      ((src.position offset).1 = (src.position offset').1 ∧
        (src.position offset).2 ≤ (src.position offset').2) := by
  have hline := position_line hend
  have hline' := position_line (Nat.le_trans hle hend)
  obtain ⟨k, rfl⟩ := Nat.exists_eq_add_of_le hle
  rw [List.take_add, List.count_append] at hline
  by_cases hfeed : lineFeed ∈ (src.text.drop offset).take k
  · have hpos := List.count_pos_iff.mpr hfeed
    exact .inl (by omega)
  · obtain ⟨before, onLine, rest, hcut, rfl⟩ := exists_cut (Nat.le_trans hle hend)
    have hrest : src.text.drop (before.length + onLine.length) = rest := by
      rw [hcut.text_eq, ← List.append_assoc, ← List.length_append, List.drop_left]
    rw [hrest] at hfeed
    have hlength : (rest.take k).length = k := by
      rw [hcut.text_eq, List.length_append, List.length_append] at hend
      rw [List.length_take]
      omega
    have hcut' : Cut src.text before (onLine ++ rest.take k) (rest.drop k) := by
      refine ⟨?_, hcut.fresh, fun hmem => ?_⟩
      · rw [List.append_assoc, List.take_append_drop]
        exact hcut.text_eq
      · exact (List.mem_append.mp hmem).elim hcut.unbroken hfeed
    have hposition := hcut'.position
    rw [List.length_append, hlength, ← Nat.add_assoc, List.append_assoc,
      List.take_append_drop] at hposition
    rw [hcut.position, hposition]
    refine .inr ⟨rfl, Nat.succ_le_succ ?_⟩
    rw [charactersWithin_eq, charactersWithin_eq]
    exact List.countP_mono_left fun e _ he => decide_eq_true
      (Nat.le_trans (of_decide_eq_true he) (Nat.le_add_right _ _))

/-! ## Walking to an offset -/

/-- Walks `offset` bytes into a text and gives the number of the line reached, the bytes walked on
it, and the text from its start. -/
def walk : (line onLine : Nat) → (fromLine : Bytes) → (offset : Nat) → Bytes → Nat × Nat × Bytes
  | line, onLine, fromLine, 0, _ => (line, onLine, fromLine)
  | line, onLine, fromLine, _ + 1, [] => (line, onLine, fromLine)
  | line, onLine, fromLine, offset + 1, b :: rest =>
      if b = lineFeed then walk (line + 1) 0 rest offset rest
      else walk line (onLine + 1) fromLine offset rest

theorem walk_unbroken (h : lineFeed ∉ onLine) (line walked : Nat) (fromLine rest : Bytes) :
    walk line walked fromLine onLine.length (onLine ++ rest) =
      (line, walked + onLine.length, fromLine) := by
  induction onLine generalizing walked with
  | nil => rw [List.length_nil, walk, Nat.add_zero]
  | cons b onLine ih =>
      rw [List.length_cons, List.cons_append, walk,
        if_neg fun hfeed : b = lineFeed => h (hfeed ▸ List.mem_cons_self),
        ih fun hmem => h (List.mem_cons_of_mem _ hmem), Nat.add_assoc, Nat.add_comm 1]

/-- Behind a line feed the walk starts on a new line. -/
theorem walk_lines (lines : Bytes) (line walked : Nat) (fromLine : Bytes) (offset : Nat)
    (rest : Bytes) :
    walk line walked fromLine ((lines ++ [lineFeed]).length + offset)
        (lines ++ [lineFeed] ++ rest) =
      walk (line + (lines ++ [lineFeed]).count lineFeed) 0 rest offset rest := by
  induction lines generalizing line walked fromLine with
  | nil =>
      rw [List.nil_append, List.length_singleton, Nat.add_comm 1, List.singleton_append, walk,
        if_pos rfl, List.count_singleton_self]
  | cons b lines ih =>
      rw [List.cons_append, List.length_cons, Nat.add_right_comm, List.cons_append, walk,
        List.count_cons]
      split
      next hfeed => rw [ih, if_pos (beq_iff_eq.mpr hfeed), Nat.add_right_comm, Nat.add_assoc]
      next hother => rw [ih, if_neg fun heq => hother (beq_iff_eq.mp heq), Nat.add_zero]

theorem Cut.walk {text : Bytes} (h : Cut text before onLine rest) :
    walk 1 0 text (before.length + onLine.length) text =
      (before.count lineFeed + 1, onLine.length, onLine ++ rest) := by
  rw [h.text_eq]
  rcases h.fresh with rfl | ⟨lines, rfl⟩
  · rw [List.nil_append, List.length_nil, Nat.zero_add, walk_unbroken h.unbroken, Nat.zero_add]
    rfl
  · rw [walk_lines, walk_unbroken h.unbroken, Nat.zero_add, Nat.add_comm 1]

/-- The line that the search among the line starts finds is the one that a walk from the start of
the text comes to. -/
theorem position_eq_walk (src : Source) (offset : Int) :
    src.position offset =
      let (line, onLine, fromLine) :=
        walk 1 0 src.text (min offset.toNat src.text.length) src.text
      (line, charactersWithin onLine fromLine + 1) := by
  obtain ⟨before, onLine, rest, hcut, hoffset⟩ :=
    exists_cut (Nat.min_le_right offset.toNat src.text.length)
  rw [← position_clamp, ← hoffset, hcut.position, hcut.walk]

/-! ## Splitting at line feeds -/

/-- The parts between the line feeds of a text: one more than it has of them. -/
def lines : Bytes → List Bytes
  | [] => [[]]
  | b :: rest =>
      if b = lineFeed then [] :: lines rest
      else
        match lines rest with
        | [] => [[b]]
        | line :: more => (b :: line) :: more

theorem lines_ne_nil (text : Bytes) : lines text ≠ [] := by
  cases text with
  | nil => exact List.cons_ne_nil _ _
  | cons b text =>
      rw [lines]
      split
      · exact List.cons_ne_nil _ _
      · split <;> exact List.cons_ne_nil _ _

/-- The lines of a text with a line feed are those in front of it and those behind it. -/
theorem lines_append (before rest : Bytes) :
    lines (before ++ lineFeed :: rest) = lines before ++ lines rest := by
  induction before with
  | nil => rfl
  | cons b before ih =>
      rw [List.cons_append, lines, lines, ih]
      split
      · rfl
      · obtain ⟨first, more, hlines⟩ := List.exists_cons_of_ne_nil (lines_ne_nil before)
        rw [hlines]
        rfl

theorem length_lines (text : Bytes) : (lines text).length = text.count lineFeed + 1 := by
  induction text with
  | nil => rfl
  | cons b text ih =>
      rw [lines, List.count_cons]
      split
      next hfeed => rw [List.length_cons, ih, if_pos (beq_iff_eq.mpr hfeed)]
      next hother =>
        obtain ⟨first, more, hlines⟩ := List.exists_cons_of_ne_nil (lines_ne_nil text)
        rw [hlines] at ih ⊢
        rw [if_neg (fun heq => hother (beq_iff_eq.mp heq)), Nat.add_zero, ← ih]
        rfl

/-- A text begins with the line that goes on to its first line feed. -/
theorem lines_of_unbroken {tail after : Bytes} (h : lineFeed ∉ tail)
    (hafter : after = [] ∨ ∃ more, after = lineFeed :: more) :
    ∃ others, lines (tail ++ after) = tail :: others := by
  have hone : lines tail = [tail] := by
    induction tail with
    | nil => rfl
    | cons b tail ih =>
        rw [lines, if_neg fun hfeed : b = lineFeed => h (hfeed ▸ List.mem_cons_self),
          ih fun hmem => h (List.mem_cons_of_mem _ hmem)]
  rcases hafter with rfl | ⟨more, rfl⟩
  · exact ⟨[], by rw [List.append_nil, hone]⟩
  · exact ⟨lines more, by rw [lines_append, hone, List.singleton_append]⟩

/-- Each line of a text starts at a cut. -/
theorem exists_line_cut {text : Bytes} {n : Nat} (h : n ≤ text.count lineFeed) :
    ∃ before rest, Cut text before [] rest ∧ before.count lineFeed = n := by
  induction n with
  | zero => exact ⟨[], text, ⟨rfl, .inl rfl, List.not_mem_nil⟩, rfl⟩
  | succ n ih =>
      obtain ⟨before, rest, hcut, rfl⟩ := ih (Nat.le_of_succ_le h)
      have htext := hcut.text_eq
      rw [List.nil_append] at htext
      rw [htext, List.count_append] at h
      have hfeed : lineFeed ∈ rest := List.count_pos_iff.mp (by omega)
      obtain ⟨onLine, more, rfl, honLine⟩ := List.eq_append_cons_of_mem hfeed
      refine ⟨before ++ onLine ++ [lineFeed], more, ⟨?_, .inr ⟨_, rfl⟩, List.not_mem_nil⟩, ?_⟩
      · rw [htext, List.nil_append, List.append_assoc, List.append_assoc]
        rfl
      · rw [List.count_append, List.count_append, List.count_eq_zero.mpr honLine,
          List.count_singleton_self]

/-- The lines that are sliced out of a text are the parts between its line feeds. -/
theorem line_eq_lines (src : Source) (n : Nat) :
    src.line (n + 1 : Nat) = withoutReturn ((lines src.text).getD n []) := by
  by_cases hn : n ≤ src.text.count lineFeed
  · obtain ⟨before, rest, hcut, rfl⟩ := exists_line_cut hn
    obtain ⟨tail, after, rfl, htail, hafter⟩ := exists_tail rest
    obtain ⟨others, hlines⟩ := lines_of_unbroken htail hafter
    rw [hcut.line htail hafter, List.nil_append]
    congr 1
    rw [hcut.text_eq, List.nil_append]
    rcases hcut.fresh with rfl | ⟨front, rfl⟩
    · rw [List.nil_append, hlines]
      rfl
    · rw [List.append_assoc, List.singleton_append, lines_append, hlines, List.count_append,
        List.count_singleton_self, ← length_lines, List.getD_append_right _ _ _ _ (Nat.le_refl _),
        Nat.sub_self]
      rfl
  · have hsize := src.size_lineStarts
    rw [line, if_pos (.inr (by omega)),
      List.getD_eq_default _ _ (by rw [length_lines]; omega)]
    rfl

/-! ## Positions point at characters -/

/-- A position points at the right character.  Its line is one more than the line feeds in front
of the offset, its column one more than the whole characters between the start of the line and the
offset; later offsets have later positions.  Where the offset stands at the start of a character,
exactly as many characters stand in front of it on its line as the caret of a report is moved, and
they are what the shown line begins with, or the line with its carriage return.  An offset outside
of the text counts as the nearer end. -/
theorem position_points (src : Source) :
    (∀ off : Int, ∃ start, LineStart src.text (min off.toNat src.text.length) start ∧
      (src.position off).1 = 1 + (src.text.take (min off.toNat src.text.length)).count lineFeed ∧
      (src.position off).2 = 1 + (ends (characters (src.text.drop start))).countP
        (· ≤ min off.toNat src.text.length - start)) ∧
    (∀ off off' : Int, off ≤ off' →
      (src.position off).1 < (src.position off').1 ∨
        ((src.position off).1 = (src.position off').1 ∧
          (src.position off).2 ≤ (src.position off').2)) ∧
    ∀ offset ≤ src.text.length, ∀ start, LineStart src.text offset start →
      Boundary (src.text.drop start) (offset - start) →
      let shown := src.line (src.position offset).1
      let front := (src.text.drop start).take (offset - start)
      (characters front).length = (src.position offset).2 - 1 ∧
        characters front <+: characters (src.text.drop start) ∧
        (front <+: shown ∨ front = shown ++ [carriageReturn]) ∧
        ∀ d : Diagnostic, d.range.source = some src → d.range.start = offset → d.excerpt ≠ [] →
          d.excerpt = [utf8 "  " ++ shown,
            utf8 "  " ++ spaces (characters front).length ++ utf8 "^"] := by
  refine ⟨fun off => ?_, fun off off' hle => ?_, fun offset hend start hstart hboundary => ?_⟩
  · obtain ⟨before, onLine, rest, hcut, hoffset⟩ :=
      exists_cut (Nat.min_le_right off.toNat src.text.length)
    refine ⟨before.length, hoffset ▸ hcut.lineStart, ?_, ?_⟩
    · rw [← position_clamp, position_line (Nat.min_le_right _ _)]
    · rw [← position_clamp, ← hoffset, hcut.position, Nat.add_sub_cancel_left, hcut.text_eq,
        List.drop_left, charactersWithin_eq]
      exact Nat.add_comm _ 1
  · rw [← position_clamp src off, ← position_clamp src off']
    exact position_mono src (by omega) (Nat.min_le_right _ _)
  · intro shown front
    have hcut := hstart.cut
    have hle := hstart.le
    have hfront : front.length = offset - start := by
      rw [List.length_take, List.length_drop]
      omega
    have hposition := hcut.position
    rw [hstart.front_append, hfront, List.length_take, Nat.min_eq_left (Nat.le_trans hle hend),
      Nat.add_sub_cancel' hle] at hposition
    obtain ⟨hcount, hprefix⟩ := hboundary.take
    have hcolumn : (characters front).length = (src.position offset).2 - 1 := by
      rw [hposition, hcount, Nat.add_sub_cancel]
    obtain ⟨tail, after, hrest, htail, hafter⟩ := exists_tail (src.text.drop offset)
    have hshown : shown = withoutReturn (front ++ tail) := by
      change src.line (src.position offset).1 = _
      rw [hposition]
      exact (hrest ▸ hcut).line htail hafter
    refine ⟨hcolumn, hprefix, hshown ▸ front_withoutReturn front tail, ?_⟩
    intro d hsource hat hsome
    have hline : src.line (src.position d.range.start).1 ≠ [] :=
      fun hnil => hsome (Diagnostic.excerpt_of_line_nil hsource hnil)
    rw [Diagnostic.excerpt_of_line_ne_nil hsource hline, hat, ← hcolumn]

/-- Behind a character of three bytes, at the line feed behind a carriage return, and far outside
of the text. -/
theorem position_points_wide :
    let src : Source := ⟨[], utf8 "a中b\r\nxy"⟩
    LineStart src.text 4 0 ∧ Boundary src.text 4 ∧ src.position 4 = (1, 3) ∧
      src.text.take 4 <+: src.line 1 ∧ Boundary src.text 6 ∧
      src.text.take 6 = src.line 1 ++ [carriageReturn] ∧
      (src.position (-1)).1 ≤ (src.position 70).1 ∧ src.position (-1) = (1, 1) ∧
      src.position 70 = (2, 3) := by
  intro src
  have hboundary : ∀ n, Boundary src.text (joined ((characters src.text).take n)).length :=
    fun n => ⟨_, _, (List.take_append_drop n _).symm, rfl⟩
  have hstart : ∀ offset ≤ 6, LineStart src.text offset 0 := by
    intro offset hoffset
    refine ⟨Nat.zero_le _, .inl rfl, fun hmem => ?_⟩
    have hfew : lineFeed ∉ src.text.take 6 := by decide
    rw [List.drop_zero, Nat.sub_zero] at hmem
    exact hfew ((List.take_sublist_take_left hoffset).subset hmem)
  have hfirst : ∀ offset : Nat, offset ≤ 6 → (src.position offset).1 = 1 := by decide
  obtain ⟨-, hmono, hpoints⟩ := position_points src
  obtain ⟨-, -, hwide, -⟩ := hpoints 4 (by decide) 0 (hstart 4 (by decide)) (hboundary 2)
  obtain ⟨-, -, hend, -⟩ := hpoints 6 (by decide) 0 (hstart 6 (by decide)) (hboundary 4)
  rw [hfirst 4 (by decide), List.drop_zero] at hwide
  rw [hfirst 6 (by decide), List.drop_zero] at hend
  refine ⟨hstart 4 (by decide), hboundary 2, by decide, hwide.resolve_right (by decide),
    hboundary 4, hend.resolve_left (by decide), ?_, by decide, by decide⟩
  rcases hmono (-1) 70 (by decide) with hlt | ⟨heq, -⟩
  · exact Nat.le_of_lt hlt
  · exact Nat.le_of_eq heq

end Source

end LoxMachine
