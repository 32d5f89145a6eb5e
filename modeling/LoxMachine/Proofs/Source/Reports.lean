import LoxMachine.Proofs.Source.Positions
import LoxMachine.Session
import Mathlib.Data.List.TakeWhile

/-!
# Reports

A report lists every diagnostic of a bag once, by its place, and those at the same place in the
order they were found.  So it depends on no more than the order at each place.
-/

namespace LoxMachine

/-! ## Joined lines -/

theorem Bytes.join_eq_intercalate (parts : List Bytes) :
    join (utf8 "\n") parts = [lineFeed].intercalate parts := by
  induction parts with
  | nil => rfl
  | cons part parts ih =>
      cases parts with
      | nil => simp [join, List.intercalate]
      | cons next parts =>
          rw [join, ih, List.append_assoc]
          · rfl
          · exact fun h => nomatch h

/-- A text is what is left of it without the line feeds at its end, followed by these. -/
theorem Bytes.trimLineFeeds_spec (text : Bytes) :
    (∃ blank, text = trimLineFeeds text ++ List.replicate blank lineFeed) ∧
      (trimLineFeeds text).getLast? ≠ some lineFeed := by
  constructor
  · let feeds := text.reverse.takeWhile (· = lineFeed)
    have hfeeds : feeds = List.replicate feeds.length lineFeed :=
      List.eq_replicate_iff.mpr ⟨rfl, fun b hb => by
        simpa only [decide_eq_true_eq] using List.mem_takeWhile_imp hb⟩
    refine ⟨feeds.length, ?_⟩
    calc text = (feeds ++ text.reverse.dropWhile (· = lineFeed)).reverse := by
          rw [List.takeWhile_append_dropWhile, List.reverse_reverse]
      _ = trimLineFeeds text ++ feeds.reverse := List.reverse_append
      _ = trimLineFeeds text ++ List.replicate feeds.length lineFeed :=
          congrArg (_ ++ ·) ((congrArg List.reverse hfeeds).trans List.reverse_replicate)
  · have hfirst := List.head?_dropWhile_not (fun b => decide (b = lineFeed)) text.reverse
    intro hlast
    rw [trimLineFeeds, List.getLast?_reverse] at hlast
    rw [hlast] at hfirst
    exact absurd rfl (of_decide_eq_false hfirst)

namespace Diagnostic

/-! ## The order of places -/

/-- By the name of the source, bytewise, then by line, then by column. -/
def Key.Before (a b : Key) : Prop :=
  a.uri < b.uri ∨
    (a.uri = b.uri ∧ (a.line < b.line ∨ (a.line = b.line ∧ a.column ≤ b.column)))

variable {a b c : Key}

theorem Key.le_iff : a.le b = true ↔ a.Before b := by
  unfold Key.le Key.Before
  by_cases huri : a.uri = b.uri
  · have hlt : ¬ a.uri < b.uri := huri ▸ List.lt_irrefl _
    rw [if_neg (not_not_intro huri)]
    by_cases hline : a.line = b.line
    · rw [if_neg (not_not_intro hline), decide_eq_true_eq]
      have hsame : ¬ a.line < b.line := Nat.not_lt_of_le (Nat.le_of_eq hline.symm)
      exact ⟨fun h => .inr ⟨huri, .inr ⟨hline, h⟩⟩,
        fun h => ((h.resolve_left hlt).2.resolve_left hsame).2⟩
    · rw [if_pos hline, decide_eq_true_eq]
      exact ⟨fun h => .inr ⟨huri, .inl h⟩,
        fun h => (h.resolve_left hlt).2.resolve_right fun hsame => hline hsame.1⟩
  · rw [if_pos huri, decide_eq_true_eq]
    exact ⟨.inl, fun h => h.resolve_right fun hsame => huri hsame.1⟩

theorem Key.Before.trans (h : a.Before b) (h' : b.Before c) : a.Before c := by
  rcases h with hlt | ⟨heq, h⟩
  · rcases h' with hlt' | ⟨heq', -⟩
    · exact .inl (List.lt_trans hlt hlt')
    · exact .inl (heq' ▸ hlt)
  · rcases h' with hlt' | ⟨heq', h'⟩
    · exact .inl (heq ▸ hlt')
    · exact .inr ⟨heq.trans heq', by omega⟩

theorem Key.before_total (a b : Key) : a.Before b ∨ b.Before a := by
  by_cases hlt : a.uri < b.uri
  · exact .inl (.inl hlt)
  by_cases hlt' : b.uri < a.uri
  · exact .inr (.inl hlt')
  have huri : a.uri = b.uri := List.le_antisymm hlt' hlt
  by_cases hplace : a.line < b.line ∨ (a.line = b.line ∧ a.column ≤ b.column)
  · exact .inl (.inr ⟨huri, hplace⟩)
  · exact .inr (.inr ⟨huri.symm, by omega⟩)

theorem Key.Before.antisymm (h : a.Before b) (h' : b.Before a) : a = b := by
  have huri : a.uri = b.uri := by
    rcases h with hlt | h
    · rcases h' with hlt' | h'
      · exact absurd hlt' (List.lt_asymm hlt)
      · exact h'.1.symm
    · exact h.1
  have hirrefl : ∀ {u v : Bytes}, u = v → ¬ u < v := fun heq => heq ▸ List.lt_irrefl _
  have hplace := (h.resolve_left (hirrefl huri)).2
  have hplace' := (h'.resolve_left (hirrefl huri.symm)).2
  obtain ⟨uri, line, column⟩ := a
  obtain ⟨uri', line', column'⟩ := b
  dsimp only at huri hplace hplace'
  rw [huri, show line = line' by omega, show column = column' by omega]

theorem Key.le_trans (a b c : Key) (h : a.le b = true) (h' : b.le c = true) : a.le c = true :=
  le_iff.mpr ((le_iff.mp h).trans (le_iff.mp h'))

theorem Key.le_total (a b : Key) : (a.le b || b.le a) = true := by
  rw [Bool.or_eq_true, le_iff, le_iff]
  exact a.before_total b

/-- What has no source comes before what has one. -/
theorem key_of_source_none {d : Diagnostic} (h : d.range.source = none) : d.key = ⟨[], 0, 0⟩ := by
  rw [key, Range.position, Range.uri, h]

theorem key_of_source {d : Diagnostic} {src : Source} (h : d.range.source = some src) :
    d.key = ⟨src.uri, (src.position d.range.start).1, (src.position d.range.start).2⟩ := by
  rw [key, Range.position, Range.uri, h]

theorem line_pos_of_source {d : Diagnostic} {src : Source} (h : d.range.source = some src) :
    0 < d.key.line := by
  rw [key_of_source h]
  dsimp only
  rw [← Source.position_clamp, Source.position_line (Nat.min_le_right _ _)]
  omega

theorem source_eq_none_of_before {d e : Diagnostic} (h : d.key.Before e.key)
    (he : e.range.source = none) : d.range.source = none := by
  cases hd : d.range.source with
  | none => rfl
  | some src =>
      have hline := line_pos_of_source hd
      rw [key_of_source_none he] at h
      rcases h with hlt | ⟨-, hlt | ⟨heq, -⟩⟩
      · exact absurd hlt (List.not_lt_nil _)
      · exact absurd hlt (Nat.not_lt_zero _)
      · exact absurd heq (Nat.ne_of_gt hline)

/-! ## Headlines -/

theorem headline_of_uri_nil {d : Diagnostic} (h : d.range.uri = []) :
    d.headline = d.severity.name ++ utf8 ": " ++ d.message := by
  rw [headline, h]
  rfl

theorem headline_of_uri_ne_nil {d : Diagnostic} {src : Source} (h : d.range.source = some src)
    (huri : src.uri ≠ []) :
    d.headline = src.uri ++ utf8 ":" ++ Bytes.decimal (src.position d.range.start).1 ++
      utf8 ":" ++ Bytes.decimal (src.position d.range.start).2 ++ utf8 ": " ++ d.severity.name ++
      utf8 ": " ++ d.message := by
  have hnamed : d.range.uri.isEmpty = false := by
    rw [Range.uri, h]
    exact List.isEmpty_eq_false_iff.mpr huri
  rw [headline, hnamed, Range.positionText, Range.position, Range.uri, h]
  simp only [Bool.false_eq_true, if_false, List.append_assoc]

end Diagnostic

/-! ## Sorted lists -/

section Sorted

variable {α κ : Type} [DecidableEq κ] {key : α → κ}

theorem mem_iff_of_filter_eq {l l' : List α}
    (h : ∀ k, l.filter (fun a => key a = k) = l'.filter (fun a => key a = k)) (a : α) :
    a ∈ l ↔ a ∈ l' := by
  have hsame := congrArg (a ∈ ·) (h (key a))
  simpa only [List.mem_filter, decide_true, and_true, eq_iff_iff] using hsame

/-- A list in order of keys is determined by what it has for each key. -/
theorem eq_of_filter_eq {r : κ → κ → Prop} (hantisymm : ∀ {a b}, r a b → r b a → a = b)
    {l l' : List α} (h : l.Pairwise fun a b => r (key a) (key b))
    (h' : l'.Pairwise fun a b => r (key a) (key b))
    (hfilter : ∀ k, l.filter (fun a => key a = k) = l'.filter (fun a => key a = k)) : l = l' := by
  induction l generalizing l' with
  | nil => exact (List.eq_nil_iff_forall_not_mem.mpr fun a ha =>
      List.not_mem_nil ((mem_iff_of_filter_eq hfilter a).mpr ha)).symm
  | cons a l ih =>
      have ha := (mem_iff_of_filter_eq hfilter a).mp List.mem_cons_self
      cases l' with
      | nil => exact absurd ha List.not_mem_nil
      | cons b l' =>
          have hb := (mem_iff_of_filter_eq hfilter b).mpr List.mem_cons_self
          obtain ⟨hfirst, hrest⟩ := List.pairwise_cons.mp h
          obtain ⟨hfirst', hrest'⟩ := List.pairwise_cons.mp h'
          -- Each of the two first items stands in the other list too, so their keys are the same.
          have hkey : key a = key b := by
            rcases List.mem_cons.mp ha with rfl | ha
            · rfl
            rcases List.mem_cons.mp hb with rfl | hb
            · rfl
            exact hantisymm (hfirst b hb) (hfirst' a ha)
          have hheads := hfilter (key a)
          rw [List.filter_cons, List.filter_cons, if_pos (decide_eq_true rfl),
            if_pos (decide_eq_true hkey.symm)] at hheads
          obtain ⟨rfl, hsame⟩ := List.cons.inj hheads
          rw [ih hrest hrest' fun k => ?_]
          by_cases hk : key a = k
          · exact hk ▸ hsame
          · have hothers := hfilter k
            rwa [List.filter_cons, List.filter_cons, if_neg (by simpa using hk),
              if_neg (by simpa using hk)] at hothers

/-- Sorting keeps the order of what has one key. -/
theorem filter_mergeSort {le : κ → κ → Bool}
    (htrans : ∀ a b c, le a b = true → le b c = true → le a c = true)
    (htotal : ∀ a b, (le a b || le b a) = true) (l : List α) (k : κ) :
    (l.mergeSort fun a b => le (key a) (key b)).filter (fun a => key a = k) =
      l.filter (fun a => key a = k) := by
  have hrefl : ∀ a, le a a = true := fun a => by
    have haa := htotal a a
    rwa [Bool.or_self] at haa
  have hperm := (List.mergeSort_perm l fun a b => le (key a) (key b)).filter fun a => key a = k
  -- Items of one key are in order as they are, so sorting leaves them in this order.
  have hsorted : (l.filter fun a => key a = k).Pairwise fun a b => le (key a) (key b) = true := by
    refine List.pairwise_of_forall_mem_list fun a ha b hb => ?_
    rw [of_decide_eq_true (List.mem_filter.mp ha).2, of_decide_eq_true (List.mem_filter.mp hb).2]
    exact hrefl k
  have hsublist := (List.sublist_mergeSort (fun a b c => htrans (key a) (key b) (key c))
    (fun a b => htotal (key a) (key b)) hsorted List.filter_sublist).filter fun a => key a = k
  rw [List.filter_filter] at hsublist
  simp only [Bool.and_self] at hsublist
  exact (hsublist.eq_of_length hperm.length_eq.symm).symm

end Sorted

namespace Bag

open Diagnostic

variable {bag other : Bag}

theorem sorted_eq (bag : Bag) :
    bag.sorted = bag.items.toList.mergeSort fun a b => a.key.le b.key := by
  unfold sorted
  rw [List.map_mergeSort (s := fun a b : Diagnostic => a.key.le b.key)]
  · rw [List.map_map]
    exact congrArg (List.mergeSort · _) (List.map_id' _)
  · intro a ha b hb
    obtain ⟨d, -, rfl⟩ := List.mem_map.mp ha
    obtain ⟨e, -, rfl⟩ := List.mem_map.mp hb
    rfl

theorem sorted_perm (bag : Bag) : bag.sorted.Perm bag.items.toList := by
  rw [sorted_eq]
  exact List.mergeSort_perm _ _

theorem sorted_pairwise (bag : Bag) : bag.sorted.Pairwise fun a b => a.key.Before b.key := by
  rw [sorted_eq]
  have hsorted := List.pairwise_mergeSort (fun a b c : Diagnostic => Key.le_trans a.key b.key c.key)
    (fun a b => Key.le_total a.key b.key) bag.items.toList
  exact hsorted.imp Key.le_iff.mp

theorem filter_sorted (bag : Bag) (k : Diagnostic.Key) :
    bag.sorted.filter (fun d => d.key = k) = bag.items.toList.filter (fun d => d.key = k) := by
  rw [sorted_eq]
  exact filter_mergeSort Key.le_trans Key.le_total _ k

/-- Bags that have the same diagnostics at each place, in the same order there, have the same
report. -/
theorem sorted_congr (h : ∀ k, other.items.toList.filter (fun d => d.key = k) =
    bag.items.toList.filter (fun d => d.key = k)) : other.sorted = bag.sorted :=
  eq_of_filter_eq Key.Before.antisymm other.sorted_pairwise bag.sorted_pairwise
    fun k => by rw [filter_sorted, filter_sorted, h]

/-- The lines of a report stand one below the other, without line feeds behind the last. -/
theorem report_eq (bag : Bag) :
    (∃ blank, [Bytes.lineFeed].intercalate bag.reportLines =
      bag.report ++ List.replicate blank Bytes.lineFeed) ∧
      bag.report.getLast? ≠ some Bytes.lineFeed := by
  unfold report
  rw [Bytes.join_eq_intercalate]
  exact Bytes.trimLineFeeds_spec _

/-- A report loses and invents nothing.  It is the diagnostics of the bag by place, which is the
name, line and column where they start, those without a source first and those at the same place as
they were found, one below the other.  Each is headed by its place, if its source has a name, its
severity and its message; below stands the line of its source with a caret, unless it has no source
or the line is empty.  A bag with the same diagnostics has the same report if it keeps the order at
each place, and what is reported of a run that failed is still there as it was found. -/
theorem report_faithful (bag : Bag) :
    (∃ listing : List Diagnostic, listing.Perm bag.items.toList ∧
      listing.Pairwise (fun a b => a.key.Before b.key) ∧
      listing.Pairwise (fun a b => b.range.source = none → a.range.source = none) ∧
      (∀ k, listing.filter (fun d => d.key = k) = bag.items.toList.filter (fun d => d.key = k)) ∧
      let shown := listing.flatMap fun d => d.headline :: d.excerpt
      bag.reportLines = shown ∧
        bag.report = Bytes.trimLineFeeds (Bytes.join (utf8 "\n") shown) ∧
        (∃ blank, [Bytes.lineFeed].intercalate shown =
          bag.report ++ List.replicate blank Bytes.lineFeed) ∧
        bag.report.getLast? ≠ some Bytes.lineFeed) ∧
    (∀ d : Diagnostic,
      (d.range.source = none → d.key = ⟨[], 0, 0⟩ ∧
        d.headline = d.severity.name ++ utf8 ": " ++ d.message ∧ d.excerpt = []) ∧
      ∀ src, d.range.source = some src →
        let (line, column) := src.position d.range.start
        d.key = ⟨src.uri, line, column⟩ ∧
        (src.uri = [] → d.headline = d.severity.name ++ utf8 ": " ++ d.message) ∧
        (src.uri ≠ [] → d.headline =
          src.uri ++ utf8 ":" ++ Bytes.decimal line ++ utf8 ":" ++ Bytes.decimal column ++
            utf8 ": " ++ d.severity.name ++ utf8 ": " ++ d.message) ∧
        (src.line line = [] → d.excerpt = []) ∧
        (src.line line ≠ [] → d.excerpt =
          [utf8 "  " ++ src.line line, utf8 "  " ++ Bytes.spaces (column - 1) ++ utf8 "^"])) ∧
    (∀ other : Bag, other.items.toList.Perm bag.items.toList →
      (∀ k, other.items.toList.filter (fun d => d.key = k) =
        bag.items.toList.filter (fun d => d.key = k)) → other.report = bag.report) ∧
    ∀ (s t : Session) (fuel : Nat) (src : Source) (kind : ModuleKind),
      s.eval fuel src kind = (.error (.compile bag), t) →
        s.runSource fuel src kind = (.error (.compile bag), t.write bag.report) := by
  refine ⟨⟨bag.sorted, bag.sorted_perm, bag.sorted_pairwise,
    bag.sorted_pairwise.imp source_eq_none_of_before, bag.filter_sorted, rfl, rfl, bag.report_eq⟩,
    fun d => ?_, fun other _ h => ?_, fun s t fuel src kind h => ?_⟩
  · refine ⟨fun hnone => ⟨key_of_source_none hnone,
      headline_of_uri_nil (by rw [Range.uri, hnone]), excerpt_of_source_none hnone⟩,
      fun src hsource => ⟨key_of_source hsource, fun huri => ?_, fun huri => ?_,
        excerpt_of_line_nil hsource, excerpt_of_line_ne_nil hsource⟩⟩
    · exact headline_of_uri_nil (by rw [Range.uri, hsource]; exact huri)
    · exact headline_of_uri_ne_nil hsource huri
  · rw [report, report, reportLines, reportLines, sorted_congr h]
  · rw [Session.runSource, h]
    rfl

/-- Two diagnostics at different places, one of them without a source and the other behind a
character of three bytes, found in either order. -/
theorem report_faithful_moved :
    let src : Source := ⟨utf8 "x.lox", utf8 "a\nb中c"⟩
    let placed : Diagnostic := ⟨.error, ⟨some src, 6, 7⟩, utf8 "second line"⟩
    let placeless : Diagnostic := ⟨.warning, Range.nowhere, utf8 "no line"⟩
    let shown := utf8 "warning: no line\nx.lox:2:3: error: second line\n  b中c\n    ^"
    (⟨#[placed, placeless]⟩ : Bag).report = shown ∧
      (⟨#[placeless, placed]⟩ : Bag).report = shown := by
  intro src placed placeless shown
  have hmoved : (⟨#[placed, placeless]⟩ : Bag).report = (⟨#[placeless, placed]⟩ : Bag).report := by
    refine (report_faithful ⟨#[placeless, placed]⟩).2.2.1 _ (.swap _ _ _) fun k => ?_
    by_cases hplaced : placed.key = k
    · subst hplaced
      decide
    · by_cases hplaceless : placeless.key = k
      · subst hplaceless
        decide
      · simp [hplaced, hplaceless]
  have hsorted : (⟨#[placeless, placed]⟩ : Bag).sorted = [placeless, placed] := by
    rw [sorted_eq]
    exact List.mergeSort_of_pairwise (by decide)
  have hshown : (⟨#[placeless, placed]⟩ : Bag).report = shown := by
    rw [report, reportLines, hsorted]
    decide
  exact ⟨hmoved.trans hshown, hshown⟩

end Bag

end LoxMachine
