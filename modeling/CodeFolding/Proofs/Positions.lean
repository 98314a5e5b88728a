import Mathlib
import CodeFolding.Proofs.LineBreaks
import CodeFolding.View.Fold

/-!
# Offsets and positions

An offset and its position, a line and a column, give each other back.

* `bisect_spec`: a search by halves finds where a predicate stops to hold.
* `Document.searchedLine_eq`: the search by halves among the starts of lines, as the breaks give
  them, finds the line of an offset.
* `Document.lineOf_eq_count`: the line of an offset counts the line feeds before it.
* `Document.offsetOf_position`, `Document.position_add`: the two ways around.
* `Outline.folds_eq`, `Outline.filter_byFirstLine`: the folds are those of the regions in a stable
  order by their first lines.
* `positions_convert_both_ways`: all of it.
-/

namespace CodeFolding

/-! ## Search by halves -/

/-- The first place from `low` to `high` at which the predicate does not hold, if it holds up to a
place and not from there on. -/
def bisect (holds : Nat → Bool) (low high : Nat) : Nat :=
  if low < high then
    let middle := low + (high - low) / 2
    if holds middle then bisect holds (middle + 1) high else bisect holds low middle
  else low
termination_by high - low

/-- A search by halves finds where the predicate stops to hold. -/
theorem bisect_spec {holds : Nat → Bool} {low high : Nat}
    (down : ∀ i j, i ≤ j → j < high → holds j = true → holds i = true) (le : low ≤ high) :
    low ≤ bisect holds low high ∧ bisect holds low high ≤ high ∧
      ∀ i, low ≤ i → i < high → (i < bisect holds low high ↔ holds i = true) := by
  fun_induction bisect holds low high with
  | case1 low high more middle held ih =>
    have inside : middle < high := by omega
    obtain ⟨above, below, same⟩ := ih down inside
    refine ⟨by omega, below, ?_⟩
    intro i first last
    by_cases right : middle + 1 ≤ i
    · exact same i right last
    · exact iff_of_true (by omega) (down i middle (by omega) inside held)
  | case2 low high more middle failed ih =>
    obtain ⟨above, below, same⟩ :=
      ih (fun i j before bound => down i j before (by omega)) (Nat.le_add_right _ _)
    refine ⟨above, by omega, ?_⟩
    intro i first last
    by_cases left : i < middle
    · exact same i first left
    · exact iff_of_false (by omega) fun held => failed (down middle i (by omega) last held)
  | case3 low high done =>
    exact ⟨Nat.le_refl _, le, fun i first last => absurd last (by omega)⟩

/-- The last place at which a predicate holds that holds up to that place. -/
theorem bisect_sub_one {holds : Nat → Bool} {last count : Nat} (inside : last < count)
    (held : ∀ i < count, holds i = true ↔ i ≤ last) : bisect holds 0 count - 1 = last := by
  have down : ∀ i j, i ≤ j → j < count → holds j = true → holds i = true :=
    fun i j le inside here => (held i (by omega)).2 (Nat.le_trans le ((held j inside).1 here))
  obtain ⟨-, bound, found⟩ := bisect_spec down (Nat.zero_le _)
  have reached : last < bisect holds 0 count :=
    (found last (Nat.zero_le _) inside).2 ((held last inside).2 (Nat.le_refl _))
  have passed : bisect holds 0 count - 1 ≤ last :=
    (held _ (by omega)).1 ((found _ (Nat.zero_le _) (by omega)).1 (by omega))
  omega

/-! ## Lines of offsets -/

/-- The breaks that end at or before a place are as many as the line feeds before it. -/
theorem Text.countP_breaksFrom (bytes : List UInt8) (offset : Nat) (before : Option UInt8)
    (short : offset + bytes.length < limit32) (place : Nat) :
    ((breaksFrom offset before bytes).map Prod.snd).countP (· ≤ place) =
      (bytes.take (place - offset)).count feed := by
  induction bytes generalizing offset before with
  | nil => rw [List.take_nil]; rfl
  | cons b bytes ih =>
    rw [List.length_cons] at short
    have later := ih (offset + 1) (some b) (by omega)
    have fits : (offset + 1) % limit32 = offset + 1 := Nat.mod_eq_of_lt (by omega)
    by_cases here : offset < place
    · -- the byte stands before the place, and so does its break
      rw [show place - offset = place - (offset + 1) + 1 by omega, List.take_succ_cons,
        List.count_cons, ← later, breaksFrom]
      split
      next feeds =>
        rw [fits, List.map_cons, List.countP_cons_of_pos (by simpa using here), feeds]
        rfl
      next other =>
        rw [if_neg (by simpa using other)]
        rfl
    · rw [show place - (offset + 1) = 0 by omega, List.take_zero, List.count_nil] at later
      rw [show place - offset = 0 by omega, List.take_zero, List.count_nil, breaksFrom]
      split
      next =>
        rw [fits, List.map_cons, List.countP_cons_of_neg (by simpa using here), later]
      next => exact later

namespace Document

/-- The line of an offset by a search by halves among the starts of lines that the breaks give. -/
def searchedLine (d : Document) (offset : Nat) : Nat :=
  let starts := 0 :: (Text.breaks d.text).map Prod.snd
  bisect (fun i => starts[i]?.any (· ≤ offset)) 0 starts.length - 1

section Offsets

variable {d : Document} {offset : Nat}

/-- The search finds the line of an offset. -/
theorem searchedLine_eq (short : d.length < limit32) (offset : Nat) :
    d.searchedLine offset = d.lineOf offset := by
  unfold searchedLine
  rw [(d.breaks_eq short).1]
  dsimp only
  rw [List.length_map, show d.table.lines.length = d.lineCount from rfl]
  refine bisect_sub_one (d.lineOf_lt offset) ?_
  intro i inside
  obtain ⟨line, found, -, starts, -⟩ := exists_line? inside
  rw [List.getElem?_map, show d.table.lines[i]? = some line from found, le_lineOf_iff inside,
    ← starts]
  exact decide_eq_true_iff

/-- The line of an offset is the number of line feeds among the bytes before it. -/
theorem lineOf_eq_count (short : d.length < limit32) (offset : Nat) :
    d.lineOf offset = ((Text.utf8 d.text).take (min offset d.length)).count Text.feed := by
  have width : (Text.utf8 d.text).length = d.length := by rw [Text.length_utf8, length_eq]
  have counted := Text.countP_breaksFrom (Text.utf8 d.text) 0 none (by omega) offset
  have starts : d.table.lines.countP (·.start ≤ offset) =
      (d.table.lines.map Line.start).countP (· ≤ offset) := by
    rw [List.countP_map]
    rfl
  unfold lineOf LineTable.lineOf
  rw [starts, ← (d.breaks_eq short).1, List.countP_cons_of_pos (by simp), Nat.add_sub_cancel]
  unfold Text.breaks
  rw [counted, Nat.sub_zero, List.take_eq_take_min, width]

/-! ## Both ways around -/

theorem position_eq (d : Document) (offset : Nat) :
    d.position offset = ⟨d.lineOf offset, offset - d.lineStart (d.lineOf offset)⟩ := by
  obtain ⟨line, found, -, starts, -⟩ := exists_line? (d.lineOf_lt offset)
  unfold position LineTable.position
  dsimp only
  rw [← starts, show d.table.line? (d.table.lineOf offset) = some line from found]
  rfl

theorem offsetOf_eq {l column : Nat} (inside : l < d.lineCount)
    (fits : d.lineStart l + column < limit32) :
    d.table.offsetOf ⟨l, column⟩ = .ok (some (d.lineStart l + column)) := by
  obtain ⟨line, found, -, starts, -⟩ := exists_line? inside
  unfold LineTable.offsetOf
  dsimp only
  rw [found]
  dsimp only
  rw [starts, fit32_of_lt fits]
  rfl

/-- A line with its break is as long as the next line starts behind it. -/
theorem length_full {l : Nat} {line : Line} (found : d.line l = .ok line) :
    line.full.length = d.lineStart (l + 1) - d.lineStart l := by
  obtain ⟨inside, starts, -⟩ := line_eq_ok found
  obtain ⟨other, looked, -⟩ := exists_line? inside
  unfold Document.line at found
  rw [looked] at found
  cases found
  obtain ⟨fullStart, fullStop⟩ := full_of_line? looked
  unfold Span.length
  rw [fullStart, fullStop, starts]

/-- The position of an offset leads back to it. -/
theorem offsetOf_position (fits : offset < limit32) :
    d.table.offsetOf (d.position offset) = .ok (some offset) := by
  have sum : d.lineStart (d.lineOf offset) + (offset - d.lineStart (d.lineOf offset)) = offset :=
    Nat.add_sub_cancel' (d.lineStart_lineOf_le offset)
  rw [position_eq, offsetOf_eq (d.lineOf_lt offset) (by rw [sum]; exact fits), sum]

/-- A column that a line reaches with its break, or any column of the last line, is the column of
the offset it gives. -/
theorem position_add {l column : Nat} (inside : l < d.lineCount)
    (reached : l + 1 < d.lineCount → d.lineStart l + column < d.lineStart (l + 1)) :
    d.position (d.lineStart l + column) = ⟨l, column⟩ := by
  have above : l ≤ d.lineOf (d.lineStart l + column) :=
    (le_lineOf_iff inside).2 (Nat.le_add_right _ _)
  have below : d.lineOf (d.lineStart l + column) ≤ l := by
    by_contra later
    have more : l + 1 < d.lineCount := by
      have := d.lineOf_lt (d.lineStart l + column)
      omega
    have := (le_lineOf_iff more).1 (Nat.lt_of_not_le later)
    have := reached more
    omega
  have here := Nat.le_antisymm below above
  rw [position_eq, here, Nat.add_sub_cancel_left]

end Offsets

end Document

/-! ## Folds in order -/

namespace Outline

/-- The line on which a region's span starts. -/
def firstLine (o : Outline) (r : Region) : Nat := o.document.lineOf r.span.start

/-- The regions in order of their first lines. -/
def byFirstLine (o : Outline) : List Region :=
  o.regions.mergeSort fun a b => o.firstLine a ≤ o.firstLine b

variable {o : Outline}

theorem firstLine_trans (a b c : Region) (first : decide (o.firstLine a ≤ o.firstLine b) = true)
    (second : decide (o.firstLine b ≤ o.firstLine c) = true) :
    decide (o.firstLine a ≤ o.firstLine c) = true :=
  decide_eq_true (Nat.le_trans (of_decide_eq_true first) (of_decide_eq_true second))

theorem firstLine_total (a b : Region) :
    (decide (o.firstLine a ≤ o.firstLine b) ||
      decide (o.firstLine b ≤ o.firstLine a)) = true := by
  rw [Bool.or_eq_true, decide_eq_true_iff, decide_eq_true_iff]
  exact Nat.le_total _ _

theorem byFirstLine_pairwise (o : Outline) :
    o.byFirstLine.Pairwise fun a b => o.firstLine a ≤ o.firstLine b :=
  (List.pairwise_mergeSort firstLine_trans firstLine_total o.regions).imp of_decide_eq_true

/-- The folds are those of the regions in order. -/
theorem folds_eq (o : Outline) : o.folds = o.byFirstLine.map o.fold := by
  unfold folds byFirstLine
  rw [List.map_mergeSort]
  exact fun _ _ _ _ => rfl

/-- Regions that start on one line keep their order. -/
theorem filter_byFirstLine (o : Outline) (n : Nat) :
    (o.byFirstLine.filter fun r => o.firstLine r = n) =
      o.regions.filter fun r => o.firstLine r = n := by
  have within : (o.regions.filter fun r => o.firstLine r = n).Sublist
      o.byFirstLine := by
    refine List.sublist_mergeSort firstLine_trans firstLine_total
      (List.pairwise_of_forall_mem_list ?_) List.filter_sublist
    intro a first b second
    have here := of_decide_eq_true (List.mem_filter.1 first).2
    have there := of_decide_eq_true (List.mem_filter.1 second).2
    exact decide_eq_true (by rw [here, there])
  have kept := within.filter fun r => o.firstLine r = n
  rw [List.filter_filter] at kept
  simp only [Bool.and_self] at kept
  exact (kept.eq_of_length ((List.mergeSort_perm _ _).filter _).length_eq.symm).symm

end Outline

/-- In a text of less than `2 ^ 32 - 1` bytes the line of an offset is what a search by halves
among the starts of lines finds, and the number of line feeds before the offset; it does not
decrease.  The position of an offset leads back to it, also past the end, and the offset of a
column that a line reaches, or of any column of the last line, has that line and column as its
position.  So the folds of any outline are one for each region, in a stable order by their first
lines, and their positions lead back to the region's span. -/
theorem positions_convert_both_ways (d : Document) (small : d.length + 1 < limit32) :
    (∀ offset, d.searchedLine offset = d.lineOf offset ∧
      d.lineOf offset = ((Text.utf8 d.text).take (min offset d.length)).count Text.feed) ∧
    (∀ first second, first ≤ second → d.lineOf first ≤ d.lineOf second) ∧
    (∀ offset < limit32, d.table.offsetOf (d.position offset) = .ok (some offset)) ∧
    (∀ l column line, d.line l = .ok line →
      (l + 1 = d.lineCount ∨ column < line.full.length) → line.start + column < limit32 →
      ∃ offset, d.table.offsetOf ⟨l, column⟩ = .ok (some offset) ∧
        d.position offset = ⟨l, column⟩) ∧
    ∀ o : Outline, o.document = d → (∀ r ∈ o.regions, r.span.stop < limit32) →
      ∃ order : List Region, order.Perm o.regions ∧ o.folds = order.map o.fold ∧
        order.Pairwise (fun a b => (o.fold a).first.line ≤ (o.fold b).first.line) ∧
        (∀ n, (order.filter fun r => (o.fold r).first.line = n) =
          o.regions.filter fun r => (o.fold r).first.line = n) ∧
        ∀ r ∈ order, d.table.offsetOf (o.fold r).first = .ok (some r.span.start) ∧
          d.table.offsetOf (o.fold r).last = .ok (some r.span.stop) := by
  have short : d.length < limit32 := Nat.lt_of_succ_lt small
  refine ⟨fun offset => ⟨Document.searchedLine_eq short offset,
    Document.lineOf_eq_count short offset⟩, fun _ _ => Document.lineOf_mono,
    fun offset => Document.offsetOf_position, ?_, ?_⟩
  · intro l column line found reached fits
    obtain ⟨inside, starts, -⟩ := Document.line_eq_ok found
    rw [starts] at fits
    refine ⟨_, Document.offsetOf_eq inside fits, Document.position_add inside ?_⟩
    intro more
    rcases reached with last | within
    · omega
    · rw [Document.length_full found] at within
      omega
  · rintro o rfl fits
    refine ⟨o.byFirstLine, List.mergeSort_perm _ _, o.folds_eq, o.byFirstLine_pairwise,
      o.filter_byFirstLine, ?_⟩
    intro r member
    have stops := fits r (List.mem_mergeSort.1 member)
    have starts := Nat.lt_of_le_of_lt r.span.start_le_stop stops
    exact ⟨Document.offsetOf_position starts, Document.offsetOf_position stops⟩

/-- Three regions out of order, two of them on one line, the last one past the end. -/
theorem positions_convert_both_ways_three_regions :
    let d := Document.ofText 0 ['é', '\r', '\n', '\n', '日', '\n']
    let o : Outline := { session := 0, document := d, regions := [
      { kind := .block, span := ⟨4, 20, by decide⟩, startLine := 1, endLine := 3, depth := 0,
        fromPriorLine := false },
      { kind := .comment, span := ⟨2, 7, by decide⟩, startLine := 0, endLine := 2, depth := 0,
        fromPriorLine := false },
      { kind := .block, span := ⟨0, 5, by decide⟩, startLine := 0, endLine := 2, depth := 0,
        fromPriorLine := false }] }
    d.length + 1 < limit32 ∧ (∀ r ∈ o.regions, r.span.stop < limit32) ∧
      d.position 20 = ⟨3, 11⟩ ∧ d.table.offsetOf (d.position 20) = .ok (some 20) ∧
      (∃ offset, d.table.offsetOf ⟨0, 3⟩ = .ok (some offset) ∧ d.position offset = ⟨0, 3⟩) ∧
      (∃ order : List Region, order.Perm o.regions ∧ o.folds = order.map o.fold ∧
        (order.filter fun r => (o.fold r).first.line = 0) =
          o.regions.filter fun r => (o.fold r).first.line = 0) := by
  intro d o
  have words : ∀ r ∈ o.regions, r.span.stop < limit32 := by decide
  obtain ⟨-, -, back, forth, folds⟩ := positions_convert_both_ways d (by decide)
  obtain ⟨order, perm, listed, -, stable, -⟩ := folds o rfl words
  exact ⟨by decide, words, by decide, back 20 (by decide),
    forth 0 3 _ rfl (Or.inr (by decide)) (by decide), order, perm, listed, stable 0⟩

end CodeFolding
