import Mathlib
import CodeFolding.Proofs.Previews

/-!
# Hovering never faults

A region may be asked for in a document that it was not found in, and its span may be at odds with
its lines.  As long as it has more than one line, every bound of its preview is in order, whatever
the document is: a preview fails only for an address that the document does not have.

* `Preview.Within`: where a preview begins, inside the content of a line of the region.
* `Preview.begin?_cases`: a preview begins so, or the region's first lines do not exist.
* `Preview.regionLines_succ`: what one line of a preview takes from the document.
* `Preview.regionLines_cases`: the lines of a region exist if all their bounds are character
  boundaries; otherwise an address is at fault.
* `hovering_never_faults`: a preview or an address error, and always a preview with the plain one.
-/

namespace CodeFolding

/-! ## Places on a line -/

namespace Document

/-- The place in the content of a line that is nearest to an offset. -/
def moveInto (d : Document) (i offset : Nat) : Nat :=
  min (max offset (d.lineStart i)) (d.lineStop i)

section MoveInto

variable {d : Document} {i offset : Nat}

theorem lineStart_le_moveInto (d : Document) (i offset : Nat) :
    d.lineStart i ≤ d.moveInto i offset :=
  Nat.le_min.2 ⟨Nat.le_max_right _ _, d.lineStart_le_lineStop i⟩

theorem moveInto_of_lineStop_le (past : d.lineStop i ≤ offset) :
    d.moveInto i offset = d.lineStop i :=
  Nat.min_eq_right (Nat.le_trans past (Nat.le_max_left _ _))

theorem moveInto_of_lt (before : offset < d.lineStop i) :
    d.moveInto i offset = max offset (d.lineStart i) :=
  Nat.min_eq_left (Nat.max_le.2 ⟨Nat.le_of_lt before, d.lineStart_le_lineStop i⟩)

theorem Boundary.moveInto (boundary : d.Boundary offset) (i : Nat) :
    d.Boundary (d.moveInto i offset) := by
  unfold Document.moveInto
  rcases Nat.le_total (max offset (d.lineStart i)) (d.lineStop i) with inside | past
  · rw [Nat.min_eq_left inside]
    rcases Nat.le_total offset (d.lineStart i) with before | behind
    · rw [Nat.max_eq_right before]
      exact d.boundary_lineStart i
    · rw [Nat.max_eq_left behind]
      exact boundary
  · rw [Nat.min_eq_right past]
    exact d.boundary_lineStop i

theorem boundary_of_blankBefore (blank : d.blankBefore offset = true) : d.Boundary offset := by
  obtain ⟨front, blanks, rest, text, -, stops, -⟩ := exists_blank_of_blankBefore blank
  exact ⟨front ++ blanks, rest, text, stops⟩

/-- The text of a span exists exactly if both its ends are character boundaries. -/
theorem exists_slice_iff {span : Span} :
    (∃ cs, d.slice span = .ok cs) ↔ d.Boundary span.start ∧ d.Boundary span.stop := by
  constructor
  · rintro ⟨cs, sliced⟩
    obtain ⟨front, rest, text, starts, stops⟩ :=
      Text.slice?_eq_some_iff.1 (slice_eq_ok_iff.1 sliced)
    exact ⟨⟨front, cs ++ rest, by rw [text, List.append_assoc], starts⟩,
      ⟨front ++ cs, rest, text, stops⟩⟩
  · rintro ⟨low, high⟩
    obtain ⟨cs, sliced⟩ := low.exists_slice? high span.start_le_stop
    exact ⟨cs, slice_eq_ok_iff.2 sliced⟩

end MoveInto

end Document

/-! ## Where a preview begins -/

namespace Preview

section Hover

variable {d : Document} {r : Region} {first offset number more : Nat}

/-- The place is in the content of a line of the region; on the last line it is the start of the
line. -/
structure Within (d : Document) (r : Region) (first offset : Nat) : Prop where
  high : first ≤ r.endLine
  bound : first < d.lineCount
  stop : offset ≤ d.lineStop first
  last : first = r.endLine → offset = d.lineStart first

/-- The preview of a region of more than one line begins in the content of one of its lines, or
the region starts at or behind the last line. -/
theorem begin?_cases (lines : r.startLine < r.endLine) :
    (∃ first offset, begin? d r = .ok (first, offset) ∧ Within d r first offset ∧
      (d.Boundary offset ↔ d.Boundary (d.moveInto r.startLine r.span.start))) ∨
    ((∃ e, begin? d r = .error e) ∧ d.lineCount ≤ r.endLine) := by
  by_cases inside : r.startLine < d.lineCount
  · obtain ⟨line, found, numbered, starts, stops⟩ := Document.exists_line inside
    unfold begin?
    rw [found]
    simp only [bind, Except.bind, stops, starts, numbered]
    split
    next past =>
      rw [Bool.and_eq_true, decide_eq_true_eq] at past
      by_cases more : r.startLine + 1 < d.lineCount
      · obtain ⟨next, found', numbered', starts', -⟩ := Document.exists_line more
        refine Or.inl ⟨r.startLine + 1, d.lineStart (r.startLine + 1), ?_, ?_, ?_⟩
        · rw [found']
          simp only [numbered', starts']
          rfl
        · exact ⟨lines, more, d.lineStart_le_lineStop _, fun _ => rfl⟩
        · rw [Document.moveInto_of_lineStop_le past.1]
          exact iff_of_true (d.boundary_lineStart _) (d.boundary_lineStop _)
      · rw [Document.line_of_le (Nat.le_of_not_lt more)]
        exact Or.inr ⟨⟨_, rfl⟩, by omega⟩
    next inside' =>
      have before : r.span.start < d.lineStop r.startLine := by
        simp only [Bool.and_eq_true, decide_eq_true_eq, not_and] at inside'
        by_contra past
        exact inside' (by omega) lines
      split
      next blank =>
        -- a start behind blanks is a character boundary
        refine Or.inl ⟨r.startLine, d.lineStart r.startLine, rfl, ?_, ?_⟩
        · exact ⟨Nat.le_of_lt lines, inside, d.lineStart_le_lineStop _, fun _ => rfl⟩
        · exact iff_of_true (d.boundary_lineStart _)
            ((Document.boundary_of_blankBefore blank).moveInto _)
      next =>
        refine Or.inl ⟨r.startLine, max r.span.start (d.lineStart r.startLine), rfl, ?_, ?_⟩
        · refine ⟨Nat.le_of_lt lines, inside, ?_, fun last => absurd last (by omega)⟩
          exact Nat.max_le.2 ⟨Nat.le_of_lt before, d.lineStart_le_lineStop _⟩
        · rw [Document.moveInto_of_lt before]
  · unfold begin?
    rw [Document.line_of_le (Nat.le_of_not_lt inside)]
    exact Or.inr ⟨⟨_, rfl⟩, by omega⟩

/-! ## One line -/

/-- Where a line of a preview ends. -/
def lineEnd (d : Document) (r : Region) (number : Nat) : Nat :=
  if number = r.endLine then d.moveInto number r.span.stop else d.lineStop number

theorem Within.lineBegin_le_lineStop (within : Within d r first offset) (number : Nat) :
    lineBegin d first offset number ≤ d.lineStop number := by
  unfold lineBegin
  split
  next here =>
    rw [here]
    exact within.stop
  next => exact d.lineStart_le_lineStop number

theorem Within.lineBegin_endLine (within : Within d r first offset) :
    lineBegin d first offset r.endLine = d.lineStart r.endLine := by
  unfold lineBegin
  split
  next here =>
    rw [here]
    exact within.last here.symm
  next => rfl

theorem Within.lineBegin_le_lineEnd (within : Within d r first offset) (number : Nat) :
    lineBegin d first offset number ≤ lineEnd d r number := by
  unfold lineEnd
  split
  next last =>
    rw [last, within.lineBegin_endLine]
    exact d.lineStart_le_moveInto _ _
  next => exact within.lineBegin_le_lineStop number

/-- The span of a line of a preview. -/
def Within.lineSpan (within : Within d r first offset) (number : Nat) : Span where
  start := lineBegin d first offset number
  stop := lineEnd d r number
  start_le_stop := within.lineBegin_le_lineEnd number

/-- A line of a preview is taken from the document between two places that are in order. -/
theorem regionLines_succ (within : Within d r first offset) (inside : number < d.lineCount) :
    regionLines d r first offset number (more + 1) = (do
      let text ← ofDocument (d.slice (within.lineSpan number))
      return text :: (← regionLines d r first offset (number + 1) more)) := by
  obtain ⟨line, found, -, starts, stops⟩ := Document.exists_line inside
  have begins : (if number = first then offset else line.start) =
      lineBegin d first offset number := by
    rw [starts]
    rfl
  have clamped : number = r.endLine →
      clampInto (lineBegin d first offset number) line.stop r.span.stop =
        .ok (lineEnd d r number) := by
    rintro rfl
    unfold clampInto lineEnd
    rw [within.lineBegin_endLine, stops, if_pos (d.lineStart_le_lineStop _), if_pos rfl]
    rfl
  have whole : number ≠ r.endLine → line.stop = lineEnd d r number := by
    intro inner
    unfold lineEnd
    rw [stops, if_neg inner]
  have ordered : Span.ofBounds (lineBegin d first offset number) (lineEnd d r number) =
      .ok (within.lineSpan number) :=
    Span.ofBounds_of_le (within.lineBegin_le_lineEnd number)
  rw [regionLines, found]
  simp only [ofDocument, ofChecked, Except.mapError, bind, Except.bind, begins]
  split
  next last =>
    rw [clamped last]
    simp only [ordered]
  next inner =>
    rw [whole inner]
    simp only [ordered]

/-! ## All lines -/

/-- The line exists, and it is cut at character boundaries. -/
def CutsWell (d : Document) (r : Region) (first offset number : Nat) : Prop :=
  number < d.lineCount ∧ d.Boundary (lineBegin d first offset number) ∧
    d.Boundary (lineEnd d r number)

/-- The lines of a region exist if each of them does; otherwise an address is at fault. -/
theorem regionLines_cases (within : Within d r first offset) (number more : Nat) :
    ((∃ lines, regionLines d r first offset number more = .ok lines) ∧
      ∀ n, number ≤ n → n < number + more → CutsWell d r first offset n) ∨
    ((∃ e, regionLines d r first offset number more = .error (.address e)) ∧
      ∃ n, number ≤ n ∧ n < number + more ∧ ¬CutsWell d r first offset n) := by
  induction more generalizing number with
  | zero => exact Or.inl ⟨⟨[], rfl⟩, fun n low high => absurd high (by omega)⟩
  | succ more ih =>
    by_cases inside : number < d.lineCount
    · rw [regionLines_succ within inside]
      have slices : (∃ cs, d.slice (within.lineSpan number) = .ok cs) ↔ _ :=
        Document.exists_slice_iff
      cases sliced : d.slice (within.lineSpan number) with
      | error e =>
        rw [sliced] at slices
        refine Or.inr ⟨⟨e, rfl⟩, number, Nat.le_refl _, by omega, fun well => ?_⟩
        obtain ⟨cs, taken⟩ := slices.2 well.2
        cases taken
      | ok cs =>
        have well : CutsWell d r first offset number :=
          ⟨inside, slices.1 ⟨cs, sliced⟩⟩
        rcases ih (number + 1) with ⟨⟨lines, listed⟩, rest⟩ | ⟨⟨e, failed⟩, n, low, high, bad⟩
        · rw [listed]
          refine Or.inl ⟨⟨_, rfl⟩, fun n low high => ?_⟩
          rcases Nat.lt_or_eq_of_le low with later | rfl
          · exact rest n later (by omega)
          · exact well
        · rw [failed]
          exact Or.inr ⟨⟨_, rfl⟩, n, by omega, by omega, bad⟩
    · refine Or.inr ⟨?_, number, Nat.le_refl _, by omega, fun well => inside well.1⟩
      rw [regionLines, Document.line_of_le (Nat.le_of_not_lt inside)]
      exact ⟨_, rfl⟩

/-- The lines between the first and the last are taken whole. -/
theorem Within.cutsWell_iff (within : Within d r first offset) :
    (∀ n, first ≤ n → n < first + (r.endLine + 1 - first) → CutsWell d r first offset n) ↔
      r.endLine < d.lineCount ∧ d.Boundary offset ∧
        d.Boundary (d.moveInto r.endLine r.span.stop) := by
  have high := within.high
  constructor
  · intro well
    obtain ⟨-, begins, -⟩ := well first (Nat.le_refl _) (by omega)
    obtain ⟨bound, -, ends⟩ := well r.endLine high (by omega)
    rw [lineBegin, if_pos rfl] at begins
    rw [lineEnd, if_pos rfl] at ends
    exact ⟨bound, begins, ends⟩
  · rintro ⟨bound, begins, ends⟩ n low last
    refine ⟨by omega, ?_, ?_⟩
    · unfold lineBegin
      split
      next => exact begins
      next => exact d.boundary_lineStart n
    · unfold lineEnd
      split
      next here =>
        rw [here]
        exact ends
      next => exact d.boundary_lineStop n

/-- The document has the version and the lines of the region, and both ends of the region, moved
into these lines, are character boundaries. -/
structure Fits (o : Outline) (r : Region) (now : Document) : Prop where
  version : o.version = now.version
  lines : r.endLine < now.lineCount
  start : now.Boundary (now.moveInto r.startLine r.span.start)
  stop : now.Boundary (now.moveInto r.endLine r.span.stop)

theorem hover_of_stale {options : PreviewOptions} {o : Outline} (stale : o.version ≠ d.version) :
    hover options o r d = .error (.address (.staleVersion o.version d.version)) := by
  unfold hover
  rw [if_pos stale]
  rfl

/-- A region of more than one line that fits has a preview; otherwise an address is at fault. -/
theorem hover_cases {options : PreviewOptions} {limit : Nat}
    (budgeted : budget options = .ok limit) (lines : r.startLine < r.endLine) (o : Outline) :
    (∃ p, hover options o r d = .ok p ∧ p.fallback = false ∧ Fits o r d) ∨
      ∃ e, hover options o r d = .error (.address e) ∧ ¬Fits o r d := by
  by_cases same : o.version = d.version
  · unfold hover
    rw [if_neg (absurd same)]
    rcases begin?_cases (d := d) lines with ⟨first, offset, begun, within, start⟩ |
      ⟨⟨e, failed⟩, past⟩
    · rw [begun]
      simp only [ofDocument, Except.mapError, bind, Except.bind]
      obtain ⟨line, found, -⟩ := Document.exists_line within.bound
      rcases regionLines_cases within first (r.endLine + 1 - first) with
        ⟨⟨texts, listed⟩, well⟩ | ⟨⟨e, failed⟩, n, low, high, bad⟩
      · obtain ⟨bound, begins, ends⟩ := within.cutsWell_iff.1 well
        rw [listed, found, budgeted]
        exact Or.inl ⟨_, rfl, rfl, same, bound, start.1 begins, ends⟩
      · rw [failed]
        refine Or.inr ⟨e, rfl, fun fits => bad (within.cutsWell_iff.2 ?_ n low high)⟩
        exact ⟨fits.lines, start.2 fits.start, fits.stop⟩
    · rw [failed]
      exact Or.inr ⟨e, rfl, fun fits => absurd fits.lines (Nat.not_lt_of_le past)⟩
  · exact Or.inr ⟨_, hover_of_stale same, fun fits => same fits.version⟩

end Hover

end Preview

/-- Whatever its span and its lines are, and whatever the document is now, a region of more than
one line has a preview if it fits the document, and otherwise an address is at fault.  With the
plain preview there is always a preview, which is the plain one exactly if an address is at fault,
and so if the versions differ.  No line of a preview begins behind the content of the line. -/
theorem hovering_never_faults (options : PreviewOptions) (o : Outline) (r : Region)
    (now : Document) (limit : Nat) (budgeted : Preview.budget options = .ok limit)
    (lines : r.startLine < r.endLine) :
    (∀ fault, Preview.hover options o r now ≠ .error (.fault fault)) ∧
    ((∃ p, Preview.hover options o r now = .ok p) ↔ Preview.Fits o r now) ∧
    (o.version ≠ now.version →
      Preview.hover options o r now = .error (.address (.staleVersion o.version now.version))) ∧
    (∃ p, Preview.hoverOrPlain options o r now = .ok p ∧
      (p.fallback = true ↔ ∃ e, Preview.hover options o r now = .error (.address e)) ∧
      (p.fallback = true → p = Preview.plain options o.document r) ∧
      (p.fallback = false → Preview.hover options o r now = .ok p)) ∧
    ∀ first offset, Preview.begin? now r = .ok (first, offset) →
      ∀ number line, now.line number = .ok line →
        (if number = first then offset else line.start) ≤ line.stop := by
  have ordered : ∀ first offset, Preview.begin? now r = .ok (first, offset) →
      ∀ number line, now.line number = .ok line →
        (if number = first then offset else line.start) ≤ line.stop := by
    intro first offset begun number line found
    rcases Preview.begin?_cases (d := now) lines with ⟨_, _, begun', within, -⟩ | ⟨⟨e, failed⟩, -⟩
    · rw [begun] at begun'
      cases begun'
      obtain ⟨-, starts, stops⟩ := Document.line_eq_ok found
      rw [starts, stops]
      exact within.lineBegin_le_lineStop number
    · rw [begun] at failed
      cases failed
  have stale : o.version ≠ now.version → Preview.hover options o r now = _ :=
    Preview.hover_of_stale
  unfold Preview.hoverOrPlain
  rcases Preview.hover_cases (d := now) budgeted lines o with
    ⟨p, shown, own, fits⟩ | ⟨e, failed, misfit⟩
  · rw [shown] at stale ⊢
    refine ⟨nofun, iff_of_true ⟨p, rfl⟩ fits, stale, ⟨p, rfl, ?_, ?_, fun _ => rfl⟩, ordered⟩
    · rw [own]
      exact iff_of_false Bool.false_ne_true nofun
    · rw [own]
      exact nofun
  · rw [failed] at stale ⊢
    exact ⟨nofun, iff_of_false nofun misfit, stale,
      ⟨_, rfl, iff_of_true rfl ⟨e, rfl⟩, fun _ => rfl, nofun⟩, ordered⟩

/-- A region that starts inside a character has no preview of its own, and one whose span is on
none of its lines has one. -/
theorem hovering_never_faults_inconsistent :
    let now := Document.ofText 3 ['a', 'é', '\n', 'b', '\n']
    let o : Outline := ⟨0, now, []⟩
    let cut : Region := ⟨.block, ⟨2, 100, by decide⟩, 0, 1, 0, false⟩
    let away : Region := ⟨.comment, ⟨0, 1, by decide⟩, 1, 2, 5, true⟩
    Preview.budget {} = .ok 40 ∧ cut.startLine < cut.endLine ∧ away.startLine < away.endLine ∧
      (∃ p, Preview.hoverOrPlain {} o cut now = .ok p ∧ p.fallback = true) ∧
      (∃ p, Preview.hover {} o away now = .ok p) := by
  intro now o cut away
  obtain ⟨never, shown, -, ⟨p, previewed, fallback, -⟩, -⟩ :=
    hovering_never_faults {} o cut now 40 rfl (by decide)
  obtain ⟨-, shown', -⟩ := hovering_never_faults {} o away now 40 rfl (by decide)
  have misfit : ¬Preview.Fits o cut now := fun fits => absurd fits.start (by decide)
  refine ⟨rfl, by decide, by decide, ⟨p, previewed, fallback.2 ?_⟩,
    shown'.2 ⟨rfl, by decide, by decide, by decide⟩⟩
  cases failed : Preview.hover {} o cut now with
  | ok q => exact absurd (shown.1 ⟨q, failed⟩) misfit
  | error e =>
    cases e with
    | address e => exact ⟨e, rfl⟩
    | fault fault => exact absurd failed (never fault)

end CodeFolding
