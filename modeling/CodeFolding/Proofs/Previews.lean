import Mathlib
import CodeFolding.View.Preview
import CodeFolding.Proofs.SoundRegions

/-!
# Previews lose nothing

A preview drops indents and blank lines, writes tabs as blanks and ends its lines in its own way,
so it is compared with its region by what is left without blanks (`Text.visible`).

* `Preview.visible_render`: lines that are all shown keep their visible characters.
* `Preview.exists_regionLines`: the lines of a region show what stands between the place where
  they begin and the end of the region.
* `previews_lose_nothing`: a region of an outline has a preview, and this and its plain preview
  show the region's visible characters.
-/

namespace CodeFolding

/-! ## Visible characters -/

namespace Text

/-- The characters of a text that are not blank. -/
def visible (cs : List Char) : List Char := cs.filter (!isBlank ·)

section Visible

variable {cs : List Char} {lines : List (List Char)}

@[simp]
theorem visible_nil : visible [] = [] := rfl

@[simp]
theorem visible_append (cs ds : List Char) : visible (cs ++ ds) = visible cs ++ visible ds :=
  List.filter_append ..

theorem visible_of_allBlank (blank : allBlank cs = true) : visible cs = [] := by
  unfold visible
  rw [List.filter_eq_nil_iff]
  intro c mem
  simp [List.all_eq_true.1 blank c mem]

theorem visible_flatten_map {f : List Char → List Char}
    (kept : ∀ line ∈ lines, visible (f line) = visible line) :
    visible (lines.map f).flatten = visible lines.flatten := by
  induction lines with
  | nil => rfl
  | cons line lines ih =>
    rw [List.map_cons, List.flatten_cons, List.flatten_cons, visible_append, visible_append,
      kept line List.mem_cons_self, ih fun other mem => kept other (List.mem_cons_of_mem _ mem)]

theorem visible_intercalate {separator : List Char} (blank : allBlank separator = true)
    (lines : List (List Char)) :
    visible (separator.intercalate lines) = visible lines.flatten := by
  induction lines with
  | nil => rfl
  | cons line lines ih =>
    cases lines with
    | nil => rw [List.intercalate_singleton, List.flatten_cons, List.flatten_nil, List.append_nil]
    | cons next rest =>
      rw [List.intercalate_cons_cons, visible_append, visible_append, ih,
        visible_of_allBlank blank, List.append_nil, ← visible_append]
      rfl

theorem visible_dropWhile (lines : List (List Char)) :
    visible (lines.dropWhile allBlank).flatten = visible lines.flatten := by
  induction lines with
  | nil => rfl
  | cons line lines ih =>
    rw [List.dropWhile_cons]
    split
    next blank =>
      rw [ih, List.flatten_cons, visible_append, visible_of_allBlank blank, List.nil_append]
    next => rfl

/-! ### Lines of a text -/

theorem visible_of_cut {pieces : List (List Char × List Char)} (cut : Cut pieces) :
    visible (pieces.map Prod.fst).flatten = visible (joinLines pieces) := by
  induction pieces with
  | nil => rfl
  | cons piece pieces ih =>
    obtain ⟨content, ending⟩ := piece
    rw [List.map_cons, List.flatten_cons, joinLines_cons]
    dsimp only
    cases pieces with
    | nil =>
      obtain ⟨-, rfl⟩ := cut
      rw [List.append_nil, List.map_nil, List.flatten_nil, joinLines_nil]
    | cons next rest =>
      obtain ⟨-, ends, cut⟩ := cut
      have blank : allBlank ending = true := by rcases ends with rfl | rfl <;> decide
      rw [visible_append, visible_append, visible_append, visible_of_allBlank blank,
        List.append_nil, ih cut]

/-- A text shows what the contents of its lines show. -/
theorem visible_contentLines (cs : List Char) :
    visible (contentLines cs).flatten = visible cs := by
  have whole : visible ((cutLines cs).map Prod.fst).flatten = visible cs := by
    rw [visible_of_cut (cutLines_cut cs)]
    exact congrArg visible (join_cutLines cs)
  unfold contentLines
  dsimp only
  split
  next last =>
    obtain ⟨lines, contents⟩ := List.getLast?_eq_some_iff.1 last
    rw [contents, List.flatten_append, visible_append] at whole
    rw [contents, List.dropLast_concat]
    simpa using whole
  next => exact whole

end Visible

end Text

/-! ## Shown lines -/

namespace Preview

open Text (visible visible_nil visible_append visible_of_allBlank)

section Render

variable {line : List Char} {lines : List (List Char)} {indent : Nat}

theorem visible_drop (le : indent ≤ indentOf line) :
    visible (line.drop indent) = visible line := by
  induction line generalizing indent with
  | nil => rw [List.drop_nil]
  | cons c line ih =>
    cases indent with
    | zero => rfl
    | succ indent =>
      unfold indentOf at le
      rw [List.takeWhile_cons] at le
      split at le
      next blank =>
        rw [List.drop_succ_cons, ih (Nat.le_of_succ_le_succ le)]
        exact (List.filter_cons_of_neg (by simp [blank])).symm
      next => cases le

/-- No line with content has less than the common indent. -/
theorem commonIndent_le (mem : line ∈ lines) (shown : Text.allBlank line = false) :
    commonIndent lines ≤ indentOf line := by
  unfold commonIndent
  apply List.min?_getD_le_of_mem
  exact List.mem_map_of_mem (List.mem_filter.2 ⟨mem, by rw [shown]; rfl⟩)

theorem visible_stripIndent (mem : line ∈ lines) :
    visible (stripIndent (commonIndent lines) line) = visible line := by
  unfold stripIndent
  split
  next blank => rw [visible_of_allBlank blank, visible_nil]
  next shown => exact visible_drop (commonIndent_le mem (Bool.eq_false_iff.2 shown))

/-- Lines that fit the budget are all shown. -/
theorem visible_render {budget : Nat} {partialFirst fallback : Bool}
    (whole : (render lines budget false partialFirst fallback).truncated = false) :
    visible (render lines budget false partialFirst fallback).text = visible lines.flatten := by
  have fits : ¬budget < lines.length := of_decide_eq_false whole
  unfold render
  dsimp only
  rw [List.take_of_length_le (Nat.le_of_not_lt fits), if_neg fits, if_neg Bool.false_ne_true,
    List.nil_append, List.append_nil, Text.visible_intercalate rfl, List.flatten_append,
    visible_append, Text.visible_flatten_map fun _ => visible_stripIndent, ← visible_append,
    ← List.flatten_append, List.prefix_iff_eq_append.1 (List.take_prefix _ _)]

theorem visible_expandTabs (line : List Char) :
    visible (line.flatMap fun c => if c = '\t' then tab else [c]) = visible line := by
  induction line with
  | nil => rfl
  | cons c line ih =>
    rw [List.flatMap_cons, visible_append, ih, ← List.singleton_append (l := line),
      visible_append]
    congr 1
    split
    next expanded =>
      subst expanded
      decide
    next => rfl

theorem visible_plain {options : PreviewOptions} {d : Document} {r : Region}
    (quiet : options.debug = false) (whole : (plain options d r).truncated = false) :
    visible (plain options d r).text = visible (d.sliceOrEmpty r.span) := by
  unfold plain at whole ⊢
  rw [quiet] at whole ⊢
  dsimp only at whole ⊢
  rw [visible_render whole, Text.visible_flatten_map fun line _ => visible_expandTabs line,
    Text.visible_dropWhile, Text.visible_contentLines]

end Render

end Preview

/-! ## What stands between two places -/

namespace Document

/-- The text has the visible characters that stand between the two offsets. -/
def Shows (d : Document) (first last : Nat) (cs : List Char) : Prop :=
  ∃ middle, Text.slice? first last d.text = some middle ∧ Text.visible middle = Text.visible cs

section Shows

variable {d : Document} {first middle last : Nat} {cs ds : List Char}

theorem BlankBetween.shows (blank : d.BlankBetween first last) : d.Shows first last [] := by
  obtain ⟨gap, sliced, blank⟩ := blank
  exact ⟨gap, sliced, Text.visible_of_allBlank blank⟩

theorem Shows.append (left : d.Shows first middle cs) (right : d.Shows middle last ds) :
    d.Shows first last (cs ++ ds) := by
  obtain ⟨before, sliced, same⟩ := left
  obtain ⟨behind, sliced', same'⟩ := right
  refine ⟨before ++ behind, slice?_append sliced sliced', ?_⟩
  rw [Text.visible_append, Text.visible_append, same, same']

/-- Blanks at the front do not count. -/
theorem Shows.of_blankBetween (shows_ : d.Shows first last cs)
    (blank : d.BlankBetween first middle) (boundary : d.Boundary middle) (le : middle ≤ last) :
    d.Shows middle last cs := by
  obtain ⟨whole, sliced, same⟩ := shows_
  obtain ⟨gap, gapped, blank_gap⟩ := blank
  obtain ⟨left, right, rfl, before, behind⟩ :=
    boundary.split_slice? sliced (BlankBetween.le ⟨gap, gapped, blank_gap⟩) le
  obtain rfl : gap = left := Option.some.inj (gapped.symm.trans before)
  rw [Text.visible_append, Text.visible_of_allBlank blank_gap, List.nil_append] at same
  exact ⟨right, behind, same⟩

end Shows

end Document

/-! ## Lines of a region -/

namespace Preview

section Hover

variable {d : Document} {r : Region} {first offset number more : Nat}

/-- The place is on a line of the region, and only blanks stand between it and the start of the
region. -/
structure Begins (d : Document) (r : Region) (first offset : Nat) : Prop where
  low : r.startLine ≤ first
  high : first ≤ r.endLine
  boundary : d.Boundary offset
  stop : offset ≤ d.lineStop first
  last : first = r.endLine → offset = d.lineStart first
  gap : d.BlankBetween r.span.start offset ∨ d.BlankBetween offset r.span.start

theorem exists_begin? (sound : r.Sound d) :
    ∃ first offset, begin? d r = .ok (first, offset) ∧ Begins d r first offset := by
  have last := d.lineOf_lt r.span.stop
  have lines := sound.lines
  rw [← sound.endLine] at last
  obtain ⟨line, found, numbered, starts, stops⟩ :=
    Document.exists_line (d := d) (i := r.startLine) (by omega)
  have below := d.lineStart_lineOf_le r.span.start
  rw [← sound.startLine] at below
  unfold begin?
  rw [found]
  simp only [bind, Except.bind, stops, starts, numbered]
  split
  next past =>
    rw [Bool.and_eq_true, decide_eq_true_eq] at past
    obtain ⟨next, found', numbered', starts', stops'⟩ :=
      Document.exists_line (d := d) (i := r.startLine + 1) (by omega)
    refine ⟨r.startLine + 1, d.lineStart (r.startLine + 1), ?_, ?_⟩
    · rw [found']
      simp only [numbered', starts']
      rfl
    · have gap := sound.start.blankBetween_of_lineStop_le
        (by rw [← sound.startLine]; exact past.1)
      rw [← sound.startLine] at gap
      exact ⟨by omega, by omega, d.boundary_lineStart _, d.lineStart_le_lineStop _,
        fun _ => rfl, Or.inl gap.2⟩
  next inside =>
    have before : r.span.start < d.lineStop r.startLine := by
      simp only [Bool.and_eq_true, decide_eq_true_eq, not_and] at inside
      by_contra past
      exact inside (by omega) lines
    split
    next blank =>
      have gap := Document.blankBetween_of_blankBefore blank
      rw [← sound.startLine] at gap
      exact ⟨r.startLine, d.lineStart r.startLine, rfl, Nat.le_refl _, by omega,
        d.boundary_lineStart _, d.lineStart_le_lineStop _, fun _ => rfl, Or.inr gap⟩
    next =>
      rw [Nat.max_eq_left below]
      exact ⟨r.startLine, r.span.start, rfl, Nat.le_refl _, by omega, sound.start, by omega,
        by omega, Or.inl sound.start.blankBetween_self⟩

/-- Where a line of a preview begins. -/
def lineBegin (d : Document) (first offset number : Nat) : Nat :=
  if number = first then offset else d.lineStart number

theorem Begins.lineBegin (begins : Begins d r first offset) (number : Nat) :
    d.Boundary (lineBegin d first offset number) ∧
      Preview.lineBegin d first offset number ≤ d.lineStop number := by
  unfold Preview.lineBegin
  split
  next here =>
    rw [here]
    exact ⟨begins.boundary, begins.stop⟩
  next => exact ⟨d.boundary_lineStart number, d.lineStart_le_lineStop number⟩

theorem Begins.lineBegin_endLine (begins : Begins d r first offset) :
    Preview.lineBegin d first offset r.endLine = d.lineStart r.endLine := by
  unfold Preview.lineBegin
  split
  next here =>
    rw [here]
    exact begins.last here.symm
  next => rfl

theorem regionLines_cons {line : Line} {stop : Nat} {cs : List Char} {lines : List (List Char)}
    (found : d.line number = .ok line)
    (last : number = r.endLine →
      clampInto (lineBegin d first offset number) line.stop r.span.stop = .ok stop)
    (inner : number ≠ r.endLine → line.stop = stop)
    (sliced : Text.slice? (lineBegin d first offset number) stop d.text = some cs)
    (rest : regionLines d r first offset (number + 1) more = .ok lines) :
    regionLines d r first offset number (more + 1) = .ok (cs :: lines) := by
  obtain ⟨-, starts, -⟩ := Document.line_eq_ok found
  have begins : (if number = first then offset else line.start) =
      lineBegin d first offset number := by
    rw [starts]
    rfl
  have ordered : lineBegin d first offset number ≤ stop := by
    obtain ⟨front, -, -, low, high⟩ := Text.slice?_eq_some_iff.1 sliced
    rw [Text.byteLength_append] at high
    omega
  have taken : d.slice ⟨lineBegin d first offset number, stop, ordered⟩ = .ok cs :=
    Document.slice_eq_ok_iff.2 sliced
  rw [regionLines, found]
  simp only [ofDocument, ofChecked, Except.mapError, bind, Except.bind, begins]
  split
  next here =>
    rw [last here]
    simp only [Span.ofBounds_of_le ordered, taken, rest]
    rfl
  next other =>
    rw [inner other]
    simp only [Span.ofBounds_of_le ordered, taken, rest]
    rfl

/-- The lines from one line on show what stands from there to the end of the region. -/
theorem exists_regionLines (sound : r.Sound d) (begins : Begins d r first offset)
    (low : first ≤ number) (high : number + more = r.endLine) :
    ∃ lines, regionLines d r first offset number (more + 1) = .ok lines ∧
      lines.length = more + 1 ∧
      d.Shows (lineBegin d first offset number) r.span.stop lines.flatten := by
  have bound : r.endLine < d.lineCount := by
    rw [sound.endLine]
    exact d.lineOf_lt _
  induction more generalizing number with
  | zero =>
    obtain rfl : number = r.endLine := high
    obtain ⟨line, found, -, -, stops⟩ := Document.exists_line bound
    have start := begins.lineBegin_endLine
    have le_stop : d.lineStart r.endLine ≤ r.span.stop := by
      rw [sound.endLine]
      exact d.lineStart_lineOf_le _
    -- the end of the region may stand inside the line break
    have gap : d.BlankBetween (min r.span.stop (d.lineStop r.endLine)) r.span.stop := by
      rcases Nat.le_total r.span.stop (d.lineStop r.endLine) with inside | past
      · rw [Nat.min_eq_left inside]
        exact sound.stop.blankBetween_self
      · rw [Nat.min_eq_right past]
        rw [sound.endLine] at past ⊢
        exact (sound.stop.blankBetween_of_lineStop_le past).1
    have boundary : d.Boundary (min r.span.stop (d.lineStop r.endLine)) := by
      rcases Nat.le_total r.span.stop (d.lineStop r.endLine) with inside | past
      · rw [Nat.min_eq_left inside]
        exact sound.stop
      · rw [Nat.min_eq_right past]
        exact d.boundary_lineStop _
    obtain ⟨cs, sliced⟩ := (d.boundary_lineStart r.endLine).exists_slice? boundary
      (Nat.le_min.2 ⟨le_stop, d.lineStart_le_lineStop _⟩)
    rw [← start] at sliced
    refine ⟨[cs], regionLines_cons found ?_ (absurd rfl) sliced rfl, rfl, ?_⟩
    · intro _
      unfold clampInto
      rw [start, stops, if_pos (d.lineStart_le_lineStop _), Nat.max_eq_left le_stop]
    · have shown : d.Shows (lineBegin d first offset r.endLine) _ cs := ⟨cs, sliced, rfl⟩
      exact shown.append gap.shows
  | succ more ih =>
    obtain ⟨line, found, -, -, stops⟩ :=
      Document.exists_line (d := d) (i := number) (by omega)
    obtain ⟨boundary, before⟩ := begins.lineBegin number
    obtain ⟨cs, sliced⟩ := boundary.exists_slice? (d.boundary_lineStop number) before
    obtain ⟨lines, listed, counted, shown⟩ := ih (show first ≤ number + 1 by omega) (by omega)
    refine ⟨cs :: lines, regionLines_cons found ?_ (fun _ => stops) sliced listed, ?_, ?_⟩
    · intro last
      omega
    · rw [List.length_cons, counted]
    · have next : lineBegin d first offset (number + 1) = d.lineStart (number + 1) :=
        if_neg (by omega)
      rw [next] at shown
      have here : d.Shows (lineBegin d first offset number) _ cs := ⟨cs, sliced, rfl⟩
      exact here.append ((d.blankBetween_break number).shows.append shown)

/-- The preview of a sound region is made of lines that show its text. -/
theorem exists_hover {options : PreviewOptions} {o : Outline} {limit : Nat} (sound : r.Sound d)
    (same : o.version = d.version) (fits : budget options = .ok limit) :
    ∃ lines partialFirst,
      hover options o r d = .ok (render lines limit options.debug partialFirst false) ∧
      lines.length ≤ r.endLine + 1 - r.startLine ∧
      d.Shows r.span.start r.span.stop lines.flatten := by
  obtain ⟨first, offset, begun, begins⟩ := exists_begin? sound
  obtain ⟨lines, listed, counted, shown⟩ := exists_regionLines sound begins (Nat.le_refl _)
    (Nat.add_sub_of_le begins.high)
  have bound := d.lineOf_lt r.span.stop
  rw [← sound.endLine] at bound
  have low := begins.low
  have high := begins.high
  obtain ⟨line, found, -, -, -⟩ :=
    Document.exists_line (d := d) (i := first) (by omega)
  refine ⟨lines, decide (line.start < offset), ?_, by omega, ?_⟩
  · unfold hover
    rw [begun, fits, if_neg (absurd same)]
    simp only [ofDocument, ofChecked, Except.mapError, bind, Except.bind]
    rw [Nat.sub_add_comm begins.high, listed, found]
    rfl
  · rw [lineBegin, if_pos rfl] at shown
    rcases begins.gap with gap | gap
    · exact gap.shows.append shown
    · exact shown.of_blankBetween gap sound.start (Nat.le_of_lt sound.proper)

end Hover

end Preview

/-- Every region of the outline of a text has a preview from its own document, which is cut only
if the region has more lines than the limit.  A preview that is not cut shows what the region's
text shows apart from blanks, and so does a plain preview. -/
theorem previews_lose_nothing (options : ScanOptions) (session : SessionId) (d : Document)
    (limits : PreviewOptions) (limit : Nat) (fits : Preview.budget limits = .ok limit) :
    ∃ o, Outline.ofTokens options session d (classify d.text) = .ok o ∧
      ∀ r ∈ o.regions, ∃ cs p,
        let q := Preview.plain limits d r
        d.slice r.span = .ok cs ∧ Preview.hover limits o r d = .ok p ∧ p.fallback = false ∧
        (r.endLine + 1 - r.startLine ≤ limit → p.truncated = false) ∧
        (limits.debug = false →
          (p.truncated = false → Text.visible p.text = Text.visible cs) ∧
          (q.truncated = false → Text.visible q.text = Text.visible cs) ∧
          (p.truncated = false → q.truncated = false →
            Text.visible p.text = Text.visible q.text)) := by
  obtain ⟨o, outlined, same, sound⟩ := exists_outline options session (classify_wellFormed d)
  refine ⟨o, outlined, fun r mem => ?_⟩
  have version : o.version = d.version := by
    unfold Outline.version
    rw [same]
  obtain ⟨lines, partialFirst, shown, counted, cs, sliced, kept⟩ :=
    Preview.exists_hover (sound r mem) version fits
  have text : d.slice r.span = .ok cs := Document.slice_eq_ok_iff.2 sliced
  refine ⟨cs, _, text, shown, rfl, ?_, ?_⟩
  · intro few
    exact decide_eq_false (by omega)
  · intro quiet
    have hovered :
        (Preview.render lines limit limits.debug partialFirst false).truncated = false →
        Text.visible (Preview.render lines limit limits.debug partialFirst false).text =
          Text.visible cs := by
      rw [quiet, kept]
      exact Preview.visible_render
    have plain : (Preview.plain limits d r).truncated = false →
        Text.visible (Preview.plain limits d r).text = Text.visible cs := by
      intro whole
      rw [Preview.visible_plain quiet whole]
      unfold Document.sliceOrEmpty
      rw [text]
      rfl
    exact ⟨hovered, plain, fun whole whole' => (hovered whole).trans (plain whole').symm⟩

/-- A block under its header, between line breaks of two characters and with wide blanks. -/
theorem previews_lose_nothing_header :
    let d := Document.ofText 7 "f()\r\n\t\x7b\r\n\t\u3000é;\r\n\t\x7d\r\n".toList
    ∃ o r p, Outline.ofTokens {} 0 d (classify d.text) = .ok o ∧ r ∈ o.regions ∧
      Preview.hover {} o r d = .ok p ∧ p.truncated = false ∧
      Text.visible p.text = "\x7bé;\x7d".toList ∧
      Text.visible p.text = Text.visible (Preview.plain {} d r).text := by
  intro d
  obtain ⟨o, outlined, previews⟩ := previews_lose_nothing {} 0 d {} 40 rfl
  let r : Region := ⟨.block, ⟨3, 20, by decide⟩, 0, 3, 0, true⟩
  have listed : (Tree.ofTokens {} d (classify d.text)).flatten d = .ok [r] := by decide +kernel
  obtain rfl : o = ⟨0, d, [r]⟩ :=
    Except.ok.inj (outlined.symm.trans (Outline.ofTokens_eq_ok_iff.2 ⟨_, listed, rfl⟩))
  obtain ⟨cs, p, -, hovered, -, uncut, kept⟩ := previews r List.mem_cons_self
  have whole : p.truncated = false := uncut (by decide)
  have plain : (Preview.plain {} d r).truncated = false ∧
      Text.visible (Preview.plain {} d r).text = "\x7bé;\x7d".toList := by decide +kernel
  have same := (kept rfl).2.2 whole plain.1
  exact ⟨_, r, p, outlined, List.mem_cons_self, hovered, whole, same.trans plain.2, same⟩

end CodeFolding
