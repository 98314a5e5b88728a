import Mathlib
import CodeFolding.Document

/-!
# Places in a document

Offsets that a scan works with are byte lengths of initial parts of the text
(`Document.Boundary`), and they are compared with the places where lines start and stop.  This
module says what the table of lines places where:

* `Document.exists_line_cut`: a line of the table cuts the text into what is before it, its
  content, its break and the rest.
* `Document.le_lineOf_iff`: line `i` is at or before the line of an offset exactly if it starts at
  or before that offset; order facts about lines all follow from it.
* `Document.EndsVisibly.le_endBefore`: text that ends in something visible ends at or before
  `endBefore` of every later place.
* `Document.Boundary.split_slice?`: a boundary cuts a slice in two; `Document.BlankBetween` is a
  slice of blanks only.
-/

namespace CodeFolding

/-! ## Initial parts of a text -/

namespace Text

theorem byteLength_pos {cs : List Char} (nonempty : cs ≠ []) : 0 < byteLength cs := by
  cases cs with
  | nil => exact absurd rfl nonempty
  | cons c cs =>
    have width := c.utf8Size_pos
    rw [byteLength_cons]
    omega

/-- Of two initial parts of a list, the one of less size starts the other, if sizes add up and
only the empty list has none. -/
theorem exists_middle_of_size_le {α : Type} {size : List α → Nat}
    (size_append : ∀ xs ys, size (xs ++ ys) = size xs + size ys)
    (size_pos : ∀ xs, xs ≠ [] → 0 < size xs) {front rest front' rest' : List α}
    (same : front ++ rest = front' ++ rest') (le : size front ≤ size front') :
    ∃ middle, front' = front ++ middle ∧ rest = middle ++ rest' := by
  rcases List.append_eq_append_iff.1 same with ⟨middle, cut, left⟩ | ⟨middle, cut, left⟩
  · exact ⟨middle, cut, left⟩
  · have sizes : size front = size front' + size middle := by
      rw [cut, size_append]
    have none : middle = [] := by
      by_contra some
      have := size_pos middle some
      omega
    subst none
    exact ⟨[], by rw [cut, List.append_nil, List.append_nil], left.symm⟩

/-- Of two initial parts of a text, the one with fewer bytes starts the other. -/
theorem exists_middle_of_le {front rest front' rest' : List Char}
    (same : front ++ rest = front' ++ rest') (le : byteLength front ≤ byteLength front') :
    ∃ middle, front' = front ++ middle ∧ rest = middle ++ rest' :=
  exists_middle_of_size_le byteLength_append (fun _ => byteLength_pos) same le

/-- Initial parts with as many bytes are the same. -/
theorem front_eq_of_byteLength_eq {front rest front' rest' : List Char}
    (same : front ++ rest = front' ++ rest') (bytes : byteLength front = byteLength front') :
    front = front' ∧ rest = rest' := by
  obtain ⟨middle, cut, left⟩ := exists_middle_of_le same (Nat.le_of_eq bytes)
  have none : middle = [] := by
    by_contra some
    have positive := byteLength_pos some
    rw [cut, byteLength_append] at bytes
    omega
  subst none
  exact ⟨by rw [cut, List.append_nil], left⟩

/-- A cut that falls into the middle part of a text cuts that part in two. -/
theorem exists_parts {front middle rest cut behind : List Char}
    (same : front ++ middle ++ rest = cut ++ behind) (low : byteLength front ≤ byteLength cut)
    (high : byteLength cut ≤ byteLength (front ++ middle)) :
    ∃ left right, middle = left ++ right ∧ cut = front ++ left := by
  rw [List.append_assoc] at same
  obtain ⟨left, longer, -⟩ := exists_middle_of_le same low
  rw [← List.append_assoc] at same
  obtain ⟨right, parts, -⟩ := exists_middle_of_le same.symm high
  rw [longer, List.append_assoc] at parts
  exact ⟨left, right, List.append_cancel_left parts, longer⟩

end Text

/-! ## Boundaries -/

namespace Document

theorem length_eq (d : Document) : d.length = Text.byteLength d.text := by
  unfold length
  rw [d.table_eq]
  rfl

/-- The offset is the byte length of an initial part of the text. -/
def Boundary (d : Document) (offset : Nat) : Prop :=
  ∃ front rest, d.text = front ++ rest ∧ Text.byteLength front = offset

theorem boundary_iff {d : Document} {offset : Nat} :
    d.Boundary offset ↔ (Text.dropBytes? offset d.text).isSome = true := by
  rw [Option.isSome_iff_exists]
  constructor
  · intro boundary
    obtain ⟨front, rest, cut, bytes⟩ := boundary
    exact ⟨rest, Text.dropBytes?_eq_some_iff.2 ⟨front, cut, bytes⟩⟩
  · intro dropped
    obtain ⟨rest, found⟩ := dropped
    obtain ⟨front, cut, bytes⟩ := Text.dropBytes?_eq_some_iff.1 found
    exact ⟨front, rest, cut, bytes⟩

instance (d : Document) (offset : Nat) : Decidable (d.Boundary offset) :=
  decidable_of_iff _ boundary_iff.symm

theorem Boundary.le_length {d : Document} {offset : Nat} (boundary : d.Boundary offset) :
    offset ≤ d.length := by
  obtain ⟨front, rest, cut, bytes⟩ := boundary
  rw [length_eq, cut, Text.byteLength_append]
  omega

theorem boundary_zero (d : Document) : d.Boundary 0 := ⟨[], d.text, rfl, rfl⟩

theorem boundary_length (d : Document) : d.Boundary d.length :=
  ⟨d.text, [], (List.append_nil _).symm, d.length_eq.symm⟩

/-- Before the end a boundary is followed by a character, and the next boundary is behind it. -/
theorem Boundary.exists_char {d : Document} {offset : Nat} (boundary : d.Boundary offset)
    (inside : offset < d.length) :
    ∃ c, d.charAt? offset = some c ∧ d.Boundary (offset + c.utf8Size) ∧
      ∀ other, d.Boundary other → offset < other → offset + c.utf8Size ≤ other := by
  obtain ⟨front, rest, cut, bytes⟩ := boundary
  cases rest with
  | nil =>
    rw [length_eq, cut, List.append_nil] at inside
    omega
  | cons c rest =>
    refine ⟨c, ?_, ⟨front ++ [c], rest, by rw [cut]; simp, ?_⟩, ?_⟩
    · unfold charAt?
      rw [Text.dropBytes?_eq_some_iff.2 ⟨front, cut, bytes⟩]
      rfl
    · rw [Text.byteLength_append, Text.byteLength_cons, bytes]
      rfl
    · intro other place later
      obtain ⟨front', rest', cut', bytes'⟩ := place
      obtain ⟨middle, longer, left⟩ :=
        Text.exists_middle_of_le (cut.symm.trans cut') (by omega)
      cases middle with
      | nil =>
        rw [longer, List.append_nil] at bytes'
        omega
      | cons c' middle =>
        rw [List.cons_append, List.cons.injEq] at left
        rw [← bytes', longer, Text.byteLength_append, Text.byteLength_cons, ← left.1]
        omega

end Document

/-! ## How a text is cut into lines -/

namespace Text

/-- The break that ends a line which is not the last. -/
def IsBreak (ending : List Char) : Prop := ending = ['\n'] ∨ ending = ['\r', '\n']

/-- Contents hold no line feed, and every line but the last is ended by a break. -/
def Cut : List (List Char × List Char) → Prop
  | [] => False
  | [(content, ending)] => '\n' ∉ content ∧ ending = []
  | (content, ending) :: next :: rest => '\n' ∉ content ∧ IsBreak ending ∧ Cut (next :: rest)

theorem cut_cons {content ending : List Char} {pieces : List (List Char × List Char)}
    (clean : '\n' ∉ content) (ends : IsBreak ending) (cut : Cut pieces) :
    Cut ((content, ending) :: pieces) := by
  cases pieces with
  | nil => exact cut.elim
  | cons next rest => exact ⟨clean, ends, cut⟩

theorem cutLines_cut (cs : List Char) : Cut (cutLines cs) := by
  fun_induction cutLines cs with
  | case1 => exact ⟨List.not_mem_nil, rfl⟩
  | case2 cs ih => exact cut_cons List.not_mem_nil (Or.inl rfl) ih
  | case3 cs ih => exact cut_cons List.not_mem_nil (Or.inr rfl) ih
  | case4 c cs plain _ none ih =>
    rw [none] at ih
    exact ih.elim
  | case5 c cs plain _ content ending rest pieces ih =>
    rw [pieces] at ih
    have clean : c ≠ '\n' := fun feed => plain feed
    cases rest with
    | nil => exact ⟨by simp [clean.symm, ih.1], ih.2⟩
    | cons next rest => exact ⟨by simp [clean.symm, ih.1], ih.2⟩

/-- The text of some lines with their breaks. -/
def joinLines (pieces : List (List Char × List Char)) : List Char :=
  pieces.flatMap fun l => l.1 ++ l.2

@[simp]
theorem joinLines_nil : joinLines [] = [] := rfl

@[simp]
theorem joinLines_cons (piece : List Char × List Char) (pieces : List (List Char × List Char)) :
    joinLines (piece :: pieces) = piece.1 ++ piece.2 ++ joinLines pieces := rfl

theorem joinLines_append (left right : List (List Char × List Char)) :
    joinLines (left ++ right) = joinLines left ++ joinLines right :=
  List.flatMap_append

end Text

open Text in
/-- Each laid line starts behind the lines before it. -/
theorem layLines_getElem? (number start i : Nat) (pieces : List (List Char × List Char)) :
    (layLines number start pieces)[i]? = pieces[i]?.map fun piece =>
      { number := number + i
        content := .ofLength (start + byteLength (joinLines (pieces.take i))) (byteLength piece.1)
        full := .ofLength (start + byteLength (joinLines (pieces.take i)))
          (byteLength piece.1 + byteLength piece.2) } := by
  induction pieces generalizing number start i with
  | nil => rfl
  | cons piece pieces ih =>
    cases i with
    | zero => rfl
    | succ i =>
      rw [layLines, List.getElem?_cons_succ, List.getElem?_cons_succ, ih, List.take_succ_cons,
        joinLines_cons, byteLength_append, byteLength_append]
      simp only [Nat.add_assoc, Nat.add_comm 1 i]

theorem length_layLines (number start : Nat) (pieces : List (List Char × List Char)) :
    (layLines number start pieces).length = pieces.length := by
  induction pieces generalizing number start with
  | nil => rfl
  | cons piece pieces ih => rw [layLines, List.length_cons, List.length_cons, ih]

/-- Lines start one behind the other. -/
theorem layLines_pairwise {pieces : List (List Char × List Char)} (cut : Text.Cut pieces)
    (number start : Nat) :
    (layLines number start pieces).Pairwise (fun a b => a.start < b.start) ∧
      ∀ line ∈ layLines number start pieces, start ≤ line.start := by
  induction pieces generalizing number start with
  | nil => exact cut.elim
  | cons piece pieces ih =>
    obtain ⟨content, ending⟩ := piece
    cases pieces with
    | nil =>
      refine ⟨List.pairwise_singleton _ _, ?_⟩
      intro line member
      rw [layLines, layLines, List.mem_singleton] at member
      rw [member]
      exact Nat.le_refl _
    | cons next rest =>
      obtain ⟨-, ends, cut⟩ := cut
      have width : 0 < Text.byteLength ending := by
        apply Text.byteLength_pos
        rcases ends with rfl | rfl <;> simp
      obtain ⟨sorted, behind⟩ := ih cut (number + 1)
        (start + (Text.byteLength content + Text.byteLength ending))
      rw [layLines]
      refine ⟨List.pairwise_cons.2 ⟨?_, sorted⟩, ?_⟩
      · intro line member
        have later := behind line member
        show start < line.start
        omega
      · intro line member
        rcases List.mem_cons.1 member with rfl | member
        · exact Nat.le_refl _
        · have later := behind line member
          omega

/-- In an ordered table the lines that start at or before an offset come first. -/
theorem lt_countP_start_le_iff {lines : List Line}
    (sorted : lines.Pairwise fun a b => a.start < b.start) {i : Nat} {line : Line}
    (found : lines[i]? = some line) (offset : Nat) :
    i < lines.countP (·.start ≤ offset) ↔ line.start ≤ offset := by
  induction lines generalizing i with
  | nil => simp at found
  | cons first lines ih =>
    obtain ⟨behind, sorted⟩ := List.pairwise_cons.1 sorted
    by_cases starts : first.start ≤ offset
    · rw [List.countP_cons_of_pos (by simpa using starts)]
      cases i with
      | zero =>
        rw [List.getElem?_cons_zero, Option.some.injEq] at found
        subst found
        exact ⟨fun _ => starts, fun _ => Nat.succ_pos _⟩
      | succ i =>
        rw [List.getElem?_cons_succ] at found
        rw [← ih sorted found]
        omega
    · have none : lines.countP (·.start ≤ offset) = 0 := by
        rw [List.countP_eq_zero]
        intro line member
        have later := behind line member
        simp only [decide_eq_true_eq]
        omega
      rw [List.countP_cons_of_neg (by simpa using starts), none]
      cases i with
      | zero =>
        rw [List.getElem?_cons_zero, Option.some.injEq] at found
        subst found
        omega
      | succ i =>
        rw [List.getElem?_cons_succ] at found
        have later := behind line (List.mem_of_getElem? found)
        omega

theorem Text.Cut.piece {pieces : List (List Char × List Char)} (cut : Text.Cut pieces) {i : Nat}
    {content ending : List Char} (found : pieces[i]? = some (content, ending)) :
    '\n' ∉ content ∧ (i + 1 < pieces.length → Text.IsBreak ending) ∧
      (i + 1 = pieces.length → ending = []) := by
  induction pieces generalizing i with
  | nil => exact cut.elim
  | cons piece pieces ih =>
    obtain ⟨content', ending'⟩ := piece
    cases pieces with
    | nil =>
      cases i with
      | zero =>
        simp only [List.getElem?_cons_zero, Option.some.injEq, Prod.mk.injEq] at found
        obtain ⟨rfl, rfl⟩ := found
        refine ⟨cut.1, fun more => ?_, fun _ => cut.2⟩
        simp at more
      | succ i => simp at found
    | cons next rest =>
      obtain ⟨clean, ends, cut⟩ := cut
      cases i with
      | zero =>
        simp only [List.getElem?_cons_zero, Option.some.injEq, Prod.mk.injEq] at found
        obtain ⟨rfl, rfl⟩ := found
        refine ⟨clean, fun _ => ends, fun last => ?_⟩
        simp at last
      | succ i =>
        rw [List.getElem?_cons_succ] at found
        obtain ⟨clean, ends, last⟩ := ih cut found
        simp only [List.length_cons] at ends last ⊢
        exact ⟨clean, fun more => ends (by omega), fun stop => last (by omega)⟩

/-! ## Lines by number -/

namespace Document

/-- Where line `i` starts; the end of the document if there is no such line. -/
def lineStart (d : Document) (i : Nat) : Nat := ((d.table.line? i).map Line.start).getD d.length

/-- Where the content of line `i` stops; the end of the document if there is no such line. -/
def lineStop (d : Document) (i : Nat) : Nat := ((d.table.line? i).map Line.stop).getD d.length

section Lines

variable {d : Document} {i j offset : Nat}

theorem lineCount_eq (d : Document) : d.lineCount = (Text.cutLines d.text).length := by
  unfold lineCount LineTable.count
  rw [d.table_eq]
  exact length_layLines _ _ _

theorem lineCount_pos (d : Document) : 0 < d.lineCount := by
  rw [lineCount_eq]
  exact List.length_pos_iff.2 (Text.cutLines_ne_nil _)

theorem line?_eq (d : Document) (i : Nat) :
    d.table.line? i = (Text.cutLines d.text)[i]?.map fun piece =>
      { number := i
        content := .ofLength (Text.byteLength (Text.joinLines ((Text.cutLines d.text).take i)))
          (Text.byteLength piece.1)
        full := .ofLength (Text.byteLength (Text.joinLines ((Text.cutLines d.text).take i)))
          (Text.byteLength piece.1 + Text.byteLength piece.2) } := by
  unfold LineTable.line?
  rw [d.table_eq]
  show (layLines 0 0 (Text.cutLines d.text))[i]? = _
  rw [layLines_getElem?]
  simp only [Nat.zero_add]

theorem lineStart_of_le (past : d.lineCount ≤ i) : d.lineStart i = d.length := by
  unfold lineStart
  rw [line?_eq, List.getElem?_eq_none (by rw [← lineCount_eq]; exact past)]
  rfl

theorem lineStop_of_le (past : d.lineCount ≤ i) : d.lineStop i = d.length := by
  unfold lineStop
  rw [line?_eq, List.getElem?_eq_none (by rw [← lineCount_eq]; exact past)]
  rfl

theorem lineStart_eq (d : Document) (i : Nat) :
    d.lineStart i = Text.byteLength (Text.joinLines ((Text.cutLines d.text).take i)) := by
  by_cases inside : i < (Text.cutLines d.text).length
  · unfold lineStart
    rw [line?_eq, List.getElem?_eq_getElem inside]
    rfl
  · have past := Nat.le_of_not_lt inside
    rw [lineStart_of_le (by rw [lineCount_eq]; exact past), length_eq,
      List.take_of_length_le past]
    exact congrArg Text.byteLength (Text.join_cutLines d.text).symm

theorem lineStop_eq (d : Document) (i : Nat) :
    d.lineStop i = d.lineStart i +
      Text.byteLength (((Text.cutLines d.text)[i]?.map Prod.fst).getD []) := by
  by_cases inside : i < (Text.cutLines d.text).length
  · rw [lineStart_eq]
    unfold lineStop
    rw [line?_eq, List.getElem?_eq_getElem inside]
    rfl
  · have past := Nat.le_of_not_lt inside
    have count := d.lineCount_eq
    rw [lineStop_of_le (by omega), lineStart_of_le (by omega), List.getElem?_eq_none past]
    rfl

/-- A line cuts the text into what is before it, its content, its break and the rest. -/
theorem exists_line_cut (inside : i < d.lineCount) :
    ∃ before content ending after,
      d.text = before ++ content ++ ending ++ after ∧
      d.lineStart i = Text.byteLength before ∧
      d.lineStop i = Text.byteLength (before ++ content) ∧
      d.lineStart (i + 1) = Text.byteLength (before ++ content ++ ending) ∧
      '\n' ∉ content ∧
      (i + 1 < d.lineCount → Text.IsBreak ending) ∧
      (i + 1 = d.lineCount → ending = []) := by
  have bound : i < (Text.cutLines d.text).length := by rw [← lineCount_eq]; exact inside
  have shape := Text.cutLines_cut d.text
  have whole : Text.joinLines (Text.cutLines d.text) = d.text := Text.join_cutLines d.text
  have counted := d.lineCount_eq
  have placed := d.line?_eq
  revert bound shape whole counted placed
  generalize Text.cutLines d.text = pieces
  intro bound shape whole counted placed
  obtain ⟨⟨content, ending⟩, found⟩ : ∃ piece, pieces[i]? = some piece :=
    ⟨_, List.getElem?_eq_getElem bound⟩
  obtain ⟨clean, ends, last⟩ := shape.piece found
  have split : pieces.take (i + 1) = pieces.take i ++ [(content, ending)] := by
    rw [List.take_add_one, found]
    rfl
  have joined : Text.joinLines (pieces.take (i + 1)) =
      Text.joinLines (pieces.take i) ++ content ++ ending := by
    rw [split, Text.joinLines_append, Text.joinLines_cons, Text.joinLines_nil, List.append_nil,
      List.append_assoc]
  have text : d.text = Text.joinLines (pieces.take i) ++ content ++ ending ++
      Text.joinLines (pieces.drop (i + 1)) := by
    rw [← joined, ← Text.joinLines_append, List.take_append_drop, whole]
  refine ⟨Text.joinLines (pieces.take i), content, ending, Text.joinLines (pieces.drop (i + 1)),
    text, ?_, ?_, ?_, clean, fun more => ends (by omega), fun stop => last (by omega)⟩
  · unfold lineStart
    rw [placed, found]
    rfl
  · unfold lineStop
    rw [placed, found, Text.byteLength_append]
    rfl
  · by_cases more : i + 1 < pieces.length
    · unfold lineStart
      rw [placed, List.getElem?_eq_getElem more, ← joined]
      rfl
    · have rest : pieces.drop (i + 1) = [] := List.drop_eq_nil_of_le (by omega)
      rw [lineStart_of_le (by omega), length_eq, text, rest, Text.joinLines_nil, List.append_nil]

theorem lineOf_lt (d : Document) (offset : Nat) : d.lineOf offset < d.lineCount := by
  have positive := d.lineCount_pos
  have bound : d.table.lines.countP (·.start ≤ offset) ≤ d.table.lines.length :=
    List.countP_le_length
  unfold lineOf LineTable.lineOf
  unfold lineCount LineTable.count at positive ⊢
  omega

theorem lineStart_zero (d : Document) : d.lineStart 0 = 0 := by
  unfold lineStart
  rw [line?_eq]
  have nonempty := d.lineCount_pos
  rw [lineCount_eq] at nonempty
  rw [List.getElem?_eq_getElem nonempty]
  rfl

/-- A line is at or before the line of an offset exactly if it starts at or before the offset. -/
theorem le_lineOf_iff (inside : i < d.lineCount) :
    i ≤ d.lineOf offset ↔ d.lineStart i ≤ offset := by
  have sorted : d.table.lines.Pairwise fun a b => a.start < b.start := by
    rw [d.table_eq]
    exact (layLines_pairwise (Text.cutLines_cut d.text) 0 0).1
  -- the count is positive because the first line starts at zero
  have counted : ∀ k, k < d.lineCount →
      (k < d.table.lines.countP (·.start ≤ offset) ↔ d.lineStart k ≤ offset) := by
    intro k bound
    have found : d.table.lines[k]? = some (d.table.lines.get ⟨k, bound⟩) :=
      List.getElem?_eq_getElem bound
    rw [lt_countP_start_le_iff sorted found]
    unfold lineStart LineTable.line?
    rw [found]
    rfl
  have first := (counted 0 d.lineCount_pos).2 (by rw [lineStart_zero]; exact Nat.zero_le _)
  rw [← counted i inside]
  unfold lineOf LineTable.lineOf
  omega

theorem lineStart_lineOf_le (d : Document) (offset : Nat) :
    d.lineStart (d.lineOf offset) ≤ offset :=
  (le_lineOf_iff (d.lineOf_lt offset)).1 (Nat.le_refl _)

/-- An offset before the end of the document is before the start of the next line. -/
theorem lt_lineStart_succ (inside : offset < d.length) :
    offset < d.lineStart (d.lineOf offset + 1) := by
  by_cases more : d.lineOf offset + 1 < d.lineCount
  · by_contra behind
    have := (le_lineOf_iff more).2 (Nat.le_of_not_lt behind)
    omega
  · rw [lineStart_of_le (by omega)]
    exact inside

theorem le_lineStart_succ (inside : offset ≤ d.length) :
    offset ≤ d.lineStart (d.lineOf offset + 1) := by
  by_cases more : d.lineOf offset + 1 < d.lineCount
  · by_contra past
    have := (le_lineOf_iff more).2 (Nat.le_of_not_le past)
    omega
  · rw [lineStart_of_le (by omega)]
    exact inside

theorem lineOf_mono {first second : Nat} (le : first ≤ second) :
    d.lineOf first ≤ d.lineOf second :=
  (le_lineOf_iff (d.lineOf_lt first)).2 (Nat.le_trans (d.lineStart_lineOf_le first) le)

theorem boundary_lineStart (d : Document) (i : Nat) : d.Boundary (d.lineStart i) := by
  by_cases inside : i < d.lineCount
  · obtain ⟨before, content, ending, after, text, starts, -⟩ := exists_line_cut inside
    exact ⟨before, content ++ ending ++ after, by simp only [text, List.append_assoc],
      starts.symm⟩
  · rw [lineStart_of_le (by omega)]
    exact d.boundary_length

theorem boundary_lineStop (d : Document) (i : Nat) : d.Boundary (d.lineStop i) := by
  by_cases inside : i < d.lineCount
  · obtain ⟨before, content, ending, after, text, -, stops, -⟩ := exists_line_cut inside
    exact ⟨before ++ content, ending ++ after, by simp only [text, List.append_assoc], stops.symm⟩
  · rw [lineStop_of_le (by omega)]
    exact d.boundary_length

theorem lineStart_le_lineStop (d : Document) (i : Nat) : d.lineStart i ≤ d.lineStop i := by
  by_cases inside : i < d.lineCount
  · obtain ⟨before, content, ending, after, -, starts, stops, -⟩ := exists_line_cut inside
    rw [starts, stops, Text.byteLength_append]
    omega
  · rw [lineStart_of_le (by omega), lineStop_of_le (by omega)]

theorem lineStop_le_lineStart_succ (d : Document) (i : Nat) :
    d.lineStop i ≤ d.lineStart (i + 1) := by
  by_cases inside : i < d.lineCount
  · obtain ⟨before, content, ending, after, -, -, stops, next, -⟩ := exists_line_cut inside
    rw [stops, next, Text.byteLength_append _ ending]
    omega
  · rw [lineStop_of_le (by omega), lineStart_of_le (by omega)]

/-- A line break has one byte or two. -/
theorem lineStart_succ_bounds (more : i + 1 < d.lineCount) :
    d.lineStop i < d.lineStart (i + 1) ∧ d.lineStart (i + 1) ≤ d.lineStop i + 2 := by
  obtain ⟨before, content, ending, after, -, -, stops, next, -, ends, -⟩ :=
    exists_line_cut (Nat.lt_of_succ_lt more)
  rw [stops, next, Text.byteLength_append _ ending]
  have feed : '\n'.utf8Size = 1 := by decide
  have carriage : '\r'.utf8Size = 1 := by decide
  rcases ends more with rfl | rfl
  · simp only [Text.byteLength_cons, Text.byteLength_nil]
    omega
  · simp only [Text.byteLength_cons, Text.byteLength_nil]
    omega

theorem lineStart_mono (le : i ≤ j) : d.lineStart i ≤ d.lineStart j := by
  induction j with
  | zero =>
    obtain rfl := Nat.le_zero.1 le
    exact Nat.le_refl _
  | succ j ih =>
    rcases Nat.lt_or_ge j i with after | before
    · obtain rfl : i = j + 1 := by omega
      exact Nat.le_refl _
    · have step := d.lineStop_le_lineStart_succ j
      have inner := d.lineStart_le_lineStop j
      have := ih before
      omega

theorem lineStop_le_lineStart (lt : i < j) : d.lineStop i ≤ d.lineStart j :=
  Nat.le_trans (d.lineStop_le_lineStart_succ i) (lineStart_mono lt)

theorem lineStop_mono (le : i ≤ j) : d.lineStop i ≤ d.lineStop j := by
  rcases Nat.lt_or_ge i j with lt | ge
  · exact Nat.le_trans (lineStop_le_lineStart lt) (d.lineStart_le_lineStop j)
  · obtain rfl : i = j := by omega
    exact Nat.le_refl _

theorem lineStop_le_length (d : Document) (i : Nat) : d.lineStop i ≤ d.length :=
  (d.boundary_lineStop i).le_length

theorem lineOf_lineStop (inside : i < d.lineCount) : d.lineOf (d.lineStop i) = i := by
  apply Nat.le_antisymm
  · by_contra more
    have bound := d.lineOf_lt (d.lineStop i)
    have next : i + 1 < d.lineCount := by omega
    have := (le_lineOf_iff next).1 (Nat.lt_of_not_le more)
    have := (lineStart_succ_bounds next).1
    omega
  · exact (le_lineOf_iff inside).2 (d.lineStart_le_lineStop i)

/-- Every line has a byte of its own, but for the last. -/
theorem le_lineStart (inside : i < d.lineCount) : i ≤ d.lineStart i := by
  induction i with
  | zero => exact Nat.zero_le _
  | succ i ih =>
    have := ih (by omega)
    have := (lineStart_succ_bounds inside).1
    have := d.lineStart_le_lineStop i
    omega

theorem lineCount_le (d : Document) : d.lineCount ≤ d.length + 1 := by
  have positive := d.lineCount_pos
  have last := le_lineStart (d := d) (i := d.lineCount - 1) (by omega)
  have inside := (d.boundary_lineStart (d.lineCount - 1)).le_length
  omega

end Lines

/-! ## The line of an offset -/

section LineAt

variable {d : Document} {offset : Nat}

theorem exists_line? {i : Nat} (inside : i < d.lineCount) :
    ∃ line, d.table.line? i = some line ∧ line.number = i ∧ line.start = d.lineStart i ∧
      line.stop = d.lineStop i := by
  obtain ⟨line, found⟩ : ∃ line, d.table.line? i = some line :=
    ⟨_, List.getElem?_eq_getElem inside⟩
  refine ⟨line, found, ?_, ?_, ?_⟩
  · rw [line?_eq] at found
    obtain ⟨piece, -, placed⟩ := Option.map_eq_some_iff.1 found
    rw [← placed]
  · unfold lineStart
    rw [found]
    rfl
  · unfold lineStop
    rw [found]
    rfl

theorem exists_line {i : Nat} (inside : i < d.lineCount) :
    ∃ line, d.line i = .ok line ∧ line.number = i ∧ line.start = d.lineStart i ∧
      line.stop = d.lineStop i := by
  obtain ⟨line, found, places⟩ := exists_line? inside
  refine ⟨line, ?_, places⟩
  unfold Document.line
  rw [found]

theorem lineAt_eq (d : Document) (offset : Nat) :
    (d.lineAt offset).number = d.lineOf offset ∧
      (d.lineAt offset).start = d.lineStart (d.lineOf offset) ∧
      (d.lineAt offset).stop = d.lineStop (d.lineOf offset) := by
  obtain ⟨line, found, numbered, starts, stops⟩ := exists_line? (d.lineOf_lt offset)
  have here : d.lineAt offset = line := by
    unfold lineAt
    simp only [found, Option.getD_some]
  rw [here]
  exact ⟨numbered, starts, stops⟩

theorem lineAt_number (d : Document) (offset : Nat) :
    (d.lineAt offset).number = d.lineOf offset :=
  (d.lineAt_eq offset).1

theorem lineAt_start (d : Document) (offset : Nat) :
    (d.lineAt offset).start = d.lineStart (d.lineOf offset) :=
  (d.lineAt_eq offset).2.1

theorem lineAt_stop (d : Document) (offset : Nat) :
    (d.lineAt offset).stop = d.lineStop (d.lineOf offset) :=
  (d.lineAt_eq offset).2.2

theorem line_of_le {i : Nat} (past : d.lineCount ≤ i) :
    d.line i = .error (.noSuchLine i d.lineCount) := by
  unfold Document.line LineTable.line?
  rw [List.getElem?_eq_none past]

/-- A line asked for by number. -/
theorem line_eq_ok {number : Nat} {line : Line} (found : d.line number = .ok line) :
    number < d.lineCount ∧ line.start = d.lineStart number ∧ line.stop = d.lineStop number := by
  unfold Document.line at found
  cases looked : d.table.line? number with
  | none => rw [looked] at found; cases found
  | some other =>
    rw [looked] at found
    cases found
    refine ⟨?_, ?_, ?_⟩
    · exact (List.getElem?_eq_some_iff.1 looked).1
    · unfold lineStart
      rw [looked]
      rfl
    · unfold lineStop
      rw [looked]
      rfl

end LineAt

/-! ## Just before a place -/

section EndBefore

variable {d : Document} {offset : Nat}

/-- An offset behind the content of its line stands inside a break of two characters. -/
theorem Boundary.exists_break_of_lt (boundary : d.Boundary offset)
    (past : d.lineStop (d.lineOf offset) < offset) :
    ∃ front rest, d.text = front ++ '\r' :: '\n' :: rest ∧
      Text.byteLength (front ++ ['\r']) = offset := by
  obtain ⟨front, rest, cut, bytes⟩ := boundary
  have inside : offset ≤ d.length := by
    rw [length_eq, cut, Text.byteLength_append]
    omega
  have bound := d.lineOf_lt offset
  obtain ⟨before, content, ending, after, text, -, stops, next, -, ends, last⟩ :=
    exists_line_cut bound
  have more : d.lineOf offset + 1 < d.lineCount := by
    by_contra none
    have final : d.lineOf offset + 1 = d.lineCount := by omega
    rw [last final, List.append_nil, lineStart_of_le (by omega)] at next
    omega
  have early : offset < d.lineStart (d.lineOf offset + 1) := by
    by_contra late
    have := (le_lineOf_iff more).2 (Nat.le_of_not_lt late)
    omega
  -- the break is cut by the offset into two parts that are not empty
  obtain ⟨middle, middle', parts, longer⟩ :=
    Text.exists_parts (text.symm.trans cut) (by omega) (by omega)
  have left_ne : middle ≠ [] := by
    intro none
    rw [longer, none, List.append_nil] at bytes
    omega
  have right_ne : middle' ≠ [] := by
    intro none
    rw [none, List.append_nil] at parts
    rw [next, parts, ← longer] at early
    omega
  have carriage : middle = ['\r'] ∧ middle' = ['\n'] := by
    rcases ends more with feed | both
    · rw [feed] at parts
      rcases List.append_eq_cons_iff.1 parts.symm with ⟨none, -⟩ | ⟨tail, -, rest⟩
      · exact absurd none left_ne
      · exact absurd (List.append_eq_nil_iff.1 rest.symm).2 right_ne
    · rw [both] at parts
      rcases List.append_eq_cons_iff.1 parts.symm with ⟨none, -⟩ | ⟨tail, rfl, rest⟩
      · exact absurd none left_ne
      · rcases List.append_eq_cons_iff.1 rest.symm with ⟨rfl, feed⟩ | ⟨tail', -, rest⟩
        · exact ⟨rfl, feed⟩
        · exact absurd (List.append_eq_nil_iff.1 rest.symm).2 right_ne
  refine ⟨before ++ content, after, ?_, ?_⟩
  · rw [text, parts, carriage.1, carriage.2]
    simp only [List.append_assoc, List.cons_append, List.nil_append]
  · rw [← carriage.1, ← longer, bytes]

/-- An offset that is not before a line feed is not behind the content of its line. -/
theorem Boundary.le_lineStop (boundary : d.Boundary offset)
    (next : d.charAt? offset ≠ some '\n') : offset ≤ d.lineStop (d.lineOf offset) := by
  by_contra past
  obtain ⟨front, rest, text, bytes⟩ := boundary.exists_break_of_lt (Nat.lt_of_not_le past)
  have dropped : Text.dropBytes? offset d.text = some ('\n' :: rest) :=
    Text.dropBytes?_eq_some_iff.2 ⟨front ++ ['\r'], by rw [text]; simp, bytes⟩
  apply next
  unfold charAt?
  rw [dropped]
  rfl

theorem exists_blank_of_blankBefore (blank : d.blankBefore offset = true) :
    ∃ front blanks rest, d.text = front ++ blanks ++ rest ∧
      Text.byteLength front = d.lineStart (d.lineOf offset) ∧
      Text.byteLength (front ++ blanks) = offset ∧ Text.allBlank blanks = true := by
  unfold blankBefore at blank
  have starts := d.lineAt_start offset
  have ordered : (d.lineAt offset).start ≤ offset := by
    rw [starts]
    exact d.lineStart_lineOf_le offset
  simp only [ordered, dif_pos] at blank
  unfold slice at blank
  cases found : Text.slice? (d.lineAt offset).start offset d.text with
  | none => simp only [found] at blank; cases blank
  | some blanks =>
    simp only [found] at blank
    obtain ⟨front, rest, text, front_bytes, bytes⟩ := Text.slice?_eq_some_iff.1 found
    exact ⟨front, blanks, rest, text, front_bytes.trans starts, bytes, blank⟩

theorem endBefore_eq (d : Document) (offset : Nat) :
    d.endBefore offset =
      if 0 < d.lineOf offset ∧ d.blankBefore offset = true then d.lineStop (d.lineOf offset - 1)
      else offset := by
  unfold endBefore
  simp only [lineAt_number, Bool.and_eq_true, decide_eq_true_eq]
  split
  next indented =>
    obtain ⟨line, found, -, -, stops⟩ :=
      exists_line? (d := d) (i := d.lineOf offset - 1) (by have := d.lineOf_lt offset; omega)
    rw [found, ← stops]
    rfl
  next => rfl

theorem endBefore_le (d : Document) (offset : Nat) : d.endBefore offset ≤ offset := by
  rw [endBefore_eq]
  split
  next indented =>
    have above := lineStop_le_lineStart (d := d) (i := d.lineOf offset - 1)
      (j := d.lineOf offset) (by omega)
    have := d.lineStart_lineOf_le offset
    omega
  next => exact Nat.le_refl _

theorem Boundary.endBefore (boundary : d.Boundary offset) : d.Boundary (d.endBefore offset) := by
  rw [endBefore_eq]
  split
  next => exact d.boundary_lineStop _
  next => exact boundary

/-- The text up to the offset ends in a visible character and more characters of its line. -/
def EndsVisibly (d : Document) (offset : Nat) : Prop :=
  ∃ front c back rest, d.text = front ++ c :: back ++ rest ∧
    Text.byteLength (front ++ c :: back) = offset ∧ Text.isBlank c = false ∧
    ∀ x ∈ back, x ≠ '\n' ∧ x ≠ '\r'

theorem EndsVisibly.boundary (visible : d.EndsVisibly offset) : d.Boundary offset := by
  obtain ⟨front, c, back, rest, text, bytes, -⟩ := visible
  exact ⟨front ++ c :: back, rest, text, bytes⟩

/-- No line break ends at a visible end. -/
theorem EndsVisibly.not_after_break {front rest : List Char} {x : Char}
    (visible : d.EndsVisibly offset) (text : d.text = front ++ [x] ++ rest)
    (bytes : Text.byteLength (front ++ [x]) = offset) : x ≠ '\n' ∧ x ≠ '\r' := by
  obtain ⟨front', c, back, rest', text', bytes', shown, clean⟩ := visible
  have same :=
    (Text.front_eq_of_byteLength_eq (text.symm.trans text') (bytes.trans bytes'.symm)).1
  have final : x ∈ (c :: back).getLast? := by
    have ends := congrArg List.getLast? same
    rw [List.getLast?_append, List.getLast?_append] at ends
    simpa using ends.symm
  have member := List.mem_of_getLast? final
  rcases List.mem_cons.1 member with rfl | member
  · refine ⟨?_, ?_⟩ <;> (intro broken; subst broken; revert shown; decide)
  · exact clean x member

theorem EndsVisibly.le_lineStop (visible : d.EndsVisibly offset) :
    offset ≤ d.lineStop (d.lineOf offset) := by
  by_contra past
  obtain ⟨front, rest, text, bytes⟩ :=
    visible.boundary.exists_break_of_lt (Nat.lt_of_not_le past)
  have carriage : d.text = front ++ ['\r'] ++ '\n' :: rest := by
    rw [text]
    simp
  exact (visible.not_after_break carriage bytes).2 rfl

/-- A visible end before a line is in the content of the line above. -/
theorem EndsVisibly.le_lineStop_of_le_lineStart (visible : d.EndsVisibly offset) {i : Nat}
    (more : i + 1 < d.lineCount) (le : offset ≤ d.lineStart (i + 1)) : offset ≤ d.lineStop i := by
  by_contra past
  obtain ⟨before, content, ending, after, text, -, stops, next, -, ends, -⟩ :=
    exists_line_cut (Nat.lt_of_succ_lt more)
  obtain ⟨front, rest, cut, bytes⟩ := visible.boundary
  obtain ⟨middle, middle', parts, longer⟩ :=
    Text.exists_parts (text.symm.trans cut) (by omega) (by omega)
  obtain ⟨start, x, rfl⟩ : ∃ start x, middle = start ++ [x] := by
    rcases List.eq_nil_or_concat middle with none | ⟨start, x, last⟩
    · rw [longer, none, List.append_nil] at bytes
      omega
    · exact ⟨start, x, by rw [last, List.concat_eq_append]⟩
  rw [← List.append_assoc] at longer
  have clean := visible.not_after_break (by rw [cut, longer]) (by rw [← longer, bytes])
  have member : x ∈ ending := by rw [parts]; simp
  rcases ends more with broken | broken
  · rw [broken, List.mem_singleton] at member
    exact clean.1 member
  · rw [broken] at member
    rcases List.mem_cons.1 member with carriage | member
    · exact clean.2 carriage
    · exact clean.1 (List.mem_singleton.1 member)

/-- A visible end that is not behind an indented place is above the line of that place. -/
theorem EndsVisibly.le_lineStart (visible : d.EndsVisibly offset) {place : Nat}
    (le : offset ≤ place) (below : 0 < d.lineOf place) (blank : d.blankBefore place = true) :
    offset ≤ d.lineStart (d.lineOf place) := by
  by_contra inner
  have bound := d.lineOf_lt place
  obtain ⟨before, content, ending, after, text, -, -, next, -, ends, -⟩ :=
    exists_line_cut (d := d) (i := d.lineOf place - 1) (by omega)
  rw [Nat.sub_add_cancel below] at next ends
  obtain ⟨lead, feed⟩ : ∃ lead, ending = lead ++ ['\n'] := by
    rcases ends bound with rfl | rfl
    · exact ⟨[], rfl⟩
    · exact ⟨['\r'], rfl⟩
  obtain ⟨margin, blanks, rest, text', margin_bytes, place_bytes, blank⟩ :=
    exists_blank_of_blankBefore blank
  have same : margin ++ (blanks ++ rest) = before ++ content ++ ending ++ after := by
    rw [← text, text', List.append_assoc]
  obtain ⟨rfl, -⟩ := Text.front_eq_of_byteLength_eq same (by rw [margin_bytes, next])
  obtain ⟨front, c, back, rest', text'', bytes, seen, clean⟩ := visible
  obtain ⟨middle, middle', parts, longer⟩ :=
    Text.exists_parts (text'.symm.trans text'') (by omega) (by omega)
  have unseen : c ∉ middle := by
    intro member
    have blank_c :=
      List.all_eq_true.1 blank c (by rw [parts]; exact List.mem_append_left _ member)
    rw [seen] at blank_c
    cases blank_c
  -- so the visible character is above, and the line feed between is behind it
  rcases List.append_eq_append_iff.1 longer with ⟨tail, split, left⟩ | ⟨tail, split, left⟩
  · cases tail with
    | nil =>
      rw [List.nil_append] at left
      exact unseen (by rw [← left]; exact List.mem_cons_self)
    | cons x tail =>
      have final : '\n' ∈ c :: back := by
        rw [left]
        apply List.mem_append_left
        have last := congrArg List.getLast? split
        rw [feed, ← List.append_assoc, List.getLast?_append, List.getLast?_append] at last
        apply List.mem_of_getLast?
        simpa using last.symm
      rcases List.mem_cons.1 final with rfl | member
      · revert seen
        decide
      · exact (clean _ member).1 rfl
  · exact unseen (by rw [left]; simp)

/-- A visible end is not behind `endBefore` of a later place. -/
theorem EndsVisibly.le_endBefore (visible : d.EndsVisibly offset) {place : Nat}
    (le : offset ≤ place) : offset ≤ d.endBefore place := by
  rw [endBefore_eq]
  split
  next indented =>
    obtain ⟨below, blank⟩ := indented
    have bound := d.lineOf_lt place
    have above := visible.le_lineStart le below blank
    apply visible.le_lineStop_of_le_lineStart
    · omega
    · rw [Nat.sub_add_cancel below]
      exact above
  next => exact le

/-- A line above an offset ends before `endBefore` of it. -/
theorem lineStop_le_endBefore {i : Nat} (above : i < d.lineOf offset) :
    d.lineStop i ≤ d.endBefore offset := by
  rw [endBefore_eq]
  split
  next => exact lineStop_mono (by omega)
  next => exact Nat.le_trans (lineStop_le_lineStart above) (d.lineStart_lineOf_le offset)

/-- A line break has at most two bytes, so what is before an offset is not behind the content of
the offset's line. -/
theorem le_lineStop_of_lt {place : Nat} (lt : place < offset)
    (more : d.lineOf offset + 1 < d.lineCount) : place ≤ d.lineStop (d.lineOf offset) := by
  have break_ := (lineStart_succ_bounds more).2
  have below : offset < d.lineStart (d.lineOf offset + 1) := by
    by_contra past
    have := (le_lineOf_iff more).2 (Nat.le_of_not_lt past)
    omega
  omega

/-- The offset stands in the content of its line, not inside its break. -/
def InContent (d : Document) (offset : Nat) : Prop := offset ≤ d.lineStop (d.lineOf offset)

theorem inContent_lineStop {i : Nat} (inside : i < d.lineCount) : d.InContent (d.lineStop i) := by
  unfold InContent
  rw [lineOf_lineStop inside]

theorem inContent_length (d : Document) : d.InContent d.length := by
  apply d.boundary_length.le_lineStop
  unfold charAt?
  have dropped : Text.dropBytes? d.length d.text = some [] :=
    Text.dropBytes?_eq_some_iff.2 ⟨d.text, (List.append_nil _).symm, d.length_eq.symm⟩
  rw [dropped]
  exact fun feed => nomatch feed

theorem InContent.endBefore (content : d.InContent offset) :
    d.InContent (d.endBefore offset) := by
  rw [endBefore_eq]
  split
  next =>
    have := d.lineOf_lt offset
    exact inContent_lineStop (by omega)
  next => exact content

/-- A place in the content of its line is not behind the content of a later line. -/
theorem InContent.le_lineStop (content : d.InContent offset) {n : Nat}
    (le : d.lineOf offset ≤ n) : offset ≤ d.lineStop n :=
  Nat.le_trans content (lineStop_mono le)

end EndBefore

/-! ## Slices between places -/

section Slices

variable {d : Document} {first middle last : Nat}

theorem slice_eq_ok_iff {span : Span} {cs : List Char} :
    d.slice span = .ok cs ↔ Text.slice? span.start span.stop d.text = some cs := by
  unfold slice
  cases Text.slice? span.start span.stop d.text with
  | none => exact iff_of_false nofun nofun
  | some middle => exact ⟨fun same => congrArg some (Except.ok.inj same),
      fun same => congrArg Except.ok (Option.some.inj same)⟩

theorem slice?_append {left right : List Char}
    (sliced : Text.slice? first middle d.text = some left)
    (sliced' : Text.slice? middle last d.text = some right) :
    Text.slice? first last d.text = some (left ++ right) := by
  obtain ⟨front, rest, text, starts, middles⟩ := Text.slice?_eq_some_iff.1 sliced
  obtain ⟨front', rest', text', middles', stops⟩ := Text.slice?_eq_some_iff.1 sliced'
  have same : front ++ left ++ rest = front' ++ (right ++ rest') := by
    rw [← text, text', List.append_assoc]
  obtain ⟨rfl, rfl⟩ := Text.front_eq_of_byteLength_eq same (middles.trans middles'.symm)
  refine Text.slice?_eq_some_iff.2 ⟨front, rest', ?_, starts, ?_⟩
  · rw [text', List.append_assoc front left right]
  · rw [← List.append_assoc]
    exact stops

/-- A boundary inside a slice cuts it in two. -/
theorem Boundary.split_slice? {cs : List Char} (boundary : d.Boundary middle)
    (sliced : Text.slice? first last d.text = some cs) (low : first ≤ middle)
    (high : middle ≤ last) :
    ∃ left right, cs = left ++ right ∧ Text.slice? first middle d.text = some left ∧
      Text.slice? middle last d.text = some right := by
  obtain ⟨front, rest, text, starts, stops⟩ := Text.slice?_eq_some_iff.1 sliced
  obtain ⟨cut, behind, text', bytes⟩ := boundary
  obtain ⟨left, right, rfl, rfl⟩ :=
    Text.exists_parts (text.symm.trans text') (by omega) (by omega)
  refine ⟨left, right, rfl, ?_, ?_⟩
  · refine Text.slice?_eq_some_iff.2 ⟨front, right ++ rest, ?_, starts, bytes⟩
    simp only [text, List.append_assoc]
  · refine Text.slice?_eq_some_iff.2 ⟨front ++ left, rest, ?_, bytes, ?_⟩
    · simp only [text, List.append_assoc]
    · rw [List.append_assoc]
      exact stops

/-- The text between two boundaries exists. -/
theorem Boundary.exists_slice? (low : d.Boundary first) (high : d.Boundary last)
    (le : first ≤ last) : ∃ cs, Text.slice? first last d.text = some cs := by
  have whole : Text.slice? 0 d.length d.text = some d.text :=
    Text.slice?_eq_some_iff.2 ⟨[], [], by simp, rfl, d.length_eq.symm⟩
  obtain ⟨-, behind, -, -, sliced⟩ := low.split_slice? whole (Nat.zero_le _) low.le_length
  obtain ⟨cs, -, -, found, -⟩ := high.split_slice? sliced le high.le_length
  exact ⟨cs, found⟩

end Slices

/-! ## Blank text between places -/

/-- Only blanks stand between the two offsets. -/
def BlankBetween (d : Document) (first last : Nat) : Prop :=
  ∃ gap, Text.slice? first last d.text = some gap ∧ Text.allBlank gap = true

section BlankBetween

variable {d : Document} {first middle last : Nat}

theorem BlankBetween.le (blank : d.BlankBetween first last) : first ≤ last := by
  obtain ⟨gap, sliced, -⟩ := blank
  obtain ⟨front, rest, -, starts, stops⟩ := Text.slice?_eq_some_iff.1 sliced
  rw [Text.byteLength_append] at stops
  omega

theorem Boundary.blankBetween_self (boundary : d.Boundary first) :
    d.BlankBetween first first := by
  obtain ⟨front, rest, text, bytes⟩ := boundary
  refine ⟨[], Text.slice?_eq_some_iff.2 ⟨front, rest, ?_, bytes, ?_⟩, rfl⟩
  · rw [List.append_nil, text]
  · rw [List.append_nil, bytes]

theorem BlankBetween.trans (left : d.BlankBetween first middle)
    (right : d.BlankBetween middle last) : d.BlankBetween first last := by
  obtain ⟨gap, sliced, blank⟩ := left
  obtain ⟨gap', sliced', blank'⟩ := right
  refine ⟨gap ++ gap', slice?_append sliced sliced', ?_⟩
  unfold Text.allBlank at blank blank' ⊢
  rw [List.all_append, blank, blank']
  rfl

/-- A boundary among blanks has only blanks on both sides. -/
theorem BlankBetween.split (blank : d.BlankBetween first last) (boundary : d.Boundary middle)
    (low : first ≤ middle) (high : middle ≤ last) :
    d.BlankBetween first middle ∧ d.BlankBetween middle last := by
  obtain ⟨gap, sliced, blank⟩ := blank
  obtain ⟨left, right, rfl, before, behind⟩ := boundary.split_slice? sliced low high
  unfold Text.allBlank at blank
  rw [List.all_append, Bool.and_eq_true] at blank
  exact ⟨⟨left, before, blank.1⟩, ⟨right, behind, blank.2⟩⟩

/-- A line break is blank. -/
theorem blankBetween_break (d : Document) (i : Nat) :
    d.BlankBetween (d.lineStop i) (d.lineStart (i + 1)) := by
  by_cases inside : i < d.lineCount
  · obtain ⟨before, content, ending, after, text, -, stops, next, -, ends, last⟩ :=
      exists_line_cut inside
    refine ⟨ending, Text.slice?_eq_some_iff.2
      ⟨before ++ content, after, text, stops.symm, next.symm⟩, ?_⟩
    by_cases more : i + 1 < d.lineCount
    · rcases ends more with rfl | rfl <;> decide
    · rw [last (by omega)]
      rfl
  · rw [lineStop_of_le (by omega), lineStart_of_le (by omega)]
    exact d.boundary_length.blankBetween_self

/-- A place behind the content of its line stands in the line break. -/
theorem Boundary.blankBetween_of_lineStop_le {offset : Nat} (boundary : d.Boundary offset)
    (past : d.lineStop (d.lineOf offset) ≤ offset) :
    d.BlankBetween (d.lineStop (d.lineOf offset)) offset ∧
      d.BlankBetween offset (d.lineStart (d.lineOf offset + 1)) :=
  (d.blankBetween_break (d.lineOf offset)).split boundary past
    (le_lineStart_succ boundary.le_length)

theorem blankBetween_of_blankBefore (blank : d.blankBefore last = true) :
    d.BlankBetween (d.lineStart (d.lineOf last)) last := by
  obtain ⟨front, blanks, rest, text, starts, stops, blank⟩ := exists_blank_of_blankBefore blank
  exact ⟨blanks, Text.slice?_eq_some_iff.2 ⟨front, rest, text, starts, stops⟩, blank⟩

/-- The content of a line is its text from start to stop. -/
theorem slice?_line {number : Nat} {line : Line} (found : d.line number = .ok line) :
    Text.slice? (d.lineStart number) (d.lineStop number) d.text =
      some (d.sliceOrEmpty line.content) := by
  obtain ⟨inside, starts, stops⟩ := line_eq_ok found
  obtain ⟨before, content, ending, after, text, front, bytes, -⟩ := exists_line_cut inside
  have sliced : Text.slice? (d.lineStart number) (d.lineStop number) d.text = some content :=
    Text.slice?_eq_some_iff.2
      ⟨before, ending ++ after, by rw [text, List.append_assoc], front.symm, bytes.symm⟩
  have whole : d.slice line.content = .ok content := by
    unfold slice
    rw [show line.content.start = d.lineStart number from starts,
      show line.content.stop = d.lineStop number from stops, sliced]
  unfold sliceOrEmpty
  rw [whole, sliced]
  rfl

/-- Something stands before the end of a line that is not blank. -/
theorem blankBefore_lineStop {number : Nat} {line : Line} (found : d.line number = .ok line) :
    d.blankBefore (d.lineStop number) = Text.allBlank (d.sliceOrEmpty line.content) := by
  have sliced := slice?_line found
  have starts := d.lineAt_start (d.lineStop number)
  rw [lineOf_lineStop (line_eq_ok found).1] at starts
  unfold blankBefore
  dsimp only
  rw [dif_pos (by rw [starts]; exact d.lineStart_le_lineStop number)]
  unfold slice
  rw [← starts] at sliced
  simp only [sliced]

end BlankBetween

end Document

end CodeFolding
