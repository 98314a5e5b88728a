import Mathlib
import CodeFolding.Proofs.Runs

/-!
# One code in two layouts

A document is laid out anew when its tokens and its line ends keep their order but stand at other
offsets (`Document.Relaid`).  Which offsets of the two documents are the same place is a relation,
and all lines move down by the same number.  Cursors and trees at the same places then see the
same: tokens, lines, blanks and headers.

* `Document.Relaid.endBefore`: the end of what stands before a place.
* `Cursor.Relaid.skipTo`: the place after a label.
* `Tree.Relaid.extendStart`: the header of a block.
-/

namespace CodeFolding

/-! ## Two documents -/

namespace Token

/-- Tokens at the same place.  A comment or a literal may be written in another way, as long as a
comment is closed in both or in neither. -/
structure Relaid (same : Nat → Nat → Prop) (t t' : Token) : Prop where
  category : t'.category = t.category
  start : same t.start t'.start
  stop : same t.stop t'.stop
  text : t.category.isComment = false → t.category ≠ .stringLiteral → t'.text = t.text
  unclosed : t'.isUnclosedComment = t.isUnclosedComment

end Token

/-- The second document is the first one in another layout, `down` lines further down.  The
relation says which offsets are the same place. -/
structure Document.Relaid (down : Nat) (same : Nat → Nat → Prop) (d d' : Document) : Prop where
  lines : d'.lineCount = d.lineCount + down
  lineStart : ∀ n, same (d.lineStart n) (d'.lineStart (n + down))
  lineStop : ∀ n, same (d.lineStop n) (d'.lineStop (n + down))
  exists_same : ∀ {o}, d.Boundary o → ∃ o', same o o'
  boundary : ∀ {o o'}, same o o' → d.Boundary o ∧ d'.Boundary o'
  lt_iff : ∀ {a a' b b'}, same a a' → same b b' → (a < b ↔ a' < b')
  blank_iff : ∀ {a a' b b'}, same a a' → same b b' → (d.BlankBetween a b ↔ d'.BlankBetween a' b')
  top : ∀ n < down, d'.blankBefore (d'.lineStop n) = true
  tokens : List.Forall₂ (Token.Relaid same) (classify d.text) (classify d'.text)

namespace Document

theorem blankBefore_iff {d : Document} {offset : Nat} :
    d.blankBefore offset = true ↔ d.BlankBetween (d.lineStart (d.lineOf offset)) offset := by
  refine ⟨blankBetween_of_blankBefore, ?_⟩
  rintro ⟨gap, sliced, blank⟩
  have starts := d.lineAt_start offset
  have before : (d.lineAt offset).start ≤ offset := by
    rw [starts]
    exact d.lineStart_lineOf_le offset
  have slice : d.slice ⟨(d.lineAt offset).start, offset, before⟩ = .ok gap := by
    rw [slice_eq_ok_iff]
    show Text.slice? (d.lineAt offset).start offset d.text = some gap
    rw [starts]
    exact sliced
  unfold blankBefore
  dsimp only
  rw [dif_pos before, slice]
  exact blank

namespace Relaid

variable {down : Nat} {same : Nat → Nat → Prop} {d d' : Document} {o o' a a' b b' : Nat}

theorem le_iff (laid : Relaid down same d d') (first : same a a') (second : same b b') :
    a ≤ b ↔ a' ≤ b' := by
  rw [← Nat.not_lt, ← Nat.not_lt, laid.lt_iff second first]

theorem eq_iff (laid : Relaid down same d d') (first : same a a') (second : same b b') :
    a = b ↔ a' = b' := by
  rw [Nat.le_antisymm_iff, Nat.le_antisymm_iff, laid.le_iff first second,
    laid.le_iff second first]

theorem max (laid : Relaid down same d d') (first : same a a') (second : same b b') :
    same (max a b) (max a' b') := by
  rcases Nat.le_total a b with le | le
  · rw [Nat.max_eq_right le, Nat.max_eq_right ((laid.le_iff first second).1 le)]
    exact second
  · rw [Nat.max_eq_left le, Nat.max_eq_left ((laid.le_iff second first).1 le)]
    exact first

theorem min (laid : Relaid down same d d') (first : same a a') (second : same b b') :
    same (min a b) (min a' b') := by
  rcases Nat.le_total a b with le | le
  · rw [Nat.min_eq_left le, Nat.min_eq_left ((laid.le_iff first second).1 le)]
    exact first
  · rw [Nat.min_eq_right le, Nat.min_eq_right ((laid.le_iff second first).1 le)]
    exact second

/-- The ends of the documents are the same place. -/
theorem length (laid : Relaid down same d d') : same d.length d'.length := by
  have last := laid.lineStart d.lineCount
  rw [lineStart_of_le (Nat.le_refl _), lineStart_of_le (Nat.le_of_eq laid.lines)] at last
  exact last

theorem lineOf (laid : Relaid down same d d') (here : same o o') :
    d'.lineOf o' = d.lineOf o + down := by
  have lines := laid.lines
  have first := d.lineOf_lt o
  have second := d'.lineOf_lt o'
  have low : d.lineOf o + down ≤ d'.lineOf o' := by
    rw [le_lineOf_iff (by omega), ← laid.le_iff (laid.lineStart _) here]
    exact d.lineStart_lineOf_le o
  obtain ⟨n, there⟩ := Nat.exists_eq_add_of_le' (Nat.le_of_add_left_le low)
  have high : n ≤ d.lineOf o := by
    rw [le_lineOf_iff (by omega), laid.le_iff (laid.lineStart n) here, ← there]
    exact d'.lineStart_lineOf_le o'
  omega

theorem lineOf_beq (laid : Relaid down same d d') (first : same a a') (second : same b b') :
    (d'.lineOf a' == d'.lineOf b') = (d.lineOf a == d.lineOf b) := by
  rw [Bool.eq_iff_iff, beq_iff_eq, beq_iff_eq, laid.lineOf first, laid.lineOf second]
  omega

theorem lineAt_stop (laid : Relaid down same d d') (here : same o o') :
    same (d.lineAt o).stop (d'.lineAt o').stop := by
  rw [Document.lineAt_stop, Document.lineAt_stop, laid.lineOf here]
  exact laid.lineStop _

theorem blankBefore (laid : Relaid down same d d') (here : same o o') :
    d'.blankBefore o' = d.blankBefore o := by
  rw [Bool.eq_iff_iff, blankBefore_iff, blankBefore_iff, laid.lineOf here]
  exact (laid.blank_iff (laid.lineStart _) here).symm

/-- On the first line of the first document, where the second may have a line above, something has
to stand before the place. -/
theorem endBefore (laid : Relaid down same d d') (here : same o o')
    (below : d.blankBefore o = true → 0 < d.lineOf o) :
    same (d.endBefore o) (d'.endBefore o') := by
  rw [endBefore_eq, endBefore_eq, laid.lineOf here, laid.blankBefore here]
  cases blank : d.blankBefore o with
  | false => simpa using here
  | true =>
    have under := below blank
    rw [if_pos ⟨under, rfl⟩, if_pos ⟨Nat.add_pos_left under down, rfl⟩,
      Nat.sub_add_comm (n := d.lineOf o) under]
    exact laid.lineStop _

/-! ### Headers -/

theorem lineAbove?_top (laid : Relaid down same d d') (floor : Nat) {n : Nat} (le : n ≤ down) :
    lineAbove? d' floor n = none := by
  induction n with
  | zero => rfl
  | succ n ih =>
    obtain ⟨line, found, -⟩ := exists_line (d := d') (i := n) (by rw [laid.lines]; omega)
    have blank := laid.top n le
    rw [blankBefore_lineStop found] at blank
    rw [lineAbove?, found]
    dsimp only
    rw [if_pos blank, ih (Nat.le_of_succ_le le), ite_self]

theorem lineAbove? (laid : Relaid down same d d') {floor floor' : Nat}
    (floors : ∀ n, n + down < floor' ↔ n < floor) {number : Nat} (inside : number ≤ d.lineCount) :
    Option.Rel (fun line line' => same line.stop line'.stop) (lineAbove? d floor number)
      (lineAbove? d' floor' (number + down)) := by
  induction number with
  | zero =>
    rw [Nat.zero_add, laid.lineAbove?_top floor' (Nat.le_refl down)]
    exact .none
  | succ number ih =>
    have lines := laid.lines
    obtain ⟨line, found, -, -, stops⟩ := exists_line (d := d) (i := number) inside
    obtain ⟨line', found', -, -, stops'⟩ :=
      exists_line (d := d') (i := number + down) (by omega)
    rw [Nat.add_right_comm, CodeFolding.lineAbove?, CodeFolding.lineAbove?, found, found']
    by_cases low : number < floor
    · rw [if_pos low, if_pos ((floors number).2 low)]
      exact .none
    · rw [if_neg low, if_neg (low ∘ (floors number).1)]
      dsimp only
      rw [← blankBefore_lineStop found, ← blankBefore_lineStop found',
        laid.blankBefore (laid.lineStop number)]
      split
      next => exact ih (Nat.le_of_succ_le inside)
      next =>
        refine .some ?_
        rw [stops, stops']
        exact laid.lineStop number

end Relaid

/-- A token of the text before an offset leaves its line not blank, unless the offset is below. -/
theorem lineOf_pos_of_blankBefore {d : Document} {t : Token} {o : Nat}
    (member : t ∈ classify d.text) (before : t.start < o) (blank : d.blankBefore o = true) :
    0 < d.lineOf o := by
  by_contra first
  have gap := blankBetween_of_blankBefore blank
  rw [Nat.eq_zero_of_not_pos first, lineStart_zero] at gap
  obtain ⟨-, spaces, sliced, blanks⟩ :=
    gap.split ((classify_wellFormed d).boundary_start member) (Nat.zero_le _)
      (Nat.le_of_lt before)
  obtain ⟨front, rest, text, starts, -, lexed⟩ := classify_around member
  obtain ⟨front', rest', text', starts', stops'⟩ := Text.slice?_eq_some_iff.1 sliced
  have same : front' ++ (spaces ++ rest') = front ++ (t.text ++ rest) := by
    rw [← List.append_assoc, ← List.append_assoc, ← text', text]
  obtain ⟨-, same⟩ := Text.front_eq_of_byteLength_eq same (starts'.trans starts.symm)
  obtain ⟨c, cs, shown, visible⟩ := lexed.visible
  cases spaces with
  | nil =>
    rw [List.append_nil] at stops'
    omega
  | cons x spaces =>
    rw [shown, List.cons_append, List.cons_append] at same
    have seen : Text.isBlank x = true := by
      unfold Text.allBlank at blanks
      rw [List.all_cons, Bool.and_eq_true] at blanks
      exact blanks.1
    rw [(List.cons.inj same).1, visible] at seen
    cases seen

end Document

/-! ## Texts written anew -/

namespace Text

/-- A line with each character written anew. -/
def writeLine (write : Char → List Char) (line : List Char × List Char) : List Char × List Char :=
  (line.1.flatMap write, line.2.flatMap write)

theorem joinLines_map_writeLine (write : Char → List Char)
    (lines : List (List Char × List Char)) :
    joinLines (lines.map (writeLine write)) = (joinLines lines).flatMap write := by
  induction lines with
  | nil => rfl
  | cons line lines ih =>
    rw [List.map_cons, joinLines_cons, joinLines_cons, List.flatMap_append, List.flatMap_append,
      ih]
    rfl

theorem allBlank_flatMap {write : Char → List Char}
    (blank : ∀ c, allBlank (write c) = isBlank c) (cs : List Char) :
    allBlank (cs.flatMap write) = allBlank cs := by
  induction cs with
  | nil => rfl
  | cons c cs ih =>
    unfold allBlank at blank ih ⊢
    rw [List.flatMap_cons, List.all_append, List.all_cons, blank, ih]

end Text

namespace Document

/-- The offset in a text and the one in the same text written anew, below a new head. -/
def WrittenAt (head : List Char) (write : Char → List Char) (d : Document) (o o' : Nat) : Prop :=
  ∃ front rest, d.text = front ++ rest ∧ Text.byteLength front = o ∧
    Text.byteLength (head ++ front.flatMap write) = o'

section Written

variable {above : List (List Char × List Char)} {write : Char → List Char} {d d' : Document}
  {a a' b b' : Nat}

theorem text_of_written
    (lines : Text.cutLines d'.text = above ++ (Text.cutLines d.text).map (Text.writeLine write)) :
    d'.text = Text.joinLines above ++ d.text.flatMap write := by
  have joined : Text.joinLines (Text.cutLines d.text) = d.text := Text.join_cutLines d.text
  have joined' : Text.joinLines (Text.cutLines d'.text) = d'.text := Text.join_cutLines d'.text
  rw [← joined', lines, Text.joinLines_append, Text.joinLines_map_writeLine, joined]

/-- What stands between two places is written anew. -/
theorem WrittenAt.exists_between
    (text : d'.text = Text.joinLines above ++ d.text.flatMap write)
    (first : d.WrittenAt (Text.joinLines above) write a a')
    (second : d.WrittenAt (Text.joinLines above) write b b') (le : a ≤ b) :
    ∃ between, Text.slice? a b d.text = some between ∧
      Text.slice? a' b' d'.text = some (between.flatMap write) := by
  obtain ⟨front, rest, cut, rfl, rfl⟩ := first
  obtain ⟨front', rest', cut', rfl, rfl⟩ := second
  obtain ⟨between, rfl, -⟩ := Text.exists_middle_of_le (cut.symm.trans cut') le
  refine ⟨between, Text.slice?_eq_some_iff.2 ⟨front, rest', cut', rfl, rfl⟩,
    Text.slice?_eq_some_iff.2
      ⟨Text.joinLines above ++ front.flatMap write, rest'.flatMap write, ?_, rfl, ?_⟩⟩
  · rw [text, cut', List.flatMap_append, List.flatMap_append]
    simp only [List.append_assoc]
  · rw [List.flatMap_append, List.append_assoc]

theorem WrittenAt.lt (text : d'.text = Text.joinLines above ++ d.text.flatMap write)
    (shown : ∀ c, write c ≠ []) (first : d.WrittenAt (Text.joinLines above) write a a')
    (second : d.WrittenAt (Text.joinLines above) write b b') (lt : a < b) : a' < b' := by
  obtain ⟨between, sliced, sliced'⟩ := first.exists_between text second (Nat.le_of_lt lt)
  obtain ⟨front, -, -, starts, stops⟩ := Text.slice?_eq_some_iff.1 sliced
  obtain ⟨front', -, -, starts', stops'⟩ := Text.slice?_eq_some_iff.1 sliced'
  rw [Text.byteLength_append] at stops stops'
  cases between with
  | nil =>
    rw [Text.byteLength_nil] at stops
    omega
  | cons c between =>
    rw [List.flatMap_cons, Text.byteLength_append] at stops'
    have width := Text.byteLength_pos (shown c)
    omega

theorem WrittenAt.eq (first : d.WrittenAt (Text.joinLines above) write a a')
    (second : d.WrittenAt (Text.joinLines above) write a b') : a' = b' := by
  obtain ⟨front, rest, cut, rfl, rfl⟩ := first
  obtain ⟨front', rest', cut', same, rfl⟩ := second
  obtain ⟨rfl, -⟩ := Text.front_eq_of_byteLength_eq (cut.symm.trans cut') same.symm
  rfl

theorem WrittenAt.lt_iff (text : d'.text = Text.joinLines above ++ d.text.flatMap write)
    (shown : ∀ c, write c ≠ []) (first : d.WrittenAt (Text.joinLines above) write a a')
    (second : d.WrittenAt (Text.joinLines above) write b b') : a < b ↔ a' < b' := by
  refine ⟨first.lt text shown second, fun lt => ?_⟩
  by_contra le
  rcases Nat.eq_or_lt_of_le (Nat.le_of_not_lt le) with rfl | back
  · exact absurd lt (Nat.not_lt.2 (Nat.le_of_eq (second.eq first)))
  · exact absurd lt (Nat.lt_asymm (second.lt text shown first back))

theorem WrittenAt.blank_iff (text : d'.text = Text.joinLines above ++ d.text.flatMap write)
    (shown : ∀ c, write c ≠ []) (blank : ∀ c, Text.allBlank (write c) = Text.isBlank c)
    (first : d.WrittenAt (Text.joinLines above) write a a')
    (second : d.WrittenAt (Text.joinLines above) write b b') :
    d.BlankBetween a b ↔ d'.BlankBetween a' b' := by
  by_cases le : a ≤ b
  · obtain ⟨between, sliced, sliced'⟩ := first.exists_between text second le
    unfold BlankBetween
    rw [sliced, sliced']
    simp only [Option.some.injEq, exists_eq_left', Text.allBlank_flatMap blank]
  · have back := second.lt text shown first (Nat.lt_of_not_le le)
    exact ⟨fun gap => absurd gap.le le, fun gap => absurd gap.le (Nat.not_le.2 back)⟩

theorem lineStart_written
    (lines : Text.cutLines d'.text = above ++ (Text.cutLines d.text).map (Text.writeLine write))
    (n : Nat) : d'.lineStart (n + above.length) = Text.byteLength (Text.joinLines above ++
      (Text.joinLines ((Text.cutLines d.text).take n)).flatMap write) := by
  rw [lineStart_eq, lines, Nat.add_comm, List.take_length_add_append, Text.joinLines_append,
    ← List.map_take, Text.joinLines_map_writeLine]

theorem writtenAt_lineStart
    (lines : Text.cutLines d'.text = above ++ (Text.cutLines d.text).map (Text.writeLine write))
    (n : Nat) : d.WrittenAt (Text.joinLines above) write (d.lineStart n)
      (d'.lineStart (n + above.length)) := by
  have joined : Text.joinLines (Text.cutLines d.text) = d.text := Text.join_cutLines d.text
  refine ⟨Text.joinLines ((Text.cutLines d.text).take n),
    Text.joinLines ((Text.cutLines d.text).drop n), ?_, (d.lineStart_eq n).symm,
    (lineStart_written lines n).symm⟩
  rw [← Text.joinLines_append, List.take_append_drop, joined]

theorem writtenAt_lineStop
    (lines : Text.cutLines d'.text = above ++ (Text.cutLines d.text).map (Text.writeLine write))
    (n : Nat) : d.WrittenAt (Text.joinLines above) write (d.lineStop n)
      (d'.lineStop (n + above.length)) := by
  have joined : Text.joinLines (Text.cutLines d.text) = d.text := Text.join_cutLines d.text
  have found' : (Text.cutLines d'.text)[n + above.length]? =
      (Text.cutLines d.text)[n]?.map (Text.writeLine write) := by
    rw [lines, List.getElem?_append_right (Nat.le_add_left _ _), Nat.add_sub_cancel,
      List.getElem?_map]
  rw [lineStop_eq, lineStop_eq, found']
  cases found : (Text.cutLines d.text)[n]? with
  | none => exact writtenAt_lineStart lines n
  | some line =>
    obtain ⟨bound, here⟩ := List.getElem?_eq_some_iff.1 found
    have below : Text.joinLines ((Text.cutLines d.text).drop n) =
        line.1 ++ line.2 ++ Text.joinLines ((Text.cutLines d.text).drop (n + 1)) := by
      rw [List.drop_eq_getElem_cons bound, here, Text.joinLines_cons]
    refine ⟨Text.joinLines ((Text.cutLines d.text).take n) ++ line.1,
      line.2 ++ Text.joinLines ((Text.cutLines d.text).drop (n + 1)), ?_, ?_, ?_⟩
    · rw [List.append_assoc, ← List.append_assoc line.1, ← below, ← Text.joinLines_append,
        List.take_append_drop, joined]
    · rw [Text.byteLength_append, ← lineStart_eq]
      rfl
    · rw [List.flatMap_append, ← List.append_assoc, Text.byteLength_append,
        ← lineStart_written lines n]
      rfl

end Written

/-- A text whose lines are written anew, character by character, below empty lines: the same code
in another layout, if its tokens are. -/
theorem Relaid.of_written {above : List (List Char × List Char)} {write : Char → List Char}
    {d d' : Document}
    (lines : Text.cutLines d'.text = above ++ (Text.cutLines d.text).map (Text.writeLine write))
    (empty : ∀ line ∈ above, line.1 = []) (shown : ∀ c, write c ≠ [])
    (blank : ∀ c, Text.allBlank (write c) = Text.isBlank c)
    (tokens : List.Forall₂ (Token.Relaid (d.WrittenAt (Text.joinLines above) write))
      (classify d.text) (classify d'.text)) :
    Relaid above.length (d.WrittenAt (Text.joinLines above) write) d d' := by
  have text := text_of_written lines
  have count : d'.lineCount = d.lineCount + above.length := by
    rw [lineCount_eq, lineCount_eq, lines, List.length_append, List.length_map, Nat.add_comm]
  refine
    { lines := count
      lineStart := writtenAt_lineStart lines
      lineStop := writtenAt_lineStop lines
      exists_same := fun ⟨front, rest, cut, size⟩ => ⟨_, front, rest, cut, size, rfl⟩
      boundary := ?_
      lt_iff := fun first second => first.lt_iff text shown second
      blank_iff := fun first second => first.blank_iff text shown blank second
      top := ?_
      tokens }
  · rintro o o' ⟨front, rest, cut, size, size'⟩
    refine ⟨⟨front, rest, cut, size⟩, Text.joinLines above ++ front.flatMap write,
      rest.flatMap write, ?_, size'⟩
    rw [text, cut, List.flatMap_append, List.append_assoc]
  · intro n early
    have found : (Text.cutLines d'.text)[n]? = some above[n] := by
      rw [lines, List.getElem?_append_left early, List.getElem?_eq_getElem early]
    have stop : d'.lineStop n = d'.lineStart n := by
      rw [lineStop_eq, found]
      show _ + Text.byteLength above[n].1 = _
      rw [empty _ (List.getElem_mem early)]
      rfl
    rw [blankBefore_iff, lineOf_lineStop (by omega), stop]
    exact (d'.boundary_lineStart n).blankBetween_self

end Document

/-! ## Tokens further on -/

/-- The span as many bytes further on. -/
def Span.shift (bytes : Nat) (s : Span) : Span :=
  ⟨s.start + bytes, s.stop + bytes, Nat.add_le_add_right s.start_le_stop bytes⟩

/-- The token as many bytes further on. -/
def Token.shift (bytes : Nat) (t : Token) : Token := { t with span := t.span.shift bytes }

section Tokens

variable (offset k : Nat)

theorem Token.at_add (category : Category) (text : List Char) :
    Token.at (offset + k) category text = (Token.at offset category text).shift k := by
  have span : Span.ofLength (offset + k) (Text.byteLength text) =
      (Span.ofLength offset (Text.byteLength text)).shift k :=
    Span.ext rfl (Nat.add_right_comm offset k _)
  unfold Token.at Token.shift
  rw [span]

theorem directiveTokens_add (line : List Char) :
    directiveTokens (offset + k) line = (directiveTokens offset line).map (Token.shift k) := by
  unfold directiveTokens
  dsimp only
  rw [List.map_append]
  congr 1
  · split
    next => rfl
    next => rw [Nat.add_right_comm, Token.at_add, List.map_singleton]
  · split
    next => rfl
    next => rw [Nat.add_right_comm, Token.at_add, List.map_singleton]

end Tokens

/-! ## Two streams -/

namespace Token.Relaid

variable {same : Nat → Nat → Prop} {t t' : Token}

theorem text_of_punctuation (pair : Relaid same t t') (mark : t.category = .punctuation) :
    t'.text = t.text :=
  pair.text (by rw [mark]; rfl) (by rw [mark]; decide)

theorem text_of_directive (pair : Relaid same t t')
    (directive : t.category.isPreprocessor = true) : t'.text = t.text := by
  have plain : t.category.isComment = false ∧ t.category ≠ .stringLiteral := by
    cases kind : t.category <;> simp_all [Category.isPreprocessor, Category.isComment]
  exact pair.text plain.1 plain.2

theorem text_of_keyword (pair : Relaid same t t') (word : t.category.isKeyword = true) :
    t'.text = t.text := by
  have plain : t.category.isComment = false ∧ t.category ≠ .stringLiteral := by
    cases kind : t.category <;> simp_all [Category.isKeyword, Category.isComment]
  exact pair.text plain.1 plain.2

theorem isPunctuation (pair : Relaid same t t') (c : Char) :
    t'.isPunctuation c = t.isPunctuation c := by
  unfold Token.isPunctuation
  rw [pair.category]
  by_cases mark : t.category = .punctuation
  · rw [pair.text_of_punctuation mark]
  · rw [beq_false_of_ne mark, Bool.false_and, Bool.false_and]

theorem isKeyword (pair : Relaid same t t') (text : List Char) :
    t'.isKeyword text = t.isKeyword text := by
  unfold Token.isKeyword
  rw [pair.category]
  cases word : t.category.isKeyword with
  | false => rfl
  | true => rw [pair.text_of_keyword word]

end Token.Relaid

/-- Related options are both empty or both hold something. -/
theorem none_or_some_of_rel {α β : Type} {R : α → β → Prop} {x : Option α} {y : Option β}
    (pair : Option.Rel R x y) :
    (x = none ∧ y = none) ∨ ∃ a b, x = some a ∧ y = some b ∧ R a b := by
  cases pair with
  | none => exact .inl ⟨rfl, rfl⟩
  | some related => exact .inr ⟨_, _, rfl, rfl, related⟩

section Streams

variable {same : Nat → Nat → Prop} {tokens tokens' : List Token}

theorem Token.Relaid.getElem? (all : List.Forall₂ (Token.Relaid same) tokens tokens') (i : Nat) :
    Option.Rel (Token.Relaid same) tokens[i]? tokens'[i]? := by
  induction all generalizing i with
  | nil => exact .none
  | cons pair _ ih =>
    cases i with
    | zero => exact .some pair
    | succ i => exact ih i

theorem Token.Relaid.exists_of_mem (all : List.Forall₂ (Token.Relaid same) tokens tokens')
    {t' : Token} (member : t' ∈ tokens') : ∃ t ∈ tokens, Token.Relaid same t t' := by
  obtain ⟨i, here'⟩ := List.getElem?_of_mem member
  rcases none_or_some_of_rel (Token.Relaid.getElem? all i) with
    ⟨-, none'⟩ | ⟨t, u, found, found', pair⟩
  · rw [here'] at none'
    cases none'
  · rw [here', Option.some.injEq] at found'
    exact ⟨t, List.mem_of_getElem? found, found' ▸ pair⟩

theorem Token.Relaid.find? (all : List.Forall₂ (Token.Relaid same) tokens tokens')
    (test : Token → Bool) (alike : ∀ t t', Token.Relaid same t t' → test t' = test t) :
    Option.Rel (Token.Relaid same) (tokens.find? test) (tokens'.find? test) := by
  induction all with
  | nil => exact .none
  | cons pair _ ih =>
    rw [List.find?_cons, List.find?_cons, alike _ _ pair]
    split
    next => exact .some pair
    next => exact ih

theorem Token.Relaid.tokensToColon? (all : List.Forall₂ (Token.Relaid same) tokens tokens')
    (depth : Nat) : tokensToColon? depth tokens' = tokensToColon? depth tokens := by
  induction all generalizing depth with
  | nil => rfl
  | @cons t _ _ _ pair _ ih =>
    rw [CodeFolding.tokensToColon?, CodeFolding.tokensToColon?, pair.category]
    by_cases mark : t.category = .punctuation
    · rw [pair.text_of_punctuation mark]
      simp only [ih]
    · rw [if_pos mark, if_pos mark, ih]

end Streams

namespace Cursor

/-- Cursors at the same place of two documents, each with the tokens of its text. -/
structure Relaid (down : Nat) (same : Nat → Nat → Prop) (c c' : Cursor) : Prop where
  laid : Document.Relaid down same c.document c'.document
  tokens : c.tokens = classify c.document.text
  tokens' : c'.tokens = classify c'.document.text
  position : same c.position c'.position

namespace Relaid

variable {down : Nat} {same : Nat → Nat → Prop} {c c' : Cursor} {t t' : Token}

theorem formed (here : Relaid down same c c') : Token.WellFormed c.document c.tokens := by
  rw [here.tokens]
  exact classify_wellFormed _

theorem formed' (here : Relaid down same c c') : Token.WellFormed c'.document c'.tokens := by
  rw [here.tokens']
  exact classify_wellFormed _

theorem stream (here : Relaid down same c c') :
    List.Forall₂ (Token.Relaid same) c.tokens c'.tokens := by
  rw [here.tokens, here.tokens']
  exact here.laid.tokens

/-- Cursors that stay in their documents and meet at the same place again. -/
theorem moved (here : Relaid down same c c') {next next' : Cursor}
    (kept : next.document = c.document ∧ next.tokens = c.tokens)
    (kept' : next'.document = c'.document ∧ next'.tokens = c'.tokens)
    (position : same next.position next'.position) : Relaid down same next next' where
  laid := by
    rw [kept.1, kept'.1]
    exact here.laid
  tokens := by rw [kept.1, kept.2, here.tokens]
  tokens' := by rw [kept'.1, kept'.2, here.tokens']
  position

theorem atEnd (here : Relaid down same c c') : c'.atEnd = c.atEnd := by
  unfold Cursor.atEnd
  rw [decide_eq_decide]
  exact (here.laid.le_iff here.laid.length here.position).symm

/-- Both cursors stand at the same token of their streams, or both at none. -/
theorem index? (here : Relaid down same c c') : c'.index? = c.index? := by
  have search : ∀ {tokens tokens' : List Token},
      List.Forall₂ (Token.Relaid same) tokens tokens' →
      tokens'.findIdx? (·.start == c'.position) = tokens.findIdx? (·.start == c.position) := by
    intro tokens tokens' all
    induction all with
    | nil => rfl
    | @cons t t' _ _ pair _ ih =>
      have starts : (t'.start == c'.position) = (t.start == c.position) := by
        rw [Bool.eq_iff_iff, beq_iff_eq, beq_iff_eq]
        exact (here.laid.eq_iff pair.start here.position).symm
      rw [List.findIdx?_cons, List.findIdx?_cons, starts, ih]
  exact search here.stream

theorem token? (here : Relaid down same c c') :
    Option.Rel (Token.Relaid same) c.token? c'.token? := by
  unfold Cursor.token?
  rw [here.index?]
  cases c.index? with
  | none => exact .none
  | some i => exact Token.Relaid.getElem? here.stream i

theorem next? (here : Relaid down same c c') :
    Option.Rel (Token.Relaid same) c.next? c'.next? := by
  unfold Cursor.next?
  rw [here.index?]
  cases c.index? with
  | none => exact .none
  | some i => exact Token.Relaid.getElem? here.stream (i + 1)

theorem previous? (here : Relaid down same c c') :
    Option.Rel (Token.Relaid same) c.previous? c'.previous? := by
  unfold Cursor.previous?
  rw [here.index?]
  split
  next => exact Token.Relaid.getElem? here.stream _
  next => exact .none

theorem labelColon? (here : Relaid down same c c') : c'.labelColon? = c.labelColon? := by
  have behind : ∀ i, tokensToColon? 0 ((c'.tokens.drop (i + 1)).take labelLimit) =
      tokensToColon? 0 ((c.tokens.drop (i + 1)).take labelLimit) := fun i =>
    Token.Relaid.tokensToColon? (List.forall₂_take _ (List.forall₂_drop _ here.stream)) 0
  unfold Cursor.labelColon?
  rw [here.index?]
  simp only [behind]

/-! ### Moves -/

theorem advance (here : Relaid down same c c') (token : c.token? = some t)
    (token' : c'.token? = some t') (pair : Token.Relaid same t t') :
    Relaid down same c.advance c'.advance := by
  refine here.moved ⟨advance_document c, advance_tokens c⟩
    ⟨advance_document c', advance_tokens c'⟩ ?_
  rw [advance_position_of_token? here.formed.ordered token,
    advance_position_of_token? here.formed'.ordered token']
  exact pair.stop

theorem nextLine (here : Relaid down same c c') (more : c.atEnd = false) :
    Relaid down same c.nextLine c'.nextLine := by
  refine here.moved ⟨nextLine_document c, nextLine_tokens c⟩
    ⟨nextLine_document c', nextLine_tokens c'⟩ ?_
  rw [nextLine_position more, nextLine_position (here.atEnd.trans more),
    here.laid.lineOf here.position, Nat.add_right_comm]
  exact here.laid.lineStart _

theorem skipTo (here : Relaid down same c c') (token : c.token? = some t)
    (token' : c'.token? = some t') {colon : Nat} (found : c.labelColon? = some colon) :
    Relaid down same (c.skipTo (((c.tokens[colon]?).map Token.stop).getD t.stop))
      (c'.skipTo (((c'.tokens[colon]?).map Token.stop).getD t'.stop)) := by
  have found' := here.labelColon?.trans found
  obtain ⟨boundary, boundary'⟩ := here.laid.boundary here.position
  obtain ⟨done, rest, split⟩ := exists_split here.formed.ordered boundary
  obtain ⟨done', rest', split'⟩ := exists_split here.formed'.ordered boundary'
  obtain ⟨-, mark, -, -, marked, -, -, -, -, -, reached, -⟩ :=
    Scan.skipLabel here.formed split token found
  obtain ⟨-, mark', -, -, marked', -, -, -, -, -, reached', -⟩ :=
    Scan.skipLabel here.formed' split' token' found'
  refine here.moved (Scan.Moved.label token found).same (Scan.Moved.label token' found').same ?_
  rw [reached, reached']
  have pair := Token.Relaid.getElem? here.stream colon
  rw [marked, marked'] at pair
  cases pair with
  | some pair => exact pair.stop

end Relaid

end Cursor

/-! ## Two trees -/

/-- The same region in two documents.  The root stands nowhere. -/
structure Node.Relaid (same : Nat → Nat → Prop) (a b : Node) : Prop where
  kind : b.kind = a.kind
  complete : b.complete = a.complete
  fromPriorLine : b.fromPriorLine = a.fromPriorLine
  parent : b.parent = a.parent
  children : b.children = a.children
  start : a.kind ≠ none → same a.start b.start
  stop : a.kind ≠ none → same a.stop b.stop
  opener : a.kind = some .conditional → b.opener = a.opener

/-- The same region opened in two documents. -/
structure Opening.Relaid (same : Nat → Nat → Prop) (o o' : Opening) : Prop where
  kind : o'.kind = o.kind
  fromPriorLine : o'.fromPriorLine = o.fromPriorLine
  start : same o.start o'.start
  stop : same o.stop o'.stop
  opener : o.kind = .conditional → o'.opener = o.opener

theorem Node.Relaid.root (same : Nat → Nat → Prop) : Node.root.Relaid same Node.root :=
  ⟨rfl, rfl, rfl, rfl, rfl, fun region => absurd rfl region, fun region => absurd rfl region,
    fun _ => rfl⟩

theorem Opening.Relaid.node {same : Nat → Nat → Prop} {o o' : Opening} (opened : o.Relaid same o')
    (parent : Nat) : (o.node parent).Relaid same (o'.node parent) :=
  ⟨congrArg some opened.kind, rfl, opened.fromPriorLine, rfl, rfl, fun _ => opened.start,
    fun _ => opened.stop, fun arm => opened.opener (Option.some.inj arm)⟩

theorem Node.Relaid.isArmOf {same : Nat → Nat → Prop} {a b : Node} (node : a.Relaid same b)
    (names : List String) : b.isArmOf names = a.isArmOf names := by
  unfold Node.isArmOf
  rw [node.kind]
  by_cases arm : a.kind = some .conditional
  · rw [node.opener arm]
  · rw [beq_false_of_ne arm, Bool.false_and, Bool.false_and]

namespace Tree

/-- A field that a change of one node keeps is the same at every node. -/
theorem field_update {α : Type} {f : Node → Node} (field : Node → α)
    (kept : ∀ n, field (f n) = field n) (t : Tree) (id i : Nat) :
    field ((t.update id f).node i) = field (t.node i) := by
  rcases node_update_cases t id f i with same | ⟨rfl, here⟩
  · rw [same]
  · rw [here, kept]

theorem kind_add_eq (t : Tree) (parent : Nat) (o : Opening) (i : Nat) :
    ((t.add parent o).node i).kind =
      if i = t.nodes.size then some o.kind else (t.node i).kind := by
  have adopted := field_update Node.kind
    (f := fun p => { p with children := p.children ++ [t.nextId] }) (fun _ => rfl)
    (Tree.mk (t.nodes.push (o.node parent))) parent i
  refine adopted.trans ?_
  rw [node_push]
  split <;> rfl

/-- Trees of the same regions. -/
structure Relaid (same : Nat → Nat → Prop) (t t' : Tree) : Prop where
  size : t'.nodes.size = t.nodes.size
  node : ∀ i, (t.node i).Relaid same (t'.node i)
  child : ∀ i, ∀ c ∈ (t.node i).children, (t.node c).kind ≠ none

namespace Relaid

variable {down : Nat} {same : Nat → Nat → Prop} {d d' : Document} {t t' : Tree} {id : Nat}

theorem empty (same : Nat → Nat → Prop) : Relaid same Tree.empty Tree.empty where
  size := rfl
  node := by
    intro i
    rw [node_empty]
    exact .root same
  child := by
    intro i c member
    rw [node_empty] at member
    cases member

theorem node_update {f g : Node → Node} (size : t'.nodes.size = t.nodes.size)
    (nodes : ∀ i, (t.node i).Relaid same (t'.node i))
    (changed : (f (t.node id)).Relaid same (g (t'.node id))) (i : Nat) :
    ((t.update id f).node i).Relaid same ((t'.update id g).node i) := by
  by_cases here : i = id
  · subst here
    by_cases known : i < t.nodes.size
    · rw [node_update_self known, node_update_self (by rw [size]; exact known)]
      exact changed
    · rw [node_of_le (by rw [nodes_size_update]; omega),
        node_of_le (by rw [nodes_size_update, size]; omega)]
      exact .root same
  · rw [node_update_of_ne here, node_update_of_ne here]
    exact nodes i

theorem update {f g : Node → Node} (trees : Relaid same t t')
    (kept : ∀ n, (f n).kind = n.kind ∧ (f n).children = n.children)
    (changed : (f (t.node id)).Relaid same (g (t'.node id))) :
    Relaid same (t.update id f) (t'.update id g) where
  size := by rw [nodes_size_update, nodes_size_update, trees.size]
  node := node_update trees.size trees.node changed
  child := by
    intro i c member
    rw [field_update Node.children fun n => (kept n).2] at member
    rw [field_update Node.kind fun n => (kept n).1]
    exact trees.child i c member

theorem add {o o' : Opening} (trees : Relaid same t t') (parent : Nat)
    (opened : o.Relaid same o') : Relaid same (t.add parent o) (t'.add parent o') where
  size := by rw [nodes_size_add, nodes_size_add, trees.size]
  node := by
    have pushed : ∀ i, ((Tree.mk (t.nodes.push (o.node parent))).node i).Relaid same
        ((Tree.mk (t'.nodes.push (o'.node parent))).node i) := by
      intro i
      rw [node_push, node_push, trees.size]
      split
      next => exact opened.node parent
      next => exact trees.node i
    have adopts := pushed parent
    unfold Tree.add nextId
    rw [trees.size]
    refine node_update (by simp [trees.size]) pushed { adopts with children := ?_ }
    dsimp only
    rw [adopts.children]
  child := by
    intro i c member
    rw [kind_add_eq]
    split
    next => exact Option.some_ne_none _
    next old =>
      have within : c ∈ ((Tree.mk (t.nodes.push (o.node parent))).node i).children := by
        unfold Tree.add at member
        rcases node_update_cases (Tree.mk (t.nodes.push (o.node parent))) parent
          (fun p => { p with children := p.children ++ [t.nextId] }) i with same | ⟨rfl, here⟩
        · rwa [same] at member
        · rw [here] at member
          exact (List.mem_append.1 member).resolve_right fun new => old (List.mem_singleton.1 new)
      rw [node_push] at within
      split at within
      next => cases within
      next => exact trees.child i c within

theorem ancestors (trees : Relaid same t t') (id : Nat) : t'.ancestors id = t.ancestors id :=
  ancestors_congr fun i _ => (trees.node i).parent

theorem nearestOpen? (trees : Relaid same t t') (id : Nat) (test : Node → Bool)
    (alike : ∀ a b, Node.Relaid same a b → test b = test a) :
    t'.nearestOpen? id test = t.nearestOpen? id test := by
  unfold Tree.nearestOpen?
  rw [trees.ancestors]
  congr 1
  funext i
  have here := trees.node i
  unfold Node.isOpen
  rw [here.kind, here.complete, alike _ _ here]

/-! ### Headers -/

theorem precedingSibling? (trees : Relaid same t t') (id : Nat) :
    Option.Rel (fun a b => Node.Relaid same a b ∧ a.kind ≠ none) (t.precedingSibling? id)
      (t'.precedingSibling? id) := by
  unfold Tree.precedingSibling?
  rw [(trees.node id).parent]
  cases (t.node id).parent with
  | none => exact .none
  | some parent =>
    dsimp only [Option.bind_some]
    rw [(trees.node parent).children]
    cases last : ((t.node parent).children.takeWhile (· != id)).getLast? with
    | none => exact .none
    | some c =>
      have member := List.takeWhile_subset _ (List.mem_of_getLast? last)
      exact .some ⟨trees.node c, trees.child parent c member⟩

theorem headerFloor (laid : Document.Relaid down same d d') (trees : Relaid same t t')
    (id n : Nat) : n + down < headerFloor d' t' id ↔ n < headerFloor d t id := by
  unfold CodeFolding.headerFloor
  rw [(trees.node id).parent]
  cases (t.node id).parent with
  | none => simp
  | some parent =>
    dsimp only
    rcases none_or_some_of_rel (trees.precedingSibling? id) with
      ⟨none, none'⟩ | ⟨left, left', found, found', sibling, region⟩
    · have around := trees.node parent
      rw [none, none']
      dsimp only
      rw [around.kind]
      split
      next region =>
        rw [laid.lineOf (around.start (Option.isSome_iff_ne_none.1 region))]
        omega
      next => simp
    · rw [found, found']
      dsimp only
      rw [laid.lineOf (sibling.start region), laid.lineOf (sibling.stop region)]
      split <;> split <;> omega

theorem hasHeader (laid : Document.Relaid down same d d') (trees : Relaid same t t') (id : Nat) :
    hasHeader d' (t'.node id) = hasHeader d (t.node id) := by
  have here := trees.node id
  unfold CodeFolding.hasHeader
  rw [here.kind, here.complete]
  by_cases block : (t.node id).kind = some .block
  · have region := ne_of_eq_of_ne block (Option.some_ne_none _)
    unfold bne
    rw [laid.lineOf_beq (here.start region) (here.stop region),
      laid.blankBefore (here.start region)]
  · simp only [beq_false_of_ne block, Bool.false_and]

theorem extendStart (laid : Document.Relaid down same d d') (trees : Relaid same t t')
    (options : ScanOptions) (id : Nat) :
    Relaid same (extendStart options d t id) (extendStart options d' t' id) := by
  unfold CodeFolding.extendStart
  rw [trees.hasHeader laid id]
  split
  next both =>
    have block := (Scan.of_hasHeader (Bool.and_eq_true_iff.1 both).2).1
    have here := trees.node id
    have region := ne_of_eq_of_ne block (Option.some_ne_none _)
    have above := laid.lineAbove? (trees.headerFloor laid id)
      (Nat.le_of_lt (d.lineOf_lt (t.node id).start))
    rw [← laid.lineOf (here.start region)] at above
    rcases none_or_some_of_rel above with ⟨none, none'⟩ | ⟨line, line', found, found', stops⟩
    · rw [none, none']
      exact trees
    · rw [found, found']
      exact trees.update (fun n => ⟨rfl, rfl⟩)
        { here with fromPriorLine := rfl, start := fun _ => stops }
  next => exact trees

end Relaid

end Tree

end CodeFolding
