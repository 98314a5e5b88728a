import Mathlib
import CodeFolding.Proofs.Tracking

/-!
# Line breaks by bytes

A table of lines is laid out from the characters of a text.  The same lines can be found in one
pass over its bytes that looks back by one byte and keeps its offsets in 32-bit words
(`Text.breaksFrom`): every line feed ends a line, and a carriage return right before it belongs to
the break.

* `Text.eq_of_mem_utf8EncodeChar`: a byte of ASCII is a character of its own, so the bytes of
  other characters hold no part of a break.
* `Text.breaksFrom_joinLines`: the pass over the bytes finds the lines as they are laid out.
* `Document.scannedLine?_eq`: the bounds of a line that the pass finds are in order, and they are
  those of the table.
* `lines_partition_text`: the lines of a text part it without loss.
-/

namespace CodeFolding

namespace Text

/-! ## Bytes of a break -/

/-- The byte of a line feed. -/
def feed : UInt8 := 10

/-- The byte of a carriage return. -/
def carriage : UInt8 := 13

/-- The breaks among bytes that start at an offset, behind the byte `before` if there is one:
where the content of the line before a break stops, and where the line behind the break starts. -/
def breaksFrom (offset : Nat) (before : Option UInt8) : List UInt8 → List (Nat × Nat)
  | [] => []
  | b :: bytes =>
    if b = feed then
      ((if before = some carriage then offset - 1 else offset) % limit32,
          (offset + 1) % limit32) ::
        breaksFrom (offset + 1) (some b) bytes
    else breaksFrom (offset + 1) (some b) bytes

/-- The breaks of a text. -/
def breaks (cs : List Char) : List (Nat × Nat) := breaksFrom 0 none (utf8 cs)

section Bytes

variable {c : Char} {b : UInt8} {cs ending : List Char} {bytes more : List UInt8}
  {before : Option UInt8} {offset : Nat}

/-- A byte of ASCII in the form of a character is that character. -/
theorem eq_of_mem_utf8EncodeChar (ascii : b.toNat < 128) (member : b ∈ String.utf8EncodeChar c) :
    c.toNat = b.toNat := by
  have value : c.toNat = c.val.toNat := rfl
  unfold String.utf8EncodeChar at member
  dsimp only at member
  split at member
  next small =>
    rw [List.mem_singleton.1 member, UInt8.toNat_ofNat_of_lt' (by simp [UInt8.size]; omega),
      value]
  next =>
    -- the leading byte and those behind it have their highest bit set
    exfalso
    split at member
    next =>
      simp only [List.mem_cons, List.not_mem_nil, or_false] at member
      rcases member with rfl | rfl <;> simp only [UInt8.toNat_ofNat'] at ascii <;> omega
    next =>
      split at member
      next =>
        simp only [List.mem_cons, List.not_mem_nil, or_false] at member
        rcases member with rfl | rfl | rfl <;> simp only [UInt8.toNat_ofNat'] at ascii <;> omega
      next =>
        simp only [List.mem_cons, List.not_mem_nil, or_false] at member
        rcases member with rfl | rfl | rfl | rfl <;> simp only [UInt8.toNat_ofNat'] at ascii <;>
          omega

theorem feed_not_mem_utf8 (clean : '\n' ∉ cs) : feed ∉ utf8 cs := by
  intro member
  obtain ⟨c, inside, byte⟩ := List.mem_flatMap.1 member
  have same : c = '\n' := Char.toNat_inj.1 (eq_of_mem_utf8EncodeChar (by decide) byte)
  exact clean (same ▸ inside)

/-- Only a carriage return ends in its byte. -/
theorem getLast?_of_utf8 (last : (utf8 cs).getLast? = some carriage) :
    cs.getLast? = some '\r' := by
  rcases List.eq_nil_or_concat cs with rfl | ⟨front, c, rfl⟩
  · cases last
  · rw [List.concat_eq_append] at last ⊢
    have byte : carriage ∈ String.utf8EncodeChar c := by
      rw [utf8_append, List.getLast?_append_of_ne_nil] at last
      · simpa [utf8] using List.mem_of_getLast? last
      · simp [utf8, String.utf8EncodeChar_ne_nil]
    have same : c = '\r' := Char.toNat_inj.1 (eq_of_mem_utf8EncodeChar (by decide) byte)
    rw [List.getLast?_concat, same]

/-! ## One pass over the bytes -/

/-- Bytes without a line feed are passed by. -/
theorem breaksFrom_append (clean : feed ∉ bytes) :
    breaksFrom offset before (bytes ++ more) =
      breaksFrom (offset + bytes.length) (bytes.getLast?.or before) more := by
  induction bytes generalizing offset before with
  | nil => rfl
  | cons b bytes ih =>
    obtain ⟨other, clean⟩ := not_or.1 (mt List.mem_cons.2 clean)
    have last : (b :: bytes).getLast?.or before = bytes.getLast?.or (some b) := by
      rw [List.getLast?_cons]
      cases bytes.getLast? <;> rfl
    rw [List.cons_append, breaksFrom, if_neg (Ne.symm other), ih clean, last, List.length_cons,
      Nat.add_assoc, Nat.add_comm 1]

/-- A break is found where it stands. -/
theorem breaksFrom_break (ends : IsBreak ending)
    (alone : ending = ['\n'] → before ≠ some carriage)
    (short : offset + byteLength ending < limit32) :
    breaksFrom offset before (utf8 ending ++ bytes) =
      (offset, offset + byteLength ending) ::
        breaksFrom (offset + byteLength ending) (some feed) bytes := by
  rcases ends with rfl | rfl
  · have form : utf8 ['\n'] = [feed] := by decide
    have width : byteLength ['\n'] = 1 := by decide
    rw [width] at short ⊢
    rw [form, List.singleton_append, breaksFrom, if_pos rfl, if_neg (alone rfl),
      Nat.mod_eq_of_lt (by omega), Nat.mod_eq_of_lt short]
  · have form : utf8 ['\r', '\n'] = [carriage, feed] := by decide
    have width : byteLength ['\r', '\n'] = 2 := by decide
    rw [width] at short ⊢
    rw [form, List.cons_append, List.singleton_append, breaksFrom, if_neg (by decide), breaksFrom,
      if_pos rfl, if_pos rfl, Nat.add_sub_cancel, Nat.mod_eq_of_lt (by omega),
      Nat.mod_eq_of_lt (by omega)]

end Bytes

/-! ## Lines found by the pass -/

/-- A line feed that is a break by itself has no carriage return before it. -/
def LoneFeed (piece : List Char × List Char) : Prop :=
  piece.2 = ['\n'] → piece.1.getLast? ≠ some '\r'

/-- A line that is a line feed by itself starts the text with it. -/
theorem exists_of_cutLines {cs : List Char} {rest : List (List Char × List Char)}
    (cut : cutLines cs = ([], ['\n']) :: rest) : ∃ more, cs = '\n' :: more := by
  have text := join_cutLines cs
  rw [cut] at text
  exact ⟨_, text.symm⟩

theorem cutLines_loneFeed (cs : List Char) : ∀ piece ∈ cutLines cs, LoneFeed piece := by
  fun_induction cutLines cs with
  | case1 =>
    intro piece member feed
    rw [List.mem_singleton.1 member] at feed
    cases feed
  | case2 cs ih =>
    refine List.forall_mem_cons.2 ⟨?_, ih⟩
    intro _ last
    cases last
  | case3 cs ih =>
    refine List.forall_mem_cons.2 ⟨?_, ih⟩
    intro feed
    cases feed
  | case4 c cs _ _ none ih => exact absurd none (cutLines_ne_nil cs)
  | case5 c cs _ carried content ending rest pieces ih =>
    rw [pieces] at ih
    obtain ⟨here, later⟩ := List.forall_mem_cons.1 ih
    refine List.forall_mem_cons.2 ⟨?_, later⟩
    intro feed last
    dsimp only at feed last
    subst feed
    cases content with
    | nil =>
      -- the carriage return would be part of the break
      obtain ⟨more, rfl⟩ := exists_of_cutLines pieces
      rw [List.getLast?_singleton, Option.some.injEq] at last
      exact carried more last rfl
    | cons x content => exact here rfl (by rwa [List.getLast?_cons_cons] at last)

/-- The pass over the bytes of lines finds where they start and where their contents stop. -/
theorem breaksFrom_joinLines {pieces : List (List Char × List Char)} (cut : Cut pieces)
    (lone : ∀ piece ∈ pieces, LoneFeed piece) (number offset : Nat) (before : Option UInt8)
    (fresh : before ≠ some carriage) (short : offset + byteLength (joinLines pieces) < limit32) :
    let found := breaksFrom offset before (utf8 (joinLines pieces))
    (layLines number offset pieces).map Line.start = offset :: found.map Prod.snd ∧
      (layLines number offset pieces).map Line.stop =
        found.map Prod.fst ++ [offset + byteLength (joinLines pieces)] := by
  induction pieces generalizing number offset before with
  | nil => exact cut.elim
  | cons piece pieces ih =>
    obtain ⟨content, ending⟩ := piece
    obtain ⟨own, lone⟩ := List.forall_mem_cons.1 lone
    dsimp only
    cases pieces with
    | nil =>
      obtain ⟨clean, rfl⟩ := cut
      have none : breaksFrom offset before (utf8 content) = [] := by
        rw [← List.append_nil (utf8 content), breaksFrom_append (feed_not_mem_utf8 clean)]
        rfl
      rw [joinLines_cons, joinLines_nil, List.append_nil, List.append_nil, none]
      exact ⟨rfl, rfl⟩
    | cons next rest =>
      obtain ⟨clean, ends, cut⟩ := cut
      rw [joinLines_cons] at short ⊢
      generalize joined : joinLines (next :: rest) = behind at short ih ⊢
      simp only [byteLength_append] at short
      -- behind the content the byte before is a carriage return only if the content ends in one
      have alone : ending = ['\n'] → (utf8 content).getLast?.or before ≠ some carriage := by
        intro feed last
        rcases Option.or_eq_some_iff.1 last with last | ⟨-, last⟩
        · exact own feed (getLast?_of_utf8 last)
        · exact fresh last
      have pass : breaksFrom offset before (utf8 (content ++ ending ++ behind)) =
          (offset + byteLength content, offset + byteLength content + byteLength ending) ::
            breaksFrom (offset + byteLength content + byteLength ending) (some feed)
              (utf8 behind) := by
        rw [utf8_append, utf8_append, List.append_assoc,
          breaksFrom_append (feed_not_mem_utf8 clean), length_utf8,
          breaksFrom_break ends alone (by omega)]
      have place : offset + (byteLength content + byteLength ending) =
          offset + byteLength content + byteLength ending := by omega
      obtain ⟨starts, stops⟩ := ih cut lone (number + 1)
        (offset + byteLength content + byteLength ending) (some feed) (by decide) (by omega)
      rw [pass, layLines]
      dsimp only
      rw [place]
      refine ⟨?_, ?_⟩
      · rw [List.map_cons, starts, List.map_cons]
        rfl
      · rw [List.map_cons, stops, List.map_cons, List.cons_append, byteLength_append,
          byteLength_append, ← Nat.add_assoc, ← Nat.add_assoc]
        rfl

end Text

/-! ## Lines looked up by the breaks -/

namespace Document

/-- Line `i` by the breaks among the bytes.  Starts and stops are two lists, and a line with its
break goes to the start of the line below, or to the end of the text. -/
def scannedLine? (d : Document) (i : Nat) : Except Fault (Option Line) :=
  let starts := 0 :: (Text.breaks d.text).map Prod.snd
  let stops := (Text.breaks d.text).map Prod.fst ++ [d.length]
  match starts[i]?, stops[i]? with
  | some start, some stop => do
    let content ← Span.ofBounds start stop
    let full ← Span.ofBounds start (starts[i + 1]?.getD d.length)
    return some { number := i, content, full }
  | _, _ => .ok none

section Lines

variable {d : Document} {i : Nat}

/-- The pass over the bytes finds the lines of the table. -/
theorem breaks_eq (short : d.length < limit32) :
    0 :: (Text.breaks d.text).map Prod.snd = d.table.lines.map Line.start ∧
      (Text.breaks d.text).map Prod.fst ++ [d.length] = d.table.lines.map Line.stop := by
  have whole : Text.joinLines (Text.cutLines d.text) = d.text := Text.join_cutLines d.text
  rw [length_eq] at short
  obtain ⟨starts, stops⟩ := Text.breaksFrom_joinLines (Text.cutLines_cut d.text)
    (Text.cutLines_loneFeed d.text) 0 0 none nofun
    (by rw [whole, Nat.zero_add]; exact short)
  rw [whole, Nat.zero_add] at stops
  rw [whole] at starts
  rw [d.table_eq, length_eq]
  exact ⟨starts.symm, stops.symm⟩

/-- A line with its break goes to the start of the line below. -/
theorem full_of_line? {line : Line} (found : d.table.line? i = some line) :
    line.full.start = line.start ∧ line.full.stop = d.lineStart (i + 1) := by
  rw [line?_eq] at found
  obtain ⟨piece, looked, rfl⟩ := Option.map_eq_some_iff.1 found
  refine ⟨rfl, ?_⟩
  rw [lineStart_eq, List.take_add_one, looked, Option.toList_some, Text.joinLines_append,
    Text.joinLines_cons, Text.joinLines_nil, List.append_nil, Text.byteLength_append,
    Text.byteLength_append]
  rfl

theorem number_of_line? {line : Line} (found : d.table.line? i = some line) :
    line.number = i := by
  rw [line?_eq] at found
  obtain ⟨piece, -, rfl⟩ := Option.map_eq_some_iff.1 found
  rfl

/-- A line that is looked up by the breaks has its bounds in order, and it is that of the
table. -/
theorem scannedLine?_eq (short : d.length < limit32) (i : Nat) :
    d.scannedLine? i = .ok (d.table.line? i) := by
  obtain ⟨starts, stops⟩ := d.breaks_eq short
  unfold scannedLine?
  dsimp only
  rw [starts, stops, List.getElem?_map, List.getElem?_map, List.getElem?_map]
  cases found : d.table.line? i with
  | none =>
    rw [show d.table.lines[i]? = none from found]
    rfl
  | some line =>
    obtain ⟨fullStart, fullStop⟩ := full_of_line? found
    have content : Span.ofBounds line.start line.stop = .ok line.content :=
      Span.ofBounds_of_le line.content.start_le_stop
    have full : Span.ofBounds line.start (d.lineStart (i + 1)) = .ok line.full := by
      rw [← fullStart, ← fullStop]
      exact Span.ofBounds_of_le line.full.start_le_stop
    rw [show d.table.lines[i]? = some line from found]
    dsimp only [Option.map_some]
    rw [content]
    dsimp only [bind, Except.bind]
    rw [show (d.table.lines[i + 1]?.map Line.start).getD d.length = d.lineStart (i + 1) from rfl,
      full]
    dsimp only
    rw [← number_of_line? found]
    rfl

/-! ## Texts of lines -/

/-- The text of a line is a piece of the cut text. -/
theorem lineText_eq {piece : List Char × List Char}
    (found : (Text.cutLines d.text)[i]? = some piece) :
    d.lineText i = .ok piece.1 ∧ d.fullLineText i = .ok (piece.1 ++ piece.2) := by
  have text : d.text = Text.joinLines ((Text.cutLines d.text).take i) ++
      (piece.1 ++ piece.2) ++ Text.joinLines ((Text.cutLines d.text).drop (i + 1)) := by
    obtain ⟨bound, here⟩ := List.getElem?_eq_some_iff.1 found
    have whole : Text.joinLines (Text.cutLines d.text) = d.text := Text.join_cutLines d.text
    rw [← List.take_append_drop i (Text.cutLines d.text), Text.joinLines_append,
      List.drop_eq_getElem_cons bound, here, Text.joinLines_cons] at whole
    rw [List.append_assoc]
    exact whole.symm
  have line : d.line i = .ok
      { number := i
        content := .ofLength (Text.byteLength (Text.joinLines ((Text.cutLines d.text).take i)))
          (Text.byteLength piece.1)
        full := .ofLength (Text.byteLength (Text.joinLines ((Text.cutLines d.text).take i)))
          (Text.byteLength piece.1 + Text.byteLength piece.2) } := by
    unfold Document.line
    rw [line?_eq, found]
    rfl
  constructor
  · unfold lineText
    rw [line]
    refine slice_eq_ok_iff.2 (Text.slice?_eq_some_iff.2
      ⟨_, piece.2 ++ Text.joinLines ((Text.cutLines d.text).drop (i + 1)), ?_, rfl, ?_⟩)
    · simpa only [List.append_assoc] using text
    · exact Text.byteLength_append _ _
  · unfold fullLineText
    rw [line]
    refine slice_eq_ok_iff.2 (Text.slice?_eq_some_iff.2 ⟨_, _, text, rfl, ?_⟩)
    rw [Text.byteLength_append, Text.byteLength_append]
    rfl

theorem lineText_of_le (past : d.lineCount ≤ i) :
    d.line i = .error (.noSuchLine i d.lineCount) ∧
      d.lineText i = .error (.noSuchLine i d.lineCount) ∧
      d.fullLineText i = .error (.noSuchLine i d.lineCount) := by
  have none := line_of_le past
  refine ⟨none, ?_, ?_⟩
  · unfold lineText
    rw [none]
    rfl
  · unfold fullLineText
    rw [none]
    rfl

/-- The first lines with their breaks. -/
theorem mapM_fullLineText {k : Nat} (le : k ≤ d.lineCount) :
    (List.range k).mapM d.fullLineText =
      .ok (((Text.cutLines d.text).take k).map fun l => l.1 ++ l.2) := by
  induction k with
  | zero => rfl
  | succ k ih =>
    have bound : k < (Text.cutLines d.text).length := by
      rw [← lineCount_eq]
      exact le
    have found := List.getElem?_eq_getElem bound
    rw [List.range_succ, List.mapM_append, ih (Nat.le_of_succ_le le), List.mapM_cons,
      (lineText_eq found).2, List.take_add_one, found, List.map_append]
    rfl

end Lines

end Document

/-- In a text of less than `2 ^ 32 - 1` bytes, lines looked up by the breaks among the bytes have
their bounds in order and are those of the table, and the line of an offset is one of them.  Put
together with their breaks they give the text back.  A line holds no line feed; all but the last
end in a break of two characters, or in a line feed that no carriage return precedes.  Numbers
from the count of lines on are no lines. -/
theorem lines_partition_text (d : Document) (small : d.length + 1 < limit32) :
    (∀ i, d.scannedLine? i = .ok (d.table.line? i)) ∧
    (∀ offset, d.line (d.lineOf offset) = .ok (d.lineAt offset)) ∧
    d.lineCount < limit32 ∧
    (∃ texts, (List.range d.lineCount).mapM d.fullLineText = .ok texts ∧
      texts.flatten = d.text) ∧
    (∀ i < d.lineCount, ∃ line content ending,
      d.line i = .ok line ∧ d.lineText i = .ok content ∧
      d.fullLineText i = .ok (content ++ ending) ∧ '\n' ∉ content ∧
      (i + 1 < d.lineCount → ending = ['\r', '\n'] ∨
        ending = ['\n'] ∧ content.getLast? ≠ some '\r') ∧
      (i + 1 = d.lineCount → ending = [])) ∧
    ∀ i, d.lineCount ≤ i →
      d.line i = .error (.noSuchLine i d.lineCount) ∧
      d.lineText i = .error (.noSuchLine i d.lineCount) ∧
      d.fullLineText i = .error (.noSuchLine i d.lineCount) := by
  have counted := d.lineCount_eq
  refine ⟨Document.scannedLine?_eq (Nat.lt_of_succ_lt small), ?_, ?_, ?_, ?_,
    fun i => Document.lineText_of_le⟩
  · intro offset
    obtain ⟨line, found, -⟩ := Document.exists_line? (d.lineOf_lt offset)
    unfold Document.line Document.lineAt
    simp only [found, Option.getD_some]
  · exact Nat.lt_of_le_of_lt d.lineCount_le small
  · refine ⟨_, Document.mapM_fullLineText (Nat.le_refl _), ?_⟩
    rw [counted, List.take_length]
    exact Text.join_cutLines d.text
  · intro i inside
    obtain ⟨line, placed, -⟩ := Document.exists_line inside
    rw [counted] at inside ⊢
    have found := List.getElem?_eq_getElem inside
    obtain ⟨text, full⟩ := Document.lineText_eq found
    obtain ⟨clean, ends, last⟩ := (Text.cutLines_cut d.text).piece found
    refine ⟨line, _, _, placed, text, full, clean, ?_, last⟩
    intro more
    rcases ends more with feed | both
    · exact Or.inr ⟨feed, Text.cutLines_loneFeed d.text _ (List.mem_of_getElem? found) feed⟩
    · exact Or.inl both

/-- A carriage return belongs to a break only if it is the one right before a line feed. -/
theorem lines_partition_text_mixed_breaks :
    let d := Document.ofText 0 ['a', '\r', '\r', '\n', 'é', '\n', '\n', '\r', 'b']
    d.length + 1 < limit32 ∧ d.lineCount = 4 ∧
      (List.range 4).mapM d.lineText = .ok [['a', '\r'], ['é'], [], ['\r', 'b']] ∧
      (∀ i, d.scannedLine? i = .ok (d.table.line? i)) ∧
      (∃ texts, (List.range d.lineCount).mapM d.fullLineText = .ok texts ∧
        texts.flatten = d.text) ∧
      d.lineText 4 = .error (.noSuchLine 4 4) := by
  intro d
  obtain ⟨scanned, -, -, whole, -, past⟩ := lines_partition_text d (by decide)
  exact ⟨by decide, by decide, by decide, scanned, whole, (past 4 (by decide)).2.1⟩

end CodeFolding
