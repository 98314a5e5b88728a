import CodeFolding.Span
import CodeFolding.Text.Bytes
import CodeFolding.Text.Lines

/-!
# Lines and positions

A `LineTable` places every line of a text: where its content starts and stops, and where its line
break stops.  It converts between byte offsets and positions (line and column, both from zero).

* `LineTable.lineOf`: the line that holds an offset; offsets past the end belong to the last line.
* `LineTable.position`, `LineTable.offsetOf`: the two conversions.
-/

namespace CodeFolding

/-- One line of a text. -/
structure Line where
  /-- Number of the line, from zero. -/
  number : Nat
  /-- Where the content stands, without the line break. -/
  content : Span
  /-- Where the content and the line break stand. -/
  full : Span
  deriving DecidableEq, Repr

namespace Line

/-- Offset of the first byte of the line. -/
def start (l : Line) : Nat := l.content.start

/-- Offset just past the content. -/
def stop (l : Line) : Nat := l.content.stop

end Line

/-- Place lines one after the other from an offset on. -/
def layLines (number start : Nat) : List (List Char × List Char) → List Line
  | [] => []
  | (content, ending) :: rest =>
    let width := Text.byteLength content
    let fullWidth := width + Text.byteLength ending
    { number, content := .ofLength start width, full := .ofLength start fullWidth } ::
      layLines (number + 1) (start + fullWidth) rest

/-- A place in a text: line and column, both from zero, the column in bytes. -/
structure Position where
  line : Nat
  column : Nat
  deriving DecidableEq, Repr

/-- Line and column as people count them, from one. -/
def Position.display (p : Position) : Except Fault String := do
  let line ← fit32 (p.line + 1)
  let column ← fit32 (p.column + 1)
  return s!"{line}:{column}"

/-- Where the lines of a text stand. -/
structure LineTable where
  /-- The lines in order; there is at least one. -/
  lines : List Line
  /-- Byte length of the whole text. -/
  length : Nat
  deriving DecidableEq, Repr

namespace LineTable

/-- The table of a text. -/
def ofText (cs : List Char) : LineTable where
  lines := layLines 0 0 (Text.cutLines cs)
  length := Text.byteLength cs

/-- Number of lines. -/
def count (t : LineTable) : Nat := t.lines.length

/-- Number of the line that holds an offset. -/
def lineOf (t : LineTable) (offset : Nat) : Nat :=
  t.lines.countP (·.start ≤ offset) - 1

/-- A line by its number. -/
def line? (t : LineTable) (number : Nat) : Option Line := t.lines[number]?

/-- Line and column of an offset. -/
def position (t : LineTable) (offset : Nat) : Position :=
  let line := t.lineOf offset
  { line, column := offset - ((t.line? line).map Line.start).getD 0 }

/-- The offset `column` bytes past the start of a line, wherever that line ends. -/
def offsetOf (t : LineTable) (p : Position) : Except Fault (Option Nat) :=
  match t.line? p.line with
  | none => .ok none
  | some line => return some (← fit32 (line.start + p.column))

/-- Span of a line's content. -/
def contentSpan? (t : LineTable) (number : Nat) : Option Span :=
  (t.line? number).map Line.content

/-- Span of a line with its break. -/
def fullSpan? (t : LineTable) (number : Nat) : Option Span :=
  (t.line? number).map Line.full

end LineTable

end CodeFolding
