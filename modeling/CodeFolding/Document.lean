import CodeFolding.Document.Line
import CodeFolding.Text.Blank

/-!
# Documents

A `Document` is one version of a text together with its table of lines.  Text is asked for by span
or by line number; what is asked for may not exist, which is an `AddressError`.

* `Document.slice`: the text of a span whose ends are character boundaries.
* `Document.lineAt`: the line of an offset.
* `Document.endBefore`: the offset just before a place, at the end of the line above when only
  blanks precede it on its own line.
-/

namespace CodeFolding

/-- A text that was asked for and does not exist. -/
inductive AddressError where
  /-- A region of one version was asked of a document at another. -/
  | staleVersion (region current : Nat)
  /-- A span that leaves the document, or cuts through a character. -/
  | outOfBounds (span : Span) (length : Nat)
  /-- A line past the last one. -/
  | noSuchLine (line count : Nat)
  deriving DecidableEq, Repr

/-- How a version is written. -/
def versionName (version : Nat) : String := s!"v{version}"

/-- What the error says. -/
def AddressError.message : AddressError → String
  | .staleVersion region current =>
    let region := versionName region
    let current := versionName current
    s!"region was computed against {region} but the document is at {current}"
  | .outOfBounds span length =>
    let start := span.start
    let stop := span.stop
    s!"range {start}..{stop} lies outside the document ({length} bytes)"
  | .noSuchLine line count => s!"line {line} does not exist (document has {count} lines)"

/-- One version of a text. -/
structure Document where
  version : Nat
  text : List Char
  table : LineTable
  table_eq : table = LineTable.ofText text

namespace Document

/-- The document of a text. -/
def ofText (version : Nat) (text : List Char) : Document where
  version
  text
  table := .ofText text
  table_eq := rfl

/-- Version and text determine the document. -/
@[ext]
theorem ext {a b : Document} (version : a.version = b.version) (text : a.text = b.text) :
    a = b := by
  obtain ⟨_, _, _, rfl⟩ := a
  obtain ⟨_, _, _, rfl⟩ := b
  simp_all

/-- Byte length of the text. -/
def length (d : Document) : Nat := d.table.length

/-- Number of lines; the empty text has one. -/
def lineCount (d : Document) : Nat := d.table.count

/-- The version after this one. -/
def nextVersion (d : Document) : Except Fault Nat := fit32 (d.version + 1)

/-- Version, length and number of lines in one line of text. -/
def summary (d : Document) : String :=
  let version := versionName d.version
  let length := d.length
  let lines := d.lineCount
  "TextSnapshot \x7b " ++ s!"version: {version}, len: {length}, lines: {lines}" ++ " \x7d"

/-- The text of a span. -/
def slice (d : Document) (span : Span) : Except AddressError (List Char) :=
  match Text.slice? span.start span.stop d.text with
  | some cs => .ok cs
  | none => .error (.outOfBounds span d.length)

/-- The text of a span, empty if there is none. -/
def sliceOrEmpty (d : Document) (span : Span) : List Char := (d.slice span).toOption.getD []

/-- The character that starts at an offset. -/
def charAt? (d : Document) (offset : Nat) : Option Char :=
  (Text.dropBytes? offset d.text).bind List.head?

/-- Number of the line that holds an offset. -/
def lineOf (d : Document) (offset : Nat) : Nat := d.table.lineOf offset

/-- Line and column of an offset. -/
def position (d : Document) (offset : Nat) : Position := d.table.position offset

/-- A line by its number. -/
def line (d : Document) (number : Nat) : Except AddressError Line :=
  match d.table.line? number with
  | some l => .ok l
  | none => .error (.noSuchLine number d.lineCount)

/-- The line that holds an offset. -/
def lineAt (d : Document) (offset : Nat) : Line :=
  let number := d.lineOf offset
  (d.table.line? number).getD { number, content := .empty d.length, full := .empty d.length }

/-- The text of a line without its break. -/
def lineText (d : Document) (number : Nat) : Except AddressError (List Char) := do
  d.slice (← d.line number).content

/-- The text of a line with its break. -/
def fullLineText (d : Document) (number : Nat) : Except AddressError (List Char) := do
  d.slice (← d.line number).full

/-- The trimmed text of the line that holds an offset. -/
def trimmedLineAt (d : Document) (offset : Nat) : List Char :=
  Text.trim (d.sliceOrEmpty (d.lineAt offset).content)

/-- Only blanks stand between the start of the line and the offset. -/
def blankBefore (d : Document) (offset : Nat) : Bool :=
  let start := (d.lineAt offset).start
  if h : start ≤ offset then
    match d.slice ⟨start, offset, h⟩ with
    | .ok cs => Text.allBlank cs
    | .error _ => false
  else true

/-- The end of the line above when only blanks precede the offset on its line, else the offset. -/
def endBefore (d : Document) (offset : Nat) : Nat :=
  let line := d.lineAt offset
  if 0 < line.number && d.blankBefore offset then
    ((d.table.line? (line.number - 1)).map Line.stop).getD offset
  else offset

end Document

end CodeFolding
