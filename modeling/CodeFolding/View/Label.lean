import CodeFolding.Outline

/-!
# Labels

The label of a region stands in its place while it is folded.

* A comment run shows its first line with content; a line that only opens a summary does not
  count.
* An import run shows its first line.
* A directive shows its argument, or itself without one.
* Any other region shows three dots.
-/

namespace CodeFolding

/-- The longest label of a comment run, in characters. -/
def labelWidth : Nat := 100

/-- Three dots, for what is not shown. -/
def ellipsis : List Char := "...".toList

/-- Cut a text that is too long for a label. -/
def truncateLabel (cs : List Char) : List Char :=
  if labelWidth < cs.length then cs.take labelWidth ++ ' ' :: ellipsis else cs

/-- A character of a comment's markers. -/
def isCommentMarker (c : Char) : Bool := c == '/' || c == '*'

/-- A line of a comment without its markers. -/
def commentContent (line : List Char) : List Char :=
  Text.trim (Text.dropEndWhile isCommentMarker (line.dropWhile isCommentMarker))

/-- A comment line that is worth showing. -/
def isTelling (line : List Char) : Bool :=
  let content := commentContent line
  content != [] && content != "<summary>".toList

/-- The text after the name of a directive. -/
def directiveArgument (line : List Char) : List Char :=
  Text.trim ((Text.trimStart (line.dropWhile (· == '#'))).dropWhile Char.isAlpha)

namespace Outline

/-- The trimmed text of a line, empty if there is no such line. -/
def trimmedLine (o : Outline) (number : Nat) : List Char :=
  Text.trim ((o.document.lineText number).toOption.getD [])

/-- The trimmed texts of the lines of a region that exist. -/
def trimmedLines (o : Outline) (r : Region) : List (List Char) :=
  ((o.document.table.lines.drop r.startLine).take (r.endLine + 1 - r.startLine)).map
    fun line => Text.trim (o.document.sliceOrEmpty line.content)

/-- The label of a region. -/
def label (o : Outline) (r : Region) : List Char :=
  match r.kind with
  | .comment =>
    truncateLabel (((o.trimmedLines r).find? isTelling).getD (o.trimmedLine r.startLine))
  | .importRun => o.trimmedLine r.startLine
  | .conditional =>
    let line := o.trimmedLine r.startLine
    match directiveArgument line with
    | [] => line
    | argument => argument
  | .block | .caseGroup => ellipsis

end Outline

end CodeFolding
