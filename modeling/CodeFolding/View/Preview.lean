import CodeFolding.Outline

/-!
# Previews

A `Preview` shows the text of a folded region.  It is taken from the document as it is now, which
has to be the version that the region was found in; otherwise, and if the region does not fit the
document, a plain preview of the outline's own document takes its place.

Lines lose the indent that they have in common.  A first line that starts in the middle of a line
is shown as it is and does not count for the indent.
-/

namespace CodeFolding

/-- Limits of previews. -/
structure PreviewOptions where
  /-- Lines shown before a preview is cut. -/
  maxLines : Nat := 40
  /-- Put a header before the preview and allow for it. -/
  debug : Bool := false
  /-- Lines shown before a plain preview is cut. -/
  fallbackMaxLines : Nat := 25
  deriving DecidableEq, Repr

/-- Why there is no preview. -/
inductive PreviewFailure where
  /-- The region does not fit the document. -/
  | address (error : AddressError)
  /-- The region is at odds with itself. -/
  | fault (fault : Fault)
  deriving DecidableEq, Repr

/-- The text of a region as it is shown. -/
structure Preview where
  text : List Char
  /-- Number of lines of the region that are shown. -/
  lines : Nat
  /-- Some lines are not shown. -/
  truncated : Bool
  /-- Taken from the document that the region was found in. -/
  fallback : Bool
  deriving DecidableEq, Repr

namespace Preview

/-- The header of a preview in debug mode. -/
def debugHeader : List (List Char) := ["[debug] outline preview".toList, []]

/-- Lines that debug mode allows beside the limit. -/
def debugExtra : Nat := 3

/-- What a tab is shown as. -/
def tab : List Char := [' ', ' ', ' ', ' ']

/-- Number of blank characters that start a line. -/
def indentOf (line : List Char) : Nat := (line.takeWhile Text.isBlank).length

/-- The indent that the lines with content have in common. -/
def commonIndent (lines : List (List Char)) : Nat :=
  (((lines.filter (!Text.allBlank ·)).map indentOf).min?).getD 0

/-- A line without an indent; a blank line is shown empty. -/
def stripIndent (indent : Nat) (line : List Char) : List Char :=
  if Text.allBlank line then [] else line.drop indent

/-- Show lines, as many as the budget allows. -/
def render (lines : List (List Char)) (budget : Nat) (debug partialFirst fallback : Bool) :
    Preview :=
  let shown := lines.take budget
  let truncated := budget < lines.length
  let kept := shown.take (if partialFirst then 1 else 0)
  let indented := shown.drop kept.length
  let header := if debug then debugHeader else []
  let body := kept ++ indented.map (stripIndent (commonIndent indented))
  let footer := if truncated then ["...".toList] else []
  { text := ['\n'].intercalate (header ++ body ++ footer)
    lines := shown.length
    truncated
    fallback }

/-- The line and the offset where the preview of a region starts: below a start at the end of a
line, at the start of the line if only blanks precede the region there, else at its start. -/
def begin? (d : Document) (r : Region) : Except AddressError (Nat × Nat) := do
  let line ← d.line r.startLine
  if line.stop ≤ r.span.start && r.startLine < r.endLine then
    let next ← d.line (r.startLine + 1)
    return (next.number, next.start)
  else if d.blankBefore r.span.start then return (line.number, line.start)
  else return (line.number, max r.span.start line.start)

/-- An answer of the document as part of a preview. -/
def ofDocument (x : Except AddressError α) : Except PreviewFailure α := x.mapError .address

/-- A checked number or span as part of a preview. -/
def ofChecked (x : Except Fault α) : Except PreviewFailure α := x.mapError .fault

/-- The lines of a region from a line on, where the first starts at `offset` and the last does not
go past the region. -/
def regionLines (d : Document) (r : Region) (first offset : Nat) :
    Nat → Nat → Except PreviewFailure (List (List Char))
  | _, 0 => .ok []
  | number, more + 1 => do
    let line ← ofDocument (d.line number)
    let start := if number = first then offset else line.start
    let stop ←
      if number = r.endLine then ofChecked (clampInto start line.stop r.span.stop)
      else .ok line.stop
    let span ← ofChecked (Span.ofBounds start stop)
    let text ← ofDocument (d.slice span)
    return text :: (← regionLines d r first offset (number + 1) more)

/-- Number of lines that a preview may show. -/
def budget (options : PreviewOptions) : Except Fault Nat :=
  if options.debug then fit64 (options.maxLines + debugExtra) else .ok options.maxLines

/-- The preview of a region from the document as it is now. -/
def hover (options : PreviewOptions) (o : Outline) (r : Region) (now : Document) :
    Except PreviewFailure Preview := do
  if o.version ≠ now.version then
    throw (.address (.staleVersion o.version now.version))
  let (first, offset) ← ofDocument (begin? now r)
  let lines ← regionLines now r first offset first (r.endLine + 1 - first)
  let partialFirst := (← ofDocument (now.line first)).start < offset
  return render lines (← ofChecked (budget options)) options.debug partialFirst false

/-- The plain preview of a region: tabs as blanks, and no blank lines at the start. -/
def plain (options : PreviewOptions) (d : Document) (r : Region) : Preview :=
  let lines := (Text.contentLines (d.sliceOrEmpty r.span)).dropWhile Text.allBlank
  let expanded := lines.map fun line => line.flatMap fun c => if c = '\t' then tab else [c]
  render expanded options.fallbackMaxLines options.debug false true

/-- The preview of a region, plain if the document does not have it. -/
def hoverOrPlain (options : PreviewOptions) (o : Outline) (r : Region) (now : Document) :
    Except Fault Preview :=
  match hover options o r now with
  | .ok preview => .ok preview
  | .error (.address _) => .ok (plain options o.document r)
  | .error (.fault fault) => .error fault

end Preview

end CodeFolding
