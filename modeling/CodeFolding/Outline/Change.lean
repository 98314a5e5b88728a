import CodeFolding.Outline
import CodeFolding.Outline.Edit

/-!
# Changes between outlines

Two outlines are compared as sets of spans, where the spans of the older one are first moved
through the edits made since.  The change is the least span that covers every span of exactly one
of the two sets.
-/

namespace CodeFolding

namespace Span

/-- The cover of what is covered so far and one more span. -/
def coverWith (covered : Option Span) (span : Span) : Option Span :=
  some ((covered.map (·.cover span)).getD span)

/-- The spans in order, each once. -/
def normalize (spans : List Span) : List Span := (spans.mergeSort le).eraseReps

/-- Cover what stands in exactly one of two ordered lists, on top of what is covered already. -/
def coverDifference (covered : Option Span) : List Span → List Span → Option Span
  | [], news => news.foldl coverWith covered
  | olds, [] => olds.foldl coverWith covered
  | old :: olds, new :: news =>
    if old.lt new then coverDifference (coverWith covered old) olds (new :: news)
    else if new.lt old then coverDifference (coverWith covered new) (old :: olds) news
    else coverDifference covered olds news
termination_by olds news => olds.length + news.length

end Span

namespace Outline

/-- The span whose regions differ between an outline and a newer one, with the edits in between;
none if nothing changed. -/
def change (old new : Outline) (edits : List Edit) : Except Fault (Option Span) := do
  let moved ← old.regions.mapM fun r => Edit.moveAll edits r.span
  return Span.coverDifference none (Span.normalize moved)
    (Span.normalize (new.regions.map Region.span))

end Outline

end CodeFolding
