import CodeFolding.View.Label

/-!
# Folds

A `Fold` is a region as an editor takes it: the positions of its two ends, what sort of fold it
is, and its label.
-/

namespace CodeFolding

/-- The sorts of folds that editors know. -/
inductive FoldKind where
  | region
  | comment
  | imports
  deriving DecidableEq, Repr

/-- The sort of fold of a region. -/
def RegionKind.foldKind : RegionKind → FoldKind
  | .comment => .comment
  | .importRun => .imports
  | .block | .conditional | .caseGroup => .region

/-- A region by positions, with its label. -/
structure Fold where
  first : Position
  last : Position
  kind : FoldKind
  label : List Char
  deriving DecidableEq, Repr

namespace Outline

/-- The fold of a region. -/
def fold (o : Outline) (r : Region) : Fold where
  first := o.document.position r.span.start
  last := o.document.position r.span.stop
  kind := r.kind.foldKind
  label := o.label r

/-- The folds in order of their first lines; folds of one line keep the order of the outline. -/
def folds (o : Outline) : List Fold :=
  (o.regions.map o.fold).mergeSort fun a b => a.first.line ≤ b.first.line

end Outline

end CodeFolding
