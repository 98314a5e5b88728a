import CodeFolding.Document
import CodeFolding.Region.Tree
import CodeFolding.Scan.Options

/-!
# Headers of blocks

A block whose brace leads its line is shown with the header above it: its start moves up to the
end of the nearest line that is not blank.  The start stays below what comes before the block: the
region to its left, or the first line of the region around it.
-/

namespace CodeFolding

/-- The first line that a block may move its start to. -/
def headerFloor (d : Document) (t : Tree) (id : Nat) : Nat :=
  match (t.node id).parent with
  | none => 0
  | some parent =>
    match t.precedingSibling? id with
    | some sibling =>
      let first := d.lineOf sibling.start
      let last := d.lineOf sibling.stop
      if first = last then last else last + 1
    | none =>
      if (t.node parent).kind.isSome then d.lineOf (t.node parent).start + 1 else 0

/-- The nearest line that is not blank above a line, not above the floor. -/
def lineAbove? (d : Document) (floor : Nat) : Nat → Option Line
  | 0 => none
  | number + 1 =>
    if number < floor then none
    else
      match d.line number with
      | .error _ => none
      | .ok line =>
        if Text.allBlank (d.sliceOrEmpty line.content) then lineAbove? d floor number
        else some line

/-- A complete block of several lines whose brace leads its line. -/
def hasHeader (d : Document) (n : Node) : Bool :=
  n.kind == some .block && n.complete && d.lineOf n.start != d.lineOf n.stop &&
    d.blankBefore n.start

/-- Move the start of a block up to the end of its header. -/
def extendStart (options : ScanOptions) (d : Document) (t : Tree) (id : Nat) : Tree :=
  if options.extendStarts && hasHeader d (t.node id) then
    match lineAbove? d (headerFloor d t id) (d.lineOf (t.node id).start) with
    | some line => t.update id fun n => { n with start := line.stop, fromPriorLine := true }
    | none => t
  else t

end CodeFolding
