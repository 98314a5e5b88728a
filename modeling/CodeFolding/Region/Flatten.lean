import CodeFolding.Document
import CodeFolding.Region.Tree

/-!
# Regions in reading order

`Tree.flatten` lists the regions to show: complete ones of more than one line, each before the
regions inside it, with the number of listed regions around it as its depth.  Nodes that are not
listed still have their children visited.
-/

namespace CodeFolding

/-- A region to show. -/
structure Region where
  kind : RegionKind
  span : Span
  startLine : Nat
  endLine : Nat
  /-- Number of listed regions around this one. -/
  depth : Nat
  /-- A block whose header stands on the line above its brace. -/
  fromPriorLine : Bool
  deriving DecidableEq, Repr

namespace Region

/-- The region has a line from `first` to `last`. -/
def overlapsLines (r : Region) (first last : Nat) : Bool :=
  r.startLine ≤ last && first ≤ r.endLine

/-- Number of lines of the region. -/
def lineCount (r : Region) : Except Fault Nat :=
  if r.startLine ≤ r.endLine then fit32 (r.endLine - r.startLine + 1) else .error .overflow

end Region

/-- The region of a node, if it is one to show. -/
def Node.region? (d : Document) (depth : Nat) (n : Node) : Except Fault (Option Region) :=
  let startLine := d.lineOf n.start
  let endLine := d.lineOf n.stop
  match n.kind with
  | none => .ok none
  | some kind =>
    if n.complete && startLine != endLine then do
      let span ← Span.ofBounds n.start n.stop
      return some
        { kind, span, startLine, endLine, depth, fromPriorLine := n.fromPriorLine }
    else .ok none

namespace Tree

/-- List the regions of the nodes on a work list, each with its depth, and of all nodes below
them; `fuel` nodes at most. -/
def flattenWork (d : Document) (t : Tree) : Nat → List (Nat × Nat) → Except Fault (List Region)
  | 0, _ => .ok []
  | _, [] => .ok []
  | fuel + 1, (id, depth) :: work => do
    let node := t.node id
    let region? ← node.region? d depth
    let below := if region?.isSome then depth + 1 else depth
    let rest ← flattenWork d t fuel (node.children.map (·, below) ++ work)
    return region?.toList ++ rest

/-- A turn lists the region of the first node, if it has one, before what the rest lists. -/
theorem flattenWork_cons {d : Document} {t : Tree} {id depth fuel : Nat} {work : List (Nat × Nat)}
    {shown : Option Region} {regions : List Region}
    (here : (t.node id).region? d depth = .ok shown)
    (rest : t.flattenWork d fuel ((t.node id).children.map
      (·, if shown.isSome then depth + 1 else depth) ++ work) = .ok regions) :
    t.flattenWork d (fuel + 1) ((id, depth) :: work) = .ok (shown.toList ++ regions) := by
  rw [flattenWork, here]
  simp only [bind, Except.bind, rest]
  rfl

/-- The regions to show, in reading order. No node comes onto the work list twice, so the number
of nodes bounds the work. -/
def flatten (d : Document) (t : Tree) : Except Fault (List Region) :=
  flattenWork d t t.nodes.size ((t.node rootId).children.map (·, 0))

end Tree

end CodeFolding
