import CodeFolding.Scan.State

/-!
# Case labels

A `case` or `default` is a label when a colon ends it: the first punctuation after it, apart from
commas, dots and bracketed parts, starts with a colon.  A label ends the group of the label before
it and opens its own, which starts with the first code after the colon, but not below the line of
the label.
-/

namespace CodeFolding

/-- How many tokens after its keyword a label may take. -/
def labelLimit : Nat := 256

/-- Number of tokens before the colon that ends a label, `depth` brackets deep. -/
def tokensToColon? (depth : Nat) : List Token → Option Nat
  | [] => none
  | t :: rest =>
    let is (texts : List String) : Bool := texts.any (·.toList == t.text)
    if t.category ≠ .punctuation then (tokensToColon? depth rest).map (· + 1)
    else if is ["(", "["] then (tokensToColon? (depth + 1) rest).map (· + 1)
    else if is [")", "]"] && 0 < depth then (tokensToColon? (depth - 1) rest).map (· + 1)
    else if is [",", "."] || 0 < depth then (tokensToColon? depth rest).map (· + 1)
    else if t.text.head? = some ':' then some 0
    else none

namespace Cursor

/-- Stream index of the colon that ends the label starting here. -/
def labelColon? (c : Cursor) : Option Nat :=
  c.index?.bind fun i =>
    (tokensToColon? 0 ((c.tokens.drop (i + 1)).take labelLimit)).map (i + 1 + ·)

end Cursor

namespace Scan

/-- Where the group of a label starts. -/
def groupStart (s : Scan) (keyword : Token) (colon : Nat) : Nat :=
  let lineStop := (s.document.lineAt keyword.start).stop
  match (s.cursor.tokens.drop (colon + 1)).find? (!·.category.isComment) with
  | some t => min t.start lineStop
  | none => lineStop

/-- Open the group of a label and go on after its colon. -/
def openGroup (s : Scan) (parent : Nat) (keyword : Token) (colon : Nat) : Scan :=
  let start := s.groupStart keyword colon
  let opened := s.enter parent { kind := .caseGroup, start, opener := keyword.text }
  let labelStop := ((s.cursor.tokens[colon]?).map Token.stop).getD keyword.stop
  { opened with cursor := opened.cursor.skipTo labelStop }

/-- Read a `case` or `default`; none if it is no label. Directly in a block there is no group to
end. If the group that ends is the region being read, its parent opens the next one. -/
def caseLabel? (s : Scan) (parent : Nat) (keyword : Token) : Option Scan :=
  s.cursor.labelColon?.map fun colon =>
    let ending :=
      if (s.tree.node parent).kind = some .block then none
      else s.tree.nearestOpen? parent (·.kind == some .caseGroup)
    match ending with
    | none => s.openGroup parent keyword colon
    | some group =>
      let closed := s.close group (s.document.endBefore keyword.start)
      if group = parent then closed.leave parent else closed.openGroup parent keyword colon

end Scan

end CodeFolding
