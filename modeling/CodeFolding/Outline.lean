import CodeFolding.Region.Flatten
import CodeFolding.Scan.Step

/-!
# Outlines

An `Outline` is the regions of one document in reading order, with the document they were found in
and the session that asked.
-/

namespace CodeFolding

/-- The number of a session. -/
abbrev SessionId := Nat

/-- The number that stands for no session. -/
def SessionId.detached : SessionId := 0

/-- How a session is written. -/
def SessionId.name (id : SessionId) : String := s!"session#{id}"

/-- The regions of a document. -/
structure Outline where
  session : SessionId
  document : Document
  regions : List Region

namespace Outline

/-- The outline of a document that was not scanned yet. -/
def empty (session : SessionId) (document : Document) : Outline :=
  { session, document, regions := [] }

/-- Version of the document. -/
def version (o : Outline) : Nat := o.document.version

/-- The regions that have a line from `first` to `last`. -/
def overlapping (o : Outline) (first last : Nat) : List Region :=
  o.regions.filter (·.overlapsLines first last)

/-- The outline of a document with its tokens. -/
def ofTokens (options : ScanOptions) (session : SessionId) (d : Document) (tokens : List Token) :
    Except Fault Outline := do
  return { session, document := d, regions := ← (Tree.ofTokens options d tokens).flatten d }

end Outline

end CodeFolding
