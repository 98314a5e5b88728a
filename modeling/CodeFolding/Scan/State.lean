import CodeFolding.Cursor
import CodeFolding.Scan.Header

/-!
# State of a scan

A scan walks a document once, from token to token.  Its state is the cursor, the tree built so
far, and the innermost region that is being read (`within`); the regions around that one are its
ancestors in the tree.  A region is left when it ends, and only then its start may move up.
-/

namespace CodeFolding

/-- A scan under way. -/
structure Scan where
  options : ScanOptions
  cursor : Cursor
  tree : Tree
  /-- The region being read; none when the scan is over. -/
  within : Option Nat
  /-- Where a directive stands that ended the arm it was read in and has yet to open its own. -/
  pendingArm : Option Nat
  /-- Where the import run would stop without its last line. -/
  importRollback : Nat
  /-- The last comment is a block comment that is never closed. -/
  commentUnclosed : Bool

namespace Scan

/-- The scan at the start of a document, reading the root. -/
def start (options : ScanOptions) (d : Document) (tokens : List Token) : Scan where
  options
  cursor := .start d tokens
  tree := .empty
  within := some Tree.rootId
  pendingArm := none
  importRollback := 0
  commentUnclosed := false

/-- The document being scanned. -/
def document (s : Scan) : Document := s.cursor.document

/-- Move past the token or character at the cursor. -/
def advance (s : Scan) : Scan := { s with cursor := s.cursor.advance }

/-- Move to the next line. -/
def nextLine (s : Scan) : Scan := { s with cursor := s.cursor.nextLine }

/-- Open a region under a node and read it from now on. -/
def enter (s : Scan) (parent : Nat) (o : Opening) : Scan :=
  { s with tree := s.tree.add parent o, within := some s.tree.nextId }

/-- Complete a region. -/
def close (s : Scan) (id stop : Nat) : Scan := { s with tree := s.tree.close id stop }

/-- Stop reading a region and go on in its parent. -/
def leave (s : Scan) (id : Nat) : Scan :=
  { s with
    tree := extendStart s.options s.document s.tree id
    within := (s.tree.node id).parent }

end Scan

end CodeFolding
