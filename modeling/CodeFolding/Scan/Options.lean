/-!
# Options of a scan
-/

namespace CodeFolding

/-- Which regions a scan looks for. -/
structure ScanOptions where
  /-- Fold pairs of region directives. -/
  foldRegionDirectives : Bool := true
  /-- Fold the body of each case label. -/
  groupCases : Bool := true
  /-- Let a block start at the end of the header line above its brace. -/
  extendStarts : Bool := true
  /-- Let a comment run go on over an identifier between two comments of a line. -/
  bridgeIdentifiers : Bool := true
  /-- The keyword that starts an import. -/
  importKeyword : List Char := "using".toList
  deriving DecidableEq, Repr

end CodeFolding
