import CodeFolding.Scan.Options
import CodeFolding.Settings.Duration
import CodeFolding.View.Preview

/-!
# Settings

All that a session can be set to, and how it is read from and written to a file.  Every setting
that is missing has its default, and entries without a meaning are skipped.
-/

namespace CodeFolding

namespace ScanOptions

/-- Read the options of a scan. -/
def ofValue? (v : Value) : Option ScanOptions := do
  let default : ScanOptions := {}
  let entries ← v.entries? ["honor_region_directives", "group_switch_cases",
    "extend_block_starts", "doc_comment_lookahead", "import_keyword"]
  return {
    foldRegionDirectives := ← Value.readOr default.foldRegionDirectives Value.asBool?
      (entries.lookup "honor_region_directives")
    groupCases := ← Value.readOr default.groupCases Value.asBool?
      (entries.lookup "group_switch_cases")
    extendStarts := ← Value.readOr default.extendStarts Value.asBool?
      (entries.lookup "extend_block_starts")
    bridgeIdentifiers := ← Value.readOr default.bridgeIdentifiers Value.asBool?
      (entries.lookup "doc_comment_lookahead")
    importKeyword := ← Value.readOr default.importKeyword Value.asText?
      (entries.lookup "import_keyword") }

/-- Write the options of a scan. -/
def toValue (o : ScanOptions) : Value :=
  .record [("honor_region_directives", .bool o.foldRegionDirectives),
    ("group_switch_cases", .bool o.groupCases),
    ("extend_block_starts", .bool o.extendStarts),
    ("doc_comment_lookahead", .bool o.bridgeIdentifiers),
    ("import_keyword", .text (String.ofList o.importKeyword))]

end ScanOptions

namespace PreviewOptions

/-- Read the limits of previews. -/
def ofValue? (v : Value) : Option PreviewOptions := do
  let default : PreviewOptions := {}
  let entries ← v.entries? ["max_lines", "debug", "fallback_max_lines"]
  return {
    maxLines := ← Value.readOr default.maxLines (Value.asNatural? limit64)
      (entries.lookup "max_lines")
    debug := ← Value.readOr default.debug Value.asBool? (entries.lookup "debug")
    fallbackMaxLines := ← Value.readOr default.fallbackMaxLines (Value.asNatural? limit64)
      (entries.lookup "fallback_max_lines") }

/-- Write the limits of previews. -/
def toValue (o : PreviewOptions) : Value :=
  .record [("max_lines", .natural o.maxLines), ("debug", .bool o.debug),
    ("fallback_max_lines", .natural o.fallbackMaxLines)]

end PreviewOptions

/-- The quiet period of a session unless it is set. -/
def defaultQuiet : Duration := .ofMillis 2500

/-- What a session can be set to. -/
structure Settings where
  scan : ScanOptions := {}
  preview : PreviewOptions := {}
  /-- Time without edits before a document is scanned again. -/
  quiet : Duration := defaultQuiet
  deriving DecidableEq, Repr

namespace Settings

/-- Read settings; none if an entry is not of its type. -/
def ofValue? (v : Value) : Option Settings := do
  let default : Settings := {}
  let entries ← v.entries? ["parse", "preview", "debounce"]
  return {
    scan := ← Value.readOr default.scan ScanOptions.ofValue? (entries.lookup "parse")
    preview := ← Value.readOr default.preview PreviewOptions.ofValue? (entries.lookup "preview")
    quiet := ← Value.readOr default.quiet Duration.ofValue? (entries.lookup "debounce") }

/-- Write settings. -/
def toValue (s : Settings) : Value :=
  .record [("parse", s.scan.toValue), ("preview", s.preview.toValue),
    ("debounce", s.quiet.toValue)]

end Settings

end CodeFolding
