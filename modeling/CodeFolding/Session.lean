import CodeFolding.Outline.Change
import CodeFolding.Session.Debounce
import CodeFolding.Settings

/-!
# Sessions

A `Session` keeps the outline of an open document up to date.  Edits are recorded, and after a
quiet period the document is scanned again.  A run takes the recorded edits when it begins, and
replaces the outline when it is complete; until then the old outline is shown, and no second run
begins.
-/

namespace CodeFolding

/-- The outline of a document changed within a span. -/
structure Notice where
  session : SessionId
  version : Nat
  span : Span
  deriving DecidableEq, Repr

/-- The state of an open document. Times are in nanoseconds. -/
structure Session where
  id : SessionId
  settings : Settings
  /-- The outline shown. -/
  latest : Outline
  /-- A run has begun and is not complete. -/
  running : Bool
  /-- Edits since the last run began, oldest first. -/
  edits : List Edit
  debouncer : Debouncer

namespace Session

/-- The session of a document that was not scanned yet. -/
def start (id : SessionId) (settings : Settings) (d : Document) : Session where
  id
  settings
  latest := .empty id d
  running := false
  edits := []
  debouncer := { quiet := settings.quiet.toNanos }

/-- Record an edit. -/
def edit (s : Session) (e : Edit) (now : Nat) : Session :=
  { s with edits := s.edits ++ [e], debouncer := s.debouncer.touch now }

/-- A run should begin by now: no run is under way, and the quiet period after an edit is over. -/
def isDue (s : Session) (now : Nat) : Bool := !s.running && s.debouncer.isDue now

/-- Begin a run: take the recorded edits. -/
def beginRun (s : Session) : Session × List Edit :=
  ({ s with running := true, edits := [], debouncer := s.debouncer.cancel }, s.edits)

/-- End a run that took these edits: show the new outline, and tell what changed. -/
def completeRun (s : Session) (taken : List Edit) (new : Outline) :
    Except Fault (Session × Option Notice) := do
  let change ← s.latest.change new taken
  let notice := change.map fun span => { session := s.id, version := new.version, span }
  return ({ s with running := false, latest := new }, notice)

/-- Give up a run. -/
def abandonRun (s : Session) : Session := { s with running := false }

/-- The regions shown that have a line from `first` to `last`. -/
def regionsInLines (s : Session) (first last : Nat) : List Region :=
  s.latest.overlapping first last

/-- The preview of a region of the outline shown. -/
def hover (s : Session) (r : Region) (now : Document) : Except Fault Preview :=
  Preview.hoverOrPlain s.settings.preview s.latest r now

end Session

end CodeFolding
