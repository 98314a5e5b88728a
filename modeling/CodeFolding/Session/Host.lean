import CodeFolding.Session

/-!
# Hosts

A `Host` is an editor with one open document and its session.  It performs steps one after the
other and replies to each.  The classifier belongs to the host, so while a run classifies its
document, the host may perform further steps: the interlude of the run.  In an interlude the old
outline is shown, and steps that ask for a run are skipped.

* `Host.perform`: one step.
* `Host.performAll`: steps in order; a fault is the last reply.
-/

namespace CodeFolding

/-- A document that a step names beside the open one: what is given replaces that part. -/
structure Override where
  version : Option Nat := none
  text : Option (List Char) := none

/-- The open document with parts replaced. -/
def Override.apply (o : Override) (d : Document) : Document :=
  match o.version, o.text with
  | none, none => d
  | version, text => .ofText (version.getD d.version) (text.getD d.text)

/-- The region that a preview is asked for. -/
inductive HoverTarget where
  /-- A region of the outline shown, by its place in reading order. -/
  | index (i : Nat)
  /-- Any region; its bounds are checked when it is asked for. -/
  | region (r : Except Fault Region)

/-- What a host is asked to do. Times are in nanoseconds. -/
inductive Step where
  /-- Replace the bytes from `start` to `stop` of the open document. -/
  | replace (start stop : Nat) (insert : List Char) (time : Nat)
  /-- Record an edit without changing the document. -/
  | edit (e : Except Fault Edit) (time : Nat)
  /-- Scan the document again if the quiet period is over. -/
  | poll (time : Nat) (document : Override) (interlude : List Step)
  /-- Scan the document again now. -/
  | refresh (document : Override) (interlude : List Step)
  | outline
  | regionsInLines (first last : Nat)
  | isRunning
  | quiet
  | hover (target : HoverTarget) (document : Override)
  deriving Inhabited

/-- What a host answers. -/
inductive Reply where
  /-- Version and length of the document after bytes were replaced. -/
  | replaced (version length : Nat)
  /-- The bytes to replace are no slice of the document. -/
  | badRange
  | edited
  /-- What a run changed, and the replies of its interlude if there was a run. -/
  | ran (notice : Option Notice) (interlude : Option (List (Except Fault Reply)))
  | outline (outline : Outline)
  | regions (regions : List Region)
  | isRunning (b : Bool)
  | quiet (millis : Nat)
  /-- A preview; none if there is no such region. -/
  | preview (p : Option Preview)

/-- An editor with an open document. -/
structure Host where
  classify : Document → List Token
  document : Document
  session : Session

namespace Host

/-- Open a document, with the id that its session is given. -/
def start (id : SessionId) (classify : Document → List Token) (settings : Settings)
    (d : Document) : Host where
  classify
  document := d
  session := .start id settings d

/-- Replace bytes of the open document and record the edit. The bounds have to be in order,
whatever the document; bounds in order that are not both character boundaries of it change
nothing. -/
def replace (h : Host) (start stop : Nat) (insert : List Char) (time : Nat) :
    Except Fault (Host × Reply) := do
  let span ← Span.ofBounds start stop
  match Text.takeBytes? span.start h.document.text, Text.dropBytes? span.stop h.document.text with
  | some front, some rest =>
    let version ← h.document.nextVersion
    let document := Document.ofText version (front ++ insert ++ rest)
    let session := h.session.edit ⟨span, Text.byteLength insert⟩ time
    return ({ h with document, session }, .replaced version document.length)
  | _, _ => return (h, .badRange)

/-- The preview that is asked for. -/
def hover (h : Host) (target : HoverTarget) (now : Document) : Except Fault Reply := do
  match target with
  | .index i =>
    match h.session.latest.regions[i]? with
    | none => return .preview none
    | some r => return .preview (some (← h.session.hover r now))
  | .region r => return .preview (some (← h.session.hover (← r) now))

/-- Classify and scan a document, and end the run that took these edits. -/
def completeRun (h : Host) (taken : List Edit) (d : Document) :
    Except Fault (Session × Option Notice) := do
  let new ← Outline.ofTokens h.session.settings.scan h.session.id d (h.classify d)
  h.session.completeRun taken new

/-- Replies in order, of which only the last can be a fault. -/
abbrev Replies := List (Except Fault Reply)

/-- Perform a run on a document. Its interlude comes after the edits were taken and before the
document is classified. A fault ends the interlude and the run goes on: a classifier is taken to
catch the faults of the steps it performs. One that it let through would end the run too, and
leave the session as a fault of `completeRun` does. -/
def run (h : Host) (d : Document) (interlude : Host → Host × Replies) :
    Host × Except Fault Reply :=
  let (session, taken) := h.session.beginRun
  let (h, replies) := interlude { h with session }
  match h.completeRun taken d with
  | .ok (session, notice) => ({ h with session }, .ok (.ran notice (some replies)))
  | .error fault => ({ h with session := h.session.abandonRun }, .error fault)

mutual

/-- Perform one step. A poll asks whether a run is due and begins it at once, for which `isDue`
and `beginRun` are enough: the trigger that `Debouncer.fire` would take in between is the one that
`beginRun` forgets. A poll that has taken its trigger and then finds that another run began would
have to arm the trigger again. Steps come one at a time, and nothing is performed between the
question and the beginning, so this does not happen. -/
def perform (h : Host) : Step → Host × Except Fault Reply
  | .replace start stop insert time =>
    match h.replace start stop insert time with
    | .ok (h, reply) => (h, .ok reply)
    | .error fault => (h, .error fault)
  | .edit e time =>
    match e with
    | .ok e => ({ h with session := h.session.edit e time }, .ok .edited)
    | .error fault => (h, .error fault)
  | .poll time document interlude =>
    if h.session.isDue time then
      h.run (document.apply h.document) fun h => h.performAll interlude
    else (h, .ok (.ran none none))
  | .refresh document interlude =>
    if h.session.running then (h, .ok (.ran none none))
    else h.run (document.apply h.document) fun h => h.performAll interlude
  | .outline => (h, .ok (.outline h.session.latest))
  | .regionsInLines first last => (h, .ok (.regions (h.session.regionsInLines first last)))
  | .isRunning => (h, .ok (.isRunning h.session.running))
  | .quiet => (h, .ok (.quiet h.session.settings.quiet.toMillis))
  | .hover target document => (h, h.hover target (document.apply h.document))
termination_by structural step => step

/-- Perform steps in order, up to and with the first fault. -/
def performAll (h : Host) : List Step → Host × Replies
  | [] => (h, [])
  | step :: rest =>
    match h.perform step with
    | (h, .ok reply) =>
      let (h, replies) := h.performAll rest
      (h, .ok reply :: replies)
    | (h, .error fault) => (h, [.error fault])
termination_by structural steps => steps

end

end Host

end CodeFolding
