import CodeFolding.Span

/-!
# Edits

An `Edit` replaces a span of a text by a number of new bytes, and moves the offsets and spans of
the old text to their places in the new one.  What is inserted at the edge of a span lands outside
it, and a span inside the replaced text collapses to the end of what replaces it.
-/

namespace CodeFolding

/-- The side of inserted text that an offset at the place of insertion keeps to. -/
inductive Side where
  | left
  | right
  deriving DecidableEq, Repr

/-- A span of a text replaced by new bytes. -/
structure Edit where
  span : Span
  newLength : Nat
  deriving DecidableEq, Repr

namespace Edit

/-- New bytes at an offset. -/
def insertion (offset newLength : Nat) : Edit := ⟨.empty offset, newLength⟩

/-- A span removed. -/
def deletion (span : Span) : Edit := ⟨span, 0⟩

/-- The place of an old offset in the new text. -/
def moveOffset (e : Edit) (offset : Nat) (side : Side) : Except Fault Nat :=
  if offset < e.span.start then .ok offset
  else if e.span.stop < offset then fit32 (offset - e.span.length + e.newLength)
  else if offset = e.span.stop && e.span.start < e.span.stop then
    fit32 (e.span.start + e.newLength)
  else
    match side with
    | .left => .ok e.span.start
    | .right => fit32 (e.span.start + e.newLength)

/-- The place of an old span in the new text. -/
def move (e : Edit) (span : Span) : Except Fault Span := do
  let start ← e.moveOffset span.start .right
  let stop ← e.moveOffset span.stop .left
  return ⟨start, max stop start, Nat.le_max_right _ _⟩

/-- The place of a span after one edit and then the next. -/
def moveAll (edits : List Edit) (span : Span) : Except Fault Span :=
  edits.foldlM (fun span e => e.move span) span

end Edit

end CodeFolding
