import CodeFolding.Fault

/-!
# Spans

A `Span` is a range of byte offsets, `start` included and `stop` excluded, that does not end
before it starts.  `Span.ofBounds` is the only way in for bounds of unknown order.
-/

namespace CodeFolding

/-- A range of byte offsets. -/
structure Span where
  start : Nat
  stop : Nat
  start_le_stop : start ≤ stop := by omega
  deriving DecidableEq, Repr

namespace Span

/-- Two spans with the same bounds are the same span. -/
@[ext]
theorem ext {a b : Span} (start : a.start = b.start) (stop : a.stop = b.stop) : a = b := by
  cases a; cases b; simp_all

/-- The span between two bounds, which have to be in order. -/
def ofBounds (start stop : Nat) : Except Fault Span :=
  if h : start ≤ stop then .ok ⟨start, stop, h⟩ else .error .reversed

theorem ofBounds_of_le {start stop : Nat} (h : start ≤ stop) :
    ofBounds start stop = .ok ⟨start, stop, h⟩ :=
  dif_pos h

/-- The empty span at an offset. -/
def empty (offset : Nat) : Span := ⟨offset, offset, Nat.le_refl _⟩

/-- The span of `length` bytes from `start`. -/
def ofLength (start length : Nat) : Span := ⟨start, start + length, Nat.le_add_right _ _⟩

/-- Number of bytes in the span. -/
def length (s : Span) : Nat := s.stop - s.start

/-- Order by start, then by stop. -/
def le (a b : Span) : Bool :=
  a.start < b.start || (a.start == b.start && a.stop ≤ b.stop)

/-- Strictly before in the order by start, then by stop. -/
def lt (a b : Span) : Bool :=
  a.start < b.start || (a.start == b.start && a.stop < b.stop)

/-- The least span that holds both. -/
def cover (a b : Span) : Span where
  start := min a.start b.start
  stop := max a.stop b.stop
  start_le_stop := by
    have := a.start_le_stop
    omega

end Span

end CodeFolding
