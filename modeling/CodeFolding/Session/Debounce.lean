/-!
# Debouncing

A `Debouncer` turns a burst of triggers into one run after a quiet period.  It has no clock of its
own: times are handed in, in any unit that its quiet period has too.

Times have no bound here, so every trigger has a deadline.  This is an idealisation: on a clock of
finite range a quiet period can be so long that no deadline fits, and then `touch` would be a
fault, after its edit was recorded and with no trigger for it.
-/

namespace CodeFolding

/-- A trigger that waits for a quiet period to pass. -/
structure Debouncer where
  quiet : Nat
  /-- When the pending trigger is due; none if nothing is pending. -/
  deadline : Option Nat := none
  deriving DecidableEq, Repr

namespace Debouncer

/-- Trigger at a time. A trigger that is pending already starts over. The deadline is taken to fit
the clock. -/
def touch (b : Debouncer) (now : Nat) : Debouncer := { b with deadline := some (now + b.quiet) }

/-- A trigger is pending. -/
def isPending (b : Debouncer) : Bool := b.deadline.isSome

/-- A trigger is pending and its quiet period has passed. -/
def isDue (b : Debouncer) (now : Nat) : Bool := b.deadline.any (· ≤ now)

/-- Forget the pending trigger. -/
def cancel (b : Debouncer) : Debouncer := { b with deadline := none }

/-- Take the pending trigger if it is due, and say whether it was. -/
def fire (b : Debouncer) (now : Nat) : Bool × Debouncer :=
  if b.isDue now then (true, b.cancel) else (false, b)

end Debouncer

end CodeFolding
