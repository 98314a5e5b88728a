import CodeFolding.Fault
import CodeFolding.Settings.Value

/-!
# Durations

A `Duration` is a time span in whole seconds and nanoseconds below a second.
-/

namespace CodeFolding

/-- A time span. -/
structure Duration where
  seconds : Nat
  nanos : Nat
  deriving DecidableEq, Repr

namespace Duration

/-- Nanoseconds in a second. -/
def nanosPerSecond : Nat := 1000000000

/-- Nanoseconds in a millisecond. -/
def nanosPerMilli : Nat := 1000000

/-- A time span in milliseconds. -/
def ofMillis (millis : Nat) : Duration :=
  ⟨millis / 1000, millis % 1000 * nanosPerMilli⟩

/-- The time span in nanoseconds. -/
def toNanos (d : Duration) : Nat := d.seconds * nanosPerSecond + d.nanos

/-- The time span in whole milliseconds. -/
def toMillis (d : Duration) : Nat := d.toNanos / nanosPerMilli

/-- Seconds and any number of nanoseconds; what makes whole seconds is carried over, and the
seconds have to fit 64 bits. -/
def ofParts? (seconds nanos : Nat) : Option Duration :=
  let carried := seconds + nanos / nanosPerSecond
  if carried < limit64 then some ⟨carried, nanos % nanosPerSecond⟩ else none

/-- The names of the parts. -/
def partNames : List String := ["secs", "nanos"]

/-- Read a duration. Both parts are needed and nothing else may stand beside them. -/
def ofValue? (v : Value) : Option Duration := do
  let entries ← v.entries? partNames
  guard (entries.all fun e => partNames.contains e.1)
  let seconds ← (← entries.lookup "secs").asNatural? limit64
  let nanos ← (← entries.lookup "nanos").asNatural? limit32
  ofParts? seconds nanos

/-- Write a duration. -/
def toValue (d : Duration) : Value :=
  .record [("secs", .natural d.seconds), ("nanos", .natural d.nanos)]

end Duration

end CodeFolding
