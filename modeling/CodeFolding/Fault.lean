/-!
# Faults

Offsets, line numbers and versions are 32-bit words, and line budgets are 64-bit words.  A `Fault`
is a broken contract of that arithmetic: no value can be returned, so every operation that can
break it answers in `Except Fault`.  What a caller may recover from is an
`AddressError` instead (`CodeFolding.Document`).

* `fit32`, `fit64`: a number that has to fit a word.
* `clampInto`: the nearest point of an interval, which has to be non-empty.
-/

namespace CodeFolding

/-- Why a computation has no result. -/
inductive Fault where
  /-- A sum or difference leaves the word it is kept in. -/
  | overflow
  /-- A span would end before it starts. -/
  | reversed
  /-- A point was to be moved into an empty interval. -/
  | emptyInterval
  /-- A region number that the tree does not hold. -/
  | noSuchRegion
  deriving DecidableEq, Repr

/-- Number of values of a 32-bit word. -/
def limit32 : Nat := 0x100000000

/-- Number of values of a 64-bit word. -/
def limit64 : Nat := 0x10000000000000000

/-- The number itself, if it fits 32 bits. -/
def fit32 (n : Nat) : Except Fault Nat :=
  if n < limit32 then .ok n else .error .overflow

/-- The number itself, if it fits 64 bits. -/
def fit64 (n : Nat) : Except Fault Nat :=
  if n < limit64 then .ok n else .error .overflow

/-- The point of the interval from `low` to `high` that is nearest to `n`. -/
def clampInto (low high n : Nat) : Except Fault Nat :=
  if low ≤ high then .ok (min (max n low) high) else .error .emptyInterval

theorem fit32_of_lt {n : Nat} (h : n < limit32) : fit32 n = .ok n :=
  if_pos h

theorem fit64_of_lt {n : Nat} (h : n < limit64) : fit64 n = .ok n :=
  if_pos h

end CodeFolding
