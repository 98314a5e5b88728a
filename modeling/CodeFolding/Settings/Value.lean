/-!
# Values

Settings are kept in files of nested values.  `Value.entries?` is how a group of settings is read:
by name, or as a list in the order of the names.
-/

namespace CodeFolding

/-- A value of a settings file. -/
inductive Value where
  | null
  | bool (b : Bool)
  | natural (n : Nat)
  /-- A number that is no natural number. -/
  | otherNumber
  | text (s : String)
  | list (items : List Value)
  | record (fields : List (String × Value))
  deriving Inhabited

namespace Value

/-- The boolean, if it is one. -/
def asBool? : Value → Option Bool
  | .bool b => some b
  | _ => none

/-- The natural number, if it is one below a limit. -/
def asNatural? (limit : Nat) : Value → Option Nat
  | .natural n => if n < limit then some n else none
  | _ => none

/-- The text, if it is one. -/
def asText? : Value → Option (List Char)
  | .text s => some s.toList
  | _ => none

/-- The entries of a group with the given names. A list gives its items to the names in order, and
may be shorter than they are, but not longer. -/
def entries? (names : List String) : Value → Option (List (String × Value))
  | .record fields => some fields
  | .list items => if items.length ≤ names.length then some (names.zip items) else none
  | _ => none

/-- Read an entry that may be missing. -/
def readOr (default : α) (read : Value → Option α) : Option Value → Option α
  | none => some default
  | some v => read v

end Value

end CodeFolding
