import CodeFolding.Scan.State

/-!
# Directives

A conditional directive opens an arm, and the next arm or the end of the conditional closes it.
An arm may close while regions inside it are still being read; those stay open for good.

* `#if` and, if asked for, `#region` open an arm.
* `#else` and `#elif` close the nearest open arm of an `#if` or `#elif` and open one themselves.
  If the closed arm is the region being read, it is left first, and its parent opens the new arm.
* `#endif` closes the nearest open arm, `#endregion` the nearest open region directive.
-/

namespace CodeFolding

/-- The name of a directive: its keyword without number signs and blanks. -/
def directiveName (text : List Char) : List Char := Text.trim (text.dropWhile (· == '#'))

/-- The node is an arm that one of these directives opened. -/
def Node.isArmOf (names : List String) (n : Node) : Bool :=
  n.kind == some .conditional && names.any (·.toList == n.opener)

namespace Scan

/-- Open an arm at a directive and go on below its line. -/
def openArm (s : Scan) (parent : Nat) (token : Token) (name : List Char) : Scan :=
  (s.enter parent { kind := .conditional, start := token.start, opener := name }).nextLine

/-- Close the nearest open arm of these directives with the directive's line, if there is one, and
go on below that line. -/
def closeArm (s : Scan) (parent : Nat) (token : Token) (names : List String) : Scan :=
  match s.tree.nearestOpen? parent (·.isArmOf names) with
  | some arm => (s.close arm (s.document.lineAt token.start).stop).nextLine
  | none => s.nextLine

/-- Go from one arm of a conditional to the next. -/
def switchArm (s : Scan) (parent : Nat) (token : Token) (name : List Char) : Scan :=
  if s.pendingArm = some token.start then
    { s with pendingArm := none }.openArm parent token name
  else
    match s.tree.nearestOpen? parent (·.isArmOf ["if", "elif"]) with
    | none => s.openArm parent token name
    | some arm =>
      let closed := s.close arm (s.document.endBefore token.start)
      if arm = parent then { closed with pendingArm := some token.start }.leave parent
      else closed.openArm parent token name

/-- Read the keyword of a directive; none if it does not matter to folding. -/
def directive? (s : Scan) (parent : Nat) (token : Token) : Option Scan :=
  let name := directiveName token.text
  if name = "if".toList then some (s.openArm parent token name)
  else if name = "else".toList || name = "elif".toList then some (s.switchArm parent token name)
  else if name = "endif".toList then some (s.closeArm parent token ["if", "elif", "else"])
  else if s.options.foldRegionDirectives && name = "region".toList then
    some (s.openArm parent token name)
  else if s.options.foldRegionDirectives && name = "endregion".toList then
    some (s.closeArm parent token ["region"])
  else none

end Scan

end CodeFolding
