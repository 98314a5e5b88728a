import CodeFolding.Token

/-!
# Cursors

A `Cursor` is a place in a document with the token stream beside it.  On the first byte of a token
it reads that token, and anywhere else a raw character.  It only moves forward: past the token it
reads, past one character, or to the next line.  If several tokens start at one place, the first
of the stream counts.
-/

namespace CodeFolding

/-- A place in a document and its tokens. -/
structure Cursor where
  document : Document
  tokens : List Token
  position : Nat

namespace Cursor

/-- The cursor at the start of a document. -/
def start (document : Document) (tokens : List Token) : Cursor :=
  { document, tokens, position := 0 }

/-- Nothing is left to read. -/
def atEnd (c : Cursor) : Bool := c.document.length ≤ c.position

/-- Stream index of the token that starts here. -/
def index? (c : Cursor) : Option Nat := c.tokens.findIdx? (·.start == c.position)

/-- The token that starts here. -/
def token? (c : Cursor) : Option Token := c.index?.bind (c.tokens[·]?)

/-- The token after the one that starts here, in the order of the stream. -/
def next? (c : Cursor) : Option Token := c.index?.bind fun i => c.tokens[i + 1]?

/-- The token before the one that starts here, in the order of the stream. -/
def previous? (c : Cursor) : Option Token :=
  match c.index? with
  | some (i + 1) => c.tokens[i]?
  | _ => none

/-- Move to an offset, or to the end of the document if that is nearer. -/
def seek (c : Cursor) (offset : Nat) : Cursor :=
  { c with position := min offset c.document.length }

/-- Bytes of the character that starts here; one inside a character. -/
def width (c : Cursor) : Nat := ((c.document.charAt? c.position).map Char.utf8Size).getD 1

/-- Where the token or character here stops: past the token if it has bytes, else past the
character. -/
def itemStop (c : Cursor) : Nat :=
  match c.token? with
  | some t => if c.position < t.stop then t.stop else c.position + c.width
  | none => c.position + c.width

/-- Where the next line starts, or where the document ends if this is the last line. -/
def nextLineStart (c : Cursor) : Nat :=
  match c.document.line (c.document.lineOf c.position + 1) with
  | .ok line => line.start
  | .error _ => c.document.length

/-- Move past the token that starts here, or past one character; none at the end. -/
def advance? (c : Cursor) : Option Cursor := if c.atEnd then none else some (c.seek c.itemStop)

/-- Move to the start of the next line, or to the end of the document; none at the end. -/
def nextLine? (c : Cursor) : Option Cursor :=
  if c.atEnd then none else some (c.seek c.nextLineStart)

/-- Move past the token that starts here, or past one character, if not at the end. -/
def advance (c : Cursor) : Cursor := c.advance?.getD c

/-- Move to the next line, if not at the end. -/
def nextLine (c : Cursor) : Cursor := c.nextLine?.getD c

theorem width_pos (c : Cursor) : 0 < c.width := by
  unfold width
  cases c.document.charAt? c.position with
  | none => exact Nat.zero_lt_one
  | some ch => exact ch.utf8Size_pos

theorem position_lt_itemStop (c : Cursor) : c.position < c.itemStop := by
  have := c.width_pos
  unfold itemStop
  repeat' split
  all_goals omega

/-- A move goes one byte forward at least. -/
theorem position_lt_of_advance? {c next : Cursor} (moved : c.advance? = some next) :
    c.position < next.position := by
  have := c.position_lt_itemStop
  unfold advance? atEnd seek at moved
  split at moved
  · simp at moved
  · simp only [Option.some.injEq] at moved
    subst moved
    simp_all only [decide_eq_true_eq, Nat.not_le]
    omega

/-- Advance until the target is reached, `fuel` times at most. -/
def advanceTo (target : Nat) : Nat → Cursor → Cursor
  | 0, c => c
  | fuel + 1, c =>
    if c.position < target then
      match c.advance? with
      | some next => advanceTo target fuel next
      | none => c
    else c

/-- Advance until the target is reached. Each move is one byte at least, so that many suffice. -/
def skipTo (c : Cursor) (target : Nat) : Cursor := advanceTo target (target - c.position) c

end Cursor

end CodeFolding
