import CodeFolding.Document
import CodeFolding.Token.Category

/-!
# Tokens

A `Token` is a classified span of a document with its text.  `Token.ofSpans` makes a stream out of
spans that a host has classified: in order of position, each kept unless it is empty, reaches back
into the token kept before it, or is no slice of the document.
-/

namespace CodeFolding

/-- A classified piece of a document. -/
structure Token where
  span : Span
  category : Category
  text : List Char
  deriving DecidableEq, Repr

namespace Token

/-- Offset of the first byte. -/
def start (t : Token) : Nat := t.span.start

/-- Offset just past the last byte. -/
def stop (t : Token) : Nat := t.span.stop

/-- Punctuation whose text starts with a character. -/
def isPunctuation (t : Token) (c : Char) : Bool :=
  t.category == .punctuation && t.text.head? == some c

/-- A keyword with exactly this text. -/
def isKeyword (t : Token) (text : List Char) : Bool :=
  t.category.isKeyword && t.text == text

/-- A classified span without its text. -/
abbrev Classified := Span × Category

/-- Keep the spans that neither overlap what is kept nor miss the document. `reach` is the offset
up to which tokens are kept already. -/
def keepDisjoint (d : Document) (reach : Nat) : List Classified → List Token
  | [] => []
  | (span, category) :: rest =>
    if span.start = span.stop || span.start < reach then keepDisjoint d reach rest
    else
      match d.slice span with
      | .ok text => { span, category, text } :: keepDisjoint d span.stop rest
      | .error _ => keepDisjoint d reach rest

/-- The token stream of classified spans in any order. -/
def ofSpans (d : Document) (spans : List Classified) : List Token :=
  keepDisjoint d 0 (spans.mergeSort fun a b => a.1.le b.1)

end Token

end CodeFolding
