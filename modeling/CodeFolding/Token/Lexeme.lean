import CodeFolding.Token.Word

/-!
# Lexemes

A text is read as one piece after the other.  `lexeme c cs` says what the piece at the front of
`c :: cs` is and how many characters of `cs` belong to it, so that every piece has a character and
the rest is always shorter.

A piece is a token of some category, the keyword of a directive, or a gap: blanks, characters that
start nothing, literals that are never closed, and all literals that start with `$@"` or `@$"`.
Reading does not back up over a literal once it has started:

* a quoted literal breaks off before a line feed, before the end of the text, and before a
  backslash that has nothing on its line to escape; all before that place is a gap;
* a verbatim literal that is never closed takes the whole rest of the text as a gap;
* a literal that starts with `$@"` or `@$"` goes as far as a verbatim one and is a gap even if it
  is closed.  The lexical rules list it among the strings, but the automaton that carries them out
  never accepts it: at its closing quote reading goes on behind it without a token.
-/

namespace CodeFolding

/-- What a piece of text is. -/
inductive Lexeme where
  /-- No token. -/
  | gap
  /-- A token of a category. -/
  | token (category : Category)
  /-- The keyword of a directive, whose line is read as directive text. -/
  | directive
  deriving DecidableEq, Repr

namespace Lexeme

/-- A character that ends a line, alone or with another. -/
def isLineEnd (c : Char) : Bool := c == '\r' || c == '\n'

/-- Number of characters before the next line end. -/
def restOfLine (cs : List Char) : Nat := (cs.takeWhile (!isLineEnd ·)).length

/-- How far a literal goes after its opening quote, and whether it is closed there. -/
structure Literal where
  closed : Bool
  length : Nat
  deriving DecidableEq, Repr

/-- The literal with `n` more characters in front. -/
def Literal.after (n : Nat) (l : Literal) : Literal := { l with length := l.length + n }

/-- A closed literal is a string and any other a gap; either way it is consumed. -/
def Literal.lexeme (l : Literal) : Lexeme × Nat :=
  (if l.closed then .token .stringLiteral else .gap, l.length)

/-- Read a literal with escapes up to its closing quote. -/
def quoted (quote : Char) : List Char → Literal
  | [] => ⟨false, 0⟩
  | ['\\'] => ⟨false, 0⟩
  | '\\' :: c :: cs => if c = '\n' then ⟨false, 0⟩ else (quoted quote cs).after 2
  | c :: cs =>
    if c = quote then ⟨true, 1⟩
    else if c = '\n' then ⟨false, 0⟩
    else (quoted quote cs).after 1

/-- Read a literal in which a doubled quote stands for a quote. -/
def verbatim : List Char → Literal
  | [] => ⟨false, 0⟩
  | '"' :: '"' :: cs => (verbatim cs).after 2
  | '"' :: _ => ⟨true, 1⟩
  | _ :: cs => (verbatim cs).after 1

/-- Number of characters after `/*` up to and with the first `*/`, or all of them. -/
def blockRest : List Char → Nat
  | [] => 0
  | '*' :: '/' :: _ => 2
  | _ :: cs => blockRest cs + 1

/-- A block comment is documentation when it starts with `/**` and is not `/**/`. The argument is
the text after `/*`. -/
def blockCategory : List Char → Category
  | '*' :: '/' :: _ => .comment
  | '*' :: _ => .docComment
  | _ => .comment

/-- Number of characters of a number after its first digit; a fraction needs a digit. -/
def numberRest (cs : List Char) : Nat :=
  let whole := (cs.takeWhile Word.isTail).length
  match cs.drop whole with
  | '.' :: d :: ds =>
    if d.isDigit then whole + 2 + (ds.takeWhile Word.isTail).length else whole
  | _ => whole

/-- A piece that starts with a slash. -/
def slash : List Char → Lexeme × Nat
  | '/' :: '/' :: cs => (.token .docComment, 2 + restOfLine cs)
  | '/' :: cs => (.token .comment, 1 + restOfLine cs)
  | '*' :: cs => (.token (blockCategory cs), 1 + blockRest cs)
  | '=' :: _ => (.token .operator, 1)
  | _ => (.token .operator, 0)

/-- A piece that starts with a number sign: a directive needs a letter after optional blanks. -/
def numberSign (cs : List Char) : Lexeme × Nat :=
  let blanks := (cs.takeWhile fun c => c == ' ' || c == '\t').length
  let letters := ((cs.drop blanks).takeWhile Char.isAlpha).length
  (if letters = 0 then .gap else .directive, blanks + letters)

/-- A piece that starts with a dollar sign. A literal with `$@` is skipped, closed or not. -/
def dollar : List Char → Lexeme × Nat
  | '"' :: cs => ((quoted '"' cs).after 1).lexeme
  | '@' :: '"' :: cs => (.gap, 2 + (verbatim cs).length)
  | '@' :: _ => (.gap, 1)
  | _ => (.gap, 0)

/-- A piece that starts with an at sign. A literal with `@$` is skipped, closed or not. -/
def atSign : List Char → Lexeme × Nat
  | '"' :: cs => ((verbatim cs).after 1).lexeme
  | '$' :: '"' :: cs => (.gap, 2 + (verbatim cs).length)
  | '$' :: _ => (.gap, 1)
  | c :: cs =>
    if Word.isHead c then (.token .identifier, 1 + (cs.takeWhile Word.isTail).length)
    else (.gap, 0)
  | [] => (.gap, 0)

/-- A character that is a token of punctuation by itself. -/
def isPunctuation (c : Char) : Bool := "\x7b\x7d()[];,.:".toList.contains c

/-- A character of an operator. -/
def isOperator (c : Char) : Bool := "+-*%=<>!&|^~?".toList.contains c

end Lexeme

/-- The first piece of `c :: cs`: what it is, and how many characters of `cs` belong to it. -/
def lexeme (c : Char) (cs : List Char) : Lexeme × Nat :=
  match c with
  | '/' => Lexeme.slash cs
  | '#' => Lexeme.numberSign cs
  | '"' => (Lexeme.quoted '"' cs).lexeme
  | '\'' => (Lexeme.quoted '\'' cs).lexeme
  | '$' => Lexeme.dollar cs
  | '@' => Lexeme.atSign cs
  | _ =>
    if c.isDigit then (.token .numberLiteral, Lexeme.numberRest cs)
    else if Word.isHead c then
      let tail := cs.takeWhile Word.isTail
      (.token (Word.category (c :: tail)), tail.length)
    else if Lexeme.isPunctuation c then (.token .punctuation, 0)
    else if Lexeme.isOperator c then
      (.token .operator, (cs.takeWhile Lexeme.isOperator).length)
    else (.gap, 0)

end CodeFolding
