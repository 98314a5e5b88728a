import CodeFolding.Token
import CodeFolding.Token.Lexeme

/-!
# Classification of a text

`classify` reads a text piece by piece and gives the tokens in order of position, with gaps
between them.  The rest of a directive's line is not read as code: up to a `//` it is one
argument, and from there on a comment.
-/

namespace CodeFolding

/-- Cut before the first `//`. -/
def cutAtComment : List Char → List Char × List Char
  | [] => ([], [])
  | '/' :: '/' :: cs => ([], '/' :: '/' :: cs)
  | c :: cs =>
    let (argument, comment) := cutAtComment cs
    (c :: argument, comment)

/-- The token of a text that starts at an offset. -/
def Token.at (offset : Nat) (category : Category) (text : List Char) : Token :=
  { span := .ofLength offset (Text.byteLength text), category, text }

/-- The tokens of a directive's line after the keyword: the trimmed argument if there is one, and
the comment without blanks at its end. -/
def directiveTokens (offset : Nat) (line : List Char) : List Token :=
  let (argument, comment) := cutAtComment line
  let lead := argument.takeWhile Text.isBlank
  let argumentToken :=
    match Text.trim argument with
    | [] => []
    | trimmed => [Token.at (offset + Text.byteLength lead) .preprocessorText trimmed]
  let commentToken :=
    match Text.trimEnd comment with
    | [] => []
    | trimmed => [Token.at (offset + Text.byteLength argument) .comment trimmed]
  argumentToken ++ commentToken

/-- The tokens of a text that starts at an offset. -/
def classifyFrom (offset : Nat) : List Char → List Token
  | [] => []
  | c :: cs =>
    let (shape, more) := lexeme c cs
    let text := c :: cs.take more
    let after := offset + Text.byteLength text
    match shape with
    | .gap => classifyFrom after (cs.drop more)
    | .token category => Token.at offset category text :: classifyFrom after (cs.drop more)
    | .directive =>
      let rest := cs.drop more
      let width := Lexeme.restOfLine rest
      let line := rest.take width
      Token.at offset .preprocessorKeyword text :: directiveTokens after line ++
        classifyFrom (after + Text.byteLength line) (rest.drop width)
termination_by cs => cs.length
decreasing_by all_goals simp +zetaDelta only [List.length_drop, List.length_cons]; omega

/-- The tokens of a text. -/
def classify (text : List Char) : List Token := classifyFrom 0 text

end CodeFolding
