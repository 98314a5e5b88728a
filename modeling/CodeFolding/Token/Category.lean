import CodeFolding.Text.Blank

/-!
# Categories of tokens

What a token is, as far as folding cares: punctuation, comments, keywords, directives and
identifiers matter; the other categories keep a host's classification without loss.
-/

namespace CodeFolding

/-- What a token is. -/
inductive Category where
  | punctuation
  | operator
  | comment
  /-- A documentation comment. -/
  | docComment
  | keyword
  /-- A keyword of control flow. -/
  | keywordControl
  /-- The keyword of a directive, such as `#if`. -/
  | preprocessorKeyword
  /-- The text after the keyword of a directive. -/
  | preprocessorText
  | identifier
  | stringLiteral
  | numberLiteral
  | other
  deriving DecidableEq, Repr

namespace Category

/-- A comment of either sort. -/
def isComment (c : Category) : Bool := c matches .comment | .docComment

/-- A keyword of either sort. -/
def isKeyword (c : Category) : Bool := c matches .keyword | .keywordControl

/-- The keyword of a directive; the text after it does not count. -/
def isPreprocessor (c : Category) : Bool := c matches .preprocessorKeyword

/-- Names that stand for one category each. -/
def exactNames : List (String × Category) :=
  [("punctuation", .punctuation), ("operator", .operator), ("comment", .comment),
    ("keyword - control", .keywordControl), ("preprocessor keyword", .preprocessorKeyword),
    ("preprocessor text", .preprocessorText), ("identifier", .identifier),
    ("number", .numberLiteral)]

/-- Beginnings of names that stand for a category each, asked after the exact names. -/
def familyNames : List (String × Category) :=
  [("xml doc comment", .docComment), ("keyword", .keyword), ("string", .stringLiteral)]

/-- The category that a host's classification name stands for. -/
def ofName (name : List Char) : Category :=
  let name := Text.trim name
  match exactNames.find? (·.1.toList == name) with
  | some (_, category) => category
  | none =>
    match familyNames.find? (·.1.toList.isPrefixOf name) with
    | some (_, category) => category
    | none => .other

end Category

end CodeFolding
