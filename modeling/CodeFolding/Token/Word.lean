import CodeFolding.Token.Category

/-!
# Words

The keywords of the classified language, and the category of a word.
-/

namespace CodeFolding.Word

/-- Keywords of control flow. -/
def controlKeywords : List String :=
  ["if", "else", "switch", "case", "default", "while", "do", "for", "foreach", "in", "break",
    "continue", "return", "goto", "throw", "try", "catch", "finally", "yield", "await"]

/-- The other keywords. -/
def plainKeywords : List String :=
  ["abstract", "as", "async", "base", "bool", "byte", "char", "checked", "class", "const",
    "decimal", "delegate", "double", "enum", "event", "explicit", "extern", "false", "fixed",
    "float", "get", "init", "int", "interface", "internal", "is", "lock", "long", "namespace",
    "new", "null", "object", "operator", "out", "override", "params", "partial", "private",
    "protected", "public", "readonly", "record", "ref", "sbyte", "sealed", "set", "short",
    "sizeof", "stackalloc", "static", "string", "struct", "this", "true", "typeof", "uint",
    "ulong", "unchecked", "unsafe", "ushort", "using", "var", "virtual", "void", "volatile",
    "when", "where"]

/-- A character that may start a word. -/
def isHead (c : Char) : Bool := c.isAlpha || c == '_'

/-- A character that may stand in a word or a number after its start. -/
def isTail (c : Char) : Bool := c.isAlphanum || c == '_'

/-- The category of a word: one of the keyword categories, else an identifier. -/
def category (word : List Char) : Category :=
  if controlKeywords.any (·.toList == word) then .keywordControl
  else if plainKeywords.any (·.toList == word) then .keyword
  else .identifier

end CodeFolding.Word
