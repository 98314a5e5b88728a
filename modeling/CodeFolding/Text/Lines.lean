/-!
# Cutting a text into lines

A line feed ends a line, and a carriage return right before it belongs to the line break.  The
text after the last break is a line of its own, which may be empty.

* `cutLines`: the lines as pairs of content and break.
* `join_cutLines`: put together again they are the text.
* `contentLines`: contents only, without an empty line at the very end.
-/

namespace CodeFolding.Text

/-- The lines of a text, each with the break that ends it; only the last has none. -/
def cutLines : List Char → List (List Char × List Char)
  | [] => [([], [])]
  | '\n' :: cs => ([], ['\n']) :: cutLines cs
  | '\r' :: '\n' :: cs => ([], ['\r', '\n']) :: cutLines cs
  | c :: cs =>
    match cutLines cs with
    | [] => [([c], [])]
    | (content, ending) :: rest => (c :: content, ending) :: rest

/-- The contents of the lines, where an empty last line does not count. -/
def contentLines (cs : List Char) : List (List Char) :=
  let contents := (cutLines cs).map Prod.fst
  if contents.getLast? = some [] then contents.dropLast else contents

/-- Lines put together give the text back. -/
theorem join_cutLines (cs : List Char) :
    (cutLines cs).flatMap (fun l => l.1 ++ l.2) = cs := by
  fun_induction cutLines cs <;> simp_all

theorem cutLines_ne_nil (cs : List Char) : cutLines cs ≠ [] := by
  fun_induction cutLines cs <;> simp_all

end CodeFolding.Text
