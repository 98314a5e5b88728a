import CodeFolding.Scan.CaseLabel
import CodeFolding.Scan.Directive
import CodeFolding.Scan.Run

/-!
# Steps of a scan

`Scan.step` reads one token or character, or leaves one region.  Blocks take their closing brace;
runs and case groups end before the token that ends them, and their parent reads it again.
Nothing fails: a region that is never closed stays incomplete, and a closing token without a
region is skipped.

With tokens in order, each step moves the cursor forward or leaves a region, and a region is only
entered with a move.  So `2 * n + 1` steps read a document of `n` bytes (`Tree.ofTokens`).
-/

namespace CodeFolding

namespace Scan

/-- Open a block at its brace. -/
def openBlock (s : Scan) (parent : Nat) (brace : Token) : Scan :=
  let fromPriorLine :=
    match s.cursor.previous? with
    | some previous =>
      s.document.lineOf previous.stop + 1 == s.document.lineOf brace.start
    | none => false
  let opening : Opening :=
    { kind := .block, start := brace.start, opener := brace.text, fromPriorLine }
  (s.enter parent opening).advance

/-- Open a region at a token; none if the token opens nothing here. -/
def open? (s : Scan) (parent : Nat) (token : Token) : Option Scan :=
  if token.isPunctuation '\x7b' then some (s.openBlock parent token)
  else if token.category.isComment then s.openComment? parent token
  else if token.category.isPreprocessor then s.directive? parent token
  else if token.isKeyword s.options.importKeyword then s.openImports? parent token
  else if s.options.groupCases &&
      (token.isKeyword "case".toList || token.isKeyword "default".toList) then
    s.caseLabel? parent token
  else none

/-- Read a token that opens nothing: a closing brace ends a block with itself and a case group
before itself. -/
def endOrPass (s : Scan) (parent : Nat) (token : Token) : Scan :=
  if token.category = .punctuation && token.text.contains '\x7d' then
    match (s.tree.node parent).kind with
    | some .block =>
      let before := Text.byteLength (token.text.takeWhile (· != '\x7d'))
      (s.close parent (token.start + before + 1)).advance.leave parent
    | some .caseGroup =>
      (s.close parent (s.document.endBefore token.start)).leave parent
    | _ => s.advance
  else s.advance

/-- Read the token at the cursor inside a region. -/
def read (s : Scan) (parent : Nat) (token : Token) : Scan :=
  match (s.tree.node parent).kind with
  | some .comment => s.continueComment parent token
  | some .importRun => s.continueImports parent token
  | _ => (s.open? parent token).getD (s.endOrPass parent token)

/-- One step. At the end of the document, and when a directive has completed the region being
read, that region is left. -/
def step (s : Scan) : Scan :=
  match s.within with
  | none => s
  | some parent =>
    if s.cursor.atEnd then (s.finishRun parent).leave parent
    else if (s.tree.node parent).complete then s.leave parent
    else
      match s.cursor.token? with
      | none => s.advance
      | some token => s.read parent token

/-- A number of steps. -/
def steps : Nat → Scan → Scan
  | 0, s => s
  | n + 1, s => steps n s.step

/-- The scan after it has read the whole document. -/
def finish (s : Scan) : Scan := steps (2 * s.document.length + 1) s

end Scan

/-- The regions of a document, found with the help of its tokens. -/
def Tree.ofTokens (options : ScanOptions) (d : Document) (tokens : List Token) : Tree :=
  (Scan.start options d tokens).finish.tree

end CodeFolding
