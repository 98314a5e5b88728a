import CodeFolding.Scan.State

/-!
# Runs of comments and of imports

A run is a region that holds no other.  It grows line by line and ends before the first token that
does not belong to it, which its parent then reads.

* A comment run takes the comments that follow each other, except that a comment behind code on
  its line starts none.
* An import run takes the lines that start with the import keyword.  A brace on such a line gives
  that line back.
-/

namespace CodeFolding

namespace Token

/-- A block comment without an end. -/
def isUnclosedComment (t : Token) : Bool :=
  ['/', '*'].isPrefixOf t.text && (Text.byteLength t.text < 4 || !(['*', '/'].isSuffixOf t.text))

end Token

namespace Cursor

/-- The keyword here is followed by a parenthesis, so it starts a statement and no import. -/
def beforeParenthesis (c : Cursor) : Bool :=
  match c.next? with
  | some next => next.isPunctuation '('
  | none => false

/-- The token here is the first of its line in the stream. -/
def leadsLine (c : Cursor) (token : Token) : Bool :=
  match c.previous? with
  | some previous => c.document.lineOf previous.stop < c.document.lineOf token.start
  | none => true

end Cursor

namespace Scan

/-! ## Comments -/

/-- The token before ends on the line of this one and is no comment. -/
def isTrailing (s : Scan) (token : Token) : Bool :=
  match s.cursor.previous? with
  | some previous =>
    !previous.category.isComment &&
      s.document.lineOf previous.stop == s.document.lineOf token.start
  | none => false

/-- Start a run with a comment, unless it is behind code. -/
def openComment? (s : Scan) (parent : Nat) (token : Token) : Option Scan :=
  if s.isTrailing token then none
  else
    let opening : Opening :=
      { kind := .comment, start := token.start, opener := token.text, stop := token.stop }
    some { s.enter parent opening with commentUnclosed := token.isUnclosedComment }.advance

/-- An identifier on the line where the run stops so far, with a comment after it. -/
def isBridge (s : Scan) (run : Nat) (token : Token) : Bool :=
  s.options.bridgeIdentifiers && token.category == .identifier &&
    s.document.lineOf token.start == s.document.lineOf (s.tree.node run).stop &&
    (match s.cursor.next? with
      | some next => next.category.isComment
      | none => false)

/-- Complete a run where it stops so far. -/
def closeRun (s : Scan) (run : Nat) : Scan := s.close run (s.tree.node run).stop

/-- Read a token inside a comment run. -/
def continueComment (s : Scan) (run : Nat) (token : Token) : Scan :=
  if token.category.isComment then
    { s with
      tree := s.tree.update run fun n => { n with stop := token.stop }
      commentUnclosed := token.isUnclosedComment }.advance
  else if s.isBridge run token then s.advance
  else (s.closeRun run).leave run

/-! ## Imports -/

/-- Start a run with an import, unless the keyword starts a statement. -/
def openImports? (s : Scan) (parent : Nat) (keyword : Token) : Option Scan :=
  if s.cursor.beforeParenthesis then none
  else
    let stop := (s.document.lineAt keyword.start).stop
    let opening : Opening :=
      { kind := .importRun, start := keyword.start, opener := keyword.text, stop }
    some { s.enter parent opening with importRollback := keyword.start }.advance

/-- Read a token inside an import run. -/
def continueImports (s : Scan) (run : Nat) (token : Token) : Scan :=
  if token.isPunctuation '\x7b' || token.isPunctuation '\x7d' then
    (s.close run s.importRollback).leave run
  else if !s.cursor.leadsLine token then s.advance
  else if token.isKeyword s.options.importKeyword && !s.cursor.beforeParenthesis then
    { s with
      tree := s.tree.update run fun n =>
        { n with stop := (s.document.lineAt token.start).stop }
      importRollback := (s.tree.node run).stop }.advance
  else (s.closeRun run).leave run

/-! ## End of the document -/

/-- A run ends with the document, unless it stops inside a block comment; any other region stays
open. -/
def finishRun (s : Scan) (id : Nat) : Scan :=
  let node := s.tree.node id
  let ends :=
    match node.kind with
    | some .comment => !s.commentUnclosed
    | some .importRun => true
    | _ => false
  if !node.complete && ends then s.closeRun id else s

end Scan

end CodeFolding
