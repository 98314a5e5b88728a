import Mathlib
import CodeFolding.Proofs.Classification
import CodeFolding.Proofs.RunLives

/-!
# Block comments

A block comment goes up to the first `*/` behind its `/*`, or takes the rest of the text.
Classification searches for that end; the scan has the token only, and asks how it begins and
ends.  Whether the last comment of a run is closed says whether the run is complete.

* `Token.ClosedBlock`, `Token.OpenBlock`: the two sorts of block comments in a text.
* `isUnclosedComment_iff`: the scan tells them apart.
* `lastComment`: the last comment of the run that a comment starts.
* `unclosed_comments_agree`: a run is incomplete exactly if its last comment has no end.
* `directive_argument_begins_like_comment`: what stands behind a directive is no comment, whatever
  it begins with.
-/

namespace CodeFolding

/-! ## The two sorts of block comments -/

namespace Token

/-- The token goes from a `/*` of the text to just past the first `*/` behind it. -/
def ClosedBlock (text : List Char) (t : Token) : Prop :=
  ∃ front inner after, text = front ++ '/' :: '*' :: (inner ++ '*' :: '/' :: after) ∧
    ¬ ['*', '/'] <:+: inner ++ ['*'] ∧ t.start = Text.byteLength front ∧
    t.text = '/' :: '*' :: (inner ++ ['*', '/']) ∧ t.stop = t.start + Text.byteLength t.text

/-- The token goes from a `/*` of the text to the end of the text, and no `*/` stands behind
it. -/
def OpenBlock (text : List Char) (t : Token) : Prop :=
  ∃ front inner, text = front ++ '/' :: '*' :: inner ∧ ¬ ['*', '/'] <:+: inner ∧
    t.start = Text.byteLength front ∧ t.text = '/' :: '*' :: inner ∧
    t.stop = Text.byteLength text

variable {text : List Char} {t : Token}

theorem ClosedBlock.not_unclosed (closed : t.ClosedBlock text) : t.isUnclosedComment = false := by
  obtain ⟨-, inner, -, -, -, -, own, -⟩ := closed
  have long : ¬ Text.byteLength t.text < 4 := by
    rw [own, Text.byteLength_cons, Text.byteLength_cons, Text.byteLength_append]
    have slash : '/'.utf8Size = 1 := rfl
    have star : '*'.utf8Size = 1 := rfl
    have ends : Text.byteLength ['*', '/'] = 2 := rfl
    omega
  have ends : ['*', '/'].isSuffixOf t.text = true := by
    rw [List.isSuffixOf_iff_suffix, own]
    exact List.suffix_append ('/' :: '*' :: inner) ['*', '/']
  unfold isUnclosedComment
  rw [decide_eq_false long, ends]
  exact Bool.and_false _

/-- A comment without an end does not look closed: in `/*/` the `*` is not there twice. -/
theorem OpenBlock.unclosed (block : t.OpenBlock text) : t.isUnclosedComment = true := by
  obtain ⟨-, inner, -, none, -, own, -⟩ := block
  unfold isUnclosedComment
  rw [Bool.and_eq_true, List.isPrefixOf_iff_prefix, Bool.or_eq_true, decide_eq_true_eq,
    Bool.not_eq_true', ← Bool.not_eq_true, List.isSuffixOf_iff_suffix, own]
  refine ⟨List.prefix_append ['/', '*'] inner, ?_⟩
  by_cases ends : ['*', '/'] <:+ '/' :: '*' :: inner
  · left
    rcases List.suffix_cons_iff.1 ends with same | ends
    · cases same
    rcases List.suffix_cons_iff.1 ends with same | ends
    · cases same
      decide
    · exact absurd ends.isInfix none
  · exact Or.inr ends

end Token

/-! ## Block comments in the stream -/

/-- A piece that begins with `/*` is a comment with its end or with all of the rest. -/
theorem lexeme_of_block {c : Char} {cs : List Char} {category : Category} {more : Nat}
    (found : lexeme c cs = (.token category, more)) (begins : ['/', '*'] <+: c :: cs.take more) :
    ∃ rest, c :: cs = '/' :: '*' :: rest ∧ category.isComment = true ∧
      c :: cs.take more = '/' :: '*' :: rest.take (Lexeme.blockRest rest) := by
  obtain ⟨tail, front⟩ := begins
  cases cs with
  | nil =>
    rw [List.take_nil] at front
    cases front
  | cons x rest =>
    cases more with
    | zero => cases front
    | succ more =>
      rw [List.take_succ_cons] at front
      cases front
      have block : lexeme '/' ('*' :: rest) =
          (.token (Lexeme.blockCategory rest), 1 + Lexeme.blockRest rest) := rfl
      rw [block, Nat.add_comm] at found
      cases found
      exact ⟨rest, rfl, Lexeme.isComment_blockCategory rest, rfl⟩

/-- The text from an offset on has a `/*` at the token, and the token goes from there to the end
that the search finds. -/
def BlockAt (t : Token) (offset : Nat) (cs : List Char) : Prop :=
  ∃ front rest, cs = front ++ '/' :: '*' :: rest ∧ offset + Text.byteLength front = t.start ∧
    t.text = '/' :: '*' :: rest.take (Lexeme.blockRest rest)

/-- What begins with `/*` is the argument of a directive, in one line, or a block comment. -/
theorem exists_block {t : Token} {offset : Nat} {cs : List Char}
    (member : t ∈ classifyFrom offset cs) (begins : ['/', '*'] <+: t.text) :
    t.category = .preprocessorText ∧ (∀ x ∈ t.text, x ≠ '\n' ∧ x ≠ '\r') ∨
      t.category.isComment = true ∧ BlockAt t offset cs := by
  cases from_of_mem member with
  | piece cut found same =>
    subst same
    obtain ⟨rest, here, comment, own⟩ := lexeme_of_block found begins
    exact Or.inr ⟨comment, _, rest, by rw [cut, here], rfl, own⟩
  | keyword cut found same =>
    subst same
    obtain ⟨tail, front⟩ := begins
    have sign := eq_numberSign_of_directive found
    rw [← (List.cons.inj front).1] at sign
    cases sign
  | line inLine =>
    rename_i place behind
    have clean := Lexeme.restOfLine_clean behind
    obtain ⟨before, after, around, -⟩ := around_of_mem_directiveTokens clean inLine
    obtain ⟨argument, comment, parts, arguments, comments, -⟩ := directiveTokens_parts place
      (behind.take (Lexeme.restOfLine behind))
    rw [parts, List.mem_append, Option.mem_toList, Option.mem_toList] at inLine
    rcases inLine with argued | commented
    · refine Or.inl ⟨arguments t argued, fun x inside => clean x ?_⟩
      rw [around]
      exact List.mem_append_left _ (List.mem_append_right _ inside)
    · -- the comment of a directive begins with two slashes
      obtain ⟨tail, front⟩ := begins
      obtain ⟨tail', front'⟩ := (comments t commented).2
      rw [← front] at front'
      cases front'

section Stream

variable {d : Document} {t : Token}

/-- A token that begins with `/*` is the argument of a directive, in one line, or a comment of one
of the two sorts. -/
theorem classify_block (member : t ∈ classify d.text) (begins : ['/', '*'] <+: t.text) :
    t.category = .preprocessorText ∧ (∀ x ∈ t.text, x ≠ '\n' ∧ x ≠ '\r') ∨
      t.category.isComment = true ∧ (t.ClosedBlock d.text ∨ t.OpenBlock d.text) := by
  refine (exists_block member begins).imp_right (And.imp_right ?_)
  rintro ⟨front, rest, cut, starts, own⟩
  obtain ⟨front', -, -, starts', stops, -⟩ := classify_around member
  rw [Nat.zero_add] at starts
  rw [Text.byteLength_append, starts'] at stops
  rcases Lexeme.blockRest_cases rest with ⟨inner, after, parts, first, taken⟩ | ⟨none, all⟩
  · rw [taken] at own
    rw [parts] at cut
    exact Or.inl ⟨front, inner, after, cut, first, starts.symm, own, stops.symm⟩
  · rw [all, List.take_length] at own
    refine Or.inr ⟨front, rest, cut, none, starts.symm, own, ?_⟩
    rw [cut, Text.byteLength_append, starts, ← own, stops]

/-- The scan tells from a comment's first and last characters whether it has an end. -/
theorem isUnclosedComment_iff (member : t ∈ classify d.text)
    (comment : t.category.isComment = true) :
    t.isUnclosedComment = true ↔ t.OpenBlock d.text := by
  refine ⟨?_, Token.OpenBlock.unclosed⟩
  intro unclosed
  have begins : ['/', '*'] <+: t.text := by
    unfold Token.isUnclosedComment at unclosed
    rw [Bool.and_eq_true, List.isPrefixOf_iff_prefix] at unclosed
    exact unclosed.1
  rcases classify_block member begins with ⟨argument, -⟩ | ⟨-, closed | block⟩
  · rw [argument] at comment
    cases comment
  · rw [closed.not_unclosed] at unclosed
    cases unclosed
  · exact block

/-- Nothing stands behind a comment without an end. -/
theorem not_unclosed_of_lt (member : t ∈ classify d.text)
    (comment : t.category.isComment = true) (more : t.stop < d.length) :
    t.isUnclosedComment = false := by
  rw [← Bool.not_eq_true, isUnclosedComment_iff member comment]
  rintro ⟨-, -, -, -, -, -, stops⟩
  rw [stops, ← d.length_eq] at more
  exact Nat.lt_irrefl _ more

end Stream

/-! ## Runs of comments -/

/-- An identifier on the line where a comment stops, with a comment behind it. -/
def Token.bridges (options : ScanOptions) (d : Document) (last t : Token) (later : List Token) :
    Bool :=
  options.bridgeIdentifiers && t.category == .identifier &&
    d.lineOf t.start == d.lineOf last.stop && later.head?.any (·.category.isComment)

/-- The last comment of a run, from one of its comments and the tokens behind that one: the run
takes the comments that follow and the identifiers between comments. -/
def lastComment (options : ScanOptions) (d : Document) : Token → List Token → Token
  | last, [] => last
  | last, t :: later =>
    if t.category.isComment then lastComment options d t later
    else if Token.bridges options d last t later then lastComment options d last later
    else last

namespace Scan

/-- The scan reads the run that the first comment starts, and has come to the last one. -/
structure Commenting (options : ScanOptions) (d : Document) (s : Scan) (p : Nat)
    (front : List Token) (first : Token) (later done : List Token) (last : Token)
    (rest : List Token) : Prop where
  cut : classify d.text = front ++ first :: later
  opens : first.category.isComment = true
  split : s.cursor.Split done rest
  member : last ∈ done
  comment : last.category.isComment = true
  run : lastComment options d first later = lastComment options d last rest
  live : (s.tree.node p).complete = false
  start : (s.tree.node p).start = first.start
  stop : (s.tree.node p).stop = last.stop
  unclosed : s.commentUnclosed = last.isUnclosedComment
  behind : first.start ≤ last.stop

/-- The comments of a run, where it stops, and whether it is complete. -/
structure Commented (options : ScanOptions) (d : Document) (n : Node) (front : List Token)
    (first : Token) (later : List Token) (last : Token) : Prop where
  cut : classify d.text = front ++ first :: later
  opens : first.category.isComment = true
  run : lastComment options d first later = last
  member : last ∈ classify d.text
  comment : last.category.isComment = true
  start : n.start = first.start
  stop : n.stop = last.stop
  complete : n.complete = !last.isUnclosedComment

section Comments

variable {options : ScanOptions} {d : Document} {s : Scan} {p : Nat} {t first last : Token}
  {front later done rest : List Token}

/-- A comment that has opened a run. -/
theorem commenting_opened (steady : Steady options d (classify d.text) s) (hosts : s.Hosts p t)
    (comment : t.category.isComment = true) :
    ∃ front later, Commenting options d (s.openedComment p t) s.tree.nodes.size front t later
      (front ++ [t]) t later := by
  have formed := steady.formed (classify_wellFormed d)
  obtain ⟨done, rest, split⟩ := steady.split
  obtain ⟨later, rfl, -, -⟩ := split.of_token? formed hosts.token
  have node : (s.openedComment p t).tree.node s.tree.nodes.size = _ :=
    Tree.node_add_new (steady.known p hosts.within)
  have width := formed.nonempty t (Cursor.mem_of_token? hosts.token)
  refine ⟨done, later, steady.tokens.symm.trans split.tokens, comment,
    split.advance_token formed hosts.token, List.mem_append_right _ (List.mem_singleton_self t),
    comment, rfl, ?_, ?_, ?_, rfl, Nat.le_of_lt width⟩
  · rw [node]
    rfl
  · rw [node]
    rfl
  · rw [node]
    rfl

theorem Commenting.listed (steady : Steady options d (classify d.text) s)
    (reading : Commenting options d s p front first later done last rest) :
    last ∈ classify d.text := by
  rw [← steady.tokens, reading.split.tokens]
  exact List.mem_append_left _ reading.member

/-- What a token does to the run that the scan reads. -/
theorem Commenting.step_eq (steady : Steady options d (classify d.text) s)
    (reading : Commenting options d s p front first later done last (t :: rest))
    (reads : s.Reads p t) (kind : (s.tree.node p).kind = some .comment)
    (index : s.cursor.index? = some done.length) :
    s.step =
      if t.category.isComment then
        { s with
          tree := s.tree.update p fun n => { n with stop := t.stop }
          commentUnclosed := t.isUnclosedComment }.advance
      else if Token.bridges options d last t rest then s.advance
      else (s.close p (s.tree.node p).stop).leave p := by
  have bridge : s.isBridge p t = Token.bridges options d last t rest := by
    have document : s.document = d := steady.document
    unfold isBridge Token.bridges
    rw [reading.split.next?_eq index, steady.options, reading.stop, document]
    cases rest.head? with
    | none => rfl
    | some next => rfl
  rw [reads.step_eq]
  unfold read
  rw [kind]
  dsimp only
  unfold continueComment
  rw [bridge]
  rfl

/-- A run that is completed before the rest of the stream. -/
theorem Commenting.left (steady : Steady options d (classify d.text) s)
    (reading : Commenting options d s p front first later done last rest)
    (kind : (s.tree.node p).kind = some .comment)
    (ends : lastComment options d last rest = last) (closed : last.isUnclosedComment = false) :
    ((s.close p (s.tree.node p).stop).leave p).within = (s.tree.node p).parent ∧
      Commented options d (((s.close p (s.tree.node p).stop).leave p).tree.node p) front first
        later last := by
  obtain ⟨node, outside⟩ :=
    close_leave_of_isRun (isRun_of_kind (Or.inl rfl) kind) (s.tree.node p).stop
  have same : max (s.tree.node p).stop (s.tree.node p).start = last.stop := by
    rw [reading.start, reading.stop]
    exact Nat.max_eq_left reading.behind
  rw [node, same]
  exact ⟨outside, reading.cut, reading.opens, reading.run.trans ends, reading.listed steady,
    reading.comment, reading.start, rfl, by rw [closed]; rfl⟩

/-- At the end of the document a run is completed, unless its last comment has no end. -/
theorem Commenting.finish (steady : Steady options d (classify d.text) s)
    (reading : Commenting options d s p front first later done last [])
    (kind : (s.tree.node p).kind = some .comment) :
    ((s.finishRun p).leave p).within = (s.tree.node p).parent ∧
      Commented options d (((s.finishRun p).leave p).tree.node p) front first later last := by
  have finish : s.finishRun p =
      if last.isUnclosedComment then s else s.close p (s.tree.node p).stop := by
    unfold finishRun
    dsimp only
    rw [kind, reading.live, reading.unclosed]
    cases last.isUnclosedComment <;> rfl
  rw [finish]
  cases unclosed : last.isUnclosedComment with
  | false => exact reading.left steady kind rfl unclosed
  | true =>
    have same : (s.leave p).tree = s.tree := extendStart_of_kind (by rw [kind]; simp)
    rw [if_pos rfl, same]
    exact ⟨rfl, reading.cut, reading.opens, reading.run, reading.listed steady, reading.comment,
      reading.start, reading.stop, by rw [reading.live, unclosed]; rfl⟩

/-- One more comment of the run is its last one so far. -/
theorem Commenting.grow (steady : Steady options d (classify d.text) s)
    (reading : Commenting options d s p front first later done last (t :: rest))
    (reads : s.Reads p t) (kind : (s.tree.node p).kind = some .comment)
    (index : s.cursor.index? = some done.length) (comment : t.category.isComment = true) :
    s.step.within = some p ∧
      Commenting options d s.step p front first later (done ++ [t]) t rest := by
  have formed := steady.formed (classify_wellFormed d)
  have step := reading.step_eq steady reads kind index
  have run := reading.run
  rw [if_pos comment] at step
  rw [lastComment, if_pos comment] at run
  have node : s.step.tree.node p = { s.tree.node p with stop := t.stop } := by
    rw [step]
    exact Tree.node_update_self (steady.known p reads.within)
  have order := reading.split.stop_le_start formed reading.member List.mem_cons_self
  have width := formed.nonempty t (Cursor.mem_of_token? reads.token)
  have behind := reading.behind
  refine ⟨by rw [step]; exact reads.within, reading.cut, reading.opens, ?_,
    List.mem_append_right _ (List.mem_singleton_self t), comment, run, ?_, ?_, ?_, ?_, by omega⟩
  · rw [step]
    exact reading.split.advance_token formed reads.token
  · rw [node]
    exact reading.live
  · rw [node]
    exact reading.start
  · rw [node]
  · rw [step]
    rfl

/-- A step inside a run of comments goes on reading it, or leaves it. -/
theorem Commenting.step (steady : Steady options d (classify d.text) s)
    (reading : Commenting options d s p front first later done last rest)
    (within : s.within = some p) (kind : (s.tree.node p).kind = some .comment) :
    (s.step.within = some p ∧ ∃ done last rest,
        Commenting options d s.step p front first later done last rest) ∨
      s.step.within = (s.tree.node p).parent ∧
        Commented options d (s.step.tree.node p) front first later last := by
  have formed := steady.formed (classify_wellFormed d)
  cases ended : s.cursor.atEnd with
  | true =>
    obtain rfl := reading.split.rest_eq_nil formed.ordered ended
    rw [step_of_atEnd within ended]
    exact Or.inr (reading.finish steady kind)
  | false =>
    cases found : s.cursor.token? with
    | none =>
      rw [step_of_gap within ended reading.live found]
      exact Or.inl ⟨within, done, last, rest,
        { reading with split := reading.split.advance_gap formed found ended }⟩
    | some t =>
      have reads : s.Reads p t := ⟨within, ended, reading.live, found⟩
      obtain ⟨after, rfl, -, index⟩ := reading.split.of_token? formed found
      by_cases comment : t.category.isComment = true
      · obtain ⟨inside, onward⟩ := reading.grow steady reads kind index comment
        exact Or.inl ⟨inside, _, _, _, onward⟩
      have step := reading.step_eq steady reads kind index
      have run := reading.run
      rw [if_neg comment] at step
      rw [lastComment, if_neg comment] at run
      by_cases bridge : Token.bridges options d last t after = true
      · rw [if_pos bridge] at step run
        rw [step]
        exact Or.inl ⟨within, done ++ [t], last, after,
          { reading with
            split := reading.split.advance_token formed found
            member := List.mem_append_left _ reading.member
            run }⟩
      · rw [if_neg bridge] at step
        rw [step]
        refine Or.inr (reading.left steady kind ?_ ?_)
        · rw [lastComment, if_neg comment, if_neg bridge]
        · -- a token stands behind the last comment
          have order := reading.split.stop_le_start formed reading.member List.mem_cons_self
          have inside := formed.start_lt_length (Cursor.mem_of_token? found)
          rw [steady.document] at inside
          exact not_unclosed_of_lt (reading.listed steady) reading.comment (by omega)

end Comments

/-- Every run of comments takes the comments of a run and is complete if the last one has an
end. -/
theorem commented_of_kind {options : ScanOptions} {d : Document} :
    ∀ i, ((Tree.ofTokens options d (classify d.text)).node i).kind = some .comment →
      ∃ front first later last, Commented options d
        ((Tree.ofTokens options d (classify d.text)).node i) front first later last := by
  refine run_life
    (fun s i => ∃ front first later done last rest,
      Commenting options d s i front first later done last rest)
    (fun n => ∃ front first later last, Commented options d n front first later last)
    (Or.inl rfl) (classify_wellFormed d).ordered ?_ ?_
  · intro s p steady within grown kind
    have known := steady.known p within
    obtain ⟨t, hosts, comment, -, opened⟩ := (step_turn within).opened_kind known grown kind
    rw [opened]
    obtain ⟨front, later, reading⟩ := commenting_opened steady hosts comment
    exact ⟨front, t, later, _, t, later, reading⟩
  · rintro s p steady within kind ⟨front, first, later, done, last, rest, reading⟩
    rcases reading.step steady within kind with ⟨inside, onward⟩ | ⟨outside, left⟩
    · exact Or.inl ⟨inside, front, first, later, onward⟩
    · exact Or.inr ⟨outside, front, first, later, last, left⟩

end Scan

/-- A token that begins with `/*` is the argument of a directive, in one line, or a comment up to
the first `*/` behind its start, or to the end of the text if there is none.  The scan takes a
comment for unclosed exactly if it is of the last sort.  A region of comments starts with a
comment and stops with the last one of its run; it is incomplete exactly if that one is of the
last sort. -/
theorem unclosed_comments_agree (options : ScanOptions) (d : Document) :
    let tokens := classify d.text
    let tree := Tree.ofTokens options d tokens
    (∀ t ∈ tokens, ['/', '*'] <+: t.text →
      t.category = .preprocessorText ∧ (∀ x ∈ t.text, x ≠ '\n' ∧ x ≠ '\r') ∨
        t.category.isComment = true ∧ (t.ClosedBlock d.text ∨ t.OpenBlock d.text)) ∧
    (∀ t ∈ tokens, t.category.isComment = true →
      (t.isUnclosedComment = true ↔ t.OpenBlock d.text)) ∧
    ∀ i, (tree.node i).kind = some .comment →
      ∃ front first later, tokens = front ++ first :: later ∧ first.category.isComment = true ∧
        (tree.node i).start = first.start ∧
        (tree.node i).stop = (lastComment options d first later).stop ∧
        ((tree.node i).complete = false ↔
          (lastComment options d first later).OpenBlock d.text) := by
  intro tokens tree
  refine ⟨fun t => classify_block, fun t => isUnclosedComment_iff, ?_⟩
  intro i kind
  obtain ⟨front, first, later, last, commented⟩ := Scan.commented_of_kind i kind
  refine ⟨front, first, later, commented.cut, commented.opens, commented.start, ?_, ?_⟩
  · rw [commented.run]
    exact commented.stop
  · rw [commented.run, ← isUnclosedComment_iff commented.member commented.comment,
      commented.complete, Bool.not_eq_false']

/-- A run from `/**/` over an identifier to `/*/`, which has no end: its `*` does not count
twice. -/
theorem unclosed_comments_agree_overlap :
    let d := Document.ofText 0 "/**/ x /*/".toList
    let tokens := classify d.text
    let n := (Tree.ofTokens {} d tokens).node 1
    let t := Token.at 7 .comment "/*/".toList
    (t ∈ tokens ∧ ['/', '*'] <+: t.text ∧ t.category.isComment = true) ∧
      (t.ClosedBlock d.text ∨ t.OpenBlock d.text) ∧ t.isUnclosedComment = true ∧
      t.OpenBlock d.text ∧ n.kind = some .comment ∧ n.start = 0 ∧ n.complete = false ∧
      ∃ front first later, tokens = front ++ first :: later ∧ first.start = 0 ∧
        (lastComment {} d first later).stop = 10 ∧
        (lastComment {} d first later).OpenBlock d.text := by
  intro d tokens n t
  have member : t ∈ tokens := by decide +kernel
  have own : t.isUnclosedComment = true := by decide
  have node : n.kind = some .comment ∧ n.start = 0 ∧ n.stop = 10 ∧ n.complete = false := by
    decide +kernel
  obtain ⟨kind, start, stop, live⟩ := node
  obtain ⟨sorts, unclosed, runs⟩ := unclosed_comments_agree {} d
  have sort : t.ClosedBlock d.text ∨ t.OpenBlock d.text := by
    rcases sorts t member (by decide) with ⟨argument, -⟩ | ⟨-, sort⟩
    · cases argument
    · exact sort
  obtain ⟨front, first, later, cut, -, starts, stops, complete⟩ := runs 1 kind
  exact ⟨⟨member, by decide, rfl⟩, sort, own, (unclosed t member rfl).1 own, kind, start, live,
    front, first, later, cut, starts.symm.trans start, stops.symm.trans stop, complete.1 live⟩

/-- The argument of a directive may begin with `/*`, and still stops with its line, before the
first `*/`. -/
theorem directive_argument_begins_like_comment :
    let text := "#if /* a\n*/".toList
    ∃ t ∈ classify text, ['/', '*'] <+: t.text ∧ t.stop = 8 ∧
      ¬ (t.ClosedBlock text ∨ t.OpenBlock text) := by
  intro text
  refine ⟨Token.at 4 .preprocessorText "/* a".toList, by decide +kernel, by decide, by decide, ?_⟩
  rintro (closed | block)
  · have := closed.not_unclosed
    revert this
    decide
  · obtain ⟨-, -, -, -, -, -, stops⟩ := block
    revert stops
    decide

end CodeFolding
