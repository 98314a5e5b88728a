import Mathlib
import CodeFolding.Proofs.RunLives
import CodeFolding.Proofs.SoundRegions

/-!
# Comments behind code

A comment starts no run if the token right before it is code that ends on its line.  Only that one
token counts: of several comments behind code the first starts no run, and the second does.

* `CommentStart`: what the scan asks of the comment that a run starts with.
* `comment_region_behind_code_iff`: a region of comments starts behind code on its line exactly if
  the comment right before it does too.
* `second_trailing_comment_starts_region`: such a region.
-/

namespace CodeFolding

/-- The region starts with a comment of the stream, and the token before that one is a comment or
ends on a line above. -/
def CommentStart (d : Document) (tokens : List Token) (n : Node) : Prop :=
  ∃ front first later, tokens = front ++ first :: later ∧ first.category.isComment = true ∧
    n.start = first.start ∧ ∀ before, front.getLast? = some before →
      before.category.isComment = true ∨ d.lineOf before.stop < d.lineOf first.start

/-- Some code ends on the line of a place and not behind it. -/
def Token.CodeBefore (d : Document) (tokens : List Token) (place : Nat) : Prop :=
  ∃ code ∈ tokens, code.category.isComment = false ∧ code.stop ≤ place ∧
    d.lineOf code.stop = d.lineOf place

namespace Scan

section Starts

variable {options : ScanOptions} {d : Document} {tokens done later : List Token} {s : Scan}
  {t : Token}

/-- A comment that is not behind code may start a run. -/
theorem not_behind_of_isTrailing (formed : Token.WellFormed s.cursor.document s.cursor.tokens)
    (split : s.cursor.Split done (t :: later)) (index : s.cursor.index? = some done.length)
    (leads : s.isTrailing t = false) {before : Token} (last : done.getLast? = some before) :
    before.category.isComment = true ∨
      s.document.lineOf before.stop < s.document.lineOf t.start := by
  unfold isTrailing at leads
  rw [split.previous?_eq index, last] at leads
  dsimp only at leads
  rw [Bool.and_eq_false_iff, Bool.not_eq_false', beq_eq_false_iff_ne] at leads
  rcases leads with comment | differ
  · exact Or.inl comment
  · right
    have le := split.stop_le_start formed (List.mem_of_getLast? last) List.mem_cons_self
    exact Nat.lt_of_le_of_ne (Document.lineOf_mono le) differ

/-- Every run of comments starts with a comment that may start one. -/
theorem commentStart_of_kind (formed : Token.WellFormed d tokens) :
    ∀ i, ((Tree.ofTokens options d tokens).node i).kind = some .comment →
      CommentStart d tokens ((Tree.ofTokens options d tokens).node i) := by
  refine run_life (fun s i => CommentStart d tokens (s.tree.node i)) (CommentStart d tokens)
    (Or.inl rfl) formed.ordered ?_ ?_
  · intro s p steady within grown kind
    have known := steady.known p within
    obtain ⟨t, hosts, comment, leads, opened⟩ := (step_turn within).opened_kind known grown kind
    have starts : (s.step.tree.node s.tree.nodes.size).start = t.start := by
      rw [opened, show (s.openedComment p t).tree.node s.tree.nodes.size = _ from
        Tree.node_add_new known]
      rfl
    obtain ⟨done, rest, split⟩ := steady.split
    have formed' := steady.formed formed
    obtain ⟨later, rfl, -, index⟩ := split.of_token? formed' hosts.token
    refine ⟨done, t, later, steady.tokens.symm.trans split.tokens, comment, starts, ?_⟩
    intro before last
    rw [← show s.document = d from steady.document]
    exact not_behind_of_isTrailing formed' split index leads last
  · intro s p steady within kind start
    obtain ⟨same, stays | leaves⟩ :=
      (step_turn within).start_of_isRun (isRun_of_kind (Or.inl rfl) kind)
    · refine Or.inl ⟨stays, ?_⟩
      unfold CommentStart
      rw [same]
      exact start
    · refine Or.inr ⟨leaves, ?_⟩
      unfold CommentStart
      rw [same]
      exact start

end Starts

end Scan

section Line

variable {d : Document} {front later : List Token} {first before : Token}

/-- Code that ends before a token starts comes before it in the stream. -/
theorem Token.WellFormed.mem_front (formed : Token.WellFormed d (front ++ first :: later))
    {code : Token} (member : code ∈ front ++ first :: later) (ends : code.stop ≤ first.start) :
    code ∈ front := by
  rcases List.mem_append.1 member with inside | ahead
  · exact inside
  · have width := formed.nonempty code member
    have sorted := (List.pairwise_append.1 formed.ordered.sorted).2.1
    rcases List.mem_cons.1 ahead with rfl | behind
    · omega
    · have := (List.pairwise_cons.1 sorted).1 code behind
      omega

/-- Code before a token with a comment right before it is code before that comment, which then
stands on the same line. -/
theorem Token.WellFormed.codeBefore_of_comment
    (formed : Token.WellFormed d (front ++ first :: later))
    (last : front.getLast? = some before) (comment : before.category.isComment = true)
    (behind : Token.CodeBefore d (front ++ first :: later) first.start) :
    d.lineOf before.start = d.lineOf first.start ∧
      Token.CodeBefore d (front ++ first :: later) before.start := by
  obtain ⟨code, member, plain, ends, line⟩ := behind
  obtain ⟨start, rfl⟩ := List.getLast?_eq_some_iff.1 last
  have apart := (List.pairwise_append.1 formed.apart).1
  have earlier : code ∈ start := by
    rcases List.mem_append.1 (formed.mem_front member ends) with inside | here
    · exact inside
    · rw [List.mem_singleton.1 here, comment] at plain
      cases plain
  have low := (List.pairwise_append.1 apart).2.2 code earlier before (List.mem_singleton_self _)
  have high : before.start ≤ first.start := by
    have width := formed.nonempty before (by simp)
    have := (List.pairwise_append.1 formed.apart).2.2 before (by simp) first List.mem_cons_self
    omega
  have lowLine := Document.lineOf_mono (d := d) low
  have highLine := Document.lineOf_mono (d := d) high
  exact ⟨by omega, code, member, plain, low, by omega⟩

/-- Code before a comment of the same line is code before what follows it. -/
theorem Token.CodeBefore.of_le {tokens : List Token} {place place' : Nat}
    (behind : Token.CodeBefore d tokens place) (le : place ≤ place')
    (line : d.lineOf place = d.lineOf place') : Token.CodeBefore d tokens place' := by
  obtain ⟨code, member, plain, ends, same⟩ := behind
  exact ⟨code, member, plain, Nat.le_trans ends le, same.trans line⟩

/-- Code before the first comment of a run is code before a comment right before it. -/
theorem Token.WellFormed.codeBefore_iff (formed : Token.WellFormed d (front ++ first :: later))
    (leads : ∀ before, front.getLast? = some before →
      before.category.isComment = true ∨ d.lineOf before.stop < d.lineOf first.start) :
    Token.CodeBefore d (front ++ first :: later) first.start ↔
      ∃ before, front.getLast? = some before ∧ before.category.isComment = true ∧
        d.lineOf before.start = d.lineOf first.start ∧
        Token.CodeBefore d (front ++ first :: later) before.start := by
  constructor
  · rintro ⟨code, member, plain, ends, line⟩
    have inside := formed.mem_front member ends
    obtain ⟨before, last⟩ := Option.isSome_iff_exists.1
      (List.getLast?_isSome.2 (List.ne_nil_of_mem inside))
    rcases leads before last with comment | above
    · exact ⟨before, last, comment, formed.codeBefore_of_comment last comment
        ⟨code, member, plain, ends, line⟩⟩
    · -- all code before the run ends above its line
      have := formed.lineOf_stop_lt
        (fun u ends => by rw [Option.mem_def, last] at ends; cases ends; exact above) inside
      omega
  · rintro ⟨before, last, -, line, behind⟩
    refine behind.of_le ?_ line
    have member : before ∈ front := List.mem_of_getLast? last
    have width := formed.nonempty before (List.mem_append_left _ member)
    have := (List.pairwise_append.1 formed.apart).2.2 before member first List.mem_cons_self
    omega

end Line

/-- A region of comments starts with a comment of the text.  It starts behind code on its line
exactly if another comment of that line stands right before it and is behind code itself. -/
theorem comment_region_behind_code_iff (options : ScanOptions) (session : SessionId)
    (d : Document) :
    let tokens := classify d.text
    ∃ o, Outline.ofTokens options session d tokens = .ok o ∧
      ∀ r ∈ o.regions, r.kind = .comment →
        ∃ front first later, tokens = front ++ first :: later ∧
          first.category.isComment = true ∧ first.start = r.span.start ∧
          (Token.CodeBefore d tokens r.span.start ↔
            ∃ before, front.getLast? = some before ∧ before.category.isComment = true ∧
              d.lineOf before.start = d.lineOf r.span.start ∧
              Token.CodeBefore d tokens before.start) := by
  intro tokens
  have formed : Token.WellFormed d tokens := classify_wellFormed d
  obtain ⟨o, outlined, -, -⟩ := exists_outline options session formed
  refine ⟨o, outlined, ?_⟩
  obtain ⟨regions, listed, rfl⟩ := Outline.ofTokens_eq_ok_iff.1 outlined
  intro r member comment
  obtain ⟨id, depth, shown⟩ := exists_node_of_mem_flattenWork listed member
  obtain ⟨kind, start, -⟩ := Node.of_region? shown
  rw [comment] at kind
  obtain ⟨front, first, later, cut, isComment, starts, leads⟩ :=
    Scan.commentStart_of_kind formed id kind
  refine ⟨front, first, later, cut, isComment, by rw [start, starts], ?_⟩
  rw [start, starts, cut]
  rw [cut] at formed
  exact formed.codeBefore_iff leads

/-- Behind a literal of two lines the first of two comments starts nothing, and the second starts
a region. -/
theorem comment_region_behind_code_iff_literal :
    let d := Document.ofText 0 "@\"\n\" /* a */ /* b\n*/".toList
    let tokens := classify d.text
    ∃ o r before, Outline.ofTokens {} 0 d tokens = .ok o ∧ r ∈ o.regions ∧ r.kind = .comment ∧
      before ∈ tokens ∧ before.category.isComment = true ∧ before.start < r.span.start ∧
      Token.CodeBefore d tokens before.start := by
  intro d tokens
  obtain ⟨o, outlined, starts⟩ := comment_region_behind_code_iff {} 0 d
  let r : Region := ⟨.comment, ⟨13, 20, by decide⟩, 1, 2, 0, false⟩
  have listed : (Tree.ofTokens {} d tokens).flatten d = .ok [r] := by decide +kernel
  obtain rfl : o = ⟨0, d, [r]⟩ :=
    Except.ok.inj (outlined.symm.trans (Outline.ofTokens_eq_ok_iff.2 ⟨_, listed, rfl⟩))
  have behind : Token.CodeBefore d tokens 13 :=
    ⟨⟨⟨0, 4, by decide⟩, .stringLiteral, "@\"\n\"".toList⟩, by decide +kernel, rfl, by decide,
      by decide +kernel⟩
  obtain ⟨front, first, later, cut, -, here, iff⟩ := starts r List.mem_cons_self rfl
  obtain ⟨before, last, comment, -, behind⟩ := iff.1 behind
  have member : before ∈ front := List.mem_of_getLast? last
  have formed := classify_wellFormed d
  have listed : before ∈ tokens := by
    rw [show tokens = _ from cut]
    exact List.mem_append_left _ member
  have width := formed.nonempty before listed
  have apart := formed.apart
  rw [cut] at apart
  have order := (List.pairwise_append.1 apart).2.2 before member first List.mem_cons_self
  exact ⟨_, r, before, outlined, List.mem_cons_self, rfl, listed, comment, by omega, behind⟩

/-- Of two comments behind code the second starts a region, and takes in the comment of the next
line. -/
theorem second_trailing_comment_starts_region :
    let d := Document.ofText 0 "int x; /* a */ // b\n// c\n".toList
    ∃ o, Outline.ofTokens {} 0 d (classify d.text) = .ok o ∧
      ∃ r ∈ o.regions, r.kind = .comment ∧
        Token.CodeBefore d (classify d.text) r.span.start := by
  intro d
  let r : Region := ⟨.comment, ⟨15, 24, by decide⟩, 0, 1, 0, false⟩
  have listed : (Tree.ofTokens {} d (classify d.text)).flatten d = .ok [r] := by decide +kernel
  refine ⟨_, Outline.ofTokens_eq_ok_iff.2 ⟨_, listed, rfl⟩, r, List.mem_cons_self, rfl, ?_⟩
  exact ⟨⟨⟨5, 6, by decide⟩, .punctuation, [';']⟩, by decide +kernel, rfl, by decide,
    by decide +kernel⟩

end CodeFolding
