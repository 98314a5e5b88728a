import Mathlib
import CodeFolding.Proofs.Previews
import CodeFolding.Proofs.Streams

/-!
# What classification gives

The stream of a text is a faithful cut of it (`classified_stream_faithful`), and the line of a
directive is read apart from the code around it (`directive_lines_isolated`).

* `Text.visible_trim`: trimming loses blanks only.
* `directiveTokens_parts`: what stands behind the keyword of a directive is one argument and one
  comment at most, and they show what the line shows.
* `from_of_mem`: a token is a piece of the text, or it stands in the line of a directive.
* `exists_directiveLine`: the stream goes on from the keyword of a directive with the tokens of
  its line, and then with those of the text from the end of that line on.
-/

namespace CodeFolding

/-! ## The stream as a whole -/

/-- The tokens of a text that is short enough for its words: they come in order and apart, each
has bytes, stands between two character boundaries inside the text, has the text that stands
there, and fits its words. -/
theorem classified_stream_faithful (d : Document) (short : d.length < limit32) :
    (classify d.text).Pairwise (fun a b => a.start < b.start ∧ a.stop ≤ b.start) ∧
      ∀ t ∈ classify d.text, t.start < t.stop ∧ t.stop ≤ d.length ∧ t.stop < limit32 ∧
        d.Boundary t.start ∧ d.Boundary t.stop ∧ d.slice t.span = .ok t.text := by
  have formed := classify_wellFormed d
  refine ⟨formed.sorted.and formed.apart, ?_⟩
  intro t member
  have inside := formed.stop_le_length member
  exact ⟨formed.nonempty t member, inside, Nat.lt_of_le_of_lt inside short,
    formed.boundary_start member, formed.boundary_stop member, formed.slice t member⟩

/-- A directive with an argument and a comment in wide characters, and a block comment that is
never closed: four tokens. -/
theorem classified_stream_faithful_directive :
    let d := Document.ofText 0 "#if é // ü\n/* x".toList
    d.length < limit32 ∧
      (classify d.text).map (fun t => (t.start, t.stop, t.category)) =
        [(0, 3, .preprocessorKeyword), (4, 6, .preprocessorText), (7, 12, .comment),
          (13, 17, .comment)] ∧
      (classify d.text).Pairwise (fun a b => a.start < b.start ∧ a.stop ≤ b.start) ∧
      ∀ t ∈ classify d.text, t.stop ≤ d.length ∧ d.slice t.span = .ok t.text := by
  intro d
  have short : d.length < limit32 := by decide
  obtain ⟨ordered, faithful⟩ := classified_stream_faithful d short
  refine ⟨short, by decide +kernel, ordered, ?_⟩
  intro t member
  obtain ⟨-, inside, -, -, -, slice⟩ := faithful t member
  exact ⟨inside, slice⟩

/-! ## Trimming -/

namespace Text

theorem allBlank_takeWhile (cs : List Char) : allBlank (cs.takeWhile isBlank) = true :=
  List.all_eq_true.2 fun _ member => List.mem_takeWhile_imp member

theorem visible_trimStart (cs : List Char) : visible (trimStart cs) = visible cs := by
  have cut : cs.takeWhile isBlank ++ trimStart cs = cs := List.takeWhile_append_dropWhile
  rw [← List.nil_append (visible (trimStart cs)), ← visible_of_allBlank (allBlank_takeWhile cs),
    ← visible_append, cut]

/-- Trimming the end is trimming the start of the text read backwards. -/
theorem visible_trimEnd (cs : List Char) : visible (trimEnd cs) = visible cs := by
  have backwards : ∀ ds : List Char, visible ds.reverse = (visible ds).reverse :=
    fun ds => List.filter_reverse
  have start : visible (trimStart cs.reverse) = visible cs.reverse := visible_trimStart _
  show visible (trimStart cs.reverse).reverse = visible cs
  rw [backwards, start, backwards, List.reverse_reverse]

theorem visible_trim (cs : List Char) : visible (trim cs) = visible cs :=
  (visible_trimEnd _).trans (visible_trimStart cs)

/-- A visible character at the start is not trimmed from the end. -/
theorem trimEnd_cons {c : Char} (shown : isBlank c = false) (cs : List Char) :
    trimEnd (c :: cs) = c :: trimEnd cs := by
  have kept : [c].dropWhile isBlank = [c] := List.dropWhile_cons_of_neg (by simp [shown])
  unfold trimEnd dropEndWhile
  rw [List.reverse_cons, List.dropWhile_append, kept]
  split
  next empty =>
    rw [List.isEmpty_iff.1 empty]
    rfl
  next => rw [List.reverse_append, List.reverse_singleton, List.singleton_append]

end Text

/-! ## The tokens behind a directive's keyword -/

section Line

variable {offset : Nat} {line : List Char} {t : Token}

/-- A trimmed piece of the line is a token unless nothing is left of it. -/
theorem exists_piece (offset : Nat) (category : Category) (text : List Char) :
    ∃ piece : Option Token,
      (match text with
        | [] => []
        | trimmed => [Token.at offset category trimmed]) = piece.toList ∧
      (∀ t ∈ piece, t.category = category ∧ t.text = text ∧ text ≠ []) ∧
      piece.toList.flatMap Token.text = text := by
  cases text with
  | nil => exact ⟨none, rfl, by simp, rfl⟩
  | cons c cs =>
    refine ⟨some (Token.at offset category (c :: cs)), rfl, ?_, List.append_nil _⟩
    rintro t ⟨⟩
    exact ⟨rfl, rfl, List.cons_ne_nil c cs⟩

/-- One argument and one comment at most, and what they show is what the line shows. -/
theorem directiveTokens_parts (offset : Nat) (line : List Char) :
    ∃ argument comment : Option Token,
      directiveTokens offset line = argument.toList ++ comment.toList ∧
      (∀ t ∈ argument, t.category = .preprocessorText) ∧
      (∀ t ∈ comment, t.category = .comment ∧ ['/', '/'] <+: t.text) ∧
      Text.visible ((directiveTokens offset line).flatMap Token.text) = Text.visible line := by
  obtain ⟨argument, isArgument, arguments, argumentText⟩ := exists_piece
    (offset + Text.byteLength ((cutAtComment line).1.takeWhile Text.isBlank)) .preprocessorText
    (Text.trim (cutAtComment line).1)
  obtain ⟨comment, isComment, comments, commentText⟩ := exists_piece
    (offset + Text.byteLength (cutAtComment line).1) .comment (Text.trimEnd (cutAtComment line).2)
  have parts : directiveTokens offset line = argument.toList ++ comment.toList :=
    congrArg₂ (· ++ ·) isArgument isComment
  refine ⟨argument, comment, parts, fun t member => (arguments t member).1, ?_, ?_⟩
  · intro t member
    obtain ⟨category, text, kept⟩ := comments t member
    refine ⟨category, ?_⟩
    have shown : Text.isBlank '/' = false := by decide
    rcases cutAtComment_comment line with none | ⟨rest, slashes⟩
    · rw [none] at kept
      exact absurd rfl kept
    · rw [text, slashes, Text.trimEnd_cons shown, Text.trimEnd_cons shown]
      exact List.prefix_append ['/', '/'] _
  · rw [parts, List.flatMap_append, argumentText, commentText, Text.visible_append,
      Text.visible_trim, Text.visible_trimEnd, ← Text.visible_append, cutAtComment_append]

theorem category_of_mem_directiveTokens (member : t ∈ directiveTokens offset line) :
    t.category ≠ .preprocessorKeyword := by
  obtain ⟨argument, comment, parts, arguments, comments, -⟩ := directiveTokens_parts offset line
  rw [parts, List.mem_append, Option.mem_toList, Option.mem_toList] at member
  rcases member with member | member
  · rw [arguments t member]
    decide
  · rw [(comments t member).1]
    decide

/-- The text of a token of a line is a piece of the line. -/
theorem around_of_mem_directiveTokens (clean : ∀ x ∈ line, x ≠ '\n' ∧ x ≠ '\r')
    (member : t ∈ directiveTokens offset line) :
    ∃ front rest, line = front ++ t.text ++ rest ∧ offset + Text.byteLength front = t.start ∧
      offset + Text.byteLength (front ++ t.text) = t.stop ∧ Lexed t.category t.text rest := by
  have laid : Laid offset (line ++ []) (directiveTokens offset line ++ []) :=
    laid_directiveTokens clean .done
  rw [List.append_nil, List.append_nil] at laid
  exact laid.around member

/-- The tokens of a line stand in the line. -/
theorem bounds_of_mem_directiveTokens (clean : ∀ x ∈ line, x ≠ '\n' ∧ x ≠ '\r')
    (member : t ∈ directiveTokens offset line) :
    offset ≤ t.start ∧ t.start < t.stop ∧ t.stop ≤ offset + Text.byteLength line := by
  obtain ⟨front, rest, cut, starts, stops, lexed⟩ := around_of_mem_directiveTokens clean member
  obtain ⟨c, cs, text, -⟩ := lexed.visible
  have width := c.utf8Size_pos
  rw [Text.byteLength_append] at stops
  rw [cut, Text.byteLength_append, Text.byteLength_append]
  have bytes : Text.byteLength t.text = c.utf8Size + Text.byteLength cs := by rw [text]; rfl
  omega

end Line

/-! ## Keywords of directives -/

namespace Lexeme

/-- The piece is no keyword of a directive, and its line is not read as one. -/
def Plain : Lexeme → Prop
  | .gap => True
  | .token category => category ≠ .preprocessorKeyword
  | .directive => False

theorem plain_literal (l : Literal) : l.lexeme.1.Plain := by
  unfold Literal.lexeme
  split <;> simp [Plain]

theorem plain_slash (cs : List Char) : (slash cs).1.Plain := by
  unfold slash
  split
  case h_3 cs =>
    unfold blockCategory
    split <;> simp [Plain]
  all_goals simp [Plain]

theorem plain_dollar (cs : List Char) : (dollar cs).1.Plain := by
  unfold dollar
  split
  case h_1 cs => exact plain_literal _
  all_goals trivial

theorem plain_atSign (cs : List Char) : (atSign cs).1.Plain := by
  unfold atSign
  split
  case h_1 cs => exact plain_literal _
  case h_4 c cs _ _ _ => split <;> simp [Plain]
  all_goals trivial

theorem category_ne_keyword (word : List Char) :
    Word.category word ≠ .preprocessorKeyword := by
  unfold Word.category
  split
  · decide
  · split <;> decide

end Lexeme

/-- Only a number sign starts the keyword of a directive. -/
theorem lexeme_plain {c : Char} (other : c ≠ '#') (cs : List Char) : (lexeme c cs).1.Plain := by
  unfold lexeme
  split
  · exact Lexeme.plain_slash cs
  · exact absurd rfl other
  · exact Lexeme.plain_literal _
  · exact Lexeme.plain_literal _
  · exact Lexeme.plain_dollar cs
  · exact Lexeme.plain_atSign cs
  · split
    next => simp [Lexeme.Plain]
    next =>
      split
      next => exact Lexeme.category_ne_keyword _
      next =>
        split
        next => simp [Lexeme.Plain]
        next => split <;> simp [Lexeme.Plain]

/-- The line of a directive's keyword is always read as one. -/
theorem lexeme_ne_keyword (c : Char) (cs : List Char) :
    (lexeme c cs).1 ≠ .token .preprocessorKeyword := by
  by_cases sign : c = '#'
  · subst sign
    show (Lexeme.numberSign cs).1 ≠ _
    unfold Lexeme.numberSign
    dsimp only
    split <;> simp
  · intro keyword
    have plain := lexeme_plain sign cs
    rw [keyword] at plain
    exact plain rfl

/-- A directive starts with a number sign. -/
theorem eq_numberSign_of_directive {c : Char} {cs : List Char} {more : Nat}
    (found : lexeme c cs = (.directive, more)) : c = '#' := by
  by_contra other
  have plain := lexeme_plain other cs
  rw [found] at plain
  exact plain

theorem Text.drop_length_takeWhile (p : Char → Bool) (cs : List Char) :
    cs.drop (cs.takeWhile p).length = cs.dropWhile p := by
  have cut : cs.takeWhile p ++ cs.dropWhile p = cs := List.takeWhile_append_dropWhile
  calc cs.drop (cs.takeWhile p).length
      = (cs.takeWhile p ++ cs.dropWhile p).drop (cs.takeWhile p).length := by rw [cut]
    _ = cs.dropWhile p := List.drop_left

/-- What is left behind a line is nothing or starts with the line's end. -/
theorem Lexeme.restOfLine_stops (cs : List Char) :
    ∀ x ∈ (cs.drop (restOfLine cs)).head?, x = '\n' ∨ x = '\r' := by
  intro x first
  unfold restOfLine at first
  have ends := List.head?_dropWhile_not (!isLineEnd ·) cs
  rw [← Text.drop_length_takeWhile, first] at ends
  simp only [isLineEnd, Bool.not_eq_false', Bool.or_eq_true, beq_iff_eq] at ends
  exact ends.symm

/-! ## Where tokens come from -/

/-- A token of the text from an offset on is a piece of the text, or it stands in the line behind
the keyword of a directive. -/
inductive Token.From (t : Token) (offset : Nat) (cs : List Char) : Prop
  | piece {front rest : List Char} {c : Char} {category : Category} {more : Nat} :
    cs = front ++ c :: rest → lexeme c rest = (.token category, more) →
    t = .at (offset + Text.byteLength front) category (c :: rest.take more) → From t offset cs
  | keyword {front rest : List Char} {c : Char} {more : Nat} :
    cs = front ++ c :: rest → lexeme c rest = (.directive, more) →
    t = .at (offset + Text.byteLength front) .preprocessorKeyword (c :: rest.take more) →
    From t offset cs
  | line {place : Nat} {behind : List Char} :
    t ∈ directiveTokens place (behind.take (Lexeme.restOfLine behind)) → From t offset cs

theorem Token.From.prepend {t : Token} {offset : Nat} {skipped cs : List Char}
    (source : t.From (offset + Text.byteLength skipped) cs) : t.From offset (skipped ++ cs) := by
  cases source with
  | piece cut found same =>
    refine .piece (by rw [cut, List.append_assoc]) found ?_
    rw [same, Text.byteLength_append, Nat.add_assoc]
  | keyword cut found same =>
    refine .keyword (by rw [cut, List.append_assoc]) found ?_
    rw [same, Text.byteLength_append, Nat.add_assoc]
  | line member => exact .line member

theorem from_of_mem {t : Token} {offset : Nat} {cs : List Char}
    (member : t ∈ classifyFrom offset cs) : t.From offset cs := by
  fun_induction classifyFrom offset cs with
  | case1 => exact absurd member List.not_mem_nil
  | case2 offset c cs more text after found ih =>
    have cut : c :: cs = text ++ cs.drop more := by
      rw [List.cons_append, List.take_append_drop]
    rw [cut]
    exact (ih member).prepend
  | case3 offset c cs more text after category found ih =>
    rcases List.mem_cons.1 member with rfl | later
    · exact .piece (List.nil_append _).symm found rfl
    · have cut : c :: cs = text ++ cs.drop more := by
        rw [List.cons_append, List.take_append_drop]
      rw [cut]
      exact (ih later).prepend
  | case4 offset c cs more text after rest width line found ih =>
    rcases List.mem_append.1 member with here | later
    · rcases List.mem_cons.1 here with rfl | inLine
      · exact .keyword (List.nil_append _).symm found rfl
      · exact .line inLine
    · have cut : c :: cs = text ++ line ++ rest.drop width := by
        rw [List.append_assoc, List.take_append_drop, List.cons_append, List.take_append_drop]
      rw [cut]
      refine Token.From.prepend ?_
      rw [Text.byteLength_append, ← Nat.add_assoc]
      exact ih later

/-! ## Lines of directives in the stream -/

/-- The text from an offset on has a line that stands behind the token, and its stream goes on
from the token with the tokens of that line and then those of the rest. -/
def LineBehind (t : Token) (offset : Nat) (cs : List Char) (tokens : List Token) : Prop :=
  ∃ front line rest before, cs = front ++ line ++ rest ∧
    offset + Text.byteLength front = t.stop ∧ (∀ x ∈ line, x ≠ '\n' ∧ x ≠ '\r') ∧
    (∀ x ∈ rest.head?, x = '\n' ∨ x = '\r') ∧
    tokens = before ++ t :: directiveTokens t.stop line ++
      classifyFrom (t.stop + Text.byteLength line) rest

theorem LineBehind.prepend {t : Token} {offset : Nat} {piece cs : List Char} {tokens : List Token}
    (behind : LineBehind t (offset + Text.byteLength piece) cs tokens) (more : List Token) :
    LineBehind t offset (piece ++ cs) (more ++ tokens) := by
  obtain ⟨front, line, rest, before, cut, starts, clean, ends, stream⟩ := behind
  refine ⟨piece ++ front, line, rest, more ++ before, ?_, ?_, clean, ends, ?_⟩
  · rw [cut]
    simp only [List.append_assoc]
  · rw [Text.byteLength_append, ← Nat.add_assoc, starts]
  · rw [stream]
    simp only [List.append_assoc]

/-- The keyword of a directive is followed by its line. -/
theorem exists_directiveLine {t : Token} {offset : Nat} {cs : List Char}
    (member : t ∈ classifyFrom offset cs) (keyword : t.category = .preprocessorKeyword) :
    LineBehind t offset cs (classifyFrom offset cs) := by
  fun_induction classifyFrom offset cs with
  | case1 => exact absurd member List.not_mem_nil
  | case2 offset c cs more text after found ih =>
    have cut : c :: cs = text ++ cs.drop more := by
      rw [List.cons_append, List.take_append_drop]
    rw [cut]
    exact (ih member).prepend []
  | case3 offset c cs more text after category found ih =>
    have cut : c :: cs = text ++ cs.drop more := by
      rw [List.cons_append, List.take_append_drop]
    rcases List.mem_cons.1 member with rfl | member
    · have other := lexeme_ne_keyword c cs
      rw [found] at other
      exact absurd (congrArg Lexeme.token keyword) other
    · rw [cut]
      exact (ih member).prepend [Token.at offset category text]
  | case4 offset c cs more text after rest width line found ih =>
    have cut : c :: cs = text ++ (line ++ rest.drop width) := by
      rw [List.take_append_drop, List.cons_append, List.take_append_drop]
    rcases List.mem_append.1 member with here | later
    · rcases List.mem_cons.1 here with rfl | inLine
      · exact ⟨text, line, rest.drop width, [], by rw [cut, List.append_assoc], rfl,
          Lexeme.restOfLine_clean rest, Lexeme.restOfLine_stops rest, rfl⟩
      · exact absurd keyword (category_of_mem_directiveTokens inLine)
    · rw [cut, ← List.append_assoc]
      refine LineBehind.prepend ?_ (Token.at offset .preprocessorKeyword text :: _)
      rw [Text.byteLength_append, ← Nat.add_assoc]
      exact ih later

/-- In a stream cut at a token and at an offset behind it, the tokens that start from the end of
the token up to the offset are those between the cuts. -/
theorem Token.WellFormed.filter_between {d : Document} {t : Token}
    {before between after : List Token} {stop : Nat}
    (formed : WellFormed d (before ++ t :: between ++ after))
    (inside : ∀ u ∈ between, t.stop ≤ u.start ∧ u.start < stop)
    (behind : ∀ u ∈ after, stop ≤ u.start) :
    (before ++ t :: between ++ after).filter (fun u => t.stop ≤ u.start ∧ u.start < stop) =
      between := by
  have earlier : ∀ u ∈ before ++ [t], u.start < t.stop := by
    intro u member
    rcases List.mem_append.1 member with front | same
    · have apart := (List.pairwise_append.1 (List.pairwise_append.1 formed.apart).1).2.2 u front t
        List.mem_cons_self
      have width := formed.nonempty u (by simp [front])
      have own := formed.nonempty t (by simp)
      omega
    · rw [List.mem_singleton.1 same]
      exact formed.nonempty t (by simp)
  have none : (before ++ [t]).filter (fun u => t.stop ≤ u.start ∧ u.start < stop) = [] := by
    apply List.filter_eq_nil_iff.2
    intro u member
    have := earlier u member
    simp only [decide_eq_true_eq]
    omega
  have all : between.filter (fun u => t.stop ≤ u.start ∧ u.start < stop) = between := by
    apply List.filter_eq_self.2
    intro u member
    exact decide_eq_true (inside u member)
  have none' : after.filter (fun u => t.stop ≤ u.start ∧ u.start < stop) = [] := by
    apply List.filter_eq_nil_iff.2
    intro u member
    have := behind u member
    simp only [decide_eq_true_eq]
    omega
  have cut : before ++ t :: between ++ after = (before ++ [t]) ++ (between ++ after) := by simp
  rw [cut, List.filter_append, none, List.filter_append, all, none', List.nil_append,
    List.append_nil]

/-- The line of a directive is what stands between its keyword and the next carriage return or
line feed, or the end of the text.  The tokens that start there are one argument and then one
comment with two slashes at most; they do not reach past the line, and all of the line but blanks
is in them. -/
theorem directive_lines_isolated (text : List Char) (t : Token) (member : t ∈ classify text)
    (keyword : t.category = .preprocessorKeyword) :
    ∃ front line rest, text = front ++ line ++ rest ∧ Text.byteLength front = t.stop ∧
      (∀ x ∈ line, x ≠ '\n' ∧ x ≠ '\r') ∧ (∀ x ∈ rest.head?, x = '\n' ∨ x = '\r') ∧
      ∃ argument comment : Option Token,
        (classify text).filter (fun u => t.stop ≤ u.start ∧
          u.start < Text.byteLength (front ++ line)) = argument.toList ++ comment.toList ∧
        (∀ u ∈ argument, u.category = .preprocessorText ∧
          u.stop ≤ Text.byteLength (front ++ line)) ∧
        (∀ u ∈ comment, u.category = .comment ∧ ['/', '/'] <+: u.text ∧
          u.stop ≤ Text.byteLength (front ++ line)) ∧
        Text.visible ((argument.toList ++ comment.toList).flatMap Token.text) =
          Text.visible line := by
  obtain ⟨front, line, rest, before, cut, starts, clean, ends, stream⟩ :=
    exists_directiveLine member keyword
  rw [Nat.zero_add] at starts
  obtain ⟨argument, comment, parts, arguments, comments, shown⟩ :=
    directiveTokens_parts t.stop line
  have lineStop : Text.byteLength (front ++ line) = t.stop + Text.byteLength line := by
    rw [Text.byteLength_append, starts]
  have bounds : ∀ u ∈ argument.toList ++ comment.toList,
      t.stop ≤ u.start ∧ u.start < u.stop ∧ u.stop ≤ Text.byteLength (front ++ line) := by
    intro u inLine
    rw [lineStop]
    exact bounds_of_mem_directiveTokens clean (parts ▸ inLine)
  have behind : ∀ u ∈ classifyFrom (t.stop + Text.byteLength line) rest,
      Text.byteLength (front ++ line) ≤ u.start := by
    intro u later
    obtain ⟨lead, -, -, start, -⟩ := (laid_classifyFrom _ rest).around later
    omega
  have formed := classify_wellFormed (Document.ofText 0 text)
  have whole : classify text = before ++ t :: (argument.toList ++ comment.toList) ++
      classifyFrom (t.stop + Text.byteLength line) rest := by
    rw [← parts]
    exact stream
  refine ⟨front, line, rest, cut, starts, clean, ends, argument, comment, ?_, ?_, ?_, ?_⟩
  · rw [whole]
    refine Token.WellFormed.filter_between (d := Document.ofText 0 text) (whole ▸ formed) ?_
      behind
    intro u inLine
    have := bounds u inLine
    omega
  · intro u inArgument
    have inLine := List.mem_append_left comment.toList (Option.mem_toList.2 inArgument)
    exact ⟨arguments u inArgument, (bounds u inLine).2.2⟩
  · intro u inComment
    have inLine := List.mem_append_right argument.toList (Option.mem_toList.2 inComment)
    obtain ⟨category, slashes⟩ := comments u inComment
    exact ⟨category, slashes, (bounds u inLine).2.2⟩
  · rw [← parts]
    exact shown

/-- A brace, an open comment and a quote behind a keyword: the argument takes all of them up to
the slashes, and the brace of the next line is not reached. -/
theorem directive_lines_isolated_brace :
    let text := "#if \x7b /* \" // b \r\n\x7d".toList
    let t := Token.at 0 .preprocessorKeyword "#if".toList
    t ∈ classify text ∧ t.category = .preprocessorKeyword ∧
      (classify text).map Token.text =
        ["#if".toList, "\x7b /* \"".toList, "// b".toList, "\x7d".toList] ∧
      ∃ front line rest, text = front ++ line ++ rest ∧ Text.byteLength front = 3 ∧
        ∃ argument comment : Option Token,
          (classify text).filter (fun u => 3 ≤ u.start ∧
            u.start < Text.byteLength (front ++ line)) = argument.toList ++ comment.toList ∧
          Text.visible ((argument.toList ++ comment.toList).flatMap Token.text) =
            Text.visible line := by
  intro text t
  have member : t ∈ classify text := by decide +kernel
  obtain ⟨front, line, rest, cut, starts, -, -, argument, comment, tokens, -, -, shown⟩ :=
    directive_lines_isolated text t member rfl
  exact ⟨member, rfl, by decide +kernel, front, line, rest, cut, starts, argument, comment,
    tokens, shown⟩

end CodeFolding
