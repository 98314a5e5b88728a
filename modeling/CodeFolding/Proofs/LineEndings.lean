import Mathlib
import CodeFolding.Proofs.SideBySide

/-!
# Line endings

A line may end in a line feed, or in a carriage return and a line feed.  The lines of a text are
the same either way (`Text.cutLines_withReturns`), and so are its tokens
(`Document.tokensRelaid`): words, marks and directives end before both, comments and verbatim
literals go on over both.  Only where a quoted literal breaks off, a carriage return before the
line feed is lost with it, and both texts are read on from the next line.

* `Lexeme.alike_lexeme`: the pieces at the front of both texts.
* `Document.relaid_withReturns`: the two texts are layouts of one code.
* `outline_withReturns`: the two outlines.
-/

namespace CodeFolding

/-! ## Texts with returns -/

namespace Text

/-- A line feed with a carriage return before it, and any other character by itself. -/
def withReturn (c : Char) : List Char := if c = '\n' then ['\r', '\n'] else [c]

/-- A text with a carriage return before every line feed. -/
abbrev withReturns (cs : List Char) : List Char := cs.flatMap withReturn

section Returns

variable {c : Char} {cs ds : List Char}

theorem withReturns_break (cs : List Char) :
    withReturns ('\n' :: cs) = '\r' :: '\n' :: withReturns cs := rfl

theorem withReturns_plain (plain : c ≠ '\n') (cs : List Char) :
    withReturns (c :: cs) = c :: withReturns cs := by
  unfold withReturns
  rw [List.flatMap_cons, withReturn, if_neg plain]
  rfl

theorem withReturns_append (cs ds : List Char) :
    withReturns (cs ++ ds) = withReturns cs ++ withReturns ds :=
  List.flatMap_append

theorem withReturns_eq_self (clean : '\n' ∉ cs) : withReturns cs = cs := by
  induction cs with
  | nil => rfl
  | cons c cs ih =>
    rw [List.mem_cons, not_or] at clean
    rw [withReturns_plain (Ne.symm clean.1), ih clean.2]

/-- Each line feed gets a byte. -/
theorem byteLength_withReturns (cs : List Char) :
    byteLength (withReturns cs) = byteLength cs + cs.count '\n' := by
  induction cs with
  | nil => rfl
  | cons c cs ih =>
    by_cases feed : c = '\n'
    · subst feed
      have width : ('\r' : Char).utf8Size = 1 := rfl
      rw [withReturns_break, byteLength_cons, byteLength_cons, byteLength_cons, ih,
        List.count_cons_self]
      omega
    · rw [withReturns_plain feed, byteLength_cons, byteLength_cons, ih,
        List.count_cons_of_ne feed, Nat.add_assoc]

/-- Any character but a return stands at the front of both texts or of neither. -/
theorem of_withReturns_eq_cons (other : c ≠ '\r') (begins : withReturns cs = c :: ds) :
    c ≠ '\n' ∧ ∃ rest, cs = c :: rest ∧ ds = withReturns rest := by
  cases cs with
  | nil => cases begins
  | cons x rest =>
    by_cases feed : x = '\n'
    · subst feed
      rw [withReturns_break] at begins
      exact absurd (List.cons.inj begins).1.symm other
    · rw [withReturns_plain feed] at begins
      obtain ⟨rfl, rfl⟩ := List.cons.inj begins
      exact ⟨feed, rest, rfl, rfl⟩

theorem withReturns_ne_cons (other : c ≠ '\r') (starts : ∀ rest, cs ≠ c :: rest)
    (ds : List Char) : withReturns cs ≠ c :: ds := by
  intro begins
  obtain ⟨-, rest, same, -⟩ := of_withReturns_eq_cons other begins
  exact starts rest same

theorem cutLines_withReturns (clean : '\r' ∉ cs) :
    cutLines (withReturns cs) = (cutLines cs).map (writeLine withReturn) := by
  fun_induction cutLines cs with
  | case1 => rfl
  | case2 cs ih =>
    rw [withReturns_break, cutLines, ih (fun member => clean (List.mem_cons_of_mem _ member))]
    rfl
  | case3 cs ih => exact absurd List.mem_cons_self clean
  | case4 c cs feed pair empty ih => exact absurd empty (cutLines_ne_nil cs)
  | case5 c cs feed pair content ending rest cut ih =>
    have plain : c ≠ '\n' := fun same => feed same
    have other : c ≠ '\r' := fun same => clean (same ▸ List.mem_cons_self)
    rw [withReturns_plain plain, cutLines,
      ih (fun member => clean (List.mem_cons_of_mem _ member)), cut]
    · simp [writeLine, withReturn, plain]
    · exact plain
    · exact fun _ same => absurd same other

end Returns

/-- So many characters of a text are so many of the text with returns. -/
inductive Reach : List Char → Nat → Nat → Prop
  | zero {cs : List Char} : Reach cs 0 0
  | plain {c : Char} {cs : List Char} {n n' : Nat} :
    c ≠ '\n' → Reach cs n n' → Reach (c :: cs) (n + 1) (n' + 1)
  | feed {cs : List Char} {n n' : Nat} : Reach cs n n' → Reach ('\n' :: cs) (n + 1) (n' + 2)

namespace Reach

variable {cs : List Char} {n n' : Nat}

theorem take (reach : Reach cs n n') :
    (withReturns cs).take n' = withReturns (cs.take n) := by
  induction reach with
  | zero => rfl
  | plain plain _ ih =>
    rw [withReturns_plain plain, List.take_succ_cons, List.take_succ_cons,
      withReturns_plain plain, ih]
  | feed _ ih =>
    rw [withReturns_break, List.take_succ_cons, List.take_succ_cons, List.take_succ_cons,
      withReturns_break, ih]

theorem drop (reach : Reach cs n n') :
    (withReturns cs).drop n' = withReturns (cs.drop n) := by
  induction reach with
  | zero => rfl
  | plain plain _ ih =>
    rw [withReturns_plain plain, List.drop_succ_cons, List.drop_succ_cons, ih]
  | feed _ ih =>
    rw [withReturns_break, List.drop_succ_cons, List.drop_succ_cons, List.drop_succ_cons, ih]

theorem append {m m' : Nat} (first : Reach cs n n') (second : Reach (cs.drop n) m m') :
    Reach cs (n + m) (n' + m') := by
  induction first with
  | zero => simpa using second
  | plain plain _ ih =>
    rw [List.drop_succ_cons] at second
    rw [Nat.add_right_comm, Nat.add_right_comm _ 1]
    exact .plain plain (ih second)
  | feed _ ih =>
    rw [List.drop_succ_cons] at second
    rw [Nat.add_right_comm, Nat.add_right_comm _ 2]
    exact .feed (ih second)

theorem le (reach : Reach cs n n') : n ≤ n' := by
  induction reach with
  | zero => exact Nat.le_refl 0
  | plain _ _ ih => exact Nat.succ_le_succ ih
  | feed _ ih => exact Nat.succ_le_succ (Nat.le_succ_of_le ih)

/-- Characters that are as many in both texts are the same. -/
theorem take_eq (reach : Reach cs n n') (same : n' = n) :
    withReturns (cs.take n) = cs.take n := by
  induction reach with
  | zero => rfl
  | plain plain _ ih =>
    rw [List.take_succ_cons, withReturns_plain plain, ih (Nat.succ.inj same)]
  | feed reach _ =>
    have := reach.le
    omega

/-- Characters that are no line ends are counted the same. -/
theorem takeWhile {p : Char → Bool} (feed : p '\n' = false) (ret : p '\r' = false)
    (cs : List Char) :
    (withReturns cs).takeWhile p = cs.takeWhile p ∧
      Reach cs (cs.takeWhile p).length (cs.takeWhile p).length := by
  induction cs with
  | nil => exact ⟨rfl, .zero⟩
  | cons c cs ih =>
    by_cases plain : c = '\n'
    · subst plain
      rw [withReturns_break, List.takeWhile_cons_of_neg (by simp [ret]),
        List.takeWhile_cons_of_neg (by simp [feed])]
      exact ⟨rfl, .zero⟩
    · rw [withReturns_plain plain]
      cases test : p c with
      | false =>
        rw [List.takeWhile_cons_of_neg (by simp [test]),
          List.takeWhile_cons_of_neg (by simp [test])]
        exact ⟨rfl, .zero⟩
      | true =>
        rw [List.takeWhile_cons_of_pos test, List.takeWhile_cons_of_pos test, ih.1]
        exact ⟨rfl, .plain plain ih.2⟩

end Reach

end Text

/-! ## Pieces -/

namespace Lexeme

open Text

theorem reach_blockRest (cs : List Char) :
    Reach cs (blockRest cs) (blockRest (withReturns cs)) := by
  fun_induction blockRest cs with
  | case1 => exact .zero
  | case2 cs => exact .plain (by decide) (.plain (by decide) .zero)
  | case3 c cs other ih =>
    by_cases feed : c = '\n'
    · subst feed
      rw [withReturns_break]
      have step : blockRest ('\r' :: '\n' :: withReturns cs) =
          blockRest (withReturns cs) + 2 := by
        rw [blockRest, blockRest] <;> simp
      rw [step]
      exact .feed ih
    · have step : blockRest (c :: withReturns cs) = blockRest (withReturns cs) + 1 := by
        rw [blockRest]
        intro ds star slash
        obtain ⟨-, rest, rfl, -⟩ := of_withReturns_eq_cons (by decide) slash
        exact other rest star rfl
      rw [withReturns_plain feed, step]
      exact .plain feed ih

/-- A verbatim literal goes on over line ends. -/
theorem reach_verbatim (cs : List Char) :
    (verbatim (withReturns cs)).closed = (verbatim cs).closed ∧
      Reach cs (verbatim cs).length (verbatim (withReturns cs)).length := by
  fun_induction verbatim cs with
  | case1 => exact ⟨rfl, .zero⟩
  | case2 cs ih =>
    have begins : withReturns ('"' :: '"' :: cs) = '"' :: '"' :: withReturns cs := rfl
    rw [begins, verbatim]
    exact ⟨ih.1, .plain (by decide) (.plain (by decide) ih.2)⟩
  | case3 cs single =>
    have step : verbatim ('"' :: withReturns cs) = ⟨true, 1⟩ := by
      rw [verbatim]
      exact withReturns_ne_cons (by decide) single
    rw [withReturns_plain (by decide), step]
    exact ⟨rfl, .plain (by decide) .zero⟩
  | case4 c cs other plain ih =>
    by_cases feed : c = '\n'
    · subst feed
      have step : verbatim ('\r' :: '\n' :: withReturns cs) =
          (verbatim (withReturns cs)).after 2 := by
        rw [verbatim, verbatim] <;> simp [Literal.after]
      rw [withReturns_break, step]
      exact ⟨ih.1, .feed ih.2⟩
    · have step : verbatim (c :: withReturns cs) = (verbatim (withReturns cs)).after 1 := by
        rw [verbatim]
        · intro ds quote
          exact absurd quote plain
        · exact plain
      rw [withReturns_plain feed, step]
      exact ⟨ih.1, .plain feed ih.2⟩

/-- What is left of both texts where a quoted literal breaks off: it may take the return with it,
even as something escaped. -/
inductive Broken : List Char → List Char → Prop
  | ended : Broken [] []
  | escape : Broken ['\\'] ['\\']
  | feed (rest : List Char) : Broken ('\n' :: rest) ('\n' :: withReturns rest)
  | escapedFeed (rest : List Char) :
    Broken ('\\' :: '\n' :: rest) ('\n' :: withReturns rest)

theorem quoted_cons {quote c : Char} (plain : c ≠ '\\') (cs : List Char) :
    quoted quote (c :: cs) =
      if c = quote then ⟨true, 1⟩
      else if c = '\n' then ⟨false, 0⟩
      else (quoted quote cs).after 1 := by
  rw [quoted]
  · exact fun same _ => plain same
  · exact fun _ _ same _ => plain same

theorem quoted_withReturns {quote : Char} (feed : quote ≠ '\n') (ret : quote ≠ '\r')
    (escape : quote ≠ '\\') (cs : List Char) :
    (quoted quote cs).closed = true ∧ quoted quote (withReturns cs) = quoted quote cs ∧
        Reach cs (quoted quote cs).length (quoted quote cs).length ∨
      (quoted quote cs).closed = false ∧ (quoted quote (withReturns cs)).closed = false ∧
        Broken (cs.drop (quoted quote cs).length)
          ((withReturns cs).drop (quoted quote (withReturns cs)).length) := by
  fun_induction quoted quote cs with
  | case1 => exact Or.inr ⟨rfl, rfl, .ended⟩
  | case2 => exact Or.inr ⟨rfl, rfl, .escape⟩
  | case3 cs =>
    have step : quoted quote ('\\' :: '\r' :: '\n' :: withReturns cs) = ⟨false, 2⟩ := by
      rw [quoted, if_neg (by decide), quoted_cons (by decide), if_neg feed.symm, if_pos rfl]
      rfl
    rw [withReturns_plain (by decide), withReturns_break, step]
    exact Or.inr ⟨rfl, rfl, .escapedFeed cs⟩
  | case4 c cs plain ih =>
    rw [withReturns_plain (by decide), withReturns_plain plain, quoted, if_neg plain]
    rcases ih with ⟨closed, same, reach⟩ | ⟨broken, broken', left⟩
    · exact Or.inl
        ⟨closed, congrArg (Literal.after 2) same, .plain (by decide) (.plain plain reach)⟩
    · exact Or.inr ⟨broken, broken', left⟩
  | case5 cs =>
    rw [withReturns_plain feed, quoted_cons escape, if_pos rfl]
    exact Or.inl ⟨rfl, rfl, .plain feed .zero⟩
  | case6 cs =>
    rw [withReturns_break, quoted_cons (by decide), if_neg ret.symm, if_neg (by decide),
      quoted_cons (by decide), if_neg feed.symm, if_pos rfl]
    exact Or.inr ⟨rfl, rfl, .feed cs⟩
  | case7 c cs single pair other plain ih =>
    have slash : c ≠ '\\' := by
      intro same
      cases cs with
      | nil => exact single same rfl
      | cons next rest => exact pair next rest same rfl
    rw [withReturns_plain plain, quoted_cons slash, if_neg other, if_neg plain]
    rcases ih with ⟨closed, same, reach⟩ | ⟨broken, broken', left⟩
    · exact Or.inl ⟨closed, congrArg (Literal.after 1) same, .plain plain reach⟩
    · exact Or.inr ⟨broken, broken', left⟩

/-- A piece that may go over line ends. -/
def spansLines : Lexeme → Bool
  | .gap => true
  | .token category => category.isComment || category == .stringLiteral
  | .directive => false

/-- The pieces at the front of a text and of the text with returns. -/
inductive Alike (cs : List Char) : Lexeme × Nat → Lexeme × Nat → Prop
  | same {shape : Lexeme} {n : Nat} : Reach cs n n → Alike cs (shape, n) (shape, n)
  | wide {shape : Lexeme} {n n' : Nat} :
    shape.spansLines = true → Reach cs n n' → Alike cs (shape, n) (shape, n')
  | broken {n n' : Nat} :
    Broken (cs.drop n) ((withReturns cs).drop n') → Alike cs (.gap, n) (.gap, n')

theorem Alike.plain {c : Char} {cs : List Char} {shape shape' : Lexeme} {n n' : Nat}
    (alike : Alike cs (shape, n) (shape', n')) (plain : c ≠ '\n') :
    Alike (c :: cs) (shape, n + 1) (shape', n' + 1) := by
  cases alike with
  | same reach => exact .same (.plain plain reach)
  | wide lines reach => exact .wide lines (.plain plain reach)
  | broken left =>
    refine .broken ?_
    rw [withReturns_plain plain, List.drop_succ_cons, List.drop_succ_cons]
    exact left

theorem alike_quoted {quote : Char} (feed : quote ≠ '\n') (ret : quote ≠ '\r')
    (escape : quote ≠ '\\') (cs : List Char) :
    Alike cs (quoted quote cs).lexeme (quoted quote (withReturns cs)).lexeme := by
  rcases quoted_withReturns feed ret escape cs with
    ⟨closed, same, reach⟩ | ⟨broken, broken', left⟩
  · rw [same]
    exact .same reach
  · unfold Literal.lexeme
    rw [broken, broken']
    exact .broken left

theorem alike_verbatim (cs : List Char) :
    Alike cs (verbatim cs).lexeme (verbatim (withReturns cs)).lexeme := by
  obtain ⟨closed, reach⟩ := reach_verbatim cs
  unfold Literal.lexeme
  rw [closed]
  refine .wide ?_ reach
  split <;> rfl

theorem restOfLine_withReturns (cs : List Char) :
    restOfLine (withReturns cs) = restOfLine cs ∧ Reach cs (restOfLine cs) (restOfLine cs) := by
  have clean := Reach.takeWhile (p := (!isLineEnd ·)) rfl rfl cs
  unfold restOfLine
  rw [clean.1]
  exact ⟨rfl, clean.2⟩

theorem blockCategory_withReturns (cs : List Char) :
    blockCategory (withReturns cs) = blockCategory cs := by
  fun_cases blockCategory cs with
  | case1 cs => rfl
  | case2 cs other =>
    rw [withReturns_plain (by decide), blockCategory]
    exact withReturns_ne_cons (by decide) other
  | case3 cs other single =>
    rw [blockCategory]
    · exact fun _ => withReturns_ne_cons (by decide) single _
    · exact withReturns_ne_cons (by decide) single

theorem alike_slash (cs : List Char) : Alike cs (slash cs) (slash (withReturns cs)) := by
  fun_cases slash cs with
  | case1 cs =>
    obtain ⟨same, reach⟩ := restOfLine_withReturns cs
    have begins : withReturns ('/' :: '/' :: cs) = '/' :: '/' :: withReturns cs := rfl
    rw [begins, slash, same, Nat.add_comm]
    exact .same (.plain (by decide) (.plain (by decide) reach))
  | case2 cs other =>
    obtain ⟨same, reach⟩ := restOfLine_withReturns cs
    rw [withReturns_plain (by decide), slash, same, Nat.add_comm]
    · exact .same (.plain (by decide) reach)
    · exact withReturns_ne_cons (by decide) other
  | case3 cs =>
    rw [withReturns_plain (by decide), slash, blockCategory_withReturns, Nat.add_comm,
      Nat.add_comm 1]
    refine .wide ?_ (.plain (by decide) (reach_blockRest cs))
    rw [spansLines, isComment_blockCategory, Bool.true_or]
  | case4 cs =>
    rw [withReturns_plain (by decide), slash]
    exact .same (.plain (by decide) .zero)
  | case5 cs double line block equal =>
    rw [slash]
    · exact .same .zero
    · exact fun _ => withReturns_ne_cons (by decide) line _
    · exact withReturns_ne_cons (by decide) line
    · exact withReturns_ne_cons (by decide) block
    · exact withReturns_ne_cons (by decide) equal

theorem alike_numberSign (cs : List Char) :
    Alike cs (numberSign cs) (numberSign (withReturns cs)) := by
  have blanks := Reach.takeWhile (p := fun c => c == ' ' || c == '\t') rfl rfl cs
  have letters := Reach.takeWhile (p := Char.isAlpha) rfl rfl
    (cs.drop (cs.takeWhile fun c => c == ' ' || c == '\t').length)
  unfold numberSign
  dsimp only
  rw [blanks.1, blanks.2.drop, letters.1]
  exact .same (blanks.2.append letters.2)

theorem alike_dollar (cs : List Char) : Alike cs (dollar cs) (dollar (withReturns cs)) := by
  fun_cases dollar cs with
  | case1 cs =>
    rw [withReturns_plain (by decide), dollar]
    exact (alike_quoted (by decide) (by decide) (by decide) cs).plain (by decide)
  | case2 cs =>
    have begins : withReturns ('@' :: '"' :: cs) = '@' :: '"' :: withReturns cs := rfl
    rw [begins, dollar, Nat.add_comm, Nat.add_comm 2]
    exact .wide rfl (.plain (by decide) (.plain (by decide) (reach_verbatim cs).2))
  | case3 cs single =>
    rw [withReturns_plain (by decide), dollar]
    · exact .same (.plain (by decide) .zero)
    · exact withReturns_ne_cons (by decide) single
  | case4 cs quote both single =>
    rw [dollar]
    · exact .same .zero
    · exact withReturns_ne_cons (by decide) quote
    · exact fun ds => withReturns_ne_cons (by decide) single _
    · exact withReturns_ne_cons (by decide) single

theorem atSign_cons {c : Char} (quote : c ≠ '"') (dollar : c ≠ '$') (cs : List Char) :
    atSign (c :: cs) =
      if Word.isHead c then (.token .identifier, 1 + (cs.takeWhile Word.isTail).length)
      else (.gap, 0) := by
  rw [atSign]
  · exact quote
  · exact fun _ same _ => dollar same
  · exact dollar

theorem alike_atSign (cs : List Char) : Alike cs (atSign cs) (atSign (withReturns cs)) := by
  fun_cases atSign cs with
  | case1 cs =>
    rw [withReturns_plain (by decide), atSign]
    exact (alike_verbatim cs).plain (by decide)
  | case2 cs =>
    have begins : withReturns ('$' :: '"' :: cs) = '$' :: '"' :: withReturns cs := rfl
    rw [begins, atSign, Nat.add_comm, Nat.add_comm 2]
    exact .wide rfl (.plain (by decide) (.plain (by decide) (reach_verbatim cs).2))
  | case3 cs single =>
    rw [withReturns_plain (by decide), atSign]
    · exact .same (.plain (by decide) .zero)
    · exact withReturns_ne_cons (by decide) single
  | case4 c cs quote _ dollar head =>
    have plain : c ≠ '\n' := by
      rintro rfl
      cases head
    have tail := Reach.takeWhile (p := Word.isTail) rfl rfl cs
    rw [withReturns_plain plain, atSign_cons quote dollar, if_pos head, tail.1, Nat.add_comm]
    exact .same (.plain plain tail.2)
  | case5 c cs quote _ dollar head =>
    by_cases feed : c = '\n'
    · subst feed
      exact .same .zero
    · rw [withReturns_plain feed, atSign_cons quote dollar, if_neg head]
      exact .same .zero
  | case6 => exact .same .zero

/-- A fraction needs a digit, which no line end is. -/
theorem numberRest_withReturns (cs : List Char) :
    numberRest (withReturns cs) = numberRest cs ∧ Reach cs (numberRest cs) (numberRest cs) := by
  obtain ⟨same, reach⟩ := Reach.takeWhile (p := Word.isTail) rfl rfl cs
  unfold numberRest
  dsimp only
  rw [same, reach.drop]
  split
  next d ds begins =>
    obtain ⟨-, rest, found, behind⟩ := of_withReturns_eq_cons (by decide) begins
    rw [found]
    cases rest with
    | nil => cases behind
    | cons x rest =>
      by_cases feed : x = '\n'
      · subst feed
        cases behind
        exact ⟨rfl, reach⟩
      · rw [withReturns_plain feed] at behind
        obtain ⟨rfl, rfl⟩ := List.cons.inj behind
        obtain ⟨same', reach'⟩ := Reach.takeWhile (p := Word.isTail) rfl rfl rest
        rw [same']
        refine ⟨rfl, ?_⟩
        show Reach cs (if d.isDigit then _ else _) (if d.isDigit then _ else _)
        split
        next =>
          rw [Nat.add_assoc, Nat.add_comm 2]
          refine reach.append ?_
          rw [found]
          exact .plain (by decide) (.plain feed reach')
        next => exact reach
  next other =>
    split
    next d ds found =>
      rw [found, withReturns_plain (by decide)] at other
      by_cases feed : d = '\n'
      · subst feed
        exact absurd rfl (other '\r' ('\n' :: withReturns ds))
      · exact absurd (congrArg _ (withReturns_plain feed ds)) (other d (withReturns ds))
    next => exact ⟨rfl, reach⟩

theorem alike_lexeme (c : Char) (cs : List Char) :
    Alike cs (lexeme c cs) (lexeme c (withReturns cs)) := by
  obtain ⟨number, reach_number⟩ := numberRest_withReturns cs
  obtain ⟨tail, reach_tail⟩ := Reach.takeWhile (p := Word.isTail) rfl rfl cs
  obtain ⟨operator, reach_operator⟩ := Reach.takeWhile (p := isOperator) rfl rfl cs
  unfold lexeme
  split
  · exact alike_slash cs
  · exact alike_numberSign cs
  · exact alike_quoted (by decide) (by decide) (by decide) cs
  · exact alike_quoted (by decide) (by decide) (by decide) cs
  · exact alike_dollar cs
  · exact alike_atSign cs
  · rw [number, tail, operator]
    repeat' split
    · exact .same reach_number
    · exact .same reach_tail
    · exact .same .zero
    · exact .same reach_operator
    · exact .same .zero

end Lexeme

/-! ## Tokens -/

section Tokens

open Text

/-- Two characters that stand at the front of a text also do with returns, and the other way
round. -/
theorem Text.isPrefixOf_flatMap {write : Char → List Char} {a b x : Char} {more : List Char}
    (plain : ∀ c, c ≠ '\n' → write c = [c]) (feed : write '\n' = x :: more) (first : a ≠ '\n')
    (second : b ≠ '\n') (first' : a ≠ x) (second' : b ≠ x) (cs : List Char) :
    [a, b].isPrefixOf (cs.flatMap write) = [a, b].isPrefixOf cs := by
  have front : ∀ {y : Char} (rest cs : List Char), y ≠ '\n' → y ≠ x →
      (∀ cs : List Char, rest.isPrefixOf (cs.flatMap write) = rest.isPrefixOf cs) →
      (y :: rest).isPrefixOf (cs.flatMap write) = (y :: rest).isPrefixOf cs := by
    intro y rest cs other other' ih
    cases cs with
    | nil => rfl
    | cons c cs =>
      rw [List.flatMap_cons]
      by_cases same : c = '\n'
      · subst same
        rw [feed, List.cons_append, List.isPrefixOf_cons_cons, List.isPrefixOf_cons_cons,
          beq_false_of_ne other, beq_false_of_ne other', Bool.false_and, Bool.false_and]
      · rw [plain c same, List.singleton_append, List.isPrefixOf_cons_cons,
          List.isPrefixOf_cons_cons, ih]
  exact front [b] cs first first' fun cs => front [] cs second second' fun _ => by simp

/-- A comment of less than four bytes with both its marks has no room for a line feed. -/
theorem Text.byteLength_lt_four_iff {text : List Char}
    (begins : ['/', '*'].isPrefixOf text = true) (ends : ['*', '/'].isSuffixOf text = true) :
    byteLength (withReturns text) < 4 ↔ byteLength text < 4 := by
  have longer := byteLength_withReturns text
  refine ⟨fun few => by omega, fun few => ?_⟩
  obtain ⟨inner, rfl⟩ := List.isPrefixOf_iff_prefix.1 begins
  match inner with
  | [] => cases ends
  | [c] =>
    have last : ('/' == c) = true := (Bool.and_eq_true_iff.1 ends).1
    obtain rfl := beq_iff_eq.1 last
    exact few
  | a :: b :: rest =>
    have widths : ('/' : Char).utf8Size = 1 ∧ ('*' : Char).utf8Size = 1 := ⟨rfl, rfl⟩
    have := a.utf8Size_pos
    have := b.utf8Size_pos
    simp only [List.cons_append, List.nil_append, byteLength_cons] at few
    omega

theorem isUnclosedComment_withReturns (o o' : Nat) (category : Category) (text : List Char) :
    (Token.at o' category (withReturns text)).isUnclosedComment =
      (Token.at o category text).isUnclosedComment := by
  have plain : ∀ c, c ≠ '\n' → withReturn c = [c] := fun c plain => if_neg plain
  have front : ['/', '*'].isPrefixOf (withReturns text) = ['/', '*'].isPrefixOf text :=
    Text.isPrefixOf_flatMap plain rfl (by decide) (by decide) (by decide) (by decide) text
  have back : ['*', '/'].isSuffixOf (withReturns text) = ['*', '/'].isSuffixOf text := by
    have turned : ∀ c, c ≠ '\n' → (List.reverse ∘ withReturn) c = [c] := by
      intro c other
      rw [Function.comp_apply, plain c other, List.reverse_singleton]
    unfold List.isSuffixOf
    rw [List.reverse_flatMap]
    exact Text.isPrefixOf_flatMap turned rfl (by decide) (by decide) (by decide) (by decide) _
  unfold Token.isUnclosedComment
  show (['/', '*'].isPrefixOf (withReturns text) && (decide (byteLength (withReturns text) < 4) ||
      !(['*', '/'].isSuffixOf (withReturns text)))) =
    (['/', '*'].isPrefixOf text &&
      (decide (byteLength text < 4) || !(['*', '/'].isSuffixOf text)))
  rw [front, back]
  cases begins : ['/', '*'].isPrefixOf text with
  | false => rfl
  | true =>
    cases ends : ['*', '/'].isSuffixOf text with
    | false => rw [Bool.not_false, Bool.or_true, Bool.or_true]
    | true => rw [decide_eq_decide.2 (Text.byteLength_lt_four_iff begins ends)]

variable {d : Document} {front piece rest : List Char}

/-- A piece at the same place of both texts. -/
theorem Document.relaid_at (text : d.text = front ++ (piece ++ rest)) (category : Category)
    (same : category.isComment = false → category ≠ .stringLiteral → withReturns piece = piece) :
    Token.Relaid (d.WrittenAt [] withReturn) (Token.at (byteLength front) category piece)
      (Token.at (byteLength (withReturns front)) category (withReturns piece)) where
  category := rfl
  start := ⟨front, piece ++ rest, text, rfl, rfl⟩
  stop := by
    refine ⟨front ++ piece, rest, by rw [text, List.append_assoc], byteLength_append _ _, ?_⟩
    rw [List.flatMap_append, List.nil_append, byteLength_append]
    rfl
  text := same
  unclosed := isUnclosedComment_withReturns _ _ category piece

/-- The text of a directive is the same in both, at another offset. -/
theorem Document.relaid_directiveTokens (text : d.text = front ++ (piece ++ rest))
    (clean : ∀ x ∈ piece, x ≠ '\n' ∧ x ≠ '\r') :
    List.Forall₂ (Token.Relaid (d.WrittenAt [] withReturn))
      (directiveTokens (byteLength front) piece)
      (directiveTokens (byteLength (withReturns front)) piece) := by
  rw [byteLength_withReturns, directiveTokens_add, List.forall₂_map_right_iff, List.forall₂_same]
  intro t member
  have laid :=
    laid_directiveTokens clean (.done : Laid (byteLength front + byteLength piece) [] [])
  obtain ⟨before, after, cut, starts, stops, -⟩ :=
    laid.around (List.mem_append_left [] member)
  rw [List.append_nil] at cut
  have place : ∀ part behind, piece = part ++ behind →
      d.WrittenAt [] withReturn (byteLength front + byteLength part)
        (byteLength front + byteLength part + front.count '\n') := by
    intro part behind split
    have plain : '\n' ∉ part := by
      intro feed
      exact (clean '\n' (by rw [split]; exact List.mem_append_left _ feed)).1 rfl
    have kept : part.flatMap withReturn = part := withReturns_eq_self plain
    refine ⟨front ++ part, behind ++ rest, ?_, byteLength_append _ _, ?_⟩
    · rw [text, split, List.append_assoc, List.append_assoc]
    · rw [List.nil_append, List.flatMap_append, byteLength_append, byteLength_withReturns, kept,
        Nat.add_right_comm]
  refine ⟨rfl, ?_, ?_, fun _ _ => rfl, rfl⟩
  · rw [← starts]
    show d.WrittenAt [] withReturn _ (t.start + front.count '\n')
    rw [← starts]
    exact place before (t.text ++ after) (by rw [cut, List.append_assoc])
  · rw [← stops]
    show d.WrittenAt [] withReturn _ (t.stop + front.count '\n')
    rw [← stops]
    exact place (before ++ t.text) after cut

/-- From a place on, both texts have the same tokens. -/
def Document.TokensRelaid (d : Document) (front cs : List Char) : Prop :=
  List.Forall₂ (Token.Relaid (d.WrittenAt [] withReturn)) (classifyFrom (byteLength front) cs)
    (classifyFrom (byteLength (withReturns front)) (withReturns cs))

section Pieces

variable {c : Char} {cs : List Char} {n n' : Nat}

/-- Where a piece that is alike in both texts ends. -/
theorem withReturns_piece (plain : c ≠ '\n') (reach : Reach cs n n') (front : List Char) :
    byteLength (withReturns front) + byteLength (c :: (withReturns cs).take n') =
      byteLength (withReturns (front ++ c :: cs.take n)) := by
  have piece : c :: (withReturns cs).take n' = withReturns (c :: cs.take n) := by
    rw [reach.take, withReturns_plain plain]
  rw [piece, ← byteLength_append, ← withReturns_append]

theorem Document.TokensRelaid.token {category : Category} (plain : c ≠ '\n')
    (text : d.text = front ++ c :: cs) (found : lexeme c cs = (.token category, n))
    (found' : lexeme c (withReturns cs) = (.token category, n')) (reach : Reach cs n n')
    (same : category.isComment = false → category ≠ .stringLiteral → n' = n)
    (next : d.TokensRelaid (front ++ c :: cs.take n) (cs.drop n)) :
    d.TokensRelaid front (c :: cs) := by
  have cut : c :: cs = (c :: cs.take n) ++ cs.drop n := by
    rw [List.cons_append, List.take_append_drop]
  have piece : c :: (withReturns cs).take n' = withReturns (c :: cs.take n) := by
    rw [reach.take, withReturns_plain plain]
  unfold Document.TokensRelaid
  rw [withReturns_plain plain, classifyFrom_token found, classifyFrom_token found',
    withReturns_piece plain reach, ← byteLength_append, reach.drop, piece]
  refine .cons (Document.relaid_at (text.trans (congrArg _ cut)) category ?_) next
  intro other literal
  rw [withReturns_plain plain, reach.take_eq (same other literal)]

theorem Document.TokensRelaid.gap (plain : c ≠ '\n') (found : lexeme c cs = (.gap, n))
    (found' : lexeme c (withReturns cs) = (.gap, n')) (reach : Reach cs n n')
    (next : d.TokensRelaid (front ++ c :: cs.take n) (cs.drop n)) :
    d.TokensRelaid front (c :: cs) := by
  unfold Document.TokensRelaid
  rw [withReturns_plain plain, classifyFrom_gap found, classifyFrom_gap found',
    withReturns_piece plain reach, ← byteLength_append, reach.drop]
  exact next

theorem Document.TokensRelaid.feed (next : d.TokensRelaid (front ++ ['\n']) cs) :
    d.TokensRelaid front ('\n' :: cs) := by
  have after : byteLength (withReturns (front ++ ['\n'])) =
      byteLength (withReturns front) + '\r'.utf8Size + '\n'.utf8Size := by
    rw [withReturns_append, byteLength_append]
    rfl
  unfold Document.TokensRelaid at next ⊢
  rw [after, byteLength_append] at next
  rw [withReturns_break, classifyFrom_skip rfl, classifyFrom_skip rfl, classifyFrom_skip rfl]
  exact next

theorem Document.TokensRelaid.directive {line : List Char} (plain : c ≠ '\n')
    (text : d.text = front ++ c :: cs) (found : lexeme c cs = (.directive, n))
    (found' : lexeme c (withReturns cs) = (.directive, n)) (reach : Reach cs n n)
    (lined : line = (cs.drop n).take (Lexeme.restOfLine (cs.drop n)))
    (next : d.TokensRelaid (front ++ (c :: cs.take n ++ line))
      ((cs.drop n).drop (Lexeme.restOfLine (cs.drop n)))) :
    d.TokensRelaid front (c :: cs) := by
  rw [← List.append_assoc] at next
  obtain ⟨width, reach_line⟩ := Lexeme.restOfLine_withReturns (cs.drop n)
  have kept : withReturns line = line := by
    rw [lined]
    exact reach_line.take_eq rfl
  have piece : c :: (withReturns cs).take n = withReturns (c :: cs.take n) := by
    rw [reach.take, withReturns_plain plain]
  have after : byteLength (withReturns (front ++ c :: cs.take n)) + byteLength line =
      byteLength (withReturns (front ++ c :: cs.take n ++ line)) := by
    rw [withReturns_append _ line, kept, byteLength_append]
  have cut : c :: cs = (c :: cs.take n) ++
      (line ++ (cs.drop n).drop (Lexeme.restOfLine (cs.drop n))) := by
    rw [lined, List.take_append_drop, List.cons_append, List.take_append_drop]
  have clean : ∀ x ∈ line, x ≠ '\n' ∧ x ≠ '\r' := by
    rw [lined]
    exact Lexeme.restOfLine_clean _
  have keyword := Document.relaid_at (text.trans (congrArg _ cut)) .preprocessorKeyword
    fun _ _ => by rw [withReturns_plain plain, reach.take_eq rfl]
  have rest := Document.relaid_directiveTokens
    (text.trans ((congrArg _ cut).trans (List.append_assoc _ _ _).symm)) clean
  unfold Document.TokensRelaid at next ⊢
  rw [withReturns_plain plain, classifyFrom_directive found, classifyFrom_directive found',
    withReturns_piece plain reach, ← byteLength_append, reach.drop, width, reach_line.take,
    reach_line.drop, ← lined, kept, after, ← byteLength_append, piece]
  exact .cons keyword (List.rel_append rest next)

/-- After a literal that breaks off, the texts are read on from the same line. -/
theorem Document.TokensRelaid.broken (plain : c ≠ '\n') (found : lexeme c cs = (.gap, n))
    (found' : lexeme c (withReturns cs) = (.gap, n'))
    (left : Lexeme.Broken (cs.drop n) ((withReturns cs).drop n'))
    (next : ∀ lost rest, c :: cs = lost ++ rest → lost ≠ [] →
      d.TokensRelaid (front ++ lost) rest) : d.TokensRelaid front (c :: cs) := by
  have cut : c :: cs = (c :: cs.take n) ++ cs.drop n := by
    rw [List.cons_append, List.take_append_drop]
  have cut' : c :: withReturns cs =
      (c :: (withReturns cs).take n') ++ (withReturns cs).drop n' := by
    rw [List.cons_append, List.take_append_drop]
  -- what the second text has lost ends in the line feed that both are read on from
  have resume : ∀ lost rest, cs.drop n = lost ++ rest →
      (withReturns cs).drop n' = '\n' :: withReturns rest →
      List.Forall₂ (Token.Relaid (d.WrittenAt [] withReturn))
        (classifyFrom (byteLength front + byteLength (c :: cs.take n) + byteLength lost) rest)
        (classifyFrom (byteLength (withReturns front) +
          byteLength (c :: (withReturns cs).take n') + '\n'.utf8Size) (withReturns rest)) := by
    intro lost rest behind behind'
    have split : c :: cs = (c :: cs.take n ++ lost) ++ rest := by
      rw [cut, behind, List.append_assoc]
    have whole := congrArg byteLength cut'
    rw [← withReturns_plain plain, split, withReturns_append, behind', byteLength_append,
      byteLength_append, byteLength_cons '\n'] at whole
    have onward : d.TokensRelaid (front ++ (c :: cs.take n ++ lost)) rest :=
      next _ _ split (by simp)
    unfold Document.TokensRelaid at onward
    rw [withReturns_append, byteLength_append, byteLength_append, byteLength_append,
      ← Nat.add_assoc] at onward
    have place : byteLength (withReturns front) + byteLength (c :: (withReturns cs).take n') +
        '\n'.utf8Size = byteLength (withReturns front) +
          byteLength (withReturns (c :: cs.take n ++ lost)) := by omega
    rw [place]
    exact onward
  unfold Document.TokensRelaid
  rw [withReturns_plain plain, classifyFrom_gap found, classifyFrom_gap found']
  generalize behind : cs.drop n = rest at left resume ⊢
  generalize behind' : (withReturns cs).drop n' = rest' at left resume ⊢
  cases left with
  | ended =>
    rw [classifyFrom, classifyFrom]
    exact .nil
  | escape =>
    rw [classifyFrom_skip rfl, classifyFrom_skip rfl, classifyFrom, classifyFrom]
    exact .nil
  | feed rest =>
    rw [classifyFrom_skip rfl, classifyFrom_skip rfl]
    exact resume ['\n'] rest rfl rfl
  | escapedFeed rest =>
    rw [classifyFrom_skip rfl, classifyFrom_skip rfl, classifyFrom_skip rfl]
    exact resume ['\\', '\n'] rest rfl rfl

end Pieces

/-- Both texts have the same tokens, though not the same gaps. -/
theorem Document.tokensRelaid {cs : List Char} (text : d.text = front ++ cs) :
    d.TokensRelaid front cs := by
  induction size : cs.length using Nat.strong_induction_on generalizing front cs with
  | _ size ih =>
    cases cs with
    | nil =>
      show List.Forall₂ _ (classifyFrom _ []) (classifyFrom _ [])
      rw [classifyFrom, classifyFrom]
      exact .nil
    | cons c cs =>
      have next : ∀ lost rest, c :: cs = lost ++ rest → lost ≠ [] →
          d.TokensRelaid (front ++ lost) rest := by
        intro lost rest cut some
        refine ih rest.length ?_ (by rw [text, cut, List.append_assoc]) rfl
        have := congrArg List.length cut
        have := List.length_pos_of_ne_nil some
        rw [List.length_append] at *
        omega
      by_cases feed : c = '\n'
      · subst feed
        exact (next ['\n'] cs rfl (by simp)).feed
      · have piece : d.TokensRelaid (front ++ c :: cs.take (lexeme c cs).2)
            (cs.drop (lexeme c cs).2) :=
          next _ _ (by rw [List.cons_append, List.take_append_drop]) (List.cons_ne_nil _ _)
        have alike := Lexeme.alike_lexeme c cs
        generalize found : lexeme c cs = here at alike piece
        generalize found' : lexeme c (withReturns cs) = here' at alike
        cases alike with
        | @same shape n reach =>
          cases shape with
          | gap => exact piece.gap feed found found' reach
          | token category =>
            exact piece.token feed text found found' reach fun _ _ => rfl
          | directive =>
            refine .directive feed text found found' reach rfl (next _ _ ?_ (by simp))
            rw [List.append_assoc, List.take_append_drop, List.cons_append, List.take_append_drop]
        | @wide shape n n' lines reach =>
          cases shape with
          | gap => exact piece.gap feed found found' reach
          | token category =>
            refine piece.token feed text found found' reach fun other literal => ?_
            rw [Lexeme.spansLines, other, beq_false_of_ne literal] at lines
            cases lines
          | directive => cases lines
        | broken left => exact .broken feed found found' left next

end Tokens

/-! ## Outlines -/

/-- A text with a carriage return before every line feed is the same code in another layout. -/
theorem Document.relaid_withReturns {d d' : Document} (clean : '\r' ∉ d.text)
    (text : d'.text = Text.withReturns d.text) :
    Relaid 0 (d.WrittenAt [] Text.withReturn) d d' := by
  have lines : Text.cutLines d'.text =
      [] ++ (Text.cutLines d.text).map (Text.writeLine Text.withReturn) := by
    rw [text, Text.cutLines_withReturns clean, List.nil_append]
  have shown : ∀ c, Text.withReturn c ≠ [] := by
    intro c
    unfold Text.withReturn
    split <;> exact List.cons_ne_nil _ _
  have blank : ∀ c, Text.allBlank (Text.withReturn c) = Text.isBlank c := by
    intro c
    by_cases feed : c = '\n'
    · subst feed
      decide
    · rw [Text.withReturn, if_neg feed]
      exact Bool.and_true _
  have tokens : List.Forall₂ (Token.Relaid (d.WrittenAt [] Text.withReturn)) (classify d.text)
      (classify d'.text) := by
    have whole : d.TokensRelaid [] d.text := Document.tokensRelaid rfl
    rw [text]
    exact whole
  exact Relaid.of_written lines (fun _ member => absurd member List.not_mem_nil) shown blank
    tokens

/-- Regions that differ in their offsets only. -/
structure Region.SameLines (r r' : Region) : Prop where
  kind : r'.kind = r.kind
  startLine : r'.startLine = r.startLine
  endLine : r'.endLine = r.endLine
  depth : r'.depth = r.depth
  fromPriorLine : r'.fromPriorLine = r.fromPriorLine

/-- A text without carriage returns, and the text with one before every line feed: both outlines
list the same regions on the same lines at the same depths. -/
theorem outline_withReturns (options : ScanOptions) (session session' : SessionId)
    (version version' : Nat) (text : List Char) (clean : '\r' ∉ text) :
    let d := Document.ofText version text
    let d' := Document.ofText version' (Text.withReturns text)
    ∃ o o', Outline.ofTokens options session d (classify d.text) = .ok o ∧
      Outline.ofTokens options session' d' (classify d'.text) = .ok o' ∧
      List.Forall₂ Region.SameLines o.regions o'.regions := by
  intro d d'
  have laid := Document.relaid_withReturns (show '\r' ∉ d.text from clean)
    (show d'.text = Text.withReturns d.text from rfl)
  obtain ⟨o, o', listed, listed', all⟩ := laid.outlines options session session'
  refine ⟨o, o', listed, listed', all.imp fun r r' pair => ?_⟩
  exact ⟨pair.kind, pair.startLine, pair.endLine, pair.depth, pair.fromPriorLine⟩

/-- A comment over two lines, a literal that breaks off with an escape, and a block. -/
theorem outline_withReturns_literal :
    let d := Document.ofText 0 "/*\n*/ \"a\\\n\x7b\n\x7d".toList
    let d' := Document.ofText 0 (Text.withReturns d.text)
    '\r' ∉ d.text ∧
    ∃ o o', Outline.ofTokens {} 0 d (classify d.text) = .ok o ∧
      Outline.ofTokens {} 0 d' (classify d'.text) = .ok o' ∧
      o.regions = [⟨.comment, ⟨0, 5, by decide⟩, 0, 1, 0, false⟩,
        ⟨.block, ⟨10, 13, by decide⟩, 2, 3, 0, true⟩] ∧
      List.Forall₂ Region.SameLines o.regions o'.regions := by
  intro d d'
  have clean : '\r' ∉ d.text := by decide
  obtain ⟨o, o', listed, listed', all⟩ := outline_withReturns {} 0 0 0 0 d.text clean
  have found : (Tree.ofTokens {} d (classify d.text)).flatten d =
      .ok [⟨.comment, ⟨0, 5, by decide⟩, 0, 1, 0, false⟩,
        ⟨.block, ⟨10, 13, by decide⟩, 2, 3, 0, true⟩] := by decide +kernel
  obtain ⟨shown, flat, rfl⟩ := Outline.ofTokens_eq_ok_iff.1 listed
  exact ⟨clean, _, o', listed, listed', Except.ok.inj (flat.symm.trans found), all⟩

end CodeFolding
