import Mathlib
import CodeFolding.Proofs.Places
import CodeFolding.Token.Classify

/-!
# Token streams

A stream is well formed (`Token.WellFormed`) when its tokens come in order without overlap, none
is empty, and each has the text of its span.  Classification gives such streams
(`classify_wellFormed`), and its tokens have more: they start with a visible character, end
visibly or with the document, and punctuation is one character (`classify_lexed`).
-/

namespace CodeFolding

namespace Token

/-- Tokens in order and apart, each with bytes and with the text of its span. -/
structure WellFormed (d : Document) (tokens : List Token) : Prop where
  apart : tokens.Pairwise fun a b => a.stop ≤ b.start
  nonempty : ∀ t ∈ tokens, t.start < t.stop
  slice : ∀ t ∈ tokens, d.slice t.span = .ok t.text

/-- Tokens in order of their starts, each with bytes and with the text of its span; they may
overlap. -/
structure Ordered (d : Document) (tokens : List Token) : Prop where
  sorted : tokens.Pairwise fun a b => a.start ≤ b.start
  nonempty : ∀ t ∈ tokens, t.start < t.stop
  slice : ∀ t ∈ tokens, d.slice t.span = .ok t.text

/-- Tokens in order and apart, each with bytes and between two boundaries; their texts may be
anything. -/
structure Placed (d : Document) (tokens : List Token) : Prop where
  apart : tokens.Pairwise fun a b => a.stop ≤ b.start
  nonempty : ∀ t ∈ tokens, t.start < t.stop
  boundary : ∀ t ∈ tokens, d.Boundary t.start ∧ d.Boundary t.stop

/-- Starts grow along the stream. -/
theorem Placed.sorted {d : Document} {tokens : List Token} (placed : Placed d tokens) :
    tokens.Pairwise fun a b => a.start < b.start := by
  refine placed.apart.imp_of_mem ?_
  intro a b left _ le
  exact Nat.lt_of_lt_of_le (placed.nonempty a left) le

/-- The text of the document around a token. -/
theorem exists_around {d : Document} {t : Token} (sliced : d.slice t.span = .ok t.text) :
    ∃ front rest, d.text = front ++ t.text ++ rest ∧ Text.byteLength front = t.start ∧
      Text.byteLength (front ++ t.text) = t.stop := by
  unfold Document.slice at sliced
  cases found : Text.slice? t.span.start t.span.stop d.text with
  | none => rw [found] at sliced; cases sliced
  | some text =>
    rw [found] at sliced
    cases sliced
    exact Text.slice?_eq_some_iff.1 found

theorem slice_eq_of_around {d : Document} {t : Token} {front rest : List Char}
    (text : d.text = front ++ t.text ++ rest) (starts : Text.byteLength front = t.start)
    (stops : Text.byteLength (front ++ t.text) = t.stop) : d.slice t.span = .ok t.text := by
  have found : Text.slice? t.span.start t.span.stop d.text = some t.text :=
    Text.slice?_eq_some_iff.2 ⟨front, rest, text, starts, stops⟩
  unfold Document.slice
  rw [found]

namespace Ordered

variable {d : Document} {tokens : List Token} {t : Token}

theorem boundary_start (ordered : Ordered d tokens) (member : t ∈ tokens) :
    d.Boundary t.start := by
  obtain ⟨front, rest, text, starts, -⟩ := exists_around (ordered.slice t member)
  exact ⟨front, t.text ++ rest, by rw [text, List.append_assoc], starts⟩

theorem boundary_stop (ordered : Ordered d tokens) (member : t ∈ tokens) :
    d.Boundary t.stop := by
  obtain ⟨front, rest, text, -, stops⟩ := exists_around (ordered.slice t member)
  exact ⟨front ++ t.text, rest, text, stops⟩

theorem stop_le_length (ordered : Ordered d tokens) (member : t ∈ tokens) :
    t.stop ≤ d.length :=
  (ordered.boundary_stop member).le_length

theorem start_lt_length (ordered : Ordered d tokens) (member : t ∈ tokens) :
    t.start < d.length :=
  Nat.lt_of_lt_of_le (ordered.nonempty t member) (ordered.stop_le_length member)

end Ordered

namespace WellFormed

variable {d : Document} {tokens : List Token} {t : Token}

theorem ordered (formed : WellFormed d tokens) : Ordered d tokens where
  sorted := by
    refine formed.apart.imp_of_mem ?_
    intro a b left _ le
    exact Nat.le_trans (Nat.le_of_lt (formed.nonempty a left)) le
  nonempty := formed.nonempty
  slice := formed.slice

theorem boundary_start (formed : WellFormed d tokens) (member : t ∈ tokens) :
    d.Boundary t.start :=
  formed.ordered.boundary_start member

theorem boundary_stop (formed : WellFormed d tokens) (member : t ∈ tokens) :
    d.Boundary t.stop :=
  formed.ordered.boundary_stop member

theorem stop_le_length (formed : WellFormed d tokens) (member : t ∈ tokens) :
    t.stop ≤ d.length :=
  formed.ordered.stop_le_length member

theorem start_lt_length (formed : WellFormed d tokens) (member : t ∈ tokens) :
    t.start < d.length :=
  formed.ordered.start_lt_length member

theorem placed (formed : WellFormed d tokens) : Placed d tokens where
  apart := formed.apart
  nonempty := formed.nonempty
  boundary := fun _ member => ⟨formed.boundary_start member, formed.boundary_stop member⟩

theorem sorted (formed : WellFormed d tokens) :
    tokens.Pairwise fun a b => a.start < b.start :=
  formed.placed.sorted

/-- A place inside the text of a token is a boundary before its end. -/
theorem boundary_inside (formed : WellFormed d tokens) (member : t ∈ tokens)
    {front rest : List Char} (split : t.text = front ++ rest) :
    d.Boundary (t.start + Text.byteLength front) := by
  obtain ⟨before, after, text, starts, -⟩ := exists_around (formed.slice t member)
  refine ⟨before ++ front, rest ++ after, ?_, ?_⟩
  · rw [text, split]
    simp only [List.append_assoc]
  · rw [Text.byteLength_append, starts]

/-- If the token before a token ends on an earlier line, all tokens before it do. -/
theorem lineOf_stop_lt {done later : List Token} (formed : WellFormed d (done ++ t :: later))
    (leads : ∀ u ∈ done.getLast?, d.lineOf u.stop < d.lineOf t.start) {u : Token}
    (member : u ∈ done) : d.lineOf u.stop < d.lineOf t.start := by
  rcases List.eq_nil_or_concat done with none | ⟨front, last, ends⟩
  · rw [none] at member
    exact absurd member List.not_mem_nil
  · rw [List.concat_eq_append] at ends
    subst ends
    have below := leads last (by rw [List.getLast?_concat]; rfl)
    rcases List.mem_append.1 member with before | same
    · have apart := (List.pairwise_append.1 (List.pairwise_append.1 formed.apart).1).2.2 u before
        last List.mem_cons_self
      have width := formed.nonempty last (by simp)
      exact Nat.lt_of_le_of_lt (Document.lineOf_mono (by omega)) below
    · rw [List.mem_singleton.1 same]
      exact below

end WellFormed

theorem keepDisjoint_wellFormed (d : Document) (reach : Nat) (spans : List Classified) :
    WellFormed d (keepDisjoint d reach spans) ∧
      ∀ t ∈ keepDisjoint d reach spans, reach ≤ t.start := by
  induction spans generalizing reach with
  | nil =>
    have none : ∀ t, t ∉ keepDisjoint d reach [] := fun t => List.not_mem_nil
    exact ⟨⟨List.Pairwise.nil, fun t member => absurd member (none t),
      fun t member => absurd member (none t)⟩, fun t member => absurd member (none t)⟩
  | cons first spans ih =>
    obtain ⟨span, category⟩ := first
    rw [keepDisjoint]
    split
    next => exact ih reach
    next kept =>
      rw [Bool.or_eq_true, decide_eq_true_eq, decide_eq_true_eq, not_or] at kept
      have ordered := span.start_le_stop
      cases sliced : d.slice span with
      | error _ => exact ih reach
      | ok text =>
        obtain ⟨formed, behind⟩ := ih span.stop
        refine ⟨⟨?_, ?_, ?_⟩, ?_⟩
        · exact List.pairwise_cons.2 ⟨behind, formed.apart⟩
        · intro t member
          rcases List.mem_cons.1 member with rfl | member
          · exact Nat.lt_of_le_of_ne ordered kept.1
          · exact formed.nonempty t member
        · intro t member
          rcases List.mem_cons.1 member with rfl | member
          · exact sliced
          · exact formed.slice t member
        · intro t member
          rcases List.mem_cons.1 member with rfl | member
          · exact Nat.le_of_not_lt kept.2
          · have := behind t member
            omega

/-- The spans that are kept of any list make a well-formed stream. -/
theorem ofSpans_wellFormed (d : Document) (spans : List Classified) :
    WellFormed d (ofSpans d spans) :=
  (keepDisjoint_wellFormed d 0 _).1

end Token

/-! ## Pieces of text that end visibly -/

namespace Text

/-- A graphic character of ASCII. -/
def IsPrintable (c : Char) : Prop := 33 ≤ c.toNat ∧ c.toNat ≤ 126

instance (c : Char) : Decidable (IsPrintable c) := inferInstanceAs (Decidable (_ ∧ _))

theorem IsPrintable.isBlank {c : Char} (printable : IsPrintable c) : isBlank c = false := by
  obtain ⟨low, high⟩ := printable
  unfold Text.isBlank blankRanges
  simp only [List.any_cons, List.any_nil, Bool.or_false, Bool.or_eq_false_iff,
    Bool.and_eq_false_iff, decide_eq_false_iff_not]
  omega

theorem IsPrintable.clean {c : Char} (printable : IsPrintable c) : c ≠ '\n' ∧ c ≠ '\r' := by
  refine ⟨?_, ?_⟩ <;> (intro broken; subst broken; revert printable; decide)

/-- The text ends in a visible character and more characters of its line. -/
def Ends (cs : List Char) : Prop :=
  ∃ front c back, cs = front ++ c :: back ∧ isBlank c = false ∧ ∀ x ∈ back, x ≠ '\n' ∧ x ≠ '\r'

theorem ends_of_last (front : List Char) {c : Char} (visible : isBlank c = false) :
    Ends (front ++ [c]) :=
  ⟨front, c, [], rfl, visible, fun _ member => absurd member List.not_mem_nil⟩

theorem take_length_takeWhile (p : Char → Bool) (cs : List Char) :
    cs.take (cs.takeWhile p).length = cs.takeWhile p :=
  (List.prefix_iff_eq_take.1 (List.takeWhile_prefix p)).symm

end Text

theorem Word.isTail_printable {c : Char} (tail : Word.isTail c = true) : Text.IsPrintable c := by
  unfold Word.isTail at tail
  simp [Char.isAlphanum, Char.isAlpha, Char.isDigit, Char.isUpper, Char.isLower,
    UInt32.le_iff_toNat_le] at tail
  have value : c.toNat = c.val.toNat := rfl
  unfold Text.IsPrintable
  rcases tail with ((upper | lower) | digit) | rfl
  · omega
  · omega
  · omega
  · decide

theorem Word.isTail_of_isHead {c : Char} (head : Word.isHead c = true) :
    Word.isTail c = true := by
  unfold Word.isHead at head
  unfold Word.isTail Char.isAlphanum
  rcases Bool.or_eq_true_iff.1 head with letter | line
  · rw [letter, Bool.true_or, Bool.true_or]
  · rw [line, Bool.or_true]

theorem Word.isTail_of_isDigit {c : Char} (digit : c.isDigit = true) : Word.isTail c = true := by
  unfold Word.isTail Char.isAlphanum
  rw [digit, Bool.or_true, Bool.true_or]

theorem Lexeme.isPunctuation_printable {c : Char} (mark : Lexeme.isPunctuation c = true) :
    Text.IsPrintable c := by
  unfold Lexeme.isPunctuation at mark
  simp at mark
  rcases mark with rfl | rfl | rfl | rfl | rfl | rfl | rfl | rfl | rfl | rfl <;> decide

theorem Lexeme.isOperator_printable {c : Char} (mark : Lexeme.isOperator c = true) :
    Text.IsPrintable c := by
  unfold Lexeme.isOperator at mark
  simp at mark
  rcases mark with rfl | rfl | rfl | rfl | rfl | rfl | rfl | rfl | rfl | rfl | rfl | rfl | rfl <;>
    decide

/-! ## What a lexeme is -/

/-- A token starts with a visible character and ends visibly or with the text; punctuation is one
character. -/
structure Lexed (category : Category) (text rest : List Char) : Prop where
  visible : ∃ c cs, text = c :: cs ∧ Text.isBlank c = false
  ends : Text.Ends text ∨ rest = []
  single : category = .punctuation → ∃ c, text = [c]

namespace Lexed

variable {category : Category} {c : Char} {cs rest : List Char}

/-- A token without a line break. -/
theorem of_line (visible : Text.isBlank c = false) (clean : ∀ x ∈ cs, x ≠ '\n' ∧ x ≠ '\r')
    (plain : category ≠ .punctuation) : Lexed category (c :: cs) rest where
  visible := ⟨c, cs, rfl, visible⟩
  ends := Or.inl ⟨[], c, cs, rfl, visible, clean⟩
  single := fun mark => absurd mark plain

/-- A token of visible characters. -/
theorem of_printable (visible : Text.IsPrintable c) (printable : ∀ x ∈ cs, Text.IsPrintable x)
    (plain : category ≠ .punctuation) : Lexed category (c :: cs) rest :=
  of_line visible.isBlank (fun x member => (printable x member).clean) plain

/-- A token that ends with a visible character. -/
theorem of_last {front : List Char} {z : Char} (visible : Text.isBlank c = false)
    (last : cs = front ++ [z]) (seen : Text.isBlank z = false) (plain : category ≠ .punctuation) :
    Lexed category (c :: cs) rest where
  visible := ⟨c, cs, rfl, visible⟩
  ends := by
    left
    rw [last, ← List.cons_append]
    exact Text.ends_of_last _ seen
  single := fun mark => absurd mark plain

end Lexed

namespace Lexeme

theorem restOfLine_clean (cs : List Char) :
    ∀ x ∈ cs.take (restOfLine cs), x ≠ '\n' ∧ x ≠ '\r' := by
  intro x member
  unfold restOfLine at member
  rw [Text.take_length_takeWhile] at member
  have inner := List.mem_takeWhile_imp member
  unfold isLineEnd at inner
  simp only [Bool.not_eq_true', Bool.or_eq_false_iff, beq_eq_false_iff_ne] at inner
  exact ⟨inner.2, inner.1⟩

/-- A closed literal ends with its quote. -/
theorem quoted_closed (quote : Char) (cs : List Char) (closed : (quoted quote cs).closed = true) :
    ∃ front, cs.take (quoted quote cs).length = front ++ [quote] := by
  fun_induction quoted quote cs with
  | case1 => cases closed
  | case2 => cases closed
  | case3 => cases closed
  | case4 c cs _ ih =>
    obtain ⟨front, taken⟩ := ih closed
    exact ⟨'\\' :: c :: front, by simp [Literal.after, taken]⟩
  | case5 cs => exact ⟨[], rfl⟩
  | case6 => cases closed
  | case7 c cs _ _ _ _ ih =>
    obtain ⟨front, taken⟩ := ih closed
    exact ⟨c :: front, by simp [Literal.after, taken]⟩

theorem verbatim_closed (cs : List Char) (closed : (verbatim cs).closed = true) :
    ∃ front, cs.take (verbatim cs).length = front ++ ['"'] := by
  fun_induction verbatim cs with
  | case1 => cases closed
  | case2 cs ih =>
    obtain ⟨front, taken⟩ := ih closed
    exact ⟨'"' :: '"' :: front, by simp [Literal.after, taken]⟩
  | case3 => exact ⟨[], rfl⟩
  | case4 c cs _ _ ih =>
    obtain ⟨front, taken⟩ := ih closed
    exact ⟨c :: front, by simp [Literal.after, taken]⟩

/-- One more character in front brings no `*/` if it is not the first half of one. -/
theorem not_infix_cons {c : Char} {cs : List Char} (none : ¬ ['*', '/'] <:+: cs)
    (apart : ∀ tail, c = '*' → cs = '/' :: tail → False) : ¬ ['*', '/'] <:+: c :: cs := by
  rw [List.infix_cons_iff]
  rintro (⟨tail, front⟩ | later)
  · cases front
    exact apart tail rfl rfl
  · exact none later

/-- A block comment goes up to the first `*/`, or takes the whole rest if there is none. -/
theorem blockRest_cases (cs : List Char) :
    (∃ inner after, cs = inner ++ '*' :: '/' :: after ∧ ¬ ['*', '/'] <:+: inner ++ ['*'] ∧
      cs.take (blockRest cs) = inner ++ ['*', '/']) ∨
      ¬ ['*', '/'] <:+: cs ∧ blockRest cs = cs.length := by
  fun_induction blockRest cs with
  | case1 => exact Or.inr ⟨by decide, rfl⟩
  | case2 cs => exact Or.inl ⟨[], cs, rfl, by decide, rfl⟩
  | case3 c cs apart ih =>
    rcases ih with ⟨inner, after, cut, first, taken⟩ | ⟨none, all⟩
    · refine Or.inl ⟨c :: inner, after, congrArg (c :: ·) cut, not_infix_cons first ?_, ?_⟩
      · -- a slash in front of the rest is in front of the whole text too
        intro tail star slash
        cases inner with
        | nil => cases slash
        | cons x inner =>
          cases slash
          exact apart _ star cut
      · rw [List.take_succ_cons, taken]
        rfl
    · exact Or.inr ⟨not_infix_cons none apart, congrArg (· + 1) all⟩

theorem isComment_blockCategory (cs : List Char) : (blockCategory cs).isComment = true := by
  fun_cases blockCategory cs <;> rfl

end Lexeme

/-- What a lexeme promises of its text, the character `c` and `more` characters of `cs`. -/
def Lexeme.Kept (c : Char) (cs : List Char) : Lexeme × Nat → Prop
  | (.gap, _) => True
  | (.token category, more) => Lexed category (c :: cs.take more) (cs.drop more)
  | (.directive, more) => Lexed .preprocessorKeyword (c :: cs.take more) (cs.drop more)

namespace Lexeme

theorem kept_literal {c z : Char} {cs : List Char} {literal : Literal}
    (visible : Text.isBlank c = false) (seen : Text.isBlank z = false)
    (taken : literal.closed = true → ∃ front, cs.take literal.length = front ++ [z]) :
    Kept c cs literal.lexeme := by
  unfold Literal.lexeme
  cases closed : literal.closed with
  | false => exact trivial
  | true =>
    obtain ⟨front, last⟩ := taken closed
    exact .of_last visible last seen (by decide)

theorem kept_slash (cs : List Char) : Kept '/' cs (slash cs) := by
  have visible : Text.isBlank '/' = false := by decide
  have slash_clean : '/' ≠ '\n' ∧ '/' ≠ '\r' := by decide
  unfold slash
  split
  · next cs =>
    refine .of_line visible ?_ (by decide)
    intro x member
    rw [Nat.add_comm, List.take_succ_cons, List.take_succ_cons] at member
    rcases List.mem_cons.1 member with rfl | member
    · exact slash_clean
    · rcases List.mem_cons.1 member with rfl | member
      · exact slash_clean
      · exact restOfLine_clean cs x member
  · next cs _ =>
    refine .of_line visible ?_ (by decide)
    intro x member
    rw [Nat.add_comm, List.take_succ_cons] at member
    rcases List.mem_cons.1 member with rfl | member
    · exact slash_clean
    · exact restOfLine_clean cs x member
  · next cs =>
    have plain : blockCategory cs ≠ .punctuation := by
      unfold blockCategory
      split <;> decide
    rw [Nat.add_comm]
    rcases blockRest_cases cs with ⟨inner, -, -, -, taken⟩ | ⟨-, all⟩
    · refine .of_last visible (?_ : _ = ('*' :: inner ++ ['*']) ++ ['/']) visible plain
      rw [List.take_succ_cons, taken, List.append_assoc]
      rfl
    · have none : cs.drop (blockRest cs) = [] := List.drop_eq_nil_of_le (Nat.le_of_eq all.symm)
      exact ⟨⟨'/', _, rfl, visible⟩, Or.inr none, fun mark => absurd mark plain⟩
  · next cs => exact .of_last visible (List.nil_append ['=']).symm (by decide) (by decide)
  · exact .of_line visible (fun x member => absurd member List.not_mem_nil) (by decide)

theorem kept_numberSign (cs : List Char) : Kept '#' cs (numberSign cs) := by
  unfold numberSign
  generalize blanks : (cs.takeWhile fun c => c == ' ' || c == '\t').length = n
  dsimp only
  split
  · exact trivial
  · refine .of_line (by decide) ?_ (by decide)
    intro x member
    rw [List.take_add, ← blanks, Text.take_length_takeWhile, blanks,
      Text.take_length_takeWhile] at member
    rcases List.mem_append.1 member with member | member
    · have blank := List.mem_takeWhile_imp member
      simp only [Bool.or_eq_true, beq_iff_eq] at blank
      rcases blank with rfl | rfl <;> decide
    · have letter := List.mem_takeWhile_imp member
      have head : Word.isHead x = true := by
        unfold Word.isHead
        rw [letter, Bool.true_or]
      exact (Word.isTail_printable (Word.isTail_of_isHead head)).clean

theorem kept_dollar (cs : List Char) : Kept '$' cs (dollar cs) := by
  unfold dollar
  split
  · next cs =>
    refine kept_literal (z := '"') (by decide) (by decide) ?_
    intro closed
    obtain ⟨front, taken⟩ := quoted_closed '"' cs closed
    exact ⟨'"' :: front, by simp [Literal.after, taken]⟩
  · exact trivial
  · exact trivial
  · exact trivial

theorem takeWhile_isTail_printable (cs : List Char) :
    ∀ x ∈ cs.takeWhile Word.isTail, Text.IsPrintable x := by
  intro x member
  exact Word.isTail_printable (List.mem_takeWhile_imp member)

theorem kept_atSign (cs : List Char) : Kept '@' cs (atSign cs) := by
  unfold atSign
  split
  · next cs =>
    refine kept_literal (z := '"') (by decide) (by decide) ?_
    intro closed
    obtain ⟨front, taken⟩ := verbatim_closed cs closed
    exact ⟨'"' :: front, by simp [Literal.after, taken]⟩
  · exact trivial
  · exact trivial
  · next c cs _ _ _ =>
    split
    next head =>
      refine .of_printable (by decide) ?_ (by decide)
      intro x member
      rw [Nat.add_comm, List.take_succ_cons, Text.take_length_takeWhile] at member
      rcases List.mem_cons.1 member with rfl | member
      · exact Word.isTail_printable (Word.isTail_of_isHead head)
      · exact takeWhile_isTail_printable cs x member
    next => exact trivial
  · exact trivial

theorem numberRest_printable (cs : List Char) :
    ∀ x ∈ cs.take (numberRest cs), Text.IsPrintable x := by
  intro x member
  unfold numberRest at member
  dsimp only at member
  split at member
  next d ds fraction =>
    split at member
    next digit =>
      rw [Nat.add_assoc, List.take_add, Text.take_length_takeWhile, fraction, Nat.add_comm,
        List.take_succ_cons, List.take_succ_cons, Text.take_length_takeWhile] at member
      rcases List.mem_append.1 member with member | member
      · exact takeWhile_isTail_printable cs x member
      · rcases List.mem_cons.1 member with rfl | member
        · decide
        · rcases List.mem_cons.1 member with rfl | member
          · exact Word.isTail_printable (Word.isTail_of_isDigit digit)
          · exact takeWhile_isTail_printable ds x member
    next =>
      rw [Text.take_length_takeWhile] at member
      exact takeWhile_isTail_printable cs x member
  next =>
    rw [Text.take_length_takeWhile] at member
    exact takeWhile_isTail_printable cs x member

theorem category_ne_punctuation (word : List Char) : Word.category word ≠ .punctuation := by
  unfold Word.category
  split
  · decide
  · split <;> decide

/-- Every lexeme keeps its promise. -/
theorem kept_lexeme (c : Char) (cs : List Char) : Kept c cs (lexeme c cs) := by
  unfold lexeme
  split
  · exact kept_slash cs
  · exact kept_numberSign cs
  · exact kept_literal (by decide) (by decide) (quoted_closed '"' cs)
  · exact kept_literal (by decide) (by decide) (quoted_closed '\'' cs)
  · exact kept_dollar cs
  · exact kept_atSign cs
  · split
    next digit =>
      exact .of_printable (Word.isTail_printable (Word.isTail_of_isDigit digit))
        (numberRest_printable cs) (by decide)
    next =>
      split
      next head =>
        refine .of_printable (Word.isTail_printable (Word.isTail_of_isHead head)) ?_
          (category_ne_punctuation _)
        rw [Text.take_length_takeWhile]
        exact takeWhile_isTail_printable cs
      next =>
        split
        next mark =>
          have visible := (isPunctuation_printable mark).isBlank
          exact ⟨⟨c, [], rfl, visible⟩, Or.inl (Text.ends_of_last [] visible),
            fun _ => ⟨c, rfl⟩⟩
        next =>
          split
          next mark =>
            refine .of_printable (isOperator_printable mark) ?_ (by decide)
            intro x member
            rw [Text.take_length_takeWhile] at member
            exact isOperator_printable (List.mem_takeWhile_imp member)
          next => exact trivial

end Lexeme

/-! ## The stream of a text -/

/-- The tokens stand in the text from an offset on, in order, with gaps between them. -/
inductive Laid : Nat → List Char → List Token → Prop
  | done {offset : Nat} {cs : List Char} : Laid offset cs []
  | gap {offset : Nat} {skipped cs : List Char} {tokens : List Token} :
    Laid (offset + Text.byteLength skipped) cs tokens → Laid offset (skipped ++ cs) tokens
  | token {offset : Nat} {category : Category} {text cs : List Char} {tokens : List Token} :
    Lexed category text cs → Laid (offset + Text.byteLength text) cs tokens →
    Laid offset (text ++ cs) (Token.at offset category text :: tokens)

theorem cutAtComment_append (cs : List Char) :
    (cutAtComment cs).1 ++ (cutAtComment cs).2 = cs := by
  fun_induction cutAtComment cs with
  | case1 => rfl
  | case2 => rfl
  | case3 c cs _ argument comment cut ih =>
    rw [cut] at ih
    rw [List.cons_append, ih]

/-- What is cut off is nothing or starts with the two slashes. -/
theorem cutAtComment_comment (cs : List Char) :
    (cutAtComment cs).2 = [] ∨ ∃ rest, (cutAtComment cs).2 = '/' :: '/' :: rest := by
  fun_induction cutAtComment cs with
  | case1 => exact Or.inl rfl
  | case2 cs => exact Or.inr ⟨cs, rfl⟩
  | case3 c cs _ argument comment cut ih =>
    rw [cut] at ih
    exact ih

theorem Text.exists_trimEnd (cs : List Char) : ∃ tail, cs = Text.trimEnd cs ++ tail := by
  refine ⟨(cs.reverse.takeWhile Text.isBlank).reverse, ?_⟩
  unfold Text.trimEnd Text.dropEndWhile
  rw [← List.reverse_append, List.takeWhile_append_dropWhile, List.reverse_reverse]

section DirectiveLine

variable {offset : Nat} {tokens : List Token} {rest : List Char}

/-- A trimmed piece of a directive's line is a token with a visible start. -/
theorem laid_trimEnd (category : Category) {piece : List Char} (plain : category ≠ .punctuation)
    (clean : ∀ x ∈ piece, x ≠ '\n' ∧ x ≠ '\r')
    (visible : ∀ c cs, piece = c :: cs → Text.isBlank c = false)
    (laid : Laid (offset + Text.byteLength piece) rest tokens) :
    Laid offset (piece ++ rest)
      ((match Text.trimEnd piece with
        | [] => []
        | trimmed => [Token.at offset category trimmed]) ++ tokens) := by
  obtain ⟨tail, split⟩ := Text.exists_trimEnd piece
  cases kept : Text.trimEnd piece with
  | nil => exact .gap laid
  | cons c cs =>
    rw [kept] at split
    have bytes : Text.byteLength piece = Text.byteLength (c :: cs) + Text.byteLength tail := by
      rw [split, Text.byteLength_append]
    rw [bytes, ← Nat.add_assoc] at laid
    have lexed : Lexed category (c :: cs) (tail ++ rest) := by
      refine .of_line (visible c (cs ++ tail) (by rw [split, List.cons_append])) ?_ plain
      intro x member
      apply clean
      rw [split]
      exact List.mem_append_left _ (List.mem_cons_of_mem _ member)
    rw [split, List.append_assoc]
    exact .token lexed (.gap laid)

theorem laid_directiveTokens {line : List Char} (clean : ∀ x ∈ line, x ≠ '\n' ∧ x ≠ '\r')
    (laid : Laid (offset + Text.byteLength line) rest tokens) :
    Laid offset (line ++ rest) (directiveTokens offset line ++ tokens) := by
  have joined := cutAtComment_append line
  have started := cutAtComment_comment line
  unfold directiveTokens
  generalize cutAtComment line = parts at joined started ⊢
  obtain ⟨argument, comment⟩ := parts
  dsimp only at joined started ⊢
  subst joined
  rw [Text.byteLength_append, ← Nat.add_assoc] at laid
  have clean_argument : ∀ x ∈ argument, x ≠ '\n' ∧ x ≠ '\r' :=
    fun x member => clean x (List.mem_append_left _ member)
  have clean_comment : ∀ x ∈ comment, x ≠ '\n' ∧ x ≠ '\r' :=
    fun x member => clean x (List.mem_append_right _ member)
  have behind := laid_trimEnd .comment (by decide) clean_comment
    (by
      intro c cs split
      rcases started with none | ⟨rest, slash⟩
      · rw [none] at split
        cases split
      · rw [slash] at split
        cases split
        decide) laid
  -- the argument is its leading blanks and what trimming its end leaves
  have lead : argument = argument.takeWhile Text.isBlank ++ Text.trimStart argument :=
    (List.takeWhile_append_dropWhile).symm
  have bytes : Text.byteLength argument =
      Text.byteLength (argument.takeWhile Text.isBlank) +
        Text.byteLength (Text.trimStart argument) := by
    rw [← Text.byteLength_append, ← lead]
  rw [List.append_assoc, List.append_assoc]
  nth_rewrite 1 [lead]
  rw [List.append_assoc]
  refine .gap (laid_trimEnd .preprocessorText (by decide) ?_ ?_ ?_)
  · exact fun x member => clean_argument x (List.dropWhile_subset _ member)
  · intro c cs split
    have first := List.head?_dropWhile_not Text.isBlank argument
    unfold Text.trimStart at split
    rw [split] at first
    simpa using first
  · rw [Nat.add_assoc, ← bytes]
    exact behind

end DirectiveLine

/-- Classification lays its tokens into the text. -/
theorem laid_classifyFrom (offset : Nat) (cs : List Char) :
    Laid offset cs (classifyFrom offset cs) := by
  fun_induction classifyFrom offset cs with
  | case1 => exact .done
  | case2 offset c cs more text after found ih =>
    have cut : c :: cs = text ++ cs.drop more := by
      rw [List.cons_append, List.take_append_drop]
    rw [cut]
    exact .gap ih
  | case3 offset c cs more text after category found ih =>
    have kept := Lexeme.kept_lexeme c cs
    rw [found] at kept
    have cut : c :: cs = text ++ cs.drop more := by
      rw [List.cons_append, List.take_append_drop]
    rw [cut]
    exact .token kept ih
  | case4 offset c cs more text after rest width line found ih =>
    have kept := Lexeme.kept_lexeme c cs
    rw [found] at kept
    have cut : c :: cs = text ++ (line ++ rest.drop width) := by
      rw [List.take_append_drop, List.cons_append, List.take_append_drop]
    rw [cut]
    refine .token (by rw [List.take_append_drop]; exact kept) ?_
    exact laid_directiveTokens (Lexeme.restOfLine_clean rest) ih

section Pieces

variable {offset more : Nat} {c : Char} {cs : List Char}

theorem classifyFrom_gap (found : lexeme c cs = (.gap, more)) :
    classifyFrom offset (c :: cs) =
      classifyFrom (offset + Text.byteLength (c :: cs.take more)) (cs.drop more) := by
  rw [classifyFrom, found]

theorem classifyFrom_skip (found : lexeme c cs = (.gap, 0)) :
    classifyFrom offset (c :: cs) = classifyFrom (offset + c.utf8Size) cs := by
  rw [classifyFrom_gap found, List.take_zero, List.drop_zero, Text.byteLength_cons,
    Text.byteLength_nil, Nat.add_zero]

theorem classifyFrom_token {category : Category} (found : lexeme c cs = (.token category, more)) :
    classifyFrom offset (c :: cs) = Token.at offset category (c :: cs.take more) ::
      classifyFrom (offset + Text.byteLength (c :: cs.take more)) (cs.drop more) := by
  rw [classifyFrom, found]

theorem classifyFrom_directive (found : lexeme c cs = (.directive, more)) :
    let after := offset + Text.byteLength (c :: cs.take more)
    let rest := cs.drop more
    let line := rest.take (Lexeme.restOfLine rest)
    classifyFrom offset (c :: cs) =
      Token.at offset .preprocessorKeyword (c :: cs.take more) :: directiveTokens after line ++
        classifyFrom (after + Text.byteLength line) (rest.drop (Lexeme.restOfLine rest)) := by
  intro after rest line
  rw [classifyFrom, found]

end Pieces

/-- A laid token has its text around it, and the stream goes on behind it. -/
theorem Laid.around {offset : Nat} {cs : List Char} {tokens : List Token}
    (laid : Laid offset cs tokens) {t : Token} (member : t ∈ tokens) :
    ∃ front rest, cs = front ++ t.text ++ rest ∧ offset + Text.byteLength front = t.start ∧
      offset + Text.byteLength (front ++ t.text) = t.stop ∧ Lexed t.category t.text rest := by
  induction laid with
  | done => exact absurd member List.not_mem_nil
  | gap laid ih =>
    rename_i offset skipped cs tokens
    obtain ⟨front, rest, cut, starts, stops, lexed⟩ := ih member
    refine ⟨skipped ++ front, rest, ?_, ?_, ?_, lexed⟩
    · rw [cut]
      simp only [List.append_assoc]
    · rw [Text.byteLength_append, ← starts, Nat.add_assoc]
    · rw [List.append_assoc, Text.byteLength_append, ← stops, Nat.add_assoc]
  | token lexed laid ih =>
    rename_i offset category text cs tokens
    rcases List.mem_cons.1 member with rfl | member
    · exact ⟨[], cs, rfl, rfl, rfl, lexed⟩
    · obtain ⟨front, rest, cut, starts, stops, lexed⟩ := ih member
      refine ⟨text ++ front, rest, ?_, ?_, ?_, lexed⟩
      · rw [cut]
        simp only [List.append_assoc]
      · rw [Text.byteLength_append, ← starts, Nat.add_assoc]
      · rw [List.append_assoc, Text.byteLength_append, ← stops, Nat.add_assoc]

theorem Laid.apart {offset : Nat} {cs : List Char} {tokens : List Token}
    (laid : Laid offset cs tokens) : tokens.Pairwise fun a b => a.stop ≤ b.start := by
  induction laid with
  | done => exact List.Pairwise.nil
  | gap _ ih => exact ih
  | token _ laid ih =>
    refine List.pairwise_cons.2 ⟨?_, ih⟩
    intro t member
    obtain ⟨front, -, -, starts, -⟩ := laid.around member
    rw [← starts]
    exact Nat.le_add_right _ _

section Classified

variable {d : Document} {t : Token}

theorem classify_around (member : t ∈ classify d.text) :
    ∃ front rest, d.text = front ++ t.text ++ rest ∧ Text.byteLength front = t.start ∧
      Text.byteLength (front ++ t.text) = t.stop ∧ Lexed t.category t.text rest := by
  obtain ⟨front, rest, cut, starts, stops, lexed⟩ := (laid_classifyFrom 0 d.text).around member
  rw [Nat.zero_add] at starts stops
  exact ⟨front, rest, cut, starts, stops, lexed⟩

/-- Classification gives a well-formed stream. -/
theorem classify_wellFormed (d : Document) : Token.WellFormed d (classify d.text) where
  apart := (laid_classifyFrom 0 d.text).apart
  nonempty := by
    intro t member
    obtain ⟨front, rest, -, starts, stops, lexed⟩ := classify_around member
    obtain ⟨c, cs, text, -⟩ := lexed.visible
    have width := c.utf8Size_pos
    rw [Text.byteLength_append, text, Text.byteLength_cons] at stops
    omega
  slice := by
    intro t member
    obtain ⟨front, rest, text, starts, stops, -⟩ := classify_around member
    exact Token.slice_eq_of_around text starts stops

/-- A classified token ends visibly, or it is the last of a text that stops inside it. -/
theorem classify_endsVisibly (member : t ∈ classify d.text) :
    d.EndsVisibly t.stop ∨ t.stop = d.length := by
  obtain ⟨front, rest, text, -, stops, lexed⟩ := classify_around member
  rcases lexed.ends with ⟨lead, c, back, split, visible, clean⟩ | none
  · refine Or.inl ⟨front ++ lead, c, back, rest, ?_, ?_, visible, clean⟩
    · rw [text, split]
      simp only [List.append_assoc]
    · rw [← stops, split]
      simp only [List.append_assoc]
  · right
    rw [d.length_eq, text, none, List.append_nil, stops]

/-- A classified token starts in the content of its line. -/
theorem classify_start_le_lineStop (member : t ∈ classify d.text) :
    t.start ≤ d.lineStop (d.lineOf t.start) := by
  obtain ⟨front, rest, text, starts, -, lexed⟩ := classify_around member
  obtain ⟨c, cs, split, visible⟩ := lexed.visible
  apply ((classify_wellFormed d).boundary_start member).le_lineStop
  have dropped : Text.dropBytes? t.start d.text = some (c :: (cs ++ rest)) :=
    Text.dropBytes?_eq_some_iff.2 ⟨front, by rw [text, split]; simp, starts⟩
  unfold Document.charAt?
  rw [dropped]
  intro feed
  cases feed
  revert visible
  decide

end Classified

end CodeFolding
