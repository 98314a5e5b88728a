import Mathlib
import CodeFolding.Cursor
import CodeFolding.Proofs.Streams

/-!
# Reading a stream

A cursor cuts its stream in two: the tokens that start before it and those that start at it or
behind it (`Cursor.Split`).  On a well-formed stream no move goes past a token unseen, and for
moves of one token or character the texts of the tokens do not matter (`Token.Placed`):

* `Split.reads_next`: the token that the cursor reads is the next of the stream.
* `Split.takes_token`, `Split.takes_none`: a move over a token takes just that token, and a move
  over a character takes none.
* `Split.skipTo`: a move to the end of a token takes the tokens up to that one.
* `Split.nextLine`: a move to the next line takes the tokens that start on the line.

If tokens may overlap (`Token.Ordered`), a move still goes forward from boundary to boundary.
-/

namespace CodeFolding

namespace Cursor

/-- The stream cut at the cursor. -/
structure Split (c : Cursor) (done rest : List Token) : Prop where
  tokens : c.tokens = done ++ rest
  behind : ∀ t ∈ done, t.start < c.position
  ahead : ∀ t ∈ rest, c.position ≤ t.start
  boundary : c.document.Boundary c.position

@[simp]
theorem advance_document (c : Cursor) : c.advance.document = c.document := by
  unfold advance advance? seek
  split <;> rfl

@[simp]
theorem advance_tokens (c : Cursor) : c.advance.tokens = c.tokens := by
  unfold advance advance? seek
  split <;> rfl

@[simp]
theorem nextLine_document (c : Cursor) : c.nextLine.document = c.document := by
  unfold nextLine nextLine? seek
  split <;> rfl

@[simp]
theorem nextLine_tokens (c : Cursor) : c.nextLine.tokens = c.tokens := by
  unfold nextLine nextLine? seek
  split <;> rfl

theorem atEnd_eq_false_iff {c : Cursor} : c.atEnd = false ↔ c.position < c.document.length := by
  unfold atEnd
  rw [decide_eq_false_iff_not, Nat.not_le]

theorem advance?_eq_some {c : Cursor} (more : c.atEnd = false) : c.advance? = some c.advance := by
  unfold advance advance?
  rw [more]
  rfl

theorem advance?_eq_none {c : Cursor} (ended : c.atEnd = true) : c.advance? = none :=
  if_pos ended

/-- At the end a cursor stays where it is. -/
theorem advance_of_atEnd {c : Cursor} (ended : c.atEnd = true) : c.advance = c := by
  unfold advance
  rw [advance?_eq_none ended]
  rfl

theorem advance_position {c : Cursor} (more : c.atEnd = false) :
    c.advance.position = min c.itemStop c.document.length := by
  unfold advance advance? seek
  rw [more]
  rfl

theorem nextLineStart_eq (c : Cursor) :
    c.nextLineStart = c.document.lineStart (c.document.lineOf c.position + 1) := by
  unfold nextLineStart
  cases found : c.document.line (c.document.lineOf c.position + 1) with
  | ok line => exact (Document.line_eq_ok found).2.1
  | error _ =>
    rw [Document.lineStart_of_le]
    by_contra more
    obtain ⟨line, looked, -⟩ := Document.exists_line? (Nat.lt_of_not_le more)
    unfold Document.line at found
    rw [looked] at found
    cases found

theorem nextLine_position {c : Cursor} (more : c.atEnd = false) :
    c.nextLine.position = c.document.lineStart (c.document.lineOf c.position + 1) := by
  have inside := (c.document.boundary_lineStart (c.document.lineOf c.position + 1)).le_length
  have moved : c.nextLine.position = min c.nextLineStart c.document.length := by
    unfold nextLine nextLine? seek
    rw [more]
    rfl
  rw [moved, nextLineStart_eq]
  exact Nat.min_eq_left inside

/-! ## What the cursor reads -/

section Reads

variable {c : Cursor} {done rest later : List Token} {t : Token}

/-- The cursor reads a token of the stream that starts where it stands. -/
theorem exists_index_of_token? (found : c.token? = some t) :
    ∃ i, c.index? = some i ∧ c.tokens[i]? = some t ∧ t.start = c.position := by
  unfold token? at found
  obtain ⟨i, index, looked⟩ := Option.bind_eq_some_iff.1 found
  refine ⟨i, index, looked, ?_⟩
  unfold index? at index
  obtain ⟨bound, starts, -⟩ := List.findIdx?_eq_some_iff_getElem.1 index
  rw [List.getElem?_eq_getElem bound, Option.some.injEq] at looked
  rw [← looked]
  simpa using starts

theorem mem_of_token? (found : c.token? = some t) : t ∈ c.tokens := by
  obtain ⟨i, -, looked, -⟩ := exists_index_of_token? found
  exact List.mem_of_getElem? looked

theorem start_of_token? (found : c.token? = some t) : t.start = c.position := by
  obtain ⟨i, -, -, starts⟩ := exists_index_of_token? found
  exact starts

/-- The token that the cursor reads is the next of the stream. -/
theorem Split.reads_next (placed : Token.Placed c.document c.tokens)
    (split : c.Split done rest) (found : c.token? = some t) :
    ∃ later, rest = t :: later ∧ t.start = c.position ∧ c.index? = some done.length := by
  obtain ⟨i, index, looked, starts⟩ := exists_index_of_token? found
  have member : t ∈ done ++ rest := by
    rw [← split.tokens]
    exact List.mem_of_getElem? looked
  have ahead : t ∈ rest := by
    rcases List.mem_append.1 member with before | ahead
    · have := split.behind t before
      omega
    · exact ahead
  have sorted : rest.Pairwise fun a b => a.start < b.start := by
    have all := placed.sorted
    rw [split.tokens] at all
    exact (List.pairwise_append.1 all).2.1
  obtain ⟨later, next⟩ : ∃ later, rest = t :: later := by
    cases rest with
    | nil => exact absurd ahead List.not_mem_nil
    | cons first later =>
      rcases List.mem_cons.1 ahead with rfl | inner
      · exact ⟨later, rfl⟩
      · have := (List.pairwise_cons.1 sorted).1 t inner
        have := split.ahead first List.mem_cons_self
        omega
  refine ⟨later, next, starts, ?_⟩
  unfold index?
  rw [split.tokens, next, List.findIdx?_append]
  have none : done.findIdx? (·.start == c.position) = none := by
    rw [List.findIdx?_eq_none_iff]
    intro u before
    have := split.behind u before
    simp only [beq_eq_false_iff_ne]
    omega
  rw [none, List.findIdx?_cons]
  simp [starts]

theorem Split.of_token? (formed : Token.WellFormed c.document c.tokens)
    (split : c.Split done rest) (found : c.token? = some t) :
    ∃ later, rest = t :: later ∧ t.start = c.position ∧ c.index? = some done.length :=
  split.reads_next formed.placed found

/-- If the cursor reads no token, the rest of the stream is behind it. -/
theorem Split.of_no_token (split : c.Split done rest) (none : c.token? = none) :
    ∀ u ∈ rest, c.position < u.start := by
  intro u member
  have le := split.ahead u member
  rcases Nat.lt_or_ge c.position u.start with lt | ge
  · exact lt
  · exfalso
    have here : u.start = c.position := by omega
    have listed : u ∈ c.tokens := by
      rw [split.tokens]
      exact List.mem_append_right _ member
    unfold token? index? at none
    cases index : c.tokens.findIdx? (·.start == c.position) with
    | none =>
      have := List.findIdx?_eq_none_iff.1 index u listed
      rw [here] at this
      simp at this
    | some j =>
      obtain ⟨bound, -⟩ := List.findIdx?_eq_some_iff_getElem.1 index
      rw [index, Option.bind_some, List.getElem?_eq_getElem bound] at none
      cases none

/-- A cursor cuts its stream at one place only. -/
theorem Split.done_eq (split : c.Split done rest) :
    done = c.tokens.filter (·.start < c.position) := by
  rw [split.tokens, List.filter_append, List.filter_eq_self.2, List.filter_eq_nil_iff.2,
    List.append_nil]
  · intro u member
    rw [decide_eq_true_eq]
    exact Nat.not_lt.2 (split.ahead u member)
  · intro u member
    exact decide_eq_true (split.behind u member)

/-- At the end of the document no token is left that starts inside it. -/
theorem Split.eq_nil_of_inside (split : c.Split done rest)
    (inside : ∀ u ∈ c.tokens, u.start < c.document.length) (ended : c.atEnd = true) :
    rest = [] := by
  rw [List.eq_nil_iff_forall_not_mem]
  intro u member
  have within := inside u (by
    rw [split.tokens]
    exact List.mem_append_right _ member)
  have ahead := split.ahead u member
  unfold atEnd at ended
  rw [decide_eq_true_eq] at ended
  omega

theorem Split.rest_eq_nil (ordered : Token.Ordered c.document c.tokens)
    (split : c.Split done rest) (ended : c.atEnd = true) : rest = [] :=
  split.eq_nil_of_inside (fun _ => ordered.start_lt_length) ended

/-- The token before the one that the cursor reads. -/
theorem Split.previous?_eq (split : c.Split done rest) (index : c.index? = some done.length) :
    c.previous? = done.getLast? := by
  unfold previous?
  rw [index, split.tokens]
  rcases List.eq_nil_or_concat done with none | ⟨front, last, ends⟩
  · rw [none]
    rfl
  · rw [List.concat_eq_append] at ends
    rw [ends]
    simp

/-- What the cursor has read stops before what it has yet to read. -/
theorem Split.stop_le_start (formed : Token.WellFormed c.document c.tokens)
    (split : c.Split done rest) {before : Token} (read : before ∈ done) (unread : t ∈ rest) :
    before.stop ≤ t.start := by
  have apart := formed.apart
  rw [split.tokens] at apart
  exact (List.pairwise_append.1 apart).2.2 before read t unread

/-- The token after the one that the cursor reads. -/
theorem Split.next?_eq (split : c.Split done (t :: later)) (index : c.index? = some done.length) :
    c.next? = later.head? := by
  unfold next?
  rw [index, split.tokens, Option.bind_some, List.getElem?_append_right (Nat.le_add_right _ 1),
    Nat.add_sub_cancel_left, List.getElem?_cons_succ, List.head?_eq_getElem?]

end Reads

/-! ## Moves -/

section Moves

variable {c c' : Cursor} {done rest skipped later : List Token} {t : Token}

/-- A move forward takes the tokens that start before the new place. -/
theorem Split.move (split : c.Split done (skipped ++ later)) (document : c'.document = c.document)
    (tokens : c'.tokens = c.tokens) (boundary : c.document.Boundary c'.position)
    (forward : c.position ≤ c'.position) (taken : ∀ u ∈ skipped, u.start < c'.position)
    (left : ∀ u ∈ later, c'.position ≤ u.start) : c'.Split (done ++ skipped) later where
  tokens := by rw [tokens, split.tokens, List.append_assoc]
  behind := by
    intro u member
    rcases List.mem_append.1 member with before | member
    · exact Nat.lt_of_lt_of_le (split.behind u before) forward
    · exact taken u member
  ahead := left
  boundary := by rw [document]; exact boundary

/-- A move over a token with bytes of the document goes to its end. -/
theorem advance_position_of_lt (found : c.token? = some t) (width : t.start < t.stop)
    (inside : t.stop ≤ c.document.length) : c.advance.position = t.stop := by
  have starts := start_of_token? found
  rw [advance_position (atEnd_eq_false_iff.2 (by omega))]
  unfold itemStop
  rw [found]
  dsimp only
  rw [if_pos (by omega)]
  omega

theorem advance_position_of_token? (ordered : Token.Ordered c.document c.tokens)
    (found : c.token? = some t) : c.advance.position = t.stop := by
  have member := mem_of_token? found
  exact advance_position_of_lt found (ordered.nonempty t member) (ordered.stop_le_length member)

/-- A move over a token takes that token. -/
theorem Split.takes_token (placed : Token.Placed c.document c.tokens)
    (split : c.Split done (t :: later)) (found : c.token? = some t) :
    c.advance.Split (done ++ [t]) later := by
  have member := mem_of_token? found
  have starts := start_of_token? found
  have width := placed.nonempty t member
  have boundary := (placed.boundary t member).2
  have moved := advance_position_of_lt found width boundary.le_length
  have apart := placed.apart
  rw [split.tokens] at apart
  have cut : c.Split done ([t] ++ later) := split
  refine cut.move (by simp) (by simp) ?_ ?_ ?_ ?_
  · rw [moved]
    exact boundary
  · omega
  · intro u taken
    rw [List.mem_singleton.1 taken]
    omega
  · intro u left
    rw [moved]
    exact (List.pairwise_cons.1 (List.pairwise_append.1 apart).2.1).1 u left

theorem Split.advance_token (formed : Token.WellFormed c.document c.tokens)
    (split : c.Split done (t :: later)) (found : c.token? = some t) :
    c.advance.Split (done ++ [t]) later :=
  split.takes_token formed.placed found

/-- Where no token starts, a move goes over one character to the next boundary. -/
theorem advance_of_no_token (none : c.token? = none) (boundary : c.document.Boundary c.position)
    (more : c.atEnd = false) :
    c.document.Boundary c.advance.position ∧ c.position < c.advance.position ∧
      ∀ other, c.document.Boundary other → c.position < other → c.advance.position ≤ other := by
  obtain ⟨ch, here, next, least⟩ := boundary.exists_char (atEnd_eq_false_iff.1 more)
  have width := ch.utf8Size_pos
  have inside := next.le_length
  have moved : c.advance.position = c.position + ch.utf8Size := by
    rw [advance_position more]
    unfold itemStop Cursor.width
    rw [none, here]
    show min (c.position + ch.utf8Size) _ = _
    omega
  rw [moved]
  exact ⟨next, by omega, least⟩

/-- A move over a character takes no token. -/
theorem Split.takes_none (placed : Token.Placed c.document c.tokens)
    (split : c.Split done rest) (none : c.token? = none) (more : c.atEnd = false) :
    c.advance.Split done rest := by
  obtain ⟨next, forward, least⟩ := advance_of_no_token none split.boundary more
  have cut : c.Split done ([] ++ rest) := split
  have moved : c.advance.Split (done ++ []) rest := by
    refine cut.move (by simp) (by simp) next (Nat.le_of_lt forward)
      (fun u member => absurd member List.not_mem_nil) ?_
    intro u member
    refine least u.start (placed.boundary u ?_).1 (split.of_no_token none u member)
    rw [split.tokens]
    exact List.mem_append_right _ member
  rw [List.append_nil] at moved
  exact moved

theorem Split.advance_gap (formed : Token.WellFormed c.document c.tokens)
    (split : c.Split done rest) (none : c.token? = none) (more : c.atEnd = false) :
    c.advance.Split done rest :=
  split.takes_none formed.placed none more

/-- No token ahead of the cursor ends where it stands. -/
theorem Split.skipped_eq_nil (formed : Token.WellFormed c.document c.tokens)
    (split : c.Split done (skipped ++ later)) (ended : ∀ u ∈ skipped, u.stop ≤ c.position) :
    skipped = [] := by
  rw [List.eq_nil_iff_forall_not_mem]
  intro u member
  have stops := ended u member
  have starts := split.ahead u (List.mem_append_left _ member)
  have width := formed.nonempty u (by
    rw [split.tokens]
    exact List.mem_append_right _ (List.mem_append_left _ member))
  omega

/-- Advancing to the end of some tokens takes just those. -/
theorem Split.advanceTo (formed : Token.WellFormed c.document c.tokens) {target : Nat}
    (boundary : c.document.Boundary target) (left : ∀ u ∈ later, target ≤ u.start) (fuel : Nat)
    (split : c.Split done (skipped ++ later)) (taken : ∀ u ∈ skipped, u.stop ≤ target)
    (before : c.position ≤ target) (enough : target - c.position ≤ fuel) :
    (c.advanceTo target fuel).Split (done ++ skipped) later ∧
      (c.advanceTo target fuel).position = target := by
  induction fuel generalizing c done skipped with
  | zero =>
    have here : c.position = target := by omega
    obtain rfl := split.skipped_eq_nil formed (fun u member => by rw [here]; exact taken u member)
    rw [List.append_nil]
    exact ⟨split, here⟩
  | succ fuel ih =>
    have formed' : Token.WellFormed c.advance.document c.advance.tokens := by
      rw [advance_document, advance_tokens]
      exact formed
    have boundary' : c.advance.document.Boundary target := by
      rw [advance_document]
      exact boundary
    rw [Cursor.advanceTo]
    by_cases short : c.position < target
    · have more : c.atEnd = false :=
        atEnd_eq_false_iff.2 (Nat.lt_of_lt_of_le short boundary.le_length)
      rw [if_pos short, advance?_eq_some more]
      dsimp only
      cases found : c.token? with
      | none =>
        obtain ⟨-, forward, least⟩ := advance_of_no_token found split.boundary more
        have := least target boundary short
        exact ih formed' boundary' (split.advance_gap formed found more) taken (by omega)
          (by omega)
      | some t =>
        obtain ⟨rest, next, starts, -⟩ := split.of_token? formed found
        cases skipped with
        | nil =>
          have := left t (by rw [List.nil_append] at next; rw [next]; exact List.mem_cons_self)
          omega
        | cons first skipped =>
          rw [List.cons_append, List.cons.injEq] at next
          obtain ⟨rfl, rfl⟩ := next
          have moved := advance_position_of_token? formed.ordered found
          have ends := taken first List.mem_cons_self
          have width := formed.nonempty first (mem_of_token? found)
          have rest := ih formed' boundary' (split.advance_token formed found)
            (fun u member => taken u (List.mem_cons_of_mem _ member)) (by omega) (by omega)
          rw [List.append_assoc, List.singleton_append] at rest
          exact rest
    · rw [if_neg short]
      have here : c.position = target := by omega
      obtain rfl :=
        split.skipped_eq_nil formed (fun u member => by rw [here]; exact taken u member)
      rw [List.append_nil]
      exact ⟨split, here⟩

/-- Skipping to the end of a token takes the tokens up to that one. -/
theorem Split.skipTo (formed : Token.WellFormed c.document c.tokens)
    (split : c.Split done (skipped ++ t :: later)) :
    (c.skipTo t.stop).Split (done ++ (skipped ++ [t])) later ∧
      (c.skipTo t.stop).position = t.stop := by
  have listed : ∀ u ∈ skipped ++ t :: later, u ∈ c.tokens := by
    intro u member
    rw [split.tokens]
    exact List.mem_append_right _ member
  have apart := formed.apart
  rw [split.tokens] at apart
  obtain ⟨-, behind, between⟩ := List.pairwise_append.1 (List.pairwise_append.1 apart).2.1
  have width := formed.nonempty t (listed t (by simp))
  have ahead := split.ahead t (by simp)
  refine Split.advanceTo formed (formed.boundary_stop (listed t (by simp)))
    (List.pairwise_cons.1 behind).1 _ ?_ ?_ (by omega) (Nat.le_refl _)
  · rw [List.append_assoc, List.singleton_append]
    exact split
  · intro u member
    rcases List.mem_append.1 member with member | member
    · have := between u member t List.mem_cons_self
      omega
    · rw [List.mem_singleton.1 member]

/-- A sorted stream is cut at an offset. -/
theorem exists_cut_at {tokens : List Token}
    (sorted : tokens.Pairwise fun a b => a.start ≤ b.start) (target : Nat) :
    ∃ skipped later, tokens = skipped ++ later ∧
      (∀ u ∈ skipped, u.start < target) ∧ ∀ u ∈ later, target ≤ u.start := by
  induction tokens with
  | nil =>
    exact ⟨[], [], rfl, fun _ member => absurd member List.not_mem_nil,
      fun _ member => absurd member List.not_mem_nil⟩
  | cons first tokens ih =>
    obtain ⟨behind, sorted⟩ := List.pairwise_cons.1 sorted
    by_cases before : first.start < target
    · obtain ⟨skipped, later, rfl, taken, left⟩ := ih sorted
      refine ⟨first :: skipped, later, rfl, ?_, left⟩
      intro u member
      rcases List.mem_cons.1 member with rfl | member
      · exact before
      · exact taken u member
    · refine ⟨[], first :: tokens, rfl, fun _ member => absurd member List.not_mem_nil, ?_⟩
      intro u member
      rcases List.mem_cons.1 member with rfl | member
      · omega
      · have := behind u member
        omega

/-- Going to the next line takes the tokens that start on this one. -/
theorem Split.nextLine (formed : Token.WellFormed c.document c.tokens) (split : c.Split done rest)
    (more : c.atEnd = false) :
    ∃ skipped later, rest = skipped ++ later ∧ c.nextLine.Split (done ++ skipped) later ∧
      c.position < c.nextLine.position ∧
      ∀ u ∈ skipped, c.document.lineOf u.start = c.document.lineOf c.position := by
  have inside := atEnd_eq_false_iff.1 more
  have moved := nextLine_position more
  have forward : c.position < c.nextLine.position := by
    rw [moved]
    exact Document.lt_lineStart_succ inside
  have sorted := formed.ordered.sorted
  rw [split.tokens] at sorted
  obtain ⟨skipped, later, rfl, taken, left⟩ :=
    exists_cut_at (List.pairwise_append.1 sorted).2.1 c.nextLine.position
  refine ⟨skipped, later, rfl, ?_, forward, ?_⟩
  · refine Split.move split (by simp) (by simp) ?_ (Nat.le_of_lt forward) taken left
    rw [moved]
    exact c.document.boundary_lineStart _
  · intro u member
    have starts := taken u member
    rw [moved] at starts
    apply Nat.le_antisymm
    · by_contra above
      have next := Document.lineStart_mono (d := c.document)
        (Nat.succ_le_of_lt (Nat.lt_of_not_le above))
      have := c.document.lineStart_lineOf_le u.start
      rw [Nat.succ_eq_add_one] at next
      omega
    · exact Document.lineOf_mono (split.ahead u (List.mem_append_left _ member))

end Moves

/-! ## Moves over tokens that overlap -/

section Ordered

variable {c : Cursor} {t : Token}

/-- On an ordered stream every boundary cuts the stream. -/
theorem exists_split (ordered : Token.Ordered c.document c.tokens)
    (boundary : c.document.Boundary c.position) : ∃ done rest, c.Split done rest := by
  obtain ⟨done, rest, tokens, behind, ahead⟩ := exists_cut_at ordered.sorted c.position
  exact ⟨done, rest, tokens, behind, ahead, boundary⟩

theorem boundary_advance (ordered : Token.Ordered c.document c.tokens)
    (boundary : c.document.Boundary c.position) : c.document.Boundary c.advance.position := by
  cases ended : c.atEnd with
  | true =>
    rw [advance_of_atEnd ended]
    exact boundary
  | false =>
    cases found : c.token? with
    | none => exact (advance_of_no_token found boundary ended).1
    | some t =>
      rw [advance_position_of_token? ordered found]
      exact ordered.boundary_stop (mem_of_token? found)

/-- Advancing to a target goes from boundary to boundary, and forward if there is way to go. -/
theorem boundary_advanceTo (ordered : Token.Ordered c.document c.tokens)
    (boundary : c.document.Boundary c.position) (target fuel : Nat) :
    c.document.Boundary (c.advanceTo target fuel).position ∧
      c.position ≤ (c.advanceTo target fuel).position := by
  induction fuel generalizing c with
  | zero => exact ⟨boundary, Nat.le_refl _⟩
  | succ fuel ih =>
    rw [advanceTo]
    split
    next =>
      cases ended : c.atEnd with
      | true =>
        rw [advance?_eq_none ended]
        exact ⟨boundary, Nat.le_refl _⟩
      | false =>
        have moved := advance?_eq_some ended
        have forward := position_lt_of_advance? moved
        rw [moved]
        dsimp only
        have rest := ih (c := c.advance) (by rw [advance_document, advance_tokens]; exact ordered)
          (by rw [advance_document]; exact boundary_advance ordered boundary)
        rw [advance_document] at rest
        exact ⟨rest.1, by omega⟩
    next => exact ⟨boundary, Nat.le_refl _⟩

theorem position_lt_skipTo {target : Nat} (ordered : Token.Ordered c.document c.tokens)
    (boundary : c.document.Boundary c.position) (more : c.atEnd = false)
    (ahead : c.position < target) : c.position < (c.skipTo target).position := by
  have moved := advance?_eq_some more
  have forward := position_lt_of_advance? moved
  unfold skipTo
  obtain ⟨fuel, enough⟩ : ∃ fuel, target - c.position = fuel + 1 :=
    ⟨target - c.position - 1, by omega⟩
  rw [enough, advanceTo, if_pos ahead, moved]
  dsimp only
  have rest := boundary_advanceTo (c := c.advance)
    (by rw [advance_document, advance_tokens]; exact ordered)
    (by rw [advance_document]; exact boundary_advance ordered boundary) target fuel
  omega

end Ordered

end Cursor

end CodeFolding
