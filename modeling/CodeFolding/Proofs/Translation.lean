import Mathlib
import CodeFolding.Outline.Edit

/-!
# Where edits move spans

Moving a span through an edit checks at every sum that it fits its word.  Beside it stands the
same move without the checks: `Edit.place` for an offset and `Edit.moved` for a span.
`Edit.move_cases` says once how the two are related, so that facts about moves are facts about
natural numbers.

* `Edit.place_mono`: neither edge of an edit turns the order of two offsets round.
* `Edit.moved_before`, `Edit.moved_behind`, `Edit.moved_around`: where a span goes that the edit
  does not cut.
* `moveAll_keeps_order`: spans in order stay in order through all edits.
-/

namespace CodeFolding

namespace Edit

/-! ## Moves without word checks -/

/-- The place of an old offset in the new text, whether or not it fits a word. -/
def place (e : Edit) (offset : Nat) (side : Side) : Nat :=
  if offset < e.span.start then offset
  else if e.span.stop < offset then offset - e.span.length + e.newLength
  else if side = .right ∨ offset = e.span.stop ∧ e.span.start < e.span.stop then
    e.span.start + e.newLength
  else e.span.start

/-- The place of an old span in the new text, whether or not it fits its words. -/
def moved (e : Edit) (span : Span) : Span :=
  ⟨e.place span.start .right, max (e.place span.stop .left) (e.place span.start .right),
    Nat.le_max_right _ _⟩

section Checks

variable {e : Edit} {span : Span}

theorem fit32_cases (n : Nat) : fit32 n = .ok n ∨ limit32 ≤ n ∧ fit32 n = .error .overflow := by
  by_cases fits : n < limit32
  · exact Or.inl (fit32_of_lt fits)
  · exact Or.inr ⟨Nat.le_of_not_lt fits, if_neg fits⟩

/-- An offset goes to its place, or that place does not fit a word. -/
theorem moveOffset_cases (e : Edit) (offset : Nat) (side : Side) :
    e.moveOffset offset side = .ok (e.place offset side) ∨
      limit32 ≤ e.place offset side ∧ e.moveOffset offset side = .error .overflow := by
  unfold moveOffset place
  split
  next => exact Or.inl rfl
  next =>
    split
    next => exact fit32_cases _
    next =>
      by_cases edge : offset = e.span.stop ∧ e.span.start < e.span.stop
      · have behind : side = .right ∨ offset = e.span.stop ∧ e.span.start < e.span.stop :=
          Or.inr edge
        rw [if_pos (by simpa using edge), if_pos behind]
        exact fit32_cases _
      · rw [if_neg (by simpa using edge)]
        cases side with
        | left =>
          rw [if_neg (by simpa using edge)]
          exact Or.inl rfl
        | right =>
          rw [if_pos (Or.inl rfl)]
          exact fit32_cases _

/-- A span goes to its place, or one of its ends does not fit a word there. -/
theorem move_cases (e : Edit) (span : Span) :
    e.move span = .ok (e.moved span) ∨
      limit32 ≤ (e.moved span).stop ∧ e.move span = .error .overflow := by
  unfold move
  rcases e.moveOffset_cases span.start .right with start | ⟨wide, start⟩
  · rw [start]
    rcases e.moveOffset_cases span.stop .left with stop | ⟨wide, stop⟩
    · rw [stop]
      exact Or.inl rfl
    · rw [stop]
      exact Or.inr ⟨Nat.le_trans wide (Nat.le_max_left _ _), rfl⟩
  · rw [start]
    exact Or.inr ⟨Nat.le_trans wide (Nat.le_max_right _ _), rfl⟩

theorem move_of_lt (fits : (e.moved span).stop < limit32) : e.move span = .ok (e.moved span) := by
  rcases e.move_cases span with done | ⟨wide, -⟩
  · exact done
  · omega

end Checks

/-! ## Runs of edits -/

section Runs

variable {e : Edit} {edits : List Edit} {span next final : Span}

theorem moveAll_cons (step : e.move span = .ok next) :
    moveAll (e :: edits) span = moveAll edits next := by
  unfold moveAll
  rw [List.foldlM_cons, step]
  rfl

/-- A run that succeeds does so with each of its edits. -/
theorem moveAll_cons_eq_ok :
    moveAll (e :: edits) span = .ok final ↔
      e.move span = .ok (e.moved span) ∧ moveAll edits (e.moved span) = .ok final := by
  constructor
  · intro all
    rcases e.move_cases span with step | ⟨-, fails⟩
    · exact ⟨step, (moveAll_cons step).symm.trans all⟩
    · unfold moveAll at all
      rw [List.foldlM_cons, fails] at all
      cases all
  · rintro ⟨step, rest⟩
    exact (moveAll_cons step).trans rest

/-- Overflow is the only way for a run to fail. -/
theorem exists_moveAll_of_ne (fine : moveAll edits span ≠ .error .overflow) :
    ∃ final, moveAll edits span = .ok final := by
  induction edits generalizing span with
  | nil => exact ⟨span, rfl⟩
  | cons e edits ih =>
    rcases e.move_cases span with step | ⟨-, fails⟩
    · rw [moveAll_cons step] at fine ⊢
      exact ih fine
    · refine absurd ?_ fine
      unfold moveAll
      rw [List.foldlM_cons, fails]
      rfl

end Runs

/-! ## Order -/

section Order

variable {a b : Nat} {first second : Span}

theorem place_mono (e : Edit) (le : a ≤ b) (side : Side) : e.place a side ≤ e.place b side := by
  have ordered := e.span.start_le_stop
  unfold place Span.length
  cases side <;> grind

/-- At an edge of the edit the two sides part, and the left one is never behind the right one. -/
theorem place_left_le_right (e : Edit) (offset : Nat) :
    e.place offset .left ≤ e.place offset .right := by
  unfold place
  grind

theorem moved_start_le (e : Edit) (le : first.start ≤ second.start) :
    (e.moved first).start ≤ (e.moved second).start :=
  e.place_mono le .right

/-- The end of a span keeps left and the start of the next one right.  The end of a span that the
edit swallows is pushed to where its start went, which is still not behind the next one. -/
theorem moved_stop_le (e : Edit) (le : first.stop ≤ second.start) :
    (e.moved first).stop ≤ (e.moved second).start := by
  refine Nat.max_le.2 ⟨?_, ?_⟩
  · calc e.place first.stop .left
        ≤ e.place first.stop .right := e.place_left_le_right first.stop
      _ ≤ e.place second.start .right := e.place_mono le .right
  · exact e.place_mono (Nat.le_trans first.start_le_stop le) .right

variable {edits : List Edit} {first' second' : Span}

/-- What each edit keeps of the order of two spans, all of them keep. -/
theorem moveAll_induction (keeps : Span → Span → Prop)
    (step : ∀ (e : Edit) a b, keeps a b → keeps (e.moved a) (e.moved b))
    (all : moveAll edits first = .ok first') (all' : moveAll edits second = .ok second')
    (holds : keeps first second) : keeps first' second' := by
  induction edits generalizing first second with
  | nil =>
    cases all
    cases all'
    exact holds
  | cons e edits ih =>
    exact ih (moveAll_cons_eq_ok.1 all).2 (moveAll_cons_eq_ok.1 all').2 (step e _ _ holds)

theorem moveAll_start_le (all : moveAll edits first = .ok first')
    (all' : moveAll edits second = .ok second') (le : first.start ≤ second.start) :
    first'.start ≤ second'.start :=
  moveAll_induction (fun a b => a.start ≤ b.start) (fun e _ _ => e.moved_start_le) all all' le

theorem moveAll_stop_le (all : moveAll edits first = .ok first')
    (all' : moveAll edits second = .ok second') (le : first.stop ≤ second.start) :
    first'.stop ≤ second'.start :=
  moveAll_induction (fun a b => a.stop ≤ b.start) (fun e _ _ => e.moved_stop_le) all all' le

end Order

/-! ## Spans in a text of known length -/

section Bounds

variable {e : Edit} {span : Span} {length offset : Nat}

theorem place_add_le (reaches : e.span.stop ≤ length) (inside : offset ≤ length) (side : Side) :
    e.place offset side + e.span.length ≤ length + e.newLength := by
  have ordered := e.span.start_le_stop
  unfold place Span.length
  grind

/-- A span of the old text goes to a span of the new one. -/
theorem moved_stop_add_le (reaches : e.span.stop ≤ length) (inside : span.stop ≤ length) :
    (e.moved span).stop + e.span.length ≤ length + e.newLength := by
  have stop := place_add_le reaches inside .left
  have start := place_add_le reaches (Nat.le_trans span.start_le_stop inside) .right
  show max (e.place span.stop .left) (e.place span.start .right) + e.span.length ≤ _
  omega

end Bounds

/-! ## Spans that an edit does not cut -/

section Uncut

variable {e : Edit} {span : Span}

/-- A span before the edit stays. -/
theorem moved_before (before : span.stop ≤ e.span.start) (starts : span.start < e.span.start) :
    e.moved span = span := by
  have ordered := span.start_le_stop
  have start : e.place span.start .right = span.start := if_pos starts
  have stop : e.place span.stop .left = span.stop := by
    have := e.span.start_le_stop
    unfold place
    grind
  ext
  · exact start
  · show max (e.place span.stop .left) (e.place span.start .right) = span.stop
    rw [start, stop]
    omega

/-- An empty span at the start of the edit goes behind the inserted text. -/
theorem moved_empty (starts : span.start = e.span.start) (stops : span.stop = e.span.start) :
    e.moved span = .empty (e.span.start + e.newLength) := by
  have ordered := e.span.start_le_stop
  have start : e.place span.start .right = e.span.start + e.newLength := by
    unfold place
    grind
  have stop : e.place span.stop .left ≤ e.span.start + e.newLength := by
    rw [← start, stops.trans starts.symm]
    exact e.place_left_le_right span.start
  ext
  · exact start
  · show max (e.place span.stop .left) (e.place span.start .right) = _
    rw [start]
    exact Nat.max_eq_right stop

/-- A span behind the edit moves by what the edit adds and removes. -/
theorem moved_behind (behind : e.span.stop ≤ span.start) :
    (e.moved span).start = span.start - e.span.length + e.newLength ∧
      (e.moved span).stop = span.stop - e.span.length + e.newLength := by
  have ordered := span.start_le_stop
  have inOrder := e.span.start_le_stop
  have start : e.place span.start .right = span.start - e.span.length + e.newLength := by
    unfold place Span.length
    grind
  have stop : e.place span.stop .left ≤ span.stop - e.span.length + e.newLength ∧
      (span.start < span.stop →
        e.place span.stop .left = span.stop - e.span.length + e.newLength) := by
    unfold place Span.length
    grind
  refine ⟨start, ?_⟩
  show max (e.place span.stop .left) (e.place span.start .right) = _
  rw [start]
  -- an empty span keeps both ends where its start goes
  by_cases wide : span.start < span.stop
  · rw [stop.2 wide]
    omega
  · have := stop.1
    omega

/-- A span around the edit grows or shrinks at its end. -/
theorem moved_around (starts : span.start < e.span.start) (stops : e.span.stop < span.stop) :
    (e.moved span).start = span.start ∧
      (e.moved span).stop = span.stop - e.span.length + e.newLength := by
  have inOrder := e.span.start_le_stop
  have start : e.place span.start .right = span.start := if_pos starts
  have stop : e.place span.stop .left = span.stop - e.span.length + e.newLength := by
    unfold place
    grind
  refine ⟨start, ?_⟩
  show max (e.place span.stop .left) (e.place span.start .right) = _
  rw [start, stop]
  unfold Span.length
  omega

end Uncut

end Edit

/-! ## Order through all edits -/

/-- Unless an offset leaves its word on the way: of two spans, the one that starts first still
does after all edits, and where one ends before the other starts, it still does.  So spans that
were apart and in order stay so, also when edits swallow, split or touch either of them. -/
theorem moveAll_keeps_order (edits : List Edit) (a b : Span)
    (fineA : Edit.moveAll edits a ≠ .error .overflow)
    (fineB : Edit.moveAll edits b ≠ .error .overflow) :
    ∃ a' b', Edit.moveAll edits a = .ok a' ∧ Edit.moveAll edits b = .ok b' ∧
      (a.start ≤ b.start → a'.start ≤ b'.start) ∧ (a.stop ≤ b.start → a'.stop ≤ b'.start) := by
  obtain ⟨a', allA⟩ := Edit.exists_moveAll_of_ne fineA
  obtain ⟨b', allB⟩ := Edit.exists_moveAll_of_ne fineB
  exact ⟨a', b', allA, allB, Edit.moveAll_start_le allA allB, Edit.moveAll_stop_le allA allB⟩

/-- A span that is swallowed and one that touches it: the replacement pushes the end of the first
past the inserted text, where the second one starts, and an insertion between them goes before
both. -/
theorem moveAll_keeps_order_swallowed :
    let edits : List Edit := [⟨⟨2, 9, by decide⟩, 4⟩, .insertion 6 5]
    let a : Span := ⟨3, 9, by decide⟩
    let b : Span := ⟨9, 12, by decide⟩
    Edit.moveAll edits a ≠ .error .overflow ∧ Edit.moveAll edits b ≠ .error .overflow ∧
      a.stop ≤ b.start ∧ ∃ a' b' : Span, Edit.moveAll edits a = .ok a' ∧
        Edit.moveAll edits b = .ok b' ∧ a'.stop = 11 ∧ b'.start = 11 ∧ a'.stop ≤ b'.start := by
  intro edits a b
  have movedA : Edit.moveAll edits a = .ok ⟨11, 11, by decide⟩ := by decide
  have movedB : Edit.moveAll edits b = .ok ⟨11, 14, by decide⟩ := by decide
  have fineA : Edit.moveAll edits a ≠ .error .overflow := by decide
  have fineB : Edit.moveAll edits b ≠ .error .overflow := by decide
  obtain ⟨a', b', allA, allB, -, stops⟩ := moveAll_keeps_order edits a b fineA fineB
  obtain rfl := Except.ok.inj (allA.symm.trans movedA)
  obtain rfl := Except.ok.inj (allB.symm.trans movedB)
  exact ⟨fineA, fineB, by decide, _, _, allA, allB, rfl, rfl, stops (by decide)⟩

end CodeFolding
