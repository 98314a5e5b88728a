import Mathlib
import CodeFolding.Proofs.Typing

/-!
# Moved spans keep their content

A span that is moved along with the keystrokes of a text goes on to hold what it held, as long as
no keystroke cuts one of its ends (`Keystroke.Spares`): keystrokes before and behind it change
nothing, and those inside it change its content as they would change a text of its own.

* `Keystroke.within`: the keystrokes inside a span, as they look from its start.
* `Writing.Types.holds_before`, `Writing.Types.holds_behind`, `Writing.Types.holds_around`: what
  the moved span holds after one keystroke; `Writing.TypesAll.holds` after all of them.
* `moved_spans_hold_content`: the same for the bytes of a text, wherever spans cut them, and for
  the slices of a text.
-/

namespace CodeFolding

/-! ## Keystrokes seen from a span -/

namespace Keystroke

/-- The keystroke is before the span, behind it, or inside it with both ends. -/
def Spares (k : Keystroke) (span : Span) : Prop :=
  span.stop ≤ k.span.start ∨ k.span.stop ≤ span.start ∨
    span.start < k.span.start ∧ k.span.stop < span.stop

instance (k : Keystroke) (span : Span) : Decidable (k.Spares span) :=
  inferInstanceAs (Decidable (_ ∨ _ ∨ _ ∧ _))

/-- The keystroke in a text that starts at an offset of the old one. -/
def seenFrom (k : Keystroke) (offset : Nat) : Keystroke where
  span := ⟨k.span.start - offset, k.span.stop - offset,
    Nat.sub_le_sub_right k.span.start_le_stop offset⟩
  insert := k.insert

/-- The keystrokes inside a span that moves along with all of them, each as it looks from the
start of the span. -/
def within (span : Span) : List Keystroke → List Keystroke
  | [] => []
  | k :: keys =>
    match k.edit.move span with
    | .error _ => []
    | .ok next =>
      if span.start < k.span.start ∧ k.span.stop < span.stop then
        k.seenFrom span.start :: within next keys
      else within next keys

section Within

variable {k : Keystroke} {keys : List Keystroke} {span next : Span}

theorem within_cons_inside (step : k.edit.move span = .ok next)
    (starts : span.start < k.span.start) (stops : k.span.stop < span.stop) :
    within span (k :: keys) = k.seenFrom span.start :: within next keys := by
  rw [within, step]
  exact if_pos ⟨starts, stops⟩

theorem within_cons_outside (step : k.edit.move span = .ok next)
    (outside : span.stop ≤ k.span.start ∨ k.span.stop ≤ span.start) :
    within span (k :: keys) = within next keys := by
  have ordered := span.start_le_stop
  have inOrder := k.span.start_le_stop
  rw [within, step]
  exact if_neg (by omega)

end Within

end Keystroke

/-! ## What a span holds -/

namespace Writing

variable {α : Type} {w : Writing α} {k : Keystroke} {keys : List Keystroke}
  {xs xs' final part : List α} {span moved : Span}

/-- The part of a list that stands in a span. -/
def Holds (w : Writing α) (xs : List α) (span : Span) (part : List α) : Prop :=
  ∃ front rest, xs = front ++ part ++ rest ∧ w.size front = span.start ∧
    w.size (front ++ part) = span.stop

theorem Types.holds_before (types : w.Types k xs xs') (holds : w.Holds xs span part)
    (before : span.stop ≤ k.span.start) : w.Holds xs' (k.edit.moved span) part := by
  obtain ⟨front, gone, rest, rfl, starts, stops, rfl⟩ := types
  obtain ⟨left, right, cut, start, stop⟩ := holds
  have ordered := span.start_le_stop
  by_cases empty : span.start = k.span.start
  · -- an empty span at the edge is pushed behind what is inserted there
    have none : part = [] := by
      by_contra some
      have := w.size_pos part some
      rw [w.size_append] at stop
      omega
    rw [Edit.moved_empty (e := k.edit) empty (by show span.stop = k.span.start; omega), none]
    have size : w.size (front ++ w.write k.insert) = k.span.start + Text.byteLength k.insert := by
      rw [w.size_append, w.size_write, starts]
    exact ⟨front ++ w.write k.insert, rest, by rw [List.append_nil], size,
      by rw [List.append_nil]; exact size⟩
  · rw [Edit.moved_before (e := k.edit) before (by show span.start < k.span.start; omega)]
    rw [List.append_assoc] at cut
    obtain ⟨between, rfl, -⟩ := w.exists_middle cut.symm (by rw [stop, starts]; exact before)
    exact ⟨left, between ++ w.write k.insert ++ rest, by simp only [List.append_assoc], start,
      stop⟩

theorem Types.holds_behind (types : w.Types k xs xs') (holds : w.Holds xs span part)
    (behind : k.span.stop ≤ span.start) : w.Holds xs' (k.edit.moved span) part := by
  obtain ⟨front, gone, rest, rfl, starts, stops, rfl⟩ := types
  obtain ⟨left, right, cut, start, stop⟩ := holds
  obtain ⟨movedStart, movedStop⟩ := Edit.moved_behind (e := k.edit) behind
  rw [List.append_assoc left] at cut
  obtain ⟨between, rfl, rfl⟩ := w.exists_middle cut (by rw [stops, start]; exact behind)
  have inOrder := k.span.start_le_stop
  have length : k.edit.span.length = k.span.stop - k.span.start := rfl
  have added : k.edit.newLength = Text.byteLength k.insert := rfl
  simp only [w.size_append] at starts stops start stop
  refine ⟨front ++ w.write k.insert ++ between, right, by simp only [List.append_assoc], ?_, ?_⟩
  · rw [movedStart, length, added]
    simp only [w.size_append, w.size_write]
    omega
  · rw [movedStop, length, added]
    simp only [w.size_append, w.size_write]
    omega

theorem Types.holds_around (types : w.Types k xs xs') (holds : w.Holds xs span part)
    (starts : span.start < k.span.start) (stops : k.span.stop < span.stop) :
    ∃ part', w.Types (k.seenFrom span.start) part part' ∧
      w.Holds xs' (k.edit.moved span) part' := by
  obtain ⟨front, gone, rest, rfl, first, last, rfl⟩ := types
  obtain ⟨left, right, cut, start, stop⟩ := holds
  obtain ⟨movedStart, movedStop⟩ := Edit.moved_around (e := k.edit) starts stops
  -- the keystroke cuts the part in three, of which the middle one is replaced
  have same : left ++ (part ++ right) = front ++ (gone ++ rest) := by
    simpa only [List.append_assoc] using cut.symm
  obtain ⟨lead, rfl, -⟩ := w.exists_middle same (by rw [start, first]; exact Nat.le_of_lt starts)
  obtain ⟨tail, parts, rfl⟩ := w.exists_middle cut (by rw [last, stop]; exact Nat.le_of_lt stops)
  simp only [List.append_assoc, List.append_cancel_left_eq] at parts
  subst parts
  have inOrder := k.span.start_le_stop
  have length : k.edit.span.length = k.span.stop - k.span.start := rfl
  have added : k.edit.newLength = Text.byteLength k.insert := rfl
  simp only [w.size_append] at first last start stop
  refine ⟨lead ++ w.write k.insert ++ tail, ⟨lead, gone, tail, by simp only [List.append_assoc],
    ?_, ?_, rfl⟩, left, right, by simp only [List.append_assoc], ?_, ?_⟩
  · show w.size lead = k.span.start - span.start
    omega
  · show w.size (lead ++ gone) = k.span.stop - span.start
    rw [w.size_append]
    omega
  · rw [movedStart, start]
  · rw [movedStop, length, added]
    simp only [w.size_append, w.size_write]
    omega

/-- A span that all keystrokes spare holds in the end what the keystrokes inside it make of what
it held. -/
theorem TypesAll.holds (all : w.TypesAll keys xs final) (holds : w.Holds xs span part)
    (moves : Edit.moveAll (keys.map Keystroke.edit) span = .ok moved)
    (spared : ∀ n k now, keys[n]? = some k →
      Edit.moveAll ((keys.take n).map Keystroke.edit) span = .ok now → k.Spares now) :
    ∃ part', w.TypesAll (Keystroke.within span keys) part part' ∧ w.Holds final moved part' := by
  induction all generalizing span part with
  | nil =>
    cases moves
    exact ⟨part, .nil, holds⟩
  | @cons k keys xs xs' final first rest ih =>
    obtain ⟨step, moves⟩ := Edit.moveAll_cons_eq_ok.1 moves
    have later : ∀ n j now, keys[n]? = some j →
        Edit.moveAll ((keys.take n).map Keystroke.edit) (k.edit.moved span) = .ok now →
          j.Spares now :=
      fun n j now found move => spared (n + 1) j now found ((Edit.moveAll_cons step).trans move)
    rcases spared 0 k span rfl rfl with before | behind | ⟨starts, stops⟩
    · rw [Keystroke.within_cons_outside step (Or.inl before)]
      exact ih (first.holds_before holds before) moves later
    · rw [Keystroke.within_cons_outside step (Or.inr behind)]
      exact ih (first.holds_behind holds behind) moves later
    · rw [Keystroke.within_cons_inside step starts stops]
      obtain ⟨part', inner, held⟩ := first.holds_around holds starts stops
      obtain ⟨part'', inners, heldLast⟩ := ih held moves later
      exact ⟨part'', .cons inner inners, heldLast⟩

theorem holds_characters {text content : List Char} :
    Text.slice? span.start span.stop text = some content ↔ characters.Holds text span content :=
  Text.slice?_eq_some_iff

end Writing

/-! ## Bytes -/

/-- The bytes of a text. -/
def Text.utf8 (cs : List Char) : List UInt8 := cs.flatMap String.utf8EncodeChar

theorem Text.utf8_append (cs ds : List Char) : utf8 (cs ++ ds) = utf8 cs ++ utf8 ds :=
  List.flatMap_append

theorem Text.length_utf8 (cs : List Char) : (utf8 cs).length = byteLength cs := by
  induction cs with
  | nil => rfl
  | cons c cs ih =>
    unfold utf8 at ih ⊢
    rw [List.flatMap_cons, List.length_append, String.length_utf8EncodeChar, ih, byteLength_cons]

/-- Texts as their bytes. -/
def Writing.bytes : Writing UInt8 where
  write := Text.utf8
  size := List.length
  size_append := fun _ _ => List.length_append
  size_pos := fun _ => List.length_pos_of_ne_nil
  size_write := Text.length_utf8

namespace Keystroke

/-- The bytes after a keystroke, wherever its span cuts them; none if it reaches past the end. -/
def typeBytes? (k : Keystroke) (bytes : List UInt8) : Option (List UInt8) :=
  if k.span.stop ≤ bytes.length then
    some (bytes.take k.span.start ++ Text.utf8 k.insert ++ bytes.drop k.span.stop)
  else none

/-- The bytes after one keystroke and then the next. -/
def typeAllBytes? (keys : List Keystroke) (bytes : List UInt8) : Option (List UInt8) :=
  keys.foldlM (fun bytes k => k.typeBytes? bytes) bytes

end Keystroke

namespace Writing

variable {k : Keystroke} {keys : List Keystroke} {bytes bytes' part : List UInt8}
  {text text' : List Char} {span : Span}

/-- A span inside a list of bytes cuts it in three. -/
theorem holds_extract (inside : span.stop ≤ bytes.length) :
    bytes.take span.start ++ bytes.extract span.start span.stop ++ bytes.drop span.stop = bytes ∧
      (bytes.take span.start).length = span.start ∧
      (bytes.take span.start ++ bytes.extract span.start span.stop).length = span.stop := by
  have ordered := span.start_le_stop
  have lead : (bytes.take span.start).length = span.start := List.length_take_of_le (by omega)
  have tail : bytes.drop span.stop = (bytes.drop span.start).drop (span.stop - span.start) := by
    rw [List.drop_drop, Nat.add_sub_cancel' ordered]
  rw [List.extract_eq_take_drop]
  refine ⟨?_, lead, ?_⟩
  · rw [tail, List.append_assoc, List.take_append_drop, List.take_append_drop]
  · rw [List.length_append, lead, List.length_take, List.length_drop]
    omega

theorem holds_bytes :
    Writing.bytes.Holds bytes span part ↔
      span.stop ≤ bytes.length ∧ bytes.extract span.start span.stop = part := by
  constructor
  · rintro ⟨front, rest, rfl, starts, stops⟩
    replace starts : front.length = span.start := starts
    replace stops : (front ++ part).length = span.stop := stops
    have inside : span.stop ≤ (front ++ part ++ rest).length := by
      rw [List.length_append, stops]
      exact Nat.le_add_right _ _
    rw [List.length_append] at stops
    refine ⟨inside, ?_⟩
    rw [List.extract_eq_take_drop, List.append_assoc, List.drop_left' starts]
    exact List.take_left' (by omega)
  · rintro ⟨inside, rfl⟩
    obtain ⟨cut, starts, stops⟩ := holds_extract inside
    exact ⟨_, _, cut.symm, starts, stops⟩

theorem types_bytes : k.typeBytes? bytes = some bytes' ↔ Writing.bytes.Types k bytes bytes' := by
  unfold Keystroke.typeBytes?
  constructor
  · intro typed
    split at typed
    next inside =>
      obtain ⟨cut, starts, stops⟩ := holds_extract inside
      exact ⟨_, _, _, cut.symm, starts, stops, (Option.some.inj typed).symm⟩
    next => cases typed
  · rintro ⟨front, gone, rest, rfl, starts, stops, rfl⟩
    replace starts : front.length = k.span.start := starts
    replace stops : (front ++ gone).length = k.span.stop := stops
    rw [if_pos (by rw [List.length_append, stops]; exact Nat.le_add_right _ _),
      List.drop_left' stops, List.append_assoc front gone, List.take_left' starts]
    rfl

theorem typesAll_bytes :
    Keystroke.typeAllBytes? keys bytes = some bytes' ↔ Writing.bytes.TypesAll keys bytes bytes' :=
  foldlM_eq_some_iff fun _ _ _ => types_bytes

/-- What is typed into a text is typed into its bytes. -/
theorem Types.utf8 (types : characters.Types k text text') :
    Writing.bytes.Types k (Text.utf8 text) (Text.utf8 text') := by
  obtain ⟨front, gone, rest, rfl, starts, stops, rfl⟩ := types
  refine ⟨Text.utf8 front, Text.utf8 gone, Text.utf8 rest, ?_, ?_, ?_, ?_⟩
  · rw [Text.utf8_append, Text.utf8_append]
  · exact (Text.length_utf8 front).trans starts
  · rw [← Text.utf8_append]
    exact (Text.length_utf8 _).trans stops
  · rw [Text.utf8_append, Text.utf8_append]
    rfl

theorem TypesAll.utf8 (all : characters.TypesAll keys text text') :
    Writing.bytes.TypesAll keys (Text.utf8 text) (Text.utf8 text') := by
  induction all with
  | nil => exact .nil
  | cons first _ ih => exact .cons first.utf8 ih

end Writing

/-! ## Content of moved spans -/

/-- A text and a span inside it, and keystrokes on its bytes one after the other, none of which
reaches past the end or makes the text too long for its words.  If each of them spares the span as
it has moved so far, the span can be moved through all of them, and the bytes it holds in the end
are those it held, with exactly the keystrokes strictly inside it typed into them.  Where the span
is a slice of the text and the keystrokes cut no character, so is the moved span, and the slices
are related in the same way. -/
theorem moved_spans_hold_content (text : List Char) (span : Span) (keys : List Keystroke)
    (final : List UInt8) (inside : span.stop ≤ (Text.utf8 text).length)
    (typed : Keystroke.typeAllBytes? keys (Text.utf8 text) = some final)
    (short : ∀ n between, Keystroke.typeAllBytes? (keys.take n) (Text.utf8 text) = some between →
      between.length < limit32)
    (spared : ∀ n k now, keys[n]? = some k →
      Edit.moveAll ((keys.take n).map Keystroke.edit) span = .ok now → k.Spares now) :
    ∃ moved, Edit.moveAll (keys.map Keystroke.edit) span = .ok moved ∧
      moved.stop ≤ final.length ∧
      Keystroke.typeAllBytes? (Keystroke.within span keys)
          ((Text.utf8 text).extract span.start span.stop) =
        some (final.extract moved.start moved.stop) ∧
      ∀ content finalText, Text.slice? span.start span.stop text = some content →
        Keystroke.typeAll? keys text = some finalText →
          Text.utf8 finalText = final ∧
          ∃ content', Keystroke.typeAll? (Keystroke.within span keys) content = some content' ∧
            Text.slice? moved.start moved.stop finalText = some content' := by
  have all := Writing.typesAll_bytes.1 typed
  obtain ⟨moved, moves, -⟩ := all.exists_moveAll inside fun n between found =>
    short n between (Writing.typesAll_bytes.2 found)
  obtain ⟨part, inner, held⟩ := all.holds (Writing.holds_bytes.2 ⟨inside, rfl⟩) moves spared
  obtain ⟨reached, rfl⟩ := Writing.holds_bytes.1 held
  refine ⟨moved, moves, reached, Writing.typesAll_bytes.2 inner, ?_⟩
  intro content finalText sliced typedText
  have allText := Keystroke.typeAll?_eq_some_iff.1 typedText
  have same : some (Text.utf8 finalText) = some final :=
    (Writing.typesAll_bytes.2 allText.utf8).symm.trans typed
  obtain ⟨content', inner', held'⟩ :=
    allText.holds (Writing.holds_characters.1 sliced) moves spared
  exact ⟨Option.some.inj same, content', Keystroke.typeAll?_eq_some_iff.2 inner',
    Writing.holds_characters.2 held'⟩

/-- Insertions at both edges of a span in braces, a deletion before it and a replacement inside:
only the replacement shows in its content. -/
theorem moved_spans_hold_content_braces :
    let text := "é\x7bab\x7d".toList
    let span : Span := ⟨2, 6, by decide⟩
    let keys : List Keystroke :=
      [⟨.empty 2, "xy".toList⟩, ⟨⟨5, 6, by decide⟩, "ü".toList⟩, ⟨.empty 9, "!".toList⟩,
        ⟨⟨0, 2, by decide⟩, []⟩]
    let finalText := "xy\x7büb\x7d!".toList
    Text.slice? 2 6 text = some "\x7bab\x7d".toList ∧
      Keystroke.typeAll? keys text = some finalText ∧
      ∃ moved, Edit.moveAll (keys.map Keystroke.edit) span = .ok moved ∧
        Keystroke.within span keys = [⟨⟨1, 2, by decide⟩, "ü".toList⟩] ∧
        Text.slice? moved.start moved.stop finalText = some "\x7büb\x7d".toList := by
  intro text span keys finalText
  have sliced : Text.slice? 2 6 text = some "\x7bab\x7d".toList := by decide
  have typedText : Keystroke.typeAll? keys text = some finalText := by decide
  have typed : Keystroke.typeAllBytes? keys (Text.utf8 text) = some (Text.utf8 finalText) := by
    decide
  have shorts : ∀ n < 5, ∀ between ∈ Keystroke.typeAllBytes? (keys.take n) (Text.utf8 text),
      between.length < limit32 := by decide
  have sparing : ∀ n < 4, ∀ k ∈ keys[n]?,
      ∀ now ∈ (Edit.moveAll ((keys.take n).map Keystroke.edit) span).toOption, k.Spares now := by
    decide
  obtain ⟨moved, moves, -, -, slices⟩ := moved_spans_hold_content text span keys
    (Text.utf8 finalText) (by decide) typed
    (by
      intro n between found
      have same : keys.take n = keys.take (min n 4) := List.take_eq_take_iff.2 (by simp [keys])
      exact shorts (min n 4) (by omega) between (by rw [← same]; exact found))
    (by
      intro n k now found move
      have bound : n < 4 := (List.getElem?_eq_some_iff.1 found).1
      exact sparing n bound k found now (by rw [move]; rfl))
  obtain ⟨-, content, inner, held⟩ := slices _ _ sliced typedText
  have only : Keystroke.within span keys = [⟨⟨1, 2, by decide⟩, "ü".toList⟩] := by decide
  have changed : Keystroke.typeAll? (Keystroke.within span keys) "\x7bab\x7d".toList =
      some "\x7büb\x7d".toList := by decide
  exact ⟨sliced, typedText, moved, moves, only, held.trans (inner.symm.trans changed)⟩

end CodeFolding
