import Mathlib
import CodeFolding.Outline.Edit
import CodeFolding.Text.Bytes
import CodeFolding.Proofs.Places
import CodeFolding.Proofs.Translation

/-!
# Typing

A session is told where bytes were replaced and how many took their place; the host also knows
which ones.  A `Keystroke` is an edit with the string it inserts, so it can be applied to a text.

* `Keystroke.typeAll?`: the text after keystrokes in order.
* `Writing`: texts as lists of characters or as lists of bytes; `Writing.Types` is what a
  keystroke does to either.
* `Keystroke.exists_moveAll`: a span of a text has its place in every text that is typed from it,
  as long as no text on the way is too long for its words.
-/

namespace CodeFolding

/-- Bytes of a text replaced by a string. -/
structure Keystroke where
  span : Span
  insert : List Char
  deriving DecidableEq

namespace Keystroke

/-- What a session is told of a keystroke. -/
def edit (k : Keystroke) : Edit := ⟨k.span, Text.byteLength k.insert⟩

/-- The text after a keystroke; none if its span is no slice of the text. -/
def type? (k : Keystroke) (text : List Char) : Option (List Char) :=
  match Text.takeBytes? k.span.start text, Text.dropBytes? k.span.stop text with
  | some front, some rest => some (front ++ k.insert ++ rest)
  | _, _ => none

/-- The text after one keystroke and then the next. -/
def typeAll? (keys : List Keystroke) (text : List Char) : Option (List Char) :=
  keys.foldlM (fun text k => k.type? text) text

theorem typeAll?_cons (k : Keystroke) (keys : List Keystroke) (text : List Char) :
    typeAll? (k :: keys) text = (k.type? text).bind (typeAll? keys) := rfl

theorem typeAll?_append (keys more : List Keystroke) (text : List Char) :
    typeAll? (keys ++ more) text = (typeAll? keys text).bind (typeAll? more) := by
  unfold typeAll?
  rw [List.foldlM_append]
  rfl

end Keystroke

/-! ## Texts as lists of characters or bytes -/

/-- A way to write texts as lists, with a size of such lists that counts bytes. -/
structure Writing (α : Type) where
  write : List Char → List α
  size : List α → Nat
  size_append : ∀ xs ys, size (xs ++ ys) = size xs + size ys
  size_pos : ∀ xs, xs ≠ [] → 0 < size xs
  size_write : ∀ cs, size (write cs) = Text.byteLength cs

namespace Writing

/-- Texts as their characters. -/
def characters : Writing Char where
  write := id
  size := Text.byteLength
  size_append := Text.byteLength_append
  size_pos := fun _ => Text.byteLength_pos
  size_write := fun _ => rfl

variable {α : Type} {w : Writing α} {k : Keystroke} {keys : List Keystroke}
  {xs xs' final : List α} {span : Span}

/-- Of two initial parts of a list, the one of less size starts the other. -/
theorem exists_middle (w : Writing α) {front rest front' rest' : List α}
    (same : front ++ rest = front' ++ rest') (le : w.size front ≤ w.size front') :
    ∃ middle, front' = front ++ middle ∧ rest = middle ++ rest' :=
  Text.exists_middle_of_size_le w.size_append w.size_pos same le

/-- A keystroke turns one list into another: what stands in its span is gone, and its string
stands there instead. -/
def Types (w : Writing α) (k : Keystroke) (xs xs' : List α) : Prop :=
  ∃ front gone rest, xs = front ++ gone ++ rest ∧ w.size front = k.span.start ∧
    w.size (front ++ gone) = k.span.stop ∧ xs' = front ++ w.write k.insert ++ rest

/-- Keystrokes in order turn one list into another. -/
inductive TypesAll (w : Writing α) : List Keystroke → List α → List α → Prop
  | nil {xs : List α} : TypesAll w [] xs xs
  | cons {k : Keystroke} {keys : List Keystroke} {xs xs' final : List α} :
    w.Types k xs xs' → TypesAll w keys xs' final → TypesAll w (k :: keys) xs final

/-- To type keystrokes one after the other, each in a way that does what it does, is to do what
all of them do. -/
theorem foldlM_eq_some_iff {type : Keystroke → List α → Option (List α)}
    (types : ∀ k xs xs', type k xs = some xs' ↔ w.Types k xs xs') :
    keys.foldlM (fun xs k => type k xs) xs = some final ↔ w.TypesAll keys xs final := by
  induction keys generalizing xs with
  | nil =>
    rw [List.foldlM_nil]
    constructor
    · rintro ⟨⟩
      exact .nil
    · rintro ⟨⟩
      rfl
  | cons k keys ih =>
    rw [List.foldlM_cons, Option.bind_eq_bind, Option.bind_eq_some_iff]
    constructor
    · rintro ⟨next, first, rest⟩
      exact .cons ((types k xs next).1 first) (ih.1 rest)
    · rintro (_ | ⟨first, rest⟩)
      exact ⟨_, (types k xs _).2 first, ih.2 rest⟩

theorem Types.size (types : w.Types k xs xs') :
    k.span.stop ≤ w.size xs ∧
      w.size xs' + k.span.length = w.size xs + Text.byteLength k.insert := by
  obtain ⟨front, gone, rest, rfl, starts, stops, rfl⟩ := types
  have ordered := k.span.start_le_stop
  simp only [w.size_append, w.size_write] at stops ⊢
  unfold Span.length
  omega

/-- A span has its place after a keystroke, if the new text is short enough. -/
theorem Types.move (types : w.Types k xs xs') (inside : span.stop ≤ w.size xs)
    (short : w.size xs' < limit32) :
    k.edit.move span = .ok (k.edit.moved span) ∧ (k.edit.moved span).stop ≤ w.size xs' := by
  obtain ⟨reaches, sizes⟩ := types.size
  have bound : (k.edit.moved span).stop + k.span.length ≤ w.size xs + Text.byteLength k.insert :=
    Edit.moved_stop_add_le (e := k.edit) reaches inside
  have within : (k.edit.moved span).stop ≤ w.size xs' := by omega
  exact ⟨Edit.move_of_lt (Nat.lt_of_le_of_lt within short), within⟩

/-- A span has its place after keystrokes, if every text on the way is short enough. -/
theorem TypesAll.exists_moveAll (all : w.TypesAll keys xs final) (inside : span.stop ≤ w.size xs)
    (short : ∀ n between, w.TypesAll (keys.take n) xs between → w.size between < limit32) :
    ∃ moved, Edit.moveAll (keys.map Keystroke.edit) span = .ok moved ∧
      moved.stop ≤ w.size final := by
  induction all generalizing span with
  | nil => exact ⟨span, rfl, inside⟩
  | @cons k keys xs xs' final first rest ih =>
    obtain ⟨step, bound⟩ := first.move inside (short 1 xs' (.cons first .nil))
    obtain ⟨moved, steps, reached⟩ := ih bound fun n between found =>
      short (n + 1) between (.cons first found)
    exact ⟨moved, (Edit.moveAll_cons step).trans steps, reached⟩

end Writing

namespace Keystroke

variable {k : Keystroke} {keys : List Keystroke} {text text' : List Char} {span : Span}

theorem type?_eq_some_iff :
    k.type? text = some text' ↔ Writing.characters.Types k text text' := by
  unfold type?
  constructor
  · intro typed
    split at typed
    next front rest taken dropped =>
      obtain ⟨starts, behind, cut⟩ := Text.takeBytes?_eq_some_iff.1 taken
      obtain ⟨before, cut', stops⟩ := Text.dropBytes?_eq_some_iff.1 dropped
      obtain ⟨gone, rfl, -⟩ := Text.exists_middle_of_le (cut.symm.trans cut')
        (by rw [starts, stops]; exact k.span.start_le_stop)
      exact ⟨front, gone, rest, cut', starts, stops, (Option.some.inj typed).symm⟩
    next => cases typed
  · rintro ⟨front, gone, rest, rfl, starts, stops, rfl⟩
    have taken : Text.takeBytes? k.span.start (front ++ gone ++ rest) = some front :=
      Text.takeBytes?_eq_some_iff.2 ⟨starts, gone ++ rest, List.append_assoc _ _ _⟩
    have dropped : Text.dropBytes? k.span.stop (front ++ gone ++ rest) = some rest :=
      Text.dropBytes?_eq_some_iff.2 ⟨front ++ gone, rfl, stops⟩
    rw [taken, dropped]
    rfl

theorem typeAll?_eq_some_iff :
    typeAll? keys text = some text' ↔ Writing.characters.TypesAll keys text text' :=
  Writing.foldlM_eq_some_iff fun _ _ _ => type?_eq_some_iff

/-- A span of a text has its place in the text after keystrokes, if every text on the way is short
enough. -/
theorem exists_moveAll (typed : typeAll? keys text = some text')
    (inside : span.stop ≤ Text.byteLength text)
    (small : ∀ n between, typeAll? (keys.take n) text = some between →
      Text.byteLength between < limit32) :
    ∃ moved, Edit.moveAll (keys.map edit) span = .ok moved ∧
      moved.stop ≤ Text.byteLength text' :=
  (typeAll?_eq_some_iff.1 typed).exists_moveAll inside fun n between found =>
    small n between (typeAll?_eq_some_iff.2 found)

end Keystroke

end CodeFolding
