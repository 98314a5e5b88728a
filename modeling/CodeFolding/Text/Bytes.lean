/-!
# Byte offsets into a text

A text is a list of characters, and its offsets count the bytes of its UTF-8 form.  An offset is a
character boundary when it is the byte length of some initial part of the text.

* `byteLength`: bytes of a text.
* `dropBytes?`, `takeBytes?`: cut at a boundary, or fail when the offset is none.
* `slice?_eq_some_iff`: a slice is exactly the middle part of a text that is cut at two
  boundaries.
-/

namespace CodeFolding.Text

/-- Number of bytes in the UTF-8 form of a text. -/
def byteLength : List Char → Nat
  | [] => 0
  | c :: cs => c.utf8Size + byteLength cs

/-- The text from byte offset `n` on, if `n` is a character boundary. -/
def dropBytes? : Nat → List Char → Option (List Char)
  | 0, cs => some cs
  | _ + 1, [] => none
  | n + 1, c :: cs => if c.utf8Size ≤ n + 1 then dropBytes? (n + 1 - c.utf8Size) cs else none

/-- The first `n` bytes of the text, if `n` is a character boundary. -/
def takeBytes? : Nat → List Char → Option (List Char)
  | 0, _ => some []
  | _ + 1, [] => none
  | n + 1, c :: cs =>
    if c.utf8Size ≤ n + 1 then (takeBytes? (n + 1 - c.utf8Size) cs).map (c :: ·) else none

/-- The text between two byte offsets, if both are character boundaries and in order. -/
def slice? (start stop : Nat) (cs : List Char) : Option (List Char) :=
  if start ≤ stop then (dropBytes? start cs).bind (takeBytes? (stop - start)) else none

@[simp]
theorem byteLength_nil : byteLength [] = 0 := rfl

@[simp]
theorem byteLength_cons (c : Char) (cs : List Char) :
    byteLength (c :: cs) = c.utf8Size + byteLength cs := rfl

@[simp]
theorem byteLength_append (cs ds : List Char) :
    byteLength (cs ++ ds) = byteLength cs + byteLength ds := by
  induction cs with
  | nil => simp
  | cons c cs ih => simp [ih, Nat.add_assoc]

/-- Dropping succeeds exactly at the byte length of an initial part. -/
theorem dropBytes?_eq_some_iff {n : Nat} {cs rest : List Char} :
    dropBytes? n cs = some rest ↔ ∃ front, cs = front ++ rest ∧ byteLength front = n := by
  induction cs generalizing n with
  | nil =>
    cases n with
    | zero =>
      simp only [dropBytes?, Option.some.injEq]
      constructor
      · rintro rfl
        exact ⟨[], rfl, rfl⟩
      · rintro ⟨front, cut, -⟩
        exact (List.append_eq_nil_iff.1 cut.symm).2.symm
    | succ n =>
      simp only [dropBytes?, reduceCtorEq, false_iff]
      rintro ⟨front, cut, size⟩
      obtain ⟨rfl, -⟩ := List.append_eq_nil_iff.1 cut.symm
      simp at size
  | cons c cs ih =>
    have width : 0 < c.utf8Size := c.utf8Size_pos
    cases n with
    | zero =>
      simp only [dropBytes?, Option.some.injEq]
      constructor
      · rintro rfl
        exact ⟨[], rfl, rfl⟩
      · rintro ⟨front, cut, size⟩
        cases front with
        | nil => exact cut
        | cons d front => simp only [byteLength_cons] at size; have := d.utf8Size_pos; omega
    | succ n =>
      rw [dropBytes?]
      split
      next fits =>
        rw [ih]
        constructor
        · rintro ⟨front, rfl, size⟩
          exact ⟨c :: front, rfl, by simp only [byteLength_cons]; omega⟩
        · rintro ⟨front, cut, size⟩
          cases front with
          | nil => simp at size
          | cons d front =>
            simp only [List.cons_append, List.cons.injEq] at cut
            obtain ⟨rfl, cut⟩ := cut
            simp only [byteLength_cons] at size
            exact ⟨front, cut, by omega⟩
      next tooWide =>
        simp only [reduceCtorEq, false_iff]
        rintro ⟨front, cut, size⟩
        cases front with
        | nil => simp at size
        | cons d front =>
          simp only [List.cons_append, List.cons.injEq] at cut
          obtain ⟨rfl, -⟩ := cut
          simp only [byteLength_cons] at size
          omega

/-- Taking succeeds exactly with an initial part of that byte length. -/
theorem takeBytes?_eq_some_iff {n : Nat} {cs front : List Char} :
    takeBytes? n cs = some front ↔ byteLength front = n ∧ ∃ rest, cs = front ++ rest := by
  induction cs generalizing n front with
  | nil =>
    cases n with
    | zero =>
      simp only [takeBytes?, Option.some.injEq]
      constructor
      · rintro rfl
        exact ⟨rfl, [], rfl⟩
      · rintro ⟨-, rest, cut⟩
        exact (List.append_eq_nil_iff.1 cut.symm).1.symm
    | succ n =>
      simp only [takeBytes?, reduceCtorEq, false_iff]
      rintro ⟨size, rest, cut⟩
      obtain ⟨rfl, -⟩ := List.append_eq_nil_iff.1 cut.symm
      simp at size
  | cons c cs ih =>
    have width : 0 < c.utf8Size := c.utf8Size_pos
    cases n with
    | zero =>
      simp only [takeBytes?, Option.some.injEq]
      constructor
      · rintro rfl
        exact ⟨rfl, c :: cs, rfl⟩
      · rintro ⟨size, -⟩
        cases front with
        | nil => rfl
        | cons d front => simp only [byteLength_cons] at size; have := d.utf8Size_pos; omega
    | succ n =>
      rw [takeBytes?]
      split
      next fits =>
        simp only [Option.map_eq_some_iff, ih]
        constructor
        · rintro ⟨tail, ⟨size, rest, rfl⟩, rfl⟩
          exact ⟨by simp only [byteLength_cons]; omega, rest, rfl⟩
        · rintro ⟨size, rest, cut⟩
          cases front with
          | nil => simp at size
          | cons d front =>
            simp only [List.cons_append, List.cons.injEq] at cut
            obtain ⟨rfl, cut⟩ := cut
            simp only [byteLength_cons] at size
            exact ⟨front, ⟨by omega, rest, cut⟩, rfl⟩
      next tooWide =>
        simp only [reduceCtorEq, false_iff]
        rintro ⟨size, rest, cut⟩
        cases front with
        | nil => simp at size
        | cons d front =>
          simp only [List.cons_append, List.cons.injEq] at cut
          obtain ⟨rfl, -⟩ := cut
          simp only [byteLength_cons] at size
          omega

/-- A slice is the middle part of a text cut at the two offsets. -/
theorem slice?_eq_some_iff {start stop : Nat} {cs middle : List Char} :
    slice? start stop cs = some middle ↔
      ∃ front rest, cs = front ++ middle ++ rest ∧ byteLength front = start ∧
        byteLength (front ++ middle) = stop := by
  unfold slice?
  split
  next inOrder =>
    simp only [Option.bind_eq_some_iff, dropBytes?_eq_some_iff, takeBytes?_eq_some_iff]
    constructor
    · rintro ⟨tail, ⟨front, rfl, atStart⟩, size, rest, rfl⟩
      exact ⟨front, rest, by simp, atStart, by simp only [byteLength_append]; omega⟩
    · rintro ⟨front, rest, rfl, atStart, atStop⟩
      simp only [byteLength_append] at atStop
      exact ⟨middle ++ rest, ⟨front, by simp, atStart⟩, by omega, rest, rfl⟩
  next reversed =>
    simp only [reduceCtorEq, false_iff]
    rintro ⟨front, rest, -, atStart, atStop⟩
    simp only [byteLength_append] at atStop
    omega

end CodeFolding.Text
