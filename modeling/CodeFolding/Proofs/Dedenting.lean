import Mathlib
import CodeFolding.Proofs.Previews

/-!
# Previews without their indent

The lines of a preview lose the blanks that they have in common and no more, apart from a first
line that starts in the middle of a line.

* `Preview.Dedented`: a line and what is shown of it without an indent.
* `Preview.dedented_stripIndent`: the common indent is cut off every line.
* `Preview.exists_flush`: some line with content has just the common indent.
* `render_dedents`: what a preview shows of any lines.
-/

namespace CodeFolding

namespace Preview

/-- What is shown of a line without an indent: nothing of a blank line, and any other line without
its first characters, as many as the indent and all blank. -/
structure Dedented (indent : Nat) (line cs : List Char) : Prop where
  blank : Text.allBlank line = true → cs = []
  cut : Text.allBlank line = false →
    ∃ front, line = front ++ cs ∧ front.length = indent ∧ Text.allBlank front = true

section Dedented

variable {indent : Nat} {line cs front : List Char} {lines : List (List Char)}

theorem indentOf_append (blank : Text.allBlank front = true) (cs : List Char) :
    indentOf (front ++ cs) = front.length + indentOf cs := by
  unfold indentOf
  rw [List.takeWhile_append_of_pos (List.all_eq_true.1 blank), List.length_append]

/-- Relative indents stay as they are. -/
theorem Dedented.indentOf_eq (dedented : Dedented indent line cs)
    (content : Text.allBlank line = false) : indentOf line = indent + indentOf cs := by
  obtain ⟨front, rfl, rfl, blank⟩ := dedented.cut content
  exact indentOf_append blank cs

/-- The indent of a line is blank. -/
theorem allBlank_take (le : indent ≤ indentOf line) :
    Text.allBlank (line.take indent) = true := by
  have inside : line.take indent = (line.takeWhile Text.isBlank).take indent := by
    nth_rewrite 1 [← List.takeWhile_append_dropWhile (p := Text.isBlank) (l := line)]
    exact List.take_append_of_le_length le
  rw [inside]
  refine List.all_eq_true.2 ?_
  intro c member
  exact List.mem_takeWhile_imp (List.mem_of_mem_take member)

theorem dedented_stripIndent (member : line ∈ lines) :
    Dedented (commonIndent lines) line (stripIndent (commonIndent lines) line) where
  blank := fun blank => if_pos blank
  cut := by
    intro content
    have le := commonIndent_le member content
    have short : indentOf line ≤ line.length := (List.takeWhile_sublist _).length_le
    have shown : stripIndent (commonIndent lines) line = line.drop (commonIndent lines) :=
      if_neg (Bool.eq_false_iff.1 content)
    rw [shown]
    refine ⟨line.take (commonIndent lines), (List.take_append_drop _ _).symm, ?_,
      allBlank_take le⟩
    exact List.length_take_of_le (Nat.le_trans le short)

/-- If a line has content, then some line with content has just the common indent. -/
theorem exists_flush (member : line ∈ lines) (content : Text.allBlank line = false) :
    ∃ flush ∈ lines, Text.allBlank flush = false ∧ indentOf flush = commonIndent lines := by
  have kept : line ∈ lines.filter (!Text.allBlank ·) :=
    List.mem_filter.2 ⟨member, by rw [content]; rfl⟩
  cases least : ((lines.filter (!Text.allBlank ·)).map indentOf).min? with
  | none =>
    rw [List.min?_eq_none_iff, List.map_eq_nil_iff] at least
    rw [least] at kept
    cases kept
  | some indent =>
    obtain ⟨flush, found, same⟩ := List.mem_map.1 (List.min?_mem least)
    obtain ⟨listed, shown⟩ := List.mem_filter.1 found
    refine ⟨flush, listed, by simpa using shown, ?_⟩
    unfold commonIndent
    rw [least, same]
    rfl

theorem exists_cons_of_indentOf_eq_zero (content : Text.allBlank cs = false)
    (flush : indentOf cs = 0) : ∃ c rest, cs = c :: rest ∧ Text.isBlank c = false := by
  cases cs with
  | nil => cases content
  | cons c rest =>
    refine ⟨c, rest, rfl, Bool.eq_false_iff.2 ?_⟩
    intro blank
    unfold indentOf at flush
    rw [List.takeWhile_cons_of_pos blank] at flush
    cases flush

/-- With the common indent cut off, some line begins with a visible character. -/
theorem exists_visible_head (member : line ∈ lines) (content : Text.allBlank line = false) :
    ∃ c rest, c :: rest ∈ lines.map (stripIndent (commonIndent lines)) ∧
      Text.isBlank c = false := by
  obtain ⟨flush, listed, shown, least⟩ := exists_flush member content
  have dedented := dedented_stripIndent listed
  have level := dedented.indentOf_eq shown
  obtain ⟨front, whole, -, blank⟩ := dedented.cut shown
  -- what was cut off is blank, so the content is in what is left
  have rest : Text.allBlank (stripIndent (commonIndent lines) flush) = false := by
    rw [whole] at shown
    unfold Text.allBlank at shown blank ⊢
    rw [List.all_append, blank, Bool.true_and] at shown
    exact shown
  obtain ⟨c, rest, begins, visible⟩ := exists_cons_of_indentOf_eq_zero rest (by omega)
  refine ⟨c, rest, ?_, visible⟩
  rw [← begins]
  exact List.mem_map_of_mem listed

end Dedented

/-! ## Lines that are kept and lines that are cut -/

section Body

variable {α : Type}

theorem take_take_append_map (xs : List α) (f : α → α) (n : Nat) :
    (xs.take n ++ (xs.drop n).map f).take n = xs.take n := by
  rcases Nat.le_total n xs.length with le | le
  · exact List.take_left' (List.length_take_of_le le)
  · rw [List.drop_of_length_le le, List.map_nil, List.append_nil, List.take_take, Nat.min_self]

theorem drop_take_append_map (xs : List α) (f : α → α) (n : Nat) :
    (xs.take n ++ (xs.drop n).map f).drop n = (xs.drop n).map f := by
  rcases Nat.le_total n xs.length with le | le
  · exact List.drop_left' (List.length_take_of_le le)
  · rw [List.drop_of_length_le le, List.map_nil, List.append_nil, List.drop_take_self]

end Body

end Preview

/-- A preview shows as many lines as its budget allows, between the header of debug mode and the
mark of lines that are left out.  A first line that starts in the middle of a line stays as it is.
All other lines lose one and the same number of characters, which are blank, or are blank and
shown empty; and if there are lines with content, one of them begins with a visible character
then.  So lines keep their indents relative to each other, and no visible character is lost. -/
theorem render_dedents (lines : List (List Char)) (budget : Nat)
    (debug partialFirst fallback : Bool) :
    let p := Preview.render lines budget debug partialFirst fallback
    let shown := lines.take budget
    let first := if partialFirst then 1 else 0
    ∃ indent body,
      p.text = ['\n'].intercalate ((if debug then Preview.debugHeader else []) ++ body ++
        if budget < lines.length then ["...".toList] else []) ∧
      body.length = min lines.length budget ∧ p.lines = body.length ∧
      (p.truncated = true ↔ budget < lines.length) ∧
      body.take first = shown.take first ∧
      List.Forall₂ (Preview.Dedented indent) (shown.drop first) (body.drop first) ∧
      ((∃ line ∈ shown.drop first, Text.allBlank line = false) →
        ∃ c rest, c :: rest ∈ body.drop first ∧ Text.isBlank c = false) ∧
      List.Forall₂ (fun line cs => Text.allBlank line = false →
        Preview.indentOf line = indent + Preview.indentOf cs)
          (shown.drop first) (body.drop first) ∧
      List.Forall₂ (fun line cs => Text.visible cs = Text.visible line) shown body := by
  intro p shown first
  let others := shown.drop first
  let strip := Preview.stripIndent (Preview.commonIndent others)
  have cut : List.Forall₂ (Preview.Dedented (Preview.commonIndent others)) others
      (others.map strip) :=
    List.forall₂_map_right_iff.2
      (List.forall₂_same.2 fun line member => Preview.dedented_stripIndent member)
  have head := Preview.take_take_append_map shown strip first
  have tail := Preview.drop_take_append_map shown strip first
  refine ⟨Preview.commonIndent others, shown.take first ++ others.map strip, ?_, ?_, ?_, ?_, head,
    ?_, ?_, ?_, ?_⟩
  · have same : shown.drop (shown.take first).length = others := by simp [others]
    show (Preview.render lines budget debug partialFirst fallback).text = _
    unfold Preview.render
    dsimp only
    rw [same]
  · rw [List.length_append, List.length_map, ← List.length_append, List.take_append_drop,
      List.length_take, Nat.min_comm]
  · rw [List.length_append, List.length_map, ← List.length_append, List.take_append_drop]
    rfl
  · exact decide_eq_true_iff
  · rw [tail]
    exact cut
  · rintro ⟨line, member, content⟩
    rw [tail]
    exact Preview.exists_visible_head member content
  · rw [tail]
    exact cut.imp fun line cs dedented content => dedented.indentOf_eq content
  · have kept : List.Forall₂ (fun line cs => Text.visible cs = Text.visible line)
        (shown.take first) (shown.take first) :=
      List.forall₂_same.2 fun _ _ => rfl
    have stripped : List.Forall₂ (fun line cs => Text.visible cs = Text.visible line)
        others (others.map strip) :=
      List.forall₂_map_right_iff.2
        (List.forall₂_same.2 fun line member => Preview.visible_stripIndent member)
    have all : List.Forall₂ (fun line cs => Text.visible cs = Text.visible line)
        (shown.take first ++ others) (shown.take first ++ others.map strip) :=
      List.rel_append kept stripped
    rw [List.take_append_drop] at all
    exact all

end CodeFolding
