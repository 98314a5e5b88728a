import Mathlib
import CodeFolding.Outline.Change

/-!
# Changes are exact

The change between two outlines is decided by the two sets of spans alone: those of the older
outline after the edits (`Outline.movedSpans`) and those of the newer one (`Outline.spans`).

* `Span.IsCover`: what it means to be the least span over a set of spans.
* `Span.isCover_coverDifference`: walking two ordered lists side by side covers exactly the spans
  in one of them.
* `change_covers_difference`: the change is none if the sets are equal, and else their least
  cover.
-/

namespace CodeFolding

namespace Span

/-! ## The order of spans -/

section Order

variable {a b c : Span}

theorem le_iff : a.le b = true ↔ a.start < b.start ∨ a.start = b.start ∧ a.stop ≤ b.stop := by
  simp [le]

theorem lt_iff : a.lt b = true ↔ a.start < b.start ∨ a.start = b.start ∧ a.stop < b.stop := by
  simp [lt]

theorem le_trans (first : a.le b = true) (second : b.le c = true) : a.le c = true := by
  rw [le_iff] at *
  omega

theorem le_total (a b : Span) : (a.le b || b.le a) = true := by
  rw [Bool.or_eq_true, le_iff, le_iff]
  omega

theorem lt_of_le_of_ne (le : a.le b = true) (differ : a ≠ b) : a.lt b = true := by
  rw [le_iff] at le
  rw [lt_iff]
  have : ¬ (a.start = b.start ∧ a.stop = b.stop) := fun same => differ (ext same.1 same.2)
  omega

theorem lt_trans (first : a.lt b = true) (second : b.lt c = true) : a.lt c = true := by
  rw [lt_iff] at *
  omega

theorem ne_of_lt (lt : a.lt b = true) : a ≠ b := by
  rintro rfl
  rw [lt_iff] at lt
  omega

theorem eq_of_not_lt (left : ¬ a.lt b = true) (right : ¬ b.lt a = true) : a = b := by
  rw [lt_iff] at left right
  exact ext (by omega) (by omega)

end Order

/-! ## Ordered lists without repetitions -/

section Normalize

variable {spans collected : List Span} {first s : Span}

theorem mem_eraseReps_loop :
    s ∈ List.eraseRepsBy.loop (· == ·) first spans collected ↔
      s ∈ collected ∨ s = first ∨ s ∈ spans := by
  induction spans generalizing first collected with
  | nil => simp [List.eraseRepsBy.loop, or_comm]
  | cons next spans ih =>
    rw [List.eraseRepsBy.loop]
    split
    next same =>
      obtain rfl := beq_iff_eq.1 same
      rw [ih, List.mem_cons]
      tauto
    next =>
      rw [ih, List.mem_cons, List.mem_cons]
      tauto

theorem eraseReps_loop_pairwise
    (sorted : (first :: spans).Pairwise fun a b => a.le b = true)
    (behind : collected.Pairwise fun a b => b.lt a = true)
    (before : ∀ a ∈ collected, a.lt first = true) :
    (List.eraseRepsBy.loop (· == ·) first spans collected).Pairwise fun a b => a.lt b = true := by
  induction spans generalizing first collected with
  | nil =>
    rw [List.eraseRepsBy.loop, List.pairwise_reverse]
    exact List.pairwise_cons.2 ⟨before, behind⟩
  | cons next spans ih =>
    obtain ⟨least, rest⟩ := List.pairwise_cons.1 sorted
    rw [List.eraseRepsBy.loop]
    split
    next same =>
      obtain rfl := beq_iff_eq.1 same
      exact ih rest behind before
    next other =>
      have later : first.lt next = true :=
        lt_of_le_of_ne (least next List.mem_cons_self) fun same => by simp [same] at other
      refine ih rest (List.pairwise_cons.2 ⟨before, behind⟩) ?_
      intro a member
      rcases List.mem_cons.1 member with rfl | member
      · exact later
      · exact lt_trans (before a member) later

theorem mem_normalize : s ∈ normalize spans ↔ s ∈ spans := by
  have sorted : s ∈ spans.mergeSort le ↔ s ∈ spans := List.mem_mergeSort
  rw [← sorted]
  unfold normalize List.eraseReps List.eraseRepsBy
  cases spans.mergeSort le with
  | nil => rfl
  | cons first rest => simp [mem_eraseReps_loop]

theorem normalize_pairwise (spans : List Span) :
    (normalize spans).Pairwise fun a b => a.lt b = true := by
  have sorted : (spans.mergeSort le).Pairwise fun a b => a.le b = true := by
    apply List.pairwise_mergeSort
    · exact fun a b c => le_trans
    · exact le_total
  unfold normalize List.eraseReps List.eraseRepsBy
  revert sorted
  cases spans.mergeSort le with
  | nil => exact fun _ => List.Pairwise.nil
  | cons first rest =>
    intro sorted
    exact eraseReps_loop_pairwise sorted List.Pairwise.nil fun a member =>
      absurd member List.not_mem_nil

end Normalize

/-! ## Least covers -/

/-- None covers no span, and a span covers a set of spans if it starts with the first of them and
stops with the last. -/
def IsCover (spans : Set Span) : Option Span → Prop
  | none => spans = ∅
  | some span => IsLeast (start '' spans) span.start ∧ IsGreatest (stop '' spans) span.stop

section Cover

variable {spans : Set Span} {covered : Option Span} {s : Span}

theorem isCover_coverWith (cover : IsCover spans covered) (s : Span) :
    IsCover (insert s spans) (coverWith covered s) := by
  unfold coverWith IsCover
  rw [Set.image_insert_eq, Set.image_insert_eq]
  cases covered with
  | none =>
    obtain rfl : spans = ∅ := cover
    simp
  | some span =>
    obtain ⟨least, greatest⟩ := cover
    refine ⟨?_, ?_⟩
    · have := least.insert s.start
      rw [min_comm] at this
      exact this
    · have := greatest.insert s.stop
      rw [max_comm] at this
      exact this

theorem isCover_foldl (cover : IsCover spans covered) (more : List Span) :
    IsCover (spans ∪ {s | s ∈ more}) (more.foldl coverWith covered) := by
  induction more generalizing spans covered with
  | nil => simpa using cover
  | cons s more ih =>
    have grown := ih (isCover_coverWith cover s)
    rwa [show insert s spans ∪ {s | s ∈ more} = spans ∪ {x | x ∈ s :: more} by
      ext x
      simp only [Set.mem_union, Set.mem_insert_iff, Set.mem_ofPred_eq, List.mem_cons]
      tauto] at grown

/-- A least cover reaches over each of its spans. -/
theorem IsCover.bounds {span : Span} (cover : IsCover spans (some span)) (member : s ∈ spans) :
    span.start ≤ s.start ∧ s.stop ≤ span.stop :=
  ⟨cover.1.2 ⟨s, member, rfl⟩, cover.2.2 ⟨s, member, rfl⟩⟩

theorem IsCover.eq_none_iff (cover : IsCover spans covered) : covered = none ↔ spans = ∅ := by
  cases covered with
  | none => exact ⟨fun _ => cover, fun _ => rfl⟩
  | some span =>
    obtain ⟨s, member, -⟩ := cover.1.1
    refine ⟨fun absent => (nomatch absent), fun empty => ?_⟩
    rw [empty] at member
    exact absurd member (Set.notMem_empty s)

/-- A span that the other set does not hold is in the difference. -/
theorem union_symmDiff_cons {olds : List Span} {news : Set Span} (absent : s ∉ news) :
    insert s spans ∪ symmDiff {x | x ∈ olds} news =
      spans ∪ symmDiff {x | x ∈ s :: olds} news := by
  ext x
  by_cases same : x = s
  · simp [Set.mem_symmDiff, same, absent]
  · simp [Set.mem_symmDiff, same]

/-- A span that both lists hold is not in the difference. -/
theorem symmDiff_cons_cons {olds news : List Span} (left : s ∉ olds) (right : s ∉ news) :
    symmDiff {x | x ∈ olds} {x | x ∈ news} =
      symmDiff {x | x ∈ s :: olds} {x | x ∈ s :: news} := by
  ext x
  by_cases same : x = s
  · simp [Set.mem_symmDiff, same, left, right]
  · simp [Set.mem_symmDiff, same]

/-- A span before the first of an ordered list is not in the list. -/
theorem not_mem_of_lt {first : Span} {rest : List Span}
    (sorted : (first :: rest).Pairwise fun a b => a.lt b = true) (before : s.lt first = true) :
    s ∉ first :: rest := by
  intro member
  rcases List.mem_cons.1 member with same | member
  · exact ne_of_lt before same
  · exact ne_of_lt (lt_trans before ((List.pairwise_cons.1 sorted).1 s member)) rfl

/-- Two ordered lists walked side by side: on top of what is covered already, exactly the spans
that stand in one of them are covered. -/
theorem isCover_coverDifference {olds news : List Span}
    (sortedOld : olds.Pairwise fun a b => a.lt b = true)
    (sortedNew : news.Pairwise fun a b => a.lt b = true) (cover : IsCover spans covered) :
    IsCover (spans ∪ symmDiff {s | s ∈ olds} {s | s ∈ news})
      (coverDifference covered olds news) := by
  fun_induction coverDifference covered olds news generalizing spans with
  | case1 covered news =>
    have all := isCover_foldl cover news
    rwa [show {s | s ∈ news} = symmDiff {s | s ∈ ([] : List Span)} {s | s ∈ news} by
      simp [← Set.bot_eq_empty]] at all
  | case2 covered olds _ =>
    have all := isCover_foldl cover olds
    rwa [show {s | s ∈ olds} = symmDiff {s | s ∈ olds} {s | s ∈ ([] : List Span)} by
      simp [← Set.bot_eq_empty]] at all
  | case3 covered old olds new news before ih =>
    have absent : old ∉ {s | s ∈ new :: news} := not_mem_of_lt sortedNew before
    rw [← union_symmDiff_cons absent]
    exact ih (List.pairwise_cons.1 sortedOld).2 sortedNew (isCover_coverWith cover old)
  | case4 covered old olds new news _ before ih =>
    have absent : new ∉ {s | s ∈ old :: olds} := not_mem_of_lt sortedOld before
    rw [symmDiff_comm, ← union_symmDiff_cons absent, symmDiff_comm]
    exact ih sortedOld (List.pairwise_cons.1 sortedNew).2 (isCover_coverWith cover new)
  | case5 covered old olds new news left right ih =>
    obtain rfl := eq_of_not_lt left right
    obtain ⟨leastOld, sortedOld⟩ := List.pairwise_cons.1 sortedOld
    obtain ⟨leastNew, sortedNew⟩ := List.pairwise_cons.1 sortedNew
    rw [← symmDiff_cons_cons (fun member => ne_of_lt (leastOld _ member) rfl)
      (fun member => ne_of_lt (leastNew _ member) rfl)]
    exact ih sortedOld sortedNew cover

end Cover

end Span

theorem exists_mapM_eq_ok {α β : Type} {f : α → Except Fault β} {items : List α}
    (fine : ∀ a ∈ items, ∃ b, f a = .ok b) :
    ∃ results, items.mapM f = .ok results ∧ ∀ b, b ∈ results ↔ ∃ a ∈ items, f a = .ok b := by
  induction items with
  | nil => exact ⟨[], rfl, by simp⟩
  | cons a items ih =>
    obtain ⟨b, here⟩ := fine a List.mem_cons_self
    obtain ⟨results, all, members⟩ := ih fun a member => fine a (List.mem_cons_of_mem _ member)
    refine ⟨b :: results, ?_, ?_⟩
    · rw [List.mapM_cons, here, all]
      rfl
    · intro c
      simp only [List.mem_cons, members, exists_eq_or_imp, here, Except.ok.injEq]
      rw [eq_comm]

theorem exists_of_mapM_eq_ok {α β : Type} {f : α → Except Fault β} {items : List α}
    {results : List β} (all : items.mapM f = .ok results) : ∀ a ∈ items, ∃ b, f a = .ok b := by
  induction items generalizing results with
  | nil => exact fun a member => absurd member List.not_mem_nil
  | cons a items ih =>
    rw [List.mapM_cons] at all
    cases here : f a with
    | error fault =>
      rw [here] at all
      cases all
    | ok b =>
      rw [here] at all
      cases rest : items.mapM f with
      | error fault =>
        rw [rest] at all
        cases all
      | ok results =>
        intro c member
        rcases List.mem_cons.1 member with rfl | member
        · exact ⟨b, here⟩
        · exact ih rest c member

namespace Outline

/-- The spans of an outline. -/
def spans (o : Outline) : Set Span := {s | ∃ r ∈ o.regions, r.span = s}

/-- The spans of an outline after edits. -/
def movedSpans (o : Outline) (edits : List Edit) : Set Span :=
  {s | ∃ r ∈ o.regions, Edit.moveAll edits r.span = .ok s}

/-- No span of the outline leaves its words on the way through the edits. -/
def Movable (o : Outline) (edits : List Edit) : Prop :=
  ∀ r ∈ o.regions, ∃ s, Edit.moveAll edits r.span = .ok s

variable {old new : Outline} {edits : List Edit}

/-- Where spans can be moved there is a change, and it covers the difference of the two sets. -/
theorem exists_change (movable : old.Movable edits) (new : Outline) :
    ∃ changed, old.change new edits = .ok changed ∧
      Span.IsCover (symmDiff (old.movedSpans edits) new.spans) changed := by
  obtain ⟨moved, all, members⟩ := exists_mapM_eq_ok movable
  have olds : {s | s ∈ Span.normalize moved} = old.movedSpans edits := by
    ext s
    exact Span.mem_normalize.trans (members s)
  have news : {s | s ∈ Span.normalize (new.regions.map Region.span)} = new.spans := by
    ext s
    exact Span.mem_normalize.trans List.mem_map
  have start : Span.IsCover ∅ none := rfl
  have cover := Span.isCover_coverDifference (Span.normalize_pairwise moved)
    (Span.normalize_pairwise (new.regions.map Region.span)) start
  rw [olds, news, Set.empty_union] at cover
  refine ⟨_, ?_, cover⟩
  unfold change
  rw [all]
  rfl

/-- A change that was found tells that spans could be moved, and covers the difference. -/
theorem of_change {changed : Option Span} (found : old.change new edits = .ok changed) :
    old.Movable edits ∧
      Span.IsCover (symmDiff (old.movedSpans edits) new.spans) changed := by
  have movable : old.Movable edits := by
    unfold change at found
    cases all : old.regions.mapM fun r => Edit.moveAll edits r.span with
    | error fault =>
      rw [all] at found
      cases found
    | ok moved => exact exists_of_mapM_eq_ok all
  obtain ⟨changed', found', cover⟩ := exists_change movable new
  rw [found] at found'
  cases found'
  exact ⟨movable, cover⟩

end Outline

/-- Whatever two outlines hold, in whatever order and however often: unless a span leaves its
words on the way through the edits, the change between them is none exactly if the old spans have
moved to the new ones, and else the least cover of the spans in one of the two sets only.  So
outside the change the two sets agree. -/
theorem change_covers_difference (old new : Outline) (edits : List Edit)
    (movable : old.Movable edits) :
    ∃ changed, old.change new edits = .ok changed ∧
      (changed = none ↔ old.movedSpans edits = new.spans) ∧
      (old.movedSpans edits ≠ new.spans → ∃ span, changed = some span ∧
        IsLeast (Span.start '' symmDiff (old.movedSpans edits) new.spans) span.start ∧
        IsGreatest (Span.stop '' symmDiff (old.movedSpans edits) new.spans) span.stop) ∧
      ∀ s, (∀ span, changed = some span → ¬ (span.start ≤ s.start ∧ s.stop ≤ span.stop)) →
        (s ∈ old.movedSpans edits ↔ s ∈ new.spans) := by
  obtain ⟨changed, found, cover⟩ := Outline.exists_change movable new
  have same : changed = none ↔ old.movedSpans edits = new.spans :=
    cover.eq_none_iff.trans symmDiff_eq_bot
  refine ⟨changed, found, same, ?_, ?_⟩
  · intro differ
    cases changed with
    | none => exact absurd (same.1 rfl) differ
    | some span => exact ⟨span, rfl, cover⟩
  · intro s outside
    cases changed with
    | none => rw [same.1 rfl]
    | some span =>
      by_contra one
      refine outside span rfl (cover.bounds ?_)
      rw [Set.mem_symmDiff]
      tauto

/-- A span listed twice, two spans with one start, and a span that a deletion empties: of the
moved spans only the emptied one is not new, and one new span is not among them. -/
theorem change_covers_difference_emptied :
    let region (span : Span) : Region := ⟨.block, span, 0, 1, 0, false⟩
    let d := Document.ofText 0 []
    let old : Outline := ⟨0, d,
      [region ⟨5, 9, by decide⟩, region ⟨0, 10, by decide⟩, region ⟨0, 4, by decide⟩,
        region ⟨0, 10, by decide⟩]⟩
    let new : Outline := ⟨0, d,
      [region ⟨0, 6, by decide⟩, region ⟨2, 3, by decide⟩, region ⟨1, 5, by decide⟩]⟩
    let edits := [Edit.deletion ⟨0, 4, by decide⟩]
    old.Movable edits ∧ (old.change new edits).toOption = some (some ⟨0, 3, by decide⟩) ∧
      ∃ changed, old.change new edits = .ok changed ∧
        (changed = none ↔ old.movedSpans edits = new.spans) := by
  intro region d old new edits
  have movable : old.Movable edits := by
    intro r member
    fin_cases member
    · exact ⟨⟨1, 5, by decide⟩, rfl⟩
    · exact ⟨⟨0, 6, by decide⟩, rfl⟩
    · exact ⟨⟨0, 0, by decide⟩, rfl⟩
    · exact ⟨⟨0, 6, by decide⟩, rfl⟩
  obtain ⟨changed, found, same, -⟩ := change_covers_difference old new edits movable
  exact ⟨movable, by cbv, changed, found, same⟩

end CodeFolding
