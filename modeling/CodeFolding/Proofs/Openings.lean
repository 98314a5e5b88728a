import Mathlib
import CodeFolding.Proofs.Runs

/-!
# One region for each token

Tokens may overlap as long as they come in order.  A scan then still comes to its end, and since a
region is only opened with a move forward from the start of a token, no token opens two.

* `Turn.exists_token_of_grown`: a turn that opens a region reads a token.
* `Scan.Counted`: there are at most as many regions as tokens behind the cursor.
* `scan_ends_and_opens_once`: the whole run.
-/

namespace CodeFolding

/-- A token between two places is behind the second and not behind the first. -/
theorem Token.countP_start_lt {tokens : List Token} {t : Token} {low high : Nat}
    (member : t ∈ tokens) (above : low ≤ t.start) (below : t.start < high) :
    tokens.countP (·.start < low) + 1 ≤ tokens.countP (·.start < high) := by
  have fewer : ∀ part : List Token,
      part.countP (·.start < low) ≤ part.countP (·.start < high) := by
    intro part
    refine List.countP_mono_left fun u _ behind => ?_
    rw [decide_eq_true_eq] at behind ⊢
    omega
  obtain ⟨before, after, rfl⟩ := List.append_of_mem member
  have left := fewer before
  have right := fewer after
  rw [List.countP_append, List.countP_append, List.countP_cons_of_neg (by simpa using above),
    List.countP_cons_of_pos (by simpa using below)]
  omega

/-- Skipping ends at the target or with the document: the steps it is given suffice. -/
theorem Cursor.skipTo_reaches (c : Cursor) (target : Nat) :
    target ≤ (c.skipTo target).position ∨ (c.skipTo target).atEnd = true := by
  have reaches : ∀ fuel (c : Cursor), target - c.position ≤ fuel →
      target ≤ (c.advanceTo target fuel).position ∨ (c.advanceTo target fuel).atEnd = true := by
    intro fuel
    induction fuel with
    | zero =>
      intro c enough
      exact Or.inl (Nat.sub_eq_zero_iff_le.1 (Nat.le_zero.1 enough))
    | succ fuel ih =>
      intro c enough
      rw [Cursor.advanceTo]
      split
      next =>
        cases ended : c.atEnd with
        | true =>
          rw [Cursor.advance?_eq_none ended]
          exact Or.inr ended
        | false =>
          have moved := Cursor.advance?_eq_some ended
          have forward := Cursor.position_lt_of_advance? moved
          rw [moved]
          exact ih c.advance (by omega)
      next reached => exact Or.inl (Nat.le_of_not_lt reached)
  exact reaches _ c (Nat.le_refl _)

namespace Scan

/-- The next step opens a region. -/
def Opens (s : Scan) : Prop := s.tree.size < s.step.tree.size

section Turns

variable {options : ScanOptions} {d : Document} {tokens : List Token} {s s' : Scan} {p : Nat}

theorem nodes_size_finishRun (s : Scan) (id : Nat) :
    (s.finishRun id).tree.nodes.size = s.tree.nodes.size := by
  rcases finishRun_cases s id with same | ⟨closed, -⟩
  · rw [same]
  · rw [closed]
    exact Tree.nodes_size_close _ _ _

/-- A turn that opens a region reads a token. -/
theorem Turn.exists_token_of_grown (turn : Turn s p s')
    (grown : s'.tree.nodes.size ≠ s.tree.nodes.size) : ∃ t, s.cursor.token? = some t := by
  cases turn with
  | finish _ _ =>
    refine absurd ?_ grown
    rw [(retouched_leave (s.finishRun p) p).size, nodes_size_finishRun]
  | leave _ _ _ => exact absurd (retouched_leave s p).size grown
  | gap _ _ _ _ => exact absurd rfl grown
  | growComment reads _ _ | bridge reads _ _ _ | endComment reads _ _ | giveBack reads _ _
  | sameLine reads _ _ _ | growImports reads _ _ _ | endImports reads _ _ _ =>
    exact ⟨_, reads.token⟩
  | openBlock hosts _ | openComment hosts _ _ | openImports hosts _ | openGroup hosts _ _ _ _
  | endGroup hosts _ _ _ _ | switchGroup hosts _ _ _ _ _ _ | openArm hosts _ _
  | pendingArm hosts _ _ _ | firstArm hosts _ _ _ _ | endArm hosts _ _ _ _
  | switchArm hosts _ _ _ _ _ | closeArm hosts _ _ | closeBlock hosts _ _ _
  | closeGroup hosts _ _ _ | pass hosts _ _ _ =>
    exact ⟨_, hosts.token⟩

/-- There are at most as many regions as tokens that start before the cursor. -/
def Counted (s : Scan) : Prop :=
  s.tree.nodes.size ≤ s.cursor.tokens.countP (·.start < s.cursor.position) + 1

theorem Counted.turn (ordered : Token.Ordered d tokens) (steady : Steady options d tokens s)
    (counted : Counted s) (within : s.within = some p) (turn : Turn s p s') : Counted s' := by
  obtain ⟨done, rest, split⟩ := steady.split
  have more : s.cursor.position ≤ s'.cursor.position →
      s.cursor.tokens.countP (·.start < s.cursor.position) ≤
        s.cursor.tokens.countP (·.start < s'.cursor.position) := by
    intro forward
    refine List.countP_mono_left fun u _ behind => ?_
    rw [decide_eq_true_eq] at behind ⊢
    omega
  unfold Counted at counted ⊢
  rw [turn.moved.same.2]
  have effect := turn.effect (steady.ordered ordered) split (steady.known p within)
  cases effect with
  | stay same _ _ forward =>
    have := more (Nat.le_of_lt forward)
    rw [same.size]
    omega
  | enter same grown _ _ _ forward =>
    have size : s'.tree.nodes.size = s.tree.nodes.size + 1 := by
      rw [grown, Tree.nodes_size_add, same.size]
    obtain ⟨t, token⟩ := turn.exists_token_of_grown (by omega)
    have starts := Cursor.start_of_token? token
    have := Token.countP_start_lt (Cursor.mem_of_token? token) (Nat.le_of_eq starts.symm)
      (starts ▸ forward)
    omega
  | leave same _ _ forward =>
    have := more forward
    rw [same.size]
    omega

/-- A step that opens a region goes forward from a token. -/
theorem Steady.of_opens (ordered : Token.Ordered d tokens) (steady : Steady options d tokens s)
    (opens : s.Opens) :
    ∃ i t, s.cursor.index? = some i ∧ tokens[i]? = some t ∧ t.start = s.cursor.position ∧
      s.cursor.position < s.step.cursor.position := by
  unfold Opens Tree.size at opens
  cases within : s.within with
  | none =>
    rw [step_of_none within] at opens
    exact absurd opens (Nat.lt_irrefl _)
  | some p =>
    have turn := step_turn within
    obtain ⟨t, token⟩ := turn.exists_token_of_grown (by omega)
    obtain ⟨i, index, looked, starts⟩ := Cursor.exists_index_of_token? token
    rw [steady.tokens] at looked
    refine ⟨i, t, index, looked, starts, ?_⟩
    obtain ⟨done, rest, split⟩ := steady.split
    have effect := turn.effect (steady.ordered ordered) split (steady.known p within)
    cases effect with
    | stay _ _ _ forward => exact forward
    | enter _ _ _ _ _ forward => exact forward
    | leave same _ _ _ =>
      rw [same.size] at opens
      exact absurd opens (Nat.lt_irrefl _)

/-- A step opens one region at most. -/
theorem Steady.size_step_le (ordered : Token.Ordered d tokens)
    (steady : Steady options d tokens s) : s.step.tree.size ≤ s.tree.size + 1 := by
  unfold Tree.size
  cases within : s.within with
  | none =>
    rw [step_of_none within]
    exact Nat.le_succ _
  | some p =>
    obtain ⟨done, rest, split⟩ := steady.split
    have turn := step_turn within
    cases turn.effect (steady.ordered ordered) split (steady.known p within) with
    | stay same _ _ _ =>
      rw [same.size]
      exact Nat.le_succ _
    | enter same grown _ _ _ _ =>
      have nonempty := steady.rooted.nonempty
      rw [grown, Tree.nodes_size_add, same.size]
      omega
    | leave same _ _ _ =>
      rw [same.size]
      exact Nat.le_succ _

/-- A scan never goes back. -/
theorem Steady.position_le_steps (ordered : Token.Ordered d tokens)
    (steady : Steady options d tokens s) (n : Nat) :
    s.cursor.position ≤ (steps n s).cursor.position := by
  induction n generalizing s with
  | zero => exact Nat.le_refl _
  | succ n ih =>
    rw [steps]
    cases within : s.within with
    | none =>
      rw [step_of_none within]
      exact ih steady
    | some p =>
      have turn := step_turn within
      obtain ⟨done, rest, split⟩ := steady.split
      obtain ⟨-, forward⟩ := turn.moved.split (steady.ordered ordered) split
      exact Nat.le_trans forward (ih (steady.turn ordered within turn))

theorem steps_add (m n : Nat) (s : Scan) : steps (m + n) s = steps n (steps m s) := by
  induction m generalizing s with
  | zero => rw [Nat.zero_add, steps]
  | succ m ih => rw [Nat.succ_add, steps, steps, ih]

/-- A scan that is over stands at the end of the document. -/
theorem Steady.position_of_none (steady : Steady options d tokens s) (ended : s.within = none) :
    s.cursor.position = d.length := by
  obtain ⟨done, rest, split⟩ := steady.split
  have inside := split.boundary.le_length
  have past := steady.atEnd_of_none ended
  unfold Cursor.atEnd at past
  rw [decide_eq_true_eq] at past
  rw [steady.document] at inside past
  exact Nat.le_antisymm inside past

end Turns

end Scan

/-- A scan of an ordered stream, whose tokens may overlap, comes to its end, and does so at the
end of the document only; every label on the way is skipped to its end.  There are at most as many
regions as tokens, since a step opens one at most, and of two steps that open a region each reads
a token, the later step a later one. -/
theorem scan_ends_and_opens_once (options : ScanOptions) (d : Document) (tokens : List Token)
    (ordered : Token.Ordered d tokens) :
    let run := fun n => Scan.steps n (.start options d tokens)
    let last := (Scan.start options d tokens).finish
    (last.within = none ∧ last.cursor.position = d.length) ∧
    (∀ n, (run n).within = none → (run n).cursor.position = d.length) ∧
    (∀ n target, target ≤ ((run n).cursor.skipTo target).position ∨
      ((run n).cursor.skipTo target).atEnd = true) ∧
    last.tree.size ≤ tokens.length ∧
    (∀ n, (run n).step.tree.size ≤ (run n).tree.size + 1) ∧
    ∀ m n, m < n → (run m).Opens → (run n).Opens →
      ∃ i j, (run m).cursor.index? = some i ∧ (run n).cursor.index? = some j ∧ i < j := by
  intro run last
  have first := Scan.steady_start options d tokens
  have steady : ∀ n, Scan.Steady options d tokens (run n) := fun n =>
    (Scan.ordered_steps_induction (P := fun _ => True) ordered (fun _ _ _ _ _ _ _ => trivial)
      first trivial n).1
  obtain ⟨ends, counted, ended, -⟩ := Scan.ordered_finish_over (P := Scan.Counted) ordered
    (fun _ _ _ steady counted within turn => counted.turn ordered steady within turn)
    (Nat.le_add_left 1 _)
  refine ⟨⟨ended, ends.position_of_none ended⟩, fun n none => (steady n).position_of_none none,
    fun n target => (run n).cursor.skipTo_reaches target, ?_,
    fun n => (steady n).size_step_le ordered, ?_⟩
  · unfold Scan.Counted at counted
    rw [ends.tokens] at counted
    exact Nat.sub_le_of_le_add
      (Nat.le_trans counted (Nat.add_le_add_right List.countP_le_length 1))
  · intro m n before opens opens'
    obtain ⟨i, t, index, looked, starts, forward⟩ := (steady m).of_opens ordered opens
    obtain ⟨j, u, index', looked', starts', -⟩ := (steady n).of_opens ordered opens'
    refine ⟨i, j, index, index', ?_⟩
    obtain ⟨k, rfl⟩ := Nat.exists_eq_add_of_lt before
    have later : (run m).step.cursor.position ≤ (run (m + k + 1)).cursor.position := by
      have onward := (steady (m + 1)).position_le_steps ordered k
      have there : run (m + k + 1) = Scan.steps k (run (m + 1)) := by
        rw [← Scan.steps_add]
        congr 1
        omega
      have here : run (m + 1) = (run m).step := Scan.steps_add m 1 _
      rw [there, ← here]
      exact onward
    by_contra back
    obtain ⟨bound, here⟩ := List.getElem?_eq_some_iff.1 looked
    obtain ⟨bound', there⟩ := List.getElem?_eq_some_iff.1 looked'
    have sorted : tokens[j].start ≤ tokens[i].start := by
      rcases Nat.eq_or_lt_of_le (Nat.le_of_not_lt back) with same | less
      · rw [Nat.le_iff_lt_or_eq]
        exact Or.inr (by subst same; rfl)
      · exact List.pairwise_iff_getElem.1 ordered.sorted j i bound' bound less
    rw [here, there] at sorted
    omega

/-- Three braces that overlap: two start at one place, of which only the first counts. -/
theorem scan_ends_and_opens_once_overlap :
    let d := Document.ofText 0 "\x7b\x7b\n\x7d".toList
    let tokens : List Token :=
      [⟨⟨0, 2, by decide⟩, .punctuation, ['\x7b', '\x7b']⟩,
        ⟨⟨0, 1, by decide⟩, .punctuation, ['\x7b']⟩,
        ⟨⟨1, 4, by decide⟩, .punctuation, ['\x7b', '\n', '\x7d']⟩]
    let run := fun n => Scan.steps n (.start {} d tokens)
    (Scan.start {} d tokens).finish.within = none ∧
      (∀ n, (run n).within = none → (run n).cursor.position = d.length) ∧
      (Scan.start {} d tokens).finish.tree.size ≤ tokens.length := by
  intro d tokens run
  have ordered : Token.Ordered d tokens := ⟨by decide, by decide, by decide +kernel⟩
  obtain ⟨⟨ended, -⟩, read, -, few, -⟩ := scan_ends_and_opens_once {} d tokens ordered
  exact ⟨ended, read, few⟩

end CodeFolding
