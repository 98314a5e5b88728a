import Mathlib
import CodeFolding.Proofs.Runs

/-!
# The life of a run

A run of comments or of imports holds no other region.  From the step that opens it to the step
that leaves it the scan reads nothing else, and no other step touches it.

* `Turn.node_of_isRun`: a turn leaves the runs alone that it does not read.
* `Turn.opened`: what leads to a region that a turn opens.
* `run_life`: what the opening of a run brings about, what reading it keeps, and what leaving it
  leaves behind, holds of every run in the tree of a finished scan.
-/

namespace CodeFolding

namespace Scan

section Steps

variable {options : ScanOptions} {d : Document} {tokens : List Token} {s s' : Scan} {p i : Nat}

/-- What every step preserves holds at the end of the scan. -/
theorem finish_by_steps {P : Scan → Prop} (ordered : Token.Ordered d tokens)
    (keeps : ∀ s p, Steady options d tokens s → P s → s.within = some p → P s.step)
    (holds : P (start options d tokens)) :
    let s := (start options d tokens).finish
    Steady options d tokens s ∧ P s ∧ s.within = none := by
  have walk : ∀ n s, Steady options d tokens s → P s → P (steps n s) := by
    intro n
    induction n with
    | zero => exact fun _ _ holds => holds
    | succ n ih =>
      intro s steady holds
      rw [steps]
      cases within : s.within with
      | none =>
        rw [step_of_none within]
        exact ih s steady holds
      | some p =>
        exact ih s.step (steady.turn ordered within (step_turn within))
          (keeps s p steady holds within)
  have first := steady_start options d tokens
  obtain ⟨steady, -, ended, -⟩ := ordered_finish_over (P := fun s => Steady options d tokens s)
    ordered (fun _ _ _ steady _ within turn => steady.turn ordered within turn) first
  exact ⟨steady, walk _ _ first holds, ended⟩

theorem step_of_atEnd (within : s.within = some p) (ended : s.cursor.atEnd = true) :
    s.step = (s.finishRun p).leave p := by
  unfold step
  rw [within]
  dsimp only
  rw [ended, if_pos rfl]

theorem step_of_gap (within : s.within = some p) (more : s.cursor.atEnd = false)
    (live : (s.tree.node p).complete = false) (none : s.cursor.token? = none) :
    s.step = s.advance := by
  unfold step
  rw [within]
  dsimp only
  rw [more, live, none]
  rfl

theorem Reads.step_eq {t : Token} (reads : s.Reads p t) : s.step = s.read p t := by
  unfold step
  rw [reads.within]
  dsimp only
  rw [reads.more, reads.live, reads.token]
  rfl

theorem Hosts.step_eq {t : Token} (hosts : s.Hosts p t) :
    s.step = (s.open? p t).getD (s.endOrPass p t) := by
  have host := hosts.host
  unfold Node.isRun at host
  rw [Bool.or_eq_false_iff, beq_eq_false_iff_ne, beq_eq_false_iff_ne] at host
  rw [hosts.toReads.step_eq]
  unfold read
  split
  next comments => exact absurd comments host.1
  next imports => exact absurd imports host.2
  next => rfl

/-! ## Runs that are not being read -/

theorem known_of_isRun {t : Tree} (run : (t.node i).isRun = true) : i < t.nodes.size := by
  by_contra past
  rw [Tree.node_of_le (Nat.le_of_not_lt past)] at run
  cases run

theorem isRun_eq_false_of_kind {n : Node} {kind : RegionKind} (region : n.kind = some kind)
    (notComment : kind ≠ .comment) (notImports : kind ≠ .importRun) : n.isRun = false := by
  unfold Node.isRun
  rw [region, Bool.or_eq_false_iff, beq_eq_false_iff_ne, beq_eq_false_iff_ne]
  exact ⟨fun same => notComment (Option.some.inj same),
    fun same => notImports (Option.some.inj same)⟩

theorem node_close_of_isRun {t : Tree} {other stop : Nat} (run : (t.node i).isRun = true)
    (notRun : (t.node other).isRun = false) : (t.close other stop).node i = t.node i := by
  apply Tree.node_close_of_ne
  rintro rfl
  rw [run] at notRun
  cases notRun

/-- A turn leaves the runs alone that it does not read. -/
theorem Turn.node_of_isRun (turn : Turn s p s') (run : (s.tree.node i).isRun = true)
    (other : i ≠ p) : s'.tree.node i = s.tree.node i := by
  have old := Nat.ne_of_lt (known_of_isRun run)
  have left : ∀ {s' : Scan} {t : Tree}, s'.tree = extendStart s'.options s'.document t p →
      t.node i = s.tree.node i → s'.tree.node i = s.tree.node i := by
    intro s' t tree same
    rw [tree, node_extendStart_of_ne other, same]
  have ended : ∀ stop, (s.tree.close p stop).node i = s.tree.node i :=
    fun stop => Tree.node_close_of_ne other
  have added : ∀ {t : Tree} (o : Opening), t.nodes.size = s.tree.nodes.size →
      t.node i = s.tree.node i → (t.add p o).node i = s.tree.node i := by
    intro t o size same
    rw [Tree.node_add_of_ne (by rw [size]; exact old) other, same]
  have armed : ∀ {names : List String} {arm : Nat} (stop : Nat),
      s.tree.nearestOpen? p (·.isArmOf names) = some arm →
        (s.tree.close arm stop).node i = s.tree.node i := by
    intro names arm stop near
    have passed := (Tree.of_nearestOpen? near).2.2
    unfold Node.isArmOf at passed
    rw [Bool.and_eq_true, beq_iff_eq] at passed
    exact node_close_of_isRun run (isRun_eq_false_of_kind passed.1 (by simp) (by simp))
  cases turn with
  | finish _ _ =>
    rcases finishRun_cases s p with same | ⟨closed, -⟩
    · rw [same]
      exact left rfl rfl
    · rw [closed]
      exact left rfl (ended _)
  | leave _ _ _ => exact left rfl rfl
  | gap _ _ _ _ | bridge _ _ _ _ | sameLine _ _ _ _ | pass _ _ _ _ => rfl
  | growComment _ _ _ | growImports _ _ _ _ => exact Tree.node_update_of_ne other
  | endComment _ _ _ | giveBack _ _ _ | endImports _ _ _ _ | endGroup _ _ _ _ _
  | closeBlock _ _ _ _ | closeGroup _ _ _ _ | endArm _ _ _ _ _ => exact left rfl (ended _)
  | openBlock _ _ | openComment _ _ _ | openImports _ _ | openGroup _ _ _ _ _ | openArm _ _ _
  | pendingArm _ _ _ _ | firstArm _ _ _ _ _ => exact added _ rfl rfl
  | switchGroup _ _ _ _ _ near _ =>
    have group := (Tree.of_nearestOpen? near).2.2
    rw [beq_iff_eq] at group
    exact added _ (Tree.nodes_size_close _ _ _)
      (node_close_of_isRun run (isRun_eq_false_of_kind group (by simp) (by simp)))
  | switchArm _ _ _ _ near _ => exact added _ (Tree.nodes_size_close _ _ _) (armed _ near)
  | closeArm _ _ _ =>
    unfold Scan.closeArm
    split
    next near => exact armed _ near
    next => rfl

/-! ## Runs that are read -/

theorem kind_ne_block_of_isRun {n : Node} (run : n.isRun = true) : n.kind ≠ some .block := by
  obtain ⟨kind, region, other, -⟩ := exists_kind_of_isRun run
  rw [region]
  exact fun same => other (Option.some.inj same)

/-- A run that is completed and left stays as it is otherwise. -/
theorem close_leave_of_isRun (run : (s.tree.node p).isRun = true) (stop : Nat) :
    ((s.close p stop).leave p).tree.node p =
        { s.tree.node p with stop := max stop (s.tree.node p).start, complete := true } ∧
      ((s.close p stop).leave p).within = (s.tree.node p).parent := by
  have closed : (s.close p stop).tree.node p =
      { s.tree.node p with stop := max stop (s.tree.node p).start, complete := true } :=
    Tree.node_close_self (known_of_isRun run)
  have same : ((s.close p stop).leave p).tree = (s.close p stop).tree :=
    extendStart_of_kind (by rw [closed]; exact kind_ne_block_of_isRun run)
  constructor
  · rw [same, closed]
  · exact (congrArg Node.parent closed).trans rfl

/-- A run that is read keeps its start, and then it is still read or was left. -/
theorem Turn.start_of_isRun (turn : Turn s p s') (run : (s.tree.node p).isRun = true) :
    (s'.tree.node p).start = (s.tree.node p).start ∧
      (s'.within = some p ∨ s'.within = (s.tree.node p).parent) := by
  have host : ∀ {t : Token}, ¬ s.Hosts p t := by
    intro t hosts
    rw [hosts.host] at run
    cases run
  have ended : ∀ stop, (((s.close p stop).leave p).tree.node p).start = (s.tree.node p).start ∧
      (((s.close p stop).leave p).within = some p ∨
        ((s.close p stop).leave p).within = (s.tree.node p).parent) := by
    intro stop
    obtain ⟨node, outside⟩ := close_leave_of_isRun run stop
    rw [node]
    exact ⟨rfl, Or.inr outside⟩
  have left : (s.leave p).tree = s.tree := extendStart_of_kind (kind_ne_block_of_isRun run)
  cases turn with
  | finish _ _ =>
    rcases finishRun_cases s p with same | ⟨closed, -⟩
    · rw [same, left]
      exact ⟨rfl, Or.inr rfl⟩
    · rw [closed]
      exact ended _
  | leave _ _ _ =>
    rw [left]
    exact ⟨rfl, Or.inr rfl⟩
  | gap within _ _ _ => exact ⟨rfl, Or.inl within⟩
  | bridge reads _ _ _ | sameLine reads _ _ _ => exact ⟨rfl, Or.inl reads.within⟩
  | growComment reads _ _ | growImports reads _ _ _ =>
    refine ⟨?_, Or.inl reads.within⟩
    unfold Scan.advance
    dsimp only
    rw [Tree.node_update_self (known_of_isRun run)]
  | endComment _ _ _ | giveBack _ _ _ | endImports _ _ _ _ => exact ended _
  | openBlock hosts _ | openComment hosts _ _ | openImports hosts _ | openGroup hosts _ _ _ _
  | endGroup hosts _ _ _ _ | switchGroup hosts _ _ _ _ _ _ | openArm hosts _ _
  | pendingArm hosts _ _ _ | firstArm hosts _ _ _ _ | endArm hosts _ _ _ _
  | switchArm hosts _ _ _ _ _ | closeArm hosts _ _ | closeBlock hosts _ _ _
  | closeGroup hosts _ _ _ | pass hosts _ _ _ => exact absurd hosts host

/-! ## Runs that open -/

/-- The scan after a comment has opened a run. -/
def openedComment (s : Scan) (p : Nat) (t : Token) : Scan :=
  { s.enter p { kind := .comment, start := t.start, opener := t.text, stop := t.stop } with
    commentUnclosed := t.isUnclosedComment }.advance

/-- The scan after an import has opened a run. -/
def openedImports (s : Scan) (p : Nat) (t : Token) : Scan :=
  { s.enter p
      { kind := .importRun, start := t.start, opener := t.text,
        stop := (s.document.lineAt t.start).stop } with
    importRollback := t.start }.advance

/-- What leads to a region of a kind: a run starts with a comment that is not behind code, or with
an import keyword, and a group does not open in a group. -/
def Opened (s : Scan) (p : Nat) (s' : Scan) : RegionKind → Prop
  | .comment =>
    ∃ t, s.Hosts p t ∧ t.category.isComment = true ∧ s.isTrailing t = false ∧
      s' = s.openedComment p t
  | .importRun =>
    ∃ t, s.Hosts p t ∧ t.isKeyword s.options.importKeyword = true ∧ s' = s.openedImports p t
  | .caseGroup => (s.tree.node p).kind ≠ some .caseGroup
  | .block | .conditional => True

/-- A turn opens one region at most, in the region that it reads. -/
theorem Turn.opened (turn : Turn s p s') (grown : s'.tree.nodes.size ≠ s.tree.nodes.size) :
    ∃ (t : Tree) (o : Opening), t.nodes.size = s.tree.nodes.size ∧ s'.tree = t.add p o ∧
      Opened s p s' o.kind := by
  have same : ∀ {s' : Scan} {t : Tree}, s'.tree = extendStart s'.options s'.document t p →
      t.nodes.size = s.tree.nodes.size → s'.tree.nodes.size = s.tree.nodes.size := by
    intro s' t tree size
    rw [tree, (retouched_extendStart _ _ _ p).size, size]
  have self : ∀ {t : Token}, s.Hosts p t → (s.tree.node p).kind = some .caseGroup →
      s.tree.nearestOpen? p (·.kind == some .caseGroup) = some p := by
    intro t hosts kind
    exact Tree.nearestOpen?_self (by rw [Node.isOpen, kind, hosts.live]; rfl) (by rw [kind]; rfl)
  cases turn with
  | finish _ _ =>
    refine absurd (same rfl ?_) grown
    rcases finishRun_cases s p with same | ⟨closed, -⟩
    · rw [same]
    · rw [closed]
      exact Tree.nodes_size_close _ _ _
  | leave _ _ _ => exact absurd (same rfl rfl) grown
  | gap _ _ _ _ | bridge _ _ _ _ | sameLine _ _ _ _ | pass _ _ _ _ => exact absurd rfl grown
  | growComment _ _ _ | growImports _ _ _ _ => exact absurd (Tree.nodes_size_update _ _ _) grown
  | endComment _ _ _ | giveBack _ _ _ | endImports _ _ _ _ | endGroup _ _ _ _ _
  | closeBlock _ _ _ _ | closeGroup _ _ _ _ | endArm _ _ _ _ _ =>
    exact absurd (same rfl (Tree.nodes_size_close _ _ _)) grown
  | openComment hosts comment leads => exact ⟨_, _, rfl, rfl, _, hosts, comment, leads, rfl⟩
  | openImports hosts keyword => exact ⟨_, _, rfl, rfl, _, hosts, keyword, rfl⟩
  | openBlock _ _ | openArm _ _ _ | pendingArm _ _ _ _ | firstArm _ _ _ _ _ =>
    exact ⟨_, _, rfl, rfl, trivial⟩
  | openGroup hosts _ _ _ free =>
    refine ⟨_, _, rfl, rfl, fun group => ?_⟩
    rw [group, self hosts group] at free
    rcases free with block | none
    · cases block
    · cases none
  | switchGroup hosts _ _ _ _ near other =>
    refine ⟨_, _, Tree.nodes_size_close _ _ _, rfl, fun group => ?_⟩
    rw [self hosts group] at near
    exact other (Option.some.inj near).symm
  | switchArm _ _ _ _ _ _ => exact ⟨_, _, Tree.nodes_size_close _ _ _, rfl, trivial⟩
  | closeArm _ _ _ =>
    refine absurd ?_ grown
    unfold Scan.closeArm
    split
    · exact Tree.nodes_size_close _ _ _
    · rfl

/-- The region that a turn opens is the new one. -/
theorem Turn.opened_kind {kind : RegionKind} (turn : Turn s p s') (known : p < s.tree.nodes.size)
    (grown : s'.tree.nodes.size ≠ s.tree.nodes.size)
    (region : (s'.tree.node s.tree.nodes.size).kind = some kind) : Opened s p s' kind := by
  obtain ⟨t, o, size, tree, opened⟩ := turn.opened grown
  rw [tree, ← size, Tree.node_add_new (by rw [size]; exact known)] at region
  cases region
  exact opened

/-- A turn that reads an import keyword opens a run, unless the keyword starts a statement. -/
theorem Hosts.step_of_import {t : Token} (hosts : s.Hosts p t)
    (keyword : t.isKeyword s.options.importKeyword = true) :
    s.step = if s.cursor.beforeParenthesis then s.advance else s.openedImports p t := by
  have category := Token.category_isKeyword keyword
  have plain : t.isPunctuation '\x7b' = false ∧ t.category.isComment = false ∧
      t.category.isPreprocessor = false ∧ t.category ≠ .punctuation := by
    unfold Token.isPunctuation
    revert category
    cases t.category <;> simp [Category.isKeyword, Category.isComment, Category.isPreprocessor]
  obtain ⟨brace, comment, directive, mark⟩ := plain
  have opened : s.open? p t = s.openImports? p t := by
    unfold open?
    rw [brace, comment, directive, keyword]
    rfl
  rw [hosts.step_eq, opened]
  unfold openImports? endOrPass
  split
  next =>
    rw [Option.getD_none, decide_eq_false mark]
    rfl
  next => rfl

/-! ## From the opening to the end -/

/-- Every run of a kind is being read, and one thing holds of it, or it was left, and another
does. -/
def Lives (kind : RegionKind) (Reading : Scan → Nat → Prop) (Left : Node → Prop) (s : Scan) :
    Prop :=
  ∀ i, (s.tree.node i).kind = some kind →
    s.within = some i ∧ Reading s i ∨ s.within ≠ some i ∧ Left (s.tree.node i)

section Lives

variable {kind : RegionKind} {Reading : Scan → Nat → Prop} {Left : Node → Prop}

theorem isRun_of_kind {n : Node} (isRun : kind = .comment ∨ kind = .importRun)
    (region : n.kind = some kind) : n.isRun = true := by
  unfold Node.isRun
  rw [region]
  rcases isRun with rfl | rfl <;> rfl

/-- A region is of the kind it was before the step, unless the step opened it. -/
theorem Effect.kind_eq (effect : Effect s p s') (known : p < s.tree.nodes.size)
    (old : ¬ (i = s.tree.nodes.size ∧ s'.tree.nodes.size ≠ s.tree.nodes.size)) :
    (s'.tree.node i).kind = (s.tree.node i).kind := by
  cases effect with
  | stay same _ _ _ => exact same.kind i
  | leave same _ _ _ => exact same.kind i
  | @enter t o same grown _ _ _ _ =>
    have size : s'.tree.nodes.size = s.tree.nodes.size + 1 := by
      rw [grown, Tree.nodes_size_add, same.size]
    have older : i ≠ t.nodes.size := by
      rw [same.size]
      exact fun here => old ⟨here, by omega⟩
    rw [grown, Tree.kind_add (by rw [same.size]; exact known) older, same.kind]

theorem Effect.within_of_grown (effect : Effect s p s')
    (grown : s'.tree.nodes.size ≠ s.tree.nodes.size) : s'.within = some s.tree.nodes.size := by
  cases effect with
  | stay same _ _ _ => exact absurd same.size grown
  | enter _ _ inside _ _ _ => exact inside
  | leave same _ _ _ => exact absurd same.size grown

/-- A step does not go back to a run that it does not read. -/
theorem Effect.within_ne (effect : Effect s p s') (steady : Steady options d tokens s)
    (run : (s.tree.node i).isRun = true) (other : i ≠ p) : s'.within ≠ some i := by
  cases effect with
  | stay _ inside _ _ =>
    rw [inside]
    exact fun same => other (Option.some.inj same).symm
  | enter _ _ inside _ _ _ =>
    rw [inside]
    exact fun same => Nat.ne_of_lt (known_of_isRun run) (Option.some.inj same).symm
  | leave _ outside _ _ =>
    intro back
    rw [steady.leaf p i (outside.symm.trans back)] at run
    cases run

theorem Lives.step (isRun : kind = .comment ∨ kind = .importRun)
    (ordered : Token.Ordered d tokens) (steady : Steady options d tokens s)
    (lives : Lives kind Reading Left s) (within : s.within = some p)
    (opened : s.step.tree.nodes.size ≠ s.tree.nodes.size →
      (s.step.tree.node s.tree.nodes.size).kind = some kind → Reading s.step s.tree.nodes.size)
    (read : (s.tree.node p).kind = some kind → Reading s p →
      s.step.within = some p ∧ Reading s.step p ∨
        s.step.within = (s.tree.node p).parent ∧ Left (s.step.tree.node p)) :
    Lives kind Reading Left s.step := by
  intro i region
  have turn := step_turn within
  have known := steady.known p within
  obtain ⟨done, rest, split⟩ := steady.split
  have effect := turn.effect (steady.ordered ordered) split known
  by_cases new : i = s.tree.nodes.size ∧ s.step.tree.nodes.size ≠ s.tree.nodes.size
  · obtain ⟨rfl, grown⟩ := new
    exact Or.inl ⟨effect.within_of_grown grown, opened grown region⟩
  rw [effect.kind_eq known new] at region
  have run := isRun_of_kind isRun region
  by_cases here : i = p
  · subst here
    rcases lives i region with ⟨-, reading⟩ | ⟨elsewhere, -⟩
    · rcases read region reading with stays | ⟨outside, left⟩
      · exact Or.inl stays
      · refine Or.inr ⟨?_, left⟩
        -- the parent of a region is no run
        intro back
        rw [steady.leaf i i (outside.symm.trans back)] at run
        cases run
    · exact absurd within elsewhere
  · rcases lives i region with ⟨reading, -⟩ | ⟨-, left⟩
    · rw [within, Option.some.injEq] at reading
      exact absurd reading.symm here
    · rw [turn.node_of_isRun run here]
      exact Or.inr ⟨effect.within_ne steady run here, left⟩

variable (Reading Left) in
/-- What holds of a run when it has opened, is kept while it is read, and leads to what holds of
it when it is left, holds of all runs of that kind in the tree of a finished scan. -/
theorem run_life (isRun : kind = .comment ∨ kind = .importRun) (ordered : Token.Ordered d tokens)
    (opened : ∀ s p, Steady options d tokens s → s.within = some p →
      s.step.tree.nodes.size ≠ s.tree.nodes.size →
      (s.step.tree.node s.tree.nodes.size).kind = some kind → Reading s.step s.tree.nodes.size)
    (read : ∀ s p, Steady options d tokens s → s.within = some p →
      (s.tree.node p).kind = some kind → Reading s p →
      s.step.within = some p ∧ Reading s.step p ∨
        s.step.within = (s.tree.node p).parent ∧ Left (s.step.tree.node p)) :
    ∀ i, ((Tree.ofTokens options d tokens).node i).kind = some kind →
      Left ((Tree.ofTokens options d tokens).node i) := by
  have none : Lives kind Reading Left (start options d tokens) := by
    intro i region
    rw [show (start options d tokens).tree = Tree.empty from rfl, Tree.node_empty] at region
    cases region
  obtain ⟨-, lives, ended⟩ := finish_by_steps ordered (fun s p steady lives within =>
    lives.step isRun ordered steady within (opened s p steady within)
      (read s p steady within)) none
  intro i region
  rcases lives i region with ⟨reading, -⟩ | ⟨-, left⟩
  · rw [ended] at reading
    cases reading
  · exact left

end Lives

end Steps

end Scan

end CodeFolding
