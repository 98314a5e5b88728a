import Mathlib
import CodeFolding.Proofs.Extension
import CodeFolding.Proofs.Layouts
import CodeFolding.Proofs.Openings
import CodeFolding.Proofs.Plain

/-!
# Scans of two layouts

A scan decides by tokens, lines and blanks only.  So the scans of one code in two layouts go from
token to token side by side (`Scan.Relaid`), though one of them may need more steps for a gap, and
the documents have the same regions.

* `Scan.exists_steps_to`: nothing happens in a gap.
* `Scan.Relaid.step`: one step of the first scan, and the steps of the second that match it.
* `Document.Relaid.outlines`: the two outlines.
-/

namespace CodeFolding

/-! ## Two scans -/

namespace Scan

/-- Scans at the same place that have found the same regions.  Where an import run rolls back to
matters only once there is one. -/
structure Relaid (down : Nat) (same : Nat → Nat → Prop) (s s' : Scan) : Prop where
  options : s'.options = s.options
  cursor : Cursor.Relaid down same s.cursor s'.cursor
  tree : Tree.Relaid same s.tree s'.tree
  within : s'.within = s.within
  pendingArm : Option.Rel same s.pendingArm s'.pendingArm
  rollback : ∀ i, (s.tree.node i).kind = some .importRun → same s.importRollback s'.importRollback
  commentUnclosed : s'.commentUnclosed = s.commentUnclosed

/-- Scans that read the same token. -/
structure Facing (down : Nat) (same : Nat → Nat → Prop) (s s' : Scan) (t t' : Token) : Prop
    extends Relaid down same s s' where
  more : s.cursor.atEnd = false
  token : s.cursor.token? = some t
  token' : s'.cursor.token? = some t'
  pair : Token.Relaid same t t'

/-- Once there is a region, a token stands before the cursor. -/
def Anchored (s : Scan) : Prop :=
  ∀ i, (s.tree.node i).kind ≠ none → ∃ t ∈ s.cursor.tokens, t.start < s.cursor.position

namespace Relaid

variable {down : Nat} {same : Nat → Nat → Prop} {s s' : Scan} {p id : Nat}

theorem laid (scans : Relaid down same s s') : Document.Relaid down same s.document s'.document :=
  scans.cursor.laid

theorem update (scans : Relaid down same s s') (id : Nat) {f g : Node → Node}
    (kept : ∀ n, (f n).kind = n.kind ∧ (f n).children = n.children)
    (changed : (f (s.tree.node id)).Relaid same (g (s'.tree.node id))) :
    Relaid down same { s with tree := s.tree.update id f }
      { s' with tree := s'.tree.update id g } := by
  refine { scans with tree := scans.tree.update kept changed, rollback := ?_ }
  intro i run
  have kinds := Tree.field_update Node.kind (fun n => (kept n).1) s.tree id i
  exact scans.rollback i (kinds.symm.trans run)

theorem close (scans : Relaid down same s s') (id : Nat) {stop stop' : Nat}
    (stops : (s.tree.node id).kind ≠ none → same stop stop') :
    Relaid down same (s.close id stop) (s'.close id stop') := by
  have here := scans.tree.node id
  refine scans.update id (fun n => ⟨rfl, rfl⟩) { here with complete := rfl, stop := ?_ }
  intro region
  exact scans.laid.max (stops region) (here.start region)

theorem leave (scans : Relaid down same s s') (id : Nat) :
    Relaid down same (s.leave id) (s'.leave id) where
  options := scans.options
  cursor := scans.cursor
  tree := by
    unfold Scan.leave
    rw [scans.options]
    exact scans.tree.extendStart scans.laid s.options id
  within := (scans.tree.node id).parent
  pendingArm := scans.pendingArm
  rollback := by
    intro i run
    have kinds := (retouched_extendStart s.options s.document s.tree id).kind i
    exact scans.rollback i (kinds.symm.trans run)
  commentUnclosed := scans.commentUnclosed

theorem enter (scans : Relaid down same s s') (parent : Nat) (o o' : Opening)
    (opened : o.Relaid same o') (other : o.kind ≠ .importRun) :
    Relaid down same (s.enter parent o) (s'.enter parent o') := by
  refine { scans with
    tree := scans.tree.add parent opened, within := congrArg some scans.tree.size,
    rollback := ?_ }
  intro i run
  have kinds := Tree.kind_add_eq s.tree parent o i
  rw [show ((s.tree.add parent o).node i).kind = some .importRun from run] at kinds
  split at kinds
  next => exact absurd (Option.some.inj kinds).symm other
  next => exact scans.rollback i kinds.symm

theorem nextLine (scans : Relaid down same s s') (more : s.cursor.atEnd = false) :
    Relaid down same s.nextLine s'.nextLine :=
  { scans with cursor := scans.cursor.nextLine more }

/-! ### Runs -/

theorem closeRun (scans : Relaid down same s s') (id : Nat) :
    Relaid down same (s.closeRun id) (s'.closeRun id) :=
  scans.close id (scans.tree.node id).stop

theorem finishRun (scans : Relaid down same s s') (id : Nat) :
    Relaid down same (s.finishRun id) (s'.finishRun id) := by
  have here := scans.tree.node id
  have closing : ∀ ends : Bool, Relaid down same (if ends then s.closeRun id else s)
      (if ends then s'.closeRun id else s') := by
    intro ends
    split
    next => exact scans.closeRun id
    next => exact scans
  unfold Scan.finishRun
  dsimp only
  rw [here.kind, here.complete, scans.commentUnclosed]
  exact closing _

end Relaid

namespace Facing

variable {down : Nat} {same : Nat → Nat → Prop} {s s' : Scan} {t t' : Token} {p id : Nat}

theorem advance (facing : Facing down same s s' t t') : Relaid down same s.advance s'.advance :=
  { facing.toRelaid with
    cursor := facing.cursor.advance facing.token facing.token' facing.pair }

theorem update (facing : Facing down same s s' t t') (id : Nat) {f g : Node → Node}
    (kept : ∀ n, (f n).kind = n.kind ∧ (f n).children = n.children)
    (changed : (f (s.tree.node id)).Relaid same (g (s'.tree.node id))) :
    Facing down same { s with tree := s.tree.update id f }
      { s' with tree := s'.tree.update id g } t t' :=
  { facing with toRelaid := facing.toRelaid.update id kept changed }

theorem close (facing : Facing down same s s' t t') (id : Nat) {stop stop' : Nat}
    (stops : (s.tree.node id).kind ≠ none → same stop stop') :
    Facing down same (s.close id stop) (s'.close id stop') t t' :=
  { facing with toRelaid := facing.toRelaid.close id stops }

theorem enter (facing : Facing down same s s' t t') (parent : Nat) (o o' : Opening)
    (opened : o.Relaid same o') (other : o.kind ≠ .importRun) :
    Facing down same (s.enter parent o) (s'.enter parent o') t t' :=
  { facing with toRelaid := facing.toRelaid.enter parent o o' opened other }

/-! ### Runs -/

theorem isTrailing (facing : Facing down same s s' t t') : s'.isTrailing t' = s.isTrailing t := by
  unfold Scan.isTrailing
  rcases none_or_some_of_rel facing.cursor.previous? with
    ⟨none, none'⟩ | ⟨last, last', found, found', before⟩
  · rw [none, none']
  · rw [found, found']
    dsimp only
    rw [before.category, facing.laid.lineOf_beq before.stop facing.pair.start]

theorem leadsLine (facing : Facing down same s s' t t') :
    s'.cursor.leadsLine t' = s.cursor.leadsLine t := by
  unfold Cursor.leadsLine
  rcases none_or_some_of_rel facing.cursor.previous? with
    ⟨none, none'⟩ | ⟨last, last', found, found', before⟩
  · rw [none, none']
  · rw [found, found']
    dsimp only
    rw [facing.cursor.laid.lineOf before.stop, facing.cursor.laid.lineOf facing.pair.start,
      decide_eq_decide]
    exact Nat.add_lt_add_iff_right

theorem beforeParenthesis (facing : Facing down same s s' t t') :
    s'.cursor.beforeParenthesis = s.cursor.beforeParenthesis := by
  unfold Cursor.beforeParenthesis
  rcases none_or_some_of_rel facing.cursor.next? with
    ⟨none, none'⟩ | ⟨next, next', found, found', behind⟩
  · rw [none, none']
  · rw [found, found']
    exact behind.isPunctuation _

theorem isBridge (facing : Facing down same s s' t t') {run : Nat}
    (comment : (s.tree.node run).kind = some .comment) :
    s'.isBridge run t' = s.isBridge run t := by
  have stops := (facing.tree.node run).stop (ne_of_eq_of_ne comment (Option.some_ne_none _))
  unfold Scan.isBridge
  rw [facing.options, facing.pair.category, facing.laid.lineOf_beq facing.pair.start stops]
  congr 1
  rcases none_or_some_of_rel facing.cursor.next? with
    ⟨none, none'⟩ | ⟨next, next', found, found', behind⟩
  · rw [none, none']
  · rw [found, found']
    exact congrArg Category.isComment behind.category

theorem continueComment (facing : Facing down same s s' t t') {run : Nat}
    (comment : (s.tree.node run).kind = some .comment) :
    Relaid down same (s.continueComment run t) (s'.continueComment run t') := by
  unfold Scan.continueComment
  rw [facing.isBridge comment, facing.pair.category]
  split
  next =>
    have grown := facing.update run (f := fun n => { n with stop := t.stop })
      (g := fun n => { n with stop := t'.stop }) (fun n => ⟨rfl, rfl⟩)
      { facing.tree.node run with stop := fun _ => facing.pair.stop }
    exact { grown.advance with commentUnclosed := facing.pair.unclosed }
  next =>
    split
    next => exact facing.advance
    next => exact (facing.toRelaid.closeRun run).leave run

theorem continueImports (facing : Facing down same s s' t t') {run : Nat}
    (imports : (s.tree.node run).kind = some .importRun) :
    Relaid down same (s.continueImports run t) (s'.continueImports run t') := by
  have region := ne_of_eq_of_ne imports (Option.some_ne_none _)
  have here := facing.tree.node run
  unfold Scan.continueImports
  rw [facing.pair.isPunctuation, facing.pair.isPunctuation, facing.leadsLine, facing.options,
    facing.pair.isKeyword, facing.beforeParenthesis]
  split
  next =>
    exact (facing.toRelaid.close run fun _ => facing.rollback run imports).leave run
  next =>
    split
    next => exact facing.advance
    next =>
      split
      next =>
        have lineStop := facing.laid.lineAt_stop facing.pair.start
        have grown := facing.update run
          (f := fun n => { n with stop := (s.document.lineAt t.start).stop })
          (g := fun n => { n with stop := (s'.document.lineAt t'.start).stop })
          (fun n => ⟨rfl, rfl⟩) { here with stop := fun _ => lineStop }
        exact { grown.advance with options := rfl, rollback := fun _ _ => here.stop region }
      next => exact (facing.toRelaid.closeRun run).leave run

/-! ### Openings -/

theorem openBlock (facing : Facing down same s s' t t') (p : Nat) :
    Relaid down same (s.openBlock p t) (s'.openBlock p t') := by
  unfold Scan.openBlock
  dsimp only
  refine Facing.advance (facing.enter p _ _ ⟨rfl, ?_, facing.pair.start, facing.pair.start, nofun⟩
    nofun)
  dsimp only
  rcases none_or_some_of_rel facing.cursor.previous? with
    ⟨none, none'⟩ | ⟨last, last', found, found', before⟩
  · rw [none, none']
  · rw [found, found']
    dsimp only
    rw [facing.laid.lineOf before.stop, facing.laid.lineOf facing.pair.start, Bool.eq_iff_iff,
      beq_iff_eq, beq_iff_eq]
    omega

theorem openComment? (facing : Facing down same s s' t t') (p : Nat) :
    Option.Rel (Relaid down same) (s.openComment? p t) (s'.openComment? p t') := by
  unfold Scan.openComment?
  rw [facing.isTrailing]
  split
  next => exact .none
  next =>
    have opened := facing.enter p
      { kind := .comment, start := t.start, opener := t.text, stop := t.stop }
      { kind := .comment, start := t'.start, opener := t'.text, stop := t'.stop }
      ⟨rfl, rfl, facing.pair.start, facing.pair.stop, nofun⟩ nofun
    exact .some { opened.advance with commentUnclosed := facing.pair.unclosed }

theorem openImports? (facing : Facing down same s s' t t') (p : Nat) :
    Option.Rel (Relaid down same) (s.openImports? p t) (s'.openImports? p t') := by
  have lineStop := facing.laid.lineAt_stop facing.pair.start
  unfold Scan.openImports?
  rw [facing.beforeParenthesis]
  split
  next => exact .none
  next =>
    exact .some
      { facing.advance with
        tree := facing.tree.add p ⟨rfl, rfl, facing.pair.start, lineStop, nofun⟩
        within := congrArg some facing.tree.size
        rollback := fun _ _ => facing.pair.start }

/-! ### Labels -/

theorem groupStart (facing : Facing down same s s' t t') (colon : Nat) :
    same (s.groupStart t colon) (s'.groupStart t' colon) := by
  have lineStop := facing.laid.lineAt_stop facing.pair.start
  have code := Token.Relaid.find? (List.forall₂_drop (colon + 1) facing.cursor.stream)
    (fun t => !t.category.isComment) fun _ _ pair => by rw [pair.category]
  unfold Scan.groupStart
  dsimp only
  rcases none_or_some_of_rel code with ⟨none, none'⟩ | ⟨first, first', found, found', code⟩
  · rw [none, none']
    exact lineStop
  · rw [found, found']
    exact facing.laid.min code.start lineStop

theorem openGroup (facing : Facing down same s s' t t') (p : Nat) {colon : Nat}
    (found : s.cursor.labelColon? = some colon) :
    Relaid down same (s.openGroup p t colon) (s'.openGroup p t' colon) := by
  have starts := facing.groupStart colon
  have opened := facing.toRelaid.enter p
    { kind := .caseGroup, start := s.groupStart t colon, opener := t.text }
    { kind := .caseGroup, start := s'.groupStart t' colon, opener := t'.text }
    ⟨rfl, rfl, starts, starts, nofun⟩ nofun
  exact { opened with cursor := facing.cursor.skipTo facing.token facing.token' found }

/-- Where a region ends that stands before the token. -/
theorem endBefore (facing : Facing down same s s' t t') (anchored : s.Anchored)
    (region : (s.tree.node id).kind ≠ none) :
    same (s.document.endBefore t.start) (s'.document.endBefore t'.start) := by
  refine facing.laid.endBefore facing.pair.start fun blank => ?_
  obtain ⟨u, member, before⟩ := anchored id region
  rw [facing.cursor.tokens] at member
  rw [← Cursor.start_of_token? facing.token] at before
  exact Document.lineOf_pos_of_blankBefore member before blank

theorem region_of_nearestOpen? {t : Tree} {found : Nat} {test : Node → Bool}
    (near : t.nearestOpen? id test = some found) : (t.node found).kind ≠ none :=
  kind_ne_none_of_isOpen (Tree.of_nearestOpen? near).2.1

theorem caseLabel? (facing : Facing down same s s' t t') (anchored : s.Anchored) (p : Nat) :
    Option.Rel (Relaid down same) (s.caseLabel? p t) (s'.caseLabel? p t') := by
  unfold Scan.caseLabel?
  rw [facing.cursor.labelColon?, (facing.tree.node p).kind,
    facing.tree.nearestOpen? p (·.kind == some .caseGroup) fun _ _ node => by rw [node.kind]]
  cases found : s.cursor.labelColon? with
  | none => exact .none
  | some colon =>
    refine .some ?_
    dsimp only
    split
    next => exact facing.openGroup p found
    next group near =>
      have region : (s.tree.node group).kind ≠ none := by
        split at near
        next => cases near
        next => exact region_of_nearestOpen? near
      have closed := facing.close group fun _ => facing.endBefore anchored region
      split
      next => exact closed.toRelaid.leave p
      next => exact closed.openGroup p found

/-! ### Directives -/

theorem openArm (facing : Facing down same s s' t t') (p : Nat) (name : List Char) :
    Relaid down same (s.openArm p t name) (s'.openArm p t' name) := by
  have opened := facing.toRelaid.enter p
    { kind := .conditional, start := t.start, opener := name }
    { kind := .conditional, start := t'.start, opener := name }
    ⟨rfl, rfl, facing.pair.start, facing.pair.start, fun _ => rfl⟩ nofun
  exact opened.nextLine facing.more

theorem closeArm (facing : Facing down same s s' t t') (p : Nat) (names : List String) :
    Relaid down same (s.closeArm p t names) (s'.closeArm p t' names) := by
  unfold Scan.closeArm
  rw [facing.tree.nearestOpen? p (·.isArmOf names) fun _ _ node => node.isArmOf names]
  split
  next arm _ =>
    have closed := facing.toRelaid.close arm fun _ => facing.laid.lineAt_stop facing.pair.start
    exact closed.nextLine facing.more
  next => exact facing.toRelaid.nextLine facing.more

theorem withPending (facing : Facing down same s s' t t') {pending pending' : Option Nat}
    (places : Option.Rel same pending pending') :
    Facing down same { s with pendingArm := pending } { s' with pendingArm := pending' } t t' :=
  { facing with pendingArm := places }

theorem pendingArm_iff (facing : Facing down same s s' t t') :
    s'.pendingArm = some t'.start ↔ s.pendingArm = some t.start := by
  rcases none_or_some_of_rel facing.pendingArm with
    ⟨none, none'⟩ | ⟨place, place', found, found', pending⟩
  · simp [none, none']
  · rw [found, found', Option.some.injEq, Option.some.injEq]
    exact (facing.laid.eq_iff pending facing.pair.start).symm

theorem switchArm (facing : Facing down same s s' t t') (anchored : s.Anchored) (p : Nat)
    (name : List Char) : Relaid down same (s.switchArm p t name) (s'.switchArm p t' name) := by
  unfold Scan.switchArm
  rw [facing.tree.nearestOpen? p (·.isArmOf ["if", "elif"]) fun _ _ node => node.isArmOf _]
  by_cases pending : s.pendingArm = some t.start
  · rw [if_pos pending, if_pos (facing.pendingArm_iff.2 pending)]
    exact (facing.withPending .none).openArm p name
  · rw [if_neg pending, if_neg (pending ∘ facing.pendingArm_iff.1)]
    split
    next => exact facing.openArm p name
    next arm near =>
      have closed :=
        facing.close arm fun _ => facing.endBefore anchored (region_of_nearestOpen? near)
      dsimp only
      split
      next => exact (closed.withPending (.some facing.pair.start)).toRelaid.leave p
      next => exact closed.openArm p name

theorem directive? (facing : Facing down same s s' t t') (anchored : s.Anchored) (p : Nat)
    (directive : t.category.isPreprocessor = true) :
    Option.Rel (Relaid down same) (s.directive? p t) (s'.directive? p t') := by
  unfold Scan.directive?
  rw [facing.pair.text_of_directive directive, facing.options]
  dsimp only
  repeat' split
  · exact .some (facing.openArm p _)
  · exact .some (facing.switchArm anchored p _)
  · exact .some (facing.closeArm p _)
  · exact .some (facing.openArm p _)
  · exact .some (facing.closeArm p _)
  · exact .none

/-! ### Steps -/

theorem open? (facing : Facing down same s s' t t') (anchored : s.Anchored) (p : Nat) :
    Option.Rel (Relaid down same) (s.open? p t) (s'.open? p t') := by
  unfold Scan.open?
  rw [facing.pair.isPunctuation, facing.pair.category, facing.options, facing.pair.isKeyword,
    facing.pair.isKeyword, facing.pair.isKeyword]
  repeat' split
  next => exact .some (facing.openBlock p)
  next => exact facing.openComment? p
  next directive => exact facing.directive? anchored p directive
  next => exact facing.openImports? p
  next => exact facing.caseLabel? anchored p
  next => exact .none

theorem endOrPass (facing : Facing down same s s' t t') (anchored : s.Anchored) (p : Nat) :
    Relaid down same (s.endOrPass p t) (s'.endOrPass p t') := by
  have closes : t'.closes = t.closes := by
    unfold Token.closes
    rw [facing.pair.category]
    by_cases mark : t.category = .punctuation
    · rw [facing.pair.text_of_punctuation mark]
    · rw [decide_eq_false mark, Bool.false_and, Bool.false_and]
  have member := Cursor.mem_of_token? facing.token
  have member' := Cursor.mem_of_token? facing.token'
  rw [facing.cursor.tokens] at member
  rw [facing.cursor.tokens'] at member'
  show Relaid down same
    (if t.closes then _ else _) (if t'.closes then _ else _)
  rw [closes, (facing.tree.node p).kind]
  split
  next brace =>
    have stops := (classify_closing member brace).2
    have stops' := (classify_closing member' (closes.trans brace)).2
    split
    next =>
      dsimp only
      rw [stops, stops']
      exact (facing.close p fun _ => facing.pair.stop).advance.leave p
    next group =>
      have region := ne_of_eq_of_ne group (Option.some_ne_none _)
      exact (facing.toRelaid.close p fun _ => facing.endBefore anchored region).leave p
    next => exact facing.advance
  next => exact facing.advance

theorem read (facing : Facing down same s s' t t') (anchored : s.Anchored) (p : Nat) :
    Relaid down same (s.read p t) (s'.read p t') := by
  unfold Scan.read
  rw [(facing.tree.node p).kind]
  split
  next comment => exact facing.continueComment comment
  next imports => exact facing.continueImports imports
  next =>
    rcases none_or_some_of_rel (facing.open? anchored p) with
      ⟨none, none'⟩ | ⟨opened, opened', found, found', scans⟩
    · rw [none, none']
      exact facing.endOrPass anchored p
    · rw [found, found']
      exact scans

end Facing

/-! ### Whole runs -/

theorem step_of_some {s : Scan} {p : Nat} (within : s.within = some p) :
    s.step =
      if s.cursor.atEnd then (s.finishRun p).leave p
      else if (s.tree.node p).complete then s.leave p
      else s.cursor.token?.elim s.advance (s.read p) := by
  unfold Scan.step
  rw [within]
  cases s.cursor.token? <;> rfl

/-- In a gap a scan only moves: it reaches any place that no token starts before. -/
theorem exists_steps_to {s : Scan} {p target : Nat}
    (formed : Token.WellFormed s.cursor.document s.cursor.tokens) (within : s.within = some p)
    (live : (s.tree.node p).complete = false)
    (boundary : s.cursor.document.Boundary s.cursor.position)
    (reachable : s.cursor.document.Boundary target) (ahead : s.cursor.position ≤ target)
    (gap : ∀ t ∈ s.cursor.tokens, t.start < target → t.start < s.cursor.position) :
    ∃ m, steps m s = { s with cursor := { s.cursor with position := target } } := by
  induction left : target - s.cursor.position using Nat.strong_induction_on generalizing s with
  | _ left ih =>
    rcases Nat.eq_or_lt_of_le ahead with rfl | further
    · exact ⟨0, rfl⟩
    have more : s.cursor.atEnd = false := by
      rw [Cursor.atEnd_eq_false_iff]
      exact Nat.lt_of_lt_of_le further reachable.le_length
    have none : s.cursor.token? = none := by
      cases found : s.cursor.token? with
      | none => rfl
      | some t =>
        have starts := Cursor.start_of_token? found
        have behind := gap t (Cursor.mem_of_token? found) (starts ▸ further)
        omega
    obtain ⟨next, forward, nearest⟩ := Cursor.advance_of_no_token none boundary more
    have short := nearest target reachable further
    have moved : s.step = s.advance := by
      rw [step_of_some within, more, live, none]
      rfl
    have kept := s.cursor.advance_document
    have kept' := s.cursor.advance_tokens
    have onward : ∃ m, steps m s.advance =
        { s.advance with cursor := { s.advance.cursor with position := target } } := by
      refine ih (target - s.cursor.advance.position) (by omega) ?_ within live ?_ ?_ short ?_ rfl
      · show Token.WellFormed s.cursor.advance.document s.cursor.advance.tokens
        rw [kept, kept']
        exact formed
      · show s.cursor.advance.document.Boundary s.cursor.advance.position
        rw [kept]
        exact next
      · show s.cursor.advance.document.Boundary target
        rw [kept]
        exact reachable
      · show ∀ t ∈ s.cursor.advance.tokens, t.start < target → t.start < s.cursor.advance.position
        rw [kept']
        exact fun t member before => Nat.lt_trans (gap t member before) forward
    have place : ({ s.cursor.advance with position := target } : Cursor) =
        { s.cursor with position := target } := by
      rw [Cursor.mk.injEq]
      exact ⟨kept, kept', rfl⟩
    obtain ⟨m, reached⟩ := onward
    refine ⟨m + 1, ?_⟩
    rw [steps, moved, reached, ← place]
    rfl

theorem Steady.anchored {options : ScanOptions} {d : Document} {tokens : List Token} {s : Scan}
    (steady : Steady options d tokens s) (counted : Counted s) : s.Anchored := by
  intro i region
  have known : i < s.tree.nodes.size := by
    by_contra past
    rw [Tree.node_of_le (Nat.le_of_not_lt past)] at region
    exact region rfl
  have below : i ≠ 0 := by
    rintro rfl
    exact region steady.rooted.root.1
  unfold Counted at counted
  obtain ⟨t, member, before⟩ := List.countP_pos_iff.1
    (show 0 < s.cursor.tokens.countP (·.start < s.cursor.position) by omega)
  exact ⟨t, member, of_decide_eq_true before⟩

section Runs

variable {down : Nat} {same : Nat → Nat → Prop} {s s' : Scan} {d d' : Document}

/-- The second scan crosses a gap that the first one crosses. -/
theorem Relaid.gap {p : Nat} (scans : Relaid down same s s') (within : s.within = some p)
    (more : s.cursor.atEnd = false) (live : (s.tree.node p).complete = false)
    (none : s.cursor.token? = none) : ∃ m, Relaid down same s.advance (steps m s') := by
  have here := scans.cursor
  obtain ⟨boundary, boundary'⟩ := here.laid.boundary here.position
  obtain ⟨next, forward, nearest⟩ := Cursor.advance_of_no_token none boundary more
  obtain ⟨target, there⟩ := here.laid.exists_same next
  have gap : ∀ t ∈ s'.cursor.tokens, t.start < target → t.start < s'.cursor.position := by
    intro t' member' before'
    obtain ⟨t, member, pair⟩ := Token.Relaid.exists_of_mem here.stream member'
    rw [← here.laid.lt_iff pair.start here.position]
    rw [← here.laid.lt_iff pair.start there] at before'
    obtain ⟨done, rest, split⟩ := Cursor.exists_split here.formed.ordered boundary
    rw [split.tokens] at member
    rcases List.mem_append.1 member with behind | ahead
    · exact split.behind t behind
    · have after := nearest t.start (here.laid.boundary pair.start).1
        (split.of_no_token none t ahead)
      omega
  obtain ⟨m, reached⟩ := exists_steps_to here.formed' (scans.within.trans within)
    ((scans.tree.node p).complete.trans live) boundary' (here.laid.boundary there).2
    ((here.laid.le_iff here.position there).1 (Nat.le_of_lt forward)) gap
  refine ⟨m, ?_⟩
  rw [reached]
  exact { scans with
    cursor := here.moved ⟨Cursor.advance_document _, Cursor.advance_tokens _⟩ ⟨rfl, rfl⟩ there }

/-- Both scans decide the same, and a gap may take the second one more steps or fewer. -/
theorem Relaid.step (scans : Relaid down same s s') (anchored : s.Anchored) :
    ∃ m, Relaid down same s.step (steps m s') := by
  cases within : s.within with
  | none =>
    rw [step_of_none within]
    exact ⟨0, scans⟩
  | some p =>
    have once : ∀ {next}, Relaid down same next s'.step →
        ∃ m, Relaid down same next (steps m s') := fun scans => ⟨1, scans⟩
    rw [step_of_some (scans.within.trans within), scans.cursor.atEnd,
      (scans.tree.node p).complete] at once
    rw [step_of_some within]
    split
    next ended =>
      rw [if_pos ended] at once
      exact once ((scans.finishRun p).leave p)
    next more =>
      rw [if_neg more] at once
      rw [Bool.not_eq_true] at more
      split
      next complete =>
        rw [if_pos complete] at once
        exact once (scans.leave p)
      next live =>
        rw [if_neg live] at once
        rw [Bool.not_eq_true] at live
        rcases none_or_some_of_rel scans.cursor.token? with
          ⟨none, -⟩ | ⟨t, t', found, found', pair⟩
        · rw [none]
          exact scans.gap within more live none
        · rw [found'] at once
          rw [found]
          exact once (Facing.read ⟨scans, more, found, found', pair⟩ anchored p)

theorem relaid_start (laid : Document.Relaid down same d d') (options : ScanOptions) :
    ∃ m, Relaid down same (start options d (classify d.text))
      (steps m (start options d' (classify d'.text))) := by
  have first := laid.lineStart 0
  rw [Document.lineStart_zero] at first
  have gap : ∀ t ∈ classify d'.text, t.start < d'.lineStart (0 + down) → t.start < 0 := by
    intro t' member' before'
    obtain ⟨t, -, pair⟩ := Token.Relaid.exists_of_mem laid.tokens member'
    rw [← laid.lt_iff pair.start first] at before'
    exact absurd before' (Nat.not_lt_zero _)
  have live : (Tree.empty.node Tree.rootId).complete = false := by
    rw [Tree.node_empty]
    rfl
  obtain ⟨m, reached⟩ := exists_steps_to (s := Scan.start options d' (classify d'.text))
    (classify_wellFormed d') rfl live (Document.boundary_zero d')
    (Document.boundary_lineStart d' (0 + down)) (Nat.zero_le _) gap
  refine ⟨m, ?_⟩
  rw [reached]
  refine ⟨rfl, ⟨laid, rfl, rfl, first⟩, .empty same, rfl, .none, ?_, rfl⟩
  intro i run
  change (Tree.empty.node i).kind = some .importRun at run
  rw [Tree.node_empty] at run
  cases run

/-- Each place of the first run is matched by one of the second. -/
theorem relaid_steps (laid : Document.Relaid down same d d') (options : ScanOptions) (n : Nat) :
    ∃ m, Relaid down same (steps n (start options d (classify d.text)))
      (steps m (start options d' (classify d'.text))) := by
  induction n with
  | zero => exact relaid_start laid options
  | succ n ih =>
    have ordered := (classify_wellFormed d).ordered
    obtain ⟨steady, counted⟩ := ordered_steps_induction (P := Counted) ordered
      (fun _ _ _ steady counted within turn => counted.turn ordered steady within turn)
      (steady_start options d (classify d.text)) (Nat.le_add_left 1 _) n
    obtain ⟨m, scans⟩ := ih
    obtain ⟨k, next⟩ := scans.step (steady.anchored counted)
    refine ⟨m + k, ?_⟩
    rw [steps_add, steps_add]
    exact next

/-- A run that is over at two places is the same there. -/
theorem steps_eq_of_none {m n : Nat} (ended : (steps m s).within = none)
    (ended' : (steps n s).within = none) : steps m s = steps n s := by
  rcases Nat.le_total m n with le | le
  · obtain ⟨k, rfl⟩ := Nat.exists_eq_add_of_le le
    rw [steps_add, steps_of_none ended]
  · obtain ⟨k, rfl⟩ := Nat.exists_eq_add_of_le le
    rw [steps_add, steps_of_none ended']

end Runs

end Scan

section Outlines

variable {down : Nat} {same : Nat → Nat → Prop} {d d' : Document} {a b : Node} {t t' : Tree}

theorem finish_within (options : ScanOptions) (d : Document) :
    (Scan.start options d (classify d.text)).finish.within = none :=
  (Scan.finish_over (P := fun _ => True) (classify_wellFormed d) (fun _ _ _ _ _ _ _ => trivial)
    trivial).2.2.1

theorem Document.Relaid.tree (laid : Document.Relaid down same d d') (options : ScanOptions) :
    Tree.Relaid same (Tree.ofTokens options d (classify d.text))
      (Tree.ofTokens options d' (classify d'.text)) := by
  obtain ⟨m, scans⟩ := Scan.relaid_steps laid options (2 * d.length + 1)
  have over' := scans.within.trans (finish_within options d)
  have same_end := Scan.steps_eq_of_none over' (finish_within options d')
  have trees := scans.tree
  rw [same_end] at trees
  exact trees

/-- The same region in the lists of two documents. -/
structure Region.Relaid (down : Nat) (same : Nat → Nat → Prop) (r r' : Region) : Prop where
  kind : r'.kind = r.kind
  start : same r.span.start r'.span.start
  stop : same r.span.stop r'.span.stop
  startLine : r'.startLine = r.startLine + down
  endLine : r'.endLine = r.endLine + down
  depth : r'.depth = r.depth
  fromPriorLine : r'.fromPriorLine = r.fromPriorLine

theorem Node.region?_of_hidden
    (hidden : a.kind ≠ none → a.complete = true → d.lineOf a.start = d.lineOf a.stop)
    (depth : Nat) : a.region? d depth = .ok none := by
  unfold Node.region?
  cases kind : a.kind with
  | none => rfl
  | some own =>
    dsimp only
    rw [if_neg]
    intro both
    rw [Bool.and_eq_true, bne_iff_ne] at both
    exact both.2 (hidden (by rw [kind]; exact Option.some_ne_none _) both.1)

theorem Node.Relaid.region? (laid : Document.Relaid down same d d') (node : a.Relaid same b)
    (placed : a.Placed d) (depth : Nat) :
    ∃ shown shown', a.region? d depth = .ok shown ∧ b.region? d' depth = .ok shown' ∧
      Option.Rel (Region.Relaid down same) shown shown' := by
  by_cases shown : a.kind ≠ none ∧ a.complete = true ∧ d.lineOf a.start ≠ d.lineOf a.stop
  · obtain ⟨region, complete, lines⟩ := shown
    obtain ⟨own, kind⟩ := Option.ne_none_iff_exists'.1 region
    have startLine := laid.lineOf (node.start region)
    have endLine := laid.lineOf (node.stop region)
    have ordered := placed.ordered complete
    have ordered' := (laid.le_iff (node.start region) (node.stop region)).1 ordered
    have listed := Node.region?_of_lines kind complete lines ordered depth
    have listed' := Node.region?_of_lines (d := d') (node.kind.trans kind)
      (node.complete.trans complete) (by omega) ordered' depth
    exact ⟨_, _, listed, listed', .some ⟨rfl, node.start region, node.stop region, startLine,
      endLine, rfl, node.fromPriorLine⟩⟩
  · have hidden : a.kind ≠ none → a.complete = true → d.lineOf a.start = d.lineOf a.stop := by
      intro region complete
      by_contra lines
      exact shown ⟨region, complete, lines⟩
    refine ⟨none, none, Node.region?_of_hidden hidden depth, Node.region?_of_hidden ?_ depth,
      .none⟩
    intro region complete
    rw [node.kind] at region
    rw [laid.lineOf (node.start region), laid.lineOf (node.stop region),
      hidden region (node.complete.symm.trans complete)]

theorem Tree.Relaid.flattenWork (laid : Document.Relaid down same d d') (trees : t.Relaid same t')
    (placed : t.Placed d) (fuel : Nat) (work : List (Nat × Nat)) :
    ∃ regions regions', t.flattenWork d fuel work = .ok regions ∧
      t'.flattenWork d' fuel work = .ok regions' ∧
      List.Forall₂ (Region.Relaid down same) regions regions' := by
  induction fuel generalizing work with
  | zero => exact ⟨[], [], rfl, rfl, .nil⟩
  | succ fuel ih =>
    cases work with
    | nil => exact ⟨[], [], rfl, rfl, .nil⟩
    | cons item work =>
      obtain ⟨id, depth⟩ := item
      have here := trees.node id
      obtain ⟨shown, shown', region, region', pair⟩ := here.region? laid (placed id) depth
      have listed : shown'.isSome = shown.isSome ∧
          List.Forall₂ (Region.Relaid down same) shown.toList shown'.toList := by
        cases pair with
        | none => exact ⟨rfl, .nil⟩
        | some pair => exact ⟨rfl, .cons pair .nil⟩
      obtain ⟨regions, regions', rest, rest', all⟩ :=
        ih ((t.node id).children.map (·, if shown.isSome then depth + 1 else depth) ++ work)
      rw [← here.children, ← listed.1] at rest'
      exact ⟨shown.toList ++ regions, shown'.toList ++ regions',
        Tree.flattenWork_cons region rest, Tree.flattenWork_cons region' rest',
        List.rel_append listed.2 all⟩

/-- Both documents have the same regions, at the same places. -/
theorem Document.Relaid.outlines (laid : Document.Relaid down same d d') (options : ScanOptions)
    (session session' : SessionId) :
    ∃ o o', Outline.ofTokens options session d (classify d.text) = .ok o ∧
      Outline.ofTokens options session' d' (classify d'.text) = .ok o' ∧
      List.Forall₂ (Region.Relaid down same) o.regions o'.regions := by
  have trees := laid.tree options
  have placed := (steps_placed options (classify_wellFormed d) (2 * d.length + 1)).2.tree
  obtain ⟨regions, regions', listed, listed', all⟩ :=
    trees.flattenWork laid placed (Tree.ofTokens options d (classify d.text)).nodes.size
      (((Tree.ofTokens options d (classify d.text)).node Tree.rootId).children.map (·, 0))
  rw [← trees.size, ← (trees.node Tree.rootId).children] at listed'
  exact ⟨_, _, Outline.ofTokens_eq_ok_iff.2 ⟨regions, listed, rfl⟩,
    Outline.ofTokens_eq_ok_iff.2 ⟨regions', listed', rfl⟩, all⟩

end Outlines

end CodeFolding
