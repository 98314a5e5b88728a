import Mathlib
import CodeFolding.Proofs.Runs

/-!
# The arms of directives

What a scan makes of directives depends on the directives alone, however blocks, runs and case
groups stand between them, as long as every directive leads its line and none stands in a label.

* `directiveArms`: the arms that a flat scanner finds, which sees the directives one after another
  and knows nothing of other regions.
* `Scan.Steady.nearestArm?`: the open arm nearest to the region being read is the one that was
  opened last, since every open region is on the way up from there.
* `conditionals_eq_directiveArms`: the arms of the tree are those of the flat scanner.
-/

namespace CodeFolding

/-! ## The flat scanner -/

/-- The keyword of a directive. -/
def Token.isDirective (t : Token) : Bool := t.category == .preprocessorKeyword

/-- The token before a directive ends on an earlier line. -/
def Token.DirectivesLead (d : Document) (tokens : List Token) : Prop :=
  tokens.IsChain fun a b => b.isDirective = true → d.lineOf a.stop < d.lineOf b.start

/-- An arm of a conditional, or a region between two directives. -/
structure Arm where
  start : Nat
  stop : Nat
  complete : Bool
  opener : List Char
  deriving Repr, DecidableEq

namespace Arm

/-- The arm that a directive opens. -/
def ofToken (t : Token) : Arm := ⟨t.start, t.start, false, directiveName t.text⟩

/-- The arm is still open, and a directive of these names opened it. -/
def isOpenOf (names : List String) (a : Arm) : Bool :=
  !a.complete && names.any (·.toList == a.opener)

/-- Close the first open arm of these names; the arm that was opened last comes first. -/
def closeLatest (names : List String) (stop : Nat) : List Arm → List Arm
  | [] => []
  | a :: older =>
    if a.isOpenOf names then { a with stop, complete := true } :: older
    else a :: closeLatest names stop older

/-- Read one directive. -/
def read (options : ScanOptions) (d : Document) (arms : List Arm) (t : Token) : List Arm :=
  let name := directiveName t.text
  let lineStop := (d.lineAt t.start).stop
  if name = "if".toList then ofToken t :: arms
  else if name = "else".toList ∨ name = "elif".toList then
    ofToken t :: closeLatest ["if", "elif"] (d.endBefore t.start) arms
  else if name = "endif".toList then closeLatest ["if", "elif", "else"] lineStop arms
  else if options.foldRegionDirectives = true ∧ name = "region".toList then ofToken t :: arms
  else if options.foldRegionDirectives = true ∧ name = "endregion".toList then
    closeLatest ["region"] lineStop arms
  else arms

/-- Read the directives of a stream. -/
def readAll (options : ScanOptions) (d : Document) (tokens : List Token) : List Arm :=
  (tokens.filter Token.isDirective).foldl (read options d) []

end Arm

/-- The arms of the directives of a stream in the order of opening. -/
def directiveArms (options : ScanOptions) (d : Document) (tokens : List Token) : List Arm :=
  (Arm.readAll options d tokens).reverse

namespace Arm

section Reading

variable {options : ScanOptions} {d : Document} {arms : List Arm} {t : Token}
  {names : List String} {stop : Nat} {tokens more : List Token}

theorem read_of_opensArm (opens : Scan.opensArm options t) :
    read options d arms t = ofToken t :: arms := by
  unfold read
  dsimp only
  rcases opens with name | ⟨fold, name⟩
  · rw [if_pos name]
  · rw [name, if_neg (by decide), if_neg (by decide), if_neg (by decide), if_pos ⟨fold, rfl⟩]

theorem read_of_switchesArm (switches : Scan.switchesArm t) :
    read options d arms t =
      ofToken t :: closeLatest ["if", "elif"] (d.endBefore t.start) arms := by
  unfold Scan.switchesArm at switches
  have notIf : directiveName t.text ≠ "if".toList := by
    rcases switches with name | name
    · rw [name]
      decide
    · rw [name]
      decide
  unfold read
  dsimp only
  rw [if_neg notIf, if_pos switches]

theorem read_of_endsArm (ends : Scan.endsArm options t names) :
    read options d arms t = closeLatest names (d.lineAt t.start).stop arms := by
  unfold read
  dsimp only
  rcases ends with ⟨name, rfl⟩ | ⟨fold, name, rfl⟩
  · rw [name, if_neg (by decide), if_neg (by decide), if_pos rfl]
  · rw [name, if_neg (by decide), if_neg (by decide), if_neg (by decide),
      if_neg (fun both => absurd both.2 (by decide)), if_pos ⟨fold, rfl⟩]

/-- A directive that neither opens nor ends an arm does not matter. -/
theorem read_of_not (notOpens : ¬ Scan.opensArm options t) (notSwitches : ¬ Scan.switchesArm t)
    (notEnds : ∀ names, ¬ Scan.endsArm options t names) : read options d arms t = arms := by
  unfold Scan.switchesArm at notSwitches
  unfold read
  dsimp only
  rw [if_neg (fun name => notOpens (Or.inl name)), if_neg notSwitches,
    if_neg (fun name => notEnds _ (Or.inl ⟨name, rfl⟩)),
    if_neg (fun both => notOpens (Or.inr both)),
    if_neg (fun both => notEnds _ (Or.inr ⟨both.1, both.2, rfl⟩))]

/-- Closing an arm moves no start. -/
theorem map_start_closeLatest : (closeLatest names stop arms).map start = arms.map start := by
  induction arms with
  | nil => rfl
  | cons a older ih =>
    rw [closeLatest]
    split
    next => rfl
    next => rw [List.map_cons, List.map_cons, ih]

theorem closeLatest_of_none (none : arms.find? (isOpenOf names) = none) :
    closeLatest names stop arms = arms := by
  induction arms with
  | nil => rfl
  | cons a older ih =>
    rw [List.find?_cons] at none
    rw [closeLatest]
    split at none
    next => cases none
    next other =>
      rw [if_neg (by rw [other]; exact Bool.false_ne_true), ih none]

/-- Closing the first open arm of a list of arms by number. -/
theorem closeLatest_map {ids : List Nat} {view view' : Nat → Arm} {id : Nat}
    (distinct : ids.Nodup)
    (found : ids.find? (fun i => (view i).isOpenOf names) = some id)
    (closed : view' id = { view id with stop, complete := true })
    (others : ∀ i, i ≠ id → view' i = view i) :
    closeLatest names stop (ids.map view) = ids.map view' := by
  induction ids with
  | nil => cases found
  | cons first older ih =>
    obtain ⟨fresh, distinct⟩ := List.nodup_cons.1 distinct
    rw [List.find?_cons] at found
    rw [List.map_cons, List.map_cons, closeLatest]
    split at found
    next open_ =>
      cases found
      have same : older.map view = older.map view' := by
        apply List.map_congr_left
        intro i member
        rw [others i fun equal => fresh (equal ▸ member)]
      rw [if_pos open_, closed, same]
    next other =>
      have differ : first ≠ id := by
        intro equal
        have passed := List.find?_some found
        rw [← equal, other] at passed
        cases passed
      rw [if_neg (by rw [other]; exact Bool.false_ne_true), others first differ,
        ih distinct found]

theorem readAll_append : readAll options d (tokens ++ more) =
    (more.filter Token.isDirective).foldl (read options d) (readAll options d tokens) := by
  unfold readAll
  rw [List.filter_append, List.foldl_append]

theorem readAll_append_of_not (without : ∀ u ∈ more, u.isDirective = false) :
    readAll options d (tokens ++ more) = readAll options d tokens := by
  rw [readAll_append, List.filter_eq_nil_iff.2]
  · rfl
  · intro u member
    rw [without u member]
    exact Bool.false_ne_true

/-- Reading a directive and what stands behind it on its line. -/
theorem readAll_append_cons (directive : t.isDirective = true)
    (without : ∀ u ∈ more, u.isDirective = false) :
    readAll options d (tokens ++ t :: more) = read options d (readAll options d tokens) t := by
  rw [← List.singleton_append, ← List.append_assoc, readAll_append_of_not without, readAll_append,
    List.filter_cons_of_pos directive]
  rfl

theorem start_read {place : Nat} (member : place ∈ (read options d arms t).map start) :
    place = t.start ∨ place ∈ arms.map start := by
  have opened : ∀ arms : List Arm, place ∈ (ofToken t :: arms).map start →
      place = t.start ∨ place ∈ arms.map start := fun arms => List.mem_cons.1
  unfold read at member
  dsimp only at member
  split at member
  next => exact opened _ member
  next =>
    split at member
    next =>
      have := opened _ member
      rw [map_start_closeLatest] at this
      exact this
    next =>
      split at member
      next =>
        rw [map_start_closeLatest] at member
        exact Or.inr member
      next =>
        split at member
        next => exact opened _ member
        next =>
          split at member
          next =>
            rw [map_start_closeLatest] at member
            exact Or.inr member
          next => exact Or.inr member

/-- Arms start with tokens. -/
theorem start_readAll {place : Nat} (member : place ∈ (readAll options d tokens).map start) :
    ∃ u ∈ tokens, place = u.start := by
  induction tokens using List.reverseRecOn with
  | nil => cases member
  | append_singleton tokens t ih =>
    have older : place ∈ (readAll options d tokens).map start →
        ∃ u ∈ tokens ++ [t], place = u.start := by
      intro member
      obtain ⟨u, listed, starts⟩ := ih member
      exact ⟨u, List.mem_append_left _ listed, starts⟩
    cases directive : t.isDirective with
    | false =>
      rw [readAll_append_of_not] at member
      · exact older member
      · intro u listed
        rw [List.mem_singleton.1 listed]
        exact directive
    | true =>
      rw [readAll_append_cons directive fun _ listed => absurd listed List.not_mem_nil] at member
      rcases start_read member with starts | member
      · exact ⟨t, by simp, starts⟩
      · exact older member

end Reading

end Arm

/-! ## The arms of a tree -/

/-- A node as an arm. -/
def Node.arm (n : Node) : Arm := ⟨n.start, n.stop, n.complete, n.opener⟩

namespace Tree

/-- The arms of a tree; the one that was opened last comes first. -/
def arms (t : Tree) : List Arm := (t.ofKind .conditional).reverse.map fun i => (t.node i).arm

section Arms

variable {t t' : Tree} {o : Opening} {p id stop : Nat} {names : List String}

theorem Keeps.arms (keeps : Keeps .conditional t t') : t'.arms = t.arms := by
  unfold Tree.arms
  rw [keeps.regions]
  apply List.map_congr_left
  intro i member
  obtain ⟨children, same⟩ := keeps.node i (mem_ofKind.1 (List.mem_reverse.1 member)).2
  rw [same]
  rfl

theorem arms_add (known : p < t.nodes.size) (kind : o.kind = .conditional) :
    (t.add p o).arms = ⟨o.start, o.stop, false, o.opener⟩ :: t.arms := by
  unfold arms
  rw [ofKind_add known, if_pos kind, List.reverse_append, List.reverse_singleton,
    List.singleton_append, List.map_cons, node_add_new known]
  congr 1
  apply List.map_congr_left
  intro i member
  have old := (mem_ofKind.1 (List.mem_reverse.1 member)).1
  obtain ⟨children, same⟩ := exists_node_add (o := o) known (Nat.ne_of_lt old)
  rw [same]
  rfl

/-- Closing the latest open arm of these names closes the first of the list. -/
theorem arms_close
    (found : (t.ofKind .conditional).reverse.find? (fun i => (t.node i).arm.isOpenOf names) =
      some id)
    (ordered : (t.node id).start ≤ stop) :
    (t.close id stop).arms = Arm.closeLatest names stop t.arms := by
  obtain ⟨known, kind⟩ := mem_ofKind.1 (List.mem_reverse.1 (List.mem_of_find?_eq_some found))
  have same : t.Retouched (t.close id stop) := .close (by rw [kind]; simp) _
  unfold arms
  rw [same.ofKind]
  symm
  refine Arm.closeLatest_map ?_ found ?_ ?_
  · exact List.nodup_reverse.2 (t.ofKind_pairwise .conditional).nodup
  · rw [node_close_self known]
    unfold Node.arm
    rw [Nat.max_eq_left ordered]
  · intro i differ
    rw [node_close_of_ne differ]

end Arms

end Tree

/-! ## The nearest arm -/

theorem Node.isOpen_and_isArmOf_iff {n : Node} {names : List String} :
    (n.isOpen && n.isArmOf names) = true ↔
      n.kind = some .conditional ∧ n.arm.isOpenOf names = true := by
  unfold Node.isOpen Node.isArmOf Arm.isOpenOf Node.arm
  simp only [Bool.and_eq_true, beq_iff_eq]
  constructor
  · rintro ⟨⟨-, live⟩, kind, named⟩
    exact ⟨kind, live, named⟩
  · rintro ⟨kind, live, named⟩
    exact ⟨⟨by rw [kind]; rfl, live⟩, kind, named⟩

/-- Two falling lists that agree on the members that pass have the same first of them. -/
theorem find?_eq_of_falling {l l' : List Nat} {test test' : Nat → Bool}
    (falls : l.Pairwise (· > ·)) (falls' : l'.Pairwise (· > ·))
    (same : ∀ i, i ∈ l ∧ test i = true ↔ i ∈ l' ∧ test' i = true) :
    l.find? test = l'.find? test' := by
  have left := falls.filter test
  have right := falls'.filter test'
  have filtered : l.filter test = l'.filter test' := by
    refine List.Perm.eq_of_pairwise' left right ?_
    refine (List.perm_ext_iff_of_nodup left.nodup right.nodup).2 ?_
    intro i
    rw [List.mem_filter, List.mem_filter]
    exact same i
  rw [← List.head?_filter, ← List.head?_filter, filtered]

namespace Scan

section Nearest

variable {options : ScanOptions} {d : Document} {tokens : List Token} {s : Scan} {p : Nat}

/-- Every open region is on the way up from the region being read, so the nearest open arm is the
one that was opened last. -/
theorem Steady.nearestArm? (steady : Steady options d tokens s) (within : s.within = some p)
    (more : s.cursor.atEnd = false) (names : List String) :
    s.tree.nearestOpen? p (·.isArmOf names) =
      (s.tree.ofKind .conditional).reverse.find? fun i => (s.tree.node i).arm.isOpenOf names := by
  unfold Tree.nearestOpen?
  -- numbers fall on the way up as they do from the last arm to the first
  refine find?_eq_of_falling (s.tree.ancestors_pairwise p)
    (List.pairwise_reverse.2 (s.tree.ofKind_pairwise _)) ?_
  intro i
  rw [List.mem_reverse, Tree.mem_ofKind, Node.isOpen_and_isArmOf_iff]
  constructor
  · rintro ⟨-, kind, passed⟩
    refine ⟨⟨?_, kind⟩, passed⟩
    by_contra past
    rw [Tree.node_of_le (Nat.le_of_not_lt past)] at kind
    cases kind
  · rintro ⟨⟨-, kind⟩, passed⟩
    refine ⟨?_, kind, passed⟩
    rw [← path_eq within]
    have live := Node.isOpen_and_isArmOf_iff.2 ⟨kind, passed⟩
    exact steady.onPath more i (Bool.and_eq_true_iff.1 live).1

/-- Closing the nearest open arm closes the latest one. -/
theorem Steady.arms_close (steady : Steady options d tokens s) (within : s.within = some p)
    (more : s.cursor.atEnd = false) {names : List String} {id stop : Nat}
    (near : s.tree.nearestOpen? p (·.isArmOf names) = some id)
    (ordered : ∀ place ∈ s.tree.arms.map Arm.start, place ≤ stop) :
    (s.tree.close id stop).arms = Arm.closeLatest names stop s.tree.arms := by
  rw [steady.nearestArm? within more] at near
  refine Tree.arms_close near (ordered _ ?_)
  unfold Tree.arms
  rw [List.map_map]
  exact List.mem_map.2 ⟨id, List.mem_of_find?_eq_some near, rfl⟩

theorem Steady.closeLatest_arms (steady : Steady options d tokens s) (within : s.within = some p)
    (more : s.cursor.atEnd = false) {names : List String}
    (near : s.tree.nearestOpen? p (·.isArmOf names) = none) (stop : Nat) :
    Arm.closeLatest names stop s.tree.arms = s.tree.arms := by
  rw [steady.nearestArm? within more] at near
  apply Arm.closeLatest_of_none
  unfold Tree.arms
  rw [List.find?_map, Option.map_eq_none_iff]
  exact near

end Nearest

/-! ## Directives lead their lines -/

section Leads

variable {d : Document} {tokens done rest later : List Token} {c : Cursor} {t u : Token}

theorem lineOf_stop_lt_directive (formed : Token.WellFormed d (done ++ t :: later))
    (leads : Token.DirectivesLead d (done ++ t :: later)) (directive : t.isDirective = true)
    (member : u ∈ done) : d.lineOf u.stop < d.lineOf t.start := by
  refine formed.lineOf_stop_lt ?_ member
  intro last ends
  exact (List.isChain_append.1 leads).2.2 last ends t rfl directive

/-- A token before a directive starts before both places where the directive can end an arm. -/
theorem start_le_of_directive (formed : Token.WellFormed d (done ++ t :: later))
    (leads : Token.DirectivesLead d (done ++ t :: later)) (directive : t.isDirective = true)
    (member : u ∈ done) :
    u.start ≤ d.endBefore t.start ∧ u.start ≤ (d.lineAt t.start).stop := by
  have above := lineOf_stop_lt_directive formed leads directive member
  have width := formed.nonempty u (List.mem_append_left _ member)
  have bound := d.lineOf_lt t.start
  have inside := Document.le_lineStop_of_lt (d := d) width (by omega)
  refine ⟨Nat.le_trans inside (Document.lineStop_le_endBefore above), ?_⟩
  rw [Document.lineAt_stop]
  exact Nat.le_trans inside (Document.lineStop_mono (Nat.le_of_lt above))

theorem leadsLine_of_directive (split : c.Split done (t :: later))
    (index : c.index? = some done.length) (leads : Token.DirectivesLead c.document c.tokens)
    (directive : t.isDirective = true) : c.leadsLine t = true := by
  rw [split.tokens] at leads
  unfold Cursor.leadsLine
  rw [split.previous?_eq index]
  cases ends : done.getLast? with
  | none => rfl
  | some last =>
    exact decide_eq_true ((List.isChain_append.1 leads).2.2 last ends t rfl directive)

/-- Going on below a directive skips no other directive. -/
theorem nextLine_directive (formed : Token.WellFormed c.document c.tokens)
    (leads : Token.DirectivesLead c.document c.tokens) (split : c.Split done rest)
    (token : c.token? = some t) (ahead : c.atEnd = false) :
    ∃ more later, c.nextLine.Split (done ++ t :: more) later ∧
      ∀ u ∈ more, u.isDirective = false := by
  obtain ⟨behind, rfl, starts, -⟩ := split.of_token? formed token
  obtain ⟨skipped, later, cut, moved, forward, line⟩ := split.nextLine formed ahead
  -- the directive itself is skipped, and what else is skipped starts on its line
  cases skipped with
  | nil =>
    have := moved.ahead t (by rw [← List.nil_append later, ← cut]; exact List.mem_cons_self)
    omega
  | cons first more =>
    rw [List.cons_append, List.cons.injEq] at cut
    obtain ⟨rfl, rfl⟩ := cut
    refine ⟨more, later, moved, ?_⟩
    intro u member
    by_contra directive
    rw [Bool.not_eq_false] at directive
    obtain ⟨before, after, rfl⟩ := List.append_of_mem member
    have tokens : c.tokens = (done ++ t :: before) ++ u :: (after ++ later) := by
      rw [split.tokens]
      simp
    have here := line u (List.mem_cons_of_mem _ member)
    rw [tokens] at formed leads
    have above := lineOf_stop_lt_directive (u := t) formed leads directive (by simp)
    have width := formed.nonempty t (by simp)
    have := Document.lineOf_mono (d := c.document) (Nat.le_of_lt width)
    rw [← starts] at here
    omega

end Leads

/-! ## Turns -/

section Turns

variable {options : ScanOptions} {d : Document} {tokens done rest later : List Token}
  {s s' : Scan} {p : Nat} {t : Token}

/-- What a turn does to the arms of a scan that has read the tokens `done`. -/
inductive ArmTurn (options : ScanOptions) (d : Document) (done : List Token) (s s' : Scan) : Prop
  | still :
    s'.cursor = s.cursor → s'.tree.arms = s.tree.arms → s'.pendingArm = s.pendingArm →
    ArmTurn options d done s s'
  | skip {skipped later : List Token} :
    s'.cursor.Split (done ++ skipped) later → (∀ u ∈ skipped, u.isDirective = false) →
    (∀ t, s.cursor.token? = some t → t.isDirective = false) → s'.tree.arms = s.tree.arms →
    s'.pendingArm = s.pendingArm → ArmTurn options d done s s'
  | hold {t : Token} :
    s.cursor.token? = some t → t.isDirective = true → switchesArm t →
    s.pendingArm ≠ some t.start → s'.cursor = s.cursor →
    s'.tree.arms = Arm.closeLatest ["if", "elif"] (d.endBefore t.start) s.tree.arms →
    s'.pendingArm = some t.start → ArmTurn options d done s s'
  | resume {t : Token} {more later : List Token} :
    s.cursor.token? = some t → t.isDirective = true → switchesArm t →
    s.pendingArm = some t.start → s'.cursor.Split (done ++ t :: more) later →
    (∀ u ∈ more, u.isDirective = false) → s'.tree.arms = Arm.ofToken t :: s.tree.arms →
    s'.pendingArm = none → ArmTurn options d done s s'
  | take {t : Token} {more later : List Token} :
    s.cursor.token? = some t → t.isDirective = true →
    (switchesArm t → s.pendingArm ≠ some t.start) → s'.cursor.Split (done ++ t :: more) later →
    (∀ u ∈ more, u.isDirective = false) → s'.tree.arms = Arm.read options d s.tree.arms t →
    s'.pendingArm = s.pendingArm → ArmTurn options d done s s'

theorem not_isDirective_of_isKeyword (keyword : t.category.isKeyword = true) :
    t.isDirective = false := by
  apply beq_false_of_ne
  intro directive
  rw [directive] at keyword
  cases keyword

theorem not_isDirective_of_isComment (comment : t.category.isComment = true) :
    t.isDirective = false := by
  apply beq_false_of_ne
  intro directive
  rw [directive] at comment
  cases comment

theorem not_isDirective_of_punctuation (mark : t.category = .punctuation) :
    t.isDirective = false := by
  unfold Token.isDirective
  rw [mark]
  rfl

theorem isDirective_of_category (category : t.category = .preprocessorKeyword) :
    t.isDirective = true := by
  unfold Token.isDirective
  rw [category]
  rfl

theorem not_switchesArm_of_opensArm (opens : opensArm options t) : ¬ switchesArm t := by
  unfold switchesArm
  rcases opens with name | ⟨-, name⟩
  · rw [name]
    decide
  · rw [name]
    decide

theorem not_switchesArm_of_endsArm {names : List String} (ends : endsArm options t names) :
    ¬ switchesArm t := by
  unfold switchesArm
  rcases ends with ⟨name, -⟩ | ⟨-, name, -⟩
  · rw [name]
    decide
  · rw [name]
    decide

/-- The turn passes a token that is no directive and changes no arm. -/
theorem armTurn_pass (formed : Token.WellFormed s.cursor.document s.cursor.tokens)
    (split : s.cursor.Split done rest) (token : s.cursor.token? = some t)
    (other : t.isDirective = false) (cursor : s'.cursor = s.cursor.advance)
    (keeps : s.tree.Keeps .conditional s'.tree) (pending : s'.pendingArm = s.pendingArm) :
    ArmTurn options d done s s' := by
  obtain ⟨later, rfl, -⟩ := split.of_token? formed token
  have cut := split.advance_token formed token
  rw [← cursor] at cut
  refine .skip cut ?_ ?_ keeps.arms pending
  · intro u member
    rw [List.mem_singleton.1 member]
    exact other
  · intro u here
    rw [← Option.some.inj (token.symm.trans here)]
    exact other

/-- The turn passes a label without directives and changes no arm. -/
theorem armTurn_label (formed : Token.WellFormed s.cursor.document s.cursor.tokens)
    (free : labelsFree Token.isDirective s.cursor.tokens = true)
    (split : s.cursor.Split done rest)
    (token : s.cursor.token? = some t) (starts : t.startsLabel = true) {colon : Nat}
    (found : s.cursor.labelColon? = some colon)
    (cursor : s'.cursor =
      s.cursor.skipTo (((s.cursor.tokens[colon]?).map Token.stop).getD t.stop))
    (keeps : s.tree.Keeps .conditional s'.tree) (pending : s'.pendingArm = s.pendingArm) :
    ArmTurn options d done s s' := by
  have keyword := not_isDirective_of_isKeyword (Token.category_isKeyword_of_startsLabel starts)
  obtain ⟨skipped, later, cut, without⟩ := skipLabel_free formed free split token starts found
    keyword fun _ category _ => not_isDirective_of_punctuation category
  rw [← cursor] at cut
  refine .skip cut without ?_ keeps.arms pending
  intro u here
  rw [← Option.some.inj (token.symm.trans here)]
  exact keyword

/-- The turn reads a directive and goes on below its line. -/
theorem armTurn_take (formed : Token.WellFormed s.cursor.document s.cursor.tokens)
    (leads : Token.DirectivesLead s.cursor.document s.cursor.tokens)
    (split : s.cursor.Split done rest) (hosts : s.Hosts p t) (directive : t.isDirective = true)
    (fresh : switchesArm t → s.pendingArm ≠ some t.start)
    (cursor : s'.cursor = s.cursor.nextLine)
    (arms : s'.tree.arms = Arm.read options d s.tree.arms t)
    (pending : s'.pendingArm = s.pendingArm) : ArmTurn options d done s s' := by
  obtain ⟨more, later, cut, without⟩ :=
    nextLine_directive formed leads split hosts.token hosts.more
  rw [← cursor] at cut
  exact .take hosts.token directive fresh cut without arms pending

/-- The arms that are there start before both places where a directive can end one. -/
theorem armStart_le (formed : Token.WellFormed d tokens) (leads : Token.DirectivesLead d tokens)
    (steady : Steady options d tokens s) (split : s.cursor.Split done rest)
    (starts : ∀ place ∈ s.tree.arms.map Arm.start, ∃ u ∈ done, place = u.start)
    (token : s.cursor.token? = some t) (directive : t.isDirective = true) :
    (∀ place ∈ s.tree.arms.map Arm.start, place ≤ d.endBefore t.start) ∧
      ∀ place ∈ s.tree.arms.map Arm.start, place ≤ (d.lineAt t.start).stop := by
  obtain ⟨later, rfl, -⟩ := split.of_token? (steady.formed formed) token
  rw [← steady.tokens, split.tokens] at formed leads
  refine ⟨?_, ?_⟩
  · intro place member
    obtain ⟨u, listed, rfl⟩ := starts place member
    exact (start_le_of_directive formed leads directive listed).1
  · intro place member
    obtain ⟨u, listed, rfl⟩ := starts place member
    exact (start_le_of_directive formed leads directive listed).2

/-- Every turn does one of these things to the arms. -/
theorem Turn.armTurn (formed : Token.WellFormed d tokens)
    (leads : Token.DirectivesLead d tokens)
    (labels : options.groupCases = true → labelsFree Token.isDirective tokens = true)
    (steady : Steady options d tokens s) (split : s.cursor.Split done rest)
    (starts : ∀ place ∈ s.tree.arms.map Arm.start, ∃ u ∈ done, place = u.start)
    (turn : Turn s p s') : ArmTurn options d done s s' := by
  have formed' := steady.formed formed
  have leads' : Token.DirectivesLead s.cursor.document s.cursor.tokens := by
    rw [steady.document, steady.tokens]
    exact leads
  have free : s.options.groupCases = true →
      labelsFree Token.isDirective s.cursor.tokens = true := by
    rw [steady.options, steady.tokens]
    exact labels
  have leave : ∀ {e : Document} {t : Tree},
      t.Keeps .conditional (extendStart s.options e t p) :=
    keeps_extendStart (by simp) _ _ _ p
  have closeLeave : ∀ {e : Document} {k : RegionKind} {stop : Nat},
      (s.tree.node p).kind = some k → k ≠ .conditional →
      s.tree.Keeps .conditional (extendStart s.options e (s.tree.close p stop) p) :=
    fun kind other => (Tree.keeps_close kind other _).trans leave
  cases turn with
  | finish _ _ =>
    rcases finishRun_cases s p with same | ⟨closed, run, -⟩
    · rw [same]
      exact .still rfl leave.arms rfl
    · obtain ⟨k, kind, -, other⟩ := exists_kind_of_isRun run
      rw [closed]
      exact .still rfl (closeLeave kind other).arms rfl
  | leave _ _ _ => exact .still rfl leave.arms rfl
  | gap _ more _ none =>
    have cut := split.advance_gap formed' none more
    rw [← List.append_nil done] at cut
    refine .skip cut (fun _ member => absurd member List.not_mem_nil) ?_ rfl rfl
    intro t token
    rw [none] at token
    cases token
  | growComment reads kind comment =>
    refine armTurn_pass formed' split reads.token (not_isDirective_of_isComment comment) rfl ?_
      rfl
    exact Tree.keeps_update (by rw [kind]; simp) (.move _ _ _ _)
  | bridge reads _ _ bridge =>
    refine armTurn_pass formed' split reads.token ?_ rfl (.refl _ _) rfl
    unfold Token.isDirective
    rw [category_of_isBridge bridge]
    rfl
  | endComment _ kind _ => exact .still rfl (closeLeave kind (by simp)).arms rfl
  | giveBack _ kind _ => exact .still rfl (closeLeave kind (by simp)).arms rfl
  | sameLine reads _ _ behind =>
    -- a directive would lead its line and so end the imports
    obtain ⟨later, rfl, -, index⟩ := split.of_token? formed' reads.token
    refine armTurn_pass formed' split reads.token ?_ rfl (.refl _ _) rfl
    by_contra directive
    rw [Bool.not_eq_false] at directive
    rw [leadsLine_of_directive split index leads' directive] at behind
    cases behind
  | growImports reads kind _ keyword =>
    refine armTurn_pass formed' split reads.token
      (not_isDirective_of_isKeyword (Token.category_isKeyword keyword)) rfl ?_ rfl
    exact Tree.keeps_update (by rw [kind]; simp) (.move _ _ _ _)
  | endImports _ kind _ _ => exact .still rfl (closeLeave kind (by simp)).arms rfl
  | openBlock hosts brace =>
    exact armTurn_pass formed' split hosts.token
      (not_isDirective_of_punctuation (Token.category_of_isPunctuation brace)) rfl
      (Tree.keeps_add (steady.known p hosts.within) (by simp)) rfl
  | openComment hosts comment _ =>
    exact armTurn_pass formed' split hosts.token (not_isDirective_of_isComment comment) rfl
      (Tree.keeps_add (steady.known p hosts.within) (by simp)) rfl
  | openImports hosts keyword =>
    exact armTurn_pass formed' split hosts.token
      (not_isDirective_of_isKeyword (Token.category_isKeyword keyword)) rfl
      (Tree.keeps_add (steady.known p hosts.within) (by simp)) rfl
  | openGroup hosts grouped label found _ =>
    exact armTurn_label formed' (free grouped) split hosts.token label found rfl
      (Tree.keeps_add (steady.known p hosts.within) (by simp)) rfl
  | endGroup _ _ _ _ kind => exact .still rfl (closeLeave kind (by simp)).arms rfl
  | @switchGroup t colon group hosts grouped label found _ near _ =>
    have kind := (Tree.of_nearestOpen? near).2.2
    have closed : s.tree.Keeps .conditional (s.tree.close group (s.document.endBefore t.start)) :=
      Tree.keeps_close (beq_iff_eq.1 kind) (by simp) _
    refine armTurn_label formed' (free grouped) split hosts.token label found rfl ?_ rfl
    refine closed.trans (Tree.keeps_add ?_ (by simp))
    rw [Tree.nodes_size_close]
    exact steady.known p hosts.within
  | openArm hosts category opens =>
    refine armTurn_take formed' leads' split hosts (isDirective_of_category category) ?_ rfl ?_
      rfl
    · exact fun switches => absurd switches (not_switchesArm_of_opensArm opens)
    · rw [← steady.options, Arm.read_of_opensArm opens]
      exact Tree.arms_add (steady.known p hosts.within) rfl
  | pendingArm hosts category switches pending =>
    obtain ⟨more, later, cut, without⟩ :=
      nextLine_directive formed' leads' split hosts.token hosts.more
    exact .resume hosts.token (isDirective_of_category category) switches pending cut without
      (Tree.arms_add (steady.known p hosts.within) rfl) rfl
  | firstArm hosts category switches fresh none =>
    refine armTurn_take formed' leads' split hosts (isDirective_of_category category)
      (fun _ => fresh) rfl ?_ rfl
    rw [Arm.read_of_switchesArm switches, steady.closeLatest_arms hosts.within hosts.more none]
    exact Tree.arms_add (steady.known p hosts.within) rfl
  | endArm hosts category switches fresh near =>
    have directive := isDirective_of_category category
    have ordered := (armStart_le formed leads steady split starts hosts.token directive).1
    refine .hold hosts.token directive switches fresh rfl ?_ rfl
    rw [← steady.arms_close hosts.within hosts.more near ordered, ← steady.document]
    exact leave.arms
  | @switchArm t arm hosts category switches fresh near _ =>
    have directive := isDirective_of_category category
    have ordered := (armStart_le formed leads steady split starts hosts.token directive).1
    have known : p < (s.tree.close arm (s.document.endBefore t.start)).nodes.size := by
      rw [Tree.nodes_size_close]
      exact steady.known p hosts.within
    refine armTurn_take formed' leads' split hosts directive (fun _ => fresh) rfl ?_ rfl
    rw [Arm.read_of_switchesArm switches,
      ← steady.arms_close hosts.within hosts.more near ordered, ← steady.document]
    exact Tree.arms_add known rfl
  | @closeArm t names hosts category ends =>
    have directive := isDirective_of_category category
    have ordered := (armStart_le formed leads steady split starts hosts.token directive).2
    have other : switchesArm t → s.pendingArm ≠ some t.start :=
      fun switches => absurd switches (not_switchesArm_of_endsArm ends)
    rw [steady.options] at ends
    unfold Scan.closeArm
    split
    next arm near =>
      refine armTurn_take formed' leads' split hosts directive other rfl ?_ rfl
      rw [Arm.read_of_endsArm ends, ← steady.arms_close hosts.within hosts.more near ordered,
        ← steady.document]
      rfl
    next none =>
      refine armTurn_take formed' leads' split hosts directive other rfl ?_ rfl
      rw [Arm.read_of_endsArm ends, steady.closeLatest_arms hosts.within hosts.more none]
      rfl
  | closeBlock hosts _ closes kind =>
    exact armTurn_pass formed' split hosts.token
      (not_isDirective_of_punctuation (Token.category_of_closes closes)) rfl
      (closeLeave kind (by simp)) rfl
  | closeGroup _ _ _ kind => exact .still rfl (closeLeave kind (by simp)).arms rfl
  | @pass t hosts _ _ ignored =>
    cases directive : t.isDirective with
    | false => exact armTurn_pass formed' split hosts.token directive rfl (.refl _ _) rfl
    | true =>
      obtain ⟨notOpens, notSwitches, notEnds⟩ := ignored (beq_iff_eq.1 directive)
      obtain ⟨later, rfl, -⟩ := split.of_token? formed' hosts.token
      refine .take hosts.token directive (fun switches => absurd switches notSwitches)
        (split.advance_token formed' hosts.token)
        (fun _ member => absurd member List.not_mem_nil) ?_ rfl
      rw [← steady.options, Arm.read_of_not notOpens notSwitches notEnds]
      rfl

/-- The arms of the tree are those of the flat scanner after the tokens read so far.  A directive
that ends the arm being read takes two turns to open the next, and between them that arm is
missing. -/
inductive Agrees (options : ScanOptions) (d : Document) (done : List Token) (s : Scan) : Prop
  | settled :
    s.pendingArm = none → s.tree.arms = Arm.readAll options d done → Agrees options d done s
  | held {t : Token} :
    s.cursor.token? = some t → t.isDirective = true → switchesArm t →
    s.pendingArm = some t.start →
    s.tree.arms =
      Arm.closeLatest ["if", "elif"] (d.endBefore t.start) (Arm.readAll options d done) →
    Agrees options d done s

theorem Agrees.starts (agrees : Agrees options d done s) :
    ∀ place ∈ s.tree.arms.map Arm.start, ∃ u ∈ done, place = u.start := by
  intro place member
  cases agrees with
  | settled _ arms =>
    rw [arms] at member
    exact Arm.start_readAll member
  | held _ _ _ _ arms =>
    rw [arms, Arm.map_start_closeLatest] at member
    exact Arm.start_readAll member

theorem Agrees.turn (split : s.cursor.Split done rest) (agrees : Agrees options d done s)
    (turn : ArmTurn options d done s s') :
    ∃ done' rest', s'.cursor.Split done' rest' ∧ Agrees options d done' s' := by
  cases agrees with
  | settled none arms =>
    cases turn with
    | still cursor arms' pending' =>
      exact ⟨done, rest, by rw [cursor]; exact split,
        .settled (pending'.trans none) (arms'.trans arms)⟩
    | skip cut without _ arms' pending' =>
      refine ⟨_, _, cut, .settled (pending'.trans none) ?_⟩
      rw [Arm.readAll_append_of_not without]
      exact arms'.trans arms
    | hold token directive switches _ cursor arms' pending' =>
      refine ⟨done, rest, by rw [cursor]; exact split, ?_⟩
      refine .held (by rw [cursor]; exact token) directive switches pending' ?_
      rw [arms', arms]
    | resume _ _ _ pending _ _ _ _ =>
      rw [none] at pending
      cases pending
    | take _ directive _ cut without arms' pending' =>
      refine ⟨_, _, cut, .settled (pending'.trans none) ?_⟩
      rw [arms', arms, Arm.readAll_append_cons directive without]
  | held token directive switches pending arms =>
    -- the directive is still at the cursor, so the scan leaves regions or opens the arm
    cases turn with
    | still cursor arms' pending' =>
      refine ⟨done, rest, by rw [cursor]; exact split, ?_⟩
      exact .held (by rw [cursor]; exact token) directive switches (pending'.trans pending)
        (arms'.trans arms)
    | skip _ _ other _ _ =>
      rw [other _ token] at directive
      cases directive
    | hold token' _ _ fresh _ _ _ =>
      obtain rfl := Option.some.inj (token.symm.trans token')
      exact absurd pending fresh
    | resume token' _ _ _ cut without arms' none =>
      obtain rfl := Option.some.inj (token.symm.trans token')
      refine ⟨_, _, cut, .settled none ?_⟩
      rw [arms', arms, Arm.readAll_append_cons directive without,
        Arm.read_of_switchesArm switches]
    | take token' _ fresh _ _ _ _ =>
      obtain rfl := Option.some.inj (token.symm.trans token')
      exact absurd pending (fresh switches)

end Turns

end Scan

/-- On a well-formed stream whose directives lead their lines, and with no directive inside a
label, the conditional regions in the order of opening are the arms of the flat scanner: they
start, stop, are complete and are named as it says. -/
theorem conditionals_eq_directiveArms (options : ScanOptions) (d : Document) (tokens : List Token)
    (formed : Token.WellFormed d tokens) (leads : Token.DirectivesLead d tokens)
    (labels : options.groupCases = true → labelsFree Token.isDirective tokens = true) :
    let tree := Tree.ofTokens options d tokens
    (tree.ofKind .conditional).map (fun id => (tree.node id).arm) =
      directiveArms options d tokens := by
  have turn : ∀ s p s', Scan.Steady options d tokens s →
      (∃ done rest, s.cursor.Split done rest ∧ s.Agrees options d done) → s.within = some p →
      s.Turn p s' → ∃ done rest, s'.cursor.Split done rest ∧ s'.Agrees options d done := by
    intro s p s' steady ⟨done, rest, split, agrees⟩ _ turn
    exact agrees.turn split (turn.armTurn formed leads labels steady split agrees.starts)
  have start : ∃ done rest, (Scan.start options d tokens).cursor.Split done rest ∧
      (Scan.start options d tokens).Agrees options d done :=
    ⟨[], tokens, Scan.split_start options d tokens, .settled rfl rfl⟩
  obtain ⟨steady, ⟨done, rest, split, agrees⟩, -, cut⟩ := Scan.finish_over formed turn start
  cases agrees with
  | settled _ arms =>
    rw [split.done_eq.trans cut.done_eq.symm] at arms
    unfold directiveArms
    rw [← arms, Tree.arms, ← List.map_reverse, List.reverse_reverse]
    rfl
  | held token _ _ _ _ =>
    obtain ⟨later, more, -⟩ := cut.of_token? (steady.formed formed) token
    cases more

/-- Arms that cross a block and a region directive and end in another order than they began. -/
theorem conditionals_eq_directiveArms_crossed :
    let d := Document.ofText 0
      "#if A\nf \x7b\n#region r\n#else\n\x7d\n#endregion\n  #elif B\n#endif\n#endif\n".toList
    let tree := Tree.ofTokens {} d (classify d.text)
    (tree.ofKind .conditional).map (fun id => (tree.node id).arm) =
        directiveArms {} d (classify d.text) ∧
      (directiveArms {} d (classify d.text)).map (fun a => (a.start, a.stop)) =
        [(0, 19), (10, 38), (20, 62), (41, 55)] := by
  refine ⟨conditionals_eq_directiveArms _ _ _ (classify_wellFormed _) ?_ ?_, ?_⟩
  · unfold Token.DirectivesLead
    decide +kernel
  · decide +kernel
  · decide +kernel

end CodeFolding
