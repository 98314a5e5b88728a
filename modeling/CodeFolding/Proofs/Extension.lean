import Mathlib
import CodeFolding.Proofs.SoundRegions

/-!
# Headers change starts only

A scan that moves the starts of blocks up to their headers and one that does not go through a
document side by side (`Scan.Alike`): they read the same, and their trees agree node by node, but
for the starts of complete blocks that have a header (`Node.Extends`).  Nothing that a scan
decides depends on those starts, since it only completes regions that are open.

* `Scan.Alike.step`: one step of both scans.
* `extension_changes_starts_only`: the two trees, and the two outlines.
-/

namespace CodeFolding

/-! ## Moved starts -/

/-- The line found above a line is not blank, and all between them is. -/
theorem blankBetween_of_lineAbove? {d : Document} {floor number : Nat} {line : Line}
    (found : lineAbove? d floor number = some line) :
    ∃ n, n < number ∧ n < d.lineCount ∧ line.stop = d.lineStop n ∧
      d.blankBefore (d.lineStop n) = false ∧
      d.BlankBetween (d.lineStop n) (d.lineStart number) := by
  induction number with
  | zero => cases found
  | succ number ih =>
    rw [lineAbove?] at found
    split at found
    next => cases found
    next =>
      split at found
      next => cases found
      next looked =>
        have sliced := Document.slice?_line looked
        have before := Document.blankBefore_lineStop looked
        split at found
        next blank =>
          obtain ⟨n, above, inside, stops, shown, gap⟩ := ih found
          refine ⟨n, Nat.lt_succ_of_lt above, inside, stops, shown, ?_⟩
          exact (gap.trans ⟨_, sliced, blank⟩).trans (d.blankBetween_break number)
        next shown =>
          cases found
          obtain ⟨inside, -, stops⟩ := Document.line_eq_ok looked
          refine ⟨number, Nat.lt_succ_self _, inside, stops, ?_, d.blankBetween_break number⟩
          rw [before]
          exact Bool.eq_false_iff.2 shown

/-- The first node is the second, or its start is moved up to its header: a complete block of
several lines, with nothing but blanks between the header and its brace. -/
inductive Node.Extends (d : Document) : Node → Node → Prop
  | same (n : Node) : Extends d n n
  | moved {n : Node} {header : Nat} :
    n.kind = some .block → n.complete = true → d.lineOf n.start ≠ d.lineOf n.stop →
    header < d.lineOf n.start → header < d.lineCount → d.blankBefore (d.lineStop header) = false →
    d.BlankBetween (d.lineStop header) n.start →
    Extends d { n with start := d.lineStop header, fromPriorLine := true } n

namespace Node.Extends

variable {d : Document} {a b : Node}

theorem kind (extends_ : Extends d a b) : a.kind = b.kind := by cases extends_ <;> rfl

theorem stop (extends_ : Extends d a b) : a.stop = b.stop := by cases extends_ <;> rfl

theorem complete (extends_ : Extends d a b) : a.complete = b.complete := by cases extends_ <;> rfl

theorem opener (extends_ : Extends d a b) : a.opener = b.opener := by cases extends_ <;> rfl

theorem parent (extends_ : Extends d a b) : a.parent = b.parent := by cases extends_ <;> rfl

theorem children (extends_ : Extends d a b) : a.children = b.children := by cases extends_ <;> rfl

/-- Only complete blocks are moved. -/
theorem eq_of_live (extends_ : Extends d a b) (live : b.complete = false) : a = b := by
  cases extends_ with
  | same => rfl
  | moved _ complete =>
    rw [complete] at live
    cases live

/-- Before a start that is moved something stands on its line. -/
theorem eq_of_blankBefore (extends_ : Extends d a b) (blank : d.blankBefore a.start = true) :
    a = b := by
  cases extends_ with
  | same => rfl
  | moved _ _ _ _ _ shown =>
    rw [shown] at blank
    cases blank

theorem block_of_ne (extends_ : Extends d a b)
    (differ : a.start ≠ b.start ∨ a.fromPriorLine ≠ b.fromPriorLine) :
    b.kind = some .block ∧ b.complete = true := by
  cases extends_ with
  | same => rcases differ with differ | differ <;> exact absurd rfl differ
  | moved block complete => exact ⟨block, complete⟩

theorem fromPriorLine_of_ne (extends_ : Extends d a b) (differ : a.start ≠ b.start) :
    a.fromPriorLine = true := by
  cases extends_ with
  | same => exact absurd rfl differ
  | moved => rfl

theorem blankBetween (extends_ : Extends d a b) (boundary : d.Boundary b.start) :
    d.BlankBetween a.start b.start := by
  cases extends_ with
  | same => exact boundary.blankBetween_self
  | moved _ _ _ _ _ _ gap => exact gap

theorem adopt (extends_ : Extends d a b) (child : Nat) :
    Extends d { a with children := a.children ++ [child] }
      { b with children := b.children ++ [child] } := by
  cases extends_ with
  | same => exact .same _
  | @moved _ header block complete lines above inside shown gap =>
    exact @moved d { b with children := b.children ++ [child] } header block complete lines above
      inside shown gap

end Node.Extends

/-! ## Two trees -/

namespace Tree

/-- Trees with the same nodes, but for starts that are moved up in the first. -/
structure Alike (d : Document) (t t' : Tree) : Prop where
  size : t.nodes.size = t'.nodes.size
  node : ∀ i, (t.node i).Extends d (t'.node i)

namespace Alike

variable {d : Document} {t t' : Tree} {id : Nat}

theorem refl (d : Document) (t : Tree) : Alike d t t := ⟨rfl, fun i => .same (t.node i)⟩

theorem update {f g : Node → Node} (alike : Alike d t t')
    (changed : (f (t.node id)).Extends d (g (t'.node id))) :
    Alike d (t.update id f) (t'.update id g) where
  size := by rw [nodes_size_update, nodes_size_update, alike.size]
  node := by
    intro i
    by_cases here : i = id
    · subst here
      by_cases known : i < t'.nodes.size
      · rw [node_update_self (by rw [alike.size]; exact known), node_update_self known]
        exact changed
      · rw [node_of_le (by rw [nodes_size_update, alike.size]; omega),
          node_of_le (by rw [nodes_size_update]; omega)]
        exact .same _
    · rw [node_update_of_ne here, node_update_of_ne here]
      exact alike.node i

theorem update_left {f : Node → Node} (alike : Alike d t t')
    (changed : (f (t.node id)).Extends d (t'.node id)) : Alike d (t.update id f) t' where
  size := by rw [nodes_size_update, alike.size]
  node := by
    intro i
    rcases node_update_cases t id f i with same | ⟨rfl, here⟩
    · rw [same]
      exact alike.node i
    · rw [here]
      exact changed

theorem add (alike : Alike d t t') (parent : Nat) (o : Opening) :
    Alike d (t.add parent o) (t'.add parent o) := by
  have pushed : Alike d ⟨t.nodes.push (o.node parent)⟩ ⟨t'.nodes.push (o.node parent)⟩ := by
    refine ⟨by simp [alike.size], fun i => ?_⟩
    rw [node_push, node_push, alike.size]
    split
    next => exact .same _
    next => exact alike.node i
  unfold Tree.add nextId
  rw [alike.size]
  exact pushed.update ((pushed.node parent).adopt _)

/-- A region that is open is the same in both trees, and stays so whatever is done to it. -/
theorem update_live (alike : Alike d t t') (live : (t'.node id).complete = false)
    (f : Node → Node) : Alike d (t.update id f) (t'.update id f) := by
  refine alike.update ?_
  rw [(alike.node id).eq_of_live live]
  exact .same _

theorem ancestors (alike : Alike d t t') (id : Nat) : t.ancestors id = t'.ancestors id :=
  ancestors_congr fun i _ => (alike.node i).parent

theorem nearestOpen? (alike : Alike d t t') (id : Nat) (test : Node → Bool) :
    t.nearestOpen? id test = t'.nearestOpen? id test := by
  unfold Tree.nearestOpen?
  rw [alike.ancestors]
  congr 1
  funext i
  have here := alike.node i
  cases complete : (t'.node i).complete with
  | false => rw [here.eq_of_live complete]
  | true =>
    unfold Node.isOpen
    rw [here.complete, complete, Bool.not_true, Bool.and_false, Bool.and_false, Bool.false_and,
      Bool.false_and]

/-- A header moves a start once. -/
theorem extendStart (alike : Alike d t t') (options : ScanOptions) (id : Nat) :
    Alike d (extendStart options d t id) t' := by
  unfold CodeFolding.extendStart
  split
  next both =>
    split
    next line found =>
      obtain ⟨header, above, inside, stops, shown, gap⟩ := blankBetween_of_lineAbove? found
      have header_ : hasHeader d (t.node id) = true := (Bool.and_eq_true_iff.1 both).2
      unfold hasHeader at header_
      simp only [Bool.and_eq_true, beq_iff_eq, bne_iff_ne] at header_
      obtain ⟨⟨⟨block, complete⟩, lines⟩, indented⟩ := header_
      have plain : t.node id = t'.node id := (alike.node id).eq_of_blankBefore indented
      have moved : Node.Extends d
          { t'.node id with start := line.stop, fromPriorLine := true } (t'.node id) := by
        rw [stops]
        rw [plain] at block complete lines above gap indented
        exact .moved block complete lines above inside shown
          (gap.trans (Document.blankBetween_of_blankBefore indented))
      refine alike.update_left ?_
      rw [plain]
      exact moved
    next => exact alike
  next => exact alike

end Alike

end Tree

/-! ## Two scans -/

namespace Scan

/-- Scans at the same place with trees alike, of which only the first moves starts. -/
structure Alike (d : Document) (s s' : Scan) : Prop where
  options : s.options = { s'.options with extendStarts := true }
  plain : s'.options.extendStarts = false
  document : s'.cursor.document = d
  cursor : s.cursor = s'.cursor
  tree : Tree.Alike d s.tree s'.tree
  within : s.within = s'.within
  pendingArm : s.pendingArm = s'.pendingArm
  importRollback : s.importRollback = s'.importRollback
  commentUnclosed : s.commentUnclosed = s'.commentUnclosed

/-- What directives and labels close is open. -/
theorem live_of_nearestOpen? {t : Tree} {id found : Nat} {test : Node → Bool}
    (near : t.nearestOpen? id test = some found) : (t.node found).complete = false := by
  have live := (Tree.of_nearestOpen? near).2.1
  unfold Node.isOpen at live
  rw [Bool.and_eq_true, Bool.not_eq_true'] at live
  exact live.2

namespace Alike

variable {d : Document} {s s' : Scan} {p id : Nat} {t : Token}

theorem document_eq (alike : Alike d s s') : s.document = s'.document :=
  congrArg Cursor.document alike.cursor

theorem kind (alike : Alike d s s') (id : Nat) : (s.tree.node id).kind = (s'.tree.node id).kind :=
  (alike.tree.node id).kind

theorem stop (alike : Alike d s s') (id : Nat) : (s.tree.node id).stop = (s'.tree.node id).stop :=
  (alike.tree.node id).stop

theorem advance (alike : Alike d s s') : Alike d s.advance s'.advance :=
  { alike with
    document := s'.cursor.advance_document.trans alike.document
    cursor := congrArg Cursor.advance alike.cursor }

theorem nextLine (alike : Alike d s s') : Alike d s.nextLine s'.nextLine :=
  { alike with
    document := s'.cursor.nextLine_document.trans alike.document
    cursor := congrArg Cursor.nextLine alike.cursor }

theorem enter (alike : Alike d s s') (parent : Nat) (o : Opening) :
    Alike d (s.enter parent o) (s'.enter parent o) :=
  { alike with
    tree := alike.tree.add parent o
    within := congrArg some alike.tree.size }

theorem close (alike : Alike d s s') (live : (s'.tree.node id).complete = false) (stop : Nat) :
    Alike d (s.close id stop) (s'.close id stop) :=
  { alike with tree := alike.tree.update_live live _ }

theorem leave (alike : Alike d s s') (id : Nat) : Alike d (s.leave id) (s'.leave id) := by
  refine { alike with tree := ?_, within := (alike.tree.node id).parent }
  have off : extendStart s'.options s'.document s'.tree id = s'.tree := by
    unfold extendStart
    rw [alike.plain]
    rfl
  show Tree.Alike d (extendStart s.options s.document s.tree id)
    (extendStart s'.options s'.document s'.tree id)
  rw [off, alike.document_eq, show s'.document = d from alike.document]
  exact alike.tree.extendStart s.options id

/-! ### Runs -/

theorem closeRun (alike : Alike d s s') (live : (s'.tree.node id).complete = false) :
    Alike d (s.closeRun id) (s'.closeRun id) := by
  unfold Scan.closeRun
  rw [alike.stop]
  exact alike.close live _

theorem isBridge (alike : Alike d s s') (run : Nat) (t : Token) :
    s.isBridge run t = s'.isBridge run t := by
  unfold Scan.isBridge
  rw [alike.options, alike.document_eq, alike.stop, alike.cursor]

theorem continueComment (alike : Alike d s s') (live : (s'.tree.node p).complete = false)
    (t : Token) : Alike d (s.continueComment p t) (s'.continueComment p t) := by
  unfold Scan.continueComment
  rw [alike.isBridge]
  split
  next =>
    exact advance { alike with tree := alike.tree.update_live live _, commentUnclosed := rfl }
  next =>
    split
    next => exact alike.advance
    next => exact (alike.closeRun live).leave p

theorem continueImports (alike : Alike d s s') (live : (s'.tree.node p).complete = false)
    (t : Token) : Alike d (s.continueImports p t) (s'.continueImports p t) := by
  unfold Scan.continueImports
  rw [alike.importRollback, alike.cursor, alike.document_eq, alike.stop, alike.options]
  split
  next => exact (alike.close live _).leave p
  next =>
    split
    next => exact alike.advance
    next =>
      split
      next =>
        exact advance
          { alike with
            options := rfl
            cursor := rfl
            tree := alike.tree.update_live live _
            importRollback := rfl }
      next => exact (alike.closeRun live).leave p

theorem finishRun (alike : Alike d s s') (id : Nat) :
    Alike d (s.finishRun id) (s'.finishRun id) := by
  have closing : ∀ ends : Bool,
      Alike d (if !(s'.tree.node id).complete && ends then s.closeRun id else s)
        (if !(s'.tree.node id).complete && ends then s'.closeRun id else s') := by
    intro ends
    split
    next both =>
      rw [Bool.and_eq_true, Bool.not_eq_true'] at both
      exact alike.closeRun both.1
    next => exact alike
  unfold Scan.finishRun
  dsimp only
  rw [alike.kind, (alike.tree.node id).complete, alike.commentUnclosed]
  exact closing _

/-! ### Openings -/

theorem openBlock (alike : Alike d s s') (p : Nat) (t : Token) :
    Alike d (s.openBlock p t) (s'.openBlock p t) := by
  unfold Scan.openBlock
  rw [alike.cursor, alike.document_eq]
  exact (alike.enter p _).advance

theorem openComment? (alike : Alike d s s') (p : Nat) (t : Token) :
    Option.Rel (Alike d) (s.openComment? p t) (s'.openComment? p t) := by
  have trailing : s.isTrailing t = s'.isTrailing t := by
    unfold isTrailing
    rw [alike.cursor, alike.document_eq]
  unfold Scan.openComment?
  rw [trailing]
  split
  next => exact .none
  next =>
    refine .some (advance ?_)
    exact { alike.enter p _ with commentUnclosed := rfl }

theorem openImports? (alike : Alike d s s') (p : Nat) (t : Token) :
    Option.Rel (Alike d) (s.openImports? p t) (s'.openImports? p t) := by
  unfold Scan.openImports?
  rw [alike.cursor, alike.document_eq]
  split
  next => exact .none
  next =>
    refine .some (advance ?_)
    exact { alike.enter p _ with importRollback := rfl }

/-! ### Labels -/

theorem openGroup (alike : Alike d s s') (p : Nat) (t : Token) (colon : Nat) :
    Alike d (s.openGroup p t colon) (s'.openGroup p t colon) := by
  have start : s.groupStart t colon = s'.groupStart t colon := by
    unfold groupStart
    rw [alike.cursor, alike.document_eq]
  unfold Scan.openGroup
  rw [start, alike.cursor]
  have opened := alike.enter p
    { kind := .caseGroup, start := s'.groupStart t colon, opener := t.text }
  refine { opened with document := ?_, cursor := ?_ }
  · exact (advanceTo_document _ _ _).1.trans opened.document
  · exact congrArg (Cursor.skipTo · _) opened.cursor

theorem caseLabel? (alike : Alike d s s') (p : Nat) (t : Token) :
    Option.Rel (Alike d) (s.caseLabel? p t) (s'.caseLabel? p t) := by
  unfold Scan.caseLabel?
  rw [alike.cursor, alike.kind, alike.tree.nearestOpen?, alike.document_eq]
  cases s'.cursor.labelColon? with
  | none => exact .none
  | some colon =>
    refine .some ?_
    dsimp only
    split
    next => exact alike.openGroup p t colon
    next group found =>
      have live : (s'.tree.node group).complete = false := by
        split at found
        next => cases found
        next => exact live_of_nearestOpen? found
      split
      next => exact (alike.close live _).leave p
      next => exact (alike.close live _).openGroup p t colon

/-! ### Directives -/

theorem openArm (alike : Alike d s s') (p : Nat) (t : Token) (name : List Char) :
    Alike d (s.openArm p t name) (s'.openArm p t name) :=
  (alike.enter p _).nextLine

theorem closeArm (alike : Alike d s s') (p : Nat) (t : Token) (names : List String) :
    Alike d (s.closeArm p t names) (s'.closeArm p t names) := by
  unfold Scan.closeArm
  rw [alike.tree.nearestOpen?, alike.document_eq]
  split
  next found => exact (alike.close (live_of_nearestOpen? found) _).nextLine
  next => exact alike.nextLine

theorem withPending (alike : Alike d s s') (pendingArm : Option Nat) :
    Alike d { s with pendingArm } { s' with pendingArm } :=
  { alike with pendingArm := rfl }

theorem switchArm (alike : Alike d s s') (p : Nat) (t : Token) (name : List Char) :
    Alike d (s.switchArm p t name) (s'.switchArm p t name) := by
  unfold Scan.switchArm
  rw [alike.pendingArm, alike.tree.nearestOpen?, alike.document_eq]
  split
  next => exact (alike.withPending none).openArm p t name
  next =>
    split
    next => exact alike.openArm p t name
    next arm found =>
      have closed := alike.close (live_of_nearestOpen? found) (s'.document.endBefore t.start)
      dsimp only
      split
      next => exact (closed.withPending (some t.start)).leave p
      next => exact closed.openArm p t name

theorem directive? (alike : Alike d s s') (p : Nat) (t : Token) :
    Option.Rel (Alike d) (s.directive? p t) (s'.directive? p t) := by
  unfold Scan.directive?
  rw [alike.options]
  dsimp only
  repeat' split
  · exact .some (alike.openArm p t _)
  · exact .some (alike.switchArm p t _)
  · exact .some (alike.closeArm p t _)
  · exact .some (alike.openArm p t _)
  · exact .some (alike.closeArm p t _)
  · exact .none

/-! ### Steps -/

theorem open? (alike : Alike d s s') (p : Nat) (t : Token) :
    Option.Rel (Alike d) (s.open? p t) (s'.open? p t) := by
  unfold Scan.open?
  rw [alike.options]
  dsimp only
  repeat' split
  · exact .some (alike.openBlock p t)
  · exact alike.openComment? p t
  · exact alike.directive? p t
  · exact alike.openImports? p t
  · exact alike.caseLabel? p t
  · exact .none

theorem endOrPass (alike : Alike d s s') (live : (s'.tree.node p).complete = false) (t : Token) :
    Alike d (s.endOrPass p t) (s'.endOrPass p t) := by
  unfold Scan.endOrPass
  rw [alike.kind, alike.document_eq]
  split
  next =>
    split
    next => exact (alike.close live _).advance.leave p
    next => exact (alike.close live _).leave p
    next => exact alike.advance
  next => exact alike.advance

theorem read (alike : Alike d s s') (live : (s'.tree.node p).complete = false) (t : Token) :
    Alike d (s.read p t) (s'.read p t) := by
  unfold Scan.read
  rw [alike.kind]
  split
  next => exact alike.continueComment live t
  next => exact alike.continueImports live t
  next =>
    have opened := alike.open? p t
    revert opened
    generalize s.open? p t = x
    generalize s'.open? p t = y
    intro opened
    cases opened with
    | none => exact alike.endOrPass live t
    | some alike => exact alike

/-- Both scans decide the same. -/
theorem step (alike : Alike d s s') : Alike d s.step s'.step := by
  unfold Scan.step
  rw [alike.within]
  cases s'.within with
  | none => exact alike
  | some p =>
    dsimp only
    rw [alike.cursor, (alike.tree.node p).complete]
    split
    next => exact (alike.finishRun p).leave p
    next =>
      split
      next => exact alike.leave p
      next live =>
        cases s'.cursor.token? with
        | none => exact alike.advance
        | some t => exact alike.read (by simpa using live) t

theorem steps (alike : Alike d s s') (n : Nat) : Alike d (Scan.steps n s) (Scan.steps n s') := by
  induction n generalizing s s' with
  | zero => exact alike
  | succ n ih => exact ih alike.step

end Alike

end Scan

/-! ## Two lists of regions -/

/-- Regions that differ in their starts only. -/
structure Region.Alike (r r' : Region) : Prop where
  kind : r.kind = r'.kind
  stop : r.span.stop = r'.span.stop
  endLine : r.endLine = r'.endLine
  depth : r.depth = r'.depth

section Lists

variable {d : Document} {a b : Node} {t t' : Tree}

theorem Node.region?_of_lines {kind : RegionKind} (region : a.kind = some kind)
    (complete : a.complete = true) (lines : d.lineOf a.start ≠ d.lineOf a.stop)
    (ordered : a.start ≤ a.stop) (depth : Nat) :
    a.region? d depth = .ok (some ⟨kind, ⟨a.start, a.stop, ordered⟩, d.lineOf a.start,
      d.lineOf a.stop, depth, a.fromPriorLine⟩) := by
  unfold Node.region?
  rw [region]
  dsimp only
  rw [complete, if_pos (by simpa using lines), Span.ofBounds_of_le ordered]
  rfl

/-- A block that is moved has several lines before and after. -/
theorem Node.Extends.region? (extends_ : a.Extends d b) (placed : a.Placed d)
    (placed' : b.Placed d) (depth : Nat) :
    a.region? d depth = .ok none ∧ b.region? d depth = .ok none ∨
      ∃ r r', a.region? d depth = .ok (some r) ∧ b.region? d depth = .ok (some r') ∧
        r.Alike r' := by
  cases extends_ with
  | same =>
    rcases placed.region? depth with none | ⟨r, some, -⟩
    · exact Or.inl ⟨none, none⟩
    · exact Or.inr ⟨r, r, some, some, rfl, rfl, rfl, rfl⟩
  | @moved _ header block complete lines above inside shown gap =>
    have ordered := placed'.ordered complete
    have below := Document.lineOf_mono (d := d) ordered
    have moved : d.lineOf (d.lineStop header) ≠ d.lineOf b.stop := by
      rw [Document.lineOf_lineStop inside]
      omega
    have listed := region?_of_lines block complete lines ordered depth
    have listed_moved := region?_of_lines
      (a := { b with start := d.lineStop header, fromPriorLine := true })
      block complete moved (placed.ordered complete) depth
    exact Or.inr ⟨_, _, listed_moved, listed, rfl, rfl, rfl, rfl⟩

theorem Tree.Alike.flattenWork (alike : t.Alike d t') (placed : t.Placed d)
    (placed' : t'.Placed d) (fuel : Nat) (work : List (Nat × Nat)) :
    ∃ regions regions', t.flattenWork d fuel work = .ok regions ∧
      t'.flattenWork d fuel work = .ok regions' ∧ List.Forall₂ Region.Alike regions regions' := by
  induction fuel generalizing work with
  | zero => exact ⟨[], [], rfl, rfl, .nil⟩
  | succ fuel ih =>
    cases work with
    | nil => exact ⟨[], [], rfl, rfl, .nil⟩
    | cons item work =>
      obtain ⟨id, depth⟩ := item
      have here := alike.node id
      rcases here.region? (placed id) (placed' id) depth with
        ⟨none, none'⟩ | ⟨r, r', some, some', same⟩
      · obtain ⟨regions, regions', listed, listed', all⟩ :=
          ih ((t.node id).children.map (·, depth) ++ work)
        rw [here.children] at listed'
        exact ⟨regions, regions', Tree.flattenWork_cons none listed,
          Tree.flattenWork_cons none' listed', all⟩
      · obtain ⟨regions, regions', listed, listed', all⟩ :=
          ih ((t.node id).children.map (·, depth + 1) ++ work)
        rw [here.children] at listed'
        exact ⟨r :: regions, r' :: regions', Tree.flattenWork_cons some listed,
          Tree.flattenWork_cons some' listed', .cons same all⟩

theorem Tree.Alike.flatten (alike : t.Alike d t') (placed : t.Placed d) (placed' : t'.Placed d) :
    ∃ regions regions', t.flatten d = .ok regions ∧ t'.flatten d = .ok regions' ∧
      List.Forall₂ Region.Alike regions regions' := by
  unfold Tree.flatten
  rw [alike.size, (alike.node Tree.rootId).children]
  exact alike.flattenWork placed placed' _ _

end Lists

/-- Whether starts move up to headers or not, a scan of a well-formed stream opens, ends and nests
the same regions.  Only complete blocks start elsewhere, higher up and with nothing but blanks in
between, and such a block is known to start from a line above its brace.  So the two outlines list
the same regions at the same depths with the same ends. -/
theorem extension_changes_starts_only (options : ScanOptions) (session : SessionId) (d : Document)
    (tokens : List Token) (formed : Token.WellFormed d tokens) :
    let on := { options with extendStarts := true }
    let off := { options with extendStarts := false }
    let extended := Tree.ofTokens on d tokens
    let plain := Tree.ofTokens off d tokens
    extended.nodes.size = plain.nodes.size ∧
    (∀ id,
      let a := extended.node id
      let b := plain.node id
      (a.kind = b.kind ∧ a.stop = b.stop ∧ a.complete = b.complete ∧ a.opener = b.opener ∧
        a.parent = b.parent ∧ a.children = b.children) ∧
      (a.start ≠ b.start ∨ a.fromPriorLine ≠ b.fromPriorLine →
        b.kind = some .block ∧ b.complete = true) ∧
      a.start ≤ b.start ∧ d.BlankBetween a.start b.start ∧
      (a.start ≠ b.start → a.fromPriorLine = true)) ∧
    ∃ o o', Outline.ofTokens on session d tokens = .ok o ∧
      Outline.ofTokens off session d tokens = .ok o' ∧
      List.Forall₂ Region.Alike o.regions o'.regions := by
  intro on off extended plain
  have start : Scan.Alike d (.start on d tokens) (.start off d tokens) :=
    ⟨rfl, rfl, rfl, rfl, .refl d _, rfl, rfl, rfl, rfl⟩
  have alike : extended.Alike d plain := (start.steps (2 * d.length + 1)).tree
  have placed : extended.Placed d := (steps_placed on formed _).2.tree
  have placed' : plain.Placed d := (steps_placed off formed _).2.tree
  refine ⟨alike.size, ?_, ?_⟩
  · intro id a b
    have here : a.Extends d b := alike.node id
    have gap : d.BlankBetween a.start b.start := here.blankBetween (placed' id).start
    exact ⟨⟨here.kind, here.stop, here.complete, here.opener, here.parent, here.children⟩,
      here.block_of_ne, gap.le, gap, here.fromPriorLine_of_ne⟩
  · obtain ⟨regions, regions', listed, listed', all⟩ := alike.flatten placed placed'
    exact ⟨_, _, Outline.ofTokens_eq_ok_iff.2 ⟨regions, listed, rfl⟩,
      Outline.ofTokens_eq_ok_iff.2 ⟨regions', listed', rfl⟩, all⟩

/-- A block whose header stands two lines above its brace starts at the end of the header. -/
theorem extension_changes_starts_only_header :
    let d := Document.ofText 0 "f()\n\n  \x7b\n\n\x7d".toList
    let extended := Tree.ofTokens {} d (classify d.text)
    let plain := Tree.ofTokens { extendStarts := false } d (classify d.text)
    ((extended.node 1).start = 3 ∧ (plain.node 1).start = 7) ∧
    ((plain.node 1).kind = some .block ∧ (plain.node 1).complete = true) ∧
    d.BlankBetween (extended.node 1).start (plain.node 1).start ∧
    (extended.node 1).fromPriorLine = true ∧
    ∃ o o', Outline.ofTokens {} 0 d (classify d.text) = .ok o ∧
      Outline.ofTokens { extendStarts := false } 0 d (classify d.text) = .ok o' ∧
      List.Forall₂ Region.Alike o.regions o'.regions := by
  intro d extended plain
  obtain ⟨-, nodes, outlines⟩ :=
    extension_changes_starts_only {} 0 d (classify d.text) (classify_wellFormed d)
  obtain ⟨-, block, -, gap, moved⟩ := nodes 1
  have starts : (extended.node 1).start = 3 ∧ (plain.node 1).start = 7 := by decide +kernel
  have differ : (extended.node 1).start ≠ (plain.node 1).start := by
    rw [starts.1, starts.2]
    decide
  exact ⟨starts, block (Or.inl differ), gap, moved differ, outlines⟩

end CodeFolding
