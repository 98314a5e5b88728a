import Mathlib
import CodeFolding.Proofs.CaseGroups
import CodeFolding.Proofs.RunLives

/-!
# Groups fill their block

The first label in a block opens a group, and from there on the block holds groups only: a label
ends the group before it, and the brace that ends the block ends the last one.  A token that ends
a group is read twice, first by the group and then by the block around it.

* `Token.Labels`: the keyword of a group's label.
* `Tree.Row`: the regions in a block, up to its last group.
* `Scan.Tiled`: such a row during a scan without directives.
* `groups_tile_block`: in a complete block each group ends before the label of the next one, and
  the last ends before the brace of the block.
-/

namespace CodeFolding

/-- The region is complete and ends before a token. -/
def Node.EndsBefore (d : Document) (n : Node) (t : Token) : Prop :=
  n.complete = true ∧ n.stop = max n.start (d.endBefore t.start)

/-- Where the group of a label starts, with these tokens behind its colon. -/
def groupStartAfter (d : Document) (keyword : Token) (rest : List Token) : Nat :=
  match rest.find? (!·.category.isComment) with
  | some t => min t.start (d.lineAt keyword.start).stop
  | none => (d.lineAt keyword.start).stop

/-- The keyword starts the label of a group. -/
structure Token.Labels (d : Document) (tokens : List Token) (keyword : Token) (n : Node) :
    Prop where
  kind : n.kind = some .caseGroup
  opener : n.opener = keyword.text
  starts : keyword.startsLabel = true
  label : ∃ front label colon rest, tokens = front ++ keyword :: (label ++ colon :: rest) ∧
    tokensToColon? 0 ((label ++ colon :: rest).take labelLimit) = some label.length ∧
    n.start = groupStartAfter d keyword rest

/-! ## Rows of a tree -/

namespace Tree

/-- Regions that are no groups, and behind them groups with their keywords, each of which ends
before the next keyword. -/
structure Row (d : Document) (tokens : List Token) (t : Tree) (before : List Nat)
    (tiles : List (Nat × Token)) : Prop where
  plain : ∀ c ∈ before, (t.node c).kind ≠ some .caseGroup
  labels : ∀ x ∈ tiles, x.2.Labels d tokens (t.node x.1)
  chain : tiles.IsChain fun x next => (t.node x.1).EndsBefore d next.2

section Rows

variable {d : Document} {tokens : List Token} {t t' : Tree} {before : List Nat}
  {tiles : List (Nat × Token)} {o : Opening} {p i : Nat} {keyword u : Token}

/-- Complete groups keep their ends. -/
def KeepsGroups (t t' : Tree) : Prop :=
  ∀ i, (t.node i).kind = some .caseGroup → (t.node i).complete = true →
    (t'.node i).stop = (t.node i).stop

theorem endsBefore_settles (settles : Settles t t') (keeps : KeepsGroups t t')
    (kind : (t.node i).kind = some .caseGroup) (ends : (t.node i).EndsBefore d u) :
    (t'.node i).EndsBefore d u := by
  refine ⟨settles.retouched.complete i ends.1, ?_⟩
  rw [keeps i kind ends.1, settles.start i kind]
  exact ends.2

/-- A row stays a row if groups keep their starts and complete ones their ends. -/
theorem Row.settles (row : Row d tokens t before tiles) (settles : Settles t t')
    (keeps : KeepsGroups t t') : Row d tokens t' before tiles where
  plain := by
    intro c member
    rw [settles.retouched.kind]
    exact row.plain c member
  labels := by
    intro x member
    obtain ⟨kind, opener, starts, front, label, colon, rest, cut, counted, start⟩ :=
      row.labels x member
    refine ⟨?_, ?_, starts, front, label, colon, rest, cut, counted, ?_⟩
    · rw [settles.retouched.kind]
      exact kind
    · rw [(settles.retouched.node x.1).opener]
      exact opener
    · rw [settles.start x.1 kind]
      exact start
  chain := by
    refine row.chain.imp_of_mem_imp ?_
    intro x next member _ ends
    exact endsBefore_settles settles keeps (row.labels x member).kind ends

theorem endsBefore_add (known : p < t.nodes.size) (old : i ≠ t.nodes.size) :
    ((t.add p o).node i).EndsBefore d u ↔ (t.node i).EndsBefore d u := by
  obtain ⟨children, same⟩ := exists_node_add (o := o) known old
  rw [same]
  rfl

/-- A row stays a row if a region opens. -/
theorem Row.add (row : Row d tokens t before tiles) (known : p < t.nodes.size)
    (old : ∀ c ∈ before ++ tiles.map Prod.fst, c < t.nodes.size) :
    Row d tokens (t.add p o) before tiles where
  plain := by
    intro c member
    rw [kind_add known (Nat.ne_of_lt (old c (List.mem_append_left _ member)))]
    exact row.plain c member
  labels := by
    intro x member
    have bound := old x.1 (List.mem_append_right _ (List.mem_map_of_mem member))
    obtain ⟨children, same⟩ := exists_node_add (o := o) known (Nat.ne_of_lt bound)
    obtain ⟨kind, opener, starts, label⟩ := row.labels x member
    rw [same]
    exact ⟨kind, opener, starts, label⟩
  chain := by
    refine row.chain.imp_of_mem_imp ?_
    intro x next member _ ends
    have bound := old x.1 (List.mem_append_right _ (List.mem_map_of_mem member))
    exact (endsBefore_add known (Nat.ne_of_lt bound)).2 ends

/-- One more region that is no group, as long as there is none. -/
theorem Row.snoc (row : Row d tokens t before []) (plain : (t.node i).kind ≠ some .caseGroup) :
    Row d tokens t (before ++ [i]) [] where
  plain := by
    intro c member
    rcases List.mem_append.1 member with old | new
    · exact row.plain c old
    · rw [List.mem_singleton.1 new]
      exact plain
  labels := row.labels
  chain := row.chain

/-- One more group, if the last one ends before its keyword. -/
theorem Row.tile (row : Row d tokens t before tiles) (labels : keyword.Labels d tokens (t.node i))
    (ends : ∀ x ∈ tiles.getLast?, (t.node x.1).EndsBefore d keyword) :
    Row d tokens t before (tiles ++ [(i, keyword)]) where
  plain := row.plain
  labels := by
    intro x member
    rcases List.mem_append.1 member with old | new
    · exact row.labels x old
    · rw [List.mem_singleton.1 new]
      exact labels
  chain := by
    refine List.isChain_append.2 ⟨row.chain, List.isChain_singleton _, ?_⟩
    intro x member next first
    cases first
    exact ends x member

/-- No group holds a group. -/
def GroupsApart (t : Tree) : Prop :=
  ∀ group child, (t.node group).kind = some .caseGroup → child ∈ (t.node group).children →
    (t.node child).kind ≠ some .caseGroup

theorem GroupsApart.retouched (apart : t.GroupsApart) (same : t.Retouched t') :
    t'.GroupsApart := by
  intro group child kind member
  rw [same.kind] at kind ⊢
  rw [same.children] at member
  exact apart group child kind member

/-- A group opens in a region that is no group. -/
theorem GroupsApart.add (apart : t.GroupsApart) (rooted : Rooted t) (known : p < t.nodes.size)
    (opened : o.kind = .caseGroup → (t.node p).kind ≠ some .caseGroup) :
    (t.add p o).GroupsApart := by
  intro group child kind member kind'
  rw [children_add known] at member
  by_cases new : child = t.nodes.size
  · subst new
    have here : group = p := by
      by_contra other
      rw [if_neg other] at member
      exact absurd (rooted.children_lt member) (Nat.lt_irrefl _)
    rw [node_add_new known] at kind'
    rw [here, kind_add known (Nat.ne_of_lt known)] at kind
    exact opened (Option.some.inj kind') kind
  · have old : child ∈ (t.node group).children := by
      split at member
      · exact (List.mem_append.1 member).resolve_right
          (fun last => new (List.mem_singleton.1 last))
      · exact member
    have bound := rooted.child group child old
    rw [kind_add known (by omega)] at kind
    rw [kind_add known new] at kind'
    exact apart group child kind old kind'

end Rows

end Tree

/-! ## Rows during a scan -/

namespace Scan

/-- The token starts a label here. -/
structure Label (s : Scan) (t : Token) : Prop where
  grouped : s.options.groupCases = true
  starts : t.startsLabel = true
  notImport : t.isKeyword s.options.importKeyword = false
  ends : ∃ colon, s.cursor.labelColon? = some colon

/-- The block is about to read a token that ends a group. -/
structure Next (s : Scan) (block : Nat) (t : Token) : Prop where
  within : s.within = some block
  token : s.cursor.token? = some t
  ends : t.closes = true ∨ s.Label t

/-- The regions in a block form a row.  While the block is open, its last group is too, unless the
block is about to read what ended that group; the brace that ends the block ends the last
group. -/
structure Tiled (d : Document) (s : Scan) (block : Nat) (before : List Nat)
    (tiles : List (Nat × Token)) : Prop where
  children : (s.tree.node block).children = before ++ tiles.map Prod.fst
  row : s.tree.Row d (classify d.text) before tiles
  last : ∀ x ∈ tiles.getLast?, (s.tree.node x.1).complete = true →
    (s.tree.node block).complete = false →
    ∃ t, s.Next block t ∧ (s.tree.node x.1).EndsBefore d t
  closed : (s.tree.node block).complete = true →
    ∃ brace ∈ classify d.text, brace.isPunctuation '\x7d' = true ∧
      brace.stop = (s.tree.node block).stop ∧
      ∀ x ∈ tiles.getLast?, (s.tree.node x.1).EndsBefore d brace

section Steps

variable {options : ScanOptions} {d : Document} {tokens : List Token} {s s' : Scan} {p : Nat}
  {t : Token}

/-- A label directly in a block opens its group. -/
theorem Hosts.step_of_label (hosts : s.Hosts p t) (block : (s.tree.node p).kind = some .block)
    (label : s.Label t) :
    ∃ colon, s.cursor.labelColon? = some colon ∧ s.step = s.openGroup p t colon := by
  obtain ⟨colon, found⟩ := label.ends
  have category := Token.category_isKeyword_of_startsLabel label.starts
  have plain : t.isPunctuation '\x7b' = false ∧ t.category.isComment = false ∧
      t.category.isPreprocessor = false := by
    unfold Token.isPunctuation
    revert category
    cases t.category <;> simp [Category.isKeyword, Category.isComment, Category.isPreprocessor]
  obtain ⟨brace, comment, directive⟩ := plain
  have starts : (t.isKeyword "case".toList || t.isKeyword "default".toList) = true := label.starts
  refine ⟨colon, found, ?_⟩
  rw [hosts.step_eq]
  unfold open?
  rw [brace, comment, directive, label.notImport, label.grouped, starts]
  unfold caseLabel?
  rw [found, if_pos block]
  rfl

/-- A closing brace directly in a block ends the block. -/
theorem Hosts.step_of_brace (hosts : s.Hosts p t) (block : (s.tree.node p).kind = some .block)
    (member : t ∈ classify d.text) (closes : t.closes = true) :
    s.step = (s.close p t.stop).advance.leave p := by
  obtain ⟨brace, stop⟩ := classify_closing member closes
  have category := Token.category_of_closes closes
  have other : t.isPunctuation '\x7b' = false := by
    unfold Token.isPunctuation at brace ⊢
    rw [Bool.and_eq_true, beq_iff_eq, beq_iff_eq] at brace
    rw [brace.2]
    simp
  have none : s.open? p t = none := by
    unfold open? Token.isKeyword
    rw [other, category]
    simp [Category.isComment, Category.isPreprocessor, Category.isKeyword]
  have closes : (decide (t.category = .punctuation) && t.text.contains '\x7d') = true := closes
  rw [hosts.step_eq, none, Option.getD_none]
  unfold endOrPass
  rw [closes, if_pos rfl, block, ← stop]

/-- A group that a label ends is left, so the keyword is no import. -/
theorem Hosts.not_import_of_left (hosts : s.Hosts p t) (steady : Steady options d tokens s)
    (known : p ≠ 0) (outside : s.step.within = (s.tree.node p).parent) :
    t.isKeyword s.options.importKeyword = false := by
  rw [← Bool.not_eq_true]
  intro keyword
  obtain ⟨-, q, below, up⟩ := steady.rooted.region p (Nat.pos_of_ne_zero known)
    (steady.known p hosts.within)
  rw [hosts.step_of_import keyword, up] at outside
  split at outside
  · rw [show s.advance.within = some p from hosts.within] at outside
    cases outside
    omega
  · cases outside
    exact absurd (Nat.lt_trans below (steady.known p hosts.within)) (Nat.lt_irrefl _)

end Steps

section Tiled

variable {options : ScanOptions} {d : Document} {s s' : Scan} {p block : Nat} {before : List Nat}
  {tiles : List (Nat × Token)} {t : Token} {o : Opening}

theorem Tiled.known (tiled : Tiled d s block before tiles)
    (steady : Steady options d (classify d.text) s) :
    ∀ c ∈ before ++ tiles.map Prod.fst, c < s.tree.nodes.size := by
  intro c member
  rw [← tiled.children] at member
  exact steady.rooted.children_lt member

theorem Tiled.mem_children (tiled : Tiled d s block before tiles) {x : Nat × Token}
    (member : x ∈ tiles.getLast?) : x.1 ∈ (s.tree.node block).children := by
  rw [tiled.children]
  exact List.mem_append_right _ (List.mem_map_of_mem (List.mem_of_getLast? member))

/-- In the block being read the last group ends before the token that the block reads. -/
theorem Tiled.ends_of_within (tiled : Tiled d s block before tiles)
    (steady : Steady options d (classify d.text) s) (reads : s.Reads block t) :
    ∀ x ∈ tiles.getLast?, s.Next block t ∧ (s.tree.node x.1).EndsBefore d t := by
  intro x member
  have complete := steady.children_complete reads.within reads.more (tiled.mem_children member)
  obtain ⟨u, next, ends⟩ := tiled.last x member complete reads.live
  obtain rfl : u = t := Option.some.inj (next.token.symm.trans reads.token)
  exact ⟨next, ends⟩

/-- A turn that completes no block and no group leaves the rows alone. -/
theorem Tiled.quiet (tiled : Tiled d s block before tiles)
    (kind : (s.tree.node block).kind = some .block) (keeps : s.tree.KeepsBodies s'.tree)
    (none : ∀ t, ¬ s.Next block t) : Tiled d s' block before tiles := by
  have settles := keeps.toSettles
  have same := settles.retouched
  have groups : s.tree.KeepsGroups s'.tree := fun i group complete =>
    (keeps.group i group (same.complete i complete)).2
  refine ⟨?_, tiled.row.settles settles groups, ?_, ?_⟩
  · rw [same.children]
    exact tiled.children
  · intro x member complete live
    have group := (tiled.row.labels x (List.mem_of_getLast? member)).kind
    have live' : (s.tree.node block).complete = false := by
      by_contra complete'
      rw [same.complete block (by simpa using complete')] at live
      cases live
    obtain ⟨t, next, -⟩ := tiled.last x member (keeps.group x.1 group complete).1 live'
    exact absurd next (none t)
  · intro complete
    have complete' := keeps.block block kind complete
    obtain ⟨brace, listed, mark, stop, ends⟩ := tiled.closed complete'
    refine ⟨brace, listed, mark, ?_, ?_⟩
    · rw [settles.stop block kind complete']
      exact stop
    · intro x member
      have group := (tiled.row.labels x (List.mem_of_getLast? member)).kind
      exact Tree.endsBefore_settles settles groups group (ends x member)

/-- A group that ends is the last one of its block, which then reads what ended it. -/
theorem Tiled.endGroup (tiled : Tiled d s block before tiles)
    (steady : Steady options d (classify d.text) s)
    (kind : (s.tree.node block).kind = some .block) (hosts : s.Hosts p t)
    (group : (s.tree.node p).kind = some .caseGroup) (mark : t.closes = true ∨ s.Label t) :
    Tiled d ((s.close p (s.document.endBefore t.start)).leave p) block before tiles := by
  have document : s.document = d := steady.document
  have known := steady.known p hosts.within
  have tree : ((s.close p (s.document.endBefore t.start)).leave p).tree =
      s.tree.close p (d.endBefore t.start) := by
    rw [← document]
    refine extendStart_of_kind ?_
    rw [show (s.close p (s.document.endBefore t.start)).tree.node p = _ from
      Tree.node_close_self known]
    rw [group]
    simp
  have settles : s.tree.Settles (s.tree.close p (d.endBefore t.start)) :=
    Tree.settles_close (by rw [group]; simp) hosts.live _
  have others : ∀ i, i ≠ p → (s.tree.close p (d.endBefore t.start)).node i = s.tree.node i :=
    fun i other => Tree.node_close_of_ne other
  have groups : s.tree.KeepsGroups (s.tree.close p (d.endBefore t.start)) := by
    intro i _ complete
    rw [others i]
    rintro rfl
    rw [hosts.live] at complete
    cases complete
  have notBlock : block ≠ p := by
    rintro rfl
    rw [group] at kind
    cases kind
  refine ⟨?_, ?_, ?_, ?_⟩
  all_goals rw [tree]
  · rw [others block notBlock]
    exact tiled.children
  · exact tiled.row.settles settles groups
  · intro x member complete live
    by_cases here : x.1 = p
    · have up := (steady.rooted.child block x.1 (tiled.mem_children member)).2.2
      refine ⟨t, ⟨?_, hosts.token, ?_⟩, ?_⟩
      · rw [← up, here]
        exact (Tree.Retouched.close (by rw [group]; simp) _).parent p
      · rcases mark with closes | label
        · exact Or.inl closes
        · exact Or.inr ⟨label.grouped, label.starts, label.notImport, label.ends⟩
      · rw [here, Tree.node_close_self known]
        exact ⟨rfl, Nat.max_comm _ _⟩
    · rw [others x.1 here] at complete
      rw [others block notBlock] at live
      obtain ⟨u, next, -⟩ := tiled.last x member complete live
      exact absurd (Option.some.inj (next.within.symm.trans hosts.within)) notBlock
  · intro complete
    rw [others block notBlock] at complete ⊢
    obtain ⟨brace, listed, mark, stop, ends⟩ := tiled.closed complete
    refine ⟨brace, listed, mark, stop, ?_⟩
    intro x member
    have group := (tiled.row.labels x (List.mem_of_getLast? member)).kind
    exact Tree.endsBefore_settles settles groups group (ends x member)

/-- A brace that ends a block ends its last group, and leaves the rows of other blocks alone. -/
theorem Tiled.closeBlock (tiled : Tiled d s block before tiles)
    (steady : Steady options d (classify d.text) s) (labelled : Labelled d s)
    (hosts : s.Hosts p t) (own : (s.tree.node p).kind = some .block)
    (closes : t.closes = true) :
    Tiled d ((s.close p t.stop).advance.leave p) block before tiles := by
  have known := steady.known p hosts.within
  have ahead := hosts.ahead steady
  have member := ahead.1
  have width := (classify_wellFormed d).nonempty t member
  have moved : (s.tree.close p t.stop).KeepsBodies ((s.close p t.stop).advance.leave p).tree :=
    Tree.keepsBodies_extendStart _ _ _ _
  have done : ((s.tree.close p t.stop).node p).complete = true := by
    rw [Tree.node_close_self known]
  have closed : s.tree.Settles (s.tree.close p t.stop) :=
    Tree.settles_close (by rw [own]; simp) hosts.live _
  have settles : s.tree.Settles ((s.close p t.stop).advance.leave p).tree :=
    closed.trans moved.toSettles
  have others : ∀ i, i ≠ p →
      ((s.close p t.stop).advance.leave p).tree.node i = s.tree.node i := by
    intro i other
    exact (node_extendStart_of_ne other).trans (Tree.node_close_of_ne other)
  have groups : s.tree.KeepsGroups ((s.close p t.stop).advance.leave p).tree := by
    intro i group _
    rw [others i]
    rintro rfl
    rw [own] at group
    cases group
  refine ⟨?_, tiled.row.settles settles groups, ?_, ?_⟩
  · rw [settles.retouched.children]
    exact tiled.children
  · intro x last complete live
    by_cases here : block = p
    · rw [here, moved.retouched.complete p done] at live
      cases live
    · have other : x.1 ≠ p := by
        intro same
        have group := (tiled.row.labels x (List.mem_of_getLast? last)).kind
        rw [same, own] at group
        cases group
      rw [others x.1 other] at complete
      rw [others block here] at live
      obtain ⟨u, next, -⟩ := tiled.last x last complete live
      exact absurd (Option.some.inj (next.within.symm.trans hosts.within)) here
  · intro complete
    by_cases here : block = p
    · subst here
      refine ⟨t, member, (classify_closing member closes).1, ?_, ?_⟩
      · have stop := moved.stop block ((closed.retouched.kind block).trans own) done
        rw [Tree.node_close_self known] at stop
        refine (stop.trans (Nat.max_eq_left ?_)).symm
        have opened := labelled.bodies.braces block own hosts.live
        exact Nat.le_trans opened (Nat.le_trans ahead.2 (Nat.le_of_lt width))
      · intro x last
        have group := (tiled.row.labels x (List.mem_of_getLast? last)).kind
        exact Tree.endsBefore_settles settles groups group
          (tiled.ends_of_within steady hosts.toReads x last).2
    · rw [others block here] at complete ⊢
      obtain ⟨brace, listed, mark, stop, ends⟩ := tiled.closed complete
      refine ⟨brace, listed, mark, stop, ?_⟩
      intro x last
      have group := (tiled.row.labels x (List.mem_of_getLast? last)).kind
      exact Tree.endsBefore_settles settles groups group (ends x last)

/-- A region that opens elsewhere leaves the row of a block alone. -/
theorem Tiled.enter (tiled : Tiled d s block before tiles)
    (steady : Steady options d (classify d.text) s) (within : s.within = some p)
    (kind : (s.tree.node block).kind = some .block) (other : block ≠ p)
    (grown : s'.tree = s.tree.add p o) : Tiled d s' block before tiles := by
  have known := steady.known p within
  have old := tiled.known steady
  have bound := Tree.known_of_kind kind
  have node : s'.tree.node block = s.tree.node block := by
    rw [grown]
    exact Tree.node_add_of_ne (Nat.ne_of_lt bound) other
  have ended : ∀ x ∈ tiles.getLast?, ∀ u, (s.tree.node x.1).EndsBefore d u →
      (s'.tree.node x.1).EndsBefore d u := by
    intro x last u ends
    have bound := steady.rooted.children_lt (tiled.mem_children last)
    rw [grown]
    exact (Tree.endsBefore_add known (Nat.ne_of_lt bound)).2 ends
  refine ⟨?_, ?_, ?_, ?_⟩
  · rw [node]
    exact tiled.children
  · rw [grown]
    exact tiled.row.add known old
  · intro x last complete live
    have bound := steady.rooted.children_lt (tiled.mem_children last)
    obtain ⟨children, same⟩ := Tree.exists_node_add (o := o) known (Nat.ne_of_lt bound)
    rw [grown, same] at complete
    rw [node] at live
    obtain ⟨u, next, -⟩ := tiled.last x last complete live
    exact absurd (Option.some.inj (next.within.symm.trans within)) other
  · intro complete
    rw [node] at complete ⊢
    obtain ⟨brace, listed, mark, stop, ends⟩ := tiled.closed complete
    exact ⟨brace, listed, mark, stop, fun x last => ended x last brace (ends x last)⟩

theorem children_opened (steady : Steady options d (classify d.text) s)
    (within : s.within = some p) (grown : s'.tree = s.tree.add p o) :
    (s'.tree.node p).children = (s.tree.node p).children ++ [s.tree.nodes.size] := by
  rw [grown, Tree.children_add (steady.known p within), if_pos rfl]

/-- A region that opens in a block without groups and is no group itself. -/
theorem Tiled.enterPlain (tiled : Tiled d s p before [])
    (steady : Steady options d (classify d.text) s) (reads : s.Reads p t)
    (grown : s'.tree = s.tree.add p o) (plain : o.kind ≠ .caseGroup) :
    Tiled d s' p (before ++ [s.tree.nodes.size]) [] := by
  have known := steady.known p reads.within
  refine ⟨?_, ?_, ?_, ?_⟩
  · rw [children_opened steady reads.within grown, tiled.children]
    simp
  · rw [grown]
    refine (tiled.row.add known (tiled.known steady)).snoc ?_
    rw [Tree.node_add_new known]
    exact fun same => plain (Option.some.inj same)
  · intro x last
    cases last
  · intro complete
    obtain ⟨children, same⟩ := Tree.exists_node_add (o := o) known (Nat.ne_of_lt known)
    rw [grown, same, reads.live] at complete
    cases complete

/-- A group that opens in a block is its last one, and the group before ends at its keyword. -/
theorem Tiled.enterGroup (tiled : Tiled d s p before tiles)
    (steady : Steady options d (classify d.text) s) (reads : s.Reads p t)
    (grown : s'.tree = s.tree.add p o) (labels : t.Labels d (classify d.text) (o.node p)) :
    Tiled d s' p before (tiles ++ [(s.tree.nodes.size, t)]) := by
  have known := steady.known p reads.within
  have new : (s.tree.add p o).node s.tree.nodes.size = o.node p := Tree.node_add_new known
  refine ⟨?_, ?_, ?_, ?_⟩
  · rw [children_opened steady reads.within grown, tiled.children]
    simp
  · rw [grown]
    refine (tiled.row.add known (tiled.known steady)).tile (by rw [new]; exact labels) ?_
    intro x last
    have bound := steady.rooted.children_lt (tiled.mem_children last)
    exact (Tree.endsBefore_add known (Nat.ne_of_lt bound)).2
      (tiled.ends_of_within steady reads x last).2
  · intro x last complete
    rw [List.getLast?_concat] at last
    cases last
    rw [grown, new] at complete
    cases complete
  · intro complete
    obtain ⟨children, same⟩ := Tree.exists_node_add (o := o) known (Nat.ne_of_lt known)
    rw [grown, same, reads.live] at complete
    cases complete

/-- A block that opens holds no region. -/
theorem tiled_opened (steady : Steady options d (classify d.text) s) (within : s.within = some p)
    (grown : s'.tree = s.tree.add p o) : Tiled d s' s.tree.nodes.size [] [] := by
  have new : s'.tree.node s.tree.nodes.size = o.node p := by
    rw [grown]
    exact Tree.node_add_new (steady.known p within)
  refine ⟨?_, ⟨?_, ?_, List.isChain_nil⟩, ?_, ?_⟩
  · rw [new]
    rfl
  · exact fun c member => absurd member List.not_mem_nil
  · exact fun x member => absurd member List.not_mem_nil
  · intro x last
    cases last
  · intro complete
    rw [new] at complete
    cases complete

/-- The keyword of a label starts the label of the group that it opens. -/
theorem labels_opening {colon : Nat} (steady : Steady options d (classify d.text) s)
    (hosts : s.Hosts p t) (starts : t.startsLabel = true)
    (found : s.cursor.labelColon? = some colon) :
    t.Labels d (classify d.text)
      (Opening.node
        { kind := .caseGroup, start := s.groupStart t colon, opener := t.text } p) := by
  obtain ⟨done, rest, split⟩ := steady.split
  obtain ⟨label, mark, later, rfl, -, place, counted, -⟩ :=
    skipLabel (steady.formed (classify_wellFormed d)) split hosts.token found
  refine ⟨rfl, rfl, starts, done, label, mark, later, steady.cut split, counted, ?_⟩
  have behind : s.cursor.tokens.drop (colon + 1) = later := by
    have cut : s.cursor.tokens = (done ++ t :: (label ++ [mark])) ++ later := by
      rw [split.tokens]
      simp
    rw [cut, List.drop_left']
    simp
    omega
  change s.groupStart t colon = _
  unfold groupStart groupStartAfter
  rewrite [behind, show s.document = d from steady.document]
  rfl

/-- The regions in every block form a row. -/
def Tiling (d : Document) (s : Scan) : Prop :=
  ∀ block, (s.tree.node block).kind = some .block → ∃ before tiles, Tiled d s block before tiles

/-- A turn that opens a group at its label, or another region where no label and no brace is
awaited. -/
theorem Tiling.enter (tiling : Tiling d s) (steady : Steady options d (classify d.text) s)
    (hosts : s.Hosts p t) (grown : s'.tree = s.tree.add p o)
    (labels : o.kind = .caseGroup → t.Labels d (classify d.text) (o.node p))
    (none : o.kind ≠ .caseGroup → (s.tree.node p).kind = some .block → ¬ s.Next p t) :
    Tiling d s' := by
  intro block kind
  by_cases new : block = s.tree.nodes.size
  · rw [new]
    exact ⟨[], [], tiled_opened steady hosts.within grown⟩
  rw [grown, Tree.kind_add (steady.known p hosts.within) new] at kind
  obtain ⟨before, tiles, tiled⟩ := tiling block kind
  by_cases here : block = p
  · subst here
    by_cases group : o.kind = .caseGroup
    · exact ⟨before, _, tiled.enterGroup steady hosts.toReads grown (labels group)⟩
    · -- a last group would have ended at this token
      have empty : tiles = [] := by
        cases last : tiles.getLast? with
        | none => exact List.getLast?_eq_none_iff.1 last
        | some x =>
          exact absurd (tiled.ends_of_within steady hosts.toReads x last).1 (none group kind)
      subst empty
      exact ⟨_, [], tiled.enterPlain steady hosts.toReads grown group⟩
  · exact ⟨before, tiles, tiled.enter steady hosts.within kind here grown⟩

/-- The block that reads a label or a brace, behind the group that it ended. -/
theorem Tiling.next (tiling : Tiling d s) (steady : Steady options d (classify d.text) s)
    (labelled : Labelled d s) (hosts : s.Hosts p t)
    (own : (s.tree.node p).kind = some .block) (next : s.Next p t) : Tiling d s.step := by
  rcases next.ends with closes | label
  · rw [hosts.step_of_brace own (hosts.ahead steady).1 closes]
    intro block kind
    have same : s.tree.Retouched ((s.close p t.stop).advance.leave p).tree :=
      (Tree.Retouched.close (by rw [own]; simp) _).trans (retouched_extendStart _ _ _ p)
    rw [same.kind] at kind
    obtain ⟨before, tiles, tiled⟩ := tiling block kind
    exact ⟨before, tiles, tiled.closeBlock steady labelled hosts own closes⟩
  · obtain ⟨colon, found, step⟩ := hosts.step_of_label own label
    rw [step]
    exact tiling.enter steady hosts rfl
      (fun _ => labels_opening steady hosts label.starts found) (fun other => absurd rfl other)

/-- A step without directives keeps the rows. -/
theorem Tiling.step (tiling : Tiling d s) (steady : Steady options d (classify d.text) s)
    (plain : Plain s) (labelled : Labelled d s)
    (without : ∀ u ∈ classify d.text, u.category ≠ .preprocessorKeyword)
    (within : s.within = some p) : Tiling d s.step := by
  by_cases awaited : (s.tree.node p).kind = some .block ∧ ∃ t, s.Next p t
  · obtain ⟨own, t, next⟩ := awaited
    have hosts : s.Hosts p t := by
      refine ⟨⟨within, ?_, plain.region_live within, next.token⟩, ?_⟩
      · have inside := (steady.formed (classify_wellFormed d)).start_lt_length
          (Cursor.mem_of_token? next.token)
        rw [Cursor.start_of_token? next.token] at inside
        exact Cursor.atEnd_eq_false_iff.2 inside
      · exact isRun_eq_false_of_kind own (by simp) (by simp)
    exact tiling.next steady labelled hosts own next
  have none : ∀ block, (s.tree.node block).kind = some .block → ∀ t, ¬ s.Next block t := by
    intro block kind t next
    obtain rfl : block = p := Option.some.inj (next.within.symm.trans within)
    exact awaited ⟨kind, t, next⟩
  have quiet : ∀ {s'}, s.tree.KeepsBodies s'.tree → Tiling d s' := by
    intro s' keeps block kind
    rw [keeps.retouched.kind] at kind
    obtain ⟨before, tiles, tiled⟩ := tiling block kind
    exact ⟨before, tiles, tiled.quiet kind keeps (none block kind)⟩
  have directive : ∀ {t : Token}, s.Hosts p t → t.category ≠ .preprocessorKeyword := by
    intro t hosts
    exact without t (hosts.ahead steady).1
  have ended : ∀ {t : Token}, s.Hosts p t → (s.tree.node p).kind = some .caseGroup →
      t.closes = true ∨ s.Label t →
      Tiling d ((s.close p (s.document.endBefore t.start)).leave p) := by
    intro t hosts group mark block kind
    have same : s.tree.Retouched ((s.close p (s.document.endBefore t.start)).leave p).tree :=
      (Tree.Retouched.close (by rw [group]; simp) _).trans (retouched_extendStart _ _ _ p)
    rw [same.kind] at kind
    obtain ⟨before, tiles, tiled⟩ := tiling block kind
    exact ⟨before, tiles, tiled.endGroup steady kind hosts group mark⟩
  have turn := step_turn within
  generalize stepped : s.step = s' at turn ⊢
  cases turn with
  | finish _ _ => exact quiet (keepsBodies_finishRun s p)
  | leave _ _ complete =>
    rw [plain.region_live within] at complete
    cases complete
  | gap _ _ _ _ | bridge _ _ _ _ | sameLine _ _ _ _ | pass _ _ _ _ => exact quiet (.refl _)
  | growComment _ kind _ | growImports _ kind _ _ =>
    exact quiet
      (Tree.keepsBodies_update (.move _ _ _ _) (by rw [kind]; simp) (by rw [kind]; simp))
  | endComment _ kind _ | giveBack _ kind _ | endImports _ kind _ _ =>
    exact quiet (keepsBodies_close_leave kind (by simp) (by simp) rfl)
  | openBlock hosts _ | openComment hosts _ _ | openImports hosts _ =>
    exact tiling.enter steady hosts rfl nofun fun _ own => none p own _
  | openGroup hosts _ starts found _ =>
    exact tiling.enter steady hosts rfl (fun _ => labels_opening steady hosts starts found)
      (fun other => absurd rfl other)
  | endGroup hosts grouped starts found kind =>
    have notRoot : p ≠ 0 := by
      rintro rfl
      rw [steady.rooted.root.1] at kind
      cases kind
    have outside : s.step.within = (s.tree.node p).parent := by
      rw [stepped]
      exact (Tree.Retouched.close (by rw [kind]; simp) _).parent p
    exact ended hosts kind
      (Or.inr ⟨grouped, starts, hosts.not_import_of_left steady notRoot outside, _, found⟩)
  | switchGroup hosts _ _ _ notBlock near other =>
    exact absurd (plain.nearestGroup_eq steady hosts notBlock near) other
  | openArm hosts category _ | pendingArm hosts category _ _ | firstArm hosts category _ _ _
  | endArm hosts category _ _ _ | switchArm hosts category _ _ _ _ | closeArm hosts category _ =>
    exact absurd category (directive hosts)
  | closeBlock hosts _ closes own =>
    exact absurd ⟨hosts.within, hosts.token, Or.inl closes⟩ (none p own _)
  | closeGroup hosts _ closes kind => exact ended hosts kind (Or.inl closes)

end Tiled

/-! ## Groups in groups -/

/-- A turn keeps groups apart: what reads a label is no group, or the label ends it. -/
theorem Turn.groupsApart {options : ScanOptions} {d : Document} {tokens : List Token}
    {s s' : Scan} {p : Nat} (turn : Turn s p s') (ordered : Token.Ordered d tokens)
    (steady : Steady options d tokens s) (within : s.within = some p)
    (apart : s.tree.GroupsApart) : s'.tree.GroupsApart := by
  have known := steady.known p within
  obtain ⟨done, rest, split⟩ := steady.split
  cases turn.effect (steady.ordered ordered) split known with
  | stay same _ _ _ => exact apart.retouched same
  | leave same _ _ _ => exact apart.retouched same
  | @enter t o same grown _ _ _ _ =>
    have known' : p < t.nodes.size := by rw [same.size]; exact known
    have size : s'.tree.nodes.size ≠ s.tree.nodes.size := by
      rw [grown, Tree.nodes_size_add, same.size]
      exact Nat.succ_ne_self _
    rw [grown]
    refine (apart.retouched same).add (same.rooted steady.rooted) known' ?_
    intro kind
    have new : (s'.tree.node s.tree.nodes.size).kind = some .caseGroup := by
      rw [grown, ← same.size, Tree.node_add_new known']
      exact congrArg some kind
    rw [same.kind]
    exact turn.opened_kind known size new

end Scan

/-- No group holds a group.  Without directives, the regions in a complete block are others first
and then groups only: each group is complete and ends before the keyword of the next one's label,
and the last ends before the brace that ends the block. -/
theorem groups_tile_block (options : ScanOptions) (d : Document) :
    let tokens := classify d.text
    let tree := Tree.ofTokens options d tokens
    (∀ group child, (tree.node group).kind = some .caseGroup →
      child ∈ (tree.node group).children → (tree.node child).kind ≠ some .caseGroup) ∧
    ((∀ t ∈ tokens, t.category ≠ .preprocessorKeyword) →
      ∀ block, (tree.node block).kind = some .block → (tree.node block).complete = true →
        ∃ (before : List Nat) (tiles : List (Nat × Token)) (brace : Token),
          (tree.node block).children = before ++ tiles.map Prod.fst ∧
          (∀ c ∈ before, (tree.node c).kind ≠ some .caseGroup) ∧
          (∀ x ∈ tiles, x.2.Labels d tokens (tree.node x.1)) ∧
          (tiles.IsChain fun x next => (tree.node x.1).EndsBefore d next.2) ∧
          brace ∈ tokens ∧ brace.isPunctuation '\x7d' = true ∧
          brace.stop = (tree.node block).stop ∧
          ∀ x ∈ tiles.getLast?, (tree.node x.1).EndsBefore d brace) := by
  intro tokens tree
  have ordered := (classify_wellFormed d).ordered
  have empty : (Scan.start options d tokens).tree = Tree.empty := rfl
  constructor
  · have first : (Scan.start options d tokens).tree.GroupsApart := by
      intro group child kind
      rw [empty, Tree.node_empty] at kind
      cases kind
    obtain ⟨-, apart, -⟩ := Scan.ordered_finish_over (P := fun s => s.tree.GroupsApart) ordered
      (fun _ _ _ steady apart within turn => turn.groupsApart ordered steady within apart) first
    exact apart
  · intro without block kind complete
    have first : Scan.Plain (Scan.start options d tokens) ∧
        Scan.Labelled d (Scan.start options d tokens) ∧
        Scan.Tiling d (Scan.start options d tokens) := by
      refine ⟨Scan.plain_start _ _ _, ⟨Scan.bodies_start _ _ _, ?_⟩, ?_⟩
      · intro group block kind
        rw [empty, Tree.node_empty] at kind
        cases kind
      · intro block kind
        rw [empty, Tree.node_empty] at kind
        cases kind
    obtain ⟨-, ⟨-, -, tiling⟩, -⟩ := Scan.finish_by_steps
      (P := fun s => Scan.Plain s ∧ Scan.Labelled d s ∧ Scan.Tiling d s) ordered
      (fun s p steady ⟨plain, labelled, tiling⟩ within =>
        ⟨plain.turn steady within (plain.local_turn steady without (Scan.step_turn within)),
          labelled.turn steady (Scan.step_turn within),
          tiling.step steady plain labelled without within⟩) first
    obtain ⟨before, tiles, tiled⟩ := tiling block kind
    obtain ⟨brace, listed, mark, stop, ends⟩ := tiled.closed complete
    exact ⟨before, tiles, brace, tiled.children, tiled.row.plain, tiled.row.labels,
      tiled.row.chain, listed, mark, stop, ends⟩

/-- A switch with a comment before its first label, and a block inside its second group. -/
theorem groups_tile_block_switch :
    let d := Document.ofText 0
      "switch (x)\n\x7b\n// a\ncase 1:\nf();\ncase 2: \x7b \x7d\ndefault:\n\x7d\n".toList
    let tokens := classify d.text
    let tree := Tree.ofTokens {} d tokens
    ((∀ t ∈ tokens, t.category ≠ .preprocessorKeyword) ∧ (tree.node 1).kind = some .block ∧
      (tree.node 1).complete = true ∧ (tree.node 1).children = [2, 3, 4, 6]) ∧
      [2, 3, 4, 6].map (fun c => (tree.node c).kind) =
        [some .comment, some .caseGroup, some .caseGroup, some .caseGroup] ∧
      ∃ (before : List Nat) (tiles : List (Nat × Token)) (brace : Token),
        [2, 3, 4, 6] = before ++ tiles.map Prod.fst ∧
        (∀ c ∈ before, (tree.node c).kind ≠ some .caseGroup) ∧
        (∀ x ∈ tiles, x.2.Labels d tokens (tree.node x.1)) ∧
        (tiles.IsChain fun x next => (tree.node x.1).EndsBefore d next.2) ∧
        brace ∈ tokens ∧ brace.isPunctuation '\x7d' = true ∧
        brace.stop = (tree.node 1).stop ∧
        ∀ x ∈ tiles.getLast?, (tree.node x.1).EndsBefore d brace := by
  intro d tokens tree
  have without : ∀ t ∈ tokens, t.category ≠ .preprocessorKeyword := by decide +kernel
  have block : (tree.node 1).kind = some .block ∧ (tree.node 1).complete = true ∧
      (tree.node 1).children = [2, 3, 4, 6] := by decide +kernel
  have kinds : [2, 3, 4, 6].map (fun c => (tree.node c).kind) =
      [some .comment, some .caseGroup, some .caseGroup, some .caseGroup] := by decide +kernel
  obtain ⟨before, tiles, brace, children, rest⟩ :=
    (groups_tile_block {} d).2 without 1 block.1 block.2.1
  exact ⟨⟨without, block⟩, kinds, before, tiles, brace, block.2.2.symm.trans children, rest⟩

end CodeFolding
