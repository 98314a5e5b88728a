import Mathlib
import CodeFolding.Proofs.Plain

/-!
# Regions nest

Without directives the regions of a text nest: a region is over before its next sibling starts,
and it holds the regions inside it.  A comment between a label and the first code of its group is
the one exception, since the group starts with that code.

* `Tree.Nested`: what holds of siblings and of a region and its children, kept by each change of
  the tree.
* `Node.Settled`: how a region stands to the tokens that were read and to those still ahead.  A
  complete region other than a group ends before the blanks ahead of any later token, so a group
  that ends there still holds it.
* `regions_nest`: the regions of a text without directives nest.
-/

namespace CodeFolding

/-! ## Siblings and children -/

namespace Tree

/-- The second node follows the first among the children of a node. -/
def Adjacent (t : Tree) (a b : Nat) : Prop := ∃ i, [a, b] <:+: (t.node i).children

/-- How a region starts inside another.  A group does not hold groups, and it may start behind a
comment, but on no later line. -/
structure Under (d : Document) (outer inner : Node) : Prop where
  line : outer.start ≤ d.lineStop (d.lineOf inner.start)
  start : ¬ (outer.kind = some .caseGroup ∧ inner.kind = some .comment) →
    outer.start ≤ inner.start
  groups : outer.kind = some .caseGroup → inner.kind ≠ some .caseGroup

/-- Siblings follow each other, and children lie inside their region. -/
structure Nested (d : Document) (t : Tree) : Prop where
  siblings : ∀ a b, t.Adjacent a b →
    (t.node a).complete = true ∧ (t.node a).stop ≤ (t.node b).start
  under : ∀ q c, c ∈ (t.node q).children → (t.node q).kind ≠ none →
    Under d (t.node q) (t.node c)
  stops : ∀ q c, c ∈ (t.node q).children → (t.node q).complete = true →
    (t.node c).complete = true → (t.node c).stop ≤ (t.node q).stop

section Nested

variable {d : Document} {t t' : Tree} {o : Opening} {p a b q : Nat}

theorem nested_empty (d : Document) : Nested d empty := by
  have none : ∀ i, (empty.node i).children = [] := by
    intro i
    rw [node_empty]
    rfl
  refine ⟨?_, ?_, ?_⟩
  · intro a b ⟨i, within⟩
    rw [none, List.infix_nil] at within
    cases within
  · intro q c member
    rw [none] at member
    exact absurd member List.not_mem_nil
  · intro q c member
    rw [none] at member
    exact absurd member List.not_mem_nil

theorem Retouched.adjacent (same : Retouched t t') : t'.Adjacent a b ↔ t.Adjacent a b := by
  unfold Adjacent
  simp only [same.children]

theorem infix_concat {children : List Nat} {x : Nat} (within : [a, b] <:+: children ++ [x]) :
    [a, b] <:+: children ∨ children.getLast? = some a ∧ b = x := by
  obtain ⟨front, back, split⟩ := within
  rcases List.eq_nil_or_concat back with rfl | ⟨middle, last, ends⟩
  · right
    rw [List.append_nil] at split
    have pair : front ++ [a] ++ [b] = children ++ [x] := by
      rw [List.append_assoc]
      exact split
    obtain ⟨same, last⟩ := List.append_inj' pair rfl
    exact ⟨by rw [← same, List.getLast?_concat], List.singleton_inj.1 last⟩
  · left
    rw [List.concat_eq_append] at ends
    rw [ends, ← List.append_assoc] at split
    exact ⟨front, middle, (List.append_inj' split rfl).1⟩

theorem adjacent_add (known : p < t.nodes.size) (adjacent : (t.add p o).Adjacent a b) :
    t.Adjacent a b ∨ (t.node p).children.getLast? = some a ∧ b = t.nodes.size := by
  obtain ⟨i, within⟩ := adjacent
  rw [children_add known] at within
  split at within
  next here =>
    rcases infix_concat within with old | new
    · exact Or.inl ⟨i, old⟩
    · rw [here] at new
      exact Or.inr new
  next => exact Or.inl ⟨i, within⟩

/-- The node before another among the children of a node. -/
theorem Rooted.precedingSibling?_eq (rooted : Rooted t) (adjacent : t.Adjacent a b) :
    t.precedingSibling? b = some (t.node a) := by
  obtain ⟨i, front, back, split⟩ := adjacent
  have member : b ∈ (t.node i).children := by
    rw [← split]
    simp
  have ordered := rooted.ordered i
  rw [← split] at ordered
  have before : ((t.node i).children.takeWhile (· != b)) = front ++ [a] := by
    rw [← split, List.append_assoc, show [a, b] ++ back = [a] ++ b :: back from rfl,
      ← List.append_assoc, List.takeWhile_append_of_pos]
    · rw [List.takeWhile_cons_of_neg (by simp), List.append_nil]
    · intro x inside
      rw [bne_iff_ne]
      rw [show front ++ [a, b] ++ back = (front ++ [a]) ++ (b :: back) by simp] at ordered
      exact Nat.ne_of_lt ((List.pairwise_append.1 ordered).2.2 x inside b List.mem_cons_self)
  unfold precedingSibling?
  rw [(rooted.child i b member).2.2, Option.bind_some, before, List.getLast?_concat]
  rfl

/-- The first child of a node has none before it. -/
theorem Rooted.precedingSibling?_eq_none (rooted : Rooted t) (member : p ∈ (t.node q).children)
    (first : ∀ a, ¬ t.Adjacent a p) : t.precedingSibling? p = none := by
  obtain ⟨front, back, split⟩ := List.append_of_mem member
  rcases List.eq_nil_or_concat front with rfl | ⟨front, a, ends⟩
  · unfold precedingSibling?
    rw [(rooted.child q p member).2.2, Option.bind_some, split, List.nil_append,
      List.takeWhile_cons_of_neg (by simp)]
    rfl
  · rw [ends, List.concat_eq_append, List.append_assoc] at split
    exact absurd ⟨q, front, back, by rw [split]; simp⟩ (first a)

theorem Rooted.adjacent_lt (rooted : Rooted t) (adjacent : t.Adjacent a b) : a < b := by
  obtain ⟨i, within⟩ := adjacent
  have pair := (rooted.ordered i).sublist within.sublist
  exact List.rel_of_pairwise_cons pair (List.mem_singleton_self b)

/-- The parent of two siblings. -/
theorem Rooted.adjacent_parent (rooted : Rooted t) (adjacent : t.Adjacent a b)
    (member : b ∈ (t.node q).children) : a ∈ (t.node q).children := by
  obtain ⟨i, within⟩ := adjacent
  have up := (rooted.child i b (within.subset (by simp))).2.2
  rw [(rooted.child q b member).2.2, Option.some.injEq] at up
  rw [up]
  exact within.subset (by simp)

/-- A new region starts behind the children that its region has already. -/
theorem Nested.add (nested : Nested d t) (rooted : Rooted t) (known : p < t.nodes.size)
    (behind : ∀ c ∈ (t.node p).children,
      (t.node c).complete = true ∧ (t.node c).stop ≤ o.start)
    (under : (t.node p).kind ≠ none → Under d (t.node p) (o.node p)) :
    Nested d (t.add p o) := by
  have old : ∀ {i : Nat}, i < t.nodes.size →
      ∃ children, (t.add p o).node i = { t.node i with children } :=
    fun bound => exists_node_add known (Nat.ne_of_lt bound)
  have place : ∀ {q c : Nat}, c ∈ ((t.add p o).node q).children →
      c ∈ (t.node q).children ∧ q < t.nodes.size ∧ c < t.nodes.size ∨
        q = p ∧ c = t.nodes.size := by
    intro q c member
    rw [children_add known] at member
    have inner : c ∈ (t.node q).children → q < t.nodes.size ∧ c < t.nodes.size := by
      intro member
      have := rooted.child q c member
      omega
    split at member
    next here =>
      rcases List.mem_append.1 member with member | new
      · exact Or.inl ⟨member, inner member⟩
      · exact Or.inr ⟨here, List.mem_singleton.1 new⟩
    next => exact Or.inl ⟨member, inner member⟩
  refine ⟨?_, ?_, ?_⟩
  · intro a b adjacent
    rcases adjacent_add known adjacent with before | ⟨last, rfl⟩
    · have := rooted.adjacent_lt before
      have bound : b < t.nodes.size := by
        obtain ⟨i, within⟩ := before
        exact (rooted.child i b (within.subset (by simp))).2.1
      obtain ⟨_, node_a⟩ := old (i := a) (by omega)
      obtain ⟨_, node_b⟩ := old bound
      rw [node_a, node_b]
      exact nested.siblings a b before
    · have member := List.mem_of_getLast? last
      obtain ⟨_, node_a⟩ := old (rooted.child p a member).2.1
      rw [node_a, node_add_new known]
      exact behind a member
  · intro q c member region
    rcases place member with ⟨member, q_old, c_old⟩ | ⟨rfl, rfl⟩
    · obtain ⟨_, node_q⟩ := old q_old
      obtain ⟨_, node_c⟩ := old c_old
      rw [node_q] at region ⊢
      rw [node_c]
      have before := nested.under q c member region
      exact ⟨before.line, before.start, before.groups⟩
    · obtain ⟨_, node_q⟩ := old known
      rw [node_q] at region ⊢
      rw [node_add_new known]
      have new := under region
      exact ⟨new.line, new.start, new.groups⟩
  · intro q c member whole complete
    rcases place member with ⟨member, q_old, c_old⟩ | ⟨rfl, rfl⟩
    · obtain ⟨_, node_q⟩ := old q_old
      obtain ⟨_, node_c⟩ := old c_old
      rw [node_q] at whole ⊢
      rw [node_c] at complete ⊢
      exact nested.stops q c member whole complete
    · rw [node_add_new known] at complete
      cases complete

/-- A change of a region is checked against its neighbours, its children and its parent. -/
theorem Nested.update {f : Node → Node} (nested : Nested d t) (rooted : Rooted t)
    (kept : Kept (t.node p) (f (t.node p)))
    (previous : ∀ a, t.Adjacent a p → (t.node a).stop ≤ (f (t.node p)).start)
    (next : ∀ b, t.Adjacent p b →
      (f (t.node p)).complete = true ∧ (f (t.node p)).stop ≤ (t.node b).start)
    (holds : ∀ c ∈ (t.node p).children,
      ((t.node p).kind ≠ none → Under d (f (t.node p)) (t.node c)) ∧
      ((f (t.node p)).complete = true → (t.node c).complete = true →
        (t.node c).stop ≤ (f (t.node p)).stop))
    (held : ∀ q, p ∈ (t.node q).children →
      ((t.node q).kind ≠ none → Under d (t.node q) (f (t.node p))) ∧
      ((t.node q).complete = true → (f (t.node p)).complete = true →
        (f (t.node p)).stop ≤ (t.node q).stop)) : Nested d (t.update p f) := by
  have same : Retouched t (t.update p f) := .update kept
  have node := node_update_cases t p f
  refine ⟨?_, ?_, ?_⟩
  · intro a b adjacent
    rw [same.adjacent] at adjacent
    have := rooted.adjacent_lt adjacent
    rcases node a with left | ⟨rfl, left⟩
    · rcases node b with right | ⟨rfl, right⟩
      · rw [left, right]
        exact nested.siblings a b adjacent
      · rw [left, right]
        exact ⟨(nested.siblings a _ adjacent).1, previous a adjacent⟩
    · rcases node b with right | ⟨rfl, -⟩
      · rw [left, right]
        exact next b adjacent
      · omega
  · intro q c member region
    rw [same.children] at member
    rw [same.kind] at region
    have := rooted.child q c member
    rcases node q with outer | ⟨rfl, outer⟩
    · rcases node c with inner | ⟨rfl, inner⟩
      · rw [outer, inner]
        exact nested.under q c member region
      · rw [outer, inner]
        exact (held q member).1 region
    · rcases node c with inner | ⟨rfl, -⟩
      · rw [outer, inner]
        exact (holds c member).1 region
      · omega
  · intro q c member whole complete
    rw [same.children] at member
    have := rooted.child q c member
    rcases node q with outer | ⟨rfl, outer⟩
    · rcases node c with inner | ⟨rfl, inner⟩
      · rw [outer] at whole ⊢
        rw [inner] at complete ⊢
        exact nested.stops q c member whole complete
      · rw [outer] at whole ⊢
        rw [inner] at complete ⊢
        exact (held q member).2 whole complete
    · rcases node c with inner | ⟨rfl, -⟩
      · rw [outer] at whole ⊢
        rw [inner] at complete ⊢
        exact (holds c member).2 whole complete
      · omega

/-- A new stop of an open region, which may complete it if its children stop before. -/
theorem Nested.restop {f : Node → Node} (nested : Nested d t) (rooted : Rooted t)
    (kept : Kept (t.node p) (f (t.node p))) (live : (t.node p).complete = false)
    (start : (f (t.node p)).start = (t.node p).start)
    (inside : (f (t.node p)).complete = true → ∀ c ∈ (t.node p).children,
      (t.node c).complete = true → (t.node c).stop ≤ (f (t.node p)).stop)
    (around : (f (t.node p)).complete = true →
      ∀ q, p ∈ (t.node q).children → (t.node q).complete = false) :
    Nested d (t.update p f) := by
  refine nested.update rooted kept ?_ ?_ ?_ ?_
  · intro a adjacent
    rw [start]
    exact (nested.siblings a p adjacent).2
  · intro b adjacent
    -- an open region has no next sibling
    have complete := (nested.siblings p b adjacent).1
    rw [live] at complete
    cases complete
  · intro c member
    refine ⟨?_, fun complete => inside complete c member⟩
    intro region
    have before := nested.under p c member region
    exact ⟨by rw [start]; exact before.line, by rw [start, kept.kind]; exact before.start,
      by rw [kept.kind]; exact before.groups⟩
  · intro q member
    refine ⟨?_, ?_⟩
    · intro region
      have before := nested.under q p member region
      exact ⟨by rw [start]; exact before.line, by rw [start, kept.kind]; exact before.start,
        by rw [kept.kind]; exact before.groups⟩
    · intro whole complete
      rw [around complete q member] at whole
      cases whole

/-- The floor of a header is not above the last line of the sibling before. -/
theorem lineOf_stop_le_headerFloor (rooted : Rooted t) (adjacent : t.Adjacent a p) :
    d.lineOf (t.node a).stop ≤ headerFloor d t p := by
  obtain ⟨i, within⟩ := adjacent
  have up := (rooted.child i p (within.subset (by simp))).2.2
  unfold headerFloor
  rw [up]
  dsimp only
  rw [rooted.precedingSibling?_eq ⟨i, within⟩]
  dsimp only
  split
  next => exact Nat.le_refl _
  next => exact Nat.le_succ _

/-- The floor of a header without a sibling before it is below the first line around. -/
theorem lineOf_start_lt_headerFloor (rooted : Rooted t) (member : p ∈ (t.node q).children)
    (first : ∀ a, ¬ t.Adjacent a p) (region : (t.node q).kind ≠ none) :
    d.lineOf (t.node q).start < headerFloor d t p := by
  unfold headerFloor
  rw [(rooted.child q p member).2.2]
  dsimp only
  rw [rooted.precedingSibling?_eq_none member first]
  dsimp only
  rw [if_pos (Option.isSome_iff_ne_none.2 region)]
  exact Nat.lt_succ_self _

/-- A start that moves up stays behind the sibling before it and inside the region around. -/
theorem Nested.extendStart (nested : Nested d t) (rooted : Rooted t)
    (ordered : ∀ i, (t.node i).complete = true → (t.node i).start ≤ (t.node i).stop)
    (content : ∀ i, (t.node i).complete = true → d.InContent (t.node i).stop)
    (options : ScanOptions) (p : Nat) : Nested d (extendStart options d t p) := by
  rcases Scan.extendStart_cases options d t p with same | ⟨n, -, -, floor, above, known, moved⟩
  · rw [same]
    exact nested
  have previous : ∀ a, t.Adjacent a p → (t.node a).stop ≤ d.lineStop n := by
    intro a adjacent
    have low := lineOf_stop_le_headerFloor (d := d) rooted adjacent
    exact (content a (nested.siblings a p adjacent).1).le_lineStop (Nat.le_trans low floor)
  have up : d.lineStop n ≤ (t.node p).start :=
    Nat.le_trans (Document.lineStop_le_lineStart above) (d.lineStart_lineOf_le _)
  rw [moved]
  refine nested.update rooted (.move _ _ _ _) previous
    (fun b adjacent => nested.siblings p b adjacent) ?_ ?_
  · intro c member
    refine ⟨?_, fun complete => nested.stops p c member complete⟩
    intro region
    have before := nested.under p c member region
    exact ⟨Nat.le_trans up before.line, fun proper => Nat.le_trans up (before.start proper),
      before.groups⟩
  · intro q member
    refine ⟨?_, fun whole complete => nested.stops q p member whole complete⟩
    intro region
    have before := nested.under q p member region
    have inside : (t.node q).start ≤ d.lineStop n := by
      by_cases first : ∃ a, t.Adjacent a p
      · obtain ⟨a, adjacent⟩ := first
        have complete := (nested.siblings a p adjacent).1
        have lines := Document.lineOf_mono (d := d) (ordered a complete)
        have low := lineOf_stop_le_headerFloor (d := d) rooted adjacent
        have line := (nested.under q a (rooted.adjacent_parent adjacent member) region).line
        exact Nat.le_trans line (Document.lineStop_mono (by omega))
      · have low := lineOf_start_lt_headerFloor (d := d) rooted member (not_exists.1 first) region
        by_contra behind
        have line := d.lineStart_le_lineStop n
        have : d.lineStart n ≤ (t.node q).start := by omega
        have := (Document.le_lineOf_iff known).2 this
        omega
    refine ⟨?_, fun _ => inside, before.groups⟩
    show (t.node q).start ≤ d.lineStop (d.lineOf (d.lineStop n))
    rw [Document.lineOf_lineStop known]
    exact inside

end Nested

end Tree

/-! ## Places behind the cursor -/

/-- The place is behind the cursor, in the content of its line, and not among the blanks before a
token ahead. -/
structure Document.Behind (d : Document) (rest : List Token) (position place : Nat) : Prop where
  reached : place ≤ position
  content : d.InContent place
  before : ∀ u ∈ rest, place ≤ d.endBefore u.start

section Behind

variable {d : Document} {done rest : List Token} {position place : Nat} {t : Token}

theorem Document.Behind.max {other : Nat} (first : d.Behind rest position place)
    (second : d.Behind rest position other) : d.Behind rest position (max place other) := by
  rcases Nat.le_total place other with le | le
  · rw [Nat.max_eq_right le]
    exact second
  · rw [Nat.max_eq_left le]
    exact first

theorem behind_stop (cut : classify d.text = done ++ rest) (member : t ∈ done)
    (whole : t.stop ≤ position) : d.Behind rest position t.stop := by
  have formed := classify_wellFormed d
  have listed : t ∈ classify d.text := by
    rw [cut]
    exact List.mem_append_left _ member
  have apart := formed.apart
  rw [cut] at apart
  rcases classify_endsVisibly listed with visible | final
  · refine ⟨whole, visible.le_lineStop, ?_⟩
    intro u ahead
    exact visible.le_endBefore ((List.pairwise_append.1 apart).2.2 t member u ahead)
  · refine ⟨whole, by rw [final]; exact d.inContent_length, ?_⟩
    intro u ahead
    have := (List.pairwise_append.1 apart).2.2 t member u ahead
    have := formed.start_lt_length (by rw [cut]; exact List.mem_append_right _ ahead)
    omega

theorem behind_start (cut : classify d.text = done ++ rest) (member : t ∈ done)
    (whole : t.stop ≤ position) : d.Behind rest position t.start := by
  have listed : t ∈ classify d.text := by
    rw [cut]
    exact List.mem_append_left _ member
  have width := (classify_wellFormed d).nonempty t listed
  have stop := behind_stop cut member whole
  refine ⟨by omega, classify_start_le_lineStop listed, ?_⟩
  intro u ahead
  have := stop.before u ahead
  omega

/-- The end of a line that every token ahead is below. -/
theorem behind_lineStop {i : Nat} (inside : i < d.lineCount) (reached : d.lineStop i ≤ position)
    (ahead : ∀ u ∈ rest, i < d.lineOf u.start) : d.Behind rest position (d.lineStop i) :=
  ⟨reached, Document.inContent_lineStop inside,
    fun u member => Document.lineStop_le_endBefore (ahead u member)⟩

end Behind

/-! ## Regions and the tokens around them -/

/-- A move of the cursor that leaves no token half read. -/
structure Cursor.Onward (c c' : Cursor) (done rest done' rest' : List Token) : Prop where
  split : c'.Split done' rest'
  taken : ∀ t ∈ done, t ∈ done'
  left : ∀ t ∈ rest', t ∈ rest
  forward : c.position ≤ c'.position
  whole : ∀ t ∈ done', t.stop ≤ c'.position

/-- How a region stands to the tokens read and those ahead.  An open region starts with a token
that was read; an open group starts before the code ahead, and not below the line of the
cursor. -/
structure Node.Settled (d : Document) (done rest : List Token) (position : Nat) (n : Node) :
    Prop where
  ordered : n.complete = true → n.start ≤ n.stop
  reached : n.complete = true → n.stop ≤ position
  content : n.complete = true → d.InContent n.stop
  before : n.complete = true → n.kind ≠ some .caseGroup →
    ∀ u ∈ rest, n.stop ≤ d.endBefore u.start
  opened : n.isOpen = true → n.kind ≠ some .caseGroup → ∃ t ∈ done, n.start = t.start
  group : n.isOpen = true → n.kind = some .caseGroup → d.InContent n.start ∧
    n.start ≤ d.lineStop (d.lineOf position) ∧
    ∀ u ∈ rest, u.category.isComment = false → n.start ≤ u.start

section Settled

variable {d : Document} {c c' : Cursor} {done rest done' rest' : List Token} {position : Nat}
  {n : Node} {t : Tree} {p : Nat}

theorem settled_root : Node.root.Settled d done rest position := by
  refine ⟨?_, ?_, ?_, ?_, ?_, ?_⟩
  all_goals
    intro impossible
    cases impossible

theorem Node.Settled.mono (settled : n.Settled d done rest c.position)
    (onward : c.Onward c' done rest done' rest') : n.Settled d done' rest' c'.position := by
  refine ⟨settled.ordered, ?_, settled.content, ?_, ?_, ?_⟩
  · intro complete
    exact Nat.le_trans (settled.reached complete) onward.forward
  · intro complete kind u ahead
    exact settled.before complete kind u (onward.left u ahead)
  · intro live kind
    obtain ⟨t, member, starts⟩ := settled.opened live kind
    exact ⟨t, onward.taken t member, starts⟩
  · intro live kind
    obtain ⟨content, line, ahead⟩ := settled.group live kind
    have below : d.lineOf c.position ≤ d.lineOf c'.position := Document.lineOf_mono onward.forward
    exact ⟨content, Nat.le_trans line (Document.lineStop_mono below),
      fun u member => ahead u (onward.left u member)⟩

theorem Node.Settled.congr {children : List Nat} (settled : n.Settled d done rest position) :
    { n with children }.Settled d done rest position :=
  ⟨settled.ordered, settled.reached, settled.content, settled.before, settled.opened,
    settled.group⟩

/-- A start that moves up. -/
theorem settled_extendStart (settled : ∀ i, (t.node i).Settled d done rest position)
    (options : ScanOptions) (p i : Nat) :
    ((extendStart options d t p).node i).Settled d done rest position := by
  rcases Scan.extendStart_cases options d t p with same | ⟨n, -, header, -, above, -, moved⟩
  · rw [same]
    exact settled i
  · rw [moved]
    rcases t.node_update_cases p _ i with same | ⟨-, changed⟩
    · rw [same]
      exact settled i
    · rw [changed]
      have complete := (Scan.of_hasHeader header).2
      have ordered := (settled p).ordered complete
      have before := d.lineStart_lineOf_le (t.node p).start
      have line := Document.lineStop_le_lineStart (d := d) above
      have closed :
          { t.node p with start := d.lineStop n, fromPriorLine := true }.isOpen = false := by
        unfold Node.isOpen
        rw [complete, Bool.and_comm]
        rfl
      refine ⟨fun _ => ?_, (settled p).reached, (settled p).content, (settled p).before, ?_, ?_⟩
      · show d.lineStop n ≤ (t.node p).stop
        omega
      · intro live
        rw [closed] at live
        cases live
      · intro live
        rw [closed] at live
        cases live

end Settled

/-- The import run stops with the line of an import.  Without that line it would stop where it
starts, or with the line of an import above. -/
def ImportsTo (d : Document) (done : List Token) (rollback : Nat) (n : Node) : Prop :=
  ∃ k ∈ done, n.stop = d.lineStop (d.lineOf k.start) ∧
    (rollback = n.start ∨ ∃ k' ∈ done,
      rollback = d.lineStop (d.lineOf k'.start) ∧ d.lineOf k'.start < d.lineOf k.start)

theorem ImportsTo.mono {d : Document} {done done' : List Token} {rollback : Nat} {n : Node}
    (imports : ImportsTo d done rollback n) (taken : ∀ t ∈ done, t ∈ done') :
    ImportsTo d done' rollback n := by
  obtain ⟨k, member, stop, back⟩ := imports
  refine ⟨k, taken k member, stop, ?_⟩
  rcases back with start | ⟨k', before, line⟩
  · exact Or.inl start
  · exact Or.inr ⟨k', taken k' before, line⟩

namespace Scan

/-- The regions nest, and each stands as it should to the tokens read and those ahead; a run that
is being read stops with one of its tokens or lines. -/
structure Nests (d : Document) (s : Scan) (done rest : List Token) : Prop where
  whole : ∀ t ∈ done, t.stop ≤ s.cursor.position
  settled : ∀ i, (s.tree.node i).Settled d done rest s.cursor.position
  nested : s.tree.Nested d
  comment : ∀ p, s.within = some p → (s.tree.node p).kind = some .comment →
    ∃ c ∈ done, (s.tree.node p).stop = c.stop
  imports : ∀ p, s.within = some p → (s.tree.node p).kind = some .importRun →
    ImportsTo d done s.importRollback (s.tree.node p)

section Nests

variable {options : ScanOptions} {d : Document} {tokens done rest done' rest' : List Token}
  {s s' : Scan} {p : Nat} {t : Token}

theorem nests_start (options : ScanOptions) (d : Document) (tokens : List Token) :
    Nests d (start options d tokens) [] tokens := by
  have node : ∀ i, (start options d tokens).tree.node i = Node.root := Tree.node_empty
  refine ⟨fun _ member => absurd member List.not_mem_nil, ?_, Tree.nested_empty d, ?_, ?_⟩
  · intro i
    rw [node]
    exact settled_root
  · intro p _ kind
    rw [node] at kind
    cases kind
  · intro p _ kind
    rw [node] at kind
    cases kind

/-- A turn that leaves the tree alone. -/
theorem Nests.still (nests : Nests d s done rest)
    (onward : s.cursor.Onward s'.cursor done rest done' rest') (tree : s'.tree = s.tree)
    (within : s'.within = s.within) (rollback : s'.importRollback = s.importRollback) :
    Nests d s' done' rest' := by
  refine ⟨onward.whole, ?_, ?_, ?_, ?_⟩
  · intro i
    rw [tree]
    exact (nests.settled i).mono onward
  · rw [tree]
    exact nests.nested
  · intro p inside kind
    rw [within] at inside
    rw [tree] at kind ⊢
    obtain ⟨c, member, stop⟩ := nests.comment p inside kind
    exact ⟨c, onward.taken c member, stop⟩
  · intro p inside kind
    rw [within] at inside
    rw [tree] at kind ⊢
    rw [rollback]
    exact (nests.imports p inside kind).mono onward.taken

/-- A turn that leaves a region that stays open. -/
theorem Nests.abandon {tokens : List Token} (steady : Steady options d tokens s)
    (nests : Nests d s done rest) (onward : s.cursor.Onward s'.cursor done rest done' rest')
    (tree : s'.tree = s.tree) (outside : s'.within = (s.tree.node p).parent) :
    Nests d s' done' rest' := by
  refine ⟨onward.whole, ?_, ?_, ?_, ?_⟩
  · intro i
    rw [tree]
    exact (nests.settled i).mono onward
  · rw [tree]
    exact nests.nested
  · intro q here kind
    have host := steady.leaf p q (outside.symm.trans here)
    rw [tree] at kind
    rw [Node.isRun, kind] at host
    cases host
  · intro q here kind
    have host := steady.leaf p q (outside.symm.trans here)
    rw [tree] at kind
    rw [Node.isRun, kind] at host
    cases host

/-- A turn that lets a run grow. -/
theorem Nests.grow {stop : Nat} (steady : Steady options d tokens s)
    (nests : Nests d s done rest) (onward : s.cursor.Onward s'.cursor done rest done' rest')
    (within : s.within = some p) (live : (s.tree.node p).complete = false)
    (tree : s'.tree = s.tree.update p fun n => { n with stop }) (inside : s'.within = some p)
    (comment : (s.tree.node p).kind = some .comment → ∃ c ∈ done', stop = c.stop)
    (imports : (s.tree.node p).kind = some .importRun →
      ImportsTo d done' s'.importRollback { s.tree.node p with stop }) :
    Nests d s' done' rest' := by
  have known := steady.known p within
  have here : s'.tree.node p = { s.tree.node p with stop } := by
    rw [tree, Tree.node_update_self known]
  refine ⟨onward.whole, ?_, ?_, ?_, ?_⟩
  · intro i
    by_cases other : i = p
    · have before := (nests.settled p).mono onward
      rw [other, here]
      refine ⟨?_, ?_, ?_, ?_, before.opened, before.group⟩
      all_goals
        intro complete
        rw [show (s.tree.node p).complete = false from live] at complete
        cases complete
    · rw [tree, Tree.node_update_of_ne other]
      exact (nests.settled i).mono onward
  · rw [tree]
    refine nests.nested.restop steady.rooted ?_ live rfl ?_ ?_
    · exact .move _ _ _ _
    · intro complete
      rw [show (s.tree.node p).complete = false from live] at complete
      cases complete
    · intro complete
      rw [show (s.tree.node p).complete = false from live] at complete
      cases complete
  · intro q same kind
    rw [inside, Option.some.injEq] at same
    rw [← same, here] at kind ⊢
    exact comment kind
  · intro q same kind
    rw [inside, Option.some.injEq] at same
    rw [← same, here] at kind ⊢
    exact imports kind

/-- A turn that opens a region. -/
theorem Nests.enter {o : Opening} (steady : Steady options d tokens s)
    (nests : Nests d s done rest) (onward : s.cursor.Onward s'.cursor done rest done' rest')
    (within : s.within = some p) (more : s.cursor.atEnd = false)
    (grown : s'.tree = s.tree.add p o) (inside : s'.within = some s.tree.nodes.size)
    (starts : s.cursor.position ≤ o.start)
    (fresh : (o.node p).Settled d done' rest' s'.cursor.position)
    (under : (s.tree.node p).kind ≠ none → Tree.Under d (s.tree.node p) (o.node p))
    (comment : o.kind = .comment → ∃ c ∈ done', o.stop = c.stop)
    (imports : o.kind = .importRun → ImportsTo d done' s'.importRollback (o.node p)) :
    Nests d s' done' rest' := by
  have known := steady.known p within
  have new : s'.tree.node s.tree.nodes.size = o.node p := by
    rw [grown, Tree.node_add_new known]
  refine ⟨onward.whole, ?_, ?_, ?_, ?_⟩
  · intro i
    rw [grown]
    rcases Tree.node_add_cases (o := o) known i with ⟨children, same⟩ | ⟨-, new⟩
    · rw [same]
      exact ((nests.settled i).mono onward).congr
    · rw [new]
      exact fresh
  · rw [grown]
    refine nests.nested.add steady.rooted known ?_ under
    intro c member
    have complete := steady.children_complete within more member
    exact ⟨complete, Nat.le_trans ((nests.settled c).reached complete) starts⟩
  · intro q same kind
    rw [inside, Option.some.injEq] at same
    rw [← same, new] at kind ⊢
    exact comment (Option.some.inj kind)
  · intro q same kind
    rw [inside, Option.some.injEq] at same
    rw [← same, new] at kind ⊢
    exact imports (Option.some.inj kind)

/-- A turn that completes the region being read and leaves it. -/
theorem Nests.close {stop : Nat} (steady : Steady options d tokens s) (plain : Plain s)
    (nests : Nests d s done rest) (onward : s.cursor.Onward s'.cursor done rest done' rest')
    (within : s.within = some p) (region : (s.tree.node p).kind ≠ none)
    (tree : s'.tree = extendStart options d (s.tree.close p stop) p)
    (outside : s'.within = (s.tree.node p).parent)
    (reached : max stop (s.tree.node p).start ≤ s'.cursor.position)
    (content : d.InContent (max stop (s.tree.node p).start))
    (before : (s.tree.node p).kind ≠ some .caseGroup →
      ∀ u ∈ rest', max stop (s.tree.node p).start ≤ d.endBefore u.start)
    (inside : ∀ c ∈ (s.tree.node p).children, (s.tree.node c).complete = true →
      (s.tree.node c).stop ≤ max stop (s.tree.node p).start) : Nests d s' done' rest' := by
  have known := steady.known p within
  have live := plain.region_live within
  have same : s.tree.Retouched (s.tree.close p stop) := .close region stop
  have settled : ∀ i,
      ((s.tree.close p stop).node i).Settled d done' rest' s'.cursor.position := by
    intro i
    by_cases here : i = p
    · rw [here, Tree.node_close_self known]
      refine ⟨fun _ => Nat.le_max_right _ _, fun _ => reached, fun _ => content, fun _ => before,
        ?_, ?_⟩
      all_goals
        intro live
        rw [Node.isOpen, Bool.and_comm] at live
        cases live
    · rw [Tree.node_close_of_ne here]
      exact (nests.settled i).mono onward
  have nested : (s.tree.close p stop).Nested d := by
    refine nests.nested.restop steady.rooted ?_ live rfl (fun _ => inside) ?_
    · exact .close region _
    · intro _ q member
      have up := (steady.rooted.child q p member).2.2
      rcases steady.path_cons within with ⟨-, top, -⟩ | ⟨parent, -, linked, path⟩
      · rw [top] at up
        cases up
      · rw [linked, Option.some.injEq] at up
        apply plain.live
        rw [path, ← up, Tree.ancestors]
        exact List.mem_cons_of_mem _ List.mem_cons_self
  -- the region around holds others, so it is no run
  have host : ∀ q, s'.within = some q → (s'.tree.node q).isRun = false := by
    intro q here
    rw [outside] at here
    have final := same.trans (retouched_extendStart options d (s.tree.close p stop) p)
    rw [tree, isRun_of_retouched final]
    exact steady.leaf p q here
  refine ⟨onward.whole, ?_, ?_, ?_, ?_⟩
  · intro i
    rw [tree]
    exact settled_extendStart settled options p i
  · rw [tree]
    exact nested.extendStart (same.rooted steady.rooted) (fun i => (settled i).ordered)
      (fun i => (settled i).content) options p
  · intro q here kind
    have run := host q here
    rw [Node.isRun, kind] at run
    cases run
  · intro q here kind
    have run := host q here
    rw [Node.isRun, kind] at run
    cases run

end Nests

/-! ## Moves -/

section Moves

variable {options : ScanOptions} {d : Document} {c : Cursor} {done rest later : List Token}
  {t : Token}

theorem onward_still (split : c.Split done rest) (whole : ∀ u ∈ done, u.stop ≤ c.position) :
    c.Onward c done rest done rest :=
  ⟨split, fun _ member => member, fun _ member => member, Nat.le_refl _, whole⟩

theorem onward_gap (formed : Token.WellFormed c.document c.tokens) (split : c.Split done rest)
    (whole : ∀ u ∈ done, u.stop ≤ c.position) (none : c.token? = none) (more : c.atEnd = false) :
    c.Onward c.advance done rest done rest := by
  have forward := Cursor.position_lt_of_advance? (Cursor.advance?_eq_some more)
  refine ⟨split.advance_gap formed none more, fun _ member => member, fun _ member => member,
    Nat.le_of_lt forward, ?_⟩
  intro u member
  have := whole u member
  omega

theorem onward_token (formed : Token.WellFormed c.document c.tokens)
    (split : c.Split done (t :: later)) (whole : ∀ u ∈ done, u.stop ≤ c.position)
    (token : c.token? = some t) : c.Onward c.advance done (t :: later) (done ++ [t]) later := by
  have moved := Cursor.advance_position_of_token? formed.ordered token
  have width := formed.nonempty t (Cursor.mem_of_token? token)
  have starts := Cursor.start_of_token? token
  refine ⟨split.advance_token formed token, fun _ member => List.mem_append_left _ member,
    fun _ member => List.mem_cons_of_mem _ member, by omega, ?_⟩
  intro u member
  rcases List.mem_append.1 member with member | member
  · have := whole u member
    omega
  · rw [List.mem_singleton.1 member]
    omega

/-- Skipping a label reads its tokens. -/
theorem onward_label {c' : Cursor} {label : List Token} {mark : Token}
    (formed : Token.WellFormed c.document c.tokens)
    (split : c.Split done (t :: (label ++ mark :: later)))
    (whole : ∀ u ∈ done, u.stop ≤ c.position)
    (cut : c'.Split (done ++ (t :: label ++ [mark])) later) (moved : c'.position = mark.stop) :
    c.Onward c' done (t :: (label ++ mark :: later)) (done ++ (t :: label ++ [mark])) later := by
  have apart := formed.apart
  rw [split.tokens] at apart
  have inner := (List.pairwise_append.1 apart).2.1
  have ahead := split.ahead mark (by simp)
  have width := formed.nonempty mark (by rw [split.tokens]; simp)
  refine ⟨cut, fun _ member => List.mem_append_left _ member, ?_, by omega, ?_⟩
  · intro u member
    simp [member]
  · intro u member
    rw [moved]
    rcases List.mem_append.1 member with member | member
    · have := whole u member
      omega
    · rcases List.mem_append.1 member with member | member
      · rw [← List.cons_append] at inner
        have := (List.pairwise_append.1 inner).2.2 u member mark List.mem_cons_self
        omega
      · rw [List.mem_singleton.1 member]

/-- A token that leads its line is below the tokens read before it. -/
theorem lineOf_lt_of_leadsLine (formed : Token.WellFormed c.document c.tokens)
    (split : c.Split done (t :: later)) (index : c.index? = some done.length)
    (leads : c.leadsLine t = true) {k : Token} (member : k ∈ done) :
    c.document.lineOf k.start < c.document.lineOf t.start := by
  unfold Cursor.leadsLine at leads
  rw [split.previous?_eq index] at leads
  rw [split.tokens] at formed
  have width := formed.nonempty k (List.mem_append_left _ member)
  refine Nat.lt_of_le_of_lt (Document.lineOf_mono (Nat.le_of_lt width))
    (formed.lineOf_stop_lt ?_ member)
  intro last ends
  rw [Option.mem_def.1 ends] at leads
  exact of_decide_eq_true leads

end Moves

/-! ## Turns -/

section Turns

variable {options : ScanOptions} {d : Document} {done rest done' rest' later : List Token}
  {s s' : Scan} {p : Nat} {t : Token}

theorem Steady.cut {tokens : List Token} (steady : Steady options d tokens s)
    (split : s.cursor.Split done rest) : tokens = done ++ rest :=
  steady.tokens.symm.trans split.tokens

/-- A region that opens with a token that was read. -/
theorem settled_opening {o : Opening} (kind : o.kind ≠ .caseGroup) (member : t ∈ done)
    (starts : o.start = t.start) (position : Nat) :
    (o.node p).Settled d done rest position := by
  refine ⟨?_, ?_, ?_, ?_, fun _ _ => ⟨t, member, starts⟩, ?_⟩
  · intro complete
    cases complete
  · intro complete
    cases complete
  · intro complete
    cases complete
  · intro complete
    cases complete
  · intro _ group
    exact absurd (Option.some.inj group) kind

theorem settled_group {o : Opening} {position : Nat} (content : d.InContent o.start)
    (line : o.start ≤ d.lineStop (d.lineOf position))
    (ahead : ∀ u ∈ rest, u.category.isComment = false → o.start ≤ u.start)
    (kind : o.kind = .caseGroup) : (o.node p).Settled d done rest position := by
  refine ⟨?_, ?_, ?_, ?_, ?_, fun _ _ => ⟨content, line, ahead⟩⟩
  · intro complete
    cases complete
  · intro complete
    cases complete
  · intro complete
    cases complete
  · intro complete
    cases complete
  · intro _ other
    exact absurd (congrArg some kind) other

/-- A region that opens with the next token, or behind it, starts inside the one being read. -/
theorem Nests.under {o : Opening} (steady : Steady options d (classify d.text) s)
    (nests : Nests d s done (t :: later)) (split : s.cursor.Split done (t :: later))
    (hosts : s.Hosts p t) (starts : t.start ≤ o.start)
    (comment : t.category.isComment = true → o.kind = .comment)
    (groups : (s.tree.node p).kind = some .caseGroup → o.kind ≠ .caseGroup)
    (region : (s.tree.node p).kind ≠ none) : Tree.Under d (s.tree.node p) (o.node p) := by
  have here := Cursor.start_of_token? hosts.token
  have live : (s.tree.node p).isOpen = true := by
    unfold Node.isOpen
    rw [hosts.live, Option.isSome_iff_ne_none.2 region]
    rfl
  by_cases group : (s.tree.node p).kind = some .caseGroup
  · obtain ⟨-, line, ahead⟩ := (nests.settled p).group live group
    refine ⟨?_, ?_, fun _ same => groups group (Option.some.inj same)⟩
    · exact Nat.le_trans line (Document.lineStop_mono (Document.lineOf_mono (by
        show s.cursor.position ≤ o.start
        omega)))
    · intro proper
      have code : t.category.isComment = false := by
        rw [← Bool.not_eq_true]
        intro isComment
        exact proper ⟨group, congrArg some (comment isComment)⟩
      exact Nat.le_trans (ahead t List.mem_cons_self code) starts
  · obtain ⟨first, member, start⟩ := (nests.settled p).opened live group
    have behind := split.behind first member
    have listed : first ∈ classify d.text := by
      rw [steady.cut split]
      exact List.mem_append_left _ member
    have inside : (s.tree.node p).start ≤ o.start := by omega
    refine ⟨?_, fun _ => inside, fun same => absurd same group⟩
    rw [start]
    rw [start] at inside
    exact Document.InContent.le_lineStop (classify_start_le_lineStop listed)
      (Document.lineOf_mono inside)

/-- The regions nest, and the cursor cuts the stream. -/
def InNest (d : Document) (s : Scan) : Prop :=
  ∃ done rest, s.cursor.Split done rest ∧ s.Nests d done rest

/-- A region that opened with a token that was read starts behind the cursor. -/
theorem Nests.exists_opening (nests : Nests d s done rest)
    (live : (s.tree.node p).complete = false) {kind : RegionKind}
    (region : (s.tree.node p).kind = some kind) (other : kind ≠ .caseGroup) :
    ∃ first ∈ done, (s.tree.node p).start = first.start := by
  refine (nests.settled p).opened ?_ ?_
  · rw [Node.isOpen, region, live]
    rfl
  · rw [region]
    exact fun same => other (Option.some.inj same)

/-- A turn that goes over a token and leaves the tree alone. -/
theorem Nests.pass (steady : Steady options d (classify d.text) s) (nests : Nests d s done rest)
    (split : s.cursor.Split done rest) (token : s.cursor.token? = some t) :
    InNest d s.advance := by
  have formed := steady.formed (classify_wellFormed d)
  obtain ⟨later, rfl, -, -⟩ := split.of_token? formed token
  have onward := onward_token formed split nests.whole token
  exact ⟨_, later, onward.split, nests.still onward rfl rfl rfl⟩

/-! ### Runs -/

/-- A turn that completes a run at a place behind the cursor. -/
theorem Nests.endRun {stop : Nat} (steady : Steady options d (classify d.text) s)
    (plain : Plain s) (nests : Nests d s done rest) (split : s.cursor.Split done rest)
    (within : s.within = some p) (run : (s.tree.node p).isRun = true)
    (behind : d.Behind rest s.cursor.position stop) : InNest d ((s.close p stop).leave p) := by
  have region := kind_ne_none_of_isRun run
  obtain ⟨first, member, start⟩ : ∃ first ∈ done, (s.tree.node p).start = first.start := by
    rw [Node.isRun, Bool.or_eq_true, beq_iff_eq, beq_iff_eq] at run
    rcases run with kind | kind
    · exact nests.exists_opening (plain.region_live within) kind (by simp)
    · exact nests.exists_opening (plain.region_live within) kind (by simp)
  have ended : d.Behind rest s.cursor.position (max stop (s.tree.node p).start) := by
    rw [start]
    exact behind.max (behind_start (steady.cut split) member (nests.whole first member))
  refine ⟨done, rest, split, nests.close steady plain (onward_still split nests.whole) within
    region ?_ ?_ ended.reached ended.content (fun _ => ended.before) ?_⟩
  · rw [← steady.options, ← steady.document]
    rfl
  · exact (Tree.Retouched.close region _).parent p
  · intro c child
    have leaf := steady.leaf c p (steady.rooted.child p c child).2.2
    rw [run] at leaf
    cases leaf

/-- A comment run stops with a token that was read. -/
theorem Nests.behind_comments (steady : Steady options d (classify d.text) s)
    (nests : Nests d s done rest) (split : s.cursor.Split done rest) (within : s.within = some p)
    (kind : (s.tree.node p).kind = some .comment) :
    d.Behind rest s.cursor.position (s.tree.node p).stop := by
  obtain ⟨c, member, stop⟩ := nests.comment p within kind
  rw [stop]
  exact behind_stop (steady.cut split) member (nests.whole c member)

/-- The line of a token above all tokens ahead is behind the cursor. -/
theorem behind_line_above {k : Token} (split : s.cursor.Split done rest) {place : Nat}
    (above : d.lineOf k.start < d.lineOf place) (reached : place ≤ s.cursor.position) :
    d.Behind rest s.cursor.position (d.lineStop (d.lineOf k.start)) := by
  refine behind_lineStop (d.lineOf_lt _) ?_ ?_
  · exact Nat.le_trans (Document.lineStop_le_lineStart above)
      (Nat.le_trans (d.lineStart_lineOf_le place) reached)
  · intro u ahead
    have := split.ahead u ahead
    exact Nat.lt_of_lt_of_le above (Document.lineOf_mono (by omega))

/-- Without its last line an import run stops above that line, or where it starts. -/
theorem Nests.behind_rollback (steady : Steady options d (classify d.text) s)
    (nests : Nests d s done rest) (split : s.cursor.Split done rest) (reads : s.Reads p t)
    (kind : (s.tree.node p).kind = some .importRun) :
    d.Behind rest s.cursor.position s.importRollback := by
  obtain ⟨k, member, -, back⟩ := nests.imports p reads.within kind
  rcases back with start | ⟨k', before, stop, above⟩
  · obtain ⟨first, opening, starts⟩ := nests.exists_opening reads.live kind (by simp)
    rw [start, starts]
    exact behind_start (steady.cut split) opening (nests.whole first opening)
  · rw [stop]
    exact behind_line_above split above (Nat.le_of_lt (split.behind k member))

/-- An import run stops above a token that leads its line. -/
theorem Nests.behind_imports (steady : Steady options d (classify d.text) s)
    (nests : Nests d s done rest) (split : s.cursor.Split done rest) (reads : s.Reads p t)
    (kind : (s.tree.node p).kind = some .importRun) (leads : s.cursor.leadsLine t = true) :
    d.Behind rest s.cursor.position (s.tree.node p).stop := by
  have formed := steady.formed (classify_wellFormed d)
  obtain ⟨later, rfl, here, index⟩ := split.of_token? formed reads.token
  obtain ⟨k, member, stop, -⟩ := nests.imports p reads.within kind
  have above := lineOf_lt_of_leadsLine formed split index leads member
  rw [steady.document] at above
  rw [stop]
  exact behind_line_above split above (Nat.le_of_eq here)

/-- At the end of the document a run stops behind the cursor. -/
theorem Nests.behind_finish (steady : Steady options d (classify d.text) s)
    (nests : Nests d s done rest) (split : s.cursor.Split done rest) (within : s.within = some p)
    (ended : s.cursor.atEnd = true) (run : (s.tree.node p).isRun = true) :
    d.Behind rest s.cursor.position (s.tree.node p).stop := by
  rw [Node.isRun, Bool.or_eq_true, beq_iff_eq, beq_iff_eq] at run
  rcases run with kind | kind
  · exact nests.behind_comments steady split within kind
  · obtain ⟨k, -, stop, -⟩ := nests.imports p within kind
    have inside := d.lineStop_le_length (d.lineOf k.start)
    have empty := split.rest_eq_nil (steady.formed (classify_wellFormed d)).ordered ended
    rw [Cursor.atEnd, decide_eq_true_eq, steady.document] at ended
    rw [stop, empty]
    exact behind_lineStop (d.lineOf_lt _) (by omega) fun u member =>
      absurd member List.not_mem_nil

/-- A turn that takes a comment into a run. -/
theorem Nests.growComments (steady : Steady options d (classify d.text) s)
    (nests : Nests d s done rest) (split : s.cursor.Split done rest) (reads : s.Reads p t)
    (kind : (s.tree.node p).kind = some .comment) (cursor : s'.cursor = s.cursor.advance)
    (tree : s'.tree = s.tree.update p fun n => { n with stop := t.stop })
    (inside : s'.within = some p) : InNest d s' := by
  have formed := steady.formed (classify_wellFormed d)
  obtain ⟨later, rfl, -, -⟩ := split.of_token? formed reads.token
  have onward := onward_token formed split nests.whole reads.token
  rw [← cursor] at onward
  refine ⟨_, later, onward.split, nests.grow steady onward reads.within reads.live tree inside
    (fun _ => ⟨t, List.mem_append_right _ (List.mem_singleton_self _), rfl⟩) ?_⟩
  intro imports
  rw [kind] at imports
  cases imports

/-- A turn that takes the line of an import into a run. -/
theorem Nests.growImports (steady : Steady options d (classify d.text) s)
    (nests : Nests d s done rest) (split : s.cursor.Split done rest) (reads : s.Reads p t)
    (kind : (s.tree.node p).kind = some .importRun) (leads : s.cursor.leadsLine t = true)
    (cursor : s'.cursor = s.cursor.advance)
    (tree : s'.tree =
      s.tree.update p fun n => { n with stop := (s.document.lineAt t.start).stop })
    (inside : s'.within = some p) (rollback : s'.importRollback = (s.tree.node p).stop) :
    InNest d s' := by
  have formed := steady.formed (classify_wellFormed d)
  obtain ⟨later, rfl, -, index⟩ := split.of_token? formed reads.token
  have onward := onward_token formed split nests.whole reads.token
  rw [← cursor] at onward
  obtain ⟨k, member, stop, -⟩ := nests.imports p reads.within kind
  have above := lineOf_lt_of_leadsLine formed split index leads member
  rw [steady.document] at above
  rw [Document.lineAt_stop, show s.document = d from steady.document] at tree
  refine ⟨_, later, onward.split, nests.grow steady onward reads.within reads.live tree inside
    ?_ ?_⟩
  · intro comment
    rw [kind] at comment
    cases comment
  · intro _
    exact ⟨t, List.mem_append_right _ (List.mem_singleton_self _), rfl,
      Or.inr ⟨k, List.mem_append_left _ member, rollback.trans stop, above⟩⟩

/-! ### Groups -/

/-- A turn that completes a group before the next token, which is no comment. -/
theorem Nests.endGroup (steady : Steady options d (classify d.text) s) (plain : Plain s)
    (nests : Nests d s done rest) (split : s.cursor.Split done rest) (hosts : s.Hosts p t)
    (kind : (s.tree.node p).kind = some .caseGroup) (code : t.category.isComment = false) :
    InNest d ((s.close p (s.document.endBefore t.start)).leave p) := by
  obtain ⟨later, rfl, here, -⟩ :=
    split.of_token? (steady.formed (classify_wellFormed d)) hosts.token
  have live : (s.tree.node p).isOpen = true := by
    unfold Node.isOpen
    rw [hosts.live, kind]
    rfl
  obtain ⟨content, -, ahead⟩ := (nests.settled p).group live kind
  have start := ahead t List.mem_cons_self code
  have listed : t ∈ classify d.text := by
    rw [steady.cut split]
    simp
  rw [show s.document = d from steady.document]
  have tree : ((s.close p (d.endBefore t.start)).leave p).tree =
      extendStart options d (s.tree.close p (d.endBefore t.start)) p := by
    rw [← steady.options, ← steady.document]
    rfl
  refine ⟨done, _, split, nests.close steady plain (onward_still split nests.whole) hosts.within
    (by rw [kind]; simp) tree ?_ ?_ ?_ (fun other => absurd kind other) ?_⟩
  · exact (Tree.Retouched.close (by rw [kind]; simp) _).parent p
  · show max (d.endBefore t.start) (s.tree.node p).start ≤ s.cursor.position
    rw [← here]
    exact Nat.max_le.2 ⟨d.endBefore_le t.start, start⟩
  · rcases Nat.le_total (d.endBefore t.start) (s.tree.node p).start with le | le
    · rw [Nat.max_eq_right le]
      exact content
    · rw [Nat.max_eq_left le]
      exact Document.InContent.endBefore (classify_start_le_lineStop listed)
  · intro c child complete
    have different := (nests.nested.under p c child (by rw [kind]; simp)).groups kind
    have before := (nests.settled c).before complete different t List.mem_cons_self
    exact Nat.le_trans before (Nat.le_max_left _ _)

/-- A group starts behind its keyword, not below the keyword's line, and before the code behind
its label. -/
theorem groupStart_bounds {label : List Token} {mark : Token} {colon : Nat}
    (steady : Steady options d (classify d.text) s)
    (split : s.cursor.Split done (t :: (label ++ mark :: later)))
    (place : colon = done.length + 1 + label.length) :
    t.start ≤ s.groupStart t colon ∧ d.InContent (s.groupStart t colon) ∧
      s.groupStart t colon ≤ d.lineStop (d.lineOf t.start) ∧
      ∀ u ∈ later, u.category.isComment = false → s.groupStart t colon ≤ u.start := by
  have cut := steady.cut split
  have listed : ∀ u ∈ t :: (label ++ mark :: later), u ∈ classify d.text := by
    intro u member
    rw [cut]
    exact List.mem_append_right _ member
  have sorted := (classify_wellFormed d).sorted
  rw [cut] at sorted
  have ahead := (List.pairwise_append.1 sorted).2.1
  have keyword := classify_start_le_lineStop (listed t List.mem_cons_self)
  have line : (s.document.lineAt t.start).stop = d.lineStop (d.lineOf t.start) := by
    rw [Document.lineAt_stop, show s.document = d from steady.document]
  have behind : s.cursor.tokens.drop (colon + 1) = later := by
    have whole : s.cursor.tokens = (done ++ (t :: label ++ [mark])) ++ later := by
      rw [split.tokens]
      simp
    have length : colon + 1 = (done ++ (t :: label ++ [mark])).length := by
      rw [place]
      simp
      omega
    rw [whole, length, List.drop_left]
  have lineInside := Document.inContent_lineStop (d.lineOf_lt t.start)
  unfold groupStart
  dsimp only
  rw [line, behind]
  cases found : later.find? (!·.category.isComment) with
  | none =>
    refine ⟨keyword, lineInside, Nat.le_refl _, ?_⟩
    intro u member code
    have := List.find?_eq_none.1 found u member
    rw [code] at this
    exact absurd rfl this
  | some first =>
    dsimp only
    obtain ⟨-, front, back, rfl, comments⟩ := List.find?_eq_some_iff_append.1 found
    have next := (List.pairwise_cons.1 ahead).1 first (by simp)
    refine ⟨Nat.le_min.2 ⟨Nat.le_of_lt next, keyword⟩, ?_, Nat.min_le_right _ _, ?_⟩
    · rcases Nat.le_total first.start (d.lineStop (d.lineOf t.start)) with le | le
      · rw [Nat.min_eq_left le]
        exact classify_start_le_lineStop (listed first (by simp))
      · rw [Nat.min_eq_right le]
        exact lineInside
    · intro u member code
      refine Nat.le_trans (Nat.min_le_left _ _) ?_
      rcases List.mem_append.1 member with before | member
      · have := comments u before
        rw [code] at this
        cases this
      · rcases List.mem_cons.1 member with rfl | member
        · exact Nat.le_refl _
        · have inner := (List.pairwise_cons.1 ahead).2
          rw [← List.singleton_append, ← List.append_assoc, List.pairwise_append] at inner
          have tail := (List.pairwise_append.1 inner.2.1).2.1
          exact Nat.le_of_lt ((List.pairwise_cons.1 tail).1 u member)

theorem not_isComment_of_isKeyword (keyword : t.category.isKeyword = true) :
    t.category.isComment = false := by
  cases category : t.category with
  | comment =>
    rw [category] at keyword
    cases keyword
  | docComment =>
    rw [category] at keyword
    cases keyword
  | _ => rfl

/-- A turn that opens a group with the label at the cursor. -/
theorem Nests.openGroup {colon : Nat} (steady : Steady options d (classify d.text) s)
    (nests : Nests d s done rest) (split : s.cursor.Split done rest) (hosts : s.Hosts p t)
    (starts : t.startsLabel = true) (found : s.cursor.labelColon? = some colon)
    (free : (s.tree.node p).kind = some .block ∨
      s.tree.nearestOpen? p (·.kind == some .caseGroup) = none) :
    InNest d (s.openGroup p t colon) := by
  have formed := steady.formed (classify_wellFormed d)
  obtain ⟨label, mark, later, rfl, -, place, -, -, -, cut, moved, -⟩ :=
    skipLabel formed split hosts.token found
  have onward := onward_label formed split nests.whole cut moved
  obtain ⟨start, content, low, ahead⟩ := groupStart_bounds steady split place
  have here := Cursor.start_of_token? hosts.token
  refine ⟨_, later, cut, nests.enter steady onward hosts.within hosts.more rfl rfl ?_ ?_ ?_ ?_ ?_⟩
  · show s.cursor.position ≤ s.groupStart t colon
    omega
  · refine settled_group content ?_ ahead rfl
    have forward : t.start ≤ (s.openGroup p t colon).cursor.position := by
      rw [here]
      exact onward.forward
    exact Nat.le_trans low (Document.lineStop_mono (Document.lineOf_mono forward))
  · refine nests.under steady split hosts start ?_ ?_
    · intro isComment
      have keyword := Token.category_isKeyword_of_startsLabel starts
      rw [not_isComment_of_isKeyword keyword] at isComment
      cases isComment
    · -- a label in a group ends that group first
      intro group
      rcases free with block | none
      · rw [group] at block
        cases block
      · rw [Tree.nearestOpen?_self (by rw [Node.isOpen, group, hosts.live]; rfl)
          (by rw [group]; rfl)] at none
        cases none
  · intro other
    cases other
  · intro other
    cases other

/-! ### Other regions -/

/-- A turn that opens a region other than a group with the next token. -/
theorem Nests.openAt {o : Opening} (steady : Steady options d (classify d.text) s)
    (nests : Nests d s done rest) (split : s.cursor.Split done rest) (hosts : s.Hosts p t)
    (kind : o.kind ≠ .caseGroup) (starts : o.start = t.start)
    (comment : t.category.isComment = true → o.kind = .comment)
    (grown : s'.tree = s.tree.add p o) (inside : s'.within = some s.tree.nodes.size)
    (cursor : s'.cursor = s.cursor.advance) (stop : o.kind = .comment → o.stop = t.stop)
    (imports : o.kind = .importRun →
      ImportsTo d (done ++ [t]) s'.importRollback (o.node p)) : InNest d s' := by
  have formed := steady.formed (classify_wellFormed d)
  obtain ⟨later, rfl, here, -⟩ := split.of_token? formed hosts.token
  have onward := onward_token formed split nests.whole hosts.token
  rw [← cursor] at onward
  have read : t ∈ done ++ [t] := List.mem_append_right _ (List.mem_singleton_self t)
  refine ⟨_, later, onward.split, nests.enter steady onward hosts.within hosts.more grown inside
    (by omega) (settled_opening kind read starts _) ?_ (fun same => ⟨t, read, stop same⟩) imports⟩
  exact nests.under steady split hosts (by omega) comment (fun _ => kind)

/-- A turn that completes a block with its closing brace. -/
theorem Nests.closeBlock (steady : Steady options d (classify d.text) s) (plain : Plain s)
    (nests : Nests d s done rest) (split : s.cursor.Split done rest) (hosts : s.Hosts p t)
    (closes : t.closes = true) (kind : (s.tree.node p).kind = some .block) :
    InNest d ((s.close p
      (t.start + Text.byteLength (t.text.takeWhile (· != '\x7d')) + 1)).advance.leave p) := by
  have formed := steady.formed (classify_wellFormed d)
  obtain ⟨later, rfl, here, -⟩ := split.of_token? formed hosts.token
  have onward := onward_token formed split nests.whole hosts.token
  have listed : t ∈ classify d.text := steady.tokens ▸ Cursor.mem_of_token? hosts.token
  obtain ⟨-, stops⟩ := classify_closing listed closes
  have cut : classify d.text = (done ++ [t]) ++ later := by
    rw [steady.cut split, List.append_assoc]
    rfl
  obtain ⟨first, opening, starts⟩ := nests.exists_opening hosts.live kind (by simp)
  have read : t ∈ done ++ [t] := List.mem_append_right _ (List.mem_singleton_self t)
  have behind : d.Behind later s.cursor.advance.position (max t.stop (s.tree.node p).start) := by
    rw [starts]
    exact (behind_stop cut read (onward.whole t read)).max
      (behind_start cut (onward.taken first opening)
        (onward.whole first (onward.taken first opening)))
  rw [stops]
  refine ⟨_, later, onward.split, nests.close steady plain onward hosts.within
    (by rw [kind]; simp) ?_ ?_ behind.reached behind.content (fun _ => behind.before) ?_⟩
  · rw [← steady.options, ← steady.document, ← s.cursor.advance_document]
    rfl
  · exact (Tree.Retouched.close (by rw [kind]; simp) _).parent p
  · intro c _ complete
    have := (nests.settled c).reached complete
    have := (classify_wellFormed d).nonempty t listed
    omega

theorem inNest_turn (without : ∀ t ∈ classify d.text, t.category ≠ .preprocessorKeyword)
    (steady : Steady options d (classify d.text) s) (plain : Plain s) (inNest : InNest d s)
    (turn : Turn s p s') : InNest d s' := by
  obtain ⟨done, rest, split, nests⟩ := inNest
  have formed := steady.formed (classify_wellFormed d)
  have directive : ∀ {t : Token}, s.Hosts p t → t.category ≠ .preprocessorKeyword := by
    intro t hosts
    exact without t (steady.tokens ▸ Cursor.mem_of_token? hosts.token)
  cases turn with
  | finish within ended =>
    rcases finishRun_cases s p with same | ⟨closed, run, -⟩
    · rw [same]
      have tree : (s.leave p).tree = s.tree := extendStart_of_live (plain.region_live within)
      exact ⟨done, rest, split, nests.abandon steady (onward_still split nests.whole) tree rfl⟩
    · rw [closed]
      exact nests.endRun steady plain split within run
        (nests.behind_finish steady split within ended run)
  | leave within _ complete =>
    rw [plain.region_live within] at complete
    cases complete
  | gap within more _ none =>
    have onward := onward_gap formed split nests.whole none more
    exact ⟨done, rest, onward.split, nests.still onward rfl rfl rfl⟩
  | growComment reads kind _ =>
    exact nests.growComments steady split reads kind rfl rfl reads.within
  | bridge reads _ _ _ => exact nests.pass steady split reads.token
  | endComment reads kind _ =>
    exact nests.endRun steady plain split reads.within (by rw [Node.isRun, kind]; rfl)
      (nests.behind_comments steady split reads.within kind)
  | giveBack reads kind _ =>
    exact nests.endRun steady plain split reads.within (by rw [Node.isRun, kind]; rfl)
      (nests.behind_rollback steady split reads kind)
  | sameLine reads _ _ _ => exact nests.pass steady split reads.token
  | growImports reads kind leads _ =>
    exact nests.growImports steady split reads kind leads rfl rfl reads.within rfl
  | endImports reads kind _ leads =>
    exact nests.endRun steady plain split reads.within (by rw [Node.isRun, kind]; rfl)
      (nests.behind_imports steady split reads kind leads)
  | openBlock hosts brace =>
    refine nests.openAt steady split hosts (by simp) rfl ?_ rfl rfl rfl ?_ ?_
    · intro isComment
      rw [Token.category_of_isPunctuation brace] at isComment
      cases isComment
    · intro other
      cases other
    · intro other
      cases other
  | openComment hosts _ _ =>
    refine nests.openAt steady split hosts (by simp) rfl (fun _ => rfl) rfl rfl rfl
      (fun _ => rfl) ?_
    intro other
    cases other
  | @openImports t hosts keyword =>
    refine nests.openAt steady split hosts (by simp) rfl ?_ rfl rfl rfl ?_ ?_
    · intro isComment
      rw [not_isComment_of_isKeyword (Token.category_isKeyword keyword)] at isComment
      cases isComment
    · intro other
      cases other
    · intro _
      refine ⟨t, List.mem_append_right _ (List.mem_singleton_self _), ?_, Or.inl rfl⟩
      rw [← show s.document = d from steady.document, ← Document.lineAt_stop]
      rfl
  | openGroup hosts _ starts found free =>
    exact nests.openGroup steady split hosts starts found free
  | endGroup hosts _ label _ kind =>
    exact nests.endGroup steady plain split hosts kind
      (not_isComment_of_isKeyword (Token.category_isKeyword_of_startsLabel label))
  | switchGroup hosts _ _ _ notBlock near other =>
    exact absurd (plain.nearestGroup_eq steady hosts notBlock near) other
  | openArm hosts category _ => exact absurd category (directive hosts)
  | pendingArm hosts category _ _ => exact absurd category (directive hosts)
  | firstArm hosts category _ _ _ => exact absurd category (directive hosts)
  | endArm hosts category _ _ _ => exact absurd category (directive hosts)
  | switchArm hosts category _ _ _ _ => exact absurd category (directive hosts)
  | closeArm hosts category _ => exact absurd category (directive hosts)
  | closeBlock hosts _ closes kind => exact nests.closeBlock steady plain split hosts closes kind
  | closeGroup hosts _ closes kind =>
    exact nests.endGroup steady plain split hosts kind
      (by rw [Token.category_of_closes closes]; rfl)
  | pass hosts _ _ _ => exact nests.pass steady split hosts.token

end Turns

end Scan

/-- Without directives the regions of a text nest.  Of two siblings in a row the first is complete
and over before the second starts.  A complete region ends after the complete regions in it and,
apart from a comment in a group, starts before them. -/
theorem regions_nest (options : ScanOptions) (d : Document)
    (without : ∀ t ∈ classify d.text, t.category ≠ .preprocessorKeyword) :
    let tree := Tree.ofTokens options d (classify d.text)
    (∀ i a b, [a, b] <:+: (tree.node i).children →
      (tree.node a).complete = true ∧ (tree.node a).stop ≤ (tree.node b).start) ∧
    ∀ p c, p ≠ Tree.rootId → c ∈ (tree.node p).children →
      (tree.node p).complete = true → (tree.node c).complete = true →
      (tree.node c).stop ≤ (tree.node p).stop ∧
        (¬ ((tree.node p).kind = some .caseGroup ∧ (tree.node c).kind = some .comment) →
          (tree.node p).start ≤ (tree.node c).start) := by
  have turn : ∀ s p s', Scan.Steady options d (classify d.text) s →
      s.Plain ∧ s.InNest d → s.within = some p → s.Turn p s' → s'.Plain ∧ s'.InNest d := by
    intro s p s' steady ⟨plain, inNest⟩ within turn
    exact ⟨plain.turn steady within (plain.local_turn steady without turn),
      Scan.inNest_turn without steady plain inNest turn⟩
  have start : (Scan.start options d (classify d.text)).Plain ∧
      (Scan.start options d (classify d.text)).InNest d :=
    ⟨Scan.plain_start options d _, [], classify d.text, Scan.split_start options d _,
      Scan.nests_start options d _⟩
  obtain ⟨steady, ⟨-, done, rest, -, nests⟩, -, -⟩ :=
    Scan.finish_over (classify_wellFormed d) turn start
  have nested := nests.nested
  refine ⟨fun i a b within => nested.siblings a b ⟨i, within⟩, ?_⟩
  intro p c inner member whole complete
  have child := steady.rooted.child p c member
  have region := (steady.rooted.region p (Nat.pos_of_ne_zero inner) (by omega)).1
  have under := nested.under p c member (Option.isSome_iff_ne_none.1 region)
  exact ⟨nested.stops p c member whole complete, under.start⟩

/-- Two groups in a block; the first starts behind the comment in it and before the block in it,
whose start has moved up to its header. -/
theorem regions_nest_groups :
    let d := Document.ofText 0 "\x7b\ncase 1:/**//**/g\n\x7b\n\x7d\ncase 2:\n\x7d".toList
    let tree := Tree.ofTokens {} d (classify d.text)
    (tree.node 1).children = [2, 5] ∧ (tree.node 2).children = [3, 4] ∧
      (tree.node 3).start < (tree.node 2).start ∧
      (tree.node 2).stop ≤ (tree.node 5).start ∧ (tree.node 2).start ≤ (tree.node 4).start := by
  intro d tree
  have nest := regions_nest {} d (by decide +kernel)
  have outer : (tree.node 1).children = [2, 5] := by decide +kernel
  have inner : (tree.node 2).children = [3, 4] := by decide +kernel
  refine ⟨outer, inner, by decide +kernel, ?_, ?_⟩
  · exact (nest.1 1 2 5 (by rw [outer])).2
  · exact (nest.2 2 4 (by decide) (by rw [inner]; simp) (by decide +kernel)
      (by decide +kernel)).2 (by decide +kernel)

end CodeFolding
