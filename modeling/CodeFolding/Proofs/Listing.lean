import Mathlib
import CodeFolding.Region.Flatten
import CodeFolding.Proofs.Growth

/-!
# Listing a tree

`Tree.flatten` walks a tree with a work list.  What it lists can be said by recursion on the tree:
the nodes below the root, each before those below it, less the ones that are not shown.

* `Tree.Built`: the trees that come from opening and closing regions and setting their places.
* `Tree.below`: the nodes below a node, in the order of the recursion.
* `Tree.Rooted.below_root_perm`: below the root stands every region once.
* `Tree.Rooted.flattenWork_lists`: a work list is a recursion that is under way.
* `flatten_lists_preorder`: what is listed for a tree, whatever its history.
-/

namespace CodeFolding

namespace Tree

/-! ## Trees and their histories -/

/-- The tree comes from the empty one by opening regions under known nodes, closing known nodes
and setting the places and flags of known nodes, in any order. -/
inductive Built : Tree → Prop
  | empty : Built empty
  | add {t : Tree} {parent : Nat} (o : Opening) :
    Built t → parent < t.nodes.size → Built (t.add parent o)
  | close {t : Tree} {id : Nat} (stop : Nat) :
    Built t → id < t.nodes.size → Built (t.close id stop)
  | set {t : Tree} {id : Nat} (start stop : Nat) (complete fromPriorLine : Bool) :
    Built t → id < t.nodes.size →
    Built (t.update id fun n => { n with start, stop, complete, fromPriorLine })

/-- A node with a parent stands among the children of that parent. -/
def Listed (t : Tree) : Prop := ∀ i q, (t.node i).parent = some q → i ∈ (t.node q).children

section Built

variable {t t' : Tree} {o : Opening} {parent : Nat}

theorem listed_empty : empty.Listed := by
  intro i q up
  rw [node_empty] at up
  cases up

theorem SameShape.listed (same : SameShape t t') (listed : t.Listed) : t'.Listed := by
  intro i q up
  rw [same.parent] at up
  rw [same.children]
  exact listed i q up

theorem Listed.add (listed : t.Listed) (known : parent < t.nodes.size) :
    (t.add parent o).Listed := by
  intro i q up
  rw [children_add known]
  by_cases new : i = t.nodes.size
  · rw [new, node_add_new known] at up
    cases up
    rw [if_pos rfl, new]
    exact List.mem_append_right _ (List.mem_singleton_self _)
  · rw [parent_add known new] at up
    have old := listed i q up
    split
    · exact List.mem_append_left _ old
    · exact old

/-- Every history keeps the shape of a tree: links agree both ways, and numbers grow downwards. -/
theorem Built.rooted_listed (built : t.Built) : t.Rooted ∧ t.Listed := by
  induction built with
  | empty => exact ⟨rooted_empty, listed_empty⟩
  | add o _ known ih => exact ⟨ih.1.add known, ih.2.add known⟩
  | @close t id stop _ _ ih =>
    have same : SameShape t (t.close id stop) := .update rfl rfl rfl
    exact ⟨same.rooted ih.1, same.listed ih.2⟩
  | @set t id start stop complete fromPriorLine _ _ ih =>
    have same : SameShape t
        (t.update id fun n => { n with start, stop, complete, fromPriorLine }) :=
      .update rfl rfl rfl
    exact ⟨same.rooted ih.1, same.listed ih.2⟩

end Built

/-! ## Nodes below a node -/

/-- The nodes below a node, each before those below it, children in their order. -/
def below (t : Tree) (id : Nat) : List Nat :=
  (t.node id).children.flatMap fun c =>
    if id < c ∧ c < t.nodes.size then c :: t.below c else []
termination_by t.nodes.size - id

section Below

variable {t : Tree} {id i c : Nat}

/-- What holds of a node as soon as it holds of its children holds of all nodes. -/
theorem Rooted.induction {P : Nat → Prop} (rooted : t.Rooted)
    (step : ∀ id, (∀ c ∈ (t.node id).children, P c) → P id) (id : Nat) : P id := by
  induction left : t.nodes.size - id using Nat.strongRecOn generalizing id with
  | ind left ih =>
    apply step
    intro c member
    have child := rooted.child id c member
    exact ih (t.nodes.size - c) (by omega) c rfl

theorem Rooted.below_eq (rooted : t.Rooted) (id : Nat) :
    t.below id = (t.node id).children.flatMap fun c => c :: t.below c := by
  rw [below]
  apply List.flatMap_congr
  intro c member
  have child := rooted.child id c member
  rw [if_pos ⟨child.1, child.2.1⟩]

theorem Rooted.mem_below (rooted : t.Rooted) :
    i ∈ t.below id ↔ ∃ c ∈ (t.node id).children, i = c ∨ i ∈ t.below c := by
  rw [rooted.below_eq, List.mem_flatMap]
  simp only [List.mem_cons]

theorem Rooted.ancestors_child (rooted : t.Rooted) (member : c ∈ (t.node id).children) :
    t.ancestors c = c :: t.ancestors id := by
  obtain ⟨above, -, up⟩ := rooted.child id c member
  exact ancestors_of_some up above

theorem self_mem_ancestors (t : Tree) (id : Nat) : id ∈ t.ancestors id :=
  mem_ancestors_iff.2 (Or.inl rfl)

theorem mem_ancestors_trans (upper : i ∈ t.ancestors c) (lower : c ∈ t.ancestors id) :
    i ∈ t.ancestors id := by
  induction id using Nat.strongRecOn with
  | ind id ih =>
    rcases mem_ancestors_iff.1 lower with rfl | ⟨q, up, less, above⟩
    · exact upper
    · exact mem_ancestors_iff.2 (Or.inr ⟨q, up, less, ih q less above⟩)

/-- A node below another one is a later node of the tree that has the other one above it. -/
theorem Rooted.of_mem_below (rooted : t.Rooted) (member : i ∈ t.below id) :
    id ∈ t.ancestors i ∧ id < i ∧ i < t.nodes.size := by
  induction id using rooted.induction with
  | step id ih =>
    obtain ⟨c, child, inside⟩ := rooted.mem_below.1 member
    obtain ⟨above, known, -⟩ := rooted.child id c child
    have up : id ∈ t.ancestors c := by
      rw [rooted.ancestors_child child]
      exact List.mem_cons_of_mem _ (self_mem_ancestors t id)
    rcases inside with rfl | deeper
    · exact ⟨up, above, known⟩
    · obtain ⟨higher, later, known⟩ := ih c child deeper
      exact ⟨mem_ancestors_trans up higher, by omega, known⟩

/-- The children of a node below another one are below that one too. -/
theorem Rooted.mem_below_of_child (rooted : t.Rooted) {q : Nat} (member : q ∈ t.below id)
    (child : i ∈ (t.node q).children) : i ∈ t.below id := by
  induction id using rooted.induction with
  | step id ih =>
    obtain ⟨c, own, inside⟩ := rooted.mem_below.1 member
    refine rooted.mem_below.2 ⟨c, own, Or.inr ?_⟩
    rcases inside with rfl | deeper
    · exact rooted.mem_below.2 ⟨i, child, Or.inl rfl⟩
    · exact ih c own deeper

/-- No node stands twice below another one. -/
theorem Rooted.below_nodup (rooted : t.Rooted) (id : Nat) : (t.below id).Nodup := by
  induction id using rooted.induction with
  | step id ih =>
    rw [rooted.below_eq, List.nodup_flatMap]
    refine ⟨?_, (rooted.ordered id).imp_of_mem ?_⟩
    · intro c member
      refine List.nodup_cons.2 ⟨?_, ih c member⟩
      intro again
      exact Nat.lt_irrefl c (rooted.of_mem_below again).2.1
    · -- a node below two children would have one of them above the other
      intro a b left right less i inA inB
      have above : ∀ c, i ∈ c :: t.below c → c ∈ t.ancestors i := by
        intro c inside
        rcases List.mem_cons.1 inside with rfl | deeper
        · exact self_mem_ancestors t i
        · exact (rooted.of_mem_below deeper).1
      have first := rooted.child id a left
      rcases mem_ancestors_total (above a inA) (above b inB) with up | up
      · rw [rooted.ancestors_child right] at up
        rcases List.mem_cons.1 up with same | higher
        · omega
        · have := le_of_mem_ancestors higher
          omega
      · have := le_of_mem_ancestors up
        omega

/-- Every region is below the root. -/
theorem Rooted.mem_below_root (rooted : t.Rooted) (listed : t.Listed) (positive : 0 < i)
    (known : i < t.nodes.size) : i ∈ t.below rootId := by
  induction i using Nat.strongRecOn with
  | ind i ih =>
    obtain ⟨-, q, less, up⟩ := rooted.region i positive known
    have child := listed i q up
    rcases Nat.eq_zero_or_pos q with rfl | inner
    · exact rooted.mem_below.2 ⟨i, child, Or.inl rfl⟩
    · exact rooted.mem_below_of_child (ih q less inner (by omega)) child

/-- Below the root stands every region once. -/
theorem Rooted.below_root_perm (rooted : t.Rooted) (listed : t.Listed) :
    (t.below rootId).Perm (List.range' 1 t.size) := by
  have nonempty := rooted.nonempty
  refine (List.perm_ext_iff_of_nodup (rooted.below_nodup rootId) List.nodup_range').2 ?_
  intro i
  rw [List.mem_range'_1]
  unfold size
  constructor
  · intro member
    obtain ⟨-, positive, known⟩ := rooted.of_mem_below member
    unfold rootId at positive
    omega
  · intro bounds
    exact rooted.mem_below_root listed (by omega) (by omega)

end Below

/-! ## The regions to show -/

/-- The node is a complete region of more than one line. -/
def isShown (d : Document) (t : Tree) (id : Nat) : Bool :=
  (t.node id).kind.isSome && (t.node id).complete &&
    d.lineOf (t.node id).start != d.lineOf (t.node id).stop

/-- Number of shown nodes strictly above a node. -/
def depthOf (d : Document) (t : Tree) (id : Nat) : Nat :=
  (t.ancestors id).tail.countP (t.isShown d)

/-- The region is the one to list for a node. -/
structure Lists (d : Document) (t : Tree) (id : Nat) (r : Region) : Prop where
  kind : (t.node id).kind = some r.kind
  start : r.span.start = (t.node id).start
  stop : r.span.stop = (t.node id).stop
  startLine : r.startLine = d.lineOf (t.node id).start
  endLine : r.endLine = d.lineOf (t.node id).stop
  depth : r.depth = t.depthOf d id
  fromPriorLine : r.fromPriorLine = (t.node id).fromPriorLine

section Flatten

variable {d : Document} {t : Tree} {id c depth : Nat}

theorem isShown_lt (shown : t.isShown d id = true) : id < t.nodes.size := by
  by_contra past
  rw [isShown, node_of_le (Nat.le_of_not_lt past)] at shown
  cases shown

/-- A child is one deeper than its parent if the parent is shown, and else as deep. -/
theorem Rooted.depthOf_child (rooted : t.Rooted) (member : c ∈ (t.node id).children) :
    t.depthOf d c = if t.isShown d id then t.depthOf d id + 1 else t.depthOf d id := by
  have path : t.ancestors id = id :: (t.ancestors id).tail := by
    rw [ancestors]
    rfl
  unfold depthOf
  rw [rooted.ancestors_child member, List.tail_cons]
  nth_rewrite 1 [path]
  rw [List.countP_cons]
  split
  · rfl
  · rfl

/-- A node whose bounds are in order has a region if it is shown, and else none. -/
theorem region?_eq (ordered : t.isShown d id = true → (t.node id).start ≤ (t.node id).stop)
    (deep : depth = t.depthOf d id) :
    t.isShown d id = false ∧ (t.node id).region? d depth = .ok none ∨
      t.isShown d id = true ∧
        ∃ r, (t.node id).region? d depth = .ok (some r) ∧ t.Lists d id r := by
  unfold isShown at ordered ⊢
  unfold Node.region?
  cases kind : (t.node id).kind with
  | none => exact Or.inl ⟨rfl, rfl⟩
  | some own =>
    rw [kind] at ordered
    simp only [Option.isSome_some, Bool.true_and] at ordered ⊢
    split
    next shown =>
      rw [Span.ofBounds_of_le (ordered shown)]
      exact Or.inr ⟨shown, _, rfl, kind, rfl, rfl, rfl, rfl, deep, rfl⟩
    next hidden => exact Or.inl ⟨Bool.eq_false_iff.2 hidden, rfl⟩

/-- The nodes that a work list has yet to visit, in order. -/
def pending (t : Tree) (work : List (Nat × Nat)) : List Nat :=
  work.flatMap fun item => item.1 :: t.below item.1

theorem pending_cons (t : Tree) (id depth : Nat) (work : List (Nat × Nat)) :
    t.pending ((id, depth) :: work) = id :: (t.below id ++ t.pending work) := rfl

/-- With its children in its place, what is left of a node is what is below it. -/
theorem Rooted.pending_children (rooted : t.Rooted) (id depth : Nat) (work : List (Nat × Nat)) :
    t.pending ((t.node id).children.map (·, depth) ++ work) = t.below id ++ t.pending work := by
  unfold pending
  rw [List.flatMap_append, List.flatMap_map, ← rooted.below_eq]

/-- A work list whose items have the right depths lists what is shown of its pending nodes, as
soon as there are turns for all of them. -/
theorem Rooted.flattenWork_lists (rooted : t.Rooted)
    (ordered : ∀ id, t.isShown d id = true → (t.node id).start ≤ (t.node id).stop)
    (work : List (Nat × Nat)) (deep : ∀ item ∈ work, item.2 = t.depthOf d item.1) :
    ∃ regions,
      (∀ fuel, (t.pending work).length ≤ fuel → t.flattenWork d fuel work = .ok regions) ∧
      List.Forall₂ (t.Lists d) ((t.pending work).filter (t.isShown d)) regions := by
  -- by induction on the number of pending nodes, of which a turn takes the first
  induction left : (t.pending work).length generalizing work with
  | zero =>
    cases work with
    | nil =>
      refine ⟨[], ?_, .nil⟩
      intro fuel _
      cases fuel with
      | zero => rfl
      | succ fuel => rfl
    | cons item work => cases left
  | succ count ih =>
    cases work with
    | nil => cases left
    | cons item work =>
      obtain ⟨id, depth⟩ := item
      have here : depth = t.depthOf d id := deep (id, depth) List.mem_cons_self
      rw [pending_cons, List.length_cons, Nat.succ_inj] at left
      have next : ∀ inner, inner = (if t.isShown d id then depth + 1 else depth) →
          ∃ regions,
            (∀ fuel, count ≤ fuel →
              t.flattenWork d fuel ((t.node id).children.map (·, inner) ++ work) = .ok regions) ∧
            List.Forall₂ (t.Lists d)
              ((t.below id ++ t.pending work).filter (t.isShown d)) regions := by
        intro inner deeper
        rw [← rooted.pending_children id inner work] at left ⊢
        apply ih _ _ left
        intro item member
        rcases List.mem_append.1 member with child | later
        · obtain ⟨c, own, rfl⟩ := List.mem_map.1 child
          rw [rooted.depthOf_child own, ← here]
          exact deeper
        · exact deep item (List.mem_cons_of_mem _ later)
      rw [pending_cons]
      rcases region?_eq (ordered id) here with ⟨hidden, none⟩ | ⟨shown, r, some, lists⟩
      · obtain ⟨regions, listed, all⟩ := next depth (by rw [hidden]; rfl)
        refine ⟨regions, ?_, ?_⟩
        · intro fuel enough
          obtain ⟨fuel, rfl⟩ := Nat.exists_eq_add_of_lt enough
          exact flattenWork_cons none (listed _ (by omega))
        · rw [List.filter_cons_of_neg (Bool.eq_false_iff.1 hidden)]
          exact all
      · obtain ⟨regions, listed, all⟩ := next (depth + 1) (by rw [shown]; rfl)
        refine ⟨r :: regions, ?_, ?_⟩
        · intro fuel enough
          obtain ⟨fuel, rfl⟩ := Nat.exists_eq_add_of_lt enough
          exact flattenWork_cons some (listed _ (by omega))
        · rw [List.filter_cons_of_pos shown]
          exact .cons lists all

end Flatten

end Tree

/-- Of a tree with any history, what is listed are the shown nodes of the recursion from the root,
a node before those below it and children in their order: each with its kind, bounds, lines and
flag and the number of shown nodes above it.  The recursion comes to every region once, and so
many turns of the work list are enough. -/
theorem flatten_lists_preorder (d : Document) (t : Tree) (built : t.Built)
    (ordered : ∀ id, t.isShown d id = true → (t.node id).start ≤ (t.node id).stop) :
    ∃ regions, t.flatten d = .ok regions ∧
      List.Forall₂ (t.Lists d) ((t.below Tree.rootId).filter (t.isShown d)) regions ∧
      (∀ id, t.below id = (t.node id).children.flatMap fun c => c :: t.below c) ∧
      (t.below Tree.rootId).Perm (List.range' 1 t.size) ∧
      ∀ turns, t.size ≤ turns →
        t.flattenWork d turns ((t.node Tree.rootId).children.map (·, 0)) = .ok regions := by
  obtain ⟨rooted, listed⟩ := built.rooted_listed
  have every := rooted.below_root_perm listed
  have count : (t.below Tree.rootId).length = t.size := by
    rw [every.length_eq, List.length_range']
  have hidden : t.isShown d Tree.rootId = false := by
    unfold Tree.isShown Tree.rootId
    rw [rooted.root.1]
    rfl
  have top : t.depthOf d Tree.rootId = 0 := by
    unfold Tree.depthOf Tree.rootId
    rw [Tree.ancestors_of_none rooted.root.2]
    rfl
  have all : t.pending ((t.node Tree.rootId).children.map (·, 0)) = t.below Tree.rootId := by
    have pending := rooted.pending_children Tree.rootId 0 []
    rw [List.append_nil] at pending
    exact pending.trans (List.append_nil _)
  obtain ⟨regions, turns, lists⟩ := rooted.flattenWork_lists ordered
    ((t.node Tree.rootId).children.map (·, 0)) (by
      intro item member
      obtain ⟨c, own, rfl⟩ := List.mem_map.1 member
      rw [rooted.depthOf_child own, hidden, top]
      rfl)
  rw [all] at turns lists
  rw [count] at turns
  exact ⟨regions, turns t.nodes.size (Nat.sub_le _ _), lists, rooted.below_eq, every, turns⟩

/-- A block of one line is left out, the block in it stands at its depth with a comment inside,
and of the block that nothing closes there is no more than its comment. -/
theorem flatten_lists_preorder_gaps :
    let d := Document.ofText 0 "\x7b \x7b\n/*\n*/\n\x7d\n\x7d\n\x7b/*\n*/".toList
    let opened := ((((Tree.empty.add 0 ⟨.block, 0, ['\x7b'], 0, false⟩).add 1
      ⟨.block, 2, ['\x7b'], 2, false⟩).add 2 ⟨.comment, 4, ['/', '*'], 4, false⟩).add 0
      ⟨.block, 14, ['\x7b'], 14, false⟩).add 4 ⟨.comment, 15, ['/', '*'], 15, false⟩
    let t := ((((opened.close 3 9).close 2 11).close 1 1).close 5 20).update 2
      fun n => { n with start := 0, stop := 11, complete := true, fromPriorLine := true }
    (t.Built ∧ ∀ id, t.isShown d id = true → (t.node id).start ≤ (t.node id).stop) ∧
      ∃ regions, t.flatten d = .ok regions ∧
        List.Forall₂ (t.Lists d) ((t.below Tree.rootId).filter (t.isShown d)) regions ∧
        (t.below Tree.rootId).Perm [1, 2, 3, 4, 5] ∧
        regions.map (fun r => (r.span.start, r.depth, r.fromPriorLine)) =
          [(0, 0, true), (4, 1, false), (15, 0, false)] := by
  intro d opened t
  have built : t.Built := by
    refine .set _ _ _ _ (.close _ (.close _ (.close _ (.close _ ?_ ?_) ?_) ?_) ?_) ?_
    · exact .add _ (.add _ (.add _ (.add _ (.add _ .empty (by decide)) (by decide)) (by decide))
        (by decide)) (by decide)
    all_goals decide
  have size : t.nodes.size = 6 := by decide
  have ordered : ∀ id, t.isShown d id = true → (t.node id).start ≤ (t.node id).stop := by
    intro id shown
    have inside : ∀ id < 6, t.isShown d id = true → (t.node id).start ≤ (t.node id).stop := by
      decide +kernel
    exact inside id (size ▸ Tree.isShown_lt shown) shown
  obtain ⟨regions, flat, lists, -, every, -⟩ := flatten_lists_preorder d t built ordered
  refine ⟨⟨built, ordered⟩, regions, flat, lists, every, ?_⟩
  have shape : (t.flatten d).map (·.map fun r => (r.span.start, r.depth, r.fromPriorLine)) =
      .ok [(0, 0, true), (4, 1, false), (15, 0, false)] := by decide +kernel
  rw [flat] at shape
  exact Except.ok.inj shape

end CodeFolding
