import Mathlib
import CodeFolding.Region.Tree

/-!
# How a tree of regions grows

A scan changes its tree in two ways.  It opens a region under a node (`Tree.add`), which adds a
node behind all others, or it changes places of a node (`Tree.Retouched`), which keeps kinds,
parents, children and openers.

* `Tree.Rooted`: regions have kinds, and a parent with a smaller number that lists them in order.
* `Tree.ancestors_add`, `Retouched.ancestors`: what either change does to the way up to the root.
* `Tree.ofKind`: the regions of a kind in the order of opening.
-/

namespace CodeFolding

namespace Tree

/-! ## One node and the others -/

section Nodes

variable {t : Tree} {o : Opening} {parent id : Nat}

theorem node_of_le (past : t.nodes.size ≤ id) : t.node id = Node.root := by
  unfold node
  rw [Array.getD_eq_getD_getElem?, Array.getElem?_eq_none past]
  rfl

theorem node_empty (id : Nat) : empty.node id = Node.root := by
  cases id with
  | zero => rfl
  | succ id => exact node_of_le (Nat.succ_le_succ (Nat.zero_le id))

/-- A change of one node changes that node or nothing. -/
theorem node_update_cases (t : Tree) (id : Nat) (f : Node → Node) (i : Nat) :
    (t.update id f).node i = t.node i ∨ i = id ∧ (t.update id f).node i = f (t.node id) := by
  by_cases here : i = id
  · by_cases known : id < t.nodes.size
    · rw [here, node_update_self known]
      exact Or.inr ⟨rfl, rfl⟩
    · have past : t.node i = Node.root := node_of_le (by omega)
      rw [past]
      exact Or.inl (node_of_le (by rw [nodes_size_update]; omega))
  · exact Or.inl (node_update_of_ne here)

theorem node_push (t : Tree) (n : Node) (id : Nat) :
    (Tree.mk (t.nodes.push n)).node id = if id = t.nodes.size then n else t.node id := by
  unfold node
  rw [Array.getD_eq_getD_getElem?, Array.getD_eq_getD_getElem?, Array.getElem?_push]
  split
  · rfl
  · rfl

theorem node_add_new (known : parent < t.nodes.size) :
    (t.add parent o).node t.nodes.size = o.node parent := by
  unfold add
  rw [node_update_of_ne (by omega), node_push, if_pos rfl]

theorem node_add_parent (known : parent < t.nodes.size) :
    (t.add parent o).node parent =
      { t.node parent with children := (t.node parent).children ++ [t.nodes.size] } := by
  unfold add
  rw [node_update_self (by rw [Array.size_push]; omega), node_push, if_neg (by omega)]
  rfl

theorem node_add_of_ne (old : id ≠ t.nodes.size) (other : id ≠ parent) :
    (t.add parent o).node id = t.node id := by
  unfold add
  rw [node_update_of_ne other, node_push, if_neg old]

/-- Opening a region changes at most the children of an old node. -/
theorem exists_node_add (known : parent < t.nodes.size) (old : id ≠ t.nodes.size) :
    ∃ children, (t.add parent o).node id = { t.node id with children } := by
  by_cases here : id = parent
  · subst here
    exact ⟨_, node_add_parent known⟩
  · exact ⟨_, node_add_of_ne old here⟩

theorem node_add_cases (known : parent < t.nodes.size) (id : Nat) :
    (∃ children, (t.add parent o).node id = { t.node id with children }) ∨
      id = t.nodes.size ∧ (t.add parent o).node id = o.node parent := by
  by_cases new : id = t.nodes.size
  · rw [new, node_add_new known]
    exact Or.inr ⟨rfl, rfl⟩
  · exact Or.inl (exists_node_add known new)

theorem kind_add (known : parent < t.nodes.size) (old : id ≠ t.nodes.size) :
    ((t.add parent o).node id).kind = (t.node id).kind := by
  obtain ⟨children, same⟩ := exists_node_add (o := o) known old
  rw [same]

theorem parent_add (known : parent < t.nodes.size) (old : id ≠ t.nodes.size) :
    ((t.add parent o).node id).parent = (t.node id).parent := by
  obtain ⟨children, same⟩ := exists_node_add (o := o) known old
  rw [same]

theorem nodes_size_close (t : Tree) (id stop : Nat) :
    (t.close id stop).nodes.size = t.nodes.size :=
  nodes_size_update t id _

theorem node_close_self {stop : Nat} (known : id < t.nodes.size) :
    (t.close id stop).node id =
      { t.node id with stop := max stop (t.node id).start, complete := true } :=
  node_update_self known

theorem node_close_of_ne {stop other : Nat} (differ : other ≠ id) :
    (t.close id stop).node other = t.node other :=
  node_update_of_ne differ

end Nodes

/-! ## Changes of places -/

/-- A change of a node that keeps what it is and does not undo its completion; what is no region
is not completed. -/
structure Kept (n n' : Node) : Prop where
  kind : n'.kind = n.kind
  parent : n'.parent = n.parent
  children : n'.children = n.children
  opener : n'.opener = n.opener
  complete : n.complete = true → n'.complete = true
  root : n.kind = none → n'.complete = n.complete

theorem Kept.refl (n : Node) : Kept n n :=
  ⟨rfl, rfl, rfl, rfl, fun done => done, fun _ => rfl⟩

theorem Kept.move (n : Node) (start stop : Nat) (fromPriorLine : Bool) :
    Kept n { n with start, stop, fromPriorLine } :=
  ⟨rfl, rfl, rfl, rfl, fun done => done, fun _ => rfl⟩

theorem Kept.close {n : Node} (region : n.kind ≠ none) (stop : Nat) :
    Kept n { n with stop, complete := true } :=
  ⟨rfl, rfl, rfl, rfl, fun _ => rfl, fun root => absurd root region⟩

/-- The same regions in the same order; their places may differ, and more may be complete. -/
structure Retouched (t t' : Tree) : Prop where
  size : t'.nodes.size = t.nodes.size
  node : ∀ i, Kept (t.node i) (t'.node i)

namespace Retouched

variable {t t' t'' : Tree}

theorem kind (same : Retouched t t') (i : Nat) : (t'.node i).kind = (t.node i).kind :=
  (same.node i).kind

theorem parent (same : Retouched t t') (i : Nat) : (t'.node i).parent = (t.node i).parent :=
  (same.node i).parent

theorem children (same : Retouched t t') (i : Nat) : (t'.node i).children = (t.node i).children :=
  (same.node i).children

theorem complete (same : Retouched t t') (i : Nat) (done : (t.node i).complete = true) :
    (t'.node i).complete = true :=
  (same.node i).complete done

theorem refl (t : Tree) : Retouched t t := ⟨rfl, fun i => .refl (t.node i)⟩

theorem trans (first : Retouched t t') (second : Retouched t' t'') : Retouched t t'' where
  size := second.size.trans first.size
  node := by
    intro i
    have left := first.node i
    have right := second.node i
    exact ⟨right.kind.trans left.kind, right.parent.trans left.parent,
      right.children.trans left.children, right.opener.trans left.opener,
      fun done => right.complete (left.complete done),
      fun root => (right.root (left.kind.trans root)).trans (left.root root)⟩

/-- A change of one node that keeps what it is. -/
theorem update {f : Node → Node} {id : Nat} (kept : Kept (t.node id) (f (t.node id))) :
    Retouched t (t.update id f) where
  size := nodes_size_update t id f
  node := by
    intro i
    rcases node_update_cases t id f i with same | ⟨here, changed⟩
    · rw [same]
      exact .refl _
    · rw [changed, here]
      exact kept

theorem close {id : Nat} (region : (t.node id).kind ≠ none) (stop : Nat) :
    Retouched t (t.close id stop) :=
  update (.close region _)

end Retouched

/-! ## The shape of the tree -/

/-- Node zero is above all others; every other node is a region under a node with a smaller
number, and the nodes under a node are listed in the order of opening. -/
structure Rooted (t : Tree) : Prop where
  nonempty : 0 < t.nodes.size
  root : (t.node 0).kind = none ∧ (t.node 0).parent = none
  region : ∀ i, 0 < i → i < t.nodes.size →
    (t.node i).kind.isSome = true ∧ ∃ q, q < i ∧ (t.node i).parent = some q
  child : ∀ i c, c ∈ (t.node i).children →
    i < c ∧ c < t.nodes.size ∧ (t.node c).parent = some i
  ordered : ∀ i, (t.node i).children.Pairwise (· < ·)

theorem rooted_empty : Rooted empty where
  nonempty := Nat.zero_lt_one
  root := ⟨rfl, rfl⟩
  region := fun i positive bound => absurd bound (Nat.not_lt.2 positive)
  child := by
    intro i c member
    rw [node_empty] at member
    exact absurd member List.not_mem_nil
  ordered := by
    intro i
    rw [node_empty]
    exact List.Pairwise.nil

section Shape

variable {t t' : Tree} {o : Opening} {parent id : Nat}

/-- The same nodes under the same nodes, whatever else differs. -/
structure SameShape (t t' : Tree) : Prop where
  size : t'.nodes.size = t.nodes.size
  kind : ∀ i, (t'.node i).kind = (t.node i).kind
  parent : ∀ i, (t'.node i).parent = (t.node i).parent
  children : ∀ i, (t'.node i).children = (t.node i).children

/-- A change of one node that keeps its kind and its links. -/
theorem SameShape.update {f : Node → Node} (kind : (f (t.node id)).kind = (t.node id).kind)
    (parent : (f (t.node id)).parent = (t.node id).parent)
    (children : (f (t.node id)).children = (t.node id).children) :
    SameShape t (t.update id f) := by
  have cases := node_update_cases t id f
  refine ⟨nodes_size_update t id f, ?_, ?_, ?_⟩
  all_goals
    intro i
    rcases cases i with same | ⟨rfl, changed⟩
    · rw [same]
    · rw [changed]
      assumption

theorem SameShape.rooted (same : SameShape t t') (rooted : Rooted t) : Rooted t' where
  nonempty := by rw [same.size]; exact rooted.nonempty
  root := by rw [same.kind, same.parent]; exact rooted.root
  region := by
    intro i positive bound
    rw [same.size] at bound
    rw [same.kind, same.parent]
    exact rooted.region i positive bound
  child := by
    intro i c member
    rw [same.children] at member
    rw [same.size, same.parent]
    exact rooted.child i c member
  ordered := by
    intro i
    rw [same.children]
    exact rooted.ordered i

theorem Retouched.sameShape (same : Retouched t t') : SameShape t t' :=
  ⟨same.size, same.kind, same.parent, same.children⟩

theorem Retouched.rooted (same : Retouched t t') (rooted : Rooted t) : Rooted t' :=
  same.sameShape.rooted rooted

theorem Rooted.children_lt (rooted : Rooted t) {c : Nat} (member : c ∈ (t.node id).children) :
    c < t.nodes.size :=
  (rooted.child id c member).2.1

theorem Rooted.parent_lt (rooted : Rooted t) {q : Nat} (up : (t.node id).parent = some q) :
    q < id ∧ id < t.nodes.size := by
  have bound : id < t.nodes.size := by
    by_contra past
    rw [node_of_le (Nat.le_of_not_lt past)] at up
    cases up
  refine ⟨?_, bound⟩
  rcases Nat.eq_zero_or_pos id with rfl | positive
  · rw [rooted.root.2] at up
    cases up
  · obtain ⟨-, above, below, linked⟩ := rooted.region id positive bound
    rw [linked] at up
    cases up
    exact below

theorem Rooted.eq_zero (rooted : Rooted t) (known : id < t.nodes.size)
    (kind : (t.node id).kind = none) : id = 0 := by
  rcases Nat.eq_zero_or_pos id with zero | positive
  · exact zero
  · have region := (rooted.region id positive known).1
    rw [kind] at region
    cases region

/-- The node that is opened next has no children yet. -/
theorem children_of_le (past : t.nodes.size ≤ id) : (t.node id).children = [] := by
  rw [node_of_le past]
  rfl

theorem children_add (known : parent < t.nodes.size) :
    ((t.add parent o).node id).children =
      if id = parent then (t.node id).children ++ [t.nodes.size] else (t.node id).children := by
  by_cases new : id = t.nodes.size
  · rw [if_neg (by omega), new, node_add_new known, children_of_le (Nat.le_refl _)]
    rfl
  · by_cases here : id = parent
    · rw [if_pos here, here, node_add_parent known]
    · rw [if_neg here, node_add_of_ne new here]

theorem Rooted.add (rooted : Rooted t) (known : parent < t.nodes.size) :
    Rooted (t.add parent o) where
  nonempty := by rw [nodes_size_add]; exact Nat.succ_pos _
  root := by
    have positive := rooted.nonempty
    rw [kind_add known (by omega), parent_add known (by omega)]
    exact rooted.root
  region := by
    intro i positive bound
    rw [nodes_size_add] at bound
    by_cases new : i = t.nodes.size
    · rw [new, node_add_new known]
      exact ⟨rfl, parent, known, rfl⟩
    · rw [kind_add known new, parent_add known new]
      exact rooted.region i positive (by omega)
  child := by
    intro i c member
    rw [children_add known] at member
    rw [nodes_size_add]
    have old : c ∈ (t.node i).children →
        i < c ∧ c < t.nodes.size + 1 ∧ ((t.add parent o).node c).parent = some i := by
      intro member
      obtain ⟨above, bound, linked⟩ := rooted.child i c member
      rw [parent_add known (by omega)]
      exact ⟨above, by omega, linked⟩
    split at member
    next here =>
      rcases List.mem_append.1 member with member | member
      · exact old member
      · rw [List.mem_singleton.1 member, here, node_add_new known]
        exact ⟨known, Nat.lt_succ_self _, rfl⟩
    next => exact old member
  ordered := by
    intro i
    rw [children_add known]
    split
    next here =>
      refine List.pairwise_append.2 ⟨rooted.ordered i, List.pairwise_singleton _ _, ?_⟩
      intro a left b right
      rw [List.mem_singleton.1 right]
      exact rooted.children_lt left
    next => exact rooted.ordered i

/-! ## The way up to the root -/

theorem ancestors_of_none (top : (t.node id).parent = none) : t.ancestors id = [id] := by
  rw [ancestors, top]

theorem ancestors_of_some {q : Nat} (up : (t.node id).parent = some q) (below : q < id) :
    t.ancestors id = id :: t.ancestors q := by
  rw [ancestors, up]
  dsimp only
  rw [if_pos below]

/-- The way up only depends on the parents on it. -/
theorem ancestors_congr (same : ∀ i, i ≤ id → (t'.node i).parent = (t.node i).parent) :
    t'.ancestors id = t.ancestors id := by
  induction id using Nat.strongRecOn with
  | ind id ih =>
    rw [ancestors, ancestors, same id (Nat.le_refl _)]
    cases (t.node id).parent with
    | none => rfl
    | some q =>
      dsimp only
      split
      next below => rw [ih q below fun i le => same i (by omega)]
      next => rfl

theorem Retouched.ancestors (same : Retouched t t') (id : Nat) :
    t'.ancestors id = t.ancestors id :=
  ancestors_congr fun i _ => same.parent i

theorem ancestors_add_old (known : parent < t.nodes.size) (old : id < t.nodes.size) :
    (t.add parent o).ancestors id = t.ancestors id :=
  ancestors_congr fun i le => parent_add known (by omega)

theorem ancestors_add_new (known : parent < t.nodes.size) :
    (t.add parent o).ancestors t.nodes.size = t.nodes.size :: t.ancestors parent := by
  have up : ((t.add parent o).node t.nodes.size).parent = some parent := by
    rw [node_add_new known]
    rfl
  rw [ancestors_of_some up known, ancestors_add_old known known]

theorem mem_ancestors_iff {i : Nat} :
    i ∈ t.ancestors id ↔
      i = id ∨ ∃ q, (t.node id).parent = some q ∧ q < id ∧ i ∈ t.ancestors q := by
  rw [ancestors, List.mem_cons]
  cases (t.node id).parent with
  | none => simp
  | some parent =>
    dsimp only
    split
    next below => simp [below]
    next above => simp [above]

theorem le_of_mem_ancestors {i : Nat} (member : i ∈ t.ancestors id) : i ≤ id := by
  induction id using Nat.strongRecOn with
  | ind id ih =>
    rcases mem_ancestors_iff.1 member with rfl | ⟨q, -, below, above⟩
    · exact Nat.le_refl _
    · exact Nat.le_trans (ih q below above) (Nat.le_of_lt below)

/-- Of two nodes on one way up one is on the way up from the other. -/
theorem mem_ancestors_total {i j : Nat} (left : i ∈ t.ancestors id) (right : j ∈ t.ancestors id) :
    i ∈ t.ancestors j ∨ j ∈ t.ancestors i := by
  induction id using Nat.strongRecOn with
  | ind id ih =>
    rcases mem_ancestors_iff.1 left with rfl | ⟨q, up, below, above⟩
    · exact Or.inr right
    rcases mem_ancestors_iff.1 right with rfl | ⟨q', up', -, above'⟩
    · exact Or.inl left
    · rw [up, Option.some.injEq] at up'
      subst up'
      exact ih q below above above'

/-- Numbers fall on the way up. -/
theorem ancestors_pairwise (t : Tree) (id : Nat) : (t.ancestors id).Pairwise (· > ·) := by
  induction id using Nat.strongRecOn with
  | ind id ih =>
    rw [Tree.ancestors]
    cases (t.node id).parent with
    | none => exact List.pairwise_singleton _ _
    | some q =>
      dsimp only
      split
      next below =>
        refine List.pairwise_cons.2 ⟨?_, ih q below⟩
        intro i member
        exact Nat.lt_of_le_of_lt (le_of_mem_ancestors member) below
      next => exact List.pairwise_singleton _ _

end Shape

/-! ## Regions of a kind -/

/-- The regions of a kind in the order of opening. -/
def ofKind (t : Tree) (kind : RegionKind) : List Nat :=
  (List.range t.nodes.size).filter fun i => (t.node i).kind == some kind

section OfKind

variable {t t' : Tree} {o : Opening} {parent id : Nat} {kind : RegionKind}

theorem mem_ofKind : id ∈ t.ofKind kind ↔ id < t.nodes.size ∧ (t.node id).kind = some kind := by
  unfold ofKind
  rw [List.mem_filter, List.mem_range, beq_iff_eq]

theorem ofKind_pairwise (t : Tree) (kind : RegionKind) : (t.ofKind kind).Pairwise (· < ·) :=
  List.Pairwise.filter _ List.pairwise_lt_range

theorem Retouched.ofKind (same : Retouched t t') (kind : RegionKind) :
    t'.ofKind kind = t.ofKind kind := by
  unfold Tree.ofKind
  rw [same.size]
  congr 1
  funext i
  rw [same.kind]

theorem ofKind_add (known : parent < t.nodes.size) :
    (t.add parent o).ofKind kind =
      t.ofKind kind ++ if o.kind = kind then [t.nodes.size] else [] := by
  unfold ofKind
  rw [nodes_size_add, List.range_succ, List.filter_append]
  congr 1
  · apply List.filter_congr
    intro i member
    rw [kind_add known (Nat.ne_of_lt (List.mem_range.1 member))]
  · rw [List.filter_singleton, node_add_new known]
    by_cases same : o.kind = kind
    · simp [Opening.node, same]
    · simp [Opening.node, same, beq_false_of_ne same]

/-- The regions of a kind are the same, apart from what they hold. -/
structure Keeps (kind : RegionKind) (t t' : Tree) : Prop where
  regions : t'.ofKind kind = t.ofKind kind
  node : ∀ i, (t.node i).kind = some kind → ∃ children, t'.node i = { t.node i with children }

theorem Keeps.refl (kind : RegionKind) (t : Tree) : Keeps kind t t :=
  ⟨rfl, fun i _ => ⟨(t.node i).children, rfl⟩⟩

/-- A change of a node of another kind. -/
theorem Retouched.keeps (same : Retouched t t') (other : (t.node id).kind ≠ some kind)
    (others : ∀ i, i ≠ id → t'.node i = t.node i) : Keeps kind t t' := by
  refine ⟨same.ofKind kind, ?_⟩
  intro i here
  have differ : i ≠ id := by
    intro equal
    rw [equal] at here
    exact other here
  exact ⟨(t.node i).children, by rw [others i differ]⟩

theorem Keeps.trans {t'' : Tree} (first : Keeps kind t t') (second : Keeps kind t' t'') :
    Keeps kind t t'' := by
  refine ⟨second.regions.trans first.regions, ?_⟩
  intro i here
  obtain ⟨children, same⟩ := first.node i here
  obtain ⟨children', same'⟩ := second.node i (by rw [same]; exact here)
  exact ⟨children', by rw [same', same]⟩

theorem keeps_update {f : Node → Node} (other : (t.node id).kind ≠ some kind)
    (kept : Kept (t.node id) (f (t.node id))) : Keeps kind t (t.update id f) :=
  (Retouched.update kept).keeps other fun _ => node_update_of_ne

theorem keeps_close {own : RegionKind} (region : (t.node id).kind = some own) (other : own ≠ kind)
    (stop : Nat) : Keeps kind t (t.close id stop) := by
  refine (Retouched.close (by rw [region]; simp) stop).keeps ?_ fun _ => node_close_of_ne
  rw [region]
  exact fun same => other (Option.some.inj same)

theorem keeps_add (known : parent < t.nodes.size) (other : o.kind ≠ kind) :
    Keeps kind t (t.add parent o) := by
  refine ⟨by rw [ofKind_add known, if_neg other, List.append_nil], ?_⟩
  intro i here
  apply exists_node_add known
  intro past
  rw [past, node_of_le (Nat.le_refl _)] at here
  cases here

end OfKind

end Tree

end CodeFolding
