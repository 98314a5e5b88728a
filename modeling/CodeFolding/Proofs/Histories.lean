import Mathlib
import CodeFolding.Proofs.Listing

/-!
# Histories of a tree

A history is a list of acts that open a region under a node or close a node, in any order and any
number of times (`Tree.Act`).  `Tree.replay` does the acts one after the other from a tree on;
each has to name a node that is there by then (`Tree.Known`).

* `Grown.perform`, `Grown.replay`: what one act and a whole history make of the tree
  (`Tree.Grown`).
* `Rooted.count_children`: a region is listed once, and under its parent only.
* `Rooted.wayUp`: from a node the parents lead to the root.
* `Rooted.nearestOpen?_eq_some_iff`, `Rooted.nearestOpen?_eq_none_iff`: the search for an open
  region finds the last one that was opened.
* `history_grows_tree`: all of this for the tree of any history.
-/

namespace CodeFolding

namespace Tree

/-! ## Acts -/

/-- A change of a tree by its user. -/
inductive Act where
  /-- Open a region under a node. -/
  | add (parent : Nat) (kind : RegionKind) (start : Nat) (opener : List Char)
  /-- Close a node. -/
  | close (id stop : Nat)
  deriving DecidableEq, Repr

namespace Act

/-- The node that the act names. -/
def target : Act → Nat
  | .add parent _ _ _ => parent
  | .close id _ => id

/-- What the act opens, and under which node. -/
def opening? : Act → Option (Nat × Opening)
  | .add parent kind start opener => some (parent, { kind, start, opener })
  | .close _ _ => none

end Act

/-- Do one act, and tell the number of the region that it opens. -/
def perform (t : Tree) : Act → Except Fault (Tree × Option Nat)
  | .add parent kind start opener => do
    let parent ← t.check parent
    return (t.add parent { kind, start, opener }, some t.nextId)
  | .close id stop => do
    let id ← t.check id
    return (t.close id stop, none)

/-- Do the acts in order, and tell the numbers of the regions that they open. -/
def replay (t : Tree) : List Act → Except Fault (Tree × List Nat)
  | [] => .ok (t, [])
  | act :: acts => do
    let (next, opened) ← t.perform act
    let (last, later) ← next.replay acts
    return (last, opened.toList ++ later)

/-- What a history opens, in order. -/
def openings (acts : List Act) : List (Nat × Opening) := acts.filterMap Act.opening?

/-- Every act names a node that is there by then, if there are `count` nodes at first. -/
def Known (count : Nat) : List Act → Prop
  | [] => True
  | act :: acts => act.target < count ∧ Known (count + act.opening?.toList.length) acts

instance decidableKnown : (count : Nat) → (acts : List Act) → Decidable (Known count acts)
  | _, [] => isTrue trivial
  | count, act :: acts =>
    have := decidableKnown (count + act.opening?.toList.length) acts
    inferInstanceAs (Decidable (_ ∧ _))

/-- The node is the region that was opened so. -/
structure Holds (t : Tree) (id : Nat) (entry : Nat × Opening) : Prop where
  kind : (t.node id).kind = some entry.2.kind
  start : (t.node id).start = entry.2.start
  opener : (t.node id).opener = entry.2.opener
  parent : (t.node id).parent = some entry.1

/-- The tree has the regions that a history opens, numbered in order, and those nodes are complete
that the history closes. -/
structure Grown (acts : List Act) (t : Tree) : Prop where
  built : t.Built
  size : t.nodes.size = (openings acts).length + 1
  holds : ∀ k entry, (openings acts)[k]? = some entry → t.Holds (k + 1) entry
  closed : ∀ i, (t.node i).complete = true ↔ ∃ stop, Act.close i stop ∈ acts
  ordered : ∀ i, (t.node i).start ≤ (t.node i).stop

section Acts

variable {t : Tree} {acts done : List Act} {act : Act} {parent id start stop : Nat}
  {kind : RegionKind} {opener : List Char}

theorem check_of_lt (known : id < t.nodes.size) : t.check id = .ok id :=
  if_pos known

theorem openings_add :
    openings (acts ++ [.add parent kind start opener]) =
      openings acts ++ [(parent, ({ kind, start, opener } : Opening))] :=
  List.filterMap_append

theorem openings_close : openings (acts ++ [.close id stop]) = openings acts := by
  unfold openings
  rw [List.filterMap_append]
  exact List.append_nil _

theorem Holds.of_same {t' : Tree} {entry : Nat × Opening} (holds : t.Holds id entry)
    (kind : (t'.node id).kind = (t.node id).kind) (start : (t'.node id).start = (t.node id).start)
    (opener : (t'.node id).opener = (t.node id).opener)
    (parent : (t'.node id).parent = (t.node id).parent) : t'.Holds id entry :=
  ⟨kind.trans holds.kind, start.trans holds.start, opener.trans holds.opener,
    parent.trans holds.parent⟩

/-- Closing a node changes at most where nodes stop and whether they are complete. -/
theorem exists_node_close (t : Tree) (id stop i : Nat) :
    ∃ last complete, (t.close id stop).node i = { t.node i with stop := last, complete } := by
  rcases node_update_cases t id _ i with same | ⟨rfl, changed⟩
  · exact ⟨_, _, same⟩
  · exact ⟨_, _, changed⟩

theorem grown_empty : Grown [] empty where
  built := .empty
  size := rfl
  holds := fun _ _ found => nomatch found
  closed := by
    intro i
    rw [node_empty]
    simp [Node.root]
  ordered := by
    intro i
    rw [node_empty]
    exact Nat.le_refl _

/-- A region that is opened goes behind all others, and of the others only children change. -/
theorem Grown.add (grown : Grown acts t) (known : parent < t.nodes.size) :
    Grown (acts ++ [.add parent kind start opener]) (t.add parent { kind, start, opener }) where
  built := .add _ grown.built known
  size := by
    rw [nodes_size_add, grown.size, openings_add, List.length_append]
    rfl
  holds := by
    intro k entry found
    have size := grown.size
    rw [openings_add] at found
    by_cases old : k < (openings acts).length
    · rw [List.getElem?_append_left old] at found
      obtain ⟨children, same⟩ : ∃ children, (t.add parent { kind, start, opener }).node (k + 1) =
          { t.node (k + 1) with children } :=
        exists_node_add known (by omega)
      exact (grown.holds k entry found).of_same (by rw [same]) (by rw [same]) (by rw [same])
        (by rw [same])
    · obtain ⟨inside, -⟩ := List.getElem?_eq_some_iff.1 found
      rw [List.length_append, List.length_singleton] at inside
      obtain rfl : k = (openings acts).length := by omega
      rw [List.getElem?_concat_length] at found
      cases found
      rw [← size]
      have here := node_add_new (o := { kind, start, opener }) known
      exact ⟨by rw [here]; rfl, by rw [here]; rfl, by rw [here]; rfl, by rw [here]; rfl⟩
  closed := by
    intro i
    have kept := grown.closed i
    rcases node_add_cases (o := { kind, start, opener }) known i with
      ⟨children, same⟩ | ⟨new, same⟩
    · rw [same]
      simpa using kept
    · -- the number was no node before, so no act has closed it
      rw [same]
      rw [new, node_of_le (Nat.le_refl _)] at kept
      rw [new]
      simpa [Opening.node, Node.root] using kept
  ordered := by
    intro i
    rcases node_add_cases (o := { kind, start, opener }) known i with ⟨children, same⟩ | ⟨-, same⟩
    · rw [same]
      exact grown.ordered i
    · rw [same]
      exact Nat.le_refl _

/-- A node that is closed keeps its place in the tree and does not stop before it starts. -/
theorem Grown.close (grown : Grown acts t) (known : id < t.nodes.size) :
    Grown (acts ++ [.close id stop]) (t.close id stop) where
  built := .close stop grown.built known
  size := by
    rw [nodes_size_close, grown.size, openings_close]
  holds := by
    intro k entry found
    rw [openings_close] at found
    obtain ⟨last, complete, same⟩ := exists_node_close t id stop (k + 1)
    exact (grown.holds k entry found).of_same (by rw [same]) (by rw [same]) (by rw [same])
      (by rw [same])
  closed := by
    intro i
    by_cases here : i = id
    · subst here
      rw [node_close_self known]
      simp
    · rw [node_close_of_ne here, grown.closed i]
      simp [here]
  ordered := by
    intro i
    by_cases here : i = id
    · subst here
      rw [node_close_self known]
      exact Nat.le_max_right _ _
    · rw [node_close_of_ne here]
      exact grown.ordered i

/-- An act that names a known node is done; a region that it opens gets the next number. -/
theorem Grown.perform (grown : Grown done t) (known : act.target < t.nodes.size) :
    ∃ next, t.perform act = .ok (next, act.opening?.map fun _ => t.nodes.size) ∧
      next.nodes.size = t.nodes.size + act.opening?.toList.length ∧
      Grown (done ++ [act]) next := by
  cases act with
  | add parent kind start opener =>
    have found : t.check parent = .ok parent := check_of_lt known
    refine ⟨t.add parent { kind, start, opener }, ?_, nodes_size_add .., grown.add known⟩
    simp only [Tree.perform, found]
    rfl
  | close id stop =>
    have found : t.check id = .ok id := check_of_lt known
    refine ⟨t.close id stop, ?_, nodes_size_close .., grown.close known⟩
    simp only [Tree.perform, found]
    rfl

/-- A history that names known nodes is done to its end; the regions that it opens get the numbers
from the next one on. -/
theorem Grown.replay (grown : Grown done t) (known : Known t.nodes.size acts) :
    ∃ last, t.replay acts = .ok (last, List.range' t.nodes.size (openings acts).length) ∧
      Grown (done ++ acts) last := by
  induction acts generalizing t done with
  | nil =>
    rw [List.append_nil]
    exact ⟨t, rfl, grown⟩
  | cons act acts ih =>
    obtain ⟨next, performed, size, grown'⟩ := grown.perform known.1
    obtain ⟨last, replayed, grown''⟩ := ih grown' (by rw [size]; exact known.2)
    refine ⟨last, ?_, ?_⟩
    · rw [Tree.replay, performed]
      simp only [bind, Except.bind]
      rw [replayed, size]
      cases act with
      | add parent kind start opener => rfl
      | close id stop => rfl
    · rw [List.append_assoc, List.singleton_append] at grown''
      exact grown''

end Acts

/-! ## Links -/

/-- The numbers lead from a node to the root, each to that of the parent. -/
structure WayUp (t : Tree) (id : Nat) (path : List Nat) : Prop where
  first : path.head? = some id
  last : path.getLast? = some rootId
  linked : path.IsChain fun i q => (t.node i).parent = some q
  falling : path.Pairwise (· > ·)

section Links

variable {t : Tree} {id i q : Nat}

/-- A region is listed once, and under its parent only. -/
theorem Rooted.count_children (rooted : t.Rooted) (listed : t.Listed)
    (up : (t.node i).parent = some q) (p : Nat) :
    (t.node p).children.count i = if p = q then 1 else 0 := by
  split
  next here =>
    subst here
    have distinct : (t.node p).children.Nodup := (rooted.ordered p).imp Nat.ne_of_lt
    exact List.count_eq_one_of_mem distinct (listed i p up)
  next other =>
    refine List.count_eq_zero_of_not_mem fun member => other ?_
    obtain ⟨-, -, up'⟩ := rooted.child p i member
    exact Option.some.inj (up'.symm.trans up)

theorem ancestors_head? (t : Tree) (id : Nat) : (t.ancestors id).head? = some id := by
  rw [ancestors]
  rfl

theorem ancestors_isChain (t : Tree) (id : Nat) :
    (t.ancestors id).IsChain fun i q => (t.node i).parent = some q := by
  induction id using Nat.strongRecOn with
  | ind id ih =>
    rw [ancestors]
    cases up : (t.node id).parent with
    | none => exact List.isChain_singleton _
    | some q =>
      dsimp only
      split
      next below =>
        refine List.isChain_cons.2 ⟨?_, ih q below⟩
        intro next first
        rw [ancestors_head?] at first
        cases first
        exact up
      next => exact List.isChain_singleton _

theorem Rooted.ancestors_getLast? (rooted : t.Rooted) (known : id < t.nodes.size) :
    (t.ancestors id).getLast? = some rootId := by
  induction id using Nat.strongRecOn with
  | ind id ih =>
    rcases Nat.eq_zero_or_pos id with rfl | positive
    · rw [ancestors_of_none rooted.root.2]
      rfl
    · obtain ⟨-, q, below, up⟩ := rooted.region id positive known
      rw [ancestors_of_some up below, List.getLast?_cons, ih q below (by omega)]
      rfl

/-- From a node the parents lead to the root. -/
theorem Rooted.wayUp (rooted : t.Rooted) (known : id < t.nodes.size) :
    t.WayUp id (t.ancestors id) where
  first := ancestors_head? t id
  last := rooted.ancestors_getLast? known
  linked := ancestors_isChain t id
  falling := ancestors_pairwise t id

end Links

/-! ## The nearest open region -/

/-- The regions from a node up that are not complete and pass a test. -/
def openAbove (t : Tree) (id : Nat) (test : Node → Bool) : Set Nat :=
  {i | i ∈ t.ancestors id ∧ i ≠ rootId ∧ (t.node i).complete = false ∧ test (t.node i) = true}

section NearestOpen

variable {t : Tree} {id i : Nat} {test : Node → Bool}

theorem Rooted.mem_openAbove (rooted : t.Rooted) (known : id < t.nodes.size) :
    i ∈ t.openAbove id test ↔
      i ∈ t.ancestors id ∧ ((t.node i).isOpen && test (t.node i)) = true := by
  unfold openAbove Node.isOpen
  rw [Set.mem_ofPred_eq, Bool.and_eq_true, Bool.and_eq_true, Bool.not_eq_true', and_assoc]
  refine and_congr_right fun above => and_congr_left fun _ => ?_
  have bound : i < t.nodes.size := Nat.lt_of_le_of_lt (le_of_mem_ancestors above) known
  constructor
  · intro inner
    exact (rooted.region i (Nat.pos_of_ne_zero inner) bound).1
  · rintro region rfl
    rw [rootId, rooted.root.1] at region
    cases region

/-- In a falling list the first number that passes is the greatest. -/
theorem find?_eq_some_iff_isGreatest {path : List Nat} {p : Nat → Bool}
    (falling : path.Pairwise (· > ·)) :
    path.find? p = some i ↔ IsGreatest {j | j ∈ path ∧ p j = true} i := by
  have first : ∀ {i}, path.find? p = some i → IsGreatest {j | j ∈ path ∧ p j = true} i := by
    intro i found
    obtain ⟨passes, before, behind, rfl, fail⟩ := List.find?_eq_some_iff_append.1 found
    refine ⟨⟨List.mem_append_right _ List.mem_cons_self, passes⟩, ?_⟩
    rintro j ⟨member, passes'⟩
    rcases List.mem_append.1 member with early | late
    · have fails := fail j early
      rw [passes'] at fails
      cases fails
    · rcases List.mem_cons.1 late with rfl | late
      · exact Nat.le_refl _
      · exact Nat.le_of_lt ((List.pairwise_cons.1 (List.pairwise_append.1 falling).2.1).1 j late)
  constructor
  · exact first
  · -- a member that passes makes the search succeed, and there is only one greatest number
    intro greatest
    obtain ⟨j, found⟩ := Option.isSome_iff_exists.1
      (List.find?_isSome.2 ⟨i, greatest.1.1, greatest.1.2⟩)
    rw [found, (first found).unique greatest]

/-- The search finds the last opened of the open regions that pass. -/
theorem Rooted.nearestOpen?_eq_some_iff (rooted : t.Rooted) (known : id < t.nodes.size) :
    t.nearestOpen? id test = some i ↔ IsGreatest (t.openAbove id test) i := by
  have same : t.openAbove id test =
      {j | j ∈ t.ancestors id ∧ ((t.node j).isOpen && test (t.node j)) = true} :=
    Set.ext fun _ => rooted.mem_openAbove known
  rw [same]
  exact find?_eq_some_iff_isGreatest (ancestors_pairwise t id)

theorem Rooted.nearestOpen?_eq_none_iff (rooted : t.Rooted) (known : id < t.nodes.size) :
    t.nearestOpen? id test = none ↔ t.openAbove id test = ∅ := by
  unfold nearestOpen?
  rw [List.find?_eq_none, Set.eq_empty_iff_forall_notMem]
  refine forall_congr' fun i => ?_
  rw [rooted.mem_openAbove known, not_and]

end NearestOpen

end Tree

/-- Every history that names known nodes leads to a tree.  Regions are numbered from one in the
order of opening and keep what they were opened with.  Each has a kind, a parent with a smaller
number and one place among the children of that parent and no other node; children stand in the
order of opening.  The way up from a node falls to the root.  A closed node does not stop before
it starts, and the nearest open region is the one with the greatest number. -/
theorem history_grows_tree (acts : List Tree.Act) (known : Tree.Known 1 acts) :
    ∃ t, Tree.empty.replay acts = .ok (t, List.range' 1 t.size) ∧
      List.Forall₂ t.Holds (List.range' 1 t.size) (Tree.openings acts) ∧
      ((t.node Tree.rootId).kind = none ∧ (t.node Tree.rootId).parent = none) ∧
      (∀ i, 0 < i → i ≤ t.size → (t.node i).kind.isSome = true ∧
        ∃ q < i, (t.node i).parent = some q ∧
          ∀ p, (t.node p).children.count i = if p = q then 1 else 0) ∧
      (∀ i, (t.node i).children.Pairwise (· < ·)) ∧
      (∀ i ≤ t.size, t.WayUp i (t.ancestors i)) ∧
      (∀ i, (t.node i).complete = true ↔ ∃ stop, Tree.Act.close i stop ∈ acts) ∧
      (∀ i, (t.node i).complete = true → (t.node i).start ≤ (t.node i).stop) ∧
      ∀ i ≤ t.size, ∀ test,
        (∀ j, t.nearestOpen? i test = some j ↔ IsGreatest (t.openAbove i test) j) ∧
        (t.nearestOpen? i test = none ↔ t.openAbove i test = ∅) := by
  obtain ⟨t, replayed, grown⟩ := Tree.grown_empty.replay known
  rw [List.nil_append] at grown
  obtain ⟨rooted, listed⟩ := grown.built.rooted_listed
  have count : t.size = (Tree.openings acts).length := by
    unfold Tree.size
    rw [grown.size, Nat.add_sub_cancel]
  have bound : ∀ i, i ≤ t.size → i < t.nodes.size := by
    intro i le
    rw [grown.size, ← count]
    exact Nat.lt_succ_of_le le
  refine ⟨t, ?_, ?_, rooted.root, ?_, rooted.ordered, fun i le => rooted.wayUp (bound i le),
    grown.closed, fun i _ => grown.ordered i, ?_⟩
  · rw [count]
    exact replayed
  · refine List.forall₂_iff_get.2 ⟨by rw [List.length_range', count], ?_⟩
    intro k _ inside
    rw [List.get_eq_getElem, List.getElem_range', Nat.one_mul, Nat.add_comm]
    exact grown.holds k _ (List.getElem?_eq_getElem inside)
  · intro i positive le
    obtain ⟨region, q, below, up⟩ := rooted.region i positive (bound i le)
    exact ⟨region, q, below, up, rooted.count_children listed up⟩
  · intro i le test
    exact ⟨fun j => rooted.nearestOpen?_eq_some_iff (bound i le),
      rooted.nearestOpen?_eq_none_iff (bound i le)⟩

/-- Regions are opened under closed ones, one is closed twice and before its start, and the root
is closed too. -/
theorem history_grows_tree_crossed :
    let acts : List Tree.Act :=
      [.add 0 .conditional 0 "if".toList, .add 1 .block 7 ['\x7b'], .close 2 3,
        .add 2 .conditional 9 "else".toList, .close 0 4, .add 1 .comment 12 "//".toList,
        .close 3 20, .close 2 5, .add 3 .block 21 ['\x7b']]
    let isConditional : Node → Bool := fun n => n.kind == some .conditional
    Tree.Known 1 acts ∧
      ∃ t, Tree.empty.replay acts = .ok (t, [1, 2, 3, 4, 5]) ∧ t.WayUp 5 [5, 3, 2, 1, 0] ∧
        ((t.node 2).start = 7 ∧ (t.node 2).stop = 7) ∧ (t.node 1).children = [2, 4] ∧
        t.nearestOpen? 5 isConditional = some 1 ∧ IsGreatest (t.openAbove 5 isConditional) 1 ∧
        t.openAbove 4 (fun n => n.kind == some .block) = ∅ := by
  intro acts isConditional
  have known : Tree.Known 1 acts := by decide
  obtain ⟨t, replayed, -, -, -, -, ways, -, -, nearest⟩ := history_grows_tree acts known
  have look : ∀ {α : Type} {f : Tree → α} {a : α},
      (Tree.empty.replay acts).map (fun r => f r.1) = .ok a → f t = a := by
    intro α f a shape
    rw [replayed] at shape
    exact Except.ok.inj shape
  have size : t.size = 5 := look (f := Tree.size) (by decide +kernel)
  have path : t.ancestors 5 = [5, 3, 2, 1, 0] := look (f := (·.ancestors 5)) (by decide +kernel)
  have found : t.nearestOpen? 5 isConditional = some 1 :=
    look (f := (·.nearestOpen? 5 isConditional)) (by decide +kernel)
  have missing : t.nearestOpen? 4 (fun n => n.kind == some .block) = none :=
    look (f := (·.nearestOpen? 4 fun n => n.kind == some .block)) (by decide +kernel)
  rw [size] at replayed ways nearest
  refine ⟨known, t, replayed, path ▸ ways 5 (Nat.le_refl _), ⟨?_, ?_⟩, ?_, found, ?_, ?_⟩
  · exact look (f := fun t => (t.node 2).start) (by decide +kernel)
  · exact look (f := fun t => (t.node 2).stop) (by decide +kernel)
  · exact look (f := fun t => (t.node 1).children) (by decide +kernel)
  · exact ((nearest 5 (Nat.le_refl _) isConditional).1 1).1 found
  · exact (nearest 4 (by decide) _).2.1 missing

end CodeFolding
