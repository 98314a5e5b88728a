import CodeFolding.Fault

/-!
# Trees of regions

While a document is scanned, its regions form a tree.  Nodes are numbered in the order in which
they are opened, and number `0` is the root, which is no region itself.  A node knows its parent,
whose number is smaller, and its children in order.

* `Tree.add`: open a region under a node.
* `Tree.close`: complete a region; it never ends before it starts.
* `Tree.nearestOpen?`: the innermost region, from a node outwards, that is not complete and passes
  a test.
-/

namespace CodeFolding

/-- What a region is. -/
inductive RegionKind where
  /-- From an opening brace to its closing one. -/
  | block
  /-- A run of comments. -/
  | comment
  /-- An arm of a conditional directive, or a pair of region directives. -/
  | conditional
  /-- A run of import lines. -/
  | importRun
  /-- The body of a case label. -/
  | caseGroup
  deriving DecidableEq, Repr

/-- A node of the tree. -/
structure Node where
  /-- What the region is; only the root has no kind. -/
  kind : Option RegionKind
  start : Nat
  /-- Where the region stops, as far as it is known before the region is complete. -/
  stop : Nat
  complete : Bool
  /-- A block whose header stands on the line above its brace. -/
  fromPriorLine : Bool
  /-- The text that opened the region, for a directive its bare name. -/
  opener : List Char
  parent : Option Nat
  children : List Nat
  deriving DecidableEq, Repr

namespace Node

/-- The node above all regions. -/
def root : Node where
  kind := none
  start := 0
  stop := 0
  complete := false
  fromPriorLine := false
  opener := []
  parent := none
  children := []

/-- A region that is neither the root nor complete. -/
def isOpen (n : Node) : Bool := n.kind.isSome && !n.complete

end Node

/-- What is known of a region when it is opened. -/
structure Opening where
  kind : RegionKind
  start : Nat
  opener : List Char
  stop : Nat := start
  fromPriorLine : Bool := false
  deriving DecidableEq, Repr

/-- The node of a region that was just opened. -/
def Opening.node (o : Opening) (parent : Nat) : Node where
  kind := some o.kind
  start := o.start
  stop := o.stop
  complete := false
  fromPriorLine := o.fromPriorLine
  opener := o.opener
  parent := some parent
  children := []

/-- Regions numbered from one in the order of opening, with the root as number zero. -/
structure Tree where
  nodes : Array Node
  deriving DecidableEq, Repr

namespace Tree

/-- The number of the root. -/
def rootId : Nat := 0

/-- The tree without regions. -/
def empty : Tree := ⟨#[Node.root]⟩

/-- Number of regions. -/
def size (t : Tree) : Nat := t.nodes.size - 1

/-- The number of the region opened next. -/
def nextId (t : Tree) : Nat := t.nodes.size

/-- The number itself, if the tree has a node with it. -/
def check (t : Tree) (id : Nat) : Except Fault Nat :=
  if id < t.nodes.size then .ok id else .error .noSuchRegion

/-- The node with a number. -/
def node (t : Tree) (id : Nat) : Node := t.nodes.getD id Node.root

/-- Change one node. -/
def update (t : Tree) (id : Nat) (f : Node → Node) : Tree := ⟨t.nodes.modify id f⟩

/-- Open a region as the last child of a node; its number is `nextId`. -/
def add (t : Tree) (parent : Nat) (o : Opening) : Tree :=
  let grown : Tree := ⟨t.nodes.push (o.node parent)⟩
  grown.update parent fun p => { p with children := p.children ++ [t.nextId] }

/-- Complete a region. A stop before the start collapses the region onto its start. -/
def close (t : Tree) (id stop : Nat) : Tree :=
  t.update id fun n => { n with stop := max stop n.start, complete := true }

/-! ## What a change leaves of the other nodes -/

theorem node_update_self {t : Tree} {id : Nat} {f : Node → Node} (known : id < t.nodes.size) :
    (t.update id f).node id = f (t.node id) := by
  simp [node, update, known, Array.getElem_modify]

theorem node_update_of_ne {t : Tree} {id other : Nat} {f : Node → Node} (differ : other ≠ id) :
    (t.update id f).node other = t.node other := by
  simp [node, update, Array.getElem?_modify, differ.symm]

@[simp]
theorem nodes_size_update (t : Tree) (id : Nat) (f : Node → Node) :
    (t.update id f).nodes.size = t.nodes.size := by
  simp [update]

@[simp]
theorem nodes_size_add (t : Tree) (parent : Nat) (o : Opening) :
    (t.add parent o).nodes.size = t.nodes.size + 1 := by
  simp [add, update]

/-! ## Looking outwards -/

/-- The numbers from a node up to the root. -/
def ancestors (t : Tree) (id : Nat) : List Nat :=
  id ::
    match (t.node id).parent with
    | none => []
    | some parent => if parent < id then t.ancestors parent else []
termination_by id

/-- The first open region that passes a test, from a node outwards. -/
def nearestOpen? (t : Tree) (id : Nat) (test : Node → Bool) : Option Nat :=
  (t.ancestors id).find? fun i => (t.node i).isOpen && test (t.node i)

/-- The last child of the same parent before a node. -/
def precedingSibling? (t : Tree) (id : Nat) : Option Node :=
  (t.node id).parent.bind fun parent =>
    ((t.node parent).children.takeWhile (· != id)).getLast?.map t.node

end Tree

end CodeFolding
