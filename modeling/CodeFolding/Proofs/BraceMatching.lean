import Mathlib
import CodeFolding.Proofs.Plain

/-!
# Blocks match braces

A stack pairs the braces of a stream: an opening brace goes on it, and a closing brace takes the
top one off, or is ignored if there is none (`matchBraces`).  Without directives, and with no
brace inside a label, a scan finds just these pairs, however comments, imports and groups lie
between them.

* `Scan.Tracks`: after each turn the stack that has read the same tokens has the blocks on the
  way up from the region being read, and each block is as its pair says.
* `blocks_match_braces`: the blocks of a document are its pairs of braces.
-/

namespace CodeFolding

/-! ## The stack of open braces -/

/-- A brace of either kind. -/
def Token.isBrace (t : Token) : Bool := t.isPunctuation '\x7b' || t.isPunctuation '\x7d'

/-- An opening brace and the one that closes it. -/
structure BracePair where
  opening : Token
  closing : Option Token
  /-- Number of the pair around this one. -/
  outer : Option Nat
  deriving DecidableEq, Repr

/-- Pairs in the order of their opening braces, and the numbers of those still open, the innermost
first. -/
structure BraceStack where
  pairs : List BracePair
  live : List Nat
  deriving DecidableEq, Repr

namespace BraceStack

/-- An opening brace goes on the stack, a closing one takes off the top. -/
def read (m : BraceStack) (t : Token) : BraceStack :=
  if t.isPunctuation '\x7b' then
    { pairs := m.pairs ++ [⟨t, none, m.live.head?⟩], live := m.pairs.length :: m.live }
  else if t.isPunctuation '\x7d' then
    match m.live with
    | [] => m
    | top :: below =>
      { pairs := m.pairs.modify top fun pair => { pair with closing := some t }, live := below }
  else m

/-- Read a stream. -/
def readAll (tokens : List Token) : BraceStack := tokens.foldl read ⟨[], []⟩

variable {m : BraceStack} {t : Token}

theorem read_of_not_brace (plain : t.isBrace = false) : m.read t = m := by
  unfold Token.isBrace at plain
  rw [Bool.or_eq_false_iff] at plain
  unfold read
  rw [if_neg (by simp [plain.1]), if_neg (by simp [plain.2])]

theorem readAll_append_of_not_brace {done skipped : List Token}
    (plain : ∀ u ∈ skipped, u.isBrace = false) : readAll (done ++ skipped) = readAll done := by
  induction skipped generalizing done with
  | nil => rw [List.append_nil]
  | cons u skipped ih =>
    have step : readAll (done ++ [u]) = (readAll done).read u := List.foldl_append
    rw [List.append_cons, ih fun v member => plain v (List.mem_cons_of_mem _ member), step,
      read_of_not_brace (plain u List.mem_cons_self)]

theorem readAll_concat (done : List Token) (t : Token) :
    readAll (done ++ [t]) = (readAll done).read t := List.foldl_append

theorem map_opening_read (m : BraceStack) (t : Token) :
    (m.read t).pairs.map (·.opening) =
      m.pairs.map (·.opening) ++ if t.isPunctuation '\x7b' then [t] else [] := by
  unfold read
  split
  next => rw [List.map_append]; rfl
  next =>
    rw [List.append_nil]
    split
    next =>
      split
      next => rfl
      next =>
        apply List.ext_getElem?
        intro k
        rw [List.getElem?_map, List.getElem?_map, List.getElem?_modify]
        cases m.pairs[k]? with
        | none => rfl
        | some pair => split <;> rfl
    next => rfl

/-- Every opening brace has its pair, in the order of the stream. -/
theorem map_opening_readAll (tokens : List Token) :
    (readAll tokens).pairs.map (·.opening) = tokens.filter (·.isPunctuation '\x7b') := by
  induction tokens using List.reverseRecOn with
  | nil => rfl
  | append_singleton done t ih =>
    rw [readAll_concat, map_opening_read, ih, List.filter_append, List.filter_singleton,
      Bool.cond_eq_ite]

end BraceStack

/-- The pairs of braces of a stream, in the order of their opening braces. -/
def matchBraces (tokens : List Token) : List BracePair := (BraceStack.readAll tokens).pairs

/-! ## Blocks as pairs -/

namespace Tree

/-- The nearest region of a kind around a region. -/
def enclosing? (t : Tree) (id : Nat) (kind : RegionKind) : Option Nat :=
  (t.ancestors id).tail.find? fun i => (t.node i).kind == some kind

/-- The block is the one of a pair of braces: it opens with the opening brace, unless its start
has moved to a line above, and it is complete just when the pair is, with the closing brace as its
end.  The block around it is the one of the pair around. -/
structure IsPair (options : ScanOptions) (d : Document) (t : Tree) (id : Nat) (pair : BracePair) :
    Prop where
  opener : (t.node id).opener = pair.opening.text
  start : (t.node id).start = pair.opening.start ∨
    options.extendStarts = true ∧ pair.closing.isSome = true ∧
      d.lineOf (t.node id).start < d.lineOf pair.opening.start
  complete : (t.node id).complete = pair.closing.isSome
  stop : ∀ closing, pair.closing = some closing → (t.node id).stop = closing.stop
  outer : pair.outer.map ((t.ofKind .block)[·]?) = (t.enclosing? id .block).map some

section Pairs

variable {options : ScanOptions} {d : Document} {t t' : Tree} {id p : Nat} {o : Opening}
  {pair : BracePair} {kind : RegionKind}

theorem Retouched.enclosing? (same : Retouched t t') (id : Nat) (kind : RegionKind) :
    t'.enclosing? id kind = t.enclosing? id kind := by
  unfold Tree.enclosing?
  rw [same.ancestors]
  congr 1
  funext i
  rw [same.kind]

theorem find?_ancestors_add (known : p < t.nodes.size) (old : id < t.nodes.size) (path : List Nat)
    (inside : ∀ i ∈ path, i ≤ id) :
    (path.find? fun i => ((t.add p o).node i).kind == some kind) =
      path.find? fun i => (t.node i).kind == some kind := by
  induction path with
  | nil => rfl
  | cons first path ih =>
    have bound := inside first List.mem_cons_self
    rw [List.find?_cons, List.find?_cons, kind_add known (by omega),
      ih fun i member => inside i (List.mem_cons_of_mem _ member)]

theorem enclosing?_add_old (known : p < t.nodes.size) (old : id < t.nodes.size) :
    (t.add p o).enclosing? id kind = t.enclosing? id kind := by
  unfold Tree.enclosing?
  rw [ancestors_add_old known old]
  exact find?_ancestors_add known old _ fun i member =>
    le_of_mem_ancestors (List.mem_of_mem_tail member)

theorem enclosing?_add_new (known : p < t.nodes.size) :
    (t.add p o).enclosing? t.nodes.size kind =
      (t.ancestors p).find? fun i => (t.node i).kind == some kind := by
  unfold Tree.enclosing?
  rw [ancestors_add_new known, List.tail_cons]
  exact find?_ancestors_add known known _ fun i member => le_of_mem_ancestors member

/-- A change elsewhere leaves the block of a pair as it is. -/
theorem IsPair.congr (is : IsPair options d t id pair)
    (node : ∃ children, t'.node id = { t.node id with children })
    (blocks : t'.ofKind .block = t.ofKind .block)
    (up : t'.enclosing? id .block = t.enclosing? id .block) : IsPair options d t' id pair := by
  obtain ⟨children, node⟩ := node
  refine ⟨?_, ?_, ?_, ?_, ?_⟩
  · rw [node]
    exact is.opener
  · rw [node]
    exact is.start
  · rw [node]
    exact is.complete
  · rw [node]
    exact is.stop
  · rw [blocks, up]
    exact is.outer

/-- The block that a brace closes. -/
theorem IsPair.close {brace : Token} (is : IsPair options d t id pair)
    (known : id < t.nodes.size) (kind : (t.node id).kind = some .block)
    (live : (t.node id).complete = false) (behind : pair.opening.start ≤ brace.stop) :
    IsPair options d (extendStart options d (t.close id brace.stop) id) id
      { pair with closing := some brace } := by
  have closed : (t.close id brace.stop).node id = _ := node_close_self known
  have same : t.Retouched (extendStart options d (t.close id brace.stop) id) :=
    (Retouched.close (by rw [kind]; simp) _).trans (Scan.retouched_extendStart _ _ _ id)
  have outer : pair.outer.map (((extendStart options d (t.close id brace.stop) id).ofKind
      .block)[·]?) = ((extendStart options d (t.close id brace.stop) id).enclosing? id .block).map
        some := by
    rw [same.ofKind, same.enclosing?]
    exact is.outer
  -- an open block has not moved
  have starts : (t.node id).start = pair.opening.start := by
    rcases is.start with starts | ⟨-, ended, -⟩
    · exact starts
    · rw [← is.complete, live] at ended
      cases ended
  have stops : max brace.stop (t.node id).start = brace.stop := by
    rw [starts]
    exact Nat.max_eq_left behind
  rw [stops] at closed
  rcases Scan.extendStart_cases options d (t.close id brace.stop) id with
    still | ⟨n, extends_, -, -, above, inside, moved⟩
  · refine ⟨?_, ?_, ?_, ?_, outer⟩
    · rw [still, closed]
      exact is.opener
    · rw [still, closed]
      exact Or.inl starts
    · rw [still, closed]
      rfl
    · intro closing same
      cases same
      rw [still, closed]
  · have node : (extendStart options d (t.close id brace.stop) id).node id =
        { t.node id with
          stop := brace.stop, complete := true, start := d.lineStop n,
          fromPriorLine := true } := by
      rw [moved, node_update_self (by rw [nodes_size_close]; exact known), closed]
    refine ⟨?_, ?_, ?_, ?_, outer⟩
    · rw [node]
      exact is.opener
    · rw [node]
      rw [closed, starts] at above
      refine Or.inr ⟨extends_, rfl, ?_⟩
      rw [Document.lineOf_lineStop inside]
      exact above
    · rw [node]
      rfl
    · intro closing same
      cases same
      rw [node]

theorem getElem?_append_of_some {blocks : List Nat} {j : Nat} (more : List Nat)
    (found : blocks[j]? = some id) : (blocks ++ more)[j]? = some id := by
  rw [List.getElem?_append_left (List.getElem?_eq_some_iff.1 found).1, found]

/-- A new region leaves the blocks of the pairs as they are. -/
theorem IsPair.add (is : IsPair options d t id pair) (known : p < t.nodes.size)
    (old : id < t.nodes.size) : IsPair options d (t.add p o) id pair := by
  obtain ⟨children, node⟩ := exists_node_add (o := o) known (Nat.ne_of_lt old)
  have outer := is.outer
  refine ⟨?_, ?_, ?_, ?_, ?_⟩
  · rw [node]
    exact is.opener
  · rw [node]
    exact is.start
  · rw [node]
    exact is.complete
  · rw [node]
    exact is.stop
  · rw [enclosing?_add_old known old, ofKind_add known, ← outer]
    cases pairOuter : pair.outer with
    | none => rfl
    | some j =>
      rw [pairOuter] at outer
      cases up : t.enclosing? id .block with
      | none =>
        rw [up] at outer
        cases outer
      | some around =>
        rw [up] at outer
        have found : (t.ofKind .block)[j]? = some around := Option.some.inj outer
        rw [Option.map_some, Option.map_some, getElem?_append_of_some _ found, found]

/-- The block of a brace that was just read. -/
theorem isPair_new {live : List Nat} {brace : Token} (known : p < t.nodes.size)
    (start : o.start = brace.start) (opener : o.opener = brace.text)
    (around : live.map (((t.add p o).ofKind .block)[·]?) =
      ((t.ancestors p).filter fun i => (t.node i).kind == some .block).map some) :
    IsPair options d (t.add p o) t.nodes.size ⟨brace, none, live.head?⟩ := by
  have node := node_add_new (o := o) known
  refine ⟨?_, ?_, ?_, ?_, ?_⟩
  · rw [node]
    exact opener
  · rw [node]
    exact Or.inl start
  · rw [node]
    rfl
  · intro closing none
    cases none
  · have first := congrArg List.head? around
    rw [List.head?_map, List.head?_map, List.head?_filter] at first
    rw [enclosing?_add_new known]
    exact first

end Pairs

end Tree

/-! ## A scan and its stack -/

namespace Scan

/-- The blocks on the way up from the region being read. -/
def blockPath (s : Scan) : List Nat := s.path.filter fun i => (s.tree.node i).kind == some .block

/-- The stack belongs to the scan: the pairs are the blocks, and those still open are the blocks
around the place that is read. -/
structure Tracks (options : ScanOptions) (d : Document) (s : Scan) (m : BraceStack) : Prop where
  count : (s.tree.ofKind .block).length = m.pairs.length
  pair : ∀ (k id : Nat) (pair : BracePair), (s.tree.ofKind .block)[k]? = some id →
    m.pairs[k]? = some pair → s.tree.IsPair options d id pair
  live : s.cursor.atEnd = false →
    m.live.map ((s.tree.ofKind .block)[·]?) = s.blockPath.map some

section Tracks

variable {options : ScanOptions} {d : Document} {tokens : List Token} {s s' : Scan} {p : Nat}
  {m : BraceStack} {t : Token}

theorem tracks_start (options : ScanOptions) (d : Document) (tokens : List Token) :
    Tracks options d (start options d tokens) ⟨[], []⟩ := by
  have path : (start options d tokens).path = [0] :=
    Tree.ancestors_of_none Tree.rooted_empty.root.2
  refine ⟨rfl, ?_, ?_⟩
  · intro k id pair _ looked
    rw [List.getElem?_nil] at looked
    cases looked
  · intro _
    unfold blockPath
    rw [path]
    rfl

theorem blockPath_enter {o : Opening} (known : p < s.tree.nodes.size) (within : s.within = some p)
    (grown : s'.tree = s.tree.add p o) (inside : s'.within = some s.tree.nodes.size) :
    s'.blockPath = (if o.kind = .block then [s.tree.nodes.size] else []) ++ s.blockPath := by
  unfold blockPath
  rw [path_enter within known (.refl _) grown inside, ← List.singleton_append,
    List.filter_append, grown]
  congr 1
  · rw [List.filter_singleton, Bool.cond_eq_ite, Tree.node_add_new known]
    simp [Opening.node]
  · apply List.filter_congr
    intro i member
    rw [path_eq within] at member
    have bound := Tree.le_of_mem_ancestors member
    rw [Tree.kind_add known (by omega)]

theorem Tracks.quiet (tracks : Tracks options d s m) (keeps : Tree.Keeps .block s.tree s'.tree)
    (up : ∀ id, id < s.tree.nodes.size →
      s'.tree.enclosing? id .block = s.tree.enclosing? id .block)
    (path : s'.cursor.atEnd = false → s.cursor.atEnd = false ∧ s'.blockPath = s.blockPath) :
    Tracks options d s' m := by
  refine ⟨by rw [keeps.regions]; exact tracks.count, ?_, ?_⟩
  · intro k id pair here looked
    rw [keeps.regions] at here
    have member := Tree.mem_ofKind.1 (List.mem_of_getElem? here)
    exact (tracks.pair k id pair here looked).congr (keeps.node id member.2) keeps.regions
      (up id member.1)
  · intro more
    obtain ⟨more, same⟩ := path more
    rw [keeps.regions, same]
    exact tracks.live more

/-- A turn that leaves the tree alone. -/
theorem Tracks.still (tracks : Tracks options d s m)
    (unread : s'.cursor.atEnd = false → s.cursor.atEnd = false) (tree : s'.tree = s.tree)
    (within : s'.within = s.within) : Tracks options d s' m := by
  refine tracks.quiet (by rw [tree]; exact .refl _ _) (fun _ _ => by rw [tree]) ?_
  intro more
  unfold blockPath path
  rw [tree, within]
  exact ⟨unread more, rfl⟩

/-- A turn that changes a region of another kind. -/
theorem Tracks.update {f : Node → Node} (tracks : Tracks options d s m)
    (unread : s'.cursor.atEnd = false → s.cursor.atEnd = false) (within : s.within = some p)
    (kind : (s.tree.node p).kind ≠ some .block)
    (kept : Tree.Kept (s.tree.node p) (f (s.tree.node p))) (tree : s'.tree = s.tree.update p f)
    (inside : s'.within = some p) : Tracks options d s' m := by
  have same : s.tree.Retouched s'.tree := by
    rw [tree]
    exact .update kept
  refine tracks.quiet (same.keeps kind ?_) (fun id _ => same.enclosing? id _) ?_
  · intro i other
    rw [tree, Tree.node_update_of_ne other]
  · intro more
    refine ⟨unread more, ?_⟩
    unfold blockPath
    simp only [same.kind]
    rw [path_stay within same inside]

/-- A turn that completes and leaves a region of another kind. -/
theorem Tracks.close {k : RegionKind} {stop : Nat} (steady : Steady options d tokens s)
    (tracks : Tracks options d s m)
    (unread : s'.cursor.atEnd = false → s.cursor.atEnd = false) (within : s.within = some p)
    (kind : (s.tree.node p).kind = some k) (other : k ≠ .block)
    (tree : s'.tree = extendStart s'.options s'.document (s.tree.close p stop) p)
    (outside : s'.within = ((s.tree.close p stop).node p).parent) : Tracks options d s' m := by
  have same : s.tree.Retouched (s.tree.close p stop) := .close (by rw [kind]; simp) stop
  have different : (s.tree.node p).kind ≠ some .block := by
    rw [kind]
    exact fun equal => other (Option.some.inj equal)
  rw [extendStart_of_kind (by rw [same.kind]; exact different)] at tree
  rw [← tree] at same
  rw [← tree, same.parent] at outside
  refine tracks.quiet (same.keeps different ?_) (fun id _ => same.enclosing? id _) ?_
  · intro i other
    rw [tree, Tree.node_close_of_ne other]
  · intro more
    refine ⟨unread more, ?_⟩
    unfold blockPath
    simp only [same.kind]
    rw [steady.path_leave within same outside, List.filter_cons_of_neg (by simpa using different)]

/-- A turn that opens a region of another kind. -/
theorem Tracks.enter {o : Opening} (steady : Steady options d tokens s)
    (tracks : Tracks options d s m)
    (unread : s'.cursor.atEnd = false → s.cursor.atEnd = false) (within : s.within = some p)
    (kind : o.kind ≠ .block) (grown : s'.tree = s.tree.add p o)
    (inside : s'.within = some s.tree.nodes.size) : Tracks options d s' m := by
  have known := steady.known p within
  refine tracks.quiet ?_ ?_ ?_
  · rw [grown]
    exact Tree.keeps_add known kind
  · intro id old
    rw [grown]
    exact Tree.enclosing?_add_old known old
  · intro more
    rw [blockPath_enter known within grown inside, if_neg kind]
    exact ⟨unread more, rfl⟩

theorem map_getElem?_append {live blocks path : List Nat} (more : List Nat)
    (found : live.map (blocks[·]?) = path.map some) :
    live.map ((blocks ++ more)[·]?) = path.map some := by
  rw [← found]
  apply List.map_congr_left
  intro j member
  have listed : blocks[j]? ∈ path.map some := by
    rw [← found]
    exact List.mem_map_of_mem member
  obtain ⟨id, -, looked⟩ := List.mem_map.1 listed
  rw [← looked, Tree.getElem?_append_of_some more looked.symm]

/-- An opening brace opens a block and goes on the stack. -/
theorem Tracks.push {o : Opening} (steady : Steady options d tokens s)
    (tracks : Tracks options d s m) (within : s.within = some p) (more : s.cursor.atEnd = false)
    (brace : t.isPunctuation '\x7b' = true) (kind : o.kind = .block) (starts : o.start = t.start)
    (opener : o.opener = t.text) (grown : s'.tree = s.tree.add p o)
    (inside : s'.within = some s.tree.nodes.size) : Tracks options d s' (m.read t) := by
  have known := steady.known p within
  have blocks : s'.tree.ofKind .block = s.tree.ofKind .block ++ [s.tree.nodes.size] := by
    rw [grown, Tree.ofKind_add known, if_pos kind]
  have path : s'.blockPath = s.tree.nodes.size :: s.blockPath := by
    rw [blockPath_enter known within grown inside, if_pos kind]
    rfl
  have live := map_getElem?_append [s.tree.nodes.size] (tracks.live more)
  have read : m.read t = ⟨m.pairs ++ [⟨t, none, m.live.head?⟩], m.pairs.length :: m.live⟩ := by
    unfold BraceStack.read
    rw [if_pos brace]
  rw [read]
  refine ⟨?_, ?_, ?_⟩
  · rw [blocks, List.length_append, List.length_append, tracks.count]
    rfl
  · intro k id pair here looked
    rw [blocks, List.getElem?_append, tracks.count] at here
    rw [List.getElem?_append] at looked
    split at here
    next old =>
      rw [if_pos old] at looked
      have member := Tree.mem_ofKind.1 (List.mem_of_getElem? here)
      rw [grown]
      exact (tracks.pair k id pair here looked).add known member.1
    next new =>
      rw [if_neg new] at looked
      rw [List.mem_singleton.1 (List.mem_of_getElem? here),
        List.mem_singleton.1 (List.mem_of_getElem? looked), grown]
      apply Tree.isPair_new known starts opener
      rw [← grown, blocks, live, ← path_eq within]
      rfl
  · intro _
    rw [blocks, path, List.map_cons, List.map_cons, live,
      List.getElem?_append_right (by rw [tracks.count]), tracks.count, Nat.sub_self]
    rfl

/-- A closing brace completes the block being read and takes it off the stack. -/
theorem Tracks.pop (steady : Steady options d tokens s) (tracks : Tracks options d s m)
    (within : s.within = some p) (more : s.cursor.atEnd = false)
    (live : (s.tree.node p).complete = false) (kind : (s.tree.node p).kind = some .block)
    (other : t.isPunctuation '\x7b' = false) (brace : t.isPunctuation '\x7d' = true)
    (behind : ∀ pair ∈ m.pairs, pair.opening.start ≤ t.stop)
    (tree : s'.tree = extendStart options d (s.tree.close p t.stop) p)
    (outside : s'.within = (s.tree.node p).parent) : Tracks options d s' (m.read t) := by
  have known := steady.known p within
  have closed : s.tree.Retouched (s.tree.close p t.stop) := .close (by rw [kind]; simp) _
  have same : s.tree.Retouched s'.tree := by
    rw [tree]
    exact closed.trans (retouched_extendStart _ _ _ p)
  have path : s.blockPath = p :: s'.blockPath := by
    unfold blockPath
    simp only [same.kind]
    rw [steady.path_leave within same outside, List.filter_cons_of_pos (by rw [kind]; rfl)]
  -- the block being read is the top of the stack
  obtain ⟨top, below, stack, here, rest⟩ : ∃ top below, m.live = top :: below ∧
      (s.tree.ofKind .block)[top]? = some p ∧
      below.map ((s.tree.ofKind .block)[·]?) = s'.blockPath.map some := by
    have found := tracks.live more
    rw [path] at found
    cases stack : m.live with
    | nil =>
      rw [stack] at found
      cases found
    | cons top below =>
      rw [stack, List.map_cons, List.map_cons, List.cons.injEq] at found
      exact ⟨top, below, rfl, found.1, found.2⟩
  have read : m.read t =
      ⟨m.pairs.modify top fun pair => { pair with closing := some t }, below⟩ := by
    unfold BraceStack.read
    rw [if_neg (by rw [other]; exact Bool.false_ne_true), if_pos brace, stack]
  rw [read]
  refine ⟨?_, ?_, ?_⟩
  · rw [same.ofKind, List.length_modify, tracks.count]
  · intro k id pair' looked found
    rw [same.ofKind] at looked
    rw [List.getElem?_modify] at found
    obtain ⟨pair, before, rfl⟩ := Option.map_eq_some_iff.1 found
    have is := tracks.pair k id pair looked before
    by_cases hit : top = k
    · subst hit
      obtain rfl : id = p := Option.some.inj (looked.symm.trans here)
      rw [if_pos rfl, tree]
      exact is.close known kind live (behind pair (List.mem_of_getElem? before))
    · rw [if_neg hit]
      have differ : id ≠ p := by
        intro equal
        rw [equal, ← here] at looked
        have distinct := (s.tree.ofKind_pairwise .block).nodup
        exact hit ((List.getElem?_inj (List.getElem?_eq_some_iff.1 here).1 distinct).1
          looked.symm)
      refine is.congr ⟨(s.tree.node id).children, ?_⟩ (same.ofKind _) (same.enclosing? _ _)
      rw [tree, node_extendStart_of_ne differ, Tree.node_close_of_ne differ]
  · intro _
    rw [same.ofKind]
    exact rest

/-- A closing brace outside all blocks is ignored. -/
theorem Tracks.stray (steady : Steady options d tokens s) (tracks : Tracks options d s m)
    (within : s.within = some p) (more : s.cursor.atEnd = false)
    (root : (s.tree.node p).kind = none) (other : t.isPunctuation '\x7b' = false) :
    m.read t = m := by
  have path : s.blockPath = [] := by
    have zero := steady.rooted.eq_zero (steady.known p within) root
    unfold blockPath
    rw [path_eq within, zero, Tree.ancestors_of_none steady.rooted.root.2,
      List.filter_cons_of_neg (by rw [steady.rooted.root.1]; simp)]
    rfl
  have empty : m.live = [] := by
    have live := tracks.live more
    rw [path, List.map_nil, List.map_eq_nil_iff] at live
    exact live
  unfold BraceStack.read
  rw [if_neg (by rw [other]; exact Bool.false_ne_true), empty, ite_self]

end Tracks

/-! ## The run -/

theorem not_isBrace_of_category {t : Token} (category : t.category ≠ .punctuation) :
    t.isBrace = false := by
  unfold Token.isBrace Token.isPunctuation
  rw [beq_false_of_ne category]
  rfl

theorem not_isBrace_of_isKeyword {t : Token} (keyword : t.category.isKeyword = true) :
    t.isBrace = false := by
  apply not_isBrace_of_category
  intro mark
  rw [mark] at keyword
  cases keyword

theorem not_isBrace_of_isComment {t : Token} (comment : t.category.isComment = true) :
    t.isBrace = false := by
  apply not_isBrace_of_category
  intro mark
  rw [mark] at comment
  cases comment

theorem not_isBrace_of_head {t : Token} {c : Char} (head : t.text.head? = some c)
    (notOpening : c ≠ '\x7b') (notClosing : c ≠ '\x7d') : t.isBrace = false := by
  unfold Token.isBrace Token.isPunctuation
  rw [head]
  simp [notOpening, notClosing]

theorem closes_of_isPunctuation {t : Token} (brace : t.isPunctuation '\x7d' = true) :
    t.closes = true := by
  unfold Token.isPunctuation at brace
  rw [Bool.and_eq_true, beq_iff_eq, beq_iff_eq] at brace
  obtain ⟨rest, text⟩ := List.head?_eq_some_iff.1 brace.2
  unfold Token.closes
  rw [brace.1, text]
  simp

section Run

variable {options : ScanOptions} {d : Document} {tokens done rest : List Token} {s s' : Scan}
  {p : Nat}

/-- The stack that has read the same tokens as the scan belongs to it. -/
def InStep (options : ScanOptions) (d : Document) (s : Scan) : Prop :=
  ∃ done rest, s.cursor.Split done rest ∧ s.Tracks options d (.readAll done)

theorem inStep_turn (formed : Token.WellFormed d tokens)
    (closing : ∀ t ∈ tokens, t.closes = true → t.isPunctuation '\x7d' = true ∧
      t.start + Text.byteLength (t.text.takeWhile (· != '\x7d')) + 1 = t.stop)
    (without : ∀ t ∈ tokens, t.category ≠ .preprocessorKeyword)
    (labels : options.groupCases = true → labelsFree Token.isBrace tokens = true)
    (steady : Steady options d tokens s) (plain : Plain s) (inStep : InStep options d s)
    (turn : Turn s p s') : InStep options d s' := by
  obtain ⟨done, rest, split, tracks⟩ := inStep
  have formed' := steady.formed formed
  have unread := steady.unread formed.ordered turn
  have directive : ∀ {t : Token}, s.Hosts p t → t.category ≠ .preprocessorKeyword := by
    intro t hosts
    exact without t (steady.tokens ▸ Cursor.mem_of_token? hosts.token)
  have stay : s'.cursor = s.cursor → s'.Tracks options d (.readAll done) → InStep options d s' :=
    fun cursor tracks => ⟨done, rest, by rw [cursor]; exact split, tracks⟩
  have take : ∀ {t : Token}, s.cursor.token? = some t → s'.cursor = s.cursor.advance →
      s'.Tracks options d ((BraceStack.readAll done).read t) → InStep options d s' := by
    intro t token cursor tracks
    obtain ⟨later, rfl, -⟩ := split.of_token? formed' token
    refine ⟨done ++ [t], later, by rw [cursor]; exact split.advance_token formed' token, ?_⟩
    rw [BraceStack.readAll_concat]
    exact tracks
  have pass : ∀ {t : Token}, s.cursor.token? = some t → t.isBrace = false →
      s'.cursor = s.cursor.advance → s'.Tracks options d (.readAll done) →
        InStep options d s' := by
    intro t token plain cursor tracks
    refine take token cursor ?_
    rw [BraceStack.read_of_not_brace plain]
    exact tracks
  cases turn with
  | finish within ended =>
    rcases finishRun_cases s p with same | ⟨closed, run, -⟩
    · rw [same] at stay ⊢
      have tree : (s.leave p).tree = s.tree := extendStart_of_live (plain.region_live within)
      refine stay rfl (tracks.quiet (by rw [tree]; exact .refl _ _) (fun _ _ => by rw [tree]) ?_)
      intro more
      rw [show (s.leave p).cursor = s.cursor from rfl, ended] at more
      cases more
    · obtain ⟨k, kind, other, -⟩ := exists_kind_of_isRun run
      rw [closed] at stay unread ⊢
      exact stay rfl (tracks.close steady unread within kind other rfl rfl)
  | leave within _ complete =>
    rw [plain.region_live within] at complete
    cases complete
  | gap within more _ none =>
    exact ⟨done, rest, split.advance_gap formed' none more, tracks.still unread rfl rfl⟩
  | growComment reads kind comment =>
    refine pass reads.token (not_isBrace_of_isComment comment) rfl ?_
    exact tracks.update unread reads.within (by rw [kind]; simp)
      (.move _ _ _ _) rfl reads.within
  | bridge reads _ _ bridge =>
    refine pass reads.token (not_isBrace_of_category ?_) rfl (tracks.still unread rfl rfl)
    rw [category_of_isBridge bridge]
    exact Category.noConfusion
  | endComment reads kind _ =>
    exact stay rfl (tracks.close steady unread reads.within kind (by simp) rfl rfl)
  | giveBack reads kind _ =>
    exact stay rfl (tracks.close steady unread reads.within kind (by simp) rfl rfl)
  | sameLine reads _ plain _ =>
    exact pass reads.token plain rfl (tracks.still unread rfl rfl)
  | growImports reads kind _ keyword =>
    refine pass reads.token (not_isBrace_of_isKeyword (Token.category_isKeyword keyword)) rfl ?_
    exact tracks.update unread reads.within (by rw [kind]; simp)
      (.move _ _ _ _) rfl reads.within
  | endImports reads kind _ _ =>
    exact stay rfl (tracks.close steady unread reads.within kind (by simp) rfl rfl)
  | openBlock hosts brace =>
    exact take hosts.token rfl
      (tracks.push steady hosts.within hosts.more brace rfl rfl rfl rfl rfl)
  | openComment hosts comment _ =>
    exact pass hosts.token (not_isBrace_of_isComment comment) rfl
      (tracks.enter steady unread hosts.within (by simp) rfl rfl)
  | openImports hosts keyword =>
    exact pass hosts.token (not_isBrace_of_isKeyword (Token.category_isKeyword keyword)) rfl
      (tracks.enter steady unread hosts.within (by simp) rfl rfl)
  | openGroup hosts grouped starts found _ =>
    have free := labels (by rw [← steady.options]; exact grouped)
    rw [← steady.tokens] at free
    obtain ⟨skipped, later, cut, without⟩ := skipLabel_free formed' free split hosts.token starts
      found (not_isBrace_of_isKeyword (Token.category_isKeyword_of_startsLabel starts))
      fun _ _ head => not_isBrace_of_head head (by simp) (by simp)
    refine ⟨_, later, cut, ?_⟩
    rw [BraceStack.readAll_append_of_not_brace without]
    exact tracks.enter steady unread hosts.within (by simp) rfl rfl
  | endGroup hosts _ _ _ kind =>
    exact stay rfl (tracks.close steady unread hosts.within kind (by simp) rfl rfl)
  | switchGroup hosts _ _ _ notBlock near other =>
    exact absurd (plain.nearestGroup_eq steady hosts notBlock near) other
  | openArm hosts category _ => exact absurd category (directive hosts)
  | pendingArm hosts category _ _ => exact absurd category (directive hosts)
  | firstArm hosts category _ _ _ => exact absurd category (directive hosts)
  | endArm hosts category _ _ _ => exact absurd category (directive hosts)
  | switchArm hosts category _ _ _ _ => exact absurd category (directive hosts)
  | closeArm hosts category _ => exact absurd category (directive hosts)
  | @closeBlock t hosts other closes kind =>
    obtain ⟨brace, stops⟩ := closing t (steady.tokens ▸ Cursor.mem_of_token? hosts.token) closes
    refine take hosts.token rfl
      (tracks.pop steady hosts.within hosts.more hosts.live kind other brace ?_ ?_ ?_)
    · intro pair member
      have opening : pair.opening ∈ done.filter (·.isPunctuation '\x7b') := by
        rw [← BraceStack.map_opening_readAll]
        exact List.mem_map_of_mem member
      have before := split.behind _ (List.mem_of_mem_filter opening)
      rw [← Cursor.start_of_token? hosts.token] at before
      omega
    · rw [← stops, ← steady.options, ← steady.document, ← s.cursor.advance_document]
      rfl
    · exact (Tree.Retouched.close (by rw [kind]; simp) _).parent p
  | closeGroup hosts _ _ kind =>
    exact stay rfl (tracks.close steady unread hosts.within kind (by simp) rfl rfl)
  | @pass t hosts other ends _ =>
    refine take hosts.token rfl ?_
    have same : (BraceStack.readAll done).read t = .readAll done := by
      by_cases brace : t.isPunctuation '\x7d' = true
      · -- a closing brace that is passed stands outside all blocks
        have outside := ends (closes_of_isPunctuation brace)
        rcases plain.host_cases hosts with root | block | group
        · exact tracks.stray steady hosts.within hosts.more root other
        · exact absurd block outside.1
        · exact absurd group outside.2
      · apply BraceStack.read_of_not_brace
        unfold Token.isBrace
        rw [other, Bool.false_or]
        exact Bool.eq_false_iff.2 brace
    rw [same]
    exact tracks.still unread rfl rfl

end Run

end Scan

/-- Without directives, and with no brace inside a label, the blocks of a text in the order of
opening are the pairs of its braces: each opening brace has one, it is complete just when the
stack finds its closing brace, ends there, and lies in the block of the brace below it on the
stack. -/
theorem blocks_match_braces (options : ScanOptions) (d : Document)
    (without : ∀ t ∈ classify d.text, t.category ≠ .preprocessorKeyword)
    (labels : options.groupCases = true →
      labelsFree Token.isBrace (classify d.text) = true) :
    let tree := Tree.ofTokens options d (classify d.text)
    let pairs := matchBraces (classify d.text)
    pairs.map (·.opening) = (classify d.text).filter (·.isPunctuation '\x7b') ∧
      List.Forall₂ (tree.IsPair options d) (tree.ofKind .block) pairs := by
  refine ⟨BraceStack.map_opening_readAll _, ?_⟩
  have formed := classify_wellFormed d
  have turn : ∀ s p s', Scan.Steady options d (classify d.text) s →
      s.Plain ∧ s.InStep options d → s.within = some p → s.Turn p s' →
      s'.Plain ∧ s'.InStep options d := by
    intro s p s' steady ⟨plain, inStep⟩ within turn
    exact ⟨plain.turn steady within (plain.local_turn steady without turn),
      Scan.inStep_turn formed (fun t => classify_closing) without labels steady plain inStep turn⟩
  have start : (Scan.start options d (classify d.text)).Plain ∧
      (Scan.start options d (classify d.text)).InStep options d := by
    refine ⟨Scan.plain_start options d _, [], classify d.text, ?_, Scan.tracks_start options d _⟩
    exact (Scan.split_start options d _)
  obtain ⟨-, ⟨-, done, rest, split, tracks⟩, -, cut⟩ := Scan.finish_over formed turn start
  have all : done = classify d.text := split.done_eq.trans cut.done_eq.symm
  rw [all] at tracks
  refine List.forall₂_iff_get.2 ⟨tracks.count, ?_⟩
  intro k inBlocks inPairs
  exact tracks.pair k _ _ (List.getElem?_eq_getElem inBlocks) (List.getElem?_eq_getElem inPairs)

/-- Braces in comments, imports and labels between two nested blocks and a stray closing brace. -/
theorem blocks_match_braces_nested :
    let d := Document.ofText 0
      "f\n\x7b\n// \x7d\ncase 1:\n\x7b\nusing \x7b\x7d\x7d\n\x7d\x7d".toList
    let tree := Tree.ofTokens {} d (classify d.text)
    (tree.ofKind .block).length = 3 ∧
      List.Forall₂ (tree.IsPair {} d) (tree.ofKind .block) (matchBraces (classify d.text)) := by
  refine ⟨?_, (blocks_match_braces _ _ ?_ ?_).2⟩
  · decide +kernel
  · decide +kernel
  · decide +kernel

end CodeFolding
