import Mathlib
import CodeFolding.Proofs.Nesting

/-!
# Groups and the blocks inside them

A label that stands directly in a block ends no group.  In any other region it ends the nearest
open group around it, and the way up to that group may lead out of a block: a label in an arm of a
conditional ends the group of an outer switch, whose block goes on.

* `Tree.ArmHolds`: what such a label leaves in the tree, a group directly in an arm inside the
  block.
* `Tree.GroupsEnd`: a block of a complete group ends before the group does, or it is of this kind.
* `block_stop_le_group_stop_iff`: a block ends with its group at the latest exactly if no arm
  inside it holds a group behind the end of that group.
-/

namespace CodeFolding

namespace Tree

/-- An arm inside a region directly holds a group that starts at a place or behind it. -/
def ArmHolds (t : Tree) (region place : Nat) : Prop :=
  ∃ arm group, region ∈ t.ancestors arm ∧ (t.node arm).kind = some .conditional ∧
    group ∈ (t.node arm).children ∧ (t.node group).kind = some .caseGroup ∧
    place ≤ (t.node group).start

/-- A block in a complete group is complete and ends with the group at the latest, unless an arm
inside it holds a group behind the end. -/
def GroupsEnd (t : Tree) : Prop :=
  ∀ group block, (t.node group).kind = some .caseGroup → (t.node group).complete = true →
    block ∈ (t.node group).children → (t.node block).kind = some .block →
    (t.node block).complete = true ∧ (t.node block).stop ≤ (t.node group).stop ∨
      t.ArmHolds block (t.node group).stop

/-! ## Changes that leave bodies alone -/

/-- Groups and open blocks keep their starts, and complete blocks their ends. -/
structure Settles (t t' : Tree) : Prop where
  retouched : t.Retouched t'
  start : ∀ i, (t.node i).kind = some .caseGroup → (t'.node i).start = (t.node i).start
  brace : ∀ i, (t.node i).kind = some .block → (t'.node i).complete = false →
    (t'.node i).start = (t.node i).start
  stop : ∀ i, (t.node i).kind = some .block → (t.node i).complete = true →
    (t'.node i).stop = (t.node i).stop

/-- No block and no group is completed. -/
structure KeepsBodies (t t' : Tree) : Prop extends Settles t t' where
  block : ∀ i, (t.node i).kind = some .block → (t'.node i).complete = true →
    (t.node i).complete = true
  group : ∀ i, (t.node i).kind = some .caseGroup → (t'.node i).complete = true →
    (t.node i).complete = true ∧ (t'.node i).stop = (t.node i).stop

section Changes

variable {t t' t'' : Tree} {o : Opening} {id p region place : Nat}

theorem KeepsBodies.refl (t : Tree) : KeepsBodies t t where
  retouched := .refl t
  start := fun _ _ => rfl
  brace := fun _ _ _ => rfl
  stop := fun _ _ _ => rfl
  block := fun _ _ complete => complete
  group := fun _ _ complete => ⟨complete, rfl⟩

theorem Settles.trans (first : Settles t t') (second : Settles t' t'') : Settles t t'' where
  retouched := first.retouched.trans second.retouched
  start := by
    intro i kind
    have kind' := (first.retouched.kind i).trans kind
    exact (second.start i kind').trans (first.start i kind)
  brace := by
    intro i kind live
    have kind' := (first.retouched.kind i).trans kind
    have live' : (t'.node i).complete = false := by
      by_contra complete
      rw [second.retouched.complete i (by simpa using complete)] at live
      cases live
    exact (second.brace i kind' live).trans (first.brace i kind live')
  stop := by
    intro i kind complete
    have kind' := (first.retouched.kind i).trans kind
    exact (second.stop i kind' (first.retouched.complete i complete)).trans
      (first.stop i kind complete)

theorem KeepsBodies.trans (first : KeepsBodies t t') (second : KeepsBodies t' t'') :
    KeepsBodies t t'' where
  toSettles := first.toSettles.trans second.toSettles
  block := by
    intro i kind complete
    exact first.block i kind
      (second.block i ((first.retouched.kind i).trans kind) complete)
  group := by
    intro i kind complete
    obtain ⟨before, stop⟩ := second.group i ((first.retouched.kind i).trans kind) complete
    obtain ⟨before', stop'⟩ := first.group i kind before
    exact ⟨before', stop.trans stop'⟩

/-- A change of a region that is neither a block nor a group. -/
theorem keepsBodies_update {f : Node → Node} (kept : Kept (t.node id) (f (t.node id)))
    (notBlock : (t.node id).kind ≠ some .block) (notGroup : (t.node id).kind ≠ some .caseGroup) :
    KeepsBodies t (t.update id f) := by
  have others : ∀ i, (t.node i).kind = some .block ∨ (t.node i).kind = some .caseGroup →
      (t.update id f).node i = t.node i := by
    intro i kind
    apply node_update_of_ne
    rintro rfl
    rcases kind with block | group
    · exact notBlock block
    · exact notGroup group
  refine ⟨⟨.update kept, ?_, ?_, ?_⟩, ?_, ?_⟩
  · intro i kind
    rw [others i (Or.inr kind)]
  · intro i kind _
    rw [others i (Or.inl kind)]
  · intro i kind _
    rw [others i (Or.inl kind)]
  · intro i kind complete
    rw [others i (Or.inl kind)] at complete
    exact complete
  · intro i kind complete
    rw [others i (Or.inr kind)] at complete ⊢
    exact ⟨complete, rfl⟩

theorem keepsBodies_close {kind : RegionKind} (region : (t.node id).kind = some kind)
    (notBlock : kind ≠ .block) (notGroup : kind ≠ .caseGroup) (stop : Nat) :
    KeepsBodies t (t.close id stop) := by
  refine keepsBodies_update (.close (by rw [region]; simp) _) ?_ ?_
  · rw [region]
    exact fun same => notBlock (Option.some.inj same)
  · rw [region]
    exact fun same => notGroup (Option.some.inj same)

theorem keepsBodies_extendStart (options : ScanOptions) (d : Document) (t : Tree) (id : Nat) :
    KeepsBodies t (extendStart options d t id) := by
  rcases Scan.extendStart_cases options d t id with same | ⟨n, -, header, -, -, -, moved⟩
  · rw [same]
    exact .refl t
  · obtain ⟨block, whole⟩ := Scan.of_hasHeader header
    rw [moved]
    refine ⟨⟨.update (.move _ _ _ _), ?_, ?_, ?_⟩, ?_, ?_⟩
    · intro i kind
      rcases node_update_cases t id _ i with same | ⟨rfl, -⟩
      · rw [same]
      · rw [block] at kind
        cases kind
    · intro i _ live
      rcases node_update_cases t id _ i with same | ⟨rfl, changed⟩
      · rw [same]
      · rw [changed] at live
        rw [whole] at live
        cases live
    · intro i _ _
      rcases node_update_cases t id _ i with same | ⟨rfl, changed⟩
      · rw [same]
      · rw [changed]
    · intro i _ complete
      rcases node_update_cases t id _ i with same | ⟨rfl, changed⟩
      · rw [same] at complete
        exact complete
      · rw [changed] at complete
        exact complete
    · intro i kind complete
      rcases node_update_cases t id _ i with same | ⟨rfl, -⟩
      · rw [same] at complete ⊢
        exact ⟨complete, rfl⟩
      · rw [block] at kind
        cases kind

/-- Completing a region that is open leaves the other bodies alone. -/
theorem settles_close (region : (t.node id).kind ≠ none) (live : (t.node id).complete = false)
    (stop : Nat) : Settles t (t.close id stop) := by
  have start : ∀ i, ((t.close id stop).node i).start = (t.node i).start := by
    intro i
    unfold Tree.close
    rcases node_update_cases t id _ i with same | ⟨here, changed⟩
    · rw [same]
    · rw [changed, here]
  refine ⟨.close region stop, fun i _ => start i, fun i _ _ => start i, ?_⟩
  · intro i _ complete
    apply congrArg Node.stop
    apply node_close_of_ne
    rintro rfl
    rw [live] at complete
    cases complete

/-- Completing a group completes no block. -/
theorem block_of_close {group i : Nat} (kind : (t.node group).kind = some .caseGroup) {stop : Nat}
    (block : (t.node i).kind = some .block)
    (complete : ((t.close group stop).node i).complete = true) : (t.node i).complete = true := by
  have other : i ≠ group := by
    rintro rfl
    rw [kind] at block
    cases block
  rw [node_close_of_ne other] at complete
  exact complete

/-! ## What arms hold -/

theorem ArmHolds.settles (holds : t.ArmHolds region place) (settles : Settles t t') :
    t'.ArmHolds region place := by
  obtain ⟨arm, group, inside, kind, child, kind', behind⟩ := holds
  have same := settles.retouched
  refine ⟨arm, group, ?_, ?_, ?_, ?_, ?_⟩
  · rw [same.ancestors]
    exact inside
  · rw [same.kind]
    exact kind
  · rw [same.children]
    exact child
  · rw [same.kind]
    exact kind'
  · rw [settles.start group kind']
    exact behind

theorem known_of_kind {kind : RegionKind} (region : (t.node id).kind = some kind) :
    id < t.nodes.size := by
  by_contra past
  rw [node_of_le (Nat.le_of_not_lt past)] at region
  cases region

theorem ArmHolds.add (holds : t.ArmHolds region place) (known : p < t.nodes.size) :
    (t.add p o).ArmHolds region place := by
  obtain ⟨arm, group, inside, kind, child, kind', behind⟩ := holds
  have old := known_of_kind kind
  have old' := known_of_kind kind'
  obtain ⟨children, same⟩ := exists_node_add (o := o) known (Nat.ne_of_lt old')
  refine ⟨arm, group, ?_, ?_, ?_, ?_, ?_⟩
  · rw [ancestors_add_old known old]
    exact inside
  · rw [kind_add known (Nat.ne_of_lt old)]
    exact kind
  · rw [children_add known]
    split
    next => exact List.mem_append_left _ child
    next => exact child
  · rw [same]
    exact kind'
  · rw [same]
    exact behind

/-- A group opened in an arm is held by it. -/
theorem armHolds_add (known : p < t.nodes.size) (inside : region ∈ t.ancestors p)
    (arm : (t.node p).kind = some .conditional) (group : o.kind = .caseGroup)
    (behind : place ≤ o.start) : (t.add p o).ArmHolds region place := by
  refine ⟨p, t.nodes.size, ?_, ?_, ?_, ?_, ?_⟩
  · rw [ancestors_add_old known known]
    exact inside
  · rw [kind_add known (Nat.ne_of_lt known)]
    exact arm
  · rw [children_add known, if_pos rfl]
    exact List.mem_append_right _ List.mem_cons_self
  · rw [node_add_new known]
    exact congrArg some group
  · rw [node_add_new known]
    exact behind

/-- A region opened in a live region leaves the complete groups and their blocks alone. -/
theorem GroupsEnd.add (ends : t.GroupsEnd) (rooted : Rooted t) (known : p < t.nodes.size)
    (live : (t.node p).complete = false) : (t.add p o).GroupsEnd := by
  intro group block kind complete child kind'
  have new : group ≠ t.nodes.size := by
    rintro rfl
    rw [node_add_new known] at complete
    cases complete
  obtain ⟨children, same⟩ := exists_node_add (o := o) known new
  rw [same] at kind complete
  have other : group ≠ p := by
    rintro rfl
    rw [live] at complete
    cases complete
  rw [children_add known, if_neg other] at child
  have old := rooted.children_lt child
  obtain ⟨children', same'⟩ := exists_node_add (o := o) known (Nat.ne_of_lt old)
  rw [same'] at kind'
  rw [same, same']
  rcases ends group block kind complete child kind' with before | holds
  · exact Or.inl before
  · exact Or.inr (holds.add known)

/-- Where no group is completed, groups and their blocks stay as they are. -/
theorem GroupsEnd.settles (ends : t.GroupsEnd) (settles : Settles t t')
    (none : ∀ i, (t.node i).kind = some .caseGroup → (t'.node i).complete = true →
      (t.node i).complete = true ∧ (t'.node i).stop = (t.node i).stop) : t'.GroupsEnd := by
  intro group block kind complete child kind'
  have same := settles.retouched
  rw [same.kind] at kind kind'
  rw [same.children] at child
  obtain ⟨before, stop⟩ := none group kind complete
  rw [stop]
  rcases ends group block kind before child kind' with ⟨complete, le⟩ | holds
  · refine Or.inl ⟨same.complete block complete, ?_⟩
    rw [settles.stop block kind' complete]
    exact le
  · exact Or.inr (holds.settles settles)

/-- A group that is completed has to answer for its own blocks. -/
theorem GroupsEnd.close {group stop : Nat} (ends : t.GroupsEnd)
    (kind : (t.node group).kind = some .caseGroup) (live : (t.node group).complete = false)
    (own : ∀ block ∈ (t.node group).children, (t.node block).kind = some .block →
      (t.node block).complete = true ∧ (t.node block).stop ≤ stop ∨
        t.ArmHolds block (max stop (t.node group).start)) :
    (t.close group stop).GroupsEnd := by
  have settles := settles_close (by rw [kind]; simp) live stop
  have same := settles.retouched
  intro other block kind₁ complete child kind₂
  rw [same.kind] at kind₁ kind₂
  rw [same.children] at child
  by_cases here : other = group
  · subst here
    rw [node_close_self (known_of_kind kind)]
    rcases own block child kind₂ with ⟨complete', le⟩ | holds
    · refine Or.inl ⟨same.complete block complete', ?_⟩
      rw [settles.stop block kind₂ complete']
      exact Nat.le_trans le (Nat.le_max_left _ _)
    · exact Or.inr (holds.settles settles)
  · rw [node_close_of_ne here] at complete ⊢
    rcases ends other block kind₁ complete child kind₂ with ⟨complete', le⟩ | holds
    · refine Or.inl ⟨same.complete block complete', ?_⟩
      rw [settles.stop block kind₂ complete']
      exact le
    · exact Or.inr (holds.settles settles)

/-- Completing an old region and opening a new one commute. -/
theorem close_add {group stop : Nat} (other : group ≠ p) (known : group < t.nodes.size) :
    (t.close group stop).add p o = (t.add p o).close group stop := by
  unfold Tree.close Tree.add Tree.update Tree.nextId
  dsimp only
  congr 1
  apply Array.ext_getElem?
  intro i
  simp only [Array.getElem?_modify, Array.getElem?_push, Array.size_modify]
  by_cases here : i = group
  · subst here
    simp [other.symm, Nat.ne_of_lt known]
  · by_cases there : i = p
    · subst there
      simp [Ne.symm here]
    · simp [Ne.symm here, Ne.symm there]

end Changes

end Tree

namespace Scan

/-! ## Bodies during a scan -/

/-- The token is still ahead of the scan. -/
def Ahead (d : Document) (s : Scan) (u : Token) : Prop :=
  u ∈ classify d.text ∧ s.cursor.position ≤ u.start

/-- Groups start before the code ahead, and blocks end before it; the blocks being read are open,
and groups start before the end of a block around them. -/
structure Bodies (d : Document) (s : Scan) : Prop where
  braces : ∀ i, (s.tree.node i).kind = some .block → (s.tree.node i).complete = false →
    (s.tree.node i).start ≤ s.cursor.position
  starts : ∀ i, (s.tree.node i).kind = some .caseGroup → ∀ u, s.Ahead d u →
    u.category.isComment = false → (s.tree.node i).start ≤ u.start
  live : ∀ i ∈ s.path, (s.tree.node i).kind = some .block → (s.tree.node i).complete = false
  stops : ∀ i, (s.tree.node i).kind = some .block → (s.tree.node i).complete = true →
    ∀ u, s.Ahead d u → (s.tree.node i).stop ≤ d.endBefore u.start
  around : ∀ block group, (s.tree.node block).kind = some .block →
    (s.tree.node block).complete = true → block ∈ s.tree.ancestors group →
    (s.tree.node group).kind = some .caseGroup →
    (s.tree.node group).start < (s.tree.node block).stop

theorem bodies_start (options : ScanOptions) (d : Document) (tokens : List Token) :
    Bodies d (start options d tokens) := by
  have tree : (start options d tokens).tree = Tree.empty := rfl
  refine ⟨?_, ?_, ?_, ?_, ?_⟩
  all_goals
    rw [tree]
    intro i
    rw [Tree.node_empty]
  · exact fun kind => absurd kind (by simp [Node.root])
  · exact fun kind => absurd kind (by simp [Node.root])
  · exact fun _ kind => absurd kind (by simp [Node.root])
  · exact fun kind => absurd kind (by simp [Node.root])
  · exact fun _ kind => absurd kind (by simp [Node.root])

section Bodies

variable {options : ScanOptions} {d : Document} {s s' : Scan} {p : Nat} {u : Token} {t : Tree}

theorem Ahead.of_le (ahead : s'.Ahead d u)
    (forward : s.cursor.position ≤ s'.cursor.position) : s.Ahead d u :=
  ⟨ahead.1, Nat.le_trans forward ahead.2⟩

/-- A turn that opens nothing stays on the way up from its region. -/
theorem Steady.path_subset (steady : Steady options d (classify d.text) s)
    (within : s.within = some p) (turn : Turn s p s')
    (size : s'.tree.nodes.size = s.tree.nodes.size) : ∀ i ∈ s'.path, i ∈ s.path := by
  obtain ⟨done, rest, split⟩ := steady.split
  have ordered := (classify_wellFormed d).ordered
  intro i member
  cases turn.effect (steady.ordered ordered) split (steady.known p within) with
  | stay same inside _ _ =>
    rw [path_stay within same inside] at member
    exact member
  | enter same grown _ _ _ _ =>
    rw [grown, Tree.nodes_size_add, same.size] at size
    omega
  | leave same outside _ _ =>
    rw [steady.path_leave within same outside]
    exact List.mem_cons_of_mem _ member

/-- The block has been left, behind the groups in it and before the code ahead. -/
structure Over (d : Document) (s : Scan) (block : Nat) : Prop where
  outside : block ∉ s.path
  stops : ∀ u, s.Ahead d u → (s.tree.node block).stop ≤ d.endBefore u.start
  around : ∀ group, block ∈ s.tree.ancestors group →
    (s.tree.node group).kind = some .caseGroup →
    (s.tree.node group).start < (s.tree.node block).stop

/-- Bodies stay as they are, where only blocks are completed that are over. -/
theorem Bodies.settles (bodies : Bodies d s) (settles : s.tree.Settles s'.tree)
    (blocks : ∀ i, (s.tree.node i).kind = some .block → (s'.tree.node i).complete = true →
      (s.tree.node i).complete = true ∨ Over d s' i)
    (path : ∀ i ∈ s'.path, i ∈ s.path)
    (forward : s.cursor.position ≤ s'.cursor.position) : Bodies d s' := by
  have same := settles.retouched
  refine ⟨?_, ?_, ?_, ?_, ?_⟩
  · intro i kind live
    rw [same.kind] at kind
    have before : (s.tree.node i).complete = false := by
      by_contra complete
      rw [same.complete i (by simpa using complete)] at live
      cases live
    rw [settles.brace i kind live]
    exact Nat.le_trans (bodies.braces i kind before) forward
  · intro i kind u ahead code
    rw [same.kind] at kind
    rw [settles.start i kind]
    exact bodies.starts i kind u (ahead.of_le forward) code
  · intro i member kind
    rw [same.kind] at kind
    by_contra complete
    rcases blocks i kind (by simpa using complete) with before | ended
    · rw [bodies.live i (path i member) kind] at before
      cases before
    · exact ended.outside member
  · intro i kind complete u ahead
    rw [same.kind] at kind
    rcases blocks i kind complete with before | ended
    · rw [settles.stop i kind before]
      exact bodies.stops i kind before u (ahead.of_le forward)
    · exact ended.stops u ahead
  · intro block group kind complete inside kind'
    rw [same.kind] at kind
    rcases blocks block kind complete with before | ended
    · rw [same.kind] at kind'
      rw [same.ancestors] at inside
      rw [settles.stop block kind before, settles.start group kind']
      exact bodies.around block group kind before inside kind'
    · exact ended.around group inside kind'

/-- A region opened in the region being read joins the bodies. -/
theorem Bodies.add {o : Opening} (bodies : Bodies d s) (within : s.within = some p)
    (known : p < s.tree.nodes.size) (grown : s'.tree = s.tree.add p o)
    (inside : s'.within = some s.tree.nodes.size)
    (forward : s.cursor.position ≤ s'.cursor.position)
    (braces : o.kind = .block → o.start ≤ s'.cursor.position)
    (starts : o.kind = .caseGroup → ∀ u, s'.Ahead d u → u.category.isComment = false →
      o.start ≤ u.start) : Bodies d s' := by
  have path := path_enter within known (.refl _) grown inside
  have old : ∀ i, i ≠ s.tree.nodes.size →
      ∃ children, s'.tree.node i = { s.tree.node i with children } := by
    intro i other
    rw [grown]
    exact Tree.exists_node_add known other
  have new : s'.tree.node s.tree.nodes.size = o.node p := by
    rw [grown]
    exact Tree.node_add_new known
  refine ⟨?_, ?_, ?_, ?_, ?_⟩
  · intro i kind live
    by_cases here : i = s.tree.nodes.size
    · rw [here, new] at kind ⊢
      exact braces (Option.some.inj kind)
    · obtain ⟨children, node⟩ := old i here
      rw [node] at kind live ⊢
      exact Nat.le_trans (bodies.braces i kind live) forward
  · intro i kind u ahead code
    by_cases here : i = s.tree.nodes.size
    · rw [here, new] at kind ⊢
      exact starts (Option.some.inj kind) u ahead code
    · obtain ⟨children, node⟩ := old i here
      rw [node] at kind ⊢
      exact bodies.starts i kind u (ahead.of_le forward) code
  · intro i member kind
    by_cases here : i = s.tree.nodes.size
    · rw [here, new]
      rfl
    · obtain ⟨children, node⟩ := old i here
      rw [node] at kind ⊢
      rw [path] at member
      exact bodies.live i ((List.mem_cons.1 member).resolve_left here) kind
  · intro i kind complete u ahead
    by_cases here : i = s.tree.nodes.size
    · rw [here, new] at complete
      cases complete
    · obtain ⟨children, node⟩ := old i here
      rw [node] at kind complete ⊢
      exact bodies.stops i kind complete u (ahead.of_le forward)
  · intro block group kind complete above kind'
    have notNew : block ≠ s.tree.nodes.size := by
      rintro rfl
      rw [new] at complete
      cases complete
    obtain ⟨children, node⟩ := old block notNew
    rw [node] at kind complete
    by_cases here : group = s.tree.nodes.size
    · -- the blocks around a new group are being read, so they are open
      rw [here, grown, Tree.ancestors_add_new known] at above
      have member := (List.mem_cons.1 above).resolve_left notNew
      rw [← path_eq within] at member
      rw [bodies.live block member kind] at complete
      cases complete
    · obtain ⟨children', node'⟩ := old group here
      rw [node'] at kind'
      rw [grown, Tree.ancestors_add_old known (Tree.known_of_kind kind')] at above
      rw [node, node']
      exact bodies.around block group kind complete above kind'

/-- Before a region is opened, others may be completed. -/
theorem Bodies.enter {o : Opening} (steady : Steady options d (classify d.text) s)
    (bodies : Bodies d s) (within : s.within = some p) (settles : s.tree.Settles t)
    (none : ∀ i, (s.tree.node i).kind = some .block → (t.node i).complete = true →
      (s.tree.node i).complete = true)
    (grown : s'.tree = t.add p o) (inside : s'.within = some s.tree.nodes.size)
    (forward : s.cursor.position ≤ s'.cursor.position)
    (braces : o.kind = .block → o.start ≤ s'.cursor.position)
    (starts : o.kind = .caseGroup → ∀ u, s'.Ahead d u → u.category.isComment = false →
      o.start ≤ u.start) : Bodies d s' := by
  have same := settles.retouched
  have path : Scan.path { s with tree := t } = s.path := path_stay within same within
  have between : Bodies d { s with tree := t } := by
    refine bodies.settles settles (fun i kind complete => Or.inl (none i kind complete)) ?_
      (Nat.le_refl _)
    rw [path]
    exact fun _ member => member
  refine between.add within ?_ grown ?_ forward braces starts
  · exact same.size.symm ▸ steady.known p within
  · rw [inside, same.size]

/-! ## Turns -/

/-- What the invariant says of a state. -/
structure Labelled (d : Document) (s : Scan) : Prop where
  bodies : Bodies d s
  ends : s.tree.GroupsEnd

theorem Labelled.quiet (steady : Steady options d (classify d.text) s) (labelled : Labelled d s)
    (within : s.within = some p) (turn : Turn s p s') (keeps : s.tree.KeepsBodies s'.tree)
    (forward : s.cursor.position ≤ s'.cursor.position) : Labelled d s' where
  bodies := labelled.bodies.settles keeps.toSettles
    (fun i kind complete => Or.inl (keeps.block i kind complete))
    (steady.path_subset within turn keeps.retouched.size) forward
  ends := labelled.ends.settles keeps.toSettles keeps.group

theorem Labelled.enter {o : Opening} (steady : Steady options d (classify d.text) s)
    (labelled : Labelled d s) (within : s.within = some p)
    (live : (s.tree.node p).complete = false) (keeps : s.tree.KeepsBodies t)
    (sameLive : (t.node p).complete = (s.tree.node p).complete)
    (grown : s'.tree = t.add p o) (inside : s'.within = some s.tree.nodes.size)
    (forward : s.cursor.position ≤ s'.cursor.position)
    (braces : o.kind = .block → o.start ≤ s'.cursor.position)
    (starts : o.kind = .caseGroup → ∀ u, s'.Ahead d u → u.category.isComment = false →
      o.start ≤ u.start) : Labelled d s' where
  bodies := labelled.bodies.enter steady within keeps.toSettles keeps.block grown inside forward
    braces starts
  ends := by
    have same := keeps.retouched
    have known := steady.known p within
    rw [grown]
    exact (labelled.ends.settles keeps.toSettles keeps.group).add (same.rooted steady.rooted)
      (by rw [same.size]; exact known) (sameLive.trans live)

theorem Hosts.ahead (hosts : s.Hosts p u) (steady : Steady options d (classify d.text) s) :
    s.Ahead d u := by
  refine ⟨?_, Nat.le_of_eq (Cursor.start_of_token? hosts.token).symm⟩
  rw [← steady.tokens]
  exact Cursor.mem_of_token? hosts.token

/-- A group that ends while it is read holds complete blocks only, and they end before the code
ahead. -/
theorem Labelled.endGroup (steady : Steady options d (classify d.text) s)
    (labelled : Labelled d s) (hosts : s.Hosts p u)
    (turn : Turn s p ((s.close p (s.document.endBefore u.start)).leave p))
    (kind : (s.tree.node p).kind = some .caseGroup) :
    Labelled d ((s.close p (s.document.endBefore u.start)).leave p) := by
  have document : s.document = d := steady.document
  have closed : s.tree.Settles (s.tree.close p (s.document.endBefore u.start)) :=
    Tree.settles_close (by rw [kind]; simp) hosts.live _
  have moved := Tree.keepsBodies_extendStart s.options s.document
    (s.tree.close p (s.document.endBefore u.start)) p
  have settles := closed.trans moved.toSettles
  constructor
  · refine labelled.bodies.settles settles ?_
      (steady.path_subset hosts.within turn settles.retouched.size) (Nat.le_refl _)
    intro i kind' complete
    have kind'' := (closed.retouched.kind i).trans kind'
    exact Or.inl (Tree.block_of_close kind kind' (moved.block i kind'' complete))
  · refine (labelled.ends.close kind hosts.live ?_).settles moved.toSettles moved.group
    intro block child kind'
    have complete := steady.children_complete hosts.within hosts.more child
    rw [document]
    exact Or.inl ⟨complete, labelled.bodies.stops block kind' complete u (hosts.ahead steady)⟩

/-- A block that is completed ends behind the groups in it and before the code ahead. -/
theorem Labelled.closeBlock (steady : Steady options d (classify d.text) s)
    (labelled : Labelled d s) (hosts : s.Hosts p u) (closes : u.closes = true)
    (turn : Turn s p ((s.close p
      (u.start + Text.byteLength (u.text.takeWhile (· != '\x7d')) + 1)).advance.leave p))
    (kind : (s.tree.node p).kind = some .block) :
    Labelled d ((s.close p
      (u.start + Text.byteLength (u.text.takeWhile (· != '\x7d')) + 1)).advance.leave p) := by
  have formed := steady.formed (classify_wellFormed d)
  have ahead := hosts.ahead steady
  have member := ahead.1
  have code : u.category.isComment = false := by
    rw [Token.category_of_closes closes]
    rfl
  have known := steady.known p hosts.within
  have width := (classify_wellFormed d).nonempty u member
  obtain ⟨-, brace⟩ := classify_closing member closes
  rw [brace] at turn ⊢
  have position : ((s.close p u.stop).advance.leave p).cursor.position = u.stop :=
    Cursor.advance_position_of_token? formed.ordered hosts.token
  have forward : s.cursor.position ≤ ((s.close p u.stop).advance.leave p).cursor.position := by
    rw [position]
    exact Nat.le_trans ahead.2 (Nat.le_of_lt width)
  have closed : s.tree.Settles (s.tree.close p u.stop) :=
    Tree.settles_close (by rw [kind]; simp) hosts.live _
  have moved := Tree.keepsBodies_extendStart s.options s.cursor.advance.document
    (s.tree.close p u.stop) p
  have settles : s.tree.Settles ((s.close p u.stop).advance.leave p).tree :=
    closed.trans moved.toSettles
  have same := settles.retouched
  have stop : (((s.close p u.stop).advance.leave p).tree.node p).stop = u.stop := by
    have complete : ((s.tree.close p u.stop).node p).complete = true := by
      rw [Tree.node_close_self known]
    refine (moved.stop p ((closed.retouched.kind p).trans kind) complete).trans ?_
    rw [Tree.node_close_self known]
    have opened := labelled.bodies.braces p kind hosts.live
    exact Nat.max_eq_left (Nat.le_trans opened (Nat.le_trans ahead.2 (Nat.le_of_lt width)))
  have path : s.path = p :: ((s.close p u.stop).advance.leave p).path :=
    steady.path_leave hosts.within same (closed.retouched.parent p)
  have ended : Over d ((s.close p u.stop).advance.leave p) p := by
    refine ⟨?_, ?_, ?_⟩
    · intro above
      have falls := Tree.ancestors_pairwise s.tree p
      rw [← path_eq hosts.within, path] at falls
      exact Nat.lt_irrefl p ((List.pairwise_cons.1 falls).1 p above)
    · intro v ahead'
      rw [stop]
      rcases classify_endsVisibly member with visible | last
      · exact visible.le_endBefore (position ▸ ahead'.2)
      · have := (classify_wellFormed d).start_lt_length ahead'.1
        have := position ▸ ahead'.2
        omega
    · intro group _ kind'
      rw [same.kind] at kind'
      rw [stop, settles.start group kind']
      exact Nat.lt_of_le_of_lt (labelled.bodies.starts group kind' u ahead code) width
  constructor
  · refine labelled.bodies.settles settles ?_
      (steady.path_subset hosts.within turn same.size) forward
    intro i kind' complete
    by_cases here : i = p
    · rw [here]
      exact Or.inr ended
    · have before := moved.block i ((closed.retouched.kind i).trans kind') complete
      rw [Tree.node_close_of_ne here] at before
      exact Or.inl before
  · refine labelled.ends.settles settles ?_
    intro i kind' complete
    have kind'' := (closed.retouched.kind i).trans kind'
    obtain ⟨complete', stop'⟩ := moved.group i kind'' complete
    have other : i ≠ p := by
      rintro rfl
      rw [kind] at kind'
      cases kind'
    rw [Tree.node_close_of_ne other] at complete' stop'
    exact ⟨complete', stop'⟩

/-- A new group starts between its keyword and the code behind its label. -/
theorem groupStart_le_ahead {colon : Nat} (steady : Steady options d (classify d.text) s)
    (hosts : s.Hosts p u) (found : s.cursor.labelColon? = some colon)
    (cursor : s'.cursor =
      s.cursor.skipTo (((s.cursor.tokens[colon]?).map Token.stop).getD u.stop)) :
    u.start ≤ s.groupStart u colon ∧
      ∀ v, s'.Ahead d v → v.category.isComment = false → s.groupStart u colon ≤ v.start := by
  obtain ⟨done, rest, split⟩ := steady.split
  obtain ⟨label, mark, later, rfl, -, place, -, -, -, cut, -, -⟩ :=
    skipLabel (steady.formed (classify_wellFormed d)) split hosts.token found
  obtain ⟨low, -, -, high⟩ := groupStart_bounds steady split place
  refine ⟨low, ?_⟩
  intro v ahead code
  refine high v ?_ code
  have listed : v ∈ done ++ (u :: label ++ [mark]) ++ later := by
    rw [← cut.tokens, (Moved.label hosts.token found).same.2, steady.tokens]
    exact ahead.1
  rcases List.mem_append.1 listed with taken | left
  · have behind := cut.behind v taken
    have ahead' := ahead.2
    rw [cursor] at ahead'
    omega
  · exact left

/-- The region that reads a label and is neither a block nor the group that ends is an arm. -/
theorem kind_of_switchGroup {group : Nat} (hosts : s.Hosts p u)
    (steady : Steady options d (classify d.text) s)
    (notBlock : (s.tree.node p).kind ≠ some .block)
    (near : s.tree.nearestOpen? p (·.kind == some .caseGroup) = some group) (other : group ≠ p) :
    (s.tree.node p).kind = some .conditional := by
  have host := hosts.host
  unfold Node.isRun at host
  rw [Bool.or_eq_false_iff, beq_eq_false_iff_ne, beq_eq_false_iff_ne] at host
  cases kind : (s.tree.node p).kind with
  | none =>
    have above := Tree.le_of_mem_ancestors (Tree.of_nearestOpen? near).1
    have root := steady.rooted.eq_zero (steady.known p hosts.within) kind
    omega
  | some own =>
    cases own with
    | block => exact absurd kind notBlock
    | comment => exact absurd kind host.1
    | importRun => exact absurd kind host.2
    | conditional => rfl
    | caseGroup =>
      have self : s.tree.nearestOpen? p (·.kind == some .caseGroup) = some p := by
        apply Tree.nearestOpen?_self
        · unfold Node.isOpen
          rw [kind, hosts.live]
          rfl
        · rw [kind]
          rfl
      rw [self] at near
      exact absurd (Option.some.inj near).symm other

/-- A label in an arm ends the nearest group.  Of the blocks in that group one may still be read:
then the arm is inside it, and holds the new group. -/
theorem Labelled.switchGroup {colon group : Nat} (steady : Steady options d (classify d.text) s)
    (labelled : Labelled d s) (hosts : s.Hosts p u) (starts : u.startsLabel = true)
    (found : s.cursor.labelColon? = some colon) (notBlock : (s.tree.node p).kind ≠ some .block)
    (near : s.tree.nearestOpen? p (·.kind == some .caseGroup) = some group) (other : group ≠ p)
    (forward : s.cursor.position ≤
      ((s.close group (s.document.endBefore u.start)).openGroup p u colon).cursor.position) :
    Labelled d ((s.close group (s.document.endBefore u.start)).openGroup p u colon) := by
  obtain ⟨above, live, kind⟩ := Tree.of_nearestOpen? near
  have kind : (s.tree.node group).kind = some .caseGroup := by simpa using kind
  have live : (s.tree.node group).complete = false := by
    unfold Node.isOpen at live
    rw [Bool.and_eq_true, Bool.not_eq_true'] at live
    exact live.2
  have arm := kind_of_switchGroup hosts steady notBlock near other
  have known := steady.known p hosts.within
  have knownGroup := Tree.known_of_kind kind
  have code := not_isComment_of_isKeyword (Token.category_isKeyword_of_startsLabel starts)
  have ahead := hosts.ahead steady
  have document : s.document = d := steady.document
  obtain ⟨low, high⟩ : u.start ≤ s.groupStart u colon ∧
      ∀ v, ((s.close group (s.document.endBefore u.start)).openGroup p u colon).Ahead d v →
        v.category.isComment = false → s.groupStart u colon ≤ v.start :=
    groupStart_le_ahead steady hosts found rfl
  have settles := Tree.settles_close (by rw [kind]; simp) live (s.document.endBefore u.start)
  constructor
  · exact labelled.bodies.enter steady hosts.within settles
      (fun _ block complete => Tree.block_of_close kind block complete) rfl
      (congrArg some settles.retouched.size) forward nofun fun _ => high
  · show ((s.tree.close group (s.document.endBefore u.start)).add p
      { kind := .caseGroup, start := s.groupStart u colon, opener := u.text }).GroupsEnd
    rw [Tree.close_add other knownGroup]
    have old := Tree.node_add_of_ne
      (o := { kind := .caseGroup, start := s.groupStart u colon, opener := u.text })
      (Nat.ne_of_lt knownGroup) other
    refine (labelled.ends.add steady.rooted known hosts.live).close ?_ ?_ ?_
    · rw [old]
      exact kind
    · rw [old]
      exact live
    · intro block child kind'
      rw [old] at child ⊢
      have oldBlock := steady.rooted.children_lt child
      obtain ⟨children, same⟩ := Tree.exists_node_add
        (o := { kind := .caseGroup, start := s.groupStart u colon, opener := u.text })
        known (Nat.ne_of_lt oldBlock)
      rw [same] at kind' ⊢
      cases complete : (s.tree.node block).complete with
      | true =>
        left
        rw [document]
        exact ⟨rfl, labelled.bodies.stops block kind' complete u ahead⟩
      | false =>
        right
        have region : (s.tree.node block).isOpen = true := by
          unfold Node.isOpen
          rw [kind', complete]
          rfl
        have around := steady.onPath hosts.more block region
        rw [path_eq hosts.within] at around
        have before := s.document.endBefore_le u.start
        have first := labelled.bodies.starts group kind u ahead code
        exact Tree.armHolds_add known around arm rfl
          (Nat.max_le.2 ⟨Nat.le_trans before low, Nat.le_trans first low⟩)

theorem keepsBodies_finishRun (s : Scan) (p : Nat) :
    s.tree.KeepsBodies ((s.finishRun p).leave p).tree := by
  have left := Tree.keepsBodies_extendStart (s.finishRun p).options (s.finishRun p).document
    (s.finishRun p).tree p
  refine Tree.KeepsBodies.trans ?_ left
  rcases finishRun_cases s p with same | ⟨closed, run, -⟩
  · rw [same]
    exact .refl _
  · rw [closed]
    unfold Node.isRun at run
    rw [Bool.or_eq_true, beq_iff_eq, beq_iff_eq] at run
    rcases run with kind | kind
    · exact Tree.keepsBodies_close kind (by simp) (by simp) _
    · exact Tree.keepsBodies_close kind (by simp) (by simp) _

/-- A region that is neither a block nor a group is completed and left. -/
theorem keepsBodies_close_leave {kind : RegionKind} {s s' : Scan} {stop : Nat}
    (region : (s.tree.node p).kind = some kind) (notBlock : kind ≠ .block)
    (notGroup : kind ≠ .caseGroup)
    (tree : s'.tree = extendStart s'.options s'.document (s.tree.close p stop) p) :
    s.tree.KeepsBodies s'.tree := by
  rw [tree]
  exact (Tree.keepsBodies_close region notBlock notGroup stop).trans
    (Tree.keepsBodies_extendStart _ _ _ _)

theorem kind_of_isArmOf {n : Node} {names : List String} (arm : n.isArmOf names = true) :
    n.kind = some .conditional := by
  unfold Node.isArmOf at arm
  rw [Bool.and_eq_true, beq_iff_eq] at arm
  exact arm.1

/-- An arm that is closed from inside. -/
theorem keepsBodies_closeArm {names : List String} {arm : Nat} {t : Tree}
    (near : t.nearestOpen? p (·.isArmOf names) = some arm) (stop : Nat) :
    t.KeepsBodies (t.close arm stop) :=
  Tree.keepsBodies_close (kind_of_isArmOf (Tree.of_nearestOpen? near).2.2) (by simp) (by simp)
    stop

theorem Labelled.turn (steady : Steady options d (classify d.text) s) (labelled : Labelled d s)
    (turn : Turn s p s') : Labelled d s' := by
  have ordered := (classify_wellFormed d).ordered
  obtain ⟨done, rest, split⟩ := steady.split
  obtain ⟨-, forward⟩ := turn.moved.split (steady.ordered ordered) split
  cases turn with
  | finish within ended =>
    exact labelled.quiet steady within (.finish within ended) (keepsBodies_finishRun s p) forward
  | leave within more complete =>
    exact labelled.quiet steady within (.leave within more complete)
      (Tree.keepsBodies_extendStart _ _ _ _) forward
  | gap within more live none =>
    exact labelled.quiet steady within (.gap within more live none) (.refl _) forward
  | growComment reads kind comment =>
    refine labelled.quiet steady reads.within (.growComment reads kind comment) ?_ forward
    exact Tree.keepsBodies_update (.move _ _ _ _) (by rw [kind]; simp) (by rw [kind]; simp)
  | bridge reads kind other bridge =>
    exact labelled.quiet steady reads.within (.bridge reads kind other bridge) (.refl _) forward
  | endComment reads kind other =>
    exact labelled.quiet steady reads.within (.endComment reads kind other)
      (keepsBodies_close_leave kind (by simp) (by simp) rfl) forward
  | giveBack reads kind brace =>
    exact labelled.quiet steady reads.within (.giveBack reads kind brace)
      (keepsBodies_close_leave kind (by simp) (by simp) rfl) forward
  | sameLine reads kind other behind =>
    exact labelled.quiet steady reads.within (.sameLine reads kind other behind) (.refl _) forward
  | growImports reads kind leads keyword =>
    refine labelled.quiet steady reads.within (.growImports reads kind leads keyword) ?_ forward
    exact Tree.keepsBodies_update (.move _ _ _ _) (by rw [kind]; simp) (by rw [kind]; simp)
  | endImports reads kind other leads =>
    exact labelled.quiet steady reads.within (.endImports reads kind other leads)
      (keepsBodies_close_leave kind (by simp) (by simp) rfl) forward
  | openBlock hosts brace =>
    refine labelled.enter steady hosts.within hosts.live (.refl _) rfl rfl rfl forward ?_ nofun
    intro _
    rw [← Cursor.start_of_token? hosts.token] at forward
    exact forward
  | openComment hosts comment leads =>
    exact labelled.enter steady hosts.within hosts.live (.refl _) rfl rfl rfl forward nofun nofun
  | openImports hosts keyword =>
    exact labelled.enter steady hosts.within hosts.live (.refl _) rfl rfl rfl forward nofun nofun
  | openGroup hosts grouped starts found free =>
    exact labelled.enter steady hosts.within hosts.live (.refl _) rfl rfl rfl forward nofun
      fun _ => (groupStart_le_ahead steady hosts found rfl).2
  | endGroup hosts grouped starts found kind =>
    exact labelled.endGroup steady hosts (.endGroup hosts grouped starts found kind) kind
  | switchGroup hosts grouped starts found notBlock near other =>
    exact labelled.switchGroup steady hosts starts found notBlock near other forward
  | openArm hosts category opens =>
    exact labelled.enter steady hosts.within hosts.live (.refl _) rfl rfl rfl forward nofun nofun
  | pendingArm hosts category switches pending =>
    exact labelled.enter steady hosts.within hosts.live (.refl _) rfl rfl rfl forward nofun nofun
  | firstArm hosts category switches fresh none =>
    exact labelled.enter steady hosts.within hosts.live (.refl _) rfl rfl rfl forward nofun nofun
  | endArm hosts category switches fresh near =>
    exact labelled.quiet steady hosts.within (.endArm hosts category switches fresh near)
      (keepsBodies_close_leave (kind_of_isArmOf (Tree.of_nearestOpen? near).2.2) (by simp)
        (by simp) rfl) forward
  | @switchArm u arm hosts category switches fresh near other =>
    have keeps := keepsBodies_closeArm near (s.document.endBefore u.start)
    exact labelled.enter steady hosts.within hosts.live keeps
      (by rw [Tree.node_close_of_ne (Ne.symm other)]) rfl
      (congrArg some keeps.retouched.size) forward nofun nofun
  | closeArm hosts category ends =>
    refine labelled.quiet steady hosts.within (.closeArm hosts category ends) ?_ forward
    unfold Scan.closeArm
    split
    next near => exact keepsBodies_closeArm near _
    next => exact .refl _
  | closeBlock hosts plain closes kind =>
    exact labelled.closeBlock steady hosts closes (.closeBlock hosts plain closes kind) kind
  | closeGroup hosts plain closes kind =>
    exact labelled.endGroup steady hosts (.closeGroup hosts plain closes kind) kind
  | pass hosts plain other silent =>
    exact labelled.quiet steady hosts.within (.pass hosts plain other silent) (.refl _) forward

end Bodies

end Scan

/-- A complete block in a complete group ends with the group at the latest exactly if no arm
inside the block directly holds a group that starts at the end of the outer one or behind it: only
a label in such an arm ends the group while the block goes on. -/
theorem block_stop_le_group_stop_iff (options : ScanOptions) (d : Document) :
    let tree := Tree.ofTokens options d (classify d.text)
    ∀ group block, (tree.node group).kind = some .caseGroup →
      (tree.node group).complete = true → block ∈ (tree.node group).children →
      (tree.node block).kind = some .block → (tree.node block).complete = true →
      ((tree.node block).stop ≤ (tree.node group).stop ↔
        ∀ arm inner, block ∈ tree.ancestors arm → (tree.node arm).kind = some .conditional →
          inner ∈ (tree.node arm).children → (tree.node inner).kind = some .caseGroup →
          (tree.node inner).start < (tree.node group).stop) := by
  have start : Scan.Labelled d (.start options d (classify d.text)) := by
    refine ⟨Scan.bodies_start options d _, ?_⟩
    intro group block kind
    rw [show (Scan.start options d (classify d.text)).tree = Tree.empty from rfl,
      Tree.node_empty] at kind
    cases kind
  obtain ⟨steady, labelled, -, -⟩ := Scan.finish_over (classify_wellFormed d)
    (fun _ _ _ steady labelled _ turn => Scan.Labelled.turn steady labelled turn) start
  intro tree group block kind complete child kind' complete'
  constructor
  · intro le arm inner inside conditional held inner'
    have child' : (tree.node inner).parent = some arm := (steady.rooted.child arm inner held).2.2
    have below := (steady.rooted.parent_lt child').1
    have around : block ∈ tree.ancestors inner := by
      rw [Tree.ancestors_of_some child' below]
      exact List.mem_cons_of_mem _ inside
    exact Nat.lt_of_lt_of_le
      (labelled.bodies.around block inner kind' complete' around inner') le
  · intro none
    rcases labelled.ends group block kind complete child kind' with ⟨-, le⟩ | holds
    · exact le
    · obtain ⟨arm, inner, inside, conditional, held, inner', behind⟩ := holds
      exact absurd (none arm inner inside conditional held inner') (Nat.not_lt.2 behind)

/-- An arm without labels inside a block does not come between the block and its group. -/
theorem block_stop_le_group_stop_iff_arm :
    let d := Document.ofText 0 "\x7b case 1: \x7b\n#if A\n#endif\n\x7d\ncase 2: \x7d".toList
    let tree := Tree.ofTokens {} d (classify d.text)
    ((tree.node 2).kind = some .caseGroup ∧ (tree.node 2).complete = true ∧
      3 ∈ (tree.node 2).children ∧ (tree.node 3).kind = some .block ∧
      (tree.node 3).complete = true) ∧ (tree.node 3).stop ≤ (tree.node 2).stop := by
  intro d tree
  have group : (tree.node 2).kind = some .caseGroup ∧ (tree.node 2).complete = true ∧
      3 ∈ (tree.node 2).children := by decide +kernel
  have block : (tree.node 3).kind = some .block ∧ (tree.node 3).complete = true := by
    decide +kernel
  refine ⟨⟨group.1, group.2.1, group.2.2, block⟩, ?_⟩
  rw [block_stop_le_group_stop_iff {} d 2 3 group.1 group.2.1 group.2.2 block.1 block.2]
  intro arm inner _ conditional held _
  have empty : ∀ i < tree.nodes.size, (tree.node i).kind = some .conditional →
      (tree.node i).children = [] := by decide +kernel
  rw [show ((Tree.ofTokens {} d (classify d.text)).node arm).children = [] from
    empty arm (Tree.known_of_kind conditional) conditional] at held
  exact absurd held List.not_mem_nil

/-- A label in an arm of an inner switch ends the group of the outer one, which the block of the
inner switch then outlasts. -/
theorem label_in_arm_ends_outer_group :
    let text :=
      "switch (x)\n\x7b\ncase 1:\nswitch (y)\n\x7b\n#if A\ncase 2:\n#endif\n\x7d\ncase 3:\n\x7d"
    let d := Document.ofText 0 text.toList
    let tree := Tree.ofTokens {} d (classify d.text)
    (tree.node 2).kind = some .caseGroup ∧ (tree.node 2).complete = true ∧
      3 ∈ (tree.node 2).children ∧ (tree.node 3).kind = some .block ∧
      (tree.node 3).complete = true ∧ (tree.node 2).stop < (tree.node 3).stop := by
  decide +kernel

end CodeFolding
