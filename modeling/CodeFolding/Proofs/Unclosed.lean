import Mathlib
import CodeFolding.Proofs.Openings

/-!
# Regions that are never closed

A directive or a label may complete a region while regions inside it are still being read.  What
is read stays on one way up to the root all the same, and a step that leaves a region before the
end of the document leaves it complete.  So the regions that nothing closes lie inside each other.

* `Tree.Chained`: the open regions lie on one way up; every turn keeps this (`Scan.chained_turn`).
* `Scan.complete_of_left`: what a step leaves before the end of the document is complete.
* `unclosed_regions_nest`: what follows for the tree of a document.
-/

namespace CodeFolding

namespace Tree

/-- The open regions lie on the way up from one node. -/
def Chained (t : Tree) : Prop := ∃ leaf, ∀ i, (t.node i).isOpen = true → i ∈ t.ancestors leaf

theorem Retouched.chained {t t' : Tree} (same : Retouched t t') (chained : t.Chained) :
    t'.Chained := by
  obtain ⟨leaf, above⟩ := chained
  refine ⟨leaf, fun i live => ?_⟩
  rw [same.ancestors]
  exact above i (Scan.isOpen_of_retouched same live)

end Tree

namespace Scan

section Unclosed

variable {options : ScanOptions} {d : Document} {tokens : List Token} {s s' : Scan} {p i : Nat}

/-- A turn keeps the open regions on one way up: what it opens lies in the region being read, and
before the end of the document all open regions are around that one. -/
theorem chained_turn (ordered : Token.Ordered d tokens) (steady : Steady options d tokens s)
    (chained : s.tree.Chained) (within : s.within = some p) (turn : Turn s p s') :
    s'.tree.Chained := by
  obtain ⟨done, rest, split⟩ := steady.split
  have known := steady.known p within
  cases turn.effect (steady.ordered ordered) split known with
  | stay same _ _ _ => exact same.chained chained
  | leave same _ _ _ => exact same.chained chained
  | @enter t o same grown _ _ more _ =>
    have known' : p < t.nodes.size := by rw [same.size]; exact known
    refine ⟨t.nodes.size, fun i live => ?_⟩
    rw [grown] at live ⊢
    rw [Tree.ancestors_add_new known', same.ancestors, ← path_eq within]
    by_cases new : i = t.nodes.size
    · rw [new]
      exact List.mem_cons_self
    · rw [isOpen_add_old known' new] at live
      exact List.mem_cons_of_mem _ (steady.onPath more i (isOpen_of_retouched same live))

/-- A region that is complete stays so. -/
theorem complete_turn (ordered : Token.Ordered d tokens) (steady : Steady options d tokens s)
    (complete : (s.tree.node i).complete = true) (within : s.within = some p)
    (turn : Turn s p s') : (s'.tree.node i).complete = true := by
  obtain ⟨done, rest, split⟩ := steady.split
  have known := steady.known p within
  cases turn.effect (steady.ordered ordered) split known with
  | stay same _ _ _ => exact same.complete i complete
  | leave same _ _ _ => exact same.complete i complete
  | @enter t o same grown _ _ _ _ =>
    have old : i ≠ t.nodes.size := by
      intro new
      rw [new, same.size, Tree.node_of_le (Nat.le_refl _)] at complete
      cases complete
    obtain ⟨children, node⟩ :=
      Tree.exists_node_add (o := o) (by rw [same.size]; exact known) old
    rw [grown, node]
    exact same.complete i complete

/-- A region that a step leaves before the end of the document is complete. -/
theorem complete_of_left (ordered : Token.Ordered d tokens) (steady : Steady options d tokens s)
    (more : s.cursor.atEnd = false) (inside : i ∈ s.path) (outside : i ∉ s.step.path) :
    (s.step.tree.node i).complete = true := by
  cases within : s.within with
  | none =>
    rw [step_of_none within] at outside
    exact absurd inside outside
  | some p =>
    obtain ⟨done, rest, split⟩ := steady.split
    have known := steady.known p within
    cases (step_turn within).effect (steady.ordered ordered) split known with
    | stay same stays _ _ =>
      rw [path_stay within same stays] at outside
      exact absurd inside outside
    | enter same grown enters _ _ _ =>
      rw [path_enter within known same grown enters] at outside
      exact absurd (List.mem_cons_of_mem _ inside) outside
    | leave same leaves complete _ =>
      rw [steady.path_leave within same leaves] at inside
      rcases List.mem_cons.1 inside with rfl | around
      · exact complete more
      · exact absurd around outside

/-- More steps behind any number of steps lead to the end of the scan. -/
theorem steps_finish (ended : (start options d tokens).finish.within = none) (n : Nat) :
    steps (2 * d.length + 1) (steps n (start options d tokens)) =
      (start options d tokens).finish := by
  rw [← steps_add, Nat.add_comm, steps_add]
  exact steps_of_none ended n

end Unclosed

end Scan

/-- Of two regions that are not complete one lies inside the other, and a region that a step of
the scan leaves before the end of the document is complete, whatever happened to the regions
around it. -/
theorem unclosed_regions_nest (options : ScanOptions) (d : Document) (tokens : List Token)
    (formed : Token.WellFormed d tokens) :
    let tree := Tree.ofTokens options d tokens
    let run := fun n => Scan.steps n (.start options d tokens)
    (∀ i j, 0 < i → i < tree.nodes.size → 0 < j → j < tree.nodes.size →
      (tree.node i).complete = false → (tree.node j).complete = false →
      i ∈ tree.ancestors j ∨ j ∈ tree.ancestors i) ∧
    ∀ n i, (run n).cursor.atEnd = false → i ∈ (run n).path → i ∉ (run (n + 1)).path →
      (tree.node i).complete = true := by
  intro tree run
  have ordered := formed.ordered
  have empty : Tree.empty.Chained := by
    refine ⟨0, fun i live => ?_⟩
    rw [Tree.node_empty] at live
    cases live
  obtain ⟨steady, ⟨leaf, above⟩, ended, -⟩ := Scan.ordered_finish_over ordered
    (P := fun s => s.tree.Chained)
    (fun s _ _ (steady : s.Steady options d tokens) chained within turn =>
      Scan.chained_turn ordered steady chained within turn)
    empty
  refine ⟨?_, ?_⟩
  · intro i j positive known positive' known' live live'
    have isOpen : ∀ id, 0 < id → id < tree.nodes.size → (tree.node id).complete = false →
        (tree.node id).isOpen = true := by
      intro id positive known live
      have region : (tree.node id).kind.isSome = true :=
        (steady.rooted.region id positive known).1
      rw [Node.isOpen, region, live]
      rfl
    exact Tree.mem_ancestors_total (above i (isOpen i positive known live))
      (above j (isOpen j positive' known' live'))
  · intro n i more inside outside
    have next : run (n + 1) = (run n).step := Scan.steps_add n 1 _
    rw [next] at outside
    have left := Scan.complete_of_left ordered (Scan.steady_steps ordered n) more inside outside
    rw [← next] at left
    obtain ⟨-, complete⟩ := Scan.ordered_steps_induction ordered
      (P := fun s => (s.tree.node i).complete = true)
      (fun _ _ _ steady complete within turn =>
        Scan.complete_turn ordered steady complete within turn)
      (Scan.steady_steps ordered (n + 1)) left (2 * d.length + 1)
    rw [Scan.steps_finish ended] at complete
    exact complete

/-- A block that a closing brace ends behind the end of the arm around it is complete when the
scan leaves it, and of two blocks that nothing closes one lies inside the other. -/
theorem unclosed_regions_nest_arm :
    let d := Document.ofText 0 "#if A\n\x7b\n#endif\n\x7d\n\x7b\x7b".toList
    let tokens := classify d.text
    let tree := Tree.ofTokens {} d tokens
    let run := fun n => Scan.steps n (.start {} d tokens)
    Token.WellFormed d tokens ∧
      ((run 4).cursor.atEnd = false ∧ (run 4).path = [2, 1, 0] ∧ (run 5).path = [1, 0] ∧
        ((run 4).tree.node 1).complete = true ∧ (tree.node 2).complete = true) ∧
      (tree.node 3).complete = false ∧ (tree.node 4).complete = false ∧
        (3 ∈ tree.ancestors 4 ∨ 4 ∈ tree.ancestors 3) := by
  intro d tokens tree run
  have formed := classify_wellFormed d
  obtain ⟨nest, left⟩ := unclosed_regions_nest {} d tokens formed
  have more : (run 4).cursor.atEnd = false := by decide +kernel
  have inside : (run 4).path = [2, 1, 0] := by decide +kernel
  have outside : (run 5).path = [1, 0] := by decide +kernel
  have size : tree.nodes.size = 5 := by decide +kernel
  have third : (tree.node 3).complete = false := by decide +kernel
  have fourth : (tree.node 4).complete = false := by decide +kernel
  have complete : (tree.node 2).complete = true :=
    left 4 2 more (inside ▸ by decide) (outside ▸ by decide)
  refine ⟨formed, ⟨more, inside, outside, by decide +kernel, complete⟩, third, fourth, ?_⟩
  exact nest 3 4 (by decide) (size ▸ by decide) (by decide) (size ▸ by decide) third fourth

end CodeFolding
