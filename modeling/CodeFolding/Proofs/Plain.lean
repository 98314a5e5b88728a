import Mathlib
import CodeFolding.Proofs.Runs

/-!
# Scans without directives

Without directives a turn changes no region but the one being read, and it completes that region
just when it leaves it (`Scan.Local`).  So no region on the way up from the one being read is
complete (`Scan.Plain`), and a label ends the group it stands in and no other.
-/

namespace CodeFolding

/-- A closing brace of a text is one byte wide. -/
theorem classify_closing {d : Document} {t : Token} (member : t ∈ classify d.text)
    (closes : t.closes = true) : t.isPunctuation '\x7d' = true ∧
      t.start + Text.byteLength (t.text.takeWhile (· != '\x7d')) + 1 = t.stop := by
  unfold Token.closes at closes
  rw [Bool.and_eq_true, decide_eq_true_eq] at closes
  obtain ⟨front, rest, -, starts, stops, lexed⟩ := classify_around member
  obtain ⟨c, text⟩ := lexed.single closes.1
  have brace : c = '\x7d' := by
    have held := closes.2
    rw [text] at held
    exact (by simpa using held : '\x7d' = c).symm
  rw [brace] at text
  refine ⟨?_, ?_⟩
  · unfold Token.isPunctuation
    rw [closes.1, text]
    rfl
  · rw [Text.byteLength_append, starts, text] at stops
    rw [text, ← stops]
    rfl

namespace Scan

/-- What a turn does that leaves all regions alone but the one being read. -/
inductive Local (s : Scan) (p : Nat) (s' : Scan) : Prop
  | stay :
    s.tree.Retouched s'.tree → (∀ i, i ≠ p → s'.tree.node i = s.tree.node i) →
    (s'.tree.node p).complete = (s.tree.node p).complete → s'.within = some p → Local s p s'
  | enter {o : Opening} :
    s'.tree = s.tree.add p o → o.kind ≠ .conditional → s'.within = some s.tree.nodes.size →
    Local s p s'
  | leave :
    s.tree.Retouched s'.tree → (∀ i, i ≠ p → s'.tree.node i = s.tree.node i) →
    s'.within = (s.tree.node p).parent → Local s p s'

/-- A state of a scan that has met no directive. -/
structure Plain (s : Scan) : Prop where
  kinds : ∀ i, (s.tree.node i).kind ≠ some .conditional
  live : ∀ i ∈ s.path, (s.tree.node i).complete = false

section Plain

variable {options : ScanOptions} {d : Document} {tokens : List Token} {s s' : Scan} {p : Nat}
  {t : Token}

theorem plain_start (options : ScanOptions) (d : Document) (tokens : List Token) :
    Plain (start options d tokens) := by
  have tree : (start options d tokens).tree = Tree.empty := rfl
  refine ⟨?_, ?_⟩
  · intro i
    rw [tree, Tree.node_empty]
    exact fun kind => nomatch kind
  · intro i _
    rw [tree, Tree.node_empty]
    rfl

theorem Plain.region_live (plain : Plain s) (within : s.within = some p) :
    (s.tree.node p).complete = false := by
  apply plain.live
  rw [path_eq within, Tree.ancestors]
  exact List.mem_cons_self

/-- Without directives the region that holds others is the root, a block or a group. -/
theorem Plain.host_cases (plain : Plain s) (hosts : s.Hosts p t) :
    (s.tree.node p).kind = none ∨ (s.tree.node p).kind = some .block ∨
      (s.tree.node p).kind = some .caseGroup := by
  have host := hosts.host
  have kinds := plain.kinds p
  unfold Node.isRun at host
  cases kind : (s.tree.node p).kind with
  | none => exact Or.inl rfl
  | some k =>
    rw [kind] at host kinds
    cases k with
    | block => exact Or.inr (Or.inl rfl)
    | comment => cases host
    | conditional => exact absurd rfl kinds
    | importRun => cases host
    | caseGroup => exact Or.inr (Or.inr rfl)

/-- A label that stands in a group ends that group. -/
theorem Plain.nearestGroup_eq (steady : Steady options d tokens s) (plain : Plain s)
    (hosts : s.Hosts p t) (notBlock : (s.tree.node p).kind ≠ some .block) {group : Nat}
    (near : s.tree.nearestOpen? p (·.kind == some .caseGroup) = some group) : group = p := by
  rcases plain.host_cases hosts with root | block | kind
  · have zero := steady.rooted.eq_zero (steady.known p hosts.within) root
    have member := (Tree.of_nearestOpen? near).1
    rw [zero, Tree.ancestors_of_none steady.rooted.root.2] at member
    rw [List.mem_singleton.1 member, zero]
  · exact absurd block notBlock
  · rw [Tree.nearestOpen?_self (by rw [Node.isOpen, kind, hosts.live]; rfl)
      (by rw [kind]; rfl)] at near
    exact (Option.some.inj near).symm

theorem local_close_leave {stop : Nat} (region : (s.tree.node p).kind ≠ none)
    (tree : s'.tree = extendStart s'.options s'.document (s.tree.close p stop) p)
    (within : s'.within = ((s.tree.close p stop).node p).parent) : Local s p s' := by
  have closed := Tree.Retouched.close region stop
  refine .leave ?_ ?_ ?_
  · rw [tree]
    exact closed.trans (retouched_extendStart _ _ _ p)
  · intro i other
    rw [tree, node_extendStart_of_ne other, Tree.node_close_of_ne other]
  · rw [within, closed.parent]

theorem local_update {f : Node → Node} (known : p < s.tree.nodes.size)
    (kept : Tree.Kept (s.tree.node p) (f (s.tree.node p)))
    (complete : (f (s.tree.node p)).complete = (s.tree.node p).complete)
    (tree : s'.tree = s.tree.update p f) (inside : s'.within = some p) : Local s p s' := by
  refine .stay ?_ ?_ ?_ inside
  · rw [tree]
    exact .update kept
  · intro i other
    rw [tree, Tree.node_update_of_ne other]
  · rw [tree, Tree.node_update_self known, complete]

/-- Without directives every turn leaves all regions alone but the one being read. -/
theorem Plain.local_turn (steady : Steady options d tokens s) (plain : Plain s)
    (without : ∀ u ∈ tokens, u.category ≠ .preprocessorKeyword) (turn : Turn s p s') :
    Local s p s' := by
  have directive : ∀ {t : Token}, s.Hosts p t → t.category ≠ .preprocessorKeyword := by
    intro t hosts
    exact without t (steady.tokens ▸ Cursor.mem_of_token? hosts.token)
  cases turn with
  | finish within _ =>
    rcases finishRun_cases s p with same | ⟨closed, run, -⟩
    · rw [same]
      have still : (s.leave p).tree = s.tree := extendStart_of_live (plain.region_live within)
      refine .leave ?_ ?_ rfl
      · rw [still]
        exact .refl _
      · intro i _
        rw [still]
    · rw [closed]
      exact local_close_leave (kind_ne_none_of_isRun run) rfl rfl
  | leave within _ complete =>
    rw [plain.region_live within] at complete
    cases complete
  | gap within _ _ _ => exact .stay (.refl _) (fun _ _ => rfl) rfl within
  | growComment reads _ _ =>
    exact local_update (steady.known p reads.within)
      (.move _ _ _ _) rfl rfl reads.within
  | bridge reads _ _ _ => exact .stay (.refl _) (fun _ _ => rfl) rfl reads.within
  | endComment _ kind _ => exact local_close_leave (by rw [kind]; simp) rfl rfl
  | giveBack _ kind _ => exact local_close_leave (by rw [kind]; simp) rfl rfl
  | sameLine reads _ _ _ => exact .stay (.refl _) (fun _ _ => rfl) rfl reads.within
  | growImports reads _ _ _ =>
    exact local_update (steady.known p reads.within)
      (.move _ _ _ _) rfl rfl reads.within
  | endImports _ kind _ _ => exact local_close_leave (by rw [kind]; simp) rfl rfl
  | openBlock _ _ => exact .enter rfl (by simp) rfl
  | openComment _ _ _ => exact .enter rfl (by simp) rfl
  | openImports _ _ => exact .enter rfl (by simp) rfl
  | openGroup _ _ _ _ _ => exact .enter rfl (by simp) rfl
  | endGroup _ _ _ _ kind => exact local_close_leave (by rw [kind]; simp) rfl rfl
  | switchGroup hosts _ _ _ notBlock near other =>
    exact absurd (plain.nearestGroup_eq steady hosts notBlock near) other
  | openArm hosts category _ => exact absurd category (directive hosts)
  | pendingArm hosts category _ _ => exact absurd category (directive hosts)
  | firstArm hosts category _ _ _ => exact absurd category (directive hosts)
  | endArm hosts category _ _ _ => exact absurd category (directive hosts)
  | switchArm hosts category _ _ _ _ => exact absurd category (directive hosts)
  | closeArm hosts category _ => exact absurd category (directive hosts)
  | closeBlock _ _ _ kind => exact local_close_leave (by rw [kind]; simp) rfl rfl
  | closeGroup _ _ _ kind => exact local_close_leave (by rw [kind]; simp) rfl rfl
  | pass hosts _ _ _ => exact .stay (.refl _) (fun _ _ => rfl) rfl hosts.within

theorem Plain.turn (steady : Steady options d tokens s) (plain : Plain s)
    (within : s.within = some p) (change : Local s p s') : Plain s' := by
  have known := steady.known p within
  cases change with
  | stay same others complete inside =>
    refine ⟨fun i => by rw [same.kind]; exact plain.kinds i, ?_⟩
    intro i member
    rw [path_stay within same inside] at member
    by_cases here : i = p
    · rw [here, complete]
      exact plain.region_live within
    · rw [others i here]
      exact plain.live i member
  | @enter o grown kind inside =>
    have path := path_enter within known (.refl _) grown inside
    refine ⟨?_, ?_⟩
    · intro i
      rw [grown]
      by_cases new : i = s.tree.nodes.size
      · rw [new, Tree.node_add_new known]
        exact fun same => kind (Option.some.inj same)
      · rw [Tree.kind_add known new]
        exact plain.kinds i
    · intro i member
      rw [path] at member
      rw [grown]
      rcases List.mem_cons.1 member with rfl | member
      · rw [Tree.node_add_new known]
        rfl
      · have bound : i < s.tree.nodes.size := by
          rw [path_eq within] at member
          exact Nat.lt_of_le_of_lt (Tree.le_of_mem_ancestors member) known
        obtain ⟨children, node⟩ := Tree.exists_node_add (o := o) known (Nat.ne_of_lt bound)
        rw [node]
        exact plain.live i member
  | leave same others outside =>
    have path := steady.path_leave within same outside
    refine ⟨fun i => by rw [same.kind]; exact plain.kinds i, ?_⟩
    intro i member
    -- the region that is left stands on the way up only once
    have falling := Tree.ancestors_pairwise s.tree p
    rw [← path_eq within, path] at falling
    have below := (List.pairwise_cons.1 falling).1 i member
    rw [others i (Nat.ne_of_lt below)]
    apply plain.live
    rw [path]
    exact List.mem_cons_of_mem _ member

end Plain

end Scan

end CodeFolding
