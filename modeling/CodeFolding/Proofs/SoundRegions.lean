import Mathlib
import CodeFolding.Outline
import CodeFolding.Proofs.Runs

/-!
# Regions are sound

On a well-formed stream every region starts and stops at boundaries between characters, and a
complete one does not stop before it starts, wherever its bounds come from: tokens, lines, the
place just before a token, a start that moved up (`Tree.Placed`).

* `Scan.Placed`: a new region costs a byte at least, so there are no more regions than bytes.
* `flattenWork_sound`: regions that are placed can be listed.
* `outline_sound`: the outline of a document that is small enough exists, its regions are sound,
  and no number on the way leaves its word.
-/

namespace CodeFolding

/-! ## Where regions stand -/

/-- The region stands between boundaries of the document, and if it is complete it does not stop
before it starts. -/
structure Node.Placed (d : Document) (n : Node) : Prop where
  start : d.Boundary n.start
  stop : d.Boundary n.stop
  ordered : n.complete = true → n.start ≤ n.stop

namespace Tree

/-- Every region is placed. -/
def Placed (d : Document) (t : Tree) : Prop := ∀ i, (t.node i).Placed d

namespace Placed

variable {d : Document} {t : Tree} {o : Opening} {id p : Nat}

theorem empty (d : Document) : Placed d Tree.empty := by
  intro i
  rw [node_empty]
  exact ⟨d.boundary_zero, d.boundary_zero, fun complete => nomatch complete⟩

theorem update {f : Node → Node} (placed : Placed d t) (changed : (f (t.node id)).Placed d) :
    Placed d (t.update id f) := by
  intro i
  rcases node_update_cases t id f i with same | ⟨-, here⟩
  · rw [same]
    exact placed i
  · rw [here]
    exact changed

theorem add (placed : Placed d t) (known : p < t.nodes.size) (start : d.Boundary o.start)
    (stop : d.Boundary o.stop) : Placed d (t.add p o) := by
  intro i
  rcases node_add_cases (o := o) known i with ⟨children, same⟩ | ⟨-, new⟩
  · rw [same]
    exact ⟨(placed i).start, (placed i).stop, (placed i).ordered⟩
  · rw [new]
    exact ⟨start, stop, fun complete => nomatch complete⟩

theorem close {stop : Nat} (placed : Placed d t) (boundary : d.Boundary stop) :
    Placed d (t.close id stop) := by
  refine placed.update ⟨(placed id).start, ?_, fun _ => Nat.le_max_right _ _⟩
  show d.Boundary (max stop (t.node id).start)
  rcases Nat.le_total stop (t.node id).start with le | le
  · rw [Nat.max_eq_right le]
    exact (placed id).start
  · rw [Nat.max_eq_left le]
    exact boundary

/-- A start only moves up, to the end of a line above. -/
theorem extendStart (placed : Placed d t) (options : ScanOptions) (id : Nat) :
    Placed d (extendStart options d t id) := by
  rcases Scan.extendStart_cases options d t id with same | ⟨n, -, -, -, above, -, moved⟩
  · rw [same]
    exact placed
  · rw [moved]
    refine placed.update ⟨d.boundary_lineStop n, (placed id).stop, ?_⟩
    intro complete
    show d.lineStop n ≤ (t.node id).stop
    have ordered := (placed id).ordered complete
    have before := d.lineStart_lineOf_le (t.node id).start
    have line := Document.lineStop_le_lineStart (d := d) above
    omega

end Placed

end Tree

/-! ## Turns -/

/-- Just behind the first closing brace of a token stands a boundary. -/
theorem Token.WellFormed.boundary_brace {d : Document} {tokens : List Token} {t : Token}
    (formed : Token.WellFormed d tokens) (member : t ∈ tokens) (closes : t.closes = true) :
    d.Boundary (t.start + Text.byteLength (t.text.takeWhile (· != '\x7d')) + 1) := by
  unfold Token.closes at closes
  rw [Bool.and_eq_true] at closes
  have held : '\x7d' ∈ t.text := by simpa using closes.2
  obtain ⟨rest, drop⟩ : ∃ rest, t.text.dropWhile (· != '\x7d') = '\x7d' :: rest := by
    have first := List.head?_dropWhile_not (· != '\x7d') t.text
    cases drop : t.text.dropWhile (· != '\x7d') with
    | nil =>
      have all := List.dropWhile_eq_nil_iff.1 drop _ held
      simp at all
    | cons c rest =>
      rw [drop] at first
      exact ⟨rest, by rw [show c = '\x7d' by simpa using first]⟩
  have split : t.text = (t.text.takeWhile (· != '\x7d') ++ ['\x7d']) ++ rest := by
    rw [List.append_assoc, List.singleton_append, ← drop, List.takeWhile_append_dropWhile]
  have inside := formed.boundary_inside member split
  rw [Text.byteLength_append] at inside
  exact inside

namespace Scan

/-- The regions of a scan are placed, and each took a byte at least. -/
structure Placed (d : Document) (s : Scan) : Prop where
  tree : s.tree.Placed d
  rollback : d.Boundary s.importRollback
  count : s.tree.nodes.size ≤ s.cursor.position + 1

section Placed

variable {options : ScanOptions} {d : Document} {tokens : List Token} {s s' : Scan} {p : Nat}

theorem placed_start (options : ScanOptions) (d : Document) (tokens : List Token) :
    Placed d (start options d tokens) :=
  ⟨.empty d, d.boundary_zero, Nat.le_refl _⟩

/-- A group starts at a token or at the end of a line. -/
theorem boundary_groupStart (formed : Token.WellFormed d tokens)
    (steady : Steady options d tokens s) (t : Token) (colon : Nat) :
    d.Boundary (s.groupStart t colon) := by
  have line : d.Boundary (s.document.lineAt t.start).stop := by
    rw [Document.lineAt_stop, show s.document = d from steady.document]
    exact d.boundary_lineStop _
  unfold groupStart
  dsimp only
  split
  next next found =>
    have member : next ∈ tokens := by
      rw [← steady.tokens]
      exact List.mem_of_mem_drop (List.mem_of_find?_eq_some found)
    rcases Nat.le_total next.start (s.document.lineAt t.start).stop with le | le
    · rw [Nat.min_eq_left le]
      exact formed.boundary_start member
    · rw [Nat.min_eq_right le]
      exact line
  next => exact line

theorem count_turn (formed : Token.WellFormed d tokens) (steady : Steady options d tokens s)
    (within : s.within = some p) (turn : Turn s p s')
    (count : s.tree.nodes.size ≤ s.cursor.position + 1) :
    s'.tree.nodes.size ≤ s'.cursor.position + 1 := by
  obtain ⟨done, rest, split⟩ := steady.split
  cases turn.effect (steady.formed formed).ordered split (steady.known p within) with
  | stay same _ _ forward =>
    rw [same.size]
    omega
  | enter same grown _ _ _ forward =>
    rw [grown, Tree.nodes_size_add, same.size]
    omega
  | leave same _ _ forward =>
    rw [same.size]
    omega

/-- Wherever a turn lets a region start or stop, a boundary stands. -/
theorem Placed.turn (formed : Token.WellFormed d tokens) (steady : Steady options d tokens s)
    (placed : Placed d s) (within : s.within = some p) (turn : Turn s p s') : Placed d s' := by
  have count := count_turn formed steady within turn placed.count
  have known := steady.known p within
  have document : s.document = d := steady.document
  have listed : ∀ {t : Token}, s.cursor.token? = some t → t ∈ tokens := by
    intro t token
    rw [← steady.tokens]
    exact Cursor.mem_of_token? token
  have starts : ∀ {t : Token}, s.cursor.token? = some t → d.Boundary t.start :=
    fun token => formed.boundary_start (listed token)
  have line : ∀ offset, d.Boundary (s.document.lineAt offset).stop := by
    intro offset
    rw [Document.lineAt_stop, document]
    exact d.boundary_lineStop _
  have before : ∀ {t : Token}, s.cursor.token? = some t →
      d.Boundary (s.document.endBefore t.start) := by
    intro t token
    rw [document]
    exact (starts token).endBefore
  have leave : ∀ {t : Tree}, t.Placed d → (extendStart s.options s.document t p).Placed d := by
    intro t placed
    rw [document]
    exact placed.extendStart s.options p
  have closed : ∀ (id : Nat) {stop : Nat}, d.Boundary stop → (s.tree.close id stop).Placed d :=
    fun id stop boundary => placed.tree.close boundary
  have run : d.Boundary (s.tree.node p).stop := (placed.tree p).stop
  cases turn with
  | finish _ _ =>
    rcases finishRun_cases s p with same | ⟨ended, -⟩
    · rw [same] at count ⊢
      exact ⟨leave placed.tree, placed.rollback, count⟩
    · rw [ended] at count ⊢
      exact ⟨leave (closed p run), placed.rollback, count⟩
  | leave _ _ _ => exact ⟨leave placed.tree, placed.rollback, count⟩
  | gap _ _ _ _ => exact ⟨placed.tree, placed.rollback, count⟩
  | growComment reads _ _ =>
    refine ⟨placed.tree.update ?_, placed.rollback, count⟩
    exact ⟨(placed.tree p).start, formed.boundary_stop (listed reads.token),
      fun complete => absurd complete (by rw [reads.live]; exact Bool.false_ne_true)⟩
  | bridge _ _ _ _ => exact ⟨placed.tree, placed.rollback, count⟩
  | endComment _ _ _ => exact ⟨leave (closed p run), placed.rollback, count⟩
  | giveBack _ _ _ => exact ⟨leave (closed p placed.rollback), placed.rollback, count⟩
  | sameLine _ _ _ _ => exact ⟨placed.tree, placed.rollback, count⟩
  | growImports reads _ _ _ =>
    refine ⟨placed.tree.update ?_, run, count⟩
    exact ⟨(placed.tree p).start, line _,
      fun complete => absurd complete (by rw [reads.live]; exact Bool.false_ne_true)⟩
  | endImports _ _ _ _ => exact ⟨leave (closed p run), placed.rollback, count⟩
  | openBlock hosts _ =>
    exact ⟨placed.tree.add known (starts hosts.token) (starts hosts.token), placed.rollback,
      count⟩
  | openComment hosts _ _ =>
    exact ⟨placed.tree.add known (starts hosts.token) (formed.boundary_stop (listed hosts.token)),
      placed.rollback, count⟩
  | openImports hosts _ =>
    exact ⟨placed.tree.add known (starts hosts.token) (line _), starts hosts.token, count⟩
  | openGroup _ _ _ _ _ =>
    have start := boundary_groupStart formed steady
    exact ⟨placed.tree.add known (start _ _) (start _ _), placed.rollback, count⟩
  | endGroup hosts _ _ _ _ =>
    exact ⟨leave (closed _ (before hosts.token)), placed.rollback, count⟩
  | @switchGroup t colon group hosts _ _ _ _ _ _ =>
    have start : d.Boundary (s.groupStart t colon) := boundary_groupStart formed steady t colon
    refine ⟨Tree.Placed.add (closed _ (before hosts.token)) ?_ start start, placed.rollback,
      count⟩
    exact (s.tree.nodes_size_close _ _).symm ▸ known
  | openArm hosts _ _ =>
    exact ⟨placed.tree.add known (starts hosts.token) (starts hosts.token), placed.rollback,
      count⟩
  | pendingArm hosts _ _ _ =>
    exact ⟨placed.tree.add known (starts hosts.token) (starts hosts.token), placed.rollback,
      count⟩
  | firstArm hosts _ _ _ _ =>
    exact ⟨placed.tree.add known (starts hosts.token) (starts hosts.token), placed.rollback,
      count⟩
  | endArm hosts _ _ _ _ => exact ⟨leave (closed _ (before hosts.token)), placed.rollback, count⟩
  | switchArm hosts _ _ _ _ _ =>
    refine ⟨Tree.Placed.add (closed _ (before hosts.token)) ?_ (starts hosts.token)
      (starts hosts.token), placed.rollback, count⟩
    exact (s.tree.nodes_size_close _ _).symm ▸ known
  | closeArm _ _ _ =>
    unfold Scan.closeArm at count ⊢
    split at count
    next near => exact ⟨closed _ (line _), placed.rollback, count⟩
    next => exact ⟨placed.tree, placed.rollback, count⟩
  | closeBlock hosts _ closes _ =>
    refine ⟨?_, placed.rollback, count⟩
    have ended := leave (closed p (formed.boundary_brace (listed hosts.token) closes))
    rw [show s.document = s.cursor.advance.document from s.cursor.advance_document.symm] at ended
    exact ended
  | closeGroup hosts _ _ _ =>
    exact ⟨leave (closed _ (before hosts.token)), placed.rollback, count⟩
  | pass _ _ _ _ => exact ⟨placed.tree, placed.rollback, count⟩

end Placed

end Scan

/-! ## The list of regions -/

/-- The region has several lines and stands between boundaries of the document, and its lines are
those of its bounds. -/
structure Region.Sound (d : Document) (r : Region) : Prop where
  proper : r.span.start < r.span.stop
  inside : r.span.stop ≤ d.length
  start : d.Boundary r.span.start
  stop : d.Boundary r.span.stop
  startLine : r.startLine = d.lineOf r.span.start
  endLine : r.endLine = d.lineOf r.span.stop
  lines : r.startLine < r.endLine

section Listing

variable {d : Document} {t : Tree} {n : Node} {depth bound : Nat}

/-- A node that is placed has a sound region, or none to show. -/
theorem Node.Placed.region? (placed : n.Placed d) (depth : Nat) :
    n.region? d depth = .ok none ∨
      ∃ r, n.region? d depth = .ok (some r) ∧ r.Sound d ∧ r.depth = depth := by
  unfold Node.region?
  dsimp only
  cases n.kind with
  | none => exact Or.inl rfl
  | some kind =>
    dsimp only
    split
    next shown =>
      rw [Bool.and_eq_true, bne_iff_ne] at shown
      have ordered := placed.ordered shown.1
      have lines : d.lineOf n.start < d.lineOf n.stop :=
        Nat.lt_of_le_of_ne (Document.lineOf_mono ordered) shown.2
      have proper : n.start < n.stop := by
        apply Nat.lt_of_le_of_ne ordered
        intro same
        rw [same] at lines
        exact Nat.lt_irrefl _ lines
      rw [Span.ofBounds_of_le ordered]
      exact Or.inr ⟨_, rfl, ⟨proper, placed.stop.le_length, placed.start, placed.stop, rfl, rfl,
        lines⟩, rfl⟩
    next => exact Or.inl rfl

/-- Placed regions can be listed, and no depth leaves the bound that the work list keeps. -/
theorem flattenWork_sound (placed : t.Placed d) (fuel : Nat) (work : List (Nat × Nat))
    (shallow : ∀ item ∈ work, item.2 + fuel ≤ bound) :
    ∃ regions, t.flattenWork d fuel work = .ok regions ∧
      ∀ r ∈ regions, r.Sound d ∧ r.depth + 1 ≤ bound := by
  induction fuel generalizing work with
  | zero => exact ⟨[], rfl, fun r member => absurd member List.not_mem_nil⟩
  | succ fuel ih =>
    cases work with
    | nil => exact ⟨[], rfl, fun r member => absurd member List.not_mem_nil⟩
    | cons item work =>
      obtain ⟨id, depth⟩ := item
      have here : depth + (fuel + 1) ≤ bound := shallow (id, depth) List.mem_cons_self
      -- what lies in a listed region is one deeper, with one turn less to go
      have below : ∀ next, next ≤ depth + 1 → ∃ regions,
          t.flattenWork d fuel ((t.node id).children.map (·, next) ++ work) = .ok regions ∧
            ∀ r ∈ regions, r.Sound d ∧ r.depth + 1 ≤ bound := by
        intro next deeper
        apply ih
        intro item member
        rcases List.mem_append.1 member with child | member
        · obtain ⟨c, -, rfl⟩ := List.mem_map.1 child
          show next + fuel ≤ bound
          omega
        · have := shallow item (List.mem_cons_of_mem _ member)
          omega
      rcases (placed id).region? depth with none | ⟨r, some, sound, deep⟩
      · obtain ⟨regions, listed, all⟩ := below depth (by omega)
        exact ⟨regions, Tree.flattenWork_cons none listed, all⟩
      · obtain ⟨regions, listed, all⟩ := below (depth + 1) (by omega)
        refine ⟨r :: regions, Tree.flattenWork_cons some listed, ?_⟩
        intro r' member
        rcases List.mem_cons.1 member with rfl | member
        · exact ⟨sound, by omega⟩
        · exact all r' member

theorem flatten_sound (placed : t.Placed d) :
    ∃ regions, t.flatten d = .ok regions ∧
      ∀ r ∈ regions, r.Sound d ∧ r.depth + 1 ≤ t.nodes.size := by
  apply flattenWork_sound placed
  intro item member
  obtain ⟨c, -, rfl⟩ := List.mem_map.1 member
  exact Nat.le_of_eq (Nat.zero_add _)

/-- A region to show has the kind and the bounds of its node. -/
theorem Node.of_region? {r : Region} (shown : n.region? d depth = .ok (some r)) :
    n.kind = some r.kind ∧ r.span.start = n.start ∧ r.span.stop = n.stop := by
  unfold Node.region? at shown
  dsimp only at shown
  cases kind : n.kind with
  | none =>
    rw [kind] at shown
    cases shown
  | some own =>
    rw [kind] at shown
    dsimp only at shown
    split at shown
    next =>
      cases bounds : Span.ofBounds n.start n.stop with
      | error fault =>
        rw [bounds] at shown
        cases shown
      | ok span =>
        rw [bounds] at shown
        cases shown
        unfold Span.ofBounds at bounds
        split at bounds
        next =>
          cases bounds
          exact ⟨rfl, rfl, rfl⟩
        next => cases bounds
    next => cases shown

/-- A listed region is that of a node. -/
theorem exists_node_of_mem_flattenWork {fuel : Nat} {work : List (Nat × Nat)}
    {regions : List Region} (listed : t.flattenWork d fuel work = .ok regions) {r : Region}
    (member : r ∈ regions) : ∃ id depth, (t.node id).region? d depth = .ok (some r) := by
  induction fuel generalizing work regions with
  | zero =>
    cases listed
    exact absurd member List.not_mem_nil
  | succ fuel ih =>
    cases work with
    | nil =>
      cases listed
      exact absurd member List.not_mem_nil
    | cons item work =>
      obtain ⟨id, depth⟩ := item
      rw [Tree.flattenWork] at listed
      cases here : (t.node id).region? d depth with
      | error fault =>
        rw [here] at listed
        cases listed
      | ok shown =>
        rw [here] at listed
        dsimp only [bind, Except.bind] at listed
        split at listed
        next => cases listed
        next rest below =>
          cases listed
          rcases List.mem_append.1 member with first | later
          · rw [Option.mem_toList] at first
            exact ⟨id, depth, by rw [here, Option.mem_def.1 first]⟩
          · exact ih below later

end Listing

/-! ## Numbers of a scan -/

/-- The end of the character under a cursor is at most one byte behind the document. -/
theorem Cursor.position_add_width_le {c : Cursor} (inside : c.position ≤ c.document.length) :
    c.position + c.width ≤ c.document.length + 1 := by
  unfold Cursor.width
  cases here : c.document.charAt? c.position with
  | none => exact Nat.succ_le_succ inside
  | some ch =>
    unfold Document.charAt? at here
    obtain ⟨rest, dropped, head⟩ := Option.bind_eq_some_iff.1 here
    obtain ⟨after, rfl⟩ := List.head?_eq_some_iff.1 head
    obtain ⟨front, text, placed⟩ := Text.dropBytes?_eq_some_iff.1 dropped
    have length := c.document.length_eq
    rw [text, Text.byteLength_append, Text.byteLength_cons, placed] at length
    show c.position + ch.utf8Size ≤ c.document.length + 1
    omega

theorem Cursor.advanceTo_inside (target fuel : Nat) {c : Cursor}
    (inside : c.position ≤ c.document.length) :
    (c.advanceTo target fuel).position ≤ (c.advanceTo target fuel).document.length := by
  induction fuel generalizing c with
  | zero => exact inside
  | succ fuel ih =>
    rw [Cursor.advanceTo]
    split
    next =>
      cases moved : c.advance? with
      | none => exact inside
      | some next =>
        apply ih
        unfold Cursor.advance? Cursor.seek at moved
        split at moved
        next => cases moved
        next =>
          cases moved
          exact Nat.min_le_right _ _
    next => exact inside

/-- The numbers that a scan forms fit their words: the number of the line below any place, the end
of a character at every place it passes, the place behind a closing brace, and the number of the
next region. -/
structure Scan.FitsWords (options : ScanOptions) (d : Document) (tokens : List Token) : Prop where
  lines : ∀ offset, d.lineOf offset + 1 < limit32
  moves : ∀ n target fuel,
    let c := (Scan.steps n (.start options d tokens)).cursor.advanceTo target fuel
    c.position + c.width < limit32
  braces : ∀ t ∈ tokens, t.closes = true →
    t.start + Text.byteLength (t.text.takeWhile (· != '\x7d')) + 1 < limit32
  regions : ∀ n, (Scan.steps n (.start options d tokens)).tree.nextId < limit32

section Outline

variable {d : Document} {tokens : List Token}

theorem steps_placed (options : ScanOptions) (formed : Token.WellFormed d tokens) (n : Nat) :
    Scan.Steady options d tokens (Scan.steps n (.start options d tokens)) ∧
      (Scan.steps n (.start options d tokens)).Placed d :=
  Scan.steps_induction formed
    (fun _ _ _ steady placed within turn => placed.turn formed steady within turn)
    (Scan.steady_start options d tokens) (Scan.placed_start options d tokens) n

theorem fitsWords (options : ScanOptions) (small : d.length + 1 < limit32)
    (formed : Token.WellFormed d tokens) : Scan.FitsWords options d tokens where
  lines := by
    intro offset
    have := d.lineOf_lt offset
    have := d.lineCount_le
    omega
  moves := by
    intro n target fuel
    obtain ⟨steady, -⟩ := steps_placed options formed n
    obtain ⟨done, rest, split⟩ := steady.split
    have document := (Scan.advanceTo_document target fuel
      (Scan.steps n (.start options d tokens)).cursor).1.trans steady.document
    have inside := Cursor.advanceTo_inside target fuel split.boundary.le_length
    have sum := Cursor.position_add_width_le inside
    rw [document] at sum
    exact Nat.lt_of_le_of_lt sum small
  braces := by
    intro t member closes
    have inside := (formed.boundary_brace member closes).le_length
    omega
  regions := by
    intro n
    obtain ⟨steady, placed⟩ := steps_placed options formed n
    obtain ⟨done, rest, split⟩ := steady.split
    have inside := split.boundary.le_length
    rw [steady.document] at inside
    have count := placed.count
    show (Scan.steps n (.start options d tokens)).tree.nodes.size < limit32
    omega

theorem Outline.ofTokens_eq_ok_iff {options : ScanOptions} {session : SessionId} {o : Outline} :
    Outline.ofTokens options session d tokens = .ok o ↔
      ∃ regions, (Tree.ofTokens options d tokens).flatten d = .ok regions ∧
        o = ⟨session, d, regions⟩ := by
  unfold Outline.ofTokens
  cases (Tree.ofTokens options d tokens).flatten d with
  | error fault => exact ⟨nofun, nofun⟩
  | ok regions =>
    constructor
    · intro found
      exact ⟨regions, rfl, (Except.ok.inj found).symm⟩
    · rintro ⟨_, same, rfl⟩
      cases same
      rfl

/-- A well-formed stream has an outline, and its regions are sound. -/
theorem exists_outline (options : ScanOptions) (session : SessionId)
    (formed : Token.WellFormed d tokens) :
    ∃ o, Outline.ofTokens options session d tokens = .ok o ∧ o.document = d ∧
      ∀ r ∈ o.regions, r.Sound d := by
  have placed : (Tree.ofTokens options d tokens).Placed d :=
    (steps_placed options formed _).2.tree
  obtain ⟨regions, listed, sound⟩ := flatten_sound placed
  exact ⟨_, Outline.ofTokens_eq_ok_iff.2 ⟨regions, listed, rfl⟩, rfl,
    fun r member => (sound r member).1⟩

end Outline

/-- On a well-formed stream of a document of less than `2 ^ 32 - 1` bytes the scan comes to its
end and the outline exists: no number leaves its word, no span is reversed, and every region is
sound. -/
theorem outline_sound (options : ScanOptions) (session : SessionId) (d : Document)
    (tokens : List Token) (small : d.length + 1 < limit32) (formed : Token.WellFormed d tokens) :
    (Scan.start options d tokens).finish.within = none ∧ Scan.FitsWords options d tokens ∧
      ∃ o, Outline.ofTokens options session d tokens = .ok o ∧
        ∀ r ∈ o.regions, r.Sound d ∧ r.depth + 1 < limit32 := by
  obtain ⟨-, placed, ended, -⟩ := Scan.finish_over (P := Scan.Placed d) formed
    (fun _ _ _ steady placed within turn => placed.turn formed steady within turn)
    (Scan.placed_start options d tokens)
  have words := fitsWords options small formed
  refine ⟨ended, words, ?_⟩
  obtain ⟨regions, listed, sound⟩ :
      ∃ regions, (Tree.ofTokens options d tokens).flatten d = .ok regions ∧
        ∀ r ∈ regions, r.Sound d ∧ r.depth + 1 ≤ (Tree.ofTokens options d tokens).nodes.size :=
    flatten_sound placed.tree
  refine ⟨⟨session, d, regions⟩, ?_, ?_⟩
  · unfold Outline.ofTokens
    rw [listed]
    rfl
  · intro r member
    obtain ⟨sound, deep⟩ := sound r member
    exact ⟨sound, Nat.lt_of_le_of_lt deep (words.regions (2 * d.length + 1))⟩

/-- The same block in the stream of a lexer and in that of a host, beside a brace that nothing
closes. -/
theorem outline_sound_block :
    let d := Document.ofText 0 "f\n\x7b é\n\x7d \x7b".toList
    let host := Token.ofSpans d
      [(⟨9, 10, by decide⟩, .punctuation), (⟨7, 8, by decide⟩, .punctuation),
        (⟨2, 3, by decide⟩, .punctuation)]
    (∃ o, Outline.ofTokens {} 0 d (classify d.text) = .ok o ∧
        ∀ r ∈ o.regions, r.Sound d ∧ r.depth + 1 < limit32) ∧
      (∃ o, Outline.ofTokens {} 0 d host = .ok o ∧
        ∀ r ∈ o.regions, r.Sound d ∧ r.depth + 1 < limit32) ∧
      ((Tree.ofTokens {} d (classify d.text)).flatten d).toOption.map List.length = some 1 := by
  intro d host
  refine ⟨?_, ?_, ?_⟩
  · exact (outline_sound _ 0 d _ (by decide) (classify_wellFormed d)).2.2
  · exact (outline_sound _ 0 d _ (by decide) (Token.ofSpans_wellFormed d _)).2.2
  · decide +kernel

end CodeFolding
