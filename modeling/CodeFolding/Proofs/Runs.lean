import Mathlib
import CodeFolding.Proofs.Turns

/-!
# Runs of a scan

What a whole scan does follows from what a turn does.  As far as the tree goes, a turn stays in
its region, enters a new one or leaves its own (`Scan.Effect`); it stays or enters with a move
forward, and what it leaves is complete unless the document is over.

* `Scan.Steady`: the cursor cuts the stream, the tree is rooted, and as long as the document is
  not over every open region is on the way up from the region being read.
* `Scan.finish_over`: on a well-formed stream the scan comes to its end and has read every token.
-/

namespace CodeFolding

/-! ## Labels -/

/-- The colon of a label is a token behind its keyword. -/
theorem exists_colon {depth k : Nat} {tokens : List Token}
    (found : tokensToColon? depth tokens = some k) :
    ∃ colon, tokens[k]? = some colon ∧ colon.category = .punctuation ∧
      colon.text.head? = some ':' := by
  induction tokens generalizing depth k with
  | nil => cases found
  | cons t rest ih =>
    have shifted : ∀ depth, (tokensToColon? depth rest).map (· + 1) = some k →
        ∃ colon, (t :: rest)[k]? = some colon ∧ colon.category = .punctuation ∧
          colon.text.head? = some ':' := by
      intro depth found
      obtain ⟨j, inner, rfl⟩ := Option.map_eq_some_iff.1 found
      exact ih inner
    rw [tokensToColon?] at found
    dsimp only at found
    split at found
    next => exact shifted _ found
    next mark =>
      split at found
      next => exact shifted _ found
      next =>
        split at found
        next => exact shifted _ found
        next =>
          split at found
          next => exact shifted _ found
          next =>
            split at found
            next colon =>
              cases found
              exact ⟨t, rfl, not_not.1 mark, colon⟩
            next => cases found

/-- A label takes the tokens from its keyword to its colon. -/
theorem Cursor.Split.labelColon? {c : Cursor} {done later : List Token} {t : Token} {colon : Nat}
    (split : c.Split done (t :: later)) (index : c.index? = some done.length)
    (found : c.labelColon? = some colon) :
    ∃ label mark rest, later = label ++ mark :: rest ∧ c.tokens[colon]? = some mark ∧
      colon = done.length + 1 + label.length ∧
      tokensToColon? 0 (later.take labelLimit) = some label.length ∧
      mark.category = .punctuation ∧ mark.text.head? = some ':' := by
  unfold Cursor.labelColon? at found
  rw [index, Option.bind_some, split.tokens] at found
  obtain ⟨k, inner, rfl⟩ := Option.map_eq_some_iff.1 found
  have rest : (done ++ t :: later).drop (done.length + 1) = later := by
    rw [List.drop_append, Nat.add_sub_cancel_left, List.drop_eq_nil_of_le (by omega)]
    rfl
  rw [rest] at inner
  obtain ⟨mark, looked, category, head⟩ := exists_colon inner
  have bound := (List.getElem?_eq_some_iff.1 looked).1
  rw [List.length_take] at bound
  rw [List.getElem?_take_of_lt (by omega)] at looked
  have cut : later = later.take k ++ mark :: later.drop (k + 1) := by
    have at_k := (List.getElem?_eq_some_iff.1 looked)
    obtain ⟨inside, here⟩ := at_k
    rw [← here, ← List.drop_eq_getElem_cons, List.take_append_drop]
  have length : (later.take k).length = k := by rw [List.length_take]; omega
  refine ⟨later.take k, mark, later.drop (k + 1), cut, ?_, ?_, ?_, category, head⟩
  · rw [split.tokens, List.getElem?_append_right (by omega)]
    have shift : done.length + 1 + k - done.length = k + 1 := by omega
    rw [shift, List.getElem?_cons_succ, looked]
  · rw [length]
  · rw [length]
    exact inner

/-- No label takes a token that passes the test between its keyword and its colon. -/
def labelsFree (test : Token → Bool) : List Token → Bool
  | [] => true
  | t :: rest =>
    (!t.startsLabel ||
      match tokensToColon? 0 (rest.take labelLimit) with
      | some count => (rest.take count).all fun u => !test u
      | none => true) && labelsFree test rest

theorem not_of_labelsFree {test : Token → Bool} {done label later : List Token} {t mark : Token}
    (free : labelsFree test (done ++ t :: (label ++ mark :: later)) = true)
    (starts : t.startsLabel = true)
    (counted : tokensToColon? 0 ((label ++ mark :: later).take labelLimit) = some label.length) :
    ∀ u ∈ label, test u = false := by
  induction done with
  | nil =>
    rw [List.nil_append, labelsFree, Bool.and_eq_true] at free
    obtain ⟨here, -⟩ := free
    rw [starts, counted] at here
    dsimp only at here
    rw [List.take_left, Bool.not_true, Bool.false_or, List.all_eq_true] at here
    intro u member
    simpa using here u member
  | cons first done ih =>
    rw [List.cons_append, labelsFree, Bool.and_eq_true] at free
    exact ih free.2

namespace Scan

/-! ## Effects of a turn -/

/-- The line found above a line is not above the floor. -/
theorem of_lineAbove? {d : Document} {floor number : Nat} {line : Line}
    (found : lineAbove? d floor number = some line) :
    ∃ n, floor ≤ n ∧ n < number ∧ n < d.lineCount ∧ line.stop = d.lineStop n := by
  induction number with
  | zero => cases found
  | succ n ih =>
    rw [lineAbove?] at found
    split at found
    next => cases found
    next above =>
      split at found
      next => cases found
      next looked =>
        split at found
        next =>
          obtain ⟨m, low, high, inside, stops⟩ := ih found
          exact ⟨m, low, Nat.lt_succ_of_lt high, inside, stops⟩
        next =>
          cases found
          obtain ⟨inside, -, stops⟩ := Document.line_eq_ok looked
          exact ⟨n, Nat.le_of_not_lt above, Nat.lt_succ_self n, inside, stops⟩

theorem of_hasHeader {d : Document} {n : Node} (header : hasHeader d n = true) :
    n.kind = some .block ∧ n.complete = true := by
  unfold hasHeader at header
  rw [Bool.and_eq_true, Bool.and_eq_true, Bool.and_eq_true, beq_iff_eq] at header
  exact header.1.1

/-- A header only moves the start of a complete block, to the end of a line between the floor and
the brace. -/
theorem extendStart_cases (options : ScanOptions) (d : Document) (t : Tree) (id : Nat) :
    extendStart options d t id = t ∨
      ∃ n, options.extendStarts = true ∧ hasHeader d (t.node id) = true ∧
        headerFloor d t id ≤ n ∧ n < d.lineOf (t.node id).start ∧ n < d.lineCount ∧
        extendStart options d t id =
          t.update id fun node => { node with start := d.lineStop n, fromPriorLine := true } := by
  unfold extendStart
  split
  next both =>
    rw [Bool.and_eq_true] at both
    split
    next line found =>
      obtain ⟨n, low, high, inside, stops⟩ := of_lineAbove? found
      exact Or.inr ⟨n, both.1, both.2, low, high, inside, by rw [stops]⟩
    next => exact Or.inl rfl
  next => exact Or.inl rfl

theorem retouched_extendStart (options : ScanOptions) (d : Document) (t : Tree) (id : Nat) :
    t.Retouched (extendStart options d t id) := by
  rcases extendStart_cases options d t id with same | ⟨n, -, -, -, -, -, moved⟩
  · rw [same]
    exact .refl t
  · rw [moved]
    exact .update (.move _ _ _ _)

theorem extendStart_of_kind {options : ScanOptions} {d : Document} {t : Tree} {id : Nat}
    (kind : (t.node id).kind ≠ some .block) : extendStart options d t id = t := by
  rcases extendStart_cases options d t id with same | ⟨-, -, header, -⟩
  · exact same
  · exact absurd (of_hasHeader header).1 kind

theorem extendStart_of_live {options : ScanOptions} {d : Document} {t : Tree} {id : Nat}
    (live : (t.node id).complete = false) : extendStart options d t id = t := by
  rcases extendStart_cases options d t id with same | ⟨-, -, header, -⟩
  · exact same
  · rw [(of_hasHeader header).2] at live
    cases live

theorem node_extendStart_of_ne {options : ScanOptions} {d : Document} {t : Tree} {id i : Nat}
    (other : i ≠ id) : (extendStart options d t id).node i = t.node i := by
  rcases extendStart_cases options d t id with same | ⟨n, -, -, -, -, -, moved⟩
  · rw [same]
  · rw [moved, Tree.node_update_of_ne other]

/-- Only a block takes the lines of its header. -/
theorem keeps_extendStart {kind : RegionKind} (other : kind ≠ .block) (options : ScanOptions)
    (d : Document) (t : Tree) (id : Nat) : t.Keeps kind (extendStart options d t id) := by
  by_cases block : (t.node id).kind = some .block
  · refine (retouched_extendStart options d t id).keeps ?_ fun _ => node_extendStart_of_ne
    rw [block]
    exact fun same => other (Option.some.inj same).symm
  · rw [extendStart_of_kind block]
    exact .refl kind t

/-- What a turn does to the tree and how it moves. -/
inductive Effect (s : Scan) (p : Nat) (s' : Scan) : Prop
  | stay :
    s.tree.Retouched s'.tree → s'.within = some p → s.cursor.atEnd = false →
    s.cursor.position < s'.cursor.position → Effect s p s'
  | enter {t : Tree} {o : Opening} :
    s.tree.Retouched t → s'.tree = t.add p o → s'.within = some s.tree.nodes.size →
    (s.tree.node p).isRun = false → s.cursor.atEnd = false →
    s.cursor.position < s'.cursor.position → Effect s p s'
  | leave :
    s.tree.Retouched s'.tree → s'.within = (s.tree.node p).parent →
    (s.cursor.atEnd = false → (s'.tree.node p).complete = true) →
    s.cursor.position ≤ s'.cursor.position → Effect s p s'

theorem exists_kind_of_isRun {n : Node} (run : n.isRun = true) :
    ∃ k, n.kind = some k ∧ k ≠ .block ∧ k ≠ .conditional := by
  unfold Node.isRun at run
  rw [Bool.or_eq_true, beq_iff_eq, beq_iff_eq] at run
  rcases run with kind | kind
  · exact ⟨.comment, kind, by simp, by simp⟩
  · exact ⟨.importRun, kind, by simp, by simp⟩

theorem kind_ne_none_of_isRun {n : Node} (run : n.isRun = true) : n.kind ≠ none := by
  intro root
  unfold Node.isRun at run
  rw [root] at run
  cases run

theorem kind_ne_none_of_isOpen {n : Node} (live : n.isOpen = true) : n.kind ≠ none := by
  intro root
  unfold Node.isOpen at live
  rw [root] at live
  cases live

/-- At the end of the document only a run is completed. -/
theorem finishRun_cases (s : Scan) (id : Nat) :
    s.finishRun id = s ∨
      s.finishRun id = s.closeRun id ∧ (s.tree.node id).isRun = true ∧
        (s.tree.node id).complete = false := by
  have closing : ∀ ends : Bool, (ends = true → (s.tree.node id).isRun = true) →
      (if !(s.tree.node id).complete && ends then s.closeRun id else s) = s ∨
        (if !(s.tree.node id).complete && ends then s.closeRun id else s) = s.closeRun id ∧
          (s.tree.node id).isRun = true ∧ (s.tree.node id).complete = false := by
    intro ends run
    split
    next both =>
      rw [Bool.and_eq_true, Bool.not_eq_true'] at both
      exact Or.inr ⟨rfl, run both.2, both.1⟩
    next => exact Or.inl rfl
  apply closing
  intro ends
  unfold Node.isRun
  split at ends
  next kind => rw [kind]; rfl
  next kind => rw [kind]; rfl
  next => cases ends

/-- How the cursor moves in a turn. -/
inductive Moved (c : Cursor) : Cursor → Prop
  | still : Moved c c
  | advance : c.atEnd = false → Moved c c.advance
  | nextLine : c.atEnd = false → Moved c c.nextLine
  | label {t : Token} {colon : Nat} :
    c.token? = some t → c.labelColon? = some colon →
    Moved c (c.skipTo (((c.tokens[colon]?).map Token.stop).getD t.stop))

section Moves

variable {s s' : Scan} {p : Nat} {c c' : Cursor} {done rest : List Token}

theorem Turn.moved (turn : Turn s p s') : Moved s.cursor s'.cursor := by
  cases turn with
  | finish _ _ =>
    rcases finishRun_cases s p with same | ⟨closed, -⟩
    · rw [same]
      exact .still
    · rw [closed]
      exact .still
  | leave _ _ _ => exact .still
  | gap _ more _ _ => exact .advance more
  | growComment reads _ _ => exact .advance reads.more
  | bridge reads _ _ _ => exact .advance reads.more
  | endComment _ _ _ => exact .still
  | giveBack _ _ _ => exact .still
  | sameLine reads _ _ _ => exact .advance reads.more
  | growImports reads _ _ _ => exact .advance reads.more
  | endImports _ _ _ _ => exact .still
  | openBlock hosts _ => exact .advance hosts.more
  | openComment hosts _ _ => exact .advance hosts.more
  | openImports hosts _ => exact .advance hosts.more
  | openGroup hosts _ _ found _ => exact .label hosts.token found
  | endGroup _ _ _ _ _ => exact .still
  | switchGroup hosts _ _ found _ _ _ => exact .label hosts.token found
  | openArm hosts _ _ => exact .nextLine hosts.more
  | pendingArm hosts _ _ _ => exact .nextLine hosts.more
  | firstArm hosts _ _ _ _ => exact .nextLine hosts.more
  | endArm _ _ _ _ _ => exact .still
  | switchArm hosts _ _ _ _ _ => exact .nextLine hosts.more
  | closeArm hosts _ _ =>
    unfold Scan.closeArm
    split <;> exact .nextLine hosts.more
  | closeBlock hosts _ _ _ => exact .advance hosts.more
  | closeGroup _ _ _ _ => exact .still
  | pass hosts _ _ _ => exact .advance hosts.more

theorem advanceTo_document (target fuel : Nat) (c : Cursor) :
    (c.advanceTo target fuel).document = c.document ∧
      (c.advanceTo target fuel).tokens = c.tokens := by
  induction fuel generalizing c with
  | zero => exact ⟨rfl, rfl⟩
  | succ fuel ih =>
    rw [Cursor.advanceTo]
    split
    next =>
      cases ended : c.atEnd with
      | true =>
        rw [Cursor.advance?_eq_none ended]
        exact ⟨rfl, rfl⟩
      | false =>
        rw [Cursor.advance?_eq_some ended]
        dsimp only
        rw [(ih _).1, (ih _).2, Cursor.advance_document, Cursor.advance_tokens]
        exact ⟨rfl, rfl⟩
    next => exact ⟨rfl, rfl⟩

theorem Moved.same (moved : Moved c c') :
    c'.document = c.document ∧ c'.tokens = c.tokens := by
  cases moved with
  | still => exact ⟨rfl, rfl⟩
  | advance _ => exact ⟨c.advance_document, c.advance_tokens⟩
  | nextLine _ => exact ⟨c.nextLine_document, c.nextLine_tokens⟩
  | label _ _ => exact advanceTo_document _ _ c

/-- Skipping a label takes its keyword, its tokens and its colon. -/
theorem skipLabel (formed : Token.WellFormed c.document c.tokens) (split : c.Split done rest)
    {t : Token} {colon : Nat} (token : c.token? = some t) (found : c.labelColon? = some colon) :
    ∃ label mark later, rest = t :: (label ++ mark :: later) ∧
      c.tokens[colon]? = some mark ∧ colon = done.length + 1 + label.length ∧
      tokensToColon? 0 ((label ++ mark :: later).take labelLimit) = some label.length ∧
      mark.category = .punctuation ∧ mark.text.head? = some ':' ∧
      (c.skipTo (((c.tokens[colon]?).map Token.stop).getD t.stop)).Split
        (done ++ (t :: label ++ [mark])) later ∧
      (c.skipTo (((c.tokens[colon]?).map Token.stop).getD t.stop)).position = mark.stop ∧
      c.position < mark.stop := by
  obtain ⟨later, rfl, starts, index⟩ := split.of_token? formed token
  obtain ⟨label, mark, rest, rfl, looked, place, counted, category, head⟩ :=
    split.labelColon? index found
  refine ⟨label, mark, rest, rfl, looked, place, counted, category, head, ?_⟩
  rw [looked]
  show (c.skipTo mark.stop).Split _ _ ∧ (c.skipTo mark.stop).position = mark.stop ∧ _
  have cut : c.Split done (t :: label ++ mark :: rest) := split
  have skipped := cut.skipTo formed
  have ahead := split.ahead mark (by simp)
  have width := formed.nonempty mark (by rw [split.tokens]; simp)
  exact ⟨skipped.1, skipped.2, by omega⟩

/-- Skipping a label takes no token that passes a test, if none of its tokens does. -/
theorem skipLabel_free {test : Token → Bool} (formed : Token.WellFormed c.document c.tokens)
    (free : labelsFree test c.tokens = true) (split : c.Split done rest) {t : Token} {colon : Nat}
    (token : c.token? = some t) (starts : t.startsLabel = true)
    (found : c.labelColon? = some colon) (first : test t = false)
    (last : ∀ u, u.category = .punctuation → u.text.head? = some ':' → test u = false) :
    ∃ skipped later,
      (c.skipTo (((c.tokens[colon]?).map Token.stop).getD t.stop)).Split (done ++ skipped) later ∧
      ∀ u ∈ skipped, test u = false := by
  obtain ⟨label, mark, later, rfl, -, -, counted, category, head, cut, -, -⟩ :=
    skipLabel formed split token found
  refine ⟨_, later, cut, ?_⟩
  rw [split.tokens] at free
  intro u member
  rw [List.mem_append, List.mem_cons, List.mem_singleton] at member
  rcases member with (rfl | member) | rfl
  · exact first
  · exact not_of_labelsFree free starts counted u member
  · exact last u category head

/-- The colon of a label ends behind its keyword, also if tokens overlap. -/
theorem position_lt_colon (ordered : Token.Ordered c.document c.tokens) {t : Token} {colon : Nat}
    (token : c.token? = some t) (found : c.labelColon? = some colon) :
    c.position < ((c.tokens[colon]?).map Token.stop).getD t.stop := by
  obtain ⟨i, index, looked, starts⟩ := Cursor.exists_index_of_token? token
  unfold Cursor.labelColon? at found
  rw [index, Option.bind_some] at found
  obtain ⟨k, inner, rfl⟩ := Option.map_eq_some_iff.1 found
  obtain ⟨mark, at_k, -⟩ := exists_colon inner
  have short := (List.getElem?_eq_some_iff.1 at_k).1
  rw [List.length_take] at short
  rw [List.getElem?_take_of_lt (by omega), List.getElem?_drop] at at_k
  obtain ⟨first, here⟩ := List.getElem?_eq_some_iff.1 looked
  obtain ⟨second, there⟩ := List.getElem?_eq_some_iff.1 at_k
  have behind := List.pairwise_iff_getElem.1 ordered.sorted i (i + 1 + k) first second (by omega)
  rw [here, there] at behind
  have width := ordered.nonempty mark (List.mem_of_getElem? at_k)
  rw [at_k]
  show c.position < mark.stop
  omega

/-- A move goes from boundary to boundary and never back. -/
theorem Moved.forward (ordered : Token.Ordered c.document c.tokens)
    (boundary : c.document.Boundary c.position) (moved : Moved c c') :
    c'.document.Boundary c'.position ∧ c.position ≤ c'.position := by
  rw [moved.same.1]
  cases moved with
  | still => exact ⟨boundary, Nat.le_refl _⟩
  | advance more =>
    exact ⟨Cursor.boundary_advance ordered boundary,
      Nat.le_of_lt (Cursor.position_lt_of_advance? (Cursor.advance?_eq_some more))⟩
  | nextLine more =>
    rw [Cursor.nextLine_position more]
    exact ⟨c.document.boundary_lineStart _,
      Nat.le_of_lt (Document.lt_lineStart_succ (Cursor.atEnd_eq_false_iff.1 more))⟩
  | label _ _ => exact Cursor.boundary_advanceTo ordered boundary _ _

/-- A move keeps the cut of the stream and never goes back. -/
theorem Moved.split (ordered : Token.Ordered c.document c.tokens) (split : c.Split done rest)
    (moved : Moved c c') :
    (∃ done' rest', c'.Split done' rest') ∧ c.position ≤ c'.position := by
  obtain ⟨boundary, forward⟩ := moved.forward ordered split.boundary
  refine ⟨Cursor.exists_split ?_ boundary, forward⟩
  rw [moved.same.1, moved.same.2]
  exact ordered

end Moves

/-! ## From turns to effects -/

section Effects

variable {s s' : Scan} {p : Nat} {done rest : List Token}

theorem leave_complete {s : Scan} {p : Nat} (complete : (s.tree.node p).complete = true) :
    ((s.leave p).tree.node p).complete = true :=
  (retouched_extendStart s.options s.document s.tree p).complete p complete

theorem retouched_leave (s : Scan) (p : Nat) : s.tree.Retouched (s.leave p).tree :=
  retouched_extendStart s.options s.document s.tree p

theorem complete_close {t : Tree} {p stop : Nat} (known : p < t.nodes.size) :
    ((t.close p stop).node p).complete = true := by
  unfold Tree.close
  rw [Tree.node_update_self known]

/-- A region that is completed and left. -/
theorem effect_close_leave {stop : Nat} {s s' : Scan} (known : p < s.tree.nodes.size)
    (region : (s.tree.node p).kind ≠ none)
    (tree : s'.tree = extendStart s'.options s'.document (s.tree.close p stop) p)
    (within : s'.within = ((s.tree.close p stop).node p).parent)
    (forward : s.cursor.position ≤ s'.cursor.position) : Effect s p s' := by
  have closed := Tree.Retouched.close region stop
  have moved := retouched_extendStart s'.options s'.document (s.tree.close p stop) p
  refine .leave ?_ ?_ ?_ forward
  · rw [tree]
    exact closed.trans moved
  · rw [within, closed.parent]
  · intro _
    rw [tree]
    exact moved.complete p (complete_close known)

theorem Turn.effect (ordered : Token.Ordered s.cursor.document s.cursor.tokens)
    (split : s.cursor.Split done rest) (known : p < s.tree.nodes.size) (turn : Turn s p s') :
    Effect s p s' := by
  have next : s.cursor.atEnd = false → s.cursor.position < s.cursor.advance.position :=
    fun more => Cursor.position_lt_of_advance? (Cursor.advance?_eq_some more)
  have below : s.cursor.atEnd = false → s.cursor.position < s.cursor.nextLine.position := by
    intro more
    rw [Cursor.nextLine_position more]
    exact Document.lt_lineStart_succ (Cursor.atEnd_eq_false_iff.1 more)
  have behind : ∀ {t : Token} {colon : Nat}, s.cursor.token? = some t →
      s.cursor.labelColon? = some colon → s.cursor.position <
        (s.cursor.skipTo (((s.cursor.tokens[colon]?).map Token.stop).getD t.stop)).position := by
    intro t colon token found
    have inside := ordered.start_lt_length (Cursor.mem_of_token? token)
    rw [Cursor.start_of_token? token] at inside
    exact Cursor.position_lt_skipTo ordered split.boundary (Cursor.atEnd_eq_false_iff.2 inside)
      (position_lt_colon ordered token found)
  cases turn with
  | finish _ ended =>
    refine .leave ?_ ?_ (fun more => by rw [ended] at more; cases more) ?_
    · rcases finishRun_cases s p with same | ⟨closed, run, -⟩
      · rw [same]
        exact retouched_leave s p
      · rw [closed]
        exact (Tree.Retouched.close (kind_ne_none_of_isRun run) _).trans
          (retouched_leave (s.closeRun p) p)
    · rcases finishRun_cases s p with same | ⟨closed, run, -⟩
      · rw [same]
        rfl
      · rw [closed]
        exact (Tree.Retouched.close (kind_ne_none_of_isRun run) _).parent p
    · rcases finishRun_cases s p with same | ⟨closed, -⟩
      · rw [same]
        exact Nat.le_refl _
      · rw [closed]
        exact Nat.le_refl _
  | leave _ _ complete =>
    exact .leave (retouched_leave s p) rfl (fun _ => leave_complete complete) (Nat.le_refl _)
  | gap within more _ _ => exact .stay (.refl _) within more (next more)
  | growComment reads _ _ =>
    exact .stay (.update (.move _ _ _ _)) reads.within reads.more (next reads.more)
  | bridge reads _ _ _ => exact .stay (.refl _) reads.within reads.more (next reads.more)
  | endComment _ kind _ =>
    exact effect_close_leave known (by rw [kind]; simp) rfl rfl (Nat.le_refl _)
  | giveBack _ kind _ =>
    exact effect_close_leave known (by rw [kind]; simp) rfl rfl (Nat.le_refl _)
  | sameLine reads _ _ _ => exact .stay (.refl _) reads.within reads.more (next reads.more)
  | growImports reads _ _ _ =>
    exact .stay (.update (.move _ _ _ _)) reads.within reads.more (next reads.more)
  | endImports _ kind _ _ =>
    exact effect_close_leave known (by rw [kind]; simp) rfl rfl (Nat.le_refl _)
  | openBlock hosts _ => exact .enter (.refl _) rfl rfl hosts.host hosts.more (next hosts.more)
  | openComment hosts _ _ =>
    exact .enter (.refl _) rfl rfl hosts.host hosts.more (next hosts.more)
  | openImports hosts _ => exact .enter (.refl _) rfl rfl hosts.host hosts.more (next hosts.more)
  | openGroup hosts _ _ found _ =>
    exact .enter (.refl _) rfl rfl hosts.host hosts.more (behind hosts.token found)
  | endGroup _ _ _ _ kind =>
    exact effect_close_leave known (by rw [kind]; simp) rfl rfl (Nat.le_refl _)
  | switchGroup hosts _ _ found _ near _ =>
    have closed := Tree.Retouched.close (kind_ne_none_of_isOpen (Tree.of_nearestOpen? near).2.1)
    exact .enter (closed _) rfl (congrArg some (closed _).size) hosts.host hosts.more
      (behind hosts.token found)
  | openArm hosts _ _ => exact .enter (.refl _) rfl rfl hosts.host hosts.more (below hosts.more)
  | pendingArm hosts _ _ _ =>
    exact .enter (.refl _) rfl rfl hosts.host hosts.more (below hosts.more)
  | firstArm hosts _ _ _ _ =>
    exact .enter (.refl _) rfl rfl hosts.host hosts.more (below hosts.more)
  | endArm _ _ _ _ near =>
    have live := (Tree.of_nearestOpen? near).2.1
    exact effect_close_leave known (kind_ne_none_of_isOpen live) rfl rfl (Nat.le_refl _)
  | switchArm hosts _ _ _ near _ =>
    have closed := Tree.Retouched.close (kind_ne_none_of_isOpen (Tree.of_nearestOpen? near).2.1)
    exact .enter (closed _) rfl (congrArg some (closed _).size) hosts.host hosts.more
      (below hosts.more)
  | closeArm hosts _ _ =>
    unfold Scan.closeArm
    split
    next near =>
      have live := (Tree.of_nearestOpen? near).2.1
      exact .stay (.close (kind_ne_none_of_isOpen live) _) hosts.within hosts.more
        (below hosts.more)
    next => exact .stay (.refl _) hosts.within hosts.more (below hosts.more)
  | closeBlock hosts _ _ kind =>
    exact effect_close_leave known (by rw [kind]; simp) rfl rfl (Nat.le_of_lt (next hosts.more))
  | closeGroup _ _ _ kind =>
    exact effect_close_leave known (by rw [kind]; simp) rfl rfl (Nat.le_refl _)
  | pass hosts _ _ _ => exact .stay (.refl _) hosts.within hosts.more (next hosts.more)

end Effects

/-! ## What every state of a scan is like -/

/-- The region being read and those around it, from the inside out. -/
def path (s : Scan) : List Nat :=
  match s.within with
  | some p => s.tree.ancestors p
  | none => []

theorem path_eq {s : Scan} {p : Nat} (within : s.within = some p) :
    s.path = s.tree.ancestors p := by
  unfold path
  rw [within]

/-- A state of a scan of this stream. -/
structure Steady (options : ScanOptions) (d : Document) (tokens : List Token) (s : Scan) :
    Prop where
  options : s.options = options
  document : s.cursor.document = d
  tokens : s.cursor.tokens = tokens
  split : ∃ done rest, s.cursor.Split done rest
  rooted : s.tree.Rooted
  rootLive : (s.tree.node 0).complete = false
  known : ∀ p, s.within = some p → p < s.tree.nodes.size
  reading : s.cursor.atEnd = false → s.within.isSome = true
  onPath : s.cursor.atEnd = false → ∀ i, (s.tree.node i).isOpen = true → i ∈ s.path
  leaf : ∀ i q, (s.tree.node i).parent = some q → (s.tree.node q).isRun = false

section Steady

variable {options : ScanOptions} {d : Document} {tokens : List Token} {s s' : Scan} {p : Nat}

theorem split_start (options : ScanOptions) (d : Document) (tokens : List Token) :
    (start options d tokens).cursor.Split [] tokens :=
  ⟨rfl, fun _ member => absurd member List.not_mem_nil, fun _ _ => Nat.zero_le _, d.boundary_zero⟩

theorem steady_start (options : ScanOptions) (d : Document) (tokens : List Token) :
    Steady options d tokens (start options d tokens) where
  options := rfl
  document := rfl
  tokens := rfl
  split := ⟨[], tokens, split_start options d tokens⟩
  rooted := Tree.rooted_empty
  rootLive := rfl
  known := by
    intro p within
    cases within
    exact Nat.zero_lt_one
  reading := fun _ => rfl
  onPath := by
    intro _ i live
    rw [show (start options d tokens).tree = Tree.empty from rfl, Tree.node_empty] at live
    cases live
  leaf := by
    intro i q up
    rw [show (start options d tokens).tree = Tree.empty from rfl, Tree.node_empty] at up
    cases up

theorem Steady.formed (steady : Steady options d tokens s) (formed : Token.WellFormed d tokens) :
    Token.WellFormed s.cursor.document s.cursor.tokens := by
  rw [steady.document, steady.tokens]
  exact formed

theorem Steady.ordered (steady : Steady options d tokens s) (ordered : Token.Ordered d tokens) :
    Token.Ordered s.cursor.document s.cursor.tokens := by
  rw [steady.document, steady.tokens]
  exact ordered

/-- The way up from a region is that region and the way up from its parent. -/
theorem Steady.path_cons (steady : Steady options d tokens s) (within : s.within = some p) :
    p = 0 ∧ (s.tree.node p).parent = none ∧ s.path = [p] ∨
      ∃ q, q < p ∧ (s.tree.node p).parent = some q ∧ s.path = p :: s.tree.ancestors q := by
  rw [path_eq within]
  rcases Nat.eq_zero_or_pos p with rfl | positive
  · have top := steady.rooted.root.2
    exact Or.inl ⟨rfl, top, Tree.ancestors_of_none top⟩
  · obtain ⟨-, q, below, up⟩ := steady.rooted.region p positive (steady.known p within)
    exact Or.inr ⟨q, below, up, Tree.ancestors_of_some up below⟩

theorem isOpen_of_retouched {t t' : Tree} {i : Nat} (same : t.Retouched t')
    (live : (t'.node i).isOpen = true) : (t.node i).isOpen = true := by
  unfold Node.isOpen at live ⊢
  rw [Bool.and_eq_true, Bool.not_eq_true'] at live ⊢
  refine ⟨by rw [← same.kind]; exact live.1, ?_⟩
  by_contra complete
  have := same.complete i (by simpa using complete)
  rw [live.2] at this
  cases this

theorem isRun_of_retouched {t t' : Tree} (same : t.Retouched t') (i : Nat) :
    (t'.node i).isRun = (t.node i).isRun := by
  unfold Node.isRun
  rw [same.kind]

theorem isOpen_add_old {t : Tree} {o : Opening} {i : Nat} (known : p < t.nodes.size)
    (old : i ≠ t.nodes.size) : ((t.add p o).node i).isOpen = (t.node i).isOpen := by
  obtain ⟨children, same⟩ := Tree.exists_node_add (o := o) known old
  rw [same]
  rfl

theorem isRun_add {t : Tree} {o : Opening} {i : Nat} (known : p < t.nodes.size)
    (old : i ≠ t.nodes.size) : ((t.add p o).node i).isRun = (t.node i).isRun := by
  unfold Node.isRun
  rw [Tree.kind_add known old]

theorem Turn.options_eq (turn : Turn s p s') : s'.options = s.options := by
  cases turn with
  | finish _ _ =>
    rcases finishRun_cases s p with same | ⟨closed, -⟩
    · rw [same]
      rfl
    · rw [closed]
      rfl
  | closeArm _ _ _ =>
    unfold Scan.closeArm
    split <;> rfl
  | _ => rfl

theorem path_stay (within : s.within = some p) (same : s.tree.Retouched s'.tree)
    (inside : s'.within = some p) : s'.path = s.path := by
  rw [path_eq within, path_eq inside, same.ancestors]

theorem path_enter {t : Tree} {o : Opening} (within : s.within = some p)
    (known : p < s.tree.nodes.size) (same : s.tree.Retouched t) (grown : s'.tree = t.add p o)
    (inside : s'.within = some s.tree.nodes.size) :
    s'.path = s.tree.nodes.size :: s.path := by
  have known' : p < t.nodes.size := by rw [same.size]; exact known
  rw [path_eq within, path_eq inside, grown, ← same.size, Tree.ancestors_add_new known',
    same.ancestors]

theorem Steady.path_leave (steady : Steady options d tokens s) (within : s.within = some p)
    (same : s.tree.Retouched s'.tree) (outside : s'.within = (s.tree.node p).parent) :
    s.path = p :: s'.path := by
  rcases steady.path_cons within with ⟨-, top, path⟩ | ⟨q, -, up, path⟩
  · rw [path]
    unfold Scan.path
    rw [outside, top]
  · rw [up] at outside
    rw [path, path_eq outside, same.ancestors]

theorem Steady.leaf_retouched {t : Tree} (steady : Steady options d tokens s)
    (same : s.tree.Retouched t) {i q : Nat} (up : (t.node i).parent = some q) :
    (t.node q).isRun = false := by
  rw [isRun_of_retouched same]
  exact steady.leaf i q (by rw [← same.parent]; exact up)

theorem Steady.unread (ordered : Token.Ordered d tokens) (steady : Steady options d tokens s)
    (turn : Turn s p s') (more : s'.cursor.atEnd = false) : s.cursor.atEnd = false := by
  obtain ⟨done, rest, split⟩ := steady.split
  obtain ⟨-, forward⟩ := turn.moved.split (steady.ordered ordered) split
  rw [Cursor.atEnd_eq_false_iff, turn.moved.same.1] at more
  exact Cursor.atEnd_eq_false_iff.2 (Nat.lt_of_le_of_lt forward more)

/-- A turn leads from a state of the scan to a state of the scan. -/
theorem Steady.turn (ordered : Token.Ordered d tokens) (steady : Steady options d tokens s)
    (within : s.within = some p) (turn : Turn s p s') : Steady options d tokens s' := by
  obtain ⟨done, rest, split⟩ := steady.split
  have known := steady.known p within
  have ordered' := steady.ordered ordered
  have effect := turn.effect ordered' split known
  obtain ⟨document, tokens⟩ := turn.moved.same
  obtain ⟨cut, -⟩ := turn.moved.split ordered' split
  have unread := steady.unread ordered turn
  have nonempty := steady.rooted.nonempty
  cases effect with
  | stay same inside _ _ =>
    refine ⟨turn.options_eq.trans steady.options, document.trans steady.document,
      tokens.trans steady.tokens, cut, same.rooted steady.rooted, ?_, ?_, ?_, ?_, ?_⟩
    · rw [(same.node 0).root steady.rooted.root.1]
      exact steady.rootLive
    · intro q here
      rw [inside, Option.some.injEq] at here
      rw [← here, same.size]
      exact known
    · intro _
      rw [inside]
      rfl
    · intro more i live
      rw [path_stay within same inside]
      exact steady.onPath (unread more) i (isOpen_of_retouched same live)
    · exact fun i q up => steady.leaf_retouched same up
  | @enter t o same grown inside host more _ =>
    have known' : p < t.nodes.size := by rw [same.size]; exact known
    refine ⟨turn.options_eq.trans steady.options, document.trans steady.document,
      tokens.trans steady.tokens, cut, ?_, ?_, ?_, ?_, ?_, ?_⟩
    · rw [grown]
      exact (same.rooted steady.rooted).add known'
    · have old : 0 ≠ t.nodes.size := by rw [same.size]; omega
      obtain ⟨children, node⟩ := Tree.exists_node_add (o := o) known' old
      rw [grown, node, ← steady.rootLive]
      exact (same.node 0).root steady.rooted.root.1
    · intro q here
      rw [inside, Option.some.injEq] at here
      rw [← here, grown, Tree.nodes_size_add, same.size]
      exact Nat.lt_succ_self _
    · intro _
      rw [inside]
      rfl
    · intro _ i live
      rw [path_enter within known same grown inside]
      by_cases new : i = s.tree.nodes.size
      · rw [new]
        exact List.mem_cons_self
      · rw [grown, isOpen_add_old known' (by rw [same.size]; exact new)] at live
        exact List.mem_cons_of_mem _ (steady.onPath more i (isOpen_of_retouched same live))
    · intro i q up
      rw [grown] at up ⊢
      by_cases new : i = t.nodes.size
      · -- the new region lies in the region being read, which is no run
        rw [new, Tree.node_add_new known'] at up
        cases up
        rw [isRun_add known' (by omega), isRun_of_retouched same]
        exact host
      · rw [Tree.parent_add known' new] at up
        have below := (same.rooted steady.rooted).parent_lt up
        rw [isRun_add known' (by omega)]
        exact steady.leaf_retouched same up
  | leave same outside complete _ =>
    have path := steady.path_leave within same outside
    refine ⟨turn.options_eq.trans steady.options, document.trans steady.document,
      tokens.trans steady.tokens, cut, same.rooted steady.rooted, ?_, ?_, ?_, ?_, ?_⟩
    · rw [(same.node 0).root steady.rooted.root.1]
      exact steady.rootLive
    · intro q here
      rcases steady.path_cons within with ⟨-, top, -⟩ | ⟨parent, below, up, -⟩
      · rw [outside, top] at here
        cases here
      · rw [outside, up, Option.some.injEq] at here
        rw [same.size]
        omega
    · intro more
      rcases steady.path_cons within with ⟨rfl, -⟩ | ⟨parent, -, up, -⟩
      · -- the root is only left at the end
        have done := complete (unread more)
        rw [(same.node 0).root steady.rooted.root.1, steady.rootLive] at done
        cases done
      · rw [outside, up]
        rfl
    · intro more i live
      have member := steady.onPath (unread more) i (isOpen_of_retouched same live)
      rw [path] at member
      rcases List.mem_cons.1 member with rfl | member
      · unfold Node.isOpen at live
        rw [complete (unread more), Bool.and_comm] at live
        cases live
      · exact member
    · exact fun i q up => steady.leaf_retouched same up

/-- As long as the document is not over, the regions inside the one being read are complete. -/
theorem Steady.children_complete (steady : Steady options d tokens s) (within : s.within = some p)
    (more : s.cursor.atEnd = false) {c : Nat} (member : c ∈ (s.tree.node p).children) :
    (s.tree.node c).complete = true := by
  have child := steady.rooted.child p c member
  by_contra live
  have region := (steady.rooted.region c (by omega) child.2.1).1
  have open_ : (s.tree.node c).isOpen = true := by
    unfold Node.isOpen
    rw [region, Bool.eq_false_iff.2 live]
    rfl
  have up := steady.onPath more c open_
  rw [path_eq within] at up
  have := Tree.le_of_mem_ancestors up
  omega

/-! ## The whole run -/

/-- What is left to do: two turns for each byte, and one for each region to leave. -/
def rank (s : Scan) : Nat := 2 * (s.document.length - s.cursor.position) + s.path.length

/-- Every turn brings the scan closer to its end. -/
theorem Steady.rank_lt (ordered : Token.Ordered d tokens) (steady : Steady options d tokens s)
    (within : s.within = some p) (turn : Turn s p s') : s'.rank < s.rank := by
  obtain ⟨done, rest, split⟩ := steady.split
  have known := steady.known p within
  have ordered' := steady.ordered ordered
  have document : s'.document = s.document := turn.moved.same.1
  unfold rank
  rw [document]
  cases turn.effect ordered' split known with
  | stay same inside more forward =>
    have inside' : s.cursor.position < s.document.length := Cursor.atEnd_eq_false_iff.1 more
    rw [path_stay within same inside]
    omega
  | enter same grown inside _ more forward =>
    have inside' : s.cursor.position < s.document.length := Cursor.atEnd_eq_false_iff.1 more
    rw [path_enter within known same grown inside, List.length_cons]
    omega
  | leave same outside _ forward =>
    rw [steady.path_leave within same outside, List.length_cons]
    omega

theorem step_of_none (ended : s.within = none) : s.step = s := by
  unfold step
  rw [ended]

theorem steps_of_none (ended : s.within = none) (n : Nat) : steps n s = s := by
  induction n with
  | zero => rfl
  | succ n ih =>
    rw [steps, step_of_none ended]
    exact ih

/-- What every turn preserves holds after any number of steps, also if tokens overlap. -/
theorem ordered_steps_induction {P : Scan → Prop} (ordered : Token.Ordered d tokens)
    (keeps : ∀ s p s', Steady options d tokens s → P s → s.within = some p → Turn s p s' → P s')
    (steady : Steady options d tokens s) (holds : P s) (n : Nat) :
    Steady options d tokens (steps n s) ∧ P (steps n s) := by
  induction n generalizing s with
  | zero => exact ⟨steady, holds⟩
  | succ n ih =>
    rw [steps]
    cases within : s.within with
    | none =>
      rw [step_of_none within]
      exact ih steady holds
    | some p =>
      have turn := step_turn within
      exact ih (steady.turn ordered within turn) (keeps s p s.step steady holds within turn)

/-- Any number of steps from the start leads to a state of the scan. -/
theorem steady_steps (ordered : Token.Ordered d tokens) (n : Nat) :
    Steady options d tokens (steps n (start options d tokens)) :=
  (ordered_steps_induction (P := fun _ => True) ordered (fun _ _ _ _ _ _ _ => trivial)
    (steady_start options d tokens) trivial n).1

/-- What every turn preserves holds after any number of steps. -/
theorem steps_induction {P : Scan → Prop} (formed : Token.WellFormed d tokens)
    (keeps : ∀ s p s', Steady options d tokens s → P s → s.within = some p → Turn s p s' → P s')
    (steady : Steady options d tokens s) (holds : P s) (n : Nat) :
    Steady options d tokens (steps n s) ∧ P (steps n s) :=
  ordered_steps_induction formed.ordered keeps steady holds n

theorem within_steps (ordered : Token.Ordered d tokens) (steady : Steady options d tokens s)
    {n : Nat} (enough : s.rank ≤ n) : (steps n s).within = none := by
  induction n generalizing s with
  | zero =>
    cases within : s.within with
    | none => exact within
    | some p =>
      unfold rank at enough
      rw [path_eq within, Tree.ancestors, List.length_cons] at enough
      omega
  | succ n ih =>
    rw [steps]
    cases within : s.within with
    | none => rw [step_of_none within, steps_of_none within, within]
    | some p =>
      have turn := step_turn within
      have closer := steady.rank_lt ordered within turn
      exact ih (steady.turn ordered within turn) (by omega)

/-- A scan is only over when the document is. -/
theorem Steady.atEnd_of_none (steady : Steady options d tokens s) (ended : s.within = none) :
    s.cursor.atEnd = true := by
  rw [← Bool.not_eq_false]
  intro more
  have reading := steady.reading more
  rw [ended] at reading
  cases reading

/-- On an ordered stream a scan leaves every region and reads the document to its end, and what
every turn preserves holds there. -/
theorem ordered_finish_over {P : Scan → Prop} (ordered : Token.Ordered d tokens)
    (keeps : ∀ s p s', Steady options d tokens s → P s → s.within = some p → Turn s p s' → P s')
    (holds : P (start options d tokens)) :
    let s := (start options d tokens).finish
    Steady options d tokens s ∧ P s ∧ s.within = none ∧ s.cursor.Split tokens [] := by
  have first := steady_start options d tokens
  obtain ⟨steady, kept⟩ := ordered_steps_induction ordered keeps first holds
    (2 * (start options d tokens).document.length + 1)
  have rank : (start options d tokens).rank =
      2 * (start options d tokens).document.length + 1 := by
    have path : (start options d tokens).path = [0] := Tree.ancestors_of_none first.rooted.root.2
    unfold Scan.rank
    rw [path]
    rfl
  have ended := within_steps ordered first (Nat.le_of_eq rank)
  refine ⟨steady, kept, ended, ?_⟩
  have read := steady.atEnd_of_none ended
  obtain ⟨done, rest, split⟩ := steady.split
  have all := split.tokens
  obtain rfl := split.rest_eq_nil (steady.ordered ordered) read
  rw [List.append_nil, steady.tokens] at all
  exact all ▸ split

/-- On a well-formed stream a scan leaves every region and reads the document to its end, and what
every turn preserves holds there. -/
theorem finish_over {P : Scan → Prop} (formed : Token.WellFormed d tokens)
    (keeps : ∀ s p s', Steady options d tokens s → P s → s.within = some p → Turn s p s' → P s')
    (holds : P (start options d tokens)) :
    let s := (start options d tokens).finish
    Steady options d tokens s ∧ P s ∧ s.within = none ∧ s.cursor.Split tokens [] :=
  ordered_finish_over formed.ordered keeps holds

end Steady

end Scan

end CodeFolding
