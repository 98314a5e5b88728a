import Mathlib
import CodeFolding.Proofs.Changes
import CodeFolding.Proofs.SideBySide
import CodeFolding.Proofs.Translation

/-!
# Documents pushed down

Empty lines above a text move all of it down and change nothing else: the tokens are the same
(`classify_pushedDown`), and so are the lines below.  A region that was found at the very top does
not reach up into the new lines.

* `Document.relaid_pushedDown`: the longer text is another layout of the text.
* `outline_pushedDown`: its outline, and the change between the two.
-/

namespace CodeFolding

/-- The region below as many line feeds. -/
def Region.pushedDown (breaks : Nat) (r : Region) : Region :=
  { r with
    span := r.span.shift breaks
    startLine := r.startLine + breaks
    endLine := r.endLine + breaks }

theorem classifyFrom_add (offset k : Nat) (cs : List Char) :
    classifyFrom (offset + k) cs = (classifyFrom offset cs).map (Token.shift k) := by
  fun_induction classifyFrom offset cs with
  | case1 => rw [classifyFrom, List.map_nil]
  | case2 offset c cs more text after found ih =>
    rw [classifyFrom_gap found, Nat.add_right_comm, ih]
  | case3 offset c cs more text after category found ih =>
    rw [classifyFrom_token found, Nat.add_right_comm, ih, Token.at_add, List.map_cons]
  | case4 offset c cs more text after rest width line found ih =>
    have keyword : offset + k + Text.byteLength text = after + k := Nat.add_right_comm offset k _
    rw [classifyFrom_directive found, keyword, Nat.add_right_comm after k, ih, Token.at_add,
      directiveTokens_add, List.map_append, List.map_cons]

theorem classify_pushedDown (k : Nat) (text : List Char) :
    classify (List.replicate k '\n' ++ text) = (classify text).map (Token.shift k) := by
  have skipped : ∀ offset, classifyFrom offset (List.replicate k '\n' ++ text) =
      classifyFrom (offset + k) text := by
    induction k with
    | zero => exact fun _ => rfl
    | succ k ih =>
      intro offset
      have gap : lexeme '\n' (List.replicate k '\n' ++ text) = (.gap, 0) := rfl
      rw [List.replicate_succ, List.cons_append, classifyFrom_skip gap, ih, Nat.add_assoc,
        Nat.add_comm k]
      rfl
  unfold classify
  rw [skipped, classifyFrom_add]

/-! ## The other layout -/

theorem Text.cutLines_pushedDown (k : Nat) (text : List Char) :
    cutLines (List.replicate k '\n' ++ text) =
      List.replicate k ([], ['\n']) ++ (cutLines text).map (writeLine fun c => [c]) := by
  have kept : (cutLines text).map (writeLine fun c => [c]) = cutLines text := by
    have same : ∀ line, writeLine (fun c => [c]) line = line := by
      intro line
      unfold writeLine
      rw [List.flatMap_singleton', List.flatMap_singleton']
    rw [funext same, List.map_id']
  rw [kept]
  induction k with
  | zero => rfl
  | succ k ih =>
    rw [List.replicate_succ, List.replicate_succ, List.cons_append, cutLines, ih,
      List.cons_append]

theorem Text.joinLines_replicate (k : Nat) :
    joinLines (List.replicate k ([], ['\n'])) = List.replicate k '\n' := by
  induction k with
  | zero => rfl
  | succ k ih =>
    rw [List.replicate_succ, joinLines_cons, ih, List.replicate_succ]
    rfl

theorem Text.byteLength_breaks (k : Nat) : byteLength (List.replicate k '\n') = k := by
  induction k with
  | zero => rfl
  | succ k ih =>
    rw [List.replicate_succ, byteLength_cons, ih, Nat.add_comm]
    rfl

namespace Document

variable {d d' : Document} {k o o' : Nat}

theorem Boundary.writtenAt (boundary : d.Boundary o) (k : Nat) :
    d.WrittenAt (List.replicate k '\n') (fun c => [c]) o (o + k) := by
  obtain ⟨front, rest, cut, rfl⟩ := boundary
  refine ⟨front, rest, cut, rfl, ?_⟩
  rw [Text.byteLength_append, Text.byteLength_breaks, List.flatMap_singleton', Nat.add_comm]

theorem WrittenAt.eq_add (here : d.WrittenAt (List.replicate k '\n') (fun c => [c]) o o') :
    o' = o + k := by
  obtain ⟨front, rest, cut, rfl, rfl⟩ := here
  rw [Text.byteLength_append, Text.byteLength_breaks, List.flatMap_singleton', Nat.add_comm]

theorem relaid_pushedDown (text : d'.text = List.replicate k '\n' ++ d.text) :
    Relaid k (d.WrittenAt (List.replicate k '\n') fun c => [c]) d d' := by
  have lines : Text.cutLines d'.text = List.replicate k ([], ['\n']) ++
      (Text.cutLines d.text).map (Text.writeLine fun c => [c]) := by
    rw [text, Text.cutLines_pushedDown]
  have tokens : List.Forall₂ (Token.Relaid (d.WrittenAt (List.replicate k '\n') fun c => [c]))
      (classify d.text) (classify d'.text) := by
    rw [text, classify_pushedDown, List.forall₂_map_right_iff, List.forall₂_same]
    intro t member
    have formed := classify_wellFormed d
    exact ⟨rfl, (formed.boundary_start member).writtenAt k,
      (formed.boundary_stop member).writtenAt k, fun _ _ => rfl, rfl⟩
  have empty : ∀ line ∈ List.replicate k (([] : List Char), ['\n']), line.1 = [] := by
    intro line member
    rw [List.eq_of_mem_replicate member]
  have blank : ∀ c, Text.allBlank [c] = Text.isBlank c := fun c => Bool.and_true _
  rw [← Text.joinLines_replicate k] at tokens
  have laid := Relaid.of_written lines empty (fun c => List.cons_ne_nil c []) blank tokens
  rw [List.length_replicate, Text.joinLines_replicate] at laid
  exact laid

end Document

/-! ## The two outlines -/

theorem Region.Relaid.eq_pushedDown {d : Document} {k : Nat} {r r' : Region}
    (pair : r.Relaid k (d.WrittenAt (List.replicate k '\n') fun c => [c]) r') :
    r.pushedDown k = r' := by
  have span : r.span.shift k = r'.span :=
    Span.ext pair.start.eq_add.symm pair.stop.eq_add.symm
  obtain ⟨kind, span', startLine, endLine, depth, fromPriorLine⟩ := r'
  unfold Region.pushedDown
  rw [Region.mk.injEq]
  exact ⟨pair.kind.symm, span, pair.startLine.symm, pair.endLine.symm, pair.depth.symm,
    pair.fromPriorLine.symm⟩

/-- What is inserted before everything moves every span by its length. -/
theorem Edit.moveAll_insertion {k : Nat} {span : Span} (small : span.stop + k < limit32) :
    Edit.moveAll [Edit.insertion 0 k] span = .ok (span.shift k) := by
  have same : (Edit.insertion 0 k).moved span = span.shift k := by
    obtain ⟨start, stop⟩ := Edit.moved_behind (e := Edit.insertion 0 k) (Nat.zero_le span.start)
    exact Span.ext start stop
  have step : (Edit.insertion 0 k).move span = .ok (span.shift k) := by
    rw [← same]
    apply Edit.move_of_lt
    rw [same]
    exact small
  exact Edit.moveAll_cons step

theorem Outline.change_eq_none {o o' : Outline} {k : Nat}
    (sound : ∀ r ∈ o.regions, r.Sound o.document)
    (small : o.document.length + k < limit32)
    (regions : o'.regions = o.regions.map (Region.pushedDown k)) :
    o.change o' [Edit.insertion 0 k] = .ok none := by
  have moved : ∀ r ∈ o.regions,
      Edit.moveAll [Edit.insertion 0 k] r.span = .ok (r.span.shift k) := by
    intro r member
    have inside := (sound r member).inside
    exact Edit.moveAll_insertion (by omega)
  have spans : o.movedSpans [Edit.insertion 0 k] = o'.spans := by
    ext s
    unfold movedSpans spans
    rw [regions]
    constructor
    · rintro ⟨r, member, there⟩
      rw [moved r member] at there
      exact ⟨r.pushedDown k, List.mem_map_of_mem member, Except.ok.inj there⟩
    · rintro ⟨r', member', rfl⟩
      obtain ⟨r, member, rfl⟩ := List.mem_map.1 member'
      exact ⟨r, member, moved r member⟩
  obtain ⟨changed, found, cover⟩ :=
    exists_change (fun r member => ⟨_, moved r member⟩ : o.Movable [Edit.insertion 0 k]) o'
  rw [spans, symmDiff_self] at cover
  rw [found, cover.eq_none_iff.2 rfl]

/-- Below `k` line feeds a text has the same regions, `k` bytes further on and `k` lines further
down.  So nothing has changed for a reader who knows of the insertion. -/
theorem outline_pushedDown (options : ScanOptions) (session session' : SessionId)
    (version version' : Nat) (text : List Char) (k : Nat)
    (small : Text.byteLength (List.replicate k '\n' ++ text) + 1 < limit32) :
    let d := Document.ofText version text
    let d' := Document.ofText version' (List.replicate k '\n' ++ text)
    ∃ o o', Outline.ofTokens options session d (classify d.text) = .ok o ∧
      Outline.ofTokens options session' d' (classify d'.text) = .ok o' ∧
      o'.regions = o.regions.map (Region.pushedDown k) ∧
      o.change o' [Edit.insertion 0 k] = .ok none := by
  intro d d'
  have laid :=
    Document.relaid_pushedDown (show d'.text = List.replicate k '\n' ++ d.text from rfl)
  obtain ⟨o, o', listed, listed', all⟩ := laid.outlines options session session'
  have regions : o'.regions = o.regions.map (Region.pushedDown k) := by
    have equal := List.Forall₂.imp (fun _ _ pair => Region.Relaid.eq_pushedDown pair) all
    rw [← List.forall₂_map_left_iff, List.forall₂_eq_eq_eq] at equal
    exact equal.symm
  obtain ⟨found, listed_, document, sound⟩ :=
    exists_outline options session (classify_wellFormed d)
  obtain rfl : o = found := Except.ok.inj (listed.symm.trans listed_)
  have fits : o.document.length + k < limit32 := by
    rw [Text.byteLength_append, Text.byteLength_breaks] at small
    rw [document, Document.length_eq]
    show Text.byteLength text + k < limit32
    omega
  rw [← document] at sound
  exact ⟨o, o', listed, listed', regions, Outline.change_eq_none sound fits regions⟩

/-- A block with its header on the very first line, and two line feeds above. -/
theorem outline_pushedDown_header :
    let d := Document.ofText 0 "f()\n\x7b\n\x7d".toList
    let d' := Document.ofText 1 (List.replicate 2 '\n' ++ d.text)
    let block : Region := ⟨.block, ⟨3, 7, by decide⟩, 0, 2, 0, true⟩
    Text.byteLength (List.replicate 2 '\n' ++ d.text) + 1 < limit32 ∧
    ∃ o o', Outline.ofTokens {} 0 d (classify d.text) = .ok o ∧
      Outline.ofTokens {} 0 d' (classify d'.text) = .ok o' ∧
      o.regions = [block] ∧ o'.regions = [⟨.block, ⟨5, 9, by decide⟩, 2, 4, 0, true⟩] ∧
      o.change o' [Edit.insertion 0 2] = .ok none := by
  intro d d' block
  have small : Text.byteLength (List.replicate 2 '\n' ++ d.text) + 1 < limit32 := by decide
  obtain ⟨o, o', listed, listed', regions, unchanged⟩ :=
    outline_pushedDown {} 0 0 0 1 d.text 2 small
  have found : (Tree.ofTokens {} d (classify d.text)).flatten d = .ok [block] := by decide +kernel
  obtain ⟨shown, flat, rfl⟩ := Outline.ofTokens_eq_ok_iff.1 listed
  have shown_eq : shown = [block] := Except.ok.inj (flat.symm.trans found)
  refine ⟨small, _, o', listed, listed', shown_eq, ?_, unchanged⟩
  rw [regions, shown_eq]
  rfl

end CodeFolding
