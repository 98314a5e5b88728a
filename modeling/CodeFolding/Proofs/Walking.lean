import Mathlib
import CodeFolding.Proofs.Reading

/-!
# Walking a document

A cursor that starts at the first byte and advances as long as it can walks its document
(`Cursor.walk`).  On the way it reads tokens (`Cursor.seen`), and these are the stream:

* `Split.advance`: a move takes the token that the cursor reads, or none.
* `exists_split_walk`: what was seen on the way is what the stream holds before the cursor.
* `exists_moves`: a walk comes to the end and stays there.
* `walk_reads_stream`: the moves, places and tokens of a whole walk.
-/

namespace CodeFolding

namespace Cursor

/-- The cursor after a number of moves from the start of a document. -/
def walk (d : Document) (tokens : List Token) (n : Nat) : Cursor := advance^[n] (start d tokens)

/-- The tokens that a walk reads at its first `n` places, in order. -/
def seen (d : Document) (tokens : List Token) (n : Nat) : List Token :=
  (List.range n).filterMap fun i => (walk d tokens i).token?

section Walk

variable {c : Cursor} {done rest : List Token} {d : Document} {tokens : List Token} {n : Nat}

theorem walk_succ (d : Document) (tokens : List Token) (n : Nat) :
    walk d tokens (n + 1) = (walk d tokens n).advance :=
  Function.iterate_succ_apply' ..

theorem seen_succ (d : Document) (tokens : List Token) (n : Nat) :
    seen d tokens (n + 1) = seen d tokens n ++ (walk d tokens n).token?.toList := by
  unfold seen
  rw [List.range_succ, List.filterMap_append]
  rfl

theorem walk_document (d : Document) (tokens : List Token) (n : Nat) :
    (walk d tokens n).document = d := by
  induction n with
  | zero => rfl
  | succ n ih => rw [walk_succ, advance_document, ih]

theorem walk_tokens (d : Document) (tokens : List Token) (n : Nat) :
    (walk d tokens n).tokens = tokens := by
  induction n with
  | zero => rfl
  | succ n ih => rw [walk_succ, advance_tokens, ih]

/-! ## What a walk has read -/

/-- A move takes the token that the cursor reads, or none. -/
theorem Split.advance (placed : Token.Placed c.document c.tokens) (split : c.Split done rest) :
    ∃ later, c.advance.Split (done ++ c.token?.toList) later := by
  cases found : c.token? with
  | some t =>
    obtain ⟨later, rfl, -, -⟩ := split.reads_next placed found
    exact ⟨later, split.takes_token placed found⟩
  | none =>
    rw [Option.toList_none, List.append_nil]
    cases ended : c.atEnd with
    | true =>
      rw [advance_of_atEnd ended]
      exact ⟨rest, split⟩
    | false => exact ⟨rest, split.takes_none placed found ended⟩

theorem placed_walk (placed : Token.Placed d tokens) (n : Nat) :
    Token.Placed (walk d tokens n).document (walk d tokens n).tokens := by
  rw [walk_document, walk_tokens]
  exact placed

/-- What a walk has seen is what the stream holds before the cursor. -/
theorem exists_split_walk (placed : Token.Placed d tokens) (n : Nat) :
    ∃ rest, (walk d tokens n).Split (seen d tokens n) rest := by
  induction n with
  | zero =>
    refine ⟨tokens, rfl, ?_, fun _ _ => Nat.zero_le _, d.boundary_zero⟩
    intro t member
    cases member
  | succ n ih =>
    obtain ⟨rest, split⟩ := ih
    rw [walk_succ, seen_succ]
    exact split.advance (placed_walk placed n)

/-- At the end a walk has seen the stream. -/
theorem seen_of_atEnd (placed : Token.Placed d tokens) (ended : (walk d tokens n).atEnd = true) :
    (walk d tokens n).Split (seen d tokens n) [] ∧ seen d tokens n = tokens := by
  obtain ⟨rest, split⟩ := exists_split_walk placed n
  have formed := placed_walk placed n
  have none : rest = [] := by
    refine split.eq_nil_of_inside ?_ ended
    intro u member
    exact Nat.lt_of_lt_of_le (formed.nonempty u member) (formed.boundary u member).2.le_length
  subst none
  have all := split.tokens
  rw [walk_tokens, List.append_nil] at all
  exact ⟨split, all.symm⟩

/-! ## How far a walk goes -/

theorem atEnd_walk_succ (ended : (walk d tokens n).atEnd = true) :
    (walk d tokens (n + 1)).atEnd = true := by
  rw [walk_succ, advance_of_atEnd ended]
  exact ended

/-- A walk goes one byte forward at least with each move, until it ends. -/
theorem le_position_walk (d : Document) (tokens : List Token) (n : Nat) :
    (walk d tokens n).atEnd = true ∨ n ≤ (walk d tokens n).position := by
  induction n with
  | zero => exact Or.inr (Nat.zero_le _)
  | succ n ih =>
    cases ended : (walk d tokens n).atEnd with
    | true => exact Or.inl (atEnd_walk_succ ended)
    | false =>
      have forward := position_lt_of_advance? (advance?_eq_some ended)
      rw [← walk_succ] at forward
      rcases ih with ended' | ahead
      · rw [ended] at ended'
        cases ended'
      · exact Or.inr (Nat.lt_of_le_of_lt ahead forward)

/-- A walk comes to the end of its document after some number of moves and stays there. -/
theorem exists_moves (d : Document) (tokens : List Token) :
    ∃ moves, ∀ n, (walk d tokens n).atEnd = true ↔ moves ≤ n := by
  have ends : ∃ n, (walk d tokens n).atEnd = true := by
    -- after as many moves as there are bytes nothing can be left
    refine ⟨d.length, ?_⟩
    rcases le_position_walk d tokens d.length with ended | far
    · exact ended
    · unfold atEnd
      rw [walk_document]
      exact decide_eq_true far
  refine ⟨Nat.find ends, fun n => ⟨Nat.find_min' ends, ?_⟩⟩
  intro past
  induction n, past using Nat.le_induction with
  | base => exact Nat.find_spec ends
  | succ n _ ih => exact atEnd_walk_succ ih

end Walk

end Cursor

/-- A walk over tokens in order and apart makes some number of moves and then stands still for
good.  Every move goes forward, all its places are boundaries, and the last is the end of the
document.  The tokens that it reads on the way are the stream, and at each of them the tokens
before and behind it in the stream are at hand. -/
theorem walk_reads_stream (d : Document) (tokens : List Token)
    (placed : Token.Placed d tokens) :
    let walk := Cursor.walk d tokens
    let seen := Cursor.seen d tokens
    ∃ moves,
      (∀ n, (walk n).advance? = if n < moves then some (walk (n + 1)) else none) ∧
      (∀ n, (walk n).atEnd = true ↔ moves ≤ n) ∧
      (∀ n < moves, (walk n).position < (walk (n + 1)).position) ∧
      (∀ n, d.Boundary (walk n).position) ∧
      (∀ n, moves ≤ n → (walk n).position = d.length ∧ (walk n).token? = none) ∧
      seen moves = tokens ∧
      ∀ n t, (walk n).token? = some t →
        ∃ later, tokens = seen n ++ t :: later ∧ (walk n).index? = some (seen n).length ∧
          (walk n).previous? = (seen n).getLast? ∧ (walk n).next? = later.head? := by
  intro walk seen
  obtain ⟨moves, ends⟩ := Cursor.exists_moves d tokens
  have moving : ∀ n, n < moves → (walk n).advance? = some (walk (n + 1)) := by
    intro n before
    have more : (walk n).atEnd = false :=
      Bool.eq_false_iff.2 fun ended => Nat.not_le.2 before ((ends n).1 ended)
    rw [Cursor.advance?_eq_some more]
    exact congrArg some (Cursor.walk_succ d tokens n).symm
  have boundary : ∀ n, d.Boundary (walk n).position := by
    intro n
    obtain ⟨rest, split⟩ := Cursor.exists_split_walk placed n
    have here := split.boundary
    rw [Cursor.walk_document] at here
    exact here
  refine ⟨moves, ?_, ends, ?_, boundary, ?_, ?_, ?_⟩
  · intro n
    split
    next before => exact moving n before
    next past => exact Cursor.advance?_eq_none ((ends n).2 (Nat.le_of_not_lt past))
  · intro n before
    exact Cursor.position_lt_of_advance? (moving n before)
  · intro n past
    have ended := (ends n).2 past
    obtain ⟨split, -⟩ := Cursor.seen_of_atEnd placed ended
    constructor
    · have far := of_decide_eq_true ended
      rw [Cursor.walk_document] at far
      exact Nat.le_antisymm (boundary n).le_length far
    · cases found : (walk n).token? with
      | none => rfl
      | some t =>
        obtain ⟨later, more, -⟩ := split.reads_next (Cursor.placed_walk placed n) found
        cases more
  · exact (Cursor.seen_of_atEnd placed ((ends moves).2 (Nat.le_refl _))).2
  · intro n t found
    obtain ⟨rest, split⟩ := Cursor.exists_split_walk placed n
    obtain ⟨later, rfl, -, index⟩ := split.reads_next (Cursor.placed_walk placed n) found
    refine ⟨later, ?_, index, split.previous?_eq index, split.next?_eq index⟩
    exact (Cursor.walk_tokens d tokens n).symm.trans split.tokens

/-- Two tokens side by side, and a third behind characters of two and three bytes; the texts are
not those of the document. -/
theorem walk_reads_stream_wide :
    let d := Document.ofText 0 "a\x7bé\u3000b".toList
    let word : Token := ⟨⟨0, 1, by decide⟩, .identifier, []⟩
    let brace : Token := ⟨⟨1, 2, by decide⟩, .punctuation, ['}']⟩
    let last : Token := ⟨⟨7, 8, by decide⟩, .identifier, ['b']⟩
    let walk := Cursor.walk d [word, brace, last]
    Token.Placed d [word, brace, last] ∧
      (∀ n, (walk n).atEnd = true ↔ 5 ≤ n) ∧
      Cursor.seen d [word, brace, last] 5 = [word, brace, last] ∧
      (walk 4).position = 7 ∧ (walk 4).previous? = some brace ∧ (walk 4).next? = none ∧
      (walk 6).position = 8 ∧ (walk 6).advance? = none := by
  intro d word brace last walk
  have placed : Token.Placed d [word, brace, last] := ⟨by decide, by decide, by decide⟩
  obtain ⟨moves, moved, ends, -, -, past, all, reads⟩ :=
    walk_reads_stream d [word, brace, last] placed
  obtain rfl : moves = 5 := by
    have before : ¬moves ≤ 4 := fun early => absurd ((ends 4).2 early) (by decide)
    have after : moves ≤ 5 := (ends 5).1 (by decide)
    omega
  obtain ⟨later, cut, -, previous, next⟩ := reads 4 last (by decide)
  have before : Cursor.seen d [word, brace, last] 4 = [word, brace] := by decide
  rw [before] at cut previous
  obtain rfl : later = [] := by
    simpa using cut
  exact ⟨placed, ends, all, by decide, previous, next, (past 6 (by decide)).1, moved 6⟩

end CodeFolding
