import Mathlib
import CodeFolding.Proofs.Changes
import CodeFolding.Proofs.Streams

/-!
# Selection of a host's spans

A host classifies spans of a document in any order, and some of them may be empty, lie outside the
document or overlap each other.  `Token.ofSpans` goes through them in the order of their places
and keeps each that can be sliced and does not reach back into what is kept.

* `Token.keepDisjoint_covers`: a span that is not kept starts inside a token that is.
* `Token.ofSpans_perm`: the order of the host does not matter, as long as no span has two
  categories.
* `Token.keepDisjoint_classified`: tokens that are apart keep each other.
* `ofSpans_selects_greedily`: what the selection is in all.
-/

namespace CodeFolding

namespace Token

/-- The classified span that a token was made of. -/
def classified (t : Token) : Classified := (t.span, t.category)

section Keep

variable {d : Document} {reach : Nat} {spans : List Classified} {t : Token}

/-- A token is made of one of the spans. -/
theorem classified_mem_of_mem_keepDisjoint (member : t ∈ keepDisjoint d reach spans) :
    t.classified ∈ spans := by
  induction spans generalizing reach with
  | nil => exact absurd member List.not_mem_nil
  | cons first spans ih =>
    obtain ⟨span, category⟩ := first
    rw [keepDisjoint] at member
    split at member
    next => exact List.mem_cons_of_mem _ (ih member)
    next =>
      cases sliced : d.slice span with
      | error _ =>
        rw [sliced] at member
        exact List.mem_cons_of_mem _ (ih member)
      | ok text =>
        rw [sliced] at member
        rcases List.mem_cons.1 member with rfl | later
        · exact List.mem_cons_self
        · exact List.mem_cons_of_mem _ (ih later)

/-- A span with bytes of the document is kept, or it starts inside a token that is kept, or before
the place up to which tokens were kept already. -/
theorem keepDisjoint_covers (reach : Nat) (sorted : spans.Pairwise fun a b => a.1.le b.1 = true)
    {span : Span} {category : Category} {text : List Char} (member : (span, category) ∈ spans)
    (nonempty : span.start < span.stop) (sliced : d.slice span = .ok text) :
    (∃ t ∈ keepDisjoint d reach spans, t.span = span) ∨
      (∃ t ∈ keepDisjoint d reach spans, t.start ≤ span.start ∧ span.start < t.stop) ∨
      span.start < reach := by
  induction spans generalizing reach with
  | nil => exact absurd member List.not_mem_nil
  | cons first spans ih =>
    obtain ⟨own, ownCategory⟩ := first
    obtain ⟨ahead, sorted⟩ := List.pairwise_cons.1 sorted
    rw [keepDisjoint]
    split
    next dropped =>
      rcases List.mem_cons.1 member with same | later
      · cases same
        rw [Bool.or_eq_true, decide_eq_true_eq, decide_eq_true_eq] at dropped
        omega
      · exact ih reach sorted later
    next =>
      cases ownSliced : d.slice own with
      | error fault =>
        rcases List.mem_cons.1 member with same | later
        · cases same
          rw [sliced] at ownSliced
          cases ownSliced
        · exact ih reach sorted later
      | ok ownText =>
        dsimp only
        rcases List.mem_cons.1 member with same | later
        · cases same
          exact Or.inl ⟨_, List.mem_cons_self, rfl⟩
        · rcases ih own.stop sorted later with ⟨t, kept, same⟩ | ⟨t, kept, around⟩ | inside
          · exact Or.inl ⟨t, List.mem_cons_of_mem _ kept, same⟩
          · exact Or.inr (Or.inl ⟨t, List.mem_cons_of_mem _ kept, around⟩)
          · -- the span comes behind the first one, and starts before its end
            have order : own.start < span.start ∨ own.start = span.start ∧ own.stop ≤ span.stop :=
              Span.le_iff.1 (ahead _ later)
            refine Or.inr (Or.inl ⟨_, List.mem_cons_self, ?_, inside⟩)
            show own.start ≤ span.start
            omega

/-- Tokens that are apart, each with bytes and its text, are all kept. -/
theorem keepDisjoint_classified {tokens : List Token} (formed : WellFormed d tokens)
    (behind : ∀ t ∈ tokens, reach ≤ t.start) :
    keepDisjoint d reach (tokens.map classified) = tokens := by
  induction tokens generalizing reach with
  | nil => rfl
  | cons t tokens ih =>
    obtain ⟨next, apart⟩ := List.pairwise_cons.1 formed.apart
    have later : WellFormed d tokens :=
      ⟨apart, fun u member => formed.nonempty u (List.mem_cons_of_mem _ member),
        fun u member => formed.slice u (List.mem_cons_of_mem _ member)⟩
    have kept :
        ¬ (decide (t.span.start = t.span.stop) || decide (t.span.start < reach)) = true := by
      have width : t.span.start < t.span.stop := formed.nonempty t List.mem_cons_self
      have place : reach ≤ t.span.start := behind t List.mem_cons_self
      rw [Bool.or_eq_true, decide_eq_true_eq, decide_eq_true_eq]
      omega
    rw [List.map_cons, show t.classified = (t.span, t.category) from rfl, keepDisjoint,
      if_neg kept, formed.slice t List.mem_cons_self]
    exact congrArg (t :: ·) (ih later next)

end Keep

/-! ## Order of the host -/

section Order

variable {d : Document} {spans other : List Classified}

/-- The spans of a host in the order of their places. -/
theorem mergeSort_pairwise (spans : List Classified) :
    (spans.mergeSort fun a b => a.1.le b.1).Pairwise fun a b => a.1.le b.1 = true :=
  have trans : ∀ a b c : Classified, a.1.le b.1 → b.1.le c.1 → a.1.le c.1 :=
    fun _ _ _ first second => Span.le_trans first second
  have total : ∀ a b : Classified, a.1.le b.1 || b.1.le a.1 := fun a b => Span.le_total a.1 b.1
  List.pairwise_mergeSort trans total spans

/-- A host may give its spans in any order, as long as it gives no span two categories. -/
theorem ofSpans_perm (perm : other.Perm spans)
    (single : ∀ a ∈ spans, ∀ b ∈ spans, a.1 = b.1 → a.2 = b.2) :
    ofSpans d other = ofSpans d spans := by
  have same : (other.mergeSort fun a b => a.1.le b.1) =
      spans.mergeSort fun a b => a.1.le b.1 := by
    refine List.Perm.eq_of_pairwise ?_ (mergeSort_pairwise other) (mergeSort_pairwise spans)
      ((List.mergeSort_perm _ _).trans (perm.trans (List.mergeSort_perm _ _).symm))
    intro a b left right le ge
    have place : a.1 = b.1 := by
      rw [Span.le_iff] at le ge
      exact Span.ext (by omega) (by omega)
    exact Prod.ext place (single a (perm.mem_iff.1 (List.mem_mergeSort.1 left)) b
      (List.mem_mergeSort.1 right) place)
  unfold ofSpans
  rw [same]

/-- Spans in the order of their places are gone through as they are. -/
theorem ofSpans_of_pairwise (sorted : spans.Pairwise fun a b => a.1.le b.1 = true) :
    ofSpans d spans = keepDisjoint d 0 spans := by
  unfold ofSpans
  rw [List.mergeSort_of_pairwise sorted]

/-- A well-formed stream is the selection of its own spans. -/
theorem WellFormed.ofSpans_classified {tokens : List Token} (formed : WellFormed d tokens) :
    ofSpans d (tokens.map classified) = tokens := by
  have sorted : (tokens.map classified).Pairwise fun a b => a.1.le b.1 = true := by
    refine List.pairwise_map.2 (formed.sorted.imp ?_)
    intro a b lt
    exact Span.le_iff.2 (Or.inl lt)
  rw [ofSpans_of_pairwise sorted]
  exact keepDisjoint_classified formed fun t _ => Nat.zero_le _

/-- Tokens of a well-formed stream that start at the same place are the same token. -/
theorem WellFormed.eq_of_start_eq {tokens : List Token} (formed : WellFormed d tokens)
    {a b : Token} (left : a ∈ tokens) (right : b ∈ tokens) (same : a.start = b.start) :
    a = b := by
  have distinct : (tokens.map start).Nodup :=
    List.pairwise_map.2 (formed.sorted.imp fun lt => Nat.ne_of_lt lt)
  exact List.inj_on_of_nodup_map distinct left right same

/-- The spans of a well-formed stream, in any order, select that stream. -/
theorem WellFormed.ofSpans_of_perm {tokens : List Token} (formed : WellFormed d tokens)
    (perm : other.Perm (tokens.map classified)) : ofSpans d other = tokens := by
  rw [ofSpans_perm perm, formed.ofSpans_classified]
  intro a left b right same
  obtain ⟨t, inStream, rfl⟩ := List.mem_map.1 left
  obtain ⟨u, inStream', rfl⟩ := List.mem_map.1 right
  rw [formed.eq_of_start_eq inStream inStream' (congrArg Span.start same)]

end Order

end Token

/-- The selection of a host's spans in any order.  Its tokens come in order and apart, each has
bytes, stands between two character boundaries inside the document with the text that stands
there, and is one of the spans.  A span with bytes of the document that is not selected starts
inside a token.  The spans of the selection in any order select the same tokens again, and so do
the spans of the host in any other order, if no span has two categories. -/
theorem ofSpans_selects_greedily (d : Document) (spans : List Token.Classified) :
    let tokens := Token.ofSpans d spans
    tokens.Pairwise (fun a b => a.start < b.start ∧ a.stop ≤ b.start) ∧
      (∀ t ∈ tokens, t.start < t.stop ∧ t.stop ≤ d.length ∧ d.Boundary t.start ∧
        d.Boundary t.stop ∧ d.slice t.span = .ok t.text ∧ (t.span, t.category) ∈ spans) ∧
      (∀ span category text, (span, category) ∈ spans → span.start < span.stop →
        d.slice span = .ok text → (∀ t ∈ tokens, t.span ≠ span) →
        ∃ t ∈ tokens, t.start ≤ span.start ∧ span.start < t.stop) ∧
      (∀ again : List Token.Classified, again.Perm (tokens.map fun t => (t.span, t.category)) →
        Token.ofSpans d again = tokens) ∧
      ∀ other : List Token.Classified, other.Perm spans →
        (∀ a ∈ spans, ∀ b ∈ spans, a.1 = b.1 → a.2 = b.2) → Token.ofSpans d other = tokens := by
  intro tokens
  have formed : Token.WellFormed d tokens := Token.ofSpans_wellFormed d spans
  refine ⟨formed.sorted.and formed.apart, ?_, ?_, ?_, ?_⟩
  · intro t member
    have listed := Token.classified_mem_of_mem_keepDisjoint member
    exact ⟨formed.nonempty t member, formed.stop_le_length member, formed.boundary_start member,
      formed.boundary_stop member, formed.slice t member, List.mem_mergeSort.1 listed⟩
  · intro span category text member nonempty sliced unselected
    rcases Token.keepDisjoint_covers 0 (Token.mergeSort_pairwise spans)
      (List.mem_mergeSort.2 member) nonempty sliced with ⟨t, kept, same⟩ | around | before
    · exact absurd same (unselected t kept)
    · exact around
    · exact absurd before (Nat.not_lt_zero _)
  · intro again perm
    exact formed.ofSpans_of_perm perm
  · intro other perm single
    exact Token.ofSpans_perm perm single

/-- A span that is given twice, one that overlaps it, one that cuts through a character, an empty
one and one behind the document: two tokens are selected, the overlapping span starts inside the
first, and the reversed list selects the same. -/
theorem ofSpans_selects_greedily_wide :
    let d := Document.ofText 0 "aé b".toList
    let first : Token.Classified := (⟨0, 3, by decide⟩, .identifier)
    let inner : Token.Classified := (⟨1, 5, by decide⟩, .other)
    let spans := [first, first, inner, (⟨2, 5, by decide⟩, .comment),
      (⟨3, 3, by decide⟩, .comment), (⟨4, 5, by decide⟩, .keyword), (⟨4, 9, by decide⟩, .comment)]
    let tokens : List Token := [⟨⟨0, 3, by decide⟩, .identifier, "aé".toList⟩,
      ⟨⟨4, 5, by decide⟩, .keyword, ['b']⟩]
    Token.ofSpans d spans = tokens ∧ inner ∈ spans ∧ d.slice inner.1 = .ok "é b".toList ∧
      (∃ t ∈ tokens, t.start ≤ 1 ∧ 1 < t.stop) ∧ Token.ofSpans d spans.reverse = tokens ∧
      Token.ofSpans d (tokens.reverse.map fun t => (t.span, t.category)) = tokens := by
  intro d first inner spans tokens
  have selected : Token.ofSpans d spans = tokens :=
    (Token.ofSpans_of_pairwise (by decide)).trans (by decide +kernel)
  obtain ⟨-, -, covers, again, other⟩ := ofSpans_selects_greedily d spans
  rw [selected] at covers again other
  refine ⟨selected, by decide, by decide +kernel, ?_, ?_, ?_⟩
  · exact covers inner.1 inner.2 "é b".toList (by decide) (by decide) (by decide +kernel)
      (by decide)
  · exact other _ (List.reverse_perm spans) (by decide)
  · exact again _ (List.Perm.map _ (List.reverse_perm tokens))

end CodeFolding
