import Mathlib
import CodeFolding.Proofs.Classification
import CodeFolding.Proofs.SoundRegions
import CodeFolding.View.Label

/-!
# Labels of directives

The label of a directive is read from its line again: it skips number signs, then blanks, then
letters.  The classification of the text has already cut that line behind the directive's keyword.
Both cut at the same place if only blanks precede the keyword.

* `Lexeme.IsKeyword`: what the keyword of a directive looks like.
* `directiveArgument_trim`: what the label leaves of such a line.
* `Document.stop_le_lineStop`: a text without line ends stays on its line.
* `Scan.armsAt_tokens`: every arm starts with the keyword of a directive.
* `directive_labels_agree`: the label is what stands behind the keyword on its line.
-/

namespace CodeFolding

/-! ## Trimming a line -/

namespace Text

section Trim

variable {cs ds : List Char}

theorem trimStart_append (blank : allBlank cs = true) : trimStart (cs ++ ds) = trimStart ds :=
  List.dropWhile_append_of_pos (List.all_eq_true.1 blank)

theorem trimStart_cons {c : Char} (shown : isBlank c = false) (cs : List Char) :
    trimStart (c :: cs) = c :: cs :=
  List.dropWhile_cons_of_neg (by simp [shown])

/-- What ends visibly keeps what stands before it. -/
theorem trimEnd_append (cs : List Char) (shown : trimEnd ds ≠ []) :
    trimEnd (cs ++ ds) = cs ++ trimEnd ds := by
  unfold trimEnd dropEndWhile at shown ⊢
  rw [List.reverse_append, List.dropWhile_append, if_neg, List.reverse_append,
    List.reverse_reverse]
  rw [List.isEmpty_iff]
  exact fun none => shown (by rw [none]; rfl)

theorem trimEnd_append_of_visible (shown : ∀ c ∈ cs, isBlank c = false) (ds : List Char) :
    trimEnd (cs ++ ds) = cs ++ trimEnd ds := by
  induction cs with
  | nil => rfl
  | cons c cs ih =>
    obtain ⟨first, others⟩ := List.forall_mem_cons.1 shown
    rw [List.cons_append, trimEnd_cons first, ih others, List.cons_append]

theorem trimEnd_idem (cs : List Char) : trimEnd (trimEnd cs) = trimEnd cs := by
  unfold trimEnd dropEndWhile
  rw [List.reverse_reverse, List.dropWhile_idempotent]

theorem trim_cons_of_blank {c : Char} (blank : isBlank c = true) (cs : List Char) :
    trim (c :: cs) = trim cs := by
  unfold trim trimStart
  rw [List.dropWhile_cons_of_pos blank]

/-- Trimming the end first changes nothing. -/
theorem trim_trimEnd (cs : List Char) : trim (trimEnd cs) = trim cs := by
  induction cs with
  | nil => rfl
  | cons c cs ih =>
    cases shown : isBlank c with
    | false =>
      rw [trimEnd_cons shown]
      unfold trim
      rw [trimStart_cons shown, trimStart_cons shown, trimEnd_cons shown, trimEnd_cons shown,
        trimEnd_idem]
    | true =>
      rw [trim_cons_of_blank shown, ← ih]
      by_cases none : trimEnd cs = []
      · have gone : trimEnd (c :: cs) = [] := by
          unfold trimEnd dropEndWhile at none ⊢
          rw [List.reverse_eq_nil_iff] at none ⊢
          rw [List.reverse_cons, List.dropWhile_append, none]
          simp [shown]
        rw [gone, none]
      · rw [← List.singleton_append, trimEnd_append [c] none]
        exact trim_cons_of_blank shown _

theorem dropWhile_of_head? {p : Char → Bool} (stops : ∀ x ∈ cs.head?, p x = false) :
    cs.dropWhile p = cs := by
  cases cs with
  | nil => rfl
  | cons c cs => exact List.dropWhile_cons_of_neg (by simp [stops c rfl])

theorem head?_trimEnd {x : Char} (first : (trimEnd cs).head? = some x) : cs.head? = some x := by
  obtain ⟨tail, whole⟩ := exists_trimEnd cs
  rw [whole, List.head?_append, first]
  rfl

end Trim

end Text

/-! ## Keywords -/

namespace Lexeme

/-- A number sign, some blanks and some letters, with no letter behind them. -/
structure IsKeyword (text rest gap name : List Char) : Prop where
  form : text = '#' :: (gap ++ name)
  blanks : ∀ x ∈ gap, x = ' ' ∨ x = '\t'
  letters : ∀ x ∈ name, x.isAlpha = true
  nonempty : name ≠ []
  ends : ∀ x ∈ rest.head?, x.isAlpha = false

theorem isKeyword_numberSign {cs : List Char} {more : Nat}
    (found : numberSign cs = (.directive, more)) :
    ∃ gap name, IsKeyword ('#' :: cs.take more) (cs.drop more) gap name := by
  unfold numberSign at found
  generalize blanks : (cs.takeWhile fun c => c == ' ' || c == '\t').length = n at found
  dsimp only at found
  split at found
  next => cases found
  next some =>
    cases found
    refine ⟨cs.take n, (cs.drop n).takeWhile Char.isAlpha, ?_, ?_, ?_, ?_, ?_⟩
    · rw [List.take_add, Text.take_length_takeWhile]
    · intro x member
      rw [← blanks, Text.take_length_takeWhile] at member
      have blank := List.mem_takeWhile_imp member
      simpa only [Bool.or_eq_true, beq_iff_eq] using blank
    · exact fun x member => List.mem_takeWhile_imp member
    · exact fun none => some (by rw [none]; rfl)
    · intro x first
      rw [← List.drop_drop, Text.drop_length_takeWhile] at first
      have ends := List.head?_dropWhile_not Char.isAlpha (cs.drop n)
      rw [first] at ends
      exact ends

end Lexeme

/-- The token of a directive is a keyword of the text. -/
theorem classify_keyword {d : Document} {t : Token} (member : t ∈ classify d.text)
    (keyword : t.category = .preprocessorKeyword) :
    ∃ front rest gap name, d.text = front ++ t.text ++ rest ∧ Text.byteLength front = t.start ∧
      Text.byteLength (front ++ t.text) = t.stop ∧ Lexeme.IsKeyword t.text rest gap name := by
  cases from_of_mem member with
  | piece cut found same =>
    rename_i front rest c category more
    subst same
    have other := lexeme_ne_keyword c rest
    rw [found] at other
    exact absurd (congrArg Lexeme.token keyword) other
  | keyword cut found same =>
    rename_i front rest c more
    subst same
    obtain rfl := eq_numberSign_of_directive found
    obtain ⟨gap, name, form⟩ := Lexeme.isKeyword_numberSign found
    refine ⟨front, rest.drop more, gap, name, ?_, (Nat.zero_add _).symm, ?_, form⟩
    · rw [cut, List.append_assoc]
      exact congrArg (front ++ '#' :: ·) (List.take_append_drop more rest).symm
    · rw [Text.byteLength_append]
      exact congrArg (· + _) (Nat.zero_add _).symm
  | line inLine => exact absurd keyword (category_of_mem_directiveTokens inLine)

/-! ## The label of a line -/

namespace Lexeme.IsKeyword

variable {lead text rest more gap name : List Char}

theorem of_append (keyword : IsKeyword text (rest ++ more) gap name) :
    IsKeyword text rest gap name where
  form := keyword.form
  blanks := keyword.blanks
  letters := keyword.letters
  nonempty := keyword.nonempty
  ends := by
    intro x first
    refine keyword.ends x ?_
    rw [List.head?_append, first]
    rfl

theorem isBlank_of_mem_gap (keyword : IsKeyword text rest gap name) {x : Char}
    (member : x ∈ gap) : Text.isBlank x = true := by
  rcases keyword.blanks x member with rfl | rfl <;> decide

theorem isPrintable_of_mem_name (keyword : IsKeyword text rest gap name) {x : Char}
    (member : x ∈ name) : Text.IsPrintable x := by
  have head : Word.isHead x = true := by
    unfold Word.isHead
    rw [keyword.letters x member, Bool.true_or]
  exact Word.isTail_printable (Word.isTail_of_isHead head)

/-- A keyword has no line end. -/
theorem clean (keyword : IsKeyword text rest gap name) : ∀ x ∈ text, x ≠ '\n' ∧ x ≠ '\r' := by
  intro x member
  rw [keyword.form, List.mem_cons, List.mem_append] at member
  rcases member with rfl | inGap | inName
  · decide
  · rcases keyword.blanks x inGap with rfl | rfl <;> decide
  · exact (keyword.isPrintable_of_mem_name inName).clean

/-- A keyword is not trimmed from its line. -/
theorem trim_line (keyword : IsKeyword text rest gap name) (blank : Text.allBlank lead = true) :
    Text.trim (lead ++ text ++ rest) = text ++ Text.trimEnd rest := by
  have shown : ∀ x ∈ name, Text.isBlank x = false :=
    fun x member => (keyword.isPrintable_of_mem_name member).isBlank
  have kept : Text.trimEnd (name ++ rest) = name ++ Text.trimEnd rest :=
    Text.trimEnd_append_of_visible shown rest
  have some : Text.trimEnd (name ++ rest) ≠ [] := by
    rw [kept]
    exact fun none => keyword.nonempty (List.append_eq_nil_iff.1 none).1
  unfold Text.trim
  rw [List.append_assoc, Text.trimStart_append blank, keyword.form, List.cons_append,
    Text.trimStart_cons (by decide), Text.trimEnd_cons (by decide), List.append_assoc,
    Text.trimEnd_append gap some, kept, List.cons_append, List.append_assoc]

/-- The label of a line with a keyword behind blanks is what stands behind the keyword,
trimmed. -/
theorem directiveArgument_trim (keyword : IsKeyword text rest gap name)
    (blank : Text.allBlank lead = true) :
    directiveArgument (Text.trim (lead ++ text ++ rest)) = Text.trim rest := by
  obtain ⟨x, xs, rfl⟩ := List.exists_cons_of_ne_nil keyword.nonempty
  have letter := keyword.letters x List.mem_cons_self
  have shown := (keyword.isPrintable_of_mem_name List.mem_cons_self).isBlank
  have sign : (text ++ Text.trimEnd rest).dropWhile (· == '#') =
      gap ++ (x :: xs ++ Text.trimEnd rest) := by
    rw [keyword.form, List.cons_append, List.append_assoc, List.dropWhile_cons_of_pos rfl]
    apply Text.dropWhile_of_head?
    intro y first
    cases gap with
    | nil =>
      cases first
      exact beq_eq_false_iff_ne.2 fun same => absurd (same ▸ letter) (by decide)
    | cons z zs =>
      cases first
      rcases keyword.blanks y List.mem_cons_self with rfl | rfl <;> decide
  have start : Text.trimStart (gap ++ (x :: xs ++ Text.trimEnd rest)) =
      x :: xs ++ Text.trimEnd rest := by
    rw [Text.trimStart_append
      (List.all_eq_true.2 fun _ member => keyword.isBlank_of_mem_gap member)]
    exact Text.trimStart_cons shown _
  have argument : (x :: xs ++ Text.trimEnd rest).dropWhile Char.isAlpha = Text.trimEnd rest := by
    rw [List.dropWhile_append_of_pos keyword.letters]
    exact Text.dropWhile_of_head? fun y first => keyword.ends y (Text.head?_trimEnd first)
  unfold directiveArgument
  rw [keyword.trim_line blank, sign, start, argument, Text.trim_trimEnd]

end Lexeme.IsKeyword

/-! ## The line of a keyword -/

namespace Document

section Line

variable {d : Document} {front cs rest : List Char}

/-- A text without line ends that starts in the content of a line stays there. -/
theorem stop_le_lineStop (text : d.text = front ++ cs ++ rest)
    (clean : ∀ x ∈ cs, x ≠ '\n' ∧ x ≠ '\r')
    (inside : Text.byteLength front ≤ d.lineStop (d.lineOf (Text.byteLength front))) :
    Text.byteLength (front ++ cs) ≤ d.lineStop (d.lineOf (Text.byteLength front)) := by
  by_contra past
  have bound := d.lineOf_lt (Text.byteLength front)
  obtain ⟨before, content, ending, after, text', -, stops, next, -, ends, last⟩ :=
    exists_line_cut bound
  rw [stops] at past inside
  have same : front ++ cs ++ rest = (before ++ content) ++ (ending ++ after) := by
    rw [← text, text', List.append_assoc (before ++ content)]
  obtain ⟨left, right, rfl, cut⟩ := Text.exists_parts same inside (by omega)
  rw [cut] at past same next
  have behind : right ++ rest = ending ++ after := by
    simpa only [List.append_assoc, List.append_cancel_left_eq] using same
  by_cases more : d.lineOf (Text.byteLength front) + 1 < d.lineCount
  · -- what is left of the text would start with the break
    cases right with
    | nil => exact past (by rw [List.append_nil])
    | cons x right =>
      obtain ⟨feed, carriage⟩ := clean x (List.mem_append_right _ List.mem_cons_self)
      rcases ends more with rfl | rfl
      · exact feed (List.cons.inj behind).1
      · exact carriage (List.cons.inj behind).1
  · rw [last (by omega), List.append_nil, lineStart_of_le (by omega), length_eq, text,
      Text.byteLength_append] at next
    omega

theorem lineText_eq_ok_iff {i : Nat} (inside : i < d.lineCount) {line : List Char} :
    d.lineText i = .ok line ↔ Text.slice? (d.lineStart i) (d.lineStop i) d.text = some line := by
  obtain ⟨found, looked, -, starts, stops⟩ := exists_line inside
  unfold lineText
  rw [looked, ← starts, ← stops]
  exact slice_eq_ok_iff

/-- The keyword of a directive behind blanks cuts its line in three. -/
theorem exists_keyword_line {t : Token} (member : t ∈ classify d.text)
    (keyword : t.category = .preprocessorKeyword)
    (blank : d.BlankBetween (d.lineStart (d.lineOf t.start)) t.start) :
    ∃ lead behind gap name, Text.allBlank lead = true ∧
      d.lineText (d.lineOf t.start) = .ok (lead ++ t.text ++ behind) ∧
      Text.slice? t.stop (d.lineStop (d.lineOf t.start)) d.text = some behind ∧
      Lexeme.IsKeyword t.text behind gap name := by
  obtain ⟨front, rest, gap, name, text, starts, stops, form⟩ := classify_keyword member keyword
  obtain ⟨lead, before, blanks⟩ := blank
  have own : Text.slice? t.start t.stop d.text = some t.text :=
    Text.slice?_eq_some_iff.2 ⟨front, rest, text, starts, stops⟩
  have inside := classify_start_le_lineStop member
  rw [← starts] at inside
  have within := stop_le_lineStop text form.clean inside
  rw [starts, stops] at within
  obtain ⟨behind, after⟩ := ((classify_wellFormed d).boundary_stop member).exists_slice?
    (d.boundary_lineStop _) within
  have whole := slice?_append (slice?_append before own) after
  refine ⟨lead, behind, gap, name, blanks, ?_, after, ?_⟩
  · exact (lineText_eq_ok_iff (d.lineOf_lt _)).2 whole
  · -- the rest of the line is the beginning of the rest of the text
    obtain ⟨front', more, text', starts', -⟩ := Text.slice?_eq_some_iff.1 after
    have same : front ++ t.text ++ rest = front' ++ (behind ++ more) := by
      rw [← text, text', List.append_assoc]
    obtain ⟨-, rfl⟩ := Text.front_eq_of_byteLength_eq same (stops.trans starts'.symm)
    exact form.of_append

end Line

end Document

/-! ## Where arms start -/

namespace Tree

/-- Every arm starts at one of these places. -/
def ArmsAt (place : Nat → Prop) (t : Tree) : Prop :=
  ∀ i, (t.node i).kind = some .conditional → place (t.node i).start

section ArmsAt

variable {place : Nat → Prop} {t : Tree} {id : Nat}

theorem armsAt_empty (place : Nat → Prop) : empty.ArmsAt place := by
  intro i kind
  rw [node_empty] at kind
  cases kind

theorem ArmsAt.update {f : Node → Node} (arms : t.ArmsAt place)
    (kind : (f (t.node id)).kind = (t.node id).kind)
    (start : (f (t.node id)).start = (t.node id).start) : (t.update id f).ArmsAt place := by
  intro i arm
  rcases node_update_cases t id f i with same | ⟨rfl, same⟩
  · rw [same] at arm ⊢
    exact arms i arm
  · rw [same, kind] at arm
    rw [same, start]
    exact arms i arm

theorem ArmsAt.close (arms : t.ArmsAt place) (stop : Nat) : (t.close id stop).ArmsAt place :=
  arms.update rfl rfl

theorem ArmsAt.add {o : Opening} (arms : t.ArmsAt place) (known : id < t.nodes.size)
    (opened : o.kind = .conditional → place o.start) : (t.add id o).ArmsAt place := by
  intro i arm
  rcases node_add_cases (o := o) known i with ⟨children, same⟩ | ⟨-, same⟩
  · rw [same] at arm ⊢
    exact arms i arm
  · rw [same] at arm ⊢
    exact opened (Option.some.inj arm)

/-- Only a block takes the lines of its header. -/
theorem ArmsAt.extendStart (arms : t.ArmsAt place) (options : ScanOptions) (d : Document)
    (id : Nat) : (extendStart options d t id).ArmsAt place := by
  intro i arm
  rw [(Scan.retouched_extendStart options d t id).kind] at arm
  obtain ⟨children, same⟩ :=
    (Scan.keeps_extendStart (by decide) options d t id).node i arm
  rw [same]
  exact arms i arm

end ArmsAt

end Tree

namespace Scan

section Arms

variable {options : ScanOptions} {d : Document} {tokens : List Token} {s s' : Scan} {p : Nat}
  {place : Nat → Prop}

/-- A turn opens an arm only at the keyword of a directive that it reads. -/
theorem Turn.armsAt (turn : Turn s p s') (known : p < s.tree.nodes.size)
    (read : ∀ t, s.cursor.token? = some t → t.category = .preprocessorKeyword → place t.start)
    (arms : s.tree.ArmsAt place) : s'.tree.ArmsAt place := by
  have left : ∀ {s' : Scan} {t : Tree}, s'.tree = extendStart s'.options s'.document t p →
      t.ArmsAt place → s'.tree.ArmsAt place := by
    intro s' t tree arms
    rw [tree]
    exact arms.extendStart _ _ _
  have closed : ∀ i stop, (s.tree.close i stop).ArmsAt place := fun i stop => arms.close stop
  have knownClosed : ∀ i stop, p < (s.tree.close i stop).nodes.size := by
    intro i stop
    rw [Tree.nodes_size_close]
    exact known
  cases turn with
  | finish _ _ =>
    rcases finishRun_cases s p with same | ⟨ended, -⟩
    · rw [same]
      exact left rfl arms
    · rw [ended]
      exact left rfl (closed _ _)
  | leave _ _ _ => exact left rfl arms
  | gap _ _ _ _ | bridge _ _ _ _ | sameLine _ _ _ _ | pass _ _ _ _ => exact arms
  | growComment _ _ _ | growImports _ _ _ _ => exact arms.update rfl rfl
  | endComment _ _ _ | giveBack _ _ _ | endImports _ _ _ _ | endGroup _ _ _ _ _
  | closeBlock _ _ _ _ | closeGroup _ _ _ _ | endArm _ _ _ _ _ => exact left rfl (closed _ _)
  | openBlock _ _ | openComment _ _ _ | openImports _ _ | openGroup _ _ _ _ _ =>
    exact arms.add known nofun
  | switchGroup _ _ _ _ _ _ _ => exact (closed _ _).add (knownClosed _ _) nofun
  | openArm hosts category _ | pendingArm hosts category _ _ | firstArm hosts category _ _ _ =>
    exact arms.add known fun _ => read _ hosts.token category
  | switchArm hosts category _ _ _ _ =>
    exact (closed _ _).add (knownClosed _ _) fun _ => read _ hosts.token category
  | closeArm _ _ _ =>
    unfold Scan.closeArm
    split
    next => exact closed _ _
    next => exact arms

/-- Every arm starts with the keyword of a directive. -/
theorem armsAt_tokens (options : ScanOptions) (formed : Token.WellFormed d tokens) :
    (Tree.ofTokens options d tokens).ArmsAt fun place =>
      ∃ t ∈ tokens, t.category = .preprocessorKeyword ∧ t.start = place := by
  refine (finish_over (P := fun s => s.tree.ArmsAt _) formed ?_ ?_).2.1
  · intro s p s' steady arms within turn
    refine turn.armsAt (steady.known p within) ?_ arms
    intro t token category
    exact ⟨t, steady.tokens ▸ Cursor.mem_of_token? token, category, rfl⟩
  · exact Tree.armsAt_empty _

end Arms

end Scan

/-- Every arm of the outline of a text starts on its first line with the keyword of a directive.
If only blanks precede the keyword on that line, the label of the arm is what stands behind the
keyword there, trimmed, or the whole line, trimmed, if that is nothing. -/
theorem directive_labels_agree (options : ScanOptions) (session : SessionId) (d : Document) :
    ∃ o, Outline.ofTokens options session d (classify d.text) = .ok o ∧
      ∀ r ∈ o.regions, r.kind = .conditional →
        ∃ t ∈ classify d.text, t.category = .preprocessorKeyword ∧ t.start = r.span.start ∧
          r.startLine = d.lineOf t.start ∧
          (d.BlankBetween (d.lineStart r.startLine) t.start →
            ∃ line behind, d.lineText r.startLine = .ok line ∧
              Text.slice? t.stop (d.lineStop r.startLine) d.text = some behind ∧
              o.label r =
                if Text.trim behind = [] then Text.trim line else Text.trim behind) := by
  have formed := classify_wellFormed d
  obtain ⟨o, outlined, same, sound⟩ := exists_outline options session formed
  refine ⟨o, outlined, ?_⟩
  obtain ⟨regions, listed, rfl⟩ := Outline.ofTokens_eq_ok_iff.1 outlined
  intro r member conditional
  obtain ⟨id, depth, shown⟩ := exists_node_of_mem_flattenWork listed member
  obtain ⟨kind, start, -⟩ := Node.of_region? shown
  rw [conditional] at kind
  obtain ⟨t, inStream, keyword, starts⟩ := Scan.armsAt_tokens options formed id kind
  have place : t.start = r.span.start := by rw [start, starts]
  have number : r.startLine = d.lineOf t.start := by rw [place, (sound r member).startLine]
  refine ⟨t, inStream, keyword, place, number, ?_⟩
  rw [number]
  intro blank
  obtain ⟨lead, behind, gap, name, blanks, line, after, form⟩ :=
    Document.exists_keyword_line inStream keyword blank
  refine ⟨_, behind, line, after, ?_⟩
  have trimmed : Outline.trimmedLine ⟨session, d, regions⟩ r.startLine =
      Text.trim (lead ++ t.text ++ behind) := by
    unfold Outline.trimmedLine
    rw [number]
    dsimp only
    rw [line]
    rfl
  unfold Outline.label
  rw [conditional]
  dsimp only
  rw [trimmed, form.directiveArgument_trim blanks]
  split
  next none => rw [if_pos none]
  next some => rw [if_neg some]

/-- A keyword with blanks before it and inside, and an argument in wide characters before a break
of two characters. -/
theorem directive_labels_agree_wide_argument :
    let d := Document.ofText 0 "\t# if  é \r\nx\r\n #else\r\ny\r\n#endif".toList
    ∃ o r t line behind, Outline.ofTokens {} 0 d (classify d.text) = .ok o ∧ r ∈ o.regions ∧
      r.kind = .conditional ∧ t ∈ classify d.text ∧ t.category = .preprocessorKeyword ∧
      d.BlankBetween (d.lineStart r.startLine) t.start ∧ d.lineText r.startLine = .ok line ∧
      Text.slice? t.stop (d.lineStop r.startLine) d.text = some behind ∧
      o.label r = (if Text.trim behind = [] then Text.trim line else Text.trim behind) ∧
      o.label r = ['é'] := by
  intro d
  obtain ⟨o, outlined, labels⟩ := directive_labels_agree {} 0 d
  let r : Region := ⟨.conditional, ⟨1, 13, by decide⟩, 0, 1, 0, false⟩
  let r' : Region := ⟨.conditional, ⟨16, 32, by decide⟩, 2, 4, 0, false⟩
  have listed : (Tree.ofTokens {} d (classify d.text)).flatten d = .ok [r, r'] := by
    decide +kernel
  obtain rfl : o = ⟨0, d, [r, r']⟩ :=
    Except.ok.inj (outlined.symm.trans (Outline.ofTokens_eq_ok_iff.2 ⟨_, listed, rfl⟩))
  obtain ⟨t, inStream, keyword, place, -, label⟩ := labels r List.mem_cons_self rfl
  have blank : d.BlankBetween (d.lineStart r.startLine) t.start := by
    rw [place]
    exact ⟨['\t'], by decide +kernel, by decide⟩
  obtain ⟨line, behind, own, after, same⟩ := label blank
  exact ⟨_, r, t, line, behind, outlined, List.mem_cons_self, rfl, inStream, keyword, blank, own,
    after, same, by decide +kernel⟩

end CodeFolding
