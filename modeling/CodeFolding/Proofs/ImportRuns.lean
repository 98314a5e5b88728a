import Mathlib
import CodeFolding.Proofs.BraceMatching
import CodeFolding.Proofs.Nesting
import CodeFolding.Proofs.RunLives

/-!
# Runs of imports

An import run starts with an import, and every token in it that leads a line is one too.  It ends
before a brace, or before a token that leads a line and is no import.

* `Imports`, `ImportRun`: which tokens of a stream such a run takes.
* `import_run_stop`: a run stops with the line of its last import, but the brace that ends a run
  gives that line back, on whichever line the brace stands.
* `brace_below_imports_drops_line`: a run that loses an import to the brace on the line below.
-/

namespace CodeFolding

/-! ## Imports of a stream -/

namespace Token

/-- An import keyword that starts no statement, with these tokens behind it. -/
def imports (options : ScanOptions) (t : Token) (later : List Token) : Bool :=
  t.isKeyword options.importKeyword && !(later.head?.any (·.isPunctuation '('))

/-- A token leads its line, with these tokens before it. -/
def leads (d : Document) (done : List Token) (t : Token) : Bool :=
  done.getLast?.all fun last => d.lineOf last.stop < d.lineOf t.start

/-- The tokens that lead a line, behind a first one. -/
def leaders (d : Document) : Token → List Token → List Token
  | _, [] => []
  | last, t :: rest => if leads d [last] t then t :: leaders d t rest else leaders d t rest

theorem leads_append {d : Document} {front done : List Token} {t : Token} (nonempty : done ≠ []) :
    leads d (front ++ done) t = leads d done t := by
  unfold leads
  rw [List.getLast?_append_of_ne_nil _ nonempty]

/-- One more token is one more leader, if it leads its line. -/
theorem leaders_concat {d : Document} {first t : Token} {body : List Token} :
    leaders d first (body ++ [t]) =
      leaders d first body ++ if leads d (first :: body) t then [t] else [] := by
  induction body generalizing first with
  | nil =>
    rw [List.nil_append, leaders, leaders]
    rfl
  | cons u body ih =>
    have same : leads d ([first] ++ u :: body) t = leads d (u :: body) t :=
      leads_append (List.cons_ne_nil u body)
    rw [List.singleton_append] at same
    rw [List.cons_append, leaders, leaders, ih, same]
    split <;> rfl

theorem mem_of_mem_leaders {d : Document} {first t : Token} {body : List Token}
    (member : t ∈ leaders d first body) : t ∈ body := by
  induction body generalizing first with
  | nil => exact member
  | cons u body ih =>
    rw [leaders] at member
    split at member
    · rcases List.mem_cons.1 member with rfl | inner
      · exact List.mem_cons_self
      · exact List.mem_cons_of_mem _ (ih inner)
    · exact List.mem_cons_of_mem _ (ih member)

end Token

/-- The tokens from an import on that its run takes. -/
structure Imports (options : ScanOptions) (d : Document) (first : Token)
    (body rest : List Token) : Prop where
  opens : first.imports options (body ++ rest) = true
  plain : ∀ t ∈ body, t.isBrace = false
  lines : ∀ before t after, body = before ++ t :: after →
    Token.leads d (first :: before) t = true → t.imports options (after ++ rest) = true

/-- The tokens of a run from its first import to its end, and the rest of the stream. -/
structure ImportRun (options : ScanOptions) (d : Document) (first : Token)
    (body rest : List Token) : Prop extends Imports options d first body rest where
  ends : ∀ t later, rest = t :: later → t.isBrace = true ∨
    Token.leads d (first :: body) t = true ∧ t.imports options later = false

/-- One more token belongs to the run if it is no brace, and is an import if it leads its line. -/
theorem Imports.concat {options : ScanOptions} {d : Document} {first t : Token}
    {body later : List Token} (taken : Imports options d first body (t :: later))
    (plain : t.isBrace = false)
    (line : Token.leads d (first :: body) t = true → t.imports options later = true) :
    Imports options d first (body ++ [t]) later where
  opens := by
    rw [List.append_assoc]
    exact taken.opens
  plain := by
    intro u member
    rcases List.mem_append.1 member with inside | here
    · exact taken.plain u inside
    · rw [List.mem_singleton.1 here]
      exact plain
  lines := by
    intro before u after cut leads
    rcases List.eq_nil_or_concat after with rfl | ⟨inner, last, ends⟩
    · obtain ⟨rfl, same⟩ := List.append_inj' cut rfl
      cases same
      exact line leads
    · rw [List.concat_eq_append] at ends
      subst ends
      have cut : body ++ [t] = (before ++ u :: inner) ++ [last] := by
        rw [cut]
        simp
      obtain ⟨rfl, same⟩ := List.append_inj' cut rfl
      cases same
      rw [List.append_assoc]
      exact taken.lines before u inner rfl leads

/-! ## Places of the cursor -/

namespace Cursor

variable {c : Cursor} {done later : List Token} {t : Token}

theorem Split.beforeParenthesis_eq (split : c.Split done (t :: later))
    (index : c.index? = some done.length) :
    c.beforeParenthesis = later.head?.any (·.isPunctuation '(') := by
  unfold beforeParenthesis
  rw [split.next?_eq index]
  cases later.head? with
  | none => rfl
  | some u => rfl

theorem Split.leadsLine_eq (split : c.Split done (t :: later))
    (index : c.index? = some done.length) : c.leadsLine t = Token.leads c.document done t := by
  unfold leadsLine Token.leads
  rw [split.previous?_eq index]
  cases done.getLast? with
  | none => rfl
  | some u => rfl

end Cursor

/-- Lines end one behind the other. -/
theorem Document.lineStop_lt {d : Document} {i j : Nat} (lt : i < j) (inside : j < d.lineCount) :
    d.lineStop i < d.lineStop j := by
  refine Nat.lt_of_le_of_ne (Document.lineStop_mono (Nat.le_of_lt lt)) ?_
  intro same
  have first := Document.lineOf_lineStop (Nat.lt_trans lt inside)
  rw [same, Document.lineOf_lineStop inside] at first
  omega

/-- A classified token starts before the end of its line. -/
theorem classify_start_lt_lineStop {d : Document} {t : Token} (member : t ∈ classify d.text) :
    t.start < d.lineStop (d.lineOf t.start) := by
  refine Nat.lt_of_le_of_ne (classify_start_le_lineStop member) ?_
  intro same
  obtain ⟨front, rest, text, starts, -, lexed⟩ := classify_around member
  obtain ⟨c, cs, split, visible⟩ := lexed.visible
  obtain ⟨before, content, ending, after, cut, -, stops, next, -, ends, last⟩ :=
    Document.exists_line_cut (d.lineOf_lt t.start)
  have inside := (classify_wellFormed d).start_lt_length member
  rcases Nat.lt_or_ge (d.lineOf t.start + 1) d.lineCount with more | final
  · -- the token would start with the line break
    rw [List.append_assoc] at text
    rw [List.append_assoc] at cut
    have parts := (Text.front_eq_of_byteLength_eq (text.symm.trans cut)
      (starts.trans (same.trans stops))).2
    rw [split] at parts
    have broken : c = '\n' ∨ c = '\r' := by
      rcases ends more with rfl | rfl
      · exact Or.inl (List.cons.inj parts).1
      · exact Or.inr (List.cons.inj parts).1
    revert visible
    rcases broken with rfl | rfl <;> decide
  · rw [last (Nat.le_antisymm (d.lineOf_lt _) final), List.append_nil, ← stops, ← same,
      Document.lineStart_of_le final] at next
    omega

/-! ## Reading a run -/

/-- Where a run stops without its last import. -/
def stopWithout (d : Document) (first : Token) (earlier : List Token) : Nat :=
  (earlier.getLast?.map fun t => (d.lineAt t.start).stop).getD first.start

namespace Scan

/-- The scan reads an import run, which has taken some tokens and stops with its last import. -/
structure Importing (options : ScanOptions) (d : Document) (s : Scan) (p : Nat)
    (front : List Token) (first : Token) (body rest earlier : List Token) (last : Token) :
    Prop where
  split : s.cursor.Split (front ++ first :: body) rest
  taken : Imports options d first body rest
  imports : first :: Token.leaders d first body = earlier ++ [last]
  live : (s.tree.node p).complete = false
  start : (s.tree.node p).start = first.start
  stop : (s.tree.node p).stop = (d.lineAt last.start).stop
  rollback : s.importRollback = stopWithout d first earlier
  behind : first.start ≤ s.importRollback
  below : s.importRollback < (s.tree.node p).stop

/-- The tokens of an import run and where it stops. -/
structure Imported (options : ScanOptions) (d : Document) (tokens : List Token) (n : Node)
    (front : List Token) (first : Token) (body rest earlier : List Token) (last : Token) :
    Prop where
  cut : tokens = front ++ first :: (body ++ rest)
  run : ImportRun options d first body rest
  imports : first :: Token.leaders d first body = earlier ++ [last]
  complete : n.complete = true
  start : n.start = first.start
  line : rest.head?.any Token.isBrace = false → n.stop = (d.lineAt last.start).stop
  brace : rest.head?.any Token.isBrace = true →
    n.stop = stopWithout d first earlier ∧ n.stop < (d.lineAt last.start).stop

section Imports

variable {options : ScanOptions} {d : Document} {s : Scan} {p : Nat} {t first last : Token}
  {front body rest earlier later : List Token}

/-- An import that has opened a run. -/
theorem importing_opened (steady : Steady options d (classify d.text) s)
    (hosts : s.Hosts p t) (keyword : t.isKeyword s.options.importKeyword = true)
    (import_ : s.cursor.beforeParenthesis = false) :
    ∃ front later, Importing options d (s.openedImports p t) s.tree.nodes.size front t [] later
      [] t := by
  have formed := steady.formed (classify_wellFormed d)
  have document : s.document = d := steady.document
  obtain ⟨done, rest, split⟩ := steady.split
  obtain ⟨later, rfl, -, index⟩ := split.of_token? formed hosts.token
  have node : (s.openedImports p t).tree.node s.tree.nodes.size = _ :=
    Tree.node_add_new (steady.known p hosts.within)
  have member : t ∈ classify d.text := by
    rw [← steady.tokens]
    exact Cursor.mem_of_token? hosts.token
  refine ⟨done, later, ?_, ⟨?_, fun u member => absurd member List.not_mem_nil, ?_⟩, rfl, ?_, ?_,
    ?_, rfl, Nat.le_refl _, ?_⟩
  · exact split.advance_token formed hosts.token
  · rw [split.beforeParenthesis_eq index] at import_
    rw [steady.options] at keyword
    rw [Token.imports, keyword, List.nil_append, import_]
    rfl
  · intro before u after cut
    exact absurd cut.symm (by simp)
  · rw [node]
    rfl
  · rw [node]
    rfl
  · rw [node, ← document]
    rfl
  · rw [node]
    change t.start < (s.document.lineAt t.start).stop
    rw [document, Document.lineAt_stop]
    exact classify_start_lt_lineStop member

/-- A run that is completed before the rest of the stream. -/
theorem Importing.left (steady : Steady options d (classify d.text) s)
    (reading : Importing options d s p front first body rest earlier last)
    (kind : (s.tree.node p).kind = some .importRun) {stop : Nat}
    (ends : ∀ t later, rest = t :: later → t.isBrace = true ∨
      Token.leads d (first :: body) t = true ∧ t.imports options later = false)
    (stops : stop = if rest.head?.any Token.isBrace then s.importRollback
      else (s.tree.node p).stop) :
    ((s.close p stop).leave p).within = (s.tree.node p).parent ∧
      Imported options d (classify d.text) (((s.close p stop).leave p).tree.node p)
        front first body rest earlier last := by
  obtain ⟨node, outside⟩ := close_leave_of_isRun (isRun_of_kind (Or.inr rfl) kind) stop
  have behind := reading.behind
  have below := reading.below
  have same : max stop (s.tree.node p).start = stop := by
    rw [reading.start, stops]
    split <;> omega
  rw [node, same]
  refine ⟨outside, ?_, ⟨reading.taken, ends⟩, reading.imports, rfl, reading.start, ?_, ?_⟩
  · rw [← steady.tokens, reading.split.tokens]
    simp
  · intro line
    rw [stops, line, ← reading.stop]
    rfl
  · intro brace
    rw [stops, brace, ← reading.stop, ← reading.rollback]
    exact ⟨rfl, below⟩

/-- What a token does to the run that the scan reads. -/
theorem Importing.step_eq (steady : Steady options d (classify d.text) s)
    (reading : Importing options d s p front first body (t :: later) earlier last)
    (reads : s.Reads p t) (kind : (s.tree.node p).kind = some .importRun)
    (index : s.cursor.index? = some (front ++ first :: body).length) :
    s.step =
      if t.isBrace then (s.close p s.importRollback).leave p
      else if !Token.leads d (first :: body) t then s.advance
      else if t.imports options later then
        { s with
          tree := s.tree.update p fun n => { n with stop := (s.document.lineAt t.start).stop }
          importRollback := (s.tree.node p).stop }.advance
      else (s.close p (s.tree.node p).stop).leave p := by
  have leads : s.cursor.leadsLine t = Token.leads d (first :: body) t := by
    rw [reading.split.leadsLine_eq index, Token.leads_append (List.cons_ne_nil _ _),
      steady.document]
  have imports : (t.isKeyword s.options.importKeyword && !s.cursor.beforeParenthesis) =
      t.imports options later := by
    rw [Token.imports, steady.options, reading.split.beforeParenthesis_eq index]
  rw [reads.step_eq]
  unfold read
  rw [kind]
  dsimp only
  unfold continueImports
  rw [leads, imports]
  rfl

/-- One more token of the run: on a new line it is an import and moves the end of the run. -/
theorem Importing.token (steady : Steady options d (classify d.text) s)
    (reading : Importing options d s p front first body (t :: later) earlier last)
    (reads : s.Reads p t) (kind : (s.tree.node p).kind = some .importRun)
    (index : s.cursor.index? = some (front ++ first :: body).length) (plain : t.isBrace = false)
    (line : Token.leads d (first :: body) t = true → t.imports options later = true) :
    s.step.within = some p ∧ ∃ earlier last,
      Importing options d s.step p front first (body ++ [t]) later earlier last := by
  have formed := steady.formed (classify_wellFormed d)
  have document : s.document = d := steady.document
  have known := steady.known p reads.within
  have onward := reading.split.advance_token formed reads.token
  rw [List.append_assoc, List.cons_append] at onward
  have taken := reading.taken.concat plain line
  have step := reading.step_eq steady reads kind index
  rw [plain] at step
  have grown : Token.leaders d first (body ++ [t]) = _ := Token.leaders_concat
  cases new : Token.leads d (first :: body) t with
  | false =>
    rw [new] at step grown
    rw [show s.step = s.advance from step]
    refine ⟨reads.within, earlier, last, onward, taken, ?_, reading.live, reading.start,
      reading.stop, reading.rollback, reading.behind, reading.below⟩
    rw [grown]
    simpa using reading.imports
  | true =>
    rw [new, line new] at step
    have step : s.step = { s with
        tree := s.tree.update p fun n => { n with stop := (s.document.lineAt t.start).stop }
        importRollback := (s.tree.node p).stop }.advance := step
    have node : s.step.tree.node p =
        { s.tree.node p with stop := (s.document.lineAt t.start).stop } := by
      rw [step]
      exact Tree.node_update_self known
    have cursor : s.step.cursor = s.cursor.advance := by rw [step]; rfl
    have rollback : s.step.importRollback = (s.tree.node p).stop := by rw [step]; rfl
    have member : last ∈ front ++ first :: body := by
      have listed : last ∈ first :: Token.leaders d first body := by
        rw [reading.imports]
        exact List.mem_append_right _ (List.mem_singleton_self _)
      refine List.mem_append_right _ ?_
      rcases List.mem_cons.1 listed with rfl | inner
      · exact List.mem_cons_self
      · exact List.mem_cons_of_mem _ (Token.mem_of_mem_leaders inner)
    refine ⟨by rw [step]; exact reads.within, earlier ++ [last], t, ?_, taken, ?_, ?_, ?_, ?_, ?_,
      ?_, ?_⟩
    · rw [cursor]
      exact onward
    · rw [grown, new]
      simp [reading.imports, ← List.cons_append]
    · rw [node]
      exact reading.live
    · rw [node]
      exact reading.start
    · rw [node, document]
    · rw [rollback, reading.stop]
      simp [stopWithout]
    · rw [rollback]
      have := reading.behind
      have := reading.below
      omega
    · rw [rollback, node, reading.stop, document, Document.lineAt_stop, Document.lineAt_stop]
      refine Document.lineStop_lt ?_ (d.lineOf_lt t.start)
      have leads : s.cursor.leadsLine t = true := by
        rw [reading.split.leadsLine_eq index, Token.leads_append (List.cons_ne_nil _ _),
          steady.document]
        exact new
      have above := lineOf_lt_of_leadsLine formed reading.split index leads member
      rw [steady.document] at above
      exact above

/-- A step inside an import run goes on reading it, or completes it and leaves. -/
theorem Importing.step (steady : Steady options d (classify d.text) s)
    (reading : Importing options d s p front first body rest earlier last)
    (within : s.within = some p) (kind : (s.tree.node p).kind = some .importRun) :
    (s.step.within = some p ∧ ∃ body rest earlier last,
        Importing options d s.step p front first body rest earlier last) ∨
      s.step.within = (s.tree.node p).parent ∧
        Imported options d (classify d.text) (s.step.tree.node p) front first body rest earlier
          last := by
  have formed := steady.formed (classify_wellFormed d)
  cases ended : s.cursor.atEnd with
  | true =>
    right
    have empty := reading.split.rest_eq_nil formed.ordered ended
    have step : s.step = (s.close p (s.tree.node p).stop).leave p := by
      rw [step_of_atEnd within ended]
      unfold finishRun
      dsimp only
      rw [kind, reading.live]
      rfl
    rw [step]
    refine reading.left steady kind ?_ ?_
    · intro t later cut
      rw [empty] at cut
      cases cut
    · rw [empty]
      rfl
  | false =>
    cases found : s.cursor.token? with
    | none =>
      left
      rw [step_of_gap within ended reading.live found]
      exact ⟨within, body, rest, earlier, last, reading.split.advance_gap formed found ended,
        reading.taken, reading.imports, reading.live, reading.start, reading.stop,
        reading.rollback, reading.behind, reading.below⟩
    | some t =>
      have reads : s.Reads p t := ⟨within, ended, reading.live, found⟩
      obtain ⟨later, rfl, -, index⟩ := reading.split.of_token? formed found
      have step := reading.step_eq steady reads kind index
      by_cases brace : t.isBrace = true
      · right
        rw [if_pos brace] at step
        rw [step]
        refine reading.left steady kind ?_ ?_
        · intro u later cut
          cases cut
          exact Or.inl brace
        · rw [List.head?_cons, Option.any_some, if_pos brace]
      rw [if_neg brace] at step
      rw [Bool.not_eq_true] at brace
      by_cases line : Token.leads d (first :: body) t = true → t.imports options later = true
      · left
        obtain ⟨inside, earlier, last, onward⟩ :=
          reading.token steady reads kind index brace line
        exact ⟨inside, _, _, earlier, last, onward⟩
      · right
        rw [Classical.not_imp, Bool.not_eq_true] at line
        rw [line.1, line.2] at step
        rw [show s.step = (s.close p (s.tree.node p).stop).leave p from step]
        refine reading.left steady kind ?_ ?_
        · intro u later cut
          cases cut
          exact Or.inr line
        · rw [List.head?_cons, Option.any_some, brace]
          rfl

end Imports

/-- Every import run takes the tokens of a run and stops where they say. -/
theorem imported_of_kind {options : ScanOptions} {d : Document} :
    ∀ i, ((Tree.ofTokens options d (classify d.text)).node i).kind = some .importRun →
      ∃ front first body rest earlier last,
        Imported options d (classify d.text) ((Tree.ofTokens options d (classify d.text)).node i)
          front first body rest earlier last := by
  refine run_life
    (fun s i => ∃ front first body rest earlier last,
      Importing options d s i front first body rest earlier last)
    (fun n => ∃ front first body rest earlier last,
      Imported options d (classify d.text) n front first body rest earlier last)
    (Or.inr rfl) (classify_wellFormed d).ordered ?_ ?_
  · intro s p steady within grown kind
    have known := steady.known p within
    obtain ⟨t, hosts, keyword, opened⟩ := (step_turn within).opened_kind known grown kind
    cases statement : s.cursor.beforeParenthesis with
    | true =>
      have step := hosts.step_of_import keyword
      rw [statement, if_pos rfl] at step
      rw [step] at grown
      exact absurd rfl grown
    | false =>
      rw [opened]
      obtain ⟨front, later, reading⟩ := importing_opened steady hosts keyword statement
      exact ⟨front, t, [], later, [], t, reading⟩
  · rintro s p steady within kind ⟨front, first, body, rest, earlier, last, reading⟩
    rcases reading.step steady within kind with
      ⟨inside, body', rest', earlier', last', onward⟩ | ⟨outside, left⟩
    · exact Or.inl ⟨inside, front, first, body', rest', earlier', last', onward⟩
    · exact Or.inr ⟨outside, front, first, body, rest, earlier, last, left⟩

end Scan

/-- An import run is complete, starts with its first import and stops with the line of its last
one, unless a brace ends it: then it stops without its last import, and before the end of that
line. -/
theorem import_run_stop (options : ScanOptions) (d : Document) :
    let tokens := classify d.text
    let tree := Tree.ofTokens options d tokens
    ∀ i, (tree.node i).kind = some .importRun →
      ∃ front first body rest earlier last,
        tokens = front ++ first :: (body ++ rest) ∧ ImportRun options d first body rest ∧
        first :: Token.leaders d first body = earlier ++ [last] ∧
        (tree.node i).complete = true ∧ (tree.node i).start = first.start ∧
        (rest.head?.any Token.isBrace = false →
          (tree.node i).stop = (d.lineAt last.start).stop) ∧
        (rest.head?.any Token.isBrace = true →
          (tree.node i).stop = stopWithout d first earlier ∧
          (tree.node i).stop < (d.lineAt last.start).stop) := by
  intro tokens tree i kind
  obtain ⟨front, first, body, rest, earlier, last, imported⟩ := Scan.imported_of_kind i kind
  exact ⟨front, first, body, rest, earlier, last, imported.cut, imported.run, imported.imports,
    imported.complete, imported.start, imported.line, imported.brace⟩

/-- Two imports before other code: the run starts with the first and stops with the line of the
second. -/
theorem import_run_stop_code :
    let d := Document.ofText 0 "using A;\nusing B;\nf".toList
    let n := (Tree.ofTokens {} d (classify d.text)).node 1
    n.kind = some .importRun ∧
      ∃ front first body rest earlier last,
        classify d.text = front ++ first :: (body ++ rest) ∧ ImportRun {} d first body rest ∧
        first :: Token.leaders d first body = earlier ++ [last] ∧ first.start = 0 ∧
        (rest.head?.any Token.isBrace = false → (d.lineAt last.start).stop = 17) := by
  intro d n
  have node : n.kind = some .importRun ∧ n.start = 0 ∧ n.stop = 17 := by decide +kernel
  obtain ⟨front, first, body, rest, earlier, last, cut, run, imports, -, start, line, -⟩ :=
    import_run_stop {} d 1 node.1
  exact ⟨node.1, front, first, body, rest, earlier, last, cut, run, imports,
    start.symm.trans node.2.1, fun plain => (line plain).symm.trans node.2.2⟩

/-- A brace that leads the line below two imports, right behind a semicolon, takes the second one
out of the run. -/
theorem brace_below_imports_drops_line :
    let d := Document.ofText 0 "namespace N\n\x7b\nusing A;\nusing B;\n\x7d\n".toList
    let n := (Tree.ofTokens {} d (classify d.text)).node 2
    n.kind = some .importRun ∧ n.stop = 22 ∧
      ∃ front first body brace last,
        classify d.text = front ++ first :: (body ++ [brace]) ∧ first.start = n.start ∧
        (∀ t ∈ body, t.isBrace = false) ∧ brace.isBrace = true ∧
        Token.leads d (first :: body) brace = true ∧
        body.getLast?.any (·.isPunctuation ';') = true ∧
        Token.leaders d first body = [last] ∧ last.imports {} (body.drop 3 ++ [brace]) = true ∧
        (d.lineAt last.start).stop = 31 := by
  intro d n
  have node : n.kind = some .importRun ∧ n.stop = 22 ∧ n.start = 14 := by decide +kernel
  refine ⟨node.1, node.2.1, (classify d.text).take 3,
    ⟨⟨14, 19, by decide⟩, .keyword, "using".toList⟩,
    [⟨⟨20, 21, by decide⟩, .identifier, ['A']⟩, ⟨⟨21, 22, by decide⟩, .punctuation, [';']⟩,
      ⟨⟨23, 28, by decide⟩, .keyword, "using".toList⟩, ⟨⟨29, 30, by decide⟩, .identifier, ['B']⟩,
      ⟨⟨30, 31, by decide⟩, .punctuation, [';']⟩],
    ⟨⟨32, 33, by decide⟩, .punctuation, ['\x7d']⟩,
    ⟨⟨23, 28, by decide⟩, .keyword, "using".toList⟩, ?_⟩
  rw [node.2.2]
  decide +kernel

end CodeFolding
