import Mathlib
import CodeFolding.Scan.Step
import CodeFolding.Proofs.Growth
import CodeFolding.Proofs.Reading

/-!
# Turns of a scan

`Scan.Turn s p s'` lists what one step can do to a scan `s` that reads region `p`: each rule has
the tests that lead to it and the state it leaves.  `Scan.step_turn` says that every step is a
turn, so an invariant of a scan is proved rule by rule and never opens `Scan.step` again.
-/

namespace CodeFolding

/-- A run of comments or imports, which holds no other region. -/
def Node.isRun (n : Node) : Bool := n.kind == some .comment || n.kind == some .importRun

/-- The nearest open region that passes a test is open, passes it and is on the way up. -/
theorem Tree.of_nearestOpen? {t : Tree} {id found : Nat} {test : Node → Bool}
    (near : t.nearestOpen? id test = some found) :
    found ∈ t.ancestors id ∧ (t.node found).isOpen = true ∧ test (t.node found) = true := by
  unfold Tree.nearestOpen? at near
  have passed := List.find?_some near
  rw [Bool.and_eq_true] at passed
  exact ⟨List.mem_of_find?_eq_some near, passed.1, passed.2⟩

/-- An open region that passes the test is the nearest one to itself. -/
theorem Tree.nearestOpen?_self {t : Tree} {id : Nat} {test : Node → Bool}
    (live : (t.node id).isOpen = true) (passed : test (t.node id) = true) :
    t.nearestOpen? id test = some id := by
  unfold Tree.nearestOpen?
  rw [Tree.ancestors, List.find?_cons_of_pos]
  rw [live, passed]
  rfl

namespace Token

/-- Punctuation that holds a closing brace. -/
def closes (t : Token) : Bool := t.category = .punctuation && t.text.contains '\x7d'

/-- A keyword that may start a label. -/
def startsLabel (t : Token) : Bool := t.isKeyword "case".toList || t.isKeyword "default".toList

variable {t : Token}

theorem category_of_isPunctuation {c : Char} (mark : t.isPunctuation c = true) :
    t.category = .punctuation := by
  unfold isPunctuation at mark
  rw [Bool.and_eq_true, beq_iff_eq] at mark
  exact mark.1

theorem category_of_closes (closes : t.closes = true) : t.category = .punctuation := by
  unfold Token.closes at closes
  rw [Bool.and_eq_true, decide_eq_true_eq] at closes
  exact closes.1

theorem category_isKeyword {text : List Char} (keyword : t.isKeyword text = true) :
    t.category.isKeyword = true := by
  unfold isKeyword at keyword
  rw [Bool.and_eq_true] at keyword
  exact keyword.1

theorem category_isKeyword_of_startsLabel (starts : t.startsLabel = true) :
    t.category.isKeyword = true := by
  unfold startsLabel at starts
  rcases Bool.or_eq_true_iff.1 starts with keyword | keyword
  · exact category_isKeyword keyword
  · exact category_isKeyword keyword

end Token

namespace Scan

theorem category_of_isBridge {s : Scan} {run : Nat} {t : Token}
    (bridge : s.isBridge run t = true) : t.category = .identifier := by
  unfold isBridge at bridge
  rw [Bool.and_eq_true, Bool.and_eq_true, Bool.and_eq_true, beq_iff_eq] at bridge
  exact bridge.1.1.2

/-- The scan reads a token inside a region that is not complete. -/
structure Reads (s : Scan) (p : Nat) (t : Token) : Prop where
  within : s.within = some p
  more : s.cursor.atEnd = false
  live : (s.tree.node p).complete = false
  token : s.cursor.token? = some t

/-- The scan reads a token inside the root or a region that may hold others. -/
structure Hosts (s : Scan) (p : Nat) (t : Token) : Prop extends Reads s p t where
  host : (s.tree.node p).isRun = false

/-- Some of the directive's names opens an arm whatever stands before it. -/
def opensArm (options : ScanOptions) (t : Token) : Prop :=
  directiveName t.text = "if".toList ∨
    options.foldRegionDirectives = true ∧ directiveName t.text = "region".toList

/-- The directive goes from one arm to the next. -/
def switchesArm (t : Token) : Prop :=
  directiveName t.text = "else".toList ∨ directiveName t.text = "elif".toList

/-- The directive ends the arms of the directives with these names. -/
def endsArm (options : ScanOptions) (t : Token) (names : List String) : Prop :=
  directiveName t.text = "endif".toList ∧ names = ["if", "elif", "else"] ∨
    options.foldRegionDirectives = true ∧ directiveName t.text = "endregion".toList ∧
      names = ["region"]

/-- What a step can do to a scan that reads region `p`. -/
inductive Turn (s : Scan) (p : Nat) : Scan → Prop
  | finish :
    s.within = some p → s.cursor.atEnd = true → Turn s p ((s.finishRun p).leave p)
  | leave :
    s.within = some p → s.cursor.atEnd = false → (s.tree.node p).complete = true →
    Turn s p (s.leave p)
  | gap :
    s.within = some p → s.cursor.atEnd = false → (s.tree.node p).complete = false →
    s.cursor.token? = none → Turn s p s.advance
  | growComment {t : Token} :
    s.Reads p t → (s.tree.node p).kind = some .comment → t.category.isComment = true →
    Turn s p
      { s with
        tree := s.tree.update p fun n => { n with stop := t.stop }
        commentUnclosed := t.isUnclosedComment }.advance
  | bridge {t : Token} :
    s.Reads p t → (s.tree.node p).kind = some .comment → t.category.isComment = false →
    s.isBridge p t = true → Turn s p s.advance
  | endComment {t : Token} :
    s.Reads p t → (s.tree.node p).kind = some .comment → t.category.isComment = false →
    Turn s p ((s.closeRun p).leave p)
  | giveBack {t : Token} :
    s.Reads p t → (s.tree.node p).kind = some .importRun →
    (t.isPunctuation '\x7b' || t.isPunctuation '\x7d') = true →
    Turn s p ((s.close p s.importRollback).leave p)
  | sameLine {t : Token} :
    s.Reads p t → (s.tree.node p).kind = some .importRun →
    (t.isPunctuation '\x7b' || t.isPunctuation '\x7d') = false →
    s.cursor.leadsLine t = false → Turn s p s.advance
  | growImports {t : Token} :
    s.Reads p t → (s.tree.node p).kind = some .importRun → s.cursor.leadsLine t = true →
    t.isKeyword s.options.importKeyword = true →
    Turn s p
      { s with
        tree := s.tree.update p fun n =>
          { n with stop := (s.document.lineAt t.start).stop }
        importRollback := (s.tree.node p).stop }.advance
  | endImports {t : Token} :
    s.Reads p t → (s.tree.node p).kind = some .importRun →
    (t.isPunctuation '\x7b' || t.isPunctuation '\x7d') = false →
    s.cursor.leadsLine t = true → Turn s p ((s.closeRun p).leave p)
  | openBlock {t : Token} :
    s.Hosts p t → t.isPunctuation '\x7b' = true → Turn s p (s.openBlock p t)
  | openComment {t : Token} :
    s.Hosts p t → t.category.isComment = true → s.isTrailing t = false →
    Turn s p
      { s.enter p { kind := .comment, start := t.start, opener := t.text, stop := t.stop } with
        commentUnclosed := t.isUnclosedComment }.advance
  | openImports {t : Token} :
    s.Hosts p t → t.isKeyword s.options.importKeyword = true →
    Turn s p
      { s.enter p
          { kind := .importRun, start := t.start, opener := t.text,
            stop := (s.document.lineAt t.start).stop } with
        importRollback := t.start }.advance
  | openGroup {t : Token} {colon : Nat} :
    s.Hosts p t → s.options.groupCases = true → t.startsLabel = true →
    s.cursor.labelColon? = some colon →
    ((s.tree.node p).kind = some .block ∨
      s.tree.nearestOpen? p (·.kind == some .caseGroup) = none) →
    Turn s p (s.openGroup p t colon)
  | endGroup {t : Token} {colon : Nat} :
    s.Hosts p t → s.options.groupCases = true → t.startsLabel = true →
    s.cursor.labelColon? = some colon → (s.tree.node p).kind = some .caseGroup →
    Turn s p ((s.close p (s.document.endBefore t.start)).leave p)
  | switchGroup {t : Token} {colon group : Nat} :
    s.Hosts p t → s.options.groupCases = true → t.startsLabel = true →
    s.cursor.labelColon? = some colon → (s.tree.node p).kind ≠ some .block →
    s.tree.nearestOpen? p (·.kind == some .caseGroup) = some group → group ≠ p →
    Turn s p ((s.close group (s.document.endBefore t.start)).openGroup p t colon)
  | openArm {t : Token} :
    s.Hosts p t → t.category = .preprocessorKeyword → opensArm s.options t →
    Turn s p (s.openArm p t (directiveName t.text))
  | pendingArm {t : Token} :
    s.Hosts p t → t.category = .preprocessorKeyword → switchesArm t →
    s.pendingArm = some t.start →
    Turn s p ({ s with pendingArm := none }.openArm p t (directiveName t.text))
  | firstArm {t : Token} :
    s.Hosts p t → t.category = .preprocessorKeyword → switchesArm t →
    s.pendingArm ≠ some t.start →
    s.tree.nearestOpen? p (·.isArmOf ["if", "elif"]) = none →
    Turn s p (s.openArm p t (directiveName t.text))
  | endArm {t : Token} :
    s.Hosts p t → t.category = .preprocessorKeyword → switchesArm t →
    s.pendingArm ≠ some t.start →
    s.tree.nearestOpen? p (·.isArmOf ["if", "elif"]) = some p →
    Turn s p
      ({ s.close p (s.document.endBefore t.start) with pendingArm := some t.start }.leave p)
  | switchArm {t : Token} {arm : Nat} :
    s.Hosts p t → t.category = .preprocessorKeyword → switchesArm t →
    s.pendingArm ≠ some t.start →
    s.tree.nearestOpen? p (·.isArmOf ["if", "elif"]) = some arm → arm ≠ p →
    Turn s p
      ((s.close arm (s.document.endBefore t.start)).openArm p t (directiveName t.text))
  | closeArm {t : Token} {names : List String} :
    s.Hosts p t → t.category = .preprocessorKeyword → endsArm s.options t names →
    Turn s p (s.closeArm p t names)
  | closeBlock {t : Token} :
    s.Hosts p t → t.isPunctuation '\x7b' = false → t.closes = true →
    (s.tree.node p).kind = some .block →
    Turn s p
      ((s.close p
        (t.start + Text.byteLength (t.text.takeWhile (· != '\x7d')) + 1)).advance.leave p)
  | closeGroup {t : Token} :
    s.Hosts p t → t.isPunctuation '\x7b' = false → t.closes = true →
    (s.tree.node p).kind = some .caseGroup →
    Turn s p ((s.close p (s.document.endBefore t.start)).leave p)
  | pass {t : Token} :
    s.Hosts p t → t.isPunctuation '\x7b' = false →
    (t.closes = true → (s.tree.node p).kind ≠ some .block ∧
      (s.tree.node p).kind ≠ some .caseGroup) →
    (t.category = .preprocessorKeyword →
      ¬ opensArm s.options t ∧ ¬ switchesArm t ∧ ∀ names, ¬ endsArm s.options t names) →
    Turn s p s.advance

section StepTurn

variable {s s' : Scan} {p : Nat} {t : Token}

theorem turn_continueComment (reads : s.Reads p t) (kind : (s.tree.node p).kind = some .comment) :
    Turn s p (s.continueComment p t) := by
  unfold continueComment
  split
  next comment => exact .growComment reads kind comment
  next other =>
    rw [Bool.not_eq_true] at other
    split
    next bridge => exact .bridge reads kind other bridge
    next => exact .endComment reads kind other

theorem turn_continueImports (reads : s.Reads p t)
    (kind : (s.tree.node p).kind = some .importRun) : Turn s p (s.continueImports p t) := by
  unfold continueImports
  split
  next brace => exact .giveBack reads kind brace
  next other =>
    rw [Bool.not_eq_true] at other
    split
    next behind => exact .sameLine reads kind other (by simpa using behind)
    next leads =>
      have leads : s.cursor.leadsLine t = true := by simpa using leads
      split
      next import_ =>
        exact .growImports reads kind leads (Bool.and_eq_true_iff.1 import_).1
      next => exact .endImports reads kind other leads

theorem turn_caseLabel? (hosts : s.Hosts p t) (grouped : s.options.groupCases = true)
    (label : t.startsLabel = true) (opened : s.caseLabel? p t = some s') : Turn s p s' := by
  unfold caseLabel? at opened
  obtain ⟨colon, found, rfl⟩ := Option.map_eq_some_iff.1 opened
  dsimp only
  split
  next none =>
    refine .openGroup hosts grouped label found ?_
    split at none
    next block => exact Or.inl block
    next => exact Or.inr none
  next group some =>
    split at some
    next => cases some
    next notBlock =>
      split
      next same =>
        subst same
        have kind := (Tree.of_nearestOpen? some).2.2
        exact .endGroup hosts grouped label found (by simpa using kind)
      next other => exact .switchGroup hosts grouped label found notBlock some other

theorem turn_directive? (hosts : s.Hosts p t) (category : t.category = .preprocessorKeyword)
    (opened : s.directive? p t = some s') : Turn s p s' := by
  unfold directive? at opened
  dsimp only at opened
  split at opened
  next name =>
    cases opened
    exact .openArm hosts category (Or.inl name)
  next =>
    split at opened
    next name =>
      have switches : switchesArm t := by
        rw [Bool.or_eq_true, decide_eq_true_eq, decide_eq_true_eq] at name
        exact name
      cases opened
      unfold Scan.switchArm
      split
      next pending => exact .pendingArm hosts category switches pending
      next fresh =>
        split
        next none => exact .firstArm hosts category switches fresh none
        next arm near =>
          dsimp only
          split
          next same =>
            subst same
            exact .endArm hosts category switches fresh near
          next other => exact .switchArm hosts category switches fresh near other
    next =>
      split at opened
      next name =>
        cases opened
        exact .closeArm hosts category (Or.inl ⟨name, rfl⟩)
      next =>
        split at opened
        next name =>
          cases opened
          rw [Bool.and_eq_true, decide_eq_true_eq] at name
          exact .openArm hosts category (Or.inr name)
        next =>
          split at opened
          next name =>
            cases opened
            rw [Bool.and_eq_true, decide_eq_true_eq] at name
            exact .closeArm hosts category (Or.inr ⟨name.1, name.2, rfl⟩)
          next => cases opened

theorem turn_open? (hosts : s.Hosts p t) (opened : s.open? p t = some s') : Turn s p s' := by
  unfold open? at opened
  split at opened
  next brace =>
    cases opened
    exact .openBlock hosts brace
  next =>
    split at opened
    next comment =>
      unfold openComment? at opened
      split at opened
      next => cases opened
      next leads =>
        cases opened
        exact .openComment hosts comment (by simpa using leads)
    next =>
      split at opened
      next directive =>
        refine turn_directive? hosts ?_ opened
        revert directive
        cases t.category <;> simp [Category.isPreprocessor]
      next =>
        split at opened
        next keyword =>
          unfold openImports? at opened
          split at opened
          next => cases opened
          next =>
            cases opened
            exact .openImports hosts keyword
        next =>
          split at opened
          next label =>
            rw [Bool.and_eq_true] at label
            exact turn_caseLabel? hosts label.1 label.2 opened
          next => cases opened

/-- A directive that opens nothing and ends nothing does not matter. -/
theorem of_directive?_none (none : s.directive? p t = none) :
    ¬ opensArm s.options t ∧ ¬ switchesArm t ∧ ∀ names, ¬ endsArm s.options t names := by
  unfold directive? at none
  dsimp only at none
  split at none
  next => cases none
  next notIf =>
    split at none
    next => cases none
    next notElse =>
      split at none
      next => cases none
      next notEndif =>
        split at none
        next => cases none
        next notRegion =>
          split at none
          next => cases none
          next notEndregion =>
            refine ⟨?_, ?_, ?_⟩
            · intro opens
              rcases opens with name | both
              · exact notIf name
              · exact notRegion (by rw [Bool.and_eq_true, decide_eq_true_eq]; exact both)
            · intro switches
              refine notElse ?_
              rw [Bool.or_eq_true, decide_eq_true_eq, decide_eq_true_eq]
              exact switches
            · intro names ends
              rcases ends with ⟨name, -⟩ | ⟨fold, name, -⟩
              · exact notEndif name
              · exact notEndregion
                  (by rw [Bool.and_eq_true, decide_eq_true_eq]; exact ⟨fold, name⟩)

theorem turn_endOrPass (hosts : s.Hosts p t) (none : s.open? p t = none) :
    Turn s p (s.endOrPass p t) := by
  have plain : t.isPunctuation '\x7b' = false := by
    by_contra brace
    unfold open? at none
    rw [Bool.not_eq_false] at brace
    rw [if_pos brace] at none
    cases none
  have directive : t.category = .preprocessorKeyword →
      ¬ opensArm s.options t ∧ ¬ switchesArm t ∧ ∀ names, ¬ endsArm s.options t names := by
    intro category
    unfold open? at none
    rw [if_neg (by simp [plain]), if_neg (by simp [category, Category.isComment]),
      if_pos (by simp [category, Category.isPreprocessor])] at none
    exact of_directive?_none none
  unfold endOrPass
  split
  next closes =>
    split
    next block => exact .closeBlock hosts plain closes block
    next group => exact .closeGroup hosts plain closes group
    next notBlock notGroup =>
      exact .pass hosts plain (fun _ => ⟨notBlock, notGroup⟩) directive
  next open_ =>
    exact .pass hosts plain (fun closes => absurd closes open_) directive

/-- Every step of a scan that is not over is a turn. -/
theorem step_turn (within : s.within = some p) : Turn s p s.step := by
  unfold step
  rw [within]
  dsimp only
  split
  next ended => exact .finish within ended
  next more =>
    rw [Bool.not_eq_true] at more
    split
    next complete => exact .leave within more complete
    next live =>
      rw [Bool.not_eq_true] at live
      cases found : s.cursor.token? with
      | none => exact .gap within more live found
      | some t =>
        have reads : s.Reads p t := ⟨within, more, live, found⟩
        dsimp only
        unfold read
        split
        next kind => exact turn_continueComment reads kind
        next kind => exact turn_continueImports reads kind
        next notComment notImports =>
          have hosts : s.Hosts p t := by
            refine ⟨reads, ?_⟩
            unfold Node.isRun
            rw [Bool.or_eq_false_iff, beq_eq_false_iff_ne, beq_eq_false_iff_ne]
            exact ⟨notComment, notImports⟩
          cases opened : s.open? p t with
          | none => exact turn_endOrPass hosts opened
          | some s' => exact turn_open? hosts opened

end StepTurn

end Scan

end CodeFolding
