import Mathlib
import CodeFolding.Session.Host
import CodeFolding.Proofs.Changes
import CodeFolding.Proofs.SoundRegions
import CodeFolding.Proofs.Typing

/-!
# Sessions stay in step with their documents

A host types, asks for runs and lets its classifier do the same while a run is under way.  Whoever
sees the steps and the replies can keep a `Log`: what was typed, and how much of it had been typed
when the document of the outline shown was taken.

* `Host.performAll_busy`: while a run is under way, steps only type; they begin no other run.
* `Host.InStep`: between steps the recorded edits are the keystrokes since the outline shown.
* `Host.InStep.inside`: inside a run they are what the run has taken, and then what is recorded.
* `session_in_step`: so they lead from the text of that outline to the open document, every run
  compares its outline with the one before through exactly the edits in between, and on
  well-formed streams no run fails.
-/

namespace CodeFolding

open Keystroke (type? typeAll? typeAll?_cons typeAll?_append)

/-! ## Steps and what they type -/

/-- A step that types into the open document or asks for a run on it, and whose interlude does
nothing else. -/
inductive Step.Ordinary : Step → Prop
  | replace (start stop : Nat) (insert : List Char) (time : Nat) :
    Ordinary (.replace start stop insert time)
  | poll (time : Nat) {interlude : List Step} :
    (∀ step ∈ interlude, step.Ordinary) → Ordinary (.poll time {} interlude)
  | refresh {interlude : List Step} :
    (∀ step ∈ interlude, step.Ordinary) → Ordinary (.refresh {} interlude)

mutual

/-- The keystrokes of a step, as its reply tells. -/
def Step.typed : Step → Reply → List Keystroke
  | .replace start stop insert _, .replaced _ _ =>
    if h : start ≤ stop then [⟨⟨start, stop, h⟩, insert⟩] else []
  | .poll _ _ interlude, .ran _ (some replies) => Step.typedAll interlude replies
  | .refresh _ interlude, .ran _ (some replies) => Step.typedAll interlude replies
  | _, _ => []
termination_by structural step => step

/-- The keystrokes of steps in order. -/
def Step.typedAll : List Step → Host.Replies → List Keystroke
  | step :: steps, .ok reply :: replies => step.typed reply ++ Step.typedAll steps replies
  | _, _ => []
termination_by structural steps => steps

end

/-- A run began and came to its end. -/
def Reply.isRun : Reply → Bool
  | .ran _ (some _) => true
  | _ => false

/-- What steps and replies tell. -/
structure Log where
  /-- All keystrokes, oldest first. -/
  typed : List Keystroke := []
  /-- How many of them came before the document of the outline shown was taken. -/
  mark : Nat := 0
  /-- How many runs came to their end. -/
  runs : Nat := 0

namespace Log

/-- The log after one more step. -/
def after (log : Log) (step : Step) (reply : Reply) : Log where
  typed := log.typed ++ step.typed reply
  mark := if reply.isRun then log.typed.length else log.mark
  runs := if reply.isRun then log.runs + 1 else log.runs

/-- The log after steps in order. -/
def afterAll (log : Log) : List Step → Host.Replies → Log
  | step :: steps, .ok reply :: replies => (log.after step reply).afterAll steps replies
  | _, _ => log

/-- The keystrokes since the document of the outline shown was taken. -/
def pending (log : Log) : List Keystroke := log.typed.drop log.mark

end Log

namespace Host

/-! ## Typing -/

/-- From one state of a host to another no run began or ended. -/
structure Kept (h h' : Host) : Prop where
  classify : h'.classify = h.classify
  id : h'.session.id = h.session.id
  settings : h'.session.settings = h.session.settings
  latest : h'.session.latest = h.session.latest
  running : h'.session.running = h.session.running

theorem Kept.refl (h : Host) : Kept h h :=
  ⟨rfl, rfl, rfl, rfl, rfl⟩

theorem Kept.trans {h h' h'' : Host} (first : Kept h h') (second : Kept h' h'') : Kept h h'' where
  classify := second.classify.trans first.classify
  id := second.id.trans first.id
  settings := second.settings.trans first.settings
  latest := second.latest.trans first.latest
  running := second.running.trans first.running

theorem kept_edit (h : Host) (document : Document) (e : Edit) (time : Nat) :
    Kept h { h with document, session := h.session.edit e time } :=
  ⟨rfl, rfl, rfl, rfl, rfl⟩

/-- From one state of a host to another only these keystrokes came in. -/
structure Typed (h h' : Host) (keys : List Keystroke) : Prop extends Kept h h' where
  edits : h'.session.edits = h.session.edits ++ keys.map Keystroke.edit
  text : typeAll? keys h.document.text = some h'.document.text

section Typing

variable {h h' h'' : Host} {keys more : List Keystroke} {step : Step} {steps : List Step}
  {reply : Reply}

theorem Typed.refl (h : Host) : Typed h h [] :=
  ⟨.refl h, (List.append_nil _).symm, rfl⟩

theorem Typed.trans (first : Typed h h' keys) (second : Typed h' h'' more) :
    Typed h h'' (keys ++ more) where
  toKept := first.toKept.trans second.toKept
  edits := by rw [second.edits, first.edits, List.map_append, List.append_assoc]
  text := by rw [typeAll?_append, first.text, Option.bind_some, second.text]

theorem typed_replace {start stop time : Nat} {insert : List Char}
    (done : h.replace start stop insert time = .ok (h', reply)) :
    reply.isRun = false ∧ Typed h h' ((Step.replace start stop insert time).typed reply) := by
  unfold replace at done
  by_cases ordered : start ≤ stop
  · rw [Span.ofBounds_of_le ordered] at done
    dsimp only [bind, Except.bind] at done
    split at done
    next front rest taken dropped =>
      cases next : h.document.nextVersion with
      | error fault =>
        rw [next] at done
        cases done
      | ok version =>
        rw [next] at done
        cases done
        rw [Step.typed, dif_pos ordered]
        refine ⟨rfl, kept_edit h _ _ _, rfl, ?_⟩
        rw [typeAll?_cons]
        unfold type?
        rw [taken, dropped]
        rfl
    next =>
      cases done
      exact ⟨rfl, .refl h⟩
  · unfold Span.ofBounds at done
    rw [dif_neg ordered] at done
    cases done

/-- While a run is under way, a step types or does nothing. -/
theorem perform_busy (busy : h.session.running = true) (ordinary : step.Ordinary) :
    (∃ h' reply, h.perform step = (h', .ok reply) ∧ Typed h h' (step.typed reply)) ∨
      ∃ fault, h.perform step = (h, .error fault) := by
  cases ordinary with
  | replace start stop insert time =>
    rw [perform]
    cases done : h.replace start stop insert time with
    | error fault => exact Or.inr ⟨fault, rfl⟩
    | ok result =>
      obtain ⟨h', reply⟩ := result
      exact Or.inl ⟨h', reply, rfl, (typed_replace done).2⟩
  | poll time _ =>
    have early : h.session.isDue time = false := by
      unfold Session.isDue
      rw [busy]
      rfl
    rw [perform, early]
    exact Or.inl ⟨h, .ran none none, rfl, .refl h⟩
  | refresh _ =>
    rw [perform, if_pos busy]
    exact Or.inl ⟨h, .ran none none, rfl, .refl h⟩

/-- While a run is under way, steps only type: no other run begins, and the old outline is
shown. -/
theorem performAll_busy (busy : h.session.running = true)
    (ordinary : ∀ step ∈ steps, step.Ordinary) :
    Typed h (h.performAll steps).1 (Step.typedAll steps (h.performAll steps).2) := by
  induction steps generalizing h with
  | nil => exact .refl h
  | cons step steps ih =>
    rw [performAll]
    rcases perform_busy busy (ordinary step List.mem_cons_self) with
      ⟨h', reply, done, typed⟩ | ⟨fault, failed⟩
    · rw [done]
      exact typed.trans (ih (typed.running.trans busy) fun step member =>
        ordinary step (List.mem_cons_of_mem _ member))
    · rw [failed]
      exact .refl h

end Typing

/-! ## Runs -/

/-- The host when a run has begun. -/
def begun (h : Host) : Host := { h with session := h.session.beginRun.1 }

/-- The host when its run has ended with an outline. -/
def ended (h : Host) (new : Outline) : Host :=
  { h with session := { h.session with running := false, latest := new } }

section Runs

variable {h h' : Host} {d : Document} {new : Outline}
  {interlude : Host → Host × Replies} {reply : Reply} {changed : Option Span}

theorem document_of_ofTokens {options : ScanOptions} {session : SessionId} {tokens : List Token}
    (found : Outline.ofTokens options session d tokens = .ok new) : new.document = d := by
  obtain ⟨regions, -, rfl⟩ := Outline.ofTokens_eq_ok_iff.1 found
  rfl

/-- A run ends if its document has an outline and the outline shown can be compared with it. -/
theorem completeRun_eq_ok_iff {taken : List Edit} {result : Session × Option Notice} :
    h.completeRun taken d = .ok result ↔
      ∃ new changed,
        Outline.ofTokens h.session.settings.scan h.session.id d (h.classify d) = .ok new ∧
        h.session.latest.change new taken = .ok changed ∧
        result = ((h.ended new).session,
          changed.map fun span => ⟨h.session.id, new.version, span⟩) := by
  unfold completeRun Session.completeRun
  cases Outline.ofTokens h.session.settings.scan h.session.id d (h.classify d) with
  | error fault =>
    exact ⟨fun absurd => (nomatch absurd), fun ⟨_, _, absurd, _⟩ => (nomatch absurd)⟩
  | ok new =>
    show (h.session.latest.change new taken).bind _ = _ ↔ _
    cases compared : h.session.latest.change new taken with
    | error fault =>
      refine ⟨fun absurd => (nomatch absurd), ?_⟩
      rintro ⟨other, changed, same, found, -⟩
      cases same
      rw [compared] at found
      cases found
    | ok changed =>
      constructor
      · intro done
        cases done
        exact ⟨new, changed, rfl, compared, rfl⟩
      · rintro ⟨other, changed', same, found, rfl⟩
        cases same
        rw [compared] at found
        cases found
        rfl

theorem run_eq (h : Host) (d : Document) (interlude : Host → Host × Replies) :
    h.run d interlude =
      match (interlude h.begun).1.completeRun h.session.edits d with
      | .ok (session, notice) =>
        ({ (interlude h.begun).1 with session }, .ok (.ran notice (some (interlude h.begun).2)))
      | .error fault =>
        ({ (interlude h.begun).1 with session := (interlude h.begun).1.session.abandonRun },
          .error fault) :=
  rfl

/-- A run that ends shows the outline of its document, and compares it with the outline shown
before through the edits that it took. -/
theorem of_run (kept : Kept h.begun (interlude h.begun).1)
    (done : h.run d interlude = (h', .ok reply)) :
    ∃ new changed,
      Outline.ofTokens h.session.settings.scan h.session.id d (h.classify d) = .ok new ∧
      h.session.latest.change new h.session.edits = .ok changed ∧
      reply = .ran (changed.map fun span => ⟨h.session.id, d.version, span⟩)
        (some (interlude h.begun).2) ∧
      h' = (interlude h.begun).1.ended new := by
  rw [run_eq] at done
  cases completed : (interlude h.begun).1.completeRun h.session.edits d with
  | error fault =>
    rw [completed] at done
    cases done
  | ok result =>
    rw [completed] at done
    obtain ⟨new, changed, found, compared, rfl⟩ := completeRun_eq_ok_iff.1 completed
    rw [kept.settings, kept.id, kept.classify] at found
    rw [kept.latest] at compared
    cases done
    refine ⟨new, changed, found, compared, ?_, rfl⟩
    rw [kept.id, ← document_of_ofTokens found]
    rfl

/-- A run ends if there is an outline to show that can be compared with the one shown. -/
theorem exists_run (kept : Kept h.begun (interlude h.begun).1)
    (found : Outline.ofTokens h.session.settings.scan h.session.id d (h.classify d) = .ok new)
    (compared : h.session.latest.change new h.session.edits = .ok changed) :
    ∃ h' notice replies, h.run d interlude = (h', .ok (.ran notice (some replies))) := by
  have completed : ∃ result,
      (interlude h.begun).1.completeRun h.session.edits d = .ok result := by
    refine ⟨_, completeRun_eq_ok_iff.2 ⟨new, changed, ?_, ?_, rfl⟩⟩
    · rw [kept.settings, kept.id, kept.classify]
      exact found
    · rw [kept.latest]
      exact compared
  obtain ⟨result, completed⟩ := completed
  rw [run_eq, completed]
  exact ⟨_, _, _, rfl⟩

/-- While no run is under way, a step only types, or it is a run on the open document. -/
theorem perform_idle {step : Step} (idle : h.session.running = false) (ordinary : step.Ordinary)
    (done : h.perform step = (h', .ok reply)) :
    (reply.isRun = false ∧ Typed h h' (step.typed reply)) ∨
      ∃ between replies new changed, Typed h.begun between (step.typed reply) ∧
        Outline.ofTokens h.session.settings.scan h.session.id h.document
          (h.classify h.document) = .ok new ∧
        h.session.latest.change new h.session.edits = .ok changed ∧
        reply = .ran (changed.map fun span => ⟨h.session.id, h.document.version, span⟩)
          (some replies) ∧
        h' = between.ended new := by
  -- the interlude of a run finds the host busy
  have busy : ∀ {interlude : List Step}, (∀ step ∈ interlude, step.Ordinary) →
      Typed h.begun (h.begun.performAll interlude).1
        (Step.typedAll interlude (h.begun.performAll interlude).2) :=
    fun ordinary => performAll_busy rfl ordinary
  cases ordinary with
  | replace start stop insert time =>
    rw [perform] at done
    cases result : h.replace start stop insert time with
    | error fault =>
      rw [result] at done
      cases done
    | ok both =>
      obtain ⟨h'', reply'⟩ := both
      rw [result] at done
      cases done
      exact Or.inl (typed_replace result)
  | @poll time interlude ordinary =>
    rw [perform] at done
    split at done
    next due =>
      obtain ⟨new, changed, found, compared, rfl, rfl⟩ := of_run (busy ordinary).toKept done
      exact Or.inr ⟨_, _, new, changed, busy ordinary, found, compared, rfl, rfl⟩
    next =>
      cases done
      exact Or.inl ⟨rfl, .refl h⟩
  | @refresh interlude ordinary =>
    rw [perform, if_neg (by rw [idle]; exact Bool.false_ne_true)] at done
    obtain ⟨new, changed, found, compared, rfl, rfl⟩ := of_run (busy ordinary).toKept done
    exact Or.inr ⟨_, _, new, changed, busy ordinary, found, compared, rfl, rfl⟩

end Runs

/-! ## Between steps -/

/-- Between steps no run is under way, and the log of the host tells its state: the recorded edits
are the keystrokes that lead from the outline shown to the open document, and the outline shown is
that of its own document. -/
structure InStep (id : SessionId) (classify : Document → List Token) (settings : Settings)
    (d : Document) (h : Host) (log : Log) : Prop where
  id : h.session.id = id
  classify : h.classify = classify
  settings : h.session.settings = settings
  idle : h.session.running = false
  marked : log.mark ≤ log.typed.length
  edits : h.session.edits = log.pending.map Keystroke.edit
  shown : typeAll? (log.typed.take log.mark) d.text = some h.session.latest.document.text
  text : typeAll? log.pending h.session.latest.document.text = some h.document.text
  first : log.runs = 0 → h.session.latest = .empty h.session.id d
  later : 0 < log.runs →
    Outline.ofTokens h.session.settings.scan h.session.id h.session.latest.document
      (h.classify h.session.latest.document) = .ok h.session.latest

section InStep

variable {id : SessionId} {classify : Document → List Token} {settings : Settings} {d : Document}
  {h h' : Host} {log : Log} {keys : List Keystroke} {step : Step} {steps : List Step}
  {reply : Reply}

theorem inStep_start (id : SessionId) (classify : Document → List Token) (settings : Settings)
    (d : Document) : InStep id classify settings d (start id classify settings d) {} :=
  ⟨rfl, rfl, rfl, rfl, Nat.le_refl _, rfl, rfl, rfl, fun _ => rfl, fun absurd => (nomatch absurd)⟩

/-- The open document is what everything typed makes of the first one. -/
theorem InStep.document (inStep : InStep id classify settings d h log) :
    typeAll? log.typed d.text = some h.document.text := by
  rw [← List.take_append_drop log.mark log.typed, typeAll?_append, inStep.shown, Option.bind_some]
  exact inStep.text

theorem InStep.typed (inStep : InStep id classify settings d h log) (typed : Typed h h' keys) :
    InStep id classify settings d h' { log with typed := log.typed ++ keys } := by
  have pending : Log.pending { log with typed := log.typed ++ keys } = log.pending ++ keys :=
    List.drop_append_of_le_length inStep.marked
  refine ⟨typed.id.trans inStep.id, typed.classify.trans inStep.classify,
    typed.settings.trans inStep.settings, typed.running.trans inStep.idle, ?_, ?_, ?_, ?_, ?_, ?_⟩
  · rw [List.length_append]
    exact Nat.le_trans inStep.marked (Nat.le_add_right _ _)
  · rw [pending, typed.edits, inStep.edits, List.map_append]
  · rw [typed.latest, List.take_append_of_le_length inStep.marked]
    exact inStep.shown
  · rw [pending, typed.latest, typeAll?_append, inStep.text, Option.bind_some]
    exact typed.text
  · rw [typed.latest, typed.id]
    exact inStep.first
  · rw [typed.latest, typed.id, typed.settings, typed.classify]
    exact inStep.later

/-- Inside a run the old outline is shown, and what the run has taken and then what was typed
since lead from its text to the open document. -/
theorem InStep.inside (inStep : InStep id classify settings d h log) {between : Host}
    (typed : Typed h.begun between keys) :
    between.session.running = true ∧ between.session.latest = h.session.latest ∧
      h.session.beginRun.2 = log.pending.map Keystroke.edit ∧
      between.session.edits = keys.map Keystroke.edit ∧
      typeAll? (log.pending ++ keys) h.session.latest.document.text =
        some between.document.text := by
  refine ⟨typed.running, typed.latest, inStep.edits, typed.edits, ?_⟩
  rw [typeAll?_append, inStep.text, Option.bind_some]
  exact typed.text

/-- After a run what its interlude typed is pending. -/
theorem InStep.ended (inStep : InStep id classify settings d h log) {between : Host}
    {new : Outline} (typed : Typed h.begun between keys)
    (found : Outline.ofTokens h.session.settings.scan h.session.id h.document
      (h.classify h.document) = .ok new) :
    InStep id classify settings d (between.ended new)
      ⟨log.typed ++ keys, log.typed.length, log.runs + 1⟩ := by
  have document := document_of_ofTokens found
  have pending : Log.pending ⟨log.typed ++ keys, log.typed.length, log.runs + 1⟩ = keys :=
    List.drop_left
  refine ⟨typed.id.trans inStep.id, typed.classify.trans inStep.classify,
    typed.settings.trans inStep.settings, rfl, ?_, ?_, ?_, ?_, fun absurd => (nomatch absurd),
    fun _ => ?_⟩
  · rw [List.length_append]
    exact Nat.le_add_right _ _
  · rw [pending]
    exact typed.edits
  · show typeAll? ((log.typed ++ keys).take log.typed.length) d.text = some new.document.text
    rw [List.take_left, document]
    exact inStep.document
  · show typeAll? _ new.document.text = _
    rw [pending, document]
    exact typed.text
  · show Outline.ofTokens between.session.settings.scan between.session.id new.document
      (between.classify new.document) = _
    rw [typed.id, typed.settings, typed.classify, document]
    exact found

/-- A step that comes to its end leaves a state that its log tells. -/
theorem InStep.perform (inStep : InStep id classify settings d h log) (ordinary : step.Ordinary)
    (done : h.perform step = (h', .ok reply)) :
    InStep id classify settings d h' (log.after step reply) := by
  rcases perform_idle inStep.idle ordinary done with
    ⟨notRun, typed⟩ | ⟨between, replies, new, changed, typed, found, -, rfl, rfl⟩
  · unfold Log.after
    rw [notRun]
    exact inStep.typed typed
  · exact inStep.ended typed found

/-- Steps that all come to their ends leave a state that their log tells. -/
theorem InStep.performAll (inStep : InStep id classify settings d h log)
    (ordinary : ∀ step ∈ steps, step.Ordinary)
    (fine : ∀ reply ∈ (h.performAll steps).2, reply.isOk = true) :
    InStep id classify settings d (h.performAll steps).1
      (log.afterAll steps (h.performAll steps).2) := by
  induction steps generalizing h log with
  | nil => exact inStep
  | cons step steps ih =>
    rw [Host.performAll] at fine ⊢
    cases done : h.perform step with
    | mk h' result =>
      rw [done] at fine
      cases result with
      | error fault => exact absurd (fine _ List.mem_cons_self) Bool.false_ne_true
      | ok reply =>
        refine ih (inStep.perform (ordinary step List.mem_cons_self) done) ?_ ?_
        · exact fun step member => ordinary step (List.mem_cons_of_mem _ member)
        · exact fun reply member => fine reply (List.mem_cons_of_mem _ member)

/-- On well-formed streams the outline shown can be moved through the recorded edits, as long as
no text that was typed is too long. -/
theorem InStep.movable (inStep : InStep id classify settings d h log)
    (formed : ∀ d, Token.WellFormed d (classify d))
    (small : ∀ n text, typeAll? (log.typed.take n) d.text = some text →
      Text.byteLength text + 1 < limit32) :
    h.session.latest.Movable h.session.edits := by
  intro r member
  have ran : 0 < log.runs := by
    by_contra none
    rw [inStep.first (Nat.eq_zero_of_not_pos none)] at member
    exact absurd member List.not_mem_nil
  have inside : r.span.stop ≤ Text.byteLength h.session.latest.document.text := by
    obtain ⟨o, found, -, sound⟩ := exists_outline h.session.settings.scan h.session.id
      (formed h.session.latest.document)
    rw [← inStep.classify, inStep.later ran] at found
    cases found
    rw [← Document.length_eq]
    exact (sound r member).inside
  -- a text between the two documents is one of all texts that were typed
  have between : ∀ n text,
      typeAll? (log.pending.take n) h.session.latest.document.text = some text →
        Text.byteLength text < limit32 := by
    intro n text found
    have typed : typeAll? (log.typed.take (log.mark + n)) d.text = some text := by
      rw [List.take_add, typeAll?_append, inStep.shown, Option.bind_some]
      exact found
    exact Nat.lt_of_succ_lt (small _ text typed)
  obtain ⟨moved, all, -⟩ := Keystroke.exists_moveAll inStep.text inside between
  rw [inStep.edits]
  exact ⟨moved, all⟩

/-- A run after these steps tells exactly what changed between the outline shown and its own. -/
theorem InStep.of_perform (inStep : InStep id classify settings d h log)
    (ordinary : step.Ordinary) {notice : Option Notice} {replies : Replies}
    (done : h.perform step = (h', .ok (.ran notice (some replies)))) :
    ∃ changed, h'.session.latest.document = h.document ∧
      h.session.latest.change h'.session.latest h.session.edits = .ok changed ∧
      notice = changed.map fun span => ⟨h.session.id, h.document.version, span⟩ := by
  rcases perform_idle inStep.idle ordinary done with
    ⟨notRun, -⟩ | ⟨between, replies', new, changed, -, found, compared, told, rfl⟩
  · cases notRun
  · cases told
    exact ⟨changed, document_of_ofTokens found, compared, rfl⟩

/-- On well-formed streams runs come to their ends. -/
theorem InStep.exists_perform (inStep : InStep id classify settings d h log)
    (formed : ∀ d, Token.WellFormed d (classify d))
    (small : ∀ n text, typeAll? (log.typed.take n) d.text = some text →
      Text.byteLength text + 1 < limit32)
    (ordinary : ∀ step ∈ steps, step.Ordinary) (time : Nat) :
    (∃ h' notice replies,
      h.perform (.refresh {} steps) = (h', .ok (.ran notice (some replies)))) ∧
    ∃ h' notice replies, h.perform (.poll time {} steps) = (h', .ok (.ran notice replies)) := by
  have ran : ∃ h' notice replies, h.run h.document (fun h => h.performAll steps) =
      (h', .ok (.ran notice (some replies))) := by
    obtain ⟨new, found, -, -⟩ := exists_outline h.session.settings.scan h.session.id
      (formed h.document)
    rw [← inStep.classify] at found
    obtain ⟨changed, compared, -⟩ := Outline.exists_change (inStep.movable formed small) new
    exact exists_run (performAll_busy rfl ordinary).toKept found compared
  refine ⟨?_, ?_⟩
  · rw [Host.perform, if_neg (by rw [inStep.idle]; exact Bool.false_ne_true)]
    exact ran
  · rw [Host.perform]
    split
    next =>
      obtain ⟨h', notice, replies, done⟩ := ran
      exact ⟨h', notice, some replies, done⟩
    next => exact ⟨h, none, none, rfl⟩

end InStep

end Host

/-- Whatever a host types and whenever it asks for runs, also while a run is under way: between
steps the recorded edits lead from the text of the outline shown to the open document, and inside
a run so do the edits that it has taken and then the recorded ones.  Once a run has ended the
outline shown is that of its own document.  A run tells nothing exactly if the spans shown before,
moved through the edits typed between the two documents, are the spans shown now, and else the
least cover of their difference.  On well-formed streams of texts that are not too long every run
comes to its end. -/
theorem session_in_step (id : SessionId) (classify : Document → List Token) (settings : Settings)
    (d : Document) (steps : List Step) (ordinary : ∀ step ∈ steps, step.Ordinary)
    (fine : ∀ reply ∈ ((Host.start id classify settings d).performAll steps).2,
      reply.isOk = true) :
    let h := ((Host.start id classify settings d).performAll steps).1
    let log := ({} : Log).afterAll steps ((Host.start id classify settings d).performAll steps).2
    let shown := h.session.latest
    let edits := log.pending.map Keystroke.edit
    h.session.id = id ∧
    (h.session.edits = edits ∧ typeAll? log.pending shown.document.text = some h.document.text) ∧
    (∀ interlude, (∀ step ∈ interlude, step.Ordinary) →
      let inside := (h.begun.performAll interlude).1
      let typed := Step.typedAll interlude (h.begun.performAll interlude).2
      inside.session.running = true ∧ inside.session.latest = shown ∧
      h.session.beginRun.2 = edits ∧ inside.session.edits = typed.map Keystroke.edit ∧
      typeAll? (log.pending ++ typed) shown.document.text = some inside.document.text) ∧
    typeAll? (log.typed.take log.mark) d.text = some shown.document.text ∧
    (log.runs = 0 → shown = .empty h.session.id d) ∧
    (0 < log.runs → Outline.ofTokens settings.scan h.session.id shown.document
      (classify shown.document) = .ok shown) ∧
    (∀ step h' notice replies, step.Ordinary →
      h.perform step = (h', .ok (.ran notice (some replies))) →
      let new := h'.session.latest
      new.document = h.document ∧ shown.Movable edits ∧
      (notice = none ↔ shown.movedSpans edits = new.spans) ∧
      (shown.movedSpans edits ≠ new.spans →
        ∃ span, notice = some ⟨h.session.id, h.document.version, span⟩ ∧
          IsLeast (Span.start '' symmDiff (shown.movedSpans edits) new.spans) span.start ∧
          IsGreatest (Span.stop '' symmDiff (shown.movedSpans edits) new.spans) span.stop)) ∧
    ((∀ d, Token.WellFormed d (classify d)) →
      (∀ n text, typeAll? (log.typed.take n) d.text = some text →
        Text.byteLength text + 1 < limit32) →
      ∀ interlude time, (∀ step ∈ interlude, step.Ordinary) →
        (∃ h' notice replies,
          h.perform (.refresh {} interlude) = (h', .ok (.ran notice (some replies)))) ∧
        ∃ h' notice replies,
          h.perform (.poll time {} interlude) = (h', .ok (.ran notice replies))) := by
  intro h log shown edits
  have inStep : Host.InStep id classify settings d h log :=
    (Host.inStep_start id classify settings d).performAll ordinary fine
  refine ⟨inStep.id, ⟨inStep.edits, inStep.text⟩, ?_, inStep.shown, inStep.first, ?_, ?_, ?_⟩
  · intro interlude ordinary inside typed
    exact inStep.inside (Host.performAll_busy rfl ordinary)
  · rw [← inStep.settings, ← inStep.classify]
    exact inStep.later
  · intro step h' notice replies ordinary done new
    obtain ⟨changed, document, compared, told⟩ := inStep.of_perform ordinary done
    rw [inStep.edits] at compared
    obtain ⟨movable, cover⟩ := Outline.of_change compared
    have same : changed = none ↔ shown.movedSpans edits = new.spans :=
      cover.eq_none_iff.trans symmDiff_eq_bot
    refine ⟨document, movable, ?_, ?_⟩
    · rw [told, Option.map_eq_none_iff]
      exact same
    · intro differ
      cases changed with
      | none => exact absurd (same.1 rfl) differ
      | some span => exact ⟨span, told, cover⟩
  · intro formed small interlude time ordinary
    exact inStep.exists_perform formed small ordinary time

/-- Two comment lines typed while the first run is under way, where a second run is asked for in
vain; the poll that takes them up; and a keystroke that is still pending when the next run begins,
which another one follows inside that run. -/
theorem session_in_step_interlude :
    let d := Document.ofText 0 "f\n\x7b\n\x7d".toList
    let host := Host.start 4 (fun d => classify d.text) {} d
    let steps : List Step :=
      [.refresh {} [.replace 0 0 "// x\n// y\n".toList 5, .refresh {} []],
        .poll 2500000005 {} [], .replace 0 1 [] 3000000000]
    let h := (host.performAll steps).1
    let log := ({} : Log).afterAll steps (host.performAll steps).2
    let more : List Step := [.replace 1 1 "/".toList 3000000001]
    let inside := (h.begun.performAll more).1
    let first : Keystroke := ⟨⟨0, 1, by decide⟩, []⟩
    let second : Keystroke := ⟨⟨1, 1, by decide⟩, "/".toList⟩
    (∀ reply ∈ (host.performAll steps).2, reply.isOk = true) ∧
      (log.mark, log.runs, log.pending) = (1, 2, [first]) ∧
      h.session.edits = log.pending.map Keystroke.edit ∧
      typeAll? log.pending h.session.latest.document.text = some h.document.text ∧
      inside.session.edits = [second].map Keystroke.edit ∧
      typeAll? ([first] ++ [second]) h.session.latest.document.text = some inside.document.text ∧
      ∃ h' notice replies,
        h.perform (.refresh {} []) = (h', .ok (.ran notice (some replies))) := by
  intro d host steps h log more inside first second
  have nothing : ∀ step ∈ ([] : List Step), step.Ordinary :=
    fun step member => absurd member List.not_mem_nil
  have ordinary : ∀ step ∈ steps, step.Ordinary := by
    refine List.forall_mem_cons.2 ⟨.refresh ?_, List.forall_mem_cons.2 ⟨.poll _ nothing,
      List.forall_mem_cons.2 ⟨.replace 0 1 [] _, nothing⟩⟩⟩
    exact List.forall_mem_cons.2 ⟨.replace 0 0 _ 5,
      List.forall_mem_cons.2 ⟨.refresh nothing, nothing⟩⟩
  have fine : ∀ reply ∈ (host.performAll steps).2, reply.isOk = true := by decide +kernel
  have told : (log.mark, log.runs, log.pending) = (1, 2, [first]) := by decide +kernel
  have small : ∀ n text, typeAll? (log.typed.take n) d.text = some text →
      Text.byteLength text + 1 < limit32 := by
    have lengths : ∀ n < 3, (typeAll? (log.typed.take n) d.text).all
        (Text.byteLength · + 1 < limit32) = true := by decide +kernel
    intro n text found
    have short : log.typed.take n = log.typed.take (min n 2) :=
      List.take_eq_take_min.trans (by rw [show log.typed.length = 2 by decide +kernel])
    have bound := lengths (min n 2) (by omega)
    rw [← short, found] at bound
    simpa using bound
  have typing : ∀ step ∈ more, step.Ordinary := List.forall_mem_cons.2 ⟨.replace 1 1 _ _, nothing⟩
  have typed : Step.typedAll more (h.begun.performAll more).2 = [second] := by decide +kernel
  obtain ⟨-, ⟨edits, text⟩, within, -, -, -, -, runs⟩ :=
    session_in_step 4 _ {} d steps ordinary fine
  obtain ⟨-, -, -, recorded, moved⟩ := within more typing
  rw [typed] at recorded
  rw [typed, show log.pending = [first] from congrArg (·.2.2) told] at moved
  have ran := (runs (fun d => classify_wellFormed d) small [] 0 nothing).1
  with_reducible exact ⟨fine, told, edits, text, recorded, moved, ran⟩

end CodeFolding
