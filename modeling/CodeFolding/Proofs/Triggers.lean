import Mathlib
import CodeFolding.Proofs.Sessions

/-!
# Every edit has its run

Edits are recorded between runs and also while one is under way.  Whoever follows the steps of a
host can keep a `History`: what was recorded and when, what each run took that is over and whether
it came to its end, and what the run under way has taken.

* `Step.recorded`: what a step records, as its reply tells.
* `Host.Passes`: the states on the way through some steps, those inside a run and those behind a
  fault too.
* `Host.Triggered`: what the history tells about a state.
* `edits_await_one_run`: a trigger is pending exactly as long as edits are, with the deadline of
  the last one; every edit recorded was taken by one run, or is pending; and a run that comes to
  its end compares the outlines through the edits that it took.  A run that fails gives up what it
  took.
-/

namespace CodeFolding

/-! ## Histories -/

mutual

/-- The edits that a step records and their times, as its reply tells. -/
def Step.recorded : Step → Reply → List (Edit × Nat)
  | .replace start stop insert time, .replaced _ _ =>
    if h : start ≤ stop then [(⟨⟨start, stop, h⟩, Text.byteLength insert⟩, time)] else []
  | .edit (.ok e) time, .edited => [(e, time)]
  | .poll _ _ interlude, .ran _ (some replies) => Step.recordedAll interlude replies
  | .refresh _ interlude, .ran _ (some replies) => Step.recordedAll interlude replies
  | _, _ => []
termination_by structural step => step

/-- The edits that steps record, in order. -/
def Step.recordedAll : List Step → Host.Replies → List (Edit × Nat)
  | step :: steps, .ok reply :: replies => step.recorded reply ++ Step.recordedAll steps replies
  | _, _ => []
termination_by structural steps => steps

end

/-- What a run took that is over. -/
structure Batch where
  edits : List Edit
  /-- The run came to its end; else it failed and was given up. -/
  finished : Bool

/-- What became of the edits. -/
structure History where
  /-- All edits and their times, in the order in which they were recorded. -/
  recorded : List (Edit × Nat) := []
  /-- What the runs took that are over, in their order. -/
  batches : List Batch := []
  /-- What the run under way has taken. -/
  active : Option (List Edit) := none

namespace History

/-- What the runs took that came to their ends. -/
def finished (history : History) : List (List Edit) :=
  (history.batches.filter (·.finished)).map Batch.edits

/-- What the runs took that were given up. -/
def abandoned (history : History) : List (List Edit) :=
  (history.batches.filter (!·.finished)).map Batch.edits

/-- The history when a run of the host has begun. -/
def begun (history : History) (h : Host) : History :=
  { history with active := some h.session.beginRun.2 }

/-- The history after one more step of the host.  A run that came to its end adds what it took. -/
def after (history : History) (h : Host) (step : Step) (reply : Reply) : History :=
  { history with
    recorded := history.recorded ++ step.recorded reply
    batches :=
      if reply.isRun then history.batches ++ [⟨h.session.beginRun.2, true⟩]
      else history.batches }

/-- The history after a run of the host failed.  What its interlude recorded stays. -/
def failed (history : History) (h : Host) (interlude : List Step) : History :=
  { history with
    recorded := history.recorded ++ Step.recordedAll interlude (h.begun.performAll interlude).2
    batches := history.batches ++ [⟨h.session.beginRun.2, false⟩] }

theorem finished_flatten {history : History} (none : history.abandoned = []) :
    history.finished.flatten = history.batches.flatMap Batch.edits := by
  have all : history.batches.filter (·.finished) = history.batches := by
    rw [List.filter_eq_self]
    intro batch member
    by_contra gone
    have listed : batch.edits ∈ history.abandoned :=
      List.mem_map_of_mem (List.mem_filter.2 ⟨member, by simpa using gone⟩)
    rw [none] at listed
    exact List.not_mem_nil listed
  unfold finished
  rw [all, List.flatMap_def]

end History

namespace Host

/-- The interlude of the run that a step begins; none if it begins no run. -/
def interlude? (h : Host) : Step → Option (List Step)
  | .poll time _ interlude => if h.session.isDue time then some interlude else none
  | .refresh _ interlude => if h.session.running then none else some interlude
  | _ => none

/-- On the way through steps the host passes a state: the one before them, one in the interlude of
a run that the first step begins, or one behind the first step.  If that step fails, which gives
up the run that it began, the host goes on with the next one. -/
inductive Passes : Host → History → List Step → Host → History → Prop
  | here {h : Host} {history : History} {steps : List Step} : Passes h history steps h history
  | inside {h h' : Host} {history history' : History} {step : Step}
      {interlude steps : List Step} :
    h.interlude? step = some interlude →
    Passes h.begun (history.begun h) interlude h' history' →
    Passes h history (step :: steps) h' history'
  | later {h h' h'' : Host} {history history'' : History} {step : Step} {steps : List Step}
      {reply : Reply} :
    h.perform step = (h', .ok reply) →
    Passes h' (history.after h step reply) steps h'' history'' →
    Passes h history (step :: steps) h'' history''
  | refused {h h' h'' : Host} {history history'' : History} {step : Step} {steps : List Step}
      {fault : Fault} :
    h.interlude? step = none → h.perform step = (h', .error fault) →
    Passes h' history steps h'' history'' →
    Passes h history (step :: steps) h'' history''
  | abandoned {h h' h'' : Host} {history history'' : History} {step : Step}
      {interlude steps : List Step} {fault : Fault} :
    h.interlude? step = some interlude → h.perform step = (h', .error fault) →
    Passes h' (history.failed h interlude) steps h'' history'' →
    Passes h history (step :: steps) h'' history''

/-! ## What a step records -/

/-- From one state of a host to another only these edits were recorded. -/
structure Recorded (h h' : Host) (records : List (Edit × Nat)) : Prop extends Kept h h' where
  quiet : h'.session.debouncer.quiet = h.session.debouncer.quiet
  edits : h'.session.edits = h.session.edits ++ records.map Prod.fst
  deadline : h'.session.debouncer.deadline =
    (records.getLast?.map (·.2 + h.session.debouncer.quiet)).or h.session.debouncer.deadline

section Recorded

variable {h h' h'' : Host} {records more : List (Edit × Nat)} {step : Step} {steps : List Step}
  {reply : Reply} {fault : Fault} {d : Document}

theorem Recorded.refl (h : Host) : Recorded h h [] :=
  ⟨.refl h, rfl, (List.append_nil _).symm, rfl⟩

theorem Recorded.trans (first : Recorded h h' records) (second : Recorded h' h'' more) :
    Recorded h h'' (records ++ more) where
  toKept := first.toKept.trans second.toKept
  quiet := second.quiet.trans first.quiet
  edits := by rw [second.edits, first.edits, List.map_append, List.append_assoc]
  deadline := by
    rw [second.deadline, first.deadline, first.quiet, List.getLast?_append, Option.map_or,
      Option.or_assoc]

theorem recorded_edit {e : Edit} {time : Nat} (h : Host) :
    Recorded h { h with session := h.session.edit e time } [(e, time)] :=
  ⟨kept_edit h _ e time, rfl, rfl, rfl⟩

theorem recorded_replace {start stop time : Nat} {insert : List Char}
    (done : h.replace start stop insert time = .ok (h', reply)) :
    Recorded h h' ((Step.replace start stop insert time).recorded reply) := by
  unfold replace at done
  by_cases ordered : start ≤ stop
  · rw [Span.ofBounds_of_le ordered] at done
    dsimp only [bind, Except.bind] at done
    split at done
    next =>
      cases next : h.document.nextVersion with
      | error fault =>
        rw [next] at done
        cases done
      | ok version =>
        rw [next] at done
        cases done
        rw [Step.recorded, dif_pos ordered]
        exact ⟨kept_edit h _ _ _, rfl, rfl, rfl⟩
    next =>
      cases done
      exact .refl h
  · unfold Span.ofBounds at done
    rw [dif_neg ordered] at done
    cases done

theorem isRun_of_hover {target : HoverTarget} {now : Document}
    (shown : h.hover target now = .ok reply) : reply.isRun = false := by
  unfold hover at shown
  have previewed : ∀ {preview : Except Fault Preview},
      (preview.bind fun p => .ok (.preview (some p))) = .ok reply → reply.isRun = false := by
    intro preview shown
    cases preview with
    | error fault => cases shown
    | ok p =>
      cases shown
      rfl
  cases target with
  | index i =>
    dsimp only at shown
    split at shown
    next =>
      cases shown
      rfl
    next => exact previewed shown
  | region r =>
    cases r with
    | error fault => cases shown
    | ok r => exact previewed shown

/-- A step begins a run only while none is under way, and then does nothing but that run. -/
theorem of_interlude? {interlude : List Step} (begins : h.interlude? step = some interlude) :
    h.session.running = false ∧
      ∃ d, h.perform step = h.run d (fun h => h.performAll interlude) ∧
        ∀ notice replies,
          step.recorded (.ran notice (some replies)) = Step.recordedAll interlude replies := by
  cases step with
  | poll time document interlude' =>
    rw [interlude?] at begins
    split at begins
    next due =>
      cases begins
      have idle := due
      unfold Session.isDue at idle
      rw [Bool.and_eq_true, Bool.not_eq_true'] at idle
      exact ⟨idle.1, _, by rw [perform, if_pos due], fun _ _ => rfl⟩
    next => cases begins
  | refresh document interlude' =>
    rw [interlude?] at begins
    split at begins
    next => cases begins
    next idle =>
      cases begins
      exact ⟨Bool.not_eq_true _ ▸ idle, _, by rw [perform, if_neg idle], fun _ _ => rfl⟩
  | _ => cases begins

/-- A step that begins no run records edits and does nothing else, or fails and does nothing. -/
theorem of_interlude?_eq_none (begins : h.interlude? step = none) :
    (∃ h' reply, h.perform step = (h', .ok reply) ∧ reply.isRun = false ∧
      Recorded h h' (step.recorded reply)) ∨
      ∃ fault, h.perform step = (h, .error fault) := by
  cases step with
  | replace start stop insert time =>
    cases result : h.replace start stop insert time with
    | error fault => exact Or.inr ⟨fault, by rw [perform, result]⟩
    | ok both =>
      exact Or.inl ⟨_, _, by rw [perform, result], (typed_replace result).1,
        recorded_replace result⟩
  | edit e time =>
    cases e with
    | error fault => exact Or.inr ⟨fault, by rw [perform]⟩
    | ok e => exact Or.inl ⟨_, _, by rw [perform], rfl, recorded_edit h⟩
  | poll time document interlude =>
    rw [interlude?] at begins
    split at begins
    next => cases begins
    next early => exact Or.inl ⟨h, .ran none none, by rw [perform, if_neg early], rfl, .refl h⟩
  | refresh document interlude =>
    rw [interlude?] at begins
    split at begins
    next busy => exact Or.inl ⟨h, .ran none none, by rw [perform, if_pos busy], rfl, .refl h⟩
    next => cases begins
  | outline | regionsInLines _ _ | isRunning | quiet =>
    exact Or.inl ⟨h, _, by rw [perform], rfl, .refl h⟩
  | hover target document =>
    cases shown : h.hover target (document.apply h.document) with
    | error fault => exact Or.inr ⟨fault, by rw [perform, shown]⟩
    | ok reply => exact Or.inl ⟨h, reply, by rw [perform, shown], isRun_of_hover shown, .refl h⟩

theorem recorded_of_perform (begins : h.interlude? step = none)
    (done : h.perform step = (h', .ok reply)) :
    reply.isRun = false ∧ Recorded h h' (step.recorded reply) := by
  rcases of_interlude?_eq_none begins with ⟨_, _, done', told⟩ | ⟨_, failed⟩
  · rw [done'] at done
    cases done
    exact told
  · rw [failed] at done
    cases done

theorem eq_of_failed (begins : h.interlude? step = none)
    (failed : h.perform step = (h', .error fault)) : h' = h := by
  rcases of_interlude?_eq_none begins with ⟨_, _, done, -⟩ | ⟨_, same⟩
  · rw [failed] at done
    cases done
  · rw [failed] at same
    cases same
    rfl

theorem interlude?_of_busy (busy : h.session.running = true) (step : Step) :
    h.interlude? step = none := by
  cases begins : h.interlude? step with
  | none => rfl
  | some interlude =>
    rw [(of_interlude? begins).1] at busy
    cases busy

/-- While a run is under way, steps only record edits. -/
theorem recorded_performAll (busy : h.session.running = true) (steps : List Step) :
    Recorded h (h.performAll steps).1 (Step.recordedAll steps (h.performAll steps).2) := by
  induction steps generalizing h with
  | nil => exact .refl h
  | cons step steps ih =>
    rw [performAll]
    rcases of_interlude?_eq_none (interlude?_of_busy busy step) with
      ⟨h', reply, done, -, recorded⟩ | ⟨fault, failed⟩
    · rw [done]
      exact recorded.trans (ih (recorded.running.trans busy))
    · rw [failed]
      exact .refl h

/-- A run that comes to its end compares the outlines through the edits that it took. -/
theorem compared_of_run (done : h.run d (fun h => h.performAll steps) = (h', .ok reply)) :
    ∃ new changed, h' = (h.begun.performAll steps).1.ended new ∧
      h.session.latest.change new h.session.edits = .ok changed ∧
      reply = .ran (changed.map fun span => ⟨h.session.id, new.version, span⟩)
        (some (h.begun.performAll steps).2) := by
  obtain ⟨new, changed, found, compared, told, ended⟩ :=
    of_run (recorded_performAll rfl steps).toKept done
  rw [← document_of_ofTokens found] at told
  exact ⟨new, changed, ended, compared, told⟩

/-- A run that fails is given up. -/
theorem abandoned_of_run (failed : h.run d (fun h => h.performAll steps) = (h', .error fault)) :
    h' = { (h.begun.performAll steps).1 with
      session := (h.begun.performAll steps).1.session.abandonRun } := by
  rw [run_eq] at failed
  split at failed
  · cases failed
  · cases failed
    rfl

end Recorded

/-! ## What the history tells -/

/-- A trigger is pending as long as edits are, with the deadline of the last edit recorded.  What
the runs took that are over, what the run under way has taken, and the edits pending are in this
order all edits recorded. -/
structure Triggered (settings : Settings) (h : Host) (history : History) : Prop where
  quiet : h.session.debouncer.quiet = settings.quiet.toNanos
  running : h.session.running = history.active.isSome
  unarmed : h.session.edits = [] → h.session.debouncer.deadline = none
  armed : h.session.edits ≠ [] → ∃ last, history.recorded.getLast? = some last ∧
    h.session.debouncer.deadline = some (last.2 + settings.quiet.toNanos)
  kept : history.batches.flatMap Batch.edits ++ history.active.getD [] ++ h.session.edits =
    history.recorded.map Prod.fst

section Triggered

variable {settings : Settings} {h h' : Host} {history history' : History}
  {records : List (Edit × Nat)} {step : Step} {steps interlude : List Step} {reply : Reply}
  {fault : Fault}

theorem triggered_start (id : SessionId) (classify : Document → List Token) (settings : Settings)
    (d : Document) : Triggered settings (start id classify settings d) {} :=
  ⟨rfl, rfl, fun _ => rfl, fun held => absurd rfl held, rfl⟩

theorem Triggered.recorded (triggered : Triggered settings h history)
    (recorded : Recorded h h' records) :
    Triggered settings h' { history with recorded := history.recorded ++ records } := by
  have kept : history.batches.flatMap Batch.edits ++ history.active.getD [] ++ h'.session.edits =
      (history.recorded ++ records).map Prod.fst := by
    rw [recorded.edits, List.map_append, ← triggered.kept]
    simp
  refine ⟨recorded.quiet.trans triggered.quiet, recorded.running.trans triggered.running, ?_, ?_,
    kept⟩
  · intro none
    rw [recorded.edits, List.append_eq_nil_iff, List.map_eq_nil_iff] at none
    rw [recorded.deadline, none.2, triggered.unarmed none.1]
    rfl
  · intro held
    rw [recorded.deadline, triggered.quiet]
    cases last : records.getLast? with
    | none =>
      rw [List.getLast?_eq_none_iff] at last
      rw [recorded.edits, last, List.map_nil, List.append_nil] at held
      obtain ⟨last', found, deadline⟩ := triggered.armed held
      exact ⟨last', by rw [last, List.append_nil]; exact found, deadline⟩
    | some last' =>
      exact ⟨last', by rw [List.getLast?_append, last]; rfl, rfl⟩

theorem Triggered.active_eq_none (triggered : Triggered settings h history)
    (idle : h.session.running = false) : history.active = none := by
  rw [triggered.running] at idle
  exact Option.not_isSome_iff_eq_none.1 (by rw [idle]; exact Bool.false_ne_true)

/-- A run takes all edits, and with them their trigger. -/
theorem Triggered.begun (triggered : Triggered settings h history)
    (idle : h.session.running = false) : Triggered settings h.begun (history.begun h) := by
  refine ⟨triggered.quiet, rfl, fun _ => rfl, fun held => absurd rfl held, ?_⟩
  have kept := triggered.kept
  rw [triggered.active_eq_none idle, Option.getD_none, List.append_nil] at kept
  exact (List.append_nil _).trans kept

/-- What a run has taken stays taken when it is over, whether it ends or is given up. -/
theorem Triggered.over (triggered : Triggered settings h history) {batch : List Edit}
    (taken : history.active = some batch) (finished : Bool) {session : Session}
    (idle : session.running = false) (edits : session.edits = h.session.edits)
    (debouncer : session.debouncer = h.session.debouncer) :
    Triggered settings { h with session }
      { history with batches := history.batches ++ [⟨batch, finished⟩], active := none } := by
  refine ⟨?_, idle, ?_, ?_, ?_⟩
  · rw [debouncer]
    exact triggered.quiet
  · rw [edits, debouncer]
    exact triggered.unarmed
  · rw [edits, debouncer]
    exact triggered.armed
  · rw [edits, ← triggered.kept, taken]
    simp

/-- Behind a run the history tells what it took and what its interlude recorded. -/
theorem Triggered.run (triggered : Triggered settings h history)
    (begins : h.interlude? step = some interlude) (finished : Bool) {session : Session}
    (idle : session.running = false)
    (edits : session.edits = (h.begun.performAll interlude).1.session.edits)
    (debouncer : session.debouncer = (h.begun.performAll interlude).1.session.debouncer) :
    Triggered settings { (h.begun.performAll interlude).1 with session }
      { history with
        recorded :=
          history.recorded ++ Step.recordedAll interlude (h.begun.performAll interlude).2
        batches := history.batches ++ [⟨h.session.beginRun.2, finished⟩] } := by
  have none := triggered.active_eq_none (of_interlude? begins).1
  rw [none]
  exact ((triggered.begun (of_interlude? begins).1).recorded
    (recorded_performAll rfl interlude)).over rfl finished idle edits debouncer

/-- A step that comes to its end leaves a state that the history tells. -/
theorem Triggered.perform (triggered : Triggered settings h history)
    (done : h.perform step = (h', .ok reply)) :
    Triggered settings h' (history.after h step reply) := by
  unfold History.after
  cases begins : h.interlude? step with
  | some interlude =>
    obtain ⟨-, d, ran, told⟩ := of_interlude? begins
    obtain ⟨new, changed, rfl, -, rfl⟩ := compared_of_run (ran.symm.trans done)
    rw [told]
    exact triggered.run begins true rfl rfl rfl
  | none =>
    obtain ⟨notRun, recorded⟩ := recorded_of_perform begins done
    rw [notRun]
    exact triggered.recorded recorded

/-- A run that fails leaves a state that the history tells. -/
theorem Triggered.failed (triggered : Triggered settings h history)
    (begins : h.interlude? step = some interlude) (failed : h.perform step = (h', .error fault)) :
    Triggered settings h' (history.failed h interlude) := by
  obtain ⟨-, d, ran, -⟩ := of_interlude? begins
  rw [abandoned_of_run (ran.symm.trans failed)]
  exact triggered.run begins false rfl rfl rfl

theorem Passes.triggered (passes : Passes h history steps h' history')
    (triggered : Triggered settings h history) : Triggered settings h' history' := by
  induction passes with
  | here => exact triggered
  | inside begins _ ih => exact ih (triggered.begun (of_interlude? begins).1)
  | later done _ ih => exact ih (triggered.perform done)
  | refused begins failed _ ih =>
    obtain rfl := eq_of_failed begins failed
    exact ih triggered
  | abandoned begins failed _ ih => exact ih (triggered.failed begins failed)

/-- A poll performs a run exactly if the session is due. -/
theorem poll_runs_iff {time : Nat} {document : Override} {interlude : List Step} :
    (h.perform (.poll time document interlude)).2 ≠ .ok (.ran none none) ↔
      h.session.isDue time = true := by
  rw [perform]
  split
  next due =>
    refine ⟨fun _ => due, fun _ => ?_⟩
    rw [run_eq]
    split
    · intro same
      cases same
    · intro same
      cases same
  next early => exact ⟨fun ran => absurd rfl ran, fun due => absurd due early⟩

/-- The session is due if no run is under way and the quiet period after the last edit is over. -/
theorem Triggered.isDue_iff (triggered : Triggered settings h history) {now : Nat} :
    h.session.isDue now = true ↔
      h.session.running = false ∧ h.session.edits ≠ [] ∧
        ∃ last, history.recorded.getLast? = some last ∧
          last.2 + settings.quiet.toNanos ≤ now := by
  unfold Session.isDue Debouncer.isDue
  rw [Bool.and_eq_true, Bool.not_eq_true']
  refine and_congr_right fun _ => ?_
  by_cases pending : h.session.edits = []
  · rw [triggered.unarmed pending]
    exact ⟨fun due => (nomatch due), fun ⟨held, _⟩ => absurd pending held⟩
  · obtain ⟨last, found, deadline⟩ := triggered.armed pending
    rw [deadline, Option.any_some, decide_eq_true_eq, found]
    constructor
    · exact fun due => ⟨pending, last, rfl, due⟩
    · rintro ⟨-, last', same, due⟩
      cases same
      exact due

/-- The batch that a finished run adds to the history is what it compared the outlines through. -/
theorem compared_of_perform {notice : Option Notice} {replies : Replies} (history : History)
    (done : h.perform step = (h', .ok (.ran notice (some replies)))) :
    ∃ batch changed,
      (history.after h step (.ran notice (some replies))).batches =
        history.batches ++ [⟨batch, true⟩] ∧
      h.session.latest.change h'.session.latest batch = .ok changed ∧
      notice = changed.map fun span => ⟨h.session.id, h'.session.latest.version, span⟩ := by
  cases begins : h.interlude? step with
  | some interlude =>
    obtain ⟨-, d, ran, -⟩ := of_interlude? begins
    obtain ⟨new, changed, rfl, compared, told⟩ := compared_of_run (ran.symm.trans done)
    cases told
    exact ⟨_, changed, rfl, compared, rfl⟩
  | none =>
    have notRun := (recorded_of_perform begins done).1
    cases notRun

theorem abandoned_after (history : History) (h : Host) (step : Step) (reply : Reply) :
    (history.after h step reply).abandoned = history.abandoned := by
  unfold History.after History.abandoned
  split
  · simp
  · rfl

/-- The state after all steps, or after the first that fails, is passed. -/
theorem passes_performAll (h : Host) (history : History) (steps : List Step) :
    ∃ history', Passes h history steps (h.performAll steps).1 history' ∧
      history'.active = history.active ∧
      ((∀ reply ∈ (h.performAll steps).2, reply.isOk = true) →
        history'.abandoned = history.abandoned ∧
        history'.recorded =
          history.recorded ++ Step.recordedAll steps (h.performAll steps).2) := by
  induction steps generalizing h history with
  | nil => exact ⟨history, .here, rfl, fun _ => ⟨rfl, (List.append_nil _).symm⟩⟩
  | cons step steps ih =>
    rw [performAll]
    cases done : h.perform step with
    | mk h' result =>
      cases result with
      | error fault =>
        have failed : ¬ ∀ reply ∈ [(.error fault : Except Fault Reply)], reply.isOk = true :=
          fun fine => Bool.false_ne_true (fine _ List.mem_cons_self)
        cases begins : h.interlude? step with
        | none =>
          exact ⟨history, .refused begins done .here, rfl, fun fine => absurd fine failed⟩
        | some interlude =>
          exact ⟨_, .abandoned begins done .here, rfl, fun fine => absurd fine failed⟩
      | ok reply =>
        obtain ⟨history', passes, active, told⟩ := ih h' (history.after h step reply)
        refine ⟨history', .later done passes, active, fun fine => ?_⟩
        obtain ⟨abandoned, recorded⟩ :=
          told fun reply member => fine reply (List.mem_cons_of_mem _ member)
        refine ⟨abandoned.trans (abandoned_after history h step reply), ?_⟩
        rw [recorded]
        exact List.append_assoc _ _ _

end Triggered

end Host

/-- Whatever steps a host performs, also while a run is under way, and at whatever times: in every
state it passes a trigger is pending exactly if edits are, and is due a quiet period after the
last edit that was recorded.  A poll performs a run exactly if none is under way, edits are
pending and that time has come.  What the runs took that are over, what the run under way has
taken, and the edits pending are all edits recorded, in their order; so only a run that fails
loses edits.  A run that comes to its end compares the outlines through the batch that it took.
The state after all steps, or after the first that fails, is passed too. -/
theorem edits_await_one_run (id : SessionId) (classify : Document → List Token)
    (settings : Settings) (d : Document) (steps : List Step) :
    let host := Host.start id classify settings d
    (∀ h history, host.Passes {} steps h history →
      let s := h.session
      (s.debouncer.isPending = true ↔ s.edits ≠ []) ∧
      (s.edits ≠ [] → ∃ last, history.recorded.getLast? = some last ∧
        s.debouncer.deadline = some (last.2 + settings.quiet.toNanos)) ∧
      (∀ time document interlude,
        (h.perform (.poll time document interlude)).2 ≠ .ok (.ran none none) ↔
          s.running = false ∧ s.edits ≠ [] ∧ ∃ last, history.recorded.getLast? = some last ∧
            last.2 + settings.quiet.toNanos ≤ time) ∧
      (s.running = true ↔ ∃ batch, history.active = some batch) ∧
      history.batches.flatMap Batch.edits ++ history.active.getD [] ++ s.edits =
        history.recorded.map Prod.fst ∧
      (history.abandoned = [] →
        history.finished.flatten ++ history.active.getD [] ++ s.edits =
          history.recorded.map Prod.fst) ∧
      ∀ step h' notice replies, h.perform step = (h', .ok (.ran notice (some replies))) →
        ∃ batch changed,
          (history.after h step (.ran notice (some replies))).batches =
            history.batches ++ [⟨batch, true⟩] ∧
          s.latest.change h'.session.latest batch = .ok changed ∧
          notice = changed.map fun span => ⟨s.id, h'.session.latest.version, span⟩) ∧
    ∃ history, host.Passes {} steps (host.performAll steps).1 history ∧ history.active = none ∧
      ((∀ reply ∈ (host.performAll steps).2, reply.isOk = true) →
        history.abandoned = [] ∧
        history.recorded = Step.recordedAll steps (host.performAll steps).2) := by
  intro host
  constructor
  · intro h history passes s
    have triggered := passes.triggered (Host.triggered_start id classify settings d)
    refine ⟨?_, triggered.armed, ?_, ?_, triggered.kept, ?_, ?_⟩
    · unfold Debouncer.isPending
      constructor
      · intro pending none
        rw [triggered.unarmed none] at pending
        cases pending
      · intro held
        obtain ⟨last, -, deadline⟩ := triggered.armed held
        rw [deadline]
        rfl
    · intro time document interlude
      exact Host.poll_runs_iff.trans triggered.isDue_iff
    · rw [triggered.running, Option.isSome_iff_exists]
    · intro none
      rw [History.finished_flatten none]
      exact triggered.kept
    · intro step h' notice replies done
      exact Host.compared_of_perform history done
  · obtain ⟨history, passes, active, told⟩ := host.passes_performAll {} steps
    exact ⟨history, passes, active, told⟩

/-- A run fails because an edit that it took is too long to move the outline, and what its
interlude recorded stays.  The next run has taken that when an edit is recorded inside it: this
one waits for its own quiet period, and a poll in the interlude finds the run under way. -/
theorem edits_await_one_run_interlude :
    let d := Document.ofText 0 "f\n\x7b\n\x7d".toList
    let host := Host.start 4 (fun d => classify d.text) {} d
    let huge := Edit.insertion 0 limit32
    let first := Edit.insertion 0 1
    let second := Edit.insertion 0 2
    let steps : List Step :=
      [.refresh {} [], .edit (.ok huge) 3, .refresh {} [.edit (.ok first) 7],
        .refresh {} [.edit (.ok second) 5, .poll 9000000000 {} []]]
    ∃ h history, host.Passes {} steps h history ∧
      history.recorded = [(huge, 3), (first, 7), (second, 5)] ∧
      history.finished = [[]] ∧ history.abandoned = [[huge]] ∧ history.active = some [first] ∧
      h.session.edits = [second] ∧ h.session.debouncer.deadline = some 2500000005 ∧
      (h.perform (.poll 9000000000 {} [])).2 = .ok (.ran none none) := by
  intro d host huge first second steps
  let shown := (host.perform (.refresh {} [])).1
  let recorded := (shown.perform (.edit (.ok huge) 3)).1
  let behind := (recorded.perform (.refresh {} [.edit (.ok first) 7])).1
  let h := (behind.begun.perform (.edit (.ok second) 5)).1
  let history : History := ⟨[(huge, 3), (first, 7), (second, 5)], [⟨[], true⟩, ⟨[huge], false⟩],
    some [first]⟩
  have begins : ∀ {h : Host} {interlude : List Step}, h.session.running = false →
      h.interlude? (.refresh {} interlude) = some interlude :=
    fun idle => if_neg (by rw [idle]; decide)
  have ran : ∃ notice, host.perform (.refresh {} []) = (shown, .ok (.ran notice (some []))) := by
    have fine : (host.perform (.refresh {} [])).2.isOk = true := by decide +kernel
    cases result : (host.perform (.refresh {} [])).2 with
    | error fault =>
      rw [result] at fine
      cases fine
    | ok reply =>
      have done : host.perform (.refresh {} []) = (shown, .ok reply) := Prod.ext rfl result
      obtain ⟨-, d', same, -⟩ := Host.of_interlude? (begins (h := host) rfl)
      obtain ⟨new, changed, -, -, rfl⟩ := Host.compared_of_run (same.symm.trans done)
      exact ⟨_, done⟩
  have failed : ∃ fault, recorded.perform (.refresh {} [.edit (.ok first) 7]) =
      (behind, .error fault) := by
    have fails : (recorded.perform (.refresh {} [.edit (.ok first) 7])).2.isOk = false := by
      decide +kernel
    cases result : (recorded.perform (.refresh {} [.edit (.ok first) 7])).2 with
    | error fault => exact ⟨fault, Prod.ext rfl result⟩
    | ok reply =>
      rw [result] at fails
      cases fails
  have taken : recorded.session.running = false ∧ recorded.session.edits = [huge] := by
    decide +kernel
  have left : behind.session.running = false ∧ behind.session.edits = [first] := by
    decide +kernel
  have passes : host.Passes {} steps h history := by
    obtain ⟨notice, ran⟩ := ran
    obtain ⟨fault, failed⟩ := failed
    have typed : shown.perform (.edit (.ok huge) 3) = (recorded, .ok .edited) := rfl
    refine .later ran (.later typed (.abandoned (begins taken.1) failed
      (.inside (begins left.1) ?_)))
    unfold History.begun History.failed Session.beginRun
    rw [taken.2, left.2]
    exact .later rfl .here
  obtain ⟨-, armed, polls, -, -⟩ := (edits_await_one_run 4 _ {} d steps).1 h history passes
  have pending : h.session.edits = [second] := rfl
  obtain ⟨last, found, deadline⟩ := armed (by rw [pending]; simp)
  cases found
  have sum : 5 + ({} : Settings).quiet.toNanos = 2500000005 := by decide +kernel
  refine ⟨h, history, passes, rfl, rfl, rfl, rfl, pending, deadline.trans (congrArg some sum), ?_⟩
  by_contra ran
  have idle : h.session.running = false := ((polls 9000000000 {} []).1 ran).1
  cases idle

end CodeFolding
