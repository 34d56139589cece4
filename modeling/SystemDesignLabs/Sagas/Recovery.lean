import SystemDesignLabs.Sagas.Orchestrator

/-!
# Recovery of a saga

As long as no step has failed, the completed steps are the first ones of the saga and the log records
nothing else about its direction, so that a recovery goes on where the run stopped. Once a `StepFailed`
event is in the log a recovery must not execute any more, but nothing reads the failed step back: it
executes the failed step again. So recovery is all or nothing exactly in the runs that do not crash after
a failure (`NoCrashAfterFailure`).
-/

namespace SystemDesignLabs.Sagas

open List Option Core

/-- The log has an event of this kind for this step of the saga. -/
def Logged (sagaID : String) (log : List SagaEvent) (kind : EventKind) (name : String) : Prop :=
  ∃ e ∈ log, e.sagaID = sagaID ∧ e.kind = kind ∧ e.stepName = name

/-- How a saga ends, by the events `L` of its log: every step is completed and none compensated, or every
completed step is compensated, or its compensation was tried and failed. -/
def Final (saga : Saga) (L : EventKind → String → Prop) (result : SagaResult) : Prop :=
  (result.status = .completed ∧ (∀ step ∈ saga.steps, L .stepCompleted step.name) ∧
    ∀ name, ¬ L .compensationStarted name ∧ ¬ L .compensationCompleted name ∧ ¬ L .compensationFailed name) ∨
  (result.status = .compensated ∧ ∀ name, L .stepCompleted name →
    L .compensationCompleted name ∨ L .compensationFailed name)

/-- Recovery is all or nothing: nothing is executed after a failure, nothing is compensated twice, and a
run that returns has ended the saga one way or the other. -/
structure AllOrNothing (sagaID : String) (saga : Saga) (w : World) : Prop where
  noLaterExecute : ∀ step rest r, w.phase = .execute step rest r →
    ∀ name, ¬ Logged sagaID w.log .stepFailed name
  neverTwice : ∀ cs todo r failure, w.phase = .compensate cs todo r failure →
    ¬ Logged sagaID w.log .compensationCompleted cs.name
  final : ∀ result, w.phase = .returned result → Final saga (Logged sagaID w.log) result

/-- The condition on a step: the process does not crash once a failure of the saga is in the log. -/
def NoCrashAfterFailure (sagaID : String) (w : World) : Op → Prop
  | .crash => ∀ e ∈ w.log, e.sagaID = sagaID → e.kind ≠ .stepFailed
  | _ => True

instance (sagaID : String) (w : World) (op : Op) : Decidable (NoCrashAfterFailure sagaID w op) := by
  cases op <;> unfold NoCrashAfterFailure <;> infer_instance

/-! ## The log -/

section Log

variable {sagaID : String} {log : List SagaEvent} {kind : EventKind} {name : String}

theorem logged_append {e : SagaEvent} : Logged sagaID (log ++ [e]) kind name ↔
    Logged sagaID log kind name ∨ (e.sagaID = sagaID ∧ e.kind = kind ∧ e.stepName = name) := by
  constructor
  · rintro ⟨e', he', hfacts⟩
    rcases mem_append.1 he' with h | h
    · exact .inl ⟨e', h, hfacts⟩
    · exact .inr (mem_singleton.1 h ▸ hfacts)
  · rintro (⟨e', he', hfacts⟩ | hfacts)
    · exact ⟨e', mem_append_left _ he', hfacts⟩
    · exact ⟨e, mem_append_right _ (mem_singleton.2 rfl), hfacts⟩

theorem logged_other {e : SagaEvent} (he : e.sagaID ≠ sagaID) :
    Logged sagaID (log ++ [e]) kind name ↔ Logged sagaID log kind name := by
  rw [logged_append]
  exact or_iff_left fun h => he h.1

theorem mem_replayLog :
    (name ∈ (replayLog (eventsFor log sagaID)).completedSteps ↔ Logged sagaID log .stepCompleted name) ∧
      (name ∈ (replayLog (eventsFor log sagaID)).compensatedSteps ↔ Logged sagaID log .compensationCompleted name) := by
  induction log using reverseRecOn with
  | nil => exact ⟨iff_of_false (fun h => nomatch h) (fun ⟨_, h, _⟩ => nomatch h),
      iff_of_false (fun h => nomatch h) (fun ⟨_, h, _⟩ => nomatch h)⟩
  | append_singleton log e ih =>
    rw [logged_append, logged_append, ← ih.1, ← ih.2]
    by_cases he : e.sagaID = sagaID
    · have hevents : eventsFor (log ++ [e]) sagaID = eventsFor log sagaID ++ [e] := by
        rw [eventsFor, filter_append, filter_singleton, decide_eq_true he]
        rfl
      rw [hevents, replayLog, foldl_append, ← replayLog, foldl_cons, foldl_nil]
      cases hkind : e.kind <;> simp [he, or_comm, eq_comm]
    · have hevents : eventsFor (log ++ [e]) sagaID = eventsFor log sagaID := by
        rw [eventsFor, filter_append, filter_singleton, decide_eq_false he]
        exact append_nil _
      rw [hevents]
      simp [he]

end Log

/-! ## The loops -/

theorem forward_cases {pre rest : List Step} {r : Running}
    (hpre : ∀ s ∈ pre, s.name ∈ r.state.completedSteps) (hrest : ∀ s ∈ rest, s.name ∉ r.state.completedSteps) :
    (rest = [] ∧ ∃ log, forward (pre ++ rest) r = .returned ⟨.completed, "", none, log⟩) ∨
      ∃ step rest' r', rest = step :: rest' ∧ forward (pre ++ rest) r = .appendStarted step rest' r' ∧
        r'.completed = r.completed ++ pre ∧ r'.state = r.state := by
  induction pre generalizing r with
  | nil =>
    cases rest with
    | nil => exact .inl ⟨rfl, _, rfl⟩
    | cons step rest' =>
      refine .inr ⟨step, rest', r, rfl, ?_, (append_nil _).symm, rfl⟩
      rw [nil_append, forward, if_neg (hrest step mem_cons_self)]
  | cons s pre ih =>
    obtain ⟨hs, hpre⟩ := forall_mem_cons.1 hpre
    have hnext := ih (r := { r.logEntry s.name "execute" "skipped (already completed)" none with
      completed := r.completed ++ [s] }) hpre hrest
    have hstep : forward (s :: pre ++ rest) r =
        forward (pre ++ rest) { r.logEntry s.name "execute" "skipped (already completed)" none with
          completed := r.completed ++ [s] } := by
      rw [cons_append, forward, if_pos hs]
      rfl
    rw [hstep]
    rcases hnext with h | ⟨step, rest', r', h1, h2, h3, h4⟩
    · exact .inl h
    · exact .inr ⟨step, rest', r', h1, h2, by rw [h3, append_assoc]; rfl, h4⟩

theorem backward_cons {failure : Failure} {cs : Step} {todo : List Step} {r : Running}
    (h : r.state.compensatedSteps = []) : backward failure (cs :: todo) r = .appendCompensation cs todo r failure := by
  rw [backward, if_neg]
  rw [h]
  exact not_mem_nil

/-! ## The invariant -/

/-- The completed steps of the log are these. -/
def CompletedAre (L : EventKind → String → Prop) (steps : List Step) : Prop :=
  ∀ name, L .stepCompleted name ↔ name ∈ steps.map Step.name

/-- No step has failed, and nothing was compensated. -/
def Undecided (L : EventKind → String → Prop) : Prop :=
  ∀ name, ¬ L .stepFailed name ∧ ¬ L .compensationStarted name ∧ ¬ L .compensationCompleted name ∧
    ¬ L .compensationFailed name

/-- Before or in the current step: the steps before it are the completed ones. -/
structure Forward (saga : Saga) (L : EventKind → String → Prop) (step : Step) (rest : List Step)
    (r : Running) : Prop where
  undecided : Undecided L
  split : saga.steps = r.completed ++ step :: rest
  completed : CompletedAre L r.completed
  fresh : ∀ s ∈ step :: rest, s.name ∉ r.state.completedSteps
  none_compensated : r.state.compensatedSteps = []

/-- In the reverse loop: the compensation of the steps `done` was tried, that of the steps `todo` was
not completed. -/
structure Backward (saga : Saga) (L : EventKind → String → Prop) (done todo : List Step) (r : Running) :
    Prop where
  failed : ∃ name, L .stepFailed name
  next : ∃ step rest, saga.steps = r.completed ++ step :: rest
  split : r.completed.reverse = done ++ todo
  completed : CompletedAre L r.completed
  nodup : (r.completed.map Step.name).Nodup
  tried : ∀ s ∈ done, L .compensationCompleted s.name ∨ L .compensationFailed s.name
  untouched : ∀ s ∈ todo, ¬ L .compensationCompleted s.name
  none_compensated : r.state.compensatedSteps = []

/-- What holds wherever the process stops. -/
def Inv (saga : Saga) (L : EventKind → String → Prop) : Phase → Prop
  | .idle => Undecided L ∧ ∃ pre rest, saga.steps = pre ++ rest ∧ CompletedAre L pre
  | .appendStarted step rest r => Forward saga L step rest r
  | .execute step rest r => Forward saga L step rest r
  | .appendOutcome step rest r _ => Forward saga L step rest r
  | .appendCompensation cs todo r _ => ∃ done, Backward saga L done (cs :: todo) r
  | .compensate cs todo r _ => ∃ done, Backward saga L done (cs :: todo) r
  | .appendCompensated cs todo r _ _ => ∃ done, Backward saga L done (cs :: todo) r
  | .returned result => Final saga L result

section Steps

variable {sagaID : String} {saga : Saga} {log : List SagaEvent} {step : Step} {rest : List Step}
  {r : Running}

variable {L : EventKind → String → Prop}

theorem inv_forward (pre : List Step) (hund : Undecided L)
    (hsplit : saga.steps = r.completed ++ (pre ++ rest)) (hcompleted : CompletedAre L (r.completed ++ pre))
    (hpre : ∀ s ∈ pre, s.name ∈ r.state.completedSteps) (hrest : ∀ s ∈ rest, s.name ∉ r.state.completedSteps)
    (hnone : r.state.compensatedSteps = []) : Inv saga L (forward (pre ++ rest) r) := by
  rcases forward_cases hpre hrest with ⟨rfl, execLog, hret⟩ | ⟨step, rest', r', rfl, hstop, hcomp, hstate⟩
  · rw [hret]
    refine .inl ⟨rfl, fun s hs => ?_, fun name => (hund name).2⟩
    rw [hsplit, append_nil] at hs
    exact (hcompleted _).2 (mem_map_of_mem hs)
  · rw [hstop]
    refine ⟨hund, ?_, ?_, ?_, ?_⟩
    · rw [hsplit, hcomp, append_assoc]
    · rw [hcomp]
      exact hcompleted
    · rw [hstate]
      exact hrest
    · rw [hstate]
      exact hnone

theorem inv_backward (done : List Step) {todo : List Step} {failure : Failure}
    (h : Backward saga L done todo r) : Inv saga L (backward failure todo r) := by
  cases todo with
  | nil =>
    refine .inr ⟨rfl, fun name hname => ?_⟩
    obtain ⟨s, hs, rfl⟩ := mem_map.1 ((h.completed name).1 hname)
    have hdone : s ∈ done := by
      rw [← append_nil done, ← h.split]
      exact mem_reverse.2 hs
    exact h.tried s hdone
  | cons cs todo =>
    rw [backward_cons h.none_compensated]
    exact ⟨done, h⟩

theorem inv_run (hnames : (saga.steps.map Step.name).Nodup)
    (h : Inv saga (Logged sagaID log) .idle) : Inv saga (Logged sagaID log) (run saga log sagaID) := by
  obtain ⟨hund, pre, rest, hsplit, hcompleted⟩ := h
  have hmem : ∀ name, name ∈ (replayLog (eventsFor log sagaID)).completedSteps ↔ name ∈ pre.map Step.name :=
    fun name => mem_replayLog.1.trans (hcompleted name)
  rw [run, hsplit]
  refine inv_forward pre hund hsplit hcompleted ?_ ?_ ?_
  · exact fun s hs => (hmem _).2 (mem_map_of_mem hs)
  · intro s hs hin
    rw [hsplit, map_append, nodup_append] at hnames
    exact hnames.2.2 _ ((hmem _).1 hin) _ (mem_map_of_mem hs) rfl
  · refine eq_nil_iff_forall_not_mem.2 fun name hname => ?_
    exact (hund name).2.2.1 (mem_replayLog.2.1 hname)

section

variable (h : Forward saga (Logged sagaID log) step rest r)
include h

theorem Forward.append {e : SagaEvent}
    (he : e.kind = .stepStarted) {r' : Running} (hcomp : r'.completed = r.completed)
    (hstate : r'.state = r.state) : Forward saga (Logged sagaID (log ++ [e])) step rest r' := by
  have hsame : ∀ kind name, kind ≠ .stepStarted →
      (Logged sagaID (log ++ [e]) kind name ↔ Logged sagaID log kind name) := by
    intro kind name hne
    rw [logged_append]
    exact or_iff_left fun hlast => hne (hlast.2.1.symm.trans he)
  refine ⟨fun name => ?_, hcomp ▸ h.split, fun name => ?_, hstate ▸ h.fresh, hstate ▸ h.none_compensated⟩
  · rw [hsame _ _ (by decide), hsame _ _ (by decide), hsame _ _ (by decide), hsame _ _ (by decide)]
    exact h.undecided name
  · rw [hsame _ _ (by decide), hcomp]
    exact h.completed name

theorem inv_completed (r' : Running)
    (hcomp : r'.completed = r.completed ++ [step]) (hstate : r'.state = r.state) (err : String) :
    Inv saga (Logged sagaID (log ++ [⟨sagaID, step.name, .stepCompleted, err⟩])) (forward rest r') := by
  have hfresh : ∀ s ∈ rest, s.name ∉ r'.state.completedSteps :=
    fun s hs => hstate ▸ h.fresh s (mem_cons_of_mem _ hs)
  refine inv_forward [] (fun name => ?_) ?_ (fun name => ?_) (fun _ hs => nomatch hs) hfresh
    (hstate ▸ h.none_compensated)
  · simp only [logged_append, reduceCtorEq, false_and, and_false, or_false]
    exact h.undecided name
  · rw [hcomp, h.split, append_assoc]
    rfl
  · rw [logged_append, h.completed name, hcomp, append_nil, map_append, mem_append]
    simp [eq_comm]

end

theorem inv_failed (hnames : (saga.steps.map Step.name).Nodup)
    (h : Forward saga (Logged sagaID log) step rest r) (r' : Running) (hcomp : r'.completed = r.completed)
    (hstate : r'.state = r.state) (err : String) (failure : Failure) :
    Inv saga (Logged sagaID (log ++ [⟨sagaID, step.name, .stepFailed, err⟩]))
      (backward failure r.completed.reverse r') := by
  refine inv_backward [] ⟨⟨step.name, ?_⟩, ⟨step, rest, hcomp ▸ h.split⟩, ?_, fun name => ?_, ?_, (fun _ hs => nomatch hs), ?_, ?_⟩
  · exact logged_append.2 (.inr ⟨rfl, rfl, rfl⟩)
  · rw [hcomp, nil_append]
  · simp only [logged_append, reduceCtorEq, false_and, and_false, or_false]
    rw [hcomp]
    exact h.completed name
  · rw [hcomp]
    rw [h.split, map_append, nodup_append] at hnames
    exact hnames.1
  · intro s _
    simp only [logged_append, reduceCtorEq, false_and, and_false, or_false]
    exact (h.undecided s.name).2.2.1
  · exact hstate ▸ h.none_compensated

variable {done todo : List Step}

theorem Backward.started {cs : Step} (h : Backward saga (Logged sagaID log) done (cs :: todo) r)
    (r' : Running) (hcomp : r'.completed = r.completed) (hstate : r'.state = r.state) (err : String) :
    Backward saga (Logged sagaID (log ++ [⟨sagaID, cs.name, .compensationStarted, err⟩])) done (cs :: todo) r' := by
  have hsame : ∀ kind name, kind ≠ .compensationStarted →
      (Logged sagaID (log ++ [⟨sagaID, cs.name, .compensationStarted, err⟩]) kind name ↔
        Logged sagaID log kind name) := by
    intro kind name hne
    rw [logged_append]
    exact or_iff_left fun hlast => hne hlast.2.1.symm
  obtain ⟨name, hname⟩ := h.failed
  refine ⟨⟨name, (hsame _ _ (by decide)).2 hname⟩, hcomp ▸ h.next, hcomp ▸ h.split, fun name => ?_, hcomp ▸ h.nodup, ?_, ?_,
    hstate ▸ h.none_compensated⟩
  · rw [hsame _ _ (by decide), hcomp]
    exact h.completed name
  · intro s hs
    rw [hsame _ _ (by decide), hsame _ _ (by decide)]
    exact h.tried s hs
  · intro s hs
    rw [hsame _ _ (by decide)]
    exact h.untouched s hs

theorem inv_compensated {cs : Step} (h : Backward saga (Logged sagaID log) done (cs :: todo) r)
    {kind : EventKind} (hkind : kind = .compensationCompleted ∨ kind = .compensationFailed) (r' : Running)
    (hcomp : r'.completed = r.completed) (hstate : r'.state = r.state) (err : String) (failure : Failure) :
    Inv saga (Logged sagaID (log ++ [⟨sagaID, cs.name, kind, err⟩])) (backward failure todo r') := by
  have hkeep : ∀ k name, Logged sagaID log k name →
      Logged sagaID (log ++ [⟨sagaID, cs.name, kind, err⟩]) k name :=
    fun k name hlog => logged_append.2 (.inl hlog)
  -- a step that is still to be compensated is another one
  have hother : ∀ s ∈ todo, cs.name ≠ s.name := by
    intro s hs heq
    have hnodup := h.nodup
    rw [← nodup_reverse, ← map_reverse, h.split, map_append, nodup_append, map_cons, nodup_cons] at hnodup
    exact hnodup.2.1.1 (heq ▸ mem_map_of_mem hs)
  obtain ⟨name, hname⟩ := h.failed
  refine inv_backward (done ++ [cs]) ⟨⟨name, hkeep _ _ hname⟩, hcomp ▸ h.next, ?_, fun name => ?_,
    hcomp ▸ h.nodup, ?_, ?_, hstate ▸ h.none_compensated⟩
  · rw [hcomp, h.split, append_assoc]
    rfl
  · rw [logged_append, hcomp, ← h.completed name]
    refine or_iff_left ?_
    rintro ⟨-, rfl, -⟩
    exact hkind.elim (fun hk => nomatch hk) fun hk => nomatch hk
  · intro s hs
    rcases mem_append.1 hs with hd | hd
    · exact (h.tried s hd).imp (hkeep _ _) (hkeep _ _)
    · obtain rfl := mem_singleton.1 hd
      rcases hkind with rfl | rfl
      · exact .inl (logged_append.2 (.inr ⟨rfl, rfl, rfl⟩))
      · exact .inr (logged_append.2 (.inr ⟨rfl, rfl, rfl⟩))
  · intro s hs hlog
    rcases logged_append.1 hlog with hold | ⟨-, -, heq⟩
    · exact h.untouched s (mem_cons_of_mem _ hs) hold
    · exact hother s hs heq

/-- One step that meets the condition keeps the invariant. -/
theorem inv_step (hnames : (saga.steps.map Step.name).Nodup) {w w' : World} {op : Op}
    (h : Inv saga (Logged sagaID w.log) w.phase) (hok : NoCrashAfterFailure sagaID w op)
    (hs : World.step sagaID saga w op = some w') : Inv saga (Logged sagaID w'.log) w'.phase := by
  obtain ⟨log, phase⟩ := w
  cases op with
  | call =>
    cases phase with
    | idle =>
      obtain rfl := some.inj hs
      exact inv_run hnames h
    | _ => exact nomatch hs
  | append =>
    cases phase with
    | appendStarted step rest r =>
      obtain rfl := some.inj hs
      exact Forward.append h rfl rfl rfl
    | appendOutcome step rest r err =>
      cases err with
      | none =>
        obtain rfl := some.inj hs
        refine inv_completed h _ ?_ ?_ _
        · rfl
        · rfl
      | some err =>
        obtain rfl := some.inj hs
        refine inv_failed hnames h _ ?_ ?_ _ _
        · rfl
        · rfl
    | appendCompensation cs todo r failure =>
      obtain rfl := some.inj hs
      obtain ⟨done, h⟩ := h
      refine ⟨done, h.started _ ?_ ?_ _⟩
      · rfl
      · rfl
    | appendCompensated cs todo r failure err =>
      obtain ⟨done, h⟩ := h
      cases err with
      | none =>
        obtain rfl := some.inj hs
        refine inv_compensated h (.inl rfl) _ ?_ ?_ _ _
        · rfl
        · rfl
      | some err =>
        obtain rfl := some.inj hs
        refine inv_compensated h (.inr rfl) _ ?_ ?_ _ _
        · rfl
        · rfl
    | _ => exact nomatch hs
  | execute err =>
    cases phase with
    | execute step rest r =>
      obtain rfl := some.inj hs
      exact h
    | _ => exact nomatch hs
  | compensate err =>
    cases phase with
    | compensate cs todo r failure =>
      obtain rfl := some.inj hs
      exact h
    | _ => exact nomatch hs
  | crash =>
    -- after a failure the condition excludes the crash, before it the completed steps come first
    have hforward : ∀ step rest r, Forward saga (Logged sagaID log) step rest r →
        Inv saga (Logged sagaID log) .idle :=
      fun step rest r hf => ⟨hf.undecided, r.completed, step :: rest, hf.split, hf.completed⟩
    have hbackward : ∀ done todo r, Backward saga (Logged sagaID log) done todo r → False := by
      intro done todo r hb
      obtain ⟨name, e, he, hid, hkind, -⟩ := hb.failed
      exact hok e he hid hkind
    cases phase with
    | idle => exact nomatch hs
    | returned result => exact nomatch hs
    | appendStarted step rest r =>
      obtain rfl := some.inj hs
      exact hforward step rest r h
    | execute step rest r =>
      obtain rfl := some.inj hs
      exact hforward step rest r h
    | appendOutcome step rest r err =>
      obtain rfl := some.inj hs
      exact hforward step rest r h
    | appendCompensation cs todo r failure =>
      obtain ⟨done, h⟩ := h
      exact (hbackward done _ r h).elim
    | compensate cs todo r failure =>
      obtain ⟨done, h⟩ := h
      exact (hbackward done _ r h).elim
    | appendCompensated cs todo r failure err =>
      obtain ⟨done, h⟩ := h
      exact (hbackward done _ r h).elim
  | other e =>
    rw [World.step] at hs
    split at hs
    · exact nomatch hs
    · rename_i he
      obtain rfl := some.inj hs
      have hsame : Logged sagaID (log ++ [e]) = Logged sagaID log :=
        funext fun kind => funext fun name => propext (logged_other he)
      show Inv saga (Logged sagaID (log ++ [e])) phase
      rw [hsame]
      exact h

theorem recovery_executes (hnames : (saga.steps.map Step.name).Nodup)
    (h : Backward saga (Logged sagaID log) done todo r) :
    ∃ w', exec (World.step sagaID saga) ⟨log, .idle⟩ [.call, .append] = some w' ∧ ¬ AllOrNothing sagaID saga w' := by
  obtain ⟨step, rest, hsplit⟩ := h.next
  obtain ⟨name, hname⟩ := h.failed
  have hmem : ∀ name, name ∈ (replayLog (eventsFor log sagaID)).completedSteps ↔
      name ∈ r.completed.map Step.name := fun name => mem_replayLog.1.trans (h.completed name)
  -- the failed step is the first one that is not completed
  have hstop : ∃ rest' r', run saga log sagaID = .appendStarted step rest' r' := by
    rw [run, hsplit]
    have hpre : ∀ s ∈ r.completed,
        s.name ∈ (Running.mk (replayLog (eventsFor log sagaID)) [] []).state.completedSteps :=
      fun s hs => (hmem _).2 (mem_map_of_mem hs)
    have hrest : ∀ s ∈ step :: rest,
        s.name ∉ (Running.mk (replayLog (eventsFor log sagaID)) [] []).state.completedSteps := by
      intro s hs hin
      rw [hsplit, map_append, nodup_append] at hnames
      exact hnames.2.2 _ ((hmem _).1 hin) _ (mem_map_of_mem hs) rfl
    rcases forward_cases hpre hrest with ⟨hnil, -⟩ | ⟨step', rest', r', hcons, hphase, -, -⟩
    · exact nomatch hnil
    · obtain ⟨rfl, -⟩ := cons.inj hcons
      exact ⟨rest', r', hphase⟩
  obtain ⟨rest', r', hphase⟩ := hstop
  have hcall : World.step sagaID saga ⟨log, .idle⟩ .call = some ⟨log, .appendStarted step rest' r'⟩ := by
    rw [← hphase]
    rfl
  refine ⟨World.appendEvt ⟨log, .appendStarted step rest' r'⟩ sagaID step .stepStarted none
    (.execute step rest' (r'.logEntry step.name "execute" "started" none)), ?_, fun hall => ?_⟩
  · rw [exec, hcall]
    rfl
  · exact hall.noLaterExecute step rest' _ rfl name (logged_append.2 (.inl hname))

theorem allOrNothing_of_inv {w : World} (h : Inv saga (Logged sagaID w.log) w.phase) : AllOrNothing sagaID saga w where
  noLaterExecute step rest r hphase name := by
    rw [hphase] at h
    exact (Forward.undecided h name).1
  neverTwice cs todo r failure hphase := by
    rw [hphase] at h
    obtain ⟨done, h⟩ := h
    exact h.untouched cs mem_cons_self
  final result hphase := by
    rw [hphase] at h
    exact h

theorem crash_backward {w w' : World} (h : Inv saga (Logged sagaID w.log) w.phase)
    (hs : World.step sagaID saga w .crash = some w') (hbad : ¬ NoCrashAfterFailure sagaID w .crash) :
    w' = ⟨w.log, .idle⟩ ∧ ∃ done todo r, Backward saga (Logged sagaID w.log) done todo r := by
  obtain ⟨log, phase⟩ := w
  have hfailed : ∃ name, Logged sagaID log .stepFailed name := by
    by_contra hnone
    exact hbad fun e he hid hkind => hnone ⟨e.stepName, e, he, hid, hkind, rfl⟩
  obtain ⟨name, hname⟩ := hfailed
  have hforward : ∀ step rest r, ¬ Forward saga (Logged sagaID log) step rest r :=
    fun step rest r hf => (hf.undecided name).1 hname
  cases phase with
  | idle => exact nomatch hs
  | returned result => exact nomatch hs
  | appendStarted step rest r => exact (hforward _ _ _ h).elim
  | execute step rest r => exact (hforward _ _ _ h).elim
  | appendOutcome step rest r err => exact (hforward _ _ _ h).elim
  | appendCompensation cs todo r failure =>
    obtain ⟨done, h⟩ := h
    exact ⟨(some.inj hs).symm, done, _, r, h⟩
  | compensate cs todo r failure =>
    obtain ⟨done, h⟩ := h
    exact ⟨(some.inj hs).symm, done, _, r, h⟩
  | appendCompensated cs todo r failure err =>
    obtain ⟨done, h⟩ := h
    exact ⟨(some.inj hs).symm, done, _, r, h⟩

end Steps

/-! ## Every run -/

theorem inv_start (sagaID : String) (saga : Saga) : Inv saga (Logged sagaID World.start.log) World.start.phase := by
  have hnone : ∀ kind name, ¬ Logged sagaID [] kind name := fun _ _ ⟨_, h, _⟩ => nomatch h
  refine ⟨fun name => ⟨hnone _ _, hnone _ _, hnone _ _, hnone _ _⟩, [], saga.steps, rfl, fun name => ?_⟩
  exact iff_of_false (hnone _ _) fun h => nomatch h

/-- **Recovery is all or nothing** in every run that does not crash once a failure is in the log, whatever
the calls return and wherever else the process crashes. A crash after a failure breaks it: the next
recovery goes as far as executing the failed step again. -/
theorem allOrNothing_iff_noCrash (sagaID : String) (saga : Saga) (hnames : (saga.steps.map Step.name).Nodup) :
    ∀ w, ReachableIf (World.step sagaID saga) (NoCrashAfterFailure sagaID) World.start w →
      AllOrNothing sagaID saga w ∧ ∀ w', World.step sagaID saga w .crash = some w' →
        ¬ NoCrashAfterFailure sagaID w .crash →
          ∃ w'', exec (World.step sagaID saga) w' [.call, .append] = some w'' ∧
            ¬ AllOrNothing sagaID saga w'' := by
  intro w hw
  have hinv : Inv saga (Logged sagaID w.log) w.phase :=
    hw.invariant (I := fun w => Inv saga (Logged sagaID w.log) w.phase) (inv_start sagaID saga)
      fun _ _ _ _ h hok hs => inv_step hnames h hok hs
  refine ⟨allOrNothing_of_inv hinv, fun w' hs hbad => ?_⟩
  obtain ⟨rfl, done, todo, r, hback⟩ := crash_backward hinv hs hbad
  exact recovery_executes hnames hback

/-- Two steps for the runs below. -/
def twoSteps : Saga := ⟨[⟨"reserve"⟩, ⟨"charge"⟩]⟩

/-- A crash between an execution and its event, a recovery that executes the step again and goes on, a
failure, and the compensation. -/
theorem allOrNothing_iff_noCrash_run :
    ∃ w, execIf (World.step "saga" twoSteps) (fun w op => decide (NoCrashAfterFailure "saga" w op)) World.start
        [.call, .append, .execute none, .crash, .call, .append, .execute none, .append, .append,
          .execute (some "declined"), .append, .append, .compensate none, .append] = some w ∧
      (∃ result, w.phase = .returned result ∧ result.status = .compensated) ∧
      AllOrNothing "saga" twoSteps w := by
  have hrun : (execIf (World.step "saga" twoSteps) (fun w op => decide (NoCrashAfterFailure "saga" w op))
      World.start [.call, .append, .execute none, .crash, .call, .append, .execute none, .append, .append,
        .execute (some "declined"), .append, .append, .compensate none, .append]).map
      (fun w => match w.phase with
        | .returned result => decide (result.status = .compensated)
        | _ => false) = some true := by rfl
  obtain ⟨w, hs, hfacts⟩ := map_eq_some_iff.1 hrun
  have hw := ReachableIf.init.execIf (fun _ _ => of_decide_eq_true) hs
  have hall := (allOrNothing_iff_noCrash "saga" twoSteps (by decide) w hw).1
  refine ⟨w, hs, ?_, hall⟩
  split at hfacts
  · rename_i result hphase
    exact ⟨result, hphase, of_decide_eq_true hfacts⟩
  · exact absurd hfacts Bool.false_ne_true

theorem run_failed : (exec (World.step "saga" twoSteps) World.start
    [.call, .append, .execute none, .append, .append, .execute (some "declined"), .append, .crash, .call,
      .append]).map
    (fun w => match w.phase with
      | .execute _ _ _ => decide (∃ e ∈ w.log, e.sagaID = "saga" ∧ e.kind = .stepFailed ∧ e.stepName = "charge")
      | _ => false) = some true := by rfl

/-- A crash in the compensation, and a recovery that is about to charge again. -/
theorem failed_step_is_executed_again :
    ¬ ∀ sagaID saga, (saga.steps.map Step.name).Nodup → ∀ w,
      Reachable (World.step sagaID saga) World.start w → AllOrNothing sagaID saga w := by
  intro h
  obtain ⟨w, hs, hfacts⟩ := map_eq_some_iff.1 run_failed
  have hall := h "saga" twoSteps (by decide) w (reachable_of_exec hs)
  split at hfacts
  · rename_i step rest r hphase
    have hlogged : ∃ e ∈ w.log, e.sagaID = "saga" ∧ e.kind = .stepFailed ∧ e.stepName = "charge" :=
      of_decide_eq_true hfacts
    exact hall.noLaterExecute step rest r hphase "charge" hlogged
  · exact absurd hfacts Bool.false_ne_true

end SystemDesignLabs.Sagas
