import SystemDesignLabs.Core.TransitionSystem

/-!
# The saga orchestrator

`SagaOrchestrator.Run` and `Recover` of `labs/saga/pkg/saga/orchestrator.go` over the event log of `log.go`,
as a machine that stops before every append to the log and before every call of `Execute` and `Compensate`.
What these calls return is open. The process can crash wherever the machine stops; the log survives. Other
sagas append to the same log at any time. Timestamps are left out, and the error of a result is kept as
the name of the failed step and the text of its cause.
-/

namespace SystemDesignLabs.Sagas

open Core

inductive EventKind where
  | stepStarted
  | stepCompleted
  | stepFailed
  | compensationStarted
  | compensationCompleted
  | compensationFailed
  deriving DecidableEq

structure SagaEvent where
  sagaID : String
  stepName : String
  kind : EventKind
  errString : String
  deriving DecidableEq

structure SagaRecoveryState where
  completedSteps : List String
  failedStep : String
  compensatedSteps : List String
  isComplete : Bool
  deriving DecidableEq

def replayLog (events : List SagaEvent) : SagaRecoveryState :=
  events.foldl
    (fun state e =>
      match e.kind with
      | .stepCompleted => { state with completedSteps := e.stepName :: state.completedSteps }
      | .stepFailed => { state with failedStep := e.stepName }
      | .compensationCompleted => { state with compensatedSteps := e.stepName :: state.compensatedSteps }
      | _ => state)
    ⟨[], "", [], false⟩

def eventsFor (log : List SagaEvent) (sagaID : String) : List SagaEvent :=
  log.filter fun e => decide (e.sagaID = sagaID)

/-- `Step`, by its name: what `Execute` and `Compensate` return is open. -/
structure Step where
  name : String
  deriving DecidableEq

structure Saga where
  steps : List Step

structure ExecutionLogEntry where
  stepName : String
  phase : String
  status : String
  err : Option String
  deriving DecidableEq

/-- `StatusCompleted` and `StatusCompensated`. -/
inductive SagaStatus where
  | completed
  | compensated
  deriving DecidableEq

structure SagaResult where
  status : SagaStatus
  failedStep : String
  error : Option (String × String)
  log : List ExecutionLogEntry
  deriving DecidableEq

/-! ## One run -/

/-- The variables of `Run`. -/
structure Running where
  state : SagaRecoveryState
  completed : List Step
  execLog : List ExecutionLogEntry
  deriving DecidableEq

def Running.logEntry (r : Running) (name phase status : String) (err : Option String) : Running :=
  { r with execLog := r.execLog ++ [⟨name, phase, status, err⟩] }

/-- A step that failed, with its error. -/
structure Failure where
  step : Step
  err : String
  deriving DecidableEq

/-- Where a run stops: before it appends an event, before it calls `Execute` or `Compensate`, before the
process has started it, or after it has returned. In the forward phases `rest` are the steps after the
current one, in the others `todo` are the steps still to be compensated after it. -/
inductive Phase where
  | idle
  | appendStarted (step : Step) (rest : List Step) (r : Running)
  | execute (step : Step) (rest : List Step) (r : Running)
  | appendOutcome (step : Step) (rest : List Step) (r : Running) (err : Option String)
  | appendCompensation (cs : Step) (todo : List Step) (r : Running) (failure : Failure)
  | compensate (cs : Step) (todo : List Step) (r : Running) (failure : Failure)
  | appendCompensated (cs : Step) (todo : List Step) (r : Running) (failure : Failure) (err : Option String)
  | returned (result : SagaResult)
  deriving DecidableEq

/-- The forward loop up to its next stop: completed steps are skipped. -/
def forward : List Step → Running → Phase
  | [], r => .returned ⟨.completed, "", none, r.execLog⟩
  | step :: rest, r =>
    if step.name ∈ r.state.completedSteps then
      let r := r.logEntry step.name "execute" "skipped (already completed)" none
      forward rest { r with completed := r.completed ++ [step] }
    else .appendStarted step rest r

/-- The reverse loop up to its next stop: compensated steps are skipped. -/
def backward (failure : Failure) : List Step → Running → Phase
  | [], r => .returned ⟨.compensated, failure.step.name, some (failure.step.name, failure.err), r.execLog⟩
  | cs :: todo, r =>
    if cs.name ∈ r.state.compensatedSteps then
      backward failure todo (r.logEntry cs.name "compensate" "skipped (already compensated)" none)
    else .appendCompensation cs todo r failure

/-- The first stop of `Run`, which `Recover` calls. -/
def run (saga : Saga) (log : List SagaEvent) (sagaID : String) : Phase :=
  forward saga.steps ⟨replayLog (eventsFor log sagaID), [], []⟩

/-! ## Runs and crashes -/

/-- The log, and where the process is. -/
structure World where
  log : List SagaEvent
  phase : Phase
  deriving DecidableEq

/-- What can happen: `Run` or `Recover` is called, an event is appended, a call returns with an error or
without, the process crashes, or another saga appends an event. -/
inductive Op where
  | call
  | append
  | execute (err : Option String)
  | compensate (err : Option String)
  | crash
  | other (e : SagaEvent)
  deriving DecidableEq

namespace World

/-- A log without events of this saga, and no process. -/
def start : World := ⟨[], .idle⟩

/-- An append of the process, after which it goes on. -/
def appendEvt (w : World) (sagaID : String) (step : Step) (kind : EventKind) (err : Option String)
    (phase : Phase) : World :=
  ⟨w.log ++ [⟨sagaID, step.name, kind, err.getD ""⟩], phase⟩

/-- One step. -/
def step (sagaID : String) (saga : Saga) (w : World) : Op → Option World
  | .call =>
    match w.phase with
    | .idle => some { w with phase := run saga w.log sagaID }
    | _ => none
  | .append =>
    match w.phase with
    | .appendStarted step rest r =>
      some (w.appendEvt sagaID step .stepStarted none
        (.execute step rest (r.logEntry step.name "execute" "started" none)))
    | .appendOutcome step rest r none =>
      let r := r.logEntry step.name "execute" "completed" none
      some (w.appendEvt sagaID step .stepCompleted none
        (forward rest { r with completed := r.completed ++ [step] }))
    | .appendOutcome step _ r (some err) =>
      some (w.appendEvt sagaID step .stepFailed (some err)
        (backward ⟨step, err⟩ r.completed.reverse (r.logEntry step.name "execute" "failed" (some err))))
    | .appendCompensation cs todo r failure =>
      some (w.appendEvt sagaID cs .compensationStarted none
        (.compensate cs todo (r.logEntry cs.name "compensate" "started" none) failure))
    | .appendCompensated cs todo r failure none =>
      some (w.appendEvt sagaID cs .compensationCompleted none
        (backward failure todo (r.logEntry cs.name "compensate" "completed" none)))
    | .appendCompensated cs todo r failure (some err) =>
      some (w.appendEvt sagaID cs .compensationFailed (some err)
        (backward failure todo (r.logEntry cs.name "compensate" "failed" (some err))))
    | _ => none
  | .execute err =>
    match w.phase with
    | .execute step rest r => some { w with phase := .appendOutcome step rest r err }
    | _ => none
  | .compensate err =>
    match w.phase with
    | .compensate cs todo r failure => some { w with phase := .appendCompensated cs todo r failure err }
    | _ => none
  | .crash =>
    match w.phase with
    | .idle => none
    | .returned _ => none
    | _ => some { w with phase := .idle }
  | .other e => if e.sagaID = sagaID then none else some { w with log := w.log ++ [e] }

end World

end SystemDesignLabs.Sagas
