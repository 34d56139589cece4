import SystemDesignLabs.Sagas.Orchestrator

/-!
# The two drivers of a saga

`Saga.Run` keeps no log, `SagaOrchestrator.Run` asks its log. On an empty log both make the same calls and return the
same result (`drive_eq_sagaRun`): up to the first step that fails, and back from there. The status of such a result is
always `StatusCompensated`, also when a compensation has failed.
-/

namespace SystemDesignLabs.Sagas

open List Option

/-- A call of `Execute` or `Compensate`, by the position of its step. -/
inductive Call where
  | execute (i : Nat)
  | compensate (i : Nat)
  deriving DecidableEq

/-- The error that a call returns, if any, after the calls before it. -/
abbrev Outcomes := List Call → Call → Option String

/-! ### `Saga.Run` -/

/-- The reverse loop of `Saga.Run`. In front of a completed step are the ones still to be compensated. -/
def compensateLoop (o : Outcomes) (failure : Failure) : List Step → List Call → List ExecutionLogEntry →
    SagaResult × List Call
  | [], calls, log => (⟨.compensated, failure.step.name, some (failure.step.name, failure.err), log⟩, calls)
  | cs :: todo, calls, log =>
    let log := log ++ [⟨cs.name, "compensate", "started", none⟩]
    match o calls (.compensate todo.length) with
    | some err => compensateLoop o failure todo (calls ++ [.compensate todo.length])
        (log ++ [⟨cs.name, "compensate", "failed", some err⟩])
    | none => compensateLoop o failure todo (calls ++ [.compensate todo.length])
        (log ++ [⟨cs.name, "compensate", "completed", none⟩])

/-- The forward loop of `Saga.Run`. -/
def executeLoop (o : Outcomes) : List Step → List Step → List Call → List ExecutionLogEntry → SagaResult × List Call
  | [], _, calls, log => (⟨.completed, "", none, log⟩, calls)
  | step :: rest, completed, calls, log =>
    let log := log ++ [⟨step.name, "execute", "started", none⟩]
    match o calls (.execute completed.length) with
    | some err => compensateLoop o ⟨step, err⟩ completed.reverse (calls ++ [.execute completed.length])
        (log ++ [⟨step.name, "execute", "failed", some err⟩])
    | none => executeLoop o rest (completed ++ [step]) (calls ++ [.execute completed.length])
        (log ++ [⟨step.name, "execute", "completed", none⟩])

/-- `Saga.Run`, with the calls that it makes. -/
def sagaRun (o : Outcomes) (saga : Saga) : SagaResult × List Call :=
  executeLoop o saga.steps [] [] []

/-! ### `SagaOrchestrator.Run` -/

/-- A run of the orchestrator until it returns, with the calls that it makes. -/
def drive (sagaID : String) (saga : Saga) (o : Outcomes) : Nat → World → List Call → Option (SagaResult × List Call)
  | 0, _, _ => none
  | fuel + 1, w, calls =>
    match w.phase with
    | .returned result => some (result, calls)
    | .idle => (w.step sagaID saga .call).bind fun w => drive sagaID saga o fuel w calls
    | .execute _ rest _ =>
      let c := Call.execute (saga.steps.length - rest.length - 1)
      (w.step sagaID saga (.execute (o calls c))).bind fun w => drive sagaID saga o fuel w (calls ++ [c])
    | .compensate _ todo _ _ =>
      let c := Call.compensate todo.length
      (w.step sagaID saga (.compensate (o calls c))).bind fun w => drive sagaID saga o fuel w (calls ++ [c])
    | _ => (w.step sagaID saga .append).bind fun w => drive sagaID saga o fuel w calls

section Drive

variable {sagaID : String} {saga : Saga} {o : Outcomes}

theorem drive_backward {failure : Failure} {todo : List Step} {r : Running} (hstate : r.state.compensatedSteps = [])
    (log : List SagaEvent) (calls : List Call) : ∃ fuel, drive sagaID saga o fuel ⟨log, backward failure todo r⟩ calls =
      some (compensateLoop o failure todo calls r.execLog) := by
  induction todo generalizing r log calls with
  | nil => exact ⟨1, rfl⟩
  | cons cs todo ih =>
    rw [backward, hstate, if_neg not_mem_nil, compensateLoop]
    -- an append, the call and another append
    cases herr : o calls (.compensate todo.length) with
    | none =>
      obtain ⟨fuel, hfuel⟩ := @ih ((r.logEntry cs.name "compensate" "started" none).logEntry cs.name "compensate"
        "completed" none) hstate _ (calls ++ [.compensate todo.length])
      refine ⟨fuel + 3, ?_⟩
      simp only [drive, World.step, World.appendEvt, bind_some, herr]
      exact hfuel
    | some err =>
      obtain ⟨fuel, hfuel⟩ := @ih ((r.logEntry cs.name "compensate" "started" none).logEntry cs.name "compensate"
        "failed" (some err)) hstate _ (calls ++ [.compensate todo.length])
      refine ⟨fuel + 3, ?_⟩
      simp only [drive, World.step, World.appendEvt, bind_some, herr]
      exact hfuel

theorem drive_forward {rest : List Step} {r : Running} (hcompleted : r.state.completedSteps = [])
    (hcompensated : r.state.compensatedSteps = []) (hsteps : saga.steps = r.completed ++ rest) (log : List SagaEvent)
    (calls : List Call) : ∃ fuel, drive sagaID saga o fuel ⟨log, forward rest r⟩ calls =
      some (executeLoop o rest r.completed calls r.execLog) := by
  induction rest generalizing r log calls with
  | nil => exact ⟨1, rfl⟩
  | cons step rest ih =>
    have hindex : saga.steps.length - rest.length - 1 = r.completed.length := by
      rw [hsteps, length_append, length_cons]
      omega
    rw [forward, hcompleted, if_neg not_mem_nil, executeLoop]
    cases herr : o calls (.execute r.completed.length) with
    | none =>
      let r' := (r.logEntry step.name "execute" "started" none).logEntry step.name "execute" "completed" none
      obtain ⟨fuel, hfuel⟩ := @ih { r' with completed := r.completed ++ [step] } hcompleted hcompensated
        (by rw [hsteps, append_assoc]; rfl) _ (calls ++ [.execute r.completed.length])
      refine ⟨fuel + 3, ?_⟩
      simp only [drive, World.step, World.appendEvt, bind_some, hindex, herr]
      exact hfuel
    | some err =>
      let r' := (r.logEntry step.name "execute" "started" none).logEntry step.name "execute" "failed" (some err)
      obtain ⟨fuel, hfuel⟩ := @drive_backward sagaID saga o ⟨step, err⟩ r.completed.reverse r' hcompensated _
        (calls ++ [.execute r.completed.length])
      refine ⟨fuel + 3, ?_⟩
      simp only [drive, World.step, World.appendEvt, bind_some, hindex, herr]
      exact hfuel

/-- On an empty log both drivers do the same. -/
theorem drive_eq_sagaRun (sagaID : String) (saga : Saga) (o : Outcomes) :
    ∃ fuel, drive sagaID saga o fuel World.start [] = some (sagaRun o saga) := by
  obtain ⟨fuel, hfuel⟩ := @drive_forward sagaID saga o saga.steps ⟨replayLog [], [], []⟩ rfl rfl rfl [] []
  exact ⟨fuel + 1, hfuel⟩

end Drive

/-! ### The calls of a run -/

/-- The first calls of `Execute`. -/
def executes (k : Nat) : List Call := (List.range k).map .execute

/-- The calls of a run whose step `k` is the first to fail. -/
def recovery (k : Nat) : List Call := executes (k + 1) ++ (List.range k).reverse.map .compensate

/-- The steps before `k` succeed. -/
def Succeed (o : Outcomes) (k : Nat) : Prop := ∀ i < k, o (executes i) (.execute i) = none

/-- The step `k` is the first to fail. -/
def FirstFailure (o : Outcomes) (steps : List Step) (k : Nat) : Prop :=
  k < steps.length ∧ Succeed o k ∧ ∃ err, o (executes k) (.execute k) = some err

/-- No compensation among these calls fails. -/
def Compensated (o : Outcomes) (calls : List Call) : Prop :=
  ∀ before i, before ++ [.compensate i] <+: calls → o before (.compensate i) = none

/-- Steps are executed in order up to the first that fails, and those before it are compensated in reverse order. -/
inductive Ordered (o : Outcomes) (steps : List Step) : SagaResult × List Call → Prop where
  | completed {log : List ExecutionLogEntry} (hsucceed : Succeed o steps.length) :
    Ordered o steps (⟨.completed, "", none, log⟩, executes steps.length)
  | failed {k : Nat} {step : Step} {err : String} {log : List ExecutionLogEntry} (hfail : FirstFailure o steps k)
    (hstep : steps[k]? = some step) :
    Ordered o steps (⟨.compensated, step.name, some (step.name, err), log⟩, recovery k)

variable {o : Outcomes}

theorem executes_succ (k : Nat) : executes (k + 1) = executes k ++ [.execute k] := by
  rw [executes, range_succ, map_append]
  rfl

theorem compensateLoop_eq (failure : Failure) (todo : List Step) (calls : List Call) (log : List ExecutionLogEntry) :
    ∃ log', compensateLoop o failure todo calls log =
      (⟨.compensated, failure.step.name, some (failure.step.name, failure.err), log'⟩,
        calls ++ (List.range todo.length).reverse.map .compensate) := by
  induction todo generalizing calls log with
  | nil => exact ⟨log, by rw [compensateLoop]; simp⟩
  | cons cs todo ih =>
    have hcalls : calls ++ (range (cs :: todo).length).reverse.map Call.compensate =
        (calls ++ [.compensate todo.length]) ++ (range todo.length).reverse.map .compensate := by
      rw [length_cons, range_succ, reverse_append, map_append, append_assoc]
      rfl
    rw [hcalls, compensateLoop]
    split <;> exact ih _ _

theorem ordered_executeLoop {steps rest completed : List Step} (hsteps : steps = completed ++ rest)
    (hsucceed : Succeed o completed.length) (log : List ExecutionLogEntry) :
    Ordered o steps (executeLoop o rest completed (executes completed.length) log) := by
  induction rest generalizing completed log with
  | nil =>
    obtain rfl : steps = completed := by rw [hsteps, append_nil]
    exact .completed hsucceed
  | cons step rest ih =>
    rw [executeLoop, ← executes_succ]
    cases herr : o (executes completed.length) (.execute completed.length) with
    | none =>
      have hlen : completed.length + 1 = (completed ++ [step]).length := by rw [length_append]; rfl
      rw [hlen]
      refine ih (by rw [hsteps, append_assoc]; rfl) (fun i hi => ?_) _
      rcases Nat.lt_or_eq_of_le (Nat.le_of_lt_succ (hlen ▸ hi)) with hlt | rfl
      · exact hsucceed i hlt
      · exact herr
    | some err =>
      obtain ⟨log', hloop⟩ := @compensateLoop_eq o ⟨step, err⟩ completed.reverse (executes (completed.length + 1))
        ((log ++ [⟨step.name, "execute", "started", none⟩]) ++ [⟨step.name, "execute", "failed", some err⟩])
      have hlt : completed.length < steps.length := by
        rw [hsteps, length_append, length_cons]
        omega
      have hstep : steps[completed.length]? = some step := by
        rw [hsteps, getElem?_append_right (Nat.le_refl _), Nat.sub_self]
        rfl
      rw [length_reverse] at hloop
      show Ordered o steps (compensateLoop o _ _ _ _)
      rw [hloop]
      exact .failed ⟨hlt, hsucceed, err, herr⟩ hstep

theorem FirstFailure.unique {steps : List Step} {k k' : Nat} (h : FirstFailure o steps k)
    (h' : FirstFailure o steps k') : k = k' := by
  obtain ⟨-, hsucceed, err, herr⟩ := h
  obtain ⟨-, hsucceed', err', herr'⟩ := h'
  rcases Nat.lt_trichotomy k k' with hlt | heq | hgt
  · exact nomatch herr.symm.trans (hsucceed' k hlt)
  · exact heq
  · exact nomatch herr'.symm.trans (hsucceed k' hgt)

/-- The two drivers agree on an empty log, their calls are in order, and the status is only `StatusCompensated` when no
compensation failed. -/
structure BackwardRecovery (sagaID : String) (saga : Saga) (o : Outcomes) : Prop where
  agree : ∃ fuel, drive sagaID saga o fuel World.start [] = some (sagaRun o saga)
  ordered : Ordered o saga.steps (sagaRun o saga)
  status : (sagaRun o saga).1.status = .compensated → Compensated o (sagaRun o saga).2

end SystemDesignLabs.Sagas
