import SystemDesignLabs.Core.TransitionSystem
import SystemDesignLabs.StreamProcessor.Window

/-!
# Two-phase commit of offsets and output

The transaction coordinator of `txn.go` as a machine that stops between the steps of `ProcessBatch` and
`Recover`: load, first save, write to the sink, second save. Saves and sink writes are atomic. A crash loses
what is in memory; the checkpoint and the sink survive. The first save advances the source offset past a batch
whose output is in memory only, and `Recover` marks it as committed without writing it, so that output is
exactly-once in the runs in which every batch that was saved is written (`NoGap`).
-/

namespace SystemDesignLabs.StreamProcessor

open List Option Core

/-! ## The coordinator -/

structure Checkpoint where
  sourceOffset : Nat
  outputCommitted : Bool
  deriving DecidableEq

structure PreparedOutput where
  results : List WindowResult
  sourceOffset : Nat

/-- One result for each key of a batch. -/
def aggregateBatch (order : MapOrder) (events : List Event) : List WindowResult :=
  match events with
  | [] => []
  | first :: rest =>
    let start := first.timestamp
    let last := ((first :: rest).getLast (List.cons_ne_nil _ _)).timestamp
    let stop := if last ≤ start then start + 1000000 else last
    (order.entries (bucketsOf events)).map fun p => aggregate start stop p.1 p.2

/-- Where the process is: between two calls, in `ProcessBatch` after the load, after the first save and after
the write to the sink, in `Recover` before its save, or down. -/
inductive Phase where
  | idle
  | loaded (cp : Checkpoint) (batch : List Event)
  | saved (batch : List Event)
  | written
  | recovering (cp : Checkpoint)
  | down

/-- The stream and the sink, with the state of the coordinator. -/
structure TxnWorld where
  events : List Event
  checkpoint : Checkpoint
  prepared : Option PreparedOutput
  phase : Phase
  sink : List (List WindowResult)

inductive TxnOp where
  | load (count : Nat)
  | saveFirst (order : MapOrder)
  | writeSink (succeeds : Bool)
  | saveSecond
  | crash
  | recover
  | saveRecovered

namespace TxnWorld

/-- One step. The driver calls `ProcessBatch` with the events from `CurrentOffset` on, as many as it likes, and
`Recover` on restart. A failed write to the sink ends the call. -/
def step (w : TxnWorld) : TxnOp → Option TxnWorld
  | .load count =>
    match w.phase with
    | .idle => some { w with
        phase := .loaded w.checkpoint ((w.events.drop w.checkpoint.sourceOffset).take count) }
    | _ => none
  | .saveFirst order =>
    match w.phase with
    | .loaded cp batch =>
      let newOffset := cp.sourceOffset + batch.length
      some { w with
        prepared := some ⟨aggregateBatch order batch, newOffset⟩
        checkpoint := ⟨newOffset, false⟩
        phase := .saved batch }
    | _ => none
  | .writeSink succeeds =>
    match w.phase, w.prepared with
    | .saved _, some prepared =>
      if prepared.results.length = 0 then some { w with phase := .written }
      else if succeeds then some { w with sink := w.sink ++ [prepared.results], phase := .written }
      else some { w with phase := .idle }
    | _, _ => none
  | .saveSecond =>
    match w.phase, w.prepared with
    | .written, some prepared => some { w with
        checkpoint := ⟨prepared.sourceOffset, true⟩
        prepared := none
        phase := .idle }
    | _, _ => none
  | .crash => some { w with prepared := none, phase := .down }
  | .recover =>
    match w.phase with
    | .down =>
      if 0 < w.checkpoint.sourceOffset ∧ w.checkpoint.outputCommitted = false then
        some { w with phase := .recovering { w.checkpoint with outputCommitted := true } }
      else some { w with phase := .idle }
    | _ => none
  | .saveRecovered =>
    match w.phase with
    | .recovering cp => some { w with checkpoint := cp, phase := .idle }
    | _ => none

/-- A new process without a checkpoint file. -/
def init (events : List Event) : TxnWorld := ⟨events, ⟨0, false⟩, none, .down, []⟩

/-- The events of the batch that the process is about to write. -/
def pending (w : TxnWorld) : List Event :=
  match w.phase with
  | .saved batch => batch
  | _ => []

/-- Each event below the source offset has reached the sink exactly once, except those that the running process
is about to write, and no other event has. -/
def ExactlyOnce (w : TxnWorld) : Prop :=
  ∃ delivered, delivered ++ w.pending = w.events.take w.checkpoint.sourceOffset ∧
    Counted (fun g e => e.key = g.key) w.sink.flatten delivered

/-- The condition on a step: after the first save of a batch that is not empty, the sink does not fail and the
process does not crash before the write. -/
def NoGap (w : TxnWorld) : TxnOp → Prop
  | .writeSink succeeds => w.pending ≠ [] → succeeds = true
  | .crash => w.pending = []
  | _ => True

instance (w : TxnWorld) (op : TxnOp) : Decidable (NoGap w op) := by
  cases op <;> unfold NoGap <;> infer_instance

/-! ## The invariant -/

theorem counted_aggregateBatch (order : MapOrder) (batch : List Event) :
    Counted (fun g e => e.key = g.key) (aggregateBatch order batch) batch := by
  cases batch with
  | nil => exact counted_nil
  | cons first rest => exact counted_bucketsOf order _ _ fun _ _ => rfl

/-- What is in memory fits to the checkpoint and the sink. -/
structure Inv (w : TxnWorld) : Prop where
  once : w.ExactlyOnce
  loaded : ∀ cp batch, w.phase = .loaded cp batch → cp = w.checkpoint ∧
    w.events.take (cp.sourceOffset + batch.length) = w.events.take cp.sourceOffset ++ batch
  saved : ∀ batch, w.phase = .saved batch → ∃ order, w.prepared =
    some ⟨aggregateBatch order batch, w.checkpoint.sourceOffset⟩
  written : w.phase = .written → ∃ results, w.prepared = some ⟨results, w.checkpoint.sourceOffset⟩
  recovering : ∀ cp, w.phase = .recovering cp → cp.sourceOffset = w.checkpoint.sourceOffset

section Steps

variable {w : TxnWorld}

theorem Inv.settle (h : Inv w) (hpending : w.pending = []) {checkpoint : Checkpoint} {prepared : Option PreparedOutput}
    {phase : Phase} (hoffset : checkpoint.sourceOffset = w.checkpoint.sourceOffset)
    (hphase : phase = .idle ∨ phase = .down) :
    Inv { w with checkpoint := checkpoint, prepared := prepared, phase := phase } := by
  have honce := h.once
  rw [ExactlyOnce, hpending] at honce
  rcases hphase with rfl | rfl
  all_goals exact ⟨by rw [ExactlyOnce, pending]; exact hoffset ▸ honce, nofun, nofun, nofun, nofun⟩

variable {w' : TxnWorld}

theorem inv_load (h : Inv w) {count : Nat} (hstep : step w (.load count) = some w') : Inv w' := by
  rw [step] at hstep
  split at hstep
  · rename_i hphase
    cases hstep
    have honce := h.once
    rw [ExactlyOnce, pending, hphase] at honce
    refine ⟨by rw [ExactlyOnce, pending]; exact honce, ?_, nofun, nofun, nofun⟩
    rintro cp batch hloaded
    cases hloaded
    refine ⟨rfl, ?_⟩
    -- the batch is what follows the offset, even if it is shorter than asked for
    have hsplit : w.events.take w.checkpoint.sourceOffset ++ (w.events.drop w.checkpoint.sourceOffset).take count =
        w.events.take (w.checkpoint.sourceOffset + count) := (take_add).symm
    dsimp only
    rw [hsplit, length_take, length_drop]
    rcases Nat.le_total count (w.events.length - w.checkpoint.sourceOffset) with hle | hle
    · rw [Nat.min_eq_left hle]
    · rw [Nat.min_eq_right hle, take_of_length_le (by omega), take_of_length_le (by omega)]
  · exact nomatch hstep

theorem inv_saveFirst (h : Inv w) {order : MapOrder} (hstep : step w (.saveFirst order) = some w') : Inv w' := by
  rw [step] at hstep
  split at hstep
  · rename_i cp batch hphase
    cases hstep
    obtain ⟨rfl, hbatch⟩ := h.loaded cp batch hphase
    obtain ⟨delivered, hdelivered, hcounted⟩ := h.once
    rw [pending, hphase, append_nil] at hdelivered
    refine ⟨⟨delivered, ?_, hcounted⟩, nofun, ?_, nofun, nofun⟩
    · dsimp only [pending]
      rw [hbatch, hdelivered]
    · intro batch' hsaved
      cases hsaved
      exact ⟨order, rfl⟩
  · exact nomatch hstep

theorem inv_writeSink (h : Inv w) {succeeds : Bool} (hgap : NoGap w (.writeSink succeeds))
    (hstep : step w (.writeSink succeeds) = some w') : Inv w' := by
  rw [step] at hstep
  split at hstep
  · rename_i batch prepared hphase hprepared
    obtain ⟨order, heq⟩ := h.saved batch hphase
    rw [hprepared] at heq
    cases some.inj heq
    obtain ⟨delivered, hdelivered, hcounted⟩ := h.once
    have hwritten : Counted (fun g e => e.key = g.key) (w.sink ++ [aggregateBatch order batch]).flatten
        (delivered ++ batch) := by
      rw [flatten_concat]
      exact hcounted.append (counted_aggregateBatch order batch)
    rw [pending, hphase] at hdelivered
    rw [NoGap, pending, hphase] at hgap
    dsimp only at hstep hgap hdelivered
    split at hstep
    · -- nothing to write
      rename_i hlength
      have hempty := counted_aggregateBatch order batch
      rw [length_eq_zero_iff.1 hlength] at hempty
      cases hstep
      refine ⟨⟨delivered, ?_, hcounted⟩, nofun, nofun, fun _ => ⟨_, hprepared⟩, nofun⟩
      rw [hempty.eq_nil] at hdelivered
      exact hdelivered
    · rename_i hlength
      have hne : batch ≠ [] := fun hnil => hlength (by rw [hnil]; rfl)
      rw [if_pos (hgap hne)] at hstep
      cases hstep
      exact ⟨⟨delivered ++ batch, (append_nil _).trans hdelivered, hwritten⟩, nofun, nofun,
        fun _ => ⟨_, hprepared⟩, nofun⟩
  · exact nomatch hstep

/-- Every step without a gap keeps the invariant. -/
theorem inv_step (h : Inv w) {op : TxnOp} (hgap : NoGap w op) (hstep : step w op = some w') : Inv w' := by
  cases op with
  | load count => exact inv_load h hstep
  | saveFirst order => exact inv_saveFirst h hstep
  | writeSink succeeds => exact inv_writeSink h hgap hstep
  | saveSecond =>
    rw [step] at hstep
    split at hstep
    · rename_i prepared hphase hprepared
      obtain ⟨results, heq⟩ := h.written hphase
      rw [hprepared] at heq
      cases hstep
      refine h.settle (by rw [pending, hphase]) ?_ (.inl rfl)
      exact congrArg PreparedOutput.sourceOffset (some.inj heq)
    · exact nomatch hstep
  | crash =>
    cases hstep
    exact h.settle hgap rfl (.inr rfl)
  | recover =>
    rw [step] at hstep
    split at hstep
    · rename_i hphase
      split at hstep
      · cases hstep
        have honce := h.once
        rw [ExactlyOnce, pending, hphase] at honce
        refine ⟨by rw [ExactlyOnce, pending]; exact honce, nofun, nofun, nofun, ?_⟩
        intro cp hrecovering
        cases hrecovering
        rfl
      · cases hstep
        exact h.settle (by rw [pending, hphase]) rfl (.inl rfl)
    · exact nomatch hstep
  | saveRecovered =>
    rw [step] at hstep
    split at hstep
    · rename_i cp hphase
      cases hstep
      exact h.settle (by rw [pending, hphase]) (h.recovering cp hphase) (.inl rfl)
    · exact nomatch hstep

end Steps

/-- **Output is exactly-once in the runs in which every batch that was saved is written.** -/
theorem exactlyOnce_of_noGap {events : List Event} {w : TxnWorld} (h : ReachableIf step NoGap (init events) w) :
    w.ExactlyOnce := by
  have hinit : Inv (init events) :=
    ⟨⟨[], take_zero.symm, counted_nil⟩, nofun, nofun, nofun, nofun⟩
  exact (h.invariant (I := Inv) hinit fun _ _ _ _ hw hgap hstep => inv_step hw hgap hstep).once

/-- Two batches, with a crash before and a crash after the write of the second one. -/
theorem exactlyOnce_of_noGap_three : ∃ w : TxnWorld, w.checkpoint = ⟨3, true⟩ ∧ w.sink.length = 2 ∧
    w.ExactlyOnce := by
  have hrun : (execIf step (fun w op => decide (NoGap w op)) (init [⟨"a", 1, 5⟩, ⟨"b", 2, 7⟩, ⟨"a", 3, 6⟩])
      [.recover, .load 2, .saveFirst .sorted, .writeSink true, .saveSecond, .load 1, .crash, .recover, .load 1,
        .saveFirst .sorted, .writeSink true, .crash, .recover, .saveRecovered]).map
        (fun w => decide (w.checkpoint = ⟨3, true⟩ ∧ w.sink.length = 2)) = some true := by
    rfl
  obtain ⟨w, hw, hfacts⟩ := map_eq_some_iff.1 hrun
  obtain ⟨hcheckpoint, hsink⟩ := of_decide_eq_true hfacts
  exact ⟨w, hcheckpoint, hsink, exactlyOnce_of_noGap (ReachableIf.init.execIf (fun _ _ => of_decide_eq_true) hw)⟩

/-- **A crash before the write to the sink loses the batch**: recovery marks the offset as committed. -/
theorem saved_batch_lost : ¬ ∀ events w, Reachable step (init events) w → w.ExactlyOnce := by
  intro h
  have hrun : (exec step (init [⟨"a", 1, 5⟩])
      [.recover, .load 1, .saveFirst .sorted, .crash, .recover, .saveRecovered]).map (fun w => decide
        (w.pending = [] ∧ (w.events.take w.checkpoint.sourceOffset).length = 1 ∧ w.sink.length = 0)) = some true := by
    rfl
  obtain ⟨w, hw, hfacts⟩ := map_eq_some_iff.1 hrun
  obtain ⟨hpending, hlength, hsink⟩ := of_decide_eq_true hfacts
  obtain ⟨delivered, hdelivered, hcounted⟩ := h _ w (reachable_of_exec hw)
  rw [length_eq_zero_iff.1 hsink, flatten_nil] at hcounted
  rw [hcounted.eq_nil, hpending] at hdelivered
  rw [← hdelivered] at hlength
  exact nomatch hlength

end TxnWorld

end SystemDesignLabs.StreamProcessor
