import SystemDesignLabs.Core.TransitionSystem
import SystemDesignLabs.StreamProcessor.Window

/-!
# The tumbling aggregator

The goroutine of `tumbling.go`: it receives events, flushes at the ticks of a timer and, after `Stop`, drains
the source and flushes once more. The sink always has room. The results that `Process` returns when an event
crosses the end of the window are dropped, a tick advances the window whatever the time of the events, and a
window that starts at the zero time counts as not started. So every event is counted in its interval in the runs
in which no event crosses the end of a window with events or comes before the start of the window, and none is
in the window of the zero time (`Fits`).
-/

namespace SystemDesignLabs.StreamProcessor

open List Option Core

/-! ## Runs -/

/-- Where the goroutine is: not started, in its loop, in the drain, returned, or dead because the interval of
its ticker is not positive. -/
inductive RunPhase where
  | notStarted
  | running
  | draining
  | closed
  | panicked
  deriving DecidableEq

/-- The aggregator, with the events that were put on its source. -/
structure Aggregator where
  window : TumblingWindow
  source : List Event
  sink : List (List WindowResult)
  stopped : Bool
  phase : RunPhase
  put : List Event

inductive AggregatorOp where
  | put (e : Event)
  | start
  | stop
  | receive (order : MapOrder)
  | tick (order : MapOrder)
  | drain
  | flush (order : MapOrder)

/-- The capacity of the source. -/
def sourceCapacity : Nat := 1024

namespace Aggregator

/-- `NewAggregator`. -/
def new (windowSize : Int) : Aggregator := ⟨.new windowSize, [], [], false, .notStarted, []⟩

/-- Send results, if there are any. -/
def send (a : Aggregator) (results : List WindowResult) : Aggregator :=
  if 0 < results.length then { a with sink := a.sink ++ [results] } else a

/-- One step. In the loop and in the drain an event is received alike, and what `Process` returns is dropped. -/
def step (a : Aggregator) : AggregatorOp → Option Aggregator
  | .put e =>
    if a.stopped = false ∧ a.source.length < sourceCapacity then
      some { a with source := a.source ++ [e], put := a.put ++ [e] }
    else none
  | .start =>
    if a.phase = .notStarted then
      some { a with phase := if 0 < a.window.size / 10 then .running else .panicked }
    else none
  | .stop => if a.stopped then none else some { a with stopped := true }
  | .receive order =>
    match a.source with
    | e :: rest =>
      if a.phase = .running ∨ a.phase = .draining then
        some { a with window := (a.window.process order e).1, source := rest }
      else none
    | [] => none
  | .tick order =>
    if a.phase = .running then
      let r := a.window.flush order
      some ({ a with window := r.1 }.send r.2)
    else none
  | .drain => if a.phase = .running ∧ a.stopped then some { a with phase := .draining } else none
  | .flush order =>
    if a.phase = .draining ∧ a.source.length = 0 then
      let r := a.window.flush order
      some { { a with window := r.1 }.send r.2 with phase := .closed }
    else none

/-- When the goroutine has ended, each event is counted in exactly one result, under its key and in an interval
that contains its timestamp. -/
def Placed (a : Aggregator) : Prop :=
  a.phase = .closed ∨ a.phase = .panicked → Counted Group.Contains a.sink.flatten a.put

end Aggregator

/-- The event can be added: it is not before the window, not after a window with events, and the window that it
goes to does not start at the zero time, nor is the zero time on the way there. -/
def TumblingWindow.Fits (tw : TumblingWindow) (e : Event) : Prop :=
  truncate e.timestamp tw.size ≠ 0 ∧
    (tw.startAt ≠ 0 → tw.startAt ≤ e.timestamp ∧ (tw.startAt < 0 → e.timestamp < 0) ∧
      (tw.buckets.entries ≠ [] → e.timestamp < tw.startAt + tw.size))

instance (tw : TumblingWindow) (e : Event) : Decidable (tw.Fits e) := by
  unfold TumblingWindow.Fits
  infer_instance

namespace Aggregator

/-- The condition on a step. -/
def Fits (a : Aggregator) : AggregatorOp → Prop
  | .start => 10 ≤ a.window.size
  | .receive _ => ∀ e ∈ a.source.head?, a.window.Fits e
  | _ => True

instance (a : Aggregator) (op : AggregatorOp) : Decidable (Fits a op) := by
  cases op <;> unfold Fits <;> infer_instance

end Aggregator

/-! ## The window -/

section Window

variable {size startAt t : Int}

theorem truncate_eq (haligned : startAt % size = 0) (hge : startAt ≤ t) (hlt : t < startAt + size) :
    truncate t size = startAt := by
  have hmod : t % size = t - startAt := by
    have heq : t = startAt + (t - startAt) := by omega
    rw [heq, Int.add_emod, haligned, Int.zero_add, Int.emod_emod, Int.emod_eq_of_lt (by omega) (by omega)]
    omega
  rw [truncate, hmod]
  omega

theorem truncate_spec (hsize : 0 < size) :
    truncate t size % size = 0 ∧ truncate t size ≤ t ∧ t < truncate t size + size := by
  have hnonneg := Int.emod_nonneg t (Int.ne_of_gt hsize)
  have hlt := Int.emod_lt_of_pos t hsize
  rw [truncate]
  refine ⟨?_, by omega, by omega⟩
  rw [Int.sub_emod, Int.emod_emod, Int.sub_self, Int.zero_emod]

namespace TumblingWindow

variable {tw : TumblingWindow}

theorem processLoop_stop (order : MapOrder) (rounds : Nat) (flushed : List WindowResult)
    (h : ¬ (tw.startAt ≠ 0 ∧ tw.startAt + tw.size + -1 < t)) :
    processLoop order t rounds tw flushed = (tw, flushed) := by
  cases rounds with
  | zero => rfl
  | succ rounds => rw [processLoop, if_neg h]

theorem processLoop_empty (order : MapOrder) {rounds : Nat} (flushed : List WindowResult)
    (hsize : 0 < tw.size) (haligned : tw.startAt % tw.size = 0) (hempty : tw.buckets = .empty)
    (hge : tw.startAt ≤ t) (hnonzero : tw.startAt ≠ 0) (hzero : tw.startAt < 0 → t < 0)
    (hrounds : t < tw.startAt + tw.size * (rounds + 1)) :
    (processLoop order t rounds tw flushed).1 = { tw with startAt := truncate t tw.size } := by
  -- where the loop stops, the window is the one of the instant
  have hstop : t < tw.startAt + tw.size → tw = { tw with startAt := truncate t tw.size } := by
    intro hlt
    rw [truncate_eq haligned hge hlt]
  induction rounds generalizing tw flushed with
  | zero =>
    rw [Int.natCast_zero, Int.zero_add, Int.mul_one] at hrounds
    exact hstop hrounds
  | succ rounds ih =>
    rw [processLoop]
    split
    · rename_i hloop
      rw [Int.natCast_succ, Int.mul_add] at hrounds
      have hnext : tw.advance = { tw with startAt := tw.startAt + tw.size } := by rw [advance, hempty]
      rw [hnext]
      refine @ih { tw with startAt := tw.startAt + tw.size } _ hsize ?_ hempty ?_ ?_ ?_ ?_ ?_
      all_goals dsimp only
      · rw [Int.add_emod, haligned, Int.emod_self]
        rfl
      · omega
      · omega
      · omega
      · omega
      · intro hlt
        rw [truncate_eq (by rw [Int.add_emod, haligned, Int.emod_self]; rfl) (by omega) hlt]
    · rename_i hloop
      exact hstop (by
        by_contra hlt
        exact hloop ⟨hnonzero, by omega⟩)

/-- An event that fits goes to the window of its timestamp, and nothing that was in a window is lost. -/
theorem process_eq (order : MapOrder) {e : Event} (hsize : 0 < tw.size) (haligned : tw.startAt % tw.size = 0)
    (hfits : tw.Fits e) :
    (tw.process order e).1 = { tw with
      startAt := truncate e.timestamp tw.size
      buckets := pushAt tw.buckets e.key e.value } := by
  obtain ⟨hne, hfits⟩ := hfits
  have hloop : ∀ tw' : TumblingWindow, tw' = (if tw.startAt = 0 then
      { tw with startAt := truncate e.timestamp tw.size } else tw) →
      (processLoop order e.timestamp (e.timestamp - tw'.startAt).toNat tw' []).1 =
        { tw with startAt := truncate e.timestamp tw.size } := by
    rintro tw' rfl
    obtain ⟨-, hle, hlt⟩ := @truncate_spec tw.size e.timestamp hsize
    split
    · -- the first event starts the window
      rw [processLoop_stop]
      dsimp only
      omega
    · rename_i hstart
      obtain ⟨hge, hzero, hfull⟩ := hfits hstart
      by_cases hempty : tw.buckets.entries = []
      · have hbuckets : tw.buckets = .empty := by
          cases hb : tw.buckets
          simp only [hb] at hempty
          subst hempty
          rfl
        refine processLoop_empty order [] hsize haligned hbuckets hge hstart hzero ?_
        have : (1 : Int) * ((e.timestamp - tw.startAt).toNat + 1) ≤ tw.size * ((e.timestamp - tw.startAt).toNat + 1) :=
          Int.mul_le_mul_of_nonneg_right (by omega) (by omega)
        omega
      · have hcurrent := hfull hempty
        rw [processLoop_stop _ _ _ (by omega), truncate_eq haligned hge hcurrent]
  rw [process]
  dsimp only
  rw [hloop _ rfl]

end TumblingWindow

end Window

theorem entries_bucketsOf_eq_nil {events : List Event} (h : (bucketsOf events).entries = []) : events = [] := by
  cases events with
  | nil => rfl
  | cons e rest =>
    have hentry : (e.key, (having Event.key (e :: rest) e.key).map Event.value) ∈ (bucketsOf (e :: rest)).entries :=
      mem_entries_groupBy.2 ⟨rfl, e, mem_cons_self, rfl⟩
    rw [h] at hentry
    exact nomatch hentry

/-! ## The invariant -/

namespace Aggregator

/-- The window holds `current`, which are the events that were received and not sent; all of them are in its
interval. -/
structure Holds (a : Aggregator) (sent current : List Event) : Prop where
  counted : Counted Group.Contains a.sink.flatten sent
  buckets : a.window.buckets = bucketsOf current
  all : (sent ++ current ++ a.source).Perm a.put
  inside : ∀ e ∈ current, a.window.startAt ≤ e.timestamp ∧ e.timestamp < a.window.startAt + a.window.size
  started : current ≠ [] → a.window.startAt ≠ 0
  closed : a.phase = .closed → current = [] ∧ a.source = []

structure Inv (a : Aggregator) : Prop where
  size : 0 < a.window.size
  aligned : a.window.startAt % a.window.size = 0
  holds : ∃ sent current, a.Holds sent current
  stopped : a.phase = .draining ∨ a.phase = .closed → a.stopped = true
  alive : a.phase ≠ .panicked

theorem flatten_send (a : Aggregator) (results : List WindowResult) :
    (a.send results).sink.flatten = a.sink.flatten ++ results := by
  rw [send]
  split
  · exact flatten_concat
  · rename_i hlength
    have hnil : results = [] := length_eq_zero_iff.1 (by omega)
    rw [hnil, append_nil]

theorem send_eq (a : Aggregator) (results : List WindowResult) :
    a.send results = { a with sink := (a.send results).sink } := by
  rw [send]
  split <;> rfl

section Steps

variable {a : Aggregator} {sent current : List Event}

/-- A flush sends what the window holds. -/
theorem Holds.flushed (h : a.Holds sent current) (order : MapOrder) :
    Counted Group.Contains (a.sink.flatten ++ (a.window.flush order).2) (sent ++ current) ∧
      (a.window.flush order).1.buckets = bucketsOf [] := by
  rw [TumblingWindow.flush]
  split
  · rename_i hzero
    have hnil : current = [] := by
      by_contra hne
      exact h.started hne hzero
    subst hnil
    exact ⟨h.counted.append counted_nil, h.buckets⟩
  · refine ⟨h.counted.append ?_, rfl⟩
    dsimp only
    rw [TumblingWindow.flushLocked_eq, h.buckets]
    exact counted_bucketsOf order _ _ fun e he => ⟨rfl, h.inside e he⟩

theorem aligned_flush (h : a.window.startAt % a.window.size = 0) (order : MapOrder) :
    (a.window.flush order).1.size = a.window.size ∧
      (a.window.flush order).1.startAt % a.window.size = 0 := by
  rw [TumblingWindow.flush]
  split
  · exact ⟨rfl, h⟩
  · refine ⟨rfl, ?_⟩
    show (a.window.startAt + a.window.size) % a.window.size = 0
    rw [Int.add_emod, h, Int.emod_self]
    rfl

theorem Inv.flush (h : Inv a) (order : MapOrder) {phase : RunPhase} (hphase : phase ≠ .panicked)
    (hstopped : phase = .draining ∨ phase = .closed → a.stopped = true)
    (hsource : phase = .closed → a.source = []) :
    Inv { { a with window := (a.window.flush order).1 }.send (a.window.flush order).2 with phase := phase } := by
  obtain ⟨sent, current, hholds⟩ := h.holds
  obtain ⟨hcounted, hbuckets⟩ := hholds.flushed order
  obtain ⟨hsize, haligned⟩ := aligned_flush h.aligned order
  have hflatten := flatten_send { a with window := (a.window.flush order).1 } (a.window.flush order).2
  rw [send_eq]
  refine ⟨?_, ?_, ⟨sent ++ current, [], ?_, hbuckets, ?_, nofun, (fun hne => absurd rfl hne), ?_⟩, hstopped, hphase⟩
  · dsimp only
    rw [hsize]
    exact h.size
  · dsimp only
    rw [hsize]
    exact haligned
  · dsimp only
    rw [hflatten]
    exact hcounted
  · dsimp only
    rw [append_nil]
    exact hholds.all
  · exact fun hclosed => ⟨rfl, hsource hclosed⟩

theorem inv_receive (h : Inv a) {order : MapOrder} (hfits : Fits a (.receive order)) {a' : Aggregator}
    (hstep : step a (.receive order) = some a') : Inv a' := by
  rw [step] at hstep
  split at hstep
  · rename_i e rest hsource
    obtain ⟨hphase, hstep⟩ := ite_none_right_eq_some.1 hstep
    cases hstep
    obtain ⟨sent, current, hholds⟩ := h.holds
    have hfit : a.window.Fits e := hfits e (by rw [hsource]; rfl)
    obtain ⟨haligned, hle, hlt⟩ := @truncate_spec a.window.size e.timestamp h.size
    rw [TumblingWindow.process_eq order h.size h.aligned hfit]
    refine ⟨h.size, haligned, ⟨sent, current ++ [e], hholds.counted, ?_, ?_, ?_, fun _ => hfit.1, ?_⟩, h.stopped,
      h.alive⟩
    · dsimp only
      rw [hholds.buckets, bucketsOf, bucketsOf, groupBy_concat]
    · have hall := hholds.all
      rw [hsource] at hall
      dsimp only
      rw [append_assoc, append_assoc, singleton_append, ← append_assoc]
      exact hall
    · intro e' he'
      rcases mem_append.1 he' with he' | he'
      · -- events that are in the window already keep it where it is
        obtain ⟨hge', hlt'⟩ := hholds.inside e' he'
        have hne : current ≠ [] := ne_nil_of_mem he'
        obtain ⟨hge, -, hfull⟩ := hfit.2 (hholds.started hne)
        have hentries : a.window.buckets.entries ≠ [] := fun hnil =>
          hne (entries_bucketsOf_eq_nil (hholds.buckets ▸ hnil))
        dsimp only
        rw [truncate_eq h.aligned hge (hfull hentries)]
        exact ⟨hge', hlt'⟩
      · cases mem_singleton.1 he'
        exact ⟨hle, hlt⟩
    · intro hclosed
      rcases hphase with hphase | hphase <;> exact nomatch hphase.symm.trans hclosed
  · exact nomatch hstep

/-- Every step in which the events fit keeps the invariant. -/
theorem inv_step (h : Inv a) {op : AggregatorOp} (hfits : Fits a op) {a' : Aggregator} (hstep : step a op = some a') :
    Inv a' := by
  cases op with
  | put e =>
    obtain ⟨⟨hstopped, -⟩, hstep⟩ := ite_none_right_eq_some.1 hstep
    cases hstep
    obtain ⟨sent, current, hholds⟩ := h.holds
    refine ⟨h.size, h.aligned, ⟨sent, current, hholds.counted, hholds.buckets, ?_, hholds.inside, hholds.started,
      ?_⟩, h.stopped, h.alive⟩
    · dsimp only
      rw [← append_assoc]
      exact hholds.all.append_right [e]
    · intro hclosed
      exact nomatch hstopped.symm.trans (h.stopped (.inr hclosed))
  | start =>
    obtain ⟨hphase, hstep⟩ := ite_none_right_eq_some.1 hstep
    have hsize : 10 ≤ a.window.size := hfits
    rw [if_pos (by omega)] at hstep
    cases hstep
    obtain ⟨sent, current, hholds⟩ := h.holds
    exact ⟨h.size, h.aligned, ⟨sent, current, hholds.counted, hholds.buckets, hholds.all, hholds.inside,
      hholds.started, nofun⟩, nofun, nofun⟩
  | stop =>
    rw [step] at hstep
    split at hstep
    · exact nomatch hstep
    · cases hstep
      obtain ⟨sent, current, hholds⟩ := h.holds
      exact ⟨h.size, h.aligned, ⟨sent, current, hholds.counted, hholds.buckets, hholds.all, hholds.inside,
        hholds.started, hholds.closed⟩, fun _ => rfl, h.alive⟩
  | receive order => exact inv_receive h hfits hstep
  | tick order =>
    obtain ⟨hphase, hstep⟩ := ite_none_right_eq_some.1 hstep
    cases hstep
    have hsame := @Inv.flush a h order .running nofun nofun nofun
    rw [send_eq] at hsame ⊢
    rw [← hphase] at hsame
    exact hsame
  | drain =>
    obtain ⟨⟨-, hstopped⟩, hstep⟩ := ite_none_right_eq_some.1 hstep
    cases hstep
    obtain ⟨sent, current, hholds⟩ := h.holds
    exact ⟨h.size, h.aligned, ⟨sent, current, hholds.counted, hholds.buckets, hholds.all, hholds.inside,
      hholds.started, nofun⟩, fun _ => hstopped, nofun⟩
  | flush order =>
    obtain ⟨⟨hphase, hlength⟩, hstep⟩ := ite_none_right_eq_some.1 hstep
    cases hstep
    exact h.flush order nofun (fun _ => h.stopped (.inl hphase)) fun _ => length_eq_zero_iff.1 hlength

end Steps

/-- **Every event is counted in its interval in the runs in which the events fit.** -/
theorem placed_of_fits {windowSize : Int} (hsize : 0 < windowSize) {a : Aggregator}
    (h : ReachableIf step Fits (new windowSize) a) : a.Placed := by
  have hinit : Inv (new windowSize) :=
    ⟨hsize, Int.zero_emod _, ⟨[], [], counted_nil, rfl, .refl _, nofun, (fun hne => absurd rfl hne), nofun⟩,
      nofun, nofun⟩
  have hinv := h.invariant (I := Inv) hinit fun _ _ _ _ ha hfits hstep => inv_step ha hfits hstep
  obtain ⟨sent, current, hholds⟩ := hinv.holds
  rintro (hclosed | hpanicked)
  · obtain ⟨rfl, hsource⟩ := hholds.closed hclosed
    have hall := hholds.all
    rw [hsource, append_nil, append_nil] at hall
    exact hholds.counted.perm hall
  · exact absurd hpanicked hinv.alive

/-- Two events in one window out of order, a tick and an event three windows later. -/
theorem placed_of_fits_three : ∃ a : Aggregator, a.put.length = 3 ∧ a.sink.length = 2 ∧ a.phase = .closed ∧
    a.Placed := by
  have hrun : (execIf step (fun a op => decide (Fits a op)) (new 100)
      [.start, .put ⟨"k", 1, 1060⟩, .put ⟨"k", 2, 1010⟩, .receive .sorted, .receive .sorted, .tick .sorted,
        .put ⟨"k", 3, 1370⟩, .stop, .drain, .receive .sorted, .flush .sorted]).map
        (fun a => decide (a.put.length = 3 ∧ a.sink.length = 2 ∧ a.phase = .closed)) = some true := by
    rfl
  obtain ⟨a, ha, hfacts⟩ := map_eq_some_iff.1 hrun
  obtain ⟨hput, hsink, hphase⟩ := of_decide_eq_true hfacts
  exact ⟨a, hput, hsink, hphase, placed_of_fits (by decide) (ReachableIf.init.execIf (fun _ _ => of_decide_eq_true) ha)⟩

/-- **An event that crosses the end of the window drops its results.** -/
theorem flushed_results_dropped :
    ¬ ∀ windowSize : Int, 0 < windowSize → ∀ a, Reachable step (new windowSize) a → a.Placed := by
  intro h
  have hrun : (exec step (new 100)
      [.start, .put ⟨"k", 1, 1060⟩, .put ⟨"k", 2, 1110⟩, .receive .sorted, .receive .sorted, .stop, .drain,
        .flush .sorted]).map (fun a => decide (a.phase = .closed ∧
          (a.sink.flatten.map WindowResult.count).sum = 1 ∧ a.put.length = 2)) = some true := by
    rfl
  obtain ⟨a, ha, hfacts⟩ := map_eq_some_iff.1 hrun
  obtain ⟨hclosed, hcount, hlength⟩ := of_decide_eq_true hfacts
  have hsum := (h 100 (by decide) a (reachable_of_exec ha) (.inl hclosed)).sum_count
  rw [hcount, hlength] at hsum
  exact nomatch hsum

end Aggregator

end SystemDesignLabs.StreamProcessor
