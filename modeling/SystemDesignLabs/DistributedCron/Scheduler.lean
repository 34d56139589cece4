import SystemDesignLabs.Core.SortedMap
import SystemDesignLabs.Core.Tasks
import SystemDesignLabs.Core.TransitionSystem

/-!
# Leader election, job history and distributed schedulers

The elector of `leader.go`, the store of `history.go`, and the loops of `distributed.go` and `backfill.go` as
machines that stop wherever a lock is released. Instants are nanoseconds since the zero time. The schedule of a
job is any function from an instant to the next firing; what the function of a job returns is open.
-/

namespace SystemDesignLabs.DistributedCron

open Core

/-! ### Leases -/

structure LeaderLease where
  holderID : String
  expiresAt : Int
  deriving DecidableEq

namespace LeaderLease

/-- `NewLeaderElector`. -/
def none : LeaderLease := ⟨"", 0⟩

/-- Take the lease if it is free, renew it if it is the node's own. -/
def acquire (lease : LeaderLease) (now : Int) (nodeID : String) (ttl : Int) : LeaderLease × Bool :=
  if lease.holderID = "" ∨ lease.expiresAt < now then (⟨nodeID, now + ttl⟩, true)
  else if lease.holderID = nodeID then ({ lease with expiresAt := now + ttl }, true)
  else (lease, false)

def renew (lease : LeaderLease) (now : Int) (nodeID : String) (ttl : Int) : LeaderLease × Bool :=
  if lease.holderID = nodeID ∧ now < lease.expiresAt then ({ lease with expiresAt := now + ttl }, true)
  else (lease, false)

def isLeader (lease : LeaderLease) (now : Int) (nodeID : String) : Bool :=
  decide (lease.holderID = nodeID) && decide (now < lease.expiresAt)

def release (lease : LeaderLease) (nodeID : String) : LeaderLease × Bool :=
  if lease.holderID = nodeID then (none, true) else (lease, false)

end LeaderLease

/-! ### History -/

inductive JobStatus where
  | pending
  | running
  | completed
  | failed
  | timeout
  deriving DecidableEq

structure JobRun where
  jobName : String
  scheduledAt : Int
  startedAt : Int
  finishedAt : Int
  status : JobStatus
  error : String
  deriving DecidableEq

/-- The records of each job. -/
abbrev JobStore := SortedMap String (List JobRun)

namespace JobStore

def runsFor (s : JobStore) (jobName : String) : List JobRun := (s.get jobName).getD []

def append (s : JobStore) (run : JobRun) : JobStore := s.insert run.jobName (s.runsFor run.jobName ++ [run])

/-- Is there a record of this scheduled time, whatever its status? -/
def hasRunAt (s : JobStore) (jobName : String) (t : Int) : Bool :=
  (s.runsFor jobName).any fun r => decide (r.scheduledAt = t)

/-- Apply a function to the first record of this scheduled time. -/
def updateFirst (scheduledAt : Int) (f : JobRun → JobRun) : List JobRun → List JobRun
  | [] => []
  | r :: rest => if r.scheduledAt = scheduledAt then f r :: rest else r :: updateFirst scheduledAt f rest

/-- Set the outcome of the most recent record of this scheduled time. -/
def updateStatus (s : JobStore) (jobName : String) (scheduledAt : Int) (status : JobStatus) (error : String)
    (finishedAt : Int) : JobStore :=
  s.insert jobName (updateFirst scheduledAt
    (fun r => { r with status := status, error := error, finishedAt := finishedAt })
    (s.runsFor jobName).reverse).reverse

end JobStore

/-! ### Schedulers -/

/-- A job of a node, with its next firing and the one that it last ran as leader. -/
structure DistEntry where
  job : String
  schedule : Int → Int
  next : Int
  lastLeaderAt : Int

/-- A node; `fired` is what it has read when a timer has fired: the instant and whether it is the leader. -/
structure DistributedScheduler where
  nodeID : String
  leaseTTL : Int
  maxBackfill : Int
  entries : List DistEntry
  fired : Option (Int × Bool)

/-- Where a goroutine that runs a job is: before the backfill, collecting the missed runs before `cutoff`, the
last one being `t`, about to execute the runs of a queue, or in the function of the job for one of them. -/
inductive TaskPhase where
  | backfill
  | collecting (cutoff t : Int) (missed : List Int)
  | running (queue : List Int)
  | executing (t : Int) (queue : List Int)
  deriving DecidableEq

/-- A goroutine that `scheduleLoop` has started. -/
structure Task where
  job : String
  schedule : Int → Int
  maxBackfill : Int
  scheduledAt : Int
  phase : TaskPhase

/-- `7 * 24 * time.Hour`. -/
def backfillWindow : Int := 604800000000000

/-- The most recent missed runs. -/
def capMissed (maxBackfill : Int) (missed : List Int) : List Int :=
  missed.drop (missed.length - maxBackfill.toNat)

/-- The earliest next firing; zero if there is no entry. -/
def earliest (entries : List DistEntry) : Int :=
  entries.foldl (fun earliest e => if earliest = 0 ∨ e.next < earliest then e.next else earliest) 0

namespace DistEntry

def isDue (fired : Int) (e : DistEntry) : Bool := decide (e.next ≤ fired)

/-- The entry after a firing. -/
def advance (fired : Int) (isLeader : Bool) (e : DistEntry) : DistEntry :=
  if e.isDue fired then
    { e with next := e.schedule e.next, lastLeaderAt := if isLeader then e.next else e.lastLeaderAt }
  else e

/-- The goroutine for a firing; the first one as leader backfills. -/
def task (maxBackfill : Int) (e : DistEntry) : Task :=
  ⟨e.job, e.schedule, maxBackfill, e.next,
    if e.lastLeaderAt = 0 ∧ 0 < maxBackfill then .backfill else .running [e.next]⟩

end DistEntry

/-- The goroutines for a firing. -/
def DistributedScheduler.spawned (ds : DistributedScheduler) (fired : Int) (isLeader : Bool) : List Task :=
  if isLeader then (ds.entries.filter (DistEntry.isDue fired)).map (DistEntry.task ds.maxBackfill) else []

/-- Nodes that share an elector and a store, with their goroutines and the runs that were executed. -/
structure World where
  lease : LeaderLease
  store : JobStore
  nodes : List DistributedScheduler
  tasks : List Task
  now : Int
  executed : List (String × Int)

inductive Op where
  | start (nodeID : String) (leaseTTL maxBackfill : Int) (jobs : List (String × (Int → Int)))
  | renewLoop (node : Nat)
  | acquire (nodeID : String) (ttl : Int)
  | renew (nodeID : String) (ttl : Int)
  | release (nodeID : String)
  | tick (elapsed : Nat)
  | fire (node : Nat) (fired : Int)
  | dispatch (node : Nat)
  | run (task : Nat) (status : JobStatus) (error : String)

namespace World

def setTask (w : World) (k : Nat) (task : Task) (phase : TaskPhase) : World :=
  { w with tasks := w.tasks.set k { task with phase := phase } }

/-- One step of a goroutine: the loop of `Catchup`, the two halves of `ExecWithHistory`, the end. -/
def runTask (w : World) (k : Nat) (task : Task) (status : JobStatus) (error : String) : World :=
  match task.phase with
  | .backfill => w.setTask k task (.collecting w.now (task.scheduledAt - backfillWindow) [])
  | .collecting cutoff t missed =>
    let t := task.schedule t
    if t = 0 ∨ ¬ t < cutoff then
      w.setTask k task (.running (capMissed task.maxBackfill missed ++ [task.scheduledAt]))
    else if w.store.hasRunAt task.job t then w.setTask k task (.collecting cutoff t missed)
    else w.setTask k task (.collecting cutoff t (missed ++ [t]))
  | .running [] => { w with tasks := w.tasks.eraseIdx k }
  | .running (t :: queue) =>
    { w.setTask k task (.executing t queue) with
      store := w.store.append ⟨task.job, t, w.now, 0, .running, ""⟩
      executed := w.executed ++ [(task.job, t)] }
  | .executing t queue =>
    { w.setTask k task (.running queue) with store := w.store.updateStatus task.job t status error w.now }

def step (w : World) : Op → Option World
  | .start nodeID leaseTTL maxBackfill jobs =>
    some { w with nodes := w.nodes ++
      [⟨nodeID, leaseTTL, maxBackfill, jobs.map fun j => ⟨j.1, j.2, j.2 w.now, 0⟩, none⟩] }
  | .renewLoop node =>
    match w.nodes[node]? with
    | some ds => some { w with lease := (w.lease.acquire w.now ds.nodeID ds.leaseTTL).1 }
    | none => none
  | .acquire nodeID ttl => some { w with lease := (w.lease.acquire w.now nodeID ttl).1 }
  | .renew nodeID ttl => some { w with lease := (w.lease.renew w.now nodeID ttl).1 }
  | .release nodeID => some { w with lease := (w.lease.release nodeID).1 }
  | .tick elapsed => some { w with now := w.now + elapsed }
  | .fire node fired =>
    match w.nodes[node]? with
    | some ds =>
      if ds.fired = none ∧ earliest ds.entries ≠ 0 ∧ earliest ds.entries ≤ fired ∧ fired ≤ w.now then
        some { w with nodes := w.nodes.set node { ds with fired := some (fired, w.lease.isLeader w.now ds.nodeID) } }
      else none
    | none => none
  | .dispatch node =>
    match w.nodes[node]? with
    | some ds =>
      match ds.fired with
      | some (fired, isLeader) => some { w with
          nodes := w.nodes.set node
            { ds with entries := ds.entries.map (DistEntry.advance fired isLeader), fired := none }
          tasks := w.tasks ++ ds.spawned fired isLeader }
      | none => none
    | none => none
  | .run task status error =>
    match w.tasks[task]? with
    | some t => some (w.runTask task t status error)
    | none => none

def init (start : Int) : World := ⟨.none, .empty, [], [], start, []⟩

end World

/-!
## Each firing at most once

A node decides to execute runs in two places: when it takes a firing as leader, and when it has collected the
missed runs of a job. Only the second one asks the history, before the runs that are under way are recorded;
the present firing is one of them. So every run is executed at most once in the runs of the system in which
nobody decides on a run that is recorded or that a goroutine is about to execute (`Fresh`).
-/

open List Option

/-- The runs that a goroutine will execute, as far as it has decided. -/
def Task.claims (task : Task) : List (String × Int) :=
  match task.phase with
  | .backfill => [(task.job, task.scheduledAt)]
  | .collecting _ _ _ => [(task.job, task.scheduledAt)]
  | .running queue => queue.map (Prod.mk task.job)
  | .executing _ queue => queue.map (Prod.mk task.job)

namespace World

def claims (w : World) : List (String × Int) := w.tasks.flatMap Task.claims

/-- The runs that a step decides to execute. -/
def decided (w : World) : Op → List (String × Int)
  | .dispatch node =>
    match w.nodes[node]? with
    | some ds =>
      match ds.fired with
      | some (fired, isLeader) => (ds.spawned fired isLeader).flatMap Task.claims
      | none => []
    | none => []
  | .run task _ _ =>
    match w.tasks[task]? with
    | some t =>
      match t.phase with
      | .collecting cutoff last missed =>
        if t.schedule last = 0 ∨ ¬ t.schedule last < cutoff then
          (capMissed t.maxBackfill missed).map (Prod.mk t.job)
        else []
      | _ => []
    | none => []
  | _ => []

/-- The condition on a step: the runs that it decides on are not recorded and no goroutine has them. -/
def Fresh (w : World) (op : Op) : Prop :=
  (w.decided op).Nodup ∧ ∀ r ∈ w.decided op, r ∉ w.claims ∧ w.store.hasRunAt r.1 r.2 = false

/-- For deciding whether a run is listed. -/
theorem lawfulBEq_run : LawfulBEq (String × Int) := inferInstance

instance (w : World) (op : Op) : Decidable (Fresh w op) :=
  haveI := lawfulBEq_run
  inferInstanceAs (Decidable (_ ∧ _))

/-- No run has been executed twice. -/
def AtMostOnce (w : World) : Prop := w.executed.Nodup

/-- What was executed is recorded, and nobody has a run that was executed or that another one has. -/
structure Inv (w : World) : Prop where
  nodup : (w.claims ++ w.executed).Nodup
  recorded : ∀ r ∈ w.executed, w.store.hasRunAt r.1 r.2 = true

end World

/-! ### The store -/

namespace JobStore

variable {s : JobStore} {jobName : String} {t : Int}

theorem hasRunAt_append (run : JobRun) : (s.append run).hasRunAt jobName t =
    (s.hasRunAt jobName t || (decide (run.jobName = jobName) && decide (run.scheduledAt = t))) := by
  rw [append, hasRunAt, hasRunAt, runsFor, runsFor, SortedMap.get_insert]
  by_cases hjob : jobName = run.jobName
  · subst hjob
    rw [if_pos rfl, getD_some, any_append, any_cons, any_nil, Bool.or_false, decide_eq_true rfl, Bool.true_and, runsFor]
  · rw [if_neg hjob, decide_eq_false (Ne.symm hjob), Bool.false_and, Bool.or_false]
    rfl

theorem any_updateFirst (scheduledAt : Int) (f : JobRun → JobRun) (hf : ∀ r, (f r).scheduledAt = r.scheduledAt)
    (runs : List JobRun) : (updateFirst scheduledAt f runs).any (fun r => decide (r.scheduledAt = t)) =
      runs.any fun r => decide (r.scheduledAt = t) := by
  induction runs with
  | nil => rfl
  | cons r rest ih =>
    rw [updateFirst]
    split
    · rw [any_cons, any_cons, hf]
    · rw [any_cons, any_cons, ih]

theorem hasRunAt_updateStatus (name : String) (scheduledAt : Int) (status : JobStatus) (error : String)
    (finishedAt : Int) : (s.updateStatus name scheduledAt status error finishedAt).hasRunAt jobName t =
      s.hasRunAt jobName t := by
  rw [updateStatus, hasRunAt, hasRunAt, runsFor, SortedMap.get_insert]
  split
  · rename_i hjob
    subst hjob
    rw [getD_some, any_reverse, any_updateFirst, any_reverse]
    exact fun _ => rfl
  · rfl

end JobStore

/-! ### Steps -/

namespace World

variable {w : World}

variable {w' : World}

theorem Inv.frame (h : Inv w) (htasks : w'.tasks = w.tasks) (hexecuted : w'.executed = w.executed)
    (hstore : w'.store = w.store) : Inv w' := by
  refine ⟨?_, ?_⟩
  · rw [claims, htasks, hexecuted]
    exact h.nodup
  · rw [hexecuted, hstore]
    exact h.recorded

theorem Inv.claim (h : Inv w) {op : Op} (hfresh : Fresh w op)
    (hclaims : w'.claims.Perm (w.decided op ++ w.claims)) (hexecuted : w'.executed = w.executed)
    (hstore : w'.store = w.store) : Inv w' := by
  refine ⟨?_, ?_⟩
  · have hperm : (w'.claims ++ w'.executed).Perm (w.decided op ++ (w.claims ++ w.executed)) := by
      rw [hexecuted, ← append_assoc]
      exact hclaims.append_right _
    rw [hperm.nodup_iff, nodup_append]
    refine ⟨hfresh.1, h.nodup, fun r hr r' hr' heq => ?_⟩
    subst heq
    obtain ⟨hclaimed, hrecorded⟩ := hfresh.2 r hr
    rcases mem_append.1 hr' with hr' | hr'
    · exact hclaimed hr'
    · exact Bool.noConfusion ((h.recorded r hr').symm.trans hrecorded)
  · rw [hexecuted, hstore]
    exact h.recorded

theorem claims_setTask {k : Nat} {task : Task} (htask : w.tasks[k]? = some task) (phase : TaskPhase)
    {added : List (String × Int)} (hclaims : ({ task with phase := phase } : Task).claims.Perm (added ++ task.claims)) :
    (w.setTask k task phase).claims.Perm (added ++ w.claims) := by
  obtain ⟨front, back, hsplit, hproceed⟩ := proceed_split htask
  have hset : ∀ b, w.tasks.set k b = front ++ b :: back := fun b => hproceed (some b)
  rw [claims, claims, setTask]
  dsimp only
  rw [hset, hsplit, flatMap_append, flatMap_append, flatMap_cons, flatMap_cons]
  refine ((hclaims.append_right _).append_left _).trans ?_
  rw [append_assoc]
  exact perm_append_comm_assoc _ _ _

theorem inv_dispatch (h : Inv w) {node : Nat} (hfresh : Fresh w (.dispatch node))
    (hstep : step w (.dispatch node) = some w') : Inv w' := by
  rw [step] at hstep
  split at hstep
  · rename_i ds hds
    split at hstep
    · rename_i fired isLeader hfired
      cases hstep
      refine h.claim hfresh ?_ rfl rfl
      rw [decided, claims, hds]
      simp only [hfired]
      rw [flatMap_append]
      exact perm_append_comm
    · exact nomatch hstep
  · exact nomatch hstep

theorem Inv.finish (h : Inv w) (hclaims : w'.claims.Perm w.claims) (hexecuted : w'.executed = w.executed)
    (hstore : ∀ job t, w'.store.hasRunAt job t = w.store.hasRunAt job t) : Inv w' := by
  refine ⟨?_, ?_⟩
  · rw [hexecuted]
    exact (hclaims.append_right _).nodup_iff.2 h.nodup
  · intro r hr
    rw [hstore]
    exact h.recorded r (hexecuted ▸ hr)

/-- An execution moves a run from the goroutine to the history. -/
theorem inv_exec (h : Inv w) {k : Nat} {task : Task} (htask : w.tasks[k]? = some task) {t : Int} {queue : List Int}
    (hphase : task.phase = .running (t :: queue)) (status : JobStatus) (error : String) :
    Inv (w.runTask k task status error) := by
  obtain ⟨front, back, hsplit, hproceed⟩ := proceed_split htask
  have hset : ∀ b, w.tasks.set k b = front ++ b :: back := fun b => hproceed (some b)
  have hclaims : task.claims = (task.job, t) :: queue.map (Prod.mk task.job) := by
    rw [Task.claims, hphase]
    rfl
  have hold := h.nodup
  rw [claims, hsplit, flatMap_append, flatMap_cons, hclaims] at hold
  rw [runTask, hphase]
  refine ⟨?_, ?_⟩
  · dsimp only [setTask, claims]
    rw [hset, flatMap_append, flatMap_cons]
    have hmove : ∀ rest : List (String × Int), (rest ++ (w.executed ++ [(task.job, t)])).Perm
        ((task.job, t) :: rest ++ w.executed) := fun rest => by
      rw [← append_assoc]
      exact perm_append_singleton _ _
    exact ((hmove _).trans (perm_middle.symm.append_right _)).nodup_iff.2 hold
  · intro r hr
    dsimp only [setTask] at hr ⊢
    rw [JobStore.hasRunAt_append]
    rcases mem_append.1 hr with hr | hr
    · rw [h.recorded r hr, Bool.true_or]
    · rw [mem_singleton.1 hr, decide_eq_true rfl, decide_eq_true rfl, Bool.true_and, Bool.or_true]

theorem inv_run (h : Inv w) {k : Nat} {status : JobStatus} {error : String}
    (hfresh : Fresh w (.run k status error)) (hstep : step w (.run k status error) = some w') : Inv w' := by
  rw [step] at hstep
  split at hstep
  · rename_i task htask
    cases hstep
    cases hphase : task.phase with
    | backfill =>
      rw [runTask, hphase]
      refine h.finish ?_ rfl fun _ _ => rfl
      refine @claims_setTask w k task htask _ [] ?_
      rw [nil_append, Task.claims, Task.claims, hphase]
    | collecting cutoff t missed =>
      rw [runTask, hphase]
      dsimp only
      have hkeep : ∀ t' missed', (w.setTask k task (.collecting cutoff t' missed')).claims.Perm w.claims := by
        intro t' missed'
        refine @claims_setTask w k task htask _ [] ?_
        rw [nil_append, Task.claims, Task.claims, hphase]
      split
      · rename_i hend
        refine h.claim hfresh ?_ rfl rfl
        rw [decided, htask]
        simp only [hphase, if_pos hend]
        refine claims_setTask htask _ ?_
        rw [Task.claims, Task.claims, hphase]
        dsimp only
        rw [map_append]
        exact .refl _
      · split
        · exact h.finish (hkeep _ _) rfl fun _ _ => rfl
        · exact h.finish (hkeep _ _) rfl fun _ _ => rfl
    | running queue =>
      cases queue with
      | nil =>
        obtain ⟨front, back, hsplit, hproceed⟩ := proceed_split htask
        have herase : w.tasks.eraseIdx k = front ++ back := hproceed none
        have hnone : task.claims = [] := by
          rw [Task.claims, hphase]
          rfl
        rw [runTask, hphase]
        refine h.finish ?_ rfl fun _ _ => rfl
        dsimp only [claims]
        rw [herase, hsplit, flatMap_append, flatMap_append, flatMap_cons, hnone]
        exact .refl _
      | cons t queue => exact inv_exec h htask hphase status error
    | executing t queue =>
      rw [runTask, hphase]
      refine h.finish ?_ rfl fun _ _ => JobStore.hasRunAt_updateStatus _ _ _ _ _
      refine @claims_setTask w k task htask _ [] ?_
      rw [nil_append, Task.claims, Task.claims, hphase]
  · exact nomatch hstep

/-- Every fresh step keeps the invariant. -/
theorem inv_step (h : Inv w) {op : Op} (hfresh : Fresh w op) (hstep : step w op = some w') : Inv w' := by
  cases op with
  | dispatch node => exact inv_dispatch h hfresh hstep
  | run task status error => exact inv_run h hfresh hstep
  | renewLoop node =>
    rw [step] at hstep
    split at hstep
    · cases hstep
      exact h.frame rfl rfl rfl
    · exact nomatch hstep
  | fire node fired =>
    rw [step] at hstep
    split at hstep
    · obtain ⟨-, hstep⟩ := ite_none_right_eq_some.1 hstep
      cases hstep
      exact h.frame rfl rfl rfl
    · exact nomatch hstep
  | start nodeID leaseTTL maxBackfill jobs =>
    cases hstep
    exact h.frame rfl rfl rfl
  | acquire nodeID ttl =>
    cases hstep
    exact h.frame rfl rfl rfl
  | renew nodeID ttl =>
    cases hstep
    exact h.frame rfl rfl rfl
  | release nodeID =>
    cases hstep
    exact h.frame rfl rfl rfl
  | tick elapsed =>
    cases hstep
    exact h.frame rfl rfl rfl

/-- The next multiple of a period at least a minute later, as for a daily or a weekly schedule. -/
def everyPeriod (period t : Int) : Int :=
  let minute := 60000000000
  let t := (t + minute) / minute * minute
  t + -t % period

def day : Int := 86400000000000

end World

end SystemDesignLabs.DistributedCron
