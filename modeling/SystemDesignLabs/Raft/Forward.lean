import SystemDesignLabs.Raft.Replay
import SystemDesignLabs.Raft.Steps

/-!
# Runs forward

What a step does once it is enabled, for runs that are too long to be evaluated: compaction starts
only at logs of more than `snapshotThreshold` entries. `Reaches` describes a reached state of three
nodes by its nodes, its broadcast goroutines and the position of the leader's loop. The main result
`reaches_compacted` leads, for every log length above the threshold, to a state in which the leader
has compacted its whole log while one peer has not received anything yet and two requests for it are
in flight: the whole log, and the snapshot.
-/

namespace SystemDesignLabs.Raft

open List Core Cluster Node

/-! ## Enabled steps -/

section Enabled

variable {N : Nat} {s : Cluster N} {k : Nat} {c : AppendCall N}

theorem step_build (hk : s.appendCalls[k]? = some c) (hc : c.stage = .spawned)
    (hst : (s.node c.leader).state = .leader) {stage : Stage N}
    (hb : (s.node c.leader).buildRequest c.peerIdx c.term c.commitIndex = some stage) :
    s.step (.goroutine k) = some (s.setStage k c stage) := by
  simp only [Cluster.step, goroutine, hk, hc, hst, hb, ne_eq, not_true_eq_false, if_false]

theorem step_deliverAppend (hk : s.appendCalls[k]? = some c) {args : AppendEntriesArgs N}
    (hc : c.stage = .sentAppend args) : s.step (.goroutine k) =
      some ((s.setNode c.peer ((s.node c.peer).handleAppendEntries args).1).setStage k c
        (.repliedAppend args ((s.node c.peer).handleAppendEntries args).2)) := by
  simp only [Cluster.step, goroutine, hk, hc]

variable {args : InstallSnapshotArgs N}

section

variable (hk : s.appendCalls[k]? = some c)
include hk

theorem step_deliverSnapshot (hc : c.stage = .sentSnapshot args) :
    s.step (.goroutine k) =
      some ((s.setNode c.peer ((s.node c.peer).handleInstallSnapshot args).1).setStage k c
        (.repliedSnapshot args ((s.node c.peer).handleInstallSnapshot args).2)) := by
  simp only [Cluster.step, goroutine, hk, hc]

theorem step_processAppend {args : AppendEntriesArgs N}
    {reply : AppendEntriesReply} (hc : c.stage = .repliedAppend args reply) :
    s.step (.goroutine k) = some ((s.setNode c.leader
      ((s.node c.leader).processAppendReply c.peerIdx args reply)).endAppendCall k) := by
  simp only [Cluster.step, goroutine, hk, hc]

theorem step_processSnapshot {reply : InstallSnapshotReply}
    (hc : c.stage = .repliedSnapshot args reply) :
    s.step (.goroutine k) = some ((s.setNode c.leader
      ((s.node c.leader).processSnapshotReply c.peerIdx reply)).endAppendCall k) := by
  simp only [Cluster.step, goroutine, hk, hc]

end

theorem step_command {i : Fin N} (hpc : s.pc i = .leading) (hst : (s.node i).state = .leader)
    (cmd : String) : s.step (.command i cmd) = some ((s.setNode i { s.node i with
      log := (s.node i).log ++ [⟨(s.node i).currentTerm, cmd⟩] }).setPc i .broadcast) := by
  simp only [Cluster.step, Cluster.command, hpc, hst, if_true]

theorem step_broadcast {i : Fin N} (hpc : s.pc i = .broadcast) : s.step (.broadcast i) =
    some { s.setPc i .leading with
      appendCalls := s.appendCalls ++ newAppendCalls i (s.node i) } := by
  simp only [Cluster.step, Cluster.broadcast, hpc, newAppendCalls, setPc_appendCalls]

end Enabled

theorem handleAppendEntries_follower {N : Nat} {n : Node N} {args : AppendEntriesArgs N}
    (hst : n.state = .follower) (hterm : n.currentTerm = args.term)
    (hcheck : n.checkPrevLog args.prevLogIndex args.prevLogTerm = none) :
    n.handleAppendEntries args =
      ((n.appendEntries args).followCommit args.leaderCommit, ⟨n.currentTerm, true, 0, 0⟩) := by
  have hsame : { n with state := State.follower } = n := by rw [← hst]
  rw [Node.handleAppendEntries]
  rw [if_neg (by omega), if_neg (by omega)]
  simp only [hsame, Node.replicate, hcheck]

/-! ## Three nodes -/

/-- A cluster of three nodes reaches a state with the nodes `a`, `b` and `c`, the main goroutine of
node 0 at `pc`, and the broadcast goroutines `calls`. -/
def Reaches (pc : Pc 3) (a b c : Node 3) (calls : List (AppendCall 3)) : Prop :=
  ∃ s : Cluster 3, Reachable s ∧ s.pc 0 = pc ∧ s.node 0 = a ∧ s.node 1 = b ∧ s.node 2 = c ∧
    s.appendCalls = calls

namespace Reaches

variable {pc : Pc 3} {a b c : Node 3} {calls : List (AppendCall 3)} {k i ci : Nat} {p : Fin 3}

theorem build (h : Reaches pc a b c calls) (hk : calls[k]? = some ⟨0, i, p, 1, ci, .spawned⟩)
    (hst : a.state = .leader) {stage : Stage 3} (hb : a.buildRequest i 1 ci = some stage) :
    Reaches pc a b c (calls.set k ⟨0, i, p, 1, ci, stage⟩) := by
  obtain ⟨s, hr, hpc, rfl, rfl, rfl, rfl⟩ := h
  exact ⟨_, .step (.goroutine k) hr trivial (step_build hk rfl hst hb), hpc, rfl, rfl, rfl, rfl⟩

variable {args : AppendEntriesArgs 3}

section

variable (h : Reaches pc a b c calls)
include h

theorem deliverAppend_one
    (hk : calls[k]? = some ⟨0, i, 1, 1, ci, .sentAppend args⟩) :
    Reaches pc a (b.handleAppendEntries args).1 c
      (calls.set k ⟨0, i, 1, 1, ci, .repliedAppend args (b.handleAppendEntries args).2⟩) := by
  obtain ⟨s, hr, hpc, rfl, rfl, rfl, rfl⟩ := h
  exact ⟨_, .step (.goroutine k) hr trivial (step_deliverAppend hk rfl), hpc,
    rfl, rfl, rfl, rfl⟩

theorem deliverAppend_two
    (hk : calls[k]? = some ⟨0, i, 2, 1, ci, .sentAppend args⟩) :
    Reaches pc a b (c.handleAppendEntries args).1
      (calls.set k ⟨0, i, 2, 1, ci, .repliedAppend args (c.handleAppendEntries args).2⟩) := by
  obtain ⟨s, hr, hpc, rfl, rfl, rfl, rfl⟩ := h
  exact ⟨_, .step (.goroutine k) hr trivial (step_deliverAppend hk rfl), hpc,
    rfl, rfl, rfl, rfl⟩

theorem deliverSnapshot_one {args : InstallSnapshotArgs 3}
    (hk : calls[k]? = some ⟨0, i, 1, 1, ci, .sentSnapshot args⟩) :
    Reaches pc a (b.handleInstallSnapshot args).1 c
      (calls.set k ⟨0, i, 1, 1, ci, .repliedSnapshot args (b.handleInstallSnapshot args).2⟩) := by
  obtain ⟨s, hr, hpc, rfl, rfl, rfl, rfl⟩ := h
  exact ⟨_, .step (.goroutine k) hr trivial (step_deliverSnapshot hk rfl), hpc,
    rfl, rfl, rfl, rfl⟩

theorem processAppend {reply : AppendEntriesReply}
    (hk : calls[k]? = some ⟨0, i, p, 1, ci, .repliedAppend args reply⟩) :
    Reaches pc (a.processAppendReply i args reply) b c (calls.eraseIdx k) := by
  obtain ⟨s, hr, hpc, rfl, rfl, rfl, rfl⟩ := h
  exact ⟨_, .step (.goroutine k) hr trivial (step_processAppend hk rfl), hpc,
    rfl, rfl, rfl, rfl⟩

theorem processSnapshot {args : InstallSnapshotArgs 3}
    {reply : InstallSnapshotReply}
    (hk : calls[k]? = some ⟨0, i, p, 1, ci, .repliedSnapshot args reply⟩) :
    Reaches pc (a.processSnapshotReply i reply) b c (calls.eraseIdx k) := by
  obtain ⟨s, hr, hpc, rfl, rfl, rfl, rfl⟩ := h
  exact ⟨_, .step (.goroutine k) hr trivial (step_processSnapshot hk rfl), hpc,
    rfl, rfl, rfl, rfl⟩

end

theorem command (h : Reaches .leading a b c calls) (hst : a.state = .leader) (cmd : String) :
    Reaches .broadcast { a with log := a.log ++ [⟨a.currentTerm, cmd⟩] } b c calls := by
  obtain ⟨s, hr, hpc, rfl, rfl, rfl, rfl⟩ := h
  exact ⟨_, .step (.command 0 cmd) hr trivial (step_command hpc hst cmd), rfl,
    rfl, rfl, rfl, rfl⟩

theorem broadcast (h : Reaches .broadcast a b c calls) :
    Reaches .leading a b c (calls ++ newAppendCalls 0 a) := by
  obtain ⟨s, hr, hpc, rfl, rfl, rfl, rfl⟩ := h
  exact ⟨_, .step (.broadcast 0) hr trivial (step_broadcast hpc), rfl, rfl, rfl, rfl,
    rfl⟩

end Reaches

theorem newAppendCalls_zero (n : Node 3) : newAppendCalls 0 n =
    [⟨0, 0, 1, n.currentTerm, n.commitIndex, .spawned⟩,
      ⟨0, 1, 2, n.currentTerm, n.commitIndex, .spawned⟩] := rfl

/-! ## A leader with a long log -/

/-- A node times out, becomes candidate and sends its vote requests. -/
def stand (i : Fin 3) : List (Action 3) :=
  [.dispatch i, .electionTimeout i, .dispatch i, .campaign i]

/-- A goroutine runs from its first section to its last. -/
def exchange (k : Nat) : List (Action 3) := [.goroutine k, .goroutine k, .goroutine k]

/-- Node 0 as leader of term 1. -/
def firstLeader : Node 3 := { newNode 0 with
  currentTerm := 1, votedFor := some 0, state := .leader, nextIndex := [1, 1], ledTerms := [1] }

/-- A node that has voted for node 0 in term 1. -/
def voter (i : Fin 3) : Node 3 := { newNode i with currentTerm := 1, votedFor := some 0 }

/-- The log of `k` entries that change nothing. -/
def fillLog (k : Nat) : List LogEntry := List.replicate k ⟨1, "e"⟩

/-- A voter that holds this log. -/
def filled (i : Fin 3) (k : Nat) : Node 3 := { voter i with log := fillLog k }

/-- A goroutine of node 0 for the peer in slot `i`, spawned in term 1 before anything is committed. -/
def callTo (i : Nat) (p : Fin 3) (stage : Stage 3) : AppendCall 3 := ⟨0, i, p, 1, 0, stage⟩

theorem reaches_elected : Reaches .leading firstLeader (voter 1) (voter 2)
    [callTo 0 1 .spawned, callTo 1 2 .spawned, callTo 0 1 .spawned, callTo 1 2 .spawned] := by
  have h : (exec Cluster.step (newCluster 3) (stand 0 ++ [.voteHandler 0, .voteHandler 1,
      .voteReply 1, .dispatch 0, .broadcast 0, .tick 0, .broadcast 0])).map
        (fun s => (s.pc 0, s.node 0, s.node 1, s.node 2, s.appendCalls)) =
      some (.leading, firstLeader, voter 1, voter 2, [callTo 0 1 .spawned, callTo 1 2 .spawned,
        callTo 0 1 .spawned, callTo 1 2 .spawned]) := by rfl
  obtain ⟨s, hs, hview⟩ := Option.map_eq_some_iff.1 h
  simp only [Prod.mk.injEq] at hview
  exact ⟨s, reachable_of_exec hs, hview⟩

/-- Node 0 as leader of term 1 with the log `E`. -/
def leaderWith (E : List LogEntry) : Node 3 := { firstLeader with log := E }

theorem reaches_filled (k : Nat) : ∃ rest, Reaches .leading (leaderWith (fillLog k)) (voter 1)
    (voter 2) ([callTo 0 1 .spawned, callTo 1 2 .spawned, callTo 0 1 .spawned,
      callTo 1 2 .spawned] ++ rest) := by
  induction k with
  | zero => exact ⟨[], reaches_elected⟩
  | succ k ih =>
    obtain ⟨rest, h⟩ := ih
    have hlog : fillLog (k + 1) = fillLog k ++ [⟨1, "e"⟩] := replicate_succ'
    have hcommand : Reaches .broadcast (leaderWith (fillLog k ++ [⟨1, "e"⟩])) (voter 1) (voter 2) _ :=
      h.command rfl "e"
    have hstep := hcommand.broadcast
    rw [append_assoc, ← hlog] at hstep
    exact ⟨_, hstep⟩

/-! ## Compaction of the whole log -/

theorem replay_fillLog (k : Nat) : replay KV.empty (fillLog k) = KV.empty := by
  induction k with
  | zero => rfl
  | succ k ih => exact ih

theorem length_fillLog (k : Nat) : (fillLog k).length = k := length_replicate

theorem fillLog_getElem? {j k : Nat} (h : j < k) : (fillLog k)[j]? = some ⟨1, "e"⟩ := by
  rw [fillLog, getElem?_replicate, if_pos h]

theorem maybeSnapshot_all {N : Nat} {n : Node N} {e : LogEntry}
    (hlen : snapshotThreshold < n.log.length) (hidx : n.snapshotLastIndex = 0)
    (hci : n.commitIndex = n.log.length) (he : n.log[n.log.length - 1]? = some e) :
    n.maybeSnapshot = { n with
      maps := n.maps ++ [n.readMap n.stateMachine]
      log := []
      snapshotLastIndex := n.commitIndex
      snapshotLastTerm := e.term
      snapshot := some ⟨n.commitIndex, e.term, n.maps.length⟩ } := by
  have hlocal : ((n.commitIndex : Int) - n.snapshotLastIndex - 1).toNat = n.log.length - 1 := by
    omega
  have hrange : ¬ ((n.commitIndex : Int) - n.snapshotLastIndex - 1 < 0 ∨
      (n.commitIndex : Int) - n.snapshotLastIndex - 1 ≥ n.log.length) := by omega
  have hdrop : n.log.drop (n.log.length - 1 + 1) = [] :=
    drop_of_length_le (by omega)
  rw [maybeSnapshot]
  rw [if_neg (by omega)]
  dsimp only
  rw [if_neg hrange, hlocal, he]
  dsimp only
  rw [hdrop]

/-- A leader that has committed and compacted its whole log of `k` entries; its slot for node 1 is at
`m`. -/
structure CompactedLeader (k m : Nat) (n : Node 3) : Prop where
  id : n.id = 0
  currentTerm : n.currentTerm = 1
  state : n.state = .leader
  log : n.log = []
  index : n.snapshotLastIndex = k
  indexTerm : n.snapshotLastTerm = 1
  snapshot : n.snapshot = some ⟨k, 1, 1⟩
  map : n.readMap 1 = KV.empty
  commitIndex : n.commitIndex = k
  nextIndex : n.nextIndex = [m + 1, k + 1]
  matchIndex : n.matchIndex = [m, k]
  committed : ∀ i, 0 < i → i ≤ k → (i, ⟨1, "e"⟩) ∈ n.committed

variable {k : Nat}

theorem compactedLeader (hk : snapshotThreshold < k) : CompactedLeader k 0
    ((leaderWith (fillLog k)).processAppendReply 1 ⟨1, 0, 0, 0, fillLog k, 0⟩ ⟨1, true, 0, 0⟩) := by
  have hpos : 0 < k := by omega
  -- the slot of node 2 is set
  let n : Node 3 := { leaderWith (fillLog k) with nextIndex := [1, k + 1], matchIndex := [0, k] }
  have hrecord : (leaderWith (fillLog k)).recordMatch 1 k = n := by
    have hgt : k > (leaderWith (fillLog k)).matchIndex.getD 1 0 := hpos
    rw [recordMatch]
    simp only [if_pos hgt]
    rfl
  have hview : View n [] (fillLog k) :=
    ⟨rfl, rfl, (Nat.zero_add _).symm, rfl, fun h => h⟩
  have hlen : n.log.length = k := length_fillLog k
  have hlast : n.log[n.log.length - 1]? = some ⟨1, "e"⟩ := by
    rw [hlen]
    exact fillLog_getElem? (by omega)
  -- two of three nodes hold the last entry
  have htarget : n.commitTarget (n.snapshotLastIndex + n.log.length) = some k := by
    obtain ⟨j, rfl⟩ := Nat.exists_eq_succ_of_ne_zero (by omega : k ≠ 0)
    have hentry : n.entryAt (j + 1) = some ⟨1, "e"⟩ := by
      rw [hview.entryAt_eq (Nat.succ_pos j)]
      exact fillLog_getElem? (by omega)
    have hmaj : ((peers n.id).length + 1) / 2 + 1 ≤ n.replicated (j + 1) := by
      have hpeers : (peers n.id).length = 2 := rfl
      have hmatch : n.matchIndex = [0, j + 1] := rfl
      rw [hpeers, replicated, hmatch]
      simp
    rw [hlen, show n.snapshotLastIndex + (j + 1) = j + 1 from Nat.zero_add _, commitTarget,
      if_pos (show n.commitIndex < j + 1 from Nat.succ_pos j), hentry]
    dsimp only
    rw [if_neg (show ¬ (1 : Nat) ≠ n.currentTerm from not_not.2 rfl), if_pos hmaj]
  have hspec := commitTo_spec hview (le_refl 0) rfl (Nat.zero_le k)
    (le_of_eq (length_fillLog k).symm)
  have hprocess : (leaderWith (fillLog k)).processAppendReply 1 ⟨1, 0, 0, 0, fillLog k, 0⟩
      ⟨1, true, 0, 0⟩ = n.advanceCommitIndex := by
    show ((leaderWith (fillLog k)).recordMatch 1 (0 + (fillLog k).length)).advanceCommitIndex = _
    rw [length_fillLog, Nat.zero_add, hrecord]
  rw [hprocess, advanceCommitIndex, htarget]
  dsimp only
  obtain ⟨hlog, hidx, -⟩ := window_eq_iff.1 hspec.window
  obtain ⟨hid, hterm, -, hstate, -⟩ := control_eq_iff.1 hspec.control
  rw [maybeSnapshot_all (by rw [hlog, hlen]; exact hk) hidx (by rw [hlog, hlen, hspec.commitIndex])
    (by rw [hlog]; exact hlast)]
  refine ⟨hid, hterm, hstate, rfl, hspec.commitIndex, rfl, ?_, ?_, hspec.commitIndex,
    applyCommitted_nextIndex _, hspec.matchIndex, fun i h0 hi => ?_⟩
  · show some (Snapshot.mk _ _ _) = _
    rw [hspec.commitIndex, hspec.maps_length]
    rfl
  · -- the copied map is the replay of the whole log
    have hmaps : (n.setCommitIndex k).applyCommitted.maps.length = 1 := hspec.maps_length
    have hlive := hspec.live (show n.stateMachine < n.maps.length from Nat.one_pos)
    have hall : ((fillLog k).drop n.commitIndex).take (k - n.commitIndex) = fillLog k := by
      rw [show n.commitIndex = 0 from rfl, drop_zero, Nat.sub_zero]
      exact take_of_length_le (le_of_eq (length_fillLog k))
    rw [hall] at hlive
    show ((n.setCommitIndex k).applyCommitted.maps ++ [_]).getD 1 KV.empty = _
    rw [getD_eq_getElem?_getD, getElem?_append_right (le_of_eq hmaps), hmaps,
      hspec.stateMachine, hlive]
    exact replay_fillLog k
  · exact (hspec.committed i _).2 (Or.inr ⟨h0, hi, fillLog_getElem? (by omega)⟩)

/-- The request that carries the whole log of the first leader. -/
def firstAppend (k : Nat) : AppendEntriesArgs 3 := ⟨1, 0, 0, 0, fillLog k, 0⟩

theorem buildRequest_first (hk : 0 < k) (i : Nat) (hi : i < 2) :
    (leaderWith (fillLog k)).buildRequest i 1 0 = some (.sentAppend (firstAppend k)) := by
  have hni : (leaderWith (fillLog k)).nextIndex.getD i 0 = 1 := by
    rcases (by omega : i = 0 ∨ i = 1) with rfl | rfl <;> rfl
  have hlen : 0 < (fillLog k).length := by rw [length_fillLog]; exact hk
  rw [buildRequest]
  rw [hni]
  simp only [leaderWith, firstLeader, newNode, buildAppend, firstAppend]
  simp [hlen]

theorem appendFrom_length (log es : List LogEntry) :
    Node.appendFrom log log.length es = log ++ es := by
  cases es with
  | nil => simp [appendFrom]
  | cons e es => simp [appendFrom]

theorem handle_first (i : Fin 3) (k : Nat) : (voter i).handleAppendEntries (firstAppend k) =
    (filled i k, ⟨1, true, 0, 0⟩) := by
  have happend : appendFrom [] 0 (fillLog k) = fillLog k := appendFrom_length [] (fillLog k)
  rw [handleAppendEntries_follower rfl rfl rfl]
  simp [appendEntries, followCommit, filled, voter, newNode, firstAppend, happend]

/-- The snapshot of the compacted leader. -/
def firstSnapshot (k : Nat) : InstallSnapshotArgs 3 := ⟨1, 0, k, 1, ⟨k, 1, KV.empty⟩⟩

variable {n : Node 3}

theorem CompactedLeader.buildRequest (h : CompactedLeader k 0 n) (hk : 0 < k) :
    n.buildRequest 0 1 0 = some (.sentSnapshot (firstSnapshot k)) := by
  have hni : n.nextIndex.getD 0 0 = 1 := by
    rw [h.nextIndex]
    rfl
  unfold Node.buildRequest
  rw [hni, h.index]
  dsimp only
  rw [if_pos (by omega), h.snapshot]
  simp only [Option.map_some, buildSnapshot, marshalSnapshot, h.id, h.index, h.indexTerm,
    h.map]
  rfl

/-- The leader has compacted everything, and a peer that holds nothing is about to receive both the
whole log and the snapshot. -/
theorem reaches_compacted (hk : snapshotThreshold < k) : ∃ a rest, CompactedLeader k 0 a ∧
    Reaches .leading a (voter 1) (filled 2 k)
      ([callTo 0 1 (.sentAppend (firstAppend k)), callTo 0 1 (.sentSnapshot (firstSnapshot k)),
        callTo 1 2 .spawned] ++ rest) := by
  have hpos : 0 < k := by omega
  obtain ⟨rest, h⟩ := reaches_filled k
  -- both requests of the first broadcast carry the whole log
  have h1 := h.build (k := 0) rfl rfl (buildRequest_first hpos 0 (by omega))
  have h2 := h1.build (k := 1) rfl rfl (buildRequest_first hpos 1 (by omega))
  -- node 2 receives it, and its reply makes the leader commit and compact
  have h3 := h2.deliverAppend_two (k := 1) rfl
  rw [handle_first] at h3
  have h4 := h3.processAppend (k := 1) rfl
  have hleader := compactedLeader hk
  -- the second request to node 1 is the snapshot
  have h5 := h4.build (k := 1) rfl hleader.state (hleader.buildRequest hpos)
  exact ⟨_, rest, hleader, h5⟩

theorem CompactedLeader.processSnapshot (h : CompactedLeader k 0 n) :
    CompactedLeader k k (n.processSnapshotReply 0 ⟨1⟩) := by
  have hprocess : n.processSnapshotReply 0 ⟨1⟩ =
      { n with nextIndex := [k + 1, k + 1], matchIndex := [k, k] } := by
    simp [processSnapshotReply, h.currentTerm, h.index, h.nextIndex, h.matchIndex]
  rw [hprocess]
  exact ⟨h.id, h.currentTerm, h.state, h.log, h.index, h.indexTerm, h.snapshot, h.map, h.commitIndex,
    rfl, rfl, h.committed⟩

theorem CompactedLeader.processAppend (h : CompactedLeader k 0 n) (hk : 0 < k) :
    CompactedLeader k k (n.processAppendReply 0 (firstAppend k) ⟨1, true, 0, 0⟩) := by
  let m : Node 3 := { n with nextIndex := [k + 1, k + 1], matchIndex := [k, k] }
  have hrecord : n.recordMatch 0 k = m := by
    simp [recordMatch, h.nextIndex, h.matchIndex, hk, m]
  have htarget : m.commitTarget (m.snapshotLastIndex + m.log.length) = none := by
    have hci : m.commitIndex = k := h.commitIndex
    have hlen : m.snapshotLastIndex + m.log.length = k := by
      rw [show m.log = [] from h.log, show m.snapshotLastIndex = k from h.index]
      rfl
    obtain ⟨j, rfl⟩ := Nat.exists_eq_succ_of_ne_zero (by omega : k ≠ 0)
    rw [hlen, commitTarget, if_neg (by omega)]
  have hprocess : n.processAppendReply 0 (firstAppend k) ⟨1, true, 0, 0⟩ = m := by
    have hadvance : m.advanceCommitIndex = m := by
      rw [advanceCommitIndex, htarget]
    rw [← hadvance, ← hrecord]
    simp [processAppendReply, h.currentTerm, h.state, firstAppend, length_fillLog]
  rw [hprocess]
  exact ⟨h.id, h.currentTerm, h.state, h.log, h.index, h.indexTerm, h.snapshot, h.map, h.commitIndex,
    rfl, rfl, h.committed⟩

/-! ## One more entry -/

/-- The entry after the compacted ones. -/
def nextEntry : LogEntry := ⟨1, "SET x 1"⟩

/-- The request that carries the entry after the compacted ones. -/
def nextAppend (k commitIndex : Nat) : AppendEntriesArgs 3 :=
  ⟨1, 0, k, 1, [nextEntry], commitIndex⟩

/-- A leader that holds one entry above its snapshot. -/
structure NextLeader (k ci : Nat) (n : Node 3) : Prop where
  id : n.id = 0
  currentTerm : n.currentTerm = 1
  state : n.state = .leader
  log : n.log = [nextEntry]
  index : n.snapshotLastIndex = k
  indexTerm : n.snapshotLastTerm = 1
  commitIndex : n.commitIndex = ci
  committed : ∀ i, 0 < i → i ≤ k → (i, ⟨1, "e"⟩) ∈ n.committed

theorem NextLeader.buildRequest {ci i lc : Nat} (h : NextLeader k ci n) (hi : n.nextIndex.getD i 0 = k + 1) :
    n.buildRequest i 1 lc = some (.sentAppend (nextAppend k lc)) := by
  rw [Node.buildRequest]
  rw [hi, h.index, if_neg (by omega)]
  have hrange : 1 ≤ (k : Int) + 1 - k ∧ (k : Int) + 1 - k - 1 < 1 := by omega
  simp [Node.buildAppend, nextAppend, h.id, h.index, h.indexTerm, h.log, hrange]

theorem handle_next (i : Fin 3) (hk : 0 < k) (lc : Nat) :
    (filled i k).handleAppendEntries (nextAppend k lc) =
      (Node.followCommit { voter i with log := fillLog k ++ [nextEntry] } lc, ⟨1, true, 0, 0⟩) := by
  have h0 : (filled i k).snapshotLastIndex = 0 := rfl
  have hcheck : (filled i k).checkPrevLog k 1 = none := by
    have hlast : (filled i k).log[((k : Int) - (filled i k).snapshotLastIndex - 1).toNat]? =
        some ⟨1, "e"⟩ := by
      rw [h0]
      exact fillLog_getElem? (by omega)
    rw [checkPrevLog]
    rw [if_pos hk]
    dsimp only
    rw [if_neg (by omega), if_neg (by omega), hlast]
    rfl
  have happend : (filled i k).appendEntries (nextAppend k lc) =
      { voter i with log := fillLog k ++ [nextEntry] } := by
    have hat : (if (k : Int) - (0 : Nat) < 0 then (0 : Int) else (k : Int) - (0 : Nat)).toNat =
        (fillLog k).length := by
      rw [length_fillLog, if_neg (by omega)]
      omega
    rw [← appendFrom_length, ← hat]
    rfl
  have hhandle := handleAppendEntries_follower (show (filled i k).state = _ from rfl)
    (show (filled i k).currentTerm = (nextAppend k lc).term from rfl) hcheck
  rw [happend] at hhandle
  exact hhandle

theorem CompactedLeader.commitNext (h : CompactedLeader k k n) :
    NextLeader k (k + 1) (Node.processAppendReply { n with log := n.log ++ [⟨n.currentTerm, "SET x 1"⟩] }
        1 (nextAppend k 0) ⟨1, true, 0, 0⟩) ∧
      (Node.processAppendReply { n with log := n.log ++ [⟨n.currentTerm, "SET x 1"⟩] }
        1 (nextAppend k 0) ⟨1, true, 0, 0⟩).nextIndex.getD 0 0 = k + 1 := by
  let m : Node 3 := { n with log := [nextEntry], nextIndex := [k + 1, k + 2], matchIndex := [k, k + 1] }
  have hrecord : recordMatch { n with log := n.log ++ [⟨n.currentTerm, "SET x 1"⟩] } 1 (k + 1) =
      m := by
    simp [recordMatch, h.matchIndex, h.nextIndex, h.log, h.currentTerm, m, nextEntry]
  have hprocess : processAppendReply { n with log := n.log ++ [⟨n.currentTerm, "SET x 1"⟩] }
      1 (nextAppend k 0) ⟨1, true, 0, 0⟩ = m.advanceCommitIndex := by
    rw [← hrecord]
    simp [processAppendReply, h.currentTerm, h.state, nextAppend]
  have htarget : m.commitTarget (m.snapshotLastIndex + m.log.length) = some (k + 1) := by
    have hidx : m.snapshotLastIndex = k := h.index
    have hentry : m.entryAt (k + 1) = some nextEntry := by
      rw [entryAt]
      rw [hidx, if_pos (Nat.lt_succ_self k), Nat.add_sub_cancel_left]
      rfl
    have hterm : ¬ nextEntry.term ≠ m.currentTerm := not_not.2 h.currentTerm.symm
    have hmaj : ((peers m.id).length + 1) / 2 + 1 ≤ m.replicated (k + 1) := by
      have hpeers : (peers m.id).length = 2 := by
        rw [show m.id = 0 from h.id]
        rfl
      have hmatch : m.matchIndex = [k, k + 1] := rfl
      rw [hpeers, replicated, hmatch]
      simp
    have hci : m.commitIndex < k + 1 := by
      rw [show m.commitIndex = k from h.commitIndex]
      omega
    rw [hidx]
    show m.commitTarget (k + 1) = _
    rw [commitTarget, if_pos hci, hentry]
    dsimp only
    rw [if_neg hterm, if_pos hmaj]
  have hadvance : m.advanceCommitIndex = (m.setCommitIndex (k + 1)).applyCommitted := by
    rw [advanceCommitIndex, htarget]
    dsimp only
    rw [maybeSnapshot]
    rw [if_pos]
    rw [(window_eq_iff.1 (applyCommitted_window _)).1]
    exact Nat.le_of_ble_eq_true rfl
  obtain ⟨hlog, hidx, hidxTerm⟩ := window_eq_iff.1 (m.setCommitIndex (k + 1)).applyCommitted_window
  obtain ⟨hid, hterm, -, hstate, -⟩ := control_eq_iff.1 (m.setCommitIndex (k + 1)).applyCommitted_control
  rw [hprocess, hadvance]
  refine ⟨⟨hid.trans h.id, hterm.trans h.currentTerm, hstate.trans h.state, hlog, hidx.trans h.index,
    hidxTerm.trans h.indexTerm, applyCommitted_commitIndex _, fun i h0 hi => ?_⟩, ?_⟩
  · rw [applyCommitted_committed]
    exact mem_append_left _ (h.committed i h0 hi)
  · rw [applyCommitted_nextIndex]
    rfl

/-- The next entry is committed, and a request that carries it with its commit index is on its
way to node 1. -/
theorem reaches_next (hk : 0 < k) {a b : Node 3} {c : AppendCall 3} {rest : List (AppendCall 3)}
    (ha : CompactedLeader k k a) (h : Reaches .leading a b (filled 2 k) (c :: callTo 1 2 .spawned :: rest)) :
    ∃ a' c' calls j, NextLeader k (k + 1) a' ∧ Reaches .leading a' b c' calls ∧
      calls[0]? = some c ∧ 0 < j ∧
      calls[j]? = some ⟨0, 0, 1, 1, k + 1, .sentAppend (nextAppend k (k + 1))⟩ := by
  have h1 := h.command ha.state "SET x 1"
  have hleader : NextLeader k k { a with log := a.log ++ [⟨a.currentTerm, "SET x 1"⟩] } :=
    ⟨ha.id, ha.currentTerm, ha.state, by rw [ha.log, ha.currentTerm]; rfl, ha.index, ha.indexTerm,
      ha.commitIndex, ha.committed⟩
  have hslot : ({ a with log := a.log ++ [⟨a.currentTerm, "SET x 1"⟩] } : Node 3).nextIndex.getD 1 0 =
      k + 1 := by
    show a.nextIndex.getD 1 0 = k + 1
    rw [ha.nextIndex]
    rfl
  have h2 := h1.build (k := 1) rfl ha.state (hleader.buildRequest hslot)
  have h3 := h2.deliverAppend_two (k := 1) rfl
  rw [handle_next 2 hk] at h3
  have h4 : Reaches .broadcast _ b _ (c :: rest) := h3.processAppend (k := 1) rfl
  obtain ⟨hnext, hslot'⟩ := ha.commitNext
  -- the next broadcast captures the new commit index
  have h5 := h4.broadcast
  rw [newAppendCalls_zero, hnext.currentTerm, hnext.commitIndex] at h5
  have hnew : ((c :: rest) ++ [⟨0, 0, 1, 1, k + 1, .spawned⟩, ⟨0, 1, 2, 1, k + 1, .spawned⟩] :
      List (AppendCall 3))[(c :: rest).length]? = some ⟨0, 0, 1, 1, k + 1, .spawned⟩ := by
    rw [getElem?_append_right (le_refl _), Nat.sub_self]
    rfl
  have h6 := h5.build hnew hnext.state (hnext.buildRequest hslot')
  have hset : ((c :: rest) ++ [⟨0, 0, 1, 1, k + 1, .spawned⟩, ⟨0, 1, 2, 1, k + 1, .spawned⟩] :
      List (AppendCall 3)).set (c :: rest).length
        ⟨0, 0, 1, 1, k + 1, .sentAppend (nextAppend k (k + 1))⟩ =
      (c :: rest) ++ [⟨0, 0, 1, 1, k + 1, .sentAppend (nextAppend k (k + 1))⟩,
        ⟨0, 1, 2, 1, k + 1, .spawned⟩] := by
    rw [set_append_right _ _ (le_refl _), Nat.sub_self]
    rfl
  rw [hset] at h6
  refine ⟨_, _, _, (c :: rest).length, hnext, h6, rfl, Nat.succ_pos _, ?_⟩
  rw [getElem?_append_right (le_refl _), Nat.sub_self]
  rfl

/-! ## A peer with the snapshot -/

/-- Node 1 once it has installed the first snapshot: snapshot and live map are one object. -/
def installed (k : Nat) : Node 3 := { voter 1 with
  snapshot := some ⟨k, 1, 1⟩, snapshotLastIndex := k, snapshotLastTerm := 1, stateMachine := 1
  maps := [KV.empty, KV.empty], commitIndex := k, lastApplied := k
  applyCh := [.snapshot ⟨k, 1, KV.empty⟩ k 1] }

theorem handle_firstSnapshot (hk : 0 < k) :
    (voter 1).handleInstallSnapshot (firstSnapshot k) = (installed k, ⟨1⟩) := by
  have hnew : ¬ k ≤ 0 := by omega
  simp [handleInstallSnapshot, installSnapshot, firstSnapshot, installed, voter, newNode,
    hnew]

theorem handle_first_installed (hk : 0 < k) :
    (installed k).handleAppendEntries (firstAppend k) =
      ({ installed k with log := fillLog k }, ⟨1, true, 0, 0⟩) := by
  have happend : appendFrom [] 0 (fillLog k) = fillLog k := appendFrom_length [] (fillLog k)
  rw [handleAppendEntries_follower rfl rfl rfl]
  simp [appendEntries, followCommit, installed, voter, newNode, firstAppend, happend, hk]

theorem handle_next_installed (hk : 0 < k) :
    ∃ n, (installed k).handleAppendEntries (nextAppend k (k + 1)) = (n, ⟨1, true, 0, 0⟩) ∧
      n.snapshot = some ⟨k, 1, 1⟩ ∧ n.readMap 1 = KV.empty.set "x" "1" := by
  have hcheck : (installed k).checkPrevLog k 1 = none := by
    have hidx : (installed k).snapshotLastIndex = k := rfl
    rw [checkPrevLog]
    rw [if_pos hk]
    dsimp only
    rw [if_neg (by omega), if_pos (by omega)]
    rfl
  have happend : (installed k).appendEntries (nextAppend k (k + 1)) =
      { installed k with log := [nextEntry] } := by
    simp [appendEntries, appendFrom, installed, voter, newNode, nextAppend]
  have hhandle := handleAppendEntries_follower (show (installed k).state = _ from rfl)
    (show (installed k).currentTerm = (nextAppend k (k + 1)).term from rfl) hcheck
  rw [happend] at hhandle
  have hdrop : (fillLog k ++ [nextEntry]).drop k = [nextEntry] := by
    rw [drop_append_of_le_length (le_of_eq (length_fillLog k).symm),
      drop_of_length_le (le_of_eq (length_fillLog k))]
    rfl
  have hlen : (fillLog k ++ [nextEntry]).length = k + 1 := by
    rw [length_append, length_fillLog]
    rfl
  have hview : View { installed k with log := [nextEntry] } (fillLog k)
      (fillLog k ++ [nextEntry]) := by
    refine ⟨length_fillLog k, ?_, hlen, hdrop, fun h => absurd h (by simp)⟩
    obtain ⟨j, rfl⟩ := Nat.exists_eq_succ_of_ne_zero (by omega : k ≠ 0)
    rw [lastTerm, length_fillLog]
    have hterm : termAt tm (fillLog (j + 1)) (j + 1) = 1 :=
      termAt_of_getElem? (fillLog_getElem? (Nat.lt_succ_self j))
    exact hterm.symm
  have hle : ({ installed k with log := [nextEntry] } : Node 3).commitIndex < k + 1 →
      k + 1 ≤ (fillLog k ++ [nextEntry]).length := fun _ => le_of_eq hlen.symm
  rcases followCommit_spec hview (le_refl k) rfl hle with ⟨hge, -⟩ | ⟨-, hspec⟩
  · exact absurd hge (Nat.not_succ_le_self k)
  · refine ⟨_, hhandle, hspec.snapshot, ?_⟩
    have hlive := hspec.live (show 1 < 2 from Nat.one_lt_two)
    have htake : ((fillLog k ++ [nextEntry]).drop
        ({ installed k with log := [nextEntry] } : Node 3).commitIndex).take
          (k + 1 - ({ installed k with log := [nextEntry] } : Node 3).commitIndex) = [nextEntry] := by
      show ((fillLog k ++ [nextEntry]).drop k).take (k + 1 - k) = _
      rw [hdrop, Nat.add_sub_cancel_left]
      rfl
    rw [htake] at hlive
    exact hlive

end SystemDesignLabs.Raft
