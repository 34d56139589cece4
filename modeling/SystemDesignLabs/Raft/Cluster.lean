import SystemDesignLabs.Core.TransitionSystem
import SystemDesignLabs.Raft.Node

/-!
# The cluster as a transition system

A cluster of `N` nodes, the position of each node's main goroutine (`run`), and the goroutines that
`runCandidate` and `broadcastAppendEntries` have spawned and that have not ended. One `Action` is one
mutex-held section, or a handler call at a peer, which is such a section of the peer. The scheduler
is arbitrary: any enabled action may be next, so timers fire at any moment and goroutines, requests
and replies are delayed without bound.

The side conditions at the end name the steps at which the source departs from the protocol:
`StaleBuild`, `StaleSuccess`, `BelowSnapshot`, `StaleInstallReply`, `RegressingInstall` and
`AppliesShared`.
-/

namespace SystemDesignLabs.Raft

/-- For the numerals of the nodes of a cluster of three. -/
instance neZero_three : NeZero 3 := ⟨by decide⟩

variable {N : Nat}

/-! ## Goroutines -/

/-- Where the main goroutine of a node stands. -/
inductive Pc (N : Nat) where
  /-- At the top of the loop of `run`. -/
  | run
  /-- Waiting in `runFollower`. -/
  | follower
  /-- At the start of `runCandidate`. -/
  | campaign
  /-- In the vote loop of `runCandidate` for the given term; `granted` lists the peers whose granted
  votes were counted, so that the source's `votes` is `granted.length + 1`. -/
  | votes (term : Nat) (granted : List (Fin N))
  /-- About to run `broadcastAppendEntries`. -/
  | broadcast
  /-- In the loop of `runLeader`. -/
  | leading
  deriving DecidableEq

/-- A goroutine of `runCandidate`: the call of `HandleRequestVote` at `peer`, and the reply once the
handler has run. It sends to the channel of the election in `args.term`. -/
structure VoteCall (N : Nat) where
  peer : Fin N
  args : RequestVoteArgs N
  reply : Option RequestVoteReply

/-- How far a goroutine of `broadcastAppendEntries` has come. -/
inductive Stage (N : Nat) where
  /-- Spawned; the request is not built yet. -/
  | spawned
  | sentAppend (args : AppendEntriesArgs N)
  | repliedAppend (args : AppendEntriesArgs N) (reply : AppendEntriesReply)
  | sentSnapshot (args : InstallSnapshotArgs N)
  | repliedSnapshot (args : InstallSnapshotArgs N) (reply : InstallSnapshotReply)

/-- A goroutine of `broadcastAppendEntries` with the values it captured. -/
structure AppendCall (N : Nat) where
  leader : Fin N
  peerIdx : Nat
  peer : Fin N
  term : Nat
  commitIndex : Nat
  stage : Stage N

/-- The state of the whole cluster. -/
structure Cluster (N : Nat) where
  node : Fin N → Node N
  pc : Fin N → Pc N
  voteCalls : List (VoteCall N)
  appendCalls : List (AppendCall N)

def newCluster (N : Nat) : Cluster N where
  node := newNode
  pc := fun _ => .run
  voteCalls := []
  appendCalls := []

namespace Cluster

/-- Replace one node. -/
def setNode (s : Cluster N) (i : Fin N) (n : Node N) : Cluster N :=
  { s with node := Function.update s.node i n }

/-- Move the main goroutine of one node. -/
def setPc (s : Cluster N) (i : Fin N) (pc : Pc N) : Cluster N :=
  { s with pc := Function.update s.pc i pc }

/-- Replace the `k`-th vote goroutine. -/
def setVoteCall (s : Cluster N) (k : Nat) (c : VoteCall N) : Cluster N :=
  { s with voteCalls := s.voteCalls.set k c }

/-- End the `k`-th vote goroutine. -/
def endVoteCall (s : Cluster N) (k : Nat) : Cluster N :=
  { s with voteCalls := s.voteCalls.eraseIdx k }

/-- Move the `k`-th broadcast goroutine to a new stage. -/
def setStage (s : Cluster N) (k : Nat) (c : AppendCall N) (stage : Stage N) : Cluster N :=
  { s with appendCalls := s.appendCalls.set k { c with stage := stage } }

/-- End the `k`-th broadcast goroutine. -/
def endAppendCall (s : Cluster N) (k : Nat) : Cluster N :=
  { s with appendCalls := s.appendCalls.eraseIdx k }

end Cluster

/-! ## Building requests and processing replies -/

namespace Node

/-- The AppendEntries request of `broadcastAppendEntries` for `nextIndex` value `ni`, with the term
and the commit index the goroutine captured. -/
def buildAppend (n : Node N) (ni term commitIndex : Nat) : AppendEntriesArgs N :=
  let prevLogIndex := ni - 1
  let prevLogTerm :=
    if prevLogIndex > n.snapshotLastIndex then
      ((n.log[prevLogIndex - n.snapshotLastIndex - 1]?).map LogEntry.term).getD 0
    else if prevLogIndex = n.snapshotLastIndex then n.snapshotLastTerm
    else 0
  let localStart : Int := ni - n.snapshotLastIndex - 1
  let entries := if localStart ≥ 0 ∧ localStart < n.log.length then n.log.drop localStart.toNat
    else []
  ⟨term, n.id, prevLogIndex, prevLogTerm, entries, commitIndex⟩

/-- The InstallSnapshot request of `broadcastAppendEntries`. -/
def buildSnapshot (n : Node N) (snap : Snapshot) (term : Nat) : InstallSnapshotArgs N :=
  ⟨term, n.id, n.snapshotLastIndex, n.snapshotLastTerm, n.marshalSnapshot snap⟩

/-- The request a goroutine builds once it has seen that the node is leader: `none` ends it. -/
def buildRequest (n : Node N) (peerIdx term commitIndex : Nat) : Option (Stage N) :=
  let ni := n.nextIndex.getD peerIdx 0
  if ni ≤ n.snapshotLastIndex then
    n.snapshot.map fun snap => .sentSnapshot (n.buildSnapshot snap term)
  else some (.sentAppend (n.buildAppend ni term commitIndex))

/-- A successful AppendEntries reply for a request that ended at `newMatch`. -/
def recordMatch (n : Node N) (peerIdx newMatch : Nat) : Node N :=
  let matchIndex := if newMatch > n.matchIndex.getD peerIdx 0 then n.matchIndex.set peerIdx newMatch
    else n.matchIndex
  { n with
    matchIndex := matchIndex
    nextIndex := n.nextIndex.set peerIdx (matchIndex.getD peerIdx 0 + 1) }

/-- A rejected AppendEntries reply. -/
def backOff (n : Node N) (peerIdx conflictIndex : Nat) : Node N :=
  if conflictIndex > 0 then { n with nextIndex := n.nextIndex.set peerIdx conflictIndex }
  else if n.nextIndex.getD peerIdx 0 > 1 then
    { n with nextIndex := n.nextIndex.set peerIdx (n.nextIndex.getD peerIdx 0 - 1) }
  else n

/-- The processing of an AppendEntries reply. -/
def processAppendReply (n : Node N) (peerIdx : Nat) (args : AppendEntriesArgs N)
    (reply : AppendEntriesReply) : Node N :=
  if reply.term > n.currentTerm then n.stepDown reply.term
  else if n.state ≠ .leader then n
  else if reply.success then
    (n.recordMatch peerIdx (args.prevLogIndex + args.entries.length)).advanceCommitIndex
  else n.backOff peerIdx reply.conflictIndex

/-- The processing of an InstallSnapshot reply. -/
def processSnapshotReply (n : Node N) (peerIdx : Nat) (reply : InstallSnapshotReply) : Node N :=
  if reply.term > n.currentTerm then n.stepDown reply.term
  else
    { n with
      nextIndex := n.nextIndex.set peerIdx (n.snapshotLastIndex + 1)
      matchIndex := n.matchIndex.set peerIdx n.snapshotLastIndex }

end Node

/-! ## Actions -/

/-- One atomic section. -/
inductive Action (N : Nat) where
  /-- `run` reads the role and enters the function for it. -/
  | dispatch (i : Fin N)
  /-- The timer of `runFollower` fires. -/
  | electionTimeout (i : Fin N)
  /-- The first section of `runCandidate`, and the spawning of its vote goroutines. -/
  | campaign (i : Fin N)
  /-- The `k`-th vote goroutine runs `HandleRequestVote` at its peer. -/
  | voteHandler (k : Nat)
  /-- The vote loop receives the reply of the `k`-th vote goroutine. -/
  | voteReply (k : Nat)
  /-- The timer of the vote loop fires. -/
  | voteTimeout (i : Fin N)
  /-- The ticker of `runLeader` fires. -/
  | tick (i : Fin N)
  /-- `runLeader` receives a command. -/
  | command (i : Fin N) (cmd : String)
  /-- The capturing section of `broadcastAppendEntries`, and the spawning of its goroutines. -/
  | broadcast (i : Fin N)
  /-- The `k`-th broadcast goroutine takes its next section. -/
  | goroutine (k : Nat)

namespace Cluster

def dispatch (s : Cluster N) (i : Fin N) : Option (Cluster N) :=
  match s.pc i with
  | .run =>
    match (s.node i).state with
    | .follower => some (s.setPc i .follower)
    | .candidate => some (s.setPc i .campaign)
    | .leader => some (s.setPc i .broadcast)
  | _ => none

def electionTimeout (s : Cluster N) (i : Fin N) : Option (Cluster N) :=
  match s.pc i with
  | .follower => some ((s.setNode i { s.node i with state := .candidate }).setPc i .run)
  | _ => none

def campaign (s : Cluster N) (i : Fin N) : Option (Cluster N) :=
  match s.pc i with
  | .campaign =>
    let n := (s.node i).startElection
    let args : RequestVoteArgs N := ⟨n.currentTerm, i, n.lastLogInfo.1, n.lastLogInfo.2⟩
    let s := (s.setNode i n).setPc i (.votes n.currentTerm [])
    some { s with voteCalls := s.voteCalls ++ (peers i).map fun p => ⟨p, args, none⟩ }
  | _ => none

def voteHandler (s : Cluster N) (k : Nat) : Option (Cluster N) :=
  match s.voteCalls[k]? with
  | some ⟨p, args, none⟩ =>
    let r := (s.node p).handleRequestVote args
    some ((s.setNode p r.1).setVoteCall k ⟨p, args, some r.2⟩)
  | _ => none

def voteReply (s : Cluster N) (k : Nat) : Option (Cluster N) :=
  match s.voteCalls[k]? with
  | some ⟨p, args, some reply⟩ =>
    let i := args.candidateID
    match s.pc i with
    | .votes term granted =>
      if args.term = term then
        let s := s.endVoteCall k
        if reply.term > (s.node i).currentTerm then
          some ((s.setNode i ((s.node i).stepDown reply.term)).setPc i .run)
        else if reply.voteGranted ∧ (s.node i).state = .candidate then
          if (granted.length + 1) + 1 ≥ ((peers i).length + 1) / 2 + 1 then
            some ((s.setNode i (s.node i).becomeLeader).setPc i .run)
          else some (s.setPc i (.votes term (p :: granted)))
        else some s
      else none
    | _ => none
  | _ => none

def voteTimeout (s : Cluster N) (i : Fin N) : Option (Cluster N) :=
  match s.pc i with
  | .votes _ _ => some (s.setPc i .run)
  | _ => none

def tick (s : Cluster N) (i : Fin N) : Option (Cluster N) :=
  match s.pc i with
  | .leading => some (s.setPc i (if (s.node i).state = .leader then .broadcast else .run))
  | _ => none

def command (s : Cluster N) (i : Fin N) (cmd : String) : Option (Cluster N) :=
  match s.pc i with
  | .leading =>
    let n := s.node i
    if n.state = .leader then
      some ((s.setNode i { n with log := n.log ++ [⟨n.currentTerm, cmd⟩] }).setPc i .broadcast)
    else some (s.setPc i .run)
  | _ => none

def broadcast (s : Cluster N) (i : Fin N) : Option (Cluster N) :=
  match s.pc i with
  | .broadcast =>
    let n := s.node i
    let s := s.setPc i .leading
    some { s with
      appendCalls := s.appendCalls ++ (peers i).zipIdx.map fun p =>
        ⟨i, p.2, p.1, n.currentTerm, n.commitIndex, .spawned⟩ }
  | _ => none

def goroutine (s : Cluster N) (k : Nat) : Option (Cluster N) :=
  match s.appendCalls[k]? with
  | none => none
  | some c =>
    match c.stage with
    | .spawned =>
      if (s.node c.leader).state ≠ .leader then some (s.endAppendCall k)
      else
        match (s.node c.leader).buildRequest c.peerIdx c.term c.commitIndex with
        | none => some (s.endAppendCall k)
        | some stage => some (s.setStage k c stage)
    | .sentAppend args =>
      let r := (s.node c.peer).handleAppendEntries args
      some ((s.setNode c.peer r.1).setStage k c (.repliedAppend args r.2))
    | .sentSnapshot args =>
      let r := (s.node c.peer).handleInstallSnapshot args
      some ((s.setNode c.peer r.1).setStage k c (.repliedSnapshot args r.2))
    | .repliedAppend args reply =>
      some ((s.setNode c.leader ((s.node c.leader).processAppendReply c.peerIdx args reply)).endAppendCall k)
    | .repliedSnapshot _ reply =>
      some ((s.setNode c.leader ((s.node c.leader).processSnapshotReply c.peerIdx reply)).endAppendCall k)

/-- The atomic steps of the cluster. -/
def step (s : Cluster N) : Action N → Option (Cluster N)
  | .dispatch i => s.dispatch i
  | .electionTimeout i => s.electionTimeout i
  | .campaign i => s.campaign i
  | .voteHandler k => s.voteHandler k
  | .voteReply k => s.voteReply k
  | .voteTimeout i => s.voteTimeout i
  | .tick i => s.tick i
  | .command i cmd => s.command i cmd
  | .broadcast i => s.broadcast i
  | .goroutine k => s.goroutine k

end Cluster

/-- The cluster states reached by any interleaving. -/
abbrev Reachable (s : Cluster N) : Prop := Core.Reachable Cluster.step (newCluster N) s

/-- The cluster states reached by interleavings whose steps all meet `ok`. -/
abbrev ReachableIf (ok : Cluster N → Action N → Prop) (s : Cluster N) : Prop :=
  Core.ReachableIf Cluster.step ok (newCluster N) s

/-! ## Steps at which the code departs from the protocol -/

/-- A broadcast goroutine builds its request in another term than the one it captured. -/
def StaleBuild (s : Cluster N) : Action N → Prop
  | .goroutine k => ∃ c ∈ s.appendCalls[k]?, c.stage = .spawned ∧
      (s.node c.leader).state = .leader ∧ c.term ≠ (s.node c.leader).currentTerm
  | _ => False

/-- A leader counts a successful AppendEntries reply to a request of another term. -/
def StaleSuccess (s : Cluster N) : Action N → Prop
  | .goroutine k => ∃ c ∈ s.appendCalls[k]?, ∃ args reply, c.stage = .repliedAppend args reply ∧
      reply.success = true ∧ reply.term ≤ (s.node c.leader).currentTerm ∧
      (s.node c.leader).state = .leader ∧ c.term ≠ (s.node c.leader).currentTerm
  | _ => False

/-- A node handles a non-empty AppendEntries whose `PrevLogIndex` lies inside its snapshot. -/
def BelowSnapshot (s : Cluster N) : Action N → Prop
  | .goroutine k => ∃ c ∈ s.appendCalls[k]?, ∃ args, c.stage = .sentAppend args ∧
      (s.node c.peer).currentTerm ≤ args.term ∧ args.entries ≠ [] ∧
      args.prevLogIndex < (s.node c.peer).snapshotLastIndex
  | _ => False

/-- A leader processes an InstallSnapshot reply to a request of another term, or to a snapshot
older than its present one. -/
def StaleInstallReply (s : Cluster N) : Action N → Prop
  | .goroutine k => ∃ c ∈ s.appendCalls[k]?, ∃ args reply, c.stage = .repliedSnapshot args reply ∧
      reply.term ≤ (s.node c.leader).currentTerm ∧ (s.node c.leader).state = .leader ∧
      (c.term ≠ (s.node c.leader).currentTerm ∨
        args.lastIncludedIndex ≠ (s.node c.leader).snapshotLastIndex)
  | _ => False

/-- A node installs a snapshot older than its own `commitIndex`. -/
def RegressingInstall (s : Cluster N) : Action N → Prop
  | .goroutine k => ∃ c ∈ s.appendCalls[k]?, ∃ args, c.stage = .sentSnapshot args ∧
      (s.node c.peer).currentTerm ≤ args.term ∧
      (s.node c.peer).snapshotLastIndex < args.lastIncludedIndex ∧
      args.lastIncludedIndex < (s.node c.peer).commitIndex
  | _ => False

/-- The live map of a node is the map its snapshot holds. -/
def Node.Shared (n : Node N) : Prop := ∃ snap ∈ n.snapshot, snap.stateMachine = n.stateMachine

/-- A node applies entries while its live map is the map its snapshot holds. -/
def AppliesShared (s : Cluster N) : Action N → Prop
  | .goroutine k => ∃ c ∈ s.appendCalls[k]?,
      (∃ args, c.stage = .sentAppend args ∧ (s.node c.peer).Shared ∧
        (s.node c.peer).currentTerm ≤ args.term ∧
        (s.node c.peer).checkPrevLog args.prevLogIndex args.prevLogTerm = none ∧
        (s.node c.peer).commitIndex < args.leaderCommit ∧
        (s.node c.peer).commitIndex <
          (s.node c.peer).snapshotLastIndex + ((s.node c.peer).appendEntries args).log.length) ∨
      (∃ args reply, c.stage = .repliedAppend args reply ∧ (s.node c.leader).Shared ∧
        reply.success = true ∧ reply.term ≤ (s.node c.leader).currentTerm ∧
        (s.node c.leader).state = .leader ∧
        ∃ idx, ((s.node c.leader).recordMatch c.peerIdx
          (args.prevLogIndex + args.entries.length)).commitTarget
            ((s.node c.leader).snapshotLastIndex + (s.node c.leader).log.length) = some idx)
  | _ => False

/-- The step keeps to the terms and positions its messages were built for. -/
def Sound (s : Cluster N) (a : Action N) : Prop :=
  ¬ StaleBuild s a ∧ ¬ StaleSuccess s a ∧ ¬ BelowSnapshot s a

end SystemDesignLabs.Raft
