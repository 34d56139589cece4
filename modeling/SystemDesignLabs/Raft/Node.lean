import Mathlib

/-!
# A Raft node and its atomic sections

The node of `labs/raft/pkg/raft/raft.go` and the functions that run while its mutex is held:
`HandleRequestVote`, `HandleAppendEntries`, `HandleInstallSnapshot`, `becomeLeader`,
`advanceCommitIndex`, `applyCommitted`, `maybeSnapshot` and `lastLogInfo`, each as a function from
the node before the section to the node after it.

Terms and indices are `int`s that only ever grow by one or are copied between nodes, and are natural
numbers here; differences that the source lets go negative (`localIdx`, `insertAt`) are integers.
Log indices are absolute and start at `1`; the slice `log` holds the entries above
`snapshotLastIndex`. A Go map is a reference: `stateMachine` and `snapshot.stateMachine` are indices
into `maps`, the map objects of the node, so that two fields which hold the same map are updated
together. A JSON-encoded snapshot is its decoded contents (`SnapshotData`): encoding copies the map
out, decoding allocates a new one.

Two fields are history and not in the source: `ledTerms` lists the terms in which the node ran
`becomeLeader`, and `committed` lists the entries it held, with their absolute indices, at the
moments when it advanced `commitIndex` over them. `applyCh` keeps every message offered to the
channel, whether or not the channel had room for it. Timers and the `resetTimer` channel are left
out, since a timer may fire at any moment in the model.
-/

namespace SystemDesignLabs.Raft

/-! ## Data -/

/-- The compaction threshold of the source. -/
def snapshotThreshold : Nat := 1000

/-- The role of a node. -/
inductive State where
  | follower
  | candidate
  | leader
  deriving DecidableEq, Repr

/-- One entry of the replicated log. -/
structure LogEntry where
  term : Nat
  command : String
  deriving DecidableEq, Repr

/-- The contents of a `map[string]string`. -/
abbrev KV := String → Option String

/-- The empty map. -/
def KV.empty : KV := fun _ => none

/-- Assignment `m[key] = val`. -/
def KV.set (m : KV) (key val : String) : KV := fun k => if k = key then some val else m k

/-- `delete(m, key)`. -/
def KV.delete (m : KV) (key : String) : KV := fun k => if k = key then none else m k

/-- A snapshot held by a node; `stateMachine` refers to one of the node's map objects. -/
structure Snapshot where
  lastIncludedIndex : Nat
  lastIncludedTerm : Nat
  stateMachine : Nat

/-- The decoded contents of a JSON-encoded snapshot. -/
structure SnapshotData where
  lastIncludedIndex : Nat
  lastIncludedTerm : Nat
  stateMachine : KV

/-- A message offered to `applyCh`. -/
inductive ApplyMsg where
  | command (command : String) (commandIndex : Nat)
  | snapshot (snapshot : SnapshotData) (snapshotIndex snapshotTerm : Nat)

variable {N : Nat}

structure RequestVoteArgs (N : Nat) where
  term : Nat
  candidateID : Fin N
  lastLogIndex : Nat
  lastLogTerm : Nat

structure RequestVoteReply where
  term : Nat
  voteGranted : Bool

structure AppendEntriesArgs (N : Nat) where
  term : Nat
  leaderID : Fin N
  prevLogIndex : Nat
  prevLogTerm : Nat
  entries : List LogEntry
  leaderCommit : Nat

structure AppendEntriesReply where
  term : Nat
  success : Bool
  conflictIndex : Nat
  conflictTerm : Nat

structure InstallSnapshotArgs (N : Nat) where
  term : Nat
  leaderID : Fin N
  lastIncludedIndex : Nat
  lastIncludedTerm : Nat
  data : SnapshotData

structure InstallSnapshotReply where
  term : Nat

/-- A Raft participant. -/
structure Node (N : Nat) where
  id : Fin N
  currentTerm : Nat
  /-- `none` is the source's `-1`. -/
  votedFor : Option (Fin N)
  log : List LogEntry
  snapshot : Option Snapshot
  snapshotLastIndex : Nat
  snapshotLastTerm : Nat
  state : State
  commitIndex : Nat
  lastApplied : Nat
  /-- One slot for each peer, in the order of `peers`. -/
  nextIndex : List Nat
  matchIndex : List Nat
  stateMachine : Nat
  maps : List KV
  applyCh : List ApplyMsg
  /-- History: the terms in which this node ran `becomeLeader`. -/
  ledTerms : List Nat
  /-- History: the entries held when `commitIndex` advanced over them. -/
  committed : List (Nat × LogEntry)

/-- The other nodes of the cluster, in the order `NewCluster` wires them. -/
def peers (id : Fin N) : List (Fin N) := (List.finRange N).filter (· ≠ id)

/-- `NewNode` followed by `SetPeers`. -/
def newNode (id : Fin N) : Node N where
  id := id
  currentTerm := 0
  votedFor := none
  log := []
  snapshot := none
  snapshotLastIndex := 0
  snapshotLastTerm := 0
  state := .follower
  commitIndex := 0
  lastApplied := 0
  nextIndex := (peers id).map fun _ => 0
  matchIndex := (peers id).map fun _ => 0
  stateMachine := 0
  maps := [KV.empty]
  applyCh := []
  ledTerms := []
  committed := []

/-! ## The key/value state machine -/

/-- The loop of `splitCommand`: `start` is the word being read, `result` the parts already cut. -/
def splitLoop : List Char → Option (List Char) → List String → List String
  | [], start, result =>
    match start with
    | none => result
    | some word => result ++ [String.ofList word]
  | ch :: rest, start, result =>
    if ch = ' ' ∨ ch = '\t' then
      match start with
      | none => splitLoop rest none result
      | some word =>
        if (result ++ [String.ofList word]).length = 2 then
          -- the third part may contain blanks: it is the rest of the command
          if rest = [] then result ++ [String.ofList word]
          else result ++ [String.ofList word, String.ofList rest]
        else splitLoop rest none (result ++ [String.ofList word])
    else splitLoop rest (some (start.getD [] ++ [ch])) result

/-- Split a command into at most three parts. -/
def splitCommand (cmd : String) : List String := splitLoop cmd.toList none []

/-- The effect of one command on a map: `SET key value` and `DEL key`, anything else is ignored. -/
def applyCommand (m : KV) (cmd : String) : KV :=
  match splitCommand cmd with
  | [] => m
  | op :: rest =>
    let key := rest.headD ""
    let val := (rest.drop 1).headD ""
    if op = "SET" then (if key ≠ "" then m.set key val else m)
    else if op = "DEL" then m.delete key
    else m

namespace Node

/-- The contents of a map object. -/
def readMap (n : Node N) (ref : Nat) : KV := n.maps.getD ref KV.empty

/-- `applyToStateMachine`: the map that `stateMachine` refers to is updated in place. -/
def applyToStateMachine (n : Node N) (cmd : String) : Node N :=
  { n with maps := n.maps.set n.stateMachine (applyCommand (n.readMap n.stateMachine) cmd) }

/-- The term of the last log entry and its absolute index. -/
def lastLogInfo (n : Node N) : Nat × Nat :=
  match n.log.getLast? with
  | none => (n.snapshotLastIndex, n.snapshotLastTerm)
  | some e => (n.snapshotLastIndex + n.log.length, e.term)

/-- The entry held at an absolute index. -/
def entryAt (n : Node N) (idx : Nat) : Option LogEntry :=
  if n.snapshotLastIndex < idx then n.log[idx - n.snapshotLastIndex - 1]? else none

/-! ## Committing and applying -/

/-- The body of the loop in `applyCommitted`. -/
def applyNext (n : Node N) : Node N :=
  let n := { n with lastApplied := n.lastApplied + 1 }
  let localIdx : Int := n.lastApplied - n.snapshotLastIndex - 1
  if localIdx < 0 ∨ localIdx ≥ n.log.length then n
  else
    match n.log[localIdx.toNat]? with
    | none => n
    | some entry =>
      let n := n.applyToStateMachine entry.command
      { n with applyCh := n.applyCh ++ [.command entry.command n.lastApplied] }

/-- The loop of `applyCommitted`, run a given number of times. -/
def applyLoop : Nat → Node N → Node N
  | 0, n => n
  | k + 1, n => applyLoop k n.applyNext

/-- Apply all newly committed entries. -/
def applyCommitted (n : Node N) : Node N := applyLoop (n.commitIndex - n.lastApplied) n

/-- The assignment `n.commitIndex = idx`; an advance is recorded in the history. -/
def setCommitIndex (n : Node N) (idx : Nat) : Node N :=
  { n with
    commitIndex := idx
    committed := n.committed ++ (List.range' (n.commitIndex + 1) (idx - n.commitIndex)).filterMap
      fun i => (n.entryAt i).map fun e => (i, e) }

/-- `maybeSnapshot`: compact the log up to `commitIndex` once it has grown past the threshold. -/
def maybeSnapshot (n : Node N) : Node N :=
  if n.log.length ≤ snapshotThreshold then n
  else
    let commitLocal : Int := n.commitIndex - n.snapshotLastIndex - 1
    if commitLocal < 0 ∨ commitLocal ≥ n.log.length then n
    else
      match n.log[commitLocal.toNat]? with
      | none => n
      | some e =>
        -- the map is copied into a new object
        let sm := n.maps.length
        let maps := n.maps ++ [n.readMap n.stateMachine]
        { n with
          maps := maps
          log := n.log.drop (commitLocal.toNat + 1)
          snapshotLastIndex := n.commitIndex
          snapshotLastTerm := e.term
          snapshot := some ⟨n.commitIndex, e.term, sm⟩ }

/-- The number of nodes known to hold the log up to `idx`, the leader included. -/
def replicated (n : Node N) (idx : Nat) : Nat := 1 + n.matchIndex.countP (idx ≤ ·)

/-- The search of `advanceCommitIndex`, from `idx` downwards: the highest index above `commitIndex`
whose entry has the current term and is held by a majority. -/
def commitTarget (n : Node N) : Nat → Option Nat
  | 0 => none
  | idx + 1 =>
    if n.commitIndex < idx + 1 then
      match n.entryAt (idx + 1) with
      | none => n.commitTarget idx
      | some e =>
        if e.term ≠ n.currentTerm then n.commitTarget idx
        else if ((peers n.id).length + 1) / 2 + 1 ≤ n.replicated (idx + 1) then some (idx + 1)
        else n.commitTarget idx
    else none

/-- Advance `commitIndex` to the highest index replicated on a majority. -/
def advanceCommitIndex (n : Node N) : Node N :=
  match n.commitTarget (n.snapshotLastIndex + n.log.length) with
  | none => n
  | some idx => (n.setCommitIndex idx).applyCommitted.maybeSnapshot

/-! ## Elections -/

/-- The node adopts a higher term that it saw in a reply. -/
def stepDown (n : Node N) (term : Nat) : Node N :=
  { n with currentTerm := term, votedFor := none, state := .follower }

/-- The transition to leader. -/
def becomeLeader (n : Node N) : Node N :=
  let logLen := n.snapshotLastIndex + n.log.length
  { n with
    state := .leader
    nextIndex := n.nextIndex.map fun _ => logLen + 1
    matchIndex := n.matchIndex.map fun _ => 0
    ledTerms := n.currentTerm :: n.ledTerms }

/-- The first section of `runCandidate`. -/
def startElection (n : Node N) : Node N :=
  { n with currentTerm := n.currentTerm + 1, votedFor := some n.id }

/-- The body of `HandleRequestVote` once the term of the request has been adopted. -/
def grantVote (n : Node N) (args : RequestVoteArgs N) : Node N × Bool :=
  if n.votedFor ≠ none ∧ n.votedFor ≠ some args.candidateID then (n, false)
  else if args.lastLogTerm < n.lastLogInfo.2 then (n, false)
  else if args.lastLogTerm = n.lastLogInfo.2 ∧ args.lastLogIndex < n.lastLogInfo.1 then (n, false)
  else ({ n with votedFor := some args.candidateID }, true)

/-- The vote handler. -/
def handleRequestVote (n : Node N) (args : RequestVoteArgs N) : Node N × RequestVoteReply :=
  if args.term < n.currentTerm then (n, ⟨n.currentTerm, false⟩)
  else
    let m := if args.term > n.currentTerm then n.stepDown args.term else n
    ((m.grantVote args).1, ⟨n.currentTerm, (m.grantVote args).2⟩)

/-! ## Log replication -/

/-- The loop that looks for the first index of the conflicting term. -/
def conflictStart (log : List LogEntry) (conflictTerm : Nat) : Nat → Nat
  | 0 => 0
  | ci + 1 =>
    if (log[ci]?).map LogEntry.term = some conflictTerm then conflictStart log conflictTerm ci
    else ci + 1

/-- The consistency check: `none` when it passes, otherwise the conflict index and term of the
reply. -/
def checkPrevLog (n : Node N) (prevLogIndex prevLogTerm : Nat) : Option (Nat × Nat) :=
  if prevLogIndex > 0 then
    let localIdx : Int := prevLogIndex - n.snapshotLastIndex - 1
    -- an entry inside the snapshot is treated as consistent
    if localIdx < -1 then none
    else if localIdx = -1 then
      if prevLogTerm ≠ n.snapshotLastTerm then some (n.snapshotLastIndex, n.snapshotLastTerm)
      else none
    else
      match n.log[localIdx.toNat]? with
      | none => some (n.snapshotLastIndex + n.log.length, 0)
      | some e =>
        if e.term ≠ prevLogTerm then
          some (n.snapshotLastIndex + conflictStart n.log e.term localIdx.toNat + 1, e.term)
        else none
  else none

/-- The loop that appends the entries of a request at the local position `idx`, removing a
conflicting tail. -/
def appendFrom (log : List LogEntry) : Nat → List LogEntry → List LogEntry
  | _, [] => log
  | idx, entry :: rest =>
    match log[idx]? with
    | none => log ++ entry :: rest
    | some e =>
      if e.term ≠ entry.term then log.take idx ++ entry :: rest
      else appendFrom log (idx + 1) rest

/-- The follower's part of the commit rule in `HandleAppendEntries`. -/
def followCommit (n : Node N) (leaderCommit : Nat) : Node N :=
  if leaderCommit > n.commitIndex then
    let lastNewIndex := n.snapshotLastIndex + n.log.length
    (n.setCommitIndex (if leaderCommit < lastNewIndex then leaderCommit else lastNewIndex)).applyCommitted
  else n

/-- Append the entries of a request whose consistency check has passed. -/
def appendEntries (n : Node N) (args : AppendEntriesArgs N) : Node N :=
  let insertAt : Int := args.prevLogIndex - n.snapshotLastIndex
  let insertAt : Int := if insertAt < 0 then 0 else insertAt
  { n with log := appendFrom n.log insertAt.toNat args.entries }

/-- The body of `HandleAppendEntries` once the term of the request has been adopted: the node and
the conflict of the reply, if any. -/
def replicate (n : Node N) (args : AppendEntriesArgs N) : Node N × Option (Nat × Nat) :=
  match n.checkPrevLog args.prevLogIndex args.prevLogTerm with
  | some c => (n, some c)
  | none => ((n.appendEntries args).followCommit args.leaderCommit, none)

/-- The AppendEntries handler. -/
def handleAppendEntries (n : Node N) (args : AppendEntriesArgs N) : Node N × AppendEntriesReply :=
  if args.term < n.currentTerm then (n, ⟨n.currentTerm, false, 0, 0⟩)
  else
    let m := if args.term > n.currentTerm then { n with currentTerm := args.term, votedFor := none }
      else n
    let m := { m with state := .follower }
    match m.replicate args with
    | (m', none) => (m', ⟨n.currentTerm, true, 0, 0⟩)
    | (m', some (conflictIndex, conflictTerm)) =>
      (m', ⟨n.currentTerm, false, conflictIndex, conflictTerm⟩)

/-! ## Snapshots -/

/-- `json.Marshal(n.snapshot)`: the map is copied out. -/
def marshalSnapshot (n : Node N) (snap : Snapshot) : SnapshotData :=
  ⟨snap.lastIncludedIndex, snap.lastIncludedTerm, n.readMap snap.stateMachine⟩

/-- The part of `HandleInstallSnapshot` that installs the snapshot. The decoded map is a new object,
and the snapshot and the live state machine both refer to it. -/
def installSnapshot (n : Node N) (args : InstallSnapshotArgs N) : Node N :=
  let localOffset := args.lastIncludedIndex - n.snapshotLastIndex
  { n with
    log := if localOffset ≥ n.log.length then [] else n.log.drop localOffset
    snapshotLastIndex := args.lastIncludedIndex
    snapshotLastTerm := args.lastIncludedTerm
    maps := n.maps ++ [args.data.stateMachine]
    snapshot := some ⟨args.data.lastIncludedIndex, args.data.lastIncludedTerm, n.maps.length⟩
    stateMachine := n.maps.length
    commitIndex := args.lastIncludedIndex
    lastApplied := args.lastIncludedIndex
    applyCh := n.applyCh ++ [.snapshot args.data args.lastIncludedIndex args.lastIncludedTerm] }

/-- The InstallSnapshot handler. -/
def handleInstallSnapshot (n : Node N) (args : InstallSnapshotArgs N) :
    Node N × InstallSnapshotReply :=
  if args.term < n.currentTerm then (n, ⟨n.currentTerm⟩)
  else
    let m := if args.term > n.currentTerm then n.stepDown args.term else n
    if args.lastIncludedIndex ≤ m.snapshotLastIndex then (m, ⟨n.currentTerm⟩)
    else (m.installSnapshot args, ⟨n.currentTerm⟩)

end Node

end SystemDesignLabs.Raft
