import SystemDesignLabs.Raft.Frame

/-!
# The steps of the cluster, one case each

`Next s a s'` lists what a step of the cluster can do, with the guards it passed; `next_of_step`
inverts `Cluster.step` once and for all. The invariants of the later modules are proved by cases on
`Next`.
-/

namespace SystemDesignLabs.Raft

open Node

variable {N : Nat}

namespace Cluster

section Updates

variable (s : Cluster N) (i : Fin N) (n : Node N) (pc : Pc N) (k : Nat)

@[simp] theorem setNode_node_self : (s.setNode i n).node i = n := by simp [setNode]
@[simp] theorem setPc_node : (s.setPc i pc).node = s.node := rfl
@[simp] theorem setPc_appendCalls : (s.setPc i pc).appendCalls = s.appendCalls := rfl
@[simp] theorem setPc_pc_self : (s.setPc i pc).pc i = pc := by simp [setPc]
@[simp] theorem endVoteCall_node : (s.endVoteCall k).node = s.node := rfl
@[simp] theorem setVoteCall_node (c : VoteCall N) : (s.setVoteCall k c).node = s.node := rfl
@[simp] theorem endAppendCall_node : (s.endAppendCall k).node = s.node := rfl
@[simp] theorem setStage_node (c : AppendCall N) (st : Stage N) : (s.setStage k c st).node = s.node := rfl

theorem setNode_node_ne {j : Fin N} (h : j ≠ i) : (s.setNode i n).node j = s.node j := by
  simp [setNode, h]

theorem setPc_pc_ne {j : Fin N} (h : j ≠ i) : (s.setPc i pc).pc j = s.pc j := by
  simp [setPc, h]

theorem forall_setNode {P : Fin N → Node N → Prop} (hi : P i n)
    (hne : ∀ j, j ≠ i → P j (s.node j)) : ∀ j, P j ((s.setNode i n).node j) := by
  intro j
  by_cases hj : j = i
  · subst hj
    rw [setNode_node_self]
    exact hi
  · rw [setNode_node_ne _ _ _ hj]
    exact hne j hj

end Updates

/-- The vote goroutines that `runCandidate` spawns. -/
def newVoteCalls (i : Fin N) (n : Node N) : List (VoteCall N) :=
  (peers i).map fun p => ⟨p, ⟨n.currentTerm, i, n.lastLogInfo.1, n.lastLogInfo.2⟩, none⟩

/-- The goroutines that `broadcastAppendEntries` spawns. -/
def newAppendCalls (i : Fin N) (n : Node N) : List (AppendCall N) :=
  (peers i).zipIdx.map fun p => ⟨i, p.2, p.1, n.currentTerm, n.commitIndex, .spawned⟩

/-- The cases of a step. -/
inductive Next (s : Cluster N) : Action N → Cluster N → Prop
  | dispatch (i : Fin N) (pc : Pc N) (hpc : s.pc i = .run)
      (hpc' : (s.node i).state = .follower ∧ pc = .follower ∨
        (s.node i).state = .candidate ∧ pc = .campaign ∨
        (s.node i).state = .leader ∧ pc = .broadcast) :
      Next s (.dispatch i) (s.setPc i pc)
  | electionTimeout (i : Fin N) (hpc : s.pc i = .follower) :
      Next s (.electionTimeout i) ((s.setNode i { s.node i with state := .candidate }).setPc i .run)
  | campaign (i : Fin N) (hpc : s.pc i = .campaign) :
      Next s (.campaign i)
        { ((s.setNode i (s.node i).startElection).setPc i
            (.votes (s.node i).startElection.currentTerm [])) with
          voteCalls := s.voteCalls ++ newVoteCalls i (s.node i).startElection }
  | voteHandler (k : Nat) (p : Fin N) (args : RequestVoteArgs N)
      (hk : s.voteCalls[k]? = some ⟨p, args, none⟩) :
      Next s (.voteHandler k) ((s.setNode p ((s.node p).handleRequestVote args).1).setVoteCall k
        ⟨p, args, some ((s.node p).handleRequestVote args).2⟩)
  | voteHigher (k : Nat) (p : Fin N) (args : RequestVoteArgs N) (reply : RequestVoteReply)
      (granted : List (Fin N)) (hk : s.voteCalls[k]? = some ⟨p, args, some reply⟩)
      (hpc : s.pc args.candidateID = .votes args.term granted)
      (hterm : (s.node args.candidateID).currentTerm < reply.term) :
      Next s (.voteReply k) (((s.endVoteCall k).setNode args.candidateID
        ((s.node args.candidateID).stepDown reply.term)).setPc args.candidateID .run)
  | voteWins (k : Nat) (p : Fin N) (args : RequestVoteArgs N) (reply : RequestVoteReply)
      (granted : List (Fin N)) (hk : s.voteCalls[k]? = some ⟨p, args, some reply⟩)
      (hpc : s.pc args.candidateID = .votes args.term granted)
      (hgrant : reply.voteGranted = true)
      (hstate : (s.node args.candidateID).state = .candidate)
      (hmaj : ((peers args.candidateID).length + 1) / 2 + 1 ≤ granted.length + 1 + 1) :
      Next s (.voteReply k) (((s.endVoteCall k).setNode args.candidateID
        (s.node args.candidateID).becomeLeader).setPc args.candidateID .run)
  | voteCounts (k : Nat) (p : Fin N) (args : RequestVoteArgs N) (reply : RequestVoteReply)
      (granted : List (Fin N)) (hk : s.voteCalls[k]? = some ⟨p, args, some reply⟩)
      (hpc : s.pc args.candidateID = .votes args.term granted)
      (hgrant : reply.voteGranted = true) :
      Next s (.voteReply k)
        ((s.endVoteCall k).setPc args.candidateID (.votes args.term (p :: granted)))
  | voteIgnored (k : Nat) : Next s (.voteReply k) (s.endVoteCall k)
  | voteTimeout (i : Fin N) : Next s (.voteTimeout i) (s.setPc i .run)
  | tick (i : Fin N) (pc : Pc N) (hpc : s.pc i = .leading) (hpc' : pc = .run ∨ pc = .broadcast) :
      Next s (.tick i) (s.setPc i pc)
  | command (i : Fin N) (cmd : String) (hpc : s.pc i = .leading)
      (hstate : (s.node i).state = .leader) :
      Next s (.command i cmd) ((s.setNode i { s.node i with
        log := (s.node i).log ++ [⟨(s.node i).currentTerm, cmd⟩] }).setPc i .broadcast)
  | commandLost (i : Fin N) (cmd : String) (hpc : s.pc i = .leading) :
      Next s (.command i cmd) (s.setPc i .run)
  | broadcast (i : Fin N) (hpc : s.pc i = .broadcast) :
      Next s (.broadcast i) { s.setPc i .leading with
        appendCalls := s.appendCalls ++ newAppendCalls i (s.node i) }
  | endSpawned (k : Nat) : Next s (.goroutine k) (s.endAppendCall k)
  | build (k : Nat) (c : AppendCall N) (stage : Stage N) (hk : s.appendCalls[k]? = some c)
      (hc : c.stage = .spawned) (hstate : (s.node c.leader).state = .leader)
      (hb : (s.node c.leader).buildRequest c.peerIdx c.term c.commitIndex = some stage) :
      Next s (.goroutine k) (s.setStage k c stage)
  | deliverAppend (k : Nat) (c : AppendCall N) (args : AppendEntriesArgs N)
      (hk : s.appendCalls[k]? = some c) (hc : c.stage = .sentAppend args) :
      Next s (.goroutine k) ((s.setNode c.peer ((s.node c.peer).handleAppendEntries args).1).setStage
        k c (.repliedAppend args ((s.node c.peer).handleAppendEntries args).2))
  | deliverSnapshot (k : Nat) (c : AppendCall N) (args : InstallSnapshotArgs N)
      (hk : s.appendCalls[k]? = some c) (hc : c.stage = .sentSnapshot args) :
      Next s (.goroutine k)
        ((s.setNode c.peer ((s.node c.peer).handleInstallSnapshot args).1).setStage
          k c (.repliedSnapshot args ((s.node c.peer).handleInstallSnapshot args).2))
  | processAppend (k : Nat) (c : AppendCall N) (args : AppendEntriesArgs N)
      (reply : AppendEntriesReply) (hk : s.appendCalls[k]? = some c)
      (hc : c.stage = .repliedAppend args reply) :
      Next s (.goroutine k) ((s.setNode c.leader
        ((s.node c.leader).processAppendReply c.peerIdx args reply)).endAppendCall k)
  | processSnapshot (k : Nat) (c : AppendCall N) (args : InstallSnapshotArgs N)
      (reply : InstallSnapshotReply) (hk : s.appendCalls[k]? = some c)
      (hc : c.stage = .repliedSnapshot args reply) :
      Next s (.goroutine k) ((s.setNode c.leader
        ((s.node c.leader).processSnapshotReply c.peerIdx reply)).endAppendCall k)

variable {s s' : Cluster N}

theorem next_voteReply {k : Nat} (h : s.voteReply k = some s') : Next s (.voteReply k) s' := by
  rw [voteReply] at h
  split at h
  case h_2 => exact absurd h (by simp)
  case h_1 p args reply hk =>
    dsimp only at h
    split at h
    case h_2 => exact absurd h (by simp)
    case h_1 term granted hpc =>
      split at h
      case isFalse => exact absurd h (by simp)
      case isTrue hterm =>
        subst hterm
        split at h
        case isTrue hhigh =>
          cases h
          exact .voteHigher k p args reply granted hk hpc hhigh
        case isFalse hlow =>
          split at h
          case isFalse =>
            cases h
            exact .voteIgnored k
          case isTrue hg =>
            split at h
            case isTrue hmaj =>
              cases h
              exact .voteWins k p args reply granted hk hpc hg.1 hg.2 hmaj
            case isFalse =>
              cases h
              exact .voteCounts k p args reply granted hk hpc hg.1

theorem next_goroutine {k : Nat} (h : s.goroutine k = some s') : Next s (.goroutine k) s' := by
  rw [goroutine] at h
  split at h
  case h_1 => exact absurd h (by simp)
  case h_2 c hk =>
    split at h
    case h_1 hc =>
      split at h
      case isTrue =>
        cases h
        exact .endSpawned k
      case isFalse hstate =>
        split at h
        case h_1 =>
          cases h
          exact .endSpawned k
        case h_2 stage hb =>
          cases h
          exact .build k c stage hk hc (not_not.1 hstate) hb
    case h_2 args hc =>
      cases h
      exact .deliverAppend k c args hk hc
    case h_3 args hc =>
      cases h
      exact .deliverSnapshot k c args hk hc
    case h_4 args reply hc =>
      cases h
      exact .processAppend k c args reply hk hc
    case h_5 args reply hc =>
      cases h
      exact .processSnapshot k c args reply hk hc

/-- Every step is one of the listed cases. -/
theorem next_of_step {a : Action N} (h : s.step a = some s') : Next s a s' := by
  cases a with
  | dispatch i =>
    simp only [step, Cluster.dispatch] at h
    split at h
    case h_1 hpc =>
      split at h
      case h_1 hst => cases h; exact .dispatch i _ hpc (Or.inl ⟨hst, rfl⟩)
      case h_2 hst => cases h; exact .dispatch i _ hpc (Or.inr (Or.inl ⟨hst, rfl⟩))
      case h_3 hst => cases h; exact .dispatch i _ hpc (Or.inr (Or.inr ⟨hst, rfl⟩))
    case h_2 => exact absurd h (by simp)
  | electionTimeout i =>
    simp only [step, Cluster.electionTimeout] at h
    split at h
    case h_1 hpc => cases h; exact .electionTimeout i hpc
    case h_2 => exact absurd h (by simp)
  | campaign i =>
    simp only [step, Cluster.campaign] at h
    split at h
    case h_1 hpc => cases h; exact .campaign i hpc
    case h_2 => exact absurd h (by simp)
  | voteHandler k =>
    simp only [step, Cluster.voteHandler] at h
    split at h
    case h_1 p args hk => cases h; exact .voteHandler k p args hk
    case h_2 => exact absurd h (by simp)
  | voteReply k => exact next_voteReply h
  | voteTimeout i =>
    simp only [step, Cluster.voteTimeout] at h
    split at h
    case h_1 => cases h; exact .voteTimeout i
    case h_2 => exact absurd h (by simp)
  | tick i =>
    simp only [step, Cluster.tick] at h
    split at h
    case h_1 hpc =>
      cases h
      refine .tick i _ hpc ?_
      split
      · exact Or.inr rfl
      · exact Or.inl rfl
    case h_2 => exact absurd h (by simp)
  | command i cmd =>
    simp only [step, Cluster.command] at h
    split at h
    case h_1 hpc =>
      split at h
      case isTrue hs => cases h; exact .command i cmd hpc hs
      case isFalse => cases h; exact .commandLost i cmd hpc
    case h_2 => exact absurd h (by simp)
  | broadcast i =>
    simp only [step, Cluster.broadcast] at h
    split at h
    case h_1 hpc => cases h; exact .broadcast i hpc
    case h_2 => exact absurd h (by simp)
  | goroutine k => exact next_goroutine h

/-- No step lowers a term or changes a vote that was cast in the current term. -/
theorem Next.voteStep {a : Action N} (h : Next s a s') : ∀ v, Node.VoteStep (s.node v) (s'.node v) := by
  have key : ∀ (i : Fin N) (n : Node N), VoteStep (s.node i) n →
      ∀ v, VoteStep (s.node v) ((s.setNode i n).node v) := fun i n hn =>
    s.forall_setNode i n (P := fun v m => VoteStep (s.node v) m) hn
      fun v _ => (Quiet.refl (s.node v)).toVoteStep
  have same : ∀ v, VoteStep (s.node v) (s.node v) :=
    fun v => (Quiet.refl (s.node v)).toVoteStep
  cases h with
  | dispatch i pc _ _ => exact same
  | electionTimeout i _ => exact key i _ ⟨rfl, le_refl _, fun _ _ => rfl⟩
  | campaign i _ =>
    exact key i _ ⟨rfl, Nat.le_succ _, fun h _ => absurd h (Nat.succ_ne_self _)⟩
  | voteHandler k p args _ => exact key p _ (handleRequestVote_quiet _ _).toVoteStep
  | voteHigher k p args reply granted _ _ hterm =>
    exact key _ _ (Quiet.stepDown hterm).toVoteStep
  | voteWins k p args reply granted _ _ _ _ _ => exact key _ _ ⟨rfl, le_refl _, fun _ _ => rfl⟩
  | voteCounts k p args reply granted _ _ _ => exact same
  | voteIgnored k => exact same
  | voteTimeout i => exact same
  | tick i pc _ _ => exact same
  | command i cmd _ _ => exact key i _ ⟨rfl, le_refl _, fun _ _ => rfl⟩
  | commandLost i cmd _ => exact same
  | broadcast i _ => exact same
  | endSpawned k => exact same
  | build k c stage _ _ _ _ => exact same
  | deliverAppend k c args _ _ => exact key _ _ (handleAppendEntries_quiet _ _).toVoteStep
  | deliverSnapshot k c args _ _ =>
    exact key _ _ (handleInstallSnapshot_quiet _ _).toVoteStep
  | processAppend k c args reply _ _ =>
    exact key _ _ (processAppendReply_quiet _ _ _ _).toVoteStep
  | processSnapshot k c args reply _ _ =>
    exact key _ _ (processSnapshotReply_quiet _ _ _).toVoteStep

end Cluster

end SystemDesignLabs.Raft
