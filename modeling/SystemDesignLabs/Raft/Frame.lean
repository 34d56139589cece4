import SystemDesignLabs.Raft.Cluster

/-!
# What each section of a node leaves alone

The fields of a node fall into three groups: the ones elections are about (`Node.control`), the ones
that say which part of the log the node holds (`Node.window`), and the counters. For each function of
a node one lemma per group says that the group is unchanged or how it changes. Later modules reason
from these lemmas and do not unfold the functions again.
-/

namespace SystemDesignLabs.Raft

open Or

variable {N : Nat}

namespace Node

/-- The fields elections are about. -/
def control (n : Node N) : Fin N × Nat × Option (Fin N) × State × List Nat :=
  (n.id, n.currentTerm, n.votedFor, n.state, n.ledTerms)

/-- The held part of the log. -/
def window (n : Node N) : List LogEntry × Nat × Nat :=
  (n.log, n.snapshotLastIndex, n.snapshotLastTerm)

theorem control_eq_iff {n m : Node N} : n.control = m.control ↔
    n.id = m.id ∧ n.currentTerm = m.currentTerm ∧ n.votedFor = m.votedFor ∧ n.state = m.state ∧
      n.ledTerms = m.ledTerms := by
  simp [control]

theorem window_eq_iff {n m : Node N} : n.window = m.window ↔ n.log = m.log ∧ n.snapshotLastIndex = m.snapshotLastIndex ∧
      n.snapshotLastTerm = m.snapshotLastTerm := by
  simp [window]

/-! ## Applying and committing -/

theorem applyNext_frame (n : Node N) : n.applyNext.control = n.control ∧
    n.applyNext.window = n.window ∧ n.applyNext.commitIndex = n.commitIndex ∧
    n.applyNext.lastApplied = n.lastApplied + 1 ∧ n.applyNext.matchIndex = n.matchIndex ∧
    n.applyNext.committed = n.committed ∧ n.applyNext.snapshot = n.snapshot ∧
    n.applyNext.stateMachine = n.stateMachine ∧ n.applyNext.nextIndex = n.nextIndex ∧
    n.applyNext.maps.length = n.maps.length := by
  rw [applyNext]
  dsimp only
  split
  · exact ⟨rfl, rfl, rfl, rfl, rfl, rfl, rfl, rfl, rfl, rfl⟩
  · split
    · exact ⟨rfl, rfl, rfl, rfl, rfl, rfl, rfl, rfl, rfl, rfl⟩
    · exact ⟨rfl, rfl, rfl, rfl, rfl, rfl, rfl, rfl, rfl, by simp [applyToStateMachine]⟩

theorem applyLoop_frame (k : Nat) : ∀ n : Node N, (applyLoop k n).control = n.control ∧
    (applyLoop k n).window = n.window ∧ (applyLoop k n).commitIndex = n.commitIndex ∧
    (applyLoop k n).lastApplied = n.lastApplied + k ∧ (applyLoop k n).matchIndex = n.matchIndex ∧
    (applyLoop k n).committed = n.committed ∧ (applyLoop k n).snapshot = n.snapshot ∧
    (applyLoop k n).stateMachine = n.stateMachine ∧ (applyLoop k n).nextIndex = n.nextIndex ∧
    (applyLoop k n).maps.length = n.maps.length := by
  induction k with
  | zero => intro n; exact ⟨rfl, rfl, rfl, rfl, rfl, rfl, rfl, rfl, rfl, rfl⟩
  | succ k ih =>
    intro n
    obtain ⟨h1, h2, h3, h4, h5, h6, h7, h8, h9, h10⟩ := n.applyNext_frame
    obtain ⟨i1, i2, i3, i4, i5, i6, i7, i8, i9, i10⟩ := ih n.applyNext
    refine ⟨i1.trans h1, i2.trans h2, i3.trans h3, ?_, i5.trans h5, i6.trans h6, i7.trans h7,
      i8.trans h8, i9.trans h9, i10.trans h10⟩
    show (applyLoop k n.applyNext).lastApplied = _
    rw [i4, h4]
    omega

section ApplyCommitted

variable (n : Node N)

@[simp] theorem applyCommitted_control : n.applyCommitted.control = n.control :=
  (applyLoop_frame _ n).1

@[simp] theorem applyCommitted_window : n.applyCommitted.window = n.window :=
  (applyLoop_frame _ n).2.1

@[simp] theorem applyCommitted_commitIndex : n.applyCommitted.commitIndex = n.commitIndex :=
  (applyLoop_frame _ n).2.2.1

@[simp] theorem applyCommitted_committed : n.applyCommitted.committed = n.committed :=
  (applyLoop_frame _ n).2.2.2.2.2.1

@[simp] theorem applyCommitted_snapshot : n.applyCommitted.snapshot = n.snapshot :=
  (applyLoop_frame _ n).2.2.2.2.2.2.1

@[simp] theorem applyCommitted_nextIndex : n.applyCommitted.nextIndex = n.nextIndex :=
  (applyLoop_frame _ n).2.2.2.2.2.2.2.2.1

end ApplyCommitted

section

variable (n : Node N)
include n

@[simp] theorem setCommitIndex_control (idx : Nat) : (n.setCommitIndex idx).control = n.control := rfl

theorem maybeSnapshot_frame : n.maybeSnapshot.control = n.control ∧
    n.maybeSnapshot.commitIndex = n.commitIndex ∧ n.maybeSnapshot.lastApplied = n.lastApplied ∧
    n.maybeSnapshot.matchIndex = n.matchIndex ∧ n.maybeSnapshot.committed = n.committed ∧
    n.maybeSnapshot.applyCh = n.applyCh ∧ n.maybeSnapshot.stateMachine = n.stateMachine := by
  rw [maybeSnapshot]
  split
  · exact ⟨rfl, rfl, rfl, rfl, rfl, rfl, rfl⟩
  · dsimp only
    split
    · exact ⟨rfl, rfl, rfl, rfl, rfl, rfl, rfl⟩
    · split <;> exact ⟨rfl, rfl, rfl, rfl, rfl, rfl, rfl⟩

@[simp] theorem advanceCommitIndex_control : n.advanceCommitIndex.control = n.control := by
  rw [advanceCommitIndex]
  split
  · rfl
  · rw [(maybeSnapshot_frame _).1, applyCommitted_control, setCommitIndex_control]

@[simp] theorem recordMatch_control (p m : Nat) : (n.recordMatch p m).control = n.control := rfl

@[simp] theorem backOff_control (p c : Nat) : (n.backOff p c).control = n.control := by
  rw [backOff]
  split
  · rfl
  · split <;> rfl

@[simp] theorem followCommit_control (lc : Nat) : (n.followCommit lc).control = n.control := by
  rw [followCommit]
  split
  · rw [applyCommitted_control, setCommitIndex_control]
  · rfl

end

/-! ## Handlers and election fields -/

theorem replicate_control (n : Node N) (args : AppendEntriesArgs N) : (n.replicate args).1.control = n.control := by
  rw [replicate]
  split
  · rfl
  · rw [followCommit_control]
    rfl

/-- A section never lowers the term, and within a term it never changes a vote that was cast. -/
structure VoteStep (n n' : Node N) : Prop where
  id : n'.id = n.id
  term : n.currentTerm ≤ n'.currentTerm
  vote : n'.currentTerm = n.currentTerm → n.votedFor ≠ none → n'.votedFor = n.votedFor

theorem VoteStep.trans {n m n' : Node N} (h : VoteStep n m) (h' : VoteStep m n') : VoteStep n n' where
  id := h'.id.trans h.id
  term := h.term.trans h'.term
  vote heq hne := by
    have hm : m.currentTerm = n.currentTerm := le_antisymm (heq ▸ h'.term) h.term
    have hvote := h.vote hm hne
    exact (h'.vote (heq.trans hm.symm) (hvote ▸ hne)).trans hvote

/-- A section that starts no election and wins none: the node keeps its role and its term, or is a
follower afterwards. -/
structure Quiet (n n' : Node N) : Prop extends VoteStep n n' where
  ledTerms : n'.ledTerms = n.ledTerms
  role : n'.state = n.state ∧ n'.currentTerm = n.currentTerm ∨ n'.state = .follower

theorem Quiet.of_control {n n' : Node N} (h : n'.control = n.control) : Quiet n n' := by
  obtain ⟨h1, h2, h3, h4, h5⟩ := control_eq_iff.1 h
  exact ⟨⟨h1, le_of_eq h2.symm, fun _ _ => h3⟩, h5, inl ⟨h4, h2⟩⟩

theorem Quiet.refl (n : Node N) : Quiet n n := .of_control rfl

variable {n : Node N}

theorem Quiet.stepDown {term : Nat} (h : n.currentTerm < term) : Quiet n (n.stepDown term) where
  id := rfl
  term := le_of_lt h
  vote := fun he _ => absurd he (by simp only [Node.stepDown]; omega)
  ledTerms := rfl
  role := inr rfl

theorem Quiet.trans_control {m n' : Node N} (h : Quiet n m) (hc : n'.control = m.control) : Quiet n n' := by
  obtain ⟨h1, h2, h3, h4, h5⟩ := control_eq_iff.1 hc
  refine ⟨⟨h1.trans h.id, h2 ▸ h.term, fun ht hne => h3.trans (h.vote (h2 ▸ ht) hne)⟩, h5.trans h.ledTerms, ?_⟩
  rw [h4, h2]
  exact h.role

theorem grantVote_spec (n : Node N) (args : RequestVoteArgs N) :
    ((n.grantVote args).2 = false ∧ (n.grantVote args).1 = n) ∨
    ((n.grantVote args).2 = true ∧ (n.grantVote args).1 = { n with votedFor := some args.candidateID } ∧
      (n.votedFor = none ∨ n.votedFor = some args.candidateID) ∧ (n.lastLogInfo.2 < args.lastLogTerm ∨
        n.lastLogInfo.2 = args.lastLogTerm ∧ n.lastLogInfo.1 ≤ args.lastLogIndex)) := by
  rw [grantVote]
  split
  · exact inl ⟨rfl, rfl⟩
  · rename_i hv
    split
    · exact inl ⟨rfl, rfl⟩
    · rename_i hlt
      split
      · exact inl ⟨rfl, rfl⟩
      · rename_i heq
        refine inr ⟨rfl, rfl, ?_, ?_⟩
        · by_cases hn : n.votedFor = none
          · exact inl hn
          · by_cases hc : n.votedFor = some args.candidateID
            · exact inr hc
            · exact absurd ⟨hn, hc⟩ hv
        · rcases Nat.lt_or_ge n.lastLogInfo.2 args.lastLogTerm with h | h
          · exact inl h
          · refine inr ⟨by omega, ?_⟩
            by_contra hlen
            exact heq ⟨by omega, by omega⟩

/-- The term a vote handler works in. -/
def adoptTerm (n : Node N) (term : Nat) : Node N :=
  if term > n.currentTerm then n.stepDown term else n

theorem adoptTerm_currentTerm {term : Nat} (h : n.currentTerm ≤ term) : (n.adoptTerm term).currentTerm = term := by
  rw [adoptTerm]
  split
  · rfl
  · omega

theorem adoptTerm_quiet (n : Node N) (term : Nat) : Quiet n (n.adoptTerm term) := by
  rw [adoptTerm]
  split
  · rename_i h
    exact .stepDown h
  · exact .refl n

@[simp] theorem adoptTerm_window (n : Node N) (term : Nat) : (n.adoptTerm term).window = n.window := by
  rw [adoptTerm]
  split <;> rfl

theorem handleRequestVote_of_stale {args : RequestVoteArgs N} (h : args.term < n.currentTerm) :
    n.handleRequestVote args = (n, ⟨n.currentTerm, false⟩) := by
  simp [handleRequestVote, h]

theorem handleRequestVote_of_le {args : RequestVoteArgs N} (h : n.currentTerm ≤ args.term) :
    n.handleRequestVote args = (((n.adoptTerm args.term).grantVote args).1,
      ⟨n.currentTerm, ((n.adoptTerm args.term).grantVote args).2⟩) := by
  have hn : ¬ args.term < n.currentTerm := by omega
  simp [handleRequestVote, hn, adoptTerm]

theorem handleRequestVote_quiet (n : Node N) (args : RequestVoteArgs N) : Quiet n (n.handleRequestVote args).1 := by
  rcases Nat.lt_or_ge args.term n.currentTerm with hlt | hge
  · rw [handleRequestVote_of_stale hlt]
    exact .refl n
  · rw [handleRequestVote_of_le hge]
    have hs := n.adoptTerm_quiet args.term
    rcases (n.adoptTerm args.term).grantVote_spec args with ⟨-, he⟩ | ⟨-, he, hv, -⟩
    · rw [he]
      exact hs
    · rw [he]
      refine ⟨⟨hs.id, hs.term, fun hterm hne => ?_⟩, hs.ledTerms, hs.role⟩
      have hsame := hs.vote hterm hne
      rcases hv with hnone | hsome
      · rw [hsame] at hnone
        exact absurd hnone hne
      · rw [← hsame, hsome]

/-- The node on which `HandleAppendEntries` runs its body. -/
def acceptTerm (n : Node N) (term : Nat) : Node N :=
  if term > n.currentTerm then { n with currentTerm := term, votedFor := none, state := .follower }
  else { n with state := .follower }

theorem acceptTerm_currentTerm {term : Nat} (h : n.currentTerm ≤ term) : (n.acceptTerm term).currentTerm = term := by
  rw [acceptTerm]
  split
  · rfl
  · show n.currentTerm = term
    omega

@[simp] theorem acceptTerm_window (n : Node N) (term : Nat) : (n.acceptTerm term).window = n.window := by
  rw [acceptTerm]
  split <;> rfl

@[simp] theorem acceptTerm_state (n : Node N) (term : Nat) : (n.acceptTerm term).state = .follower := by
  rw [acceptTerm]
  split <;> rfl

theorem acceptTerm_quiet (n : Node N) (term : Nat) : Quiet n (n.acceptTerm term) := by
  rw [acceptTerm]
  split
  · rename_i h
    exact ⟨⟨rfl, le_of_lt h, fun he _ => absurd he (by simp only; omega)⟩, rfl, inr rfl⟩
  · exact ⟨⟨rfl, le_refl _, fun _ _ => rfl⟩, rfl, inr rfl⟩

theorem handleAppendEntries_of_stale {args : AppendEntriesArgs N} (h : args.term < n.currentTerm) :
    n.handleAppendEntries args = (n, ⟨n.currentTerm, false, 0, 0⟩) := by
  simp [handleAppendEntries, h]

theorem handleAppendEntries_of_le {args : AppendEntriesArgs N} (h : n.currentTerm ≤ args.term) :
    (n.handleAppendEntries args).1 = ((n.acceptTerm args.term).replicate args).1 ∧
    (n.handleAppendEntries args).2.term = n.currentTerm ∧
    (n.handleAppendEntries args).2.success = ((n.acceptTerm args.term).replicate args).2.isNone := by
  have hn : ¬ args.term < n.currentTerm := by omega
  have hm : ({ (if args.term > n.currentTerm then
      { n with currentTerm := args.term, votedFor := none } else n) with state := State.follower } :
      Node N) = n.acceptTerm args.term := by
    rw [acceptTerm]
    split <;> rfl
  rw [handleAppendEntries]
  rw [if_neg hn]
  simp only [hm]
  cases hr : (n.acceptTerm args.term).replicate args with
  | mk m c =>
    cases c with
    | none => exact ⟨rfl, rfl, rfl⟩
    | some c => exact ⟨rfl, rfl, rfl⟩

theorem handleAppendEntries_quiet (n : Node N) (args : AppendEntriesArgs N) :
    Quiet n (n.handleAppendEntries args).1 := by
  rcases Nat.lt_or_ge args.term n.currentTerm with hlt | hge
  · rw [handleAppendEntries_of_stale hlt]
    exact .refl n
  · rw [(handleAppendEntries_of_le hge).1]
    exact (n.acceptTerm_quiet args.term).trans_control (replicate_control _ _)

theorem installSnapshot_control (n : Node N) (args : InstallSnapshotArgs N) :
    (n.installSnapshot args).control = n.control := rfl

variable {args : InstallSnapshotArgs N}

theorem handleInstallSnapshot_of_stale (h : args.term < n.currentTerm) :
    n.handleInstallSnapshot args = (n, ⟨n.currentTerm⟩) := by
  simp [handleInstallSnapshot, h]

theorem handleInstallSnapshot_of_le (h : n.currentTerm ≤ args.term) : n.handleInstallSnapshot args =
      (if args.lastIncludedIndex ≤ n.snapshotLastIndex then n.adoptTerm args.term
        else (n.adoptTerm args.term).installSnapshot args, ⟨n.currentTerm⟩) := by
  have hn : ¬ args.term < n.currentTerm := by omega
  have hw : (n.adoptTerm args.term).snapshotLastIndex = n.snapshotLastIndex :=
    (window_eq_iff.1 (n.adoptTerm_window args.term)).2.1
  rw [handleInstallSnapshot]
  rw [if_neg hn]
  show (if args.lastIncludedIndex ≤ (n.adoptTerm args.term).snapshotLastIndex then
    (n.adoptTerm args.term, _) else ((n.adoptTerm args.term).installSnapshot args, _)) = _
  rw [hw]
  split <;> rfl

theorem handleInstallSnapshot_quiet (n : Node N) (args : InstallSnapshotArgs N) :
    Quiet n (n.handleInstallSnapshot args).1 := by
  rcases Nat.lt_or_ge args.term n.currentTerm with hlt | hge
  · rw [handleInstallSnapshot_of_stale hlt]
    exact .refl n
  · rw [handleInstallSnapshot_of_le hge]
    have hs := n.adoptTerm_quiet args.term
    dsimp only
    split
    · exact hs
    · exact hs.trans_control (installSnapshot_control _ _)

theorem processAppendReply_quiet (n : Node N) (p : Nat) (args : AppendEntriesArgs N)
    (reply : AppendEntriesReply) : Quiet n (n.processAppendReply p args reply) := by
  rw [processAppendReply]
  split
  · rename_i h
    exact .stepDown h
  · split
    · exact .refl n
    · split
      · exact .of_control (by rw [advanceCommitIndex_control, recordMatch_control])
      · exact .of_control (backOff_control _ _ _)

theorem processSnapshotReply_quiet (n : Node N) (p : Nat) (reply : InstallSnapshotReply) :
    Quiet n (n.processSnapshotReply p reply) := by
  rw [processSnapshotReply]
  split
  · rename_i h
    exact .stepDown h
  · exact .of_control rfl

end Node

end SystemDesignLabs.Raft
