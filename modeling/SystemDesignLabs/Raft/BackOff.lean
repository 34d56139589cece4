import SystemDesignLabs.Raft.Steps

/-!
# The leader backs off

A rejection names an index below the one that the leader tried: the entry is missing, it has another term, or the
snapshot of the peer ends there with another term (`checkPrevLog_le`). So the next index falls with every rejected round
and stays positive, and after finitely many rounds the peer accepts or the leader sends its snapshot
(`back_off_ends`). In every reachable state a node that has compacted its log has a snapshot to send
(`compacted_of_reachable`).
-/

namespace SystemDesignLabs.Raft

variable {N : Nat}

namespace Node

variable {n p : Node N} {peerIdx commitIndex : Nat} {args : AppendEntriesArgs N}

/-- A node that has compacted its log has a snapshot. -/
def Compacted (n : Node N) : Prop :=
  0 < n.snapshotLastIndex → n.snapshot.isSome

/-- The index at which the leader tries the peer next. -/
def tries (n : Node N) (peerIdx : Nat) : Nat :=
  n.nextIndex.getD peerIdx 0

/-- A round in which the peer rejects the leader's request, and the leader processes the rejection. -/
inductive Rejected (peerIdx commitIndex : Nat) : Node N × Node N → Node N × Node N → Prop
  | round {n p : Node N} {args : AppendEntriesArgs N}
      (hbuild : n.buildRequest peerIdx n.currentTerm commitIndex = some (.sentAppend args))
      (hreject : (p.handleAppendEntries args).2.success = false) :
      Rejected peerIdx commitIndex (n, p)
        (n.processAppendReply peerIdx args (p.handleAppendEntries args).2, (p.handleAppendEntries args).1)

/-- The next round ends the repetition: the peer accepts the request, or the request is a snapshot. -/
def Settles (peerIdx commitIndex : Nat) (n p : Node N) : Prop :=
  match n.buildRequest peerIdx n.currentTerm commitIndex with
  | some (.sentAppend args) => (p.handleAppendEntries args).2.success = true
  | some (.sentSnapshot _) => True
  | _ => False

theorem conflictStart_le (log : List LogEntry) (conflictTerm ci : Nat) : conflictStart log conflictTerm ci ≤ ci := by
  induction ci with
  | zero => exact le_refl _
  | succ ci ih =>
    rw [conflictStart]
    split
    · exact ih.trans (Nat.le_succ _)
    · exact le_refl _

/-- A conflict lies at or below the entry that was checked. -/
theorem checkPrevLog_le {prev prevTerm : Nat} {c : Nat × Nat} (h : p.checkPrevLog prev prevTerm = some c) :
    0 < prev ∧ c.1 ≤ prev := by
  rw [checkPrevLog] at h
  split at h
  · next hpos =>
    refine ⟨hpos, ?_⟩
    dsimp only at h
    split_ifs at h
    · cases h
      show p.snapshotLastIndex ≤ prev
      omega
    · split at h
      · next hnone =>
        cases h
        have hlen := List.getElem?_eq_none_iff.1 hnone
        show p.snapshotLastIndex + p.log.length ≤ prev
        omega
      · next e _ =>
        split_ifs at h
        cases h
        have hle := conflictStart_le p.log e.term ((prev : Int) - p.snapshotLastIndex - 1).toNat
        show p.snapshotLastIndex + _ + 1 ≤ prev
        omega
  · exact nomatch h

theorem handleAppendEntries_rejected (hterm : args.term = p.currentTerm)
    (hreject : (p.handleAppendEntries args).2.success = false) :
    ∃ c, p.checkPrevLog args.prevLogIndex args.prevLogTerm = some c ∧
      p.handleAppendEntries args = ({ p with state := .follower }, ⟨p.currentTerm, false, c.1, c.2⟩) := by
  rw [handleAppendEntries, if_neg (Nat.not_lt.2 hterm.ge), if_neg (Nat.not_lt.2 hterm.le)] at hreject ⊢
  dsimp only at hreject ⊢
  rw [replicate] at hreject ⊢
  cases hcheck : checkPrevLog { p with state := .follower } args.prevLogIndex args.prevLogTerm with
  | none =>
    rw [hcheck] at hreject
    cases hreject
  | some c => exact ⟨c, hcheck, rfl⟩

theorem buildRequest_append (h : n.buildRequest peerIdx n.currentTerm commitIndex = some (.sentAppend args)) :
    args.term = n.currentTerm ∧ args.prevLogIndex = n.tries peerIdx - 1 := by
  rw [buildRequest] at h
  split at h
  · obtain ⟨_, -, h⟩ := Option.map_eq_some_iff.1 h
    exact nomatch h
  · cases h
    exact ⟨rfl, rfl⟩

/-- A rejected round lowers the next index and keeps it positive, and changes nothing else that matters. -/
theorem back_off_lt (hstate : n.state = .leader) (hterm : p.currentTerm = n.currentTerm)
    (hbuild : n.buildRequest peerIdx n.currentTerm commitIndex = some (.sentAppend args))
    (hreject : (p.handleAppendEntries args).2.success = false) : ∃ ni, 1 ≤ ni ∧ ni < n.tries peerIdx ∧
      n.processAppendReply peerIdx args (p.handleAppendEntries args).2 =
        { n with nextIndex := n.nextIndex.set peerIdx ni } ∧
      (p.handleAppendEntries args).1 = { p with state := .follower } := by
  obtain ⟨hsame, hprev⟩ := buildRequest_append hbuild
  obtain ⟨c, hcheck, hhandle⟩ := handleAppendEntries_rejected (hsame.trans hterm.symm) hreject
  obtain ⟨hpos, hle⟩ := checkPrevLog_le hcheck
  rw [hprev] at hpos hle
  have hprocess : n.processAppendReply peerIdx args (p.handleAppendEntries args).2 = n.backOff peerIdx c.1 := by
    rw [hhandle, processAppendReply, if_neg (Nat.not_lt.2 hterm.le), if_neg (not_not_intro hstate)]
    exact if_neg Bool.false_ne_true
  rw [hprocess, hhandle, backOff]
  split
  · next hc => exact ⟨c.1, hc, by omega, rfl, rfl⟩
  · rw [if_pos (by show 1 < n.tries peerIdx; omega)]
    exact ⟨n.tries peerIdx - 1, by omega, by omega, rfl, rfl⟩

theorem tries_set {ni : Nat} (hslot : peerIdx < n.nextIndex.length) :
    tries { n with nextIndex := n.nextIndex.set peerIdx ni } peerIdx = ni := by
  rw [tries, List.getD_eq_getElem?_getD, List.getElem?_set_self hslot]
  rfl

/-- **The leader gets through.** Every rejected round lowers the next index and keeps it positive, and after finitely
many of them the peer accepts the request or the leader sends a snapshot. -/
theorem back_off_ends (hstate : n.state = .leader) (hterm : p.currentTerm = n.currentTerm)
    (hslot : peerIdx < n.nextIndex.length) (hpos : 1 ≤ n.tries peerIdx) (hcompacted : n.Compacted)
    (commitIndex : Nat) :
    (∀ n' p', Rejected peerIdx commitIndex (n, p) (n', p') →
      1 ≤ n'.tries peerIdx ∧ n'.tries peerIdx < n.tries peerIdx) ∧
    ∃ n' p', Relation.ReflTransGen (Rejected peerIdx commitIndex) (n, p) (n', p') ∧
      Settles peerIdx commitIndex n' p' := by
  constructor
  · rintro _ _ ⟨hbuild, hreject⟩
    obtain ⟨ni, hni, hlt, hn, -⟩ := back_off_lt hstate hterm hbuild hreject
    rw [hn, tries_set hslot]
    exact ⟨hni, hlt⟩
  · -- by induction on the next index
    induction htries : n.tries peerIdx using Nat.strong_induction_on generalizing n p with
    | _ k ih =>
      by_cases hinstall : n.tries peerIdx ≤ n.snapshotLastIndex
      · obtain ⟨snap, hsnap⟩ := Option.isSome_iff_exists.1 (hcompacted (hpos.trans hinstall))
        have hbuild : n.buildRequest peerIdx n.currentTerm commitIndex =
            some (.sentSnapshot (n.buildSnapshot snap n.currentTerm)) := (if_pos hinstall).trans (by rw [hsnap]; rfl)
        refine ⟨n, p, .refl, ?_⟩
        rw [Settles, hbuild]
        trivial
      · have hbuild : n.buildRequest peerIdx n.currentTerm commitIndex =
            some (.sentAppend (n.buildAppend (n.tries peerIdx) n.currentTerm commitIndex)) := if_neg hinstall
        cases hreply : (p.handleAppendEntries (n.buildAppend (n.tries peerIdx) n.currentTerm commitIndex)).2.success with
        | true =>
          refine ⟨n, p, .refl, ?_⟩
          rw [Settles, hbuild]
          exact hreply
        | false =>
          have hround := Rejected.round (p := p) hbuild hreply
          obtain ⟨ni, hni, hlt, hn, hp⟩ := back_off_lt hstate hterm hbuild hreply
          rw [hn, hp] at hround
          obtain ⟨n', p', hruns, hsettles⟩ := ih ni (htries ▸ hlt)
            (n := { n with nextIndex := n.nextIndex.set peerIdx ni })
            (p := { p with state := .follower }) hstate hterm (by rwa [List.length_set])
            (by rwa [tries_set hslot]) hcompacted (tries_set hslot)
          exact ⟨n', p', .head hround hruns, hsettles⟩

/-- A leader with two entries, and a peer whose one entry has another term. -/
theorem back_off_ends_two :
    let n : Node 2 :=
      { newNode 0 with currentTerm := 3, state := .leader, log := [⟨1, "a"⟩, ⟨3, "b"⟩], nextIndex := [3] }
    let p : Node 2 := { newNode 1 with currentTerm := 3, log := [⟨2, "c"⟩] }
    ∃ n' p', Relation.ReflTransGen (Rejected 0 0) (n, p) (n', p') ∧ Settles 0 0 n' p' := by
  intro n p
  have hslot : 0 < n.nextIndex.length := Nat.one_pos
  have hpos : 1 ≤ n.tries 0 := Nat.le_add_left 1 2
  exact (back_off_ends (n := n) (p := p) rfl rfl hslot hpos (fun h => absurd h (Nat.lt_irrefl 0)) 0).2

/-! ### Nodes that have compacted their log -/

section

variable (h : n.Compacted)
include h

theorem Compacted.applyCommitted : n.applyCommitted.Compacted := by
  intro hpos
  rw [applyCommitted_snapshot]
  rw [(window_eq_iff.1 n.applyCommitted_window).2.1] at hpos
  exact h hpos

theorem Compacted.advanceCommitIndex : n.advanceCommitIndex.Compacted := by
  rw [Node.advanceCommitIndex]
  split
  · exact h
  · next idx _ =>
    have happlied := Compacted.applyCommitted (n := n.setCommitIndex idx) h
    rw [maybeSnapshot]
    split
    · exact happlied
    · dsimp only
      split
      · exact happlied
      · split
        · exact happlied
        · exact fun _ => rfl

theorem Compacted.handleRequestVote (args : RequestVoteArgs N) :
    (n.handleRequestVote args).1.Compacted := by
  rw [Node.handleRequestVote]
  split
  · exact h
  · dsimp only
    split
    all_goals
      rw [grantVote]
      split_ifs <;> exact h

theorem Compacted.handleAppendEntries (args : AppendEntriesArgs N) :
    (n.handleAppendEntries args).1.Compacted := by
  rcases Nat.lt_or_ge args.term n.currentTerm with hlt | hge
  · rw [handleAppendEntries_of_stale hlt]
    exact h
  · have haccept : (n.acceptTerm args.term).Compacted := by
      rw [acceptTerm]
      split <;> exact h
    rw [(handleAppendEntries_of_le hge).1, replicate]
    split
    · exact haccept
    · rw [followCommit]
      split
      · exact Compacted.applyCommitted (n := ((n.acceptTerm args.term).appendEntries args).setCommitIndex _) haccept
      · exact haccept

theorem Compacted.handleInstallSnapshot (args : InstallSnapshotArgs N) :
    (n.handleInstallSnapshot args).1.Compacted := by
  rw [Node.handleInstallSnapshot]
  split
  · exact h
  · dsimp only
    split_ifs
    · exact h
    · exact fun _ => rfl
    · exact h
    · exact fun _ => rfl

theorem Compacted.processAppendReply (peerIdx : Nat) (args : AppendEntriesArgs N)
    (reply : AppendEntriesReply) : (n.processAppendReply peerIdx args reply).Compacted := by
  rw [Node.processAppendReply]
  split_ifs
  · exact h
  · exact h
  · exact Compacted.advanceCommitIndex (n := n.recordMatch peerIdx _) h
  · rw [backOff]
    split_ifs <;> exact h

end

end Node

/-- **Every node that has compacted its log has a snapshot.** -/
theorem compacted_of_reachable {s : Cluster N} (h : Reachable s) : ∀ i, (s.node i).Compacted := by
  refine h.invariant (I := fun s => ∀ i, (s.node i).Compacted) (fun i hpos => absurd hpos (Nat.lt_irrefl 0)) ?_
  intro s a s' _ hs _ hstep
  have key : ∀ (i : Fin N) (n : Node N), n.Compacted → ∀ v, ((s.setNode i n).node v).Compacted :=
    fun i n hn => s.forall_setNode i n (P := fun _ m => m.Compacted) hn fun v _ => hs v
  cases Cluster.next_of_step hstep with
  | electionTimeout i _ => exact key i _ (hs i)
  | campaign i _ => exact key i _ (hs i)
  | voteHandler k p args _ => exact key p _ ((hs p).handleRequestVote args)
  | voteHigher k p args reply granted _ _ _ => exact key _ _ (hs args.candidateID)
  | voteWins k p args reply granted _ _ _ _ _ => exact key _ _ (hs args.candidateID)
  | command i cmd _ _ => exact key i _ (hs i)
  | deliverAppend k c args _ _ => exact key _ _ ((hs c.peer).handleAppendEntries args)
  | deliverSnapshot k c args _ _ => exact key _ _ ((hs c.peer).handleInstallSnapshot args)
  | processAppend k c args reply _ _ => exact key _ _ ((hs c.leader).processAppendReply c.peerIdx args reply)
  | processSnapshot k c args reply _ _ =>
    refine key _ _ ?_
    rw [Node.processSnapshotReply]
    split <;> exact hs c.leader
  | _ => exact hs

end SystemDesignLabs.Raft
