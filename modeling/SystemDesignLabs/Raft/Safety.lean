import SystemDesignLabs.Raft.ReplicationSteps
import SystemDesignLabs.Raft.Forward

/-!
# Safety of the cluster

State machine safety and the soundness of `matchIndex`, for every cluster size and every
interleaving whose steps keep to the terms and positions that their messages were built for
(`Sound`). Without the condition both fail: `staleSuccessRun` is an interleaving of three nodes in
which a leader counts a reply from an earlier term of its own, and two nodes commit different
commands at index 2.
-/

namespace SystemDesignLabs.Raft

open List Option Core Cluster

variable {N : Nat} {s s' : Cluster N}

/-! ## Plain steps -/

/-- A check that excludes every departure from the protocol: goroutines act in the term they
captured and there are no snapshots. -/
def plainStep (s : Cluster N) : Action N → Bool
  | .goroutine k =>
    match s.appendCalls[k]? with
    | none => true
    | some c =>
      c.term == (s.node c.leader).currentTerm && (s.node c.leader).snapshot.isNone &&
        (s.node c.peer).snapshot.isNone && (s.node c.peer).snapshotLastIndex == 0 &&
        match c.stage with
        | .sentSnapshot _ => false
        | .repliedSnapshot _ _ => false
        | _ => true
  | _ => true

theorem not_shared_of_isNone {n : Node N} (h : n.snapshot.isNone = true) : ¬ n.Shared := by
  rintro ⟨snap, hs, -⟩
  rw [isNone_iff_eq_none] at h
  rw [h] at hs
  exact absurd hs (by simp)

theorem plainStep_ok {a : Action N} (h : plainStep s a = true) :
    Sound s a ∧ ¬ AppliesShared s a ∧ ¬ StaleInstallReply s a ∧ ¬ RegressingInstall s a := by
  cases a with
  | goroutine k =>
    cases hk : s.appendCalls[k]? with
    | none => simp [Sound, StaleBuild, StaleSuccess, BelowSnapshot, AppliesShared,
        StaleInstallReply, RegressingInstall, hk]
    | some c =>
      simp only [plainStep, hk, Bool.and_eq_true, beq_iff_eq] at h
      obtain ⟨⟨⟨⟨hterm, hleader⟩, hpeer⟩, hidx⟩, hstage⟩ := h
      have h1 := not_shared_of_isNone hleader
      have h2 := not_shared_of_isNone hpeer
      simp only [Sound, StaleBuild, StaleSuccess, BelowSnapshot, AppliesShared, StaleInstallReply, RegressingInstall,
        hk, mem_def, some.injEq, exists_eq_left', hterm, hidx, ne_eq, not_true_eq_false, Nat.not_lt_zero, h1, h2]
      cases hc : c.stage with
      | spawned => simp
      | sentAppend args => simp
      | repliedAppend args reply => simp
      | sentSnapshot args =>
        rw [hc] at hstage
        exact absurd hstage (by simp)
      | repliedSnapshot args reply =>
        rw [hc] at hstage
        exact absurd hstage (by simp)
  | _ => simp [Sound, StaleBuild, StaleSuccess, BelowSnapshot, AppliesShared, StaleInstallReply, RegressingInstall]

/-! ## State machine safety -/

/-- Entries committed at one index are the same, on all nodes, and so are the commands applied at one
index. -/
def CommitsAgree (s : Cluster N) : Prop :=
  (∀ a b i e e', (i, e) ∈ (s.node a).committed → (i, e') ∈ (s.node b).committed → e = e') ∧
    ∀ a b i cmd cmd', ApplyMsg.command cmd i ∈ (s.node a).applyCh →
      ApplyMsg.command cmd' i ∈ (s.node b).applyCh → cmd = cmd'

variable {g : Ghost N}

theorem Sim.commitsAgree {md : Mode} (hS : Sim md s g) : CommitsAgree s := by
  refine ⟨fun a b i e e' ha hb => ?_, fun a b i cmd cmd' ha hb => ?_⟩
  · have h1 := ((hS.node a).committed i e ha).2
    have h2 := ((hS.node b).committed i e' hb).2
    exact some.inj (h1.symm.trans h2)
  · obtain ⟨-, e, he, rfl⟩ := (hS.node a).applyCh cmd i ha
    obtain ⟨-, e', he', rfl⟩ := (hS.node b).applyCh cmd' i hb
    rw [some.inj (he.symm.trans he')]

/-- **State machine safety**: in every run whose steps are sound, no two nodes commit different
entries or apply different commands at the same index. -/
theorem state_machine_safety (h : ReachableIf Sound s) : CommitsAgree s := by
  have hsim : ∃ g, Sim ⟨False, False⟩ s g :=
    sim_reachable (fun s a hs => ⟨hs, False.elim, False.elim⟩) h
  obtain ⟨g, hS⟩ := hsim
  exact hS.commitsAgree

/-- Node 0 is elected and commits one entry together with nodes 1 and 2. -/
def commitRun : List (Action 3) :=
  stand 0 ++ [.voteHandler 0, .voteHandler 1, .voteReply 1, .dispatch 0, .broadcast 0,
    .command 0 "SET x 1", .broadcast 0] ++ exchange 0 ++ exchange 0 ++
    [.tick 0, .broadcast 0] ++ exchange 2 ++ exchange 2

/-- The run commits the entry on all nodes. -/
theorem state_machine_safety_commitRun : ∃ s : Cluster 3, CommitsAgree s ∧
    (s.node 0).committed = [(1, ⟨1, "SET x 1"⟩)] ∧
    (s.node 1).committed = [(1, ⟨1, "SET x 1"⟩)] := by
  have h : (execIf Cluster.step plainStep (newCluster 3) commitRun).map
      (fun s => ((s.node 0).committed, (s.node 1).committed)) =
      some ([(1, ⟨1, "SET x 1"⟩)], [(1, ⟨1, "SET x 1"⟩)]) := by rfl
  obtain ⟨s, hs, hview⟩ := map_eq_some_iff.1 h
  obtain ⟨h0, h1⟩ := Prod.mk.inj hview
  exact ⟨s, state_machine_safety (ReachableIf.init.execIf (fun _ _ hp => (plainStep_ok hp).1) hs), h0, h1⟩

/-- Two leaderships of node 0 with a delayed reply between them, up to the point where node 0 has
counted the reply of its first leadership in its second one. -/
def staleSuccessRun : List (Action 3) :=
  List.flatten [
    -- term 1: node 0 sends `y1` and `y2` only to node 2, and nothing is processed
    stand 0, [.voteHandler 0, .voteHandler 1, .voteReply 1, .dispatch 0, .broadcast 0,
      .command 0 "y1", .broadcast 0, .command 0 "y2", .broadcast 0],
    -- term 2: node 1 is elected by node 2 and appends `z`
    stand 1, [.voteHandler 1, .voteHandler 2, .voteReply 2, .dispatch 1, .broadcast 1,
      .command 1 "z", .broadcast 1],
    exchange 0, exchange 0, [.tick 0],
    -- term 3: node 0 again, and its entries reach node 2
    stand 0, [.voteHandler 2, .voteHandler 3, .voteReply 3, .dispatch 0],
    [.goroutine 0, .goroutine 0, .goroutine 0, .goroutine 0, .broadcast 0], exchange 1,
    [.tick 0, .broadcast 0], exchange 2, [.tick 0, .broadcast 0, .goroutine 3, .goroutine 3],
    -- term 4: node 1 replaces them by `z` everywhere but keeps its own reply pending
    [.tick 1], stand 1, [.voteHandler 3, .voteHandler 4, .voteReply 4, .dispatch 1, .broadcast 1],
    exchange 4, [.tick 1, .broadcast 1], exchange 5,
    -- term 5: node 0 appends `w` and counts the reply of term 3
    [.tick 0], stand 0, [.voteHandler 4, .voteHandler 5, .voteReply 5, .dispatch 0, .broadcast 0,
      .command 0 "w", .goroutine 3]]

/-- The continuation in which node 1 is elected with a log that does not hold `w`, and commits `v`. -/
def staleCommitRun : List (Action 3) :=
  staleSuccessRun ++ [.tick 1] ++ stand 1 ++
    [.voteHandler 6, .voteReply 6, .dispatch 1, .broadcast 1, .command 1 "v"] ++
    exchange 8 ++ [.broadcast 1] ++ exchange 9

/-- **State machine safety fails without the condition**: nodes 0 and 1 commit different entries at
index 2. -/
theorem state_machine_safety_violated : ∃ s : Cluster 3, Reachable s ∧ ¬ CommitsAgree s := by
  have h : (exec Cluster.step (newCluster 3) staleCommitRun).map
      (fun s => ((s.node 0).committed, (s.node 1).committed)) =
      some ([(1, ⟨2, "z"⟩), (2, ⟨5, "w"⟩)], [(1, ⟨2, "z"⟩), (2, ⟨6, "v"⟩)]) := by rfl
  obtain ⟨s, hs, hview⟩ := map_eq_some_iff.1 h
  obtain ⟨h0, h1⟩ := Prod.mk.inj hview
  refine ⟨s, reachable_of_exec hs, fun hagree => ?_⟩
  have heq := hagree.1 0 1 2 ⟨5, "w"⟩ ⟨6, "v"⟩ (by rw [h0]; simp) (by rw [h1]; simp)
  exact absurd heq (by decide)

/-! ## Match indices -/

/-- The log of the node with its snapshot agrees with `H` up to index `m`: the snapshot stands for
committed entries of `H`, and every entry held up to `m` is the one of `H`. -/
structure Node.AgreesWith (s : Cluster N) (n : Node N) (H : List LogEntry) (m : Nat) : Prop where
  index_le : n.snapshotLastIndex ≤ H.length
  term : n.snapshotLastTerm = termAt tm H n.snapshotLastIndex
  snapshot : ∀ i e, i < n.snapshotLastIndex → H[i]? = some e →
    ∃ v, (i + 1, e) ∈ (s.node v).committed
  entries : ∀ i, n.snapshotLastIndex < i → i ≤ m → n.entryAt i = H[i - 1]?

/-- The slots of every leader are sound: a peer that has not seen a later term holds the leader's log
up to the index in its slot. -/
def MatchIndexSound (s : Cluster N) : Prop :=
  ∀ (L p : Fin N) (idx m : Nat), (s.node L).state = .leader → (peers L)[idx]? = some p →
    (s.node L).matchIndex[idx]? = some m → (s.node p).currentTerm ≤ (s.node L).currentTerm →
    ∃ H : List LogEntry, m ≤ H.length ∧ Node.AgreesWith s (s.node L) H m ∧
      Node.AgreesWith s (s.node p) H m

theorem Sim.agreesWith {md : Mode} (hS : Sim md s g) {v : Fin N} {H : List LogEntry} {m : Nat}
    (hB : g.base v <+: H) (hV : (s.node v).snapshotLastIndex < m → (g.p.held v).take m = H.take m) :
    Node.AgreesWith s (s.node v) H m := by
  have hn := hS.node v
  have hlen := hn.view.base_len
  refine ⟨hlen ▸ hB.length_le, ?_, fun i e hi he => ?_, fun i hi him => ?_⟩
  · rw [hn.view.base_term, lastTerm, hlen]
    exact termAt_isPrefix hB (le_of_eq hlen.symm)
  · obtain ⟨r, hr⟩ := hB
    obtain ⟨r', hr'⟩ := hS.sound.committed_prefix_top hn.base_committed
    refine hS.recorded i e ?_
    rw [← hr, getElem?_append_left (by omega)] at he
    rw [← hr', getElem?_append_left (by omega)]
    exact he
  · rw [hn.view.entryAt_eq hi, ← getElem?_take_of_lt (by omega : i - 1 < m), hV (by omega),
      getElem?_take_of_lt (by omega)]

theorem Sim.matchIndexSound {md : Mode} (hS : Sim md s g) (htracks : md.tracks) : MatchIndexSound s := by
  intro L p idx m hst hp hm hterm
  have hn := hS.node L
  have hq := hS.node p
  have hl := hn.leader hst
  have hled := hn.ledTerms _ hl.led
  have hslot : (s.node L).matchIndex.getD idx 0 = m := by
    rw [getD_eq_getElem?_getD, hm]
    rfl
  obtain ⟨hev, htr⟩ := hl.slots idx p hp
  rw [hslot] at hev htr
  -- the common log is the log of the leader's term
  have hBL : g.base L <+: g.p.log (s.node L).currentTerm :=
    hS.sound.committed_prefix_log hn.base_committed hled
  have hBp : g.base p <+: g.p.log (s.node L).currentTerm :=
    hS.sound.committed_prefix_log (hq.base_committed.mono hterm) hled
  have hL : Node.AgreesWith s (s.node L) (g.p.log (s.node L).currentTerm) m :=
    hS.agreesWith hBL fun _ => by rw [hl.log]
  rcases htr htracks with hle | hmatch
  · refine ⟨_, le_trans hle hBp.length_le, hL, hS.agreesWith hBp fun hlt => ?_⟩
    rw [hq.view.base_len] at hle
    omega
  · obtain ⟨hmlen, hseen⟩ := hS.sound.matched_le p _ m hmatch
    have hseen' : g.p.seen p = (s.node L).currentTerm :=
      le_antisymm (by rw [hq.seen]; exact hterm) hseen
    have hcur := hS.sound.matched_cur p m (by rw [hseen']; exact hmatch)
    rw [hseen'] at hcur
    refine ⟨_, hmlen, hL, hS.agreesWith hBp fun _ => ?_⟩
    have htake : ((g.p.log (s.node L).currentTerm).take m).length = m := by
      rw [length_take]
      exact Nat.min_eq_left hmlen
    have h := take_eq_of_isPrefix hcur (le_of_eq htake.symm)
    rw [take_take, Nat.min_self] at h
    exact h.symm

/-- **The slots of a leader are sound** in every run whose steps are sound and process no stale
InstallSnapshot reply. -/
theorem matchIndex_sound
    (h : ReachableIf (fun s a => Sound s a ∧ ¬ StaleInstallReply s a) s) : MatchIndexSound s := by
  have hsim : ∃ g, Sim ⟨False, True⟩ s g :=
    sim_reachable (fun s a hs => ⟨hs.1, False.elim, fun _ => hs.2⟩) h
  obtain ⟨g, hS⟩ := hsim
  exact hS.matchIndexSound trivial

/-- In the run of one commit the slots of the leader reach the entry. -/
theorem matchIndex_sound_commitRun : ∃ s : Cluster 3, MatchIndexSound s ∧
    (s.node 0).state = .leader ∧ (s.node 0).matchIndex = [1, 1] := by
  have h : (execIf Cluster.step plainStep (newCluster 3) commitRun).map
      (fun s => ((s.node 0).state, (s.node 0).matchIndex)) = some (.leader, [1, 1]) := by rfl
  obtain ⟨s, hs, hview⟩ := map_eq_some_iff.1 h
  obtain ⟨h0, h1⟩ := Prod.mk.inj hview
  have hok : ∀ (s : Cluster 3) a, plainStep s a = true → Sound s a ∧ ¬ StaleInstallReply s a :=
    fun s a hp => ⟨(plainStep_ok hp).1, (plainStep_ok hp).2.2.1⟩
  exact ⟨s, matchIndex_sound (ReachableIf.init.execIf hok hs), h0, h1⟩

/-- **The slots fail without the condition**: node 0, leader of term 5, has 2 in its slot for node 2,
which holds another entry at index 1. -/
theorem matchIndex_sound_violated : ∃ s : Cluster 3, Reachable s ∧ ¬ MatchIndexSound s := by
  have h : (exec Cluster.step (newCluster 3) staleSuccessRun).map
      (fun s => (((s.node 0).state, (s.node 0).matchIndex, (s.node 0).log), ((s.node 0).currentTerm, (s.node
        2).currentTerm, (s.node 2).log), ((s.node 0).snapshotLastIndex, (s.node 2).snapshotLastIndex))) =
      some ((.leader, [0, 2], [⟨2, "z"⟩, ⟨5, "w"⟩]), (5, 5, [⟨1, "y1"⟩, ⟨1, "y2"⟩]), (0, 0)) := by
    rfl
  obtain ⟨s, hs, hview⟩ := map_eq_some_iff.1 h
  simp only [Prod.mk.injEq] at hview
  obtain ⟨⟨hst, hmatch, hlog0⟩, ⟨hterm0, hterm2, hlog2⟩, hidx0, hidx2⟩ := hview
  refine ⟨s, reachable_of_exec hs, fun hsound => ?_⟩
  obtain ⟨H, -, h0, h2⟩ := hsound 0 2 1 2 hst (by decide) (by rw [hmatch]; rfl)
    (by rw [hterm0, hterm2])
  have he0 : (s.node 0).entryAt 1 = some ⟨2, "z"⟩ := by rw [Node.entryAt, hidx0, hlog0]; rfl
  have he2 : (s.node 2).entryAt 1 = some ⟨1, "y1"⟩ := by rw [Node.entryAt, hidx2, hlog2]; rfl
  have heq : (s.node 0).entryAt 1 = (s.node 2).entryAt 1 :=
    (h0.entries 1 (by omega) (by omega)).trans (h2.entries 1 (by omega) (by omega)).symm
  rw [he0, he2] at heq
  exact absurd heq (by decide)

/-! ## Terms and votes -/

/-- **Terms only grow and votes stand.** Whatever the cluster does from any state on, no node's term falls,
and the vote that a node has cast in a term stays until it enters a later one. -/
theorem terms_grow_votes_stand (s : Cluster N) (as : List (Action N)) (h : exec Cluster.step s as = some s') (v : Fin N) :
    (s.node v).currentTerm ≤ (s'.node v).currentTerm ∧
      ((s'.node v).currentTerm = (s.node v).currentTerm → ∀ c, (s.node v).votedFor = some c →
        (s'.node v).votedFor = some c) := by
  have hrun : Node.VoteStep (s.node v) (s'.node v) := by
    induction as generalizing s with
    | nil => exact Option.some.inj h ▸ (Node.Quiet.refl (s.node v)).toVoteStep
    | cons a as ih =>
      obtain ⟨t, ht, hrest⟩ := bind_eq_some_iff.1 h
      exact ((next_of_step ht).voteStep v).trans (ih t hrest)
  refine ⟨hrun.term, fun heq c hc => ?_⟩
  have hne : (s.node v).votedFor ≠ none := by rw [hc]; exact some_ne_none c
  exact (hrun.vote heq hne).trans hc

/-- In the run of one commit node 1 votes for node 0, and that vote stands to the end. -/
theorem terms_grow_votes_stand_commitRun : ∃ s s' : Cluster 3,
    exec Cluster.step (newCluster 3) (commitRun.take 12) = some s ∧ (s.node 1).votedFor = some 0 ∧
      exec Cluster.step s (commitRun.drop 12) = some s' ∧ (s'.node 1).votedFor = some 0 := by
  have h : ((exec Cluster.step (newCluster 3) (commitRun.take 12)).bind fun s =>
      (exec Cluster.step s (commitRun.drop 12)).map fun s' => (s, s')).map
      (fun p => ((p.1.node 1).votedFor, decide ((p.2.node 1).currentTerm = (p.1.node 1).currentTerm))) =
      some (some 0, true) := by rfl
  obtain ⟨p, hp, hview⟩ := map_eq_some_iff.1 h
  obtain ⟨s, hs, hp⟩ := bind_eq_some_iff.1 hp
  obtain ⟨s', hs', rfl⟩ := map_eq_some_iff.1 hp
  obtain ⟨hvote, hterm⟩ := Prod.mk.inj hview
  exact ⟨s, s', hs, hvote, hs', (terms_grow_votes_stand s _ hs' 1).2 (of_decide_eq_true hterm) 0 hvote⟩

/-! ## Leader completeness -/

/-- **Leader completeness.** In every run whose steps are sound, a leader's log reaches at least as far as
the commit index of every node whose term is not later; and when no node is in a later term, the leader
holds every entry that any node has committed, except where its snapshot covers it. -/
theorem leader_completeness (h : ReachableIf Sound s) {i : Fin N} (hlead : (s.node i).state = .leader) :
    (∀ v, (s.node v).currentTerm ≤ (s.node i).currentTerm → (s.node v).commitIndex ≤ (s.node i).lastLogInfo.1) ∧
      ((∀ v, (s.node v).currentTerm ≤ (s.node i).currentTerm) → ∀ v k e, (k, e) ∈ (s.node v).committed →
        (s.node i).snapshotLastIndex < k → (s.node i).entryAt k = some e) := by
  obtain ⟨g, hS⟩ : ∃ g, Sim ⟨False, False⟩ s g :=
    sim_reachable (fun s a hs => ⟨hs, False.elim, False.elim⟩) h
  have hi := hS.node i
  have hled := hi.ledTerms _ (hi.leader hlead).led
  have hheld : ∀ P, g.p.Committed (s.node i).currentTerm P → P <+: g.p.held i :=
    fun P hP => (hi.leader hlead).log ▸ hS.sound.committed_prefix_log hP hled
  constructor
  · intro v hv
    have hle := (hheld _ ((hS.node v).com_committed.mono hv)).length_le
    rw [hi.view.lastLogInfo_eq]
    exact (hS.node v).com_len ▸ hle
  · intro hmax v k e hc hk
    -- the longest committed log was committed in a term that a majority has seen
    have htop : g.p.Committed (s.node i).currentTerm g.p.top := by
      rcases hS.sound.top_direct with hnil | ⟨t, m, hd, htop⟩
      · exact .inl hnil
      · obtain ⟨-, -, Q, hQ, hmatched⟩ := hS.sound.direct_ok t m hd
        obtain ⟨w, hw, -⟩ := hQ.exists_mem_inter hQ
        obtain ⟨m', -, hm'⟩ := hmatched w hw
        have hseen := (hS.sound.matched_le w t m' hm').2
        rw [(hS.node w).seen] at hseen
        exact .inr ⟨t, m, hd, hseen.trans (hmax w), htop ▸ prefix_refl _⟩
    obtain ⟨-, he⟩ := (hS.node v).committed k e hc
    rw [hi.view.entryAt_eq hk]
    obtain ⟨r, hr⟩ := hheld _ htop
    rw [← hr, getElem?_append_left (List.getElem?_eq_some_iff.1 he).1]
    exact he

/-- Node 0 leads in the highest term at the end of the run, and what node 1 has committed is in its log. -/
theorem leader_completeness_commitRun : ∃ s : Cluster 3, (s.node 0).state = .leader ∧
    (s.node 1).committed = [(1, ⟨1, "SET x 1"⟩)] ∧ (s.node 0).entryAt 1 = some ⟨1, "SET x 1"⟩ := by
  have h : (execIf Cluster.step plainStep (newCluster 3) commitRun).map
      (fun s => ((s.node 0).state, (s.node 1).committed, (s.node 0).snapshotLastIndex,
        decide (∀ v, (s.node v).currentTerm ≤ (s.node 0).currentTerm))) =
      some (.leader, [(1, ⟨1, "SET x 1"⟩)], 0, true) := by rfl
  obtain ⟨s, hs, hview⟩ := map_eq_some_iff.1 h
  simp only [Prod.mk.injEq] at hview
  obtain ⟨hlead, hcommitted, hbase, hmax⟩ := hview
  have hreach := ReachableIf.init.execIf (fun _ _ hp => (plainStep_ok hp).1) hs
  refine ⟨s, hlead, hcommitted, (leader_completeness hreach hlead).2 (of_decide_eq_true hmax) 1 1 _ ?_ ?_⟩
  · rw [hcommitted]
    exact mem_singleton.2 rfl
  · rw [hbase]
    exact Nat.one_pos

end SystemDesignLabs.Raft
