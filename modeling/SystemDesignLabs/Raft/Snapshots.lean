import SystemDesignLabs.Raft.Safety

/-!
# Logs, replayed maps and counters under compaction

Log matching on the entries that nodes still hold, the key/value maps as replays of the committed
commands, and the order and the growth of the four counters, for every cluster size. Each holds in
every run whose steps meet its condition; the conditions exclude the steps at which the code departs
from the protocol (`Sound`), applies entries to the map its snapshot refers to (`AppliesShared`) or
installs a snapshot older than its own `commitIndex` (`RegressingInstall`).
-/

namespace SystemDesignLabs.Raft

open List Option Core Cluster Node

variable {N : Nat} {s s' : Cluster N} {md : Mode} {g : Ghost N}

/-! ## Log matching -/

/-- Two nodes that hold entries of one term at one index hold the same command there, and the same
entries at every earlier index that both still hold. -/
def LogMatching (s : Cluster N) : Prop :=
  ∀ (a b : Fin N) (k : Nat) (e e' : LogEntry), (s.node a).entryAt k = some e →
    (s.node b).entryAt k = some e' → e.term = e'.term →
    e.command = e'.command ∧ ∀ i ≤ k, ∀ d d', (s.node a).entryAt i = some d →
      (s.node b).entryAt i = some d' → d = d'

theorem Sim.held_of_entryAt (hS : Sim md s g) {v : Fin N} {k : Nat} {e : LogEntry}
    (h : (s.node v).entryAt k = some e) : 0 < k ∧ (g.p.held v)[k - 1]? = some e := by
  rcases Nat.lt_or_ge (s.node v).snapshotLastIndex k with hlt | hge
  · rw [(hS.node v).view.entryAt_eq hlt] at h
    exact ⟨by omega, h⟩
  · rw [entryAt_of_le hge] at h
    exact absurd h (by simp)

theorem Sim.logMatching (hS : Sim md s g) : LogMatching s := by
  intro a b k e e' ha hb hterm
  obtain ⟨hk, hea⟩ := hS.held_of_entryAt ha
  obtain ⟨-, heb⟩ := hS.held_of_entryAt hb
  have hva := hS.sound.valid_of_below (hS.sound.held_below a)
  have hvb := hS.sound.valid_of_below (hS.sound.held_below b)
  have hka : k ≤ (g.p.held a).length := by
    have := (List.getElem?_eq_some_iff.1 hea).1
    omega
  have hkb : k ≤ (g.p.held b).length := by
    have := (List.getElem?_eq_some_iff.1 heb).1
    omega
  have hta : termAt tm (g.p.held a) k = e.term := by
    obtain ⟨j, rfl⟩ := Nat.exists_eq_succ_of_ne_zero (by omega : k ≠ 0)
    exact termAt_of_getElem? hea
  have htb : termAt tm (g.p.held b) k = e'.term := by
    obtain ⟨j, rfl⟩ := Nat.exists_eq_succ_of_ne_zero (by omega : k ≠ 0)
    exact termAt_of_getElem? heb
  -- one term at one index: the two complete logs agree up to there
  have htake : (g.p.held a).take k = (g.p.held b).take k :=
    hva.take_eq_of_termAt_eq hvb hka hkb (by rw [hta, htb, hterm])
  have hsame : ∀ i, 0 < i → i ≤ k → (g.p.held a)[i - 1]? = (g.p.held b)[i - 1]? := fun i h0 hi => by
    rw [← List.getElem?_take_of_lt (by omega : i - 1 < k), htake,
      List.getElem?_take_of_lt (by omega)]
  refine ⟨?_, fun i hi d d' hd hd' => ?_⟩
  · have heq := hsame k hk (le_refl k)
    rw [hea, heb, Option.some.injEq] at heq
    rw [heq]
  · obtain ⟨h0, hda⟩ := hS.held_of_entryAt hd
    obtain ⟨-, hdb⟩ := hS.held_of_entryAt hd'
    have heq := hsame i h0 hi
    rw [hda, hdb, Option.some.injEq] at heq
    exact heq

/-- **Log matching** holds in every run whose steps are sound. -/
theorem log_matching (h : ReachableIf Sound s) : LogMatching s := by
  have hsim : ∃ g, Sim ⟨False, False⟩ s g :=
    sim_reachable (fun s a hs => ⟨hs, False.elim, False.elim⟩) h
  obtain ⟨g, hS⟩ := hsim
  exact hS.logMatching

/-- In the run of one commit two nodes hold the entry. -/
theorem log_matching_commitRun : ∃ s : Cluster 3, LogMatching s ∧
    (s.node 0).entryAt 1 = some ⟨1, "SET x 1"⟩ ∧ (s.node 1).entryAt 1 = some ⟨1, "SET x 1"⟩ := by
  have h : (execIf Cluster.step plainStep (newCluster 3) commitRun).map
      (fun s => ((s.node 0).entryAt 1, (s.node 1).entryAt 1)) =
      some (some ⟨1, "SET x 1"⟩, some ⟨1, "SET x 1"⟩) := by rfl
  obtain ⟨s, hs, hview⟩ := map_eq_some_iff.1 h
  obtain ⟨h0, h1⟩ := Prod.mk.inj hview
  exact ⟨s, log_matching (ReachableIf.init.execIf (fun _ _ hp => (plainStep_ok hp).1) hs), h0, h1⟩

/-- **Log matching fails without the condition**: a request from before the compaction, delivered
after the snapshot, puts its entries above it, and they carry the term of the leader's new entry. -/
theorem log_matching_violated : ∃ s : Cluster 3, Reachable s ∧ ¬ LogMatching s := by
  obtain ⟨k, hk⟩ : ∃ k, snapshotThreshold < k := ⟨_, Nat.lt_succ_self _⟩
  have hpos : 0 < k := by omega
  obtain ⟨a, rest, ha, h⟩ := reaches_compacted hk
  have h1 := h.deliverSnapshot_one (k := 1) rfl
  rw [handle_firstSnapshot hpos] at h1
  have h2 := h1.deliverAppend_one (k := 0) rfl
  rw [handle_first_installed hpos] at h2
  have h3 := h2.command ha.state "x"
  obtain ⟨s, hr, -, hnode0, hnode1, -, -⟩ := h3
  have he0 : (s.node 0).entryAt (k + 1) = some ⟨1, "x"⟩ := by
    rw [hnode0]
    simp [entryAt, ha.index, ha.log, ha.currentTerm]
  have he1 : (s.node 1).entryAt (k + 1) = some ⟨1, "e"⟩ := by
    rw [hnode1]
    have hidx : (installed k).snapshotLastIndex = k := rfl
    rw [entryAt]
    dsimp only
    rw [hidx, if_pos (Nat.lt_succ_self k), Nat.add_sub_cancel_left]
    exact fillLog_getElem? hpos
  refine ⟨s, hr, fun hmatch => ?_⟩
  exact absurd (hmatch 0 1 (k + 1) _ _ he0 he1 rfl).1 (by decide)

/-! ## The maps -/

/-- The maps of all nodes are replays of one log of committed entries. -/
def ReplaysLog (s : Cluster N) : Prop :=
  ∃ H : List LogEntry,
    (∀ v i e, (i, e) ∈ (s.node v).committed → 0 < i ∧ H[i - 1]? = some e) ∧
    (∀ i e, H[i]? = some e → ∃ v, (i + 1, e) ∈ (s.node v).committed) ∧
    ∀ v, (s.node v).lastApplied ≤ H.length ∧
      (s.node v).readMap (s.node v).stateMachine =
        replay KV.empty (H.take (s.node v).lastApplied) ∧
      ∀ snap ∈ (s.node v).snapshot, snap.lastIncludedIndex ≤ H.length ∧
        (s.node v).readMap snap.stateMachine = replay KV.empty (H.take snap.lastIncludedIndex)

theorem Sim.replaysLog (hS : Sim md s g) (hreplays : md.replays) : ReplaysLog s := by
  refine ⟨g.p.top, fun v => (hS.node v).committed, hS.recorded, fun v => ?_⟩
  have hn := hS.node v
  have hmaps := hn.maps hreplays
  have hcom := hS.sound.committed_prefix_top hn.com_committed
  have hbase := hS.sound.committed_prefix_top hn.base_committed
  have hla : (g.com v).length = (s.node v).lastApplied := hn.com_len.trans hn.applied.symm
  refine ⟨hla ▸ hcom.length_le, ?_, fun snap hs => ?_⟩
  · rw [hmaps.live, ← hla, ← prefix_iff_eq_take.1 hcom]
  · obtain ⟨-, hidx, hread⟩ := hmaps.snap snap hs
    rw [hidx]
    exact ⟨hbase.length_le, by rw [hread, ← prefix_iff_eq_take.1 hbase]⟩

/-- **The maps are replays of the committed log** in every run whose steps are sound and apply no
entry to a map that a snapshot refers to. -/
theorem replays_log (h : ReachableIf (fun s a => Sound s a ∧ ¬ AppliesShared s a) s) :
    ReplaysLog s := by
  have hsim : ∃ g, Sim ⟨True, False⟩ s g :=
    sim_reachable (fun s a hs => ⟨hs.1, fun _ => hs.2, False.elim⟩) h
  obtain ⟨g, hS⟩ := hsim
  exact hS.replaysLog trivial

/-- In the run of one commit the leader has applied the entry. -/
theorem replays_log_commitRun : ∃ s : Cluster 3, ReplaysLog s ∧ (s.node 0).lastApplied = 1 := by
  have h : (execIf Cluster.step plainStep (newCluster 3) commitRun).map
      (fun s => (s.node 0).lastApplied) = some 1 := by rfl
  obtain ⟨s, hs, hview⟩ := map_eq_some_iff.1 h
  have hok : ∀ (s : Cluster 3) a, plainStep s a = true → Sound s a ∧ ¬ AppliesShared s a :=
    fun s a hp => ⟨(plainStep_ok hp).1, (plainStep_ok hp).2.1⟩
  exact ⟨s, replays_log (ReachableIf.init.execIf hok hs), hview⟩

/-- **The replay fails without the condition**: an entry applied after the installation of a snapshot
changes the contents of that snapshot. -/
theorem replays_log_violated : ∃ s : Cluster 3, Reachable s ∧ ¬ ReplaysLog s := by
  obtain ⟨k, hk⟩ : ∃ k, snapshotThreshold < k := ⟨_, Nat.lt_succ_self _⟩
  have hpos : 0 < k := by omega
  obtain ⟨a, rest, ha, h⟩ := reaches_compacted hk
  -- node 1 installs the snapshot and the leader learns of it
  have h1 := h.deliverSnapshot_one (k := 1) rfl
  rw [handle_firstSnapshot hpos] at h1
  have h2 := h1.processSnapshot (k := 1) rfl
  obtain ⟨a', c', calls, j, ha', h3, -, -, hj⟩ := reaches_next hpos ha.processSnapshot h2
  -- node 1 applies the next entry
  have h4 := h3.deliverAppend_one hj
  obtain ⟨n, hn, hsnap, hmap⟩ := handle_next_installed hpos
  rw [hn] at h4
  obtain ⟨s, hr, -, hnode0, hnode1, -, -⟩ := h4
  refine ⟨s, hr, ?_⟩
  rintro ⟨H, hcommitted, -, hreplay⟩
  have hsnap1 : (⟨k, 1, 1⟩ : Snapshot) ∈ (s.node 1).snapshot := by
    rw [hnode1]
    exact hsnap
  obtain ⟨hle, hread⟩ := (hreplay 1).2.2 _ hsnap1
  -- the log starts with the compacted entries, which change nothing
  have htake : H.take k = fillLog k := by
    refine ext_getElem? fun i => ?_
    rcases Nat.lt_or_ge i k with hi | hi
    · have hmem : (i + 1, ⟨1, "e"⟩) ∈ (s.node 0).committed := by
        rw [hnode0]
        exact ha'.committed (i + 1) (Nat.succ_pos i) hi
      rw [getElem?_take_of_lt hi, fillLog_getElem? hi]
      exact (hcommitted 0 _ _ hmem).2
    · rw [getElem?_eq_none (le_trans (length_take_le _ _) hi),
        getElem?_eq_none (by rw [length_fillLog]; exact hi)]
  rw [hnode1] at hread
  have hempty : KV.empty.set "x" "1" = KV.empty := by
    rw [← hmap, ← replay_fillLog k, ← htake]
    exact hread
  exact absurd (congrFun hempty "x") (by simp [KV.set, KV.empty])

/-! ## The counters -/

namespace Node

/-- The order of the counters. -/
structure Ordered (n : Node N) : Prop where
  snapshot_le : n.snapshotLastIndex ≤ n.lastApplied
  applied_le : n.lastApplied ≤ n.commitIndex
  commit_le : n.commitIndex ≤ n.snapshotLastIndex + n.log.length

/-- The counters that must not decrease have not. -/
structure Grows (n n' : Node N) : Prop where
  commitIndex : n.commitIndex ≤ n'.commitIndex
  lastApplied : n.lastApplied ≤ n'.lastApplied
  currentTerm : n.currentTerm ≤ n'.currentTerm

theorem Grows.refl (n : Node N) : n.Grows n := ⟨le_refl _, le_refl _, le_refl _⟩

theorem Grows.trans {n₁ n₂ n₃ : Node N} (h : n₁.Grows n₂) (h' : n₂.Grows n₃) : n₁.Grows n₃ :=
  ⟨h.commitIndex.trans h'.commitIndex, h.lastApplied.trans h'.lastApplied, h.currentTerm.trans h'.currentTerm⟩

theorem commitIndex_le_advance (n : Node N) : n.commitIndex ≤ n.advanceCommitIndex.commitIndex := by
  rw [advanceCommitIndex]
  split
  case h_1 => exact le_refl _
  case h_2 idx h =>
    rw [(maybeSnapshot_frame _).2.1, applyCommitted_commitIndex]
    exact le_of_lt (commitTarget_spec n _ h).1

theorem commitIndex_le_processAppendReply (n : Node N) (idx : Nat) (args : AppendEntriesArgs N)
    (reply : AppendEntriesReply) : n.commitIndex ≤ (n.processAppendReply idx args reply).commitIndex := by
  rw [processAppendReply]
  split
  · exact le_refl _
  · split
    · exact le_refl _
    · split
      · exact (n.recordMatch idx (args.prevLogIndex + args.entries.length)).commitIndex_le_advance
      · rw [backOff]
        split
        · exact le_refl _
        · split <;> exact le_refl _

theorem handleRequestVote_commitIndex (n : Node N) (args : RequestVoteArgs N) :
    (n.handleRequestVote args).1.commitIndex = n.commitIndex := by
  have hgrant : ∀ m : Node N, (m.grantVote args).1.commitIndex = m.commitIndex := fun m => by
    rw [grantVote]
    split
    · rfl
    · split
      · rfl
      · split <;> rfl
  rw [handleRequestVote]
  split
  · rfl
  · show ((if args.term > n.currentTerm then n.stepDown args.term else n).grantVote args).1.commitIndex
      = _
    rw [hgrant]
    split <;> rfl

theorem handleInstallSnapshot_commitIndex_lt_iff (n : Node N) (args : InstallSnapshotArgs N) :
    (n.handleInstallSnapshot args).1.commitIndex < n.commitIndex ↔
      n.currentTerm ≤ args.term ∧ n.snapshotLastIndex < args.lastIncludedIndex ∧
        args.lastIncludedIndex < n.commitIndex := by
  have hadopt : (n.adoptTerm args.term).commitIndex = n.commitIndex := by
    rw [adoptTerm]
    split <;> rfl
  rcases Nat.lt_or_ge args.term n.currentTerm with hlt | hge
  · rw [handleInstallSnapshot_of_stale hlt]
    simp only [lt_irrefl, false_iff]
    omega
  · rw [handleInstallSnapshot_of_le hge]
    dsimp only
    split
    case isTrue hle =>
      rw [hadopt]
      omega
    case isFalse hnew =>
      show args.lastIncludedIndex < n.commitIndex ↔ _
      omega

end Node

theorem Sim.ordered (hS : Sim md s g) (v : Fin N) : (s.node v).Ordered where
  snapshot_le := by
    rw [(hS.node v).applied]
    exact (hS.node v).index_le
  applied_le := le_of_eq (hS.node v).applied
  commit_le := by
    have hn := hS.node v
    rcases hn.com_held with h | h
    · omega
    · rw [← hn.com_len, ← hn.view.virt_len]
      exact h.length_le

theorem Sim.commitIndex_le (hS : Sim md s g) {a : Action N} (h : Next s a s') (hok : md.Ok s a)
    (hinstall : ¬ RegressingInstall s a) (v : Fin N) : (s.node v).commitIndex ≤ (s'.node v).commitIndex := by
  have key : ∀ (i : Fin N) (n : Node N), (s.node i).commitIndex ≤ n.commitIndex →
      ∀ v, (s.node v).commitIndex ≤ ((s.setNode i n).node v).commitIndex := fun i n hn =>
    s.forall_setNode i n (P := fun v m => (s.node v).commitIndex ≤ m.commitIndex) hn
      fun v _ => le_refl _
  have hnext := h
  cases h with
  | dispatch i pc hpc hpc' => exact le_refl _
  | electionTimeout i hpc =>
    refine key i _ ?_ v
    exact le_refl _
  | campaign i hpc =>
    refine key i _ ?_ v
    exact le_refl _
  | voteHandler k q args hk =>
    exact key q _ (le_of_eq (handleRequestVote_commitIndex _ _).symm) v
  | voteHigher k q args reply granted hk hpc hterm =>
    refine key args.candidateID _ ?_ v
    exact le_refl _
  | voteWins k q args reply granted hk hpc hgrant hstate hmaj =>
    refine key args.candidateID _ ?_ v
    exact le_refl _
  | voteCounts k q args reply granted hk hpc hgrant => exact le_refl _
  | voteIgnored k => exact le_refl _
  | voteTimeout i => exact le_refl _
  | tick i pc hpc hpc' => exact le_refl _
  | command i cmd hpc hst =>
    refine key i _ ?_ v
    exact le_refl _
  | commandLost i cmd hpc => exact le_refl _
  | broadcast i hpc => exact le_refl _
  | endSpawned k => exact le_refl _
  | build k c stage hk hc hst hb => exact le_refl _
  | deliverAppend k c args hk hc => exact key c.peer _ (hS.deliverAppend hk hc hok hnext).2 v
  | deliverSnapshot k c args hk hc =>
    refine key c.peer _ (Nat.le_of_not_lt fun hlt => hinstall ⟨c, hk, args, hc, ?_⟩) v
    exact (handleInstallSnapshot_commitIndex_lt_iff _ _).1 hlt
  | processAppend k c args reply hk hc =>
    exact key c.leader _ (commitIndex_le_processAppendReply _ _ _ _) v
  | processSnapshot k c args reply hk hc =>
    refine key c.leader _ ?_ v
    rw [processSnapshotReply]
    split <;> exact le_refl _

/-- The steps under which the counters behave. -/
def KeepsCounters (s : Cluster N) (a : Action N) : Prop := Sound s a ∧ ¬ RegressingInstall s a

theorem grows_step (h : ReachableIf KeepsCounters s) {a : Action N} (hok : KeepsCounters s a)
    (hs : Cluster.step s a = some s') (v : Fin N) : (s.node v).Grows (s'.node v) := by
  have hmode : ∀ (s : Cluster N) a, KeepsCounters s a → Mode.Ok ⟨False, False⟩ s a :=
    fun s a hs => ⟨hs.1, False.elim, False.elim⟩
  obtain ⟨g, hS⟩ := sim_reachable hmode h
  have hnext := next_of_step hs
  obtain ⟨g', hS'⟩ := hS.next hnext (hmode s a hok)
  have hci := hS.commitIndex_le hnext (hmode s a hok) hok.2 v
  refine ⟨hci, ?_, (hnext.voteStep v).term⟩
  rw [(hS.node v).applied, (hS'.node v).applied]
  exact hci

/-- The bookkeeping of a run that has reached `s` and goes on to `s'`: the counters are in order, and
none that must grow has decreased. -/
def Bookkeeping (s s' : Cluster N) : Prop :=
  ∀ v, (s'.node v).Ordered ∧ (s.node v).Grows (s'.node v)

/-- **Index bookkeeping over whole runs**: the counters are in order in every state, and commit
index, applied index and term never decrease from one state of a run to a later one. -/
theorem index_bookkeeping (h : ReachableIf KeepsCounters s)
    (h' : Core.ReachableIf Cluster.step KeepsCounters s s') : Bookkeeping s s' := by
  have hrun : ReachableIf KeepsCounters s' ∧ ∀ v, (s.node v).Grows (s'.node v) := by
    induction h' with
    | init => exact ⟨h, fun v => .refl _⟩
    | step a _ hok hs ih =>
      obtain ⟨hr, hgrows⟩ := ih
      exact ⟨.step a hr hok hs, fun v => (hgrows v).trans (grows_step hr hok hs v)⟩
  have hsim : ∃ g, Sim ⟨False, False⟩ s' g :=
    sim_reachable (fun s a hs => ⟨hs.1, False.elim, False.elim⟩) hrun.1
  obtain ⟨g, hS⟩ := hsim
  exact fun v => ⟨hS.ordered v, hrun.2 v⟩

/-- The run of one commit goes on to a second broadcast. -/
theorem index_bookkeeping_commitRun : ∃ s s' : Cluster 3, Bookkeeping s s' ∧
    (s.node 0).commitIndex = 0 ∧ (s'.node 0).commitIndex = 1 := by
  have hok : ∀ (s : Cluster 3) a, plainStep s a = true → KeepsCounters s a :=
    fun s a hp => ⟨(plainStep_ok hp).1, (plainStep_ok hp).2.2.2⟩
  have h : (execIf Cluster.step plainStep (newCluster 3) commitRun).map
      (fun s => (s.node 0).commitIndex) = some 1 := by rfl
  obtain ⟨s, hs, hview⟩ := map_eq_some_iff.1 h
  exact ⟨newCluster 3, s, index_bookkeeping .init (ReachableIf.init.execIf hok hs), rfl, hview⟩

/-- **The bookkeeping fails without the condition**: a delayed snapshot sets the commit index of node
1 back to the index of the snapshot. -/
theorem index_bookkeeping_violated : ∃ s s' : Cluster 3, Reachable s ∧
    Core.Reachable Cluster.step s s' ∧ ¬ Bookkeeping s s' := by
  obtain ⟨k, hk⟩ : ∃ k, snapshotThreshold < k := ⟨_, Nat.lt_succ_self _⟩
  have hpos : 0 < k := by omega
  obtain ⟨a, rest, ha, h⟩ := reaches_compacted hk
  -- node 1 receives the whole log, the leader learns of it, and the next entry is committed
  have h1 := h.deliverAppend_one (k := 0) rfl
  rw [handle_first] at h1
  have h2 := h1.processAppend (k := 0) rfl
  obtain ⟨a', c', calls, j, -, h3, hsnapshot, hj0, hj⟩ := reaches_next hpos (ha.processAppend hpos) h2
  have h4 := h3.deliverAppend_one hj
  rw [handle_next 1 hpos] at h4
  have hfollow : followCommit { voter 1 with log := fillLog k ++ [nextEntry] } (k + 1) =
      (setCommitIndex { voter 1 with log := fillLog k ++ [nextEntry] } (k + 1)).applyCommitted := by
    have hlast : (voter 1).snapshotLastIndex + (fillLog k ++ [nextEntry]).length = k + 1 := by
      rw [length_append, length_fillLog]
      exact Nat.zero_add _
    rw [followCommit]
    rw [if_pos (show k + 1 > (voter 1).commitIndex from Nat.succ_pos k)]
    dsimp only
    rw [hlast, if_neg (Nat.lt_irrefl _)]
  obtain ⟨s, hr, -, -, hnode1, -, hcalls⟩ := h4
  -- the snapshot arrives
  have hk0 : s.appendCalls[0]? = some (callTo 0 1 (.sentSnapshot (firstSnapshot k))) := by
    rw [hcalls, getElem?_set_ne (by omega)]
    exact hsnapshot
  have hstep := step_deliverSnapshot hk0 rfl
  refine ⟨s, _, hr, .step (.goroutine 0) .init trivial hstep, fun hbook => ?_⟩
  have hgrows := (hbook 1).2.commitIndex
  have hlower : ((s.node 1).handleInstallSnapshot (firstSnapshot k)).1.commitIndex <
      (s.node 1).commitIndex := by
    rw [handleInstallSnapshot_commitIndex_lt_iff, hnode1, hfollow,
      (control_eq_iff.1 (applyCommitted_control _)).2.1,
      (window_eq_iff.1 (applyCommitted_window _)).2.1, applyCommitted_commitIndex]
    exact ⟨le_refl 1, hpos, Nat.lt_succ_self k⟩
  exact absurd hgrows (Nat.not_le_of_lt hlower)

end SystemDesignLabs.Raft
