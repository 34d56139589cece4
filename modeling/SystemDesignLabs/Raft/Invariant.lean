import SystemDesignLabs.Core.LeaderSteps
import SystemDesignLabs.Raft.Election
import SystemDesignLabs.Raft.Replay

/-!
# The simulation invariant

`Sim md s g` relates a cluster state `s` to a ghost state `g`: a state of the abstract leader
protocol whose participants are the nodes, and for every node the log its snapshot stands for
(`base`) and the log it has committed (`com`). A node's held log is a window of the log the
participant holds (`Node.View`), a leader holds the log of its term, and every goroutine carries
evidence for the request or the reply that it transports (`StageOk`).

Two parts of the invariant are only kept by runs without certain steps; `Mode` switches them on. With
`replays`, the maps of a node are the replays of the committed logs; with `tracks`, a leader's
`matchIndex` says what the peer holds, not only what has been committed anyway.
-/

namespace SystemDesignLabs.Raft

open Core Cluster

variable {N : Nat}

/-- The optional parts of the invariant. -/
structure Mode where
  /-- Maps are replays; needs that no step applies entries to a shared map. -/
  replays : Prop
  /-- `matchIndex` is what peers hold; needs that no stale InstallSnapshot reply is processed. -/
  tracks : Prop

/-- The steps under which the invariant of a mode is kept. -/
def Mode.Ok (md : Mode) (s : Cluster N) (a : Action N) : Prop :=
  Sound s a ∧ (md.replays → ¬ AppliesShared s a) ∧ (md.tracks → ¬ StaleInstallReply s a)

/-- The abstract protocol, the compacted logs and the committed logs. -/
structure Ghost (N : Nat) where
  p : Protocol (Fin N) LogEntry
  base : Fin N → List LogEntry
  com : Fin N → List LogEntry

namespace Ghost

/-- The history of `g'` extends the history of `g`. -/
structure Extends (g g' : Ghost N) : Prop where
  p : g.p.Extends g'.p
  base : ∀ v, g.base v <+: g'.base v

theorem Extends.refl (g : Ghost N) : g.Extends g := ⟨.refl _, fun _ => List.prefix_refl _⟩

/-- The evidence behind `matchIndex = m` for the peer `q` in term `T`: the first `m` entries are
committed, or `q` was recorded to hold them. -/
def Ev (g : Ghost N) (q : Fin N) (T m : Nat) : Prop :=
  (∃ P, g.p.Committed T P ∧ m ≤ P.length) ∨ g.p.matched q T m

/-- The peer's snapshot covers the first `m` entries, or it was recorded to hold them. -/
def Tracked (g : Ghost N) (q : Fin N) (T m : Nat) : Prop :=
  m ≤ (g.base q).length ∨ g.p.matched q T m

theorem Ev.extends {g g' : Ghost N} (hp : g.p.Sound tm) (h : g.Extends g') {q : Fin N} {T m : Nat}
    (hev : g.Ev q T m) : g'.Ev q T m := by
  rcases hev with ⟨P, hP, hm⟩ | hm
  · exact Or.inl ⟨P, hP.extends hp h.p, hm⟩
  · exact Or.inr (h.p.matched q T m hm)

theorem Tracked.extends {g g' : Ghost N} (h : g.Extends g') {q : Fin N} {T m : Nat}
    (hev : g.Tracked q T m) : g'.Tracked q T m := by
  rcases hev with hm | hm
  · exact Or.inl (le_trans hm (h.base q).length_le)
  · exact Or.inr (h.p.matched q T m hm)

end Ghost

/-! ## Nodes -/

/-- The maps of a node whose snapshot stands for `B` and which has committed and applied `K`. -/
structure MapsOk (n : Node N) (B K : List LogEntry) : Prop where
  live_lt : n.stateMachine < n.maps.length
  live : n.readMap n.stateMachine = replay KV.empty K
  snap : ∀ snap ∈ n.snapshot, snap.stateMachine < n.maps.length ∧
    snap.lastIncludedIndex = B.length ∧ n.readMap snap.stateMachine = replay KV.empty B

/-- What a leader knows. -/
structure LeaderOk (md : Mode) (g : Ghost N) (v : Fin N) (n : Node N) : Prop where
  led : n.currentTerm ∈ n.ledTerms
  log : g.p.log n.currentTerm = g.p.held v
  direct : ∀ k, g.p.direct n.currentTerm k → k ≤ n.commitIndex
  slots : ∀ i q, (peers v)[i]? = some q →
    g.Ev q n.currentTerm (n.matchIndex.getD i 0) ∧
      (md.tracks → g.Tracked q n.currentTerm (n.matchIndex.getD i 0))

/-- The log of a node, its snapshot and its counters. -/
structure NodeOk (md : Mode) (g : Ghost N) (v : Fin N) (n : Node N) : Prop where
  seen : g.p.seen v = n.currentTerm
  view : Node.View n (g.base v) (g.p.held v)
  com_len : (g.com v).length = n.commitIndex
  applied : n.lastApplied = n.commitIndex
  com_committed : g.p.Committed n.currentTerm (g.com v)
  base_com : g.base v <+: g.com v
  com_held : n.commitIndex = n.snapshotLastIndex ∨ g.com v <+: g.p.held v
  ledTerms : ∀ t ∈ n.ledTerms, g.p.led t
  stays : n.currentTerm ∈ n.ledTerms → n.state = .leader
  leader : n.state = .leader → LeaderOk md g v n
  slots_len : n.matchIndex.length = (peers v).length
  committed : ∀ i e, (i, e) ∈ n.committed → 0 < i ∧ g.p.top[i - 1]? = some e
  applyCh : ∀ cmd i, ApplyMsg.command cmd i ∈ n.applyCh →
    0 < i ∧ ∃ e, g.p.top[i - 1]? = some e ∧ e.command = cmd
  maps : md.replays → MapsOk n (g.base v) (g.com v)

/-! ## Goroutines -/

/-- A vote request describes the log with which its candidate started the election. -/
structure VoteCallOk (g : Ghost N) (c : VoteCall N) : Prop where
  vote : g.p.vote c.args.candidateID c.args.term = some c.args.candidateID
  lastLogIndex : c.args.lastLogIndex = (g.p.voteLog c.args.candidateID c.args.term).length
  lastLogTerm : c.args.lastLogTerm = lastTerm tm (g.p.voteLog c.args.candidateID c.args.term)

/-- The evidence a broadcast goroutine carries. -/
def StageOk (md : Mode) (s : Cluster N) (g : Ghost N) (c : AppendCall N) : Stage N → Prop
  | .spawned => True
  | .sentAppend args => args.term = c.term ∧ c.term ∈ (s.node c.leader).ledTerms ∧
      ∃ M, M <+: g.p.log c.term ∧ Node.FromLog args M ∧
        ∃ K, K.length = args.leaderCommit ∧ K <+: M ∧ g.p.Committed c.term K
  | .repliedAppend args reply => reply.success = true →
      g.Ev c.peer c.term (args.prevLogIndex + args.entries.length) ∧
        (md.tracks → g.Tracked c.peer c.term (args.prevLogIndex + args.entries.length))
  | .sentSnapshot args => args.term = c.term ∧ c.term ∈ (s.node c.leader).ledTerms ∧
      ∃ P, g.p.Committed c.term P ∧ P.length = args.lastIncludedIndex ∧
        lastTerm tm P = args.lastIncludedTerm ∧
        (md.replays → args.data.lastIncludedIndex = P.length ∧
          args.data.stateMachine = replay KV.empty P)
  | .repliedSnapshot args reply => md.tracks → reply.term ≤ c.term →
      args.lastIncludedIndex ≤ (g.base c.peer).length

/-- A broadcast goroutine. -/
structure AppendCallOk (md : Mode) (s : Cluster N) (g : Ghost N) (c : AppendCall N) : Prop where
  peer : (peers c.leader)[c.peerIdx]? = some c.peer
  commit : ∃ P, g.p.Committed c.term P ∧ c.commitIndex ≤ P.length
  stage : StageOk md s g c c.stage

/-! ## The cluster -/

/-- The simulation invariant. -/
structure Sim (md : Mode) (s : Cluster N) (g : Ghost N) : Prop where
  sound : g.p.Sound tm
  votes : VoteInv s g.p.vote
  node : ∀ v, NodeOk md g v (s.node v)
  led : ∀ t, g.p.led t → ∃ i, t ∈ (s.node i).ledTerms
  pcs : ∀ i, (s.node i).state = .leader → s.pc i = .run ∨ s.pc i = .broadcast ∨ s.pc i = .leading
  loop : ∀ i t l, s.pc i = .votes t l → (s.node i).state = .candidate →
    g.p.held i = g.p.voteLog i t ∨ g.p.led t
  voteCalls : ∀ c ∈ s.voteCalls, VoteCallOk g c
  appendCalls : ∀ c ∈ s.appendCalls, AppendCallOk md s g c
  recorded : ∀ i e, g.p.top[i]? = some e → ∃ v, (i + 1, e) ∈ (s.node v).committed

/-- The ghost state of a new cluster. -/
def Ghost.initial (N : Nat) : Ghost N := ⟨Protocol.initial (Fin N) LogEntry, fun _ => [], fun _ => []⟩

theorem nodeOk_init (md : Mode) (v : Fin N) : NodeOk md (Ghost.initial N) v (newNode v) where
  seen := rfl
  view := ⟨rfl, rfl, rfl, rfl, fun _ => rfl⟩
  com_len := rfl
  applied := rfl
  com_committed := Or.inl rfl
  base_com := List.prefix_refl _
  com_held := Or.inl rfl
  ledTerms := fun t h => absurd h (by simp [newNode])
  stays := fun h => absurd h (by simp [newNode])
  leader := fun h => absurd h (by simp [newNode])
  slots_len := by simp [newNode]
  committed := fun i e h => absurd h (by simp [newNode])
  applyCh := fun cmd i h => absurd h (by simp [newNode])
  maps := fun _ => ⟨by simp [newNode], rfl, fun snap h => absurd h (by simp [newNode])⟩

theorem sim_init (md : Mode) : Sim md (newCluster N) (Ghost.initial N) where
  sound := Protocol.Sound.initial
  votes := voteInv_init
  node := nodeOk_init md
  led := fun t h => h.elim
  pcs := fun i h => absurd h (by simp [newCluster, newNode])
  loop := fun i t l h => absurd h (by simp [newCluster])
  voteCalls := fun c h => absurd h (by simp [newCluster])
  appendCalls := fun c h => absurd h (by simp [newCluster])
  recorded := fun i e h => absurd h (by simp [Ghost.initial, Protocol.initial])

/-! ## Growth of the ghost state -/

section Mono

variable {md : Mode} {s s' : Cluster N} {g g' : Ghost N}

theorem top_getElem? (h : g.Extends g') {i : Nat} {e : LogEntry} (he : g.p.top[i]? = some e) :
    g'.p.top[i]? = some e := by
  obtain ⟨r, hr⟩ := h.p.top
  have hlt := (List.getElem?_eq_some_iff.1 he).1
  rw [← hr, List.getElem?_append_left hlt]
  exact he

theorem NodeOk.extends (hp : g.p.Sound tm) (h : g.Extends g') {v : Fin N} {n : Node N}
    (hn : NodeOk md g v n) (hseen : g'.p.seen v = g.p.seen v) (hheld : g'.p.held v = g.p.held v)
    (hbase : g'.base v = g.base v) (hcom : g'.com v = g.com v)
    (hleader : n.state = .leader → g'.p.log n.currentTerm = g.p.log n.currentTerm ∧
      ∀ k, g'.p.direct n.currentTerm k → g.p.direct n.currentTerm k) : NodeOk md g' v n where
  seen := hseen.trans hn.seen
  view := by rw [hbase, hheld]; exact hn.view
  com_len := by rw [hcom]; exact hn.com_len
  applied := hn.applied
  com_committed := by rw [hcom]; exact hn.com_committed.extends hp h.p
  base_com := by rw [hbase, hcom]; exact hn.base_com
  com_held := by rw [hcom, hheld]; exact hn.com_held
  ledTerms := fun t ht => h.p.led t (hn.ledTerms t ht)
  stays := hn.stays
  leader := fun hst => by
    obtain ⟨hlog, hdirect⟩ := hleader hst
    have hl := hn.leader hst
    refine ⟨hl.led, by rw [hlog, hheld]; exact hl.log, fun k hk => hl.direct k (hdirect k hk),
      fun i q hq => ?_⟩
    obtain ⟨h1, h2⟩ := hl.slots i q hq
    exact ⟨h1.extends hp h, fun ht => (h2 ht).extends h⟩
  slots_len := hn.slots_len
  committed := fun i e hi => ⟨(hn.committed i e hi).1, top_getElem? h (hn.committed i e hi).2⟩
  applyCh := fun cmd i hi => by
    obtain ⟨hpos, e, he, hcmd⟩ := hn.applyCh cmd i hi
    exact ⟨hpos, e, top_getElem? h he, hcmd⟩
  maps := fun hr => by rw [hbase, hcom]; exact hn.maps hr

theorem VoteCallOk.extends (h : g.Extends g') {c : VoteCall N} (hc : VoteCallOk g c) : VoteCallOk g' c := by
  obtain ⟨h1, h2⟩ := h.p.vote _ _ _ hc.vote
  exact ⟨h1, by rw [h2]; exact hc.lastLogIndex, by rw [h2]; exact hc.lastLogTerm⟩

theorem StageOk.extends (hp : g.p.Sound tm) (h : g.Extends g')
    (hled : ∀ v, ∀ t ∈ (s.node v).ledTerms, t ∈ (s'.node v).ledTerms) {c : AppendCall N}
    {stage : Stage N} (hc : StageOk md s g c stage) : StageOk md s' g' c stage := by
  cases stage with
  | spawned => trivial
  | sentAppend args =>
    obtain ⟨h1, h2, M, hM, hfrom, K, hK, hKM, hcom⟩ := hc
    exact ⟨h1, hled _ _ h2, M, hM.trans (h.p.log _), hfrom, K, hK, hKM, hcom.extends hp h.p⟩
  | repliedAppend args reply =>
    intro hs
    obtain ⟨h1, h2⟩ := hc hs
    exact ⟨h1.extends hp h, fun ht => (h2 ht).extends h⟩
  | sentSnapshot args =>
    obtain ⟨h1, h2, P, hP, hlen, hterm, hdata⟩ := hc
    exact ⟨h1, hled _ _ h2, P, hP.extends hp h.p, hlen, hterm, hdata⟩
  | repliedSnapshot args reply =>
    intro ht hr
    exact le_trans (hc ht hr) (h.base _).length_le

theorem AppendCallOk.extends (hp : g.p.Sound tm) (h : g.Extends g')
    (hled : ∀ v, ∀ t ∈ (s.node v).ledTerms, t ∈ (s'.node v).ledTerms) {c : AppendCall N}
    (hc : AppendCallOk md s g c) : AppendCallOk md s' g' c := by
  obtain ⟨P, hP, hle⟩ := hc.commit
  exact ⟨hc.peer, ⟨P, hP.extends hp h.p, hle⟩, hc.stage.extends hp h hled⟩

end Mono

end SystemDesignLabs.Raft
