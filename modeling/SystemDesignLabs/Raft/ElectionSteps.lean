import SystemDesignLabs.Raft.Invariant

/-!
# Timers, votes and elections keep the simulation invariant

A step that changes no node keeps the ghost state (`Sim.of_idle`). A step that changes one node is a
`LocalStep`: it comes with the new ghost state, what that leaves alone, and the proof obligations for
the node and for new goroutines; `LocalStep.sim` assembles the invariant. The steps of elections
follow: an election timeout, `runCandidate`'s first section (`raise` and `cast` of the abstract
protocol), the vote handler (the same at the voter), and `becomeLeader` (`elect`).
-/

namespace SystemDesignLabs.Raft

open List Core Cluster Node Or

variable {N : Nat} {md : Mode} {s s' : Cluster N} {g g' : Ghost N} {a : Action N}

/-! ## The book of votes -/

/-- A section after which the node has no vote, or the same one in the same term. -/
def Node.KeepsVote (n n' : Node N) : Prop :=
  n'.votedFor = none ∨ (n'.votedFor = n.votedFor ∧ n'.currentTerm = n.currentTerm)

theorem Node.KeepsVote.of_control {n m n' : Node N} (h : Node.KeepsVote n m)
    (hc : n'.control = m.control) : Node.KeepsVote n n' := by
  obtain ⟨-, h2, h3, -, -⟩ := control_eq_iff.1 hc
  rcases h with h | ⟨h, h'⟩
  · exact inl (h3.trans h)
  · exact inr ⟨h3.trans h, h2.trans h'⟩

theorem Node.KeepsVote.refl (n : Node N) : Node.KeepsVote n n := inr ⟨rfl, rfl⟩

variable {b : VoteBook N}

theorem VoteInv.next_eq (hI : VoteInv s b) (h : ∀ v, Node.KeepsVote (s.node v) (s'.node v)) : b.next s' = b := by
  funext v t
  unfold VoteBook.next
  split
  case isFalse => rfl
  case isTrue hc =>
    obtain ⟨rfl, hne⟩ := hc
    rcases h v with hnone | ⟨hv, ht⟩
    · exact absurd hnone hne
    · rw [hv, ht, hI.voted_cur v]

variable {i : Fin N}

theorem keepsVote_setNode (hne : ∀ v, v ≠ i → s'.node v = s.node v)
    (h : Node.KeepsVote (s.node i) (s'.node i)) : ∀ v, Node.KeepsVote (s.node v) (s'.node v) := by
  intro v
  by_cases hv : v = i
  · exact hv ▸ h
  · rw [hne v hv]
    exact .refl _

/-! ## Steps that change no node -/

/-- A step that changes no node keeps the invariant with the same ghost state. -/
theorem Sim.of_idle (hS : Sim md s g) (hnext : Next s a s') (hnode : s'.node = s.node)
    (hpcs : ∀ i, (s.node i).state = .leader → s'.pc i = .run ∨ s'.pc i = .broadcast ∨ s'.pc i = .leading)
    (hloop : ∀ i t l, s'.pc i = .votes t l → ∃ l', s.pc i = .votes t l')
    (hvc : ∀ c ∈ s'.voteCalls, c ∈ s.voteCalls ∨ VoteCallOk g c)
    (hac : ∀ c ∈ s'.appendCalls, c ∈ s.appendCalls ∨ AppendCallOk md s g c) : Sim md s' g where
  sound := hS.sound
  votes := by
    have hbook : VoteBook.next g.p.vote s' = g.p.vote :=
      hS.votes.next_eq fun v => by rw [hnode]; exact .refl _
    have h := hS.votes.next hnext
    rwa [hbook] at h
  node := fun v => by rw [hnode]; exact hS.node v
  led := fun t ht => by rw [hnode]; exact hS.led t ht
  pcs := fun i hi => hpcs i (by rw [← hnode]; exact hi)
  loop := fun i t l hpc hst => by
    obtain ⟨l', hl'⟩ := hloop i t l hpc
    exact hS.loop i t l' hl' (by rw [← hnode]; exact hst)
  voteCalls := fun c hc => (hvc c hc).elim (hS.voteCalls c) id
  appendCalls := fun c hc => by
    have hled : ∀ v, ∀ t ∈ (s.node v).ledTerms, t ∈ (s'.node v).ledTerms := by
      intro v t ht
      rwa [hnode]
    rcases hac c hc with h | h
    · exact (hS.appendCalls c h).extends hS.sound (.refl g) hled
    · exact h.extends hS.sound (.refl g) hled
  recorded := fun i e he => by rw [hnode]; exact hS.recorded i e he

theorem Sim.setPc (hS : Sim md s g) {pc : Pc N} (hnext : Next s a (s.setPc i pc))
    (hlead : (s.node i).state = .leader → pc = .run ∨ pc = .broadcast ∨ pc = .leading)
    (hvotes : ∀ t l, pc ≠ .votes t l) : Sim md (s.setPc i pc) g := by
  refine hS.of_idle hnext rfl (fun j hj => ?_) (fun j t l hj => ?_) (fun _ h => inl h)
    fun _ h => inl h
  · by_cases hji : j = i
    · subst hji
      rw [setPc_pc_self]
      exact hlead hj
    · rw [setPc_pc_ne _ _ _ hji]
      exact hS.pcs j hj
  · exact ⟨l, setPc_votes hvotes j t l hj⟩

/-! ## Steps that change one node -/

/-- A step that changes the node `i` only, with the ghost state after it. -/
structure LocalStep (md : Mode) (s s' : Cluster N) (g g' : Ghost N) (i : Fin N) : Prop where
  node_ne : ∀ v, v ≠ i → s'.node v = s.node v
  pc_ne : ∀ v, v ≠ i → s'.pc v = s.pc v
  sound : g'.p.Sound tm
  ext : g.Extends g'
  vote : VoteBook.next g.p.vote s' = g'.p.vote
  ghost_ne : ∀ v, v ≠ i → g'.p.seen v = g.p.seen v ∧ g'.p.held v = g.p.held v ∧
    g'.base v = g.base v ∧ g'.com v = g.com v
  leader_ne : ∀ v, v ≠ i → (s.node v).state = .leader →
    g'.p.log (s.node v).currentTerm = g.p.log (s.node v).currentTerm ∧
      ∀ k, g'.p.direct (s.node v).currentTerm k → g.p.direct (s.node v).currentTerm k
  node : NodeOk md g' i (s'.node i)
  ledTerms : ∀ t ∈ (s.node i).ledTerms, t ∈ (s'.node i).ledTerms
  led : ∀ t, g'.p.led t → g.p.led t ∨ t ∈ (s'.node i).ledTerms
  pcs : (s'.node i).state = .leader → s'.pc i = .run ∨ s'.pc i = .broadcast ∨ s'.pc i = .leading
  loop : ∀ t l, s'.pc i = .votes t l → (s'.node i).state = .candidate →
    g'.p.held i = g'.p.voteLog i t ∨ g'.p.led t
  voteCalls : ∀ c ∈ s'.voteCalls, c ∈ s.voteCalls ∨ VoteCallOk g' c
  appendCalls : ∀ c ∈ s'.appendCalls, c ∈ s.appendCalls ∨ AppendCallOk md s' g' c
  history : ∀ x ∈ (s.node i).committed, x ∈ (s'.node i).committed
  recorded : ∀ j e, g'.p.top[j]? = some e →
    g.p.top[j]? = some e ∨ (j + 1, e) ∈ (s'.node i).committed

theorem LocalStep.ledTerms_all (hl : LocalStep md s s' g g' i) :
    ∀ v, ∀ t ∈ (s.node v).ledTerms, t ∈ (s'.node v).ledTerms := by
  intro v t ht
  by_cases hv : v = i
  · subst hv
    exact hl.ledTerms t ht
  · rw [hl.node_ne v hv]
    exact ht

/-- A local step keeps the invariant. -/
theorem LocalStep.sim (hl : LocalStep md s s' g g' i) (hS : Sim md s g) (hnext : Next s a s') : Sim md s' g' where
  sound := hl.sound
  votes := hl.vote ▸ hS.votes.next hnext
  node := fun v => by
    by_cases hv : v = i
    · subst hv
      exact hl.node
    · rw [hl.node_ne v hv]
      obtain ⟨h1, h2, h3, h4⟩ := hl.ghost_ne v hv
      exact (hS.node v).extends hS.sound hl.ext h1 h2 h3 h4 (hl.leader_ne v hv)
  led := fun t ht => by
    rcases hl.led t ht with h | h
    · obtain ⟨v, hv⟩ := hS.led t h
      exact ⟨v, hl.ledTerms_all v t hv⟩
    · exact ⟨i, h⟩
  pcs := fun v hv => by
    by_cases hvi : v = i
    · subst hvi
      exact hl.pcs hv
    · rw [hl.pc_ne v hvi]
      rw [hl.node_ne v hvi] at hv
      exact hS.pcs v hv
  loop := fun v t l hpc hst => by
    by_cases hvi : v = i
    · subst hvi
      exact hl.loop t l hpc hst
    · rw [hl.pc_ne v hvi] at hpc
      rw [hl.node_ne v hvi] at hst
      have hvote := ((hS.votes.loop v t l hpc).self hst).2
      rw [(hl.ghost_ne v hvi).2.1, (hl.ext.p.vote v t v hvote).2]
      exact (hS.loop v t l hpc hst).imp_right (hl.ext.p.led t)
  voteCalls := fun c hc => by
    rcases hl.voteCalls c hc with h | h
    · exact (hS.voteCalls c h).extends hl.ext
    · exact h
  appendCalls := fun c hc => by
    rcases hl.appendCalls c hc with h | h
    · exact (hS.appendCalls c h).extends hS.sound hl.ext hl.ledTerms_all
    · exact h
  recorded := fun j e he => by
    rcases hl.recorded j e he with h | h
    · obtain ⟨v, hv⟩ := hS.recorded j e h
      by_cases hvi : v = i
      · subst hvi
        exact ⟨v, hl.history _ hv⟩
      · exact ⟨v, by rw [hl.node_ne v hvi]; exact hv⟩
    · exact ⟨i, h⟩

/-! ## Changes of a node that leave its log alone -/

/-- The part of a node that elections do not touch. -/
structure SameLog (n n' : Node N) : Prop where
  window : n'.window = n.window
  commitIndex : n'.commitIndex = n.commitIndex
  lastApplied : n'.lastApplied = n.lastApplied
  matchIndex : n'.matchIndex.length = n.matchIndex.length
  committed : n'.committed = n.committed
  applyCh : n'.applyCh = n.applyCh
  stateMachine : n'.stateMachine = n.stateMachine
  maps : n'.maps = n.maps
  snapshot : n'.snapshot = n.snapshot

variable {n n' : Node N}

theorem MapsOk.congr {B K : List LogEntry} (h : MapsOk n B K) (hsm : n'.stateMachine = n.stateMachine)
    (hmaps : n'.maps = n.maps) (hsnap : n'.snapshot = n.snapshot) : MapsOk n' B K := by
  have hread : ∀ ref, n'.readMap ref = n.readMap ref := by
    intro ref
    unfold readMap
    rw [hmaps]
  refine ⟨by rw [hsm, hmaps]; exact h.live_lt, by rw [hread, hsm]; exact h.live, fun snap hs => ?_⟩
  rw [hsnap] at hs
  obtain ⟨h1, h2, h3⟩ := h.snap snap hs
  exact ⟨by rw [hmaps]; exact h1, h2, by rw [hread]; exact h3⟩

theorem NodeOk.sameLog {v : Fin N} (hp : g.p.Sound tm) (hn : NodeOk md g v n) (h : SameLog n n')
    (hext : g.Extends g') (hseen : g'.p.seen v = n'.currentTerm) (hterm : n.currentTerm ≤ n'.currentTerm)
    (hheld : g'.p.held v = g.p.held v) (hbase : g'.base v = g.base v) (hcom : g'.com v = g.com v)
    (hled : ∀ t ∈ n'.ledTerms, g'.p.led t) (hstays : n'.currentTerm ∈ n'.ledTerms → n'.state = .leader)
    (hleader : n'.state = .leader → LeaderOk md g' v n') : NodeOk md g' v n' where
  seen := hseen
  view := by rw [hbase, hheld]; exact hn.view.congr h.window
  com_len := by rw [hcom, h.commitIndex]; exact hn.com_len
  applied := by rw [h.lastApplied, h.commitIndex]; exact hn.applied
  com_committed := by rw [hcom]; exact (hn.com_committed.mono hterm).extends hp hext.p
  base_com := by rw [hbase, hcom]; exact hn.base_com
  com_held := by
    rw [hcom, hheld, h.commitIndex, (window_eq_iff.1 h.window).2.1]
    exact hn.com_held
  ledTerms := hled
  stays := hstays
  leader := hleader
  slots_len := by rw [h.matchIndex]; exact hn.slots_len
  committed := fun i e hi => by
    rw [h.committed] at hi
    exact ⟨(hn.committed i e hi).1, top_getElem? hext (hn.committed i e hi).2⟩
  applyCh := fun cmd i hi => by
    rw [h.applyCh] at hi
    obtain ⟨hpos, e, he, hcmd⟩ := hn.applyCh cmd i hi
    exact ⟨hpos, e, top_getElem? hext he, hcmd⟩
  maps := fun hr => by
    rw [hbase, hcom]
    exact (hn.maps hr).congr h.stateMachine h.maps h.snapshot

/-! ## Seeing a higher term -/

/-- `i` sees the term `T`. -/
def Ghost.raise (g : Ghost N) (i : Fin N) (T : Nat) : Ghost N := { g with p := g.p.raise i T }

variable {T : Nat}

theorem Ghost.Extends.raise (h : g.p.seen i ≤ T) : g.Extends (g.raise i T) :=
  ⟨Protocol.Extends.raise h, fun _ => prefix_refl _⟩

@[simp] theorem Ghost.raise_seen_self (g : Ghost N) (i : Fin N) (T : Nat) : (g.raise i T).p.seen i = T := by
  simp [Ghost.raise, Protocol.raise]

theorem Ghost.raise_seen_ne (g : Ghost N) {v : Fin N} (T : Nat) (h : v ≠ i) : (g.raise i T).p.seen v = g.p.seen v := by
  simp [Ghost.raise, Protocol.raise, h]

/-- A section that may adopt a term and give up a role, and leaves the log part alone. -/
structure Adopts (n n' : Node N) : Prop where
  same : SameLog n n'
  matchIndex : n'.matchIndex = n.matchIndex
  ledTerms : n'.ledTerms = n.ledTerms
  term : n.currentTerm ≤ n'.currentTerm
  keeps : Node.KeepsVote n n'
  candidate : n'.state = .candidate → n.state = .candidate
  role : n'.state = n.state ∧ n'.currentTerm = n.currentTerm ∨
    n'.state ≠ .leader ∧ n'.currentTerm ∉ n.ledTerms

theorem SameLog.refl (n : Node N) : SameLog n n := ⟨rfl, rfl, rfl, rfl, rfl, rfl, rfl, rfl, rfl⟩

theorem Adopts.refl (n : Node N) : Adopts n n :=
  ⟨.refl n, rfl, rfl, le_refl _, .refl n, id, inl ⟨rfl, rfl⟩⟩

theorem VoteInv.not_mem_ledTerms (hI : VoteInv s b) (h : (s.node i).currentTerm < T) : T ∉ (s.node i).ledTerms := by
  intro hT
  have := (hI.led i T hT).1
  omega

theorem VoteInv.stepDown_adopts (hI : VoteInv s b) (h : (s.node i).currentTerm < T) :
    Adopts (s.node i) ((s.node i).stepDown T) :=
  ⟨⟨rfl, rfl, rfl, rfl, rfl, rfl, rfl, rfl, rfl⟩, rfl, rfl, le_of_lt h, inl rfl,
    fun hc => absurd hc (by simp [stepDown]),
    inr ⟨by simp [stepDown], hI.not_mem_ledTerms h⟩⟩

theorem VoteInv.adoptTerm_adopts (hI : VoteInv s b) (i : Fin N) (T : Nat) :
    Adopts (s.node i) ((s.node i).adoptTerm T) := by
  unfold adoptTerm
  split
  case isTrue h => exact hI.stepDown_adopts h
  case isFalse => exact .refl _

theorem NodeOk.adopts {v : Fin N} (hp : g.p.Sound tm) (hn : NodeOk md g v n) (h : Adopts n n') :
    NodeOk md (g.raise v n'.currentTerm) v n' := by
  have hext : g.Extends (g.raise v n'.currentTerm) := .raise (by rw [hn.seen]; exact h.term)
  refine hn.sameLog hp h.same hext (g.raise_seen_self v _) h.term rfl rfl rfl
    (fun t ht => hn.ledTerms t (h.ledTerms ▸ ht)) (fun hled => ?_) (fun hst => ?_)
  · rw [h.ledTerms] at hled
    rcases h.role with ⟨hst, ht⟩ | ⟨-, hnot⟩
    · rw [hst]
      exact hn.stays (ht ▸ hled)
    · exact absurd hled hnot
  · rcases h.role with ⟨hst', ht⟩ | ⟨hst', -⟩
    · have hl := hn.leader (hst' ▸ hst)
      refine ⟨by rw [ht, h.ledTerms]; exact hl.led, by rw [ht]; exact hl.log, ?_, fun j q hq => ?_⟩
      · rw [ht, h.same.commitIndex]
        exact hl.direct
      · obtain ⟨h1, h2⟩ := hl.slots j q hq
        rw [h.matchIndex, ht]
        rw [ht] at hext
        exact ⟨h1.extends hp hext, fun hm => (h2 hm).extends hext⟩
    · exact absurd hst hst'

/-- A node adopts a term. The main goroutine stays where it is or goes back to `run`. -/
theorem Sim.adopts (hS : Sim md s g) (hnext : Next s a s') (hne : ∀ v, v ≠ i → s'.node v = s.node v)
    (hpc_ne : ∀ v, v ≠ i → s'.pc v = s.pc v) (hpc : s'.pc i = s.pc i ∨ s'.pc i = .run)
    (h : Adopts (s.node i) (s'.node i))
    (hvc : ∀ c ∈ s'.voteCalls, c ∈ s.voteCalls ∨ VoteCallOk (g.raise i (s'.node i).currentTerm) c)
    (hac : ∀ c ∈ s'.appendCalls, c ∈ s.appendCalls ∨ AppendCallOk md s' (g.raise i (s'.node i).currentTerm) c) :
    Sim md s' (g.raise i (s'.node i).currentTerm) := by
  have hle : g.p.seen i ≤ (s'.node i).currentTerm := by rw [(hS.node i).seen]; exact h.term
  refine LocalStep.sim (i := i) ⟨hne, hpc_ne, hS.sound.raise hle, .raise hle,
    hS.votes.next_eq (keepsVote_setNode hne h.keeps),
    fun v hv => ⟨g.raise_seen_ne _ hv, rfl, rfl, rfl⟩, fun _ _ _ => ⟨rfl, fun _ hk => hk⟩,
    (hS.node i).adopts hS.sound h, fun t ht => by rw [h.ledTerms]; exact ht,
    fun t ht => inl ht, fun hst => ?_, fun t l hv hst => ?_, hvc, hac,
    fun x hx => by rw [h.same.committed]; exact hx, fun j e he => inl he⟩ hS hnext
  · rcases hpc with hpc | hpc
    · rw [hpc]
      refine hS.pcs i ?_
      rcases h.role with ⟨hst', -⟩ | ⟨hst', -⟩
      · exact hst' ▸ hst
      · exact absurd hst hst'
    · exact inl hpc
  · rcases hpc with hpc | hpc
    · rw [hpc] at hv
      exact hS.loop i t l hv (h.candidate hst)
    · rw [hpc] at hv
      exact absurd hv (by simp)

/-! ## The steps of an election -/

theorem Sim.electionTimeout (hS : Sim md s g) (hpc : s.pc i = .follower) (hnext : Next s a s')
    (hs' : s' = (s.setNode i { s.node i with state := .candidate }).setPc i .run) : Sim md s' g := by
  have hnode : s'.node i = { s.node i with state := .candidate } := by subst hs'; simp
  have hne : ∀ v, v ≠ i → s'.node v = s.node v := by
    intro v hv
    subst hs'
    exact setNode_node_ne s i _ hv
  have hpc' : s'.pc i = .run := by subst hs'; exact setPc_pc_self _ _ _
  -- a node in `runFollower` is not leader, so it has not led its term
  have hnot : (s.node i).currentTerm ∉ (s.node i).ledTerms := by
    intro hled
    have := hS.pcs i ((hS.node i).stays hled)
    rw [hpc] at this
    simp at this
  have hsame : SameLog (s.node i) { s.node i with state := .candidate } :=
    ⟨rfl, rfl, rfl, rfl, rfl, rfl, rfl, rfl, rfl⟩
  have hok : NodeOk md g i { s.node i with state := .candidate } :=
    (hS.node i).sameLog hS.sound hsame (.refl g) (hS.node i).seen (le_refl _) rfl rfl rfl
      (hS.node i).ledTerms (fun h => absurd h hnot) fun h => absurd h (by simp)
  refine LocalStep.sim (i := i) ⟨hne, fun v hv => ?_, hS.sound, .refl g,
    hS.votes.next_eq (keepsVote_setNode hne (by rw [hnode]; exact inr ⟨rfl, rfl⟩)),
    fun _ _ => ⟨rfl, rfl, rfl, rfl⟩, fun _ _ _ => ⟨rfl, fun _ h => h⟩, by rw [hnode]; exact hok,
    fun t ht => by rw [hnode]; exact ht, fun _ h => inl h, fun _ => inl hpc',
    fun t l h => ?_, fun c h => inl ?_, fun c h => inl ?_,
    fun x hx => by rw [hnode]; exact hx, fun _ _ h => inl h⟩ hS hnext
  · subst hs'
    exact setPc_pc_ne _ _ _ hv
  · rw [hpc'] at h
    exact absurd h (by simp)
  · subst hs'
    exact h
  · subst hs'
    exact h

/-- `v` votes for `c` in its present term. -/
def Ghost.cast (g : Ghost N) (v c : Fin N) : Ghost N := { g with p := g.p.cast v c }

theorem Ghost.Extends.cast {v c : Fin N} (h : g.p.vote v (g.p.seen v) = none) : g.Extends (g.cast v c) :=
  ⟨Protocol.Extends.cast h, fun _ => prefix_refl _⟩

theorem VoteInv.next_cast (hI : VoteInv s g.p.vote) {c : Fin N} (hne : ∀ v, v ≠ i → s'.node v = s.node v)
    (hc : (s'.node i).votedFor = some c) (hT : (s'.node i).currentTerm = T) :
    VoteBook.next g.p.vote s' = ((g.raise i T).cast i c).p.vote := by
  funext v t
  show VoteBook.next g.p.vote s' v t =
    if v = i ∧ t = (g.raise i T).p.seen i then some c else g.p.vote v t
  rw [g.raise_seen_self]
  unfold VoteBook.next
  by_cases hv : v = i
  · subst hv
    rw [hc, hT]
    simp
  · have hold : ¬ (v = i ∧ t = T) := fun h => hv h.1
    rw [hne v hv, if_neg hold]
    split
    case isFalse => rfl
    case isTrue h => rw [h.1, hI.voted_cur v]

theorem NodeOk.cast {v c : Fin N} (hp : (g.raise v T).p.Sound tm) (hn : NodeOk md (g.raise v T) v n)
    (hvote : g.p.vote v T = none) (hsame : SameLog n n') (hT : n.currentTerm = T) (hT' : n'.currentTerm = T)
    (hled : n'.ledTerms = n.ledTerms) (hstate : n'.state = n.state) (hmatch : n'.matchIndex = n.matchIndex) :
    NodeOk md ((g.raise v T).cast v c) v n' := by
  have hseen : (g.raise v T).p.seen v = T := g.raise_seen_self v T
  have hext : (g.raise v T).Extends ((g.raise v T).cast v c) :=
    .cast (by rw [hseen]; exact hvote)
  refine hn.sameLog hp hsame hext (hT' ▸ hseen) (by omega) rfl rfl rfl
    (fun t ht => hn.ledTerms t (hled ▸ ht)) (fun h => ?_) (fun h => ?_)
  · rw [hled, hT'] at h
    rw [hstate]
    exact hn.stays (hT ▸ h)
  · have hl := hn.leader (hstate ▸ h)
    refine ⟨by rw [hT', hled, ← hT]; exact hl.led, by rw [hT', ← hT]; exact hl.log, ?_,
      fun j q hq => ?_⟩
    · rw [hT', ← hT, hsame.commitIndex]
      exact hl.direct
    · obtain ⟨h1, h2⟩ := hl.slots j q hq
      rw [hmatch, hT', ← hT]
      exact ⟨h1.extends hp hext, fun hm => (h2 hm).extends hext⟩

/-- A node adopts a term and votes in it. `n` is the node between the two. -/
theorem Sim.casts (hS : Sim md s g) (hnext : Next s a s') {c : Fin N}
    (hne : ∀ v, v ≠ i → s'.node v = s.node v) (hpc_ne : ∀ v, v ≠ i → s'.pc v = s.pc v)
    (h : Adopts (s.node i) n) (hT : n.currentTerm = T) (hpos : 0 < T) (hvote : g.p.vote i T = none)
    (hc : c = i ∨ (g.p.vote c T = some c ∧ AtLeastAsRecent tm (g.p.voteLog c T) (g.p.held i)))
    (hnew : s'.node i = { n with votedFor := some c })
    (hpcs : (s'.node i).state = .leader → s'.pc i = .run ∨ s'.pc i = .broadcast ∨ s'.pc i = .leading)
    (hloop : ∀ t l, s'.pc i = .votes t l → (s'.node i).state = .candidate → t = T ∨ ∃ l', s.pc i = .votes t l')
    (hvc : ∀ c' ∈ s'.voteCalls, c' ∈ s.voteCalls ∨ VoteCallOk ((g.raise i T).cast i c) c')
    (hac : ∀ c' ∈ s'.appendCalls, c' ∈ s.appendCalls) : Sim md s' ((g.raise i T).cast i c) := by
  subst hT
  have hle : g.p.seen i ≤ n.currentTerm := by rw [(hS.node i).seen]; exact h.term
  have hseen := g.raise_seen_self i n.currentTerm
  have hsound : (g.raise i n.currentTerm).p.Sound tm := hS.sound.raise hle
  have hvote' : (g.raise i n.currentTerm).p.vote i ((g.raise i n.currentTerm).p.seen i) = none := by
    rw [hseen]
    exact hvote
  have hext1 : g.Extends (g.raise i n.currentTerm) := .raise hle
  have hext2 : (g.raise i n.currentTerm).Extends ((g.raise i n.currentTerm).cast i c) :=
    .cast hvote'
  have hext : g.Extends ((g.raise i n.currentTerm).cast i c) :=
    ⟨hext1.p.trans hext2.p, fun v => (hext1.base v).trans (hext2.base v)⟩
  have hn : NodeOk md ((g.raise i n.currentTerm).cast i c) i (s'.node i) := by
    rw [hnew]
    exact ((hS.node i).adopts hS.sound h).cast hsound hvote
      ⟨rfl, rfl, rfl, rfl, rfl, rfl, rfl, rfl, rfl⟩ rfl rfl rfl rfl rfl
  refine LocalStep.sim (i := i) ⟨hne, hpc_ne, ?_, hext,
    hS.votes.next_cast hne (by rw [hnew]) (by rw [hnew]),
    fun v hv => ⟨g.raise_seen_ne _ hv, rfl, rfl, rfl⟩, fun _ _ _ => ⟨rfl, fun _ hk => hk⟩,
    hn, fun t ht => by rw [hnew]; exact h.ledTerms ▸ ht, fun _ ht => inl ht, hpcs,
    fun t l hv hst => ?_, hvc, fun c' hc' => inl (hac c' hc'),
    fun x hx => by rw [hnew]; exact h.same.committed ▸ hx, fun _ _ he => inl he⟩ hS hnext
  · refine hsound.cast hvote' (by rw [hseen]; exact hpos) ?_
    rw [hseen]
    exact hc
  · rcases hloop t l hv hst with rfl | ⟨l', hl'⟩
    · left
      show g.p.held i = if i = i ∧ n.currentTerm = (g.raise i n.currentTerm).p.seen i then
        g.p.held i else g.p.voteLog i n.currentTerm
      rw [hseen, if_pos ⟨rfl, rfl⟩]
    · -- a loop that was already running: its vote stays
      have hst0 : (s.node i).state = .candidate := h.candidate (by rw [hnew] at hst; exact hst)
      have hself := ((hS.votes.loop i t l' hl').self hst0).2
      rw [(hext.p.vote i t i hself).2]
      exact hS.loop i t l' hl' hst0

theorem Sim.campaign (hS : Sim md s g) (hpc : s.pc i = .campaign) (hnext : Next s a s')
    (hs' : s' = { ((s.setNode i (s.node i).startElection).setPc i (.votes (s.node i).startElection.currentTerm [])) with voteCalls := s.voteCalls ++ newVoteCalls i (s.node i).startElection }) :
    ∃ g', Sim md s' g' := by
  have hn := hS.node i
  have hne : ∀ v, v ≠ i → s'.node v = s.node v := by
    intro v hv
    subst hs'
    exact setNode_node_ne s i _ hv
  have hpc' : s'.pc i = .votes ((s.node i).currentTerm + 1) [] := by
    subst hs'
    exact setPc_pc_self _ _ _
  have hnot : (s.node i).state ≠ .leader := by
    intro hst
    have := hS.pcs i hst
    rw [hpc] at this
    simp at this
  have hfresh : g.p.vote i ((s.node i).currentTerm + 1) = none := by
    by_contra hv
    have := (hS.sound.vote_le i _ hv).2
    rw [hn.seen] at this
    omega
  have hadopts : Adopts (s.node i)
      { s.node i with currentTerm := (s.node i).currentTerm + 1, votedFor := none } :=
    ⟨⟨rfl, rfl, rfl, rfl, rfl, rfl, rfl, rfl, rfl⟩, rfl, rfl, Nat.le_succ _, inl rfl, id,
      inr ⟨hnot, hS.votes.not_mem_ledTerms (Nat.lt_succ_self _)⟩⟩
  have hi : s'.node i = (s.node i).startElection := by subst hs'; simp
  refine ⟨_, hS.casts (c := i) hnext hne (fun v hv => ?_) hadopts rfl (Nat.succ_pos _) hfresh
    (inl rfl) ?_ (fun hst => ?_) (fun t l hv _ => ?_) (fun c hc => ?_) (fun c hc => ?_)⟩
  · subst hs'
    exact setPc_pc_ne _ _ _ hv
  · rw [hi]
    exact congrArg (fun c => { s.node i with
      currentTerm := (s.node i).currentTerm + 1, votedFor := some c }) (hS.votes.id i)
  · rw [hi] at hst
    exact absurd hst hnot
  · rw [hpc'] at hv
    cases hv
    exact inl rfl
  · subst hs'
    rcases mem_append.1 hc with hc | hc
    · exact inl hc
    · simp only [newVoteCalls, mem_map] at hc
      obtain ⟨q, -, rfl⟩ := hc
      have hseen := g.raise_seen_self i ((s.node i).currentTerm + 1)
      have hlog : ((g.raise i ((s.node i).currentTerm + 1)).cast i i).p.voteLog i
          ((s.node i).currentTerm + 1) = g.p.held i := by
        show (if i = i ∧ _ then g.p.held i else _) = _
        rw [if_pos ⟨rfl, hseen.symm⟩]
      refine inr ⟨?_, ?_, ?_⟩
      · show (if i = i ∧ (s.node i).currentTerm + 1 = _ then some i else _) = some i
        rw [if_pos ⟨rfl, hseen.symm⟩]
      · show (s.node i).lastLogInfo.1 = _
        rw [hn.view.lastLogInfo_eq]
        exact congrArg length hlog.symm
      · show (s.node i).lastLogInfo.2 = _
        rw [hn.view.lastLogInfo_eq]
        exact congrArg (lastTerm tm) hlog.symm
  · subst hs'
    exact hc

theorem Sim.voteHandler (hS : Sim md s g) {k : Nat} {q : Fin N} {args : RequestVoteArgs N}
    (hk : s.voteCalls[k]? = some ⟨q, args, none⟩) (hnext : Next s a s')
    (hs' : s' = (s.setNode q ((s.node q).handleRequestVote args).1).setVoteCall k
      ⟨q, args, some ((s.node q).handleRequestVote args).2⟩) : ∃ g', Sim md s' g' := by
  have hcall := hS.voteCalls _ (mem_of_getElem? hk)
  have hq : s'.node q = ((s.node q).handleRequestVote args).1 := by subst hs'; simp
  have hne : ∀ v, v ≠ q → s'.node v = s.node v := by
    intro v hv
    subst hs'
    exact setNode_node_ne s q _ hv
  have hpc : ∀ v, s'.pc v = s.pc v := by
    intro v
    subst hs'
    rfl
  have hac : ∀ c ∈ s'.appendCalls, c ∈ s.appendCalls := by
    intro c hc
    subst hs'
    exact hc
  -- the goroutine keeps its request
  have hvc : ∀ g' : Ghost N, g.Extends g' →
      ∀ c ∈ s'.voteCalls, c ∈ s.voteCalls ∨ VoteCallOk g' c := by
    intro g' hext c hc
    subst hs'
    rcases mem_or_eq_of_mem_set hc with hc | rfl
    · exact inl hc
    · have h := hcall.extends hext
      exact inr ⟨h.vote, h.lastLogIndex, h.lastLogTerm⟩
  have hn := hS.node q
  -- no new vote: the node only adopts the term
  have hquiet : Adopts (s.node q) (s'.node q) → ∃ g', Sim md s' g' := by
    intro h
    have hle : g.p.seen q ≤ (s'.node q).currentTerm := by rw [hn.seen]; exact h.term
    exact ⟨_, hS.adopts hnext hne (fun v _ => hpc v) (inl (hpc q)) h (hvc _ (.raise hle))
      fun c hc => inl (hac c hc)⟩
  rcases Nat.lt_or_ge args.term (s.node q).currentTerm with hlt | hge
  · rw [handleRequestVote_of_stale hlt] at hq
    exact hquiet (hq ▸ .refl _)
  · rw [handleRequestVote_of_le hge] at hq
    have hadopts := hS.votes.adoptTerm_adopts q args.term
    have hterm := adoptTerm_currentTerm hge
    rcases ((s.node q).adoptTerm args.term).grantVote_spec args with ⟨-, he⟩ | ⟨-, he, hv, hrec⟩
    · rw [he] at hq
      exact hquiet (hq ▸ hadopts)
    · rw [he] at hq
      rcases hv with hnone | hsome
      · have hvote : g.p.vote q args.term = none := by
          by_contra hcon
          have hle := (hS.sound.vote_le q _ hcon).2
          rw [hn.seen] at hle
          have heq : args.term = (s.node q).currentTerm := le_antisymm hle hge
          have hsame : (s.node q).adoptTerm args.term = s.node q := by
            unfold adoptTerm
            rw [if_neg (by omega)]
          rw [hsame] at hnone
          rw [heq, hS.votes.voted_cur q] at hcon
          exact hcon hnone
        have hpos : 0 < args.term :=
          (hS.sound.vote_le _ _ (by rw [hcall.vote]; simp)).1
        have hview : View ((s.node q).adoptTerm args.term) (g.base q) (g.p.held q) :=
          hn.view.congr (adoptTerm_window _ _)
        rw [hview.lastLogInfo_eq] at hrec
        have hrecent : AtLeastAsRecent tm (g.p.voteLog args.candidateID args.term) (g.p.held q) := by
          unfold AtLeastAsRecent
          rw [← hcall.lastLogIndex, ← hcall.lastLogTerm]
          exact hrec
        have hle : g.p.seen q ≤ args.term := by rw [hn.seen]; exact hge
        have hext : g.Extends ((g.raise q args.term).cast q args.candidateID) := by
          have h1 : g.Extends (g.raise q args.term) := .raise hle
          have h2 : (g.raise q args.term).Extends ((g.raise q args.term).cast q args.candidateID) :=
            .cast (by rw [g.raise_seen_self]; exact hvote)
          exact ⟨h1.p.trans h2.p, fun v => (h1.base v).trans (h2.base v)⟩
        refine ⟨_, hS.casts hnext hne (fun v _ => hpc v) hadopts hterm hpos hvote (inr ⟨hcall.vote, hrecent⟩) hq (fun
          hst => ?_) (fun t l h _ => inr ⟨l, hpc q ▸ h⟩) (hvc _ hext) hac⟩
        rw [hpc q]
        rw [hq] at hst
        rcases hadopts.role with ⟨hst', -⟩ | ⟨hst', -⟩
        · exact hS.pcs q (hst' ▸ hst)
        · exact absurd hst hst'
      · have hsame : { (s.node q).adoptTerm args.term with votedFor := some args.candidateID } =
            (s.node q).adoptTerm args.term := by
          rw [← hsome]
        rw [hsame] at hq
        exact hquiet (hq ▸ hadopts)

/-- `i` becomes leader. -/
def Ghost.elect (g : Ghost N) (i : Fin N) : Ghost N := { g with p := g.p.elect i }

theorem Sim.voteWins (hS : Sim md s g) {k : Nat} {q : Fin N} {args : RequestVoteArgs N}
    {reply : RequestVoteReply} {granted : List (Fin N)} (hk : s.voteCalls[k]? = some ⟨q, args, some reply⟩)
    (hpc : s.pc args.candidateID = .votes args.term granted) (hgrant : reply.voteGranted = true)
    (hstate : (s.node args.candidateID).state = .candidate)
    (hmaj : ((peers args.candidateID).length + 1) / 2 + 1 ≤ granted.length + 1 + 1) (hnext : Next s a s')
    (hs' : s' = ((s.endVoteCall k).setNode args.candidateID
      (s.node args.candidateID).becomeLeader).setPc args.candidateID .run) : Sim md s' (g.elect args.candidateID) := by
  obtain ⟨W, hW, hvotes⟩ := hS.votes.quorum_of_loop hk hpc hgrant hstate hmaj
  generalize args.candidateID = i at *
  have hn := hS.node i
  have hterm : (s.node i).currentTerm = args.term := ((hS.votes.loop _ _ _ hpc).self hstate).1
  have hseen : g.p.seen i = args.term := hn.seen.trans hterm
  -- the node has not led the term, and by election safety no other node has
  have hnot : ¬ g.p.led (g.p.seen i) := by
    intro hled
    obtain ⟨j, hj⟩ := hS.led _ hled
    rw [hseen] at hj
    obtain ⟨-, S, hSm, hvS⟩ := hS.votes.led j _ hj
    obtain ⟨v, h1, h2⟩ := hSm.exists_mem_inter hW
    have heq := Option.some.inj ((hvS v h1).symm.trans (hvotes v h2))
    rw [heq, ← hterm] at hj
    have := hn.stays hj
    rw [hstate] at this
    exact absurd this (by simp)
  have hheld : g.p.held i = g.p.voteLog i (g.p.seen i) := by
    rcases hS.loop i _ _ hpc hstate with h | h
    · rw [hseen]
      exact h
    · exact absurd (hseen ▸ h) hnot
  have hvotes' : ∀ v ∈ W, g.p.vote v (g.p.seen i) = some i := by rw [hseen]; exact hvotes
  have hsound : (g.elect i).p.Sound tm := hS.sound.elect hnot hheld hW hvotes'
  have hext : g.Extends (g.elect i) :=
    ⟨Protocol.Extends.elect hS.sound hnot, fun _ => prefix_refl _⟩
  have hlog : (g.elect i).p.log (g.p.seen i) = g.p.held i := by simp [Ghost.elect, Protocol.elect]
  have hlog_ne : ∀ t, t ≠ g.p.seen i → (g.elect i).p.log t = g.p.log t := by
    intro t ht
    simp [Ghost.elect, Protocol.elect, ht]
  have hi : s'.node i = (s.node i).becomeLeader := by subst hs'; simp
  have hne : ∀ v, v ≠ i → s'.node v = s.node v := by
    intro v hv
    subst hs'
    exact setNode_node_ne (s.endVoteCall k) _ _ hv
  have hpc' : s'.pc i = .run := by subst hs'; exact setPc_pc_self _ _ _
  have hleader : LeaderOk md (g.elect i) i (s.node i).becomeLeader := by
    refine ⟨mem_cons_self, hn.seen ▸ hlog, fun j hj => ?_, fun j r _ => ?_⟩
    · -- nothing has been committed in a term without a leader
      have := (hS.sound.direct_ok _ j hj).1
      exact absurd (hn.seen ▸ this) hnot
    · have hzero : (s.node i).becomeLeader.matchIndex.getD j 0 = 0 := by
        show ((s.node i).matchIndex.map fun _ => 0).getD j 0 = 0
        rw [getD_eq_getElem?_getD, getElem?_map]
        cases (s.node i).matchIndex[j]? <;> rfl
      rw [hzero]
      exact ⟨inl ⟨[], inl rfl, Nat.zero_le _⟩, fun _ => inl (Nat.zero_le _)⟩
  have hok : NodeOk md (g.elect i) i (s.node i).becomeLeader := by
    refine hn.sameLog hS.sound ⟨rfl, rfl, rfl, ?_, rfl, rfl, rfl, rfl, rfl⟩ hext hn.seen (le_refl _)
      rfl rfl rfl (fun t ht => ?_) (fun _ => rfl) fun _ => hleader
    · exact length_map ..
    · rcases mem_cons.1 ht with rfl | ht
      · exact inl hn.seen.symm
      · exact inr (hn.ledTerms t ht)
  refine LocalStep.sim (i := i) ⟨hne, fun v hv => ?_, hsound, hext,
    hS.votes.next_eq (keepsVote_setNode hne (by rw [hi]; exact inr ⟨rfl, rfl⟩)),
    fun _ _ => ⟨rfl, rfl, rfl, rfl⟩, fun v hv hst => ⟨hlog_ne _ fun heq => ?_, fun _ h => h⟩,
    by rw [hi]; exact hok, fun t ht => by rw [hi]; exact mem_cons_of_mem _ ht,
    fun t ht => ?_, fun _ => inl hpc', fun t l h => ?_, fun c hc => inl ?_,
    fun c hc => inl ?_, fun x hx => by rw [hi]; exact hx, fun _ _ h => inl h⟩ hS hnext
  · subst hs'
    exact setPc_pc_ne _ _ _ hv
  · exact hnot (heq ▸ (hS.node v).ledTerms _ ((hS.node v).leader hst).led)
  · rcases ht with rfl | ht
    · right
      rw [hi, hn.seen]
      exact mem_cons_self
    · exact inl ht
  · rw [hpc'] at h
    exact absurd h (by simp)
  · subst hs'
    exact mem_of_mem_eraseIdx hc
  · subst hs'
    exact hc

end SystemDesignLabs.Raft
