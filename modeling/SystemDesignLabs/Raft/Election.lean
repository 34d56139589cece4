import SystemDesignLabs.Core.LeaderLog
import SystemDesignLabs.Raft.Steps

/-!
# Election safety

At most one node runs `becomeLeader` in a term, for every cluster size and every interleaving.

The proof keeps a book of votes, `VoteBook`: for every node and term the candidate the node voted
for. The book is history data; each step enters the votes that the nodes hold after it. Terms never
go down and a vote cast in the current term never changes (`Cluster.Next.voteStep`), so the book only
grows (`VoteInv.book_mono`).

The reply that the vote loop counts carries no term. What makes the count right is the channel: a
reply is only received by the loop of the election that its request was sent for, and while the node
is still candidate its term is still the term of that election (`LoopOk.self`), since every section
that raises the term of a node also makes it a follower and only `runFollower` makes it a candidate
again.
-/

namespace SystemDesignLabs.Raft

open Core Cluster Node List.Sublist

variable {N : Nat}

/-! ## The book of votes -/

/-- For every node and term the candidate the node voted for. -/
abbrev VoteBook (N : Nat) := Fin N → Nat → Option (Fin N)

/-- Enter the votes that the nodes of `s'` hold. -/
def VoteBook.next (b : VoteBook N) (s' : Cluster N) : VoteBook N := fun v t =>
  if t = (s'.node v).currentTerm ∧ (s'.node v).votedFor ≠ none then (s'.node v).votedFor else b v t

/-- The identity of a vote request: candidate, term and voter. -/
def VoteCall.key (c : VoteCall N) : Fin N × Nat × Fin N :=
  (c.args.candidateID, c.args.term, c.peer)

/-- A vote goroutine belongs to an election its candidate has started, and a granted reply is a vote
of its peer. -/
structure CallOk (s : Cluster N) (b : VoteBook N) (c : VoteCall N) : Prop where
  term_le : c.args.term ≤ (s.node c.args.candidateID).currentTerm
  peer_ne : c.peer ≠ c.args.candidateID
  granted : ∀ r ∈ c.reply, r.voteGranted = true → b c.peer c.args.term = some c.args.candidateID

/-- The vote loop of node `i` for term `t` with the counted peers `g`. -/
structure LoopOk (s : Cluster N) (b : VoteBook N) (i : Fin N) (t : Nat) (g : List (Fin N)) :
    Prop where
  term_le : t ≤ (s.node i).currentTerm
  self : (s.node i).state = .candidate → (s.node i).currentTerm = t ∧ b i t = some i
  nodup : g.Nodup
  not_self : i ∉ g
  granted : ∀ p ∈ g, b p t = some i
  pending : ∀ c ∈ s.voteCalls, c.args.candidateID = i → c.args.term = t → c.peer ∉ g

/-- The election invariant. -/
structure VoteInv (s : Cluster N) (b : VoteBook N) : Prop where
  id : ∀ i, (s.node i).id = i
  voted_le : ∀ v t, b v t ≠ none → t ≤ (s.node v).currentTerm
  voted_cur : ∀ v, b v (s.node v).currentTerm = (s.node v).votedFor
  led : ∀ i, ∀ t ∈ (s.node i).ledTerms, t ≤ (s.node i).currentTerm ∧
    ∃ S : Finset (Fin N), Majority S ∧ ∀ v ∈ S, b v t = some i
  call : ∀ c ∈ s.voteCalls, CallOk s b c
  nodup : (s.voteCalls.map VoteCall.key).Nodup
  loop : ∀ i t g, s.pc i = .votes t g → LoopOk s b i t g

theorem voteInv_init : VoteInv (newCluster N) (fun _ _ => none) where
  id := fun _ => rfl
  voted_le := fun _ _ h => absurd rfl h
  voted_cur := fun _ => rfl
  led := fun i t h => absurd h (by simp [newCluster, newNode])
  call := fun c h => absurd h (by simp [newCluster])
  nodup := by simp [newCluster]
  loop := fun i t g h => absurd h (by simp [newCluster])

section Step

variable {s s' : Cluster N} {b : VoteBook N}

variable {t : Nat}

section

variable (hI : VoteInv s b)
include hI

/-- Votes in the book stay. -/
theorem VoteInv.book_mono (hs : ∀ v, Node.VoteStep (s.node v) (s'.node v)) {v c : Fin N}
    (h : b v t = some c) : b.next s' v t = some c := by
  rw [VoteBook.next]
  split
  case isFalse => exact h
  case isTrue hc =>
    obtain ⟨rfl, hne⟩ := hc
    have hle := hI.voted_le v _ (by rw [h]; simp)
    have hterm : (s'.node v).currentTerm = (s.node v).currentTerm :=
      le_antisymm hle (hs v).term
    rw [hterm, hI.voted_cur v] at h
    rw [(hs v).vote hterm (by rw [h]; simp), h]

theorem VoteInv.book_cur (hs : ∀ v, Node.VoteStep (s.node v) (s'.node v)) (v : Fin N) :
    b.next s' v (s'.node v).currentTerm = (s'.node v).votedFor := by
  rw [VoteBook.next]
  by_cases hne : (s'.node v).votedFor = none
  · rw [if_neg (by simp [hne]), hne]
    rcases Nat.lt_or_ge (s.node v).currentTerm (s'.node v).currentTerm with hlt | hge
    · by_contra h
      have := hI.voted_le v _ h
      omega
    · have hterm := le_antisymm hge (hs v).term
      rw [hterm, hI.voted_cur v]
      by_contra h
      exact h ((hs v).vote hterm h ▸ hne)
  · rw [if_pos ⟨rfl, hne⟩]

theorem VoteInv.book_le (hs : ∀ v, Node.VoteStep (s.node v) (s'.node v))
    (v : Fin N) (t : Nat) (h : b.next s' v t ≠ none) : t ≤ (s'.node v).currentTerm := by
  rw [VoteBook.next] at h
  split at h
  case isTrue hc => exact le_of_eq hc.1
  case isFalse => exact le_trans (hI.voted_le v t h) (hs v).term

theorem VoteInv.id_next (hs : ∀ v, Node.VoteStep (s.node v) (s'.node v))
    (i : Fin N) : (s'.node i).id = i :=
  (hs i).id.trans (hI.id i)

end

variable {i : Fin N}

section

variable (hI : VoteInv s b)
include hI

theorem VoteInv.led_mono (hs : ∀ v, Node.VoteStep (s.node v) (s'.node v))
    (h : t ∈ (s.node i).ledTerms) : t ≤ (s'.node i).currentTerm ∧
      ∃ S : Finset (Fin N), Majority S ∧ ∀ v ∈ S, b.next s' v t = some i := by
  obtain ⟨hle, S, hS, hv⟩ := hI.led i t h
  exact ⟨le_trans hle (hs i).term, S, hS, fun v hvS => hI.book_mono hs (hv v hvS)⟩

theorem VoteInv.call_mono (hs : ∀ v, Node.VoteStep (s.node v) (s'.node v))
    {c : VoteCall N} (h : c ∈ s.voteCalls) : CallOk s' (b.next s') c where
  term_le := le_trans (hI.call c h).term_le (hs _).term
  peer_ne := (hI.call c h).peer_ne
  granted := fun r hr hg => hI.book_mono hs ((hI.call c h).granted r hr hg)

theorem VoteInv.loop_mono (hs : ∀ v, Node.VoteStep (s.node v) (s'.node v))
    {g : List (Fin N)} (hpc : s.pc i = .votes t g)
    (hstate : (s'.node i).state = .candidate → (s.node i).state = .candidate ∧ (s'.node i).currentTerm = (s.node i).currentTerm)
    (hpend : ∀ c ∈ s'.voteCalls, c.args.candidateID = i → c.args.term = t → c.peer ∉ g) :
    LoopOk s' (b.next s') i t g := by
  have hl := hI.loop i t g hpc
  refine ⟨le_trans hl.term_le (hs i).term, fun h => ?_, hl.nodup, hl.not_self,
    fun p hp => hI.book_mono hs (hl.granted p hp), hpend⟩
  obtain ⟨hc, hterm⟩ := hstate h
  obtain ⟨h1, h2⟩ := hl.self hc
  exact ⟨hterm.trans h1, hI.book_mono hs h2⟩

/-- Steps that cast no vote request and win no election keep the invariant. The vote goroutines
may end, nodes may change by quiet sections, and main goroutines may leave the vote loop. -/
theorem VoteInv.of_quiet (hcalls : s'.voteCalls.Sublist s.voteCalls)
    (hpc : ∀ i t g, s'.pc i = .votes t g → s.pc i = .votes t g)
    (hq : ∀ v, Node.Quiet (s.node v) (s'.node v)) : VoteInv s' (b.next s') := by
  have hs : ∀ v, VoteStep (s.node v) (s'.node v) := fun v => (hq v).toVoteStep
  refine ⟨hI.id_next hs, hI.book_le hs, hI.book_cur hs, fun i t ht => ?_, fun c hc => hI.call_mono hs (hcalls.subset
    hc), hI.nodup.sublist (hcalls.map _), fun i t g h => ?_⟩
  · rw [(hq i).ledTerms] at ht
    exact hI.led_mono hs ht
  · refine hI.loop_mono hs (hpc i t g h) (fun hc => ?_) fun c hc h1 h2 =>
      (hI.loop i t g (hpc i t g h)).pending c (hcalls.subset hc) h1 h2
    rcases (hq i).role with ⟨hst, hterm⟩ | hf
    · exact ⟨hst ▸ hc, hterm⟩
    · rw [hf] at hc
      exact absurd hc (by simp)

end

theorem quiet_setNode {n : Node N} (h : Node.Quiet (s.node i) n) :
    ∀ v, Node.Quiet (s.node v) ((s.setNode i n).node v) :=
  s.forall_setNode i n (P := fun v m => Quiet (s.node v) m) h fun v _ => .refl (s.node v)

theorem setPc_votes {pc : Pc N} (hne : ∀ t g, pc ≠ .votes t g) :
    ∀ j t g, (s.setPc i pc).pc j = .votes t g → s.pc j = .votes t g := by
  intro j t g h
  by_cases hj : j = i
  · subst hj
    rw [setPc_pc_self] at h
    exact absurd h (hne t g)
  · rwa [setPc_pc_ne _ _ _ hj] at h

/-! ## The steps of an election -/

theorem mem_peers {p : Fin N} : p ∈ peers i ↔ p ≠ i := by simp [peers]

theorem nodup_peers (i : Fin N) : (peers i).Nodup := (List.nodup_finRange N).filter _

theorem length_peers (i : Fin N) : (peers i).length + 1 = N := by
  have herase : peers i = (List.finRange N).erase i := by
    rw [List.Nodup.erase_eq_filter (List.nodup_finRange N)]
    refine List.filter_congr fun j _ => ?_
    by_cases hj : j = i <;> simp [hj]
  have hlen := List.length_erase_of_mem (List.mem_finRange i)
  rw [List.length_finRange] at hlen
  rw [herase, hlen]
  have := i.isLt
  omega

theorem VoteInv.campaign (hI : VoteInv s b) (hpc : s.pc i = .campaign)
    (hnext : s' = { ((s.setNode i (s.node i).startElection).setPc i (.votes (s.node i).startElection.currentTerm [])) with voteCalls := s.voteCalls ++ newVoteCalls i (s.node i).startElection })
    (hs : ∀ v, Node.VoteStep (s.node v) (s'.node v)) : VoteInv s' (b.next s') := by
  have hi : s'.node i = (s.node i).startElection := by subst hnext; simp
  have hne : ∀ j, j ≠ i → s'.node j = s.node j := by
    intro j hj
    subst hnext
    exact setNode_node_ne s i _ hj
  have hself : b.next s' i (s'.node i).currentTerm = some i := by
    rw [hI.book_cur hs i, hi]
    exact congrArg some (hI.id i)
  have hcalls : s'.voteCalls = s.voteCalls ++ newVoteCalls i (s.node i).startElection := by
    subst hnext
    rfl
  have hterm : (s'.node i).currentTerm = (s.node i).currentTerm + 1 := by rw [hi]; rfl
  refine ⟨hI.id_next hs, hI.book_le hs, hI.book_cur hs, ?_, ?_, ?_, ?_⟩
  · intro j t ht
    by_cases hj : j = i
    · subst hj
      rw [hi] at ht
      exact hI.led_mono hs ht
    · rw [hne j hj] at ht
      exact hI.led_mono hs ht
  · intro c hc
    rw [hcalls, List.mem_append] at hc
    rcases hc with hc | hc
    · exact hI.call_mono hs hc
    · simp only [newVoteCalls, List.mem_map] at hc
      obtain ⟨p, hp, rfl⟩ := hc
      refine ⟨?_, mem_peers.1 hp, fun r hr => absurd hr (by simp)⟩
      show (s.node i).startElection.currentTerm ≤ (s'.node i).currentTerm
      rw [hi]
  · -- the new requests have a term that no earlier request of this candidate has
    rw [hcalls, List.map_append, List.nodup_append']
    refine ⟨hI.nodup, ?_, ?_⟩
    · simp only [newVoteCalls, List.map_map]
      exact (nodup_peers i).map fun p q h => by simpa [VoteCall.key] using h
    · intro x hx hx'
      simp only [List.mem_map] at hx
      obtain ⟨c, hc, rfl⟩ := hx
      simp only [newVoteCalls, List.map_map, List.mem_map, Function.comp, VoteCall.key, Prod.mk.injEq] at hx'
      obtain ⟨p, -, h1, h2, -⟩ := hx'
      have hle := (hI.call c hc).term_le
      rw [← h2, ← h1] at hle
      simp only [startElection] at hle
      omega
  · intro j t g h
    by_cases hj : j = i
    · subst hj
      have hpc' : s'.pc j = .votes (s.node j).startElection.currentTerm [] := by
        subst hnext
        exact setPc_pc_self _ _ _
      rw [hpc'] at h
      cases h
      refine ⟨le_of_eq (by rw [hi]), fun _ => ⟨by rw [hi], ?_⟩, List.nodup_nil, by simp, by simp,
        by simp⟩
      rw [← hi]
      exact hself
    · have hpc' : s.pc j = .votes t g := by
        subst hnext
        exact (setPc_pc_ne (s.setNode i _) i _ hj).symm.trans h
      refine hI.loop_mono hs hpc' (fun hc => ?_) fun c hc h1 h2 => ?_
      · rw [hne j hj] at hc ⊢
        exact ⟨hc, rfl⟩
      · rw [hcalls, List.mem_append] at hc
        rcases hc with hc | hc
        · exact (hI.loop j t g hpc').pending c hc h1 h2
        · simp only [newVoteCalls, List.mem_map] at hc
          obtain ⟨p, -, rfl⟩ := hc
          exact absurd h1.symm hj

variable {args : RequestVoteArgs N} {k : Nat} {p : Fin N}

theorem VoteInv.voteHandler (hI : VoteInv s b) (hk : s.voteCalls[k]? = some ⟨p, args, none⟩)
    (hnext : s' = (s.setNode p ((s.node p).handleRequestVote args).1).setVoteCall k ⟨p, args, some ((s.node p).handleRequestVote args).2⟩) :
    VoteInv s' (b.next s') := by
  have hq : ∀ v, Quiet (s.node v) (s'.node v) := by
    subst hnext
    exact quiet_setNode (handleRequestVote_quiet _ _)
  have hs : ∀ v, VoteStep (s.node v) (s'.node v) := fun v => (hq v).toVoteStep
  have hp : s'.node p = ((s.node p).handleRequestVote args).1 := by subst hnext; simp
  have hmem : (⟨p, args, none⟩ : VoteCall N) ∈ s.voteCalls := List.mem_of_getElem? hk
  have hcalls : s'.voteCalls =
      s.voteCalls.set k ⟨p, args, some ((s.node p).handleRequestVote args).2⟩ := by
    subst hnext
    rfl
  have hkeys : s'.voteCalls.map VoteCall.key = s.voteCalls.map VoteCall.key := by
    rw [hcalls, List.map_set]
    refine List.ext_getElem? fun j => ?_
    rw [List.getElem?_set]
    split
    case isFalse => rfl
    case isTrue hkj =>
      subst hkj
      have hlt : k < (s.voteCalls.map VoteCall.key).length := by
        rw [List.length_map]
        exact (List.getElem?_eq_some_iff.1 hk).1
      rw [if_pos hlt, List.getElem?_map, hk]
      rfl
  -- the goroutine keeps its key
  have hold : ∀ c ∈ s'.voteCalls, ∃ c₀ ∈ s.voteCalls, c₀.key = c.key := by
    intro c hc
    have : c.key ∈ s'.voteCalls.map VoteCall.key := List.mem_map_of_mem hc
    rw [hkeys, List.mem_map] at this
    exact this
  refine ⟨hI.id_next hs, hI.book_le hs, hI.book_cur hs, fun i t ht => ?_, fun c hc => ?_,
    hkeys ▸ hI.nodup, fun i t g h => ?_⟩
  · rw [(hq i).ledTerms] at ht
    exact hI.led_mono hs ht
  · rw [hcalls] at hc
    rcases List.mem_or_eq_of_mem_set hc with hc | rfl
    · exact hI.call_mono hs hc
    · have hc0 := hI.call_mono hs hmem
      refine ⟨hc0.term_le, hc0.peer_ne, fun r hr hg => ?_⟩
      simp only [Option.mem_def, Option.some.injEq] at hr
      subst hr
      show b.next s' p args.term = some args.candidateID
      rcases Nat.lt_or_ge args.term (s.node p).currentTerm with hlt | hge
      · rw [handleRequestVote_of_stale hlt] at hg
        exact absurd hg (by simp)
      · rw [handleRequestVote_of_le hge] at hg hp
        rcases ((s.node p).adoptTerm args.term).grantVote_spec args with ⟨hf, -⟩ | ⟨-, he, -, -⟩
        · rw [hf] at hg
          exact absurd hg (by simp)
        · rw [he] at hp
          have hterm : (s'.node p).currentTerm = args.term := by
            rw [hp]
            exact adoptTerm_currentTerm hge
          rw [← hterm, hI.book_cur hs p, hp]
  · have hpc : s.pc i = .votes t g := by
      subst hnext
      exact h
    refine hI.loop_mono hs hpc (fun hc => ?_) fun c hc h1 h2 => ?_
    · rcases (hq i).role with ⟨hst, hterm⟩ | hf
      · exact ⟨hst ▸ hc, hterm⟩
      · rw [hf] at hc
        exact absurd hc (by simp)
    · obtain ⟨c₀, hc₀, hkey⟩ := hold c hc
      simp only [VoteCall.key, Prod.mk.injEq] at hkey
      obtain ⟨k1, k2, k3⟩ := hkey
      rw [← k3]
      exact (hI.loop i t g hpc).pending c₀ hc₀ (k1.trans h1) (k2.trans h2)

theorem VoteInv.key_not_mem (hI : VoteInv s b) {c : VoteCall N} (hk : s.voteCalls[k]? = some c) :
    ∀ c' ∈ s.voteCalls.eraseIdx k, c'.key ≠ c.key := by
  intro c' hc' heq
  obtain ⟨j, hj, hjk⟩ := List.mem_eraseIdx_iff_getElem?.1 hc'
  have h1 : (s.voteCalls.map VoteCall.key)[j]? = some c.key := by
    rw [List.getElem?_map, hjk, ← heq]
    rfl
  have h2 : (s.voteCalls.map VoteCall.key)[k]? = some c.key := by
    rw [List.getElem?_map, hk]
    rfl
  have hlt : j < (s.voteCalls.map VoteCall.key).length := (List.getElem?_eq_some_iff.1 h1).1
  exact hj ((List.getElem?_inj hlt hI.nodup).1 (h1.trans h2.symm))

variable {reply : RequestVoteReply} {granted : List (Fin N)}

section

variable (hI : VoteInv s b)
include hI

theorem VoteInv.voteCounts (hk : s.voteCalls[k]? = some ⟨p, args, some reply⟩)
    (hpc : s.pc args.candidateID = .votes args.term granted) (hgrant : reply.voteGranted = true)
    (hnext : s' = (s.endVoteCall k).setPc args.candidateID (.votes args.term (p :: granted))) :
    VoteInv s' (b.next s') := by
  have hnode : s'.node = s.node := by subst hnext; rfl
  have hs : ∀ v, VoteStep (s.node v) (s'.node v) := by
    rw [hnode]
    exact fun v => (Quiet.refl _).toVoteStep
  have hcalls : s'.voteCalls = s.voteCalls.eraseIdx k := by subst hnext; rfl
  have hsub : s'.voteCalls.Sublist s.voteCalls := hcalls ▸ List.eraseIdx_sublist ..
  have hmem := List.mem_of_getElem? hk
  have hcall := hI.call _ hmem
  refine ⟨hI.id_next hs, hI.book_le hs, hI.book_cur hs, fun i t ht => ?_,
    fun c hc => hI.call_mono hs (hsub.subset hc), hI.nodup.sublist (hsub.map _), fun i t g h => ?_⟩
  · rw [hnode] at ht
    exact hI.led_mono hs ht
  · by_cases hi : i = args.candidateID
    · subst hi
      have hpc' : s'.pc args.candidateID = .votes args.term (p :: granted) := by
        subst hnext
        exact setPc_pc_self _ _ _
      rw [hpc'] at h
      cases h
      have hl := hI.loop _ _ _ hpc
      have hfresh : p ∉ granted := hl.pending _ hmem rfl rfl
      have hp : b p args.term = some args.candidateID := hcall.granted reply rfl hgrant
      refine ⟨hnode ▸ hl.term_le, fun hc => ?_, List.nodup_cons.2 ⟨hfresh, hl.nodup⟩, ?_, ?_, ?_⟩
      · rw [hnode] at hc ⊢
        exact ⟨(hl.self hc).1, hI.book_mono hs (hl.self hc).2⟩
      · rw [List.mem_cons, not_or]
        exact ⟨hcall.peer_ne.symm, hl.not_self⟩
      · intro q hq
        rcases List.mem_cons.1 hq with rfl | hq
        · exact hI.book_mono hs hp
        · exact hI.book_mono hs (hl.granted q hq)
      · intro c hc h1 h2 hmem'
        rcases List.mem_cons.1 hmem' with heq | hq
        · refine hI.key_not_mem hk c (hcalls ▸ hc) ?_
          simp only [VoteCall.key, heq, h1, h2]
        · exact hl.pending c (hsub.subset hc) h1 h2 hq
    · have hpc' : s.pc i = .votes t g := by
        subst hnext
        rwa [setPc_pc_ne _ _ _ hi] at h
      refine hI.loop_mono hs hpc' (fun hc => ?_) fun c hc =>
        (hI.loop i t g hpc').pending c (hsub.subset hc)
      rw [hnode] at hc ⊢
      exact ⟨hc, rfl⟩

theorem VoteInv.quorum_of_loop (hk : s.voteCalls[k]? = some ⟨p, args, some reply⟩)
    (hpc : s.pc args.candidateID = .votes args.term granted) (hgrant : reply.voteGranted = true)
    (hstate : (s.node args.candidateID).state = .candidate)
    (hmaj : ((peers args.candidateID).length + 1) / 2 + 1 ≤ granted.length + 1 + 1) :
    ∃ S : Finset (Fin N), Majority S ∧ ∀ v ∈ S, b v args.term = some args.candidateID := by
  have hmem := List.mem_of_getElem? hk
  have hcall := hI.call _ hmem
  have hl := hI.loop _ _ _ hpc
  have hfresh : p ∉ granted := hl.pending _ hmem rfl rfl
  have hnodup : (args.candidateID :: p :: granted).Nodup := by
    refine List.nodup_cons.2 ⟨?_, List.nodup_cons.2 ⟨hfresh, hl.nodup⟩⟩
    rw [List.mem_cons, not_or]
    exact ⟨hcall.peer_ne.symm, hl.not_self⟩
  refine ⟨(args.candidateID :: p :: granted).toFinset, ?_, ?_⟩
  · rw [Majority]
    rw [List.toFinset_card_of_nodup hnodup, Fintype.card_fin]
    rw [length_peers] at hmaj
    simpa using hmaj
  · intro v hv
    rw [List.mem_toFinset, List.mem_cons, List.mem_cons] at hv
    rcases hv with rfl | rfl | hv
    · exact (hl.self hstate).2
    · exact hcall.granted reply rfl hgrant
    · exact hl.granted v hv

theorem VoteInv.voteWins (hk : s.voteCalls[k]? = some ⟨p, args, some reply⟩)
    (hpc : s.pc args.candidateID = .votes args.term granted) (hgrant : reply.voteGranted = true)
    (hstate : (s.node args.candidateID).state = .candidate)
    (hmaj : ((peers args.candidateID).length + 1) / 2 + 1 ≤ granted.length + 1 + 1)
    (hnext : s' = ((s.endVoteCall k).setNode args.candidateID (s.node args.candidateID).becomeLeader).setPc args.candidateID .run)
    (hs : ∀ v, Node.VoteStep (s.node v) (s'.node v)) : VoteInv s' (b.next s') := by
  have hi : s'.node args.candidateID = (s.node args.candidateID).becomeLeader := by
    subst hnext
    simp
  have hne : ∀ j, j ≠ args.candidateID → s'.node j = s.node j := by
    intro j hj
    subst hnext
    exact setNode_node_ne (s.endVoteCall k) _ _ hj
  have hcalls : s'.voteCalls = s.voteCalls.eraseIdx k := by subst hnext; rfl
  have hsub : s'.voteCalls.Sublist s.voteCalls := hcalls ▸ List.eraseIdx_sublist ..
  have hterm : (s.node args.candidateID).currentTerm = args.term :=
    ((hI.loop _ _ _ hpc).self hstate).1
  refine ⟨hI.id_next hs, hI.book_le hs, hI.book_cur hs, fun i t ht => ?_,
    fun c hc => hI.call_mono hs (hsub.subset hc), hI.nodup.sublist (hsub.map _), fun i t g h => ?_⟩
  · by_cases hj : i = args.candidateID
    · subst hj
      rw [hi] at ht
      rcases List.mem_cons.1 ht with rfl | ht
      · obtain ⟨S, hS, hv⟩ := hI.quorum_of_loop hk hpc hgrant hstate hmaj
        refine ⟨by rw [hi]; exact le_refl _, S, hS, fun v hvS => ?_⟩
        rw [hterm]
        exact hI.book_mono hs (hv v hvS)
      · exact hI.led_mono hs ht
    · rw [hne i hj] at ht
      exact hI.led_mono hs ht
  · have hi' : i ≠ args.candidateID := by
      rintro rfl
      have hpc' : s'.pc args.candidateID = .run := by
        subst hnext
        exact setPc_pc_self _ _ _
      rw [hpc'] at h
      exact absurd h (by simp)
    have hpc' : s.pc i = .votes t g := by
      subst hnext
      rwa [setPc_pc_ne _ _ _ hi'] at h
    refine hI.loop_mono hs hpc' (fun hc => ?_) fun c hc =>
      (hI.loop i t g hpc').pending c (hsub.subset hc)
    rw [hne i hi'] at hc ⊢
    exact ⟨hc, rfl⟩

theorem VoteInv.electionTimeout
    (hnext : s' = (s.setNode i { s.node i with state := .candidate }).setPc i .run)
    (hs : ∀ v, Node.VoteStep (s.node v) (s'.node v)) : VoteInv s' (b.next s') := by
  have hi : s'.node i = { s.node i with state := .candidate } := by subst hnext; simp
  have hne : ∀ j, j ≠ i → s'.node j = s.node j := by
    intro j hj
    subst hnext
    exact setNode_node_ne s i _ hj
  have hcalls : s'.voteCalls = s.voteCalls := by subst hnext; rfl
  refine ⟨hI.id_next hs, hI.book_le hs, hI.book_cur hs, fun j t ht => ?_,
    fun c hc => hI.call_mono hs (hcalls ▸ hc), hcalls ▸ hI.nodup, fun j t g h => ?_⟩
  · by_cases hj : j = i
    · subst hj
      rw [hi] at ht
      exact hI.led_mono hs ht
    · rw [hne j hj] at ht
      exact hI.led_mono hs ht
  · have hj : j ≠ i := by
      rintro rfl
      have hpc' : s'.pc j = .run := by
        subst hnext
        exact setPc_pc_self _ _ _
      rw [hpc'] at h
      exact absurd h (by simp)
    have hpc' : s.pc j = .votes t g := by
      subst hnext
      rwa [setPc_pc_ne _ _ _ hj] at h
    refine hI.loop_mono hs hpc' (fun hc => ?_) fun c hc =>
      (hI.loop j t g hpc').pending c (hcalls ▸ hc)
    rw [hne j hj] at hc ⊢
    exact ⟨hc, rfl⟩

/-- Every step keeps the election invariant. -/
theorem VoteInv.next {a : Action N} (h : Next s a s') : VoteInv s' (b.next s') := by
  have hs := h.voteStep
  have same : ∀ v, Quiet (s.node v) (s.node v) := fun v => .refl _
  have keep : ∀ i t g, s.pc i = .votes t g → s.pc i = .votes t g := fun _ _ _ h => h
  cases h with
  | dispatch i pc _ hpc' =>
    refine hI.of_quiet (refl _) (setPc_votes fun t g => ?_) same
    rcases hpc' with ⟨-, rfl⟩ | ⟨-, rfl⟩ | ⟨-, rfl⟩ <;> simp
  | electionTimeout i _ => exact hI.electionTimeout rfl hs
  | campaign i hpc => exact hI.campaign hpc rfl hs
  | voteHandler k p args hk => exact hI.voteHandler hk rfl
  | voteHigher k p args reply granted _ _ hterm =>
    exact hI.of_quiet (List.eraseIdx_sublist ..)
      (setPc_votes (s := (s.endVoteCall k).setNode _ _) fun t g => by simp)
      (quiet_setNode (.stepDown hterm))
  | voteWins k p args reply granted hk hpc hgrant hstate hmaj =>
    exact hI.voteWins hk hpc hgrant hstate hmaj rfl hs
  | voteCounts k p args reply granted hk hpc hgrant => exact hI.voteCounts hk hpc hgrant rfl
  | voteIgnored k => exact hI.of_quiet (List.eraseIdx_sublist ..) keep same
  | voteTimeout i => exact hI.of_quiet (refl _) (setPc_votes fun t g => by simp) same
  | tick i pc _ hpc' =>
    refine hI.of_quiet (refl _) (setPc_votes fun t g => ?_) same
    rcases hpc' with rfl | rfl <;> simp
  | command i cmd _ _ =>
    exact hI.of_quiet (refl _) (setPc_votes (s := s.setNode _ _) fun t g => by simp)
      (quiet_setNode (.of_control rfl))
  | commandLost i cmd _ =>
    exact hI.of_quiet (refl _) (setPc_votes fun t g => by simp) same
  | broadcast i _ =>
    exact hI.of_quiet (refl _) (setPc_votes fun t g => by simp) same
  | endSpawned k => exact hI.of_quiet (refl _) keep same
  | build k c stage _ _ _ _ => exact hI.of_quiet (refl _) keep same
  | deliverAppend k c args _ _ =>
    exact hI.of_quiet (refl _) keep
      (quiet_setNode (handleAppendEntries_quiet _ _))
  | deliverSnapshot k c args _ _ =>
    exact hI.of_quiet (refl _) keep
      (quiet_setNode (handleInstallSnapshot_quiet _ _))
  | processAppend k c args reply _ _ =>
    exact hI.of_quiet (refl _) keep
      (quiet_setNode (processAppendReply_quiet _ _ _ _))
  | processSnapshot k c args reply _ _ =>
    exact hI.of_quiet (refl _) keep
      (quiet_setNode (processSnapshotReply_quiet _ _ _))

theorem VoteInv.led_unique {j : Fin N} (hi : t ∈ (s.node i).ledTerms)
    (hj : t ∈ (s.node j).ledTerms) : i = j := by
  obtain ⟨-, S, hS, hvS⟩ := hI.led i t hi
  obtain ⟨-, T, hT, hvT⟩ := hI.led j t hj
  obtain ⟨v, h1, h2⟩ := hS.exists_mem_inter hT
  have heq := (hvS v h1).symm.trans (hvT v h2)
  exact Option.some.inj heq

end

end Step

theorem voteInv_reachable {s : Cluster N} (h : Reachable s) : ∃ b, VoteInv s b :=
  ReachableIf.ghost (fun b _ s' => VoteBook.next b s') voteInv_init
    (fun _ _ _ _ hI _ hs => hI.next (next_of_step hs)) h

/-- **Election safety**: at most one node ever runs `becomeLeader` in a term. -/
theorem election_safety {s : Cluster N} (h : Reachable s) {i j : Fin N} {t : Nat}
    (hi : t ∈ (s.node i).ledTerms) (hj : t ∈ (s.node j).ledTerms) : i = j := by
  obtain ⟨b, hI⟩ := voteInv_reachable h
  exact hI.led_unique hi hj

/-- Node 0 wins the election of term 1 in a cluster of three, and no other node leads that term. -/
theorem election_safety_elected : ∃ s : Cluster 3, (s.node 0).ledTerms = [1] ∧
    ∀ j, 1 ∈ (s.node j).ledTerms → j = 0 := by
  have h : (exec Cluster.step (newCluster 3) [.dispatch 0, .electionTimeout 0, .dispatch 0,
      .campaign 0, .voteHandler 0, .voteReply 0]).map (fun s => (s.node 0).ledTerms) = some [1] := by
    rfl
  obtain ⟨s, hs, hled⟩ := Option.map_eq_some_iff.1 h
  refine ⟨s, hled, fun j hj => ?_⟩
  exact election_safety (reachable_of_exec hs) hj (by rw [hled]; exact List.mem_singleton.2 rfl)

end SystemDesignLabs.Raft
