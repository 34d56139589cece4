import SystemDesignLabs.Core.TransitionSystem
import SystemDesignLabs.Gossip.Member

/-!
# Full-state dissemination

The `GossipNode` of `labs/gossip/pkg/swim/swim.go` (v0), and the network of such nodes. A message that was
sent stays in the network: it can be delivered to the node it is addressed to, at any later time and any
number of times, or never. Beside its state, each node carries the origins of what it has merged, directly
or through other nodes: initial memberships and effective `Join`s. What a node holds is the join of the
pairs of its origins (`Merged`), so nothing regresses, nothing is made up, and nodes with the same origins
agree (`gossip_converges`).
-/

namespace SystemDesignLabs.Gossip

open Core Finset

structure GossipNode where
  addr : String
  members : Members
  deriving DecidableEq

/-- The addresses that `pickRandomPeers` chooses from. -/
def Members.peers (members : Members) (self : String) : List String :=
  (members.entries.map Prod.fst).filter (· ≠ self)

/-- `pickRandomPeers` may return these peers. -/
def Members.PickRandomPeers (members : Members) (self : String) (count : Nat)
    (picked : List String) : Prop :=
  picked.Nodup ∧ (∀ p ∈ picked, p ∈ members.peers self) ∧
    picked.length = min count (members.peers self).length

instance (members : Members) (self : String) (count : Nat) (picked : List String) :
    Decidable (members.PickRandomPeers self count picked) :=
  inferInstanceAs (Decidable (_ ∧ _ ∧ _))

def gossipFanout : Nat := 3

namespace GossipNode

/-- `NewGossipNode`. -/
def new (addr : String) (now : Nat) : GossipNode := ⟨addr, SortedMap.empty.insert addr (.joined addr now)⟩

/-- The message of `doGossipRound`. -/
def gossipMessage (n : GossipNode) : Message :=
  ⟨.gossip, n.addr, some n.members.snapshot, "", [], 0⟩

/-- `handleMessage`. Ranging over the nil map does nothing. -/
def handleMessage (n : GossipNode) (msg : Message) : GossipNode :=
  match msg.type with
  | .gossip => { n with members := n.members.mergeMembers (msg.members.getD SortedMap.empty) }
  | _ => n

end GossipNode

/-! ## The network -/

/-- Where a pair can come from: the initial membership of a node, or a `Join`. -/
inductive Origin (ι : Type) where
  | initial (i : ι)
  | join (i : ι) (peerAddr : String) (now : Nat)
  deriving DecidableEq

variable {ι : Type}

/-- What the origin contributes. -/
def Origin.members (init : ι → GossipNode) : Origin ι → Members
  | .initial i => (init i).members
  | .join _ peerAddr now => SortedMap.empty.insert peerAddr (.joined peerAddr now)

/-- The nodes with the origins of what they hold, and everything that was sent, with the origins that the
sender had merged. -/
structure Network (ι : Type) where
  nodes : ι → GossipNode
  known : ι → Finset (Origin ι)
  sent : List (Packet × Finset (Origin ι))

/-- All nodes have their initial membership, and nothing was sent. -/
def Network.start (init : ι → GossipNode) : Network ι := ⟨init, fun i => {.initial i}, []⟩

/-- A `Join`, a gossip round with the picked peers, and the arrival of the `k`-th message. -/
inductive Op (ι : Type) where
  | join (i : ι) (peerAddr : String) (now : Nat)
  | doGossipRound (i : ι) (peers : List String)
  | deliver (i : ι) (k : Nat)
  deriving DecidableEq

variable [DecidableEq ι]

/-- One atomic step at a node. -/
def step (net : Network ι) : Op ι → Option (Network ι)
  | .join i peerAddr now =>
    let n := net.nodes i
    let known := if n.members.get peerAddr = none then insert (.join i peerAddr now) (net.known i)
      else net.known i
    some { net with
      nodes := Function.update net.nodes i { n with members := n.members.join peerAddr now }
      known := Function.update net.known i known }
  | .doGossipRound i peers =>
    let n := net.nodes i
    if n.members.PickRandomPeers n.addr gossipFanout peers then
      some { net with
        sent := net.sent ++ peers.map fun peer => (⟨peer, n.gossipMessage⟩, net.known i) }
    else none
  | .deliver i k =>
    let n := net.nodes i
    match net.sent[k]? with
    | none => none
    | some (packet, origins) =>
      if packet.dest = n.addr then
        some { net with
          nodes := Function.update net.nodes i (n.handleMessage packet.msg)
          known := Function.update net.known i (net.known i ∪ origins) }
      else none

/-! ## What a node holds is what it has merged -/

/-- The pairs that the origins give together. -/
def joined (init : ι → GossipNode) (known : Finset (Origin ι)) : String → WithBot (ℕ ×ₗ NodeStatus) :=
  known.sup fun o => (o.members init).pairs

/-- A `Join` origin was made by one of the operations. -/
def Origin.Made (done : List (Op ι)) : Origin ι → Prop
  | .initial _ => True
  | .join i peerAddr now => .join i peerAddr now ∈ done

/-- Every node and every message hold the join of their origins. -/
structure Merged (init : ι → GossipNode) (done : List (Op ι)) (net : Network ι) : Prop where
  nodes : ∀ i, (net.nodes i).members.pairs = joined init (net.known i)
  made : ∀ i, ∀ o ∈ net.known i, o.Made done
  sent : ∀ q ∈ net.sent, q.1.msg.type = .gossip ∧ (∀ o ∈ q.2, o.Made done) ∧
    ∃ members, q.1.msg.members = some members ∧ members.pairs = joined init q.2

variable {init : ι → GossipNode} {done : List (Op ι)} {net net' : Network ι}

omit [DecidableEq ι] in
theorem merged_start : Merged init done (Network.start init) := by
  refine ⟨?_, ?_, ?_⟩
  · intro i
    exact sup_singleton.symm
  · intro i o ho
    rw [mem_singleton.1 ho]
    trivial
  · intro q hq
    exact absurd hq List.not_mem_nil

theorem joined_insert_join (i : ι) (known : Finset (Origin ι)) (peerAddr : String) (now : Nat)
    (a : String) : joined init (insert (.join i peerAddr now) known) a =
      joined init known a ⊔ if a = peerAddr then ↑(Member.joined peerAddr now).pair else ⊥ := by
  rw [joined, sup_insert, Pi.sup_apply, sup_comm, Origin.members, Members.pairs_insert]
  rfl

variable {known : Finset (Origin ι)}

theorem Merged.update (h : Merged init done net) {i : ι} {n : GossipNode}
    (hn : n.members.pairs = joined init known) (hmade : ∀ o ∈ known, o.Made done) :
    Merged init done { net with
      nodes := Function.update net.nodes i n
      known := Function.update net.known i known } := by
  refine ⟨?_, ?_, h.sent⟩
  · intro j
    dsimp only
    by_cases hj : j = i
    · subst hj
      rw [Function.update_self, Function.update_self]
      exact hn
    · rw [Function.update_of_ne hj, Function.update_of_ne hj]
      exact h.nodes j
  · intro j
    dsimp only
    by_cases hj : j = i
    · subst hj
      rw [Function.update_self]
      exact hmade
    · rw [Function.update_of_ne hj]
      exact h.made j

/-- Every step keeps what is held the join of the origins. -/
theorem merged_step {op : Op ι} (h : Merged init done net) (hop : op ∈ done)
    (hs : step net op = some net') : Merged init done net' := by
  cases op with
  | join i peerAddr now =>
    cases hs
    by_cases hnone : (net.nodes i).members.get peerAddr = none
    · rw [if_pos hnone]
      apply h.update
      · funext a
        rw [Members.pairs_join, h.nodes i, joined_insert_join]
      · intro o ho
        obtain rfl | ho := mem_insert.1 ho
        · exact hop
        · exact h.made i o ho
    · rw [if_neg hnone, Members.join, if_neg hnone]
      exact h.update (h.nodes i) (h.made i)
  | doGossipRound i peers =>
    simp only [step] at hs
    split at hs
    · cases hs
      refine ⟨h.nodes, h.made, ?_⟩
      intro q hq
      obtain hq | hq := List.mem_append.1 hq
      · exact h.sent q hq
      · obtain ⟨peer, -, rfl⟩ := List.mem_map.1 hq
        refine ⟨rfl, h.made i, _, rfl, ?_⟩
        rw [Members.pairs_snapshot, h.nodes i]
    · exact absurd hs (by simp)
  | deliver i k =>
    simp only [step] at hs
    split at hs
    · exact absurd hs (by simp)
    · rename_i packet origins hk
      obtain ⟨htype, hmade, members, hmembers, hpairs⟩ := h.sent _ (List.mem_of_getElem? hk)
      dsimp only at htype hmade hmembers hpairs
      split at hs
      · cases hs
        apply h.update
        · rw [GossipNode.handleMessage, htype, hmembers]
          dsimp only [Option.getD_some]
          rw [Members.pairs_mergeMembers, h.nodes i, hpairs, joined, joined, joined,
            sup_union]
        · intro o ho
          exact (mem_union.1 ho).elim (h.made i o) (hmade o)
      · exact absurd hs (by simp)

theorem merged_of_exec {ops : List (Op ι)} (hrun : exec step (Network.start init) ops = some net) :
    Merged init ops net := by
  have hreach : ReachableIf step (fun _ op => op ∈ ops) (Network.start init) net :=
    ReachableIf.init.exec_of_forall (fun _ hop _ => hop) hrun
  refine hreach.invariant (I := Merged init ops) merged_start ?_
  intro net op net' _ h hop hs
  exact merged_step h hop hs

/-! ## Nothing regresses -/

theorem pairs_le_step {op : Op ι} (hs : step net op = some net') (i : ι) :
    (net.nodes i).members.pairs ≤ (net'.nodes i).members.pairs := by
  have hupdate : ∀ (j : ι) (n : GossipNode), (net.nodes j).members.pairs ≤ n.members.pairs →
      (net.nodes i).members.pairs ≤ (Function.update net.nodes j n i).members.pairs := by
    intro j n hn
    by_cases hi : i = j
    · subst hi
      rw [Function.update_self]
      exact hn
    · rw [Function.update_of_ne hi]
  cases op with
  | join j peerAddr now =>
    cases hs
    apply hupdate
    intro a
    dsimp only
    rw [Members.pairs_join]
    exact le_sup_left
  | doGossipRound j peers =>
    simp only [step] at hs
    split at hs
    · cases hs
      exact le_rfl
    · exact absurd hs (by simp)
  | deliver j k =>
    simp only [step] at hs
    split at hs
    · exact absurd hs (by simp)
    · split at hs
      · cases hs
        apply hupdate
        rw [GossipNode.handleMessage]
        split
        · dsimp only
          rw [Members.pairs_mergeMembers]
          exact le_sup_left
        · exact le_rfl
      · exact absurd hs (by simp)

theorem pairs_le_exec {ops : List (Op ι)} (hs : exec step net ops = some net') (i : ι) :
    (net.nodes i).members.pairs ≤ (net'.nodes i).members.pairs := by
  induction ops generalizing net with
  | nil =>
    cases hs
    exact le_rfl
  | cons op ops ih =>
    obtain ⟨next, hnext, hs⟩ := Option.bind_eq_some_iff.1 hs
    exact (pairs_le_step hnext i).trans (ih hs)

omit [DecidableEq ι] in
theorem exists_origin {a : String} {p : ℕ ×ₗ NodeStatus} (h : joined init known a = p) :
    ∃ o ∈ known, (o.members init).pairs a = p := by
  rw [joined, Finset.sup_apply] at h
  obtain hempty | hne := known.eq_empty_or_nonempty
  · rw [hempty, Finset.sup_empty] at h
    exact absurd h WithBot.bot_ne_coe
  · obtain ⟨o, ho, heq⟩ := Finset.exists_mem_eq_sup known hne fun o => (o.members init).pairs a
    exact ⟨o, ho, heq.symm.trans h⟩

/-! ## The laws of the merge -/

theorem pairs_foldl_mergeMembers (members : Members) (snapshots : List Members) :
    (snapshots.foldl Members.mergeMembers members).pairs =
      members.pairs ⊔ snapshots.toFinset.sup Members.pairs := by
  induction snapshots generalizing members with
  | nil => exact (sup_bot_eq _).symm
  | cons s snapshots ih =>
    rw [List.foldl_cons, ih, Members.pairs_mergeMembers, List.toFinset_cons, sup_insert,
      sup_assoc]

/-- **Full-state gossip converges and never regresses.** For all nodes and initial memberships, after
every run: what a node holds for an address was held initially by some node or set by a `Join` of the run,
nodes with the same origins hold the same pairs, and no pair ever moved down; and on pairs the merge is
commutative, associative and idempotent, so that the order and the number of the merged snapshots do not
matter. -/
theorem gossip_converges (init : ι → GossipNode) :
    (∀ ops net, exec step (Network.start init) ops = some net →
      (∀ i a (p : ℕ ×ₗ NodeStatus), (net.nodes i).members.pairs a = p →
        (∃ j, (init j).members.pairs a = p) ∨
          ∃ j now, .join j a now ∈ ops ∧ p = (Member.joined a now).pair) ∧
      (∀ i j, net.known i = net.known j →
        (net.nodes i).members.pairs = (net.nodes j).members.pairs) ∧
      ∀ more net', exec step net more = some net' → ∀ i a,
        (net.nodes i).members.pairs a ≤ (net'.nodes i).members.pairs a) ∧
    (∀ a b : Members, (a.mergeMembers b).pairs = (b.mergeMembers a).pairs) ∧
    (∀ a b c : Members,
      ((a.mergeMembers b).mergeMembers c).pairs = (a.mergeMembers (b.mergeMembers c)).pairs) ∧
    (∀ a : Members, (a.mergeMembers a).pairs = a.pairs) ∧
    ∀ (a : Members) (l l' : List Members), (∀ s, s ∈ l ↔ s ∈ l') →
      (l.foldl Members.mergeMembers a).pairs = (l'.foldl Members.mergeMembers a).pairs := by
  refine ⟨?_, ?_, ?_, ?_, ?_⟩
  · intro ops net hrun
    have h := merged_of_exec hrun
    refine ⟨?_, ?_, fun more net' hmore i => pairs_le_exec hmore i⟩
    · intro i a p hp
      rw [h.nodes i] at hp
      obtain ⟨o, ho, hpair⟩ := exists_origin hp
      cases o with
      | initial j => exact .inl ⟨j, hpair⟩
      | join j peerAddr now =>
        rw [Origin.members, Members.pairs_insert] at hpair
        split at hpair
        · rename_i ha
          subst ha
          exact .inr ⟨j, now, h.made i _ ho, (WithBot.coe_inj.1 hpair).symm⟩
        · exact absurd hpair WithBot.bot_ne_coe
    · intro i j hknown
      rw [h.nodes i, h.nodes j, hknown]
  · intro a b
    rw [Members.pairs_mergeMembers, Members.pairs_mergeMembers, sup_comm]
  · intro a b c
    simp only [Members.pairs_mergeMembers, sup_assoc]
  · intro a
    rw [Members.pairs_mergeMembers, sup_idem]
  · intro a l l' hmem
    have hset : l.toFinset = l'.toFinset := by
      ext s
      rw [List.mem_toFinset, List.mem_toFinset]
      exact hmem s
    rw [pairs_foldl_mergeMembers, pairs_foldl_mergeMembers, hset]

/-- Two nodes; the first joins a third address, and its message reaches the second one twice. -/
def twoNodes : Bool → GossipNode := fun b => .new (if b then "a" else "b") 0

/-- The first node knows the second one when it gossips. -/
def gossipRun : List (Op Bool) :=
  [.join true "b" 1, .join true "c" 2, .doGossipRound true ["b", "c"], .deliver false 0,
    .deliver false 0]

theorem gossip_converges_second : ∃ net : Network Bool,
    exec step (Network.start twoNodes) gossipRun = some net ∧
      (net.nodes false).members.pairs "c" = ((Member.joined "c" 2).pair : ℕ ×ₗ NodeStatus) ∧
      ((∃ j, (twoNodes j).members.pairs "c" = ((Member.joined "c" 2).pair : ℕ ×ₗ NodeStatus)) ∨
        ∃ j now, .join j "c" now ∈ gossipRun ∧
          (Member.joined "c" 2).pair = (Member.joined "c" now).pair) := by
  have hrun : (exec step (Network.start twoNodes) gossipRun).map
      (fun net => decide ((net.nodes false).members.get "c" = some (.joined "c" 2))) = some true := by
    rfl
  obtain ⟨net, hnet, hget⟩ := Option.map_eq_some_iff.1 hrun
  have hpair := Members.pairs_of_get (of_decide_eq_true hget)
  exact ⟨net, hnet, hpair, ((gossip_converges twoNodes).1 gossipRun net hnet).1 false "c" _ hpair⟩

end SystemDesignLabs.Gossip
