import SystemDesignLabs.Core.CountMap
import SystemDesignLabs.Core.TransitionSystem

/-!
# The delta-state counter

`GCounter`, `CausalContext`, `DeltaGCounter` and `CrdtNode` of `labs/crdt/pkg/crdt`. A node sends a peer
the entries that are above what it remembers of the peer, and remembers more only when the peer has
applied them. Counts serve as sequence numbers: a context never runs ahead of the state, and what is
remembered of a peer never runs ahead of the peer (`Consistent`). So nothing is lost: when there is
nothing to send, the peer has it all (`antiEntropy`).
-/

namespace SystemDesignLabs.Crdt

open Function (update update_of_ne update_self)

open Core CountMap

/-- `GCounter`. Counts are never negative. -/
structure GCounter where
  counts : CountMap String

namespace GCounter

/-- `NewGCounter`. -/
def new : GCounter := ⟨SortedMap.empty⟩

def nodeValue (g : GCounter) (nodeID : String) : Nat := count g.counts nodeID

def increment (g : GCounter) (nodeID : String) : GCounter :=
  ⟨SortedMap.insert g.counts nodeID (g.nodeValue nodeID + 1)⟩

def value (g : GCounter) : Nat := total g.counts

/-- `Merge`: the maximum for each node. -/
def merge (g other : GCounter) : GCounter :=
  ⟨other.counts.entries.foldl (fun counts p =>
    if count counts p.1 < p.2 then SortedMap.insert counts p.1 p.2 else counts) g.counts⟩

end GCounter

structure CausalContext where
  clock : CountMap String

namespace CausalContext

/-- `NewCausalContext`, and the zero value. -/
def new : CausalContext := ⟨SortedMap.empty⟩

def seenFrom (c : CausalContext) (nodeID : String) : Nat := count c.clock nodeID

/-- `Observe`: only advances. -/
def observe (c : CausalContext) (nodeID : String) (seqno : Nat) : CausalContext :=
  if count c.clock nodeID < seqno then ⟨SortedMap.insert c.clock nodeID seqno⟩ else c

end CausalContext

structure DeltaGCounter where
  state : GCounter
  context : CausalContext
  seqno : Nat
  nodeID : String

namespace DeltaGCounter

/-- `NewDeltaGCounter`. -/
def new (nodeID : String) : DeltaGCounter := ⟨.new, .new, 0, nodeID⟩

/-- `Increment`, with the delta it returns. -/
def increment (d : DeltaGCounter) : DeltaGCounter × GCounter :=
  let seqno := d.seqno + 1
  let state := d.state.increment d.nodeID
  let context := d.context.observe d.nodeID seqno
  ({ d with
    seqno := seqno
    state := state
    context := context },
    ⟨SortedMap.insert SortedMap.empty d.nodeID (state.nodeValue d.nodeID)⟩)

def applyDelta (d : DeltaGCounter) (delta : GCounter) : DeltaGCounter :=
  { d with
    state := d.state.merge delta
    context := delta.counts.entries.foldl (fun context p =>
      if context.seenFrom p.1 < p.2 then context.observe p.1 p.2 else context) d.context }

/-- `GenerateDelta`: the entries that the peer has not seen. -/
def generateDelta (d : DeltaGCounter) (peerContext : CausalContext) : GCounter :=
  ⟨SortedMap.filter d.state.counts fun p => peerContext.seenFrom p.1 < p.2⟩

def value (d : DeltaGCounter) : Nat := d.state.value

end DeltaGCounter

structure CrdtNode where
  nodeID : String
  counter : DeltaGCounter
  peerContexts : SortedMap String CausalContext

namespace CrdtNode

/-- `NewCrdtNode`. -/
def new (nodeID : String) : CrdtNode := ⟨nodeID, .new nodeID, SortedMap.empty⟩

def increment (n : CrdtNode) : CrdtNode × GCounter :=
  let (counter, delta) := n.counter.increment
  ({ n with counter := counter }, delta)

def applyDelta (n : CrdtNode) (delta : GCounter) : CrdtNode :=
  { n with counter := n.counter.applyDelta delta }

/-- What the node remembers of a peer. -/
def peerContext (n : CrdtNode) (peerID : String) : CausalContext :=
  (n.peerContexts.get peerID).getD .new

def generateDeltaFor (n : CrdtNode) (peerID : String) : GCounter :=
  n.counter.generateDelta (n.peerContext peerID)

def acknowledgeDelta (n : CrdtNode) (peerID : String) (delta : GCounter) : CrdtNode :=
  let ctx := delta.counts.entries.foldl (fun ctx p => ctx.observe p.1 p.2) (n.peerContext peerID)
  { n with peerContexts := n.peerContexts.insert peerID ctx }

def value (n : CrdtNode) : Nat := n.counter.value

end CrdtNode

/-! ## Merging and observing as maxima -/

theorem nodeValue_increment (g : GCounter) (nodeID k : String) : (g.increment nodeID).nodeValue k =
      if k = nodeID then g.nodeValue nodeID + 1 else g.nodeValue k := count_insert _ _ _ _

theorem nodeValue_merge (g other : GCounter) (k : String) :
    (g.merge other).nodeValue k = max (g.nodeValue k) (other.nodeValue k) :=
  count_raiseAll g.counts other.counts.sorted k

theorem clock_observe (c : CausalContext) (nodeID : String) (seqno : Nat) :
    (c.observe nodeID seqno).clock = raise c.clock nodeID seqno := by
  rw [CausalContext.observe, raise]
  split
  · rfl
  · rfl

theorem clock_foldl_observe (l : List (String × Nat)) (c : CausalContext) :
    (l.foldl (fun ctx p => ctx.observe p.1 p.2) c).clock = raiseAll c.clock l := by
  induction l generalizing c with
  | nil => rfl
  | cons p l ih =>
    rw [List.foldl_cons, ih, clock_observe]
    rfl

theorem observe_if (c : CausalContext) (nodeID : String) (seqno : Nat) :
    (if c.seenFrom nodeID < seqno then c.observe nodeID seqno else c) = c.observe nodeID seqno := by
  rw [CausalContext.observe, CausalContext.seenFrom]
  split
  · rfl
  · rfl

theorem seenFrom_applyDelta (d : DeltaGCounter) (delta : GCounter) (k : String) :
    (d.applyDelta delta).context.seenFrom k = max (d.context.seenFrom k) (delta.nodeValue k) := by
  simp only [DeltaGCounter.applyDelta, observe_if]
  rw [CausalContext.seenFrom, clock_foldl_observe]
  exact count_raiseAll d.context.clock delta.counts.sorted k

theorem peerContext_acknowledgeDelta (n : CrdtNode) (peerID : String) (delta : GCounter)
    (p k : String) : ((n.acknowledgeDelta peerID delta).peerContext p).seenFrom k =
      if p = peerID then max ((n.peerContext peerID).seenFrom k) (delta.nodeValue k)
      else (n.peerContext p).seenFrom k := by
  rw [CrdtNode.peerContext, CrdtNode.acknowledgeDelta, SortedMap.get_insert]
  split
  · rw [Option.getD_some, CausalContext.seenFrom, clock_foldl_observe]
    exact count_raiseAll _ delta.counts.sorted k
  · rfl

theorem nodeValue_generateDelta (d : DeltaGCounter) (peerContext : CausalContext) (k : String) :
    (d.generateDelta peerContext).nodeValue k =
      if peerContext.seenFrom k < d.state.nodeValue k then d.state.nodeValue k else 0 := by
  rw [GCounter.nodeValue, DeltaGCounter.generateDelta, count, SortedMap.get_filter, GCounter.nodeValue, count]
  cases SortedMap.get d.state.counts k with
  | none => simp
  | some c =>
    by_cases h : peerContext.seenFrom k < c
    · simp [Option.filter, h]
    · simp [Option.filter, h]

theorem seen_of_generateDelta_empty {d : DeltaGCounter} {peerContext : CausalContext}
    (h : (d.generateDelta peerContext).counts.entries = []) (k : String) :
    d.state.nodeValue k ≤ peerContext.seenFrom k := by
  have hzero : (d.generateDelta peerContext).nodeValue k = 0 := by
    rw [GCounter.nodeValue, count, SortedMap.get, h]
    rfl
  rw [nodeValue_generateDelta] at hzero
  split at hzero
  · rename_i hlt
    exact absurd hlt (by omega)
  · rename_i hge
    exact not_lt.1 hge

/-! ## Runs -/

namespace AntiEntropy

/-- A delta that was generated at `src` for the peer `dst`, and whether it was applied there. -/
structure Message (ι : Type) where
  src : ι
  dst : ι
  delta : GCounter
  applied : Bool

/-- The nodes, the deltas generated so far, and the number of increments at each node. -/
structure World (ι : Type) where
  node : ι → CrdtNode
  messages : List (Message ι)
  increments : ι → Nat

/-- `deliver k` and `acknowledge k` are about the `k`-th generated delta. -/
inductive Op (ι : Type) where
  | increment (i : ι)
  | generate (i j : ι)
  | deliver (k : Nat)
  | acknowledge (k : Nat)

variable {ι : Type} (idOf : ι → String)

def World.start : World ι := ⟨fun i => .new (idOf i), [], fun _ => 0⟩

variable [DecidableEq ι]

/-- One operation. A delta can be delivered to its peer any number of times; its source acknowledges it
only after that. -/
def step (w : World ι) : Op ι → Option (World ι)
  | .increment i =>
    some { w with
      node := Function.update w.node i (w.node i).increment.1
      increments := Function.update w.increments i (w.increments i + 1) }
  | .generate i j =>
    some { w with
      messages := w.messages ++ [⟨i, j, (w.node i).generateDeltaFor (idOf j), false⟩] }
  | .deliver k =>
    w.messages[k]?.map fun m =>
      { w with
        node := Function.update w.node m.dst ((w.node m.dst).applyDelta m.delta)
        messages := w.messages.set k { m with applied := true } }
  | .acknowledge k =>
    w.messages[k]?.bind fun m =>
      if m.applied then
        some { w with node :=
          Function.update w.node m.src ((w.node m.src).acknowledgeDelta (idOf m.dst) m.delta) }
      else none

/-- The state of a node. -/
abbrev World.state (w : World ι) (i : ι) : GCounter := (w.node i).counter.state

/-- The keys of a counter are node IDs, and no entry exceeds the increments of its node. -/
def Bounded (increments : ι → Nat) (g : GCounter) : Prop :=
  KeysIn (fun k => ∃ j, idOf j = k) g.counts ∧ ∀ j, g.nodeValue (idOf j) ≤ increments j

/-- The state of the node `i` is bounded by the increments and has its own entry in full, which is also
its sequence number; its context does not exceed the state. -/
structure Sound (increments : ι → Nat) (i : ι) (n : CrdtNode) : Prop where
  nodeID : n.counter.nodeID = idOf i
  bounded : Bounded idOf increments n.counter.state
  own : n.counter.state.nodeValue (idOf i) = increments i
  seqno : n.counter.seqno = increments i
  context : ∀ k, n.counter.context.seenFrom k ≤ n.counter.state.nodeValue k

/-- All nodes are sound and all deltas bounded, and what is remembered of a node, or was applied at it,
is in its state. -/
structure Consistent (w : World ι) : Prop where
  sound : ∀ i, Sound idOf w.increments i (w.node i)
  delta : ∀ m ∈ w.messages, Bounded idOf w.increments m.delta
  applied : ∀ m ∈ w.messages, m.applied = true → ∀ k,
    m.delta.nodeValue k ≤ (w.state m.dst).nodeValue k
  peer : ∀ i j k, ((w.node i).peerContext (idOf j)).seenFrom k ≤ (w.state j).nodeValue k

variable {idOf}

omit [DecidableEq ι] in
theorem consistent_start : Consistent idOf (World.start idOf) := by
  refine ⟨?_, ?_, ?_, fun _ _ _ => le_refl _⟩
  · intro i
    refine ⟨rfl, ⟨fun p hp => absurd hp List.not_mem_nil, fun _ => le_refl _⟩, rfl, rfl, ?_⟩
    exact fun _ => le_refl _
  · exact fun m hm => absurd hm List.not_mem_nil
  · exact fun m hm => absurd hm List.not_mem_nil

variable {i : ι}

theorem forall_update {α : Type} {P : ι → α → Prop} {f : ι → α} {x : α} (h : ∀ j, j ≠ i → P j (f j))
    (hx : P i x) : ∀ j, P j (Function.update f i x j) := by
  intro j
  by_cases hj : j = i
  · subst hj
    rw [update_self]
    exact hx
  · rw [update_of_ne hj]
    exact h j hj

/-! ## The steps -/

omit [DecidableEq ι] in
theorem Bounded.mono {increments increments' : ι → Nat} {g : GCounter}
    (h : Bounded idOf increments g) (hle : ∀ j, increments j ≤ increments' j) :
    Bounded idOf increments' g := ⟨h.1, fun j => (h.2 j).trans (hle j)⟩

variable {n : CrdtNode}

omit [DecidableEq ι] in
theorem Sound.mono {increments increments' : ι → Nat} (h : Sound idOf increments i n)
    (hle : ∀ j, increments j ≤ increments' j) (hi : increments' i = increments i) : Sound idOf increments' i n :=
  ⟨h.nodeID, h.bounded.mono hle, h.own.trans hi.symm, h.seqno.trans hi.symm, h.context⟩

variable {increments : ι → Nat}

omit [DecidableEq ι] in
theorem Bounded.merge {g other : GCounter} (h : Bounded idOf increments g)
    (h' : Bounded idOf increments other) : Bounded idOf increments (g.merge other) := by
  refine ⟨keysIn_raiseAll h.1 h'.1, ?_⟩
  intro j
  rw [nodeValue_merge]
  exact max_le (h.2 j) (h'.2 j)

omit [DecidableEq ι] in
theorem Bounded.generateDelta {d : DeltaGCounter} (h : Bounded idOf increments d.state)
    (peerContext : CausalContext) :
    Bounded idOf increments (d.generateDelta peerContext) := by
  refine ⟨fun p hp => h.1 p (List.mem_filter.1 hp).1, ?_⟩
  intro j
  rw [nodeValue_generateDelta]
  split
  · exact h.2 j
  · exact Nat.zero_le _

theorem covered_update {w : World ι} {node : CrdtNode} (h : Consistent idOf w)
    (hgrow : ∀ k, (w.state i).nodeValue k ≤ node.counter.state.nodeValue k)
    (hpeer : node.peerContexts = (w.node i).peerContexts) : (∀ j k, (w.state j).nodeValue k ≤
      (Function.update w.node i node j).counter.state.nodeValue k) ∧
    ∀ j' j k, ((Function.update w.node i node j').peerContext (idOf j)).seenFrom k ≤
      (Function.update w.node i node j).counter.state.nodeValue k := by
  have hle : ∀ j k, (w.state j).nodeValue k ≤
      (update w.node i node j).counter.state.nodeValue k := by
    intro j
    by_cases hj : j = i
    · subst hj
      rw [update_self]
      exact hgrow
    · rw [update_of_ne hj]
      exact fun _ => le_refl _
  refine ⟨hle, ?_⟩
  intro j' j k
  refine le_trans ?_ (hle j k)
  by_cases hj' : j' = i
  · subst hj'
    rw [update_self, CrdtNode.peerContext, hpeer]
    exact h.peer j' j k
  · rw [update_of_ne hj']
    exact h.peer j' j k

omit [DecidableEq ι] in
theorem nodeValue_nodeIncrement (h : Sound idOf increments i n) (k : String) : n.increment.1.counter.state.nodeValue k =
      if k = idOf i then increments i + 1 else n.counter.state.nodeValue k := by
  rw [← h.own, ← h.nodeID]
  exact nodeValue_increment _ _ _

theorem Sound.increment (hinj : Function.Injective idOf) (h : Sound idOf increments i n) :
    Sound idOf (Function.update increments i (increments i + 1)) i n.increment.1 := by
  have hvalue := nodeValue_nodeIncrement h
  refine ⟨h.nodeID, ⟨?_, ?_⟩, ?_, ?_, ?_⟩
  · intro p hp
    obtain rfl | hp := SortedList.mem_insertList hp
    · exact ⟨i, h.nodeID.symm⟩
    · exact h.bounded.1 p hp
  · intro j
    rw [hvalue]
    by_cases hj : j = i
    · subst hj
      rw [if_pos rfl, update_self]
    · rw [if_neg fun heq => hj (hinj heq), update_of_ne hj]
      exact h.bounded.2 j
  · rw [hvalue, if_pos rfl, update_self]
  · rw [update_self]
    exact congrArg (· + 1) h.seqno
  · intro k
    rw [hvalue]
    show count (n.counter.context.observe n.counter.nodeID (n.counter.seqno + 1)).clock k ≤ _
    rw [clock_observe, count_raise, h.nodeID, h.seqno]
    split
    · refine max_le ((h.context (idOf i)).trans ?_) (le_refl _)
      rw [h.own]
      exact Nat.le_succ _
    · exact h.context k

variable {w w' : World ι}

theorem consistent_increment (hinj : Function.Injective idOf) (h : Consistent idOf w)
    (hs : step idOf w (.increment i) = some w') : Consistent idOf w' := by
  simp only [step, Option.some.injEq] at hs
  subst hs
  have hmore : ∀ j, w.increments j ≤ update w.increments i (w.increments i + 1) j := by
    intro j
    by_cases hj : j = i
    · subst hj
      rw [update_self]
      exact Nat.le_succ _
    · rw [update_of_ne hj]
  have hself : ∀ k, (w.state i).nodeValue k ≤
      (w.node i).increment.1.counter.state.nodeValue k := by
    intro k
    rw [nodeValue_nodeIncrement (h.sound i)]
    split
    · rename_i hk
      rw [hk, (h.sound i).own]
      exact Nat.le_succ _
    · exact le_refl _
  obtain ⟨hgrow, hpeer⟩ := covered_update h hself rfl
  refine ⟨?_, fun m hm => (h.delta m hm).mono hmore, ?_, hpeer⟩
  · apply forall_update
    · exact fun j hj => (h.sound j).mono hmore (update_of_ne hj _ _)
    · exact (h.sound i).increment hinj
  · exact fun m hm happ k => (h.applied m hm happ k).trans (hgrow m.dst k)

omit [DecidableEq ι] in
theorem Sound.applyDelta (h : Sound idOf increments i n) {delta : GCounter}
    (hdelta : Bounded idOf increments delta) :
    Sound idOf increments i (n.applyDelta delta) := by
  have hvalue : ∀ k, (n.applyDelta delta).counter.state.nodeValue k =
      max (n.counter.state.nodeValue k) (delta.nodeValue k) := nodeValue_merge _ _
  refine ⟨h.nodeID, h.bounded.merge hdelta, ?_, h.seqno, ?_⟩
  · rw [hvalue, h.own]
    exact max_eq_left (hdelta.2 i)
  · intro k
    rw [hvalue]
    show (n.counter.applyDelta delta).context.seenFrom k ≤ _
    rw [seenFrom_applyDelta]
    exact max_le_max (h.context k) (le_refl _)

theorem consistent_deliver {k : Nat} (h : Consistent idOf w) (hs : step idOf w (.deliver k) = some w') :
    Consistent idOf w' := by
  obtain ⟨m, hm, rfl⟩ := Option.map_eq_some_iff.1 hs
  have hmem : m ∈ w.messages := List.mem_of_getElem? hm
  have hdelta := h.delta m hmem
  have hvalue : ∀ k, ((w.node m.dst).applyDelta m.delta).counter.state.nodeValue k =
      max ((w.state m.dst).nodeValue k) (m.delta.nodeValue k) := nodeValue_merge _ _
  have hself : ∀ k, (w.state m.dst).nodeValue k ≤
      ((w.node m.dst).applyDelta m.delta).counter.state.nodeValue k := by
    intro k
    rw [hvalue]
    exact le_max_left _ _
  obtain ⟨hgrow, hpeer⟩ := covered_update h hself rfl
  -- a message is an old one, up to its mark
  have hold : ∀ m' ∈ w.messages.set k { m with applied := true },
      m' ∈ w.messages ∨ m' = { m with applied := true } :=
    fun m' hm' => List.mem_or_eq_of_mem_set hm'
  refine ⟨?_, ?_, ?_, hpeer⟩
  · apply forall_update
    · exact fun j _ => h.sound j
    · exact (h.sound m.dst).applyDelta hdelta
  · intro m' hm'
    obtain hm' | rfl := hold m' hm'
    · exact h.delta m' hm'
    · exact hdelta
  · intro m' hm' happ k
    obtain hm' | rfl := hold m' hm'
    · exact (h.applied m' hm' happ k).trans (hgrow m'.dst k)
    · show _ ≤ (update w.node m.dst _ m.dst).counter.state.nodeValue k
      rw [update_self, hvalue]
      exact le_max_right _ _

theorem consistent_generate {i j : ι} (h : Consistent idOf w) (hs : step idOf w (.generate i j) = some w') :
    Consistent idOf w' := by
  simp only [step, Option.some.injEq] at hs
  subst hs
  refine ⟨h.sound, ?_, ?_, h.peer⟩
  · intro m hm
    obtain hm | hm := List.mem_append.1 hm
    · exact h.delta m hm
    · rw [List.mem_singleton.1 hm]
      exact (h.sound i).bounded.generateDelta _
  · intro m hm happ
    obtain hm | hm := List.mem_append.1 hm
    · exact h.applied m hm happ
    · rw [List.mem_singleton.1 hm] at happ
      exact absurd happ Bool.false_ne_true

theorem consistent_acknowledge (hinj : Function.Injective idOf) {k : Nat} (h : Consistent idOf w)
    (hs : step idOf w (.acknowledge k) = some w') : Consistent idOf w' := by
  obtain ⟨m, hm, hs⟩ := Option.bind_eq_some_iff.1 hs
  split at hs
  · rename_i happ
    cases hs
    have hmem : m ∈ w.messages := List.mem_of_getElem? hm
    have hcounter : ∀ j, (update w.node m.src
        ((w.node m.src).acknowledgeDelta (idOf m.dst) m.delta) j).counter = (w.node j).counter := by
      refine forall_update (P := fun j (n : CrdtNode) => n.counter = (w.node j).counter) ?_ rfl
      exact fun _ _ => rfl
    refine ⟨?_, h.delta, ?_, ?_⟩
    · apply forall_update
      · exact fun j _ => h.sound j
      · obtain ⟨hid, hbounded, hown, hseqno, hcontext⟩ := h.sound m.src
        exact ⟨hid, hbounded, hown, hseqno, hcontext⟩
    · intro m' hm' happ'
      simp only [World.state, hcounter]
      exact h.applied m' hm' happ'
    · intro j' j k
      simp only [World.state, hcounter]
      by_cases hj' : j' = m.src
      · subst hj'
        rw [update_self, peerContext_acknowledgeDelta]
        split
        · rename_i hj
          rw [← hinj hj]
          exact max_le (h.peer _ j k) (hinj hj ▸ h.applied m hmem happ k)
        · exact h.peer _ j k
      · rw [update_of_ne hj']
        exact h.peer j' j k
  · exact absurd hs (by simp)

theorem consistent_of_reachable (hinj : Function.Injective idOf) {w : World ι}
    (hreach : Reachable (step idOf) (World.start idOf) w) : Consistent idOf w := by
  refine hreach.invariant (I := Consistent idOf) consistent_start ?_
  intro w op w' _ h _ hs
  cases op with
  | increment i => exact consistent_increment hinj h hs
  | generate i j => exact consistent_generate h hs
  | deliver k => exact consistent_deliver h hs
  | acknowledge k => exact consistent_acknowledge hinj h hs

/-! ## Nothing is lost and nothing counted twice -/

/-- There is nothing to send from `i` to `j`. -/
def World.NothingFor (idOf : ι → String) (w : World ι) (i j : ι) : Prop :=
  ((w.node i).generateDeltaFor (idOf j)).counts.entries = []

omit [DecidableEq ι] in
theorem Consistent.state_le {w : World ι} (h : Consistent idOf w) {i j : ι}
    (hempty : w.NothingFor idOf i j) (k : String) : (w.state i).nodeValue k ≤ (w.state j).nodeValue k :=
  (seen_of_generateDelta_empty hempty k).trans (h.peer i j k)

/-- **Delta anti-entropy loses and duplicates nothing**: no entry exceeds the increments of its node, no
context exceeds the state, a peer for which there is nothing has everything, and when there is nothing
for any peer every node reports the number of all increments. -/
theorem antiEntropy [Fintype ι] (hinj : Function.Injective idOf) {w : World ι}
    (hreach : Reachable (step idOf) (World.start idOf) w) :
    (∀ i j, (w.state i).nodeValue (idOf j) ≤ w.increments j) ∧
    (∀ i k, (w.node i).counter.context.seenFrom k ≤ (w.state i).nodeValue k) ∧
    (∀ i j, w.NothingFor idOf i j → ∀ k, (w.state i).nodeValue k ≤ (w.state j).nodeValue k) ∧
    ((∀ i j, i ≠ j → w.NothingFor idOf i j) →
      ∀ i, (w.node i).value = ∑ j, w.increments j) := by
  have h := consistent_of_reachable hinj hreach
  refine ⟨fun i j => (h.sound i).bounded.2 j, fun i => (h.sound i).context, fun i j hempty => h.state_le hempty, ?_⟩
  intro hall i
  show total (w.state i).counts = _
  rw [total_eq_sum hinj (h.sound i).bounded.1]
  apply Finset.sum_congr rfl
  intro j _
  apply le_antisymm ((h.sound i).bounded.2 j)
  rw [← (h.sound j).own]
  by_cases hji : j = i
  · rw [hji]
  · exact h.state_le (hall j i hji) (idOf j)

/-- Both nodes increment; the deltas are delivered, one of them twice, and acknowledged. -/
def exchangeRun : List (Op Bool) :=
  [.increment true, .increment false, .increment true, .generate true false, .deliver 0, .deliver 0,
    .acknowledge 0, .generate false true, .deliver 1, .acknowledge 1, .generate true false, .deliver 2,
    .acknowledge 2]

theorem antiEntropy_exchange : ∃ w : World Bool,
    exec (step fun i => if i then "a" else "b") (World.start fun i => if i then "a" else "b")
      exchangeRun = some w ∧ ∀ i, (w.node i).value = ∑ j, w.increments j := by
  have hrun : (exec (step fun i => if i then "a" else "b")
      (World.start fun i => if i then "a" else "b") exchangeRun).map (fun w => decide (∀ i j, i ≠ j →
        ((w.node i).generateDeltaFor (if j then "a" else "b")).counts.entries = [])) =
      some true := by
    rfl
  obtain ⟨w, hw, hempty⟩ := Option.map_eq_some_iff.1 hrun
  have hinj : ∀ i j : Bool, (if i then "a" else "b") = (if j then "a" else "b") → i = j := by decide
  have hall := of_decide_eq_true hempty
  exact ⟨w, hw, (antiEntropy (fun i j h => hinj i j h) (reachable_of_exec hw)).2.2.2 hall⟩

end AntiEntropy

end SystemDesignLabs.Crdt
