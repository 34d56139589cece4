import SystemDesignLabs.Gossip.Dissemination

/-!
# The piggybacking node

The `PiggybackNode` of `labs/gossip/pkg/swim/swim.go` (v2) and the network of such nodes. A node runs
several goroutines; what each of them still has to do is part of its state: the message that the receive
loop has merged and not answered, the gossip round, the probe cycle, the waits for forwarded pings, and the
`go pushEvent` calls that have not run. Between two steps of one goroutine any other may run.

An `Ack` channel that was closed is no longer registered, so a wait can end with success when its number is
not in `ackChs`; a timeout is possible at any time. Sequence numbers and incarnations are `uint64`.
-/

namespace SystemDesignLabs.Gossip

open Core

/-- The next `uint64`. -/
def next64 (n : Nat) : Nat := (n + 1) % 2 ^ 64

def maxPiggybackEvents : Nat := 8

def suspectThreshold : Nat := 3

/-- Where a probe cycle is: the target is picked, the ping is out, or the direct wait is over and these
helpers have still to be asked. -/
inductive Stage where
  | picked
  | direct
  | asking (helpers : List String)
  deriving DecidableEq

/-- A probe cycle, with the number of the `Ack` that it waits for. -/
structure Probe where
  target : String
  seq : Nat
  stage : Stage
  deriving DecidableEq

/-- A ping that was forwarded for another node. -/
structure Relay where
  requester : String
  origSeq : Nat
  seq : Nat
  deriving DecidableEq

/-- `PiggybackNode`, with what its goroutines have still to do. -/
structure PiggybackNode where
  addr : String
  members : Members
  seqNo : Nat
  ackChs : List Nat
  eventQueue : List Event
  pushes : List Event
  handling : Option Message
  gossiping : Option (List String)
  probe : Option Probe
  relays : List Relay
  deriving DecidableEq

namespace PiggybackNode

/-- `NewPiggybackNode`. -/
def new (addr : String) (now : Nat) : PiggybackNode :=
  ⟨addr, SortedMap.empty.insert addr (.joined addr now), 0, [], [], [], none, none, none, []⟩

/-! ### The event queue -/

/-- The queue of `pushEvent`: the pending event of the address is overwritten, else the event is added,
and the oldest one makes room. -/
def pushed (queue : List Event) (ev : Event) : List Event :=
  match queue.findIdx? (·.addr = ev.addr) with
  | some i => queue.set i ev
  | none => if maxPiggybackEvents ≤ queue.length then queue.drop 1 ++ [ev] else queue ++ [ev]

def pushEvent (n : PiggybackNode) (ev : Event) : PiggybackNode :=
  { n with eventQueue := pushed n.eventQueue ev }

def maxTransmit (n : PiggybackNode) : Nat := max 2 (Nat.log2 (n.members.entries.length + 1) + 2)

/-- The queue after `pickEvents`; the picked events are the queue before. -/
def remaining (n : PiggybackNode) : List Event :=
  (n.eventQueue.map fun e => { e with transmitCount := e.transmitCount + 1 }).filter
    (·.transmitCount < n.maxTransmit)

/-- Pick the events and send them in the message. -/
def sendEvents (n : PiggybackNode) (dests : List String) (msg : Message) :
    PiggybackNode × List Packet :=
  ({ n with eventQueue := n.remaining },
    dests.map fun dest => ⟨dest, { msg with events := n.eventQueue }⟩)

/-! ### Merging -/

/-- One event of `mergeEvents`. -/
def mergeEvent (now : Nat) (n : PiggybackNode) (ev : Event) : PiggybackNode :=
  match n.members.get ev.addr with
  | none =>
    { n with
      members := n.members.insert ev.addr ⟨ev.addr, ev.status, ev.incarnation, now, 0⟩
      pushes := n.pushes ++ [⟨ev.addr, ev.status, ev.incarnation, 0⟩] }
  | some loc =>
    if loc.incarnation < ev.incarnation ∨
        ev.incarnation = loc.incarnation ∧ loc.status < ev.status then
      -- Self-refutation.
      if ev.addr = n.addr ∧ ev.status = .suspect then
        { n with
          members := n.members.insert ev.addr
            { loc with incarnation := next64 loc.incarnation, status := .alive }
          pushes := n.pushes ++ [⟨n.addr, .alive, next64 loc.incarnation, 0⟩] }
      else
        { n with
          members := n.members.insert ev.addr
            { loc with status := ev.status, incarnation := ev.incarnation, lastSeen := now }
          pushes := n.pushes ++ [⟨ev.addr, ev.status, ev.incarnation, 0⟩] }
    else n

def mergeEvents (n : PiggybackNode) (now : Nat) (events : List Event) : PiggybackNode :=
  events.foldl (mergeEvent now) n

/-- The merges of `handleV2Message`; the message is answered later. -/
def receive (n : PiggybackNode) (msg : Message) (now : Nat) : PiggybackNode :=
  let merged := n.mergeEvents now msg.events
  match msg.members with
  | none => { merged with handling := some msg }
  | some members =>
    { merged with
      members := merged.members.mergeMembers members
      handling := some msg }

/-! ### Probing -/

/-- `pickProbeTarget` may return the address. -/
def CanProbe (n : PiggybackNode) (target : String) : Prop :=
  target ≠ n.addr ∧ ∃ m ∈ n.members.get target, m.status ≠ .dead

instance (n : PiggybackNode) (target : String) : Decidable (n.CanProbe target) :=
  inferInstanceAs (Decidable (_ ∧ _))

def markAlive (n : PiggybackNode) (addr : String) (now : Nat) : PiggybackNode :=
  { n with members := n.members.adjust addr fun m =>
      { m with status := .alive, failedProbes := 0, lastSeen := now } }

/-- The verdict of `doProbeCycleV2`. -/
def verdict (n : PiggybackNode) (target : String) : PiggybackNode :=
  match n.members.get target with
  | none => n
  | some m =>
    let failed := m.failedProbes + 1
    if suspectThreshold ≤ failed then
      if m.status ≠ .dead then
        { n with
          members := n.members.insert target { m with status := .dead, failedProbes := failed }
          pushes := n.pushes ++ [⟨target, .dead, m.incarnation, 0⟩] }
      else { n with members := n.members.insert target { m with failedProbes := failed } }
    else if m.status = .alive then
      { n with
        members := n.members.insert target { m with status := .suspect, failedProbes := failed }
        pushes := n.pushes ++ [⟨target, .suspect, m.incarnation, 0⟩] }
    else { n with members := n.members.insert target { m with failedProbes := failed } }

/-! ### The steps of the goroutines -/

/-- What a node can do next by itself. -/
inductive Act where
  | join (peerAddr : String) (now : Nat)
  | pickPeers (peers : List String)
  | gossip
  | pickTarget (target : String)
  | ping
  | timeout (helpers : List String)
  | askHelper
  | acked (now : Nat)
  | verdict
  | push (k : Nat)
  | answer
  | relayAcked (k : Nat)
  | relayTimeout (k : Nat)
  deriving DecidableEq

/-- The answer of `handleV2Message` to a merged message. -/
def answer (n : PiggybackNode) (msg : Message) : PiggybackNode × List Packet :=
  match msg.type with
  | .ping => n.sendEvents [msg.sender] ⟨.ack, n.addr, none, "", [], msg.seqNo⟩
  | .pingreq =>
    let seq := next64 n.seqNo
    let forwarding : PiggybackNode := { n with
      seqNo := seq
      ackChs := n.ackChs ++ [seq]
      relays := n.relays ++ [⟨msg.sender, msg.seqNo, seq⟩] }
    forwarding.sendEvents [msg.target] ⟨.ping, n.addr, none, "", [], seq⟩
  | .ack => ({ n with ackChs := n.ackChs.erase msg.seqNo }, [])
  | .gossip => (n, [])

/-- One step of a goroutine: the node afterwards, and what it sends. -/
def act (n : PiggybackNode) : Act → Option (PiggybackNode × List Packet)
  | .join peerAddr now => some ({ n with members := n.members.join peerAddr now }, [])
  | .pickPeers peers =>
    if n.gossiping = none ∧ n.members.PickRandomPeers n.addr gossipFanout peers then
      some ({ n with gossiping := some peers }, [])
    else none
  | .gossip =>
    match n.gossiping with
    | none => none
    | some peers =>
      some ({ n with gossiping := none }.sendEvents peers ⟨.gossip, n.addr, none, "", [], 0⟩)
  | .pickTarget target =>
    if n.probe = none ∧ n.CanProbe target then
      some ({ n with
        seqNo := next64 n.seqNo
        probe := some ⟨target, next64 n.seqNo, .picked⟩ }, [])
    else none
  | .ping =>
    match n.probe with
    | some ⟨target, seq, .picked⟩ =>
      some ({ n with
        ackChs := n.ackChs ++ [seq]
        probe := some ⟨target, seq, .direct⟩ }.sendEvents [target]
        ⟨.ping, n.addr, none, "", [], seq⟩)
    | _ => none
  | .timeout helpers =>
    match n.probe with
    | some ⟨target, seq, .direct⟩ =>
      if n.members.PickRandomPeers n.addr 2 helpers then
        some ({ n with
          seqNo := next64 n.seqNo
          ackChs := n.ackChs.erase seq ++ [next64 n.seqNo]
          probe := some ⟨target, next64 n.seqNo, .asking helpers⟩ }, [])
      else none
    | _ => none
  | .askHelper =>
    match n.probe with
    | some ⟨target, seq, .asking (helper :: helpers)⟩ =>
      some ({ n with probe := some ⟨target, seq, .asking helpers⟩ }.sendEvents [helper]
        ⟨.pingreq, n.addr, none, target, [], seq⟩)
    | _ => none
  | .acked now =>
    match n.probe with
    | some ⟨target, seq, .direct⟩ =>
      if seq ∈ n.ackChs then none else some ({ n with probe := none }.markAlive target now, [])
    | some ⟨target, seq, .asking []⟩ =>
      if seq ∈ n.ackChs then none else some ({ n with probe := none }.markAlive target now, [])
    | _ => none
  | .verdict =>
    match n.probe with
    | some ⟨target, seq, .asking []⟩ =>
      some ({ n with
        ackChs := n.ackChs.erase seq
        probe := none }.verdict target, [])
    | _ => none
  | .push k =>
    match n.pushes[k]? with
    | none => none
    | some ev => some ({ n with pushes := n.pushes.eraseIdx k }.pushEvent ev, [])
  | .answer =>
    match n.handling with
    | none => none
    | some msg => some ({ n with handling := none }.answer msg)
  | .relayAcked k =>
    match n.relays[k]? with
    | none => none
    | some relay =>
      if relay.seq ∈ n.ackChs then none
      else some ({ n with relays := n.relays.eraseIdx k }.sendEvents [relay.requester]
        ⟨.ack, n.addr, none, "", [], relay.origSeq⟩)
  | .relayTimeout k =>
    match n.relays[k]? with
    | none => none
    | some relay =>
      some ({ n with
        ackChs := n.ackChs.erase relay.seq
        relays := n.relays.eraseIdx k }, [])

end PiggybackNode

/-! ## The network -/

/-- The nodes, and everything that was sent. -/
structure PiggybackNetwork (ι : Type) where
  nodes : ι → PiggybackNode
  sent : List Packet

namespace PiggybackNetwork

variable {ι : Type}

/-- All nodes are new, and nothing was sent. -/
def start (addrOf : ι → String) : PiggybackNetwork ι := ⟨fun i => .new (addrOf i) 0, []⟩

/-- A step of a goroutine at a node, and the arrival of the `k`-th message. -/
inductive Op (ι : Type) where
  | act (i : ι) (a : PiggybackNode.Act)
  | deliver (i : ι) (k : Nat) (now : Nat)
  deriving DecidableEq

variable [DecidableEq ι]

/-- One atomic step. The receive loop takes a message when it has answered the one before. -/
def step (net : PiggybackNetwork ι) : Op ι → Option (PiggybackNetwork ι)
  | .act i a =>
    ((net.nodes i).act a).map fun out =>
      ⟨Function.update net.nodes i out.1, net.sent ++ out.2⟩
  | .deliver i k now =>
    match net.sent[k]? with
    | none => none
    | some packet =>
      if packet.dest = (net.nodes i).addr ∧ (net.nodes i).handling = none then
        some { net with
          nodes := Function.update net.nodes i ((net.nodes i).receive packet.msg now) }
      else none

end PiggybackNetwork

end SystemDesignLabs.Gossip
