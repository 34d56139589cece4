import SystemDesignLabs.Core.CountMap
import SystemDesignLabs.MessageQueue.Effects

/-!
# The FIFO queue

`FIFOQueue` of `labs/message-queue/pkg/queue/fifo.go`: message groups and deduplication over an embedded
queue without a dead-letter queue. `fifoMessages` gets an entry for every message that is sent and loses
none, so it is the order in which the messages were sent.
-/

namespace SystemDesignLabs.MessageQueue

open Core

structure DedupEntry where
  messageID : String
  expiresAt : Int
  deriving DecidableEq

structure FIFOMessage where
  message : Message
  groupID : String
  dedupID : String
  deriving DecidableEq

structure FIFOQueue where
  queue : Queue
  dedupMap : SortedMap String DedupEntry
  groupInflight : CountMap String
  fifoMessages : List FIFOMessage
  deriving DecidableEq

namespace FIFOQueue

/-- `dedupWindow`, five minutes in nanoseconds. -/
def dedupWindow : Int := 5 * 60 * 1000000000

/-- `NewFIFOQueue`. -/
def new : FIFOQueue := ⟨.new, .empty, SortedMap.empty, []⟩

def pruneDedup (fq : FIFOQueue) (now : Int) : FIFOQueue :=
  { fq with dedupMap := fq.dedupMap.filter fun e => !decide (now > e.2.expiresAt) }

/-- The part of `SendFIFOMessage` after the deduplication: the message is appended to both lists. -/
def append (fq : FIFOQueue) (id : String) (body : List UInt8) (groupID dedupID : String) (now : Int) :
    FIFOQueue :=
  let msg := Queue.newMessage id body now
  { fq with
    queue := fq.queue.enqueue [msg]
    fifoMessages := fq.fifoMessages ++ [⟨msg, groupID, dedupID⟩]
    dedupMap := if dedupID ≠ "" then fq.dedupMap.insert dedupID ⟨id, now + dedupWindow⟩ else fq.dedupMap }

/-- `SendFIFOMessage`: the queue, the number of identifiers drawn, and the returned id. -/
def sendFIFOMessage (newUUID : Nat → String) (fq : FIFOQueue) (drawn : Nat) (body : List UInt8)
    (groupID dedupID : String) (now : Int) : FIFOQueue × Nat × String :=
  if dedupID ≠ "" then
    let fq := fq.pruneDedup now
    match fq.dedupMap.get dedupID with
    | some entry => (fq, drawn, entry.messageID)
    | none => (fq.append (newUUID drawn) body groupID dedupID now, drawn + 1, newUUID drawn)
  else (fq.append (newUUID drawn) body groupID dedupID now, drawn + 1, newUUID drawn)

/-- The entry of `fifoMessages` at the index that `findFIFOIdx` returns. -/
def findFIFO (fifoMessages : List FIFOMessage) (id : String) : Option FIFOMessage :=
  fifoMessages.find? fun fm => decide (fm.message.id = id)

/-- What the loop of `ReceiveFIFOMessage` carries along. -/
structure Receiving where
  inflight : Inflight
  groupInflight : CountMap String
  drawn : Nat
  result : List FIFOMessage

/-- One round of the loop of `ReceiveFIFOMessage`. -/
def receiveOne (newUUID : Nat → String) (fifoMessages : List FIFOMessage) (now visibilityTimeout : Int)
    (s : Receiving) (msg : Message) : Message × Receiving :=
  if msg.visibleAt > now then (msg, s)
  else if isInFlight s.inflight msg.id now then (msg, s)
  else
    match findFIFO fifoMessages msg.id with
    | none => (msg, s)
    | some fifoMsg =>
      if s.groupInflight.count fifoMsg.groupID > 0 then (msg, s)
      else
        let rh := newUUID s.drawn
        let msg := { msg with receiveCount := msg.receiveCount + 1, receiptHandle := rh }
        (msg,
          { inflight := s.inflight.insert rh ⟨msg, now + visibilityTimeout⟩
            groupInflight := SortedMap.insert s.groupInflight fifoMsg.groupID
              (s.groupInflight.count fifoMsg.groupID + 1)
            drawn := s.drawn + 1
            result := s.result ++ [⟨msg, fifoMsg.groupID, fifoMsg.dedupID⟩] })

/-- `ReceiveFIFOMessage`: the queue, the number of identifiers drawn, and the messages. -/
def receiveFIFOMessage (newUUID : Nat → String) (fq : FIFOQueue) (drawn : Nat)
    (now maxMessages visibilityTimeout : Int) : FIFOQueue × Nat × List FIFOMessage :=
  if maxMessages ≤ 0 then (fq, drawn, [])
  else
    let visited := visit (fun s : Receiving => decide ((s.result.length : Int) < maxMessages))
      (receiveOne newUUID fq.fifoMessages now visibilityTimeout) fq.queue.live
      ⟨fq.queue.inflight, fq.groupInflight, drawn, []⟩
    ({ fq with
        queue := fq.queue.withLive visited.1 visited.2.inflight
        groupInflight := visited.2.groupInflight },
      visited.2.drawn, visited.2.result)

def deleteFIFOMessage (fq : FIFOQueue) (receiptHandle : String) : FIFOQueue × Bool :=
  match fq.queue.inflight.get receiptHandle with
  | none => (fq, false)
  | some entry =>
    let msgID := entry.msg.id
    let groupInflight := match findFIFO fq.fifoMessages msgID with
      | none => fq.groupInflight
      | some fifoMsg =>
        if fq.groupInflight.count fifoMsg.groupID > 0 then
          SortedMap.insert fq.groupInflight fifoMsg.groupID (fq.groupInflight.count fifoMsg.groupID - 1)
        else fq.groupInflight
    ({ fq with
        queue := (fq.queue.forget receiptHandle).removeByID msgID
        groupInflight := groupInflight }, true)

/-- `requeueExpired` of the embedded queue. -/
def requeueExpired (fq : FIFOQueue) (now : Int) (order : List String) : FIFOQueue :=
  { fq with queue := (fq.queue.requeueExpired none none now order).1 }

end FIFOQueue

/-! ## Runs -/

/-- The operations of a FIFO queue, and time passing. -/
inductive FIFOOp where
  | sendFIFOMessage (body : List UInt8) (groupID dedupID : String)
  | receiveFIFOMessage (maxMessages visibilityTimeout : Int)
  | deleteFIFOMessage (receiptHandle : String)
  | requeueExpired (now : Int) (order : List String)
  | tick (d : Nat)
  deriving DecidableEq

/-- A FIFO queue, the clock, and the messages that were deleted. -/
structure FIFOWorld where
  fifo : FIFOQueue
  clock : Int
  drawn : Nat
  deleted : List String

namespace FIFOWorld

/-- A new FIFO queue. -/
def start : FIFOWorld := ⟨.new, 0, 0, []⟩

/-- One step. A scan visits every entry once, and has read the clock at some earlier time. -/
def step (newUUID : Nat → String) (w : FIFOWorld) : FIFOOp → Option FIFOWorld
  | .sendFIFOMessage body groupID dedupID =>
    let r := w.fifo.sendFIFOMessage newUUID w.drawn body groupID dedupID w.clock
    some { w with fifo := r.1, drawn := r.2.1 }
  | .receiveFIFOMessage maxMessages visibilityTimeout =>
    let r := w.fifo.receiveFIFOMessage newUUID w.drawn w.clock maxMessages visibilityTimeout
    some { w with fifo := r.1, drawn := r.2.1 }
  | .deleteFIFOMessage rh =>
    some { w with
      fifo := (w.fifo.deleteFIFOMessage rh).1
      deleted := w.deleted ++ found w.fifo.queue.inflight [rh] }
  | .requeueExpired now order =>
    if now ≤ w.clock ∧ order.Perm (w.fifo.queue.inflight.entries.map Prod.fst) then
      some { w with fifo := w.fifo.requeueExpired now order }
    else none
  | .tick d => some { w with clock := w.clock + d }

end FIFOWorld

end SystemDesignLabs.MessageQueue
