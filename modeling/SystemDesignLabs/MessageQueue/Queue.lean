import SystemDesignLabs.Core.SortedMap
import SystemDesignLabs.Core.Cells
import SystemDesignLabs.Core.TransitionSystem
import SystemDesignLabs.Core.Visit

/-!
# The message queue

`Queue` of `labs/message-queue/pkg/queue/queue.go` with the batch operations of `dlq.go`, and a source queue
with an optional dead-letter queue, driven by the operations of both queues, by the passing of time and by
the scans for expired entries. The `k`-th identifier that is drawn is `newUUID k`. Durations and times count
nanoseconds. A scan reads the clock before it takes the lock, and visits the in-flight entries in any order.
-/

namespace SystemDesignLabs.MessageQueue

open Core

structure Message where
  id : String
  body : List UInt8
  enqueuedAt : Int
  receiptHandle : String
  receiveCount : Int
  visibleAt : Int
  deriving DecidableEq

structure InflightEntry where
  msg : Message
  visibleAt : Int
  deriving DecidableEq

/-- `DLQConfig`, without the name by which `CreateQueue` finds the queue. -/
structure DLQConfig where
  maxReceiveCount : Int
  deriving DecidableEq

/-- The in-flight map: receipt handle to entry. -/
abbrev Inflight := SortedMap String InflightEntry

/-- `Queue`, without the pointer to the dead-letter queue. -/
structure Queue where
  messages : List Message
  head : Nat
  inflight : Inflight
  head_le : head ≤ messages.length
  deriving DecidableEq

def isInFlight (inflight : Inflight) (msgID : String) (now : Int) : Bool :=
  inflight.entries.any fun e => decide (e.2.msg.id = msgID) && decide (e.2.visibleAt > now)

namespace Queue

/-- `NewQueue`. -/
def new : Queue := ⟨[], 0, .empty, Nat.le_refl _⟩

/-- The live part of the backing slice. -/
def live (q : Queue) : List Message := q.messages.drop q.head

/-! ## Sending -/

/-- A message as it is put into the queue. -/
def newMessage (id : String) (body : List UInt8) (now : Int) : Message where
  id := id
  body := body
  enqueuedAt := now
  receiptHandle := ""
  receiveCount := 0
  visibleAt := now

/-- `q.messages = append(q.messages, msgs...)`. -/
def enqueue (q : Queue) (msgs : List Message) : Queue where
  messages := q.messages ++ msgs
  head := q.head
  inflight := q.inflight
  head_le := by
    have := q.head_le
    rw [List.length_append]
    omega

/-- `SendMessage`, with the identifier that it draws. -/
def sendMessage (q : Queue) (id : String) (body : List UInt8) (now : Int) : Queue :=
  q.enqueue [newMessage id body now]

def maxBatchSize : Nat := 10

/-- `BatchSendMessage`: `none` where it returns an error. -/
def batchSendMessage (newUUID : Nat → String) (q : Queue) (drawn : Nat) (bodies : List (List UInt8))
    (now : Int) : Option (Queue × List String) :=
  if bodies.length = 0 then none
  else if bodies.length > maxBatchSize then none
  else
    let msgs := bodies.mapIdx fun i body => newMessage (newUUID (drawn + i)) body now
    some (q.enqueue msgs, msgs.map Message.id)

/-! ## Receiving -/

/-- What the loop of `ReceiveMessage` carries along. -/
structure Receiving where
  inflight : Inflight
  drawn : Nat
  result : List Message

/-- One round of the loop of `ReceiveMessage`. -/
def receiveOne (newUUID : Nat → String) (now visibilityTimeout : Int) (s : Receiving) (msg : Message) :
    Message × Receiving :=
  if msg.visibleAt > now then (msg, s)
  else if isInFlight s.inflight msg.id now then (msg, s)
  else
    let rh := newUUID s.drawn
    let msg := { msg with receiveCount := msg.receiveCount + 1, receiptHandle := rh }
    (msg,
      { inflight := s.inflight.insert rh ⟨msg, now + visibilityTimeout⟩
        drawn := s.drawn + 1
        result := s.result ++ [msg] })

/-- The consumed entries before the head are dropped from time to time. -/
def compact (q : Queue) : Queue :=
  if q.head > q.messages.length / 2 ∧ q.head > 64 then ⟨q.messages.drop q.head, 0, q.inflight, Nat.zero_le _⟩
  else q

/-- The queue after the live messages were changed in place and entries were added. -/
def withLive (q : Queue) (live : List Message) (inflight : Inflight) : Queue where
  messages := q.messages.take q.head ++ live
  head := q.head
  inflight := inflight
  head_le := by
    have := q.head_le
    rw [List.length_append, List.length_take]
    omega

/-- `ReceiveMessage`: the queue, the number of identifiers drawn, and the messages. -/
def receiveMessage (newUUID : Nat → String) (q : Queue) (drawn : Nat) (now maxMessages visibilityTimeout : Int) :
    Queue × Nat × List Message :=
  if maxMessages ≤ 0 then (q, drawn, [])
  else
    let q := q.compact
    let visited := visit (fun s : Receiving => decide ((s.result.length : Int) < maxMessages))
      (receiveOne newUUID now visibilityTimeout) q.live ⟨q.inflight, drawn, []⟩
    (q.withLive visited.1 visited.2.inflight, visited.2.drawn, visited.2.result)

/-! ## Deleting -/

/-- `removeByID`: the first live message with this id is overwritten by the head. -/
def removeByID (q : Queue) (id : String) : Queue :=
  match q.live.findIdx? fun m => decide (m.id = id) with
  | none => q
  | some i =>
    if h : q.head < q.messages.length then
      { messages := q.messages.set (q.head + i) q.messages[q.head]
        head := q.head + 1
        inflight := q.inflight
        head_le := by
          rw [List.length_set]
          exact h }
    else q

/-- `delete(q.inflight, rh)`. -/
def forget (q : Queue) (rh : String) : Queue := { q with inflight := q.inflight.erase rh }

/-- `DeleteMessage`; its own loop over the slice is that of `removeByID`. -/
def deleteMessage (q : Queue) (receiptHandle : String) : Queue × Bool :=
  match q.inflight.get receiptHandle with
  | none => (q, false)
  | some entry => ((q.forget receiptHandle).removeByID entry.msg.id, true)

/-- The loop of `BatchDeleteMessage`, with the handles that were not found. -/
def batchDeleteLoop (q : Queue) : List String → Queue × List String
  | [] => (q, [])
  | rh :: rhs =>
    match q.inflight.get rh with
    | none =>
      let rest := q.batchDeleteLoop rhs
      (rest.1, rh :: rest.2)
    | some entry => ((q.forget rh).removeByID entry.msg.id).batchDeleteLoop rhs

/-- `BatchDeleteMessage`: `none` where it returns an error. -/
def batchDeleteMessage (q : Queue) (receiptHandles : List String) : Option (Queue × List String) :=
  if receiptHandles.length = 0 then none
  else if receiptHandles.length > maxBatchSize then none
  else some (q.batchDeleteLoop receiptHandles)

/-! ## Visibility -/

def changeMessageVisibility (q : Queue) (receiptHandle : String) (now newTimeout : Int) : Queue × Bool :=
  match q.inflight.get receiptHandle with
  | none => (q, false)
  | some entry =>
    ({ q with inflight := q.inflight.insert receiptHandle { entry with visibleAt := now + newTimeout } }, true)

/-! ## Scanning -/

/-- The message of an expired entry becomes receivable again, with the receive count of the entry. -/
def release (q : Queue) (entry : InflightEntry) : Queue :=
  match q.live.findIdx? fun m => decide (m.id = entry.msg.id) with
  | none => q
  | some i =>
    { messages := q.messages.modify (q.head + i) fun m =>
        { m with receiptHandle := "", receiveCount := entry.msg.receiveCount }
      head := q.head
      inflight := q.inflight
      head_le := by
        rw [List.length_modify]
        exact q.head_le }

/-- The message of an entry as it is put into the dead-letter queue. -/
def deadLetter (entry : InflightEntry) (now : Int) : Message :=
  { entry.msg with receiptHandle := "", visibleAt := now }

/-- One round of `requeueExpired`, on a queue and its dead-letter queue. -/
def requeueOne (dlqConfig : Option DLQConfig) (now : Int) (s : Queue × Option Queue) (rh : String) :
    Queue × Option Queue :=
  match s.1.inflight.get rh with
  | none => s
  | some entry =>
    if entry.visibleAt > now then s
    else
      match dlqConfig, s.2 with
      | some config, some dlq =>
        if entry.msg.receiveCount ≥ config.maxReceiveCount then
          ((s.1.forget rh).removeByID entry.msg.id, some (dlq.enqueue [deadLetter entry now]))
        else ((s.1.forget rh).release entry, some dlq)
      | _, dlq => ((s.1.forget rh).release entry, dlq)

/-- `requeueExpired`, visiting the entries in the given order. -/
def requeueExpired (dlqConfig : Option DLQConfig) (q : Queue) (dlq : Option Queue) (now : Int)
    (order : List String) : Queue × Option Queue :=
  order.foldl (requeueOne dlqConfig now) (q, dlq)

end Queue

/-! ## Runs -/

/-- What happened to messages. -/
inductive Event where
  | sent (id : String)
  | delivered (id : String)
  | deleted (id : String)
  | deadLettered (id : String)
  deriving DecidableEq

/-- The queue of `NewQueue` or `CreateQueue`, its dead-letter queue, and what happened so far. -/
structure World where
  source : Queue
  dlqConfig : Option DLQConfig
  dlq : Option Queue
  clock : Int
  drawn : Nat
  history : List Event

/-- The operations of a queue. -/
inductive QueueOp where
  | sendMessage (body : List UInt8)
  | batchSendMessage (bodies : List (List UInt8))
  | receiveMessage (maxMessages visibilityTimeout : Int)
  | deleteMessage (receiptHandle : String)
  | batchDeleteMessage (receiptHandles : List String)
  | changeMessageVisibility (receiptHandle : String) (newTimeout : Int)
  | requeueExpired (now : Int) (order : List String)
  deriving DecidableEq

/-- An operation on one of the two queues, or time passing. -/
inductive Op where
  | source (op : QueueOp)
  | dlq (op : QueueOp)
  | tick (d : Nat)
  deriving DecidableEq

/-- The messages whose entries a deletion by these handles finds, in order. -/
def found (inflight : Inflight) : List String → List String
  | [] => []
  | rh :: rhs =>
    match inflight.get rh with
    | none => found inflight rhs
    | some entry => entry.msg.id :: found (inflight.erase rh) rhs

/-- The messages that a dead-letter queue has got since. -/
def arrived (before after : Option Queue) : List String :=
  match before, after with
  | some b, some a => (a.messages.drop b.messages.length).map Message.id
  | _, _ => []

/-- What an operation does: the queue and the dead-letter queue afterwards, the identifiers drawn, and the
messages to which something happened. -/
structure Outcome where
  queue : Queue
  dlq : Option Queue
  drawn : Nat
  sent : List String := []
  delivered : List String := []
  deadLettered : List String := []
  deleted : List String := []

/-- The events of an operation. -/
def Outcome.events (o : Outcome) : List Event :=
  o.sent.map .sent ++ o.delivered.map .delivered ++ o.deadLettered.map .deadLettered ++ o.deleted.map .deleted

/-- One operation on a queue with this dead-letter queue. A scan visits every entry once, and has read the
clock at some earlier time. -/
def Queue.apply (newUUID : Nat → String) (clock : Int) (drawn : Nat) (dlqConfig : Option DLQConfig)
    (q : Queue) (dlq : Option Queue) : QueueOp → Option Outcome
  | .sendMessage body =>
    let id := newUUID drawn
    some { queue := q.sendMessage id body clock, dlq := dlq, drawn := drawn + 1, sent := [id] }
  | .batchSendMessage bodies =>
    match q.batchSendMessage newUUID drawn bodies clock with
    | none => some { queue := q, dlq := dlq, drawn := drawn }
    | some (q', ids) => some { queue := q', dlq := dlq, drawn := drawn + ids.length, sent := ids }
  | .receiveMessage maxMessages visibilityTimeout =>
    let r := q.receiveMessage newUUID drawn clock maxMessages visibilityTimeout
    some { queue := r.1, dlq := dlq, drawn := r.2.1, delivered := r.2.2.map Message.id }
  | .deleteMessage rh =>
    some { queue := (q.deleteMessage rh).1, dlq := dlq, drawn := drawn, deleted := found q.inflight [rh] }
  | .batchDeleteMessage rhs =>
    match q.batchDeleteMessage rhs with
    | none => some { queue := q, dlq := dlq, drawn := drawn }
    | some (q', _) => some { queue := q', dlq := dlq, drawn := drawn, deleted := found q.inflight rhs }
  | .changeMessageVisibility rh newTimeout =>
    some { queue := (q.changeMessageVisibility rh clock newTimeout).1, dlq := dlq, drawn := drawn }
  | .requeueExpired now order =>
    if now ≤ clock ∧ order.Perm (q.inflight.entries.map Prod.fst) then
      let r := q.requeueExpired dlqConfig dlq now order
      some { queue := r.1, dlq := r.2, drawn := drawn, deadLettered := arrived dlq r.2 }
    else none

namespace World

/-- A new queue, with a new dead-letter queue if it has one. -/
def start (dlqConfig : Option DLQConfig) : World where
  source := .new
  dlqConfig := dlqConfig
  dlq := dlqConfig.map fun _ => .new
  clock := 0
  drawn := 0
  history := []

/-- The world after an operation on the source queue. -/
def afterSource (w : World) (o : Outcome) : World :=
  { w with source := o.queue, dlq := o.dlq, drawn := o.drawn, history := w.history ++ o.events }

/-- The world after an operation on the dead-letter queue. -/
def afterDlq (w : World) (o : Outcome) : World :=
  { w with dlq := some o.queue, drawn := o.drawn, history := w.history ++ o.events }

/-- One step. The dead-letter queue has no dead-letter queue of its own. -/
def step (newUUID : Nat → String) (w : World) : Op → Option World
  | .source op => (w.source.apply newUUID w.clock w.drawn w.dlqConfig w.dlq op).map w.afterSource
  | .dlq op => w.dlq.bind fun dlq => (dlq.apply newUUID w.clock w.drawn none none op).map w.afterDlq
  | .tick d => some { w with clock := w.clock + d }

end World

end SystemDesignLabs.MessageQueue
