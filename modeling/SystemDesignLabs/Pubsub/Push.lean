import SystemDesignLabs.Core.TransitionSystem

/-!
# Push subscriptions

A subscription of an asynchronous broker with its buffered channel and the two goroutines that
`SubscribeWithOptions` leaves behind for it: the `deliveryLoop` that `Subscribe` started, and the `pushLoop`. A step
is one use of the channel, one attempt, one update of a counter, or the call or the return of a publish to the
dead-letter topic. The subscription is not removed, so that `stopCh` is never closed.
-/

namespace SystemDesignLabs.Pubsub

open Core

/-! ### Messages and subscriptions -/

structure Message where
  id : String
  topic : String
  body : List UInt8
  attributes : List (String × String)
  publishedAt : Int
  deriving DecidableEq

inductive SubscriptionType where
  | pull
  | push
  deriving DecidableEq

inductive BackpressurePolicy where
  | drop
  | block
  deriving DecidableEq

structure SubscriptionStats where
  delivered : Nat
  dropped : Nat
  retried : Nat
  dlq : Nat
  deriving DecidableEq

/-- The body of a POST. `json.Marshal` does not fail on it. -/
structure PushPayload where
  id : String
  topic : String
  body : List UInt8
  attributes : List (String × String)
  publishedAt : Int
  deriving DecidableEq

def Message.payload (m : Message) : PushPayload :=
  ⟨m.id, m.topic, m.body, m.attributes, m.publishedAt⟩

/-- The goroutines of a subscription. -/
inductive Worker where
  | delivery
  | push
  deriving DecidableEq

/-- Where a loop stands with the message that it has received; a message has the number under which the channel
accepted it. -/
inductive Loop where
  | idle
  /-- The next attempt comes now. -/
  | trying (number : Nat) (m : Message) (attempt : Nat)
  /-- The next attempt comes after a delay. -/
  | waiting (number : Nat) (m : Message) (attempt : Nat)
  /-- An attempt was successful and is counted next. -/
  | succeeded (number : Nat)
  /-- The last attempt has failed, and the message is published to the dead-letter topic next. -/
  | exhausted (number : Nat) (m : Message)
  /-- `Publish` was called. -/
  | publishing (number : Nat)
  deriving DecidableEq

/-- A POST to the webhook, with the number of its message and of the attempt, and whether it was answered 200. -/
structure Post where
  number : Nat
  attempt : Nat
  url : String
  payload : PushPayload
  ok : Bool
  deriving DecidableEq

/-- A call of `Publish` for the dead-letter topic. -/
structure DeadLetter where
  number : Nat
  topic : String
  body : List UInt8
  attributes : List (String × String)
  deriving DecidableEq

/-- How a subscription is created. `callback` is `nil` unless a test sets it. -/
structure Setup where
  topic : String
  filter : Message → Bool
  policy : BackpressurePolicy
  subType : SubscriptionType
  webhookURL : String
  callback : Option (Message → Bool)

/-- A subscription. The last three fields are history: the messages that the channel has accepted, the POSTs, and
what was published to the dead-letter topic. -/
structure Subscription where
  type : SubscriptionType
  webhookURL : String
  backpressure : BackpressurePolicy
  ch : List (Nat × Message)
  stats : SubscriptionStats
  delivery : Loop
  push : Option Loop
  accepted : List Message
  posts : List Post
  deadLetters : List DeadLetter

/-! ### Steps -/

def capacity : Nat := 1000

def maxRetries : Nat := 3

inductive Op where
  /-- The rest of `SubscribeWithOptions`, behind `Subscribe`. -/
  | options
  | publish (m : Message)
  | receive (w : Worker)
  | attempt (w : Worker) (ok : Bool)
  | count (w : Worker)
  | wake (w : Worker)
  | deadLetter (w : Worker)
  | returned (w : Worker)

namespace Subscription

def subscribe : Subscription :=
  { type := .pull, webhookURL := "", backpressure := .drop, ch := [], stats := ⟨0, 0, 0, 0⟩, delivery := .idle
    push := none, accepted := [], posts := [], deadLetters := [] }

/-- What `SubscribeWithOptions` does with the new subscription. -/
def options (c : Setup) (s : Subscription) : Subscription :=
  { s with
    backpressure := c.policy
    type := c.subType
    webhookURL := c.webhookURL
    push := if c.subType = .push then some .idle else s.push }

/-- The channel accepts a message. -/
def accept (s : Subscription) (m : Message) : Subscription :=
  { s with ch := s.ch ++ [(s.accepted.length, m)], accepted := s.accepted ++ [m] }

/-- `deliverAsync`. A publisher that has to wait makes no step. -/
def deliverAsync (s : Subscription) (m : Message) : Option Subscription :=
  match s.backpressure with
  | .drop =>
    if s.ch.length < capacity then some (s.accept m)
    else some { s with stats := { s.stats with dropped := s.stats.dropped + 1 } }
  | .block => if s.ch.length < capacity then some (s.accept m) else none

/-- The part of `PublishOrdered` that concerns the subscription. -/
def publish (c : Setup) (s : Subscription) (m : Message) : Option Subscription :=
  if c.filter m then s.deliverAsync m else some s

def loop (s : Subscription) : Worker → Option Loop
  | .delivery => some s.delivery
  | .push => s.push

def goTo (s : Subscription) (w : Worker) (l : Loop) : Subscription :=
  match w with
  | .delivery => { s with delivery := l }
  | .push => { s with push := some l }

/-- The receive of `deliveryLoop` and `pushLoop`. -/
def receive (s : Subscription) (w : Worker) : Option Subscription :=
  match s.loop w, s.ch with
  | some .idle, (number, m) :: rest => some ({ s with ch := rest }.goTo w (.trying number m 0))
  | _, _ => none

/-- What an attempt of `deliverWithRetry` comes to. -/
def handled (c : Setup) (m : Message) : Bool :=
  match c.callback with
  | none => true
  | some callback => callback m

/-- After an attempt of `deliverWithRetry` or `pushWithRetry`: the next retry is counted, or the dead letter. -/
def attempted (s : Subscription) (w : Worker) (number : Nat) (m : Message) (attempt : Nat) (ok : Bool) :
    Subscription :=
  if ok then s.goTo w (.succeeded number)
  else if attempt < maxRetries then
    { s with stats := { s.stats with retried := s.stats.retried + 1 } }.goTo w (.waiting number m (attempt + 1))
  else { s with stats := { s.stats with dlq := s.stats.dlq + 1 } }.goTo w (.exhausted number m)

/-- An attempt: the callback decides for `deliveryLoop`, and the webhook for `pushLoop`. -/
def attempt (c : Setup) (s : Subscription) (w : Worker) (ok : Bool) : Option Subscription :=
  match w, s.loop w with
  | .delivery, some (.trying number m attempt) =>
    if ok = handled c m then some (s.attempted .delivery number m attempt ok) else none
  | .push, some (.trying number m attempt) =>
    let post : Post := ⟨number, attempt, s.webhookURL, m.payload, ok⟩
    some ({ s with posts := s.posts ++ [post] }.attempted .push number m attempt ok)
  | _, _ => none

/-- A successful attempt is counted. -/
def count (s : Subscription) (w : Worker) : Option Subscription :=
  match s.loop w with
  | some (.succeeded _) => some ({ s with stats := { s.stats with delivered := s.stats.delivered + 1 } }.goTo w .idle)
  | _ => none

/-- A delay is over. -/
def wake (s : Subscription) (w : Worker) : Option Subscription :=
  match s.loop w with
  | some (.waiting number m attempt) => some (s.goTo w (.trying number m attempt))
  | _ => none

/-- `Publish` is called for the dead-letter topic. -/
def deadLetter (c : Setup) (s : Subscription) (w : Worker) : Option Subscription :=
  match s.loop w with
  | some (.exhausted number m) =>
    let deadLetter : DeadLetter := ⟨number, c.topic ++ "-dlq", m.body, m.attributes⟩
    some ({ s with deadLetters := s.deadLetters ++ [deadLetter] }.goTo w (.publishing number))
  | _ => none

def returned (s : Subscription) (w : Worker) : Option Subscription :=
  match s.loop w with
  | some (.publishing _) => some (s.goTo w .idle)
  | _ => none

/-- One step of a subscription. -/
def step (c : Setup) (s : Subscription) : Op → Option Subscription
  | .options => if s.push = none then some (s.options c) else none
  | .publish m => s.publish c m
  | .receive w => s.receive w
  | .attempt w ok => s.attempt c w ok
  | .count w => s.count w
  | .wake w => s.wake w
  | .deadLetter w => s.deadLetter c w
  | .returned w => s.returned w

end Subscription

end SystemDesignLabs.Pubsub
