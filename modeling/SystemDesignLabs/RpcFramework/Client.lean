import SystemDesignLabs.Core.TransitionSystem

/-!
# The client of the RPC framework

`client.go` as a transition system: a step is one section under the client's mutex, one operation on a
channel, or one step between these. The `k`-th call of a connection has request id `callId k`, and its
`pending` is its channel of capacity one. What was ever sent on a channel is kept (`Call.sent`), so that the
frames in its buffer are those that were not taken yet.
-/

namespace SystemDesignLabs.RpcFramework

def flagIsError : Nat := 1 <<< 2

/-- A frame. Its length is that of the payload. -/
structure Frame where
  flags : Nat
  requestID : Nat
  payload : String
  deriving DecidableEq, Repr

def newErrorFrame (requestID : Nat) (errMsg : String) : Frame :=
  ⟨flagIsError, requestID, errMsg⟩

def Frame.isError (f : Frame) : Bool :=
  f.flags &&& flagIsError != 0

/-- What `Call` returns. The frame of a response is decoded for the caller. -/
inductive Outcome where
  | marshalError
  | sendError
  | cancelled
  | connectionClosed
  | remoteError (f : Frame)
  | response (f : Frame)
  deriving DecidableEq, Repr

/-- Where a `Call` stands. -/
inductive Phase where
  | marshalling
  | registering
  | sending
  | sendFailed
  | waiting
  | cancelling
  | returned (outcome : Outcome)
  deriving DecidableEq, Repr

/-- A call with its channel: all frames that were sent on it, and how many of them were taken. -/
structure Call where
  phase : Phase
  sent : List Frame
  taken : Nat
  deriving DecidableEq, Repr

/-- The frames in the channel. -/
def Call.buffer (c : Call) : List Frame :=
  c.sent.drop c.taken

/-- A send does not block. -/
def Call.hasRoom (c : Call) : Bool :=
  c.buffer.length < 1

/-- An entry of the pending map: a request id and the call whose channel it has. -/
structure Pending where
  id : Nat
  call : Nat
  deriving DecidableEq, Repr

/-- Where `readLoop` stands. While it sweeps, it holds the mutex. -/
inductive Reader where
  | reading
  | received (f : Frame)
  | routing (call : Nat) (f : Frame)
  | failed (err : String)
  | sweeping (err : String) (remaining : List Pending)
  | stopped
  deriving DecidableEq, Repr

/-- Where the body of `closeOnce` stands. While it sweeps, it holds the mutex. -/
inductive Closer where
  | untouched
  | closing
  | sweeping (remaining : List Pending)
  | finished
  deriving DecidableEq, Repr

/-- A client. `notified` keeps the calls to which the sweep of `Close` has sent. -/
structure Client where
  calls : List Call
  pendings : List Pending
  reader : Reader
  closer : Closer
  notified : List Nat
  deriving DecidableEq, Repr

def Client.dial : Client :=
  ⟨[], [], .reading, .untouched, []⟩

/-- The request id of a call: `nextID.Add(1)` on 32 bits. -/
def callId (k : Nat) : Nat :=
  (k + 1) % 2 ^ 32

namespace Client

/-- Nobody holds the mutex. -/
def muFree (s : Client) : Bool :=
  match s.reader, s.closer with
  | .sweeping _ _, _ => false
  | _, .sweeping _ => false
  | _, _ => true

/-- `c.closed` is closed. -/
def isClosed (s : Client) : Bool :=
  s.closer != .untouched

def setPhase (k : Nat) (phase : Phase) (s : Client) : Client :=
  { s with calls := s.calls.modify k fun c => { c with phase } }

/-- A frame is put into the channel of a call. -/
def deliver (k : Nat) (f : Frame) (s : Client) : Client :=
  { s with calls := s.calls.modify k fun c => { c with sent := c.sent ++ [f] } }

/-- `delete(c.pendings, id)`. -/
def remove (id : Nat) (s : Client) : Client :=
  { s with pendings := s.pendings.filter (·.id ≠ id) }

/-- `c.pendings[id] = p`. -/
def register (k : Nat) (s : Client) : Client :=
  { s with pendings := ⟨callId k, k⟩ :: s.pendings.filter (·.id ≠ callId k) }

/-- The channel of a call has room. -/
def hasRoom (s : Client) (k : Nat) : Bool :=
  match s.calls[k]? with
  | some c => c.hasRoom
  | none => false

def phaseOf (s : Client) (k : Nat) : Option Phase :=
  (s.calls[k]?).map (·.phase)

end Client

/-- The steps of a client. -/
inductive Act where
  | call
  | marshal (k : Nat) (ok : Bool)
  | register (k : Nat)
  | send (k : Nat) (ok : Bool)
  | removeUnsent (k : Nat)
  | cancel (k : Nat)
  | removeCancelled (k : Nat)
  | receive (k : Nat)
  | seeClosed (k : Nat)
  | close
  | lockClose
  | notify (p : Pending)
  | unlockClose
  | readFrame (f : Frame)
  | lookup
  | route
  | readError (err : String)
  | lockSweep
  | sweepSend (p : Pending)
  | unlockSweep
  deriving DecidableEq, Repr

/-- One step of a client. -/
def step (s : Client) : Act → Option Client
  | .call => some { s with calls := s.calls ++ [⟨.marshalling, [], 0⟩] }
  | .marshal k ok =>
    if s.phaseOf k = some .marshalling then
      some (s.setPhase k (if ok then .registering else .returned .marshalError))
    else none
  | .register k =>
    if s.phaseOf k = some .registering ∧ s.muFree then some ((s.register k).setPhase k .sending) else none
  | .send k ok =>
    if s.phaseOf k = some .sending then some (s.setPhase k (if ok then .waiting else .sendFailed)) else none
  | .removeUnsent k =>
    if s.phaseOf k = some .sendFailed ∧ s.muFree then
      some ((s.remove (callId k)).setPhase k (.returned .sendError))
    else none
  | .cancel k =>
    -- the context may be done at any time
    if s.phaseOf k = some .waiting then some (s.setPhase k .cancelling) else none
  | .removeCancelled k =>
    if s.phaseOf k = some .cancelling ∧ s.muFree then
      some ((s.remove (callId k)).setPhase k (.returned .cancelled))
    else none
  | .receive k =>
    match s.calls[k]? with
    | some c =>
      match c.phase, c.buffer with
      | .waiting, f :: _ =>
        let outcome := if f.isError then .remoteError f else .response f
        some { s with calls := s.calls.set k ⟨.returned outcome, c.sent, c.taken + 1⟩ }
      | _, _ => none
    | none => none
  | .seeClosed k =>
    if s.phaseOf k = some .waiting ∧ s.isClosed then some (s.setPhase k (.returned .connectionClosed)) else none
  | .close => if s.closer = .untouched then some { s with closer := .closing } else none
  | .lockClose =>
    if s.closer = .closing ∧ s.muFree then some { s with closer := .sweeping s.pendings } else none
  | .notify p =>
    match s.closer with
    | .sweeping remaining =>
      if p ∈ remaining ∧ s.hasRoom p.call then
        let s := s.deliver p.call (newErrorFrame p.id "rpc: connection closed")
        some { s with closer := .sweeping (remaining.erase p), notified := p.call :: s.notified }
      else none
    | _ => none
  | .unlockClose => if s.closer = .sweeping [] then some { s with closer := .finished } else none
  | .readFrame f => if s.reader = .reading then some { s with reader := .received f } else none
  | .lookup =>
    match s.reader with
    | .received f =>
      if s.muFree then
        match s.pendings.find? (·.id == f.requestID) with
        | some p => some { s.remove f.requestID with reader := .routing p.call f }
        | none => some { s with reader := .reading }
      else none
    | _ => none
  | .route =>
    match s.reader with
    | .routing k f => if s.hasRoom k then some { s.deliver k f with reader := .reading } else none
    | _ => none
  | .readError err => if s.reader = .reading then some { s with reader := .failed err } else none
  | .lockSweep =>
    match s.reader with
    | .failed err => if s.muFree then some { s with reader := .sweeping err s.pendings } else none
    | _ => none
  | .sweepSend p =>
    match s.reader with
    | .sweeping err remaining =>
      if p ∈ remaining ∧ s.hasRoom p.call then
        some { s.deliver p.call (newErrorFrame p.id ("rpc: read error: " ++ err)) with
          reader := .sweeping err (remaining.erase p) }
      else none
    | _ => none
  | .unlockSweep =>
    match s.reader with
    | .sweeping _ [] => some { s with reader := .stopped, pendings := [] }
    | _ => none

end SystemDesignLabs.RpcFramework
