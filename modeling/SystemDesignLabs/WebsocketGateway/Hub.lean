import SystemDesignLabs.Core.SortedMap
import SystemDesignLabs.Core.Tasks

/-!
# The hub and its rooms

`Register`, `Unregister`, `JoinRoom` and `LeaveRoom` of `hub.go`. Each call is a machine that stops between its
critical sections and between accesses to the field `roomID` of its client. Clients are their ids, rooms are
places in a heap, since the lookup and the change of a room are separate steps. Messages, histories and the
other counters are left out.
-/

namespace SystemDesignLabs.WebsocketGateway

open Core

/-- A room, with the ids of its member map. -/
structure Room where
  name : String
  clients : List String
  deriving DecidableEq

def newRoom (name : String) : Room := ⟨name, []⟩

namespace Room

def addClient (rm : Room) (c : String) : Room :=
  if c ∈ rm.clients then rm else { rm with clients := c :: rm.clients }

/-- Remove a client; is the room empty now? -/
def removeClient (rm : Room) (c : String) : Room × Bool :=
  let clients := rm.clients.filter fun c' => decide (c' ≠ c)
  ({ rm with clients := clients }, clients.isEmpty)

end Room

/-- Where a call is. After the lookup of a room the call has its place in the heap. -/
inductive CallPhase where
  | register
  | joinLookup (room : String)
  | joinAssign (room : String) (rm : Nat)
  | joinAdd (room : String) (rm : Nat)
  | unregisterDelete
  | unregisterCheck
  | leaveStart
  | leaveLookup (room : String)
  | leaveRemove (room : String) (rm : Nat)
  | leaveDelete (room : String) (rm : Nat)
  | leaveReset
  deriving DecidableEq

structure Call where
  client : String
  phase : CallPhase
  deriving DecidableEq

/-- The hub, the heap of rooms, the fields `roomID` of the clients, and the calls in progress. -/
structure Hub where
  rooms : SortedMap String Nat
  clients : List String
  maxConns : Int
  activeRooms : Int
  heap : List Room
  roomIDs : SortedMap String String
  calls : List Call
  deriving DecidableEq

inductive HubOp where
  | register (c : String)
  | joinRoom (c room : String)
  | leaveRoom (c : String)
  | unregister (c : String)
  | step (call : Nat)
  deriving DecidableEq

namespace Hub

/-- `NewHub`. -/
def new (maxConns : Int) : Hub := ⟨.empty, [], maxConns, 0, [], .empty, []⟩

/-- `c.roomID`. -/
def roomIDOf (h : Hub) (c : String) : String := (h.roomIDs.get c).getD ""

/-- The member map of a room. -/
def members (h : Hub) (rm : Nat) : List String :=
  match h.heap[rm]? with
  | some r => r.clients
  | none => []

/-- Begin a call. -/
def begin (h : Hub) (c : String) (phase : CallPhase) : Hub := { h with calls := h.calls ++ [⟨c, phase⟩] }

/-- The calls after a step of one of them, which goes on in another phase or returns. -/
def advance (h : Hub) (k : Nat) (c : String) (next : Option CallPhase) : List Call :=
  proceed h.calls k (next.map (Call.mk c))

/-- One step of a call. -/
def stepCall (h : Hub) (k : Nat) (call : Call) : Hub :=
  let c := call.client
  match call.phase with
  | .register =>
    if 0 < h.maxConns ∧ h.maxConns ≤ h.clients.length then { h with calls := h.advance k c none }
    else { h with
      clients := if c ∈ h.clients then h.clients else c :: h.clients
      calls := h.advance k c none }
  | .joinLookup room =>
    match h.rooms.get room with
    | some rm => { h with calls := h.advance k c (some (.joinAssign room rm)) }
    | none => { h with
        rooms := h.rooms.insert room h.heap.length
        heap := h.heap ++ [newRoom room]
        activeRooms := h.activeRooms + 1
        calls := h.advance k c (some (.joinAssign room h.heap.length)) }
  | .joinAssign room rm => { h with
      roomIDs := h.roomIDs.insert c room
      calls := h.advance k c (some (.joinAdd room rm)) }
  | .joinAdd _ rm => { h with heap := h.heap.modify rm (·.addClient c), calls := h.advance k c none }
  | .unregisterDelete => { h with
      clients := h.clients.filter fun c' => decide (c' ≠ c)
      calls := h.advance k c (some .unregisterCheck) }
  | .unregisterCheck => { h with calls := h.advance k c (if h.roomIDOf c ≠ "" then some .leaveStart else none) }
  | .leaveStart => { h with calls := h.advance k c (some (.leaveLookup (h.roomIDOf c))) }
  | .leaveLookup room =>
    match h.rooms.get room with
    | some rm => { h with calls := h.advance k c (some (.leaveRemove room rm)) }
    | none => { h with calls := h.advance k c none }
  | .leaveRemove room rm => { h with
      heap := h.heap.modify rm fun r => (r.removeClient c).1
      calls := h.advance k c (some (
        if ((h.heap[rm]?.getD (newRoom room)).removeClient c).2 then .leaveDelete room rm else .leaveReset)) }
  | .leaveDelete room rm =>
    if (h.members rm).isEmpty then { h with
      rooms := h.rooms.erase room
      activeRooms := h.activeRooms - 1
      calls := h.advance k c (some .leaveReset) }
    else { h with calls := h.advance k c (some .leaveReset) }
  | .leaveReset => { h with
      roomIDs := h.roomIDs.insert c ""
      calls := h.advance k c none }

def step (h : Hub) : HubOp → Option Hub
  | .register c => some (h.begin c .register)
  | .joinRoom c room => some (h.begin c (.joinLookup room))
  | .leaveRoom c => some (h.begin c .leaveStart)
  | .unregister c => some (h.begin c .unregisterDelete)
  | .step k =>
    match h.calls[k]? with
    | some call => some (h.stepCall k call)
    | none => none

end Hub

end SystemDesignLabs.WebsocketGateway
