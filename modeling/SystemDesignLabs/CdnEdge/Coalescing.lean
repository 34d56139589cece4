import SystemDesignLabs.Core.Cells
import SystemDesignLabs.Core.TransitionSystem
import SystemDesignLabs.CdnEdge.Proxies

/-!
# CoalescingProxy with concurrent requests

Every request and every background revalidation is a goroutine. A step is one of their sections: one use of the
mutex of the cache, of `mu`, one message to or from the origin, or closing `done`; what a goroutine does by itself
before or after is part of that step. Each step has its own moment, counted from the start, and a response carries
the moment at which its origin request was sent.
-/

namespace SystemDesignLabs.CdnEdge.Coalescing

open Core

/-! ### Goroutines -/

/-- A response as an entry, with the moment at which its origin request was sent. -/
structure Fetched where
  entry : CacheEntry
  sentAt : Nat
  deriving DecidableEq

/-- What a fetch ends with: an entry, the origin's own 5xx as an `OriginStatusError`, or another error. -/
inductive Result where
  | entry (f : Fetched)
  | originStatus (f : Fetched)
  | transport (err : String)
  deriving DecidableEq

/-- The response, if the origin has given one. -/
def Result.response : Result → Option Fetched
  | .entry f => some f
  | .originStatus f => some f
  | .transport _ => none

/-- The stale entry that `coalescedFetch` returns with a result: with errors only. -/
def Result.fallback (stale : Option Fetched) : Result → Option Fetched
  | .entry _ => none
  | _ => stale

/-- The caller of `fetchFromOrigin`: a `coalescedFetch` that has registered a flight, or `revalidate`. -/
inductive Caller where
  | leader (flight : Nat) (stale : Option Fetched)
  | revalidation

/-- Where a goroutine stands, with its local variables. -/
inductive Stage where
  /-- `ServeHTTP` was called. -/
  | begun
  /-- `ServeHTTP` has looked into the cache. -/
  | looked (found : Option Fetched)
  /-- `coalescedFetch` was called. -/
  | missed
  /-- It has looked for a stale entry. -/
  | kept (stale : Option Fetched)
  /-- It holds `mu` and has looked again. -/
  | locked (stale again : Option Fetched)
  /-- It waits for `done` of a flight that it found. -/
  | waiting (flight : Nat) (stale : Option Fetched)
  /-- `fetchFromOrigin` was called. -/
  | unsent (caller : Caller)
  | sent (caller : Caller) (sentAt : Nat)
  /-- The response may be stored, and `Set` comes next. -/
  | storing (caller : Caller) (f : Fetched)
  /-- `fetchFromOrigin` has returned to `coalescedFetch`. -/
  | fetched (flight : Nat) (stale : Option Fetched) (result : Result)
  /-- The flight was removed from `inflight`; `close(req.done)` comes next. -/
  | published (flight : Nat) (stale : Option Fetched) (result : Result)
  /-- `coalescedFetch` has returned. -/
  | returned (stale : Option Fetched) (result : Result)
  | done

/-- A goroutine. `begunAt` is the moment at which the request began, or at which the revalidation was started. -/
structure Task where
  request : Request
  begunAt : Nat
  stage : Stage

def Task.key (t : Task) : String :=
  cacheKey t.request

/-- `inflightReq`. `leader` is the goroutine that registered it, and `sentAt` the moment at which that one sent its
origin request. -/
structure Flight where
  leader : Nat
  sentAt : Option Nat
  result : Option Result
  closed : Bool

/-! ### The proxy -/

inductive Answer where
  | response (xCache : XCache) (f : Fetched)
  | badGateway (err : String)
  | noContent
  | badRequest (err : String)

/-- An answered request. -/
structure Answered where
  request : Request
  begunAt : Nat
  answer : Answer

/-- What `coalescedFetch` returned to a request that had found a flight. -/
structure Join where
  flight : Nat
  result : Result

/-- The proxy and its goroutines. The last four fields are history: the keys that were purged and when, what the
call of `fetchFromOrigin` of each goroutine came to for `coalescedFetch`, what the waiters were given, and the
answers. -/
structure Edge where
  moment : Nat
  now : Int
  cache : Lru String Fetched
  mu : Option Nat
  inflight : String → Option Nat
  flights : List Flight
  tasks : List Task
  purges : List (String × Nat)
  results : List (Nat × Result)
  joins : List Join
  answers : List Answered

/-- What a node is set up with. `purgePath` is the parameter `path` in the query of a request. -/
structure Setup where
  maxBytes : Nat
  purgePath : Request → String

namespace Edge

/-- A goroutine goes on. -/
def goTo (s : Edge) (k : Nat) (stage : Stage) : Edge :=
  { s with tasks := s.tasks.modify k fun t => { t with stage } }

/-- A new goroutine. -/
def start (s : Edge) (request : Request) (stage : Stage) : Edge :=
  { s with tasks := s.tasks ++ [⟨request, s.moment, stage⟩] }

/-- A request is answered. -/
def reply (s : Edge) (k : Nat) (t : Task) (answer : Answer) : Edge :=
  { s with answers := ⟨t.request, t.begunAt, answer⟩ :: s.answers }.goTo k .done

def setFlight (s : Edge) (flight : Nat) (f : Flight → Flight) : Edge :=
  { s with flights := s.flights.modify flight f }

/-- The cache after `Get`. -/
def touch (s : Edge) (key : String) : Edge :=
  { s with cache := (s.cache.get key).2 }

def invalidate (s : Edge) (key : String) : Edge :=
  { s with cache := s.cache.invalidate key, purges := (key, s.moment) :: s.purges }

/-! ### Sections of a request -/

def handlePurge (c : Setup) (s : Edge) (k : Nat) (t : Task) : Edge :=
  let path := c.purgePath t.request
  if path = "" then s.reply k t (.badRequest "missing ?path= query parameter")
  else (s.invalidate path).reply k t .noContent

/-- `ServeHTTP` up to its `Get`. -/
def serveHTTP (c : Setup) (s : Edge) (k : Nat) (t : Task) : Edge :=
  if CoalescingProxy.isPurge t.request then s.handlePurge c k t
  else (s.touch t.key).goTo k (.looked (s.cache.lookup t.key))

/-- `ServeHTTP` with what it found. The clock is read for `IsExpired` and once more for
`IsStaleWhileRevalidate`; what comes out is the same as when both are asked at the moment that decides. -/
def serveFound (s : Edge) (k : Nat) (t : Task) (found : Option Fetched) : Edge :=
  match found with
  | some f =>
    if !f.entry.isExpired s.now then s.reply k t (.response .hit f)
    else if f.entry.isStaleWhileRevalidate s.now then
      (s.reply k t (.response .stale f)).start t.request (.unsent .revalidation)
    else s.goTo k .missed
  | none => s.goTo k .missed

/-- The last part of `ServeHTTP`, behind `coalescedFetch`. -/
def serveResult (s : Edge) (k : Nat) (t : Task) (stale : Option Fetched) (result : Result) : Edge :=
  match result with
  | .entry f => s.reply k t (.response .miss f)
  | .originStatus f =>
    match stale.filter fun f => f.entry.isStaleIfError s.now with
    | some f => s.reply k t (.response .staleIfError f)
    | none => s.reply k t (.response .miss f)
  | .transport err =>
    match stale.filter fun f => f.entry.isStaleIfError s.now with
    | some f => s.reply k t (.response .staleIfError f)
    | none => s.reply k t (.badGateway ("origin error: " ++ err))

/-! ### Sections of coalescedFetch -/

/-- The first `Get`, for a stale entry. -/
def keepStale (s : Edge) (k : Nat) (t : Task) : Edge :=
  (s.touch t.key).goTo k (.kept (s.cache.lookup t.key))

/-- `mu.Lock` and the second `Get`. -/
def lock (s : Edge) (k : Nat) (t : Task) (stale : Option Fetched) : Option Edge :=
  if s.mu = none then
    some (({ s with mu := some k }.touch t.key).goTo k (.locked stale (s.cache.lookup t.key)))
  else none

/-- The rest of the section: return what was found, wait for a flight, or register one. -/
def joinOrRegister (s : Edge) (k : Nat) (t : Task) (stale again : Option Fetched) : Edge :=
  let s := { s with mu := none }
  match again.filter fun f => !f.entry.isExpired s.now with
  | some f => s.goTo k (.returned none (.entry f))
  | none =>
    match s.inflight t.key with
    | some flight => s.goTo k (.waiting flight stale)
    | none =>
      let flight := s.flights.length
      let inflight := Function.update s.inflight t.key (some flight)
      let flights := s.flights ++ [(⟨k, none, none, false⟩ : Flight)]
      { s with flights, inflight }.goTo k (.unsent (.leader flight stale))

/-- A waiter goes on once `done` is closed. -/
def wake (s : Edge) (k : Nat) (flight : Nat) (stale : Option Fetched) : Option Edge :=
  (s.flights[flight]?.bind fun f => if f.closed then f.result else none).map fun result =>
    { s with joins := ⟨flight, result⟩ :: s.joins }.goTo k (.returned (result.fallback stale) result)

/-- The second section under `mu`. -/
def publish (s : Edge) (k : Nat) (t : Task) (flight : Nat) (stale : Option Fetched) (result : Result) : Option Edge :=
  if s.mu = none then
    some (({ s with inflight := Function.update s.inflight t.key none }.setFlight flight
      fun f => { f with result := some result }).goTo k (.published flight stale result))
  else none

/-- `close(req.done)`. -/
def closeDone (s : Edge) (k : Nat) (flight : Nat) (stale : Option Fetched) (result : Result) : Edge :=
  (s.setFlight flight fun f => { f with closed := true }).goTo k (.returned (result.fallback stale) result)

/-! ### Sections of fetchFromOrigin -/

/-- The origin request is sent. -/
def send (s : Edge) (k : Nat) (caller : Caller) : Edge :=
  match caller with
  | .leader flight _ =>
    (s.setFlight flight fun f => { f with sentAt := some s.moment }).goTo k (.sent caller s.moment)
  | .revalidation => s.goTo k (.sent caller s.moment)

/-- `fetchFromOrigin` returns. -/
def finish (s : Edge) (k : Nat) (caller : Caller) (result : Result) : Edge :=
  let s := { s with results := (k, result) :: s.results }
  match caller with
  | .leader flight stale => s.goTo k (.fetched flight stale result)
  | .revalidation => s.goTo k .done

/-- The origin has answered. -/
def receive (c : Setup) (s : Edge) (k : Nat) (caller : Caller) (sentAt : Nat) (resp : Response) : Edge :=
  let f : Fetched := ⟨newEntry c.maxBytes s.now resp, sentAt⟩
  if f.entry.isCacheable then s.goTo k (.storing caller f)
  else s.finish k caller (if 500 ≤ f.entry.statusCode then .originStatus f else .entry f)

/-- `Set`. -/
def store (s : Edge) (k : Nat) (t : Task) (caller : Caller) (f : Fetched) : Edge :=
  { s with cache := (s.cache.set t.key f).1 }.finish k caller (.entry f)

end Edge

/-! ### Steps -/

inductive Act where
  /-- The clock goes on. -/
  | tick (d : Nat)
  /-- A request begins. -/
  | request (r : Request)
  /-- `Invalidate` is called. -/
  | invalidate (key : String)
  /-- A goroutine makes its next step. -/
  | run (k : Nat)
  /-- The origin answers the request of a goroutine. -/
  | respond (k : Nat) (resp : Response)
  /-- `fetchFromOrigin` fails, before or after its request is sent. -/
  | fail (k : Nat) (err : String)

/-- The goroutine that makes the step. -/
def Act.task : Act → Option Nat
  | .run k => some k
  | .respond k _ => some k
  | .fail k _ => some k
  | _ => none

namespace Edge

/-- The next step of a goroutine. -/
def run (c : Setup) (s : Edge) (k : Nat) (t : Task) : Option Edge :=
  match t.stage with
  | .begun => some (s.serveHTTP c k t)
  | .looked found => some (s.serveFound k t found)
  | .missed => some (s.keepStale k t)
  | .kept stale => s.lock k t stale
  | .locked stale again => some (s.joinOrRegister k t stale again)
  | .waiting flight stale => s.wake k flight stale
  | .unsent caller => some (s.send k caller)
  | .sent _ _ => none
  | .storing caller f => some (s.store k t caller f)
  | .fetched flight stale result => s.publish k t flight stale result
  | .published flight stale result => some (s.closeDone k flight stale result)
  | .returned stale result => some (s.serveResult k t stale result)
  | .done => none

def respond (c : Setup) (s : Edge) (k : Nat) (t : Task) (resp : Response) : Option Edge :=
  match t.stage with
  | .sent caller sentAt => some (s.receive c k caller sentAt resp)
  | _ => none

def fail (s : Edge) (k : Nat) (t : Task) (err : String) : Option Edge :=
  match t.stage with
  | .unsent caller => some (s.finish k caller (.transport ("origin fetch: " ++ err)))
  | .sent caller _ => some (s.finish k caller (.transport ("origin fetch: " ++ err)))
  | _ => none

def act (c : Setup) (s : Edge) : Act → Option Edge
  | .tick d => some { s with now := s.now + d }
  | .request r => some (s.start r .begun)
  | .invalidate key => some (s.invalidate key)
  | .run k => s.tasks[k]?.bind fun t => s.run c k t
  | .respond k resp => s.tasks[k]?.bind fun t => s.respond c k t resp
  | .fail k err => s.tasks[k]?.bind fun t => s.fail k t err

/-- One step of the proxy. -/
def step (c : Setup) (s : Edge) (a : Act) : Option Edge :=
  (s.act c a).map fun s' => { s' with moment := s.moment + 1 }

/-- `NewCoalescingProxy`, with the size of its cache. -/
def initial (now : Int) (cacheSize : Nat) : Edge :=
  ⟨0, now, .empty cacheSize, none, fun _ => none, [], [], [], [], [], []⟩

end Edge

end SystemDesignLabs.CdnEdge.Coalescing
