import SystemDesignLabs.Core.Lru
import SystemDesignLabs.Core.Text

/-!
# Cache entries of a CDN edge node

Requests, the responses of an origin, what `fetchFromOrigin` makes of a response, and the cache key. Of the
headers of a response those are modelled that a proxy reads: `Cache-Control` and `Vary`. Times are nanoseconds;
a `time.Duration` wraps around at 64 bits. The zero `time.Time` is `none`.
-/

namespace SystemDesignLabs.CdnEdge

open Core

/-! ### Requests and responses -/

/-- A request. `path` is the decoded path and `rawPath` the path as it was sent; the names of headers are in lower
case. -/
structure Request where
  method : String
  path : String
  rawPath : String
  rawQuery : String
  headers : List (String × String)
  deriving DecidableEq

/-- The values of a header. -/
def Request.header (r : Request) (name : String) : List String :=
  r.headers.filterMap fun h => if h.1 = name then some h.2 else none

/-- The lines of the headers of a response that a proxy reads. -/
structure Headers where
  cacheControl : List String
  vary : List String
  deriving DecidableEq

structure Response where
  status : Nat
  headers : Headers
  body : List UInt8
  deriving DecidableEq

/-- `Header.Get`: the first line. -/
def firstLine (lines : List String) : String :=
  lines.head?.getD ""

/-! ### Header values -/

/-- The parts of a header value between commas, without white space at their ends. -/
def commaParts (value : String) : List (List Char) :=
  (value.toList.splitOn ',').map trim

def dropPlus : List Char → List Char
  | '+' :: cs => cs
  | cs => cs

def atoi (cs : List Char) : Option Int :=
  let negative := cs.head? = some '-'
  let digits := if negative then cs.tail else dropPlus cs
  if digits ≠ [] ∧ digits.all Char.isDigit then
    let n : Int := Nat.ofDigitChars 10 digits 0
    let i := if negative then -n else n
    if -(2 ^ 63) ≤ i ∧ i < 2 ^ 63 then some i else none
  else none

/-- A `time.Duration`. -/
def duration (i : Int) : Int :=
  Int.bmod i (2 ^ 64)

def second : Int := 1000000000

/-- What `Cache-Control` and `Vary` say. -/
structure CacheControlDirectives where
  noStore : Bool
  noCache : Bool
  maxAge : Int
  swr : Int
  sie : Int
  varyFields : List String
  deriving DecidableEq

/-- The number of seconds after the name of a directive, or what was read before if it cannot be read. -/
def secondsOr (old : Int) (name part : List Char) : Int :=
  match atoi (part.drop name.length) with
  | some secs => duration (secs * second)
  | none => old

/-- One part of `Cache-Control`. -/
def readPart (d : CacheControlDirectives) (part : List Char) : CacheControlDirectives :=
  let maxAge := "max-age=".toList
  let swr := "stale-while-revalidate=".toList
  let sie := "stale-if-error=".toList
  if part = "no-store".toList then { d with noStore := true }
  else if part = "no-cache".toList then { d with noCache := true }
  else if maxAge.isPrefixOf part then { d with maxAge := secondsOr d.maxAge maxAge part }
  else if swr.isPrefixOf part then { d with swr := secondsOr d.swr swr part }
  else if sie.isPrefixOf part then { d with sie := secondsOr d.sie sie part }
  else d

/-- The fields of a `Vary` header, in lower case. -/
def varyFieldsOf (vary : String) : List String :=
  ((commaParts vary).filter (· ≠ [])).map fun field => .ofList (field.map Char.toLower)

def parseCacheControl (cacheControl vary : String) : CacheControlDirectives :=
  (commaParts cacheControl).foldl readPart ⟨false, false, 0, 0, 0, varyFieldsOf vary⟩

/-! ### Keys -/

def cacheKey (r : Request) : String :=
  if r.rawQuery = "" then r.path else r.path ++ "?" ++ r.rawQuery

/-! ### Entries -/

/-- `CacheEntry`, but for the number of its hits, which changes. -/
structure CacheEntry where
  body : List UInt8
  headers : Headers
  statusCode : Nat
  expiresAt : Int
  cachedAt : Int
  staleWhileRevalidateUntil : Option Int
  staleIfErrorUntil : Option Int
  originalTTL : Int
  deriving DecidableEq

/-- `now.Before(until)`. -/
def before (now : Int) (until? : Option Int) : Bool :=
  until?.any (now < ·)

namespace CacheEntry

def isExpired (e : CacheEntry) (now : Int) : Bool :=
  e.expiresAt < now

def isStaleWhileRevalidate (e : CacheEntry) (now : Int) : Bool :=
  e.isExpired now && before now e.staleWhileRevalidateUntil

def isStaleIfError (e : CacheEntry) (now : Int) : Bool :=
  e.isExpired now && before now e.staleIfErrorUntil

def isCacheable (e : CacheEntry) : Bool :=
  if 500 ≤ e.statusCode then false
  else !(parseCacheControl (firstLine e.headers.cacheControl) "").noStore

end CacheEntry

/-- Sixty seconds. -/
def defaultTTL : Int := 60 * second

/-- The lifetime that a response gives its entry. -/
def ttlOf (headers : Headers) : Int :=
  let directives := parseCacheControl (firstLine headers.cacheControl) (firstLine headers.vary)
  if 0 < directives.maxAge then directives.maxAge else defaultTTL

/-- The entry that `fetchFromOrigin` makes of a response. At most `maxBytes` bytes of the body are read. -/
def newEntry (maxBytes : Nat) (now : Int) (resp : Response) : CacheEntry :=
  let directives := parseCacheControl (firstLine resp.headers.cacheControl) (firstLine resp.headers.vary)
  let ttl := ttlOf resp.headers
  { body := resp.body.take maxBytes
    headers := resp.headers
    statusCode := resp.status
    cachedAt := now
    expiresAt := now + ttl
    originalTTL := ttl
    staleWhileRevalidateUntil := if 0 < directives.swr then some (now + duration (ttl + directives.swr)) else none
    staleIfErrorUntil := if 0 < directives.sie then some (now + duration (ttl + directives.sie)) else none }

/-! ### Origins -/

/-- The request headers that a response depends on. -/
def Response.varyOn (resp : Response) : List String :=
  resp.headers.vary.flatMap varyFieldsOf

/-- Two requests agree on method, path, query and the given headers. -/
structure Request.Agree (names : List String) (r r' : Request) : Prop where
  method : r.method = r'.method
  path : r.path = r'.path
  rawPath : r.rawPath = r'.rawPath
  rawQuery : r.rawQuery = r'.rawQuery
  headers : ∀ name ∈ names, r.header name = r'.header name

/-- An origin whose response at any moment is a function of method, path, query and of the request headers that
the response lists in `Vary`. -/
structure Origin where
  respond : Int → Request → Response
  varies : ∀ now r r', r.Agree (respond now r).varyOn r' → respond now r' = respond now r

/-- The response is marked as not to be stored: in any line, in upper or lower case. -/
def Response.marksNoStore (resp : Response) : Bool :=
  resp.headers.cacheControl.any fun line => (commaParts line).any fun part => part.map Char.toLower = "no-store".toList

/-- A fetch: the request, the origin's response and the entry made of it. -/
structure Fetch where
  request : Request
  response : Response
  entry : CacheEntry
  deriving DecidableEq

theorem Request.Agree.cacheKey_eq {names : List String} {r r' : Request} (h : r.Agree names r') :
    cacheKey r = cacheKey r' := by
  rw [cacheKey, cacheKey, h.path, h.rawQuery]

/-!
## The three proxies, one request at a time

`EdgeProxy`, `CoalescingProxy` and `TieredProxy` on sequential runs: a call is one step, and a background
revalidation or prefetch is a step of its own at any later time. Entries live in the list of fetches, in the order
in which they were made, and the caches hold their indices, as the caches of the source hold pointers. The
counters of `CacheStats` are left out.
-/

/-! #### Nodes -/

/-- What a node is set up with. `purgePath` is the parameter `path` in the query of a request. -/
structure Config where
  origin : Origin
  maxBytes : Nat
  purgePath : Request → String

/-- A cache of entries, by their index. -/
abbrev Cache := Lru String Nat

/-- The header `X-Cache`. -/
inductive XCache where
  | hit
  | stale
  | hitL1
  | hitL2
  | staleIfError
  | miss
  deriving DecidableEq

/-- The response was not asked of the origin for this request. -/
def XCache.fromCache : XCache → Bool
  | hit | stale | hitL1 | hitL2 => true
  | staleIfError | miss => false

inductive Reply where
  | entry (xCache : XCache) (e : CacheEntry)
  | badGateway (err : String)
  | noContent
  | badRequest (err : String)

/-- An entry that a request was answered with, and the fetches made before the request. -/
structure Served where
  request : Request
  time : Int
  earlier : List Fetch
  xCache : XCache
  entry : CacheEntry

/-- A node with its proxy, the fetches that it has made and what it has served. -/
structure Node (σ : Type) where
  now : Int
  fetches : List Fetch
  proxy : σ
  served : List Served

/-- The entry that was found, if it has not expired. -/
def fresh (now : Int) (fetches : List Fetch) (found : Option Nat) : Option Fetch :=
  (found.bind fun i => fetches[i]?).filter fun f => !f.entry.isExpired now

def makeFetch (c : Config) (now : Int) (r : Request) : Fetch :=
  let resp := c.origin.respond now r
  ⟨r, resp, newEntry c.maxBytes now resp⟩

/-- `fetchFromOrigin`: the fetch and the cache with its entry, which is the next one. `lost` is the error of the
request to the origin, if it fails. -/
def fetchFromOrigin (c : Config) (lost : Option String) (now : Int) (fetches : List Fetch) (cache : Cache)
    (r : Request) (key : String) : Except String (Fetch × Cache) :=
  match lost with
  | some err => .error err
  | none =>
    let f := makeFetch c now r
    .ok (f, if f.entry.isCacheable then (cache.set key fetches.length).1 else cache)

/-! #### EdgeProxy -/

structure EdgeProxy where
  cache : Cache

namespace EdgeProxy

/-- What a request is served from the cache. -/
def cached (n : Node EdgeProxy) (r : Request) : Option (XCache × Fetch) :=
  (fresh n.now n.fetches (n.proxy.cache.lookup (cacheKey r))).map fun f => (.hit, f)

def serveHTTP (c : Config) (lost : Option String) (n : Node EdgeProxy) (r : Request) : Node EdgeProxy × Reply :=
  let key := cacheKey r
  let cache := (n.proxy.cache.get key).2
  match cached n r with
  | some (xCache, f) => ({ n with proxy := ⟨cache⟩ }, .entry xCache f.entry)
  | none =>
    match fetchFromOrigin c lost n.now n.fetches cache r key with
    | .error err => ({ n with proxy := ⟨cache⟩ }, .badGateway ("origin error: " ++ err))
    | .ok (f, cache) => ({ n with fetches := n.fetches ++ [f], proxy := ⟨cache⟩ }, .entry .miss f.entry)

end EdgeProxy

/-! #### CoalescingProxy -/

/-- The proxy, with the requests whose background revalidation has not run. Between the steps of a sequential run no
fetch is in flight. -/
structure CoalescingProxy where
  cache : Cache
  revalidations : List Request

namespace CoalescingProxy

def isPurge (r : Request) : Bool :=
  r.method = "DELETE" ∧ r.path = "/cache/purge"

/-- What a request is served from the cache. -/
def cached (n : Node CoalescingProxy) (r : Request) : Option (XCache × Fetch) :=
  if isPurge r then none
  else
    match (n.proxy.cache.lookup (cacheKey r)).bind fun i => n.fetches[i]? with
    | some f =>
      if !f.entry.isExpired n.now then some (.hit, f)
      else if f.entry.isStaleWhileRevalidate n.now then some (.stale, f)
      else none
    | none => none

/-- The error of `coalescedFetch`: of the request to the origin, or the origin's own 5xx. -/
inductive FetchError where
  | transport (err : String)
  | originStatus (e : CacheEntry)

/-- `coalescedFetch`: the entry, or the error and the entry that may stand in for it. -/
def coalescedFetch (c : Config) (lost : Option String) (n : Node CoalescingProxy) (r : Request) (key : String) :
    Node CoalescingProxy × Except (FetchError × Option CacheEntry) CacheEntry :=
  let staleEntry := ((n.proxy.cache.lookup key).bind fun i => n.fetches[i]?).map Fetch.entry
  let cache := (n.proxy.cache.get key).2
  match fresh n.now n.fetches (cache.lookup key) with
  | some f => ({ n with proxy := { n.proxy with cache } }, .ok f.entry)
  | none =>
    match fetchFromOrigin c lost n.now n.fetches cache r key with
    | .error err => ({ n with proxy := { n.proxy with cache } }, .error (.transport ("origin fetch: " ++ err), staleEntry))
    | .ok (f, cache) =>
      ({ n with fetches := n.fetches ++ [f], proxy := { n.proxy with cache } },
        if 500 ≤ f.entry.statusCode then .error (.originStatus f.entry, staleEntry) else .ok f.entry)

def handlePurge (c : Config) (n : Node CoalescingProxy) (r : Request) : Node CoalescingProxy × Reply :=
  let path := c.purgePath r
  if path = "" then (n, .badRequest "missing ?path= query parameter")
  else ({ n with proxy := { n.proxy with cache := n.proxy.cache.invalidate path } }, .noContent)

def serveHTTP (c : Config) (lost : Option String) (n : Node CoalescingProxy) (r : Request) :
    Node CoalescingProxy × Reply :=
  if isPurge r then handlePurge c n r
  else
    let key := cacheKey r
    let touched := { n with proxy := { n.proxy with cache := (n.proxy.cache.get key).2 } }
    match cached n r with
    | some (.stale, f) =>
      ({ touched with proxy := { touched.proxy with revalidations := touched.proxy.revalidations ++ [r] } },
        .entry .stale f.entry)
    | some (xCache, f) => (touched, .entry xCache f.entry)
    | none =>
      match coalescedFetch c lost touched r key with
      | (n, .ok e) => (n, .entry .miss e)
      | (n, .error (err, staleEntry)) =>
        match staleEntry.filter fun e => e.isStaleIfError n.now with
        | some e => (n, .entry .staleIfError e)
        | none =>
          match err with
          | .originStatus e => (n, .entry .miss e)
          | .transport err => (n, .badGateway ("origin error: " ++ err))

def revalidate (c : Config) (lost : Option String) (n : Node CoalescingProxy) (r : Request) : Node CoalescingProxy :=
  match fetchFromOrigin c lost n.now n.fetches n.proxy.cache r (cacheKey r) with
  | .error _ => n
  | .ok (f, cache) => { n with fetches := n.fetches ++ [f], proxy := { n.proxy with cache } }

end CoalescingProxy

/-! #### TieredProxy -/

/-- The proxy with the hit counts of the entries. The cache of the base proxy is written to, and never read. -/
structure TieredProxy where
  l1 : Cache
  l2 : Cache
  base : Cache
  accessCount : Nat → Nat

namespace TieredProxy

def setCount (count : Nat → Nat) (i n : Nat) : Nat → Nat :=
  fun j => if j = i then n else count j

/-- What a request is served from a tier. -/
def cached (n : Node TieredProxy) (r : Request) : Option (XCache × Fetch) :=
  match fresh n.now n.fetches (n.proxy.l1.lookup (cacheKey r)) with
  | some f => some (.hitL1, f)
  | none => (fresh n.now n.fetches (n.proxy.l2.lookup (cacheKey r))).map fun f => (.hitL2, f)

/-- `insertL1`: what is evicted goes to the second tier. -/
def insertL1 (t : TieredProxy) (key : String) (i : Nat) : TieredProxy :=
  let r := t.l1.set key i
  match r.2 with
  | some (evictedKey, evictedEntry) =>
    if evictedKey ≠ "" then { t with l1 := r.1, l2 := (t.l2.set evictedKey evictedEntry).1 } else { t with l1 := r.1 }
  | none => { t with l1 := r.1 }

def maxAdaptiveTTLMultiplier : Nat := 4

/-- The entry of a fetch after `AdaptiveTTL`, where `count` is the hit count of the entry in the second tier. -/
def adapt (f : Fetch) (count : Nat) : Fetch :=
  if 3 ≤ count then
    let multiplied := duration (f.entry.originalTTL * (min (count / 3 + 1) maxAdaptiveTTLMultiplier : Nat))
    { f with entry := { f.entry with expiresAt := f.entry.cachedAt + multiplied } }
  else f

/-- A fetch whose key has the given entry in the second tier. -/
def adaptTo (t : TieredProxy) (existing : Option Nat) (f : Fetch) : Fetch :=
  match existing with
  | some j => adapt f (t.accessCount j)
  | none => f

/-- The hit counts with that of the new entry, which is the `i`-th. -/
def inheritCount (t : TieredProxy) (existing : Option Nat) (i : Nat) : Nat → Nat :=
  match existing with
  | some j => setCount t.accessCount i (t.accessCount j)
  | none => t.accessCount

def fetchAndCache (c : Config) (lost : Option String) (n : Node TieredProxy) (r : Request) (key : String) :
    Node TieredProxy × Except String Fetch :=
  match fetchFromOrigin c lost n.now n.fetches n.proxy.base r key with
  | .error err => (n, .error err)
  | .ok (f, base) =>
    let i := n.fetches.length
    let existing := n.proxy.l2.lookup key
    let f := adaptTo n.proxy existing f
    let t := { n.proxy with base, l2 := (n.proxy.l2.get key).2, accessCount := inheritCount n.proxy existing i }
    let t := if f.entry.isCacheable then t.insertL1 key i else t
    ({ n with fetches := n.fetches ++ [f], proxy := t }, .ok f)

/-- An entry that was found is served once more. -/
def countHit (t : TieredProxy) (found : Option Nat) : TieredProxy :=
  match found with
  | some i => { t with accessCount := setCount t.accessCount i (t.accessCount i + 1) }
  | none => t

/-- An entry that was found in the second tier goes to the first. -/
def promote (t : TieredProxy) (key : String) (found : Option Nat) : TieredProxy :=
  match found with
  | some i => t.insertL1 key i
  | none => t

def serveHTTP (c : Config) (lost : Option String) (n : Node TieredProxy) (r : Request) : Node TieredProxy × Reply :=
  let key := cacheKey r
  let t := { n.proxy with l1 := (n.proxy.l1.get key).2 }
  match cached n r with
  | some (.hitL1, f) => ({ n with proxy := t.countHit (n.proxy.l1.lookup key) }, .entry .hitL1 f.entry)
  | some (xCache, f) =>
    let found := n.proxy.l2.lookup key
    let t := { t with l2 := (t.l2.get key).2 }
    ({ n with proxy := (t.countHit found).promote key found }, .entry xCache f.entry)
  | none =>
    let t := { t with l2 := (t.l2.get key).2 }
    match fetchAndCache c lost { n with proxy := t } r key with
    | (n, .error err) => (n, .badGateway ("origin error: " ++ err))
    | (n, .ok f) => (n, .entry .miss f.entry)

/-- `WarmURL`, where the URL has the given path and query: a request without headers. -/
def warmURL (c : Config) (lost : Option String) (n : Node TieredProxy) (path rawPath rawQuery : String) :
    Node TieredProxy :=
  let r : Request := ⟨"GET", path, rawPath, rawQuery, []⟩
  (fetchAndCache c lost n r (cacheKey r)).1

end TieredProxy

/-! #### Steps -/

/-- What the three proxies do. A call that a proxy does not have is `none`; `inL1` says that the first of two tiers
has an entry for a key, expired or not. -/
structure Proxy (σ : Type) where
  serveHTTP : Config → Option String → Node σ → Request → Node σ × Reply
  cached : Node σ → Request → Option (XCache × Fetch)
  inL1 : Node σ → String → Bool
  invalidate : Node σ → String → Option (Node σ)
  warmURL : Config → Option String → Node σ → String → String → String → Option (Node σ)
  revalidate : Config → Option String → Node σ → Nat → Option (Node σ)

def EdgeProxy.proxy : Proxy EdgeProxy where
  serveHTTP := EdgeProxy.serveHTTP
  cached := EdgeProxy.cached
  inL1 := fun _ _ => false
  invalidate := fun n key => some { n with proxy := ⟨n.proxy.cache.invalidate key⟩ }
  warmURL := fun _ _ _ _ _ _ => none
  revalidate := fun _ _ _ _ => none

def CoalescingProxy.proxy : Proxy CoalescingProxy where
  serveHTTP := CoalescingProxy.serveHTTP
  cached := CoalescingProxy.cached
  inL1 := fun _ _ => false
  invalidate := fun n key => some { n with proxy := { n.proxy with cache := n.proxy.cache.invalidate key } }
  warmURL := fun _ _ _ _ _ _ => none
  revalidate := fun c lost n k => (n.proxy.revalidations[k]?).map fun r =>
    CoalescingProxy.revalidate c lost
      { n with proxy := { n.proxy with revalidations := n.proxy.revalidations.eraseIdx k } } r

def TieredProxy.proxy : Proxy TieredProxy where
  serveHTTP := TieredProxy.serveHTTP
  cached := TieredProxy.cached
  inL1 := fun n key => (n.proxy.l1.lookup key).isSome
  invalidate := fun _ _ => none
  warmURL := fun c lost n path rawPath rawQuery => some (TieredProxy.warmURL c lost n path rawPath rawQuery)
  revalidate := fun _ _ _ _ => none

inductive Op where
  | tick (d : Nat)
  | request (r : Request) (lost : Option String)
  | purge (key : String)
  | warm (path rawPath rawQuery : String) (lost : Option String)
  | revalidate (k : Nat) (lost : Option String)

/-- The reply to a request is noted, if it is an entry. -/
def Node.note {σ : Type} (n : Node σ) (earlier : List Fetch) (r : Request) : Reply → Node σ
  | .entry xCache entry => { n with served := ⟨r, n.now, earlier, xCache, entry⟩ :: n.served }
  | _ => n

/-- One step of a node. -/
def step {σ : Type} (c : Config) (p : Proxy σ) (n : Node σ) : Op → Option (Node σ)
  | .tick d => some { n with now := n.now + d }
  | .request r lost =>
    let (n', reply) := p.serveHTTP c lost n r
    some (n'.note n.fetches r reply)
  | .purge key => p.invalidate n key
  | .warm path rawPath rawQuery lost => p.warmURL c lost n path rawPath rawQuery
  | .revalidate k lost => p.revalidate c lost n k

def Node.initial {σ : Type} (now : Int) (proxy : σ) : Node σ :=
  ⟨now, [], proxy, []⟩

/-- `NewEdgeProxy` with a positive cache size. -/
def newEdgeProxy (cacheSize : Nat) : EdgeProxy :=
  ⟨.empty cacheSize⟩

def newCoalescingProxy (cacheSize : Nat) : CoalescingProxy :=
  ⟨.empty cacheSize, []⟩

/-- `NewTieredProxy`, with the sizes of the two tiers. -/
def newTieredProxy : TieredProxy :=
  ⟨.empty 100, .empty 10000, .empty 1, fun _ => 0⟩

end SystemDesignLabs.CdnEdge
