import SystemDesignLabs.Core.TransitionSystem
import SystemDesignLabs.CdnEdge.Proxies

/-!
# What is served from a cache

A cache holds, under each key, the latest cacheable fetch with this key (`CacheInv`); the two tiers do so together
(`TierInv`). So what a request is served is the response to the latest cacheable fetch for a request that agrees
with it, as long as the entry that it finds was fetched for such a request. The key has the path and the query
only, so this can fail, and so can the body: what is behind `maxBytes` is cut off before it is stored.
-/

namespace SystemDesignLabs.CdnEdge

open Core CoalescingProxy

/-! ### Statement -/

/-- An entry expires after the lifetime that its response gives, or after a small multiple of it. -/
def CacheEntry.HasLifetime (e : CacheEntry) : Prop :=
  e.expiresAt = e.cachedAt + ttlOf e.headers
    ∨ ∃ m : Nat, 2 ≤ m ∧ m ≤ 4 ∧ e.expiresAt = e.cachedAt + duration (ttlOf e.headers * m)

/-- A request was served the fetch `f`, the `i`-th of those made before it. -/
structure ServedFrom (c : Config) (s : Served) (i : Nat) (f : Fetch) : Prop where
  fetched : s.earlier[i]? = some f
  cacheable : f.entry.isCacheable = true
  agree : f.request.Agree f.response.varyOn s.request
  latest : ∀ (j : Nat) (g : Fetch), i < j → s.earlier[j]? = some g → g.entry.isCacheable = true →
    ¬ g.request.Agree g.response.varyOn s.request
  origin : f.response = c.origin.respond f.entry.cachedAt s.request
  status : s.entry.statusCode = f.response.status
  body : s.entry.body = f.response.body
  notError : f.response.status < 500
  notMarked : f.response.marksNoStore = false
  lifetime : f.entry.HasLifetime
  hit : s.xCache ≠ .stale → s.time ≤ f.entry.expiresAt
  stale : s.xCache = .stale → f.entry.expiresAt < s.time ∧ before s.time f.entry.staleWhileRevalidateUntil = true

/-- Everything that was served from a cache was right. -/
def Right {σ : Type} (c : Config) (n : Node σ) : Prop :=
  ∀ s ∈ n.served, s.xCache.fromCache = true → ∃ i f, ServedFrom c s i f

/-- The response marks no-store where a proxy looks for it, if it marks it at all. -/
def MarkSeen (resp : Response) : Prop :=
  resp.marksNoStore = true → (parseCacheControl (firstLine resp.headers.cacheControl) "").noStore = true

instance (resp : Response) : Decidable (MarkSeen resp) :=
  inferInstanceAs (Decidable (_ → _))

instance (names : List String) (r r' : Request) : Decidable (r.Agree names r') :=
  decidable_of_iff (r.method = r'.method ∧ r.path = r'.path ∧ r.rawPath = r'.rawPath ∧ r.rawQuery = r'.rawQuery
      ∧ ∀ name ∈ names, r.header name = r'.header name)
    ⟨fun ⟨h, h₁, h₂, h₃, h₄⟩ => ⟨h, h₁, h₂, h₃, h₄⟩, fun h => ⟨h.method, h.path, h.rawPath, h.rawQuery, h.headers⟩⟩

/-- The entry of a fetch may be served to a request: it was fetched for a request that agrees with it, from a response
that is stored whole. -/
def Sharable (c : Config) (f : Fetch) (r : Request) : Prop :=
  f.request.Agree f.response.varyOn r ∧ f.response.body.length ≤ c.maxBytes ∧ MarkSeen f.response

instance (c : Config) (f : Fetch) (r : Request) : Decidable (Sharable c f r) :=
  inferInstanceAs (Decidable (_ ∧ _))

/-- A request finds an entry that it may be served, and finds none in the second tier behind one in the first. -/
def FindsSharable {σ : Type} (c : Config) (p : Proxy σ) (n : Node σ) : Op → Prop
  | .request r _ => ∀ found ∈ p.cached n r,
      Sharable c found.2 r ∧ (found.1 = .hitL2 → p.inL1 n (cacheKey r) = false)
  | _ => True

instance {σ : Type} (c : Config) (p : Proxy σ) (n : Node σ) (op : Op) : Decidable (FindsSharable c p n op) := by
  cases op
  case request r lost =>
    exact inferInstanceAs (Decidable (∀ found ∈ p.cached n r,
      Sharable c found.2 r ∧ (found.1 = .hitL2 → p.inL1 n (cacheKey r) = false)))
  all_goals exact isTrue trivial

/-! ### Fetches -/

/-- What a fetch has of the origin's response. -/
structure Fetch.Made (c : Config) (f : Fetch) : Prop where
  response : f.response = c.origin.respond f.entry.cachedAt f.request
  body : f.entry.body = f.response.body.take c.maxBytes
  status : f.entry.statusCode = f.response.status
  headers : f.entry.headers = f.response.headers
  lifetime : f.entry.HasLifetime

/-- The `i`-th fetch is the latest cacheable one with a key. -/
structure Newest (fetches : List Fetch) (key : String) (i : Nat) (f : Fetch) : Prop where
  fetched : fetches[i]? = some f
  hasKey : cacheKey f.request = key
  cacheable : f.entry.isCacheable = true
  later : ∀ (j : Nat) (g : Fetch), i < j → fetches[j]? = some g → g.entry.isCacheable = true →
    cacheKey g.request ≠ key

/-- Each key of a cache has the latest cacheable fetch with this key. -/
def CacheInv (fetches : List Fetch) (cache : Cache) : Prop :=
  ∀ key i, cache.lookup key = some i → ∃ f, Newest fetches key i f

theorem makeFetch_made (c : Config) (now : Int) (r : Request) : (makeFetch c now r).Made c :=
  ⟨rfl, rfl, rfl, rfl, .inl rfl⟩

theorem fetchFromOrigin_ok {c : Config} {lost : Option String} {now : Int} {fetches : List Fetch} {cache cache' : Cache}
    {r : Request} {key : String} {f : Fetch} (h : fetchFromOrigin c lost now fetches cache r key = .ok (f, cache')) :
    f = makeFetch c now r ∧ cache' = if f.entry.isCacheable then (cache.set key fetches.length).1 else cache := by
  cases lost with
  | some err => cases h
  | none =>
    cases h
    exact ⟨rfl, rfl⟩

theorem isCacheable_iff {e : CacheEntry} : e.isCacheable = true ↔
    e.statusCode < 500 ∧ (parseCacheControl (firstLine e.headers.cacheControl) "").noStore = false := by
  rw [CacheEntry.isCacheable]
  split
  · next h => exact ⟨nofun, fun h' => absurd h (Nat.not_le.2 h'.1)⟩
  · next h => rw [Bool.not_eq_true']; exact ⟨fun h' => ⟨Nat.not_le.1 h, h'⟩, fun h' => h'.2⟩

namespace Newest

variable {fetches : List Fetch} {key : String} {i : Nat} {f : Fetch}

theorem lt_length (h : Newest fetches key i f) : i < fetches.length :=
  (List.getElem?_eq_some_iff.1 h.fetched).1

theorem append (h : Newest fetches key i f) {g : Fetch}
    (hg : g.entry.isCacheable = true → cacheKey g.request ≠ key) : Newest (fetches ++ [g]) key i f where
  fetched := by
    rw [List.getElem?_append_left h.lt_length]
    exact h.fetched
  hasKey := h.hasKey
  cacheable := h.cacheable
  later := by
    intro j g' hlt hj hc
    rcases Nat.lt_or_ge j fetches.length with hold | hnew
    · rw [List.getElem?_append_left hold] at hj
      exact h.later j g' hlt hj hc
    · rw [List.getElem?_append_right hnew] at hj
      have hmem := List.mem_of_getElem? hj
      rw [List.mem_singleton.1 hmem] at hc ⊢
      exact hg hc

theorem last (hkey : cacheKey f.request = key) (hc : f.entry.isCacheable = true) :
    Newest (fetches ++ [f]) key fetches.length f where
  fetched := List.getElem?_concat_length
  hasKey := hkey
  cacheable := hc
  later := by
    intro j g hlt hj
    have hlen := (List.getElem?_eq_some_iff.1 hj).1
    rw [List.length_append, List.length_singleton] at hlen
    omega

/-- The latest fetch with a key is right for a request that it may be served to. -/
theorem servedFrom {c : Config} {r : Request} (h : Newest fetches (cacheKey r) i f) (hmade : f.Made c)
    (hshare : Sharable c f r) {now : Int} {x : XCache} (hhit : x ≠ .stale → now ≤ f.entry.expiresAt)
    (hstale : x = .stale → f.entry.expiresAt < now ∧ before now f.entry.staleWhileRevalidateUntil = true) :
    ServedFrom c ⟨r, now, fetches, x, f.entry⟩ i f where
  fetched := h.fetched
  cacheable := h.cacheable
  agree := hshare.1
  latest := fun j g hlt hj hc hagree => h.later j g hlt hj hc hagree.cacheKey_eq
  origin := by
    have hagree := hshare.1
    rw [hmade.response] at hagree
    exact hmade.response.trans (c.origin.varies _ _ _ hagree).symm
  status := hmade.status
  body := by
    show f.entry.body = _
    rw [hmade.body, List.take_of_length_le hshare.2.1]
  notError := by
    rw [← hmade.status]
    exact (isCacheable_iff.1 h.cacheable).1
  notMarked := by
    have hunseen := (isCacheable_iff.1 h.cacheable).2
    rw [hmade.headers] at hunseen
    by_contra hmarked
    have hseen := hshare.2.2 (Bool.not_eq_false _ ▸ hmarked)
    rw [hunseen] at hseen
    cases hseen
  lifetime := hmade.lifetime
  hit := hhit
  stale := hstale

end Newest

namespace CacheInv

variable {fetches : List Fetch} {cache : Cache} {key : String}

theorem empty (maxSize : Nat) : CacheInv [] (.empty maxSize) :=
  fun _ _ h => by cases h

section

variable (h : CacheInv fetches cache)
include h

theorem get (key : String) : CacheInv fetches (cache.get key).2 := by
  intro key' i hi
  rw [Lru.lookup_get] at hi
  exact h key' i hi

theorem invalidate (key : String) : CacheInv fetches (cache.invalidate key) :=
  fun key' i hi => h key' i (Lru.lookup_of_invalidate hi).2

/-- A fetch is stored under its key, if it is cacheable. -/
theorem fetch {c : Config} {lost : Option String} {now : Int} {r : Request} {f : Fetch}
    {cache' : Cache} (hfetch : fetchFromOrigin c lost now fetches cache r (cacheKey r) = .ok (f, cache')) :
    f.Made c ∧ CacheInv (fetches ++ [f]) cache' := by
  obtain ⟨rfl, rfl⟩ := fetchFromOrigin_ok hfetch
  refine ⟨makeFetch_made c now r, fun key i hi => ?_⟩
  split at hi
  · next hc =>
    rcases Lru.lookup_of_set hi with ⟨rfl, rfl⟩ | ⟨hne, hold⟩
    · exact ⟨_, .last rfl hc⟩
    · obtain ⟨f, hf⟩ := h key i hold
      exact ⟨f, hf.append fun _ => Ne.symm hne⟩
  · next hc =>
    obtain ⟨f, hf⟩ := h key i hi
    exact ⟨f, hf.append fun hc' => absurd hc' hc⟩

end

end CacheInv

theorem fresh_eq_some {now : Int} {fetches : List Fetch} {found : Option Nat} {f : Fetch}
    (h : fresh now fetches found = some f) : ∃ i, found = some i ∧ fetches[i]? = some f ∧ now ≤ f.entry.expiresAt := by
  obtain ⟨hfound, hfresh⟩ := Option.filter_eq_some_iff.1 h
  obtain ⟨i, hi, hf⟩ := Option.bind_eq_some_iff.1 hfound
  refine ⟨i, hi, hf, Int.not_lt.1 fun hlt => ?_⟩
  rw [CacheEntry.isExpired, decide_eq_true hlt] at hfresh
  cases hfresh

/-! ### Steps of the three proxies -/

section Steps

variable {σ : Type} {c : Config}

/-- What a node has fetched and served is in order. -/
structure LogInv (c : Config) (n : Node σ) : Prop where
  made : ∀ f ∈ n.fetches, f.Made c
  right : Right c n

theorem LogInv.of_fetches {τ : Type} {n : Node σ} {n' : Node τ} (h : LogInv c n) (hserved : n'.served = n.served)
    (hmade : ∀ f ∈ n'.fetches, f ∈ n.fetches ∨ f.Made c) : LogInv c n' := by
  refine ⟨fun f hf => (hmade f hf).elim (h.made f) id, fun s hs => h.right s ?_⟩
  rw [← hserved]
  exact hs

/-- What is replied from a cache is right. -/
structure Answers (c : Config) (n : Node σ) (r : Request) (out : Node σ × Reply) : Prop where
  now : out.1.now = n.now
  fromCache : ∀ x e, out.2 = .entry x e → x.fromCache = true →
    ∃ i f, ServedFrom c ⟨r, n.now, n.fetches, x, e⟩ i f

theorem LogInv.note {n : Node σ} {r : Request} {out : Node σ × Reply} (h : LogInv c out.1) (hout : Answers c n r out) :
    LogInv c (out.1.note n.fetches r out.2) := by
  cases hreply : out.2 with
  | entry x e =>
    refine ⟨h.made, fun s hs hcache => ?_⟩
    rcases List.mem_cons.1 hs with rfl | hs
    · rw [hout.now]
      exact hout.fromCache x e hreply hcache
    · exact h.right s hs hcache
  | _ => exact ⟨h.made, h.right⟩

@[simp] theorem note_fetches (n : Node σ) (earlier : List Fetch) (r : Request) (reply : Reply) :
    (n.note earlier r reply).fetches = n.fetches := by
  cases reply <;> rfl

@[simp] theorem note_proxy (n : Node σ) (earlier : List Fetch) (r : Request) (reply : Reply) :
    (n.note earlier r reply).proxy = n.proxy := by
  cases reply <;> rfl

/-- The log of a node is in order, and so are its caches, which is `I`. -/
structure NodeInv (c : Config) (I : List Fetch → σ → Prop) (n : Node σ) : Prop where
  log : LogInv c n
  caches : I n.fetches n.proxy

/-- The calls of a proxy keep the invariant. -/
structure Keeps (c : Config) (p : Proxy σ) (I : List Fetch → σ → Prop) : Prop where
  serveHTTP : ∀ n lost r, NodeInv c I n → FindsSharable c p n (.request r lost) →
    NodeInv c I (p.serveHTTP c lost n r).1 ∧ Answers c n r (p.serveHTTP c lost n r)
  invalidate : ∀ n key n', NodeInv c I n → p.invalidate n key = some n' → NodeInv c I n'
  warmURL : ∀ n lost path rawPath rawQuery n', NodeInv c I n → p.warmURL c lost n path rawPath rawQuery = some n' →
    NodeInv c I n'
  revalidate : ∀ n lost k n', NodeInv c I n → p.revalidate c lost n k = some n' → NodeInv c I n'

variable {I : List Fetch → σ → Prop}

/-- Every step keeps the invariant, a request if it finds what it may be served. -/
theorem NodeInv.step {p : Proxy σ} (hp : Keeps c p I) {n n' : Node σ} {op : Op} (h : NodeInv c I n)
    (hok : FindsSharable c p n op) (hstep : CdnEdge.step c p n op = some n') : NodeInv c I n' := by
  cases op with
  | tick d =>
    cases hstep
    exact ⟨⟨h.log.made, h.log.right⟩, h.caches⟩
  | request r lost =>
    cases hstep
    obtain ⟨hinv, hout⟩ := hp.serveHTTP n lost r h hok
    refine ⟨hinv.log.note hout, ?_⟩
    rw [note_fetches, note_proxy]
    exact hinv.caches
  | purge key => exact hp.invalidate n key n' h hstep
  | warm path rawPath rawQuery lost => exact hp.warmURL n lost path rawPath rawQuery n' h hstep
  | revalidate k lost => exact hp.revalidate n lost k n' h hstep

theorem NodeInv.of_run {p : Proxy σ} (hp : Keeps c p I) {now : Int} {proxy : σ} (hinit : I [] proxy)
    {n : Node σ} (h : ReachableIf (CdnEdge.step c p) (FindsSharable c p) (Node.initial now proxy) n) : NodeInv c I n :=
  h.invariant ⟨⟨fun _ hf => absurd hf List.not_mem_nil, fun _ hs => absurd hs List.not_mem_nil⟩, hinit⟩ fun _ _ _ _ hinv hok hstep => hinv.step hp hok hstep

theorem LogInv.fetch {n : Node σ} (h : LogInv c n) {f : Fetch} (hf : f.Made c) (proxy : σ) :
    LogInv c { n with fetches := n.fetches ++ [f], proxy } := by
  refine h.of_fetches rfl fun g hg => (List.mem_append.1 hg).imp id fun hlast => ?_
  exact List.mem_singleton.1 hlast ▸ hf

end Steps

namespace EdgeProxy

theorem keeps (c : Config) : Keeps c proxy fun fetches p => CacheInv fetches p.cache where
  serveHTTP := by
    intro n lost r h hok
    show NodeInv c _ (EdgeProxy.serveHTTP c lost n r).1 ∧ Answers c n r (EdgeProxy.serveHTTP c lost n r)
    have hget := h.caches.get (cacheKey r)
    rw [EdgeProxy.serveHTTP]
    split
    · next x f hcached =>
      obtain ⟨f', hfresh, heq⟩ := Option.map_eq_some_iff.1 hcached
      obtain ⟨rfl, rfl⟩ := Prod.mk.inj heq
      obtain ⟨i, hi, hf, halive⟩ := fresh_eq_some hfresh
      obtain ⟨f, hnew⟩ := h.caches _ _ hi
      obtain rfl := Option.some_inj.1 (hf.symm.trans hnew.fetched)
      have hmade := h.log.made f' (List.mem_of_getElem? hf)
      refine ⟨⟨⟨h.log.made, h.log.right⟩, hget⟩, rfl, fun x e heq _ => ?_⟩
      cases heq
      exact ⟨i, f', hnew.servedFrom hmade (hok _ hcached).1 (fun _ => halive) nofun⟩
    · split
      · refine ⟨⟨⟨h.log.made, h.log.right⟩, hget⟩, rfl, fun x e heq _ => ?_⟩
        cases heq
      · next f cache' hfetch =>
        obtain ⟨hmade, hcache⟩ := hget.fetch hfetch
        refine ⟨⟨h.log.fetch hmade _, hcache⟩, rfl, fun x e heq hx => ?_⟩
        cases heq
        cases hx
  invalidate := by
    intro n key n' h hstep
    cases hstep
    exact ⟨⟨h.log.made, h.log.right⟩, h.caches.invalidate key⟩
  warmURL := fun _ _ _ _ _ _ _ h => by cases h
  revalidate := fun _ _ _ _ _ h => by cases h

end EdgeProxy

namespace CoalescingProxy

variable {n : Node CoalescingProxy}

/-- What is served from the cache is right. -/
theorem servedFrom_cached {c : Config} (h : NodeInv c (fun fetches p => CacheInv fetches p.cache) n)
    {r : Request} {x : XCache} {f : Fetch} (hcached : cached n r = some (x, f)) (hshare : Sharable c f r) :
    ∃ i, ServedFrom c ⟨r, n.now, n.fetches, x, f.entry⟩ i f := by
  rw [cached] at hcached
  split at hcached
  · cases hcached
  · split at hcached
    · next f' hfound =>
      obtain ⟨i, hi, hf⟩ := Option.bind_eq_some_iff.1 hfound
      obtain ⟨g, hnew⟩ := h.caches _ _ hi
      obtain rfl := Option.some_inj.1 (hf.symm.trans hnew.fetched)
      have hmade := h.log.made f' (List.mem_of_getElem? hf)
      refine ⟨i, ?_⟩
      split at hcached
      · next halive =>
        cases hcached
        have hle : n.now ≤ f.entry.expiresAt := by
          rw [CacheEntry.isExpired, Bool.not_eq_true', decide_eq_false_iff_not] at halive
          exact Int.not_lt.1 halive
        exact hnew.servedFrom hmade hshare (fun _ => hle) (by rintro ⟨⟩)
      · obtain ⟨hstale, heq⟩ := Option.ite_none_right_eq_some.1 hcached
        cases heq
        obtain ⟨hexpired, hbefore⟩ := Bool.and_eq_true_iff.1 hstale
        refine hnew.servedFrom hmade hshare (fun hne => absurd rfl hne) fun _ => ⟨of_decide_eq_true hexpired, hbefore⟩
    · cases hcached

theorem coalescedFetch_inv {c : Config} (h : NodeInv c (fun fetches p => CacheInv fetches p.cache) n)
    (lost : Option String) (r : Request) :
    NodeInv c (fun fetches p => CacheInv fetches p.cache) (coalescedFetch c lost n r (cacheKey r)).1
      ∧ (coalescedFetch c lost n r (cacheKey r)).1.now = n.now := by
  have hget := h.caches.get (cacheKey r)
  rw [coalescedFetch]
  dsimp only
  split
  · exact ⟨⟨⟨h.log.made, h.log.right⟩, hget⟩, rfl⟩
  · split
    · exact ⟨⟨⟨h.log.made, h.log.right⟩, hget⟩, rfl⟩
    · next f cache' hfetch =>
      obtain ⟨hmade, hcache⟩ := hget.fetch hfetch
      exact ⟨⟨h.log.fetch hmade _, hcache⟩, rfl⟩

theorem answers_of_fetch {c : Config} {r : Request} {out : Node CoalescingProxy × Reply}
    (hnow : out.1.now = n.now) (hreply : ∀ x e, out.2 = .entry x e → x.fromCache = false) : Answers c n r out :=
  ⟨hnow, fun x e heq hx => absurd (hreply x e heq) (by rw [hx]; nofun)⟩

theorem keeps (c : Config) : Keeps c proxy fun fetches p => CacheInv fetches p.cache where
  serveHTTP := by
    intro n lost r h hok
    show NodeInv c _ (serveHTTP c lost n r).1 ∧ Answers c n r (serveHTTP c lost n r)
    have hget := h.caches.get (cacheKey r)
    rw [serveHTTP]
    split
    · rw [handlePurge]
      dsimp only
      split
      · exact ⟨⟨⟨h.log.made, h.log.right⟩, h.caches⟩, answers_of_fetch rfl fun _ _ heq => by cases heq⟩
      · exact ⟨⟨⟨h.log.made, h.log.right⟩, h.caches.invalidate _⟩, answers_of_fetch rfl fun _ _ heq => by cases heq⟩
    · dsimp only
      split
      · next f hcached =>
        refine ⟨⟨⟨h.log.made, h.log.right⟩, hget⟩, rfl, fun x e heq _ => ?_⟩
        cases heq
        obtain ⟨i, hserved⟩ := servedFrom_cached h hcached (hok _ hcached).1
        exact ⟨i, f, hserved⟩
      · next x f _ hcached =>
        refine ⟨⟨⟨h.log.made, h.log.right⟩, hget⟩, rfl, fun x e heq _ => ?_⟩
        cases heq
        obtain ⟨i, hserved⟩ := servedFrom_cached h hcached (hok _ hcached).1
        exact ⟨i, f, hserved⟩
      · obtain ⟨hinv, hnow⟩ := coalescedFetch_inv (n := { n with proxy := { n.proxy with
          cache := (n.proxy.cache.get (cacheKey r)).2 } }) ⟨⟨h.log.made, h.log.right⟩, hget⟩ lost r
        split
        · next n' e heq =>
          rw [heq] at hinv hnow
          refine ⟨hinv, answers_of_fetch hnow fun x e' hreply => ?_⟩
          cases hreply
          rfl
        · next n' err staleEntry heq =>
          rw [heq] at hinv hnow
          split
          · refine ⟨hinv, answers_of_fetch hnow fun x e' hreply => ?_⟩
            cases hreply
            rfl
          · split
            · refine ⟨hinv, answers_of_fetch hnow fun x e' hreply => ?_⟩
              cases hreply
              rfl
            · exact ⟨hinv, answers_of_fetch hnow fun _ _ heq => by cases heq⟩
  invalidate := by
    intro n key n' h hstep
    cases hstep
    exact ⟨⟨h.log.made, h.log.right⟩, h.caches.invalidate key⟩
  warmURL := fun _ _ _ _ _ _ _ h => by cases h
  revalidate := by
    intro n lost k n' h hstep
    obtain ⟨r, -, rfl⟩ := Option.map_eq_some_iff.1 hstep
    rw [revalidate]
    split
    · exact ⟨⟨h.log.made, h.log.right⟩, h.caches⟩
    · next f cache' hfetch =>
      obtain ⟨hmade, hcache⟩ := h.caches.fetch hfetch
      exact ⟨h.log.fetch hmade _, hcache⟩

end CoalescingProxy

namespace TieredProxy

/-- The two tiers together have the latest fetch of each key: the first tier, or the second for a key that the first
does not have. The empty key is never demoted. -/
structure TierInv (fetches : List Fetch) (t : TieredProxy) : Prop where
  l1 : ∀ key i, t.l1.lookup key = some i → ∃ f, Newest fetches key i f
  l2 : ∀ key i, t.l1.lookup key = none → t.l2.lookup key = some i → ∃ f, Newest fetches key i f
  noEmpty : t.l2.lookup "" = none

variable {fetches : List Fetch} {t : TieredProxy} {f : Fetch}

theorem tierInv_insertL1 {key : String} {i : Nat} (hnew : Newest fetches key i f)
    (h1 : ∀ k j, k ≠ key → t.l1.lookup k = some j → ∃ g, Newest fetches k j g)
    (h2 : ∀ k j, k ≠ key → t.l1.lookup k = none → t.l2.lookup k = some j → ∃ g, Newest fetches k j g)
    (hempty : t.l2.lookup "" = none) : TierInv fetches (t.insertL1 key i) := by
  have hl1 : ∀ k j, (t.l1.set key i).1.lookup k = some j → ∃ g, Newest fetches k j g := by
    intro k j hj
    rcases Lru.lookup_of_set hj with ⟨rfl, rfl⟩ | ⟨hne, hold⟩
    · exact ⟨f, hnew⟩
    · exact h1 k j hne hold
  have hkey : ∀ k, (t.l1.set key i).1.lookup k = none → k ≠ key := by
    rintro k hnone rfl
    rw [Lru.lookup_set_self] at hnone
    cases hnone
  rcases Lru.set_cases t.l1 key i with ⟨hnone, hsame⟩ | ⟨k₀, i₀, hsome, hold₀, -, -, hsame⟩
  · have hinsert : t.insertL1 key i = { t with l1 := (t.l1.set key i).1 } := by
      rw [insertL1, hnone]
    rw [hinsert]
    exact ⟨hl1, fun k j hk hj => h2 k j (hkey k hk) ((hsame k (hkey k hk)).symm.trans hk) hj, hempty⟩
  · by_cases hk₀ : k₀ = ""
    · -- the empty key is dropped, and the second tier does not have it
      have hinsert : t.insertL1 key i = { t with l1 := (t.l1.set key i).1 } := by
        rw [insertL1, hsome]
        exact if_neg (not_not.2 hk₀)
      rw [hinsert]
      refine ⟨hl1, fun k j hk hj => ?_, hempty⟩
      have hne : k ≠ k₀ := by
        rintro rfl
        rw [hk₀, hempty] at hj
        cases hj
      exact h2 k j (hkey k hk) ((hsame k (hkey k hk) hne).symm.trans hk) hj
    · have hinsert : t.insertL1 key i = { t with l1 := (t.l1.set key i).1, l2 := (t.l2.set k₀ i₀).1 } := by
        rw [insertL1, hsome]
        exact if_pos hk₀
      rw [hinsert]
      refine ⟨hl1, fun k j hk hj => ?_, ?_⟩
      · rcases Lru.lookup_of_set hj with ⟨rfl, rfl⟩ | ⟨hne, hold⟩
        · exact h1 k j (hkey k hk) hold₀
        · exact h2 k j (hkey k hk) ((hsame k (hkey k hk) hne).symm.trans hk) hold
      · rw [Option.eq_none_iff_forall_ne_some]
        intro j hj
        rcases Lru.lookup_of_set hj with ⟨heq, -⟩ | ⟨-, hold⟩
        · exact hk₀ heq.symm
        · rw [hempty] at hold
          cases hold

theorem adapt_request (f : Fetch) (count : Nat) : (adapt f count).request = f.request := by
  rw [adapt]
  split <;> rfl

theorem adapt_made (c : Config) (now : Int) (r : Request) (count : Nat) : (adapt (makeFetch c now r) count).Made c := by
  rw [adapt]
  split
  · next hcount =>
    refine ⟨rfl, rfl, rfl, rfl, .inr ⟨min (count / 3 + 1) maxAdaptiveTTLMultiplier, ?_, Nat.min_le_right _ _, rfl⟩⟩
    have hdiv : 1 ≤ count / 3 := (Nat.le_div_iff_mul_le (by decide)).2 hcount
    exact Nat.le_min.2 ⟨Nat.succ_le_succ hdiv, by decide⟩
  · exact makeFetch_made c now r

theorem TierInv.append (h : TierInv fetches t) (hf : f.entry.isCacheable = false) : TierInv (fetches ++ [f]) t where
  l1 := fun key i hi => (h.l1 key i hi).imp fun _ hnew => hnew.append fun hc => absurd hc (by rw [hf]; nofun)
  l2 := fun key i hnone hi => (h.l2 key i hnone hi).imp fun _ hnew => hnew.append fun hc =>
    absurd hc (by rw [hf]; nofun)
  noEmpty := h.noEmpty

/-- A fetch goes to the first tier, if it is cacheable. -/
theorem TierInv.fetch (h : TierInv fetches t) (f : Fetch) : TierInv (fetches ++ [f])
      (if f.entry.isCacheable then t.insertL1 (cacheKey f.request) fetches.length else t) := by
  split
  · next hc =>
    refine tierInv_insertL1 (.last rfl hc) (fun k j hne hj => ?_) (fun k j hne hnone hj => ?_) h.noEmpty
    · exact (h.l1 k j hj).imp fun _ hnew => hnew.append fun _ => Ne.symm hne
    · exact (h.l2 k j hnone hj).imp fun _ hnew => hnew.append fun _ => Ne.symm hne
  · next hc => exact h.append (Bool.eq_false_iff.2 hc)

theorem TierInv.of_lookup {t' : TieredProxy} (h : TierInv fetches t)
    (h1 : ∀ key, t'.l1.lookup key = t.l1.lookup key) (h2 : ∀ key, t'.l2.lookup key = t.l2.lookup key) :
    TierInv fetches t' where
  l1 := fun key i hi => h.l1 key i ((h1 key).symm.trans hi)
  l2 := fun key i hnone hi => h.l2 key i ((h1 key).symm.trans hnone) ((h2 key).symm.trans hi)
  noEmpty := (h2 "").trans h.noEmpty

variable {n : Node TieredProxy}

theorem fetchAndCache_inv {c : Config} (h : NodeInv c TierInv n) (lost : Option String) (r : Request) :
    NodeInv c TierInv (fetchAndCache c lost n r (cacheKey r)).1
      ∧ (fetchAndCache c lost n r (cacheKey r)).1.now = n.now := by
  rw [fetchAndCache]
  split
  · exact ⟨h, rfl⟩
  · next f base hfetch =>
    obtain ⟨rfl, -⟩ := fetchFromOrigin_ok hfetch
    dsimp only
    generalize n.proxy.l2.lookup (cacheKey r) = existing
    obtain ⟨hmade, hkey⟩ : (adaptTo n.proxy existing (makeFetch c n.now r)).Made c
        ∧ cacheKey (adaptTo n.proxy existing (makeFetch c n.now r)).request = cacheKey r := by
      cases existing with
      | none => exact ⟨makeFetch_made c n.now r, rfl⟩
      | some j => exact ⟨adapt_made c n.now r _, congrArg cacheKey (adapt_request _ _)⟩
    have hused : TierInv n.fetches { n.proxy with
        base, l2 := (n.proxy.l2.get (cacheKey r)).2, accessCount := inheritCount n.proxy existing n.fetches.length } :=
      h.caches.of_lookup (fun _ => rfl) fun _ => Lru.lookup_get
    have hfetched := hused.fetch (adaptTo n.proxy existing (makeFetch c n.now r))
    rw [hkey] at hfetched
    exact ⟨⟨h.log.fetch hmade _, hfetched⟩, rfl⟩

theorem cached_cases {r : Request} {x : XCache} (h : cached n r = some (x, f)) :
    (x = .hitL1 ∧ fresh n.now n.fetches (n.proxy.l1.lookup (cacheKey r)) = some f)
    ∨ (x = .hitL2 ∧ fresh n.now n.fetches (n.proxy.l2.lookup (cacheKey r)) = some f) := by
  rw [cached] at h
  split at h
  · next f' hfresh =>
    cases h
    exact .inl ⟨rfl, hfresh⟩
  · obtain ⟨f', hfresh, heq⟩ := Option.map_eq_some_iff.1 h
    cases heq
    exact .inr ⟨rfl, hfresh⟩

theorem countHit_lookup (t : TieredProxy) (found : Option Nat) :
    (t.countHit found).l1 = t.l1 ∧ (t.countHit found).l2 = t.l2 := by
  cases found <;> exact ⟨rfl, rfl⟩

/-- What is served from a tier is right. -/
theorem servedFrom_found {c : Config} {r : Request} {x : XCache} {found : Option Nat} (h : LogInv c n)
    (hnew : ∀ i, found = some i → ∃ g, Newest n.fetches (cacheKey r) i g)
    (hfresh : fresh n.now n.fetches found = some f) (hshare : Sharable c f r) (hx : x ≠ .stale) :
    ∃ i, found = some i ∧ Newest n.fetches (cacheKey r) i f ∧ ServedFrom c ⟨r, n.now, n.fetches, x, f.entry⟩ i f := by
  obtain ⟨i, hi, hf, halive⟩ := fresh_eq_some hfresh
  obtain ⟨g, hg⟩ := hnew i hi
  obtain rfl := Option.some_inj.1 (hf.symm.trans hg.fetched)
  have hmade := h.made f (List.mem_of_getElem? hf)
  exact ⟨i, hi, hg, hg.servedFrom hmade hshare (fun _ => halive) fun hstale => absurd hstale hx⟩

theorem tierInv_initial : TierInv [] newTieredProxy :=
  ⟨fun _ _ h => (by cases h), fun _ _ _ h => (by cases h), rfl⟩

theorem keeps (c : Config) : Keeps c proxy TierInv where
  serveHTTP := by
    intro n lost r h hok
    show NodeInv c _ (TieredProxy.serveHTTP c lost n r).1 ∧ Answers c n r (TieredProxy.serveHTTP c lost n r)
    rw [TieredProxy.serveHTTP]
    dsimp only
    split
    · next f hcached =>
      rcases cached_cases hcached with ⟨-, hfresh⟩ | ⟨hx, -⟩
      · obtain ⟨i, -, -, hserved⟩ := servedFrom_found h.log (fun i => h.caches.l1 _ i) hfresh (hok _ hcached).1
          (x := .hitL1) nofun
        refine ⟨⟨⟨h.log.made, h.log.right⟩, h.caches.of_lookup (fun key => ?_) fun key => ?_⟩, rfl, fun x e heq _ => ?_⟩
        · rw [(countHit_lookup _ _).1]
          exact Lru.lookup_get
        · rw [(countHit_lookup _ _).2]
        · cases heq
          exact ⟨i, f, hserved⟩
      · cases hx
    · next x f hne hcached =>
      rcases cached_cases hcached with ⟨rfl, -⟩ | ⟨rfl, hfresh⟩
      · exact absurd rfl hne
      · have hnone : n.proxy.l1.lookup (cacheKey r) = none :=
          Option.isSome_eq_false_iff.1 ((hok _ hcached).2 rfl) |> Option.isNone_iff_eq_none.1
        obtain ⟨i, hi, hnew, hserved⟩ := servedFrom_found h.log (fun i => h.caches.l2 _ i hnone) hfresh (hok _ hcached).1
          (x := .hitL2) nofun
        refine ⟨⟨⟨h.log.made, h.log.right⟩, ?_⟩, rfl, fun x e heq _ => ?_⟩
        · rw [hi]
          have hused : TierInv n.fetches (countHit { n.proxy with
              l1 := (n.proxy.l1.get (cacheKey r)).2, l2 := (n.proxy.l2.get (cacheKey r)).2 } (some i)) :=
            h.caches.of_lookup (fun _ => Lru.lookup_get) fun _ => Lru.lookup_get
          exact tierInv_insertL1 hnew (fun k j _ hj => hused.l1 k j hj) (fun k j _ hk hj => hused.l2 k j hk hj)
            hused.noEmpty
        · cases heq
          exact ⟨i, f, hserved⟩
    · next hcached =>
      have hused : NodeInv c TierInv { n with proxy := { n.proxy with
          l1 := (n.proxy.l1.get (cacheKey r)).2, l2 := (n.proxy.l2.get (cacheKey r)).2 } } :=
        ⟨⟨h.log.made, h.log.right⟩, h.caches.of_lookup (fun _ => Lru.lookup_get) fun _ => Lru.lookup_get⟩
      obtain ⟨hinv, hnow⟩ := fetchAndCache_inv hused lost r
      split
      · next n' err heq =>
        rw [heq] at hinv hnow
        refine ⟨hinv, hnow, fun x e heq _ => ?_⟩
        cases heq
      · next n' f heq =>
        rw [heq] at hinv hnow
        refine ⟨hinv, hnow, fun x e heq hx => ?_⟩
        cases heq
        cases hx
  invalidate := fun _ _ _ _ h => by cases h
  warmURL := by
    intro n lost path rawPath rawQuery n' h hstep
    cases hstep
    exact (fetchAndCache_inv h lost _).1
  revalidate := fun _ _ _ _ _ h => by cases h

end TieredProxy

/-! ### Runs -/

/-- **What is served from a cache is right**, for the three proxies, in every run in which requests find entries that
they may be served. -/
theorem served_from_cache_right (c : Config) (now : Int) :
    (∀ (cacheSize : Nat) (n : Node EdgeProxy), ReachableIf (step c EdgeProxy.proxy)
      (FindsSharable c EdgeProxy.proxy) (.initial now (newEdgeProxy cacheSize)) n → Right c n)
    ∧ (∀ (cacheSize : Nat) (n : Node CoalescingProxy), ReachableIf (step c CoalescingProxy.proxy)
      (FindsSharable c CoalescingProxy.proxy) (.initial now (newCoalescingProxy cacheSize)) n → Right c n)
    ∧ ∀ n : Node TieredProxy, ReachableIf (step c TieredProxy.proxy)
      (FindsSharable c TieredProxy.proxy) (.initial now newTieredProxy) n → Right c n := by
  refine ⟨fun cacheSize n h => ?_, fun cacheSize n h => ?_, fun n h => ?_⟩
  · exact (NodeInv.of_run (EdgeProxy.keeps c) (CacheInv.empty cacheSize) h).log.right
  · exact (NodeInv.of_run (keeps c) (CacheInv.empty cacheSize) h).log.right
  · exact (NodeInv.of_run (TieredProxy.keeps c) TieredProxy.tierInv_initial h).log.right

def greeting (languages : List String) : List UInt8 :=
  if languages = ["fr"] then [0x42, 0x6F, 0x6E] else [0x48, 0x69]

/-- An origin that answers in the language of the request, and says so. -/
def languageOrigin : Origin where
  respond := fun _ r =>
    ⟨200, ⟨["max-age=10, stale-while-revalidate=20"], ["Accept-Language"]⟩, greeting (r.header "accept-language")⟩
  varies := by
    intro now r r' h
    have hlisted : "accept-language" ∈ ["Accept-Language"].flatMap varyFieldsOf := by decide
    show _ = (⟨_, _, greeting _⟩ : Response)
    rw [h.headers _ hlisted]

def languageConfig : Config :=
  ⟨languageOrigin, 10485760, fun _ => ""⟩

/-- A request in a language. -/
def languageRequest (path language : String) : Request :=
  ⟨"GET", path, path, "", [("accept-language", language)]⟩

/-- A page is requested, requested again while it is fresh, and requested when it is stale. -/
def sameLanguage : List Op :=
  [.request (languageRequest "/" "en") none, .tick 9000000000, .request (languageRequest "/" "en") none,
    .tick 9000000000, .request (languageRequest "/" "en") none, .revalidate 0 none,
    .request (languageRequest "/" "en") none]

/-- In that run a proxy of version 1 serves a hit, a stale entry and a hit again. -/
theorem served_from_cache_right_same_language : ∃ n : Node CoalescingProxy,
    ReachableIf (step languageConfig CoalescingProxy.proxy) (FindsSharable languageConfig CoalescingProxy.proxy)
      (.initial 0 (newCoalescingProxy 1000)) n
    ∧ n.served.map Served.xCache = [.hit, .stale, .hit, .miss] ∧ Right languageConfig n := by
  have hrun : (execIf (step languageConfig proxy) (fun n op => decide (FindsSharable languageConfig
      proxy n op)) (.initial 0 (newCoalescingProxy 1000)) sameLanguage).map
        (fun n => decide (n.served.map Served.xCache = [.hit, .stale, .hit, .miss])) = some true := by decide
  obtain ⟨n, hs, hfacts⟩ := Option.map_eq_some_iff.1 hrun
  have hreach : ReachableIf (step languageConfig proxy)
      (FindsSharable languageConfig proxy) (.initial 0 (newCoalescingProxy 1000)) n :=
    ReachableIf.init.execIf (fun _ _ => of_decide_eq_true) hs
  exact ⟨n, hreach, of_decide_eq_true hfacts, (served_from_cache_right languageConfig 0).2.1 1000 n hreach⟩

/-- A page is requested in one language and then in another. -/
def twoLanguages : List Op :=
  [.request (languageRequest "/" "en") none, .request (languageRequest "/" "fr") none]

/-- **The second request is served the page of the first**, which the origin gives in another language. -/
theorem other_language_served : ∃ n : Node CoalescingProxy,
    Reachable (step languageConfig CoalescingProxy.proxy) (.initial 0 (newCoalescingProxy 1000)) n
    ∧ ¬ Right languageConfig n := by
  have hrun : (exec (step languageConfig proxy) (.initial 0 (newCoalescingProxy 1000)) twoLanguages).map
      (fun n => (n.served.head?.map fun s => decide (s.xCache = .hit ∧ s.request = languageRequest "/" "fr"
        ∧ s.entry.body = [0x48, 0x69]))) = some (some true) := by rfl
  obtain ⟨n, hs, hfacts⟩ := Option.map_eq_some_iff.1 hrun
  obtain ⟨s, hserved, hfacts⟩ := Option.map_eq_some_iff.1 hfacts
  obtain ⟨hhit, hrequest, hbody⟩ := of_decide_eq_true hfacts
  refine ⟨n, reachable_of_exec hs, fun h => ?_⟩
  obtain ⟨i, f, hright⟩ := h s (List.mem_of_head? hserved) (by rw [hhit]; rfl)
  have hresponse := hright.body.symm.trans hbody
  rw [hright.origin, hrequest] at hresponse
  have hne : greeting ((languageRequest "/" "fr").header "accept-language") ≠ [0x48, 0x69] := by decide
  exact hne hresponse

end SystemDesignLabs.CdnEdge
