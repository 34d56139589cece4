import SystemDesignLabs.Core.SortedMap
import SystemDesignLabs.Core.TransitionSystem

/-!
# Leases and the storage server that they fence

The lease-based lock manager and the storage server of `lock.go`. Instants are integers; a call that reads
the clock twice takes both readings as arguments. The counter and the tokens are integers: the counter does
not overflow in the lifetime of a process.
-/

namespace SystemDesignLabs.DistLock

open Core Prod

/-! ### The lock manager -/

structure LockEntry where
  owner : String
  token : Int
  expiresAt : Int
  deriving DecidableEq

/-- The deadline has passed. -/
def LockEntry.isExpired (now : Int) (e : LockEntry) : Bool := decide (e.expiresAt < now)

@[simp] theorem LockEntry.isExpired_iff {now : Int} {e : LockEntry} : e.isExpired now = true ↔ e.expiresAt < now :=
  decide_eq_true_iff

structure LockManager where
  entries : SortedMap String LockEntry
  counter : Int
  deriving DecidableEq

def newLockManager : LockManager := ⟨.empty, 0⟩

namespace LockManager

/-- Is the resource locked, with a lease that has not expired? -/
def isHeld (m : LockManager) (now : Int) (resource : String) : Bool :=
  match m.entries.get resource with
  | some existing => !existing.isExpired now
  | none => false

/-- Take the lock, with the next token, if it is free at `now`. The deadline is computed from the second
reading of the clock. -/
def acquire (m : LockManager) (now later : Int) (resource owner : String) (ttl : Int) : LockManager × Int × Bool :=
  if m.isHeld now resource then (m, 0, false)
  else
    let token := m.counter + 1
    (⟨m.entries.insert resource ⟨owner, token, later + ttl⟩, token⟩, token, true)

/-- Free the lock if the token is that of its holder, also after the deadline. -/
def release (m : LockManager) (resource : String) (token : Int) : LockManager × Bool :=
  match m.entries.get resource with
  | none => (m, false)
  | some entry => if entry.token ≠ token then (m, false) else ({ m with entries := m.entries.erase resource }, true)

/-- Move the deadline if owner and token are those of the lease and it has not expired. -/
def renew (m : LockManager) (now later : Int) (resource owner : String) (token ttl : Int) : LockManager × Bool :=
  match m.entries.get resource with
  | none => (m, false)
  | some entry =>
    if entry.token ≠ token ∨ entry.owner ≠ owner then (m, false)
    else if entry.isExpired now then (m, false)
    else ({ m with entries := m.entries.insert resource { entry with expiresAt := later + ttl } }, true)

/-- The lease of the resource, unless it has expired. -/
def state (m : LockManager) (now : Int) (resource : String) : Option LockEntry :=
  match m.entries.get resource with
  | none => none
  | some entry => if entry.isExpired now then none else some entry

end LockManager

/-! ### The storage server -/

structure StorageEntry where
  value : String
  token : Int
  deriving DecidableEq

/-- `ErrStaleFencingToken`, with the two tokens of its text. -/
structure StaleFencingToken where
  got : Int
  lastAccepted : Int
  deriving DecidableEq

structure StorageServer where
  lastToken : Int
  data : SortedMap String StorageEntry
  deriving DecidableEq

def newStorageServer : StorageServer := ⟨0, .empty⟩

namespace StorageServer

/-- Store a value, unless a larger token has been accepted, whatever the key. -/
def write (s : StorageServer) (key value : String) (token : Int) : Except StaleFencingToken StorageServer :=
  if token < s.lastToken then .error ⟨token, s.lastToken⟩
  else .ok ⟨token, s.data.insert key ⟨value, token⟩⟩

def read (s : StorageServer) (key : String) : Option StorageEntry := s.data.get key

end StorageServer

/-! ### What the calls do -/

section Lemmas

variable {m : LockManager} {now later : Int} {resource owner : String} {token ttl : Int}

theorem isHeld_of_get {e : LockEntry} (hget : m.entries.get resource = some e) (hnow : now ≤ e.expiresAt) :
    m.isHeld now resource = true := by
  have hvalid : e.isExpired now = false :=
    Bool.eq_false_iff.2 fun h => Int.not_lt.2 hnow (LockEntry.isExpired_iff.1 h)
  rw [LockManager.isHeld, hget]
  simp only [hvalid, Bool.not_false]

theorem state_eq_some {e : LockEntry} :
    m.state now resource = some e ↔ m.entries.get resource = some e ∧ now ≤ e.expiresAt := by
  rw [LockManager.state]
  cases m.entries.get resource with
  | none => exact iff_of_false (fun h => nomatch h) (fun h => nomatch h.1)
  | some e' =>
    dsimp only
    by_cases hexpired : e'.isExpired now
    · rw [if_pos hexpired]
      refine iff_of_false (fun h => nomatch h) ?_
      rintro ⟨h, hnow⟩
      cases h
      exact absurd (LockEntry.isExpired_iff.1 hexpired) (Int.not_lt.2 hnow)
    · rw [if_neg hexpired]
      constructor
      · intro h
        cases h
        exact ⟨rfl, Int.not_lt.1 fun h => hexpired (LockEntry.isExpired_iff.2 h)⟩
      · exact fun h => h.1

variable {m' : LockManager}

theorem release_eq_true (h : m.release resource token = (m', true)) :
    (∃ e, m.entries.get resource = some e ∧ e.token = token) ∧ m' = { m with entries := m.entries.erase resource } := by
  rw [LockManager.release] at h
  cases hget : m.entries.get resource with
  | none =>
    rw [hget] at h
    exact nomatch (mk.inj h).2
  | some e =>
    rw [hget] at h
    dsimp only at h
    split at h
    · exact nomatch (mk.inj h).2
    · rename_i htoken
      exact ⟨⟨e, rfl, not_not.1 htoken⟩, (mk.inj h).1.symm⟩

theorem release_eq_false (h : m.release resource token = (m', false)) : m' = m := by
  rw [LockManager.release] at h
  cases hget : m.entries.get resource with
  | none =>
    rw [hget] at h
    exact (mk.inj h).1.symm
  | some e =>
    rw [hget] at h
    dsimp only at h
    split at h
    · exact (mk.inj h).1.symm
    · exact nomatch (mk.inj h).2

theorem renew_eq_true (h : m.renew now later resource owner token ttl = (m', true)) :
    ∃ e, m.entries.get resource = some e ∧ e.token = token ∧ e.owner = owner ∧ now ≤ e.expiresAt ∧
      m' = { m with entries := m.entries.insert resource { e with expiresAt := later + ttl } } := by
  rw [LockManager.renew] at h
  cases hget : m.entries.get resource with
  | none =>
    rw [hget] at h
    exact nomatch (mk.inj h).2
  | some e =>
    rw [hget] at h
    dsimp only at h
    split at h
    · exact nomatch (mk.inj h).2
    · rename_i hmatch
      split at h
      · exact nomatch (mk.inj h).2
      · rename_i hvalid
        obtain ⟨htoken, howner⟩ := not_or.1 hmatch
        refine ⟨e, rfl, not_not.1 htoken, not_not.1 howner, ?_, (mk.inj h).1.symm⟩
        exact Int.not_lt.1 fun h => hvalid (LockEntry.isExpired_iff.2 h)

theorem renew_eq_false (h : m.renew now later resource owner token ttl = (m', false)) : m' = m := by
  rw [LockManager.renew] at h
  cases hget : m.entries.get resource with
  | none =>
    rw [hget] at h
    exact (mk.inj h).1.symm
  | some e =>
    rw [hget] at h
    dsimp only at h
    split at h
    · exact (mk.inj h).1.symm
    · split at h
      · exact (mk.inj h).1.symm
      · exact nomatch (mk.inj h).2

end Lemmas

/-!
## Safety of leases and fencing tokens

Clients take, renew and release leases on any resources and write to one storage server, whenever they like
after they obtained a token. A resource has at most one unexpired lease, tokens grow in the order of
acquisition, and accepted tokens never go down. The server compares a token with the largest one accepted for
any key, so that a rightful holder is rejected exactly when a larger token, of another resource, has been
accepted (`rejected_iff`).
-/

open List Option SortedMap

/-! ### Runs -/

/-- A lease as the client that it was granted to knows it. -/
structure Lease extends LockEntry where
  resource : String
  deriving DecidableEq

/-- The manager, the server, and what happened: the leases that were granted and not released, the tokens
with their resources in the order of acquisition, and the accepted tokens in the order of acceptance. -/
structure World where
  manager : LockManager
  server : StorageServer
  now : Int
  leases : List Lease
  issued : List (String × Int)
  accepted : List Int
  deriving DecidableEq

inductive Op where
  | acquire (resource owner : String) (ttl : Int) (pause : Nat)
  | release (resource : String) (token : Int)
  | renew (resource owner : String) (token ttl : Int) (pause : Nat)
  | tick (elapsed : Nat)
  | write (key value : String) (token : Int)
  deriving DecidableEq

/-- The lease after a successful renewal. -/
def Lease.renewed (l : Lease) (resource : String) (token expiresAt : Int) : Lease :=
  if l.resource = resource ∧ l.token = token then { l with expiresAt := expiresAt } else l

/-- One step. The two readings of the clock in a call are a pause apart; writes carry a token that was
obtained before. -/
def step (w : World) : Op → Option World
  | .acquire resource owner ttl pause =>
    let later := w.now + pause
    match w.manager.acquire w.now later resource owner ttl with
    | (manager, token, true) => some { w with
        manager := manager
        now := later
        leases := ⟨⟨owner, token, later + ttl⟩, resource⟩ :: w.leases
        issued := w.issued ++ [(resource, token)] }
    | (manager, _, false) => some { w with manager := manager, now := later }
  | .release resource token =>
    match w.manager.release resource token with
    | (manager, true) => some { w with
        manager := manager
        leases := w.leases.filter fun l => ¬ (l.resource = resource ∧ l.token = token) }
    | (manager, false) => some { w with manager := manager }
  | .renew resource owner token ttl pause =>
    let later := w.now + pause
    match w.manager.renew w.now later resource owner token ttl with
    | (manager, true) => some { w with
        manager := manager
        now := later
        leases := w.leases.map fun l => l.renewed resource token (later + ttl) }
    | (manager, false) => some { w with manager := manager, now := later }
  | .tick elapsed => some { w with now := w.now + elapsed }
  | .write key value token =>
    if token ∈ w.issued.map Prod.snd then
      match w.server.write key value token with
      | .ok server => some { w with server := server, accepted := w.accepted ++ [token] }
      | .error _ => some w
    else none

def init (start : Int) : World := ⟨newLockManager, newStorageServer, start, [], [], []⟩

/-- Would the server reject a write with this token? -/
def World.Rejects (w : World) (key value : String) (token : Int) : Prop :=
  ∃ e, w.server.write key value token = .error e

/-- What the locks and the server guarantee. -/
structure Safe (w : World) : Prop where
  oneLease : ∀ l ∈ w.leases, ∀ l' ∈ w.leases, l.resource = l'.resource → w.now ≤ l.expiresAt →
    w.now ≤ l'.expiresAt → l = l'
  increasing : w.issued.Pairwise fun a b => a.2 < b.2
  fenced : w.accepted.Pairwise (· ≤ ·) ∧
    ∀ t ∈ w.accepted, ∀ t', t' < t → ∀ key value, w.Rejects key value t'
  holder : ∀ resource e, w.manager.state w.now resource = some e → ∀ key value,
    (w.Rejects key value e.token ↔
      ∃ other t, (other, t) ∈ w.issued ∧ t ∈ w.accepted ∧ e.token < t ∧ other ≠ resource)

/-- Each write carries a token of the one resource that guards its key. -/
def Guarded (guards : String → String) (w : World) : Op → Prop
  | .write key _ token => (guards key, token) ∈ w.issued
  | _ => True

instance (guards : String → String) (w : World) (op : Op) : Decidable (Guarded guards w op) := by
  cases op <;> unfold Guarded <;> infer_instance

/-! ### The invariant -/

/-- The table of the manager is what the holders of unexpired leases think it is. -/
structure Inv (w : World) : Prop where
  positive : ∀ r t, (r, t) ∈ w.issued → 0 < t ∧ t ≤ w.manager.counter
  counter : 0 ≤ w.manager.counter
  increasing : w.issued.Pairwise fun a b => a.2 < b.2
  entry : ∀ r e, w.manager.entries.get r = some e →
    (r, e.token) ∈ w.issued ∧ ∀ t, (r, t) ∈ w.issued → t ≤ e.token
  lease : ∀ l ∈ w.leases, w.now ≤ l.expiresAt → w.manager.entries.get l.resource = some l.toLockEntry
  granted : ∀ l ∈ w.leases, (l.resource, l.token) ∈ w.issued
  same : ∀ l ∈ w.leases, ∀ e, w.manager.entries.get l.resource = some e → e.token = l.token → e = l.toLockEntry
  accepted : w.accepted.Pairwise (· ≤ ·)
  last : ∀ t ∈ w.accepted, t ≤ w.server.lastToken
  source : w.server.lastToken = 0 ∨ w.server.lastToken ∈ w.accepted
  obtained : ∀ t ∈ w.accepted, t ∈ w.issued.map Prod.snd

theorem rejects_iff {w : World} {key value : String} {token : Int} :
    w.Rejects key value token ↔ token < w.server.lastToken := by
  rw [World.Rejects, StorageServer.write]
  constructor
  · rintro ⟨e, h⟩
    by_contra hlt
    rw [if_neg hlt] at h
    exact nomatch h
  · intro hlt
    exact ⟨_, if_pos hlt⟩

/-- A rightful holder is rejected exactly after a larger token of another resource. -/
theorem Inv.rejected_iff {w : World} (h : Inv w) {resource : String} {e : LockEntry}
    (hstate : w.manager.state w.now resource = some e) (key value : String) : w.Rejects key value e.token ↔
      ∃ other t, (other, t) ∈ w.issued ∧ t ∈ w.accepted ∧ e.token < t ∧ other ≠ resource := by
  obtain ⟨hissued, hmax⟩ := h.entry resource e (state_eq_some.1 hstate).1
  rw [rejects_iff]
  constructor
  · intro hlt
    have hpos := (h.positive _ _ hissued).1
    have hlast : w.server.lastToken ∈ w.accepted := h.source.resolve_left (by omega)
    obtain ⟨⟨other, t⟩, hother, rfl⟩ := mem_map.1 (h.obtained _ hlast)
    refine ⟨other, _, hother, hlast, hlt, ?_⟩
    rintro rfl
    have := hmax _ hother
    omega
  · rintro ⟨other, t, -, haccepted, hlt, -⟩
    have := h.last t haccepted
    omega

theorem Inv.safe {w : World} (h : Inv w) : Safe w where
  oneLease l hl l' hl' hresource hnow hnow' := by
    have hentry := h.lease l hl hnow
    rw [hresource, h.lease l' hl' hnow'] at hentry
    cases l
    cases l'
    cases some.inj hentry
    cases hresource
    rfl
  increasing := h.increasing
  fenced := by
    refine ⟨h.accepted, fun t ht t' hlt key value => rejects_iff.2 ?_⟩
    have := h.last t ht
    omega
  holder _ _ hstate := h.rejected_iff hstate

/-! ### Steps -/

section Steps

variable {w : World}

theorem Inv.later (h : Inv w) (elapsed : Nat) : Inv { w with now := w.now + elapsed } where
  positive := h.positive
  counter := h.counter
  increasing := h.increasing
  entry := h.entry
  lease l hl hnow := h.lease l hl (by
    dsimp only at hnow
    omega)
  granted := h.granted
  same := h.same
  accepted := h.accepted
  last := h.last
  source := h.source
  obtained := h.obtained

variable {w' : World}

theorem inv_acquire (h : Inv w) {resource owner : String} {ttl : Int} {pause : Nat}
    (hstep : step w (.acquire resource owner ttl pause) = some w') : Inv w' := by
  rw [step, LockManager.acquire] at hstep
  by_cases hheld : w.manager.isHeld w.now resource
  · simp only [if_pos hheld] at hstep
    cases hstep
    exact h.later pause
  · simp only [if_neg hheld] at hstep
    cases hstep
    have hnew : ∀ r t, (r, t) ∈ w.issued → t < w.manager.counter + 1 := fun r t ht => by
      have := (h.positive r t ht).2
      omega
    have hcounter := h.counter
    constructor
    · intro r t ht
      rcases mem_append.1 ht with ht | ht
      · have := h.positive r t ht
        dsimp only
        omega
      · cases mem_singleton.1 ht
        dsimp only
        omega
    · dsimp only
      omega
    · rw [pairwise_append]
      refine ⟨h.increasing, pairwise_singleton _ _, fun a ha b hb => ?_⟩
      cases mem_singleton.1 hb
      exact hnew a.1 a.2 ha
    · intro r e hget
      dsimp only at hget
      rw [get_insert] at hget
      split at hget
      · rename_i hr
        cases hget
        subst hr
        refine ⟨mem_append_right _ (mem_singleton.2 rfl), fun t ht => ?_⟩
        rcases mem_append.1 ht with ht | ht
        · exact Int.le_of_lt (hnew _ t ht)
        · cases mem_singleton.1 ht
          exact Int.le_refl _
      · rename_i hr
        obtain ⟨hissued, hmax⟩ := h.entry r e hget
        refine ⟨mem_append_left _ hissued, fun t ht => ?_⟩
        rcases mem_append.1 ht with ht | ht
        · exact hmax t ht
        · cases mem_singleton.1 ht
          exact absurd rfl hr
    · intro l hl hnow
      dsimp only at hnow ⊢
      rw [get_insert]
      rcases mem_cons.1 hl with rfl | hl
      · rw [if_pos rfl]
      · have hold := h.lease l hl (by omega)
        split
        · -- an unexpired lease would have kept the resource
          rename_i hr
          subst hr
          exact absurd (isHeld_of_get hold (by omega)) hheld
        · exact hold
    · intro l hl
      rcases mem_cons.1 hl with rfl | hl
      · exact mem_append_right _ (mem_singleton.2 rfl)
      · exact mem_append_left _ (h.granted l hl)
    · intro l hl e hget htoken
      dsimp only at hget
      rw [get_insert] at hget
      rcases mem_cons.1 hl with rfl | hl
      · rw [if_pos rfl] at hget
        exact (some.inj hget).symm
      · split at hget
        · cases hget
          have := hnew _ _ (h.granted l hl)
          dsimp only at htoken
          omega
        · exact h.same l hl e hget htoken
    · exact h.accepted
    · exact h.last
    · exact h.source
    · intro t ht
      rw [map_append]
      exact mem_append_left _ (h.obtained t ht)

theorem inv_release (h : Inv w) {resource : String} {token : Int}
    (hstep : step w (.release resource token) = some w') : Inv w' := by
  rw [step] at hstep
  split at hstep
  · rename_i manager hrelease
    cases hstep
    obtain ⟨⟨e, hget, htoken⟩, rfl⟩ := release_eq_true hrelease
    constructor
    · exact h.positive
    · exact h.counter
    · exact h.increasing
    · intro r e' hget'
      dsimp only at hget'
      rw [get_erase] at hget'
      split at hget'
      · exact nomatch hget'
      · exact h.entry r e' hget'
    · intro l hl hnow
      obtain ⟨hl, hother⟩ := mem_filter.1 hl
      have hold := h.lease l hl hnow
      dsimp only
      rw [get_erase]
      split
      · -- the lease of this resource is the one that is released
        rename_i hr
        subst hr
        rw [hget] at hold
        cases some.inj hold
        exact absurd ⟨rfl, htoken⟩ (of_decide_eq_true hother)
      · exact hold
    · exact fun l hl => h.granted l (mem_of_mem_filter hl)
    · intro l hl e' hget'
      dsimp only at hget'
      rw [get_erase] at hget'
      split at hget'
      · exact nomatch hget'
      · exact h.same l (mem_of_mem_filter hl) e' hget'
    · exact h.accepted
    · exact h.last
    · exact h.source
    · exact h.obtained
  · rename_i manager hrelease
    cases hstep
    rw [release_eq_false hrelease]
    exact h

theorem inv_renew (h : Inv w) {resource owner : String} {token ttl : Int} {pause : Nat}
    (hstep : step w (.renew resource owner token ttl pause) = some w') : Inv w' := by
  rw [step] at hstep
  split at hstep
  · rename_i manager hrenew
    cases hstep
    obtain ⟨e, hget, htoken, -, hvalid, rfl⟩ := renew_eq_true hrenew
    -- what the renewal makes of a lease and of the entry of its resource
    have hrenewed : ∀ l ∈ w.leases, (l.resource = resource ∧ l.token = token →
        l.toLockEntry = e ∧ l.renewed resource token (w.now + pause + ttl) =
          ⟨{ e with expiresAt := w.now + pause + ttl }, resource⟩) := by
      rintro l hl ⟨hr, ht⟩
      have hsame := h.same l hl e (hr ▸ hget) (htoken.trans ht.symm)
      refine ⟨hsame.symm, ?_⟩
      rw [Lease.renewed, if_pos ⟨hr, ht⟩, hsame, ← hr]
    constructor
    · exact h.positive
    · exact h.counter
    · exact h.increasing
    · intro r e' hget'
      dsimp only at hget'
      rw [get_insert] at hget'
      split at hget'
      · rename_i hr
        cases hget'
        subst hr
        exact h.entry _ e hget
      · exact h.entry r e' hget'
    · intro l' hl' hnow
      obtain ⟨l, hl, rfl⟩ := mem_map.1 hl'
      dsimp only at hnow ⊢
      rw [get_insert]
      by_cases hthis : l.resource = resource ∧ l.token = token
      · rw [(hrenewed l hl hthis).2, if_pos rfl]
      · rw [Lease.renewed, if_neg hthis] at hnow ⊢
        have hold := h.lease l hl (by omega)
        split
        · rename_i hr
          subst hr
          rw [hget] at hold
          cases some.inj hold
          exact absurd ⟨rfl, htoken⟩ hthis
        · exact hold
    · intro l' hl'
      obtain ⟨l, hl, rfl⟩ := mem_map.1 hl'
      have hgranted := h.granted l hl
      rw [Lease.renewed]
      split <;> exact hgranted
    · intro l' hl' e' hget' htoken'
      obtain ⟨l, hl, rfl⟩ := mem_map.1 hl'
      dsimp only at hget'
      rw [get_insert] at hget'
      by_cases hthis : l.resource = resource ∧ l.token = token
      · rw [(hrenewed l hl hthis).2, if_pos rfl] at hget'
        rw [(hrenewed l hl hthis).2]
        exact (some.inj hget').symm
      · rw [Lease.renewed, if_neg hthis] at hget' htoken' ⊢
        split at hget'
        · rename_i hr
          cases hget'
          exact absurd ⟨hr, htoken'.symm.trans htoken⟩ hthis
        · exact h.same l hl e' hget' htoken'
    · exact h.accepted
    · exact h.last
    · exact h.source
    · exact h.obtained
  · rename_i manager hrenew
    cases hstep
    rw [renew_eq_false hrenew]
    exact h.later pause

theorem inv_write (h : Inv w) {key value : String} {token : Int}
    (hstep : step w (.write key value token) = some w') : Inv w' := by
  obtain ⟨hobtained, hstep⟩ := ite_none_right_eq_some.1 hstep
  rw [StorageServer.write] at hstep
  by_cases hlt : token < w.server.lastToken
  · rw [if_pos hlt] at hstep
    cases hstep
    exact h
  · rw [if_neg hlt] at hstep
    cases hstep
    have hle : ∀ t ∈ w.accepted, t ≤ token := fun t ht => by
      have := h.last t ht
      omega
    constructor
    · exact h.positive
    · exact h.counter
    · exact h.increasing
    · exact h.entry
    · exact h.lease
    · exact h.granted
    · exact h.same
    · rw [pairwise_append]
      refine ⟨h.accepted, pairwise_singleton _ _, fun a ha b hb => ?_⟩
      exact mem_singleton.1 hb ▸ hle a ha
    · intro t ht
      rcases mem_append.1 ht with ht | ht
      · exact hle t ht
      · exact Int.le_of_eq (mem_singleton.1 ht)
    · exact .inr (mem_append_right _ (mem_singleton.2 rfl))
    · intro t ht
      rcases mem_append.1 ht with ht | ht
      · exact h.obtained t ht
      · exact mem_singleton.1 ht ▸ hobtained

theorem inv_step (h : Inv w) {op : Op} (hstep : step w op = some w') : Inv w' := by
  cases op with
  | acquire resource owner ttl pause => exact inv_acquire h hstep
  | release resource token => exact inv_release h hstep
  | renew resource owner token ttl pause => exact inv_renew h hstep
  | tick elapsed =>
    cases hstep
    exact h.later elapsed
  | write key value token => exact inv_write h hstep

end Steps

/-- **Leases and tokens are safe in every run.** -/
theorem safe_of_reachable {start : Int} {w : World} (h : Reachable step (init start) w) : Safe w := by
  have hinit : Inv (init start) :=
    ⟨fun _ _ h => (nomatch h), Int.le_refl 0, .nil, fun _ _ h => (nomatch h), fun _ h => (nomatch h),
      fun _ h => (nomatch h), fun _ h => (nomatch h), .nil, fun _ h => (nomatch h), .inl rfl, fun _ h => (nomatch h)⟩
  exact (h.invariant (I := Inv) hinit fun _ _ _ _ hw _ hstep => inv_step hw hstep).safe

/-- Two resources, a renewal, a release and writes of the newer holder and of the one before it. -/
theorem safe_of_reachable_five : ∃ w, w.issued = [("a", 1), ("b", 2), ("a", 3)] ∧ w.accepted = [1, 3] ∧ Safe w := by
  have hrun : (exec step (init 0) [.acquire "a" "x" 5 1, .renew "a" "x" 1 7 0, .write "k" "u" 1,
      .acquire "b" "y" 9 0, .release "b" 2, .tick 8, .acquire "a" "y" 5 0, .write "k" "v" 3, .write "k" "w" 1]).map
        (fun w => decide (w.issued = [("a", 1), ("b", 2), ("a", 3)] ∧ w.accepted = [1, 3])) = some true := by
    rfl
  obtain ⟨w, hw, hfacts⟩ := map_eq_some_iff.1 hrun
  obtain ⟨hissued, haccepted⟩ := of_decide_eq_true hfacts
  exact ⟨w, hissued, haccepted, safe_of_reachable (reachable_of_exec hw)⟩

/-- **A rightful holder can be rejected**: the holder of `b` has written its own key with a larger token. -/
theorem rightful_holder_rejected :
    ¬ ∀ guards start w, ReachableIf step (Guarded guards) (init start) w → ∀ key e,
      w.manager.state w.now (guards key) = some e → ∀ value, ¬ w.Rejects key value e.token := by
  intro h
  have hrun : (execIf step (fun w op => decide (Guarded id w op)) (init 0)
      [.acquire "a" "x" 5 0, .acquire "b" "y" 5 0, .write "b" "v" 2]).map
        (fun w => decide (w.manager.state w.now "a" = some ⟨"x", 1, 5⟩ ∧ 1 < w.server.lastToken)) = some true := by
    rfl
  obtain ⟨w, hw, hfacts⟩ := map_eq_some_iff.1 hrun
  obtain ⟨hstate, hlt⟩ := of_decide_eq_true hfacts
  exact h id 0 w (ReachableIf.init.execIf (fun _ _ => of_decide_eq_true) hw) "a" _ hstate "u"
    (rejects_iff.2 hlt)

end SystemDesignLabs.DistLock
