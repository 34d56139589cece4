import SystemDesignLabs.CdnEdge.Coalescing

/-!
# Coalescing and purges

A key has at most one registered flight, and a request that found it is given what the fetch of its leader ended
with (`Inv`, in every run). A purged response can still be answered with: by a fetch that stores it after the purge,
and by a flight that a later request joins. In runs in which neither happens, whatever a goroutine holds was asked
for after every purge that its request began after (`PurgeInv`).
-/

namespace SystemDesignLabs.CdnEdge.Coalescing

open Option (bind_eq_some_iff ite_none_right_eq_some map_eq_some_iff some_inj)

open Core

/-! ### Statements -/

namespace Stage

/-- The flight that a goroutine has registered and not removed yet. -/
def registered : Stage → Option Nat
  | .unsent (.leader flight _) => some flight
  | .sent (.leader flight _) _ => some flight
  | .storing (.leader flight _) _ => some flight
  | .fetched flight _ _ => some flight
  | _ => none

/-- From the call of `fetchFromOrigin` until its result is given to the waiters. -/
def fetching : Stage → Bool
  | .unsent _ => true
  | .sent _ _ => true
  | .storing _ _ => true
  | .fetched _ _ _ => true
  | .published _ _ _ => true
  | _ => false

end Stage

/-- Coalescing: one fetch per key is registered, its waiters are given what it ended with, and a fetch changes
the cache only by the step in which it ends with an entry. -/
structure Coalesced (c : Setup) (s : Edge) : Prop where
  oneFetch : ∀ (k k' : Nat) (t t' : Task), s.tasks[k]? = some t → s.tasks[k']? = some t' →
    t.stage.registered.isSome → t'.stage.registered.isSome → t.key = t'.key → k = k'
  ended : (s.results.map Prod.fst).Nodup
  joined : ∀ j ∈ s.joins, ∃ f : Flight, s.flights[j.flight]? = some f ∧ (f.leader, j.result) ∈ s.results
  kept : ∀ (a : Act) (s' : Edge) (k : Nat) (t : Task), a.task = some k → s.tasks[k]? = some t → t.stage.fetching → s.step c a = some s' →
    s'.cache = s.cache ∨ ∃ f, f.entry.isCacheable ∧ s'.results = (k, .entry f) :: s.results

/-- An origin request was sent after every purge of the key that came before the given moment. -/
def Edge.SentAfter (s : Edge) (key : String) (limit sentAt : Nat) : Prop :=
  ∀ p ∈ s.purges, p.1 = key → p.2 < limit → p.2 < sentAt

instance (s : Edge) (key : String) (limit sentAt : Nat) : Decidable (s.SentAfter key limit sentAt) :=
  inferInstanceAs (Decidable (∀ p ∈ s.purges, p.1 = key → p.2 < limit → p.2 < sentAt))

def Answer.response? : Answer → Option Fetched
  | .response _ f => some f
  | _ => none

/-- Purges are observed: no request is answered with a response whose origin request was sent before a purge of
its key that came before the request. -/
def PurgesObserved (s : Edge) : Prop :=
  ∀ a ∈ s.answers, ∀ f ∈ a.answer.response?, s.SentAfter (cacheKey a.request) a.begunAt f.sentAt

/-- The flight that a goroutine is about to join. -/
def Edge.joining (s : Edge) (t : Task) : Option Flight :=
  match t.stage with
  | .locked _ again =>
    match again.filter fun f => !f.entry.isExpired s.now with
    | some _ => none
    | none => (s.inflight t.key).bind fun flight => s.flights[flight]?
  | _ => none

/-- The response that a goroutine is about to store. -/
def Stage.stores : Stage → Option Fetched
  | .storing _ f => some f
  | _ => none

/-- No response is stored after a purge of its key that came after its origin request, and no request joins a
flight whose origin request was sent before a purge of the key that the request began after. -/
def InTime (s : Edge) : Act → Prop
  | .run k => ∀ t ∈ s.tasks[k]?,
      (∀ f ∈ t.stage.stores, s.SentAfter t.key s.moment f.sentAt)
      ∧ ∀ sentAt ∈ (s.joining t).bind Flight.sentAt, s.SentAfter t.key t.begunAt sentAt
  | _ => True

instance (s : Edge) (a : Act) : Decidable (InTime s a) := by
  cases a
  case run k =>
    exact inferInstanceAs (Decidable (∀ t ∈ s.tasks[k]?,
      (∀ f ∈ t.stage.stores, s.SentAfter t.key s.moment f.sentAt)
      ∧ ∀ sentAt ∈ (s.joining t).bind Flight.sentAt, s.SentAfter t.key t.begunAt sentAt))
  all_goals exact isTrue trivial

/-! ### One flight per key -/

namespace Stage

/-- For whom a goroutine fetches. -/
def caller : Stage → Option Caller
  | .unsent caller => some caller
  | .sent caller _ => some caller
  | .storing caller _ => some caller
  | _ => none

/-- The flight that a goroutine has registered and not closed yet. -/
def led : Stage → Option Nat
  | .published flight _ _ => some flight
  | stage => stage.registered

/-- What a flight is like while its leader is at a stage. -/
def Describes (stage : Stage) (f : Flight) : Prop :=
  match stage with
  | .unsent _ => f.sentAt = none ∧ f.result = none
  | .sent _ sentAt => f.sentAt = some sentAt ∧ f.result = none
  | .storing _ r => f.sentAt = some r.sentAt ∧ f.result = none
  | .fetched _ _ result => (∀ r ∈ result.response, f.sentAt = some r.sentAt) ∧ f.result = none
  | .published _ _ result => f.result = some result
  | _ => True

/-- The fetch of a goroutine has not ended. -/
def unended : Stage → Bool
  | .waiting _ _ => false
  | .fetched _ _ _ => false
  | .published _ _ _ => false
  | .returned _ _ => false
  | .done => false
  | _ => true

/-- What the fetch of a leader has ended with. -/
def endedWith : Stage → Option Result
  | .fetched _ _ result => some result
  | .published _ _ result => some result
  | _ => none

end Stage

/-- Where the `k`-th goroutine stands. -/
structure TaskInv (s : Edge) (k : Nat) (t : Task) : Prop where
  led : ∀ flight, t.stage.led = some flight →
    ∃ f, s.flights[flight]? = some f ∧ f.leader = k ∧ t.stage.Describes f
  registered : ∀ flight, t.stage.registered = some flight → s.inflight t.key = some flight
  unended : t.stage.unended → ∀ r, (k, r) ∉ s.results
  endedWith : ∀ r, t.stage.endedWith = some r → (k, r) ∈ s.results
  stores : ∀ f, t.stage.stores = some f → f.entry.isCacheable

/-- A flight has the result of its leader's fetch. -/
structure FlightInv (s : Edge) (f : Flight) : Prop where
  result : ∀ r, f.result = some r → (f.leader, r) ∈ s.results
  sentAt : ∀ r, f.result = some r → ∀ e ∈ r.response, f.sentAt = some e.sentAt

/-- What holds in every run. -/
structure Inv (s : Edge) : Prop where
  tasks : ∀ (k : Nat) (t : Task), s.tasks[k]? = some t → TaskInv s k t
  flights : ∀ (flight : Nat) (f : Flight), s.flights[flight]? = some f → FlightInv s f
  flying : ∀ (key : String) (flight : Nat), s.inflight key = some flight → ∃ f : Flight, s.flights[flight]? = some f
  known : ∀ e ∈ s.results, ∃ t : Task, s.tasks[e.1]? = some t
  ended : (s.results.map Prod.fst).Nodup
  joins : ∀ j ∈ s.joins, ∃ f : Flight, s.flights[j.flight]? = some f ∧ f.result = some j.result

variable {s s' : Edge} {k : Nat} {t t' : Task}

variable {stage : Stage}

theorem Stage.led_of_registered {flight : Nat} (h : stage.registered = some flight) :
    stage.led = some flight := by
  cases stage <;> first | exact h | cases h

theorem Stage.led_of_endedWith {r : Result} (h : stage.endedWith = some r) : stage.led ≠ none := by
  intro hnone
  cases stage <;> cases h <;> cases hnone

theorem Stage.registered_of_caller {flight : Nat} {stale : Option Fetched}
    (h : stage.caller = some (.leader flight stale)) : stage.registered = some flight := by
  cases stage <;> cases h <;> rfl

theorem Stage.unended_of_caller {caller : Caller} (h : stage.caller = some caller) :
    stage.unended = true := by
  cases stage <;> first | rfl | cases h

theorem TaskInv.idle (hled : t.stage.led = none) (hunended : t.stage.unended → ∀ r, (k, r) ∉ s.results)
    (hstores : ∀ f, t.stage.stores = some f → f.entry.isCacheable) : TaskInv s k t where
  led := fun flight h => by rw [hled] at h; cases h
  registered := fun flight h => by rw [Stage.led_of_registered h] at hled; cases hled
  unended := hunended
  endedWith := fun r h => absurd hled (Stage.led_of_endedWith h)
  stores := hstores

namespace Inv

section

variable (h : Inv s)
include h

/-- A step of one goroutine keeps the invariant if it leaves alone the flights that others lead. -/
theorem advance (htasks : Updated s.tasks k t' s'.tasks) (hself : TaskInv s' k t')
    (hothers : ∀ (flight : Nat) (f : Flight), s.flights[flight]? = some f → f.leader ≠ k →
      s'.flights[flight]? = some f ∧ ∀ key, s.inflight key = some flight → s'.inflight key = some flight)
    (hresults : s.results ⊆ s'.results) (hnew : ∀ e ∈ s'.results, e ∈ s.results ∨ e.1 = k)
    (hflying : ∀ key flight, s'.inflight key = some flight → ∃ f : Flight, s'.flights[flight]? = some f)
    (hflights : ∀ (flight : Nat) (f : Flight), s'.flights[flight]? = some f → FlightInv s' f)
    (hended : (s'.results.map Prod.fst).Nodup)
    (hjoins : ∀ j ∈ s'.joins, ∃ f : Flight, s'.flights[j.flight]? = some f ∧ f.result = some j.result) : Inv s' where
  tasks := by
    intro i u hu
    rcases htasks.cases hu with ⟨rfl, rfl⟩ | ⟨hne, hu⟩
    · exact hself
    · have hold := h.tasks i u hu
      refine ⟨fun flight hled => ?_, fun flight hreg => ?_, fun hun r hr => ?_, fun r hr => ?_, hold.stores⟩
      · obtain ⟨f, hf, hleader, hdescribes⟩ := hold.led flight hled
        exact ⟨f, (hothers flight f hf (hleader ▸ hne)).1, hleader, hdescribes⟩
      · obtain ⟨f, hf, hleader, -⟩ := hold.led flight (Stage.led_of_registered hreg)
        exact (hothers flight f hf (hleader ▸ hne)).2 _ (hold.registered flight hreg)
      · exact hold.unended hun r ((hnew _ hr).resolve_right hne)
      · exact hresults (hold.endedWith r hr)
  flights := hflights
  flying := hflying
  known := by
    intro e he
    by_cases hk : e.1 = k
    · exact ⟨t', hk ▸ htasks.self⟩
    · obtain ⟨u, hu⟩ := h.known e ((hnew e he).resolve_right hk)
      exact ⟨u, (htasks.other hk).trans hu⟩
  ended := hended
  joins := hjoins

/-- A step that concerns one goroutine only. -/
theorem goOn (htasks : Updated s.tasks k t' s'.tasks) (hself : TaskInv s k t')
    (hflights : s'.flights = s.flights) (hinflight : s'.inflight = s.inflight) (hresults : s'.results = s.results)
    (hjoins : ∀ j ∈ s'.joins, j ∈ s.joins
      ∨ ∃ f : Flight, s.flights[j.flight]? = some f ∧ f.result = some j.result) : Inv s' := by
  refine h.advance htasks ⟨?_, ?_, ?_, ?_, hself.stores⟩ ?_ ?_ ?_ ?_ ?_ ?_ ?_
  · rw [hflights]
    exact hself.led
  · rw [hinflight]
    exact hself.registered
  · rw [hresults]
    exact hself.unended
  · rw [hresults]
    exact hself.endedWith
  · rw [hflights, hinflight]
    exact fun flight f hf _ => ⟨hf, fun _ hkey => hkey⟩
  · rw [hresults]
    exact List.Subset.refl _
  · rw [hresults]
    exact fun e he => .inl he
  · rw [hflights, hinflight]
    exact h.flying
  · rw [hflights]
    intro flight f hf
    have hold := h.flights flight f hf
    exact ⟨hresults ▸ hold.result, hold.sentAt⟩
  · rw [hresults]
    exact h.ended
  · rw [hflights]
    exact fun j hj => (hjoins j hj).elim (h.joins j) id

theorem start (request : Request) {stage : Stage} (hled : stage.led = none) (hstores : stage.stores = none) :
    Inv (s.start request stage) := by
  refine h.goOn (updated_push s.tasks _) (.idle hled (fun _ r hr => ?_) fun f hf => ?_) rfl rfl rfl fun j hj => .inl hj
  · obtain ⟨u, hu⟩ := h.known _ hr
    rw [List.getElem?_eq_none (Nat.le_refl _)] at hu
    cases hu
  · rw [hstores] at hf
    cases hf

section

variable (ht : s.tasks[k]? = some t)
include ht

theorem idle {stage : Stage}
    (htasks : s'.tasks = s.tasks.modify k fun t => { t with stage }) (hled : stage.led = none)
    (hunended : stage.unended → t.stage.unended) (hstores : ∀ f, stage.stores = some f → f.entry.isCacheable)
    (hflights : s'.flights = s.flights) (hinflight : s'.inflight = s.inflight) (hresults : s'.results = s.results)
    (hjoins : ∀ j ∈ s'.joins, j ∈ s.joins
      ∨ ∃ f : Flight, s.flights[j.flight]? = some f ∧ f.result = some j.result) : Inv s' :=
  h.goOn (htasks ▸ updated_modify ht _) (.idle hled (fun hun => (h.tasks k t ht).unended (hunended hun)) hstores)
    hflights hinflight hresults hjoins

theorem reply (cache : Lru String Fetched) (purges : List (String × Nat))
    (answer : Answer) : Inv ({ s with cache, purges }.reply k t answer) :=
  h.idle ht rfl rfl nofun nofun rfl rfl rfl fun _ hj => .inl hj

theorem serveHTTP (hstage : t.stage = .begun) (c : Setup) :
    Inv (s.serveHTTP c k t) := by
  rw [Edge.serveHTTP]
  split
  · rw [Edge.handlePurge]
    split
    · exact h.reply ht _ _ _
    · exact h.reply ht _ _ _
  · exact h.idle ht rfl rfl (fun _ => hstage ▸ rfl) (by rintro _ ⟨⟩) rfl rfl rfl fun _ hj => .inl hj

theorem serveFound {found : Option Fetched} (hstage : t.stage = .looked found) :
    Inv (s.serveFound k t found) := by
  have hmissed : Inv (s.goTo k .missed) :=
    h.idle ht rfl rfl (fun _ => hstage ▸ rfl) nofun rfl rfl rfl fun _ hj => .inl hj
  unfold Edge.serveFound
  split
  · split
    · exact h.reply ht _ _ _
    · split
      · exact (h.reply ht _ _ _).start _ rfl rfl
      · exact hmissed
  · exact hmissed

theorem serveResult (stale : Option Fetched) (result : Result) :
    Inv (s.serveResult k t stale result) := by
  unfold Edge.serveResult
  split
  · exact h.reply ht _ _ _
  · split <;> exact h.reply ht _ _ _
  · split <;> exact h.reply ht _ _ _

theorem keepStale (hstage : t.stage = .missed) : Inv (s.keepStale k t) :=
  h.idle ht rfl rfl (fun _ => hstage ▸ rfl) nofun rfl rfl rfl fun _ hj => .inl hj

end

end

variable {stale : Option Fetched}

theorem lock (h : Inv s) (ht : s.tasks[k]? = some t) (hstage : t.stage = .kept stale)
    (hs : s.lock k t stale = some s') : Inv s' := by
  obtain ⟨-, hs⟩ := ite_none_right_eq_some.1 hs
  cases hs
  exact h.idle ht rfl rfl (fun _ => hstage ▸ rfl) nofun rfl rfl rfl fun _ hj => .inl hj

variable {flight : Nat}

/-- A waiter is given the result of the flight. -/
theorem wake (h : Inv s) (ht : s.tasks[k]? = some t) (hs : s.wake k flight stale = some s') : Inv s' := by
  obtain ⟨result, hresult, rfl⟩ := map_eq_some_iff.1 hs
  obtain ⟨f, hf, hresult⟩ := bind_eq_some_iff.1 hresult
  obtain ⟨-, hresult⟩ := ite_none_right_eq_some.1 hresult
  have hjoins : ∀ j ∈ (⟨flight, result⟩ : Join) :: s.joins, j ∈ s.joins
      ∨ ∃ f : Flight, s.flights[j.flight]? = some f ∧ f.result = some j.result := by
    intro j hj
    rcases List.mem_cons.1 hj with rfl | hj
    · exact .inr ⟨f, hf, hresult⟩
    · exact .inl hj
  exact h.idle ht rfl rfl nofun nofun rfl rfl rfl hjoins

theorem setFlight_others (s : Edge) {f : Flight} (hf : s.flights[flight]? = some f) (hleader : f.leader = k)
    (g : Flight → Flight) {i : Nat} {e : Flight} (he : s.flights[i]? = some e) (hne : e.leader ≠ k) :
    (s.setFlight flight g).flights[i]? = some e := by
  rcases (updated_modify hf g).of_old he with rfl | hsame
  · rw [hf] at he
    cases he
    exact absurd hleader hne
  · exact hsame

theorem lead (h : Inv s) (ht : s.tasks[k]? = some t) {f : Flight} (hf : s.flights[flight]? = some f)
    (hleader : f.leader = k) {g : Flight → Flight} {stage : Stage}
    (hkept : ∀ r, f.result = some r → (g f).result = some r) (hflight : FlightInv s (g f))
    (hflying : ∀ key i, s'.inflight key = some i → s.inflight key = some i)
    (hinflight : ∀ key i e, s.flights[i]? = some e → e.leader ≠ k → s.inflight key = some i → s'.inflight key = some i)
    (hflights : s'.flights = (s.setFlight flight g).flights)
    (htasks : s'.tasks = s.tasks.modify k fun t => { t with stage }) (hresults : s'.results = s.results)
    (hjoins : s'.joins = s.joins) (hself : TaskInv s' k { t with stage }) : Inv s' := by
  have hupdated : Updated s.flights flight (g f) s'.flights := hflights ▸ updated_modify hf g
  have hnew : ∀ (i : Nat) (e : Flight), s.flights[i]? = some e → ∀ r, e.result = some r →
      ∃ e' : Flight, s'.flights[i]? = some e' ∧ e'.result = some r := by
    intro i e he r hr
    rcases hupdated.of_old he with rfl | hsame
    · rw [hf] at he
      cases he
      exact ⟨g f, hupdated.self, hkept r hr⟩
    · exact ⟨e, hsame, hr⟩
  refine h.advance (htasks ▸ updated_modify ht _) hself ?_ ?_ ?_ ?_ ?_ ?_ ?_
  · intro i e he hne
    refine ⟨?_, fun key hkey => hinflight key i e he hne hkey⟩
    rw [hflights]
    exact setFlight_others s hf hleader g he hne
  · rw [hresults]
    exact List.Subset.refl _
  · rw [hresults]
    exact fun e he => .inl he
  · intro key i hi
    obtain ⟨e, he⟩ := h.flying key i (hflying key i hi)
    rcases hupdated.of_old he with rfl | hsame
    · exact ⟨_, hupdated.self⟩
    · exact ⟨e, hsame⟩
  · intro i e he
    have hold : FlightInv s e := by
      rcases hupdated.cases he with ⟨-, rfl⟩ | ⟨-, he⟩
      · exact hflight
      · exact h.flights i e he
    exact ⟨hresults ▸ hold.result, hold.sentAt⟩
  · rw [hresults]
    exact h.ended
  · rw [hjoins]
    intro j hj
    obtain ⟨e, he, hr⟩ := h.joins j hj
    exact hnew _ e he _ hr

theorem joinOrRegister (h : Inv s) (ht : s.tasks[k]? = some t) {stale again : Option Fetched}
    (hstage : t.stage = .locked stale again) : Inv (s.joinOrRegister k t stale again) := by
  rw [Edge.joinOrRegister]
  split
  · exact h.idle ht rfl rfl nofun nofun rfl rfl rfl fun _ hj => .inl hj
  · split
    · exact h.idle ht rfl rfl nofun nofun rfl rfl rfl fun _ hj => .inl hj
    · next hnone =>
      have hnew : Updated s.flights s.flights.length ⟨k, none, none, false⟩ _ := updated_push s.flights _
      refine h.advance (updated_modify ht _) ⟨?_, ?_, ?_, nofun, nofun⟩ ?_ (List.Subset.refl _) (fun e he => .inl he)
        ?_ ?_ h.ended ?_
      · rintro flight hled
        cases hled
        exact ⟨_, hnew.self, rfl, rfl, rfl⟩
      · rintro flight hreg
        cases hreg
        exact Function.update_self ..
      · exact fun _ => (h.tasks k t ht).unended (hstage ▸ rfl)
      · refine fun flight f hf hne => ⟨getElem?_push_of_some hf, fun key hkey => ?_⟩
        have hother : key ≠ t.key := by
          rintro rfl
          rw [hnone] at hkey
          cases hkey
        exact (Function.update_of_ne hother ..).trans hkey
      · intro key i hi
        have hi : Function.update s.inflight t.key (some s.flights.length) key = some i := hi
        rw [Function.update_apply] at hi
        split at hi
        · cases hi
          exact ⟨_, hnew.self⟩
        · obtain ⟨f, hf⟩ := h.flying key i hi
          exact ⟨f, getElem?_push_of_some hf⟩
      · intro flight f hf
        rcases hnew.cases hf with ⟨-, rfl⟩ | ⟨-, hf⟩
        · exact ⟨nofun, nofun⟩
        · exact ⟨(h.flights flight f hf).result, (h.flights flight f hf).sentAt⟩
      · intro j hj
        obtain ⟨f, hf, hr⟩ := h.joins j hj
        exact ⟨f, getElem?_push_of_some hf, hr⟩

variable {result : Result}

theorem publish (h : Inv s) (ht : s.tasks[k]? = some t) (hstage : t.stage = .fetched flight stale result)
    (hs : s.publish k t flight stale result = some s') : Inv s' := by
  obtain ⟨-, hs⟩ := ite_none_right_eq_some.1 hs
  cases hs
  have hself := h.tasks k t ht
  obtain ⟨f, hf, hleader, hdescribes⟩ := hself.led flight (by rw [hstage]; rfl)
  rw [hstage] at hdescribes
  have hended : (k, result) ∈ s.results := hself.endedWith result (by rw [hstage]; rfl)
  have hregistered := hself.registered flight (by rw [hstage]; rfl)
  refine h.lead (g := fun f => { f with result := some result }) ht hf hleader ?_ ⟨?_, ?_⟩ ?_ ?_ rfl rfl rfl rfl ?_
  · intro r hr
    rw [hdescribes.2] at hr
    cases hr
  · rintro r hr
    cases hr
    exact hleader ▸ hended
  · rintro r hr
    cases hr
    exact hdescribes.1
  · intro key i hi
    by_cases hkey : key = t.key
    · subst hkey
      cases (Function.update_self ..).symm.trans hi
    · exact (Function.update_of_ne hkey ..).symm.trans hi
  · intro key i e he hne hkey
    have hother : key ≠ t.key := by
      rintro rfl
      rw [hregistered] at hkey
      cases hkey
      rw [hf] at he
      cases he
      exact hne hleader
    exact (Function.update_of_ne hother ..).trans hkey
  · refine ⟨fun i hi => ?_, nofun, nofun, fun r hr => ?_, nofun⟩
    · cases hi
      exact ⟨_, (updated_modify hf _).self, hleader, rfl⟩
    · cases hr
      exact hended

theorem closeDone (h : Inv s) (ht : s.tasks[k]? = some t) (hstage : t.stage = .published flight stale result) :
    Inv (s.closeDone k flight stale result) := by
  obtain ⟨f, hf, hleader, -⟩ := (h.tasks k t ht).led flight (by rw [hstage]; rfl)
  have hold := h.flights flight f hf
  exact h.lead (g := fun f => { f with closed := true }) ht hf hleader (fun _ hr => hr) ⟨hold.result, hold.sentAt⟩
    (fun _ _ hi => hi) (fun _ _ _ _ _ hkey => hkey) rfl rfl rfl rfl (.idle rfl nofun nofun)

variable {caller : Caller}

theorem send (h : Inv s) (ht : s.tasks[k]? = some t) (hstage : t.stage = .unsent caller) :
    Inv (s.send k caller) := by
  have hself := h.tasks k t ht
  have hunended := hself.unended (hstage ▸ rfl)
  cases caller with
  | revalidation => exact h.idle ht rfl rfl (fun _ => hstage ▸ rfl) nofun rfl rfl rfl fun _ hj => .inl hj
  | leader flight stale =>
    obtain ⟨f, hf, hleader, hdescribes⟩ := hself.led flight (by rw [hstage]; rfl)
    rw [hstage] at hdescribes
    have hregistered := hself.registered flight (by rw [hstage]; rfl)
    have hno : ∀ r, f.result ≠ some r := fun r hr => by rw [hdescribes.2] at hr; cases hr
    refine h.lead (g := fun f => { f with sentAt := some s.moment }) ht hf hleader (fun _ hr => hr)
      ⟨fun r hr => absurd hr (hno r), fun r hr => absurd hr (hno r)⟩ (fun _ _ hi => hi) (fun _ _ _ _ _ hkey => hkey) rfl rfl rfl rfl ?_
    refine ⟨fun i hi => ?_, fun i hi => ?_, fun _ => hunended, nofun, nofun⟩
    · cases hi
      exact ⟨_, (updated_modify hf _).self, hleader, rfl, hdescribes.2⟩
    · cases hi
      exact hregistered

/-- A fetch ends, after whatever it has done to the cache. -/
theorem finish (h : Inv s) (ht : s.tasks[k]? = some t) (hcaller : t.stage.caller = some caller)
    (cache : Lru String Fetched)
    (hdescribes : ∀ flight stale f, t.stage.Describes f → (Stage.fetched flight stale result).Describes f) :
    Inv ({ s with cache }.finish k caller result) := by
  have hself := h.tasks k t ht
  have hunended := hself.unended (Stage.unended_of_caller hcaller)
  have hended : (((k, result) :: s.results).map Prod.fst).Nodup := by
    refine List.nodup_cons.2 ⟨fun hmem => ?_, h.ended⟩
    obtain ⟨⟨i, r⟩, he, hik⟩ := List.mem_map.1 hmem
    have hik : i = k := hik
    exact hunended r (hik ▸ he)
  have hnew : ∀ e ∈ (k, result) :: s.results, e ∈ s.results ∨ e.1 = k := by
    intro e he
    rcases List.mem_cons.1 he with rfl | he
    · exact .inr rfl
    · exact .inl he
  have hflights : ∀ (i : Nat) (f : Flight), s.flights[i]? = some f →
      ∀ r, f.result = some r → (f.leader, r) ∈ (k, result) :: s.results :=
    fun i f hf r hr => List.mem_cons_of_mem _ ((h.flights i f hf).result r hr)
  cases caller with
  | revalidation =>
    exact h.advance (updated_modify ht _) (.idle rfl nofun nofun) (fun i f hf _ => ⟨hf, fun _ hkey => hkey⟩)
      (List.subset_cons_self _ _) hnew h.flying (fun i f hf => ⟨hflights i f hf, (h.flights i f hf).sentAt⟩) hended h.joins
  | leader flight stale =>
    have hregistered := Stage.registered_of_caller hcaller
    obtain ⟨f, hf, hleader, hdesc⟩ := hself.led flight (Stage.led_of_registered hregistered)
    refine h.advance (updated_modify ht _) ⟨fun i hi => ?_, fun i hi => ?_, nofun, fun r hr => ?_, nofun⟩
      (fun i f hf _ => ⟨hf, fun _ hkey => hkey⟩)
      (List.subset_cons_self _ _) hnew h.flying (fun i f hf => ⟨hflights i f hf, (h.flights i f hf).sentAt⟩) hended h.joins
    · cases hi
      exact ⟨f, hf, hleader, hdescribes flight stale f hdesc⟩
    · cases hi
      exact hself.registered flight hregistered
    · cases hr
      exact List.mem_cons_self

theorem receive (h : Inv s) (ht : s.tasks[k]? = some t) {sentAt : Nat}
    (hstage : t.stage = .sent caller sentAt) (c : Setup) (resp : Response) :
    Inv (s.receive c k caller sentAt resp) := by
  have hself := h.tasks k t ht
  rw [Edge.receive]
  split
  · next hcacheable =>
    have hnew : TaskInv s k { t with stage := .storing caller ⟨newEntry c.maxBytes s.now resp, sentAt⟩ } := by
      refine ⟨fun i hi => ?_, fun i hi => ?_, fun _ => hself.unended (hstage ▸ rfl), nofun, fun f hf => ?_⟩
      · cases caller with
        | revalidation => cases hi
        | leader flight stale =>
          cases hi
          obtain ⟨f, hf, hleader, hdescribes⟩ := hself.led i (by rw [hstage]; rfl)
          rw [hstage] at hdescribes
          exact ⟨f, hf, hleader, hdescribes⟩
      · cases caller with
        | revalidation => cases hi
        | leader flight stale =>
          cases hi
          exact hself.registered i (by rw [hstage]; rfl)
      · cases hf
        exact hcacheable
    exact h.goOn (updated_modify ht _) hnew rfl rfl rfl fun _ hj => .inl hj
  · refine h.finish ht (by rw [hstage]; rfl) s.cache fun flight stale f hdescribes => ?_
    rw [hstage] at hdescribes
    refine ⟨fun r hr => ?_, hdescribes.2⟩
    split at hr
    · cases hr
      exact hdescribes.1
    · cases hr
      exact hdescribes.1

theorem store (h : Inv s) (ht : s.tasks[k]? = some t) {f : Fetched} (hstage : t.stage = .storing caller f) :
    Inv (s.store k t caller f) := by
  refine h.finish ht (by rw [hstage]; rfl) _ fun flight stale e hdescribes => ?_
  rw [hstage] at hdescribes
  refine ⟨fun r hr => ?_, hdescribes.2⟩
  cases hr
  exact hdescribes.1

theorem fail (h : Inv s) (ht : s.tasks[k]? = some t) {err : String} (hs : s.fail k t err = some s') : Inv s' := by
  unfold Edge.fail at hs
  split at hs
  · next caller hstage =>
    cases hs
    exact h.finish ht (by rw [hstage]; rfl) s.cache fun flight stale f hdescribes =>
      ⟨nofun, by rw [hstage] at hdescribes; exact hdescribes.2⟩
  · next caller sentAt hstage =>
    cases hs
    exact h.finish ht (by rw [hstage]; rfl) s.cache fun flight stale f hdescribes =>
      ⟨nofun, by rw [hstage] at hdescribes; exact hdescribes.2⟩
  · cases hs

theorem run (h : Inv s) (ht : s.tasks[k]? = some t) (c : Setup) (hs : s.run c k t = some s') : Inv s' := by
  unfold Edge.run at hs
  split at hs
  · next hstage => exact some_inj.1 hs ▸ h.serveHTTP ht hstage c
  · next hstage => exact some_inj.1 hs ▸ h.serveFound ht hstage
  · next hstage => exact some_inj.1 hs ▸ h.keepStale ht hstage
  · next hstage => exact h.lock ht hstage hs
  · next hstage => exact some_inj.1 hs ▸ h.joinOrRegister ht hstage
  · exact h.wake ht hs
  · next hstage => exact some_inj.1 hs ▸ h.send ht hstage
  · cases hs
  · next hstage => exact some_inj.1 hs ▸ h.store ht hstage
  · next hstage => exact h.publish ht hstage hs
  · next hstage => exact some_inj.1 hs ▸ h.closeDone ht hstage
  · exact some_inj.1 hs ▸ h.serveResult ht _ _
  · cases hs

theorem reset (h : Inv s) (moment : Nat) (now : Int) (cache : Lru String Fetched) (purges : List (String × Nat)) :
    Inv { s with moment, now, cache, purges } where
  tasks := fun k t ht =>
    ⟨(h.tasks k t ht).led, (h.tasks k t ht).registered, (h.tasks k t ht).unended, (h.tasks k t ht).endedWith,
      (h.tasks k t ht).stores⟩
  flights := fun i f hf => ⟨(h.flights i f hf).result, (h.flights i f hf).sentAt⟩
  flying := h.flying
  known := h.known
  ended := h.ended
  joins := h.joins

variable {c : Setup}

theorem act (h : Inv s) {a : Act} (hs : s.act c a = some s') : Inv s' := by
  cases a with
  | tick d =>
    cases hs
    exact h.reset _ _ _ _
  | request r =>
    cases hs
    exact h.start r rfl rfl
  | invalidate key =>
    cases hs
    exact h.reset _ _ _ _
  | run k =>
    obtain ⟨t, ht, hs⟩ := bind_eq_some_iff.1 hs
    exact h.run ht c hs
  | respond k resp =>
    obtain ⟨t, ht, hs⟩ := bind_eq_some_iff.1 hs
    unfold Edge.respond at hs
    split at hs
    · next hstage => exact some_inj.1 hs ▸ h.receive ht hstage c resp
    · cases hs
  | fail k err =>
    obtain ⟨t, ht, hs⟩ := bind_eq_some_iff.1 hs
    exact h.fail ht hs

theorem step (h : Inv s) {a : Act} (hs : s.step c a = some s') : Inv s' := by
  obtain ⟨s₁, hs₁, rfl⟩ := map_eq_some_iff.1 hs
  exact (h.act hs₁).reset _ _ _ _

theorem initial (now : Int) (cacheSize : Nat) : Inv (.initial now cacheSize) where
  tasks := fun _ _ ht => by cases (ht : none = some _)
  flights := fun _ _ hf => by cases (hf : none = some _)
  flying := fun _ _ hi => by cases hi
  known := fun _ he => absurd he List.not_mem_nil
  ended := List.nodup_nil
  joins := fun _ hj => absurd hj List.not_mem_nil

theorem of_run {now : Int} {cacheSize : Nat} {ok : Edge → Act → Prop}
    (h : ReachableIf (Edge.step c) ok (.initial now cacheSize) s) : Inv s :=
  h.invariant (initial now cacheSize) fun _ _ _ _ hinv _ hstep => hinv.step hstep

/-- A fetch changes the cache only by storing the entry that it ends with. -/
theorem kept (h : Inv s) {a : Act} (ha : a.task = some k) (ht : s.tasks[k]? = some t)
    (hfetching : t.stage.fetching = true) (hs : s.step c a = some s') :
    s'.cache = s.cache ∨ ∃ f, f.entry.isCacheable ∧ s'.results = (k, .entry f) :: s.results := by
  obtain ⟨s₁, hact, rfl⟩ := map_eq_some_iff.1 hs
  have hfinish : ∀ (s : Edge) caller result, (s.finish k caller result).cache = s.cache
      ∧ (s.finish k caller result).results = (k, result) :: s.results := by
    intro s caller result
    cases caller <;> exact ⟨rfl, rfl⟩
  cases a with
  | tick d => cases ha
  | request r => cases ha
  | invalidate key => cases ha
  | run i =>
    cases ha
    obtain ⟨u, hu, hact⟩ := bind_eq_some_iff.1 hact
    cases ht.symm.trans hu
    unfold Edge.run at hact
    split at hact <;> rename_i hstage <;> rw [hstage] at hfetching
    iterate 6 · cases hfetching
    · next caller =>
      cases hact
      cases caller <;> exact .inl rfl
    · cases hact
    · next caller f =>
      cases hact
      exact .inr ⟨f, (h.tasks k t ht).stores f (by rw [hstage]; rfl), (hfinish _ caller (.entry f)).2⟩
    · obtain ⟨-, hact⟩ := ite_none_right_eq_some.1 hact
      cases hact
      exact .inl rfl
    · cases hact
      exact .inl rfl
    · cases hfetching
    · cases hfetching
  | respond i resp =>
    obtain ⟨u, hu, hact⟩ := bind_eq_some_iff.1 hact
    cases ha
    unfold Edge.respond at hact
    split at hact
    · cases hact
      rw [Edge.receive]
      split
      · exact .inl rfl
      · exact .inl (hfinish s _ _).1
    · cases hact
  | fail i err =>
    obtain ⟨u, hu, hact⟩ := bind_eq_some_iff.1 hact
    cases ha
    unfold Edge.fail at hact
    split at hact
    · cases hact
      exact .inl (hfinish s _ _).1
    · cases hact
      exact .inl (hfinish s _ _).1
    · cases hact

/-- The invariant is what the result says. -/
theorem coalesced (h : Inv s) (c : Setup) : Coalesced c s where
  oneFetch := by
    intro k k' t t' ht ht' hreg hreg' hkey
    obtain ⟨flight, hflight⟩ := Option.isSome_iff_exists.1 hreg
    obtain ⟨flight', hflight'⟩ := Option.isSome_iff_exists.1 hreg'
    have hone := (h.tasks k t ht).registered flight hflight
    have htwo := (h.tasks k' t' ht').registered flight' hflight'
    rw [hkey, htwo] at hone
    cases hone
    obtain ⟨f, hf, hleader, -⟩ := (h.tasks k t ht).led flight (Stage.led_of_registered hflight)
    obtain ⟨f', hf', hleader', -⟩ := (h.tasks k' t' ht').led flight (Stage.led_of_registered hflight')
    rw [hf] at hf'
    cases hf'
    exact hleader.symm.trans hleader'
  ended := h.ended
  joined := by
    intro j hj
    obtain ⟨f, hf, hresult⟩ := h.joins j hj
    exact ⟨f, hf, (h.flights _ f hf).result _ hresult⟩
  kept := fun _ _ _ _ ha ht hfetching hs => h.kept ha ht hfetching hs

end Inv

/-! ### Purges -/

/-- The moments at which the responses that a goroutine holds were asked for. -/
def Stage.sentAts : Stage → List Nat
  | .looked found => found.toList.map Fetched.sentAt
  | .kept stale => stale.toList.map Fetched.sentAt
  | .locked stale again => stale.toList.map Fetched.sentAt ++ again.toList.map Fetched.sentAt
  | .waiting _ stale => stale.toList.map Fetched.sentAt
  | .unsent (.leader _ stale) => stale.toList.map Fetched.sentAt
  | .sent (.leader _ stale) sentAt => sentAt :: stale.toList.map Fetched.sentAt
  | .storing (.leader _ stale) f => f.sentAt :: stale.toList.map Fetched.sentAt
  | .fetched _ stale result => result.response.toList.map Fetched.sentAt ++ stale.toList.map Fetched.sentAt
  | .published _ stale result => result.response.toList.map Fetched.sentAt ++ stale.toList.map Fetched.sentAt
  | .returned stale result => result.response.toList.map Fetched.sentAt ++ stale.toList.map Fetched.sentAt
  | _ => []

/-- The flight that a goroutine waits for. -/
def Stage.awaits : Stage → Option Nat
  | .waiting flight _ => some flight
  | _ => none

/-- An answered request has not been answered too early. -/
structure AnswerInv (s : Edge) (bound : Nat) (a : Answered) : Prop where
  began : a.begunAt < bound
  held : ∀ f ∈ a.answer.response?, s.SentAfter (cacheKey a.request) a.begunAt f.sentAt

/-- What a goroutine holds, or waits for, was asked for after the purges before its request. -/
structure HoldsInv (s : Edge) (bound : Nat) (t : Task) : Prop where
  began : t.begunAt < bound
  held : ∀ sentAt ∈ t.stage.sentAts, s.SentAfter t.key t.begunAt sentAt
  awaited : ∀ flight, t.stage.awaits = some flight → ∃ f : Flight, s.flights[flight]? = some f
    ∧ ∀ sentAt ∈ f.sentAt, s.SentAfter t.key t.begunAt sentAt

/-- What the cache holds was asked for after every purge of its key. -/
structure PurgeInv (s : Edge) (bound : Nat) : Prop where
  purged : ∀ p ∈ s.purges, p.2 < bound
  cache : ∀ key f, s.cache.lookup key = some f → ∀ p ∈ s.purges, p.1 = key → p.2 < f.sentAt
  tasks : ∀ t ∈ s.tasks, HoldsInv s bound t
  answers : ∀ a ∈ s.answers, AnswerInv s bound a

theorem mem_sentAts {o : Option Fetched} {sentAt : Nat} :
    sentAt ∈ o.toList.map Fetched.sentAt ↔ ∃ f ∈ o, f.sentAt = sentAt := by
  rw [List.mem_map]
  exact exists_congr fun f => and_congr_left fun _ => Option.mem_toList

theorem mem_of_fallback {stale : Option Fetched} {result : Result} {f : Fetched} (h : f ∈ result.fallback stale) :
    f ∈ stale := by
  cases result with
  | entry => cases h
  | originStatus => exact h
  | transport => exact h

namespace PurgeInv

variable {bound bound' : Nat}

theorem mono (h : PurgeInv s bound) (hle : bound ≤ bound') : PurgeInv s bound' where
  purged := fun p hp => Nat.lt_of_lt_of_le (h.purged p hp) hle
  cache := h.cache
  tasks := fun t ht =>
    ⟨Nat.lt_of_lt_of_le (h.tasks t ht).began hle, (h.tasks t ht).held, (h.tasks t ht).awaited⟩
  answers := fun a ha => ⟨Nat.lt_of_lt_of_le (h.answers a ha).began hle, (h.answers a ha).held⟩

variable {f : Fetched}

theorem sentAfter_lookup (h : PurgeInv s bound) {key : String} (hf : f ∈ s.cache.lookup key) (limit : Nat) :
    s.SentAfter key limit f.sentAt :=
  fun p hp hkey _ => h.cache key f hf p hp hkey

theorem sentAfter_now (h : PurgeInv s bound) {sentAt : Nat} (hle : bound ≤ sentAt) (key : String) (limit : Nat) :
    s.SentAfter key limit sentAt :=
  fun p hp _ _ => Nat.lt_of_lt_of_le (h.purged p hp) hle

variable {stage : Stage}

section

variable (h : PurgeInv s bound)
include h

/-- A goroutine goes on to a stage at which it holds what it may be given, and nothing is purged. -/
theorem goOn (hle : bound ≤ bound') (ht : s.tasks[k]? = some t)
    (htasks : s'.tasks = s.tasks.modify k fun t => { t with stage }) (hpurges : s'.purges = s.purges)
    (hcache : ∀ key f, s'.cache.lookup key = some f → s.cache.lookup key = some f ∨ ∀ p ∈ s.purges, p.1 = key → p.2 < f.sentAt)
    (hflights : ∀ (i : Nat) (f : Flight), s.flights[i]? = some f → ∃ f' : Flight, s'.flights[i]? = some f' ∧ ∀ sentAt ∈ f'.sentAt, sentAt ∈ f.sentAt ∨ bound ≤ sentAt)
    (hheld : ∀ sentAt ∈ stage.sentAts, sentAt ∈ t.stage.sentAts ∨ s.SentAfter t.key t.begunAt sentAt)
    (hawaited : ∀ flight, stage.awaits = some flight → ∃ f : Flight, s.flights[flight]? = some f ∧ ∀ sentAt ∈ f.sentAt, s.SentAfter t.key t.begunAt sentAt)
    (hanswers : ∀ a ∈ s'.answers, a ∈ s.answers ∨ (a.request = t.request ∧ a.begunAt = t.begunAt ∧ ∀ f ∈ a.answer.response?, s.SentAfter t.key t.begunAt f.sentAt)) :
    PurgeInv s' bound' := by
  suffices hsame : PurgeInv s' bound from hsame.mono hle
  have hafter : ∀ key limit sentAt, s.SentAfter key limit sentAt → s'.SentAfter key limit sentAt := by
    intro key limit sentAt hsent p hp
    exact hsent p (hpurges ▸ hp)
  have hwait : ∀ (u : Task) (i : Nat), (∃ f : Flight, s.flights[i]? = some f
      ∧ ∀ sentAt ∈ f.sentAt, s.SentAfter u.key u.begunAt sentAt) → ∃ f : Flight, s'.flights[i]? = some f
      ∧ ∀ sentAt ∈ f.sentAt, s'.SentAfter u.key u.begunAt sentAt := by
    rintro u i ⟨f, hf, hsent⟩
    obtain ⟨f', hf', hnew⟩ := hflights i f hf
    refine ⟨f', hf', fun sentAt hmem => hafter _ _ _ ?_⟩
    rcases hnew sentAt hmem with hold | hlate
    · exact hsent sentAt hold
    · exact h.sentAfter_now hlate _ _
  have hmem : t ∈ s.tasks := List.mem_of_getElem? ht
  refine ⟨fun p hp => h.purged p (hpurges ▸ hp), fun key f hf p hp => ?_, fun u hu => ?_, fun a ha => ?_⟩
  · rcases hcache key f hf with hold | hnew
    · exact h.cache key f hold p (hpurges ▸ hp)
    · exact hnew p (hpurges ▸ hp)
  · obtain ⟨i, hi⟩ := List.getElem?_of_mem hu
    rcases (htasks ▸ updated_modify ht _ : Updated s.tasks k _ s'.tasks).cases hi with ⟨-, rfl⟩ | ⟨-, hold⟩
    · refine ⟨(h.tasks t hmem).began, fun sentAt hsent => hafter _ _ _ ?_, fun i hi => hwait { t with stage } i (hawaited i hi)⟩
      rcases hheld sentAt hsent with hold | hnew
      · exact (h.tasks t hmem).held sentAt hold
      · exact hnew
    · have hinv := h.tasks u (List.mem_of_getElem? hold)
      exact ⟨hinv.began, fun sentAt hsent => hafter _ _ _ (hinv.held sentAt hsent),
        fun i hi => hwait u i (hinv.awaited i hi)⟩
  · rcases hanswers a ha with hold | ⟨hrequest, hbegun, hnew⟩
    · exact ⟨(h.answers a hold).began, fun f hf => hafter _ _ _ ((h.answers a hold).held f hf)⟩
    · refine ⟨hbegun ▸ (h.tasks t hmem).began, fun f hf => hafter _ _ _ ?_⟩
      rw [hrequest, hbegun]
      exact hnew f hf

theorem goTo (hle : bound ≤ bound') (ht : s.tasks[k]? = some t)
    (htasks : s'.tasks = s.tasks.modify k fun t => { t with stage }) (hpurges : s'.purges = s.purges)
    (hcache : ∀ key, s'.cache.lookup key = s.cache.lookup key) (hflights : s'.flights = s.flights)
    (hanswers : s'.answers = s.answers)
    (hheld : ∀ sentAt ∈ stage.sentAts, sentAt ∈ t.stage.sentAts ∨ s.SentAfter t.key t.begunAt sentAt)
    (hawaited : ∀ flight, stage.awaits = some flight → ∃ f : Flight, s.flights[flight]? = some f ∧ ∀ sentAt ∈ f.sentAt, s.SentAfter t.key t.begunAt sentAt) :
    PurgeInv s' bound' :=
  h.goOn hle ht htasks hpurges (fun key _ hf => .inl ((hcache key).symm.trans hf))
    (fun _ f hf => ⟨f, hflights ▸ hf, fun _ hsent => .inl hsent⟩) hheld hawaited fun _ ha => .inl (hanswers ▸ ha)

/-- A request is answered with what it may be given. -/
theorem reply (hle : bound ≤ bound') (ht : s.tasks[k]? = some t) {answer : Answer}
    (hanswer : ∀ f, answer.response? = some f → s.SentAfter t.key t.begunAt f.sentAt) :
    PurgeInv (s.reply k t answer) bound' := by
  refine h.goOn hle ht rfl rfl (fun _ _ hf => .inl hf) (fun _ e he => ⟨e, he, fun _ hsent => .inl hsent⟩)
    (fun _ hsent => absurd hsent List.not_mem_nil) (fun _ hi => by cases hi) fun _ ha => ?_
  rcases List.mem_cons.1 ha with rfl | ha
  · exact .inr ⟨rfl, rfl, hanswer⟩
  · exact .inl ha

theorem start (hlt : s.moment < bound) (request : Request) (hheld : stage.sentAts = [])
    (hawaits : stage.awaits = none) : PurgeInv (s.start request stage) bound where
  purged := h.purged
  cache := h.cache
  tasks := by
    intro u hu
    rcases List.mem_append.1 hu with hu | hu
    · exact ⟨(h.tasks u hu).began, (h.tasks u hu).held, (h.tasks u hu).awaited⟩
    · rw [List.mem_singleton.1 hu]
      refine ⟨hlt, ?_, ?_⟩
      · rw [hheld]
        exact fun _ hsent => absurd hsent List.not_mem_nil
      · rw [hawaits]
        exact nofun
  answers := fun a ha => ⟨(h.answers a ha).began, (h.answers a ha).held⟩

end

/-- A purge: the requests before it are not concerned, and the cache has no entry of the key. -/
theorem invalidate (h : PurgeInv s s.moment) (key : String) : PurgeInv (s.invalidate key) (s.moment + 1) := by
  have hafter : ∀ (key' : String) (limit sentAt : Nat), limit < s.moment → s.SentAfter key' limit sentAt →
      (s.invalidate key).SentAfter key' limit sentAt := by
    intro key' limit sentAt hlimit hsent p hp hkey hbefore
    rcases List.mem_cons.1 hp with rfl | hp
    · exact absurd hbefore (Nat.not_lt.2 (Nat.le_of_lt hlimit))
    · exact hsent p hp hkey hbefore
  refine ⟨fun p hp => ?_, fun key' f hf p hp hkey => ?_, fun t ht => ?_, fun a ha => ?_⟩
  · rcases List.mem_cons.1 hp with rfl | hp
    · exact Nat.lt_succ_self _
    · exact Nat.lt_succ_of_lt (h.purged p hp)
  · obtain ⟨hne, hf⟩ := Lru.lookup_of_invalidate hf
    rcases List.mem_cons.1 hp with rfl | hp
    · exact absurd hkey.symm hne
    · exact h.cache key' f hf p hp hkey
  · have hinv := h.tasks t ht
    refine ⟨Nat.lt_succ_of_lt hinv.began, fun sentAt hsent => hafter _ _ _ hinv.began (hinv.held sentAt hsent), fun i hi => ?_⟩
    obtain ⟨f, hf, hsent⟩ := hinv.awaited i hi
    exact ⟨f, hf, fun sentAt hmem => hafter _ _ _ hinv.began (hsent sentAt hmem)⟩
  · have hinv := h.answers a ha
    exact ⟨Nat.lt_succ_of_lt hinv.began, fun f hf => hafter _ _ _ hinv.began (hinv.held f hf)⟩

theorem sentAfter_held (h : PurgeInv s bound) (ht : s.tasks[k]? = some t) (hstage : t.stage = stage)
    (hf : f.sentAt ∈ stage.sentAts) : s.SentAfter t.key t.begunAt f.sentAt :=
  (h.tasks t (List.mem_of_getElem? ht)).held f.sentAt (hstage ▸ hf)

theorem serveHTTP (h : PurgeInv s s.moment) (ht : s.tasks[k]? = some t) (c : Setup) :
    PurgeInv (s.serveHTTP c k t) (s.moment + 1) := by
  rw [Edge.serveHTTP]
  split
  · rw [Edge.handlePurge]
    split
    · exact h.reply (Nat.le_succ _) ht fun _ hr => by cases hr
    · exact (h.invalidate _).reply (Nat.le_refl _) ht fun _ hr => by cases hr
  · refine h.goTo (Nat.le_succ _) ht rfl rfl (fun _ => Lru.lookup_get) rfl rfl (fun sentAt hsent => .inr ?_) fun _ hi => by cases hi
    obtain ⟨f, hf, rfl⟩ := mem_sentAts.1 hsent
    exact h.sentAfter_lookup hf _

theorem serveFound (h : PurgeInv s s.moment) (ht : s.tasks[k]? = some t) {found : Option Fetched}
    (hstage : t.stage = .looked found) : PurgeInv (s.serveFound k t found) (s.moment + 1) := by
  have hmissed : PurgeInv (s.goTo k .missed) (s.moment + 1) :=
    h.goTo (Nat.le_succ _) ht rfl rfl (fun _ => rfl) rfl rfl (fun _ hsent => absurd hsent List.not_mem_nil)
      fun _ hi => by cases hi
  unfold Edge.serveFound
  split
  · next f =>
    have hreply : ∀ xCache, PurgeInv (s.reply k t (.response xCache f)) (s.moment + 1) := by
      refine fun xCache => h.reply (Nat.le_succ _) ht fun r hr => ?_
      cases hr
      exact h.sentAfter_held ht hstage List.mem_cons_self
    split
    · exact hreply .hit
    · split
      · exact (hreply .stale).start (Nat.lt_succ_self _) t.request rfl rfl
      · exact hmissed
  · exact hmissed

variable {stale : Option Fetched} {result : Result}

section

variable (h : PurgeInv s s.moment)
include h

theorem serveResult (ht : s.tasks[k]? = some t)
    (hstage : t.stage = .returned stale result) : PurgeInv (s.serveResult k t stale result) (s.moment + 1) := by
  have hreply : ∀ xCache f, f ∈ result.response ∨ f ∈ stale →
      PurgeInv (s.reply k t (.response xCache f)) (s.moment + 1) := by
    refine fun xCache f hf => h.reply (Nat.le_succ _) ht fun r hr => ?_
    cases hr
    refine h.sentAfter_held ht hstage (List.mem_append.2 ?_)
    exact hf.imp (fun hf => mem_sentAts.2 ⟨f, hf, rfl⟩) fun hf => mem_sentAts.2 ⟨f, hf, rfl⟩
  have hstale : ∀ f, stale.filter (fun f => f.entry.isStaleIfError s.now) = some f → f ∈ stale :=
    fun f hf => (Option.filter_eq_some_iff.1 hf).1
  unfold Edge.serveResult
  split
  · exact hreply .miss _ (.inl rfl)
  · split
    · next hf => exact hreply .staleIfError _ (.inr (hstale _ hf))
    · exact hreply .miss _ (.inl rfl)
  · split
    · next hf => exact hreply .staleIfError _ (.inr (hstale _ hf))
    · exact h.reply (Nat.le_succ _) ht fun _ hr => by cases hr

theorem keepStale (ht : s.tasks[k]? = some t) : PurgeInv (s.keepStale k t) (s.moment + 1) := by
  refine h.goTo (Nat.le_succ _) ht rfl rfl (fun _ => Lru.lookup_get) rfl rfl (fun sentAt hsent => .inr ?_) fun _ hi => by cases hi
  obtain ⟨f, hf, rfl⟩ := mem_sentAts.1 hsent
  exact h.sentAfter_lookup hf _

theorem lock (ht : s.tasks[k]? = some t) (hstage : t.stage = .kept stale)
    (hs : s.lock k t stale = some s') : PurgeInv s' (s.moment + 1) := by
  obtain ⟨-, hs⟩ := ite_none_right_eq_some.1 hs
  cases hs
  refine h.goTo (Nat.le_succ _) ht rfl rfl (fun _ => Lru.lookup_get) rfl rfl (fun sentAt hsent => ?_) fun _ hi => by cases hi
  rcases List.mem_append.1 hsent with hsent | hsent
  · exact .inl (hstage ▸ hsent)
  · obtain ⟨f, hf, rfl⟩ := mem_sentAts.1 hsent
    exact .inr (h.sentAfter_lookup hf _)

/-- A request joins a flight, which was not sent too early. -/
theorem joinOrRegister (hinv : Inv s) (ht : s.tasks[k]? = some t) {again : Option Fetched}
    (hstage : t.stage = .locked stale again)
    (hok : ∀ sentAt ∈ (s.joining t).bind Flight.sentAt, s.SentAfter t.key t.begunAt sentAt) :
    PurgeInv (s.joinOrRegister k t stale again) (s.moment + 1) := by
  have hstale : ∀ sentAt ∈ stale.toList.map Fetched.sentAt, sentAt ∈ t.stage.sentAts :=
    fun sentAt hsent => hstage ▸ List.mem_append_left _ hsent
  rw [Edge.joinOrRegister]
  split
  · next f hf =>
    refine h.goTo (Nat.le_succ _) ht rfl rfl (fun _ => rfl) rfl rfl (fun sentAt hsent => .inl ?_) fun _ hi => by cases hi
    rw [List.mem_singleton.1 hsent, hstage]
    exact List.mem_append_right _ (mem_sentAts.2 ⟨f, (Option.filter_eq_some_iff.1 hf).1, rfl⟩)
  · next hexpired =>
    split
    · next flight hflight =>
      obtain ⟨f, hf⟩ := hinv.flying t.key flight hflight
      refine h.goTo (Nat.le_succ _) ht rfl rfl (fun _ => rfl) rfl rfl (fun sentAt hsent => .inl (hstale sentAt hsent)) ?_
      rintro i hi
      cases hi
      refine ⟨f, hf, fun sentAt hsent => hok sentAt ?_⟩
      have hinflight : s.inflight t.key = some flight := hflight
      have hexpired : (again.filter fun f => !f.entry.isExpired s.now) = none := hexpired
      have hjoining : s.joining t = some f := by
        simp only [Edge.joining, hstage, hexpired, hinflight, Option.bind_some, hf]
      rw [hjoining]
      exact hsent
    · refine h.goOn (Nat.le_succ _) ht rfl rfl (fun _ _ hf => .inl hf) (fun i f hf => ⟨f, getElem?_push_of_some hf, fun _ hsent => .inl hsent⟩)
        (fun sentAt hsent => .inl (hstale sentAt hsent)) (fun _ hi => by cases hi) fun _ ha => .inl ha

end

variable {flight : Nat}

/-- A waiter is given what it has waited for. -/
theorem wake (h : PurgeInv s s.moment) (hinv : Inv s) (ht : s.tasks[k]? = some t)
    (hstage : t.stage = .waiting flight stale) (hs : s.wake k flight stale = some s') : PurgeInv s' (s.moment + 1) := by
  obtain ⟨result, hresult, rfl⟩ := map_eq_some_iff.1 hs
  obtain ⟨f, hf, hresult⟩ := bind_eq_some_iff.1 hresult
  obtain ⟨-, hresult⟩ := ite_none_right_eq_some.1 hresult
  refine h.goTo (Nat.le_succ _) ht rfl rfl (fun _ => rfl) rfl rfl (fun sentAt hsent => ?_) fun _ hi => by cases hi
  rcases List.mem_append.1 hsent with hsent | hsent
  · obtain ⟨e, he, rfl⟩ := mem_sentAts.1 hsent
    obtain ⟨f', hf', hawaited⟩ := (h.tasks t (List.mem_of_getElem? ht)).awaited flight (by rw [hstage]; rfl)
    rw [hf] at hf'
    cases hf'
    exact .inr (hawaited _ ((hinv.flights flight f hf).sentAt result hresult e he))
  · refine .inl (hstage ▸ ?_)
    obtain ⟨e, he, rfl⟩ := mem_sentAts.1 hsent
    exact mem_sentAts.2 ⟨e, mem_of_fallback he, rfl⟩

theorem sentAt_setFlight (flight : Nat) {g : Flight → Flight}
    (hg : ∀ f, (g f).sentAt = f.sentAt ∨ (g f).sentAt = some s.moment) (i : Nat) (f : Flight) (hf : s.flights[i]? = some f) :
    ∃ f' : Flight, (s.setFlight flight g).flights[i]? = some f'
      ∧ ∀ sentAt ∈ f'.sentAt, sentAt ∈ f.sentAt ∨ s.moment ≤ sentAt := by
  have hnew : (s.setFlight flight g).flights[i]? = if i = flight then s.flights[i]?.map g else s.flights[i]? :=
    getElem?_modify_cell s.flights flight g i
  rw [hf] at hnew
  split at hnew
  · refine ⟨g f, hnew, fun sentAt hsent => ?_⟩
    rcases hg f with hsame | hnow
    · exact .inl (hsame ▸ hsent)
    · rw [hnow] at hsent
      cases hsent
      exact .inr (Nat.le_refl _)
  · exact ⟨f, hnew, fun _ hsent => .inl hsent⟩

variable {caller : Caller}

section

variable (h : PurgeInv s s.moment)
include h

theorem send (ht : s.tasks[k]? = some t) (hstage : t.stage = .unsent caller) :
    PurgeInv (s.send k caller) (s.moment + 1) := by
  cases caller with
  | revalidation =>
    exact h.goTo (Nat.le_succ _) ht rfl rfl (fun _ => rfl) rfl rfl (fun _ hsent => absurd hsent List.not_mem_nil)
      fun _ hi => by cases hi
  | leader flight stale =>
    refine h.goOn (Nat.le_succ _) ht rfl rfl (fun _ _ hf => .inl hf) (sentAt_setFlight flight fun _ => .inr rfl)
      (fun sentAt hsent => ?_) (fun _ hi => by cases hi) fun _ ha => .inl ha
    rcases List.mem_cons.1 hsent with rfl | hsent
    · exact .inr (h.sentAfter_now (Nat.le_refl _) _ _)
    · exact .inl (hstage ▸ hsent)

/-- A fetch ends, and what it has put into the cache was asked for after the purges of its key. -/
theorem finish (ht : s.tasks[k]? = some t) {cache : Lru String Fetched}
    (hcache : ∀ key f, cache.lookup key = some f → s.cache.lookup key = some f ∨ ∀ p ∈ s.purges, p.1 = key → p.2 < f.sentAt)
    (hheld : ∀ flight stale, caller = .leader flight stale → ∀ sentAt ∈ (Stage.fetched flight stale result).sentAts, sentAt ∈ t.stage.sentAts) :
    PurgeInv ({ s with cache }.finish k caller result) (s.moment + 1) := by
  cases caller with
  | revalidation =>
    exact h.goOn (Nat.le_succ _) ht rfl rfl hcache (fun _ f hf => ⟨f, hf, fun _ hsent => .inl hsent⟩)
      (fun _ hsent => absurd hsent List.not_mem_nil) (fun _ hi => by cases hi) fun _ ha => .inl ha
  | leader flight stale =>
    exact h.goOn (Nat.le_succ _) ht rfl rfl hcache (fun _ f hf => ⟨f, hf, fun _ hsent => .inl hsent⟩)
      (fun sentAt hsent => .inl (hheld flight stale rfl sentAt hsent)) (fun _ hi => by cases hi) fun _ ha => .inl ha

theorem receive (ht : s.tasks[k]? = some t) {sentAt : Nat}
    (hstage : t.stage = .sent caller sentAt) (c : Setup) (resp : Response) :
    PurgeInv (s.receive c k caller sentAt resp) (s.moment + 1) := by
  rw [Edge.receive]
  split
  · refine h.goTo (Nat.le_succ _) ht rfl rfl (fun _ => rfl) rfl rfl (fun i hi => .inl ?_) fun _ hi => by cases hi
    rw [hstage]
    cases caller with
    | revalidation => exact absurd hi List.not_mem_nil
    | leader flight stale => exact hi
  · refine h.finish ht (fun _ _ hf => .inl hf) ?_
    rintro flight stale rfl i hi
    rw [hstage]
    rcases List.mem_append.1 hi with hi | hi
    · obtain ⟨f, hf, rfl⟩ := mem_sentAts.1 hi
      split at hf <;> cases hf <;> exact List.mem_cons_self
    · exact List.mem_cons_of_mem _ hi

/-- A response is stored in time. -/
theorem store (ht : s.tasks[k]? = some t) (hstage : t.stage = .storing caller f)
    (hok : s.SentAfter t.key s.moment f.sentAt) : PurgeInv (s.store k t caller f) (s.moment + 1) := by
  refine h.finish ht (fun key e he => ?_) ?_
  · rcases Lru.lookup_of_set he with ⟨rfl, rfl⟩ | ⟨-, hold⟩
    · exact .inr fun p hp hkey => hok p hp hkey (h.purged p hp)
    · exact .inl hold
  · rintro flight stale rfl i hi
    rw [hstage]
    exact hi

theorem fail (ht : s.tasks[k]? = some t) {err : String} (hs : s.fail k t err = some s') :
    PurgeInv s' (s.moment + 1) := by
  unfold Edge.fail at hs
  split at hs
  · next caller hstage =>
    cases hs
    refine h.finish ht (fun _ _ hf => .inl hf) ?_
    rintro flight stale rfl i hi
    exact hstage ▸ hi
  · next caller sentAt hstage =>
    cases hs
    refine h.finish ht (fun _ _ hf => .inl hf) ?_
    rintro flight stale rfl i hi
    exact hstage ▸ List.mem_cons_of_mem _ hi
  · cases hs

theorem publish (ht : s.tasks[k]? = some t)
    (hstage : t.stage = .fetched flight stale result) (hs : s.publish k t flight stale result = some s') :
    PurgeInv s' (s.moment + 1) := by
  obtain ⟨-, hs⟩ := ite_none_right_eq_some.1 hs
  cases hs
  exact h.goOn (Nat.le_succ _) ht rfl rfl (fun _ _ hf => .inl hf) (sentAt_setFlight flight fun _ => .inl rfl)
    (fun _ hsent => .inl (hstage ▸ hsent)) (fun _ hi => by cases hi) fun _ ha => .inl ha

theorem closeDone (ht : s.tasks[k]? = some t)
    (hstage : t.stage = .published flight stale result) :
    PurgeInv (s.closeDone k flight stale result) (s.moment + 1) := by
  refine h.goOn (Nat.le_succ _) ht rfl rfl (fun _ _ hf => .inl hf) (sentAt_setFlight flight fun _ => .inl rfl)
    (fun sentAt hsent => .inl (hstage ▸ ?_)) (fun _ hi => by cases hi) fun _ ha => .inl ha
  refine List.mem_append.2 ((List.mem_append.1 hsent).imp_right fun hsent => ?_)
  obtain ⟨e, he, rfl⟩ := mem_sentAts.1 hsent
  exact mem_sentAts.2 ⟨e, mem_of_fallback he, rfl⟩

theorem run (hinv : Inv s) (ht : s.tasks[k]? = some t) (c : Setup) (hok : InTime s (.run k))
    (hs : s.run c k t = some s') : PurgeInv s' (s.moment + 1) := by
  obtain ⟨hstores, hjoins⟩ := hok t ht
  unfold Edge.run at hs
  split at hs
  · exact some_inj.1 hs ▸ h.serveHTTP ht c
  · next hstage => exact some_inj.1 hs ▸ h.serveFound ht hstage
  · exact some_inj.1 hs ▸ h.keepStale ht
  · next hstage => exact h.lock ht hstage hs
  · next hstage => exact some_inj.1 hs ▸ h.joinOrRegister hinv ht hstage hjoins
  · next hstage => exact h.wake hinv ht hstage hs
  · next hstage => exact some_inj.1 hs ▸ h.send ht hstage
  · cases hs
  · next f hstage => exact some_inj.1 hs ▸ h.store ht hstage (hstores f (by rw [hstage]; rfl))
  · next hstage => exact h.publish ht hstage hs
  · next hstage => exact some_inj.1 hs ▸ h.closeDone ht hstage
  · next hstage => exact some_inj.1 hs ▸ h.serveResult ht hstage
  · cases hs

theorem act (hinv : Inv s) {c : Setup} {a : Act} (hok : InTime s a)
    (hs : s.act c a = some s') : PurgeInv s' (s.moment + 1) := by
  cases a with
  | tick d =>
    cases hs
    have hlater := h.mono (Nat.le_succ _)
    exact ⟨hlater.purged, hlater.cache, fun t ht => ⟨(hlater.tasks t ht).began, (hlater.tasks t ht).held, (hlater.tasks
      t ht).awaited⟩, fun a ha => ⟨(hlater.answers a ha).began, (hlater.answers a ha).held⟩⟩
  | request r =>
    cases hs
    exact (h.mono (Nat.le_succ _)).start (Nat.lt_succ_self _) r rfl rfl
  | invalidate key =>
    cases hs
    exact h.invalidate key
  | run k =>
    obtain ⟨t, ht, hs⟩ := bind_eq_some_iff.1 hs
    exact h.run hinv ht c hok hs
  | respond k resp =>
    obtain ⟨t, ht, hs⟩ := bind_eq_some_iff.1 hs
    unfold Edge.respond at hs
    split at hs
    · next hstage => exact some_inj.1 hs ▸ h.receive ht hstage c resp
    · cases hs
  | fail k err =>
    obtain ⟨t, ht, hs⟩ := bind_eq_some_iff.1 hs
    exact h.fail ht hs

theorem step (hinv : Inv s) {c : Setup} {a : Act} (hok : InTime s a)
    (hs : s.step c a = some s') : PurgeInv s' s'.moment := by
  obtain ⟨s₁, hs₁, rfl⟩ := map_eq_some_iff.1 hs
  have hnext := h.act hinv hok hs₁
  exact ⟨hnext.purged, hnext.cache, fun t ht => ⟨(hnext.tasks t ht).began, (hnext.tasks t ht).held, (hnext.tasks t
    ht).awaited⟩, fun a ha => ⟨(hnext.answers a ha).began, (hnext.answers a ha).held⟩⟩

end

theorem initial (now : Int) (cacheSize : Nat) : PurgeInv (.initial now cacheSize) 0 where
  purged := fun _ hp => absurd hp List.not_mem_nil
  cache := fun _ _ hf => by cases hf
  tasks := fun _ ht => absurd ht List.not_mem_nil
  answers := fun _ ha => absurd ha List.not_mem_nil

end PurgeInv

/-! ### Runs -/

/-- **Requests are coalesced in every run, and purges are observed in every run in which each response is stored
before the next purge of its key and no request joins a flight from before one.** -/
theorem coalesced_and_purged (c : Setup) (now : Int) (cacheSize : Nat) :
    (∀ s, Reachable (Edge.step c) (.initial now cacheSize) s → Coalesced c s)
    ∧ ∀ s, ReachableIf (Edge.step c) InTime (.initial now cacheSize) s → PurgesObserved s := by
  refine ⟨fun s h => (Inv.of_run h).coalesced c, fun s h => ?_⟩
  have hpurge : PurgeInv s s.moment :=
    ReachableIf.invariant (I := fun s => PurgeInv s s.moment) (PurgeInv.initial now cacheSize)
      (fun _ _ _ hr hinv hok hstep => hinv.step (Inv.of_run hr) hok hstep) h
  exact fun a ha => (hpurge.answers a ha).held

instance (s : Edge) : Decidable (PurgesObserved s) :=
  inferInstanceAs (Decidable (∀ a ∈ s.answers, ∀ f ∈ a.answer.response?,
    s.SentAfter (cacheKey a.request) a.begunAt f.sentAt))

def pageSetup : Setup :=
  ⟨10485760, fun _ => ""⟩

def pageRequest : Request :=
  ⟨"GET", "/page", "/page", "", []⟩

def pageResponse : Response :=
  ⟨200, ⟨["max-age=60"], []⟩, [0x31]⟩

/-- A request registers a flight and sends its origin request. -/
def requestSent (k : Nat) : List Act :=
  [.request pageRequest] ++ List.replicate 6 (.run k)

/-- A request is answered and its response stored while another one waits for it, the page is purged, and two requests
come after that. -/
def purgeAfterStore : List Act :=
  requestSent 0 ++ [.request pageRequest] ++ List.replicate 5 (.run 1) ++ [.respond 0 pageResponse]
    ++ List.replicate 4 (.run 0) ++ List.replicate 2 (.run 1) ++ [.invalidate "/page"]
    ++ requestSent 2 ++ [.respond 2 pageResponse] ++ List.replicate 4 (.run 2)
    ++ [.request pageRequest] ++ List.replicate 2 (.run 3)

/-- In that run the waiter is given the response of the first request, and what is answered after the purge was asked
for after it. -/
theorem coalesced_and_purged_after_store : ∃ s, ReachableIf (Edge.step pageSetup) InTime (.initial 0 1000) s
    ∧ (s.joins.map Join.flight = [0] ∧ s.purges = [("/page", 20)]
      ∧ s.answers.map (fun a => (a.begunAt, a.answer.response?.map Fetched.sentAt))
        = [(33, some 27), (21, some 27), (7, some 6), (0, some 6)])
    ∧ Coalesced pageSetup s ∧ PurgesObserved s := by
  have hrun : (execIf (Edge.step pageSetup) (fun s a => decide (InTime s a)) (.initial 0 1000) purgeAfterStore).map
      (fun s => decide (s.joins.map Join.flight = [0] ∧ s.purges = [("/page", 20)]
        ∧ s.answers.map (fun a => (a.begunAt, a.answer.response?.map Fetched.sentAt))
          = [(33, some 27), (21, some 27), (7, some 6), (0, some 6)])) = some true := by rfl
  obtain ⟨s, hs, hfacts⟩ := map_eq_some_iff.1 hrun
  have hreach : ReachableIf (Edge.step pageSetup) InTime (.initial 0 1000) s :=
    ReachableIf.init.execIf (fun _ _ => of_decide_eq_true) hs
  have hresult := coalesced_and_purged pageSetup 0 1000
  exact ⟨s, hreach, of_decide_eq_true hfacts, hresult.1 s (hreach.mono fun _ _ _ => trivial), hresult.2 s hreach⟩

/-- The page is purged while it is fetched, and requested again after it was stored. -/
def storedAfterPurge : List Act :=
  requestSent 0 ++ [.invalidate "/page", .respond 0 pageResponse] ++ List.replicate 4 (.run 0)
    ++ [.request pageRequest] ++ List.replicate 2 (.run 1)

/-- The page is purged while it is fetched, and requested again before it has come. -/
def joinedAfterPurge : List Act :=
  requestSent 0 ++ [.invalidate "/page", .request pageRequest] ++ List.replicate 5 (.run 1)
    ++ [.respond 0 pageResponse] ++ List.replicate 4 (.run 0) ++ List.replicate 2 (.run 1)

/-- **Both are answered with the page from before the purge**: one by a hit, one by the flight that it joined. -/
theorem purged_page_served :
    (∃ s, exec (Edge.step pageSetup) (.initial 0 1000) storedAfterPurge = some s
      ∧ Reachable (Edge.step pageSetup) (.initial 0 1000) s ∧ ¬ PurgesObserved s)
    ∧ ∃ s, exec (Edge.step pageSetup) (.initial 0 1000) joinedAfterPurge = some s
      ∧ Reachable (Edge.step pageSetup) (.initial 0 1000) s ∧ ¬ PurgesObserved s := by
  have hserved : ∀ acts ∈ [storedAfterPurge, joinedAfterPurge], ∃ s,
      exec (Edge.step pageSetup) (.initial 0 1000) acts = some s
      ∧ Reachable (Edge.step pageSetup) (.initial 0 1000) s ∧ ¬ PurgesObserved s := by
    have hrun : ∀ acts ∈ [storedAfterPurge, joinedAfterPurge],
        (exec (Edge.step pageSetup) (.initial 0 1000) acts).map (fun s => decide (PurgesObserved s)) = some false := by
      decide
    intro acts hacts
    obtain ⟨s, hs, hfacts⟩ := map_eq_some_iff.1 (hrun acts hacts)
    exact ⟨s, hs, reachable_of_exec hs, of_decide_eq_false hfacts⟩
  exact ⟨hserved _ List.mem_cons_self, hserved _ (List.mem_cons_of_mem _ List.mem_cons_self)⟩

end SystemDesignLabs.CdnEdge.Coalescing
