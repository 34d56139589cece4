import SystemDesignLabs.Core.TransitionSystem
import SystemDesignLabs.KvCache.Serde

/-!
# Reopening a cache

The file records what was set, deleted and given a time to live, but not what was evicted or expired, and a
time to live counts from the moment of the replay. So a reopened cache is the closed one exactly as long as
no key is evicted, none expires after it was live, and no expired key is removed (`Calm`). Then what a key
is to a reader, its value and whether it is expired, is a function of the history that the records spell
(`view`, `historyView`).
-/

namespace SystemDesignLabs.KvCache

open Core SortedMap

/-! ## Runs -/

/-- A cache and the clock. -/
structure World where
  cache : Cache
  now : Nat
  deriving DecidableEq

inductive Op where
  | set (key value : String) (ttlSecs : Option UInt64)
  | del (key : String)
  | expire (key : String) (ttlSecs : UInt64)
  | get (key : String)
  | tick (nanos : Nat)
  | reopen
  deriving DecidableEq

section Runs

variable (json : AofJson) (iter : Store → List (String × CacheEntry))

/-- One call, the passing of time, or closing the cache and opening it again. A call that panics leaves the
cache as it was when it panicked. -/
def step (w : World) : Op → Option World
  | .set key value ttlSecs => some { w with cache := (w.cache.set json iter w.now key value ttlSecs).1 }
  | .del key => some { w with cache := (w.cache.del json w.now key).1 }
  | .expire key ttlSecs => some { w with cache := (w.cache.expire json w.now key ttlSecs).1 }
  | .get key => some { w with cache := (w.cache.get w.now key).1 }
  | .tick nanos => some { w with now := w.now + nanos }
  | .reopen =>
    match Cache.openAof json w.now w.cache.maxKeys w.cache.aof with
    | .ok cache => some { w with cache := cache }
    | .error _ => none

/-- A cache that is opened where there is no file. -/
def World.init (start maxKeys : Nat) : World :=
  ⟨⟨SortedMap.empty, maxKeys, some [], start, aofSyncInterval, 0⟩, start⟩

end Runs

/-- What a reader sees of a key: its value, if it is stored and not expired. -/
def Cache.live (c : Cache) (now : Nat) (key : String) : Option String :=
  (c.store.get key).bind fun e => if e.isExpired now then none else some e.value

/-- Reopening the file now gives the same live keys with the same values, and at most `maxKeys` entries. -/
def Reproduces (json : AofJson) (w : World) : Prop :=
  ∃ r, Cache.openAof json w.now w.cache.maxKeys w.cache.aof = .ok r ∧
    (∀ key, r.live w.now key = w.cache.live w.now key) ∧ r.store.entries.length ≤ w.cache.maxKeys

/-! ## The condition -/

/-- The time to live that a record sets. -/
def AofRecord.ttl : AofRecord → Option UInt64
  | .set _ _ ttlSecs => ttlSecs
  | .del _ => none
  | .expire _ ttlSecs => some ttlSecs

/-- The deadline that a record sets at this moment can be represented. -/
def AofRecord.InRange (now : Nat) (r : AofRecord) : Prop :=
  ∀ secs ∈ r.ttl, now + nanosPerSec * secs.toNat < instantEnd

instance (now : Nat) (r : AofRecord) : Decidable (r.InRange now) := by
  unfold AofRecord.InRange
  -- not by trying all numbers of 64 bits
  exact Option.decidableForallMem _

/-- The records that are read from a file. -/
def recordsIn (json : AofJson) (file : Option (List UInt8)) : List AofRecord :=
  (splitLines (file.getD [])).filterMap fun line =>
    (fromUtf8 line).bind fun s => json.fromStr (String.ofList (trim s.toList))

/-- The condition on a step: `set` does not evict, `get` and `del` do not meet an expired entry, no live
entry expires while time passes, and the deadlines that a replay would set can be represented. -/
def Calm (json : AofJson) (w : World) : Op → Prop
  | .set key _ _ => (w.cache.store.get key).isSome ∨ w.cache.store.entries.length < w.cache.maxKeys
  | .del key => w.cache.holdsExpired w.now key = false
  | .get key => w.cache.holdsExpired w.now key = false
  | .tick nanos =>
    (∀ p ∈ w.cache.store.entries, p.2.isExpired (w.now + nanos) → p.2.isExpired w.now) ∧
      ∀ r ∈ recordsIn json w.cache.aof, r.InRange (w.now + nanos)
  | _ => True

instance (json : AofJson) (w : World) (op : Op) : Decidable (Calm json w op) := by
  cases op <;> unfold Calm <;> infer_instance

/-! ## The history of a file -/

/-- What the records say of each key: its value and its time to live. -/
abbrev History := SortedMap String (String × Option UInt64)

def History.record (h : History) : AofRecord → History
  | .set key value ttlSecs => h.insert key (value, ttlSecs)
  | .del key => h.erase key
  | .expire key ttlSecs => h.adjust key fun p => (p.1, some ttlSecs)

def history (rs : List AofRecord) : History := rs.foldl History.record SortedMap.empty

/-- The entry that a replay at this moment makes. -/
def entryAt (now : Nat) (p : String × Option UInt64) : CacheEntry :=
  .new now p.1 (p.2.map fun secs => now + nanosPerSec * secs.toNat)

/-- Each key with its value and whether it is expired. -/
def view (now : Nat) (store : Store) : SortedMap String (String × Bool) :=
  store.mapEntries fun _ e => (e.value, e.isExpired now)

/-- The same from the history: only a key without time to live is expired. -/
def historyView (h : History) : SortedMap String (String × Bool) :=
  h.mapEntries fun _ p => (p.1, p.2 = some 0)

theorem isExpired_entryAt (now : Nat) (p : String × Option UInt64) :
    (entryAt now p).isExpired now = decide (p.2 = some 0) := by
  obtain ⟨value, ttlSecs⟩ := p
  cases ttlSecs with
  | none => rfl
  | some secs =>
    show decide (now + nanosPerSec * secs.toNat ≤ now) = decide (some secs = some 0)
    have hiff : now + nanosPerSec * secs.toNat ≤ now ↔ some secs = some 0 := by
      rw [Option.some.injEq, ← UInt64.toNat_inj, nanosPerSec]
      show _ ↔ secs.toNat = 0
      omega
    exact decide_eq_decide.2 hiff

theorem instantAfter_eq {now : Nat} {secs : UInt64} (h : now + nanosPerSec * secs.toNat < instantEnd) :
    instantAfter now secs = some (now + nanosPerSec * secs.toNat) := by
  simp only [instantAfter, if_pos h]

theorem deadline_eq_some {now : Nat} {ttlSecs : Option UInt64} {expiresAt : Option Nat} :
    deadline now ttlSecs = some expiresAt ↔ (∀ secs ∈ ttlSecs, now + nanosPerSec * secs.toNat < instantEnd) ∧
        ttlSecs.map (fun secs => now + nanosPerSec * secs.toNat) = expiresAt := by
  cases ttlSecs with
  | none => simp [deadline]
  | some secs => simp [deadline, instantAfter]

theorem view_entryAt (now : Nat) (h : History) : view now (h.mapEntries fun _ p => entryAt now p) = historyView h := by
  apply ext_get
  intro key
  rw [view, historyView, get_mapEntries, get_mapEntries, get_mapEntries]
  cases h.get key with
  | none => rfl
  | some p => exact congrArg (fun b => some (p.1, b)) (isExpired_entryAt now p)

theorem applyRecord_expire {now t : Nat} {store : Store} {key : String} {ttlSecs : UInt64} {entry : CacheEntry}
    (hentry : store.get key = some entry) (ht : instantAfter now ttlSecs = some t) :
    applyRecord now store (.expire key ttlSecs) = .ok (store.insert key { entry with expiresAt := some t }) := by
  rw [applyRecord, hentry]
  simp only [ht]

theorem applyRecord_eq {now : Nat} {r : AofRecord} (hr : r.InRange now) (h : History) :
    applyRecord now (h.mapEntries fun _ p => entryAt now p) r =
      .ok ((h.record r).mapEntries fun _ p => entryAt now p) := by
  cases r with
  | set key value ttlSecs =>
    have hdeadline : deadline now ttlSecs =
        some (ttlSecs.map fun secs => now + nanosPerSec * secs.toNat) := deadline_eq_some.2 ⟨hr, rfl⟩
    rw [applyRecord, hdeadline, History.record, mapEntries_insert]
    rfl
  | del key => rw [applyRecord, History.record, mapEntries_erase]
  | expire key ttlSecs =>
    cases hp : h.get key with
    | none =>
      rw [applyRecord, History.record, adjust, get_mapEntries, hp]
      rfl
    | some p =>
      have hentry : (h.mapEntries fun _ p => entryAt now p).get key = some (entryAt now p) := by
        rw [get_mapEntries, hp, Option.map_some]
      have hrecord : h.record (.expire key ttlSecs) = h.insert key (p.1, some ttlSecs) := by
        rw [History.record, adjust, hp]
      have hnew : ({ entryAt now p with expiresAt := some (now + nanosPerSec * ttlSecs.toNat) } : CacheEntry) =
          entryAt now (p.1, some ttlSecs) := rfl
      rw [applyRecord_expire hentry (instantAfter_eq (hr ttlSecs (Option.mem_some_self ttlSecs))), hrecord,
        mapEntries_insert, hnew]

/-- A replay in range gives what the history says. -/
theorem replay_eq {now : Nat} {rs : List AofRecord} (hrs : ∀ r ∈ rs, r.InRange now) :
    replay now rs = .ok ((history rs).mapEntries fun _ p => entryAt now p) := by
  have hfold : ∀ (rs : List AofRecord) (h : History), (∀ r ∈ rs, r.InRange now) →
      rs.foldlM (applyRecord now) (h.mapEntries fun _ p => entryAt now p) =
        .ok ((rs.foldl History.record h).mapEntries fun _ p => entryAt now p) := by
    intro rs
    induction rs with
    | nil => exact fun _ _ => rfl
    | cons r rs ih =>
      intro h hrs
      obtain ⟨hr, hrs⟩ := List.forall_mem_cons.1 hrs
      rw [List.foldlM_cons, applyRecord_eq hr]
      exact ih (h.record r) hrs
  exact hfold rs empty hrs

theorem recordsIn_fileOf {json : AofJson} (hjson : json.Lawful) (rs : List AofRecord) :
    recordsIn json (some (fileOf json rs)) = rs := by
  have hlines : ∀ line ∈ rs.map (lineOf json), 10 ∉ line := by
    intro line hline
    obtain ⟨r, -, rfl⟩ := List.mem_map.1 hline
    exact newline_notMem_lineOf hjson r
  have hsplit := splitLines_flatMap hlines []
  rw [List.append_nil, splitLines, List.append_nil] at hsplit
  have hread : ∀ r, ((fromUtf8 (lineOf json r)).bind fun s => json.fromStr (String.ofList (trim s.toList))) =
      some r := by
    intro r
    rw [lineOf, fromUtf8_utf8Bytes, Option.bind_some, trim_toString hjson, String.ofList_toList, hjson.roundTrip]
  rw [recordsIn, Option.getD_some, fileOf, hsplit, List.filterMap_map]
  exact (List.filterMap_congr fun r _ => hread r).trans List.filterMap_some

theorem openAof_fileOf {json : AofJson} (hjson : json.Lawful) {now maxKeys : Nat} {rs : List AofRecord}
    (hrs : ∀ r ∈ rs, r.InRange now) : Cache.openAof json now maxKeys (some (fileOf json rs)) =
      .ok ⟨(history rs).mapEntries fun _ p => entryAt now p, maxKeys, some (fileOf json rs), now, aofSyncInterval,
        0⟩ := by
  have hfile := replay_fileOf hjson now rs []
  rw [List.append_nil, replay_eq hrs] at hfile
  rw [Cache.openAof]
  simp only [hfile]
  rfl

/-! ## What the calls do -/

section Calls

variable {json : AofJson} {now : Nat}

@[simp] theorem store_appendAof (c : Cache) (r : AofRecord) : (c.appendAof json now r).store = c.store := by
  rw [Cache.appendAof]
  split
  · rfl
  · dsimp only
    split <;> rfl

@[simp] theorem maxKeys_appendAof (c : Cache) (r : AofRecord) : (c.appendAof json now r).maxKeys = c.maxKeys := by
  rw [Cache.appendAof]
  split
  · rfl
  · dsimp only
    split <;> rfl

end Calls

/-- The invariant: the file holds records in range, the store is what their history says, and there is room. -/
structure Faithful (json : AofJson) (w : World) (rs : List AofRecord) : Prop where
  file : w.cache.aof = some (fileOf json rs)
  store : view w.now w.cache.store = historyView (history rs)
  inRange : ∀ r ∈ rs, r.InRange w.now
  room : w.cache.store.entries.length ≤ w.cache.maxKeys

theorem Faithful.get {json : AofJson} {w : World} {rs : List AofRecord} (h : Faithful json w rs) (key : String) :
    (w.cache.store.get key).map (fun e => (e.value, e.isExpired w.now)) =
      ((history rs).get key).map fun p => (p.1, decide (p.2 = some 0)) := by
  have hkey := congrArg (fun m => SortedMap.get m key) h.store
  simpa only [view, historyView, SortedMap.get_mapEntries] using hkey

theorem history_concat (rs : List AofRecord) (r : AofRecord) : history (rs ++ [r]) = (history rs).record r :=
  List.foldl_append

theorem view_insert (now : Nat) (store : Store) (key : String) (e : CacheEntry) :
    view now (store.insert key e) = (view now store).insert key (e.value, e.isExpired now) :=
  mapEntries_insert _ _ _ _

theorem Faithful.write {json : AofJson} {w : World} {rs : List AofRecord} (h : Faithful json w rs) {store : Store}
    {r : AofRecord} (hr : r.InRange w.now) (hview : view w.now store = historyView ((history rs).record r))
    (hroom : store.entries.length ≤ w.cache.maxKeys) :
    Faithful json { w with cache := Cache.appendAof json w.now { w.cache with store := store } r } (rs ++ [r]) where
  file := by
    rw [aof_appendAof, fileOf_append]
    exact congrArg (Option.map (· ++ fileOf json [r])) h.file
  store := by
    rw [store_appendAof, history_concat]
    exact hview
  inRange := by
    intro r' hr'
    rcases List.mem_append.1 hr' with hr' | hr'
    · exact h.inRange r' hr'
    · exact List.mem_singleton.1 hr' ▸ hr
  room := by
    rw [store_appendAof, maxKeys_appendAof]
    exact hroom

theorem live_eq_view (c : Cache) (now : Nat) (key : String) :
    c.live now key = ((view now c.store).get key).bind fun p => if p.2 then none else some p.1 := by
  rw [Cache.live, view, get_mapEntries, Option.bind_map]
  rfl

/-- The property from the invariant. -/
theorem Faithful.reproduces {json : AofJson} (hjson : json.Lawful) {w : World} {rs : List AofRecord}
    (h : Faithful json w rs) : Reproduces json w := by
  have hopen := @openAof_fileOf json hjson w.now w.cache.maxKeys rs h.inRange
  have hview := (view_entryAt w.now (history rs)).trans h.store.symm
  refine ⟨_, (congrArg _ h.file).trans hopen, ?_, ?_⟩
  · intro key
    rw [live_eq_view, live_eq_view, hview]
  · calc ((history rs).mapEntries fun _ p => entryAt w.now p).entries.length
        = (view w.now ((history rs).mapEntries fun _ p => entryAt w.now p)).entries.length :=
          (length_mapEntries _ _).symm
      _ = (view w.now w.cache.store).entries.length := by rw [hview]
      _ = w.cache.store.entries.length := length_mapEntries _ _
      _ ≤ w.cache.maxKeys := h.room

/-! ## Steps -/

section Steps

variable {json : AofJson} {iter : Store → List (String × CacheEntry)} {w : World} {rs : List AofRecord}

section

variable (h : Faithful json w rs)
include h

theorem faithful_set {key value : String} {ttlSecs : Option UInt64}
    (hcalm : (w.cache.store.get key).isSome ∨ w.cache.store.entries.length < w.cache.maxKeys) :
    ∃ rs, Faithful json { w with cache := (w.cache.set json iter w.now key value ttlSecs).1 } rs := by
  have hroom : ¬ ((w.cache.store.get key).isNone ∧ w.cache.maxKeys ≤ w.cache.store.entries.length) := by
    rintro ⟨hnone, hfull⟩
    rcases hcalm with hsome | hlt
    · rw [Option.isNone_iff_eq_none] at hnone
      rw [hnone] at hsome
      exact nomatch hsome
    · exact absurd hlt (Nat.not_lt.2 hfull)
  rw [Cache.set]
  simp only [if_neg hroom]
  cases hdeadline : deadline w.now ttlSecs with
  | none => exact ⟨rs, h⟩
  | some expiresAt =>
    obtain ⟨hrange, rfl⟩ := deadline_eq_some.1 hdeadline
    refine ⟨_, h.write (r := .set key value ttlSecs) hrange ?_ ?_⟩
    · have hexpired := isExpired_entryAt w.now (value, ttlSecs)
      rw [entryAt] at hexpired
      rw [view_insert, h.store, hexpired, History.record, historyView, historyView, mapEntries_insert]
      rfl
    · rw [length_insert]
      split
      · exact h.room
      · rename_i hnone
        exact hcalm.resolve_left hnone

theorem faithful_del {key : String} (hcalm : w.cache.holdsExpired w.now key = false) :
    ∃ rs, Faithful json { w with cache := (w.cache.del json w.now key).1 } rs := by
  rw [Cache.del, if_neg (Bool.eq_false_iff.1 hcalm)]
  cases hget : w.cache.store.get key with
  | none =>
    refine ⟨rs, ?_⟩
    simp only [Option.isSome_none, Bool.false_eq_true, if_false, erase_of_get hget]
    exact h
  | some e =>
    refine ⟨_, h.write (r := .del key) (fun _ h => nomatch h) ?_ ?_⟩
    · rw [History.record, historyView, mapEntries_erase, ← historyView, ← h.store]
      exact mapEntries_erase _ _ _
    · exact Nat.le_trans (length_erase_le _ _) h.room

theorem faithful_expire {key : String} {ttlSecs : UInt64} :
    ∃ rs, Faithful json { w with cache := (w.cache.expire json w.now key ttlSecs).1 } rs := by
  rw [Cache.expire]
  cases hget : w.cache.store.get key with
  | none => exact ⟨rs, h⟩
  | some e =>
    by_cases hexpired : e.isExpired w.now
    · simp only [if_pos hexpired]
      exact ⟨rs, h⟩
    · simp only [if_neg hexpired]
      cases hafter : instantAfter w.now ttlSecs with
      | none => exact ⟨rs, h⟩
      | some t =>
        have hdeadline : deadline w.now (some ttlSecs) = some (some t) := by
          rw [deadline, hafter, Option.map_some]
        obtain ⟨hrange, ht⟩ := deadline_eq_some.1 hdeadline
        have hkey := h.get key
        rw [hget, Option.map_some] at hkey
        obtain ⟨p, hp, hvalue⟩ := Option.map_eq_some_iff.1 hkey.symm
        have hentry : ({ e with expiresAt := some t } : CacheEntry).isExpired w.now =
            decide (some ttlSecs = some 0) := by
          rw [← isExpired_entryAt w.now (p.1, some ttlSecs), entryAt, ht]
          rfl
        refine ⟨_, h.write (r := .expire key ttlSecs) hrange ?_ ?_⟩
        · rw [view_insert, h.store, hentry, History.record, adjust, hp, historyView, historyView,
            mapEntries_insert]
          rw [show p.1 = e.value from congrArg Prod.fst hvalue]
        · rw [length_insert, hget]
          exact h.room

theorem faithful_get {key : String} (hcalm : w.cache.holdsExpired w.now key = false) :
    Faithful json { w with cache := (w.cache.get w.now key).1 } rs := by
  rw [Cache.get, if_neg (Bool.eq_false_iff.1 hcalm)]
  cases hget : w.cache.store.get key with
  | none => exact h
  | some e =>
    refine ⟨h.file, ?_, h.inRange, ?_⟩
    · have hview : (view w.now w.cache.store).get key = some (e.value, e.isExpired w.now) := by
        rw [view, get_mapEntries, hget, Option.map_some]
      refine Eq.trans ?_ h.store
      exact (view_insert _ _ _ _).trans (insert_of_get hview)
    · show (w.cache.store.insert key _).entries.length ≤ _
      rw [length_insert, hget]
      exact h.room

end

theorem faithful_tick (hjson : json.Lawful) (h : Faithful json w rs) {nanos : Nat}
    (hcalm : ∀ p ∈ w.cache.store.entries, p.2.isExpired (w.now + nanos) → p.2.isExpired w.now)
    (hrange : ∀ r ∈ recordsIn json w.cache.aof, r.InRange (w.now + nanos)) :
    Faithful json { w with now := w.now + nanos } rs where
  file := h.file
  store := by
    refine Eq.trans ?_ h.store
    apply ext_get
    intro key
    rw [view, view, get_mapEntries, get_mapEntries]
    cases hget : w.cache.store.get key with
    | none => rfl
    | some e =>
      have hlater : e.isExpired w.now → e.isExpired (w.now + nanos) := by
        rw [CacheEntry.isExpired, CacheEntry.isExpired]
        cases e.expiresAt with
        | none => exact id
        | some exp =>
          simp only [decide_eq_true_eq]
          intro hexp
          omega
      have hsame : e.isExpired (w.now + nanos) = e.isExpired w.now :=
        Bool.eq_iff_iff.2 ⟨hcalm (key, e) (mem_entries_iff.2 hget), hlater⟩
      rw [Option.map_some, Option.map_some, hsame]
  inRange := by
    rw [h.file, recordsIn_fileOf hjson] at hrange
    exact hrange
  room := h.room

theorem faithful_reopen (hjson : json.Lawful) (h : Faithful json w rs) {cache : Cache}
    (hopen : Cache.openAof json w.now w.cache.maxKeys w.cache.aof = .ok cache) :
    Faithful json { w with cache := cache } rs := by
  have hlength : ((history rs).mapEntries fun _ p => entryAt w.now p).entries.length ≤ w.cache.maxKeys := by
    obtain ⟨r, hr, -, hroom⟩ := h.reproduces hjson
    rw [h.file, openAof_fileOf hjson h.inRange] at hr
    cases hr
    exact hroom
  rw [h.file, openAof_fileOf hjson h.inRange] at hopen
  cases hopen
  exact ⟨rfl, view_entryAt w.now (history rs), h.inRange, hlength⟩

/-- Every calm step keeps the invariant. -/
theorem faithful_step (hjson : json.Lawful) (h : Faithful json w rs) {op : Op} (hcalm : Calm json w op) {w' : World}
    (hstep : step json iter w op = some w') : ∃ rs, Faithful json w' rs := by
  cases op with
  | set key value ttlSecs =>
    cases hstep
    exact faithful_set h hcalm
  | del key =>
    cases hstep
    exact faithful_del h hcalm
  | expire key ttlSecs =>
    cases hstep
    exact faithful_expire h
  | get key =>
    cases hstep
    exact ⟨rs, faithful_get h hcalm⟩
  | tick nanos =>
    cases hstep
    exact ⟨rs, faithful_tick hjson h hcalm.1 hcalm.2⟩
  | reopen =>
    rw [step] at hstep
    split at hstep
    · rename_i cache hopen
      cases hstep
      exact ⟨rs, faithful_reopen hjson h hopen⟩
    · exact nomatch hstep

end Steps

/-- **A reopened cache reproduces the closed one in every calm run.** -/
theorem reproduces_of_calm {json : AofJson} (hjson : json.Lawful) (iter : Store → List (String × CacheEntry))
    {start maxKeys : Nat} {w : World}
    (h : ReachableIf (step json iter) (Calm json) (World.init start maxKeys) w) : Reproduces json w := by
  have hinit : ∃ rs, Faithful json (World.init start maxKeys) rs :=
    ⟨[], rfl, rfl, (fun _ h => nomatch h), Nat.zero_le _⟩
  obtain ⟨rs, hfaithful⟩ := h.invariant (I := fun w => ∃ rs, Faithful json w rs) hinit
    fun _ _ _ _ ⟨_, hw⟩ hcalm hstep => faithful_step hjson hw hcalm hstep
  exact hfaithful.reproduces hjson

/-- A key with a time to live, a read, a deletion and two openings. -/
theorem reproduces_of_calm_five : ∃ w, w.now = 7 ∧ w.cache.live 7 "a" = some "1" ∧ Reproduces Serde.serde w := by
  have hrun : (execIf (step Serde.serde entries) (fun w op => decide (Calm Serde.serde w op))
      (World.init 0 2) [.set "a" "1" (some 60), .set "b" "2" none, .reopen, .tick 7, .del "b", .get "a", .reopen]).map
        (fun w => decide (w.now = 7 ∧ w.cache.live 7 "a" = some "1")) = some true := by
    decide +kernel
  obtain ⟨w, hw, hfacts⟩ := Option.map_eq_some_iff.1 hrun
  obtain ⟨hnow, hlive⟩ := of_decide_eq_true hfacts
  exact ⟨w, hnow, hlive, reproduces_of_calm Serde.lawful_serde entries
    (ReachableIf.init.execIf (fun _ _ => of_decide_eq_true) hw)⟩

/-- **An evicted key comes back**: with room for one key, the second key evicts the first one, and the
reopened cache has both. -/
theorem evicted_key_returns :
    ¬ ∀ json : AofJson, json.Lawful → ∀ iter start maxKeys w,
      Reachable (step json iter) (World.init start maxKeys) w → Reproduces json w := by
  intro h
  have hrun : (exec (step Serde.serde entries) (World.init 0 1)
      [.set "a" "1" none, .tick 1, .set "b" "2" none]).map (fun w =>
        ((Cache.openAof Serde.serde w.now w.cache.maxKeys w.cache.aof).map fun r => r.live w.now "a",
          w.cache.live w.now "a")) = some (.ok (some "1"), none) := by
    rfl
  obtain ⟨w, hw, hfacts⟩ := Option.map_eq_some_iff.1 hrun
  obtain ⟨hopen, hclosed⟩ := Prod.mk.inj hfacts
  obtain ⟨r, hr, hlive, -⟩ := h Serde.serde Serde.lawful_serde entries 0 1 w (reachable_of_exec hw)
  rw [hr] at hopen
  have hreopened : r.live w.now "a" = some "1" := Except.ok.inj hopen
  rw [hlive, hclosed] at hreopened
  exact nomatch hreopened

end SystemDesignLabs.KvCache
