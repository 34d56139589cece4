import SystemDesignLabs.Core.Fallible
import SystemDesignLabs.KvCache.Replay

/-!
# Crashes in the middle of a line

A crash may leave a front of one more line at the end of the file. The replay skips it, unless it is cut
inside a character: then no line of the file is read. The next session appends where the file ends, so that
its first record continues the torn line and is skipped with it. Where each write starts at the end of a line
and each cut is between two characters (`CleanTail`), every acknowledged record is replayed after every
crash. If the only thing missing is the line feed, the record that was being written is replayed as well.
-/

namespace SystemDesignLabs.KvCache

open Core SortedMap

/-! ## Runs with crashes -/

/-- A cache, or the file that the last one left, with the records that were acknowledged in all sessions
and the one that was being written at the crash, if only its line feed is missing. -/
structure CrashWorld where
  cache : Cache
  running : Bool
  now : Nat
  acked : List AofRecord
  inFlight : List AofRecord
  deriving DecidableEq

inductive CrashOp where
  | set (key value : String) (ttlSecs : Option UInt64)
  | del (key : String)
  | expire (key : String) (ttlSecs : UInt64)
  | get (key : String)
  | tick (nanos : Nat)
  | crash (record : AofRecord) (written : Nat)
  | reopen
  deriving DecidableEq

namespace CrashWorld

/-- A call that returned, with the record that it acknowledges. -/
def returned (w : CrashWorld) (cache : Cache) (acked : List AofRecord) : CrashWorld :=
  { w with cache := cache, acked := w.acked ++ acked }

variable (json : AofJson) (iter : Store → List (String × CacheEntry))

/-- One step. A crash leaves the first `written` bytes of the line of the record that is being written, whose
deadline has been computed; calls need a running cache. -/
def step (w : CrashWorld) : CrashOp → Option CrashWorld
  | .set key value ttlSecs =>
    if w.running then
      let r := w.cache.set json iter w.now key value ttlSecs
      some (w.returned r.1 (if r.2.isSome then [.set key value ttlSecs] else []))
    else none
  | .del key =>
    if w.running then
      let r := w.cache.del json w.now key
      some (w.returned r.1 (if r.2 then [.del key] else []))
    else none
  | .expire key ttlSecs =>
    if w.running then
      let r := w.cache.expire json w.now key ttlSecs
      some (w.returned r.1 (if r.2 = some true then [.expire key ttlSecs] else []))
    else none
  | .get key => if w.running then some (w.returned (w.cache.get w.now key).1 []) else none
  | .tick nanos => some { w with now := w.now + nanos }
  | .crash record written =>
    if w.running ∧ written ≤ (lineOf json record).length ∧ record.InRange w.now then
      some { w with
        cache := { w.cache with aof := w.cache.aof.map (· ++ (lineOf json record).take written) }
        running := false
        inFlight := if written = 0 then w.inFlight
          else if written = (lineOf json record).length then [record] else [] }
    else none
  | .reopen =>
    match Cache.openAof json w.now w.cache.maxKeys w.cache.aof with
    | .ok cache => some { w with cache := cache, running := true }
    | .error _ => none

def init (start maxKeys : Nat) : CrashWorld := ⟨(World.init start maxKeys).cache, true, start, [], []⟩

/-- Opening the file now succeeds, with the effect of all acknowledged records, and of the record in flight if
only its line feed is missing. -/
def Survives (w : CrashWorld) : Prop :=
  ∃ c, Cache.openAof json w.now w.cache.maxKeys w.cache.aof = .ok c ∧
    replay w.now (w.acked ++ w.inFlight) = .ok c.store

/-- The file is empty or ends with a line feed. -/
def AtLineEnd (w : CrashWorld) : Prop := ∀ b ∈ (w.cache.aof.getD []).getLast?, b = 10

instance (w : CrashWorld) : Decidable w.AtLineEnd := by
  unfold AtLineEnd
  infer_instance

/-- The key is stored and has not expired. -/
def Holds (w : CrashWorld) (key : String) : Prop :=
  (w.cache.store.get key).isSome ∧ w.cache.holdsExpired w.now key = false

instance (w : CrashWorld) (key : String) : Decidable (w.Holds key) := by
  unfold Holds
  infer_instance

/-- The condition on a step: a record is written at the end of a line, a torn line is cut between two
characters, and the deadlines of a replay can be represented. -/
def CleanTail (w : CrashWorld) : CrashOp → Prop
  | .set _ _ ttlSecs => (deadline w.now ttlSecs).isSome → w.AtLineEnd
  | .del key => w.Holds key → w.AtLineEnd
  | .expire key _ => w.Holds key → w.AtLineEnd
  | .crash record written =>
    written = 0 ∨ w.AtLineEnd ∧ (fromUtf8 ((lineOf json record).take written)).isSome
  | .tick nanos => ∀ r ∈ w.acked ++ w.inFlight, r.InRange (w.now + nanos)
  | _ => True

instance (w : CrashWorld) (op : CrashOp) : Decidable (CleanTail json w op) := by
  cases op <;> unfold CleanTail <;> infer_instance

/-! ## The invariant -/

/-- What may stand behind the last line feed of the file: nothing, or a front of one line. -/
inductive TailOf : List UInt8 → List AofRecord → Prop where
  | clean : TailOf [] []
  | torn {tail : List UInt8} {r : AofRecord} {s : String} (hne : tail ≠ []) (hfront : tail <+: lineOf json r)
      (hs : fromUtf8 tail = some s) : TailOf tail (if tail = lineOf json r then [r] else [])

/-- The file is the acknowledged lines and a tail. -/
structure Kept (w : CrashWorld) : Prop where
  file : ∃ tail, w.cache.aof = some (fileOf json w.acked ++ tail) ∧ TailOf json tail w.inFlight
  inRange : ∀ r ∈ w.acked ++ w.inFlight, r.InRange w.now

section Kept

variable {json : AofJson} {iter : Store → List (String × CacheEntry)} {w : CrashWorld}

variable {inFlight : List AofRecord}

section

variable (hjson : json.Lawful)
include hjson

theorem replay_tail (now : Nat) (store : Store) {tail : List UInt8}
    (h : TailOf json tail inFlight) :
    (splitLines tail).foldlM (replayLine json now) store = inFlight.foldlM (applyRecord now) store := by
  cases h with
  | clean => rfl
  | torn hne hfront hs =>
    rw [replay_torn hjson now store hfront hs]
    split
    · rw [List.foldlM_cons]
      cases applyRecord now store _ <;> rfl
    · rfl

/-- The promise from the invariant. -/
theorem Kept.survives (h : Kept json w) : Survives json w := by
  obtain ⟨tail, hfile, htail⟩ := h.file
  have hreplay := replay_eq h.inRange
  have hopen : (splitLines (fileOf json w.acked ++ tail)).foldlM (replayLine json w.now) empty =
      replay w.now (w.acked ++ w.inFlight) := by
    rw [replay_fileOf hjson, replay, replay, List.foldlM_append]
    exact bind_congr fun store => replay_tail hjson w.now store htail
  refine ⟨⟨_, w.cache.maxKeys, some (fileOf json w.acked ++ tail), w.now, aofSyncInterval, 0⟩, ?_, hreplay⟩
  rw [hfile, Cache.openAof]
  simp only [hopen, hreplay]
  rfl

theorem tail_eq_nil {file tail : List UInt8}
    (hend : ∀ b ∈ (file ++ tail).getLast?, b = 10) (h : TailOf json tail inFlight) : tail = [] ∧ inFlight = [] := by
  cases h with
  | clean => exact ⟨rfl, rfl⟩
  | torn hne hfront hs =>
    rename_i r _
    have hlast : (10 : UInt8) ∈ tail := by
      have hb := hend (tail.getLast hne) (by rw [List.getLast?_append_of_ne_nil _ hne, List.getLast?_eq_some_getLast hne]; rfl)
      exact hb ▸ List.getLast_mem hne
    exact absurd (hfront.subset hlast) (newline_notMem_lineOf hjson r)

/-- A call keeps the invariant, if what it appends starts at the end of a line. -/
theorem Kept.returned (h : Kept json w) {cache : Cache} {rs : List AofRecord}
    (haof : cache.aof = w.cache.aof.map (· ++ fileOf json rs)) (hend : rs ≠ [] → w.AtLineEnd)
    (hrange : ∀ r ∈ rs, r.InRange w.now) : Kept json (w.returned cache rs) := by
  obtain ⟨tail, hfile, htail⟩ := h.file
  have hinRange : ∀ r ∈ w.acked ++ rs ++ w.inFlight, r.InRange w.now := by
    intro r hr
    rcases List.mem_append.1 hr with hr | hr
    · rcases List.mem_append.1 hr with hr | hr
      · exact h.inRange r (List.mem_append_left _ hr)
      · exact hrange r hr
    · exact h.inRange r (List.mem_append_right _ hr)
  refine ⟨?_, hinRange⟩
  by_cases hrs : rs = []
  · subst hrs
    refine ⟨tail, ?_, htail⟩
    show cache.aof = some (fileOf json (w.acked ++ []) ++ tail)
    rw [haof, hfile, Option.map_some, List.append_nil, fileOf, fileOf]
    exact congrArg some (List.append_nil _)
  · have hnil := tail_eq_nil hjson (by simpa [AtLineEnd, hfile] using hend hrs) htail
    refine ⟨tail, ?_, htail⟩
    show cache.aof = some (fileOf json (w.acked ++ rs) ++ tail)
    rw [haof, hfile, Option.map_some, hnil.1, List.append_nil, List.append_nil, fileOf_append]

end

/-! ## Steps -/

theorem map_append_fileOf_nil (file : Option (List UInt8)) : file.map (· ++ fileOf json []) = file := by
  cases file with
  | none => rfl
  | some bytes => exact congrArg some (List.append_nil bytes)

theorem aof_evictLru (c : Cache) : (c.evictLru iter).aof = c.aof := by
  rw [Cache.evictLru]
  split <;> rfl

theorem aof_set (c : Cache) (now : Nat) (key value : String) (ttlSecs : Option UInt64) :
    (c.set json iter now key value ttlSecs).1.aof = c.aof.map (· ++ fileOf json
      (if (c.set json iter now key value ttlSecs).2.isSome then [.set key value ttlSecs] else [])) ∧
      ((c.set json iter now key value ttlSecs).2.isSome → (deadline now ttlSecs).isSome) := by
  have hevict :
      (if (c.store.get key).isNone ∧ c.maxKeys ≤ c.store.entries.length then c.evictLru iter else c).aof = c.aof := by
    split
    · exact aof_evictLru c
    · rfl
  rw [Cache.set]
  dsimp only
  cases deadline now ttlSecs with
  | none => exact ⟨hevict.trans (map_append_fileOf_nil c.aof).symm, by rintro ⟨⟩⟩
  | some expiresAt =>
    refine ⟨?_, fun _ => rfl⟩
    rw [aof_appendAof]
    exact congrArg (Option.map (· ++ fileOf json [.set key value ttlSecs])) hevict

theorem aof_del (c : Cache) (now : Nat) (key : String) :
    (c.del json now key).1.aof = c.aof.map (· ++ fileOf json (if (c.del json now key).2 then [.del key] else [])) ∧
      ((c.del json now key).2 → (c.store.get key).isSome ∧ c.holdsExpired now key = false) := by
  rw [Cache.del]
  split
  · exact ⟨(map_append_fileOf_nil c.aof).symm, by rintro ⟨⟩⟩
  · rename_i hexpired
    cases hget : c.store.get key with
    | none => exact ⟨(map_append_fileOf_nil c.aof).symm, by rintro ⟨⟩⟩
    | some e => exact ⟨aof_appendAof _ _ _ _, fun _ => ⟨rfl, Bool.eq_false_iff.2 hexpired⟩⟩

theorem aof_expire (c : Cache) (now : Nat) (key : String) (ttlSecs : UInt64) :
    (c.expire json now key ttlSecs).1.aof = c.aof.map (· ++ fileOf json
      (if (c.expire json now key ttlSecs).2 = some true then [.expire key ttlSecs] else [])) ∧
      ((c.expire json now key ttlSecs).2 = some true → ((c.store.get key).isSome ∧
        c.holdsExpired now key = false) ∧ (deadline now (some ttlSecs)).isSome) := by
  rw [Cache.expire, Cache.holdsExpired, deadline]
  cases hget : c.store.get key with
  | none => exact ⟨(map_append_fileOf_nil c.aof).symm, by rintro ⟨⟩⟩
  | some e =>
    dsimp only
    by_cases hexpired : e.isExpired now
    · simp only [if_pos hexpired]
      exact ⟨(map_append_fileOf_nil c.aof).symm, by rintro ⟨⟩⟩
    · simp only [if_neg hexpired]
      cases instantAfter now ttlSecs with
      | none => exact ⟨(map_append_fileOf_nil c.aof).symm, by rintro ⟨⟩⟩
      | some t => exact ⟨aof_appendAof _ _ _ _, fun _ => ⟨⟨rfl, Bool.eq_false_iff.2 hexpired⟩, rfl⟩⟩

theorem aof_get (c : Cache) (now : Nat) (key : String) : (c.get now key).1.aof = c.aof := by
  rw [Cache.get]
  split
  · rfl
  · cases c.store.get key <;> rfl

theorem kept_crash (hjson : json.Lawful) (h : Kept json w) {record : AofRecord} {written : Nat}
    (hwritten : written ≤ (lineOf json record).length) (hrange : record.InRange w.now)
    (hcut : written = 0 ∨ w.AtLineEnd ∧ (fromUtf8 ((lineOf json record).take written)).isSome) :
    Kept json { w with
      cache := { w.cache with aof := w.cache.aof.map (· ++ (lineOf json record).take written) }
      running := false
      inFlight := if written = 0 then w.inFlight
        else if written = (lineOf json record).length then [record] else [] } := by
  obtain ⟨tail, hfile, htail⟩ := h.file
  by_cases hzero : written = 0
  · subst hzero
    refine ⟨⟨tail, ?_, htail⟩, h.inRange⟩
    show w.cache.aof.map _ = _
    rw [hfile, Option.map_some, List.take_zero, List.append_nil]
  · obtain ⟨hend, hutf8⟩ := hcut.resolve_left hzero
    obtain ⟨s, hs⟩ := Option.isSome_iff_exists.1 hutf8
    obtain ⟨rfl, -⟩ := tail_eq_nil hjson (by simpa [AtLineEnd, hfile] using hend) htail
    have hlength : ((lineOf json record).take written).length = written := List.length_take_of_le hwritten
    have hne : (lineOf json record).take written ≠ [] := by
      intro hnil
      rw [hnil] at hlength
      exact hzero hlength.symm
    have hwhole : written = (lineOf json record).length ↔
        (lineOf json record).take written = lineOf json record := by
      constructor
      · intro h
        rw [h, List.take_length]
      · intro h
        rw [← hlength, h]
    simp only [if_neg hzero, hwhole]
    refine ⟨⟨(lineOf json record).take written, ?_, .torn hne (List.take_prefix _ _) hs⟩, ?_⟩
    · rw [hfile, Option.map_some, List.append_nil]
    · intro r hr
      rcases List.mem_append.1 hr with hr | hr
      · exact h.inRange r (List.mem_append_left _ hr)
      · dsimp only at hr
        split at hr
        · exact List.mem_singleton.1 hr ▸ hrange
        · exact nomatch hr

theorem inRange_of_isSome {now : Nat} {r : AofRecord} (h : (deadline now r.ttl).isSome) : r.InRange now := by
  obtain ⟨expiresAt, hexpiresAt⟩ := Option.isSome_iff_exists.1 h
  exact (deadline_eq_some.1 hexpiresAt).1

/-- Every step with a clean tail keeps the invariant. -/
theorem kept_step (hjson : json.Lawful) (h : Kept json w) {op : CrashOp} (hclean : CleanTail json w op)
    {w' : CrashWorld} (hstep : step json iter w op = some w') : Kept json w' := by
  cases op with
  | set key value ttlSecs =>
    obtain ⟨-, hstep⟩ := Option.ite_none_right_eq_some.1 hstep
    cases hstep
    obtain ⟨haof, hok⟩ := @aof_set json iter w.cache w.now key value ttlSecs
    refine h.returned hjson haof ?_ ?_
    all_goals split
    · exact fun _ => hclean (hok ‹_›)
    · exact fun hnil => absurd rfl hnil
    · exact fun r hr => List.mem_singleton.1 hr ▸ inRange_of_isSome (hok ‹_›)
    · exact fun r hr => by cases hr
  | del key =>
    obtain ⟨-, hstep⟩ := Option.ite_none_right_eq_some.1 hstep
    cases hstep
    obtain ⟨haof, hok⟩ := @aof_del json w.cache w.now key
    refine h.returned hjson haof ?_ ?_
    all_goals split
    · exact fun _ => hclean (hok ‹_›)
    · exact fun hnil => absurd rfl hnil
    · exact fun r hr => List.mem_singleton.1 hr ▸ inRange_of_isSome rfl
    · exact fun r hr => by cases hr
  | expire key ttlSecs =>
    obtain ⟨-, hstep⟩ := Option.ite_none_right_eq_some.1 hstep
    cases hstep
    obtain ⟨haof, hok⟩ := @aof_expire json w.cache w.now key ttlSecs
    refine h.returned hjson haof ?_ ?_
    all_goals split
    · exact fun _ => hclean (hok ‹_›).1
    · exact fun hnil => absurd rfl hnil
    · exact fun r hr => List.mem_singleton.1 hr ▸ inRange_of_isSome (hok ‹_›).2
    · exact fun r hr => by cases hr
  | get key =>
    obtain ⟨-, hstep⟩ := Option.ite_none_right_eq_some.1 hstep
    cases hstep
    have haof : (w.cache.get w.now key).1.aof = w.cache.aof.map (· ++ fileOf json []) :=
      (aof_get w.cache w.now key).trans (map_append_fileOf_nil _).symm
    exact h.returned hjson haof (fun hnil => absurd rfl hnil) fun r hr => by cases hr
  | tick nanos =>
    cases hstep
    exact ⟨h.file, hclean⟩
  | crash record written =>
    obtain ⟨hcond, hstep⟩ := Option.ite_none_right_eq_some.1 hstep
    cases hstep
    exact kept_crash hjson h hcond.2.1 hcond.2.2 hclean
  | reopen =>
    obtain ⟨tail, hfile, htail⟩ := h.file
    rw [step] at hstep
    split at hstep
    · rename_i cache hopen
      cases hstep
      refine ⟨⟨tail, ?_, htail⟩, h.inRange⟩
      show cache.aof = _
      rw [hfile, Cache.openAof] at hopen
      obtain ⟨store, -, hopen⟩ := bind_eq_ok.1 hopen
      cases hopen
      rfl
    · cases hstep

end Kept

/-- **Every acknowledged record survives every crash in the runs with clean tails.** -/
theorem survives_of_cleanTail {json : AofJson} (hjson : json.Lawful) (iter : Store → List (String × CacheEntry))
    {start maxKeys : Nat} {w : CrashWorld}
    (h : ReachableIf (step json iter) (CleanTail json) (init start maxKeys) w) : Survives json w := by
  have hinit : Kept json (init start maxKeys) := ⟨⟨[], rfl, .clean⟩, (fun _ h => nomatch h)⟩
  have hkept := h.invariant (I := Kept json) hinit fun _ _ _ _ hw hclean hstep => kept_step hjson hw hclean hstep
  exact hkept.survives hjson

/-- Two crashes, with nothing and with all but the line feed of a line in the file. -/
theorem survives_of_cleanTail_two : ∃ w, w.acked = [.set "a" "1" none, .set "b" "2" (some 60)] ∧
    w.inFlight = [.del "a"] ∧ Survives Serde.serde w := by
  have hrun : (execIf (step Serde.serde entries) (fun w op => decide (CleanTail Serde.serde w op))
      (init 0 2) [.set "a" "1" none, .crash (.del "a") 0, .reopen, .set "b" "2" (some 60), .tick 7,
        .crash (.del "a") (lineOf Serde.serde (.del "a")).length, .reopen]).map
        (fun w => decide (w.acked = [.set "a" "1" none, .set "b" "2" (some 60)] ∧ w.inFlight = [.del "a"])) =
          some true := by
    decide +kernel
  obtain ⟨w, hw, hfacts⟩ := Option.map_eq_some_iff.1 hrun
  obtain ⟨hacked, hinFlight⟩ := of_decide_eq_true hfacts
  exact ⟨w, hacked, hinFlight, survives_of_cleanTail Serde.lawful_serde entries
    (ReachableIf.init.execIf (fun _ _ => of_decide_eq_true) hw)⟩

/-- **A write after a torn line is lost**: it continues the torn line, and the next replay skips both. -/
theorem write_after_torn_line_lost :
    ¬ ∀ json : AofJson, json.Lawful → ∀ iter start maxKeys w,
      Reachable (step json iter) (init start maxKeys) w → Survives json w := by
  intro h
  have hrun : (exec (step Serde.serde entries) (init 0 2)
      [.set "a" "1" none, .crash (.set "b" "2" none) 3, .reopen, .set "c" "3" none, .crash (.del "a") 0]).map
        (fun w => ((Cache.openAof Serde.serde w.now w.cache.maxKeys w.cache.aof).map fun c => c.store.get "c",
          (replay w.now (w.acked ++ w.inFlight)).map fun store => (store.get "c").isSome)) =
        some (.ok none, .ok true) := by
    rfl
  obtain ⟨w, hw, hfacts⟩ := Option.map_eq_some_iff.1 hrun
  obtain ⟨hlost, hreplay⟩ := Prod.mk.inj hfacts
  obtain ⟨c, hopen, hc⟩ := h Serde.serde Serde.lawful_serde entries 0 2 w (reachable_of_exec hw)
  rw [hopen] at hlost
  rw [hc] at hreplay
  have hnone : c.store.get "c" = none := Except.ok.inj hlost
  have hsome : (c.store.get "c").isSome = true := Except.ok.inj hreplay
  rw [hnone] at hsome
  exact nomatch hsome

end CrashWorld

end SystemDesignLabs.KvCache
