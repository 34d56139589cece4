import SystemDesignLabs.Core.CountMap

/-!
# Events, aggregates and tumbling windows

`event.go` and the window of `tumbling.go`. Instants and durations are nanoseconds; instants count from the
zero time, so that `IsZero` compares with 0. A hash map is iterated over in some order of its entries, which
each call chooses (`MapOrder`). `Counted` says which events a list of results is about.
-/

namespace SystemDesignLabs.StreamProcessor

open List Core

structure Event where
  key : String
  value : Float
  timestamp : Int

structure WindowResult where
  windowStart : Int
  windowEnd : Int
  key : String
  count : Nat
  sum : Float
  min : Float
  max : Float
  avg : Float

def maxFloat64 : Float := Float.ofBits 0x7fefffffffffffff

/-- The statistics of the values of one key. -/
def aggregate (start stop : Int) (key : String) (vals : List Float) : WindowResult where
  windowStart := start
  windowEnd := stop
  key := key
  count := vals.length
  sum := vals.foldl (· + ·) 0
  min := vals.foldl (fun m v => if v < m then v else m) maxFloat64
  max := vals.foldl (fun m v => if m < v then v else m) (-maxFloat64)
  avg := if 0 < vals.length then vals.foldl (· + ·) 0 / Float.ofNat vals.length else 0

/-- The values of each key. -/
abbrev Buckets := SortedMap String (List Float)

/-- An order in which the entries of a map are visited. -/
structure MapOrder where
  entries : Buckets → List (String × List Float)
  perm : ∀ m, (entries m).Perm m.entries

/-- The order of the keys. -/
def MapOrder.sorted : MapOrder := ⟨SortedMap.entries, fun _ => .refl _⟩

/-! ### Tumbling windows -/

structure TumblingWindow where
  size : Int
  startAt : Int
  buckets : Buckets

/-- `t.Truncate(d)`. -/
def truncate (t d : Int) : Int := t - t % d

namespace TumblingWindow

/-- `NewTumblingWindow`. -/
def new (size : Int) : TumblingWindow := ⟨size, 0, .empty⟩

/-- The results for all keys. -/
def flushLocked (order : MapOrder) (tw : TumblingWindow) : List WindowResult :=
  if tw.buckets.entries.length = 0 then []
  else (order.entries tw.buckets).map fun p => aggregate tw.startAt (tw.startAt + tw.size) p.1 p.2

/-- The window after this one, without events. -/
def advance (tw : TumblingWindow) : TumblingWindow := { tw with startAt := tw.startAt + tw.size, buckets := .empty }

/-- Flush and advance the window until it ends after `t`. The rounds that are left are enough if the size is
positive (`processLoop_done`). -/
def processLoop (order : MapOrder) (t : Int) : Nat → TumblingWindow → List WindowResult →
    TumblingWindow × List WindowResult
  | 0, tw, flushed => (tw, flushed)
  | rounds + 1, tw, flushed =>
    if tw.startAt ≠ 0 ∧ tw.startAt + tw.size + -1 < t then
      processLoop order t rounds tw.advance (flushed ++ tw.flushLocked order)
    else (tw, flushed)

/-- Add an event; the results are those of the windows that ended before it. -/
def process (order : MapOrder) (tw : TumblingWindow) (e : Event) : TumblingWindow × List WindowResult :=
  let tw := if tw.startAt = 0 then { tw with startAt := truncate e.timestamp tw.size } else tw
  let r := processLoop order e.timestamp (e.timestamp - tw.startAt).toNat tw []
  ({ r.1 with buckets := pushAt r.1.buckets e.key e.value }, r.2)

/-- The results of the current window, which ends, whatever the time. -/
def flush (order : MapOrder) (tw : TumblingWindow) : TumblingWindow × List WindowResult :=
  if tw.startAt = 0 then (tw, []) else (tw.advance, tw.flushLocked order)

end TumblingWindow

/-! ### What a result counts -/

/-- The events of one result. -/
structure Group where
  start : Int
  stop : Int
  key : String
  events : List Event

def Group.result (g : Group) : WindowResult := aggregate g.start g.stop g.key (g.events.map Event.value)

/-- The result stands for this event: it has its key and its interval contains the timestamp. -/
def Group.Contains (g : Group) (e : Event) : Prop := e.key = g.key ∧ g.start ≤ e.timestamp ∧ e.timestamp < g.stop

/-- Each of the events is counted in exactly one of the results, which stands for it in the sense of `fits`. -/
def Counted (fits : Group → Event → Prop) (results : List WindowResult) (events : List Event) : Prop :=
  ∃ groups : List Group, results = groups.map Group.result ∧ (∀ g ∈ groups, ∀ e ∈ g.events, fits g e) ∧
    (groups.flatMap Group.events).Perm events

section Counted

variable {fits : Group → Event → Prop} {results results' : List WindowResult} {events events' : List Event}

theorem counted_nil : Counted fits [] [] := ⟨[], rfl, (fun _ h => nomatch h), .refl _⟩

theorem Counted.append (h : Counted fits results events) (h' : Counted fits results' events') :
    Counted fits (results ++ results') (events ++ events') := by
  obtain ⟨groups, rfl, hfits, hperm⟩ := h
  obtain ⟨groups', rfl, hfits', hperm'⟩ := h'
  refine ⟨groups ++ groups', map_append.symm, ?_, ?_⟩
  · intro g hg
    rcases mem_append.1 hg with hg | hg
    · exact hfits g hg
    · exact hfits' g hg
  · rw [flatMap_append]
    exact hperm.append hperm'

theorem Counted.perm (h : Counted fits results events) (hperm : events.Perm events') : Counted fits results events' := by
  obtain ⟨groups, hresults, hfits, hgroups⟩ := h
  exact ⟨groups, hresults, hfits, hgroups.trans hperm⟩

theorem Counted.eq_nil (h : Counted fits [] events) : events = [] := by
  obtain ⟨groups, hresults, -, hperm⟩ := h
  rw [map_eq_nil_iff.1 hresults.symm] at hperm
  exact nil_perm.1 hperm

theorem Counted.sum_count (h : Counted fits results events) : (results.map WindowResult.count).sum = events.length := by
  obtain ⟨groups, rfl, -, hperm⟩ := h
  rw [← hperm.length_eq, length_flatMap, map_map]
  refine congrArg sum (map_congr_left fun g _ => ?_)
  exact length_map _

/-- The buckets of these events. -/
def bucketsOf (events : List Event) : Buckets := groupBy Event.key Event.value events

/-- The results of buckets count the events that were put into them. -/
theorem counted_bucketsOf (order : MapOrder) (start stop : Int)
    (hfits : ∀ e ∈ events, fits ⟨start, stop, e.key, having Event.key events e.key⟩ e) :
    Counted fits ((order.entries (bucketsOf events)).map fun p => aggregate start stop p.1 p.2) events := by
  have hentries : ∀ p ∈ order.entries (bucketsOf events),
      p.2 = (having Event.key events p.1).map Event.value ∧ ∃ e ∈ events, e.key = p.1 := fun p hp =>
    mem_entries_groupBy.1 ((order.perm _).mem_iff.1 hp)
  refine ⟨(order.entries (bucketsOf events)).map fun p => ⟨start, stop, p.1, having Event.key events p.1⟩, ?_, ?_, ?_⟩
  · rw [map_map]
    refine map_congr_left fun p hp => ?_
    rw [(hentries p hp).1]
    rfl
  · intro g hg e he
    obtain ⟨p, -, rfl⟩ := mem_map.1 hg
    obtain ⟨hmem, hkey⟩ := mem_having.1 he
    exact hkey ▸ hfits e hmem
  · rw [flatMap_map]
    have hnodup : ((order.entries (bucketsOf events)).map Prod.fst).Nodup :=
      ((order.perm _).map _).nodup_iff.2 (SortedMap.nodup_keys _)
    have hkeys : ∀ e ∈ events, e.key ∈ (order.entries (bucketsOf events)).map Prod.fst := by
      intro e he
      have hentry : (e.key, (having Event.key events e.key).map Event.value) ∈ (bucketsOf events).entries :=
        mem_entries_groupBy.2 ⟨rfl, e, he, rfl⟩
      exact mem_map.2 ⟨_, (order.perm _).mem_iff.2 hentry, rfl⟩
    have hperm := @perm_flatMap_having _ _ _ Event.key _ _ hnodup hkeys
    rw [flatMap_map] at hperm
    exact hperm

end Counted

/-! ### What the calls do -/

namespace TumblingWindow

theorem flushLocked_eq (order : MapOrder) (tw : TumblingWindow) : tw.flushLocked order =
    (order.entries tw.buckets).map fun p => aggregate tw.startAt (tw.startAt + tw.size) p.1 p.2 := by
  rw [flushLocked]
  split
  · rename_i hlength
    have hperm := order.perm tw.buckets
    rw [length_eq_zero_iff.1 hlength] at hperm
    rw [perm_nil.1 hperm]
    rfl
  · rfl

end TumblingWindow

end SystemDesignLabs.StreamProcessor
