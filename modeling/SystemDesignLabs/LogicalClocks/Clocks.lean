import SystemDesignLabs.Core.Causality
import SystemDesignLabs.Core.CountMap
import SystemDesignLabs.Core.TransitionSystem

/-!
# Lamport and vector clocks

`LamportClock` and `VectorClock` of `labs/logical-clocks/pkg/clocks/clocks.go` (v0 and v1), and a run of
processes that each drive one of both. A message is named by the event that sent it; it can be received at
any later time, by any process, any number of times, or never. Counters count events and are natural
numbers here: a `uint64` would wrap only after 2^64 events of one run.
-/

namespace SystemDesignLabs.LogicalClocks

open Core

/-! ## The clocks -/

structure LamportClock where
  counter : Nat
  deriving DecidableEq

namespace LamportClock

/-- `NewLamport`. -/
def new : LamportClock := ⟨0⟩

/-- `Tick`: the returned value, and the clock afterwards. -/
def tick (c : LamportClock) : Nat × LamportClock := (c.counter + 1, ⟨c.counter + 1⟩)

def send (c : LamportClock) : Nat × LamportClock := (c.counter + 1, ⟨c.counter + 1⟩)

def receive (c : LamportClock) (ts : Nat) : LamportClock :=
  ⟨(if ts > c.counter then ts else c.counter) + 1⟩

def value (c : LamportClock) : Nat := c.counter

end LamportClock

structure VectorClock where
  id : String
  clocks : CountMap String
  deriving DecidableEq

namespace VectorClock

/-- `NewVector`. -/
def new (id : String) : VectorClock := ⟨id, SortedMap.empty.insert id 0⟩

/-- `v.clocks[v.id]++`. -/
def count (v : VectorClock) : VectorClock :=
  { v with clocks := SortedMap.insert v.clocks v.id (v.clocks.count v.id + 1) }

def tick (v : VectorClock) : VectorClock := v.count

/-- `Send`: the copy that is attached to the message, and the clock afterwards. -/
def send (v : VectorClock) : CountMap String × VectorClock := (v.count.clocks, v.count)

def receive (v : VectorClock) (incoming : CountMap String) : VectorClock :=
  { v with clocks := v.clocks.raiseAll incoming.entries }.count

def vector (v : VectorClock) : CountMap String := v.clocks

end VectorClock

/-- The keys of both vectors. -/
def keys (a b : CountMap String) : List String := a.entries.map Prod.fst ++ b.entries.map Prod.fst

/-- `HappensBefore`. The order in which the keys are visited does not matter. -/
def happensBefore (a b : CountMap String) : Bool :=
  (keys a b).all (fun k => !decide (a.count k > b.count k)) &&
    (keys a b).any fun k => decide (a.count k < b.count k)

def concurrent (a b : CountMap String) : Bool := !happensBefore a b && !happensBefore b a

/-! ## Runs -/

/-- What happened: a `Tick`, a `Send` with the attached timestamps, or a `Receive` of the message that the
event with this index sent. -/
inductive Kind where
  | tick
  | send (vector : CountMap String) (ts : Nat)
  | receive (message : Nat)
  deriving DecidableEq

/-- An event, with the clocks of its process right after it. -/
structure Event (ι : Type) where
  proc : ι
  kind : Kind
  vector : CountMap String
  lamport : Nat
  deriving DecidableEq

/-- The clocks of the processes, and all events so far. -/
structure World (ι : Type) where
  vectors : ι → VectorClock
  lamports : ι → LamportClock
  events : List (Event ι)

/-- The operations of a process. -/
inductive Op (ι : Type) where
  | tick (i : ι)
  | send (i : ι)
  | receive (i : ι) (message : Nat)
  deriving DecidableEq

namespace World

variable {ι : Type} [DecidableEq ι]

/-- New clocks. -/
def start (id : ι → String) : World ι := ⟨fun i => .new (id i), fun _ => .new, []⟩

/-- An event of a process that leaves its clocks like this. -/
def record (w : World ι) (i : ι) (kind : Kind) (v : VectorClock) (c : LamportClock) : World ι where
  vectors := Function.update w.vectors i v
  lamports := Function.update w.lamports i c
  events := w.events ++ [⟨i, kind, v.vector, c.value⟩]

/-- One operation. Only a message that was sent can be received. -/
def step (w : World ι) : Op ι → Option (World ι)
  | .tick i => some (w.record i .tick (w.vectors i).tick (w.lamports i).tick.2)
  | .send i =>
    let v := (w.vectors i).send
    let c := (w.lamports i).send
    some (w.record i (.send v.1 c.1) v.2 c.2)
  | .receive i message =>
    match (w.events[message]?).map Event.kind with
    | some (.send vector ts) =>
      some (w.record i (.receive message) ((w.vectors i).receive vector) ((w.lamports i).receive ts))
    | _ => none

omit [DecidableEq ι] in
/-- The event comes directly before the other one: it is an earlier event of the same process, or it sent
the message that the other one receives. -/
def Direct (w : World ι) (d e : Nat) : Prop :=
  d < e ∧ ∃ a b, w.events[d]? = some a ∧ w.events[e]? = some b ∧
    (a.proc = b.proc ∨ b.kind = .receive d)

/-- Causal precedence. -/
def Precedes (w : World ι) : Nat → Nat → Prop := Relation.TransGen w.Direct

end World

/-!
## Vector clocks characterise causality

In every run the vectors of the events are stamps by the usual rule (`World.Invariant`), so the comparison
of two vectors tells whether one event causally precedes the other, and Lamport timestamps grow along the
causal order (`World.clocks_characterise`).
-/

/-! ### Comparing vectors -/

theorem mem_keys {a b : CountMap String} {k : String} (hk : k ∉ keys a b) : a.count k = 0 ∧ b.count k = 0 := by
  have hnone : ∀ m : CountMap String, k ∉ m.entries.map Prod.fst → m.count k = 0 := by
    intro m hm
    have hget : SortedMap.get m k = none := by
      refine SortedList.find_eq_none.2 fun p hp heq => hm ?_
      exact heq ▸ List.mem_map_of_mem hp
    rw [CountMap.count, hget]
    rfl
  rw [keys, List.mem_append, not_or] at hk
  exact ⟨hnone a hk.1, hnone b hk.2⟩

/-- `HappensBefore` compares all counts, where a missing key counts zero. -/
theorem happensBefore_iff {a b : CountMap String} : happensBefore a b = true ↔
    (∀ k, a.count k ≤ b.count k) ∧ ∃ k, a.count k < b.count k := by
  rw [happensBefore, Bool.and_eq_true, List.all_eq_true, List.any_eq_true]
  simp only [Bool.not_eq_true', decide_eq_false_iff_not, decide_eq_true_eq, Nat.not_lt]
  refine and_congr ⟨fun hall k => ?_, fun hall k _ => hall k⟩ ⟨fun ⟨k, _, hk⟩ => ⟨k, hk⟩, ?_⟩
  · by_cases hk : k ∈ keys a b
    · exact hall k hk
    · rw [(mem_keys hk).1]
      exact Nat.zero_le _
  · rintro ⟨k, hlt⟩
    refine ⟨k, ?_, hlt⟩
    by_contra hk
    rw [(mem_keys hk).2] at hlt
    exact Nat.not_lt_zero _ hlt

namespace VectorClock

variable (v : VectorClock)

theorem count_count (k : String) :
    v.count.clocks.count k = if k = v.id then v.clocks.count v.id + 1 else v.clocks.count k :=
  CountMap.count_insert _ _ _ _

theorem count_receive (incoming : CountMap String) (k : String) : (v.receive incoming).clocks.count k =
    if k = v.id then max (v.clocks.count k) (incoming.count k) + 1 else max (v.clocks.count k) (incoming.count k) := by
  have hmax : ∀ k, (v.clocks.raiseAll incoming.entries).count k =
      max (v.clocks.count k) (incoming.count k) :=
    CountMap.count_raiseAll v.clocks incoming.sorted
  rw [receive, count_count]
  dsimp only
  rw [hmax, hmax]
  split
  · rename_i hk
    rw [hk]
  · rfl

end VectorClock

namespace World

variable {ι : Type} {id : ι → String} {w w' : World ι}

/-- The sending event of a received message. -/
def Kind.received : Kind → Option Nat
  | .receive message => some message
  | _ => none

/-- An event as the causal order sees it. -/
def stamped (id : ι → String) (e : Event ι) : StampedEvent ι :=
  ⟨e.proc, Kind.received e.kind, fun j => e.vector.count (id j)⟩

theorem direct_iff (id : ι → String) {d e : Nat} :
    w.Direct d e ↔ StampedEvent.Direct (w.events.map (stamped id)) d e := by
  rw [Direct, StampedEvent.Direct]
  refine and_congr_right fun _ => ?_
  simp only [List.getElem?_map, Option.map_eq_some_iff]
  constructor
  · rintro ⟨a, b, ha, hb, hab⟩
    refine ⟨_, _, ⟨a, ha, rfl⟩, ⟨b, hb, rfl⟩, hab.imp_right fun hkind => ?_⟩
    rw [stamped, hkind]
    rfl
  · rintro ⟨_, _, ⟨a, ha, rfl⟩, ⟨b, hb, rfl⟩, hab⟩
    refine ⟨a, b, ha, hb, hab.imp_right fun hreceived => ?_⟩
    cases hkind : b.kind with
    | receive m =>
      rw [stamped, hkind] at hreceived
      exact congrArg Kind.receive (Option.some.inj hreceived)
    | _ =>
      rw [stamped, hkind] at hreceived
      exact absurd hreceived (by simp [Kind.received])

theorem precedes_iff (id : ι → String) {d e : Nat} :
    w.Precedes d e ↔ StampedEvent.Precedes (w.events.map (stamped id)) d e := by
  have hdirect : w.Direct = StampedEvent.Direct (w.events.map (stamped id)) := by
    funext d e
    exact propext (direct_iff id)
  rw [Precedes, StampedEvent.Precedes, hdirect]

/-- The Lamport timestamp of the event at an index. -/
def lamportAt (w : World ι) (k : Nat) : Nat := ((w.events[k]?).map Event.lamport).getD 0

/-- The vectors are stamps by the usual rule, with no key but the ids of the processes, and the Lamport
timestamps grow from one event to the next. -/
structure Invariant (id : ι → String) (w : World ι) : Prop where
  ids : ∀ i, (w.vectors i).id = id i
  stamped : StampedEvent.Stamped (w.events.map (stamped id))
    fun i j => (w.vectors i).clocks.count (id j)
  now_keys : ∀ i k, (∀ j, id j ≠ k) → (w.vectors i).clocks.count k = 0
  keys : ∀ e ∈ w.events, ∀ k, (∀ j, id j ≠ k) → e.vector.count k = 0
  attached : ∀ e ∈ w.events, ∀ vector ts, e.kind = .send vector ts → vector = e.vector ∧ ts = e.lamport
  counter : ∀ e ∈ w.events, e.lamport ≤ (w.lamports e.proc).counter
  grows : ∀ d e, w.Direct d e → w.lamportAt d < w.lamportAt e

theorem invariant_start : (start id).Invariant id := by
  have hzero : ∀ i k, ((start id).vectors i).clocks.count k = 0 := by
    intro i k
    refine (CountMap.count_insert _ _ _ _).trans ?_
    split
    · rfl
    · rfl
  refine ⟨fun _ => rfl, ?_, fun i k _ => hzero i k, ?_, ?_, ?_, ?_⟩
  · have hnow : (fun i j => ((start id).vectors i).clocks.count (id j)) = 0 := by
      funext i j
      exact hzero i (id j)
    rw [hnow]
    exact StampedEvent.stamped_nil
  · exact fun e he => absurd he List.not_mem_nil
  · exact fun e he => absurd he List.not_mem_nil
  · exact fun e he => absurd he List.not_mem_nil
  · rintro d e ⟨-, a, b, ha, -⟩
    exact absurd ha (by simp [start])

/-- What the received message counts. -/
def incoming (w : World ι) (r : Option Nat) (k : String) : Nat :=
  ((r.bind fun m => w.events[m]?).map fun e => e.vector.count k).getD 0

variable [DecidableEq ι]

/-- An event that follows the rules of both clocks keeps the invariant. -/
theorem Invariant.recorded (hinj : Function.Injective id) (h : w.Invariant id) {i : ι} {kind : Kind}
    {v : VectorClock} {c : LamportClock} (hid : v.id = id i) (hsent : ∀ m ∈ Kind.received kind, m < w.events.length)
    (hcount : ∀ k, v.clocks.count k = if k = id i then
      max ((w.vectors i).clocks.count k) (w.incoming (Kind.received kind) k) + 1
      else max ((w.vectors i).clocks.count k) (w.incoming (Kind.received kind) k))
    (hattached : ∀ vector ts, kind = .send vector ts → vector = v.vector ∧ ts = c.value)
    (hcounter : (w.lamports i).counter < c.counter) (hlater : ∀ m ∈ Kind.received kind, w.lamportAt m < c.counter) :
    (w.record i kind v c).Invariant id := by
  have hvector : ∀ j, (w.record i kind v c).vectors j = if j = i then v else w.vectors j :=
    fun j => Function.update_apply _ _ _ _
  have hincoming : ∀ j, StampedEvent.incoming (w.events.map (World.stamped id)) (Kind.received kind) j =
      w.incoming (Kind.received kind) (id j) := by
    intro j
    rw [StampedEvent.incoming, incoming]
    cases Kind.received kind with
    | none => rfl
    | some m =>
      rw [Option.bind_some, Option.bind_some, List.getElem?_map]
      cases w.events[m]? <;> rfl
  have hnone : ∀ k, (∀ j, id j ≠ k) → v.clocks.count k = 0 := by
    intro k hk
    rw [hcount, if_neg (Ne.symm (hk i)), h.now_keys i k hk, Nat.zero_max, incoming]
    cases hr : (Kind.received kind).bind fun m => w.events[m]? with
    | none => rfl
    | some e =>
      obtain ⟨m, -, he⟩ := Option.bind_eq_some_iff.1 hr
      exact h.keys e (List.mem_of_getElem? he) k hk
  refine ⟨?_, ?_, ?_, ?_, ?_, ?_, ?_⟩
  · intro j
    rw [hvector]
    split
    · rename_i hj
      rw [hid, hj]
    · exact h.ids j
  · have hv : (fun j => v.clocks.count (id j)) = StampedEvent.tick i fun j =>
        max ((w.vectors i).clocks.count (id j))
          (StampedEvent.incoming (w.events.map (World.stamped id)) (Kind.received kind) j) := by
      funext j
      rw [hcount, StampedEvent.tick, Function.update_apply, hincoming, hincoming]
      by_cases hj : j = i
      · subst hj
        rw [if_pos rfl, if_pos rfl]
      · rw [if_neg hj, if_neg fun heq => hj (hinj heq)]
    have hext := h.stamped.extend i (fun m hm => by rw [List.length_map]; exact hsent m hm) hv
    have hnow : (fun j k => ((w.record i kind v c).vectors j).clocks.count (id k)) =
        Function.update (fun j k => (w.vectors j).clocks.count (id k)) i
          fun k => v.clocks.count (id k) := by
      funext j
      rw [hvector, Function.update_apply]
      split
      · rfl
      · rfl
    rw [hnow, record, List.map_append]
    exact hext
  · intro j k hk
    rw [hvector]
    split
    · exact hnone k hk
    · exact h.now_keys j k hk
  · intro e he k hk
    obtain he | he := List.mem_append.1 he
    · exact h.keys e he k hk
    · cases List.mem_singleton.1 he
      exact hnone k hk
  · intro e he vector ts hkind
    obtain he | he := List.mem_append.1 he
    · exact h.attached e he vector ts hkind
    · cases List.mem_singleton.1 he
      exact hattached vector ts hkind
  · intro e he
    have hlamport : (w.record i kind v c).lamports e.proc = if e.proc = i then c else w.lamports e.proc :=
      Function.update_apply _ _ _ _
    rw [hlamport]
    obtain he | he := List.mem_append.1 he
    · have hle := h.counter e he
      split
      · rename_i hproc
        rw [hproc] at hle
        exact hle.trans hcounter.le
      · exact hle
    · cases List.mem_singleton.1 he
      rw [if_pos rfl]
      exact Nat.le_refl _
  · intro d e hd
    rw [direct_iff id, record, List.map_append, List.map_singleton] at hd
    have hlt := hd.1
    have hold : ∀ k < w.events.length, (w.record i kind v c).lamportAt k = w.lamportAt k := by
      intro k hk
      rw [lamportAt, record, List.getElem?_append_left hk]
      rfl
    have hd' := hd
    obtain ⟨-, _, x, -, hx, -⟩ := hd'
    have he := (List.getElem?_eq_some_iff.1 hx).1
    rw [List.length_append, List.length_map, List.length_singleton] at he
    obtain he | rfl := Nat.lt_or_eq_of_le (Nat.lt_succ_iff.1 he)
    · rw [StampedEvent.direct_append (by rw [List.length_map]; exact he), ← direct_iff] at hd
      rw [hold d (hlt.trans he), hold e he]
      exact h.grows d e hd
    · -- The new event: what comes directly before it is of the same process, or is the sender.
      have hnew : (w.record i kind v c).lamportAt w.events.length = c.counter := by
        rw [lamportAt, record, List.getElem?_concat_length]
        rfl
      rw [hold d hlt, hnew]
      have hlast : StampedEvent.Direct (w.events.map (World.stamped id) ++
          [World.stamped id ⟨i, kind, v.vector, c.value⟩]) d (w.events.map (World.stamped id)).length := by
        rw [List.length_map]
        exact hd
      obtain ⟨a, ha, hproc | hreceived⟩ := StampedEvent.direct_last.1 hlast
      · rw [List.getElem?_map] at ha
        obtain ⟨b, hb, rfl⟩ := Option.map_eq_some_iff.1 ha
        have hproc : b.proc = i := hproc
        have hle := h.counter b (List.mem_of_getElem? hb)
        rw [hproc] at hle
        rw [lamportAt, hb]
        exact Nat.lt_of_le_of_lt hle hcounter
      · exact hlater d hreceived

/-- Every operation keeps the invariant. -/
theorem invariant_step (hinj : Function.Injective id) (h : w.Invariant id) {op : Op ι}
    (hs : w.step op = some w') : w'.Invariant id := by
  have hlocal : ∀ i k, (w.vectors i).count.clocks.count k = if k = id i then
      max ((w.vectors i).clocks.count k) (w.incoming none k) + 1
      else max ((w.vectors i).clocks.count k) (w.incoming none k) := by
    intro i k
    have hzero : w.incoming none k = 0 := rfl
    rw [VectorClock.count_count, h.ids, hzero, Nat.max_zero]
    split
    · rename_i hk
      rw [hk]
    · rfl
  cases op with
  | tick i =>
    cases hs
    exact h.recorded hinj (h.ids i) (fun m hm => absurd hm (by simp [Kind.received])) (hlocal i)
      (fun _ _ hkind => absurd hkind (by simp)) (Nat.lt_succ_self _)
      fun m hm => absurd hm (by simp [Kind.received])
  | send i =>
    cases hs
    refine h.recorded hinj (h.ids i) (fun m hm => absurd hm (by simp [Kind.received])) (hlocal i) ?_
      (Nat.lt_succ_self _) fun m hm => absurd hm (by simp [Kind.received])
    rintro _ _ ⟨⟩
    exact ⟨rfl, rfl⟩
  | receive i message =>
    simp only [step] at hs
    split at hs
    · rename_i vector ts hkind
      cases hs
      obtain ⟨e, he, hkind⟩ := Option.map_eq_some_iff.1 hkind
      obtain ⟨rfl, rfl⟩ := h.attached e (List.mem_of_getElem? he) vector ts hkind
      have hcounter : ((w.lamports i).receive e.lamport).counter =
          max (w.lamports i).counter e.lamport + 1 := by
        rw [LamportClock.receive]
        dsimp only
        split
        · rename_i hlt
          rw [max_eq_right hlt.le]
        · rename_i hge
          rw [max_eq_left (Nat.le_of_not_lt hge)]
      refine h.recorded hinj (h.ids i) ?_ ?_ (fun _ _ hkind => absurd hkind (by simp)) ?_ ?_
      · rintro m ⟨⟩
        exact (List.getElem?_eq_some_iff.1 he).1
      · intro k
        have hincoming : w.incoming (Kind.received (.receive message)) k = e.vector.count k := by
          rw [incoming, Kind.received, Option.bind_some, he]
          rfl
        rw [VectorClock.count_receive, h.ids, hincoming]
      · rw [hcounter]
        exact Nat.lt_succ_of_le (le_max_left _ _)
      · rintro m ⟨⟩
        rw [hcounter, lamportAt, he]
        exact Nat.lt_succ_of_le (le_max_right _ _)
    · exact absurd hs (by simp)

/-- **Vector clocks characterise causality.** In every run of processes with distinct ids, for two events
of the run: the first one causally precedes the second one exactly when `HappensBefore` says so of their
vectors; they are `Concurrent` exactly when neither precedes the other one; and the Lamport timestamp of
what precedes is smaller. -/
theorem clocks_characterise (hinj : Function.Injective id) (hreach : Reachable step (start id) w)
    {e f : Nat} {a b : Event ι} (he : w.events[e]? = some a) (hf : w.events[f]? = some b)
    (hne : e ≠ f) :
    (w.Precedes e f ↔ happensBefore a.vector b.vector = true) ∧
    (concurrent a.vector b.vector = true ↔ ¬ w.Precedes e f ∧ ¬ w.Precedes f e) ∧
    (w.Precedes e f → a.lamport < b.lamport) := by
  have h : w.Invariant id := by
    refine hreach.invariant (I := Invariant id) invariant_start ?_
    intro w op w' _ h _ hs
    exact invariant_step hinj h hs
  have hbefore : ∀ {e f : Nat} {a b : Event ι}, w.events[e]? = some a → w.events[f]? = some b → e ≠ f →
      (w.Precedes e f ↔ happensBefore a.vector b.vector = true) := by
    intro e f a b he hf hne
    have hstamps := h.stamped.precedes_iff (a := World.stamped id a) (b := World.stamped id b)
      (by rw [List.getElem?_map, he]; rfl) (by rw [List.getElem?_map, hf]; rfl) hne
    rw [precedes_iff id, hstamps, happensBefore_iff, Pi.lt_def]
    have hzero : ∀ k, (∀ j, id j ≠ k) → a.vector.count k = 0 ∧ b.vector.count k = 0 := fun k hk =>
      ⟨h.keys a (List.mem_of_getElem? he) k hk, h.keys b (List.mem_of_getElem? hf) k hk⟩
    refine and_congr ⟨fun hle k => ?_, fun hle j => hle (id j)⟩
      ⟨fun ⟨j, hlt⟩ => ⟨id j, hlt⟩, fun ⟨k, hlt⟩ => ?_⟩
    · by_cases hk : ∃ j, id j = k
      · obtain ⟨j, rfl⟩ := hk
        exact hle j
      · rw [(hzero k (not_exists.1 hk)).1]
        exact Nat.zero_le _
    · by_cases hk : ∃ j, id j = k
      · obtain ⟨j, rfl⟩ := hk
        exact ⟨j, hlt⟩
      · rw [(hzero k (not_exists.1 hk)).2] at hlt
        exact absurd hlt (Nat.not_lt_zero _)
  refine ⟨hbefore he hf hne, ?_, ?_⟩
  · rw [concurrent, Bool.and_eq_true, Bool.not_eq_true', Bool.not_eq_true', ← Bool.not_eq_true,
      ← Bool.not_eq_true, ← hbefore he hf hne, ← hbefore hf he (Ne.symm hne)]
  · intro hp
    have hlt := ((precedes_iff id).1 hp).lt_of_direct (f := w.lamportAt) fun d e hd =>
      h.grows d e ((direct_iff id).2 hd)
    rw [lamportAt, lamportAt, he, hf] at hlt
    exact hlt

/-- The ids of two processes. -/
def twoIds (i : Bool) : String := if i then "a" else "b"

theorem run_message : (exec step (start twoIds) [.send true, .receive false 0, .tick true]).bind (fun w =>
    match w.events with
    | [e, f, g] => some (decide (happensBefore e.vector f.vector = true ∧ concurrent f.vector g.vector = true))
    | _ => none) = some true := by
  rfl

theorem clocks_characterise_message : ∃ (w : World Bool) (e f g : Event Bool),
    exec step (start twoIds) [.send true, .receive false 0, .tick true] = some w ∧
    w.events = [e, f, g] ∧ w.Precedes 0 1 ∧ e.lamport < f.lamport ∧ ¬ w.Precedes 1 2 ∧ ¬ w.Precedes 2 1 := by
  obtain ⟨w, hw, hevents⟩ := Option.bind_eq_some_iff.1 run_message
  split at hevents
  · rename_i e f g hlist
    obtain ⟨hbefore, hconcurrent⟩ := of_decide_eq_true (Option.some.inj hevents)
    have hinj : Function.Injective twoIds := by
      intro i j h
      cases i <;> cases j <;> first | rfl | exact absurd h (by decide)
    have he : w.events[0]? = some e := by rw [hlist]; rfl
    have hf : w.events[1]? = some f := by rw [hlist]; rfl
    have hg : w.events[2]? = some g := by rw [hlist]; rfl
    have hef := clocks_characterise hinj (reachable_of_exec hw) he hf (by decide)
    have hfg := clocks_characterise hinj (reachable_of_exec hw) hf hg (by decide)
    have hp := hef.1.2 hbefore
    exact ⟨w, e, f, g, hw, hlist, hp, hef.2.2 hp, hfg.2.1.1 hconcurrent⟩
  · exact absurd hevents (by simp)

end World

end SystemDesignLabs.LogicalClocks
