import SystemDesignLabs.Core.Text
import SystemDesignLabs.Kafka.Partition

/-!
# Consumer groups

A group has members with the times of their last heartbeats, and the committed offset of each topic-partition it
reads. The offsets are kept in a map and every commit is also appended to a log on disk, which nothing reads: a broker
that is opened on the directory starts with no groups. `fetch_durable_iff` says when the offset that `FetchOffset`
returns is the last one that was committed with success.

The history of a run lists the commits that reached the map and the restarts, the latest first.
-/

namespace SystemDesignLabs.Kafka

open List Option Core

/-! ### Keys and records -/

/-- The map key of a topic-partition. -/
def partitionKey (topic : String) (partitionID : Int) : String :=
  topic ++ ":" ++ partitionID.repr

/-- A hexadecimal digit. -/
def hexDigit (n : Nat) : Char := "0123456789abcdef".toList.getD n '0'

/-- A character of a JSON string, with the escapes of `json.Marshal`. -/
def jsonChar (c : Char) : List Char :=
  if c = '"' ∨ c = '\\' then ['\\', c]
  else if c.toNat = 8 then ['\\', 'b']
  else if c.toNat = 12 then ['\\', 'f']
  else if c = '\n' then ['\\', 'n']
  else if c = '\r' then ['\\', 'r']
  else if c = '\t' then ['\\', 't']
  else if c.toNat < 32 ∨ c ∈ ['<', '>', '&'] ∨ c.toNat = 8232 ∨ c.toNat = 8233 then
    ['\\', 'u', hexDigit (c.toNat / 4096), hexDigit (c.toNat / 256 % 16), hexDigit (c.toNat / 16 % 16),
      hexDigit (c.toNat % 16)]
  else [c]

def jsonString (s : String) : String := String.ofList ('"' :: s.toList.flatMap jsonChar ++ ['"'])

/-- The bytes of a text in UTF-8. -/
def utf8 (s : String) : Bytes := s.toUTF8.toList.map fun b => Fin.ofNat 256 b.toNat

/-- The record of a commit: an object whose keys `json.Marshal` sorts. -/
def offsetRecord (groupID topic : String) (partitionID offset : Int) : Bytes :=
  utf8 ("\x7b\"group\":" ++ jsonString groupID ++ ",\"offset\":" ++ offset.repr ++ ",\"partition\":" ++
    partitionID.repr ++ ",\"topic\":" ++ jsonString topic ++ "\x7d")

/-! ### The groups of a broker -/

/-- Three seconds, in nanoseconds. -/
def heartbeatTimeout : Int := 3 * 10 ^ 9

structure ConsumerGroup where
  /-- The time of the last heartbeat of each member, in nanoseconds. -/
  members : SortedMap String Int
  /-- The committed offset of each topic-partition. -/
  offsets : SortedMap String Int
  deriving DecidableEq

/-- A broker with its groups and its log of commits, partition 0 of `__consumer_offsets`. -/
structure GroupBroker where
  groups : SortedMap String ConsumerGroup
  consumerOffsets : DiskBroker
  deriving DecidableEq

/-- Why a call for a group fails. -/
inductive GroupError where
  | groupNotFound (groupID : String)
  | notAMember (groupID memberID : String)
  | produce (e : AppendError)
  deriving DecidableEq, Repr

def ConsumerGroup.evictStaleMembers (g : ConsumerGroup) (now : Int) : ConsumerGroup :=
  { g with members := g.members.filter fun m => decide (now - m.2 ≤ heartbeatTimeout) }

namespace GroupBroker

/-- `JoinGroup` at the time `now`: the group is created when it is not there. -/
def joinGroup (b : GroupBroker) (groupID clientID : String) (now : Int) : GroupBroker × String :=
  let g := (b.groups.get groupID).getD ⟨.empty, .empty⟩
  let memberID := clientID ++ "-" ++ now.repr
  ({ b with groups := b.groups.insert groupID { g with members := g.members.insert memberID now } },
    memberID)

def heartbeat (b : GroupBroker) (groupID memberID : String) (now : Int) :
    GroupBroker × Except GroupError Unit :=
  match b.groups.get groupID with
  | none => (b, .error (.groupNotFound groupID))
  | some g =>
    if (g.members.get memberID).isNone then (b, .error (.notAMember groupID memberID))
    else
      ({ b with groups := b.groups.insert groupID { g with members := g.members.insert memberID now } },
        .ok ())

/-- `CommitOffset`: the map is set first; then the record is appended to the log, which may fail. -/
def commitOffset (b : GroupBroker) (groupID topic : String) (partitionID offset now : Int)
    (faults : Faults) : GroupBroker × Except GroupError Unit :=
  match b.groups.get groupID with
  | none => (b, .error (.groupNotFound groupID))
  | some g =>
    let g := g.evictStaleMembers now
    let g := { g with offsets := g.offsets.insert (partitionKey topic partitionID) offset }
    let produced := b.consumerOffsets.partition.append maxSegmentBytes faults
      (offsetRecord groupID topic partitionID offset)
    (⟨b.groups.insert groupID g, .opened produced.1⟩,
      match produced.2 with
      | .ok _ => .ok ()
      | .error e => .error (.produce e))

/-- `FetchOffset`: 0 for an unknown group and for a topic-partition without an offset. -/
def fetchOffset (b : GroupBroker) (groupID topic : String) (partitionID now : Int) :
    GroupBroker × Int :=
  match b.groups.get groupID with
  | none => (b, 0)
  | some g =>
    let g := g.evictStaleMembers now
    ({ b with groups := b.groups.insert groupID g },
      (g.offsets.get (partitionKey topic partitionID)).getD 0)

/-- `Close`, and `NewDiskBroker` on the same directory. -/
def reopen (b : GroupBroker) : GroupBroker := ⟨.empty, b.consumerOffsets.close⟩

end GroupBroker

/-! ### Runs and their histories -/

/-- What an offset is committed for. -/
structure Position where
  groupID : String
  topic : String
  partitionID : Int
  deriving DecidableEq, Repr

inductive GroupOp where
  | joinGroup (groupID clientID : String) (now : Int)
  | heartbeat (groupID memberID : String) (now : Int)
  | commitOffset (pos : Position) (offset now : Int) (faults : Faults)
  | fetchOffset (pos : Position) (now : Int)
  | reopen
  deriving DecidableEq

/-- What matters for the offsets: a commit that returned `nil`, one that set the map and then failed, and a restart. -/
inductive Event where
  | committed (pos : Position) (offset : Int)
  | failed (pos : Position) (offset : Int)
  | reopened
  deriving DecidableEq, Repr

structure GroupRun where
  broker : GroupBroker
  /-- The latest event first. -/
  history : List Event
  deriving DecidableEq

def GroupRun.step (s : GroupRun) : GroupOp → Option GroupRun
  | .joinGroup groupID clientID now =>
    some { s with broker := (s.broker.joinGroup groupID clientID now).1 }
  | .heartbeat groupID memberID now =>
    some { s with broker := (s.broker.heartbeat groupID memberID now).1 }
  | .commitOffset pos offset now faults =>
    let result := s.broker.commitOffset pos.groupID pos.topic pos.partitionID offset now faults
    match result.2 with
    | .ok () => some ⟨result.1, .committed pos offset :: s.history⟩
    | .error (.produce _) => some ⟨result.1, .failed pos offset :: s.history⟩
    | .error _ => some { s with broker := result.1 }
  | .fetchOffset pos now =>
    some { s with broker := (s.broker.fetchOffset pos.groupID pos.topic pos.partitionID now).1 }
  | .reopen => some ⟨s.broker.reopen, .reopened :: s.history⟩

def GroupRun.init : GroupRun := ⟨⟨.empty, .closed .empty⟩, []⟩

/-- The offset of the last commit for a position that returned `nil`, or 0. -/
def lastCommitted : List Event → Position → Int
  | [], _ => 0
  | .committed pos offset :: es, p => if pos = p then offset else lastCommitted es p
  | .failed _ _ :: es, p => lastCommitted es p
  | .reopened :: es, p => lastCommitted es p

/-- The offset that the map holds for a position. -/
def heldOffset : List Event → Position → Int
  | [], _ => 0
  | .committed pos offset :: es, p => if pos = p then offset else heldOffset es p
  | .failed pos offset :: es, p => if pos = p then offset else heldOffset es p
  | .reopened :: _, _ => 0

/-- The last thing that happened to a position was a commit that returned `nil`, or what happened left the right
value by chance: a failed commit of the offset that had been committed, or a restart when that offset was 0. -/
def UpToDate : List Event → Position → Prop
  | [], _ => True
  | .committed pos _ :: es, p => pos = p ∨ UpToDate es p
  | .failed pos offset :: es, p => if pos = p then offset = lastCommitted es p else UpToDate es p
  | .reopened :: es, p => 0 = lastCommitted es p

theorem heldOffset_eq_iff (es : List Event) (p : Position) : heldOffset es p = lastCommitted es p ↔ UpToDate es p := by
  induction es with
  | nil => exact ⟨fun _ => trivial, fun _ => rfl⟩
  | cons e es ih =>
    cases e with
    | committed pos offset =>
      rw [heldOffset, lastCommitted, UpToDate]
      by_cases h : pos = p
      · rw [if_pos h, if_pos h]
        exact ⟨fun _ => Or.inl h, fun _ => rfl⟩
      · rw [if_neg h, if_neg h, ih]
        exact (or_iff_right h).symm
    | failed pos offset =>
      rw [heldOffset, lastCommitted, UpToDate]
      by_cases h : pos = p
      · rw [if_pos h, if_pos h]
      · rw [if_neg h, if_neg h, ih]
    | reopened => exact Iff.rfl

/-! ### One map entry for one position -/

theorem concat_colon_inj {a b xs ys : List Char} (hx : ':' ∉ xs) (hy : ':' ∉ ys)
    (h : a ++ ':' :: xs = b ++ ':' :: ys) : a = b ∧ xs = ys := by
  rcases append_eq_append_iff.1 h with ⟨c, rfl, hc⟩ | ⟨c, rfl, hc⟩
  · cases c with
    | nil => exact ⟨(append_nil a).symm, (cons.inj hc).2⟩
    | cons d c =>
      have hmem : ':' ∈ xs := (cons.inj hc).2 ▸ mem_append_right c mem_cons_self
      exact absurd hmem hx
  · cases c with
    | nil => exact ⟨append_nil b, ((cons.inj hc).2).symm⟩
    | cons d c =>
      have hmem : ':' ∈ ys := (cons.inj hc).2 ▸ mem_append_right c mem_cons_self
      exact absurd hmem hy

theorem colon_notMem_repr (n : Int) : ':' ∉ n.repr.toList := by
  rw [toList_repr]
  intro h
  cases n with
  | ofNat m => exact absurd (isDigit_of_mem_toDigits h) (by decide)
  | negSucc m =>
    rcases mem_cons.1 h with h | h
    · exact absurd h (by decide)
    · exact absurd (isDigit_of_mem_toDigits h) (by decide)

theorem partitionKey_injective {topic topic' : String} {partitionID partitionID' : Int}
    (h : partitionKey topic partitionID = partitionKey topic' partitionID') :
    topic = topic' ∧ partitionID = partitionID' := by
  have hlist := congrArg String.toList h
  have hkey : ∀ (t : String) (n : Int),
      (partitionKey t n).toList = t.toList ++ ':' :: n.repr.toList := by
    intro t n
    rw [partitionKey, String.toList_append, String.toList_append, append_assoc]
    rfl
  rw [hkey, hkey] at hlist
  obtain ⟨htopic, hid⟩ := concat_colon_inj (colon_notMem_repr _) (colon_notMem_repr _) hlist
  exact ⟨String.toList_inj.1 htopic, repr_injective (String.toList_inj.1 hid)⟩

/-! ### What the map holds -/

/-- The offset that `FetchOffset` finds. -/
def GroupBroker.held (b : GroupBroker) (p : Position) : Int :=
  ((b.groups.get p.groupID).bind fun g => g.offsets.get (partitionKey p.topic p.partitionID)).getD 0

section Held

variable {b : GroupBroker} {p : Position}

theorem GroupBroker.held_insert (groupID : String) (g : ConsumerGroup) (disk : DiskBroker) :
    GroupBroker.held ⟨b.groups.insert groupID g, disk⟩ p =
      if p.groupID = groupID then (g.offsets.get (partitionKey p.topic p.partitionID)).getD 0 else b.held p := by
  rw [held, held, SortedMap.get_insert]
  split
  · rw [bind_some]
  · rfl

theorem GroupBroker.held_joinGroup (groupID clientID : String) (now : Int) :
    (b.joinGroup groupID clientID now).1.held p = b.held p := by
  rw [joinGroup]
  dsimp only
  rw [held_insert]
  split
  · rename_i hgroup
    rw [held, hgroup]
    cases b.groups.get groupID with
    | none => rfl
    | some g => rfl
  · rfl

theorem GroupBroker.held_heartbeat (groupID memberID : String) (now : Int) :
    (b.heartbeat groupID memberID now).1.held p = b.held p := by
  rw [heartbeat]
  cases hget : b.groups.get groupID with
  | none => rfl
  | some g =>
    dsimp only
    split
    · rfl
    · rw [held_insert]
      split
      · rename_i hgroup
        rw [held, hgroup, hget, bind_some]
      · rfl

theorem GroupBroker.fetchOffset_eq (now : Int) : (b.fetchOffset p.groupID p.topic p.partitionID now).2 = b.held p := by
  rw [fetchOffset, held]
  cases b.groups.get p.groupID with
  | none => rfl
  | some g => rfl

theorem GroupBroker.held_fetchOffset (groupID topic : String) (partitionID now : Int) :
    (b.fetchOffset groupID topic partitionID now).1.held p = b.held p := by
  rw [fetchOffset]
  cases hget : b.groups.get groupID with
  | none => rfl
  | some g =>
    dsimp only
    rw [held_insert]
    split
    · rename_i hgroup
      rw [held, hgroup, hget, bind_some]
      rfl
    · rfl

theorem GroupBroker.held_commitOffset {q : Position} {g : ConsumerGroup}
    (hget : b.groups.get q.groupID = some g) (offset now : Int) (faults : Faults) :
    (b.commitOffset q.groupID q.topic q.partitionID offset now faults).1.held p =
      if q = p then offset else b.held p := by
  rw [commitOffset, hget]
  dsimp only
  rw [held_insert]
  by_cases hgroup : p.groupID = q.groupID
  · rw [if_pos hgroup, SortedMap.get_insert]
    by_cases hkey : partitionKey p.topic p.partitionID = partitionKey q.topic q.partitionID
    · obtain ⟨htopic, hid⟩ := partitionKey_injective hkey
      have heq : q = p := by
        cases p
        cases q
        simp only at hgroup htopic hid
        rw [hgroup, htopic, hid]
      rw [if_pos hkey, if_pos heq]
      rfl
    · have hne : q ≠ p := fun heq => hkey (heq ▸ rfl)
      rw [if_neg hkey, if_neg hne, held, hgroup, hget, bind_some]
      rfl
  · have hne : q ≠ p := fun heq => hgroup (heq ▸ rfl)
    rw [if_neg hgroup, if_neg hne]

end Held

/-! ### Every run -/

/-- The map tells what the history says. -/
def GroupRun.Inv (s : GroupRun) : Prop := ∀ p, s.broker.held p = heldOffset s.history p

theorem GroupRun.Inv.step {s t : GroupRun} (h : s.Inv) {op : GroupOp} (hstep : s.step op = some t) : t.Inv := by
  intro p
  cases op with
  | joinGroup groupID clientID now =>
    obtain rfl := some.inj hstep
    exact (GroupBroker.held_joinGroup ..).trans (h p)
  | heartbeat groupID memberID now =>
    obtain rfl := some.inj hstep
    exact (GroupBroker.held_heartbeat ..).trans (h p)
  | fetchOffset q now =>
    obtain rfl := some.inj hstep
    exact (GroupBroker.held_fetchOffset ..).trans (h p)
  | reopen =>
    obtain rfl := some.inj hstep
    rfl
  | commitOffset q offset now faults =>
    rw [GroupRun.step] at hstep
    cases hget : s.broker.groups.get q.groupID with
    | none =>
      have hresult : s.broker.commitOffset q.groupID q.topic q.partitionID offset now faults =
          (s.broker, .error (.groupNotFound q.groupID)) := by
        rw [GroupBroker.commitOffset, hget]
      rw [hresult] at hstep
      obtain rfl := some.inj hstep
      exact h p
    | some g =>
      have hheld := GroupBroker.held_commitOffset (p := p) hget offset now faults
      rw [h p] at hheld
      -- the result only decides which event is recorded; the map is set in both cases
      have hresult : (s.broker.commitOffset q.groupID q.topic q.partitionID offset now faults).2 =
            .ok () ∨
          ∃ e, (s.broker.commitOffset q.groupID q.topic q.partitionID offset now faults).2 =
            .error (.produce e) := by
        rw [GroupBroker.commitOffset, hget]
        dsimp only
        split
        · exact Or.inl rfl
        · exact Or.inr ⟨_, rfl⟩
      rcases hresult with hok | ⟨e, herr⟩
      · rw [hok] at hstep
        obtain rfl := some.inj hstep
        exact hheld
      · rw [herr] at hstep
        obtain rfl := some.inj hstep
        exact hheld

/-- **When committed offsets are durable.** In every reached state `FetchOffset` returns the last offset that was
committed with success exactly when the position is up to date. -/
theorem fetch_durable_iff {s : GroupRun} (hs : Reachable GroupRun.step GroupRun.init s) (p : Position)
    (now : Int) :
    (s.broker.fetchOffset p.groupID p.topic p.partitionID now).2 = lastCommitted s.history p ↔
      UpToDate s.history p := by
  have hinv : s.Inv := ReachableIf.invariant (fun _ => rfl) (fun _ _ _ _ h _ hstep => h.step hstep) hs
  rw [GroupBroker.fetchOffset_eq, hinv p]
  exact heldOffset_eq_iff s.history p

/-- Two positions whose offsets are kept apart, after a restart and a commit. -/
theorem fetch_durable_run :
    ∃ s, Reachable GroupRun.step GroupRun.init s ∧ s.history =
        [.committed ⟨"g", "t", 1⟩ 7, .reopened, .committed ⟨"g", "t", 1⟩ 5] ∧
      (s.broker.fetchOffset "g" "t" 1 0).2 = 7 := by
  have hrun : (exec GroupRun.step GroupRun.init [.joinGroup "g" "c" 0,
      .commitOffset ⟨"g", "t", 1⟩ 5 0 Faults.none, .reopen, .joinGroup "g" "c" 0,
      .commitOffset ⟨"g", "t", 1⟩ 7 0 Faults.none]).map (fun s => decide (s.history =
        [.committed ⟨"g", "t", 1⟩ 7, .reopened, .committed ⟨"g", "t", 1⟩ 5])) = some true := by
    decide +kernel
  obtain ⟨s, hs, hhistory⟩ := map_eq_some_iff.1 hrun
  have hhistory := of_decide_eq_true hhistory
  have hreach := reachable_of_exec hs
  refine ⟨s, hreach, hhistory, ?_⟩
  have hfetch := (fetch_durable_iff hreach ⟨"g", "t", 1⟩ 0).2 (hhistory ▸ Or.inl rfl)
  rw [hhistory] at hfetch
  exact hfetch

/-- A commit that returned `nil`, and a restart: the offset is 0 again. -/
theorem restart_forgets :
    (exec GroupRun.step GroupRun.init [.joinGroup "g" "c" 0,
      .commitOffset ⟨"g", "t", 1⟩ 5 0 Faults.none, .reopen, .joinGroup "g" "c" 0]).map (fun s =>
        decide (s.history = [.reopened, .committed ⟨"g", "t", 1⟩ 5] ∧
          (s.broker.fetchOffset "g" "t" 1 0).2 = 0)) = some true := by
  rfl

end SystemDesignLabs.Kafka
