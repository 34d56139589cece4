import SystemDesignLabs.Core.Ring
import SystemDesignLabs.Core.TransitionSystem

/-!
# The history of a room

`RingBuffer` of `reconnect.go`. An `Append` takes its sequence number before it waits for the lock, so a message with a
smaller number may be inserted behind one with a greater number, and then a replay is out of order and the wrong
message is overwritten (`replay_out_of_order`). As long as each message that is inserted has a greater number than
those before it, a replay gives the messages with the greatest numbers in order (`replays`).
-/

namespace SystemDesignLabs.WebsocketGateway

open List Core

structure Message where
  seqNo : UInt64
  payload : List UInt8
  deriving DecidableEq

structure RingBuffer where
  buf : List Message
  size : Nat
  head : Nat
  count : Nat
  nextSeq : UInt64
  deriving DecidableEq

namespace RingBuffer

/-- `newRingBuffer`. -/
def new (size : Nat) : RingBuffer := ⟨List.replicate size ⟨0, []⟩, size, 0, 0, 0⟩

/-- `nextSeq.Add(1)`, the first step of `Append`. -/
def takeSeq (rb : RingBuffer) : RingBuffer := { rb with nextSeq := rb.nextSeq + 1 }

/-- What `Append` does under the lock. -/
def insert (rb : RingBuffer) (m : Message) : RingBuffer :=
  let pos := (rb.head + rb.count) % rb.size
  if rb.count = rb.size then
    { rb with buf := rb.buf.set rb.head m, head := (rb.head + 1) % rb.size }
  else
    { rb with buf := rb.buf.set pos m, count := rb.count + 1 }

def since (rb : RingBuffer) (afterSeq : UInt64) : List Message :=
  (List.range rb.count).filterMap fun i =>
    (rb.buf[(rb.head + i) % rb.size]?).filter fun m => decide (m.seqNo > afterSeq)

end RingBuffer

/-! ### Calls side by side -/

/-- The buffer, the calls of `Append` that have their number and wait for the lock, and the messages that were
inserted, the first one first. -/
structure HistoryWorld where
  rb : RingBuffer
  pending : List Message
  completed : List Message
  deriving DecidableEq

/-- The two steps of `Append`. -/
inductive HistoryOp where
  | takeSeq (payload : List UInt8)
  | insert (call : Nat)
  deriving DecidableEq

namespace HistoryWorld

def start (size : Nat) : HistoryWorld := ⟨.new size, [], []⟩

def step (w : HistoryWorld) : HistoryOp → Option HistoryWorld
  | .takeSeq payload =>
    let rb := w.rb.takeSeq
    some { w with rb := rb, pending := w.pending ++ [⟨rb.nextSeq, payload⟩] }
  | .insert call =>
    match w.pending[call]? with
    | none => none
    | some m =>
      some { rb := w.rb.insert m, pending := w.pending.eraseIdx call, completed := w.completed ++ [m] }

/-- The message that is inserted has a greater number than all that were inserted before. -/
def InOrder (w : HistoryWorld) : HistoryOp → Prop
  | .takeSeq _ => True
  | .insert call => ∀ m, w.pending[call]? = some m → ∀ m' ∈ w.completed, m'.seqNo < m.seqNo

instance (w : HistoryWorld) (op : HistoryOp) : Decidable (w.InOrder op) :=
  match op with
  | .takeSeq _ => isTrue trivial
  | .insert call =>
    match h : w.pending[call]? with
    | none => isTrue fun m hm => nomatch h.symm.trans hm
    | some m =>
      decidable_of_iff (∀ m' ∈ w.completed, m'.seqNo < m.seqNo) (by
        constructor
        · intro hall m' hm'
          rw [h] at hm'
          cases hm'
          exact hall
        · exact fun hall => hall m h)

/-- The messages that a replay is to give: those with a greater number than `afterSeq` among the `size` messages with
the greatest numbers. -/
def Wanted (w : HistoryWorld) (afterSeq : UInt64) (m : Message) : Prop :=
  m ∈ w.completed ∧ afterSeq < m.seqNo ∧
    (w.completed.filter fun m' => decide (m.seqNo < m'.seqNo)).length < w.rb.size

/-- `Since` gives the messages that are wanted, in the order of their numbers. -/
structure Replays (w : HistoryWorld) (afterSeq : UInt64) : Prop where
  order : (w.rb.since afterSeq).Pairwise fun m m' => m.seqNo < m'.seqNo
  exact : ∀ m, m ∈ w.rb.since afterSeq ↔ w.Wanted afterSeq m

end HistoryWorld

/-! ### The ring -/

namespace RingBuffer

/-- The ring that the buffer is. -/
def ring (rb : RingBuffer) : RingList Message := ⟨rb.buf, rb.head, rb.count⟩

theorem ring_insert {rb : RingBuffer} (hsize : rb.buf.length = rb.size) (m : Message) :
    (rb.insert m).ring = rb.ring.push m := by
  simp only [insert, ring, RingList.push, hsize]
  split <;> rfl

theorem since_eq_filter {rb : RingBuffer} (hsize : rb.buf.length = rb.size) (afterSeq : UInt64) :
    rb.since afterSeq = rb.ring.contents.filter fun m => decide (m.seqNo > afterSeq) := by
  rw [since, RingList.contents, filter_filterMap]
  simp only [ring, RingList.cell, hsize]

end RingBuffer

namespace HistoryWorld

/-- The ring holds the last messages that were inserted, and their numbers increase. -/
structure Holds (n : Nat) (w : HistoryWorld) : Prop where
  size : w.rb.size = n
  length : w.rb.buf.length = n
  ok : w.rb.ring.Ok
  contents : w.rb.ring.contents = lastOf n w.completed
  increasing : w.completed.Pairwise fun m m' => m.seqNo < m'.seqNo

theorem holds_start {size : Nat} (hsize : 0 < size) : Holds size (start size) := by
  have hlength : (RingBuffer.new size).buf.length = size := length_replicate
  have hok : (RingBuffer.new size).ring.Ok := by
    refine ⟨?_, Nat.zero_le _⟩
    show 0 < (RingBuffer.new size).buf.length
    rw [hlength]
    exact hsize
  refine ⟨rfl, hlength, hok, ?_, .nil⟩
  rw [lastOf_eq_self (Nat.zero_le _)]
  rfl

theorem holds_step {size : Nat} {w w' : HistoryWorld} {op : HistoryOp} (h : Holds size w) (horder : w.InOrder op)
    (hstep : w.step op = some w') : Holds size w' := by
  cases op with
  | takeSeq payload =>
    cases hstep
    exact ⟨h.size, h.length, h.ok, h.contents, h.increasing⟩
  | insert call =>
    rw [step] at hstep
    cases hm : w.pending[call]? with
    | none =>
      rw [hm] at hstep
      exact nomatch hstep
    | some m =>
      rw [hm] at hstep
      cases hstep
      have hlength : w.rb.buf.length = w.rb.size := h.length.trans h.size.symm
      have hring := RingBuffer.ring_insert hlength m
      have hbuf : (w.rb.insert m).buf.length = size := by
        have hpush := RingList.length_buf_push w.rb.ring m
        rw [← hring] at hpush
        exact hpush.trans h.length
      have hringlen : w.rb.ring.buf.length = size := h.length
      refine ⟨?_, hbuf, ?_, ?_, ?_⟩
      · show (w.rb.insert m).size = size
        rw [RingBuffer.insert, ← h.size]
        split <;> rfl
      · show (w.rb.insert m).ring.Ok
        rw [hring]
        exact h.ok.push m
      · show (w.rb.insert m).ring.contents = _
        have hcontents := h.contents
        rw [← hringlen] at hcontents ⊢
        rw [hring]
        exact RingList.contents_push_lastOf h.ok hcontents m
      · refine pairwise_append.2 ⟨h.increasing, pairwise_singleton _ _, ?_⟩
        intro m' hm' m'' hm''
        rw [mem_singleton.1 hm'']
        exact horder m hm m' hm'

theorem filter_of_split {before behind : List Message} {m : Message}
    (h : (before ++ m :: behind).Pairwise fun m m' => m.seqNo < m'.seqNo) :
    (before ++ m :: behind).filter (fun m' => decide (m.seqNo < m'.seqNo)) = behind := by
  obtain ⟨-, hbehind, hcross⟩ := pairwise_append.1 h
  have hgreater := (pairwise_cons.1 hbehind).1
  have hnone : before.filter (fun m' => decide (m.seqNo < m'.seqNo)) = [] := by
    apply filter_eq_nil_iff.2
    intro m' hm'
    have hlt := hcross m' hm' m mem_cons_self
    rw [decide_eq_true_iff]
    exact fun hgt => UInt64.lt_irrefl _ (UInt64.lt_trans hlt hgt)
  rw [filter_append, hnone, nil_append, filter_cons, if_neg (by simp)]
  exact filter_eq_self.2 fun m' hm' => decide_eq_true (hgreater m' hm')

/-- The last messages are those with the greatest numbers. -/
theorem mem_lastOf_iff {n : Nat} {l : List Message} (h : l.Pairwise fun m m' => m.seqNo < m'.seqNo) (m : Message) :
    m ∈ lastOf n l ↔ m ∈ l ∧ (l.filter fun m' => decide (m.seqNo < m'.seqNo)).length < n := by
  by_cases hmem : m ∈ l
  · obtain ⟨before, behind, rfl⟩ := append_of_mem hmem
    rw [filter_of_split h, and_iff_right hmem, lastOf, length_append, length_cons]
    obtain ⟨-, -, hcross⟩ := pairwise_append.1 h
    have hbehind := (pairwise_cons.1 (pairwise_append.1 h).2.1).1
    by_cases hlt : behind.length < n
    · refine iff_of_true ?_ hlt
      rw [drop_append_of_le_length (by omega)]
      exact mem_append_right _ mem_cons_self
    · refine iff_of_false ?_ hlt
      -- the message is dropped, and it is not behind itself
      have hsub : before.length + (behind.length + 1) - n = before.length + (behind.length + 1 - n) := by omega
      have hpos : behind.length + 1 - n = behind.length - n + 1 := by omega
      rw [hsub, drop_length_add_append, hpos, drop_succ_cons]
      exact fun hdrop => UInt64.lt_irrefl _ (hbehind m (mem_of_mem_drop hdrop))
  · refine iff_of_false (fun hlast => hmem (mem_of_mem_drop hlast)) fun hboth => hmem hboth.1

/-- **A replay is in order and without gaps** in every run in which the messages are inserted in the order of their
numbers. -/
theorem replays {size : Nat} (hsize : 0 < size) {w : HistoryWorld}
    (hreach : ReachableIf step InOrder (start size) w) (afterSeq : UInt64) : w.Replays afterSeq := by
  have h : Holds size w :=
    hreach.invariant (holds_start hsize) fun _ _ _ _ h horder hstep => holds_step h horder hstep
  have hsince := RingBuffer.since_eq_filter (h.length.trans h.size.symm) afterSeq
  rw [h.contents] at hsince
  refine ⟨?_, fun m => ?_⟩
  · rw [hsince]
    exact (h.increasing.sublist (drop_sublist _ _)).filter _
  · rw [hsince, mem_filter, mem_lastOf_iff h.increasing, decide_eq_true_iff, Wanted, h.size]
    exact ⟨fun hm => ⟨hm.1.1, hm.2, hm.1.2⟩, fun hm => ⟨⟨hm.1, hm.2.2⟩, hm.2.1⟩⟩

/-- Two messages in a buffer of one cell. -/
theorem replays_two :
    (⟨⟨[⟨2, [8]⟩], 1, 0, 1, 2⟩, [], [⟨1, [7]⟩, ⟨2, [8]⟩]⟩ : HistoryWorld).Replays 0 := by
  refine @replays 1 (by decide) _ ?_ 0
  refine .step (.insert 0) (.step (.takeSeq [8]) (.step (.insert 0) (.step (.takeSeq [7]) .init ?_ rfl) ?_ rfl) ?_ rfl) ?_
    rfl
  all_goals decide

/-- **A message that was overtaken is replayed behind the one that overtook it**, and takes the only cell. -/
theorem replay_out_of_order :
    (∃ w, exec step (start 2) [.takeSeq [7], .takeSeq [8], .insert 1, .insert 0] = some w ∧
        w.rb.since 0 = [⟨2, [8]⟩, ⟨1, [7]⟩] ∧ ¬ w.Replays 0) ∧
      ∃ w, exec step (start 1) [.takeSeq [7], .takeSeq [8], .insert 1, .insert 0] = some w ∧
        w.rb.since 0 = [⟨1, [7]⟩] ∧ ¬ w.Replays 0 := by
  refine ⟨⟨_, rfl, rfl, fun h => ?_⟩, _, rfl, rfl, fun h => ?_⟩
  · exact absurd h.order (by decide)
  · exact absurd ((h.exact ⟨2, [8]⟩).2 ⟨by decide, by decide, by decide⟩) (by decide)

end HistoryWorld

end SystemDesignLabs.WebsocketGateway
