import SystemDesignLabs.TcpStack.Stack

/-!
# The byte stream of the second stage

What reliable delivery means for a connection (`Conn.Reliable`): the accepted bytes are a prefix of
the peer's stream, and every data segment sent carries the bytes accepted so far from the offset that
its sequence number names. The second stage keeps this in every run in which no retransmission timer
fires and every segment handed to `handle_data` is the next one of the stream
(`reliable_of_orderly`).

Neither restriction can be dropped. `handle_data` never looks at the sequence number, so that a
duplicate is accepted twice. A retransmission goes out under `snd_nxt`, which has moved past the
bytes it repeats, and so is never right (`not_reliable_of_retransmit`).
-/

namespace SystemDesignLabs.TcpStack

open List Option Core

/-! ## The property -/

/-- The offset in the echoed stream that a sequence number names. -/
def History.offsetOf (h : History) (seq : UInt32) : Nat :=
  (seq - (h.isn + 1)).toNat

/-- The connection delivers a reliable byte stream so far. -/
structure Conn.Reliable (c : Conn) : Prop where
  accepted : c.hist.accepted <+: c.hist.stream
  sent : ∀ s ∈ c.hist.sent, s.payload <+: s.accepted.drop (c.hist.offsetOf s.seq)

namespace Reliable

/-! ## The steps of a run -/

/-- The call of `handle_data` in an iteration: the connection, the header and the payload. -/
def dataCall (w : World) (it : Iteration) : Option (Conn × Header × List UInt8) :=
  match it.bytes with
  | none => none
  | some bytes =>
    match accept (readInto w.buf bytes) bytes.length with
    | none => none
    | some h =>
      if h.opens then none
      else
        match (w.timers stage it.readings).connOf h with
        | none => none
        | some (_, c) =>
          let a := (stage.onAckFlag it.readings.packet h c).1
          if stage.handsOver h a then
            some (a, h, slice (readInto w.buf bytes) h.payloadAt h.payloadLen)
          else none

/-- The payload is a part of the peer's stream under its sequence number. -/
def Genuine (w : World) (it : Iteration) : Prop :=
  ∀ c h data, dataCall w it = some (c, h, data) →
    h.seq = c.hist.irs + 1 + UInt32.ofNat it.offset ∧ data <+: c.hist.stream.drop it.offset

/-- No retransmission timer is due, and the payload is the next part of the stream: it begins where
the accepted bytes end, unless the receive buffer is full. -/
structure Orderly (w : World) (it : Iteration) : Prop where
  noRto : w.timersDue it.readings = true →
    ∀ i c, w.table[i]? = some c → rtoDue (it.readings.rto i) c = false
  inOrder : ∀ c h data, dataCall w it = some (c, h, data) →
    it.offset = c.hist.accepted.length ∨ room c data = 0

/-! ## What a connection keeps -/

/-- The invariant of a slot. -/
structure ConnOk (c : Conn) : Prop where
  reliable : c.Reliable
  recvBuf : c.recvBuf = c.hist.accepted
  bound : c.hist.accepted.length ≤ recvBufSize
  sndNxt : c.state = .synRcvd ∨ c.state = .established →
    c.sndNxt = c.hist.isn + 1 + UInt32.ofNat c.hist.accepted.length

variable {c : Conn}

theorem ConnOk.offsetOf_sndNxt (h : ConnOk c) (hs : c.state = .synRcvd ∨ c.state = .established) :
    c.hist.offsetOf c.sndNxt = c.hist.accepted.length := by
  have hlt : c.hist.accepted.length < 2 ^ 32 := by
    have := h.bound
    rw [recvBufSize] at this
    omega
  rw [History.offsetOf, h.sndNxt hs, UInt32.add_comm, UInt32.add_sub_cancel, UInt32.toNat_ofNat_of_lt' hlt]

theorem ConnOk.of_eq {c' : Conn} (h : ConnOk c) (hhist : c'.hist = c.hist) (hbuf : c'.recvBuf = c.recvBuf)
    (hnext : c'.state = .synRcvd ∨ c'.state = .established →
      (c.state = .synRcvd ∨ c.state = .established) ∧ c'.sndNxt = c.sndNxt) : ConnOk c' where
  reliable := ⟨hhist ▸ h.reliable.accepted, hhist ▸ h.reliable.sent⟩
  recvBuf := by rw [hbuf, hhist, h.recvBuf]
  bound := hhist ▸ h.bound
  sndNxt := fun hs => by rw [(hnext hs).2, hhist, h.sndNxt (hnext hs).1]

theorem ConnOk.zero : ConnOk Conn.zero where
  reliable := ⟨prefix_refl _, fun s hs => by cases hs⟩
  recvBuf := rfl
  bound := Nat.zero_le _
  sndNxt := by rintro (h | h) <;> cases h

section

variable (h : ConnOk c)
include h

theorem ConnOk.freeConn : ConnOk (freeConn c) :=
  h.of_eq rfl rfl fun hs => ⟨hs, rfl⟩

theorem ConnOk.handleAck (now : Timespec) (ack : UInt32) :
    ConnOk (handleAckEstablished now c ack).1 := by
  rw [handleAckEstablished]
  split_ifs with h1 h2 h3
  · exact h.of_eq rfl rfl fun _ => ⟨.inl h1, rfl⟩
  · exact h.freeConn
  · exact h
  · exact h.of_eq rfl rfl fun hs => ⟨hs, rfl⟩
  · exact h

theorem ConnOk.handleFin (now : Timespec) : ConnOk (handleFin now c).1 := by
  simp only [Reliable.handleFin, sendPacket, length_nil, Nat.lt_irrefl, if_false]
  split_ifs
  · exact h.of_eq rfl rfl fun hs => by rcases hs with hs | hs <;> cases hs
  · exact h.of_eq rfl rfl fun hs => by rcases hs with hs | hs <;> cases hs
  · exact h.of_eq rfl rfl fun hs => ⟨hs, rfl⟩

theorem ConnOk.echo (hs : c.state = .established) (now : Timespec) {taken : List UInt8}
    (hnext : taken <+: c.hist.stream.drop c.hist.accepted.length)
    (hroom : c.hist.accepted.length + taken.length ≤ recvBufSize) :
    ConnOk (Reliable.echo now (receive c taken) taken).1 := by
  obtain ⟨rest, hrest⟩ := h.reliable.accepted
  have hpre : c.hist.accepted ++ taken <+: c.hist.stream := by
    rw [← hrest, drop_left] at hnext
    rw [← hrest]
    exact (prefix_append_right_inj _).2 hnext
  have hlen : (c.hist.accepted ++ taken).length ≤ recvBufSize := by
    rw [length_append]
    exact hroom
  have hsnd : c.sndNxt + UInt32.ofNat taken.length
      = c.hist.isn + 1 + UInt32.ofNat (c.hist.accepted ++ taken).length := by
    rw [h.sndNxt (.inr hs), length_append, UInt32.ofNat_add, UInt32.add_assoc]
  have hsent : taken <+: (c.hist.accepted ++ taken).drop (c.hist.offsetOf c.sndNxt) := by
    have hdrop : (c.hist.accepted ++ taken).drop (c.hist.offsetOf c.sndNxt) = taken := by
      rw [h.offsetOf_sndNxt (.inr hs), drop_left]
    exact ⟨[], by rw [append_nil, hdrop]⟩
  simp only [Reliable.echo, sendPacket]
  split
  · refine ⟨⟨hpre, fun s hmem => ?_⟩, congrArg (· ++ taken) h.recvBuf, hlen, fun _ => hsnd⟩
    rcases mem_append.1 hmem with hmem | hmem
    · exact h.reliable.sent s hmem
    · rw [mem_singleton.1 hmem]
      exact hsent
  · exact ⟨⟨hpre, h.reliable.sent⟩, congrArg (· ++ taken) h.recvBuf, hlen, fun _ => hsnd⟩

theorem room_add_le (data : List UInt8) : c.hist.accepted.length + room c data ≤ recvBufSize := by
  have hbound := h.bound
  rw [room, h.recvBuf]
  split <;> omega

theorem ConnOk.handleData (hs : c.state = .established) (now : Timespec) {data : List UInt8}
    {offset : Nat} (hgen : data <+: c.hist.stream.drop offset)
    (hord : offset = c.hist.accepted.length ∨ room c data = 0) : ConnOk (handleData now c data).1 := by
  rw [Reliable.handleData]
  split
  · exact h
  · refine h.echo hs now ?_ ?_
    · rcases hord with rfl | hfull
      · exact (List.take_prefix _ _).trans hgen
      · rw [hfull, take_zero]
        exact nil_prefix
    · exact Nat.le_trans (Nat.add_le_add_left (length_take_le _ _) _) (room_add_le h data)

end

theorem ConnOk.opened (it : Iteration) (h : Header) : ConnOk { stage.opened it h with sndNxt := it.isn + 1 } where
  reliable := ⟨List.nil_prefix, fun s hs => by cases hs⟩
  recvBuf := rfl
  bound := Nat.zero_le _
  sndNxt := fun _ => (UInt32.add_zero _).symm

/-! ## What a run keeps -/

/-- Every slot of the table is in order. -/
def TableOk (w : World) : Prop :=
  ∀ c ∈ w.table, ConnOk c

variable {w : World}

theorem TableOk.set (h : TableOk w) {i : Nat} (hc : ConnOk c) : ∀ c' ∈ w.table.set i c, ConnOk c' := by
  intro c' hc'
  rcases mem_or_eq_of_mem_set hc' with hc' | rfl
  · exact h c' hc'
  · exact hc

theorem TableOk.timers (h : TableOk w) {r : Readings}
    (hrto : w.timersDue r = true → ∀ i c, w.table[i]? = some c → rtoDue (r.rto i) c = false) :
    TableOk (w.timers stage r) := by
  rw [World.timers]
  split
  · rename_i hdue
    intro c' hc'
    obtain ⟨i, hi, rfl⟩ := mem_mapIdx.1 hc'
    have hc := h _ (getElem_mem hi)
    rw [retransmitSlot, hrto hdue i _ (getElem?_eq_getElem hi), if_neg Bool.false_ne_true, timeWaitSlot]
    split
    · exact hc.freeConn
    · exact hc
  · exact h

theorem TableOk.handleSyn (h : TableOk w) (it : Iteration) (hd : Header) : TableOk (w.handleSyn stage it hd) := by
  rw [World.handleSyn]
  split
  · exact h
  · exact h.set (ConnOk.opened it hd)

theorem ConnOk.onSegment (h : ConnOk c) (now : Timespec) (hd : Header) {data : List UInt8} {offset : Nat}
    (hdata : stage.handsOver hd (stage.onAckFlag now hd c).1 = true → data <+: (stage.onAckFlag now hd c).1.hist.stream.drop offset ∧ (offset = (stage.onAckFlag now hd c).1.hist.accepted.length ∨ room (stage.onAckFlag now hd c).1 data = 0)) :
    ConnOk (stage.onSegment now hd data c).1 := by
  have hack : ConnOk (stage.onAckFlag now hd c).1 := by
    rw [Stage.onAckFlag]
    split
    · exact h.handleAck now _
    · exact h
  have hpay : ConnOk (stage.onPayload now hd data (stage.onAckFlag now hd c).1).1 := by
    rw [Stage.onPayload]
    split
    · rename_i hover
      have hstate : (stage.onAckFlag now hd c).1.state = .established := by
        simp only [Stage.handsOver, Bool.and_eq_true, beq_iff_eq] at hover
        exact hover.2
      exact hack.handleData hstate now (hdata hover).1 (hdata hover).2
    · exact hack
  have hfin : ∀ c', ConnOk c' → ConnOk (stage.onFinFlag now hd c').1 := by
    intro c' hc'
    rw [Stage.onFinFlag]
    split
    · exact hc'.handleFin now
    · exact hc'
  exact hfin _ hpay

theorem connOf_mem {h : Header} {i : Nat} (hc : w.connOf h = some (i, c)) : c ∈ w.table := by
  obtain ⟨j, -, hc⟩ := bind_eq_some_iff.1 hc
  obtain ⟨c', hc', heq⟩ := map_eq_some_iff.1 hc
  cases heq
  exact mem_of_getElem? hc'

theorem TableOk.receive (h : TableOk w) (it : Iteration) (hd : Header)
    (hdata : ∀ i c, hd.opens = false → w.connOf hd = some (i, c) → stage.handsOver hd (stage.onAckFlag it.readings.packet hd c).1 = true → slice w.buf hd.payloadAt hd.payloadLen <+: (stage.onAckFlag it.readings.packet hd c).1.hist.stream.drop it.offset ∧ (it.offset = (stage.onAckFlag it.readings.packet hd c).1.hist.accepted.length ∨ room (stage.onAckFlag it.readings.packet hd c).1 (slice w.buf hd.payloadAt hd.payloadLen) = 0)) :
    TableOk (w.receive stage it hd) := by
  rw [World.receive]
  split
  · exact h.handleSyn it hd
  · rename_i hopen
    rw [Bool.not_eq_true] at hopen
    split
    · exact h
    · rename_i i c hconn
      exact h.set (ConnOk.onSegment (h c (connOf_mem hconn)) _ hd (hdata i c hopen hconn))

/-- One iteration that meets the conditions keeps every slot in order. -/
theorem TableOk.iterate (h : TableOk w) {it : Iteration} (hgen : Genuine w it) (hord : Orderly w it) :
    TableOk (w.iterate stage it) := by
  have htimers := h.timers hord.noRto
  have hin := hord.inOrder
  rw [Genuine] at hgen
  simp only [dataCall] at hgen hin
  rw [World.iterate]
  generalize it.bytes = b at hgen hin ⊢
  cases b with
  | none => exact htimers
  | some bytes =>
    have hbuf : (w.timers stage it.readings).buf = w.buf := by
      rw [World.timers]
      split <;> rfl
    simp only [World.readPacket, hbuf]
    cases haccept : accept (readInto w.buf bytes) bytes.length with
    | none => exact htimers
    | some hd =>
      simp only [haccept] at hgen hin
      refine TableOk.receive (w := { w.timers stage it.readings with
        buf := readInto w.buf bytes }) htimers it hd fun i c hopen hconn hover => ?_
      -- the connection is looked up in the table the timers left
      have hconn' : (w.timers stage it.readings).connOf hd = some (i, c) := hconn
      simp only [hopen, hconn', Bool.false_eq_true, if_false] at hgen hin
      exact ⟨(hgen _ _ _ (if_pos hover)).2, hin _ _ _ (if_pos hover)⟩

/-- **The second stage delivers a reliable byte stream on every connection**, in every run in which
the payloads are parts of the peers' streams, no retransmission timer fires and every payload handed
over is the next part of its stream. -/
theorem reliable_of_orderly (buf : Nat → UInt8) {w : World}
    (hw : ReachableIf (step stage) (fun w it => Genuine w it ∧ Orderly w it) (World.start buf) w) :
    ∀ c ∈ w.table, c.Reliable := by
  have hok : TableOk w := by
    refine hw.invariant (I := TableOk) ?_ fun w it w' _ h hok hstep => ?_
    · intro c hc
      rw [eq_of_mem_replicate hc]
      exact ConnOk.zero
    · cases hstep
      exact h.iterate hok.1 hok.2
  exact fun c hc => (hok c hc).reliable

/-! ## Concrete runs -/

instance (w : World) (it : Iteration) : Decidable (Genuine w it) :=
  decidable_of_iff (∀ x ∈ dataCall w it,
      x.2.1.seq = x.1.hist.irs + 1 + UInt32.ofNat it.offset ∧
        x.2.2 <+: x.1.hist.stream.drop it.offset)
    ⟨fun h c hd data hx => h (c, hd, data) hx, fun h x hx => h x.1 x.2.1 x.2.2 hx⟩

instance (w : World) (it : Iteration) : Decidable (Orderly w it) :=
  decidable_of_iff ((w.timersDue it.readings = true →
      ∀ x ∈ w.table.zipIdx, rtoDue (it.readings.rto x.2) x.1 = false) ∧
      ∀ x ∈ dataCall w it, it.offset = x.1.hist.accepted.length ∨ room x.1 x.2.2 = 0)
    ⟨fun h => ⟨fun hdue i c hc => h.1 hdue (c, i) (List.mem_zipIdx_iff_getElem?.2 hc),
        fun c hd data hx => h.2 (c, hd, data) hx⟩,
      fun h => ⟨fun hdue x hx => h.noRto hdue x.2 x.1 (List.mem_zipIdx_iff_getElem?.1 hx),
        fun x hx => h.inOrder x.1 x.2.1 x.2.2 hx⟩⟩

/-- The handshake of a peer that will send `abc`, its initial sequence number being 100. -/
def handshake : List Iteration :=
  [{ reading (packetFrom 1 100 flagSyn 40 []) with stream := [97, 98, 99] },
    reading (packetFrom 1 101 flagAck 40 [])]

/-- The first two bytes arrive, and arrive again. -/
def duplicateRun : List Iteration :=
  handshake ++ [reading (packetFrom 1 101 flagAck 42 [97, 98]),
    reading (packetFrom 1 101 flagAck 42 [97, 98])]

/-- The first two bytes arrive, and their echo is not acknowledged within a second. -/
def timeoutRun : List Iteration :=
  handshake ++ [reading (packetFrom 1 101 flagAck 42 [97, 98]),
    { reading [] with
      readings := ⟨⟨1, 0⟩, fun _ => ⟨1, 0⟩, fun _ => ⟨1, 0⟩, fun _ => ⟨1, 0⟩, ⟨1, 0⟩⟩
      packet := none }]

/-- The three bytes arrive in two segments, the first echo is acknowledged, and the peer closes. -/
def orderlyRun : List Iteration :=
  handshake ++ [reading (packetFrom 1 101 flagAck 42 [97, 98]),
    reading (packetFrom 1 103 flagAck 40 []),
    { reading (packetFrom 1 103 flagAck 41 [99]) with offset := 2 },
    reading (packetFrom 1 104 (flagFin ||| flagAck) 40 [])]

/-- The histories of the used slots at the end of a run whose steps meet `ok`. -/
def histories (ok : World → Iteration → Bool) (its : List Iteration) : Option (List History) :=
  (execIf (step stage) ok (World.start fun _ => 0) its).map fun w =>
    (w.table.filter Conn.used).map Conn.hist

theorem reachable_of_histories {ok : World → Iteration → Prop} {okb : World → Iteration → Bool}
    (hok : ∀ w it, okb w it = true → ok w it) {its : List Iteration} {hs : List History}
    (h : histories okb its = some hs) : ∃ w, ReachableIf (step stage) ok (World.start fun _ => 0) w ∧
      ∀ hist ∈ hs, ∃ c ∈ w.table, c.hist = hist := by
  obtain ⟨w, hw, rfl⟩ := map_eq_some_iff.1 h
  refine ⟨w, ReachableIf.init.execIf hok hw, fun hist hmem => ?_⟩
  obtain ⟨c, hc, rfl⟩ := mem_map.1 hmem
  exact ⟨c, (mem_filter.1 hc).1, rfl⟩

/-- **Duplicates and retransmissions break the stream**: `abab` is accepted of a peer that sends
`abc`, and the echo of `ab` is sent again under the sequence number that follows it. -/
theorem reliable_violated :
    (∃ w, ReachableIf (step stage) Genuine (World.start fun _ => 0) w ∧
      ∃ c ∈ w.table, ¬ c.hist.accepted <+: c.hist.stream) ∧
    (∃ w, ReachableIf (step stage) Genuine (World.start fun _ => 0) w ∧
      ∃ c ∈ w.table, ∃ s ∈ c.hist.sent,
        ¬ s.payload <+: c.hist.accepted.drop (c.hist.offsetOf s.seq)) := by
  have hdup : histories (fun w it => decide (Genuine w it)) duplicateRun
      = some [⟨[97, 98, 99], 100, 0, [97, 98, 97, 98],
        [⟨1, [97, 98], [97, 98]⟩, ⟨3, [97, 98], [97, 98, 97, 98]⟩]⟩] := by rfl
  have hrto : histories (fun w it => decide (Genuine w it)) timeoutRun
      = some [⟨[97, 98, 99], 100, 0, [97, 98], [⟨1, [97, 98], [97, 98]⟩, ⟨3, [97, 98], [97, 98]⟩]⟩] := by rfl
  obtain ⟨w, hw, hs⟩ := reachable_of_histories (fun _ _ => of_decide_eq_true) hdup
  obtain ⟨w', hw', hs'⟩ := reachable_of_histories (fun _ _ => of_decide_eq_true) hrto
  obtain ⟨c, hc, heq⟩ := hs _ (mem_singleton_self _)
  obtain ⟨c', hc', heq'⟩ := hs' _ (mem_singleton_self _)
  refine ⟨⟨w, hw, c, hc, ?_⟩, ⟨w', hw', c', hc', ⟨3, [97, 98], [97, 98]⟩, ?_, ?_⟩⟩
  · rw [heq]
    decide
  · rw [heq']
    decide
  · rw [heq']
    decide

/-- A connection whose segments arrive in order, with an acknowledgement and a FIN among them. -/
theorem reliable_of_orderly_orderlyRun :
    ∃ w, ReachableIf (step stage) (fun w it => Genuine w it ∧ Orderly w it)
        (World.start fun _ => 0) w ∧ (∀ c ∈ w.table, c.Reliable) ∧
      ∃ c ∈ w.table, c.hist = ⟨[97, 98, 99], 100, 0, [97, 98, 99],
        [⟨1, [97, 98], [97, 98]⟩, ⟨3, [99], [97, 98, 99]⟩]⟩ := by
  have hrun : histories (fun w it => decide (Genuine w it ∧ Orderly w it)) orderlyRun
      = some [⟨[97, 98, 99], 100, 0, [97, 98, 99], [⟨1, [97, 98], [97, 98]⟩, ⟨3, [99], [97, 98, 99]⟩]⟩] := by rfl
  obtain ⟨w, hw, hs⟩ := reachable_of_histories (fun _ _ => of_decide_eq_true) hrun
  exact ⟨w, hw, reliable_of_orderly _ hw, hs _ (mem_singleton_self _)⟩

end Reliable

end SystemDesignLabs.TcpStack
