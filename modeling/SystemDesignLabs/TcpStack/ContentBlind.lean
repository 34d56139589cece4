import SystemDesignLabs.TcpStack.Stack

/-!
# Handlers that do not look at payloads

No handler of either stage branches on the contents of a payload or of a buffer, only on their
lengths, and each writes to the peer of the connection it works on (`ContentBlind`). `SlotAgree peer`
relates two slots that differ at most in the contents of another peer's buffers; every handler keeps
it and writes the same segments to `peer` (`ContentBlind.agree`).
-/

namespace SystemDesignLabs.TcpStack

open List Conn

/-! ## Connections up to the contents of their buffers -/

/-- The remote address and port of a connection. -/
def Conn.peer (c : Conn) : UInt32 × UInt16 :=
  (c.dstIp, c.dstPort)

/-- The remote address and port a segment is sent to. -/
def Segment.peer (s : Segment) : UInt32 × UInt16 :=
  (s.dstIp, s.dstPort)

/-- The remote address and port a packet comes from. -/
def Header.peer (h : Header) : UInt32 × UInt16 :=
  (h.saddr, h.source)

/-- A list of the same length that says nothing about the contents. -/
def blank (l : List UInt8) : List UInt8 :=
  List.replicate l.length 0

theorem blank_eq_iff {l l' : List UInt8} : blank l = blank l' ↔ l.length = l'.length := by
  constructor
  · intro h
    simpa only [blank, length_replicate] using congrArg length h
  · intro h
    rw [blank, blank, h]

/-- A connection without the contents of its buffers and its history. -/
def Conn.outline (c : Conn) : Conn :=
  { c with sendBuf := blank c.sendBuf, recvBuf := blank c.recvBuf, hist := Conn.zero.hist }

variable {c c' : Conn}

theorem Conn.outline_eq_iff : c.outline = c'.outline ↔
    ∃ sendBuf recvBuf hist, c' = { c with sendBuf := sendBuf, recvBuf := recvBuf, hist := hist } ∧
      c.sendBuf.length = sendBuf.length ∧ c.recvBuf.length = recvBuf.length := by
  constructor
  · intro h
    obtain ⟨⟩ := c
    obtain ⟨⟩ := c'
    simp only [outline, mk.injEq, blank_eq_iff] at h
    obtain ⟨rfl, rfl, rfl, rfl, rfl, rfl, rfl, rfl, rfl, rfl, rfl, rfl, rfl, hs, hr, rfl, -⟩ := h
    exact ⟨_, _, _, rfl, hs, hr⟩
  · rintro ⟨sendBuf, recvBuf, hist, rfl, hs, hr⟩
    simp only [outline, blank_eq_iff.2 hs, blank_eq_iff.2 hr]

/-- Handlers do what they do without looking at the contents of the buffers, and write to the peer of
the connection they work on. -/
structure ContentBlind (f : List UInt8 → Conn → Conn × List Segment) : Prop where
  outline : ∀ data data' c c', data.length = data'.length → c.outline = c'.outline →
    (f data c).1.outline = (f data' c').1.outline
  peer : ∀ data c, (f data c).1.peer = c.peer
  addressed : ∀ data c, ∀ s ∈ (f data c).2, s.peer = c.peer

/-- The segments written for one peer. -/
def sentTo (peer : UInt32 × UInt16) (out : List Segment) : List Segment :=
  out.filter fun s => decide (s.peer = peer)

theorem sentTo_append (peer : UInt32 × UInt16) (l l' : List Segment) :
    sentTo peer (l ++ l') = sentTo peer l ++ sentTo peer l' :=
  filter_append l l'

theorem sentTo_of_ne {peer peer' : UInt32 × UInt16} {out : List Segment}
    (h : ∀ s ∈ out, s.peer = peer') (hne : peer' ≠ peer) : sentTo peer out = [] := by
  refine filter_eq_nil_iff.2 fun s hs => ?_
  rw [decide_eq_true_eq, h s hs]
  exact hne

/-- Two slots that differ at most in the contents of another peer's buffers. -/
structure SlotAgree (peer : UInt32 × UInt16) (c c' : Conn) : Prop where
  outline : c.outline = c'.outline
  same : c.peer = peer → c = c'

theorem SlotAgree.refl (peer : UInt32 × UInt16) (c : Conn) : SlotAgree peer c c :=
  ⟨rfl, fun _ => rfl⟩

variable {peer : UInt32 × UInt16}

theorem SlotAgree.peer_eq (h : SlotAgree peer c c') : c.peer = c'.peer := by
  have := congrArg Conn.peer h.outline
  exact this

/-- Two slots that agree, with the segments written for the peer. -/
structure PairAgree (peer : UInt32 × UInt16) (x x' : Conn × List Segment) : Prop where
  slot : SlotAgree peer x.1 x'.1
  out : sentTo peer x.2 = sentTo peer x'.2

/-- A handler that is blind to the contents keeps two slots in agreement, given payloads of one
length that are the same if they are the peer's. -/
theorem ContentBlind.agree {f : List UInt8 → Conn → Conn × List Segment} (hf : ContentBlind f)
    {data data' : List UInt8} (h : SlotAgree peer c c') (hlen : data.length = data'.length)
    (hdata : c.peer = peer → data = data') : PairAgree peer (f data c) (f data' c') := by
  refine ⟨⟨?_, fun hp => ?_⟩, ?_⟩
  · exact hf.outline data data' c c' hlen h.outline
  · rw [hf.peer] at hp
    rw [h.same hp, hdata hp]
  · by_cases hp : c.peer = peer
    · rw [h.same hp, hdata hp]
    · rw [sentTo_of_ne (hf.addressed data c) hp, sentTo_of_ne (hf.addressed data' c') (h.peer_eq ▸ hp)]

theorem ContentBlind.agree_of_const {f : Conn → Conn × List Segment} (hf : ContentBlind fun _ => f)
    (h : SlotAgree peer c c') : PairAgree peer (f c) (f c') :=
  hf.agree h (rfl : ([] : List UInt8).length = _) fun _ => rfl

/-- A stage whose handlers are all blind to the contents. -/
structure Stage.Blind (g : Stage) : Prop where
  ack : ∀ now ack, ContentBlind fun _ c => g.handleAck now c ack
  data : ∀ now, ContentBlind fun data c => g.handleData now c data
  fin : ∀ now, ContentBlind fun _ c => g.handleFin now c
  rto : ∀ now, ContentBlind fun _ c => g.onRto now c

/-! ## The handlers of the two stages -/

theorem sendPacket_blind (now : Timespec) (flags : UInt8) : ContentBlind fun data c => sendPacket now c flags data where
  outline := by
    intro data data' c c' hlen h
    obtain ⟨sendBuf, recvBuf, hist, rfl, hs, hr⟩ := outline_eq_iff.1 h
    simp only [sendPacket, ← hlen]
    split
    · exact outline_eq_iff.2 ⟨_, _, _, rfl, by simp only [length_take, hlen], hr⟩
    · exact h
  peer := by
    intro data c
    simp only [sendPacket]
    split <;> rfl
  addressed := by
    intro data c s hs
    rw [mem_singleton.1 hs]
    rfl

theorem sendPacket_nil (now : Timespec) (c : Conn) (flags : UInt8) :
    sendPacket now c flags [] = (c, [c.segment flags []]) :=
  rfl

namespace Reliable

theorem handleAckEstablished_blind (now : Timespec) (ack : UInt32) :
    ContentBlind fun _ c => handleAckEstablished now c ack where
  outline := by
    intro _ _ c c' _ h
    obtain ⟨sendBuf, recvBuf, hist, rfl, hs, hr⟩ := outline_eq_iff.1 h
    simp only [handleAckEstablished, freeConn]
    split_ifs <;> exact outline_eq_iff.2 ⟨_, _, _, rfl, by first | exact hs | rfl, hr⟩
  peer := by
    intro _ c
    simp only [handleAckEstablished, freeConn]
    split_ifs <;> rfl
  addressed := by
    intro _ c s hs
    simp only [handleAckEstablished] at hs
    split_ifs at hs <;> cases hs

theorem echo_blind (now : Timespec) : ContentBlind fun data c => echo now c data where
  outline := by
    intro data data' c c' hlen h
    obtain ⟨sendBuf, recvBuf, hist, rfl, -, hr⟩ := outline_eq_iff.1 h
    simp only [echo, sendPacket, ← hlen]
    split
    · exact outline_eq_iff.2 ⟨_, _, _, rfl, by simp only [length_take, hlen], hr⟩
    · exact outline_eq_iff.2 ⟨_, _, _, rfl, rfl, hr⟩
  peer := by
    intro data c
    simp only [echo, sendPacket]
    split <;> rfl
  addressed := fun data c => (sendPacket_blind now _).addressed data { c with sendBuf := [] }

theorem receive_outline {taken taken' : List UInt8} (hlen : taken.length = taken'.length) (h : c.outline = c'.outline) :
    (receive c taken).outline = (receive c' taken').outline := by
  obtain ⟨sendBuf, recvBuf, hist, rfl, hs, hr⟩ := outline_eq_iff.1 h
  refine outline_eq_iff.2 ⟨sendBuf, recvBuf ++ taken',
    { hist with accepted := hist.accepted ++ taken' }, ?_, hs, ?_⟩
  · simp only [receive, hlen]
  · simp only [receive, length_append, hr, hlen]

theorem taken_length {data data' : List UInt8} (hlen : data.length = data'.length) (h : c.outline = c'.outline) :
    (data.take (room c data)).length = (data'.take (room c' data')).length := by
  obtain ⟨sendBuf, recvBuf, hist, rfl, hs, hr⟩ := outline_eq_iff.1 h
  simp only [length_take, room, hlen, hr]

theorem handleData_blind (now : Timespec) : ContentBlind fun data c => handleData now c data where
  outline := by
    intro data data' c c' hlen h
    simp only [handleData, sendPacket_nil, ← hlen]
    split
    · exact h
    · have htaken := taken_length hlen h
      exact (echo_blind now).outline _ _ _ _ htaken (receive_outline htaken h)
  peer := by
    intro data c
    simp only [handleData, sendPacket_nil]
    split
    · rfl
    · exact (echo_blind now).peer _ _
  addressed := by
    intro data c s hs
    simp only [handleData, sendPacket_nil] at hs
    split at hs
    · cases hs
    · rcases mem_append.1 hs with hs | hs
      · rw [mem_singleton.1 hs]
        rfl
      · have haddr := (echo_blind now).addressed _ _ s hs
        exact haddr

theorem handleFin_blind (now : Timespec) : ContentBlind fun _ c => handleFin now c where
  outline := by
    intro _ _ c c' _ h
    obtain ⟨sendBuf, recvBuf, hist, rfl, hs, hr⟩ := outline_eq_iff.1 h
    simp only [handleFin, sendPacket_nil]
    split_ifs <;> exact outline_eq_iff.2 ⟨_, _, _, rfl, hs, hr⟩
  peer := by
    intro _ c
    simp only [handleFin, sendPacket_nil]
    split_ifs <;> rfl
  addressed := by
    intro _ c s hs
    simp only [handleFin, sendPacket_nil] at hs
    split_ifs at hs
    · rcases mem_append.1 hs with hs | hs <;> (rw [mem_singleton.1 hs]; rfl)
    · rw [mem_singleton.1 hs]
      rfl
    · cases hs

theorem retransmit_blind (now : Timespec) : ContentBlind fun _ c => retransmit now c where
  outline := by
    intro _ _ c c' _ h
    obtain ⟨sendBuf, recvBuf, hist, rfl, hs, hr⟩ := outline_eq_iff.1 h
    exact (sendPacket_blind now _).outline _ _ _ _ hs h
  peer := fun _ c => (sendPacket_blind now _).peer c.sendBuf c
  addressed := fun _ c => (sendPacket_blind now _).addressed c.sendBuf c

theorem stage_blind : stage.Blind :=
  ⟨handleAckEstablished_blind, handleData_blind, handleFin_blind, retransmit_blind⟩

end Reliable

namespace Congestion

theorem resend_blind (now : Timespec) : ContentBlind fun _ c => resend now c where
  outline := by
    intro _ _ c c' _ h
    obtain ⟨sendBuf, recvBuf, hist, rfl, hs, hr⟩ := outline_eq_iff.1 h
    simp only [resend, ← hs]
    split
    · exact (sendPacket_blind now _).outline _ _ _ _ hs h
    · exact h
  peer := by
    intro _ c
    simp only [resend]
    split
    · exact (sendPacket_blind now _).peer c.sendBuf c
    · rfl
  addressed := by
    intro _ c s hs
    simp only [resend] at hs
    split at hs
    · exact (sendPacket_blind now _).addressed c.sendBuf c s hs
    · cases hs

theorem onDuplicateAck_blind (now : Timespec) : ContentBlind fun _ c => onDuplicateAck now c where
  outline := by
    intro _ _ c c' _ h
    obtain ⟨sendBuf, recvBuf, hist, rfl, hs, hr⟩ := outline_eq_iff.1 h
    simp only [onDuplicateAck]
    split
    · exact outline_eq_iff.2 ⟨_, _, _, rfl, hs, hr⟩
    · exact (resend_blind now).outline [] [] _ _ rfl
        (outline_eq_iff.2 ⟨_, _, _, rfl, hs, hr⟩)
  peer := by
    intro _ c
    simp only [onDuplicateAck]
    split
    · rfl
    · exact (resend_blind now).peer [] _
  addressed := by
    intro _ c s hs
    simp only [onDuplicateAck] at hs
    split at hs
    · cases hs
    · have haddr := (resend_blind now).addressed [] _ s hs
      exact haddr

theorem onTimeout_blind (now : Timespec) : ContentBlind fun _ c => onTimeout now c where
  outline := by
    intro _ _ c c' _ h
    obtain ⟨sendBuf, recvBuf, hist, rfl, hs, hr⟩ := outline_eq_iff.1 h
    exact (resend_blind now).outline [] [] _ _ rfl (outline_eq_iff.2 ⟨_, _, _, rfl, hs, hr⟩)
  peer := fun _ c => (resend_blind now).peer []
    { c with ssthresh := halved c, cwnd := mss, dupAckCount := 0 }
  addressed := fun _ c => (resend_blind now).addressed []
    { c with ssthresh := halved c, cwnd := mss, dupAckCount := 0 }

theorem onAck_outline (sendBuf recvBuf : List UInt8) (hist : History)
    (hs : c.sendBuf.length = sendBuf.length) (hr : c.recvBuf.length = recvBuf.length) :
    (onAck c).outline = (onAck { c with sendBuf, recvBuf, hist }).outline := by
  rw [outline, outline, onAck, onAck]
  split <;> simp only [blank_eq_iff.2 hs, blank_eq_iff.2 hr, *]

theorem onAck_peer (c : Conn) : (onAck c).peer = c.peer := by
  rw [onAck]
  split <;> simp only [peer]

section

variable (now : Timespec)
include now

theorem handleAck_blind (ack : UInt32) : ContentBlind fun _ c => handleAck now c ack where
  outline := by
    intro _ _ c c' _ h
    obtain ⟨sendBuf, recvBuf, hist, rfl, hs, hr⟩ := outline_eq_iff.1 h
    simp only [handleAck, freeConn, ← hs]
    split_ifs
    · exact outline_eq_iff.2 ⟨_, _, _, rfl, hs, hr⟩
    · exact outline_eq_iff.2 ⟨_, _, _, rfl, hs, hr⟩
    · exact h
    · exact onAck_outline _ _ _ rfl hr
    · exact (onDuplicateAck_blind now).outline [] [] _ _ rfl h
    · exact h
  peer := by
    intro _ c
    simp only [handleAck, freeConn]
    split_ifs
    · rfl
    · rfl
    · rfl
    · exact onAck_peer _
    · exact (onDuplicateAck_blind now).peer [] c
    · rfl
  addressed := by
    intro _ c s hs
    simp only [handleAck] at hs
    split_ifs at hs
    on_goal 5 => exact (onDuplicateAck_blind now).addressed [] c s hs
    all_goals cases hs

theorem echo_blind : ContentBlind fun data c => echo now c data where
  outline := by
    intro data data' c c' hlen h
    obtain ⟨sendBuf, recvBuf, hist, rfl, hs, hr⟩ := outline_eq_iff.1 h
    simp only [echo, sendPacket, ← hlen]
    split
    · exact outline_eq_iff.2 ⟨_, _, _, rfl, by simp only [length_take, hlen], hr⟩
    · exact outline_eq_iff.2 ⟨_, _, _, rfl, hs, hr⟩
  peer := by
    intro data c
    simp only [echo, sendPacket]
    split <;> rfl
  addressed := fun data c => (sendPacket_blind now _).addressed data c

theorem handleData_blind : ContentBlind fun data c => handleData now c data where
  outline := by
    intro data data' c c' hlen h
    obtain ⟨sendBuf, recvBuf, hist, rfl, hs, hr⟩ := outline_eq_iff.1 h
    simp only [handleData, sendPacket_nil, ← hlen]
    split
    · exact h
    · have htaken : (data.take (room data)).length = (data'.take (room data')).length := by
        simp only [room, length_take, hlen]
      refine (echo_blind now).outline _ _ _ _ ?_ ?_
      · simp only [length_take] at htaken
        simp only [length_take, sendLen, htaken]
      · rw [outline, outline]
        simp only [htaken, blank_eq_iff.2 hs, blank_eq_iff.2 hr]
  peer := by
    intro data c
    simp only [handleData, sendPacket_nil]
    split
    · rfl
    · exact (echo_blind now).peer _ _
  addressed := by
    intro data c s hs
    simp only [handleData, sendPacket_nil] at hs
    split at hs
    · cases hs
    · rcases mem_append.1 hs with hs | hs
      · rw [mem_singleton.1 hs]
        rfl
      · have haddr := (echo_blind now).addressed _ _ s hs
        exact haddr

theorem handleFin_blind : ContentBlind fun _ c => handleFin now c where
  outline := by
    intro _ _ c c' _ h
    obtain ⟨sendBuf, recvBuf, hist, rfl, hs, hr⟩ := outline_eq_iff.1 h
    simp only [handleFin, sendPacket_nil]
    split_ifs <;> exact outline_eq_iff.2 ⟨_, _, _, rfl, hs, hr⟩
  peer := by
    intro _ c
    simp only [handleFin, sendPacket_nil]
    split_ifs <;> rfl
  addressed := by
    intro _ c s hs
    simp only [handleFin, sendPacket_nil] at hs
    split_ifs at hs
    · rcases mem_append.1 hs with hs | hs <;> (rw [mem_singleton.1 hs]; rfl)
    · cases hs

end

theorem stage_blind : stage.Blind :=
  ⟨handleAck_blind, handleData_blind, handleFin_blind, onTimeout_blind⟩

end Congestion

end SystemDesignLabs.TcpStack
