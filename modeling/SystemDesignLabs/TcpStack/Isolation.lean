import SystemDesignLabs.TcpStack.ContentBlind

/-!
# Payloads and the remains of earlier packets

`run_loop` of both stages takes the length of a payload from the IP total length, which it never
compares with the number of bytes read. The bytes it hands to `handle_data` lie among those of the
packet exactly if the total length does not exceed that number (`sealed_iff_covered`); else the rest
comes from the buffer, where earlier packets left it, and the echo sends it to this connection's peer
(`sealed_violated`).

The second half of the property is about two runs. `Alike peer` relates the inputs of runs that differ
only in the payloads of other connections' packets. Neither stage looks at the contents of its buffers
(`ContentBlind`), so that the worlds of two such runs keep agreeing on everything but these contents
(`World.Agree`).
-/

namespace SystemDesignLabs.TcpStack

open List Option World Conn

/-! ## What is handed to `handle_data` -/

/-- A payload handed to `handle_data`: the header of its packet and the number of bytes read. -/
structure Handed where
  header : Header
  n : Nat
  deriving DecidableEq, Repr

/-- The bytes handed over lie among those read. -/
def Handed.Within (d : Handed) : Prop :=
  d.header.payloadAt + d.header.payloadLen ≤ d.n

/-- The packet is as long as its IP header says. -/
def Handed.Covered (d : Handed) : Prop :=
  d.header.totLen ≤ d.n

instance (d : Handed) : Decidable d.Within :=
  inferInstanceAs (Decidable (_ ≤ _))

instance (d : Handed) : Decidable d.Covered :=
  inferInstanceAs (Decidable (_ ≤ _))

/-- What the loop body hands over for a segment that passed the checks. -/
def World.deliveryOf (w : World) (g : Stage) (it : Iteration) (n : Nat) (h : Header) :
    Option Handed :=
  if h.opens then none
  else
    match w.connOf h with
    | none => none
    | some (_, c) =>
      if g.handsOver h (g.onAckFlag it.readings.packet h c).1 then some ⟨h, n⟩ else none

/-- What an iteration hands to `handle_data`. -/
def World.delivery (w : World) (g : Stage) (it : Iteration) : Option Handed :=
  match it.bytes with
  | none => none
  | some bytes =>
    match accept (readInto w.buf bytes) bytes.length with
    | none => none
    | some h => (w.timers g it.readings).deliveryOf g it bytes.length h

/-- What a run hands to `handle_data`, packet by packet. -/
def World.deliveries (g : Stage) : World → List Iteration → List Handed
  | _, [] => []
  | w, it :: its => (w.delivery g it).toList ++ World.deliveries g (w.iterate g it) its

variable {g : Stage}

theorem World.payloadLen_pos {w : World} {it : Iteration} {d : Handed} (hd : w.delivery g it = some d) :
    0 < d.header.payloadLen := by
  rw [delivery] at hd
  split at hd
  · cases hd
  · split at hd
    · cases hd
    · rename_i h _
      rw [deliveryOf] at hd
      split at hd
      · cases hd
      · split at hd
        · cases hd
        · split at hd
          · rename_i hover
            cases hd
            simp only [Stage.handsOver, Bool.and_eq_true, decide_eq_true_eq] at hover
            exact hover.1.1
          · cases hd

theorem Handed.within_iff_covered {d : Handed} (hpos : 0 < d.header.payloadLen) : d.Within ↔ d.Covered := by
  have hend : d.header.payloadAt + d.header.payloadLen = d.header.totLen := by
    rw [Header.payloadLen] at hpos
    rw [Header.payloadLen, Header.payloadAt]
    omega
  rw [Handed.Within, Handed.Covered, hend]

theorem World.deliveries_within_iff (g : Stage) (w : World) (its : List Iteration) :
    (∀ d ∈ World.deliveries g w its, d.Within) ↔ ∀ d ∈ World.deliveries g w its, d.Covered := by
  have hpos : ∀ d ∈ deliveries g w its, 0 < d.header.payloadLen := by
    induction its generalizing w with
    | nil => intro d hd; cases hd
    | cons it its ih =>
      intro d hd
      rcases mem_append.1 hd with hd | hd
      · exact payloadLen_pos (mem_toList.1 hd)
      · exact ih _ d hd
  exact forall₂_congr fun d hd => Handed.within_iff_covered (hpos d hd)

/-! ## The headers of a packet -/

theorem accept_congr {buf buf' : Nat → UInt8} {n : Nat} (h : ∀ i, i < n → buf i = buf' i) :
    accept buf n = accept buf' n := by
  by_cases hn : n < ipHdrLen
  · simp only [accept, if_pos hn]
  rw [ipHdrLen] at hn
  have h16 : ∀ i, i + 1 < n → be16 buf i = be16 buf' i := fun i hi => by
    rw [be16, be16, h i (by omega), h (i + 1) hi]
  have h32 : ∀ i, i + 3 < n → be32 buf i = be32 buf' i := fun i hi => by
    rw [be32, be32, h16 i (by omega), h16 (i + 2) hi]
  have hihl : ihlOf buf = ihlOf buf' := by rw [ihlOf, ihlOf, h 0 (by omega)]
  by_cases hl : n < ihlOf buf' + tcpHdrLen
  · simp only [accept, hihl, h 0 (by omega), h 9 (by omega), if_pos hl]
  · rw [tcpHdrLen] at hl
    have hread : readHeader buf (ihlOf buf') = readHeader buf' (ihlOf buf') := by
      simp only [readHeader, h32 12 (by omega), h16 (ihlOf buf') (by omega),
        h32 (ihlOf buf' + 4) (by omega), h32 (ihlOf buf' + 8) (by omega),
        h (ihlOf buf' + 13) (by omega), h16 2 (by omega), h (ihlOf buf' + 12) (by omega)]
    simp only [accept, hihl, h 0 (by omega), h 9 (by omega), h32 16 (by omega),
      h16 (ihlOf buf' + 2) (by omega), hread]

/-- The bytes of a packet alone. -/
def packetBytes (bytes : List UInt8) : Nat → UInt8 :=
  readInto (fun _ => 0) bytes

theorem readInto_of_lt (buf buf' : Nat → UInt8) {bytes : List UInt8} {i : Nat}
    (h : i < bytes.length) : readInto buf bytes i = readInto buf' bytes i := by
  rw [readInto, readInto, getD_eq_getElem _ _ h, getD_eq_getElem _ _ h]

theorem accept_readInto (buf : Nat → UInt8) (bytes : List UInt8) :
    accept (readInto buf bytes) bytes.length = accept (packetBytes bytes) bytes.length :=
  accept_congr fun _ hi => readInto_of_lt _ _ hi

theorem slice_length (buf : Nat → UInt8) (i len : Nat) : (slice buf i len).length = len := by
  rw [slice, length_map, length_range]

theorem slice_readInto (buf buf' : Nat → UInt8) {bytes : List UInt8} {i len : Nat} (h : i + len ≤ bytes.length) :
    slice (readInto buf bytes) i len = slice (readInto buf' bytes) i len := by
  refine map_congr_left fun k hk => readInto_of_lt _ _ ?_
  have := mem_range.1 hk
  omega

/-! ## Worlds of two runs -/

open Core

/-- The worlds of two runs that differ only in the payloads of other connections' packets. -/
structure World.Agree (peer : UInt32 × UInt16) (w w' : World) : Prop where
  table : List.Forall₂ (SlotAgree peer) w.table w'.table
  lastTimerCheck : w.lastTimerCheck = w'.lastTimerCheck
  out : sentTo peer w.out = sentTo peer w'.out

section Steps

variable {g : Stage} {peer : UInt32 × UInt16} {w w' : World} {c c' : Conn}

theorem rtoDue_agree (h : SlotAgree peer c c') (now : Timespec) : rtoDue now c = rtoDue now c' := by
  obtain ⟨_, _, _, rfl, hs, -⟩ := outline_eq_iff.1 h.outline
  simp only [rtoDue, hs]

theorem retransmitSlot_agree (hg : g.Blind) (h : SlotAgree peer c c') (r : Readings) (i : Nat) :
    PairAgree peer (retransmitSlot g r i c) (retransmitSlot g r i c') := by
  rw [retransmitSlot, retransmitSlot, rtoDue_agree h]
  split
  · exact (hg.rto _).agree_of_const h
  · exact ⟨h, rfl⟩

theorem timeWaitSlot_agree (h : SlotAgree peer c c') (r : Readings) (i : Nat) :
    SlotAgree peer (timeWaitSlot r i c) (timeWaitSlot r i c') := by
  refine ⟨?_, fun hp => ?_⟩
  · obtain ⟨_, _, _, rfl, hs, hr⟩ := outline_eq_iff.1 h.outline
    simp only [timeWaitSlot, freeConn]
    split <;> exact outline_eq_iff.2 ⟨_, _, _, rfl, hs, hr⟩
  · have hpeer : (timeWaitSlot r i c).peer = c.peer := by
      rw [timeWaitSlot]
      split <;> rfl
    rw [h.same (hpeer ▸ hp)]

theorem sentTo_flatten {outs outs' : List (List Segment)}
    (h : List.Forall₂ (fun o o' => sentTo peer o = sentTo peer o') outs outs') :
    sentTo peer outs.flatten = sentTo peer outs'.flatten := by
  induction h with
  | nil => rfl
  | cons ho _ ih => rw [flatten_cons, flatten_cons, sentTo_append, sentTo_append, ho, ih]

theorem timers_agree (hg : g.Blind) (h : w.Agree peer w') (r : Readings) :
    (w.timers g r).Agree peer (w'.timers g r) := by
  rw [timers, timers, timersDue, timersDue, h.lastTimerCheck]
  split
  · have hslot := fun i c c' (hc : SlotAgree peer c c') => retransmitSlot_agree hg hc r i
    refine ⟨?_, rfl, ?_⟩
    · exact forall₂_mapIdx h.table fun i c c' hc => timeWaitSlot_agree (hslot i c c' hc).slot r i
    · rw [pollTimers, pollTimers, sentTo_append, sentTo_append, h.out,
        sentTo_flatten (forall₂_mapIdx h.table fun i c c' hc => (hslot i c c' hc).out)]
  · exact h

theorem handleSyn_agree (h : w.Agree peer w') (it : Iteration) (hd : Header) :
    (w.handleSyn g it hd).Agree peer (w'.handleSyn g it hd) := by
  have hslot : freeSlot w.table = freeSlot w'.table :=
    forall₂_findIdx? h.table fun c c' hc => by
      obtain ⟨_, _, _, rfl, -, -⟩ := outline_eq_iff.1 hc.outline
      rfl
  rw [handleSyn, handleSyn, hslot]
  split
  · exact h
  · refine ⟨forall₂_set h.table (SlotAgree.refl _ _) _, h.lastTimerCheck, ?_⟩
    rw [sentTo_append, sentTo_append, h.out]

theorem connOf_agree (h : w.Agree peer w') (hd : Header) :
    Option.Rel (fun x x' => x.1 = x'.1 ∧ SlotAgree peer x.2 x'.2) (w.connOf hd) (w'.connOf hd) := by
  have hslot : findConn w.table hd.saddr serverIp hd.source serverPort
      = findConn w'.table hd.saddr serverIp hd.source serverPort :=
    forall₂_findIdx? h.table fun c c' hc => by
      obtain ⟨_, _, _, rfl, -, -⟩ := outline_eq_iff.1 hc.outline
      rfl
  rw [World.connOf, World.connOf, hslot]
  cases findConn w'.table hd.saddr serverIp hd.source serverPort with
  | none => exact .none
  | some i =>
    have hi := forall₂_getElem? h.table i
    simp only [bind_some]
    revert hi
    generalize w.table[i]? = x, w'.table[i]? = x'
    intro hi
    cases hi with
    | none => exact .none
    | some hc => exact .some ⟨rfl, hc⟩

theorem connOf_peer {hd : Header} {i : Nat} (h : w.connOf hd = some (i, c)) : c.peer = hd.peer := by
  obtain ⟨j, hj, hc⟩ := bind_eq_some_iff.1 h
  obtain ⟨c', hc', heq⟩ := map_eq_some_iff.1 hc
  cases heq
  obtain ⟨hlt, hfor, -⟩ := findIdx?_eq_some_iff_getElem.1 hj
  rw [getElem?_eq_getElem hlt] at hc'
  cases hc'
  simp only [isFor, Bool.and_eq_true, beq_iff_eq] at hfor
  exact Prod.ext hfor.2.1.1.1 hfor.2.1.2

theorem handsOver_agree (h : SlotAgree peer c c') (hd : Header) : g.handsOver hd c = g.handsOver hd c' := by
  obtain ⟨_, _, _, rfl, -, -⟩ := outline_eq_iff.1 h.outline
  rfl

theorem PairAgree.append {x x' y y' : Conn × List Segment} (hx : PairAgree peer x x')
    (hy : PairAgree peer y y') : PairAgree peer (y.1, x.2 ++ y.2) (y'.1, x'.2 ++ y'.2) :=
  ⟨hy.slot, by rw [sentTo_append, sentTo_append, hx.out, hy.out]⟩

/-- What a segment does to its connection, if the peer's own payload is the same in both runs
whenever it is handed over. -/
theorem onSegment_agree (hg : g.Blind) (h : SlotAgree peer c c') (now : Timespec) (hd : Header)
    {data data' : List UInt8} (hlen : data.length = data'.length)
    (hdata : c.peer = peer → g.handsOver hd (g.onAckFlag now hd c).1 = true → data = data') :
    PairAgree peer (g.onSegment now hd data c) (g.onSegment now hd data' c') := by
  have hack : PairAgree peer (g.onAckFlag now hd c) (g.onAckFlag now hd c') := by
    rw [Stage.onAckFlag, Stage.onAckFlag]
    split
    · exact (hg.ack now hd.ackSeq).agree_of_const h
    · exact ⟨h, rfl⟩
  have hpeer : (g.onAckFlag now hd c).1.peer = c.peer := by
    rw [Stage.onAckFlag]
    split
    · exact (hg.ack now hd.ackSeq).peer [] c
    · rfl
  have hpay : PairAgree peer (g.onPayload now hd data (g.onAckFlag now hd c).1)
      (g.onPayload now hd data' (g.onAckFlag now hd c').1) := by
    rw [Stage.onPayload, Stage.onPayload, ← handsOver_agree hack.slot]
    split
    · rename_i hover
      exact (hg.data now).agree hack.slot hlen fun hp => hdata (hpeer ▸ hp) hover
    · exact ⟨hack.slot, rfl⟩
  have hfin : PairAgree peer
      (g.onFinFlag now hd (g.onPayload now hd data (g.onAckFlag now hd c).1).1)
      (g.onFinFlag now hd (g.onPayload now hd data' (g.onAckFlag now hd c').1).1) := by
    have hused : (g.onPayload now hd data (g.onAckFlag now hd c).1).1.used
        = (g.onPayload now hd data' (g.onAckFlag now hd c').1).1.used := by
      have := congrArg used hpay.slot.outline
      exact this
    rw [Stage.onFinFlag, Stage.onFinFlag, hused]
    split
    · exact (hg.fin now).agree_of_const hpay.slot
    · exact ⟨hpay.slot, rfl⟩
  exact (hack.append hpay).append hfin

end Steps

/-! ## Two runs -/

/-- Two packets that differ at most in their payloads, and not at all if they come from `peer`. -/
structure AlikePackets (peer : UInt32 × UInt16) (p p' : List UInt8) : Prop where
  length : p.length = p'.length
  header : accept (packetBytes p) p.length = accept (packetBytes p') p'.length
  same : ∀ h, accept (packetBytes p) p.length = some h → h.peer = peer → p = p'

/-- The inputs of two runs that differ only in the payloads of other connections' packets. -/
def Alike (peer : UInt32 × UInt16) (it it' : Iteration) : Prop :=
  (∃ p', it' = { it with packet := p' }) ∧ Option.Rel (AlikePackets peer) it.bytes it'.bytes

variable {peer : UInt32 × UInt16} {it it' : Iteration} {w w' : World}

theorem receive_agree (hg : g.Blind) (h : w.Agree peer w') (hr : it'.readings = it.readings)
    (hisn : it'.isn = it.isn) (hstream : it'.stream = it.stream) {n : Nat} {hd : Header}
    (hdata : ∀ d, w.deliveryOf g it n hd = some d → hd.peer = peer → slice w.buf hd.payloadAt hd.payloadLen = slice w'.buf hd.payloadAt hd.payloadLen) :
    (w.receive g it hd).Agree peer (w'.receive g it' hd) := by
  have hsyn : w'.handleSyn g it' hd = w'.handleSyn g it hd := by
    simp only [handleSyn, Stage.opened, hr, hisn, hstream]
  rw [receive, receive, hsyn, hr]
  by_cases hopen : hd.opens = true
  · rw [if_pos hopen, if_pos hopen]
    exact handleSyn_agree h it hd
  · rw [if_neg hopen, if_neg hopen]
    have hconn := connOf_agree h hd
    cases hw : w.connOf hd with
    | none =>
      rw [hw] at hconn
      cases hw' : w'.connOf hd with
      | none => exact h
      | some _ =>
        rw [hw'] at hconn
        cases hconn
    | some x =>
      rw [hw] at hconn
      cases hw' : w'.connOf hd with
      | none =>
        rw [hw'] at hconn
        cases hconn
      | some x' =>
        obtain ⟨i, c⟩ := x
        obtain ⟨i', c'⟩ := x'
        rw [hw'] at hconn
        obtain ⟨hi, hc⟩ : i = i' ∧ SlotAgree peer c c' := by
          cases hconn with
          | some hx => exact hx
        subst hi
        have hseg : PairAgree peer
            (g.onSegment it.readings.packet hd (slice w.buf hd.payloadAt hd.payloadLen) c)
            (g.onSegment it.readings.packet hd (slice w'.buf hd.payloadAt hd.payloadLen) c') :=
          onSegment_agree hg hc it.readings.packet hd ((slice_length _ _ _).trans (slice_length _ _ _).symm) fun hp hover =>
            hdata ⟨hd, n⟩ (by rw [deliveryOf, if_neg hopen, hw]; exact if_pos hover)
              (connOf_peer hw ▸ hp)
        refine ⟨forall₂_set h.table hseg.slot i, h.lastTimerCheck, ?_⟩
        change sentTo peer (w.out ++ _) = sentTo peer (w'.out ++ _)
        rw [sentTo_append, sentTo_append, h.out, hseg.out]

theorem readPacket_agree (hg : g.Blind) (h : w.Agree peer w') (hr : it'.readings = it.readings)
    (hisn : it'.isn = it.isn) (hstream : it'.stream = it.stream) {bytes bytes' : List UInt8}
    (halike : AlikePackets peer bytes bytes')
    (hin : ∀ hd, accept (packetBytes bytes) bytes.length = some hd → ∀ d, w.deliveryOf g it bytes.length hd = some d → d.Within) :
    (w.readPacket g it bytes).Agree peer (w'.readPacket g it' bytes') := by
  have hread : Agree peer { w with buf := readInto w.buf bytes }
      { w' with buf := readInto w'.buf bytes' } := ⟨h.table, h.lastTimerCheck, h.out⟩
  simp only [readPacket, accept_readInto, ← halike.header]
  cases haccept : accept (packetBytes bytes) bytes.length with
  | none => exact hread
  | some hd =>
    refine receive_agree hg hread hr hisn hstream (n := bytes.length) fun d hd' hp => ?_
    obtain rfl := halike.same hd haccept hp
    have hwithin := hin hd haccept d hd'
    have hheader : d.header = hd ∧ d.n = bytes.length := by
      rw [deliveryOf] at hd'
      split at hd'
      · cases hd'
      · split at hd'
        · cases hd'
        · split at hd'
          · cases hd'
            exact ⟨rfl, rfl⟩
          · cases hd'
    rw [Handed.Within, hheader.1, hheader.2] at hwithin
    exact slice_readInto _ _ hwithin

/-- One iteration of two runs, if the payload handed over lies within the packet. -/
theorem iterate_agree (hg : g.Blind) (h : w.Agree peer w') (hit : Alike peer it it')
    (hin : ∀ d, w.delivery g it = some d → d.Within) : (w.iterate g it).Agree peer (w'.iterate g it') := by
  obtain ⟨⟨p', rfl⟩, hbytes⟩ := hit
  have htimers := timers_agree hg h it.readings
  simp only [World.delivery, accept_readInto] at hin
  rw [World.iterate, World.iterate]
  generalize it.bytes = b at hbytes hin ⊢
  generalize Iteration.bytes { it with packet := p' } = b' at hbytes ⊢
  cases hbytes with
  | none => exact htimers
  | some halike =>
    exact readPacket_agree hg htimers rfl rfl rfl halike fun hd haccept d hd' =>
      hin d (by simp only [haccept]; exact hd')

theorem World.along_of_deliveries {its : List Iteration} (h : ∀ d ∈ World.deliveries g w its, d.Within) :
    Along (World.iterate g) (fun w it => ∀ d, w.delivery g it = some d → d.Within) w its := by
  induction its generalizing w with
  | nil => trivial
  | cons it its ih =>
    refine ⟨fun d hd => h d ?_, ih fun d hd => h d ?_⟩
    · exact mem_append_left _ (mem_toList.2 hd)
    · exact mem_append_right _ hd

/-! ## The property -/

/-- The two stages that read packets into a shared buffer. -/
inductive Version where
  | v2
  | v3
  deriving DecidableEq, Repr

/-- The handlers of a version. -/
def Version.stage : Version → Stage
  | .v2 => Reliable.stage
  | .v3 => Congestion.stage

theorem Version.stage_blind (v : Version) : v.stage.Blind := by
  cases v with
  | v2 => exact Reliable.stage_blind
  | v3 => exact Congestion.stage_blind

/-- The run does not leak other packets: every payload handed over lies among the bytes of its packet,
and a run that differs only in the payloads of other connections' packets, and in what the buffer held
at first, writes the same segments to each peer. -/
def Sealed (g : Stage) (buf : Nat → UInt8) (its : List Iteration) : Prop :=
  (∀ d ∈ World.deliveries g (World.start buf) its, d.Within) ∧
    ∀ peer buf' its', List.Forall₂ (Alike peer) its its' →
      sentTo peer ((World.start buf).run g its).out
        = sentTo peer ((World.start buf').run g its').out

/-- **A run does not leak other packets if and only if every packet whose payload is handed over is as
long as its IP header says.** -/
theorem sealed_iff_covered (v : Version) (buf : Nat → UInt8) (its : List Iteration) :
    Sealed v.stage buf its ↔
      ∀ d ∈ World.deliveries v.stage (World.start buf) its, d.Covered := by
  rw [← deliveries_within_iff]
  refine ⟨fun h => h.1, fun h => ⟨h, fun peer buf' its' halike => ?_⟩⟩
  have hstart : Agree peer (start buf) (start buf') :=
    ⟨forall₂_same.2 fun c _ => SlotAgree.refl peer c, rfl, rfl⟩
  have hstep : ∀ w w' it it', Agree peer w w' → Alike peer it it' →
      (∀ d, w.delivery v.stage it = some d → d.Within) →
      Agree peer (w.iterate v.stage it) (w'.iterate v.stage it') :=
    fun _ _ _ _ hw hit hin => iterate_agree v.stage_blind hw hit hin
  exact (foldl_lockstep hstep halike hstart (along_of_deliveries h)).out

/-! ## A leak -/

/-- Port 0x1001 connects; port 0x1002 sends a packet that carries a secret; then the first peer sends
a packet of 40 bytes whose IP header says 43. -/
def leakRun (secret : List UInt8) : List Iteration :=
  [reading (packetFrom 1 100 flagSyn 40 []), reading (packetFrom 1 101 flagAck 40 []),
    reading (packetFrom 2 7 flagAck 43 secret), reading (packetFrom 1 101 flagAck 43 [])]

/-- **The bytes handed over need not lie among those of the packet**: either version echoes the other
peer's secret. -/
theorem sealed_violated :
    ¬ Sealed Version.v2.stage (fun _ => 0) (leakRun [107, 101, 121]) ∧
      ¬ Sealed Version.v3.stage (fun _ => 0) (leakRun [107, 101, 121]) ∧
      (sentTo (0x0a000001, 0x1001) ((World.start fun _ => 0).run Version.v2.stage
        (leakRun [107, 101, 121])).out).map Segment.payload = [[], [], [107, 101, 121]] ∧
      (sentTo (0x0a000001, 0x1001) ((World.start fun _ => 0).run Version.v3.stage
        (leakRun [107, 101, 121])).out).map Segment.payload = [[], [], [107, 101, 121]] := by
  refine ⟨fun h => absurd h.1 ?_, fun h => absurd h.1 ?_, ?_, ?_⟩
  · decide
  · decide
  · rfl
  · rfl

end SystemDesignLabs.TcpStack
