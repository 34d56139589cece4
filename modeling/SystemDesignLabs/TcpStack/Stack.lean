import SystemDesignLabs.Core.TransitionSystem

/-!
# The connection table and the receive loop of the TCP stack

`tcp.h` and what `v2_reliable.c` and `v3_congestion.c` have in common: the connection record and the
table of `MAX_CONNS` slots, the packet sender, and `run_loop`, which polls the timers, reads one IP
packet into a buffer of 65535 bytes, checks the headers and hands the segment to its connection. The
two stages differ in their handlers, which `Stage` collects.

The buffer is a function from indices to bytes. It lives as long as the loop and a read overwrites
only its first `n` bytes, so that the rest keeps what earlier packets left there; its first contents
are whatever the stack held and stay a parameter. Readings of the clock and the results of `rand` are
part of an iteration's input. An emitted segment keeps the fields that the peer's TCP reads; the
constant IP fields, the identification and the checksums are left out.

Each connection carries a history that no handler reads: the peer's byte stream, the two initial
sequence numbers, the bytes accepted so far and the data segments sent, each with the bytes accepted
by then.
-/

namespace SystemDesignLabs.TcpStack

/-! ## Configuration -/

def maxConns : Nat := 64

def retransmitMs : Int := 200

def timeWaitMs : Int := 2000

def recvWindow : UInt16 := 4096

def sendBufSize : Nat := 4096

def recvBufSize : Nat := 4096

def ipHdrLen : Nat := 20

def tcpHdrLen : Nat := 20

/-- `SERVER_IP`, 10.0.0.2. -/
def serverIp : UInt32 := 0x0a000002

def serverPort : UInt16 := 8080

/-- The size of the buffer of `run_loop`. -/
def bufSize : Nat := 65535

/-- `TCP_FLAG_FIN`. -/
def flagFin : UInt8 := 0x01

/-- `TCP_FLAG_SYN`. -/
def flagSyn : UInt8 := 0x02

/-- `TCP_FLAG_PSH`. -/
def flagPsh : UInt8 := 0x08

/-- `TCP_FLAG_ACK`. -/
def flagAck : UInt8 := 0x10

/-! ## Connections -/

/-- `enum tcp_state`. -/
inductive TcpState where
  | closed
  | listen
  | synRcvd
  | established
  | finWait1
  | finWait2
  | timeWait
  | closeWait
  | lastAck
  deriving DecidableEq, Repr

/-- `struct timespec`. -/
structure Timespec where
  tvSec : Int
  tvNsec : Int
  deriving DecidableEq, Repr

/-- `ms_elapsed`; C divides towards zero. -/
def msElapsed (since now : Timespec) : Int :=
  (now.tvSec - since.tvSec) * 1000 + (now.tvNsec - since.tvNsec).tdiv 1000000

/-- The milliseconds of one clock reading, `now_ms` of `run_loop`. -/
def nowMs (now : Timespec) : Int :=
  now.tvSec * 1000 + now.tvNsec.tdiv 1000000

/-- A data segment that was sent: its sequence number, its payload, and the bytes the connection had
accepted by then. -/
structure Sent where
  seq : UInt32
  payload : List UInt8
  accepted : List UInt8
  deriving DecidableEq, Repr

/-- The history of a connection. -/
structure History where
  /-- The bytes the peer sends over the life of the connection. -/
  stream : List UInt8
  /-- The sequence number of the peer's SYN. -/
  irs : UInt32
  /-- The initial sequence number the server chose. -/
  isn : UInt32
  accepted : List UInt8
  sent : List Sent
  deriving DecidableEq, Repr

/-- `struct tcp_conn`. The first `send_len` bytes of `send_buf` and the first `recv_len` bytes of
`recv_buf` are the two lists. -/
structure Conn where
  state : TcpState
  srcIp : UInt32
  dstIp : UInt32
  srcPort : UInt16
  dstPort : UInt16
  sndNxt : UInt32
  sndUna : UInt32
  rcvNxt : UInt32
  cwnd : UInt32
  ssthresh : UInt32
  dupAckCount : Int
  lastSend : Timespec
  timeWaitStart : Timespec
  sendBuf : List UInt8
  recvBuf : List UInt8
  used : Bool
  hist : History
  deriving DecidableEq, Repr

/-- A slot of zeroes, what the static table starts with and what `memset` leaves. -/
def Conn.zero : Conn where
  state := .closed
  srcIp := 0
  dstIp := 0
  srcPort := 0
  dstPort := 0
  sndNxt := 0
  sndUna := 0
  rcvNxt := 0
  cwnd := 0
  ssthresh := 0
  dupAckCount := 0
  lastSend := ⟨0, 0⟩
  timeWaitStart := ⟨0, 0⟩
  sendBuf := []
  recvBuf := []
  used := false
  hist := ⟨[], 0, 0, [], []⟩

/-- The test of `find_conn` on one slot. -/
def Conn.isFor (c : Conn) (srcIp dstIp : UInt32) (srcPort dstPort : UInt16) : Bool :=
  c.used && (c.dstIp == srcIp && c.srcIp == dstIp && c.dstPort == srcPort && c.srcPort == dstPort)

/-- `find_conn`: the first used slot of the 4-tuple. -/
def findConn (table : List Conn) (srcIp dstIp : UInt32) (srcPort dstPort : UInt16) : Option Nat :=
  table.findIdx? fun c => c.isFor srcIp dstIp srcPort dstPort

/-- The slot `new_conn` takes: the first one that is not used. -/
def freeSlot (table : List Conn) : Option Nat :=
  table.findIdx? fun c => !c.used

def freeConn (c : Conn) : Conn :=
  { c with used := false }

/-! ## The packet sender -/

/-- What the peer's TCP reads of a packet that `send_packet` writes. -/
structure Segment where
  dstIp : UInt32
  dstPort : UInt16
  seq : UInt32
  ackSeq : UInt32
  flags : UInt8
  window : UInt16
  payload : List UInt8
  deriving DecidableEq, Repr

/-- The segment `send_packet` builds: its sequence number is `snd_nxt`. -/
def Conn.segment (c : Conn) (flags : UInt8) (payload : List UInt8) : Segment where
  dstIp := c.dstIp
  dstPort := c.dstPort
  seq := c.sndNxt
  ackSeq := if flags &&& flagAck ≠ 0 then c.rcvNxt else 0
  flags := flags
  window := recvWindow
  payload := payload

/-- `send_packet`: a payload is saved to the send buffer, in place of what was there. -/
def sendPacket (now : Timespec) (c : Conn) (flags : UInt8) (payload : List UInt8) :
    Conn × List Segment :=
  (if 0 < payload.length then
      { c with
        sendBuf := payload.take sendBufSize
        lastSend := now
        hist := { c.hist with sent := c.hist.sent ++ [⟨c.sndNxt, payload, c.hist.accepted⟩] } }
    else c,
    [c.segment flags payload])

/-! ## Headers -/

/-- Two bytes in network order. -/
def be16 (buf : Nat → UInt8) (i : Nat) : UInt16 :=
  (buf i).toUInt16 <<< 8 ||| (buf (i + 1)).toUInt16

/-- Four bytes in network order. -/
def be32 (buf : Nat → UInt8) (i : Nat) : UInt32 :=
  (be16 buf i).toUInt32 <<< 16 ||| (be16 buf (i + 2)).toUInt32

/-- The header fields `run_loop` and its handlers read. -/
structure Header where
  saddr : UInt32
  source : UInt16
  seq : UInt32
  ackSeq : UInt32
  flags : UInt8
  totLen : Nat
  ihl : Nat
  dataOffset : Nat
  deriving DecidableEq, Repr

/-- `payload_len`; a negative length counts as zero. -/
def Header.payloadLen (h : Header) : Nat :=
  h.totLen - h.ihl - h.dataOffset

/-- Where `payload` points to in the buffer. -/
def Header.payloadAt (h : Header) : Nat :=
  h.ihl + h.dataOffset

/-- Whether a flag is set. -/
def Header.has (h : Header) (flag : UInt8) : Bool :=
  h.flags &&& flag != 0

/-- The fields of a packet whose IP header is `4 * (buf[0] & 0xf)` bytes long. -/
def readHeader (buf : Nat → UInt8) (ihl : Nat) : Header where
  saddr := be32 buf 12
  source := be16 buf ihl
  seq := be32 buf (ihl + 4)
  ackSeq := be32 buf (ihl + 8)
  flags := buf (ihl + 13)
  totLen := (be16 buf 2).toNat
  ihl := ihl
  dataOffset := ((buf (ihl + 12) >>> 4) &&& 0xf).toNat * 4

/-- `ihl` of `run_loop`. -/
def ihlOf (buf : Nat → UInt8) : Nat :=
  (buf 0 &&& 0xf).toNat * 4

/-- The checks of `run_loop` on a packet of `n` bytes; `none` where it goes on to the next read. -/
def accept (buf : Nat → UInt8) (n : Nat) : Option Header :=
  if n < ipHdrLen then none
  else if buf 0 >>> 4 ≠ 4 then none
  else if buf 9 ≠ 6 then none
  else if n < ihlOf buf + tcpHdrLen then none
  else if be32 buf 16 ≠ serverIp then none
  else if be16 buf (ihlOf buf + 2) ≠ serverPort then none
  else some (readHeader buf (ihlOf buf))

/-- `len` bytes of the buffer from index `i` on. -/
def slice (buf : Nat → UInt8) (i len : Nat) : List UInt8 :=
  (List.range len).map fun k => buf (i + k)

/-- `read` overwrites the front of the buffer and leaves the rest. -/
def readInto (buf : Nat → UInt8) (bytes : List UInt8) : Nat → UInt8 :=
  fun i => bytes.getD i (buf i)

/-! ## The loop -/

/-- What the two stages do differently. -/
structure Stage where
  /-- The slot as `new_conn` leaves it. -/
  newConn : Conn
  /-- The handler of a segment with the ACK flag, given the acknowledgement number. -/
  handleAck : Timespec → Conn → UInt32 → Conn × List Segment
  handleData : Timespec → Conn → List UInt8 → Conn × List Segment
  handleFin : Timespec → Conn → Conn × List Segment
  /-- What `check_retransmits` does to a connection whose timer has expired. -/
  onRto : Timespec → Conn → Conn × List Segment
  /-- Whether the loop tests `conn->used` again before data and FIN are handled. -/
  checksUsed : Bool

/-- The clock readings of one iteration, those of the timer scans for each slot. -/
structure Readings where
  loop : Timespec
  rto : Nat → Timespec
  resent : Nat → Timespec
  timeWait : Nat → Timespec
  packet : Timespec

/-- The input of one iteration. -/
structure Iteration where
  readings : Readings
  /-- The packet that was waiting, if any. -/
  packet : Option (List UInt8)
  /-- What `rand` returns if the packet opens a connection. -/
  isn : UInt32
  /-- History: what the peer will send if the packet opens a connection. -/
  stream : List UInt8
  /-- History: where in the peer's stream the payload of the packet begins. -/
  offset : Nat

/-- The bytes `read` returns, at most as many as the buffer holds. -/
def Iteration.bytes (it : Iteration) : Option (List UInt8) :=
  it.packet.map fun p => p.take bufSize

/-- The state of the loop, with the segments written to the device so far. -/
structure World where
  table : List Conn
  buf : Nat → UInt8
  lastTimerCheck : Int
  out : List Segment

/-- The state the loop starts in. -/
def World.start (buf : Nat → UInt8) : World where
  table := List.replicate maxConns Conn.zero
  buf := buf
  lastTimerCheck := 0
  out := []

/-- Whether `check_retransmits` finds the timer of a slot expired. -/
def rtoDue (now : Timespec) (c : Conn) : Bool :=
  c.used && c.state == .established && c.sendBuf.length != 0 && c.sndUna != c.sndNxt &&
    decide (retransmitMs ≤ msElapsed c.lastSend now)

/-- `check_retransmits` on one slot. -/
def retransmitSlot (g : Stage) (r : Readings) (i : Nat) (c : Conn) : Conn × List Segment :=
  if rtoDue (r.rto i) c then g.onRto (r.resent i) c else (c, [])

/-- `check_time_wait` on one slot. -/
def timeWaitSlot (r : Readings) (i : Nat) (c : Conn) : Conn :=
  if c.used && c.state == .timeWait && decide (timeWaitMs ≤ msElapsed c.timeWaitStart (r.timeWait i))
  then freeConn c
  else c

/-- Whether this iteration polls the timers. -/
def World.timersDue (w : World) (r : Readings) : Bool :=
  decide (50 ≤ nowMs r.loop - w.lastTimerCheck)

/-- `check_retransmits` and `check_time_wait`. -/
def World.pollTimers (w : World) (g : Stage) (r : Readings) : World where
  table := w.table.mapIdx fun i c => timeWaitSlot r i (retransmitSlot g r i c).1
  buf := w.buf
  lastTimerCheck := nowMs r.loop
  out := w.out ++ (w.table.mapIdx fun i c => (retransmitSlot g r i c).2).flatten

/-- The timers at the head of an iteration. -/
def World.timers (w : World) (g : Stage) (r : Readings) : World :=
  if w.timersDue r then w.pollTimers g r else w

/-- The connection that `handle_syn` puts into the free slot, before the SYN-ACK is sent. -/
def Stage.opened (g : Stage) (it : Iteration) (h : Header) : Conn :=
  { g.newConn with
    state := .synRcvd
    srcIp := serverIp
    dstIp := h.saddr
    srcPort := serverPort
    dstPort := h.source
    rcvNxt := h.seq + 1
    sndNxt := it.isn
    sndUna := it.isn
    lastSend := it.readings.packet
    hist := ⟨it.stream, h.seq, it.isn, [], []⟩ }

/-- `handle_syn`; a full table drops the segment. -/
def World.handleSyn (w : World) (g : Stage) (it : Iteration) (h : Header) : World :=
  match freeSlot w.table with
  | none => w
  | some i =>
    let s := sendPacket it.readings.packet (g.opened it h) (flagSyn ||| flagAck) []
    { w with table := w.table.set i { s.1 with sndNxt := s.1.sndNxt + 1 }, out := w.out ++ s.2 }

/-- The ACK part of the loop body. -/
def Stage.onAckFlag (g : Stage) (now : Timespec) (h : Header) (c : Conn) : Conn × List Segment :=
  if h.has flagAck then g.handleAck now c h.ackSeq else (c, [])

/-- Whether the loop calls `handle_data`, given the connection after the ACK part. -/
def Stage.handsOver (g : Stage) (h : Header) (c : Conn) : Bool :=
  decide (0 < h.payloadLen) && (!g.checksUsed || c.used) && c.state == .established

/-- The data part of the loop body. -/
def Stage.onPayload (g : Stage) (now : Timespec) (h : Header) (data : List UInt8) (c : Conn) :
    Conn × List Segment :=
  if g.handsOver h c then g.handleData now c data else (c, [])

/-- The FIN part of the loop body. -/
def Stage.onFinFlag (g : Stage) (now : Timespec) (h : Header) (c : Conn) : Conn × List Segment :=
  if h.has flagFin && (!g.checksUsed || c.used) then g.handleFin now c else (c, [])

/-- What a segment does to its connection. -/
def Stage.onSegment (g : Stage) (now : Timespec) (h : Header) (data : List UInt8) (c : Conn) :
    Conn × List Segment :=
  let a := g.onAckFlag now h c
  let d := g.onPayload now h data a.1
  let f := g.onFinFlag now h d.1
  (f.1, a.2 ++ d.2 ++ f.2)

/-- Whether the segment opens a connection: SYN without ACK. -/
def Header.opens (h : Header) : Bool :=
  h.has flagSyn && !h.has flagAck

/-- The slot of the connection a segment belongs to. -/
def World.connOf (w : World) (h : Header) : Option (Nat × Conn) :=
  (findConn w.table h.saddr serverIp h.source serverPort).bind fun i =>
    w.table[i]?.map fun c => (i, c)

/-- The loop body after the checks of the headers. -/
def World.receive (w : World) (g : Stage) (it : Iteration) (h : Header) : World :=
  if h.opens then w.handleSyn g it h
  else
    match w.connOf h with
    | none => w
    | some (i, c) =>
      let s := g.onSegment it.readings.packet h (slice w.buf h.payloadAt h.payloadLen) c
      { w with table := w.table.set i s.1, out := w.out ++ s.2 }

/-- The packet part of an iteration. -/
def World.readPacket (w : World) (g : Stage) (it : Iteration) (bytes : List UInt8) : World :=
  let w : World := { w with buf := readInto w.buf bytes }
  match accept w.buf bytes.length with
  | none => w
  | some h => w.receive g it h

/-- One iteration of `run_loop`. -/
def World.iterate (g : Stage) (w : World) (it : Iteration) : World :=
  match it.bytes with
  | none => w.timers g it.readings
  | some bytes => (w.timers g it.readings).readPacket g it bytes

/-- A run of the loop. -/
def World.run (g : Stage) (w : World) (its : List Iteration) : World :=
  its.foldl (World.iterate g) w

/-- Iterations as the steps of a transition system. -/
def step (g : Stage) (w : World) (it : Iteration) : Option World :=
  some (w.iterate g it)

/-! ## Inputs of concrete runs -/

/-- A packet without IP or TCP options from port `port` of 10.0.0.1. -/
def packetFrom (port : UInt8) (seq flags totLen : UInt8) (payload : List UInt8) : List UInt8 :=
  [0x45, 0, 0, totLen, 0, 0, 0x40, 0, 64, 6, 0, 0, 10, 0, 0, 1, 10, 0, 0, 2,
    0x10, port, 0x1f, 0x90, 0, 0, 0, seq, 0, 0, 0, 1, 0x50, flags, 0x10, 0, 0, 0, 0, 0] ++ payload

/-- The iteration that reads a packet while no timer is due. -/
def reading (packet : List UInt8) : Iteration where
  readings := ⟨⟨0, 0⟩, fun _ => ⟨0, 0⟩, fun _ => ⟨0, 0⟩, fun _ => ⟨0, 0⟩, ⟨0, 0⟩⟩
  packet := some packet
  isn := 0
  stream := []
  offset := 0

end SystemDesignLabs.TcpStack

/-!
## Congestion control: the third stage of the TCP stack

The handlers of `v3_congestion.c`. There is no receive buffer any more; a segment is accepted up to
`RECV_BUF_SIZE` bytes and echoed up to the congestion window. A new acknowledgement opens the window,
three duplicate ones and an expired timer close it and send the send buffer again.
-/

namespace SystemDesignLabs.TcpStack.Congestion

def mss : UInt32 := 1460

def newConn : Conn :=
  { Conn.zero with used := true, cwnd := mss, ssthresh := 65535 }

/-- `on_ack`: slow start below `ssthresh`, additive increase from there on. -/
def onAck (c : Conn) : Conn :=
  if c.cwnd < c.ssthresh then
    { c with cwnd := c.cwnd + mss, dupAckCount := 0 }
  else
    { c with cwnd := c.cwnd + mss * mss / c.cwnd, dupAckCount := 0 }

/-- `ssthresh` after a loss. -/
def halved (c : Conn) : UInt32 :=
  if c.cwnd / 2 < 2 * mss then 2 * mss else c.cwnd / 2

/-- The send buffer once more, if it holds anything. -/
def resend (now : Timespec) (c : Conn) : Conn × List Segment :=
  if 0 < c.sendBuf.length then sendPacket now c (flagAck ||| flagPsh) c.sendBuf else (c, [])

/-- `on_duplicate_ack`: the third one in a row triggers a fast retransmission. -/
def onDuplicateAck (now : Timespec) (c : Conn) : Conn × List Segment :=
  if c.dupAckCount + 1 < 3 then ({ c with dupAckCount := c.dupAckCount + 1 }, [])
  else resend now { c with ssthresh := halved c, cwnd := halved c, dupAckCount := 0 }

/-- `on_timeout`: back to a window of one segment. -/
def onTimeout (now : Timespec) (c : Conn) : Conn × List Segment :=
  resend now { c with ssthresh := halved c, cwnd := mss, dupAckCount := 0 }

def handleAck (now : Timespec) (c : Conn) (ack : UInt32) : Conn × List Segment :=
  if c.state = .synRcvd then
    ({ c with sndUna := ack, state := .established }, [])
  else if c.state = .lastAck then
    (if ack = c.sndNxt then freeConn c else c, [])
  else if c.sndUna < ack then
    (onAck { c with sndUna := ack, sendBuf := [] }, [])
  else if ack = c.sndUna ∧ 0 < c.sendBuf.length then
    onDuplicateAck now c
  else (c, [])

/-- The number of bytes of a segment that `handle_data` accepts. -/
def room (data : List UInt8) : Nat :=
  if data.length < recvBufSize then data.length else recvBufSize

/-- How many of the accepted bytes are echoed; the window is compared as a signed integer. -/
def sendLen (c : Conn) (taken : List UInt8) : Nat :=
  if (taken.length : Int) < c.cwnd.toInt32.toInt then taken.length else c.cwnd.toInt32.toInt.toNat

/-- The echoing half of `handle_data`. -/
def echo (now : Timespec) (c : Conn) (data : List UInt8) : Conn × List Segment :=
  let s := sendPacket now c (flagAck ||| flagPsh) data
  ({ s.1 with sndNxt := s.1.sndNxt + UInt32.ofNat data.length }, s.2)

def handleData (now : Timespec) (c : Conn) (data : List UInt8) : Conn × List Segment :=
  if data.length = 0 then (c, [])
  else
    let taken := data.take (room data)
    let c := { c with
      rcvNxt := c.rcvNxt + UInt32.ofNat taken.length
      hist := { c.hist with accepted := c.hist.accepted ++ taken } }
    let a := sendPacket now c flagAck []
    let e := echo now a.1 (taken.take (sendLen a.1 taken))
    (e.1, a.2 ++ e.2)

def handleFin (now : Timespec) (c : Conn) : Conn × List Segment :=
  let c := { c with rcvNxt := c.rcvNxt + 1 }
  if c.state = .established then
    let a := sendPacket now { c with state := .closeWait } flagAck []
    let f := sendPacket now a.1 (flagFin ||| flagAck) []
    ({ f.1 with sndNxt := f.1.sndNxt + 1, state := .lastAck }, a.2 ++ f.2)
  else (c, [])

/-- The third stage. -/
def stage : Stage where
  newConn := newConn
  handleAck := handleAck
  handleData := handleData
  handleFin := handleFin
  onRto := onTimeout
  checksUsed := true

end SystemDesignLabs.TcpStack.Congestion

/-!
## Reliable delivery: the second stage of the TCP stack

The handlers of `v2_reliable.c`. A data segment is accepted whatever its sequence number, as far as
the receive buffer has room; the accepted bytes are acknowledged and echoed, and `snd_nxt` moves past
them. A retransmission sends the contents of the send buffer again through `send_packet`, which puts
the current `snd_nxt` into the header.
-/

namespace SystemDesignLabs.TcpStack.Reliable

def newConn : Conn :=
  { Conn.zero with used := true }

def handleAckEstablished (_now : Timespec) (c : Conn) (ack : UInt32) : Conn × List Segment :=
  if c.state = .synRcvd then
    ({ c with sndUna := ack, state := .established }, [])
  else if c.state = .lastAck then
    (if ack = c.sndNxt then freeConn c else c, [])
  else if c.sndUna < ack then
    ({ c with sndUna := ack, sendBuf := [] }, [])
  else (c, [])

/-- How many bytes of a segment the receive buffer has room for. -/
def room (c : Conn) (data : List UInt8) : Nat :=
  if data.length < recvBufSize - c.recvBuf.length then data.length
  else recvBufSize - c.recvBuf.length

/-- The receiving half of `handle_data`: the copy to the receive buffer and `rcv_nxt`. -/
def receive (c : Conn) (taken : List UInt8) : Conn :=
  { c with
    recvBuf := c.recvBuf ++ taken
    rcvNxt := c.rcvNxt + UInt32.ofNat taken.length
    hist := { c.hist with accepted := c.hist.accepted ++ taken } }

/-- The echoing half of `handle_data`. -/
def echo (now : Timespec) (c : Conn) (taken : List UInt8) : Conn × List Segment :=
  let s := sendPacket now { c with sendBuf := [] } (flagAck ||| flagPsh) taken
  ({ s.1 with sndNxt := s.1.sndNxt + UInt32.ofNat taken.length }, s.2)

def handleData (now : Timespec) (c : Conn) (data : List UInt8) : Conn × List Segment :=
  if data.length = 0 then (c, [])
  else
    let taken := data.take (room c data)
    let a := sendPacket now (receive c taken) flagAck []
    let e := echo now a.1 taken
    (e.1, a.2 ++ e.2)

def handleFin (now : Timespec) (c : Conn) : Conn × List Segment :=
  let c := { c with rcvNxt := c.rcvNxt + 1 }
  if c.state = .established then
    let a := sendPacket now { c with state := .closeWait } flagAck []
    let f := sendPacket now a.1 (flagFin ||| flagAck) []
    ({ f.1 with sndNxt := f.1.sndNxt + 1, state := .lastAck }, a.2 ++ f.2)
  else if c.state = .finWait1 then
    let a := sendPacket now { c with state := .timeWait } flagAck []
    ({ a.1 with timeWaitStart := now }, a.2)
  else (c, [])

/-- What `check_retransmits` does once the timer has expired. -/
def retransmit (now : Timespec) (c : Conn) : Conn × List Segment :=
  sendPacket now c (flagAck ||| flagPsh) c.sendBuf

/-- The second stage. -/
def stage : Stage where
  newConn := newConn
  handleAck := handleAckEstablished
  handleData := handleData
  handleFin := handleFin
  onRto := retransmit
  checksUsed := false

end SystemDesignLabs.TcpStack.Reliable
