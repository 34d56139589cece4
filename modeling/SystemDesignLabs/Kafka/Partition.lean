import SystemDesignLabs.Core.SortedLists
import SystemDesignLabs.Core.SortedMap
import SystemDesignLabs.Core.TransitionSystem
import SystemDesignLabs.Kafka.Record

/-!
# One topic-partition on disk

A partition is a directory of segments, each a log file and an index file named by the offset of its first
record, and the counters the broker keeps for it while it is open. `append` writes to the active segment and
starts a new one when the active segment has reached the limit; `read` starts in the segment that `sort.Search`
selects and runs on through the later ones.

Every write and every fsync of `append` may fail. A failing log write leaves all bytes of the record or none;
a failing index write leaves some of the entry.
-/

namespace SystemDesignLabs.Kafka

open Core

/-- The bytes after which a segment is sealed. -/
def maxSegmentBytes : Nat := 64 * 1024 * 1024

/-- One index entry for so many messages. -/
def indexInterval : Nat := 4

/-- One fsync for so many appends. -/
def flushBatch : Nat := 64

/-- The contents of the two files of a segment. -/
structure SegmentFiles where
  log : Bytes
  index : Bytes
  deriving DecidableEq, Repr

/-- The directory of a partition: the files of each segment under the offset in their names. -/
abbrev Directory := SortedMap Nat SegmentFiles

namespace Directory

/-- Append to the log file of a segment. -/
def writeLog (d : Directory) (base : Nat) (buf : Bytes) : Directory :=
  d.adjust base fun files => { files with log := files.log ++ buf }

/-- Append to the index file of a segment. -/
def writeIndex (d : Directory) (base : Nat) (buf : Bytes) : Directory :=
  d.adjust base fun files => { files with index := files.index ++ buf }

end Directory

/-- What the broker keeps about a segment. -/
structure SegmentInfo where
  baseOffset : Nat
  logSize : Nat
  msgCount : Nat
  pending : Nat
  deriving DecidableEq, Repr

/-- An open partition. The active segment is the last one; `sealed` are the segments before it. -/
structure Partition where
  dir : Directory
  sealed : List SegmentInfo
  active : SegmentInfo
  nextOff : Nat
  deriving DecidableEq

/-- `openSegment`: the sizes of an existing segment are taken from its log file; a missing one is created
when asked for. -/
def openSegment (d : Directory) (base : Nat) (create : Bool) : Directory × SegmentInfo :=
  match d.get base with
  | some files => (d, ⟨base, files.log.length, countMessagesInLog files.log, 0⟩)
  | none => (if create then d.insert base ⟨[], []⟩ else d, ⟨base, 0, 0, 0⟩)

/-- `partition.open`: every segment of the directory is opened in the order of the offsets; the last one
becomes the active segment. -/
def openPartition (d : Directory) : Partition :=
  let segments := d.entries.map fun e => (openSegment d e.1 false).2
  match segments.getLast? with
  | none =>
    let created := openSegment d 0 true
    ⟨created.1, [], created.2, 0⟩
  | some last => ⟨d, segments.dropLast, last, last.baseOffset + last.msgCount⟩

/-! ### Appending -/

/-- How a failing log write leaves the file. -/
inductive LogFault where
  | noBytes
  | allBytes
  deriving DecidableEq, Repr

/-- The I/O failures during one call of `append`. -/
structure Faults where
  /-- The fsync of `rotate` fails. -/
  rotateSync : Bool
  /-- The log write fails. -/
  logWrite : Option LogFault
  /-- The index write fails after so many bytes. -/
  indexWrite : Option Nat
  /-- The batch fsync fails. -/
  sync : Bool
  deriving DecidableEq, Repr

/-- No failure. -/
def Faults.none : Faults := ⟨false, Option.none, Option.none, false⟩

/-- The step at which `append` failed. -/
inductive AppendError where
  | rotateSegment
  | writeLog
  | writeIndex
  | fsync
  deriving DecidableEq, Repr

namespace Partition

/-- `rotate`: fsync and seal the active segment and open one that starts at the next offset. -/
def rotate (p : Partition) (faults : Faults) : Option Partition :=
  if faults.rotateSync then none
  else
    let opened := openSegment p.dir p.nextOff true
    some { p with dir := opened.1, sealed := p.sealed ++ [p.active], active := opened.2 }

/-- The end of `append`: advance the counters, and fsync when enough writes are pending. -/
def advance (p : Partition) (faults : Faults) : Partition × Except AppendError Nat :=
  let seg := { p.active with msgCount := p.active.msgCount + 1, pending := p.active.pending + 1 }
  let p' := { p with active := seg, nextOff := p.nextOff + 1 }
  if flushBatch ≤ seg.pending then
    if faults.sync then (p', .error .fsync)
    else ({ p' with active := { seg with pending := 0 } }, .ok p.nextOff)
  else (p', .ok p.nextOff)

/-- `append` after the rotation: the log write, an index entry for every fourth message, the counters. -/
def appendRecord (p : Partition) (faults : Faults) (payload : Bytes) :
    Partition × Except AppendError Nat :=
  let seg := p.active
  let buf := Record.encode ⟨p.nextOff, payload⟩
  let bytePos := seg.logSize
  let written := p.dir.writeLog seg.baseOffset buf
  match faults.logWrite with
  | some .noBytes => (p, .error .writeLog)
  | some .allBytes => ({ p with dir := written }, .error .writeLog)
  | none =>
    let p := { p with dir := written, active := { seg with logSize := seg.logSize + buf.length } }
    if seg.msgCount % indexInterval = 0 then
      let idxBuf := encodeIndexEntry (p.nextOff - seg.baseOffset) bytePos
      match faults.indexWrite with
      | some n =>
        ({ p with dir := p.dir.writeIndex seg.baseOffset (idxBuf.take n) }, .error .writeIndex)
      | none => { p with dir := p.dir.writeIndex seg.baseOffset idxBuf }.advance faults
    else p.advance faults

/-- `append` with a segment limit; the broker runs it with `maxSegmentBytes`. -/
def append (limit : Nat) (p : Partition) (faults : Faults) (payload : Bytes) :
    Partition × Except AppendError Nat :=
  if limit ≤ p.active.logSize then
    match p.rotate faults with
    | none => (p, .error .rotateSegment)
    | some p => p.appendRecord faults payload
  else p.appendRecord faults payload

/-! ### Reading -/

/-- `readFromSegment`: the log file is scanned from the position that the index gives. It fails when the
log file is missing. -/
def readFromSegment (d : Directory) (seg : SegmentInfo) (globalOffset : Int) (maxMessages : Nat) :
    Option (List Message) :=
  (d.get seg.baseOffset).map fun files =>
    scan globalOffset maxMessages (files.log.drop (indexLookup files.index seg.baseOffset globalOffset))

/-- The loop of `read` over the segments from the selected one on. -/
def readLoop (d : Directory) : List SegmentInfo → Int → Nat → Option (List Message)
  | [], _, _ => some []
  | seg :: segs, offset, remaining =>
    if remaining = 0 then some []
    else do
      let msgs ← readFromSegment d seg offset remaining
      let rest ← readLoop d segs ((seg.baseOffset + seg.msgCount : Nat) : Int) (remaining - msgs.length)
      some (msgs ++ rest)

/-- `read`: up to `maxMessages` messages from `offset` on. -/
def read (p : Partition) (offset maxMessages : Int) : Option (List Message) :=
  if maxMessages ≤ 0 ∨ (p.nextOff : Int) ≤ offset then some []
  else
    let segments := p.sealed ++ [p.active]
    let upper := search segments.length fun i =>
      decide (∃ seg ∈ segments[i]?, offset < (seg.baseOffset : Int))
    if upper = 0 then some []
    else readLoop p.dir (segments.drop (upper - 1)) offset maxMessages.toNat

end Partition

/-!
## The two brokers on one topic-partition

`MemBroker` keeps the payloads in memory; `DiskBroker` opens the partition on the first call and keeps it open
until `Close`. `step` runs one operation on both. A call of `MemBroker.consume` can panic, and one of
`DiskBroker.consume` can return an error; both are `none`.
-/

/-! #### The in-memory log -/

/-- The in-memory log of a topic. -/
structure MemBroker where
  log : List Bytes
  deriving DecidableEq, Repr

/-- The greatest capacity for which `make` allocates messages: a message takes 32 bytes of an address
space of `2 ^ 48`. -/
def makeLimit : Int := 2 ^ 48 / 32

namespace MemBroker

/-- Append a payload and return its offset. -/
def produce (b : MemBroker) (payload : Bytes) : MemBroker × Nat :=
  (⟨b.log ++ [payload]⟩, b.log.length)

/-- The loop of `Consume`: so many messages from `i` on. An index outside the log panics. -/
def collect (b : MemBroker) : Nat → Int → Option (List Message)
  | 0, _ => some []
  | n + 1, i =>
    if i < 0 then none
    else do
      let payload ← b.log[i.toNat]?
      let rest ← b.collect n (i + 1)
      some (⟨i, payload⟩ :: rest)

/-- `Consume`: the end of the range is an `int64` and may wrap around; `make` panics when the capacity is
out of range. -/
def consume (b : MemBroker) (offset maxMessages : Int) : Option (List Message) :=
  if (b.log.length : Int) ≤ offset ∨ maxMessages ≤ 0 then some []
  else
    let sum := toInt64 (offset + maxMessages)
    let stop := if (b.log.length : Int) < sum then (b.log.length : Int) else sum
    let capacity := toInt64 (stop - offset)
    if capacity < 0 ∨ makeLimit < capacity then none
    else b.collect (stop - offset).toNat offset

end MemBroker

/-! #### The disk log -/

/-- A broker on one topic-partition: the partition is opened by the first call that needs it. -/
inductive DiskBroker where
  | closed (dir : Directory)
  | opened (p : Partition)
  deriving DecidableEq

namespace DiskBroker

/-- `getOrCreatePartition`. -/
def partition : DiskBroker → Partition
  | closed dir => openPartition dir
  | opened p => p

def produce (limit : Nat) (b : DiskBroker) (payload : Bytes) : DiskBroker × Except AppendError Nat :=
  let result := b.partition.append limit Faults.none payload
  (opened result.1, result.2)

def consume (b : DiskBroker) (offset maxMessages : Int) : DiskBroker × Option (List Message) :=
  (opened b.partition, b.partition.read offset maxMessages)

def logLength (b : DiskBroker) : DiskBroker × Nat := (opened b.partition, b.partition.nextOff)

/-- `Close`; the next broker on the directory finds what the files hold. -/
def close : DiskBroker → DiskBroker
  | closed dir => closed dir
  | opened p => closed p.dir

end DiskBroker

/-! #### Both brokers under the same operations -/

inductive Op where
  | produce (payload : Bytes)
  | consume (offset maxMessages : Int)
  | reopen
  deriving DecidableEq, Repr

structure Both where
  disk : DiskBroker
  mem : MemBroker
  deriving DecidableEq

/-- Both brokers run the operation. Closing concerns the disk log only. -/
def step (limit : Nat) (s : Both) : Op → Option Both
  | .produce payload => some ⟨(s.disk.produce limit payload).1, (s.mem.produce payload).1⟩
  | .consume offset maxMessages => some { s with disk := (s.disk.consume offset maxMessages).1 }
  | .reopen => some { s with disk := s.disk.close }

/-- An empty data directory and an empty in-memory log. -/
def Both.init : Both := ⟨.closed .empty, ⟨[]⟩⟩

end SystemDesignLabs.Kafka
