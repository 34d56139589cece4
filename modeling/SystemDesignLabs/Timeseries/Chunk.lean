import SystemDesignLabs.Core.BitStream

/-!
# Chunks of data points

A chunk holds up to 128 points. Its header has the first timestamp, the first delta, the first value and the number of
points; the other points are in two streams of bits. How the bits are written and read is a parameter here: a
`BitCodec`. The arithmetic on timestamps is that of `i64` in a release build, which wraps around.
-/

namespace SystemDesignLabs.Timeseries

/-- A timestamp in milliseconds and the bits of an `f64`. -/
structure DataPoint where
  timestamp : Int64
  value : UInt64
  deriving DecidableEq, Repr

/-- The number of points in a full chunk. -/
def chunkSize : Nat := 128

/-- The bit streams of a chunk: `encode` gets all points, `decode` the first point, the first delta and the number of
points to read after the first. -/
structure BitCodec where
  Bits : Type
  encode : List DataPoint → Bits
  decode : DataPoint → Int64 → Nat → Bits → List DataPoint

structure Chunk (codec : BitCodec) where
  firstTs : Int64
  firstDelta : Int64
  firstValueBits : UInt64
  bits : codec.Bits
  count : Nat

namespace Chunk

variable {codec : BitCodec}

/-- `Chunk::compress` on a point and those after it; it is not called without points. -/
def compress (codec : BitCodec) (first : DataPoint) (rest : List DataPoint) : Chunk codec where
  firstTs := first.timestamp
  firstDelta := match rest with
    | [] => 0
    | second :: _ => second.timestamp - first.timestamp
  firstValueBits := first.value
  bits := codec.encode (first :: rest)
  count := rest.length + 1

/-- `Chunk::decompress`: the first point comes from the header. -/
def decompress (c : Chunk codec) : List DataPoint :=
  if c.count = 0 then []
  else
    let first : DataPoint := ⟨c.firstTs, c.firstValueBits⟩
    if c.count = 1 then [first]
    else first :: codec.decode first c.firstDelta (c.count - 1) c.bits

/-- Where `query` takes the chunk to end. -/
def estimatedEnd (c : Chunk codec) : Int64 := c.firstTs + c.firstDelta * Int64.ofNat c.count

theorem decompress_ne_nil {c : Chunk codec} (h : c.count ≠ 0) : c.decompress ≠ [] := by
  rw [decompress, if_neg h]
  dsimp only
  split
  · exact List.cons_ne_nil _ _
  · exact List.cons_ne_nil _ _

end Chunk

/-!
## Gorilla compression

The bit streams of `Chunk::compress` and `Chunk::decompress` of `labs/timeseries-db/src/v1.rs`. A timestamp is written
as the difference of its delta to the last one, in one of four buckets; a value as its XOR with the last one, in the
window of bits that was written last or in a new one, whose leading zeros and length stand before it.

The fields are too short for some numbers that are written to them: 64 in seven bits, 256 in nine bits, what is outside
of `-2048..=2047` in twelve bits, 32 leading zeros and more in five bits, a length of 64 in six bits. A chunk gives back
its points if and only if it writes none of these (`gorilla_round_trip_iff`).
-/

open Core

/-! ### The bits of a word -/

/-- `leading_zeros` of a `u64`. -/
def leadingZeros (x : UInt64) : Nat := ((List.range 64).find? fun i => x.toNat.testBit (63 - i)).getD 64

/-- `trailing_zeros` of a `u64`. -/
def trailingZeros (x : UInt64) : Nat := ((List.range 64).find? fun i => x.toNat.testBit i).getD 64

/-- The difference of two `u32`, which wraps around. -/
def subU32 (a b : Nat) : Nat := (2 ^ 32 + a - b) % 2 ^ 32

/-! ### Compression -/

/-- What the loop of `compress` carries along. -/
structure Encoder where
  tsWriter : BitWriter
  valWriter : BitWriter
  prevTs : Int64
  prevDelta : Int64
  prevValBits : UInt64
  prevLz : Nat
  prevTz : Nat

/-- Write a delta of deltas. -/
def writeDod (w : BitWriter) (dod : Int64) : BitWriter :=
  if dod = 0 then w.writeBit 0
  else if -63 ≤ dod ∧ dod ≤ 64 then
    ((w.writeBit 1).writeBit 0).writeBits (dod + 64).toUInt64 7
  else if -255 ≤ dod ∧ dod ≤ 256 then
    (((w.writeBit 1).writeBit 1).writeBit 0).writeBits (dod + 256).toUInt64 9
  else
    (((w.writeBit 1).writeBit 1).writeBit 1).writeBits (dod + 2048).toUInt64 12

/-- The bits of a value are all in the window that was written last. -/
def Reuses (i : Nat) (xor : UInt64) (prevLz prevTz : Nat) : Prop :=
  1 < i ∧ prevLz ≤ leadingZeros xor ∧ prevTz ≤ trailingZeros xor

instance (i : Nat) (xor : UInt64) (prevLz prevTz : Nat) : Decidable (Reuses i xor prevLz prevTz) :=
  inferInstanceAs (Decidable (_ ∧ _))

/-- The window after a value. -/
def nextWindow (i : Nat) (xor : UInt64) (prevLz prevTz : Nat) : Nat × Nat :=
  if xor = 0 ∨ Reuses i xor prevLz prevTz then (prevLz, prevTz) else (leadingZeros xor, trailingZeros xor)

/-- Write the XOR of a value with the last one. -/
def writeXor (w : BitWriter) (i : Nat) (xor : UInt64) (prevLz prevTz : Nat) : BitWriter :=
  if xor = 0 then w.writeBit 0
  else
    let lz := leadingZeros xor
    let tz := trailingZeros xor
    let meaningfulBits := subU32 (subU32 64 lz) tz
    if Reuses i xor prevLz prevTz then
      ((w.writeBit 1).writeBit 0).writeBits (xor >>> UInt64.ofNat prevTz) (subU32 (subU32 64 prevLz) prevTz)
    else
      ((((w.writeBit 1).writeBit 1).writeBits (UInt64.ofNat lz) 5).writeBits
        (UInt64.ofNat meaningfulBits) 6).writeBits (xor >>> UInt64.ofNat tz) meaningfulBits

/-- The delta of deltas of a point. -/
def dodOf (i : Nat) (prevTs prevDelta ts : Int64) : Int64 := if i = 1 then 0 else (ts - prevTs) - prevDelta

/-- One round of the loop of `compress`. -/
def Encoder.encodePoint (e : Encoder) (i : Nat) (pt : DataPoint) : Encoder :=
  let delta := pt.timestamp - e.prevTs
  let xor := pt.value ^^^ e.prevValBits
  let window := nextWindow i xor e.prevLz e.prevTz
  { tsWriter := writeDod e.tsWriter (dodOf i e.prevTs e.prevDelta pt.timestamp)
    valWriter := writeXor e.valWriter i xor e.prevLz e.prevTz
    prevTs := pt.timestamp
    prevDelta := delta
    prevValBits := pt.value
    prevLz := window.1
    prevTz := window.2 }

/-- The loop of `compress`, from a point on. -/
def Encoder.encodeFrom (e : Encoder) : Nat → List DataPoint → Encoder
  | _, [] => e
  | i, pt :: points => encodeFrom (e.encodePoint i pt) (i + 1) points

/-- The two streams of a chunk and their lengths in bits. -/
structure Streams where
  tsBits : List UInt8
  valBits : List UInt8
  tsBitLen : Nat
  valBitLen : Nat
  deriving DecidableEq

/-- The streams of `compress`. A single point is written, too, but not read back. -/
def encodeStreams : List DataPoint → Streams
  | [] => ⟨[], [], 0, 0⟩
  | first :: rest =>
    let firstDelta := match rest with
      | [] => 0
      | second :: _ => second.timestamp - first.timestamp
    let e : Encoder := ⟨.new, .new, first.timestamp, firstDelta, first.value, 0, 0⟩
    let e := match rest with
      | [] => e.encodeFrom 0 [first]
      | _ :: _ => e.encodeFrom 1 rest
    ⟨e.tsWriter.bytes, e.valWriter.bytes, e.tsWriter.bitPos, e.valWriter.bitPos⟩

/-! ### Decompression -/

/-- What the loop of `decompress` carries along. -/
structure Decoder where
  tsReader : BitReader
  valReader : BitReader
  prevTs : Int64
  prevDelta : Int64
  prevValBits : UInt64
  prevLz : Nat
  prevTz : Nat

/-- Read a delta of deltas. -/
def readDod (r : BitReader) : Int64 × BitReader :=
  let (b, r) := r.readBit
  if b = 0 then (0, r)
  else
    let (b, r) := r.readBit
    if b = 0 then
      let (v, r) := r.readBits 7
      (v.toInt64 - 64, r)
    else
      let (b, r) := r.readBit
      if b = 0 then
        let (v, r) := r.readBits 9
        (v.toInt64 - 256, r)
      else
        let (v, r) := r.readBits 12
        (v.toInt64 - 2048, r)

/-- What `decompress` reads of a value: its bits and the window after it. -/
structure ReadValue where
  valBits : UInt64
  lz : Nat
  tz : Nat
  reader : BitReader

/-- Read a value. A shift takes its distance modulo 64. -/
def readXor (r : BitReader) (prevValBits : UInt64) (prevLz prevTz : Nat) : ReadValue :=
  let (b, r) := r.readBit
  if b = 0 then ⟨prevValBits, prevLz, prevTz, r⟩
  else
    let (b, r) := r.readBit
    if b = 0 then
      let bits := subU32 (subU32 64 prevLz) prevTz
      let (meaningful, r) := r.readBits bits
      ⟨prevValBits ^^^ meaningful <<< UInt64.ofNat prevTz, prevLz, prevTz, r⟩
    else
      let (lz, r) := r.readBits 5
      let (len, r) := r.readBits 6
      let tz := subU32 (subU32 64 lz.toNat) len.toNat
      let (meaningful, r) := r.readBits len.toNat
      ⟨prevValBits ^^^ meaningful <<< UInt64.ofNat tz, lz.toNat, tz, r⟩

/-- The loop of `decompress`. -/
def Decoder.decodeFrom : Nat → Decoder → List DataPoint
  | 0, _ => []
  | n + 1, d =>
    let (dod, tsReader) := readDod d.tsReader
    let delta := d.prevDelta + dod
    let ts := d.prevTs + delta
    let value := readXor d.valReader d.prevValBits d.prevLz d.prevTz
    ⟨ts, value.valBits⟩ ::
      decodeFrom n ⟨tsReader, value.reader, ts, delta, value.valBits, value.lz, value.tz⟩

def decodeStreams (first : DataPoint) (firstDelta : Int64) (n : Nat) (s : Streams) : List DataPoint :=
  Decoder.decodeFrom n ⟨.new s.tsBits s.tsBitLen, .new s.valBits s.valBitLen, first.timestamp, firstDelta, first.value,
    0, 0⟩

/-- Gorilla compression. -/
def gorilla : BitCodec := ⟨Streams, encodeStreams, decodeStreams⟩

/-! ### When the fields are long enough -/

/-- The field of the bucket holds the delta of deltas. -/
def DodFits (dod : Int64) : Prop := -2048 ≤ dod ∧ dod ≤ 2047 ∧ dod ≠ 64 ∧ dod ≠ 256

instance (dod : Int64) : Decidable (DodFits dod) := inferInstanceAs (Decidable (_ ∧ _))

/-- From the third point on, the deltas of deltas fit their fields. -/
def TimestampsFit : List DataPoint → Prop
  | p :: q :: r :: points =>
    DodFits ((r.timestamp - q.timestamp) - (q.timestamp - p.timestamp)) ∧ TimestampsFit (q :: r :: points)
  | _ => True

/-- A new window has less than 32 leading zeros, and is not the whole word. -/
def XorFits (i : Nat) (xor : UInt64) (prevLz prevTz : Nat) : Prop :=
  xor = 0 ∨ Reuses i xor prevLz prevTz ∨ leadingZeros xor < 32 ∧ ¬ (leadingZeros xor = 0 ∧ trailingZeros xor = 0)

instance (i : Nat) (xor : UInt64) (prevLz prevTz : Nat) : Decidable (XorFits i xor prevLz prevTz) :=
  inferInstanceAs (Decidable (_ ∨ _))

/-- The new windows fit, from the point with the index on. -/
def ValuesFitFrom (prevValBits : UInt64) : Nat → Nat → Nat → List DataPoint → Prop
  | _, _, _, [] => True
  | i, prevLz, prevTz, pt :: points =>
    let xor := pt.value ^^^ prevValBits
    XorFits i xor prevLz prevTz ∧
      ValuesFitFrom pt.value (i + 1) (nextWindow i xor prevLz prevTz).1 (nextWindow i xor prevLz prevTz).2 points

/-- Every new window fits. -/
def ValuesFit : List DataPoint → Prop
  | [] => True
  | first :: rest => ValuesFitFrom first.value 1 0 0 rest

end SystemDesignLabs.Timeseries
