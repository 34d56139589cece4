import SystemDesignLabs.Core.Fallible
import SystemDesignLabs.Core.TransitionSystem
import SystemDesignLabs.WriteAhead.Recover

/-!
# The two versions of the log

`Wal` of `labs/wal/src/v1.rs`, which syncs every record, and of `labs/wal/src/v2.rs`, which syncs a
group of records in `commit`. Both write through a buffer of any capacity. A call on the file can fail
after some of its bytes; what the coming calls do is part of the state of the writer (`faults`).

Whatever happens in a call, the bytes in the file and in the buffer are those from before followed by
the front of what the call writes (`Grown`).
-/

namespace SystemDesignLabs.WriteAhead

open List Core

/-- `io::Error`. -/
inductive IoError where
  | failed
  deriving DecidableEq, Repr

/-- `BufWriter<File>`: the file, the bytes not yet sent to it, and the outcomes of the coming calls on
the file. An outcome `some n` is an error after at most `n` bytes; when the list ends, all succeed. -/
structure Writer where
  file : LogFile
  buf : Bytes
  faults : List (Option Nat)
  deriving DecidableEq, Repr

namespace Writer

/-- Send bytes to the end of the file. Without bytes there is no call; an error comes before the last
byte is taken. The value is what was not taken. -/
def send (bs : Bytes) : EStateM IoError Writer Bytes :=
  if bs = [] then pure []
  else do
    let w ← get
    let taken := match w.faults.head?.join with
      | none => bs.length
      | some n => min n (bs.length - 1)
    set { w with
      file := { w.file with bytes := w.file.bytes ++ bs.take taken }
      faults := w.faults.tail }
    pure (bs.drop taken)

/-- `flush_buf`: what the file did not take stays in the buffer. -/
def flushBuf : EStateM IoError Writer PUnit := do
  let w ← get
  let rest ← send w.buf
  modify fun w => { w with buf := rest }
  if rest = [] then pure ⟨⟩ else throw .failed

/-- `write_all` of the file itself. -/
def writeFile (bs : Bytes) : EStateM IoError Writer PUnit := do
  let rest ← send bs
  if rest = [] then pure ⟨⟩ else throw .failed

def buffer (bs : Bytes) : EStateM IoError Writer PUnit :=
  modify fun w => { w with buf := w.buf ++ bs }

/-- `write_all` of the buffer: what fits strictly is copied, else the buffer is flushed if it has to
be, and what fills a whole buffer goes to the file at once. -/
def writeAll (capacity : Nat) (bs : Bytes) : EStateM IoError Writer PUnit := do
  let w ← get
  if bs.length < capacity - w.buf.length then buffer bs
  else
    if capacity - w.buf.length < bs.length then flushBuf
    if capacity ≤ bs.length then writeFile bs else buffer bs

/-- `sync_all` of the file. -/
def syncAll : EStateM IoError Writer PUnit := do
  let w ← get
  match w.faults.head?.join with
  | none => set { w with
      file := { w.file with synced := w.file.bytes.length }
      faults := w.faults.tail }
  | some _ => do
    set { w with faults := w.faults.tail }
    throw .failed

variable (crc : Bytes → BitVec 32) (capacity : Nat)

/-- The four writes of a record. -/
def writeRecord (data : Bytes) : EStateM IoError Writer PUnit := do
  writeAll capacity [magic]
  writeAll capacity (leBytes 4 (crc data).toNat)
  writeAll capacity (leBytes 4 data.length)
  writeAll capacity data

/-! ## What a call leaves in the file and in the buffer -/

/-- The bytes in the file and in the buffer. -/
def content (w : Writer) : Bytes := w.file.bytes ++ w.buf

/-- The bytes `bs` were added at the end; the file only grew, and nothing was synced. -/
structure Grown (w w' : Writer) (bs : Bytes) : Prop where
  content : w'.content = w.content ++ bs
  file : w.file.bytes <+: w'.file.bytes
  synced : w'.file.synced = w.file.synced
  faults : w.faults = [] → w'.faults = []

theorem Grown.refl (w : Writer) : Grown w w [] :=
  ⟨(append_nil _).symm, prefix_refl _, rfl, id⟩

theorem Grown.trans {w w' w'' : Writer} {bs cs : Bytes} (h : Grown w w' bs)
    (h' : Grown w' w'' cs) : Grown w w'' (bs ++ cs) := by
  refine ⟨?_, h.file.trans h'.file, h'.synced.trans h.synced, fun hf => h'.faults (h.faults hf)⟩
  rw [h'.content, h.content, append_assoc]

/-- A call wrote a front of `bs` and then failed, and a failure was due. -/
def FailedGrowing (w : Writer) (bs : Bytes) (w' : Writer) : Prop :=
  w.faults ≠ [] ∧ ∃ front, front <+: bs ∧ Grown w w' front

theorem FailedGrowing.after {w w' w'' : Writer} {bs cs : Bytes} (h : Grown w w' bs)
    (h' : FailedGrowing w' cs w'') : FailedGrowing w (bs ++ cs) w'' := by
  obtain ⟨hf, front, hfront, hg⟩ := h'
  refine ⟨fun hw => hf (h.faults hw), bs ++ front, ?_, h.trans hg⟩
  exact (prefix_append_right_inj bs).2 hfront

theorem FailedGrowing.before {w w' : Writer} {bs : Bytes} (cs : Bytes)
    (h : FailedGrowing w bs w') : FailedGrowing w (bs ++ cs) w' := by
  obtain ⟨hf, front, hfront, hg⟩ := h
  exact ⟨hf, front, hfront.trans (prefix_append bs cs), hg⟩

theorem send_holds (bs : Bytes) (w : Writer) :
    Holds (send bs) w (fun rest w' => ∃ taken, bs = taken ++ rest ∧
      w' = { w with
        file := { w.file with bytes := w.file.bytes ++ taken }
        faults := w'.faults } ∧
      (w.faults = [] → w'.faults = [] ∧ rest = [])) (fun _ => False) := by
  rw [send]
  by_cases hbs : bs = []
  · rw [if_pos hbs]
    apply Holds.pure
    refine ⟨[], hbs, ?_, fun hf => ⟨hf, rfl⟩⟩
    rw [append_nil]
  · rw [if_neg hbs]
    apply Holds.bind
    apply Holds.get
    refine ⟨_, (take_append_drop _ bs).symm, rfl, ?_⟩
    intro hf
    rw [hf]
    exact ⟨rfl, drop_length⟩

theorem flushBuf_holds (w : Writer) :
    Holds flushBuf w (fun _ w' => Grown w w' [] ∧ w'.buf = []) (FailedGrowing w []) := by
  apply Holds.bind
  apply Holds.get
  apply Holds.bind
  refine (send_holds w.buf w).mono ?_ (fun _ h => h.elim)
  intro rest w' h
  obtain ⟨taken, hbuf, hw', hfaults⟩ := h
  have hgrown : Grown w { w' with buf := rest } [] := by
    rw [hw']
    refine ⟨?_, prefix_append _ _, rfl, fun hf => (hfaults hf).1⟩
    show (w.file.bytes ++ taken) ++ rest = (w.file.bytes ++ w.buf) ++ []
    rw [hbuf, append_nil, append_assoc]
  apply Holds.bind
  apply Holds.modify
  split
  · rename_i hrest
    exact Holds.pure ⟨hgrown, hrest⟩
  · rename_i hrest
    apply Holds.throw
    exact ⟨fun hf => hrest (hfaults hf).2, [], nil_prefix, hgrown⟩

theorem writeFile_holds (bs : Bytes) (w : Writer) (hbuf : bs = [] ∨ w.buf = []) :
    Holds (writeFile bs) w (fun _ w' => Grown w w' bs) (FailedGrowing w bs) := by
  apply Holds.bind
  refine (send_holds bs w).mono ?_ (fun _ h => h.elim)
  intro rest w' h
  obtain ⟨taken, hbs, hw', hfaults⟩ := h
  have hgrown : Grown w w' taken := by
    rw [hw']
    refine ⟨?_, prefix_append _ _, rfl, fun hf => (hfaults hf).1⟩
    show (w.file.bytes ++ taken) ++ w.buf = (w.file.bytes ++ w.buf) ++ taken
    obtain hempty | hbuf := hbuf
    · rw [hempty] at hbs
      rw [(append_eq_nil_iff.1 hbs.symm).1, append_nil, append_nil]
    · rw [hbuf, append_nil, append_nil]
  split
  · rename_i hrest
    rw [hrest, append_nil] at hbs
    rw [hbs]
    exact Holds.pure hgrown
  · rename_i hrest
    apply Holds.throw
    exact ⟨fun hf => hrest (hfaults hf).2, taken, ⟨rest, hbs.symm⟩, hgrown⟩

theorem buffer_holds (bs : Bytes) (w : Writer) :
    Holds (buffer bs) w (fun _ w' => Grown w w' bs) (FailedGrowing w bs) := by
  apply Holds.modify
  exact ⟨(append_assoc _ _ _).symm, prefix_refl _, rfl, id⟩

theorem writeAll_holds (bs : Bytes) (w : Writer) :
    Holds (writeAll capacity bs) w (fun _ w' => Grown w w' bs) (FailedGrowing w bs) := by
  apply Holds.bind
  apply Holds.get
  split
  · exact buffer_holds bs w
  · rename_i hfit
    dsimp only
    -- after the flush, if there was one
    have hlast : ∀ w' : Writer, Grown w w' [] → (capacity ≤ bs.length → bs = [] ∨ w'.buf = []) →
        Holds (if capacity ≤ bs.length then writeFile bs else buffer bs) w'
          (fun _ w'' => Grown w w'' bs) (FailedGrowing w bs) := by
      intro w' hg hbuf
      have hpost : ∀ (u : PUnit) (w'' : Writer), Grown w' w'' bs → Grown w w'' bs :=
        fun _ _ h => hg.trans h
      split
      · rename_i hbig
        exact (writeFile_holds bs w' (hbuf hbig)).mono hpost fun _ h => .after hg h
      · exact (buffer_holds bs w').mono hpost fun _ h => .after hg h
    split
    · apply Holds.bind
      refine (flushBuf_holds w).mono ?_ (fun _ h => h.before bs)
      intro _ w' h
      exact hlast w' h.1 fun _ => .inr h.2
    · rename_i hroom
      refine hlast w (.refl w) fun hbig => ?_
      simp only [← length_eq_zero_iff]
      omega

/-- The four writes add a record, or a front of it. -/
theorem writeRecord_holds (data : Bytes) (w : Writer) :
    Holds (writeRecord crc capacity data) w (fun _ w' => Grown w w' (record crc data))
      (FailedGrowing w (record crc data)) := by
  have hrecord : record crc data =
      [magic] ++ (leBytes 4 (crc data).toNat ++ (leBytes 4 data.length ++ data)) := by
    rw [record, header, cons_append, append_assoc]
    rfl
  rw [hrecord]
  apply Holds.bind
  refine (writeAll_holds capacity [magic] w).mono ?_ (fun _ h => h.before _)
  intro _ w₁ h₁
  apply Holds.bind
  refine (writeAll_holds capacity _ w₁).mono ?_ (fun _ h => .after h₁ (h.before _))
  intro _ w₂ h₂
  apply Holds.bind
  refine (writeAll_holds capacity _ w₂).mono ?_ (fun _ h => .after h₁ (.after h₂ (h.before _)))
  intro _ w₃ h₃
  refine (writeAll_holds capacity data w₃).mono ?_ (fun _ h => .after h₁ (.after h₂ (.after h₃ h)))
  intro _ w₄ h₄
  exact h₁.trans (h₂.trans (h₃.trans h₄))

theorem syncAll_holds (w : Writer) :
    Holds syncAll w
      (fun _ w' => w' = { w with
        file := { w.file with synced := w.file.bytes.length }
        faults := w.faults.tail })
      (FailedGrowing w []) := by
  apply Holds.bind
  apply Holds.get
  cases hf : w.faults.head?.join with
  | none => exact rfl
  | some n =>
    refine ⟨?_, [], nil_prefix, ?_⟩
    · intro hw
      rw [hw] at hf
      exact absurd hf (by simp)
    · exact ⟨(append_nil _).symm, prefix_refl _, rfl, fun hw => by rw [hw]; rfl⟩

/-- Everything was sent to the file and is stored. -/
structure Synced (w w' : Writer) : Prop where
  bytes : w'.file.bytes = w.content
  buf : w'.buf = []
  synced : w'.file.synced = w'.file.bytes.length
  faults : w.faults = [] → w'.faults = []

theorem syncAll_synced {w w' : Writer} (hg : Grown w w' []) (hbuf : w'.buf = []) :
    Holds syncAll w' (fun _ w'' => Synced w w'') (FailedGrowing w []) := by
  refine (syncAll_holds w').mono ?_ (fun _ h => FailedGrowing.after hg h)
  intro _ w'' hw''
  rw [hw'']
  have hcontent := hg.content
  rw [content, hbuf, append_nil, append_nil] at hcontent
  refine ⟨hcontent, hbuf, rfl, fun hf => ?_⟩
  show w'.faults.tail = []
  rw [hg.faults hf]
  rfl

end Writer

/-- The writer after `open`, and the recovered records. A file that does not exist is created. -/
def openWriter (crc : Bytes → BitVec 32) (disk : Option LogFile) : Writer × List LogRecord :=
  match disk with
  | some file =>
    let (recovered, file) := recoverAndTruncate crc file
    (⟨file, [], []⟩, recovered)
  | none => (⟨⟨[], 0⟩, [], []⟩, [])

namespace V1

structure Wal where
  writer : Writer
  nextOffset : Nat
  deriving DecidableEq, Repr

namespace Wal

variable (crc : Bytes → BitVec 32) (capacity : Nat)

/-- `Wal::open`. -/
def openPath (disk : Option LogFile) : Wal × List LogRecord :=
  let (writer, recovered) := openWriter crc disk
  (⟨writer, recovered.length⟩, recovered)

/-- A call on the writer. -/
abbrev onWriter (m : EStateM IoError Writer PUnit) : EStateM IoError Wal PUnit :=
  onPart Wal.writer (fun wal writer => { wal with writer := writer }) m

def append (data : Bytes) : EStateM IoError Wal Nat := do
  let wal ← get
  let offset := wal.nextOffset
  onWriter (Writer.writeRecord crc capacity data)
  onWriter Writer.flushBuf
  onWriter Writer.syncAll
  modify fun wal => { wal with nextOffset := wal.nextOffset + 1 }
  return offset

/-- `replay`: what is in the file, from an offset on. -/
def replay (wal : Wal) (fromOffset : Nat) : List LogRecord :=
  (recover crc wal.writer.file).1.filter fun r => fromOffset ≤ r.offset

end Wal

end V1

namespace V2

structure Wal where
  writer : Writer
  nextOffset : Nat
  unflushed : Nat
  deriving DecidableEq, Repr

namespace Wal

variable (crc : Bytes → BitVec 32) (capacity : Nat)

/-- `Wal::open`. -/
def openPath (disk : Option LogFile) : Wal × List LogRecord :=
  let (writer, recovered) := openWriter crc disk
  (⟨writer, recovered.length, 0⟩, recovered)

/-- A call on the writer. -/
abbrev onWriter (m : EStateM IoError Writer PUnit) : EStateM IoError Wal PUnit :=
  onPart Wal.writer (fun wal writer => { wal with writer := writer }) m

/-- `append`: the record is not durable yet. -/
def append (data : Bytes) : EStateM IoError Wal Nat := do
  let wal ← get
  let offset := wal.nextOffset
  onWriter (Writer.writeRecord crc capacity data)
  modify fun wal => { wal with
    nextOffset := wal.nextOffset + 1
    unflushed := wal.unflushed + 1 }
  return offset

/-- `commit`: one sync for all pending records. -/
def commit : EStateM IoError Wal Nat := do
  let wal ← get
  let count := wal.unflushed
  if count = 0 then return 0
  onWriter Writer.flushBuf
  onWriter Writer.syncAll
  modify fun wal => { wal with unflushed := 0 }
  return count

def appendSync (data : Bytes) : EStateM IoError Wal Nat := do
  let offset ← append crc capacity data
  let _ ← commit
  return offset

end Wal

end V2

/-!
## Runs with crashes

A process opens the log, appends, commits and crashes, any number of times. A crash leaves a prefix of
what the file, the buffer and the append in flight would have made of the file, at least the part that
has certainly been stored. The run keeps every call of `append` in order: which open log it was made
on, the offset it returned (or would have returned), and whether the record was acknowledged.
-/

/-- A call of `append`. -/
structure Call where
  handle : Nat
  payload : Bytes
  offset : Nat
  acked : Bool
  deriving DecidableEq, Repr

/-- The record that the call writes. -/
def Call.record (c : Call) : LogRecord := ⟨c.offset, c.payload⟩

/-- The process: down, with what is at the path of the log, or running with an open log. -/
inductive Process (W : Type) where
  | down (disk : Option LogFile)
  | up (wal : W)

/-- The process, the number of times the log was opened, and the calls so far. -/
structure Run (W : Type) where
  process : Process W
  handles : Nat
  calls : List Call

/-- Nothing is at the path and no call was made. -/
def Run.start (W : Type) : Run W := ⟨.down none, 0, []⟩

/-- The bytes of the append in flight. -/
def inFlightBytes (crc : Bytes → BitVec 32) : Option Bytes → Bytes
  | some data => record crc data
  | none => []

/-- The call of the append in flight. -/
def inFlightCall (handle offset : Nat) : Option Bytes → List Call
  | some data => [⟨handle, data, offset, false⟩]
  | none => []

namespace Run

variable {W : Type}

/-- A process that is down opens the log. -/
def openWith (openPath : Option LogFile → W × List LogRecord) (s : Run W) : Option (Run W) :=
  match s.process with
  | .down disk => some ⟨.up (openPath disk).1, s.handles + 1, s.calls⟩
  | .up _ => none

/-- A crash that keeps `stored` bytes: of the file, when the process is down; of the file, the buffer
and the append in flight, when it runs. What was synced stays. -/
def crash (crc : Bytes → BitVec 32) (writer : W → Writer) (nextOffset : W → Nat) (s : Run W)
    (inFlight : Option Bytes) (stored : Nat) : Option (Run W) :=
  match s.process with
  | .down none => some s
  | .down (some file) =>
    if file.synced ≤ stored then
      some ⟨.down (some ⟨file.bytes.take stored, file.synced⟩), s.handles, s.calls⟩
    else none
  | .up wal =>
    let bytes := (writer wal).content ++ inFlightBytes crc inFlight
    let synced := (writer wal).file.synced
    if synced ≤ stored then
      some ⟨.down (some ⟨bytes.take stored, synced⟩), s.handles,
        s.calls ++ inFlightCall s.handles (nextOffset wal) inFlight⟩
    else none

end Run

variable (crc : Bytes → BitVec 32) (capacity : Nat)

namespace V1

/-- `append` comes with the outcomes of its calls on the file, `crash` with the payload of the append
in flight, if there is one, and the number of bytes that stay. -/
inductive Op where
  | openPath
  | append (data : Bytes) (faults : List (Option Nat))
  | crash (inFlight : Option Bytes) (stored : Nat)
  deriving DecidableEq, Repr

/-- The log in front of a call whose calls on the file have the given outcomes. -/
def Wal.withFaults (wal : Wal) (faults : List (Option Nat)) : Wal :=
  { wal with writer := { wal.writer with faults := faults } }

def step (s : Run Wal) : Op → Option (Run Wal)
  | .openPath => s.openWith (Wal.openPath crc)
  | .append data faults =>
    match s.process with
    | .down _ => none
    | .up wal =>
      match Wal.append crc capacity data (wal.withFaults faults) with
      | .ok offset wal' =>
        some ⟨.up wal', s.handles, s.calls ++ [⟨s.handles, data, offset, true⟩]⟩
      | .error _ wal' =>
        some ⟨.up wal', s.handles, s.calls ++ [⟨s.handles, data, wal.nextOffset, false⟩]⟩
  | .crash inFlight stored => s.crash crc Wal.writer Wal.nextOffset inFlight stored

/-- No call on the file fails, and payloads are shorter than `2 ^ 32` bytes. -/
def Op.Plain : Op → Prop
  | .openPath => True
  | .append data faults => data.length < 2 ^ 32 ∧ faults = []
  | .crash inFlight _ => ∀ data, inFlight = some data → data.length < 2 ^ 32

instance : (op : Op) → Decidable op.Plain
  | .openPath => isTrue trivial
  | .append _ _ => inferInstanceAs (Decidable (_ ∧ _))
  | .crash none _ => isTrue fun _ h => absurd h (by simp)
  | .crash (some data) _ =>
    decidable_of_iff (data.length < 2 ^ 32) (by simp [Op.Plain])

end V1

namespace V2

inductive Op where
  | openPath
  | append (data : Bytes)
  | commit
  | crash (inFlight : Option Bytes) (stored : Nat)
  deriving DecidableEq, Repr

/-- The last calls, those of the pending records, are acknowledged. -/
def acknowledge (count : Nat) (calls : List Call) : List Call :=
  calls.take (calls.length - count) ++
    (calls.drop (calls.length - count)).map fun c => { c with acked := true }

def step (s : Run Wal) : Op → Option (Run Wal)
  | .openPath => s.openWith (Wal.openPath crc)
  | .append data =>
    match s.process with
    | .down _ => none
    | .up wal =>
      match Wal.append crc capacity data wal with
      | .ok offset wal' =>
        some ⟨.up wal', s.handles, s.calls ++ [⟨s.handles, data, offset, false⟩]⟩
      | .error _ _ => none
  | .commit =>
    match s.process with
    | .down _ => none
    | .up wal =>
      match Wal.commit wal with
      | .ok count wal' => some ⟨.up wal', s.handles, acknowledge count s.calls⟩
      | .error _ _ => none
  | .crash inFlight stored => s.crash crc Wal.writer Wal.nextOffset inFlight stored

/-- Payloads are shorter than `2 ^ 32` bytes. -/
def Op.Plain : Op → Prop
  | .append data => data.length < 2 ^ 32
  | .crash inFlight _ => ∀ data, inFlight = some data → data.length < 2 ^ 32
  | _ => True

instance : (op : Op) → Decidable op.Plain
  | .openPath | .commit => isTrue trivial
  | .append data => inferInstanceAs (Decidable (data.length < 2 ^ 32))
  | .crash none _ => isTrue fun _ h => absurd h (by simp)
  | .crash (some data) _ =>
    decidable_of_iff (data.length < 2 ^ 32) (by simp [Op.Plain])

end V2

end SystemDesignLabs.WriteAhead
