import SystemDesignLabs.WriteAhead.Log

/-!
# What recovery returns

Without failing calls, opening either version of the log after a crash returns the acknowledged records
and some complete unacknowledged ones, in the order of the calls and at the offsets that the calls
returned, and leaves a file that ends with the last of them (`open_recovers`). The invariant names the
calls whose records are complete in the file or in the buffer (`Kept`); a crash drops some of the last
of them, none of which was acknowledged (`Kept.crash`).
-/

namespace SystemDesignLabs.WriteAhead

open Core List.Sublist

variable (crc : Bytes → BitVec 32)

/-- The log of the given calls. -/
def logOf (calls : List Call) : Bytes := (framing crc).encodeAll (calls.map Call.payload)

theorem logOf_append (calls calls' : List Call) :
    logOf crc (calls ++ calls') = logOf crc calls ++ logOf crc calls' := by
  rw [logOf, List.map_append, Framing.encodeAll_append]
  rfl

theorem logOf_singleton (c : Call) : logOf crc [c] = record crc c.payload :=
  List.append_nil _

/-- Among all `calls`, those `kept` have a complete record: all acknowledged ones do, and the records
up to the last acknowledged one lie in the synced part. -/
structure Kept (calls : List Call) (synced : Nat) (kept : List Call) : Prop where
  sublist : kept.Sublist calls
  acked : kept.filter Call.acked = calls.filter Call.acked
  offsets : kept.map Call.offset = List.range kept.length
  valid : ∀ c ∈ kept, c.payload.length < 2 ^ 32
  stored : ∃ front back, kept = front ++ back ∧ (∀ c ∈ back, c.acked = false) ∧
    (logOf crc front).length ≤ synced

variable {crc}

theorem Kept.nil : Kept crc [] 0 [] :=
  ⟨refl _, rfl, rfl, fun _ h => absurd h List.not_mem_nil,
    [], [], rfl, fun _ h => absurd h List.not_mem_nil, le_refl _⟩

variable {calls kept : List Call} {synced : Nat}

theorem Kept.framing_valid (h : Kept crc calls synced kept) :
    ∀ data ∈ kept.map Call.payload, (framing crc).Valid data := by
  intro data hdata
  obtain ⟨c, hc, rfl⟩ := List.mem_map.1 hdata
  exact h.valid c hc

theorem Kept.attempt (h : Kept crc calls synced kept) {c : Call} (hlen : c.payload.length < 2 ^ 32)
    (hoff : c.offset = kept.length) (hack : c.acked = false) : Kept crc (calls ++ [c]) synced (kept ++ [c]) := by
  obtain ⟨front, back, hkept, hback, hfront⟩ := h.stored
  refine ⟨h.sublist.append (refl _), ?_, ?_, ?_, front, back ++ [c], ?_, ?_, hfront⟩
  · rw [List.filter_append, List.filter_append, h.acked]
  · rw [List.map_append, h.offsets, List.length_append, List.length_singleton, List.range_succ,
      List.map_singleton, hoff]
  · intro d hd
    obtain hd | hd := List.mem_append.1 hd
    · exact h.valid d hd
    · rw [List.mem_singleton.1 hd]
      exact hlen
  · rw [hkept, List.append_assoc]
  · intro d hd
    obtain hd | hd := List.mem_append.1 hd
    · exact hback d hd
    · rw [List.mem_singleton.1 hd]
      exact hack

/-- The call, acknowledged. -/
def Call.ack (c : Call) : Call := { c with acked := true }

theorem map_payload_ack (calls : List Call) : (calls.map Call.ack).map Call.payload = calls.map Call.payload := by
  rw [List.map_map]
  rfl

/-- Acknowledging the last calls, once everything is synced. -/
theorem Kept.acknowledge {pending : List Call} (h : Kept crc (calls ++ pending) synced (kept ++ pending)) :
    Kept crc (calls ++ pending.map Call.ack) (logOf crc (kept ++ pending)).length (kept ++ pending.map Call.ack) := by
  refine ⟨?_, ?_, ?_, ?_, kept ++ pending.map Call.ack, [], (List.append_nil _).symm,
    fun _ hc => absurd hc List.not_mem_nil, ?_⟩
  · have hsub : kept.Sublist calls := (List.append_sublist_append_right pending).1 h.sublist
    exact hsub.append (refl _)
  · have hacked := h.acked
    rw [List.filter_append, List.filter_append] at hacked ⊢
    rw [List.append_cancel_right hacked]
  · have hoff := h.offsets
    rw [List.map_append, List.length_append] at hoff ⊢
    rw [List.length_map, ← hoff, List.map_map]
    rfl
  · intro c hc
    obtain hc | hc := List.mem_append.1 hc
    · exact h.valid c (List.mem_append_left _ hc)
    · obtain ⟨d, hd, rfl⟩ := List.mem_map.1 hc
      exact h.valid d (List.mem_append_right _ hd)
  · rw [logOf, logOf, List.map_append, List.map_append, map_payload_ack]

section

variable (h : Kept crc calls synced kept)
include h

theorem Kept.mono {synced' : Nat}
    (hle : min synced (logOf crc kept).length ≤ synced') : Kept crc calls synced' kept := by
  obtain ⟨front, back, hkept, hback, hfront⟩ := h.stored
  refine ⟨h.sublist, h.acked, h.offsets, h.valid, front, back, hkept, hback, ?_⟩
  have hlen : (logOf crc front).length ≤ (logOf crc kept).length := by
    rw [hkept, logOf_append, List.length_append]
    exact Nat.le_add_right _ _
  exact (le_min hfront hlen).trans hle

/-- A crash keeps the records that it leaves whole; none that it tears was acknowledged. -/
theorem Kept.crash {stored : Nat} {s rest : Bytes}
    (hs : (framing crc).Splits s (kept.map Call.payload) rest) (hle : synced ≤ stored) :
    ∃ kept' rest', (framing crc).Splits (s.take stored) (kept'.map Call.payload) rest' ∧
      Kept crc calls synced kept' := by
  obtain ⟨front, back, hkept, hback, hfront⟩ := h.stored
  obtain ⟨payloads, rest', hsplit⟩ := (framing crc).exists_splits (s.take stored)
  have hpre : payloads <+: kept.map Call.payload := by
    refine hs.front hsplit.valid (t := rest' ++ s.drop stored) ?_
    rw [← List.append_assoc, ← hsplit.eq, List.take_append_drop]
  have htake : payloads = (kept.take payloads.length).map Call.payload := by
    rw [List.map_take]
    exact List.prefix_iff_eq_take.1 hpre
  have hcut : front.length ≤ payloads.length := by
    have hvalid := h.framing_valid
    rw [hkept, List.map_append] at hvalid
    have hlog : logOf crc front <+: s.take stored := by
      have hpre' : logOf crc front <+: s := by
        rw [hs.eq, hkept, List.map_append, Framing.encodeAll_append, List.append_assoc]
        exact List.prefix_append _ _
      rw [List.prefix_iff_eq_take.1 hpre', List.take_eq_take_min]
      exact List.take_prefix_take_left (by omega)
    obtain ⟨t, ht⟩ := hlog
    have hle' := (hsplit.front (fun a ha => hvalid a (List.mem_append_left _ ha)) ht.symm).length_le
    rw [List.length_map] at hle'
    exact hle'
  have hparts : kept.take payloads.length = front ++ back.take (payloads.length - front.length) := by
    rw [hkept, List.take_append, List.take_of_length_le hcut]
  have hunacked : ∀ c ∈ back.take (payloads.length - front.length), c.acked = false :=
    fun c hc => hback c (List.mem_of_mem_take hc)
  refine ⟨kept.take payloads.length, rest', htake ▸ hsplit, ?_⟩
  refine ⟨(List.take_sublist _ _).trans h.sublist, ?_, ?_, ?_, front, _, hparts, hunacked, hfront⟩
  · have hnone : ∀ l : List Call, (∀ c ∈ l, c.acked = false) → l.filter Call.acked = [] := by
      intro l hl
      rw [List.filter_eq_nil_iff]
      intro c hc
      rw [hl c hc]
      decide
    rw [hparts, ← h.acked, hkept, List.filter_append, List.filter_append, hnone _ hunacked, hnone _ hback]
  · rw [List.map_take, h.offsets, List.take_range, List.length_take]
  · exact fun c hc => h.valid c (List.mem_of_mem_take hc)

theorem Kept.numbered_eq :
    numbered 0 (kept.map Call.payload) = kept.map Call.record := by
  apply List.ext_getElem?
  intro i
  have hoff := congrArg (fun l => l[i]?) h.offsets
  rw [numbered, List.getElem?_mapIdx, List.getElem?_map, List.getElem?_map]
  simp only [List.getElem?_map] at hoff
  cases hc : kept[i]? with
  | none => rfl
  | some c =>
    have hi := (List.getElem?_eq_some_iff.1 hc).1
    rw [hc, Option.map_some, List.getElem?_range hi, Option.some.injEq] at hoff
    simp only [Option.map_some, Call.record, hoff, Nat.zero_add]

end

/-! ## The invariant -/

variable (crc)

/-- An open log: the file and the buffer hold the log of some of the calls, the last `pending` of which
are not acknowledged yet. -/
def Held (calls : List Call) (w : Writer) (nextOffset pending : Nat) : Prop :=
  ∃ before kept last, calls = before ++ last ∧ last.length = pending ∧
    Kept crc calls w.file.synced (kept ++ last) ∧ w.content = logOf crc (kept ++ last) ∧
    nextOffset = (kept ++ last).length ∧ w.faults = []

/-- A file on disk: a log of some of the calls, and bytes that begin with no record. -/
def Stored (calls : List Call) (file : LogFile) : Prop :=
  ∃ kept rest, (framing crc).Splits file.bytes (kept.map Call.payload) rest ∧
    Kept crc calls file.synced kept

section Versions

variable {W : Type} (writer : W → Writer) (nextOffset pending : W → Nat)

/-- The invariant of the runs of a version. -/
def Durable (s : Run W) : Prop :=
  match s.process with
  | .down none => s.calls = []
  | .down (some file) => Stored crc s.calls file
  | .up wal => Held crc s.calls (writer wal) (nextOffset wal) (pending wal)

variable {crc writer nextOffset pending}

/-- What `open` returns and leaves on disk. -/
theorem openWriter_spec {file : LogFile} (h : Stored crc calls file) :
    ∃ w kept, openWriter crc (some file) = (w, kept.map Call.record) ∧
      Kept crc calls w.file.synced kept ∧ w.file.bytes = logOf crc kept ∧ w.buf = [] ∧ w.faults = [] := by
  obtain ⟨kept, rest, hsplit, hkept⟩ := h
  obtain ⟨file', heq, hbytes, hsynced⟩ := recoverAndTruncate_spec crc file hsplit
  refine ⟨⟨file', [], []⟩, kept, ?_, hkept.mono hsynced, hbytes, rfl, rfl⟩
  rw [openWriter, heq, hkept.numbered_eq]

theorem durable_openWith {openPath : Option LogFile → W × List LogRecord}
    (hwriter : ∀ disk, writer (openPath disk).1 = (openWriter crc disk).1)
    (hnext : ∀ disk, nextOffset (openPath disk).1 = (openWriter crc disk).2.length)
    (hpending : ∀ disk, pending (openPath disk).1 = 0) {s s' : Run W} (h : Durable crc writer nextOffset pending s)
    (hs : s.openWith openPath = some s') : Durable crc writer nextOffset pending s' := by
  obtain ⟨process, handles, calls⟩ := s
  cases process with
  | up wal => exact absurd hs (by simp [Run.openWith])
  | down disk =>
    cases hs
    show Held crc calls _ _ _
    rw [hwriter, hnext, hpending]
    cases disk with
    | none =>
      have hcalls : calls = [] := h
      subst hcalls
      exact ⟨[], [], [], rfl, rfl, Kept.nil, rfl, rfl, rfl⟩
    | some file =>
      have hstored : Stored crc calls file := h
      obtain ⟨w, kept, heq, hkept, hbytes, hbuf, hfaults⟩ := openWriter_spec hstored
      rw [heq]
      refine ⟨calls, kept, [], (List.append_nil _).symm, rfl, ?_, ?_, ?_, hfaults⟩
      · rw [List.append_nil]
        exact hkept
      · rw [List.append_nil, Writer.content, hbytes, hbuf, List.append_nil]
      · rw [List.append_nil, List.length_map]

theorem Kept.inFlight (h : Kept crc calls synced kept)
    (handle : Nat) (inFlight : Option Bytes) (hlen : ∀ data, inFlight = some data → data.length < 2 ^ 32) :
    Kept crc (calls ++ inFlightCall handle kept.length inFlight) synced
        (kept ++ inFlightCall handle kept.length inFlight) ∧
      logOf crc (kept ++ inFlightCall handle kept.length inFlight) = logOf crc kept ++ inFlightBytes crc inFlight := by
  cases inFlight with
  | none =>
    simp only [inFlightCall, inFlightBytes, List.append_nil]
    exact ⟨h, trivial⟩
  | some data =>
    refine ⟨h.attempt (hlen data rfl) rfl rfl, ?_⟩
    exact logOf_append crc kept _ |>.trans (congrArg _ (logOf_singleton crc _))

theorem durable_crash {s s' : Run W} {inFlight : Option Bytes} {stored : Nat}
    (hlen : ∀ data, inFlight = some data → data.length < 2 ^ 32) (h : Durable crc writer nextOffset pending s)
    (hs : s.crash crc writer nextOffset inFlight stored = some s') : Durable crc writer nextOffset pending s' := by
  obtain ⟨process, handles, calls⟩ := s
  cases process with
  | down disk =>
    cases disk with
    | none =>
      cases hs
      exact h
    | some file =>
      simp only [Run.crash] at hs
      split at hs
      · rename_i hle
        cases hs
        obtain ⟨kept, rest, hsplit, hkept⟩ := (h : Stored crc calls file)
        exact hkept.crash hsplit hle
      · exact absurd hs (by simp)
  | up wal =>
    simp only [Run.crash] at hs
    split at hs
    · rename_i hle
      cases hs
      obtain ⟨before, kept, last, -, -, hkept, hcontent, hnext, -⟩ :=
        (h : Held crc calls (writer wal) (nextOffset wal) (pending wal))
      obtain ⟨hkept', hlog⟩ := hkept.inFlight handles inFlight hlen
      rw [← hnext] at hkept' hlog
      have hsplit := Framing.splits_encodeAll hkept'.framing_valid
      show Stored crc (calls ++ inFlightCall handles (nextOffset wal) inFlight) _
      rw [hcontent, ← hlog]
      exact hkept'.crash hsplit hle
    · exact absurd hs (by simp)

end Versions

/-! ## The steps of the two versions -/

theorem Held.write {w w' : Writer} {nextOffset pending : Nat}
    (h : Held crc calls w nextOffset pending) {data : Bytes} (hlen : data.length < 2 ^ 32)
    (hg : w.Grown w' (record crc data)) (handle : Nat) :
    Held crc (calls ++ [⟨handle, data, nextOffset, false⟩]) w' (nextOffset + 1) (pending + 1) := by
  obtain ⟨before, kept, last, hcalls, hlast, hkept, hcontent, hnext, hfaults⟩ := h
  refine ⟨before, kept, last ++ [⟨handle, data, nextOffset, false⟩], ?_, ?_, ?_, ?_, ?_, hg.faults hfaults⟩
  · rw [hcalls, List.append_assoc]
  · rw [List.length_append, hlast, List.length_singleton]
  · rw [← List.append_assoc, hg.synced]
    exact hkept.attempt hlen hnext rfl
  · rw [← List.append_assoc, hg.content, hcontent, logOf_append crc (kept ++ last), logOf_singleton]
  · rw [← List.append_assoc, hnext]
    simp only [List.length_append, List.length_singleton]

theorem Held.sync {before last : List Call} {w w' : Writer} {nextOffset : Nat}
    (h : Held crc (before ++ last) w nextOffset last.length)
    (hs : w.Synced w') : Held crc (before ++ last.map Call.ack) w' nextOffset 0 := by
  obtain ⟨before', kept, last', hcalls, hlast, hkept, hcontent, hnext, hfaults⟩ := h
  obtain ⟨rfl, rfl⟩ := List.append_inj' hcalls hlast.symm
  have hlog : logOf crc (kept ++ last.map Call.ack) = logOf crc (kept ++ last) := by
    rw [logOf, logOf, List.map_append, List.map_append, map_payload_ack]
  refine ⟨_, kept ++ last.map Call.ack, [], (List.append_nil _).symm, rfl, ?_, ?_, ?_, hs.faults hfaults⟩
  · rw [List.append_nil, hs.synced, hs.bytes, hcontent]
    exact hkept.acknowledge
  · rw [List.append_nil, Writer.content, hs.bytes, hs.buf, List.append_nil, hcontent, hlog]
  · rw [List.append_nil, hnext, List.length_append, List.length_append, List.length_map]

namespace V1

/-- What `append` does to the log: a record, synced; or a front of one, and the offset stays. -/
theorem append_holds (capacity : Nat) (data : Bytes) (wal : Wal) : Holds (Wal.append crc capacity data) wal
      (fun offset wal' => offset = wal.nextOffset ∧ wal'.nextOffset = wal.nextOffset + 1 ∧
        ∃ w, wal.writer.Grown w (record crc data) ∧ w.Synced wal'.writer)
      (fun wal' => wal'.nextOffset = wal.nextOffset ∧ wal.writer.FailedGrowing (record crc data) wal'.writer) := by
  apply Holds.bind
  apply Holds.get
  apply Holds.bind
  apply Holds.onPart
  refine (Writer.writeRecord_holds crc capacity data wal.writer).mono ?_ (fun _ h => ⟨rfl, h⟩)
  intro _ w hw
  have hfail : ∀ w', w.FailedGrowing [] w' → wal.writer.FailedGrowing (record crc data) w' := by
    intro w' h
    have h' := Writer.FailedGrowing.after hw h
    rw [List.append_nil] at h'
    exact h'
  apply Holds.bind
  apply Holds.onPart
  refine (Writer.flushBuf_holds w).mono ?_ (fun _ h => ⟨rfl, hfail _ h⟩)
  intro _ w₁ h₁
  apply Holds.bind
  apply Holds.onPart
  refine (Writer.syncAll_synced h₁.1 h₁.2).mono ?_ (fun _ h => ⟨rfl, hfail _ h⟩)
  intro _ w₂ h₂
  exact ⟨rfl, rfl, w, hw, h₂⟩

/-- The invariant of version one, in which no record is pending between two calls. -/
abbrev Durable (crc : Bytes → BitVec 32) : Run Wal → Prop :=
  WriteAhead.Durable crc Wal.writer Wal.nextOffset fun _ => 0

theorem durable_append {capacity : Nat} {s s' : Run Wal} {data : Bytes}
    (hlen : data.length < 2 ^ 32) (h : Durable crc s)
    (hs : step crc capacity s (.append data []) = some s') : Durable crc s' := by
  obtain ⟨process, handles, calls⟩ := s
  cases process with
  | down disk => exact absurd hs (by simp [step])
  | up wal =>
    have hheld : Held crc calls wal.writer wal.nextOffset 0 := h
    have hw : (wal.withFaults []).writer = wal.writer := by
      obtain ⟨before, kept, last, -, -, -, -, -, hfaults⟩ := hheld
      rw [Wal.withFaults, ← hfaults]
    have hspec := append_holds crc capacity data (wal.withFaults [])
    simp only [step] at hs
    rw [Holds, hw] at hspec
    cases hm : Wal.append crc capacity data (wal.withFaults []) with
    | ok offset wal' =>
      simp only [hm, Option.some.injEq] at hs hspec
      obtain ⟨hoffset, hnext, w, hg, hsynced⟩ := hspec
      subst hs
      have hpending := (hheld.write crc hlen hg handles)
      have hcalls : calls ++ [⟨handles, data, wal.nextOffset, true⟩] =
          calls ++ [Call.mk handles data wal.nextOffset false].map Call.ack := rfl
      show Held crc (calls ++ [⟨handles, data, offset, true⟩]) wal'.writer wal'.nextOffset 0
      rw [hoffset, hnext]
      exact Held.sync crc hpending hsynced
    | error e wal' =>
      simp only [hm] at hspec
      obtain ⟨before, kept, last, -, -, -, -, -, hfaults⟩ := hheld
      exact absurd hfaults hspec.2.1

theorem durable_step {capacity : Nat} {s s' : Run Wal} {op : Op} (hop : op.Plain)
    (h : Durable crc s) (hs : step crc capacity s op = some s') : Durable crc s' := by
  cases op with
  | openPath => exact durable_openWith (fun _ => rfl) (fun _ => rfl) (fun _ => rfl) h hs
  | append data faults =>
    obtain ⟨hlen, rfl⟩ := hop
    exact durable_append crc hlen h hs
  | crash inFlight stored => exact durable_crash hop h hs

end V1

namespace V2

theorem append_holds (capacity : Nat) (data : Bytes) (wal : Wal) : Holds (Wal.append crc capacity data) wal
      (fun offset wal' => offset = wal.nextOffset ∧ wal'.nextOffset = wal.nextOffset + 1 ∧
        wal'.unflushed = wal.unflushed + 1 ∧ wal.writer.Grown wal'.writer (record crc data))
      (fun _ => wal.writer.faults ≠ []) := by
  apply Holds.bind
  apply Holds.get
  apply Holds.bind
  apply Holds.onPart
  refine (Writer.writeRecord_holds crc capacity data wal.writer).mono ?_ (fun _ h => h.1)
  intro _ w hw
  exact ⟨rfl, rfl, rfl, hw⟩

theorem commit_holds (wal : Wal) : Holds Wal.commit wal
      (fun count wal' => count = wal.unflushed ∧ wal'.nextOffset = wal.nextOffset ∧
        wal'.unflushed = 0 ∧ (count = 0 ∧ wal' = wal ∨ wal.writer.Synced wal'.writer))
      (fun _ => wal.writer.faults ≠ []) := by
  apply Holds.bind
  apply Holds.get
  dsimp only
  split
  · rename_i hzero
    exact ⟨hzero.symm, rfl, hzero, .inl ⟨rfl, rfl⟩⟩
  · apply Holds.bind
    apply Holds.onPart
    refine (Writer.flushBuf_holds wal.writer).mono ?_ (fun _ h => h.1)
    intro _ w₁ h₁
    apply Holds.bind
    apply Holds.onPart
    refine (Writer.syncAll_synced h₁.1 h₁.2).mono ?_ (fun _ h => h.1)
    intro _ w₂ h₂
    exact ⟨rfl, rfl, rfl, .inr h₂⟩

/-- The invariant of version two: the last `unflushed` calls are pending. -/
abbrev Durable (crc : Bytes → BitVec 32) : Run Wal → Prop :=
  WriteAhead.Durable crc Wal.writer Wal.nextOffset Wal.unflushed

variable {s s' : Run Wal} {capacity : Nat}

theorem durable_append {data : Bytes} (hlen : data.length < 2 ^ 32) (h : Durable crc s)
    (hs : step crc capacity s (.append data) = some s') : Durable crc s' := by
  obtain ⟨process, handles, calls⟩ := s
  cases process with
  | down disk => exact absurd hs (by simp [step])
  | up wal =>
    have hheld : Held crc calls wal.writer wal.nextOffset wal.unflushed := h
    have hspec := append_holds crc capacity data wal
    simp only [step] at hs
    rw [Holds] at hspec
    cases hm : Wal.append crc capacity data wal with
    | ok offset wal' =>
      simp only [hm, Option.some.injEq] at hs hspec
      obtain ⟨hoffset, hnext, hunflushed, hg⟩ := hspec
      subst hs
      show Held crc (calls ++ [⟨handles, data, offset, false⟩]) wal'.writer wal'.nextOffset
        wal'.unflushed
      rw [hoffset, hnext, hunflushed]
      exact hheld.write crc hlen hg handles
    | error e wal' => exact absurd hs (by simp [hm])

theorem acknowledge_append (before last : List Call) :
    acknowledge last.length (before ++ last) = before ++ last.map Call.ack := by
  have hlen : (before ++ last).length - last.length = before.length := by
    rw [List.length_append, Nat.add_sub_cancel]
  rw [acknowledge, hlen, List.take_left, List.drop_left]
  rfl

theorem durable_commit (h : Durable crc s) (hs : step crc capacity s .commit = some s') : Durable crc s' := by
  obtain ⟨process, handles, calls⟩ := s
  cases process with
  | down disk => exact absurd hs (by simp [step])
  | up wal =>
    have hheld : Held crc calls wal.writer wal.nextOffset wal.unflushed := h
    have hspec := commit_holds wal
    simp only [step] at hs
    rw [Holds] at hspec
    cases hm : Wal.commit wal with
    | ok count wal' =>
      simp only [hm, Option.some.injEq] at hs hspec
      obtain ⟨hcount, hnext, hunflushed, hcase⟩ := hspec
      subst hs
      obtain ⟨before, kept, last, rfl, hlast, -⟩ := id hheld
      show Held crc (acknowledge count (before ++ last)) wal'.writer wal'.nextOffset
        wal'.unflushed
      rw [hcount, ← hlast, acknowledge_append, hnext, hunflushed]
      rw [← hlast] at hheld
      obtain ⟨hzero, rfl⟩ | hsynced := hcase
      · have hnil : last = [] := List.length_eq_zero_iff.1 (by omega)
        subst hnil
        exact hheld
      · exact hheld.sync crc hsynced
    | error e wal' => exact absurd hs (by simp [hm])

theorem durable_step {op : Op} (hop : op.Plain) (h : Durable crc s) (hs : step crc capacity s op = some s') :
    Durable crc s' := by
  cases op with
  | openPath => exact durable_openWith (fun _ => rfl) (fun _ => rfl) (fun _ => rfl) h hs
  | append data => exact durable_append crc hop h hs
  | commit => exact durable_commit crc h hs
  | crash inFlight stored => exact durable_crash hop h hs

end V2

/-! ## Recovery -/

theorem durable_start {W : Type} (writer : W → Writer) (nextOffset pending : W → Nat) :
    Durable crc writer nextOffset pending (.start W) := (rfl : ([] : List Call) = [])

/-- What opening the log returns, given the calls so far, and what it leaves in the file: the records
of some of the calls, among them all acknowledged ones, in the order of the calls, with offsets from
zero on; and a file that ends with the last of them. -/
structure Recovers (calls : List Call) (records : List LogRecord) (bytes : Bytes) : Prop where
  calls : ∃ kept : List Call, kept.Sublist calls ∧
    kept.filter Call.acked = calls.filter Call.acked ∧ records = kept.map Call.record
  offsets : records.map LogRecord.offset = List.range records.length
  truncated : bytes = records.flatMap fun r => record crc r.data

variable {crc}

theorem recovers_of_durable {W : Type} {writer : W → Writer} {nextOffset pending : W → Nat}
    {s : Run W} {disk : Option LogFile} (h : Durable crc writer nextOffset pending s) (hdown : s.process = .down disk) :
    Recovers crc s.calls (openWriter crc disk).2 (openWriter crc disk).1.file.bytes := by
  rw [Durable, hdown] at h
  cases disk with
  | none => exact ⟨⟨[], List.nil_sublist _, by rw [h], rfl⟩, rfl, rfl⟩
  | some file =>
    obtain ⟨w, kept, heq, hkept, hbytes, -, -⟩ := openWriter_spec h
    rw [heq]
    refine ⟨⟨kept, hkept.sublist, hkept.acked, rfl⟩, ?_, ?_⟩
    · rw [List.map_map, List.length_map]
      exact hkept.offsets
    · rw [hbytes, logOf, Framing.encodeAll, List.flatMap_map, List.flatMap_map]
      rfl

/-- **Recovery after any crashes**, for both versions: whenever the process is down, opening the log
returns the acknowledged records of all earlier sessions and some complete unacknowledged ones, and
leaves a file that ends with the last of them. -/
theorem open_recovers (crc : Bytes → BitVec 32) (capacity : Nat) :
    (∀ (s : Run V1.Wal) (disk : Option LogFile),
      ReachableIf (V1.step crc capacity) (fun _ op => op.Plain) (.start V1.Wal) s →
      s.process = .down disk →
      Recovers crc s.calls (V1.Wal.openPath crc disk).2
        (V1.Wal.openPath crc disk).1.writer.file.bytes) ∧
    (∀ (s : Run V2.Wal) (disk : Option LogFile),
      ReachableIf (V2.step crc capacity) (fun _ op => op.Plain) (.start V2.Wal) s →
      s.process = .down disk →
      Recovers crc s.calls (V2.Wal.openPath crc disk).2
        (V2.Wal.openPath crc disk).1.writer.file.bytes) := by
  constructor
  · intro s disk hreach hdown
    have h : V1.Durable crc s := by
      refine hreach.invariant (I := V1.Durable crc) (durable_start crc _ _ _) ?_
      intro s op s' _ h hop hs
      exact V1.durable_step crc hop h hs
    exact recovers_of_durable h hdown
  · intro s disk hreach hdown
    have h : V2.Durable crc s := by
      refine hreach.invariant (I := V2.Durable crc) (durable_start crc _ _ _) ?_
      intro s op s' _ h hop hs
      exact V2.durable_step crc hop h hs
    exact recovers_of_durable h hdown

/-- Two sessions; the first ends in the payload of its second record. -/
def twoSessionsV1 : List V1.Op :=
  [.openPath, .append [1, 2] [], .crash (some [3, 4]) 21, .openPath, .append [5] [], .crash none 21]

/-- Two sessions; the first ends in the header of an uncommitted record. -/
def twoSessionsV2 : List V2.Op :=
  [.openPath, .append [1, 2], .commit, .append [3], .crash none 15, .openPath, .append [5], .commit,
    .crash none 21]

theorem run_twoSessions :
    ((execIf (V1.step crc32 8192) (fun _ op => decide op.Plain) (.start V1.Wal)
      twoSessionsV1).bind fun s => match s.process with
        | .down _ => some s
        | .up _ => none).isSome = true ∧
    ((execIf (V2.step crc32 8192) (fun _ op => decide op.Plain) (.start V2.Wal)
      twoSessionsV2).bind fun s => match s.process with
        | .down _ => some s
        | .up _ => none).isSome = true := by
  decide +kernel

theorem open_recovers_twoSessions :
    (∃ s disk, exec (V1.step crc32 8192) (.start V1.Wal) twoSessionsV1 = some s ∧
      s.process = .down disk ∧ Recovers crc32 s.calls (V1.Wal.openPath crc32 disk).2
        (V1.Wal.openPath crc32 disk).1.writer.file.bytes) ∧
    (∃ s disk, exec (V2.step crc32 8192) (.start V2.Wal) twoSessionsV2 = some s ∧
      s.process = .down disk ∧ Recovers crc32 s.calls (V2.Wal.openPath crc32 disk).2
        (V2.Wal.openPath crc32 disk).1.writer.file.bytes) := by
  obtain ⟨s₁, h₁⟩ := Option.isSome_iff_exists.1 run_twoSessions.1
  obtain ⟨t₁, ht₁, h₁⟩ := Option.bind_eq_some_iff.1 h₁
  obtain ⟨s₂, h₂⟩ := Option.isSome_iff_exists.1 run_twoSessions.2
  obtain ⟨t₂, ht₂, h₂⟩ := Option.bind_eq_some_iff.1 h₂
  have hreach₁ : ReachableIf (V1.step crc32 8192) (fun _ op => op.Plain) (.start V1.Wal) t₁ :=
    ReachableIf.execIf (fun _ _ h => of_decide_eq_true h) .init ht₁
  have hreach₂ : ReachableIf (V2.step crc32 8192) (fun _ op => op.Plain) (.start V2.Wal) t₂ :=
    ReachableIf.execIf (fun _ _ h => of_decide_eq_true h) .init ht₂
  constructor
  · split at h₁
    · rename_i disk hdown
      exact ⟨t₁, disk, execIf_exec ht₁, hdown, (open_recovers crc32 8192).1 t₁ disk hreach₁ hdown⟩
    · exact absurd h₁ (by simp)
  · split at h₂
    · rename_i disk hdown
      exact ⟨t₂, disk, execIf_exec ht₂, hdown, (open_recovers crc32 8192).2 t₂ disk hreach₂ hdown⟩
    · exact absurd h₂ (by simp)

end SystemDesignLabs.WriteAhead
