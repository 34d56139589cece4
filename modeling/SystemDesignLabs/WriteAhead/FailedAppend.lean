import SystemDesignLabs.WriteAhead.Durability

/-!
# Appends that fail

An append of version one can fail in a write, in the flush or in the sync. The bytes it left stay in
the file and in the buffer, but `next_offset` does not move, and only opening the log again cuts them
off. So an acknowledged record is found at its offset when no append before it on the same open log
failed (`append_recovers`), and is lost or shifted otherwise (`syncFailure_shifts`). A payload of
`2 ^ 32` bytes or more does the same, since its length is stored truncated.
-/

namespace SystemDesignLabs.WriteAhead.V1

open Core

/-- The call was acknowledged and its length fits the header. -/
def Call.Fine (c : Call) : Prop := c.acked = true ∧ c.payload.length < 2 ^ 32

/-- The call is fine, and so is every earlier one on the same open log. -/
def Undisturbed (earlier : List Call) (c : Call) : Prop :=
  Call.Fine c ∧ ∀ b ∈ earlier, b.handle = c.handle → Call.Fine b

variable (crc : Bytes → BitVec 32)

/-- The file begins with a stored log that has the undisturbed records at their offsets. -/
structure Anchored (calls : List Call) (file : LogFile) (log : List Bytes) : Prop where
  valid : ∀ data ∈ log, data.length < 2 ^ 32
  front : (framing crc).encodeAll log <+: file.bytes
  stored : ((framing crc).encodeAll log).length ≤ file.synced
  found : ∀ earlier c later, calls = earlier ++ c :: later → Undisturbed earlier c →
    log[c.offset]? = some c.payload

/-- While all calls on the open log are fine, the file is a log whose length is the next offset. -/
def InStep (s : Run Wal) (wal : Wal) (log : List Bytes) : Prop :=
  (∀ c ∈ s.calls, c.handle = s.handles → Call.Fine c) → ∃ more : List Bytes,
    (∀ data ∈ more, data.length < 2 ^ 32) ∧
    wal.writer.content = (framing crc).encodeAll (log ++ more) ∧
    wal.nextOffset = (log ++ more).length

/-- The invariant of all runs of version one, with any failures. -/
structure Safe (s : Run Wal) : Prop where
  handles : ∀ c ∈ s.calls, c.handle ≤ s.handles
  process : match s.process with
    | .down none => s.calls = []
    | .down (some file) => ∃ log, Anchored crc s.calls file log
    | .up wal => ∃ log, Anchored crc s.calls wal.writer.file log ∧ InStep crc s wal log

variable {crc}

theorem split_concat {α : Type} {xs earlier later : List α} {x y : α} (h : xs ++ [x] = earlier ++ y :: later) :
    (earlier = xs ∧ y = x) ∨ ∃ later', xs = earlier ++ y :: later' := by
  rcases List.eq_nil_or_concat later with rfl | ⟨later', z, rfl⟩
  · obtain ⟨hxs, hx⟩ := List.append_inj' h rfl
    rw [List.cons.injEq] at hx
    exact .inl ⟨hxs.symm, hx.1.symm⟩
  · rw [List.concat_eq_append, ← List.cons_append, ← List.append_assoc] at h
    exact .inr ⟨later', (List.append_inj' h rfl).1⟩

variable {calls : List Call} {log : List Bytes}

theorem Anchored.extend {file file' : LogFile} (h : Anchored crc calls file log)
    (hbytes : file.bytes <+: file'.bytes) (hsynced : file.synced ≤ file'.synced) : Anchored crc calls file' log :=
  ⟨h.valid, h.front.trans hbytes, h.stored.trans hsynced, h.found⟩

theorem Anchored.call {file file' : LogFile} {log' : List Bytes} {c : Call}
    (h : Anchored crc calls file log) (hlog : log <+: log') (hvalid : ∀ data ∈ log', data.length < 2 ^ 32)
    (hfront : (framing crc).encodeAll log' <+: file'.bytes)
    (hstored : ((framing crc).encodeAll log').length ≤ file'.synced)
    (hc : Undisturbed calls c → log'[c.offset]? = some c.payload) : Anchored crc (calls ++ [c]) file' log' := by
  refine ⟨hvalid, hfront, hstored, ?_⟩
  intro earlier d later hcalls hd
  obtain ⟨rfl, rfl⟩ | ⟨later', hbefore⟩ := split_concat hcalls
  · exact hc hd
  · have hfound := h.found earlier d later' hbefore hd
    obtain ⟨hi, -⟩ := List.getElem?_eq_some_iff.1 hfound
    obtain ⟨more, rfl⟩ := hlog
    rw [List.getElem?_append_left hi]
    exact hfound

theorem Anchored.disturbed {file : LogFile} {c : Call} (h : Anchored crc calls file log) (hc : ¬ Undisturbed calls c) :
    Anchored crc (calls ++ [c]) file log :=
  h.call (List.prefix_refl log) h.valid h.front h.stored fun hc' => absurd hc' hc

theorem inStep_of_not_fine {s : Run Wal} {wal : Wal} {c : Call} (hc : c ∈ s.calls)
    (hhandle : c.handle = s.handles) (hfine : ¬ Call.Fine c) :
    InStep crc s wal log := fun h => absurd (h c hc hhandle) hfine

/-! ## The steps -/

variable {s s' : Run Wal} {capacity : Nat}

theorem safe_openPath (h : Safe crc s) (hs : step crc capacity s .openPath = some s') : Safe crc s' := by
  obtain ⟨process, handles, calls⟩ := s
  cases process with
  | up wal => exact absurd hs (by simp [step, Run.openWith])
  | down disk =>
    cases hs
    refine ⟨fun c hc => (h.handles c hc).trans (Nat.le_succ _), ?_⟩
    cases disk with
    | none =>
      have hcalls : calls = [] := h.process
      subst hcalls
      refine ⟨[], ⟨fun _ hd => absurd hd List.not_mem_nil, List.nil_prefix, Nat.zero_le _, ?_⟩, ?_⟩
      · intro earlier c later hcalls
        exact absurd hcalls.symm (by simp)
      · intro _
        exact ⟨[], fun _ hd => absurd hd List.not_mem_nil, rfl, rfl⟩
    | some file =>
      obtain ⟨log, hlog⟩ := h.process
      obtain ⟨payloads, rest, hsplit⟩ := (framing crc).exists_splits file.bytes
      obtain ⟨file', heq, hbytes, hsynced⟩ := recoverAndTruncate_spec crc file hsplit
      obtain ⟨t, ht⟩ := hlog.front
      obtain ⟨more, rfl⟩ := hsplit.front hlog.valid ht.symm
      have hwal : (Wal.openPath crc (some file)).1 = ⟨⟨file', [], []⟩, (log ++ more).length⟩ := by
        rw [Wal.openPath, openWriter, heq]
        dsimp only
        rw [length_numbered]
      have hfront : (framing crc).encodeAll log <+: file'.bytes := by
        rw [hbytes, Framing.encodeAll_append]
        exact List.prefix_append _ _
      have hstored : ((framing crc).encodeAll log).length ≤ file'.synced := by
        refine (le_min hlog.stored ?_).trans hsynced
        rw [← hbytes]
        exact hfront.length_le
      dsimp only
      rw [hwal]
      refine ⟨log, ⟨hlog.valid, hfront, hstored, hlog.found⟩, ?_⟩
      intro _
      refine ⟨more, fun d hd => hsplit.valid d (List.mem_append_right _ hd), ?_, rfl⟩
      rw [Writer.content, hbytes, List.append_nil]

theorem Anchored.crash {file : LogFile} {stored : Nat} (h : Anchored crc calls file log) (tail : Bytes)
    (hle : file.synced ≤ stored) : Anchored crc calls ⟨(file.bytes ++ tail).take stored, file.synced⟩ log := by
  refine ⟨h.valid, ?_, h.stored, h.found⟩
  have hpre : (framing crc).encodeAll log <+: file.bytes ++ tail :=
    h.front.trans (List.prefix_append _ _)
  rw [List.prefix_iff_eq_take.1 hpre]
  exact List.take_prefix_take_left (h.stored.trans hle)

theorem safe_crash {inFlight : Option Bytes} {stored : Nat} (h : Safe crc s)
    (hs : s.crash crc Wal.writer Wal.nextOffset inFlight stored = some s') : Safe crc s' := by
  obtain ⟨process, handles, calls⟩ := s
  cases process with
  | down disk =>
    cases disk with
    | none =>
      cases hs
      exact h
    | some file =>
      simp only [Run.crash] at hs
      split at hs
      · rename_i hle
        cases hs
        obtain ⟨log, hlog⟩ := h.process
        have hcrash := hlog.crash [] hle
        rw [List.append_nil] at hcrash
        exact ⟨h.handles, log, hcrash⟩
      · exact absurd hs (by simp)
  | up wal =>
    simp only [Run.crash] at hs
    split at hs
    · rename_i hle
      cases hs
      obtain ⟨log, hlog, -⟩ := h.process
      have hcrash := hlog.crash (wal.writer.buf ++ inFlightBytes crc inFlight) hle
      rw [← List.append_assoc] at hcrash
      cases inFlight with
      | none =>
        refine ⟨?_, log, ?_⟩
        · simp only [inFlightCall, List.append_nil]
          exact h.handles
        · simp only [inFlightCall, List.append_nil]
          exact hcrash
      | some data =>
        refine ⟨?_, log, hcrash.disturbed fun hc => Bool.false_ne_true hc.1.1⟩
        intro c hc
        obtain hc | hc := List.mem_append.1 hc
        · exact h.handles c hc
        · rw [List.mem_singleton.1 hc]
    · exact absurd hs (by simp)

theorem safe_append {data : Bytes} {faults : List (Option Nat)} (h : Safe crc s)
    (hs : step crc capacity s (.append data faults) = some s') : Safe crc s' := by
  obtain ⟨process, handles, calls⟩ := s
  cases process with
  | down disk => exact absurd hs (by simp [step])
  | up wal =>
    obtain ⟨log, hlog, hinstep⟩ := h.process
    have hhandles : ∀ (offset : Nat) (acked : Bool),
        ∀ c ∈ calls ++ [⟨handles, data, offset, acked⟩], c.handle ≤ handles := by
      intro offset acked c hc
      obtain hc | hc := List.mem_append.1 hc
      · exact h.handles c hc
      · rw [List.mem_singleton.1 hc]
    have hspec := append_holds crc capacity data (wal.withFaults faults)
    simp only [step] at hs
    rw [Holds] at hspec
    cases hm : Wal.append crc capacity data (wal.withFaults faults) with
    | error e wal' =>
      simp only [hm, Option.some.injEq] at hs hspec
      obtain ⟨-, -, front, -, hg⟩ := hspec
      subst hs
      have hlog' := hlog.extend hg.file (hg.synced.symm.le : wal.writer.file.synced ≤ _)
      have hnot : ¬ Call.Fine ⟨handles, data, wal.nextOffset, false⟩ :=
        fun hc => Bool.false_ne_true hc.1
      refine ⟨hhandles _ _, log, hlog'.disturbed fun hc => hnot hc.1, ?_⟩
      exact inStep_of_not_fine (List.mem_append_right _ (List.mem_singleton_self _)) rfl hnot
    | ok offset wal' =>
      simp only [hm, Option.some.injEq] at hs hspec
      obtain ⟨hoffset, hnext, w, hg, hsynced⟩ := hspec
      subst hs
      have hbytes : wal'.writer.file.bytes = wal.writer.content ++ record crc data :=
        hsynced.bytes.trans hg.content
      have hsynced' : wal'.writer.file.synced = wal'.writer.file.bytes.length := hsynced.synced
      have hfront : (framing crc).encodeAll log <+: wal'.writer.file.bytes := by
        rw [hbytes, Writer.content, List.append_assoc]
        exact hlog.front.trans (List.prefix_append _ _)
      refine ⟨hhandles _ _, ?_⟩
      by_cases hclean : (∀ c ∈ calls, c.handle = handles → Call.Fine c) ∧ data.length < 2 ^ 32
      · -- the record lands at the end of a whole log
        obtain ⟨more, hmore, hcontent, hoff⟩ := hinstep hclean.1
        have hall : (framing crc).encodeAll (log ++ (more ++ [data])) =
            wal'.writer.file.bytes := by
          rw [hbytes, hcontent, ← List.append_assoc, Framing.encodeAll_append _ _ [data]]
          exact congrArg _ (List.append_nil _)
        have hvalid : ∀ d ∈ log ++ (more ++ [data]), d.length < 2 ^ 32 := by
          intro d hd
          simp only [List.mem_append, List.mem_singleton] at hd
          obtain hd | hd | rfl := hd
          · exact hlog.valid d hd
          · exact hmore d hd
          · exact hclean.2
        refine ⟨log ++ (more ++ [data]), ?_, ?_⟩
        · refine hlog.call (List.prefix_append _ _) hvalid ?_ ?_ ?_
          · rw [hall]
          · rw [hall]
            exact hsynced'.ge
          · intro _
            show (log ++ (more ++ [data]))[offset]? = some data
            rw [hoffset, ← List.append_assoc]
            show ((log ++ more) ++ [data])[wal.nextOffset]? = some data
            rw [hoff]
            exact List.getElem?_concat_length
        · intro _
          refine ⟨[], fun _ hd => absurd hd List.not_mem_nil, ?_, ?_⟩
          · rw [List.append_nil, hall, Writer.content, hsynced.buf, List.append_nil]
          · rw [List.append_nil, hnext, ← List.append_assoc, List.length_append, List.length_singleton, ← hoff]
            rfl
      · refine ⟨log, hlog.call (List.prefix_refl _) hlog.valid hfront ?_ ?_, ?_⟩
        · rw [hsynced']
          exact hfront.length_le
        · intro hc
          exact absurd ⟨hc.2, hc.1.2⟩ hclean
        · intro hfine
          refine absurd ⟨fun c hc => hfine c (List.mem_append_left _ hc), ?_⟩ hclean
          exact (hfine _ (List.mem_append_right _ (List.mem_singleton_self _)) rfl).2

theorem safe_step {op : Op} (h : Safe crc s) (hs : step crc capacity s op = some s') : Safe crc s' := by
  cases op with
  | openPath => exact safe_openPath h hs
  | append data faults => exact safe_append h hs
  | crash inFlight stored => exact safe_crash h hs

/-! ## Recovery after failures -/

variable (crc)

/-- **An acknowledged record is recovered at its offset** by every later `open`, when it and all
earlier calls on the same open log were acknowledged and have payloads shorter than `2 ^ 32` bytes;
whatever fails later, or on another open log. -/
theorem append_recovers (capacity : Nat) {s : Run Wal} {disk : Option LogFile}
    (hreach : Reachable (step crc capacity) (.start Wal) s) (hdown : s.process = .down disk)
    {earlier later : List Call} {c : Call} (hcalls : s.calls = earlier ++ c :: later)
    (hc : Undisturbed earlier c) : c.record ∈ (Wal.openPath crc disk).2 := by
  have hsafe : Safe crc s := by
    refine hreach.invariant (I := Safe crc) ⟨fun _ hc => absurd hc List.not_mem_nil, rfl⟩ ?_
    intro s op s' _ h _ hs
    exact safe_step h hs
  have hprocess := hsafe.process
  rw [hdown] at hprocess
  cases disk with
  | none =>
    rw [hprocess] at hcalls
    exact absurd hcalls.symm (by simp)
  | some file =>
    obtain ⟨log, hlog⟩ := hprocess
    obtain ⟨payloads, rest, hsplit⟩ := (framing crc).exists_splits file.bytes
    obtain ⟨file', heq, -, -⟩ := recoverAndTruncate_spec crc file hsplit
    obtain ⟨t, ht⟩ := hlog.front
    obtain ⟨more, rfl⟩ := hsplit.front hlog.valid ht.symm
    have hfound := hlog.found earlier c later hcalls hc
    obtain ⟨hi, -⟩ := List.getElem?_eq_some_iff.1 hfound
    show c.record ∈ (openWriter crc (some file)).2
    rw [openWriter, heq]
    apply List.mem_of_getElem? (i := c.offset)
    rw [numbered, List.getElem?_mapIdx, List.getElem?_append_left hi, hfound, Option.map_some, Nat.zero_add]
    rfl

/-- The disk and the calls when the process is down. -/
def downState (s : Run Wal) : Option (Option LogFile × List Call) :=
  match s.process with
  | .down disk => some (disk, s.calls)
  | .up _ => none

theorem process_of_downState {disk : Option LogFile} (h : downState s = some (disk, calls)) :
    s.process = .down disk ∧ s.calls = calls := by
  rw [downState] at h
  split at h
  · rename_i disk' hdown
    rw [Option.some.injEq, Prod.mk.injEq] at h
    exact ⟨hdown.trans (congrArg _ h.1), h.2⟩
  · exact absurd h (by simp)

/-- A record, and a failed append after it. -/
theorem append_recovers_beforeFailure : ∃ s disk, exec (step crc32 8192) (.start Wal)
    [.openPath, .append [1] [], .append [2] [none, some 0], .append [3] [], .crash none 40] = some s ∧
      s.process = .down disk ∧ (⟨0, [1]⟩ : LogRecord) ∈ (Wal.openPath crc32 disk).2 := by
  have hrun : (((exec (step crc32 8192) (.start Wal) [.openPath, .append [1] [],
      .append [2] [none, some 0], .append [3] [], .crash none 40]).bind downState).map Prod.snd) =
        some [⟨1, [1], 0, true⟩, ⟨1, [2], 1, false⟩, ⟨1, [3], 1, true⟩] := by rfl
  obtain ⟨⟨disk, calls⟩, hdown, hcalls⟩ := Option.map_eq_some_iff.1 hrun
  obtain ⟨s, hs, hdown⟩ := Option.bind_eq_some_iff.1 hdown
  obtain ⟨hprocess, hcalls'⟩ := process_of_downState hdown
  have hsplit : s.calls = [] ++ ⟨1, [1], 0, true⟩ ::
      [⟨1, [2], 1, false⟩, ⟨1, [3], 1, true⟩] := hcalls'.trans hcalls
  have hc : Undisturbed [] ⟨1, [1], 0, true⟩ :=
    ⟨⟨rfl, by decide⟩, fun _ hb => absurd hb List.not_mem_nil⟩
  exact ⟨s, disk, hs, hprocess, append_recovers crc32 8192 (reachable_of_exec hs) hprocess hsplit hc⟩

/-- A sync fails and the next append succeeds with the same offset: its record is not recovered
there. -/
theorem syncFailure_shifts : ∃ s disk c, exec (step crc32 8192) (.start Wal)
    [.openPath, .append [1] [none, some 0], .append [2] [], .crash none 40] = some s ∧
      s.process = .down disk ∧ c ∈ s.calls ∧ c.acked = true ∧ c.payload.length < 2 ^ 32 ∧
        (Wal.openPath crc32 disk).2 = [⟨0, [1]⟩, ⟨1, [2]⟩] ∧ c.record = ⟨0, [2]⟩ ∧
          c.record ∉ (Wal.openPath crc32 disk).2 := by
  have hrun : ((exec (step crc32 8192) (.start Wal) [.openPath, .append [1] [none, some 0],
      .append [2] [], .crash none 40]).bind downState).map
        (fun p => ((Wal.openPath crc32 p.1).2, p.2)) =
      some ([⟨0, [1]⟩, ⟨1, [2]⟩], [⟨1, [1], 0, false⟩, ⟨1, [2], 0, true⟩]) := by rfl
  obtain ⟨⟨disk, calls⟩, hdown, hfields⟩ := Option.map_eq_some_iff.1 hrun
  obtain ⟨s, hs, hdown⟩ := Option.bind_eq_some_iff.1 hdown
  obtain ⟨hprocess, hcalls⟩ := process_of_downState hdown
  obtain ⟨hrecords, rfl⟩ := Prod.mk.inj hfields
  refine ⟨s, disk, ⟨1, [2], 0, true⟩, hs, hprocess, ?_, rfl, by decide, hrecords, rfl, ?_⟩
  · rw [hcalls]
    exact List.mem_cons_of_mem _ (List.mem_singleton_self _)
  · rw [hrecords]
    decide

end SystemDesignLabs.WriteAhead.V1
