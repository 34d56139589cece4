import SystemDesignLabs.Kafka.Contents

/-!
# What `append` does to the contents

`append` either leaves the contents of a partition as they are or adds the payload at the end, where the offset
it returns points (`append_spec`). This holds also when writes fail, as long as no failure leaves a record behind
that the counters do not count: a log write that fails after its last byte, or an index write that fails after the
log write.
-/

namespace SystemDesignLabs.Kafka

open List Core Record Segment

/-- Failures after which the counters still tell what the files hold. -/
structure Faults.Harmless (faults : Faults) : Prop where
  logWrite : faults.logWrite ≠ some .allBytes
  indexWrite : faults.indexWrite = Option.none

instance (faults : Faults) : Decidable faults.Harmless :=
  decidable_of_iff (faults.logWrite ≠ some .allBytes ∧ faults.indexWrite = Option.none)
    ⟨fun h => ⟨h.1, h.2⟩, fun h => ⟨h.1, h.2⟩⟩

theorem Faults.harmless_none : Faults.none.Harmless := by decide

/-! ### A record more -/

/-- The segment after a record has been written. -/
def Segment.add (s : Segment) (payload : Bytes) (pending : Nat) (index : Bytes) : Segment where
  info :=
    { s.info with
      logSize := s.info.logSize + (12 + payload.length)
      msgCount := s.info.msgCount + 1
      pending := pending }
  payloads := s.payloads ++ [payload]
  junk := []
  index := index

section Add

variable {ahead : Bool} {s : Segment} {payload index : Bytes} {pending : Nat}

theorem Segment.records_add : (s.add payload pending index).records =
      s.records ++ [⟨s.info.baseOffset + s.payloads.length, payload⟩] :=
  recordsFrom_append s.info.baseOffset s.payloads [payload]

theorem Segment.log_add (h : s.junk = []) : (s.add payload pending index).log =
      s.log ++ Record.encode ⟨s.info.baseOffset + s.payloads.length, payload⟩ := by
  rw [log, log, records_add, h, Framing.encodeAll_append, Framing.encodeAll_cons, Framing.encodeAll_nil]
  show _ ++ (encode _ ++ []) ++ [] = _
  simp only [append_nil]

theorem Segment.position_length : s.position s.payloads.length = (recordFraming.encodeAll s.records).length := by
  rw [position, take_of_length_le]
  rw [records, length_recordsFrom]

theorem Segment.Entry.add {rel pos : Nat} (h : s.Entry ahead rel pos) :
    (s.add payload pending index).Entry ahead rel pos := by
  obtain ⟨hrel, hpos⟩ := h
  refine ⟨?_, ?_⟩
  · show rel < (s.payloads ++ [payload]).length + _
    rw [length_append]
    omega
  · have hle := ahead.toNat_le
    rw [hpos, position, position, records_add, take_append_of_le_length]
    rw [records, length_recordsFrom]
    omega

theorem Segment.Sound.add (h : s.Sound ahead) (hjunk : s.junk = []) (hlog : s.info.logSize < 2 ^ 32)
    (hpayload : payload.length < 2 ^ 32) (hoffset : s.info.baseOffset + s.payloads.length < 2 ^ 63)
    (hindex : index = s.index ∨ index = s.index ++ encodeIndexEntry s.payloads.length s.info.logSize) :
    (s.add payload pending index).Sound ahead := by
  have hsize : s.info.logSize = (recordFraming.encodeAll s.records).length := by
    rw [h.logSize, log, hjunk, append_nil]
  have hcount : 12 * s.payloads.length ≤ s.info.logSize := by
    have hmul := twelve_mul_le s.records
    rwa [records, length_recordsFrom, ← records, ← hsize] at hmul
  have hmono : IndexOf ((s.add payload pending index).Entry ahead) s.index :=
    h.index.mono fun _ _ hentry => hentry.add
  refine ⟨?_, ?_, ?_, ?_, Nat.zero_lt_succ _, ?_, ?_⟩
  · show s.info.msgCount + 1 = (s.payloads ++ [payload]).length
    rw [h.msgCount, length_append]
    rfl
  · rw [log_add hjunk, length_append, ← h.logSize, length_encode]
    rfl
  · intro r hr
    rw [records_add] at hr
    rcases mem_append.1 hr with hr | hr
    · exact h.offset_lt r hr
    · exact mem_singleton.1 hr ▸ hoffset
  · intro r hr
    rw [records_add] at hr
    rcases mem_append.1 hr with hr | hr
    · exact h.payload_lt r hr
    · exact mem_singleton.1 hr ▸ hpayload
  · show (s.payloads ++ [payload]).length < 2 ^ 31
    rw [length_append, length_singleton]
    omega
  · rcases hindex with rfl | rfl
    · exact hmono
    · refine hmono.append (by omega) hlog ?_
      refine ⟨?_, ?_⟩
      · show s.payloads.length < (s.payloads ++ [payload]).length + _
        rw [length_append, length_singleton]
        omega
      · have hpos : s.position s.payloads.length =
            (s.add payload pending (s.index ++ encodeIndexEntry s.payloads.length s.info.logSize)).position
              s.payloads.length := by
          rw [position, position, records_add, take_append_of_le_length]
          rw [records, length_recordsFrom]
        rw [← hpos, position_length, hsize]

end Add

/-! ### The steps of `append` -/

variable {ahead : Bool} {limit : Nat} {p : Partition} {ss : List Segment} {s : Segment} {log : List Bytes}

variable {payload : Bytes}

theorem Holds.add (h : Holds ahead limit p ss s log) (hjunk : s.junk = []) (hlog : s.info.logSize < 2 ^ 32)
    (hpayload : payload.length < 2 ^ 32) (hoffset : log.length < 2 ^ 63) (pending : Nat) {index : Bytes}
    (hindex : index = s.index ∨ index = s.index ++ encodeIndexEntry s.payloads.length s.info.logSize) {d : Directory}
    (hd : d.entries = ss.map (fun s => (s.info.baseOffset, s.files)) ++ [(s.info.baseOffset, (s.add payload pending index).files)]) :
    Holds ahead limit ⟨d, p.sealed, (s.add payload pending index).info, p.nextOff + 1⟩ ss
      (s.add payload pending index) (log ++ [payload]) := by
  have hchain := consecutive_append.1 h.consecutive
  have hsound : (s.add payload pending index).Sound ahead :=
    h.sound.add hjunk hlog hpayload (h.length ▸ hoffset) hindex
  refine ⟨?_, h.sealed, rfl, ?_, Or.inl rfl, ?_, ?_⟩
  · rw [map_append]
    exact hd
  · exact consecutive_append.2 ⟨hchain.1, hchain.2.1, hsound, trivial⟩
  · have hone : payloadsOf [s.add payload pending index] = payloadsOf [s] ++ [payload] := by
      rw [payloadsOf_cons, payloadsOf_cons, payloadsOf_nil, append_nil, append_nil]
      rfl
    rw [h.content, payloadsOf_append, payloadsOf_append, append_assoc, hone]
  · show p.nextOff + 1 = _
    rw [h.nextOff, length_append]
    rfl

theorem Partition.advance_spec (p : Partition) (faults : Faults) : ∃ pending, (p.advance faults).1 =
        ⟨p.dir, p.sealed, { p.active with msgCount := p.active.msgCount + 1, pending := pending }, p.nextOff + 1⟩ ∧
      ((p.advance faults).2 = .ok p.nextOff ∨ ((p.advance faults).2 = .error .fsync ∧ faults.sync = true)) := by
  rw [Partition.advance]
  dsimp only
  split
  · split
    · rename_i hsync
      exact ⟨_, rfl, Or.inr ⟨rfl, hsync⟩⟩
    · exact ⟨_, rfl, Or.inl rfl⟩
  · exact ⟨_, rfl, Or.inl rfl⟩

/-- What a call of `append` does to a partition that holds `log`. -/
inductive Appended (ahead : Bool) (limit : Nat) (log : List Bytes) (payload : Bytes) :
    Partition × Except AppendError Nat → Prop
  | unchanged {p : Partition} (e : AppendError) : Contents ahead limit p log →
      Appended ahead limit log payload (p, .error e)
  | unsynced {p : Partition} : Contents ahead limit p (log ++ [payload]) →
      Appended ahead limit log payload (p, .error .fsync)
  | done {p : Partition} : Contents ahead limit p (log ++ [payload]) →
      Appended ahead limit log payload (p, .ok log.length)

theorem Holds.advance (h : Holds ahead limit p ss s log) (hjunk : s.junk = [])
    (hlog : s.info.logSize < 2 ^ 32) (hpayload : payload.length < 2 ^ 32) (hoffset : log.length < 2 ^ 63)
    {index : Bytes} (hindex : index = s.index ∨ index = s.index ++ encodeIndexEntry s.payloads.length s.info.logSize)
    {d : Directory}
    (hd : d.entries = ss.map (fun s => (s.info.baseOffset, s.files)) ++ [(s.info.baseOffset, ⟨s.log ++ Record.encode ⟨p.nextOff, payload⟩, index⟩)])
    (faults : Faults) : Appended ahead limit log payload (Partition.advance ⟨d, p.sealed,
        { p.active with logSize := p.active.logSize + (12 + payload.length) }, p.nextOff⟩ faults) := by
  obtain ⟨pending, hstate, hresult⟩ := Partition.advance_spec ⟨d, p.sealed,
    { p.active with logSize := p.active.logSize + (12 + payload.length) }, p.nextOff⟩ faults
  have hfiles : (s.add payload pending index).files =
      ⟨s.log ++ encode ⟨p.nextOff, payload⟩, index⟩ := by
    rw [files, log_add hjunk, h.nextOff, h.length]
    rfl
  have hholds := h.add hjunk hlog hpayload hoffset pending hindex (hfiles ▸ hd)
  rw [h.active] at hstate hresult ⊢
  generalize Partition.advance _ faults = result at hstate hresult ⊢
  obtain ⟨p', r⟩ := result
  dsimp only at hstate hresult
  have hcontents : Contents ahead limit p' (log ++ [payload]) := by
    rw [hstate]
    exact ⟨ss, _, hholds⟩
  rcases hresult with hok | ⟨herr, -⟩
  · rw [hok, h.nextOff]
    exact .done hcontents
  · rw [herr]
    exact .unsynced hcontents

variable {faults : Faults}

theorem Holds.appendRecord (h : Holds ahead limit p ss s log) (hjunk : s.junk = [])
    (hlog : s.info.logSize < 2 ^ 32) (hpayload : payload.length < 2 ^ 32) (hoffset : log.length < 2 ^ 63)
    (hfaults : faults.Harmless) : Appended ahead limit log payload (p.appendRecord faults payload) := by
  have hentries : p.dir.entries = ss.map (fun s => (s.info.baseOffset, s.files)) ++
      [(s.info.baseOffset, s.files)] := by
    rw [h.dir, map_append]
    rfl
  have hlength : (encode ⟨p.nextOff, payload⟩).length = 12 + payload.length :=
    length_encode _
  rw [Partition.appendRecord]
  cases hwrite : faults.logWrite with
  | some fault =>
    cases fault with
    | noBytes => exact .unchanged _ ⟨ss, s, h⟩
    | allBytes => exact absurd hwrite hfaults.logWrite
  | none =>
    dsimp only
    rw [hlength, hfaults.indexWrite]
    have hwritten := SortedMap.entries_adjust_last hentries fun files =>
      { files with log := files.log ++ encode ⟨p.nextOff, payload⟩ }
    split
    · have hrel : p.nextOff - p.active.baseOffset = s.payloads.length := by
        rw [h.nextOff, h.length, h.active, Nat.add_sub_cancel_left]
      have hindexed := SortedMap.entries_adjust_last hwritten fun files =>
        { files with
          index := files.index ++ encodeIndexEntry s.payloads.length s.info.logSize }
      refine h.advance hjunk hlog hpayload hoffset (Or.inr rfl) ?_ faults
      rw [hrel, h.active]
      exact hindexed
    · refine h.advance hjunk hlog hpayload hoffset (Or.inl rfl) ?_ faults
      rw [h.active]
      exact hwritten

/-- The segment that `rotate` opens. -/
def Segment.fresh (base : Nat) : Segment := ⟨⟨base, 0, 0, 0⟩, [], [], []⟩

theorem Segment.sound_fresh (ahead : Bool) (base : Nat) : (Segment.fresh base).Sound ahead :=
  ⟨rfl, rfl, fun _ hr => absurd hr not_mem_nil, fun _ hr => absurd hr not_mem_nil,
    Nat.zero_lt_succ _, Nat.two_pow_pos 31, IndexOf.nil _⟩

theorem Holds.rotate (h : Holds ahead limit p ss s log) (hne : s.payloads ≠ []) {p' : Partition}
    (hp : p.rotate faults = some p') : Holds ahead limit p' (ss ++ [s]) (Segment.fresh log.length) log := by
  have hbelow : ∀ e ∈ p.dir.entries, e.1 < log.length := by
    have hsorted := p.dir.sorted
    have hlt : s.info.baseOffset < log.length := by
      have hpos := length_pos_of_ne_nil hne
      have hlength := h.length
      omega
    rw [h.dir, map_append] at hsorted
    intro e he
    rw [h.dir, map_append] at he
    rcases mem_append.1 he with he | he
    · exact ((pairwise_append.1 hsorted).2.2 e he _ mem_cons_self).trans hlt
    · exact mem_singleton.1 he ▸ hlt
  have hget : p.dir.get log.length = none :=
    SortedList.find_eq_none.2 fun e he => (hbelow e he).ne
  have hopen : openSegment p.dir p.nextOff true =
      (p.dir.insert log.length ⟨[], []⟩, (fresh log.length).info) := by
    rw [h.nextOff, openSegment, hget]
    rfl
  rw [Partition.rotate] at hp
  split at hp
  · exact absurd hp (by simp)
  · obtain rfl := Option.some.inj hp
    rw [hopen]
    refine ⟨?_, ?_, rfl, ?_, Or.inl rfl, ?_, h.nextOff⟩
    · show (p.dir.insert log.length ⟨[], []⟩).entries = _
      rw [SortedMap.entries_insert_above hbelow, map_append, h.dir]
      rfl
    · show p.sealed ++ [p.active] = _
      rw [h.sealed, h.active, map_append]
      rfl
    · refine consecutive_append.2 ⟨h.consecutive, ?_, sound_fresh _ _, trivial⟩
      show log.length = _
      rw [h.content, Nat.zero_add]
    · rw [payloadsOf_append, ← h.content]
      exact (append_nil log).symm

/-- What `append` does. The record must start below `2 ^ 32` in its segment, because an index entry
holds the position in four bytes. -/
theorem append_spec (hlimit : 0 < limit) (h : Contents ahead limit p log)
    (hstart : limit ≤ p.active.logSize ∨ p.active.logSize < 2 ^ 32) (hpayload : payload.length < 2 ^ 32)
    (hoffset : log.length < 2 ^ 63) (hfaults : faults.Harmless) :
    Appended ahead limit log payload (p.append limit faults payload) := by
  obtain ⟨ss, s, h⟩ := h
  rw [Partition.append]
  by_cases hfull : limit ≤ p.active.logSize
  · rw [if_pos hfull]
    have hne : s.payloads ≠ [] := by
      rcases h.room with hjunk | ⟨-, hne⟩
      · intro hempty
        have hzero : s.info.logSize = 0 := by
          rw [h.sound.logSize, Segment.log, Segment.records, hjunk, hempty]
          rfl
        rw [h.active, hzero] at hfull
        omega
      · exact hne
    cases hrotate : p.rotate faults with
    | none => exact .unchanged _ ⟨ss, s, h⟩
    | some p' =>
      exact (h.rotate hne hrotate).appendRecord rfl (Nat.two_pow_pos 32) hpayload hoffset hfaults
  · rw [if_neg hfull]
    have hjunk : s.junk = [] := by
      rcases h.room with hjunk | ⟨hle, -⟩
      · exact hjunk
      · rw [h.active] at hfull
        exact absurd hle hfull
    refine h.appendRecord hjunk ?_ hpayload hoffset hfaults
    rw [← h.active]
    exact hstart.resolve_left hfull

theorem append_none_ok (limit : Nat) (p : Partition) (payload : Bytes) :
    ∃ o, (p.append limit Faults.none payload).2 = .ok o := by
  have hadvance : ∀ p : Partition, ∃ o, (p.advance Faults.none).2 = .ok o := by
    intro p
    obtain ⟨_, -, hok | ⟨-, hsync⟩⟩ := p.advance_spec Faults.none
    · exact ⟨_, hok⟩
    · exact absurd hsync Bool.false_ne_true
  have hrecord : ∀ p : Partition, ∃ o, (p.appendRecord Faults.none payload).2 = .ok o := by
    intro p
    rw [Partition.appendRecord]
    dsimp only [Faults.none]
    split
    · exact hadvance _
    · exact hadvance _
  rw [Partition.append]
  split
  · exact hrecord _
  · exact hrecord _

/-- Without failures the payload is appended and its offset is returned. -/
theorem append_none (hlimit : 0 < limit) (h : Contents ahead limit p log)
    (hstart : limit ≤ p.active.logSize ∨ p.active.logSize < 2 ^ 32) (hpayload : payload.length < 2 ^ 32)
    (hoffset : log.length < 2 ^ 63) : (p.append limit Faults.none payload).2 = .ok log.length ∧
      Contents ahead limit (p.append limit Faults.none payload).1 (log ++ [payload]) := by
  have hspec := append_spec hlimit h hstart hpayload hoffset Faults.harmless_none
  obtain ⟨o, ho⟩ := append_none_ok limit p payload
  generalize p.append limit Faults.none payload = result at hspec ho
  cases hspec with
  | unchanged e hcontents => exact absurd ho (by simp)
  | unsynced hcontents => exact absurd ho (by simp)
  | done hcontents => exact ⟨rfl, hcontents⟩

/-!
## The disk log and the in-memory log

Whatever is produced and however often the broker is closed and opened again, the disk log holds the payloads of
the in-memory log, and a range of them is read back with their offsets (`both_invariant`).

Two numbers are too narrow for this to be the whole story. A record that starts at `2 ^ 32` or later in its segment
gets an index entry with a wrapped position. And the in-memory log computes the end of a range as an `int64`: when
the sum of the offset and the number of messages wraps around, it panics where the disk log answers
(`consume_agrees_iff`).
-/

open Option

/-- The next record starts below `2 ^ 32` in its segment: a new segment is due, or the active one is shorter. -/
def StartsInRange (limit : Nat) (p : Partition) : Prop :=
  limit ≤ p.active.logSize ∨ p.active.logSize < 2 ^ 32

/-- What the agreement of the logs rests on: a payload that fits its length field, a record whose position fits the
index, and fewer messages than `make` can allocate. -/
def Meets (limit : Nat) (s : Both) : Op → Prop
  | .produce payload => payload.length < 2 ^ 31 ∧ StartsInRange limit s.disk.partition ∧
      (s.mem.log.length : Int) < makeLimit
  | _ => True

instance (limit : Nat) (p : Partition) : Decidable (StartsInRange limit p) :=
  inferInstanceAs (Decidable (_ ∨ _))

instance (limit : Nat) (s : Both) : (op : Op) → Decidable (Meets limit s op)
  | .produce payload => inferInstanceAs (Decidable (payload.length < 2 ^ 31 ∧ _ ∧ _))
  | .consume _ _ => isTrue trivial
  | .reopen => isTrue trivial

/-! #### The in-memory log -/

theorem collect_eq (b : MemBroker) (len : Nat) {off : Nat} (h : off + len ≤ b.log.length) :
    b.collect len off = some (messagesFrom off ((b.log.drop off).take len)) := by
  induction len generalizing off with
  | zero => rfl
  | succ len ih =>
    have hlt : off < b.log.length := by omega
    have hrest : b.collect len ((off + 1 : Nat) : Int) = _ := ih (by omega)
    rw [Nat.cast_add, Nat.cast_one] at hrest
    rw [MemBroker.collect, if_neg (not_lt.2 (Int.natCast_nonneg off)), Int.toNat_natCast, getElem?_eq_getElem hlt,
      bind_eq_bind, bind_some, hrest, bind_eq_bind, bind_some, drop_eq_getElem_cons hlt, take_succ_cons, messagesFrom]

/-- When the in-memory log answers, it answers with the range; otherwise it panics. -/
theorem mem_consume_eq (b : MemBroker) (hlen : (b.log.length : Int) ≤ makeLimit) {off : Nat}
    {n : Int} (hn : n < 2 ^ 63) : b.consume off n = if (b.log.length : Int) ≤ off ∨ n ≤ 0 ∨ off + n < 2 ^ 63 then
        some (messagesFrom off ((b.log.drop off).take n.toNat)) else none := by
  have hmake : makeLimit = 2 ^ 43 := by decide
  rw [hmake] at hlen
  rw [MemBroker.consume]
  by_cases hempty : (b.log.length : Int) ≤ off ∨ n ≤ 0
  · have hnone : messagesFrom off ((b.log.drop off).take n.toNat) = [] := by
      rcases hempty with hoff | hn
      · rw [drop_eq_nil_of_le (Int.ofNat_le.1 hoff), take_nil]
        rfl
      · rw [Int.toNat_of_nonpos hn, take_zero]
        rfl
    rw [if_pos hempty, if_pos (by tauto), hnone]
  · rw [if_neg hempty]
    obtain ⟨hoff, hpos⟩ := not_or.1 hempty
    dsimp only
    by_cases hsum : off + n < 2 ^ 63
    · rw [toInt64_of_mem (by omega) hsum, if_pos (Or.inr (Or.inr hsum))]
      obtain ⟨m, rfl⟩ := Int.eq_ofNat_of_zero_le (not_le.1 hpos).le
      have hstop : (if (b.log.length : Int) < off + m then (b.log.length : Int) else off + m) =
          ((off + min m (b.log.length - off) : Nat) : Int) := by
        split <;> omega
      have hcapacity : (((off + min m (b.log.length - off) : Nat) : Int) - off) =
          (min m (b.log.length - off) : Nat) := by omega
      rw [hstop, hcapacity, toInt64_of_mem (by omega) (by omega), if_neg (by rw [hmake]; omega),
        Int.toNat_natCast, Int.toNat_natCast, collect_eq b _ (by omega), take_eq_take_iff.2]
      rw [length_drop]
      omega
    · -- the sum wraps around to a negative number, and the capacity is the number of messages asked for
      have hstop : toInt64 (off + n) = off + n - 2 ^ 64 := toInt64_of_le (by omega) (by omega)
      have hcapacity : toInt64 (off + n - 2 ^ 64 - off) = n := by
        have hshift : toInt64 (off + n - 2 ^ 64 - off) = toInt64 n := by
          rw [toInt64, toInt64, Int.bmod_def, Int.bmod_def]
          omega
        rw [hshift, toInt64_of_mem (by omega) hn]
      have hnowrap : ¬ (b.log.length : Int) < off + n - 2 ^ 64 := by omega
      rw [hstop, if_neg hnowrap, hcapacity, if_pos (Or.inr (by rw [hmake]; omega)),
        if_neg (by tauto)]

/-! #### Runs of both brokers -/

/-- The disk log holds the payloads of the in-memory log. -/
structure BothInv (limit : Nat) (s : Both) : Prop where
  contents : Contents false limit s.disk.partition s.mem.log
  length_le : (s.mem.log.length : Int) ≤ makeLimit

theorem Contents.close {ahead : Bool} {limit : Nat} {b : DiskBroker} {log : List Bytes}
    (h : Contents ahead limit b.partition log) : Contents ahead limit b.close.partition log := by
  cases b with
  | closed dir => exact h
  | opened p => exact h.reopen

variable {limit : Nat} {s : Both}

theorem BothInv.step (hlimit : 0 < limit) (h : BothInv limit s) {op : Op} (hop : Meets limit s op)
    {t : Both} (hstep : step limit s op = some t) : BothInv limit t := by
  cases op with
  | produce payload =>
    obtain ⟨hpayload, hstart, hlen⟩ := hop
    obtain rfl := some.inj hstep
    have hmake : makeLimit = 2 ^ 43 := by decide
    rw [hmake] at hlen
    have happend := append_none hlimit h.contents hstart (hpayload.trans (by decide)) (by omega)
    refine ⟨happend.2, ?_⟩
    show ((s.mem.log ++ [payload]).length : Int) ≤ makeLimit
    rw [hmake, length_append, length_singleton]
    omega
  | consume offset maxMessages =>
    obtain rfl := some.inj hstep
    exact ⟨h.contents, h.length_le⟩
  | reopen =>
    obtain rfl := some.inj hstep
    exact ⟨h.contents.close, h.length_le⟩

theorem both_invariant (hlimit : 0 < limit)
    (hs : ReachableIf (step limit) (Meets limit) Both.init s) : BothInv limit s :=
  ReachableIf.invariant ⟨openPartition_empty _ _, by decide⟩
    (fun _ _ _ _ h hop hstep => h.step hlimit hop hstep) hs

/-- **When the two logs agree.** In every run whose records start in range, `Consume` returns the same on both
logs exactly when the range is empty or its end does not overflow, and `Produce` returns the same offset. -/
theorem consume_agrees_iff (hlimit : 1 ≤ limit)
    (hs : ReachableIf (step limit) (Meets limit) Both.init s) :
    (∀ offset maxMessages : Int, 0 ≤ offset → maxMessages < 2 ^ 63 →
      ((s.disk.consume offset maxMessages).2 = s.mem.consume offset maxMessages ↔
        (s.mem.log.length : Int) ≤ offset ∨ maxMessages ≤ 0 ∨ offset + maxMessages < 2 ^ 63)) ∧
      ∀ payload, Meets limit s (.produce payload) →
        (s.disk.produce limit payload).2 = .ok (s.mem.produce payload).2 := by
  have h := both_invariant hlimit hs
  refine ⟨?_, ?_⟩
  · intro offset maxMessages hoffset hmax
    obtain ⟨off, rfl⟩ := Int.eq_ofNat_of_zero_le hoffset
    have hdisk : (s.disk.consume off maxMessages).2 = _ := h.contents.read off maxMessages
    rw [hdisk, mem_consume_eq _ h.length_le hmax]
    split
    · rename_i hfits
      exact ⟨fun _ => hfits, fun _ => rfl⟩
    · rename_i hover
      exact ⟨fun heq => absurd heq (some_ne_none _), fun hfits => absurd hfits hover⟩
  · intro payload hop
    obtain ⟨hpayload, hstart, hlen⟩ := hop
    have hmake : makeLimit = 2 ^ 43 := by decide
    rw [hmake] at hlen
    exact (append_none hlimit h.contents hstart (hpayload.trans (by decide)) (by omega)).1

/-- Two messages, and a range that starts at the second and has the greatest length there is: the disk log returns
the message, the in-memory log panics. -/
theorem consume_overflow_panics :
    ∃ s, ReachableIf (step maxSegmentBytes) (Meets maxSegmentBytes) Both.init s ∧
      (s.disk.consume 1 (2 ^ 63 - 1)).2 = some [⟨1, [98]⟩] ∧ s.mem.consume 1 (2 ^ 63 - 1) = none := by
  have hrun : (execIf (step maxSegmentBytes) (fun s op => decide (Meets maxSegmentBytes s op)) Both.init [.produce [97],
      .reopen, .produce [98]]).map (fun s => decide ((s.disk.consume 1 (2 ^ 63 - 1)).2 = some [⟨1, [98]⟩] ∧
      s.mem.consume 1 (2 ^ 63 - 1) = none)) = some true := by
    rfl
  obtain ⟨s, hs, hfacts⟩ := map_eq_some_iff.1 hrun
  exact ⟨s, ReachableIf.init.execIf (fun _ _ => of_decide_eq_true) hs, of_decide_eq_true hfacts⟩

/-- The agreement on a reached state with one message. -/
theorem consume_agrees_run :
    ∃ s, ReachableIf (step maxSegmentBytes) (Meets maxSegmentBytes) Both.init s ∧
      s.mem.log = [[97]] ∧ (s.disk.consume 0 5).2 = s.mem.consume 0 5 ∧
        (s.disk.produce maxSegmentBytes [98]).2 = .ok 1 := by
  have hrun : (execIf (step maxSegmentBytes) (fun s op => decide (Meets maxSegmentBytes s op)) Both.init [.produce
      [97]]).map (fun s => decide (s.mem.log = [[97]] ∧ Meets maxSegmentBytes s (.produce [98]))) = some true := by
    rfl
  obtain ⟨s, hs, hfacts⟩ := map_eq_some_iff.1 hrun
  obtain ⟨hlog, hmeets⟩ := of_decide_eq_true hfacts
  have hreach := ReachableIf.init.execIf (fun _ _ => of_decide_eq_true) hs
  obtain ⟨hconsume, hproduce⟩ := consume_agrees_iff (by decide) hreach
  refine ⟨s, hreach, hlog, (hconsume 0 5 (by decide) (by decide)).2 (Or.inr (Or.inr (by decide))), ?_⟩
  rw [hproduce [98] hmeets, MemBroker.produce, hlog]
  rfl

end SystemDesignLabs.Kafka
