import SystemDesignLabs.Kafka.Append

/-!
# A torn tail

A crash cuts the last record of the active segment after `j` bytes. If nothing is left of the record, the log reopens
as it was before the record. If twelve bytes or more are left, the header is complete, and opening counts the record.
If less is left, opening counts right, but the next record is written behind the rest, where a reader takes the rest
and the front of the new record for one header. Only when the segment is full does the next record go elsewhere.
`torn_survives_iff` is the exact condition.
-/

namespace SystemDesignLabs.Kafka

open List Option Core SortedMap Record Segment

/-! ### The bytes behind a torn header -/

theorem Record.decode_header {off len rest : Bytes} (hoff : off.length = 8) (hlen : len.length = 4) :
    Record.decode (off ++ (len ++ rest)) =
      (readExact (ofBeBytes len) rest).map fun p => (⟨ofBeBytes off, p.1⟩, p.2) := by
  have h₁ : readExact 8 (off ++ (len ++ rest)) = some (off, len ++ rest) :=
    hoff ▸ readExact_append off _
  have h₂ : readExact 4 (len ++ rest) = some (len, rest) := hlen ▸ readExact_append len rest
  rw [decode, h₁, bind_eq_bind, bind_some]
  dsimp only
  rw [h₂, bind_some]
  cases readExact (ofBeBytes len) rest with
  | none => rfl
  | some p => rfl

theorem exists_header {s : Bytes} (h : 12 ≤ s.length) :
    ∃ off len rest, off.length = 8 ∧ len.length = 4 ∧ s = off ++ (len ++ rest) := by
  refine ⟨s.take 8, (s.drop 8).take 4, (s.drop 8).drop 4, ?_, ?_, ?_⟩
  · rw [length_take]
    omega
  · rw [length_take, length_drop]
    omega
  · rw [take_append_drop, take_append_drop]

/-- The payload that makes a reader run past the end of the file: its bytes spell large lengths. -/
def filler : Bytes := List.replicate 23 127

theorem exists_overlong {u : Bytes} (h : u.length ≤ 11) :
    ∃ off len rest, off.length = 8 ∧ len.length = 4 ∧ u ++ filler = off ++ (len ++ rest) ∧
      rest.length < ofBeBytes len := by
  have hfiller : filler.length = 23 := rfl
  have htotal : (u ++ filler).length = u.length + 23 := by rw [length_append, hfiller]
  obtain ⟨off, len, rest, hoff, hlen, heq⟩ := exists_header (s := u ++ filler) (by omega)
  refine ⟨off, len, rest, hoff, hlen, heq, ?_⟩
  have hlast : (u ++ filler)[11]? = some 127 := by
    rw [getElem?_append_right h, filler, getElem?_replicate, if_pos (by omega)]
  obtain ⟨bs, b, rfl⟩ : ∃ bs b, len = bs ++ [b] :=
    ⟨len.dropLast, len.getLast (ne_nil_of_length_pos (by omega)),
      (dropLast_concat_getLast _).symm⟩
  have hbs : bs.length = 3 := by
    rw [length_append, length_singleton] at hlen
    omega
  have hb : b = 127 := by
    rw [heq, getElem?_append_right (by omega), hoff, append_assoc,
      getElem?_append_right (by omega), hbs] at hlast
    exact some.inj hlast
  have hrest : rest.length = u.length + 11 := by
    rw [heq, length_append, length_append, hoff, hlen] at htotal
    omega
  have hle := le_ofBeBytes_concat bs b
  have hval : b.val = 127 := hb ▸ rfl
  omega

theorem beBytes_four {n : Nat} (h : n < 256) : beBytes 4 n = [0, 0, 0, Fin.ofNat 256 n] := by
  have hzero : n / 256 = 0 := Nat.div_eq_of_lt h
  simp only [beBytes, leBytes, hzero]
  rfl

/-- The rest of a header and a short record behind it: the first header that a reader sees does not depend on the
payload. -/
theorem exists_misread {junk : Bytes} (hpos : 0 < junk.length) (hshort : junk.length < 12) (N : Nat) :
    ∃ off len mid, off.length = 8 ∧ len.length = 4 ∧ mid.length + 1 = junk.length ∧
      ∀ y : Bytes, y.length < 256 → junk ++ Record.encode ⟨N, y⟩ =
        off ++ (len ++ (mid ++ Fin.ofNat 256 y.length :: y)) := by
  have hfront : (junk ++ (beBytes 8 N ++ [0, 0, 0])).length = junk.length + 11 := by
    rw [length_append, length_append, length_beBytes]
    rfl
  obtain ⟨off, len, mid, hoff, hlen, heq⟩ := exists_header (s := junk ++ (beBytes 8 N ++ [0, 0, 0]))
    (by omega)
  refine ⟨off, len, mid, hoff, hlen, ?_, ?_⟩
  · rw [heq, length_append, length_append, hoff, hlen] at hfront
    omega
  · intro y hy
    have hsplit : junk ++ encode ⟨N, y⟩ =
        (junk ++ (beBytes 8 N ++ [0, 0, 0])) ++ Fin.ofNat 256 y.length :: y := by
      rw [encode, beBytes_four hy]
      simp only [append_assoc, cons_append, nil_append]
    rw [hsplit, heq]
    simp only [append_assoc]

/-- What a reader makes of a torn header and the record behind it, for one of two payloads: it stops at the
header, or it reads a record with a payload shorter than the filler and stops there. -/
theorem misread_cases {junk : Bytes} (hpos : 0 < junk.length) (hshort : junk.length < 12) (N : Nat) :
    (Record.decode (junk ++ Record.encode ⟨N, []⟩) = none ∧ ∀ r : Record, r.payload = [] →
        countMessagesInLog (junk ++ Record.encode ⟨N, []⟩ ++ r.encode) = 1) ∨
    (countMessagesInLog (junk ++ Record.encode ⟨N, filler⟩) = 2 ∧
      ∃ r rest, Record.decode (junk ++ Record.encode ⟨N, filler⟩) = some (r, rest) ∧
        r.payload.length < 12 ∧ Record.decode rest = none) := by
  obtain ⟨off, len, mid, hoff, hlen, hmid, hbytes⟩ := exists_misread hpos hshort N
  have hnil := hbytes [] (by decide)
  have hfill := hbytes filler (by decide)
  by_cases hlong : junk.length < ofBeBytes len
  · refine Or.inl ⟨?_, ?_⟩
    · have hread : readExact (ofBeBytes len) (mid ++ [Fin.ofNat 256 0]) = none := by
        rw [readExact, if_neg]
        rw [length_append, length_singleton]
        omega
      rw [hnil, decode_header hoff hlen, length_nil, hread]
      rfl
    · intro r hr
      have hassoc : junk ++ encode ⟨N, []⟩ ++ r.encode =
          off ++ (len ++ (mid ++ Fin.ofNat 256 0 :: r.encode)) := by
        rw [hnil, length_nil]
        simp only [append_assoc, cons_append, nil_append]
      rw [hassoc, countMessagesInLog, countLoop_header _ _ _ _ _ hoff hlen, countLoop_short]
      rw [length_drop, length_append, length_cons, length_encode, hr, length_nil]
      omega
  · obtain ⟨payload, u, hread, hpayload, hu, hdrop⟩ : ∃ payload u,
        readExact (ofBeBytes len) (mid ++ Fin.ofNat 256 filler.length :: filler) =
          some (payload, u ++ filler) ∧ payload.length < 12 ∧ u.length ≤ 11 ∧
        (mid ++ Fin.ofNat 256 filler.length :: filler).drop (ofBeBytes len) = u ++ filler := by
      have hcons : mid ++ Fin.ofNat 256 filler.length :: filler =
          (mid ++ [Fin.ofNat 256 filler.length]) ++ filler := by
        rw [append_assoc, singleton_append]
      have hle : ofBeBytes len ≤ (mid ++ [Fin.ofNat 256 filler.length]).length := by
        rw [length_append, length_singleton]
        omega
      have hdrop : (mid ++ [Fin.ofNat 256 filler.length] ++ filler).drop (ofBeBytes len) = _ :=
        drop_append_of_le_length hle
      refine ⟨((mid ++ [Fin.ofNat 256 filler.length]) ++ filler).take (ofBeBytes len),
        (mid ++ [Fin.ofNat 256 filler.length]).drop (ofBeBytes len), ?_, ?_, ?_, ?_⟩
      · rw [hcons, readExact, if_pos, hdrop]
        rw [length_append]
        omega
      · rw [length_take]
        omega
      · rw [length_drop, length_append, length_singleton]
        omega
      · rw [hcons, hdrop]
    obtain ⟨off', len', rest, hoff', hlen', heq, hover⟩ := exists_overlong hu
    refine Or.inr ⟨?_, ⟨ofBeBytes off, payload⟩, u ++ filler, ?_, hpayload, ?_⟩
    · have hlength : ∃ k, (junk ++ encode ⟨N, filler⟩).length = k + 1 :=
        ⟨(junk ++ encode ⟨N, filler⟩).length - 1, by rw [length_append]; omega⟩
      obtain ⟨k, hk⟩ := hlength
      rw [countMessagesInLog, hk, hfill, countLoop_header _ _ _ _ _ hoff hlen, hdrop, heq,
        countLoop_header _ _ _ _ _ hoff' hlen', countLoop_short]
      rw [drop_eq_nil_of_le hover.le]
      exact Nat.zero_lt_succ _
    · rw [hfill, decode_header hoff hlen, hread]
      rfl
    · have hnone : readExact (ofBeBytes len') rest = none := by
        rw [readExact, if_neg]
        omega
      rw [heq, decode_header hoff' hlen', hnone]
      rfl

/-! ### What it means to survive -/

/-- A call that the record format can carry. -/
def Fits (s : Both) : Op → Prop
  | .produce payload => payload.length < 2 ^ 32 ∧ s.mem.log.length < 2 ^ 63
  | _ => True

/-- The disk log answers as a log of the payloads that the in-memory log has. -/
structure Agrees (s : Both) : Prop where
  logLength : s.disk.logLength.2 = s.mem.log.length
  consume : ∀ (off : Nat) (n : Int),
    (s.disk.consume off n).2 = some (messagesFrom off ((s.mem.log.drop off).take n.toNat))
  produce : ∀ payload, Fits s (.produce payload) →
    (s.disk.produce maxSegmentBytes payload).2 = .ok s.mem.log.length

/-- The logs agree now and however it goes on. -/
def Survives (s : Both) : Prop :=
  ∀ t, ReachableIf (step maxSegmentBytes) Fits s t → Agrees t

/-- The state after a crash that leaves `log` of the active segment, beside the in-memory log of the complete
records. -/
def torn (s : Both) (log : Bytes) : Both :=
  ⟨.closed (s.disk.partition.dir.adjust s.disk.partition.active.baseOffset
    fun files => { files with log := log }), ⟨s.mem.log.dropLast⟩⟩

section Survival

variable {ahead : Bool} {s t : Both}

section

variable (h : Contents ahead maxSegmentBytes s.disk.partition s.mem.log)
include h

theorem Contents.agrees : Agrees s := by
  refine ⟨?_, h.read, ?_⟩
  · obtain ⟨ss, a, hholds⟩ := h
    exact hholds.nextOff
  · intro payload hfits
    have hmax : maxSegmentBytes ≤ 2 ^ 32 := by decide
    exact (append_none (by decide) h (by omega) hfits.1 hfits.2).1

theorem Contents.step {op : Op}
    (hop : Fits s op) (hstep : step maxSegmentBytes s op = some t) :
    Contents ahead maxSegmentBytes t.disk.partition t.mem.log := by
  cases op with
  | produce payload =>
    obtain rfl := some.inj hstep
    have hmax : maxSegmentBytes ≤ 2 ^ 32 := by decide
    exact (append_none (by decide) h (by omega) hop.1 hop.2).2
  | consume offset maxMessages =>
    obtain rfl := some.inj hstep
    exact h
  | reopen =>
    obtain rfl := some.inj hstep
    exact h.close

theorem Contents.run
    (ht : ReachableIf (Kafka.step maxSegmentBytes) Fits s t) :
    Contents ahead maxSegmentBytes t.disk.partition t.mem.log :=
  ReachableIf.invariant (I := fun t => Contents ahead maxSegmentBytes t.disk.partition t.mem.log) h
    (fun _ _ _ _ h hop hstep => h.step hop hstep) ht

/-- A log that holds the complete records survives. -/
theorem Contents.survives :
    Survives s := fun _ ht => (h.run ht).agrees

end

end Survival

/-! ### The last record -/

section Cut

variable {limit : Nat} {p : Partition} {ss : List Segment} {a : Segment} {log xs : List Bytes}
  {x junk : Bytes} {d : Directory}

theorem Holds.last_record (h : Holds false limit p ss a log) {files : SegmentFiles}
    (hget : p.dir.get p.active.baseOffset = some files) {rs : List Record} {r : Record}
    (hsplit : recordFraming.Splits files.log (rs ++ [r]) []) :
    a.junk = [] ∧ ∃ xs x, a.payloads = xs ++ [x] ∧ rs = recordsFrom a.info.baseOffset xs ∧
      r = ⟨a.info.baseOffset + xs.length, x⟩ := by
  have hfiles : files = a.files := by
    rw [h.active, h.get (mem_append_right ss mem_cons_self), some.injEq] at hget
    exact hget.symm
  have hsplit' : recordFraming.Splits files.log a.records a.junk := by
    have hdrop := h.sound.splits_drop 0
    rw [hfiles]
    exact hdrop
  obtain ⟨hrecords, hjunk⟩ := hsplit.unique hsplit'
  have hne : a.payloads ≠ [] := by
    intro hempty
    rw [records, hempty] at hrecords
    exact append_ne_nil_of_right_ne_nil rs (cons_ne_nil r []) hrecords
  obtain ⟨xs, x, hxs⟩ : ∃ xs x, a.payloads = xs ++ [x] :=
    ⟨a.payloads.dropLast, a.payloads.getLast hne, (dropLast_concat_getLast hne).symm⟩
  rw [records, hxs, recordsFrom_append] at hrecords
  obtain ⟨hrs, hr⟩ := append_inj' hrecords rfl
  exact ⟨hjunk.symm, xs, x, hxs, hrs, (cons.inj hr).1⟩

theorem Segment.Sound.ahead {s : Segment} (h : s.Sound false) : s.Sound true :=
  ⟨h.msgCount, h.logSize, h.offset_lt, h.payload_lt, h.junk_short, h.count_lt,
    h.index.mono fun _ _ hentry => ⟨Nat.lt_succ_of_lt hentry.1, hentry.2⟩⟩

theorem Consecutive.ahead {base : Nat} (h : Consecutive false base ss) : Consecutive true base ss := by
  induction ss generalizing base with
  | nil => trivial
  | cons s ss ih => exact ⟨h.1, h.2.1.ahead, ih h.2.2⟩

/-- A cut that leaves less than a header opens to the complete records, if nothing is left or the
segment is full. -/
theorem Holds.cut (h : Holds false limit p ss a log) (hpayloads : a.payloads = xs ++ [x]) (hshort : junk.length < 12)
    (hroom : junk = [] ∨ (limit ≤ (recordFraming.encodeAll (recordsFrom a.info.baseOffset xs) ++
      junk).length ∧ xs ≠ [])) (hd : d.entries = ss.map (fun s => (s.info.baseOffset, s.files)) ++ [(a.info.baseOffset,
      ⟨recordFraming.encodeAll (recordsFrom a.info.baseOffset xs) ++ junk, a.index⟩)]) :
    Contents true limit (openPartition d) log.dropLast := by
  have hrecords : a.records = recordsFrom a.info.baseOffset xs ++
      recordsFrom (a.info.baseOffset + xs.length) [x] := by
    rw [records, hpayloads, recordsFrom_append]
  have hmem : ∀ r ∈ recordsFrom a.info.baseOffset xs, r ∈ a.records := fun r hr =>
    hrecords ▸ mem_append_left _ hr
  let cut : Segment :=
    ⟨⟨a.info.baseOffset, (recordFraming.encodeAll (recordsFrom a.info.baseOffset xs) ++ junk).length,
      xs.length, 0⟩, xs, junk, a.index⟩
  have hsound : cut.Sound true := by
    refine ⟨rfl, rfl, fun r hr => h.sound.offset_lt r (hmem r hr),
      fun r hr => h.sound.payload_lt r (hmem r hr), hshort, ?_, ?_⟩
    · have hcount := h.sound.count_lt
      rw [hpayloads, length_append] at hcount
      exact lt_of_le_of_lt (Nat.le_add_right _ _) hcount
    · refine h.sound.index.mono fun rel pos hentry => ?_
      obtain ⟨hrel, hpos⟩ := hentry
      rw [hpayloads, length_append, length_singleton] at hrel
      have hle : rel ≤ xs.length := Nat.lt_succ_iff.1 hrel
      refine ⟨Nat.lt_succ_of_le hle, ?_⟩
      rw [hpos, position, hrecords, take_append_of_le_length]
      · rfl
      · rw [length_recordsFrom]
        exact hle
  have hchain := consecutive_append.1 h.consecutive
  have hlog : log.dropLast = payloadsOf (ss ++ [cut]) := by
    rw [h.content, payloadsOf_append, payloadsOf_append, payloadsOf_cons, payloadsOf_cons, payloadsOf_nil, append_nil,
      append_nil, hpayloads, ← append_assoc, dropLast_concat]
  have hholds : Holds true limit ⟨d, ss.map info, cut.info, log.dropLast.length⟩ ss cut
      log.dropLast := by
    refine ⟨?_, rfl, rfl, ?_, hroom, hlog, rfl⟩
    · show d.entries = _
      rw [hd, map_append]
      rfl
    · exact consecutive_append.2 ⟨hchain.1.ahead, hchain.2.1, hsound, trivial⟩
  exact ⟨_, _, openPartition_holds hholds⟩

end Cut

/-! ### A cut that opens wrongly -/

section Wrong

variable {limit : Nat} {p : Partition} {a : List (Nat × SegmentFiles)} {files : SegmentFiles}

theorem append_none_raw (hroom : p.active.logSize < limit)
    (hd : p.dir.entries = a ++ [(p.active.baseOffset, files)]) (payload : Bytes) : ∃ d index pending,
      (p.append limit Faults.none payload).1 = ⟨d, p.sealed, ⟨p.active.baseOffset,
        p.active.logSize + (12 + payload.length), p.active.msgCount + 1, pending⟩, p.nextOff + 1⟩ ∧
      d.entries = a ++ [(p.active.baseOffset, ⟨files.log ++ Record.encode ⟨p.nextOff, payload⟩, index⟩)] ∧
      (index = files.index ∨ index = files.index ++
        encodeIndexEntry (p.nextOff - p.active.baseOffset) p.active.logSize) := by
  have hwritten := entries_adjust_last hd fun files =>
    { files with log := files.log ++ encode ⟨p.nextOff, payload⟩ }
  have hindexed := entries_adjust_last hwritten fun f =>
    { f with
      index := f.index ++
        encodeIndexEntry (p.nextOff - p.active.baseOffset) p.active.logSize }
  have hlength : (encode ⟨p.nextOff, payload⟩).length = 12 + payload.length :=
    length_encode _
  rw [Partition.append, if_neg (not_le.2 hroom), Partition.appendRecord]
  dsimp only [Faults.none]
  rw [hlength]
  split
  · obtain ⟨pending, hstate, -⟩ := Partition.advance_spec
      ⟨(p.dir.writeLog p.active.baseOffset (encode ⟨p.nextOff, payload⟩)).writeIndex
        p.active.baseOffset (encodeIndexEntry (p.nextOff - p.active.baseOffset) p.active.logSize),
        p.sealed, { p.active with logSize := p.active.logSize + (12 + payload.length) }, p.nextOff⟩
      ⟨false, none, none, false⟩
    exact ⟨_, _, pending, hstate, hindexed, Or.inr rfl⟩
  · obtain ⟨pending, hstate, -⟩ := Partition.advance_spec
      ⟨p.dir.writeLog p.active.baseOffset (encode ⟨p.nextOff, payload⟩), p.sealed,
        { p.active with logSize := p.active.logSize + (12 + payload.length) }, p.nextOff⟩
      ⟨false, none, none, false⟩
    exact ⟨_, _, pending, hstate, hwritten, Or.inl rfl⟩

theorem read_active {log index : Bytes} (hd : p.dir.get p.active.baseOffset = some ⟨log, index⟩)
    (hindex : IndexOf (fun rel pos => rel = 0 → pos = 0) index)
    (hsealed : ∀ seg ∈ p.sealed, seg.baseOffset < p.active.baseOffset)
    (hnext : p.active.baseOffset < p.nextOff) {rs : List Record} {rest : Bytes}
    (hsplit : recordFraming.Splits log rs rest) {n : Nat} (hn : 0 < n) :
    ∃ ms, p.read p.active.baseOffset n = some ms ∧ ∀ m ∈ ms, ∃ r ∈ rs, r.message = m := by
  have hstart : indexLookup index p.active.baseOffset ((p.active.baseOffset + 0 : Nat) : Int) = 0 := by
    rcases indexLookup_spec hindex p.active.baseOffset (Nat.two_pow_pos 31) with h | ⟨k, hk, h⟩
    · exact h
    · exact h (Nat.le_zero.1 hk)
  have hbelow : ∀ seg ∈ p.sealed ++ [p.active], seg.baseOffset ≤ p.active.baseOffset := by
    intro seg hseg
    rcases mem_append.1 hseg with hseg | hseg
    · exact (hsealed seg hseg).le
    · exact mem_singleton.1 hseg ▸ Nat.le_refl _
  have hupper : search (p.sealed ++ [p.active]).length (fun i => decide
      (∃ seg ∈ (p.sealed ++ [p.active])[i]?, (p.active.baseOffset : Int) < (seg.baseOffset : Int))) =
        (p.sealed ++ [p.active]).length := by
    have hbound := search_boundary (p.sealed ++ [p.active]).length fun i => decide
      (∃ seg ∈ (p.sealed ++ [p.active])[i]?, (p.active.baseOffset : Int) < (seg.baseOffset : Int))
    refine le_antisymm hbound.le (not_lt.1 fun hlt => ?_)
    obtain ⟨seg, hseg, hover⟩ := of_decide_eq_true (hbound.at_ hlt)
    have hle := hbelow seg (mem_of_getElem? hseg)
    omega
  have hlast : (p.sealed ++ [p.active]).drop ((p.sealed ++ [p.active]).length - 1) = [p.active] := by
    rw [length_append, length_singleton, Nat.add_sub_cancel, drop_left]
  have hnonempty : ¬ ((n : Int) ≤ 0 ∨ (p.nextOff : Int) ≤ p.active.baseOffset) := by omega
  have hlength : (p.sealed ++ [p.active]).length ≠ 0 := by
    rw [length_append, length_singleton]
    omega
  rw [Nat.add_zero] at hstart
  rw [Partition.read, if_neg hnonempty]
  dsimp only
  rw [hupper, if_neg hlength, hlast, Partition.readLoop, Int.toNat_natCast, if_neg hn.ne',
    Partition.readFromSegment, hd, map_some]
  dsimp only
  rw [hstart, drop_zero, scan_splits hsplit, bind_eq_bind, bind_some, Partition.readLoop, bind_some, append_nil]
  refine ⟨_, rfl, fun m hm => ?_⟩
  exact mem_map.1 (mem_of_mem_filter (mem_of_mem_take hm))

theorem mem_recordsFrom {base : Nat} {xs : List Bytes} {r : Record} (h : r ∈ recordsFrom base xs) :
    r.offset < base + xs.length := by
  induction xs generalizing base with
  | nil => exact absurd h not_mem_nil
  | cons x xs ih =>
    rw [length_cons]
    rcases mem_cons.1 h with rfl | h
    · dsimp only
      omega
    · have hlt := ih h
      omega

/-- The directory after a crash: sound segments, and a last one whose log ends in `junk`. -/
structure TornDir (d : Directory) (ss : List Segment) (base : Nat) (xs : List Bytes) (junk index : Bytes) :
    Prop where
  entries : d.entries = ss.map (fun s => (s.info.baseOffset, s.files)) ++
    [(base, ⟨recordFraming.encodeAll (recordsFrom base xs) ++ junk, index⟩)]
  sound : ∀ t ∈ ss, t.Sound false
  offset_lt : ∀ r ∈ recordsFrom base xs, r.offset < 2 ^ 63
  payload_lt : ∀ r ∈ recordsFrom base xs, r.payload.length < 2 ^ 32

variable {d : Directory} {ss : List Segment} {base : Nat} {xs : List Bytes} {junk index : Bytes}

theorem TornDir.valid (h : TornDir d ss base xs junk index) :
    ∀ r ∈ recordsFrom base xs, recordFraming.Valid r := fun r hr =>
  ⟨(h.offset_lt r hr).trans (by decide), h.payload_lt r hr⟩

theorem sealed_lt {e : SegmentFiles}
    (hd : d.entries = ss.map (fun s => (s.info.baseOffset, s.files)) ++ [(base, e)]) :
    ∀ seg ∈ ss.map (fun t => t.reopened.info), seg.baseOffset < base := by
  have hsorted := d.sorted
  rw [hd] at hsorted
  intro seg hseg
  obtain ⟨t, ht, rfl⟩ := mem_map.1 hseg
  exact (pairwise_append.1 hsorted).2.2 _ (mem_map_of_mem ht) _ mem_cons_self

section

variable (h : TornDir d ss base xs junk index)
include h

theorem TornDir.open_header {N : Nat} {x : Bytes} {j : Nat}
    (hx : x.length < 2 ^ 32) (hj : 12 ≤ j) (hjunk : junk = (Record.encode ⟨N, x⟩).take j) :
    (openPartition d).nextOff = base + (xs.length + 1) := by
  have hbytes : junk = beBytes 8 N ++ (beBytes 4 x.length ++ x.take (j - 12)) := by
    have htake : (beBytes 8 N ++ beBytes 4 x.length ++ x).take
        ((beBytes 8 N ++ beBytes 4 x.length).length + (j - 12)) = _ :=
      take_length_add_append (j - 12)
    have hheader : (beBytes 8 N ++ beBytes 4 x.length).length + (j - 12) = j := by
      rw [length_append, length_beBytes, length_beBytes]
      omega
    rw [hjunk, encode, ← append_assoc, ← append_assoc, ← htake, hheader]
  have hlen : ofBeBytes (beBytes 4 x.length) = x.length := by
    rw [ofBeBytes_beBytes]
    exact Nat.mod_eq_of_lt hx
  have hcount : countMessagesInLog (recordFraming.encodeAll (recordsFrom base xs) ++ junk) =
      xs.length + 1 := by
    have hmul := twelve_mul_le (recordsFrom base xs)
    obtain ⟨k, hk⟩ : ∃ k, (recordFraming.encodeAll (recordsFrom base xs) ++ junk).length + 1 =
        (recordsFrom base xs).length + (k + 1) :=
      ⟨(recordFraming.encodeAll (recordsFrom base xs) ++ junk).length -
        (recordsFrom base xs).length, by rw [length_append]; omega⟩
    rw [countMessagesInLog, hk, countLoop_encodeAll h.payload_lt, hbytes, countLoop_header _ _ _ _ _ (length_beBytes ..)
      (length_beBytes ..), hlen, countLoop_short, length_recordsFrom, Nat.zero_add]
    rw [drop_eq_nil_of_le]
    · exact Nat.zero_lt_succ _
    · rw [length_take]
      omega
  rw [openPartition_eq h.sound h.entries, hcount]

theorem TornDir.open_short (hjunk : junk.length < 12) :
    openPartition d = ⟨d, ss.map (fun t => t.reopened.info),
      ⟨base, (recordFraming.encodeAll (recordsFrom base xs) ++ junk).length, xs.length, 0⟩, base + xs.length⟩ := by
  rw [openPartition_eq h.sound h.entries, countMessagesInLog_encodeAll h.payload_lt hjunk, length_recordsFrom]

theorem TornDir.append (hshort : junk.length < 12)
    (hroom : (recordFraming.encodeAll (recordsFrom base xs) ++ junk).length < limit) (y : Bytes) : ∃ d' index' pending,
      ((openPartition d).append limit Faults.none y).1 = ⟨d', ss.map (fun t => t.reopened.info),
        ⟨base, (recordFraming.encodeAll (recordsFrom base xs) ++ junk).length + (12 + y.length),
          xs.length + 1, pending⟩, base + xs.length + 1⟩ ∧
      d'.entries = ss.map (fun s => (s.info.baseOffset, s.files)) ++ [(base,
        ⟨recordFraming.encodeAll (recordsFrom base xs) ++ (junk ++ Record.encode ⟨base + xs.length, y⟩), index'⟩)] ∧
      (index' = index ∨ index' = index ++ encodeIndexEntry xs.length
        (recordFraming.encodeAll (recordsFrom base xs) ++ junk).length) := by
  rw [h.open_short hshort]
  generalize hp : (⟨d, ss.map fun t => t.reopened.info, ⟨base, (recordFraming.encodeAll (recordsFrom base xs) ++
    junk).length, xs.length, 0⟩, base + xs.length⟩ : Partition) = p
  have hsize : p.active.logSize < limit := hp ▸ hroom
  have hentries : p.dir.entries = ss.map (fun s => (s.info.baseOffset, s.files)) ++
      [(p.active.baseOffset, ⟨recordFraming.encodeAll (recordsFrom base xs) ++ junk, index⟩)] := hp ▸ h.entries
  obtain ⟨d', index', pending, happend, hd', hindex'⟩ := append_none_raw hsize hentries y
  subst hp
  dsimp only at happend hd' hindex'
  rw [append_assoc] at hd'
  rw [Nat.add_sub_cancel_left] at hindex'
  exact ⟨d', index', pending, happend, hd', hindex'⟩

/-- Behind other records in the segment, the next message is not read. -/
theorem TornDir.misread (hpos : 0 < junk.length)
    (hshort : junk.length < 12) (hxs : xs ≠ [])
    (hroom : (recordFraming.encodeAll (recordsFrom base xs) ++ junk).length < maxSegmentBytes)
    (hindex : IndexOf (fun rel pos => rel = 0 → pos = 0) index) (hcount : xs.length < 2 ^ 31)
    {log : List Bytes} (hlog : log.length = base + xs.length) : ∃ y : Bytes, y.length < 256 ∧
      ¬ Agrees ⟨.opened ((openPartition d).append maxSegmentBytes Faults.none y).1, ⟨log ++ [y]⟩⟩ := by
  obtain ⟨y, rs, rest, hy, hsplit, hrs⟩ : ∃ y rs rest, y.length < 256 ∧
      recordFraming.Splits (recordFraming.encodeAll (recordsFrom base xs) ++
        (junk ++ encode ⟨base + xs.length, y⟩)) rs rest ∧
      ∀ r ∈ rs, r.message ≠ ⟨((base + xs.length : Nat) : Int), y⟩ := by
    have hold : ∀ y, ∀ r ∈ recordsFrom base xs, r.message ≠ ⟨((base + xs.length : Nat) : Int), y⟩ := by
      intro y r hr heq
      rw [message_of_lt (h.offset_lt r hr)] at heq
      have hlt := mem_recordsFrom hr
      have hoffset := congrArg Message.offset heq
      dsimp only at hoffset
      omega
    rcases misread_cases hpos hshort (base + xs.length) with ⟨hnone, -⟩ | ⟨-, r, rest, hsome, hr, hrest⟩
    · exact ⟨[], _, _, by decide, ⟨rfl, h.valid, hnone⟩, hold []⟩
    · obtain ⟨hvalid, hbytes⟩ := decode_sound _ _ _ hsome
      refine ⟨filler, recordsFrom base xs ++ [r], rest, by decide, ⟨?_, ?_, hrest⟩, ?_⟩
      · rw [hbytes, Framing.encodeAll_append, Framing.encodeAll_cons, Framing.encodeAll_nil, append_nil, append_assoc]
        rfl
      · intro r' hr'
        rcases mem_append.1 hr' with hr' | hr'
        · exact h.valid r' hr'
        · exact mem_singleton.1 hr' ▸ hvalid
      · intro r' hr' heq
        rcases mem_append.1 hr' with hr' | hr'
        · exact hold filler r' hr' heq
        · have hlength := congrArg (fun m => m.payload.length) heq
          rw [mem_singleton.1 hr'] at hlength
          have hfiller : filler.length = 23 := rfl
          have hpayload : r.message.payload.length = r.payload.length := rfl
          dsimp only at hlength
          omega
  refine ⟨y, hy, fun hagrees => ?_⟩
  obtain ⟨d', index', pending, happend, hd', hindex'⟩ := h.append hshort hroom y
  have hmax : maxSegmentBytes ≤ 2 ^ 32 := by decide
  have hzero : IndexOf (fun rel pos => rel = 0 → pos = 0) index' := by
    rcases hindex' with rfl | rfl
    · exact hindex
    · refine hindex.append hcount (hroom.trans_le hmax) ?_
      exact fun hrel => absurd (eq_nil_of_length_eq_zero hrel) hxs
  have hconsume := hagrees.consume base ((xs.length + 1 : Nat) : Int)
  have hread : ((openPartition d).append maxSegmentBytes Faults.none y).1.read base
      ((xs.length + 1 : Nat) : Int) = _ := hconsume
  rw [happend] at hread
  have hget : d'.get base = some ⟨_, index'⟩ :=
    mem_entries_iff.1 (hd' ▸ mem_append_right _ mem_cons_self)
  obtain ⟨ms, hms, hmem⟩ := read_active (p := ⟨d', ss.map fun t => t.reopened.info, ⟨base, (recordFraming.encodeAll
      (recordsFrom base xs) ++ junk).length + (12 + y.length), xs.length + 1, pending⟩, base + xs.length + 1⟩)
    hget hzero (sealed_lt hd') (by dsimp only; omega) hsplit (Nat.succ_pos xs.length)
  have hall : ms = messagesFrom base ((log ++ [y]).drop base) := by
    have hlen : ((log ++ [y]).drop base).length ≤ xs.length + 1 := by
      rw [length_drop, length_append, length_singleton]
      omega
    rw [hms, some.injEq, Int.toNat_natCast, take_of_length_le hlen] at hread
    exact hread
  have hnew : (⟨((base + xs.length : Nat) : Int), y⟩ : Message) ∈ ms := by
    have hbase : base ≤ log.length := by omega
    have hlen : (log.drop base).length = xs.length := by
      rw [length_drop]
      omega
    rw [hall, drop_append_of_le_length hbase, messagesFrom_append, hlen]
    exact mem_append_right _ mem_cons_self
  obtain ⟨r, hr, hmessage⟩ := hmem _ hnew
  exact hrs r hr hmessage

end

/-- As the first record of the segment, the next messages are miscounted when the log is opened
again. -/
theorem TornDir.miscount (h : TornDir d ss base [] junk index) (hpos : 0 < junk.length) (hshort : junk.length < 12) :
    (openPartition ((openPartition d).append maxSegmentBytes Faults.none filler).1.dir).nextOff = base + 2 ∨
      (openPartition (((openPartition d).append maxSegmentBytes Faults.none []).1.append
        maxSegmentBytes Faults.none []).1.dir).nextOff = base + 1 := by
  have hmax : maxSegmentBytes = 2 ^ 26 := rfl
  have hroom : (recordFraming.encodeAll (recordsFrom base []) ++ junk).length < maxSegmentBytes := by
    show junk.length < maxSegmentBytes
    omega
  rcases misread_cases hpos hshort base with ⟨-, hone⟩ | ⟨htwo, -⟩
  · obtain ⟨d', index', pending, happend, hd', -⟩ := h.append hshort hroom []
    rw [happend]
    generalize hp : (⟨d', ss.map fun t => t.reopened.info, ⟨base, (recordFraming.encodeAll (recordsFrom base []) ++
      junk).length + (12 + 0), 1, pending⟩, base + 1⟩ : Partition) = p
    have hsize : p.active.logSize < maxSegmentBytes := by
      subst hp
      show junk.length + (12 + 0) < maxSegmentBytes
      omega
    have hentries : p.dir.entries = ss.map (fun s => (s.info.baseOffset, s.files)) ++
        [(p.active.baseOffset, ⟨junk ++ encode ⟨base, []⟩, index'⟩)] := hp ▸ hd'
    obtain ⟨d'', index'', pending', happend', hd'', -⟩ := append_none_raw hsize hentries []
    subst hp
    refine Or.inr ?_
    have hdir := congrArg Partition.dir happend'
    refine (congrArg (fun d => (openPartition d).nextOff) hdir).trans ?_
    show (openPartition d'').nextOff = base + 1
    rw [openPartition_eq h.sound hd'']
    exact congrArg (base + ·) (hone ⟨base + 1, []⟩ rfl)
  · obtain ⟨d', index', pending, happend, hd', -⟩ := h.append hshort hroom filler
    refine Or.inl ?_
    rw [happend, openPartition_eq h.sound hd']
    exact congrArg (base + ·) htwo

end Wrong

/-! ### The exact condition -/

/-- **When the log survives a torn tail.** The log of the active segment reads as the records `rs` and a last record
`r`, of which the crash leaves `j` bytes. The log survives exactly when nothing is left, or less than a header in a
segment that is full. -/
theorem torn_survives_iff {s : Both} (hs : ReachableIf (step maxSegmentBytes) Fits Both.init s)
    (hroom : s.mem.log.length + 1 < 2 ^ 63) {files : SegmentFiles}
    (hget : s.disk.partition.dir.get s.disk.partition.active.baseOffset = some files)
    {rs : List Record} {r : Record} (hsplit : recordFraming.Splits files.log (rs ++ [r]) []) {j : Nat}
    (hj : j < r.encode.length) :
    Survives (torn s (recordFraming.encodeAll rs ++ r.encode.take j)) ↔
      j = 0 ∨ (j < 12 ∧ maxSegmentBytes ≤ (recordFraming.encodeAll rs).length + j) := by
  obtain ⟨ss, a, h⟩ : Contents false maxSegmentBytes s.disk.partition s.mem.log :=
    Contents.run (openPartition_empty _ _) hs
  obtain ⟨-, xs, x, hpayloads, hrs, hr⟩ := h.last_record hget hsplit
  generalize hjunk : r.encode.take j = junk
  have hjunkLen : junk.length = j := by
    rw [← hjunk, length_take]
    omega
  -- the directory after the crash
  generalize hd : (s.disk.partition.dir.adjust s.disk.partition.active.baseOffset fun files =>
    { files with log := recordFraming.encodeAll rs ++ junk }) = d
  have htorn : torn s (recordFraming.encodeAll rs ++ junk) = ⟨.closed d, ⟨s.mem.log.dropLast⟩⟩ := by
    rw [torn, hd]
  have hentries : d.entries = ss.map (fun s => (s.info.baseOffset, s.files)) ++ [(a.info.baseOffset,
      ⟨recordFraming.encodeAll (recordsFrom a.info.baseOffset xs) ++ junk, a.index⟩)] := by
    have hold : s.disk.partition.dir.entries = ss.map (fun s => (s.info.baseOffset, s.files)) ++
        [(a.info.baseOffset, a.files)] := by
      rw [h.dir, map_append]
      rfl
    rw [← hd, h.active, ← hrs]
    exact entries_adjust_last hold _
  have hmem : ∀ r ∈ recordsFrom a.info.baseOffset xs, r ∈ a.records := by
    intro r hr
    rw [records, hpayloads, recordsFrom_append]
    exact mem_append_left _ hr
  have hdir : TornDir d ss a.info.baseOffset xs junk a.index :=
    ⟨hentries, fun t ht => h.consecutive.sound t (mem_append_left _ ht),
      fun r hr => h.sound.offset_lt r (hmem r hr), fun r hr => h.sound.payload_lt r (hmem r hr)⟩
  have hlength : s.mem.log.dropLast.length = a.info.baseOffset + xs.length := by
    rw [length_dropLast, h.length, hpayloads, length_append]
    rfl
  rw [htorn]
  refine ⟨fun hsurvives => ?_, fun hcond => ?_⟩
  · by_contra hcond
    obtain ⟨hj0, hcond⟩ := not_or.1 hcond
    by_cases hheader : 12 ≤ j
    · -- the torn record is counted when the log is opened
      have hx : x.length < 2 ^ 32 := by
        refine h.sound.payload_lt ⟨a.info.baseOffset + xs.length, x⟩ ?_
        rw [records, hpayloads, recordsFrom_append]
        exact mem_append_right _ mem_cons_self
      have hopen := hdir.open_header hx hheader (by rw [← hjunk, hr])
      have hagrees := (hsurvives _ .init).logLength
      have hnext : (openPartition d).nextOff = s.mem.log.dropLast.length := hagrees
      omega
    · have hsize : (recordFraming.encodeAll (recordsFrom a.info.baseOffset xs) ++ junk).length <
          maxSegmentBytes := by
        rw [length_append, hjunkLen, ← hrs]
        by_contra hfull
        exact hcond ⟨not_le.1 hheader, not_lt.1 hfull⟩
      have hfits : ∀ (t : Both) (y : Bytes), y.length < 256 → t.mem.log.length < 2 ^ 63 →
          Fits t (.produce y) := fun t y hy ht => ⟨hy.trans (by decide), ht⟩
      have hlog : s.mem.log.dropLast.length + 1 < 2 ^ 63 := by
        rw [length_dropLast]
        omega
      have hpos : 0 < junk.length := by omega
      have hshort : junk.length < 12 := by omega
      by_cases hxs : xs = []
      · -- the messages are miscounted when the log is opened once more
        subst hxs
        rcases hdir.miscount hpos hshort with htwo | hone
        · have hreach : ReachableIf (step maxSegmentBytes) Fits ⟨.closed d, ⟨s.mem.log.dropLast⟩⟩ _ :=
            (ReachableIf.init.step (.produce filler) (hfits _ _ (by decide) (by dsimp only; omega))
              rfl).step .reopen trivial rfl
          have hnext := (hsurvives _ hreach).logLength
          have hcount : (s.mem.log.dropLast ++ [filler]).length = a.info.baseOffset + 2 :=
            hnext.symm.trans htwo
          rw [length_append, hlength] at hcount
          simp only [length_nil, length_singleton] at hcount
          omega
        · have hreach : ReachableIf (step maxSegmentBytes) Fits ⟨.closed d, ⟨s.mem.log.dropLast⟩⟩ _ :=
            ((ReachableIf.init.step (.produce []) (hfits _ _ (by decide) (by dsimp only; omega))
              rfl).step (.produce []) (hfits _ _ (by decide) (by
                show (s.mem.log.dropLast ++ [[]]).length < 2 ^ 63
                rw [length_append]
                exact hlog)) rfl).step .reopen trivial rfl
          have hnext := (hsurvives _ hreach).logLength
          have hcount : (s.mem.log.dropLast ++ [[]] ++ [[]]).length = a.info.baseOffset + 1 :=
            hnext.symm.trans hone
          rw [length_append, length_append, hlength] at hcount
          simp only [length_nil, length_singleton] at hcount
          omega
      · -- the next message is not read together with the ones before it
        have hindex : IndexOf (fun rel pos => rel = 0 → pos = 0) a.index := by
          refine h.sound.index.mono fun rel pos hentry hrel => ?_
          rw [hentry.2, hrel]
          rfl
        have hcount : xs.length < 2 ^ 31 := by
          have hlt := h.sound.count_lt
          rw [hpayloads, length_append] at hlt
          exact lt_of_le_of_lt (Nat.le_add_right _ _) hlt
        obtain ⟨y, hy, hwrong⟩ := hdir.misread hpos hshort hxs hsize hindex hcount hlength
        exact hwrong (hsurvives _ (.step (.produce y) .init
          (hfits _ _ hy (by dsimp only; omega)) rfl))
  · have hshort : junk.length < 12 := by
      rcases hcond with hzero | ⟨hlt, -⟩
      · omega
      · omega
    have hroom' : junk = [] ∨ (maxSegmentBytes ≤ (recordFraming.encodeAll
        (recordsFrom a.info.baseOffset xs) ++ junk).length ∧ xs ≠ []) := by
      rcases hcond with hzero | ⟨hlt, hfull⟩
      · exact Or.inl (eq_nil_of_length_eq_zero (hjunkLen.trans hzero))
      · refine Or.inr ⟨?_, ?_⟩
        · rw [length_append, hjunkLen, ← hrs]
          exact hfull
        · rintro rfl
          have hempty : (recordFraming.encodeAll rs).length = 0 := by
            rw [hrs]
            rfl
          have hmax : maxSegmentBytes = 2 ^ 26 := rfl
          omega
    have hcontents : Contents true maxSegmentBytes
        (⟨.closed d, ⟨s.mem.log.dropLast⟩⟩ : Both).disk.partition s.mem.log.dropLast :=
      h.cut hpayloads hshort hroom' hentries
    exact Contents.survives hcontents

instance (s : Both) : (op : Op) → Decidable (Fits s op)
  | .produce payload => inferInstanceAs (Decidable (payload.length < 2 ^ 32 ∧ _))
  | .consume _ _ => isTrue trivial
  | .reopen => isTrue trivial

/-- Two messages of which the second is lost without a trace. -/
theorem torn_survives_run :
    ∃ s, ReachableIf (step maxSegmentBytes) Fits Both.init s ∧ s.mem.log = [[97], [98]] ∧
      Survives (torn s (recordFraming.encodeAll [⟨0, [97]⟩] ++ (Record.encode ⟨1, [98]⟩).take 0)) := by
  have hrun : (execIf (step maxSegmentBytes) (fun s op => decide (Fits s op)) Both.init [.produce [97], .produce
      [98]]).map (fun s => decide (s.mem.log = [[97], [98]] ∧ (s.disk.partition.dir.get
      s.disk.partition.active.baseOffset).map SegmentFiles.log = some (recordFraming.encodeAll [⟨0, [97]⟩, ⟨1,
      [98]⟩]))) = some true := by
    rfl
  obtain ⟨s, hs, hfacts⟩ := map_eq_some_iff.1 hrun
  obtain ⟨hmem, hdir⟩ := of_decide_eq_true hfacts
  obtain ⟨files, hget, hlog⟩ := map_eq_some_iff.1 hdir
  have hreach := ReachableIf.init.execIf (fun _ _ => of_decide_eq_true) hs
  have hvalid : ∀ r ∈ ([⟨0, [97]⟩, ⟨1, [98]⟩] : List Record), recordFraming.Valid r := by
    show ∀ r ∈ ([⟨0, [97]⟩, ⟨1, [98]⟩] : List Record), r.offset < 2 ^ 64 ∧ r.payload.length < 2 ^ 32
    decide
  have hsplit : recordFraming.Splits files.log ([⟨0, [97]⟩] ++ [⟨1, [98]⟩]) [] :=
    hlog ▸ Framing.splits_encodeAll hvalid
  exact ⟨s, hreach, hmem, (torn_survives_iff hreach (by rw [hmem]; decide) hget hsplit
    (by decide)).2 (Or.inl rfl)⟩

/-- Two messages, and a crash in the second one. With twelve bytes left the next offset is 2 although one message
is complete; with five bytes left an empty message is read in the place of the one produced next. -/
theorem tornHeader_lost :
    ∃ s, ReachableIf (step maxSegmentBytes) Fits Both.init s ∧ s.mem.log = [[97], [98]] ∧
      (torn s (recordFraming.encodeAll [⟨0, [97]⟩] ++
        (Record.encode ⟨1, [98]⟩).take 12)).disk.logLength.2 = 2 ∧
      ((torn s (recordFraming.encodeAll [⟨0, [97]⟩] ++
        (Record.encode ⟨1, [98]⟩).take 5)).disk.produce maxSegmentBytes [99]).2 = .ok 1 ∧
      (((torn s (recordFraming.encodeAll [⟨0, [97]⟩] ++ (Record.encode ⟨1, [98]⟩).take 5)).disk.produce
        maxSegmentBytes [99]).1.consume 0 2).2 = some [⟨0, [97]⟩, ⟨0, []⟩] := by
  have hrun : (execIf (step maxSegmentBytes) (fun s op => decide (Fits s op)) Both.init [.produce [97], .produce
      [98]]).map (fun s => decide (s.mem.log = [[97], [98]] ∧ (torn s (recordFraming.encodeAll [⟨0, [97]⟩] ++
      (encode ⟨1, [98]⟩).take 12)).disk.logLength.2 = 2 ∧ ((torn s (recordFraming.encodeAll [⟨0, [97]⟩] ++
      (encode ⟨1, [98]⟩).take 5)).disk.produce maxSegmentBytes [99]).2 = .ok 1 ∧ (((torn s
      (recordFraming.encodeAll [⟨0, [97]⟩] ++ (encode ⟨1, [98]⟩).take 5)).disk.produce maxSegmentBytes
      [99]).1.consume 0 2).2 = some [⟨0, [97]⟩, ⟨0, []⟩])) = some true := by
    rfl
  obtain ⟨s, hs, hfacts⟩ := map_eq_some_iff.1 hrun
  exact ⟨s, ReachableIf.init.execIf (fun _ _ => of_decide_eq_true) hs, of_decide_eq_true hfacts⟩

end SystemDesignLabs.Kafka
