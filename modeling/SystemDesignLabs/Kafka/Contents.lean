import SystemDesignLabs.Kafka.Partition

/-!
# What a partition holds

The payloads of a partition are one list; the offset of a payload is its place in it. `Segment` is a segment
with the payloads of its complete records, the bytes behind them, which begin no record, and its index.
`Holds` says how segments make up the directory and the counters of an open partition, and `Contents` hides the
segments: the partition holds the list of payloads `log`.

Opening a directory keeps the contents (`openPartition_contents`), and `read` returns a part of the list
(`read_contents`).
-/

namespace SystemDesignLabs.Kafka

open Core Record

/-! ### Consecutive records -/

/-- Records with consecutive offsets from `base` on. -/
def recordsFrom : Nat → List Bytes → List Record
  | _, [] => []
  | base, x :: xs => ⟨base, x⟩ :: recordsFrom (base + 1) xs

/-- Messages with consecutive offsets from `base` on. -/
def messagesFrom : Nat → List Bytes → List Message
  | _, [] => []
  | base, x :: xs => ⟨base, x⟩ :: messagesFrom (base + 1) xs

@[simp] theorem length_recordsFrom (base : Nat) (xs : List Bytes) :
    (recordsFrom base xs).length = xs.length := by
  induction xs generalizing base with
  | nil => rfl
  | cons x xs ih => rw [recordsFrom, List.length_cons, List.length_cons, ih]

@[simp] theorem length_messagesFrom (base : Nat) (xs : List Bytes) :
    (messagesFrom base xs).length = xs.length := by
  induction xs generalizing base with
  | nil => rfl
  | cons x xs ih => rw [messagesFrom, List.length_cons, List.length_cons, ih]

theorem recordsFrom_append (base : Nat) (xs ys : List Bytes) :
    recordsFrom base (xs ++ ys) = recordsFrom base xs ++ recordsFrom (base + xs.length) ys := by
  induction xs generalizing base with
  | nil => rfl
  | cons x xs ih =>
    rw [List.cons_append, recordsFrom, ih, recordsFrom, List.cons_append, List.length_cons,
      Nat.add_assoc, Nat.add_comm 1]

theorem messagesFrom_append (base : Nat) (xs ys : List Bytes) :
    messagesFrom base (xs ++ ys) = messagesFrom base xs ++ messagesFrom (base + xs.length) ys := by
  induction xs generalizing base with
  | nil => rfl
  | cons x xs ih =>
    rw [List.cons_append, messagesFrom, ih, messagesFrom, List.cons_append, List.length_cons,
      Nat.add_assoc, Nat.add_comm 1]

theorem drop_recordsFrom (base n : Nat) (xs : List Bytes) :
    (recordsFrom base xs).drop n = recordsFrom (base + n) (xs.drop n) := by
  induction xs generalizing base n with
  | nil => simp [recordsFrom]
  | cons x xs ih =>
    cases n with
    | zero => rfl
    | succ n =>
      rw [recordsFrom, List.drop_succ_cons, ih, List.drop_succ_cons, Nat.add_assoc,
        Nat.add_comm 1]

theorem take_messagesFrom (base n : Nat) (xs : List Bytes) :
    (messagesFrom base xs).take n = messagesFrom base (xs.take n) := by
  induction xs generalizing base n with
  | nil => simp [messagesFrom]
  | cons x xs ih =>
    cases n with
    | zero => rfl
    | succ n => rw [messagesFrom, List.take_succ_cons, ih, List.take_succ_cons, messagesFrom]

theorem map_message_recordsFrom {base : Nat} {xs : List Bytes}
    (h : ∀ r ∈ recordsFrom base xs, r.offset < 2 ^ 63) :
    (recordsFrom base xs).map Record.message = messagesFrom base xs := by
  induction xs generalizing base with
  | nil => rfl
  | cons x xs ih =>
    obtain ⟨hbase, hxs⟩ := List.forall_mem_cons.1 h
    rw [recordsFrom, List.map_cons, ih hxs, messagesFrom, message_of_lt hbase]

theorem filter_messagesFrom (base n : Nat) (xs : List Bytes) :
    (messagesFrom base xs).filter (fun m => ((base + n : Nat) : Int) ≤ m.offset) =
      messagesFrom (base + n) (xs.drop n) := by
  induction xs generalizing base n with
  | nil => simp [messagesFrom]
  | cons x xs ih =>
    rw [messagesFrom, List.filter_cons]
    cases n with
    | zero =>
      have hrest := ih (base + 1) 0
      have hall : ∀ m ∈ messagesFrom (base + 1) xs, ((base + 0 : Nat) : Int) ≤ m.offset := by
        intro m hm
        rw [List.drop_zero, Nat.add_zero] at hrest
        have hmem := List.filter_eq_self.1 hrest m hm
        have hle := of_decide_eq_true hmem
        omega
      have hself := List.filter_eq_self.2 fun m hm => decide_eq_true (hall m hm)
      rw [if_pos (decide_eq_true (by dsimp only; omega)), hself]
      rfl
    | succ n =>
      have hsum : base + (n + 1) = base + 1 + n := by omega
      rw [if_neg (by simp only [decide_eq_true_eq]; omega), hsum, ih, List.drop_succ_cons]

/-! ### Segments -/

/-- A segment and what its files hold. -/
structure Segment where
  info : SegmentInfo
  payloads : List Bytes
  /-- The bytes behind the last complete record. -/
  junk : Bytes
  index : Bytes

namespace Segment

def records (s : Segment) : List Record := recordsFrom s.info.baseOffset s.payloads

def log (s : Segment) : Bytes := recordFraming.encodeAll s.records ++ s.junk

def files (s : Segment) : SegmentFiles := ⟨s.log, s.index⟩

/-- The byte position of the record number `rel`. -/
def position (s : Segment) (rel : Nat) : Nat :=
  (recordFraming.encodeAll (s.records.take rel)).length

/-- An index entry of the segment. An index that is ahead may also have an entry for the record that comes
next. -/
def Entry (ahead : Bool) (s : Segment) (rel pos : Nat) : Prop :=
  rel < s.payloads.length + ahead.toNat ∧ pos = s.position rel

/-- The counters tell what the files hold, the numbers fit their fields, and what lies behind the records is
too short for a header. -/
structure Sound (ahead : Bool) (s : Segment) : Prop where
  msgCount : s.info.msgCount = s.payloads.length
  logSize : s.info.logSize = s.log.length
  offset_lt : ∀ r ∈ s.records, r.offset < 2 ^ 63
  payload_lt : ∀ r ∈ s.records, r.payload.length < 2 ^ 32
  junk_short : s.junk.length < 12
  count_lt : s.payloads.length < 2 ^ 31
  index : IndexOf (s.Entry ahead) s.index

variable {ahead : Bool} {s : Segment}

theorem Sound.valid (h : s.Sound ahead) : ∀ r ∈ s.records, recordFraming.Valid r := fun r hr =>
  ⟨(h.offset_lt r hr).trans (by decide), h.payload_lt r hr⟩

theorem Sound.splits_drop (h : s.Sound ahead) (rel : Nat) :
    recordFraming.Splits (s.log.drop (s.position rel)) (s.records.drop rel) s.junk := by
  refine ⟨?_, fun r hr => h.valid r (List.mem_of_mem_drop hr),
    decode_eq_none_of_lt h.junk_short⟩
  have hlog : s.log = recordFraming.encodeAll (s.records.take rel) ++
      (recordFraming.encodeAll (s.records.drop rel) ++ s.junk) := by
    rw [← List.append_assoc, ← Framing.encodeAll_append, List.take_append_drop, log]
  rw [hlog, position, List.drop_left]

theorem twelve_mul_le (rs : List Record) : 12 * rs.length ≤ (recordFraming.encodeAll rs).length := by
  induction rs with
  | nil => exact Nat.le_refl _
  | cons r rs ih =>
    have hr : (recordFraming.encode r).length = 12 + r.payload.length := length_encode r
    rw [List.length_cons, Framing.encodeAll_cons, List.length_append, hr]
    omega

end Segment

/-! ### Counting -/

theorem countLoop_header (fuel : Nat) (off len : Bytes) (rest : Bytes) (count : Nat)
    (hoff : off.length = 8) (hlen : len.length = 4) :
    countLoop (fuel + 1) (off ++ (len ++ rest)) count =
      countLoop fuel (rest.drop (ofBeBytes len)) (count + 1) := by
  have h₁ : readExact 8 (off ++ (len ++ rest)) = some (off, len ++ rest) :=
    hoff ▸ readExact_append off _
  have h₂ : readExact 4 (len ++ rest) = some (len, rest) := hlen ▸ readExact_append len rest
  rw [countLoop, h₁]
  dsimp only
  rw [h₂]

theorem countLoop_short (fuel : Nat) {s : Bytes} (count : Nat) (h : s.length < 12) :
    countLoop fuel s count = count := by
  cases fuel with
  | zero => rfl
  | succ fuel =>
    rw [countLoop]
    split
    · rfl
    · rename_i t hread
      obtain ⟨hs, hoff⟩ := readExact_sound hread
      have hshort : ¬ 4 ≤ t.length := by
        rw [hs, List.length_append, hoff] at h
        omega
      rw [readExact, if_neg hshort]

theorem countLoop_encodeAll {rs : List Record} (hrs : ∀ r ∈ rs, r.payload.length < 2 ^ 32)
    (fuel : Nat) (rest : Bytes) (count : Nat) :
    countLoop (rs.length + fuel) (recordFraming.encodeAll rs ++ rest) count =
      countLoop fuel rest (count + rs.length) := by
  induction rs generalizing count with
  | nil => rw [List.length_nil, Nat.zero_add, Framing.encodeAll_nil, List.nil_append, Nat.add_zero]
  | cons r rs ih =>
    obtain ⟨hr, hrs⟩ := List.forall_mem_cons.1 hrs
    have hlen : ofBeBytes (beBytes 4 r.payload.length) = r.payload.length := by
      rw [ofBeBytes_beBytes]
      exact Nat.mod_eq_of_lt hr
    have hbytes : recordFraming.encodeAll (r :: rs) ++ rest =
        beBytes 8 r.offset ++ (beBytes 4 r.payload.length ++
          (r.payload ++ (recordFraming.encodeAll rs ++ rest))) := by
      rw [Framing.encodeAll_cons]
      show encode r ++ _ ++ _ = _
      simp only [encode, List.append_assoc]
    have hfuel : (r :: rs).length + fuel = rs.length + fuel + 1 := by
      rw [List.length_cons]
      omega
    rw [hbytes, hfuel, countLoop_header _ _ _ _ _ (length_beBytes ..) (length_beBytes ..), hlen,
      List.drop_left, ih hrs, List.length_cons]
    congr 1
    omega

/-- Complete records with a short rest are counted exactly. -/
theorem countMessagesInLog_encodeAll {rs : List Record}
    (hrs : ∀ r ∈ rs, r.payload.length < 2 ^ 32) {rest : Bytes} (hrest : rest.length < 12) :
    countMessagesInLog (recordFraming.encodeAll rs ++ rest) = rs.length := by
  have hlen := Segment.twelve_mul_le rs
  have hfuel : (recordFraming.encodeAll rs ++ rest).length + 1 =
      rs.length + ((recordFraming.encodeAll rs ++ rest).length + 1 - rs.length) := by
    rw [List.length_append]
    omega
  rw [countMessagesInLog, hfuel, countLoop_encodeAll hrs, countLoop_short _ _ hrest, Nat.zero_add]

/-! ### A partition as a list of payloads -/

/-- The payloads of a list of segments. -/
def payloadsOf (ss : List Segment) : List Bytes := ss.flatMap Segment.payloads

@[simp] theorem payloadsOf_nil : payloadsOf [] = [] := rfl

@[simp] theorem payloadsOf_cons (s : Segment) (ss : List Segment) :
    payloadsOf (s :: ss) = s.payloads ++ payloadsOf ss := rfl

@[simp] theorem payloadsOf_append (ss ss' : List Segment) :
    payloadsOf (ss ++ ss') = payloadsOf ss ++ payloadsOf ss' := by
  rw [payloadsOf, List.flatMap_append]
  rfl

/-- Sound segments, each of which starts where the one before it ends. -/
def Consecutive (ahead : Bool) : Nat → List Segment → Prop
  | _, [] => True
  | base, s :: ss =>
    s.info.baseOffset = base ∧ s.Sound ahead ∧ Consecutive ahead (base + s.payloads.length) ss

theorem consecutive_append {ahead : Bool} {base : Nat} {ss ts : List Segment} :
    Consecutive ahead base (ss ++ ts) ↔
      Consecutive ahead base ss ∧ Consecutive ahead (base + (payloadsOf ss).length) ts := by
  induction ss generalizing base with
  | nil => exact (and_iff_right trivial).symm
  | cons s ss ih =>
    rw [List.cons_append, Consecutive, Consecutive, ih, payloadsOf_cons, List.length_append,
      Nat.add_assoc, and_assoc, and_assoc]

theorem Consecutive.sound {ahead : Bool} {base : Nat} {ss : List Segment}
    (h : Consecutive ahead base ss) : ∀ s ∈ ss, s.Sound ahead := by
  induction ss generalizing base with
  | nil => exact fun _ hs => absurd hs List.not_mem_nil
  | cons t ss ih => exact List.forall_mem_cons.2 ⟨h.2.1, ih h.2.2⟩

/-- The partition consists of the sealed segments `ss` and the active segment `s`. -/
structure Holds (ahead : Bool) (limit : Nat) (p : Partition) (ss : List Segment) (s : Segment)
    (log : List Bytes) : Prop where
  dir : p.dir.entries = (ss ++ [s]).map fun s => (s.info.baseOffset, s.files)
  sealed : p.sealed = ss.map Segment.info
  active : p.active = s.info
  consecutive : Consecutive ahead 0 (ss ++ [s])
  /-- Behind incomplete bytes nothing is appended any more. -/
  room : s.junk = [] ∨ (limit ≤ s.info.logSize ∧ s.payloads ≠ [])
  content : log = payloadsOf (ss ++ [s])
  nextOff : p.nextOff = log.length

/-- The partition holds the payloads `log`. -/
def Contents (ahead : Bool) (limit : Nat) (p : Partition) (log : List Bytes) : Prop :=
  ∃ ss s, Holds ahead limit p ss s log

variable {ahead : Bool} {limit : Nat} {p : Partition} {ss : List Segment} {s : Segment}
  {log : List Bytes}

section

variable (h : Holds ahead limit p ss s log)
include h

theorem Holds.sound : s.Sound ahead :=
  h.consecutive.sound s (List.mem_append_right ss List.mem_cons_self)

theorem Holds.base : s.info.baseOffset = (payloadsOf ss).length :=
  (consecutive_append.1 h.consecutive).2.1.trans (Nat.zero_add _)

theorem Holds.length :
    log.length = s.info.baseOffset + s.payloads.length := by
  rw [h.content, payloadsOf_append, List.length_append, h.base, payloadsOf_cons, payloadsOf_nil,
    List.append_nil]

theorem Holds.get {t : Segment} (ht : t ∈ ss ++ [s]) :
    p.dir.get t.info.baseOffset = some t.files := by
  rw [← SortedMap.mem_entries_iff, h.dir]
  exact List.mem_map_of_mem ht

end

/-! ### Opening -/

/-- A segment as `open` finds it: nothing is pending. -/
def Segment.reopened (s : Segment) : Segment := { s with info := { s.info with pending := 0 } }

theorem Segment.Sound.reopened (h : s.Sound ahead) : s.reopened.Sound ahead :=
  ⟨h.msgCount, h.logSize, h.offset_lt, h.payload_lt, h.junk_short, h.count_lt, h.index⟩

theorem Segment.Sound.count (h : s.Sound ahead) :
    countMessagesInLog s.files.log = s.payloads.length := by
  rw [Segment.files, Segment.log, countMessagesInLog_encodeAll h.payload_lt h.junk_short,
    Segment.records, length_recordsFrom]

theorem Segment.Sound.openSegment (hs : s.Sound ahead) {d : Directory}
    (h : d.get s.info.baseOffset = some s.files) (create : Bool) :
    openSegment d s.info.baseOffset create = (d, s.reopened.info) := by
  rw [Kafka.openSegment, h]
  dsimp only
  rw [hs.count, ← hs.msgCount, Segment.files, ← hs.logSize]
  rfl

theorem Consecutive.reopened {base : Nat} (h : Consecutive ahead base ss) :
    Consecutive ahead base (ss.map Segment.reopened) := by
  induction ss generalizing base with
  | nil => trivial
  | cons t ss ih => exact ⟨h.1, h.2.1.reopened, ih h.2.2⟩

theorem payloadsOf_reopened (ss : List Segment) :
    payloadsOf (ss.map Segment.reopened) = payloadsOf ss := by
  rw [payloadsOf, List.flatMap_map]
  rfl

theorem openPartition_eq {d : Directory} (hss : ∀ t ∈ ss, t.Sound ahead) {base : Nat}
    {files : SegmentFiles}
    (hd : d.entries = ss.map (fun t => (t.info.baseOffset, t.files)) ++ [(base, files)]) :
    openPartition d = ⟨d, ss.map (fun t => t.reopened.info),
      ⟨base, files.log.length, countMessagesInLog files.log, 0⟩,
      base + countMessagesInLog files.log⟩ := by
  have hlast : openSegment d base false =
      (d, ⟨base, files.log.length, countMessagesInLog files.log, 0⟩) := by
    have hget : d.get base = some files := by
      rw [← SortedMap.mem_entries_iff, hd]
      exact List.mem_append_right _ List.mem_cons_self
    rw [openSegment, hget]
  have hsegments : (d.entries.map fun e => (openSegment d e.1 false).2) =
      ss.map (fun t => t.reopened.info) ++
        [⟨base, files.log.length, countMessagesInLog files.log, 0⟩] := by
    have hmap : (ss.map fun t => (openSegment d t.info.baseOffset false).2) =
        ss.map fun t => t.reopened.info := by
      apply List.map_congr_left
      intro t ht
      have hget : d.get t.info.baseOffset = some t.files := by
        rw [← SortedMap.mem_entries_iff, hd]
        exact List.mem_append_left _ (List.mem_map_of_mem ht)
      rw [(hss t ht).openSegment hget]
    rw [hd, List.map_append, List.map_map, List.map_singleton, hlast]
    exact congrArg (· ++ _) hmap
  rw [openPartition]
  dsimp only
  rw [hsegments, List.getLast?_concat, List.dropLast_concat]

/-- Closing and opening keeps the contents. -/
theorem openPartition_holds (h : Holds ahead limit p ss s log) :
    Holds ahead limit (openPartition p.dir) (ss.map Segment.reopened) s.reopened log := by
  have hentries : p.dir.entries = ss.map (fun t => (t.info.baseOffset, t.files)) ++
      [(s.info.baseOffset, s.files)] := by
    rw [h.dir, List.map_append]
    rfl
  have hcount : countMessagesInLog s.files.log = s.info.msgCount := by
    rw [h.sound.msgCount, h.sound.count]
  have hopen : openPartition p.dir = ⟨p.dir, ss.map (fun t => t.reopened.info), s.reopened.info,
      s.info.baseOffset + s.info.msgCount⟩ := by
    have hss : ∀ t ∈ ss, t.Sound ahead := fun t ht =>
      h.consecutive.sound t (List.mem_append_left _ ht)
    rw [openPartition_eq hss hentries, hcount, Segment.files, ← h.sound.logSize]
    rfl
  have hall : ss.map Segment.reopened ++ [s.reopened] = (ss ++ [s]).map Segment.reopened := by
    rw [List.map_append]
    rfl
  rw [hopen]
  refine ⟨?_, ?_, rfl, ?_, h.room, ?_, ?_⟩
  · show p.dir.entries = _
    rw [h.dir, hall, List.map_map]
    rfl
  · show ss.map (fun t => t.reopened.info) = _
    rw [List.map_map]
    rfl
  · rw [hall]
    exact h.consecutive.reopened
  · rw [hall, payloadsOf_reopened]
    exact h.content
  · show s.info.baseOffset + s.info.msgCount = log.length
    rw [h.sound.msgCount, h.length]

theorem Contents.reopen (h : Contents ahead limit p log) : Contents ahead limit (openPartition p.dir) log := by
  obtain ⟨ss, s, h⟩ := h
  exact ⟨_, _, openPartition_holds h⟩

theorem openPartition_empty (ahead : Bool) (limit : Nat) : Contents ahead limit (openPartition .empty) [] := by
  refine ⟨[], ⟨⟨0, 0, 0, 0⟩, [], [], []⟩, rfl, rfl, rfl, ⟨rfl, ?_, trivial⟩, Or.inl rfl, rfl, rfl⟩
  exact ⟨rfl, rfl, fun _ hr => absurd hr List.not_mem_nil, fun _ hr => absurd hr List.not_mem_nil,
    by decide, by decide, IndexOf.nil _⟩

/-! ### Reading -/

theorem Segment.Sound.read (h : s.Sound ahead) {d : Directory} (hd : d.get s.info.baseOffset = some s.files)
    {rel : Nat} (hrel : rel ≤ s.payloads.length) (n : Nat) :
    Partition.readFromSegment d s.info ((s.info.baseOffset + rel : Nat) : Int) n =
      some (messagesFrom (s.info.baseOffset + rel) ((s.payloads.drop rel).take n)) := by
  have hstart : ∃ k ≤ rel, indexLookup s.files.index s.info.baseOffset
      ((s.info.baseOffset + rel : Nat) : Int) = s.position k := by
    rcases indexLookup_spec h.index s.info.baseOffset (lt_of_le_of_lt hrel h.count_lt) with
      hzero | ⟨k, hk, hentry⟩
    · exact ⟨0, Nat.zero_le _, hzero⟩
    · exact ⟨k, hk, hentry.2⟩
  obtain ⟨k, hk, hpos⟩ := hstart
  have hoffset : ∀ r ∈ recordsFrom (s.info.baseOffset + k) (s.payloads.drop k),
      r.offset < 2 ^ 63 := by
    intro r hr
    rw [← drop_recordsFrom] at hr
    exact h.offset_lt r (List.mem_of_mem_drop hr)
  obtain ⟨m, rfl⟩ := Nat.exists_eq_add_of_le hk
  rw [Partition.readFromSegment, hd, Option.map_some, hpos]
  show some (scan _ n (s.log.drop _)) = _
  rw [scan_splits (h.splits_drop k), Segment.records, drop_recordsFrom,
    map_message_recordsFrom hoffset, ← Nat.add_assoc, filter_messagesFrom, take_messagesFrom,
    List.drop_drop]

theorem readLoop_consecutive {d : Directory} {base : Nat}
    (h : Consecutive ahead base ss) (hd : ∀ s ∈ ss, d.get s.info.baseOffset = some s.files) {rel : Nat}
    (hrel : ∀ s rest, ss = s :: rest → rel ≤ s.payloads.length) (n : Nat) :
    Partition.readLoop d (ss.map Segment.info) ((base + rel : Nat) : Int) n =
      some (messagesFrom (base + rel) (((payloadsOf ss).drop rel).take n)) := by
  induction ss generalizing base rel n with
  | nil => simp [Partition.readLoop, messagesFrom]
  | cons s ss ih =>
    obtain ⟨rfl, hs, h⟩ := h
    obtain ⟨hds, hd⟩ := List.forall_mem_cons.1 hd
    have hle : rel ≤ s.payloads.length := hrel s ss rfl
    rw [List.map_cons, Partition.readLoop]
    by_cases hn : n = 0
    · rw [if_pos hn, hn, List.take_zero]
      rfl
    · have hfirst : ∀ t rest, ss = t :: rest → 0 ≤ t.payloads.length := fun _ _ _ =>
        Nat.zero_le _
      have hrest := ih h hd hfirst
        (n - (messagesFrom (s.info.baseOffset + rel) ((s.payloads.drop rel).take n)).length)
      rw [Nat.add_zero, ← hs.msgCount, List.drop_zero] at hrest
      rw [if_neg hn, hs.read hds hle, Option.bind_eq_bind, Option.bind_some, hrest,
        Option.bind_some, payloadsOf_cons, List.drop_append_of_le_length hle,
        List.take_append, messagesFrom_append, length_messagesFrom, hs.msgCount]
      by_cases hshort : s.payloads.length - rel ≤ n
      · have hlen : ((s.payloads.drop rel).take n).length = s.payloads.length - rel := by
          rw [List.length_take, List.length_drop]
          omega
        have hnext : s.info.baseOffset + rel + (s.payloads.length - rel) =
            s.info.baseOffset + s.payloads.length := by omega
        rw [hlen, List.length_drop, hnext]
      · have hlen : ((s.payloads.drop rel).take n).length = n := by
          rw [List.length_take, List.length_drop]
          omega
        have hzero : n - (s.payloads.length - rel) = 0 := by omega
        rw [hlen, List.length_drop, hzero, Nat.sub_self, List.take_zero]
        rfl

theorem Consecutive.drop {base : Nat} (h : Consecutive ahead base ss) (i : Nat) :
    Consecutive ahead (base + (payloadsOf (ss.take i)).length) (ss.drop i) := by
  rw [← List.take_append_drop i ss] at h
  exact (consecutive_append.1 h).2

theorem search_segment (all : List Segment) (offset : Int) :
    let upper := search (all.map Segment.info).length fun i =>
      decide (∃ seg ∈ (all.map Segment.info)[i]?, offset < (seg.baseOffset : Int))
    (upper = 0 ∧ ∀ t rest, all = t :: rest → offset < t.info.baseOffset) ∨
      ∃ i t, upper = i + 1 ∧ all.drop i = t :: all.drop (i + 1) ∧ (t.info.baseOffset : Int) ≤ offset ∧
        ∀ t' rest, all.drop (i + 1) = t' :: rest → offset < t'.info.baseOffset := by
  intro upper
  have hbound := search_boundary (all.map Segment.info).length fun i =>
    decide (∃ seg ∈ (all.map Segment.info)[i]?, offset < (seg.baseOffset : Int))
  have habove : ∀ t rest, all.drop upper = t :: rest → offset < t.info.baseOffset := by
    intro t rest ht
    have hget : all[upper]? = some t := by
      rw [← List.head?_drop, ht, List.head?_cons]
    have hlt : upper < (all.map Segment.info).length := by
      rw [List.length_map]
      exact (List.getElem?_eq_some_iff.1 hget).1
    obtain ⟨seg, hseg, hoff⟩ := of_decide_eq_true (hbound.at_ hlt)
    rw [List.getElem?_map, hget] at hseg
    exact Option.some.inj hseg ▸ hoff
  cases hupper : upper with
  | zero => exact Or.inl ⟨rfl, fun t rest ht => habove t rest (by rw [hupper, List.drop_zero, ht])⟩
  | succ i =>
    have hlt : i < all.length := by
      have hle : upper ≤ (all.map Segment.info).length := hbound.le
      rw [List.length_map, hupper] at hle
      exact hle
    have hbefore := of_decide_eq_false (hbound.before i hupper)
    refine Or.inr ⟨i, all[i], rfl, List.drop_eq_getElem_cons hlt, ?_, ?_⟩
    · by_contra hoff
      refine hbefore ⟨all[i].info, ?_, not_le.1 hoff⟩
      rw [List.getElem?_map, List.getElem?_eq_getElem hlt]
      rfl
    · intro t rest ht
      exact habove t rest (by rw [hupper, ht])

/-- What `read` returns. -/
theorem Contents.read (h : Contents ahead limit p log) (off : Nat) (n : Int) :
    p.read off n = some (messagesFrom off ((log.drop off).take n.toNat)) := by
  obtain ⟨ss, s, h⟩ := h
  rw [Partition.read]
  by_cases hempty : n ≤ 0 ∨ (p.nextOff : Int) ≤ off
  · rw [if_pos hempty]
    rcases hempty with hn | hoff
    · rw [Int.toNat_of_nonpos hn, List.take_zero]
      rfl
    · rw [h.nextOff] at hoff
      rw [List.drop_eq_nil_of_le (Int.ofNat_le.1 hoff), List.take_nil]
      rfl
  · rw [if_neg hempty]
    have hlt : off < log.length := by
      rw [← h.nextOff]
      omega
    have hsegments : p.sealed ++ [p.active] = (ss ++ [s]).map Segment.info := by
      rw [h.sealed, h.active, List.map_append]
      rfl
    rw [hsegments]
    dsimp only
    generalize hall : ss ++ [s] = all
    have hcons : Consecutive ahead 0 all := hall ▸ h.consecutive
    have hget : ∀ t ∈ all, p.dir.get t.info.baseOffset = some t.files := fun t ht =>
      h.get (hall ▸ ht)
    have hlog : log = payloadsOf all := hall ▸ h.content
    rcases search_segment all (off : Int) with ⟨hupper, hfirst⟩ | ⟨i, t, hupper, hdrop, hle, hnext⟩
    · exfalso
      cases all with
      | nil => exact List.append_ne_nil_of_right_ne_nil ss (List.cons_ne_nil s []) hall
      | cons t rest =>
        have hneg := hfirst t rest rfl
        rw [hcons.1] at hneg
        exact absurd hneg (by simp)
    · have hfrom := hcons.drop i
      have hbase : t.info.baseOffset = (payloadsOf (all.take i)).length := by
        rw [hdrop] at hfrom
        exact hfrom.1.trans (Nat.zero_add _)
      have hsplit : log = payloadsOf (all.take i) ++ payloadsOf (all.drop i) := by
        rw [hlog, ← payloadsOf_append, List.take_append_drop]
      obtain ⟨rel, rfl⟩ := Nat.exists_eq_add_of_le (Int.ofNat_le.1 hle)
      have hrel : ∀ t' rest, all.drop i = t' :: rest → rel ≤ t'.payloads.length := by
        intro t' rest ht'
        rw [hdrop] at ht'
        obtain ⟨rfl, rfl⟩ := List.cons.inj ht'
        have hafter := (hdrop ▸ hfrom).2.2
        cases hr : all.drop (i + 1) with
        | nil =>
          rw [hsplit, List.length_append, hdrop, hr, payloadsOf_cons, payloadsOf_nil,
            List.append_nil] at hlt
          omega
        | cons t' rest =>
          have hlt' := hnext t' rest hr
          rw [hr] at hafter
          have hbase' := hafter.1
          omega
      have hread := readLoop_consecutive hfrom (fun t ht => hget t (List.mem_of_mem_drop ht)) hrel
        n.toNat
      rw [Nat.zero_add, ← hbase] at hread
      rw [hupper, if_neg (Nat.succ_ne_zero i), Nat.add_sub_cancel, ← List.map_drop, hread, hsplit,
        hbase, List.drop_length_add_append]

theorem Partition.read_neg (p : Partition) {offset : Int} (h : offset < 0) (n : Int) :
    p.read offset n = some [] := by
  rw [Partition.read]
  split
  · rfl
  · have hbound := search_boundary (p.sealed ++ [p.active]).length fun i =>
      decide (∃ seg ∈ (p.sealed ++ [p.active])[i]?, offset < (seg.baseOffset : Int))
    dsimp only
    rw [if_pos]
    by_contra hne
    obtain ⟨i, hi⟩ := Nat.exists_eq_add_one_of_ne_zero hne
    have hlt : i < (p.sealed ++ [p.active]).length := by
      have hle := hbound.le
      omega
    refine of_decide_eq_false (hbound.before i hi) ⟨_, List.getElem?_eq_getElem hlt, ?_⟩
    exact lt_of_lt_of_le h (Int.natCast_nonneg _)

end SystemDesignLabs.Kafka
