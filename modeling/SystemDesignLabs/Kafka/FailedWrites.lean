import SystemDesignLabs.Kafka.Append

/-!
# Offsets when writes fail

A producer calls `append` again and again, and any write or fsync may fail. As long as no failure leaves a record
behind that the counters do not count, every offset that can be read belongs to one record, a range is read without
gaps, and an acknowledged payload is found at its offset (`offsets_unique`). A log write that fails after its last
byte, and an index write that fails at all, leave such a record: the next one gets the same offset
(`failedWrite_duplicates`).
-/

namespace SystemDesignLabs.Kafka

open Core

/-- A partition and the payloads that were acknowledged, with the offsets returned for them. -/
structure Producer where
  partition : Partition
  acks : List (Nat × Bytes)
  deriving DecidableEq

/-- One call of `Produce`, with the failures it meets. -/
structure Call where
  faults : Faults
  payload : Bytes
  deriving DecidableEq

/-- Run a call on a partition with the segment size of the broker. -/
def Producer.call (s : Producer) (c : Call) : Option Producer :=
  let result := s.partition.append maxSegmentBytes c.faults c.payload
  match result.2 with
  | .ok o => some ⟨result.1, (o, c.payload) :: s.acks⟩
  | .error _ => some ⟨result.1, s.acks⟩

/-- The partition of an empty directory. -/
def Producer.init : Producer := ⟨openPartition .empty, []⟩

/-- No failure leaves a record that is not counted, the payload fits its length field, and there is an
offset left. -/
def Call.Clean (s : Producer) (c : Call) : Prop :=
  c.faults.Harmless ∧ c.payload.length < 2 ^ 32 ∧ s.partition.nextOff < 2 ^ 63

instance (s : Producer) (c : Call) : Decidable (c.Clean s) := inferInstanceAs (Decidable (_ ∧ _))

/-- The message is returned by some call of `Consume`. -/
def Readable (p : Partition) (m : Message) : Prop := ∃ offset n ms, p.read offset n = some ms ∧ m ∈ ms

/-- What a log promises about its offsets. -/
structure OffsetsUnique (s : Producer) : Prop where
  /-- Two readable records with the same offset are the same record. -/
  unique : ∀ m m', Readable s.partition m → Readable s.partition m' → m.offset = m'.offset → m = m'
  /-- What one call returns has consecutive offsets. -/
  consecutive : ∀ offset n ms, s.partition.read offset n = some ms →
    ms.IsChain fun m m' => m'.offset = m.offset + 1
  /-- An acknowledged payload is returned at its offset. -/
  acked : ∀ a ∈ s.acks, ∀ n, 0 < n →
    ∃ rest, s.partition.read a.1 n = some (⟨a.1, a.2⟩ :: rest)

/-! ### The list of payloads -/

theorem mem_messagesFrom {base : Nat} {xs : List Bytes} {m : Message} (h : m ∈ messagesFrom base xs) :
    ∃ i : Nat, m.offset = ((base + i : Nat) : Int) ∧ xs[i]? = some m.payload := by
  induction xs generalizing base with
  | nil => exact absurd h List.not_mem_nil
  | cons x xs ih =>
    rcases List.mem_cons.1 h with rfl | h
    · exact ⟨0, rfl, rfl⟩
    · obtain ⟨i, hoffset, hpayload⟩ := ih h
      refine ⟨i + 1, ?_, hpayload⟩
      rw [hoffset]
      congr 1
      omega

theorem isChain_messagesFrom (base : Nat) (xs : List Bytes) :
    (messagesFrom base xs).IsChain fun m m' => m'.offset = m.offset + 1 := by
  induction xs generalizing base with
  | nil => exact .nil
  | cons x xs ih =>
    cases xs with
    | nil => exact .singleton _
    | cons y ys =>
      refine .cons_cons ?_ (ih (base + 1))
      exact Nat.cast_succ base

theorem Contents.readable {ahead : Bool} {limit : Nat} {p : Partition} {log : List Bytes}
    (h : Contents ahead limit p log) {m : Message} (hm : Readable p m) :
    ∃ i : Nat, m.offset = i ∧ log[i]? = some m.payload := by
  obtain ⟨offset, n, ms, hread, hmem⟩ := hm
  by_cases hneg : offset < 0
  · rw [p.read_neg hneg n, Option.some.injEq] at hread
    exact absurd (hread ▸ hmem) List.not_mem_nil
  · obtain ⟨off, rfl⟩ := Int.eq_ofNat_of_zero_le (not_lt.1 hneg)
    rw [h.read, Option.some.injEq] at hread
    obtain ⟨i, hoffset, hpayload⟩ := mem_messagesFrom (hread ▸ hmem)
    refine ⟨off + i, hoffset, ?_⟩
    rw [List.getElem?_take, List.getElem?_drop] at hpayload
    split at hpayload
    · exact hpayload
    · exact absurd hpayload (by simp)

/-- A partition that holds a list of payloads keeps the promises. -/
theorem Contents.offsetsUnique {ahead : Bool} {limit : Nat} {s : Producer} {log : List Bytes}
    (h : Contents ahead limit s.partition log) (hacks : ∀ a ∈ s.acks, log[a.1]? = some a.2) : OffsetsUnique s := by
  refine ⟨?_, ?_, ?_⟩
  · intro m m' hm hm' heq
    obtain ⟨i, hi, hpayload⟩ := h.readable hm
    obtain ⟨i', hi', hpayload'⟩ := h.readable hm'
    have hii : i = i' := by omega
    subst hii
    have hsame : m.payload = m'.payload := Option.some.inj (hpayload.symm.trans hpayload')
    cases m
    cases m'
    simp only at heq hsame
    rw [heq, hsame]
  · intro offset n ms hread
    by_cases hneg : offset < 0
    · rw [s.partition.read_neg hneg n, Option.some.injEq] at hread
      exact hread ▸ .nil
    · obtain ⟨off, rfl⟩ := Int.eq_ofNat_of_zero_le (not_lt.1 hneg)
      rw [h.read, Option.some.injEq] at hread
      exact hread ▸ isChain_messagesFrom _ _
  · intro a ha n hn
    obtain ⟨hlt, hget⟩ := List.getElem?_eq_some_iff.1 (hacks a ha)
    obtain ⟨k, hk⟩ : ∃ k, n.toNat = k + 1 := ⟨n.toNat - 1, by omega⟩
    rw [h.read, List.drop_eq_getElem_cons hlt, hget, hk, List.take_succ_cons, messagesFrom]
    exact ⟨_, rfl⟩

/-! ### Runs with failures -/

/-- The partition holds some list of payloads, and each acknowledged one is at its place. -/
def Producer.Inv (s : Producer) : Prop :=
  ∃ log, Contents false maxSegmentBytes s.partition log ∧ ∀ a ∈ s.acks, log[a.1]? = some a.2

theorem Producer.Inv.call {s : Producer} (h : s.Inv) {c : Call} (hc : c.Clean s) {t : Producer}
    (hcall : s.call c = some t) : t.Inv := by
  obtain ⟨log, hcontents, hacks⟩ := h
  obtain ⟨hfaults, hpayload, hoffset⟩ := hc
  have hlength : s.partition.nextOff = log.length := by
    obtain ⟨ss, last, hholds⟩ := hcontents
    exact hholds.nextOff
  have hstart : maxSegmentBytes ≤ s.partition.active.logSize ∨
      s.partition.active.logSize < 2 ^ 32 := by
    have hmax : maxSegmentBytes ≤ 2 ^ 32 := by decide
    omega
  have hspec := append_spec (by decide) hcontents hstart hpayload (hlength ▸ hoffset) hfaults
  have hmore : ∀ a ∈ s.acks, (log ++ [c.payload])[a.1]? = some a.2 := fun a ha =>
    List.getElem?_append_left (List.getElem?_eq_some_iff.1 (hacks a ha)).1 ▸ hacks a ha
  rw [Producer.call] at hcall
  generalize s.partition.append maxSegmentBytes c.faults c.payload = result at hspec hcall
  cases hspec with
  | unchanged e hsame =>
    obtain rfl := Option.some.inj hcall
    exact ⟨log, hsame, hacks⟩
  | unsynced hadded =>
    obtain rfl := Option.some.inj hcall
    exact ⟨_, hadded, hmore⟩
  | done hadded =>
    obtain rfl := Option.some.inj hcall
    refine ⟨_, hadded, List.forall_mem_cons.2 ⟨?_, hmore⟩⟩
    exact List.getElem?_concat_length

/-- **Offsets stay unique** in every run whose calls are all clean. -/
theorem offsets_unique {s : Producer}
    (hs : ReachableIf Producer.call (fun s c => c.Clean s) Producer.init s) : OffsetsUnique s := by
  have hinv : s.Inv := ReachableIf.invariant
    ⟨[], openPartition_empty _ _, fun _ ha => absurd ha List.not_mem_nil⟩
    (fun _ _ _ _ h hc hcall => h.call hc hcall) hs
  obtain ⟨log, hcontents, hacks⟩ := hinv
  exact hcontents.offsetsUnique hacks

/-- A run in which a log write fails without a trace, and a fsync fails. -/
theorem offsets_unique_run :
    ∃ s, ReachableIf Producer.call (fun s c => c.Clean s) Producer.init s ∧ s.acks = [(0, [98])] ∧
      OffsetsUnique s := by
  have hrun : (execIf Producer.call (fun s c => decide (c.Clean s)) Producer.init
      [⟨⟨false, some .noBytes, none, false⟩, [97]⟩, ⟨⟨true, none, none, true⟩, [98]⟩]).map
        (fun s => decide (s.acks = [(0, [98])])) = some true := by
    rfl
  obtain ⟨s, hs, hacks⟩ := Option.map_eq_some_iff.1 hrun
  have hreach := ReachableIf.init.execIf (fun _ _ => of_decide_eq_true) hs
  exact ⟨s, hreach, of_decide_eq_true hacks, offsets_unique hreach⟩

/-- A failing log write that leaves all bytes: the second call is acknowledged with the offset 0, where the first
payload is read. A failing index write for the fifth message: two records with the offset 4 are read. -/
theorem failedWrite_duplicates :
    (exec Producer.call Producer.init
        [⟨⟨false, some .allBytes, none, false⟩, [97]⟩, ⟨Faults.none, [98]⟩]).map
        (fun s => decide (s.acks = [(0, [98])] ∧
          s.partition.read 0 2 = some [⟨0, [97]⟩, ⟨0, [98]⟩])) = some true ∧
      (exec Producer.call Producer.init
        [⟨Faults.none, [97]⟩, ⟨Faults.none, [98]⟩, ⟨Faults.none, [99]⟩, ⟨Faults.none, [100]⟩,
          ⟨⟨false, none, some 0, false⟩, [101]⟩, ⟨Faults.none, [102]⟩]).map
        (fun s => decide (s.partition.read 3 3 =
          some [⟨3, [100]⟩, ⟨4, [101]⟩, ⟨4, [102]⟩])) = some true := by
  decide

end SystemDesignLabs.Kafka
