import SystemDesignLabs.LsmKv.Invariant

/-!
# The store refines a map

A run is read as the list of the entries it writes, and the map it stands for is the last write of
each key. `Answers` says that the store answers as that list does; writing, flushing and compaction
keep it. `get_refines` is the statement about runs: every run answers with the last write, and a run
only fails when its entries or its table numbers outgrow 64 bits.
-/

namespace SystemDesignLabs.LsmKv

open List (Forall₂ append_nil filterMap_cons length_append length_cons map_cons mem_cons mem_filterMap not_mem_nil
  sum_cons)

open Core SortedList

/-! ## What a run writes -/

/-- The entry that an operation writes. -/
def Op.entry : Op → Option Entry
  | .put key value => some (key, .live value)
  | .delete key => some (key, .tombstone)
  | .flush => none
  | .reopen => none

/-- The entries that a run writes, in order. -/
def writes (ops : List Op) : List Entry := ops.filterMap Op.entry

theorem writes_concat (ops : List Op) (op : Op) : writes (ops ++ [op]) = writes ops ++ op.entry.toList := by
  rw [writes, List.filterMap_append]
  cases op <;> rfl

/-- The value of the last write of a key, if that is a `put`. -/
def lastWrite (key : Bytes) (ops : List Op) : Option Bytes :=
  (find (writes ops).reverse key).bind Value.asBytes

/-- A bound on the bytes that an operation adds to a file. -/
def Op.size : Op → Nat
  | .put key value => 16 + key.length + value.length
  | .delete key => 16 + key.length
  | .flush => 16
  | .reopen => 16

section Refinement

variable {hash : Bytes → BitVec 64 → BitVec 64} {s : Lsm} {cs : Contents} {ws : List Entry}

/-- The store answers as the list of writes does, and holds nothing that was not written. -/
structure Answers (hash : Bytes → BitVec 64 → BitVec 64) (ws : List Entry) (s : Lsm)
    (cs : Contents) : Prop where
  stored : Stored hash s cs
  complete : ∀ level, List.Forall₂ (Complete hash) (s.tables level) (cs level)
  answers : ∀ key, (overlay (s.memtable :: cs.layers) key).bind Value.asBytes =
    (find ws.reverse key).bind Value.asBytes
  written : ∀ e ∈ s.memtable.entries, e ∈ ws
  writtenTables : ∀ level, ∀ c ∈ cs level, ∀ e ∈ c.map.entries, e ∈ ws

/-! ## Steps -/

theorem Answers.writeMem (h : Answers hash ws s cs) {e : Entry} (he : Small e) :
    Answers hash (ws ++ [e]) (s.writeMem e.1 e.2) cs := by
  have hinsert : ∀ e' ∈ (s.memtable.insert e.1 e.2).entries, e' = e ∨ e' ∈ s.memtable.entries :=
    fun _ he' => mem_insertList he'
  constructor
  · refine { h.stored with tables := h.stored.tables, memtable := fun e' he' => ?_ }
    rcases hinsert e' he' with rfl | he'
    · exact he
    · exact h.stored.memtable e' he'
  · exact h.complete
  · intro key
    have hkey := h.answers key
    show (overlay (s.memtable.insert e.1 e.2 :: cs.layers) key).bind _ = _
    rw [overlay_cons] at hkey
    rw [overlay_cons, SortedMap.get_insert, List.reverse_append, List.reverse_singleton, List.singleton_append]
    by_cases heq : e.1 = key
    · subst heq
      rw [if_pos rfl, find_cons_self]
      rfl
    · rw [if_neg (Ne.symm heq), find_cons_ne heq, hkey]
  · intro e' he'
    rcases hinsert e' he' with rfl | he'
    · exact List.mem_append_right _ (List.mem_singleton_self _)
    · exact List.mem_append_left _ (h.written e' he')
  · exact fun level c hc e' he' => List.mem_append_left _ (h.writtenTables level c hc e' he')

variable {s' : Lsm}

theorem Answers.flushMemtable (h : Answers hash ws s cs) (hs : s.flushMemtable hash = some s') :
    Answers hash ws s' (cs.flushed s) := by
  have hstored := h.stored.flushMemtable hs
  obtain ⟨-, f, -, rfl⟩ := flushMemtable_eq_some.1 hs
  refine ⟨hstored, fun level => ?_, fun key => ?_, ?_, fun level c hc => ?_⟩
  · cases level with
    | l0 =>
      exact Forall₂.cons (freshTable_complete hash .l0 ⟨s.nextSeq, s.memtable⟩)
        (h.complete .l0)
    | l1 => exact h.complete .l1
  · rw [← h.answers key, overlay_cons]
    rfl
  · exact fun e he => absurd he (by simp [SortedMap.empty])
  · cases level with
    | l0 =>
      rcases mem_cons.1 hc with rfl | hc
      · exact h.written
      · exact h.writtenTables .l0 c hc
    | l1 => exact h.writtenTables .l1 c hc

theorem asBytes_filter (o : Option Value) :
    (o.filter fun v => !v.isTombstone).bind Value.asBytes = o.bind Value.asBytes := by
  cases o with
  | none => rfl
  | some v =>
    cases v with
    | live b => rfl
    | tombstone => rfl

theorem Answers.compactL0ToL1 (h : Answers hash ws s cs) (hs : s.compactL0ToL1 hash = some s') :
    Answers hash ws s' (cs.afterCompaction s) := by
  have hstored := h.stored.compactL0ToL1 hs
  obtain ⟨-, files', -, rfl⟩ := h.stored.compactL0ToL1_eq hs
  refine ⟨hstored, fun level => ?_, fun key => ?_, h.written, fun level c hc e he => ?_⟩
  · cases level with
    | l0 => exact Forall₂.nil
    | l1 => exact Forall₂.cons (freshTable_complete hash .l1 _) Forall₂.nil
  · rw [← h.answers key, overlay_cons, overlay_cons]
    show ((s.memtable.get key).or (overlay [cs.compacted] key)).bind _ = _
    rw [overlay_cons, get_compacted]
    cases s.memtable.get key with
    | some v => rfl
    | none => simpa only [overlay, Option.or_none, Option.none_or] using asBytes_filter _
  · cases level with
    | l0 => exact absurd hc not_mem_nil
    | l1 =>
      rw [List.mem_singleton.1 hc] at he
      obtain ⟨-, level, c, hc, hec⟩ := mem_compacted he
      exact h.writtenTables level c hc e hec

variable {P : Params}

theorem Answers.maybeFlushAndCompact (h : Answers P.hash ws s cs) (hs : s.maybeFlushAndCompact P = some s') :
    ∃ cs', Answers P.hash ws s' cs' ∧ s'.nextSeq ≤ s.nextSeq + 2 := by
  simp only [Lsm.maybeFlushAndCompact, Option.bind_eq_bind, Option.bind_eq_some_iff] at hs
  obtain ⟨t, ht, hs⟩ := hs
  obtain ⟨cs₁, h₁, hseq₁⟩ : ∃ cs₁, Answers P.hash ws t cs₁ ∧ t.nextSeq ≤ s.nextSeq + 1 := by
    rw [Lsm.maybeFlush] at ht
    split at ht
    · refine ⟨_, h.flushMemtable ht, ?_⟩
      obtain ⟨-, f, -, rfl⟩ := flushMemtable_eq_some.1 ht
      exact le_rfl
    · cases ht
      exact ⟨cs, h, Nat.le_succ _⟩
  rw [Lsm.maybeCompact] at hs
  split at hs
  · refine ⟨_, h₁.compactL0ToL1 hs, ?_⟩
    obtain ⟨-, files', -, rfl⟩ := h₁.stored.compactL0ToL1_eq hs
    exact Nat.succ_le_succ hseq₁
  · cases hs
    exact ⟨cs₁, h₁, Nat.le_succ_of_le hseq₁⟩

/-- One operation. -/
theorem Answers.step {ops : List Op} (h : Answers P.hash (writes ops) s cs) {op : Op} (hop : op ≠ .reopen)
    (hsmall : ∀ e ∈ op.entry, Small e) (hs : step P s op = some s') :
    ∃ cs', Answers P.hash (writes (ops ++ [op])) s' cs' ∧ s'.nextSeq ≤ s.nextSeq + 2 := by
  cases op with
  | put key value =>
    have hw := h.writeMem (hsmall (key, .live value) rfl)
    rw [writes_concat]
    exact hw.maybeFlushAndCompact hs
  | delete key =>
    have hw := h.writeMem (hsmall (key, .tombstone) rfl)
    rw [writes_concat]
    exact hw.maybeFlushAndCompact hs
  | flush =>
    rw [writes_concat]
    show ∃ cs', Answers P.hash (writes ops ++ []) s' cs' ∧ _
    rw [append_nil]
    simp only [LsmKv.step, Lsm.flush] at hs
    split at hs
    · refine ⟨_, h.flushMemtable hs, ?_⟩
      obtain ⟨-, f, -, rfl⟩ := flushMemtable_eq_some.1 hs
      exact Nat.le_succ _
    · cases hs
      exact ⟨cs, h, Nat.le_add_right _ _⟩
  | reopen => exact absurd rfl hop

/-! ## Sizes -/

theorem length_indexEntries_le (es : List Entry) : ∀ i offset,
    (((writeEntries i offset es).2.map indexEntryBytes).flatten).length ≤ 3 * (es.map entrySize).sum := by
  induction es with
  | nil => exact fun _ _ => Nat.zero_le _
  | cons e es ih =>
    intro i offset
    have hrest := ih (i + 1) (offset + entrySize e)
    have hentry : (indexEntryBytes (e.1, offset)).length ≤ 3 * entrySize e := by
      simp only [indexEntryBytes, entrySize, length_append, length_leBytes]
      split <;> omega
    simp only [writeEntries, map_cons, sum_cons]
    split
    · rw [map_cons, List.flatten_cons, length_append]
      omega
    · omega

theorem length_writeSstable_le (hash : Bytes → BitVec 64 → BitVec 64) (es : List Entry) :
    (writeSstable hash es).1.length ≤ 12 * (es.map entrySize).sum + 48 := by
  have hindex := length_indexEntries_le es 0 0
  have hdata := length_dataBytes es
  have hn := length_le_dataBytes es
  have hwords := BloomFilter.ofKeys_length hash (es.map Prod.fst)
  have hbloom : ∀ b : BloomFilter, (bloomBytes b).length = 4 + 8 * b.bits.length := by
    intro b
    rw [bloomBytes, length_append, length_leBytes, List.length_flatten, List.map_map]
    have hconst : (List.length ∘ fun w : BitVec 64 => leBytes 8 w.toNat) = fun _ => 8 :=
      funext fun w => length_leBytes 8 _
    rw [hconst, List.map_const', List.sum_replicate_nat, Nat.mul_comm]
  rw [List.length_map, bloomBitsPerKey] at hwords
  rw [writeSstable_bytes, tailBytes, length_append, length_append, length_append,
    indexBytes, length_append, hbloom, hwords, length_leBytes, length_leBytes]
  omega

variable {m : SortedMap Bytes Value}

theorem sum_entrySize_le (h : ∀ e ∈ m.entries, e ∈ ws) : (m.entries.map entrySize).sum ≤ (ws.map entrySize).sum := by
  have hnd : m.entries.Nodup := List.Nodup.of_map Prod.fst m.nodup_keys
  obtain ⟨l, hperm, hsub⟩ := List.subperm_of_subset hnd h
  calc (m.entries.map entrySize).sum = (l.map entrySize).sum := ((hperm.map _).sum_eq).symm
    _ ≤ (ws.map entrySize).sum := (hsub.map _).sum_le_sum fun _ _ => Nat.zero_le _

theorem exists_file (hash : Bytes → BitVec 64 → BitVec 64) (h : ∀ e ∈ m.entries, e ∈ ws)
    (hsize : 12 * (ws.map entrySize).sum + 48 < 2 ^ 64) : ∃ f : File, f.bytes = (writeSstable hash m.entries).1 := by
  have hle := length_writeSstable_le hash m.entries
  have hsum := sum_entrySize_le h
  have hlen : (writeSstable hash m.entries).1.length < 2 ^ 64 := by omega
  exact ⟨⟨_, hlen⟩, rfl⟩

theorem Answers.flushMemtable_isSome (h : Answers hash ws s cs)
    (hsize : 12 * (ws.map entrySize).sum + 48 < 2 ^ 64) (hseq : s.nextSeq + 1 < 2 ^ 64) :
    ∃ s', s.flushMemtable hash = some s' := by
  obtain ⟨f, hf⟩ := exists_file hash h.written hsize
  exact ⟨_, flushMemtable_eq_some.2 ⟨hseq, f, hf, rfl⟩⟩

theorem Answers.compactL0ToL1_isSome (h : Answers hash ws s cs)
    (hsize : 12 * (ws.map entrySize).sum + 48 < 2 ^ 64) (hseq : s.nextSeq + 1 < 2 ^ 64) :
    ∃ s', s.compactL0ToL1 hash = some s' := by
  have hwritten : ∀ e ∈ cs.compacted.entries, e ∈ ws := fun e he => by
    obtain ⟨-, level, c, hc, hec⟩ := mem_compacted he
    exact h.writtenTables level c hc e hec
  obtain ⟨f, hf⟩ := exists_file hash hwritten hsize
  have hcompacted := h.stored.writeCompacted_eq_some.2 ⟨hseq, f, hf, rfl⟩
  simp only [Lsm.compactL0ToL1, hcompacted, Option.bind_eq_bind, Option.bind_some]
  exact ⟨_, rfl⟩

theorem Answers.maybeFlushAndCompact_isSome (h : Answers P.hash ws s cs)
    (hsize : 12 * (ws.map entrySize).sum + 48 < 2 ^ 64) (hseq : s.nextSeq + 2 < 2 ^ 64) :
    ∃ s', s.maybeFlushAndCompact P = some s' := by
  obtain ⟨t, cs₁, ht, h₁, hseq₁⟩ : ∃ t cs₁, s.maybeFlush P = some t ∧ Answers P.hash ws t cs₁ ∧
      t.nextSeq ≤ s.nextSeq + 1 := by
    rw [Lsm.maybeFlush]
    split
    · obtain ⟨t, ht⟩ := h.flushMemtable_isSome hsize (by omega)
      refine ⟨t, _, ht, h.flushMemtable ht, ?_⟩
      obtain ⟨-, f, -, rfl⟩ := flushMemtable_eq_some.1 ht
      exact le_rfl
    · exact ⟨s, cs, rfl, h, Nat.le_succ _⟩
  rw [Lsm.maybeFlushAndCompact, ht]
  show ∃ s', t.maybeCompact P = some s'
  rw [Lsm.maybeCompact]
  split
  · exact h₁.compactL0ToL1_isSome hsize (by omega)
  · exact ⟨t, rfl⟩

theorem size_writes_le (ops : List Op) :
    12 * ((writes ops).map entrySize).sum + 48 * ops.length ≤ 16 * (ops.map Op.size).sum := by
  induction ops with
  | nil => exact Nat.zero_le _
  | cons op ops ih =>
    rw [writes] at ih ⊢
    cases op with
    | put key value =>
      simp only [filterMap_cons, Op.entry, map_cons, sum_cons, entrySize, Op.size, length_cons]
      omega
    | delete key =>
      simp only [filterMap_cons, Op.entry, map_cons, sum_cons, entrySize, Op.size, length_cons]
      omega
    | flush =>
      simp only [filterMap_cons, Op.entry, map_cons, sum_cons, Op.size, length_cons]
      omega
    | reopen =>
      simp only [filterMap_cons, Op.entry, map_cons, sum_cons, Op.size, length_cons]
      omega

theorem Answers.step_isSome {ops : List Op} (h : Answers P.hash (writes ops) s cs) {op : Op}
    (hop : op ≠ .reopen) (hsmall : ∀ e ∈ op.entry, Small e) (hseq : s.nextSeq ≤ 2 * ops.length + 1)
    (hsize : 16 * ((ops ++ [op]).map Op.size).sum < 2 ^ 64) : ∃ s', LsmKv.step P s op = some s' := by
  have hle := size_writes_le (ops ++ [op])
  rw [writes_concat, length_append, List.length_singleton] at hle
  cases op with
  | put key value =>
    have hw := h.writeMem (hsmall (key, .live value) rfl)
    have hfits : 12 * ((writes ops ++ [(key, Value.live value)]).map entrySize).sum + 48 <
        2 ^ 64 := by
      change 12 * ((writes ops ++ [(key, Value.live value)]).map entrySize).sum + _ ≤ _ at hle
      omega
    refine hw.maybeFlushAndCompact_isSome hfits ?_
    show s.nextSeq + 2 < 2 ^ 64
    omega
  | delete key =>
    have hw := h.writeMem (hsmall (key, .tombstone) rfl)
    have hfits : 12 * ((writes ops ++ [(key, Value.tombstone)]).map entrySize).sum + 48 <
        2 ^ 64 := by
      change 12 * ((writes ops ++ [(key, Value.tombstone)]).map entrySize).sum + _ ≤ _ at hle
      omega
    refine hw.maybeFlushAndCompact_isSome hfits ?_
    show s.nextSeq + 2 < 2 ^ 64
    omega
  | flush =>
    simp only [LsmKv.step, Lsm.flush]
    split
    · change 12 * ((writes ops ++ []).map entrySize).sum + _ ≤ _ at hle
      rw [append_nil] at hle
      exact h.flushMemtable_isSome (by omega) (by omega)
    · exact ⟨s, rfl⟩
  | reopen => exact absurd rfl hop

/-! ## Runs -/

theorem answers_start (hash : Bytes → BitVec 64 → BitVec 64) : Answers hash [] start fun _ => [] := by
  have hstored : Stored hash start fun _ => [] := by
    refine ⟨⟨fun name f hget => absurd hget (by simp [start]), fun _ c hc => absurd hc (by simp),
      fun _ => List.Pairwise.nil⟩, fun level => ?_, fun e he => absurd he not_mem_nil,
      fun _ c hc => absurd hc not_mem_nil, by decide⟩
    cases level <;> exact Forall₂.nil
  refine ⟨hstored, fun level => ?_, fun _ => rfl, fun e he => absurd he not_mem_nil,
    fun _ c hc => absurd hc not_mem_nil⟩
  cases level <;> exact Forall₂.nil

theorem Answers.run {pre ops : List Op} (h : Answers P.hash (writes pre) s cs)
    (hops : ∀ op ∈ ops, op ≠ .reopen) (hsmall : ∀ e ∈ writes ops, Small e) (hs : exec (LsmKv.step P) s ops = some s') :
    ∃ cs', Answers P.hash (writes (pre ++ ops)) s' cs' := by
  induction ops generalizing pre s cs with
  | nil =>
    cases hs
    exact ⟨cs, by rwa [append_nil]⟩
  | cons op ops ih =>
    rw [exec, Option.bind_eq_some_iff] at hs
    obtain ⟨t, ht, hs⟩ := hs
    rw [List.forall_mem_cons] at hops
    have hentry : ∀ e ∈ op.entry, Small e := fun e he =>
      hsmall e (mem_filterMap.2 ⟨op, List.mem_cons_self, he⟩)
    obtain ⟨cs₁, h₁, -⟩ := h.step hops.1 hentry ht
    have hrest := ih h₁ hops.2 (fun e he => hsmall e (by
      obtain ⟨op', hop', he'⟩ := mem_filterMap.1 he
      exact mem_filterMap.2 ⟨op', List.mem_cons_of_mem _ hop', he'⟩)) hs
    rwa [List.append_assoc, List.singleton_append] at hrest

theorem Answers.run_isSome {pre ops : List Op} (h : Answers P.hash (writes pre) s cs)
    (hseq : s.nextSeq ≤ 2 * pre.length + 1) (hops : ∀ op ∈ ops, op ≠ .reopen)
    (hsmall : ∀ e ∈ writes ops, Small e) (hsize : 16 * ((pre ++ ops).map Op.size).sum < 2 ^ 64) :
    ∃ s', exec (LsmKv.step P) s ops = some s' := by
  induction ops generalizing pre s cs with
  | nil => exact ⟨s, rfl⟩
  | cons op ops ih =>
    rw [List.forall_mem_cons] at hops
    have hentry : ∀ e ∈ op.entry, Small e := fun e he =>
      hsmall e (mem_filterMap.2 ⟨op, List.mem_cons_self, he⟩)
    have hsplit : pre ++ op :: ops = (pre ++ [op]) ++ ops := by simp
    have hpre : 16 * ((pre ++ [op]).map Op.size).sum < 2 ^ 64 := by
      rw [hsplit, List.map_append, List.sum_append] at hsize
      omega
    obtain ⟨t, ht⟩ := h.step_isSome hops.1 hentry hseq hpre
    obtain ⟨cs₁, h₁, hseq₁⟩ := h.step hops.1 hentry ht
    rw [hsplit] at hsize
    rw [exec, ht]
    refine ih h₁ ?_ hops.2 (fun e he => hsmall e ?_) hsize
    · rw [length_append, List.length_singleton]
      omega
    · obtain ⟨op', hop', he'⟩ := mem_filterMap.1 he
      exact mem_filterMap.2 ⟨op', List.mem_cons_of_mem _ hop', he'⟩

end Refinement

/-- **The store refines a map.** A run of puts, deletes and flushes answers every key with its last
write, whatever the thresholds and the hash, and it does not fail before its sizes reach the limits
of 64 bits. -/
theorem get_refines (P : Params) {ops : List Op} (hops : ∀ op ∈ ops, op ≠ .reopen)
    (hsmall : ∀ e ∈ writes ops, Small e) :
    (∀ s, exec (step P) start ops = some s → ∀ key, s.get P.hash key = some (lastWrite key ops)) ∧
      (16 * (ops.map Op.size).sum < 2 ^ 64 → ∃ s, exec (step P) start ops = some s) := by
  have h : Answers P.hash (writes []) start fun _ => [] := answers_start P.hash
  constructor
  · intro s hs key
    obtain ⟨cs, hrun⟩ := h.run hops hsmall hs
    rw [hrun.stored.get_eq hrun.complete, hrun.answers, List.nil_append, lastWrite]
  · intro hsize
    exact h.run_isSome le_rfl hops hsmall hsize

/-- A run that flushes on every write and compacts two tables: a deleted key stays away. -/
theorem get_refines_smallThresholds : ∃ s,
    exec (step ⟨sipHash, 1, 2⟩) start [.put [97] [1], .delete [97], .put [98] [2]] = some s ∧
      s.get sipHash [97] = some none ∧ s.get sipHash [98] = some (some [2]) := by
  have hops : ∀ op ∈ [Op.put [97] [1], .delete [97], .put [98] [2]], op ≠ .reopen := by simp
  have hsmall : ∀ e ∈ writes [Op.put [97] [1], .delete [97], .put [98] [2]], Small e := by
    intro e he
    simp only [writes, Op.entry, filterMap_cons, List.filterMap_nil, mem_cons, not_mem_nil, or_false] at he
    rcases he with rfl | rfl | rfl
    · exact ⟨by decide, fun v hv => by cases hv; decide⟩
    · exact ⟨by decide, fun v hv => absurd hv (by simp)⟩
    · exact ⟨by decide, fun v hv => by cases hv; decide⟩
  obtain ⟨hget, hrun⟩ := get_refines ⟨sipHash, 1, 2⟩ hops hsmall
  obtain ⟨s, hs⟩ := hrun (by decide)
  exact ⟨s, hs, hget s hs [97], hget s hs [98]⟩

end SystemDesignLabs.LsmKv
