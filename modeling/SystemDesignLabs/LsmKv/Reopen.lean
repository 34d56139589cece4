import SystemDesignLabs.LsmKv.Refinement

/-!
# Closing and reopening

`openDir` rebuilds the levels from the names of the files (`Directory.openDir`): the tables come
back with their contents and in their order. A filter comes back with another size when its number
of bits was not a multiple of the word size, and then it may hide keys (`sevenKeys_lost`). When every
table has a size that its filter survives, the reopened store answers as before
(`reopen_keeps`).
-/

namespace SystemDesignLabs.LsmKv

open Core SortedList SortedMap BloomFilter

section Opening

variable {hash : Bytes → BitVec 64 → BitVec 64} {files : Files} {s : Lsm} {cs : Contents}
  {level : Level}

/-! ## The loop over the directory -/

/-- The table that `openLoop` makes of a file that loads. -/
def loaded (e : Name × File) : SsTable :=
  let p := (loadIndexAndBloom e.2.bytes).getD ([], BloomFilter.new 1)
  ⟨e.1, p.1, p.2, (levelSeq (splitName e.1).1).2⟩

/-- The files of a level. -/
def ofLevel (level : Level) (es : List (Name × File)) : List (Name × File) :=
  es.filter fun e => (levelSeq (splitName e.1).1).1 = level

theorem openLoop_eq {es : List (Name × File)}
    (hes : ∀ e ∈ es, (loadIndexAndBloom e.2.bytes).isSome) : ∀ (l0 l1 : List SsTable) (m : Nat),
    Lsm.openLoop es l0 l1 m = some (l0 ++ (ofLevel .l0 es).map loaded,
      l1 ++ (ofLevel .l1 es).map loaded, es.foldl (fun m e => max m (loaded e).seq) m) := by
  induction es with
  | nil => intro l0 l1 m; simp [Lsm.openLoop, ofLevel]
  | cons e es ih =>
    intro l0 l1 m
    rw [List.forall_mem_cons] at hes
    obtain ⟨p, hp⟩ := Option.isSome_iff_exists.1 hes.1
    have hload : loaded e = ⟨e.1, p.1, p.2, (levelSeq (splitName e.1).1).2⟩ := by
      simp only [loaded, hp, Option.getD_some]
    obtain ⟨path, file⟩ := e
    simp only [Lsm.openLoop, hp, Option.bind_eq_bind, Option.bind_some]
    rw [List.foldl_cons, ofLevel, ofLevel, List.filter_cons, List.filter_cons, hload]
    cases hlevel : (levelSeq (splitName path).1).1 with
    | l0 =>
      dsimp only
      rw [ih hes.2, if_pos (by simp), if_neg (by simp), List.map_cons, hload,
        List.append_assoc]
      rfl
    | l1 =>
      dsimp only
      rw [ih hes.2, if_neg (by simp), if_pos (by simp), List.map_cons, hload,
        List.append_assoc]
      rfl

theorem foldl_max_spec {A : Type} (f : A → Nat) (es : List A) : ∀ m,
    (∀ e ∈ es, f e ≤ es.foldl (fun m e => max m (f e)) m) ∧ ∀ bound, m < bound → (∀ e ∈ es, f e < bound) →
        es.foldl (fun m e => max m (f e)) m < bound := by
  have hle : ∀ (es : List A) m, m ≤ es.foldl (fun m e => max m (f e)) m := by
    intro es
    induction es with
    | nil => exact fun _ => le_rfl
    | cons e es ih => exact fun m => le_trans (le_max_left _ _) (ih _)
  induction es with
  | nil => exact fun m => ⟨fun _ he => absurd he List.not_mem_nil, fun _ hm _ => hm⟩
  | cons e es ih =>
    intro m
    obtain ⟨hmem, hbound⟩ := ih (max m (f e))
    constructor
    · rw [List.forall_mem_cons]
      exact ⟨le_trans (le_max_right _ _) (hle es _), hmem⟩
    · intro bound hm hes
      rw [List.forall_mem_cons] at hes
      exact hbound bound (max_lt hm hes.1) hes.2

/-! ## The levels come back -/

/-- The table that comes back for a content. -/
def reloaded (hash : Bytes → BitVec 64 → BitVec 64) (level : Level) (c : Content) : SsTable :=
  let p := (loadIndexAndBloom (writeSstable hash c.map.entries).1).getD ([], BloomFilter.new 1)
  ⟨tableName level c.seq, p.1, p.2, c.seq⟩

variable {c : Content}

theorem Writable.load {f : File} (h : Writable hash level c f) :
    ∃ index bloom, loadIndexAndBloom (writeSstable hash c.map.entries).1 = some (index, bloom) ∧
      index ⊆ (writeSstable hash c.map.entries).2.1 ∧
      (FitsFilter c.map.entries.length → index = (writeSstable hash c.map.entries).2.1 ∧
        bloom = (BloomFilter.ofKeys hash (c.map.entries.map Prod.fst)).reload) :=
  loadIndexAndBloom_spec hash h.small h.length_lt

theorem Writable.reloaded_inMemory {f : File} (h : Writable hash level c f) :
    InMemory hash level (reloaded hash level c) c := by
  obtain ⟨index, bloom, hload, hindex, hfits⟩ := h.load
  have heq : reloaded hash level c = ⟨tableName level c.seq, index, bloom, c.seq⟩ := by
    simp only [reloaded, hload, Option.getD_some]
  rw [heq]
  refine ⟨rfl, rfl, hindex, fun hfit hkeeps => ?_⟩
  rw [(hfits hfit).2, reload_ofKeys_eq_iff, List.length_map]
  exact hkeeps

theorem Writable.seq_lt' {f : File} (h : Writable hash level c f) : c.seq < 2 ^ 64 := Nat.lt_of_succ_lt h.seq_lt

theorem Directory.entry (h : Directory hash files cs) {e : Name × File} (he : e ∈ files.entries) :
    ∃ level, ∃ c ∈ cs level, e.1 = tableName level c.seq ∧ Writable hash level c e.2 := by
  obtain ⟨name, f⟩ := e
  have hget := mem_entries_iff.1 he
  obtain ⟨level, c, hc, rfl⟩ := h.names name f hget
  obtain ⟨f', hf', hw⟩ := h.held level c hc
  rw [hget] at hf'
  cases hf'
  exact ⟨level, c, hc, rfl, hw⟩

theorem Writable.loaded_eq {e : Name × File} (h : Writable hash level c e.2) (hname : e.1 = tableName level c.seq) :
    (levelSeq (splitName e.1).1).1 = level ∧ loaded e = reloaded hash level c := by
  have hparse := levelSeq_tableName level h.seq_lt'
  rw [← hname] at hparse
  constructor
  · rw [hparse]
  · simp only [loaded, reloaded, hparse, h.bytes]
    rw [hname]

theorem Directory.loaded_perm (h : Directory hash files cs) (level : Level) :
    ((ofLevel level files.entries).map loaded).Perm ((cs level).map (reloaded hash level)) := by
  have hpaths : ((ofLevel level files.entries).map loaded).Nodup := by
    refine List.Nodup.of_map SsTable.path ?_
    rw [List.map_map]
    exact files.nodup_keys.sublist (List.filter_sublist.map _)
  have hseqs : ((cs level).map (reloaded hash level)).Nodup := by
    refine List.Nodup.of_map SsTable.seq ?_
    rw [List.map_map, List.Nodup, List.pairwise_map]
    exact (h.newestFirst level).imp fun hlt => ne_of_gt hlt
  rw [List.perm_ext_iff_of_nodup hpaths hseqs]
  intro t
  simp only [List.mem_map, ofLevel, List.mem_filter, decide_eq_true_eq]
  constructor
  · rintro ⟨e, ⟨he, hlevel⟩, rfl⟩
    obtain ⟨level', c, hc, hname, hw⟩ := h.entry he
    obtain ⟨hlevel', hloaded⟩ := hw.loaded_eq hname
    have heq : level' = level := hlevel'.symm.trans hlevel
    subst heq
    exact ⟨c, hc, hloaded.symm⟩
  · rintro ⟨c, hc, rfl⟩
    obtain ⟨f, hf, hw⟩ := h.held level c hc
    obtain ⟨hlevel, hloaded⟩ := Writable.loaded_eq (e := (tableName level c.seq, f)) hw rfl
    exact ⟨_, ⟨mem_entries_iff.2 hf, hlevel⟩, hloaded⟩

theorem sortTables_perm {ts : List SsTable} {ds : List Content} (hperm : ts.Perm (ds.map (reloaded hash level)))
    (hdesc : ds.Pairwise fun c d => d.seq < c.seq) : Lsm.sortTables ts = ds.map (reloaded hash level) := by
  have hrel : (ds.map (reloaded hash level)).Pairwise fun a b => b.seq ≤ a.seq := by
    rw [List.pairwise_map]
    exact hdesc.imp fun hlt => le_of_lt hlt
  have htotal : Std.Total fun a b : SsTable => b.seq ≤ a.seq :=
    ⟨fun a b => le_total b.seq a.seq⟩
  have htrans : IsTrans SsTable fun a b => b.seq ≤ a.seq :=
    ⟨fun _ _ _ hab hbc => le_trans hbc hab⟩
  have hsorted := List.pairwise_insertionSort (fun a b : SsTable => b.seq ≤ a.seq) ts
  have hsortPerm := (List.perm_insertionSort (fun a b : SsTable => b.seq ≤ a.seq) ts).trans hperm
  refine List.Perm.eq_of_pairwise (fun a b ha hb hab hba => ?_) hsorted hrel hsortPerm
  obtain ⟨c, hc, rfl⟩ := List.mem_map.1 (hsortPerm.subset ha)
  obtain ⟨d, hd, rfl⟩ := List.mem_map.1 hb
  have heq : c.seq = d.seq := le_antisymm hba hab
  by_contra hne
  have hpair : ds.Pairwise fun c d => c.seq ≠ d.seq := hdesc.imp fun hlt => ne_of_gt hlt
  have hsymm : Std.Symm fun c d : Content => c.seq ≠ d.seq := ⟨fun _ _ h => h.symm⟩
  exact hpair.forall hc hd (fun hcd => hne (by rw [hcd])) heq

/-- A directory is opened to the tables it holds. -/
theorem Directory.openDir (h : Directory hash files cs) : ∃ s', Lsm.openDir files = some s' ∧
    Stored hash s' cs ∧ s'.files = files ∧ s'.memtable = SortedMap.empty ∧
      ∀ level, s'.tables level = (cs level).map (reloaded hash level) := by
  have hfilter : (files.entries.filter fun e => (splitName e.1).2 = some sst) = files.entries := by
    rw [List.filter_eq_self]
    intro e he
    obtain ⟨level, c, -, hname, -⟩ := h.entry he
    simp [hname, splitName_tableName]
  have hloads : ∀ e ∈ files.entries, (loadIndexAndBloom e.2.bytes).isSome := by
    intro e he
    obtain ⟨level, c, -, -, hw⟩ := h.entry he
    obtain ⟨index, bloom, hload, -⟩ := hw.load
    rw [hw.bytes, hload]
    rfl
  have hloop := openLoop_eq hloads [] [] 0
  obtain ⟨hmax, hbound⟩ := foldl_max_spec (fun e => (loaded e).seq) files.entries 0
  have hmaxLt := hbound (2 ^ 64 - 1) (by decide) fun e he => by
    obtain ⟨level, c, -, hname, hw⟩ := h.entry he
    rw [(hw.loaded_eq hname).2]
    have := hw.seq_lt
    show c.seq < _
    omega
  generalize hm : files.entries.foldl (fun m e => max m (loaded e).seq) 0 = maxSeq at *
  have hsucc : succU64 maxSeq = some (maxSeq + 1) := succU64_eq_some.2 ⟨by omega, rfl⟩
  have hl0 := sortTables_perm (h.loaded_perm .l0) (h.newestFirst .l0)
  have hl1 := sortTables_perm (h.loaded_perm .l1) (h.newestFirst .l1)
  have hopen : Lsm.openDir files = some ⟨files, empty, 0,
      (cs .l0).map (reloaded hash .l0), (cs .l1).map (reloaded hash .l1), maxSeq + 1⟩ := by
    simp only [Lsm.openDir, hfilter, hloop, Option.bind_eq_bind, Option.bind_some, List.nil_append, hsucc, hl0, hl1]
  have htables : ∀ level, Lsm.tables ⟨files, empty, 0, (cs .l0).map (reloaded hash .l0),
      (cs .l1).map (reloaded hash .l1), maxSeq + 1⟩ level =
        (cs level).map (reloaded hash level) := by
    intro level
    cases level <;> rfl
  refine ⟨_, hopen, ⟨h, fun level => ?_, fun e he => absurd he List.not_mem_nil,
    fun level c hc => ?_, by show maxSeq + 1 < _; omega⟩, rfl, rfl, htables⟩
  · rw [htables, List.forall₂_map_left_iff, List.forall₂_same]
    intro c hc
    obtain ⟨f, -, hw⟩ := h.held level c hc
    exact hw.reloaded_inMemory
  · obtain ⟨f, hf, hw⟩ := h.held level c hc
    have hle := hmax _ (mem_entries_iff.2 hf)
    rw [(Writable.loaded_eq (e := (tableName level c.seq, f)) hw rfl).2] at hle
    exact Nat.lt_succ_of_le hle

/-! ## The invariant over all runs -/

theorem Stored.writeMem (h : Stored hash s cs) {e : Entry} (he : Small e) : Stored hash (s.writeMem e.1 e.2) cs := by
  refine { h with tables := h.tables, memtable := fun e' he' => ?_ }
  rcases mem_insertList he' with rfl | he'
  · exact he
  · exact h.memtable e' he'

variable {P : Params}

theorem Stored.maybeFlush (h : Stored P.hash s cs) {s' : Lsm} (hs : s.maybeFlush P = some s') :
    ∃ cs', Stored P.hash s' cs' := by
  rw [Lsm.maybeFlush] at hs
  split at hs
  · exact ⟨_, h.flushMemtable hs⟩
  · cases hs
    exact ⟨cs, h⟩

theorem Stored.maybeFlushAndCompact (h : Stored P.hash s cs) {s' : Lsm}
    (hs : s.maybeFlushAndCompact P = some s') : ∃ cs', Stored P.hash s' cs' := by
  simp only [Lsm.maybeFlushAndCompact, Option.bind_eq_bind, Option.bind_eq_some_iff] at hs
  obtain ⟨t, ht, hs⟩ := hs
  obtain ⟨cs₁, h₁⟩ := h.maybeFlush ht
  rw [Lsm.maybeCompact] at hs
  split at hs
  · exact ⟨_, h₁.compactL0ToL1 hs⟩
  · cases hs
    exact ⟨cs₁, h₁⟩

/-- An operation whose key and value fit their length fields. -/
def Op.IsSmall (op : Op) : Prop := ∀ e ∈ op.entry, Small e

/-- The same as a test. -/
def Op.isSmall (op : Op) : Bool :=
  match op.entry with
  | none => true
  | some (key, .live v) => key.length < 2 ^ 32 && v.length < 2 ^ 32
  | some (key, .tombstone) => key.length < 2 ^ 32

theorem Op.isSmall_imp {op : Op} (h : op.isSmall = true) : op.IsSmall := by
  intro e he
  rw [Op.isSmall, Option.mem_def.1 he] at h
  obtain ⟨key, v⟩ := e
  cases v with
  | live v =>
    simp only [Bool.and_eq_true, decide_eq_true_eq] at h
    refine ⟨h.1, fun v' hv' => ?_⟩
    cases hv'
    exact h.2
  | tombstone =>
    simp only [decide_eq_true_eq] at h
    exact ⟨h, fun v' hv' => absurd hv' (by simp)⟩

theorem Stored.step (h : Stored P.hash s cs) {op : Op} (hop : op.IsSmall) {s' : Lsm}
    (hs : step P s op = some s') : ∃ cs', Stored P.hash s' cs' := by
  cases op with
  | put key value => exact (h.writeMem (hop (key, .live value) rfl)).maybeFlushAndCompact hs
  | delete key => exact (h.writeMem (hop (key, .tombstone) rfl)).maybeFlushAndCompact hs
  | flush =>
    simp only [LsmKv.step, Lsm.flush] at hs
    split at hs
    · exact ⟨_, h.flushMemtable hs⟩
    · cases hs
      exact ⟨cs, h⟩
  | reopen =>
    obtain ⟨t, ht, hstored, -⟩ := h.directory.openDir
    simp only [LsmKv.step, ht, Option.some.injEq] at hs
    exact ⟨cs, hs ▸ hstored⟩

/-- The stores reached by runs of operations with small keys and values. -/
abbrev Reached (P : Params) : Lsm → Prop :=
  ReachableIf (step P) (fun _ op => op.IsSmall) start

theorem Reached.stored (h : Reached P s) : ∃ cs, Stored P.hash s cs :=
  ReachableIf.invariant (I := fun s => ∃ cs, Stored P.hash s cs)
    ⟨_, (answers_start P.hash).stored⟩
    (fun _ _ _ _ ⟨_, hs⟩ hop hstep => hs.step hop hstep) h

end Opening

/-! ## What reopening keeps -/

/-- Every table of the store has a size that its filter survives. -/
def Lsm.KeepsSizes (s : Lsm) : Prop :=
  ∀ level, ∀ t ∈ s.tables level, ∀ es, s.tableEntries t = some es →
    FitsFilter es.length ∧ BloomFilter.KeepsSize es.length

section Reopening

variable {hash : Bytes → BitVec 64 → BitVec 64} {s : Lsm} {cs : Contents}

theorem Stored.complete_of_keepsSizes (h : Stored hash s cs) (hsizes : s.KeepsSizes)
    (level : Level) : List.Forall₂ (Complete hash) (s.tables level) (cs level) := by
  refine h.forall₂_tables fun t ht c hc hmem e he => ?_
  obtain ⟨hfits, hkeeps⟩ := hsizes level t ht _ (h.tableEntries hmem hc)
  rw [hmem.bloom hfits hkeeps]
  exact mayContain_ofKeys hash (List.mem_map_of_mem he)

theorem Stored.keepsSizes_congr {s' : Lsm} (h : Stored hash s cs) (h' : Stored hash s' cs)
    (hfiles : s'.files = s.files) (hsizes : s.KeepsSizes) : s'.KeepsSizes := by
  intro level t' ht' es hes
  obtain ⟨i, hi, rfl⟩ := List.mem_iff_getElem.1 ht'
  have hlen' := (h'.tables level).length_eq
  have hlen := (h.tables level).length_eq
  have hpath' := (List.forall₂_iff_get.1 (h'.tables level)).2 i hi (by omega)
  have hpath := (List.forall₂_iff_get.1 (h.tables level)).2 i (by omega) (by omega)
  refine hsizes level _ (List.getElem_mem (by omega : i < (s.tables level).length)) es ?_
  simp only [List.get_eq_getElem] at hpath hpath'
  rw [← hes, Lsm.tableEntries, Lsm.tableEntries, hfiles, hpath.path, hpath'.path]

end Reopening

/-- A table of `n` entries with different keys. -/
def someEntries (n : Nat) : List Entry :=
  (BloomFilter.someKeys n).map fun key => (key, .tombstone)

theorem someEntries_keys (n : Nat) : (someEntries n).map Prod.fst = BloomFilter.someKeys n := by
  rw [someEntries, List.map_map]
  exact List.map_id _

theorem length_someEntries (n : Nat) : (someEntries n).length = n := by
  simp [someEntries, someKeys]

theorem small_someEntries (n : Nat) : ∀ e ∈ someEntries n, Small e := by
  intro e he
  obtain ⟨key, hkey, rfl⟩ := List.mem_map.1 he
  obtain ⟨i, -, rfl⟩ := List.mem_map.1 hkey
  refine ⟨?_, fun v hv => absurd hv (by simp)⟩
  rw [length_leBytes]
  decide

theorem sum_someEntries (n : Nat) : ((someEntries n).map entrySize).sum = n * 13 := by
  rw [someEntries, List.map_map, someKeys, List.map_map]
  have hconst : (entrySize ∘ fun key => (key, Value.tombstone)) ∘ leBytes 8 = fun _ => 13 := by
    funext i
    simp [entrySize]
  rw [hconst, List.map_const', List.sum_replicate_nat, List.length_range]

theorem load_keeps_iff {n : Nat} (hn : FitsFilter n) :
    (∀ (hash : Bytes → BitVec 64 → BitVec 64) (es : List Entry), es.length = n →
      (es.map Prod.fst).Nodup → (∀ e ∈ es, Small e) → (writeSstable hash es).1.length < 2 ^ 64 →
        ∃ index bloom, loadIndexAndBloom (writeSstable hash es).1 = some (index, bloom) ∧
          ∀ e ∈ es, bloom.mayContain hash e.1 = true) ↔ BloomFilter.KeepsSize n := by
  have hbits : n * bloomBitsPerKey < 2 ^ 64 := by
    simp only [FitsFilter, bloomBitsPerKey] at hn ⊢
    omega
  constructor
  · intro h
    by_contra hkeeps
    obtain ⟨key, hkey, hlost⟩ := exists_lost_key hbits hkeeps
    have hfile := length_writeSstable_le (constantHash (n * bloomBitsPerKey))
      (someEntries n)
    have hfits := hn
    rw [sum_someEntries] at hfile
    simp only [FitsFilter, bloomBitsPerKey] at hfits
    have hnodup : ((someEntries n).map Prod.fst).Nodup := by
      rw [someEntries_keys]
      exact someKeys_nodup (by omega)
    have hlt := lt_of_le_of_lt hfile (by omega : 12 * (n * 13) + 48 < 2 ^ 64)
    obtain ⟨index, bloom, hload, hall⟩ :=
      h _ (someEntries n) (length_someEntries n) hnodup (small_someEntries n) hlt
    obtain ⟨index', bloom', hload', -, hreload⟩ := loadIndexAndBloom_spec _ (small_someEntries n) hlt
    rw [hload] at hload'
    cases hload'
    rw [length_someEntries, someEntries_keys] at hreload
    have hmay := hall (key, .tombstone) (List.mem_map_of_mem hkey)
    rw [(hreload hn).2, hlost] at hmay
    exact absurd hmay (by decide)
  · intro hkeeps hash es hlen _ hsmall hfile
    obtain ⟨index, bloom, hload, -, hfits⟩ := loadIndexAndBloom_spec hash hsmall hfile
    refine ⟨index, bloom, hload, fun e he => ?_⟩
    rw [(hfits (hlen ▸ hn)).2, (reload_ofKeys_eq_iff hash _).2
      (by rw [List.length_map, hlen]; exact hkeeps)]
    exact mayContain_ofKeys hash (List.mem_map_of_mem he)

/-- **Reopening keeps what was flushed** when every table has at most 6 entries or a multiple of 32;
for a table of any other size there are keys and a hash for which the reloaded filter loses one. -/
theorem reopen_keeps (P : Params) :
    (∀ s, Reached P s → s.memtable.entries = [] → s.KeepsSizes →
      ∃ s', Lsm.openDir s.files = some s' ∧ ∀ key, s'.get P.hash key = s.get P.hash key) ∧
    ∀ n, FitsFilter n →
      ((∀ (hash : Bytes → BitVec 64 → BitVec 64) (es : List Entry), es.length = n →
        (es.map Prod.fst).Nodup → (∀ e ∈ es, Small e) → (writeSstable hash es).1.length < 2 ^ 64 →
          ∃ index bloom, loadIndexAndBloom (writeSstable hash es).1 = some (index, bloom) ∧
            ∀ e ∈ es, bloom.mayContain hash e.1 = true) ↔ BloomFilter.KeepsSize n) := by
  refine ⟨fun s hs hmem hsizes => ?_, fun n hn => load_keeps_iff hn⟩
  obtain ⟨cs, hstored⟩ := Reached.stored hs
  obtain ⟨s', hopen, hstored', hfiles, hmem', -⟩ := hstored.directory.openDir
  refine ⟨s', hopen, fun key => ?_⟩
  have hsizes' := hstored.keepsSizes_congr hstored' hfiles hsizes
  have hempty : s.memtable = empty := by
    apply ext_get
    intro k
    rw [SortedMap.get, hmem]
    rfl
  rw [hstored'.get_eq (hstored'.complete_of_keepsSizes hsizes'),
    hstored.get_eq (hstored.complete_of_keepsSizes hsizes), hmem', hempty]

/-- The thresholds and the hash of the source. -/
def sourceParams : Params := ⟨sipHash, 4 * 1024 * 1024, 4⟩

/-- A table of two keys. -/
theorem reopen_keeps_twoKeys : ∃ s s',
    exec (step sourceParams) start [.put [97] [1], .put [98] [2], .flush] = some s ∧
      Lsm.openDir s.files = some s' ∧ ∀ key, s'.get sipHash key = s.get sipHash key := by
  have hrun : (execIf (step sourceParams) (fun _ op => op.isSmall) start [.put [97] [1], .put [98] [2], .flush]).map
      (fun s => decide (s.memtable.entries = [] ∧ ∀ t ∈ s.l0 ++ s.l1, ((s.tableEntries t).getD []).length =
      2)) = some true := by
    decide +kernel
  simp only [Option.map_eq_some_iff, decide_eq_true_eq] at hrun
  obtain ⟨s, hs, hmem, hlen⟩ := hrun
  have hreached : Reached sourceParams s :=
    ReachableIf.execIf (fun _ _ h => Op.isSmall_imp h) .init hs
  have hsizes : s.KeepsSizes := by
    intro level t ht es hes
    have htwo := hlen t (mem_tables.2 ⟨level, ht⟩)
    rw [hes, Option.getD_some] at htwo
    rw [htwo]
    exact ⟨by rw [FitsFilter]; decide, by decide⟩
  obtain ⟨s', hopen, hget⟩ := (reopen_keeps sourceParams).1 s hreached hmem hsizes
  refine ⟨s, s', ?_, hopen, hget⟩
  rw [← hs]
  rfl

/-! ## Seven keys -/

/-- Seven puts and a flush. -/
def sevenPuts : List Op :=
  [.put [97] [1], .put [98] [2], .put [99] [3], .put [100] [4], .put [101] [5], .put [102] [6],
    .put [103] [7], .flush]

/-- A store that has flushed seven keys loses the first of them when it is reopened. -/
theorem sevenKeys_lost : ∃ s s', exec (step sourceParams) start sevenPuts = some s ∧
    s.memtable.entries = [] ∧ Lsm.openDir s.files = some s' ∧
      s.get sipHash [97] = some (some [1]) ∧ s'.get sipHash [97] = some none := by
  have hrun : ((exec (step sourceParams) start sevenPuts).bind fun s => (Lsm.openDir s.files).map fun s' =>
      (s.memtable.entries, s.get sipHash [97], s'.get sipHash [97])) =
      some ([], some (some [1]), some none) := by decide +kernel
  rw [Option.bind_eq_some_iff] at hrun
  obtain ⟨s, hs, hrun⟩ := hrun
  rw [Option.map_eq_some_iff] at hrun
  obtain ⟨s', hs', heq⟩ := hrun
  simp only [Prod.mk.injEq] at heq
  exact ⟨s, s', hs, heq.1, hs', heq.2.1, heq.2.2⟩

/-!
## Crashes during compaction

Compaction writes the new L1 table and then removes the old files, the newest L0 file first. A crash
leaves the new table and the files that were not yet removed. When such a directory is opened, the
remaining L0 tables are asked before the new table, and the new table has dropped the tombstones, so
an older value may come back (`deleted_key_returns`). `compactAt_keeps_iff` says at which points the
directory still answers as the store did.
-/

/-- The newest entry for a key in some tables of the store. -/
def Lsm.newest (s : Lsm) (ts : List SsTable) (key : Bytes) : Option Value :=
  ts.findSome? fun t => find ((s.tableEntries t).getD []) key

/-- After `j` removals no remaining L0 table has an older value for a key of a removed one, and no
remaining L1 table has a key whose tombstone is gone. -/
def Lsm.SafePoint (s : Lsm) (j : Nat) : Prop :=
  ∀ key,
    (∀ v w, s.newest (s.l0.take j) key = some v → s.newest (s.l0.drop j) key = some w →
      v.asBytes = w.asBytes) ∧
    (s.newest s.l0 key = some .tombstone → s.newest (s.l0.drop j) key = none →
      s.newest (s.l1.drop (j - s.l0.length)) key = none)

/-- The stores on which `compact_l0_to_l1` runs: it is called on its own, or by `put` and `delete`
after the memtable has been written and perhaps flushed. -/
def CompactionPoint (P : Params) (s : Lsm) : Prop :=
  Reached P s ∨ ∃ s₀ e, Reached P s₀ ∧ Small e ∧ (s₀.writeMem e.1 e.2).maybeFlush P = some s

section Crash

variable {hash : Bytes → BitVec 64 → BitVec 64} {s : Lsm} {cs : Contents} {level : Level}

theorem CompactionPoint.stored {P : Params} (h : CompactionPoint P s) : ∃ cs, Stored P.hash s cs := by
  rcases h with h | ⟨s₀, e, h₀, he, hs⟩
  · exact h.stored
  · obtain ⟨cs, hcs⟩ := h₀.stored
    exact (hcs.writeMem he).maybeFlush hs

theorem Stored.newest_eq (h : Stored hash s cs) {ts : List SsTable} {ds : List Content}
    (hmem : List.Forall₂ (InMemory hash level) ts ds) (hsub : ds ⊆ cs level) (key : Bytes) :
    s.newest ts key = overlay (ds.map Content.map) key := by
  induction hmem with
  | nil => rfl
  | @cons t c ts ds ht _ ih =>
    rw [List.cons_subset] at hsub
    rw [List.map_cons, overlay_cons, ← ih hsub.2, Lsm.newest, List.findSome?_cons,
      h.tableEntries ht hsub.1, Option.getD_some]
    show _ = (find c.map.entries key).or _
    cases find c.map.entries key <;> rfl

theorem Stored.l1_live (h : Stored hash s cs) {ds : List Content} (hsub : ds ⊆ cs .l1)
    (key : Bytes) : overlay (ds.map Content.map) key ≠ some .tombstone := by
  intro htomb
  obtain ⟨m, hm, hget⟩ := exists_of_overlay htomb
  obtain ⟨c, hc, rfl⟩ := List.mem_map.1 hm
  obtain ⟨f, -, hw⟩ := h.directory.held .l1 c (hsub hc)
  exact absurd (hw.live rfl _ (mem_entries_iff.2 hget)) (by simp [Value.isTombstone])

theorem filter_live (x : Bytes) : (some (Value.live x)).filter (fun v => !v.isTombstone) = some (.live x) := rfl

theorem filter_tombstone : (some Value.tombstone).filter (fun v => !v.isTombstone) = none := rfl

/-- One key, before and after: `a` and `b` are the newest entries of the removed and of the remaining
L0 tables, `c` and `d` those of all and of the remaining L1 tables. -/
theorem answer_eq_iff {a b c d : Option Value} (hc : c ≠ some .tombstone)
    (hd : d ≠ some .tombstone) (hcd : c = none → d = none) :
    (b.or (((((a.or b).or c).filter fun v => !v.isTombstone)).or d)).bind Value.asBytes =
        ((a.or b).or c).bind Value.asBytes ↔ (∀ v w, a = some v → b = some w → v.asBytes = w.asBytes) ∧
        (a.or b = some .tombstone → b = none → d = none) := by
  cases a with
  | none =>
    cases b with
    | some w => simp
    | none =>
      cases c with
      | none => simp [hcd rfl]
      | some v =>
        cases v with
        | live x => simp [filter_live]
        | tombstone => exact absurd rfl hc
  | some v =>
    cases b with
    | some w => simp [eq_comm]
    | none =>
      cases v with
      | live x => simp [filter_live]
      | tombstone =>
        cases d with
        | none => simp [filter_tombstone, Value.asBytes]
        | some y =>
          cases y with
          | live x => simp [filter_tombstone, Value.asBytes]
          | tombstone => exact absurd rfl hd

theorem overlay_compactedAt (cs : Contents) (s : Lsm) (j : Nat) (key : Bytes) :
    overlay (cs.compactedAt s j).layers key =
      (overlay (((cs .l0).drop j).map Content.map) key).or ((cs.compacted.get key).or
        (overlay (((cs .l1).drop (j - (cs .l0).length)).map Content.map) key)) := by
  rw [Contents.layers, List.map_append, overlay_append]
  rfl

end Crash

/-- **A crash during compaction keeps the answers exactly at the safe points.** -/
theorem compactAt_keeps_iff (P : Params) {s : Lsm} (hs : CompactionPoint P s)
    (hneg : s.NoFalseNegatives P.hash) {j : Nat} {files : Files}
    (hcrash : s.compactAt P.hash j = some files) :
    ∃ s', Lsm.openDir files = some s' ∧ (s'.NoFalseNegatives P.hash →
      ((∀ key, s'.get P.hash key = { s with memtable := SortedMap.empty }.get P.hash key) ↔
        s.SafePoint j)) := by
  obtain ⟨cs, hstored⟩ := hs.stored
  obtain ⟨s', hopen, hstored', -, hmem', -⟩ := (hstored.compactAt hcrash).openDir
  refine ⟨s', hopen, fun hneg' => ?_⟩
  have hbefore : Stored P.hash { s with memtable := empty } cs :=
    { hstored with
      tables := hstored.tables
      memtable := fun e he => absurd he List.not_mem_nil }
  have hlen : s.l0.length = (cs .l0).length := (hstored.tables .l0).length_eq
  -- the four groups of tables, in memory and as maps
  have htake := hstored.newest_eq (List.forall₂_take j (hstored.tables .l0)) (List.take_subset _ _)
  have hdrop := hstored.newest_eq (List.forall₂_drop j (hstored.tables .l0)) (List.drop_subset _ _)
  have hall := hstored.newest_eq (hstored.tables .l0) (List.Subset.refl _)
  have hrest := hstored.newest_eq
    (List.forall₂_drop (j - s.l0.length) (hstored.tables .l1)) (List.drop_subset _ _)
  simp only [Lsm.tables] at htake hdrop hall hrest
  have hsplit : ∀ key, overlay ((cs .l0).map Content.map) key =
      (overlay (((cs .l0).take j).map Content.map) key).or
        (overlay (((cs .l0).drop j).map Content.map) key) := by
    intro key
    rw [← overlay_append, ← List.map_append, List.take_append_drop]
  rw [Lsm.SafePoint]
  refine forall_congr' fun key => ?_
  rw [hstored'.get_eq (hstored'.complete hneg'), hmem', hbefore.get_eq (hstored.complete hneg)]
  rw [htake, hdrop, hall, hrest, hsplit, Option.some.injEq]
  have hcd : overlay ((cs .l1).map Content.map) key = none →
      overlay (((cs .l1).drop (j - s.l0.length)).map Content.map) key = none := by
    rw [overlay_eq_none, overlay_eq_none]
    intro hnone m hm
    obtain ⟨c, hc, rfl⟩ := List.mem_map.1 hm
    exact hnone _ (List.mem_map_of_mem (List.drop_subset _ _ hc))
  have hiff := answer_eq_iff (a := overlay (((cs .l0).take j).map Content.map) key)
    (b := overlay (((cs .l0).drop j).map Content.map) key)
    (hstored.l1_live (List.Subset.refl _) key)
    (hstored.l1_live (List.drop_subset (j - s.l0.length) _) key) hcd
  rw [← hsplit] at hiff ⊢
  rw [← hiff]
  show (overlay (empty :: (cs.compactedAt s j).layers) key).bind _ =
    (overlay (empty :: cs.layers) key).bind _ ↔ _
  rw [overlay_cons, overlay_cons, get_empty, Option.none_or, Option.none_or,
    overlay_compactedAt, get_compacted, Contents.layers, List.map_append, overlay_append, hlen]

/-- One table, compacted: the point after the removal of its file. -/
theorem compactAt_keeps_iff_oneTable : ∃ s files s',
    exec (step sourceParams) start [.put [97] [1], .flush] = some s ∧
      s.compactAt sipHash 1 = some files ∧ Lsm.openDir files = some s' ∧
        (s'.NoFalseNegatives sipHash →
          ((∀ key, s'.get sipHash key =
            { s with memtable := SortedMap.empty }.get sipHash key) ↔ s.SafePoint 1)) := by
  have hrun : ((exec (step sourceParams) start [.put [97] [1], .flush]).bind fun s =>
      (s.compactAt sipHash 1).map fun _ => decide (s.NoFalseNegatives sipHash)) = some true := by
    decide +kernel
  simp only [Option.bind_eq_some_iff, Option.map_eq_some_iff, decide_eq_true_eq] at hrun
  obtain ⟨s, hs, files, hfiles, hneg⟩ := hrun
  have hsmall : execIf (step sourceParams) (fun _ op => op.isSmall) start [.put [97] [1], .flush] =
      some s := by
    rw [← hs]
    rfl
  have hreached : Reached sourceParams s :=
    ReachableIf.execIf (fun _ _ h => Op.isSmall_imp h) .init hsmall
  obtain ⟨s', hopen, hiff⟩ := compactAt_keeps_iff sourceParams (Or.inl hreached) hneg hfiles
  exact ⟨s, files, s', hs, hfiles, hopen, hiff⟩

/-- Four flushed tables; the key `[97]` has a value in the oldest and a tombstone in the next. -/
def fourTables : List Op :=
  [.put [97] [1], .flush, .delete [97], .flush, .put [98] [2], .flush, .put [99] [3], .flush]

/-- A deleted key comes back: three files are removed, the one that has the value is not. -/
theorem deleted_key_returns : ∃ s₀ s files s', exec (step sourceParams) start fourTables = some s₀ ∧
    (s₀.writeMem [100] (.live [4])).maybeFlush sourceParams = some s ∧
      s.NoFalseNegatives sipHash ∧ s.compactAt sipHash 3 = some files ∧
        Lsm.openDir files = some s' ∧ s'.NoFalseNegatives sipHash ∧
          { s with memtable := SortedMap.empty }.get sipHash [97] = some none ∧
            s'.get sipHash [97] = some (some [1]) := by
  have hrun : ((exec (step sourceParams) start fourTables).bind fun s₀ =>
      ((s₀.writeMem [100] (.live [4])).maybeFlush sourceParams).bind fun s =>
        (s.compactAt sipHash 3).bind fun files => (Lsm.openDir files).map fun s' =>
          decide (s.NoFalseNegatives sipHash ∧ s'.NoFalseNegatives sipHash ∧
            { s with memtable := empty }.get sipHash [97] = some none ∧
              s'.get sipHash [97] = some (some [1]))) = some true := by decide +kernel
  simp only [Option.bind_eq_some_iff, Option.map_eq_some_iff, decide_eq_true_eq] at hrun
  obtain ⟨s₀, hs₀, s, hs, files, hfiles, s', hs', hneg, hneg', hget, hget'⟩ := hrun
  exact ⟨s₀, s, files, s', hs₀, hs, hneg, hfiles, hs', hneg', hget, hget'⟩

end SystemDesignLabs.LsmKv
