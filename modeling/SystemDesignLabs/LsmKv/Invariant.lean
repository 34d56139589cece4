import SystemDesignLabs.LsmKv.Store

/-!
# What the directory holds

The store invariant `Stored s cs` says which maps the files hold: `cs` gives for each level the
contents of its tables, newest first. `Directory` is the part about the files alone, so that it also
speaks about a directory left by a crash. Reading goes through the overlay of memtable and contents
(`Stored.get_eq`); each operation changes the contents as its name says (`Stored.flushMemtable`,
`Stored.compactL0ToL1`, `Directory.openDir`).
-/

namespace SystemDesignLabs.LsmKv

open List (Forall₂ length_map map_cons map_take mem_append mem_cons mem_cons_self mem_map take_subset)
open Option (bind_eq_bind bind_eq_some_iff bind_some some)

open Core SortedList SortedMap

/-- What the file of a table holds. -/
structure Content where
  seq : Nat
  map : SortedMap Bytes Value

/-- The contents of the tables of each level, newest first. -/
abbrev Contents := Level → List Content

/-- All maps, in the order in which `get` asks them. -/
def Contents.layers (cs : Contents) : List (SortedMap Bytes Value) :=
  (cs .l0 ++ cs .l1).map Content.map

/-- The tables of a level. -/
def Lsm.tables (s : Lsm) : Level → List SsTable
  | .l0 => s.l0
  | .l1 => s.l1

section Invariant

variable (hash : Bytes → BitVec 64 → BitVec 64)

/-- A file that a writer can produce for a table of the level. -/
structure Writable (level : Level) (c : Content) (f : File) : Prop where
  small : ∀ e ∈ c.map.entries, Small e
  bytes : f.bytes = (writeSstable hash c.map.entries).1
  seq_lt : c.seq + 1 < 2 ^ 64
  live : level = .l1 → ∀ e ∈ c.map.entries, e.2.isTombstone = false

/-- The directory has the file of a table. -/
def Held (files : Files) (level : Level) (c : Content) : Prop :=
  ∃ f, files.get (tableName level c.seq) = some f ∧ Writable hash level c f

/-- The directory holds the given contents and nothing else. -/
structure Directory (files : Files) (cs : Contents) : Prop where
  names : ∀ name f, files.get name = some f → ∃ level, ∃ c ∈ cs level, name = tableName level c.seq
  held : ∀ level, ∀ c ∈ cs level, Held hash files level c
  newestFirst : ∀ level, (cs level).Pairwise fun c d => d.seq < c.seq

/-- What the store keeps of a table. The filter is the original one whenever reloading keeps it. -/
structure InMemory (level : Level) (t : SsTable) (c : Content) : Prop where
  path : t.path = tableName level c.seq
  seq : t.seq = c.seq
  index : t.index ⊆ (writeSstable hash c.map.entries).2.1
  bloom : FitsFilter c.map.entries.length → BloomFilter.KeepsSize c.map.entries.length →
    t.bloom = BloomFilter.ofKeys hash (c.map.entries.map Prod.fst)

/-- The filter answers for every key of the table. -/
def Complete (t : SsTable) (c : Content) : Prop :=
  ∀ e ∈ c.map.entries, t.bloom.mayContain hash e.1 = true

/-- The store invariant. -/
structure Stored (s : Lsm) (cs : Contents) : Prop where
  directory : Directory hash s.files cs
  tables : ∀ level, List.Forall₂ (InMemory hash level) (s.tables level) (cs level)
  memtable : ∀ e ∈ s.memtable.entries, Small e
  seq_lt : ∀ level, ∀ c ∈ cs level, c.seq < s.nextSeq
  nextSeq_lt : s.nextSeq < 2 ^ 64

/-- The entries of a table of the store. -/
def Lsm.tableEntries (s : Lsm) (t : SsTable) : Option (List Entry) := do
  let file ← s.files.get t.path
  readAllEntries file.bytes

/-- No filter of the store hides a key that its file holds. -/
def Lsm.NoFalseNegatives (s : Lsm) : Prop :=
  ∀ t ∈ s.l0 ++ s.l1, ∀ e ∈ (s.tableEntries t).getD [], t.bloom.mayContain hash e.1 = true

instance (s : Lsm) : Decidable (s.NoFalseNegatives hash) :=
  inferInstanceAs (Decidable (∀ t ∈ s.l0 ++ s.l1, ∀ e ∈ (s.tableEntries t).getD [], _ = true))

end Invariant

section Facts

variable {hash : Bytes → BitVec 64 → BitVec 64} {files : Files} {s : Lsm} {cs : Contents}
  {level : Level}

/-! ## Reading -/

variable {c : Content}

theorem Writable.length_lt {f : File} (h : Writable hash level c f) :
    (writeSstable hash c.map.entries).1.length < 2 ^ 64 := h.bytes ▸ f.length_lt

theorem Writable.readAllEntries {f : File} (h : Writable hash level c f) :
    readAllEntries f.bytes = some c.map.entries := by
  rw [h.bytes]
  exact readAllEntries_spec hash h.small h.length_lt

variable {ds : List Content} {ts : List SsTable}

section

variable (hmem : List.Forall₂ (InMemory hash level) ts ds)
include hmem

theorem getTables_eq
    (hheld : ∀ c ∈ ds, Held hash files level c) (hcomplete : List.Forall₂ (Complete hash) ts ds) (key : Bytes) :
    Lsm.getTables hash files key ts = some (overlay (ds.map Content.map) key) := by
  induction hmem with
  | nil => rfl
  | @cons t c ts ds ht _ ih =>
    rw [List.forall₂_cons] at hcomplete
    rw [List.forall_mem_cons] at hheld
    have hrest := ih hheld.2 hcomplete.2
    obtain ⟨f, hf, hw⟩ := hheld.1
    have hfound := sstableGet_spec hash c.map.sorted hw.small hw.length_lt ht.index key
    rw [map_cons, overlay_cons, Lsm.getTables]
    split
    case isTrue hmay =>
      rw [ht.path, hf]
      simp only [bind_eq_bind, bind_some, hw.bytes, hfound, hrest]
      change _ = some ((find c.map.entries key).or _)
      cases find c.map.entries key with
      | none => rfl
      | some v => rfl
    case isFalse hmay =>
      have hnone : c.map.get key = none := by
        cases hget : c.map.get key with
        | none => rfl
        | some x => exact absurd (hcomplete.1 _ (mem_of_find hget)) hmay
      rw [hrest, hnone]
      rfl

theorem mergeTables_eq
    (hheld : ∀ c ∈ ds, Held hash files level c) :
    Lsm.mergeTables files ts = some (mergeMaps (ds.map Content.map)) := by
  induction hmem with
  | nil => rfl
  | @cons t c ts ds ht _ ih =>
    rw [List.forall_mem_cons] at hheld
    obtain ⟨f, hf, hw⟩ := hheld.1
    rw [Lsm.mergeTables, ih hheld.2]
    simp only [bind_eq_bind, bind_some, ht.path, hf, hw.readAllEntries]
    rfl

end

theorem Stored.tableEntries {t : SsTable} (h : Stored hash s cs) (ht : InMemory hash level t c)
    (hc : c ∈ cs level) :
    s.tableEntries t = some c.map.entries := by
  obtain ⟨f, hf, hw⟩ := h.directory.held level c hc
  simp only [Lsm.tableEntries, ht.path, hf, bind_eq_bind, bind_some,
    hw.readAllEntries]

theorem mem_tables {t : SsTable} : t ∈ s.l0 ++ s.l1 ↔ ∃ level, t ∈ s.tables level := by
  rw [mem_append]
  constructor
  · rintro (h | h)
    · exact ⟨.l0, h⟩
    · exact ⟨.l1, h⟩
  · rintro ⟨level, h⟩
    cases level with
    | l0 => exact Or.inl h
    | l1 => exact Or.inr h

theorem Stored.forall₂_tables {R : SsTable → Content → Prop} (h : Stored hash s cs)
    (hR : ∀ t ∈ s.tables level, ∀ c ∈ cs level, InMemory hash level t c → R t c) :
    List.Forall₂ R (s.tables level) (cs level) := by
  have hmem := h.tables level
  revert hR hmem
  generalize s.tables level = ts
  generalize cs level = ds
  intro hR hmem
  induction hmem with
  | nil => exact Forall₂.nil
  | @cons t c ts ds ht _ ih =>
    refine Forall₂.cons (hR t mem_cons_self c mem_cons_self ht) (ih ?_)
    exact fun t' ht' c' hc' => hR t' (List.mem_cons_of_mem _ ht') c' (List.mem_cons_of_mem _ hc')

theorem Stored.complete (h : Stored hash s cs) (hneg : s.NoFalseNegatives hash) (level : Level) :
    List.Forall₂ (Complete hash) (s.tables level) (cs level) := by
  refine h.forall₂_tables fun t ht c hc hmem e he => ?_
  refine hneg t (mem_tables.2 ⟨level, ht⟩) e ?_
  rw [h.tableEntries hmem hc]
  exact he

/-- Reading is reading the overlay, as long as no filter hides a key. -/
theorem Stored.get_eq (h : Stored hash s cs)
    (hcomplete : ∀ level, List.Forall₂ (Complete hash) (s.tables level) (cs level)) (key : Bytes) :
    s.get hash key = some ((overlay (s.memtable :: cs.layers) key).bind Value.asBytes) := by
  have h0 := getTables_eq (h.tables .l0) (h.directory.held .l0) (hcomplete .l0) key
  have h1 := getTables_eq (h.tables .l1) (h.directory.held .l1) (hcomplete .l1) key
  rw [overlay_cons, Contents.layers, List.map_append, overlay_append, Lsm.get]
  simp only [Lsm.tables] at h0 h1
  cases s.memtable.get key with
  | some v => rfl
  | none =>
    simp only [h0, h1, bind_eq_bind, bind_some, Option.none_or]
    cases overlay ((cs .l0).map Content.map) key with
    | some v => rfl
    | none =>
      cases overlay ((cs .l1).map Content.map) key with
      | some v => rfl
      | none => rfl

/-! ## Changing the directory -/

section

variable (h : Directory hash files cs)
include h

theorem Directory.seq_inj {d : Content} (hc : c ∈ cs level)
    (hd : d ∈ cs level) (heq : c.seq = d.seq) : c = d := by
  by_contra hne
  have hlt : (cs level).Pairwise fun a b => a.seq ≠ b.seq :=
    (h.newestFirst level).imp fun hab => ne_of_gt hab
  have hsymm : Std.Symm fun a b : Content => a.seq ≠ b.seq := ⟨fun _ _ hab => hab.symm⟩
  exact hlt.forall hc hd hne heq

theorem Directory.insert {f : File} (hw : Writable hash level c f)
    (hnew : ∀ level, ∀ d ∈ cs level, d.seq < c.seq) :
    Directory hash (files.insert (tableName level c.seq) f)
      (Function.update cs level (c :: cs level)) := by
  have hmem : ∀ level' d, d ∈ Function.update cs level (c :: cs level) level' ↔
      (level' = level ∧ d = c) ∨ d ∈ cs level' := by
    intro level' d
    by_cases heq : level' = level
    · subst heq
      rw [Function.update_self, mem_cons]
      simp
    · rw [Function.update_of_ne heq]
      simp [heq]
  constructor
  · intro name f' hget
    rw [get_insert] at hget
    split at hget
    case isTrue heq => exact ⟨level, c, (hmem level c).2 (Or.inl ⟨rfl, rfl⟩), heq⟩
    case isFalse hne =>
      obtain ⟨level', d, hd, hname⟩ := h.names name f' hget
      exact ⟨level', d, (hmem level' d).2 (Or.inr hd), hname⟩
  · intro level' d hd
    rcases (hmem level' d).1 hd with ⟨rfl, rfl⟩ | hd'
    · exact ⟨f, by rw [get_insert, if_pos rfl], hw⟩
    · obtain ⟨f', hf', hw'⟩ := h.held level' d hd'
      refine ⟨f', ?_, hw'⟩
      rw [get_insert, if_neg, hf']
      intro heq
      exact ne_of_lt (hnew level' d hd') (tableName_inj heq).2
  · intro level'
    by_cases heq : level' = level
    · subst heq
      rw [Function.update_self, List.pairwise_cons]
      exact ⟨hnew level', h.newestFirst level'⟩
    · rw [Function.update_of_ne heq]
      exact h.newestFirst level'

theorem Directory.eraseAll {kept : Contents} {names : List Name}
    (hsub : ∀ level, (kept level).Sublist (cs level))
    (hnames : ∀ level, ∀ c ∈ cs level, tableName level c.seq ∈ names ↔ c ∉ kept level) :
    Directory hash (files.eraseAll names) kept := by
  constructor
  · intro name f hget
    rw [get_eraseAll] at hget
    split at hget
    case isTrue => exact absurd hget (by simp)
    case isFalse hname =>
      obtain ⟨level, c, hc, rfl⟩ := h.names name f hget
      have hkept : c ∈ kept level := by
        by_contra hnot
        exact hname ((hnames level c hc).2 hnot)
      exact ⟨level, c, hkept, rfl⟩
  · intro level c hc
    have hmem := (hsub level).subset hc
    obtain ⟨f, hf, hw⟩ := h.held level c hmem
    refine ⟨f, ?_, hw⟩
    rw [get_eraseAll, if_neg, hf]
    exact fun hname => (hnames level c hmem).1 hname hc
  · exact fun level => (h.newestFirst level).sublist (hsub level)

end

/-! ## Flushing -/

theorem succU64_eq_some {n m : Nat} : succU64 n = some m ↔ n + 1 < 2 ^ 64 ∧ m = n + 1 := by
  rw [succU64]
  split
  case isTrue h => rw [some.injEq, and_iff_right h, eq_comm]
  case isFalse h => exact iff_of_false (by simp) fun hand => h hand.1

theorem createFile_eq_some {name : Name} {bytes : Bytes} {files' : Files} :
    createFile files name bytes = some files' ↔
      ∃ f : File, f.bytes = bytes ∧ files' = files.insert name f := by
  rw [createFile]
  split
  case isTrue h =>
    constructor
    · intro heq
      exact ⟨⟨bytes, h⟩, rfl, (some.inj heq).symm⟩
    · rintro ⟨⟨_, _⟩, rfl, rfl⟩
      rfl
  case isFalse h =>
    constructor
    · intro heq
      exact absurd heq (by simp)
    · rintro ⟨f, rfl, -⟩
      exact absurd f.length_lt h

variable {s' : Lsm}

theorem flushMemtable_eq_some : s.flushMemtable hash = some s' ↔
    s.nextSeq + 1 < 2 ^ 64 ∧ ∃ f : File, f.bytes = (writeSstable hash s.memtable.entries).1 ∧
      s' = { s with
        files := s.files.insert (tableName .l0 s.nextSeq) f
        memtable := SortedMap.empty
        memtableBytes := 0
        l0 := ⟨tableName .l0 s.nextSeq, (writeSstable hash s.memtable.entries).2.1,
          (writeSstable hash s.memtable.entries).2.2, s.nextSeq⟩ :: s.l0
        nextSeq := s.nextSeq + 1 } := by
  simp only [Lsm.flushMemtable, bind_eq_bind, bind_eq_some_iff, succU64_eq_some,
    createFile_eq_some, some.injEq]
  constructor
  · rintro ⟨_, ⟨hseq, rfl⟩, _, ⟨f, hf, rfl⟩, rfl⟩
    exact ⟨hseq, f, hf, rfl⟩
  · rintro ⟨hseq, f, hf, rfl⟩
    exact ⟨_, ⟨hseq, rfl⟩, _, ⟨f, hf, rfl⟩, rfl⟩

/-- A table as it is kept when its file has just been written. -/
def freshTable (hash : Bytes → BitVec 64 → BitVec 64) (level : Level) (c : Content) : SsTable :=
  ⟨tableName level c.seq, (writeSstable hash c.map.entries).2.1,
    (writeSstable hash c.map.entries).2.2, c.seq⟩

theorem freshTable_inMemory (hash : Bytes → BitVec 64 → BitVec 64) (level : Level) (c : Content) :
    InMemory hash level (freshTable hash level c) c :=
  ⟨rfl, rfl, List.Subset.refl _, fun _ _ => rfl⟩

theorem freshTable_complete (hash : Bytes → BitVec 64 → BitVec 64) (level : Level) (c : Content) :
    Complete hash (freshTable hash level c) c := fun _ he =>
  BloomFilter.mayContain_ofKeys hash (List.mem_map_of_mem he)

/-- The contents after a flush. -/
def Contents.flushed (cs : Contents) (s : Lsm) : Contents :=
  Function.update cs .l0 (⟨s.nextSeq, s.memtable⟩ :: cs .l0)

/-- A flush moves the memtable into a new L0 table. -/
theorem Stored.flushMemtable (h : Stored hash s cs) (hs : s.flushMemtable hash = some s') :
    Stored hash s' (cs.flushed s) := by
  obtain ⟨hseq, f, hf, rfl⟩ := flushMemtable_eq_some.1 hs
  have hnew : ∀ level, ∀ d ∈ cs level, d.seq < s.nextSeq := h.seq_lt
  have hw : Writable hash .l0 ⟨s.nextSeq, s.memtable⟩ f :=
    ⟨h.memtable, hf, hseq, fun heq => absurd heq (by decide)⟩
  have hadded := h.directory.insert hw hnew
  constructor
  · exact hadded
  · intro level
    cases level with
    | l0 =>
      exact Forall₂.cons (freshTable_inMemory hash .l0 ⟨s.nextSeq, s.memtable⟩) (h.tables .l0)
    | l1 => exact h.tables .l1
  · exact fun e he => absurd he (by simp [empty])
  · intro level c hc
    show c.seq < s.nextSeq + 1
    cases level with
    | l0 =>
      rcases mem_cons.1 hc with rfl | hc
      · exact Nat.lt_succ_self _
      · exact Nat.lt_succ_of_lt (hnew .l0 c hc)
    | l1 => exact Nat.lt_succ_of_lt (hnew .l1 c hc)
  · exact hseq

/-! ## Compaction -/

/-- What the new L1 table holds. -/
def Contents.compacted (cs : Contents) : SortedMap Bytes Value :=
  (mergeMaps cs.layers).filter fun e => !e.2.isTombstone

theorem get_compacted (cs : Contents) (key : Bytes) :
    cs.compacted.get key = (overlay cs.layers key).filter fun v => !v.isTombstone := by
  rw [Contents.compacted, get_filter, get_mergeMaps]

theorem Stored.finalEntries (h : Stored hash s cs) : s.finalEntries = some cs.compacted := by
  have h0 := mergeTables_eq (h.tables .l0) (h.directory.held .l0)
  have h1 := mergeTables_eq (h.tables .l1) (h.directory.held .l1)
  simp only [Lsm.tables] at h0 h1
  simp only [Lsm.finalEntries, h0, h1, bind_eq_bind, bind_some, some.injEq]
  apply ext_get
  intro key
  rw [get_filter, get_insertAll _ (sorted _), get_compacted,
    Contents.layers, List.map_append, overlay_append, ← get_mergeMaps ((cs .l0).map _),
    ← get_mergeMaps ((cs .l1).map _)]
  rfl

theorem mem_compacted {e : Entry} (he : e ∈ cs.compacted.entries) :
    e.2.isTombstone = false ∧ ∃ level, ∃ c ∈ cs level, e ∈ c.map.entries := by
  obtain ⟨key, v⟩ := e
  rw [mem_entries_iff, get_compacted, Option.filter_eq_some_iff] at he
  obtain ⟨hget, hlive⟩ := he
  refine ⟨by simpa using hlive, ?_⟩
  obtain ⟨m, hm, hmget⟩ := exists_of_overlay hget
  obtain ⟨c, hc, rfl⟩ := mem_map.1 hm
  rcases mem_append.1 hc with hc | hc
  · exact ⟨.l0, c, hc, mem_entries_iff.2 hmget⟩
  · exact ⟨.l1, c, hc, mem_entries_iff.2 hmget⟩

theorem Stored.writeCompacted_eq_some (h : Stored hash s cs) {r : Files × SsTable × Nat} :
    s.writeCompacted hash = some r ↔
      s.nextSeq + 1 < 2 ^ 64 ∧ ∃ f : File, f.bytes = (writeSstable hash cs.compacted.entries).1 ∧
        r = (s.files.insert (tableName .l1 s.nextSeq) f,
          freshTable hash .l1 ⟨s.nextSeq, cs.compacted⟩, s.nextSeq + 1) := by
  simp only [Lsm.writeCompacted, h.finalEntries, bind_eq_bind, bind_some,
    bind_eq_some_iff, succU64_eq_some, createFile_eq_some, some.injEq]
  constructor
  · rintro ⟨_, ⟨hseq, rfl⟩, _, ⟨f, hf, rfl⟩, rfl⟩
    exact ⟨hseq, f, hf, rfl⟩
  · rintro ⟨hseq, f, hf, rfl⟩
    exact ⟨_, ⟨hseq, rfl⟩, _, ⟨f, hf, rfl⟩, rfl⟩

/-- The contents when the new L1 table is written and `j` old tables are removed. -/
def Contents.compactedAt (cs : Contents) (s : Lsm) (j : Nat) : Contents
  | .l0 => (cs .l0).drop j
  | .l1 => ⟨s.nextSeq, cs.compacted⟩ :: (cs .l1).drop (j - (cs .l0).length)

theorem map_path (hmem : List.Forall₂ (InMemory hash level) ts ds) :
    ts.map SsTable.path = ds.map fun c => tableName level c.seq := by
  induction hmem with
  | nil => rfl
  | cons ht _ ih => rw [map_cons, map_cons, ht.path, ih]

theorem Directory.mem_names_iff (h : Directory hash files cs) (hc : c ∈ cs level) (hsub : ds ⊆ cs level) :
    tableName level c.seq ∈ ds.map (fun d => tableName level d.seq) ↔ c ∈ ds := by
  rw [mem_map]
  constructor
  · rintro ⟨d, hd, heq⟩
    have := h.seq_inj (hsub hd) hc (tableName_inj heq).2
    exact this ▸ hd
  · exact fun hc => ⟨c, hc, rfl⟩

theorem not_mem_names {level' : Level} (hne : level ≠ level') (seq : Nat) (ds : List Content) :
    tableName level seq ∉ ds.map fun d => tableName level' d.seq := by
  intro hmem
  obtain ⟨d, -, heq⟩ := mem_map.1 hmem
  exact hne (tableName_inj heq).1.symm

theorem mem_take_iff_not_mem_drop {A : Type} {l : List A} (hnd : l.Nodup) {a : A} (ha : a ∈ l)
    (j : Nat) : a ∈ l.take j ↔ a ∉ l.drop j := by
  constructor
  · intro htake hdrop
    exact List.disjoint_take_drop hnd le_rfl htake hdrop
  · intro hdrop
    rw [← List.take_append_drop j l] at ha
    exact (mem_append.1 ha).resolve_right hdrop

/-- The directory while the old files are being removed. -/
theorem Stored.compactAt (h : Stored hash s cs) {j : Nat} {files' : Files}
    (hs : s.compactAt hash j = some files') : Directory hash files' (cs.compactedAt s j) := by
  simp only [Lsm.compactAt, bind_eq_bind, bind_eq_some_iff, some.injEq] at hs
  obtain ⟨r, hr, rfl⟩ := hs
  obtain ⟨hseq, f, hf, rfl⟩ := h.writeCompacted_eq_some.1 hr
  have hsmall : ∀ e ∈ cs.compacted.entries, Small e := fun e he => by
    obtain ⟨-, level, c, hc, hec⟩ := mem_compacted he
    obtain ⟨_, -, hw⟩ := h.directory.held level c hc
    exact hw.small e hec
  have hw : Writable hash .l1 ⟨s.nextSeq, cs.compacted⟩ f :=
    ⟨hsmall, hf, hseq, fun _ e he => (mem_compacted he).1⟩
  have hadded := h.directory.insert hw h.seq_lt
  have hpaths : s.oldPaths.take j =
      ((cs .l0).take j).map (fun c => tableName .l0 c.seq) ++
        ((cs .l1).take (j - (cs .l0).length)).map fun c => tableName .l1 c.seq := by
    have h0 := map_path (h.tables .l0)
    have h1 := map_path (h.tables .l1)
    simp only [Lsm.tables] at h0 h1
    rw [Lsm.oldPaths, h0, h1, List.take_append, map_take, map_take, length_map]
  have hnd : ∀ level, (cs level).Nodup := fun level =>
    (h.directory.newestFirst level).imp fun hlt heq => absurd (congrArg Content.seq heq) (ne_of_gt hlt)
  have hne : ∀ c ∈ cs .l1, c ≠ ⟨s.nextSeq, cs.compacted⟩ := fun c hc heq =>
    absurd (congrArg Content.seq heq) (ne_of_lt (h.seq_lt .l1 c hc))
  rw [hpaths]
  refine hadded.eraseAll (fun level => ?_) (fun level c hc => ?_)
  · cases level with
    | l0 => exact List.drop_sublist _ _
    | l1 => exact (List.drop_sublist _ _).cons_cons _
  · rw [mem_append]
    cases level with
    | l0 =>
      have hc0 : c ∈ cs .l0 := hc
      rw [h.directory.mem_names_iff hc0 (take_subset _ _),
        mem_take_iff_not_mem_drop (hnd .l0) hc0]
      have hother := not_mem_names (by decide : Level.l0 ≠ .l1) c.seq
        ((cs .l1).take (j - (cs .l0).length))
      exact or_iff_left hother
    | l1 =>
      have hother := not_mem_names (by decide : Level.l1 ≠ .l0) c.seq
        ((cs .l0).take j)
      rw [or_iff_right hother]
      rcases mem_cons.1 hc with rfl | hc1
      · -- the new table is not among the old ones
        refine iff_of_false (fun hmem => ?_) fun hnot => hnot mem_cons_self
        obtain ⟨d, hd, heq⟩ := mem_map.1 hmem
        exact ne_of_lt (h.seq_lt .l1 d (take_subset _ _ hd)) (tableName_inj heq).2
      · rw [h.directory.mem_names_iff hc1 (take_subset _ _),
          mem_take_iff_not_mem_drop (hnd .l1) hc1]
        show _ ↔ c ∉ _ :: _
        rw [mem_cons, not_or]
        exact (and_iff_right (hne c hc1)).symm

/-- The contents after a compaction. -/
def Contents.afterCompaction (cs : Contents) (s : Lsm) : Contents
  | .l0 => []
  | .l1 => [⟨s.nextSeq, cs.compacted⟩]

theorem Stored.compactL0ToL1_eq (h : Stored hash s cs) (hs : s.compactL0ToL1 hash = some s') :
    s.nextSeq + 1 < 2 ^ 64 ∧ ∃ files',
      s.compactAt hash s.oldPaths.length = some files' ∧
        s' = { s with
          files := files'
          l0 := []
          l1 := [freshTable hash .l1 ⟨s.nextSeq, cs.compacted⟩]
          nextSeq := s.nextSeq + 1 } := by
  simp only [Lsm.compactL0ToL1, bind_eq_bind, bind_eq_some_iff,
    some.injEq] at hs
  obtain ⟨r, hr, rfl⟩ := hs
  obtain ⟨hseq, f, -, rfl⟩ := h.writeCompacted_eq_some.1 hr
  refine ⟨hseq, _, ?_, rfl⟩
  simp only [Lsm.compactAt, hr, bind_eq_bind, bind_some, List.take_length]

/-- A compaction leaves one table. -/
theorem Stored.compactL0ToL1 (h : Stored hash s cs) (hs : s.compactL0ToL1 hash = some s') :
    Stored hash s' (cs.afterCompaction s) := by
  obtain ⟨hseq, files', hfiles, rfl⟩ := h.compactL0ToL1_eq hs
  have hcs : cs.compactedAt s s.oldPaths.length = cs.afterCompaction s := by
    have h0 := (h.tables .l0).length_eq
    have h1 := (h.tables .l1).length_eq
    simp only [Lsm.tables] at h0 h1
    funext level
    cases level with
    | l0 =>
      show (cs .l0).drop _ = []
      rw [List.drop_eq_nil_iff, Lsm.oldPaths, List.length_append, length_map]
      omega
    | l1 =>
      show _ :: (cs .l1).drop _ = [_]
      rw [List.drop_eq_nil_of_le]
      rw [Lsm.oldPaths, List.length_append, length_map, length_map]
      omega
  constructor
  · exact hcs ▸ h.compactAt hfiles
  · intro level
    cases level with
    | l0 => exact Forall₂.nil
    | l1 => exact Forall₂.cons (freshTable_inMemory hash .l1 _) Forall₂.nil
  · exact h.memtable
  · intro level c hc
    show c.seq < s.nextSeq + 1
    cases level with
    | l0 => exact absurd hc List.not_mem_nil
    | l1 => rw [List.mem_singleton.1 hc]; exact Nat.lt_succ_self _
  · exact hseq

end Facts

end SystemDesignLabs.LsmKv
