import SystemDesignLabs.Timeseries.Query

/-!
# Reopening a store

The name of a file is read back with every `_` as a `.`, a name that begins with its only dot has no extension, and a
name with a `/` does not lie in the directory. `reopen_preserves_iff` says that the names of the metrics are all that
matters: a store whose buffers are empty is reopened as it was exactly when no metric that has chunks has an empty name
or one with `_` or `/`.
-/

namespace SystemDesignLabs.Timeseries

open Option (isSome_iff_exists some)

open Core SortedMap Prod

/-! ### Names -/

/-- The name comes back from the name of its file. -/
structure Recoverable (metric : String) : Prop where
  ne_empty : metric ≠ ""
  underscore_notMem : '_' ∉ metric.toList
  slash_notMem : '/' ∉ metric.toList

instance (metric : String) : Decidable (Recoverable metric) :=
  decidable_of_iff (metric ≠ "" ∧ '_' ∉ metric.toList ∧ '/' ∉ metric.toList)
    ⟨fun h => ⟨h.1, h.2.1, h.2.2⟩, fun h => ⟨h.1, h.2, h.3⟩⟩

theorem toList_replaceChar (a b : Char) (s : String) :
    (replaceChar a b s).toList = s.toList.map fun c => if c = a then b else c :=
  String.toList_ofList

theorem rsplitAtDot_of_notMem {cs : List Char} (h : '.' ∉ cs) : rsplitAtDot cs = none := by
  induction cs with
  | nil => rfl
  | cons c cs ih =>
    obtain ⟨hc, hcs⟩ := not_or.1 (mt List.mem_cons.2 h)
    rw [rsplitAtDot, ih hcs]
    exact if_neg (Ne.symm hc)

theorem rsplitAtDot_append (before : List Char) {after : List Char} (h : '.' ∉ after) :
    rsplitAtDot (before ++ '.' :: after) = some (before, after) := by
  induction before with
  | nil =>
    rw [List.nil_append, rsplitAtDot, rsplitAtDot_of_notMem h]
    exact if_pos rfl
  | cons c before ih => rw [List.cons_append, rsplitAtDot, ih]

theorem toList_fileName (metric : String) :
    (fileName metric).toList = (replaceChar '.' '_' metric).toList ++ '.' :: "chunks".toList := by
  rw [fileName, String.toList_append]
  rfl

variable {metric : String}

theorem slash_notMem_fileName (h : '/' ∉ metric.toList) : '/' ∉ (fileName metric).toList := by
  rw [toList_fileName, toList_replaceChar]
  intro hmem
  rcases List.mem_append.1 hmem with hmem | hmem
  · obtain ⟨c, hc, heq⟩ := List.mem_map.1 hmem
    split at heq
    · exact absurd heq (by decide)
    · exact h (heq ▸ hc)
  · exact absurd hmem (by decide)

theorem rsplitAtDot_sound {cs before after : List Char} (h : rsplitAtDot cs = some (before, after)) :
    cs = before ++ '.' :: after := by
  induction cs generalizing before with
  | nil => exact absurd h (by simp [rsplitAtDot])
  | cons c cs ih =>
    rw [rsplitAtDot] at h
    cases hsplit : rsplitAtDot cs with
    | none =>
      rw [hsplit] at h
      dsimp only at h
      split at h
      · rename_i hc
        obtain ⟨rfl, rfl⟩ := mk.inj (some.inj h)
        rw [hc]
        rfl
      · exact absurd h (by simp)
    | some parts =>
      rw [hsplit] at h
      obtain ⟨rfl, rfl⟩ := mk.inj (some.inj h)
      rw [List.cons_append, ← ih hsplit]

theorem stemAndExtension_fileName (h : metric ≠ "") :
    stemAndExtension (fileName metric) = (replaceChar '.' '_' metric, some "chunks") := by
  have hdot : '.' ∉ "chunks".toList := by decide
  rw [stemAndExtension, toList_fileName, rsplitAtDot_append _ hdot]
  cases hchars : (replaceChar '.' '_' metric).toList with
  | nil =>
    rw [toList_replaceChar, List.map_eq_nil_iff] at hchars
    exact absurd (String.toList_inj.1 hchars) h
  | cons c cs =>
    dsimp only
    rw [← hchars, String.ofList_toList, String.ofList_toList]

theorem replaceChar_replaceChar (h : '_' ∉ metric.toList) :
    replaceChar '_' '.' (replaceChar '.' '_' metric) = metric := by
  apply String.toList_inj.1
  rw [toList_replaceChar, toList_replaceChar, List.map_map]
  refine (List.map_congr_left fun c hc => ?_).trans (List.map_id metric.toList)
  show (if (if c = '.' then '_' else c) = '_' then '.' else if c = '.' then '_' else c) = c
  by_cases hdot : c = '.'
  · rw [if_pos hdot, if_pos rfl, hdot]
  · have hne : c ≠ '_' := fun heq => h (heq ▸ hc)
    rw [if_neg hdot, if_neg hne]

/-- A recoverable name is read back. -/
theorem loadedMetric_fileName (h : Recoverable metric) : loadedMetric (fileName metric) = some metric := by
  rw [loadedMetric, stemAndExtension_fileName h.ne_empty]
  dsimp only
  rw [if_pos rfl, replaceChar_replaceChar h.underscore_notMem]

theorem recoverable_of_loaded {name : String} (hname : '/' ∉ name.toList)
    (h : loadedMetric name = some metric) : Recoverable metric := by
  obtain ⟨before, after, hsplit, hne, hmetric⟩ : ∃ before after,
      rsplitAtDot name.toList = some (before, after) ∧ before ≠ [] ∧
      metric = replaceChar '_' '.' (String.ofList before) := by
    rw [loadedMetric, stemAndExtension] at h
    split at h
    · rename_i c before after hsplit
      dsimp only at h
      split at h
      · exact ⟨c :: before, after, hsplit, List.cons_ne_nil _ _, (some.inj h).symm⟩
      · exact absurd h (by simp)
    · exact absurd h (by simp)
  have hchars : metric.toList = before.map fun c => if c = '_' then '.' else c := by
    rw [hmetric, toList_replaceChar, String.toList_ofList]
  refine ⟨?_, ?_, ?_⟩
  · rintro rfl
    exact hne (List.map_eq_nil_iff.1 hchars.symm)
  · rw [hchars]
    intro hmem
    obtain ⟨c, -, heq⟩ := List.mem_map.1 hmem
    split at heq
    · exact absurd heq (by decide)
    · rename_i hc
      exact hc heq
  · rw [hchars]
    intro hmem
    obtain ⟨c, hc, heq⟩ := List.mem_map.1 hmem
    split at heq
    · exact absurd heq (by decide)
    · refine hname ?_
      rw [rsplitAtDot_sound hsplit, ← heq]
      exact List.mem_append_left _ hc

/-! ### The files of a run -/

variable {codec : BitCodec}

/-- Every metric that has chunks has a recoverable name. -/
def AllRecoverable (db : Tsdb codec) : Prop := ∀ m, (db.chunks.get m).isSome → Recoverable m

/-- The files hold the chunks of the metrics. `dirty` is a metric whose chunks have not been written yet. -/
structure FilesInv (fs : FileSystem) (dirty : Option String) (db : Tsdb codec) : Prop where
  nonempty : ∀ m cs, db.chunks.get m = some cs → cs ≠ [] ∧ ∀ c ∈ cs, c.count ≠ 0
  origin : ∀ e cs, db.files.get e = some cs →
    ∃ m, (db.chunks.get m).isSome ∧ fs.entry (fileName m) = some e
  current : AllRecoverable db → ∀ m cs, some m ≠ dirty → db.chunks.get m = some cs →
    db.files.get (fileName m) = some cs

variable {fs : FileSystem} {db : Tsdb codec}

theorem FilesInv.pushChunk (h : FilesInv fs none db) (metric : String) (points : List DataPoint) :
    FilesInv fs (some metric) (db.pushChunk metric points) := by
  cases points with
  | nil => exact ⟨h.nonempty, h.origin, fun hall m cs _ hm => h.current hall m cs (by simp) hm⟩
  | cons first rest =>
    have hget : ∀ m, (db.pushChunk metric (first :: rest)).chunks.get m =
        if m = metric then some ((db.chunks.get metric).getD [] ++
          [Chunk.compress codec first rest]) else db.chunks.get m := fun m =>
      get_insert _ _ _ _
    have hkept : ∀ m, (db.chunks.get m).isSome →
        ((db.pushChunk metric (first :: rest)).chunks.get m).isSome := by
      intro m hm
      rw [hget]
      split
      · rfl
      · exact hm
    refine ⟨?_, ?_, ?_⟩
    · intro m cs hcs
      rw [hget] at hcs
      split at hcs
      · obtain rfl := some.inj hcs
        refine ⟨List.append_ne_nil_of_right_ne_nil _ (List.cons_ne_nil _ _), fun c hc => ?_⟩
        rcases List.mem_append.1 hc with hc | hc
        · cases hold : db.chunks.get metric with
          | none =>
            rw [hold] at hc
            exact absurd hc List.not_mem_nil
          | some cs =>
            rw [hold] at hc
            exact (h.nonempty metric cs hold).2 c hc
        · rw [List.mem_singleton.1 hc]
          exact Nat.succ_ne_zero _
      · exact h.nonempty m cs hcs
    · intro e cs hcs
      obtain ⟨m, hm, he⟩ := h.origin e cs hcs
      exact ⟨m, hkept m hm, he⟩
    · intro hall m cs hclean hcs
      have hne : m ≠ metric := fun heq => hclean (heq ▸ rfl)
      rw [hget, if_neg hne] at hcs
      exact h.current (fun m hm => hall m (hkept m hm)) m cs (by simp) hcs

theorem FilesInv.flushMetric (h : FilesInv fs (some metric) db) (hok : (db.flushMetric fs metric).2 = true) :
    FilesInv fs none (db.flushMetric fs metric).1 := by
  have hchunks := Tsdb.chunks_flushMetric fs db metric
  rw [Tsdb.flushMetric] at hok hchunks ⊢
  cases hget : db.chunks.get metric with
  | none =>
    refine ⟨h.nonempty, h.origin, fun hall m cs _ hcs => h.current hall m cs ?_ hcs⟩
    rintro heq
    rw [some.inj heq, hget] at hcs
    exact absurd hcs (by simp)
  | some chunks =>
    rw [hget] at hok hchunks
    dsimp only at hok hchunks ⊢
    split at hok
    · rename_i haccepts
      rw [if_pos haccepts] at hchunks ⊢
      cases hentry : fs.entry (fileName metric) with
      | none =>
        refine ⟨h.nonempty, h.origin, fun hall m cs _ hcs => h.current hall m cs ?_ hcs⟩
        rintro heq
        have hrecoverable := hall m (hcs ▸ rfl)
        rw [some.inj heq] at hrecoverable
        have hself := fs.entry_self _ (slash_notMem_fileName hrecoverable.slash_notMem)
        rw [hentry] at hself
        exact absurd hself (by simp)
      | some e =>
        refine ⟨h.nonempty, ?_, ?_⟩
        · intro e' cs hcs
          rw [get_insert] at hcs
          split at hcs
          · rename_i heq
            exact ⟨metric, hget ▸ rfl, heq ▸ hentry⟩
          · exact h.origin e' cs hcs
        · intro hall m cs _ hcs
          have hself : ∀ m cs, db.chunks.get m = some cs →
              fs.entry (fileName m) = some (fileName m) := fun m cs hm =>
            fs.entry_self _ (slash_notMem_fileName (hall m (hm ▸ rfl)).slash_notMem)
          have he : e = fileName metric :=
            some.inj (hentry.symm.trans (hself metric chunks hget))
          rw [get_insert, he]
          by_cases hm : m = metric
          · subst hm
            rw [if_pos rfl]
            exact hget.symm.trans hcs
          · have hne : fileName m ≠ fileName metric := by
              intro heq
              have hload := loadedMetric_fileName (hall m (hcs ▸ rfl))
              rw [heq, loadedMetric_fileName (hall metric (hget ▸ rfl))] at hload
              exact hm (some.inj hload).symm
            rw [if_neg hne]
            exact h.current hall m cs (fun heq => hm (some.inj heq)) hcs
    · exact absurd hok (by simp)

/-- The call returned `Ok`. -/
def Accepted (fs : FileSystem) (s : Run codec) (op : Op) : Prop := (s.call fs op).2 = true

instance (s : Run codec) (op : Op) : Decidable (Accepted fs s op) :=
  inferInstanceAs (Decidable (_ = true))

theorem filesInv_of_reached {s : Run codec}
    (hs : ReachableIf (Run.step fs) (Accepted fs) (Run.init codec) s) : FilesInv fs none s.db := by
  refine ReachableIf.invariant (I := fun s : Run codec => FilesInv fs none s.db) ?_ ?_ hs
  · have hnone : ∀ m, (Run.init codec).db.chunks.get m = none := fun _ => rfl
    refine ⟨fun m cs h => ?_, fun e cs h => ?_, fun _ m cs _ h => ?_⟩
    · exact absurd ((hnone m).symm.trans h) (by simp)
    · exact absurd h (Option.some_ne_none cs).symm
    · exact absurd ((hnone m).symm.trans h) (by simp)
  · intro s op t _ ih hok hstep
    cases op with
    | flush metric =>
      obtain rfl := some.inj hstep
      exact (ih.pushChunk metric _).flushMetric hok
    | insert metric point =>
      obtain rfl := some.inj hstep
      have hbuffers : ∀ b, FilesInv fs none { s.db with buffers := b } := fun b =>
        ⟨ih.nonempty, ih.origin, ih.current⟩
      have hok' : (s.db.insert fs metric point).2 = true := hok
      show FilesInv fs none (s.db.insert fs metric point).1
      rw [Tsdb.insert] at hok' ⊢
      split at hok'
      · rename_i hfull
        rw [if_pos hfull]
        exact ((hbuffers _).pushChunk metric _).flushMetric hok'
      · rename_i hfull
        rw [if_neg hfull]
        exact hbuffers _

/-! ### The exact condition -/

/-- The store that is opened on the files of another one. -/
def Tsdb.reopen (db : Tsdb codec) : Tsdb codec := Tsdb.openDir db.files

/-- The reopened store answers every query for every metric as before. -/
def Preserved (db : Tsdb codec) : Prop :=
  ∀ metric, (∀ startTs endTs, db.reopen.query metric startTs endTs = db.query metric startTs endTs) ∧
    db.reopen.last metric = db.last metric

theorem mem_loaded {cs : List (Chunk codec)} : (metric, cs) ∈ (db.files.entries.filterMap fun f =>
        (loadedMetric f.1).map fun metric => (metric, f.2)) ↔
      ∃ name, db.files.get name = some cs ∧ loadedMetric name = some metric := by
  rw [List.mem_filterMap]
  constructor
  · rintro ⟨⟨name, content⟩, hfile, hload⟩
    obtain ⟨m, hm, heq⟩ := Option.map_eq_some_iff.1 hload
    obtain ⟨rfl, rfl⟩ := mk.inj heq
    exact ⟨name, mem_entries_iff.1 hfile, hm⟩
  · rintro ⟨name, hfile, hload⟩
    exact ⟨(name, cs), mem_entries_iff.2 hfile, by rw [hload]; rfl⟩

theorem FilesInv.loaded_recoverable (h : FilesInv fs none db) {name : String}
    {cs : List (Chunk codec)} (hfile : db.files.get name = some cs)
    (hload : loadedMetric name = some metric) : Recoverable metric := by
  obtain ⟨m, -, hentry⟩ := h.origin name cs hfile
  exact recoverable_of_loaded (fs.slash_notMem _ _ hentry) hload

theorem FilesInv.reopen_chunks (h : FilesInv fs none db) (hall : AllRecoverable db) (metric : String) :
    db.reopen.chunks.get metric = db.chunks.get metric := by
  have hfrom : ∀ cs, (∃ name, db.files.get name = some cs ∧ loadedMetric name = some metric) →
      db.chunks.get metric = some cs := by
    rintro cs ⟨name, hfile, hload⟩
    obtain ⟨m, hm, hentry⟩ := h.origin name cs hfile
    have hself := fs.entry_self _ (slash_notMem_fileName (hall m hm).slash_notMem)
    obtain rfl : fileName m = name := some.inj (hself.symm.trans hentry)
    obtain rfl : m = metric := some.inj ((loadedMetric_fileName (hall m hm)).symm.trans hload)
    obtain ⟨cs', hcs'⟩ := isSome_iff_exists.1 hm
    rw [h.current hall m cs' (by simp) hcs', some.injEq] at hfile
    rw [hcs', hfile]
  cases hget : db.chunks.get metric with
  | none =>
    refine get_insertAll_of_ne _ ?_
    rintro ⟨m, cs⟩ hmem rfl
    have hcs := hfrom cs (mem_loaded.1 hmem)
    rw [hget] at hcs
    exact absurd hcs (by simp)
  | some cs =>
    refine get_insertAll_of_mem _ (mem_loaded.2 ⟨fileName metric,
      h.current hall metric cs (by simp) hget, loadedMetric_fileName (hall metric (hget ▸ rfl))⟩) ?_
    intro cs' hmem
    have hcs := hfrom cs' (mem_loaded.1 hmem)
    exact (some.inj (hget.symm.trans hcs)).symm

/-- **When reopening preserves the store.** -/
theorem reopen_preserves_iff {s : Run codec}
    (hs : ReachableIf (Run.step fs) (Accepted fs) (Run.init codec) s)
    (hbuf : ∀ metric, s.db.buffer metric = []) :
    Preserved s.db ↔ ∀ metric, (s.db.chunks.get metric).isSome →
      metric ≠ "" ∧ '_' ∉ metric.toList ∧ '/' ∉ metric.toList := by
  have hinv := filesInv_of_reached hs
  have hrecoverable : (∀ metric, (s.db.chunks.get metric).isSome →
      metric ≠ "" ∧ '_' ∉ metric.toList ∧ '/' ∉ metric.toList) ↔ AllRecoverable s.db :=
    forall₂_congr fun _ _ => ⟨fun h => ⟨h.1, h.2.1, h.2.2⟩, fun h => ⟨h.1, h.2, h.3⟩⟩
  rw [hrecoverable]
  constructor
  · intro hpreserved metric hsome
    obtain ⟨cs, hcs⟩ := isSome_iff_exists.1 hsome
    obtain ⟨hne, hcounts⟩ := hinv.nonempty metric cs hcs
    have hlast : ∃ p, s.db.last metric = some p := by
      have hdecompress := Chunk.decompress_ne_nil (hcounts _ (List.getLast_mem hne))
      refine ⟨(cs.getLast hne).decompress.getLast hdecompress, ?_⟩
      rw [Tsdb.last, hbuf metric, Tsdb.chunksOf, hcs, Option.getD_some, List.getLast?_nil,
        List.getLast?_eq_some_getLast hne]
      exact List.getLast?_eq_some_getLast hdecompress
    by_contra hlost
    -- no file is read for the metric
    have hnone : s.db.reopen.chunks.get metric = none := by
      refine get_insertAll_of_ne _ ?_
      rintro ⟨m, cs⟩ hmem rfl
      obtain ⟨name, hfile, hload⟩ := mem_loaded.1 hmem
      exact hlost (hinv.loaded_recoverable hfile hload)
    have hreopened : s.db.reopen.last metric = none := by
      rw [Tsdb.last, Tsdb.chunksOf, hnone]
      rfl
    obtain ⟨p, hp⟩ := hlast
    rw [← (hpreserved metric).2, hreopened] at hp
    exact absurd hp (by simp)
  · intro hall metric
    have hchunks : s.db.reopen.chunksOf metric = s.db.chunksOf metric := by
      rw [Tsdb.chunksOf, hinv.reopen_chunks hall]
      rfl
    have hbuffer : s.db.reopen.buffer metric = s.db.buffer metric := (hbuf metric).symm ▸ rfl
    refine ⟨fun startTs endTs => ?_, ?_⟩
    · rw [Tsdb.query, Tsdb.query, hchunks, hbuffer]
    · rw [Tsdb.last, Tsdb.last, hchunks, hbuffer]

/-- Two metrics whose names come back. -/
theorem reopen_preserves_run :
    ∃ s, ReachableIf (Run.step plainFiles) (Accepted plainFiles) (Run.init plainCodec) s ∧
      s.db.last "cpu.load" = some ⟨7, 1⟩ ∧ Preserved s.db := by
  have hrun : (execIf (Run.step plainFiles) (fun s op => decide (Accepted plainFiles s op))
      (Run.init plainCodec) [.insert "cpu.load" ⟨7, 1⟩, .insert "mem" ⟨8, 2⟩, .flush "cpu.load",
        .flush "mem"]).map (fun s => decide (s.db.last "cpu.load" = some ⟨7, 1⟩ ∧
          s.db.buffers.entries = [("cpu.load", []), ("mem", [])] ∧
          s.db.chunks.entries.map fst = ["cpu.load", "mem"])) = some true := by
    rfl
  obtain ⟨s, hs, hfacts⟩ := Option.map_eq_some_iff.1 hrun
  obtain ⟨hlast, hbuffers, hchunks⟩ := of_decide_eq_true hfacts
  have hreach := ReachableIf.init.execIf (fun _ _ => of_decide_eq_true) hs
  have hempty : ∀ metric, s.db.buffer metric = [] := by
    intro metric
    rw [Tsdb.buffer]
    cases hget : s.db.buffers.get metric with
    | none => rfl
    | some buf =>
      have hmem := mem_entries_iff.2 hget
      rw [hbuffers] at hmem
      rcases List.mem_cons.1 hmem with heq | hmem
      · exact (mk.inj heq).2
      · exact (mk.inj (List.mem_singleton.1 hmem)).2
  refine ⟨s, hreach, hlast, (reopen_preserves_iff hreach hempty).2 fun metric hsome => ?_⟩
  obtain ⟨cs, hcs⟩ := isSome_iff_exists.1 hsome
  have hmem : metric ∈ s.db.chunks.entries.map fst :=
    List.mem_map.2 ⟨(metric, cs), mem_entries_iff.2 hcs, rfl⟩
  rw [hchunks] at hmem
  rcases List.mem_cons.1 hmem with rfl | hmem
  · decide
  · rw [List.mem_singleton.1 hmem]
    decide

/-- A metric with `_` in its name is gone after reopening, and its point is found under another name. -/
theorem underscore_renamed :
    (execIf (Run.step plainFiles) (fun s op => decide (Accepted plainFiles s op)) (Run.init plainCodec)
      [.insert "cpu_load" ⟨7, 1⟩, .flush "cpu_load"]).map (fun s => decide
        (s.db.last "cpu_load" = some ⟨7, 1⟩ ∧ s.db.reopen.last "cpu_load" = none ∧
          s.db.last "cpu.load" = none ∧ s.db.reopen.last "cpu.load" = some ⟨7, 1⟩)) = some true := by
  rfl

end SystemDesignLabs.Timeseries
