import SystemDesignLabs.Timeseries.Store

/-!
# When a query is complete

With lossless chunks the store holds every inserted point, in a chunk or in the buffer (`stored_eq_points`). A query
returns points of the range with increasing timestamps, and it misses a timestamp exactly when all points with it are in
chunks that are passed over (`query_exact_iff`): the estimated end of a chunk is extrapolated from its first two points,
and the first chunk that starts after the range ends the walk.
-/

namespace SystemDesignLabs.Timeseries

open List Option Core

variable {codec : BitCodec}

namespace Tsdb

/-! ### What the store holds -/

/-- All points of a metric. -/
def stored (db : Tsdb codec) (metric : String) : List DataPoint :=
  (db.chunksOf metric).flatMap Chunk.decompress ++ db.buffer metric

theorem buffer_flushMetric (fs : FileSystem) (db : Tsdb codec) (metric m : String) :
    (db.flushMetric fs metric).1.buffer m = db.buffer m := by
  rw [flushMetric]
  split
  · rfl
  · split
    · split <;> rfl
    · rfl

theorem chunks_flushMetric (fs : FileSystem) (db : Tsdb codec) (metric : String) :
    (db.flushMetric fs metric).1.chunks = db.chunks := by
  rw [flushMetric]
  split
  · rfl
  · split
    · split <;> rfl
    · rfl

theorem stored_flushMetric (fs : FileSystem) (db : Tsdb codec) (metric m : String) :
    (db.flushMetric fs metric).1.stored m = db.stored m := by
  rw [stored, stored, buffer_flushMetric, chunksOf, chunks_flushMetric]
  rfl

theorem stored_pushChunk (db : Tsdb codec) (metric : String) (h : ∀ first rest, db.buffer metric = first :: rest →
      (Chunk.compress codec first rest).decompress = first :: rest) (m : String) :
    (db.pushChunk metric (db.buffer metric)).stored m = db.stored m := by
  cases hbuf : db.buffer metric with
  | nil => rfl
  | cons first rest =>
    rw [stored, stored, pushChunk, chunksOf, buffer]
    dsimp only
    rw [SortedMap.get_insert, SortedMap.get_insert]
    split
    · rename_i hm
      subst hm
      rw [getD_some, getD_some, append_nil, flatMap_append, flatMap_singleton, h first rest hbuf, hbuf]
      rfl
    · rfl

theorem buffer_setBuffer (db : Tsdb codec) (metric : String) (buf : List DataPoint) (m : String) :
    Tsdb.buffer { db with buffers := db.buffers.insert metric buf } m = if m = metric then buf else db.buffer m := by
  show ((db.buffers.insert metric buf).get m).getD [] = _
  rw [SortedMap.get_insert]
  split
  · rfl
  · rfl

theorem stored_setBuffer (db : Tsdb codec) (metric : String) (point : DataPoint) (m : String) :
    Tsdb.stored { db with buffers := db.buffers.insert metric (db.buffer metric ++ [point]) } m =
      db.stored m ++ if metric = m then [point] else [] := by
  rw [stored, stored, buffer_setBuffer]
  split
  · rename_i hm
    subst hm
    rw [if_pos rfl, append_assoc]
    rfl
  · rename_i hm
    rw [if_neg (Ne.symm hm), append_nil]
    rfl

/-! ### The chunks that a query reads -/

/-- The chunks that `query` decompresses: those whose estimated end is not before the range, up to the first of them that
starts after it. -/
def readChunks (startTs endTs : Int64) : List (Chunk codec) → List (Chunk codec)
  | [] => []
  | c :: cs =>
    if c.estimatedEnd < startTs then readChunks startTs endTs cs
    else if endTs < c.firstTs then []
    else c :: readChunks startTs endTs cs

theorem readChunks_subset (startTs endTs : Int64) (cs : List (Chunk codec)) : readChunks startTs endTs cs ⊆ cs := by
  induction cs with
  | nil => exact Subset.refl _
  | cons c cs ih =>
    rw [readChunks]
    split
    · exact subset_cons_of_subset c ih
    · split
      · exact nil_subset _
      · exact cons_subset_cons c ih

variable {startTs endTs : Int64} {p : DataPoint}

theorem mem_scanChunks {cs : List (Chunk codec)} : p ∈ scanChunks startTs endTs cs ↔
      InRange startTs endTs p ∧ ∃ c ∈ readChunks startTs endTs cs, p ∈ c.decompress := by
  induction cs with
  | nil => exact ⟨fun h => absurd h not_mem_nil, fun ⟨_, c, hc, _⟩ => absurd hc not_mem_nil⟩
  | cons c cs ih =>
    rw [scanChunks, readChunks]
    split
    · exact ih
    · split
      · exact ⟨fun h => absurd h not_mem_nil, fun ⟨_, c, hc, _⟩ => absurd hc not_mem_nil⟩
      · rw [mem_append, mem_filter, decide_eq_true_eq, ih]
        constructor
        · rintro (⟨hp, hrange⟩ | ⟨hrange, c', hc', hp⟩)
          · exact ⟨hrange, c, mem_cons_self, hp⟩
          · exact ⟨hrange, c', mem_cons_of_mem c hc', hp⟩
        · rintro ⟨hrange, c', hc', hp⟩
          rcases mem_cons.1 hc' with rfl | hc'
          · exact Or.inl ⟨hp, hrange⟩
          · exact Or.inr ⟨hrange, c', hc', hp⟩

/-- The point is in a chunk that the query reads, or in the buffer. -/
def Reads (db : Tsdb codec) (metric : String) (startTs endTs : Int64) (p : DataPoint) : Prop :=
  (∃ c ∈ readChunks startTs endTs (db.chunksOf metric), p ∈ c.decompress) ∨ p ∈ db.buffer metric

/-- Each timestamp of the range that a chunk has is the timestamp of a point that the query reads. -/
def NothingPassedOver (db : Tsdb codec) (metric : String) (startTs endTs : Int64) : Prop :=
  ∀ c ∈ db.chunksOf metric, ∀ p ∈ c.decompress, InRange startTs endTs p →
    ∃ q, db.Reads metric startTs endTs q ∧ q.timestamp = p.timestamp

theorem mem_query_imp {db : Tsdb codec} {metric : String} (h : p ∈ db.query metric startTs endTs) :
    InRange startTs endTs p ∧ db.Reads metric startTs endTs p := by
  rw [query] at h
  have hmem := (mem_sortByKey _).1 (mem_of_mem_dedupByKey _ h)
  rcases mem_append.1 hmem with hscan | hbuf
  · obtain ⟨hrange, hread⟩ := mem_scanChunks.1 hscan
    exact ⟨hrange, Or.inl hread⟩
  · obtain ⟨hbuf, hrange⟩ := mem_filter.1 hbuf
    exact ⟨of_decide_eq_true hrange, Or.inr hbuf⟩

theorem exists_mem_query {db : Tsdb codec} {metric : String} (hread : db.Reads metric startTs endTs p)
    (hrange : InRange startTs endTs p) : ∃ q ∈ db.query metric startTs endTs, q.timestamp = p.timestamp := by
  have hmem : p ∈ scanChunks startTs endTs (db.chunksOf metric) ++
      (db.buffer metric).filter (InRange startTs endTs) := by
    rcases hread with hchunk | hbuf
    · exact mem_append_left _ (mem_scanChunks.2 ⟨hrange, hchunk⟩)
    · exact mem_append_right _ (mem_filter.2 ⟨hbuf, decide_eq_true hrange⟩)
  obtain ⟨q, hq, hkey⟩ := exists_mem_dedupByKey (fun p : DataPoint => p.timestamp.toInt)
    ((mem_sortByKey fun p : DataPoint => p.timestamp.toInt).2 hmem)
  exact ⟨q, hq, Int64.toInt_inj.1 hkey⟩

end Tsdb

/-! ### Runs with lossless chunks -/

/-- The chunk that the call makes, if any, gives back its points. -/
def Lossless (s : Run codec) (op : Op) : Prop :=
  ∀ first rest, s.batch op = first :: rest →
    (Chunk.compress codec first rest).decompress = first :: rest

theorem Run.points_insert (s : Run codec) (db : Tsdb codec) (metric : String) (point : DataPoint)
    (m : String) : Run.points ⟨db, s.inserted ++ [(metric, point)]⟩ m =
      s.points m ++ if metric = m then [point] else [] := by
  rw [points, points, filter_append, map_append]
  congr 1
  by_cases hm : metric = m
  · simp [hm]
  · simp [hm]

/-- The store holds what was inserted. -/
theorem stored_eq_points {fs : FileSystem} {s : Run codec}
    (hs : ReachableIf (Run.step fs) Lossless (Run.init codec) s) (m : String) : s.db.stored m = s.points m := by
  have hinv : ∀ m, s.db.stored m = s.points m := by
    refine ReachableIf.invariant (I := fun s : Run codec => ∀ m, s.db.stored m = s.points m)
      (fun _ => rfl) ?_ hs
    intro s op t _ ih hlossless hstep m
    cases op with
    | flush metric =>
      obtain rfl := some.inj hstep
      show (s.db.flush fs metric).1.stored m = s.points m
      rw [Tsdb.flush, Tsdb.stored_flushMetric, Tsdb.stored_pushChunk _ _ hlossless, ih]
    | insert metric point =>
      obtain rfl := some.inj hstep
      rw [Run.points_insert, ← ih, ← Tsdb.stored_setBuffer]
      show (s.db.insert fs metric point).1.stored m = _
      rw [Tsdb.insert]
      split
      · rename_i hfull
        have hbuffer := Tsdb.buffer_setBuffer s.db metric (s.db.buffer metric ++ [point]) metric
        rw [if_pos rfl] at hbuffer
        have hpush := Tsdb.stored_pushChunk { s.db with
          buffers := s.db.buffers.insert metric (s.db.buffer metric ++ [point]) } metric
            (by
              intro first rest heq
              rw [hbuffer] at heq
              exact hlossless first rest ((if_pos hfull).trans heq)) m
        rw [hbuffer] at hpush
        rw [Tsdb.stored_flushMetric, hpush]
      · rfl
  exact hinv m

/-! ### The exact condition -/

/-- The points with a timestamp of the range, one for each timestamp, in increasing order. -/
structure ExactAnswer (points : List DataPoint) (startTs endTs : Int64) (result : List DataPoint) :
    Prop where
  increasing : result.Pairwise fun p q => p.timestamp < q.timestamp
  sound : ∀ p ∈ result, p ∈ points ∧ startTs ≤ p.timestamp ∧ p.timestamp ≤ endTs
  complete : ∀ p ∈ points, startTs ≤ p.timestamp → p.timestamp ≤ endTs →
    ∃ q ∈ result, q.timestamp = p.timestamp

/-- **When a query is complete and exact.** -/
theorem query_exact_iff {fs : FileSystem} {s : Run codec}
    (hs : ReachableIf (Run.step fs) Lossless (Run.init codec) s) (metric : String)
    (startTs endTs : Int64) :
    ExactAnswer (s.points metric) startTs endTs (s.db.query metric startTs endTs) ↔
      s.db.NothingPassedOver metric startTs endTs := by
  have hstored := stored_eq_points hs metric
  constructor
  · intro hexact c hc p hp hrange
    have hpoint : p ∈ s.points metric := by
      rw [← hstored]
      exact mem_append_left _ (mem_flatMap.2 ⟨c, hc, hp⟩)
    obtain ⟨q, hq, hts⟩ := hexact.complete p hpoint hrange.1 hrange.2
    exact ⟨q, (Tsdb.mem_query_imp hq).2, hts⟩
  · intro hcover
    refine ⟨?_, ?_, ?_⟩
    · have hincreasing := pairwise_dedupByKey (fun p : DataPoint => p.timestamp.toInt)
        (pairwise_sortByKey (fun p : DataPoint => p.timestamp.toInt) (Tsdb.scanChunks startTs endTs (s.db.chunksOf
          metric) ++ (s.db.buffer metric).filter (Tsdb.InRange startTs endTs)))
      exact hincreasing.imp fun h => Int64.lt_iff_toInt_lt.2 h
    · intro p hp
      obtain ⟨hrange, hread⟩ := Tsdb.mem_query_imp hp
      refine ⟨?_, hrange⟩
      rw [← hstored]
      rcases hread with ⟨c, hc, hp⟩ | hbuf
      · exact mem_append_left _
          (mem_flatMap.2 ⟨c, Tsdb.readChunks_subset _ _ _ hc, hp⟩)
      · exact mem_append_right _ hbuf
    · intro p hp hstart hend
      rw [← hstored] at hp
      rcases mem_append.1 hp with hchunk | hbuf
      · obtain ⟨c, hc, hp⟩ := mem_flatMap.1 hchunk
        obtain ⟨q, hread, hts⟩ := hcover c hc p hp ⟨hstart, hend⟩
        have hrange : Tsdb.InRange startTs endTs q := ⟨hts.symm ▸ hstart, hts.symm ▸ hend⟩
        obtain ⟨r, hr, hts'⟩ := Tsdb.exists_mem_query hread hrange
        exact ⟨r, hr, hts'.trans hts⟩
      · exact Tsdb.exists_mem_query (Or.inr hbuf) ⟨hstart, hend⟩

/-! ### Concrete runs -/

/-- A codec that keeps the points. -/
def plainCodec : BitCodec where
  Bits := List DataPoint
  encode := id
  decode := fun _ _ n points => (points.drop 1).take n

/-- A file system that writes every file without `/` in its name. -/
def plainFiles : FileSystem where
  accepts := fun name => decide ('/' ∉ name.toList)
  entry := fun name => if '/' ∈ name.toList then none else some name
  entry_self := fun _ h => if_neg h
  slash_notMem := by
    intro name e h
    split at h
    · exact absurd h (by simp)
    · rename_i hname
      exact Option.some.inj h ▸ hname

theorem lossless_plainCodec (s : Run plainCodec) (op : Op) : Lossless s op := by
  intro first rest _
  unfold Chunk.decompress Chunk.compress
  rw [if_neg (Nat.succ_ne_zero _)]
  dsimp only
  split
  · rename_i hlen
    rw [eq_nil_of_length_eq_zero (Nat.succ.inj hlen)]
  · exact congrArg (first :: ·) (take_length ..)

theorem Run.exists_of_exec (ops : List Op) (facts : Run plainCodec → Prop) [DecidablePred facts]
    (h : (exec (Run.step plainFiles) (Run.init plainCodec) ops).map (fun s => decide (facts s)) = some true) :
    ∃ s, ReachableIf (Run.step plainFiles) Lossless (Run.init plainCodec) s ∧ facts s := by
  obtain ⟨s, hs, hfacts⟩ := map_eq_some_iff.1 h
  exact ⟨s, (reachable_of_exec hs).mono fun s op _ => lossless_plainCodec s op, of_decide_eq_true hfacts⟩

/-- Three points at irregular times in one chunk, of which the estimate leaves out the last; and two chunks in the wrong
order, of which the first hides the second. -/
theorem query_omits :
    (∃ s, ReachableIf (Run.step plainFiles) Lossless (Run.init plainCodec) s ∧
      s.points "m" = [⟨0, 1⟩, ⟨1, 2⟩, ⟨100, 3⟩] ∧ s.db.query "m" 50 200 = []) ∧
    ∃ s, ReachableIf (Run.step plainFiles) Lossless (Run.init plainCodec) s ∧
      s.points "m" = [⟨1000, 1⟩, ⟨5, 2⟩] ∧ s.db.query "m" 0 10 = [] := by
  constructor
  · apply Run.exists_of_exec
      [.insert "m" ⟨0, 1⟩, .insert "m" ⟨1, 2⟩, .insert "m" ⟨100, 3⟩, .flush "m"]
    rfl
  · apply Run.exists_of_exec
      [.insert "m" ⟨1000, 1⟩, .flush "m", .insert "m" ⟨5, 2⟩, .flush "m"]
    rfl

/-- Regular points in a chunk and one in the buffer: a range that covers all of them is answered exactly. -/
theorem query_exact_run :
    ∃ s, ReachableIf (Run.step plainFiles) Lossless (Run.init plainCodec) s ∧
      s.points "m" = [⟨0, 1⟩, ⟨10, 2⟩, ⟨20, 3⟩] ∧
      ExactAnswer (s.points "m") 5 25 (s.db.query "m" 5 25) := by
  obtain ⟨s, hs, hpoints, hread, hbuf⟩ := Run.exists_of_exec
    [.insert "m" ⟨0, 1⟩, .insert "m" ⟨10, 2⟩, .flush "m", .insert "m" ⟨20, 3⟩]
    (fun s => s.points "m" = [⟨0, 1⟩, ⟨10, 2⟩, ⟨20, 3⟩] ∧
      (Tsdb.readChunks 5 25 (s.db.chunksOf "m")).map Chunk.decompress = [[⟨0, 1⟩, ⟨10, 2⟩]] ∧
      (s.db.chunksOf "m").map Chunk.decompress = [[⟨0, 1⟩, ⟨10, 2⟩]])
    (by rfl)
  refine ⟨s, hs, hpoints, (query_exact_iff hs "m" 5 25).2 fun c hc p hp _ => ⟨p, Or.inl ?_, rfl⟩⟩
  have hmem : c.decompress ∈ (Tsdb.readChunks 5 25 (s.db.chunksOf "m")).map Chunk.decompress := by
    rw [hread, ← hbuf]
    exact mem_map_of_mem hc
  obtain ⟨c', hc', heq⟩ := mem_map.1 hmem
  exact ⟨c', hc', heq ▸ hp⟩

end SystemDesignLabs.Timeseries
