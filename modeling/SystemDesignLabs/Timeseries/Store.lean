import SystemDesignLabs.Core.SortedLists
import SystemDesignLabs.Core.SortedMap
import SystemDesignLabs.Core.TransitionSystem
import SystemDesignLabs.Timeseries.Chunk

/-!
# The store

A metric has a buffer of points and a list of completed chunks. A full buffer, or one that is flushed, becomes a chunk;
then all chunks of the metric are written to one file, whose name is the name of the metric with every `.` replaced by
`_`. Opening a directory reads the names back the other way.

`query` passes over a chunk whose estimated end is before the range and stops at one that starts after it.
-/

namespace SystemDesignLabs.Timeseries

open Core

/-! ### File names -/

/-- Where the write to `data_dir.join(name)` leads. A name without `/` becomes an entry of the directory; one with `/`
may lie elsewhere. -/
structure FileSystem where
  /-- The write succeeds. -/
  accepts : String → Bool
  /-- The entry of the directory that the file becomes. -/
  entry : String → Option String
  entry_self : ∀ name : String, '/' ∉ name.toList → entry name = some name
  slash_notMem : ∀ name e : String, entry name = some e → '/' ∉ e.toList

/-- `str::replace` of one character. -/
def replaceChar (a b : Char) (s : String) : String :=
  String.ofList (s.toList.map fun c => if c = a then b else c)

/-- The name of the file of a metric. -/
def fileName (metric : String) : String := replaceChar '.' '_' metric ++ ".chunks"

/-- Split a name at its last dot. -/
def rsplitAtDot : List Char → Option (List Char × List Char)
  | [] => none
  | c :: cs => match rsplitAtDot cs with
    | some (before, after) => some (c :: before, after)
    | none => if c = '.' then some ([], cs) else none

/-- The stem and the extension of a file name; a name that begins with its only dot has no extension. -/
def stemAndExtension (name : String) : String × Option String :=
  match rsplitAtDot name.toList with
  | some (c :: before, after) => (String.ofList (c :: before), some (String.ofList after))
  | _ => (name, none)

/-- The metric that an entry of the directory is read for. -/
def loadedMetric (name : String) : Option String :=
  let parts := stemAndExtension name
  if parts.2 = some "chunks" then some (replaceChar '_' '.' parts.1) else none

/-! ### The store -/

structure Tsdb (codec : BitCodec) where
  /-- The files of the data directory; the JSON text of a file stands for the chunks it spells. -/
  files : SortedMap String (List (Chunk codec))
  buffers : SortedMap String (List DataPoint)
  chunks : SortedMap String (List (Chunk codec))

namespace Tsdb

variable {codec : BitCodec}

/-- `Tsdb::open` on a directory. -/
def openDir (files : SortedMap String (List (Chunk codec))) : Tsdb codec where
  files := files
  buffers := .empty
  chunks := SortedMap.empty.insertAll
    (files.entries.filterMap fun f => (loadedMetric f.1).map fun metric => (metric, f.2))

/-- `flush_metric`: write all chunks of the metric. -/
def flushMetric (fs : FileSystem) (db : Tsdb codec) (metric : String) : Tsdb codec × Bool :=
  match db.chunks.get metric with
  | none => (db, true)
  | some chunks =>
    if fs.accepts (fileName metric) then
      match fs.entry (fileName metric) with
      | some e => ({ db with files := db.files.insert e chunks }, true)
      | none => (db, true)
    else (db, false)

/-- Drain the points into a chunk of the metric. -/
def pushChunk (db : Tsdb codec) (metric : String) : List DataPoint → Tsdb codec
  | [] => db
  | first :: rest =>
    { db with
      buffers := db.buffers.insert metric []
      chunks := db.chunks.insert metric
        ((db.chunks.get metric).getD [] ++ [Chunk.compress codec first rest]) }

/-- The buffer of a metric. -/
def buffer (db : Tsdb codec) (metric : String) : List DataPoint := (db.buffers.get metric).getD []

/-- The chunks of a metric. -/
def chunksOf (db : Tsdb codec) (metric : String) : List (Chunk codec) := (db.chunks.get metric).getD []

/-- `insert`: the second component tells whether it returned `Ok`. -/
def insert (fs : FileSystem) (db : Tsdb codec) (metric : String) (point : DataPoint) :
    Tsdb codec × Bool :=
  let buf := db.buffer metric ++ [point]
  let db := { db with buffers := db.buffers.insert metric buf }
  if chunkSize ≤ buf.length then (db.pushChunk metric buf).flushMetric fs metric else (db, true)

def flush (fs : FileSystem) (db : Tsdb codec) (metric : String) : Tsdb codec × Bool :=
  (db.pushChunk metric (db.buffer metric)).flushMetric fs metric

/-! ### Queries -/

/-- The timestamp is in the range, ends included. -/
def InRange (startTs endTs : Int64) (p : DataPoint) : Prop :=
  startTs ≤ p.timestamp ∧ p.timestamp ≤ endTs

instance (startTs endTs : Int64) (p : DataPoint) : Decidable (InRange startTs endTs p) :=
  inferInstanceAs (Decidable (_ ∧ _))

/-- The loop of `query` over the chunks. -/
def scanChunks (startTs endTs : Int64) : List (Chunk codec) → List DataPoint
  | [] => []
  | c :: cs =>
    if c.estimatedEnd < startTs then scanChunks startTs endTs cs
    else if endTs < c.firstTs then []
    else c.decompress.filter (InRange startTs endTs) ++ scanChunks startTs endTs cs

def query (db : Tsdb codec) (metric : String) (startTs endTs : Int64) : List DataPoint :=
  dedupByKey (fun p => p.timestamp.toInt) (sortByKey (fun p => p.timestamp.toInt)
    (scanChunks startTs endTs (db.chunksOf metric) ++
      (db.buffer metric).filter (InRange startTs endTs)))

/-- `last`: the last point of the buffer, else of the last chunk. -/
def last (db : Tsdb codec) (metric : String) : Option DataPoint :=
  match (db.buffer metric).getLast? with
  | some p => some p
  | none => (db.chunksOf metric).getLast?.bind fun c => c.decompress.getLast?

end Tsdb

/-! ### Runs -/

inductive Op where
  | insert (metric : String) (point : DataPoint)
  | flush (metric : String)
  deriving DecidableEq, Repr

/-- A store and the points that were inserted, the oldest first. -/
structure Run (codec : BitCodec) where
  db : Tsdb codec
  inserted : List (String × DataPoint)

variable {codec : BitCodec}

/-- What a call does, and whether it returned `Ok`. -/
def Run.call (fs : FileSystem) (s : Run codec) : Op → Tsdb codec × Bool
  | .insert metric point => s.db.insert fs metric point
  | .flush metric => s.db.flush fs metric

def Run.step (fs : FileSystem) (s : Run codec) (op : Op) : Option (Run codec) :=
  match op with
  | .insert metric point => some ⟨(s.call fs op).1, s.inserted ++ [(metric, point)]⟩
  | .flush _ => some ⟨(s.call fs op).1, s.inserted⟩

/-- A new store on an empty directory. -/
def Run.init (codec : BitCodec) : Run codec := ⟨Tsdb.openDir .empty, []⟩

/-- The points inserted for a metric. -/
def Run.points (s : Run codec) (metric : String) : List DataPoint :=
  (s.inserted.filter fun q => q.1 = metric).map Prod.snd

/-- The points that the call makes a chunk of. -/
def Run.batch (s : Run codec) : Op → List DataPoint
  | .insert metric point =>
    if chunkSize ≤ (s.db.buffer metric ++ [point]).length then s.db.buffer metric ++ [point] else []
  | .flush metric => s.db.buffer metric

end SystemDesignLabs.Timeseries
