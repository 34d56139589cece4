import SystemDesignLabs.LsmKv.Table
import SystemDesignLabs.Core.TransitionSystem

/-!
# The LSM store

`Lsm` of `labs/lsm-kv/src/v2.rs`: the memtable, the tables of the two levels, newest first, and the
directory they live in. The directory maps file names to files; the names carry level and sequence
number, and `openDir` rebuilds the levels from them. The thresholds and the hash are parameters, so
that a run may flush and compact at any size.

A function that returns an `io::Result` returns an `Option`. `none` stands for an error of the file
system (a missing file, a file whose length does not fit in 64 bits) and for the overflow of the
sequence number; `memtable_bytes` is a natural number.
-/

namespace SystemDesignLabs.LsmKv

open List Core

/-! ## File names -/

abbrev Name := List Char

/-- The level of a table. -/
inductive Level where
  | l0
  | l1
  deriving DecidableEq

/-- The front of the names of a level. -/
def Level.tag : Level → Name
  | .l0 => ['l', '0', '_']
  | .l1 => ['l', '1', '_']

/-- `{:09}`: decimal, padded with zeros to nine digits. -/
def formatSeq (n : Nat) : Name :=
  let digits := (Nat.digits 10 n).reverse.map Nat.digitChar
  List.replicate (9 - digits.length) '0' ++ digits

def sst : Name := ['s', 's', 't']

/-- The file name of a table. -/
def tableName (level : Level) (seq : Nat) : Name := level.tag ++ formatSeq seq ++ '.' :: sst

/-- `file_stem` and `extension`. -/
def splitName (name : Name) : Name × Option Name :=
  let after := (name.reverse.takeWhile (· ≠ '.')).reverse
  let before := (name.reverse.dropWhile (· ≠ '.')).reverse.dropLast
  if '.' ∉ name ∨ before = [] ∨ name = ['.', '.'] then (name, none) else (before, some after)

/-- `parse::<u64>`. -/
def parseU64 (s : Name) : Option Nat :=
  let digits := if s.head? = some '+' then s.tail else s
  if digits ≠ [] ∧ digits.all Char.isDigit then
    let n := digits.foldl (fun n c => 10 * n + (c.toNat - 48)) 0
    if n < 2 ^ 64 then some n else none
  else none

/-- The level and the sequence number in a file name; other names are legacy files of level 0. -/
def levelSeq : Name → Level × Nat
  | 'l' :: '0' :: '_' :: rest => (.l0, (parseU64 rest).getD 0)
  | 'l' :: '1' :: '_' :: rest => (.l1, (parseU64 rest).getD 0)
  | stem => (.l0, (parseU64 stem).getD 0)

/-! ## Files -/

/-- A file. -/
structure File where
  bytes : Bytes
  length_lt : bytes.length < 2 ^ 64

/-- A directory. -/
abbrev Files := SortedMap Name File

/-- Create a file, replacing a file of the same name. -/
def createFile (files : Files) (name : Name) (bytes : Bytes) : Option Files :=
  if h : bytes.length < 2 ^ 64 then some (files.insert name ⟨bytes, h⟩) else none

/-- Checked addition of 1 to a `u64`. -/
def succU64 (n : Nat) : Option Nat := if n + 1 < 2 ^ 64 then some (n + 1) else none

/-! ## The store -/

/-- A table as the store keeps it in memory. -/
structure SsTable where
  path : Name
  index : Index
  bloom : BloomFilter
  /-- Higher is newer. -/
  seq : Nat

/-- The store and its directory. -/
structure Lsm where
  files : Files
  memtable : SortedMap Bytes Value
  memtableBytes : Nat
  /-- L0 tables, newest first. -/
  l0 : List SsTable
  /-- L1 tables, newest first. -/
  l1 : List SsTable
  nextSeq : Nat

/-- The hash function and the two thresholds. -/
structure Params where
  hash : Bytes → BitVec 64 → BitVec 64
  flushThreshold : Nat
  compactionThreshold : Nat

namespace Lsm

/-! ### Opening -/

/-- The loop over the directory. -/
def openLoop : List (Name × File) → List SsTable → List SsTable → Nat →
    Option (List SsTable × List SsTable × Nat)
  | [], l0, l1, maxSeq => some (l0, l1, maxSeq)
  | (path, file) :: rest, l0, l1, maxSeq => do
    let (level, seq) := levelSeq (splitName path).1
    let (index, bloom) ← loadIndexAndBloom file.bytes
    let t : SsTable := ⟨path, index, bloom, seq⟩
    match level with
    | .l1 => openLoop rest l0 (l1 ++ [t]) (max maxSeq seq)
    | .l0 => openLoop rest (l0 ++ [t]) l1 (max maxSeq seq)

/-- Sort tables, newest first. -/
def sortTables (tables : List SsTable) : List SsTable :=
  tables.insertionSort fun a b => b.seq ≤ a.seq

/-- `Lsm::open`. -/
def openDir (files : Files) : Option Lsm := do
  let fileEntries := files.entries.filter fun e => (splitName e.1).2 = some sst
  let (l0, l1, maxSeq) ← openLoop fileEntries [] [] 0
  let nextSeq ← succU64 maxSeq
  some ⟨files, SortedMap.empty, 0, sortTables l0, sortTables l1, nextSeq⟩

/-! ### Reading -/

/-- The loop over the tables of a level. -/
def getTables (hash : Bytes → BitVec 64 → BitVec 64) (files : Files) (key : Bytes) :
    List SsTable → Option (Option Value)
  | [] => some none
  | t :: rest =>
    if t.bloom.mayContain hash key then do
      let file ← files.get t.path
      match ← sstableGet file.bytes t.index key with
      | some v => some (some v)
      | none => getTables hash files key rest
    else getTables hash files key rest

def get (hash : Bytes → BitVec 64 → BitVec 64) (s : Lsm) (key : Bytes) : Option (Option Bytes) :=
  match s.memtable.get key with
  | some v => some v.asBytes
  | none => do
    match ← getTables hash s.files key s.l0 with
    | some v => some v.asBytes
    | none =>
      match ← getTables hash s.files key s.l1 with
      | some v => some v.asBytes
      | none => some none

/-! ### Flushing -/

def flushMemtable (hash : Bytes → BitVec 64 → BitVec 64) (s : Lsm) : Option Lsm := do
  let seq := s.nextSeq
  let nextSeq ← succU64 s.nextSeq
  let path := tableName .l0 seq
  let (bytes, index, bloom) := writeSstable hash s.memtable.entries
  let files ← createFile s.files path bytes
  some { s with
    files := files
    memtable := SortedMap.empty
    memtableBytes := 0
    l0 := ⟨path, index, bloom, seq⟩ :: s.l0
    nextSeq := nextSeq }

/-! ### Compaction -/

/-- Merge the entries of the tables of a level, the oldest table first. -/
def mergeTables (files : Files) : List SsTable → Option (SortedMap Bytes Value)
  | [] => some SortedMap.empty
  | t :: older => do
    let merged ← mergeTables files older
    let file ← files.get t.path
    let entries ← readAllEntries file.bytes
    some (merged.insertAll entries)

/-- The entries of the new L1 table. -/
def finalEntries (s : Lsm) : Option (SortedMap Bytes Value) := do
  let merged ← mergeTables s.files s.l0
  let l1Merged ← mergeTables s.files s.l1
  some ((l1Merged.insertAll merged.entries).filter fun e => !e.2.isTombstone)

/-- `compact_l0_to_l1` up to the point where the new file is written: the directory, the new table
and the next sequence number. -/
def writeCompacted (hash : Bytes → BitVec 64 → BitVec 64) (s : Lsm) :
    Option (Files × SsTable × Nat) := do
  let entries ← s.finalEntries
  let seq := s.nextSeq
  let nextSeq ← succU64 s.nextSeq
  let path := tableName .l1 seq
  let (bytes, index, bloom) := writeSstable hash entries.entries
  let files ← createFile s.files path bytes
  some (files, ⟨path, index, bloom, seq⟩, nextSeq)

/-- The files that compaction removes, in the order of their removal. -/
def oldPaths (s : Lsm) : List Name := s.l0.map SsTable.path ++ s.l1.map SsTable.path

def compactL0ToL1 (hash : Bytes → BitVec 64 → BitVec 64) (s : Lsm) : Option Lsm := do
  let (files, t, nextSeq) ← s.writeCompacted hash
  some { s with files := files.eraseAll s.oldPaths, l0 := [], l1 := [t], nextSeq := nextSeq }

/-- The directory when `compact_l0_to_l1` has written its file and removed `j` files. -/
def compactAt (hash : Bytes → BitVec 64 → BitVec 64) (s : Lsm) (j : Nat) : Option Files := do
  let (files, _, _) ← s.writeCompacted hash
  some (files.eraseAll (s.oldPaths.take j))

/-! ### Writing -/

section Writing

variable (P : Params)

/-- The first half of `maybe_flush_and_compact`. -/
def maybeFlush (s : Lsm) : Option Lsm :=
  if P.flushThreshold ≤ s.memtableBytes then s.flushMemtable P.hash else some s

/-- The second half of `maybe_flush_and_compact`. -/
def maybeCompact (s : Lsm) : Option Lsm :=
  if P.compactionThreshold ≤ s.l0.length then s.compactL0ToL1 P.hash else some s

def maybeFlushAndCompact (s : Lsm) : Option Lsm := do
  let s ← s.maybeFlush P
  s.maybeCompact P

/-- What `put` and `delete` do to the memtable. -/
def writeMem (s : Lsm) (key : Bytes) (v : Value) : Lsm :=
  { s with
    memtable := s.memtable.insert key v
    memtableBytes := s.memtableBytes + key.length + (v.asBytes.getD []).length }

def put (s : Lsm) (key value : Bytes) : Option Lsm :=
  (s.writeMem key (.live value)).maybeFlushAndCompact P

def delete (s : Lsm) (key : Bytes) : Option Lsm :=
  (s.writeMem key .tombstone).maybeFlushAndCompact P

def flush (s : Lsm) : Option Lsm :=
  if s.memtable.entries ≠ [] then s.flushMemtable P.hash else some s

end Writing

end Lsm

/-! ## Runs -/

/-- An operation on the store; `reopen` drops the store and opens its directory. -/
inductive Op where
  | put (key value : Bytes)
  | delete (key : Bytes)
  | flush
  | reopen

/-- One operation. -/
def step (P : Params) (s : Lsm) : Op → Option Lsm
  | .put key value => s.put P key value
  | .delete key => s.delete P key
  | .flush => s.flush P
  | .reopen => Lsm.openDir s.files

/-- The store on an empty directory. -/
def start : Lsm := ⟨SortedMap.empty, SortedMap.empty, 0, [], [], 1⟩

/-! ## Names and numbers -/

theorem isDigit_digitChar {d : Nat} (h : d < 10) : (Nat.digitChar d).isDigit = true := by
  have hall : ∀ d < 10, (Nat.digitChar d).isDigit = true := by decide
  exact hall d h

theorem isDigit_formatSeq (n : Nat) : ∀ c ∈ formatSeq n, c.isDigit = true := by
  intro c hc
  rcases mem_append.1 hc with h | h
  · rw [eq_of_mem_replicate h]
    rfl
  · obtain ⟨d, hd, rfl⟩ := mem_map.1 h
    exact isDigit_digitChar (Nat.digits_lt_base (by omega) (mem_reverse.1 hd))

theorem formatSeq_ne_nil (n : Nat) : formatSeq n ≠ [] := by
  intro h
  have hlen := congrArg length h
  simp only [formatSeq, length_append, length_replicate, length_nil] at hlen
  omega

theorem foldl_formatSeq (n : Nat) : (formatSeq n).foldl (fun n c => 10 * n + (c.toNat - 48)) 0 = n := by
  have hzeros : ∀ k, (replicate k '0').foldl (fun n c => 10 * n + (c.toNat - 48)) 0 = 0 := by
    intro k
    induction k with
    | zero => rfl
    | succ k ih => exact ih
  have hdigits : ∀ ds : List Nat, (∀ d ∈ ds, d < 10) →
      (ds.reverse.map Nat.digitChar).foldl (fun n c => 10 * n + (c.toNat - 48)) 0 =
        Nat.ofDigits 10 ds := by
    intro ds
    induction ds with
    | nil => exact fun _ => rfl
    | cons d ds ih =>
      intro h
      rw [forall_mem_cons] at h
      rw [reverse_cons, map_append, foldl_append, ih h.2, Nat.ofDigits_cons]
      show 10 * Nat.ofDigits 10 ds + ((Nat.digitChar d).toNat - 48) = _
      rw [Nat.toNat_digitChar_sub_48_of_lt_ten h.1, Nat.add_comm]
  rw [formatSeq, foldl_append, hzeros,
    hdigits _ fun d hd => Nat.digits_lt_base (by omega) hd, Nat.ofDigits_digits]

/-- Sequence numbers survive the file name. -/
theorem parseU64_formatSeq {n : Nat} (h : n < 2 ^ 64) : parseU64 (formatSeq n) = some n := by
  have hhead : (formatSeq n).head? ≠ some '+' := fun hplus =>
    absurd (isDigit_formatSeq n '+' (mem_of_head? hplus)) (by decide)
  have hall : (formatSeq n).all Char.isDigit = true := all_eq_true.2 (isDigit_formatSeq n)
  rw [parseU64]
  rw [if_neg hhead]
  dsimp only
  rw [if_pos ⟨formatSeq_ne_nil n, hall⟩, foldl_formatSeq, if_pos h]

theorem splitName_sst {stem : Name} (h : stem ≠ []) : splitName (stem ++ '.' :: sst) = (stem, some sst) := by
  have hne : stem ++ ['.', 's', 's', 't'] ≠ ['.', '.'] := fun heq => by
    have := congrArg length heq
    simp at this
  simp [splitName, sst, h, hne]

theorem splitName_tableName (level : Level) (seq : Nat) :
    splitName (tableName level seq) = (level.tag ++ formatSeq seq, some sst) := by
  refine splitName_sst fun h => ?_
  exact formatSeq_ne_nil seq (append_eq_nil_iff.1 h).2

theorem levelSeq_tag (level : Level) {seq : Nat} (h : seq < 2 ^ 64) :
    levelSeq (level.tag ++ formatSeq seq) = (level, seq) := by
  cases level with
  | l0 =>
    show (Level.l0, (parseU64 (formatSeq seq)).getD 0) = _
    rw [parseU64_formatSeq h]
    rfl
  | l1 =>
    show (Level.l1, (parseU64 (formatSeq seq)).getD 0) = _
    rw [parseU64_formatSeq h]
    rfl

theorem levelSeq_tableName (level : Level) {seq : Nat} (h : seq < 2 ^ 64) :
    levelSeq (splitName (tableName level seq)).1 = (level, seq) := by
  rw [splitName_tableName, levelSeq_tag level h]

theorem tableName_inj {level level' : Level} {seq seq' : Nat}
    (heq : tableName level seq = tableName level' seq') : level = level' ∧ seq = seq' := by
  have hdot : level.tag ++ formatSeq seq = level'.tag ++ formatSeq seq' := by
    have := congrArg (fun name => (splitName name).1) heq
    simpa only [splitName_tableName] using this
  have hlen : level.tag.length = level'.tag.length := by
    cases level <;> cases level' <;> rfl
  obtain ⟨htag, hseq⟩ := append_inj hdot hlen
  constructor
  · revert htag
    cases level <;> cases level' <;> decide
  · rw [← foldl_formatSeq seq, hseq, foldl_formatSeq]

end SystemDesignLabs.LsmKv
