import SystemDesignLabs.Core.Encodings
import SystemDesignLabs.Core.SortedMap
import SystemDesignLabs.Core.Text

/-!
# The cache with LRU eviction and an append-only file

The data model of `lib.rs` and `v2.rs`. Instants are nanoseconds; the clock is an argument of each call. The
file that a cache has open is the byte string `aof`, and I/O errors do not occur. The functions of
`serde_json` are the fields of `AofJson`, and `iter` is the iteration order of the hash map, which decides
between entries that were accessed at the same instant.
-/

namespace SystemDesignLabs.KvCache

open Core

/-! ### Instants -/

def nanosPerSec : Nat := 1000000000

/-- The first instant that cannot be represented: the seconds are a signed number of 64 bits. -/
def instantEnd : Nat := nanosPerSec * 2 ^ 63

/-- `Instant::now() + Duration::from_secs(secs)`, which panics on overflow. -/
def instantAfter (now : Nat) (secs : UInt64) : Option Nat :=
  let t := now + nanosPerSec * secs.toNat
  if t < instantEnd then some t else none

/-- `ttl_secs.map(|s| Instant::now() + Duration::from_secs(s))`. -/
def deadline (now : Nat) : Option UInt64 → Option (Option Nat)
  | none => some none
  | some secs => (instantAfter now secs).map some

/-! ### Entries -/

structure CacheEntry where
  value : String
  expiresAt : Option Nat
  accessedAt : Nat
  deriving DecidableEq

namespace CacheEntry

def new (now : Nat) (value : String) (expiresAt : Option Nat) : CacheEntry := ⟨value, expiresAt, now⟩

def isExpired (now : Nat) (e : CacheEntry) : Bool :=
  match e.expiresAt with
  | some exp => exp ≤ now
  | none => false

/-- The remaining time to live in whole seconds. -/
def ttlSecs (now : Nat) (e : CacheEntry) : Option Int :=
  e.expiresAt.map fun exp => if exp ≤ now then 0 else ((exp - now) / nanosPerSec : Nat)

end CacheEntry

abbrev Store := SortedMap String CacheEntry

/-! ### Log records -/

inductive AofRecord where
  | set (key value : String) (ttlSecs : Option UInt64)
  | del (key : String)
  | expire (key : String) (ttlSecs : UInt64)
  deriving DecidableEq

/-- `serde_json::to_string` and `serde_json::from_str::<AofRecord>`. -/
structure AofJson where
  toString : AofRecord → String
  fromStr : String → Option AofRecord

/-- Why `open` does not return a cache: a line is not UTF-8, or an instant overflows (a panic). -/
inductive OpenError where
  | invalidData
  | overflow
  deriving DecidableEq

structure Cache where
  store : Store
  maxKeys : Nat
  aof : Option (List UInt8)
  lastSync : Nat
  syncInterval : Nat
  syncCount : Nat
  deriving DecidableEq

def aofSyncInterval : Nat := nanosPerSec

/-! ### Replay -/

/-- The effect of one record on the store at startup. -/
def applyRecord (now : Nat) (store : Store) : AofRecord → Except OpenError Store
  | .set key value ttlSecs =>
    match deadline now ttlSecs with
    | some expiresAt => .ok (store.insert key (.new now value expiresAt))
    | none => .error .overflow
  | .del key => .ok (store.erase key)
  | .expire key ttlSecs =>
    match store.get key with
    | some entry =>
      match instantAfter now ttlSecs with
      | some t => .ok (store.insert key { entry with expiresAt := some t })
      | none => .error .overflow
    | none => .ok store

/-- One line of the file. Lines of white space and malformed lines are skipped. -/
def replayLine (json : AofJson) (now : Nat) (store : Store) (line : List UInt8) : Except OpenError Store :=
  match fromUtf8 line with
  | none => .error .invalidData
  | some line =>
    let line := trim line.toList
    if line = [] then .ok store
    else match json.fromStr (String.ofList line) with
      | some record => applyRecord now store record
      | none => .ok store

namespace Cache

/-- Open the cache whose file has these bytes; `none` means that there is no file. -/
def openAof (json : AofJson) (now maxKeys : Nat) (file : Option (List UInt8)) : Except OpenError Cache := do
  let store ← match file with
    | some bytes => (splitLines bytes).foldlM (replayLine json now) SortedMap.empty
    | none => .ok SortedMap.empty
  .ok ⟨store, maxKeys, some (file.getD []), now, aofSyncInterval, 0⟩

variable (json : AofJson) (iter : Store → List (String × CacheEntry)) (now : Nat)

/-- Append a record to the file, and sync it if the last sync was an interval ago. -/
def appendAof (c : Cache) (record : AofRecord) : Cache :=
  match c.aof with
  | none => c
  | some file =>
    let c := { c with aof := some (file ++ (utf8Bytes (json.toString record) ++ [10])) }
    if c.syncInterval ≤ now - c.lastSync then { c with lastSync := now, syncCount := c.syncCount + 1 }
    else c

/-- Remove the least recently used key. -/
def evictLru (c : Cache) : Cache :=
  match (iter c.store).argmin fun e => e.2.accessedAt with
  | some lru => { c with store := c.store.erase lru.1 }
  | none => c

/-- Insert or overwrite a key. The second part is `none` when the deadline overflows (a panic). -/
def set (c : Cache) (key value : String) (ttlSecs : Option UInt64) : Cache × Option Unit :=
  let c := if (c.store.get key).isNone ∧ c.maxKeys ≤ c.store.entries.length then evictLru iter c else c
  match deadline now ttlSecs with
  | some expiresAt =>
    let c := { c with store := c.store.insert key (.new now value expiresAt) }
    (appendAof json now c (.set key value ttlSecs), some ())
  | none => (c, none)

/-- Is the key stored and past its deadline? -/
def holdsExpired (c : Cache) (key : String) : Bool :=
  match c.store.get key with
  | some e => e.isExpired now
  | none => false

/-- Delete a key; was it present and not expired? -/
def del (c : Cache) (key : String) : Cache × Bool :=
  if holdsExpired now c key then ({ c with store := c.store.erase key }, false)
  else
    let existed := (c.store.get key).isSome
    let c := { c with store := c.store.erase key }
    (if existed then appendAof json now c (.del key) else c, existed)

/-- Set a new time to live on an existing key. The second part is `none` when the deadline overflows. -/
def expire (c : Cache) (key : String) (ttlSecs : UInt64) : Cache × Option Bool :=
  match c.store.get key with
  | some entry =>
    if entry.isExpired now then (c, some false)
    else match instantAfter now ttlSecs with
      | some t =>
        let c := { c with store := c.store.insert key { entry with expiresAt := some t } }
        (appendAof json now c (.expire key ttlSecs), some true)
      | none => (c, none)
  | none => (c, some false)

def get (c : Cache) (key : String) : Cache × Option String :=
  if holdsExpired now c key then ({ c with store := c.store.erase key }, none)
  else match c.store.get key with
    | some e => ({ c with store := c.store.insert key { e with accessedAt := now } }, some e.value)
    | none => (c, none)

end Cache

/-!
## The lines of the append-only file

What the cache relies on of its JSON library is `AofJson.Lawful`: a record is read back from what was
written for it, what is written is one object on one line, and an object that is cut short is not read. Then
the complete lines of a file are replayed as the records they were written for (`replay_fileOf`), and a last
line that was cut short is skipped, unless it is cut inside a character (`replay_torn`).
-/

open List

/-- The JSON library on log records. -/
structure AofJson.Lawful (json : AofJson) : Prop where
  roundTrip : ∀ r, json.fromStr (json.toString r) = some r
  isObject : ∀ r, ∃ cs, (json.toString r).toList = '\x7b' :: (cs ++ ['\x7d'])
  escaped : ∀ r, ∀ c ∈ (json.toString r).toList, 0x20 ≤ c.toNat
  unfinished : ∀ r cs, cs <+: (json.toString r).toList → cs ≠ (json.toString r).toList →
    json.fromStr (String.ofList cs) = none

/-- The bytes of the line of a record, without the line feed. -/
def lineOf (json : AofJson) (r : AofRecord) : List UInt8 := utf8Bytes (json.toString r)

/-- The file with the lines of these records. -/
def fileOf (json : AofJson) (rs : List AofRecord) : List UInt8 := (rs.map (lineOf json)).flatMap (· ++ [10])

/-- The effect of records on an empty store. -/
def replay (now : Nat) (rs : List AofRecord) : Except OpenError Store := rs.foldlM (applyRecord now) SortedMap.empty

theorem fileOf_append (json : AofJson) (rs rs' : List AofRecord) :
    fileOf json (rs ++ rs') = fileOf json rs ++ fileOf json rs' := by
  rw [fileOf, map_append, flatMap_append]
  rfl

theorem aof_appendAof (json : AofJson) (now : Nat) (c : Cache) (r : AofRecord) :
    (c.appendAof json now r).aof = c.aof.map (· ++ fileOf json [r]) := by
  have hline : fileOf json [r] = utf8Bytes (json.toString r) ++ [10] := by
    rw [fileOf, map_singleton, flatMap_singleton, lineOf]
  rw [Cache.appendAof, hline]
  split
  · rename_i hnone
    rw [hnone]
    rfl
  · rename_i file hfile
    dsimp only
    rw [hfile, Option.map_some]
    split <;> rfl

section Lawful

variable {json : AofJson} (hjson : json.Lawful)

include hjson

theorem newline_notMem_lineOf (r : AofRecord) : (10 : UInt8) ∉ lineOf json r := by
  rw [lineOf, utf8Bytes_eq_flatMap]
  intro h
  obtain ⟨c, hc, h⟩ := mem_flatMap.1 h
  have hplain := hjson.escaped r c hc
  rw [eq_of_mem_utf8EncodeChar h (by decide)] at hplain
  exact absurd hplain (by decide)

theorem trim_toString (r : AofRecord) : trim (json.toString r).toList = (json.toString r).toList := by
  obtain ⟨cs, hcs⟩ := hjson.isObject r
  rw [hcs]
  apply trim_eq_self (by decide)
  rw [getLast_cons (by simp), getLast_append_singleton]
  decide

/-- A complete line is replayed as its record. -/
theorem replayLine_lineOf (now : Nat) (store : Store) (r : AofRecord) :
    replayLine json now store (lineOf json r) = applyRecord now store r := by
  obtain ⟨cs, hcs⟩ := hjson.isObject r
  have hne : (json.toString r).toList ≠ [] := by
    rw [hcs]
    exact cons_ne_nil _ _
  rw [replayLine, lineOf, fromUtf8_utf8Bytes]
  simp only [trim_toString hjson, if_neg hne, String.ofList_toList, hjson.roundTrip]

/-- The complete lines of a file are replayed as their records, and then what follows them. -/
theorem replay_fileOf (now : Nat) (rs : List AofRecord) (tail : List UInt8) :
    (splitLines (fileOf json rs ++ tail)).foldlM (replayLine json now) SortedMap.empty =
      replay now rs >>= fun store => (splitLines tail).foldlM (replayLine json now) store := by
  have hlines : ∀ line ∈ rs.map (lineOf json), 10 ∉ line := by
    intro line hline
    obtain ⟨r, -, rfl⟩ := mem_map.1 hline
    exact newline_notMem_lineOf hjson r
  have hstep : (fun store r => replayLine json now store (lineOf json r)) = applyRecord now := by
    funext store r
    exact replayLine_lineOf hjson now store r
  rw [fileOf, splitLines_flatMap hlines, foldlM_append, foldlM_map, hstep]
  rfl

/-- A last line that was cut short, between two characters: it is skipped, unless only the line feed is
missing. -/
theorem replay_torn (now : Nat) (store : Store) {r : AofRecord} {tail : List UInt8} (htail : tail <+: lineOf json r)
    {s : String} (hs : fromUtf8 tail = some s) : (splitLines tail).foldlM (replayLine json now) store =
      if tail = lineOf json r then applyRecord now store r else .ok store := by
  have hnewline : (10 : UInt8) ∉ tail := fun h => newline_notMem_lineOf hjson r (htail.subset h)
  obtain ⟨rest, hrest⟩ := htail
  have hbytes := utf8Bytes_of_fromUtf8 hs
  have hfront := fromUtf8_front hs hrest
  obtain ⟨cs, hcs⟩ := hjson.isObject r
  rw [splitLines_last hnewline]
  by_cases hnil : tail = []
  · -- nothing was written
    have hne : tail ≠ lineOf json r := by
      intro hline
      rw [hnil, lineOf, utf8Bytes_eq_flatMap, hcs, flatMap_cons] at hline
      exact String.utf8EncodeChar_ne_nil (append_eq_nil_iff.1 hline.symm).1
    rw [if_pos hnil, if_neg hne]
    rfl
  · rw [if_neg hnil, foldlM_cons]
    by_cases hline : tail = lineOf json r
    · -- only the line feed is missing
      rw [if_pos hline, hline, replayLine_lineOf hjson]
      cases applyRecord now store r <;> rfl
    · -- the object is not finished, also after its trailing white space is removed
      have hshort : s.toList ≠ (json.toString r).toList := by
        intro h
        rw [String.toList_inj.1 h] at hbytes
        exact hline hbytes.symm
      have hskip : replayLine json now store tail = .ok store := by
        cases hs' : s.toList with
        | nil =>
          rw [utf8Bytes_eq_flatMap, hs'] at hbytes
          exact absurd hbytes.symm hnil
        | cons c s' =>
          rw [hs'] at hfront hshort
          have hc : c = '\x7b' := by
            rw [hcs] at hfront
            exact (cons_prefix_cons.1 hfront).1
          have hspace : isWhitespace c = false := hc ▸ by decide
          have htrim := (trim_front hspace).trans hfront
          have hne : trim (c :: s') ≠ (json.toString r).toList := fun h =>
            hshort (hfront.eq_of_length_le (h ▸ (trim_front hspace).length_le))
          rw [replayLine, hs]
          simp only [hs', if_neg (trim_ne_nil hspace), hjson.unfinished r _ htrim hne]
      rw [if_neg hline, hskip]
      rfl

end Lawful

end SystemDesignLabs.KvCache
