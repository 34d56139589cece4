import SystemDesignLabs.Core.SortedMap
import SystemDesignLabs.LsmKv.Bloom

/-!
# SSTable files

`write_sstable_v2`, `load_index_and_bloom`, `read_all_entries` and `sstable_get` of
`labs/lsm-kv/src/v2.rs`, on the bytes of a file:

```text
[data block] [sparse index] [bloom bits_len(4)][bloom words*8] [index_offset(8)]
```

Offsets are natural numbers; the counts and lengths that the source casts to `u32` are truncated by
their four-byte fields. A function that returns an `io::Result` returns an `Option`. The reading
loops have fuel, one unit for each entry; the file's length is always enough (`readAllEntries_spec`,
`sstableGet_spec`).
-/

namespace SystemDesignLabs.LsmKv

open List Option Core SortedList Prod BloomFilter

/-! ## Entries -/

/-- A live value or a tombstone. -/
inductive Value where
  | live (bytes : Bytes)
  | tombstone
  deriving DecidableEq

def Value.asBytes : Value → Option Bytes
  | .live b => some b
  | .tombstone => none

def Value.isTombstone : Value → Bool
  | .live _ => false
  | .tombstone => true

/-- A key and its value. -/
abbrev Entry := Bytes × Value

/-- A sparse index: the keys of some entries with the offsets of these entries. -/
abbrev Index := List (Bytes × Nat)

def indexStride : Nat := 16

def tagLive : Byte := 0x01

def tagTombstone : Byte := 0xFF

/-! ## Writing -/

/-- The bytes of an entry after the length of its key. -/
def entryBody (e : Entry) : Bytes :=
  e.1 ++ match e.2 with
    | .live v => tagLive :: (leBytes 4 v.length ++ v)
    | .tombstone => [tagTombstone]

/-- The bytes of an entry in the data block. -/
def entryBytes (e : Entry) : Bytes := leBytes 4 e.1.length ++ entryBody e

/-- What an entry adds to the offset. -/
def entrySize (e : Entry) : Nat :=
  4 + e.1.length + match e.2 with
    | .live v => 1 + 4 + v.length
    | .tombstone => 1

/-- The loop over the entries from the `i`-th on, at the given offset: the data block and the sparse
index. -/
def writeEntries : Nat → Nat → List Entry → Bytes × Index
  | _, _, [] => ([], [])
  | i, offset, e :: rest =>
    let r := writeEntries (i + 1) (offset + entrySize e) rest
    (entryBytes e ++ r.1, if i % indexStride = 0 then (e.1, offset) :: r.2 else r.2)

/-- The bytes of an entry of the sparse index. -/
def indexEntryBytes (p : Bytes × Nat) : Bytes := leBytes 4 p.1.length ++ p.1 ++ leBytes 8 p.2

def indexBytes (index : Index) : Bytes :=
  leBytes 4 index.length ++ (index.map indexEntryBytes).flatten

def bloomBytes (b : BloomFilter) : Bytes :=
  leBytes 4 b.bits.length ++ (b.bits.map fun w => leBytes 8 w.toNat).flatten

/-- `write_sstable_v2`: the bytes of the file, the sparse index and the bloom filter. -/
def writeSstable (hash : Bytes → BitVec 64 → BitVec 64) (entries : List Entry) :
    Bytes × Index × BloomFilter :=
  let bloom := BloomFilter.ofKeys hash (entries.map Prod.fst)
  let r := writeEntries 0 0 entries
  let indexOffset := (entries.map entrySize).sum
  (r.1 ++ indexBytes r.2 ++ bloomBytes bloom ++ leBytes 8 indexOffset, r.2, bloom)

/-! ## Reading -/

/-- The last eight bytes of a file: the offset of the index, which is the end of the data block. -/
def readFooter (file : Bytes) : Option Nat :=
  if file.length < 8 then none else some (ofLeBytes (file.drop (file.length - 8)))

/-- The loop that reads the sparse index. -/
def readIndex : Nat → Bytes → Option (Index × Bytes)
  | 0, r => some ([], r)
  | c + 1, r => do
    let (klen, r) ← readLe 4 r
    let (key, r) ← readExact klen r
    let (off, r) ← readLe 8 r
    let (index, r) ← readIndex c r
    some ((key, off) :: index, r)

/-- The loop that reads the words of the filter; a word that cannot be read stays 0. -/
def readWords : Nat → Bytes → List (BitVec 64)
  | 0, _ => []
  | c + 1, r =>
    match readLe 8 r with
    | some (w, r) => BitVec.ofNat 64 w :: readWords c r
    | none => 0 :: readWords c []

def loadIndexAndBloom (file : Bytes) : Option (Index × BloomFilter) :=
  match readFooter file with
  | none => some ([], BloomFilter.new 1)
  | some indexOffset => do
    let (count, r) ← readLe 4 (file.drop indexOffset)
    let (index, r) ← readIndex count r
    match readLe 4 r with
    | some (blen, r) => some (index, ⟨readWords blen r, blen * 64⟩)
    | none => some (index, BloomFilter.new 1)

/-- The part of the reading loops after the length of the key. -/
def readEntry (klen : Nat) (r : Bytes) : Option (Entry × Bytes) := do
  let (key, r) ← readExact klen r
  let (tag, r) ← readExact 1 r
  if tag = [tagLive] then do
    let (vlen, r) ← readLe 4 r
    let (val, r) ← readExact vlen r
    some ((key, .live val), r)
  else some ((key, .tombstone), r)

/-- The loop of `read_all_entries`, at the position `pos`. -/
def readAllLoop : Nat → Nat → Nat → Bytes → Option (List Entry)
  | 0, _, _, _ => none
  | fuel + 1, pos, fileSize, r =>
    if pos < fileSize then
      match readLe 4 r with
      | none => some []
      | some (klen, r) => do
        let (e, r) ← readEntry klen r
        let es ← readAllLoop fuel (pos + entrySize e) fileSize r
        some (e :: es)
    else some []

def readAllEntries (file : Bytes) : Option (List Entry) := do
  let fileSize ← readFooter file
  readAllLoop (file.length + 1) 0 fileSize file

/-- The offset of the last indexed key that is not above the given one. -/
def startOffset (index : Index) (key : Bytes) : Nat :=
  let pos := (index.takeWhile fun p => p.1 ≤ key).length
  if pos = 0 then 0 else (index.getD (pos - 1) ([], 0)).2

/-- The loop of `sstable_get`, at the position `pos`. -/
def getLoop (key : Bytes) : Nat → Nat → Nat → Bytes → Option (Option Value)
  | 0, _, _, _ => none
  | fuel + 1, pos, fileSize, r =>
    if pos < fileSize then
      match readLe 4 r with
      | none => some none
      | some (klen, r) => do
        let (e, r) ← readEntry klen r
        if e.1 = key then some (some e.2)
        else if key < e.1 then some none
        else getLoop key fuel (pos + entrySize e) fileSize r
    else some none

def sstableGet (file : Bytes) (index : Index) (key : Bytes) : Option (Option Value) := do
  let start := startOffset index key
  let fileSize ← readFooter file
  getLoop key (file.length + 1) start fileSize (file.drop start)

/-! ## Entries come back -/

/-- Key and value fit their length fields. -/
structure Small (e : Entry) : Prop where
  key : e.1.length < 2 ^ 32
  value : ∀ v, e.2 = .live v → v.length < 2 ^ 32

theorem length_entryBytes (e : Entry) : (entryBytes e).length = entrySize e := by
  obtain ⟨k, v⟩ := e
  cases v with
  | live v =>
    simp [entryBytes, entryBody, entrySize]
    omega
  | tombstone =>
    simp [entryBytes, entryBody, entrySize]
    omega

theorem entrySize_pos (e : Entry) : 0 < entrySize e := by
  rw [entrySize]
  omega

theorem readEntry_entryBytes {e : Entry} (he : Small e) (r : Bytes) :
    readLe 4 (entryBytes e ++ r) = some (e.1.length, entryBody e ++ r) ∧
      readEntry e.1.length (entryBody e ++ r) = some (e, r) := by
  constructor
  · have hk : e.1.length % 256 ^ 4 = e.1.length := Nat.mod_eq_of_lt he.key
    rw [entryBytes, append_assoc, readLe_append, hk]
  · obtain ⟨k, v⟩ := e
    have hkey : ∀ r', readExact k.length (k ++ r') = some (k, r') := readExact_append k
    cases v with
    | live v =>
      have hv : v.length % 256 ^ 4 = v.length := Nat.mod_eq_of_lt (he.value v rfl)
      have htag := readExact_append [tagLive] (leBytes 4 v.length ++ (v ++ r))
      have hlen := readLe_append 4 v.length (v ++ r)
      have hval := readExact_append v r
      rw [hv] at hlen
      simp only [length_singleton, singleton_append] at htag
      simp [readEntry, entryBody, hkey, htag, hlen, hval]
    | tombstone =>
      have htag := readExact_append [tagTombstone] r
      have hne : ¬ [tagTombstone] = [tagLive] := by decide
      simp only [length_singleton, singleton_append] at htag
      simp [readEntry, entryBody, hkey, htag, hne]

/-- The data block of a list of entries. -/
def dataBytes (es : List Entry) : Bytes := (es.map entryBytes).flatten

theorem dataBytes_cons (e : Entry) (es : List Entry) : dataBytes (e :: es) = entryBytes e ++ dataBytes es := rfl

theorem dataBytes_append (es fs : List Entry) : dataBytes (es ++ fs) = dataBytes es ++ dataBytes fs := by
  simp [dataBytes]

theorem length_dataBytes (es : List Entry) : (dataBytes es).length = (es.map entrySize).sum := by
  induction es with
  | nil => rfl
  | cons e es ih => rw [dataBytes_cons, length_append, length_entryBytes, ih]; rfl

theorem length_le_dataBytes (es : List Entry) : es.length ≤ (dataBytes es).length := by
  induction es with
  | nil => exact Nat.zero_le _
  | cons e es ih =>
    rw [dataBytes_cons, length_append, length_entryBytes, length_cons]
    have := entrySize_pos e
    omega

theorem readAllLoop_spec (tail : Bytes) : ∀ (es : List Entry) (fuel pos : Nat), (∀ e ∈ es, Small e) → es.length < fuel →
      readAllLoop fuel pos (pos + (dataBytes es).length) (dataBytes es ++ tail) = some es := by
  intro es
  induction es with
  | nil =>
    intro fuel pos _ hfuel
    obtain ⟨fuel, rfl⟩ := Nat.exists_eq_succ_of_ne_zero (by omega : fuel ≠ 0)
    simp [readAllLoop, dataBytes]
  | cons e es ih =>
    intro fuel pos hsmall hfuel
    obtain ⟨fuel, rfl⟩ := Nat.exists_eq_succ_of_ne_zero (by omega : fuel ≠ 0)
    rw [forall_mem_cons] at hsmall
    rw [length_cons] at hfuel
    have hpos := entrySize_pos e
    have hlen : pos + (dataBytes (e :: es)).length =
        pos + entrySize e + (dataBytes es).length := by
      rw [dataBytes_cons, length_append, length_entryBytes, Nat.add_assoc]
    obtain ⟨hklen, hentry⟩ := readEntry_entryBytes hsmall.1 (dataBytes es ++ tail)
    rw [hlen, dataBytes_cons, append_assoc, readAllLoop, if_pos (by omega), hklen]
    simp only [hentry, bind_eq_bind, bind_some,
      ih fuel (pos + entrySize e) hsmall.2 (by omega)]

theorem getLoop_spec (key : Bytes) (tail : Bytes) : ∀ (es : List Entry) (fuel pos : Nat),
    Sorted es → (∀ e ∈ es, Small e) → es.length < fuel →
      getLoop key fuel pos (pos + (dataBytes es).length) (dataBytes es ++ tail) = some (find es key) := by
  intro es
  induction es with
  | nil =>
    intro fuel pos _ _ hfuel
    obtain ⟨fuel, rfl⟩ := Nat.exists_eq_succ_of_ne_zero (by omega : fuel ≠ 0)
    simp [getLoop, dataBytes]
  | cons e es ih =>
    intro fuel pos hsorted hsmall hfuel
    obtain ⟨fuel, rfl⟩ := Nat.exists_eq_succ_of_ne_zero (by omega : fuel ≠ 0)
    rw [forall_mem_cons] at hsmall
    rw [length_cons] at hfuel
    have hpos := entrySize_pos e
    have hlen : pos + (dataBytes (e :: es)).length =
        pos + entrySize e + (dataBytes es).length := by
      rw [dataBytes_cons, length_append, length_entryBytes, Nat.add_assoc]
    obtain ⟨hklen, hentry⟩ := readEntry_entryBytes hsmall.1 (dataBytes es ++ tail)
    rw [hlen, dataBytes_cons, append_assoc, getLoop, if_pos (by omega), hklen]
    simp only [hentry, bind_eq_bind, bind_some]
    by_cases heq : e.1 = key
    · rw [if_pos heq, ← heq, find_cons_self]
    · rw [if_neg heq]
      by_cases hlt : key < e.1
      · -- the keys only grow from here
        rw [if_pos hlt, find_of_lt hsorted hlt]
      · rw [if_neg hlt, find_cons_ne heq]
        exact ih fuel (pos + entrySize e) (pairwise_cons.1 hsorted).2 hsmall.2 (by omega)

/-! ## The sparse index -/

theorem writeEntries_data (es : List Entry) : ∀ i offset, (writeEntries i offset es).1 = dataBytes es := by
  induction es with
  | nil => exact fun _ _ => rfl
  | cons e es ih =>
    intro i offset
    show entryBytes e ++ (writeEntries (i + 1) (offset + entrySize e) es).1 = _
    rw [ih]
    rfl

theorem mem_writeEntries {k : Bytes} {o : Nat} (es : List Entry) : ∀ i offset,
    (k, o) ∈ (writeEntries i offset es).2 → ∃ pre e post, es = pre ++ e :: post ∧ e.1 = k ∧
      o = offset + (dataBytes pre).length := by
  induction es with
  | nil => exact fun _ _ h => absurd h (by simp [writeEntries])
  | cons e es ih =>
    intro i offset h
    have hrest : (k, o) ∈ (writeEntries (i + 1) (offset + entrySize e) es).2 →
        ∃ pre e' post, e :: es = pre ++ e' :: post ∧ e'.1 = k ∧
          o = offset + (dataBytes pre).length := by
      intro h'
      obtain ⟨pre, e', post, rfl, hk, ho⟩ := ih _ _ h'
      refine ⟨e :: pre, e', post, rfl, hk, ?_⟩
      rw [ho, dataBytes_cons, length_append, length_entryBytes, Nat.add_assoc]
    simp only [writeEntries] at h
    split at h
    · rcases mem_cons.1 h with heq | h'
      · cases heq
        exact ⟨[], e, es, rfl, rfl, rfl⟩
      · exact hrest h'
    · exact hrest h

theorem startOffset_cases (index : Index) (key : Bytes) :
    startOffset index key = 0 ∨ ∃ p ∈ index, p.1 ≤ key ∧ startOffset index key = p.2 := by
  unfold startOffset
  dsimp only
  split
  case isTrue => exact Or.inl rfl
  case isFalse hpos =>
    have hlt : (index.takeWhile fun p => p.1 ≤ key).length - 1 <
        (index.takeWhile fun p => p.1 ≤ key).length := by omega
    have hpre : (index.takeWhile fun p => p.1 ≤ key) <+: index := takeWhile_prefix _
    have hmem := getElem_mem hlt
    have htest := mem_takeWhile_imp hmem
    refine Or.inr ⟨_, hpre.subset hmem, by simpa using htest, ?_⟩
    rw [getD_eq_getElem?_getD, prefix_iff_getElem?.1 hpre _ hlt]
    rfl

/-! ## Files -/

section Files

variable (hash : Bytes → BitVec 64 → BitVec 64) {es : List Entry}

/-- The bytes after the data block. -/
def tailBytes (es : List Entry) : Bytes :=
  indexBytes (writeEntries 0 0 es).2 ++ bloomBytes (BloomFilter.ofKeys hash (es.map Prod.fst)) ++
    leBytes 8 (dataBytes es).length

theorem writeSstable_bytes (es : List Entry) : (writeSstable hash es).1 = dataBytes es ++ tailBytes hash es := by
  simp only [writeSstable, tailBytes, writeEntries_data, length_dataBytes, append_assoc]

theorem readFooter_append (a : Bytes) (n : Nat) : readFooter (a ++ leBytes 8 n) = some (n % 256 ^ 8) := by
  have hlen : (a ++ leBytes 8 n).length - 8 = a.length := by simp
  rw [readFooter]
  rw [if_neg (by simp), hlen, drop_left, ofLeBytes_leBytes]

theorem readFooter_writeSstable (hlen : (writeSstable hash es).1.length < 2 ^ 64) :
    readFooter (writeSstable hash es).1 = some (dataBytes es).length := by
  rw [writeSstable_bytes, length_append] at hlen
  have hmod : (dataBytes es).length % 256 ^ 8 = (dataBytes es).length :=
    Nat.mod_eq_of_lt (lt_of_le_of_lt (Nat.le_add_right _ _) hlen)
  rw [writeSstable_bytes, tailBytes, ← append_assoc, readFooter_append, hmod]

/-- Compaction reads back the entries of a table. -/
theorem readAllEntries_spec (hsmall : ∀ e ∈ es, Small e) (hlen : (writeSstable hash es).1.length < 2 ^ 64) :
    readAllEntries (writeSstable hash es).1 = some es := by
  have hfuel : es.length < (writeSstable hash es).1.length + 1 := by
    have := length_le_dataBytes es
    rw [writeSstable_bytes, length_append]
    omega
  have hloop := readAllLoop_spec (tailBytes hash es) es _ 0 hsmall hfuel
  rw [Nat.zero_add, ← writeSstable_bytes] at hloop
  rw [readAllEntries, readFooter_writeSstable hash hlen]
  exact hloop

/-- A point read finds the key in a table, with any part of the table's index. -/
theorem sstableGet_spec (hsorted : Sorted es) (hsmall : ∀ e ∈ es, Small e)
    (hlen : (writeSstable hash es).1.length < 2 ^ 64) {index : Index}
    (hindex : index ⊆ (writeSstable hash es).2.1) (key : Bytes) :
    sstableGet (writeSstable hash es).1 index key = some (find es key) := by
  have hfuel : es.length < (writeSstable hash es).1.length + 1 := by
    have := length_le_dataBytes es
    rw [writeSstable_bytes, length_append]
    omega
  -- the scan starts between two entries, and the key is not before that point
  obtain ⟨pre, post, hes, hstart, hpre⟩ : ∃ pre post, es = pre ++ post ∧
      startOffset index key = (dataBytes pre).length ∧ find pre key = none := by
    rcases startOffset_cases index key with h0 | ⟨⟨k, o⟩, hp, hle, ho⟩
    · exact ⟨[], es, rfl, h0, rfl⟩
    · obtain ⟨pre, e, post, hes, hk, ho'⟩ := mem_writeEntries es 0 0 (hindex hp)
      refine ⟨pre, e :: post, hes, by rw [ho, ho', Nat.zero_add], ?_⟩
      rw [find_eq_none]
      intro q hq
      have hlt : q.1 < e.1 :=
        (pairwise_append.1 (hes ▸ hsorted)).2.2 q hq e mem_cons_self
      exact ne_of_lt (lt_of_lt_of_le (hk ▸ hlt) hle)
  have hsortedPost : Sorted post := (pairwise_append.1 (hes ▸ hsorted)).2.1
  have hsmallPost : ∀ e ∈ post, Small e := fun e he =>
    hsmall e (by rw [hes]; exact mem_append_right _ he)
  have hfuelPost : post.length < (writeSstable hash es).1.length + 1 := by
    rw [hes, length_append] at hfuel
    rw [hes]
    omega
  have hdrop : (writeSstable hash es).1.drop (dataBytes pre).length =
      dataBytes post ++ tailBytes hash es := by
    rw [writeSstable_bytes, hes, dataBytes_append, append_assoc, drop_left]
  have hloop := getLoop_spec key (tailBytes hash es) post _ (dataBytes pre).length hsortedPost
    hsmallPost hfuelPost
  rw [← length_append, ← dataBytes_append, ← hes] at hloop
  have hfind : find es key = find post key := by
    rw [hes, find_append, hpre]
    rfl
  rw [sstableGet, readFooter_writeSstable hash hlen, hstart, hfind]
  show getLoop key _ (dataBytes pre).length (dataBytes es).length (drop _ _) = _
  rw [hdrop]
  exact hloop

/-! ## Loading -/

theorem readIndex_spec (r : Bytes) : ∀ (c : Nat) (index : Index), c ≤ index.length →
    (∀ p ∈ index, p.1.length < 2 ^ 32 ∧ p.2 < 2 ^ 64) → readIndex c ((index.map indexEntryBytes).flatten ++ r) =
        some (index.take c, ((index.drop c).map indexEntryBytes).flatten ++ r) := by
  intro c
  induction c with
  | zero => exact fun index _ _ => rfl
  | succ c ih =>
    intro index hc hsmall
    cases index with
    | nil => exact absurd hc (by simp)
    | cons p index =>
      obtain ⟨k, o⟩ := p
      rw [forall_mem_cons] at hsmall
      obtain ⟨⟨hk, ho⟩, hsmall⟩ := hsmall
      have hk' : k.length % 256 ^ 4 = k.length := Nat.mod_eq_of_lt hk
      have ho' : o % 256 ^ 8 = o := Nat.mod_eq_of_lt ho
      have hrest := ih index (by simpa using hc) hsmall
      have hklen := readLe_append 4 k.length
        (k ++ (leBytes 8 o ++ ((index.map indexEntryBytes).flatten ++ r)))
      have hkey := readExact_append k (leBytes 8 o ++ ((index.map indexEntryBytes).flatten ++ r))
      have hoff := readLe_append 8 o ((index.map indexEntryBytes).flatten ++ r)
      rw [hk'] at hklen
      rw [ho'] at hoff
      simp only [readIndex, map_cons, flatten_cons, indexEntryBytes, append_assoc, hklen, hkey, hoff, hrest,
        bind_eq_bind, bind_some, take_succ_cons, drop_succ_cons]

theorem readWords_spec (r : Bytes) (words : List (BitVec 64)) :
    readWords words.length ((words.map fun w => leBytes 8 w.toNat).flatten ++ r) = words := by
  induction words with
  | nil => rfl
  | cons w words ih =>
    have hw : w.toNat % 256 ^ 8 = w.toNat := Nat.mod_eq_of_lt w.isLt
    have hread := readLe_append 8 w.toNat ((words.map fun w => leBytes 8 w.toNat).flatten ++ r)
    rw [hw] at hread
    rw [length_cons, map_cons, flatten_cons, append_assoc, readWords, hread]
    simp only [ih, BitVec.ofNat_toNat, BitVec.setWidth_eq]

theorem length_writeEntries (es : List Entry) : ∀ i offset, (writeEntries i offset es).2.length =
    (i + es.length + 15) / 16 - (i + 15) / 16 := by
  induction es with
  | nil =>
    intro i offset
    simp [writeEntries]
  | cons e es ih =>
    intro i offset
    have hrest := ih (i + 1) (offset + entrySize e)
    rw [length_cons]
    rw [writeEntries]
    dsimp only
    by_cases hi : i % indexStride = 0
    · rw [if_pos hi, length_cons, hrest]
      simp only [indexStride] at hi
      omega
    · rw [if_neg hi, hrest]
      simp only [indexStride] at hi
      omega

/-- The number of the words of the filter fits its four-byte field. -/
def FitsFilter (n : Nat) : Prop := max n 1 * bloomBitsPerKey ≤ 64 * (2 ^ 32 - 1)

theorem small_writeEntries (hsmall : ∀ e ∈ es, Small e) (hlen : (writeSstable hash es).1.length < 2 ^ 64) :
    ∀ p ∈ (writeEntries 0 0 es).2, p.1.length < 2 ^ 32 ∧ p.2 < 2 ^ 64 := by
  rintro ⟨k, o⟩ hp
  obtain ⟨pre, e, post, hes, rfl, rfl⟩ := mem_writeEntries es 0 0 hp
  refine ⟨(hsmall e (by rw [hes]; simp)).key, ?_⟩
  rw [writeSstable_bytes, length_append] at hlen
  have hpre : (dataBytes pre).length ≤ (dataBytes es).length := by
    rw [hes, dataBytes_append, length_append]
    exact Nat.le_add_right _ _
  omega

/-- Loading a table gives a part of its index, and unless a count overflows its field the whole
index and the reloaded filter. -/
theorem loadIndexAndBloom_spec (hsmall : ∀ e ∈ es, Small e) (hlen : (writeSstable hash es).1.length < 2 ^ 64) :
    ∃ index bloom, loadIndexAndBloom (writeSstable hash es).1 = some (index, bloom) ∧
      index ⊆ (writeSstable hash es).2.1 ∧ (FitsFilter es.length → index = (writeSstable hash es).2.1 ∧
        bloom = (BloomFilter.ofKeys hash (es.map Prod.fst)).reload) := by
  have hidx := small_writeEntries hash hsmall hlen
  have hfooter := readFooter_writeSstable hash hlen
  have hdrop : (writeSstable hash es).1.drop (dataBytes es).length = tailBytes hash es := by
    rw [writeSstable_bytes, drop_left]
  have hcount : (writeEntries 0 0 es).2.length % 256 ^ 4 ≤ (writeEntries 0 0 es).2.length :=
    Nat.mod_le _ _
  have hread := readLe_append 4 (writeEntries 0 0 es).2.length
    (((writeEntries 0 0 es).2.map indexEntryBytes).flatten ++
      (bloomBytes (ofKeys hash (es.map fst)) ++ leBytes 8 (dataBytes es).length))
  have hindex := readIndex_spec
    (bloomBytes (ofKeys hash (es.map fst)) ++ leBytes 8 (dataBytes es).length)
    _ (writeEntries 0 0 es).2 hcount hidx
  have htail : tailBytes hash es = leBytes 4 (writeEntries 0 0 es).2.length ++
      (((writeEntries 0 0 es).2.map indexEntryBytes).flatten ++ (bloomBytes (ofKeys hash (es.map fst))
        ++ leBytes 8 (dataBytes es).length)) := by
    simp only [tailBytes, indexBytes, append_assoc]
  have hload : loadIndexAndBloom (writeSstable hash es).1 =
      match readLe 4 ((((writeEntries 0 0 es).2.drop ((writeEntries 0 0 es).2.length % 256 ^ 4)).map
          indexEntryBytes).flatten ++ (bloomBytes (ofKeys hash (es.map fst)) ++ leBytes 8 (dataBytes
          es).length)) with
      | some (blen, r) => some ((writeEntries 0 0 es).2.take
          ((writeEntries 0 0 es).2.length % 256 ^ 4), ⟨readWords blen r, blen * 64⟩)
      | none => some ((writeEntries 0 0 es).2.take ((writeEntries 0 0 es).2.length % 256 ^ 4), new 1) := by
    rw [loadIndexAndBloom, hfooter]
    dsimp only
    rw [hdrop, htail, hread]
    simp only [bind_eq_bind, bind_some]
    rw [hindex]
    rfl
  have hsub : (writeEntries 0 0 es).2.take ((writeEntries 0 0 es).2.length % 256 ^ 4) ⊆
      (writeSstable hash es).2.1 := (List.take_prefix _ _).subset
  by_cases hfits : FitsFilter es.length
  · -- both counts are read back
    have hwords := ofKeys_length hash (es.map fst)
    have hlenIndex := length_writeEntries es 0 0
    rw [length_map] at hwords
    simp only [FitsFilter, bloomBitsPerKey] at hfits hwords
    have hcount' : (writeEntries 0 0 es).2.length % 256 ^ 4 = (writeEntries 0 0 es).2.length :=
      Nat.mod_eq_of_lt (by omega)
    have hblen : (ofKeys hash (es.map fst)).bits.length % 256 ^ 4 =
        (ofKeys hash (es.map fst)).bits.length := Nat.mod_eq_of_lt (by omega)
    have hreadBloom := readLe_append 4 (ofKeys hash (es.map fst)).bits.length
      (((ofKeys hash (es.map fst)).bits.map fun w => leBytes 8 w.toNat).flatten ++
        leBytes 8 (dataBytes es).length)
    rw [hblen] at hreadBloom
    rw [hcount', take_length, drop_length] at hload
    simp only [map_nil, flatten_nil, nil_append, bloomBytes, append_assoc, hreadBloom, readWords_spec] at hload
    exact ⟨_, _, hload, Subset.refl _, fun _ => ⟨rfl, rfl⟩⟩
  · split at hload
    · exact ⟨_, _, hload, hsub, fun h => absurd h hfits⟩
    · exact ⟨_, _, hload, hsub, fun h => absurd h hfits⟩

end Files

end SystemDesignLabs.LsmKv
