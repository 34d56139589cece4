import SystemDesignLabs.Core.Bytes

/-!
# The bloom filter of an SSTable

`BloomFilter` of `labs/lsm-kv/src/v2.rs`: `m` bits kept in 64-bit words, seven hash functions. The
hash is a parameter; `sipHash` is the one of the source. A filter has no false negatives
(`mayContain_ofKeys`). The words are written to the file and `m` is not: `reload` is the filter that
comes back. It is the same filter exactly when `m` was a multiple of the word size already
(`reload_ofKeys_eq_iff`); otherwise a key may be lost (`exists_lost_key`).
-/

namespace SystemDesignLabs.LsmKv

open Core Or

/-- Bloom filter bits per key. -/
def bloomBitsPerKey : Nat := 10

/-- The number of hash functions. -/
def bloomHashCount : Nat := 7

/-- A bit-array bloom filter. -/
structure BloomFilter where
  /-- The bit array, stored as 64-bit words. -/
  bits : List (BitVec 64)
  /-- The total number of bits. -/
  m : Nat

namespace BloomFilter

/-- A filter sized for `n` keys. -/
def new (n : Nat) : BloomFilter :=
  let m := max (n * bloomBitsPerKey) 64
  let words := (m + 63) / 64
  ⟨List.replicate words 0, m⟩

/-- Set one bit. -/
def setBit (b : BloomFilter) (bit : Nat) : BloomFilter :=
  { b with bits := b.bits.modify (bit / 64) fun w => w ||| 1#64 <<< (bit % 64) }

/-- Read one bit. -/
def testBit (b : BloomFilter) (bit : Nat) : Bool :=
  (b.bits.getD (bit / 64) 0 >>> (bit % 64)) &&& 1#64 == 1#64

section Hash

variable (hash : Bytes → BitVec 64 → BitVec 64)

/-- Double hashing: `h1 + seed * h2`, modulo `m`. -/
def bitIndex (b : BloomFilter) (key : Bytes) (seed : Nat) : Nat :=
  let h1 := hash key (BitVec.ofNat 64 seed)
  let h2 := hash key (BitVec.ofNat 64 seed ^^^ 0x9e3779b97f4a7c15#64)
  (h1 + BitVec.ofNat 64 seed * h2).toNat % b.m

/-- Insert a key into the filter. -/
def insert (b : BloomFilter) (key : Bytes) : BloomFilter :=
  (List.range bloomHashCount).foldl (fun b seed => b.setBit (b.bitIndex hash key seed)) b

/-- `false` if the key is definitely absent. -/
def mayContain (b : BloomFilter) (key : Bytes) : Bool :=
  (List.range bloomHashCount).all fun seed => b.testBit (b.bitIndex hash key seed)

/-- The filter that `write_sstable_v2` builds for the keys of a table. -/
def ofKeys (keys : List Bytes) : BloomFilter :=
  keys.foldl (insert hash) (new (max keys.length 1))

end Hash

/-- The filter with the same words whose size is taken from their number. -/
def reload (b : BloomFilter) : BloomFilter := { b with m := b.bits.length * 64 }

/-! ## Bits -/

/-- The bits below `m` lie inside the words. -/
structure WellSized (b : BloomFilter) : Prop where
  pos : 0 < b.m
  le : b.m ≤ 64 * b.bits.length

theorem new_wellSized (n : Nat) : (new n).WellSized := by
  constructor
  · show 0 < max (n * bloomBitsPerKey) 64
    omega
  · show max (n * bloomBitsPerKey) 64 ≤ 64 * (List.replicate _ (0 : BitVec 64)).length
    rw [List.length_replicate]
    omega

section

variable (b : BloomFilter)
include b

theorem testBit_eq (j : Nat) : b.testBit j = (b.bits.getD (j / 64) 0).getLsbD (j % 64) := by
  have key : ∀ (w : BitVec 64) (k : Nat), ((w >>> k) &&& 1#64 == 1#64) = w.getLsbD k := by
    intro w k
    rw [Bool.eq_iff_iff, beq_iff_eq]
    constructor
    · intro h
      have h0 := congrArg (fun x => BitVec.getLsbD x 0) h
      simpa using h0
    · intro h
      apply BitVec.eq_of_getLsbD_eq
      intro i hi
      by_cases h0 : i = 0
      · subst h0
        simpa using h
      · simp [h0]
  exact key _ _

theorem testBit_setBit (i j : Nat) : (b.setBit i).testBit j = true ↔
    (i = j ∧ i / 64 < b.bits.length) ∨ b.testBit j = true := by
  rw [testBit_eq, testBit_eq]
  simp only [setBit, List.getD_eq_getElem?_getD, List.getElem?_modify]
  have hj := Nat.div_add_mod j 64
  have hi := Nat.div_add_mod i 64
  by_cases hword : i / 64 = j / 64
  · cases hw : b.bits[j / 64]? with
    | none =>
      have hlen := List.getElem?_eq_none_iff.1 hw
      simp
      omega
    | some w =>
      have hlen := (List.getElem?_eq_some_iff.1 hw).1
      have hbit : i = j ↔ i % 64 = j % 64 := by omega
      have hj64 : j % 64 < 64 := Nat.mod_lt _ (by omega)
      simp only [Option.map_eq_map, Option.map_some, hword, if_true, Option.getD_some, BitVec.getLsbD_or,
        BitVec.getLsbD_shiftLeft, BitVec.getLsbD_one, Bool.or_eq_true, Bool.and_eq_true,
        decide_eq_true_eq, Bool.not_eq_true', decide_eq_false_iff_not]
      constructor
      · rintro (h | h)
        · exact inr h
        · exact inl (by omega)
      · rintro (h | h)
        · exact inr (by omega)
        · exact inl h
  · have hne : i ≠ j := fun h => hword (by rw [h])
    simp [hword, hne]

@[simp] theorem setBit_m (i : Nat) : (b.setBit i).m = b.m := rfl

@[simp] theorem setBit_length (i : Nat) :
    (b.setBit i).bits.length = b.bits.length := List.length_modify _ _ _

end

/-! ## Keys -/

section Hash

variable (hash : Bytes → BitVec 64 → BitVec 64)

theorem bitIndex_congr {b b' : BloomFilter} (h : b.m = b'.m) (key : Bytes) (seed : Nat) :
    b.bitIndex hash key seed = b'.bitIndex hash key seed := by
  simp only [bitIndex, h]

section

variable (b : BloomFilter)
include b

theorem foldl_setBit (key : Bytes) (seeds : List Nat) :
    let b' := seeds.foldl (fun b seed => b.setBit (b.bitIndex hash key seed)) b
    b'.m = b.m ∧ b'.bits.length = b.bits.length ∧
      ∀ j, b'.testBit j = true ↔
        (∃ seed ∈ seeds, b.bitIndex hash key seed = j ∧ j / 64 < b.bits.length) ∨
          b.testBit j = true := by
  induction seeds generalizing b with
  | nil => exact ⟨rfl, rfl, fun j => by simp⟩
  | cons seed seeds ih =>
    obtain ⟨hm, hlen, hbit⟩ := ih (b.setBit (b.bitIndex hash key seed))
    refine ⟨hm, hlen.trans (setBit_length _ _), fun j => ?_⟩
    show (List.foldl _ (b.setBit (b.bitIndex hash key seed)) seeds).testBit j = true ↔ _
    rw [hbit, testBit_setBit, setBit_length]
    simp only [bitIndex_congr hash (setBit_m b (b.bitIndex hash key seed)), List.mem_cons, exists_eq_or_imp]
    constructor
    · rintro (h | ⟨rfl, h⟩ | h)
      · exact inl (inr h)
      · exact inl (inl ⟨rfl, h⟩)
      · exact inr h
    · rintro ((⟨rfl, h⟩ | h) | h)
      · exact inr (inl ⟨rfl, h⟩)
      · exact inl h
      · exact inr (inr h)

@[simp] theorem insert_m (key : Bytes) : (b.insert hash key).m = b.m :=
  (foldl_setBit hash b key _).1

@[simp] theorem insert_length (key : Bytes) : (b.insert hash key).bits.length = b.bits.length :=
  (foldl_setBit hash b key _).2.1

theorem testBit_insert (key : Bytes) (j : Nat) : (b.insert hash key).testBit j = true ↔
      (∃ seed < bloomHashCount, b.bitIndex hash key seed = j ∧ j / 64 < b.bits.length) ∨ b.testBit j = true := by
  rw [insert, (foldl_setBit hash b key _).2.2 j]
  simp only [List.mem_range]

theorem mayContain_iff (key : Bytes) : b.mayContain hash key = true ↔
    ∀ seed < bloomHashCount, b.testBit (b.bitIndex hash key seed) = true := by
  rw [mayContain, List.all_eq_true]
  simp only [List.mem_range]

end

theorem WellSized.bitIndex_lt {b : BloomFilter} (h : b.WellSized) (key : Bytes) (seed : Nat) :
    b.bitIndex hash key seed / 64 < b.bits.length := by
  have hlt : b.bitIndex hash key seed < b.m := Nat.mod_lt _ h.pos
  have hle := h.le
  omega

theorem testBit_insertAll (keys : List Bytes) (b : BloomFilter) : (keys.foldl (insert hash) b).m = b.m ∧
      (keys.foldl (insert hash) b).bits.length = b.bits.length ∧ ∀ j, (keys.foldl (insert hash) b).testBit j = true ↔
        (∃ key ∈ keys, ∃ seed < bloomHashCount,
          b.bitIndex hash key seed = j ∧ j / 64 < b.bits.length) ∨ b.testBit j = true := by
  induction keys generalizing b with
  | nil => exact ⟨rfl, rfl, fun j => by simp⟩
  | cons key keys ih =>
    obtain ⟨hm, hlen, hbit⟩ := ih (b.insert hash key)
    refine ⟨hm.trans (insert_m hash b key), hlen.trans (insert_length hash b key), fun j => ?_⟩
    rw [List.foldl_cons, hbit, testBit_insert, insert_length]
    simp only [bitIndex_congr hash (insert_m hash b key), List.mem_cons, exists_eq_or_imp]
    exact or_left_comm.trans or_assoc.symm

theorem ofKeys_m (keys : List Bytes) : (ofKeys hash keys).m = max (max keys.length 1 * bloomBitsPerKey) 64 :=
  (testBit_insertAll hash keys _).1

theorem ofKeys_length (keys : List Bytes) : (ofKeys hash keys).bits.length =
    (max (max keys.length 1 * bloomBitsPerKey) 64 + 63) / 64 := by
  rw [ofKeys, (testBit_insertAll hash keys _).2.1]
  exact List.length_replicate

/-- No false negatives: the filter of a table answers for each of its keys. -/
theorem mayContain_ofKeys {keys : List Bytes} {key : Bytes} (h : key ∈ keys) :
    (ofKeys hash keys).mayContain hash key = true := by
  rw [mayContain_iff]
  intro seed hseed
  obtain ⟨hm, hlen, hbit⟩ := testBit_insertAll hash keys (new (max keys.length 1))
  rw [ofKeys, hbit, bitIndex_congr hash hm]
  exact inl ⟨key, h, seed, hseed, rfl, (new_wellSized _).bitIndex_lt hash key seed⟩

end Hash

/-! ## Reloading -/

/-- The sizes of tables whose filter keeps its size when it is reloaded. -/
def KeepsSize (n : Nat) : Prop := n ≤ 6 ∨ 32 ∣ n

instance (n : Nat) : Decidable (KeepsSize n) := inferInstanceAs (Decidable (n ≤ 6 ∨ 32 ∣ n))

theorem reload_ofKeys_eq_iff (hash : Bytes → BitVec 64 → BitVec 64) (keys : List Bytes) :
    (ofKeys hash keys).reload = ofKeys hash keys ↔ KeepsSize keys.length := by
  have hm := ofKeys_m hash keys
  have hlen := ofKeys_length hash keys
  simp only [bloomBitsPerKey] at hm hlen
  have hsize : (ofKeys hash keys).bits.length * 64 = (ofKeys hash keys).m ↔
      KeepsSize keys.length := by
    rw [hm, hlen, KeepsSize]
    omega
  rw [← hsize, reload]
  constructor
  · intro h
    exact congrArg BloomFilter.m h
  · intro h
    rw [h]

/-- A list of `n` different keys. -/
def someKeys (n : Nat) : List Bytes := (List.range n).map (leBytes 8)

theorem someKeys_nodup {n : Nat} (hn : n ≤ 256 ^ 8) : (someKeys n).Nodup := by
  refine List.Nodup.map_on (fun i hi j hj h => ?_) List.nodup_range
  have heq := congrArg ofLeBytes h
  rw [ofLeBytes_leBytes, ofLeBytes_leBytes, Nat.mod_eq_of_lt, Nat.mod_eq_of_lt] at heq
  · exact heq
  · exact lt_of_lt_of_le (List.mem_range.1 hj) hn
  · exact lt_of_lt_of_le (List.mem_range.1 hi) hn

/-- A hash under which every hash function of a filter gives `x`. -/
def constantHash (x : Nat) (_key : Bytes) (seed : BitVec 64) : BitVec 64 :=
  if seed.toNat < bloomHashCount then BitVec.ofNat 64 x else 0#64

theorem bitIndex_constantHash (b : BloomFilter) (x : Nat) (hx : x < 2 ^ 64) (key : Bytes) {seed : Nat}
    (hseed : seed < bloomHashCount) : b.bitIndex (constantHash x) key seed = x % b.m := by
  have h1 : (BitVec.ofNat 64 seed).toNat < bloomHashCount := by
    rw [BitVec.toNat_ofNat]
    exact lt_of_le_of_lt (Nat.mod_le _ _) hseed
  have hall : ∀ seed < bloomHashCount,
      ¬ (BitVec.ofNat 64 seed ^^^ 0x9e3779b97f4a7c15#64).toNat < bloomHashCount := by decide
  have h2 := hall seed hseed
  simp only [bitIndex, constantHash, h1, h2, if_true, if_false]
  rw [BitVec.mul_zero, BitVec.add_zero, BitVec.toNat_ofNat, Nat.mod_eq_of_lt hx]

theorem exists_lost_key {n : Nat} (hn : n * bloomBitsPerKey < 2 ^ 64) (hsize : ¬ KeepsSize n) :
    ∃ key ∈ someKeys n, (ofKeys (constantHash (n * bloomBitsPerKey)) (someKeys n)).reload.mayContain
      (constantHash (n * bloomBitsPerKey)) key = false := by
  have hn' : n * 10 < 2 ^ 64 := hn
  have hbig : 6 < n ∧ ¬ 32 ∣ n := by
    rw [KeepsSize] at hsize
    omega
  -- all hash functions give the old size: bit 0 is set, and the bit read back is another one
  have hlen : (someKeys n).length = n := by simp [someKeys]
  have hm := ofKeys_m (constantHash (n * 10)) (someKeys n)
  have hwords := ofKeys_length (constantHash (n * 10)) (someKeys n)
  rw [hlen] at hm hwords
  simp only [bloomBitsPerKey] at hm hwords
  have hzero : leBytes 8 0 ∈ someKeys n := List.mem_map.2 ⟨0, List.mem_range.2 (by omega), rfl⟩
  refine ⟨leBytes 8 0, hzero, ?_⟩
  rw [Bool.eq_false_iff]
  intro hmay
  have hread := (mayContain_iff _ _ _).1 hmay 0 (by decide)
  have hmod : n * 10 % ((ofKeys (constantHash (n * 10)) (someKeys n)).bits.length * 64) =
      n * 10 := by
    rw [hwords]
    exact Nat.mod_eq_of_lt (by omega)
  rw [bloomBitsPerKey, bitIndex_constantHash _ _ hn' _ (by decide), reload, hmod] at hread
  obtain ⟨-, -, hbit⟩ := testBit_insertAll (constantHash (n * 10)) (someKeys n)
    (new (max (someKeys n).length 1))
  rcases (hbit (n * 10)).1 hread with ⟨key, -, seed, hseed, hidx, -⟩ | hnew
  · rw [bitIndex_constantHash _ _ hn' _ hseed] at hidx
    have hnewm : (new (max (someKeys n).length 1)).m = n * 10 := by
      show max (max (someKeys n).length 1 * 10) 64 = _
      rw [hlen]
      omega
    rw [hnewm, Nat.mod_self] at hidx
    omega
  · rw [testBit_eq] at hnew
    simp [new, List.getD_eq_getElem?_getD, List.getElem?_replicate] at hnew
    split at hnew <;> simp at hnew

end BloomFilter

/-! ## SipHash -/

namespace SipHash

/-- The state of SipHash. -/
structure State where
  v0 : BitVec 64
  v1 : BitVec 64
  v2 : BitVec 64
  v3 : BitVec 64

/-- One SipRound. -/
def round (s : State) : State :=
  let v0 := s.v0 + s.v1
  let v2 := s.v2 + s.v3
  let v1 := s.v1.rotateLeft 13 ^^^ v0
  let v3 := s.v3.rotateLeft 16 ^^^ v2
  let v0 := v0.rotateLeft 32
  let v2 := v2 + v1
  let v0 := v0 + v3
  let v1 := v1.rotateLeft 17 ^^^ v2
  let v3 := v3.rotateLeft 21 ^^^ v0
  let v2 := v2.rotateLeft 32
  ⟨v0, v1, v2, v3⟩

/-- Absorb one word. -/
def absorb (s : State) (w : BitVec 64) : State :=
  let s := round { s with v3 := s.v3 ^^^ w }
  { s with v0 := s.v0 ^^^ w }

/-- Absorb the whole words of a byte string; the bytes left over are returned. -/
def blocks : Nat → State → Bytes → State × Bytes
  | 0, s, bs => (s, bs)
  | k + 1, s, bs => blocks k (absorb s (BitVec.ofNat 64 (ofLeBytes (bs.take 8)))) (bs.drop 8)

/-- SipHash-1-3 with a zero key. -/
def sipHash13 (bs : Bytes) : BitVec 64 :=
  let init : State := ⟨0x736f6d6570736575#64, 0x646f72616e646f6d#64, 0x6c7967656e657261#64,
    0x7465646279746573#64⟩
  let (s, left) := blocks (bs.length / 8) init bs
  let s := absorb s (BitVec.ofNat 64 (ofLeBytes left + 2 ^ 56 * bs.length))
  let s := round (round (round { s with v2 := s.v2 ^^^ 0xff#64 }))
  s.v0 ^^^ s.v1 ^^^ s.v2 ^^^ s.v3

end SipHash

/-- `sip_hash`: a `DefaultHasher` is fed the seed, then the length of the data and the data. -/
def sipHash (data : Bytes) (seed : BitVec 64) : BitVec 64 :=
  SipHash.sipHash13 (leBytes 8 seed.toNat ++ leBytes 8 data.length ++ data)

end SystemDesignLabs.LsmKv
