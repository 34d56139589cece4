import Mathlib

/-!
# Bytes, numbers of fixed width and readers

A byte string is a list of bytes. `leBytes w n` are the `w` low bytes of `n`, least significant
first; reading them back gives `n` modulo `256 ^ w` (`ofLeBytes_leBytes`), so a number that does not
fit its field comes back truncated. `beBytes w n` are the same bytes, most significant first. A reader takes the front of a byte string and fails when the
string is too short.
-/

namespace SystemDesignLabs.Core

open List

/-- One byte. -/
abbrev Byte := Fin 256

/-- For the numerals of bytes. -/
instance neZero_byteSize : NeZero 256 := ⟨by decide⟩

/-- A byte string. -/
abbrev Bytes := List Byte

/-- The `w` low bytes of `n`, least significant first. -/
def leBytes : Nat → Nat → Bytes
  | 0, _ => []
  | w + 1, n => Fin.ofNat 256 n :: leBytes w (n / 256)

/-- The number with the given bytes, least significant first. -/
def ofLeBytes : Bytes → Nat
  | [] => 0
  | b :: bs => b.val + 256 * ofLeBytes bs

@[simp] theorem length_leBytes (w n : Nat) : (leBytes w n).length = w := by
  induction w generalizing n with
  | zero => rfl
  | succ w ih => simp [leBytes, ih]

theorem ofLeBytes_leBytes (w n : Nat) : ofLeBytes (leBytes w n) = n % 256 ^ w := by
  induction w generalizing n with
  | zero =>
    rw [Nat.pow_zero, Nat.mod_one]
    rfl
  | succ w ih =>
    show n % 256 + 256 * ofLeBytes (leBytes w (n / 256)) = _
    rw [ih, Nat.pow_succ', Nat.mod_mul]

theorem ofLeBytes_lt (bs : Bytes) : ofLeBytes bs < 256 ^ bs.length := by
  induction bs with
  | nil => exact Nat.one_pos
  | cons b bs ih =>
    have hb := b.isLt
    rw [ofLeBytes, length_cons, Nat.pow_succ']
    omega

theorem leBytes_ofLeBytes {w : Nat} {bs : Bytes} (h : bs.length = w) : leBytes w (ofLeBytes bs) = bs := by
  subst h
  induction bs with
  | nil => rfl
  | cons b bs ih =>
    have hb := b.isLt
    have hdiv : (b.val + 256 * ofLeBytes bs) / 256 = ofLeBytes bs := by omega
    have hmod : Fin.ofNat 256 (b.val + 256 * ofLeBytes bs) = b := by
      apply Fin.ext
      show (b.val + 256 * ofLeBytes bs) % 256 = b.val
      omega
    rw [length_cons, ofLeBytes, leBytes, hdiv, hmod, ih]

/-- `read_exact` on a buffer of `n` bytes: the bytes read and the rest. -/
def readExact (n : Nat) (r : Bytes) : Option (Bytes × Bytes) :=
  if n ≤ r.length then some (r.take n, r.drop n) else none

/-- Read a little-endian number of `w` bytes. -/
def readLe (w : Nat) (r : Bytes) : Option (Nat × Bytes) :=
  (readExact w r).map fun p => (ofLeBytes p.1, p.2)

theorem readExact_append (a b : Bytes) : readExact a.length (a ++ b) = some (a, b) := by
  have hle : a.length ≤ (a ++ b).length := by simp
  rw [readExact, if_pos hle, take_left, drop_left]

theorem readExact_sound {n : Nat} {s front back : Bytes} (h : readExact n s = some (front, back)) :
    s = front ++ back ∧ front.length = n := by
  rw [readExact] at h
  split at h
  · rename_i hn
    rw [Option.some.injEq, Prod.mk.injEq] at h
    obtain ⟨rfl, rfl⟩ := h
    exact ⟨(take_append_drop n s).symm, length_take_of_le hn⟩
  · exact absurd h (by simp)

theorem readLe_append (w n : Nat) (r : Bytes) : readLe w (leBytes w n ++ r) = some (n % 256 ^ w, r) := by
  have h := readExact_append (leBytes w n) r
  rw [length_leBytes] at h
  rw [readLe, h, Option.map_some, ofLeBytes_leBytes]

/-! ### Most significant byte first -/

/-- The `w` low bytes of `n`, most significant first. -/
def beBytes (w n : Nat) : Bytes := (leBytes w n).reverse

/-- The number with the given bytes, most significant first. -/
def ofBeBytes (bs : Bytes) : Nat := ofLeBytes bs.reverse

@[simp] theorem length_beBytes (w n : Nat) : (beBytes w n).length = w := by
  rw [beBytes, length_reverse, length_leBytes]

theorem ofBeBytes_beBytes (w n : Nat) : ofBeBytes (beBytes w n) = n % 256 ^ w := by
  rw [ofBeBytes, beBytes, reverse_reverse, ofLeBytes_leBytes]

theorem ofBeBytes_lt (bs : Bytes) : ofBeBytes bs < 256 ^ bs.length := by
  rw [ofBeBytes, ← length_reverse]
  exact ofLeBytes_lt bs.reverse

theorem beBytes_ofBeBytes {w : Nat} {bs : Bytes} (h : bs.length = w) : beBytes w (ofBeBytes bs) = bs := by
  rw [beBytes, ofBeBytes, leBytes_ofLeBytes (length_reverse.trans h), reverse_reverse]

theorem le_ofBeBytes_concat (bs : Bytes) (b : Byte) : b.val ≤ ofBeBytes (bs ++ [b]) := by
  rw [ofBeBytes, reverse_append, reverse_singleton, singleton_append, ofLeBytes]
  omega

/-!
## CRC-32

The checksum with the reflected polynomial `0xEDB88320`, bit by bit. Results on recovery hold for any
checksum; runs on fixed inputs use this one.
-/

/-- One bit. -/
def crc32Step (crc : BitVec 32) : BitVec 32 :=
  if crc.getLsbD 0 then (crc >>> 1) ^^^ 0xEDB88320#32 else crc >>> 1

/-- One byte. -/
def crc32Byte (crc : BitVec 32) (b : Byte) : BitVec 32 :=
  Nat.iterate crc32Step 8 (crc ^^^ BitVec.ofNat 32 b.val)

/-- The checksum of a byte string. -/
def crc32 (bs : Bytes) : BitVec 32 := ~~~ (bs.foldl crc32Byte 0xFFFFFFFF#32)

/-- The check value: the digits from 1 to 9. -/
example : crc32 [49, 50, 51, 52, 53, 54, 55, 56, 57] = 0xCBF43926#32 := by decide +kernel

end SystemDesignLabs.Core
