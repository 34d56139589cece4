import SystemDesignLabs.Core.Bytes

/-!
# Buffers of a fixed size

`Buffer n` is an array of `n` bytes that is written and read at offsets; an access that leaves the
buffer fails. What has been written is read back (`Buffer.read_write`) and the rest is unchanged
(`Buffer.read_write_of_disjoint`). Cells are items of at most `stride` bytes, one every `stride`
bytes: `HasCells` says that a buffer holds them, `writeCells_spec` that writing them succeeds and
`readCells_spec` that a reader of single cells reads them all.
-/

namespace SystemDesignLabs.Core

open List

/-- An array of `n` bytes. -/
structure Buffer (n : Nat) where
  bytes : Bytes
  length_bytes : bytes.length = n

namespace Buffer

variable {n : Nat}

/-- A buffer of zero bytes. -/
def zero (n : Nat) : Buffer n := ⟨List.replicate n 0, List.length_replicate⟩

/-- Overwrite the bytes from an offset on. -/
def write (b : Buffer n) (off : Nat) (bs : Bytes) : Option (Buffer n) :=
  if h : off + bs.length ≤ n then
    some ⟨b.bytes.take off ++ (bs ++ b.bytes.drop (off + bs.length)), by
      have := b.length_bytes
      rw [List.length_append, List.length_append, List.length_take, List.length_drop]
      omega⟩
  else none

/-- The `len` bytes from an offset on. -/
def read (b : Buffer n) (off len : Nat) : Option Bytes :=
  if off + len ≤ n then some ((b.bytes.drop off).take len) else none

variable {b b' : Buffer n} {off : Nat} {bs : Bytes}

theorem exists_write (b : Buffer n) (off : Nat) (bs : Bytes) (h : off + bs.length ≤ n) :
    ∃ b', b.write off bs = some b' := ⟨_, dif_pos h⟩

theorem bytes_of_write (h : b.write off bs = some b') : off + bs.length ≤ n ∧
    b'.bytes = b.bytes.take off ++ (bs ++ b.bytes.drop (off + bs.length)) := by
  rw [write] at h
  split at h
  case isTrue hle =>
    cases h
    exact ⟨hle, rfl⟩
  case isFalse => exact absurd h (by simp)

theorem read_eq_some {len : Nat} : b.read off len = some bs ↔ off + len ≤ n ∧ (b.bytes.drop off).take len = bs := by
  rw [read]
  split
  case isTrue hle => simp [hle]
  case isFalse hgt => simp [hgt]

/-- What has been written is read back. -/
theorem read_write (h : b.write off bs = some b') : b'.read off bs.length = some bs := by
  obtain ⟨hle, hbytes⟩ := bytes_of_write h
  have hlen : (b.bytes.take off).length = off := by
    rw [length_take, b.length_bytes]
    omega
  refine read_eq_some.2 ⟨hle, ?_⟩
  rw [hbytes, drop_left' hlen, take_left]

/-- The other bytes are unchanged. -/
theorem read_write_of_disjoint (h : b.write off bs = some b') {off' len : Nat}
    (hdisj : off' + len ≤ off ∨ off + bs.length ≤ off') : b'.read off' len = b.read off' len := by
  obtain ⟨hle, hbytes⟩ := bytes_of_write h
  have hlen : (b.bytes.take off).length = off := by
    rw [length_take, b.length_bytes]
    omega
  rw [read, read, hbytes]
  congr 2
  rcases hdisj with hbefore | hafter
  · -- the read ends before the write
    rw [drop_append_of_le_length (by omega), take_append_of_le_length
      (by rw [length_drop]; omega), drop_take, take_take]
    congr 1
    omega
  · -- the read starts after the write
    rw [← append_assoc, drop_append, drop_eq_nil_of_le
      (by rw [length_append]; omega), nil_append, drop_drop]
    congr 2
    rw [length_append]
    omega

theorem read_left {a c : Bytes} (h : b.read off (a.length + c.length) = some (a ++ c)) :
    b.read off a.length = some a := by
  obtain ⟨hle, htake⟩ := read_eq_some.1 h
  refine read_eq_some.2 ⟨by omega, ?_⟩
  have := congrArg (take a.length) htake
  rwa [take_take, Nat.min_eq_left (Nat.le_add_right _ _), take_left] at this

theorem read_right {a c : Bytes} (h : b.read off (a.length + c.length) = some (a ++ c)) :
    b.read (off + a.length) c.length = some c := by
  obtain ⟨hle, htake⟩ := read_eq_some.1 h
  refine read_eq_some.2 ⟨by omega, ?_⟩
  have := congrArg (drop a.length) htake
  rwa [drop_take, drop_left, drop_drop, Nat.add_sub_cancel_left] at this

/-! ## Cells -/

/-- Write one item every `stride` bytes. -/
def writeCells (stride : Nat) : Buffer n → Nat → List Bytes → Option (Buffer n)
  | b, _, [] => some b
  | b, off, cell :: cells => do
    let b ← b.write off cell
    writeCells stride b (off + stride) cells

/-- Read one item every `stride` bytes. -/
def readCells {A : Type} (stride : Nat) (readCell : Buffer n → Nat → Option A) (b : Buffer n) :
    Nat → Nat → Option (List A)
  | 0, _ => some []
  | count + 1, off => do
    let x ← readCell b off
    let xs ← readCells stride readCell b count (off + stride)
    some (x :: xs)

/-- The buffer holds one item every `stride` bytes. -/
def HasCells (stride : Nat) (b : Buffer n) : Nat → List Bytes → Prop
  | _, [] => True
  | off, cell :: cells => b.read off cell.length = some cell ∧ HasCells stride b (off + stride) cells

variable {stride : Nat}

theorem HasCells.congr {cells : List Bytes} (h : HasCells stride b off cells)
    (hcells : ∀ cell ∈ cells, cell.length ≤ stride)
    (hsame : ∀ off' len, off ≤ off' → off' + len ≤ off + cells.length * stride →
      b'.read off' len = b.read off' len) : HasCells stride b' off cells := by
  induction cells generalizing off with
  | nil => trivial
  | cons cell cells ih =>
    rw [forall_mem_cons] at hcells
    rw [length_cons, Nat.add_one_mul] at hsame
    refine ⟨(hsame off _ le_rfl ?_).trans h.1, ih h.2 hcells.2 fun off' len hoff hlen => ?_⟩
    · have := hcells.1
      omega
    · exact hsame off' len (by omega) (by omega)

/-- Writing cells: it succeeds, the buffer then holds them, and the rest is unchanged. -/
theorem writeCells_spec {cells : List Bytes} (b : Buffer n) (off : Nat)
    (hcells : ∀ cell ∈ cells, cell.length ≤ stride) (hfit : off + cells.length * stride ≤ n) :
    ∃ b', writeCells stride b off cells = some b' ∧ HasCells stride b' off cells ∧
      ∀ off' len, off' + len ≤ off ∨ off + cells.length * stride ≤ off' → b'.read off' len = b.read off' len := by
  induction cells generalizing b off with
  | nil => exact ⟨b, rfl, trivial, fun _ _ _ => rfl⟩
  | cons cell cells ih =>
    rw [forall_mem_cons] at hcells
    rw [length_cons, Nat.add_one_mul] at hfit ⊢
    have hcell := hcells.1
    obtain ⟨b₁, hwrite⟩ := b.exists_write off cell (by omega)
    obtain ⟨b₂, hrest, hhas, hsame⟩ := ih b₁ (off + stride) hcells.2 (by omega)
    refine ⟨b₂, ?_, ⟨?_, hhas⟩, fun off' len hdisj => ?_⟩
    · rw [writeCells, hwrite]
      exact hrest
    · rw [hsame _ _ (Or.inl (by omega)), read_write hwrite]
    · rw [hsame _ _ (by omega), read_write_of_disjoint hwrite (by omega)]

/-- Reading cells. -/
theorem readCells_spec {A : Type} {readCell : Buffer n → Nat → Option A} {xs : List A}
    {cell : A → Bytes} (h : HasCells stride b off (xs.map cell))
    (hread : ∀ x ∈ xs, ∀ off', b.read off' (cell x).length = some (cell x) →
      readCell b off' = some x) : readCells stride readCell b xs.length off = some xs := by
  induction xs generalizing off with
  | nil => rfl
  | cons x xs ih =>
    rw [forall_mem_cons] at hread
    rw [length_cons, readCells, hread.1 off h.1, ih h.2 hread.2]
    rfl

end Buffer

end SystemDesignLabs.Core
