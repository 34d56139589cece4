import Mathlib

/-!
# Ring buffers

A list of cells in which the contents begin at `head` and go on behind the last cell at the first one. A value is put
behind the contents; when all cells are taken it takes the place of the oldest one. So the contents are the last values
that were pushed, as many as there are cells (`contents_push_lastOf`).
-/

namespace SystemDesignLabs.Core

open List

universe u

variable {α : Type u}

/-- The last `n` values of a list. -/
def lastOf (n : Nat) (l : List α) : List α := l.drop (l.length - n)

theorem lastOf_concat {n : Nat} (hn : 0 < n) (l : List α) (x : α) : lastOf n (l ++ [x]) =
    if n ≤ l.length then (lastOf n l).tail ++ [x] else l ++ [x] := by
  rw [lastOf, length_append, length_singleton]
  split
  · next hle =>
    have hsub : l.length + 1 - n = l.length - n + 1 := by omega
    rw [hsub, drop_append_of_le_length (by omega), lastOf, tail_drop]
  · next hlt =>
    have hsub : l.length + 1 - n = 0 := by omega
    rw [hsub, drop_zero]

theorem length_lastOf (n : Nat) (l : List α) : (lastOf n l).length = min n l.length := by
  rw [lastOf, length_drop]
  omega

theorem lastOf_eq_self {n : Nat} {l : List α} (h : l.length ≤ n) : lastOf n l = l := by
  rw [lastOf, Nat.sub_eq_zero_of_le h, drop_zero]

structure RingList (α : Type u) where
  buf : List α
  head : Nat
  count : Nat

namespace RingList

/-- The cell of a value of the contents. -/
def cell (r : RingList α) (i : Nat) : Option α := r.buf[(r.head + i) % r.buf.length]?

/-- The values, the oldest one first. -/
def contents (r : RingList α) : List α := (List.range r.count).filterMap r.cell

/-- Put a value behind the contents. -/
def push (r : RingList α) (x : α) : RingList α :=
  if r.count = r.buf.length then ⟨r.buf.set r.head x, (r.head + 1) % r.buf.length, r.count⟩
  else ⟨r.buf.set ((r.head + r.count) % r.buf.length) x, r.head, r.count + 1⟩

/-- The contents begin in a cell, and there is a cell for each value. -/
structure Ok (r : RingList α) : Prop where
  head : r.head < r.buf.length
  count : r.count ≤ r.buf.length

variable {r : RingList α}

theorem length_buf_push (r : RingList α) (x : α) : (r.push x).buf.length = r.buf.length := by
  rw [push]
  split <;> exact length_set

theorem Ok.push (h : r.Ok) (x : α) : (r.push x).Ok := by
  have hhead := h.head
  have hcount := h.count
  rw [RingList.push]
  split
  · refine ⟨?_, ?_⟩
    · rw [length_set]
      exact Nat.mod_lt _ (by omega)
    · rw [length_set]
      exact hcount
  · refine ⟨?_, ?_⟩
    · rw [length_set]
      exact hhead
    · show r.count + 1 ≤ (r.buf.set _ x).length
      rw [length_set]
      omega

theorem Ok.contents_eq_map (h : r.Ok) : r.contents.map some = (List.range r.count).map r.cell := by
  have hcell : ∀ i ∈ range r.count, ∃ x, r.cell i = some x := by
    intro i _
    have hlt : (r.head + i) % r.buf.length < r.buf.length := Nat.mod_lt _ (Nat.lt_of_le_of_lt (Nat.zero_le _) h.head)
    exact ⟨_, getElem?_eq_getElem hlt⟩
  rw [contents]
  generalize range r.count = l at hcell
  induction l with
  | nil => rfl
  | cons i l ih =>
    obtain ⟨⟨x, hx⟩, hrest⟩ := forall_mem_cons.1 hcell
    rw [filterMap_cons_some hx, map_cons, map_cons, hx, ih hrest]

theorem Ok.length_contents (h : r.Ok) : r.contents.length = r.count := by
  have hlen := congrArg length h.contents_eq_map
  rwa [length_map, length_map, length_range] at hlen

theorem Ok.getElem?_contents (h : r.Ok) {i : Nat} (hi : i < r.count) : r.contents[i]? = r.cell i := by
  have hget := congrArg (·[i]?) h.contents_eq_map
  simp only [getElem?_map, getElem?_range hi, Option.map_some] at hget
  cases hcell : r.contents[i]? with
  | none =>
    have hlt : i < r.contents.length := h.length_contents ▸ hi
    rw [getElem?_eq_getElem hlt] at hcell
    exact nomatch hcell
  | some x =>
    rw [hcell] at hget
    exact Option.some.inj hget

theorem mod_ne {n a i j : Nat} (hij : i < j) (hj : j < i + n) : (a + i) % n ≠ (a + j) % n := by
  intro heq
  have hdvd : n ∣ (a + j) - (a + i) := Nat.dvd_of_mod_eq_zero (Nat.sub_mod_eq_zero_of_mod_eq heq.symm)
  have hle := Nat.le_of_dvd (by omega) hdvd
  omega

/-- A pushed value is behind the contents; the oldest one makes room for it. -/
theorem contents_push (h : r.Ok) (x : α) : (r.push x).contents =
    (if r.count = r.buf.length then r.contents.tail else r.contents) ++ [x] := by
  have hhead := h.head
  have hcount := h.count
  have hok := h.push x
  have hlen := hok.length_contents
  apply ext_getElem?
  intro i
  by_cases hfull : r.count = r.buf.length
  · have hpush : r.push x = ⟨r.buf.set r.head x, (r.head + 1) % r.buf.length, r.count⟩ := by
      rw [push, if_pos hfull]
    have htail : r.contents.tail.length = r.count - 1 := by
      rw [length_tail, h.length_contents]
    rw [if_pos hfull]
    rcases Nat.lt_trichotomy i (r.count - 1) with hi | hi | hi
    · have hcell : (r.push x).cell i = r.cell (i + 1) := by
        have hmod : ((r.head + 1) % r.buf.length + i) % r.buf.length = (r.head + (i + 1)) % r.buf.length := by
          rw [Nat.mod_add_mod, Nat.add_assoc, Nat.add_comm 1 i]
        have hne : r.head ≠ (r.head + (i + 1)) % r.buf.length := by
          have hne' := @mod_ne r.buf.length r.head 0 (i + 1) (by omega) (by omega)
          rwa [Nat.add_zero, Nat.mod_eq_of_lt hhead] at hne'
        rw [hpush, cell, cell]
        simp only [length_set]
        rw [hmod, getElem?_set_ne hne]
      rw [hok.getElem?_contents (by rw [hpush]; show i < r.count; omega), hcell,
        getElem?_append_left (by omega), getElem?_tail, h.getElem?_contents (by omega)]
    · have hcell : (r.push x).cell i = some x := by
        have hmod : ((r.head + 1) % r.buf.length + i) % r.buf.length = r.head := by
          have hsum : r.head + 1 + i = r.head + r.buf.length := by omega
          rw [Nat.mod_add_mod, hsum, Nat.add_mod_right, Nat.mod_eq_of_lt hhead]
        rw [hpush, cell]
        simp only [length_set]
        rw [hmod, getElem?_set_self hhead]
      rw [hok.getElem?_contents (by rw [hpush]; show i < r.count; omega), hcell,
        getElem?_append_right (by omega), htail, hi, Nat.sub_self]
      rfl
    · have hlen' : (r.push x).count = r.count := by rw [hpush]
      rw [getElem?_eq_none (by rw [hlen, hlen']; omega), getElem?_eq_none]
      rw [length_append, htail, length_singleton]
      omega
  · have hpush : r.push x = ⟨r.buf.set ((r.head + r.count) % r.buf.length) x, r.head, r.count + 1⟩ := by
      rw [push, if_neg hfull]
    have hpos : (r.head + r.count) % r.buf.length < r.buf.length := Nat.mod_lt _ (by omega)
    rw [if_neg hfull]
    rcases Nat.lt_trichotomy i r.count with hi | hi | hi
    · have hcell : (r.push x).cell i = r.cell i := by
        have hne : (r.head + r.count) % r.buf.length ≠ (r.head + i) % r.buf.length :=
          (mod_ne hi (by omega)).symm
        rw [hpush, cell, cell]
        simp only [length_set]
        rw [getElem?_set_ne hne]
      rw [hok.getElem?_contents (by rw [hpush]; show i < r.count + 1; omega), hcell,
        getElem?_append_left (by rw [h.length_contents]; exact hi), h.getElem?_contents hi]
    · have hcell : (r.push x).cell i = some x := by
        rw [hpush, cell]
        simp only [length_set]
        rw [hi, getElem?_set_self hpos]
      rw [hok.getElem?_contents (by rw [hpush]; show i < r.count + 1; omega), hcell,
        getElem?_append_right (by rw [h.length_contents]; omega), h.length_contents, hi, Nat.sub_self]
      rfl
    · have hlen' : (r.push x).count = r.count + 1 := by rw [hpush]
      rw [getElem?_eq_none (by rw [hlen, hlen']; omega), getElem?_eq_none]
      rw [length_append, h.length_contents, length_singleton]
      omega

/-- The contents are the last values that were pushed. -/
theorem contents_push_lastOf (h : r.Ok) {l : List α} (hl : r.contents = lastOf r.buf.length l) (x : α) :
    (r.push x).contents = lastOf r.buf.length (l ++ [x]) := by
  have hcount : min r.buf.length l.length = r.count := by
    rw [← length_lastOf, ← hl, h.length_contents]
  have hhead := h.head
  rw [contents_push h, lastOf_concat (by omega), hl]
  by_cases hfull : r.count = r.buf.length
  · rw [if_pos hfull, if_pos (by omega)]
  · rw [if_neg hfull, if_neg (by omega), lastOf_eq_self (by omega)]

end RingList

end SystemDesignLabs.Core
