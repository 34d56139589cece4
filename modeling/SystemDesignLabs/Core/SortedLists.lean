import Mathlib

/-!
# Binary search for a boundary

`search n f` is the binary search for an index below `n` at which the test `f` becomes true. The loop
keeps a test that fails just below its left end and one that succeeds at its right end, so that whatever
`f` is the result is a boundary (`search_boundary`).
-/

namespace SystemDesignLabs.Core

/-- The loop on the interval from `i` to `j`; it ends within `j - i` rounds. -/
def searchLoop (f : Nat → Bool) : Nat → Nat → Nat → Nat
  | 0, i, _ => i
  | fuel + 1, i, j =>
    if i < j then
      let h := (i + j) / 2
      if f h then searchLoop f fuel i h else searchLoop f fuel (h + 1) j
    else i

/-- The least index below `n` at which a monotone test succeeds, or `n`. -/
def search (n : Nat) (f : Nat → Bool) : Nat := searchLoop f n 0 n

/-- `r` is a boundary of the test below `n`: it fails just before `r` and succeeds at `r`. -/
structure Boundary (f : Nat → Bool) (n r : Nat) : Prop where
  le : r ≤ n
  before : ∀ i, r = i + 1 → f i = false
  at_ : r < n → f r = true

theorem searchLoop_boundary {f : Nat → Bool} {n : Nat} (fuel i j : Nat) (hfuel : j - i ≤ fuel)
    (hij : i ≤ j) (hj : j ≤ n) (hlow : ∀ k, i = k + 1 → f k = false) (hhigh : j < n → f j = true) :
    Boundary f n (searchLoop f fuel i j) := by
  induction fuel generalizing i j with
  | zero =>
    have heq : i = j := by omega
    subst heq
    exact ⟨hj, hlow, hhigh⟩
  | succ fuel ih =>
    rw [searchLoop]
    by_cases hlt : i < j
    · rw [if_pos hlt]
      have hmid : i ≤ (i + j) / 2 ∧ (i + j) / 2 < j := by omega
      dsimp only
      cases hf : f ((i + j) / 2) with
      | true =>
        rw [if_pos rfl]
        exact ih i _ (by omega) hmid.1 (by omega) hlow fun _ => hf
      | false =>
        rw [if_neg Bool.false_ne_true]
        refine ih _ j (by omega) (by omega) hj ?_ hhigh
        intro k hk
        obtain rfl : (i + j) / 2 = k := Nat.succ.inj hk
        exact hf
    · rw [if_neg hlt]
      have heq : i = j := by omega
      subst heq
      exact ⟨hj, hlow, hhigh⟩

/-- The search ends at a boundary. -/
theorem search_boundary (n : Nat) (f : Nat → Bool) : Boundary f n (search n f) :=
  searchLoop_boundary n 0 n (Nat.le_refl _) (Nat.zero_le _) (Nat.le_refl _)
    (fun _ h => absurd h (Nat.succ_ne_zero _).symm) (fun h => absurd h (Nat.lt_irrefl _))

/-!
## Clockwise successors

Positions of a linear order, read as a circle. The successor of a point `h` is the least position from
`h` on, and the least position overall where there is none. Some positions are owned (`Owns`): a point
belongs to the owner of its successor. Taking away positions of one owner moves only points of that owner
(`Owns.of_larger`), whichever positions they are; read backwards this is what adding positions does.

`search_successor` is the binary search that finds the successor in a sorted list.
-/

open List

universe u v

variable {α : Type u} {β : Type v} [LinearOrder α]

/-- Going clockwise from `h`, the position `p` does not come after `q`. -/
def Clockwise (h p q : α) : Prop := (h ≤ p ∧ (h ≤ q → p ≤ q)) ∨ (p < h ∧ q < h ∧ p ≤ q)

/-- `p` is the first of the positions going clockwise from `h`. -/
structure IsSuccessor (S : Set α) (h p : α) : Prop where
  mem : p ∈ S
  first : ∀ q ∈ S, Clockwise h p q

theorem IsSuccessor.unique {S : Set α} {h p q : α} (hp : IsSuccessor S h p) (hq : IsSuccessor S h q) : p = q := by
  rcases hp.first q hq.mem with ⟨hhp, hpq⟩ | ⟨hph, hqh, hpq⟩
  · rcases hq.first p hp.mem with ⟨hhq, hqp⟩ | ⟨-, hph, -⟩
    · exact le_antisymm (hpq hhq) (hqp hhp)
    · exact absurd hhp (not_le.2 hph)
  · rcases hq.first p hp.mem with ⟨hhq, -⟩ | ⟨-, -, hqp⟩
    · exact absurd hhq (not_le.2 hqh)
    · exact le_antisymm hpq hqp

theorem IsSuccessor.mono {S T : Set α} {h p : α} (hp : IsSuccessor S h p) (hsub : T ⊆ S) (hmem : p ∈ T) :
    IsSuccessor T h p :=
  ⟨hmem, fun q hq => hp.first q (hsub hq)⟩

/-! ### Owners -/

/-- The point `h` belongs to `x`: `x` owns the successor of `h` among the owned positions. -/
def Owns (owner : α → Option β) (h : α) (x : β) : Prop :=
  ∃ p, IsSuccessor {q | (owner q).isSome} h p ∧ owner p = some x

/-- Taking away positions of one owner moves only points of that owner. -/
theorem Owns.of_larger {owner owner' : α → Option β} {x : β} (hsame : ∀ q, owner q = owner' q ∨ owner q = some x)
    (hdom : ∀ q, (owner' q).isSome → (owner q).isSome) {h : α} {y : β} (hy : Owns owner h y) :
    y = x ∨ Owns owner' h y := by
  obtain ⟨p, hp, hpy⟩ := hy
  rcases hsame p with heq | hx
  · have hpy' : owner' p = some y := heq.symm.trans hpy
    refine .inr ⟨p, hp.mono hdom ?_, hpy'⟩
    exact Option.isSome_iff_exists.2 ⟨y, hpy'⟩
  · exact .inl (Option.some.inj (hpy.symm.trans hx))

/-! ### Finding a successor -/

/-- The test of the search for the first position from `h` on. -/
def fromOn (l : List α) (h : α) (i : Nat) : Bool := l[i]?.any fun p => decide (p ≥ h)

variable {l : List α}

theorem fromOn_eq_true {h : α} {i : Nat} (hi : i < l.length) : fromOn l h i = true ↔ h ≤ l[i] := by
  simp [fromOn, getElem?_eq_getElem hi]

theorem search_fromOn (hl : l.Pairwise (· ≤ ·)) (h : α) {i : Nat} (hi : i < l.length) :
    h ≤ l[i] ↔ search l.length (fromOn l h) ≤ i := by
  have hb := search_boundary l.length (fromOn l h)
  generalize search l.length (fromOn l h) = r at hb ⊢
  have hmono : ∀ {a b : Nat} (hab : a ≤ b) (hb : b < l.length), l[a] ≤ l[b] :=
    fun {a b} hab hb => Pairwise.rel_get_of_le (a := ⟨a, hab.trans_lt hb⟩) (b := ⟨b, hb⟩) hl hab
  constructor
  · intro hle
    by_contra hlt
    -- the position just before the boundary fails the test, and it is not below the position `i`
    obtain ⟨k, rfl⟩ : ∃ k, r = k + 1 := ⟨r - 1, by omega⟩
    have hk : k < l.length := hb.le
    have hfail := hb.before k rfl
    rw [← Bool.not_eq_true, fromOn_eq_true hk] at hfail
    exact hfail (hle.trans (hmono (by omega) hk))
  · intro hri
    have hr : r < l.length := by omega
    exact ((fromOn_eq_true hr).1 (hb.at_ hr)).trans (hmono hri hi)

/-- The binary search, wrapped around at the end, finds the successor. -/
theorem search_successor (hl : l.Pairwise (· ≤ ·)) (hne : l ≠ []) (h : α) :
    ∃ p, l[if search l.length (fromOn l h) = l.length then 0 else search l.length (fromOn l h)]? = some p ∧
      IsSuccessor {q | q ∈ l} h p := by
  have hlen : 0 < l.length := length_pos_iff.2 hne
  have hle : search l.length (fromOn l h) ≤ l.length := (search_boundary l.length (fromOn l h)).le
  have hsplit := fun {i : Nat} (hi : i < l.length) => search_fromOn hl h hi
  generalize search l.length (fromOn l h) = r at hle hsplit ⊢
  have hmono : ∀ {a b : Nat} (hab : a ≤ b) (hb : b < l.length), l[a] ≤ l[b] :=
    fun {a b} hab hb => Pairwise.rel_get_of_le (a := ⟨a, hab.trans_lt hb⟩) (b := ⟨b, hb⟩) hl hab
  split
  · rename_i hr
    refine ⟨l[0], getElem?_eq_getElem hlen, getElem_mem hlen, ?_⟩
    intro q hq
    obtain ⟨i, hi, rfl⟩ := mem_iff_getElem.1 hq
    have hbelow : ∀ {j : Nat} (hj : j < l.length), l[j] < h :=
      fun hj => lt_of_not_ge fun hge => by have := (hsplit hj).1 hge; omega
    exact .inr ⟨hbelow hlen, hbelow hi, hmono (Nat.zero_le i) hi⟩
  · have hr : r < l.length := by omega
    refine ⟨l[r], getElem?_eq_getElem hr, getElem_mem hr, ?_⟩
    intro q hq
    obtain ⟨i, hi, rfl⟩ := mem_iff_getElem.1 hq
    refine .inl ⟨(hsplit hr).2 le_rfl, fun hge => ?_⟩
    exact hmono ((hsplit hi).1 hge) hi

/-!
## Sorting by a key and dropping equal keys

`sortByKey` is the stable sort by a key, `dedupByKey` drops an element whose key equals that of the last one kept.
Together they keep one element for each key, in increasing order of the keys.
-/

variable {α : Type u} {K : Type v} [LinearOrder K] (key : α → K)

/-- Elements with equal keys keep their order. -/
def sortByKey (l : List α) : List α := l.insertionSort fun a b => key a ≤ key b

/-- Of consecutive elements with equal keys the first is kept. -/
def dedupByKey (l : List α) : List α := l.destutter fun a b => key a ≠ key b

variable {l : List α}

theorem mem_sortByKey {a : α} : a ∈ sortByKey key l ↔ a ∈ l :=
  mem_insertionSort _

theorem pairwise_sortByKey (l : List α) : (sortByKey key l).Pairwise fun a b => key a ≤ key b := by
  have htotal : Std.Total fun a b : α => key a ≤ key b := ⟨fun a b => le_total (key a) (key b)⟩
  have htrans : IsTrans α fun a b => key a ≤ key b := ⟨fun _ _ _ => le_trans⟩
  exact pairwise_insertionSort _ l

theorem mem_of_mem_dedupByKey {a : α} (h : a ∈ dedupByKey key l) : a ∈ l :=
  (destutter_sublist _ l).subset h

theorem pairwise_dedupByKey (hl : l.Pairwise fun a b => key a ≤ key b) :
    (dedupByKey key l).Pairwise fun a b => key a < key b := by
  have hle : (dedupByKey key l).Pairwise fun a b => key a ≤ key b :=
    hl.sublist (destutter_sublist _ l)
  have hne : (dedupByKey key l).IsChain fun a b => key a ≠ key b :=
    isChain_destutter (fun a b => key a ≠ key b) l
  have htrans : IsTrans α fun a b => key a < key b := ⟨fun _ _ _ => lt_trans⟩
  apply isChain_iff_pairwise.1
  generalize dedupByKey key l = l' at hle hne
  induction l' with
  | nil => exact .nil
  | cons a l' ih =>
    obtain ⟨hhead, hle⟩ := pairwise_cons.1 hle
    cases l' with
    | nil => exact .singleton a
    | cons b l' =>
      obtain ⟨hab, hne⟩ := isChain_cons_cons.1 hne
      exact .cons_cons (lt_of_le_of_ne (hhead b mem_cons_self) hab) (ih hle hne)

theorem exists_mem_dedupByKey {a : α} (h : a ∈ l) : ∃ b ∈ dedupByKey key l, key b = key a := by
  have hfrom : ∀ (l : List α) (c : α), a ∈ c :: l →
      ∃ b ∈ l.destutter' (fun a b => key a ≠ key b) c, key b = key a := by
    intro l
    induction l with
    | nil => exact fun c hc => ⟨a, hc, rfl⟩
    | cons d l ih =>
      intro c hc
      by_cases hcd : key c ≠ key d
      · rw [destutter'_cons_pos l hcd]
        rcases mem_cons.1 hc with rfl | hc
        · exact ⟨a, mem_cons_self, rfl⟩
        · obtain ⟨b, hb, hkey⟩ := ih d hc
          exact ⟨b, mem_cons_of_mem _ hb, hkey⟩
      · -- `d` goes, and `c` stands for its key
        rw [destutter'_cons_neg l hcd]
        have hsame : key c = key d := not_not.1 hcd
        rcases mem_cons.1 hc with rfl | hc
        · exact ih a mem_cons_self
        · rcases mem_cons.1 hc with rfl | hc
          · obtain ⟨b, hb, hkey⟩ : ∃ b ∈ l.destutter' (fun a b => key a ≠ key b) c, key b = key c :=
              ⟨c, mem_destutter' _ _ c, rfl⟩
            exact ⟨b, hb, hkey.trans hsame⟩
          · exact ih c (mem_cons_of_mem _ hc)
  cases l with
  | nil => exact absurd h not_mem_nil
  | cons c l => exact hfrom l c h

end SystemDesignLabs.Core
