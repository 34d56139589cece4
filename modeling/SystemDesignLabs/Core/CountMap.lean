import SystemDesignLabs.Core.SortedMap

/-!
# Maps of counts

A map from keys to natural numbers, where a missing key counts zero. `raise` sets an entry to a number
if that is larger, so it only moves up; raising all entries of another map takes the maximum for each
key (`count_raiseAll`). The sum of the entries is the sum of the counts over any finite family of keys
that has them all (`total_eq_sum`).
-/

namespace SystemDesignLabs.Core

open List SortedMap

universe u

/-- A map from keys to counts. -/
abbrev CountMap (K : Type u) [LinearOrder K] := SortedMap K Nat

namespace CountMap

variable {K : Type u} [LinearOrder K]

/-- The count of a key, zero if there is no entry. -/
def count (m : CountMap K) (k : K) : Nat := (SortedMap.get m k).getD 0

/-- Set the entry of a key to `c`, if that is larger. -/
def raise (m : CountMap K) (k : K) (c : Nat) : CountMap K :=
  if count m k < c then SortedMap.insert m k c else m

/-- Raise the entries of all pairs of a list, in order. -/
def raiseAll (m : CountMap K) (l : List (K × Nat)) : CountMap K :=
  l.foldl (fun m p => raise m p.1 p.2) m

/-- The sum of the entries. -/
def total (m : CountMap K) : Nat := (m.entries.map Prod.snd).sum

/-- All keys of the map meet `P`. -/
def KeysIn (P : K → Prop) (m : CountMap K) : Prop := ∀ p ∈ m.entries, P p.1

theorem count_insert (m : CountMap K) (k k' : K) (c : Nat) :
    count (SortedMap.insert m k c) k' = if k' = k then c else count m k' := by
  rw [count, get_insert]
  split
  · rfl
  · rfl

theorem count_raise (m : CountMap K) (k k' : K) (c : Nat) :
    count (raise m k c) k' = if k' = k then max (count m k) c else count m k' := by
  rw [raise]
  split
  · rename_i hlt
    rw [count_insert, max_eq_right hlt.le]
  · rename_i hge
    split
    · rename_i hk
      rw [hk, max_eq_left (not_lt.1 hge)]
    · rfl

/-- The count of a key in a list of pairs. -/
def listCount (l : List (K × Nat)) (k : K) : Nat := (SortedList.find l k).getD 0

/-- Raising all entries takes the maximum for each key. -/
theorem count_raiseAll (m : CountMap K) {l : List (K × Nat)} (hl : SortedList.Sorted l) (k : K) :
    count (raiseAll m l) k = max (count m k) (listCount l k) := by
  induction l generalizing m with
  | nil => exact (Nat.max_zero _).symm
  | cons p l ih =>
    have hp := pairwise_cons.1 hl
    show count (raiseAll (raise m p.1 p.2) l) k = _
    rw [ih _ hp.2, count_raise]
    by_cases hk : k = p.1
    · subst hk
      have hnone : SortedList.find l p.1 = none :=
        SortedList.find_eq_none.2 fun q hq => ne_of_gt (hp.1 q hq)
      rw [if_pos rfl, listCount, listCount, hnone, SortedList.find_cons_self]
      exact Nat.max_zero _
    · rw [if_neg hk, listCount, listCount, SortedList.find_cons_ne (Ne.symm hk)]

variable {m : CountMap K} {P : K → Prop}

theorem keysIn_raise {k : K} {c : Nat} (hm : KeysIn P m) (hk : P k) : KeysIn P (raise m k c) := by
  rw [raise]
  split
  · intro p hp
    obtain rfl | hp := SortedList.mem_insertList hp
    · exact hk
    · exact hm p hp
  · exact hm

theorem keysIn_raiseAll {l : List (K × Nat)} (hm : KeysIn P m) (hl : ∀ p ∈ l, P p.1) : KeysIn P (raiseAll m l) := by
  induction l generalizing m with
  | nil => exact hm
  | cons p l ih =>
    obtain ⟨hp, hl⟩ := forall_mem_cons.1 hl
    exact ih (keysIn_raise hm hp) hl

theorem count_eq_zero (hm : KeysIn P m) {k : K} (hk : ¬ P k) : count m k = 0 := by
  have hnone : get m k = none := by
    apply SortedList.find_eq_none.2
    intro p hp heq
    exact hk (heq ▸ hm p hp)
  rw [count, hnone]
  rfl

theorem total_eq_sum_keys (m : CountMap K) : total m = ∑ k ∈ (m.entries.map Prod.fst).toFinset, count m k := by
  rw [sum_toFinset _ (nodup_keys m), map_map, total]
  congr 1
  apply map_congr_left
  intro p hp
  have hget : get m p.1 = some p.2 := mem_entries_iff.1 hp
  show p.2 = count m p.1
  rw [count, hget]
  rfl

/-- The sum of the entries, over a finite family that has all keys. -/
theorem total_eq_sum {ι : Type u} [Fintype ι] {key : ι → K} (hinj : Function.Injective key)
    (hm : KeysIn (fun k => ∃ i, key i = k) m) : total m = ∑ i, count m (key i) := by
  have hmap := Finset.sum_map Finset.univ ⟨key, hinj⟩ fun k => count m k
  rw [total_eq_sum_keys]
  refine Eq.trans ?_ hmap
  apply Finset.sum_subset
  · intro k hk
    obtain ⟨p, hp, rfl⟩ := mem_map.1 (mem_toFinset.1 hk)
    obtain ⟨i, hi⟩ := hm p hp
    exact Finset.mem_map.2 ⟨i, Finset.mem_univ i, hi⟩
  · intro k _ hk
    have hkeys : KeysIn (fun k => k ∈ m.entries.map Prod.fst) m :=
      fun p hp => mem_map_of_mem hp
    exact count_eq_zero hkeys fun h => hk (mem_toFinset.2 h)

end CountMap

/-!
## Lists grouped by a key

`groupBy` collects the values of a list under their keys, in the order of the list. What is stored under a key
are the values of the elements that have it (`getD_get_groupBy`), and the groups of all keys together are
a permutation of the list (`perm_flatMap_having`).
-/

universe v w

variable {K : Type u} [LinearOrder K] {V : Type v} {E : Type w}

/-- Append a value to the list of its key. -/
def pushAt (m : SortedMap K (List V)) (k : K) (x : V) : SortedMap K (List V) :=
  m.insert k ((m.get k).getD [] ++ [x])

def groupBy (key : E → K) (value : E → V) (l : List E) : SortedMap K (List V) :=
  l.foldl (fun m e => pushAt m (key e) (value e)) .empty

/-- The elements that have this key. -/
def having (key : E → K) (l : List E) (k : K) : List E := l.filter fun e => decide (key e = k)

section

variable {key : E → K} {value : E → V} {l : List E} {k : K}

theorem groupBy_concat (e : E) : groupBy key value (l ++ [e]) = pushAt (groupBy key value l) (key e) (value e) := by
  rw [groupBy, foldl_append]
  rfl

theorem mem_having {e : E} : e ∈ having key l k ↔ e ∈ l ∧ key e = k := by
  rw [having, mem_filter, decide_eq_true_iff]

/-- What is stored under a key. -/
theorem get_groupBy : (groupBy key value l).get k =
    if having key l k = [] then none else some ((having key l k).map value) := by
  induction l using reverseRecOn with
  | nil => rfl
  | append_singleton l e ih =>
    rw [groupBy_concat, pushAt, SortedMap.get_insert]
    by_cases hk : key e = k
    · subst hk
      have hhaving : having key (l ++ [e]) (key e) = having key l (key e) ++ [e] := by
        rw [having, filter_append, filter_singleton, decide_eq_true rfl]
        rfl
      rw [if_pos rfl, ih, hhaving, if_neg (append_ne_nil_of_right_ne_nil _ (cons_ne_nil _ _)), map_append]
      split
      · rename_i hnil
        rw [hnil]
        rfl
      · rfl
    · have hhaving : having key (l ++ [e]) k = having key l k := by
        rw [having, filter_append, filter_singleton, decide_eq_false hk]
        exact append_nil _
      rw [if_neg (Ne.symm hk), ih, hhaving]

theorem mem_entries_groupBy {p : K × List V} :
    p ∈ (groupBy key value l).entries ↔ p.2 = (having key l p.1).map value ∧ ∃ e ∈ l, key e = p.1 := by
  have hsome : (∃ e ∈ l, key e = p.1) ↔ having key l p.1 ≠ [] := by
    constructor
    · rintro ⟨e, he, hk⟩ hnil
      have := mem_having.2 ⟨he, hk⟩
      rw [hnil] at this
      exact nomatch this
    · intro hne
      obtain ⟨e, he⟩ := exists_mem_of_ne_nil _ hne
      exact ⟨e, mem_having.1 he⟩
  rw [← Prod.mk.eta (p := p), SortedMap.mem_entries_iff, get_groupBy, hsome]
  constructor
  · intro h
    split at h
    · exact nomatch h
    · exact ⟨(Option.some.inj h).symm, ‹_›⟩
  · rintro ⟨hp, hne⟩
    rw [if_neg hne, hp]

/-- The groups of all keys are a permutation of the list. -/
theorem perm_flatMap_having {ks : List K} (hks : ks.Nodup) (h : ∀ e ∈ l, key e ∈ ks) :
    (ks.flatMap (having key l)).Perm l := by
  induction ks generalizing l with
  | nil =>
    cases l with
    | nil => exact .refl _
    | cons e l => exact nomatch h e mem_cons_self
  | cons k ks ih =>
    obtain ⟨hk, hks⟩ := nodup_cons.1 hks
    -- the elements with other keys
    have hrest := ih (l := l.filter fun e => !decide (key e = k)) hks (fun e he => by
      obtain ⟨he, hne⟩ := mem_filter.1 he
      exact (mem_cons.1 (h e he)).resolve_left (by simpa using hne))
    have hsame : ks.flatMap (having key l) = ks.flatMap (having key (l.filter fun e => !decide (key e = k))) := by
      refine flatMap_congr fun k' hk' => ?_
      rw [having, having, filter_filter]
      refine filter_congr fun e _ => ?_
      by_cases hkey : key e = k'
      · have hne : key e ≠ k := fun heq => hk (heq ▸ hkey.symm ▸ hk')
        simp [hkey, hkey ▸ hne]
      · simp [hkey]
    rw [flatMap_cons, hsame]
    exact (hrest.append_left _).trans (filter_append_perm _ l)

end

end SystemDesignLabs.Core
