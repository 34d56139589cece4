import Mathlib

/-!
# Sorted association lists

A sorted map is a list of key/value pairs with strictly increasing keys. The list functions `find`,
`insertList` and `eraseList` come first, with lemmas that need the order only where it matters;
`SortedMap` packs a list with the proof of its order, so that an unsorted map cannot be built. Two
sorted maps with the same answers are equal (`SortedMap.ext_get`).
-/

namespace SystemDesignLabs.Core

open List Option

universe u v w

variable {K : Type u} {V : Type v} [LinearOrder K]

namespace SortedList

/-- The value of the first pair with the given key. -/
def find : List (K × V) → K → Option V
  | [], _ => none
  | p :: rest, k => if p.1 = k then some p.2 else find rest k

/-- Insert into a sorted list, replacing the value of an equal key. -/
def insertList (k : K) (x : V) : List (K × V) → List (K × V)
  | [] => [(k, x)]
  | p :: rest =>
    if k < p.1 then (k, x) :: p :: rest
    else if k = p.1 then (k, x) :: rest
    else p :: insertList k x rest

/-- Remove a key. -/
def eraseList (k : K) (l : List (K × V)) : List (K × V) := l.filter (·.1 ≠ k)

/-- The keys increase strictly. -/
abbrev Sorted (l : List (K × V)) : Prop := l.Pairwise fun p q => p.1 < q.1

@[simp] theorem find_nil (k : K) : find ([] : List (K × V)) k = none := rfl

theorem find_cons_self (p : K × V) (l : List (K × V)) : find (p :: l) p.1 = some p.2 := if_pos rfl

variable {l : List (K × V)} {p : K × V}

variable {k : K}

theorem find_cons_ne (h : p.1 ≠ k) : find (p :: l) k = find l k := if_neg h

theorem find_append (l l' : List (K × V)) (k : K) : find (l ++ l') k = (find l k).or (find l' k) := by
  induction l with
  | nil => simp
  | cons p l ih =>
    by_cases h : p.1 = k
    · subst h
      rw [cons_append, find_cons_self, find_cons_self]
      rfl
    · rw [cons_append, find_cons_ne h, find_cons_ne h, ih]

theorem find_eq_none : find l k = none ↔ ∀ p ∈ l, p.1 ≠ k := by
  induction l with
  | nil => simp
  | cons p l ih =>
    by_cases h : p.1 = k
    · subst h
      rw [find_cons_self]
      simp
    · rw [find_cons_ne h, ih]
      simp [h]

theorem mem_of_find {x : V} (h : find l k = some x) : (k, x) ∈ l := by
  induction l with
  | nil => exact absurd h (by simp)
  | cons p l ih =>
    by_cases hk : p.1 = k
    · subst hk
      rw [find_cons_self] at h
      cases h
      exact mem_cons_self
    · rw [find_cons_ne hk] at h
      exact mem_cons_of_mem _ (ih h)

theorem find_of_mem (hl : Sorted l) (h : p ∈ l) : find l p.1 = some p.2 := by
  induction l with
  | nil => exact absurd h (by simp)
  | cons q l ih =>
    have hq := pairwise_cons.1 hl
    rcases mem_cons.1 h with rfl | h'
    · exact find_cons_self _ _
    · rw [find_cons_ne (ne_of_lt (hq.1 p h'))]
      exact ih hq.2 h'

theorem mem_iff_find (hl : Sorted l) {x : V} : (k, x) ∈ l ↔ find l k = some x :=
  ⟨fun h => find_of_mem hl h, mem_of_find⟩

theorem find_of_lt (hl : Sorted (p :: l)) (h : k < p.1) : find (p :: l) k = none := by
  rw [find_eq_none]
  intro q hq
  rcases mem_cons.1 hq with rfl | hq'
  · exact ne_of_gt h
  · exact ne_of_gt (lt_trans h ((pairwise_cons.1 hl).1 q hq'))

theorem mem_insertList {x : V} (h : p ∈ insertList k x l) : p = (k, x) ∨ p ∈ l := by
  induction l with
  | nil => exact Or.inl (mem_singleton.1 h)
  | cons q l ih =>
    rw [insertList] at h
    split at h
    · exact mem_cons.1 h
    · split at h
      · rcases mem_cons.1 h with h | h
        · exact Or.inl h
        · exact Or.inr (mem_cons_of_mem _ h)
      · rcases mem_cons.1 h with rfl | h
        · exact Or.inr mem_cons_self
        · exact (ih h).imp_right (mem_cons_of_mem _)

theorem sorted_insertList (k : K) (x : V) (hl : Sorted l) : Sorted (insertList k x l) := by
  induction l with
  | nil => exact pairwise_singleton _ _
  | cons p l ih =>
    have hp := pairwise_cons.1 hl
    rw [insertList]
    split
    case isTrue hlt =>
      refine pairwise_cons.2 ⟨fun q hq => ?_, hl⟩
      rcases mem_cons.1 hq with rfl | hq
      · exact hlt
      · exact lt_trans hlt (hp.1 q hq)
    case isFalse hge =>
      split
      case isTrue heq =>
        refine pairwise_cons.2 ⟨fun q hq => ?_, hp.2⟩
        rw [heq]
        exact hp.1 q hq
      case isFalse hne =>
        refine pairwise_cons.2 ⟨fun q hq => ?_, ih hp.2⟩
        rcases mem_insertList hq with rfl | hq
        · exact lt_of_le_of_ne (not_lt.1 hge) (Ne.symm hne)
        · exact hp.1 q hq

theorem find_insertList (k : K) (x : V) (l : List (K × V)) (k' : K) :
    find (insertList k x l) k' = if k' = k then some x else find l k' := by
  induction l with
  | nil =>
    by_cases h : k' = k
    · subst h
      simp [insertList, find]
    · simp [insertList, find, h, Ne.symm h]
  | cons p l ih =>
    rw [insertList]
    split
    case isTrue hlt =>
      by_cases h : k' = k
      · subst h
        simp [find]
      · simp [find, h, Ne.symm h]
    case isFalse hge =>
      split
      case isTrue heq =>
        subst heq
        by_cases h : k' = p.1
        · subst h
          simp [find]
        · simp [find, h, Ne.symm h]
      case isFalse hne =>
        by_cases h : p.1 = k'
        · subst h
          rw [find_cons_self, find_cons_self, if_neg (Ne.symm hne)]
        · rw [find_cons_ne h, find_cons_ne h, ih]

theorem length_insertList (k : K) (x : V) (hl : Sorted l) :
    (insertList k x l).length = if (find l k).isSome then l.length else l.length + 1 := by
  induction l with
  | nil => rfl
  | cons p rest ih =>
    rw [insertList]
    split
    · rename_i hlt
      rw [find_of_lt hl hlt]
      rfl
    · rename_i hge
      split
      · rename_i heq
        subst heq
        rw [find_cons_self]
        rfl
      · rename_i hne
        rw [length_cons, ih (pairwise_cons.1 hl).2, find_cons_ne (Ne.symm hne), length_cons]
        split <;> rfl

theorem sorted_eraseList (k : K) (hl : Sorted l) : Sorted (eraseList k l) :=
  Pairwise.filter _ hl

theorem find_filter {f : K × V → Bool} (hl : Sorted l) (k : K) :
    find (l.filter f) k = (find l k).filter fun x => f (k, x) := by
  induction l with
  | nil => rfl
  | cons p l ih =>
    have hp := List.pairwise_cons.1 hl
    have hnone : find l p.1 = none := find_eq_none.2 fun q hq => ne_of_gt (hp.1 q hq)
    rw [List.filter_cons]
    by_cases h : p.1 = k
    · subst h
      split
      case isTrue hf =>
        rw [find_cons_self, find_cons_self]
        simp [Option.filter, hf]
      case isFalse hf =>
        rw [ih hp.2, hnone, find_cons_self]
        simp [Option.filter, hf]
    · rw [find_cons_ne h]
      split
      · rw [find_cons_ne h, ih hp.2]
      · exact ih hp.2

theorem find_eraseList (k : K) (l : List (K × V)) (hl : Sorted l) (k' : K) :
    find (eraseList k l) k' = if k' = k then none else find l k' := by
  rw [eraseList, find_filter hl]
  by_cases h : k' = k
  · subst h
    cases find l k' <;> simp [filter]
  · cases find l k' <;> simp [filter, h]

theorem insertList_append_left (x : V) {a : List (K × V)} (l : List (K × V)) (ha : ∀ p ∈ a, p.1 < k) :
    insertList k x (a ++ l) = a ++ insertList k x l := by
  induction a with
  | nil => rfl
  | cons p a ih =>
    rw [forall_mem_cons] at ha
    rw [cons_append, insertList, if_neg (lt_asymm ha.1), if_neg (ne_of_gt ha.1), ih ha.2]
    rfl

theorem insertList_append_right (x : V) (l : List (K × V)) {b : List (K × V)} (hb : ∀ p ∈ b, k < p.1) :
    insertList k x (l ++ b) = insertList k x l ++ b := by
  induction l with
  | nil =>
    cases b with
    | nil => rfl
    | cons p b => exact if_pos (hb p mem_cons_self)
  | cons p l ih =>
    rw [cons_append, insertList, insertList]
    split
    · rfl
    · split
      · rfl
      · rw [ih, cons_append]

theorem sorted_mapEntries {W : Type w} (f : K → V → W) (hl : Sorted l) :
    Sorted (l.map fun p => (p.1, f p.1 p.2)) := pairwise_map.2 hl

theorem find_mapEntries {W : Type w} (f : K → V → W) (l : List (K × V)) (k : K) :
    find (l.map fun p => (p.1, f p.1 p.2)) k = (find l k).map (f k) := by
  induction l with
  | nil => rfl
  | cons p l ih =>
    rw [map_cons, find, find, ih]
    split
    case isTrue h =>
      rw [h]
      rfl
    case isFalse => rfl

theorem find_eq_find? (l : List (K × V)) (k : K) : find l k = (l.find? fun p => p.1 = k).map Prod.snd := by
  induction l with
  | nil => rfl
  | cons p l ih =>
    rw [find, find?_cons]
    by_cases h : p.1 = k
    · rw [if_pos h, decide_eq_true h]
      rfl
    · rw [if_neg h, decide_eq_false h]
      exact ih

theorem ext_find {l' : List (K × V)} (hl : Sorted l) (hl' : Sorted l') (h : ∀ k, find l k = find l' k) : l = l' := by
  have hmem : ∀ p, p ∈ l ↔ p ∈ l' := fun p => by
    rw [mem_iff_find hl, mem_iff_find hl', h]
  have hnd : l.Nodup := hl.imp fun hlt heq => absurd (congrArg Prod.fst heq) (ne_of_lt hlt)
  have hnd' : l'.Nodup := hl'.imp fun hlt heq => absurd (congrArg Prod.fst heq) (ne_of_lt hlt)
  have hperm : l.Perm l' := (perm_ext_iff_of_nodup hnd hnd').2 hmem
  exact hperm.eq_of_pairwise (fun p q _ _ h1 h2 => absurd h1 (lt_asymm h2)) hl hl'

end SortedList

open SortedList

/-- A list of pairs with strictly increasing keys. -/
structure SortedMap (K : Type u) (V : Type v) [LinearOrder K] where
  entries : List (K × V)
  sorted : Sorted entries

namespace SortedMap

instance [DecidableEq V] : DecidableEq (SortedMap K V) := fun m m' =>
  decidable_of_iff (m.entries = m'.entries) ⟨fun h => by cases m; cases m'; cases h; rfl,
    congrArg entries⟩

/-- The empty map. -/
def empty : SortedMap K V := ⟨[], List.Pairwise.nil⟩

/-- The value of a key. -/
def get (m : SortedMap K V) (k : K) : Option V := find m.entries k

/-- Insert a pair, replacing the value of an equal key. -/
def insert (m : SortedMap K V) (k : K) (x : V) : SortedMap K V :=
  ⟨insertList k x m.entries, sorted_insertList k x m.sorted⟩

/-- Remove a key. -/
def erase (m : SortedMap K V) (k : K) : SortedMap K V :=
  ⟨eraseList k m.entries, sorted_eraseList k m.sorted⟩

/-- Keep the pairs that pass a test. -/
def filter (m : SortedMap K V) (f : K × V → Bool) : SortedMap K V :=
  ⟨m.entries.filter f, List.Pairwise.filter _ m.sorted⟩

/-- Insert all pairs of a list, in order. -/
def insertAll (m : SortedMap K V) (l : List (K × V)) : SortedMap K V :=
  l.foldl (fun m p => m.insert p.1 p.2) m

/-- Apply a function to every value; it also sees the key. -/
def mapEntries {W : Type w} (m : SortedMap K V) (f : K → V → W) : SortedMap K W :=
  ⟨m.entries.map fun p => (p.1, f p.1 p.2), sorted_mapEntries f m.sorted⟩

/-- Apply a function to the value of a key, if the key is there. -/
def adjust (m : SortedMap K V) (k : K) (f : V → V) : SortedMap K V :=
  match m.get k with
  | some x => m.insert k (f x)
  | none => m

/-- Remove all keys of a list. -/
def eraseAll (m : SortedMap K V) (l : List K) : SortedMap K V := l.foldl erase m

@[simp] theorem get_empty (k : K) : (empty : SortedMap K V).get k = none := rfl

theorem get_insert (m : SortedMap K V) (k : K) (x : V) (k' : K) :
    (m.insert k x).get k' = if k' = k then some x else m.get k' :=
  find_insertList k x m.entries k'

theorem get_erase (m : SortedMap K V) (k k' : K) : (m.erase k).get k' = if k' = k then none else m.get k' :=
  find_eraseList k m.entries m.sorted k'

theorem get_filter (m : SortedMap K V) (f : K × V → Bool) (k : K) :
    (m.filter f).get k = (m.get k).filter fun x => f (k, x) :=
  find_filter m.sorted k

variable {m : SortedMap K V} {k : K} {x : V}

theorem mem_entries_iff : (k, x) ∈ m.entries ↔ m.get k = some x := mem_iff_find m.sorted

variable {l : List (K × V)}

theorem get_insertAll (m : SortedMap K V) (hl : Sorted l) (k : K) :
    (m.insertAll l).get k = (find l k).or (m.get k) := by
  induction l generalizing m with
  | nil => rfl
  | cons p l ih =>
    have hp := pairwise_cons.1 hl
    show ((m.insert p.1 p.2).insertAll l).get k = _
    rw [ih _ hp.2, get_insert]
    by_cases h : p.1 = k
    · subst h
      have hnone : find l p.1 = none := find_eq_none.2 fun q hq => ne_of_gt (hp.1 q hq)
      rw [hnone, find_cons_self, if_pos rfl]
      rfl
    · rw [find_cons_ne h, if_neg (Ne.symm h)]

theorem length_insert (m : SortedMap K V) (k : K) (x : V) :
    (m.insert k x).entries.length = if (m.get k).isSome then m.entries.length else m.entries.length + 1 :=
  length_insertList k x m.sorted

theorem length_erase_le (m : SortedMap K V) (k : K) : (m.erase k).entries.length ≤ m.entries.length :=
  length_filter_le _ _

theorem get_insertAll_of_ne (m : SortedMap K V) (h : ∀ p ∈ l, p.1 ≠ k) :
    (m.insertAll l).get k = m.get k := by
  induction l generalizing m with
  | nil => rfl
  | cons p l ih =>
    obtain ⟨hp, hl⟩ := forall_mem_cons.1 h
    show ((m.insert p.1 p.2).insertAll l).get k = _
    rw [ih _ hl, get_insert, if_neg (Ne.symm hp)]

theorem get_insertAll_of_mem (m : SortedMap K V) (hmem : (k, x) ∈ l) (h : ∀ y, (k, y) ∈ l → y = x) :
    (m.insertAll l).get k = some x := by
  induction l generalizing m with
  | nil => exact absurd hmem not_mem_nil
  | cons p l ih =>
    show ((m.insert p.1 p.2).insertAll l).get k = _
    by_cases hlater : ∃ y, (k, y) ∈ l
    · obtain ⟨y, hy⟩ := hlater
      have heq : y = x := h y (mem_cons_of_mem p hy)
      subst heq
      exact ih _ hy fun z hz => h z (mem_cons_of_mem p hz)
    · have hne : ∀ q ∈ l, q.1 ≠ k := by
        rintro ⟨k', y⟩ hq rfl
        exact hlater ⟨y, hq⟩
      rw [get_insertAll_of_ne _ hne, get_insert]
      rcases mem_cons.1 hmem with rfl | hmem
      · exact if_pos rfl
      · exact absurd ⟨x, hmem⟩ hlater

theorem get_eraseAll (m : SortedMap K V) (l : List K) (k : K) :
    (m.eraseAll l).get k = if k ∈ l then none else m.get k := by
  induction l generalizing m with
  | nil => simp [eraseAll]
  | cons a l ih =>
    show ((m.erase a).eraseAll l).get k = _
    rw [ih, get_erase]
    by_cases h : k = a
    · simp [h]
    · simp [h]

variable {W : Type w}

theorem get_mapEntries (m : SortedMap K V) (f : K → V → W) (k : K) : (m.mapEntries f).get k = (m.get k).map (f k) :=
  find_mapEntries f m.entries k

theorem get_adjust (m : SortedMap K V) (k : K) (f : V → V) (k' : K) :
    (m.adjust k f).get k' = if k' = k then (m.get k').map f else m.get k' := by
  rw [adjust]
  by_cases h : k' = k
  · subst h
    rw [if_pos rfl]
    cases hk : m.get k' with
    | none => rw [hk]; rfl
    | some x => rw [get_insert, if_pos rfl]; rfl
  · rw [if_neg h]
    cases m.get k with
    | none => rfl
    | some x => rw [get_insert, if_neg h]

theorem get_foldl_adjust {I : Type w} (key : I → K) (f : I → V → V) {l : List I}
    (hl : (l.map key).Nodup) (m : SortedMap K V) (k : K) : (l.foldl (fun m i => m.adjust (key i) (f i)) m).get k =
      match l.find? (fun i => key i = k) with | some i => (m.get k).map (f i) | none => m.get k := by
  induction l generalizing m with
  | nil => rfl
  | cons i l ih =>
    rw [map_cons, nodup_cons] at hl
    rw [foldl_cons, ih hl.2, get_adjust, find?_cons]
    by_cases h : key i = k
    · have hnone : l.find? (fun i => key i = k) = none := by
        rw [find?_eq_none]
        intro j hj hjk
        exact hl.1 (mem_map.2 ⟨j, hj, (of_decide_eq_true hjk).trans h.symm⟩)
      rw [hnone, if_pos h.symm, decide_eq_true h]
    · rw [if_neg (Ne.symm h), decide_eq_false h]

@[ext] theorem ext_get {m' : SortedMap K V} (h : ∀ k, m.get k = m'.get k) : m = m' := by
  obtain ⟨l, hl⟩ := m
  obtain ⟨l', hl'⟩ := m'
  have heq : l = l' := ext_find hl hl' h
  subst heq
  rfl

theorem mapEntries_insert (f : K → V → W) (m : SortedMap K V) (k : K) (x : V) :
    (m.insert k x).mapEntries f = (m.mapEntries f).insert k (f k x) := by
  apply ext_get
  intro k'
  rw [get_mapEntries, get_insert, get_insert, get_mapEntries]
  split
  · rename_i hk
    rw [hk, map_some]
  · rfl

theorem mapEntries_erase (f : K → V → W) (m : SortedMap K V) (k : K) :
    (m.erase k).mapEntries f = (m.mapEntries f).erase k := by
  apply ext_get
  intro k'
  rw [get_mapEntries, get_erase, get_erase, get_mapEntries]
  split <;> rfl

theorem length_mapEntries (f : K → V → W) (m : SortedMap K V) :
    (m.mapEntries f).entries.length = m.entries.length := length_map _

theorem insert_of_get (h : m.get k = some x) : m.insert k x = m := by
  apply ext_get
  intro k'
  rw [get_insert]
  split
  · rename_i hk
    rw [hk, h]
  · rfl

theorem erase_of_get (h : m.get k = none) : m.erase k = m := by
  apply ext_get
  intro k'
  rw [get_erase]
  split
  · rename_i hk
    rw [hk, h]
  · rfl

theorem length_erase_of_get (h : m.get k = some x) : (m.erase k).entries.length + 1 = m.entries.length := by
  have hback : (m.erase k).insert k x = m := by
    apply ext_get
    intro k'
    rw [get_insert, get_erase]
    split
    · rename_i hk
      rw [hk, h]
    · rfl
  have hlength := length_insert (m.erase k) k x
  rw [hback, get_erase, if_pos rfl] at hlength
  exact hlength.symm

theorem nodup_keys (m : SortedMap K V) : (m.entries.map Prod.fst).Nodup := by
  rw [Nodup, pairwise_map]
  exact m.sorted.imp ne_of_lt

theorem entries_insert_last {a : List (K × V)} (h : m.entries = a ++ [(k, x)]) (y : V) :
    (m.insert k y).entries = a ++ [(k, y)] := by
  have hlt : ∀ p ∈ a, p.1 < k := by
    have hsorted := m.sorted
    rw [h] at hsorted
    intro p hp
    exact (pairwise_append.1 hsorted).2.2 p hp (k, x) mem_cons_self
  show insertList k y m.entries = _
  rw [h, insertList_append_left y _ hlt, insertList, if_neg (lt_irrefl k), if_pos rfl]

theorem entries_insert_above (h : ∀ p ∈ m.entries, p.1 < k) (x : V) :
    (m.insert k x).entries = m.entries ++ [(k, x)] := by
  have hinsert := insertList_append_left x [] h
  rwa [append_nil] at hinsert

theorem entries_adjust_last {a : List (K × V)} (h : m.entries = a ++ [(k, x)]) (f : V → V) :
    (m.adjust k f).entries = a ++ [(k, f x)] := by
  have hget : m.get k = some x :=
    mem_entries_iff.1 (h ▸ mem_append_right a mem_cons_self)
  rw [adjust, hget]
  exact entries_insert_last h (f x)

end SortedMap

/-!
## Overlays of maps

A list of maps is read newest first: the first map that has the key answers. `mergeMaps` inserts the
pairs of the maps into one map, the oldest map first, and gives the same answers
(`get_mergeMaps`).
-/

variable {K : Type u} {V : Type v} [LinearOrder K]

/-- The answer of the first map that has the key. -/
def overlay : List (SortedMap K V) → K → Option V
  | [], _ => none
  | m :: ms, k => (m.get k).or (overlay ms k)

/-- One map with the pairs of all maps; the first map of the list wins. -/
def mergeMaps : List (SortedMap K V) → SortedMap K V
  | [] => SortedMap.empty
  | m :: ms => (mergeMaps ms).insertAll m.entries

theorem overlay_cons (m : SortedMap K V) (ms : List (SortedMap K V)) (k : K) :
    overlay (m :: ms) k = (m.get k).or (overlay ms k) := rfl

theorem overlay_append (ms ns : List (SortedMap K V)) (k : K) :
    overlay (ms ++ ns) k = (overlay ms k).or (overlay ns k) := by
  induction ms with
  | nil => rfl
  | cons m ms ih => rw [List.cons_append, overlay_cons, overlay_cons, ih, Option.or_assoc]

variable {ms : List (SortedMap K V)}

theorem exists_of_overlay {k : K} {x : V} (h : overlay ms k = some x) : ∃ m ∈ ms, m.get k = some x := by
  induction ms with
  | nil => exact absurd h (by simp [overlay])
  | cons m ms ih =>
    rw [overlay_cons, Option.or_eq_some_iff] at h
    rcases h with hm | ⟨-, hms⟩
    · exact ⟨m, List.mem_cons_self, hm⟩
    · obtain ⟨m', hm', hx⟩ := ih hms
      exact ⟨m', List.mem_cons_of_mem _ hm', hx⟩

theorem overlay_eq_none {k : K} : overlay ms k = none ↔ ∀ m ∈ ms, m.get k = none := by
  induction ms with
  | nil => simp [overlay]
  | cons m ms ih => rw [overlay_cons, Option.or_eq_none_iff, ih, List.forall_mem_cons]

/-- Merging keeps the answers. -/
theorem get_mergeMaps (ms : List (SortedMap K V)) (k : K) : (mergeMaps ms).get k = overlay ms k := by
  induction ms with
  | nil => rfl
  | cons m ms ih =>
    rw [mergeMaps, SortedMap.get_insertAll _ m.sorted, ih, overlay_cons]
    rfl

end SystemDesignLabs.Core
