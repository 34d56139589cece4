import Mathlib

/-!
# Caches that evict what was used least recently

A cache is a list of keys and values, the most recently used in front, with no key twice. `get` and `set` move a
key to the front; `set` of a new key evicts the last one when the cache is full. What a cache answers is
`lookup`; `lookup_get`, `lookup_set_self`, `set_cases` and `lookup_invalidate` say what each operation does to
the answers, and a proof that uses the cache needs nothing else.
-/

namespace SystemDesignLabs.Core

open List Option

universe u v

/-- A cache, with its pairs in the order of their last use. -/
structure Lru (K : Type u) (V : Type v) where
  maxSize : Nat
  items : List (K × V)
  nodup : (items.map Prod.fst).Nodup

namespace Lru

variable {K : Type u} {V : Type v} [DecidableEq K]

def empty (maxSize : Nat) : Lru K V :=
  ⟨maxSize, [], List.nodup_nil⟩

/-- The value of a key. -/
def lookup (c : Lru K V) (k : K) : Option V :=
  (c.items.find? fun p => p.1 = k).map Prod.snd

/-- The pairs of the other keys. -/
def others (items : List (K × V)) (k : K) : List (K × V) :=
  items.filter fun p => p.1 ≠ k

theorem not_mem_others (items : List (K × V)) (k : K) : k ∉ (others items k).map Prod.fst := by
  intro h
  obtain ⟨p, hp, rfl⟩ := mem_map.1 h
  exact of_decide_eq_true (mem_filter.1 hp).2 rfl

theorem nodup_cons_others {items : List (K × V)} (h : (items.map Prod.fst).Nodup) (k : K) (v : V) :
    (((k, v) :: others items k).map Prod.fst).Nodup := by
  rw [map_cons]
  exact nodup_cons.2 ⟨not_mem_others items k, h.sublist (filter_sublist.map _)⟩

/-- Put a pair in front. -/
def toFront (c : Lru K V) (k : K) (v : V) : Lru K V :=
  ⟨c.maxSize, (k, v) :: others c.items k, nodup_cons_others c.nodup k v⟩

/-- The value of a key, which is used by this. -/
def get (c : Lru K V) (k : K) : Option V × Lru K V :=
  match c.lookup k with
  | some v => (some v, c.toFront k v)
  | none => (none, c)

/-- Remove the pair that was used least recently. -/
def dropLast (c : Lru K V) : Lru K V :=
  ⟨c.maxSize, c.items.dropLast, c.nodup.sublist ((List.dropLast_sublist _).map _)⟩

/-- Set the value of a key; the pair that is evicted for a new key is returned. -/
def set (c : Lru K V) (k : K) (v : V) : Lru K V × Option (K × V) :=
  match c.lookup k with
  | some _ => (c.toFront k v, none)
  | none => if c.maxSize ≤ c.items.length then (c.dropLast.toFront k v, c.items.getLast?) else (c.toFront k v, none)

/-- Remove a key. -/
def invalidate (c : Lru K V) (k : K) : Lru K V :=
  ⟨c.maxSize, others c.items k, c.nodup.sublist (List.filter_sublist.map _)⟩

variable {c : Lru K V} {k k' : K} {v : V}

theorem lookup_eq_some_iff : c.lookup k = some v ↔ (k, v) ∈ c.items := by
  rw [lookup, map_eq_some_iff]
  constructor
  · rintro ⟨p, hp, rfl⟩
    have hk : p.1 = k := of_decide_eq_true (find?_some (p := fun q : K × V => decide (q.1 = k)) hp)
    exact hk ▸ mem_of_find?_eq_some hp
  · intro hmem
    cases hfind : c.items.find? fun p => p.1 = k with
    | none => exact absurd rfl (of_decide_eq_false (Bool.eq_false_iff.2 (find?_eq_none.1 hfind _ hmem)))
    | some p =>
      have hk : p.1 = k := of_decide_eq_true (find?_some (p := fun q : K × V => decide (q.1 = k)) hfind)
      have hp := inj_on_of_nodup_map c.nodup (mem_of_find?_eq_some hfind) hmem hk
      exact ⟨p, rfl, by rw [hp]⟩

@[simp] theorem lookup_toFront_self : (c.toFront k v).lookup k = some v :=
  lookup_eq_some_iff.2 mem_cons_self

theorem lookup_toFront_of_ne (h : k' ≠ k) : (c.toFront k v).lookup k' = c.lookup k' := by
  ext x
  rw [lookup_eq_some_iff, lookup_eq_some_iff, toFront, mem_cons, others, mem_filter]
  constructor
  · rintro (heq | hmem)
    · exact absurd (Prod.mk.inj heq).1 h
    · exact hmem.1
  · exact fun hmem => .inr ⟨hmem, decide_eq_true h⟩

/-- Using a key changes no answer. -/
@[simp] theorem lookup_get : (c.get k).2.lookup k' = c.lookup k' := by
  rw [get]
  split
  · next v hv =>
    by_cases h : k' = k
    · rw [h, lookup_toFront_self, hv]
    · exact lookup_toFront_of_ne h
  · rfl

@[simp] theorem lookup_set_self : (c.set k v).1.lookup k = some v := by
  rw [set]
  split
  · exact lookup_toFront_self
  · split <;> exact lookup_toFront_self

/-- Setting a key changes the answer for one other key at most: for the pair that is evicted. -/
theorem set_cases (c : Lru K V) (k : K) (v : V) :
    ((c.set k v).2 = none ∧ ∀ k', k' ≠ k → (c.set k v).1.lookup k' = c.lookup k')
    ∨ ∃ k₀ v₀, (c.set k v).2 = some (k₀, v₀) ∧ c.lookup k₀ = some v₀ ∧ k₀ ≠ k ∧ (c.set k v).1.lookup k₀ = none
      ∧ ∀ k', k' ≠ k → k' ≠ k₀ → (c.set k v).1.lookup k' = c.lookup k' := by
  rw [set]
  split
  · exact .inl ⟨rfl, fun k' h => lookup_toFront_of_ne h⟩
  · next hnone =>
    split
    · cases hlast : c.items.getLast? with
      | none =>
        have hnil : c.items = [] := getLast?_eq_none_iff.1 hlast
        have hdrop : c.dropLast.items = c.items := by
          show c.items.dropLast = c.items
          rw [hnil, dropLast_nil]
        refine .inl ⟨rfl, fun k' h => (lookup_toFront_of_ne h).trans ?_⟩
        rw [lookup, lookup, hdrop]
      | some p =>
        obtain ⟨k₀, v₀⟩ := p
        obtain ⟨before, hsplit⟩ := getLast?_eq_some_iff.1 hlast
        have hk₀ : c.lookup k₀ = some v₀ := by
          rw [lookup_eq_some_iff, hsplit]
          exact mem_append_right _ (mem_singleton.2 rfl)
        have hne : k₀ ≠ k := by
          rintro rfl
          rw [hnone] at hk₀
          cases hk₀
        have hdrop : c.dropLast.items = before := by
          show c.items.dropLast = before
          rw [hsplit, dropLast_concat]
        refine .inr ⟨k₀, v₀, rfl, hk₀, hne, ?_, fun k' h h₀ => (lookup_toFront_of_ne h).trans ?_⟩
        · rw [lookup_toFront_of_ne hne, eq_none_iff_forall_ne_some]
          intro x hx
          rw [lookup_eq_some_iff, hdrop] at hx
          have hnodup := c.nodup
          rw [hsplit, map_append, nodup_append] at hnodup
          exact hnodup.2.2 k₀ (mem_map_of_mem hx) k₀ (mem_singleton.2 rfl) rfl
        · ext x
          rw [lookup_eq_some_iff, lookup_eq_some_iff, hdrop, hsplit, mem_append, mem_singleton]
          exact ⟨.inl, fun hor => hor.resolve_right fun heq => h₀ (Prod.mk.inj heq).1⟩
    · exact .inl ⟨rfl, fun k' h => lookup_toFront_of_ne h⟩

theorem lookup_of_set {x : V} (h : (c.set k v).1.lookup k' = some x) : (k' = k ∧ x = v) ∨ (k' ≠ k ∧ c.lookup k' = some x) := by
  by_cases hk : k' = k
  · subst hk
    rw [lookup_set_self] at h
    exact .inl ⟨rfl, (some_inj.1 h).symm⟩
  · rcases c.set_cases k v with ⟨-, hsame⟩ | ⟨k₀, v₀, -, -, -, hgone, hsame⟩
    · exact .inr ⟨hk, (hsame k' hk).symm.trans h⟩
    · have hne : k' ≠ k₀ := by
        rintro rfl
        rw [hgone] at h
        cases h
      exact .inr ⟨hk, (hsame k' hk hne).symm.trans h⟩

theorem lookup_of_invalidate {x : V} (h : (c.invalidate k).lookup k' = some x) : k' ≠ k ∧ c.lookup k' = some x := by
  have hmem := lookup_eq_some_iff.1 h
  obtain ⟨hmem, hne⟩ := mem_filter.1 hmem
  exact ⟨of_decide_eq_true hne, lookup_eq_some_iff.2 hmem⟩

end Lru

end SystemDesignLabs.Core
