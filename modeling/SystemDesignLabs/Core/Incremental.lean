import Mathlib

/-!
# Incremental parsers

A parser of a stream that arrives in pieces looks at the front of what has arrived. It reads an item,
asks for more, or fails. `Incremental` says that it reads an item from the bytes of the item alone, and that
more of the stream does not repair a failure. Then a stream has one list of items in front (`Items.unique`), it is found piece by piece
(`Items.extend`), and where the parser fails there is a shortest front on which it fails
(`exists_failsAt`).
-/

namespace SystemDesignLabs.Core

open List

universe u v w

variable {α : Type u} {β : Type v} {ε : Type w}

/-- What a parser says about the front of a stream. -/
inductive Parsed (α : Type u) (ε : Type w) where
  | complete (a : α) (consumed : Nat)
  | incomplete
  | error (e : ε)
  deriving DecidableEq

/-- A parser whose decisions are final. -/
structure Incremental (parse : List β → Parsed α ε) : Prop where
  nil : parse [] = .incomplete
  consumes : ∀ s a n, parse s = .complete a n → 0 < n ∧ n ≤ s.length
  item : ∀ s a n, parse s = .complete a n → ∀ s', s.take n <+: s' → parse s' = .complete a n
  failure : ∀ s e, parse s = .error e → ∀ t, parse (s ++ t) = .error e

/-- The items in front of a stream, and what is left where no item is in front. -/
inductive Items (parse : List β → Parsed α ε) : List β → List α → List β → Prop
  | stop {s : List β} (h : ∀ a n, parse s ≠ .complete a n) : Items parse s [] s
  | item {s rest : List β} {a : α} {n : Nat} {as : List α} (h : parse s = .complete a n)
      (ht : Items parse (s.drop n) as rest) : Items parse s (a :: as) rest

variable {parse : List β → Parsed α ε}

theorem Incremental.stable (hparse : Incremental parse) {s : List β} (h : parse s ≠ .incomplete)
    (t : List β) : parse (s ++ t) = parse s := by
  cases hp : parse s with
  | incomplete => exact absurd hp h
  | error e => exact hparse.failure s e hp t
  | complete a n =>
    exact hparse.item s a n hp _ ((List.take_prefix n s).trans (prefix_append s t))

namespace Items

variable {s rest : List β} {as : List α}

theorem stuck (h : Items parse s as rest) (a : α) (n : Nat) : parse rest ≠ .complete a n := by
  induction h with
  | stop h => exact h a n
  | item _ _ ih => exact ih

theorem eq_of_nil (h : Items parse s [] rest) : rest = s := by
  cases h with
  | stop _ => rfl

theorem unique (h : Items parse s as rest) {as' : List α} {rest' : List β}
    (h' : Items parse s as' rest') : as' = as ∧ rest' = rest := by
  induction h generalizing as' with
  | stop hs =>
    cases h' with
    | stop _ => exact ⟨rfl, rfl⟩
    | item hp _ => exact absurd hp (hs _ _)
  | item hp _ ih =>
    cases h' with
    | stop hs => exact absurd hp (hs _ _)
    | item hp' ht' =>
      rw [hp] at hp'
      cases hp'
      obtain ⟨rfl, rfl⟩ := ih ht'
      exact ⟨rfl, rfl⟩

theorem exists_front (h : Items parse s as rest) : ∃ front, s = front ++ rest := by
  induction h with
  | stop _ => exact ⟨[], rfl⟩
  | @item s rest a n as _ _ ih =>
    obtain ⟨front, hfront⟩ := ih
    refine ⟨s.take n ++ front, ?_⟩
    rw [append_assoc, ← hfront, take_append_drop]

section

variable (hparse : Incremental parse)
include hparse

theorem length_lt (h : Items parse s as rest) (hne : as ≠ []) :
    rest.length < s.length := by
  cases h with
  | stop _ => exact absurd rfl hne
  | item hp ht =>
    obtain ⟨hpos, hle⟩ := hparse.consumes _ _ _ hp
    obtain ⟨front, hfront⟩ := ht.exists_front
    have hlen := congrArg length hfront
    rw [length_drop, length_append] at hlen
    omega

/-- More of the stream continues the items from where they were incomplete. -/
theorem extend (h : Items parse s as rest) {t rest' : List β}
    {bs : List α} (ht : Items parse (rest ++ t) bs rest') : Items parse (s ++ t) (as ++ bs) rest' := by
  induction h with
  | stop _ => exact ht
  | @item s rest a n as hp _ ih =>
    have hle := (hparse.consumes _ _ _ hp).2
    refine .item (n := n) ?_ ?_
    · rw [hparse.stable (by rw [hp]; exact nofun), hp]
    · rw [drop_append_of_le_length hle]
      exact ih ht

theorem length_lt_of_incomplete {s₀ t : List β}
    (h : Items parse (s₀ ++ t) as rest) (hs₀ : parse s₀ = .incomplete) (hne : as ≠ []) : rest.length < t.length := by
  cases h with
  | stop _ => exact absurd rfl hne
  | @item _ _ a n _ hp ht =>
    rcases Nat.lt_or_ge s₀.length n with hlt | hge
    · obtain ⟨front, hfront⟩ := ht.exists_front
      have hlen := congrArg length hfront
      rw [length_drop, length_append, length_append] at hlen
      have hle := (hparse.consumes _ _ _ hp).2
      rw [length_append] at hle
      omega
    · -- the item is in front of what was there
      have hprefix : (s₀ ++ t).take n <+: s₀ := by
        rw [take_append_of_le_length hge]
        exact take_prefix n s₀
      rw [hparse.item _ _ _ hp _ hprefix] at hs₀
      cases hs₀

end

end Items

theorem exists_items (hparse : Incremental parse) (s : List β) : ∃ as rest, Items parse s as rest := by
  induction hlen : s.length using Nat.strong_induction_on generalizing s with
  | _ m ih =>
    cases hp : parse s with
    | incomplete => exact ⟨[], s, .stop fun a n heq => by rw [hp] at heq; cases heq⟩
    | error e => exact ⟨[], s, .stop fun a n heq => by rw [hp] at heq; cases heq⟩
    | complete a n =>
      obtain ⟨hpos, hle⟩ := hparse.consumes _ _ _ hp
      obtain ⟨as, rest, hitems⟩ := ih (s.drop n).length (by rw [length_drop]; omega) _ rfl
      exact ⟨a :: as, rest, .item hp hitems⟩

/-- The parser fails when it has seen `front`, and not before. -/
structure FailsAt (parse : List β → Parsed α ε) (front : List β) (e : ε) : Prop where
  fails : parse front = .error e
  before : ∀ p, p <+: front → p ≠ front → parse p = .incomplete

theorem exists_failsAt (hparse : Incremental parse) {s : List β} {e : ε} (h : parse s = .error e) :
    ∃ front back, s = front ++ back ∧ FailsAt parse front e := by
  have hsome : ∃ n, parse (s.take n) ≠ .incomplete := by
    refine ⟨s.length, ?_⟩
    rw [take_length, h]
    exact nofun
  classical
  have hn := Nat.find_spec hsome
  have hstable := hparse.stable hn (s.drop (Nat.find hsome))
  rw [take_append_drop, h] at hstable
  refine ⟨s.take (Nat.find hsome), s.drop (Nat.find hsome), (take_append_drop _ _).symm, hstable.symm, ?_⟩
  intro p hp hne
  by_contra hdecided
  -- a shorter front would be decided
  have hlt : p.length < Nat.find hsome := by
    have hle := hp.length_le
    rw [length_take] at hle
    rcases Nat.lt_or_ge p.length (s.take (Nat.find hsome)).length with hlt | hge
    · rw [length_take] at hlt
      omega
    · exact absurd (hp.eq_of_length_le hge) hne
  refine Nat.find_min hsome hlt ?_
  have htake : s.take p.length = p := by
    have hprefix := hp.trans (List.take_prefix _ _)
    exact (prefix_iff_eq_take.1 hprefix).symm
  rwa [htake]

end SystemDesignLabs.Core
