import Mathlib

/-!
# Recursion by fuel

A recursive program whose recursion need not end is a functional `F`: from an oracle for the
recursive calls it computes one call, `none` standing for a computation that has not ended. `unroll F
n` allows `n` nested calls, and a call halts if some number of them is enough (`Halts`).

A functional that is written with finitely many questions to the oracle is `Finitary`: whatever it
returns depends on finitely many answers. The class is closed under questions and binds, so that a
program's functional is shown to be in it by following its text. For such functionals more fuel never
changes a result (`unroll_mono`), and a call halts as soon as the calls it may make do: the rule a
proof uses is `halts_of_acc`, with the accessibility of the call under any relation that covers the
recursive calls. `not_halts` is the converse tool: no call halts in a set of calls each of which
needs the answer of another one.
-/

namespace SystemDesignLabs.Core

open List Option

universe u v w x

variable {α : Type u} {β : Type v} {γ : Type w} {δ : Type x}

/-! ## Finitely many questions -/

/-- Whatever the computation returns depends on finitely many answers of the oracle. -/
def Finitary (G : (α → Option β) → Option γ) : Prop :=
  ∀ f c, G f = some c → ∃ qs : List α, (∀ q ∈ qs, (f q).isSome) ∧
    ∀ g, (∀ q ∈ qs, g q = f q) → G g = some c

namespace Finitary

theorem const (o : Option γ) : Finitary fun _ : α → Option β => o :=
  fun _ _ h => ⟨[], fun _ hq => absurd hq not_mem_nil, fun _ _ => h⟩

theorem ask (a : α) : Finitary fun f : α → Option β => f a := by
  intro f c h
  change f a = some c at h
  refine ⟨[a], fun q hq => ?_, fun g hg => (hg a mem_cons_self).trans h⟩
  rw [mem_singleton.1 hq, h]
  rfl

variable {G : (α → Option β) → Option γ}

theorem bind {H : γ → (α → Option β) → Option δ} (hG : Finitary G) (hH : ∀ c, Finitary (H c)) :
    Finitary fun f => (G f).bind fun c => H c f := by
  intro f d h
  obtain ⟨c, hc, hd⟩ := bind_eq_some_iff.1 h
  obtain ⟨qs, hqs, hGg⟩ := hG f c hc
  obtain ⟨qs', hqs', hHg⟩ := hH c f d hd
  refine ⟨qs ++ qs', fun q hq => ?_, fun g hg => ?_⟩
  · exact (mem_append.1 hq).elim (hqs q) (hqs' q)
  · exact bind_eq_some_iff.2 ⟨c, hGg g fun q hq => hg q (mem_append_left _ hq),
      hHg g fun q hq => hg q (mem_append_right _ hq)⟩

theorem ite {p : Prop} [Decidable p] {H : (α → Option β) → Option γ} (hG : Finitary G)
    (hH : Finitary H) : Finitary fun f => if p then G f else H f := by
  by_cases hp : p
  · simpa only [if_pos hp] using hG
  · simpa only [if_neg hp] using hH

theorem mono (hG : Finitary G) {f g : α → Option β} (hfg : ∀ a b, f a = some b → g a = some b) {c : γ}
    (h : G f = some c) : G g = some c := by
  obtain ⟨qs, hqs, hg⟩ := hG f c h
  refine hg g fun q hq => ?_
  obtain ⟨b, hb⟩ := isSome_iff_exists.1 (hqs q hq)
  rw [hb, hfg q b hb]

end Finitary

/-! ## Unrolling -/

/-- `n` nested calls. -/
def unroll (F : (α → Option β) → α → Option β) : Nat → α → Option β
  | 0, _ => none
  | n + 1, a => F (unroll F n) a

/-- Some number of nested calls is enough. -/
def Halts (F : (α → Option β) → α → Option β) (a : α) : Prop :=
  ∃ n, (unroll F n a).isSome

section Rules

variable {F : (α → Option β) → α → Option β}

variable {a : α}

/-- More fuel never changes a result. -/
theorem unroll_mono (hF : ∀ a, Finitary fun f => F f a) {n m : Nat} (hnm : n ≤ m) {b : β}
    (h : unroll F n a = some b) : unroll F m a = some b := by
  induction n generalizing m a b with
  | zero => cases h
  | succ n ih =>
    cases m with
    | zero => omega
    | succ m => exact (hF a).mono (fun a b => ih (Nat.le_of_succ_le_succ hnm)) h

theorem exists_common_fuel (hF : ∀ a, Finitary fun f => F f a) {qs : List α}
    (h : ∀ q ∈ qs, Halts F q) : ∃ n, ∀ q ∈ qs, (unroll F n q).isSome := by
  induction qs with
  | nil => exact ⟨0, fun q hq => absurd hq not_mem_nil⟩
  | cons q qs ih =>
    obtain ⟨n, hn⟩ := ih fun q' hq' => h q' (mem_cons_of_mem _ hq')
    obtain ⟨m, hm⟩ := h q mem_cons_self
    have hmax : ∀ k q', k ≤ max n m → (unroll F k q').isSome →
        (unroll F (max n m) q').isSome := by
      intro k q' hk hsome
      obtain ⟨b, hb⟩ := isSome_iff_exists.1 hsome
      rw [unroll_mono hF hk hb]
      rfl
    refine ⟨max n m, fun q' hq' => ?_⟩
    rcases mem_cons.1 hq' with rfl | hq'
    · exact hmax m _ (Nat.le_max_right n m) hm
    · exact hmax n _ (Nat.le_max_left n m) (hn q' hq')

open Classical in
/-- The result of a call with as much fuel as it needs. -/
noncomputable def limit (F : (α → Option β) → α → Option β) (a : α) : Option β :=
  if h : Halts F a then unroll F h.choose a else none

theorem limit_isSome (h : Halts F a) : (limit F a).isSome := by
  rw [limit, dif_pos h]
  exact h.choose_spec

section

variable (hF : ∀ a, Finitary fun f => F f a)
include hF

theorem unroll_eq_limit {n : Nat} (h : (unroll F n a).isSome) :
    unroll F n a = limit F a := by
  have hhalts : Halts F a := ⟨n, h⟩
  obtain ⟨b, hb⟩ := isSome_iff_exists.1 h
  obtain ⟨c, hc⟩ := isSome_iff_exists.1 hhalts.choose_spec
  rw [limit, dif_pos hhalts, hb, hc]
  exact (unroll_mono hF (Nat.le_max_left n hhalts.choose) hb).symm.trans
    (unroll_mono hF (Nat.le_max_right n hhalts.choose) hc)

theorem exists_fuel {G : (α → Option β) → Option γ}
    (hG : Finitary G) {P : α → Prop} (hP : ∀ q, P q → Halts F q)
    (hdef : ∀ f, (∀ q, P q → (f q).isSome) → (G f).isSome) : ∃ n, (G (unroll F n)).isSome := by
  obtain ⟨c, hc⟩ := isSome_iff_exists.1 (hdef (limit F) fun q hq => limit_isSome (hP q hq))
  obtain ⟨qs, hqs, hg⟩ := hG _ c hc
  have hhalts : ∀ q ∈ qs, Halts F q := by
    intro q hq
    by_contra hnot
    have := hqs q hq
    rw [limit, dif_neg hnot] at this
    cases this
  obtain ⟨n, hn⟩ := exists_common_fuel hF hhalts
  refine ⟨n, ?_⟩
  rw [hg _ fun q hq => unroll_eq_limit hF (hn q hq)]
  rfl

/-- A call halts if it is accessible under a relation that covers the calls it may make. -/
theorem halts_of_acc {R : α → α → Prop}
    (hdef : ∀ a f, (∀ q, R q a → (f q).isSome) → (F f a).isSome) (h : Acc R a) : Halts F a := by
  induction h with
  | intro a _ ih =>
    obtain ⟨n, hn⟩ := exists_fuel hF (hF a) ih (hdef a)
    exact ⟨n + 1, hn⟩

end

/-- No call of a set halts if each needs the answer of another one of the set. -/
theorem not_halts {S : α → Prop} (hneed : ∀ a f, S a → (∀ q, S q → f q = none) → F f a = none) (ha : S a) :
    ¬ Halts F a := by
  have hnone : ∀ n a, S a → unroll F n a = none := by
    intro n
    induction n with
    | zero => exact fun _ _ => rfl
    | succ n ih => exact fun a ha => hneed a _ ha ih
  rintro ⟨n, hn⟩
  rw [hnone n a ha] at hn
  cases hn

end Rules

end SystemDesignLabs.Core
