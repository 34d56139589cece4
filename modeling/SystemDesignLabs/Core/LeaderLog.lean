import Mathlib

/-!
# Majorities

Two majorities of a finite set have a common element. Majorities are counted the way implementations
count them, as at least half of the members plus one.
-/

namespace SystemDesignLabs.Core

open Finset

universe u

variable {α : Type u} [Fintype α]

/-- At least half of the members plus one. -/
def Majority (S : Finset α) : Prop := Fintype.card α / 2 + 1 ≤ S.card

/-- Two majorities meet. -/
theorem Majority.exists_mem_inter {S T : Finset α} (hS : Majority S) (hT : Majority T) : ∃ v, v ∈ S ∧ v ∈ T := by
  classical
  rw [Majority] at hS hT
  have hcard : (univ : Finset α).card < S.card + T.card := by
    rw [card_univ]
    omega
  obtain ⟨v, hv⟩ := inter_nonempty_of_card_lt_card_add_card (subset_univ S)
    (subset_univ T) hcard
  rw [mem_inter] at hv
  exact ⟨v, hv⟩

/-!
## Logs written term by term

A replicated log protocol with at most one writer in each term produces logs of a special shape. A
`Ledger` records, for every term, the log its writer started from and the log it has written so far.
A log is `Valid` when each of its prefixes is a prefix of the log of the term in which that prefix
ends: a node's log may mix entries of many terms, but the entry at an index and its term determine
everything below it.

The results are the facts a protocol proof needs about such logs: two valid logs that have the same
term at an index agree up to it (`Valid.take_eq_of_termAt_eq`), terms never decrease along a valid
log (`Valid.termAt_le`), a valid log contains the starting log of every term that occurs in it
(`Valid.start_isPrefix`), and a log that is at least as recent as another one, by last term and then
by length, contains what the other one holds of an earlier term or else the starting log of some
later term does not (`Valid.carries`).
-/

open List

variable {E : Type u} (tm : E → Nat)

/-- The term of the entry at a 1-based index; `0` at index `0` and beyond the end. -/
def termAt (l : List E) : Nat → Nat
  | 0 => 0
  | k + 1 => ((l[k]?).map tm).getD 0

/-- The term of the last entry, `0` for the empty log. -/
def lastTerm (l : List E) : Nat := termAt tm l l.length

/-- For every term the log its writer started from and the log written so far. -/
structure Ledger (E : Type u) where
  start : Nat → List E
  log : Nat → List E

/-- Every prefix of the log is a prefix of the log of the term in which it ends. -/
def Ledger.Valid (L : Ledger E) (P : List E) : Prop :=
  ∀ k, 0 < k → k ≤ P.length →
    k ≤ (L.log (termAt tm P k)).length ∧ P.take k = (L.log (termAt tm P k)).take k

/-- The writers of a ledger only append entries of their own term to a valid log of earlier terms,
and nothing is written in term `0`. -/
structure Ledger.WellFormed (L : Ledger E) : Prop where
  start_isPrefix : ∀ t, L.start t <+: L.log t
  start_lt : ∀ t k, 0 < k → k ≤ (L.start t).length → termAt tm (L.start t) k < t
  own : ∀ t k, (L.start t).length < k → k ≤ (L.log t).length → termAt tm (L.log t) k = t
  valid : ∀ t, L.Valid tm (L.log t)
  zero : L.log 0 = []

/-- `P` is at least as recent as `Q`: by last term, then by length. -/
def AtLeastAsRecent (P Q : List E) : Prop :=
  lastTerm tm Q < lastTerm tm P ∨ lastTerm tm Q = lastTerm tm P ∧ Q.length ≤ P.length

variable {tm}

/-! ### Terms at indices -/

@[simp] theorem termAt_zero (l : List E) : termAt tm l 0 = 0 := rfl

theorem termAt_succ (l : List E) (k : Nat) : termAt tm l (k + 1) = ((l[k]?).map tm).getD 0 := rfl

variable {k : Nat}

theorem termAt_of_length_lt {l : List E} (h : l.length < k) : termAt tm l k = 0 := by
  cases k with
  | zero => rfl
  | succ k =>
    have : l[k]? = none := getElem?_eq_none (by omega)
    simp [termAt, this]

theorem termAt_isPrefix {P Q : List E} (h : P <+: Q) (hk : k ≤ P.length) : termAt tm P k = termAt tm Q k := by
  cases k with
  | zero => rfl
  | succ k =>
    have hP : k < P.length := by omega
    obtain ⟨r, rfl⟩ := h
    rw [termAt_succ, termAt_succ, getElem?_append_left hP]

theorem termAt_take {l : List E} {j k : Nat} (h : k ≤ j) : termAt tm (l.take j) k = termAt tm l k := by
  cases k with
  | zero => rfl
  | succ k => rw [termAt_succ, termAt_succ, getElem?_take_of_lt (by omega)]

theorem termAt_of_getElem? {l : List E} {e : E} (h : l[k]? = some e) : termAt tm l (k + 1) = tm e := by
  simp [termAt, h]

theorem take_eq_of_isPrefix {P Q : List E} (h : P <+: Q) (hk : k ≤ P.length) : P.take k = Q.take k := by
  obtain ⟨r, rfl⟩ := h
  rw [take_append_of_le_length hk]

/-! ### Valid logs -/

section Valid

variable {L L' : Ledger E} {P Q : List E}

theorem Ledger.Valid.nil (L : Ledger E) : L.Valid tm [] := by
  intro k hk hk'
  simp only [length_nil] at hk'
  omega

theorem Ledger.Valid.of_isPrefix (hQ : L.Valid tm Q) (h : P <+: Q) : L.Valid tm P := by
  intro k hk hkP
  have hkQ : k ≤ Q.length := le_trans hkP h.length_le
  rw [termAt_isPrefix h hkP, take_eq_of_isPrefix h hkP]
  exact hQ k hk hkQ

theorem Ledger.Valid.grows (hP : L.Valid tm P) (hg : ∀ t, L.log t <+: L'.log t) : L'.Valid tm P := by
  intro k hk hkP
  obtain ⟨h1, h2⟩ := hP k hk hkP
  refine ⟨le_trans h1 (hg _).length_le, ?_⟩
  rw [h2, take_eq_of_isPrefix (hg _) h1]

variable {k : Nat}

/-- Two valid logs with the same term at an index agree up to it. -/
theorem Ledger.Valid.take_eq_of_termAt_eq (hP : L.Valid tm P) (hQ : L.Valid tm Q) (hkP : k ≤ P.length)
    (hkQ : k ≤ Q.length) (h : termAt tm P k = termAt tm Q k) : P.take k = Q.take k := by
  rcases Nat.eq_zero_or_pos k with rfl | hk
  · simp
  · rw [(hP k hk hkP).2, (hQ k hk hkQ).2, h]

variable (hL : L.WellFormed tm)
include hL

theorem Ledger.Valid.termAt_pos (hP : L.Valid tm P) (hk : 0 < k) (hkP : k ≤ P.length) : 0 < termAt tm P k := by
  rcases Nat.eq_zero_or_pos (termAt tm P k) with h0 | hpos
  · have h := (hP k hk hkP).1
    rw [h0, hL.zero] at h
    simp only [length_nil] at h
    omega
  · exact hpos

theorem Ledger.WellFormed.termAt_log_le (t : Nat) (hk : k ≤ (L.log t).length) : termAt tm (L.log t) k ≤ t := by
  rcases Nat.eq_zero_or_pos k with rfl | hpos
  · simp
  · rcases Nat.lt_or_ge (L.start t).length k with hlt | hge
    · exact le_of_eq (hL.own t k hlt hk)
    · rw [← termAt_isPrefix (hL.start_isPrefix t) hge]
      exact le_of_lt (hL.start_lt t k hpos hge)

/-- Terms never decrease along a valid log. -/
theorem Ledger.Valid.termAt_le (hP : L.Valid tm P) {j : Nat} (hjk : j ≤ k)
    (hkP : k ≤ P.length) : termAt tm P j ≤ termAt tm P k := by
  rcases Nat.eq_zero_or_pos j with rfl | hj
  · simp
  · obtain ⟨h1, h2⟩ := hP k (by omega) hkP
    have hj' : termAt tm P j = termAt tm (L.log (termAt tm P k)) j := by
      rw [← termAt_take (l := P) hjk, h2, termAt_take hjk]
    rw [hj']
    exact hL.termAt_log_le _ (by omega)

theorem Ledger.WellFormed.start_lt_of_own {t : Nat} (hk : 0 < k)
    (h : termAt tm (L.log t) k = t) : (L.start t).length < k := by
  by_contra hle
  have hle' : k ≤ (L.start t).length := by omega
  have := hL.start_lt t k hk hle'
  rw [termAt_isPrefix (hL.start_isPrefix t) hle', h] at this
  omega

section

variable (hP : L.Valid tm P)
include hP

omit hL in
theorem Ledger.Valid.termAt_log (hk : 0 < k) (hkP : k ≤ P.length) :
    termAt tm (L.log (termAt tm P k)) k = termAt tm P k := by
  have h2 := (hP k hk hkP).2
  rw [← termAt_take (l := L.log _) (le_refl k), ← h2, termAt_take (le_refl k)]

/-- A valid log contains the starting log of every term that occurs in it. -/
theorem Ledger.Valid.start_isPrefix (hk : 0 < k) (hkP : k ≤ P.length) :
    L.start (termAt tm P k) <+: P := by
  obtain ⟨h1, h2⟩ := hP k hk hkP
  have hlt := hL.start_lt_of_own hk (hP.termAt_log hk hkP)
  have hpre : L.start (termAt tm P k) <+: (L.log (termAt tm P k)).take k := by
    refine prefix_of_prefix_length_le (hL.start_isPrefix _) (List.take_prefix _ _) ?_
    simp only [length_take]
    omega
  rw [← h2] at hpre
  exact hpre.trans (List.take_prefix k P)

theorem Ledger.Valid.termAt_le_lastTerm (hkP : k ≤ P.length) : termAt tm P k ≤ lastTerm tm P :=
  hP.termAt_le hL hkP (le_refl _)

omit hL in
theorem Ledger.Valid.prefix_log : P <+: L.log (lastTerm tm P) := by
  rcases Nat.eq_zero_or_pos P.length with h0 | hpos
  · rw [length_eq_zero_iff.1 h0]
    exact nil_prefix
  · obtain ⟨_, h2⟩ := hP P.length hpos (le_refl _)
    rw [take_length] at h2
    exact ⟨_, by rw [lastTerm]; nth_rewrite 1 [h2]; exact take_append_drop _ _⟩

/-- A more recent log carries what a less recent one holds. Let `Q` hold the first `k` entries of
term `t`'s log, the last of which was written in term `t`, and let `P` be at least as recent. Then
`P` holds them as well, or the starting log of a later term that occurs in `P` does not. -/
theorem Ledger.Valid.carries (hQ : L.Valid tm Q)
    (hrec : AtLeastAsRecent tm P Q) {t : Nat} (hk : 0 < k) (hkt : k ≤ (L.log t).length)
    (hown : termAt tm (L.log t) k = t) (hhold : (L.log t).take k <+: Q) : (L.log t).take k <+: P ∨
      (t < lastTerm tm P ∧ ¬ (L.log t).take k <+: L.start (lastTerm tm P)) := by
  have hlen : ((L.log t).take k).length = k := by simp only [length_take]; omega
  have hkQ : k ≤ Q.length := hlen ▸ hhold.length_le
  have htQ : termAt tm Q k = t := by
    rw [← termAt_isPrefix hhold (by omega), termAt_take (le_refl k), hown]
  have hQlast : t ≤ lastTerm tm Q := htQ ▸ hQ.termAt_le_lastTerm hL hkQ
  have htpos : 0 < t := htQ ▸ hQ.termAt_pos hL hk hkQ
  have hPne : 0 < P.length := by
    rcases Nat.eq_zero_or_pos P.length with h0 | hpos
    · have hl : lastTerm tm P = 0 := by rw [lastTerm, h0]; rfl
      rcases hrec with hlt | ⟨heq, hle⟩
      · omega
      · omega
    · exact hpos
  rcases hrec with hlt | ⟨heq, hle⟩
  · -- a later last term: its starting log is contained in `P`
    by_cases hs : (L.log t).take k <+: L.start (lastTerm tm P)
    · exact Or.inl (hs.trans (hP.start_isPrefix hL hPne (le_refl _)))
    · exact Or.inr ⟨by omega, hs⟩
  · -- the same last term: both logs are prefixes of its log
    left
    have hPl := hP.prefix_log
    have hQl := hQ.prefix_log
    rw [heq] at hQl
    exact hhold.trans (prefix_of_prefix_length_le hQl hPl hle)

end

end Valid

/-!
## The abstract protocol of elected leaders and their logs

Participants hold logs, vote for candidates, and follow the leader of the highest term they have
seen. The state `Protocol` keeps, besides the ledger of the leaders' logs, what every participant
holds and has voted for, which prefixes of a leader's log it has taken over in the leader's term
(`matched`), and up to which indices leaders have committed in their own term (`direct`).

`Sound` is the invariant, and each of the seven operations (`raise`, `cast`, `elect`, `write`,
`accept`, `record`, `commit`) keeps it under its guard. Two results matter to users of the protocol.
**Leader completeness** (`Sound.completeness`): the starting log of a leader contains everything
committed in earlier terms. **Agreement** (`Committed.prefix_top`): all committed prefixes are
prefixes of one log, `top`, which only grows.

The argument for leader completeness is an induction on terms. It is carried by `Guarded`: a voter
that has taken over a prefix still holds it, unless the log it took over later came from the leader
of some later term whose starting log did not contain the prefix.
-/

open Or

universe v

variable {α : Type v} {E : Type u} (tm : E → Nat)

/-- The state of the protocol with its history. -/
structure Protocol (α : Type v) (E : Type u) extends Ledger E where
  /-- The terms that have a leader. -/
  led : Nat → Prop
  /-- The highest term a participant has seen. -/
  seen : α → Nat
  /-- The log a participant holds. -/
  held : α → List E
  /-- The candidate a participant voted for in a term. -/
  vote : α → Nat → Option α
  /-- The log a participant held when it voted in a term. -/
  voteLog : α → Nat → List E
  /-- In a term, a participant held this many entries of the leader's log. -/
  matched : α → Nat → Nat → Prop
  /-- The leader of a term committed its log up to an index whose entry has that term. -/
  direct : Nat → Nat → Prop
  /-- The longest committed log. -/
  top : List E

namespace Protocol

/-- The log is a prefix of the log of some term up to `T`. -/
def Below (p : Protocol α E) (T : Nat) (P : List E) : Prop := ∃ t, t ≤ T ∧ P <+: p.log t

/-- The `k`-th entry of the log of term `t` was written in that term. -/
def Own (p : Protocol α E) (t k : Nat) : Prop :=
  0 < k ∧ k ≤ (p.log t).length ∧ termAt tm (p.log t) k = t

/-- `P` holds the first `k` entries of the log of term `t`, or the starting log of some later term
up to `hi` does not. -/
def Guarded (p : Protocol α E) (P : List E) (t k hi : Nat) : Prop :=
  (p.log t).take k <+: P ∨
    ∃ t', t < t' ∧ t' ≤ hi ∧ p.led t' ∧ ¬ (p.log t).take k <+: p.start t'

/-- `P` is committed, by a leader of a term up to `T`. -/
def Committed (p : Protocol α E) (T : Nat) (P : List E) : Prop :=
  P = [] ∨ ∃ t k, p.direct t k ∧ t ≤ T ∧ P <+: (p.log t).take k

/-- The invariant of the protocol. -/
structure Sound [Fintype α] (p : Protocol α E) : Prop where
  wf : p.toLedger.WellFormed tm
  led_of_log : ∀ t, p.log t ≠ [] → p.led t
  led_pos : ∀ t, p.led t → 0 < t
  held_below : ∀ v, p.Below (p.seen v) (p.held v)
  vote_le : ∀ v t, p.vote v t ≠ none → 0 < t ∧ t ≤ p.seen v
  vote_below : ∀ v t, p.vote v t ≠ none → p.Below t (p.voteLog v t)
  vote_recent : ∀ v t c, p.vote v t = some c →
    p.vote c t = some c ∧ AtLeastAsRecent tm (p.voteLog c t) (p.voteLog v t)
  matched_le : ∀ v t m, p.matched v t m → m ≤ (p.log t).length ∧ t ≤ p.seen v
  matched_cur : ∀ v m, p.matched v (p.seen v) m → (p.log (p.seen v)).take m <+: p.held v
  matched_held : ∀ v t m k, p.matched v t m → k ≤ m → p.Own tm t k →
    p.Guarded (p.held v) t k (p.seen v)
  matched_vote : ∀ v T t m k, p.vote v T ≠ none → t < T → p.matched v t m → k ≤ m → p.Own tm t k →
    p.Guarded (p.voteLog v T) t k T
  elected : ∀ T, p.led T → ∃ W : Finset α, Majority W ∧ ∀ v ∈ W, T ≤ p.seen v ∧
    ∀ t m k, t < T → p.matched v t m → k ≤ m → p.Own tm t k → p.Guarded (p.start T) t k (T - 1)
  direct_ok : ∀ t k, p.direct t k → p.led t ∧ p.Own tm t k ∧
    ∃ Q : Finset α, Majority Q ∧ ∀ v ∈ Q, ∃ m, k ≤ m ∧ p.matched v t m
  top_direct : p.top = [] ∨ ∃ t k, p.direct t k ∧ p.top = (p.log t).take k
  direct_top : ∀ t k, p.direct t k → (p.log t).take k <+: p.top

variable {tm}

/-! ### Committed logs and logs below a term -/

variable {p : Protocol α E}

theorem Committed.of_isPrefix {T : Nat} {P Q : List E} (hQ : p.Committed T Q) (h : P <+: Q) : p.Committed T P := by
  rcases hQ with rfl | ⟨t, k, hd, hle, hpre⟩
  · exact inl (prefix_nil.1 h)
  · exact inr ⟨t, k, hd, hle, h.trans hpre⟩

theorem Committed.mono {T T' : Nat} {P : List E} (hP : p.Committed T P) (h : T ≤ T') : p.Committed T' P := by
  rcases hP with rfl | ⟨t, k, hd, hle, hpre⟩
  · exact inl rfl
  · exact inr ⟨t, k, hd, le_trans hle h, hpre⟩

theorem Below.mono {T T' : Nat} {P : List E} (hP : p.Below T P) (h : T ≤ T') : p.Below T' P := by
  obtain ⟨t, hle, hpre⟩ := hP
  exact ⟨t, le_trans hle h, hpre⟩

/-! ### Growth -/

/-- The history of `q` extends the history of `p`. -/
structure Extends (p q : Protocol α E) : Prop where
  log : ∀ t, p.log t <+: q.log t
  start : ∀ t, p.led t → q.start t = p.start t
  led : ∀ t, p.led t → q.led t
  seen : ∀ v, p.seen v ≤ q.seen v
  vote : ∀ v t c, p.vote v t = some c → q.vote v t = some c ∧ q.voteLog v t = p.voteLog v t
  matched : ∀ v t m, p.matched v t m → q.matched v t m
  direct : ∀ t k, p.direct t k → q.direct t k
  top : p.top <+: q.top

theorem Extends.refl (p : Protocol α E) : p.Extends p where
  log := fun _ => prefix_refl _
  start := fun _ _ => rfl
  led := fun _ h => h
  seen := fun _ => le_refl _
  vote := fun _ _ _ h => ⟨h, rfl⟩
  matched := fun _ _ _ h => h
  direct := fun _ _ h => h
  top := prefix_refl _

section Extends

variable {p q r : Protocol α E}

section

variable (h : p.Extends q)
include h

theorem Extends.trans (h' : q.Extends r) : p.Extends r where
  log := fun t => (h.log t).trans (h'.log t)
  start := fun t ht => (h'.start t (h.led t ht)).trans (h.start t ht)
  led := fun t ht => h'.led t (h.led t ht)
  seen := fun v => le_trans (h.seen v) (h'.seen v)
  vote := fun v t c hv => by
    obtain ⟨h1, h2⟩ := h.vote v t c hv
    obtain ⟨h3, h4⟩ := h'.vote v t c h1
    exact ⟨h3, h4.trans h2⟩
  matched := fun v t m hm => h'.matched v t m (h.matched v t m hm)
  direct := fun t k hd => h'.direct t k (h.direct t k hd)
  top := h.top.trans h'.top

theorem Below.extends {T : Nat} {P : List E} (hP : p.Below T P) : q.Below T P := by
  obtain ⟨t, hle, hpre⟩ := hP
  exact ⟨t, hle, hpre.trans (h.log t)⟩

theorem Extends.take_log {t k : Nat} (hk : k ≤ (p.log t).length) :
    (q.log t).take k = (p.log t).take k :=
  (take_eq_of_isPrefix (h.log t) hk).symm

theorem Own.extends {t k : Nat} (hk : p.Own tm t k) : q.Own tm t k := by
  obtain ⟨h1, h2, h3⟩ := hk
  refine ⟨h1, le_trans h2 (h.log t).length_le, ?_⟩
  rw [← termAt_isPrefix (h.log t) h2]
  exact h3

theorem Own.of_extends {t k : Nat} (hk : q.Own tm t k) (hle : k ≤ (p.log t).length) : p.Own tm t k :=
  ⟨hk.1, hle, by rw [termAt_isPrefix (h.log t) hle]; exact hk.2.2⟩

theorem Guarded.extends {P P' : List E} {t k hi hi' : Nat}
    (hg : p.Guarded P t k hi) (hk : k ≤ (p.log t).length) (hP : P <+: P') (hhi : hi ≤ hi') : q.Guarded P' t k hi' := by
  rw [Guarded]
  rw [h.take_log hk]
  rcases hg with hpre | ⟨t', hlt, hle, hled, hnot⟩
  · exact inl (hpre.trans hP)
  · refine inr ⟨t', hlt, le_trans hle hhi, h.led t' hled, ?_⟩
    rw [h.start t' hled]
    exact hnot

end

end Extends

/-! ### Consequences of the invariant -/

section Sound

variable [Fintype α] {p : Protocol α E} (hp : p.Sound tm)
include hp

variable {P : List E}

theorem Sound.valid_of_below {T : Nat} (h : p.Below T P) : p.toLedger.Valid tm P := by
  obtain ⟨t, -, ht⟩ := h
  exact (hp.wf.valid t).of_isPrefix ht

theorem Sound.termAt_le_of_below {T k : Nat} (h : p.Below T P) (hk : k ≤ P.length) : termAt tm P k ≤ T := by
  obtain ⟨t, hle, ht⟩ := h
  rw [termAt_isPrefix ht hk]
  exact le_trans (hp.wf.termAt_log_le t (le_trans hk ht.length_le)) hle

/-- The starting log of a leader contains what a majority was recorded to hold of an entry that an
earlier leader wrote. -/
theorem Sound.start_of_quorum {T t k : Nat} (hT : p.led T) (ht : t < T) (hown : p.Own tm t k)
    {Q : Finset α} (hQ : Majority Q) (hm : ∀ v ∈ Q, ∃ m, k ≤ m ∧ p.matched v t m) : (p.log t).take k <+: p.start T := by
  induction T using Nat.strong_induction_on with
  | _ T ih =>
    obtain ⟨W, hW, hvoter⟩ := hp.elected T hT
    obtain ⟨v, hvW, hvQ⟩ := hW.exists_mem_inter hQ
    obtain ⟨m, hkm, hmv⟩ := hm v hvQ
    rcases (hvoter v hvW).2 t m k ht hmv hkm hown with h | ⟨t', hlt, hle, hled, hnot⟩
    · exact h
    · -- the log of an earlier term would be the first to miss the prefix
      exact absurd (ih t' (by omega) hled hlt) hnot

/-- Leader completeness: the starting log of a leader contains what earlier leaders committed. -/
theorem Sound.completeness {T t k : Nat} (hT : p.led T) (hd : p.direct t k) (ht : t < T) :
    (p.log t).take k <+: p.start T := by
  obtain ⟨-, hown, Q, hQ, hm⟩ := hp.direct_ok t k hd
  exact hp.start_of_quorum hT ht hown hQ hm

theorem Sound.committed_prefix_log {T : Nat} (hP : p.Committed T P) (hT : p.led T) : P <+: p.log T := by
  rcases hP with rfl | ⟨t, k, hd, hle, hpre⟩
  · exact nil_prefix
  · rcases Nat.lt_or_ge t T with hlt | hge
    · exact hpre.trans ((hp.completeness hT hd hlt).trans (hp.wf.start_isPrefix T))
    · have heq : t = T := by omega
      subst heq
      exact hpre.trans (List.take_prefix _ _)

theorem Sound.committed_prefix_top {T : Nat} (hP : p.Committed T P) : P <+: p.top := by
  rcases hP with rfl | ⟨t, k, hd, -, hpre⟩
  · exact nil_prefix
  · exact hpre.trans (hp.direct_top t k hd)

theorem Sound.committed_prefix_of_le {T T' : Nat} {Q : List E} (hP : p.Committed T P)
    (hQ : p.Committed T' Q) (h : P.length ≤ Q.length) : P <+: Q :=
  prefix_of_prefix_length_le (hp.committed_prefix_top hP) (hp.committed_prefix_top hQ) h

/-- An entry of term `T` lies above everything committed in earlier terms: what is committed up to
`T` at its index was committed in `T`. -/
theorem Sound.direct_of_own {T k : Nat} (hT : p.led T) (hk : p.Own tm T k) (hP : p.Committed T P)
    (hm : k ≤ P.length) : ∃ k', p.direct T k' ∧ k ≤ k' := by
  rcases hP with rfl | ⟨t, k', hd, hle, hpre⟩
  · have := hk.1
    simp only [length_nil] at hm
    omega
  · have hkk' : k ≤ k' := by
      have := hpre.length_le
      rw [length_take] at this
      omega
    rcases Nat.lt_or_ge t T with hlt | hge
    · have hstart := (hpre.trans (hp.completeness hT hd hlt)).length_le
      have := hp.wf.start_lt T k hk.1 (by omega)
      rw [termAt_isPrefix (hp.wf.start_isPrefix T) (by omega), hk.2.2] at this
      omega
    · have heq : t = T := by omega
      subst heq
      exact ⟨k', hd, hkk'⟩

theorem Sound.log_nil {t : Nat} (h : ¬ p.led t) : p.log t = [] := by
  by_contra hne
  exact h (hp.led_of_log t hne)

/-- The winner's log contains what its voters were recorded to hold, or the starting log of an
earlier leader does not. -/
theorem Sound.elect_guarded {i v : α} (h : ¬ p.led (p.seen i))
    (hi : p.held i = p.voteLog i (p.seen i)) (hv : p.vote v (p.seen i) = some i) {t m k : Nat}
    (ht : t < p.seen i) (hm : p.matched v t m) (hkm : k ≤ m) (hown : p.Own tm t k) :
    p.Guarded (p.held i) t k (p.seen i - 1) := by
  have hne : ∀ t', p.led t' → t' ≠ p.seen i := by
    rintro t' ht' rfl
    exact h ht'
  have hrec := (hp.vote_recent v _ i hv).2
  rw [← hi] at hrec
  have hvote : p.vote v (p.seen i) ≠ none := by rw [hv]; simp
  rcases hp.matched_vote v _ t m k hvote ht hm hkm hown with hpre | ⟨t', hlt, hle, hled, hnot⟩
  · have hvalid := hp.valid_of_below (hp.vote_below v _ hvote)
    rcases (hp.valid_of_below (hp.held_below i)).carries hp.wf hvalid hrec hown.1 hown.2.1 hown.2.2
      hpre with h1 | ⟨hlt, hnot⟩
    · exact inl h1
    · -- the last entry of the winner's log was written by the leader of an earlier term
      have hpos : 0 < (p.held i).length := by
        by_contra h0
        rw [lastTerm, Nat.eq_zero_of_not_pos h0] at hlt
        simp at hlt
      have hlog := (hp.valid_of_below (hp.held_below i)) _ hpos (le_refl _)
      have hled : p.led (lastTerm tm (p.held i)) := by
        refine hp.led_of_log _ fun hnil => ?_
        have := hlog.1
        rw [lastTerm] at hnil
        rw [hnil, length_nil] at this
        omega
      have hle : lastTerm tm (p.held i) ≤ p.seen i :=
        hp.termAt_le_of_below (hp.held_below i) (le_refl _)
      have := hne _ hled
      exact inr ⟨_, hlt, by omega, hled, hnot⟩
  · have := hne t' hled
    exact inr ⟨t', hlt, by omega, hled, hnot⟩

end Sound

section SoundExtends

variable [Fintype α] {p q : Protocol α E}

section

variable (hp : p.Sound tm)
include hp

theorem Committed.extends (h : p.Extends q) {T : Nat} {P : List E}
    (hP : p.Committed T P) : q.Committed T P := by
  rcases hP with rfl | ⟨t, k, hd, hle, hpre⟩
  · exact inl rfl
  · refine inr ⟨t, k, h.direct t k hd, hle, ?_⟩
    rw [h.take_log (hp.direct_ok t k hd).2.1.2.1]
    exact hpre

theorem Sound.direct_ok_extends (h : p.Extends q) {t k : Nat}
    (hd : p.direct t k) : q.led t ∧ q.Own tm t k ∧
      ∃ Q : Finset α, Majority Q ∧ ∀ v ∈ Q, ∃ m, k ≤ m ∧ q.matched v t m := by
  obtain ⟨hled, hown, Q, hQ, hm⟩ := hp.direct_ok t k hd
  refine ⟨h.led t hled, hown.extends h, Q, hQ, fun v hv => ?_⟩
  obtain ⟨m, hkm, hmv⟩ := hm v hv
  exact ⟨m, hkm, h.matched v t m hmv⟩

theorem Sound.take_direct (h : p.Extends q) {t k : Nat} (hd : p.direct t k) :
    (q.log t).take k = (p.log t).take k :=
  h.take_log (hp.direct_ok t k hd).2.1.2.1

theorem Sound.elected_extends (h : p.Extends q) {T : Nat} (hT : p.led T)
    (hnew : ∀ v t m, T ≤ p.seen v → t < T → q.matched v t m → p.matched v t m) :
    ∃ W : Finset α, Majority W ∧ ∀ v ∈ W, T ≤ q.seen v ∧ ∀ t m k, t < T → q.matched v t m → k ≤ m → q.Own tm t k →
        q.Guarded (q.start T) t k (T - 1) := by
  obtain ⟨W, hW, hv⟩ := hp.elected T hT
  refine ⟨W, hW, fun v hvW => ⟨le_trans (hv v hvW).1 (h.seen v), ?_⟩⟩
  intro t m k ht hm hkm hown
  have hm' := hnew v t m (hv v hvW).1 ht hm
  have hk : k ≤ (p.log t).length := le_trans hkm (hp.matched_le v t m hm').1
  have hg := (hv v hvW).2 t m k ht hm' hkm (hown.of_extends h hk)
  refine hg.extends h hk ?_ (le_refl _)
  rw [h.start T hT]

end

end SoundExtends

end Protocol

end SystemDesignLabs.Core
