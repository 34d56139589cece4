import Mathlib

/-!
# Causality and vector time

A history lists the events of some processes in the order in which they happen; an event may receive a
message, which is named by the event that sent it. `Precedes` is the causal order: the transitive closure
of process order and send-before-receive. Each event carries a vector stamp. When stamps follow the usual
rule (`Stamped`: take the maximum of the own vector and the received one, then count the event itself),
the causal order is the order of the stamps (`Stamped.precedes_iff`).
-/

namespace SystemDesignLabs.Core

open List Function

universe u

/-- An event of a process, the sending event of the message it receives, if any, and its stamp. -/
structure StampedEvent (ι : Type u) where
  proc : ι
  received : Option Nat
  stamp : ι → Nat

namespace StampedEvent

variable {ι : Type u}

/-- The event at one index comes directly before the other one, at the same process or as the sender. -/
def Direct (h : List (StampedEvent ι)) (d e : Nat) : Prop :=
  d < e ∧ ∃ a b, h[d]? = some a ∧ h[e]? = some b ∧ (a.proc = b.proc ∨ b.received = some d)

/-- The causal order. -/
def Precedes (h : List (StampedEvent ι)) : Nat → Nat → Prop := Relation.TransGen (Direct h)

variable {h : List (StampedEvent ι)} {x : StampedEvent ι} {d e : Nat}

theorem Precedes.lt (hp : Precedes h d e) : d < e := by
  induction hp with
  | single hd => exact hd.1
  | tail _ hd ih => exact Nat.lt_trans ih hd.1

theorem direct_append (he : e < h.length) : Direct (h ++ [x]) d e ↔ Direct h d e := by
  rw [Direct, Direct]
  refine and_congr_right fun hde => ?_
  rw [getElem?_append_left (Nat.lt_trans hde he), getElem?_append_left he]

theorem precedes_append (he : e < h.length) : Precedes (h ++ [x]) d e ↔ Precedes h d e := by
  constructor
  · intro hp
    induction hp with
    | single hd => exact .single ((direct_append he).1 hd)
    | tail _ hd ih => exact (ih (Nat.lt_trans hd.1 he)).tail ((direct_append he).1 hd)
  · intro hp
    induction hp with
    | single hd => exact .single ((direct_append he).2 hd)
    | tail _ hd ih => exact (ih (Nat.lt_trans hd.1 he)).tail ((direct_append he).2 hd)

theorem precedes_last : Precedes (h ++ [x]) d h.length ↔
    ∃ p, Direct (h ++ [x]) p h.length ∧ (d = p ∨ Precedes h d p) := by
  constructor
  · intro hp
    obtain ⟨p, hp, hdirect⟩ := Relation.TransGen.tail'_iff.1 hp
    refine ⟨p, hdirect, ?_⟩
    obtain rfl | hp := Relation.reflTransGen_iff_eq_or_transGen.1 hp
    · exact .inl rfl
    · exact .inr ((precedes_append hdirect.1).1 hp)
  · rintro ⟨p, hdirect, rfl | hp⟩
    · exact .single hdirect
    · exact ((precedes_append hdirect.1).2 hp).tail hdirect

theorem direct_last : Direct (h ++ [x]) d h.length ↔ ∃ a, h[d]? = some a ∧ (a.proc = x.proc ∨ x.received = some d) := by
  rw [Direct, getElem?_concat_length]
  constructor
  · rintro ⟨hlt, a, b, ha, hb, hab⟩
    rw [getElem?_append_left hlt] at ha
    cases hb
    exact ⟨a, ha, hab⟩
  · rintro ⟨a, ha, hab⟩
    have hlt := (List.getElem?_eq_some_iff.1 ha).1
    exact ⟨hlt, a, x, (getElem?_append_left hlt).trans ha, rfl, hab⟩

theorem Precedes.lt_of_direct {f : Nat → Nat} (hf : ∀ d e, Direct h d e → f d < f e)
    (hp : Precedes h d e) : f d < f e := by
  induction hp with
  | single hd => exact hf _ _ hd
  | tail _ hd ih => exact Nat.lt_trans ih (hf _ _ hd)

/-! ## Vector stamps -/

/-- Count one more event of a process. -/
def tick [DecidableEq ι] (i : ι) (v : ι → Nat) : ι → Nat := Function.update v i (v i + 1)

/-- The number of the event among those of its process. -/
def own (a : StampedEvent ι) : Nat := a.stamp a.proc

/-- The stamp of the received message, zero if there is none. -/
def incoming (h : List (StampedEvent ι)) (r : Option Nat) : ι → Nat :=
  ((r.bind fun m => h[m]?).map stamp).getD 0

/-- The stamps of a history tell the causal past of each event, and `now` has the last stamp of each
process. -/
structure Stamped (h : List (StampedEvent ι)) (now : ι → ι → Nat) : Prop where
  /-- The vector of a process is that of its last event, and zero before the first one. -/
  last : ∀ i, (now i = 0 ∧ ∀ (k : Nat) a, h[k]? = some a → a.proc ≠ i) ∨
    ∃ k : Nat, ∃ a, h[k]? = some a ∧ a.proc = i ∧ a.stamp = now i ∧
      ∀ (k' : Nat) a', h[k']? = some a' → a'.proc = i → k' ≤ k
  own_pos : ∀ (k : Nat) a, h[k]? = some a → 0 < a.own
  /-- An event is in the causal past of another one when its number is counted there. -/
  past : ∀ (d e : Nat) a b, h[d]? = some a → h[e]? = some b →
    (d = e ∨ Precedes h d e ↔ a.own ≤ b.stamp a.proc)
  /-- Every count is the number of an event. -/
  known : ∀ (e : Nat) b j, h[e]? = some b → 0 < b.stamp j →
    ∃ d : Nat, ∃ a, h[d]? = some a ∧ a.proc = j ∧ a.own = b.stamp j

theorem stamped_nil : Stamped ([] : List (StampedEvent ι)) 0 := by
  refine ⟨fun i => .inl ⟨rfl, ?_⟩, ?_, ?_, ?_⟩
  · exact fun k a ha => absurd ha (by simp)
  · exact fun k a ha => absurd ha (by simp)
  · exact fun d e a b ha => absurd ha (by simp)
  · exact fun e b j hb => absurd hb (by simp)

variable {now : ι → ι → Nat}

section

variable (hs : Stamped h now)
include hs

theorem Stamped.le_now {b : StampedEvent ι} (hb : h[e]? = some b) (j : ι) :
    b.stamp j ≤ now j j := by
  obtain hzero | hpos := Nat.eq_zero_or_pos (b.stamp j)
  · rw [hzero]
    exact Nat.zero_le _
  · obtain ⟨d, a, ha, hproc, hown⟩ := hs.known e b j hb hpos
    obtain ⟨-, hnone⟩ | ⟨k, c, hc, hcproc, hcstamp, hmax⟩ := hs.last j
    · exact absurd hproc (hnone d a ha)
    · have hbefore : d = k ∨ Precedes h d k := by
        obtain hlt | heq := Nat.lt_or_eq_of_le (hmax d a ha hproc)
        · exact .inr (.single ⟨hlt, a, c, ha, hc, .inl (hproc.trans hcproc.symm)⟩)
        · exact .inl heq
      have hle := (hs.past d k a c ha hc).1 hbefore
      rw [hown, hproc, hcstamp] at hle
      exact hle

theorem Stamped.mono {a b : StampedEvent ι} (ha : h[d]? = some a)
    (hb : h[e]? = some b) (hp : d = e ∨ Precedes h d e) : a.stamp ≤ b.stamp := by
  intro j
  obtain hzero | hpos := Nat.eq_zero_or_pos (a.stamp j)
  · rw [hzero]
    exact Nat.zero_le _
  · obtain ⟨k, c, hc, hproc, hown⟩ := hs.known d a j ha hpos
    have hck := (hs.past k d c a hc ha).2 (hproc ▸ hown.le)
    have hce : k = e ∨ Precedes h k e := by
      obtain rfl | hp := hp
      · exact hck
      · obtain rfl | hck := hck
        · exact .inr hp
        · exact .inr (hck.trans hp)
    have hle := (hs.past k e c b hc hb).1 hce
    rw [hown, hproc] at hle
    exact hle

theorem Stamped.le_now_iff (i : ι) {a : StampedEvent ι} (ha : h[d]? = some a) :
    a.own ≤ now i a.proc ↔ ∃ p : Nat, ∃ c, h[p]? = some c ∧ c.proc = i ∧ (d = p ∨ Precedes h d p) := by
  obtain ⟨hzero, hnone⟩ | ⟨k, b, hb, hproc, hstamp, hmax⟩ := hs.last i
  · rw [hzero]
    refine iff_of_false (Nat.not_le.2 (hs.own_pos d a ha)) ?_
    rintro ⟨p, c, hc, hci, -⟩
    exact hnone p c hc hci
  · rw [← hstamp]
    constructor
    · exact fun hle => ⟨k, b, hb, hproc, (hs.past d k a b ha hb).2 hle⟩
    · rintro ⟨p, c, hc, hci, hp⟩
      have hpk : p = k ∨ Precedes h p k := by
        obtain hlt | heq := Nat.lt_or_eq_of_le (hmax p c hc hci)
        · exact .inr (.single ⟨hlt, c, b, hc, hb, .inl (hci.trans hproc.symm)⟩)
        · exact .inl heq
      exact le_trans ((hs.past d p a c ha hc).1 hp) (hs.mono hc hb hpk a.proc)

theorem Stamped.known_now {i j : ι} (hpos : 0 < now i j) :
    ∃ d : Nat, ∃ a, h[d]? = some a ∧ a.proc = j ∧ a.own = now i j := by
  obtain ⟨hzero, -⟩ | ⟨k, b, hb, -, hstamp, -⟩ := hs.last i
  · rw [hzero] at hpos
    exact absurd hpos (Nat.lt_irrefl 0)
  · rw [← hstamp] at hpos ⊢
    exact hs.known k b j hb hpos

/-- A new event that is stamped by the rule. -/
theorem Stamped.extend [DecidableEq ι] (i : ι) {r : Option Nat}
    (hr : ∀ m ∈ r, m < h.length) {v : ι → Nat} (hv : v = tick i fun j => max (now i j) (incoming h r j)) :
    Stamped (h ++ [⟨i, r, v⟩]) (Function.update now i v) := by
  -- The event that the message comes from, and the last event of the process.
  have hincoming : (incoming h r = 0 ∧ r = none) ∨
      ∃ m c, r = some m ∧ h[m]? = some c ∧ incoming h r = c.stamp := by
    cases r with
    | none => exact .inl ⟨rfl, rfl⟩
    | some m =>
      obtain ⟨c, hc⟩ : ∃ c, h[m]? = some c := ⟨_, getElem?_eq_getElem (hr m rfl)⟩
      refine .inr ⟨m, c, rfl, hc, ?_⟩
      rw [incoming, Option.bind_some, hc]
      rfl
  have hown : v i = now i i + 1 := by
    rw [hv, tick, update_self, max_eq_left]
    obtain ⟨hzero, -⟩ | ⟨m, c, -, hc, hstamp⟩ := hincoming
    · rw [hzero]
      exact Nat.zero_le _
    · rw [hstamp]
      exact hs.le_now hc i
  have hother : ∀ j, j ≠ i → v j = max (now i j) (incoming h r j) := by
    intro j hj
    rw [hv, tick, update_of_ne hj]
  have hnew : (h ++ [⟨i, r, v⟩])[h.length]? = some ⟨i, r, v⟩ := getElem?_concat_length
  have hcases : ∀ (k : Nat) a, (h ++ [⟨i, r, v⟩])[k]? = some a →
      h[k]? = some a ∨ k = h.length ∧ a = ⟨i, r, v⟩ := by
    intro k a ha
    obtain hlt | hge := Nat.lt_or_ge k h.length
    · exact .inl (getElem?_append_left hlt ▸ ha)
    · rw [getElem?_append_right hge, getElem?_singleton] at ha
      split at ha
      · cases ha
        exact .inr ⟨by omega, rfl⟩
      · exact absurd ha (by simp)
  have hold : ∀ (k : Nat) a, h[k]? = some a → (h ++ [⟨i, r, v⟩])[k]? = some a := by
    intro k a ha
    rw [List.getElem?_append_left (List.getElem?_eq_some_iff.1 ha).1]
    exact ha
  refine ⟨?_, ?_, ?_, ?_⟩
  · intro j
    by_cases hj : j = i
    · subst hj
      rw [update_self]
      refine .inr ⟨h.length, _, hnew, rfl, rfl, ?_⟩
      intro k a ha _
      have hlt := (List.getElem?_eq_some_iff.1 ha).1
      rw [length_append, length_singleton] at hlt
      exact Nat.lt_succ_iff.1 hlt
    · rw [update_of_ne hj]
      obtain ⟨hzero, hnone⟩ | ⟨k, a, ha, hproc, hstamp, hmax⟩ := hs.last j
      · refine .inl ⟨hzero, fun k a ha => ?_⟩
        obtain ha | ⟨-, rfl⟩ := hcases k a ha
        · exact hnone k a ha
        · exact Ne.symm hj
      · refine .inr ⟨k, a, hold k a ha, hproc, hstamp, fun k' a' ha' hproc' => ?_⟩
        obtain ha' | ⟨-, rfl⟩ := hcases k' a' ha'
        · exact hmax k' a' ha' hproc'
        · exact absurd hproc' (Ne.symm hj)
  · intro k a ha
    obtain ha | ⟨-, rfl⟩ := hcases k a ha
    · exact hs.own_pos k a ha
    · exact (Nat.succ_pos _).trans_eq hown.symm
  · intro d e a b ha hb
    obtain hb | ⟨rfl, rfl⟩ := hcases e b hb
    · have he := (List.getElem?_eq_some_iff.1 hb).1
      rw [precedes_append he]
      obtain ha | ⟨rfl, rfl⟩ := hcases d a ha
      · exact hs.past d e a b ha hb
      · -- The new event is not in the past of an old one, which does not count it.
        refine iff_of_false ?_ (Nat.not_le.2 ?_)
        · rintro (heq | hp)
          · exact Nat.lt_irrefl _ (heq ▸ he)
          · exact Nat.lt_irrefl _ (hp.lt.trans he)
        · exact (Nat.lt_succ_of_le (hs.le_now hb i)).trans_eq hown.symm
    · obtain ha | ⟨rfl, rfl⟩ := hcases d a ha
      · have hd := (List.getElem?_eq_some_iff.1 ha).1
        rw [or_iff_right (Nat.ne_of_lt hd), precedes_last]
        dsimp only
        by_cases hproc : a.proc = i
        · refine iff_of_true ⟨d, (direct_last).2 ⟨a, ha, .inl hproc⟩, .inl rfl⟩ ?_
          rw [own, hproc, hown]
          exact Nat.le_succ_of_le (hs.le_now ha i)
        · rw [hother _ hproc, le_max_iff]
          constructor
          · rintro ⟨p, hdirect, hp⟩
            obtain ⟨c, hc, hci | hrp⟩ := direct_last.1 hdirect
            · exact .inl ((hs.le_now_iff i ha).2 ⟨p, c, hc, hci, hp⟩)
            · refine .inr ?_
              obtain ⟨-, hnone⟩ | ⟨m, c', hrm, hc', hstamp⟩ := hincoming
              · exact absurd (hnone.symm.trans hrp) (by simp)
              · cases hrm.symm.trans hrp
                rw [hstamp]
                exact (hs.past d p a c' ha hc').1 hp
          · rintro (hle | hle)
            · obtain ⟨p, c, hc, hci, hp⟩ := (hs.le_now_iff i ha).1 hle
              exact ⟨p, direct_last.2 ⟨c, hc, .inl hci⟩, hp⟩
            · obtain ⟨hzero, -⟩ | ⟨m, c, hrm, hc, hstamp⟩ := hincoming
              · rw [hzero] at hle
                exact absurd (hs.own_pos d a ha) (Nat.not_lt.2 hle)
              · rw [hstamp] at hle
                exact ⟨m, direct_last.2 ⟨c, hc, .inr hrm⟩, (hs.past d m a c ha hc).2 hle⟩
      · exact iff_of_true (.inl rfl) (Nat.le_refl _)
  · intro e b j hb hpos
    obtain hb | ⟨rfl, rfl⟩ := hcases e b hb
    · obtain ⟨d, a, ha, hknown⟩ := hs.known e b j hb hpos
      exact ⟨d, a, hold d a ha, hknown⟩
    · by_cases hj : j = i
      · subst hj
        exact ⟨_, _, hnew, rfl, rfl⟩
      · dsimp only at hpos ⊢
        rw [hother j hj] at hpos ⊢
        obtain hmax | hmax := max_choice (now i j) (incoming h r j)
        · rw [hmax] at hpos ⊢
          obtain ⟨d, a, ha, hknown⟩ := hs.known_now hpos
          exact ⟨d, a, hold d a ha, hknown⟩
        · rw [hmax] at hpos ⊢
          obtain ⟨hzero, -⟩ | ⟨m, c, -, hc, hstamp⟩ := hincoming
          · rw [hzero] at hpos
            exact absurd hpos (Nat.lt_irrefl 0)
          · rw [hstamp] at hpos ⊢
            obtain ⟨d, a, ha, hknown⟩ := hs.known m c j hc hpos
            exact ⟨d, a, hold d a ha, hknown⟩

/-- The causal order is the order of the stamps. -/
theorem Stamped.precedes_iff {a b : StampedEvent ι} (ha : h[d]? = some a)
    (hb : h[e]? = some b) (hne : d ≠ e) : Precedes h d e ↔ a.stamp < b.stamp := by
  constructor
  · intro hp
    refine Pi.lt_def.2 ⟨hs.mono ha hb (.inr hp), b.proc, Nat.lt_of_not_le fun hback => ?_⟩
    -- Otherwise the later event would come before the earlier one.
    obtain rfl | hpast := (hs.past e d b a hb ha).2 hback
    · exact hne rfl
    · exact absurd (Nat.lt_trans hp.lt hpast.lt) (Nat.lt_irrefl _)
  · intro hlt
    exact ((hs.past d e a b ha hb).2 (hlt.le a.proc)).resolve_left hne

end

end StampedEvent

end SystemDesignLabs.Core
