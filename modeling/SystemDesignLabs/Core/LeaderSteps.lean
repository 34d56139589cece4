import SystemDesignLabs.Core.LeaderLog

/-!
# The operations of the abstract leader protocol

Each operation of `Protocol` extends the history (`Extends`) and keeps the invariant `Sound` under
its guard: a participant sees a higher term (`raise`), votes (`cast`), is elected (`elect`), writes
an entry as leader (`write`), replaces its log by a prefix of the leader's log (`accept`), is
recorded to hold a prefix of the leader's log (`record`), and a leader commits an entry of its own
term that a majority is recorded to hold (`commit`).
-/

namespace SystemDesignLabs.Core

open List Protocol Or

universe u v

variable {α : Type v} {E : Type u} [Fintype α] {tm : E → Nat}

namespace Protocol

/-- `v` sees the term `T`. -/
def raise [DecidableEq α] (p : Protocol α E) (v : α) (T : Nat) : Protocol α E :=
  { p with seen := Function.update p.seen v T }

/-- `v` votes for `c` in the term it has seen. -/
def cast [DecidableEq α] (p : Protocol α E) (v c : α) : Protocol α E :=
  { p with
    vote := fun w t => if w = v ∧ t = p.seen v then some c else p.vote w t
    voteLog := fun w t => if w = v ∧ t = p.seen v then p.held v else p.voteLog w t }

/-- `i` becomes the leader of the term it has seen. -/
def elect (p : Protocol α E) (i : α) : Protocol α E :=
  { p with
    led := fun t => t = p.seen i ∨ p.led t
    start := Function.update p.start (p.seen i) (p.held i)
    log := Function.update p.log (p.seen i) (p.held i) }

/-- The leader `i` writes an entry. -/
def write [DecidableEq α] (p : Protocol α E) (i : α) (e : E) : Protocol α E :=
  { p with
    log := Function.update p.log (p.seen i) (p.held i ++ [e])
    held := Function.update p.held i (p.held i ++ [e]) }

/-- `v` replaces its log. -/
def accept [DecidableEq α] (p : Protocol α E) (v : α) (P : List E) : Protocol α E :=
  { p with held := Function.update p.held v P }

/-- `v` is recorded to hold the first `m` entries of the log of the term it has seen. -/
def record (p : Protocol α E) (v : α) (m : Nat) : Protocol α E :=
  { p with matched := fun w t j => (w = v ∧ t = p.seen v ∧ j = m) ∨ p.matched w t j }

/-- The leader of term `T` commits its log up to `k`. -/
def commit (p : Protocol α E) (T k : Nat) : Protocol α E :=
  { p with
    direct := fun t j => (t = T ∧ j = k) ∨ p.direct t j
    top := if p.top.length < k then (p.log T).take k else p.top }

variable {p : Protocol α E}

/-! ## Seeing a term -/

variable {v : α}

omit [Fintype α] in
theorem Extends.raise [DecidableEq α] {T : Nat} (h : p.seen v ≤ T) : p.Extends (p.raise v T) :=
  { Extends.refl p with
    seen := fun w => by
      by_cases hw : w = v
      · subst hw
        simpa [Protocol.raise] using h
      · simp [Protocol.raise, hw] }

theorem Sound.raise [DecidableEq α] (hp : p.Sound tm) {T : Nat} (h : p.seen v ≤ T) :
    (p.raise v T).Sound tm := by
  have hext := Extends.raise h
  refine { hp with
    held_below := fun w => (hp.held_below w).mono (hext.seen w)
    vote_le := fun w t hw => ⟨(hp.vote_le w t hw).1, le_trans (hp.vote_le w t hw).2 (hext.seen w)⟩
    matched_le := fun w t m hm => ⟨(hp.matched_le w t m hm).1, le_trans (hp.matched_le w t m hm).2 (hext.seen w)⟩
    matched_cur := fun w m hm => ?_
    matched_held := fun w t m k hm hkm hown => (hp.matched_held w t m k hm hkm hown).extends hext
      hown.2.1 (prefix_refl _) (hext.seen w)
    elected := fun t ht => hp.elected_extends hext ht fun _ _ _ _ _ hm => hm }
  -- what is recorded in the new term was recorded in the old one, which is the same
  have hle := (hp.matched_le w _ m hm).2
  have heq : (p.raise v T).seen w = p.seen w := le_antisymm hle (hext.seen w)
  rw [heq] at hm ⊢
  exact hp.matched_cur w m hm

/-! ## Voting -/

omit [Fintype α] in
theorem Extends.cast [DecidableEq α] {v c : α} (h : p.vote v (p.seen v) = none) : p.Extends (p.cast v c) :=
  { Extends.refl p with
    vote := fun w t d hw => by
      have hne : ¬ (w = v ∧ t = p.seen v) := by
        rintro ⟨rfl, rfl⟩
        rw [h] at hw
        exact absurd hw (by simp)
      simp only [Protocol.cast, if_neg hne]
      exact ⟨hw, trivial⟩ }

theorem Sound.cast [DecidableEq α] (hp : p.Sound tm) {v c : α} (h : p.vote v (p.seen v) = none) (hpos : 0 < p.seen v)
    (hc : c = v ∨ (p.vote c (p.seen v) = some c ∧ AtLeastAsRecent tm (p.voteLog c (p.seen v)) (p.held v))) :
    (p.cast v c).Sound tm := by
  have hext := Extends.cast (c := c) h
  -- a vote other than the new one is an old vote
  have hold : ∀ {w : α} {t : Nat}, ¬ (w = v ∧ t = p.seen v) →
      (p.cast v c).vote w t = p.vote w t ∧ (p.cast v c).voteLog w t = p.voteLog w t := by
    intro w t hne
    simp only [Protocol.cast, if_neg hne, and_self]
  have hnew : (p.cast v c).vote v (p.seen v) = some c ∧
      (p.cast v c).voteLog v (p.seen v) = p.held v := by
    simp [Protocol.cast]
  refine { hp with
    vote_le := fun w t hw => ?_
    vote_below := fun w t hw => ?_
    vote_recent := fun w t d hw => ?_
    matched_vote := fun w T t m k hw ht hm hkm hown => ?_ }
  · by_cases hc' : w = v ∧ t = p.seen v
    · obtain ⟨rfl, rfl⟩ := hc'
      exact ⟨hpos, le_refl _⟩
    · rw [(hold hc').1] at hw
      exact hp.vote_le w t hw
  · by_cases hc' : w = v ∧ t = p.seen v
    · obtain ⟨rfl, rfl⟩ := hc'
      rw [hnew.2]
      exact hp.held_below w
    · rw [(hold hc').1] at hw
      rw [(hold hc').2]
      exact hp.vote_below w t hw
  · by_cases hc' : w = v ∧ t = p.seen v
    · obtain ⟨rfl, rfl⟩ := hc'
      rw [hnew.1, Option.some.injEq] at hw
      subst hw
      rcases hc with rfl | ⟨hcv, hrec⟩
      · rw [hnew.2]
        exact ⟨hnew.1, inr ⟨rfl, le_refl _⟩⟩
      · obtain ⟨h1, h2⟩ := hext.vote c _ c hcv
        rw [hnew.2, h2]
        exact ⟨h1, hrec⟩
    · rw [(hold hc').1] at hw
      obtain ⟨h1, h2⟩ := hp.vote_recent w t d hw
      obtain ⟨h3, h4⟩ := hext.vote d t d h1
      rw [h4, (hold hc').2]
      exact ⟨h3, h2⟩
  · by_cases hc' : w = v ∧ T = p.seen v
    · obtain ⟨rfl, rfl⟩ := hc'
      rw [hnew.2]
      exact hp.matched_held w t m k hm hkm hown
    · rw [(hold hc').1] at hw
      rw [(hold hc').2]
      exact hp.matched_vote w T t m k hw ht hm hkm hown

/-! ## Electing a leader -/

variable {i : α}

section

variable (hp : p.Sound tm)
include hp

theorem Extends.elect (h : ¬ p.led (p.seen i)) : p.Extends (p.elect i) := by
  have hne : ∀ t, p.led t → t ≠ p.seen i := by
    rintro t ht rfl
    exact h ht
  refine { Extends.refl p with
    log := fun t => ?_
    start := fun t ht => by simp [Protocol.elect, hne t ht]
    led := fun t ht => inr ht }
  by_cases ht : t = p.seen i
  · subst ht
    rw [hp.log_nil h]
    exact nil_prefix
  · simp [Protocol.elect, ht]

theorem Sound.elect_wf (h : ¬ p.led (p.seen i)) (hpos : 0 < p.seen i) :
    (p.elect i).toLedger.WellFormed tm := by
  have hext := Extends.elect hp h
  have hnew : (p.elect i).log (p.seen i) = p.held i ∧ (p.elect i).start (p.seen i) = p.held i := by
    simp [elect]
  have hold : ∀ {t : Nat}, t ≠ p.seen i →
      (p.elect i).log t = p.log t ∧ (p.elect i).start t = p.start t := by
    intro t ht
    simp [elect, ht]
  refine ⟨fun t => ?_, fun t k hk hkl => ?_, fun t k hk hkl => ?_, fun t => ?_, ?_⟩
  · by_cases ht : t = p.seen i
    · subst ht
      rw [hnew.1, hnew.2]
    · rw [(hold ht).1, (hold ht).2]
      exact hp.wf.start_isPrefix t
  · by_cases ht : t = p.seen i
    · subst ht
      rw [hnew.2] at hkl ⊢
      obtain ⟨t', hle, hpre⟩ := hp.held_below i
      have hlen := hpre.length_le
      have hlt : t' ≠ p.seen i := by
        rintro rfl
        rw [hp.log_nil h, length_nil] at hlen
        omega
      rw [termAt_isPrefix hpre hkl]
      have := hp.wf.termAt_log_le t' (le_trans hkl hlen)
      omega
    · rw [(hold ht).2] at hkl ⊢
      exact hp.wf.start_lt t k hk hkl
  · by_cases ht : t = p.seen i
    · subst ht
      rw [hnew.1] at hkl
      rw [hnew.2] at hk
      omega
    · rw [(hold ht).1] at hkl ⊢
      rw [(hold ht).2] at hk
      exact hp.wf.own t k hk hkl
  · by_cases ht : t = p.seen i
    · subst ht
      rw [hnew.1]
      exact (hp.valid_of_below (hp.held_below i)).grows hext.log
    · rw [(hold ht).1]
      exact (hp.wf.valid t).grows hext.log
  · rw [(hold (by omega)).1]
    exact hp.wf.zero

/-- A recorded entry of the term's own stays one when logs grow. -/
theorem Sound.own_of_extends {q : Protocol α E} (hext : p.Extends q) {t m k : Nat}
    (hm : p.matched v t m) (hkm : k ≤ m) (hk : q.Own tm t k) : p.Own tm t k ∧ k ≤ (p.log t).length := by
  have hle := le_trans hkm (hp.matched_le v t m hm).1
  exact ⟨hk.of_extends hext hle, hle⟩

theorem Sound.elect (h : ¬ p.led (p.seen i)) (hi : p.held i = p.voteLog i (p.seen i))
    {W : Finset α} (hW : Majority W) (hv : ∀ v ∈ W, p.vote v (p.seen i) = some i) : (p.elect i).Sound tm := by
  have hext := Extends.elect hp h
  obtain ⟨v₀, hv₀, -⟩ := hW.exists_mem_inter hW
  have hpos : 0 < p.seen i := (hp.vote_le v₀ _ (by rw [hv v₀ hv₀]; simp)).1
  refine {
    wf := hp.elect_wf h hpos
    led_of_log := fun t ht => ?_
    led_pos := fun t ht => ?_
    held_below := fun v => (hp.held_below v).extends hext
    vote_le := hp.vote_le
    vote_below := fun v t hvt => (hp.vote_below v t hvt).extends hext
    vote_recent := hp.vote_recent
    matched_le := fun v t m hm => ⟨le_trans (hp.matched_le v t m hm).1 (hext.log t).length_le,
      (hp.matched_le v t m hm).2⟩
    matched_cur := fun v m hm => ?_
    matched_held := fun v t m k hm hkm hk => (hp.matched_held v t m k hm hkm
      (hp.own_of_extends hext hm hkm hk).1).extends hext (hp.own_of_extends hext hm hkm hk).2 (prefix_refl _) (le_refl _)
    matched_vote := fun v T t m k hvT ht hm hkm hk => (hp.matched_vote v T t m k hvT ht hm hkm
      (hp.own_of_extends hext hm hkm hk).1).extends hext (hp.own_of_extends hext hm hkm hk).2 (prefix_refl _) (le_refl _)
    elected := fun T hT => ?_
    direct_ok := fun t k hd => hp.direct_ok_extends hext hd
    top_direct := ?_
    direct_top := fun t k hd => (hp.take_direct hext hd).symm ▸ hp.direct_top t k hd }
  · by_cases hti : t = p.seen i
    · exact inl hti
    · refine inr (hp.led_of_log t ?_)
      simpa [Protocol.elect, hti] using ht
  · rcases ht with rfl | ht
    · exact hpos
    · exact hp.led_pos t ht
  · have heq := hext.take_log (hp.matched_le v _ m hm).1
    exact heq.symm ▸ hp.matched_cur v m hm
  · by_cases hTi : T = p.seen i
    · subst hTi
      refine ⟨W, hW, fun v hvW => ⟨(hp.vote_le v _ (by rw [hv v hvW]; simp)).2, ?_⟩⟩
      intro t m k ht hm hkm hk
      have hg := hp.elect_guarded h hi (hv v hvW) ht hm hkm (hp.own_of_extends hext hm hkm hk).1
      refine hg.extends hext (hp.own_of_extends hext hm hkm hk).2 ?_ (le_refl _)
      simp [Protocol.elect]
    · rcases hT with hT | hT
      · exact absurd hT hTi
      · exact hp.elected_extends hext hT fun _ _ _ _ _ hm => hm
  · rcases hp.top_direct with htop | ⟨t, k, hd, htop⟩
    · exact inl htop
    · exact inr ⟨t, k, hd, (hp.take_direct hext hd).symm ▸ htop⟩

end

/-! ## Writing as leader -/

omit [Fintype α] in
theorem write_log_self [DecidableEq α] (i : α) (e : E) : (p.write i e).log (p.seen i) = p.held i ++ [e] := by
  simp [write]

omit [Fintype α] in
theorem write_log_ne [DecidableEq α] (i : α) (e : E) {t : Nat} (ht : t ≠ p.seen i) : (p.write i e).log t = p.log t := by
  simp [write, ht]

omit [Fintype α] in
theorem Extends.write [DecidableEq α] (h : p.held i = p.log (p.seen i)) (e : E) : p.Extends (p.write i e) :=
  { Extends.refl p with
    log := fun t => by
      by_cases ht : t = p.seen i
      · subst ht
        rw [write_log_self, h]
        exact prefix_append _ _
      · rw [write_log_ne i e ht] }

theorem Sound.write_wf [DecidableEq α] (hp : p.Sound tm) (hled : p.led (p.seen i))
    (h : p.held i = p.log (p.seen i)) {e : E} (he : tm e = p.seen i) : (p.write i e).toLedger.WellFormed tm := by
  have hext := Extends.write h e
  have hstart : ∀ t, (p.write i e).start t = p.start t := fun _ => rfl
  have hlast : termAt tm ((p.write i e).log (p.seen i)) ((p.held i).length + 1) = p.seen i := by
    rw [write_log_self, ← he]
    exact termAt_of_getElem? (by simp)
  refine ⟨fun t => (hp.wf.start_isPrefix t).trans (hext.log t), hp.wf.start_lt, fun t k hk hkl => ?_, fun t => ?_, ?_⟩
  · rw [hstart] at hk
    by_cases hlen : k ≤ (p.log t).length
    · rw [← termAt_isPrefix (hext.log t) hlen]
      exact hp.wf.own t k hk hlen
    · -- only the log of the leader has grown, by the new entry
      by_cases ht : t = p.seen i
      · subst ht
        rw [write_log_self, length_append, length_singleton, h] at hkl
        have hkeq : k = (p.held i).length + 1 := by rw [h]; omega
        rw [hkeq]
        exact hlast
      · rw [write_log_ne i e ht] at hkl
        exact absurd hkl hlen
  · by_cases ht : t = p.seen i
    · subst ht
      intro k hk hkl
      have hlen : ((p.write i e).log (p.seen i)).length = (p.held i).length + 1 := by
        rw [write_log_self]
        simp
      by_cases hkh : k ≤ (p.held i).length
      · rw [h] at hkh
        have hv := (hp.wf.valid (p.seen i)).grows hext.log k hk hkh
        rwa [termAt_isPrefix (hext.log _) hkh, take_eq_of_isPrefix (hext.log _) hkh] at hv
      · have hkeq : k = (p.held i).length + 1 := by omega
        rw [hkeq, hlast]
        exact ⟨le_of_eq hlen.symm, rfl⟩
    · rw [write_log_ne i e ht]
      exact (hp.wf.valid t).grows hext.log
  · have := hp.led_pos _ hled
    rw [write_log_ne i e (by omega)]
    exact hp.wf.zero

theorem Sound.write [DecidableEq α] (hp : p.Sound tm) (hled : p.led (p.seen i))
    (h : p.held i = p.log (p.seen i)) {e : E} (he : tm e = p.seen i) : (p.write i e).Sound tm := by
  have hext := Extends.write h e
  have hheld : ∀ v, p.held v <+: (p.write i e).held v := by
    intro v
    by_cases hv : v = i
    · subst hv
      simp [write]
    · simp [Protocol.write, hv]
  refine {
    wf := hp.write_wf hled h he
    led_of_log := fun t ht => ?_
    led_pos := hp.led_pos
    held_below := fun v => ?_
    vote_le := hp.vote_le
    vote_below := fun v t hvt => (hp.vote_below v t hvt).extends hext
    vote_recent := hp.vote_recent
    matched_le := fun v t m hm => ⟨le_trans (hp.matched_le v t m hm).1 (hext.log t).length_le,
      (hp.matched_le v t m hm).2⟩
    matched_cur := fun v m hm => ?_
    matched_held := fun v t m k hm hkm hk => (hp.matched_held v t m k hm hkm
      (hp.own_of_extends hext hm hkm hk).1).extends hext (hp.own_of_extends hext hm hkm hk).2 (hheld v) (le_refl _)
    matched_vote := fun v T t m k hvT ht hm hkm hk => (hp.matched_vote v T t m k hvT ht hm hkm
      (hp.own_of_extends hext hm hkm hk).1).extends hext (hp.own_of_extends hext hm hkm hk).2 (prefix_refl _) (le_refl _)
    elected := fun T hT => hp.elected_extends hext hT fun _ _ _ _ _ hm => hm
    direct_ok := fun t k hd => hp.direct_ok_extends hext hd
    top_direct := ?_
    direct_top := fun t k hd => (hp.take_direct hext hd).symm ▸ hp.direct_top t k hd }
  · by_cases hti : t = p.seen i
    · exact hti ▸ hled
    · rw [write_log_ne i e hti] at ht
      exact hp.led_of_log t ht
  · by_cases hv : v = i
    · subst hv
      refine ⟨p.seen v, le_refl _, ?_⟩
      rw [write_log_self]
      simp [write]
    · have := (hp.held_below v).extends hext
      simpa [Protocol.write, hv] using this
  · have heq := hext.take_log (hp.matched_le v _ m hm).1
    exact heq.symm ▸ (hp.matched_cur v m hm).trans (hheld v)
  · rcases hp.top_direct with htop | ⟨t, k, hd, htop⟩
    · exact inl htop
    · exact inr ⟨t, k, hd, (hp.take_direct hext hd).symm ▸ htop⟩

/-! ## Taking over the leader's log -/

omit [Fintype α] in
theorem Extends.accept [DecidableEq α] (v : α) (P : List E) : p.Extends (p.accept v P) :=
  { Extends.refl p with }

omit [Fintype α] in
/-- A prefix of `l` that the held log contains is contained in the prefix `P` of `l` that replaces
it, unless the replacement only shortens the log. -/
theorem prefix_of_replaced {l H P Q : List E} (hQ : Q <+: l) (hP : P <+: l) (hQH : Q <+: H)
    (h : ¬ (P <+: H ∧ P.length < H.length)) : Q <+: P := by
  rcases Nat.le_total Q.length P.length with hle | hle
  · exact prefix_of_prefix_length_le hQ hP hle
  · have hPQ := prefix_of_prefix_length_le hP hQ hle
    have hlen : P.length = H.length := by
      have h1 := (hPQ.trans hQH).length_le
      by_contra hne
      exact h ⟨hPQ.trans hQH, by omega⟩
    have heq : P = H := (hPQ.trans hQH).eq_of_length hlen
    exact heq ▸ hQH

theorem Sound.accept [DecidableEq α] (hp : p.Sound tm) {P : List E} (hled : p.led (p.seen v))
    (hP : P <+: p.log (p.seen v)) (h : ¬ (P <+: p.held v ∧ P.length < (p.held v).length)) :
    (p.accept v P).Sound tm := by
  have hnew : (p.accept v P).held v = P := by simp [Protocol.accept]
  have hold : ∀ {w : α}, w ≠ v → (p.accept v P).held w = p.held w := by
    intro w hw
    simp [Protocol.accept, hw]
  refine { hp with
    held_below := fun w => ?_
    matched_cur := fun w m hm => ?_
    matched_held := fun w t m k hm hkm hown => ?_ }
  · by_cases hw : w = v
    · subst hw
      rw [hnew]
      exact ⟨p.seen w, le_refl _, hP⟩
    · rw [hold hw]
      exact hp.held_below w
  · by_cases hw : w = v
    · subst hw
      rw [hnew]
      exact prefix_of_replaced (List.take_prefix _ _) hP (hp.matched_cur w m hm) h
    · rw [hold hw]
      exact hp.matched_cur w m hm
  · by_cases hw : w = v
    · subst hw
      rw [hnew]
      rcases hp.matched_held w t m k hm hkm hown with hpre | hmiss
      · have hle := (hp.matched_le w t m hm).2
        rcases Nat.lt_or_ge t (p.seen w) with hlt | hge
        · -- the log comes from a later leader, whose starting log has the prefix or not
          by_cases hs : (p.log t).take k <+: p.start (p.seen w)
          · exact inl (prefix_of_replaced (hs.trans (hp.wf.start_isPrefix _)) hP hpre h)
          · exact inr ⟨p.seen w, hlt, le_refl _, hled, hs⟩
        · have heq : t = p.seen w := le_antisymm hle hge
          subst heq
          exact inl (prefix_of_replaced (List.take_prefix _ _) hP hpre h)
      · exact inr hmiss
    · rw [hold hw]
      exact hp.matched_held w t m k hm hkm hown

/-! ## Recording a match -/

omit [Fintype α] in
theorem Extends.record (v : α) (m : Nat) : p.Extends (p.record v m) :=
  { Extends.refl p with matched := fun _ _ _ hm => inr hm }

theorem Sound.record (hp : p.Sound tm) {m : Nat} (hm : m ≤ (p.log (p.seen v)).length)
    (h : (p.log (p.seen v)).take m <+: p.held v) : (p.record v m).Sound tm := by
  have hext : p.Extends (p.record v m) := Extends.record v m
  refine { hp with
    matched_le := fun w t j hj => ?_
    matched_cur := fun w j hj => ?_
    matched_held := fun w t j k hj hkj hown => ?_
    matched_vote := fun w T t j k hw ht hj hkj hown => ?_
    elected := fun T hT => hp.elected_extends hext hT fun w t j hT' ht hj => ?_
    direct_ok := fun t k hd => hp.direct_ok_extends hext hd }
  · rcases hj with ⟨rfl, rfl, rfl⟩ | hj
    · exact ⟨hm, le_refl _⟩
    · exact hp.matched_le w t j hj
  · rcases hj with ⟨rfl, -, rfl⟩ | hj
    · exact h
    · exact hp.matched_cur w j hj
  · rcases hj with ⟨rfl, rfl, rfl⟩ | hj
    · refine inl (IsPrefix.trans ?_ h)
      exact take_prefix_take_left hkj
    · exact hp.matched_held w t j k hj hkj hown
  · rcases hj with ⟨rfl, rfl, rfl⟩ | hj
    · have := (hp.vote_le w T hw).2
      omega
    · exact hp.matched_vote w T t j k hw ht hj hkj hown
  · rcases hj with ⟨rfl, rfl, -⟩ | hj
    · omega
    · exact hj

/-! ## Committing -/

variable {T k : Nat} {Q : Finset α}

section

variable (hp : p.Sound tm)
include hp

theorem Sound.comparable_of_quorum (hT : p.led T) (hk : p.Own tm T k) (hQ : Majority Q)
    (hm : ∀ v ∈ Q, ∃ m, k ≤ m ∧ p.matched v T m) : (p.log T).take k <+: p.top ∨ p.top <+: (p.log T).take k := by
  rcases hp.top_direct with htop | ⟨t, j, hd, htop⟩
  · rw [htop]
    exact inr nil_prefix
  · rw [htop]
    -- both are prefixes of the log of the later of the two terms
    have key : ∃ l, (p.log T).take k <+: l ∧ (p.log t).take j <+: l := by
      rcases Nat.lt_trichotomy t T with hlt | heq | hgt
      · exact ⟨p.log T, take_prefix _ _, (hp.completeness hT hd hlt).trans (hp.wf.start_isPrefix T)⟩
      · exact ⟨p.log T, take_prefix _ _, heq ▸ take_prefix _ _⟩
      · have hled := (hp.direct_ok t j hd).1
        exact ⟨p.log t, (hp.start_of_quorum hled hgt hk hQ hm).trans (hp.wf.start_isPrefix t), take_prefix _ _⟩
    obtain ⟨l, h1, h2⟩ := key
    exact prefix_or_prefix_of_prefix h1 h2

theorem Sound.top_commit (hT : p.led T) (hk : p.Own tm T k) (hQ : Majority Q)
    (hm : ∀ v ∈ Q, ∃ m, k ≤ m ∧ p.matched v T m) :
    p.top <+: (p.commit T k).top ∧ (p.log T).take k <+: (p.commit T k).top := by
  have hlen : ((p.log T).take k).length = k := by
    rw [length_take]
    exact Nat.min_eq_left hk.2.1
  have hcomp := hp.comparable_of_quorum hT hk hQ hm
  simp only [commit]
  split
  case isTrue hlt =>
    refine ⟨?_, prefix_refl _⟩
    rcases hcomp with h | h
    · have := h.length_le
      omega
    · exact h
  case isFalse hge =>
    refine ⟨prefix_refl _, ?_⟩
    rcases hcomp with h | h
    · exact h
    · have := h.length_le
      have heq := h.eq_of_length (by omega)
      exact heq ▸ prefix_refl _

theorem Extends.commit (hT : p.led T) (hk : p.Own tm T k) (hQ : Majority Q)
    (hm : ∀ v ∈ Q, ∃ m, k ≤ m ∧ p.matched v T m) : p.Extends (p.commit T k) :=
  { Extends.refl p with
    direct := fun _ _ hd => inr hd
    top := (hp.top_commit hT hk hQ hm).1 }

theorem Sound.commit (hT : p.led T) (hk : p.Own tm T k) (hQ : Majority Q)
    (hm : ∀ v ∈ Q, ∃ m, k ≤ m ∧ p.matched v T m) : (p.commit T k).Sound tm := by
  have htop := hp.top_commit hT hk hQ hm
  refine { hp with
    direct_ok := fun t j hd => ?_
    top_direct := ?_
    direct_top := fun t j hd => ?_ }
  · rcases hd with ⟨rfl, rfl⟩ | hd
    · exact ⟨hT, hk, Q, hQ, hm⟩
    · exact hp.direct_ok t j hd
  · by_cases hlt : p.top.length < k
    · exact inr ⟨T, k, inl ⟨rfl, rfl⟩, by simp [Protocol.commit, hlt]⟩
    · have hsame : (p.commit T k).top = p.top := by simp only [Protocol.commit, if_neg hlt]
      rw [hsame]
      rcases hp.top_direct with h | ⟨t, j, hd, h⟩
      · exact inl h
      · exact inr ⟨t, j, inr hd, h⟩
  · rcases hd with ⟨rfl, rfl⟩ | hd
    · exact htop.2
    · exact (hp.direct_top t j hd).trans htop.1

end

omit [Fintype α] in
theorem committed_commit : (p.commit T k).Committed T ((p.log T).take k) :=
  inr ⟨T, k, inl ⟨rfl, rfl⟩, le_refl _, prefix_refl _⟩

omit [Fintype α] in
theorem commit_top (T k : Nat) : (p.commit T k).top = p.top ∨ (p.commit T k).top = (p.log T).take k := by
  simp only [commit]
  split
  · exact inr rfl
  · exact inl rfl

/-! ## The initial state -/

/-- Nothing has been written, seen or voted. -/
def initial (α : Type v) (E : Type u) : Protocol α E where
  start := fun _ => []
  log := fun _ => []
  led := fun _ => False
  seen := fun _ => 0
  held := fun _ => []
  vote := fun _ _ => none
  voteLog := fun _ _ => []
  matched := fun _ _ _ => False
  direct := fun _ _ => False
  top := []

theorem Sound.initial : (initial α E).Sound tm where
  wf := ⟨fun _ => prefix_refl _,
    fun _ _ hk hkl => absurd hk (by simp only [Protocol.initial, length_nil] at hkl; omega),
    fun _ _ hk hkl => absurd hk (by simp only [Protocol.initial, length_nil] at hkl ⊢; omega),
    fun _ => Ledger.Valid.nil _, rfl⟩
  led_of_log := fun _ h => absurd rfl h
  led_pos := fun _ h => h.elim
  held_below := fun _ => ⟨0, le_refl _, prefix_refl _⟩
  vote_le := fun _ _ h => absurd rfl h
  vote_below := fun _ _ h => absurd rfl h
  vote_recent := fun _ _ _ h => absurd h (by simp [Protocol.initial])
  matched_le := fun _ _ _ h => h.elim
  matched_cur := fun _ _ h => h.elim
  matched_held := fun _ _ _ _ h => h.elim
  matched_vote := fun _ _ _ _ _ h => absurd rfl h
  elected := fun _ h => h.elim
  direct_ok := fun _ _ h => h.elim
  top_direct := inl rfl
  direct_top := fun _ _ h => h.elim

end Protocol

end SystemDesignLabs.Core
