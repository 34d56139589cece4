import Mathlib

/-!
# Topological order

Kahn's algorithm: the nodes without predecessors wait in a queue; the one in front goes into the order, and each of
its successors loses a predecessor. An edge may occur more than once, and may lead back to its node. The order has all
nodes if and only if the edges contain no cycle (`length_kahn_iff`), and then each node comes after its predecessors
(`kahn_topological`).
-/

namespace SystemDesignLabs.Core

open List Function

universe u

variable {α : Type u}

/-- Each node of the list comes after all its predecessors. -/
def PredsFirst (edges : List (α × α)) (order : List α) : Prop :=
  ∀ before v after, order = before ++ v :: after → ∀ u, (u, v) ∈ edges → u ∈ before

/-- All nodes, each one after its predecessors. -/
structure Topological (nodes : List α) (edges : List (α × α)) (order : List α) : Prop where
  perm : order.Perm nodes
  before : PredsFirst edges order

/-- The edges contain a cycle. -/
def Cyclic (edges : List (α × α)) : Prop :=
  ∃ v, Relation.TransGen (fun u w => (u, w) ∈ edges) v v

/-! ## The algorithm -/

section Kahn

variable [DecidableEq α]

/-- How many edges lead to a node. -/
def inDegrees (edges : List (α × α)) : α → Int :=
  edges.foldl (fun d e => Function.update d e.2 (d e.2 + 1)) fun _ => 0

/-- The nodes that the edges of a node lead to. -/
def successors (edges : List (α × α)) (x : α) : List α := (edges.filter (·.1 = x)).map Prod.snd

/-- A node loses a predecessor, and waits when it has none left. -/
def release (st : (α → Int) × List α) (y : α) : (α → Int) × List α :=
  let d := Function.update st.1 y (st.1 y - 1)
  (d, if d y = 0 then st.2 ++ [y] else st.2)

/-- Take the nodes from the queue, one by one. -/
def kahnLoop (edges : List (α × α)) : Nat → (α → Int) → List α → List α → List α
  | _, _, [], order => order
  | 0, _, _ :: _, order => order
  | fuel + 1, d, x :: queue, order =>
    let st := (successors edges x).foldl release (d, queue)
    kahnLoop edges fuel st.1 st.2 (order ++ [x])

/-- Kahn's algorithm. A node waits once at most, so that there are no more rounds than nodes. -/
def kahn (nodes : List α) (edges : List (α × α)) : List α :=
  let d := inDegrees edges
  kahnLoop edges nodes.length d (nodes.filter (d · = 0)) []

/-! ## Degrees -/

variable {nodes order queue : List α} {edges : List (α × α)} {d : α → Int}

theorem foldl_inDegrees (edges : List (α × α)) (d : α → Int) (v : α) :
    edges.foldl (fun d e => Function.update d e.2 (d e.2 + 1)) d v = d v + edges.countP (·.2 = v) := by
  induction edges generalizing d with
  | nil => simp
  | cons e edges ih =>
    rw [foldl_cons, ih, countP_cons, update_apply]
    by_cases h : e.2 = v
    · simp only [h, if_true, decide_true]
      omega
    · simp only [Ne.symm h, h, if_false, decide_false, Bool.false_eq_true]
      omega

theorem inDegrees_eq (edges : List (α × α)) (v : α) : inDegrees edges v = edges.countP (·.2 = v) := by
  rw [inDegrees, foldl_inDegrees, Int.zero_add]

theorem foldl_release (ss : List α) (d : α → Int) (queue : List α) : ∃ new,
    ss.foldl release (d, queue) = (fun v => d v - ss.count v, queue ++ new) ∧ new.Nodup ∧
      ∀ v, v ∈ new ↔ 0 < d v ∧ d v ≤ ss.count v := by
  induction ss generalizing d queue with
  | nil =>
    refine ⟨[], ?_, nodup_nil, fun v => ?_⟩
    · simp
    · rw [count_nil]
      refine iff_of_false not_mem_nil ?_
      omega
  | cons y ss ih =>
    obtain ⟨new, hfold, hnodup, hnew⟩ := ih (update d y (d y - 1))
      (if d y = 1 then queue ++ [y] else queue)
    have hstep : release (d, queue) y =
        (update d y (d y - 1), if d y = 1 then queue ++ [y] else queue) := by
      have hiff : d y - 1 = 0 ↔ d y = 1 := by omega
      simp only [release, update_self, hiff]
    have hsub : (fun v => update d y (d y - 1) v - ss.count v) = fun v => d v - (y :: ss).count v := by
      funext v
      rw [update_apply, count_cons]
      by_cases hv : v = y
      · simp only [hv, if_true, beq_self_eq_true]
        omega
      · simp only [hv, Ne.symm hv, if_false, beq_iff_eq]
        omega
    have hmem : ∀ v, v ∈ new ↔ 0 < d v ∧ d v ≤ (y :: ss).count v ∧ ¬ (v = y ∧ d y = 1) := by
      intro v
      rw [hnew, update_apply, count_cons]
      by_cases hv : v = y
      · simp only [hv, if_true, beq_self_eq_true, true_and]
        omega
      · simp only [hv, Ne.symm hv, if_false, beq_iff_eq, false_and, not_false_iff, and_true, Nat.add_zero]
    rw [foldl_cons, hstep, hfold, hsub]
    by_cases hone : d y = 1
    · refine ⟨y :: new, ?_, ?_, fun v => ?_⟩
      · rw [if_pos hone, append_assoc, singleton_append]
      · refine nodup_cons.2 ⟨fun hy => ?_, hnodup⟩
        exact ((hmem y).1 hy).2.2 ⟨rfl, hone⟩
      · rw [mem_cons, hmem]
        by_cases hv : v = y
        · subst hv
          rw [count_cons_self]
          simp only [true_or, true_iff]
          omega
        · simp only [hv, false_or, false_and, not_false_iff, and_true]
    · refine ⟨new, by rw [if_neg hone], hnodup, fun v => ?_⟩
      rw [hmem]
      simp only [hone, and_false, not_false_iff, and_true]

omit [DecidableEq α] in
theorem countP_split (edges : List (α × α)) (p q r : α × α → Bool) (h : ∀ e, p e = (q e || r e))
    (hdisjoint : ∀ e, ¬ (q e = true ∧ r e = true)) : edges.countP p = edges.countP q + edges.countP r := by
  induction edges with
  | nil => rfl
  | cons e edges ih =>
    rw [countP_cons, countP_cons, countP_cons, ih, h e]
    have he := hdisjoint e
    cases hq : q e <;> cases hr : r e <;> simp_all <;> omega

theorem count_successors (edges : List (α × α)) (x v : α) :
    (successors edges x).count v = edges.countP fun e => e.1 = x ∧ e.2 = v := by
  rw [successors, count, countP_map, countP_filter]
  refine countP_congr fun e _ => ?_
  simp [and_comm]

/-! ## The invariant -/

/-- Between two rounds: the degrees count the predecessors that are not in the order, and the nodes without any are
those in the order and in the queue. -/
structure KahnInv (nodes : List α) (edges : List (α × α)) (d : α → Int) (queue order : List α) : Prop where
  degree : ∀ v, d v = edges.countP fun e => e.2 = v ∧ e.1 ∉ order
  nodup : (order ++ queue).Nodup
  mem : ∀ v, v ∈ order ++ queue ↔ v ∈ nodes ∧ d v = 0
  before : PredsFirst edges order

theorem kahnInv_init (hnodes : nodes.Nodup) :
    KahnInv nodes edges (inDegrees edges) (nodes.filter (inDegrees edges · = 0)) [] := by
  refine ⟨fun v => ?_, ?_, fun v => ?_, fun before v after h => ?_⟩
  · rw [inDegrees_eq]
    simp
  · exact hnodes.filter _
  · rw [nil_append, mem_filter, decide_eq_true_eq]
  · exact absurd h (append_ne_nil_of_right_ne_nil before (cons_ne_nil v after)).symm

omit [DecidableEq α] in
theorem PredsFirst.snoc {x : α} (h : PredsFirst edges order) (hx : ∀ u, (u, x) ∈ edges → u ∈ order) :
    PredsFirst edges (order ++ [x]) := by
  intro before v after heq u hu
  rcases eq_nil_or_concat' after with rfl | ⟨after, y, rfl⟩
  · obtain ⟨rfl, hv⟩ := append_inj' heq rfl
    cases hv
    exact hx u hu
  · have heq' : order ++ [x] = (before ++ v :: after) ++ [y] := by
      rw [heq, append_assoc, cons_append]
    obtain ⟨rfl, -⟩ := append_inj' heq' rfl
    exact h before v after rfl u hu

theorem KahnInv.step {x : α} (h : KahnInv nodes edges d (x :: queue) order)
    (hedges : ∀ e ∈ edges, e.2 ∈ nodes) : ∃ d' queue', (successors edges x).foldl release (d, queue) = (d', queue') ∧
        KahnInv nodes edges d' queue' (order ++ [x]) := by
  obtain ⟨new, hfold, hnewNodup, hnew⟩ := foldl_release (successors edges x) d queue
  refine ⟨_, _, hfold, ?_⟩
  have hx : x ∉ order := fun hx =>
    (nodup_append.1 h.nodup).2.2 x hx x mem_cons_self rfl
  -- the edges from `x` are those that no longer count
  have hsplit : ∀ v, edges.countP (fun e => e.2 = v ∧ e.1 ∉ order) =
      edges.countP (fun e => e.2 = v ∧ e.1 ∉ order ++ [x]) + (successors edges x).count v := by
    intro v
    rw [count_successors]
    refine countP_split edges _ _ _ (fun e => ?_) (fun e => ?_)
    · by_cases he : e.1 = x
      · simp [he, hx]
      · simp [he]
    · simp only [decide_eq_true_eq, mem_append, mem_singleton]
      rintro ⟨⟨-, hne⟩, heq, -⟩
      exact hne (.inr heq)
  have hcount : ∀ v, ((successors edges x).count v : Int) ≤ d v := by
    intro v
    rw [h.degree, hsplit]
    omega
  have hpreds : ∀ u, (u, x) ∈ edges → u ∈ order := by
    intro u hu
    have hzero := ((h.mem x).1 (mem_append_right _ mem_cons_self)).2
    rw [h.degree, Int.natCast_eq_zero, countP_eq_zero] at hzero
    by_contra hno
    exact hzero _ hu (by simp [hno])
  have hperm : ((order ++ [x]) ++ (queue ++ new)).Perm (new ++ (order ++ x :: queue)) := by
    rw [append_assoc, singleton_append, ← cons_append, ← append_assoc]
    exact perm_append_comm
  refine ⟨fun v => ?_, ?_, fun v => ?_, h.before.snoc hpreds⟩
  · show d v - _ = _
    rw [h.degree, hsplit]
    omega
  · rw [hperm.nodup_iff, nodup_append]
    refine ⟨hnewNodup, h.nodup, fun v hv w hw heq => ?_⟩
    subst heq
    have hzero := ((h.mem v).1 hw).2
    have hpos := ((hnew v).1 hv).1
    omega
  · rw [hperm.mem_iff, mem_append, hnew, h.mem]
    have hle := hcount v
    constructor
    · rintro (⟨hpos, hle'⟩ | ⟨hv, hzero⟩)
      · have hmem : v ∈ successors edges x := count_pos_iff.1 (by omega)
        obtain ⟨e, he, rfl⟩ := mem_map.1 hmem
        refine ⟨hedges e (mem_filter.1 he).1, ?_⟩
        show d e.2 - _ = 0
        omega
      · refine ⟨hv, ?_⟩
        show d v - _ = 0
        omega
    · rintro ⟨hv, hzero⟩
      have hzero' : d v - (successors edges x).count v = 0 := hzero
      by_cases hd : d v = 0
      · exact .inr ⟨hv, hd⟩
      · exact .inl ⟨by omega, by omega⟩

theorem KahnInv.length_le (h : KahnInv nodes edges d queue order) : order.length + queue.length ≤ nodes.length := by
  rw [← length_append]
  exact (h.nodup.subperm fun v hv => ((h.mem v).1 hv).1).length_le

/-- The rounds end with an empty queue. -/
theorem KahnInv.loop {fuel : Nat} (h : KahnInv nodes edges d queue order) (hedges : ∀ e ∈ edges, e.2 ∈ nodes)
    (hfuel : nodes.length ≤ order.length + fuel) :
    ∃ d', KahnInv nodes edges d' [] (kahnLoop edges fuel d queue order) := by
  induction fuel generalizing d queue order with
  | zero =>
    have hle := h.length_le
    have hqueue : queue = [] := eq_nil_of_length_eq_zero (by omega)
    subst hqueue
    exact ⟨d, by rw [kahnLoop]; exact h⟩
  | succ fuel ih =>
    cases queue with
    | nil => exact ⟨d, by rw [kahnLoop]; exact h⟩
    | cons x queue =>
      obtain ⟨d', queue', hfold, hstep⟩ := h.step hedges
      rw [kahnLoop, hfold]
      refine ih hstep ?_
      rw [length_append, length_singleton]
      omega

theorem kahn_inv (hnodes : nodes.Nodup) (hedges : ∀ e ∈ edges, e.2 ∈ nodes) :
    ∃ d, KahnInv nodes edges d [] (kahn nodes edges) :=
  (kahnInv_init hnodes).loop hedges (Nat.le_add_left _ _)

end Kahn

/-! ## The order -/

section Order

variable {nodes order : List α} {edges : List (α × α)}

theorem PredsFirst.path (h : PredsFirst edges order) {u v : α}
    (hpath : Relation.TransGen (fun u w => (u, w) ∈ edges) u v) (before after : List α) (heq : order = before ++ v :: after) : u ∈ before := by
  induction hpath generalizing before after with
  | single hedge => exact h before _ after heq _ hedge
  | tail _ hedge ih =>
    obtain ⟨front, back, hbefore⟩ := append_of_mem (h before _ after heq _ hedge)
    have hmem := ih front (back ++ _ :: after) (by rw [heq, hbefore, append_assoc, cons_append])
    rw [hbefore]
    exact mem_append_left _ hmem

theorem Topological.not_cyclic (h : Topological nodes edges order) (hnodes : nodes.Nodup)
    (hedges : ∀ e ∈ edges, e.2 ∈ nodes) : ¬ Cyclic edges := by
  rintro ⟨v, hcycle⟩
  obtain ⟨w, -, hedge⟩ := Relation.TransGen.tail'_iff.1 hcycle
  obtain ⟨before, after, heq⟩ := append_of_mem (h.perm.mem_iff.2 (hedges _ hedge))
  have hmem := h.before.path hcycle before after heq
  have hnodup := h.perm.nodup_iff.2 hnodes
  rw [heq] at hnodup
  exact (nodup_append.1 hnodup).2.2 v hmem v mem_cons_self rfl

theorem exists_source (h : ¬ Cyclic edges) (p : α → Prop) (hp : ∃ v ∈ nodes, p v) :
    ∃ v ∈ nodes, p v ∧ ∀ u ∈ nodes, (u, v) ∈ edges → ¬ p u := by
  let r : {v // v ∈ nodes} → {v // v ∈ nodes} → Prop := fun u v =>
    Relation.TransGen (fun u w => (u, w) ∈ edges) u.1 v.1
  have : Finite {v // v ∈ nodes} := (finite_toSet nodes).to_subtype
  have : IsTrans {v // v ∈ nodes} r := ⟨fun _ _ _ => Relation.TransGen.trans⟩
  have : Std.Irrefl r := ⟨fun v hv => h ⟨v.1, hv⟩⟩
  obtain ⟨v, hv, hpv⟩ := hp
  obtain ⟨m, hm, hmin⟩ := (Finite.wellFounded_of_trans_of_irrefl r).has_min {w | p w.1} ⟨⟨v, hv⟩, hpv⟩
  exact ⟨m.1, m.2, hm, fun u hu hedge hpu => hmin ⟨u, hu⟩ hpu (.single hedge)⟩

variable [DecidableEq α]

theorem KahnInv.topological {d : α → Int} (h : KahnInv nodes edges d [] order)
    (hlength : nodes.length ≤ order.length) : Topological nodes edges order := by
  refine ⟨?_, h.before⟩
  have hnodup := h.nodup
  rw [append_nil] at hnodup
  have hsub : order ⊆ nodes := fun v hv => ((h.mem v).1 (mem_append_left [] hv)).1
  exact (hnodup.subperm hsub).perm_of_length_le hlength

/-- The order has all nodes if and only if there is no cycle. -/
theorem length_kahn_iff (hnodes : nodes.Nodup) (hedges : ∀ e ∈ edges, e.1 ∈ nodes ∧ e.2 ∈ nodes) :
    (kahn nodes edges).length = nodes.length ↔ ¬ Cyclic edges := by
  have htargets : ∀ e ∈ edges, e.2 ∈ nodes := fun e he => (hedges e he).2
  obtain ⟨d, hinv⟩ := kahn_inv hnodes htargets
  have hle := hinv.length_le
  constructor
  · exact fun hlength => (hinv.topological (Nat.le_of_eq hlength.symm)).not_cyclic hnodes htargets
  · intro hacyclic
    by_contra hne
    -- a node outside of the order without predecessors outside of it would wait
    have hmissing : ∃ v ∈ nodes, v ∉ kahn nodes edges := by
      by_contra hall
      have hsub : nodes ⊆ kahn nodes edges := fun v hv => by
        by_contra hv'
        exact hall ⟨v, hv, hv'⟩
      have hge := (hnodes.subperm hsub).length_le
      rw [length_nil, Nat.add_zero] at hle
      omega
    obtain ⟨v, hv, hout, hpreds⟩ := exists_source hacyclic (· ∉ kahn nodes edges) hmissing
    have hzero : d v = 0 := by
      rw [hinv.degree, Int.natCast_eq_zero, countP_eq_zero]
      rintro ⟨u, w⟩ he hcond
      obtain ⟨rfl, hu⟩ := of_decide_eq_true hcond
      exact hpreds u (hedges _ he).1 he hu
    have hmem := (hinv.mem v).2 ⟨hv, hzero⟩
    rw [append_nil] at hmem
    exact hout hmem

/-- An order that has all nodes is topological. -/
theorem kahn_topological (hnodes : nodes.Nodup) (hedges : ∀ e ∈ edges, e.2 ∈ nodes)
    (hlength : (kahn nodes edges).length = nodes.length) : Topological nodes edges (kahn nodes edges) := by
  obtain ⟨d, hinv⟩ := kahn_inv hnodes hedges
  exact hinv.topological (Nat.le_of_eq hlength.symm)

end Order

end SystemDesignLabs.Core
