import SystemDesignLabs.MessageQueue.Effects

/-!
# No message is lost or kept twice

A message that was sent is live in the source queue, deleted, or live in the dead-letter queue, and in one
of these places only (`World.Conserved`). A step breaks this exactly when a scan takes an expired entry at
the limit for a message that is no longer live, or two such entries of one message, or when a handle of
the source queue deletes a message that a scan has moved (`World.Apart`).
-/

namespace SystemDesignLabs.MessageQueue

open List Option Core Queue

namespace World

/-- The live ids of the dead-letter queue. -/
def dlqIds (w : World) : List String := (w.dlq.map Queue.ids).getD []

/-- In how many places a message is, and how often. -/
def places (w : World) (id : String) : Nat :=
  w.source.ids.count id + w.dlqIds.count id + if .deleted id ∈ w.history then 1 else 0

/-- Every message that was sent is in one place, once. -/
def Conserved (w : World) : Prop := ∀ id, .sent id ∈ w.history → w.places id = 1

/-- Nothing is delivered or dead-lettered after it was deleted. -/
def NeverAgain (history : List Event) : Prop :=
  history.Pairwise fun e e' => ∀ id, e = .deleted id → e' ≠ .delivered id ∧ e' ≠ .deadLettered id

/-- The messages of the expired entries at the limit, one for each entry. -/
def overLimit (w : World) (now : Int) : List String :=
  match w.dlqConfig with
  | none => []
  | some config =>
    (w.source.inflight.entries.filter fun e =>
      decide (e.2.visibleAt ≤ now ∧ e.2.msg.receiveCount ≥ config.maxReceiveCount)).map fun e => e.2.msg.id

/-- The condition on a step. A deletion from the source queue is not for a message in the dead-letter
queue; a scan of the source queue moves a message at most as often as it is live there. -/
def Apart (w : World) : Op → Prop
  | .source (.deleteMessage rh) => ∀ e ∈ w.source.inflight.get rh, e.msg.id ∉ w.dlqIds
  | .source (.batchDeleteMessage rhs) =>
    rhs.length ≤ Queue.maxBatchSize → ∀ rh ∈ rhs, ∀ e ∈ w.source.inflight.get rh, e.msg.id ∉ w.dlqIds
  | .source (.requeueExpired now _) =>
    ∀ id ∈ w.overLimit now, (w.overLimit now).count id ≤ w.source.ids.count id
  | _ => True

instance (w : World) (op : Op) : Decidable (w.Apart op) := by
  cases op with
  | source op => cases op <;> unfold Apart <;> infer_instance
  | dlq op => exact inferInstanceAs (Decidable True)
  | tick d => exact inferInstanceAs (Decidable True)

/-! ## What is known of the ids -/

/-- The ids that a world holds were sent, and the ids that were sent were drawn. A message that was
received from the dead-letter queue is not live in the source queue. -/
structure Known (newUUID : Nat → String) (w : World) : Prop where
  source : ∀ id ∈ w.source.ids, .sent id ∈ w.history
  dlq : ∀ id ∈ w.dlqIds, .sent id ∈ w.history
  deleted : ∀ id, .deleted id ∈ w.history → .sent id ∈ w.history
  drawn : ∀ id, .sent id ∈ w.history → ∃ k < w.drawn, newUUID k = id
  entries : ∀ rh e, w.source.inflight.get rh = some e → .sent e.msg.id ∈ w.history
  dlq_entries : ∀ d, w.dlq = some d → ∀ rh e, d.inflight.get rh = some e →
    .sent e.msg.id ∈ w.history ∧ e.msg.id ∉ w.source.ids
  config : w.dlqConfig.isSome = w.dlq.isSome

theorem known_start (newUUID : Nat → String) (dlqConfig : Option DLQConfig) : Known newUUID (start dlqConfig) where
  source id h := nomatch h
  dlq id h := by
    cases dlqConfig with
    | none => exact nomatch h
    | some config => exact nomatch h
  deleted id h := nomatch h
  drawn id h := nomatch h
  entries rh e h := nomatch h
  dlq_entries d hd rh e he := by
    cases dlqConfig with
    | none => exact nomatch hd
    | some config =>
      obtain rfl := some.inj hd
      exact nomatch he
  config := by
    cases dlqConfig with
    | none => rfl
    | some config => rfl

theorem conserved_start (dlqConfig : Option DLQConfig) : Conserved (start dlqConfig) := fun _ h => nomatch h

/-! ## The events of an operation -/

variable {o : Outcome}

theorem sent_mem_events {id : String} : .sent id ∈ o.events ↔ id ∈ o.sent := by
  simp [Outcome.events]

theorem deleted_mem_events {id : String} : .deleted id ∈ o.events ↔ id ∈ o.deleted := by
  simp [Outcome.events]

theorem NeverAgain.append {history : List Event} (h : NeverAgain history)
    (hdelivered : ∀ id ∈ o.delivered, .deleted id ∉ history)
    (hdead : ∀ id ∈ o.deadLettered, .deleted id ∉ history) : NeverAgain (history ++ o.events) := by
  refine pairwise_append.2 ⟨h, ?_, ?_⟩
  · -- an operation records its deletions last
    have hlast : ∀ (l l' : List Event), (∀ e ∈ l, ∀ id, e ≠ .deleted id) →
        (∀ e ∈ l', ∀ id, e ≠ .delivered id ∧ e ≠ .deadLettered id) → NeverAgain (l ++ l') := by
      intro l l' hl hl'
      refine pairwise_append.2 ⟨?_, ?_, ?_⟩
      · exact pairwise_of_forall_mem_list fun e he _ _ id heq => absurd heq (hl e he id)
      · exact pairwise_of_forall_mem_list fun _ _ e' he' id _ => hl' e' he' id
      · intro e he e' _ id heq
        exact absurd heq (hl e he id)
    refine hlast _ _ ?_ ?_
    · intro e he id heq
      subst heq
      simp at he
    · intro e he id
      obtain ⟨x, -, rfl⟩ := mem_map.1 he
      exact ⟨nofun, nofun⟩
  · rintro e he e' he' id rfl
    refine ⟨?_, ?_⟩
    · rintro rfl
      exact hdelivered id (by simpa [Outcome.events] using he') he
    · rintro rfl
      exact hdead id (by simpa [Outcome.events] using he') he

/-! ## A step -/

section Step

variable {newUUID : Nat → String} {w : World}

theorem Known.fresh (hk : Known newUUID w) (hinj : Function.Injective newUUID) {i : Nat} :
    .sent (newUUID (w.drawn + i)) ∉ w.history := by
  intro h
  obtain ⟨k, hlt, heq⟩ := hk.drawn _ h
  have := hinj heq
  omega

variable {o : Outcome}

theorem Known.sent_fresh (hk : Known newUUID w) (hinj : Function.Injective newUUID) {q : Queue}
    {dlq : Option Queue} (ha : Queue.Applied newUUID w.drawn q dlq o) : ∀ id ∈ o.sent, .sent id ∉ w.history := by
  obtain ⟨n, hsent, -⟩ := ha.sent
  intro id hid
  rw [hsent] at hid
  obtain ⟨i, -, rfl⟩ := mem_map.1 hid
  exact hk.fresh hinj

theorem count_sent (hinj : Function.Injective newUUID) {n drawn : Nat}
    (hsent : o.sent = (List.range n).map fun i => newUUID (drawn + i)) (id : String) :
    o.sent.count id = if id ∈ o.sent then 1 else 0 := by
  have hnodup : o.sent.Nodup := by
    rw [hsent]
    exact nodup_range.map fun _ _ heq => Nat.add_left_cancel (hinj heq)
  exact hnodup.count

/-- The number of places of a message after an operation: `gone` and `moved` count its deletions and its
moves to the dead-letter queue, of which an operation does only one. -/
theorem places_iff {src dlq gone moved : Nat} {deleted : Prop} [Decidable deleted]
    (h : src + dlq + (if deleted then 1 else 0) = 1) (hkind : gone = 0 ∨ moved = 0) :
    (src - (gone + moved)) + (dlq + moved) + (if deleted ∨ 0 < gone then 1 else 0) = 1 ↔
      (0 < gone → dlq = 0) ∧ moved ≤ src := by
  by_cases hd : deleted
  · rw [if_pos hd] at h
    rw [if_pos (.inl hd)]
    omega
  · rw [if_neg hd] at h
    by_cases hg : 0 < gone
    · rw [if_pos (.inr hg)]
      omega
    · rw [if_neg fun hor => hor.elim hd hg]
      omega

theorem places_dlq {src dlq gone : Nat} {deleted : Prop} [Decidable deleted]
    (h : src + dlq + (if deleted then 1 else 0) = 1) (hgone : 0 < gone → src = 0) :
    src + (dlq + 0 - gone) + (if deleted ∨ 0 < gone then 1 else 0) = 1 := by
  by_cases hd : deleted
  · rw [if_pos hd] at h
    rw [if_pos (.inl hd)]
    omega
  · rw [if_neg hd] at h
    by_cases hg : 0 < gone
    · rw [if_pos (.inr hg)]
      have := hgone hg
      omega
    · rw [if_neg fun hor => hor.elim hd hg]
      omega

theorem dlqIds_afterSource (ha : Queue.Applied newUUID w.drawn w.source w.dlq o) :
    (w.afterSource o).dlqIds = w.dlqIds ++ o.deadLettered := by
  obtain ⟨msgs, hdlq, hdead, hnone⟩ := ha.dlq
  rw [dlqIds, dlqIds, afterSource, hdlq, hdead]
  cases hd : w.dlq with
  | none =>
    rw [hnone hd]
    rfl
  | some d => exact ids_enqueue d msgs

theorem mem_of_count_sub {l : List String} {id : String} {a b : Nat} (h : id ∈ l) (hc : l.count id = a - b) :
    0 < a := by
  have := count_pos_iff.2 h
  omega

theorem Known.afterSource (hk : Known newUUID w) (ha : Queue.Applied newUUID w.drawn w.source w.dlq o)
    (hinj : Function.Injective newUUID) : Known newUUID (w.afterSource o) := by
  obtain ⟨n, hsent, hdrawn⟩ := ha.sent
  have hold : ∀ id, .sent id ∈ w.history → .sent id ∈ (w.afterSource o).history :=
    fun id h => mem_append_left _ h
  have hnew : ∀ id ∈ o.sent, .sent id ∈ (w.afterSource o).history :=
    fun id h => mem_append_right _ (sent_mem_events.2 h)
  have hlive : ∀ id ∈ o.queue.ids, id ∈ w.source.ids ∨ id ∈ o.sent := by
    intro id hid
    have hpos := mem_of_count_sub hid (ha.ids id)
    by_contra hnot
    rw [not_or] at hnot
    rw [count_eq_zero.2 hnot.1, count_eq_zero.2 hnot.2] at hpos
    exact absurd hpos (Nat.lt_irrefl 0)
  have hremoved : ∀ id, id ∈ o.deleted ∨ id ∈ o.deadLettered → .sent id ∈ w.history := by
    intro id h
    obtain ⟨rh, e, he, rfl⟩ := ha.removed id h
    exact hk.entries rh e he
  constructor
  · intro id hid
    exact (hlive id hid).elim (fun h => hold id (hk.source id h)) (hnew id)
  · intro id hid
    rw [dlqIds_afterSource ha] at hid
    exact hold id ((mem_append.1 hid).elim (hk.dlq id) fun h => hremoved id (.inr h))
  · intro id hid
    rcases mem_append.1 hid with h | h
    · exact hold id (hk.deleted id h)
    · exact hold id (hremoved id (.inl (deleted_mem_events.1 h)))
  · intro id hid
    rcases mem_append.1 hid with h | h
    · obtain ⟨k, hlt, heq⟩ := hk.drawn id h
      exact ⟨k, by show k < o.drawn; omega, heq⟩
    · have hmem := sent_mem_events.1 h
      rw [hsent] at hmem
      obtain ⟨i, hi, heq⟩ := mem_map.1 hmem
      rw [mem_range] at hi
      exact ⟨w.drawn + i, by show w.drawn + i < o.drawn; omega, heq⟩
  · intro rh e he
    rcases ha.entries rh e he with ⟨e₀, he₀, hid⟩ | hid
    · exact hold _ (hid ▸ hk.entries rh e₀ he₀)
    · exact hold _ (hk.source _ hid)
  · intro d hd rh e he
    obtain ⟨msgs, hdlq, -, -⟩ := ha.dlq
    obtain ⟨d₀, hd₀, rfl⟩ := map_eq_some_iff.1 (hdlq.symm.trans hd)
    obtain ⟨hsome, hnot⟩ := hk.dlq_entries d₀ hd₀ rh e he
    refine ⟨hold _ hsome, fun hmem => ?_⟩
    rcases hlive _ hmem with h | h
    · exact hnot h
    · rw [hsent] at h
      obtain ⟨i, -, heq⟩ := mem_map.1 h
      exact hk.fresh hinj (heq.symm ▸ hsome)
  · obtain ⟨msgs, hdlq, -, -⟩ := ha.dlq
    show w.dlqConfig.isSome = o.dlq.isSome
    rw [hdlq, isSome_map]
    exact hk.config

/-- An operation on the source queue conserves the messages exactly when it deletes no message of the
dead-letter queue and moves no message more often than it is live. -/
theorem conserved_afterSource (hk : Known newUUID w) (hc : Conserved w)
    (ha : Queue.Applied newUUID w.drawn w.source w.dlq o) (hinj : Function.Injective newUUID) :
    Conserved (w.afterSource o) ↔ (∀ id ∈ o.deleted, id ∉ w.dlqIds) ∧
      ∀ id ∈ o.deadLettered, o.deadLettered.count id ≤ w.source.ids.count id := by
  obtain ⟨n, hsent, -⟩ := ha.sent
  have hkind : ∀ id, o.deleted.count id = 0 ∨ o.deadLettered.count id = 0 := by
    intro id
    rcases ha.kind with h | h
    · exact .inl (by rw [h, count_nil])
    · exact .inr (by rw [h, count_nil])
  have hremoved : ∀ id, id ∈ o.deleted ∨ id ∈ o.deadLettered → .sent id ∈ w.history := by
    intro id h
    obtain ⟨rh, e, he, rfl⟩ := ha.removed id h
    exact hk.entries rh e he
  have hfresh := hk.sent_fresh hinj ha
  have hdeleted : ∀ id, .deleted id ∈ (w.afterSource o).history ↔
      .deleted id ∈ w.history ∨ 0 < o.deleted.count id := by
    intro id
    rw [afterSource, mem_append, deleted_mem_events, count_pos_iff]
  have hplaces : ∀ id, (w.afterSource o).places id =
      (w.source.ids.count id + o.sent.count id - (o.deleted.count id + o.deadLettered.count id)) +
        (w.dlqIds.count id + o.deadLettered.count id) +
        if .deleted id ∈ w.history ∨ 0 < o.deleted.count id then 1 else 0 := by
    intro id
    rw [places, dlqIds_afterSource ha, count_append]
    simp only [hdeleted]
    rw [← ha.ids id]
    rfl
  -- a message that was there before
  have hold : ∀ id, .sent id ∈ w.history → ((w.afterSource o).places id = 1 ↔ (0 < o.deleted.count id → w.dlqIds.count
      id = 0) ∧ o.deadLettered.count id ≤ w.source.ids.count id) := by
    intro id hid
    rw [hplaces, count_eq_zero.2 fun h => hfresh id h hid, Nat.add_zero]
    exact places_iff (hc id hid) (hkind id)
  -- a message that is sent now
  have hnew : ∀ id ∈ o.sent, (w.afterSource o).places id = 1 := by
    intro id hid
    have hnot := hfresh id hid
    have hsrc := count_eq_zero.2 fun h => hnot (hk.source id h)
    have hdlq := count_eq_zero.2 fun h => hnot (hk.dlq id h)
    have hgone := count_eq_zero.2 fun h => hnot (hremoved id (.inl h))
    have hmoved := count_eq_zero.2 fun h => hnot (hremoved id (.inr h))
    have hdel : ¬ (.deleted id ∈ w.history ∨ 0 < o.deleted.count id) := by
      rw [hgone]
      exact fun h => h.elim (fun h => hnot (hk.deleted id h)) fun h => absurd h (Nat.lt_irrefl 0)
    rw [hplaces, hsrc, hdlq, hgone, hmoved, count_sent hinj hsent, if_pos hid]
    rw [hgone] at hdel
    rw [if_neg hdel]
  constructor
  · intro h
    refine ⟨fun id hid => ?_, fun id hid => ?_⟩
    · have hsome := hremoved id (.inl hid)
      have hplace := (hold id hsome).1 (h id (mem_append_left _ hsome))
      exact count_eq_zero.1 (hplace.1 (count_pos_iff.2 hid))
    · have hsome := hremoved id (.inr hid)
      exact ((hold id hsome).1 (h id (mem_append_left _ hsome))).2
  · rintro ⟨hdel, hdead⟩ id hid
    rcases mem_append.1 hid with h | h
    · refine (hold id h).2 ⟨fun hpos => count_eq_zero.2 (hdel id (count_pos_iff.1 hpos)), ?_⟩
      by_cases hmem : id ∈ o.deadLettered
      · exact hdead id hmem
      · rw [count_eq_zero.2 hmem]
        exact Nat.zero_le _
    · exact hnew id (sent_mem_events.1 h)

/-- A message that is live in the dead-letter queue is not live in the source queue. -/
def Separate (w : World) : Prop := ∀ id ∈ w.dlqIds, id ∉ w.source.ids

theorem Conserved.separate (hc : Conserved w) (hk : Known newUUID w) : Separate w := by
  intro id hdlq hsrc
  have hplace := hc id (hk.dlq id hdlq)
  have h1 := count_pos_iff.2 hdlq
  have h2 := count_pos_iff.2 hsrc
  rw [places] at hplace
  omega

section Dlq

variable {d : Queue} {o : Outcome}

theorem dlqIds_eq (hd : w.dlq = some d) : w.dlqIds = d.ids := by
  rw [dlqIds, hd]
  rfl

theorem deadLettered_of_dlq (ha : Queue.Applied newUUID w.drawn d none o) : o.deadLettered = [] := by
  obtain ⟨msgs, -, hdead, hnone⟩ := ha.dlq
  rw [hdead, hnone rfl]
  rfl

theorem count_ids_of_dlq (hd : w.dlq = some d) (ha : Queue.Applied newUUID w.drawn d none o) (id : String) :
    o.queue.ids.count id = w.dlqIds.count id + o.sent.count id - o.deleted.count id := by
  rw [ha.ids id, dlqIds_eq hd, deadLettered_of_dlq ha, count_nil, Nat.add_zero]

theorem Known.afterDlq (hk : Known newUUID w) (hsep : Separate w) (hd : w.dlq = some d)
    (ha : Queue.Applied newUUID w.drawn d none o) : Known newUUID (w.afterDlq o) := by
  obtain ⟨n, hsent, hdrawn⟩ := ha.sent
  have hold : ∀ id, .sent id ∈ w.history → .sent id ∈ (w.afterDlq o).history :=
    fun id h => mem_append_left _ h
  constructor
  · exact fun id hid => hold id (hk.source id hid)
  · intro id hid
    have hpos := mem_of_count_sub (show id ∈ o.queue.ids from hid) (count_ids_of_dlq hd ha id)
    by_cases hmem : id ∈ w.dlqIds
    · exact hold id (hk.dlq id hmem)
    · rw [count_eq_zero.2 hmem, Nat.zero_add, count_pos_iff] at hpos
      exact mem_append_right _ (sent_mem_events.2 hpos)
  · intro id hid
    rcases mem_append.1 hid with h | h
    · exact hold id (hk.deleted id h)
    · obtain ⟨rh, e, he, rfl⟩ := ha.removed id (.inl (deleted_mem_events.1 h))
      exact hold _ (hk.dlq_entries d hd rh e he).1
  · intro id hid
    rcases mem_append.1 hid with h | h
    · obtain ⟨k, hlt, heq⟩ := hk.drawn id h
      exact ⟨k, by show k < o.drawn; omega, heq⟩
    · have hmem := sent_mem_events.1 h
      rw [hsent] at hmem
      obtain ⟨i, hi, heq⟩ := mem_map.1 hmem
      rw [mem_range] at hi
      exact ⟨w.drawn + i, by show w.drawn + i < o.drawn; omega, heq⟩
  · exact fun rh e he => hold _ (hk.entries rh e he)
  · intro d' hd' rh e he
    obtain rfl := some.inj hd'
    rcases ha.entries rh e he with ⟨e₀, he₀, hid⟩ | hid
    · rw [← hid]
      exact ⟨hold _ (hk.dlq_entries d hd rh e₀ he₀).1, (hk.dlq_entries d hd rh e₀ he₀).2⟩
    · have hlive : e.msg.id ∈ w.dlqIds := (dlqIds_eq hd).symm ▸ hid
      exact ⟨hold _ (hk.dlq _ hlive), hsep _ hlive⟩
  · have hconfig := hk.config
    rw [hd] at hconfig
    exact hconfig

/-- An operation on the dead-letter queue conserves the messages. -/
theorem conserved_afterDlq (hk : Known newUUID w) (hc : Conserved w) (hd : w.dlq = some d)
    (ha : Queue.Applied newUUID w.drawn d none o) (hinj : Function.Injective newUUID) : Conserved (w.afterDlq o) := by
  obtain ⟨n, hsent, -⟩ := ha.sent
  have hremoved : ∀ id ∈ o.deleted, .sent id ∈ w.history ∧ id ∉ w.source.ids := by
    intro id h
    obtain ⟨rh, e, he, rfl⟩ := ha.removed id (.inl h)
    exact hk.dlq_entries d hd rh e he
  have hfresh := hk.sent_fresh hinj ha
  have hdeleted : ∀ id, .deleted id ∈ (w.afterDlq o).history ↔
      .deleted id ∈ w.history ∨ 0 < o.deleted.count id := by
    intro id
    rw [World.afterDlq, mem_append, deleted_mem_events, count_pos_iff]
  intro id hid
  have hplaces : (w.afterDlq o).places id = w.source.ids.count id + o.queue.ids.count id +
      if .deleted id ∈ w.history ∨ 0 < o.deleted.count id then 1 else 0 := by
    rw [places]
    simp only [hdeleted]
    rfl
  rw [hplaces, count_ids_of_dlq hd ha]
  rcases mem_append.1 hid with h | h
  · rw [count_eq_zero.2 fun hmem => hfresh id hmem h]
    refine places_dlq (hc id h) fun hgone => ?_
    exact count_eq_zero.2 (hremoved id (count_pos_iff.1 hgone)).2
  · have hmem := sent_mem_events.1 h
    have hnot := hfresh id hmem
    have hsrc := count_eq_zero.2 fun h => hnot (hk.source id h)
    have hdlq := count_eq_zero.2 fun h => hnot (hk.dlq id h)
    have hgone := count_eq_zero.2 fun h => hnot (hremoved id h).1
    have hdel : .deleted id ∉ w.history := fun h => hnot (hk.deleted id h)
    rw [hsrc, hdlq, hgone, count_sent hinj hsent, if_pos hmem, if_neg]
    exact fun h => h.elim hdel fun h => absurd h (Nat.lt_irrefl 0)

end Dlq

/-! ## The condition, as a condition on the outcome -/

theorem letters_perm {config : DLQConfig} {now : Int} {inflight : Inflight} {order : List String}
    (horder : order.Perm (inflight.entries.map Prod.fst)) :
    ((Queue.letters config now inflight order).map Message.id).Perm ((inflight.entries.filter fun e =>
        decide (e.2.visibleAt ≤ now ∧ e.2.msg.receiveCount ≥ config.maxReceiveCount)).map fun e => e.2.msg.id) := by
  have hentries : ∀ l : List (String × InflightEntry), (∀ e ∈ l, inflight.get e.1 = some e.2) →
      (letters config now inflight (l.map Prod.fst)).map Message.id =
        (l.filter fun e => decide (e.2.visibleAt ≤ now ∧ e.2.msg.receiveCount ≥ config.maxReceiveCount)).map
          fun e => e.2.msg.id := by
    intro l
    induction l with
    | nil => exact fun _ => rfl
    | cons e l ih =>
      intro h
      obtain ⟨he, hl⟩ := forall_mem_cons.1 h
      have hrest := ih hl
      rw [letters] at hrest ⊢
      rw [map_cons, filterMap_cons, he, bind_some, letter, filter_cons]
      by_cases hcond : e.2.visibleAt ≤ now ∧ e.2.msg.receiveCount ≥ config.maxReceiveCount
      · rw [if_pos hcond, if_pos (decide_eq_true hcond), map_cons, map_cons, hrest]
        rfl
      · rw [if_neg hcond, if_neg (by simpa using hcond), hrest]
  rw [← hentries inflight.entries fun e he => SortedMap.mem_entries_iff.1 he]
  exact (horder.filterMap _).map _

theorem arrived_perm (hk : Known newUUID w) (now : Int) {order : List String}
    (horder : order.Perm (w.source.inflight.entries.map Prod.fst)) :
    (arrived w.dlq (w.source.requeueExpired w.dlqConfig w.dlq now order).2).Perm (w.overLimit now) := by
  rw [overLimit]
  cases hconfig : w.dlqConfig with
  | none =>
    obtain ⟨q', hr, -, -⟩ := requeueExpired_release none now w.source w.dlq (.inl rfl) order
    rw [hr, arrived_self]
  | some config =>
    have hsome : w.dlq.isSome := by rw [← hk.config, hconfig]; rfl
    obtain ⟨d, hd⟩ := isSome_iff_exists.1 hsome
    have hnodup : order.Nodup := horder.nodup_iff.2 w.source.inflight.nodup_keys
    obtain ⟨q', hr, -, -⟩ := requeueExpired_letters config now w.source d hnodup
    rw [hd, hr, arrived_enqueue]
    exact letters_perm horder

theorem apart_iff_outcome (hk : Known newUUID w) {op : QueueOp}
    (h : w.source.apply newUUID w.clock w.drawn w.dlqConfig w.dlq op = some o) :
    w.Apart (.source op) ↔ (∀ id ∈ o.deleted, id ∉ w.dlqIds) ∧
      ∀ id ∈ o.deadLettered, o.deadLettered.count id ≤ w.source.ids.count id := by
  have hfound : ∀ rhs : List String, (∀ rh ∈ rhs, ∀ e ∈ w.source.inflight.get rh, e.msg.id ∉ w.dlqIds) ↔
      ∀ id ∈ found w.source.inflight rhs, id ∉ w.dlqIds := by
    intro rhs
    constructor
    · intro hall id hid
      obtain ⟨rh, hrh, e, he, rfl⟩ := mem_found.1 hid
      exact hall rh hrh e he
    · intro hall rh hrh e he
      exact hall _ (mem_found.2 ⟨rh, hrh, e, he, rfl⟩)
  refine apply_rule (P := fun op o => w.Apart (.source op) ↔ (∀ id ∈ o.deleted, id ∉ w.dlqIds) ∧
    ∀ id ∈ o.deadLettered, o.deadLettered.count id ≤ w.source.ids.count id) h ?_ ?_ ?_ ?_ ?_
  · intro op msgs _ _ hop
    refine iff_of_true ?_ ⟨nofun, nofun⟩
    obtain ⟨_, rfl⟩ | ⟨_, rfl⟩ | ⟨rhs, rfl, hsize⟩ := hop
    · trivial
    · trivial
    · intro hle rh hrh
      exact absurd ⟨length_pos_of_mem hrh, hle⟩ hsize
  · exact fun _ _ => iff_of_true trivial ⟨nofun, nofun⟩
  · intro op rhs hop
    refine Iff.trans ?_ (Iff.trans (hfound rhs) (and_iff_left nofun).symm)
    obtain ⟨rh, rfl, rfl⟩ | ⟨rfl, hle⟩ := hop
    · rw [Apart, forall_mem_singleton]
    · exact ⟨fun hall => hall hle, fun hall _ => hall⟩
  · exact fun _ _ => iff_of_true trivial ⟨nofun, nofun⟩
  · intro now order _ horder
    refine Iff.trans ?_ (and_iff_right nofun).symm
    have hperm := arrived_perm hk now horder
    rw [Apart]
    constructor
    · intro hall id hid
      rw [hperm.count_eq]
      exact hall id (hperm.mem_iff.1 hid)
    · intro hall id hid
      rw [← hperm.count_eq]
      exact hall id (hperm.mem_iff.2 hid)

theorem Conserved.not_deleted (hc : Conserved w) (hk : Known newUUID w) {id : String}
    (hlive : id ∈ w.source.ids ∨ id ∈ w.dlqIds) : .deleted id ∉ w.history := by
  intro hdel
  have hplace := hc id (hk.deleted id hdel)
  rw [places, if_pos hdel] at hplace
  rcases hlive with h | h
  · have := count_pos_iff.2 h
    omega
  · have := count_pos_iff.2 h
    omega

/-- The property of a world: its messages are conserved, and the deleted ones do not come back. -/
structure Conserving (w : World) : Prop where
  conserved : w.Conserved
  never : NeverAgain w.history

/-- One step conserves the messages exactly when it meets the condition. -/
theorem conserving_step (hk : Known newUUID w) (hw : w.Conserving) (hinj : Function.Injective newUUID)
    {op : Op} {w' : World} (hs : step newUUID w op = some w') : Known newUUID w' ∧ (w'.Conserving ↔ w.Apart op) := by
  cases op with
  | source op =>
    obtain ⟨o, happly, rfl⟩ := map_eq_some_iff.1 hs
    have ha := apply_applied happly
    have hiff := conserved_afterSource hk hw.conserved ha hinj
    have hcond := apart_iff_outcome hk happly
    refine ⟨hk.afterSource ha hinj, fun h => hcond.2 (hiff.1 h.conserved), fun h => ?_⟩
    refine ⟨hiff.2 (hcond.1 h), hw.never.append (fun id hid => ?_) fun id hid => ?_⟩
    · exact hw.conserved.not_deleted hk (.inl (ha.delivered id hid))
    · have hle := (hcond.1 h).2 id hid
      have hpos := count_pos_iff.2 hid
      exact hw.conserved.not_deleted hk (.inl (count_pos_iff.1 (hpos.trans_le hle)))
  | dlq op =>
    obtain ⟨d, hd, hs⟩ := bind_eq_some_iff.1 hs
    obtain ⟨o, happly, rfl⟩ := map_eq_some_iff.1 hs
    have ha := apply_applied happly
    have hk' := hk.afterDlq (hw.conserved.separate hk) hd ha
    have hc' := conserved_afterDlq hk hw.conserved hd ha hinj
    refine ⟨hk', iff_of_true ⟨hc', hw.never.append (fun id hid => ?_) fun id hid => ?_⟩ trivial⟩
    · have hlive : id ∈ w.dlqIds := by
        rw [dlqIds, hd]
        exact ha.delivered id hid
      exact hw.conserved.not_deleted hk (.inr hlive)
    · rw [deadLettered_of_dlq ha] at hid
      exact nomatch hid
  | tick d =>
    obtain rfl := some.inj hs
    refine ⟨⟨hk.source, hk.dlq, hk.deleted, hk.drawn, hk.entries, hk.dlq_entries, hk.config⟩, ?_⟩
    exact iff_of_true ⟨hw.conserved, hw.never⟩ trivial

end Step

/-! ## Every run -/

/-- **Messages are conserved.** With or without a dead-letter queue, in every run whose steps all meet the
condition each message that was sent is in exactly one of its three places and does not come back once it
is deleted; and the first step that does not meet the condition breaks this. -/
theorem conserving_iff_apart {newUUID : Nat → String} (hinj : Function.Injective newUUID)
    (dlqConfig : Option DLQConfig) :
    ∀ w, ReachableIf (step newUUID) Apart (start dlqConfig) w →
      w.Conserving ∧ ∀ op w', step newUUID w op = some w' → (w'.Conserving ↔ w.Apart op) := by
  intro w hw
  have hinv : Known newUUID w ∧ w.Conserving := by
    refine hw.invariant (I := fun w => Known newUUID w ∧ w.Conserving) ?_ ?_
    · exact ⟨known_start newUUID dlqConfig, conserved_start dlqConfig, Pairwise.nil⟩
    · rintro s op s' - ⟨hk, hc⟩ hok hs
      obtain ⟨hk', hiff⟩ := conserving_step hk hc hinj hs
      exact ⟨hk', hiff.2 hok⟩
  exact ⟨hinv.2, fun op w' hs => (conserving_step hinv.1 hinv.2 hinj hs).2⟩

/-- Three messages, of which one is deleted, one moves to the dead-letter queue, and one stays. -/
theorem conserving_iff_apart_run :
    ∃ w, execIf (step unary) (fun w op => decide (w.Apart op)) (start (some ⟨1⟩))
        [.source (.batchSendMessage [[1], [2], [3]]), .source (.receiveMessage 2 10),
          .source (.deleteMessage "uuuu"), .tick 10, .source (.requeueExpired 10 ["uuuuu"])] = some w ∧
      (w.source.ids = ["uuu"] ∧ w.dlqIds = ["uu"] ∧ .deleted "u" ∈ w.history) ∧ w.Conserving ∧
        ∀ op w', step unary w op = some w' → (w'.Conserving ↔ w.Apart op) := by
  have hrun : (execIf (step unary) (fun w op => decide (w.Apart op)) (start (some ⟨1⟩))
      [.source (.batchSendMessage [[1], [2], [3]]), .source (.receiveMessage 2 10),
        .source (.deleteMessage "uuuu"), .tick 10, .source (.requeueExpired 10 ["uuuuu"])]).map
      (fun w => decide (w.source.ids = ["uuu"] ∧ w.dlqIds = ["uu"] ∧ .deleted "u" ∈ w.history)) =
        some true := by rfl
  obtain ⟨w, hs, hfacts⟩ := map_eq_some_iff.1 hrun
  have hw := ReachableIf.init.execIf (fun _ _ => of_decide_eq_true) hs
  exact ⟨w, hs, of_decide_eq_true hfacts, conserving_iff_apart unary_injective (some ⟨1⟩) w hw⟩

/-- A message that is received again after its first handle expired, and then deleted, is dead-lettered by
the next scan, which still finds the first entry. -/
theorem deleted_is_deadLettered :
    ¬ ∀ newUUID : Nat → String, Function.Injective newUUID → ∀ dlqConfig w,
      Reachable (step newUUID) (start dlqConfig) w → w.Conserving := by
  intro h
  have hrun : (exec (step unary) (start (some ⟨1⟩))
      [.source (.sendMessage [1]), .source (.receiveMessage 1 1), .tick 1, .source (.receiveMessage 1 10),
        .source (.deleteMessage "uuu"), .source (.requeueExpired 1 ["uu"])]).map
      (fun w => decide (.sent "u" ∈ w.history ∧ w.places "u" = 2)) = some true := by rfl
  obtain ⟨w, hs, hfacts⟩ := map_eq_some_iff.1 hrun
  obtain ⟨hsent, hplaces⟩ := of_decide_eq_true hfacts
  have hone := (h unary unary_injective (some ⟨1⟩) w (reachable_of_exec hs)).conserved "u" hsent
  rw [hplaces] at hone
  exact absurd hone (by decide)

end World

end SystemDesignLabs.MessageQueue
