import SystemDesignLabs.MessageQueue.Conservation

/-!
# Who holds a message

A receipt handle is held while its entry has not expired. `ReceiveMessage` delivers a message only while no
handle for it is held in the queue, so a message gets a second held handle in two ways:
`ChangeMessageVisibility` revives an entry that has expired but was not scanned yet, or a scan moves a
message to the dead-letter queue, for such an entry, while a later handle is held. Without these
(`World.Calm`) a message has at most one held handle (`exclusive_of_calm`).
-/

namespace SystemDesignLabs.MessageQueue

open List Option Core SortedMap Queue

namespace Queue

/-- Within a queue, two held handles are for different messages. -/
def Exclusive (inflight : Inflight) (clock : Int) : Prop :=
  ∀ rh rh' e e', inflight.get rh = some e → inflight.get rh' = some e' → e.visibleAt > clock →
    e'.visibleAt > clock → e.msg.id = e'.msg.id → rh = rh'

section Exclusive

variable {inflight inflight' : Inflight} {clock : Int} {id : String}

theorem isInFlight_mono (hsub : ∀ rh e, inflight'.get rh = some e → inflight.get rh = some e)
    (h : isInFlight inflight' id clock = true) : isInFlight inflight id clock = true := by
  obtain ⟨rh, e, he, hid, hvis⟩ := isInFlight_iff.1 h
  exact isInFlight_iff.2 ⟨rh, e, hsub rh e he, hid, hvis⟩

theorem erase_forgets (inflight : Inflight) (rh : String) :
    ∀ rh' e, (inflight.erase rh).get rh' = some e → inflight.get rh' = some e := by
  intro rh' e he
  rw [get_erase] at he
  split at he
  · exact nomatch he
  · exact he

theorem Exclusive.mono (h : Exclusive inflight clock)
    (hsub : ∀ rh e, inflight'.get rh = some e → inflight.get rh = some e) : Exclusive inflight' clock :=
  fun rh rh' e e' he he' => h rh rh' e e' (hsub rh e he) (hsub rh' e' he')

theorem isInFlight_tick {later : Int} (hle : clock ≤ later) (h : isInFlight inflight id later = true) :
    isInFlight inflight id clock = true := by
  obtain ⟨rh, e, he, hid, hvis⟩ := isInFlight_iff.1 h
  exact isInFlight_iff.2 ⟨rh, e, he, hid, by omega⟩

theorem Exclusive.tick (h : Exclusive inflight clock) {later : Int} (hle : clock ≤ later) : Exclusive inflight later :=
  fun rh rh' e e' he he' hvis hvis' => h rh rh' e e' he he' (by omega) (by omega)

theorem Exclusive.insert (h : Exclusive inflight clock) {rh : String} {e : InflightEntry}
    (hother : e.visibleAt > clock → isInFlight (inflight.erase rh) e.msg.id clock = false) :
    Exclusive (inflight.insert rh e) clock := by
  -- another handle with the same message would be one that is still held
  have hnew : ∀ rh' e', rh' ≠ rh → inflight.get rh' = some e' → e'.visibleAt > clock →
      e.visibleAt > clock → e.msg.id ≠ e'.msg.id := by
    intro rh' e' hne he' hvis' hvis heq
    have hheld : isInFlight (inflight.erase rh) e.msg.id clock = true :=
      isInFlight_iff.2 ⟨rh', e', by rw [get_erase, if_neg hne]; exact he', heq.symm, hvis'⟩
    rw [hother hvis] at hheld
    exact absurd hheld Bool.false_ne_true
  intro r r' f f' hf hf' hvis hvis' heq
  rw [get_insert] at hf hf'
  by_cases hr : r = rh
  · rw [if_pos hr] at hf
    by_cases hr' : r' = rh
    · exact hr.trans hr'.symm
    · rw [if_neg hr'] at hf'
      obtain rfl := some.inj hf
      exact absurd heq (hnew r' f' hr' hf' hvis' hvis)
  · rw [if_neg hr] at hf
    by_cases hr' : r' = rh
    · rw [if_pos hr'] at hf'
      obtain rfl := some.inj hf'
      exact absurd heq.symm (hnew r f hr hf hvis hvis')
    · rw [if_neg hr'] at hf'
      exact h r r' f f' hf hf' hvis hvis' heq

theorem isInFlight_insert {rh : String} {e : InflightEntry} (h : isInFlight (inflight.insert rh e) id clock = true) :
    isInFlight inflight id clock = true ∨ (e.msg.id = id ∧ e.visibleAt > clock) := by
  obtain ⟨rh', e', he', hid, hvis⟩ := isInFlight_iff.1 h
  rw [get_insert] at he'
  split at he'
  · obtain rfl := some.inj he'
    exact .inr ⟨hid, hvis⟩
  · exact .inl (isInFlight_iff.2 ⟨rh', e', he', hid, hvis⟩)

end Exclusive

/-! ## The operations of a queue -/

/-- The condition on an operation of one queue: a handle that gets a visibility timeout is the only held
handle of its message. -/
def Calm (q : Queue) (clock : Int) : QueueOp → Prop
  | .changeMessageVisibility rh newTimeout =>
    newTimeout > 0 → ∀ e ∈ q.inflight.get rh, isInFlight (q.inflight.erase rh) e.msg.id clock = false
  | _ => True

/-- The message whose visibility the operation changes to a time to come. -/
def Revives (q : Queue) : QueueOp → String → Prop
  | .changeMessageVisibility rh newTimeout, id => newTimeout > 0 ∧ ∃ e ∈ q.inflight.get rh, e.msg.id = id
  | _, _ => False

section Apply

variable {newUUID : Nat → String} {clock : Int} {drawn : Nat} {q : Queue} {dlq : Option Queue}
  {dlqConfig : Option DLQConfig} {op : QueueOp} {o : Outcome}

section

variable (h : q.apply newUUID clock drawn dlqConfig dlq op = some o)
include h

theorem apply_forgets
    (hreceive : ∀ m t, op ≠ .receiveMessage m t) (hchange : ∀ rh t, op ≠ .changeMessageVisibility rh t) :
    ∀ rh e, o.queue.inflight.get rh = some e → q.inflight.get rh = some e := by
  revert hreceive hchange
  refine apply_rule (P := fun op o => (∀ m t, op ≠ .receiveMessage m t) → (∀ rh t, op ≠ .changeMessageVisibility rh t) →
    ∀ rh e, o.queue.inflight.get rh = some e → q.inflight.get rh = some e) h ?_ ?_ ?_ ?_ ?_
  · exact fun _ _ _ _ _ _ _ _ _ he => he
  · exact fun m t hreceive => absurd rfl (hreceive m t)
  · intro _ rhs _ _ _ rh e he
    have hget : (q.batchDeleteLoop rhs).1.inflight.get rh = some e := he
    rw [get_batchDeleteLoop] at hget
    split at hget
    · exact nomatch hget
    · exact hget
  · exact fun rh t _ hchange => absurd rfl (hchange rh t)
  · intro now order _ horder _ _
    obtain ⟨q', dlq', hr, hget⟩ := requeueExpired_forgets dlqConfig now q dlq
      (horder.nodup_iff.2 q.inflight.nodup_keys)
    rw [hr]
    exact hget

/-- Within a queue every operation that meets the condition keeps the handles exclusive. A handle is
held afterwards only for a message that was held, is live, or was revived. -/
theorem apply_exclusive
    (hq : Exclusive q.inflight clock) (hcalm : q.Calm clock op) :
    Exclusive o.queue.inflight clock ∧ ∀ id, isInFlight o.queue.inflight id clock = true →
      isInFlight q.inflight id clock = true ∨ (o.deadLettered = [] ∧ (id ∈ q.ids ∨ q.Revives op id)) := by
  by_cases hreceive : ∃ m t, op = .receiveMessage m t
  · obtain ⟨m, t, rfl⟩ := hreceive
    obtain rfl := some.inj h
    have hrule : Exclusive (q.receiveMessage newUUID drawn clock m t).1.inflight clock ∧ ∀ id,
        isInFlight (q.receiveMessage newUUID drawn clock m t).1.inflight id clock = true →
          isInFlight q.inflight id clock = true ∨ id ∈ q.ids := by
      refine receiveMessage_rule (I := fun s => Exclusive s.inflight clock ∧ ∀ id,
        isInFlight s.inflight id clock = true → isInFlight q.inflight id clock = true ∨ id ∈ q.ids) ?_ ?_
      · exact ⟨hq, fun _ h => .inl h⟩
      · rintro s msg ⟨hs, hheld⟩ hlive hnot
        refine ⟨hs.insert fun _ => ?_, fun id hid => ?_⟩
        · rw [Bool.eq_false_iff]
          intro htrue
          have hmem := isInFlight_mono (erase_forgets s.inflight (newUUID s.drawn)) htrue
          rw [hnot] at hmem
          exact absurd hmem Bool.false_ne_true
        · rcases isInFlight_insert hid with h | ⟨rfl, -⟩
          · exact hheld id h
          · exact .inr hlive
    exact ⟨hrule.1, fun id hid => (hrule.2 id hid).imp_right fun h => ⟨rfl, .inl h⟩⟩
  · by_cases hchange : ∃ rh t, op = .changeMessageVisibility rh t
    · obtain ⟨rh, t, rfl⟩ := hchange
      obtain rfl := some.inj h
      show Exclusive (q.changeMessageVisibility rh clock t).1.inflight clock ∧ ∀ id,
        isInFlight (q.changeMessageVisibility rh clock t).1.inflight id clock = true → _
      rw [changeMessageVisibility]
      cases hget : q.inflight.get rh with
      | none => exact ⟨hq, fun _ h => .inl h⟩
      | some entry =>
        refine ⟨hq.insert fun hvis => ?_, fun id hid => ?_⟩
        · have hpos : t > 0 := by
            have hvis' : clock + t > clock := hvis
            omega
          exact hcalm hpos entry hget
        · rcases isInFlight_insert hid with h | ⟨hentry, hvis⟩
          · exact .inl h
          · have hvis' : clock + t > clock := hvis
            exact .inr ⟨rfl, .inr ⟨by omega, entry, hget, hentry⟩⟩
    · have hsub := apply_forgets h (fun m t heq => hreceive ⟨m, t, heq⟩) fun rh t heq => hchange ⟨rh, t, heq⟩
      exact ⟨hq.mono hsub, fun id hid => .inl (isInFlight_mono hsub hid)⟩

end

end Apply

end Queue

namespace World

/-- No message has two held handles, in one of the queues or in both together. -/
def Exclusive (w : World) : Prop :=
  Queue.Exclusive w.source.inflight w.clock ∧ ∀ d ∈ w.dlq, Queue.Exclusive d.inflight w.clock ∧
    ∀ id, isInFlight w.source.inflight id w.clock = true → isInFlight d.inflight id w.clock = false

/-- The condition on a step. A handle gets a new visibility timeout only while no other handle of its
message is held and, if it is a handle of the source queue, its message is not in the dead-letter queue. A
scan moves only messages of which no handle is held. -/
def Calm (w : World) : Op → Prop
  | .source (.changeMessageVisibility rh newTimeout) =>
    newTimeout > 0 → ∀ e ∈ w.source.inflight.get rh,
      isInFlight (w.source.inflight.erase rh) e.msg.id w.clock = false ∧ e.msg.id ∉ w.dlqIds ∧
        ∀ d ∈ w.dlq, isInFlight d.inflight e.msg.id w.clock = false
  | .dlq (.changeMessageVisibility rh newTimeout) =>
    newTimeout > 0 → ∀ d ∈ w.dlq, ∀ e ∈ d.inflight.get rh,
      isInFlight (d.inflight.erase rh) e.msg.id w.clock = false ∧
        isInFlight w.source.inflight e.msg.id w.clock = false
  | .source (.requeueExpired now _) =>
    ∀ id ∈ w.overLimit now, isInFlight w.source.inflight id w.clock = false
  | _ => True

instance (w : World) (op : Op) : Decidable (w.Calm op) := by
  rcases op with op | op | d
  · rcases op <;> dsimp only [Calm] <;> infer_instance
  · rcases op <;> dsimp only [Calm] <;> infer_instance
  · exact inferInstanceAs (Decidable True)

/-- What a calm run keeps: the handles are exclusive, a message is live in one queue only and once in the
source queue, and a message in the dead-letter queue has no held handle in the source queue. -/
structure Quiet (newUUID : Nat → String) (w : World) : Prop where
  known : Known newUUID w
  nodup : w.source.ids.Nodup
  separate : w.Separate
  exclusive : w.Exclusive
  dlq : ∀ id ∈ w.dlqIds, isInFlight w.source.inflight id w.clock = false

section Step

variable {newUUID : Nat → String} {w : World}

variable {op : QueueOp} {o : Outcome}

theorem mem_deadLettered (hk : Known newUUID w)
    (h : w.source.apply newUUID w.clock w.drawn w.dlqConfig w.dlq op = some o) {id : String}
    (hid : id ∈ o.deadLettered) : ∃ now order, op = .requeueExpired now order ∧ id ∈ w.overLimit now := by
  revert hid
  refine apply_rule (P := fun op o => id ∈ o.deadLettered →
    ∃ now order, op = .requeueExpired now order ∧ id ∈ w.overLimit now) h ?_ ?_ ?_ ?_ ?_
  · exact fun _ _ _ _ _ => nofun
  · exact fun _ _ => nofun
  · exact fun _ _ _ => nofun
  · exact fun _ _ => nofun
  · exact fun now order _ horder hid => ⟨now, order, rfl, (arrived_perm hk now horder).mem_iff.1 hid⟩

theorem Quiet.afterSource (hw : Quiet newUUID w) (hinj : Function.Injective newUUID)
    (h : w.source.apply newUUID w.clock w.drawn w.dlqConfig w.dlq op = some o) (hcalm : w.Calm (.source op)) :
    Quiet newUUID (w.afterSource o) := by
  have ha := apply_applied h
  have hk := hw.known
  obtain ⟨n, hsent, -⟩ := ha.sent
  have hfresh := hk.sent_fresh hinj ha
  have hqcalm : w.source.Calm w.clock op := by
    cases op with
    | changeMessageVisibility rh t => exact fun hpos e he => (hcalm hpos e he).1
    | _ => trivial
  obtain ⟨hexcl, hheld⟩ := apply_exclusive h hw.exclusive.1 hqcalm
  -- a revived message is neither live nor held in the dead-letter queue
  have hrevived : ∀ id, w.source.Revives op id → id ∉ w.dlqIds ∧
      ∀ d ∈ w.dlq, isInFlight d.inflight id w.clock = false := by
    intro id hid
    cases op with
    | changeMessageVisibility rh t =>
      obtain ⟨hpos, e, he, rfl⟩ := hid
      exact (hcalm hpos e he).2
    | _ => exact hid.elim
  have hcount : ∀ id, w.source.ids.count id + o.sent.count id ≤ 1 := by
    intro id
    have hsrc := nodup_iff_count_le_one.1 hw.nodup id
    rw [count_sent hinj hsent]
    split
    · rename_i hmem
      rw [count_eq_zero.2 fun hlive => hfresh id hmem (hk.source id hlive)]
    · exact hsrc
  refine ⟨hk.afterSource ha hinj, ?_, ?_, ⟨hexcl, ?_⟩, ?_⟩
  · refine nodup_iff_count_le_one.2 fun id => ?_
    have := ha.ids id
    have := hcount id
    show o.queue.ids.count id ≤ 1
    omega
  · intro id hid hlive
    rw [dlqIds_afterSource ha] at hid
    have hpos := count_pos_iff.2 (show id ∈ o.queue.ids from hlive)
    rw [ha.ids id] at hpos
    have := hcount id
    rcases mem_append.1 hid with hd | hd
    · rw [count_eq_zero.2 (hw.separate id hd), count_eq_zero.2 fun hmem => hfresh id hmem (hk.dlq id hd)] at hpos
      omega
    · have := count_pos_iff.2 hd
      omega
  · intro d' hd'
    obtain ⟨msgs, hdlq, -, -⟩ := ha.dlq
    obtain ⟨d, hd, rfl⟩ := map_eq_some_iff.1 (hdlq.symm.trans hd')
    refine ⟨(hw.exclusive.2 d hd).1, fun id hid => ?_⟩
    rcases hheld id hid with hold | ⟨-, hlive | hrev⟩
    · exact (hw.exclusive.2 d hd).2 id hold
    · rw [Bool.eq_false_iff]
      intro htrue
      obtain ⟨rh, e, he, rfl, -⟩ := isInFlight_iff.1 htrue
      exact (hk.dlq_entries d hd rh e he).2 hlive
    · exact (hrevived id hrev).2 d hd
  · intro id hid
    rw [dlqIds_afterSource ha] at hid
    rw [Bool.eq_false_iff]
    intro htrue
    rcases mem_append.1 hid with hd | hd
    · rcases hheld id htrue with hold | ⟨-, hlive | hrev⟩
      · rw [hw.dlq id hd] at hold
        exact Bool.false_ne_true hold
      · exact hw.separate id hd hlive
      · exact (hrevived id hrev).1 hd
    · obtain ⟨now, order, rfl, hover⟩ := mem_deadLettered hk h hd
      rcases hheld id htrue with hold | ⟨hnil, -⟩
      · rw [hcalm id hover] at hold
        exact Bool.false_ne_true hold
      · rw [hnil] at hd
        exact nomatch hd

theorem Quiet.afterDlq (hw : Quiet newUUID w) (hinj : Function.Injective newUUID) {d : Queue}
    (hd : w.dlq = some d) (h : d.apply newUUID w.clock w.drawn none none op = some o) (hcalm : w.Calm (.dlq op)) :
    Quiet newUUID (w.afterDlq o) := by
  have ha := apply_applied h
  have hk := hw.known
  have hfresh := hk.sent_fresh hinj ha
  have hqcalm : d.Calm w.clock op := by
    cases op with
    | changeMessageVisibility rh t => exact fun hpos e he => (hcalm hpos d hd e he).1
    | _ => trivial
  obtain ⟨hexcl, hheld⟩ := apply_exclusive h (hw.exclusive.2 d hd).1 hqcalm
  -- what is live in the dead-letter queue was live there, or is new
  have hids : ∀ id ∈ o.queue.ids, id ∈ w.dlqIds ∨ .sent id ∉ w.history := by
    intro id hid
    have hpos := mem_of_count_sub hid (count_ids_of_dlq hd ha id)
    by_cases hmem : id ∈ w.dlqIds
    · exact .inl hmem
    · rw [count_eq_zero.2 hmem, Nat.zero_add, count_pos_iff] at hpos
      exact .inr (hfresh id hpos)
  refine ⟨hk.afterDlq hw.separate hd ha, hw.nodup, ?_, ⟨hw.exclusive.1, ?_⟩, ?_⟩
  · intro id hid hlive
    rcases hids id hid with hold | hnew
    · exact hw.separate id hold hlive
    · exact hnew (hk.source id hlive)
  · intro d' hd'
    obtain rfl := some.inj hd'
    refine ⟨hexcl, fun id hid => ?_⟩
    rw [Bool.eq_false_iff]
    intro htrue
    have hsource : isInFlight w.source.inflight id w.clock = true := hid
    rcases hheld id htrue with hold | ⟨-, hlive | hrev⟩
    · rw [(hw.exclusive.2 d hd).2 id hsource] at hold
      exact Bool.false_ne_true hold
    · rw [hw.dlq id (dlqIds_eq hd ▸ hlive)] at hsource
      exact Bool.false_ne_true hsource
    · cases op with
      | changeMessageVisibility rh t =>
        obtain ⟨hpos, e, he, rfl⟩ := hrev
        rw [(hcalm hpos d hd e he).2] at hsource
        exact Bool.false_ne_true hsource
      | _ => exact hrev.elim
  · intro id hid
    rcases hids id hid with hold | hnew
    · exact hw.dlq id hold
    · show isInFlight w.source.inflight id w.clock = false
      rw [Bool.eq_false_iff]
      intro htrue
      obtain ⟨rh, e, he, rfl, -⟩ := isInFlight_iff.1 htrue
      exact hnew (hk.entries rh e he)

/-- One step that meets the condition keeps the handles exclusive. -/
theorem Quiet.step (hw : Quiet newUUID w) (hinj : Function.Injective newUUID) {op : Op} {w' : World}
    (hcalm : w.Calm op) (hs : World.step newUUID w op = some w') : Quiet newUUID w' := by
  cases op with
  | source op =>
    obtain ⟨o, h, rfl⟩ := map_eq_some_iff.1 hs
    exact hw.afterSource hinj h hcalm
  | dlq op =>
    obtain ⟨d, hd, hs⟩ := bind_eq_some_iff.1 hs
    obtain ⟨o, h, rfl⟩ := map_eq_some_iff.1 hs
    exact hw.afterDlq hinj hd h hcalm
  | tick d =>
    obtain rfl := some.inj hs
    have hk := hw.known
    have hle : w.clock ≤ w.clock + d := by omega
    refine ⟨⟨hk.source, hk.dlq, hk.deleted, hk.drawn, hk.entries, hk.dlq_entries, hk.config⟩, hw.nodup,
      hw.separate, ⟨hw.exclusive.1.tick hle, fun q hq => ?_⟩, fun id hid => ?_⟩
    · obtain ⟨hexcl, hcross⟩ := hw.exclusive.2 q hq
      refine ⟨hexcl.tick hle, fun id hid => ?_⟩
      have hfalse := hcross id (isInFlight_tick hle hid)
      rw [Bool.eq_false_iff] at hfalse ⊢
      exact fun htrue => hfalse (isInFlight_tick hle htrue)
    · have hfalse := hw.dlq id hid
      rw [Bool.eq_false_iff] at hfalse
      exact Bool.eq_false_iff.2 fun htrue => hfalse (isInFlight_tick hle htrue)

end Step

theorem quiet_start (newUUID : Nat → String) (dlqConfig : Option DLQConfig) : Quiet newUUID (start dlqConfig) where
  known := known_start newUUID dlqConfig
  nodup := nodup_nil
  separate id _ h := nomatch h
  exclusive := by
    refine ⟨fun _ _ _ _ h => (nomatch h), fun d hd => ?_⟩
    obtain ⟨-, -, rfl⟩ := map_eq_some_iff.1 hd
    exact ⟨fun _ _ _ _ h => (nomatch h), fun _ _ => rfl⟩
  dlq _ _ := rfl

/-- **No message is held twice.** With or without a dead-letter queue, in every run whose steps all meet the
condition no message ever has two receipt handles that have not expired. -/
theorem exclusive_of_calm {newUUID : Nat → String} (hinj : Function.Injective newUUID)
    (dlqConfig : Option DLQConfig) :
    ∀ w, ReachableIf (step newUUID) Calm (start dlqConfig) w → w.Exclusive := by
  intro w hw
  have hquiet : Quiet newUUID w :=
    hw.invariant (quiet_start newUUID dlqConfig) fun _ _ _ _ hq hcalm hs => hq.step hinj hcalm hs
  exact hquiet.exclusive

/-- A handle is extended while it is held, expires, and the message is received again. -/
theorem exclusive_of_calm_run :
    ∃ w, execIf (step unary) (fun w op => decide (w.Calm op)) (start (some ⟨3⟩))
        [.source (.sendMessage [1]), .source (.receiveMessage 1 5),
          .source (.changeMessageVisibility "uu" 7), .tick 7, .source (.receiveMessage 1 5)] = some w ∧
      isInFlight w.source.inflight "u" w.clock = true ∧ w.Exclusive := by
  have hrun : (execIf (step unary) (fun w op => decide (w.Calm op)) (start (some ⟨3⟩))
      [.source (.sendMessage [1]), .source (.receiveMessage 1 5),
        .source (.changeMessageVisibility "uu" 7), .tick 7, .source (.receiveMessage 1 5)]).map
      (fun w => decide (isInFlight w.source.inflight "u" w.clock = true)) = some true := by rfl
  obtain ⟨w, hs, hfacts⟩ := map_eq_some_iff.1 hrun
  have hw := ReachableIf.init.execIf (fun _ _ => of_decide_eq_true) hs
  exact ⟨w, hs, of_decide_eq_true hfacts, exclusive_of_calm unary_injective (some ⟨3⟩) w hw⟩

/-- A consumer extends its handle after it expired, when another consumer holds the message already. -/
theorem revived_handle_is_second :
    ¬ ∀ newUUID : Nat → String, Function.Injective newUUID → ∀ dlqConfig w,
      Reachable (step newUUID) (start dlqConfig) w → w.Exclusive := by
  intro h
  have hrun : (exec (step unary) (start none)
      [.source (.sendMessage [1]), .source (.receiveMessage 1 1), .tick 1, .source (.receiveMessage 1 30),
        .source (.changeMessageVisibility "uu" 30)]).map
      (fun w => decide (∃ e ∈ w.source.inflight.get "uu", ∃ e' ∈ w.source.inflight.get "uuu",
        e.visibleAt > w.clock ∧ e'.visibleAt > w.clock ∧ e.msg.id = e'.msg.id)) = some true := by
    rfl
  obtain ⟨w, hs, hfacts⟩ := map_eq_some_iff.1 hrun
  obtain ⟨e, he, e', he', hvis, hvis', heq⟩ := of_decide_eq_true hfacts
  have hexcl := (h unary unary_injective none w (reachable_of_exec hs)).1
  exact absurd (hexcl "uu" "uuu" e e' he he' hvis hvis' heq) (by decide)

end World

end SystemDesignLabs.MessageQueue
