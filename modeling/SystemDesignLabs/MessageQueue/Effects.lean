import SystemDesignLabs.MessageQueue.Queue

/-!
# What each operation does to a queue

One lemma for each function about the messages of the live slice, one about the in-flight map, and from them
what an operation does with every message id (`apply_counts`) and to the in-flight entries
(`apply_entries`).
-/

namespace SystemDesignLabs.MessageQueue

open Option (some)

open Core SortedMap

namespace Queue

/-- The ids of the live slice, in order. -/
def ids (q : Queue) : List String := q.live.map Message.id

/-! ## The live slice -/

section

variable (q : Queue)
include q

theorem live_enqueue (msgs : List Message) : (q.enqueue msgs).live = q.live ++ msgs :=
  List.drop_append_of_le_length q.head_le

@[simp] theorem live_forget (rh : String) : (q.forget rh).live = q.live := rfl

@[simp] theorem inflight_forget (rh : String) : (q.forget rh).inflight = q.inflight.erase rh := rfl

theorem live_withLive (live : List Message) (inflight : Inflight) :
    (q.withLive live inflight).live = live := by
  have hlen : (q.messages.take q.head).length = q.head := by
    rw [List.length_take]
    exact Nat.min_eq_left q.head_le
  show (q.messages.take q.head ++ live).drop q.head = live
  rw [List.drop_append_of_le_length hlen.ge, List.drop_of_length_le hlen.le, List.nil_append]

@[simp] theorem live_compact : q.compact.live = q.live := by
  rw [compact]
  split
  · rfl
  · rfl

@[simp] theorem inflight_compact : q.compact.inflight = q.inflight := by
  rw [compact]
  split
  · rfl
  · rfl

theorem live_removeByID (id : String) :
    SwapRemoved (fun m => m.id = id) q.live (q.removeByID id).live := by
  rw [removeByID]
  split
  · rename_i hfind
    refine .absent fun m hm => ?_
    have hnot := List.findIdx?_eq_none_iff.1 hfind m hm
    exact of_decide_eq_false hnot
  · rename_i i hfind
    obtain ⟨hlt, -, -⟩ := List.findIdx?_eq_some_iff_getElem.1 hfind
    have hlen : q.head < q.messages.length := by
      rw [live, List.length_drop] at hlt
      omega
    have hlive : q.live = q.messages[q.head] :: q.messages.drop (q.head + 1) :=
      (List.getElem_cons_drop hlen).symm
    rw [dif_pos hlen]
    show SwapRemoved _ q.live ((q.messages.set (q.head + i) q.messages[q.head]).drop (q.head + 1))
    have hdrop : (q.messages.set (q.head + i) q.messages[q.head]).drop (q.head + 1) =
        (q.live.set i q.messages[q.head]).tail := by
      rw [live, List.set_drop, List.tail_drop]
    rw [hdrop]
    rw [hlive] at hfind ⊢
    have hswap := swapRemoved_set hfind
    simpa only [decide_eq_true_eq] using hswap

@[simp] theorem inflight_removeByID (id : String) : (q.removeByID id).inflight = q.inflight := by
  rw [removeByID]
  split
  · rfl
  · split
    · rfl
    · rfl

theorem ids_removeByID (id : String) : (q.removeByID id).ids.Perm (q.ids.erase id) :=
  (live_removeByID q id).map_perm_erase

@[simp] theorem ids_release (entry : InflightEntry) : (q.release entry).ids = q.ids := by
  rw [release]
  split
  · rfl
  · have hmap : ∀ (l : List Message) (k : Nat) (count : Int),
        (l.modify k fun m => { m with receiptHandle := "", receiveCount := count }).map Message.id =
          l.map Message.id := by
      intro l k count
      apply List.ext_getElem?
      intro j
      rw [List.getElem?_map, List.getElem?_map, List.getElem?_modify]
      cases l[j]? with
      | none => rfl
      | some m =>
        show some (if k = j then _ else m : Message).id = some m.id
        split
        · rfl
        · rfl
    rw [ids, ids, live, live, List.map_drop, List.map_drop, hmap]

@[simp] theorem inflight_release (entry : InflightEntry) :
    (q.release entry).inflight = q.inflight := by
  rw [release]
  split
  · rfl
  · rfl

end

/-! ## Receiving -/

theorem isInFlight_iff {inflight : Inflight} {id : String} {now : Int} :
    isInFlight inflight id now = true ↔
      ∃ rh e, inflight.get rh = some e ∧ e.msg.id = id ∧ e.visibleAt > now := by
  rw [isInFlight, List.any_eq_true]
  constructor
  · rintro ⟨⟨rh, e⟩, hmem, htest⟩
    rw [Bool.and_eq_true, decide_eq_true_eq, decide_eq_true_eq] at htest
    exact ⟨rh, e, mem_entries_iff.1 hmem, htest⟩
  · rintro ⟨rh, e, hget, hid, hvis⟩
    refine ⟨(rh, e), mem_entries_iff.2 hget, ?_⟩
    rw [Bool.and_eq_true, decide_eq_true_eq, decide_eq_true_eq]
    exact ⟨hid, hvis⟩

section Receive

variable {newUUID : Nat → String} {now timeout : Int}

theorem receiveOne_id (s : Receiving) (msg : Message) : (receiveOne newUUID now timeout s msg).1.id = msg.id := by
  rw [receiveOne]
  split
  · rfl
  · split
    · rfl
    · rfl

theorem receiveOne_cases (s : Receiving) (msg : Message) :
    (receiveOne newUUID now timeout s msg).2 = s ∨
      ∃ m : Message, m.id = msg.id ∧ isInFlight s.inflight msg.id now = false ∧
        (receiveOne newUUID now timeout s msg).2 =
          ⟨s.inflight.insert (newUUID s.drawn) ⟨m, now + timeout⟩, s.drawn + 1, s.result ++ [m]⟩ := by
  rw [receiveOne]
  split
  · exact .inl rfl
  · split
    · exact .inl rfl
    · rename_i hflight
      refine .inr ⟨{ msg with receiveCount := msg.receiveCount + 1, receiptHandle := newUUID s.drawn }, rfl, ?_, rfl⟩
      exact Bool.eq_false_iff.2 hflight

variable {q : Queue} {drawn : Nat} {maxMessages : Int}

/-- The rule for `ReceiveMessage`: what each delivery of a live message keeps, the whole call keeps. -/
theorem receiveMessage_rule {I : Receiving → Prop} (h0 : I ⟨q.inflight, drawn, []⟩)
    (hstep : ∀ s m, I s → m.id ∈ q.ids → isInFlight s.inflight m.id now = false →
      I ⟨s.inflight.insert (newUUID s.drawn) ⟨m, now + timeout⟩, s.drawn + 1, s.result ++ [m]⟩) :
    I ⟨(q.receiveMessage newUUID drawn now maxMessages timeout).1.inflight,
      (q.receiveMessage newUUID drawn now maxMessages timeout).2.1,
      (q.receiveMessage newUUID drawn now maxMessages timeout).2.2⟩ := by
  rw [receiveMessage]
  split
  · exact h0
  · refine visit_invariant (I := I) (fun msg hmsg s hs => ?_) (inflight_compact q ▸ h0)
    rw [live_compact] at hmsg
    rcases receiveOne_cases s msg with heq | ⟨m, hid, hflight, heq⟩
    · exact heq.symm ▸ hs
    · rw [heq]
      have hmem : m.id ∈ q.ids := hid ▸ List.mem_map_of_mem hmsg
      exact hstep s m hs hmem (hid.symm ▸ hflight)

theorem ids_receiveMessage (newUUID : Nat → String) (q : Queue) (drawn : Nat) (now maxMessages timeout : Int) :
    (q.receiveMessage newUUID drawn now maxMessages timeout).1.ids = q.ids := by
  rw [receiveMessage]
  split
  · rfl
  · rw [ids, live_withLive, visit_map fun s msg => receiveOne_id s msg, live_compact, ids]

end Receive

/-! ## Deleting -/

theorem deleteMessage_eq (q : Queue) (rh : String) : (q.deleteMessage rh).1 = (q.batchDeleteLoop [rh]).1 := by
  rw [deleteMessage, batchDeleteLoop]
  split
  · rfl
  · rfl

theorem ids_batchDeleteLoop (q : Queue) (rhs : List String) :
    (q.batchDeleteLoop rhs).1.ids.Perm (q.ids.diff (found q.inflight rhs)) := by
  induction rhs generalizing q with
  | nil => exact List.Perm.refl _
  | cons rh rhs ih =>
    rw [batchDeleteLoop, found]
    cases hget : q.inflight.get rh with
    | none => exact ih q
    | some entry =>
      have hrest := ih ((q.forget rh).removeByID entry.msg.id)
      rw [inflight_removeByID, inflight_forget] at hrest
      refine hrest.trans ?_
      rw [List.diff_cons]
      exact (ids_removeByID (q.forget rh) entry.msg.id).diff_right _

theorem get_batchDeleteLoop (q : Queue) (rhs : List String) (rh : String) :
    (q.batchDeleteLoop rhs).1.inflight.get rh = if rh ∈ rhs then none else q.inflight.get rh := by
  induction rhs generalizing q with
  | nil => rfl
  | cons r rhs ih =>
    rw [batchDeleteLoop]
    cases hget : q.inflight.get r with
    | none =>
      refine (ih q).trans ?_
      by_cases heq : rh = r
      · subst heq
        simp only [List.mem_cons_self, hget, ite_self]
      · simp only [List.mem_cons, heq, false_or]
    | some entry =>
      refine (ih _).trans ?_
      rw [inflight_removeByID, inflight_forget, get_erase]
      by_cases heq : rh = r
      · simp only [heq, List.mem_cons_self, if_true, ite_self]
      · simp only [List.mem_cons, heq, false_or, if_false]

theorem mem_found {inflight : Inflight} {rhs : List String} {id : String} :
    id ∈ found inflight rhs ↔ ∃ rh ∈ rhs, ∃ e, inflight.get rh = some e ∧ e.msg.id = id := by
  induction rhs generalizing inflight with
  | nil => simp [found]
  | cons r rhs ih =>
    rw [found, List.exists_mem_cons_iff]
    cases hget : inflight.get r with
    | none =>
      refine ih.trans ⟨.inr, ?_⟩
      rintro (⟨e, he, -⟩ | h)
      · exact nomatch he
      · exact h
    | some entry =>
      rw [List.mem_cons, ih]
      constructor
      · rintro (rfl | ⟨rh, hrh, e, he, hid⟩)
        · exact .inl ⟨entry, rfl, rfl⟩
        · rw [get_erase] at he
          split at he
          · exact nomatch he
          · exact .inr ⟨rh, hrh, e, he, hid⟩
      · rintro (⟨e, he, rfl⟩ | ⟨rh, hrh, e, he, hid⟩)
        · exact .inl (by rw [some.inj he])
        · by_cases heq : rh = r
          · subst heq
            rw [hget] at he
            exact .inl (by rw [some.inj he, hid])
          · exact .inr ⟨rh, hrh, e, by rw [get_erase, if_neg heq]; exact he, hid⟩

/-! ## Scanning -/

/-- What a scan puts into the dead-letter queue for an entry. -/
def letter (config : DLQConfig) (now : Int) (entry : InflightEntry) : Option Message :=
  if entry.visibleAt ≤ now ∧ entry.msg.receiveCount ≥ config.maxReceiveCount then some (deadLetter entry now)
  else none

theorem letter_id {config : DLQConfig} {now : Int} {e : InflightEntry} {m : Message}
    (h : letter config now e = some m) : m.id = e.msg.id := by
  rw [letter] at h
  split at h
  · obtain rfl := some.inj h
    rfl
  · exact nomatch h

/-- What a scan puts into the dead-letter queue, for the entries that it visits in this order. -/
def letters (config : DLQConfig) (now : Int) (inflight : Inflight) (order : List String) : List Message :=
  order.filterMap fun rh => (inflight.get rh).bind (letter config now)

@[simp] theorem enqueue_nil (q : Queue) : q.enqueue [] = q := by
  cases q
  simp only [enqueue, List.append_nil]

theorem enqueue_enqueue (q : Queue) (a b : List Message) : (q.enqueue a).enqueue b = q.enqueue (a ++ b) := by
  simp only [enqueue, List.append_assoc]

/-- A round of the scan with a dead-letter queue: the letter of the entry goes there, and its message leaves
the live slice. -/
theorem requeueOne_letter (config : DLQConfig) (now : Int) (q dlq : Queue) (rh : String) :
    ∃ q', requeueOne (some config) now (q, some dlq) rh =
        (q', some (dlq.enqueue (letters config now q.inflight [rh]))) ∧
      q'.ids.Perm (q.ids.diff ((letters config now q.inflight [rh]).map Message.id)) ∧
      ∀ rh', q'.inflight.get rh' = q.inflight.get rh' ∨ (rh' = rh ∧ q'.inflight.get rh' = none) := by
  rw [requeueOne, letters, List.filterMap_cons, List.filterMap_nil]
  cases hget : q.inflight.get rh with
  | none => exact ⟨q, by simp, List.Perm.refl _, fun _ => .inl rfl⟩
  | some entry =>
    have herase : ∀ rh', (q.forget rh).inflight.get rh' = q.inflight.get rh' ∨
        (rh' = rh ∧ (q.forget rh).inflight.get rh' = none) := by
      intro rh'
      rw [inflight_forget, get_erase]
      by_cases heq : rh' = rh
      · exact .inr ⟨heq, if_pos heq⟩
      · exact .inl (if_neg heq)
    dsimp only
    rw [Option.bind_some, letter]
    by_cases hvis : entry.visibleAt > now
    · rw [if_pos hvis, if_neg fun h => not_le.2 hvis h.1]
      exact ⟨q, by simp, List.Perm.refl _, fun _ => .inl rfl⟩
    · rw [if_neg hvis]
      by_cases hcount : entry.msg.receiveCount ≥ config.maxReceiveCount
      · rw [if_pos hcount, if_pos ⟨not_lt.1 hvis, hcount⟩]
        refine ⟨_, rfl, ?_, fun rh' => ?_⟩
        · rw [List.map_singleton, List.diff_cons, List.diff_nil]
          exact ids_removeByID (q.forget rh) entry.msg.id
        · rw [inflight_removeByID]
          exact herase rh'
      · rw [if_neg hcount, if_neg fun h => hcount h.2]
        refine ⟨_, by rw [enqueue_nil], ?_, fun rh' => ?_⟩
        · rw [ids_release]
          exact List.Perm.refl _
        · rw [inflight_release]
          exact herase rh'

/-- The scan with a dead-letter queue. -/
theorem requeueExpired_letters (config : DLQConfig) (now : Int) (q dlq : Queue) {order : List String}
    (hnodup : order.Nodup) :
    ∃ q', q.requeueExpired (some config) (some dlq) now order =
        (q', some (dlq.enqueue (letters config now q.inflight order))) ∧
      q'.ids.Perm (q.ids.diff ((letters config now q.inflight order).map Message.id)) ∧
      ∀ rh e, q'.inflight.get rh = some e → q.inflight.get rh = some e := by
  induction order generalizing q dlq with
  | nil => exact ⟨q, by rw [requeueExpired]; simp [letters], List.Perm.refl _, fun _ _ h => h⟩
  | cons rh order ih =>
    obtain ⟨hnot, hnodup⟩ := List.nodup_cons.1 hnodup
    obtain ⟨q₁, hone, hids₁, hget₁⟩ := requeueOne_letter config now q dlq rh
    obtain ⟨q₂, hall, hids₂, hget₂⟩ := ih q₁ (dlq.enqueue (letters config now q.inflight [rh])) hnodup
    -- the entries still to be visited are as they were
    have hrest : letters config now q₁.inflight order = letters config now q.inflight order := by
      refine List.filterMap_congr fun rh' hrh' => ?_
      rcases hget₁ rh' with heq | ⟨rfl, -⟩
      · rw [heq]
      · exact absurd hrh' hnot
    have hcons : letters config now q.inflight (rh :: order) =
        letters config now q.inflight [rh] ++ letters config now q.inflight order := by
      rw [letters, letters, letters, ← List.filterMap_append]
      rfl
    refine ⟨q₂, ?_, ?_, ?_⟩
    · rw [requeueExpired, List.foldl_cons, hone, hcons, ← enqueue_enqueue, ← hrest]
      exact hall
    · rw [hcons, List.map_append, List.diff_append, ← hrest]
      exact hids₂.trans (hids₁.diff_right _)
    · intro rh' e he
      rcases hget₁ rh' with heq | ⟨-, hnone⟩
      · exact heq ▸ hget₂ rh' e he
      · have := hget₂ rh' e he
        rw [hnone] at this
        exact nomatch this

theorem requeueExpired_release (dlqConfig : Option DLQConfig) (now : Int) (q : Queue) (dlq : Option Queue)
    (h : dlqConfig = none ∨ dlq = none) (order : List String) :
    ∃ q', q.requeueExpired dlqConfig dlq now order = (q', dlq) ∧ q'.ids = q.ids ∧
      ∀ rh e, q'.inflight.get rh = some e → q.inflight.get rh = some e := by
  induction order generalizing q with
  | nil => exact ⟨q, rfl, rfl, fun _ _ h => h⟩
  | cons rh order ih =>
    have hone : ∃ q₁, requeueOne dlqConfig now (q, dlq) rh = (q₁, dlq) ∧ q₁.ids = q.ids ∧
        ∀ rh' e, q₁.inflight.get rh' = some e → q.inflight.get rh' = some e := by
      rw [requeueOne]
      cases hget : q.inflight.get rh with
      | none => exact ⟨q, rfl, rfl, fun _ _ h => h⟩
      | some entry =>
        dsimp only
        by_cases hvis : entry.visibleAt > now
        · rw [if_pos hvis]
          exact ⟨q, rfl, rfl, fun _ _ h => h⟩
        · rw [if_neg hvis]
          have herase : ∀ rh' e, ((q.forget rh).release entry).inflight.get rh' = some e →
              q.inflight.get rh' = some e := by
            intro rh' e he
            rw [inflight_release, inflight_forget, get_erase] at he
            split at he
            · exact nomatch he
            · exact he
          refine ⟨(q.forget rh).release entry, ?_, ids_release _ _, herase⟩
          rcases h with rfl | rfl
          · rfl
          · cases dlqConfig with
            | none => rfl
            | some config => rfl
    obtain ⟨q₁, hone, hids₁, hget₁⟩ := hone
    obtain ⟨q₂, hall, hids₂, hget₂⟩ := ih q₁
    refine ⟨q₂, ?_, hids₂.trans hids₁, fun rh' e he => hget₁ rh' e (hget₂ rh' e he)⟩
    rw [requeueExpired, List.foldl_cons, hone]
    exact hall

/-- A scan keeps the entries that it does not take. -/
theorem requeueExpired_forgets (dlqConfig : Option DLQConfig) (now : Int) (q : Queue) (dlq : Option Queue)
    {order : List String} (hnodup : order.Nodup) :
    ∃ q' dlq', q.requeueExpired dlqConfig dlq now order = (q', dlq') ∧
      ∀ rh e, q'.inflight.get rh = some e → q.inflight.get rh = some e := by
  cases dlqConfig with
  | none =>
    obtain ⟨q', hr, -, hget⟩ := requeueExpired_release none now q dlq (.inl rfl) order
    exact ⟨q', _, hr, hget⟩
  | some config =>
    cases dlq with
    | none =>
      obtain ⟨q', hr, -, hget⟩ := requeueExpired_release (some config) now q none (.inr rfl) order
      exact ⟨q', _, hr, hget⟩
    | some d =>
      obtain ⟨q', hr, -, hget⟩ := requeueExpired_letters config now q d hnodup
      exact ⟨q', _, hr, hget⟩

/-! ## Every operation -/

/-- What every operation of a queue does: new messages have new ids, the live slice gains the messages that
were sent and loses those that were deleted or dead-lettered, the dead-letter queue gains the latter, only
live messages are delivered, and an entry is an old one or for a live message. -/
structure Applied (newUUID : Nat → String) (drawn : Nat) (q : Queue) (dlq : Option Queue) (o : Outcome) :
    Prop where
  sent : ∃ n, o.sent = (List.range n).map (fun i => newUUID (drawn + i)) ∧ drawn + n ≤ o.drawn
  ids : ∀ id, o.queue.ids.count id =
    (q.ids.count id + o.sent.count id) - (o.deleted.count id + o.deadLettered.count id)
  dlq : ∃ msgs, o.dlq = dlq.map (fun d => d.enqueue msgs) ∧ o.deadLettered = msgs.map Message.id ∧
    (dlq = none → msgs = [])
  removed : ∀ id, id ∈ o.deleted ∨ id ∈ o.deadLettered → ∃ rh e, q.inflight.get rh = some e ∧ e.msg.id = id
  kind : o.deleted = [] ∨ o.deadLettered = []
  delivered : ∀ id ∈ o.delivered, id ∈ q.ids
  entries : ∀ rh e, o.queue.inflight.get rh = some e →
    (∃ e₀, q.inflight.get rh = some e₀ ∧ e₀.msg.id = e.msg.id) ∨ e.msg.id ∈ q.ids

section Applied

variable {newUUID : Nat → String} {clock : Int} {drawn : Nat} {q : Queue} {dlq : Option Queue}

theorem map_enqueue_nil (dlq : Option Queue) : dlq = dlq.map fun d => d.enqueue [] := by
  simp only [enqueue_nil, Option.map_id']

theorem ids_enqueue (q : Queue) (msgs : List Message) : (q.enqueue msgs).ids = q.ids ++ msgs.map Message.id := by
  rw [ids, live_enqueue, List.map_append]
  rfl

theorem arrived_enqueue (d : Queue) (msgs : List Message) :
    arrived (some d) (some (d.enqueue msgs)) = msgs.map Message.id :=
  congrArg (List.map Message.id) List.drop_left

theorem arrived_self (dlq : Option Queue) : arrived dlq dlq = [] := by
  cases dlq with
  | none => rfl
  | some d =>
    show (d.messages.drop d.messages.length).map Message.id = []
    rw [List.drop_length, List.map_nil]

theorem applied_unchanged : Applied newUUID drawn q dlq { queue := q, dlq := dlq, drawn := drawn } where
  sent := ⟨0, rfl, Nat.le_refl _⟩
  ids _ := rfl
  dlq := ⟨[], map_enqueue_nil dlq, rfl, fun _ => rfl⟩
  removed _ h := h.elim (fun h => nomatch h) fun h => nomatch h
  kind := .inl rfl
  delivered _ h := nomatch h
  entries _ e he := .inl ⟨e, he, rfl⟩

theorem applied_enqueue (msgs : List Message) (hids : msgs.map Message.id =
      (List.range msgs.length).map fun i => newUUID (drawn + i)) :
    Applied newUUID drawn q dlq
      { queue := q.enqueue msgs, dlq := dlq, drawn := drawn + msgs.length, sent := msgs.map Message.id } where
  sent := ⟨msgs.length, hids, Nat.le_refl _⟩
  ids id := by
    show (q.enqueue msgs).ids.count id = _
    rw [ids_enqueue, List.count_append]
    rfl
  dlq := ⟨[], map_enqueue_nil dlq, rfl, fun _ => rfl⟩
  removed _ h := h.elim (fun h => nomatch h) fun h => nomatch h
  kind := .inl rfl
  delivered _ h := nomatch h
  entries _ e he := .inl ⟨e, he, rfl⟩

theorem applied_delete (rhs : List String) :
    Applied newUUID drawn q dlq
      { queue := (q.batchDeleteLoop rhs).1, dlq := dlq, drawn := drawn, deleted := found q.inflight rhs } where
  sent := ⟨0, rfl, Nat.le_refl _⟩
  ids id := by
    show (q.batchDeleteLoop rhs).1.ids.count id = _
    rw [(ids_batchDeleteLoop q rhs).count_eq, List.count_diff]
    rfl
  dlq := ⟨[], map_enqueue_nil dlq, rfl, fun _ => rfl⟩
  removed _ h := by
    rcases h with h | h
    · obtain ⟨rh, -, e, he, hid⟩ := mem_found.1 h
      exact ⟨rh, e, he, hid⟩
    · exact nomatch h
  kind := .inr rfl
  delivered _ h := nomatch h
  entries rh e he := by
    have hget : (q.batchDeleteLoop rhs).1.inflight.get rh = some e := he
    rw [get_batchDeleteLoop] at hget
    split at hget
    · exact nomatch hget
    · exact .inl ⟨e, hget, rfl⟩

theorem applied_receive (maxMessages timeout : Int) :
    let r := q.receiveMessage newUUID drawn clock maxMessages timeout
    Applied newUUID drawn q dlq
      { queue := r.1, dlq := dlq, drawn := r.2.1, delivered := r.2.2.map Message.id } := by
  intro r
  have hrule : drawn ≤ r.2.1 ∧ (∀ m ∈ r.2.2, m.id ∈ q.ids) ∧ ∀ rh e, r.1.inflight.get rh = some e →
      (∃ e₀, q.inflight.get rh = some e₀ ∧ e₀.msg.id = e.msg.id) ∨ e.msg.id ∈ q.ids := by
    refine receiveMessage_rule (I := fun s => drawn ≤ s.drawn ∧ (∀ m ∈ s.result, m.id ∈ q.ids) ∧
      ∀ rh e, s.inflight.get rh = some e →
        (∃ e₀, q.inflight.get rh = some e₀ ∧ e₀.msg.id = e.msg.id) ∨ e.msg.id ∈ q.ids) ?_ ?_
    · exact ⟨Nat.le_refl _, fun _ h => (nomatch h), fun _ e he => .inl ⟨e, he, rfl⟩⟩
    · rintro s m ⟨hdrawn, hresult, hentries⟩ hm -
      refine ⟨Nat.le_succ_of_le hdrawn, ?_, ?_⟩
      · intro m' hm'
        rcases List.mem_append.1 hm' with h | h
        · exact hresult m' h
        · exact List.mem_singleton.1 h ▸ hm
      · intro rh e he
        rw [get_insert] at he
        split at he
        · obtain rfl := some.inj he
          exact .inr hm
        · exact hentries rh e he
  obtain ⟨hdrawn, hresult, hentries⟩ := hrule
  refine ⟨⟨0, rfl, hdrawn⟩, ?_, ⟨[], map_enqueue_nil dlq, rfl, fun _ => rfl⟩,
    fun _ h => h.elim (fun h => nomatch h) (fun h => nomatch h), .inl rfl, ?_, hentries⟩
  · intro id
    show r.1.ids.count id = _
    rw [ids_receiveMessage]
    rfl
  · intro id hid
    obtain ⟨m, hm, rfl⟩ := List.mem_map.1 hid
    exact hresult m hm

theorem applied_changeVisibility (rh : String) (newTimeout : Int) :
    Applied newUUID drawn q dlq
      { queue := (q.changeMessageVisibility rh clock newTimeout).1, dlq := dlq, drawn := drawn } := by
  rw [changeMessageVisibility]
  cases hget : q.inflight.get rh with
  | none => exact applied_unchanged
  | some entry =>
    refine ⟨⟨0, rfl, Nat.le_refl _⟩, fun _ => rfl, ⟨[], map_enqueue_nil dlq, rfl, fun _ => rfl⟩,
      fun _ h => h.elim (fun h => nomatch h) (fun h => nomatch h), .inl rfl, (fun _ h => nomatch h), ?_⟩
    intro rh' e he
    have hins : (q.inflight.insert rh { entry with visibleAt := clock + newTimeout }).get rh' = some e := he
    rw [get_insert] at hins
    split at hins
    · rename_i heq
      obtain rfl := some.inj hins
      exact .inl ⟨entry, heq ▸ hget, rfl⟩
    · exact .inl ⟨e, hins, rfl⟩

theorem applied_scan {dlqConfig : Option DLQConfig} {now : Int} {order : List String}
    (horder : order.Perm (q.inflight.entries.map Prod.fst)) :
    let r := q.requeueExpired dlqConfig dlq now order
    Applied newUUID drawn q dlq
      { queue := r.1, dlq := r.2, drawn := drawn, deadLettered := arrived dlq r.2 } := by
  intro r
  have hkept : (∃ q', r = (q', dlq) ∧ q'.ids = q.ids ∧
      ∀ rh e, q'.inflight.get rh = some e → q.inflight.get rh = some e) →
      Applied newUUID drawn q dlq
        { queue := r.1, dlq := r.2, drawn := drawn, deadLettered := arrived dlq r.2 } := by
    rintro ⟨q', hr, hids, hget⟩
    rw [hr, arrived_self]
    exact ⟨⟨0, rfl, Nat.le_refl _⟩, fun id => congrArg (List.count id) hids,
      ⟨[], map_enqueue_nil dlq, rfl, fun _ => rfl⟩, fun _ h => h.elim (fun h => nomatch h) (fun h => nomatch h),
      .inl rfl, (fun _ h => nomatch h), fun rh e he => .inl ⟨e, hget rh e he, rfl⟩⟩
  cases hconfig : dlqConfig with
  | none => exact hkept (requeueExpired_release dlqConfig now q dlq (.inl hconfig) order)
  | some config =>
    cases hdlq : dlq with
    | none => exact hdlq ▸ hkept (requeueExpired_release dlqConfig now q dlq (.inr hdlq) order)
    | some d =>
      have hnodup : order.Nodup := horder.nodup_iff.2 q.inflight.nodup_keys
      obtain ⟨q', hr, hids, hget⟩ := requeueExpired_letters config now q d hnodup
      have hr' : r = (q', some (d.enqueue (letters config now q.inflight order))) := by
        rw [← hr, ← hconfig, ← hdlq]
      rw [hr', arrived_enqueue]
      refine ⟨⟨0, rfl, Nat.le_refl _⟩, fun id => ?_, ⟨_, rfl, rfl, fun h => nomatch h⟩, fun id h => ?_,
        .inl rfl, (fun _ h => nomatch h), fun rh e he => .inl ⟨e, hget rh e he, rfl⟩⟩
      · show q'.ids.count id = _
        rw [hids.count_eq, List.count_diff]
        exact congrArg _ (Nat.zero_add _).symm
      · rcases h with h | h
        · exact nomatch h
        · obtain ⟨m, hm, rfl⟩ := List.mem_map.1 h
          obtain ⟨rh, -, hletter⟩ := List.mem_filterMap.1 hm
          obtain ⟨e, he, hm⟩ := Option.bind_eq_some_iff.1 hletter
          exact ⟨rh, e, he, (letter_id hm).symm⟩

/-- The rule for an operation: what it comes to, by its kind. A batch that is refused enqueues nothing. -/
theorem apply_rule {P : QueueOp → Outcome → Prop} {dlqConfig : Option DLQConfig} {op : QueueOp} {o : Outcome}
    (h : q.apply newUUID clock drawn dlqConfig dlq op = some o)
    (henqueue : ∀ op msgs, msgs.map Message.id = ((List.range msgs.length).map fun i => newUUID (drawn + i)) →
      (∀ m ∈ msgs, m.receiveCount = 0) →
      ((∃ body, op = .sendMessage body) ∨ (∃ bodies, op = .batchSendMessage bodies) ∨
        ∃ rhs, op = .batchDeleteMessage rhs ∧ ¬ (0 < rhs.length ∧ rhs.length ≤ maxBatchSize)) →
      P op { queue := q.enqueue msgs, dlq := dlq, drawn := drawn + msgs.length, sent := msgs.map Message.id })
    (hreceive : ∀ m t, P (.receiveMessage m t)
      { queue := (q.receiveMessage newUUID drawn clock m t).1, dlq := dlq
        drawn := (q.receiveMessage newUUID drawn clock m t).2.1
        delivered := (q.receiveMessage newUUID drawn clock m t).2.2.map Message.id })
    (hdelete : ∀ op rhs, (∃ rh, op = .deleteMessage rh ∧ rhs = [rh]) ∨
      (op = .batchDeleteMessage rhs ∧ rhs.length ≤ maxBatchSize) → P op
      { queue := (q.batchDeleteLoop rhs).1, dlq := dlq, drawn := drawn, deleted := found q.inflight rhs })
    (hchange : ∀ rh t, P (.changeMessageVisibility rh t)
      { queue := (q.changeMessageVisibility rh clock t).1, dlq := dlq, drawn := drawn })
    (hscan : ∀ now order, now ≤ clock → order.Perm (q.inflight.entries.map Prod.fst) →
      P (.requeueExpired now order)
        { queue := (q.requeueExpired dlqConfig dlq now order).1, dlq := (q.requeueExpired dlqConfig dlq now order).2
          drawn := drawn, deadLettered := arrived dlq (q.requeueExpired dlqConfig dlq now order).2 }) :
    P op o := by
  cases op with
  | sendMessage body =>
    obtain rfl := some.inj h
    refine henqueue _ [newMessage (newUUID drawn) body clock] rfl (fun m hm => ?_) (.inl ⟨body, rfl⟩)
    rw [List.mem_singleton.1 hm]
    rfl
  | batchSendMessage bodies =>
    have hnone := henqueue (.batchSendMessage bodies) [] rfl nofun (.inr (.inl ⟨bodies, rfl⟩))
    rw [enqueue_nil] at hnone
    rw [apply, batchSendMessage] at h
    split_ifs at h
    · obtain rfl := some.inj h
      exact hnone
    · obtain rfl := some.inj h
      exact hnone
    · obtain rfl := some.inj h
      rw [List.length_map]
      refine henqueue _ _ (List.ext_getElem (by simp) fun i _ _ => ?_) (fun m hm => ?_) (.inr (.inl ⟨bodies, rfl⟩))
      · rw [List.getElem_map, List.getElem_map, List.getElem_mapIdx, List.getElem_range]
        rfl
      · obtain ⟨i, _, rfl⟩ := List.mem_mapIdx.1 hm
        rfl
  | receiveMessage m t =>
    obtain rfl := some.inj h
    exact hreceive m t
  | deleteMessage rh =>
    obtain rfl := some.inj h
    rw [deleteMessage_eq]
    exact hdelete _ [rh] (.inl ⟨rh, rfl, rfl⟩)
  | batchDeleteMessage rhs =>
    rw [apply, batchDeleteMessage] at h
    by_cases hsize : 0 < rhs.length ∧ rhs.length ≤ maxBatchSize
    · rw [if_neg (Nat.ne_of_gt hsize.1), if_neg (Nat.not_lt.2 hsize.2)] at h
      obtain rfl := some.inj h
      exact hdelete _ rhs (.inr ⟨rfl, hsize.2⟩)
    · have hnone := henqueue (.batchDeleteMessage rhs) [] rfl nofun (.inr (.inr ⟨rhs, rfl, hsize⟩))
      rw [enqueue_nil] at hnone
      split_ifs at h
      · obtain rfl := some.inj h
        exact hnone
      · obtain rfl := some.inj h
        exact hnone
      · omega
  | changeMessageVisibility rh t =>
    obtain rfl := some.inj h
    exact hchange rh t
  | requeueExpired now order =>
    rw [apply] at h
    split at h
    · rename_i hcond
      obtain rfl := some.inj h
      exact hscan now order hcond.1 hcond.2
    · exact nomatch h

/-- Every operation does to the messages what `Applied` says. -/
theorem apply_applied {dlqConfig : Option DLQConfig} {op : QueueOp} {o : Outcome}
    (h : q.apply newUUID clock drawn dlqConfig dlq op = some o) : Applied newUUID drawn q dlq o :=
  apply_rule (P := fun _ => Applied newUUID drawn q dlq) h (fun _ msgs hids _ _ => applied_enqueue msgs hids)
    applied_receive (fun _ rhs _ => applied_delete rhs) applied_changeVisibility
    fun _ _ _ horder => applied_scan horder

end Applied

end Queue

/-- Identifiers for runs on fixed inputs. -/
def unary (k : Nat) : String := String.ofList (List.replicate (k + 1) 'u')

theorem unary_injective : Function.Injective unary := by
  intro a b h
  have hlen := congrArg List.length (String.ofList_injective h)
  rw [List.length_replicate, List.length_replicate] at hlen
  omega

end SystemDesignLabs.MessageQueue
