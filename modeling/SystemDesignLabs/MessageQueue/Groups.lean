import SystemDesignLabs.MessageQueue.Fifo

/-!
# Order within a message group

The lock of a group counts its receipt handles, so it is exact as long as no handle expires: expiry does not
release it. Deleting a message puts the head of the slice in its place, which keeps the order of a group
unless the head moves past another waiting message of its own group. In runs that avoid both
(`FIFOWorld.Steady`) every group is delivered in order, one message at a time, and is never stuck.
-/

namespace SystemDesignLabs.MessageQueue

open Option (map_eq_some_iff some)

open Core SortedMap FIFOQueue

namespace FIFOWorld

/-- The in-flight map of the embedded queue. -/
abbrev inflight (w : FIFOWorld) : Inflight := w.fifo.queue.inflight

/-- The ids in the order in which the messages were sent. -/
def sentIds (w : FIFOWorld) : List String := w.fifo.fifoMessages.map fun fm => fm.message.id

/-- When a message was sent, among all messages. -/
def rank (w : FIFOWorld) (id : String) : Nat := w.sentIds.idxOf id

/-- The group in which a message was sent. -/
def groupOf (w : FIFOWorld) (id : String) : Option String :=
  (FIFOQueue.findFIFO w.fifo.fifoMessages id).map FIFOMessage.groupID

/-- What `ReceiveFIFOMessage` would return now. -/
def receives (newUUID : Nat → String) (w : FIFOWorld) (maxMessages visibilityTimeout : Int) :
    List FIFOMessage :=
  (w.fifo.receiveFIFOMessage newUUID w.drawn w.clock maxMessages visibilityTimeout).2.2

/-- The contract of the groups. A message is delivered only when the earlier messages of its group are
deleted; it is delivered alone; and a group without a held handle delivers its next message to a receive
that asks for enough messages. -/
structure InOrder (newUUID : Nat → String) (w : FIFOWorld) : Prop where
  order : ∀ maxMessages timeout, ∀ x ∈ w.receives newUUID maxMessages timeout, ∀ y ∈ w.fifo.fifoMessages,
    y.groupID = x.groupID → w.rank y.message.id < w.rank x.message.id → y.message.id ∈ w.deleted
  alone : ∀ maxMessages timeout, (∀ x ∈ w.receives newUUID maxMessages timeout, ∀ rh e,
      w.inflight.get rh = some e → e.visibleAt > w.clock → w.groupOf e.msg.id ≠ some x.groupID) ∧
    ((w.receives newUUID maxMessages timeout).map FIFOMessage.groupID).Nodup
  flows : ∀ g, (∃ y ∈ w.fifo.fifoMessages, y.groupID = g ∧ y.message.id ∉ w.deleted) →
    (∀ rh e, w.inflight.get rh = some e → w.groupOf e.msg.id = some g → e.visibleAt ≤ w.clock) →
    ∀ maxMessages timeout, (w.fifo.queue.live.length : Int) ≤ maxMessages →
      ∃ x ∈ w.receives newUUID maxMessages timeout, x.groupID = g

/-- The condition on a step. A receive that delivers something sets a positive visibility timeout, and
time does not pass the deadline of a handle; a deletion does not move the head of the slice, if that message
is waiting, past another waiting message of its group. -/
def Steady (w : FIFOWorld) : FIFOOp → Prop
  | .receiveFIFOMessage maxMessages visibilityTimeout =>
    visibilityTimeout > 0 ∨ maxMessages ≤ 0 ∨ ∀ m ∈ w.fifo.queue.live,
      ∀ fm ∈ FIFOQueue.findFIFO w.fifo.fifoMessages m.id, w.fifo.groupInflight.count fm.groupID > 0
  | .deleteFIFOMessage rh =>
    ∀ e ∈ w.inflight.get rh, ∀ h ∈ w.fifo.queue.live.head?, h.id ≠ e.msg.id →
      isInFlight w.inflight h.id w.clock = true ∨
        ∀ x ∈ w.fifo.queue.live.tail.takeWhile fun m => decide (m.id ≠ e.msg.id),
          w.groupOf x.id = w.groupOf h.id → isInFlight w.inflight x.id w.clock = true
  | .tick d => ∀ p ∈ w.inflight.entries, p.2.visibleAt > w.clock + d
  | _ => True

instance (w : FIFOWorld) (op : FIFOOp) : Decidable (w.Steady op) := by
  cases op <;> unfold Steady <;> infer_instance

/-! ## The invariant -/

/-- Some handle is for this message. -/
def Held (w : FIFOWorld) (id : String) : Prop := ∃ rh e, w.inflight.get rh = some e ∧ e.msg.id = id

/-- What a steady run keeps. The live messages are those sent and not deleted; all handles are unexpired,
there is at most one for each group, and the lock of the group counts it; the message that is held is the
earliest of its group, and those that wait are in the order in which they were sent. -/
structure Orderly (newUUID : Nat → String) (w : FIFOWorld) : Prop where
  sent_nodup : w.sentIds.Nodup
  sent_drawn : ∀ id ∈ w.sentIds, ∃ k < w.drawn, newUUID k = id
  handle_drawn : ∀ rh e, w.inflight.get rh = some e → ∃ k < w.drawn, newUUID k = rh
  live_nodup : w.fifo.queue.ids.Nodup
  mem_live : ∀ id, id ∈ w.fifo.queue.ids ↔ id ∈ w.sentIds ∧ id ∉ w.deleted
  deleted_sent : ∀ id ∈ w.deleted, id ∈ w.sentIds
  visible : ∀ m ∈ w.fifo.queue.live, m.visibleAt ≤ w.clock
  held : ∀ rh e, w.inflight.get rh = some e → e.visibleAt > w.clock ∧ e.msg.id ∈ w.fifo.queue.ids
  one : ∀ rh rh' e e', w.inflight.get rh = some e → w.inflight.get rh' = some e' →
    w.groupOf e.msg.id = w.groupOf e'.msg.id → rh = rh'
  count_le : ∀ g, w.fifo.groupInflight.count g ≤ 1
  locked : ∀ g, 0 < w.fifo.groupInflight.count g ↔
    ∃ rh e, w.inflight.get rh = some e ∧ w.groupOf e.msg.id = some g
  first : ∀ rh e, w.inflight.get rh = some e → ∀ id ∈ w.fifo.queue.ids, w.groupOf id = w.groupOf e.msg.id →
    id ≠ e.msg.id → w.rank e.msg.id < w.rank id
  order : w.fifo.queue.ids.Pairwise fun a b =>
    w.groupOf a = w.groupOf b → ¬ w.Held a → ¬ w.Held b → w.rank a < w.rank b

theorem orderly_start (newUUID : Nat → String) : Orderly newUUID start where
  sent_nodup := List.nodup_nil
  sent_drawn _ h := nomatch h
  handle_drawn _ _ h := nomatch h
  live_nodup := List.nodup_nil
  mem_live _ := iff_of_false (fun h => nomatch h) fun h => nomatch h.1
  deleted_sent _ h := nomatch h
  visible _ h := nomatch h
  held _ _ h := nomatch h
  one _ _ _ _ h := nomatch h
  count_le _ := Nat.zero_le 1
  locked _ := iff_of_false (Nat.lt_irrefl 0) fun ⟨_, _, h, _⟩ => nomatch h
  first _ _ h := nomatch h
  order := List.Pairwise.nil

section Lookup

variable {fms : List FIFOMessage} {id : String}

theorem exists_findFIFO (h : id ∈ fms.map fun fm => fm.message.id) :
    ∃ fm, FIFOQueue.findFIFO fms id = some fm := by
  obtain ⟨fm, hfm, hid⟩ := List.mem_map.1 h
  have hsome : (findFIFO fms id).isSome :=
    List.find?_isSome.2 ⟨fm, hfm, decide_eq_true hid⟩
  exact Option.isSome_iff_exists.1 hsome

theorem findFIFO_mem {fm : FIFOMessage} (h : FIFOQueue.findFIFO fms id = some fm) :
    fm ∈ fms ∧ fm.message.id = id := by
  rw [findFIFO] at h
  have hid := List.find?_some h
  exact ⟨List.mem_of_find?_eq_some h, of_decide_eq_true hid⟩

theorem findFIFO_eq (hnodup : (fms.map fun fm => fm.message.id).Nodup) {fm : FIFOMessage} (h : fm ∈ fms) :
    FIFOQueue.findFIFO fms fm.message.id = some fm := by
  obtain ⟨fm', hfm'⟩ := exists_findFIFO (List.mem_map_of_mem h)
  obtain ⟨hmem, hid⟩ := findFIFO_mem hfm'
  rw [hfm', List.inj_on_of_nodup_map hnodup hmem h hid]

theorem findFIFO_append {more : List FIFOMessage} (h : id ∈ fms.map fun fm => fm.message.id) :
    FIFOQueue.findFIFO (fms ++ more) id = FIFOQueue.findFIFO fms id := by
  obtain ⟨fm, hfm⟩ := exists_findFIFO h
  rw [findFIFO, List.find?_append]
  rw [findFIFO] at hfm
  rw [hfm]
  rw [findFIFO, hfm]
  rfl

end Lookup

section Receive

variable {newUUID : Nat → String} {w : FIFOWorld} {timeout : Int}

theorem Orderly.groupOf_live (hw : Orderly newUUID w) {id : String} (h : id ∈ w.fifo.queue.ids) :
    ∃ fm, FIFOQueue.findFIFO w.fifo.fifoMessages id = some fm ∧ w.groupOf id = some fm.groupID := by
  obtain ⟨fm, hfm⟩ := exists_findFIFO ((hw.mem_live id).1 h).1
  exact ⟨fm, hfm, by rw [groupOf, hfm]; rfl⟩

/-- What has happened when a receive has visited the first live messages: the messages that it returns are
the earliest live ones of groups that were not locked, one for each group, and every visited message
belongs to a group that is locked by now. -/
structure Delivers (newUUID : Nat → String) (w : FIFOWorld) (timeout : Int) (done : List Message)
    (s : FIFOQueue.Receiving) : Prop where
  pre : ∃ rest, w.fifo.queue.live = done ++ rest
  len : s.result.length ≤ done.length
  drawn : w.drawn ≤ s.drawn
  result : ∀ x ∈ s.result, x.message.id ∈ w.fifo.queue.ids ∧ w.groupOf x.message.id = some x.groupID ∧
    w.fifo.groupInflight.count x.groupID = 0 ∧
    (∀ id ∈ w.fifo.queue.ids, w.groupOf id = some x.groupID → id ≠ x.message.id →
      w.rank x.message.id < w.rank id) ∧
    ∃ rh e, s.inflight.get rh = some e ∧ e.msg = x.message
  distinct : (s.result.map FIFOMessage.groupID).Nodup
  count : ∀ g, s.groupInflight.count g =
    w.fifo.groupInflight.count g + if g ∈ s.result.map FIFOMessage.groupID then 1 else 0
  old : ∀ rh e, w.inflight.get rh = some e → s.inflight.get rh = some e
  new : ∀ rh e, s.inflight.get rh = some e → w.inflight.get rh = some e ∨
    ((∃ k, w.drawn ≤ k ∧ k < s.drawn ∧ newUUID k = rh) ∧ e.msg.receiptHandle = rh ∧
      e.visibleAt = w.clock + timeout ∧ ∃ x ∈ s.result, x.message = e.msg)
  locked : ∀ m ∈ done, ∀ g, w.groupOf m.id = some g → 0 < s.groupInflight.count g

variable {s : FIFOQueue.Receiving} {msg : Message}

section

variable (hw : Orderly newUUID w)
include hw

theorem receiveOne_cases {done : List Message}
    (hs : Delivers newUUID w timeout done s) (hmsg : msg ∈ w.fifo.queue.live) :
    ((FIFOQueue.receiveOne newUUID w.fifo.fifoMessages w.clock timeout s msg).2 = s ∧
        ∀ g, w.groupOf msg.id = some g → 0 < s.groupInflight.count g) ∨
      ∃ fm m, FIFOQueue.findFIFO w.fifo.fifoMessages msg.id = some fm ∧ s.groupInflight.count fm.groupID = 0 ∧
        m.id = msg.id ∧ m.receiptHandle = newUUID s.drawn ∧
        (FIFOQueue.receiveOne newUUID w.fifo.fifoMessages w.clock timeout s msg).2 =
          { inflight := s.inflight.insert (newUUID s.drawn) ⟨m, w.clock + timeout⟩
            groupInflight := SortedMap.insert s.groupInflight fm.groupID
              (s.groupInflight.count fm.groupID + 1)
            drawn := s.drawn + 1
            result := s.result ++ [⟨m, fm.groupID, fm.dedupID⟩] } := by
  have hlive : msg.id ∈ w.fifo.queue.ids := List.mem_map_of_mem hmsg
  obtain ⟨fm, hfm, hgroup⟩ := hw.groupOf_live hlive
  rw [receiveOne, if_neg (not_lt.2 (hw.visible msg hmsg))]
  by_cases hflight : isInFlight s.inflight msg.id w.clock = true
  · -- a handle for the message locks the group
    rw [if_pos hflight]
    refine .inl ⟨rfl, fun g hg => ?_⟩
    obtain ⟨rh, e, he, hid, -⟩ := Queue.isInFlight_iff.1 hflight
    rw [hs.count]
    rcases hs.new rh e he with hold | ⟨-, -, -, x, hx, hxe⟩
    · have hlocked := (hw.locked g).2 ⟨rh, e, hold, by rw [hid]; exact hg⟩
      omega
    · obtain ⟨-, hxg, -⟩ := hs.result x hx
      rw [hxe, hid, hg, some.injEq] at hxg
      have hmem : g ∈ s.result.map FIFOMessage.groupID := hxg ▸ List.mem_map_of_mem hx
      rw [if_pos hmem]
      omega
  · rw [if_neg hflight, hfm]
    dsimp only
    by_cases hcount : s.groupInflight.count fm.groupID > 0
    · rw [if_pos hcount]
      refine .inl ⟨rfl, fun g hg => ?_⟩
      rw [hgroup, some.injEq] at hg
      exact hg ▸ hcount
    · rw [if_neg hcount]
      refine .inr ⟨fm, { msg with receiveCount := msg.receiveCount + 1, receiptHandle := newUUID s.drawn },
        rfl, Nat.eq_zero_of_not_pos hcount, rfl, rfl, rfl⟩

/-- A message that is delivered is the earliest live one of its group: the visited ones belong to locked
groups, and the others wait behind it. -/
theorem Delivers.earliest {done rest : List Message}
    (hs : Delivers newUUID w timeout done s) (hlive : w.fifo.queue.live = done ++ msg :: rest) {g : String}
    (hg : w.groupOf msg.id = some g) (hfree : s.groupInflight.count g = 0) :
    ∀ id ∈ w.fifo.queue.ids, w.groupOf id = some g → id ≠ msg.id → w.rank msg.id < w.rank id := by
  have hunlocked : w.fifo.groupInflight.count g = 0 := by
    have := hs.count g
    omega
  have hwaits : ∀ id, w.groupOf id = some g → ¬ w.Held id := by
    rintro id hid ⟨rh, e, he, rfl⟩
    have := (hw.locked g).2 ⟨rh, e, he, hid⟩
    omega
  intro id hid hidg hne
  have hids : w.fifo.queue.ids = done.map Message.id ++ msg.id :: rest.map Message.id := by
    rw [Queue.ids, hlive, List.map_append, List.map_cons]
  rw [hids] at hid
  rcases List.mem_append.1 hid with hdone | htail
  · obtain ⟨m, hm, rfl⟩ := List.mem_map.1 hdone
    have := hs.locked m hm g hidg
    omega
  · rcases List.mem_cons.1 htail with heq | hrest
    · exact absurd heq hne
    · have hpair := hw.order
      rw [hids] at hpair
      have hcons := (List.pairwise_append.1 hpair).2.1
      exact (List.pairwise_cons.1 hcons).1 id hrest (hg.trans hidg.symm) (hwaits _ hg) (hwaits _ hidg)

/-- One round keeps what is known of the loop. -/
theorem Delivers.step (hinj : Function.Injective newUUID) {done rest : List Message}
    (hlive : w.fifo.queue.live = done ++ msg :: rest) (hs : Delivers newUUID w timeout done s) :
    Delivers newUUID w timeout (done ++ [msg])
      (FIFOQueue.receiveOne newUUID w.fifo.fifoMessages w.clock timeout s msg).2 := by
  have hmem : msg ∈ w.fifo.queue.live := hlive ▸ List.mem_append_right _ List.mem_cons_self
  have hpre : ∃ r, w.fifo.queue.live = done ++ [msg] ++ r := ⟨rest, by rw [hlive, List.append_assoc]; rfl⟩
  rcases receiveOne_cases hw hs hmem with ⟨heq, hlocked⟩ | ⟨fm, m, hfm, hfree, hid, hrh, heq⟩
  · rw [heq]
    refine ⟨hpre, ?_, hs.drawn, hs.result, hs.distinct, hs.count, hs.old, hs.new, ?_⟩
    · rw [List.length_append]
      exact Nat.le_add_right_of_le hs.len
    · intro m hm g hg
      rcases List.mem_append.1 hm with h | h
      · exact hs.locked m h g hg
      · rw [List.mem_singleton.1 h] at hg
        exact hlocked g hg
  · rw [heq]
    have hg : w.groupOf msg.id = some fm.groupID := by rw [groupOf, hfm]; rfl
    have hearliest := hs.earliest hw hlive hg hfree
    have hcount := hs.count fm.groupID
    have hnot : fm.groupID ∉ s.result.map FIFOMessage.groupID := by
      intro h
      rw [if_pos h] at hcount
      omega
    -- the new handle is not one of those that exist
    have hfresh : s.inflight.get (newUUID s.drawn) = none := by
      cases hget : s.inflight.get (newUUID s.drawn) with
      | none => rfl
      | some e =>
        have hbelow : ∃ k < s.drawn, newUUID k = newUUID s.drawn := by
          rcases hs.new _ e hget with hold | ⟨⟨k, -, hk, hkrh⟩, -⟩
          · obtain ⟨k, hk, hkrh⟩ := hw.handle_drawn _ e hold
            exact ⟨k, hk.trans_le hs.drawn, hkrh⟩
          · exact ⟨k, hk, hkrh⟩
        obtain ⟨k, hk, hkrh⟩ := hbelow
        exact absurd (hinj hkrh) hk.ne
    have hkeep : ∀ rh e, s.inflight.get rh = some e →
        (s.inflight.insert (newUUID s.drawn) ⟨m, w.clock + timeout⟩).get rh = some e := by
      intro rh e he
      rw [get_insert, if_neg]
      · exact he
      · rintro rfl
        rw [hfresh] at he
        exact nomatch he
    refine ⟨hpre, ?_, Nat.le_succ_of_le hs.drawn, ?_, ?_, ?_, ?_, ?_, ?_⟩
    · rw [List.length_append, List.length_append, List.length_singleton, List.length_singleton]
      exact Nat.succ_le_succ hs.len
    · intro x hx
      rcases List.mem_append.1 hx with h | h
      · obtain ⟨h1, h2, h3, h4, rh, e, he, hxe⟩ := hs.result x h
        exact ⟨h1, h2, h3, h4, rh, e, hkeep rh e he, hxe⟩
      · obtain rfl := List.mem_singleton.1 h
        refine ⟨hid.symm ▸ List.mem_map_of_mem hmem, hid.symm ▸ hg, ?_, ?_, newUUID s.drawn,
          ⟨m, w.clock + timeout⟩, ?_, rfl⟩
        · show w.fifo.groupInflight.count fm.groupID = 0
          omega
        · show ∀ id ∈ w.fifo.queue.ids, w.groupOf id = some fm.groupID → id ≠ m.id → w.rank m.id < w.rank id
          rw [hid]
          exact hearliest
        · rw [get_insert, if_pos rfl]
    · rw [List.map_append, List.nodup_append]
      refine ⟨hs.distinct, List.nodup_singleton _, ?_⟩
      rintro g hgr g' hg' rfl
      obtain rfl := List.mem_singleton.1 hg'
      exact hnot hgr
    · intro g
      show CountMap.count (insert s.groupInflight fm.groupID _) g = _
      rw [CountMap.count_insert, List.map_append, List.map_singleton]
      by_cases hgg : g = fm.groupID
      · subst hgg
        rw [if_pos rfl, if_pos (List.mem_append_right _ (List.mem_singleton.2 rfl)), hcount, if_neg hnot]
      · have hiff : g ∈ s.result.map FIFOMessage.groupID ++ [fm.groupID] ↔
            g ∈ s.result.map FIFOMessage.groupID := by
          rw [List.mem_append, List.mem_singleton, or_iff_left hgg]
        simp only [if_neg hgg, hiff]
        exact hs.count g
    · exact fun rh e he => hkeep rh e (hs.old rh e he)
    · intro rh e he
      rw [get_insert] at he
      by_cases hr : rh = newUUID s.drawn
      · rw [if_pos hr, some.injEq] at he
        subst he
        exact .inr ⟨⟨s.drawn, hs.drawn, Nat.lt_succ_self _, hr.symm⟩, hrh.trans hr.symm, rfl,
          ⟨m, fm.groupID, fm.dedupID⟩, List.mem_append_right _ (List.mem_singleton.2 rfl), rfl⟩
      · rw [if_neg hr] at he
        rcases hs.new rh e he with hold | ⟨⟨k, hk1, hk2, hk3⟩, h2, h3, x, hx, hxe⟩
        · exact .inl hold
        · exact .inr ⟨⟨k, hk1, Nat.lt_succ_of_lt hk2, hk3⟩, h2, h3, x, List.mem_append_left _ hx, hxe⟩
    · intro m' hm' g hg'
      show 0 < CountMap.count (insert s.groupInflight fm.groupID _) g
      rw [CountMap.count_insert]
      split
      · exact Nat.succ_pos _
      · rename_i hgg
        rcases List.mem_append.1 hm' with h | h
        · exact hs.locked m' h g hg'
        · rw [List.mem_singleton.1 h, hg, some.injEq] at hg'
          exact absurd hg'.symm hgg

end

theorem delivers_nil :
    Delivers newUUID w timeout [] ⟨w.inflight, w.fifo.groupInflight, w.drawn, []⟩ where
  pre := ⟨_, rfl⟩
  len := Nat.le_refl _
  drawn := Nat.le_refl _
  result _ h := nomatch h
  distinct := List.nodup_nil
  count _ := rfl
  old _ _ h := h
  new _ _ h := .inl h
  locked _ h := nomatch h

section

variable (hw : Orderly newUUID w)
include hw

theorem Orderly.visited (hinj : Function.Injective newUUID)
    (maxMessages timeout : Int) :
    let s := (visit (fun s : Receiving => decide ((s.result.length : Int) < maxMessages))
      (receiveOne newUUID w.fifo.fifoMessages w.clock timeout) w.fifo.queue.live
      ⟨w.inflight, w.fifo.groupInflight, w.drawn, []⟩).2
    ∃ done, Delivers newUUID w timeout done s ∧
      (done = w.fifo.queue.live ∨ ¬ (s.result.length : Int) < maxMessages) := by
  intro s
  have hrule : Delivers newUUID w timeout w.fifo.queue.live s ∨ ∃ d, Delivers newUUID w timeout d s ∧ _ :=
    visit_rule (fun _ _ _ _ hl _ hs => hs.step hw hinj hl) [] w.fifo.queue.live rfl delivers_nil
  rcases hrule with h | ⟨d, h, hmore⟩
  · exact ⟨_, h, .inl rfl⟩
  · exact ⟨d, h, .inr (of_decide_eq_false hmore)⟩

theorem Orderly.receives (hinj : Function.Injective newUUID)
    (maxMessages timeout : Int) :
    let r := w.fifo.receiveFIFOMessage newUUID w.drawn w.clock maxMessages timeout
    r.1.fifoMessages = w.fifo.fifoMessages ∧
      r.1.queue.live.map (fun m => (m.id, m.visibleAt)) =
        w.fifo.queue.live.map (fun m => (m.id, m.visibleAt)) ∧
      ∃ done, Delivers newUUID w timeout done ⟨r.1.queue.inflight, r.1.groupInflight, r.2.1, r.2.2⟩ ∧
        (done = w.fifo.queue.live ∨ ¬ (r.2.2.length : Int) < maxMessages) := by
  intro r
  by_cases hmax : maxMessages ≤ 0
  · have hr : r = (w.fifo, w.drawn, []) := by
      show receiveFIFOMessage _ _ _ _ _ _ = _
      rw [receiveFIFOMessage, if_pos hmax]
    rw [hr]
    exact ⟨rfl, rfl, [], delivers_nil, .inr (by simpa using hmax)⟩
  · obtain ⟨done, hdone, hend⟩ := hw.visited hinj maxMessages timeout
    have hr : r = w.fifo.receiveFIFOMessage newUUID w.drawn w.clock maxMessages timeout := rfl
    rw [receiveFIFOMessage, if_neg hmax] at hr
    rw [hr]
    refine ⟨rfl, ?_, done, hdone, hend⟩
    dsimp only
    rw [Queue.live_withLive]
    refine visit_map (fun s msg => ?_) _ _
    rw [receiveOne]
    split
    · rfl
    · split
      · rfl
      · split
        · rfl
        · split
          · rfl
          · rfl

/-- An orderly queue keeps the contract. -/
theorem Orderly.inOrder (hinj : Function.Injective newUUID) : InOrder newUUID w where
  order maxMessages timeout x hx y hy hg hrank := by
    obtain ⟨-, -, done, hdone, -⟩ := hw.receives hinj maxMessages timeout
    obtain ⟨-, -, -, hearliest, -⟩ := hdone.result x hx
    by_contra hnot
    have hsent : y.message.id ∈ w.sentIds := List.mem_map_of_mem hy
    have hlive := (hw.mem_live _).2 ⟨hsent, hnot⟩
    have hyg : w.groupOf y.message.id = some x.groupID := by
      rw [groupOf, findFIFO_eq hw.sent_nodup hy, ← hg]
      rfl
    have hne : y.message.id ≠ x.message.id := fun h => by
      rw [h] at hrank
      exact absurd hrank (Nat.lt_irrefl _)
    have := hearliest _ hlive hyg hne
    omega
  alone maxMessages timeout := by
    obtain ⟨-, -, done, hdone, -⟩ := hw.receives hinj maxMessages timeout
    refine ⟨fun x hx rh e he _ hge => ?_, hdone.distinct⟩
    obtain ⟨-, -, hfree, -⟩ := hdone.result x hx
    have := (hw.locked _).2 ⟨rh, e, he, hge⟩
    omega
  flows g hundeleted hfree maxMessages timeout hmax := by
    obtain ⟨y, hy, hg, hnot⟩ := hundeleted
    have hsent : y.message.id ∈ w.sentIds := List.mem_map_of_mem hy
    have hlive := (hw.mem_live _).2 ⟨hsent, hnot⟩
    have hyg : w.groupOf y.message.id = some g := by
      rw [groupOf, findFIFO_eq hw.sent_nodup hy, ← hg]
      rfl
    -- all handles are unexpired, so the group is not locked
    have hunlocked : w.fifo.groupInflight.count g = 0 := by
      by_contra hne
      obtain ⟨rh, e, he, hge⟩ := (hw.locked g).1 (Nat.pos_of_ne_zero hne)
      exact absurd (hfree rh e he hge) (not_le.2 (hw.held rh e he).1)
    obtain ⟨-, -, done, hdone, hend⟩ := hw.receives hinj maxMessages timeout
    -- the loop has visited all live messages
    have hall : done = w.fifo.queue.live := by
      rcases hend with h | h
      · exact h
      · obtain ⟨rest, hrest⟩ := hdone.pre
        have hlen := congrArg List.length hrest
        rw [List.length_append] at hlen
        have hle := hdone.len
        have hnil : rest = [] := List.eq_nil_of_length_eq_zero (by
          simp only at hle h
          omega)
        rw [hrest, hnil, List.append_nil]
    obtain ⟨m, hm, hmid⟩ := List.mem_map.1 hlive
    have hlocked := hdone.locked m (hall.symm ▸ hm) g (hmid.symm ▸ hyg)
    rw [hdone.count, hunlocked, Nat.zero_add] at hlocked
    split at hlocked
    · rename_i hmem
      obtain ⟨x, hx, hxg⟩ := List.mem_map.1 hmem
      exact ⟨x, hx, hxg⟩
    · exact absurd hlocked (Nat.lt_irrefl 0)

end

end Receive

/-! ## Steps -/

section Step

variable {newUUID : Nat → String} {w w' : FIFOWorld}

section

variable (h : w'.fifo.fifoMessages = w.fifo.fifoMessages)
include h

theorem sentIds_congr : w'.sentIds = w.sentIds := by
  rw [sentIds, h, sentIds]

theorem groupOf_congr (id : String) :
    w'.groupOf id = w.groupOf id := by
  rw [groupOf, h, groupOf]

theorem rank_congr (id : String) :
    w'.rank id = w.rank id := by
  rw [rank, sentIds_congr h, rank]

end

variable {maxMessages timeout : Int}

theorem receives_nil_of_steady (hw : Orderly newUUID w) (hinj : Function.Injective newUUID)
    (hok : w.Steady (.receiveFIFOMessage maxMessages timeout)) (ht : ¬ timeout > 0) :
    w.receives newUUID maxMessages timeout = [] := by
  rcases hok with h | h | h
  · exact absurd h ht
  · rw [receives, receiveFIFOMessage, if_pos h]
  · obtain ⟨-, -, done, hdone, -⟩ := hw.receives hinj maxMessages timeout
    refine List.eq_nil_iff_forall_not_mem.2 fun x hx => ?_
    obtain ⟨hlive, hg, hfree, -⟩ := hdone.result x hx
    obtain ⟨m, hm, hid⟩ := List.mem_map.1 hlive
    obtain ⟨fm, hfm, hgroup⟩ := hw.groupOf_live hlive
    rw [hg, some.injEq] at hgroup
    have := h m hm fm (hid.symm ▸ hfm)
    rw [← hgroup] at this
    omega

theorem Orderly.receive (hw : Orderly newUUID w) (hinj : Function.Injective newUUID)
    (hok : w.Steady (.receiveFIFOMessage maxMessages timeout)) :
    let r := w.fifo.receiveFIFOMessage newUUID w.drawn w.clock maxMessages timeout
    Orderly newUUID { w with fifo := r.1, drawn := r.2.1 } := by
  intro r
  obtain ⟨hfms, hlive, done, hdone, -⟩ := hw.receives hinj maxMessages timeout
  have hnil : timeout > 0 ∨ r.2.2 = [] := by
    by_cases ht : timeout > 0
    · exact .inl ht
    · exact .inr (receives_nil_of_steady hw hinj hok ht)
  have hids : r.1.queue.ids = w.fifo.queue.ids := by
    have hfst := congrArg (List.map Prod.fst) hlive
    rw [List.map_map, List.map_map] at hfst
    exact hfst
  have hgroup : ∀ id, groupOf { w with fifo := r.1, drawn := r.2.1 } id = w.groupOf id := groupOf_congr hfms
  have hrank : ∀ id, rank { w with fifo := r.1, drawn := r.2.1 } id = w.rank id := rank_congr hfms
  have hsent : sentIds { w with fifo := r.1, drawn := r.2.1 } = w.sentIds := sentIds_congr hfms
  have hold : ∀ rh e, w.inflight.get rh = some e → r.1.queue.inflight.get rh = some e := hdone.old
  have hnew : ∀ rh e, r.1.queue.inflight.get rh = some e → w.inflight.get rh = some e ∨
      ((∃ k, w.drawn ≤ k ∧ k < r.2.1 ∧ newUUID k = rh) ∧ e.msg.receiptHandle = rh ∧
        e.visibleAt = w.clock + timeout ∧ ∃ x ∈ r.2.2, x.message = e.msg) := hdone.new
  -- a handle from before locks its group, so nothing of that group is delivered
  have hapart : ∀ rh e, w.inflight.get rh = some e → ∀ x ∈ r.2.2, w.groupOf e.msg.id ≠ some x.groupID := by
    intro rh e he x hx hge
    obtain ⟨-, -, hfree, -⟩ := hdone.result x hx
    have := (hw.locked _).2 ⟨rh, e, he, hge⟩
    omega
  have hcount : ∀ g, r.1.groupInflight.count g =
      w.fifo.groupInflight.count g + if g ∈ r.2.2.map FIFOMessage.groupID then 1 else 0 := hdone.count
  refine ⟨?_, ?_, ?_, ?_, ?_, ?_, ?_, ?_, ?_, ?_, ?_, ?_, ?_⟩
  · rw [hsent]
    exact hw.sent_nodup
  · rw [hsent]
    intro id hid
    obtain ⟨k, hk, hkid⟩ := hw.sent_drawn id hid
    exact ⟨k, hk.trans_le hdone.drawn, hkid⟩
  · intro rh e he
    rcases hnew rh e he with h | ⟨⟨k, -, hk, hkrh⟩, -⟩
    · obtain ⟨k, hk, hkrh⟩ := hw.handle_drawn rh e h
      exact ⟨k, hk.trans_le hdone.drawn, hkrh⟩
    · exact ⟨k, hk, hkrh⟩
  · show r.1.queue.ids.Nodup
    rw [hids]
    exact hw.live_nodup
  · intro id
    show id ∈ r.1.queue.ids ↔ _
    rw [hids, hsent]
    exact hw.mem_live id
  · rw [hsent]
    exact hw.deleted_sent
  · intro m hm
    have hpair : (m.id, m.visibleAt) ∈ w.fifo.queue.live.map fun m => (m.id, m.visibleAt) :=
      hlive ▸ List.mem_map_of_mem (f := fun m : Message => (m.id, m.visibleAt)) hm
    obtain ⟨m₀, hm₀, heq⟩ := List.mem_map.1 hpair
    obtain ⟨-, hvis⟩ := Prod.mk.inj heq
    exact hvis ▸ hw.visible m₀ hm₀
  · intro rh e he
    show e.visibleAt > w.clock ∧ e.msg.id ∈ r.1.queue.ids
    rw [hids]
    rcases hnew rh e he with h | ⟨-, -, hvis, x, hx, hxe⟩
    · exact hw.held rh e h
    · refine ⟨?_, hxe ▸ (hdone.result x hx).1⟩
      rcases hnil with ht | hempty
      · omega
      · rw [hempty] at hx
        exact nomatch hx
  · intro rh rh' e e' he he' heq
    rw [hgroup, hgroup] at heq
    rcases hnew rh e he with h | ⟨-, hrh, -, x, hx, hxe⟩
    · rcases hnew rh' e' he' with h' | ⟨-, -, -, x', hx', hxe'⟩
      · exact hw.one rh rh' e e' h h' heq
      · exact absurd (heq.trans (hxe' ▸ (hdone.result x' hx').2.1)) (hapart rh e h x' hx')
    · have hg := (hdone.result x hx).2.1
      rcases hnew rh' e' he' with h' | ⟨-, hrh', -, x', hx', hxe'⟩
      · exact absurd (heq.symm.trans (hxe ▸ hg)) (hapart rh' e' h' x hx)
      · have hg' := (hdone.result x' hx').2.1
        rw [hxe] at hg
        rw [hxe', ← heq, hg, some.injEq] at hg'
        have hxx : x = x' := List.inj_on_of_nodup_map hdone.distinct hx hx' hg'
        rw [← hrh, ← hrh', ← hxe, ← hxe', hxx]
  · intro g
    show r.1.groupInflight.count g ≤ 1
    rw [hcount]
    split
    · rename_i hmem
      obtain ⟨x, hx, rfl⟩ := List.mem_map.1 hmem
      have := (hdone.result x hx).2.2.1
      omega
    · exact hw.count_le g
  · intro g
    show 0 < r.1.groupInflight.count g ↔ _
    rw [hcount]
    constructor
    · intro hpos
      by_cases hmem : g ∈ r.2.2.map FIFOMessage.groupID
      · obtain ⟨x, hx, rfl⟩ := List.mem_map.1 hmem
        obtain ⟨-, hg, -, -, rh, e, he, hxe⟩ := hdone.result x hx
        exact ⟨rh, e, he, by rw [hgroup, hxe]; exact hg⟩
      · rw [if_neg hmem] at hpos
        obtain ⟨rh, e, he, hge⟩ := (hw.locked g).1 hpos
        exact ⟨rh, e, hold rh e he, (hgroup _).trans hge⟩
    · rintro ⟨rh, e, he, hge⟩
      rw [hgroup] at hge
      rcases hnew rh e he with h | ⟨-, -, -, x, hx, hxe⟩
      · have := (hw.locked g).2 ⟨rh, e, h, hge⟩
        omega
      · have hg := (hdone.result x hx).2.1
        rw [hxe, hge, some.injEq] at hg
        rw [if_pos (hg ▸ List.mem_map_of_mem hx)]
        omega
  · intro rh e he id hid heq hne
    rw [hgroup, hgroup] at heq
    rw [hrank, hrank]
    have hid' : id ∈ w.fifo.queue.ids := hids ▸ hid
    rcases hnew rh e he with h | ⟨-, -, -, x, hx, hxe⟩
    · exact hw.first rh e h id hid' heq hne
    · obtain ⟨-, hg, -, hearliest, -⟩ := hdone.result x hx
      rw [hxe] at hg hearliest
      exact hearliest id hid' (heq.trans hg) hne
  · show r.1.queue.ids.Pairwise _
    rw [hids]
    refine hw.order.imp fun {a b} hab hgab hna hnb => ?_
    rw [hgroup, hgroup] at hgab
    rw [hrank, hrank]
    have hheld : ∀ id, w.Held id → Held { w with fifo := r.1, drawn := r.2.1 } id :=
      fun id ⟨rh, e, he, hid⟩ => ⟨rh, e, hold rh e he, hid⟩
    exact hab hgab (fun h => hna (hheld a h)) fun h => hnb (hheld b h)

theorem Orderly.held_of_isInFlight {id : String} (h : isInFlight w.inflight id w.clock = true) : w.Held id := by
  obtain ⟨rh, e, he, hid, -⟩ := Queue.isInFlight_iff.1 h
  exact ⟨rh, e, he, hid⟩

/-- The order of the waiting messages survives a removal that does not move a waiting head past
another waiting message of its group. -/
theorem pairwise_swapRemoved {R R' : Message → Message → Prop} {id : String} {l r : List Message}
    (h : SwapRemoved (fun m => m.id = id) l r) (hl : l.Pairwise R) (hnodup : (l.map Message.id).Nodup)
    (himp : ∀ x ∈ l, ∀ y ∈ l, x.id ≠ id → y.id ≠ id → R x y → R' x y)
    (hhead : ∀ m ∈ l.head?, m.id ≠ id → ∀ x ∈ l.tail.takeWhile fun m => decide (m.id ≠ id), R' x m)
    (hmem : id ∈ l.map Message.id) : r.Pairwise R' := by
  cases h with
  | absent hall =>
    obtain ⟨m, hm, hid⟩ := List.mem_map.1 hmem
    exact absurd hid (hall m hm)
  | head hm =>
    rw [List.map_cons, List.nodup_cons, hm] at hnodup
    have hne : ∀ x ∈ r, x.id ≠ id := fun x hx heq => hnodup.1 (heq ▸ List.mem_map_of_mem hx)
    refine (List.pairwise_cons.1 hl).2.imp_of_mem fun {x y} hx hy hxy => ?_
    exact himp x (List.mem_cons_of_mem _ hx) y (List.mem_cons_of_mem _ hy) (hne x hx) (hne y hy) hxy
  | @later h m a b hh ha hm =>
    have hb : ∀ x ∈ b, x.id ≠ id := by
      intro x hx heq
      rw [List.map_cons, List.map_append, List.map_cons, List.nodup_cons, List.nodup_append,
        List.nodup_cons, hm] at hnodup
      exact hnodup.2.2.1.1 (heq ▸ List.mem_map_of_mem hx)
    have hina : ∀ x ∈ a, x ∈ h :: (a ++ m :: b) :=
      fun x hx => List.mem_cons_of_mem _ (List.mem_append_left _ hx)
    have hinb : ∀ x ∈ b, x ∈ h :: (a ++ m :: b) :=
      fun x hx => List.mem_cons_of_mem _ (List.mem_append_right _ (List.mem_cons_of_mem _ hx))
    obtain ⟨hhall, hrest⟩ := List.pairwise_cons.1 hl
    obtain ⟨haa, hmb, hamb⟩ := List.pairwise_append.1 hrest
    refine List.pairwise_append.2 ⟨?_, List.pairwise_cons.2 ⟨?_, ?_⟩, ?_⟩
    · exact haa.imp_of_mem fun {x y} hx hy hxy =>
        himp x (hina x hx) y (hina y hy) (ha x hx) (ha y hy) hxy
    · intro y hy
      exact himp h List.mem_cons_self y (hinb y hy) hh (hb y hy)
        (hhall y (List.mem_append_right _ (List.mem_cons_of_mem _ hy)))
    · exact (List.pairwise_cons.1 hmb).2.imp_of_mem fun {x y} hx hy hxy =>
        himp x (hinb x hx) y (hinb y hy) (hb x hx) (hb y hy) hxy
    · intro x hx y hy
      rcases List.mem_cons.1 hy with rfl | hy
      · -- the former head now stands behind the messages before the removed one
        refine hhead y rfl hh x ?_
        show x ∈ (a ++ m :: b).takeWhile _
        rw [List.takeWhile_append_of_pos fun x hx => decide_eq_true (ha x hx)]
        exact List.mem_append_left _ hx
      · exact himp x (hina x hx) y (hinb y hy) (ha x hx) (hb y hy)
          (hamb x hx y (List.mem_cons_of_mem _ hy))

section

variable (hw : Orderly newUUID w)
include hw

theorem Orderly.delete {rh : String} (hok : w.Steady (.deleteFIFOMessage rh)) :
    Orderly newUUID { w with
      fifo := (w.fifo.deleteFIFOMessage rh).1
      deleted := w.deleted ++ found w.inflight [rh] } := by
  rw [deleteFIFOMessage, found]
  cases hget : w.inflight.get rh with
  | none =>
    rw [found, List.append_nil]
    exact hw
  | some e =>
    obtain ⟨hvis, hlive⟩ := hw.held rh e hget
    obtain ⟨fm, hfm, hgroup⟩ := hw.groupOf_live hlive
    have hcount : w.fifo.groupInflight.count fm.groupID = 1 := by
      have hpos := (hw.locked fm.groupID).2 ⟨rh, e, hget, hgroup⟩
      have := hw.count_le fm.groupID
      omega
    dsimp only
    rw [hfm, found]
    dsimp only
    rw [hcount, if_pos Nat.one_pos]
    -- the handles that remain are for other messages, of other groups
    have hother : ∀ rh' e', (w.inflight.erase rh).get rh' = some e' →
        w.inflight.get rh' = some e' ∧ w.groupOf e'.msg.id ≠ some fm.groupID := by
      intro rh' e' he'
      rw [get_erase] at he'
      split at he'
      · cases he'
      · rename_i hne
        exact ⟨he', fun hg => hne (hw.one rh' rh e' e he' hget (hg.trans hgroup.symm))⟩
    have hne : ∀ rh' e', (w.inflight.erase rh).get rh' = some e' → e'.msg.id ≠ e.msg.id := by
      intro rh' e' he' heq
      exact (hother rh' e' he').2 (heq ▸ hgroup)
    have hkept : ∀ id, id ≠ e.msg.id → ∀ rh' e', w.inflight.get rh' = some e' → e'.msg.id = id →
        (w.inflight.erase rh).get rh' = some e' := by
      intro id hid rh' e' he' heq
      rw [get_erase, if_neg]
      · exact he'
      · rintro rfl
        rw [hget, some.injEq] at he'
        exact hid (he' ▸ heq.symm)
    have hinflight : ((w.fifo.queue.forget rh).removeByID e.msg.id).inflight = w.inflight.erase rh := by
      rw [Queue.inflight_removeByID, Queue.inflight_forget]
    have hswap := Queue.live_removeByID (w.fifo.queue.forget rh) e.msg.id
    rw [Queue.live_forget] at hswap
    have hperm : ((w.fifo.queue.forget rh).removeByID e.msg.id).ids.Perm (w.fifo.queue.ids.erase e.msg.id) :=
      Queue.ids_removeByID (w.fifo.queue.forget rh) e.msg.id
    have hmem : ∀ id, id ∈ ((w.fifo.queue.forget rh).removeByID e.msg.id).ids ↔
        id ≠ e.msg.id ∧ id ∈ w.fifo.queue.ids := by
      intro id
      rw [hperm.mem_iff, hw.live_nodup.mem_erase_iff]
    refine ⟨hw.sent_nodup, hw.sent_drawn, ?_, ?_, ?_, ?_, ?_, ?_, ?_, ?_, ?_, ?_, ?_⟩
    · intro rh' e' he'
      exact hw.handle_drawn rh' e' (hother rh' e' (hinflight ▸ he')).1
    · exact hperm.nodup_iff.2 (hw.live_nodup.erase _)
    · intro id
      refine (hmem id).trans ?_
      rw [hw.mem_live]
      show id ≠ e.msg.id ∧ id ∈ w.sentIds ∧ id ∉ w.deleted ↔
        id ∈ w.sentIds ∧ id ∉ w.deleted ++ [e.msg.id]
      rw [List.mem_append, List.mem_singleton, not_or]
      exact ⟨fun h => ⟨h.2.1, h.2.2, h.1⟩, fun h => ⟨h.2.2, h.1, h.2.1⟩⟩
    · intro id hid
      rcases List.mem_append.1 hid with h | h
      · exact hw.deleted_sent id h
      · exact List.mem_singleton.1 h ▸ ((hw.mem_live _).1 hlive).1
    · intro m hm
      have hsub : ∀ x ∈ ((w.fifo.queue.forget rh).removeByID e.msg.id).live, x ∈ w.fifo.queue.live :=
        hswap.subset
      exact hw.visible m (hsub m hm)
    · intro rh' e' he'
      have he : (w.inflight.erase rh).get rh' = some e' := hinflight ▸ he'
      obtain ⟨hvis', hlive'⟩ := hw.held rh' e' (hother rh' e' he).1
      exact ⟨hvis', (hmem _).2 ⟨hne rh' e' he, hlive'⟩⟩
    · intro rh₁ rh₂ e₁ e₂ he₁ he₂ heq
      exact hw.one rh₁ rh₂ e₁ e₂ (hother rh₁ e₁ (hinflight ▸ he₁)).1 (hother rh₂ e₂ (hinflight ▸ he₂)).1 heq
    · intro g
      show CountMap.count (insert w.fifo.groupInflight fm.groupID _) g ≤ 1
      rw [CountMap.count_insert]
      split
      · exact Nat.zero_le 1
      · exact hw.count_le g
    · intro g
      show 0 < CountMap.count (insert w.fifo.groupInflight fm.groupID _) g ↔
        ∃ rh' e', ((w.fifo.queue.forget rh).removeByID e.msg.id).inflight.get rh' = some e' ∧
          w.groupOf e'.msg.id = some g
      rw [CountMap.count_insert, hinflight]
      by_cases hg : g = fm.groupID
      · rw [if_pos hg]
        refine iff_of_false (Nat.lt_irrefl 0) ?_
        rintro ⟨rh', e', he', hge⟩
        exact (hother rh' e' he').2 (hg ▸ hge)
      · rw [if_neg hg, hw.locked]
        constructor
        · rintro ⟨rh', e', he', hge⟩
          refine ⟨rh', e', hkept _ (fun heq => hg ?_) rh' e' he' rfl, hge⟩
          rw [heq, hgroup, some.injEq] at hge
          exact hge.symm
        · rintro ⟨rh', e', he', hge⟩
          exact ⟨rh', e', (hother rh' e' he').1, hge⟩
    · intro rh' e' he' id hid heq hne'
      exact hw.first rh' e' (hother rh' e' (hinflight ▸ he')).1 id ((hmem id).1 hid).2 heq hne'
    · have hheld : ∀ id, id ≠ e.msg.id → w.Held id →
          ∃ rh' e', ((w.fifo.queue.forget rh).removeByID e.msg.id).inflight.get rh' = some e' ∧
            e'.msg.id = id := by
        rintro id hid ⟨rh', e', he', heq⟩
        exact ⟨rh', e', by rw [hinflight]; exact hkept id hid rh' e' he' heq, heq⟩
      refine List.pairwise_map.2 (pairwise_swapRemoved hswap (List.pairwise_map.1 hw.order)
        hw.live_nodup ?_ ?_ hlive)
      · intro x _ y _ hx hy hxy hg hnx hny
        exact hxy hg (fun h => hnx (hheld _ hx h)) fun h => hny (hheld _ hy h)
      · intro m hm hmne x hx hg hnx hnm
        rcases hok e hget m hm hmne with h | h
        · exact absurd (hheld _ hmne (Orderly.held_of_isInFlight h)) hnm
        · have htest := List.mem_takeWhile_imp hx
          have hxne : x.id ≠ e.msg.id := of_decide_eq_true htest
          exact absurd (hheld _ hxne (Orderly.held_of_isInFlight (h x hx hg))) hnx

theorem Orderly.append (hinj : Function.Injective newUUID) (body : List UInt8)
    (groupID dedupID : String) :
    Orderly newUUID { w with
      fifo := w.fifo.append (newUUID w.drawn) body groupID dedupID w.clock
      drawn := w.drawn + 1 } := by
  have hfresh : newUUID w.drawn ∉ w.sentIds := by
    intro h
    obtain ⟨k, hk, heq⟩ := hw.sent_drawn _ h
    exact absurd (hinj heq) hk.ne
  have hnew : ∀ id ∈ w.sentIds, id ≠ newUUID w.drawn := fun id h heq => hfresh (heq ▸ h)
  have hsent : sentIds { w with
      fifo := w.fifo.append (newUUID w.drawn) body groupID dedupID w.clock
      drawn := w.drawn + 1 } = w.sentIds ++ [newUUID w.drawn] := List.map_append
  have hlive : (w.fifo.append (newUUID w.drawn) body groupID dedupID w.clock).queue.live =
      w.fifo.queue.live ++ [Queue.newMessage (newUUID w.drawn) body w.clock] :=
    Queue.live_enqueue w.fifo.queue _
  have hids : (w.fifo.append (newUUID w.drawn) body groupID dedupID w.clock).queue.ids =
      w.fifo.queue.ids ++ [newUUID w.drawn] := Queue.ids_enqueue w.fifo.queue _
  have hliveSent : ∀ id ∈ w.fifo.queue.ids, id ∈ w.sentIds := fun id h => ((hw.mem_live id).1 h).1
  have hgroup : ∀ id ∈ w.sentIds, groupOf { w with
      fifo := w.fifo.append (newUUID w.drawn) body groupID dedupID w.clock
      drawn := w.drawn + 1 } id = w.groupOf id :=
    fun id h => congrArg (Option.map FIFOMessage.groupID) (findFIFO_append h)
  have hrank : ∀ id ∈ w.sentIds, rank { w with
      fifo := w.fifo.append (newUUID w.drawn) body groupID dedupID w.clock
      drawn := w.drawn + 1 } id = w.rank id := by
    intro id h
    rw [rank, hsent, rank, List.idxOf_append_of_mem h]
  have hlast : ∀ id ∈ w.sentIds, w.rank id < rank { w with
      fifo := w.fifo.append (newUUID w.drawn) body groupID dedupID w.clock
      drawn := w.drawn + 1 } (newUUID w.drawn) := by
    intro id h
    have hlt := List.idxOf_lt_length_of_mem h
    rw [rank, rank, hsent, List.idxOf_append_of_notMem hfresh]
    omega
  have hheldSent : ∀ rh e, w.inflight.get rh = some e → e.msg.id ∈ w.sentIds :=
    fun rh e he => hliveSent _ (hw.held rh e he).2
  refine ⟨?_, ?_, ?_, ?_, ?_, ?_, ?_, ?_, ?_, hw.count_le, ?_, ?_, ?_⟩
  · rw [hsent]
    exact hw.sent_nodup.append (List.nodup_singleton _) (List.disjoint_singleton.2 hfresh)
  · rw [hsent]
    intro id hid
    rcases List.mem_append.1 hid with h | h
    · obtain ⟨k, hk, heq⟩ := hw.sent_drawn id h
      exact ⟨k, Nat.lt_succ_of_lt hk, heq⟩
    · exact ⟨w.drawn, Nat.lt_succ_self _, (List.mem_singleton.1 h).symm⟩
  · intro rh e he
    obtain ⟨k, hk, heq⟩ := hw.handle_drawn rh e he
    exact ⟨k, Nat.lt_succ_of_lt hk, heq⟩
  · show (w.fifo.append _ body groupID dedupID w.clock).queue.ids.Nodup
    rw [hids]
    exact hw.live_nodup.append (List.nodup_singleton _)
      (List.disjoint_singleton.2 fun h => hfresh (hliveSent _ h))
  · intro id
    show id ∈ (w.fifo.append _ body groupID dedupID w.clock).queue.ids ↔ _ ∧ id ∉ w.deleted
    rw [hids, hsent, List.mem_append, List.mem_append, hw.mem_live, List.mem_singleton]
    constructor
    · rintro (⟨h, hnot⟩ | rfl)
      · exact ⟨.inl h, hnot⟩
      · exact ⟨.inr rfl, fun h => hfresh (hw.deleted_sent _ h)⟩
    · rintro ⟨h | h, hnot⟩
      · exact .inl ⟨h, hnot⟩
      · exact .inr h
  · rw [hsent]
    exact fun id h => List.mem_append_left _ (hw.deleted_sent id h)
  · show ∀ m ∈ (w.fifo.append _ body groupID dedupID w.clock).queue.live, m.visibleAt ≤ w.clock
    rw [hlive]
    intro m hm
    rcases List.mem_append.1 hm with h | h
    · exact hw.visible m h
    · rw [List.mem_singleton.1 h]
      exact le_refl _
  · intro rh e he
    show e.visibleAt > w.clock ∧ e.msg.id ∈ (w.fifo.append _ body groupID dedupID w.clock).queue.ids
    rw [hids]
    exact ⟨(hw.held rh e he).1, List.mem_append_left _ (hw.held rh e he).2⟩
  · intro rh rh' e e' he he' heq
    rw [hgroup _ (hheldSent rh e he), hgroup _ (hheldSent rh' e' he')] at heq
    exact hw.one rh rh' e e' he he' heq
  · intro g
    refine (hw.locked g).trans ⟨?_, ?_⟩
    · rintro ⟨rh, e, he, hg⟩
      exact ⟨rh, e, he, (hgroup _ (hheldSent rh e he)).trans hg⟩
    · rintro ⟨rh, e, he, hg⟩
      exact ⟨rh, e, he, (hgroup _ (hheldSent rh e he)).symm.trans hg⟩
  · intro rh e he id hid heq hne
    have hsome := hheldSent rh e he
    rw [hrank _ hsome]
    have hid' : id ∈ w.fifo.queue.ids ++ [newUUID w.drawn] := hids ▸ hid
    rcases List.mem_append.1 hid' with h | h
    · rw [hgroup _ hsome, hgroup _ (hliveSent id h)] at heq
      rw [hrank _ (hliveSent id h)]
      exact hw.first rh e he id h heq hne
    · rw [List.mem_singleton.1 h]
      exact hlast _ hsome
  · show (w.fifo.append _ body groupID dedupID w.clock).queue.ids.Pairwise _
    rw [hids]
    refine List.pairwise_append.2 ⟨?_, List.pairwise_singleton _ _, ?_⟩
    · refine hw.order.imp_of_mem fun {a b} ha hb hab hg hna hnb => ?_
      rw [hgroup a (hliveSent a ha), hgroup b (hliveSent b hb)] at hg
      rw [hrank a (hliveSent a ha), hrank b (hliveSent b hb)]
      exact hab hg hna hnb
    · intro a ha b hb _ _ _
      rw [List.mem_singleton.1 hb, hrank a (hliveSent a ha)]
      exact hlast a (hliveSent a ha)

theorem Orderly.pruneDedup (now : Int) :
    Orderly newUUID { w with fifo := w.fifo.pruneDedup now } :=
  ⟨hw.sent_nodup, hw.sent_drawn, hw.handle_drawn, hw.live_nodup, hw.mem_live, hw.deleted_sent, hw.visible, hw.held, hw.one,
    hw.count_le, hw.locked, hw.first, hw.order⟩

theorem Orderly.send (hinj : Function.Injective newUUID) (body : List UInt8)
    (groupID dedupID : String) :
    let r := w.fifo.sendFIFOMessage newUUID w.drawn body groupID dedupID w.clock
    Orderly newUUID { w with fifo := r.1, drawn := r.2.1 } := by
  intro r
  have hr : r = w.fifo.sendFIFOMessage newUUID w.drawn body groupID dedupID w.clock := rfl
  rw [sendFIFOMessage] at hr
  by_cases hdedup : dedupID ≠ ""
  · rw [if_pos hdedup] at hr
    have hpruned := hw.pruneDedup w.clock
    cases hget : (w.fifo.pruneDedup w.clock).dedupMap.get dedupID with
    | some entry =>
      dsimp only at hr
      rw [hget] at hr
      rw [hr]
      exact hpruned
    | none =>
      dsimp only at hr
      rw [hget] at hr
      rw [hr]
      exact hpruned.append hinj body groupID dedupID
  · rw [if_neg hdedup] at hr
    rw [hr]
    exact hw.append hinj body groupID dedupID

theorem Orderly.scan {now : Int} (hnow : now ≤ w.clock) (order : List String) :
    w.fifo.requeueExpired now order = w.fifo := by
  have hone : ∀ rh, Queue.requeueOne none now (w.fifo.queue, none) rh = (w.fifo.queue, none) := by
    intro rh
    rw [Queue.requeueOne]
    cases hget : w.inflight.get rh with
    | none => rfl
    | some e =>
      have hvis := (hw.held rh e hget).1
      dsimp only
      rw [if_pos (by omega)]
  have hall : w.fifo.queue.requeueExpired none none now order = (w.fifo.queue, none) := by
    rw [Queue.requeueExpired]
    induction order with
    | nil => rfl
    | cons rh order ih =>
      rw [List.foldl_cons, hone]
      exact ih
  rw [requeueExpired, hall]

/-- One steady step keeps the queue orderly. -/
theorem Orderly.step (hinj : Function.Injective newUUID) {op : FIFOOp}
    (hok : w.Steady op) (hs : FIFOWorld.step newUUID w op = some w') : Orderly newUUID w' := by
  cases op with
  | sendFIFOMessage body groupID dedupID =>
    obtain rfl := some.inj hs
    exact hw.send hinj body groupID dedupID
  | receiveFIFOMessage maxMessages timeout =>
    obtain rfl := some.inj hs
    exact hw.receive hinj hok
  | deleteFIFOMessage rh =>
    obtain rfl := some.inj hs
    exact hw.delete hok
  | requeueExpired now order =>
    rw [FIFOWorld.step] at hs
    split at hs
    · rename_i hcond
      obtain rfl := some.inj hs
      rw [hw.scan hcond.1]
      exact hw
    · exact nomatch hs
  | tick d =>
    obtain rfl := some.inj hs
    refine ⟨hw.sent_nodup, hw.sent_drawn, hw.handle_drawn, hw.live_nodup, hw.mem_live,
      hw.deleted_sent, ?_, ?_, hw.one, hw.count_le, hw.locked, hw.first, hw.order⟩
    · intro m hm
      have := hw.visible m hm
      show m.visibleAt ≤ w.clock + d
      omega
    · intro rh e he
      exact ⟨hok (rh, e) (mem_entries_iff.2 he), (hw.held rh e he).2⟩

end

end Step

/-! ## Every run -/

/-- **Groups are in order and never stuck.** In every run whose steps are all steady, every reached queue
keeps the contract of the groups. -/
theorem inOrder_of_steady {newUUID : Nat → String} (hinj : Function.Injective newUUID) :
    ∀ w, ReachableIf (step newUUID) Steady start w → w.InOrder newUUID := by
  intro w hw
  have horderly : Orderly newUUID w :=
    hw.invariant (orderly_start newUUID) fun _ _ _ _ h hok hs => h.step hinj hok hs
  exact horderly.inOrder hinj

/-- Two groups, a duplicate, and a deletion that moves a message of the other group. -/
theorem inOrder_of_steady_run :
    ∃ w, execIf (step unary) (fun w op => decide (w.Steady op)) start
        [.sendFIFOMessage [1] "a" "", .sendFIFOMessage [2] "b" "x", .sendFIFOMessage [2] "b" "x",
          .sendFIFOMessage [3] "a" "", .receiveFIFOMessage 3 10, .tick 5, .deleteFIFOMessage "uuuuu"] = some w ∧
      w.fifo.queue.ids = ["u", "uuu"] ∧ w.InOrder unary := by
  have hrun : (execIf (step unary) (fun w op => decide (w.Steady op)) start
      [.sendFIFOMessage [1] "a" "", .sendFIFOMessage [2] "b" "x", .sendFIFOMessage [2] "b" "x",
        .sendFIFOMessage [3] "a" "", .receiveFIFOMessage 3 10, .tick 5, .deleteFIFOMessage "uuuuu"]).map
      (fun w => decide (w.fifo.queue.ids = ["u", "uuu"])) = some true := by rfl
  obtain ⟨w, hs, hfacts⟩ := map_eq_some_iff.1 hrun
  have hw := ReachableIf.init.execIf (fun _ _ => of_decide_eq_true) hs
  exact ⟨w, hs, of_decide_eq_true hfacts, inOrder_of_steady unary_injective w hw⟩

/-- Both ways in which a group goes wrong. A deletion of another group moves the head, so that the third
message of a group is delivered before the second; and an expired handle leaves its group locked. -/
theorem reordered_and_stuck :
    (∃ w, Reachable (step unary) start w ∧ ∃ x ∈ w.receives unary 1 10, ∃ y ∈ w.fifo.fifoMessages,
      y.groupID = x.groupID ∧ w.rank y.message.id < w.rank x.message.id ∧ y.message.id ∉ w.deleted) ∧
    (∃ w, Reachable (step unary) start w ∧ (∃ y ∈ w.fifo.fifoMessages, y.groupID = "a" ∧
      y.message.id ∉ w.deleted) ∧ (∀ p ∈ w.inflight.entries, p.2.visibleAt ≤ w.clock) ∧
      w.receives unary 1 10 = []) ∧
    ¬ ∀ newUUID : Nat → String, Function.Injective newUUID → ∀ w, Reachable (step newUUID) start w →
      w.InOrder newUUID := by
  have hreordered : ∃ w, Reachable (step unary) start w ∧ ∃ x ∈ w.receives unary 1 10,
      ∃ y ∈ w.fifo.fifoMessages, y.groupID = x.groupID ∧
        w.rank y.message.id < w.rank x.message.id ∧ y.message.id ∉ w.deleted := by
    have hrun : (exec (step unary) start
        [.sendFIFOMessage [0] "a" "", .sendFIFOMessage [1] "a" "", .sendFIFOMessage [2] "a" "",
          .sendFIFOMessage [3] "b" "", .receiveFIFOMessage 4 10, .deleteFIFOMessage "uuuuu",
          .deleteFIFOMessage "uuuuuu"]).map
        (fun w => decide (∃ x ∈ w.receives unary 1 10, ∃ y ∈ w.fifo.fifoMessages, y.groupID = x.groupID ∧
          w.rank y.message.id < w.rank x.message.id ∧ y.message.id ∉ w.deleted)) = some true := by
      rfl
    obtain ⟨w, hs, hfacts⟩ := map_eq_some_iff.1 hrun
    exact ⟨w, reachable_of_exec hs, of_decide_eq_true hfacts⟩
  have hstuck : ∃ w, Reachable (step unary) start w ∧ (∃ y ∈ w.fifo.fifoMessages, y.groupID = "a" ∧
      y.message.id ∉ w.deleted) ∧ (∀ p ∈ w.inflight.entries, p.2.visibleAt ≤ w.clock) ∧
      w.receives unary 1 10 = [] := by
    have hrun : (exec (step unary) start
        [.sendFIFOMessage [0] "a" "", .receiveFIFOMessage 1 1, .tick 1]).map
        (fun w => decide ((∃ y ∈ w.fifo.fifoMessages, y.groupID = "a" ∧ y.message.id ∉ w.deleted) ∧
          (∀ p ∈ w.inflight.entries, p.2.visibleAt ≤ w.clock) ∧ w.receives unary 1 10 = [])) =
            some true := by rfl
    obtain ⟨w, hs, hfacts⟩ := map_eq_some_iff.1 hrun
    exact ⟨w, reachable_of_exec hs, of_decide_eq_true hfacts⟩
  refine ⟨hreordered, hstuck, fun h => ?_⟩
  obtain ⟨w, hw, x, hx, y, hy, hg, hrank, hnot⟩ := hreordered
  exact hnot ((h unary unary_injective w hw).order 1 10 x hx y hy hg hrank)

end FIFOWorld

end SystemDesignLabs.MessageQueue
