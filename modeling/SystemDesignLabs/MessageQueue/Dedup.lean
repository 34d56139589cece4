import SystemDesignLabs.MessageQueue.Fifo

/-!
# Deduplication

A FIFO queue remembers under each deduplication id the message that was sent with it, for five minutes. In
every run the messages with one id are sent more than five minutes apart, whatever is received, deleted or
scanned in between.
-/

namespace SystemDesignLabs.MessageQueue.FIFOWorld

open Core SortedMap FIFOQueue

/-- The end of the deduplication window of a message. -/
def deadline (fm : FIFOMessage) : Int := fm.message.enqueuedAt + dedupWindow

/-- What every run keeps. The map has an entry for the message sent last with an id, until its window has
ended. -/
structure Deduplicates (w : FIFOWorld) : Prop where
  apart : w.fifo.fifoMessages.Pairwise fun x y =>
    x.dedupID = y.dedupID → x.dedupID ≠ "" → deadline x < y.message.enqueuedAt
  remembered : ∀ fm ∈ w.fifo.fifoMessages, fm.dedupID ≠ "" → w.clock ≤ deadline fm →
    w.fifo.dedupMap.get fm.dedupID = some ⟨fm.message.id, deadline fm⟩
  entries : ∀ id entry, w.fifo.dedupMap.get id = some entry →
    ∃ fm ∈ w.fifo.fifoMessages, fm.dedupID = id ∧ deadline fm = entry.expiresAt

variable {w w' : FIFOWorld} {newUUID : Nat → String} {dedupID : String}

theorem Deduplicates.frame (h : Deduplicates w) (hmessages : w'.fifo.fifoMessages = w.fifo.fifoMessages)
    (hmap : w'.fifo.dedupMap = w.fifo.dedupMap) (hclock : w.clock ≤ w'.clock) : Deduplicates w' where
  apart := hmessages ▸ h.apart
  remembered fm hfm hid hle := hmap ▸ h.remembered fm (hmessages ▸ hfm) hid (hclock.trans hle)
  entries id entry hget := hmessages ▸ h.entries id entry (hmap ▸ hget)

theorem get_pruneDedup {fq : FIFOQueue} {now : Int} {entry : DedupEntry} :
    (fq.pruneDedup now).dedupMap.get dedupID = some entry ↔
      fq.dedupMap.get dedupID = some entry ∧ now ≤ entry.expiresAt := by
  rw [pruneDedup, get_filter, Option.filter_eq_some_iff]
  simp

theorem get_append (fq : FIFOQueue) (id : String) (body : List UInt8) (groupID : String) (now : Int) (other : String) :
    (fq.append id body groupID dedupID now).dedupMap.get other =
      if dedupID ≠ "" ∧ other = dedupID then some ⟨id, now + dedupWindow⟩ else fq.dedupMap.get other := by
  rw [append]
  dsimp only
  split
  · rename_i hne
    simp only [get_insert, ne_eq, hne, not_false_eq_true, true_and]
  · rename_i hempty
    rw [if_neg fun h => hempty h.1]

theorem Deduplicates.prune (h : Deduplicates w) :
    Deduplicates { w with fifo := w.fifo.pruneDedup w.clock } where
  apart := h.apart
  remembered fm hfm hid hle := get_pruneDedup.2 ⟨h.remembered fm hfm hid hle, hle⟩
  entries id entry hget := h.entries id entry (get_pruneDedup.1 hget).1

theorem sendFIFOMessage_cases (newUUID : Nat → String) (w : FIFOWorld) (body : List UInt8) (groupID : String)
    (hid : dedupID ≠ "") :
    (∃ entry, (w.fifo.pruneDedup w.clock).dedupMap.get dedupID = some entry ∧
      w.fifo.sendFIFOMessage newUUID w.drawn body groupID dedupID w.clock =
        (w.fifo.pruneDedup w.clock, w.drawn, entry.messageID)) ∨
    (w.fifo.pruneDedup w.clock).dedupMap.get dedupID = none ∧
      w.fifo.sendFIFOMessage newUUID w.drawn body groupID dedupID w.clock =
        ((w.fifo.pruneDedup w.clock).append (newUUID w.drawn) body groupID dedupID w.clock, w.drawn + 1,
          newUUID w.drawn) := by
  rw [sendFIFOMessage, if_pos hid]
  dsimp only
  cases hget : (w.fifo.pruneDedup w.clock).dedupMap.get dedupID with
  | none => exact .inr ⟨rfl, rfl⟩
  | some entry => exact .inl ⟨entry, rfl, rfl⟩

/-- A message is appended only when no window of its id lasts. -/
theorem Deduplicates.append (h : Deduplicates w) (id : String) (body : List UInt8) (groupID : String)
    (hfree : ∀ fm ∈ w.fifo.fifoMessages, fm.dedupID = dedupID → dedupID ≠ "" → deadline fm < w.clock) (drawn : Nat) :
    Deduplicates { w with fifo := w.fifo.append id body groupID dedupID w.clock, drawn } where
  apart := by
    refine List.pairwise_append.2 ⟨h.apart, List.pairwise_singleton _ _, fun x hx y hy heq hne => ?_⟩
    cases List.mem_singleton.1 hy
    exact hfree x hx heq fun hnil => hne (heq.trans hnil)
  remembered fm hfm hid hle := by
    refine (get_append ..).trans ?_
    rcases List.mem_append.1 hfm with hfm | hfm
    · rw [if_neg fun hother => (hfree fm hfm hother.2 hother.1).not_ge hle]
      exact h.remembered fm hfm hid hle
    · cases List.mem_singleton.1 hfm
      exact if_pos ⟨hid, rfl⟩
  entries other entry hget := by
    rw [get_append] at hget
    split at hget
    · rename_i hother
      cases hget
      exact ⟨_, List.mem_append_right _ (List.mem_singleton.2 rfl), hother.2.symm, rfl⟩
    · obtain ⟨fm, hfm, hfacts⟩ := h.entries other entry hget
      exact ⟨fm, List.mem_append_left _ hfm, hfacts⟩

theorem Deduplicates.step (h : Deduplicates w) {op : FIFOOp} (hs : step newUUID w op = some w') : Deduplicates w' := by
  cases op with
  | sendFIFOMessage body groupID dedupID =>
    cases hs
    by_cases hid : dedupID = ""
    · rw [sendFIFOMessage, if_neg (not_not.2 hid)]
      exact h.append _ _ _ (fun _ _ _ hne => absurd hid hne) _
    · rcases sendFIFOMessage_cases newUUID w body groupID hid with ⟨entry, -, hsend⟩ | ⟨hnone, hsend⟩
      · rw [hsend]
        exact h.prune
      · rw [hsend]
        refine h.prune.append _ _ _ (fun fm hfm heq _ => ?_) _
        by_contra hlate
        have hget := h.prune.remembered fm hfm (heq ▸ hid) (not_lt.1 hlate)
        rw [heq] at hget
        cases hnone.symm.trans hget
  | receiveFIFOMessage maxMessages visibilityTimeout =>
    cases hs
    refine h.frame ?_ ?_ le_rfl
    all_goals
      dsimp only [receiveFIFOMessage]
      split <;> rfl
  | deleteFIFOMessage rh =>
    cases hs
    refine h.frame ?_ ?_ le_rfl
    all_goals
      dsimp only [deleteFIFOMessage]
      split <;> rfl
  | requeueExpired now order =>
    obtain ⟨-, hs⟩ := Option.ite_none_right_eq_some.1 hs
    cases hs
    exact h.frame rfl rfl le_rfl
  | tick d =>
    cases hs
    exact h.frame rfl rfl (Int.le_add_of_nonneg_right (Int.natCast_nonneg d))

/-- **Duplicates are dropped, and only they.** In every run, messages sent with one deduplication id are more
than the window apart. A message sent with an id whose window lasts changes nothing but expired entries and
gets the id of the first message; one sent with any other id is enqueued. -/
theorem duplicates_dropped (h : Reachable (step newUUID) start w) :
    (w.fifo.fifoMessages.Pairwise fun x y =>
      x.dedupID = y.dedupID → x.dedupID ≠ "" → deadline x < y.message.enqueuedAt) ∧
    ∀ body groupID dedupID, dedupID ≠ "" →
      (∀ fm ∈ w.fifo.fifoMessages, fm.dedupID = dedupID → w.clock ≤ deadline fm →
        w.fifo.sendFIFOMessage newUUID w.drawn body groupID dedupID w.clock =
          (w.fifo.pruneDedup w.clock, w.drawn, fm.message.id)) ∧
      ((∀ fm ∈ w.fifo.fifoMessages, fm.dedupID = dedupID → deadline fm < w.clock) →
        (w.fifo.sendFIFOMessage newUUID w.drawn body groupID dedupID w.clock).1.fifoMessages =
          w.fifo.fifoMessages ++ [⟨Queue.newMessage (newUUID w.drawn) body w.clock, groupID, dedupID⟩]) := by
  have hw : Deduplicates w := h.invariant
    ⟨.nil, fun _ hfm => absurd hfm List.not_mem_nil, fun _ _ hget => by cases hget⟩ fun _ _ _ _ h _ hs => h.step hs
  refine ⟨hw.apart, fun body groupID dedupID hid => ⟨fun fm hfm heq hle => ?_, fun hended => ?_⟩⟩
  · have hget := hw.prune.remembered fm hfm (heq ▸ hid) hle
    rw [heq] at hget
    rcases sendFIFOMessage_cases newUUID w body groupID hid with ⟨entry, hentry, hsend⟩ | ⟨hnone, -⟩
    · cases hentry.symm.trans hget
      exact hsend
    · cases hnone.symm.trans hget
  · rcases sendFIFOMessage_cases newUUID w body groupID hid with ⟨entry, hentry, -⟩ | ⟨-, hsend⟩
    · obtain ⟨hold, hlasts⟩ := get_pruneDedup.1 hentry
      obtain ⟨fm, hfm, heq, hdeadline⟩ := hw.entries dedupID entry hold
      exact absurd hlasts (hdeadline ▸ hended fm hfm heq).not_ge
    · rw [hsend]
      rfl

theorem duplicates_dropped_resent :
    ∃ w, exec (step unary) start [.sendFIFOMessage [1] "a" "x", .tick 5, .sendFIFOMessage [2] "b" "x",
        .tick 300000000000, .sendFIFOMessage [3] "a" "x"] = some w ∧
      w.fifo.fifoMessages.map (fun fm => fm.message.body) = [[1], [3]] ∧
      w.fifo.sendFIFOMessage unary w.drawn [4] "b" "x" w.clock = (w.fifo.pruneDedup w.clock, w.drawn, "uu") := by
  have hrun : (exec (step unary) start [.sendFIFOMessage [1] "a" "x", .tick 5, .sendFIFOMessage [2] "b" "x",
      .tick 300000000000, .sendFIFOMessage [3] "a" "x"]).map (fun w => decide
        (w.fifo.fifoMessages.map (fun fm => fm.message.body) = [[1], [3]] ∧
          ∃ fm ∈ w.fifo.fifoMessages, fm.message.id = "uu" ∧ fm.dedupID = "x" ∧ w.clock ≤ deadline fm)) =
      some true := by rfl
  obtain ⟨w, hs, hfacts⟩ := Option.map_eq_some_iff.1 hrun
  obtain ⟨hbodies, fm, hfm, hid, hdedup, hlasts⟩ := of_decide_eq_true hfacts
  refine ⟨w, hs, hbodies, hid ▸ ?_⟩
  exact ((duplicates_dropped (reachable_of_exec hs)).2 [4] "b" "x" (by decide)).1 fm hfm hdedup hlasts

end SystemDesignLabs.MessageQueue.FIFOWorld
