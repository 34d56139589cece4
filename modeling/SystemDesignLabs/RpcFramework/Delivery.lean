import SystemDesignLabs.Core.Cells
import SystemDesignLabs.RpcFramework.Client

/-!
# One frame for every call

A pending channel is sent to by the response that `readLoop` routes, by its sweep after a read error and by
the sweep of `Close`. The first two take the entry out of the pending map, the last one leaves it there, so a
channel gets a second frame where `readLoop` comes upon an entry that `Close` has sent to. In runs in which it
does not, a channel whose entry is in the map or in the hands of `readLoop` is empty (`Inv`), so that no send
blocks, and every call gets its own frame (`responses_matched`).
-/

namespace SystemDesignLabs.RpcFramework

open List Option Core Client

namespace Client

/-- All frames that were sent to a call. -/
def sentOf (s : Client) (k : Nat) : List Frame :=
  ((s.calls[k]?).map (·.sent)).getD []

/-- The calls whose channels `readLoop` is going to send to. -/
def held (s : Client) : List Nat :=
  match s.reader with
  | .routing k _ => [k]
  | .sweeping _ remaining => remaining.map (·.call)
  | _ => []

/-- `readLoop` holds the mutex. -/
def readerSweeps (s : Client) : Prop :=
  ∃ err remaining, s.reader = .sweeping err remaining

/-- A send to the channel of a call is next. -/
def SendsTo (s : Client) (k : Nat) : Prop :=
  k ∈ s.held ∨ ∃ remaining, s.closer = .sweeping remaining ∧ k ∈ remaining.map (·.call)

/-- The call has not put its channel into the map yet. -/
def Unregistered (s : Client) (k : Nat) : Prop :=
  s.phaseOf k = none ∨ s.phaseOf k = some .marshalling ∨ s.phaseOf k = some .registering

/-- The call has returned with a frame. -/
def ReturnedWith (s : Client) (k : Nat) (f : Frame) : Prop :=
  s.phaseOf k = some (.returned (.response f)) ∨ s.phaseOf k = some (.returned (.remoteError f))

end Client

/-- Calls are matched one to one: what a call returns with has its own request id, no channel is sent more
than one frame, and no send blocks. -/
structure Matched (s : Client) : Prop where
  own : ∀ k f, s.ReturnedWith k f → f.requestID = callId k
  once : ∀ k, (s.sentOf k).length ≤ 1
  unblocked : ∀ k, s.SendsTo k → s.hasRoom k = true

/-- The entries that a step of `readLoop` comes upon: that of a response, or all of them in its sweep. -/
def Client.comesUpon (s : Client) : Act → List Pending
  | .lookup =>
    match s.reader with
    | .received f => s.pendings.filter (·.id = f.requestID)
    | _ => []
  | .lockSweep => s.pendings
  | _ => []

/-- `readLoop` does not come upon an entry that `Close` has sent to. -/
def NoNotifiedEntry (s : Client) (a : Act) : Prop :=
  ∀ p ∈ s.comesUpon a, p.call ∉ s.notified

instance (s : Client) (a : Act) : Decidable (NoNotifiedEntry s a) :=
  inferInstanceAs (Decidable (∀ p ∈ s.comesUpon a, p.call ∉ s.notified))

/-- A call that has returned with a frame. -/
def Phase.Answered : Phase → Prop
  | .returned (.response _) => True
  | .returned (.remoteError _) => True
  | _ => False

/-! ### Reading a changed client -/

namespace Client

variable {s : Client} {k j : Nat} {phase : Phase} {f : Frame}

theorem phaseOf_setPhase : (s.setPhase k phase).phaseOf j
    = if j = k then (s.phaseOf k).map fun _ => phase else s.phaseOf j := by
  simp only [phaseOf, setPhase, getElem?_modify_cell]
  split
  · next h =>
    rw [h]
    cases s.calls[k]? <;> rfl
  · rfl

theorem sentOf_setPhase : (s.setPhase k phase).sentOf j = s.sentOf j := by
  simp only [sentOf, setPhase, getElem?_modify_cell]
  split
  · cases s.calls[j]? <;> rfl
  · rfl

theorem phaseOf_deliver : (s.deliver k f).phaseOf j = s.phaseOf j := by
  simp only [phaseOf, deliver, getElem?_modify_cell]
  split
  · cases s.calls[j]? <;> rfl
  · rfl

theorem sentOf_deliver (h : s.phaseOf k ≠ none) :
    (s.deliver k f).sentOf j = if j = k then s.sentOf k ++ [f] else s.sentOf j := by
  simp only [phaseOf, ne_eq, map_eq_none_iff] at h
  obtain ⟨c, hc⟩ := ne_none_iff_exists'.1 h
  simp only [sentOf, deliver, getElem?_modify_cell]
  split
  · next hj =>
    rw [hj, hc]
    rfl
  · rfl

theorem hasRoom_of_sentOf (hk : s.phaseOf k ≠ none) (h : s.sentOf k = []) : s.hasRoom k = true := by
  simp only [phaseOf, ne_eq, map_eq_none_iff] at hk
  obtain ⟨c, hc⟩ := ne_none_iff_exists'.1 hk
  have hsent : c.sent = [] := by simpa [sentOf, hc] using h
  simp [hasRoom, hc, Call.hasRoom, Call.buffer, hsent]

theorem not_readerSweeps_of_muFree (h : s.muFree = true) : ¬ s.readerSweeps := by
  rintro ⟨err, remaining, hr⟩
  rw [muFree, hr] at h
  exact Bool.false_ne_true h

theorem not_closerSweeps_of_muFree (h : s.muFree = true) (remaining : List Pending) :
    s.closer ≠ .sweeping remaining := by
  intro hc
  rw [muFree, hc] at h
  cases hr : s.reader <;> rw [hr] at h <;> exact Bool.false_ne_true h

end Client

/-! ### Invariant -/

/-- Where the channels stand. -/
structure Inv (s : Client) : Prop where
  ids : ∀ p ∈ s.pendings, p.id = callId p.call
  nodup : (s.pendings.map (·.call)).Nodup
  unregistered : ∀ k, s.Unregistered k →
    s.sentOf k = [] ∧ k ∉ s.pendings.map (·.call) ∧ k ∉ s.held ∧ k ∉ s.notified
  frames : ∀ k, ∀ f ∈ s.sentOf k, f.requestID = callId k
  outcomes : ∀ k f, s.ReturnedWith k f → f.requestID = callId k
  once : ∀ k, (s.sentOf k).length ≤ 1
  heldEmpty : ∀ k ∈ s.held, s.sentOf k = []
  heldNodup : s.held.Nodup
  routed : ∀ k f, s.reader = .routing k f → f.requestID = callId k
  swept : ∀ err remaining, s.reader = .sweeping err remaining → ∀ p ∈ remaining, p.id = callId p.call
  waiting : ¬ s.readerSweeps → ∀ p ∈ s.pendings, p.call ∉ s.notified → s.sentOf p.call = [] ∧ p.call ∉ s.held
  closing : ∀ remaining, s.closer = .sweeping remaining → ¬ s.readerSweeps
    ∧ (remaining.map (·.call)).Nodup ∧ ∀ p ∈ remaining, p ∈ s.pendings ∧ p.call ∉ s.notified
  quiet : s.closer = .untouched ∨ s.closer = .closing → s.notified = []

theorem erase_nodup {remaining : List Pending} (h : (remaining.map (·.call)).Nodup) {p : Pending} (hp : p ∈ remaining) :
    p.call ∉ (remaining.erase p).map (·.call) ∧ ((remaining.erase p).map (·.call)).Nodup := by
  have hperm := (perm_cons_erase hp).map (·.call)
  exact nodup_cons.1 (hperm.nodup_iff.1 h)

namespace Inv

variable {s : Client} {k : Nat} {phase : Phase}

section

variable (h : Inv s)
include h

theorem phaseOf_ne_none (hk : k ∈ s.pendings.map (·.call) ∨ k ∈ s.held) : s.phaseOf k ≠ none := by
  intro hnone
  obtain ⟨-, hpending, hheld, -⟩ := h.unregistered k (.inl hnone)
  exact hk.elim hpending hheld

/-- The invariant is what the result says. -/
theorem matched : Matched s where
  own := h.outcomes
  once := h.once
  unblocked := by
    rintro k (hk | ⟨remaining, hremaining, hk⟩)
    · exact hasRoom_of_sentOf (h.phaseOf_ne_none (.inr hk)) (h.heldEmpty k hk)
    · obtain ⟨hreader, -, hentries⟩ := h.closing remaining hremaining
      obtain ⟨p, hp, rfl⟩ := mem_map.1 hk
      obtain ⟨hpending, hnew⟩ := hentries p hp
      have hcall := h.phaseOf_ne_none (.inl (mem_map_of_mem hpending))
      exact hasRoom_of_sentOf hcall (h.waiting hreader p hpending hnew).1

theorem of_calls {calls : List Call} (hsent : ∀ j, { s with calls }.sentOf j = s.sentOf j)
    (hun : ∀ j, { s with calls }.Unregistered j → s.Unregistered j)
    (hout : ∀ j f, { s with calls }.ReturnedWith j f → s.ReturnedWith j f ∨ f.requestID = callId j) :
    Inv { s with calls } := by
  refine ⟨h.ids, h.nodup, ?_, ?_, ?_, ?_, ?_, h.heldNodup, h.routed, h.swept, ?_, h.closing, h.quiet⟩
  · intro j hj
    rw [hsent]
    exact h.unregistered j (hun j hj)
  · intro j
    rw [hsent]
    exact h.frames j
  · exact fun j f hj => (hout j f hj).elim (h.outcomes j f) id
  · intro j
    rw [hsent]
    exact h.once j
  · intro j hj
    rw [hsent]
    exact h.heldEmpty j hj
  · intro hreader p hp hnew
    rw [hsent]
    exact h.waiting hreader p hp hnew

theorem setPhase (hphase : ¬ phase.Answered)
    (hunregistered : phase = .marshalling ∨ phase = .registering → s.Unregistered k) : Inv (s.setPhase k phase) := by
  refine h.of_calls (fun j => sentOf_setPhase) ?_ ?_
  · intro j hj
    change (s.setPhase k phase).Unregistered j at hj
    simp only [Unregistered, phaseOf_setPhase] at hj
    split at hj
    · next heq =>
      subst heq
      cases hold : s.phaseOf j with
      | none => exact .inl hold
      | some old =>
        simp only [hold, map_some, some_inj, reduceCtorEq, false_or] at hj
        exact hunregistered hj
    · exact hj
  · intro j f hj
    change (s.setPhase k phase).ReturnedWith j f at hj
    simp only [ReturnedWith, phaseOf_setPhase] at hj
    split at hj
    · cases hold : s.phaseOf k with
      | none => simp [hold] at hj
      | some old =>
        simp only [hold, map_some, some_inj] at hj
        rcases hj with rfl | rfl
        · exact absurd trivial hphase
        · exact absurd trivial hphase
    · exact .inl hj

theorem remove (hmu : s.muFree = true) (id : Nat) : Inv (s.remove id) where
  ids := fun p hp => h.ids p (mem_of_mem_filter hp)
  nodup := h.nodup.sublist (filter_sublist.map _)
  unregistered := by
    intro j hj
    obtain ⟨hsent, hpending, hheld, hnotified⟩ := h.unregistered j hj
    exact ⟨hsent, fun hmem => hpending ((filter_sublist.map _).subset hmem), hheld, hnotified⟩
  frames := h.frames
  outcomes := h.outcomes
  once := h.once
  heldEmpty := h.heldEmpty
  heldNodup := h.heldNodup
  routed := h.routed
  swept := h.swept
  waiting := fun hreader p hp => h.waiting hreader p (mem_of_mem_filter hp)
  closing := fun remaining hc => absurd hc (not_closerSweeps_of_muFree hmu remaining)
  quiet := h.quiet

theorem register (hmu : s.muFree = true) (hk : s.Unregistered k) (hcall : s.phaseOf k ≠ none) :
    Inv ((s.register k).setPhase k .sending) := by
  obtain ⟨hsentk, hpendingk, hheldk, hnotifiedk⟩ := h.unregistered k hk
  have hsent : ∀ j, ((s.register k).setPhase k .sending).sentOf j = s.sentOf j :=
    fun j => sentOf_setPhase
  have hrest : ∀ p ∈ s.pendings.filter (·.id ≠ callId k), p ∈ s.pendings ∧ p.call ≠ k := by
    intro p hp
    have hmem := mem_of_mem_filter hp
    exact ⟨hmem, fun heq => hpendingk (heq ▸ mem_map_of_mem hmem)⟩
  have hother : ∀ j, ((s.register k).setPhase k .sending).Unregistered j → j ≠ k ∧ s.Unregistered j := by
    intro j hj
    simp only [Unregistered, phaseOf_setPhase] at hj
    split at hj
    · next heq =>
      obtain ⟨old, hold⟩ := ne_none_iff_exists'.1 hcall
      have hsame : (s.register k).phaseOf k = some old := hold
      simp [hsame] at hj
    · next hne => exact ⟨hne, hj⟩
  refine ⟨?_, ?_, ?_, ?_, ?_, ?_, ?_, h.heldNodup, h.routed, h.swept, ?_, ?_, h.quiet⟩
  · intro p hp
    rcases mem_cons.1 hp with rfl | hp
    · rfl
    · exact h.ids p (hrest p hp).1
  · refine nodup_cons.2 ⟨fun hmem => ?_, h.nodup.sublist (filter_sublist.map _)⟩
    exact hpendingk ((filter_sublist.map _).subset hmem)
  · intro j hj
    obtain ⟨hne, hold⟩ := hother j hj
    obtain ⟨hsentj, hpending, hheld, hnotified⟩ := h.unregistered j hold
    refine ⟨(hsent j).trans hsentj, fun hmem => ?_, hheld, hnotified⟩
    rcases mem_cons.1 hmem with heq | hmem
    · exact hne heq
    · exact hpending ((filter_sublist.map _).subset hmem)
  · intro j
    rw [hsent]
    exact h.frames j
  · intro j f hj
    simp only [ReturnedWith, phaseOf_setPhase] at hj
    split at hj
    · cases hold : (s.register k).phaseOf k <;> simp [hold] at hj
    · exact h.outcomes j f hj
  · intro j
    rw [hsent]
    exact h.once j
  · intro j hj
    rw [hsent]
    exact h.heldEmpty j hj
  · intro hreader p hp hnew
    rw [hsent]
    rcases mem_cons.1 hp with rfl | hp
    · exact ⟨hsentk, hheldk⟩
    · exact h.waiting hreader p (hrest p hp).1 hnew
  · exact fun remaining hc => absurd hc (not_closerSweeps_of_muFree hmu remaining)

end

variable {f : Frame}

section

variable (h : Inv s)
include h

theorem receive {c : Call} {rest : List Frame} {outcome : Outcome} {taken : Nat}
    (hc : s.calls[k]? = some c) (hbuffer : c.buffer = f :: rest)
    (houtcome : outcome = .remoteError f ∨ outcome = .response f) :
    Inv { s with calls := s.calls.set k ⟨.returned outcome, c.sent, taken⟩ } := by
  have hf : f.requestID = callId k := by
    refine h.frames k f ?_
    have hmem : f ∈ c.buffer := hbuffer ▸ mem_cons_self
    simp only [sentOf, hc]
    exact mem_of_mem_drop hmem
  have hphase : ∀ j, ({ s with calls := s.calls.set k ⟨.returned outcome, c.sent, taken⟩ } : Client).phaseOf j
      = if j = k then some (.returned outcome) else s.phaseOf j := by
    intro j
    simp only [phaseOf, getElem?_set_cell]
    split
    · next hj => rw [hj, hc]; rfl
    · rfl
  refine h.of_calls ?_ ?_ ?_
  · intro j
    simp only [sentOf, getElem?_set_cell]
    split
    · next hj => rw [hj, hc]; rfl
    · rfl
  · intro j hj
    rw [Unregistered, hphase] at hj
    split at hj
    · simp at hj
    · exact hj
  · intro j f' hj
    rw [ReturnedWith, hphase] at hj
    split at hj
    · next heq =>
      have hsame : f' = f := by
        rcases houtcome with rfl | rfl <;> simpa [eq_comm] using hj
      exact .inr (by rw [hsame, heq, hf])
    · exact .inl hj

theorem call : Inv { s with calls := s.calls ++ [⟨.marshalling, [], 0⟩] } := by
  have hnone : s.phaseOf s.calls.length = none := by
    rw [phaseOf, getElem?_eq_none (Nat.le_refl _)]
    rfl
  have hphase : ∀ j, ({ s with calls := s.calls ++ [⟨.marshalling, [], 0⟩] } : Client).phaseOf j
      = if j = s.calls.length then some .marshalling else s.phaseOf j := by
    intro j
    simp only [phaseOf, getElem?_push]
    split <;> rfl
  refine h.of_calls ?_ ?_ ?_
  · intro j
    simp only [sentOf, getElem?_push]
    split
    · next hj =>
      rw [hj, getElem?_eq_none (Nat.le_refl _)]
      rfl
    · rfl
  · intro j hj
    rw [Unregistered, hphase] at hj
    split at hj
    · next heq => exact heq ▸ .inl hnone
    · exact hj
  · intro j f hj
    rw [ReturnedWith, hphase] at hj
    split at hj
    · simp at hj
    · exact .inl hj

/-- A frame is sent to an empty channel that leaves the hands of its sender. -/
theorem delivered {t : Client} (hcalls : t.calls = (s.deliver k f).calls)
    (hpendings : t.pendings = s.pendings) (hk : ¬ s.Unregistered k) (hempty : s.sentOf k = [])
    (hf : f.requestID = callId k) (hheld : ∀ j ∈ t.held, j ∈ s.held ∧ j ≠ k) (hnodup : t.held.Nodup)
    (hnotified : ∀ j ∈ t.notified, j ∈ s.notified ∨ j = k)
    (hrouted : ∀ j g, t.reader = .routing j g → g.requestID = callId j)
    (hswept : ∀ err remaining, t.reader = .sweeping err remaining → ∀ p ∈ remaining, p.id = callId p.call)
    (hwaiting : ¬ t.readerSweeps → ∀ p ∈ s.pendings, p.call ∉ t.notified → p.call ≠ k ∧ s.sentOf p.call = [] ∧ p.call ∉ s.held)
    (hclosing : ∀ remaining, t.closer = .sweeping remaining → ¬ t.readerSweeps ∧ (remaining.map (·.call)).Nodup ∧ ∀ p ∈ remaining, p ∈ t.pendings ∧ p.call ∉ t.notified)
    (hquiet : t.closer = .untouched ∨ t.closer = .closing → t.notified = []) : Inv t := by
  have hcall : s.phaseOf k ≠ none := fun hnone => hk (.inl hnone)
  have hsent : ∀ j, t.sentOf j = if j = k then [f] else s.sentOf j := by
    intro j
    have hread : t.sentOf j = (s.deliver k f).sentOf j := by rw [sentOf, hcalls]; rfl
    rw [hread, sentOf_deliver hcall, hempty]
    rfl
  have hphase : ∀ j, t.phaseOf j = s.phaseOf j := by
    intro j
    have hread : t.phaseOf j = (s.deliver k f).phaseOf j := by rw [phaseOf, hcalls]; rfl
    rw [hread, phaseOf_deliver]
  refine ⟨?_, ?_, ?_, ?_, ?_, ?_, ?_, hnodup, hrouted, hswept, ?_, hclosing, hquiet⟩
  · rw [hpendings]
    exact h.ids
  · rw [hpendings]
    exact h.nodup
  · intro j hj
    rw [Unregistered, hphase] at hj
    have hjk : j ≠ k := fun heq => hk (heq ▸ hj)
    obtain ⟨hsentj, hpending, hheldj, hnotifiedj⟩ := h.unregistered j hj
    rw [hsent, if_neg hjk, hpendings]
    exact ⟨hsentj, hpending, fun hmem => hheldj (hheld j hmem).1, fun hmem => (hnotified j hmem).elim hnotifiedj hjk⟩
  · intro j g hg
    rw [hsent] at hg
    split at hg
    · next hj => rw [mem_singleton.1 hg, hj, hf]
    · exact h.frames j g hg
  · intro j g hg
    rw [ReturnedWith, hphase] at hg
    exact h.outcomes j g hg
  · intro j
    rw [hsent]
    split
    · exact Nat.le_refl 1
    · exact h.once j
  · intro j hj
    obtain ⟨hold, hne⟩ := hheld j hj
    rw [hsent, if_neg hne]
    exact h.heldEmpty j hold
  · intro hreader p hp hnew
    rw [hpendings] at hp
    obtain ⟨hne, hsentp, hheldp⟩ := hwaiting hreader p hp hnew
    rw [hsent, if_neg hne]
    exact ⟨hsentp, fun hmem => hheldp (hheld p.call hmem).1⟩

theorem setReader {r : Reader} (hbefore : ¬ s.readerSweeps)
    (hr : r = .reading ∨ (∃ f, r = .received f) ∨ ∃ err, r = .failed err) : Inv { s with reader := r } := by
  have hheld : ({ s with reader := r } : Client).held = [] := by
    rcases hr with rfl | ⟨f, rfl⟩ | ⟨err, rfl⟩ <;> rfl
  refine ⟨h.ids, h.nodup, ?_, h.frames, h.outcomes, h.once, ?_, ?_, ?_, ?_, ?_, ?_, h.quiet⟩
  · intro k hk
    obtain ⟨hsent, hpending, -, hnotified⟩ := h.unregistered k hk
    exact ⟨hsent, hpending, hheld ▸ not_mem_nil, hnotified⟩
  · rw [hheld]
    exact fun k hk => absurd hk not_mem_nil
  · rw [hheld]
    exact nodup_nil
  · intro k f hread
    rcases hr with rfl | ⟨f, rfl⟩ | ⟨err, rfl⟩ <;> cases hread
  · intro err remaining hread
    rcases hr with rfl | ⟨f, rfl⟩ | ⟨err, rfl⟩ <;> cases hread
  · intro _ p hp hnew
    rw [hheld]
    exact ⟨(h.waiting hbefore p hp hnew).1, not_mem_nil⟩
  · intro remaining hc
    obtain ⟨-, hnodup, hentries⟩ := h.closing remaining hc
    refine ⟨?_, hnodup, hentries⟩
    rintro ⟨err, remaining', hread⟩
    rcases hr with rfl | ⟨f, rfl⟩ | ⟨err, rfl⟩ <;> cases hread

theorem setCloser {c : Closer} (hc : ∀ remaining, c ≠ .sweeping remaining)
    (hquiet : c = .untouched ∨ c = .closing → s.notified = []) : Inv { s with closer := c } :=
  ⟨h.ids, h.nodup, h.unregistered, h.frames, h.outcomes, h.once, h.heldEmpty, h.heldNodup, h.routed, h.swept,
    h.waiting, fun remaining hs => absurd hs (hc remaining), hquiet⟩

theorem lockClose (hmu : s.muFree = true) (hc : s.closer = .closing) :
    Inv { s with closer := .sweeping s.pendings } := by
  refine ⟨h.ids, h.nodup, h.unregistered, h.frames, h.outcomes, h.once, h.heldEmpty, h.heldNodup, h.routed,
    h.swept, h.waiting, ?_, fun hquiet => by simp at hquiet⟩
  have hreader := not_readerSweeps_of_muFree hmu
  intro remaining hs
  cases hs
  refine ⟨hreader, h.nodup, fun p hp => ⟨hp, ?_⟩⟩
  rw [h.quiet (.inr hc)]
  exact not_mem_nil

theorem registered (hk : k ∈ s.pendings.map (·.call) ∨ k ∈ s.held) : ¬ s.Unregistered k := by
  intro hun
  obtain ⟨-, hpending, hheld, -⟩ := h.unregistered k hun
  exact hk.elim hpending hheld

end

variable {p : Pending}

section

variable (h : Inv s)
include h

/-- The sweep of `Close` sends to an entry that stays in the map. -/
theorem notify {remaining : List Pending} {err : String} (hc : s.closer = .sweeping remaining)
    (hp : p ∈ remaining) : Inv { s.deliver p.call (newErrorFrame p.id err) with
      closer := .sweeping (remaining.erase p), notified := p.call :: s.notified } := by
  obtain ⟨hreader, hnodup, hentries⟩ := h.closing remaining hc
  obtain ⟨hpending, hnew⟩ := hentries p hp
  obtain ⟨hempty, hheld⟩ := h.waiting hreader p hpending hnew
  have hk := h.registered (.inl (mem_map_of_mem hpending))
  have hothers : p.call ∉ (remaining.erase p).map (·.call) ∧ ((remaining.erase p).map (·.call)).Nodup :=
    erase_nodup hnodup hp
  refine h.delivered rfl rfl hk hempty (h.ids p hpending) ?_ h.heldNodup ?_ h.routed h.swept ?_ ?_ ?_
  · exact fun j hj => ⟨hj, fun heq => hheld (heq ▸ hj)⟩
  · intro j hj
    exact (mem_cons.1 hj).symm
  · intro hsweeps q hq hqnew
    have hqold : q.call ∉ s.notified := fun hmem => hqnew (mem_cons_of_mem _ hmem)
    exact ⟨fun heq => hqnew (heq ▸ mem_cons_self), h.waiting hsweeps q hq hqold⟩
  · intro remaining' hs
    cases hs
    refine ⟨hreader, hothers.2, fun q hq => ?_⟩
    obtain ⟨hqpending, hqnew⟩ := hentries q (mem_of_mem_erase hq)
    refine ⟨hqpending, fun hmem => ?_⟩
    rcases mem_cons.1 hmem with heq | hmem
    · exact hothers.1 (heq ▸ mem_map_of_mem hq)
    · exact hqnew hmem
  · intro hquiet
    simp at hquiet

/-- `readLoop` sends the frame that it has looked up a channel for. -/
theorem route (hr : s.reader = .routing k f) : Inv { s.deliver k f with reader := .reading } := by
  have hheld : s.held = [k] := by rw [held, hr]
  have hmem : k ∈ s.held := hheld ▸ mem_singleton_self k
  have hreader : ¬ s.readerSweeps := by
    rintro ⟨err, remaining, hs⟩
    cases hr.symm.trans hs
  refine h.delivered rfl rfl (h.registered (.inr hmem)) (h.heldEmpty k hmem) (h.routed k f hr) ?_ nodup_nil
    (fun j hj => .inl hj) nofun nofun ?_ ?_ h.quiet
  · exact fun j hj => absurd hj not_mem_nil
  · intro _ p hp hnew
    obtain ⟨hempty, hother⟩ := h.waiting hreader p hp hnew
    exact ⟨fun heq => hother (heq ▸ hmem), hempty, hother⟩
  · intro remaining hs
    obtain ⟨-, hnodup, hentries⟩ := h.closing remaining hs
    refine ⟨?_, hnodup, hentries⟩
    rintro ⟨err, remaining', hread⟩
    cases hread

/-- The sweep of `readLoop` sends to one entry after the other. -/
theorem sweepSend {remaining : List Pending} {err msg : String}
    (hr : s.reader = .sweeping err remaining) (hp : p ∈ remaining) :
    Inv { s.deliver p.call (newErrorFrame p.id msg) with reader := .sweeping err (remaining.erase p) } := by
  have hheld : s.held = remaining.map (·.call) := by rw [held, hr]
  have hmem : p.call ∈ s.held := hheld ▸ mem_map_of_mem hp
  have hnodup : (remaining.map (·.call)).Nodup := hheld ▸ h.heldNodup
  obtain ⟨hother, hrest⟩ := erase_nodup hnodup hp
  refine h.delivered rfl rfl (h.registered (.inr hmem)) (h.heldEmpty _ hmem) (h.swept err remaining hr p hp) ?_
    hrest (fun j hj => .inl hj) nofun ?_ ?_ ?_ h.quiet
  · intro j hj
    refine ⟨?_, fun heq => hother (heq ▸ hj)⟩
    obtain ⟨q, hq, rfl⟩ := mem_map.1 hj
    exact hheld ▸ mem_map_of_mem (mem_of_mem_erase hq)
  · intro err' remaining' hs q hq
    cases hs
    exact h.swept err remaining hr q (mem_of_mem_erase hq)
  · exact fun hreader => absurd ⟨err, _, rfl⟩ hreader
  · intro remaining' hs
    exact absurd ⟨err, remaining, hr⟩ (h.closing remaining' hs).1

/-- `readLoop` takes the entry of a response out of the map. -/
theorem lookup (hmu : s.muFree = true) (hp : p ∈ s.pendings) (hid : p.id = f.requestID)
    (hnew : p.call ∉ s.notified) : Inv { s.remove f.requestID with reader := .routing p.call f } := by
  have hreader := not_readerSweeps_of_muFree hmu
  have hremoved := h.remove hmu f.requestID
  have hgone : p.call ∉ (s.remove f.requestID).pendings.map (·.call) := by
    intro hmem
    obtain ⟨q, hq, hcall⟩ := mem_map.1 hmem
    obtain ⟨hq, hne⟩ := mem_filter.1 hq
    have hsame : q.id = f.requestID := by rw [h.ids q hq, hcall, ← h.ids p hp, hid]
    simp [hsame] at hne
  refine ⟨hremoved.ids, hremoved.nodup, ?_, h.frames, h.outcomes, h.once, ?_, nodup_singleton _, ?_, nofun,
    ?_, ?_, h.quiet⟩
  · intro k hk
    obtain ⟨hsent, hpending, -, hnotified⟩ := hremoved.unregistered k hk
    refine ⟨hsent, hpending, fun hmem => ?_, hnotified⟩
    rw [mem_singleton.1 hmem] at hk
    exact h.registered (.inl (mem_map_of_mem hp)) hk
  · intro k hk
    rw [mem_singleton.1 hk]
    exact (h.waiting hreader p hp hnew).1
  · intro k g hs
    cases hs
    rw [← hid, h.ids p hp]
  · intro _ q hq hqnew
    refine ⟨(hremoved.waiting hreader q hq hqnew).1, fun hmem => ?_⟩
    exact hgone (mem_singleton.1 hmem ▸ mem_map_of_mem hq)
  · exact fun remaining hc => absurd hc (not_closerSweeps_of_muFree hmu remaining)

/-- `readLoop` begins its sweep. -/
theorem lockSweep (hmu : s.muFree = true) {err : String}
    (hnew : ∀ p ∈ s.pendings, p.call ∉ s.notified) : Inv { s with reader := .sweeping err s.pendings } := by
  have hreader := not_readerSweeps_of_muFree hmu
  refine ⟨h.ids, h.nodup, ?_, h.frames, h.outcomes, h.once, ?_, h.nodup, nofun, ?_, ?_, ?_, h.quiet⟩
  · intro k hk
    obtain ⟨hsent, hpending, -, hnotified⟩ := h.unregistered k hk
    exact ⟨hsent, hpending, hpending, hnotified⟩
  · intro k hk
    obtain ⟨p, hp, rfl⟩ := mem_map.1 hk
    exact (h.waiting hreader p hp (hnew p hp)).1
  · intro err' remaining hs
    cases hs
    exact h.ids
  · exact fun hsweeps => absurd ⟨err, _, rfl⟩ hsweeps
  · exact fun remaining hc => absurd hc (not_closerSweeps_of_muFree hmu remaining)

theorem unlockSweep (hr : s.readerSweeps) : Inv { s with reader := .stopped, pendings := [] } := by
  refine ⟨nofun, nodup_nil, ?_, h.frames, h.outcomes, h.once, nofun, nodup_nil, nofun, nofun, nofun, ?_, h.quiet⟩
  · intro k hk
    obtain ⟨hsent, -, -, hnotified⟩ := h.unregistered k hk
    exact ⟨hsent, not_mem_nil, not_mem_nil, hnotified⟩
  · exact fun remaining hc => absurd hr (h.closing remaining hc).1

/-- Every step keeps the invariant, one case for each. -/
theorem step {s' : Client} {a : Act} (hok : NoNotifiedEntry s a)
    (hstep : RpcFramework.step s a = some s') : Inv s' := by
  cases a with
  | call =>
    cases hstep
    exact h.call
  | marshal k ok =>
    obtain ⟨hphase, hstep⟩ := ite_none_right_eq_some.1 hstep
    cases hstep
    cases ok with
    | true => exact h.setPhase id fun _ => .inr (.inl hphase)
    | false => exact h.setPhase id nofun
  | register k =>
    obtain ⟨⟨hphase, hmu⟩, hstep⟩ := ite_none_right_eq_some.1 hstep
    cases hstep
    exact h.register hmu (.inr (.inr hphase)) (by rw [hphase]; exact nofun)
  | send k ok =>
    obtain ⟨-, hstep⟩ := ite_none_right_eq_some.1 hstep
    cases hstep
    cases ok with
    | true => exact h.setPhase id nofun
    | false => exact h.setPhase id nofun
  | removeUnsent k =>
    obtain ⟨⟨-, hmu⟩, hstep⟩ := ite_none_right_eq_some.1 hstep
    cases hstep
    exact (h.remove hmu _).setPhase id nofun
  | cancel k =>
    obtain ⟨-, hstep⟩ := ite_none_right_eq_some.1 hstep
    cases hstep
    exact h.setPhase id nofun
  | removeCancelled k =>
    obtain ⟨⟨-, hmu⟩, hstep⟩ := ite_none_right_eq_some.1 hstep
    cases hstep
    exact (h.remove hmu _).setPhase id nofun
  | receive k =>
    rw [RpcFramework.step] at hstep
    split at hstep
    · next c hc =>
      split at hstep
      · next f rest _ hbuffer =>
        cases hstep
        refine h.receive hc hbuffer ?_
        split
        · exact .inl rfl
        · exact .inr rfl
      · cases hstep
    · cases hstep
  | seeClosed k =>
    obtain ⟨-, hstep⟩ := ite_none_right_eq_some.1 hstep
    cases hstep
    exact h.setPhase id nofun
  | close =>
    obtain ⟨hc, hstep⟩ := ite_none_right_eq_some.1 hstep
    cases hstep
    exact h.setCloser nofun fun _ => h.quiet (.inl hc)
  | lockClose =>
    obtain ⟨⟨hc, hmu⟩, hstep⟩ := ite_none_right_eq_some.1 hstep
    cases hstep
    exact h.lockClose hmu hc
  | notify p =>
    rw [RpcFramework.step] at hstep
    split at hstep
    · next remaining hc =>
      obtain ⟨⟨hp, -⟩, hstep⟩ := ite_none_right_eq_some.1 hstep
      cases hstep
      exact h.notify hc hp
    · cases hstep
  | unlockClose =>
    obtain ⟨-, hstep⟩ := ite_none_right_eq_some.1 hstep
    cases hstep
    exact h.setCloser nofun fun hc => by simp at hc
  | readFrame f =>
    obtain ⟨hr, hstep⟩ := ite_none_right_eq_some.1 hstep
    cases hstep
    exact h.setReader (by rintro ⟨err, remaining, hs⟩; cases hr.symm.trans hs) (.inr (.inl ⟨f, rfl⟩))
  | lookup =>
    rw [RpcFramework.step] at hstep
    split at hstep
    · next f hr =>
      obtain ⟨hmu, hstep⟩ := ite_none_right_eq_some.1 hstep
      split at hstep
      · next p hp =>
        cases hstep
        have hid := find?_some hp
        rw [beq_iff_eq] at hid
        have hmem := mem_of_find?_eq_some hp
        refine h.lookup hmu hmem hid (hok p ?_)
        rw [comesUpon, hr]
        exact mem_filter.2 ⟨hmem, decide_eq_true hid⟩
      · cases hstep
        exact h.setReader (not_readerSweeps_of_muFree hmu) (.inl rfl)
    · cases hstep
  | route =>
    rw [RpcFramework.step] at hstep
    split at hstep
    · next k f hr =>
      obtain ⟨-, hstep⟩ := ite_none_right_eq_some.1 hstep
      cases hstep
      exact h.route hr
    · cases hstep
  | readError err =>
    obtain ⟨hr, hstep⟩ := ite_none_right_eq_some.1 hstep
    cases hstep
    exact h.setReader (by rintro ⟨err, remaining, hs⟩; cases hr.symm.trans hs) (.inr (.inr ⟨err, rfl⟩))
  | lockSweep =>
    rw [RpcFramework.step] at hstep
    split at hstep
    · obtain ⟨hmu, hstep⟩ := ite_none_right_eq_some.1 hstep
      cases hstep
      exact h.lockSweep hmu hok
    · cases hstep
  | sweepSend p =>
    rw [RpcFramework.step] at hstep
    split at hstep
    · next err remaining hr =>
      obtain ⟨⟨hp, -⟩, hstep⟩ := ite_none_right_eq_some.1 hstep
      cases hstep
      exact h.sweepSend hr hp
    · cases hstep
  | unlockSweep =>
    rw [RpcFramework.step] at hstep
    split at hstep
    · next err hr =>
      cases hstep
      exact h.unlockSweep ⟨err, [], hr⟩
    · cases hstep

end

theorem dial : Inv Client.dial := by
  refine ⟨nofun, nodup_nil, ?_, nofun, ?_, fun k => Nat.zero_le 1, nofun, nodup_nil, nofun, nofun, nofun,
    nofun, fun _ => rfl⟩
  · exact fun k _ => ⟨rfl, not_mem_nil, not_mem_nil, not_mem_nil⟩
  · rintro k f (hk | hk)
    · cases hk
    · cases hk

end Inv

/-! ### Runs -/

/-- **Responses are matched one to one** in every run in which `readLoop` does not come upon an entry that
`Close` has sent to. -/
theorem responses_matched {s : Client} (h : ReachableIf step NoNotifiedEntry Client.dial s) : Matched s :=
  (h.invariant Inv.dial fun _ _ _ _ hinv hok hstep => hinv.step hok hstep).matched

/-- Two calls whose responses come in the other order, one of them twice, and a client that is closed after
both have returned. -/
def swappedResponses : List Act :=
  [.call, .call, .marshal 0 true, .marshal 1 true, .register 0, .register 1, .send 0 true, .send 1 true,
    .readFrame ⟨0, 2, "b"⟩, .lookup, .route, .readFrame ⟨0, 2, "b"⟩, .lookup, .readFrame ⟨0, 1, "a"⟩, .lookup, .route,
    .receive 0, .receive 1, .close, .lockClose, .unlockClose, .readError "EOF", .lockSweep, .unlockSweep]

/-- In that run both calls return with their own response. -/
theorem responses_matched_swapped : ∃ s, ReachableIf step NoNotifiedEntry Client.dial s
    ∧ s.phaseOf 0 = some (.returned (.response ⟨0, 1, "a"⟩))
    ∧ s.phaseOf 1 = some (.returned (.response ⟨0, 2, "b"⟩)) ∧ Matched s := by
  have hrun : (execIf step (fun s a => decide (NoNotifiedEntry s a)) dial swappedResponses).map
      (fun s => decide (s.phaseOf 0 = some (.returned (.response ⟨0, 1, "a"⟩))
        ∧ s.phaseOf 1 = some (.returned (.response ⟨0, 2, "b"⟩)))) = some true := by rfl
  obtain ⟨s, hs, hfacts⟩ := map_eq_some_iff.1 hrun
  obtain ⟨hfirst, hsecond⟩ := of_decide_eq_true hfacts
  have hreach : ReachableIf step NoNotifiedEntry dial s :=
    ReachableIf.init.execIf (fun _ _ => of_decide_eq_true) hs
  exact ⟨s, hreach, hfirst, hsecond, responses_matched hreach⟩

/-- A call waits while the client is closed and its connection fails. -/
def closedInFlight : List Act :=
  [.call, .marshal 0 true, .register 0, .send 0 true, .close, .lockClose, .notify ⟨1, 0⟩, .unlockClose, .seeClosed 0,
    .readError "use of closed network connection", .lockSweep]

/-- **`Close` leaves an entry that `readLoop` sends to again**: the call has returned, its channel is full, and
the sweep of `readLoop` blocks with the mutex in its hands. -/
theorem second_send_blocks : ∃ s, Reachable step Client.dial s
    ∧ s.phaseOf 0 = some (.returned .connectionClosed) ∧ s.SendsTo 0
    ∧ step s (.sweepSend ⟨1, 0⟩) = none ∧ s.muFree = false ∧ ¬ Matched s := by
  have hrun : (exec step dial closedInFlight).map (fun s => decide (s.phaseOf 0 = some (.returned
      .connectionClosed) ∧ 0 ∈ s.held ∧ s.hasRoom 0 = false ∧ step s (.sweepSend ⟨1, 0⟩) = none ∧ s.muFree =
      false)) = some true := by rfl
  obtain ⟨s, hs, hfacts⟩ := map_eq_some_iff.1 hrun
  obtain ⟨hphase, hheld, hroom, hblocked, hmu⟩ := of_decide_eq_true hfacts
  refine ⟨s, reachable_of_exec hs, hphase, .inl hheld, hblocked, hmu, fun hmatched => ?_⟩
  have htrue := hmatched.unblocked 0 (.inl hheld)
  rw [hroom] at htrue
  exact absurd htrue Bool.false_ne_true

end SystemDesignLabs.RpcFramework
