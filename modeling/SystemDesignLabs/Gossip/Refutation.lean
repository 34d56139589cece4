import SystemDesignLabs.Gossip.Piggyback

/-!
# Refuting rumours

What a piggybacking node does about rumours of itself. As long as no node takes a `Dead` event about itself
that is as new as its own entry, every claim about a node, in a table, a queue, a pending push or a message
in flight, has an incarnation of at most the node's own one, and its own entry stays `Alive`
(`rumours_refuted_run`). `mergeEvents` bumps the incarnation only for `Suspect` events, so a `Dead` event
is taken over as any other (`dead_accepted`).
-/

namespace SystemDesignLabs.Gossip

open List Option Function Core SortedMap

/-- No event is newer about the address than the bound. -/
def EventsBelow (x : String) (b : Nat) (events : List Event) : Prop :=
  ∀ e ∈ events, e.addr = x → e.incarnation ≤ b

/-- The message carries no membership, and no event about the address above the bound. -/
structure Packet.Bounded (x : String) (b : Nat) (p : Packet) : Prop where
  members : p.msg.members = none
  events : EventsBelow x b p.msg.events

theorem EventsBelow.mono {x : String} {b b' : Nat} {events : List Event} (h : EventsBelow x b events)
    (hle : b ≤ b') : EventsBelow x b' events :=
  fun e he hx => (h e he hx).trans hle

theorem eventsBelow_append {x : String} {b : Nat} {l l' : List Event} :
    EventsBelow x b (l ++ l') ↔ EventsBelow x b l ∧ EventsBelow x b l' :=
  forall_mem_append

theorem eventsBelow_singleton {x : String} {b : Nat} {e : Event} :
    EventsBelow x b [e] ↔ (e.addr = x → e.incarnation ≤ b) :=
  forall_mem_singleton

namespace PiggybackNode

/-- Nothing at the node is newer about the address than the bound. -/
structure Bounded (x : String) (b : Nat) (n : PiggybackNode) : Prop where
  members : ∀ m, n.members.get x = some m → m.incarnation ≤ b
  queue : EventsBelow x b n.eventQueue
  pushes : EventsBelow x b n.pushes

/-- The node's entry for itself is alive, with this incarnation. -/
def Own (n : PiggybackNode) (b : Nat) : Prop :=
  ∃ m, n.members.get n.addr = some m ∧ m.status = .alive ∧ m.incarnation = b

/-- The node does not probe itself. -/
def TargetsOther (n : PiggybackNode) : Prop := ∀ p, n.probe = some p → p.target ≠ n.addr

variable {n n' : PiggybackNode} {x : String} {b b' : Nat}

theorem Bounded.mono (h : n.Bounded x b) (hle : b ≤ b') : n.Bounded x b' :=
  ⟨fun m hm => (h.members m hm).trans hle, h.queue.mono hle, h.pushes.mono hle⟩

/-! ## What a node does by itself -/

/-- The step makes no newer claim about any address, and leaves the node's own entry alive. -/
structure Quiet (n n' : PiggybackNode) (out : List Packet) : Prop where
  addr : n'.addr = n.addr
  own : ∀ b, n.Own b → n'.Own b
  targets : n.TargetsOther → n'.TargetsOther
  bounded : ∀ x b, n.Bounded x b → n'.Bounded x b
  sent : ∀ x b, n.Bounded x b → ∀ p ∈ out, p.Bounded x b

variable {out : List Packet}

theorem Quiet.trans {n₁ : PiggybackNode} (h : Quiet n n₁ []) (h' : Quiet n₁ n' out) : Quiet n n' out where
  addr := h'.addr.trans h.addr
  own b hb := h'.own b (h.own b hb)
  targets ht := h'.targets (h.targets ht)
  bounded x b hb := h'.bounded x b (h.bounded x b hb)
  sent x b hb := h'.sent x b (h.bounded x b hb)

theorem Quiet.control (haddr : n'.addr = n.addr) (hmembers : n'.members = n.members)
    (hqueue : n'.eventQueue = n.eventQueue) (hpushes : n'.pushes = n.pushes)
    (htargets : n.TargetsOther → n'.TargetsOther) : Quiet n n' [] where
  addr := haddr
  own b hb := by rwa [Own, haddr, hmembers]
  targets := htargets
  bounded x b hb := ⟨by rw [hmembers]; exact hb.members, by rw [hqueue]; exact hb.queue,
    by rw [hpushes]; exact hb.pushes⟩
  sent _ _ _ p hp := absurd hp not_mem_nil

theorem eventsBelow_remaining (h : EventsBelow x b n.eventQueue) : EventsBelow x b n.remaining := by
  intro e he hx
  obtain ⟨e₀, he₀, rfl⟩ := mem_map.1 (mem_filter.1 he).1
  exact h e₀ he₀ hx

theorem Quiet.send {n₁ : PiggybackNode} {dests : List String} {msg : Message} (h : Quiet n n₁ [])
    (hmsg : msg.members = none) (hout : n₁.sendEvents dests msg = (n', out)) : Quiet n n' out := by
  cases hout
  refine h.trans ⟨rfl, fun b hb => hb, fun ht => ht, ?_, ?_⟩
  · intro x b hb
    exact ⟨hb.members, eventsBelow_remaining hb.queue, hb.pushes⟩
  · intro x b hb p hp
    obtain ⟨dest, -, rfl⟩ := mem_map.1 hp
    exact ⟨hmsg, hb.queue⟩

variable {target : String}

theorem Quiet.adjust {m m' : Member} (hget : n.members.get target = some m) (htarget : target ≠ n.addr)
    (hmembers : n'.members = n.members.insert target m') (hinc : m'.incarnation = m.incarnation)
    (haddr : n'.addr = n.addr) (hqueue : n'.eventQueue = n.eventQueue) (hprobe : n'.probe = n.probe)
    (hpushes : ∀ e ∈ n'.pushes, e ∈ n.pushes ∨ e.addr = target ∧ e.incarnation = m.incarnation) : Quiet n n' [] where
  addr := haddr
  own b hb := by
    rwa [Own, haddr, hmembers, get_insert, if_neg (Ne.symm htarget)]
  targets ht := by rwa [TargetsOther, hprobe, haddr]
  bounded x b hb := by
    refine ⟨?_, ?_, ?_⟩
    · intro m₀ hm₀
      rw [hmembers, get_insert] at hm₀
      split at hm₀
      · rename_i hx
        rw [← some.inj hm₀, hinc]
        exact hb.members m (hx ▸ hget)
      · exact hb.members m₀ hm₀
    · rw [hqueue]
      exact hb.queue
    · intro e he hx
      obtain he | ⟨haddr, hinc⟩ := hpushes e he
      · exact hb.pushes e he hx
      · rw [hinc]
        exact hb.members m ((haddr.symm.trans hx) ▸ hget)
  sent _ _ _ p hp := absurd hp not_mem_nil

theorem quiet_markAlive (htarget : target ≠ n.addr) (now : Nat) : Quiet n (n.markAlive target now) [] := by
  cases hget : n.members.get target with
  | none =>
    have hsame : n.markAlive target now = n := by
      rw [markAlive, adjust, hget]
    rw [hsame]
    exact .control rfl rfl rfl rfl id
  | some m =>
    have hset : (n.markAlive target now).members = n.members.insert target
        { m with status := .alive, failedProbes := 0, lastSeen := now } := by
      rw [markAlive, adjust, hget]
    exact .adjust hget htarget hset rfl rfl rfl rfl fun e he => .inl he

theorem quiet_verdict (htarget : target ≠ n.addr) : Quiet n (n.verdict target) [] := by
  have hannounced : ∀ (ev : Event) (m : Member), ev.addr = target → ev.incarnation = m.incarnation →
      ∀ e ∈ n.pushes ++ [ev], e ∈ n.pushes ∨ e.addr = target ∧ e.incarnation = m.incarnation := by
    intro ev m haddr hinc e he
    obtain he | he := mem_append.1 he
    · exact .inl he
    · rw [mem_singleton.1 he]
      exact .inr ⟨haddr, hinc⟩
  rw [verdict]
  cases hget : n.members.get target with
  | none => exact .control rfl rfl rfl rfl id
  | some m =>
    dsimp only
    split
    · split
      · exact .adjust hget htarget rfl rfl rfl rfl rfl (hannounced _ m rfl rfl)
      · exact .adjust hget htarget rfl rfl rfl rfl rfl fun e he => .inl he
    · split
      · exact .adjust hget htarget rfl rfl rfl rfl rfl (hannounced _ m rfl rfl)
      · exact .adjust hget htarget rfl rfl rfl rfl rfl fun e he => .inl he

theorem quiet_join (n : PiggybackNode) (peerAddr : String) (now : Nat) :
    Quiet n { n with members := n.members.join peerAddr now } [] := by
  by_cases hnone : n.members.get peerAddr = none
  · have hjoin : n.members.join peerAddr now = n.members.insert peerAddr (.joined peerAddr now) :=
      if_pos hnone
    refine ⟨rfl, ?_, fun ht => ht, ?_, fun _ _ _ p hp => absurd hp not_mem_nil⟩
    · rintro b ⟨m, hm, hown⟩
      refine ⟨m, ?_, hown⟩
      have hne : n.addr ≠ peerAddr := by
        rintro heq
        rw [← heq, hm] at hnone
        exact absurd hnone (by simp)
      dsimp only
      rw [hjoin, get_insert, if_neg hne, hm]
    · intro x b hb
      refine ⟨?_, hb.queue, hb.pushes⟩
      intro m hm
      dsimp only at hm
      rw [hjoin, get_insert] at hm
      split at hm
      · rw [← some.inj hm]
        exact Nat.zero_le b
      · exact hb.members m hm
  · have hjoin : n.members.join peerAddr now = n.members := if_neg hnone
    rw [hjoin]
    exact .control rfl rfl rfl rfl id

variable {ev : Event}

theorem eventsBelow_pushed {queue : List Event} (h : EventsBelow x b queue)
    (hev : ev.addr = x → ev.incarnation ≤ b) : EventsBelow x b (pushed queue ev) := by
  have hadd : ∀ l, (∀ e ∈ l, e ∈ queue) → EventsBelow x b (l ++ [ev]) := fun l hl =>
    eventsBelow_append.2 ⟨fun e he => h e (hl e he), eventsBelow_singleton.2 hev⟩
  rw [pushed]
  split
  · intro e he
    obtain he | rfl := mem_or_eq_of_mem_set he
    · exact h e he
    · exact hev
  · split
    · exact hadd _ fun e he => mem_of_mem_drop he
    · exact hadd _ fun e he => he

theorem quiet_push {k : Nat} (hk : n.pushes[k]? = some ev) :
    Quiet n ({ n with pushes := n.pushes.eraseIdx k }.pushEvent ev) [] := by
  refine ⟨rfl, fun b hb => hb, fun ht => ht, ?_, fun _ _ _ _ hp => absurd hp not_mem_nil⟩
  intro x b hb
  have hev := hb.pushes ev (mem_of_getElem? hk)
  exact ⟨hb.members, eventsBelow_pushed hb.queue hev, fun e he => hb.pushes e (mem_of_mem_eraseIdx he)⟩

theorem quiet_answer {msg : Message} (h : n.answer msg = (n', out)) : Quiet n n' out := by
  rw [answer] at h
  cases htype : msg.type with
  | gossip =>
    rw [htype] at h
    cases h
    exact .control rfl rfl rfl rfl id
  | ping =>
    rw [htype] at h
    exact .send (.control rfl rfl rfl rfl id) rfl h
  | pingreq =>
    rw [htype] at h
    refine .send ?_ rfl h
    exact .control rfl rfl rfl rfl id
  | ack =>
    rw [htype] at h
    cases h
    exact .control rfl rfl rfl rfl id

/-- Whatever a node does by itself is quiet. -/
theorem quiet_act {a : Act} (hother : n.TargetsOther) (h : n.act a = some (n', out)) : Quiet n n' out := by
  cases a with
  | join peerAddr now =>
    cases h
    exact quiet_join n peerAddr now
  | pickPeers peers =>
    rw [act] at h
    split at h
    · cases h
      exact .control rfl rfl rfl rfl id
    · exact absurd h (by simp)
  | gossip =>
    rw [act] at h
    split at h
    · exact absurd h (by simp)
    · refine .send ?_ rfl (some.inj h)
      exact .control rfl rfl rfl rfl id
  | pickTarget target =>
    rw [act] at h
    split at h
    · rename_i hpick
      cases h
      refine .control rfl rfl rfl rfl fun _ p hp => ?_
      cases hp
      exact hpick.2.1
    · exact absurd h (by simp)
  | ping =>
    rw [act] at h
    split at h
    · rename_i target seq hprobe
      have htarget : target ≠ n.addr := hother _ hprobe
      refine .send ?_ rfl (some.inj h)
      refine .control rfl rfl rfl rfl fun _ p hp => ?_
      cases hp
      exact htarget
    · exact absurd h (by simp)
  | timeout helpers =>
    rw [act] at h
    split at h
    · rename_i target seq hprobe
      have htarget : target ≠ n.addr := hother _ hprobe
      split at h
      · cases h
        refine .control rfl rfl rfl rfl fun _ p hp => ?_
        cases hp
        exact htarget
      · exact absurd h (by simp)
    · exact absurd h (by simp)
  | askHelper =>
    rw [act] at h
    split at h
    · rename_i target seq helper helpers hprobe
      have htarget : target ≠ n.addr := hother _ hprobe
      refine .send ?_ rfl (some.inj h)
      refine .control rfl rfl rfl rfl fun _ p hp => ?_
      cases hp
      exact htarget
    · exact absurd h (by simp)
  | acked now =>
    have hdone : Quiet n { n with probe := none } [] :=
      .control rfl rfl rfl rfl fun _ p hp => absurd hp (by simp)
    rw [act] at h
    split at h
    · rename_i target seq hprobe
      have htarget : target ≠ n.addr := hother _ hprobe
      split at h
      · exact absurd h (by simp)
      · cases h
        exact hdone.trans (quiet_markAlive (n := { n with probe := none }) htarget now)
    · rename_i target seq hprobe
      have htarget : target ≠ n.addr := hother _ hprobe
      split at h
      · exact absurd h (by simp)
      · cases h
        exact hdone.trans (quiet_markAlive (n := { n with probe := none }) htarget now)
    · exact absurd h (by simp)
  | verdict =>
    rw [act] at h
    split at h
    · rename_i target seq hprobe
      have htarget : target ≠ n.addr := hother _ hprobe
      cases h
      have hdone : Quiet n { n with ackChs := n.ackChs.erase seq, probe := none } [] :=
        .control rfl rfl rfl rfl fun _ p hp => absurd hp (by simp)
      refine hdone.trans ?_
      exact quiet_verdict htarget
    · exact absurd h (by simp)
  | push k =>
    rw [act] at h
    split at h
    · exact absurd h (by simp)
    · rename_i ev hk
      cases h
      exact quiet_push hk
  | answer =>
    rw [act] at h
    split at h
    · exact absurd h (by simp)
    · refine Quiet.trans ?_ (quiet_answer (some.inj h))
      exact .control rfl rfl rfl rfl id
  | relayAcked k =>
    rw [act] at h
    split at h
    · exact absurd h (by simp)
    · split at h
      · exact absurd h (by simp)
      · refine .send ?_ rfl (some.inj h)
        exact .control rfl rfl rfl rfl id
  | relayTimeout k =>
    rw [act] at h
    split at h
    · exact absurd h (by simp)
    · cases h
      exact .control rfl rfl rfl rfl id

/-! ## Merging events -/

/-- A merge of an event leaves everything but the table and the pushes. -/
structure MergeFrame (n n' : PiggybackNode) : Prop where
  addr : n'.addr = n.addr
  queue : n'.eventQueue = n.eventQueue
  probe : n'.probe = n.probe

/-- What merging an event can do. The event is new, refuted, taken over, or it changes nothing. -/
theorem mergeEvent_cases (now : Nat) (n : PiggybackNode) (ev : Event) : MergeFrame n (mergeEvent now n ev) ∧
    ((n.members.get ev.addr = none ∧ (mergeEvent now n ev).members = n.members.insert ev.addr
          ⟨ev.addr, ev.status, ev.incarnation, now, 0⟩ ∧
        (mergeEvent now n ev).pushes = n.pushes ++ [⟨ev.addr, ev.status, ev.incarnation, 0⟩]) ∨
      (∃ m, n.members.get ev.addr = some m ∧
        ((ev.addr = n.addr ∧ ev.status = .suspect ∧ m.incarnation ≤ ev.incarnation ∧
            (mergeEvent now n ev).members = n.members.insert ev.addr
              { m with incarnation := next64 m.incarnation, status := .alive } ∧
            (mergeEvent now n ev).pushes = n.pushes ++ [⟨n.addr, .alive, next64 m.incarnation, 0⟩]) ∨
          (¬ (ev.addr = n.addr ∧ ev.status = .suspect) ∧ (m.incarnation < ev.incarnation ∨
              ev.incarnation = m.incarnation ∧ m.status < ev.status) ∧
            (mergeEvent now n ev).members = n.members.insert ev.addr
              { m with status := ev.status, incarnation := ev.incarnation, lastSeen := now } ∧
            (mergeEvent now n ev).pushes = n.pushes ++ [⟨ev.addr, ev.status, ev.incarnation, 0⟩]) ∨
          (¬ (m.incarnation < ev.incarnation ∨ ev.incarnation = m.incarnation ∧ m.status < ev.status) ∧
            mergeEvent now n ev = n)))) := by
  rw [mergeEvent]
  cases hget : n.members.get ev.addr with
  | none => exact ⟨⟨rfl, rfl, rfl⟩, .inl ⟨rfl, rfl, rfl⟩⟩
  | some m =>
    dsimp only
    by_cases hnewer : m.incarnation < ev.incarnation ∨
        ev.incarnation = m.incarnation ∧ m.status < ev.status
    · rw [if_pos hnewer]
      by_cases hself : ev.addr = n.addr ∧ ev.status = .suspect
      · have hle : m.incarnation ≤ ev.incarnation :=
          hnewer.elim Nat.le_of_lt fun h => h.1.ge
        rw [if_pos hself]
        exact ⟨⟨rfl, rfl, rfl⟩, .inr ⟨m, rfl, .inl ⟨hself.1, hself.2, hle, rfl, rfl⟩⟩⟩
      · rw [if_neg hself]
        exact ⟨⟨rfl, rfl, rfl⟩, .inr ⟨m, rfl, .inr (.inl ⟨hself, hnewer, rfl, rfl⟩)⟩⟩
    · rw [if_neg hnewer]
      exact ⟨⟨rfl, rfl, rfl⟩, .inr ⟨m, rfl, .inr (.inr ⟨hnewer, rfl⟩)⟩⟩

theorem Bounded.insert {m : Member} {addr : String} (h : n.Bounded x b) (hframe : MergeFrame n n')
    (hmembers : n'.members = n.members.insert addr m) (hpushes : n'.pushes = n.pushes ++ [ev])
    (hm : addr = x → m.incarnation ≤ b) (hev : ev.addr = x → ev.incarnation ≤ b) : n'.Bounded x b := by
  refine ⟨?_, ?_, ?_⟩
  · intro m₀ hm₀
    rw [hmembers, get_insert] at hm₀
    split at hm₀
    · rename_i hx
      rw [← some.inj hm₀]
      exact hm hx.symm
    · exact h.members m₀ hm₀
  · rw [hframe.queue]
    exact h.queue
  · rw [hpushes]
    exact eventsBelow_append.2 ⟨h.pushes, eventsBelow_singleton.2 hev⟩

theorem bounded_mergeEvent (now : Nat) (h : n.Bounded x b) (hx : x ≠ n.addr)
    (hev : ev.addr = x → ev.incarnation ≤ b) : (mergeEvent now n ev).Bounded x b := by
  obtain ⟨hframe, ⟨-, hmembers, hpushes⟩ | ⟨m, hget, hcase⟩⟩ := mergeEvent_cases now n ev
  · exact h.insert hframe hmembers hpushes hev hev
  · obtain ⟨hself, -, -, hmembers, hpushes⟩ | ⟨-, -, hmembers, hpushes⟩ | ⟨-, hsame⟩ := hcase
    · exact h.insert hframe hmembers hpushes (fun heq => absurd (heq.symm.trans hself) hx)
        fun heq => absurd heq.symm hx
    · exact h.insert hframe hmembers hpushes hev hev
    · rw [hsame]
      exact h

/-- An event about the node itself that it can refute: not `Dead` unless it is older than the node's own
entry, and not the last incarnation. -/
def CanRefute (own : Nat) (ev : Event) : Prop :=
  own ≤ ev.incarnation → ev.status ≠ .dead ∧ (ev.status = .suspect → own + 1 < 2 ^ 64)

instance (own : Nat) (ev : Event) : Decidable (CanRefute own ev) :=
  inferInstanceAs (Decidable (_ → _))

/-- The node's own incarnation moved up from `b` to `b'`, which is announced. -/
structure Raised (b b' : Nat) (n : PiggybackNode) : Prop where
  le : b ≤ b'
  own : n.Own b'
  bounded : n.Bounded n.addr b'
  announced : b < b' → ⟨n.addr, .alive, b', 0⟩ ∈ n.pushes

/-- Merging an event that can be refuted leaves the own entry alive and newer than the rumour. -/
theorem raised_mergeEvent (now : Nat) (hown : n.Own b) (hbounded : n.Bounded n.addr b)
    (hev : ev.addr = n.addr → ev.incarnation ≤ b) (hcan : ev.addr = n.addr → CanRefute b ev) :
    ∃ b', Raised b b' (mergeEvent now n ev) ∧ (∀ e ∈ n.pushes, e ∈ (mergeEvent now n ev).pushes) ∧
      (ev.addr = n.addr → ev.status ≠ .alive → ev.incarnation < b') := by
  obtain ⟨own, hself, halive, hb⟩ := hown
  obtain ⟨hframe, hcase⟩ := mergeEvent_cases now n ev
  have hpushed : ∀ ev', (mergeEvent now n ev).pushes = n.pushes ++ [ev'] →
      ∀ e ∈ n.pushes, e ∈ (mergeEvent now n ev).pushes := by
    intro ev' hpushes e he
    rw [hpushes]
    exact mem_append_left _ he
  -- An entry of another node: the own one stays.
  have hother : ∀ m ev', ev.addr ≠ n.addr → (mergeEvent now n ev).members = n.members.insert ev.addr m →
      (mergeEvent now n ev).pushes = n.pushes ++ [ev'] → ev'.addr = ev.addr →
      Raised b b (mergeEvent now n ev) := by
    intro m ev' hne hmembers hpushes haddr
    refine ⟨le_rfl, ⟨own, ?_, halive, hb⟩, ?_, fun h => absurd h (lt_irrefl b)⟩
    · rw [hframe.addr, hmembers, get_insert, if_neg (Ne.symm hne), hself]
    · rw [hframe.addr]
      exact hbounded.insert hframe hmembers hpushes (fun h => absurd h hne)
        fun h => absurd (haddr.symm.trans h) hne
  obtain ⟨hnone, hmembers, hpushes⟩ | ⟨m, hget, hcase⟩ := hcase
  · have hne : ev.addr ≠ n.addr := by
      intro heq
      rw [heq, hself] at hnone
      exact absurd hnone (by simp)
    exact ⟨b, hother _ _ hne hmembers hpushes rfl, hpushed _ hpushes, fun h => absurd h hne⟩
  · obtain ⟨heq, hsuspect, hle, hmembers, hpushes⟩ | ⟨hnot, hnewer, hmembers, hpushes⟩ |
        ⟨holder, hsame⟩ := hcase
    · -- The rumour is refuted.
      have hm : m = own := by
        rw [heq, hself] at hget
        exact (some.inj hget).symm
      subst hm
      have hlt : b + 1 < 2 ^ 64 := (hcan heq (hb ▸ hle)).2 hsuspect
      have hnext : next64 m.incarnation = b + 1 := by
        rw [next64, hb, Nat.mod_eq_of_lt hlt]
      rw [hnext] at hmembers hpushes
      refine ⟨b + 1, ⟨Nat.le_succ b, ?_, ?_, fun _ => ?_⟩, hpushed _ hpushes, ?_⟩
      · refine ⟨{ m with incarnation := b + 1, status := .alive }, ?_, rfl, rfl⟩
        rw [hframe.addr, hmembers, get_insert, if_pos heq.symm]
      · rw [hframe.addr]
        exact (hbounded.mono (Nat.le_succ b)).insert hframe hmembers hpushes (fun _ => le_rfl)
          fun _ => le_rfl
      · rw [hframe.addr, hpushes]
        exact mem_append_right _ (mem_singleton_self _)
      · exact fun _ _ => Nat.lt_succ_of_le (hev heq)
    · by_cases heq : ev.addr = n.addr
      · -- A newer claim about the node itself is neither dead nor suspect, and none is newer and alive.
        exfalso
        have hm : m = own := by
          rw [heq, hself] at hget
          exact (some.inj hget).symm
        have hle := hev heq
        rw [hm, hb, halive] at hnewer
        obtain hlt | ⟨hinc, hstatus⟩ := hnewer
        · omega
        · have hdead := (hcan heq hinc.ge).1
          cases hs : ev.status with
          | alive =>
            rw [hs] at hstatus
            exact lt_irrefl _ hstatus
          | suspect => exact hnot ⟨heq, hs⟩
          | dead => exact hdead hs
      · exact ⟨b, hother _ _ heq hmembers hpushes rfl, hpushed _ hpushes, fun h => absurd h heq⟩
    · rw [hsame]
      refine ⟨b, ⟨le_rfl, ⟨own, hself, halive, hb⟩, hbounded, fun h => absurd h (lt_irrefl b)⟩, fun e he => he, ?_⟩
      intro heq hstatus
      have hm : m = own := by
        rw [heq, hself] at hget
        exact (some.inj hget).symm
      rw [hm, hb, halive, not_or] at holder
      have hle : ev.incarnation ≤ b := Nat.le_of_not_lt holder.1
      refine lt_of_le_of_ne hle fun hinc => holder.2 ⟨hinc, ?_⟩
      exact lt_of_le_of_ne ev.status.alive_le (Ne.symm hstatus)

theorem addr_mergeEvents (now : Nat) (events : List Event) :
    (n.mergeEvents now events).addr = n.addr ∧ (n.mergeEvents now events).probe = n.probe := by
  induction events generalizing n with
  | nil => exact ⟨rfl, rfl⟩
  | cons ev events ih =>
    obtain ⟨haddr, hprobe⟩ := ih (n := mergeEvent now n ev)
    have hframe := (mergeEvent_cases now n ev).1
    exact ⟨haddr.trans hframe.addr, hprobe.trans hframe.probe⟩

theorem bounded_mergeEvents (now : Nat) {events : List Event} (h : n.Bounded x b) (hx : x ≠ n.addr)
    (hevents : EventsBelow x b events) : (n.mergeEvents now events).Bounded x b := by
  induction events generalizing n with
  | nil => exact h
  | cons ev events ih =>
    obtain ⟨hev, hevents⟩ := forall_mem_cons.1 hevents
    refine ih (bounded_mergeEvent now h hx hev) ?_ hevents
    rw [(mergeEvent_cases now n ev).1.addr]
    exact hx

/-- Merging events that can be refuted. -/
theorem raised_mergeEvents (now : Nat) {events : List Event} (hown : n.Own b)
    (hbounded : n.Bounded n.addr b) (hevents : EventsBelow n.addr b events)
    (hcan : ∀ ev ∈ events, ev.addr = n.addr → CanRefute b ev) : ∃ b', Raised b b' (n.mergeEvents now events) ∧
      (∀ e ∈ n.pushes, e ∈ (n.mergeEvents now events).pushes) ∧
      ∀ ev ∈ events, ev.addr = n.addr → ev.status ≠ .alive → ev.incarnation < b' := by
  induction events generalizing n b with
  | nil =>
    exact ⟨b, ⟨le_rfl, hown, hbounded, fun h => absurd h (lt_irrefl b)⟩, fun e he => he,
      fun ev hev => absurd hev not_mem_nil⟩
  | cons ev events ih =>
    obtain ⟨hev, hevents⟩ := forall_mem_cons.1 hevents
    obtain ⟨hcanev, hcan⟩ := forall_mem_cons.1 hcan
    obtain ⟨b₁, hraised, hkept, hlt⟩ := raised_mergeEvent now hown hbounded hev hcanev
    have haddr : (mergeEvent now n ev).addr = n.addr := (mergeEvent_cases now n ev).1.addr
    -- What can be refuted from a lower incarnation can be refuted from a higher one.
    have hcan₁ : ∀ ev' ∈ events, ev'.addr = (mergeEvent now n ev).addr → CanRefute b₁ ev' := by
      intro ev' hev' heq hle
      rw [haddr] at heq
      have hbound := hevents ev' hev' heq
      have hsame : b₁ = b := le_antisymm (hle.trans hbound) hraised.le
      rw [hsame] at hle ⊢
      exact hcan ev' hev' heq hle
    obtain ⟨b₂, hraised₂, hkept₂, hlt₂⟩ := ih hraised.own hraised.bounded
      (by rw [haddr]; exact EventsBelow.mono hevents hraised.le) hcan₁
    have haddr₂ : ((mergeEvent now n ev).mergeEvents now events).addr = n.addr :=
      (addr_mergeEvents now events).1.trans haddr
    refine ⟨b₂, ⟨hraised.le.trans hraised₂.le, hraised₂.own, hraised₂.bounded, ?_⟩,
      fun e he => hkept₂ e (hkept e he), ?_⟩
    · intro hb
      obtain hlt | heq := hraised₂.le.lt_or_eq
      · exact hraised₂.announced hlt
      · have hann := hkept₂ _ (hraised.announced (heq ▸ hb))
        rw [haddr, heq] at hann
        have hgoal : (⟨((mergeEvent now n ev).mergeEvents now events).addr, .alive, b₂, 0⟩ : Event) ∈
            ((mergeEvent now n ev).mergeEvents now events).pushes := by
          rw [haddr₂]
          exact hann
        exact hgoal
    · intro ev' hev' heq hstatus
      obtain rfl | hev' := mem_cons.1 hev'
      · exact (hlt heq hstatus).trans_le hraised₂.le
      · exact hlt₂ ev' hev' (heq.trans haddr.symm) hstatus

theorem le_mergeEvent (now : Nat) (hother : ev.addr ≠ n.addr) :
    ∃ m, (mergeEvent now n ev).members.get ev.addr = some m ∧ ev.incarnation ≤ m.incarnation := by
  obtain ⟨-, ⟨-, hmembers, -⟩ | ⟨m, hget, hcase⟩⟩ := mergeEvent_cases now n ev
  · refine ⟨⟨ev.addr, ev.status, ev.incarnation, now, 0⟩, ?_, le_rfl⟩
    rw [hmembers, get_insert, if_pos rfl]
  · obtain ⟨hself, -⟩ | ⟨-, -, hmembers, -⟩ | ⟨holder, hsame⟩ := hcase
    · exact absurd hself hother
    · refine ⟨{ m with status := ev.status, incarnation := ev.incarnation, lastSeen := now }, ?_,
        le_rfl⟩
      rw [hmembers, get_insert, if_pos rfl]
    · rw [hsame]
      exact ⟨m, hget, Nat.le_of_not_lt fun hlt => holder (.inl hlt)⟩

end PiggybackNode

/-! ## The network -/

namespace PiggybackNetwork

variable {ι : Type}

/-- The arriving message holds no event about the node itself that it cannot refute. -/
def Refutable (net : PiggybackNetwork ι) : Op ι → Prop
  | .act _ _ => True
  | .deliver i k _ =>
    ∀ packet ∈ net.sent[k]?, ∀ ev ∈ packet.msg.events, ev.addr = (net.nodes i).addr →
      ∀ own ∈ (net.nodes i).members.get (net.nodes i).addr,
        PiggybackNode.CanRefute own.incarnation ev

instance (net : PiggybackNetwork ι) (op : Op ι) : Decidable (Refutable net op) := by
  cases op with
  | act i a => exact .isTrue trivial
  | deliver i k now =>
    exact inferInstanceAs (Decidable (∀ packet ∈ net.sent[k]?, ∀ ev ∈ packet.msg.events, _))

/-- Every node's own entry is alive and at least as new as every claim about the node. -/
structure Refuting (addrOf : ι → String) (net : PiggybackNetwork ι) : Prop where
  addr : ∀ i, (net.nodes i).addr = addrOf i
  targets : ∀ i, (net.nodes i).TargetsOther
  own : ∀ i, ∃ b, (net.nodes i).Own b ∧ (∀ j, (net.nodes j).Bounded (addrOf i) b) ∧
    ∀ p ∈ net.sent, p.Bounded (addrOf i) b

variable {addrOf : ι → String}

theorem refuting_start : Refuting addrOf (start addrOf) := by
  refine ⟨fun i => rfl, fun i p hp => absurd hp (by simp [start, PiggybackNode.new]), ?_⟩
  intro i
  refine ⟨0, ⟨.joined (addrOf i) 0, ?_, rfl, rfl⟩, ?_, fun p hp => absurd hp not_mem_nil⟩
  · show (empty.insert (addrOf i) (Member.joined (addrOf i) 0)).get (addrOf i) = _
    rw [get_insert, if_pos rfl]
  · intro j
    refine ⟨?_, fun e he => absurd he not_mem_nil, fun e he => absurd he not_mem_nil⟩
    intro m hm
    have hm : (empty.insert (addrOf j) (Member.joined (addrOf j) 0)).get (addrOf i) = some m :=
      hm
    rw [get_insert] at hm
    split at hm
    · rw [← some.inj hm]
      exact le_rfl
    · exact absurd hm (by simp)

variable [DecidableEq ι] {net net' : PiggybackNetwork ι}

variable {i : ι}

theorem Refuting.update (h : Refuting addrOf net) {n : PiggybackNode} {out : List Packet}
    (haddr : n.addr = addrOf i) (htargets : n.TargetsOther)
    (hself : ∀ b, (net.nodes i).Own b → (net.nodes i).Bounded (addrOf i) b → (∀ p ∈ net.sent, p.Bounded (addrOf i) b) → ∃ b', b ≤ b' ∧ n.Own b' ∧ n.Bounded (addrOf i) b' ∧ ∀ p ∈ out, p.Bounded (addrOf i) b')
    (hother : ∀ j b, j ≠ i → (net.nodes i).Bounded (addrOf j) b → (∀ p ∈ net.sent, p.Bounded (addrOf j) b) → n.Bounded (addrOf j) b ∧ ∀ p ∈ out, p.Bounded (addrOf j) b) :
    Refuting addrOf ⟨Function.update net.nodes i n, net.sent ++ out⟩ := by
  refine ⟨?_, ?_, ?_⟩
  · intro j
    dsimp only
    by_cases hj : j = i
    · rw [hj, update_self, haddr]
    · rw [update_of_ne hj]
      exact h.addr j
  · intro j
    dsimp only
    by_cases hj : j = i
    · rw [hj, update_self]
      exact htargets
    · rw [update_of_ne hj]
      exact h.targets j
  · intro x
    obtain ⟨b, hown, hnodes, hsent⟩ := h.own x
    by_cases hx : x = i
    · subst hx
      obtain ⟨b', hle, hown', hbounded', hout⟩ := hself b hown (hnodes x) hsent
      refine ⟨b', ?_, ?_, ?_⟩
      · dsimp only
        rwa [update_self]
      · intro j
        dsimp only
        by_cases hj : j = x
        · rw [hj, update_self]
          exact hbounded'
        · rw [update_of_ne hj]
          exact (hnodes j).mono hle
      · intro p hp
        obtain hp | hp := mem_append.1 hp
        · exact ⟨(hsent p hp).members, (hsent p hp).events.mono hle⟩
        · exact hout p hp
    · obtain ⟨hbounded', hout⟩ := hother x b hx (hnodes i) hsent
      refine ⟨b, ?_, ?_, ?_⟩
      · dsimp only
        rwa [update_of_ne hx]
      · intro j
        dsimp only
        by_cases hj : j = i
        · rw [hj, update_self]
          exact hbounded'
        · rw [update_of_ne hj]
          exact hnodes j
      · intro p hp
        exact (mem_append.1 hp).elim (hsent p) (hout p)

theorem refuting_act {a : PiggybackNode.Act} (h : Refuting addrOf net) (hs : step net (.act i a) = some net') :
    Refuting addrOf net' := by
  obtain ⟨⟨n, out⟩, hact, rfl⟩ := map_eq_some_iff.1 hs
  have hquiet := PiggybackNode.quiet_act (h.targets i) hact
  refine h.update (hquiet.addr.trans (h.addr i)) (hquiet.targets (h.targets i)) ?_ ?_
  · intro b hown hbounded _
    exact ⟨b, le_rfl, hquiet.own b hown, hquiet.bounded _ _ hbounded, hquiet.sent _ _ hbounded⟩
  · intro j b _ hbounded _
    exact ⟨hquiet.bounded _ _ hbounded, hquiet.sent _ _ hbounded⟩

variable {k now : Nat}

theorem deliver_eq (h : Refuting addrOf net) (hs : step net (.deliver i k now) = some net') :
    ∃ packet, net.sent[k]? = some packet ∧ net' = ⟨Function.update net.nodes i
        { (net.nodes i).mergeEvents now packet.msg.events with handling := some packet.msg }, net.sent⟩ := by
  simp only [step] at hs
  split at hs
  · exact absurd hs (by simp)
  · rename_i packet hk
    split at hs
    · obtain ⟨b, -, -, hsent⟩ := h.own i
      have hnone := (hsent packet (mem_of_getElem? hk)).members
      rw [PiggybackNode.receive, hnone] at hs
      exact ⟨packet, hk, (some.inj hs).symm⟩
    · exact absurd hs (by simp)

omit [DecidableEq ι] in
theorem deliver_raised {packet : Packet} (h : Refuting addrOf net) (hk : net.sent[k]? = some packet)
    (hok : Refutable net (.deliver i k now)) {b : Nat} (hown : (net.nodes i).Own b)
    (hbounded : (net.nodes i).Bounded (addrOf i) b) (hsent : ∀ p ∈ net.sent, p.Bounded (addrOf i) b) :
    ∃ b', PiggybackNode.Raised b b' ((net.nodes i).mergeEvents now packet.msg.events) ∧
      ∀ ev ∈ packet.msg.events, ev.addr = addrOf i → ev.status ≠ .alive → ev.incarnation < b' := by
  have hevents := (hsent packet (mem_of_getElem? hk)).events
  obtain ⟨own, hget, -, hb⟩ := id hown
  rw [← h.addr i] at hbounded hevents ⊢
  have hcan : ∀ ev ∈ packet.msg.events, ev.addr = (net.nodes i).addr →
      PiggybackNode.CanRefute b ev := by
    intro ev hev heq
    rw [← hb]
    exact hok packet hk ev hev heq own hget
  obtain ⟨b', hraised, -, hlt⟩ :=
    PiggybackNode.raised_mergeEvents now hown hbounded hevents hcan
  exact ⟨b', hraised, hlt⟩

theorem refuting_deliver (hinj : Function.Injective addrOf) (h : Refuting addrOf net)
    (hok : Refutable net (.deliver i k now)) (hs : step net (.deliver i k now) = some net') : Refuting addrOf net' := by
  obtain ⟨packet, hk, rfl⟩ := deliver_eq h hs
  obtain ⟨haddr, hprobe⟩ :=
    PiggybackNode.addr_mergeEvents (n := net.nodes i) now packet.msg.events
  have hnothing : ∀ (x : String) (b : Nat), ∀ p ∈ ([] : List Packet), p.Bounded x b :=
    fun _ _ p hp => absurd hp not_mem_nil
  rw [← append_nil net.sent]
  refine h.update (haddr.trans (h.addr i)) ?_ ?_ ?_
  · intro p hp
    have hp : ((net.nodes i).mergeEvents now packet.msg.events).probe = some p := hp
    rw [hprobe] at hp
    exact haddr ▸ h.targets i p hp
  · intro b hown hbounded hsent
    obtain ⟨b', hraised, -⟩ := deliver_raised h hk hok hown hbounded hsent
    have hbounded' := hraised.bounded
    rw [haddr, h.addr i] at hbounded'
    exact ⟨b', hraised.le, hraised.own, ⟨hbounded'.members, hbounded'.queue, hbounded'.pushes⟩, hnothing _ _⟩
  · intro j b hj hbounded hsent
    have hne : addrOf j ≠ (net.nodes i).addr := by
      rw [h.addr i]
      exact fun heq => hj (hinj heq)
    have hbounded' := PiggybackNode.bounded_mergeEvents now hbounded hne
      (hsent packet (mem_of_getElem? hk)).events
    exact ⟨⟨hbounded'.members, hbounded'.queue, hbounded'.pushes⟩, hnothing _ _⟩

/-- **In every run in which no node takes a `Dead` event about itself that is as new as its own entry,
rumours are refuted:** no node holds a newer incarnation of another one than that node itself; every
node's own entry is alive; after a node merges a `Suspect` or `Dead` event about itself, its incarnation is
greater than the event's, which it announces if it was not greater before; and where an event about a
node is merged elsewhere, the entry is at least as new. -/
theorem rumours_refuted_run (hinj : Function.Injective addrOf)
    (hreach : ReachableIf step Refutable (start addrOf) net) :
    (∀ x y m own, y ≠ x → (net.nodes y).members.get (addrOf x) = some m →
      (net.nodes x).members.get (addrOf x) = some own → m.incarnation ≤ own.incarnation) ∧
    (∀ x, ∃ own, (net.nodes x).members.get (addrOf x) = some own ∧ own.status = .alive) ∧
    (∀ x k now net' packet, Refutable net (.deliver x k now) →
      step net (.deliver x k now) = some net' → net.sent[k]? = some packet →
      ∀ ev ∈ packet.msg.events, ev.addr = addrOf x → ev.status ≠ .alive →
        ∃ own, (net'.nodes x).members.get (addrOf x) = some own ∧
          ev.incarnation < own.incarnation ∧
          ∀ own₀, (net.nodes x).members.get (addrOf x) = some own₀ →
            own₀.incarnation ≤ ev.incarnation →
            ⟨addrOf x, .alive, own.incarnation, 0⟩ ∈ (net'.nodes x).pushes) ∧
    (∀ x y now ev, y ≠ x → ev.addr = addrOf x → ∃ m,
      ((net.nodes y).mergeEvents now [ev]).members.get (addrOf x) = some m ∧
        ev.incarnation ≤ m.incarnation) := by
  have h : Refuting addrOf net := by
    refine hreach.invariant (I := Refuting addrOf) refuting_start ?_
    intro net op net' _ h hok hs
    cases op with
    | act i a => exact refuting_act h hs
    | deliver i k now => exact refuting_deliver hinj h hok hs
  refine ⟨?_, ?_, ?_, ?_⟩
  · intro x y m own _ hm hown
    obtain ⟨b, ⟨own', hown', -, hb⟩, hnodes, -⟩ := h.own x
    rw [h.addr x, hown] at hown'
    rw [some.inj hown', hb]
    exact (hnodes y).members m hm
  · intro x
    obtain ⟨b, ⟨own, hown, halive, -⟩, -⟩ := h.own x
    rw [h.addr x] at hown
    exact ⟨own, hown, halive⟩
  · intro x k now net' packet hok hs hk ev hev heq hstatus
    obtain ⟨packet', hk', rfl⟩ := deliver_eq h hs
    cases hk.symm.trans hk'
    obtain ⟨b, hown, hnodes, hsent⟩ := h.own x
    obtain ⟨b', hraised, hlt⟩ := deliver_raised h hk hok hown (hnodes x) hsent
    have haddr : ((net.nodes x).mergeEvents now packet.msg.events).addr = addrOf x :=
      (PiggybackNode.addr_mergeEvents now _).1.trans (h.addr x)
    obtain ⟨own', hown', -, hb'⟩ := hraised.own
    have hann := hraised.announced
    rw [haddr] at hown' hann
    dsimp only
    rw [update_self]
    refine ⟨own', hown', hb' ▸ hlt ev hev heq hstatus, ?_⟩
    intro own₀ hown₀ hle
    obtain ⟨own₁, hown₁, -, hb⟩ := hown
    rw [h.addr x, hown₀] at hown₁
    cases hown₁
    rw [hb']
    apply hann
    rw [← hb]
    exact hle.trans_lt (hlt ev hev heq hstatus)
  · intro x y now ev hy heq
    have hne : ev.addr ≠ (net.nodes y).addr := by
      rw [heq, h.addr y]
      exact fun hxy => hy (hinj hxy.symm)
    rw [← heq]
    exact PiggybackNode.le_mergeEvent now hne

/-! ## Two nodes -/

/-- The addresses of two nodes. -/
def twoAddrs (i : Bool) : String := if i then "a" else "b"

/-- A probe of the second node by the first one that gets no answer. -/
def failedProbe : List (Op Bool) :=
  [.act true (.pickTarget "b"), .act true .ping, .act true (.timeout ["b"]), .act true .askHelper,
    .act true .verdict]

/-- The pending pushes run, and the first node gossips to the second one. -/
def spread (pushes : Nat) : List (Op Bool) :=
  List.replicate pushes (.act true (.push 0)) ++ [.act true (.pickPeers ["b"]), .act true .gossip]

/-- Three failed probes, and the second node hears that it is dead. -/
def deadRun : List (Op Bool) :=
  .act true (.join "b" 1) :: failedProbe ++ failedProbe ++ failedProbe ++ spread 2 ++ [.deliver false 6 9]

/-- **A live node takes over that it is dead**, with the incarnation that it has. -/
theorem deadRumour_accepted : ∃ net : PiggybackNetwork Bool,
    exec step (start twoAddrs) deadRun = some net ∧
      (net.sent[6]?.map (·.msg.events)) = some [⟨"b", .dead, 0, 0⟩] ∧
      ∃ own, (net.nodes false).members.get (twoAddrs false) = some own ∧ own.status = .dead ∧
        own.incarnation = 0 := by
  have hrun : (exec step (start twoAddrs) deadRun).map (fun net =>
      decide ((net.sent[6]?.map (·.msg.events)) = some [⟨"b", .dead, 0, 0⟩] ∧
        (net.nodes false).members.get (twoAddrs false) = some ⟨"b", .dead, 0, 9, 0⟩)) = some true := by
    rfl
  obtain ⟨net, hnet, hfacts⟩ := map_eq_some_iff.1 hrun
  obtain ⟨hevents, hown⟩ := of_decide_eq_true hfacts
  exact ⟨net, hnet, hevents, _, hown, rfl, rfl⟩

/-- One failed probe, whose rumour is on its way to the second node. -/
def suspectRun : List (Op Bool) := .act true (.join "b" 1) :: failedProbe ++ spread 1

theorem rumours_refuted_run_suspect : ∃ net net' : PiggybackNetwork Bool,
    exec step (start twoAddrs) suspectRun = some net ∧
      step net (.deliver false 2 9) = some net' ∧
      ∃ own, (net'.nodes false).members.get (twoAddrs false) = some own ∧ 0 < own.incarnation := by
  have hrun : (execIf step (fun net op => decide (Refutable net op)) (start twoAddrs) suspectRun).bind
      (fun net => (step net (.deliver false 2 9)).map fun _ =>
        decide (Refutable net (.deliver false 2 9) ∧
          (net.sent[2]?.map (·.msg.events)) = some [⟨"b", .suspect, 0, 0⟩])) = some true := by
    rfl
  obtain ⟨net, hnet, hstep⟩ := bind_eq_some_iff.1 hrun
  obtain ⟨net', hs, hfacts⟩ := map_eq_some_iff.1 hstep
  obtain ⟨hok, hevents⟩ := of_decide_eq_true hfacts
  obtain ⟨packet, hk, hpacket⟩ := map_eq_some_iff.1 hevents
  have hinj : Injective twoAddrs := by
    intro i j h
    cases i <;> cases j <;> first | rfl | exact absurd h (by decide)
  have hev : (⟨"b", .suspect, 0, 0⟩ : Event) ∈ packet.msg.events := by
    rw [hpacket]
    exact mem_singleton_self _
  obtain ⟨own, hown, hlt, -⟩ := (rumours_refuted_run hinj
    (ReachableIf.init.execIf (fun _ _ => of_decide_eq_true) hnet)).2.2.1 false 2 9 net' packet hok hs hk
    _ hev rfl (by decide)
  exact ⟨net, net', execIf_exec hnet, hs, own, hown, hlt⟩

end PiggybackNetwork

end SystemDesignLabs.Gossip
