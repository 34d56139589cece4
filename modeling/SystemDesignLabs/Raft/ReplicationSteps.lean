import SystemDesignLabs.Raft.ElectionSteps

/-!
# Replication and snapshots keep the simulation invariant

The remaining steps: a leader appends a command (`write` of the abstract protocol), a broadcast
goroutine captures, builds its request, delivers it and processes the reply. A delivered
AppendEntries is `accept` or nothing, then `record`; a commit by the leader is `commit`. The first
part says what the sections do to `NodeOk`, the second assembles the steps, and `Sim.next` is the
result for all steps of the cluster.
-/

namespace SystemDesignLabs.Raft

open Function (update update_self)

open Core Cluster Node Protocol Or

variable {N : Nat} {md : Mode} {s s' : Cluster N} {g g' : Ghost N} {a : Action N}

/-! ## Sections of a node -/

section Node

variable {v : Fin N} {n n' : Node N}

theorem NodeOk.com_held_of_leader (hp : g.p.Sound tm) (hn : NodeOk md g v n)
    (hst : n.state = .leader) : g.com v <+: g.p.held v := by
  have hl := hn.leader hst
  rw [← hl.log]
  exact hp.committed_prefix_log hn.com_committed (hn.ledTerms _ hl.led)

theorem NodeOk.base_committed (hn : NodeOk md g v n) : g.p.Committed n.currentTerm (g.base v) :=
  hn.com_committed.of_isPrefix hn.base_com

theorem NodeOk.index_le (hn : NodeOk md g v n) : n.snapshotLastIndex ≤ n.commitIndex := by
  rw [← hn.com_len, ← hn.view.base_len]
  exact hn.base_com.length_le

theorem NodeOk.setSlot (hn : NodeOk md g v n) {idx m : Nat} {q : Fin N} {next : List Nat}
    (hq : (peers v)[idx]? = some q)
    (hm : n.state = .leader → g.Ev q n.currentTerm m ∧ (md.tracks → g.Tracked q n.currentTerm m)) :
    NodeOk md g v { n with matchIndex := n.matchIndex.set idx m, nextIndex := next } where
  seen := hn.seen
  view := hn.view.congr rfl
  com_len := hn.com_len
  applied := hn.applied
  com_committed := hn.com_committed
  base_com := hn.base_com
  com_held := hn.com_held
  ledTerms := hn.ledTerms
  stays := hn.stays
  leader := fun hst => by
    have hl := hn.leader hst
    refine ⟨hl.led, hl.log, hl.direct, fun j r hr => ?_⟩
    show g.Ev r n.currentTerm ((n.matchIndex.set idx m).getD j 0) ∧
      (md.tracks → g.Tracked r n.currentTerm ((n.matchIndex.set idx m).getD j 0))
    rw [List.getD_eq_getElem?_getD]
    by_cases hj : j = idx
    · subst hj
      have hlt : j < n.matchIndex.length := by
        rw [hn.slots_len]
        exact (List.getElem?_eq_some_iff.1 hr).1
      rw [List.getElem?_set_self hlt, Option.getD_some]
      rw [hq, Option.some.injEq] at hr
      exact hr ▸ hm hst
    · rw [List.getElem?_set_ne (Ne.symm hj), ← List.getD_eq_getElem?_getD]
      exact hl.slots j r hr
  slots_len := by rw [← hn.slots_len]; exact List.length_set ..
  committed := hn.committed
  applyCh := hn.applyCh
  maps := fun hr => (hn.maps hr).congr rfl rfl rfl

theorem MapsOk.commitTo {B V : List LogEntry} {idx : Nat}
    (h : MapsOk n B (V.take n.commitIndex)) (hlt : n.commitIndex ≤ idx)
    (hspec : Node.CommitSpec n n' V idx) (hshare : ¬ n.Shared) : MapsOk n' B (V.take idx) := by
  refine ⟨by rw [hspec.stateMachine, hspec.maps_length]; exact h.live_lt, ?_, fun snap hs => ?_⟩
  · rw [hspec.stateMachine, hspec.live h.live_lt, h.live]
    exact replay_take KV.empty V hlt
  · rw [hspec.snapshot] at hs
    obtain ⟨h1, h2, h3⟩ := h.snap snap hs
    refine ⟨by rw [hspec.maps_length]; exact h1, h2, ?_⟩
    rw [hspec.other _ fun heq => hshare ⟨snap, hs, heq⟩]
    exact h3

/-- A node commits up to `idx` and applies. `K` is the log it has committed afterwards. -/
theorem NodeOk.commitTo (hp' : g'.p.Sound tm) (hn : NodeOk md g v n)
    (hext : g.Extends g') (hp : g.p.Sound tm) (hseen : g'.p.seen v = g.p.seen v)
    (hheld : g'.p.held v = g.p.held v) (hbase : g'.base v = g.base v) {K : List LogEntry} {idx : Nat}
    (hcom : g'.com v = K) (hK : K.length = idx) (hKV : K <+: g.p.held v)
    (hKc : g'.p.Committed n.currentTerm K) (hlt : n.commitIndex < idx)
    (hspec : Node.CommitSpec n n' (g.p.held v) idx) (hshare : md.replays → ¬ n.Shared)
    (hleader : n'.state = .leader → LeaderOk md g' v n') : NodeOk md g' v n' := by
  obtain ⟨-, hterm, -, hstate, hled⟩ := control_eq_iff.1 hspec.control
  have hcomK : g.com v <+: K :=
    hp'.committed_prefix_of_le (hn.com_committed.extends hp hext.p) hKc
      (by rw [hn.com_len, hK]; omega)
  have htop := hp'.committed_prefix_top hKc
  have hKtake : (g.p.held v).take idx = K := by
    rw [← hK, ← take_eq_of_isPrefix hKV (le_refl _), List.take_length]
  have hctake : (g.p.held v).take n.commitIndex = g.com v := by
    rw [← hn.com_len, ← take_eq_of_isPrefix (hcomK.trans hKV) (le_refl _), List.take_length]
  -- the new entries are those of the longest committed log
  have hentry : ∀ i e, n.commitIndex < i → i ≤ idx → (g.p.held v)[i - 1]? = some e →
      0 < i ∧ g'.p.top[i - 1]? = some e := by
    intro i e h1 h2 he
    refine ⟨by omega, ?_⟩
    have hKe : K[i - 1]? = some e := by
      rw [← hKtake, List.getElem?_take_of_lt (by omega)]
      exact he
    obtain ⟨r, hr⟩ := htop
    rw [← hr, List.getElem?_append_left (by omega)]
    exact hKe
  exact {
    seen := by rw [hseen, hterm]; exact hn.seen
    view := by rw [hbase, hheld]; exact hn.view.congr hspec.window
    com_len := by rw [hcom, hspec.commitIndex]; exact hK
    applied := by rw [hspec.lastApplied, hspec.commitIndex]
    com_committed := by rw [hcom, hterm]; exact hKc
    base_com := by rw [hbase, hcom]; exact hn.base_com.trans hcomK
    com_held := by rw [hcom, hheld]; exact inr hKV
    ledTerms := fun t ht => hext.p.led t (hn.ledTerms t (hled ▸ ht))
    stays := fun h => by
      rw [hterm, hled] at h
      rw [hstate]
      exact hn.stays h
    leader := hleader
    slots_len := by rw [hspec.matchIndex]; exact hn.slots_len
    committed := fun i e hi => by
      rcases (hspec.committed i e).1 hi with hi | ⟨h1, h2, h3⟩
      · exact ⟨(hn.committed i e hi).1, top_getElem? hext (hn.committed i e hi).2⟩
      · exact hentry i e h1 h2 h3
    applyCh := fun cmd i hi => by
      rw [hspec.applyCh, List.mem_append] at hi
      rcases hi with hi | hi
      · obtain ⟨hpos, e, he, hcmd⟩ := hn.applyCh cmd i hi
        exact ⟨hpos, e, top_getElem? hext he, hcmd⟩
      · obtain ⟨h1, e, he, hcmd⟩ := mem_applyMsgs _ _ hi
        have hlen := (List.getElem?_eq_some_iff.1 he).1
        rw [List.length_take] at hlen
        rw [List.getElem?_take_of_lt (by omega), List.getElem?_drop] at he
        have hidx : n.commitIndex + (i - n.commitIndex - 1) = i - 1 := by omega
        rw [hidx] at he
        obtain ⟨h2, h3⟩ := hentry i e h1 (by omega) he
        exact ⟨h2, e, h3, hcmd⟩
    maps := fun hr => by
      rw [hbase, hcom, ← hKtake]
      refine MapsOk.commitTo ?_ (le_of_lt hlt) hspec (hshare hr)
      rw [hctake]
      exact hn.maps hr }

/-- A leader compacts its log. -/
theorem NodeOk.compact (hp : g.p.Sound tm) (hn : NodeOk md g v n) (hst : n.state = .leader) : ∃ B, g.base v <+: B ∧
      NodeOk md { g with base := Function.update g.base v B } v n.maybeSnapshot := by
  have hcomV := hn.com_held_of_leader hp hst
  have hlen : n.commitIndex ≤ (g.p.held v).length := by
    rw [← hn.com_len]
    exact hcomV.length_le
  have htake : (g.p.held v).take n.commitIndex = g.com v := by
    rw [← hn.com_len, ← take_eq_of_isPrefix hcomV (le_refl _), List.take_length]
  rcases maybeSnapshot_spec hn.view (hn.base_com.trans hcomV) hlen with
    hsame | ⟨-, hBV, hview, hidx, ⟨term, hsnap⟩, hmaps⟩
  · refine ⟨g.base v, List.prefix_refl _, ?_⟩
    rw [hsame, Function.update_eq_self]
    exact hn
  · rw [htake] at hBV hview
    refine ⟨g.com v, hBV, ?_⟩
    obtain ⟨hctl, hci, hla, hmi, hcom, hach, hsm⟩ := maybeSnapshot_frame n
    obtain ⟨-, hterm, -, hstate, hled⟩ := control_eq_iff.1 hctl
    have hext : g.Extends { g with base := Function.update g.base v (g.com v) } := by
      refine ⟨.refl _, fun w => ?_⟩
      by_cases hw : w = v
      · subst hw
        simpa using hBV
      · simp [hw]
    have hbase : (Function.update g.base v (g.com v)) v = g.com v := Function.update_self ..
    exact {
      seen := by rw [hterm]; exact hn.seen
      view := by
        show View _ (Function.update g.base v (g.com v) v) _
        rw [hbase]
        exact hview
      com_len := by rw [hci]; exact hn.com_len
      applied := by rw [hla, hci]; exact hn.applied
      com_committed := by rw [hterm]; exact hn.com_committed
      base_com := by
        show Function.update g.base v (g.com v) v <+: g.com v
        rw [hbase]
      com_held := inr hcomV
      ledTerms := fun t ht => hn.ledTerms t (hled ▸ ht)
      stays := fun h => by
        rw [hterm, hled] at h
        rw [hstate]
        exact hn.stays h
      leader := fun _ => by
        have hl := hn.leader hst
        refine ⟨by rw [hterm, hled]; exact hl.led, by rw [hterm]; exact hl.log,
          by rw [hterm, hci]; exact hl.direct, fun j q hq => ?_⟩
        obtain ⟨h1, h2⟩ := hl.slots j q hq
        rw [hterm, hmi]
        exact ⟨h1, fun ht => (h2 ht).extends hext⟩
      slots_len := by rw [hmi]; exact hn.slots_len
      committed := fun i e hi => hn.committed i e (hcom ▸ hi)
      applyCh := fun cmd i hi => hn.applyCh cmd i (hach ▸ hi)
      maps := fun hr => by
        have hm := hn.maps hr
        show MapsOk _ (Function.update g.base v (g.com v) v) (g.com v)
        rw [hbase]
        have hread : ∀ ref, ref < n.maps.length → n.maybeSnapshot.readMap ref = n.readMap ref := by
          intro ref href
          simp only [readMap, hmaps, List.getD_eq_getElem?_getD, List.getElem?_append_left href]
        refine ⟨by rw [hsm, hmaps, List.length_append]; exact Nat.lt_add_right _ hm.live_lt,
          by rw [hsm, hread _ hm.live_lt]; exact hm.live, fun snap hs => ?_⟩
        rw [hsnap] at hs
        cases hs
        refine ⟨by rw [hmaps]; simp, hn.com_len.symm, ?_⟩
        rw [← hm.live]
        simp [readMap, hmaps, List.getD_eq_getElem?_getD] }

end Node

/-! ## Commands and broadcasts -/

/-- The leader `i` writes an entry. -/
def Ghost.write (g : Ghost N) (i : Fin N) (e : LogEntry) : Ghost N := { g with p := g.p.write i e }

theorem Sim.leader_unique (hS : Sim md s g) {i v : Fin N} (hi : (s.node i).state = .leader)
    (hv : (s.node v).state = .leader) (h : (s.node v).currentTerm = (s.node i).currentTerm) : v = i := by
  refine hS.votes.led_unique (t := (s.node i).currentTerm) ?_ ((hS.node i).leader hi).led
  rw [← h]
  exact ((hS.node v).leader hv).led

variable {i : Fin N}

theorem Sim.command (hS : Sim md s g) {cmd : String} (hst : (s.node i).state = .leader) (hnext : Next s a s')
    (hs' : s' = (s.setNode i { s.node i with log := (s.node i).log ++ [⟨(s.node i).currentTerm, cmd⟩] }).setPc i .broadcast) :
    Sim md s' (g.write i ⟨(s.node i).currentTerm, cmd⟩) := by
  have hn := hS.node i
  have hl := hn.leader hst
  have hi : s'.node i = { s.node i with
      log := (s.node i).log ++ [⟨(s.node i).currentTerm, cmd⟩] } := by subst hs'; simp
  have hne : ∀ v, v ≠ i → s'.node v = s.node v := by
    intro v hv
    subst hs'
    exact setNode_node_ne s i _ hv
  have hpc' : s'.pc i = .broadcast := by subst hs'; exact setPc_pc_self _ _ _
  generalize he : (⟨(s.node i).currentTerm, cmd⟩ : LogEntry) = e at *
  have hlog : g.p.held i = g.p.log (g.p.seen i) := by rw [hn.seen]; exact hl.log.symm
  have hled : g.p.led (g.p.seen i) := by rw [hn.seen]; exact hn.ledTerms _ hl.led
  have heterm : tm e = g.p.seen i := by rw [← he]; exact hn.seen.symm
  have hsound : (g.write i e).p.Sound tm := hS.sound.write hled hlog heterm
  have hext : g.Extends (g.write i e) := ⟨.write hlog e, fun _ => List.prefix_refl _⟩
  have hheld : (g.write i e).p.held i = g.p.held i ++ [e] := by simp [Ghost.write, write]
  have hcomV := hn.com_held_of_leader hS.sound hst
  have hok : NodeOk md (g.write i e) i { s.node i with log := (s.node i).log ++ [e] } := {
    seen := hn.seen
    view := by
      rw [hheld]
      exact hn.view.append (hn.base_com.trans hcomV) e rfl rfl rfl
    com_len := hn.com_len
    applied := hn.applied
    com_committed := hn.com_committed.extends hS.sound hext.p
    base_com := hn.base_com
    com_held := inr (by rw [hheld]; exact hcomV.trans (List.prefix_append _ _))
    ledTerms := hn.ledTerms
    stays := hn.stays
    leader := fun _ => by
      refine ⟨hl.led, ?_, hl.direct, fun j q hq => ?_⟩
      · rw [hheld, ← hn.seen]
        exact write_log_self i e
      · obtain ⟨h1, h2⟩ := hl.slots j q hq
        exact ⟨h1.extends hS.sound hext, fun ht => (h2 ht).extends hext⟩
    slots_len := hn.slots_len
    committed := hn.committed
    applyCh := hn.applyCh
    maps := fun hr => (hn.maps hr).congr rfl rfl rfl }
  refine LocalStep.sim (i := i) ⟨hne, fun v hv => ?_, hsound, hext,
    hS.votes.next_eq (keepsVote_setNode hne (by rw [hi]; exact inr ⟨rfl, rfl⟩)),
    fun v hv => ⟨rfl, by simp [Ghost.write, write, hv], rfl, rfl⟩,
    fun v hv hvst => ⟨?_, fun _ h => h⟩, by rw [hi]; exact hok, fun t ht => by rw [hi]; exact ht,
    fun t ht => inl ht, fun _ => inr (inl hpc'), fun t l h => ?_, fun c hc => inl ?_,
    fun c hc => inl ?_, fun x hx => by rw [hi]; exact hx, fun _ _ h => inl h⟩ hS hnext
  · subst hs'
    exact setPc_pc_ne _ _ _ hv
  · refine write_log_ne i e fun heq => hv ?_
    exact hS.leader_unique hst hvst (heq.trans hn.seen)
  · rw [hpc'] at h
    exact absurd h (by simp)
  · subst hs'
    exact hc
  · subst hs'
    exact hc

theorem Sim.broadcast (hS : Sim md s g) (hpc : s.pc i = .broadcast) (hnext : Next s a s')
    (hs' : s' = { s.setPc i .leading with appendCalls := s.appendCalls ++ newAppendCalls i (s.node i) }) :
    Sim md s' g := by
  subst hs'
  refine hS.of_idle hnext rfl (fun j hj => ?_) (fun j t l hj => ?_) (fun _ h => inl h)
    fun c hc => ?_
  · by_cases hji : j = i
    · subst hji
      exact inr (inr (setPc_pc_self _ _ _))
    · show (s.setPc i .leading).pc j = _ ∨ (s.setPc i .leading).pc j = _ ∨
        (s.setPc i .leading).pc j = _
      rw [setPc_pc_ne _ _ _ hji]
      exact hS.pcs j hj
  · exact ⟨l, setPc_votes (fun t l => by simp) j t l hj⟩
  · rcases List.mem_append.1 hc with hc | hc
    · exact inl hc
    · simp only [newAppendCalls, List.mem_map] at hc
      obtain ⟨⟨q, j⟩, hq, rfl⟩ := hc
      have hn := hS.node i
      refine inr ⟨?_, ⟨g.com i, hn.com_committed, le_of_eq hn.com_len.symm⟩, trivial⟩
      exact (List.mem_zipIdx_iff_getElem?.1 hq)

variable {c : AppendCall N} {k : Nat} {stage : Stage N}

theorem Sim.build (hS : Sim md s g) (hk : s.appendCalls[k]? = some c) (hc : c.stage = .spawned)
    (hst : (s.node c.leader).state = .leader)
    (hb : (s.node c.leader).buildRequest c.peerIdx c.term c.commitIndex = some stage)
    (hok : md.Ok s (.goroutine k)) (hnext : Next s (.goroutine k) (s.setStage k c stage)) :
    Sim md (s.setStage k c stage) g := by
  have hcall := hS.appendCalls c (List.mem_of_getElem? hk)
  have hn := hS.node c.leader
  have hl := hn.leader hst
  have hterm : c.term = (s.node c.leader).currentTerm := by
    by_contra hne
    exact hok.1.1 ⟨c, hk, hc, hst, hne⟩
  have hcomV := hn.com_held_of_leader hS.sound hst
  have hstage : StageOk md s g c stage := by
    unfold buildRequest at hb
    dsimp only at hb
    split at hb
    case isTrue =>
      rw [Option.map_eq_some_iff] at hb
      obtain ⟨snap, hsnap, rfl⟩ := hb
      refine ⟨rfl, hterm ▸ hl.led, g.base c.leader, hterm ▸ hn.base_committed, hn.view.base_len,
        hn.view.base_term.symm, fun hr => ?_⟩
      obtain ⟨-, h2, h3⟩ := (hn.maps hr).snap snap hsnap
      exact ⟨h2, h3⟩
    case isFalse hni =>
      cases hb
      obtain ⟨P, hP, hle⟩ := hcall.commit
      have hPlog := hS.sound.committed_prefix_log hP (by rw [hterm]; exact hn.ledTerms _ hl.led)
      rw [hterm, hl.log] at hPlog
      refine ⟨rfl, hterm ▸ hl.led, g.p.held c.leader, ?_,
        buildAppend_spec hn.view (hn.base_com.trans hcomV) (by omega) _ _,
        P.take c.commitIndex, ?_, (List.take_prefix _ _).trans hPlog,
        hP.of_isPrefix (List.take_prefix _ _)⟩
      · rw [hterm, hl.log]
      · rw [List.length_take]
        exact Nat.min_eq_left hle
  refine hS.of_idle hnext rfl hS.pcs (fun i t l h => ⟨l, h⟩) (fun _ h => inl h) fun c' hc' => ?_
  rcases List.mem_or_eq_of_mem_set hc' with hc' | rfl
  · exact inl hc'
  · refine inr ⟨hcall.peer, hcall.commit, ?_⟩
    cases stage with
    | spawned => trivial
    | sentAppend args => exact hstage
    | repliedAppend args reply => exact hstage
    | sentSnapshot args => exact hstage
    | repliedSnapshot args reply => exact hstage

/-! ## Requests at a follower -/

/-- Only what concerns the participant `q` changes, and no log of a term does. -/
structure FollowerStep (g g' : Ghost N) (q : Fin N) : Prop where
  sound : g'.p.Sound tm
  ext : g.Extends g'
  vote : g'.p.vote = g.p.vote
  led : g'.p.led = g.p.led
  log : g'.p.log = g.p.log
  direct : g'.p.direct = g.p.direct
  top : g'.p.top = g.p.top
  ne : ∀ v, v ≠ q → g'.p.seen v = g.p.seen v ∧ g'.p.held v = g.p.held v ∧
    g'.base v = g.base v ∧ g'.com v = g.com v

theorem FollowerStep.refl (hp : g.p.Sound tm) (q : Fin N) : FollowerStep g g q :=
  ⟨hp, .refl g, rfl, rfl, rfl, rfl, rfl, fun _ _ => ⟨rfl, rfl, rfl, rfl⟩⟩

theorem Ghost.Extends.trans {g₁ g₂ g₃ : Ghost N} (h : g₁.Extends g₂) (h' : g₂.Extends g₃) : g₁.Extends g₃ :=
  ⟨h.p.trans h'.p, fun v => (h.base v).trans (h'.base v)⟩

theorem FollowerStep.trans {g₁ g₂ g₃ : Ghost N} {q : Fin N} (h : FollowerStep g₁ g₂ q)
    (h' : FollowerStep g₂ g₃ q) : FollowerStep g₁ g₃ q where
  sound := h'.sound
  ext := h.ext.trans h'.ext
  vote := h'.vote.trans h.vote
  led := h'.led.trans h.led
  log := h'.log.trans h.log
  direct := h'.direct.trans h.direct
  top := h'.top.trans h.top
  ne := fun v hv => by
    obtain ⟨h1, h2, h3, h4⟩ := h.ne v hv
    obtain ⟨i1, i2, i3, i4⟩ := h'.ne v hv
    exact ⟨i1.trans h1, i2.trans h2, i3.trans h3, i4.trans h4⟩

theorem FollowerStep.raise (hp : g.p.Sound tm) {q : Fin N} {T : Nat} (h : g.p.seen q ≤ T) :
    FollowerStep g (g.raise q T) q :=
  ⟨hp.raise h, .raise h, rfl, rfl, rfl, rfl, rfl, fun _ hv => ⟨g.raise_seen_ne T hv, rfl, rfl, rfl⟩⟩

section Follower

variable {q : Fin N} {n : Node N}

section

variable (hp : g.p.Sound tm)
include hp

theorem FollowerStep.record {m : Nat} (hm : m ≤ (g.p.log (g.p.seen q)).length)
    (h : (g.p.log (g.p.seen q)).take m <+: g.p.held q) : FollowerStep g { g with p := g.p.record q m } q :=
  ⟨hp.record hm h, ⟨.record q m, fun _ => List.prefix_refl _⟩, rfl, rfl, rfl, rfl, rfl, fun _ _ => ⟨rfl, rfl, rfl, rfl⟩⟩

section

variable (hn : NodeOk md g q n)
include hn

theorem NodeOk.follower (hst : n.state ≠ .leader)
    (hext : g.Extends g') (hseen : g'.p.seen q = g.p.seen q) (hheld : g'.p.held q = g.p.held q)
    (hbase : g'.base q = g.base q) (hcom : g'.com q = g.com q) : NodeOk md g' q n :=
  hn.extends hp hext hseen hheld hbase hcom fun h => absurd h hst

theorem NodeOk.accept (hst : n.state ≠ .leader)
    (hled : g.p.led n.currentTerm) {M : List LogEntry} (hM : M <+: g.p.log n.currentTerm)
    (hnot : ¬ M <+: g.p.held q) {log : List LogEntry} (hview : Node.View { n with log := log } (g.base q) M) :
    FollowerStep g { g with p := g.p.accept q M } q ∧
      NodeOk md { g with p := g.p.accept q M } q { n with log := log } := by
  have hsound : (g.p.accept q M).Sound tm := by
    refine hp.accept ?_ ?_ fun h => hnot h.1
    · rw [hn.seen]
      exact hled
    · rw [hn.seen]
      exact hM
  have hheld : (g.p.accept q M).held q = M := by simp [Protocol.accept]
  have hext : g.Extends { g with p := g.p.accept q M } :=
    ⟨.accept q M, fun _ => List.prefix_refl _⟩
  refine ⟨⟨hsound, hext, rfl, rfl, rfl, rfl, rfl,
    fun v hv => ⟨rfl, by simp [Protocol.accept, hv], rfl, rfl⟩⟩, ?_⟩
  exact {
    seen := hn.seen
    view := by rw [hheld]; exact hview
    com_len := hn.com_len
    applied := hn.applied
    com_committed := hn.com_committed
    base_com := hn.base_com
    com_held := by
      rcases hn.com_held with h | h
      · exact inl h
      · -- the committed log and `M` are both on the log of the term
        right
        rw [hheld]
        have hcom := hp.committed_prefix_log hn.com_committed hled
        exact prefix_of_replaced hcom hM h fun hcon => hnot hcon.1
    ledTerms := hn.ledTerms
    stays := hn.stays
    leader := fun h => absurd h hst
    slots_len := hn.slots_len
    committed := hn.committed
    applyCh := hn.applyCh
    maps := fun hr => (hn.maps hr).congr rfl rfl rfl }

/-- Appending a request built from a prefix `M` of the log of the term. -/
theorem NodeOk.appendEntries (hst : n.state ≠ .leader)
    (hled : g.p.led n.currentTerm) {M : List LogEntry} (hM : M <+: g.p.log n.currentTerm)
    {args : AppendEntriesArgs N} (hargs : Node.FromLog args M)
    (hlow : args.entries ≠ [] → n.snapshotLastIndex ≤ args.prevLogIndex)
    (hok : n.checkPrevLog args.prevLogIndex args.prevLogTerm = none) :
    ∃ g', FollowerStep g g' q ∧ NodeOk md g' q (n.appendEntries args) ∧ g'.com q = g.com q ∧ g'.base q = g.base q ∧
      ((M <+: g'.p.held q ∧ g'.p.matched q n.currentTerm (args.prevLogIndex + args.entries.length)) ∨
        (M.length ≤ n.snapshotLastIndex ∧ args.prevLogIndex + args.entries.length ≤ n.snapshotLastIndex)) := by
  have hbase := hp.committed_prefix_log hn.base_committed hled
  have hspec := appendEntries_spec hp.wf hn.view (hp.valid_of_below (hp.held_below q))
    (hp.wf.valid _) hbase hM hargs hlow hok
  have htake : (g.p.log n.currentTerm).take M.length = M := by
    rw [← take_eq_of_isPrefix hM (le_refl _), List.take_length]
  rcases hspec with ⟨hsame, ⟨hMV, hlen⟩ | ⟨h1, h2⟩⟩ | ⟨hnot, -, hview, hlen⟩
  · rw [hsame]
    have hstep := FollowerStep.record hp (q := q) (m := M.length)
      (by rw [hn.seen]; exact hM.length_le) (by rw [hn.seen, htake]; exact hMV)
    refine ⟨_, hstep, hn.follower hp hst hstep.ext rfl rfl rfl rfl, rfl, rfl,
      inl ⟨hMV, inl ⟨rfl, hn.seen.symm, hlen⟩⟩⟩
  · rw [hsame]
    exact ⟨g, .refl hp q, hn, rfl, rfl, inr ⟨h1, h2⟩⟩
  · obtain ⟨hstep1, hn1⟩ := hn.accept hp hst hled hM hnot hview
    have hheld : (g.p.accept q M).held q = M := by simp [Protocol.accept]
    have hstep2 := FollowerStep.record hstep1.sound (q := q) (m := M.length)
      (by show M.length ≤ (g.p.log (g.p.seen q)).length; rw [hn.seen]; exact hM.length_le)
      (by
        show (g.p.log (g.p.seen q)).take M.length <+: (g.p.accept q M).held q
        rw [hn.seen, htake, hheld])
    refine ⟨_, hstep1.trans hstep2, hn1.follower hstep1.sound hst hstep2.ext rfl rfl rfl rfl,
      rfl, rfl, inl ⟨?_, inl ⟨rfl, hn.seen.symm, hlen⟩⟩⟩
    show M <+: (g.p.accept q M).held q
    rw [hheld]

/-- The follower's commit rule, for a commit index that stands for the committed log `K`. -/
theorem NodeOk.followCommit (hst : n.state ≠ .leader)
    {K : List LogEntry} (hKc : g.p.Committed n.currentTerm K) (hKV : n.commitIndex < K.length → K <+: g.p.held q)
    (hshare : md.replays → n.commitIndex < K.length → ¬ n.Shared) :
    ∃ g', FollowerStep g g' q ∧ NodeOk md g' q (n.followCommit K.length) ∧
      n.commitIndex ≤ (n.followCommit K.length).commitIndex ∧ g'.base q = g.base q ∧ g'.p.matched = g.p.matched := by
  rcases followCommit_spec hn.view hn.index_le hn.applied
    (fun h => (hKV h).length_le) with ⟨-, hsame⟩ | ⟨hlt, hspec⟩
  · rw [hsame]
    exact ⟨g, .refl hp q, hn, le_refl _, rfl, rfl⟩
  · have hext : g.Extends { g with com := update g.com q K } :=
      ⟨.refl _, fun _ => List.prefix_refl _⟩
    have hstate : (n.followCommit K.length).state = n.state :=
      (control_eq_iff.1 hspec.control).2.2.2.1
    refine ⟨{ g with com := update g.com q K }, ⟨hp, hext, rfl, rfl, rfl, rfl, rfl,
      fun v hv => ⟨rfl, rfl, rfl, by simp [hv]⟩⟩, ?_, ?_, rfl, rfl⟩
    · exact NodeOk.commitTo hp hn hext hp rfl rfl rfl (update_self ..) rfl (hKV hlt) hKc
        hlt hspec (fun hr => hshare hr hlt) fun h => absurd (hstate ▸ h) hst
    · rw [hspec.commitIndex]
      exact le_of_lt hlt

end

end

theorem mem_followCommit {lc : Nat} {x : Nat × LogEntry} (h : x ∈ n.committed) : x ∈ (n.followCommit lc).committed := by
  rw [followCommit]
  split
  · rw [applyCommitted_committed]
    exact List.mem_append_left _ h
  · exact h

/-- The body of `HandleAppendEntries` for a request that was built from the prefix `M` of the log
of the term and whose commit index stands for the committed log `K`. -/
theorem NodeOk.replicate (hp : g.p.Sound tm) (hn : NodeOk md g q n) (hst : n.state ≠ .leader)
    (hled : g.p.led n.currentTerm) {M K : List LogEntry} (hM : M <+: g.p.log n.currentTerm)
    {args : AppendEntriesArgs N} (hargs : Node.FromLog args M) (hK : K.length = args.leaderCommit)
    (hKM : K <+: M) (hKc : g.p.Committed n.currentTerm K)
    (hlow : args.entries ≠ [] → n.snapshotLastIndex ≤ args.prevLogIndex)
    (hshare : md.replays → n.checkPrevLog args.prevLogIndex args.prevLogTerm = none →
      n.commitIndex < args.leaderCommit →
      n.commitIndex < n.snapshotLastIndex + (n.appendEntries args).log.length → ¬ n.Shared) :
    ∃ g', FollowerStep g g' q ∧ NodeOk md g' q (n.replicate args).1 ∧ n.commitIndex ≤ (n.replicate args).1.commitIndex ∧
      (∀ x ∈ n.committed, x ∈ (n.replicate args).1.committed) ∧ ((n.replicate args).2 = none →
        g'.Ev q n.currentTerm (args.prevLogIndex + args.entries.length) ∧
          (md.tracks → g'.Tracked q n.currentTerm (args.prevLogIndex + args.entries.length))) := by
  rw [Node.replicate]
  cases hcheck : n.checkPrevLog args.prevLogIndex args.prevLogTerm with
  | some conflict => exact ⟨g, .refl hp q, hn, le_refl _, fun _ h => h, fun h => absurd h (by simp)⟩
  | none =>
    obtain ⟨g2, hstep2, hn2, hcom2, hbase2, hmatch⟩ :=
      hn.appendEntries hp hst hled hM hargs hlow hcheck
    have hidx := hn.index_le
    have hKc2 : g2.p.Committed (n.appendEntries args).currentTerm K :=
      hKc.extends hp hstep2.ext.p
    -- the log reaches the commit index of the request, or the index is not new
    have hKV : (n.appendEntries args).commitIndex < K.length → K <+: g2.p.held q := by
      intro hlt
      rcases hmatch with ⟨hMV, -⟩ | ⟨hMlen, -⟩
      · exact hKM.trans hMV
      · have h1 := hKM.length_le
        have h2 : n.commitIndex < K.length := hlt
        omega
    have hshare2 : md.replays → (n.appendEntries args).commitIndex < K.length →
        ¬ (n.appendEntries args).Shared := by
      intro hr hlt
      have hVlen := (hKV hlt).length_le
      rw [hn2.view.virt_len] at hVlen
      exact hshare hr hcheck (hK ▸ hlt) (lt_of_lt_of_le hlt hVlen)
    obtain ⟨g3, hstep3, hn3, hle3, hbase3, hmatched3⟩ :=
      hn2.followCommit hstep2.sound (hst : (n.appendEntries args).state ≠ .leader) hKc2 hKV hshare2
    rw [hK] at hn3 hle3
    have hbase : (g3.base q).length = n.snapshotLastIndex := by
      rw [hbase3, hbase2]
      exact hn.view.base_len
    have hle : n.commitIndex ≤ ((n.appendEntries args).followCommit args.leaderCommit).commitIndex :=
      hle3
    refine ⟨g3, hstep2.trans hstep3, hn3, hle, fun x hx => ?_, fun _ => ?_⟩
    · have hx2 : x ∈ (n.appendEntries args).committed := hx
      exact mem_followCommit hx2
    rcases hmatch with ⟨-, hm⟩ | ⟨-, hm⟩
    · have hm3 : g3.p.matched q n.currentTerm (args.prevLogIndex + args.entries.length) := by
        rw [hmatched3]
        exact hm
      exact ⟨inr hm3, fun _ => inr hm3⟩
    · refine ⟨inl ⟨g3.base q, ?_, by omega⟩, fun _ => inl (by omega)⟩
      rw [hbase3, hbase2]
      exact hn.base_committed.extends hp (hstep2.ext.trans hstep3.ext).p

/-- Installing a snapshot that stands for the committed log `P`. -/
theorem NodeOk.install (hp : g.p.Sound tm) (hn : NodeOk md g q n) (hst : n.state ≠ .leader)
    (hled : g.p.led n.currentTerm) {P : List LogEntry} (hP : g.p.Committed n.currentTerm P)
    {args : InstallSnapshotArgs N} (hlen : P.length = args.lastIncludedIndex)
    (hterm : lastTerm tm P = args.lastIncludedTerm) (hdata : md.replays → args.data.lastIncludedIndex = P.length ∧
      args.data.stateMachine = replay KV.empty P) (hnew : n.snapshotLastIndex < args.lastIncludedIndex) :
    ∃ g', FollowerStep g g' q ∧ NodeOk md g' q (n.installSnapshot args) ∧
      (g'.base q).length = args.lastIncludedIndex := by
  have hview := installSnapshot_view hn.view hlen hterm hnew
  have hBP : g.base q <+: P :=
    hp.committed_prefix_of_le hn.base_committed hP (by rw [hn.view.base_len]; omega)
  -- the log is kept, or the snapshot replaces it
  obtain ⟨p', hsound, hext, hsame, hheld, hne⟩ : ∃ p' : Protocol (Fin N) LogEntry, p'.Sound tm ∧
      g.p.Extends p' ∧ (p'.vote = g.p.vote ∧ p'.led = g.p.led ∧ p'.log = g.p.log ∧
        p'.direct = g.p.direct ∧ p'.top = g.p.top ∧ p'.seen = g.p.seen) ∧
      p'.held q = (if (g.p.held q).length ≤ P.length then P else g.p.held q) ∧
      ∀ v, v ≠ q → p'.held v = g.p.held v := by
    by_cases hle : (g.p.held q).length ≤ P.length
    · refine ⟨g.p.accept q P, hp.accept ?_ ?_ fun h => ?_, .accept q P, ⟨rfl, rfl, rfl, rfl, rfl, rfl⟩,
        ?_, fun v hv => by simp [Protocol.accept, hv]⟩
      · rw [hn.seen]
        exact hled
      · rw [hn.seen]
        exact hp.committed_prefix_log hP hled
      · have := h.2
        omega
      · rw [if_pos hle]
        simp [Protocol.accept]
    · exact ⟨g.p, hp, .refl _, ⟨rfl, rfl, rfl, rfl, rfl, rfl⟩, by rw [if_neg hle], fun _ _ => rfl⟩
  obtain ⟨h1, h2, h3, h4, h5, h6⟩ := hsame
  have hext' : g.Extends ⟨p', update g.base q P, update g.com q P⟩ := by
    refine ⟨hext, fun v => ?_⟩
    by_cases hv : v = q
    · subst hv
      simpa using hBP
    · simp [hv]
  refine ⟨⟨p', update g.base q P, update g.com q P⟩,
    ⟨hsound, hext', h1, h2, h3, h4, h5, fun v hv => ⟨congrFun h6 v, hne v hv, by simp [hv],
      by simp [hv]⟩⟩, ?_, by simpa using hlen⟩
  exact {
    seen := by
      show p'.seen q = _
      rw [h6]
      exact hn.seen
    view := by
      show View _ (update g.base q P q) (p'.held q)
      rw [update_self, hheld]
      exact hview
    com_len := by
      show (update g.com q P q).length = args.lastIncludedIndex
      rw [update_self]
      exact hlen
    applied := rfl
    com_committed := by
      show p'.Committed n.currentTerm (update g.com q P q)
      rw [update_self]
      exact hP.extends hp hext
    base_com := by simp
    com_held := inl rfl
    ledTerms := fun t ht => hext.led t (hn.ledTerms t ht)
    stays := hn.stays
    leader := fun h => absurd h hst
    slots_len := hn.slots_len
    committed := fun i e hi => ⟨(hn.committed i e hi).1, top_getElem? hext' (hn.committed i e hi).2⟩
    applyCh := fun cmd i hi => by
      rcases List.mem_append.1 hi with hi | hi
      · obtain ⟨hpos, e, he, hcmd⟩ := hn.applyCh cmd i hi
        exact ⟨hpos, e, top_getElem? hext' he, hcmd⟩
      · exact absurd hi (by simp)
    maps := fun hr => by
      obtain ⟨hd1, hd2⟩ := hdata hr
      show MapsOk _ (update g.base q P q) (update g.com q P q)
      rw [update_self, update_self]
      have hread : (n.installSnapshot args).readMap n.maps.length = replay KV.empty P := by
        rw [← hd2]
        simp [installSnapshot, readMap, List.getD_eq_getElem?_getD]
      refine ⟨by simp [installSnapshot], hread, fun snap hs => ?_⟩
      cases hs
      exact ⟨by simp [installSnapshot], hd1, hread⟩ }

end Follower

/-! ## Delivering requests -/

theorem AppendCallOk.peer_ne (hc : AppendCallOk md s g c) :
    c.peer ≠ c.leader := mem_peers.1 (List.mem_of_getElem? hc.peer)

theorem Sim.peer_not_led (hS : Sim md s g) (hc : AppendCallOk md s g c)
    (hled : c.term ∈ (s.node c.leader).ledTerms) : c.term ∉ (s.node c.peer).ledTerms :=
  fun h => hc.peer_ne (hS.votes.led_unique h hled)

variable {n : Node N}

theorem acceptTerm_adopts {T : Nat} (h : n.currentTerm ≤ T) (hnot : T ∉ n.ledTerms) : Adopts n (n.acceptTerm T) := by
  rw [acceptTerm]
  split
  · exact ⟨⟨rfl, rfl, rfl, rfl, rfl, rfl, rfl, rfl, rfl⟩, rfl, rfl, h, inl rfl,
      fun hc => absurd hc (by simp), inr ⟨by simp, hnot⟩⟩
  · have heq : n.currentTerm = T := by omega
    exact ⟨⟨rfl, rfl, rfl, rfl, rfl, rfl, rfl, rfl, rfl⟩, rfl, rfl, le_refl _, inr ⟨rfl, rfl⟩,
      fun hc => absurd hc (by simp), inr ⟨by simp, by rw [heq]; exact hnot⟩⟩

/-- A request is handled at a follower. -/
theorem Sim.deliver (hS : Sim md s g) (hk : s.appendCalls[k]? = some c)
    (hnext : Next s a ((s.setNode c.peer n).setStage k c stage)) (hstep : FollowerStep g g' c.peer)
    (hok : NodeOk md g' c.peer n) (hst : n.state ≠ .leader) (hkeeps : Node.KeepsVote (s.node c.peer) n)
    (hled : n.ledTerms = (s.node c.peer).ledTerms) (hhist : ∀ x ∈ (s.node c.peer).committed, x ∈ n.committed)
    (hloop : ∀ t l, s.pc c.peer = .votes t l → n.state = .candidate → g'.p.held c.peer = g'.p.voteLog c.peer t ∨ g'.p.led t)
    (hstage : StageOk md s g' c stage) : Sim md ((s.setNode c.peer n).setStage k c stage) g' := by
  have hcall := hS.appendCalls c (List.mem_of_getElem? hk)
  have hnode : ((s.setNode c.peer n).setStage k c stage).node c.peer = n := by simp
  have hne : ∀ v, v ≠ c.peer →
      ((s.setNode c.peer n).setStage k c stage).node v = s.node v :=
    fun v hv => setNode_node_ne s _ _ hv
  have hledAll : ∀ v, ∀ t ∈ (s.node v).ledTerms,
      t ∈ (((s.setNode c.peer n).setStage k c stage).node v).ledTerms := by
    intro v t ht
    by_cases hv : v = c.peer
    · subst hv
      rw [hnode, hled]
      exact ht
    · rw [hne v hv]
      exact ht
  refine LocalStep.sim (i := c.peer) ⟨hne, fun _ _ => rfl, hstep.sound, hstep.ext, ?_, hstep.ne,
    fun v _ _ => ⟨by rw [hstep.log], fun j hj => by rw [hstep.direct] at hj; exact hj⟩,
    by rw [hnode]; exact hok, hledAll c.peer, fun t ht => inl (by rw [hstep.led] at ht; exact ht),
    fun h => absurd (hnode ▸ h) hst, fun t l hv h => hloop t l hv (hnode ▸ h),
    fun _ h => inl h, fun c' hc' => ?_, fun x hx => by rw [hnode]; exact hhist x hx,
    fun j e he => inl (by rw [hstep.top] at he; exact he)⟩ hS hnext
  · rw [hstep.vote]
    exact hS.votes.next_eq (keepsVote_setNode hne (by rw [hnode]; exact hkeeps))
  · rcases List.mem_or_eq_of_mem_set hc' with hc' | rfl
    · exact inl hc'
    · obtain ⟨P, hP, hle⟩ := hcall.commit
      refine inr ⟨hcall.peer, ⟨P, hP.extends hS.sound hstep.ext.p, hle⟩, ?_⟩
      have h := hstage.extends hstep.sound (.refl g') hledAll
      cases stage with
      | spawned => trivial
      | sentAppend args => exact h
      | repliedAppend args reply => exact h
      | sentSnapshot args => exact h
      | repliedSnapshot args reply => exact h

theorem Sim.deliver_stale (hS : Sim md s g) (hk : s.appendCalls[k]? = some c)
    (hnext : Next s a ((s.setNode c.peer (s.node c.peer)).setStage k c stage)) (hstage : StageOk md s g c stage) :
    Sim md ((s.setNode c.peer (s.node c.peer)).setStage k c stage) g := by
  have hcall := hS.appendCalls c (List.mem_of_getElem? hk)
  have hnode : ((s.setNode c.peer (s.node c.peer)).setStage k c stage).node = s.node :=
    Function.update_eq_self _ _
  refine hS.of_idle hnext hnode hS.pcs (fun i t l h => ⟨l, h⟩) (fun _ h => inl h) fun c' hc' => ?_
  rcases List.mem_or_eq_of_mem_set hc' with hc' | rfl
  · exact inl hc'
  · refine inr ⟨hcall.peer, hcall.commit, ?_⟩
    cases stage with
    | spawned => trivial
    | sentAppend args => exact hstage
    | repliedAppend args reply => exact hstage
    | sentSnapshot args => exact hstage
    | repliedSnapshot args reply => exact hstage

theorem Sim.deliverAppend (hS : Sim md s g) {args : AppendEntriesArgs N} (hk : s.appendCalls[k]? = some c)
    (hc : c.stage = .sentAppend args) (hok : md.Ok s (.goroutine k))
    (hnext : Next s (.goroutine k) ((s.setNode c.peer ((s.node c.peer).handleAppendEntries args).1).setStage k c (.repliedAppend args ((s.node c.peer).handleAppendEntries args).2))) :
    (∃ g', Sim md ((s.setNode c.peer ((s.node c.peer).handleAppendEntries args).1).setStage
        k c (.repliedAppend args ((s.node c.peer).handleAppendEntries args).2)) g') ∧
      (s.node c.peer).commitIndex ≤ ((s.node c.peer).handleAppendEntries args).1.commitIndex := by
  have hcall := hS.appendCalls c (List.mem_of_getElem? hk)
  have hstage := hcall.stage
  rw [hc] at hstage
  obtain ⟨hterm, hled, M, hM, hargs, K, hK, hKM, hKc⟩ := hstage
  rcases Nat.lt_or_ge args.term (s.node c.peer).currentTerm with hlt | hge
  · rw [handleAppendEntries_of_stale hlt] at hnext ⊢
    exact ⟨⟨g, hS.deliver_stale hk hnext fun h => absurd h (by simp)⟩, le_refl _⟩
  · have hn := hS.node c.peer
    obtain ⟨hnode, -, hsuccess⟩ := handleAppendEntries_of_le hge
    have hadopts := acceptTerm_adopts hge (by rw [hterm]; exact hS.peer_not_led hcall hled)
    have hw := window_eq_iff.1 (acceptTerm_window (s.node c.peer) args.term)
    have hfollower := acceptTerm_state (s.node c.peer) args.term
    have hterm1 : ((s.node c.peer).acceptTerm args.term).currentTerm = c.term :=
      (acceptTerm_currentTerm hge).trans hterm
    generalize (s.node c.peer).acceptTerm args.term = n at *
    have hstep1 := FollowerStep.raise hS.sound (q := c.peer) (T := n.currentTerm)
      (by rw [hn.seen]; exact hadopts.term)
    have hlow : args.entries ≠ [] → n.snapshotLastIndex ≤ args.prevLogIndex := by
      intro hne
      by_contra hcon
      rw [hw.2.1] at hcon
      exact hok.1.2.2 ⟨c, hk, args, hc, hge, hne, by omega⟩
    have hshare : md.replays → n.checkPrevLog args.prevLogIndex args.prevLogTerm = none →
        n.commitIndex < args.leaderCommit →
        n.commitIndex < n.snapshotLastIndex + (n.appendEntries args).log.length → ¬ n.Shared := by
      rintro hr hcheck hlt hlen ⟨snap, hsnap, heq⟩
      refine hok.2.1 hr ⟨c, hk, inl ⟨args, hc, ⟨snap, ?_, ?_⟩, hge, ?_, ?_, ?_⟩⟩
      · rw [← hadopts.same.snapshot]
        exact hsnap
      · rw [← hadopts.same.stateMachine]
        exact heq
      · rw [← hcheck]
        unfold checkPrevLog
        rw [hw.1, hw.2.1, hw.2.2]
      · rw [← hadopts.same.commitIndex]
        exact hlt
      · rw [appendEntries_log, hw.1, hw.2.1, hadopts.same.commitIndex] at hlen
        rw [appendEntries_log]
        exact hlen
    have hnotLeader : n.state ≠ .leader := by rw [hfollower]; simp
    obtain ⟨g', hstep, hok', hle, hhist, hev⟩ := (hn.adopts hS.sound hadopts).replicate hstep1.sound
      hnotLeader (by rw [hterm1]; exact (hS.node c.leader).ledTerms _ hled)
      (by rw [hterm1]; exact hM) hargs hK hKM
      (by rw [hterm1]; exact hKc.extends hS.sound hstep1.ext.p) hlow hshare
    rw [← hnode] at hok' hle hhist
    rw [hadopts.same.commitIndex] at hle
    have hctl : ((s.node c.peer).handleAppendEntries args).1.control = n.control := by
      rw [hnode]
      exact replicate_control _ _
    obtain ⟨-, -, -, hstate, hledT⟩ := control_eq_iff.1 hctl
    refine ⟨⟨g', hS.deliver hk hnext (hstep1.trans hstep) hok' (by rw [hstate]; exact hnotLeader)
      (hadopts.keeps.of_control hctl) (hledT.trans hadopts.ledTerms)
      (fun x hx => hhist x (by rw [hadopts.same.committed]; exact hx)) (fun t l _ h => ?_)
      fun h => ?_⟩, hle⟩
    · rw [hstate, hfollower] at h
      exact absurd h (by simp)
    · rw [hsuccess, Option.isNone_iff_eq_none] at h
      rw [hterm1] at hev
      exact hev h

variable {args : InstallSnapshotArgs N}

theorem Sim.deliverSnapshot (hS : Sim md s g) (hk : s.appendCalls[k]? = some c) (hc : c.stage = .sentSnapshot args)
    (hnext : Next s a ((s.setNode c.peer ((s.node c.peer).handleInstallSnapshot args).1).setStage k c (.repliedSnapshot args ((s.node c.peer).handleInstallSnapshot args).2))) :
    ∃ g', Sim md ((s.setNode c.peer ((s.node c.peer).handleInstallSnapshot args).1).setStage
        k c (.repliedSnapshot args ((s.node c.peer).handleInstallSnapshot args).2)) g' := by
  have hcall := hS.appendCalls c (List.mem_of_getElem? hk)
  have hstage := hcall.stage
  rw [hc] at hstage
  obtain ⟨hterm, hled, P, hP, hlen, hPterm, hdata⟩ := hstage
  rcases Nat.lt_or_ge args.term (s.node c.peer).currentTerm with hlt | hge
  · rw [handleInstallSnapshot_of_stale hlt] at hnext ⊢
    refine ⟨g, hS.deliver_stale hk hnext fun _ hr => ?_⟩
    have hr' : (s.node c.peer).currentTerm ≤ c.term := hr
    omega
  · have hn := hS.node c.peer
    rw [handleInstallSnapshot_of_le hge] at hnext ⊢
    have hadopts := hS.votes.adoptTerm_adopts c.peer args.term
    have hquiet := (s.node c.peer).adoptTerm_quiet args.term
    have hnotLed := hS.peer_not_led hcall hled
    have hw := window_eq_iff.1 (adoptTerm_window (s.node c.peer) args.term)
    have hterm1 : ((s.node c.peer).adoptTerm args.term).currentTerm = c.term :=
      (adoptTerm_currentTerm hge).trans hterm
    generalize (s.node c.peer).adoptTerm args.term = n at *
    have hn1 := hn.adopts hS.sound hadopts
    have hstep1 := FollowerStep.raise hS.sound (q := c.peer) (T := n.currentTerm)
      (by rw [hn.seen]; exact hadopts.term)
    have hnotLeader : n.state ≠ .leader := by
      intro hst
      have h := (hn1.leader hst).led
      rw [hterm1, hadopts.ledTerms] at h
      exact hnotLed h
    have hledP : g.p.led c.term := (hS.node c.leader).ledTerms _ hled
    by_cases hle : args.lastIncludedIndex ≤ (s.node c.peer).snapshotLastIndex
    · rw [if_pos hle] at hnext ⊢
      refine ⟨_, hS.deliver hk hnext hstep1 hn1 hnotLeader hadopts.keeps hadopts.ledTerms
        (fun x hx => by rw [hadopts.same.committed]; exact hx) (fun t l hpc h => ?_) fun _ _ => ?_⟩
      · exact hS.loop _ t l hpc (hadopts.candidate h)
      · exact le_of_le_of_eq hle hn.view.base_len.symm
    · rw [if_neg hle] at hnext ⊢
      obtain ⟨g', hstep, hok', hbase⟩ := hn1.install hstep1.sound hnotLeader
        (by rw [hterm1]; exact hledP) (by rw [hterm1]; exact hP.extends hS.sound hstep1.ext.p)
        hlen hPterm hdata (by rw [hw.2.1]; omega)
      refine ⟨g', hS.deliver hk hnext (hstep1.trans hstep) hok' hnotLeader hadopts.keeps
        hadopts.ledTerms (fun x hx => ?_) (fun t l hpc h => ?_) fun _ _ => le_of_eq hbase.symm⟩
      · show x ∈ n.committed
        rw [hadopts.same.committed]
        exact hx
      · -- the node stays candidate only in the term of the request, which has a leader
        have hst : n.state = .candidate := h
        have hself := ((hS.votes.loop _ t l hpc).self (hadopts.candidate hst)).1
        have hsame : n.currentTerm = (s.node c.peer).currentTerm := by
          rcases hquiet.role with ⟨-, heq⟩ | hf
          · exact heq
          · rw [hf] at hst
            exact absurd hst (by simp)
        right
        rw [hstep.led, ← hself, ← hsame, hterm1]
        exact hledP

/-! ## Processing replies -/

theorem Sim.processed (hS : Sim md s g) (hnext : Next s a ((s.setNode c.leader n).endAppendCall k))
    (hctl : n.control = (s.node c.leader).control) (hsound : g'.p.Sound tm) (hext : g.Extends g')
    (hvote : g'.p.vote = g.p.vote) (hled : g'.p.led = g.p.led) (hlog : g'.p.log = g.p.log)
    (hdirect : ∀ v, v ≠ c.leader → (s.node v).state = .leader → ∀ j, g'.p.direct (s.node v).currentTerm j → g.p.direct (s.node v).currentTerm j)
    (hne : ∀ v, v ≠ c.leader → g'.p.seen v = g.p.seen v ∧ g'.p.held v = g.p.held v ∧ g'.base v = g.base v ∧ g'.com v = g.com v)
    (hheld : g'.p.held c.leader = g.p.held c.leader) (hvoteLog : g'.p.voteLog = g.p.voteLog)
    (hok : NodeOk md g' c.leader n) (hhist : ∀ x ∈ (s.node c.leader).committed, x ∈ n.committed)
    (hrec : ∀ j e, g'.p.top[j]? = some e → g.p.top[j]? = some e ∨ (j + 1, e) ∈ n.committed) :
    Sim md ((s.setNode c.leader n).endAppendCall k) g' := by
  obtain ⟨-, hterm, hvoted, hstate, hledT⟩ := control_eq_iff.1 hctl
  have hnode : ((s.setNode c.leader n).endAppendCall k).node c.leader = n := by simp
  have hne' : ∀ v, v ≠ c.leader →
      ((s.setNode c.leader n).endAppendCall k).node v = s.node v :=
    fun v hv => setNode_node_ne s _ _ hv
  refine LocalStep.sim (i := c.leader) ⟨hne', fun _ _ => rfl, hsound, hext, ?_, hne,
    fun v hv hst => ⟨by rw [hlog], hdirect v hv hst⟩, by rw [hnode]; exact hok,
    fun t ht => by rw [hnode, hledT]; exact ht, fun t ht => inl (by rw [hled] at ht; exact ht),
    fun h => hS.pcs _ (by rw [hnode, hstate] at h; exact h), fun t l hv h => ?_,
    fun _ h => inl h, fun c' hc' => inl (List.mem_of_mem_eraseIdx hc'),
    fun x hx => by rw [hnode]; exact hhist x hx, fun j e he => by rw [hnode]; exact hrec j e he⟩
    hS hnext
  · rw [hvote]
    exact hS.votes.next_eq (keepsVote_setNode hne'
      (by rw [hnode]; exact (KeepsVote.refl _).of_control hctl))
  · rw [hnode, hstate] at h
    rw [hheld, hvoteLog, hled]
    exact hS.loop _ t l hv h

theorem Sim.processed_adopts (hS : Sim md s g) (hnext : Next s a ((s.setNode c.leader n).endAppendCall k))
    (h : Adopts (s.node c.leader) n) : ∃ g', Sim md ((s.setNode c.leader n).endAppendCall k) g' := by
  have hnode : ((s.setNode c.leader n).endAppendCall k).node c.leader = n := by simp
  exact ⟨_, hS.adopts hnext (fun v hv => setNode_node_ne s _ _ hv) (fun _ _ => rfl) (inl rfl)
    (by rw [hnode]; exact h) (fun _ h => inl h)
    fun c' hc' => inl (List.mem_of_mem_eraseIdx hc')⟩

theorem counted_majority (hid : n.id = i) (hlen : n.matchIndex.length = (peers i).length) {idx : Nat}
    (hmaj : ((peers n.id).length + 1) / 2 + 1 ≤ n.replicated idx) : ∃ Q : Finset (Fin N), Majority Q ∧ ∀ v ∈ Q, v = i ∨
      ∃ j, (peers i)[j]? = some v ∧ idx ≤ n.matchIndex.getD j 0 := by
  subst hid
  have hfst : ((peers n.id).zip n.matchIndex).map Prod.fst = peers n.id :=
    List.map_fst_zip (le_of_eq hlen.symm)
  have hsnd : ((peers n.id).zip n.matchIndex).map Prod.snd = n.matchIndex :=
    List.map_snd_zip (le_of_eq hlen)
  -- the peers whose slot reaches the index
  obtain ⟨counted, hcounted⟩ : ∃ l, l = (((peers n.id).zip n.matchIndex).filter
    fun x => decide (idx ≤ x.2)).map Prod.fst := ⟨_, rfl⟩
  have hsub : counted.Sublist (peers n.id) := by
    have h := (List.filter_sublist (p := fun x : Fin N × Nat => decide (idx ≤ x.2))
      (l := (peers n.id).zip n.matchIndex)).map Prod.fst
    rw [hfst] at h
    rw [hcounted]
    exact h
  have hcount : n.matchIndex.countP (fun m => decide (idx ≤ m)) = counted.length := by
    rw [hcounted, List.length_map, ← List.countP_eq_length_filter]
    nth_rewrite 1 [← hsnd]
    rw [List.countP_map]
    rfl
  have hnodup : (n.id :: counted).Nodup := by
    refine List.nodup_cons.2 ⟨fun h => ?_, (nodup_peers n.id).sublist hsub⟩
    exact mem_peers.1 (hsub.subset h) rfl
  refine ⟨(n.id :: counted).toFinset, ?_, fun v hv => ?_⟩
  · rw [Majority]
    rw [List.toFinset_card_of_nodup hnodup, Fintype.card_fin, List.length_cons]
    rw [replicated] at hmaj
    rw [length_peers, hcount] at hmaj
    omega
  · rw [List.mem_toFinset, List.mem_cons] at hv
    rcases hv with rfl | hv
    · exact inl rfl
    · right
      rw [hcounted, List.mem_map] at hv
      obtain ⟨⟨w, m⟩, hm, rfl⟩ := hv
      rw [List.mem_filter] at hm
      obtain ⟨hmem, hle⟩ := hm
      obtain ⟨j, hj⟩ := List.mem_iff_getElem?.1 hmem
      obtain ⟨h1, h2⟩ := List.getElem?_zip_eq_some.1 hj
      refine ⟨j, h1, ?_⟩
      rw [List.getD_eq_getElem?_getD, h2]
      exact of_decide_eq_true hle

theorem NodeOk.target_quorum (hp : g.p.Sound tm) (hn : NodeOk md g i n) (hid : n.id = i)
    (hst : n.state = .leader) {idx : Nat} (htarget : n.commitTarget (n.snapshotLastIndex + n.log.length) = some idx) :
    n.commitIndex < idx ∧ idx ≤ (g.p.held i).length ∧ g.p.Own tm n.currentTerm idx ∧
      ∃ Q : Finset (Fin N), Majority Q ∧ ∀ v ∈ Q, ∃ m, idx ≤ m ∧
        (g.p.record i (g.p.held i).length).matched v n.currentTerm m := by
  have hl := hn.leader hst
  obtain ⟨hlt, e, he, hterm, hmaj⟩ := commitTarget_spec n _ htarget
  have hidx : n.snapshotLastIndex < idx := lt_of_le_of_lt hn.index_le hlt
  rw [hn.view.entryAt_eq hidx] at he
  have hlen : idx ≤ (g.p.held i).length := by
    have := (List.getElem?_eq_some_iff.1 he).1
    omega
  have hown : g.p.Own tm n.currentTerm idx := by
    refine ⟨by omega, by rw [hl.log]; exact hlen, ?_⟩
    have hget : termAt tm (g.p.held i) (idx - 1 + 1) = e.term := termAt_of_getElem? he
    rw [Nat.sub_add_cancel (by omega)] at hget
    rw [hl.log, hget, hterm]
  obtain ⟨Q, hQ, hcounted⟩ := counted_majority hid hn.slots_len hmaj
  refine ⟨hlt, hlen, hown, Q, hQ, fun v hv => ?_⟩
  rcases hcounted v hv with rfl | ⟨j, hj, hle⟩
  · exact ⟨_, hlen, inl ⟨rfl, hn.seen.symm, rfl⟩⟩
  · rcases (hl.slots j v hj).1 with ⟨P, hP, hPle⟩ | hm
    · -- what is committed up to here is covered by the commit index already
      obtain ⟨k', hd, hk'⟩ := hp.direct_of_own (hn.ledTerms _ hl.led) hown hP (by omega)
      have := hl.direct k' hd
      omega
    · exact ⟨_, hle, inr hm⟩

theorem NodeOk.recorded_of_take (hp : g.p.Sound tm) (hn : NodeOk md g i n) (hst : n.state = .leader)
    {idx j : Nat} {e : LogEntry} (he : ((g.p.held i).take idx)[j]? = some e) : g.p.top[j]? = some e ∨
      (n.commitIndex < j + 1 ∧ j + 1 ≤ idx ∧ (g.p.held i)[j + 1 - 1]? = some e) := by
  have hj : j < idx := by
    have := (List.getElem?_eq_some_iff.1 he).1
    rw [List.length_take] at this
    omega
  rw [List.getElem?_take_of_lt hj] at he
  by_cases hold : j < n.commitIndex
  · left
    have hjc : j < (g.com i).length := by rw [hn.com_len]; exact hold
    obtain ⟨r, hr⟩ := hp.committed_prefix_top hn.com_committed
    obtain ⟨r', hr'⟩ := hn.com_held_of_leader hp hst
    rw [← hr', List.getElem?_append_left hjc] at he
    rw [← hr, List.getElem?_append_left hjc]
    exact he
  · exact inr ⟨by omega, by omega, by simpa using he⟩

/-- The leader advances its commit index. -/
theorem NodeOk.advanceCommitIndex (hp : g.p.Sound tm) (hn : NodeOk md g i n) (hid : n.id = i) (hst : n.state = .leader)
    (hshare : md.replays → (∃ idx, n.commitTarget (n.snapshotLastIndex + n.log.length) = some idx) → ¬ n.Shared) :
    ∃ g', g'.p.Sound tm ∧ g.Extends g' ∧ NodeOk md g' i n.advanceCommitIndex ∧
      (g'.p.vote = g.p.vote ∧ g'.p.led = g.p.led ∧ g'.p.log = g.p.log ∧
        g'.p.held = g.p.held ∧ g'.p.voteLog = g.p.voteLog ∧ g'.p.seen = g.p.seen) ∧
      (∀ t j, g'.p.direct t j → t ≠ n.currentTerm → g.p.direct t j) ∧
      (∀ v, v ≠ i → g'.base v = g.base v ∧ g'.com v = g.com v) ∧
      (∀ x ∈ n.committed, x ∈ n.advanceCommitIndex.committed) ∧ ∀ j e, g'.p.top[j]? = some e →
        g.p.top[j]? = some e ∨ (j + 1, e) ∈ n.advanceCommitIndex.committed := by
  rw [Node.advanceCommitIndex]
  cases htarget : n.commitTarget (n.snapshotLastIndex + n.log.length) with
  | none =>
    exact ⟨g, hp, .refl g, hn, ⟨rfl, rfl, rfl, rfl, rfl, rfl⟩, fun _ _ h _ => h,
      fun _ _ => ⟨rfl, rfl⟩, fun _ h => h, fun _ _ h => inl h⟩
  | some idx =>
    have hl := hn.leader hst
    have hled := hn.ledTerms _ hl.led
    obtain ⟨hlt, hlen, hown, Q, hQ, hQm⟩ := hn.target_quorum hp hid hst htarget
    have hrec1 : (g.p.record i (g.p.held i).length).Sound tm := by
      refine hp.record ?_ ?_
      · rw [hn.seen, hl.log]
      · rw [hn.seen, hl.log, List.take_length]
    have hsound : ((g.p.record i (g.p.held i).length).commit n.currentTerm idx).Sound tm :=
      hrec1.commit hled hown hQ hQm
    have hext : g.p.Extends ((g.p.record i (g.p.held i).length).commit n.currentTerm idx) :=
      (Extends.record i _).trans (Extends.commit hrec1 hled hown hQ hQm)
    obtain ⟨g1, hg1⟩ : ∃ g1 : Ghost N, g1 =
      ⟨(g.p.record i (g.p.held i).length).commit n.currentTerm idx, g.base,
        update g.com i ((g.p.held i).take idx)⟩ := ⟨_, rfl⟩
    have hext1 : g.Extends g1 := by subst hg1; exact ⟨hext, fun _ => List.prefix_refl _⟩
    have hsound1 : g1.p.Sound tm := by subst hg1; exact hsound
    have hspec := commitTo_spec hn.view hn.index_le hn.applied (le_of_lt hlt) hlen
    have hK : ((g.p.held i).take idx).length = idx := by
      rw [List.length_take]
      exact Nat.min_eq_left hlen
    have hKc : g1.p.Committed n.currentTerm ((g.p.held i).take idx) := by
      subst hg1
      rw [← hl.log]
      exact committed_commit (p := g.p.record i (g.p.held i).length)
    obtain ⟨hspecId, hspecTerm, -, hspecState, hspecLed⟩ := control_eq_iff.1 hspec.control
    have hn1 : NodeOk md g1 i (n.setCommitIndex idx).applyCommitted := by
      refine hn.commitTo hsound1 hext1 hp (by subst hg1; rfl) (by subst hg1; rfl)
        (by subst hg1; rfl) (K := (g.p.held i).take idx)
        (by subst hg1; exact Function.update_self ..) hK (List.take_prefix _ _) hKc hlt hspec
        (fun hr => hshare hr ⟨idx, htarget⟩) fun _ => ?_
      refine ⟨by rw [hspecTerm, hspecLed]; exact hl.led, ?_, fun j hj => ?_, fun j q hq => ?_⟩
      · rw [hspecTerm]
        subst hg1
        exact hl.log
      · rw [hspecTerm] at hj
        rw [hspec.commitIndex]
        subst hg1
        rcases hj with ⟨-, rfl⟩ | hj
        · exact le_refl _
        · have := hl.direct j hj
          omega
      · obtain ⟨h1, h2⟩ := hl.slots j q hq
        rw [hspecTerm, hspec.matchIndex]
        exact ⟨h1.extends hp hext1, fun ht => (h2 ht).extends hext1⟩
    obtain ⟨B, hB, hn2⟩ := hn1.compact hsound1 (hspecState.trans hst)
    have hframe := (maybeSnapshot_frame (n.setCommitIndex idx).applyCommitted).2.2.2.2.1
    refine ⟨{ g1 with base := update g1.base i B }, hsound1, ?_, hn2,
      by subst hg1; exact ⟨rfl, rfl, rfl, rfl, rfl, rfl⟩, fun t j hj hne => ?_, fun v hv => ?_,
      fun x hx => ?_, fun j e' he' => ?_⟩
    · refine ⟨hext1.p, fun v => (hext1.base v).trans ?_⟩
      by_cases hv : v = i
      · subst hv
        simpa using hB
      · simp [hv]
    · subst hg1
      rcases hj with ⟨h, -⟩ | hj
      · exact absurd h hne
      · exact hj
    · subst hg1
      exact ⟨by simp [hv], by simp [hv]⟩
    · show x ∈ ((n.setCommitIndex idx).applyCommitted.maybeSnapshot).committed
      rw [hframe]
      exact (hspec.committed x.1 x.2).2 (inl hx)
    · show _ ∨ (j + 1, e') ∈ ((n.setCommitIndex idx).applyCommitted.maybeSnapshot).committed
      rw [hframe]
      have htop : g1.p.top = g.p.top ∨ g1.p.top = (g.p.held i).take idx := by
        subst hg1
        rw [← hl.log]
        exact commit_top (p := g.p.record i (g.p.held i).length) n.currentTerm idx
      rcases htop with htop | htop
      · left
        rw [← htop]
        exact he'
      · have he2 : g1.p.top[j]? = some e' := he'
        rw [htop] at he2
        exact (hn.recorded_of_take hp hst he2).imp_right fun h =>
          (hspec.committed (j + 1) e').2 (inr h)

theorem NodeOk.recordMatch {q : Fin N} (hn : NodeOk md g i n) {idx m : Nat} (hq : (peers i)[idx]? = some q)
    (hm : g.Ev q n.currentTerm m ∧ (md.tracks → g.Tracked q n.currentTerm m)) :
    NodeOk md g i (n.recordMatch idx m) := by
  rw [Node.recordMatch]
  by_cases hgt : m > n.matchIndex.getD idx 0
  · simp only [if_pos hgt]
    exact hn.setSlot hq fun _ => hm
  · simp only [if_neg hgt]
    -- the slot is assigned its present value
    have hsame : n.matchIndex = n.matchIndex.set idx (n.matchIndex.getD idx 0) := by
      refine List.ext_getElem? fun j => ?_
      by_cases hj : idx = j
      · subst hj
        have hlt : idx < n.matchIndex.length := by
          rw [hn.slots_len]
          exact (List.getElem?_eq_some_iff.1 hq).1
        rw [List.getElem?_set_self hlt, List.getD_eq_getElem?_getD, List.getElem?_eq_getElem hlt, Option.getD_some]
      · rw [List.getElem?_set_ne hj]
    have h : NodeOk md g i { n with
        matchIndex := n.matchIndex.set idx (n.matchIndex.getD idx 0)
        nextIndex := n.nextIndex.set idx (n.matchIndex.getD idx 0 + 1) } :=
      hn.setSlot hq fun hst => (hn.leader hst).slots idx q hq
    rwa [← hsame] at h

theorem backOff_adopts (n : Node N) (idx conflictIndex : Nat) : Adopts n (n.backOff idx conflictIndex) := by
  have hsame : ∀ next, Adopts n { n with nextIndex := next } := fun next =>
    ⟨⟨rfl, rfl, rfl, rfl, rfl, rfl, rfl, rfl, rfl⟩, rfl, rfl, le_refl _, inr ⟨rfl, rfl⟩, id, inl ⟨rfl, rfl⟩⟩
  rw [backOff]
  split
  · exact hsame _
  · split
    · exact hsame _
    · exact .refl n

theorem Sim.processAppend (hS : Sim md s g) {args : AppendEntriesArgs N} {reply : AppendEntriesReply}
    (hk : s.appendCalls[k]? = some c) (hc : c.stage = .repliedAppend args reply) (hok : md.Ok s (.goroutine k))
    (hnext : Next s (.goroutine k) ((s.setNode c.leader ((s.node c.leader).processAppendReply c.peerIdx args reply)).endAppendCall k)) :
    ∃ g', Sim md ((s.setNode c.leader
      ((s.node c.leader).processAppendReply c.peerIdx args reply)).endAppendCall k) g' := by
  have hcall := hS.appendCalls c (List.mem_of_getElem? hk)
  have hstage := hcall.stage
  rw [hc] at hstage
  have hn := hS.node c.leader
  rw [processAppendReply] at hnext ⊢
  split at hnext
  case isTrue hhigh =>
    rw [if_pos hhigh]
    exact hS.processed_adopts hnext (hS.votes.stepDown_adopts hhigh)
  case isFalse hlow =>
    rw [if_neg hlow]
    split at hnext
    case isTrue hst =>
      rw [if_pos hst]
      exact hS.processed_adopts hnext (.refl _)
    case isFalse hst =>
      rw [if_neg hst]
      have hst' : (s.node c.leader).state = .leader := not_not.1 hst
      split at hnext
      case isFalse hfail =>
        rw [if_neg hfail]
        exact hS.processed_adopts hnext (backOff_adopts _ _ _)
      case isTrue hsuccess =>
        rw [if_pos hsuccess]
        have hterm : c.term = (s.node c.leader).currentTerm := by
          by_contra hne
          exact hok.1.2.1 ⟨c, hk, args, reply, hc, hsuccess, by omega, hst', hne⟩
        have hev := hstage hsuccess
        rw [hterm] at hev
        have hn1 := hn.recordMatch hcall.peer hev
        have hctl : ((s.node c.leader).recordMatch c.peerIdx
            (args.prevLogIndex + args.entries.length)).control = (s.node c.leader).control :=
          recordMatch_control _ _ _
        obtain ⟨hid, hterm1, -, hstate1, -⟩ := control_eq_iff.1 hctl
        have hshare : md.replays → (∃ idx, ((s.node c.leader).recordMatch c.peerIdx (args.prevLogIndex +
            args.entries.length)).commitTarget ((s.node c.leader).snapshotLastIndex + (s.node c.leader).log.length) =
            some idx) →
            ¬ (s.node c.leader).Shared := by
          intro hr hidx hshared
          exact hok.2.1 hr ⟨c, hk, inr ⟨args, reply, hc, hshared, hsuccess, by omega, hst', hidx⟩⟩
        obtain ⟨g', hsound, hext, hok', ⟨h1, h2, h3, h4, h5, h6⟩, hdirect, hne, hhist, hrec⟩ :=
          hn1.advanceCommitIndex hS.sound (hid.trans (hS.votes.id _)) (hstate1.trans hst') hshare
        refine ⟨g', hS.processed hnext ((advanceCommitIndex_control _).trans hctl) hsound hext
          h1 h2 h3 (fun v hv hvst j hj => ?_) (fun v hv => ⟨by rw [h6], by rw [h4], hne v hv⟩)
          (by rw [h4]) h5 hok' hhist hrec⟩
        refine hdirect _ j hj fun heq => hv ?_
        exact hS.leader_unique hst' hvst (heq.trans hterm1)

theorem Sim.processSnapshot (hS : Sim md s g) {reply : InstallSnapshotReply} (hk : s.appendCalls[k]? = some c)
    (hc : c.stage = .repliedSnapshot args reply) (hok : md.Ok s (.goroutine k))
    (hnext : Next s (.goroutine k) ((s.setNode c.leader ((s.node c.leader).processSnapshotReply c.peerIdx reply)).endAppendCall k)) :
    ∃ g', Sim md ((s.setNode c.leader
      ((s.node c.leader).processSnapshotReply c.peerIdx reply)).endAppendCall k) g' := by
  have hcall := hS.appendCalls c (List.mem_of_getElem? hk)
  have hstage := hcall.stage
  rw [hc] at hstage
  have hn := hS.node c.leader
  rw [processSnapshotReply] at hnext ⊢
  split at hnext
  case isTrue hhigh =>
    rw [if_pos hhigh]
    exact hS.processed_adopts hnext (hS.votes.stepDown_adopts hhigh)
  case isFalse hlow =>
    rw [if_neg hlow]
    refine ⟨g, hS.processed hnext rfl hS.sound (.refl g) rfl rfl rfl (fun _ _ _ _ h => h) (fun _ _ => ⟨rfl, rfl, rfl,
      rfl⟩) rfl rfl (hn.setSlot hcall.peer fun hst => ⟨?_, fun ht => ?_⟩) (fun _ h => h) fun _ _ h => inl h⟩
    · exact inl ⟨_, hn.base_committed, le_of_eq hn.view.base_len.symm⟩
    · -- the reply is to the present snapshot of the leader, which the peer has installed
      have hfresh : ¬ (c.term ≠ (s.node c.leader).currentTerm ∨
          args.lastIncludedIndex ≠ (s.node c.leader).snapshotLastIndex) := fun h =>
        hok.2.2 ht ⟨c, hk, args, reply, hc, by omega, hst, h⟩
      rw [not_or, not_not, not_not] at hfresh
      left
      rw [← hfresh.2]
      exact hstage ht (by rw [hfresh.1]; omega)

/-! ## All steps -/

/-- Every step that meets the conditions of the mode keeps the simulation invariant. -/
theorem Sim.next (hS : Sim md s g) (h : Next s a s') (hok : md.Ok s a) : ∃ g', Sim md s' g' := by
  have hnext := h
  cases h with
  | dispatch i pc hpc hpc' =>
    refine ⟨g, hS.setPc hnext (fun hst => ?_) fun t l => ?_⟩
    · rcases hpc' with ⟨hst', -⟩ | ⟨hst', -⟩ | ⟨-, rfl⟩
      · rw [hst] at hst'
        exact absurd hst' (by simp)
      · rw [hst] at hst'
        exact absurd hst' (by simp)
      · exact inr (inl rfl)
    · rcases hpc' with ⟨-, rfl⟩ | ⟨-, rfl⟩ | ⟨-, rfl⟩ <;> simp
  | electionTimeout i hpc => exact ⟨g, hS.electionTimeout hpc hnext rfl⟩
  | campaign i hpc => exact hS.campaign hpc hnext rfl
  | voteHandler k q args hk => exact hS.voteHandler hk hnext rfl
  | voteHigher k q args reply granted hk hpc hterm =>
    have hnode : ((s.endVoteCall k).setNode args.candidateID
        ((s.node args.candidateID).stepDown reply.term)).node args.candidateID =
        (s.node args.candidateID).stepDown reply.term := setNode_node_self _ _ _
    exact ⟨_, hS.adopts hnext (fun v hv => setNode_node_ne (s.endVoteCall k) _ _ hv)
      (fun v hv => setPc_pc_ne _ _ _ hv) (inr (setPc_pc_self _ _ _))
      (by rw [setPc_node, hnode]; exact hS.votes.stepDown_adopts hterm)
      (fun c hc => inl (List.mem_of_mem_eraseIdx hc)) fun c hc => inl hc⟩
  | voteWins k q args reply granted hk hpc hgrant hstate hmaj =>
    exact ⟨_, hS.voteWins hk hpc hgrant hstate hmaj hnext rfl⟩
  | voteCounts k q args reply granted hk hpc hgrant =>
    refine ⟨g, hS.of_idle hnext rfl (fun i hst => ?_) (fun i t l h => ?_)
      (fun c hc => inl (List.mem_of_mem_eraseIdx hc)) fun c hc => inl hc⟩
    · by_cases hi : i = args.candidateID
      · subst hi
        have := hS.pcs _ hst
        rw [hpc] at this
        simp at this
      · rw [setPc_pc_ne _ _ _ hi]
        exact hS.pcs i hst
    · by_cases hi : i = args.candidateID
      · subst hi
        rw [setPc_pc_self] at h
        cases h
        exact ⟨granted, hpc⟩
      · rw [setPc_pc_ne _ _ _ hi] at h
        exact ⟨l, h⟩
  | voteIgnored k =>
    exact ⟨g, hS.of_idle hnext rfl hS.pcs (fun i t l h => ⟨l, h⟩)
      (fun c hc => inl (List.mem_of_mem_eraseIdx hc)) fun c hc => inl hc⟩
  | voteTimeout i => exact ⟨g, hS.setPc hnext (fun _ => inl rfl) fun t l => by simp⟩
  | tick i pc hpc hpc' =>
    refine ⟨g, hS.setPc hnext (fun _ => ?_) fun t l => ?_⟩
    · rcases hpc' with rfl | rfl
      · exact inl rfl
      · exact inr (inl rfl)
    · rcases hpc' with rfl | rfl <;> simp
  | command i cmd hpc hst => exact ⟨_, hS.command hst hnext rfl⟩
  | commandLost i cmd hpc => exact ⟨g, hS.setPc hnext (fun _ => inl rfl) fun t l => by simp⟩
  | broadcast i hpc => exact ⟨g, hS.broadcast hpc hnext rfl⟩
  | endSpawned k =>
    exact ⟨g, hS.of_idle hnext rfl hS.pcs (fun i t l h => ⟨l, h⟩) (fun c hc => inl hc)
      fun c hc => inl (List.mem_of_mem_eraseIdx hc)⟩
  | build k c stage hk hc hst hb => exact ⟨g, hS.build hk hc hst hb hok hnext⟩
  | deliverAppend k c args hk hc => exact (hS.deliverAppend hk hc hok hnext).1
  | deliverSnapshot k c args hk hc => exact hS.deliverSnapshot hk hc hnext
  | processAppend k c args reply hk hc => exact hS.processAppend hk hc hok hnext
  | processSnapshot k c args reply hk hc => exact hS.processSnapshot hk hc hok hnext

/-- The simulation invariant holds in every state of a run that keeps to its mode. -/
theorem sim_reachable {ok : Cluster N → Action N → Prop} (hmode : ∀ s a, ok s a → md.Ok s a) (h : ReachableIf ok s) : ∃ g, Sim md s g := by
  refine Core.ReachableIf.invariant (I := fun s => ∃ g, Sim md s g) ⟨_, sim_init md⟩ ?_ h
  rintro s a s' - ⟨g, hS⟩ hok hs
  exact hS.next (next_of_step hs) (hmode s a hok)

end SystemDesignLabs.Raft
