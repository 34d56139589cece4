import SystemDesignLabs.Raft.Window

/-!
# Committing, applying and compacting

What `applyCommitted`, `advanceCommitIndex` and `maybeSnapshot` do to a node whose held log is a
window of `V`: the new entries of `V` are recorded as committed, offered to `applyCh` in order, and
replayed on the map that `stateMachine` refers to (`commitTo_spec`); compaction moves the lower end of
the window up to `commitIndex` and copies the map (`maybeSnapshot_spec`).
-/

namespace SystemDesignLabs.Raft

open Core

variable {N : Nat}

/-- Apply the commands of a list of entries in order. -/
def replay (m : KV) (es : List LogEntry) : KV := es.foldl (fun m e => applyCommand m e.command) m

theorem replay_append (m : KV) (es fs : List LogEntry) :
    replay m (es ++ fs) = replay (replay m es) fs := List.foldl_append

theorem replay_take (m : KV) (V : List LogEntry) {j k : Nat} (h : j ≤ k) :
    replay (replay m (V.take j)) ((V.drop j).take (k - j)) = replay m (V.take k) := by
  rw [← replay_append, ← List.take_add]
  congr 2
  omega

/-- The messages for the entries above index `la`. -/
def applyMsgs : Nat → List LogEntry → List ApplyMsg
  | _, [] => []
  | la, e :: es => .command e.command (la + 1) :: applyMsgs (la + 1) es

theorem mem_applyMsgs {cmd : String} {i : Nat} (es : List LogEntry) :
    ∀ la, ApplyMsg.command cmd i ∈ applyMsgs la es →
      la < i ∧ ∃ e, es[i - la - 1]? = some e ∧ e.command = cmd := by
  induction es with
  | nil =>
    intro la h
    exact absurd h (by simp [applyMsgs])
  | cons e es ih =>
    intro la h
    rcases List.mem_cons.1 h with heq | h
    · injection heq with h1 h2
      subst h1
      subst h2
      refine ⟨by omega, e, ?_, rfl⟩
      have : la + 1 - la - 1 = 0 := by omega
      rw [this]
      rfl
    · obtain ⟨hlt, e', he', hcmd⟩ := ih (la + 1) h
      refine ⟨by omega, e', ?_, hcmd⟩
      have : i - la - 1 = (i - (la + 1) - 1) + 1 := by omega
      rw [this, List.getElem?_cons_succ]
      exact he'

namespace Node

section Apply

variable {n : Node N} {B V : List LogEntry}

theorem readMap_applyToStateMachine (n : Node N) (cmd : String)
    (h : n.stateMachine < n.maps.length) :
    (n.applyToStateMachine cmd).readMap n.stateMachine =
      applyCommand (n.readMap n.stateMachine) cmd := by
  simp [applyToStateMachine, readMap, List.getD_eq_getElem?_getD, h]

theorem readMap_applyToStateMachine_ne (n : Node N) (cmd : String) {ref : Nat}
    (h : ref ≠ n.stateMachine) : (n.applyToStateMachine cmd).readMap ref = n.readMap ref := by
  simp [applyToStateMachine, readMap, List.getD_eq_getElem?_getD, List.getElem?_set_ne h.symm]

theorem applyNext_eq (hv : View n B V) (hidx : n.snapshotLastIndex ≤ n.lastApplied) {e : LogEntry}
    (he : V[n.lastApplied]? = some e) :
    n.applyNext = { n.applyToStateMachine e.command with
      lastApplied := n.lastApplied + 1
      applyCh := n.applyCh ++ [.command e.command (n.lastApplied + 1)] } := by
  have hlt : n.lastApplied < V.length := (List.getElem?_eq_some_iff.1 he).1
  have hlen := hv.virt_len
  have hlocal : ((n.lastApplied + 1 : Nat) : Int) - n.snapshotLastIndex - 1 =
      ((n.lastApplied - n.snapshotLastIndex : Nat) : Int) := by omega
  have hget : n.log[n.lastApplied - n.snapshotLastIndex]? = some e := by
    rw [hv.log_getElem?]
    have : n.snapshotLastIndex + (n.lastApplied - n.snapshotLastIndex) = n.lastApplied := by omega
    rw [this]
    exact he
  rw [applyNext]
  dsimp only
  rw [hlocal, if_neg (by omega), Int.toNat_natCast, hget]
  rfl

/-- The loop of `applyCommitted` replays the next entries of the window. -/
theorem applyLoop_spec (k : Nat) : ∀ n : Node N, View n B V → n.snapshotLastIndex ≤ n.lastApplied →
    n.lastApplied + k ≤ V.length →
    (applyLoop k n).applyCh = n.applyCh ++ applyMsgs n.lastApplied ((V.drop n.lastApplied).take k) ∧
    (n.stateMachine < n.maps.length → (applyLoop k n).readMap n.stateMachine =
      replay (n.readMap n.stateMachine) ((V.drop n.lastApplied).take k)) ∧
    ∀ ref, ref ≠ n.stateMachine → (applyLoop k n).readMap ref = n.readMap ref := by
  induction k with
  | zero =>
    intro n _ _ _
    refine ⟨?_, fun _ => ?_, fun _ _ => rfl⟩
    · rw [List.take_zero]
      exact (List.append_nil _).symm
    · rw [List.take_zero]
      rfl
  | succ k ih =>
    intro n hv hidx hlen
    have hlt : n.lastApplied < V.length := by omega
    obtain ⟨e, he⟩ : ∃ e, V[n.lastApplied]? = some e := ⟨_, List.getElem?_eq_getElem hlt⟩
    have hnext := applyNext_eq hv hidx he
    have hdrop : (V.drop n.lastApplied).take (k + 1) =
        e :: (V.drop (n.lastApplied + 1)).take k := by
      have hcons : V.drop n.lastApplied = e :: V.drop (n.lastApplied + 1) := by
        rw [List.drop_eq_getElem_cons hlt, ← (List.getElem?_eq_some_iff.1 he).2]
      rw [hcons]
      rfl
    obtain ⟨-, hw, -, hla, -, -, -, hsm, -, hml⟩ := n.applyNext_frame
    have hw' := window_eq_iff.1 hw
    obtain ⟨i1, i2, i3⟩ := ih n.applyNext (hv.congr hw) (by rw [hw'.2.1, hla]; omega)
      (by rw [hla]; omega)
    rw [hla] at i1 i2
    rw [hsm] at i2 i3
    rw [hml] at i2
    rw [hdrop]
    refine ⟨?_, fun href => ?_, fun ref hne => ?_⟩
    · show (applyLoop k n.applyNext).applyCh = _
      rw [i1, hnext]
      simp [applyMsgs]
    · show (applyLoop k n.applyNext).readMap n.stateMachine = _
      have hread : n.applyNext.readMap n.stateMachine =
          applyCommand (n.readMap n.stateMachine) e.command := by
        rw [hnext]
        exact readMap_applyToStateMachine n e.command href
      rw [i2 href, hread]
      rfl
    · show (applyLoop k n.applyNext).readMap ref = _
      rw [i3 ref hne, hnext]
      exact readMap_applyToStateMachine_ne n e.command hne

end Apply

/-! ## Committing -/

/-- What committing up to `idx` and applying does to a node that has applied everything it has
committed. -/
structure CommitSpec (n n' : Node N) (V : List LogEntry) (idx : Nat) : Prop where
  control : n'.control = n.control
  window : n'.window = n.window
  commitIndex : n'.commitIndex = idx
  lastApplied : n'.lastApplied = idx
  matchIndex : n'.matchIndex = n.matchIndex
  snapshot : n'.snapshot = n.snapshot
  stateMachine : n'.stateMachine = n.stateMachine
  maps_length : n'.maps.length = n.maps.length
  committed : ∀ i e, (i, e) ∈ n'.committed ↔
    (i, e) ∈ n.committed ∨ (n.commitIndex < i ∧ i ≤ idx ∧ V[i - 1]? = some e)
  applyCh : n'.applyCh =
    n.applyCh ++ applyMsgs n.commitIndex ((V.drop n.commitIndex).take (idx - n.commitIndex))
  live : n.stateMachine < n.maps.length → n'.readMap n.stateMachine =
    replay (n.readMap n.stateMachine) ((V.drop n.commitIndex).take (idx - n.commitIndex))
  other : ∀ ref, ref ≠ n.stateMachine → n'.readMap ref = n.readMap ref

section Commit

variable {n : Node N} {B V : List LogEntry}

theorem mem_setCommitIndex (hv : View n B V) (hidx : n.snapshotLastIndex ≤ n.commitIndex)
    (idx i : Nat) (e : LogEntry) : (i, e) ∈ (n.setCommitIndex idx).committed ↔
      (i, e) ∈ n.committed ∨ (n.commitIndex < i ∧ i ≤ idx ∧ V[i - 1]? = some e) := by
  rw [setCommitIndex]
  rw [List.mem_append]
  refine or_congr Iff.rfl ?_
  rw [List.mem_filterMap]
  constructor
  · rintro ⟨j, hj, hm⟩
    rw [List.mem_range'_1] at hj
    rw [hv.entryAt_eq (by omega), Option.map_eq_some_iff] at hm
    obtain ⟨e', he', heq⟩ := hm
    cases heq
    exact ⟨by omega, by omega, he'⟩
  · rintro ⟨h1, h2, h3⟩
    refine ⟨i, List.mem_range'_1.2 ⟨by omega, by omega⟩, ?_⟩
    rw [hv.entryAt_eq (by omega), h3]
    rfl

/-- Committing up to `idx` and applying. -/
theorem commitTo_spec (hv : View n B V) (hidx : n.snapshotLastIndex ≤ n.commitIndex)
    (happ : n.lastApplied = n.commitIndex) {idx : Nat} (hlt : n.commitIndex ≤ idx)
    (hlen : idx ≤ V.length) : CommitSpec n (n.setCommitIndex idx).applyCommitted V idx := by
  have hv' : View (n.setCommitIndex idx) B V := hv.congr rfl
  have hloop := applyLoop_spec (idx - n.lastApplied) (n.setCommitIndex idx) hv'
    (by show n.snapshotLastIndex ≤ n.lastApplied; omega)
    (by show n.lastApplied + _ ≤ _; omega)
  have heq : (n.setCommitIndex idx).applyCommitted =
      applyLoop (idx - n.lastApplied) (n.setCommitIndex idx) := rfl
  rw [← heq] at hloop
  have hframe := applyLoop_frame (idx - n.lastApplied) (n.setCommitIndex idx)
  rw [← heq] at hframe
  obtain ⟨h1, h2, h3, h4, h5, h6, h7, h8, -, h10⟩ := hframe
  have hla : (n.setCommitIndex idx).lastApplied = n.commitIndex := happ
  rw [hla, happ] at hloop
  refine ⟨h1, h2, h3, ?_, h5, h7, h8, h10, fun i e => ?_, hloop.1, hloop.2.1, hloop.2.2⟩
  · rw [h4, hla]
    omega
  · rw [h6]
    exact mem_setCommitIndex hv hidx idx i e

theorem followCommit_spec (hv : View n B V) (hidx : n.snapshotLastIndex ≤ n.commitIndex)
    (happ : n.lastApplied = n.commitIndex) {lc : Nat} (hlen : n.commitIndex < lc → lc ≤ V.length) :
    (lc ≤ n.commitIndex ∧ n.followCommit lc = n) ∨
      (n.commitIndex < lc ∧ CommitSpec n (n.followCommit lc) V lc) := by
  rw [followCommit]
  rcases Nat.lt_or_ge n.commitIndex lc with hlt | hge
  · refine Or.inr ⟨hlt, ?_⟩
    rw [if_pos hlt]
    dsimp only
    have hle := hlen hlt
    have hnew : (if lc < n.snapshotLastIndex + n.log.length then lc
        else n.snapshotLastIndex + n.log.length) = lc := by
      rw [← hv.virt_len]
      split <;> omega
    rw [hnew]
    exact commitTo_spec hv hidx happ (le_of_lt hlt) hle
  · exact Or.inl ⟨hge, if_neg (by omega)⟩

/-! ## Compaction -/

/-- Compaction moves the window up to `commitIndex` and copies the live map. -/
theorem maybeSnapshot_spec (hv : View n B V) (hBV : B <+: V) (hlen : n.commitIndex ≤ V.length) :
    n.maybeSnapshot = n ∨
      (n.snapshotLastIndex < n.commitIndex ∧ B <+: V.take n.commitIndex ∧
        View n.maybeSnapshot (V.take n.commitIndex) V ∧
        n.maybeSnapshot.snapshotLastIndex = n.commitIndex ∧
        (∃ term, n.maybeSnapshot.snapshot = some ⟨n.commitIndex, term, n.maps.length⟩) ∧
        n.maybeSnapshot.maps = n.maps ++ [n.readMap n.stateMachine]) := by
  rw [maybeSnapshot]
  split
  case isTrue => exact Or.inl rfl
  case isFalse =>
    dsimp only
    split
    case isTrue => exact Or.inl rfl
    case isFalse hrange =>
      split
      case h_1 => exact Or.inl rfl
      case h_2 e he =>
        have hlt : n.snapshotLastIndex < n.commitIndex := by omega
        have hlocal : ((n.commitIndex : Int) - n.snapshotLastIndex - 1).toNat =
            n.commitIndex - n.snapshotLastIndex - 1 := by omega
        have hbase : (V.take n.commitIndex).length = n.commitIndex := by
          rw [List.length_take]
          omega
        have hdrop : n.log.drop (((n.commitIndex : Int) - n.snapshotLastIndex - 1).toNat + 1) =
            V.drop n.commitIndex := by
          rw [hlocal, ← hv.virt_drop, List.drop_drop]
          congr 1
          omega
        have hterm : e.term = lastTerm tm (V.take n.commitIndex) := by
          rw [hlocal, hv.log_getElem?] at he
          have hpos : n.snapshotLastIndex + (n.commitIndex - n.snapshotLastIndex - 1) =
              n.commitIndex - 1 := by omega
          rw [hpos] at he
          have hget : termAt tm V (n.commitIndex - 1 + 1) = e.term := termAt_of_getElem? he
          rw [lastTerm, hbase, termAt_take (le_refl _), ← hget]
          congr 1
          omega
        refine Or.inr ⟨hlt, ?_, ⟨hbase, hterm, ?_, hdrop.symm, fun hnil => ?_⟩, rfl, ⟨_, rfl⟩, rfl⟩
        · exact List.prefix_of_prefix_length_le hBV (List.take_prefix _ _) (by rw [hbase, hv.base_len]; omega)
        · show V.length = n.commitIndex + (n.log.drop _).length
          rw [hdrop, List.length_drop]
          omega
        · have hnil' : V.drop n.commitIndex = [] := hdrop.symm.trans hnil
          rw [List.drop_eq_nil_iff] at hnil'
          exact (List.take_of_length_le hnil').symm

/-! ## The search for a commit index -/

theorem commitTarget_spec (n : Node N) (k : Nat) : ∀ {idx : Nat}, n.commitTarget k = some idx →
    n.commitIndex < idx ∧ ∃ e, n.entryAt idx = some e ∧ e.term = n.currentTerm ∧
      ((peers n.id).length + 1) / 2 + 1 ≤ n.replicated idx := by
  induction k with
  | zero =>
    intro idx h
    exact absurd h (by simp [commitTarget])
  | succ k ih =>
    intro idx h
    simp only [commitTarget] at h
    split at h
    case isFalse => exact absurd h (by simp)
    case isTrue hlt =>
      split at h
      case h_1 => exact ih h
      case h_2 e he =>
        split at h
        case isTrue => exact ih h
        case isFalse hterm =>
          split at h
          case isTrue hmaj =>
            cases h
            exact ⟨hlt, e, he, not_not.1 hterm, hmaj⟩
          case isFalse => exact ih h

end Commit

end Node

end SystemDesignLabs.Raft
