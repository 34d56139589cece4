import SystemDesignLabs.Core.LeaderLog
import SystemDesignLabs.Raft.Frame

/-!
# The held log as a window

A node that has compacted its log holds a window of it. `View n B V` describes the node `n` by two
complete logs: `B` is the prefix that was compacted away, of length `snapshotLastIndex`, and `V` is a
log whose part above `snapshotLastIndex` is the slice `log`. Usually `B` is a prefix of `V`, but not
always: `HandleInstallSnapshot` keeps the tail of the old log without looking at the entry below it,
and then `V` is the old log and `B` the prefix that the snapshot stands for.

This module says what the log functions of the source do in terms of `B` and `V`. The main result is
`appendEntries_spec`: a request built from a log `M` that passes the consistency check leaves `V`
unchanged or replaces it by `M`.
-/

namespace SystemDesignLabs.Raft

open List Core Or

variable {N : Nat}

/-- The term of an entry. -/
abbrev tm : LogEntry → Nat := LogEntry.term

namespace Node

/-- `B` is the compacted prefix of the node and `V` a log whose upper part is the held slice. -/
structure View (n : Node N) (B V : List LogEntry) : Prop where
  base_len : B.length = n.snapshotLastIndex
  base_term : n.snapshotLastTerm = lastTerm tm B
  virt_len : V.length = n.snapshotLastIndex + n.log.length
  virt_drop : V.drop n.snapshotLastIndex = n.log
  virt_nil : n.log = [] → V = B

theorem View.congr {n n' : Node N} {B V : List LogEntry} (h : View n B V)
    (hw : n'.window = n.window) : View n' B V := by
  obtain ⟨h1, h2, h3⟩ := window_eq_iff.1 hw
  exact ⟨h2 ▸ h.base_len, h3 ▸ h.base_term, by rw [h1, h2]; exact h.virt_len,
    by rw [h1, h2]; exact h.virt_drop, by rw [h1]; exact h.virt_nil⟩

section View

variable {n : Node N} {B V : List LogEntry} (hv : View n B V)
include hv

theorem View.le_length : n.snapshotLastIndex ≤ V.length := by
  rw [hv.virt_len]
  omega

theorem View.log_getElem? (j : Nat) : n.log[j]? = V[n.snapshotLastIndex + j]? := by
  rw [← hv.virt_drop, getElem?_drop]

theorem View.lastLogInfo_eq : n.lastLogInfo = (V.length, lastTerm tm V) := by
  rw [lastLogInfo]
  rcases eq_nil_or_concat n.log with hnil | ⟨l, e, hl⟩
  · rw [hnil]
    have hVB := hv.virt_nil hnil
    simp only [getLast?_nil]
    rw [hVB, hv.base_len, hv.base_term]
  · have hlast : n.log.getLast? = some e := by simp [hl]
    rw [hlast]
    have hlen : n.log.length = l.length + 1 := by simp [hl]
    have hget : V[n.snapshotLastIndex + l.length]? = some e := by
      rw [← hv.log_getElem?, hl]
      simp
    simp only [Prod.mk.injEq]
    refine ⟨hv.virt_len.symm, ?_⟩
    rw [lastTerm, hv.virt_len, hlen, ← Nat.add_assoc]
    exact (termAt_of_getElem? hget).symm

theorem View.entryAt_eq {k : Nat} (hk : n.snapshotLastIndex < k) : n.entryAt k = V[k - 1]? := by
  rw [entryAt]
  rw [if_pos hk, hv.log_getElem?]
  congr 1
  omega

end View

theorem entryAt_of_le {n : Node N} {k : Nat} (hk : k ≤ n.snapshotLastIndex) : n.entryAt k = none := by
  rw [entryAt]
  rw [if_neg (by omega)]

/-! ## The consistency check -/

section Check

variable {L : Ledger LogEntry} {n : Node N} {B V M : List LogEntry}

theorem checkPrevLog_none (hL : L.WellFormed tm) (hv : View n B V) (hB : L.Valid tm B)
    (hV : L.Valid tm V) (hM : L.Valid tm M) {prev : Nat} (h : n.checkPrevLog prev (termAt tm M prev) = none) :
    prev < n.snapshotLastIndex ∨ (prev = n.snapshotLastIndex ∧ prev ≤ M.length ∧ M.take prev = B) ∨
      (n.snapshotLastIndex < prev ∧ prev ≤ V.length ∧ prev ≤ M.length ∧ V.take prev = M.take prev) := by
  rcases Nat.lt_trichotomy prev n.snapshotLastIndex with hlt | heq | hgt
  · exact inl hlt
  · refine inr (inl ⟨heq, ?_⟩)
    rcases Nat.eq_zero_or_pos prev with h0 | hpos
    · have hB0 : B = [] := length_eq_zero_iff.1 (by rw [hv.base_len, ← heq, h0])
      exact ⟨by omega, by rw [h0, hB0, take_zero]⟩
    · have hterm : termAt tm M prev = termAt tm B prev := by
        rw [checkPrevLog] at h
        rw [if_pos hpos] at h
        dsimp only at h
        rw [if_neg (by omega), if_pos (by omega)] at h
        by_contra hne
        rw [hv.base_term, lastTerm, hv.base_len, ← heq, if_pos hne] at h
        exact absurd h (by simp)
      have hBlen : B.length = prev := hv.base_len.trans heq.symm
      have hBpos := hB.termAt_pos hL hpos (le_of_eq hBlen.symm)
      have hle : prev ≤ M.length := by
        by_contra hcon
        rw [termAt_of_length_lt (by omega)] at hterm
        omega
      refine ⟨hle, ?_⟩
      rw [hM.take_eq_of_termAt_eq hB hle (le_of_eq hBlen.symm) hterm, ← hBlen, take_length]
  · refine inr (inr ⟨hgt, ?_⟩)
    rw [checkPrevLog] at h
    rw [if_pos (by omega)] at h
    dsimp only at h
    rw [if_neg (by omega), if_neg (by omega)] at h
    have hidx : ((prev : Int) - n.snapshotLastIndex - 1).toNat = prev - n.snapshotLastIndex - 1 := by
      omega
    rw [hidx, hv.log_getElem?] at h
    have hpos : n.snapshotLastIndex + (prev - n.snapshotLastIndex - 1) = prev - 1 := by omega
    rw [hpos] at h
    split at h
    · exact absurd h (by simp)
    · rename_i e he
      have hVlen : prev - 1 < V.length := (List.getElem?_eq_some_iff.1 he).1
      have hVt : termAt tm V prev = e.term := by
        have : termAt tm V (prev - 1 + 1) = tm e := termAt_of_getElem? he
        rwa [Nat.sub_add_cancel (by omega)] at this
      split at h
      · exact absurd h (by simp)
      · rename_i hterm
        have hterm' : termAt tm V prev = termAt tm M prev := hVt.trans (not_not.1 hterm)
        have hVpos := hV.termAt_pos hL (by omega) (by omega : prev ≤ V.length)
        have hle : prev ≤ M.length := by
          by_contra hcon
          rw [hterm', termAt_of_length_lt (by omega)] at hVpos
          omega
        exact ⟨by omega, hle, hV.take_eq_of_termAt_eq hM (by omega) hle hterm'⟩

/-! ## Appending -/

theorem drop_take_eq {l : List LogEntry} {i j : Nat} : (l.drop i).take j = (l.take (i + j)).drop i := by
  rw [drop_take]
  congr 1
  omega

/-- Appending the entries of `M` above an index where `V` and `M` agree: the slice is kept if `V`
extends `M`, otherwise it becomes the slice of `M`. -/
theorem appendFrom_eq (hV : L.Valid tm V) (hM : L.Valid tm M) (k : Nat) :
    ∀ (entries : List LogEntry) (idx : Nat), M.drop (k + idx) = entries → k + idx ≤ V.length →
      k + idx ≤ M.length → V.take (k + idx) = M.take (k + idx) →
      (M <+: V ∧ appendFrom (V.drop k) idx entries = V.drop k) ∨
        (¬ M <+: V ∧ appendFrom (V.drop k) idx entries = M.drop k) := by
  intro entries
  induction entries with
  | nil =>
    intro idx hent hVlen hMlen heq
    have hlen : M.length ≤ k + idx := drop_eq_nil_iff.1 hent
    refine inl ⟨?_, rfl⟩
    rw [← take_of_length_le hlen, ← heq]
    exact take_prefix _ _
  | cons e rest ih =>
    intro idx hent hVlen hMlen heq
    have hMget : M[k + idx]? = some e := by
      have := congrArg (fun l => l[0]?) hent
      simpa [getElem?_drop] using this
    have hMlt : k + idx < M.length := (List.getElem?_eq_some_iff.1 hMget).1
    have hrest : M.drop (k + (idx + 1)) = rest := by
      rw [← Nat.add_assoc, ← tail_drop, hent, tail_cons]
    -- the part of `V` below the position, followed by the entries, is the slice of `M`
    have hjoin : (V.drop k).take idx ++ e :: rest = M.drop k := by
      rw [drop_take_eq, heq, ← hent, ← drop_take_eq, ← drop_drop]
      exact take_append_drop idx (M.drop k)
    rw [appendFrom]
    rw [getElem?_drop]
    cases hVget : V[k + idx]? with
    | none =>
      have hlen : V.length = k + idx := by
        have := getElem?_eq_none_iff.1 hVget
        omega
      refine inr ⟨fun hpre => ?_, ?_⟩
      · have := hpre.length_le
        omega
      · rw [← hjoin, take_of_length_le (by rw [length_drop]; omega)]
    | some e' =>
      dsimp only
      split
      · rename_i hne
        refine inr ⟨fun hpre => ?_, hjoin⟩
        obtain ⟨r, rfl⟩ := hpre
        rw [getElem?_append_left hMlt, hMget] at hVget
        exact hne (congrArg LogEntry.term (Option.some.inj hVget).symm)
      · rename_i hterm
        have hVlt : k + idx < V.length := (List.getElem?_eq_some_iff.1 hVget).1
        have ht : termAt tm V (k + idx + 1) = termAt tm M (k + idx + 1) := by
          rw [termAt_of_getElem? hVget, termAt_of_getElem? hMget]
          exact not_not.1 hterm
        exact ih (idx + 1) hrest hVlt hMlt (hV.take_eq_of_termAt_eq hM hVlt hMlt ht)

theorem appendFrom_garbage (hV : L.Valid tm V) (hM : L.Valid tm M) {k : Nat}
    (hlog : V.drop k ≠ []) (hent : M.drop k ≠ []) (hne : V.take k ≠ M.take k) :
    appendFrom (V.drop k) 0 (M.drop k) = M.drop k := by
  obtain ⟨e, rest, hM'⟩ := exists_cons_of_ne_nil hent
  obtain ⟨e', rest', hV'⟩ := exists_cons_of_ne_nil hlog
  have hMget : M[k]? = some e := by
    have := congrArg (fun l => l[0]?) hM'
    simpa [getElem?_drop] using this
  have hVget : V[k]? = some e' := by
    have := congrArg (fun l => l[0]?) hV'
    simpa [getElem?_drop] using this
  have hMlt : k < M.length := (List.getElem?_eq_some_iff.1 hMget).1
  have hVlt : k < V.length := (List.getElem?_eq_some_iff.1 hVget).1
  rw [hM', hV']
  rw [appendFrom]
  simp only [getElem?_cons_zero]
  rw [if_pos]
  · rfl
  · intro hterm
    have ht : termAt tm V (k + 1) = termAt tm M (k + 1) := by
      rw [termAt_of_getElem? hVget, termAt_of_getElem? hMget]
      exact hterm
    have htake := hV.take_eq_of_termAt_eq hM hVlt hMlt ht
    refine hne ?_
    have := congrArg (take k) htake
    rwa [take_take, take_take, Nat.min_eq_left (by omega)] at this

/-- The entries and the previous term of the request are those of the log `M`. -/
structure FromLog (args : AppendEntriesArgs N) (M : List LogEntry) : Prop where
  entries : args.entries = M.drop args.prevLogIndex
  prevLogTerm : args.prevLogTerm = termAt tm M args.prevLogIndex

variable {args : AppendEntriesArgs N}

theorem FromLog.newMatch (h : FromLog args M) (hle : args.prevLogIndex ≤ M.length) :
    args.prevLogIndex + args.entries.length = M.length := by
  rw [h.entries, length_drop]
  omega

theorem appendEntries_log (n : Node N) (args : AppendEntriesArgs N) : (n.appendEntries args).log =
      appendFrom n.log (args.prevLogIndex - n.snapshotLastIndex) args.entries := by
  have hidx : (if (args.prevLogIndex : Int) - n.snapshotLastIndex < 0 then (0 : Int)
      else args.prevLogIndex - n.snapshotLastIndex).toNat =
      args.prevLogIndex - n.snapshotLastIndex := by
    split <;> omega
  show appendFrom n.log _ args.entries = _
  rw [hidx]

theorem View.replace (hv : View n B V) (hBM : B <+: M) {n' : Node N} (hlog : n'.log = M.drop n.snapshotLastIndex)
    (hidx : n'.snapshotLastIndex = n.snapshotLastIndex)
    (hterm : n'.snapshotLastTerm = n.snapshotLastTerm) : View n' B M := by
  have hle : n.snapshotLastIndex ≤ M.length := hv.base_len ▸ hBM.length_le
  refine ⟨by rw [hidx, hv.base_len], by rw [hterm, hv.base_term], ?_, by rw [hidx, hlog], ?_⟩
  · rw [hidx, hlog, length_drop]
    omega
  · intro hnil
    rw [hlog, drop_eq_nil_iff] at hnil
    exact (hBM.eq_of_length (by rw [hv.base_len]; omega)).symm

/-- Appending a request that passed the consistency check. The request was built from the log
`M`, which like the compacted prefix `B` is a prefix of the leader's log `l`, and its entries do not
start inside the snapshot. Then the window stays as it is, and `V` extends `M` or the request ends
inside the snapshot; or the window becomes a window of `M`. -/
theorem appendEntries_spec (hL : L.WellFormed tm) (hv : View n B V) (hV : L.Valid tm V) {l : List LogEntry}
    (hl : L.Valid tm l) (hBl : B <+: l) (hMl : M <+: l) (hargs : FromLog args M)
    (hlow : args.entries ≠ [] → n.snapshotLastIndex ≤ args.prevLogIndex)
    (hok : n.checkPrevLog args.prevLogIndex args.prevLogTerm = none) : (n.appendEntries args = n ∧
      ((M <+: V ∧ args.prevLogIndex + args.entries.length = M.length) ∨ (M.length ≤ n.snapshotLastIndex ∧
          args.prevLogIndex + args.entries.length ≤ n.snapshotLastIndex))) ∨
      (¬ M <+: V ∧ B <+: M ∧ View (n.appendEntries args) B M ∧ args.prevLogIndex + args.entries.length = M.length) := by
  have hB := hl.of_isPrefix hBl
  have hM := hl.of_isPrefix hMl
  have hsame : (n.appendEntries args).log = n.log → n.appendEntries args = n := by
    intro h
    exact congrArg (fun log => { n with log := log }) h
  have hlog := n.appendEntries_log args
  rw [hargs.prevLogTerm] at hok
  -- the slice of `M` replaces the one of the node
  have hswitch : args.prevLogIndex ≤ M.length → n.snapshotLastIndex ≤ args.prevLogIndex →
      ¬ M <+: V → (n.appendEntries args).log = M.drop n.snapshotLastIndex →
      ¬ M <+: V ∧ B <+: M ∧ View (n.appendEntries args) B M ∧
        args.prevLogIndex + args.entries.length = M.length := by
    intro hle hprev hnot hnew
    have hBM : B <+: M := prefix_of_prefix_length_le hBl hMl (by rw [hv.base_len]; omega)
    exact ⟨hnot, hBM, hv.replace hBM hnew rfl rfl, hargs.newMatch hle⟩
  rcases checkPrevLog_none hL hv hB hV hM hok with hlt | ⟨heq, hle, htake⟩ | ⟨hgt, hleV, hleM, htake⟩
  · -- inside the snapshot: there is nothing to append
    have hnil : args.entries = [] := by
      by_contra hne
      have := hlow hne
      omega
    have hMlen : M.length ≤ args.prevLogIndex := by
      rw [← drop_eq_nil_iff, ← hargs.entries, hnil]
    refine inl ⟨hsame ?_, inr ⟨by omega, ?_⟩⟩
    · rw [hlog, hnil]
      rfl
    · rw [hnil, length_nil]
      omega
  · have hidx : args.prevLogIndex - n.snapshotLastIndex = 0 := by omega
    rw [hidx, hargs.entries, ← hv.virt_drop, heq] at hlog
    by_cases hagree : V.take args.prevLogIndex = M.take args.prevLogIndex
    · rw [heq] at hagree
      have h := appendFrom_eq hV hM n.snapshotLastIndex (M.drop n.snapshotLastIndex) 0 rfl
        hv.le_length (by omega) hagree
      rcases h with ⟨hpre, hkeep⟩ | ⟨hnot, hnew⟩
      · refine inl ⟨hsame ?_, inl ⟨hpre, hargs.newMatch hle⟩⟩
        rw [hlog, hkeep, hv.virt_drop]
      · exact inr (hswitch hle (by omega) hnot (hlog.trans hnew))
    · by_cases hnil : args.entries = []
      · have hMlen : M.length ≤ args.prevLogIndex := by
          rw [← drop_eq_nil_iff, ← hargs.entries, hnil]
        refine inl ⟨hsame ?_, inr ⟨by omega, ?_⟩⟩
        · rw [hlog, ← heq, ← hargs.entries, hnil, heq, hv.virt_drop]
          rfl
        · rw [hnil, length_nil]
          omega
      · have hVne : V.drop n.snapshotLastIndex ≠ [] := by
          intro hcon
          rw [hv.virt_drop] at hcon
          refine hagree ?_
          rw [htake, hv.virt_nil hcon, heq, ← hv.base_len, take_length]
        have hMne : M.drop n.snapshotLastIndex ≠ [] := by
          rw [← heq, ← hargs.entries]
          exact hnil
        rw [appendFrom_garbage hV hM hVne hMne (by rw [← heq]; exact hagree)] at hlog
        refine inr (hswitch hle (by omega) (fun hpre => hagree ?_) hlog)
        exact (take_eq_of_isPrefix hpre hle).symm
  · have hidx : n.snapshotLastIndex + (args.prevLogIndex - n.snapshotLastIndex) =
        args.prevLogIndex := by omega
    have h := appendFrom_eq hV hM n.snapshotLastIndex args.entries
      (args.prevLogIndex - n.snapshotLastIndex) (by rw [hidx, hargs.entries]) (by omega) (by omega)
      (by rw [hidx]; exact htake)
    rw [hv.virt_drop] at h
    rcases h with ⟨hpre, hkeep⟩ | ⟨hnot, hnew⟩
    · exact inl ⟨hsame (hlog.trans hkeep), inl ⟨hpre, hargs.newMatch hleM⟩⟩
    · exact inr (hswitch hleM (by omega) hnot (hlog.trans hnew))

end Check

/-! ## Building requests -/

section Build

variable {n : Node N} {B V : List LogEntry}

theorem buildAppend_spec (hv : View n B V) (hBV : B <+: V) {ni : Nat}
    (hni : n.snapshotLastIndex < ni) (term commitIndex : Nat) : FromLog (n.buildAppend ni term commitIndex) V := by
  have hstart : ((ni : Int) - n.snapshotLastIndex - 1).toNat = ni - 1 - n.snapshotLastIndex := by
    omega
  refine ⟨?_, ?_⟩
  · show (if _ then n.log.drop ((ni : Int) - n.snapshotLastIndex - 1).toNat else []) =
      V.drop (ni - 1)
    have hdrop : n.log.drop (ni - 1 - n.snapshotLastIndex) = V.drop (ni - 1) := by
      rw [← hv.virt_drop, drop_drop]
      congr 1
      omega
    split
    · rw [hstart, hdrop]
    · rename_i hrange
      rw [← hdrop, eq_comm, drop_eq_nil_iff]
      omega
  · show (if ni - 1 > n.snapshotLastIndex then ((n.log[ni - 1 - n.snapshotLastIndex - 1]?).map LogEntry.term).getD 0
        else if ni - 1 = n.snapshotLastIndex then n.snapshotLastTerm else 0) = termAt tm V (ni - 1)
    split
    · rename_i hgt
      obtain ⟨k, hk⟩ : ∃ k, ni - 1 = k + 1 := ⟨ni - 2, by omega⟩
      rw [hv.log_getElem?, hk, termAt_succ]
      have hidx : n.snapshotLastIndex + (k + 1 - n.snapshotLastIndex - 1) = k := by omega
      rw [hidx]
    · have heq : ni - 1 = n.snapshotLastIndex := by omega
      rw [if_pos heq, heq, hv.base_term, lastTerm, hv.base_len]
      exact termAt_isPrefix hBV (le_of_eq hv.base_len.symm)

theorem installSnapshot_view (hv : View n B V) {P : List LogEntry} {args : InstallSnapshotArgs N}
    (hlen : P.length = args.lastIncludedIndex) (hterm : lastTerm tm P = args.lastIncludedTerm)
    (hnew : n.snapshotLastIndex < args.lastIncludedIndex) :
    View (n.installSnapshot args) P (if V.length ≤ P.length then P else V) := by
  have hlog : (n.installSnapshot args).log = V.drop args.lastIncludedIndex := by
    show (if args.lastIncludedIndex - n.snapshotLastIndex ≥ n.log.length then []
      else n.log.drop (args.lastIncludedIndex - n.snapshotLastIndex)) = _
    have hdrop : n.log.drop (args.lastIncludedIndex - n.snapshotLastIndex) =
        V.drop args.lastIncludedIndex := by
      rw [← hv.virt_drop, drop_drop]
      congr 1
      omega
    split
    · rename_i hge
      rw [← hdrop, eq_comm, drop_eq_nil_iff]
      omega
    · exact hdrop
  have hidx : (n.installSnapshot args).snapshotLastIndex = args.lastIncludedIndex := rfl
  by_cases hle : V.length ≤ P.length
  · have hnil : (n.installSnapshot args).log = [] := by
      rw [hlog, drop_eq_nil_iff]
      omega
    rw [if_pos hle]
    refine ⟨by rw [hidx, hlen], hterm.symm, by rw [hnil, hidx, hlen]; simp, ?_, fun _ => rfl⟩
    rw [hnil, hidx, drop_eq_nil_iff]
    omega
  · rw [if_neg hle]
    refine ⟨by rw [hidx, hlen], hterm.symm, ?_, by rw [hlog, hidx], fun hnil => ?_⟩
    · rw [hlog, hidx, length_drop]
      omega
    · rw [hlog, drop_eq_nil_iff] at hnil
      omega

theorem View.append (hv : View n B V) (hBV : B <+: V) (e : LogEntry) {n' : Node N}
    (hlog : n'.log = n.log ++ [e]) (hidx : n'.snapshotLastIndex = n.snapshotLastIndex)
    (hterm : n'.snapshotLastTerm = n.snapshotLastTerm) : View n' B (V ++ [e]) := by
  refine hv.replace (hBV.trans (prefix_append _ _)) ?_ hidx hterm
  rw [hlog, drop_append_of_le_length hv.le_length, hv.virt_drop]

end Build

end Node

end SystemDesignLabs.Raft
