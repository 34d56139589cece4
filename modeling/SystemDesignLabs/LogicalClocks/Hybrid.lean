import Mathlib

/-!
# Hybrid logical clocks

`HLC` of `labs/logical-clocks/pkg/clocks/clocks.go` (v2). A timestamp has the largest wall time that was seen, and a
counter that tells timestamps with the same wall time apart. The counter has 16 bits and is incremented without a
check: after 65535 it is 0 again, and the timestamp goes back. `increasing_iff` says that this is the only way in which
the timestamps of a run fail to increase.

Wall times are only compared, so integers stand for them; a reading is an argument of the operation that takes it.
-/

namespace SystemDesignLabs.LogicalClocks

structure HLCTimestamp where
  wall : Int
  counter : UInt16
  deriving DecidableEq

def HLCTimestamp.less (t other : HLCTimestamp) : Bool :=
  if t.wall ≠ other.wall then t.wall < other.wall else t.counter < other.counter

structure HLC where
  wallMs : Int
  counter : UInt16
  deriving DecidableEq

namespace HLC

/-- `NewHLC`. -/
def new : HLC := ⟨0, 0⟩

def timestamp (h : HLC) : HLCTimestamp := ⟨h.wallMs, h.counter⟩

/-- The clock after `Now`, where the wall clock reads `wNow`. -/
def now (h : HLC) (wNow : Int) : HLC :=
  if wNow > h.wallMs then ⟨wNow, 0⟩ else ⟨h.wallMs, h.counter + 1⟩

/-- The clock after `Receive`. -/
def receive (h : HLC) (msg : HLCTimestamp) (wNow : Int) : HLC :=
  let newWall := if msg.wall > h.wallMs then msg.wall else h.wallMs
  let newWall := if wNow > newWall then wNow else newWall
  let newCounter :=
    if newWall = h.wallMs ∧ newWall = msg.wall then
      if h.counter > msg.counter then h.counter + 1 else msg.counter + 1
    else if newWall = h.wallMs then h.counter + 1
    else if newWall = msg.wall then msg.counter + 1
    else 0
  ⟨newWall, newCounter⟩

/-- A call, with what the wall clock reads. -/
inductive Op where
  | now (wNow : Int)
  | receive (msg : HLCTimestamp) (wNow : Int)
  deriving DecidableEq

/-- The clock after a call. The call returns the timestamp of that clock. -/
def apply (h : HLC) : Op → HLC
  | .now wNow => h.now wNow
  | .receive msg wNow => h.receive msg wNow

/-- The calls with the timestamps that they return. -/
def run : HLC → List Op → List (Op × HLCTimestamp)
  | _, [] => []
  | h, op :: ops => (op, (h.apply op).timestamp) :: run (h.apply op) ops

/-! ### What increases -/

/-- Each timestamp is greater than all that were returned before, and than the message that was received. -/
structure Increasing (calls : List (Op × HLCTimestamp)) : Prop where
  returned : calls.Pairwise fun p q => p.2.less q.2 = true
  received : ∀ msg wNow t, (.receive msg wNow, t) ∈ calls → msg.less t = true

instance (calls : List (Op × HLCTimestamp)) : Decidable (Increasing calls) :=
  let received := calls.all fun
    | (.receive msg _, t) => msg.less t
    | (.now _, _) => true
  have hreceived : received = true ↔ ∀ msg wNow t, (.receive msg wNow, t) ∈ calls → msg.less t = true := by
    rw [List.all_eq_true]
    constructor
    · exact fun h msg wNow t hmem => h _ hmem
    · rintro h ⟨op, t⟩ hmem
      cases op with
      | now wNow => rfl
      | receive msg wNow => exact h msg wNow t hmem
  decidable_of_iff ((calls.Pairwise fun p q => p.2.less q.2 = true) ∧ received = true)
    ⟨fun h => ⟨h.1, hreceived.1 h.2⟩, fun h => ⟨h.1, hreceived.2 h.2⟩⟩

/-- The call increments a counter that is at its end: the clock's own or that of the message, whichever belongs to
the largest wall time. -/
def Wraps (h : HLC) : Op → Prop
  | .now wNow => wNow ≤ h.wallMs ∧ h.counter = 65535
  | .receive msg wNow =>
    h.counter = 65535 ∧ msg.wall ≤ h.wallMs ∧ wNow ≤ h.wallMs ∨
      msg.counter = 65535 ∧ h.wallMs ≤ msg.wall ∧ wNow ≤ msg.wall

/-- No call of the run increments a counter that is at its end. -/
def NeverWraps : HLC → List Op → Prop
  | _, [] => True
  | h, op :: ops => ¬ h.Wraps op ∧ NeverWraps (h.apply op) ops

/-! ### One call -/

theorem less_iff {t other : HLCTimestamp} : t.less other = true ↔
      t.wall < other.wall ∨ t.wall = other.wall ∧ t.counter.toNat < other.counter.toNat := by
  rw [HLCTimestamp.less]
  split
  · next hne =>
    rw [decide_eq_true_iff]
    exact ⟨.inl, fun h => h.resolve_right fun heq => hne heq.1⟩
  · next heq =>
    rw [not_ne_iff] at heq
    rw [decide_eq_true_iff, UInt16.lt_iff_toNat_lt]
    exact ⟨fun h => .inr ⟨heq, h⟩, fun h => (h.resolve_left (by omega)).2⟩

theorem less_trans {t u v : HLCTimestamp} (h : t.less u = true) (h' : u.less v = true) : t.less v = true := by
  rw [less_iff] at h h' ⊢
  omega

theorem toNat_succ (c : UInt16) : (c + 1).toNat = if c = 65535 then 0 else c.toNat + 1 := by
  have hlt := c.toNat_lt
  have hend : c = 65535 ↔ c.toNat = 65535 := UInt16.toNat_inj.symm
  rw [UInt16.toNat_add]
  show (c.toNat + 1) % 2 ^ 16 = _
  split
  · next heq =>
    rw [hend.1 heq]
  · next hne =>
    rw [hend] at hne
    exact Nat.mod_eq_of_lt (by omega)

theorem less_of_wall_lt {t other : HLCTimestamp} (h : t.wall < other.wall) : t.less other = true :=
  less_iff.2 (.inl h)

theorem less_succ_iff {w : Int} {c : UInt16} : (⟨w, c⟩ : HLCTimestamp).less ⟨w, c + 1⟩ = true ↔ c ≠ 65535 := by
  rw [less_iff, toNat_succ]
  split
  · next heq =>
    simp [heq]
  · next hne =>
    exact ⟨fun _ => hne, fun _ => .inr ⟨rfl, Nat.lt_succ_self _⟩⟩

theorem less_succ_of_le {w : Int} {b c : UInt16} (hle : b.toNat ≤ c.toNat) (hne : c ≠ 65535) :
    (⟨w, b⟩ : HLCTimestamp).less ⟨w, c + 1⟩ = true := by
  rw [less_iff, toNat_succ, if_neg hne]
  exact .inr ⟨rfl, Nat.lt_succ_of_le hle⟩

section Calls

variable {h : HLC} {msg : HLCTimestamp} {wNow : Int}

theorem receive_of_wall (hown : h.wallMs < wNow) (hmsg : msg.wall < wNow) : h.receive msg wNow = ⟨wNow, 0⟩ := by
  simp only [receive]
  grind

theorem receive_of_own (hmsg : msg.wall < h.wallMs) (hnow : wNow ≤ h.wallMs) :
    h.receive msg wNow = ⟨h.wallMs, h.counter + 1⟩ := by
  simp only [receive]
  grind

theorem receive_of_msg (hmsg : h.wallMs < msg.wall) (hnow : wNow ≤ msg.wall) :
    h.receive msg wNow = ⟨msg.wall, msg.counter + 1⟩ := by
  simp only [receive]
  grind

theorem receive_of_both (hmsg : h.wallMs = msg.wall) (hnow : wNow ≤ msg.wall) :
    h.receive msg wNow = ⟨msg.wall, if h.counter > msg.counter then h.counter + 1 else msg.counter + 1⟩ := by
  simp only [receive]
  grind

/-- The timestamp is greater than the last one, and than the message. -/
def Grows (h : HLC) (op : Op) : Prop :=
  h.timestamp.less (h.apply op).timestamp = true ∧
    ∀ msg wNow, op = .receive msg wNow → msg.less (h.apply op).timestamp = true

theorem grows_receive_iff : h.Grows (.receive msg wNow) ↔ h.timestamp.less (h.receive msg wNow).timestamp = true ∧
      msg.less (h.receive msg wNow).timestamp = true := by
  refine and_congr_right fun _ => ⟨fun hall => hall msg wNow rfl, fun hmsg msg' wNow' heq => ?_⟩
  cases heq
  exact hmsg

/-- A call makes the timestamps grow exactly when it does not increment a counter at its end. -/
theorem grows_iff (op : Op) : h.Grows op ↔ ¬ h.Wraps op := by
  cases op with
  | now wNow =>
    have hgrows : h.Grows (.now wNow) ↔ h.timestamp.less (h.now wNow).timestamp = true :=
      ⟨fun hg => hg.1, fun hless => ⟨hless, fun _ _ heq => nomatch heq⟩⟩
    rw [hgrows, now, Wraps]
    by_cases hwall : wNow > h.wallMs
    · rw [if_pos hwall]
      exact ⟨fun _ hwraps => absurd hwraps.1 (Int.not_le.2 hwall), fun _ => less_of_wall_lt hwall⟩
    · rw [if_neg hwall]
      have hle : wNow ≤ h.wallMs := Int.not_lt.1 hwall
      exact less_succ_iff.trans ⟨fun hne hwraps => hne hwraps.2, fun hwraps hend => hwraps ⟨hle, hend⟩⟩
  | receive msg wNow =>
    rw [grows_receive_iff, Wraps]
    by_cases hwall : h.wallMs < wNow ∧ msg.wall < wNow
    · -- the wall clock is ahead of both
      rw [receive_of_wall hwall.1 hwall.2]
      refine ⟨fun _ hwraps => ?_, fun _ => ⟨less_of_wall_lt hwall.1, less_of_wall_lt hwall.2⟩⟩
      omega
    · rcases Int.lt_trichotomy h.wallMs msg.wall with hlt | heq | hgt
      · have hnow : wNow ≤ msg.wall := by omega
        rw [receive_of_msg hlt hnow]
        constructor
        · rintro ⟨-, hmsg⟩ (⟨-, hle, -⟩ | ⟨hend, -⟩)
          · omega
          · exact less_succ_iff.1 hmsg hend
        · exact fun hwraps => ⟨less_of_wall_lt hlt, less_succ_iff.2 fun hend =>
            hwraps (.inr ⟨hend, Int.le_of_lt hlt, hnow⟩)⟩
      · have hnow : wNow ≤ msg.wall := by omega
        have htime : h.timestamp = ⟨msg.wall, h.counter⟩ := by
          rw [timestamp, heq]
        rw [receive_of_both heq hnow, htime]
        by_cases hcounter : h.counter > msg.counter
        · have hle : msg.counter.toNat ≤ h.counter.toNat := Nat.le_of_lt (UInt16.lt_iff_toNat_lt.1 hcounter)
          have hmax := h.counter.toNat_lt
          simp only [timestamp, if_pos hcounter]
          constructor
          · rintro ⟨hown, -⟩ (⟨hend, -⟩ | ⟨hend, -⟩)
            · exact less_succ_iff.1 hown hend
            · rw [hend] at hcounter
              have hlt := UInt16.lt_iff_toNat_lt.1 hcounter
              have hend' : (65535 : UInt16).toNat = 65535 := rfl
              omega
          · intro hwraps
            have hne : h.counter ≠ 65535 := fun hend => hwraps (.inl ⟨hend, by omega, by omega⟩)
            exact ⟨less_succ_iff.2 hne, less_succ_of_le hle hne⟩
        · have hle : h.counter.toNat ≤ msg.counter.toNat :=
            Nat.not_lt.1 fun hlt => hcounter (UInt16.lt_iff_toNat_lt.2 hlt)
          have hmax := msg.counter.toNat_lt
          simp only [timestamp, if_neg hcounter]
          constructor
          · rintro ⟨-, hmsg⟩ (⟨hend, -⟩ | ⟨hend, -⟩)
            · rw [hend] at hle
              have hend' : (65535 : UInt16).toNat = 65535 := rfl
              have hmsgend : msg.counter = 65535 := UInt16.toNat_inj.1 (by omega)
              exact less_succ_iff.1 hmsg hmsgend
            · exact less_succ_iff.1 hmsg hend
          · intro hwraps
            have hne : msg.counter ≠ 65535 := fun hend => hwraps (.inr ⟨hend, by omega, hnow⟩)
            exact ⟨less_succ_of_le hle hne, less_succ_iff.2 hne⟩
      · have hnow : wNow ≤ h.wallMs := by omega
        rw [receive_of_own hgt hnow]
        constructor
        · rintro ⟨hown, -⟩ (⟨hend, -⟩ | ⟨-, hle, -⟩)
          · exact less_succ_iff.1 hown hend
          · omega
        · exact fun hwraps => ⟨less_succ_iff.2 fun hend => hwraps (.inl ⟨hend, Int.le_of_lt hgt, hnow⟩),
            less_of_wall_lt hgt⟩

end Calls

/-! ### Runs -/

variable {ops : List Op}

theorem less_run {h : HLC} (hnever : NeverWraps h ops) {op : Op} {t : HLCTimestamp}
    (hmem : (op, t) ∈ run h ops) : h.timestamp.less t = true := by
  induction ops generalizing h with
  | nil => exact nomatch hmem
  | cons op' ops ih =>
    have hgrows := ((grows_iff op').2 hnever.1).1
    rcases List.mem_cons.1 hmem with heq | hmem
    · cases heq
      exact hgrows
    · exact less_trans hgrows (ih hnever.2 hmem)

/-- The timestamps of a run increase where no counter is incremented at its end. -/
theorem increasing_of_neverWraps {h : HLC} (hnever : NeverWraps h ops) : Increasing (run h ops) := by
  induction ops generalizing h with
  | nil => exact ⟨.nil, fun _ _ _ hmem => nomatch hmem⟩
  | cons op ops ih =>
    obtain ⟨hpair, hreceived⟩ := ih hnever.2
    refine ⟨.cons (fun p hp => less_run hnever.2 hp) hpair, fun msg wNow t hmem => ?_⟩
    rcases List.mem_cons.1 hmem with heq | hmem
    · cases heq
      exact ((grows_iff _).2 hnever.1).2 msg wNow rfl
    · exact hreceived msg wNow t hmem

theorem neverWraps_of_increasing {h : HLC} (hfirst : ∀ p ∈ run h ops, h.timestamp.less p.2 = true)
    (hincreasing : Increasing (run h ops)) : NeverWraps h ops := by
  induction ops generalizing h with
  | nil => trivial
  | cons op ops ih =>
    have hpair := List.pairwise_cons.1 hincreasing.returned
    refine ⟨(grows_iff op).1 ⟨hfirst _ List.mem_cons_self, ?_⟩, ih hpair.1 ⟨hpair.2, ?_⟩⟩
    · rintro msg wNow rfl
      exact hincreasing.received msg wNow _ List.mem_cons_self
    · exact fun msg wNow t hmem => hincreasing.received msg wNow t (List.mem_cons_of_mem _ hmem)

/-- **The timestamps of a clock increase, and are greater than the messages, exactly when no call increments a counter
that is at its end.** -/
theorem increasing_iff (ops : List Op) : Increasing (run .new ops) ↔ NeverWraps .new ops := by
  refine ⟨fun hincreasing => neverWraps_of_increasing ?_ hincreasing, increasing_of_neverWraps⟩
  cases ops with
  | nil => exact fun p hp => nomatch hp
  | cons op ops =>
    -- the counter of a new clock is 0, so only the message can be at its end
    have hwraps : ¬ new.Wraps op := by
      cases op with
      | now wNow => exact fun hwraps => absurd hwraps.2 (by decide)
      | receive msg wNow =>
        rintro (⟨hend, -⟩ | ⟨hend, hle, hnow⟩)
        · exact absurd hend (by decide)
        · have hmsg := hincreasing.received msg wNow _ List.mem_cons_self
          rw [apply] at hmsg
          rcases Int.lt_or_eq_of_le hle with hlt | heq
          · rw [receive_of_msg hlt hnow] at hmsg
            exact less_succ_iff.1 hmsg hend
          · have hzero : ¬ new.counter > msg.counter := by
              rw [hend]
              decide
            rw [receive_of_both heq hnow, if_neg hzero] at hmsg
            exact less_succ_iff.1 hmsg hend
    have hgrows := ((grows_iff op).2 hwraps).1
    intro p hp
    rcases List.mem_cons.1 hp with rfl | hp
    · exact hgrows
    · exact less_trans hgrows ((List.pairwise_cons.1 hincreasing.returned).1 p hp)

/-- **A message at the end of its counter sets the clock back, and so does a wall clock that stands still.** -/
theorem counter_wraps :
    run .new [.receive ⟨5, 65534⟩ 0, .now 0] = [(.receive ⟨5, 65534⟩ 0, ⟨5, 65535⟩), (.now 0, ⟨5, 0⟩)] ∧
      ¬ Increasing (run .new [.receive ⟨5, 65534⟩ 0, .now 0]) ∧
      run .new [.receive ⟨5, 65535⟩ 0] = [(.receive ⟨5, 65535⟩ 0, ⟨5, 0⟩)] ∧
      ¬ Increasing (run .new [.receive ⟨5, 65535⟩ 0]) := by
  decide

end HLC

end SystemDesignLabs.LogicalClocks
