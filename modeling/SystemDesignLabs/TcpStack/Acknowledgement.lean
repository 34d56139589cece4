import SystemDesignLabs.TcpStack.Stack

/-!
# Acknowledgement numbers

What the handlers of the second and the third stage do with an acknowledgement number. Sequence numbers wrap, so a
number acknowledges something new when its distance from `snd_una` is positive and at most that of `snd_nxt`, both
taken modulo 2^32 (`Acknowledges`). The handlers compare numbers as integers instead, and take any number at all for
the end of the handshake, where the first stage asks for `snd_nxt`. Three duplicates in a row set the window to at
least two segments, also when it was smaller.

`acknowledgement_iff` says for which connections and numbers the handlers do what the sequence space asks for.
-/

namespace SystemDesignLabs.TcpStack

/-- The number is in `(snd_una, snd_nxt]`. -/
def Acknowledges (c : Conn) (ack : UInt32) : Prop :=
  0 < ack - c.sndUna ∧ ack - c.sndUna ≤ c.sndNxt - c.sndUna

instance (c : Conn) (ack : UInt32) : Decidable (Acknowledges c ack) := inferInstanceAs (Decidable (_ ∧ _))

/-- What the handler of an acknowledgement may do: `c` becomes `c'`. -/
structure RespectsSpace (c c' : Conn) (ack : UInt32) : Prop where
  handshake : c.state = .synRcvd → c'.state = .established → ack = c.sndNxt
  advances : c.state = .established → Acknowledges c ack → c'.sndUna = ack
  ignores : c.state = .established → ¬ Acknowledges c ack →
    c'.sndUna = c.sndUna ∧ c'.sendBuf.length = c.sendBuf.length ∧ c'.cwnd ≤ c.cwnd

/-- The number is `snd_nxt` in the handshake; later it is at most `snd_nxt`, as an integer, just when `snd_una` is. -/
structure InOrder (c : Conn) (ack : UInt32) : Prop where
  handshake : c.state = .synRcvd → ack = c.sndNxt
  established : c.state = .established → (ack ≤ c.sndNxt ↔ c.sndUna ≤ c.sndNxt)

variable {c : Conn} {ack : UInt32}

/-- Integers and distances agree on what is new where the number is on the same side of `snd_nxt` as `snd_una`. -/
theorem lt_iff_acknowledges_iff : (c.sndUna < ack ↔ Acknowledges c ack) ↔ (ack ≤ c.sndNxt ↔ c.sndUna ≤ c.sndNxt) := by
  have hack := ack.toNat_lt
  have huna := c.sndUna.toNat_lt
  have hnxt := c.sndNxt.toNat_lt
  rw [Acknowledges]
  simp only [UInt32.lt_iff_toNat_lt, UInt32.le_iff_toNat_le, UInt32.toNat_sub, UInt32.toNat_zero]
  omega

theorem not_lt_of_acknowledges_iff (hsame : c.sndUna < ack ↔ Acknowledges c ack) (hnot : ¬ c.sndUna < ack) :
    ¬ Acknowledges c ack := fun hacks => hnot (hsame.2 hacks)

theorem Acknowledges.ne (h : Acknowledges c ack) : c.sndUna ≠ ack := by
  rintro rfl
  have hpos := h.1
  rw [UInt32.sub_self] at hpos
  exact absurd hpos (by decide)

/-- An established connection on which a handler moves `snd_una` just for greater integers, and keeps the send buffer
for others, meets the sequence space when integers and distances agree, as far as the window does not grow. -/
theorem respects_iff_of_established {c' : Conn} (hstate : c.state = .established)
    (hlt : c.sndUna < ack → c'.sndUna = ack)
    (hle : ¬ c.sndUna < ack → c'.sndUna = c.sndUna ∧ c'.sendBuf.length = c.sendBuf.length) :
    RespectsSpace c c' ack ↔ InOrder c ack ∧ (¬ c.sndUna < ack → c'.cwnd ≤ c.cwnd) := by
  have hsyn : c.state ≠ .synRcvd := by
    rw [hstate]
    decide
  constructor
  · intro h
    have hsame : c.sndUna < ack ↔ Acknowledges c ack := by
      constructor
      · intro hnew
        refine Decidable.by_contra fun hnot => ?_
        -- the number was ignored, and it was not
        have hkept := (h.ignores hstate hnot).1
        rw [hlt hnew] at hkept
        rw [hkept] at hnew
        exact absurd hnew (UInt32.lt_irrefl _)
      · intro hacks
        refine Decidable.by_contra fun hnot => ?_
        have hmoved := h.advances hstate hacks
        rw [(hle hnot).1] at hmoved
        exact hacks.ne hmoved
    refine ⟨⟨fun heq => absurd heq hsyn, fun _ => lt_iff_acknowledges_iff.1 hsame⟩, fun hnot => ?_⟩
    exact (h.ignores hstate (not_lt_of_acknowledges_iff hsame hnot)).2.2
  · rintro ⟨horder, hcwnd⟩
    have hsame := lt_iff_acknowledges_iff.2 (horder.established hstate)
    refine ⟨fun heq => absurd heq hsyn, fun _ hacks => hlt (hsame.2 hacks), fun _ hnot => ?_⟩
    have hnot' : ¬ c.sndUna < ack := fun hnew => hnot (hsame.1 hnew)
    exact ⟨(hle hnot').1, (hle hnot').2, hcwnd hnot'⟩

theorem respects_of_other {c' : Conn} (hsyn : c.state ≠ .synRcvd) (hest : c.state ≠ .established) :
    RespectsSpace c c' ack ∧ InOrder c ack :=
  ⟨⟨fun h => absurd h hsyn, fun h => absurd h hest, fun h => absurd h hest⟩,
    ⟨fun h => absurd h hsyn, fun h => absurd h hest⟩⟩

theorem respects_iff_of_synRcvd {c' : Conn} (hstate : c.state = .synRcvd) (hends : c'.state = .established) :
    RespectsSpace c c' ack ↔ InOrder c ack := by
  have hest : c.state ≠ .established := by
    rw [hstate]
    decide
  exact ⟨fun h => ⟨fun _ => h.handshake hstate hends, fun heq => absurd heq hest⟩,
    fun h => ⟨fun _ _ => h.handshake hstate, fun heq => absurd heq hest, fun heq => absurd heq hest⟩⟩

/-! ### The second stage -/

theorem Reliable.respects_iff (now : Timespec) :
    RespectsSpace c (Reliable.handleAckEstablished now c ack).1 ack ↔ InOrder c ack := by
  by_cases hsyn : c.state = .synRcvd
  · refine respects_iff_of_synRcvd hsyn ?_
    rw [Reliable.handleAckEstablished, if_pos hsyn]
  · by_cases hest : c.state = .established
    · have hlast : c.state ≠ .lastAck := by
        rw [hest]
        decide
      have hhandle : (Reliable.handleAckEstablished now c ack).1 =
          if c.sndUna < ack then { c with sndUna := ack, sendBuf := [] } else c := by
        rw [Reliable.handleAckEstablished, if_neg hsyn, if_neg hlast]
        split <;> rfl
      rw [hhandle, respects_iff_of_established hest (fun hnew => by rw [if_pos hnew])
        (fun hnot => by rw [if_neg hnot]; exact ⟨rfl, rfl⟩)]
      refine and_iff_left_of_imp fun _ hnot => ?_
      rw [if_neg hnot]
      exact UInt32.le_refl _
    · obtain ⟨hrespects, horder⟩ := respects_of_other hsyn hest
      exact iff_of_true hrespects horder

/-! ### The third stage -/

namespace Congestion

/-- The third duplicate in a row, with something to send again. -/
def RetransmitsOn (c : Conn) (ack : UInt32) : Prop :=
  ack = c.sndUna ∧ 0 < c.sendBuf.length ∧ 3 ≤ c.dupAckCount + 1

theorem halved_le_iff (c : Conn) : halved c ≤ c.cwnd ↔ 2 * mss ≤ c.cwnd := by
  have htwice : (2 * mss).toNat = 2920 := rfl
  have hhalf : (c.cwnd / 2).toNat = c.cwnd.toNat / 2 := rfl
  rw [halved]
  split
  · exact Iff.rfl
  · next hge =>
    rw [UInt32.lt_iff_toNat_lt, htwice, hhalf] at hge
    rw [UInt32.le_iff_toNat_le, UInt32.le_iff_toNat_le, htwice, hhalf]
    omega

theorem resend_spec (now : Timespec) (hbuf : c.sendBuf.length ≤ sendBufSize) :
    (resend now c).1.sndUna = c.sndUna ∧ (resend now c).1.sendBuf = c.sendBuf ∧ (resend now c).1.cwnd = c.cwnd := by
  rw [resend]
  split
  · next hpos =>
    rw [sendPacket, if_pos hpos]
    exact ⟨rfl, List.take_of_length_le hbuf, rfl⟩
  · exact ⟨rfl, rfl, rfl⟩

theorem onDuplicateAck_spec (now : Timespec) (hbuf : c.sendBuf.length ≤ sendBufSize) :
    (onDuplicateAck now c).1.sndUna = c.sndUna ∧ (onDuplicateAck now c).1.sendBuf = c.sendBuf ∧
      (onDuplicateAck now c).1.cwnd = if 3 ≤ c.dupAckCount + 1 then halved c else c.cwnd := by
  rw [onDuplicateAck]
  by_cases hfew : c.dupAckCount + 1 < 3
  · rw [if_pos hfew, if_neg (Int.not_le.2 hfew)]
    exact ⟨rfl, rfl, rfl⟩
  · rw [if_neg hfew, if_pos (Int.not_lt.1 hfew)]
    obtain ⟨huna, hsend, hcwnd⟩ := @resend_spec
      { c with ssthresh := halved c, cwnd := halved c, dupAckCount := 0 } now hbuf
    exact ⟨huna, hsend, hcwnd⟩

theorem sndUna_onAck (c : Conn) : (onAck c).sndUna = c.sndUna := by
  rw [onAck]
  split <;> rfl

theorem respects_iff (now : Timespec) (hbuf : c.sendBuf.length ≤ sendBufSize) :
    RespectsSpace c (handleAck now c ack).1 ack ↔
      InOrder c ack ∧ (c.state = .established → RetransmitsOn c ack → 2 * mss ≤ c.cwnd) := by
  by_cases hsyn : c.state = .synRcvd
  · have hest : c.state ≠ .established := by
      rw [hsyn]
      decide
    refine (respects_iff_of_synRcvd hsyn ?_).trans (and_iff_left fun heq => absurd heq hest).symm
    rw [handleAck, if_pos hsyn]
  · by_cases hest : c.state = .established
    · have hlast : c.state ≠ .lastAck := by
        rw [hest]
        decide
      have hhandle : handleAck now c ack =
          if c.sndUna < ack then (onAck { c with sndUna := ack, sendBuf := [] }, [])
          else if ack = c.sndUna ∧ 0 < c.sendBuf.length then onDuplicateAck now c else (c, []) := by
        rw [handleAck, if_neg hsyn, if_neg hlast]
      obtain ⟨huna, hsend, hcwnd⟩ := onDuplicateAck_spec now hbuf
      rw [respects_iff_of_established hest]
      · refine and_congr_right fun _ => ?_
        rw [hhandle]
        by_cases hdup : ack = c.sndUna ∧ 0 < c.sendBuf.length
        · have hnot : ¬ c.sndUna < ack := by
            rw [hdup.1]
            exact UInt32.lt_irrefl _
          rw [if_neg hnot, if_pos hdup, hcwnd]
          by_cases hthird : 3 ≤ c.dupAckCount + 1
          · rw [if_pos hthird, halved_le_iff]
            exact ⟨fun h _ _ => h hnot, fun h _ => h hest ⟨hdup.1, hdup.2, hthird⟩⟩
          · rw [if_neg hthird]
            exact ⟨fun _ _ h => absurd h.2.2 hthird, fun _ _ => UInt32.le_refl _⟩
        · have hnone : ¬ RetransmitsOn c ack := fun h => hdup ⟨h.1, h.2.1⟩
          refine iff_of_true (fun hnot => ?_) fun _ h => absurd h hnone
          rw [if_neg hnot, if_neg hdup]
          exact UInt32.le_refl _
      · intro hnew
        rw [hhandle, if_pos hnew, sndUna_onAck]
      · intro hnot
        rw [hhandle, if_neg hnot]
        split
        · exact ⟨huna, by rw [hsend]⟩
        · exact ⟨rfl, rfl⟩
    · obtain ⟨hrespects, horder⟩ := respects_of_other hsyn hest
      exact iff_of_true hrespects ⟨horder, fun heq => absurd heq hest⟩

end Congestion

/-- **When acknowledgements respect the sequence space**, on both stages. -/
theorem acknowledgement_iff (now : Timespec) (c : Conn) (ack : UInt32) (hbuf : c.sendBuf.length ≤ sendBufSize) :
    (RespectsSpace c (Reliable.handleAckEstablished now c ack).1 ack ↔ InOrder c ack) ∧
      (RespectsSpace c (Congestion.handleAck now c ack).1 ack ↔
        InOrder c ack ∧ (c.state = .established → Congestion.RetransmitsOn c ack → 2 * Congestion.mss ≤ c.cwnd)) :=
  ⟨Reliable.respects_iff now, Congestion.respects_iff now hbuf⟩

/-- A connection of the third stage in a state, with the two ends of what was sent. -/
def connOf (state : TcpState) (sndUna sndNxt : UInt32) : Conn :=
  { Congestion.newConn with state := state, sndUna := sndUna, sndNxt := sndNxt }

theorem acknowledgement_iff_in_order :
    (RespectsSpace (connOf .established 5 10) (Reliable.handleAckEstablished ⟨0, 0⟩ (connOf .established 5 10) 7).1 7 ↔
        InOrder (connOf .established 5 10) 7) ∧
      (RespectsSpace (connOf .established 5 10) (Congestion.handleAck ⟨0, 0⟩ (connOf .established 5 10) 7).1 7 ↔
        InOrder (connOf .established 5 10) 7 ∧ ((connOf .established 5 10).state = .established →
          Congestion.RetransmitsOn (connOf .established 5 10) 7 →
            2 * Congestion.mss ≤ (connOf .established 5 10).cwnd)) :=
  acknowledgement_iff ⟨0, 0⟩ (connOf .established 5 10) 7 (by decide)

/-- **Any number ends the handshake, a forged number is taken, a new one is ignored after the wrap, and the third
duplicate opens the window.** -/
theorem acknowledgement_wrong :
    ¬ RespectsSpace (connOf .synRcvd 0 1) (Reliable.handleAckEstablished ⟨0, 0⟩ (connOf .synRcvd 0 1) 7).1 7 ∧
      ¬ RespectsSpace (connOf .established 5 10)
        (Reliable.handleAckEstablished ⟨0, 0⟩ (connOf .established 5 10) 100).1 100 ∧
      ¬ RespectsSpace (connOf .established 0xffffffff 5)
        (Reliable.handleAckEstablished ⟨0, 0⟩ (connOf .established 0xffffffff 5) 3).1 3 ∧
      ¬ RespectsSpace { connOf .established 5 10 with sendBuf := [1], dupAckCount := 2 }
        (Congestion.handleAck ⟨0, 0⟩ { connOf .established 5 10 with sendBuf := [1], dupAckCount := 2 } 5).1 5 := by
  refine ⟨fun h => ?_, fun h => ?_, fun h => ?_, fun h => ?_⟩
  · exact absurd (h.handshake rfl rfl) (by decide)
  · exact absurd (h.ignores rfl (by decide)).1 (by decide)
  · exact absurd (h.advances rfl (by decide)) (by decide)
  · exact absurd (h.ignores rfl (by decide)).2.2 (by decide)

end SystemDesignLabs.TcpStack
