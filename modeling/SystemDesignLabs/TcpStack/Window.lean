import SystemDesignLabs.TcpStack.Stack

/-!
# The congestion window

The handlers of the third stage keep the window between one segment and `maxWindow`, and the threshold at two segments
or more, so that no division is by zero and no sum wraps (`Bounded`). But an echo is cut to the window and not to what
the bytes in flight leave of it: `window_sound_iff` says of which runs it stays within the window.
-/

namespace SystemDesignLabs.TcpStack.Congestion

/-- What happens to a connection. -/
inductive ConnEvent where
  | ack (number : UInt32)
  | data (bytes : List UInt8)
  | fin
  | timeout

def ConnEvent.handle (now : Timespec) (c : Conn) : ConnEvent → Conn
  | ack number => (handleAck now c number).1
  | data bytes => (handleData now c bytes).1
  | fin => (handleFin now c).1
  | timeout => (onTimeout now c).1

/-- The connection as `handle_syn` leaves it in its slot. -/
def synReceived (it : Iteration) (h : Header) : Conn :=
  let s := sendPacket it.readings.packet (stage.opened it h) (flagSyn ||| flagAck) []
  { s.1 with sndNxt := s.1.sndNxt + 1 }

/-- The connection after events at given times. -/
def run (c : Conn) (events : List (Timespec × ConnEvent)) : Conn :=
  events.foldl (fun c e => e.2.handle e.1 c) c

/-- What `on_ack` adds to the window. -/
def increment (c : Conn) : UInt32 :=
  if c.cwnd < c.ssthresh then mss else mss * mss / c.cwnd

/-- The amount that is sent and not acknowledged. -/
def inFlight (c : Conn) : UInt32 :=
  c.sndNxt - c.sndUna

/-- The window is at least one segment, the threshold at least two, and the increment divides by a positive window and
does not wrap. -/
structure WindowSound (c : Conn) : Prop where
  cwnd : mss ≤ c.cwnd
  ssthresh : 2 * mss ≤ c.ssthresh
  divides : c.cwnd ≠ 0
  adds : (onAck c).cwnd.toNat = c.cwnd.toNat + (increment c).toNat

/-- A segment of this length fits: what of it is accepted, or the whole window where it is longer, finds room beside
the bytes in flight. Sums are taken modulo 2^32. -/
def Fits (c : Conn) (len : Nat) : Prop :=
  ((inFlight c).toNat + min (min len recvBufSize) c.cwnd.toNat) % 2 ^ 32 ≤ c.cwnd.toNat

/-- No window grows beyond one more than the square of a segment. -/
def maxWindow : Nat := 1460 * 1460 + 1

/-- The bounds that every handler keeps. -/
structure Bounded (c : Conn) : Prop where
  cwnd : 1460 ≤ c.cwnd.toNat ∧ c.cwnd.toNat ≤ maxWindow
  ssthresh : 2920 ≤ c.ssthresh.toNat ∧ c.ssthresh.toNat ≤ maxWindow / 2

variable {c c' : Conn} {now : Timespec}

theorem Bounded.congr (h : Bounded c) (hcwnd : c'.cwnd = c.cwnd) (hssthresh : c'.ssthresh = c.ssthresh) : Bounded c' :=
  ⟨hcwnd ▸ h.cwnd, hssthresh ▸ h.ssthresh⟩

/-- The increment in natural numbers. -/
theorem Bounded.increment_le (h : Bounded c) : c.cwnd.toNat + (increment c).toNat ≤ maxWindow := by
  obtain ⟨⟨hlow, hhigh⟩, -, hthresh⟩ := h
  rw [increment]
  split
  · next hlt =>
    have hlt' := UInt32.lt_iff_toNat_lt.1 hlt
    show c.cwnd.toNat + 1460 ≤ maxWindow
    rw [maxWindow] at *
    omega
  · have hdiv : (mss * mss / c.cwnd).toNat = 1460 * 1460 / c.cwnd.toNat := UInt32.toNat_div _ _
    have hmul := Nat.div_mul_le_self (1460 * 1460) c.cwnd.toNat
    rw [hdiv]
    -- a quotient that is not zero makes the sum at most one more than the product
    cases hq : 1460 * 1460 / c.cwnd.toNat with
    | zero => exact hhigh
    | succ q =>
      have hle : q * 1 ≤ q * c.cwnd.toNat := Nat.mul_le_mul_left q (Nat.le_trans (by decide) hlow)
      rw [hq, Nat.succ_mul] at hmul
      rw [maxWindow]
      omega

theorem onAck_window (c : Conn) : (onAck c).cwnd = c.cwnd + increment c ∧ (onAck c).ssthresh = c.ssthresh := by
  rw [onAck, increment]
  split <;> exact ⟨rfl, rfl⟩

theorem Bounded.toNat_onAck (h : Bounded c) : (onAck c).cwnd.toNat = c.cwnd.toNat + (increment c).toNat := by
  have hle := h.increment_le
  rw [maxWindow] at hle
  rw [(onAck_window c).1, UInt32.toNat_add, Nat.mod_eq_of_lt (by omega)]

theorem Bounded.sound (h : Bounded c) : WindowSound c where
  cwnd := UInt32.le_iff_toNat_le.2 h.cwnd.1
  ssthresh := UInt32.le_iff_toNat_le.2 h.ssthresh.1
  divides := by
    intro hzero
    have hlow := h.cwnd.1
    rw [hzero] at hlow
    exact absurd hlow (by decide)
  adds := h.toNat_onAck

theorem Bounded.onAck (h : Bounded c) : Bounded (onAck c) := by
  refine ⟨?_, (onAck_window c).2 ▸ h.ssthresh⟩
  rw [h.toNat_onAck]
  exact ⟨Nat.le_trans h.cwnd.1 (Nat.le_add_right _ _), h.increment_le⟩

theorem Bounded.halved (h : Bounded c) : 2920 ≤ (halved c).toNat ∧ (halved c).toNat ≤ maxWindow / 2 := by
  have hhalf : (c.cwnd / 2).toNat = c.cwnd.toNat / 2 := rfl
  rw [Congestion.halved]
  split
  · decide
  · next hge =>
    have hle := UInt32.le_iff_toNat_le.1 (UInt32.not_lt.1 hge)
    rw [hhalf] at hle ⊢
    exact ⟨hle, Nat.div_le_div_right h.cwnd.2⟩

/-! ## What the packet sender leaves -/

theorem sendPacket_window (now : Timespec) (c : Conn) (flags : UInt8) (payload : List UInt8) :
    (sendPacket now c flags payload).1.cwnd = c.cwnd ∧ (sendPacket now c flags payload).1.ssthresh = c.ssthresh ∧
      (sendPacket now c flags payload).1.sndNxt = c.sndNxt ∧ (sendPacket now c flags payload).1.sndUna = c.sndUna := by
  rw [sendPacket]
  split <;> exact ⟨rfl, rfl, rfl, rfl⟩

theorem Bounded.resend (h : Bounded c) : Bounded (resend now c).1 := by
  rw [Congestion.resend]
  split
  · obtain ⟨hcwnd, hssthresh, -⟩ := sendPacket_window now c (flagAck ||| flagPsh) c.sendBuf
    exact h.congr hcwnd hssthresh
  · exact h

theorem Bounded.handleAck (h : Bounded c) (number : UInt32) : Bounded (handleAck now c number).1 := by
  rw [Congestion.handleAck]
  split
  · exact h.congr rfl rfl
  · split
    · split <;> exact h.congr rfl rfl
    · split
      · exact Bounded.onAck (h.congr rfl rfl)
      · split
        · rw [onDuplicateAck]
          split
          · exact h.congr rfl rfl
          · obtain ⟨hlow, hhigh⟩ := h.halved
            have hlow' := Nat.le_trans (show 1460 ≤ 2920 by decide) hlow
            have hhigh' := Nat.le_trans hhigh (Nat.div_le_self _ _)
            exact Bounded.resend ⟨⟨hlow', hhigh'⟩, hlow, hhigh⟩
        · exact h

theorem Bounded.onTimeout (h : Bounded c) : Bounded (onTimeout now c).1 :=
  have hmss : 1460 ≤ mss.toNat ∧ mss.toNat ≤ maxWindow := by decide
  Bounded.resend ⟨hmss, h.halved⟩

theorem Bounded.handleFin (h : Bounded c) : Bounded (handleFin now c).1 := by
  rw [Congestion.handleFin]
  split <;> exact h.congr rfl rfl

/-! ## What `handle_data` sends -/

/-- The echo of a bounded window: as a signed integer the window is what it is. -/
theorem Bounded.sendLen (h : Bounded c) (taken : List UInt8) : sendLen c taken = min taken.length c.cwnd.toNat := by
  have hhigh := h.cwnd.2
  have hint : c.cwnd.toInt32.toInt = c.cwnd.toNat := BitVec.toInt_eq_toNat_of_lt (by
    show 2 * c.cwnd.toNat < 2 ^ 32
    rw [maxWindow] at hhigh
    omega)
  rw [Congestion.sendLen, hint]
  split <;> omega

theorem echo_window (now : Timespec) (c : Conn) (data : List UInt8) :
    (echo now c data).1.cwnd = c.cwnd ∧ (echo now c data).1.ssthresh = c.ssthresh ∧
      inFlight (echo now c data).1 = inFlight c + UInt32.ofNat data.length := by
  obtain ⟨hcwnd, hssthresh, hnxt, huna⟩ := sendPacket_window now c (flagAck ||| flagPsh) data
  refine ⟨hcwnd, hssthresh, ?_⟩
  have hnxt' : (echo now c data).1.sndNxt = c.sndNxt + UInt32.ofNat data.length := congrArg (· + _) hnxt
  have huna' : (echo now c data).1.sndUna = c.sndUna := huna
  rw [inFlight, inFlight, hnxt', huna']
  grind

/-- What `handle_data` sends: the window stays, and `snd_nxt` moves past the bytes that are echoed. -/
theorem Bounded.handleData (h : Bounded c) (data : List UInt8) :
    (handleData now c data).1.cwnd = c.cwnd ∧ (handleData now c data).1.ssthresh = c.ssthresh ∧
      inFlight (handleData now c data).1 =
        inFlight c + UInt32.ofNat (min (min data.length recvBufSize) c.cwnd.toNat) := by
  rw [Congestion.handleData]
  split
  · next hnil =>
    rw [hnil, Nat.zero_min, Nat.zero_min]
    exact ⟨rfl, rfl, (UInt32.add_zero _).symm⟩
  · have hroom : room data = min data.length recvBufSize := by
      rw [room]
      split <;> omega
    have hlen : ((data.take (room data)).take (Congestion.sendLen c (data.take (room data)))).length =
        min (min data.length recvBufSize) c.cwnd.toNat := by
      rw [List.length_take, h.sendLen, List.length_take, hroom]
      omega
    rw [← hlen]
    exact echo_window now _ _

theorem Bounded.handle (h : Bounded c) (e : ConnEvent) : Bounded (e.handle now c) := by
  cases e with
  | ack number => exact h.handleAck number
  | data bytes =>
    obtain ⟨hcwnd, hssthresh, -⟩ := h.handleData bytes
    exact h.congr hcwnd hssthresh
  | fin => exact h.handleFin
  | timeout => exact h.onTimeout

theorem Bounded.run (h : Bounded c) (events : List (Timespec × ConnEvent)) : Bounded (run c events) := by
  induction events generalizing c with
  | nil => exact h
  | cons e events ih => exact ih (h.handle e.2)

theorem bounded_synReceived (it : Iteration) (h : Header) : Bounded (synReceived it h) := by
  have hstart : Bounded (stage.opened it h) :=
    ⟨show 1460 ≤ mss.toNat ∧ mss.toNat ≤ maxWindow by decide,
      show 2920 ≤ UInt32.toNat 65535 ∧ UInt32.toNat 65535 ≤ maxWindow / 2 by decide⟩
  exact hstart.congr rfl rfl

/-- When new data stays within the window. -/
theorem Bounded.inFlight_le_iff (h : Bounded c) (data : List UInt8) :
    inFlight (Congestion.handleData now c data).1 ≤ (Congestion.handleData now c data).1.cwnd ↔ Fits c data.length := by
  obtain ⟨hcwnd, -, hflight⟩ := h.handleData data
  rw [hcwnd, hflight, UInt32.le_iff_toNat_le, UInt32.toNat_add, UInt32.toNat_ofNat', Nat.add_mod_mod]
  exact Iff.rfl

theorem run_take_succ {events : List (Timespec × ConnEvent)} {k : Nat} {e : Timespec × ConnEvent}
    (he : events[k]? = some e) : run c (events.take (k + 1)) = e.2.handle e.1 (run c (events.take k)) := by
  rw [List.take_add_one, he]
  exact List.foldl_append

/-- **When the congestion window is sound**: in every run of a connection the bounds hold in every state, and every
segment of new data keeps the amount in flight within the window exactly when every segment fits. -/
theorem window_sound_iff (it : Iteration) (h : Header) (events : List (Timespec × ConnEvent)) :
    (∀ k, WindowSound (run (synReceived it h) (events.take k))) ∧
      ((∀ k now data, events[k]? = some (now, .data data) → data ≠ [] →
          inFlight (run (synReceived it h) (events.take (k + 1))) ≤
            (run (synReceived it h) (events.take (k + 1))).cwnd) ↔
        ∀ k now data, events[k]? = some (now, .data data) → data ≠ [] →
          Fits (run (synReceived it h) (events.take k)) data.length) := by
  have hbounded := fun k => (bounded_synReceived it h).run (events.take k)
  refine ⟨fun k => (hbounded k).sound, forall₃_congr fun k now data => forall₂_congr fun hevent _ => ?_⟩
  rw [run_take_succ hevent]
  exact (hbounded k).inFlight_le_iff data

/-- **Two segments without an acknowledgement between them overrun the window.** -/
theorem second_segment_overruns :
    ¬ ∀ (it : Iteration) (h : Header) (events : List (Timespec × ConnEvent)) (k : Nat) (now : Timespec)
      (data : List UInt8), events[k]? = some (now, .data data) → data ≠ [] →
        inFlight (run (synReceived it h) (events.take (k + 1))) ≤
          (run (synReceived it h) (events.take (k + 1))).cwnd := by
  intro hall
  obtain ⟨seg, hlen⟩ : ∃ seg : List UInt8, seg.length = 1460 := ⟨List.replicate 1460 0, List.length_replicate⟩
  have hne : seg ≠ [] := List.ne_nil_of_length_eq_add_one hlen
  have hover := hall (reading []) (readHeader (fun _ => 0) 20) [(⟨0, 0⟩, .ack 1), (⟨0, 0⟩, .data seg), (⟨0, 0⟩, .data seg)]
    2 ⟨0, 0⟩ seg rfl hne
  have hopen := (bounded_synReceived (reading []) (readHeader (fun _ => 0) 20)).run [(⟨0, 0⟩, .ack 1)]
  obtain ⟨hcwnd, -, hflight⟩ := @Bounded.handleData _ ⟨0, 0⟩ hopen seg
  have hfits : Fits (handleData ⟨0, 0⟩ _ seg).1 seg.length :=
    ((@Bounded.handle _ ⟨0, 0⟩ hopen (.data seg)).inFlight_le_iff seg).1 hover
  rw [Fits, hflight, hcwnd, hlen] at hfits
  exact absurd hfits (by decide)

end SystemDesignLabs.TcpStack.Congestion
