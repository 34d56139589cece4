import SystemDesignLabs.Core.Replicas
import SystemDesignLabs.Core.TransitionSystem

/-!
# The last-writer-wins register

`LWWRegister` of `labs/crdt/pkg/crdt/lwwregister.go`. `Merge` is `Set` with the other register's write,
and keeps the own value on equal timestamp and node. A register holds the latest of the accepted writes
that reached it, and one node never has two writes with one timestamp accepted, since its own register
only moves up. So replicas that know the same writes agree, and on the states of a run `Merge` is
commutative, associative and idempotent (`replicas_converge`).
-/

namespace SystemDesignLabs.Crdt

open List Option Core

@[ext] structure LWWRegister (T : Type) where
  value : T
  timestamp : Int
  nodeID : String
  hasValue : Bool

/-- A write as it is stored. -/
structure Write (T : Type) where
  nodeID : String
  value : T
  timestamp : Int
  deriving DecidableEq

/-- Writes are ordered by timestamp, then by node. -/
def Write.key {T : Type} (w : Write T) : Int ×ₗ String := toLex (w.timestamp, w.nodeID)

namespace LWWRegister

variable {T : Type}

/-- `NewLWWRegister`: the zero value. -/
def new [Inhabited T] : LWWRegister T := ⟨default, 0, "", false⟩

def set (r : LWWRegister T) (nodeID : String) (value : T) (timestamp : Int) : LWWRegister T :=
  if r.hasValue = false then ⟨value, timestamp, nodeID, true⟩
  else if r.timestamp < timestamp then
    { r with
      value := value
      timestamp := timestamp
      nodeID := nodeID }
  else if timestamp = r.timestamp ∧ r.nodeID < nodeID then
    { r with
      value := value
      nodeID := nodeID }
  else r

def merge (r other : LWWRegister T) : LWWRegister T :=
  if other.hasValue = false then r else r.set other.nodeID other.value other.timestamp

def get (r : LWWRegister T) : T × Bool := (r.value, r.hasValue)

/-- `Set` takes the write. -/
def Accepts (r : LWWRegister T) (nodeID : String) (timestamp : Int) : Prop :=
  r.hasValue = false ∨ r.timestamp < timestamp ∨ timestamp = r.timestamp ∧ r.nodeID < nodeID

instance (r : LWWRegister T) (nodeID : String) (timestamp : Int) :
    Decidable (r.Accepts nodeID timestamp) := inferInstanceAs (Decidable (_ ∨ _ ∨ _))

/-! ## A register as an optional write -/

/-- The write that the register holds. -/
def write (r : LWWRegister T) : Option (Write T) :=
  if r.hasValue = false then none else some ⟨r.nodeID, r.value, r.timestamp⟩

/-- A register without a value is the zero value. -/
def ZeroUnset [Inhabited T] (r : LWWRegister T) : Prop := r.hasValue = false → r = new

theorem key_lt_iff {r : LWWRegister T} {nodeID : String} {value : T} {timestamp : Int} :
    Write.key ⟨r.nodeID, r.value, r.timestamp⟩ < Write.key ⟨nodeID, value, timestamp⟩ ↔
      r.timestamp < timestamp ∨ timestamp = r.timestamp ∧ r.nodeID < nodeID := by
  rw [Write.key, Write.key, Prod.Lex.toLex_lt_toLex]
  simp only [eq_comm]

/-- `Set` keeps the later write. -/
theorem write_set (r : LWWRegister T) (nodeID : String) (value : T) (timestamp : Int) :
    (r.set nodeID value timestamp).write = later Write.key r.write (some ⟨nodeID, value, timestamp⟩) := by
  rw [set]
  by_cases hunset : r.hasValue = false
  · rw [if_pos hunset, write, write, if_pos hunset]
    rfl
  · have hwrite : r.write = some ⟨r.nodeID, r.value, r.timestamp⟩ := if_neg hunset
    rw [if_neg hunset, hwrite, later]
    by_cases hlt : r.timestamp < timestamp
    · rw [if_pos hlt, if_pos (key_lt_iff.2 (.inl hlt))]
      exact if_neg hunset
    · rw [if_neg hlt]
      by_cases htie : timestamp = r.timestamp ∧ r.nodeID < nodeID
      · rw [if_pos htie, if_pos (key_lt_iff.2 (.inr htie)), htie.1]
        exact if_neg hunset
      · rw [if_neg htie, if_neg fun h => (key_lt_iff.1 h).elim hlt htie]
        exact hwrite

theorem write_merge (r other : LWWRegister T) : (r.merge other).write = later Write.key r.write other.write := by
  rw [merge]
  by_cases hunset : other.hasValue = false
  · have hwrite : other.write = none := if_pos hunset
    rw [if_pos hunset, hwrite]
    cases r.write with
    | none => rfl
    | some w => rfl
  · have hwrite : other.write = some ⟨other.nodeID, other.value, other.timestamp⟩ := if_neg hunset
    rw [if_neg hunset, hwrite, write_set]

theorem hasValue_set (r : LWWRegister T) (nodeID : String) (value : T) (timestamp : Int) :
    (r.set nodeID value timestamp).hasValue = true := by
  rw [set]
  split
  · rfl
  · rename_i hset
    have hset' : r.hasValue = true := by
      rw [Bool.not_eq_false] at hset
      exact hset
    split
    · exact hset'
    · split
      · exact hset'
      · exact hset'

variable [Inhabited T]

theorem eq_of_write {r s : LWWRegister T} (hr : r.ZeroUnset) (hs : s.ZeroUnset) (h : r.write = s.write) : r = s := by
  rw [write, write] at h
  split at h
  · rename_i hunset
    split at h
    · rename_i hunset'
      rw [hr hunset, hs hunset']
    · exact absurd h (by simp)
  · rename_i hset
    split at h
    · exact absurd h (by simp)
    · rename_i hset'
      rw [some.injEq, Write.mk.injEq] at h
      rw [Bool.not_eq_false] at hset hset'
      exact LWWRegister.ext h.2.1 h.2.2 h.1 (hset.trans hset'.symm)

theorem zeroUnset_set (r : LWWRegister T) (nodeID : String) (value : T) (timestamp : Int) :
    (r.set nodeID value timestamp).ZeroUnset := by
  intro h
  rw [hasValue_set] at h
  exact absurd h (by decide)

theorem zeroUnset_merge {r : LWWRegister T} (hr : r.ZeroUnset) (other : LWWRegister T) : (r.merge other).ZeroUnset := by
  rw [merge]
  split
  · exact hr
  · exact zeroUnset_set r _ _ _

end LWWRegister

/-! ## Runs -/

namespace LWW

/-- A register, and the accepted writes that reached it, directly or in a merged state. -/
structure Replica (T : Type) where
  register : LWWRegister T
  known : List (Write T)

/-- The replicas, and all writes that a register accepted when they were made. -/
structure World (ι T : Type) where
  replicas : Replicas ι (Replica T)
  accepted : List (Write T)

/-- `set i value timestamp` is a write at replica `i`, `merge i k` merges the `k`-th recorded state into
it. -/
inductive Op (ι T : Type) where
  | set (i : ι) (value : T) (timestamp : Int)
  | merge (i : ι) (k : Nat)

variable {ι T : Type} [Inhabited T]

def World.start (ι T : Type) [Inhabited T] : World ι T := ⟨.start ⟨.new, []⟩, []⟩

variable [DecidableEq ι] (nodeOf : ι → String)

omit [Inhabited T] in
/-- One operation. Each replica writes under its own node ID. -/
def step (w : World ι T) : Op ι T → Option (World ι T)
  | .set i value timestamp =>
    let s := w.replicas.state i
    let register := s.register.set (nodeOf i) value timestamp
    if s.register.Accepts (nodeOf i) timestamp then
      some ⟨w.replicas.set i ⟨register, s.known ++ [⟨nodeOf i, value, timestamp⟩]⟩,
        w.accepted ++ [⟨nodeOf i, value, timestamp⟩]⟩
    else some ⟨w.replicas.set i ⟨register, s.known⟩, w.accepted⟩
  | .merge i k =>
    w.replicas.past[k]?.map fun other =>
      let s := w.replicas.state i
      { w with replicas :=
          w.replicas.set i ⟨s.register.merge other.register, s.known ++ other.known⟩ }

/-- The accepted writes that the replica knows. -/
def Replica.writes (s : Replica T) : Set (Write T) := {x | x ∈ s.known}

/-- The register holds the latest write that the replica knows. -/
def Replica.Current (s : Replica T) : Prop :=
  s.register.ZeroUnset ∧ IsLatest Write.key s.writes s.register.write

/-- Every register is current; accepted writes are known where they were made; and no two of them have
the same timestamp and node. -/
structure Ordered (w : World ι T) : Prop where
  recorded : w.replicas.Recorded
  current : ∀ s ∈ w.replicas.past, s.Current
  known : ∀ s ∈ w.replicas.past, ∀ x ∈ s.known, x ∈ w.accepted
  own : ∀ x ∈ w.accepted, ∃ i, x.nodeID = nodeOf i ∧ x ∈ (w.replicas.state i).known
  distinct : ∀ x ∈ w.accepted, ∀ y ∈ w.accepted, x.key = y.key → x = y

omit [DecidableEq ι] in
theorem ordered_start : Ordered nodeOf (World.start ι T) := by
  refine ⟨Replicas.recorded_start _, ?_, ?_, ?_, ?_⟩
  · intro s hs
    rw [mem_singleton.1 hs]
    refine ⟨fun _ => rfl, ?_⟩
    have hempty : (⟨.new, []⟩ : Replica T).writes = ∅ := by
      ext x
      exact mem_nil_iff x
    rw [hempty]
    exact .empty
  · intro s hs x hx
    rw [mem_singleton.1 hs] at hx
    exact absurd hx not_mem_nil
  · exact fun x hx => absurd hx not_mem_nil
  · exact fun x hx => absurd hx not_mem_nil

omit [Inhabited T] in
theorem writes_append (register : LWWRegister T) (known known' : List (Write T)) :
    (⟨register, known ++ known'⟩ : Replica T).writes = {x | x ∈ known} ∪ {x | x ∈ known'} := by
  ext x
  exact mem_append

variable {nodeOf}

theorem own_set {w : World ι T} {i : ι} {s : Replica T} {accepted : List (Write T)}
    (h : Ordered nodeOf w) (hmore : ∀ x ∈ (w.replicas.state i).known, x ∈ s.known)
    (hnew : ∀ x ∈ accepted, x ∈ w.accepted ∨ x.nodeID = nodeOf i ∧ x ∈ s.known) :
    ∀ x ∈ accepted, ∃ j, x.nodeID = nodeOf j ∧ x ∈ ((w.replicas.set i s).state j).known := by
  intro x hx
  obtain hold | ⟨hnode, hknown⟩ := hnew x hx
  · obtain ⟨j, hnode, hknown⟩ := h.own x hold
    refine ⟨j, hnode, ?_⟩
    by_cases hj : j = i
    · subst hj
      rw [Replicas.set_state_self]
      exact hmore x hknown
    · rw [Replicas.set_state_of_ne hj]
      exact hknown
  · refine ⟨i, hnode, ?_⟩
    rw [Replicas.set_state_self]
    exact hknown

variable {timestamp : Int}

theorem key_lt_of_accepts {s : Replica T} (h : s.Current) {nodeID : String} (value : T)
    (hacc : s.register.Accepts nodeID timestamp) {x : Write T} (hx : x ∈ s.known) :
    x.key < Write.key ⟨nodeID, value, timestamp⟩ := by
  obtain ⟨w, hw, hle⟩ := h.2.max x hx
  rw [LWWRegister.write] at hw
  split at hw
  · exact absurd hw (by simp)
  · rename_i hset
    rw [← some.inj hw] at hle
    exact hle.trans_lt (LWWRegister.key_lt_iff.2 (hacc.resolve_left hset))

omit [Inhabited T] in
theorem set_of_not_accepts {r : LWWRegister T} {nodeID : String} {value : T}
    (h : ¬ r.Accepts nodeID timestamp) : r.set nodeID value timestamp = r := by
  rw [LWWRegister.Accepts, not_or, not_or] at h
  rw [LWWRegister.set, if_neg h.1, if_neg h.2.1, if_neg h.2.2]

omit [DecidableEq ι] in
theorem distinct_snoc {w : World ι T} {i : ι} (value : T) (hinj : Function.Injective nodeOf)
    (h : Ordered nodeOf w) (hacc : (w.replicas.state i).register.Accepts (nodeOf i) timestamp) :
    ∀ x ∈ w.accepted, x.key ≠ Write.key ⟨nodeOf i, value, timestamp⟩ := by
  intro x hx hkey
  obtain ⟨j, hnode, hknown⟩ := h.own x hx
  have hsame : x.nodeID = nodeOf i := (Prod.mk.inj (toLex_inj.1 hkey)).2
  have hji : j = i := hinj (hnode.symm.trans hsame)
  subst hji
  have hlt := key_lt_of_accepts (h.current _ (h.recorded j)) value hacc hknown
  exact absurd hkey hlt.ne

theorem ordered_set {w w' : World ι T} {i : ι} {value : T} (hinj : Function.Injective nodeOf)
    (h : Ordered nodeOf w) (hs : step nodeOf w (.set i value timestamp) = some w') : Ordered nodeOf w' := by
  have hcur := h.current _ (h.recorded i)
  simp only [step] at hs
  split at hs
  · rename_i hacc
    cases hs
    refine ⟨Replicas.recorded_set h.recorded, ?_, ?_, ?_, ?_⟩
    · apply Replicas.forall_set h.current
      refine ⟨LWWRegister.zeroUnset_set _ _ _ _, ?_⟩
      rw [writes_append, LWWRegister.write_set]
      apply hcur.2.later
      have hsingle : {x | x ∈ [(⟨nodeOf i, value, timestamp⟩ : Write T)]} =
          {(⟨nodeOf i, value, timestamp⟩ : Write T)} := by
        ext x
        exact mem_singleton
      rw [hsingle]
      exact .single _
    · apply Replicas.forall_set
      · exact fun s hs x hx => mem_append_left _ (h.known s hs x hx)
      · intro x hx
        obtain hx | hx := mem_append.1 hx
        · exact mem_append_left _ (h.known _ (h.recorded i) x hx)
        · exact mem_append_right _ hx
    · apply own_set h
      · exact fun x hx => mem_append_left _ hx
      · intro x hx
        obtain hx | hx := mem_append.1 hx
        · exact .inl hx
        · refine .inr ⟨?_, mem_append_right _ hx⟩
          rw [mem_singleton.1 hx]
    · have hnew := distinct_snoc value hinj h hacc
      intro x hx y hy hkey
      obtain hx | hx := mem_append.1 hx
      · obtain hy | hy := mem_append.1 hy
        · exact h.distinct x hx y hy hkey
        · rw [mem_singleton.1 hy] at hkey
          exact absurd hkey (hnew x hx)
      · rw [mem_singleton.1 hx] at hkey ⊢
        obtain hy | hy := mem_append.1 hy
        · exact absurd hkey.symm (hnew y hy)
        · exact (mem_singleton.1 hy).symm
  · rename_i hacc
    cases hs
    rw [set_of_not_accepts hacc]
    refine ⟨Replicas.recorded_set h.recorded, ?_, ?_, ?_, h.distinct⟩
    · exact Replicas.forall_set h.current hcur
    · exact Replicas.forall_set h.known (h.known _ (h.recorded i))
    · exact own_set h (fun _ hx => hx) fun _ hx => .inl hx

theorem ordered_merge {w w' : World ι T} {i : ι} {k : Nat} (h : Ordered nodeOf w)
    (hs : step nodeOf w (.merge i k) = some w') : Ordered nodeOf w' := by
  obtain ⟨other, hother, rfl⟩ := map_eq_some_iff.1 hs
  have hmem : other ∈ w.replicas.past := mem_of_getElem? hother
  have hcur := h.current _ (h.recorded i)
  refine ⟨Replicas.recorded_set h.recorded, ?_, ?_, ?_, h.distinct⟩
  · apply Replicas.forall_set h.current
    refine ⟨LWWRegister.zeroUnset_merge hcur.1 _, ?_⟩
    rw [writes_append, LWWRegister.write_merge]
    exact hcur.2.later (h.current other hmem).2
  · apply Replicas.forall_set h.known
    intro x hx
    obtain hx | hx := mem_append.1 hx
    · exact h.known _ (h.recorded i) x hx
    · exact h.known other hmem x hx
  · exact own_set h (fun _ hx => mem_append_left _ hx) fun _ hx => .inl hx

/-! ## Convergence -/

/-- The replicas know the same accepted writes. -/
def SameWrites (s t : Replica T) : Prop := ∀ x, x ∈ s.known ↔ x ∈ t.known

/-- **Replicas that know the same writes hold the same register, and on the states of a run `Merge` is
commutative, associative and idempotent**, when the replicas write under distinct node IDs. -/
theorem replicas_converge (hinj : Function.Injective nodeOf) {w : World ι T}
    (hreach : Reachable (step nodeOf) (World.start ι T) w) :
    (∀ i j, SameWrites (w.replicas.state i) (w.replicas.state j) →
      (w.replicas.state i).register = (w.replicas.state j).register) ∧
    (∀ a ∈ w.replicas.past, ∀ b ∈ w.replicas.past,
      a.register.merge b.register = b.register.merge a.register) ∧
    (∀ a ∈ w.replicas.past, ∀ b ∈ w.replicas.past, ∀ c ∈ w.replicas.past,
      (a.register.merge b.register).merge c.register =
        a.register.merge (b.register.merge c.register)) ∧
    (∀ a ∈ w.replicas.past, a.register.merge a.register = a.register) := by
  have h : Ordered nodeOf w := by
    refine hreach.invariant (I := Ordered nodeOf) (ordered_start nodeOf) ?_
    intro w op w' _ h _ hs
    cases op with
    | set i value timestamp => exact ordered_set hinj h hs
    | merge i k => exact ordered_merge h hs
  have hkeys : Set.InjOn Write.key {x | x ∈ w.accepted} := h.distinct
  have hsub : ∀ s ∈ w.replicas.past, s.writes ⊆ {x | x ∈ w.accepted} := h.known
  refine ⟨?_, ?_, ?_, ?_⟩
  · intro i j hsame
    have hi := h.current _ (h.recorded i)
    have hj := h.current _ (h.recorded j)
    have hwrites : (w.replicas.state i).writes = (w.replicas.state j).writes := Set.ext hsame
    apply LWWRegister.eq_of_write hi.1 hj.1
    exact (hwrites ▸ hi.2).unique (hkeys.mono (hsub _ (h.recorded j))) hj.2
  · intro a ha b hb
    have hca := h.current a ha
    have hcb := h.current b hb
    apply LWWRegister.eq_of_write (LWWRegister.zeroUnset_merge hca.1 _)
      (LWWRegister.zeroUnset_merge hcb.1 _)
    rw [LWWRegister.write_merge, LWWRegister.write_merge]
    exact later_comm hkeys (hsub a ha) (hsub b hb) hca.2 hcb.2
  · intro a ha b hb c hc
    have hca := h.current a ha
    apply LWWRegister.eq_of_write
      (LWWRegister.zeroUnset_merge (LWWRegister.zeroUnset_merge hca.1 _) _)
      (LWWRegister.zeroUnset_merge hca.1 _)
    simp only [LWWRegister.write_merge]
    exact later_assoc hkeys (hsub a ha) (hsub b hb) (hsub c hc) hca.2 (h.current b hb).2
      (h.current c hc).2
  · intro a ha
    have hca := h.current a ha
    apply LWWRegister.eq_of_write (LWWRegister.zeroUnset_merge hca.1 _) hca.1
    rw [LWWRegister.write_merge]
    exact later_self _

/-- Two nodes write at the same time, and each takes over the other's first state. -/
def tieRun : List (Op Bool Nat) :=
  [.set true 1 5, .set false 2 5, .set true 3 4, .merge true 2, .merge false 1]

theorem replicas_converge_tie : ∃ w : World Bool Nat,
    exec (step fun i => if i then "a" else "b") (World.start Bool Nat) tieRun = some w ∧
      (w.replicas.state true).register = (w.replicas.state false).register := by
  have hrun : (exec (step fun i => if i then "a" else "b") (World.start Bool Nat) tieRun).map
      (fun w => decide ((w.replicas.state true).known = [⟨"a", 1, 5⟩, ⟨"b", 2, 5⟩] ∧
        (w.replicas.state false).known = [⟨"b", 2, 5⟩, ⟨"a", 1, 5⟩])) = some true := by
    rfl
  obtain ⟨w, hw, hknown⟩ := map_eq_some_iff.1 hrun
  obtain ⟨htrue, hfalse⟩ := of_decide_eq_true hknown
  have hinj : ∀ i j : Bool, (if i then "a" else "b") = (if j then "a" else "b") → i = j := by decide
  refine ⟨w, hw, (replicas_converge (fun i j h => hinj i j h) (reachable_of_exec hw)).1 true false ?_⟩
  intro x
  rw [htrue, hfalse, mem_pair, mem_pair]
  exact or_comm

end LWW

end SystemDesignLabs.Crdt
