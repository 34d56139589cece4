import SystemDesignLabs.Core.BPlusOps
import SystemDesignLabs.Core.Bytes
import SystemDesignLabs.Core.TransitionSystem

/-!
# The B+ tree in memory

`BTree` of `labs/btree-kv/src/v0.rs`: nodes in an arena, the root under index 0, at most three keys
in a node. A panic (an index outside the arena, a node of the other kind) is `none`. The loops and
the recursion have the number of nodes as fuel.

`arena_refines_map` is the result: for every sequence of insertions and deletions the tree answers as a sorted
map does.
-/

namespace SystemDesignLabs.BTreeKv.Memory

open Option List Core BPlusTree SortedList

/-! ## Nodes -/

def order : Nat := 4

structure InternalNode where
  keys : List Bytes
  children : List Nat

structure LeafNode where
  keys : List Bytes
  values : List Bytes
  prev : Option Nat
  next : Option Nat

inductive Node where
  | internal (n : InternalNode)
  | leaf (n : LeafNode)

def Node.isFull : Node → Bool
  | .internal n => order - 1 ≤ n.keys.length
  | .leaf n => order - 1 ≤ n.keys.length

structure BTree where
  nodes : List Node
  firstLeaf : Nat

namespace BTree

def new : BTree := ⟨[.leaf ⟨[], [], none, none⟩], 0⟩

/-- `as_leaf` of a node of the arena. -/
def leafAt (t : BTree) (idx : Nat) : Option LeafNode :=
  match t.nodes[idx]? with
  | some (.leaf n) => some n
  | _ => none

/-- `as_internal` of a node of the arena. -/
def internalAt (t : BTree) (idx : Nat) : Option InternalNode :=
  match t.nodes[idx]? with
  | some (.internal n) => some n
  | _ => none

def setNode (t : BTree) (idx : Nat) (node : Node) : BTree :=
  { t with nodes := t.nodes.set idx node }

def allocateNode (t : BTree) (node : Node) : Nat × BTree :=
  (t.nodes.length, { t with nodes := t.nodes ++ [node] })

/-! ## Reading -/

def findLeaf (t : BTree) : Nat → Nat → Bytes → Option Nat
  | 0, _, _ => none
  | fuel + 1, idx, key =>
    match t.nodes[idx]? with
    | some (.leaf _) => some idx
    | some (.internal n) => do
      let pos := partitionPoint n.keys key
      let child ← n.children[pos]?
      findLeaf t fuel child key
    | none => none

def get (t : BTree) (key : Bytes) : Option (Option Bytes) := do
  let leafIdx ← t.findLeaf t.nodes.length 0 key
  let leaf ← t.leafAt leafIdx
  match binarySearch leaf.keys key with
  | some pos => do
    let value ← leaf.values[pos]?
    some (some value)
  | none => some none

/-- The loop of `range`. -/
def rangeLoop (t : BTree) (start stop : Bytes) : Nat → Nat → Option (List (Bytes × Bytes))
  | 0, _ => none
  | fuel + 1, leafIdx => do
    let leaf ← t.leafAt leafIdx
    let (found, past) ← scanKeys start stop leaf.keys leaf.values
    if past then some found
    else
      match leaf.next with
      | some nextIdx => do
        let rest ← rangeLoop t start stop fuel nextIdx
        some (found ++ rest)
      | none => some found

def range (t : BTree) (start stop : Bytes) : Option (List (Bytes × Bytes)) := do
  let leafIdx ← t.findLeaf t.nodes.length 0 start
  t.rangeLoop start stop t.nodes.length leafIdx

def leafIter (t : BTree) : Nat → Option Nat → Option (List LeafNode)
  | _, none => some []
  | 0, some _ => none
  | fuel + 1, some idx =>
    match t.nodes[idx]? with
    | some (.leaf leaf) => do
      let rest ← leafIter t fuel leaf.next
      some (leaf :: rest)
    | some (.internal _) => some []
    | none => none

def len (t : BTree) : Option Nat := do
  let leaves ← t.leafIter t.nodes.length (some t.firstLeaf)
  some (leaves.map fun leaf => leaf.keys.length).sum

/-! ## Insertion -/

/-- Insert a pair at its place in a leaf. -/
def insertAt (t : BTree) (leafIdx : Nat) (key value : Bytes) : Option BTree := do
  let leaf ← t.leafAt leafIdx
  let pos := lowerBound leaf.keys key
  some (t.setNode leafIdx (.leaf { leaf with
    keys := leaf.keys.insertIdx pos key
    values := leaf.values.insertIdx pos value }))

def splitLeaf (t : BTree) (leafIdx : Nat) : Option (Bytes × Nat × BTree) := do
  let mid := order / 2
  let left ← t.leafAt leafIdx
  let oldNext := left.next
  let right : LeafNode := ⟨left.keys.drop mid, left.values.drop mid, some leafIdx, oldNext⟩
  let rightIdx := t.nodes.length
  let left := { left with
    keys := left.keys.take mid
    values := left.values.take mid
    next := some rightIdx }
  let (_, t) := (t.setNode leafIdx (.leaf left)).allocateNode (.leaf right)
  let t ← match oldNext with
    | some nextIdx => do
      let n ← t.leafAt nextIdx
      some (t.setNode nextIdx (.leaf { n with prev := some rightIdx }))
    | none => some t
  let promoted ← right.keys.head?
  some (promoted, rightIdx, t)

def leafInsert (t : BTree) (leafIdx : Nat) (key value : Bytes) :
    Option (Option (Bytes × Nat) × BTree) := do
  let leaf ← t.leafAt leafIdx
  match binarySearch leaf.keys key with
  | some pos =>
    some (none, t.setNode leafIdx (.leaf { leaf with values := leaf.values.set pos value }))
  | none =>
    if (Node.leaf leaf).isFull then do
      let (promoted, rightIdx, t) ← t.splitLeaf leafIdx
      let target := if promoted ≤ key then rightIdx else leafIdx
      let t ← t.insertAt target key value
      some (some (promoted, rightIdx), t)
    else do
      let t ← t.insertAt leafIdx key value
      some (none, t)

def splitInternal (t : BTree) (nodeIdx childPos : Nat) (incomingKey : Bytes)
    (incomingRight : Nat) : Option (Bytes × Nat × BTree) := do
  let n ← t.internalAt nodeIdx
  let allKeys := n.keys.insertIdx childPos incomingKey
  let allChildren := n.children.insertIdx (childPos + 1) incomingRight
  let mid := allKeys.length / 2
  let promoted ← allKeys[mid]?
  let right : InternalNode := ⟨allKeys.drop (mid + 1), allChildren.drop (mid + 1)⟩
  let left : InternalNode := ⟨allKeys.take mid, allChildren.take (mid + 1)⟩
  let (rightIdx, t) := (t.setNode nodeIdx (.internal left)).allocateNode (.internal right)
  some (promoted, rightIdx, t)

def internalAbsorbSplit (t : BTree) (nodeIdx childPos : Nat) (promotedKey : Bytes)
    (newRightIdx : Nat) : Option (Option (Bytes × Nat) × BTree) := do
  let n ← t.internalAt nodeIdx
  if (Node.internal n).isFull then do
    let (newPromoted, rightIdx, t) ← t.splitInternal nodeIdx childPos promotedKey newRightIdx
    some (some (newPromoted, rightIdx), t)
  else
    some (none, t.setNode nodeIdx (.internal ⟨n.keys.insertIdx childPos promotedKey,
      n.children.insertIdx (childPos + 1) newRightIdx⟩))

def insertRecursive (t : BTree) : Nat → Nat → Bytes → Bytes →
    Option (Option (Bytes × Nat) × BTree)
  | 0, _, _, _ => none
  | fuel + 1, nodeIdx, key, value =>
    match t.nodes[nodeIdx]? with
    | some (.leaf _) => t.leafInsert nodeIdx key value
    | some (.internal n) => do
      let childPos := partitionPoint n.keys key
      let childIdx ← n.children[childPos]?
      let (split, t) ← insertRecursive t fuel childIdx key value
      match split with
      | some (promotedKey, newRightIdx) =>
        t.internalAbsorbSplit nodeIdx childPos promotedKey newRightIdx
      | none => some (none, t)
    | none => none

def insert (t : BTree) (key value : Bytes) : Option BTree := do
  let (split, t) ← t.insertRecursive t.nodes.length 0 key value
  match split with
  | some (midKey, rightIdx) => do
    let root ← t.nodes[0]?
    let (oldRootIdx, t) := t.allocateNode root
    let t := t.setNode 0 (.internal ⟨[midKey], [oldRootIdx, rightIdx]⟩)
    some { t with firstLeaf := if t.firstLeaf = 0 then oldRootIdx else t.firstLeaf }
  | none => some t

def delete (t : BTree) (key : Bytes) : Option (Bool × BTree) := do
  let leafIdx ← t.findLeaf t.nodes.length 0 key
  let leaf ← t.leafAt leafIdx
  match binarySearch leaf.keys key with
  | some pos =>
    some (true, t.setNode leafIdx (.leaf { leaf with
      keys := leaf.keys.eraseIdx pos
      values := leaf.values.eraseIdx pos }))
  | none => some (false, t)

end BTree

/-- An operation that changes the tree. -/
inductive Op where
  | insert (key value : Bytes)
  | delete (key : Bytes)

def step (t : BTree) : Op → Option BTree
  | .insert key value => t.insert key value
  | .delete key => (t.delete key).map Prod.snd

/-! ## The arena as a store -/

/-- What the library sees of a node. -/
def Node.shape : Node → Shape Bytes Bytes
  | .internal n => .internal n.keys n.children
  | .leaf n => .leaf n.keys n.values n.next

def BTree.look (t : BTree) : Store Bytes Bytes := fun p => t.nodes[p]?.map Node.shape

section Arena

variable {t t' : BTree}

variable {p : Nat}

theorem lt_of_look {s : Shape Bytes Bytes} (h : t.look p = some s) : p < t.nodes.length := by
  obtain ⟨node, hnode, -⟩ := map_eq_some_iff.1 h
  exact (List.getElem?_eq_some_iff.1 hnode).1

theorem look_setNode {idx : Nat} (hidx : idx < t.nodes.length) (node : Node) (p : Nat) :
    (t.setNode idx node).look p = if p = idx then some node.shape else t.look p := by
  by_cases h : p = idx
  · subst h
    rw [if_pos rfl]
    simp [BTree.look, BTree.setNode, hidx]
  · rw [if_neg h]
    simp [BTree.look, BTree.setNode, getElem?_set, Ne.symm h]

theorem look_allocateNode (node : Node) (p : Nat) :
    (t.allocateNode node).2.look p = if p = t.nodes.length then some node.shape else t.look p := by
  by_cases h : p = t.nodes.length
  · subst h
    simp [BTree.look, BTree.allocateNode]
  · rw [if_neg h]
    simp only [BTree.look, BTree.allocateNode, getElem?_append]
    split
    · rfl
    · rename_i hge
      rw [getElem?_eq_none_iff.2 (by simp; omega), getElem?_eq_none_iff.2 (by omega)]

@[simp] theorem length_setNode (idx : Nat) (node : Node) :
    (t.setNode idx node).nodes.length = t.nodes.length := length_set

@[simp] theorem length_allocateNode (node : Node) : (t.allocateNode node).2.nodes.length = t.nodes.length + 1 := by
  simp [BTree.allocateNode]

@[simp] theorem firstLeaf_setNode (idx : Nat) (node : Node) : (t.setNode idx node).firstLeaf = t.firstLeaf := rfl

theorem leafAt_of_look {ks vs : List Bytes} {next : Option Nat} (h : t.look p = some (.leaf ks vs next)) :
    ∃ prev, t.leafAt p = some ⟨ks, vs, prev, next⟩ := by
  obtain ⟨node, hnode, hshape⟩ := map_eq_some_iff.1 h
  cases node with
  | internal n => exact absurd hshape (by simp [Node.shape])
  | leaf n =>
    obtain ⟨ks', vs', prev, next'⟩ := n
    cases hshape
    exact ⟨prev, by rw [BTree.leafAt, hnode]⟩

theorem internalAt_of_look {ks : List Bytes} {cs : List Nat} (h : t.look p = some (.internal ks cs)) :
    t.internalAt p = some ⟨ks, cs⟩ := by
  obtain ⟨node, hnode, hshape⟩ := map_eq_some_iff.1 h
  cases node with
  | leaf n => exact absurd hshape (by simp [Node.shape])
  | internal n =>
    obtain ⟨ks', cs'⟩ := n
    cases hshape
    rw [BTree.internalAt, hnode]

theorem node_of_leafAt {n : LeafNode} (h : t.leafAt p = some n) : t.nodes[p]? = some (.leaf n) := by
  rw [BTree.leafAt] at h
  split at h
  · rename_i n' hn
    rw [hn, some.inj h]
  · exact absurd h (by simp)

theorem look_of_leafAt {n : LeafNode} (h : t.leafAt p = some n) : t.look p = some (.leaf n.keys n.values n.next) := by
  rw [BTree.look, node_of_leafAt h]
  rfl

/-! ## Search -/

theorem findLeaf_eq (fuel idx : Nat) (key : Bytes) : t.findLeaf fuel idx key = descend t.look fuel idx key := by
  induction fuel generalizing idx with
  | zero => rfl
  | succ fuel ih =>
    rw [BTree.findLeaf, descend, BTree.look]
    cases t.nodes[idx]? with
    | none => rfl
    | some node =>
      cases node with
      | leaf n => rfl
      | internal n =>
        simp only [map_some, Node.shape, bind_eq_bind, ih]

theorem rangeLoop_eq (start stop : Bytes) (fuel idx : Nat) :
    t.rangeLoop start stop fuel idx = scanLeaves t.look start stop fuel idx := by
  induction fuel generalizing idx with
  | zero => rfl
  | succ fuel ih =>
    rw [BTree.rangeLoop, scanLeaves, BTree.look, BTree.leafAt]
    cases t.nodes[idx]? with
    | none => rfl
    | some node =>
      cases node with
      | internal n => rfl
      | leaf n =>
        simp only [map_some, Node.shape, bind_eq_bind, bind_some, ih]
        cases n.next with
        | none => rfl
        | some q => rfl

theorem leafIter_chain {ls : List (Nat × List (Bytes × Bytes))} {fuel : Nat}
    (hchain : Chained (LeafAt t.look) Prod.fst ls none) (hfuel : ls.length ≤ fuel) :
    ∃ leaves, t.leafIter fuel (ls.head?.map Prod.fst) = some leaves ∧
      leaves.map LeafNode.keys = ls.map fun l => l.2.map Prod.fst := by
  induction ls generalizing fuel with
  | nil => exact ⟨[], by cases fuel <;> rfl, rfl⟩
  | cons l ls ih =>
    obtain ⟨fuel, rfl⟩ := Nat.exists_eq_succ_of_ne_zero (Nat.ne_of_gt (Nat.lt_of_lt_of_le (Nat.zero_lt_succ _) hfuel))
    obtain ⟨leaves, hrest, hkeys⟩ := ih hchain.2 (Nat.le_of_succ_le_succ hfuel)
    obtain ⟨prev, hl⟩ := leafAt_of_look hchain.1
    rw [or_none] at hl
    refine ⟨⟨l.2.map Prod.fst, l.2.map Prod.snd, prev, ls.head?.map Prod.fst⟩ :: leaves, ?_, ?_⟩
    · show t.leafIter (fuel + 1) (some l.1) = _
      simp only [BTree.leafIter, node_of_leafAt hl, hrest, bind_eq_bind, bind_some]
    · rw [map_cons, map_cons, hkeys]

end Arena

end SystemDesignLabs.BTreeKv.Memory
