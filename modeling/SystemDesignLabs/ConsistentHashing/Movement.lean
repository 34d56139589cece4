import SystemDesignLabs.ConsistentHashing.Ring

/-!
# What adding and removing a node moves

As long as no node is placed at a position that another node holds, the owner map and the slice of a ring
say the same (`Ring.Placed`), `GetNode` returns the owner of the successor of the key (`getNode_eq_some_iff`),
and adding or removing a node moves only the keys of that node. When two nodes share a position, the later
one takes it over and both lose it with the first removal.
-/

namespace SystemDesignLabs.ConsistentHashing

open List Option Core SortedMap

/-- What moves when a node comes or goes, on a ring `r`. Only nodes with `Free r n` are added. -/
structure MovesMinimum {R : Type} (addNode : R → Node → R) (removeNode : R → String → R)
    (getNode : R → String → Option Node) (nodes : R → SortedMap String Node) (Free : R → Node → Prop)
    (r : R) : Prop where
  add : ∀ n, Free r n → ∀ key,
    getNode (addNode r n) key = getNode r key ∨ getNode (addNode r n) key = some n
  remove : ∀ name key,
    getNode (removeNode r name) key = getNode r key ∨ ∃ n, getNode r key = some n ∧ n.name = name
  restore : ∀ n, Free r n → (nodes r).get n.name = none → ∀ key,
    getNode (removeNode (addNode r n) n.name) key = getNode r key
  present : ∀ name n, (nodes r).get name = some n → ∀ key,
    ∃ m, getNode r key = some m ∧ (nodes r).get m.name = some m

/-! ## The invariant -/

namespace Ring

variable {hash32 : String → Position} {labels : String → List String}

/-- The slice and the owner map agree: each node on the ring owns the positions of its labels, and there
are no others. -/
structure Placed (hash32 : String → Position) (labels : String → List String) (r : Ring) : Prop where
  sorted : r.positions.Pairwise (· ≤ ·)
  mem_positions : ∀ p, p ∈ r.positions ↔ (r.nodeMap.get p).isSome
  owner : ∀ p n, r.nodeMap.get p = some n → r.nodes.get n.name = some n ∧ p ∈ (labels n.name).map hash32
  owned : ∀ name n, r.nodes.get name = some n →
    n.name = name ∧ ∀ p ∈ (labels name).map hash32, r.nodeMap.get p = some n

theorem placed_empty : Placed hash32 labels .empty where
  sorted := Pairwise.nil
  mem_positions p := by simp [empty]
  owner p n h := by simp [empty] at h
  owned name n h := by simp [empty] at h

/-- No label of a new node hashes to a position that is taken. -/
def Free (hash32 : String → Position) (labels : String → List String) (r : Ring) (n : Node) : Prop :=
  r.nodes.get n.name = none → ∀ label ∈ labels n.name, hash32 label ∉ r.positions

instance (labels : String → List String) (r : Ring) (n : Node) : Decidable (Free hash32 labels r n) :=
  inferInstanceAs (Decidable (_ → _))

/-- `GetNode` returns the owner of the successor of the key. -/
theorem getNode_eq_some_iff {r : Ring} (hr : Placed hash32 labels r) {key : String} {x : Node} :
    r.getNode hash32 key = some x ↔ Owns r.nodeMap.get (hash32 key) x := by
  have hdom : {q | q ∈ r.positions} = {q | (r.nodeMap.get q).isSome} := Set.ext hr.mem_positions
  rw [getNode]
  split
  · rename_i hlen
    -- without a position there is no owner
    have hnil : r.positions = [] := eq_nil_of_length_eq_zero hlen
    refine iff_of_false (fun h => nomatch h) ?_
    rintro ⟨p, hp, -⟩
    have hmem := (hr.mem_positions p).2 hp.mem
    rw [hnil] at hmem
    exact not_mem_nil hmem
  · rename_i hlen
    have hne : r.positions ≠ [] := fun h => hlen (by rw [h]; rfl)
    obtain ⟨p, hget, hp⟩ := search_successor hr.sorted hne (hash32 key)
    rw [hdom] at hp
    dsimp only
    rw [hget, bind_some]
    constructor
    · intro hx
      exact ⟨p, hp, hx⟩
    · rintro ⟨q, hq, hx⟩
      rw [hp.unique hq]
      exact hx

theorem exists_getNode {r : Ring} (hr : Placed hash32 labels r) {p : Position}
    (hp : (r.nodeMap.get p).isSome) (key : String) : ∃ m, r.getNode hash32 key = some m := by
  have hmem := (hr.mem_positions p).2 hp
  obtain ⟨q, -, hq⟩ := search_successor hr.sorted (ne_nil_of_mem hmem) (hash32 key)
  have hsome := (hr.mem_positions q).1 hq.mem
  obtain ⟨m, hm⟩ := isSome_iff_exists.1 hsome
  exact ⟨m, (getNode_eq_some_iff hr).2 ⟨q, hq.mono (fun a ha => (hr.mem_positions a).2 ha) hsome, hm⟩⟩

theorem getNode_present {r : Ring} (hr : Placed hash32 labels r) (hlabels : ∀ name, labels name ≠ [])
    {name : String} {n : Node} (hn : r.nodes.get name = some n) (key : String) :
    ∃ m, r.getNode hash32 key = some m ∧ r.nodes.get m.name = some m := by
  obtain ⟨label, hlabel⟩ := exists_mem_of_ne_nil _ (hlabels name)
  have hget := (hr.owned name n hn).2 _ (mem_map_of_mem hlabel)
  obtain ⟨m, hm⟩ := exists_getNode hr (isSome_iff_exists.2 ⟨n, hget⟩) key
  obtain ⟨p, -, hp⟩ := (getNode_eq_some_iff hr).1 hm
  exact ⟨m, hm, (hr.owner p m hp).1⟩

theorem getNode_congr {r r' : Ring} (hr : Placed hash32 labels r) (hr' : Placed hash32 labels r')
    (h : ∀ p, r'.nodeMap.get p = r.nodeMap.get p) (key : String) : r'.getNode hash32 key = r.getNode hash32 key := by
  apply ext
  intro x
  rw [getNode_eq_some_iff hr, getNode_eq_some_iff hr', funext h]

/-! ## Adding a node -/

theorem get_foldl_insert (ls : List String) (m : SortedMap Position Node) (n : Node) (p : Position) :
    (ls.foldl (fun m label => m.insert (hash32 label) n) m).get p = if p ∈ ls.map hash32 then some n else m.get p := by
  induction ls generalizing m with
  | nil => simp
  | cons label ls ih =>
    rw [foldl_cons, ih, get_insert, map_cons]
    by_cases hp : p ∈ ls.map hash32
    · rw [if_pos hp, if_pos (mem_cons_of_mem _ hp)]
    · rw [if_neg hp]
      simp only [mem_cons, hp, or_false]

theorem addNode_of_taken {r : Ring} {ls : List String} {n m : Node} (h : r.nodes.get n.name = some m) :
    r.addNode hash32 ls n = r := by
  rw [addNode, h]

section Add

variable {r : Ring} {n : Node}

section

variable (hnew : r.nodes.get n.name = none)
include hnew

theorem mem_positions_addNode (ls : List String) (p : Position) :
    p ∈ (r.addNode hash32 ls n).positions ↔ p ∈ r.positions ∨ p ∈ ls.map hash32 := by
  rw [addNode, hnew]
  exact (mem_sortByKey _).trans mem_append

theorem get_nodeMap_addNode (ls : List String) (p : Position) :
    (r.addNode hash32 ls n).nodeMap.get p = if p ∈ ls.map hash32 then some n else r.nodeMap.get p := by
  rw [addNode, hnew]
  exact get_foldl_insert ls r.nodeMap n p

theorem get_nodes_addNode (ls : List String) (name : String) :
    (r.addNode hash32 ls n).nodes.get name = if name = n.name then some n else r.nodes.get name := by
  rw [addNode, hnew]
  exact get_insert r.nodes n.name n name

end

theorem Placed.addNode (hr : Placed hash32 labels r) (hfree : Free hash32 labels r n) :
    Placed hash32 labels (r.addNode hash32 (labels n.name) n) := by
  cases hnew : r.nodes.get n.name with
  | some m => exact (addNode_of_taken hnew).symm ▸ hr
  | none =>
    have hslots : ∀ p ∈ (labels n.name).map hash32, r.nodeMap.get p = none := by
      intro p hp
      obtain ⟨label, hlabel, rfl⟩ := mem_map.1 hp
      have hnot := hfree hnew label hlabel
      rwa [hr.mem_positions, not_isSome_iff_eq_none] at hnot
    constructor
    · rw [Ring.addNode, hnew]
      exact pairwise_sortByKey _ _
    · intro p
      rw [mem_positions_addNode hnew, get_nodeMap_addNode hnew, hr.mem_positions]
      by_cases hp : p ∈ (labels n.name).map hash32
      · simp only [hp, or_true, if_true, isSome_some]
      · simp only [hp, or_false, if_false]
    · intro p m hm
      rw [get_nodeMap_addNode hnew] at hm
      rw [get_nodes_addNode hnew]
      by_cases hp : p ∈ (labels n.name).map hash32
      · rw [if_pos hp, some.injEq] at hm
        subst hm
        exact ⟨if_pos rfl, hp⟩
      · rw [if_neg hp] at hm
        obtain ⟨hnode, hmem⟩ := hr.owner p m hm
        have hne : m.name ≠ n.name := fun h => by rw [h, hnew] at hnode; exact nomatch hnode
        exact ⟨(if_neg hne).trans hnode, hmem⟩
    · intro name m hm
      rw [get_nodes_addNode hnew] at hm
      split at hm
      · rename_i heq
        rw [some.injEq] at hm
        subst heq hm
        exact ⟨rfl, fun p hp => (get_nodeMap_addNode hnew _ p).trans (if_pos hp)⟩
      · obtain ⟨hname, hown⟩ := hr.owned name m hm
        refine ⟨hname, fun p hp => ?_⟩
        have hpn : p ∉ (labels n.name).map hash32 := fun h => by
          have hnone := hslots p h
          rw [hown p hp] at hnone
          exact nomatch hnone
        rw [get_nodeMap_addNode hnew, if_neg hpn]
        exact hown p hp

/-- After `AddNode` the owner of a key is unchanged or is the new node. -/
theorem getNode_addNode (hr : Placed hash32 labels r) (hlabels : ∀ name, labels name ≠ [])
    (hfree : Free hash32 labels r n) (key : String) :
    (r.addNode hash32 (labels n.name) n).getNode hash32 key = r.getNode hash32 key ∨
      (r.addNode hash32 (labels n.name) n).getNode hash32 key = some n := by
  cases hnew : r.nodes.get n.name with
  | some m => exact .inl (by rw [addNode_of_taken hnew])
  | none =>
    have hr' := hr.addNode hfree
    have hmem : (r.addNode hash32 (labels n.name) n).nodes.get n.name = some n :=
      (get_nodes_addNode hnew _ _).trans (if_pos rfl)
    obtain ⟨m, hm, -⟩ := getNode_present hr' hlabels hmem key
    -- read backwards, adding the node takes positions of the node away
    have hsame : ∀ q, (r.addNode hash32 (labels n.name) n).nodeMap.get q = r.nodeMap.get q ∨
        (r.addNode hash32 (labels n.name) n).nodeMap.get q = some n := by
      intro q
      rw [get_nodeMap_addNode hnew]
      split
      · exact .inr rfl
      · exact .inl rfl
    have hdom : ∀ q, (r.nodeMap.get q).isSome →
        ((r.addNode hash32 (labels n.name) n).nodeMap.get q).isSome := by
      intro q hq
      rw [get_nodeMap_addNode hnew]
      split
      · rfl
      · exact hq
    rcases ((getNode_eq_some_iff hr').1 hm).of_larger hsame hdom with rfl | hold
    · exact .inr hm
    · exact .inl (hm.trans ((getNode_eq_some_iff hr).2 hold).symm)

end Add

/-! ## Removing a node -/

/-- What both versions of `RemoveNode` do with a node on the ring. -/
structure Removes (hash32 : String → Position) (ls : List String) (r : Ring) (name : String) (r' : Ring) :
    Prop where
  sorted : r'.positions.Pairwise (· ≤ ·)
  mem_positions : ∀ p, p ∈ r'.positions ↔ p ∈ r.positions ∧ p ∉ ls.map hash32
  get_nodeMap : ∀ p, r'.nodeMap.get p = if p ∈ ls.map hash32 then none else r.nodeMap.get p
  get_nodes : ∀ k, r'.nodes.get k = if k = name then none else r.nodes.get k

section Remove

variable {r r' : Ring} {name : String}

section

variable (hr : Placed hash32 labels r)
include hr

theorem Placed.removes {n : Node} (hn : r.nodes.get name = some n)
    (h : Removes hash32 (labels name) r name r') : Placed hash32 labels r' := by
  obtain ⟨-, hown⟩ := hr.owned name n hn
  refine ⟨h.sorted, ?_, ?_, ?_⟩
  · intro p
    rw [h.mem_positions, h.get_nodeMap, hr.mem_positions]
    by_cases hp : p ∈ (labels name).map hash32
    · simp only [hp, not_true_eq_false, and_false, if_true, isSome_none, Bool.false_eq_true]
    · simp only [hp, not_false_eq_true, and_true, if_false]
  · intro p m hm
    rw [h.get_nodeMap] at hm
    split at hm
    · exact nomatch hm
    · rename_i hp
      obtain ⟨hnode, hmem⟩ := hr.owner p m hm
      have hne : m.name ≠ name := fun heq => hp (heq ▸ hmem)
      exact ⟨(h.get_nodes _).trans ((if_neg hne).trans hnode), hmem⟩
  · intro k m hm
    rw [h.get_nodes] at hm
    split at hm
    · exact nomatch hm
    · rename_i hk
      obtain ⟨hname, hslots⟩ := hr.owned k m hm
      refine ⟨hname, fun p hp => ?_⟩
      -- a position of both nodes would have two owners
      have hnot : p ∉ (labels name).map hash32 := by
        intro hmem
        have heq : n = m := some.inj ((hown p hmem).symm.trans (hslots p hp))
        exact hk (hname.symm.trans (heq ▸ (hr.owned name n hn).1))
      rw [h.get_nodeMap, if_neg hnot]
      exact hslots p hp

/-- After `RemoveNode` the owner of a key is unchanged unless it was that node. -/
theorem getNode_removes {n : Node} (hn : r.nodes.get name = some n)
    (h : Removes hash32 (labels name) r name r') (key : String) :
    r'.getNode hash32 key = r.getNode hash32 key ∨ ∃ m, r.getNode hash32 key = some m ∧ m.name = name := by
  obtain ⟨hname, hown⟩ := hr.owned name n hn
  have hr' := hr.removes hn h
  have hsame : ∀ q, r.nodeMap.get q = r'.nodeMap.get q ∨ r.nodeMap.get q = some n := by
    intro q
    rw [h.get_nodeMap]
    split
    · rename_i hq
      exact .inr (hown q hq)
    · exact .inl rfl
  have hdom : ∀ q, (r'.nodeMap.get q).isSome → (r.nodeMap.get q).isSome := by
    intro q hq
    rw [h.get_nodeMap] at hq
    split at hq
    · exact absurd hq Bool.false_ne_true
    · exact hq
  cases hkey : r.getNode hash32 key with
  | none =>
    -- no owner before, so no position before and none afterwards
    refine .inl (eq_none_iff_forall_not_mem.2 fun x hx => ?_)
    obtain ⟨p, hp, -⟩ := (getNode_eq_some_iff hr').1 hx
    obtain ⟨m, hm⟩ := exists_getNode hr (hdom p hp.mem) key
    rw [hkey] at hm
    exact nomatch hm
  | some m =>
    rcases ((getNode_eq_some_iff hr).1 hkey).of_larger hsame hdom with rfl | hkept
    · exact .inr ⟨m, rfl, hname⟩
    · exact .inl ((getNode_eq_some_iff hr').2 hkept)

/-- Removing the node just added restores every owner. -/
theorem getNode_restored {n : Node} (hnew : r.nodes.get n.name = none)
    (hfree : Free hash32 labels r n)
    (h : Removes hash32 (labels n.name) (r.addNode hash32 (labels n.name) n) n.name r') (key : String) :
    r'.getNode hash32 key = r.getNode hash32 key := by
  have hn : (r.addNode hash32 (labels n.name) n).nodes.get n.name = some n :=
    (get_nodes_addNode hnew _ _).trans (if_pos rfl)
  refine getNode_congr hr ((hr.addNode hfree).removes hn h) (fun p => ?_) key
  rw [h.get_nodeMap, get_nodeMap_addNode hnew]
  split
  · rename_i hp
    obtain ⟨label, hlabel, rfl⟩ := mem_map.1 hp
    have hnot := hfree hnew label hlabel
    rw [hr.mem_positions, not_isSome_iff_eq_none] at hnot
    exact hnot.symm
  · rfl

end

end Remove

end Ring

/-! ## v0 -/

namespace HashRing

variable {hash32 : String → Position}

/-- The only label of a node is its name. -/
def labels (name : String) : List String := [name]

/-- No new node is placed at a position that is taken. -/
def Free (hash32 : String → Position) (r : HashRing) (n : Node) : Prop := r.toRing.Free hash32 labels n

/-- The condition on an operation: a node is only added at free positions. -/
def Apart (hash32 : String → Position) (r : HashRing) : Op → Prop
  | .addNode n => Free hash32 r n
  | .removeNode _ => True

instance (r : HashRing) (op : Op) : Decidable (Apart hash32 r op) :=
  match op with
  | .addNode n => inferInstanceAs (Decidable (Ring.Free _ _ r.toRing n))
  | .removeNode _ => inferInstanceAs (Decidable True)

/-- What moves on a `HashRing`. -/
def MovesMinimum (hash32 : String → Position) (r : HashRing) : Prop :=
  ConsistentHashing.MovesMinimum (addNode hash32) (removeNode hash32) (getNode hash32) (fun r => r.nodes)
    (Free hash32) r

/-- The invariant of a `HashRing`: the slice has no position twice, as `RemoveNode` relies on. -/
structure Placed (hash32 : String → Position) (r : HashRing) : Prop where
  ring : r.toRing.Placed hash32 labels
  nodup : r.positions.Nodup

variable {r : HashRing}

theorem removeNode_removes (hr : Placed hash32 r) {name : String} {n : Node} (hn : r.nodes.get name = some n) :
    (r.toRing.Removes hash32 (labels name) name (r.removeNode hash32 name).toRing) ∧
      (r.removeNode hash32 name).positions.Nodup := by
  have hmem : hash32 name ∈ r.positions := by
    rw [hr.ring.mem_positions, (hr.ring.owned name n hn).2 _ (mem_singleton.2 rfl)]
    rfl
  obtain ⟨i, hi, hget⟩ := mem_iff_getElem.1 hmem
  have hsplit := fun {j : Nat} (hj : j < r.positions.length) =>
    search_fromOn hr.ring.sorted (hash32 name) hj
  -- the search ends at the index of the position
  have hidx : search r.positions.length (fromOn r.positions (hash32 name)) = i := by
    have hle := (hsplit hi).1 (le_of_eq hget.symm)
    refine le_antisymm hle ?_
    have hlt := lt_of_le_of_lt hle hi
    have hge := (hsplit hlt).2 le_rfl
    by_contra hne
    have hlt' := not_le.1 hne
    have hle' := pairwise_iff_getElem.1 hr.ring.sorted _ i hlt hi hlt'
    have heq : r.positions[search r.positions.length (fromOn r.positions (hash32 name))] = r.positions[i] :=
      le_antisymm hle' (hget.le.trans hge)
    exact absurd ((Nodup.getElem_inj_iff hr.nodup).1 heq) hlt'.ne
  have hpos : (r.removeNode hash32 name).positions = r.positions.eraseIdx i := by
    rw [removeNode, hn]
    dsimp only
    rw [hidx, if_pos hi, eraseIdx_eq_take_drop_succ]
  have hsub : (r.removeNode hash32 name).positions.Sublist r.positions :=
    hpos ▸ eraseIdx_sublist r.positions i
  refine ⟨⟨hr.ring.sorted.sublist hsub, ?_, ?_, ?_⟩, hr.nodup.sublist hsub⟩
  · intro p
    rw [hpos, ← hr.nodup.erase_getElem i hi, hget, hr.nodup.mem_erase_iff]
    simp only [labels, map_cons, map_nil, mem_singleton]
    exact and_comm
  · intro p
    rw [removeNode, hn]
    simp only [labels, map_cons, map_nil, mem_singleton]
    exact get_erase r.nodeMap _ p
  · intro k
    rw [removeNode, hn]
    exact get_erase r.nodes name k

theorem removeNode_of_absent {name : String} (h : r.nodes.get name = none) :
    r.removeNode hash32 name = r := by
  rw [removeNode, h]

theorem Placed.addNode (hr : Placed hash32 r) {n : Node} (hfree : Free hash32 r n) :
    Placed hash32 (r.addNode hash32 n) := by
  refine ⟨hr.ring.addNode hfree, ?_⟩
  rw [HashRing.addNode, Ring.addNode]
  cases hnew : r.nodes.get n.name with
  | some m => exact hr.nodup
  | none =>
    have hnot : hash32 n.name ∉ r.positions := hfree hnew n.name (mem_singleton.2 rfl)
    refine (perm_insertionSort _ _).nodup_iff.2 ?_
    exact hr.nodup.append (nodup_singleton _) (disjoint_singleton.2 hnot)

theorem Placed.removeNode (hr : Placed hash32 r) (name : String) :
    Placed hash32 (r.removeNode hash32 name) := by
  cases hn : r.nodes.get name with
  | none => exact (removeNode_of_absent hn).symm ▸ hr
  | some n =>
    obtain ⟨hrem, hnodup⟩ := removeNode_removes hr hn
    exact ⟨hr.ring.removes hn hrem, hnodup⟩

theorem Placed.step {r r' : HashRing} (hr : Placed hash32 r) {op : Op}
    (hok : Apart hash32 r op) (hs : HashRing.step hash32 r op = some r') : Placed hash32 r' := by
  cases op with
  | addNode n =>
    obtain rfl := some.inj hs
    exact hr.addNode hok
  | removeNode name =>
    obtain rfl := some.inj hs
    exact hr.removeNode name

theorem Placed.movesMinimum (hr : Placed hash32 r) : MovesMinimum hash32 r where
  add n hfree key := Ring.getNode_addNode hr.ring (fun _ => cons_ne_nil _ _) hfree key
  remove name key := by
    cases hn : r.nodes.get name with
    | none => exact .inl (by rw [removeNode_of_absent hn])
    | some n => exact Ring.getNode_removes hr.ring hn (removeNode_removes hr hn).1 key
  restore n hfree hnew key := by
    have hn : (r.addNode hash32 n).nodes.get n.name = some n :=
      (Ring.get_nodes_addNode hnew _ _).trans (if_pos rfl)
    exact Ring.getNode_restored hr.ring hnew hfree (removeNode_removes (hr.addNode hfree) hn).1 key
  present name n hn key := Ring.getNode_present hr.ring (fun _ => cons_ne_nil _ _) hn key

end HashRing

/-! ## v1 -/

namespace VNodeRing

variable {hash32 : String → Position}

/-- No label of a new node hashes to a position that is taken. -/
def Free (hash32 : String → Position) (r : VNodeRing) (n : Node) : Prop :=
  r.toRing.Free hash32 (vnodeKeys r.vnodesN) n

/-- The condition on an operation: a node is only added at free positions. -/
def Apart (hash32 : String → Position) (r : VNodeRing) : Op → Prop
  | .addNode n => Free hash32 r n
  | .removeNode _ => True

instance (r : VNodeRing) (op : Op) : Decidable (Apart hash32 r op) :=
  match op with
  | .addNode n => inferInstanceAs (Decidable (Ring.Free _ _ r.toRing n))
  | .removeNode _ => inferInstanceAs (Decidable True)

/-- What moves on a `VNodeRing`. -/
def MovesMinimum (hash32 : String → Position) (r : VNodeRing) : Prop :=
  ConsistentHashing.MovesMinimum (addNode hash32) (removeNode hash32) (getNode hash32) (fun r => r.nodes)
    (Free hash32) r

/-- The invariant of a `VNodeRing`. -/
structure Placed (hash32 : String → Position) (r : VNodeRing) : Prop where
  ring : r.toRing.Placed hash32 (vnodeKeys r.vnodesN)
  vnodesN_pos : 0 < r.vnodesN

theorem vnodeKeys_ne_nil {vnodesN : Nat} (h : 0 < vnodesN) (name : String) : vnodeKeys vnodesN name ≠ [] :=
  ne_nil_of_mem (mem_map_of_mem (mem_range.2 h))

variable {r : VNodeRing}

theorem removeNode_removes (hr : Placed hash32 r) {name : String} {n : Node} (hn : r.nodes.get name = some n) :
    r.toRing.Removes hash32 (vnodeKeys r.vnodesN name) name (r.removeNode hash32 name).toRing := by
  rw [removeNode, hn]
  refine ⟨hr.ring.sorted.filter _, ?_, ?_, ?_⟩
  · intro p
    exact mem_filter.trans (and_congr_right fun _ => decide_eq_true_iff)
  · intro p
    exact get_eraseAll r.nodeMap _ p
  · intro k
    exact get_erase r.nodes name k

theorem removeNode_of_absent {name : String} (h : r.nodes.get name = none) : r.removeNode hash32 name = r := by
  rw [removeNode, h]

theorem removeNode_vnodesN (r : VNodeRing) (name : String) : (r.removeNode hash32 name).vnodesN = r.vnodesN := by
  rw [removeNode]
  split
  · rfl
  · rfl

theorem Placed.addNode (hr : Placed hash32 r) {n : Node} (hfree : Free hash32 r n) :
    Placed hash32 (r.addNode hash32 n) :=
  ⟨hr.ring.addNode hfree, hr.vnodesN_pos⟩

theorem Placed.removeNode (hr : Placed hash32 r) (name : String) : Placed hash32 (r.removeNode hash32 name) := by
  cases hn : r.nodes.get name with
  | none => exact (removeNode_of_absent hn).symm ▸ hr
  | some n =>
    have hring := hr.ring.removes hn (removeNode_removes hr hn)
    have hpos := hr.vnodesN_pos
    rw [← removeNode_vnodesN r name] at hring hpos
    exact ⟨hring, hpos⟩

theorem Placed.step {r' : VNodeRing} (hr : Placed hash32 r) {op : Op}
    (hok : Apart hash32 r op) (hs : VNodeRing.step hash32 r op = some r') : Placed hash32 r' := by
  cases op with
  | addNode n =>
    obtain rfl := some.inj hs
    exact hr.addNode hok
  | removeNode name =>
    obtain rfl := some.inj hs
    exact hr.removeNode name

theorem placed_newVNode (vnodesN : Int) : Placed hash32 (newVNode vnodesN) := by
  refine ⟨Ring.placed_empty, ?_⟩
  rw [newVNode]
  split
  · exact Nat.one_pos
  · show 0 < vnodesN.toNat
    omega

theorem Placed.movesMinimum (hr : Placed hash32 r) : MovesMinimum hash32 r where
  add n hfree key := Ring.getNode_addNode hr.ring (vnodeKeys_ne_nil hr.vnodesN_pos) hfree key
  remove name key := by
    cases hn : r.nodes.get name with
    | none => exact .inl (by rw [removeNode_of_absent hn])
    | some n => exact Ring.getNode_removes hr.ring hn (removeNode_removes hr hn) key
  restore n hfree hnew key := by
    have hn : (r.addNode hash32 n).nodes.get n.name = some n :=
      (Ring.get_nodes_addNode hnew _ _).trans (if_pos rfl)
    exact Ring.getNode_restored hr.ring hnew hfree (removeNode_removes (hr.addNode hfree) hn) key
  present name n hn key := Ring.getNode_present hr.ring (vnodeKeys_ne_nil hr.vnodesN_pos) hn key

end VNodeRing

/-! ## Every run -/

/-- **Adding and removing nodes moves the minimum.** On both rings, in every run that adds nodes only at
positions that are not taken, `AddNode` moves keys only to the new node, `RemoveNode` moves only the keys
of the removed node, doing one after the other restores every owner, and every key has an owner on the ring
as long as the ring has a node. -/
theorem movesMinimum_of_apart (hash32 : String → Position) :
    (∀ r, ReachableIf (HashRing.step hash32) (HashRing.Apart hash32) .new r → r.MovesMinimum hash32) ∧
      ∀ vnodesN r, ReachableIf (VNodeRing.step hash32) (VNodeRing.Apart hash32) (.newVNode vnodesN) r →
        r.MovesMinimum hash32 := by
  constructor
  · intro r hr
    have hplaced : r.Placed hash32 :=
      hr.invariant ⟨Ring.placed_empty, nodup_nil⟩ fun _ _ _ _ h hok hs => h.step hok hs
    exact hplaced.movesMinimum
  · intro vnodesN r hr
    have hplaced : r.Placed hash32 :=
      hr.invariant (VNodeRing.placed_newVNode vnodesN) fun _ _ _ _ h hok hs => h.step hok hs
    exact hplaced.movesMinimum

/-- A table of positions for the run below. -/
def tableHash (s : String) : Position :=
  if s = "a" then 10 else if s = "b" then 20 else if s = "a#0" then 5 else if s = "a#1" then 25
  else if s = "b#0" then 30 else if s = "b#1" then 15 else 12

/-- Two nodes, of which the first leaves and comes back: the key goes to `b` in between. -/
theorem movesMinimum_of_apart_run :
    (∃ r, execIf (HashRing.step tableHash) (fun r op => decide (r.Apart tableHash op)) .new
        [.addNode ⟨"b", ""⟩, .addNode ⟨"a", ""⟩, .removeNode "b"] = some r ∧
      r.getNode tableHash "key" = some ⟨"a", ""⟩ ∧ r.MovesMinimum tableHash) ∧
    ∃ r, execIf (VNodeRing.step tableHash) (fun r op => decide (r.Apart tableHash op)) (.newVNode 2)
        [.addNode ⟨"b", ""⟩, .addNode ⟨"a", ""⟩, .removeNode "b"] = some r ∧
      r.getNode tableHash "key" = some ⟨"a", ""⟩ ∧ r.MovesMinimum tableHash := by
  have h0 : (execIf (HashRing.step tableHash) (fun r op => decide (r.Apart tableHash op)) .new
      [.addNode ⟨"b", ""⟩, .addNode ⟨"a", ""⟩, .removeNode "b"]).map
        (fun r => decide (r.getNode tableHash "key" = some ⟨"a", ""⟩)) = some true := by rfl
  have h1 : (execIf (VNodeRing.step tableHash) (fun r op => decide (r.Apart tableHash op)) (.newVNode 2)
      [.addNode ⟨"b", ""⟩, .addNode ⟨"a", ""⟩, .removeNode "b"]).map
        (fun r => decide (r.getNode tableHash "key" = some ⟨"a", ""⟩)) = some true := by rfl
  obtain ⟨r0, hs0, hkey0⟩ := map_eq_some_iff.1 h0
  obtain ⟨r1, hs1, hkey1⟩ := map_eq_some_iff.1 h1
  have hr0 := ReachableIf.init.execIf (fun _ _ => of_decide_eq_true) hs0
  have hr1 := ReachableIf.init.execIf (fun _ _ => of_decide_eq_true) hs1
  exact ⟨⟨r0, hs0, of_decide_eq_true hkey0, (movesMinimum_of_apart tableHash).1 r0 hr0⟩,
    r1, hs1, of_decide_eq_true hkey1, (movesMinimum_of_apart tableHash).2 2 r1 hr1⟩

/-- What moves, without the condition on the nodes that are added. -/
def MovesMinimumAlways {R : Type} (addNode : R → Node → R) (removeNode : R → String → R)
    (getNode : R → String → Option Node) (nodes : R → SortedMap String Node) (r : R) : Prop :=
  MovesMinimum addNode removeNode getNode nodes (fun _ _ => True) r

/-- Two nodes at one position: the second takes the position over, and when it leaves the first is still
on the ring and owns nothing. Both rings do this. -/
theorem collision_loses_the_owner :
    (¬ ∀ hash32 r, Reachable (HashRing.step hash32) .new r →
      MovesMinimumAlways (HashRing.addNode hash32) (HashRing.removeNode hash32) (HashRing.getNode hash32)
        (fun r => r.nodes) r) ∧
    ¬ ∀ hash32 r, Reachable (VNodeRing.step hash32) (.newVNode 1) r →
      MovesMinimumAlways (VNodeRing.addNode hash32) (VNodeRing.removeNode hash32) (VNodeRing.getNode hash32)
        (fun r => r.nodes) r := by
  constructor
  · intro h
    have hrun : (exec (HashRing.step fun _ => 7) .new
        [.addNode ⟨"a", ""⟩, .addNode ⟨"b", ""⟩, .removeNode "b"]).map
          (fun r => decide (r.nodes.get "a" = some ⟨"a", ""⟩ ∧ r.getNode (fun _ => 7) "key" = none)) =
        some true := by rfl
    obtain ⟨r, hs, hfacts⟩ := map_eq_some_iff.1 hrun
    obtain ⟨ha, hnone⟩ := of_decide_eq_true hfacts
    obtain ⟨m, hm, -⟩ := (h _ r (reachable_of_exec hs)).present "a" _ ha "key"
    rw [hnone] at hm
    exact nomatch hm
  · intro h
    have hrun : (exec (VNodeRing.step fun _ => 7) (.newVNode 1)
        [.addNode ⟨"a", ""⟩, .addNode ⟨"b", ""⟩, .removeNode "b"]).map
          (fun r => decide (r.nodes.get "a" = some ⟨"a", ""⟩ ∧ r.getNode (fun _ => 7) "key" = none)) =
        some true := by rfl
    obtain ⟨r, hs, hfacts⟩ := map_eq_some_iff.1 hrun
    obtain ⟨ha, hnone⟩ := of_decide_eq_true hfacts
    obtain ⟨m, hm, -⟩ := (h _ r (reachable_of_exec hs)).present "a" _ ha "key"
    rw [hnone] at hm
    exact nomatch hm

/-! ## Histories -/

/-- The nodes on a ring determine the owners. -/
theorem Ring.getNode_of_nodes {hash32 : String → Position} {labels : String → List String} {r r' : Ring}
    (hr : Placed hash32 labels r) (hr' : Placed hash32 labels r') (h : ∀ name, r'.nodes.get name = r.nodes.get name)
    (key : String) : r'.getNode hash32 key = r.getNode hash32 key := by
  have half : ∀ {a b : Ring}, Placed hash32 labels a → Placed hash32 labels b →
      (∀ name, a.nodes.get name = b.nodes.get name) → ∀ p n, a.nodeMap.get p = some n → b.nodeMap.get p = some n := by
    intro a b ha hb hab p n hn
    obtain ⟨hnode, hmem⟩ := ha.owner p n hn
    exact (hb.owned n.name n ((hab n.name).symm.trans hnode)).2 p hmem
  refine getNode_congr hr hr' (fun p => ext fun n => ?_) key
  exact ⟨half hr' hr h p n, half hr hr' (fun name => (h name).symm) p n⟩

/-- **Owners do not depend on the history.** Two runs of a ring that add nodes only at positions that are not
taken, in whatever order nodes came and went, give every key the same owner if they end with the same nodes. -/
theorem owners_forget_history (hash32 : String → Position) :
    (∀ r r', ReachableIf (HashRing.step hash32) (HashRing.Apart hash32) .new r →
      ReachableIf (HashRing.step hash32) (HashRing.Apart hash32) .new r' →
      (∀ name, r'.nodes.get name = r.nodes.get name) → ∀ key, r'.getNode hash32 key = r.getNode hash32 key) ∧
    ∀ vnodesN r r', ReachableIf (VNodeRing.step hash32) (VNodeRing.Apart hash32) (.newVNode vnodesN) r →
      ReachableIf (VNodeRing.step hash32) (VNodeRing.Apart hash32) (.newVNode vnodesN) r' →
      (∀ name, r'.nodes.get name = r.nodes.get name) → ∀ key, r'.getNode hash32 key = r.getNode hash32 key := by
  constructor
  · have hplaced : ∀ r, ReachableIf (HashRing.step hash32) (HashRing.Apart hash32) .new r → r.Placed hash32 := by
      intro r hr
      have hplaced : r.Placed hash32 :=
        hr.invariant ⟨Ring.placed_empty, nodup_nil⟩ fun _ _ _ _ h hok hs => h.step hok hs
      exact hplaced
    exact fun r r' hr hr' => Ring.getNode_of_nodes (hplaced r hr).ring (hplaced r' hr').ring
  · intro vnodesN
    have hplaced : ∀ r, ReachableIf (VNodeRing.step hash32) (VNodeRing.Apart hash32) (.newVNode vnodesN) r →
        r.Placed hash32 ∧ r.vnodesN = (VNodeRing.newVNode vnodesN).vnodesN := by
      intro r hr
      refine hr.invariant (I := fun r => r.Placed hash32 ∧ r.vnodesN = (VNodeRing.newVNode vnodesN).vnodesN)
        ⟨VNodeRing.placed_newVNode vnodesN, rfl⟩ fun r op r' _ h hok hs => ⟨h.1.step hok hs, ?_⟩
      cases op with
      | addNode n =>
        cases hs
        exact h.2
      | removeNode name =>
        cases hs
        exact (VNodeRing.removeNode_vnodesN r name).trans h.2
    intro r r' hr hr'
    obtain ⟨hplaced', hn'⟩ := hplaced r' hr'
    obtain ⟨hplaced, hn⟩ := hplaced r hr
    refine Ring.getNode_of_nodes hplaced.ring ?_
    rw [hn, ← hn']
    exact hplaced'.ring

end SystemDesignLabs.ConsistentHashing
