import SystemDesignLabs.BTreeKv.MemoryRefinement
import SystemDesignLabs.Core.Cells
import SystemDesignLabs.Core.LinkedList

/-!
# The list of the leaves

Every leaf has the indices of its neighbours. `split_leaf` inserts the new leaf into the list
(`splitLeaf_links`). When the root is a leaf and splits, `insert` moves it from index 0 to a new index, and does not
tell the other half, which still points back to index 0, where there is an internal node now. The pointer is repaired
when the first leaf splits again, since its old successor is told its new predecessor then. So the leaves form a
doubly linked list after exactly those runs in which the first leaf did not split exactly once
(`leaves_linked_iff`).
-/

namespace SystemDesignLabs.BTreeKv.Memory

open Option List Core BPlusTree SortedList BTree

/-- The neighbours of a leaf. -/
def LeafNode.links (leaf : LeafNode) : Links Nat := ⟨leaf.prev, leaf.next⟩

/-- The insertion of the key splits the leaf. -/
def LeafNode.Splits (leaf : LeafNode) (key : Bytes) : Prop := key ∉ leaf.keys ∧ order - 1 ≤ leaf.keys.length

instance (leaf : LeafNode) (key : Bytes) : Decidable (leaf.Splits key) := inferInstanceAs (Decidable (_ ∧ _))

namespace BTree

/-- The leaves of the arena, as cells of a list. -/
def links (t : BTree) (idx : Nat) : Option (Links Nat) := (t.leafAt idx).map LeafNode.links

/-- The leaf that the last children lead to. -/
def lastLeaf (t : BTree) : Nat → Nat → Option Nat
  | 0, _ => none
  | fuel + 1, idx =>
    match t.nodes[idx]? with
    | some (.leaf _) => some idx
    | some (.internal n) => n.children.getLast?.bind (lastLeaf t fuel)
    | none => none

/-- The leaves form a doubly linked list. -/
structure LeavesLinked (t : BTree) : Prop where
  next_iff : ∀ i leaf, t.leafAt i = some leaf → ∀ j, leaf.next = some j ↔
    ∃ other, t.leafAt j = some other ∧ other.prev = some i
  first : ∃ leaf, t.leafAt t.firstLeaf = some leaf ∧ leaf.prev = none
  last : ∃ idx leaf, t.lastLeaf t.nodes.length 0 = some idx ∧ t.leafAt idx = some leaf ∧ leaf.next = none
  no_internal : ∀ i leaf, t.leafAt i = some leaf → ∀ j, leaf.prev = some j ∨ leaf.next = some j →
    t.internalAt j = none

/-- The insertion of the key splits the first leaf. -/
def splitsFirst (t : BTree) (key : Bytes) : Bool :=
  t.findLeaf t.nodes.length 0 key = some t.firstLeaf ∧
    ((t.leafAt t.firstLeaf).any fun leaf => leaf.Splits key) = true

end BTree

/-- The splits of the first leaf that an operation causes. -/
def Op.firstSplits (t : BTree) : Op → Nat
  | .insert key _ => (t.splitsFirst key).toNat
  | .delete _ => 0

/-- How often the first leaf splits in a run. -/
def firstSplits : BTree → List Op → Nat
  | _, [] => 0
  | t, op :: ops =>
    match step t op with
    | some t' => op.firstSplits t + firstSplits t' ops
    | none => 0

/-! ## The cells after a change of the arena -/

section Cells

variable {t t' : BTree} {p q : Nat} {leaf : LeafNode} {key value : Bytes}

theorem links_of_leafAt (h : t.leafAt p = some leaf) : t.links p = some leaf.links := by
  rw [links, h]
  rfl

theorem leafAt_of_links {l : Links Nat} (h : t.links p = some l) : ∃ leaf, t.leafAt p = some leaf ∧ leaf.links = l :=
  map_eq_some_iff.1 h

theorem links_of_ge (h : t.nodes.length ≤ p) : t.links p = none := by
  rw [links, leafAt, getElem?_eq_none h]
  rfl

theorem leafAt_setNode (h : p < t.nodes.length) (node : Node) (q : Nat) : (t.setNode p node).leafAt q =
    if q = p then (match node with | .leaf n => some n | .internal _ => none) else t.leafAt q := by
  rw [leafAt, setNode, getElem?_set_cell]
  by_cases hq : q = p
  · subst hq
    rw [if_pos rfl, if_pos rfl, getElem?_eq_getElem h]
    cases node <;> rfl
  · rw [if_neg hq, if_neg hq, leafAt]

theorem leafAt_allocateNode (node : Node) (q : Nat) : (t.allocateNode node).2.leafAt q =
    if q = t.nodes.length then (match node with | .leaf n => some n | .internal _ => none) else t.leafAt q := by
  rw [leafAt, allocateNode, getElem?_push]
  by_cases hq : q = t.nodes.length
  · rw [if_pos hq, if_pos hq]
    cases node <;> rfl
  · rw [if_neg hq, if_neg hq, leafAt]

theorem lt_of_leafAt (h : t.leafAt p = some leaf) : p < t.nodes.length :=
  (List.getElem?_eq_some_iff.1 (node_of_leafAt h)).1

variable {n : InternalNode}

theorem node_of_internalAt (h : t.internalAt p = some n) : t.nodes[p]? = some (.internal n) := by
  rw [internalAt] at h
  split at h
  · next n' hn => rw [hn, some.inj h]
  · exact absurd h (some_ne_none n).symm

theorem leafAt_of_internalAt (h : t.internalAt p = some n) : t.leafAt p = none := by
  rw [leafAt, node_of_internalAt h]

theorem links_setLeaf (h : t.leafAt p = some leaf) (new : LeafNode) (q : Nat) :
    (t.setNode p (.leaf new)).links q = if q = p then some new.links else t.links q := by
  rw [links, leafAt_setNode (lt_of_leafAt h)]
  split
  · rfl
  · rfl

theorem links_setLeaf_same (h : t.leafAt p = some leaf) {new : LeafNode} (hnew : new.links = leaf.links) :
    (t.setNode p (.leaf new)).links = t.links := by
  funext q
  rw [links_setLeaf h]
  split
  · next hq => rw [hq, links_of_leafAt h, hnew]
  · rfl

theorem links_setInternal (h : t.internalAt p = some n) (new : InternalNode) :
    (t.setNode p (.internal new)).links = t.links := by
  funext q
  have hlt : p < t.nodes.length := (List.getElem?_eq_some_iff.1 (node_of_internalAt h)).1
  rw [links, leafAt_setNode hlt]
  split
  · next hq => rw [hq, links, leafAt_of_internalAt h]
  · rfl

theorem links_allocateInternal (new : InternalNode) : (t.allocateNode (.internal new)).2.links = t.links := by
  funext q
  rw [links, leafAt_allocateNode]
  split
  · next hq => exact (links_of_ge (Nat.le_of_eq hq.symm)).symm
  · rfl

theorem links_allocateLeaf (new : LeafNode) (q : Nat) :
    (t.allocateNode (.leaf new)).2.links q = if q = t.nodes.length then some new.links else t.links q := by
  rw [links, leafAt_allocateNode]
  split
  · rfl
  · rfl

end Cells

/-! ## Insertions -/

section Steps

variable {t t' : BTree} {p q r : Nat} {leaf : LeafNode} {key value : Bytes}

theorem insertAt_links (h : t.insertAt p key value = some t') :
    t'.links = t.links ∧ t'.nodes.length = t.nodes.length ∧ t'.firstLeaf = t.firstLeaf := by
  obtain ⟨leaf, hleaf, hset⟩ := bind_eq_some_iff.1 h
  cases hset
  exact ⟨links_setLeaf_same hleaf rfl, length_setNode _ _, rfl⟩

/-- A split inserts the new leaf into the list, behind the one that was split. -/
theorem splitLeaf_links {e : Bytes} (h : t.splitLeaf p = some (e, r, t')) (hp : t.leafAt p = some leaf)
    (hnext : ∀ q, leaf.next = some q → q ≠ p ∧ q ≠ t.nodes.length) :
    r = t.nodes.length ∧ t'.nodes.length = t.nodes.length + 1 ∧ t'.firstLeaf = t.firstLeaf
      ∧ Inserted t.links p leaf.links r t'.links := by
  simp only [splitLeaf, hp, bind_eq_bind, bind_some] at h
  generalize hleft : (LeafNode.mk (leaf.keys.take (order / 2)) (leaf.values.take (order / 2)) leaf.prev
    (some t.nodes.length)) = left at h
  generalize hright : (LeafNode.mk (leaf.keys.drop (order / 2)) (leaf.values.drop (order / 2)) (some p)
    leaf.next) = right at h
  -- the arena before the successor is told
  generalize hmid : ((t.setNode p (.leaf left)).allocateNode (.leaf right)).2 = mid at h
  have hlen : mid.nodes.length = t.nodes.length + 1 := by
    rw [← hmid, length_allocateNode, length_setNode]
  have hlinks : ∀ q, mid.links q = if q = t.nodes.length then some right.links
      else if q = p then some left.links else t.links q := by
    intro q
    rw [← hmid, links_allocateLeaf, length_setNode, links_setLeaf hp]
  have hfirst : mid.firstLeaf = t.firstLeaf := by
    rw [← hmid]
    rfl
  have hpr : p ≠ t.nodes.length := Nat.ne_of_lt (lt_of_leafAt hp)
  have hleftLinks : left.links = ⟨leaf.links.prev, some t.nodes.length⟩ := by
    rw [← hleft]
    rfl
  have hrightLinks : right.links = ⟨some p, leaf.links.next⟩ := by
    rw [← hright]
    rfl
  cases hn : leaf.next with
  | none =>
    rw [hn] at h
    obtain ⟨promoted, -, h⟩ := bind_eq_some_iff.1 h
    cases h
    refine ⟨rfl, hlen, hfirst, ⟨?_, ?_, fun q hq => ?_, fun q hqp hqr _ => ?_⟩⟩
    · rw [hlinks, if_neg hpr, if_pos rfl, hleftLinks]
    · rw [hlinks, if_pos rfl, hrightLinks]
    · exact absurd (hn.symm.trans hq) (some_ne_none q).symm
    · rw [hlinks, if_neg hqr, if_neg hqp]
  | some x =>
    rw [hn] at h
    obtain ⟨hxp, hxr⟩ := hnext x hn
    obtain ⟨other, hother, h⟩ := bind_eq_some_iff.1 h
    obtain ⟨promoted, -, h⟩ := bind_eq_some_iff.1 h
    cases h
    have hx : t.links x = some other.links := by
      rw [← links_of_leafAt hother, hlinks, if_neg hxr, if_neg hxp]
    have hlinks' := links_setLeaf hother { other with prev := some t.nodes.length }
    refine ⟨rfl, (length_setNode _ _).trans hlen, hfirst, ⟨?_, ?_, fun q hq => ?_, fun q hqp hqr hqx => ?_⟩⟩
    · rw [hlinks', if_neg (Ne.symm hxp), hlinks, if_neg hpr, if_pos rfl, hleftLinks]
    · rw [hlinks', if_neg (Ne.symm hxr), hlinks, if_pos rfl, hrightLinks]
    · cases hn.symm.trans hq
      rw [hlinks', if_pos rfl, hx]
      rfl
    · have hqx' : q ≠ x := fun heq => hqx (heq ▸ hn)
      rw [hlinks', if_neg hqx', hlinks, if_neg hqr, if_neg hqp]

/-- What an insertion does to the list of the leaves: a split of the leaf of the key inserts a new leaf. -/
structure LinkStep (t : BTree) (key : Bytes) (leafIdx : Nat) (leaf : LeafNode) (t' : BTree) : Prop where
  leafAt : t.leafAt leafIdx = some leaf
  firstLeaf : t'.firstLeaf = t.firstLeaf
  whole : ¬ leaf.Splits key → t'.links = t.links
  split : leaf.Splits key → Inserted t.links leafIdx leaf.links t.nodes.length t'.links

theorem LinkStep.trans {t'' : BTree} (h : LinkStep t key p leaf t') (hlinks : t''.links = t'.links)
    (hfirst : t''.firstLeaf = t'.firstLeaf) : LinkStep t key p leaf t'' :=
  ⟨h.leafAt, hfirst.trans h.firstLeaf, fun hs => hlinks.trans (h.whole hs), fun hs => hlinks ▸ h.split hs⟩

variable {result : Option (Bytes × Nat)}

theorem leafInsert_links (h : t.leafInsert p key value = some (result, t')) (hp : t.leafAt p = some leaf)
    (hnext : ∀ q, leaf.next = some q → q ≠ p ∧ q ≠ t.nodes.length) :
    LinkStep t key p leaf t' ∧ (leaf.Splits key → t'.nodes.length = t.nodes.length + 1 ∧ result.isSome)
      ∧ (¬ leaf.Splits key → t'.nodes.length = t.nodes.length ∧ result = none) := by
  simp only [leafInsert, hp, bind_eq_bind, bind_some] at h
  cases hsearch : binarySearch leaf.keys key with
  | some pos =>
    have hsplits : ¬ leaf.Splits key := by
      rintro ⟨hmem, -⟩
      rw [binarySearch_of_not_mem hmem] at hsearch
      exact absurd hsearch (some_ne_none pos).symm
    rw [hsearch] at h
    cases h
    exact ⟨⟨hp, rfl, fun _ => links_setLeaf_same hp rfl, fun hs => absurd hs hsplits⟩,
      fun hs => absurd hs hsplits, fun _ => ⟨length_setNode _ _, rfl⟩⟩
  | none =>
    rw [hsearch] at h
    by_cases hfull : order - 1 ≤ leaf.keys.length
    · have hsplits : leaf.Splits key := ⟨not_mem_of_binarySearch hsearch, hfull⟩
      have hisFull : (Node.leaf leaf).isFull = true := decide_eq_true hfull
      simp only [hisFull, if_true] at h
      obtain ⟨⟨promoted, rightIdx, t₁⟩, hsplit, h⟩ := bind_eq_some_iff.1 h
      obtain ⟨t₂, hins, h⟩ := bind_eq_some_iff.1 h
      cases h
      obtain ⟨rfl, hlen₁, hfirst₁, hinserted⟩ := splitLeaf_links hsplit hp hnext
      obtain ⟨hlinks₂, hlen₂, hfirst₂⟩ := insertAt_links hins
      exact ⟨⟨hp, hfirst₂.trans hfirst₁, fun hs => absurd hsplits hs, fun _ => hlinks₂ ▸ hinserted⟩,
        fun _ => ⟨hlen₂.trans hlen₁, rfl⟩, fun hs => absurd hsplits hs⟩
    · have hsplits : ¬ leaf.Splits key := fun hs => hfull hs.2
      have hnotFull : (Node.leaf leaf).isFull = false := decide_eq_false hfull
      simp only [hnotFull, Bool.false_eq_true, if_false] at h
      obtain ⟨t₁, hins, h⟩ := bind_eq_some_iff.1 h
      cases h
      obtain ⟨hlinks₁, hlen₁, hfirst₁⟩ := insertAt_links hins
      exact ⟨⟨hp, hfirst₁, fun _ => hlinks₁, fun hs => absurd hs hsplits⟩, fun hs => absurd hs hsplits,
        fun _ => ⟨hlen₁, rfl⟩⟩

theorem internalAbsorbSplit_links {childPos newRight : Nat} {promoted : Bytes}
    (h : t.internalAbsorbSplit p childPos promoted newRight = some (result, t')) :
    t'.links = t.links ∧ t'.firstLeaf = t.firstLeaf := by
  obtain ⟨n, hn, h⟩ := bind_eq_some_iff.1 h
  split at h
  · obtain ⟨⟨newPromoted, rightIdx, t₁⟩, hsplit, h⟩ := bind_eq_some_iff.1 h
    cases h
    obtain ⟨n', hn', hsplit⟩ := bind_eq_some_iff.1 hsplit
    obtain ⟨middle, -, hsplit⟩ := bind_eq_some_iff.1 hsplit
    cases hsplit
    exact ⟨(links_allocateInternal _).trans (links_setInternal hn' _), rfl⟩
  · cases h
    exact ⟨links_setInternal hn _, rfl⟩

/-- The descent changes the list only at the leaf of the key. -/
theorem insertRecursive_links {fuel idx : Nat} (h : t.insertRecursive fuel idx key value = some (result, t'))
    (hnext : ∀ p leaf, t.leafAt p = some leaf → ∀ q, leaf.next = some q → q ≠ p ∧ q ≠ t.nodes.length) :
    ∃ p leaf, t.findLeaf fuel idx key = some p ∧ LinkStep t key p leaf t' := by
  induction fuel generalizing idx result t' with
  | zero => exact absurd h (some_ne_none _).symm
  | succ fuel ih =>
    rw [insertRecursive] at h
    cases hnode : t.nodes[idx]? with
    | none =>
      rw [hnode] at h
      exact absurd h (some_ne_none _).symm
    | some node =>
      rw [hnode] at h
      cases node with
      | leaf leaf =>
        have hleaf : t.leafAt idx = some leaf := by rw [leafAt, hnode]
        refine ⟨idx, leaf, by rw [findLeaf, hnode], ?_⟩
        exact (leafInsert_links h hleaf (hnext idx leaf hleaf)).1
      | internal n =>
        obtain ⟨childIdx, hchild, h⟩ := bind_eq_some_iff.1 h
        obtain ⟨⟨split, t₁⟩, hrec, h⟩ := bind_eq_some_iff.1 h
        obtain ⟨p, leaf, hfind, hstep⟩ := ih hrec
        have hfind' : t.findLeaf (fuel + 1) idx key = some p := by
          simp only [findLeaf, hnode, hchild, bind_eq_bind, bind_some, hfind]
        refine ⟨p, leaf, hfind', ?_⟩
        cases split with
        | none =>
          cases h
          exact hstep
        | some promotion =>
          obtain ⟨hlinks, hfirst⟩ := internalAbsorbSplit_links h
          exact hstep.trans hlinks hfirst

theorem moveRoot_links {root : Node} (h : t.nodes[0]? = some root) (n : InternalNode) (q : Nat) :
    ((t.allocateNode root).2.setNode 0 (.internal n)).links q =
      if q = 0 then none else if q = t.nodes.length then t.links 0 else t.links q := by
  have hpos : 0 < (t.allocateNode root).2.nodes.length := by
    rw [length_allocateNode]
    exact Nat.succ_pos _
  rw [links, leafAt_setNode hpos]
  split
  · rfl
  · rw [leafAt_allocateNode]
    split
    · rw [links, leafAt, h]
      cases root <;> rfl
    · rfl

theorem insert_cases (h : t.insert key value = some t') : ∃ result t₁,
    t.insertRecursive t.nodes.length 0 key value = some (result, t₁) ∧
      (result = none ∧ t' = t₁ ∨ result.isSome ∧ 0 < t₁.nodes.length ∧
        (∀ q, t'.links q = if q = 0 then none else if q = t₁.nodes.length then t₁.links 0 else t₁.links q) ∧
          t'.firstLeaf = if t₁.firstLeaf = 0 then t₁.nodes.length else t₁.firstLeaf) := by
  obtain ⟨⟨result, t₁⟩, hrec, h⟩ := bind_eq_some_iff.1 h
  refine ⟨result, t₁, hrec, ?_⟩
  cases result with
  | none =>
    cases h
    exact .inl ⟨rfl, rfl⟩
  | some promotion =>
    obtain ⟨root, hroot, h⟩ := bind_eq_some_iff.1 h
    cases h
    exact .inr ⟨rfl, (List.getElem?_eq_some_iff.1 hroot).1, moveRoot_links hroot _, rfl⟩

/-- An insertion below an internal root changes the list only at the leaf of the key. -/
theorem insert_links (h : t.insert key value = some t') (hroot : t.links 0 = none)
    (hfirst : ∃ l, t.links t.firstLeaf = some l)
    (hnext : ∀ p l, t.links p = some l → ∀ q, l.next = some q → q ≠ p ∧ ∃ l', t.links q = some l') :
    ∃ p leaf, t.findLeaf t.nodes.length 0 key = some p ∧ LinkStep t key p leaf t' ∧ t'.links 0 = none := by
  obtain ⟨result, t₁, hrec, hmove⟩ := insert_cases h
  have hne : ∀ p l, t.links p = some l → p ≠ 0 ∧ p ≠ t.nodes.length := by
    intro p l hl
    constructor
    · rintro rfl
      exact absurd (hroot.symm.trans hl) (some_ne_none l).symm
    · rintro rfl
      exact absurd ((links_of_ge (Nat.le_refl _)).symm.trans hl) (some_ne_none l).symm
  obtain ⟨p, leaf, hfind, hstep⟩ := insertRecursive_links hrec fun p leaf hp q hq => by
    obtain ⟨hqp, l', hl'⟩ := hnext p leaf.links (links_of_leafAt hp) q hq
    exact ⟨hqp, (hne q l' hl').2⟩
  have hp := links_of_leafAt hstep.leafAt
  have hroot₁ : t₁.links 0 = none := by
    by_cases hs : leaf.Splits key
    · have hlen : 0 ≠ t.nodes.length :=
        Nat.ne_of_lt (Nat.lt_of_le_of_lt (Nat.zero_le p) (lt_of_leafAt hstep.leafAt))
      rw [(hstep.split hs).other 0 (Ne.symm (hne p _ hp).1) hlen ?_, hroot]
      intro hq
      obtain ⟨-, l', hl'⟩ := hnext p leaf.links hp 0 hq
      exact (hne 0 l' hl').1 rfl
    · rw [hstep.whole hs, hroot]
  rcases hmove with ⟨-, rfl⟩ | ⟨-, -, hlinks, hfirst'⟩
  · exact ⟨p, leaf, hfind, hstep, hroot₁⟩
  · have hsame : t'.links = t₁.links := by
      funext q
      rw [hlinks]
      split
      · next hq => rw [hq, hroot₁]
      · split
        · next hq => rw [hq, hroot₁, links_of_ge (Nat.le_refl _)]
        · rfl
    obtain ⟨l, hl⟩ := hfirst
    have hfirst₁ : t'.firstLeaf = t₁.firstLeaf := by
      rw [hfirst', if_neg]
      rw [hstep.firstLeaf]
      exact (hne _ l hl).1
    exact ⟨p, leaf, hfind, hstep.trans hsame hfirst₁, hsame ▸ hroot₁⟩

theorem delete_links {found : Bool} (h : t.delete key = some (found, t')) :
    t'.links = t.links ∧ t'.nodes.length = t.nodes.length ∧ t'.firstLeaf = t.firstLeaf := by
  obtain ⟨p, -, h⟩ := bind_eq_some_iff.1 h
  obtain ⟨leaf, hleaf, h⟩ := bind_eq_some_iff.1 h
  split at h
  · cases h
    exact ⟨links_setLeaf_same hleaf rfl, length_setNode _ _, rfl⟩
  · cases h
    exact ⟨rfl, rfl, rfl⟩

theorem splitsFirst_eq (hfind : t.findLeaf t.nodes.length 0 key = some p) (hp : t.leafAt p = some leaf) :
    t.splitsFirst key = decide (p = t.firstLeaf ∧ leaf.Splits key) := by
  rw [splitsFirst, hfind]
  refine decide_eq_decide.2 ?_
  rw [some_inj]
  refine and_congr_right fun heq => ?_
  rw [← heq, hp]
  exact decide_eq_true_iff

end Steps

/-! ## Runs -/

/-- The list of the leaves after the first leaf has split so many times: a single leaf, a list whose second leaf
points back to index 0, or a list. -/
def LinksAfter : Nat → BTree → Prop
  | 0, t => t.nodes.length = 1 ∧ t.links 0 = some ⟨none, none⟩ ∧ t.firstLeaf = 0
  | splits + 1, t => t.links 0 = none ∧ ∃ second rest,
      ListAt t.links t.firstLeaf (if splits = 0 then some 0 else some t.firstLeaf) (second :: rest)

section Runs

variable {t t' : BTree} {splits : Nat} {key value : Bytes}

theorem linksAfter_congr (h : LinksAfter splits t) (hlinks : t'.links = t.links)
    (hlen : t'.nodes.length = t.nodes.length) (hfirst : t'.firstLeaf = t.firstLeaf) : LinksAfter splits t' := by
  cases splits with
  | zero =>
    obtain ⟨hlen₀, hroot, hfirst₀⟩ := h
    exact ⟨hlen.trans hlen₀, hlinks ▸ hroot, hfirst.trans hfirst₀⟩
  | succ splits =>
    obtain ⟨hroot, second, rest, hlist⟩ := h
    refine ⟨hlinks ▸ hroot, second, rest, ?_⟩
    rw [hlinks, hfirst]
    exact hlist

theorem linksAfter_insert_leaf (h : LinksAfter 0 t) (hins : t.insert key value = some t') :
    LinksAfter (t.splitsFirst key).toNat t' := by
  obtain ⟨hlen, hroot, hfirst⟩ := h
  obtain ⟨leaf, hleaf, hlinks⟩ := leafAt_of_links hroot
  have hnode := node_of_leafAt hleaf
  have hnext : ∀ q, leaf.next = some q → q ≠ 0 ∧ q ≠ t.nodes.length := by
    intro q hq
    rw [show leaf.next = none from congrArg Links.next hlinks] at hq
    exact absurd hq (some_ne_none q).symm
  have hsplits : t.splitsFirst key = decide (leaf.Splits key) := by
    rw [splitsFirst_eq (p := 0) (by rw [hlen, findLeaf, hnode]) hleaf, hfirst]
    exact decide_eq_decide.2 (and_iff_right rfl)
  obtain ⟨result, t₁, hrec, hmove⟩ := insert_cases hins
  rw [hlen, insertRecursive, hnode] at hrec
  obtain ⟨hstep, hsplit, hwhole⟩ := leafInsert_links hrec hleaf hnext
  rw [hsplits]
  by_cases hs : leaf.Splits key
  · -- the halves are the leaves 0 and 1, and the first one moves to index 2
    obtain ⟨hlen₁, hresult⟩ := hsplit hs
    rw [hlen] at hlen₁
    have hinserted := hstep.split hs
    rw [hlen, hlinks] at hinserted
    rcases hmove with ⟨hnone, -⟩ | ⟨-, -, hmoved, hfirst'⟩
    · rw [hnone] at hresult
      exact absurd hresult Bool.false_ne_true
    · rw [hstep.firstLeaf, hfirst, if_pos rfl, hlen₁] at hfirst'
      rw [hlen₁] at hmoved
      rw [decide_eq_true hs]
      refine ⟨hmoved 0, 1, [], ?_⟩
      rw [if_pos rfl, hfirst']
      refine ⟨(hmoved 2).trans hinserted.before, ⟨(hmoved 1).trans hinserted.new, trivial⟩, by decide,
        fun q hq => ?_⟩
      by_cases hq2 : q = 2
      · exact hq2 ▸ mem_cons_self
      · by_cases hq1 : q = 1
        · exact hq1 ▸ mem_cons_of_mem _ mem_cons_self
        · rw [hmoved, if_neg hq2] at hq
          split at hq
          · exact absurd hq Bool.false_ne_true
          · next hq0 =>
              rw [hinserted.other q hq0 hq1 (some_ne_none q).symm, links_of_ge (by omega)] at hq
              exact absurd hq Bool.false_ne_true
  · obtain ⟨hlen₁, hresult⟩ := hwhole hs
    rcases hmove with ⟨-, rfl⟩ | ⟨hsome, -⟩
    · rw [decide_eq_false hs]
      exact @linksAfter_congr t _ 0 ⟨hlen, hroot, hfirst⟩ (hstep.whole hs) hlen₁ hstep.firstLeaf
    · rw [hresult] at hsome
      exact absurd hsome Bool.false_ne_true

theorem linksAfter_insert_internal (h : LinksAfter (splits + 1) t) (hins : t.insert key value = some t') :
    LinksAfter (splits + 1 + (t.splitsFirst key).toNat) t' := by
  obtain ⟨hroot, second, rest, hlist⟩ := h
  obtain ⟨p, leaf, hfind, hstep, hroot'⟩ := insert_links hins hroot ⟨_, hlist.head⟩
    fun p l hl q hq => hlist.next hl hq
  have hp := links_of_leafAt hstep.leafAt
  have hnew : t.links t.nodes.length = none := links_of_ge (Nat.le_refl _)
  rw [splitsFirst_eq hfind hstep.leafAt]
  by_cases hs : leaf.Splits key
  · have hinserted := hstep.split hs
    by_cases hfirst : p = t.firstLeaf
    · -- the old successor of the first leaf is told its new predecessor
      subst hfirst
      rw [decide_eq_true ⟨rfl, hs⟩]
      refine ⟨hroot', t.nodes.length, second :: rest, ?_⟩
      rw [if_neg (Nat.succ_ne_zero splits), hstep.firstLeaf]
      exact hlist.insertFirst hinserted hp hnew
    · have hmem : p ∈ second :: rest := (mem_cons.1 (hlist.mem hp)).resolve_left hfirst
      rw [decide_eq_false fun hboth => hfirst hboth.1]
      have hlist' := hlist.insertRest hinserted hp hnew hmem
      rw [← hstep.firstLeaf] at hlist'
      refine ⟨hroot', second, ?_⟩
      by_cases hsecond : second = p
      · rw [insertAfter, if_pos hsecond] at hlist'
        exact ⟨_, hlist'⟩
      · rw [insertAfter, if_neg hsecond] at hlist'
        exact ⟨_, hlist'⟩
  · rw [decide_eq_false fun hboth => hs hboth.2]
    refine ⟨hroot', second, rest, ?_⟩
    rw [hstep.whole hs, hstep.firstLeaf]
    exact hlist

theorem LinksAfter.step {op : Op} (h : LinksAfter splits t) (hs : step t op = some t') :
    LinksAfter (splits + op.firstSplits t) t' := by
  cases op with
  | insert key value =>
    cases splits with
    | zero =>
      rw [Nat.zero_add]
      exact linksAfter_insert_leaf h hs
    | succ splits => exact linksAfter_insert_internal h hs
  | delete key =>
    obtain ⟨⟨found, t₁⟩, hdelete, rfl⟩ := map_eq_some_iff.1 hs
    obtain ⟨hlinks, hlen, hfirst⟩ := delete_links hdelete
    exact linksAfter_congr h hlinks hlen hfirst

theorem LinksAfter.run {ops : List Op} (h : LinksAfter splits t) (hexec : exec Memory.step t ops = some t') :
    LinksAfter (splits + firstSplits t ops) t' := by
  induction ops generalizing t splits with
  | nil =>
    cases hexec
    exact h
  | cons op ops ih =>
    obtain ⟨t₁, hs, hrest⟩ := bind_eq_some_iff.1 hexec
    rw [firstSplits, hs]
    show LinksAfter (splits + (op.firstSplits t + firstSplits t₁ ops)) t'
    rw [← Nat.add_assoc]
    exact ih (h.step hs) hrest

theorem linksAfter_new : LinksAfter 0 BTree.new := ⟨rfl, rfl, rfl⟩

end Runs

/-! ## The last leaf -/

section Last

variable {t : BTree} {m : SortedMap Bytes Bytes} {splits : Nat}

theorem lastLeaf_eq : ∀ {h : Nat} {tree : Tree Bytes Bytes h} {next : Option Nat} {lo hi : Bound Bytes} {fuel : Nat},
    tree.Rep t.look next → tree.Within lo hi → h < fuel →
      ∃ init l, tree.leaves = init ++ [l] ∧ t.lastLeaf fuel tree.page = some l.1
  | 0, .leaf p es, _, _, _, fuel + 1, hrep, _, _ => by
    obtain ⟨prev, hleaf⟩ := leafAt_of_look hrep
    refine ⟨[], (p, es), rfl, ?_⟩
    show t.lastLeaf (fuel + 1) p = some p
    rw [lastLeaf, node_of_leafAt hleaf]
  | h + 1, .node p ks cs, _, _, _, fuel + 1, ⟨hnode, hchildren⟩, hw, hfuel => by
    rcases eq_nil_or_concat' cs with rfl | ⟨before, c, rfl⟩
    · have hlen := Ordered.length hw
      exact absurd hlen (Nat.succ_ne_zero _).symm
    · obtain ⟨l, u, hc, -⟩ := (Ordered.mem (fun _ _ _ => Tree.Within.le) hw).2 c
        (mem_append_right before mem_cons_self)
      obtain ⟨init, leaf, hleaves, hlast⟩ := lastLeaf_eq (Chained.append.1 hchildren).2.1 hc
        (Nat.lt_of_succ_lt_succ hfuel)
      refine ⟨before.flatMap Tree.leaves ++ init, leaf, ?_, ?_⟩
      · show (before ++ [c]).flatMap Tree.leaves = _
        rw [flatMap_append, flatMap_singleton, hleaves, append_assoc]
      · show t.lastLeaf (fuel + 1) p = some leaf.1
        rw [lastLeaf, node_of_internalAt (internalAt_of_look hnode)]
        simp only [map_append, map_cons, map_nil, getLast?_concat, bind_some, hlast]

theorem Holds.last (hm : Holds t m) : ∃ idx leaf, t.lastLeaf t.nodes.length 0 = some idx
    ∧ t.leafAt idx = some leaf ∧ leaf.next = none := by
  obtain ⟨h, tree, hf, hw, hpage, -, -⟩ := hm
  obtain ⟨init, l, hleaves, hlast⟩ := lastLeaf_eq hf.rep.1 hw (hf.height_lt hw)
  have hchain := hf.rep.1.chain hw
  rw [hleaves, Chained.append] at hchain
  obtain ⟨prev, hleaf⟩ := leafAt_of_look hchain.2.1
  exact ⟨l.1, _, hpage ▸ hlast, hleaf, rfl⟩

theorem internalAt_of_links {p : Nat} {l : Links Nat} (h : t.links p = some l) : t.internalAt p = none := by
  obtain ⟨leaf, hleaf, -⟩ := leafAt_of_links h
  rw [internalAt, node_of_leafAt hleaf]

theorem Holds.internalAt_root (hm : Holds t m) (hroot : t.links 0 = none) : ∃ n, t.internalAt 0 = some n := by
  obtain ⟨h, tree, hf, -, hpage, -, -⟩ := hm
  have hpos : 0 < t.nodes.length := by
    refine hf.lt 0 (mem_flatMap.2 ⟨tree, mem_cons_self, ?_⟩)
    rw [Tree.pages_eq, hpage]
    exact mem_cons_self
  cases hnode : t.nodes[0] with
  | internal n => exact ⟨n, by rw [internalAt, getElem?_eq_getElem hpos, hnode]⟩
  | leaf leaf =>
    have hleaf : t.leafAt 0 = some leaf := by rw [leafAt, getElem?_eq_getElem hpos, hnode]
    exact absurd (hroot.symm.trans (links_of_leafAt hleaf)) (some_ne_none _).symm

theorem leavesLinked_of_listAt {rest : List Nat} (hm : Holds t m)
    (hlist : ListAt t.links t.firstLeaf (some t.firstLeaf) rest) : t.LeavesLinked := by
  refine ⟨fun i leaf hi j => ?_, ?_, hm.last, fun i leaf hi j hj => ?_⟩
  · refine (hlist.next_iff (links_of_leafAt hi)).trans ?_
    constructor
    · rintro ⟨l, hl, hprev⟩
      obtain ⟨other, hother, rfl⟩ := leafAt_of_links hl
      exact ⟨other, hother, hprev⟩
    · rintro ⟨other, hother, hprev⟩
      exact ⟨other.links, links_of_leafAt hother, hprev⟩
  · obtain ⟨leaf, hleaf, hlinks⟩ := leafAt_of_links hlist.head
    exact ⟨leaf, hleaf, congrArg Links.prev hlinks⟩
  · obtain ⟨l, hl⟩ := hlist.neighbour (links_of_leafAt hi) hj
    exact internalAt_of_links hl

theorem LinksAfter.leavesLinked_iff (h : LinksAfter splits t) (hm : Holds t m) : t.LeavesLinked ↔ splits ≠ 1 := by
  match splits, h with
  | 0, ⟨hlen, hroot, hfirst⟩ =>
    refine iff_of_true (@leavesLinked_of_listAt t m [] hm ⟨?_, trivial, nodup_singleton _, fun q hq => ?_⟩)
      (by decide)
    · rw [hfirst]
      exact hroot
    · by_cases hq0 : q = 0
      · rw [hq0, hfirst]
        exact mem_cons_self
      · rw [links_of_ge (by omega)] at hq
        exact absurd hq Bool.false_ne_true
  | 1, ⟨hroot, second, rest, hlist⟩ =>
    -- the second leaf points back to the root
    refine iff_of_false (fun hlinked => ?_) (fun hne => hne rfl)
    obtain ⟨leaf, hleaf, hlinks⟩ := leafAt_of_links hlist.linked.1
    obtain ⟨n, hn⟩ := hm.internalAt_root hroot
    have hnone := hlinked.no_internal second leaf hleaf 0 (.inl (congrArg Links.prev hlinks))
    exact absurd (hnone.symm.trans hn) (some_ne_none n).symm
  | splits + 2, ⟨_, second, rest, hlist⟩ =>
    refine iff_of_true (@leavesLinked_of_listAt t m (second :: rest) hm hlist) (by omega)

end Last

/-- **The leaves form a doubly linked list after exactly those runs in which the first leaf did not split exactly
once.** -/
theorem leaves_linked_iff (ops : List Op) : ∃ t, exec step BTree.new ops = some t ∧
    (t.LeavesLinked ↔ firstSplits BTree.new ops ≠ 1) := by
  obtain ⟨t, ht, hm⟩ := holds_new.run ops
  have hlinks := linksAfter_new.run ht
  rw [Nat.zero_add] at hlinks
  exact ⟨t, ht, hlinks.leavesLinked_iff hm⟩

/-- Four keys split the first leaf, which is the root. -/
def fourInserts : List Op := [[1], [2], [3], [4]].map fun key => .insert key []

/-- **After four insertions the second leaf points back to the root**, which is an internal node. -/
theorem second_leaf_points_to_root : ∃ t leaf, exec step BTree.new fourInserts = some t ∧ t.leafAt 1 = some leaf
    ∧ leaf.prev = some 0 ∧ (t.internalAt 0).isSome ∧ ¬ t.LeavesLinked := by
  refine ⟨_, _, rfl, rfl, rfl, rfl, fun hlinked => ?_⟩
  have hnone := hlinked.no_internal 1 _ rfl 0 (.inl rfl)
  exact absurd hnone (some_ne_none _)

end SystemDesignLabs.BTreeKv.Memory
