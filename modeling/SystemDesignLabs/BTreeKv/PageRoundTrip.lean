import SystemDesignLabs.BTreeKv.Paged

/-!
# What is read back from a page

`encode_page` cuts keys and values off at the size of their slots, and nothing tells the caller. A page that is
written is always read back, as the node whose items were cut off (`decodePage_encodePage_cut`), so that it is read
back as it was exactly if every item fits its slot.
-/

namespace SystemDesignLabs.BTreeKv.Paged

open List Core Node

/-- A node that `insert` can place in the tree: any items, at most `ORDER - 1` keys, any page ids. -/
inductive Node.Placed : Node → Prop
  | internal {n : InternalNode} (length_keys : n.keys.length ≤ order - 1)
      (length_children : n.children.length = n.keys.length + 1) (children : ∀ c ∈ n.children, c < 2 ^ 32) :
      Placed (.internal n)
  | leaf {n : LeafNode} (length_keys : n.keys.length ≤ order - 1) (length_values : n.values.length = n.keys.length)
      (next : n.next < 2 ^ 32) (prev : n.prev < 2 ^ 32) : Placed (.leaf n)

/-- Every key and every value fits its slot. -/
def Node.ItemsFit : Node → Prop
  | .internal n => ∀ k ∈ n.keys, k.length ≤ keyMax
  | .leaf n => (∀ k ∈ n.keys, k.length ≤ keyMax) ∧ ∀ v ∈ n.values, v.length ≤ valSlot - 2

/-- The node with its items cut off at the size of their slots. -/
def Node.cut : Node → Node
  | .internal n => .internal { n with keys := n.keys.map (List.take keyMax) }
  | .leaf n => .leaf { n with
      keys := n.keys.map (List.take keyMax)
      values := n.values.map (List.take (valSlot - 2)) }

theorem Node.pageId_cut (node : Node) : node.cut.pageId = node.pageId := by
  cases node <;> rfl

theorem map_take_eq_iff (max : Nat) (items : List Bytes) :
    items.map (List.take max) = items ↔ ∀ item ∈ items, item.length ≤ max := by
  induction items with
  | nil => simp only [map_nil, not_mem_nil, false_implies, implies_true]
  | cons item items ih =>
    rw [map_cons, cons.injEq, ih, take_eq_self_iff, forall_mem_cons]

theorem slot_take (max : Nat) (item : Bytes) : slot max (item.take max) = slot max item := by
  rw [slot, slot, length_take, take_take]
  congr 2 <;> omega

theorem map_slot_take (max : Nat) (items : List Bytes) :
    (items.map (List.take max)).map (slot max) = items.map (slot max) := by
  rw [map_map]
  exact map_congr_left fun item _ => slot_take max item

theorem encodePage_cut (node : Node) : encodePage node.cut = encodePage node := by
  cases node with
  | internal n => simp only [cut, encodePage, map_slot_take, length_map]
  | leaf n => simp only [cut, encodePage, map_slot_take, length_map]

theorem Node.Placed.fits_cut {node : Node} (h : node.Placed) : node.cut.Fits := by
  have hcut : ∀ (max : Nat) (items : List Bytes), ∀ item ∈ items.map (take max), item.length ≤ max := by
    intro max items item hitem
    obtain ⟨long, -, rfl⟩ := mem_map.1 hitem
    exact length_take_le max long
  cases h with
  | @internal n length_keys length_children children =>
    refine .internal ?_ (hcut keyMax n.keys) ?_ children
    · rw [length_map]
      exact Nat.lt_of_le_pred (by decide) length_keys
    · rw [length_map]
      exact length_children
  | @leaf n length_keys length_values next prev =>
    refine .leaf ?_ (hcut keyMax n.keys) ?_ (hcut (valSlot - 2) n.values) next prev
    · rw [length_map]
      exact Nat.lt_of_le_pred (by decide) length_keys
    · rw [length_map, length_map]
      exact length_values

/-- A page is read back as the node whose items were cut off. -/
theorem decodePage_encodePage_cut {node : Node} (h : node.Placed) :
    ∃ buf, encodePage node = some buf ∧ decodePage node.pageId buf = some node.cut := by
  obtain ⟨buf, hencode, hdecode⟩ := decodePage_encodePage h.fits_cut
  rw [encodePage_cut] at hencode
  rw [pageId_cut] at hdecode
  exact ⟨buf, hencode, hdecode⟩

theorem Node.cut_eq_iff (node : Node) : node.cut = node ↔ node.ItemsFit := by
  cases node with
  | internal n =>
    simp only [cut, ItemsFit, internal.injEq, ← map_take_eq_iff]
    exact ⟨fun h => congrArg InternalNode.keys h, fun h => by rw [h]⟩
  | leaf n =>
    simp only [cut, ItemsFit, leaf.injEq, ← map_take_eq_iff]
    exact ⟨fun h => ⟨congrArg LeafNode.keys h, congrArg LeafNode.values h⟩, fun h => by rw [h.1, h.2]⟩

/-- **A page is read back as it was if and only if every item fits its slot.** -/
theorem page_read_back_iff {node : Node} (h : node.Placed) :
    (∃ buf, encodePage node = some buf ∧ decodePage node.pageId buf = some node) ↔ node.ItemsFit := by
  obtain ⟨buf, hencode, hdecode⟩ := decodePage_encodePage_cut h
  rw [← cut_eq_iff]
  constructor
  · rintro ⟨buf', hencode', hdecode'⟩
    rw [hencode] at hencode'
    cases hencode'
    rw [hdecode] at hdecode'
    exact Option.some_inj.1 hdecode'
  · intro hcut
    exact ⟨buf, hencode, hdecode.trans (congrArg some hcut)⟩

/-- A leaf with one pair whose key is the letter `a`, repeated. -/
def leafOfLength (length : Nat) : Node :=
  .leaf ⟨0, [List.replicate length 0x61], [[0x31]], nullPage, nullPage⟩

theorem leafOfLength_placed (length : Nat) : (leafOfLength length).Placed :=
  .leaf (show 1 ≤ order - 1 by decide) rfl (show nullPage < 2 ^ 32 by decide) (show nullPage < 2 ^ 32 by decide)

/-- A key of 62 bytes is read back. -/
theorem page_read_back_iff_longest : (leafOfLength 62).Placed ∧ ∃ buf, encodePage (leafOfLength 62) = some buf
    ∧ decodePage 0 buf = some (leafOfLength 62) := by
  refine ⟨leafOfLength_placed 62, (page_read_back_iff (leafOfLength_placed 62)).2 ⟨fun k hk => ?_, fun v hv => ?_⟩⟩
  · rw [mem_singleton.1 hk]
    decide
  · rw [mem_singleton.1 hv]
    decide

/-- **A key of 63 bytes is inserted, and its page is read back with a key of 62 bytes.** -/
theorem long_key_cut : ∃ t t', BTree.openFile 64 [] = .ok t ∧ t.insert (List.replicate 63 0x61) [0x31] = .ok t'
    ∧ t'.cache.map.get 0 = some (leafOfLength 63)
    ∧ ∃ buf, encodePage (leafOfLength 63) = some buf ∧ t'.file = [buf]
      ∧ decodePage 0 buf = some (leafOfLength 62) ∧ ¬ decodePage 0 buf = some (leafOfLength 63) := by
  refine ⟨(BTree.openFile 64 []).toOption.get rfl, _, rfl, rfl, rfl, _, rfl, rfl, by decide +kernel, by decide +kernel⟩

end SystemDesignLabs.BTreeKv.Paged
