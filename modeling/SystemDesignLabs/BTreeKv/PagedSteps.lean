import SystemDesignLabs.BTreeKv.PagedDisk

/-!
# One insertion into the B+ tree on disk

The edit of a leaf (`leafInsert_spec`), the edit of a node (`internalAbsorbSplit_spec`) and the descent
(`insertRecursive_spec`) update the tree that the nodes hold, as long as the pages they allocate have
ids: `next_page_id` is the number of nodes and stays below `u32::MAX`.
-/

namespace SystemDesignLabs.BTreeKv.Paged

open Option List Core BPlusTree SortedList Tree BTree Node Prod BPlusTree.Tree

/-! ## Nodes with their entries -/

/-- A leaf with the given entries. -/
def leafNode (pageId : Nat) (es : List (Bytes × Bytes)) (next prev : Nat) : LeafNode :=
  ⟨pageId, es.map Prod.fst, es.map Prod.snd, next, prev⟩

/-- An entry that fits its slots. -/
def SmallEntry (e : Bytes × Bytes) : Prop := e.1.length ≤ keyMax ∧ e.2.length ≤ valSlot - 2

variable {es : List (Bytes × Bytes)}

theorem fits_leafNode {p : Nat} {next prev : Nat} :
    (Node.leaf (leafNode p es next prev)).Fits ↔ es.length < order ∧ (∀ e ∈ es, SmallEntry e) ∧
      next < 2 ^ 32 ∧ prev < 2 ^ 32 := by
  constructor
  · rintro (_ | ⟨hlen, hkeys, -, hvalues, hnext, hprev⟩)
    refine ⟨?_, fun e he => ⟨hkeys e.1 (mem_map_of_mem he), hvalues e.2 (mem_map_of_mem he)⟩, hnext, hprev⟩
    simpa [leafNode] using hlen
  · rintro ⟨hlen, hes, hnext, hprev⟩
    refine .leaf (by simpa [leafNode] using hlen) (fun k hk => ?_) (by simp [leafNode])
      (fun v hv => ?_) hnext hprev
    · obtain ⟨e, he, rfl⟩ := mem_map.1 hk
      exact (hes e he).1
    · obtain ⟨e, he, rfl⟩ := mem_map.1 hv
      exact (hes e he).2

theorem shape_leafNode (p : Nat) (es : List (Bytes × Bytes)) (next prev : Nat) :
    (Node.leaf (leafNode p es next prev)).shape = .leaf (es.map Prod.fst) (es.map Prod.snd) (link next) := rfl

theorem insertAt_leafNode (p next prev : Nat) {key : Bytes} (value : Bytes) (hs : Sorted es)
    (hne : ∀ e ∈ es, e.1 ≠ key) : (leafNode p es next prev).insertAt key value =
      leafNode p (insertList key value es) next prev := by
  rw [insertList_of_not_mem value hs hne, leafNode, leafNode, LeafNode.insertAt, map_insertIdx, map_insertIdx]

theorem length_insertList_le {key value : Bytes} (es : List (Bytes × Bytes)) :
    (insertList key value es).length ≤ es.length + 1 := by
  induction es with
  | nil => exact le_rfl
  | cons e es ih =>
    rw [insertList]
    split
    · exact le_rfl
    · split
      · exact Nat.le_succ _
      · simpa using ih

theorem small_insertList {key value : Bytes} (hes : ∀ e ∈ es, SmallEntry e) (hsmall : SmallEntry (key, value)) :
    ∀ e ∈ insertList key value es, SmallEntry e := by
  intro e he
  rcases mem_insertList he with rfl | he
  · exact hsmall
  · exact hes e he

theorem leafNode_of_look {t : BTree} {nodes : List Node} {p : Nat} {next : Option Nat}
    (hs : Stored t.file nodes) (h : look nodes p = some (.leaf (es.map Prod.fst) (es.map Prod.snd) next)) :
    ∃ nx prev, nodes[p]? = some (.leaf (leafNode p es nx prev)) ∧ next = link nx :=
  leaf_of_look hs h

section Insert

variable {t : BTree} {nodes : List Node} {key value : Bytes}

/-! ## Leaves -/

theorem setPrev_spec (hb : Backed t nodes) {nx prev : Nat} (hprev : prev < 2 ^ 32)
    (hleaf : nx ≠ nullPage → IsLeaf (look nodes) nx) : ∃ t' nodes', t.setPrev nx prev = .ok t' ∧
      Backed t' nodes' ∧ t'.nextPageId = t.nextPageId ∧ nodes'.length = nodes.length ∧ look nodes' = look nodes := by
  rw [setPrev]
  by_cases hnull : nx = nullPage
  · rw [if_neg (not_not.2 hnull)]
    exact ⟨t, nodes, rfl, hb, rfl, rfl, rfl⟩
  · rw [if_pos hnull]
    obtain ⟨ks, vs, next, hlook⟩ := hleaf hnull
    obtain ⟨nx', prev', hnx, -⟩ := leaf_of_look hb.stored hlook
    obtain ⟨c, hread, hb₁⟩ := hb.readPage hnx
    have hlt := lt_of_look hlook
    have hfits : (leaf ⟨nx, ks, vs, nx', prev⟩).Fits := by
      rcases hb.stored.fits _ (mem_of_getElem? hnx) with _ | ⟨h₁, h₂, h₃, h₄, h₅, -⟩
      exact .leaf h₁ h₂ h₃ h₄ h₅ hprev
    obtain ⟨t', nodes', hwrite, hb', hnext, hlen, hnew, hother⟩ := hb₁.overwrite nx hfits rfl hlt
    refine ⟨t', nodes', ?_, hb', hnext, hlen, ?_⟩
    · rw [hread, ok_bind]
      exact hwrite
    · funext q
      by_cases hq : q = nx
      · subst hq
        rw [look_of_getElem? hnew, look_of_getElem? hnx]
        rfl
      · exact look_congr (hother q hq)

variable {es : List (Bytes × Bytes)}

theorem splitLeft_spec (hb : Backed t nodes) {p nx prev right : Nat}
    (hp : nodes[p]? = some (.leaf (leafNode p es nx prev))) (hright : right < 2 ^ 32) (mid : Nat)
    (hleaf : nx ≠ nullPage → IsLeaf (look nodes) nx) : ∃ t₁ t₂ nodes₂, t.setPrev nx right = .ok t₁ ∧
        t₁.writePage (.leaf (leafNode p (es.take mid) right prev)) = .ok t₂ ∧
          Backed t₂ nodes₂ ∧ t₂.nextPageId = t.nextPageId ∧ nodes₂.length = nodes.length ∧
            nodes₂[p]? = some (.leaf (leafNode p (es.take mid) right prev)) ∧
              ∀ q ≠ p, look nodes₂ q = look nodes q := by
  obtain ⟨hlen, hes, -, hprev⟩ := fits_leafNode.1 (hb.stored.fits _ (mem_of_getElem? hp))
  obtain ⟨t₁, nodes₁, hset, hb₁, hnext₁, hlen₁, hlook₁⟩ := setPrev_spec hb hright hleaf
  have hplt : p < nodes₁.length := by
    rw [hlen₁]
    exact (List.getElem?_eq_some_iff.1 hp).1
  have hfits : (leaf (leafNode p (es.take mid) right prev)).Fits := by
    refine fits_leafNode.2 ⟨?_, fun e he => hes e (mem_of_mem_take he), hright, hprev⟩
    exact lt_of_le_of_lt (length_take_le' mid es) hlen
  obtain ⟨t₂, nodes₂, hwrite, hb₂, hnext₂, hlen₂, hnew₂, hother₂⟩ := hb₁.overwrite p hfits rfl hplt
  refine ⟨t₁, t₂, nodes₂, hset, hwrite, hb₂, hnext₂.trans hnext₁, hlen₂.trans hlen₁, hnew₂, fun q hq => ?_⟩
  rw [look_congr (hother₂ q hq), hlook₁]

variable {p nx prev : Nat}

theorem splitLeafNode_spec (hb : Backed t nodes) (hp : nodes[p]? = some (.leaf (leafNode p es nx prev)))
    (hfull : order - 1 ≤ es.length) (hnext : t.nextPageId = nodes.length) (hroom : nodes.length + 1 < 2 ^ 32)
    (hleaf : nx ≠ nullPage → IsLeaf (look nodes) nx) : ∃ L e R t' nodes', es = L ++ e :: R ∧
      t.splitLeafNode (leafNode p es nx prev) = .ok ((e.1, leafNode nodes.length (e :: R) nx p), t') ∧
        L.length + 1 < order ∧ (e :: R).length + 1 < order ∧ Backed t' nodes' ∧
          t'.nextPageId = nodes.length + 1 ∧ nodes'.length = nodes.length + 1 ∧
            nodes'[p]? = some (.leaf (leafNode p L nodes.length prev)) ∧
              nodes'[nodes.length]? = some (.leaf (leafNode nodes.length (e :: R) nx p)) ∧
                ∀ q, q ≠ p → q ≠ nodes.length → look nodes' q = look nodes q := by
  obtain ⟨hlen, hes, hnx, hprev⟩ := fits_leafNode.1 (hb.stored.fits _ (mem_of_getElem? hp))
  have hplt : p < nodes.length := (List.getElem?_eq_some_iff.1 hp).1
  have hmid : es.length / 2 < es.length := by
    rw [order] at hfull
    omega
  have hdrop : es.drop (es.length / 2) = es[es.length / 2] :: es.drop (es.length / 2 + 1) :=
    drop_eq_getElem_cons hmid
  have hcut : es = es.take (es.length / 2) ++ es[es.length / 2] :: es.drop (es.length / 2 + 1) := by
    rw [← hdrop, take_append_drop]
  -- the allocated page
  have hb₀ : Backed { t with nextPageId := t.nextPageId + 1 } nodes := hb.nextPageId _
  have hright : nodes.length < 2 ^ 32 := Nat.lt_of_succ_lt hroom
  obtain ⟨t₁, t₂, nodes₂, hset, hwrite, hb₂, hnext₂, hlen₂, hp₂, hlook₂⟩ :=
    splitLeft_spec hb₀ hp hright (es.length / 2) hleaf
  have hlenR : (es.drop (es.length / 2)).length + 1 < order := by
    rw [length_drop]
    simp only [order] at hlen hfull ⊢
    omega
  have hfits : (leaf (leafNode nodes.length (es.drop (es.length / 2)) nx p)).Fits :=
    fits_leafNode.2 ⟨by omega, fun e he => hes e (mem_of_mem_drop he), hnx, by omega⟩
  obtain ⟨t₃, nodes₃, hwrite₃, hb₃, hnext₃, hlen₃, hnew₃, hother₃⟩ :=
    hb₂.append nodes.length hfits rfl hlen₂.symm
  refine ⟨es.take (es.length / 2), es[es.length / 2], es.drop (es.length / 2 + 1), t₃, nodes₃, hcut,
    ?_, ?_, hdrop ▸ hlenR, hb₃, ?_, ?_, ?_, hdrop ▸ hnew₃, fun q hqp hqn => ?_⟩
  · have hhead : t.index ((es.map fst).drop (es.length / 2)) 0 = .ok es[es.length / 2].1 := by
      rw [← map_drop, hdrop]
      exact index_eq_ok rfl
    have halloc : t.allocatePage = .ok (nodes.length, { t with nextPageId := t.nextPageId + 1 }) := by
      rw [allocatePage, hnext, if_pos hroom]
    have hlenKeys : (es.map fst).length = es.length := length_map _
    simp only [splitLeafNode, leafNode, hlenKeys, hhead, ok_bind, halloc, hset]
    simp only [leafNode, map_take] at hwrite
    simp only [leafNode, map_drop] at hwrite₃
    simp only [hwrite, ok_bind, hwrite₃]
    rw [← map_drop, ← map_drop, hdrop]
  · rw [length_take]
    simp only [order] at hlen hfull ⊢
    omega
  · rw [hnext₃, hnext₂]
    exact congrArg Nat.succ hnext
  · rw [hlen₃, hlen₂]
  · rw [hother₃ p (ne_of_lt hplt)]
    exact hp₂
  · rw [look_congr (hother₃ q hqn), hlook₂ q hqp]

/-- The result of an insertion below a tree that allocates `count` pages. -/
def InsertSpec (t : BTree) (nodes : List Node) (key value : Bytes)
    (outcome : Outcome (Option (Bytes × Nat) × BTree)) {h : Nat} (tree : Tree Bytes Bytes h)
    (next : Option Nat) (lo hi : Bound Bytes) (count : Nat) (split : Bool) : Prop :=
  ∃ r t' nodes' seps ts, outcome = .ok (r, t') ∧ SplitResult tree r seps ts ∧
    Ordered (Tree.Within (h := h)) lo seps ts hi ∧ (∀ m ∈ seps, m.length ≤ keyMax) ∧
      Replaced (look nodes) nodes.length (look nodes') nodes'.length (insertList key value) [tree] ts
        next ∧ Backed t' nodes' ∧ nodes'.length = nodes.length + count ∧
          t'.nextPageId = t.nextPageId + count ∧ r.isSome = split

variable {lo hi : Bound Bytes}

theorem InsertSpec.kept (hb : Backed t nodes) (hp : nodes[p]? = some (.leaf (leafNode p es nx prev)))
    (hf : Forest (look nodes) nodes.length [Tree.leaf p es] (link nx))
    (hins : Tree.Within lo hi (.leaf p (insertList key value es)))
    (hlen : (insertList key value es).length < order) (hsmall : SmallEntry (key, value)) :
    ∃ t', t.writePage (.leaf (leafNode p (insertList key value es) nx prev)) = .ok t' ∧
      InsertSpec t nodes key value (.ok (none, t')) (Tree.leaf p es) (link nx) lo hi 0 false := by
  obtain ⟨-, hes, hnx, hprev⟩ := fits_leafNode.1 (hb.stored.fits _ (mem_of_getElem? hp))
  have hfits : (leaf (leafNode p (insertList key value es) nx prev)).Fits :=
    fits_leafNode.2 ⟨hlen, small_insertList hes hsmall, hnx, hprev⟩
  obtain ⟨t₁, nodes₁, hwrite, hb₁, hnext₁, hlen₁, hnew₁, hother₁⟩ :=
    hb.overwrite p hfits rfl (List.getElem?_eq_some_iff.1 hp).1
  refine ⟨t₁, hwrite, none, t₁, nodes₁, [], [leaf p (insertList key value es)], rfl,
    .whole _ rfl, hins, fun m hm => absurd hm not_mem_nil, ?_, hb₁, hlen₁, hnext₁, rfl⟩
  rw [hlen₁]
  exact Replaced.leaf hf rfl (look_of_getElem? hnew₁) fun q _ hq => look_congr (hother₁ q hq)

theorem leafInsert_full (hb : Backed t nodes) (hp : nodes[p]? = some (.leaf (leafNode p es nx prev)))
    (hf : Forest (look nodes) nodes.length [Tree.leaf p es] (link nx)) (hw : Tree.Within lo hi (.leaf p es))
    (hlo : lo ≤ bound key) (hhi : bound key < hi) (hsmall : SmallEntry (key, value))
    (hleaf : ∀ q, link nx = some q → IsLeaf (look nodes) q)
    (hsearch : binarySearch (es.map Prod.fst) key = none) (hfull : order - 1 ≤ es.length)
    (hids : t.nextPageId = nodes.length) (hroom : nodes.length + 1 < 2 ^ 32) :
    InsertSpec t nodes key value (t.leafInsert (leafNode p es nx prev) key value) (Tree.leaf p es)
      (link nx) lo hi 1 true := by
  obtain ⟨-, hes, hnx, hprev⟩ := fits_leafNode.1 (hb.stored.fits _ (mem_of_getElem? hp))
  have hplt : p < nodes.length := (List.getElem?_eq_some_iff.1 hp).1
  have hne := binarySearch_eq_none hsearch
  have hnull : nx ≠ nullPage → IsLeaf (look nodes) nx := fun h =>
    hleaf nx (link_eq_some.2 ⟨h, rfl⟩)
  obtain ⟨L, e, R, t₁, nodes₁, rfl, hsplit, hlenL, hlenR, hb₁, hnext₁, hlen₁, hleft, hright,
    hother₁⟩ := splitLeafNode_spec hb hp hfull hids hroom hnull
  obtain ⟨hwL, hwR⟩ := hw.halves (q := p) (r := nodes.length)
  have hnp : p ≠ nodes.length := ne_of_lt hplt
  have hlinkn : link nodes.length = some nodes.length :=
    link_eq_some.2 ⟨by simp only [nullPage]; omega, rfl⟩
  have hplt₁ : p < nodes₁.length := by omega
  have hnlt₁ : nodes.length < nodes₁.length := by omega
  have hnlt : nodes.length < 2 ^ 32 := by omega
  obtain ⟨c, hread, hb₂⟩ := hb₁.readPage hleft
  have hsmallL : ∀ d ∈ L, SmallEntry d := fun d hd => hes d (mem_append_left _ hd)
  have hsmallR : ∀ d ∈ e :: R, SmallEntry d := fun d hd => hes d (mem_append_right _ hd)
  have hpromoted : ∀ m ∈ [e.1], m.length ≤ keyMax := by
    intro m hm
    rw [mem_singleton.1 hm]
    exact (hsmallR e mem_cons_self).1
  have hsearch' : binarySearch (leafNode p (L ++ e :: R) nx prev).keys key = none := hsearch
  have hfull' : order - 1 ≤ (leafNode p (L ++ e :: R) nx prev).keys.length := by
    simpa [leafNode] using hfull
  have hprevR : (leafNode nodes.length (e :: R) nx p).prev = p := rfl
  by_cases hle : e.1 ≤ key
  · -- the new pair belongs to the right half
    have hsplitList : L ++ insertList key value (e :: R) =
        insertList key value (L ++ e :: R) := by
      refine (insertList_append_left value _ fun d hd => ?_).symm
      exact lt_of_lt_of_le (bound_lt_bound.1 (hwL.2.2 d hd).2) hle
    have hfits : (leaf (leafNode nodes.length (insertList key value (e :: R)) nx p)).Fits :=
      fits_leafNode.2 ⟨lt_of_le_of_lt (length_insertList_le _) hlenR,
        small_insertList hsmallR hsmall, hnx, by omega⟩
    obtain ⟨t₂, nodes₂, hwrite, hb₃, hnext₂, hlen₂, hnew₂, hother₂⟩ :=
      hb₂.overwrite nodes.length hfits rfl hnlt₁
    have hout : t.leafInsert (leafNode p (L ++ e :: R) nx prev) key value =
        .ok (some (e.1, nodes.length), t₂) := by
      have hinsert := insertAt_leafNode nodes.length nx p value
        hwR.2.1 fun d hd => hne d (mem_append_right _ hd)
      simp only [leafInsert, hsearch', if_pos hfull', hsplit, ok_bind, hprevR, hread,
        asLeaf, if_pos hle, hinsert, hwrite]
      rfl
    rw [hout]
    refine ⟨_, t₂, nodes₂, [e.1], [leaf p L, leaf nodes.length (insertList key value (e :: R))], rfl, .split
      e.1 (leaf p L) (leaf nodes.length _) rfl, ⟨hwL, hwR.insertLeaf (bound_le_bound.2 hle) hhi⟩, hpromoted,
      ?_, hb₃, hlen₂.trans hlen₁, ?_, rfl⟩
    · rw [hlen₂, hlen₁]
      refine Replaced.leafSplit hf hsplitList ?_ (look_of_getElem? hnew₂) fun q hq hqp => ?_
      · rw [look_congr (hother₂ p hnp), look_of_getElem? hleft, shape_leafNode, hlinkn]
      · rw [look_congr (hother₂ q (ne_of_lt hq)), hother₁ q hqp (ne_of_lt hq)]
    · rw [hnext₂, hnext₁, hids]
  · -- the new pair belongs to the left half
    have hgt := not_le.1 hle
    have hsplitList : insertList key value L ++ e :: R =
        insertList key value (L ++ e :: R) := by
      refine (insertList_append_right value _ fun d hd => ?_).symm
      exact bound_lt_bound.1 (lt_of_lt_of_le (bound_lt_bound.2 hgt) (hwR.2.2 d hd).1)
    have hfits : (leaf (leafNode p (insertList key value L) nodes.length prev)).Fits :=
      fits_leafNode.2 ⟨lt_of_le_of_lt (length_insertList_le _) hlenL, small_insertList hsmallL hsmall, hnlt, hprev⟩
    obtain ⟨t₂, nodes₂, hwrite, hb₃, hnext₂, hlen₂, hnew₂, hother₂⟩ :=
      hb₂.overwrite p hfits rfl hplt₁
    have hout : t.leafInsert (leafNode p (L ++ e :: R) nx prev) key value =
        .ok (some (e.1, nodes.length), t₂) := by
      have hinsert := insertAt_leafNode p nodes.length prev value
        hwL.2.1 fun d hd => hne d (mem_append_left _ hd)
      simp only [leafInsert, hsearch', if_pos hfull', hsplit, ok_bind, hprevR, hread,
        asLeaf, if_neg hle, hinsert, hwrite]
      rfl
    rw [hout]
    refine ⟨_, t₂, nodes₂, [e.1], [leaf p (insertList key value L), leaf nodes.length (e :: R)], rfl, .split
      e.1 (leaf p _) (leaf nodes.length (e :: R)) rfl, ⟨hwL.insertLeaf hlo (bound_lt_bound.2 hgt), hwR⟩,
      hpromoted, ?_, hb₃, hlen₂.trans hlen₁, ?_, rfl⟩
    · rw [hlen₂, hlen₁]
      refine Replaced.leafSplit hf hsplitList ?_ ?_ fun q hq hqp => ?_
      · rw [look_of_getElem? hnew₂, shape_leafNode, hlinkn]
      · rw [look_congr (hother₂ _ hnp.symm), look_of_getElem? hright, shape_leafNode]
      · rw [look_congr (hother₂ q hqp), hother₁ q hqp (ne_of_lt hq)]
    · rw [hnext₂, hnext₁, hids]

theorem leafInsert_spec (hb : Backed t nodes) (hp : nodes[p]? = some (.leaf (leafNode p es nx prev)))
    (hf : Forest (look nodes) nodes.length [Tree.leaf p es] (link nx)) (hw : Tree.Within lo hi (.leaf p es))
    (hlo : lo ≤ bound key) (hhi : bound key < hi) (hsmall : SmallEntry (key, value))
    (hleaf : ∀ q, link nx = some q → IsLeaf (look nodes) q) {count : Nat} {split : Bool}
    (hsplits : (if key ∈ es.map Prod.fst ∨ es.length < order - 1 then (0, false) else (1, true)) = (count, split))
    (hids : count ≠ 0 → t.nextPageId = nodes.length) (hroom : nodes.length + count < 2 ^ 32) :
    InsertSpec t nodes key value (t.leafInsert (leafNode p es nx prev) key value) (Tree.leaf p es)
      (link nx) lo hi count split := by
  obtain ⟨hlen, -⟩ := fits_leafNode.1 (hb.stored.fits _ (mem_of_getElem? hp))
  have hs := hw.2.1
  have hins : Within lo hi (.leaf p (insertList key value es)) := hw.insertLeaf hlo hhi
  cases hsearch : binarySearch (es.map fst) key with
  | some pos =>
    -- the value of a key that is there is overwritten
    obtain ⟨A, v, B, rfl, hlenA⟩ := binarySearch_eq_some hsearch
    have hmem : key ∈ (A ++ (key, v) :: B).map fst :=
      mem_map.2 ⟨(key, v), mem_append_right _ mem_cons_self, rfl⟩
    rw [if_pos (Or.inl hmem)] at hsplits
    cases hsplits
    have heq := insertList_of_mem value hs
    have hnode : (⟨p, (A ++ (key, v) :: B).map fst,
        ((A ++ (key, v) :: B).map snd).set pos value, nx, prev⟩ : LeafNode) =
          leafNode p (insertList key value (A ++ (key, v) :: B)) nx prev := by
      rw [heq, leafNode, ← hlenA]
      simp
    obtain ⟨t₁, hwrite, hspec⟩ := InsertSpec.kept hb hp hf hins
      (by rw [heq]; simpa using hlen) hsmall
    have hout : t.leafInsert (leafNode p (A ++ (key, v) :: B) nx prev) key value =
        .ok (none, t₁) := by
      simp only [leafInsert, leafNode, hsearch]
      rw [hnode, hwrite, ok_bind]
    rw [hout]
    exact hspec
  | none =>
    have hne := binarySearch_eq_none hsearch
    have hnot : key ∉ es.map fst := fun hmem => by
      obtain ⟨e, he, hkey⟩ := mem_map.1 hmem
      exact hne e he hkey
    by_cases hfull : order - 1 ≤ es.length
    · rw [if_neg (not_or.2 ⟨hnot, not_lt.2 hfull⟩)] at hsplits
      cases hsplits
      exact leafInsert_full hb hp hf hw hlo hhi hsmall hleaf hsearch hfull
        (hids Nat.one_ne_zero) hroom
    · have hlt := not_le.1 hfull
      rw [if_pos (Or.inr hlt)] at hsplits
      cases hsplits
      obtain ⟨t₁, hwrite, hspec⟩ := InsertSpec.kept hb hp hf hins
        (lt_of_le_of_lt (length_insertList_le es) (by rw [order] at hlt ⊢; omega)) hsmall
      have hout : t.leafInsert (leafNode p es nx prev) key value = .ok (none, t₁) := by
        have hsearch' : binarySearch (leafNode p es nx prev).keys key = none := hsearch
        have hnotFull : ¬ order - 1 ≤ (leafNode p es nx prev).keys.length := by
          simpa [leafNode] using hfull
        simp only [leafInsert, hsearch', if_neg hnotFull,
          insertAt_leafNode p nx prev value hs hne, hwrite, ok_bind]
      rw [hout]
      exact hspec

/-! ## Internal nodes -/

theorem page_lt {h n : Nat} {store : Store Bytes Bytes} {cs : List (Tree Bytes Bytes h)}
    {next : Option Nat} (hf : Forest store n cs next) : ∀ q ∈ cs.map Tree.page, q < n := by
  intro q hq
  obtain ⟨c, hc, rfl⟩ := mem_map.1 hq
  refine hf.lt _ (mem_flatMap.2 ⟨c, hc, ?_⟩)
  rw [pages_eq]
  exact mem_cons_self

theorem internalAbsorbSplit_spec {t₁ : BTree} {nodes₁ : List Node} {h : Nat}
    {ks KA KB : List Bytes} {cs A B : List (Tree Bytes Bytes h)} {c left right : Tree Bytes Bytes h}
    {next : Option Nat} {l u : Bound Bytes} {m : Bytes} {count : Nat}
    (f : Focus (Tree.Within (h := h)) lo hi ks cs key A c B KA KB l u)
    (hf : Forest (look nodes) nodes.length [BPlusTree.Tree.node p ks cs] next)
    (hfits : (Node.internal ⟨p, ks, cs.map Tree.page⟩).Fits) (hb : Backed t₁ nodes₁)
    (hr : Replaced (look nodes) nodes.length (look nodes₁) nodes₁.length (insertList key value) [c]
      [left, right] ((B.head?.map Tree.firstLeaf).or next))
    (hord : Ordered (Tree.Within (h := h)) l [m] [left, right] u) (hpage : left.page = c.page)
    (hm : m.length ≤ keyMax) (hlen₁ : nodes₁.length = nodes.length + count)
    (hnext₁ : t₁.nextPageId = t.nextPageId + count) (hroom : nodes₁.length < 2 ^ 32)
    (hids : order - 1 ≤ ks.length → t₁.nextPageId = nodes₁.length ∧ nodes₁.length + 1 < 2 ^ 32) :
    InsertSpec t nodes key value (t₁.internalAbsorbSplit ⟨p, ks, cs.map Tree.page⟩ (partitionPoint ks key) m right.page)
      (BPlusTree.Tree.node p ks cs) next lo hi (if order - 1 ≤ ks.length then count + 1 else count)
      (decide (order - 1 ≤ ks.length)) := by
  obtain ⟨hcs, hcsOrd⟩ := f.absorb hf (local_insertList key value) hr hord
  obtain ⟨hp, -, hpcs, hpn⟩ := hf.children
  obtain ⟨hkeys, hchildren⟩ := f.insertIdx m right hpage
  obtain ⟨hlenKs, hksSmall, -, -⟩ := hfits
  have hpn₁ : p < nodes₁.length := by omega
  have hall : (⟨p, ks, cs.map page⟩ : InternalNode).insertAt (partitionPoint ks key) m
      right.page = ⟨p, KA ++ [m] ++ KB, (A ++ [left, right] ++ B).map page⟩ := by
    rw [InternalNode.insertAt, hkeys, hchildren]
  have hlenK : (KA ++ [m] ++ KB).length = ks.length + 1 := by
    rw [f.keys]
    simp
    omega
  have hsmallK : ∀ k ∈ KA ++ [m] ++ KB, k.length ≤ keyMax := by
    intro k hk
    rw [f.keys] at hksSmall
    rcases mem_append.1 hk with hk | hk
    · rcases mem_append.1 hk with hk | hk
      · exact hksSmall k (mem_append_left _ hk)
      · rw [mem_singleton.1 hk]
        exact hm
    · exact hksSmall k (mem_append_right _ hk)
  have hpagesC : ∀ q ∈ (A ++ [left, right] ++ B).map page, q < 2 ^ 32 := fun q hq =>
    lt_trans (page_lt hcs.forest q hq) hroom
  have hlenC := Ordered.length hcsOrd
  generalize KA ++ [m] ++ KB = K at *
  generalize A ++ [left, right] ++ B = C at *
  by_cases hfull : order - 1 ≤ ks.length
  · -- the node is split in the middle
    obtain ⟨hnextId, hroom'⟩ := hids hfull
    have hmid : K.length / 2 < K.length := by omega
    have hm' : K[K.length / 2]? = some K[K.length / 2] := getElem?_eq_getElem hmid
    have hCL : C.take (K.length / 2 + 1) ≠ [] := ne_nil_of_length_pos (by
      rw [length_take]; omega)
    have hCR : C.drop (K.length / 2 + 1) ≠ [] := ne_nil_of_length_pos (by
      rw [length_drop]; omega)
    change ks.length < 16 at hlenKs
    change 15 ≤ ks.length at hfull
    have hfitsL : (internal ⟨p, K.take (K.length / 2), (C.take (K.length / 2 + 1)).map page⟩).Fits := by
      refine .internal ?_ (fun k hk => hsmallK k (mem_of_mem_take hk)) ?_ fun q hq => ?_
      · simp only [length_take, order]
        omega
      · simp only [length_map, length_take]
        omega
      · rw [map_take] at hq
        exact hpagesC q (mem_of_mem_take hq)
    have hfitsR : (internal ⟨nodes₁.length, K.drop (K.length / 2 + 1),
        (C.drop (K.length / 2 + 1)).map page⟩).Fits := by
      refine .internal ?_ (fun k hk => hsmallK k (mem_of_mem_drop hk)) ?_ fun q hq => ?_
      · simp only [length_drop, order]
        omega
      · simp only [length_map, length_drop]
        omega
      · rw [map_drop] at hq
        exact hpagesC q (mem_of_mem_drop hq)
    obtain ⟨t₂, nodes₂, hwrite₂, hb₂, hnext₂, hlen₂, hnew₂, hother₂⟩ :=
      (hb.nextPageId (t₁.nextPageId + 1)).overwrite p hfitsL rfl hpn₁
    obtain ⟨t₃, nodes₃, hwrite₃, hb₃, hnext₃, hlen₃, hnew₃, hother₃⟩ :=
      hb₂.append nodes₁.length hfitsR rfl hlen₂.symm
    have hout : t₁.internalAbsorbSplit ⟨p, ks, cs.map page⟩ (partitionPoint ks key) m
        right.page = .ok (some (K[K.length / 2], nodes₁.length), t₃) := by
      have halloc : t₁.allocatePage =
          .ok (nodes₁.length, { t₁ with nextPageId := t₁.nextPageId + 1 }) := by
        rw [allocatePage, hnextId, if_pos hroom']
      have hpromoted : t₁.index K (K.length / 2) = .ok K[K.length / 2] := index_eq_ok hm'
      rw [map_take] at hwrite₂
      rw [map_drop] at hwrite₃
      simp only [internalAbsorbSplit, if_pos (show order - 1 ≤ ks.length from hfull),
        splitInternalNode, hall, hpromoted, ok_bind, halloc, hwrite₂, hwrite₃]
    rw [hout]
    rw [← take_append_drop (K.length / 2 + 1) C] at hcs
    refine ⟨_, t₃, nodes₃, [K[K.length / 2]], [node p (K.take (K.length / 2)) (C.take (K.length / 2 +
      1)), node nodes₁.length (K.drop (K.length / 2 + 1)) (C.drop (K.length / 2 + 1))], rfl, .split _
      (node p _ _) (node nodes₁.length _ _) rfl, Ordered.halves hcsOrd hm', ?_, ?_, hb₃,
      ?_, ?_, (decide_eq_true hfull).symm⟩
    · intro k hk
      rw [mem_singleton.1 hk]
      exact hsmallK _ (getElem_mem hmid)
    · rw [hlen₃, hlen₂]
      refine hcs.split hf hCL hCR ?_ (look_of_getElem? hnew₃) fun q hqp hqn => ?_
      · rw [look_congr (hother₃ p (ne_of_lt hpn₁))]
        exact look_of_getElem? hnew₂
      · rw [look_congr (hother₃ q hqn), look_congr (hother₂ q hqp)]
    · rw [hlen₃, hlen₂, hlen₁, if_pos (show order - 1 ≤ ks.length from hfull)]
      omega
    · rw [hnext₃, hnext₂, if_pos (show order - 1 ≤ ks.length from hfull)]
      show t₁.nextPageId + 1 = _
      rw [hnext₁]
      omega
  · have hfits : (internal ⟨p, K, C.map page⟩).Fits := by
      refine .internal ?_ hsmallK ?_ hpagesC
      · show K.length < order
        simp only [order] at hfull ⊢
        omega
      · show (C.map page).length = K.length + 1
        rw [length_map, hlenC]
    obtain ⟨t₂, nodes₂, hwrite₂, hb₂, hnext₂, hlen₂, hnew₂, hother₂⟩ :=
      hb.overwrite p hfits rfl hpn₁
    have hout : t₁.internalAbsorbSplit ⟨p, ks, cs.map page⟩ (partitionPoint ks key) m
        right.page = .ok (none, t₂) := by
      simp only [internalAbsorbSplit, if_neg hfull, hall, hwrite₂, ok_bind]
    rw [hout]
    refine ⟨none, t₂, nodes₂, [], [node p K C], rfl, .whole _ rfl, hcsOrd,
      fun k hk => absurd hk not_mem_nil, ?_, hb₂, ?_, ?_, (decide_eq_false hfull).symm⟩
    · rw [hlen₂]
      exact hcs.node hf (look_of_getElem? hnew₂) fun q hq => look_congr (hother₂ q hq)
    · rw [hlen₂, hlen₁, if_neg hfull]
    · rw [hnext₂, hnext₁, if_neg hfull]

/-! ## The descent -/

/-- An insertion below a tree replaces it by one tree or, if it is split, by two. -/
theorem insertRecursive_spec (key value : Bytes) (hsmall : SmallEntry (key, value)) : ∀ {h : Nat}
    {tree : Tree Bytes Bytes h} {next : Option Nat} {lo hi : Bound Bytes} {t : BTree}
    {nodes : List Node} {count : Nat} {split : Bool} (fuel : Nat), Backed t nodes →
      Forest (look nodes) nodes.length [tree] next → tree.Within lo hi → lo ≤ bound key →
        bound key < hi → (∀ q, next = some q → IsLeaf (look nodes) q) → h < fuel →
          splits t.file key fuel tree.page = (count, split) →
            (count ≠ 0 → t.nextPageId = nodes.length) → nodes.length + count < 2 ^ 32 →
              InsertSpec t nodes key value (BTree.insertRecursive key value fuel t tree.page) tree
                next lo hi count split := by
  intro h
  induction h with
  | zero =>
    intro tree next lo hi t nodes count split fuel hb hf hw hlo hhi hnext hfuel hsplits hids hroom
    obtain ⟨fuel, rfl⟩ := Nat.exists_eq_succ_of_ne_zero (Nat.ne_of_gt hfuel)
    obtain ⟨p, es⟩ := tree
    have hlook : look nodes p = some (.leaf (es.map fst) (es.map snd) next) := by
      have hrep := hf.rep.1
      rwa [head?_nil, map_none, none_or] at hrep
    obtain ⟨nx, prev, hp, rfl⟩ := leafNode_of_look hb.stored hlook
    obtain ⟨c, hread, hb'⟩ := hb.readPage hp
    have hdecode := hb.stored.decode hp
    have hlenKeys : (es.map fst).length = es.length := length_map _
    change splits t.file key (fuel + 1) p = _ at hsplits
    simp only [splits, hdecode, leafNode, hlenKeys] at hsplits
    have hspec := leafInsert_spec hb' hp hf hw hlo hhi hsmall hnext hsplits hids hroom
    show InsertSpec t nodes key value (insertRecursive key value (fuel + 1) t p) _ _ lo hi
      count split
    rw [insertRecursive, hread, ok_bind]
    exact hspec
  | succ h ih =>
    intro tree next lo hi t nodes count split fuel hb hf hw hlo hhi hnext hfuel hsplits hids hroom
    obtain ⟨fuel, rfl⟩ := Nat.exists_eq_succ_of_ne_zero (Nat.ne_of_gt (Nat.zero_lt_of_lt hfuel))
    obtain ⟨p, ks, cs⟩ := tree
    obtain ⟨A, c, B, KA, KB, l, u, f⟩ := Ordered.focus (fun _ _ _ => Within.le) hw hlo hhi
    have hp := internal_of_look hb.stored hf.children.1
    have hfits := hb.stored.fits _ (mem_of_getElem? hp)
    obtain ⟨cache, hread, hb'⟩ := hb.readPage hp
    have hchild : (cs.map page)[partitionPoint ks key]? = some c.page := f.child_page
    change splits t.file key (fuel + 1) p = _ at hsplits
    simp only [splits, hb.stored.decode hp, hchild] at hsplits
    cases hsub : splits t.file key fuel c.page with
    | mk k s =>
      rw [hsub] at hsplits
      have hk : k ≤ count := by
        dsimp only at hsplits
        split at hsplits
        · cases hsplits
          exact Nat.le_succ k
        · cases hsplits
          exact le_rfl
      obtain ⟨r, t₁, nodes₁, seps, ts, hrec, hresult, hord, hseps, hr, hb₁, hlen₁, hnext₁, hs⟩ :=
        ih fuel hb' (f.forest hf) f.child f.le_key f.key_lt (f.isLeaf_next hf hnext)
          (Nat.lt_of_succ_lt_succ hfuel) hsub (fun hne => hids (by omega)) (by omega)
      show InsertSpec t nodes key value (insertRecursive key value (fuel + 1) t p) _ next
        lo hi count split
      rw [insertRecursive, hread, ok_bind]
      simp only [index_eq_ok hchild, ok_bind, hrec]
      cases hresult with
      | whole c' hpage =>
        obtain ⟨hnodeR, hnodeW⟩ := f.whole hf (local_insertList key value) hr hord hpage
        rw [← hs] at hsplits
        dsimp only at hsplits
        rw [if_neg (by simp)] at hsplits
        cases hsplits
        exact ⟨none, t₁, nodes₁, [], [node p ks (A ++ [c'] ++ B)], rfl, .whole _ rfl,
          hnodeW, hseps, hnodeR, hb₁, hlen₁, hnext₁, rfl⟩
      | split m left right hpage =>
        rw [← hs] at hsplits
        dsimp only [isSome] at hsplits
        have hcount : (if order - 1 ≤ ks.length then k + 1 else k) = count ∧
            decide (order - 1 ≤ ks.length) = split := by
          by_cases hfull : order - 1 ≤ ks.length
          · rw [if_pos ⟨rfl, hfull⟩] at hsplits
            cases hsplits
            exact ⟨if_pos hfull, decide_eq_true hfull⟩
          · rw [if_neg fun h => hfull h.2] at hsplits
            cases hsplits
            exact ⟨if_neg hfull, decide_eq_false hfull⟩
        obtain ⟨hcount, hsplit⟩ := hcount
        rw [← hcount, ← hsplit]
        refine internalAbsorbSplit_spec f hf hfits hb₁ hr hord hpage
          (hseps m mem_cons_self) hlen₁ hnext₁ (by omega) fun hfull => ?_
        rw [if_pos hfull] at hcount
        refine ⟨?_, by omega⟩
        rw [hnext₁, hlen₁]
        exact congrArg (· + k) (hids (by omega))

end Insert

end SystemDesignLabs.BTreeKv.Paged
