import SystemDesignLabs.BTreeKv.PagedSteps

/-!
# The B+ tree on disk and a sorted map

`Holds t m` says that the pages hold a tree with the entries of the map `m`. Every operation keeps it
and answers as the map does (`Holds.step`), an insertion under the condition that the pages it
allocates have ids (`BTree.IdsSuffice`). The condition fails at the first split in the session that
creates the file: `BTree::open` has left `next_page_id` at 0, so the right half is written over the
root (`firstSplit_loses`).
-/

namespace SystemDesignLabs.BTreeKv.Paged

open Option List Core BPlusTree SortedList BTree Prod

/-! ## Reading -/

section Reading

variable {t : BTree} {nodes : List Node}

theorem findLeaf_spec (hb : Backed t nodes) {fuel p q : Nat} {key : Bytes}
    (h : descend (look nodes) fuel p key = some q) :
    ∃ c, BTree.findLeaf fuel t p key = .ok (q, { t with cache := c }) ∧
      Backed { t with cache := c } nodes := by
  induction fuel generalizing t p with
  | zero => exact absurd h (by simp [descend])
  | succ fuel ih =>
    rw [descend] at h
    cases hp : look nodes p with
    | none =>
      rw [hp] at h
      exact absurd h (by simp)
    | some s =>
      rw [hp] at h
      cases s with
      | leaf ks vs next =>
        obtain ⟨nx, prev, hnode, -⟩ := leaf_of_look hb.stored hp
        obtain ⟨c, hread, hb'⟩ := hb.readPage hnode
        cases h
        refine ⟨c, ?_, hb'⟩
        rw [findLeaf, hread, ok_bind]
      | internal ks cs =>
        have hnode := internal_of_look hb.stored hp
        obtain ⟨c, hread, hb'⟩ := hb.readPage hnode
        obtain ⟨child, hchild, hrest⟩ := bind_eq_some_iff.1 h
        obtain ⟨c', hfound, hb''⟩ := ih hb' hrest
        refine ⟨c', ?_, hb''⟩
        rw [findLeaf, hread, ok_bind]
        simp only [index_eq_ok hchild, ok_bind]
        exact hfound

theorem rangeLoop_spec (hb : Backed t nodes) {start stop : Bytes} {fuel p : Nat}
    {found : List (Bytes × Bytes)} (h : scanLeaves (look nodes) start stop fuel p = some found) :
    ∃ c, BTree.rangeLoop start stop fuel t p = .ok (found, { t with cache := c }) ∧
      Backed { t with cache := c } nodes := by
  induction fuel generalizing t p found with
  | zero => exact absurd h (by simp [scanLeaves])
  | succ fuel ih =>
    rw [scanLeaves] at h
    cases hp : look nodes p with
    | none =>
      rw [hp] at h
      exact absurd h (by simp)
    | some s =>
      rw [hp] at h
      cases s with
      | internal ks cs => exact absurd h (by simp)
      | leaf ks vs next =>
        obtain ⟨nx, prev, hnode, rfl⟩ := leaf_of_look hb.stored hp
        obtain ⟨c, hread, hb'⟩ := hb.readPage hnode
        obtain ⟨⟨l, past⟩, hscan, hrest⟩ := bind_eq_some_iff.1 h
        rw [rangeLoop, hread, ok_bind]
        simp only [asLeaf, ok_bind, hscan]
        cases past with
        | true =>
          cases hrest
          exact ⟨c, rfl, hb'⟩
        | false =>
          simp only [Bool.false_eq_true, if_false] at hrest ⊢
          by_cases hnull : nx = nullPage
          · rw [link, if_pos hnull] at hrest
            cases hrest
            rw [if_pos hnull]
            exact ⟨c, rfl, hb'⟩
          · rw [link, if_neg hnull] at hrest
            obtain ⟨rest, hloop, hfound⟩ := bind_eq_some_iff.1 hrest
            cases hfound
            obtain ⟨c', hloop', hb''⟩ := ih hb' hloop
            rw [if_neg hnull, hloop', ok_bind]
            exact ⟨c', rfl, hb''⟩

end Reading

/-! ## The tree and the map -/

/-- The pages hold a tree with the entries of the map, the root in page 0. Unless it is 0,
`next_page_id` is the number of pages. -/
def Holds (t : BTree) (m : SortedMap Bytes Bytes) : Prop :=
  ∃ (nodes : List Node) (h : Nat) (tree : Tree Bytes Bytes h), Backed t nodes ∧
    Forest (look nodes) nodes.length [tree] none ∧ tree.Within ⊥ ⊤ ∧ tree.page = rootPage ∧
      tree.entries = m.entries ∧ (t.nextPageId ≠ 0 → t.nextPageId = nodes.length) ∧
        nodes.length < 2 ^ 32

/-- The leaf that a key belongs to: its place among the leaves and what the search returns. -/
structure AtLeaf (nodes : List Node) (m : SortedMap Bytes Bytes) (key : Bytes) (p : Nat)
    (es : List (Bytes × Bytes)) (pre post : List (Nat × List (Bytes × Bytes))) : Prop where
  found : descend (look nodes) nodes.length rootPage key = some p
  chain : Chained (LeafAt (look nodes)) Prod.fst ((p, es) :: post) none
  entries : (pre ++ (p, es) :: post).flatMap Prod.snd = m.entries
  before : ∀ e ∈ pre.flatMap Prod.snd, e.1 < key
  after : ∀ e ∈ post.flatMap Prod.snd, key < e.1
  length_lt : post.length < nodes.length

section AtLeaf

variable {nodes : List Node} {m : SortedMap Bytes Bytes} {key : Bytes} {p : Nat}
  {es : List (Bytes × Bytes)} {pre post : List (Nat × List (Bytes × Bytes))}

section

variable (a : AtLeaf nodes m key p es pre post)
include a

theorem AtLeaf.get_eq : m.get key = find es key := by
  rw [SortedMap.get, ← a.entries, find_leaves a.before a.after]

theorem AtLeaf.sorted : Sorted es := by
  have hs : Sorted ((pre ++ (p, es) :: post).flatMap snd) := a.entries ▸ m.sorted
  rw [flatMap_append, flatMap_cons] at hs
  exact (pairwise_append.1 (pairwise_append.1 hs).2.1).1

theorem AtLeaf.node {file : List Page}
    (hs : Stored file nodes) : ∃ nx prev, nodes[p]? = some (.leaf (leafNode p es nx prev)) := by
  obtain ⟨nx, prev, hnode, -⟩ :=
    leafNode_of_look (t := ⟨file, .new 0, 0, []⟩) hs a.chain.1
  exact ⟨nx, prev, hnode⟩

theorem AtLeaf.isLeaf_next {nx prev : Nat}
    (hnode : nodes[p]? = some (.leaf (leafNode p es nx prev))) (hnull : nx ≠ nullPage) :
    IsLeaf (look nodes) nx := by
  have hnext := a.chain.1
  rw [LeafAt, look_of_getElem? hnode, shape_leafNode, link, if_neg hnull] at hnext
  simp only [some.injEq, Shape.leaf.injEq, true_and] at hnext
  cases hpost : post with
  | nil =>
    rw [hpost] at hnext
    exact absurd hnext (by simp)
  | cons l rest =>
    have hchain := a.chain.2
    rw [hpost] at hnext hchain
    have hl : nx = l.1 := some.inj hnext
    exact hl ▸ ⟨_, _, _, hchain.1⟩

end

end AtLeaf

section Whole

variable {t : BTree} {m : SortedMap Bytes Bytes}

variable {nodes : List Node}

theorem exists_atLeaf {h : Nat} {tree : Tree Bytes Bytes h}
    (hf : Forest (look nodes) nodes.length [tree] none) (hw : tree.Within ⊥ ⊤) (hpage : tree.page = rootPage)
    (hentries : tree.entries = m.entries) (key : Bytes) :
    ∃ p es pre post, AtLeaf nodes m key p es pre post ∧ (p, es) ∈ tree.leaves := by
  obtain ⟨pre, l, post, hleaves, hfound, hpre, hpost⟩ := descend_spec nodes.length hf hw
    (bot_le_bound key) (bound_lt_top key) (hf.height_lt hw)
  have hchain := hf.rep.1.chain hw
  rw [hleaves, Chained.append] at hchain
  have hcount := hf.length_leaves
  rw [hleaves, length_append, length_cons] at hcount
  refine ⟨l.1, l.2, pre, post, ⟨hpage ▸ hfound, hchain.2, ?_, hpre, hpost, by omega⟩, ?_⟩
  · rw [← hentries, ← tree.leaves_entries, hleaves]
  · rw [hleaves]
    exact mem_append_right _ mem_cons_self

theorem Holds.get (hm : Holds t m) (key : Bytes) :
    ∃ t', t.get key = .ok (m.get key, t') ∧ Holds t' m := by
  obtain ⟨nodes, h, tree, hb, hf, hw, hpage, hentries, hids, hroom⟩ := hm
  obtain ⟨p, es, pre, post, a, -⟩ := exists_atLeaf hf hw hpage hentries key
  obtain ⟨nx, prev, hnode⟩ := a.node hb.stored
  obtain ⟨c, hfound, hb₁⟩ := findLeaf_spec hb a.found
  obtain ⟨c', hread, hb₂⟩ := hb₁.readPage hnode
  have hs := a.sorted
  have hanswer := a.get_eq
  refine ⟨{ t with cache := c' }, ?_, nodes, h, tree, hb₂, hf, hw, hpage, hentries, hids, hroom⟩
  rw [BTree.get, hb.length_file, hfound, ok_bind]
  simp only [hread, ok_bind, asLeaf, leafNode]
  cases hsearch : binarySearch (es.map fst) key with
  | none =>
    rw [hanswer, find_eq_none.2 (binarySearch_eq_none hsearch)]
  | some pos =>
    obtain ⟨A, v, B, rfl, hlen⟩ := binarySearch_eq_some hsearch
    have hvalue : ((A ++ (key, v) :: B).map snd)[pos]? = some v := by
      rw [← hlen]
      simp
    simp only [index_eq_ok hvalue, ok_bind]
    rw [hanswer, find_around hs]

theorem Holds.range (hm : Holds t m) (start stop : Bytes) :
    ∃ t', t.range start stop = .ok (m.entries.filter (inRange start stop), t') ∧ Holds t' m := by
  obtain ⟨nodes, h, tree, hb, hf, hw, hpage, hentries, hids, hroom⟩ := hm
  obtain ⟨p, es, pre, post, a, -⟩ := exists_atLeaf hf hw hpage hentries start
  obtain ⟨c, hfound, hb₁⟩ := findLeaf_spec hb a.found
  have hflat := a.entries
  have hs : Sorted ((pre ++ (p, es) :: post).flatMap snd) := hflat ▸ m.sorted
  rw [flatMap_append] at hs hflat
  have hscan := scanLeaves_spec start stop a.chain (pairwise_append.1 hs).2.1 a.length_lt
  obtain ⟨c', hloop, hb₂⟩ := rangeLoop_spec hb₁ hscan
  have hnone : (pre.flatMap snd).filter (inRange start stop) = [] := by
    rw [filter_eq_nil_iff]
    intro e he hin
    simp only [inRange, Bool.and_eq_true, decide_eq_true_eq] at hin
    exact absurd (a.before e he) (not_lt.2 hin.1)
  refine ⟨{ t with cache := c' }, ?_, nodes, h, tree, hb₂, hf, hw, hpage, hentries, hids, hroom⟩
  rw [BTree.range, hb.length_file, hfound, ok_bind]
  rw [← hflat, filter_append, hnone, nil_append, ← hloop]
  show rangeLoop start stop t.file.length _ p = _
  rw [hb.length_file]

/-- A deletion removes from the map. -/
theorem Holds.delete (hm : Holds t m) (key : Bytes) :
    ∃ t', t.delete key = .ok ((m.get key).isSome, t') ∧ Holds t' (m.erase key) := by
  obtain ⟨nodes, h, tree, hb, hf, hw, hpage, hentries, hids, hroom⟩ := hm
  obtain ⟨p, es, pre, post, a, -⟩ := exists_atLeaf hf hw hpage hentries key
  obtain ⟨nx, prev, hnode⟩ := a.node hb.stored
  obtain ⟨c, hfound, hb₁⟩ := findLeaf_spec hb a.found
  obtain ⟨c', hread, hb₂⟩ := hb₁.readPage hnode
  have hs := a.sorted
  have hanswer := a.get_eq
  rw [BTree.delete, hb.length_file, hfound, ok_bind]
  simp only [hread, ok_bind, asLeaf]
  cases hsearch : binarySearch (es.map fst) key with
  | none =>
    have hnone : m.get key = none := by
      rw [hanswer, find_eq_none.2 (binarySearch_eq_none hsearch)]
    have herase : m.erase key = m := by
      apply SortedMap.ext_get
      intro k
      rw [SortedMap.get_erase]
      split
      case isTrue heq => rw [heq, hnone]
      case isFalse => rfl
    have hsearch' : binarySearch (leafNode p es nx prev).keys key = none := hsearch
    simp only [hsearch', hnone, herase]
    exact ⟨_, rfl, nodes, h, tree, hb₂, hf, hw, hpage, hentries, hids, hroom⟩
  | some pos =>
    have hsearch' : binarySearch (leafNode p es nx prev).keys key = some pos := hsearch
    obtain ⟨A, v, B, hes, hlen⟩ := binarySearch_eq_some hsearch
    have hsome : m.get key = some v := by
      rw [hes] at hs hanswer
      rw [hanswer, find_around hs]
    -- the leaf without the pair
    have herased : (⟨p, (es.map fst).eraseIdx pos, (es.map snd).eraseIdx pos, nx,
        prev⟩ : LeafNode) = leafNode p (eraseList key es) nx prev := by
      rw [hes] at hs ⊢
      rw [eraseList_of_mem hs, leafNode, ← hlen]
      congr 1
      · rw [map_append, map_append, eraseIdx_append_of_length_le (by simp)]
        simp
      · rw [map_append, map_append, eraseIdx_append_of_length_le (by simp)]
        simp
    obtain ⟨hlenEs, hsmall, hnx, hprev⟩ :=
      fits_leafNode.1 (hb.stored.fits _ (mem_of_getElem? hnode))
    have hfits : (Node.leaf (leafNode p (eraseList key es) nx prev)).Fits :=
      fits_leafNode.2 ⟨lt_of_le_of_lt (length_filter_le _ _) hlenEs,
        fun e he => hsmall e (mem_of_mem_filter he), hnx, hprev⟩
    obtain ⟨t₁, nodes₁, hwrite, hb₃, hnext₁, hlen₁, hnew₁, hother₁⟩ :=
      hb₂.overwrite p hfits rfl (List.getElem?_eq_some_iff.1 hnode).1
    obtain ⟨tree', hpage', hw', hr⟩ := Replaced.atLeaf (local_eraseList key)
      (fun lo hi q es' hes' => hes'.eraseLeaf) (fun es' next hes' => by
        have hleaf := look_of_getElem? hnode
        rw [hes', shape_leafNode] at hleaf
        simp only [some.injEq, Shape.leaf.injEq] at hleaf
        rw [look_of_getElem? hnew₁, shape_leafNode, zip_of_prod hleaf.1 hleaf.2.1,
          ← @zip_of_prod _ _ _ _ es rfl rfl, hleaf.2.2])
      (fun q _ hq => look_congr (hother₁ q hq)) nodes.length hf hw (bot_le_bound key)
      (bound_lt_top key) (hpage.symm ▸ a.found)
    have hforest := hr.forest
    have hflat := hr.entries
    rw [← hlen₁] at hforest
    rw [flatMap_singleton, flatMap_singleton, hentries] at hflat
    simp only [hsearch', hsome]
    refine ⟨t₁, ?_, nodes₁, h, tree', hb₃, hforest, hw', hpage'.trans hpage, hflat, ?_,
      hlen₁ ▸ hroom⟩
    · rw [← herased] at hwrite
      simp only [leafNode, hwrite, ok_bind]
      rfl
    · rw [hnext₁, hlen₁]
      exact hids

theorem moveRoot_spec (hb : Backed t nodes) {node : Node} {id : Nat} (hfits : node.Fits) (hid : id < 2 ^ 32)
    (hleaf : ∀ n, node = .leaf n → n.next ≠ nullPage → IsLeaf (look nodes) n.next) :
    ∃ moved t' nodes', t.moveRoot node id = .ok (moved, t') ∧ Backed t' nodes' ∧
      t'.nextPageId = t.nextPageId ∧ nodes'.length = nodes.length ∧ look nodes' = look nodes ∧
        moved.pageId = id ∧ moved.shape = node.shape ∧ moved.Fits := by
  cases hfits with
  | @internal n hlen hkeys hlenC hchildren =>
    exact ⟨_, t, nodes, rfl, hb, rfl, rfl, rfl, rfl, rfl,
      .internal hlen hkeys hlenC hchildren⟩
  | @leaf n hlen hkeys hlenV hvalues hnext hprev =>
    obtain ⟨t', nodes', hset, hb', hnext', hlen', hlook⟩ := setPrev_spec hb hid (hleaf n rfl)
    refine ⟨.leaf { n with pageId := id }, t', nodes', ?_, hb', hnext', hlen', hlook, rfl, rfl,
      .leaf hlen hkeys hlenV hvalues hnext hprev⟩
    rw [moveRoot]
    simp only [hset, ok_bind]

theorem rootSplit_spec (hb : Backed t nodes) {h : Nat} {left right : Tree Bytes Bytes h} {mid : Bytes}
    (hf : Forest (look nodes) nodes.length [left, right] none)
    (hord : Ordered (Tree.Within (h := h)) ⊥ [mid] [left, right] ⊤) (hleft : left.page = rootPage)
    (hmid : mid.length ≤ keyMax) (hnext : t.nextPageId = nodes.length) (hroom : nodes.length + 1 < 2 ^ 32)
    (hentries : [left, right].flatMap Tree.entries = m.entries) : ∃ t', (do
      let (oldRootNode, t) ← t.readPage rootPage
      let (oldRootPageId, t) ← t.allocatePage
      let (movedOldRoot, t) ← t.moveRoot oldRootNode oldRootPageId
      let t ← t.writePage movedOldRoot
      t.writePage (.internal ⟨rootPage, [mid], [oldRootPageId, right.page]⟩)) = Except.ok t' ∧
        Holds t' m := by
  have hpos : 0 < nodes.length := by
    refine hf.lt 0 (mem_flatMap.2 ⟨left, mem_cons_self, ?_⟩)
    rw [Tree.pages_eq, hleft]
    exact mem_cons_self
  have hroot : nodes[0]? = some nodes[0] := getElem?_eq_getElem hpos
  obtain ⟨c, hread, hb₁⟩ := hb.readPage hroot
  have halloc : allocatePage { t with cache := c } =
      .ok (nodes.length, { t with cache := c, nextPageId := t.nextPageId + 1 }) := by
    rw [allocatePage]
    simp only [hnext, if_pos hroom]
  -- the successor of the left half, when it is a leaf, is the first leaf of the right half
  have hleaf : ∀ n, nodes[0] = .leaf n → n.next ≠ nullPage → IsLeaf (look nodes) n.next := by
    intro n hn hnull
    have hlook : look nodes 0 = some (.leaf n.keys n.values (link n.next)) := by
      rw [look_of_getElem? hroot, hn]
      rfl
    obtain ⟨hrepL, hrepR, -⟩ := hf.rep
    have hright : IsLeaf (look nodes) right.firstLeaf := by
      obtain ⟨-, hwR⟩ := hord
      have hwR' : right.Within (bound mid) ⊤ := hwR
      exact hwR'.isLeaf_firstLeaf hrepR
    cases h with
    | zero =>
      obtain ⟨p, es⟩ := left
      have hp : p = 0 := hleft
      have hrep : look nodes p = some (.leaf _ _ (some right.firstLeaf)) := hrepL
      rw [hp, hlook] at hrep
      simp only [some.injEq, Shape.leaf.injEq] at hrep
      rw [(link_eq_some.1 hrep.2.2).2]
      exact hright
    | succ h =>
      obtain ⟨p, ks, cs⟩ := left
      have hp : p = 0 := hleft
      have hrep : look nodes p = some (.internal ks (cs.map Tree.page)) := hrepL.1
      rw [hp, hlook] at hrep
      exact absurd hrep (by simp)
  obtain ⟨moved, t₂, nodes₂, hmove, hb₂, hnext₂, hlen₂, hlook₂, hid, hshape, hfits⟩ :=
    moveRoot_spec (hb₁.nextPageId (t.nextPageId + 1))
      (hb.stored.fits _ (mem_of_getElem? hroot)) (Nat.lt_of_succ_lt hroom) hleaf
  obtain ⟨t₃, nodes₃, hwrite₃, hb₃, hnext₃, hlen₃, hnew₃, hother₃⟩ :=
    hb₂.append nodes.length hfits hid hlen₂.symm
  have hpages := page_lt hf
  have hfitsRoot : (Node.internal ⟨rootPage, [mid], [nodes.length, right.page]⟩).Fits := by
    refine .internal (show 1 < 16 by decide) (fun k hk => ?_) rfl fun q hq => ?_
    · rw [mem_singleton.1 hk]
      exact hmid
    · rcases mem_cons.1 hq with rfl | hq
      · exact Nat.lt_of_succ_lt hroom
      · rw [mem_singleton.1 hq]
        have := hpages right.page (by simp)
        omega
  obtain ⟨t₄, nodes₄, hwrite₄, hb₄, hnext₄, hlen₄, hnew₄, hother₄⟩ :=
    hb₃.overwrite rootPage hfitsRoot rfl (by rw [hlen₃]; exact Nat.succ_pos _)
  have hlen : nodes₄.length = nodes.length + 1 := by rw [hlen₄, hlen₃, hlen₂]
  have hne : nodes.length ≠ rootPage := Nat.ne_of_gt hpos
  have hwL : left.Within ⊥ (bound mid) := hord.1
  refine ⟨t₄, ?_, nodes₄, h + 1, BPlusTree.Tree.node rootPage [mid] [left.setPage nodes.length, right], hb₄,
    ?_, ⟨hwL.setPage _, hord.2⟩, rfl, ?_, fun _ => ?_, hlen ▸ hroom⟩
  · show (t.readPage 0 >>= fun _ => _) = _
    simp only [hread, ok_bind, halloc, hmove, hwrite₃, hwrite₄]
  · rw [hlen]
    refine hf.grow hleft (look_of_getElem? hnew₄) ?_ fun q hq hq0 => ?_
    · rw [look_congr (hother₄ _ hne), look_of_getElem? hnew₃, hshape]
      exact (look_of_getElem? hroot).symm
    · rw [look_congr (hother₄ q hq0), look_congr (hother₃ q (ne_of_lt hq)), hlook₂]
  · rw [← hentries]
    show [left.setPage nodes.length, right].flatMap Tree.entries = _
    rw [flatMap_cons, flatMap_singleton, flatMap_cons, flatMap_singleton,
      Tree.entries_setPage]
  · rw [hnext₄, hnext₃, hnext₂, hlen]
    exact congrArg Nat.succ hnext

/-- An insertion inserts into the map, when the pages it allocates have ids. -/
theorem Holds.insert (hm : Holds t m) {key value : Bytes} (hsmall : SmallEntry (key, value))
    (hsuffice : t.IdsSuffice key) :
    ∃ t', t.insert key value = .ok t' ∧ Holds t' (m.insert key value) := by
  obtain ⟨nodes, h, tree, hb, hf, hw, hpage, hentries, hids, hroom⟩ := hm
  cases hsplits : splits t.file key nodes.length rootPage with
  | mk count split =>
    have hnew : t.newPages key = if split then count + 1 else count := by
      rw [newPages, hb.length_file, hsplits]
    have hids' : t.newPages key ≠ 0 → t.nextPageId = nodes.length ∧
        nodes.length + t.newPages key < 2 ^ 32 := by
      intro hne
      obtain ⟨hnext, hlt⟩ := hsuffice.resolve_left hne
      have heq := hids hnext
      exact ⟨heq, heq ▸ hlt⟩
    have hcount : count ≤ t.newPages key := by
      rw [hnew]
      split <;> omega
    obtain ⟨r, t₁, nodes₁, seps, ts, hrec, hresult, hord, hseps, hr, hb₁, hlen₁, hnext₁, hs⟩ :=
      insertRecursive_spec key value hsmall nodes.length hb hf hw (bot_le_bound key)
        (bound_lt_top key) (fun q hq => absurd hq (by simp)) (hf.height_lt hw)
        (hpage.symm ▸ hsplits) (fun hne => (hids' (by omega)).1) (by
          by_cases hzero : t.newPages key = 0
          · omega
          · have := (hids' hzero).2
            omega)
    rw [hpage] at hrec
    have hflat := hr.entries
    rw [flatMap_singleton, hentries] at hflat
    rw [BTree.insert, hb.length_file, hrec, ok_bind]
    cases hresult with
    | whole tree' hpage' =>
      refine ⟨t₁, rfl, nodes₁, h, tree', hb₁, hr.forest, hord, hpage'.trans hpage, ?_, ?_, ?_⟩
      · rw [flatMap_singleton] at hflat
        exact hflat
      · intro hne
        rw [hnext₁, hlen₁]
        by_cases hzero : t.newPages key = 0
        · have hz : count = 0 := by omega
          rw [hz] at hnext₁ ⊢
          rw [hids (by rwa [hnext₁] at hne)]
        · rw [(hids' hzero).1]
      · by_cases hzero : t.newPages key = 0
        · omega
        · have := (hids' hzero).2
          omega
    | split mid left right hpage' =>
      have hsplit : split = true := hs.symm
      rw [hsplit, if_pos rfl] at hnew
      obtain ⟨hnextId, hlt⟩ := hids' (by omega)
      exact rootSplit_spec hb₁ hr.forest hord (hpage'.trans hpage) (hseps mid mem_cons_self)
        (by omega) (by omega) hflat

theorem Holds.openFile (hm : Holds t m) (capacity : Nat) :
    ∃ t', BTree.openFile capacity t.file = .ok t' ∧ Holds t' m ∧ t'.nextPageId ≠ 0 := by
  obtain ⟨nodes, h, tree, hb, hf, hw, hpage, hentries, -, hroom⟩ := hm
  have hpos : nodes.length ≠ 0 := by
    have hlt := page_lt hf tree.page (by simp)
    omega
  have hnext : t.file.length % 2 ^ 32 = nodes.length := by
    rw [hb.length_file, Nat.mod_eq_of_lt hroom]
  refine ⟨⟨t.file, .new capacity, nodes.length, []⟩, ?_, ⟨nodes, h, tree,
    hb.stored.backed capacity _ _, hf, hw, hpage, hentries, fun _ => rfl, hroom⟩, hpos⟩
  rw [BTree.openFile]
  simp only [hnext, if_neg hpos]

theorem holds_openFile_nil (capacity : Nat) :
    ∃ t, BTree.openFile capacity [] = .ok t ∧ Holds t SortedMap.empty := by
  have hempty : Stored [] [] :=
    ⟨rfl, fun n hn => absurd hn not_mem_nil, fun p n hp => absurd hp (by simp)⟩
  have hfits : (Node.leaf (leafNode 0 [] nullPage nullPage)).Fits :=
    fits_leafNode.2 ⟨by decide, fun e he => absurd he not_mem_nil, by decide, by decide⟩
  obtain ⟨t, nodes, hwrite, hb, hnext, hlen, hnew, -⟩ :=
    (hempty.backed capacity 0 []).append 0 hfits rfl rfl
  refine ⟨t, hwrite, nodes, 0, Tree.leaf 0 [], hb, ⟨⟨look_of_getElem? hnew, trivial⟩,
    nodup_singleton 0, fun p hp => ?_⟩, ⟨bot_le, Pairwise.nil,
    fun _ he => absurd he not_mem_nil⟩, rfl, rfl, fun hne => absurd hnext hne, ?_⟩
  · have hp' : p ∈ [0] := hp
    rw [mem_singleton.1 hp', hlen]
    exact Nat.one_pos
  · rw [hlen]
    decide

end Whole

/-! ## Runs -/

/-- An inserted pair fits its slots. -/
def Op.Small : Op → Prop
  | .insert key value => SmallEntry (key, value)
  | _ => True

instance : (op : Op) → Decidable op.Small
  | .insert _ _ => inferInstanceAs (Decidable (_ ∧ _))
  | .delete _ | .get _ | .range _ _ | .reopen => isTrue trivial

/-- An insertion finds the page ids it needs. -/
def Op.Meets (t : BTree) : Op → Prop
  | .insert key _ => t.IdsSuffice key
  | _ => True

/-- Every insertion of a run finds the page ids it needs. -/
def RunMeets (capacity : Nat) : BTree → List Op → Prop
  | _, [] => True
  | t, op :: ops => op.Meets t ∧
      ∀ out t', step capacity t op = .ok (out, t') → RunMeets capacity t' ops

instance (t : BTree) : (op : Op) → Decidable (op.Meets t)
  | .insert key _ => inferInstanceAs (Decidable (t.IdsSuffice key))
  | .delete _ | .get _ | .range _ _ | .reopen => isTrue trivial

instance decidableRunMeets (capacity : Nat) : (t : BTree) → (ops : List Op) →
    Decidable (RunMeets capacity t ops)
  | _, [] => isTrue trivial
  | t, op :: ops =>
    match h : step capacity t op with
    | .ok (_, t') =>
      have := decidableRunMeets capacity t' ops
      decidable_of_iff (op.Meets t ∧ RunMeets capacity t' ops)
        ⟨fun hm => ⟨hm.1, fun _ _ hs => by rw [h] at hs; cases hs; exact hm.2⟩,
          fun hm => ⟨hm.1, hm.2 _ _ h⟩⟩
    | .error _ =>
      decidable_of_iff (op.Meets t)
        ⟨fun hm => ⟨hm, fun _ _ hs => by rw [h] at hs; cases hs⟩, And.left⟩

/-- What the map answers. -/
def answer (m : SortedMap Bytes Bytes) : Op → Output
  | .insert _ _ => .done
  | .delete key => .found (m.get key).isSome
  | .get key => .value (m.get key)
  | .range start stop => .pairs (m.entries.filter (inRange start stop))
  | .reopen => .done

/-- The map after an operation. -/
def apply (m : SortedMap Bytes Bytes) : Op → SortedMap Bytes Bytes
  | .insert key value => m.insert key value
  | .delete key => m.erase key
  | _ => m

def answers : SortedMap Bytes Bytes → List Op → List Output
  | _, [] => []
  | m, op :: ops => answer m op :: answers (apply m op) ops

variable {m : SortedMap Bytes Bytes}

/-- One operation answers as the map does and keeps the tree. -/
theorem Holds.step {t : BTree} (hm : Holds t m) (capacity : Nat) {op : Op} (hsmall : op.Small)
    (hmeets : op.Meets t) :
    ∃ t', Paged.step capacity t op = .ok (answer m op, t') ∧ Holds t' (apply m op) := by
  cases op with
  | insert key value =>
    obtain ⟨t', hinsert, hm'⟩ := hm.insert hsmall hmeets
    exact ⟨t', by rw [Paged.step, hinsert]; rfl, hm'⟩
  | delete key =>
    obtain ⟨t', hdelete, hm'⟩ := hm.delete key
    exact ⟨t', by rw [Paged.step, hdelete]; rfl, hm'⟩
  | get key =>
    obtain ⟨t', hget, hm'⟩ := hm.get key
    exact ⟨t', by rw [Paged.step, hget]; rfl, hm'⟩
  | range start stop =>
    obtain ⟨t', hrange, hm'⟩ := hm.range start stop
    exact ⟨t', by rw [Paged.step, hrange]; rfl, hm'⟩
  | reopen =>
    obtain ⟨t', hopen, hm', -⟩ := hm.openFile capacity
    exact ⟨t', by rw [Paged.step, hopen]; rfl, hm'⟩

theorem Holds.run {t : BTree} (hm : Holds t m) (capacity : Nat) {ops : List Op}
    (hsmall : ∀ op ∈ ops, op.Small) (hmeets : RunMeets capacity t ops) :
    ∃ t', Paged.run capacity t ops = .ok (answers m ops, t') := by
  induction ops generalizing t m with
  | nil => exact ⟨t, rfl⟩
  | cons op ops ih =>
    rw [forall_mem_cons] at hsmall
    obtain ⟨t₁, hstep, hm₁⟩ := hm.step capacity hsmall.1 hmeets.1
    obtain ⟨t', hrun⟩ := ih hm₁ hsmall.2 (hmeets.2 _ _ hstep)
    refine ⟨t', ?_⟩
    rw [Paged.run, hstep, ok_bind]
    simp only [hrun, ok_bind]
    rfl

/-- **The tree on disk refines a sorted map**, for any cache, in every run whose insertions find the
page ids they need. -/
theorem disk_refines_map (capacity : Nat) {ops : List Op} (hsmall : ∀ op ∈ ops, op.Small) {t : BTree}
    (hopen : BTree.openFile capacity [] = .ok t) (hmeets : RunMeets capacity t ops) :
    ∃ t', run capacity t ops = .ok (answers SortedMap.empty ops, t') := by
  obtain ⟨t₀, hopen₀, hm⟩ := holds_openFile_nil capacity
  rw [hopen] at hopen₀
  cases hopen₀
  exact hm.run capacity hsmall hmeets

/-- A session that creates the file and one that reads it. -/
def twoSessions : List Op :=
  [.insert [98] [2], .insert [97] [1], .reopen, .delete [98], .get [97], .range [97] [98]]

theorem disk_refines_map_twoSessions : ∃ t t', BTree.openFile 1 [] = .ok t ∧
    run 1 t twoSessions = .ok (answers SortedMap.empty twoSessions, t') := by
  have hrun : (match openFile 1 [] with
    | .ok t => decide (RunMeets 1 t twoSessions)
    | .error _ => false) = true := by decide +kernel
  split at hrun
  case h_1 t hopen =>
    obtain ⟨t', hanswers⟩ := disk_refines_map 1 (by decide) hopen (of_decide_eq_true hrun)
    exact ⟨t, t', hopen, hanswers⟩
  case h_2 => exact absurd hrun Bool.false_ne_true

/-- Sixteen insertions into a new file. -/
def sixteenInserts : List Op := (List.range 16).map fun i => .insert [Fin.ofNat 256 i] [1]

/-- The first split in the session that creates the file loses the left half. -/
theorem firstSplit_loses : ∃ t t', BTree.openFile 64 [] = .ok t ∧
    run 64 t (sixteenInserts ++ [.get [0]]) =
      .ok (List.replicate 16 .done ++ [.value none], t') ∧
    answers SortedMap.empty (sixteenInserts ++ [.get [0]]) =
      List.replicate 16 .done ++ [.value (some [1])] := by
  have hrun : (match openFile 64 [] with
    | .ok t =>
      match run 64 t (sixteenInserts ++ [.get [0]]) with
      | .ok (outs, _) => decide (outs = replicate 16 .done ++ [.value none])
      | .error _ => false
    | .error _ => false) = true := by rfl
  split at hrun
  case h_1 t hopen =>
    split at hrun
    case h_1 outs t' hout =>
      refine ⟨t, t', hopen, ?_, by rfl⟩
      rw [hout, of_decide_eq_true hrun]
    case h_2 => exact absurd hrun Bool.false_ne_true
  case h_2 => exact absurd hrun Bool.false_ne_true

end SystemDesignLabs.BTreeKv.Paged
