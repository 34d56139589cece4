import SystemDesignLabs.BTreeKv.Memory

/-!
# The B+ tree in memory refines a sorted map

Every step of an insertion is an update of the tree that the arena holds: the edit of a leaf
(`leafInsert_spec`), the edit of a node (`internalAbsorbSplit_spec`), the descent
(`insertRecursive_spec`) and the growth of the root (`Holds.insert`). `arena_refines_map` follows by induction
on the operations.
-/

namespace SystemDesignLabs.BTreeKv.Memory

open Option (bind_eq_bind bind_some some)

open List Core BPlusTree SortedList BTree Node BPlusTree.Tree

section Insert

variable {t : BTree} {key value : Bytes}

/-! ## Leaves -/

theorem look_setPrev {q : Nat} {n : LeafNode} (h : t.leafAt q = some n) (prev : Option Nat) :
    (t.setNode q (.leaf { n with prev := prev })).look = t.look := by
  have hlook := look_of_leafAt h
  funext p
  rw [look_setNode (lt_of_look hlook)]
  split
  case isTrue heq =>
    rw [heq, hlook]
    rfl
  case isFalse => rfl

variable {next : Option Nat} {es : List (Bytes × Bytes)}

theorem insertAt_spec (key value : Bytes) {p : Nat}
    (hp : t.look p = some (.leaf (es.map Prod.fst) (es.map Prod.snd) next)) (hs : Sorted es)
    (hne : ∀ e ∈ es, e.1 ≠ key) : ∃ t', t.insertAt p key value = some t' ∧
      t'.nodes.length = t.nodes.length ∧ t'.firstLeaf = t.firstLeaf ∧ ∀ q, t'.look q = if q = p then
          some (.leaf ((insertList key value es).map Prod.fst) ((insertList key value es).map Prod.snd)
            next) else t.look q := by
  obtain ⟨prev, hleaf⟩ := leafAt_of_look hp
  simp only [insertAt, hleaf, bind_eq_bind, bind_some]
  refine ⟨_, rfl, length_setNode _ _, rfl, fun q => ?_⟩
  rw [look_setNode (lt_of_look hp), insertList_of_not_mem value hs hne, map_insertIdx, map_insertIdx]
  rfl

theorem splitLeaf_spec {p : Nat} (hp : t.look p = some (.leaf (es.map Prod.fst) (es.map Prod.snd) next))
    (hfull : order - 1 ≤ es.length) (hnext : ∀ q, next = some q → IsLeaf t.look q) :
    ∃ L e R t', es = L ++ e :: R ∧ t.splitLeaf p = some (e.1, t.nodes.length, t') ∧
      t'.nodes.length = t.nodes.length + 1 ∧ t'.firstLeaf = t.firstLeaf ∧ ∀ q, t'.look q = if q = t.nodes.length then
            some (.leaf ((e :: R).map Prod.fst) ((e :: R).map Prod.snd) next)
          else if q = p then some (.leaf (L.map Prod.fst) (L.map Prod.snd) (some t.nodes.length)) else t.look q := by
  obtain ⟨prev, hleaf⟩ := leafAt_of_look hp
  have hplt := lt_of_look hp
  have hlt : order / 2 < es.length := lt_of_lt_of_le (by decide) hfull
  have hcut : es = es.take (order / 2) ++ es[order / 2] :: es.drop (order / 2 + 1) := by
    rw [← drop_eq_getElem_cons hlt, take_append_drop]
  have hdrop : es.drop (order / 2) = es[order / 2] :: es.drop (order / 2 + 1) :=
    drop_eq_getElem_cons hlt
  -- the arena with both halves
  generalize hleft : (leaf ⟨(es.map Prod.fst).take (order / 2),
    (es.map Prod.snd).take (order / 2), prev, some t.nodes.length⟩) = left
  generalize hright : (leaf ⟨(es.map Prod.fst).drop (order / 2),
    (es.map Prod.snd).drop (order / 2), some p, next⟩) = right
  have hlook : ∀ q, ((t.setNode p left).allocateNode right).2.look q =
      if q = t.nodes.length then some right.shape
      else if q = p then some left.shape else t.look q := by
    intro q
    rw [look_allocateNode, length_setNode, look_setNode hplt]
  have hprev : ∃ t', next.elim (some ((t.setNode p left).allocateNode right).2) (fun nextIdx => do
        let n ← ((t.setNode p left).allocateNode right).2.leafAt nextIdx
        some (((t.setNode p left).allocateNode right).2.setNode nextIdx
          (.leaf { n with prev := some t.nodes.length }))) = some t' ∧
      t'.look = ((t.setNode p left).allocateNode right).2.look ∧
      t'.nodes.length = t.nodes.length + 1 ∧ t'.firstLeaf = t.firstLeaf := by
    cases next with
    | none => exact ⟨_, rfl, rfl, by simp, rfl⟩
    | some q =>
      obtain ⟨ks, vs, nx, hq⟩ := hnext q rfl
      obtain ⟨ks', vs', nx', hq'⟩ : IsLeaf ((t.setNode p left).allocateNode right).2.look q := by
        have hqlt := lt_of_look hq
        by_cases heq : q = p
        · refine ⟨(es.map Prod.fst).take (order / 2), (es.map Prod.snd).take (order / 2), some t.nodes.length, ?_⟩
          rw [hlook, if_neg (ne_of_lt hqlt), if_pos heq, ← hleft]
          rfl
        · refine ⟨ks, vs, nx, ?_⟩
          rw [hlook, if_neg (ne_of_lt hqlt), if_neg heq, hq]
      obtain ⟨prev', hq''⟩ := leafAt_of_look hq'
      simp only [Option.elim_some, hq'', bind_eq_bind, bind_some]
      exact ⟨_, rfl, look_setPrev hq'' _, by simp, rfl⟩
  obtain ⟨t', ht', hlook', hlen', hfirst'⟩ := hprev
  refine ⟨es.take (order / 2), es[order / 2], es.drop (order / 2 + 1), t', hcut, ?_, hlen', hfirst', fun q => ?_⟩
  · have hhead : ((es.map Prod.fst).drop (order / 2)).head? = some es[order / 2].1 := by
      rw [← map_drop, hdrop]
      rfl
    simp only [splitLeaf, hleaf, bind_eq_bind, bind_some, hleft, hright]
    simp only [hhead, bind_some]
    cases next with
    | none =>
      cases ht'
      rfl
    | some q =>
      obtain ⟨n, hn, hset⟩ := Option.bind_eq_some_iff.1 ht'
      cases hset
      simp only [hn, bind_some]
  · rw [hlook', hlook, ← hleft, ← hright, shape, shape, ← map_take, ← map_take, ← map_drop, ← map_drop, hdrop]

/-- The result of an insertion below a tree: what takes its place, and what the caller is told. -/
def InsertSpec (t : BTree) (key value : Bytes) (result : Option (Option (Bytes × Nat) × BTree))
    {h : Nat} (tree : Tree Bytes Bytes h) (next : Option Nat) (lo hi : Bound Bytes) : Prop :=
  ∃ r t' seps ts, result = some (r, t') ∧ SplitResult tree r seps ts ∧
    Ordered (Tree.Within (h := h)) lo seps ts hi ∧
      Replaced t.look t.nodes.length t'.look t'.nodes.length (insertList key value) [tree] ts next ∧
        t'.firstLeaf = t.firstLeaf

theorem leafInsert_spec {p : Nat} {lo hi : Bound Bytes}
    (hf : Forest t.look t.nodes.length [Tree.leaf p es] next) (hw : Tree.Within lo hi (.leaf p es))
    (hlo : lo ≤ bound key) (hhi : bound key < hi) (hnext : ∀ q, next = some q → IsLeaf t.look q) :
    InsertSpec t key value (t.leafInsert p key value) (Tree.leaf p es) next lo hi := by
  have hp : t.look p = some (.leaf (es.map Prod.fst) (es.map Prod.snd) next) := by
    have hrep := hf.rep.1
    rwa [head?_nil, Option.map_none, Option.none_or] at hrep
  have hs := hw.2.1
  have hplt := lt_of_look hp
  have hins : Tree.Within lo hi (.leaf p (insertList key value es)) := hw.insertLeaf hlo hhi
  obtain ⟨prev, hleaf⟩ := leafAt_of_look hp
  cases hsearch : binarySearch (es.map Prod.fst) key with
  | some pos =>
    obtain ⟨A, v, B, rfl, hlen⟩ := binarySearch_eq_some hsearch
    have heq := insertList_of_mem value hs
    simp only [leafInsert, hleaf, bind_eq_bind, bind_some, hsearch]
    refine ⟨none, _, [], [Tree.leaf p (insertList key value (A ++ (key, v) :: B))], rfl, .whole _ rfl, hins, ?_, rfl⟩
    rw [length_setNode]
    refine Replaced.leaf hf rfl ?_ fun q _ hq => ?_
    · rw [look_setNode hplt, if_pos rfl, heq, ← hlen]
      simp [shape]
    · rw [look_setNode hplt, if_neg hq]
  | none =>
    have hne := binarySearch_eq_none hsearch
    by_cases hfull : order - 1 ≤ es.length
    · obtain ⟨L, e, R, t₁, rfl, hsplit, hlen₁, hfirst₁, hlook₁⟩ := splitLeaf_spec hp hfull hnext
      obtain ⟨hwL, hwR⟩ := hw.halves (q := p) (r := t.nodes.length)
      have hnp : p ≠ t.nodes.length := ne_of_lt hplt
      have hisFull : (leaf ⟨(L ++ e :: R).map Prod.fst, (L ++ e :: R).map Prod.snd, prev,
          next⟩).isFull = true := by
        simpa [isFull] using hfull
      simp only [leafInsert, hleaf, bind_eq_bind, bind_some, hsearch, hisFull, if_true, hsplit]
      by_cases hle : e.1 ≤ key
      · -- the new pair belongs to the right half
        have hright : t₁.look t.nodes.length =
            some (.leaf ((e :: R).map Prod.fst) ((e :: R).map Prod.snd) next) := by
          rw [hlook₁, if_pos rfl]
        obtain ⟨t₂, ht₂, hlen₂, hfirst₂, hlook₂⟩ := insertAt_spec key value hright hwR.2.1
          fun d hd => hne d (mem_append_right _ hd)
        have hsplitList : L ++ insertList key value (e :: R) =
            insertList key value (L ++ e :: R) := by
          refine (insertList_append_left value _ fun d hd => ?_).symm
          exact lt_of_lt_of_le (bound_lt_bound.1 (hwL.2.2 d hd).2) hle
        rw [if_pos hle, ht₂]
        refine ⟨some (e.1, t.nodes.length), t₂, [e.1], [Tree.leaf p L, Tree.leaf t.nodes.length (insertList key value (e
          :: R))], rfl, .split e.1 (Tree.leaf p L) (Tree.leaf t.nodes.length _) rfl, ⟨hwL, hwR.insertLeaf
          (bound_le_bound.2 hle) hhi⟩, ?_, hfirst₂.trans hfirst₁⟩
        rw [hlen₂, hlen₁]
        refine Replaced.leafSplit hf hsplitList ?_ ?_ fun q hq hqp => ?_
        · rw [hlook₂, if_neg hnp, hlook₁, if_neg hnp, if_pos rfl]
        · rw [hlook₂, if_pos rfl]
        · rw [hlook₂, if_neg (ne_of_lt hq), hlook₁, if_neg (ne_of_lt hq), if_neg hqp]
      · -- the new pair belongs to the left half
        have hgt := not_le.1 hle
        have hleft : t₁.look p =
            some (.leaf (L.map Prod.fst) (L.map Prod.snd) (some t.nodes.length)) := by
          rw [hlook₁, if_neg hnp, if_pos rfl]
        obtain ⟨t₂, ht₂, hlen₂, hfirst₂, hlook₂⟩ := insertAt_spec key value hleft hwL.2.1
          fun d hd => hne d (mem_append_left _ hd)
        have hsplitList : insertList key value L ++ e :: R =
            insertList key value (L ++ e :: R) := by
          refine (insertList_append_right value _ fun d hd => ?_).symm
          exact bound_lt_bound.1 (lt_of_lt_of_le (bound_lt_bound.2 hgt) (hwR.2.2 d hd).1)
        rw [if_neg hle, ht₂]
        refine ⟨some (e.1, t.nodes.length), t₂, [e.1], [Tree.leaf p (insertList key value L), Tree.leaf t.nodes.length
          (e :: R)], rfl, .split e.1 (Tree.leaf p _) (Tree.leaf t.nodes.length (e :: R)) rfl, ⟨hwL.insertLeaf hlo
          (bound_lt_bound.2 hgt), hwR⟩, ?_, hfirst₂.trans hfirst₁⟩
        rw [hlen₂, hlen₁]
        refine Replaced.leafSplit hf hsplitList ?_ ?_ fun q hq hqp => ?_
        · rw [hlook₂, if_pos rfl]
        · rw [hlook₂, if_neg hnp.symm, hlook₁, if_pos rfl]
        · rw [hlook₂, if_neg hqp, hlook₁, if_neg (ne_of_lt hq), if_neg hqp]
    · obtain ⟨t₁, ht₁, hlen₁, hfirst₁, hlook₁⟩ := insertAt_spec key value hp hs hne
      have hnotFull : (leaf ⟨es.map Prod.fst, es.map Prod.snd, prev, next⟩).isFull =
          false := by
        simpa [isFull] using hfull
      simp only [leafInsert, hleaf, bind_eq_bind, bind_some, hsearch, hnotFull, Bool.false_eq_true, if_false, ht₁]
      refine ⟨none, t₁, [], [Tree.leaf p (insertList key value es)], rfl, .whole _ rfl, hins, ?_, hfirst₁⟩
      rw [hlen₁]
      refine Replaced.leaf hf rfl ?_ fun q _ hq => ?_
      · rw [hlook₁, if_pos rfl]
      · rw [hlook₁, if_neg hq]

/-! ## Internal nodes -/

theorem internalAbsorbSplit_spec {t₁ : BTree} {h p : Nat} {ks KA KB : List Bytes}
    {cs A B : List (Tree Bytes Bytes h)} {c left right : Tree Bytes Bytes h} {lo hi l u : Bound Bytes}
    {m : Bytes} (f : Focus (Tree.Within (h := h)) lo hi ks cs key A c B KA KB l u)
    (hf : Forest t.look t.nodes.length [BPlusTree.Tree.node p ks cs] next)
    (hr : Replaced t.look t.nodes.length t₁.look t₁.nodes.length (insertList key value) [c] [left, right] ((B.head?.map Tree.firstLeaf).or next))
    (hord : Ordered (Tree.Within (h := h)) l [m] [left, right] u) (hpage : left.page = c.page)
    (hfirst : t₁.firstLeaf = t.firstLeaf) :
    InsertSpec t key value (t₁.internalAbsorbSplit p (partitionPoint ks key) m right.page)
      (BPlusTree.Tree.node p ks cs) next lo hi := by
  obtain ⟨hcs, hcsOrd⟩ := f.absorb hf (local_insertList key value) hr hord
  obtain ⟨hp, -, hpcs, hpn⟩ := hf.children
  obtain ⟨hkeys, hchildren⟩ := f.insertIdx m right hpage
  have hp₁ : t₁.look p = some (.internal ks (cs.map Tree.page)) := by
    rw [hcs.frame p hpn hpcs, hp]
  have hnode := internalAt_of_look hp₁
  have hplt := lt_of_look hp₁
  by_cases hfull : order - 1 ≤ ks.length
  · -- the node is split in the middle
    have hisFull : (internal ⟨ks, cs.map Tree.page⟩).isFull = true := by
      simpa [isFull] using hfull
    have hlenKeys : (KA ++ [m] ++ KB).length = ks.length + 1 := by
      rw [f.keys]
      simp
      omega
    generalize hK : KA ++ [m] ++ KB = K at *
    generalize hC : A ++ [left, right] ++ B = C at *
    have hmid : K.length / 2 < K.length := by omega
    have hm : K[K.length / 2]? = some K[K.length / 2] := getElem?_eq_getElem hmid
    have hlenC := Ordered.length hcsOrd
    have hCL : C.take (K.length / 2 + 1) ≠ [] := ne_nil_of_length_pos (by
      rw [length_take]; omega)
    have hCR : C.drop (K.length / 2 + 1) ≠ [] := ne_nil_of_length_pos (by
      rw [length_drop]; omega)
    rw [← take_append_drop (K.length / 2 + 1) C] at hcs
    simp only [internalAbsorbSplit, splitInternal, hnode, bind_eq_bind,
      bind_some, hisFull, if_true, hkeys, hchildren, hm]
    refine ⟨_, _, [K[K.length / 2]], [node p (K.take (K.length / 2)) (C.take (K.length / 2 + 1)),
      node t₁.nodes.length (K.drop (K.length / 2 + 1)) (C.drop (K.length / 2 + 1))], rfl, ?_,
      Ordered.halves hcsOrd hm, ?_, hfirst⟩
    · have hidx : ((t₁.setNode p (.internal ⟨K.take (K.length / 2), (C.map Tree.page).take (K.length / 2 +
          1)⟩)).allocateNode (.internal ⟨K.drop (K.length / 2 + 1), (C.map Tree.page).drop (K.length / 2 + 1)⟩)).1 =
            t₁.nodes.length := length_setNode _ _
      rw [hidx]
      exact .split _ (node p _ _) (node t₁.nodes.length _ _) rfl
    · rw [length_allocateNode, length_setNode]
      refine hcs.split hf hCL hCR ?_ ?_ fun q hqp hqn => ?_
      · rw [look_allocateNode, length_setNode, if_neg (ne_of_lt hplt), look_setNode hplt, if_pos rfl, map_take]
        rfl
      · rw [look_allocateNode, length_setNode, if_pos rfl, map_drop]
        rfl
      · rw [look_allocateNode, length_setNode, if_neg hqn, look_setNode hplt, if_neg hqp]
  · have hnotFull : (internal ⟨ks, cs.map Tree.page⟩).isFull = false := by
      simpa [isFull] using hfull
    simp only [internalAbsorbSplit, hnode, bind_eq_bind, bind_some, hnotFull,
      Bool.false_eq_true, if_false, hkeys, hchildren]
    refine ⟨none, _, [], [node p (KA ++ [m] ++ KB) (A ++ [left, right] ++ B)], rfl,
      .whole _ rfl, hcsOrd, ?_, hfirst⟩
    rw [length_setNode]
    refine hcs.node hf ?_ fun q hq => ?_
    · rw [look_setNode hplt, if_pos rfl]
      rfl
    · rw [look_setNode hplt, if_neg hq]

/-- The descent of an insertion. -/
theorem insertRecursive_spec (key value : Bytes) : ∀ {h : Nat} {tree : Tree Bytes Bytes h} {next : Option Nat}
    {lo hi : Bound Bytes} (fuel : Nat), Forest t.look t.nodes.length [tree] next →
      tree.Within lo hi → lo ≤ bound key → bound key < hi → (∀ q, next = some q → IsLeaf t.look q) → h < fuel →
          InsertSpec t key value (t.insertRecursive fuel tree.page key value) tree next lo hi := by
  intro h
  induction h with
  | zero =>
    intro tree next lo hi fuel hf hw hlo hhi hnext hfuel
    obtain ⟨fuel, rfl⟩ := Nat.exists_eq_succ_of_ne_zero (Nat.ne_of_gt hfuel)
    obtain ⟨p, es⟩ := tree
    obtain ⟨prev, hleaf⟩ := leafAt_of_look (hf.rep.1 : t.look p = some _)
    have hrec : t.insertRecursive (fuel + 1) p key value = t.leafInsert p key value := by
      simp only [insertRecursive, node_of_leafAt hleaf]
    show InsertSpec t key value (t.insertRecursive (fuel + 1) p key value) _ next lo hi
    rw [hrec]
    exact leafInsert_spec hf hw hlo hhi hnext
  | succ h ih =>
    intro tree next lo hi fuel hf hw hlo hhi hnext hfuel
    obtain ⟨fuel, rfl⟩ := Nat.exists_eq_succ_of_ne_zero (Nat.ne_of_gt (Nat.zero_lt_of_lt hfuel))
    obtain ⟨p, ks, cs⟩ := tree
    obtain ⟨A, c, B, KA, KB, l, u, f⟩ := Ordered.focus (fun _ _ _ => Tree.Within.le) hw hlo hhi
    obtain ⟨r, t₁, seps, ts, hrec, hsplit, hord, hr, hfirst⟩ :=
      ih fuel (f.forest hf) f.child f.le_key f.key_lt (f.isLeaf_next hf hnext)
        (Nat.lt_of_succ_lt_succ hfuel)
    have hp : t.look p = some (.internal ks (cs.map Tree.page)) := hf.children.1
    obtain ⟨node, hnode, hshape⟩ := Option.map_eq_some_iff.1 hp
    have hchild : (cs.map Tree.page)[partitionPoint ks key]? = some c.page := f.child_page
    have hnode' : t.nodes[p]? = some (.internal ⟨ks, cs.map Tree.page⟩) := by
      cases node with
      | leaf n => exact absurd hshape (by simp [shape])
      | internal n =>
        obtain ⟨ks', cs'⟩ := n
        cases hshape
        exact hnode
    show InsertSpec t key value (t.insertRecursive (fuel + 1) p key value) _ next lo hi
    simp only [insertRecursive, hnode', hchild, bind_eq_bind, bind_some, hrec]
    cases hsplit with
    | whole c' hpage =>
      obtain ⟨hnodeR, hnodeW⟩ := f.whole hf (local_insertList key value) hr hord hpage
      exact ⟨none, t₁, [], [BPlusTree.Tree.node p ks (A ++ [c'] ++ B)], rfl, .whole _ rfl, hnodeW, hnodeR, hfirst⟩
    | split m left right hpage =>
      exact internalAbsorbSplit_spec f hf hr hord hpage hfirst

end Insert

/-! ## The whole tree -/

/-- The arena holds a tree with the entries of the map, the root under index 0. -/
def Holds (t : BTree) (m : SortedMap Bytes Bytes) : Prop :=
  ∃ (h : Nat) (tree : Tree Bytes Bytes h), Forest t.look t.nodes.length [tree] none ∧
    tree.Within ⊥ ⊤ ∧ tree.page = 0 ∧ tree.firstLeaf = t.firstLeaf ∧ tree.entries = m.entries

theorem holds_new : Holds BTree.new SortedMap.empty := by
  refine ⟨0, Tree.leaf 0 [], ⟨⟨rfl, trivial⟩, nodup_singleton 0, fun p hp => ?_⟩,
    ⟨bot_le, Pairwise.nil, fun _ he => absurd he not_mem_nil⟩, rfl, rfl, rfl⟩
  have hp' : p ∈ [0] := hp
  rw [mem_singleton.1 hp']
  exact Nat.one_pos

section Whole

variable {t : BTree} {m : SortedMap Bytes Bytes}

section

variable (hm : Holds t m)
include hm

/-- An insertion inserts into the map. -/
theorem Holds.insert (key value : Bytes) :
    ∃ t', t.insert key value = some t' ∧ Holds t' (m.insert key value) := by
  obtain ⟨h, tree, hf, hw, hpage, hfirst, hentries⟩ := hm
  obtain ⟨r, t₁, seps, ts, hrec, hsplit, hord, hr, hfirst₁⟩ :=
    insertRecursive_spec key value t.nodes.length hf hw (bot_le_bound key)
      (bound_lt_top key) (fun q hq => absurd hq (by simp)) (hf.height_lt hw)
  rw [hpage] at hrec
  have hflat := hr.entries
  rw [flatMap_singleton, hentries] at hflat
  cases hsplit with
  | whole tree' hpage' =>
    simp only [BTree.insert, hrec, bind_eq_bind, bind_some]
    refine ⟨t₁, rfl, h, tree', hr.forest, hord, hpage'.trans hpage, ?_, ?_⟩
    · rw [hfirst₁, ← hfirst]
      exact some.inj hr.first
    · rw [flatMap_singleton] at hflat
      exact hflat
  | split mid left right hpage' =>
    have hleft0 : left.page = 0 := hpage'.trans hpage
    have hwL : left.Within ⊥ (bound mid) := hord.1
    have hfL : Forest t₁.look t₁.nodes.length [left] _ := (show Forest t₁.look t₁.nodes.length
      ([left] ++ [right]) none from hr.forest).parts.1
    have hpos : 0 < t₁.nodes.length := by
      refine hr.forest.lt 0 (mem_flatMap.2 ⟨left, mem_cons_self, ?_⟩)
      rw [Tree.pages_eq, hleft0]
      exact mem_cons_self
    have hroot : t₁.nodes[0]? = some t₁.nodes[0] := getElem?_eq_getElem hpos
    simp only [BTree.insert, hrec, bind_eq_bind, bind_some, hroot]
    refine ⟨_, rfl, h + 1, node 0 [mid] [left.setPage t₁.nodes.length, right], ?_,
      ⟨hwL.setPage _, hord.2⟩, rfl, ?_, ?_⟩
    · have hlen : ((t₁.allocateNode t₁.nodes[0]).2.setNode 0 (.internal ⟨[mid],
          [(t₁.allocateNode t₁.nodes[0]).1, right.page]⟩)).nodes.length =
            t₁.nodes.length + 1 := by simp
      have hpos' : 0 < (t₁.allocateNode t₁.nodes[0]).2.nodes.length := by simp
      have hnew : ∀ q, ((t₁.allocateNode t₁.nodes[0]).2.setNode 0 (.internal ⟨[mid],
          [(t₁.allocateNode t₁.nodes[0]).1, right.page]⟩)).look q =
            if q = 0 then some (.internal [mid] [t₁.nodes.length, right.page])
            else if q = t₁.nodes.length then t₁.look 0 else t₁.look q := by
        intro q
        rw [look_setNode hpos', look_allocateNode]
        have h0 : t₁.look 0 = some t₁.nodes[0].shape := by rw [look, hroot]; rfl
        rw [h0]
        rfl
      show Forest ((t₁.allocateNode t₁.nodes[0]).2.setNode 0 (.internal ⟨[mid], [(t₁.allocateNode t₁.nodes[0]).1,
          right.page]⟩)).look ((t₁.allocateNode t₁.nodes[0]).2.setNode 0 (.internal ⟨[mid], [(t₁.allocateNode
          t₁.nodes[0]).1, right.page]⟩)).nodes.length _ none
      rw [hlen]
      refine hr.forest.grow hleft0 ?_ ?_ fun q hq hq0 => ?_
      · rw [hnew, if_pos rfl]
      · rw [hnew, if_neg (ne_of_gt hpos), if_pos rfl]
      · rw [hnew, if_neg hq0, if_neg (ne_of_lt hq)]
    · -- the first leaf moves with the old root
      show (left.setPage t₁.nodes.length).firstLeaf =
        if t₁.firstLeaf = 0 then t₁.nodes.length else t₁.firstLeaf
      have hleftFirst : left.firstLeaf = t₁.firstLeaf := by
        rw [hfirst₁, ← hfirst]
        exact some.inj hr.first
      rw [hfL.firstLeaf_setPage hwL, hleft0, hleftFirst]
    · show [left.setPage t₁.nodes.length, right].flatMap Tree.entries = _
      rw [flatMap_cons, flatMap_singleton, Tree.entries_setPage]
      rw [flatMap_cons, flatMap_singleton] at hflat
      exact hflat

theorem Holds.leaf (key : Bytes) : ∃ pre l post prev, t.findLeaf t.nodes.length 0 key = some l.1 ∧
      Chained (LeafAt t.look) Prod.fst (l :: post) none ∧
        t.leafAt l.1 = some ⟨l.2.map Prod.fst, l.2.map Prod.snd, prev, post.head?.map Prod.fst⟩ ∧
          (pre ++ l :: post).flatMap Prod.snd = m.entries ∧
            (∀ e ∈ pre.flatMap Prod.snd, e.1 < key) ∧ (∀ e ∈ post.flatMap Prod.snd, key < e.1) ∧
              post.length < t.nodes.length := by
  obtain ⟨h, tree, hf, hw, hpage, -, hentries⟩ := hm
  obtain ⟨pre, l, post, hleaves, hfound, hpre, hpost⟩ := descend_spec t.nodes.length hf hw
    (bot_le_bound key) (bound_lt_top key) (hf.height_lt hw)
  have hchain := hf.rep.1.chain hw
  rw [hleaves, Chained.append] at hchain
  obtain ⟨prev, hleaf⟩ := leafAt_of_look hchain.2.1
  have hcount := hf.length_leaves
  rw [hleaves, length_append, length_cons] at hcount
  refine ⟨pre, l, post, prev, ?_, hchain.2, ?_, ?_, hpre, hpost, by omega⟩
  · rw [findLeaf_eq, ← hpage]
    exact hfound
  · rw [hleaf]
    simp
  · rw [← hleaves, Tree.leaves_entries, hentries]

theorem Holds.get (key : Bytes) : t.get key = some (m.get key) := by
  obtain ⟨pre, l, post, prev, hfind, -, hleaf, hflat, hpre, hpost, -⟩ := hm.leaf key
  have hs : Sorted ((pre ++ l :: post).flatMap Prod.snd) := hflat ▸ m.sorted
  have hanswer : m.get key = find l.2 key := by
    rw [SortedMap.get, ← hflat, find_leaves hpre hpost]
  rw [flatMap_append, flatMap_cons] at hs
  have hsl : Sorted l.2 := (pairwise_append.1 (pairwise_append.1 hs).2.1).1
  simp only [BTree.get, hfind, hleaf, bind_eq_bind, bind_some, hanswer]
  cases hsearch : binarySearch (l.2.map Prod.fst) key with
  | none =>
    rw [find_eq_none.2 (binarySearch_eq_none hsearch)]
  | some pos =>
    obtain ⟨A, v, B, hl, hlen⟩ := binarySearch_eq_some hsearch
    rw [hl] at hsl
    rw [hl, find_around hsl, ← hlen]
    simp

theorem Holds.range (start stop : Bytes) :
    t.range start stop = some (m.entries.filter (inRange start stop)) := by
  obtain ⟨pre, l, post, prev, hfind, hchain, -, hflat, hpre, -, hlen⟩ := hm.leaf start
  have hs : Sorted ((pre ++ l :: post).flatMap Prod.snd) := hflat ▸ m.sorted
  rw [flatMap_append] at hs hflat
  have hscan := scanLeaves_spec start stop hchain (pairwise_append.1 hs).2.1 hlen
  have hnone : (pre.flatMap Prod.snd).filter (inRange start stop) = [] := by
    rw [filter_eq_nil_iff]
    intro e he hin
    simp only [inRange, Bool.and_eq_true, decide_eq_true_eq] at hin
    exact absurd (hpre e he) (not_lt.2 hin.1)
  simp only [BTree.range, hfind, bind_eq_bind, bind_some, rangeLoop_eq]
  rw [hscan, ← hflat, filter_append, hnone, nil_append]

theorem Holds.len : t.len = some m.entries.length := by
  obtain ⟨h, tree, hf, hw, -, hfirst, hentries⟩ := hm
  obtain ⟨leaves, hiter, hkeys⟩ := leafIter_chain (hf.rep.1.chain hw) hf.length_leaves
  rw [hw.leaves_head, hfirst] at hiter
  simp only [BTree.len, hiter, bind_eq_bind, bind_some, some.injEq]
  have hlens : leaves.map (fun leaf => leaf.keys.length) =
      tree.leaves.map fun l => l.2.length := by
    have := congrArg (map length) hkeys
    simpa [map_map, Function.comp_def] using this
  rw [hlens, ← hentries, ← tree.leaves_entries, length_flatMap]

/-- A deletion removes from the map. -/
theorem Holds.delete (key : Bytes) :
    ∃ t', t.delete key = some ((m.get key).isSome, t') ∧ Holds t' (m.erase key) := by
  obtain ⟨pre, l, post, prev, hfind, -, hleaf, hflat, hpre, hpost, -⟩ := hm.leaf key
  have hs : Sorted ((pre ++ l :: post).flatMap Prod.snd) := hflat ▸ m.sorted
  have hanswer : m.get key = find l.2 key := by
    rw [SortedMap.get, ← hflat, find_leaves hpre hpost]
  rw [flatMap_append, flatMap_cons] at hs
  have hsl : Sorted l.2 := (pairwise_append.1 (pairwise_append.1 hs).2.1).1
  have hplt := lt_of_look (look_of_leafAt hleaf)
  cases hsearch : binarySearch (l.2.map Prod.fst) key with
  | none =>
    have hnone : m.get key = none := by
      rw [hanswer, find_eq_none.2 (binarySearch_eq_none hsearch)]
    have herase : m.erase key = m := by
      apply SortedMap.ext_get
      intro k
      rw [SortedMap.get_erase]
      split
      case isTrue heq => rw [heq, hnone]
      case isFalse => rfl
    simp only [BTree.delete, hfind, hleaf, bind_eq_bind, bind_some, hsearch, hnone, herase]
    exact ⟨t, rfl, hm⟩
  | some pos =>
    obtain ⟨A, v, B, hl, hlen⟩ := binarySearch_eq_some hsearch
    rw [hl] at hsl
    have hsome : m.get key = some v := by rw [hanswer, hl, find_around hsl]
    simp only [BTree.delete, hfind, hleaf, bind_eq_bind, bind_some, hsearch, hsome]
    refine ⟨_, rfl, ?_⟩
    obtain ⟨h, tree, hf, hw, hpage, hfirst, hentries⟩ := hm
    rw [findLeaf_eq, ← hpage] at hfind
    have hlook : ∀ q, (t.setNode l.1 (.leaf { (⟨l.2.map Prod.fst, l.2.map Prod.snd, prev,
        post.head?.map Prod.fst⟩ : LeafNode) with
          keys := (l.2.map Prod.fst).eraseIdx pos
          values := (l.2.map Prod.snd).eraseIdx pos })).look q =
        if q = l.1 then some (.leaf ((eraseList key l.2).map Prod.fst)
          ((eraseList key l.2).map Prod.snd) (post.head?.map Prod.fst)) else t.look q := by
      intro q
      rw [look_setNode hplt, hl, eraseList_of_mem hsl, ← hlen]
      have hfst : ((A ++ (key, v) :: B).map Prod.fst).eraseIdx A.length =
          (A ++ B).map Prod.fst := by
        rw [map_append, map_append, eraseIdx_append_of_length_le (by simp)]
        simp
      have hsnd : ((A ++ (key, v) :: B).map Prod.snd).eraseIdx A.length =
          (A ++ B).map Prod.snd := by
        rw [map_append, map_append, eraseIdx_append_of_length_le (by simp)]
        simp
      rw [hfst, hsnd]
      rfl
    obtain ⟨tree', hpage', hw', hr⟩ := Replaced.atLeaf (local_eraseList key)
      (fun lo hi q es h => h.eraseLeaf) (fun es nx hes => by
        have hleaf' := look_of_leafAt hleaf
        rw [hes] at hleaf'
        simp only [some.injEq, Shape.leaf.injEq] at hleaf'
        rw [hlook, if_pos rfl, zip_of_prod hleaf'.1 hleaf'.2.1,
          ← @zip_of_prod _ _ _ _ l.2 rfl rfl, hleaf'.2.2])
      (fun q _ hq => (hlook q).trans (if_neg hq))
      t.nodes.length hf hw (bot_le_bound key) (bound_lt_top key) hfind
    refine ⟨h, tree', ?_, hw', hpage'.trans hpage, ?_, ?_⟩
    · rw [length_setNode]
      exact hr.forest
    · rw [firstLeaf_setNode, ← hfirst]
      exact some.inj hr.first
    · have hflat' := hr.entries
      rw [flatMap_singleton, flatMap_singleton, hentries] at hflat'
      exact hflat'

end

end Whole

/-! ## Runs -/

/-- The map that a sequence of operations builds. -/
def applyOps (ops : List Op) (m : SortedMap Bytes Bytes) : SortedMap Bytes Bytes :=
  ops.foldl (fun m op => match op with
    | .insert key value => m.insert key value
    | .delete key => m.erase key) m

theorem Holds.run {t : BTree} {m : SortedMap Bytes Bytes} (hm : Holds t m) (ops : List Op) :
    ∃ t', exec step t ops = some t' ∧ Holds t' (applyOps ops m) := by
  induction ops generalizing t m with
  | nil => exact ⟨t, rfl, hm⟩
  | cons op ops ih =>
    cases op with
    | insert key value =>
      obtain ⟨t₁, ht₁, hm₁⟩ := hm.insert key value
      obtain ⟨t', ht', hm'⟩ := ih hm₁
      exact ⟨t', by rw [exec, step, ht₁]; exact ht', hm'⟩
    | delete key =>
      obtain ⟨t₁, ht₁, hm₁⟩ := hm.delete key
      obtain ⟨t', ht', hm'⟩ := ih hm₁
      exact ⟨t', by rw [exec, step, ht₁]; exact ht', hm'⟩

/-- **The tree refines a sorted map**: after any sequence of insertions and deletions, which never
fails, `get`, `range` and `len` answer as the map does. -/
theorem arena_refines_map (ops : List Op) : ∃ t, exec step BTree.new ops = some t ∧
    (∀ key, t.get key = some ((applyOps ops SortedMap.empty).get key)) ∧
      (∀ start stop, t.range start stop =
        some ((applyOps ops SortedMap.empty).entries.filter (inRange start stop))) ∧
        t.len = some (applyOps ops SortedMap.empty).entries.length := by
  obtain ⟨t, ht, hm⟩ := holds_new.run ops
  exact ⟨t, ht, hm.get, hm.range, hm.len⟩

end SystemDesignLabs.BTreeKv.Memory
