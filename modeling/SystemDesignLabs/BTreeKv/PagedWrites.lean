import SystemDesignLabs.BTreeKv.PagedRefinement

/-!
# The order of the page writes

`Follows t t'` says that `t'` comes from `t` by further page writes, which are those that it records.
Every operation goes forward in this sense, whether it returns or stops on the way. An insertion that
splits a leaf passes through a state in which the left half is written and the right half is not
(`insert_torn`); one that does not split writes one page (`insert_kept`).
-/

namespace SystemDesignLabs.BTreeKv.Paged

open List Core BPlusTree SortedList BTree

/-- The file after some page writes. -/
def applyWrites (file : List Page) (ws : List (Nat × Page)) : List Page :=
  ws.foldl (fun file w => storePage file w.1 w.2) file

/-- More page writes have been made, and they are recorded. -/
def Follows (t t' : BTree) : Prop :=
  ∃ ws, t'.writes = t.writes ++ ws ∧ t'.file = applyWrites t.file ws

theorem Follows.refl (t : BTree) : Follows t t := ⟨[], (append_nil _).symm, rfl⟩

theorem Follows.trans {t t' t'' : BTree} (h : Follows t t') (h' : Follows t' t'') : Follows t t'' := by
  obtain ⟨ws, hws, hfile⟩ := h
  obtain ⟨ws', hws', hfile'⟩ := h'
  refine ⟨ws ++ ws', by rw [hws', hws, append_assoc], ?_⟩
  rw [hfile', hfile, applyWrites, applyWrites, applyWrites, foldl_append]

/-- The tree when an operation has returned or stopped. -/
def Outcome.tree {A : Type} (f : A → BTree) : Outcome A → BTree
  | .ok a => f a
  | .error t => t

/-- The tree of an outcome follows the one before. -/
def Forward {A : Type} (t : BTree) (f : A → BTree) (o : Outcome A) : Prop := Follows t (o.tree f)

section Forward

variable {A B : Type} {t : BTree}

variable {g : B → BTree}

theorem Forward.bind {f : A → BTree} {x : Outcome A} {k : A → Outcome B} (hx : Forward t f x)
    (hk : ∀ a, x = .ok a → Forward (f a) g (k a)) : Forward t g (x >>= k) := by
  cases x with
  | ok a => exact hx.trans (hk a rfl)
  | error t' => exact hx

theorem Forward.pure_bind {x : Outcome A} {k : A → Outcome B} (hx : ∀ t', x = .error t' → t' = t)
    (hk : ∀ a, Forward t g (k a)) : Forward t g (x >>= k) := by
  cases x with
  | ok a => exact hk a
  | error t' =>
    rw [hx t' rfl]
    exact Follows.refl t

theorem Forward.ok {b : B} (h : g b = t) : Forward t g (.ok b) := by
  subst h
  exact Follows.refl (g b)

theorem index_error {l : List A} {i : Nat} {t' : BTree} (h : t.index l i = .error t') : t' = t := by
  rw [index] at h
  split at h
  · cases h
  · cases h
    rfl

theorem asLeaf_error {node : Node} {t' : BTree} (h : t.asLeaf node = .error t') : t' = t := by
  cases node with
  | leaf n => cases h
  | internal n =>
    cases h
    rfl

theorem forward_readPage (p : Nat) : Forward t Prod.snd (t.readPage p) := by
  rw [readPage]
  split
  · exact ⟨[], (append_nil _).symm, rfl⟩
  · split
    · exact ⟨[], (append_nil _).symm, rfl⟩
    · exact Follows.refl t

theorem forward_writePage (node : Node) : Forward t id (t.writePage node) := by
  rw [writePage]
  split
  · exact ⟨[_], rfl, rfl⟩
  · exact Follows.refl t

theorem writePage_ok {t' : BTree} {node : Node} (h : t.writePage node = .ok t') :
    ∃ buf, t'.writes = t.writes ++ [(node.pageId, buf)] ∧ t'.file = storePage t.file node.pageId buf := by
  rw [writePage] at h
  split at h
  case h_1 buf _ =>
    cases h
    exact ⟨buf, rfl, rfl⟩
  case h_2 => cases h

theorem forward_allocatePage : Forward t Prod.snd t.allocatePage := by
  rw [allocatePage]
  split
  · exact ⟨[], (append_nil _).symm, rfl⟩
  · exact Follows.refl t

theorem forward_setPrev (p prev : Nat) : Forward t id (t.setPrev p prev) := by
  rw [setPrev]
  split
  · apply Forward.bind (forward_readPage p)
    intro a _
    apply Forward.pure_bind fun _ => asLeaf_error
    intro leaf
    exact forward_writePage _
  · exact Follows.refl t

theorem forward_leafInsert_split {leaf right : LeafNode} {key promoted : Bytes} (value : Bytes)
    {t₃ : BTree} (hsearch : binarySearch leaf.keys key = none) (hfull : order - 1 ≤ leaf.keys.length)
    (hsplit : t.splitLeafNode leaf = .ok ((promoted, right), t₃)) :
    Forward t₃ Prod.snd (t.leafInsert leaf key value) := by
  simp only [leafInsert, hsearch, if_pos hfull, hsplit, ok_bind]
  apply Forward.bind (forward_readPage _)
  intro b _
  apply Forward.pure_bind fun _ => asLeaf_error
  intro left
  split
  · apply Forward.bind (forward_writePage _)
    intro t₁ _
    exact Forward.ok rfl
  · apply Forward.bind (forward_writePage _)
    intro t₁ _
    exact Forward.ok rfl

theorem forward_internalAbsorbSplit (node : InternalNode) (childPos : Nat) (key : Bytes)
    (right : Nat) : Forward t Prod.snd (t.internalAbsorbSplit node childPos key right) := by
  rw [internalAbsorbSplit]
  split
  · apply Forward.bind (f := Prod.snd)
    · apply Forward.pure_bind fun _ => index_error
      intro promoted
      apply Forward.bind forward_allocatePage
      intro a _
      apply Forward.bind (forward_writePage _)
      intro t₁ _
      apply Forward.bind (forward_writePage _)
      intro t₂ _
      exact Forward.ok rfl
    · intro a _
      exact Forward.ok rfl
  · apply Forward.bind (forward_writePage _)
    intro t₁ _
    exact Forward.ok rfl

theorem forward_moveRoot (node : Node) (id : Nat) : Forward t Prod.snd (t.moveRoot node id) := by
  cases node with
  | internal n => exact Forward.ok rfl
  | leaf n =>
    apply Forward.bind (forward_setPrev _ _)
    intro t₁ _
    exact Forward.ok rfl

end Forward

/-! ## An insertion starts at its leaf -/

section Leaf

variable {t : BTree} {nodes : List Node} {key : Bytes}

variable {leaf : LeafNode}

theorem insertRecursive_leaf (value : Bytes) (hb : Backed t nodes) {fuel p q : Nat}
    (h : descend (look nodes) fuel p key = some q) (hq : nodes[q]? = some (.leaf leaf)) :
    ∃ c k, Backed { t with cache := c } nodes ∧ BTree.insertRecursive key value fuel t p =
        (BTree.leafInsert { t with cache := c } leaf key value >>= k) ∧
      (∀ a, Forward a.2 Prod.snd (k a)) ∧ ∀ t', k (none, t') = .ok (none, t') := by
  induction fuel generalizing t p with
  | zero => exact absurd h (by simp [descend])
  | succ fuel ih =>
    rw [descend] at h
    cases hp : look nodes p with
    | none =>
      rw [hp] at h
      exact absurd h (by simp)
    | some s =>
      rw [hp] at h
      cases s with
      | leaf ks vs next =>
        cases h
        obtain ⟨c, hread, hb'⟩ := hb.readPage hq
        refine ⟨c, .ok, hb', ?_, fun a => Follows.refl _, fun _ => rfl⟩
        rw [insertRecursive, hread, ok_bind]
        exact (bind_pure _).symm
      | internal ks cs =>
        have hnode := internal_of_look hb.stored hp
        obtain ⟨c, hread, hb'⟩ := hb.readPage hnode
        obtain ⟨child, hchild, hrest⟩ := Option.bind_eq_some_iff.1 h
        obtain ⟨c', k, hb'', hrec, hforward, hnone⟩ := ih hb' hrest
        refine ⟨c', fun a => k a >>= fun b => b.1.elim (.ok (none, b.2)) fun r =>
          b.2.internalAbsorbSplit ⟨p, ks, cs⟩ (partitionPoint ks key) r.1 r.2, hb'', ?_, fun a => ?_, fun t' => ?_⟩
        · rw [insertRecursive, hread, ok_bind]
          simp only [index_eq_ok hchild, ok_bind, hrec, bind_assoc]
          congr 1
          funext a
          congr 1
          funext b
          obtain ⟨r, t₁⟩ := b
          cases r with
          | none => rfl
          | some r => rfl
        · apply Forward.bind (hforward a)
          intro b _
          obtain ⟨r, t₁⟩ := b
          cases r with
          | none => exact Forward.ok rfl
          | some r => exact forward_internalAbsorbSplit _ _ _ _
        · simp only [hnone, ok_bind, Option.elim_none]

variable {q : Nat}

theorem insert_leaf (value : Bytes) (hb : Backed t nodes)
    (h : descend (look nodes) nodes.length rootPage key = some q) (hq : nodes[q]? = some (.leaf leaf)) :
    ∃ c k, Backed { t with cache := c } nodes ∧
      t.insert key value = (BTree.leafInsert { t with cache := c } leaf key value >>= k) ∧
      (∀ a, Forward a.2 id (k a)) ∧ ∀ t', k (none, t') = .ok t' := by
  obtain ⟨c, k, hb', hrec, hforward, hnone⟩ := insertRecursive_leaf value hb h hq
  refine ⟨c, fun a => k a >>= fun b => b.1.elim (.ok b.2) fun r => do
      let oldRoot ← b.2.readPage rootPage
      let page ← oldRoot.2.allocatePage
      let moved ← page.2.moveRoot oldRoot.1 page.1
      let t ← moved.2.writePage moved.1
      t.writePage (.internal ⟨rootPage, [r.1], [page.1, r.2]⟩), hb', ?_, fun a => ?_, fun t' => ?_⟩
  · rw [BTree.insert, hb.length_file, hrec, bind_assoc]
    congr 1
    funext a
    congr 1
    funext b
    obtain ⟨r, t₁⟩ := b
    cases r with
    | none => rfl
    | some r => rfl
  · apply Forward.bind (hforward a)
    intro b _
    obtain ⟨r, t₁⟩ := b
    cases r with
    | none => exact Forward.ok rfl
    | some r =>
      apply Forward.bind (forward_readPage _)
      intro b _
      apply Forward.bind forward_allocatePage
      intro b _
      apply Forward.bind (forward_moveRoot _ _)
      intro b _
      apply Forward.bind (forward_writePage _)
      intro t₂ _
      exact forward_writePage _
  · simp only [hnone, ok_bind, Option.elim_none]

theorem splits_leaf {file : List Page} (hs : Stored file nodes) {fuel p : Nat}
    (h : descend (look nodes) fuel p key = some q) (hq : nodes[q]? = some (.leaf leaf)) :
    if key ∈ leaf.keys ∨ leaf.keys.length < order - 1 then splits file key fuel p = (0, false)
    else (splits file key fuel p).1 ≠ 0 := by
  induction fuel generalizing p with
  | zero => exact absurd h (by simp [descend])
  | succ fuel ih =>
    rw [descend] at h
    cases hp : look nodes p with
    | none =>
      rw [hp] at h
      exact absurd h (by simp)
    | some s =>
      rw [hp] at h
      cases s with
      | leaf ks vs next =>
        cases h
        simp only [splits, hs.decode hq]
        split
        · rfl
        · exact Nat.one_ne_zero
      | internal ks cs =>
        have hnode := internal_of_look (t := ⟨file, .new 0, 0, []⟩) hs hp
        obtain ⟨child, hchild, hrest⟩ := Option.bind_eq_some_iff.1 h
        have hrec := ih hrest
        simp only [splits, hs.decode hnode, hchild]
        split
        case isTrue hkeep =>
          rw [if_pos hkeep] at hrec
          rw [hrec]
          rfl
        case isFalse hsplit =>
          rw [if_neg hsplit] at hrec
          split
          · exact Nat.succ_ne_zero _
          · exact hrec

theorem newPages_eq_zero (hb : Backed t nodes) (h : descend (look nodes) nodes.length rootPage key = some q)
    (hq : nodes[q]? = some (.leaf leaf)) : t.newPages key = 0 ↔ key ∈ leaf.keys ∨ leaf.keys.length < order - 1 := by
  have hsplits := splits_leaf hb.stored h hq
  rw [newPages, hb.length_file]
  split at hsplits
  case isTrue hkeep =>
    rw [hsplits]
    exact iff_of_true rfl hkeep
  case isFalse hsplit =>
    refine iff_of_false (fun hzero => ?_) hsplit
    dsimp only at hzero
    split at hzero
    · exact Nat.succ_ne_zero _ hzero
    · exact hsplits hzero

/-- An insertion that does not split its leaf writes one page. -/
theorem insert_kept (value : Bytes) (hb : Backed t nodes)
    (h : descend (look nodes) nodes.length rootPage key = some q) (hq : nodes[q]? = some (.leaf leaf))
    {t' : BTree} (hinsert : t.insert key value = .ok t') (hkeep : key ∈ leaf.keys ∨ leaf.keys.length < order - 1) :
    ∃ w, t'.writes = t.writes ++ [w] ∧ t'.file = applyWrites t.file [w] := by
  obtain ⟨c, k, hb', heq, -, hnone⟩ := insert_leaf value hb h hq
  have hone : ∀ node, (writePage { t with cache := c } node >>= fun t =>
      Except.ok (none, t)) >>= k = .ok t' →
        ∃ w, t'.writes = t.writes ++ [w] ∧ t'.file = applyWrites t.file [w] := by
    intro node hout
    rw [writePage] at hout
    cases hencode : encodePage node with
    | none =>
      rw [hencode] at hout
      cases hout
    | some buf =>
      rw [hencode] at hout
      simp only [ok_bind, hnone] at hout
      cases hout
      exact ⟨_, rfl, rfl⟩
  rw [heq, leafInsert] at hinsert
  cases hsearch : binarySearch leaf.keys key with
  | some pos =>
    rw [hsearch] at hinsert
    exact hone _ hinsert
  | none =>
    rw [hsearch] at hinsert
    have hnot := not_mem_of_binarySearch hsearch
    dsimp only at hinsert
    rw [if_neg (not_le.2 (hkeep.resolve_left hnot))] at hinsert
    exact hone _ hinsert

theorem insert_exhausted (value : Bytes) (hb : Backed t nodes)
    (h : descend (look nodes) nodes.length rootPage key = some q) (hq : nodes[q]? = some (.leaf leaf))
    (hsplit : ¬ (key ∈ leaf.keys ∨ leaf.keys.length < order - 1)) (hlast : ¬ t.nextPageId + 1 < 2 ^ 32) :
    ∃ t', t.insert key value = .error t' ∧ t'.writes = t.writes := by
  obtain ⟨c, k, -, heq, -, -⟩ := insert_leaf value hb h hq
  rw [not_or, not_lt] at hsplit
  have hsearch := binarySearch_of_not_mem hsplit.1
  have hpos : leaf.keys.length / 2 < leaf.keys.length := by
    have := hsplit.2
    simp only [order] at this
    omega
  have hhead : index { t with cache := c } (leaf.keys.drop (leaf.keys.length / 2)) 0 =
      .ok leaf.keys[leaf.keys.length / 2] := by
    apply index_eq_ok
    rw [drop_eq_getElem_cons hpos]
    rfl
  have halloc : allocatePage { t with cache := c } = .error { t with cache := c } := by
    rw [allocatePage]
    exact if_neg hlast
  refine ⟨{ t with cache := c }, ?_, rfl⟩
  rw [heq, leafInsert]
  simp only [hsearch, if_pos hsplit.2, splitLeafNode, hhead, ok_bind, halloc]
  rfl

/-- An insertion that splits its leaf is torn between the two halves: after some of its page
writes, and before the others, the left half is on disk and the right half is not. -/
theorem insert_torn (value : Bytes) (hb : Backed t nodes) {p nx prev : Nat}
    {es : List (Bytes × Bytes)} (h : descend (look nodes) nodes.length rootPage key = some p)
    (hp : nodes[p]? = some (.leaf (leafNode p es nx prev))) (hleaf : nx ≠ nullPage → IsLeaf (look nodes) nx)
    (hsplit : ¬ (key ∈ es.map Prod.fst ∨ es.length < order - 1))
    (hnext : t.nextPageId + 1 < 2 ^ 32) (hlt : nodes.length < 2 ^ 32) : ∃ ws₁ ws₂ nodes₂, ws₁ ≠ [] ∧ ws₂ ≠ [] ∧
      ((t.insert key value).tree id).writes = t.writes ++ (ws₁ ++ ws₂) ∧
        Stored (applyWrites t.file ws₁) nodes₂ ∧ nodes₂.length = nodes.length ∧ nodes₂[p]? =
            some (.leaf (leafNode p (es.take (es.length / 2)) t.nextPageId prev)) ∧
            ∀ q ≠ p, look nodes₂ q = look nodes q := by
  obtain ⟨c, k, hb', heq, hforward, -⟩ := insert_leaf value hb h hp
  rw [not_or, not_lt] at hsplit
  obtain ⟨hlen, hes, hnx, hprev⟩ := fits_leafNode.1 (hb.stored.fits _ (mem_of_getElem? hp))
  have hplt : p < nodes.length := (List.getElem?_eq_some_iff.1 hp).1
  have hsearch : binarySearch (leafNode p es nx prev).keys key = none :=
    binarySearch_of_not_mem hsplit.1
  have hfull : order - 1 ≤ (leafNode p es nx prev).keys.length := by
    simpa [leafNode] using hsplit.2
  have hlenKeys : (es.map Prod.fst).length = es.length := length_map _
  have hmid : es.length / 2 < es.length := by
    have := hsplit.2
    simp only [order] at this
    omega
  -- the writes up to the left half
  obtain ⟨t₁, t₂, nodes₂, hset, hwrite₂, hb₂, -, hlen₂, hp₂, hlook₂⟩ :=
    splitLeft_spec (hb'.nextPageId (t.nextPageId + 1)) hp (Nat.lt_of_succ_lt hnext)
      (es.length / 2) hleaf
  obtain ⟨buf₂, hwrites₂, hfile₂⟩ := writePage_ok hwrite₂
  have hfollows₁ := forward_setPrev (t := { t with cache := c, nextPageId := t.nextPageId + 1 }) nx
    t.nextPageId
  rw [Forward, hset] at hfollows₁
  change Follows _ t₁ at hfollows₁
  obtain ⟨ws, hwrites₁, hfile₁⟩ := hfollows₁
  -- the right half
  have hfits : (Node.leaf (leafNode t.nextPageId (es.drop (es.length / 2)) nx p)).Fits := by
    refine fits_leafNode.2 ⟨lt_of_le_of_lt ?_ hlen, fun e he => hes e (mem_of_mem_drop he), hnx, lt_trans hplt hlt⟩
    rw [length_drop]
    exact Nat.sub_le _ _
  obtain ⟨t₃, hwrite₃⟩ : ∃ t₃, t₂.writePage (.leaf (leafNode t.nextPageId
      (es.drop (es.length / 2)) nx p)) = .ok t₃ := by
    obtain ⟨buf, hbuf, -⟩ := decodePage_encodePage hfits
    rw [writePage, hbuf]
    exact ⟨_, rfl⟩
  obtain ⟨buf₃, hwrites₃, -⟩ := writePage_ok hwrite₃
  have hsplitNode : splitLeafNode { t with cache := c } (leafNode p es nx prev) =
      .ok ((es[es.length / 2].1, leafNode t.nextPageId (es.drop (es.length / 2)) nx p), t₃) := by
    have hhead : index { t with cache := c } ((es.map Prod.fst).drop (es.length / 2)) 0 =
        .ok es[es.length / 2].1 := by
      rw [← map_drop, drop_eq_getElem_cons hmid]
      exact index_eq_ok rfl
    have halloc : allocatePage { t with cache := c } =
        .ok (t.nextPageId, { t with cache := c, nextPageId := t.nextPageId + 1 }) := by
      rw [allocatePage]
      exact if_pos hnext
    simp only [leafNode, map_take] at hwrite₂
    simp only [leafNode, map_drop] at hwrite₃
    simp only [splitLeafNode, leafNode, hlenKeys, hhead, ok_bind, halloc, hset, hwrite₂, hwrite₃, map_drop]
  have hrest : Follows t₃ ((t.insert key value).tree id) := by
    rw [heq]
    exact Forward.bind (forward_leafInsert_split value hsearch hfull hsplitNode)
      fun a _ => hforward a
  obtain ⟨ws₃, hwrites, -⟩ := hrest
  refine ⟨ws ++ [(p, buf₂)], (t.nextPageId, buf₃) :: ws₃, nodes₂, by simp, by simp, ?_, ?_, hlen₂,
    hp₂, hlook₂⟩
  · rw [hwrites, hwrites₃, hwrites₂, hwrites₁]
    simp [leafNode, Node.pageId]
  · have hstored := hb₂.stored
    rw [hfile₂, hfile₁] at hstored
    rw [applyWrites, foldl_append]
    exact hstored

end Leaf

end SystemDesignLabs.BTreeKv.Paged
