import SystemDesignLabs.Core.BPlusTree

/-!
# Operations on B+ trees in a store

Search (`descend`), the walk over the linked leaves (`scanLeaves`), the edits of a leaf, and the
growth of the tree at its root. A search finds the leaf a key belongs to (`descend_spec`), a walk
that starts there returns the entries of a range (`scanLeaves_spec`), and an edit of that leaf is an
update of the tree (`Replaced.atLeaf`). The loops have fuel; the height and the number of leaves are
below the number of nodes (`Forest.height_lt`, `Forest.length_leaves`).
-/

namespace SystemDesignLabs.Core.BPlusTree

open List (map_cons mem_append mem_cons mem_cons_of_mem mem_cons_self)

open SortedList Tree Prod

section Ops

variable {K V : Type} [LinearOrder K]

/-! ## Entries of a leaf -/

theorem local_insertList (key : K) (x : V) : Local key (insertList key x) := by
  intro A M B hA hB
  rw [insertList_append_right x _ hB, insertList_append_left x _ hA]

theorem local_eraseList (key : K) : Local key (eraseList (V := V) key) := by
  intro A M B hA hB
  have hkeep : ∀ l : List (K × V), (∀ e ∈ l, e.1 ≠ key) → eraseList key l = l := fun l hl => by
    rw [eraseList, List.filter_eq_self]
    exact fun e he => decide_eq_true (hl e he)
  rw [eraseList, List.filter_append, List.filter_append, ← eraseList, ← eraseList, ← eraseList,
    hkeep A fun e he => ne_of_lt (hA e he), hkeep B fun e he => ne_of_gt (hB e he)]

/-- The position of a key. -/
def binarySearch (keys : List K) (key : K) : Option Nat := keys.findIdx? fun k => k = key

/-- How many keys, from the left, are below the given one. -/
def lowerBound (keys : List K) (key : K) : Nat := (keys.takeWhile fun k => k < key).length

variable {key : K} {es : List (K × V)}

theorem binarySearch_eq_some {pos : Nat} (h : binarySearch (es.map Prod.fst) key = some pos) :
    ∃ A v B, es = A ++ (key, v) :: B ∧ A.length = pos := by
  obtain ⟨hlt, hkey, -⟩ := List.findIdx?_eq_some_iff_getElem.1 h
  rw [List.length_map] at hlt
  rw [List.getElem_map, decide_eq_true_eq] at hkey
  refine ⟨es.take pos, es[pos].2, es.drop (pos + 1), ?_, ?_⟩
  · rw [← hkey]
    exact (List.take_append_drop pos es).symm.trans (by rw [List.drop_eq_getElem_cons hlt])
  · rw [List.length_take]
    omega

theorem binarySearch_eq_none (h : binarySearch (es.map Prod.fst) key = none) : ∀ e ∈ es, e.1 ≠ key := by
  intro e he
  have := List.findIdx?_eq_none_iff.1 h e.1 (List.mem_map_of_mem he)
  simpa using this

theorem binarySearch_of_not_mem {keys : List K} (h : key ∉ keys) : binarySearch keys key = none := by
  refine List.findIdx?_eq_none_iff.2 fun k hk => ?_
  rw [decide_eq_false_iff_not]
  exact fun heq => h (heq ▸ hk)

theorem not_mem_of_binarySearch {keys : List K} (h : binarySearch keys key = none) : key ∉ keys := by
  intro hmem
  have := List.findIdx?_eq_none_iff.1 h key hmem
  exact absurd this (by simp)

variable {A B : List (K × V)}

theorem sorted_around {v : V} (h : Sorted (A ++ (key, v) :: B)) :
    (∀ e ∈ A, e.1 < key) ∧ ∀ e ∈ B, key < e.1 := by
  obtain ⟨-, hB, hAB⟩ := List.pairwise_append.1 h
  exact ⟨fun e he => hAB e he _ List.mem_cons_self, (List.pairwise_cons.1 hB).1⟩

theorem find_around {v : V} (h : Sorted (A ++ (key, v) :: B)) :
    find (A ++ (key, v) :: B) key = some v :=
  find_of_mem h (List.mem_append_right _ List.mem_cons_self)

theorem insertList_of_mem {v : V} (x : V) (h : Sorted (A ++ (key, v) :: B)) :
    insertList key x (A ++ (key, v) :: B) = A ++ (key, x) :: B := by
  rw [insertList_append_left x _ (sorted_around h).1, insertList, if_neg (lt_irrefl key), if_pos rfl]

theorem eraseList_of_mem {v : V} (h : Sorted (A ++ (key, v) :: B)) : eraseList key (A ++ (key, v) :: B) = A ++ B := by
  obtain ⟨hA, hB⟩ := sorted_around h
  have hcons : A ++ (key, v) :: B = A ++ [(key, v)] ++ B := by simp
  rw [hcons, local_eraseList key A [(key, v)] B hA hB, eraseList, List.filter_cons_of_neg (by simp)]
  simp

theorem sorted_cut (hs : Sorted es) (hne : ∀ e ∈ es, e.1 ≠ key) :
    ∃ A B, es = A ++ B ∧ A.length = lowerBound (es.map Prod.fst) key ∧ (∀ e ∈ A, e.1 < key) ∧ ∀ e ∈ B, key < e.1 := by
  induction es with
  | nil => exact ⟨[], [], rfl, rfl, fun _ h => absurd h List.not_mem_nil, fun _ h => absurd h List.not_mem_nil⟩
  | cons e es ih =>
    obtain ⟨he, hs'⟩ := List.pairwise_cons.1 hs
    rw [List.forall_mem_cons] at hne
    by_cases hlt : e.1 < key
    · obtain ⟨A, B, rfl, hlen, hA, hB⟩ := ih hs' hne.2
      refine ⟨e :: A, B, rfl, ?_, List.forall_mem_cons.2 ⟨hlt, hA⟩, hB⟩
      rw [List.length_cons, hlen, map_cons, lowerBound, lowerBound,
        List.takeWhile_cons_of_pos (by simpa using hlt), List.length_cons]
    · have hgt : key < e.1 := lt_of_le_of_ne (not_lt.1 hlt) (Ne.symm hne.1)
      refine ⟨[], e :: es, rfl, ?_, fun _ h => absurd h List.not_mem_nil,
        List.forall_mem_cons.2 ⟨hgt, fun e' he' => lt_trans hgt (he e' he')⟩⟩
      rw [map_cons, lowerBound, List.takeWhile_cons_of_neg (by simpa using hlt)]
      rfl

theorem insertIdx_append {A : Type} (l r : List A) (x : A) : (l ++ r).insertIdx l.length x = l ++ x :: r := by
  induction l with
  | nil => exact List.insertIdx_zero
  | cons a l ih => rw [List.cons_append, List.length_cons, List.insertIdx_succ_cons, ih]; rfl

theorem insertList_of_not_mem (x : V) (hs : Sorted es) (hne : ∀ e ∈ es, e.1 ≠ key) :
    insertList key x es = es.insertIdx (lowerBound (es.map Prod.fst) key) (key, x) := by
  obtain ⟨A, B, rfl, hlen, hA, hB⟩ := sorted_cut hs hne
  rw [← hlen, insertIdx_append, insertList_append_left x _ hA]
  cases B with
  | nil => rfl
  | cons b B => rw [insertList, if_pos (hB b List.mem_cons_self)]

theorem Tree.Within.insertLeaf {lo hi : Bound K} {p q : Nat} {x : V} (h : Tree.Within lo hi (.leaf p es))
    (hlo : lo ≤ bound key) (hhi : bound key < hi) :
    Tree.Within lo hi (.leaf q (insertList key x es)) := by
  refine ⟨h.1, sorted_insertList key x h.2.1, fun e he => ?_⟩
  rcases mem_insertList he with rfl | he
  · exact ⟨hlo, hhi⟩
  · exact h.2.2 e he

theorem Tree.Within.eraseLeaf {lo hi : Bound K} {p q : Nat} (h : Tree.Within lo hi (.leaf p es)) :
    Tree.Within lo hi (.leaf q (eraseList key es)) :=
  ⟨h.1, sorted_eraseList key h.2.1, fun e he => h.2.2 e (List.mem_of_mem_filter he)⟩

theorem Tree.Within.halves {lo hi : Bound K} {p q r : Nat} {L R : List (K × V)} {e : K × V}
    (h : Tree.Within lo hi (.leaf p (L ++ e :: R))) :
    Tree.Within lo (bound e.1) (.leaf q L) ∧ Tree.Within (bound e.1) hi (.leaf r (e :: R)) := by
  obtain ⟨hle, hsorted, hbounds⟩ := h
  obtain ⟨hL, hR, hLR⟩ := List.pairwise_append.1 hsorted
  have he := hbounds e (List.mem_append_right _ List.mem_cons_self)
  refine ⟨⟨he.1, hL, fun d hd => ⟨(hbounds d (List.mem_append_left _ hd)).1, ?_⟩⟩,
    ⟨le_of_lt he.2, hR, fun d hd => ⟨?_, (hbounds d (List.mem_append_right _ hd)).2⟩⟩⟩
  · exact bound_lt_bound.2 (hLR d hd e List.mem_cons_self)
  · rcases List.mem_cons.1 hd with rfl | hd
    · exact le_rfl
    · exact le_of_lt (bound_lt_bound.2 ((List.pairwise_cons.1 hR).1 d hd))

/-! ## Sizes -/

theorem Tree.Within.height_lt : ∀ {h : Nat} {lo hi : Bound K} {t : Tree K V h}, t.Within lo hi → h < t.pages.length
  | 0, _, _, .leaf _ _, _ => Nat.one_pos
  | _ + 1, _, _, .node _ ks cs, h => by
    have hlen := Ordered.length h
    match cs, hlen with
    | c :: cs, _ =>
      obtain ⟨l, u, hc, -⟩ := (Ordered.mem (fun _ _ _ => Within.le) h).2 c
        List.mem_cons_self
      have hlt := hc.height_lt
      show _ < ((c :: cs).flatMap pages).length + 1
      rw [List.flatMap_cons, List.length_append]
      omega

variable {n : Nat}

theorem length_le_of_nodup {l : List Nat} (hnd : l.Nodup) (hlt : ∀ p ∈ l, p < n) : l.length ≤ n := by
  have hsub : l ⊆ List.range n := fun p hp => List.mem_range.2 (hlt p hp)
  have := (List.subperm_of_subset hnd hsub).length_le
  rwa [List.length_range] at this

variable {look : Store K V} {next : Option Nat} {h : Nat}

omit [LinearOrder K] in
theorem Forest.length_pages {t : Tree K V h} (hf : Forest look n [t] next) : t.pages.length ≤ n := by
  have hnd := hf.nodup
  have hlt := hf.lt
  rw [List.flatMap_singleton] at hnd hlt
  exact length_le_of_nodup hnd hlt

theorem Forest.height_lt {t : Tree K V h} {lo hi : Bound K} (hf : Forest look n [t] next)
    (hw : t.Within lo hi) :
    h < n := lt_of_lt_of_le hw.height_lt hf.length_pages

omit [LinearOrder K] in
theorem Forest.length_leaves {t : Tree K V h} (hf : Forest look n [t] next) : t.leaves.length ≤ n :=
  le_trans t.length_leaves_le hf.length_pages

/-! ## Search -/

/-- Follow the tree from a node to the leaf that a key belongs to. -/
def descend (look : Store K V) : Nat → Nat → K → Option Nat
  | 0, _, _ => none
  | fuel + 1, p, key =>
    match look p with
    | some (.leaf _ _ _) => some p
    | some (.internal ks cs) =>
      cs[partitionPoint ks key]?.bind fun c => descend look fuel c key
    | none => none

theorem getElem?_append_length {A : Type} (l r : List A) (x : A) : (l ++ x :: r)[l.length]? = some x := by
  rw [List.getElem?_append_right le_rfl, Nat.sub_self]
  rfl

variable {lo hi l u : Bound K} {ks KA KB : List K}

theorem Focus.child_page {cs A B : List (Tree K V h)} {c : Tree K V h}
    (f : Focus (Tree.Within (h := h)) lo hi ks cs key A c B KA KB l u) :
    (cs.map Tree.page)[partitionPoint ks key]? = some c.page := by
  have hlen : partitionPoint ks key = (A.map page).length := by
    rw [List.length_map, f.length_children]
  rw [f.children, hlen, List.map_append, List.map_cons]
  exact getElem?_append_length _ _ _

theorem descend_node {n p : Nat} {cs A B : List (Tree K V h)} {c : Tree K V h}
    (hf : Forest look n [Tree.node p ks cs] next)
    (f : Focus (Tree.Within (h := h)) lo hi ks cs key A c B KA KB l u) (fuel : Nat) :
    descend look (fuel + 1) p key = descend look fuel c.page key := by
  rw [descend, hf.children.1]
  dsimp only
  rw [f.child_page]
  rfl

/-- The search finds the leaf: what lies before it is smaller than the key, what lies after it is
larger. -/
theorem descend_spec : ∀ {h : Nat} {t : Tree K V h}
    {next : Option Nat} {lo hi : Bound K} (fuel : Nat), Forest look n [t] next → t.Within lo hi →
      lo ≤ bound key → bound key < hi → h < fuel →
        ∃ pre l post, t.leaves = pre ++ l :: post ∧ descend look fuel t.page key = some l.1 ∧
          (∀ e ∈ pre.flatMap Prod.snd, e.1 < key) ∧ ∀ e ∈ post.flatMap Prod.snd, key < e.1 := by
  intro h
  induction h with
  | zero =>
    intro t next lo hi fuel hf hw _ _ hfuel
    obtain ⟨fuel, rfl⟩ := Nat.exists_eq_succ_of_ne_zero (Nat.ne_of_gt hfuel)
    obtain ⟨p, es⟩ := t
    refine ⟨[], (p, es), [], rfl, ?_, fun _ he => absurd he List.not_mem_nil, fun _ he => absurd he List.not_mem_nil⟩
    have hp : look p = some (.leaf (es.map fst) (es.map snd) _) := hf.rep.1
    show descend look (fuel + 1) p key = some p
    rw [descend, hp]
  | succ h ih =>
    intro t next lo hi fuel hf hw hlo hhi hfuel
    obtain ⟨fuel, rfl⟩ := Nat.exists_eq_succ_of_ne_zero (Nat.ne_of_gt (Nat.zero_lt_of_lt hfuel))
    obtain ⟨p, ks, cs⟩ := t
    obtain ⟨A, c, B, KA, KB, l, u, f⟩ := Ordered.focus (fun _ _ _ => Within.le) hw hlo hhi
    have hcs := hf.children.2.1
    rw [f.children] at hcs
    have hcB := hcs.parts.2.1
    rw [show c :: B = [c] ++ B from rfl] at hcB
    obtain ⟨pre, leaf, post, hleaves, hfound, hpre, hpost⟩ :=
      ih fuel hcB.parts.1 f.child f.le_key f.key_lt (Nat.lt_of_succ_lt_succ hfuel)
    obtain ⟨hA, hB⟩ := f.entries
    refine ⟨A.flatMap leaves ++ pre, leaf, post ++ B.flatMap leaves, ?_, ?_, ?_, ?_⟩
    · show cs.flatMap leaves = _
      rw [f.children, List.flatMap_append, List.flatMap_cons, hleaves]
      simp
    · exact (descend_node hf f fuel).trans hfound
    · intro e he
      rw [List.flatMap_append, List.flatMap_assoc] at he
      rcases mem_append.1 he with he | he
      · refine hA e ?_
        rwa [List.flatMap_congr fun c _ => c.leaves_entries] at he
      · exact hpre e he
    · intro e he
      rw [List.flatMap_append, List.flatMap_assoc] at he
      rcases mem_append.1 he with he | he
      · exact hpost e he
      · refine hB e ?_
        rwa [List.flatMap_congr fun c _ => c.leaves_entries] at he

theorem descend_of_mem {t : Tree K V h} {lo hi : Bound K} {fuel : Nat} (hf : Forest look n [t] next)
    (hw : t.Within lo hi) (hfuel : h < fuel) {l : Nat × List (K × V)} (hl : l ∈ t.leaves) {e : K × V}
    (he : e ∈ l.2) (hlo : lo ≤ bound e.1) (hhi : bound e.1 < hi) : descend look fuel t.page e.1 = some l.1 := by
  obtain ⟨pre, l', post, hleaves, hfound, hpre, hpost⟩ := descend_spec fuel hf hw hlo hhi hfuel
  rw [hleaves] at hl
  rcases List.mem_append.1 hl with hl | hl
  · exact absurd (hpre e (List.mem_flatMap.2 ⟨l, hl, he⟩)) (lt_irrefl _)
  · rcases mem_cons.1 hl with rfl | hl
    · exact hfound
    · exact absurd (hpost e (List.mem_flatMap.2 ⟨l, hl, he⟩)) (lt_irrefl _)

theorem descend_congr {look look' : Store K V} {p q : Nat} {fuel : Nat}
    (hinternal : ∀ r ks cs, look r = some (.internal ks cs) → look' r = some (.internal ks cs))
    (hleaf : ∀ r ks vs next, look r = some (.leaf ks vs next) → ∃ ks' vs' next', look' r = some (.leaf ks' vs' next'))
    (h : descend look fuel p key = some q) : descend look' fuel p key = some q := by
  induction fuel generalizing p with
  | zero => exact absurd h (by simp [descend])
  | succ fuel ih =>
    rw [descend] at h ⊢
    cases hp : look p with
    | none =>
      rw [hp] at h
      exact absurd h (by simp)
    | some s =>
      rw [hp] at h
      cases s with
      | leaf ks vs next =>
        obtain ⟨ks', vs', next', hp'⟩ := hleaf p ks vs next hp
        rw [hp']
        exact h
      | internal ks cs =>
        rw [hinternal p ks cs hp]
        obtain ⟨child, hchild, hrest⟩ := Option.bind_eq_some_iff.1 h
        exact Option.bind_eq_some_iff.2 ⟨child, hchild, ih hrest⟩

theorem find_leaves {pre post : List (Nat × List (K × V))} {l : Nat × List (K × V)}
    (hpre : ∀ e ∈ pre.flatMap Prod.snd, e.1 < key) (hpost : ∀ e ∈ post.flatMap Prod.snd, key < e.1) :
    find ((pre ++ l :: post).flatMap Prod.snd) key = find l.2 key := by
  have h1 : find (pre.flatMap snd) key = none :=
    find_eq_none.2 fun e he => ne_of_lt (hpre e he)
  have h2 : find (post.flatMap snd) key = none :=
    find_eq_none.2 fun e he => ne_of_gt (hpost e he)
  rw [List.flatMap_append, List.flatMap_cons, find_append, find_append, h1, h2, Option.none_or, Option.or_none]

/-! ## The linked leaves -/

/-- The store holds a leaf with the given entries and successor. -/
def LeafAt (look : Store K V) (l : Nat × List (K × V)) (next : Option Nat) : Prop :=
  look l.1 = some (.leaf (l.2.map Prod.fst) (l.2.map Prod.snd) next)

theorem Tree.Within.leaves_head : ∀ {h : Nat} {lo hi : Bound K} {t : Tree K V h}, t.Within lo hi →
    t.leaves.head?.map Prod.fst = some t.firstLeaf
  | 0, _, _, .leaf _ _, _ => rfl
  | _ + 1, _, _, .node _ ks cs, h => by
    have hlen := Ordered.length h
    match cs, hlen with
    | c :: cs, _ =>
      obtain ⟨l, u, hc, -⟩ := (Ordered.mem (fun _ _ _ => Within.le) h).2 c
        List.mem_cons_self
      have hhead := hc.leaves_head
      show ((c :: cs).flatMap leaves).head?.map fst = some (firstLeaf c)
      rw [List.flatMap_cons]
      cases hl : c.leaves with
      | nil => rw [hl] at hhead; exact absurd hhead (by simp)
      | cons x xs => rw [hl] at hhead; exact hhead

/-- The leaves are linked in order. -/
theorem Tree.Rep.chain : ∀ {h : Nat} {t : Tree K V h} {next : Option Nat}
    {lo hi : Bound K}, t.Rep look next → t.Within lo hi → Chained (LeafAt look) Prod.fst t.leaves next
  | 0, .leaf _ _, _, _, _, h, _ => ⟨h, trivial⟩
  | _ + 1, .node _ _ cs, _, _, _, h, hw => by
    have hmem := (Ordered.mem (fun _ _ _ => Within.le) hw).2
    refine Chained.flatMap leaves (fun c hc n hrep => ?_) (fun c hc => ?_) h.2
    · obtain ⟨l, u, hcw, -⟩ := hmem c hc
      exact hrep.chain hcw
    · obtain ⟨l, u, hcw, -⟩ := hmem c hc
      exact hcw.leaves_head

/-- The store holds a leaf under the number. -/
def IsLeaf (look : Store K V) (q : Nat) : Prop :=
  ∃ ks vs next, look q = some (.leaf ks vs next)

theorem Tree.Within.isLeaf_firstLeaf {t : Tree K V h} {lo hi : Bound K} (hw : t.Within lo hi)
    (hrep : t.Rep look next) : IsLeaf look t.firstLeaf := by
  have hhead := hw.leaves_head
  have hchain := hrep.chain hw
  cases hl : t.leaves with
  | nil => rw [hl] at hhead; exact absurd hhead (by simp)
  | cons l ls =>
    rw [hl] at hhead hchain
    have hfirst : l.1 = t.firstLeaf := Option.some.inj hhead
    rw [← hfirst]
    exact ⟨_, _, _, hchain.1⟩

theorem Focus.isLeaf_next {n p : Nat} {cs A B : List (Tree K V h)} {c : Tree K V h}
    (f : Focus (Tree.Within (h := h)) lo hi ks cs key A c B KA KB l u)
    (hf : Forest look n [Tree.node p ks cs] next) (hnext : ∀ q, next = some q → IsLeaf look q) :
    ∀ q, (B.head?.map Tree.firstLeaf).or next = some q → IsLeaf look q := by
  intro q hq
  cases B with
  | nil => exact hnext q hq
  | cons b B =>
    obtain ⟨l', u', hb, -⟩ := f.after b List.mem_cons_self
    have hcs := hf.children.2.1
    rw [f.children] at hcs
    have hcB := hcs.parts.2.1
    rw [show c :: b :: B = [c] ++ (b :: B) from rfl] at hcB
    have hfirst : b.firstLeaf = q := Option.some.inj hq
    exact hfirst ▸ hb.isLeaf_firstLeaf hcB.parts.2.1.rep.1

/-- The keys of a leaf from `start` on, with their values, and whether a key above `stop` has been
met. -/
def scanKeys (start stop : K) : List K → List V → Option (List (K × V) × Bool)
  | [], _ => some ([], false)
  | k :: ks, vs =>
    if k < start then scanKeys start stop ks vs.tail
    else if stop < k then some ([], true)
    else do
      let v ← vs.head?
      let (found, past) ← scanKeys start stop ks vs.tail
      some ((k, v) :: found, past)

/-- The walk over the linked leaves. -/
def scanLeaves (look : Store K V) (start stop : K) : Nat → Nat → Option (List (K × V))
  | 0, _ => none
  | fuel + 1, p =>
    match look p with
    | some (.leaf ks vs next) => do
      let (found, past) ← scanKeys start stop ks vs
      if past then some found
      else
        match next with
        | none => some found
        | some q => do
          let rest ← scanLeaves look start stop fuel q
          some (found ++ rest)
    | _ => none

/-- Whether a key lies in a range. -/
def inRange (start stop : K) (e : K × V) : Bool := start ≤ e.1 && e.1 ≤ stop

theorem scanKeys_spec (start stop : K) (hs : Sorted es) :
    ∃ past, scanKeys start stop (es.map Prod.fst) (es.map Prod.snd) = some (es.filter (inRange start stop), past) ∧
      (past = true → ∃ e ∈ es, stop < e.1) := by
  induction es with
  | nil => exact ⟨false, rfl, fun h => absurd h (by decide)⟩
  | cons e es ih =>
    obtain ⟨he, hs'⟩ := List.pairwise_cons.1 hs
    obtain ⟨past, hscan, hpast⟩ := ih hs'
    rw [map_cons, map_cons, scanKeys, List.filter_cons]
    by_cases hlt : e.1 < start
    · rw [if_pos hlt, if_neg (by simp [inRange, not_le.2 hlt]), List.tail_cons]
      exact ⟨past, hscan, fun h => (hpast h).imp fun d hd => ⟨mem_cons_of_mem _ hd.1, hd.2⟩⟩
    · rw [if_neg hlt]
      by_cases hgt : stop < e.1
      · -- every later key is above the end as well
        have hnone : es.filter (inRange start stop) = [] := by
          rw [List.filter_eq_nil_iff]
          intro d hd hin
          simp only [inRange, Bool.and_eq_true, decide_eq_true_eq] at hin
          exact absurd (lt_trans hgt (he d hd)) (not_lt.2 hin.2)
        rw [if_pos hgt, if_neg (by simp [inRange, not_le.2 hgt]), hnone]
        exact ⟨true, rfl, fun _ => ⟨e, mem_cons_self, hgt⟩⟩
      · rw [if_neg hgt, if_pos (by simp [inRange, not_lt.1 hlt, not_lt.1 hgt]), List.tail_cons,
          hscan]
        exact ⟨past, rfl, fun h => (hpast h).imp fun d hd => ⟨mem_cons_of_mem _ hd.1, hd.2⟩⟩

/-- The walk returns the entries of the range, from its first leaf on. -/
theorem scanLeaves_spec (start stop : K) {l : Nat × List (K × V)} {ls : List (Nat × List (K × V))}
    (hchain : Chained (LeafAt look) Prod.fst (l :: ls) none) (hs : Sorted ((l :: ls).flatMap Prod.snd))
    {fuel : Nat} (hfuel : ls.length < fuel) :
    scanLeaves look start stop fuel l.1 = some (((l :: ls).flatMap Prod.snd).filter (inRange start stop)) := by
  induction ls generalizing l fuel with
  | nil =>
    obtain ⟨fuel, rfl⟩ := Nat.exists_eq_succ_of_ne_zero (Nat.ne_of_gt hfuel)
    rw [List.flatMap_singleton] at hs ⊢
    obtain ⟨past, hscan, -⟩ := scanKeys_spec start stop hs
    have hl : look l.1 = some (.leaf (l.2.map fst) (l.2.map snd) none) := hchain.1
    rw [scanLeaves, hl]
    simp only [hscan, Option.bind_eq_bind, Option.bind_some, ite_self]
  | cons m ls ih =>
    obtain ⟨fuel, rfl⟩ := Nat.exists_eq_succ_of_ne_zero (Nat.ne_of_gt (Nat.zero_lt_of_lt hfuel))
    rw [List.flatMap_cons] at hs ⊢
    obtain ⟨hsl, hsrest, hcross⟩ := List.pairwise_append.1 hs
    obtain ⟨past, hscan, hpast⟩ := scanKeys_spec start stop hsl
    have hl : look l.1 = some (.leaf (l.2.map fst) (l.2.map snd) (some m.1)) := hchain.1
    have hrest := ih hchain.2 hsrest (Nat.lt_of_succ_lt_succ hfuel)
    rw [scanLeaves, hl, List.filter_append]
    simp only [hscan, Option.bind_eq_bind, Option.bind_some, hrest]
    cases past with
    | false => rfl
    | true =>
      obtain ⟨e, he, hgt⟩ := hpast rfl
      have hnone : ((m :: ls).flatMap snd).filter (inRange start stop) = [] := by
        rw [List.filter_eq_nil_iff]
        intro d hd hin
        simp only [inRange, Bool.and_eq_true, decide_eq_true_eq] at hin
        exact absurd (lt_trans hgt (hcross e he d hd)) (not_lt.2 hin.2)
      rw [hnone, List.append_nil]
      rfl

/-! ## Updates along a path -/

variable {upd : List (K × V) → List (K × V)}

theorem Focus.absorb {look look' : Store K V} {n n' p : Nat} {ks KA KB seps : List K}
    {cs A B ts : List (Tree K V h)} {c : Tree K V h}
    (f : Focus (Tree.Within (h := h)) lo hi ks cs key A c B KA KB l u)
    (hf : Forest look n [Tree.node p ks cs] next) (hupd : Local key upd)
    (hr : Replaced look n look' n' upd [c] ts ((B.head?.map Tree.firstLeaf).or next))
    (hts : Ordered (Tree.Within (h := h)) l seps ts u) : Replaced look n look' n' upd cs (A ++ ts ++ B) next ∧
      Ordered (Tree.Within (h := h)) lo (KA ++ seps ++ KB) (A ++ ts ++ B) hi := by
  obtain ⟨hA, hB⟩ := f.entries
  have hcs := hf.children.2.1
  rw [f.children] at hcs ⊢
  exact ⟨hr.context hcs hupd hA hB, f.fits seps ts hts⟩

theorem Focus.forest {n p : Nat} {cs A B : List (Tree K V h)} {c : Tree K V h}
    (f : Focus (Tree.Within (h := h)) lo hi ks cs key A c B KA KB l u)
    (hf : Forest look n [Tree.node p ks cs] next) :
    Forest look n [c] ((B.head?.map Tree.firstLeaf).or next) := by
  have hcs := hf.children.2.1
  rw [f.children] at hcs
  have hcB := hcs.parts.2.1
  rw [show c :: B = [c] ++ B from rfl] at hcB
  exact hcB.parts.1

theorem Focus.whole {look look' : Store K V} {n n' p : Nat} {cs A B : List (Tree K V h)} {c c' : Tree K V h}
    (f : Focus (Tree.Within (h := h)) lo hi ks cs key A c B KA KB l u)
    (hf : Forest look n [Tree.node p ks cs] next) (hupd : Local key upd)
    (hr : Replaced look n look' n' upd [c] [c'] ((B.head?.map Tree.firstLeaf).or next)) (hw : c'.Within l u)
    (hpage : c'.page = c.page) :
    Replaced look n look' n' upd [Tree.node p ks cs] [Tree.node p ks (A ++ [c'] ++ B)] next ∧
      (Tree.node p ks (A ++ [c'] ++ B) : Tree K V (h + 1)).Within lo hi := by
  have hts : Ordered (Within (h := h)) l [] [c'] u := hw
  obtain ⟨hcs, hord⟩ := f.absorb hf hupd hr hts
  obtain ⟨hp, -, hpcs, hpn⟩ := hf.children
  have hids : (A ++ [c'] ++ B).map page = cs.map page := by
    rw [f.children]
    simp [hpage]
  refine ⟨hcs.node hf ?_ fun _ _ => rfl, ?_⟩
  · rw [hcs.frame p hpn hpcs, hp, hids]
  · rw [List.append_nil, ← f.keys] at hord
    exact hord

/-- An edit of the leaf a key belongs to is an update of the tree. -/
theorem Replaced.atLeaf {look look' : Store K V} {n p : Nat} (hupd : Local key upd)
    (hkeep : ∀ (lo hi : Bound K) (q : Nat) (es : List (K × V)), Tree.Within lo hi (.leaf q es) → Tree.Within lo hi (.leaf q (upd es)))
    (hp : ∀ (es : List (K × V)) (nx : Option Nat), look p = some (.leaf (es.map Prod.fst) (es.map Prod.snd) nx) → look' p = some (.leaf ((upd es).map Prod.fst) ((upd es).map Prod.snd) nx))
    (hother : ∀ q < n, q ≠ p → look' q = look q) : ∀ {h : Nat} {t : Tree K V h}
    {next : Option Nat} {lo hi : Bound K} (fuel : Nat), Forest look n [t] next → t.Within lo hi →
      lo ≤ bound key → bound key < hi → descend look fuel t.page key = some p →
        ∃ t' : Tree K V h, t'.page = t.page ∧ t'.Within lo hi ∧ Replaced look n look' n upd [t] [t'] next := by
  intro h
  induction h with
  | zero =>
    intro t next lo hi fuel hf hw _ _ hfound
    obtain ⟨q, es⟩ := t
    have hq : look q = some (.leaf (es.map fst) (es.map snd) next) := hf.rep.1
    cases fuel with
    | zero => exact absurd hfound (by simp [descend])
    | succ fuel =>
      have heq : q = p := by
        change descend look (fuel + 1) q key = some p at hfound
        rw [descend, hq] at hfound
        exact Option.some.inj hfound
      subst heq
      exact ⟨.leaf q (upd es), rfl, hkeep _ _ q es hw, Replaced.leaf hf rfl (hp es next hq) hother⟩
  | succ h ih =>
    intro t next lo hi fuel hf hw hlo hhi hfound
    obtain ⟨q, ks, cs⟩ := t
    obtain ⟨A, c, B, KA, KB, l, u, f⟩ := Ordered.focus (fun _ _ _ => Within.le) hw hlo hhi
    cases fuel with
    | zero => exact absurd hfound (by simp [descend])
    | succ fuel =>
      change descend look (fuel + 1) q key = some p at hfound
      rw [descend_node hf f fuel] at hfound
      obtain ⟨c', hpage, hc', hr⟩ := ih fuel (f.forest hf) f.child f.le_key f.key_lt hfound
      obtain ⟨hnode, hnodew⟩ := f.whole hf hupd hr hc' hpage
      exact ⟨Tree.node q ks (A ++ [c'] ++ B), rfl, hnodew, hnode⟩

/-! ## Insertion -/

/-- What a recursive insertion returns: nothing, when one tree with the same number has taken the
place of the old one, or the promoted key and the number of the right half. -/
inductive SplitResult {h : Nat} (t : Tree K V h) :
    Option (K × Nat) → List K → List (Tree K V h) → Prop
  | whole (t' : Tree K V h) : t'.page = t.page → SplitResult t none [] [t']
  | split (m : K) (l r : Tree K V h) : l.page = t.page →
      SplitResult t (some (m, r.page)) [m] [l, r]

theorem Focus.insertIdx {cs A B : List (Tree K V h)} {c left : Tree K V h}
    (f : Focus (Tree.Within (h := h)) lo hi ks cs key A c B KA KB l u) (m : K) (right : Tree K V h)
    (hpage : left.page = c.page) : ks.insertIdx (partitionPoint ks key) m = KA ++ [m] ++ KB ∧
      (cs.map Tree.page).insertIdx (partitionPoint ks key + 1) right.page =
        (A ++ [left, right] ++ B).map Tree.page := by
  constructor
  · rw [← f.length_keys, f.keys, insertIdx_append]
    simp
  · have hlen : partitionPoint ks key + 1 = (A.map page ++ [c.page]).length := by
      rw [List.length_append, List.length_map, f.length_children]
      rfl
    have hcs : cs.map page = (A.map page ++ [c.page]) ++ B.map page := by
      rw [f.children]
      simp
    rw [hcs, hlen, insertIdx_append]
    simp [hpage]

omit [LinearOrder K] in
theorem Ordered.halves {C : Type} {W : Bound K → Bound K → C → Prop} {lo hi : Bound K}
    {ks : List K} {cs : List C} {m : K} {mid : Nat} (h : Ordered W lo ks cs hi) (hm : ks[mid]? = some m) :
    Ordered W lo (ks.take mid) (cs.take (mid + 1)) (bound m) ∧
      Ordered W (bound m) (ks.drop (mid + 1)) (cs.drop (mid + 1)) hi := by
  obtain ⟨hlt, hget⟩ := List.getElem?_eq_some_iff.1 hm
  have hlen := Ordered.length h
  refine Ordered.cut ?_ ?_
  · rw [List.length_take, List.length_take]
    omega
  · rw [List.take_append_drop, ← hget, ← List.drop_eq_getElem_cons hlt, List.take_append_drop]
    exact h

/-! ## The root -/

omit [LinearOrder K] in
theorem Tree.Rep.setPage {look look' : Store K V} {q : Nat} : ∀ {h : Nat} {t : Tree K V h}
    {next : Option Nat}, t.Rep look next → look' q = look t.page →
      (∀ p ∈ t.below, look' p = look p) → (t.setPage q).Rep look' next
  | 0, .leaf _ _, _, h, hq, _ => hq.trans h
  | _ + 1, .node _ _ cs, _, h, hq, hbelow => by
    refine ⟨hq.trans h.1, Chained.imp (fun c hc n hrep => ?_) h.2⟩
    exact Rep.congr (fun p hp => hbelow p (List.mem_flatMap.2 ⟨c, hc, hp⟩)) hrep

omit [LinearOrder K] in
/-- The tree grows at its root: the old root moves to a new number, and a new root over both
halves takes its place. -/
theorem Forest.grow {look look' : Store K V} {n root : Nat} {l r : Tree K V h} {m : K}
    (hf : Forest look n [l, r] none) (hl : l.page = root)
    (hroot : look' root = some (.internal [m] [n, r.page])) (hnew : look' n = look root)
    (hother : ∀ q < n, q ≠ root → look' q = look q) :
    Forest look' (n + 1) [Tree.node root [m] [l.setPage n, r]] none := by
  have hflat : ([l, r] : List (Tree K V h)).flatMap pages = l.page :: l.below ++ r.pages := by
    rw [List.flatMap_cons, List.flatMap_singleton, l.pages_eq]
  have hnd := hf.nodup
  have hlt := hf.lt
  rw [hflat] at hnd hlt
  obtain ⟨hndL, hndR, hdisj⟩ := List.nodup_append'.1 hnd
  obtain ⟨hrootL, hbelow⟩ := List.nodup_cons.1 hndL
  have hpages : ([node root [m] [l.setPage n, r]] : List (Tree K V (h + 1))).flatMap
      pages = root :: ((n :: l.below) ++ r.pages) := by
    rw [List.flatMap_singleton]
    show root :: [l.setPage n, r].flatMap pages = _
    rw [List.flatMap_cons, List.flatMap_singleton, pages_eq, page_setPage, below_setPage]
  have hsameL : ∀ p ∈ l.below, look' p = look p := fun p hp =>
    hother p (hlt p (List.mem_append_left _ (mem_cons_of_mem _ hp)))
      fun heq => hrootL (hl ▸ heq ▸ hp)
  have hsameR : ∀ p ∈ r.pages, look' p = look p := fun p hp =>
    hother p (hlt p (List.mem_append_right _ hp))
      fun heq => hdisj (mem_cons_self) (by rw [hl, ← heq]; exact hp)
  have hchildren : [l.setPage n, r].map page = [n, r.page] := by
    simp [page_setPage]
  refine ⟨⟨⟨hchildren ▸ hroot, ?_, hf.rep.2.1.congr hsameR, trivial⟩, trivial⟩, ?_, ?_⟩
  · exact hf.rep.1.setPage (hl ▸ hnew) hsameL
  · rw [hpages, List.nodup_cons, List.cons_append, List.nodup_cons, List.nodup_append']
    have hfresh : ∀ p ∈ l.below ++ r.pages, p ≠ n := fun p hp =>
      ne_of_lt (hlt p (mem_cons_of_mem _ hp))
    refine ⟨fun hmem => ?_, fun hmem => hfresh n hmem rfl, hbelow, hndR,
      fun p hp hp' => hdisj (mem_cons_of_mem _ hp) hp'⟩
    have hrootlt := hlt root (hl ▸ mem_cons_self)
    rcases mem_cons.1 hmem with heq | hmem
    · exact ne_of_lt hrootlt heq
    · rcases mem_append.1 hmem with hmem | hmem
      · exact hrootL (hl.symm ▸ hmem)
      · exact hdisj mem_cons_self (hl.symm ▸ hmem)
  · intro p hp
    rw [hpages] at hp
    rcases mem_cons.1 hp with rfl | hp
    · exact Nat.lt_succ_of_lt (hlt p (hl ▸ mem_cons_self))
    · rcases mem_cons.1 hp with rfl | hp
      · exact Nat.lt_succ_self _
      · exact Nat.lt_succ_of_lt (hlt p (mem_cons_of_mem _ hp))

theorem Tree.firstLeaf_mem_below : ∀ {h : Nat} {lo hi : Bound K} {t : Tree K V (h + 1)},
    t.Within lo hi → t.firstLeaf ∈ t.below
  | h, _, _, .node _ ks cs, hw => by
    have hlen := Ordered.length hw
    match cs, hlen with
    | c :: cs, _ =>
      obtain ⟨l, u, hc, -⟩ := (Ordered.mem (fun _ _ _ => Within.le) hw).2 c
        List.mem_cons_self
      show firstLeaf c ∈ (c :: cs).flatMap pages
      rw [List.flatMap_cons]
      refine List.mem_append_left _ ?_
      cases h with
      | zero =>
        obtain ⟨p, es⟩ := c
        exact mem_cons_self
      | succ h =>
        rw [pages_eq]
        exact mem_cons_of_mem _ (firstLeaf_mem_below hc)

theorem Forest.firstLeaf_setPage {t : Tree K V h} {lo hi : Bound K} (hf : Forest look n [t] next)
    (hw : t.Within lo hi) (q : Nat) : (t.setPage q).firstLeaf = if t.firstLeaf = t.page then q else t.firstLeaf := by
  cases h with
  | zero =>
    obtain ⟨p, es⟩ := t
    exact (if_pos rfl).symm
  | succ h =>
    have hnd := hf.nodup
    rw [List.flatMap_singleton, pages_eq, List.nodup_cons] at hnd
    have hne : t.firstLeaf ≠ t.page := fun heq =>
      hnd.1 (heq ▸ firstLeaf_mem_below hw)
    rw [if_neg hne]
    obtain ⟨p, ks, cs⟩ := t
    rfl

end Ops

end SystemDesignLabs.Core.BPlusTree
