import SystemDesignLabs.Core.SortedMap

/-!
# B+ trees in a store of nodes

A store maps node numbers to nodes: leaves with keys, values and the number of the next leaf, and
internal nodes with separators and the numbers of their children. A `Tree` of height `h` is the
shape that a store holds, with its entries in the leaves; `Tree.Rep` says that the store holds it
and that its leaves are linked in order, and `Tree.Within` that the separators bound the entries of
the subtrees.

The rules for a search are `Ordered.focus`, which finds the child a key belongs to, and
`Tree.Rep.chain`, which gives the linked list of leaves. The rules for an update speak of
`Replaced`: a list of trees of one height has taken the place of another one, in a changed store,
and its entries are those of the old one after an operation on one key. `Replaced.context` puts the
replaced children between their siblings, `Replaced.node` and `Replaced.split` go one level up.
-/

namespace SystemDesignLabs.Core.BPlusTree

open List SortedList Or

/-! ## Nodes and trees -/

/-- What a store holds under a node number. -/
inductive Shape (K V : Type) where
  | leaf (keys : List K) (values : List V) (next : Option Nat)
  | internal (keys : List K) (children : List Nat)

/-- A leaf with its number. -/
structure LeafTree (K V : Type) where
  page : Nat
  entries : List (K × V)

/-- An internal node with its number. -/
structure NodeTree (K C : Type) where
  page : Nat
  keys : List K
  children : List C

/-- A tree whose leaves all have depth `h`. -/
def Tree (K V : Type) : Nat → Type
  | 0 => LeafTree K V
  | h + 1 => NodeTree K (Tree K V h)

namespace Tree

variable {K V : Type}

@[match_pattern] def leaf (page : Nat) (entries : List (K × V)) : Tree K V 0 := ⟨page, entries⟩

@[match_pattern] def node {h : Nat} (page : Nat) (keys : List K) (children : List (Tree K V h)) :
    Tree K V (h + 1) := ⟨page, keys, children⟩

/-- The number of the root. -/
def page : {h : Nat} → Tree K V h → Nat
  | 0, .leaf p _ => p
  | _ + 1, .node p _ _ => p

/-- The entries of the leaves, in order. -/
def entries : {h : Nat} → Tree K V h → List (K × V)
  | 0, .leaf _ es => es
  | _ + 1, .node _ _ cs => cs.flatMap entries

/-- The numbers of all nodes. -/
def pages : {h : Nat} → Tree K V h → List Nat
  | 0, .leaf p _ => [p]
  | _ + 1, .node p _ cs => p :: cs.flatMap pages

/-- The leaves with their entries, in order. -/
def leaves : {h : Nat} → Tree K V h → List (Nat × List (K × V))
  | 0, .leaf p es => [(p, es)]
  | _ + 1, .node _ _ cs => cs.flatMap leaves

/-- The number of the first leaf. -/
def firstLeaf : {h : Nat} → Tree K V h → Nat
  | 0, .leaf p _ => p
  | _ + 1, .node _ _ cs => (cs.head?.map firstLeaf).getD 0

/-- The same tree with another number for the root. -/
def setPage (q : Nat) : {h : Nat} → Tree K V h → Tree K V h
  | 0, .leaf _ es => .leaf q es
  | _ + 1, .node _ ks cs => .node q ks cs

theorem entries_setPage (q : Nat) : ∀ {h : Nat} (t : Tree K V h), (t.setPage q).entries = t.entries
  | 0, .leaf _ _ => rfl
  | _ + 1, .node _ _ _ => rfl

theorem page_setPage (q : Nat) : ∀ {h : Nat} (t : Tree K V h), (t.setPage q).page = q
  | 0, .leaf _ _ => rfl
  | _ + 1, .node _ _ _ => rfl

/-- The numbers of the nodes below the root. -/
def below : {h : Nat} → Tree K V h → List Nat
  | 0, .leaf _ _ => []
  | _ + 1, .node _ _ cs => cs.flatMap pages

theorem pages_eq : ∀ {h : Nat} (t : Tree K V h), t.pages = t.page :: t.below
  | 0, .leaf _ _ => rfl
  | _ + 1, .node _ _ _ => rfl

theorem below_setPage (q : Nat) : ∀ {h : Nat} (t : Tree K V h), (t.setPage q).below = t.below
  | 0, .leaf _ _ => rfl
  | _ + 1, .node _ _ _ => rfl

theorem leaves_entries : ∀ {h : Nat} (t : Tree K V h), t.leaves.flatMap Prod.snd = t.entries
  | 0, .leaf _ es => append_nil es
  | _ + 1, .node _ _ cs => by
    show (cs.flatMap leaves).flatMap Prod.snd = cs.flatMap entries
    rw [flatMap_assoc]
    exact flatMap_congr fun c _ => leaves_entries c

theorem length_leaves_le : ∀ {h : Nat} (t : Tree K V h), t.leaves.length ≤ t.pages.length
  | 0, .leaf _ _ => le_rfl
  | _ + 1, .node _ _ cs => by
    show (cs.flatMap leaves).length ≤ (cs.flatMap pages).length + 1
    refine Nat.le_succ_of_le ?_
    induction cs with
    | nil => exact le_rfl
    | cons c cs ih =>
      rw [flatMap_cons, flatMap_cons, length_append, length_append]
      exact Nat.add_le_add (length_leaves_le c) ih

end Tree

/-! ## Bounds -/

section Bounds

variable {K : Type}

/-- A bound of a range of keys. -/
abbrev Bound (K : Type) := WithBot (WithTop K)

/-- A key as a bound. -/
def bound (k : K) : Bound K := ((k : WithTop K) : WithBot (WithTop K))

section Keys

variable [LinearOrder K]

theorem bound_le_bound {a b : K} : bound a ≤ bound b ↔ a ≤ b := by
  rw [bound, bound, WithBot.coe_le_coe, WithTop.coe_le_coe]

theorem bound_lt_bound {a b : K} : bound a < bound b ↔ a < b := by
  rw [bound, bound, WithBot.coe_lt_coe, WithTop.coe_lt_coe]

theorem bot_le_bound (a : K) : (⊥ : Bound K) ≤ bound a := bot_le

theorem bound_lt_top (a : K) : bound a < (⊤ : Bound K) := by
  show ((a : WithTop K) : WithBot (WithTop K)) < ((⊤ : WithTop K) : WithBot (WithTop K))
  rw [WithBot.coe_lt_coe]
  exact WithTop.coe_lt_top a

/-- How many keys, from the left, are not above the given one. -/
def partitionPoint (keys : List K) (key : K) : Nat := (keys.takeWhile fun k => k ≤ key).length

theorem partitionPoint_cons (k : K) (keys : List K) (key : K) :
    partitionPoint (k :: keys) key = if k ≤ key then partitionPoint keys key + 1 else 0 := by
  by_cases h : k ≤ key
  · simp [partitionPoint, h]
  · simp [partitionPoint, h]

end Keys

/-! ## Separators -/

variable {C : Type} {W : Bound K → Bound K → C → Prop}

/-- Each child is as `W` says between its two separators. -/
def Ordered (W : Bound K → Bound K → C → Prop) : Bound K → List K → List C → Bound K → Prop
  | lo, [], [c], hi => W lo hi c
  | lo, k :: ks, c :: cs, hi => W lo (bound k) c ∧ Ordered W (bound k) ks cs hi
  | _, _, _, _ => False

variable {lo hi : Bound K} {ks : List K} {cs : List C}

theorem Ordered.length (h : Ordered W lo ks cs hi) : cs.length = ks.length + 1 := by
  induction ks generalizing lo cs with
  | nil =>
    match cs, h with
    | [_], _ => rfl
  | cons k ks ih =>
    match cs, h with
    | _ :: cs, h => exact congrArg (· + 1) (ih h.2)

theorem Ordered.glue {ks' : List K} {cs' : List C} {m : K} (h : Ordered W lo ks cs (bound m))
    (h' : Ordered W (bound m) ks' cs' hi) : Ordered W lo (ks ++ m :: ks') (cs ++ cs') hi := by
  induction ks generalizing lo cs with
  | nil =>
    match cs, h with
    | [_], h => exact ⟨h, h'⟩
  | cons k ks ih =>
    match cs, h with
    | _ :: _, h => exact ⟨h.1, ih h.2⟩

theorem Ordered.cut {ks' : List K} {cs' : List C} {m : K} (hlen : cs.length = ks.length + 1)
    (h : Ordered W lo (ks ++ m :: ks') (cs ++ cs') hi) :
    Ordered W lo ks cs (bound m) ∧ Ordered W (bound m) ks' cs' hi := by
  induction ks generalizing lo cs with
  | nil =>
    match cs, hlen with
    | [_], _ => exact h
  | cons k ks ih =>
    match cs, hlen with
    | _ :: cs, hlen =>
      obtain ⟨hl, hr⟩ := ih (by simpa using hlen) h.2
      exact ⟨⟨h.1, hl⟩, hr⟩

variable [LinearOrder K]

theorem Ordered.mem (hW : ∀ l u c, W l u c → l ≤ u) (h : Ordered W lo ks cs hi) :
    lo ≤ hi ∧ ∀ c ∈ cs, ∃ l u, W l u c ∧ lo ≤ l ∧ u ≤ hi := by
  induction ks generalizing lo cs with
  | nil =>
    match cs, h with
    | [c], h =>
      refine ⟨hW lo hi c h, fun d hd => ?_⟩
      rw [mem_singleton.1 hd]
      exact ⟨lo, hi, h, le_rfl, le_rfl⟩
  | cons k ks ih =>
    match cs, h with
    | c :: cs, h =>
      obtain ⟨hle, hmem⟩ := ih h.2
      have hlo := hW _ _ _ h.1
      refine ⟨le_trans hlo hle, fun d hd => ?_⟩
      rcases mem_cons.1 hd with rfl | hd
      · exact ⟨lo, bound k, h.1, le_rfl, hle⟩
      · obtain ⟨l, u, hd', hl, hu⟩ := hmem d hd
        exact ⟨l, u, hd', le_trans hlo hl, hu⟩

/-- The child that a key belongs to, with its siblings; a chain that takes the place of the child
fits between the siblings. -/
structure Focus (W : Bound K → Bound K → C → Prop) (lo hi : Bound K) (ks : List K) (cs : List C)
    (key : K) (A : List C) (c : C) (B : List C) (KA KB : List K) (l u : Bound K) : Prop where
  children : cs = A ++ c :: B
  keys : ks = KA ++ KB
  length_children : A.length = partitionPoint ks key
  length_keys : KA.length = partitionPoint ks key
  lo_le : lo ≤ l
  le_hi : u ≤ hi
  le_key : l ≤ bound key
  key_lt : bound key < u
  child : W l u c
  before : ∀ a ∈ A, ∃ l' u', W l' u' a ∧ u' ≤ l
  after : ∀ b ∈ B, ∃ l' u', W l' u' b ∧ u ≤ l'
  fits : ∀ seps ts, Ordered W l seps ts u → Ordered W lo (KA ++ seps ++ KB) (A ++ ts ++ B) hi

/-- Every key belongs to a child. -/
theorem Ordered.focus (hW : ∀ l u c, W l u c → l ≤ u) (h : Ordered W lo ks cs hi) {key : K}
    (hlo : lo ≤ bound key) (hhi : bound key < hi) : ∃ A c B KA KB l u, Focus W lo hi ks cs key A c B KA KB l u := by
  induction ks generalizing lo cs with
  | nil =>
    match cs, h with
    | [c], h =>
      exact ⟨[], c, [], [], [], lo, hi, rfl, rfl, rfl, rfl, le_rfl, le_rfl, hlo, hhi, h,
        fun _ ha => absurd ha not_mem_nil, fun _ hb => absurd hb not_mem_nil,
        fun seps ts hts => by simpa using hts⟩
  | cons k ks ih =>
    match cs, h with
    | c :: cs, h =>
      have hpoint := partitionPoint_cons k ks key
      by_cases hk : k ≤ key
      · -- the key belongs to a later child
        obtain ⟨A, d, B, KA, KB, l, u, f⟩ := ih h.2 (bound_le_bound.2 hk)
        rw [if_pos hk] at hpoint
        refine ⟨c :: A, d, B, k :: KA, KB, l, u, ?_, ?_, ?_, ?_, ?_, f.le_hi, f.le_key,
          f.key_lt, f.child, ?_, f.after, ?_⟩
        · rw [f.children, cons_append]
        · rw [f.keys, cons_append]
        · rw [hpoint, length_cons, f.length_children]
        · rw [hpoint, length_cons, f.length_keys]
        · exact le_trans (hW _ _ _ h.1) f.lo_le
        · intro a ha
          rcases mem_cons.1 ha with rfl | ha
          · exact ⟨lo, bound k, h.1, f.lo_le⟩
          · exact f.before a ha
        · exact fun seps ts hts => ⟨h.1, f.fits seps ts hts⟩
      · -- the key belongs to the first child
        rw [if_neg hk] at hpoint
        obtain ⟨hle, hmem⟩ := Ordered.mem hW h.2
        refine ⟨[], c, cs, [], k :: ks, lo, bound k, rfl, rfl, hpoint.symm, hpoint.symm, le_rfl, hle, hlo,
          bound_lt_bound.2 (not_le.1 hk), h.1, fun _ ha => absurd ha not_mem_nil, ?_, ?_⟩
        · intro b hb
          obtain ⟨l, u, hb', hl, -⟩ := hmem b hb
          exact ⟨l, u, hb', hl⟩
        · exact fun seps ts hts => hts.glue h.2

end Bounds

/-! ## Entries between bounds -/

section Within

variable {K V : Type} [LinearOrder K]

/-- The entries are sorted and lie between the bounds, and so do those of every subtree between its
separators. -/
def Tree.Within : {h : Nat} → Bound K → Bound K → Tree K V h → Prop
  | 0, lo, hi, .leaf _ es =>
    lo ≤ hi ∧ Sorted es ∧ ∀ e ∈ es, lo ≤ bound e.1 ∧ bound e.1 < hi
  | h + 1, lo, hi, .node _ ks cs => Ordered (Tree.Within (h := h)) lo ks cs hi

theorem Tree.Within.le : ∀ {h : Nat} {lo hi : Bound K} {t : Tree K V h}, t.Within lo hi → lo ≤ hi
  | 0, _, _, .leaf _ _, h => h.1
  | _ + 1, _, _, .node _ _ _, h => (Ordered.mem (fun _ _ _ => Tree.Within.le) h).1

theorem Ordered.entries {C : Type} {W : Bound K → Bound K → C → Prop} (f : C → List (K × V))
    (hW : ∀ l u c, W l u c → l ≤ u ∧ Sorted (f c) ∧ ∀ e ∈ f c, l ≤ bound e.1 ∧ bound e.1 < u)
    {lo hi : Bound K} {ks : List K} {cs : List C} (h : Ordered W lo ks cs hi) :
    Sorted (cs.flatMap f) ∧ ∀ e ∈ cs.flatMap f, lo ≤ bound e.1 ∧ bound e.1 < hi := by
  have hle : ∀ l u c, W l u c → l ≤ u := fun l u c hc => (hW l u c hc).1
  induction ks generalizing lo cs with
  | nil =>
    match cs, h with
    | [c], h =>
      rw [flatMap_cons, flatMap_nil, append_nil]
      exact (hW _ _ _ h).2
  | cons k ks ih =>
    match cs, h with
    | c :: cs, h =>
      obtain ⟨hlo, hsorted, hbounds⟩ := hW _ _ _ h.1
      obtain ⟨hsorted', hbounds'⟩ := ih h.2
      have hhi := (Ordered.mem hle h.2).1
      rw [flatMap_cons]
      refine ⟨pairwise_append.2 ⟨hsorted, hsorted', fun e he e' he' => ?_⟩, fun e he => ?_⟩
      · exact bound_lt_bound.1 (lt_of_lt_of_le (hbounds e he).2 (hbounds' e' he').1)
      · rcases mem_append.1 he with he | he
        · exact ⟨(hbounds e he).1, lt_of_lt_of_le (hbounds e he).2 hhi⟩
        · exact ⟨le_trans hlo (hbounds' e he).1, (hbounds' e he).2⟩

theorem Tree.Within.entries : ∀ {h : Nat} {lo hi : Bound K} {t : Tree K V h}, t.Within lo hi →
    Sorted t.entries ∧ ∀ e ∈ t.entries, lo ≤ bound e.1 ∧ bound e.1 < hi
  | 0, _, _, .leaf _ _, h => h.2
  | _ + 1, _, _, .node _ _ _, h =>
    Ordered.entries Tree.entries (fun _ _ _ hc => ⟨hc.le, hc.entries⟩) h

theorem Tree.Within.setPage (q : Nat) : ∀ {h : Nat} {lo hi : Bound K} {t : Tree K V h},
    t.Within lo hi → (t.setPage q).Within lo hi
  | 0, _, _, .leaf _ _, h => h
  | _ + 1, _, _, .node _ _ _, h => h

theorem Focus.entries {h : Nat} {lo hi l u : Bound K} {ks KA KB : List K} {key : K}
    {cs A B : List (Tree K V h)} {c : Tree K V h} (f : Focus (Tree.Within (h := h)) lo hi ks cs key A c B KA KB l u) :
    (∀ e ∈ A.flatMap Tree.entries, e.1 < key) ∧ ∀ e ∈ B.flatMap Tree.entries, key < e.1 := by
  constructor
  · intro e he
    obtain ⟨a, ha, he⟩ := mem_flatMap.1 he
    obtain ⟨l', u', hW, hu⟩ := f.before a ha
    exact bound_lt_bound.1 (lt_of_lt_of_le ((hW.entries.2 e he).2) (le_trans hu f.le_key))
  · intro e he
    obtain ⟨b, hb, he⟩ := mem_flatMap.1 he
    obtain ⟨l', u', hW, hl⟩ := f.after b hb
    exact bound_lt_bound.1 (lt_of_lt_of_le f.key_lt (le_trans hl (hW.entries.2 e he).1))

end Within

/-! ## Trees in a store -/

section Stored

variable {K V : Type}

/-- A store of nodes. -/
abbrev Store (K V : Type) := Nat → Option (Shape K V)

/-- Items that are linked in order: the successor of an item is the first leaf of the next item, or
`next` for the last one. -/
def Chained {C : Type} (R : C → Option Nat → Prop) (first : C → Nat) : List C → Option Nat → Prop
  | [], _ => True
  | c :: cs, next => R c ((cs.head?.map first).or next) ∧ Chained R first cs next

/-- The store holds the tree, and `next` is the successor of its last leaf. -/
def Tree.Rep (look : Store K V) : {h : Nat} → Tree K V h → Option Nat → Prop
  | 0, .leaf p es, next => look p = some (.leaf (es.map Prod.fst) (es.map Prod.snd) next)
  | _ + 1, .node p ks cs, next =>
    look p = some (.internal ks (cs.map Tree.page)) ∧
      Chained (Tree.Rep look) Tree.firstLeaf cs next

variable {next : Option Nat}

theorem Chained.append {C : Type} {R : C → Option Nat → Prop} {first : C → Nat} {cs ds : List C} :
    Chained R first (cs ++ ds) next ↔ Chained R first cs ((ds.head?.map first).or next) ∧ Chained R first ds next := by
  induction cs with
  | nil => exact (and_iff_right trivial).symm
  | cons c cs ih =>
    show R c _ ∧ Chained R first (cs ++ ds) next ↔ (R c _ ∧ Chained R first cs _) ∧ _
    rw [ih, and_assoc]
    cases cs with
    | nil => rfl
    | cons d cs => rfl

theorem Chained.imp {C : Type} {R R' : C → Option Nat → Prop} {first : C → Nat} {cs : List C}
    (himp : ∀ c ∈ cs, ∀ n, R c n → R' c n) (h : Chained R first cs next) : Chained R' first cs next := by
  induction cs with
  | nil => trivial
  | cons c cs ih =>
    exact ⟨himp c mem_cons_self _ h.1, ih (fun d hd => himp d (mem_cons_of_mem _ hd)) h.2⟩

theorem Chained.flatMap {C D : Type} {R : C → Option Nat → Prop} {R' : D → Option Nat → Prop}
    {first : C → Nat} {first' : D → Nat} (f : C → List D) {cs : List C}
    (himp : ∀ c ∈ cs, ∀ n, R c n → Chained R' first' (f c) n)
    (hfirst : ∀ c ∈ cs, (f c).head?.map first' = some (first c)) (h : Chained R first cs next) :
    Chained R' first' (cs.flatMap f) next := by
  induction cs with
  | nil => trivial
  | cons c cs ih =>
    rw [forall_mem_cons] at himp hfirst
    have hrest := ih himp.2 hfirst.2 h.2
    rw [flatMap_cons, Chained.append]
    refine ⟨?_, hrest⟩
    have hhead : ((cs.flatMap f).head?.map first').or next = (cs.head?.map first).or next := by
      cases cs with
      | nil => rfl
      | cons d cs =>
        have hd := hfirst.2 d mem_cons_self
        rw [flatMap_cons]
        cases hfd : f d with
        | nil => rw [hfd] at hd; exact absurd hd (by simp)
        | cons x xs =>
          rw [hfd] at hd
          exact congrArg (fun o => Option.or o next) hd
    rw [hhead]
    exact himp.1 _ h.1

variable {look look' : Store K V}

theorem Tree.Rep.congr : ∀ {h : Nat} {t : Tree K V h} {next : Option Nat},
    (∀ p ∈ t.pages, look' p = look p) → t.Rep look next → t.Rep look' next
  | 0, .leaf p _, _, hpages, h => (hpages p mem_cons_self).trans h
  | _ + 1, .node p _ _, _, hpages, h => by
    refine ⟨(hpages p mem_cons_self).trans h.1, Chained.imp (fun c hc n hrep => ?_) h.2⟩
    exact Tree.Rep.congr (fun q hq => hpages q (mem_cons_of_mem _ (mem_flatMap.2 ⟨c, hc, hq⟩))) hrep

/-- The store holds trees side by side, with node numbers below `n`. -/
structure Forest {h : Nat} (look : Store K V) (n : Nat) (ts : List (Tree K V h))
    (next : Option Nat) : Prop where
  rep : Chained (Tree.Rep look) Tree.firstLeaf ts next
  nodup : (ts.flatMap Tree.pages).Nodup
  lt : ∀ p ∈ ts.flatMap Tree.pages, p < n

variable {h : Nat}

theorem Forest.congr {n n' : Nat} {ts : List (Tree K V h)} (hf : Forest look n ts next) (hn : n ≤ n')
    (hpages : ∀ p ∈ ts.flatMap Tree.pages, look' p = look p) : Forest look' n' ts next := by
  refine ⟨Chained.imp (fun c hc m hrep => ?_) hf.rep, hf.nodup, fun p hp => lt_of_lt_of_le (hf.lt p hp) hn⟩
  exact hrep.congr fun q hq => hpages q (mem_flatMap.2 ⟨c, hc, hq⟩)

theorem Forest.parts {n : Nat} {A B : List (Tree K V h)} (hf : Forest look n (A ++ B) next) :
    Forest look n A ((B.head?.map Tree.firstLeaf).or next) ∧ Forest look n B next ∧
      List.Disjoint (A.flatMap Tree.pages) (B.flatMap Tree.pages) := by
  obtain ⟨hA, hB⟩ := Chained.append.1 hf.rep
  have hnd := hf.nodup
  have hlt := hf.lt
  rw [flatMap_append] at hnd hlt
  rw [nodup_append'] at hnd
  exact ⟨⟨hA, hnd.1, fun p hp => hlt p (mem_append_left _ hp)⟩,
    ⟨hB, hnd.2.1, fun p hp => hlt p (mem_append_right _ hp)⟩, hnd.2.2⟩

theorem Forest.join {n : Nat} {A B : List (Tree K V h)}
    (hA : Forest look n A ((B.head?.map Tree.firstLeaf).or next)) (hB : Forest look n B next)
    (hdisj : List.Disjoint (A.flatMap Tree.pages) (B.flatMap Tree.pages)) : Forest look n (A ++ B) next := by
  refine ⟨Chained.append.2 ⟨hA.rep, hB.rep⟩, ?_, fun p hp => ?_⟩
  · rw [flatMap_append, nodup_append']
    exact ⟨hA.nodup, hB.nodup, hdisj⟩
  · rw [flatMap_append] at hp
    exact (mem_append.1 hp).elim (hA.lt p) (hB.lt p)

theorem Forest.children {n p : Nat} {ks : List K} {cs : List (Tree K V h)}
    (hf : Forest look n [Tree.node p ks cs] next) :
    look p = some (.internal ks (cs.map Tree.page)) ∧ Forest look n cs next ∧ p ∉ cs.flatMap Tree.pages ∧ p < n := by
  have hnd := hf.nodup
  have hlt := hf.lt
  rw [flatMap_singleton] at hnd hlt
  have hnd' := nodup_cons.1 hnd
  refine ⟨hf.rep.1.1, ⟨hf.rep.1.2, hnd'.2, fun q hq => hlt q (mem_cons_of_mem _ hq)⟩, hnd'.1, hlt p mem_cons_self⟩

/-! ## Updates -/

/-- An operation on one key passes through entries below and above the key. -/
def Local [LinearOrder K] (key : K) (upd : List (K × V) → List (K × V)) : Prop :=
  ∀ A M B : List (K × V), (∀ e ∈ A, e.1 < key) → (∀ e ∈ B, key < e.1) →
    upd (A ++ M ++ B) = A ++ upd M ++ B

/-- The trees `news` have taken the place of `olds`. Their nodes are old ones or new ones, nothing
else has changed, and the entries are those of `olds` after the operation. -/
structure Replaced {h : Nat} (look : Store K V) (n : Nat) (look' : Store K V) (n' : Nat)
    (upd : List (K × V) → List (K × V)) (olds news : List (Tree K V h)) (next : Option Nat) :
    Prop where
  forest : Forest look' n' news next
  pages : ∀ p ∈ news.flatMap Tree.pages, p ∈ olds.flatMap Tree.pages ∨ n ≤ p
  frame : ∀ p < n, p ∉ olds.flatMap Tree.pages → look' p = look p
  first : news.head?.map Tree.firstLeaf = olds.head?.map Tree.firstLeaf
  entries : news.flatMap Tree.entries = upd (olds.flatMap Tree.entries)
  mono : n ≤ n'

variable {upd : List (K × V) → List (K × V)}

/-- Between siblings: what takes the place of one tree takes its place in a forest. -/
theorem Replaced.context [LinearOrder K] {n n' : Nat} {A B ts : List (Tree K V h)} {c : Tree K V h} {key : K}
    (hf : Forest look n (A ++ c :: B) next) (hupd : Local key upd)
    (hA : ∀ e ∈ A.flatMap Tree.entries, e.1 < key) (hB : ∀ e ∈ B.flatMap Tree.entries, key < e.1)
    (hr : Replaced look n look' n' upd [c] ts ((B.head?.map Tree.firstLeaf).or next)) :
    Replaced look n look' n' upd (A ++ c :: B) (A ++ ts ++ B) next := by
  obtain ⟨hfA, hfcB, hdA⟩ := hf.parts
  have hcB : c :: B = [c] ++ B := rfl
  rw [hcB] at hfcB
  obtain ⟨-, hfB, hdB⟩ := hfcB.parts
  rw [flatMap_singleton] at hdB
  have hpages := hr.pages
  have hframe := hr.frame
  have hentries := hr.entries
  have hfirst := hr.first
  rw [flatMap_singleton] at hpages hframe hentries
  -- the siblings are untouched
  have hsame : ∀ p, (p ∈ A.flatMap Tree.pages ∨ p ∈ B.flatMap Tree.pages) → look' p = look p := by
    intro p hp
    rcases hp with hp | hp
    · refine hframe p (hfA.lt p hp) fun hpc => hdA hp ?_
      rw [flatMap_cons]
      exact mem_append_left _ hpc
    · exact hframe p (hfB.lt p hp) fun hpc => hdB hpc hp
  have hfA' := hfA.congr hr.mono fun p hp => hsame p (inl hp)
  have hfB' := hfB.congr hr.mono fun p hp => hsame p (inr hp)
  have hdtB : Disjoint (ts.flatMap Tree.pages) (B.flatMap Tree.pages) := by
    intro p hp hpB
    rcases hpages p hp with hpc | hpn
    · exact hdB hpc hpB
    · exact absurd (hfB.lt p hpB) (not_lt.2 hpn)
  have hdAt : Disjoint (A.flatMap Tree.pages) ((ts ++ B).flatMap Tree.pages) := by
    intro p hpA hp
    rw [flatMap_append] at hp
    rcases mem_append.1 hp with hp | hpB
    · rcases hpages p hp with hpc | hpn
      · refine hdA hpA ?_
        rw [flatMap_cons]
        exact mem_append_left _ hpc
      · exact absurd (hfA.lt p hpA) (not_lt.2 hpn)
    · refine hdA hpA ?_
      rw [flatMap_cons]
      exact mem_append_right _ hpB
  have hhead : ((ts ++ B).head?.map Tree.firstLeaf) = ((c :: B).head?.map Tree.firstLeaf) := by
    cases ts with
    | nil => exact absurd hfirst (by simp)
    | cons t ts => exact hfirst
  rw [append_assoc]
  refine ⟨Forest.join (hhead ▸ hfA') (Forest.join hr.forest hfB' hdtB) hdAt, ?_, ?_, ?_, ?_, hr.mono⟩
  · intro p hp
    rw [flatMap_append, flatMap_append] at hp
    rw [flatMap_append, flatMap_cons, mem_append, mem_append]
    rcases mem_append.1 hp with hp | hp
    · exact inl (inl hp)
    · rcases mem_append.1 hp with hp | hp
      · exact (hpages p hp).imp_left fun hpc => inr (inl hpc)
      · exact inl (inr (inr hp))
  · intro p hpn hp
    rw [flatMap_append, flatMap_cons, mem_append, mem_append] at hp
    exact hframe p hpn fun hpc => hp (inr (inl hpc))
  · cases A with
    | nil => exact hhead
    | cons a A => rfl
  · rw [flatMap_append, flatMap_append, flatMap_append, flatMap_cons, hentries,
      ← append_assoc, ← append_assoc, hupd _ _ _ hA hB]

/-- One level up: the root keeps its number and gets new separators and children. -/
theorem Replaced.node {look'' : Store K V} {n n' p : Nat} {ks ks' : List K}
    {cs cs' : List (Tree K V h)} (hf : Forest look n [Tree.node p ks cs] next)
    (hr : Replaced look n look' n' upd cs cs' next) (hp : look'' p = some (.internal ks' (cs'.map Tree.page)))
    (hother : ∀ q ≠ p, look'' q = look' q) :
    Replaced look n look'' n' upd [Tree.node p ks cs] [Tree.node p ks' cs'] next := by
  obtain ⟨-, -, hpcs, hpn⟩ := hf.children
  have hpcs' : p ∉ cs'.flatMap Tree.pages := fun hmem =>
    (hr.pages p hmem).elim hpcs fun hle => absurd hpn (not_lt.2 hle)
  have hcs' : Forest look'' n' cs' next :=
    hr.forest.congr le_rfl fun q hq => hother q fun heq => hpcs' (heq ▸ hq)
  refine ⟨⟨⟨⟨hp, hcs'.rep⟩, trivial⟩, ?_, ?_⟩, ?_, ?_, ?_, ?_, hr.mono⟩
  · rw [flatMap_singleton]
    exact nodup_cons.2 ⟨hpcs', hcs'.nodup⟩
  · intro q hq
    rw [flatMap_singleton] at hq
    rcases mem_cons.1 hq with rfl | hq
    · exact lt_of_lt_of_le hpn hr.mono
    · exact hcs'.lt q hq
  · intro q hq
    rw [flatMap_singleton] at hq ⊢
    rcases mem_cons.1 hq with rfl | hq
    · exact inl mem_cons_self
    · exact (hr.pages q hq).imp_left (mem_cons_of_mem _)
  · intro q hqn hq
    rw [flatMap_singleton] at hq
    rw [hother q fun heq => hq (heq ▸ mem_cons_self)]
    exact hr.frame q hqn fun hmem => hq (mem_cons_of_mem _ hmem)
  · show some ((cs'.head?.map Tree.firstLeaf).getD 0) = some ((cs.head?.map Tree.firstLeaf).getD 0)
    rw [hr.first]
  · rw [flatMap_singleton, flatMap_singleton]
    exact hr.entries

/-- One level up, with a split: the second half of the children goes to a new node. -/
theorem Replaced.split {look'' : Store K V} {n n' p : Nat} {ks KL KR : List K}
    {cs CL CR : List (Tree K V h)} (hf : Forest look n [Tree.node p ks cs] next)
    (hr : Replaced look n look' n' upd cs (CL ++ CR) next) (hCL : CL ≠ []) (hCR : CR ≠ [])
    (hp : look'' p = some (.internal KL (CL.map Tree.page))) (hnew : look'' n' = some (.internal KR (CR.map Tree.page)))
    (hother : ∀ q, q ≠ p → q ≠ n' → look'' q = look' q) : Replaced look n look'' (n' + 1) upd [Tree.node p ks cs]
      [Tree.node p KL CL, Tree.node n' KR CR] next := by
  obtain ⟨-, -, hpcs, hpn⟩ := hf.children
  have hpn' : p < n' := lt_of_lt_of_le hpn hr.mono
  have hpcs' : p ∉ (CL ++ CR).flatMap Tree.pages := fun hmem =>
    (hr.pages p hmem).elim hpcs fun hle => absurd hpn (not_lt.2 hle)
  have hncs' : n' ∉ (CL ++ CR).flatMap Tree.pages := fun hmem =>
    absurd (hr.forest.lt _ hmem) (lt_irrefl _)
  have hcs' : Forest look'' (n' + 1) (CL ++ CR) next :=
    hr.forest.congr (Nat.le_succ _) fun q hq =>
      hother q (fun heq => hpcs' (heq ▸ hq)) fun heq => hncs' (heq ▸ hq)
  obtain ⟨hL, hR, hdisj⟩ := hcs'.parts
  have hflat : ([Tree.node p KL CL, Tree.node n' KR CR] : List (Tree K V (h + 1))).flatMap
      Tree.pages = (p :: CL.flatMap Tree.pages) ++ (n' :: CR.flatMap Tree.pages) := by
    rw [flatMap_cons, flatMap_singleton]
    rfl
  have hnextL : (CR.head?.map Tree.firstLeaf).or next =
      (([Tree.node n' KR CR] : List (Tree K V (h + 1))).head?.map Tree.firstLeaf).or next := by
    cases CR with
    | nil => exact absurd rfl hCR
    | cons c CR => rfl
  rw [flatMap_append] at hpcs' hncs'
  refine ⟨⟨⟨⟨hp, hnextL ▸ hL.rep⟩, ⟨hnew, hR.rep⟩, trivial⟩, ?_, ?_⟩, ?_, ?_, ?_, ?_, le_trans hr.mono (Nat.le_succ _)⟩
  · rw [hflat, nodup_append']
    refine ⟨nodup_cons.2 ⟨fun hmem => hpcs' (mem_append_left _ hmem), hL.nodup⟩,
      nodup_cons.2 ⟨fun hmem => hncs' (mem_append_right _ hmem), hR.nodup⟩, ?_⟩
    intro q hq hq'
    rcases mem_cons.1 hq with rfl | hq
    · rcases mem_cons.1 hq' with heq | hq'
      · exact ne_of_lt hpn' heq
      · exact hpcs' (mem_append_right _ hq')
    · rcases mem_cons.1 hq' with rfl | hq'
      · exact hncs' (mem_append_left _ hq)
      · exact hdisj hq hq'
  · intro q hq
    rw [hflat] at hq
    rcases mem_append.1 hq with hq | hq
    · rcases mem_cons.1 hq with rfl | hq
      · exact Nat.lt_succ_of_lt hpn'
      · exact hL.lt q hq
    · rcases mem_cons.1 hq with rfl | hq
      · exact Nat.lt_succ_self _
      · exact hR.lt q hq
  · intro q hq
    have hpages := hr.pages
    rw [flatMap_append] at hpages
    rw [hflat] at hq
    rw [flatMap_singleton]
    rcases mem_append.1 hq with hq | hq
    · rcases mem_cons.1 hq with rfl | hq
      · exact inl mem_cons_self
      · exact (hpages q (mem_append_left _ hq)).imp_left (mem_cons_of_mem _)
    · rcases mem_cons.1 hq with rfl | hq
      · exact inr hr.mono
      · exact (hpages q (mem_append_right _ hq)).imp_left (mem_cons_of_mem _)
  · intro q hqn hq
    rw [flatMap_singleton] at hq
    rw [hother q (fun heq => hq (heq ▸ mem_cons_self)) (ne_of_lt (lt_of_lt_of_le hqn hr.mono))]
    exact hr.frame q hqn fun hmem => hq (mem_cons_of_mem _ hmem)
  · have hfirst := hr.first
    cases CL with
    | nil => exact absurd rfl hCL
    | cons c CL =>
      show some (Tree.firstLeaf c) = some ((cs.head?.map Tree.firstLeaf).getD 0)
      rw [← hfirst]
      rfl
  · rw [flatMap_cons, flatMap_singleton, flatMap_singleton]
    have hentries := hr.entries
    rw [flatMap_append] at hentries
    exact hentries

theorem Replaced.leaf {n p : Nat} {es es' : List (K × V)} (hf : Forest look n [Tree.leaf p es] next)
    (hes : es' = upd es) (hp : look' p = some (.leaf (es'.map Prod.fst) (es'.map Prod.snd) next))
    (hother : ∀ q < n, q ≠ p → look' q = look q) :
    Replaced look n look' n upd [Tree.leaf p es] [Tree.leaf p es'] next := by
  refine ⟨⟨⟨hp, trivial⟩, hf.nodup, hf.lt⟩, fun q hq => inl hq, fun q hqn hq => ?_, rfl, ?_, le_rfl⟩
  · exact hother q hqn fun heq => hq (heq ▸ mem_singleton_self _)
  · rw [flatMap_singleton, flatMap_singleton]
    exact hes

theorem Replaced.leafSplit {n p : Nat} {es L R : List (K × V)} (hf : Forest look n [Tree.leaf p es] next)
    (hes : L ++ R = upd es) (hp : look' p = some (.leaf (L.map Prod.fst) (L.map Prod.snd) (some n)))
    (hnew : look' n = some (.leaf (R.map Prod.fst) (R.map Prod.snd) next))
    (hother : ∀ q < n, q ≠ p → look' q = look q) :
    Replaced look n look' (n + 1) upd [Tree.leaf p es] [Tree.leaf p L, Tree.leaf n R] next := by
  have hpn : p < n := hf.lt p (mem_singleton_self _)
  refine ⟨⟨⟨hp, hnew, trivial⟩, ?_, fun q hq => ?_⟩, fun q hq => ?_, fun q hqn hq => ?_, rfl, ?_, Nat.le_succ _⟩
  · show [p, n].Nodup
    simpa using ne_of_lt hpn
  · have hq' : q ∈ [p, n] := hq
    rcases mem_pair.1 hq' with rfl | rfl
    · exact Nat.lt_succ_of_lt hpn
    · exact Nat.lt_succ_self _
  · have hq' : q ∈ [p, n] := hq
    rcases mem_pair.1 hq' with rfl | rfl
    · exact inl (mem_singleton_self _)
    · exact inr le_rfl
  · exact hother q hqn fun heq => hq (heq ▸ mem_singleton_self _)
  · rw [flatMap_cons, flatMap_singleton, flatMap_singleton]
    exact hes

end Stored

end SystemDesignLabs.Core.BPlusTree
