import SystemDesignLabs.BTreeKv.Paged
import SystemDesignLabs.Core.Fallible

/-!
# The nodes behind the pages

`Backed t nodes` says that page number `p` of the file is the encoding of `nodes[p]` and that the
cache holds only nodes of this list. It is kept by reading and by writing a page
(`Backed.readPage`, `Backed.writePage`), so the results on the tree speak about the list of nodes
only.
-/

namespace SystemDesignLabs.BTreeKv.Paged

open Option List Core BPlusTree SortedList

/-! ## Outcomes -/

theorem index_eq_ok {A : Type} {t : BTree} {l : List A} {i : Nat} {x : A} (h : l[i]? = some x) :
    t.index l i = .ok x := by
  rw [BTree.index, h]

/-! ## Nodes -/

/-- A page id that may be the null page. -/
def link (pageId : Nat) : Option Nat := if pageId = nullPage then none else some pageId

theorem link_eq_some {pageId q : Nat} : link pageId = some q ↔ pageId ≠ nullPage ∧ pageId = q := by
  rw [link]
  split
  case isTrue h => simp [h]
  case isFalse h => simp [h]

/-- What the library sees of a node. -/
def Node.shape : Node → Shape Bytes Bytes
  | .internal n => .internal n.keys n.children
  | .leaf n => .leaf n.keys n.values (link n.next)

/-- The nodes as a store. -/
def look (nodes : List Node) : Store Bytes Bytes := fun p => nodes[p]?.map Node.shape

/-- The nodes after a page write. -/
def put (nodes : List Node) (node : Node) : List Node :=
  if node.pageId < nodes.length then nodes.set node.pageId node else nodes ++ [node]

section Put

variable {nodes : List Node} {node : Node}

theorem getElem?_put (h : node.pageId ≤ nodes.length) (p : Nat) :
    (put nodes node)[p]? = if p = node.pageId then some node else nodes[p]? := by
  rw [put]
  split
  case isTrue hlt =>
    rw [getElem?_set]
    by_cases heq : p = node.pageId
    · rw [if_pos heq, if_pos heq.symm, if_pos (heq ▸ hlt)]
    · rw [if_neg heq, if_neg (Ne.symm heq)]
  case isFalse hge =>
    have hlen : node.pageId = nodes.length := le_antisymm h (not_lt.1 hge)
    rw [getElem?_append, hlen]
    by_cases heq : p = nodes.length
    · subst heq
      simp
    · rw [if_neg heq]
      split
      case isTrue => rfl
      case isFalse hge' =>
        rw [getElem?_eq_none (by simp; omega), getElem?_eq_none (by omega)]

theorem look_of_getElem? {p : Nat} (h : nodes[p]? = some node) : look nodes p = some node.shape := by
  rw [look, h]
  rfl

theorem look_congr {nodes' : List Node} {p : Nat} (h : nodes'[p]? = nodes[p]?) : look nodes' p = look nodes p := by
  rw [look, h]
  rfl

theorem length_put_of_lt (h : node.pageId < nodes.length) : (put nodes node).length = nodes.length := by
  rw [put, if_pos h, length_set]

theorem length_put_of_eq (h : node.pageId = nodes.length) : (put nodes node).length = nodes.length + 1 := by
  rw [put, if_neg (by omega), length_append, length_singleton]

theorem lt_of_look {p : Nat} {s : Shape Bytes Bytes} (h : look nodes p = some s) : p < nodes.length := by
  obtain ⟨n, hn, -⟩ := map_eq_some_iff.1 h
  exact (List.getElem?_eq_some_iff.1 hn).1

end Put

/-! ## The cache -/

theorem PageCache.get_insert {c : PageCache} {node n : Node} {p : Nat} (h : (c.insert node).map.get p = some n) :
    (p = node.pageId ∧ n = node) ∨ (p ≠ node.pageId ∧ c.map.get p = some n) := by
  have hevict : ∀ q m, c.evict.map.get q = some m → c.map.get q = some m := by
    intro q m hm
    rw [PageCache.evict] at hm
    split at hm
    · split at hm
      · rw [SortedMap.get_erase] at hm
        split at hm
        · exact absurd hm (by simp)
        · exact hm
      · exact hm
    · exact hm
  rw [PageCache.insert, SortedMap.get_insert] at h
  split at h
  case isTrue heq => exact Or.inl ⟨heq, (some.inj h).symm⟩
  case isFalse hne =>
    refine Or.inr ⟨hne, ?_⟩
    split at h
    · exact h
    · exact hevict p n h

/-! ## The file -/

/-- The pages of the file are the encodings of the nodes, each under its own page id. -/
structure Stored (file : List Page) (nodes : List Node) : Prop where
  pages : nodes.map encodePage = file.map some
  fits : ∀ node ∈ nodes, node.Fits
  numbered : ∀ (p : Nat) (node : Node), nodes[p]? = some node → node.pageId = p

section Stored

variable {file : List Page} {nodes : List Node} {node : Node}

section

variable (h : Stored file nodes)
include h

theorem Stored.length_eq : file.length = nodes.length := by
  have := congrArg length h.pages
  rw [length_map, length_map] at this
  exact this.symm

theorem Stored.page {p : Nat} (hp : nodes[p]? = some node) :
    ∃ buf, file[p]? = some buf ∧ encodePage node = some buf := by
  have hget : (nodes.map encodePage)[p]? = (file.map some)[p]? := by rw [h.pages]
  rw [getElem?_map, getElem?_map, hp, map_some] at hget
  obtain ⟨buf, hbuf, heq⟩ := map_eq_some_iff.1 hget.symm
  exact ⟨buf, hbuf, heq.symm⟩

theorem Stored.decode {p : Nat} (hp : nodes[p]? = some node) :
    file[p]?.bind (decodePage p) = some node := by
  obtain ⟨buf, hbuf, hencode⟩ := h.page hp
  obtain ⟨buf', hencode', hdecode⟩ :=
    decodePage_encodePage (h.fits node (mem_of_getElem? hp))
  rw [hencode] at hencode'
  cases hencode'
  rw [hbuf, bind_some, ← h.numbered p node hp]
  exact hdecode

/-- A page write stores its node. -/
theorem Stored.put (hfits : node.Fits) (hle : node.pageId ≤ nodes.length)
    {buf : Page} (hbuf : encodePage node = some buf) : Stored (storePage file node.pageId buf) (put nodes node) := by
  have hlen := h.length_eq
  refine ⟨?_, fun n hn => ?_, fun p n hn => ?_⟩
  · rw [Paged.put, storePage]
    split
    case isTrue hlt =>
      have hzero : node.pageId + 1 - file.length = 0 := by omega
      rw [hzero, replicate_zero, append_nil, map_set, map_set, h.pages, hbuf]
    case isFalse hge =>
      have heq : node.pageId = file.length := by omega
      have hone : node.pageId + 1 - file.length = 1 := by omega
      rw [hone, heq, set_append_right _ _ le_rfl, Nat.sub_self, map_append, map_append, h.pages, map_singleton, hbuf]
      rfl
  · obtain ⟨p, hp⟩ := mem_iff_getElem?.1 hn
    rw [getElem?_put hle] at hp
    split at hp
    · cases hp
      exact hfits
    · exact h.fits n (mem_of_getElem? hp)
  · rw [getElem?_put hle] at hn
    split at hn
    case isTrue heq =>
      cases hn
      exact heq.symm
    case isFalse => exact h.numbered p n hn

end

end Stored

/-! ## The tree -/

/-- The file stores the nodes, and the cache holds only nodes that the file stores. -/
structure Backed (t : BTree) (nodes : List Node) : Prop where
  stored : Stored t.file nodes
  cached : ∀ (p : Nat) (node : Node), t.cache.map.get p = some node → nodes[p]? = some node

section Backed

variable {t : BTree} {nodes : List Node} {node : Node}

section

variable (h : Backed t nodes)
include h

/-- Reading a page returns its node and changes the cache only. -/
theorem Backed.readPage {p : Nat} (hp : nodes[p]? = some node) :
    ∃ c, t.readPage p = .ok (node, { t with cache := c }) ∧ Backed { t with cache := c } nodes := by
  rw [BTree.readPage, PageCache.get]
  cases hcache : t.cache.map.get p with
  | some n =>
    have hn := h.cached p n hcache
    rw [hp] at hn
    cases hn
    exact ⟨_, rfl, h.stored, h.cached⟩
  | none =>
    simp only [h.stored.decode hp]
    refine ⟨_, rfl, h.stored, fun q n hq => ?_⟩
    rcases PageCache.get_insert hq with ⟨rfl, rfl⟩ | ⟨-, hq⟩
    · rw [h.stored.numbered p n hp]
      exact hp
    · exact h.cached q n hq

/-- Writing a page. -/
theorem Backed.writePage (hfits : node.Fits)
    (hle : node.pageId ≤ nodes.length) : ∃ t', t.writePage node = .ok t' ∧
      Backed t' (put nodes node) ∧ t'.nextPageId = t.nextPageId := by
  obtain ⟨buf, hbuf, -⟩ := decodePage_encodePage hfits
  rw [BTree.writePage, hbuf]
  refine ⟨_, rfl, ⟨h.stored.put hfits hle hbuf, fun p n hp => ?_⟩, rfl⟩
  rw [getElem?_put hle]
  rcases PageCache.get_insert hp with ⟨rfl, rfl⟩ | ⟨hne, hp⟩
  · rw [if_pos rfl]
  · rw [if_neg hne]
    exact h.cached p n hp

theorem Backed.overwrite (p : Nat) (hfits : node.Fits) (hid : node.pageId = p)
    (hp : p < nodes.length) : ∃ t' nodes', t.writePage node = .ok t' ∧ Backed t' nodes' ∧
      t'.nextPageId = t.nextPageId ∧ nodes'.length = nodes.length ∧ nodes'[p]? = some node ∧
        ∀ q ≠ p, nodes'[q]? = nodes[q]? := by
  subst hid
  obtain ⟨t', hwrite, hb, hnext⟩ := h.writePage hfits (le_of_lt hp)
  refine ⟨t', _, hwrite, hb, hnext, length_put_of_lt hp, ?_, fun q hq => ?_⟩
  · rw [getElem?_put (le_of_lt hp), if_pos rfl]
  · rw [getElem?_put (le_of_lt hp), if_neg hq]

theorem Backed.append (p : Nat) (hfits : node.Fits) (hid : node.pageId = p)
    (hp : p = nodes.length) : ∃ t' nodes', t.writePage node = .ok t' ∧ Backed t' nodes' ∧
      t'.nextPageId = t.nextPageId ∧ nodes'.length = nodes.length + 1 ∧ nodes'[p]? = some node ∧
        ∀ q ≠ p, nodes'[q]? = nodes[q]? := by
  subst hid
  obtain ⟨t', hwrite, hb, hnext⟩ := h.writePage hfits (le_of_eq hp)
  refine ⟨t', _, hwrite, hb, hnext, length_put_of_eq hp, ?_, fun q hq => ?_⟩
  · rw [getElem?_put (le_of_eq hp), if_pos rfl]
  · rw [getElem?_put (le_of_eq hp), if_neg hq]

theorem Backed.nextPageId (n : Nat) :
    Backed { t with nextPageId := n } nodes := ⟨h.stored, h.cached⟩

end

theorem Stored.backed {file : List Page} (h : Stored file nodes) (capacity next : Nat)
    (writes : List (Nat × Page)) : Backed ⟨file, .new capacity, next, writes⟩ nodes :=
  ⟨h, fun p node hp => absurd hp (by simp [PageCache.new])⟩

theorem Backed.length_file (h : Backed t nodes) : t.file.length = nodes.length :=
  h.stored.length_eq

theorem leaf_of_look {p : Nat} {ks vs : List Bytes} {next : Option Nat} (hs : Stored t.file nodes)
    (h : look nodes p = some (.leaf ks vs next)) : ∃ nx prev, nodes[p]? = some (.leaf ⟨p, ks, vs, nx, prev⟩) ∧
        next = link nx := by
  obtain ⟨n, hn, hshape⟩ := map_eq_some_iff.1 h
  have hp := hs.numbered p n hn
  cases n with
  | internal n => exact absurd hshape (by simp [Node.shape])
  | leaf n =>
    obtain ⟨pageId, ks', vs', nx, prev⟩ := n
    cases hshape
    cases hp
    exact ⟨nx, prev, hn, rfl⟩

theorem internal_of_look {p : Nat} {ks : List Bytes} {cs : List Nat} (hs : Stored t.file nodes)
    (h : look nodes p = some (.internal ks cs)) : nodes[p]? = some (.internal ⟨p, ks, cs⟩) := by
  obtain ⟨n, hn, hshape⟩ := map_eq_some_iff.1 h
  have hp := hs.numbered p n hn
  cases n with
  | leaf n => exact absurd hshape (by simp [Node.shape])
  | internal n =>
    obtain ⟨pageId, ks', cs'⟩ := n
    cases hshape
    cases hp
    exact hn

end Backed

end SystemDesignLabs.BTreeKv.Paged
