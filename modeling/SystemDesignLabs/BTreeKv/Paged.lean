import SystemDesignLabs.Core.BPlusOps
import SystemDesignLabs.Core.Buffer

/-!
# Pages

The page format of `labs/btree-kv/src/v1.rs`: a node is one page of 4096 bytes with a header of 14
bytes, key slots of 64 bytes and, after them, the page ids of the children or the value slots of 128
bytes. A panic (a slice outside the page) and an unknown node type are `none`.

`decodePage_encodePage` is the round trip for a node that fits its page.
-/

namespace SystemDesignLabs.BTreeKv.Paged

open Option List Core Or

/-! ## Nodes -/

def pageSize : Nat := 4096

def nodeTypeInternal : Byte := 1

def nodeTypeLeaf : Byte := 2

def headerSize : Nat := 14

def keySlot : Nat := 64

def keyMax : Nat := keySlot - 2

def valSlot : Nat := 128

def order : Nat := 16

/-- `NULL_PAGE`, which is `u32::MAX`. -/
def nullPage : Nat := 2 ^ 32 - 1

def rootPage : Nat := 0

structure InternalNode where
  pageId : Nat
  keys : List Bytes
  children : List Nat
  deriving DecidableEq

structure LeafNode where
  pageId : Nat
  keys : List Bytes
  values : List Bytes
  next : Nat
  prev : Nat
  deriving DecidableEq

inductive Node where
  | internal (n : InternalNode)
  | leaf (n : LeafNode)
  deriving DecidableEq

def Node.pageId : Node → Nat
  | .internal n => n.pageId
  | .leaf n => n.pageId

/-! ## Serialization -/

/-- `[u8; PAGE_SIZE]`. -/
abbrev Page := Buffer pageSize

/-- A slot: the length of the item, cut off at `max`, and its bytes. -/
def slot (max : Nat) (item : Bytes) : Bytes :=
  leBytes 2 (min item.length max) ++ item.take (min item.length max)

/-- The item of a slot. -/
def readSlot (buf : Page) (off : Nat) : Option Bytes := do
  let len ← buf.read off 2
  buf.read (off + 2) (ofLeBytes len)

/-- A page id. -/
def readId (buf : Page) (off : Nat) : Option Nat := (buf.read off 4).map ofLeBytes

/-- Where the values of a leaf start. -/
def valAreaStart : Nat := headerSize + order * keySlot

def encodePage : Node → Option Page
  | .internal n => do
    let buf ← (Buffer.zero pageSize).write 0 [nodeTypeInternal]
    let buf ← buf.write 1 (leBytes 2 n.keys.length)
    let buf ← buf.writeCells keySlot headerSize (n.keys.map (slot keyMax))
    buf.writeCells 4 (headerSize + n.keys.length * keySlot) (n.children.map (leBytes 4))
  | .leaf n => do
    let buf ← (Buffer.zero pageSize).write 0 [nodeTypeLeaf]
    let buf ← buf.write 1 (leBytes 2 n.keys.length)
    let buf ← buf.write 3 (leBytes 4 n.next)
    let buf ← buf.write 7 (leBytes 4 n.prev)
    let buf ← buf.writeCells keySlot headerSize (n.keys.map (slot keyMax))
    buf.writeCells valSlot valAreaStart (n.values.map (slot (valSlot - 2)))

def decodePage (pageId : Nat) (buf : Page) : Option Node := do
  let nodeType ← buf.read 0 1
  let keyCount ← (buf.read 1 2).map ofLeBytes
  if nodeType = [nodeTypeInternal] then do
    let keys ← buf.readCells keySlot readSlot keyCount headerSize
    let children ← buf.readCells 4 readId (keyCount + 1) (headerSize + keyCount * keySlot)
    some (.internal ⟨pageId, keys, children⟩)
  else if nodeType = [nodeTypeLeaf] then do
    let next ← readId buf 3
    let prev ← readId buf 7
    let keys ← buf.readCells keySlot readSlot keyCount headerSize
    let values ← buf.readCells valSlot readSlot keyCount valAreaStart
    some (.leaf ⟨pageId, keys, values, next, prev⟩)
  else none

/-! ## Nodes that fit a page -/

/-- A node that is not overfull, whose items fit their slots and whose page ids fit four bytes. -/
inductive Node.Fits : Node → Prop
  | internal {n : InternalNode} (length_keys : n.keys.length < order)
      (keys : ∀ k ∈ n.keys, k.length ≤ keyMax)
      (length_children : n.children.length = n.keys.length + 1)
      (children : ∀ c ∈ n.children, c < 2 ^ 32) : Fits (.internal n)
  | leaf {n : LeafNode} (length_keys : n.keys.length < order)
      (keys : ∀ k ∈ n.keys, k.length ≤ keyMax)
      (length_values : n.values.length = n.keys.length)
      (values : ∀ v ∈ n.values, v.length ≤ valSlot - 2)
      (next : n.next < 2 ^ 32) (prev : n.prev < 2 ^ 32) : Fits (.leaf n)

theorem length_slot_le (max : Nat) (item : Bytes) : (slot max item).length ≤ max + 2 := by
  rw [slot, length_append, length_leBytes, length_take]
  omega

theorem readSlot_of_read {max : Nat} {item : Bytes} {buf : Page} {off : Nat} (hmax : max < 2 ^ 16)
    (hitem : item.length ≤ max) (h : buf.read off (slot max item).length = some (slot max item)) :
    readSlot buf off = some item := by
  have hslot : slot max item = leBytes 2 item.length ++ item := by
    rw [slot, Nat.min_eq_left hitem, take_length]
  rw [hslot, length_append] at h
  have hlen := Buffer.read_left h
  have hbody := Buffer.read_right h
  rw [length_leBytes] at hlen hbody
  have hmod : item.length % 256 ^ 2 = item.length := Nat.mod_eq_of_lt (by omega)
  simp only [readSlot, hlen, bind_eq_bind, bind_some, ofLeBytes_leBytes, hmod, hbody]

theorem readId_of_read {id off : Nat} {buf : Page} (hid : id < 2 ^ 32)
    (h : buf.read off 4 = some (leBytes 4 id)) : readId buf off = some id := by
  have hmod : id % 256 ^ 4 = id := Nat.mod_eq_of_lt hid
  rw [readId, h, map_some, ofLeBytes_leBytes, hmod]

theorem length_mem_slots (max stride : Nat) (hmax : max + 2 ≤ stride) (items : List Bytes) :
    ∀ cell ∈ items.map (slot max), cell.length ≤ stride := by
  intro cell hcell
  obtain ⟨item, -, rfl⟩ := mem_map.1 hcell
  exact le_trans (length_slot_le max item) hmax

theorem readCells_slots {stride : Nat} (max : Nat) (hmax : max < 2 ^ 16) {items : List Bytes} {buf : Page}
    {off : Nat} (hitems : ∀ item ∈ items, item.length ≤ max)
    (h : Buffer.HasCells stride buf off (items.map (slot max))) :
    buf.readCells stride readSlot items.length off = some items :=
  Buffer.readCells_spec h fun item hitem _ hread => readSlot_of_read hmax (hitems item hitem) hread

/-- A node that fits its page is encoded, and decoding gives it back. -/
theorem decodePage_encodePage {node : Node} (hfits : node.Fits) :
    ∃ buf, encodePage node = some buf ∧ decodePage node.pageId buf = some node := by
  cases hfits with
  | @internal n hlen hkeys hchildrenLen hchildren =>
    rw [order] at hlen
    have hkeyCells := length_mem_slots keyMax keySlot (by decide) n.keys
    have hchildCells : ∀ cell ∈ n.children.map (leBytes 4), cell.length ≤ 4 := by
      intro cell hcell
      obtain ⟨c, -, rfl⟩ := mem_map.1 hcell
      exact le_of_eq (length_leBytes 4 c)
    obtain ⟨b₁, h₁⟩ := (Buffer.zero pageSize).exists_write 0 [nodeTypeInternal]
      (by decide)
    obtain ⟨b₂, h₂⟩ := b₁.exists_write 1 (leBytes 2 n.keys.length)
      (by rw [length_leBytes]; decide)
    obtain ⟨b₃, h₃, hhas₃, hsame₃⟩ := Buffer.writeCells_spec b₂ headerSize hkeyCells
      (by rw [length_map]; simp only [headerSize, keySlot, pageSize]; omega)
    obtain ⟨b₄, h₄, hhas₄, hsame₄⟩ := Buffer.writeCells_spec b₃
      (headerSize + n.keys.length * keySlot) hchildCells (by
        rw [length_map, hchildrenLen]
        simp only [headerSize, keySlot, pageSize]
        omega)
    rw [length_map] at hsame₃ hsame₄
    -- what the decoder reads
    have htype : b₄.read 0 1 = some [nodeTypeInternal] := by
      rw [hsame₄ _ _ (inl (by simp only [headerSize]; omega)),
        hsame₃ _ _ (inl (by decide)), Buffer.read_write_of_disjoint h₂ (inl (by decide))]
      exact Buffer.read_write h₁
    have hcount : b₄.read 1 2 = some (leBytes 2 n.keys.length) := by
      have hread := Buffer.read_write h₂
      rw [length_leBytes] at hread
      rw [hsame₄ _ _ (inl (by simp only [headerSize]; omega)),
        hsame₃ _ _ (inl (by decide)), hread]
    have hkeysRead : b₄.readCells keySlot readSlot n.keys.length headerSize = some n.keys := by
      refine readCells_slots keyMax (by decide) hkeys (hhas₃.congr hkeyCells ?_)
      intro off' len _ hle
      rw [length_map] at hle
      exact hsame₄ off' len (inl hle)
    have hchildrenRead : b₄.readCells 4 readId (n.keys.length + 1)
        (headerSize + n.keys.length * keySlot) = some n.children := by
      rw [← hchildrenLen]
      refine Buffer.readCells_spec hhas₄ fun c hc off' hread => ?_
      rw [length_leBytes] at hread
      exact readId_of_read (hchildren c hc) hread
    have hmod : n.keys.length % 256 ^ 2 = n.keys.length := Nat.mod_eq_of_lt (by omega)
    refine ⟨b₄, ?_, ?_⟩
    · simp only [encodePage, h₁, h₂, h₃, bind_eq_bind, bind_some]
      exact h₄
    · simp only [decodePage, htype, hcount, map_some, ofLeBytes_leBytes, hmod,
        bind_eq_bind, bind_some, if_true, hkeysRead, hchildrenRead]
      rfl
  | @leaf n hlen hkeys hvaluesLen hvalues hnext hprev =>
    rw [order] at hlen
    have hkeyCells := length_mem_slots keyMax keySlot (by decide) n.keys
    have hvalCells := length_mem_slots (valSlot - 2) valSlot (by decide) n.values
    obtain ⟨b₁, h₁⟩ := (Buffer.zero pageSize).exists_write 0 [nodeTypeLeaf]
      (by decide)
    obtain ⟨b₂, h₂⟩ := b₁.exists_write 1 (leBytes 2 n.keys.length)
      (by rw [length_leBytes]; decide)
    obtain ⟨b₃, h₃⟩ := b₂.exists_write 3 (leBytes 4 n.next)
      (by rw [length_leBytes]; decide)
    obtain ⟨b₄, h₄⟩ := b₃.exists_write 7 (leBytes 4 n.prev)
      (by rw [length_leBytes]; decide)
    obtain ⟨b₅, h₅, hhas₅, hsame₅⟩ := Buffer.writeCells_spec b₄ headerSize hkeyCells
      (by rw [length_map]; simp only [headerSize, keySlot, pageSize]; omega)
    obtain ⟨b₆, h₆, hhas₆, hsame₆⟩ := Buffer.writeCells_spec b₅ valAreaStart hvalCells (by
        rw [length_map, hvaluesLen]
        simp only [valAreaStart, headerSize, order, keySlot, valSlot, pageSize]
        omega)
    rw [length_map] at hsame₅ hsame₆
    -- the header is written first and stays
    have hheader : ∀ off len, off + len ≤ headerSize → b₆.read off len = b₄.read off len := by
      intro off len hle
      rw [hsame₆ _ _ (inl (le_trans hle (by decide))), hsame₅ _ _ (inl hle)]
    have htype : b₆.read 0 1 = some [nodeTypeLeaf] := by
      rw [hheader 0 1 (by decide), Buffer.read_write_of_disjoint h₄ (inl (by decide)),
        Buffer.read_write_of_disjoint h₃ (inl (by decide)),
        Buffer.read_write_of_disjoint h₂ (inl (by decide))]
      exact Buffer.read_write h₁
    have hcount : b₆.read 1 2 = some (leBytes 2 n.keys.length) := by
      have hread := Buffer.read_write h₂
      rw [length_leBytes] at hread
      rw [hheader 1 2 (by decide), Buffer.read_write_of_disjoint h₄ (inl (by decide)),
        Buffer.read_write_of_disjoint h₃ (inl (by decide)), hread]
    have hnextRead : readId b₆ 3 = some n.next := by
      have hread := Buffer.read_write h₃
      rw [length_leBytes] at hread
      refine readId_of_read hnext ?_
      rw [hheader 3 4 (by decide), Buffer.read_write_of_disjoint h₄ (inl (by decide)), hread]
    have hprevRead : readId b₆ 7 = some n.prev := by
      have hread := Buffer.read_write h₄
      rw [length_leBytes] at hread
      refine readId_of_read hprev ?_
      rw [hheader 7 4 (by decide), hread]
    have hkeysRead : b₆.readCells keySlot readSlot n.keys.length headerSize = some n.keys := by
      refine readCells_slots keyMax (by decide) hkeys (hhas₅.congr hkeyCells ?_)
      intro off' len _ hle
      rw [length_map] at hle
      refine hsame₆ off' len (inl (le_trans hle ?_))
      simp only [valAreaStart, order]
      exact Nat.add_le_add_left (Nat.mul_le_mul_right _ (by omega)) _
    have hvaluesRead : b₆.readCells valSlot readSlot n.keys.length valAreaStart =
        some n.values := by
      rw [← hvaluesLen]
      exact readCells_slots (valSlot - 2) (by decide) hvalues hhas₆
    have hmod : n.keys.length % 256 ^ 2 = n.keys.length := Nat.mod_eq_of_lt (by omega)
    refine ⟨b₆, ?_, ?_⟩
    · simp only [encodePage, h₁, h₂, h₃, h₄, h₅, bind_eq_bind, bind_some]
      exact h₆
    · have hne : ([nodeTypeLeaf] : Bytes) ≠ [nodeTypeInternal] := by decide
      simp only [decodePage, htype, hcount, map_some, ofLeBytes_leBytes, hmod, bind_eq_bind, bind_some, if_neg hne,
        if_true, hnextRead, hprevRead, hkeysRead, hvaluesRead]
      rfl

/-!
## The B+ tree on disk

`BTree` of `labs/btree-kv/src/v1.rs`: a file of pages behind an LRU cache of decoded nodes, the root
in page 0. The file is a list of pages; reads and writes of the file succeed. An operation returns
its result, or the tree as it stood when execution stopped: at a panic (a node of the other kind, a
slice outside its bounds, `allocate_page` at the last `u32`) or at a page that cannot be read. The
loops and the recursion have the number of pages as fuel.

`BTree::open` leaves `next_page_id` at 0 when it creates the file, although it has written page 0.
-/

open BPlusTree SortedList

/-- A pair inserted at its place in a leaf. -/
def LeafNode.insertAt (leaf : LeafNode) (key value : Bytes) : LeafNode :=
  let pos := lowerBound leaf.keys key
  { leaf with keys := leaf.keys.insertIdx pos key, values := leaf.values.insertIdx pos value }

/-- A key and a child inserted in an internal node. -/
def InternalNode.insertAt (node : InternalNode) (childPos : Nat) (key : Bytes) (right : Nat) :
    InternalNode :=
  { node with
    keys := node.keys.insertIdx childPos key
    children := node.children.insertIdx (childPos + 1) right }

/-! ### The cache -/

structure PageCache where
  capacity : Nat
  map : SortedMap Nat Node
  /-- The most recently used page comes first. -/
  order : List Nat

namespace PageCache

def new (capacity : Nat) : PageCache := ⟨capacity, SortedMap.empty, []⟩

/-- `get`, which moves the page to the front. -/
def get (c : PageCache) (pageId : Nat) : Option (Node × PageCache) :=
  match c.map.get pageId with
  | some node => some (node, { c with order := pageId :: c.order.filter (· ≠ pageId) })
  | none => none

/-- Room for one more page. -/
def evict (c : PageCache) : PageCache :=
  if c.capacity ≤ c.map.entries.length then
    match c.order.getLast? with
    | some evictId => { c with map := c.map.erase evictId, order := c.order.dropLast }
    | none => c
  else c

def insert (c : PageCache) (node : Node) : PageCache :=
  let c := if (c.map.get node.pageId).isSome then
      { c with order := c.order.filter (· ≠ node.pageId) }
    else c.evict
  { c with map := c.map.insert node.pageId node, order := node.pageId :: c.order }

end PageCache

/-! ### The file -/

structure BTree where
  file : List Page
  cache : PageCache
  nextPageId : Nat
  /-- The page writes since the file was opened, in order. -/
  writes : List (Nat × Page)

/-- The result of an operation, or the tree as it stood when execution stopped. -/
abbrev Outcome (A : Type) := Except BTree A

/-- Seek to a page and write it; a gap is filled with zeros. -/
def storePage (file : List Page) (pageId : Nat) (page : Page) : List Page :=
  (file ++ List.replicate (pageId + 1 - file.length) (Buffer.zero pageSize)).set pageId page

namespace BTree

def asLeaf (t : BTree) : Node → Outcome LeafNode
  | .leaf n => .ok n
  | .internal _ => .error t

/-- An element of a vector. -/
def index {A : Type} (t : BTree) (l : List A) (i : Nat) : Outcome A :=
  match l[i]? with
  | some x => .ok x
  | none => .error t

def allocatePage (t : BTree) : Outcome (Nat × BTree) :=
  let id := t.nextPageId
  if t.nextPageId + 1 < 2 ^ 32 then .ok (id, { t with nextPageId := t.nextPageId + 1 })
  else .error t

def readPage (t : BTree) (pageId : Nat) : Outcome (Node × BTree) :=
  match t.cache.get pageId with
  | some (node, cache) => .ok (node, { t with cache := cache })
  | none =>
    match t.file[pageId]?.bind (decodePage pageId) with
    | some node => .ok (node, { t with cache := t.cache.insert node })
    | none => .error t

def writePage (t : BTree) (node : Node) : Outcome BTree :=
  match encodePage node with
  | some buf => .ok { t with
      file := storePage t.file node.pageId buf
      cache := t.cache.insert node
      writes := t.writes ++ [(node.pageId, buf)] }
  | none => .error t

/-- `BTree::open`, with the capacity of its cache. -/
def openFile (capacity : Nat) (file : List Page) : Outcome BTree :=
  let nextPageId := file.length % 2 ^ 32
  let t : BTree := ⟨file, .new capacity, nextPageId, []⟩
  if nextPageId = 0 then t.writePage (.leaf ⟨0, [], [], nullPage, nullPage⟩) else .ok t

/-! ### Reading -/

def findLeaf : Nat → BTree → Nat → Bytes → Outcome (Nat × BTree)
  | 0, t, _, _ => .error t
  | fuel + 1, t, pageId, key => do
    let (node, t) ← t.readPage pageId
    match node with
    | .leaf _ => .ok (pageId, t)
    | .internal n => do
      let pos := partitionPoint n.keys key
      let next ← t.index n.children pos
      findLeaf fuel t next key

def get (t : BTree) (key : Bytes) : Outcome (Option Bytes × BTree) := do
  let (leafId, t) ← findLeaf t.file.length t rootPage key
  let (node, t) ← t.readPage leafId
  let leaf ← t.asLeaf node
  match binarySearch leaf.keys key with
  | some pos => do
    let value ← t.index leaf.values pos
    .ok (some value, t)
  | none => .ok (none, t)

/-- The loop of `range`. -/
def rangeLoop (start stop : Bytes) : Nat → BTree → Nat → Outcome (List (Bytes × Bytes) × BTree)
  | 0, t, _ => .error t
  | fuel + 1, t, pageId => do
    let (node, t) ← t.readPage pageId
    let leaf ← t.asLeaf node
    match scanKeys start stop leaf.keys leaf.values with
    | none => .error t
    | some (found, past) =>
      if past then .ok (found, t)
      else if leaf.next = nullPage then .ok (found, t)
      else do
        let (rest, t) ← rangeLoop start stop fuel t leaf.next
        .ok (found ++ rest, t)

def range (t : BTree) (start stop : Bytes) : Outcome (List (Bytes × Bytes) × BTree) := do
  let (pageId, t) ← findLeaf t.file.length t rootPage start
  rangeLoop start stop t.file.length t pageId

def delete (t : BTree) (key : Bytes) : Outcome (Bool × BTree) := do
  let (leafId, t) ← findLeaf t.file.length t rootPage key
  let (node, t) ← t.readPage leafId
  let leaf ← t.asLeaf node
  match binarySearch leaf.keys key with
  | some pos => do
    let t ← t.writePage (.leaf { leaf with
      keys := leaf.keys.eraseIdx pos
      values := leaf.values.eraseIdx pos })
    .ok (true, t)
  | none => .ok (false, t)

/-! ### Insertion -/

/-- Tell a leaf, if there is one, its new predecessor. -/
def setPrev (t : BTree) (pageId prev : Nat) : Outcome BTree :=
  if pageId ≠ nullPage then do
    let (node, t) ← t.readPage pageId
    let leaf ← t.asLeaf node
    t.writePage (.leaf { leaf with prev := prev })
  else .ok t

def splitLeafNode (t : BTree) (left : LeafNode) : Outcome ((Bytes × LeafNode) × BTree) := do
  let mid := left.keys.length / 2
  let rightKeys := left.keys.drop mid
  let rightValues := left.values.drop mid
  let promoted ← t.index rightKeys 0
  let oldNext := left.next
  let (rightPageId, t) ← t.allocatePage
  let right : LeafNode := ⟨rightPageId, rightKeys, rightValues, oldNext, left.pageId⟩
  let left := { left with
    keys := left.keys.take mid
    values := left.values.take mid
    next := rightPageId }
  let t ← t.setPrev oldNext rightPageId
  let t ← t.writePage (.leaf left)
  let t ← t.writePage (.leaf right)
  .ok ((promoted, right), t)

def leafInsert (t : BTree) (leaf : LeafNode) (key value : Bytes) :
    Outcome (Option (Bytes × Nat) × BTree) :=
  match binarySearch leaf.keys key with
  | some pos => do
    let t ← t.writePage (.leaf { leaf with values := leaf.values.set pos value })
    .ok (none, t)
  | none =>
    if order - 1 ≤ leaf.keys.length then do
      let ((promoted, right), t) ← t.splitLeafNode leaf
      let leftId := right.prev
      let (node, t) ← t.readPage leftId
      let left ← t.asLeaf node
      let t ← if promoted ≤ key then t.writePage (.leaf (right.insertAt key value))
        else t.writePage (.leaf (left.insertAt key value))
      .ok (some (promoted, right.pageId), t)
    else do
      let t ← t.writePage (.leaf (leaf.insertAt key value))
      .ok (none, t)

def splitInternalNode (t : BTree) (left : InternalNode) (childPos : Nat) (incomingKey : Bytes)
    (incomingRight : Nat) : Outcome ((Bytes × Nat) × BTree) := do
  let all := left.insertAt childPos incomingKey incomingRight
  let mid := all.keys.length / 2
  let promoted ← t.index all.keys mid
  let rightKeys := all.keys.drop (mid + 1)
  let rightChildren := all.children.drop (mid + 1)
  let left := { left with
    keys := all.keys.take mid
    children := all.children.take (mid + 1) }
  let (rightPageId, t) ← t.allocatePage
  let right : InternalNode := ⟨rightPageId, rightKeys, rightChildren⟩
  let t ← t.writePage (.internal left)
  let t ← t.writePage (.internal right)
  .ok ((promoted, rightPageId), t)

def internalAbsorbSplit (t : BTree) (node : InternalNode) (childPos : Nat) (promotedKey : Bytes)
    (newRightId : Nat) : Outcome (Option (Bytes × Nat) × BTree) :=
  if order - 1 ≤ node.keys.length then do
    let ((newPromoted, right), t) ← t.splitInternalNode node childPos promotedKey newRightId
    .ok (some (newPromoted, right), t)
  else do
    let t ← t.writePage (.internal (node.insertAt childPos promotedKey newRightId))
    .ok (none, t)

def insertRecursive (key value : Bytes) :
    Nat → BTree → Nat → Outcome (Option (Bytes × Nat) × BTree)
  | 0, t, _ => .error t
  | fuel + 1, t, pageId => do
    let (node, t) ← t.readPage pageId
    match node with
    | .leaf leaf => t.leafInsert leaf key value
    | .internal internal => do
      let childPos := partitionPoint internal.keys key
      let childId ← t.index internal.children childPos
      let (result, t) ← insertRecursive key value fuel t childId
      match result with
      | some (promotedKey, newRightId) =>
        t.internalAbsorbSplit internal childPos promotedKey newRightId
      | none => .ok (none, t)

/-- The old root under its new page id, after its right sibling has been told. -/
def moveRoot (t : BTree) (oldRootNode : Node) (oldRootPageId : Nat) : Outcome (Node × BTree) :=
  match oldRootNode with
  | .internal n => .ok (.internal { n with pageId := oldRootPageId }, t)
  | .leaf n => do
    let n := { n with pageId := oldRootPageId }
    let t ← t.setPrev n.next oldRootPageId
    .ok (.leaf n, t)

def insert (t : BTree) (key value : Bytes) : Outcome BTree := do
  let (result, t) ← insertRecursive key value t.file.length t rootPage
  match result with
  | some (promotedKey, rightPageId) => do
    let (oldRootNode, t) ← t.readPage rootPage
    let (oldRootPageId, t) ← t.allocatePage
    let (movedOldRoot, t) ← t.moveRoot oldRootNode oldRootPageId
    let t ← t.writePage movedOldRoot
    t.writePage (.internal ⟨rootPage, [promotedKey], [oldRootPageId, rightPageId]⟩)
  | none => .ok t

end BTree

/-! ### Page ids -/

/-- The pages that an insertion below a page allocates, and whether it splits the page. -/
def splits (file : List Page) (key : Bytes) : Nat → Nat → Nat × Bool
  | 0, _ => (0, false)
  | fuel + 1, pageId =>
    match file[pageId]?.bind (decodePage pageId) with
    | some (.leaf n) =>
      if key ∈ n.keys ∨ n.keys.length < order - 1 then (0, false) else (1, true)
    | some (.internal n) =>
      match n.children[partitionPoint n.keys key]? with
      | some child =>
        let (count, split) := splits file key fuel child
        if split = true ∧ order - 1 ≤ n.keys.length then (count + 1, true) else (count, false)
      | none => (0, false)
    | none => (0, false)

/-- The pages that an insertion allocates. -/
def BTree.newPages (t : BTree) (key : Bytes) : Nat :=
  let (count, split) := splits t.file key t.file.length rootPage
  if split then count + 1 else count

/-- An insertion that allocates pages finds `next_page_id` set, and the ids stay below `u32::MAX`. -/
def BTree.IdsSuffice (t : BTree) (key : Bytes) : Prop :=
  t.newPages key = 0 ∨ (t.nextPageId ≠ 0 ∧ t.nextPageId + t.newPages key < 2 ^ 32)

instance (t : BTree) (key : Bytes) : Decidable (t.IdsSuffice key) :=
  inferInstanceAs (Decidable (_ ∨ _))

/-! ### Operations -/

inductive Op where
  | insert (key value : Bytes)
  | delete (key : Bytes)
  | get (key : Bytes)
  | range (start stop : Bytes)
  | reopen

inductive Output where
  | done
  | found (b : Bool)
  | value (v : Option Bytes)
  | pairs (l : List (Bytes × Bytes))
  deriving DecidableEq

/-- One operation on a tree whose cache has the given capacity. -/
def step (capacity : Nat) (t : BTree) : Op → Outcome (Output × BTree)
  | .insert key value => do
    let t ← t.insert key value
    .ok (.done, t)
  | .delete key => do
    let (found, t) ← t.delete key
    .ok (.found found, t)
  | .get key => do
    let (value, t) ← t.get key
    .ok (.value value, t)
  | .range start stop => do
    let (pairs, t) ← t.range start stop
    .ok (.pairs pairs, t)
  | .reopen => do
    let t ← BTree.openFile capacity t.file
    .ok (.done, t)

/-- What a sequence of operations returns, and the tree after it. -/
def run (capacity : Nat) : BTree → List Op → Outcome (List Output × BTree)
  | t, [] => .ok ([], t)
  | t, op :: ops => do
    let (out, t) ← step capacity t op
    let (outs, t) ← run capacity t ops
    .ok (out :: outs, t)

end SystemDesignLabs.BTreeKv.Paged
