import SystemDesignLabs.BTreeKv.PagedWrites
import SystemDesignLabs.Core.TransitionSystem

/-!
# The B+ tree with a write-ahead log

`BTree` of `labs/btree-kv/src/v2.rs`: the tree on disk with a log beside it. An insertion appends a
marker to the log and then inserts; opening replays the log first. Only records of 4100 bytes are
page writes and the markers have six, so the replay changes no page (`replayWal_markers`). Hence a
crash between two page writes leaves the tree torn whenever the insertion splits its leaf
(`crash_keeps_iff`). The checksum is a parameter.
-/

namespace SystemDesignLabs.BTreeKv.WalProtected

open Core BPlusTree SortedList Paged

/-! ## The log -/

def walMagic : Byte := 0xAB

def walHeaderLen : Nat := 9

/-- A record of the log. -/
def walRecord (crc : Bytes → BitVec 32) (op : Bytes) : Bytes :=
  walMagic :: (leBytes 4 (crc op).toNat ++ (leBytes 4 op.length ++ op))

/-- The loop of `replay_wal`, over the pages of the data file. -/
def replayLoop (crc : Bytes → BitVec 32) : Nat → Bytes → List Page → List Page
  | 0, _, file => file
  | fuel + 1, reader, file =>
    match readExact walHeaderLen reader with
    | none => file
    | some (header, reader) =>
      if header.take 1 ≠ [walMagic] then file
      else
        let storedCrc := ofLeBytes ((header.drop 1).take 4)
        let length := ofLeBytes ((header.drop 5).take 4)
        match readExact length reader with
        | none => file
        | some (data, reader) =>
          if (crc data).toNat ≠ storedCrc then file
          else
            -- a page id and the content of the page
            let file :=
              if h : data.length = pageSize + 4 then
                storePage file (ofLeBytes (data.take 4)) ⟨data.drop 4, by
                  rw [List.length_drop, h]
                  rfl⟩
              else file
            replayLoop crc fuel reader file

/-- `replay_wal`. Every record takes at least nine bytes. -/
def replayWal (crc : Bytes → BitVec 32) (wal : Bytes) (file : List Page) : List Page :=
  replayLoop crc (wal.length + 1) wal file

/-! ## The tree -/

/-- The data file and the log, if there is one. -/
structure Disk where
  data : List Page
  wal : Option Bytes

structure BTree where
  inner : Paged.BTree
  wal : Option Bytes

namespace BTree

variable (crc : Bytes → BitVec 32)

/-- `BTree::open`. -/
def openDisk (disk : Disk) : Outcome BTree := do
  let file := match disk.wal with
    | some wal => replayWal crc wal disk.data
    | none => disk.data
  let inner ← Paged.BTree.openFile 64 file
  .ok ⟨inner, disk.wal⟩

def appendWalMarker (t : BTree) (op : Bytes) : BTree :=
  { t with wal := some (t.wal.getD [] ++ walRecord crc op) }

/-- The bytes of `insert`. -/
def insertMarker : Bytes := [105, 110, 115, 101, 114, 116]

/-- The bytes of `delete`. -/
def deleteMarker : Bytes := [100, 101, 108, 101, 116, 101]

def insert (t : BTree) (key value : Bytes) : Outcome BTree := do
  let t := t.appendWalMarker crc insertMarker
  let inner ← t.inner.insert key value
  .ok { t with inner := inner }

def get (t : BTree) (key : Bytes) : Outcome (Option Bytes × BTree) := do
  let (value, inner) ← t.inner.get key
  .ok (value, { t with inner := inner })

def delete (t : BTree) (key : Bytes) : Outcome (Bool × BTree) := do
  let t := t.appendWalMarker crc deleteMarker
  let (found, inner) ← t.inner.delete key
  .ok (found, { t with inner := inner })

def range (t : BTree) (start stop : Bytes) : Outcome (List (Bytes × Bytes) × BTree) := do
  let (pairs, inner) ← t.inner.range start stop
  .ok (pairs, { t with inner := inner })

/-! ## Crashes -/

/-- The page writes of an insertion, until it returns or stops. -/
def insertWrites (t : BTree) (key value : Bytes) : List (Nat × Page) :=
  ((t.inner.insert key value).tree id).writes.drop t.inner.writes.length

/-- The disk when execution stops after `count` page writes of an insertion. -/
def crashAt (t : BTree) (key value : Bytes) (count : Nat) : Disk :=
  let t := t.appendWalMarker crc insertMarker
  ⟨applyWrites t.inner.file ((t.insertWrites key value).take count), t.wal⟩

/-- The tree opened after the crash answers every other key as the tree before the insertion. -/
def KeepsOthers (t : BTree) (key value : Bytes) (count : Nat) : Prop :=
  ∃ t', openDisk crc (t.crashAt crc key value count) = .ok t' ∧
    ∀ k ≠ key, ∃ answer s s', t.get k = .ok (answer, s) ∧ t'.get k = .ok (answer, s')

end BTree

/-! ## Runs -/

/-- An operation, or an insertion that is cut short by a crash after some page writes. -/
inductive Op where
  | insert (key value : Bytes)
  | delete (key : Bytes)
  | get (key : Bytes)
  | range (start stop : Bytes)
  | reopen
  | crash (key value : Bytes) (count : Nat)

def step (crc : Bytes → BitVec 32) (t : BTree) : Op → Option BTree
  | .insert key value => (t.insert crc key value).toOption
  | .delete key => ((t.delete crc key).map Prod.snd).toOption
  | .get key => ((t.get key).map Prod.snd).toOption
  | .range start stop => ((t.range start stop).map Prod.snd).toOption
  | .reopen => (BTree.openDisk crc ⟨t.inner.file, t.wal⟩).toOption
  | .crash key value count => (BTree.openDisk crc (t.crashAt crc key value count)).toOption

/-- Inserted pairs fit their slots and find the page ids they need; a crash cuts only an insertion
that does not split. -/
def Meets (t : BTree) : Op → Prop
  | .insert key value => SmallEntry (key, value) ∧ t.inner.IdsSuffice key
  | .crash key value _ => SmallEntry (key, value) ∧ t.inner.newPages key = 0
  | _ => True

/-- The trees that such runs reach from a disk without files. -/
def Reached (crc : Bytes → BitVec 32) (t : BTree) : Prop :=
  ∃ t₀, BTree.openDisk crc ⟨[], none⟩ = .ok t₀ ∧ ReachableIf (step crc) Meets t₀ t

/-!
## Crashes inside an insertion

The log holds markers only, so opening after a crash finds the pages as the crash has left them. When
the insertion writes one page, these are the pages before it or after it; when it splits its leaf,
they are for a moment pages without the right half.
-/

open List Option BTree

/-! ### The log -/

section Log

variable {crc : Bytes → BitVec 32}

/-- Replaying markers changes no page. -/
theorem replayWal_markers {ops : List Bytes} (hops : ∀ op ∈ ops, op.length = 6)
    (file : List Page) : replayWal crc (ops.flatMap (walRecord crc)) file = file := by
  rw [replayWal]
  generalize (ops.flatMap (walRecord crc)).length + 1 = fuel
  induction ops generalizing fuel with
  | nil =>
    cases fuel with
    | zero => rfl
    | succ fuel => rfl
  | cons op ops ih =>
    rw [forall_mem_cons] at hops
    cases fuel with
    | zero => rfl
    | succ fuel =>
      have hrecord : (op :: ops).flatMap (walRecord crc) =
          (walMagic :: (leBytes 4 (crc op).toNat ++ leBytes 4 op.length)) ++
            (op ++ ops.flatMap (walRecord crc)) := by
        rw [flatMap_cons, walRecord]
        simp
      have hlen : (walMagic :: (leBytes 4 (crc op).toNat ++ leBytes 4 op.length)).length =
          walHeaderLen := by
        simp [walHeaderLen]
      have hheader := readExact_append
        (walMagic :: (leBytes 4 (crc op).toNat ++ leBytes 4 op.length))
        (op ++ ops.flatMap (walRecord crc))
      rw [hlen] at hheader
      have hcrc : ofLeBytes (leBytes 4 (crc op).toNat) = (crc op).toNat := by
        rw [ofLeBytes_leBytes]
        exact Nat.mod_eq_of_lt (crc op).isLt
      have hlength : ofLeBytes (leBytes 4 op.length) = op.length := by
        rw [ofLeBytes_leBytes]
        exact Nat.mod_eq_of_lt (by rw [hops.1]; decide)
      have htakeCrc : ((walMagic :: (leBytes 4 (crc op).toNat ++ leBytes 4 op.length)).drop
          1).take 4 = leBytes 4 (crc op).toNat := take_left' (length_leBytes 4 _)
      have htakeLen : ((walMagic :: (leBytes 4 (crc op).toNat ++ leBytes 4 op.length)).drop
          5).take 4 = leBytes 4 op.length := by
        show ((leBytes 4 (crc op).toNat ++ leBytes 4 op.length).drop 4).take 4 = _
        rw [drop_left' (length_leBytes 4 _), take_of_length_le (le_of_eq (length_leBytes 4 _))]
      have hmagic : ¬ (walMagic :: (leBytes 4 (crc op).toNat ++ leBytes 4 op.length)).take 1 ≠
          [walMagic] := not_not.2 rfl
      have hpage : ¬ op.length = pageSize + 4 := by
        rw [hops.1]
        decide
      have hcrcOk : ¬ (crc op).toNat ≠ (crc op).toNat := not_not.2 rfl
      rw [hrecord, replayLoop, hheader]
      dsimp only
      rw [if_neg hmagic, htakeCrc, htakeLen, hcrc, hlength, readExact_append]
      dsimp only
      rw [if_neg hcrcOk, dif_neg hpage]
      exact ih hops.2 fuel

/-- A log of markers. -/
def Markers (crc : Bytes → BitVec 32) (wal : Option Bytes) : Prop :=
  ∀ w, wal = some w → ∃ ops : List Bytes, w = ops.flatMap (walRecord crc) ∧
    ∀ op ∈ ops, op.length = 6

theorem Markers.append {t : BTree} (h : Markers crc t.wal) {op : Bytes} (hop : op.length = 6) :
    Markers crc (t.appendWalMarker crc op).wal := by
  intro w hw
  cases hw
  cases hwal : t.wal with
  | none =>
    refine ⟨[op], ?_, fun o ho => ?_⟩
    · rw [flatMap_cons, flatMap_nil, append_nil]
      rfl
    · rw [mem_singleton.1 ho]
      exact hop
  | some w =>
    obtain ⟨ops, rfl, hops⟩ := h w hwal
    refine ⟨ops ++ [op], ?_, fun o ho => ?_⟩
    · rw [flatMap_append, flatMap_cons, flatMap_nil, append_nil]
      rfl
    · rcases mem_append.1 ho with ho | ho
      · exact hops o ho
      · rw [mem_singleton.1 ho]
        exact hop

theorem openDisk_markers (disk : Disk) (h : Markers crc disk.wal) : BTree.openDisk crc disk =
      (Paged.BTree.openFile 64 disk.data >>= fun inner => .ok ⟨inner, disk.wal⟩) := by
  obtain ⟨data, wal⟩ := disk
  cases wal with
  | none => rfl
  | some w =>
    obtain ⟨ops, rfl, hops⟩ := h w rfl
    show (Paged.BTree.openFile 64 (replayWal crc _ data) >>= _) = _
    rw [replayWal_markers hops]

end Log

/-! ### The tree -/

/-- The pages hold a tree with the entries of the map, and the log holds markers. -/
def Sound (crc : Bytes → BitVec 32) (t : BTree) (m : SortedMap Bytes Bytes) : Prop :=
  Holds t.inner m ∧ Markers crc t.wal

section Sound

variable {crc : Bytes → BitVec 32} {t : BTree} {m : SortedMap Bytes Bytes}

theorem Sound.get (h : Sound crc t m) (key : Bytes) : ∃ t', t.get key = .ok (m.get key, t') ∧ Sound crc t' m := by
  obtain ⟨inner, hget, hholds⟩ := h.1.get key
  exact ⟨{ t with inner := inner }, by rw [BTree.get, hget]; rfl, hholds, h.2⟩

variable {s : Paged.BTree}

theorem Sound.openDisk (hs : Holds s m) (disk : Disk) (hdata : disk.data = s.file) (hwal : Markers crc disk.wal) :
    ∃ t', BTree.openDisk crc disk = .ok t' ∧ Sound crc t' m := by
  obtain ⟨inner, hopen, hholds, -⟩ := hs.openFile 64
  refine ⟨⟨inner, disk.wal⟩, ?_, hholds, hwal⟩
  rw [openDisk_markers _ hwal, hdata, hopen]
  rfl

variable {key value : Bytes}

theorem Sound.insert (h : Sound crc t m) (hsmall : SmallEntry (key, value)) (hsuffice : t.inner.IdsSuffice key) :
    ∃ t', t.insert crc key value = .ok t' ∧ Sound crc t' (m.insert key value) := by
  obtain ⟨inner, hinsert, hholds⟩ := h.1.insert hsmall hsuffice
  refine ⟨{ (t.appendWalMarker crc insertMarker) with inner := inner }, ?_, hholds,
    h.2.append rfl⟩
  have hinsert' : (t.appendWalMarker crc insertMarker).inner.insert key value = .ok inner :=
    hinsert
  rw [BTree.insert]
  simp only [hinsert', ok_bind]

/-- A crash inside an insertion that does not split leaves the pages before it or after it. -/
theorem Sound.crash_kept (h : Sound crc t m) (hsmall : SmallEntry (key, value))
    (hnew : t.inner.newPages key = 0) (count : Nat) :
    ∃ s m', Holds s m' ∧ (t.crashAt crc key value count).data = s.file ∧ (m' = m ∨ m' = m.insert key value) := by
  obtain ⟨inner, hinsert, hholds⟩ := h.1.insert hsmall (Or.inl hnew)
  obtain ⟨nodes, n, tree, hb, hf, hw, hpage, hentries, -, -⟩ := h.1
  obtain ⟨p, es, pre, post, a, -⟩ := exists_atLeaf hf hw hpage hentries key
  obtain ⟨nx, prev, hnode⟩ := a.node hb.stored
  obtain ⟨w, hwrites, hfile⟩ := insert_kept value hb a.found hnode hinsert
    ((newPages_eq_zero hb a.found hnode).1 hnew)
  have hws : t.insertWrites key value = [w] := by
    rw [insertWrites, hinsert]
    show inner.writes.drop _ = _
    rw [hwrites, drop_left]
  have hdata : (t.crashAt crc key value count).data = applyWrites t.inner.file ([w].take count) :=
    hws ▸ rfl
  cases count with
  | zero => exact ⟨t.inner, m, h.1, hdata, Or.inl rfl⟩
  | succ count =>
    refine ⟨inner, _, hholds, ?_, Or.inr rfl⟩
    rw [hdata, take_succ_cons, take_nil, hfile]

theorem Sound.keepsOthers (h : Sound crc t m) {count : Nat} {m' : SortedMap Bytes Bytes} (hs : Holds s m')
    (hdata : (t.crashAt crc key value count).data = s.file) (hm' : m' = m ∨ m' = m.insert key value) :
    t.KeepsOthers crc key value count := by
  have hwal : Markers crc (t.crashAt crc key value count).wal := h.2.append rfl
  obtain ⟨t', hopen, hsound⟩ := Sound.openDisk hs _ hdata hwal
  refine ⟨t', hopen, fun k hk => ?_⟩
  obtain ⟨t₁, hget, -⟩ := h.get k
  obtain ⟨t₂, hget', -⟩ := hsound.get k
  have heq : m'.get k = m.get k := by
    rcases hm' with rfl | rfl
    · rfl
    · rw [SortedMap.get_insert, if_neg hk]
  exact ⟨m.get k, t₁, t₂, hget, heq ▸ hget'⟩

theorem get_of_leaf {nodes : List Node} (hb : Backed s nodes) {p nx prev : Nat} {es : List (Bytes × Bytes)} (hfound : descend (look nodes) nodes.length rootPage key = some p)
    (hnode : nodes[p]? = some (.leaf (leafNode p es nx prev))) (hkey : key ∉ es.map Prod.fst) :
    ∃ s', s.get key = .ok (none, s') := by
  obtain ⟨c, hfind, hb₁⟩ := findLeaf_spec hb hfound
  obtain ⟨c', hread, -⟩ := hb₁.readPage hnode
  have hsearch : binarySearch (leafNode p es nx prev).keys key = none :=
    binarySearch_of_not_mem hkey
  refine ⟨{ s with cache := c' }, ?_⟩
  rw [Paged.BTree.get, hb.length_file, hfind, ok_bind]
  simp only [hread, ok_bind, Paged.BTree.asLeaf, hsearch]

/-- A crash between the two halves of a split loses the keys of the right half. -/
theorem Sound.crash_torn (h : Sound crc t m) (value : Bytes)
    (hnew : t.inner.newPages key ≠ 0) (hnext : t.inner.nextPageId ≠ nullPage) :
    ∃ count, 0 < count ∧ count < (t.insertWrites key value).length ∧ ¬ t.KeepsOthers crc key value count := by
  obtain ⟨nodes, n, tree, hb, hf, hw, hpage, hentries, hids, hroom⟩ := h.1
  obtain ⟨p, es, pre, post, a, hmem⟩ := exists_atLeaf hf hw hpage hentries key
  obtain ⟨nx, prev, hnode⟩ := a.node hb.stored
  have hsplit := mt (newPages_eq_zero hb a.found hnode).2 hnew
  have hlenEs : (leafNode p es nx prev).keys.length = es.length := length_map _
  rw [hlenEs] at hsplit
  have hlast : t.inner.nextPageId + 1 < 2 ^ 32 := by
    simp only [nullPage] at hnext
    by_cases hzero : t.inner.nextPageId = 0
    · omega
    · have := hids hzero
      omega
  obtain ⟨ws₁, ws₂, nodes₂, hne₁, hne₂, hwrites, hstored, hlen₂, hp₂, hlook₂⟩ :=
    insert_torn value hb a.found hnode (a.isLeaf_next hnode) hsplit hlast hroom
  have hws : t.insertWrites key value = ws₁ ++ ws₂ := by
    rw [insertWrites, hwrites, drop_left]
  have hdata : (t.crashAt crc key value ws₁.length).data = applyWrites t.inner.file ws₁ := by
    show applyWrites t.inner.file ((t.insertWrites key value).take ws₁.length) = _
    rw [hws, take_left]
  -- a key of the right half
  have hmid : es.length / 2 < es.length := by
    have := not_lt.1 (not_or.1 hsplit).2
    simp only [order] at this
    omega
  have hcut : es = es.take (es.length / 2) ++ es[es.length / 2] :: es.drop (es.length / 2 + 1) := by
    rw [← drop_eq_getElem_cons hmid, take_append_drop]
  generalize es[es.length / 2] = e at hcut
  have he : e ∈ es := by
    rw [hcut]
    exact mem_append_right _ mem_cons_self
  have hekey : e.1 ≠ key := fun heq => (not_or.1 hsplit).1 (heq ▸ mem_map_of_mem he)
  have hlost : e.1 ∉ (es.take (es.length / 2)).map Prod.fst := by
    intro hin
    obtain ⟨d, hd, hde⟩ := mem_map.1 hin
    have hs := a.sorted
    rw [hcut] at hs
    exact absurd hde (ne_of_lt ((pairwise_append.1 hs).2.2 d hd e mem_cons_self))
  have hanswer : m.get e.1 = some e.2 := by
    refine SortedMap.mem_entries_iff.1 ?_
    rw [← a.entries]
    exact mem_flatMap.2 ⟨(p, es), mem_append_right _ mem_cons_self, he⟩
  -- the search for it ends in the left half
  have hfound : descend (look nodes₂) nodes₂.length rootPage e.1 = some p := by
    rw [hlen₂]
    have hbefore := descend_of_mem hf hw (hf.height_lt hw) hmem he (bot_le_bound e.1)
      (bound_lt_top e.1)
    rw [hpage] at hbefore
    have hpLeaf := look_of_getElem? hnode
    refine descend_congr (fun r ks cs hr => ?_) (fun r ks vs next hr => ?_) hbefore
    · have hrp : r ≠ p := by
        rintro rfl
        rw [hpLeaf] at hr
        exact absurd hr (by simp [Node.shape])
      rw [hlook₂ r hrp, hr]
    · by_cases hrp : r = p
      · subst hrp
        exact ⟨_, _, _, look_of_getElem? hp₂⟩
      · exact ⟨ks, vs, next, by rw [hlook₂ r hrp, hr]⟩
  refine ⟨ws₁.length, length_pos_iff.2 hne₁, ?_, ?_⟩
  · rw [hws, length_append]
    have := length_pos_iff.2 hne₂
    omega
  · rintro ⟨t', hopen, hkeep⟩
    obtain ⟨answer, s, s', hget, hget'⟩ := hkeep e.1 hekey
    obtain ⟨t₁, hget₁, -⟩ := h.get e.1
    rw [hget₁, hanswer] at hget
    cases hget
    have hwal : Markers crc (t.crashAt crc key value ws₁.length).wal := h.2.append rfl
    have hpos : nodes₂.length ≠ 0 := by
      have := (List.getElem?_eq_some_iff.1 hp₂).1
      omega
    have hnextPage : (applyWrites t.inner.file ws₁).length % 2 ^ 32 = nodes₂.length := by
      rw [hstored.length_eq, Nat.mod_eq_of_lt (hlen₂ ▸ hroom)]
    rw [openDisk_markers _ hwal, hdata, Paged.BTree.openFile] at hopen
    simp only [hnextPage, if_neg hpos, ok_bind] at hopen
    cases hopen
    obtain ⟨inner, hnone⟩ := get_of_leaf (hstored.backed 64 nodes₂.length []) hfound hp₂ hlost
    rw [BTree.get, hnone, ok_bind] at hget'
    cases hget'

end Sound

/-! ### Runs -/

theorem ok_of_toOption {A : Type} {x : Outcome A} {a : A} (h : x.toOption = some a) : x = .ok a := by
  cases x with
  | ok b =>
    cases h
    rfl
  | error t => cases h

section Runs

variable {crc : Bytes → BitVec 32} {t t' : BTree} {m : SortedMap Bytes Bytes}

/-- Every step of a run keeps the tree and the log. -/
theorem Sound.step (h : Sound crc t m) {op : Op} (hmeets : Meets t op)
    (hstep : WalProtected.step crc t op = some t') : ∃ m', Sound crc t' m' := by
  cases op with
  | insert key value =>
    obtain ⟨t₁, hinsert, hsound⟩ := h.insert hmeets.1 hmeets.2
    rw [WalProtected.step, hinsert] at hstep
    cases hstep
    exact ⟨_, hsound⟩
  | delete key =>
    obtain ⟨inner, hdelete, hholds⟩ := h.1.delete key
    have hdelete' : (t.appendWalMarker crc deleteMarker).inner.delete key =
        .ok ((m.get key).isSome, inner) := hdelete
    rw [WalProtected.step, BTree.delete] at hstep
    simp only [hdelete', ok_bind] at hstep
    cases hstep
    exact ⟨_, hholds, h.2.append rfl⟩
  | get key =>
    obtain ⟨t₁, hget, hsound⟩ := h.get key
    rw [WalProtected.step, hget] at hstep
    cases hstep
    exact ⟨_, hsound⟩
  | range start stop =>
    obtain ⟨inner, hrange, hholds⟩ := h.1.range start stop
    rw [WalProtected.step, BTree.range, hrange] at hstep
    cases hstep
    exact ⟨_, hholds, h.2⟩
  | reopen =>
    obtain ⟨t₁, hopen, hsound⟩ := Sound.openDisk h.1 ⟨t.inner.file, t.wal⟩ rfl h.2
    rw [WalProtected.step, hopen] at hstep
    cases hstep
    exact ⟨_, hsound⟩
  | crash key value count =>
    obtain ⟨s, m', hs, hdata, -⟩ := h.crash_kept hmeets.1 hmeets.2 count
    have hwal : Markers crc (t.crashAt crc key value count).wal := h.2.append rfl
    obtain ⟨t₁, hopen, hsound⟩ := Sound.openDisk hs _ hdata hwal
    rw [WalProtected.step, hopen] at hstep
    cases hstep
    exact ⟨_, hsound⟩

theorem Reached.sound (h : Reached crc t) : ∃ m, Sound crc t m := by
  obtain ⟨t₀, hopen, hreach⟩ := h
  refine ReachableIf.invariant (I := fun s => ∃ m, Sound crc s m) ?_
    (fun s op s' _ hs hmeets hstep => ?_) hreach
  · obtain ⟨inner, hempty, hholds⟩ := holds_openFile_nil 64
    have hwal : Markers crc none := fun w hw => absurd hw (by simp)
    rw [openDisk_markers ⟨[], none⟩ hwal, hempty, ok_bind] at hopen
    cases hopen
    exact ⟨_, hholds, hwal⟩
  · obtain ⟨m, hm⟩ := hs
    exact hm.step hmeets hstep

end Runs

instance (t : BTree) : (op : Op) → Decidable (Meets t op)
  | .insert _ _ => inferInstanceAs (Decidable ((_ ∧ _) ∧ _))
  | .crash _ _ _ => inferInstanceAs (Decidable ((_ ∧ _) ∧ _))
  | .delete _ | .get _ | .range _ _ | .reopen => isTrue trivial

/-- Fifteen keys, inserted by two sessions. -/
def fifteenInserts : List Op :=
  .insert [0] [1] :: .reopen :: (List.range 14).map fun i => .insert [Fin.ofNat 256 (i + 1)] [1]

end SystemDesignLabs.BTreeKv.WalProtected
