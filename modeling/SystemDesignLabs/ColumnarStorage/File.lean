import SystemDesignLabs.Core.Bytes
import SystemDesignLabs.Core.Encodings
import SystemDesignLabs.Core.Fallible
import SystemDesignLabs.Core.Framing
import SystemDesignLabs.ColumnarStorage.RowGroups

/-!
# The file of row groups

A file begins with eight bytes that mark the format; then come the row groups, each with its columns, and a footer with
the offset of each group and, last, its own offset. Lengths and counts are cast to the width of their field, so that
what is too large is cut off.

`FieldsFit` says that names, columns and their encodings fit their fields. The numbers of groups and of columns and
the number of rows have fields as well: the groups are read back exactly when these fit, too
(`read_write_file_iff`). The offsets in the footer are where the groups begin.
-/

namespace SystemDesignLabs.ColumnarStorage

open Core SortedMap

/-- `MAGIC`, the bytes of `PQLITE01`. -/
def magic : Bytes := [80, 81, 76, 73, 84, 69, 48, 49]

inductive EncodingType where
  | plain
  | dict
  | rle
  | bitpack
  deriving DecidableEq

def EncodingType.toByte : EncodingType → Byte
  | plain => 0
  | dict => 1
  | rle => 2
  | bitpack => 3

/-! ### Values and columns -/

def asBytes (s : String) : Bytes := (utf8Bytes s).map UInt8.toFin

def encodeValue : Value → Bytes
  | .null => [0]
  | .bool b => [1, if b then 1 else 0]
  | .int n => 2 :: leBytes 8 n.toUInt64.toNat
  | .float bits => 3 :: leBytes 8 bits.toNat
  | .str s => 4 :: (leBytes 4 (asBytes s).length ++ asBytes s)

def encodeColumnPlain (col : ColumnData) : Bytes := leBytes 4 col.length ++ col.flatMap encodeValue

/-- Why reading fails: with an `io::Error`, or in a panic where a slice or a difference is out of range or a buffer
would be larger than any allocation. -/
inductive ReadError where
  | unexpectedEof
  | invalidUtf8
  | unknownTag (tag : Byte)
  | badMagic
  | outOfRange
  | capacityOverflow
  deriving DecidableEq

def readU8 : Bytes → Except ReadError (Byte × Bytes)
  | [] => .error .unexpectedEof
  | b :: data => .ok (b, data)

/-- `read_u16_le`, `read_u32`, `read_u64_le`, `read_i64` and `read_f64`: a number of `w` bytes. -/
def readNum (w : Nat) (data : Bytes) : Except ReadError (Nat × Bytes) :=
  match readLe w data with
  | some p => .ok p
  | none => .error .unexpectedEof

/-- The slice of the next `len` bytes. -/
def slice (len : Nat) (data : Bytes) : Except ReadError (Bytes × Bytes) :=
  match readExact len data with
  | some p => .ok p
  | none => .error .outOfRange

/-- `from_utf8` of the slice of the next `len` bytes. -/
def readText (len : Nat) (data : Bytes) : Except ReadError (String × Bytes) := do
  let (bytes, data) ← slice len data
  match fromUtf8 (bytes.map UInt8.ofFin) with
  | some s => .ok (s, data)
  | none => .error .invalidUtf8

/-- The value behind a tag. -/
def decodeTagged (tag : Byte) (data : Bytes) : Except ReadError (Value × Bytes) :=
  match tag.val with
  | 0 => .ok (.null, data)
  | 1 => do
    let (b, data) ← readU8 data
    .ok (.bool (b ≠ 0), data)
  | 2 => do
    let (n, data) ← readNum 8 data
    .ok (.int (UInt64.ofNat n).toInt64, data)
  | 3 => do
    let (bits, data) ← readNum 8 data
    .ok (.float (.ofNat bits), data)
  | 4 => do
    let (len, data) ← readNum 4 data
    let (s, data) ← readText len data
    .ok (.str s, data)
  | _ => .error (.unknownTag tag)

def decodeValue (data : Bytes) : Except ReadError (Value × Bytes) := do
  let (tag, data) ← readU8 data
  decodeTagged tag data

/-- The loop of `decode_column_plain`. -/
def decodeValues : Nat → Bytes → Except ReadError ColumnData
  | 0, _ => .ok []
  | n + 1, data => do
    let (v, data) ← decodeValue data
    let col ← decodeValues n data
    .ok (v :: col)

def decodeColumnPlain (data : Bytes) : Except ReadError ColumnData := do
  let (len, data) ← readNum 4 data
  decodeValues len data

/-! ### Writing -/

/-- An order in which the keys of the columns of each group are visited. -/
structure KeyOrder where
  keys : Nat → ColumnMap → List String
  perm : ∀ i columns, (keys i columns).Perm (columns.entries.map Prod.fst)

/-- The order of the names, for every group. -/
def KeyOrder.sorted : KeyOrder := ⟨fun _ columns => columns.entries.map Prod.fst, fun _ _ => .refl _⟩

/-- `write_all` at the end of a stream; a buffer or a file has fewer than `2 ^ 63` bytes. -/
def writeAll (out bytes : Bytes) : Option Bytes :=
  if out.length + bytes.length < 2 ^ 63 then some (out ++ bytes) else none

/-- Write pieces one after the other. -/
def writePieces (out : Bytes) (pieces : List Bytes) : Option Bytes := pieces.foldlM writeAll out

/-- One column of a group. -/
def writeColumn (columns : ColumnMap) (out : Bytes) (colName : String) : Option Bytes :=
  match columns.get colName with
  | none => none
  | some colData =>
    let nameBytes := asBytes colName
    let encoded := encodeColumnPlain colData
    writePieces out [leBytes 2 nameBytes.length, nameBytes, [EncodingType.plain.toByte],
      leBytes 4 encoded.length, encoded]

/-- One group: the number of its columns, the number of its rows, and the columns. -/
def writeGroup (colNames : List String) (group : RowGroup) (out : Bytes) : Option Bytes :=
  (writePieces out [leBytes 4 colNames.length, leBytes 4 group.size]).bind fun out =>
    colNames.foldlM (writeColumn group.columns) out

/-- The loop over the groups, which notes where each begins. -/
def writeGroups (order : KeyOrder) : Nat → List RowGroup → Bytes → List Nat → Option (Bytes × List Nat)
  | _, [], out, groupOffsets => some (out, groupOffsets)
  | i, group :: rowGroups, out, groupOffsets =>
    (writeGroup (order.keys i group.columns) group out).bind fun out' =>
      writeGroups order (i + 1) rowGroups out' (groupOffsets ++ [out.length])

/-- `write_file` to an empty stream: what was written and the offsets of the groups. -/
def writeFile (order : KeyOrder) (rowGroups : List RowGroup) : Option (Bytes × List Nat) := do
  let out ← writePieces [] [magic]
  let (out, groupOffsets) ← writeGroups order 0 rowGroups out []
  let footerOffset := out.length
  let out ← writePieces out
    (leBytes 4 groupOffsets.length :: (groupOffsets.map (leBytes 8) ++ [leBytes 8 footerOffset]))
  some (out, groupOffsets)

/-! ### Reading -/

/-- A column with its name. The byte of the encoding is read and not looked at. -/
def readColumn (data : Bytes) : Except ReadError ((String × ColumnData) × Bytes) := do
  let (nameLen, data) ← readNum 2 data
  let (name, data) ← readText nameLen data
  let (_, data) ← readU8 data
  let (dataLen, data) ← readNum 4 data
  let (encoded, data) ← slice dataLen data
  let colData ← decodeColumnPlain encoded
  .ok ((name, colData), data)

/-- The loop over the columns of a group. -/
def readColumns : Nat → Bytes → List String → ColumnMap → Except ReadError (List String × ColumnMap)
  | 0, _, colNames, columns => .ok (colNames, columns)
  | n + 1, data, colNames, columns => do
    let (p, data) ← readColumn data
    readColumns n data (colNames ++ [p.1]) (columns.insert p.1 p.2)

/-- The group in a buffer. -/
def parseGroup (groupBuf : Bytes) : Except ReadError RowGroup := do
  let (numCols, data) ← readNum 4 groupBuf
  let (rowCount, data) ← readNum 4 data
  let (colNames, columns) ← readColumns numCols data [] .empty
  .ok { RowGroup.new colNames with columns := columns, size := rowCount }.finaliseStats

/-- Where the group that begins at an offset ends. -/
def nextOffset (groupOffsets : List Nat) (footerOffset groupOffset : Nat) : Option Nat :=
  if groupOffsets.getLast? = some groupOffset then some footerOffset
  else groupOffsets[groupOffsets.idxOf groupOffset + 1]?

/-- The group at an offset of the file. -/
def readGroup (file : Bytes) (groupOffsets : List Nat) (footerOffset groupOffset : Nat) :
    Except ReadError RowGroup :=
  match nextOffset groupOffsets footerOffset groupOffset with
  | none => .error .outOfRange
  | some next =>
    if next < groupOffset then .error .outOfRange
    else if 2 ^ 63 ≤ next - groupOffset then .error .capacityOverflow
    else
      match readExact (next - groupOffset) (file.drop groupOffset) with
      | none => .error .unexpectedEof
      | some (groupBuf, _) => parseGroup groupBuf

/-- The loop over the offsets. -/
def readGroups (file : Bytes) (groupOffsets : List Nat) (footerOffset : Nat) :
    List Nat → Except ReadError (List RowGroup)
  | [] => .ok []
  | groupOffset :: rest => do
    let group ← readGroup file groupOffsets footerOffset groupOffset
    let groups ← readGroups file groupOffsets footerOffset rest
    .ok (group :: groups)

/-- The offsets of the footer. -/
def readOffsets : Nat → Bytes → Except ReadError (List Nat)
  | 0, _ => .ok []
  | n + 1, data => do
    let (offset, data) ← readNum 8 data
    let offsets ← readOffsets n data
    .ok (offset :: offsets)

/-- What `read_file` does once the magic bytes were checked. -/
def readBody (file : Bytes) : Except ReadError (List RowGroup) := do
  let footerOffset := ofLeBytes (file.drop (file.length - 8))
  let (numGroups, footer) ← readNum 4 (file.drop footerOffset)
  let groupOffsets ← readOffsets numGroups footer
  readGroups file groupOffsets footerOffset groupOffsets

def readFile (file : Bytes) : Except ReadError (List RowGroup) :=
  match readExact 8 file with
  | none => .error .unexpectedEof
  | some (front, _) => if front = magic then readBody file else .error .badMagic

/-! ### What was written is read -/

theorem readNum_leBytes_mod (w n : Nat) (rest : Bytes) :
    readNum w (leBytes w n ++ rest) = .ok (n % 256 ^ w, rest) := by
  rw [readNum, readLe_append]

theorem readNum_leBytes {w n : Nat} (h : n < 256 ^ w) (rest : Bytes) :
    readNum w (leBytes w n ++ rest) = .ok (n, rest) := by
  rw [readNum_leBytes_mod, Nat.mod_eq_of_lt h]

theorem slice_append (bytes rest : Bytes) : slice bytes.length (bytes ++ rest) = .ok (bytes, rest) := by
  rw [slice, readExact_append]

theorem readText_asBytes (s : String) (rest : Bytes) :
    readText (asBytes s).length (asBytes s ++ rest) = .ok (s, rest) := by
  rw [readText, slice_append]
  show (match fromUtf8 ((asBytes s).map UInt8.ofFin) with
    | some s => Except.ok (s, rest)
    | none => Except.error ReadError.invalidUtf8) = _
  rw [asBytes, fromUtf8_toFin]

/-- The length of a text fits its field. -/
def Value.Fits : Value → Prop
  | .str s => (asBytes s).length < 256 ^ 4
  | _ => True

theorem decodeValue_cons (tag : Byte) (data : Bytes) : decodeValue (tag :: data) = decodeTagged tag data := rfl

theorem decodeTagged_int (data : Bytes) : decodeTagged 2 data = (do
    let (n, data) ← readNum 8 data
    .ok (.int (UInt64.ofNat n).toInt64, data)) := rfl

theorem decodeTagged_float (data : Bytes) : decodeTagged 3 data = (do
    let (bits, data) ← readNum 8 data
    .ok (.float (.ofNat bits), data)) := rfl

theorem decodeTagged_str (data : Bytes) : decodeTagged 4 data = (do
    let (len, data) ← readNum 4 data
    let (s, data) ← readText len data
    .ok (.str s, data)) := rfl

/-- A value is read back, doubles bit by bit. -/
theorem decodeValue_encodeValue {v : Value} (h : v.Fits) (rest : Bytes) :
    decodeValue (encodeValue v ++ rest) = .ok (v, rest) := by
  cases v with
  | null => rfl
  | bool b => cases b <;> rfl
  | int n =>
    have hlt : n.toUInt64.toNat < 256 ^ 8 := n.toUInt64.toNat_lt
    simp only [encodeValue, List.cons_append, decodeValue_cons, decodeTagged_int, readNum_leBytes hlt, ok_bind,
      UInt64.ofNat_toNat, Int64.toInt64_toUInt64]
  | float bits =>
    have hlt : bits.toNat < 256 ^ 8 := bits.toNat_lt
    simp only [encodeValue, List.cons_append, decodeValue_cons, decodeTagged_float, readNum_leBytes hlt, ok_bind,
      UInt64.ofNat_toNat]
  | str s =>
    have hlen : (asBytes s).length < 256 ^ 4 := h
    simp only [encodeValue, List.cons_append, List.append_assoc, decodeValue_cons, decodeTagged_str,
      readNum_leBytes hlen, ok_bind, readText_asBytes]

variable {col : ColumnData}

theorem decodeValues_flatMap (h : ∀ v ∈ col, v.Fits) :
    decodeValues col.length (col.flatMap encodeValue) = .ok col := by
  induction col with
  | nil => rfl
  | cons v col ih =>
    obtain ⟨hv, hcol⟩ := List.forall_mem_cons.1 h
    simp only [List.length_cons, decodeValues, List.flatMap_cons, decodeValue_encodeValue hv, ok_bind, ih hcol]

theorem fits_of_mem {n : Nat} (h : (encodeColumnPlain col).length < n) (hn : n ≤ 256 ^ 4) :
    ∀ v ∈ col, v.Fits := by
  intro v hv
  cases v with
  | str s =>
    have hinfix : (encodeValue (.str s)).length ≤ (col.flatMap encodeValue).length := by
      obtain ⟨before, after, rfl⟩ := List.append_of_mem hv
      rw [List.flatMap_append, List.flatMap_cons, List.length_append, List.length_append]
      omega
    have htext : (asBytes s).length ≤ (encodeValue (.str s)).length := by
      simp [encodeValue]
      omega
    rw [encodeColumnPlain, List.length_append, length_leBytes] at h
    show (asBytes s).length < 256 ^ 4
    omega
  | _ => trivial

theorem decodeColumnPlain_encodeColumnPlain (hlen : col.length < 256 ^ 4)
    (h : (encodeColumnPlain col).length < 256 ^ 4) : decodeColumnPlain (encodeColumnPlain col) = .ok col := by
  show (readNum 4 (leBytes 4 col.length ++ col.flatMap encodeValue) >>= _) = _
  rw [readNum_leBytes hlen]
  exact decodeValues_flatMap (fits_of_mem h (Nat.le_refl _))

/-! ### Columns and groups -/

/-- A column as it stands in the file. -/
def columnBytes (name : String) (col : ColumnData) : Bytes :=
  leBytes 2 (asBytes name).length ++ (asBytes name ++ (EncodingType.plain.toByte ::
    (leBytes 4 (encodeColumnPlain col).length ++ encodeColumnPlain col)))

/-- The name and the values of a column fit their fields. -/
structure ColumnFits (name : String) (col : ColumnData) : Prop where
  name : (asBytes name).length < 65536
  values : col.length < 2 ^ 32
  encoded : (encodeColumnPlain col).length < 2 ^ 32

theorem readColumn_columnBytes {name : String} (h : ColumnFits name col) (rest : Bytes) :
    readColumn (columnBytes name col ++ rest) = .ok ((name, col), rest) := by
  have hbytes : columnBytes name col ++ rest = leBytes 2 (asBytes name).length ++ (asBytes name ++
      (EncodingType.plain.toByte ::
        (leBytes 4 (encodeColumnPlain col).length ++ (encodeColumnPlain col ++ rest)))) := by
    simp [columnBytes]
  have hname : (asBytes name).length < 256 ^ 2 := h.name
  have hencoded : (encodeColumnPlain col).length < 256 ^ 4 := h.encoded
  simp only [hbytes, readColumn, ok_bind, readNum_leBytes hname, readText_asBytes, readU8, readNum_leBytes hencoded,
    slice_append, decodeColumnPlain_encodeColumnPlain h.values hencoded]

variable {names : List String}

theorem readColumns_flatMap {colOf : String → ColumnData} (h : ∀ name ∈ names, ColumnFits name (colOf name))
    (before : List String) (columns : ColumnMap) :
    readColumns names.length (names.flatMap fun name => columnBytes name (colOf name)) before columns =
      .ok (before ++ names, columns.insertAll (names.map fun name => (name, colOf name))) := by
  induction names generalizing before columns with
  | nil => exact congrArg (fun l => Except.ok (l, columns)) (List.append_nil before).symm
  | cons name names ih =>
    obtain ⟨hname, hnames⟩ := List.forall_mem_cons.1 h
    simp only [List.length_cons, readColumns, List.flatMap_cons, readColumn_columnBytes hname, ok_bind, ih hnames,
      List.append_assoc]
    rfl

theorem length_readColumns {n : Nat} {data : Bytes} {names' : List String} {columns columns' : ColumnMap}
    (h : readColumns n data names columns = .ok (names', columns')) :
    columns'.entries.length ≤ n + columns.entries.length := by
  induction n generalizing data names columns with
  | zero =>
    cases h
    exact Nat.le_of_eq (Nat.zero_add _).symm
  | succ n ih =>
    obtain ⟨⟨p, rest⟩, -, hrest⟩ := bind_eq_ok.1 h
    have hle := ih hrest
    have hinsert : (columns.insert p.1 p.2).entries.length ≤ columns.entries.length + 1 := by
      rw [length_insert]
      split <;> omega
    omega

/-- The values of a column, and none for a column that the group lacks. -/
def RowGroup.colOf (group : RowGroup) (name : String) : ColumnData := (group.columns.get name).getD []

/-- A group as it stands in the file, with its columns in the given order. -/
def groupBytes (p : List String × RowGroup) : Bytes :=
  leBytes 4 p.1.length ++ (leBytes 4 p.2.size ++ p.1.flatMap fun name => columnBytes name (p.2.colOf name))

theorem groupBytes_ne_nil (p : List String × RowGroup) : groupBytes p ≠ [] := by
  apply List.ne_nil_of_length_pos
  rw [groupBytes, List.length_append, length_leBytes]
  omega

section Group

variable {names : List String} {group : RowGroup}

theorem parseGroup_groupBytes_eq : parseGroup (groupBytes (names, group)) =
    (readColumns (names.length % 256 ^ 4) (names.flatMap fun name => columnBytes name (group.colOf name)) [] .empty
      >>= fun p => .ok { RowGroup.new p.1 with columns := p.2, size := group.size % 256 ^ 4 }.finaliseStats) := by
  simp only [parseGroup, groupBytes, readNum_leBytes_mod, ok_bind]

section

variable (hperm : names.Perm (group.columns.entries.map Prod.fst))
include hperm

theorem insertAll_columns :
    SortedMap.empty.insertAll (names.map fun name => (name, group.colOf name)) = group.columns := by
  apply ext_get
  intro name
  have hmem : name ∈ names ↔ ∃ col, group.columns.get name = some col := by
    rw [hperm.mem_iff, List.mem_map]
    constructor
    · rintro ⟨⟨key, col⟩, hentry, rfl⟩
      exact ⟨col, mem_entries_iff.1 hentry⟩
    · rintro ⟨col, hcol⟩
      exact ⟨(name, col), mem_entries_iff.2 hcol, rfl⟩
  cases hcol : group.columns.get name with
  | none =>
    apply get_insertAll_of_ne
    rintro p hp rfl
    obtain ⟨name', hname', rfl⟩ := List.mem_map.1 hp
    obtain ⟨col, hsome⟩ := hmem.1 hname'
    exact absurd (hcol.symm.trans hsome) (by simp)
  | some col =>
    have hcolOf : group.colOf name = col := by rw [RowGroup.colOf, hcol, Option.getD_some]
    apply get_insertAll_of_mem
    · exact List.mem_map.2 ⟨name, hmem.2 ⟨col, hcol⟩, by rw [hcolOf]⟩
    · intro y hy
      obtain ⟨name', -, heq⟩ := List.mem_map.1 hy
      cases heq
      exact hcolOf

/-- A group is read back when its columns can be counted, too, and its size fits. -/
theorem parseGroup_groupBytes
    (hfits : ∀ name col, group.columns.get name = some col → ColumnFits name col)
    (hcols : group.columns.entries.length < 256 ^ 4) (hsize : group.size < 256 ^ 4) :
    ∃ group', parseGroup (groupBytes (names, group)) = .ok group' ∧ group'.columns = group.columns ∧
      group'.size = group.size := by
  have hlen : names.length = group.columns.entries.length := by
    rw [hperm.length_eq, List.length_map]
  have hcolumns : ∀ name ∈ names, ColumnFits name (group.colOf name) := by
    intro name hname
    obtain ⟨⟨key, col⟩, hentry, rfl⟩ := List.mem_map.1 (hperm.mem_iff.1 hname)
    have hget := mem_entries_iff.1 hentry
    rw [RowGroup.colOf, hget]
    exact hfits key col hget
  rw [parseGroup_groupBytes_eq, Nat.mod_eq_of_lt (hlen ▸ hcols), readColumns_flatMap hcolumns]
  exact ⟨_, rfl, insertAll_columns hperm, Nat.mod_eq_of_lt hsize⟩

end

theorem parseGroup_cut {group' : RowGroup} (h : parseGroup (groupBytes (names, group)) = .ok group') :
    group'.size = group.size % 256 ^ 4 ∧ group'.columns.entries.length ≤ names.length % 256 ^ 4 := by
  rw [parseGroup_groupBytes_eq] at h
  obtain ⟨⟨colNames, columns⟩, hcolumns, hgroup⟩ := bind_eq_ok.1 h
  cases hgroup
  exact ⟨rfl, length_readColumns hcolumns⟩

end Group

/-! ### What is written -/

/-- The groups, each with the order in which its columns are visited. -/
def KeyOrder.visits (order : KeyOrder) : Nat → List RowGroup → List (List String × RowGroup)
  | _, [] => []
  | i, group :: rowGroups => (order.keys i group.columns, group) :: order.visits (i + 1) rowGroups

@[simp] theorem KeyOrder.map_snd_visits (order : KeyOrder) (i : Nat) (rowGroups : List RowGroup) :
    (order.visits i rowGroups).map Prod.snd = rowGroups := by
  induction rowGroups generalizing i with
  | nil => rfl
  | cons group rowGroups ih => rw [visits, List.map_cons, ih]

@[simp] theorem KeyOrder.length_visits (order : KeyOrder) (i : Nat) (rowGroups : List RowGroup) :
    (order.visits i rowGroups).length = rowGroups.length := by
  rw [← List.length_map (f := Prod.snd), map_snd_visits]

variable {rowGroups : List RowGroup} {p : List String × RowGroup}

theorem KeyOrder.perm_of_mem_visits (order : KeyOrder) {i : Nat} (h : p ∈ order.visits i rowGroups) :
    p.1.Perm (p.2.columns.entries.map Prod.fst) := by
  induction rowGroups generalizing i with
  | nil => cases h
  | cons group rowGroups ih =>
    rcases List.mem_cons.1 h with rfl | h
    · exact order.perm i group.columns
    · exact ih h

/-- The footer of a file. -/
def footerBytes (offsets : List Nat) (footerOffset : Nat) : Bytes :=
  leBytes 4 offsets.length ++ (offsets.flatMap (leBytes 8) ++ leBytes 8 footerOffset)

variable {out out' : Bytes}

theorem writePieces_eq_some {pieces : List Bytes} (h : writePieces out pieces = some out') :
    out' = out ++ pieces.flatten ∧ (pieces ≠ [] → out'.length < 2 ^ 63) := by
  induction pieces generalizing out with
  | nil =>
    cases h
    exact ⟨(List.append_nil _).symm, fun hne => absurd rfl hne⟩
  | cons piece pieces ih =>
    obtain ⟨next, hnext, hrest⟩ := Option.bind_eq_some_iff.1 h
    obtain ⟨hlt, hnext⟩ := Option.ite_none_right_eq_some.1 hnext
    cases hnext
    obtain ⟨hout, hshort⟩ := ih hrest
    refine ⟨by rw [hout, List.flatten_cons, List.append_assoc], fun _ => ?_⟩
    by_cases hpieces : pieces = []
    · subst hpieces
      rw [hout, List.flatten_nil, List.append_nil, List.length_append]
      exact hlt
    · exact hshort hpieces

variable {group : RowGroup}

theorem writeColumn_eq_some {name : String} (h : writeColumn group.columns out name = some out') :
    out' = out ++ columnBytes name (group.colOf name) := by
  rw [writeColumn] at h
  cases hcol : group.columns.get name with
  | none =>
    rw [hcol] at h
    exact absurd h (by simp)
  | some col =>
    rw [hcol] at h
    have hout := (writePieces_eq_some h).1
    rw [RowGroup.colOf, hcol, hout]
    simp [columnBytes]

theorem writeColumns_eq_some (h : names.foldlM (writeColumn group.columns) out = some out') :
    out' = out ++ names.flatMap fun name => columnBytes name (group.colOf name) := by
  induction names generalizing out with
  | nil =>
    cases h
    exact (List.append_nil _).symm
  | cons name names ih =>
    obtain ⟨next, hnext, hrest⟩ := Option.bind_eq_some_iff.1 h
    rw [ih hrest, writeColumn_eq_some hnext, List.flatMap_cons, List.append_assoc]

theorem writeGroup_eq_some (h : writeGroup names group out = some out') : out' = out ++ groupBytes (names, group) := by
  obtain ⟨next, hnext, hrest⟩ := Option.bind_eq_some_iff.1 h
  rw [writeColumns_eq_some hrest, (writePieces_eq_some hnext).1]
  simp [groupBytes]

variable {order : KeyOrder}

theorem writeGroups_eq_some {i : Nat} {offsets offsets' : List Nat}
    (h : writeGroups order i rowGroups out offsets = some (out', offsets')) :
    out' = out ++ logOf groupBytes (order.visits i rowGroups) ∧
      offsets' = offsets ++ starts groupBytes out.length (order.visits i rowGroups) := by
  induction rowGroups generalizing i out offsets with
  | nil =>
    cases h
    exact ⟨(List.append_nil _).symm, (List.append_nil _).symm⟩
  | cons group rowGroups ih =>
    obtain ⟨next, hnext, hrest⟩ := Option.bind_eq_some_iff.1 h
    obtain ⟨hout, hoffsets⟩ := ih hrest
    have hgroup := writeGroup_eq_some hnext
    constructor
    · rw [hout, hgroup, KeyOrder.visits, logOf_cons, List.append_assoc]
    · rw [hoffsets, hgroup, List.append_assoc, List.length_append]
      rfl

/-- The parts of a file with the given groups. -/
structure Layout (file : Bytes) (visits : List (List String × RowGroup)) (offsets : List Nat) : Prop where
  eq : file = magic ++ (logOf groupBytes visits ++
    footerBytes offsets (magic.length + (logOf groupBytes visits).length))
  starts : offsets = starts groupBytes magic.length visits
  short : file.length < 2 ^ 63

theorem layout_of_writeFile {file : Bytes} {offsets : List Nat}
    (h : writeFile order rowGroups = some (file, offsets)) : Layout file (order.visits 0 rowGroups) offsets := by
  rw [writeFile, Option.bind_eq_bind, Option.bind_eq_some_iff] at h
  obtain ⟨front, hfront, h⟩ := h
  rw [Option.bind_eq_bind, Option.bind_eq_some_iff] at h
  obtain ⟨⟨body, offsets₁⟩, hgroups, h⟩ := h
  obtain ⟨out, hfooter, h⟩ := Option.bind_eq_some_iff.1 h
  cases h
  have hmagic := (writePieces_eq_some hfront).1
  obtain ⟨hbody, hoffsets⟩ := writeGroups_eq_some hgroups
  obtain ⟨hout, hshort⟩ := writePieces_eq_some hfooter
  have hfront' : front = magic := by
    rw [hmagic]
    simp
  rw [hfront'] at hbody hoffsets
  refine ⟨?_, hoffsets, hshort (by simp)⟩
  rw [hout, hbody, List.append_assoc, List.length_append, footerBytes, List.flatten_cons, List.flatten_append,
    List.flatten_singleton]
  rfl

/-! ### What is read -/

section Layout

variable {file : Bytes} {visits : List (List String × RowGroup)} {offsets : List Nat}

theorem readOffsets_flatMap (h : ∀ o ∈ offsets, o < 256 ^ 8) (rest : Bytes) :
    readOffsets offsets.length (offsets.flatMap (leBytes 8) ++ rest) = .ok offsets := by
  induction offsets with
  | nil => rfl
  | cons o offsets ih =>
    obtain ⟨ho, hoffsets⟩ := List.forall_mem_cons.1 h
    simp only [List.length_cons, readOffsets, List.flatMap_cons, List.append_assoc, readNum_leBytes ho, ok_bind,
      ih hoffsets]

theorem length_readOffsets {n : Nat} {data : Bytes} (h : readOffsets n data = .ok offsets) :
    offsets.length = n := by
  induction n generalizing data offsets with
  | zero =>
    cases h
    rfl
  | succ n ih =>
    obtain ⟨p, -, h⟩ := bind_eq_ok.1 h
    obtain ⟨rest, hrest, h⟩ := bind_eq_ok.1 h
    cases h
    rw [List.length_cons, ih hrest]

theorem length_readGroups {l : List Nat} {footerOffset : Nat} {groups : List RowGroup}
    (h : readGroups file offsets footerOffset l = .ok groups) : groups.length = l.length := by
  induction l generalizing groups with
  | nil =>
    cases h
    rfl
  | cons o l ih =>
    obtain ⟨group, -, h⟩ := bind_eq_ok.1 h
    obtain ⟨rest, hrest, h⟩ := bind_eq_ok.1 h
    cases h
    rw [List.length_cons, List.length_cons, ih hrest]

theorem Layout.readFile_eq (h : Layout file visits offsets) : readFile file =
    (readNum 4 (footerBytes offsets (magic.length + (logOf groupBytes visits).length)) >>= fun p =>
      readOffsets p.1 p.2 >>= fun groupOffsets =>
        readGroups file groupOffsets (magic.length + (logOf groupBytes visits).length) groupOffsets) := by
  have hfront : readExact 8 file = some (magic, file.drop 8) := by
    have hread := readExact_append magic
      (logOf groupBytes visits ++ footerBytes offsets (magic.length + (logOf groupBytes visits).length))
    rw [← h.eq] at hread
    exact hread.trans (congrArg (fun r => some (magic, r)) (by rw [h.eq]; rfl))
  have hshort := h.short
  have hlength := congrArg List.length h.eq
  simp only [List.length_append, footerBytes, length_leBytes] at hlength
  have hfit : magic.length + (logOf groupBytes visits).length < 256 ^ 8 := by
    have hpow : (256 : Nat) ^ 8 = 2 ^ 64 := by decide
    omega
  have hlast : ofLeBytes (file.drop (file.length - 8)) = magic.length + (logOf groupBytes visits).length := by
    have hdrop : file.drop (file.length - 8) = leBytes 8 (magic.length + (logOf groupBytes visits).length) := by
      have hsplit : file = (magic ++ (logOf groupBytes visits ++ (leBytes 4 offsets.length ++
          offsets.flatMap (leBytes 8)))) ++ leBytes 8 (magic.length + (logOf groupBytes visits).length) := by
        rw [h.eq]
        simp [footerBytes]
      conv_lhs => rw [hsplit]
      apply List.drop_left'
      simp only [List.length_append, length_leBytes]
      omega
    rw [hdrop, ofLeBytes_leBytes, Nat.mod_eq_of_lt hfit]
  have hfooter : file.drop (magic.length + (logOf groupBytes visits).length) =
      footerBytes offsets (magic.length + (logOf groupBytes visits).length) := by
    conv_lhs => rw [h.eq]
    rw [← List.append_assoc]
    exact List.drop_left' (List.length_append ..)
  rw [readFile, hfront]
  show (if magic = magic then readBody file else .error .badMagic) = _
  rw [if_pos rfl, readBody]
  simp only [hlast, hfooter]

theorem nextOffset_starts {i : Nat} (hi : i < visits.length) (pos : Nat) :
    nextOffset (starts groupBytes pos visits) (pos + (logOf groupBytes visits).length)
      (pos + (logOf groupBytes (visits.take i)).length) =
        some (pos + (logOf groupBytes (visits.take (i + 1))).length) := by
  have hstart := @getElem?_starts _ _ groupBytes visits i hi pos
  have hnodup := nodup_starts groupBytes_ne_nil pos visits
  have hlen : (starts groupBytes pos visits).length = visits.length := length_starts pos visits
  have hidx : (starts groupBytes pos visits).idxOf (pos + (logOf groupBytes (visits.take i)).length) = i := by
    obtain ⟨h, hget⟩ := List.getElem?_eq_some_iff.1 hstart
    rw [← hget]
    exact hnodup.idxOf_getElem i h
  rw [nextOffset, hidx, List.getLast?_eq_getElem?, hlen]
  by_cases hlast : i + 1 = visits.length
  · have hpred : visits.length - 1 = i := by omega
    rw [hpred, if_pos hstart, hlast, List.take_length]
  · -- another group begins after this one, at another offset
    have hne : (starts groupBytes pos visits)[visits.length - 1]? ≠
        some (pos + (logOf groupBytes (visits.take i)).length) := by
      intro heq
      rw [← hstart] at heq
      have hlt : visits.length - 1 < (starts groupBytes pos visits).length := by omega
      have hsame := (List.getElem?_inj hlt hnodup).1 heq
      omega
    rw [if_neg hne]
    exact getElem?_starts (by omega) pos

theorem Layout.readGroup_eq (h : Layout file visits offsets) {i : Nat}
    (hp : visits[i]? = some p) : readGroup file offsets (magic.length + (logOf groupBytes visits).length)
      (magic.length + (logOf groupBytes (visits.take i)).length) = parseGroup (groupBytes p) := by
  obtain ⟨hi, hget⟩ := List.getElem?_eq_some_iff.1 hp
  have htake : (logOf groupBytes (visits.take (i + 1))).length =
      (logOf groupBytes (visits.take i)).length + (groupBytes p).length := by
    rw [List.take_succ_eq_append_getElem hi, logOf_append, List.length_append, hget]
    simp
  have hdrop : file.drop (magic.length + (logOf groupBytes (visits.take i)).length) =
      groupBytes p ++ (logOf groupBytes (visits.drop (i + 1)) ++
        footerBytes offsets (magic.length + (logOf groupBytes visits).length)) := by
    conv_lhs => rw [h.eq]
    rw [List.drop_length_add_append, slice_log hp]
  have hnext := nextOffset_starts hi magic.length
  rw [← h.starts] at hnext
  have hnot : ¬ magic.length + (logOf groupBytes (visits.take (i + 1))).length <
      magic.length + (logOf groupBytes (visits.take i)).length := by omega
  have hsize : magic.length + (logOf groupBytes (visits.take (i + 1))).length -
      (magic.length + (logOf groupBytes (visits.take i)).length) = (groupBytes p).length := by omega
  have hsmall : ¬ 2 ^ 63 ≤ (groupBytes p).length := by
    -- the group is a part of the file
    have hlength := congrArg List.length hdrop
    have hshort := h.short
    rw [List.length_drop, List.length_append] at hlength
    omega
  simp only [readGroup, hnext, if_neg hnot, hsize, if_neg hsmall, hdrop, readExact_append]

variable {read : List RowGroup}

theorem readGroups_eq_ok {footerOffset : Nat} {l : List Nat}
    (h : List.Forall₂ (fun o p => readGroup file offsets footerOffset o = parseGroup (groupBytes p)) l visits) :
    readGroups file offsets footerOffset l = .ok read ↔
      List.Forall₂ (fun p group => parseGroup (groupBytes p) = .ok group) visits read := by
  induction h generalizing read with
  | nil =>
    rw [List.forall₂_nil_left_iff]
    constructor
    · intro hread
      cases hread
      rfl
    · rintro rfl
      rfl
  | cons hp _ ih =>
    rw [readGroups, hp, bind_eq_ok, List.forall₂_cons_left_iff]
    constructor
    · rintro ⟨group, hgroup, hread⟩
      obtain ⟨rest, hrest, hread⟩ := bind_eq_ok.1 hread
      cases hread
      exact ⟨group, rest, hgroup, ih.1 hrest, rfl⟩
    · rintro ⟨group, rest, hgroup, hrest, rfl⟩
      refine ⟨group, hgroup, ?_⟩
      rw [ih.2 hrest]
      rfl

/-- What a file is read as: each group as its own bytes say, when the groups can be counted. -/
theorem Layout.readFile_eq_ok (h : Layout file visits offsets) (hcount : visits.length < 256 ^ 4) :
    readFile file = .ok read ↔
      List.Forall₂ (fun p group => parseGroup (groupBytes p) = .ok group) visits read := by
  have hlen : offsets.length = visits.length := by rw [h.starts, length_starts]
  have hlength := congrArg List.length h.eq
  have hshort := h.short
  simp only [List.length_append] at hlength
  have hpow : (256 : Nat) ^ 8 = 2 ^ 64 := by decide
  have hat : ∀ i, i < visits.length →
      offsets[i]? = some (magic.length + (logOf groupBytes (visits.take i)).length) := by
    intro i hi
    rw [h.starts]
    exact getElem?_starts hi _
  have hbound : ∀ o ∈ offsets, o < 256 ^ 8 := by
    intro o ho
    obtain ⟨i, hi⟩ := List.mem_iff_getElem?.1 ho
    have hlt := (List.getElem?_eq_some_iff.1 hi).1
    rw [hat i (hlen ▸ hlt)] at hi
    cases hi
    have hle : (logOf groupBytes (visits.take i)).length ≤ (logOf groupBytes visits).length := by
      conv_rhs => rw [← List.take_append_drop i visits, logOf_append, List.length_append]
      exact Nat.le_add_right _ _
    omega
  have hgroups : List.Forall₂ (fun o p => readGroup file offsets (magic.length + (logOf groupBytes visits).length) o =
      parseGroup (groupBytes p)) offsets visits := by
    rw [List.forall₂_iff_get]
    refine ⟨hlen, fun i ho hi => ?_⟩
    have hoffset := hat i hi
    rw [List.getElem?_eq_getElem ho, Option.some.injEq] at hoffset
    rw [List.get_eq_getElem, List.get_eq_getElem, hoffset]
    exact h.readGroup_eq (List.getElem?_eq_getElem hi)
  rw [h.readFile_eq, footerBytes, readNum_leBytes (hlen ▸ hcount)]
  simp only [ok_bind, readOffsets_flatMap hbound]
  exact readGroups_eq_ok hgroups

theorem Layout.length_of_readFile (h : Layout file visits offsets) (hread : readFile file = .ok read) :
    read.length = visits.length % 256 ^ 4 := by
  have hlen : offsets.length = visits.length := by rw [h.starts, length_starts]
  rw [h.readFile_eq, footerBytes, readNum_leBytes_mod, ok_bind] at hread
  obtain ⟨groupOffsets, hoffsets, hgroups⟩ := bind_eq_ok.1 hread
  rw [length_readGroups hgroups, length_readOffsets hoffsets, hlen]

end Layout

/-- The group that was read has the columns and the size of the one that was written. -/
structure SameGroup (written read : RowGroup) : Prop where
  columns : read.columns = written.columns
  size : read.size = written.size

theorem length_keys {i : Nat} (h : p ∈ order.visits i rowGroups) : p.1.length = p.2.columns.entries.length := by
  rw [(order.perm_of_mem_visits h).length_eq, List.length_map]

variable {visits : List (List String × RowGroup)}

theorem exists_forall₂_sameGroup
    (h : ∀ p ∈ visits, ∃ group', parseGroup (groupBytes p) = .ok group' ∧ SameGroup p.2 group') :
    ∃ read, List.Forall₂ (fun p group => parseGroup (groupBytes p) = .ok group) visits read ∧
      List.Forall₂ SameGroup (visits.map Prod.snd) read := by
  induction visits with
  | nil => exact ⟨[], .nil, .nil⟩
  | cons p visits ih =>
    obtain ⟨⟨group', hparse, hsame⟩, hrest⟩ := List.forall_mem_cons.1 h
    obtain ⟨read, hparsed, hsameRest⟩ := ih hrest
    exact ⟨group' :: read, .cons hparse hparsed, .cons hsame hsameRest⟩

theorem counts_of_forall₂ {read : List RowGroup}
    (hlength : ∀ p ∈ visits, p.1.length = p.2.columns.entries.length)
    (hparsed : List.Forall₂ (fun p group => parseGroup (groupBytes p) = .ok group) visits read)
    (hsame : List.Forall₂ SameGroup (visits.map Prod.snd) read) :
    ∀ p ∈ visits, p.2.columns.entries.length < 256 ^ 4 ∧ p.2.size < 256 ^ 4 := by
  induction hparsed with
  | nil => exact fun p hp => absurd hp List.not_mem_nil
  | @cons p group' visits read hone _ ih =>
    rw [List.map_cons, List.forall₂_cons] at hsame
    obtain ⟨hp, hrest⟩ := List.forall_mem_cons.1 hlength
    refine List.forall_mem_cons.2 ⟨?_, ih hrest hsame.2⟩
    -- the group was read from its own bytes, where its size and the number of its columns are cut
    obtain ⟨hsize, hcolumns⟩ := parseGroup_cut hone
    rw [hsame.1.size] at hsize
    rw [hsame.1.columns, hp] at hcolumns
    have hmod : ∀ n : Nat, n % 256 ^ 4 < 256 ^ 4 := fun n => Nat.mod_lt n (by decide)
    exact ⟨Nat.lt_of_le_of_lt hcolumns (hmod _), hsize ▸ hmod _⟩

/-- **Reading a written file.** When the names and the columns of all groups fit their fields, the groups are read back
exactly when there are fewer than `2 ^ 32` groups, each with fewer than `2 ^ 32` columns and rows. In any case the
offsets in the footer are where the groups begin. -/
theorem read_write_file_iff (order : KeyOrder) (rowGroups : List RowGroup) {file : Bytes} {offsets : List Nat}
    (hfits : ∀ group ∈ rowGroups, ∀ name col, group.columns.get name = some col → ColumnFits name col)
    (hwrite : writeFile order rowGroups = some (file, offsets)) :
    ((∃ read, readFile file = .ok read ∧ List.Forall₂ SameGroup rowGroups read) ↔
      rowGroups.length < 2 ^ 32 ∧
        ∀ group ∈ rowGroups, group.columns.entries.length < 2 ^ 32 ∧ group.size < 2 ^ 32) ∧
    Layout file (order.visits 0 rowGroups) offsets := by
  have h := layout_of_writeFile hwrite
  have hlen := order.length_visits 0 rowGroups
  have hsnd := order.map_snd_visits 0 rowGroups
  have hpow : (2 : Nat) ^ 32 = 256 ^ 4 := by decide
  rw [hpow]
  refine ⟨⟨?_, ?_⟩, h⟩
  · rintro ⟨read, hread, hsame⟩
    have hcount : rowGroups.length < 256 ^ 4 := by
      have hcut := h.length_of_readFile hread
      rw [← hsame.length_eq, hlen] at hcut
      rw [hcut]
      exact Nat.mod_lt _ (by decide)
    have hparsed := (h.readFile_eq_ok (hlen ▸ hcount)).1 hread
    refine ⟨hcount, fun group hgroup => ?_⟩
    rw [← hsnd] at hgroup hsame
    obtain ⟨p, hp, rfl⟩ := List.mem_map.1 hgroup
    exact counts_of_forall₂ (fun p hp => length_keys hp) hparsed hsame p hp
  · rintro ⟨hcount, hgroups⟩
    have hall : ∀ p ∈ order.visits 0 rowGroups, ∃ group', parseGroup (groupBytes p) = .ok group' ∧
        SameGroup p.2 group' := by
      intro p hp
      have hmem : p.2 ∈ rowGroups := hsnd ▸ List.mem_map_of_mem hp
      obtain ⟨hcols, hsize⟩ := hgroups p.2 hmem
      obtain ⟨group', hparse, hcolumns, hsame⟩ :=
        parseGroup_groupBytes (order.perm_of_mem_visits hp) (hfits p.2 hmem) hcols hsize
      exact ⟨group', hparse, hcolumns, hsame⟩
    obtain ⟨read, hparsed, hsame⟩ := exists_forall₂_sameGroup hall
    rw [hsnd] at hsame
    exact ⟨read, (h.readFile_eq_ok (hlen ▸ hcount)).2 hparsed, hsame⟩

/-- A group with an integer, a text and a double is read back; it begins behind the magic bytes. -/
theorem read_write_file_price :
    let group : RowGroup :=
      ⟨empty.insert "price" [.int (-3), .str "free", .float 0x7FF8000000000001], .empty, 3⟩
    ∃ file, writeFile .sorted [group] = some (file, [8]) ∧
      ∃ read, readFile file = .ok read ∧ List.Forall₂ SameGroup [group] read := by
  intro group
  have hwrite : (writeFile .sorted [group]).map Prod.snd = some [8] := by decide
  obtain ⟨⟨file, offsets⟩, hfile, hoffsets⟩ := Option.map_eq_some_iff.1 hwrite
  have hfits : ∀ g ∈ [group], ∀ name col, g.columns.get name = some col → ColumnFits name col := by
    intro g hg name col hcol
    cases List.mem_singleton.1 hg
    have hentry : (name, col) ∈ group.columns.entries := mem_entries_iff.2 hcol
    cases List.mem_singleton.1 hentry
    exact ⟨by decide, by decide, by decide⟩
  have hread := (read_write_file_iff .sorted [group] hfits hfile).1.2 ⟨by decide, by decide⟩
  cases hoffsets
  exact ⟨file, hfile, hread⟩

/-- The number of rows is cut off: a group of `2 ^ 32` rows without columns is read as one without rows. -/
theorem size_of_group_cut_off :
    let group : RowGroup := ⟨.empty, .empty, 2 ^ 32⟩
    (∀ name col, group.columns.get name = some col → ColumnFits name col) ∧
      ∃ file offsets, writeFile .sorted [group] = some (file, offsets) ∧
        ¬ ∃ read, readFile file = .ok read ∧ List.Forall₂ SameGroup [group] read := by
  intro group
  refine ⟨fun name col hcol => absurd hcol (by simp [group]), ?_⟩
  have hwrite : (writeFile .sorted [group]).map (fun p => (readFile p.1).toOption) =
      some (some [⟨.empty, .empty, 0⟩]) := by decide
  obtain ⟨⟨file, offsets⟩, hfile, hread⟩ := Option.map_eq_some_iff.1 hwrite
  refine ⟨file, offsets, hfile, ?_⟩
  rintro ⟨read, hok, hsame⟩
  rw [hok] at hread
  cases hread
  have hsize := (List.forall₂_cons.1 hsame).1.size
  exact absurd hsize (by decide)

end SystemDesignLabs.ColumnarStorage
