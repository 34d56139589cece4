import SystemDesignLabs.Core.TransitionSystem
import SystemDesignLabs.DocumentDb.Store

/-!
# Torn collection files

A crash may leave a collection file that ends in a part of a record. `open` and `find` read up to that part, and
`insert` appends after it: `get` returns the new document in the same session, but no scan of the file comes to
it. In every run in which no document is inserted behind a part of a record, every complete document is returned
by `get` and `find` of both versions (`documents_survive`).
-/

namespace SystemDesignLabs.DocumentDb

open List (append_nil map_map mem_append mem_cons mem_map mem_singleton not_mem_nil)
open Option (bind_eq_some_iff bind_some getD_some isSome_iff_exists map_eq_some_iff some_inj)

open Core SortedMap

/-! ### Runs -/

/-- The calls of a version of the store. -/
structure Engine (σ : Type) where
  openDir : Dir → σ
  insert : Dir → σ → String → DocId → Value → Dir × σ
  createIndex : Dir → σ → String → String → Option σ
  get : Dir → σ → String → DocId → Except IoError (Option Value)
  find : Dir → σ → String → Filter → Except IoError (List Value)
  hasIndex : σ → String → String → Bool

def V1.engine : Engine V1.DocumentStore where
  openDir := V1.openDir
  insert := V1.insert
  createIndex := fun _ _ _ _ => none
  get := V1.get
  find := V1.find
  hasIndex := fun _ _ _ => false

def V2.engine (numberString : Number → String) : Engine V2.DocumentStore where
  openDir := V2.openDir
  insert := V2.insert numberString
  createIndex := fun dir store collection field => some (V2.createIndex numberString dir store collection field)
  get := V2.get
  find := V2.find numberString
  hasIndex := V2.hasIndex

/-- A directory, the store that has it open, and the complete documents of each collection in the order of their
insertion. -/
structure World (σ : Type) where
  dir : Dir
  store : Option σ
  records : String → List Record

/-- What happens to a directory: calls that succeed, the end of the process, and the loss of what stands behind the
first bytes of a file in a crash. -/
inductive Op where
  | openDir
  | insert (collection : String) (id : DocId) (doc : Json)
  | createIndex (collection field : String)
  | close
  | tear (collection : String) (kept : Nat)

/-- `new_doc_id` generates a text of 36 bytes that no document of the collection has. -/
def IsNewId (records : List Record) (id : DocId) : Prop :=
  (strBytes id).length = 36 ∧ ∀ r ∈ records, r.id ≠ id

instance (records : List Record) (id : DocId) : Decidable (IsNewId records id) :=
  inferInstanceAs (Decidable (_ ∧ _))

def setRecords (records : String → List Record) (collection : String) (rs : List Record) : String → List Record :=
  fun c => if c = collection then rs else records c

/-- One step. -/
def step {σ : Type} (e : Engine σ) (w : World σ) : Op → Option (World σ)
  | .openDir =>
    match w.store with
    | none => some { w with store := some (e.openDir w.dir) }
    | some _ => none
  | .insert collection id doc =>
    match w.store with
    | some store =>
      if IsNewId (w.records collection) id then
        let r := e.insert w.dir store collection id doc.value
        some ⟨r.1, some r.2, setRecords w.records collection (w.records collection ++ [⟨id, doc⟩])⟩
      else none
    | none => none
  | .createIndex collection field =>
    w.store.bind fun store =>
      (e.createIndex w.dir store collection field).map fun store => { w with store := some store }
  | .close =>
    match w.store with
    | some _ => some { w with store := none }
    | none => none
  | .tear collection kept =>
    match w.store, w.dir.get (collectionPath collection) with
    | none, some bytes =>
      some { w with
        dir := w.dir.insert (collectionPath collection) (bytes.take kept)
        records := setRecords w.records collection (wholeRecords Record.encode kept (w.records collection)) }
    | _, _ => none

def World.initial (σ : Type) : World σ :=
  ⟨.empty, none, fun _ => []⟩

/-! ### Statement -/

/-- The two are the two zeros among the doubles, in either order. -/
def OtherZero : Value → Value → Prop
  | .number (.float a), .number (.float b) => a ≠ b ∧ IsZero a.1 ∧ IsZero b.1
  | _, _ => False

/-- A filter compares no indexed field of a document with the other zero. -/
def ZerosAgree {σ : Type} (e : Engine σ) (store : σ) (collection : String) (filter : Filter) (doc : Value) : Prop :=
  ∀ field expected actual, (field, expected) ∈ filter → e.hasIndex store collection field = true →
    doc.asObject.bind (SortedList.find · field) = some actual → ¬ OtherZero actual expected

/-- Every complete document is returned by `get` and by each `find` whose filter it matches. -/
structure Returned {σ : Type} (e : Engine σ) (w : World σ) (store : σ) : Prop where
  get : ∀ collection, ∀ r ∈ w.records collection, e.get w.dir store collection r.id = .ok (some r.stored)
  find : ∀ collection, ∀ r ∈ w.records collection, ∀ filter, matchesFilter r.stored filter = true →
    ZerosAgree e store collection filter r.stored → ∃ docs, e.find w.dir store collection filter = .ok docs ∧ r.stored ∈ docs

/-- The collection has a file of its own in the directory. -/
def IsFileName (collection : String) : Prop :=
  collection ≠ "" ∧ '/' ∉ collection.toList

instance (collection : String) : Decidable (IsFileName collection) :=
  inferInstanceAs (Decidable (_ ∧ _))

/-- The file of the collection is its complete documents and nothing else. -/
def World.Whole {σ : Type} (w : World σ) (collection : String) : Prop :=
  (w.dir.get (collectionPath collection)).getD [] = logOf Record.encode (w.records collection)

instance {σ : Type} (w : World σ) (collection : String) : Decidable (w.Whole collection) :=
  inferInstanceAs (Decidable (_ = _))

/-- A document is inserted behind complete documents only, and the format can carry it. -/
def BehindWhole {σ : Type} (w : World σ) : Op → Prop
  | .insert collection id doc => w.Whole collection ∧ IsFileName collection ∧ (⟨id, doc⟩ : Record).fits = true
  | _ => True

instance {σ : Type} (w : World σ) (op : Op) : Decidable (BehindWhole w op) := by
  cases op
  case insert collection id doc =>
    exact inferInstanceAs (Decidable (w.Whole collection ∧ IsFileName collection ∧ (⟨id, doc⟩ : Record).fits = true))
  all_goals exact isTrue trivial

/-! ### Files and offsets -/

theorem collectionPath_injective : Function.Injective collectionPath := fun _ _ h =>
  String.append_left_inj _ |>.1 h

theorem splitAtDot_collectionPath {collection : String} (h : collection ≠ "") :
    splitAtDot (collectionPath collection) = some (collection, "db") := by
  have hne : collection.toList.reverse ≠ [] := by
    rw [ne_eq, List.reverse_eq_nil_iff, String.toList_eq_nil_iff]
    exact h
  obtain ⟨c, stem, hstem⟩ := List.exists_cons_of_ne_nil hne
  have hname : (collectionPath collection).toList.reverse = 'b' :: 'd' :: '.' :: c :: stem := by
    rw [collectionPath, String.toList_append, List.reverse_append, hstem]
    rfl
  have hback : (c :: stem).reverse = collection.toList := by rw [← hstem, List.reverse_reverse]
  rw [splitAtDot, hname]
  show some (String.ofList (c :: stem).reverse, String.ofList ['d', 'b']) = _
  rw [hback, String.ofList_toList]

theorem mem_collections {dir : Dir} {collection : String} {bytes : Bytes} (hname : IsFileName collection)
    (h : dir.get (collectionPath collection) = some bytes) : collection ∈ collections dir := by
  refine List.mem_filterMap.2 ⟨(collectionPath collection, bytes), mem_entries_iff.2 h, ?_⟩
  have hslash : '/' ∉ (collectionPath collection).toList := by
    rw [collectionPath, String.toList_append, mem_append, not_or]
    exact ⟨hname.2, by decide⟩
  dsimp only
  rw [if_neg hslash, splitAtDot_collectionPath hname.1]
  rfl

theorem readAt_record {r : Record} {id : DocId} {doc : Value} (hlen : (encodePayload r.id r.stored).length < 256 ^ 4)
    (hread : decodePayload (encodePayload r.id r.stored) = .ok (id, doc)) {bytes rest : Bytes} {q : Nat}
    (hdrop : bytes.drop q = r.encode ++ rest) : readAt bytes q = .ok doc := by
  have hprefix := readExact_append (lenBytes 4 (encodePayload r.id r.stored).length) (encodePayload r.id r.stored ++ rest)
  rw [lenBytes, length_leBytes, ← List.append_assoc] at hprefix
  have hwhole := decodeDocument_encodeDocument hlen []
  rw [hread, append_nil, encodeDocument, lenBytes] at hwhole
  rw [readAt, hdrop, Record.encode, encodeDocument, lenBytes, hprefix]
  dsimp only
  rw [ofLeBytes_leBytes, Nat.mod_eq_of_lt hlen, readExact_append]
  dsimp only
  rw [hwhole]
  rfl

/-- Each file is the complete documents of its collection, and a torn record behind them. -/
structure FilesInv (dir : Dir) (records : String → List Record) : Prop where
  file : ∀ c, ∃ rest, recordFormat.Torn rest
    ∧ (dir.get (collectionPath c)).getD [] = logOf Record.encode (records c) ++ rest
  fits : ∀ c, ∀ r ∈ records c, r.fits = true
  ids : ∀ c, ((records c).map Record.id).Nodup
  named : ∀ c, records c ≠ [] → IsFileName c

/-- The offset of each complete document is known. -/
def OffsetsInv (offsets : Offsets) (records : String → List Record) : Prop :=
  ∀ c r q, (r, q) ∈ placed Record.encode 0 (records c) → (offsets.get c).bind (·.get r.id) = some q

namespace FilesInv

variable {dir : Dir} {records : String → List Record} {c : String}

variable {r : Record}

theorem exists_file (h : FilesInv dir records) (hr : r ∈ records c) : ∃ bytes rest,
    dir.get (collectionPath c) = some bytes ∧ recordFormat.Torn rest ∧ bytes = logOf Record.encode (records c) ++ rest := by
  obtain ⟨rest, htorn, hfile⟩ := h.file c
  cases hget : dir.get (collectionPath c) with
  | some bytes =>
    rw [hget] at hfile
    exact ⟨bytes, rest, rfl, htorn, hfile⟩
  | none =>
    rw [hget] at hfile
    obtain ⟨before, after, hsplit⟩ := List.append_of_mem hr
    have hlen := congrArg List.length hfile
    have hpos := List.length_pos_of_ne_nil r.encode_ne_nil
    rw [hsplit, logOf_append, logOf_cons] at hlen
    simp only [Option.getD_none, List.length_nil, List.length_append] at hlen
    omega

/-- A scan reads the complete documents, with their offsets. -/
theorem scan_file (h : FilesInv dir records) (c : String) : scan ((dir.get (collectionPath c)).getD []) =
    (placed Record.encode 0 (records c)).map fun p => ((p.1.id, p.1.stored), p.2) := by
  obtain ⟨rest, htorn, hfile⟩ := h.file c
  rw [hfile]
  exact recordFormat.scanRecords_log htorn (h.fits c)

variable {bytes : Bytes}

section

variable (h : FilesInv dir records)
include h

theorem scan_eq (hget : dir.get (collectionPath c) = some bytes) :
    scan bytes = (placed Record.encode 0 (records c)).map fun p => ((p.1.id, p.1.stored), p.2) := by
  have hscan := h.scan_file c
  rwa [hget] at hscan

theorem eq_of_same_id {r' : Record} {q q' : Nat}
    (hr : (r, q) ∈ placed Record.encode 0 (records c)) (hr' : (r', q') ∈ placed Record.encode 0 (records c))
    (hid : r.id = r'.id) : q = q' := by
  have hnodup := h.ids c
  rw [← @map_fst_placed _ _ Record.encode 0 (records c), map_map] at hnodup
  exact congrArg Prod.snd (List.inj_on_of_nodup_map hnodup hr hr' hid)

theorem rebuildIndex_self (offsets : Offsets) {q : Nat}
    (hr : (r, q) ∈ placed Record.encode 0 (records c)) :
    ((rebuildIndex dir offsets c).get c).bind (·.get r.id) = some q := by
  obtain ⟨bytes, rest, hget, -, -⟩ := h.exists_file (mem_of_mem_placed hr)
  rw [rebuildIndex, hget]
  dsimp only
  rw [get_insert, if_pos rfl, h.scan_eq hget, map_map]
  refine get_insertAll_of_mem _ (mem_map.2 ⟨(r, q), hr, rfl⟩) fun q' hq' => ?_
  obtain ⟨⟨r', q''⟩, hr', heq⟩ := mem_map.1 hq'
  obtain ⟨hid, rfl⟩ := Prod.mk.inj heq
  exact h.eq_of_same_id hr' hr hid

end

theorem rebuildIndex_other (dir : Dir) (offsets : Offsets) {c' : String} (hne : c ≠ c') :
    (rebuildIndex dir offsets c').get c = offsets.get c := by
  rw [rebuildIndex]
  split
  · rfl
  · rw [get_insert, if_neg hne]

section

variable (h : FilesInv dir records)
include h

/-- `open` finds the offset of every complete document. -/
theorem openOffsets : OffsetsInv (openOffsets dir) records := by
  intro c r q hr
  have hmem := mem_of_mem_placed hr
  obtain ⟨bytes, -, hget, -, -⟩ := h.exists_file hmem
  have hlisted : c ∈ collections dir := mem_collections (h.named c (List.ne_nil_of_mem hmem)) hget
  -- once the file was scanned, the scans of other files keep the offset
  have hkeep : ∀ (cs : List String) (offsets : Offsets),
      c ∈ cs ∨ (offsets.get c).bind (·.get r.id) = some q →
      ((cs.foldl (rebuildIndex dir) offsets).get c).bind (·.get r.id) = some q := by
    intro cs
    induction cs with
    | nil => exact fun offsets hor => hor.resolve_left not_mem_nil
    | cons c' cs ih =>
      intro offsets hor
      rw [List.foldl_cons]
      by_cases heq : c = c'
      · subst heq
        exact ih _ (.inr (h.rebuildIndex_self offsets hr))
      · refine ih _ (hor.imp (fun hin => (mem_cons.1 hin).resolve_left heq) fun hold => ?_)
        rw [rebuildIndex_other dir offsets heq]
        exact hold
  exact hkeep _ _ (.inl hlisted)

theorem readAt_placed (hget : dir.get (collectionPath c) = some bytes) {q : Nat}
    (hr : (r, q) ∈ placed Record.encode 0 (records c)) : readAt bytes q = .ok r.stored := by
  obtain ⟨rest, -, hfile⟩ := h.file c
  rw [hget] at hfile
  obtain rfl : bytes = logOf Record.encode (records c) ++ rest := hfile
  obtain ⟨-, rest', hdrop⟩ := drop_log hr rest
  have hfits := h.fits c r (mem_of_mem_placed hr)
  rw [Nat.sub_zero] at hdrop
  exact readAt_record (Record.fits_iff.1 hfits).2.2.2 (Record.decodePayload_stored hfits) hdrop

/-- `get` returns every complete document. -/
theorem getDocument {offsets : Offsets} (hoffsets : OffsetsInv offsets records)
    (hr : r ∈ records c) : getDocument dir offsets c r.id = .ok (some r.stored) := by
  obtain ⟨q, hq⟩ := @exists_placed _ _ Record.encode _ _ hr 0
  obtain ⟨bytes, -, hget, -, -⟩ := h.exists_file hr
  rw [DocumentDb.getDocument, hoffsets c r q hq]
  dsimp only
  rw [hget]
  dsimp only
  rw [h.readAt_placed hget hq]
  rfl

/-- A scan of the file returns the complete documents that match. -/
theorem mem_scanDocuments (hr : r ∈ records c) {filter : Filter}
    (hmatches : matchesFilter r.stored filter = true) : r.stored ∈ scanDocuments dir c filter := by
  obtain ⟨bytes, -, hget, -, -⟩ := h.exists_file hr
  obtain ⟨q, hq⟩ := @exists_placed _ _ Record.encode _ _ hr 0
  rw [scanDocuments, hget]
  dsimp only
  rw [h.scan_eq hget, map_map]
  exact List.mem_filter.2 ⟨mem_map.2 ⟨(r, q), hq, rfl⟩, hmatches⟩

/-- A document is inserted behind complete documents. -/
theorem append (hname : IsFileName c) (hfits : r.fits = true)
    (hnew : ∀ r' ∈ records c, r'.id ≠ r.id)
    (hwhole : (dir.get (collectionPath c)).getD [] = logOf Record.encode (records c)) :
    FilesInv (dir.insert (collectionPath c) ((dir.get (collectionPath c)).getD [] ++ r.encode))
      (setRecords records c (records c ++ [r])) where
  file := by
    intro c'
    by_cases heq : c' = c
    · subst heq
      refine ⟨[], .inl rfl, ?_⟩
      rw [get_insert, if_pos rfl, setRecords, if_pos rfl, hwhole, logOf_append, logOf_cons, logOf_nil,
        append_nil, append_nil]
      rfl
    · have hpath : collectionPath c' ≠ collectionPath c := fun hp => heq (collectionPath_injective hp)
      rw [get_insert, if_neg hpath, setRecords, if_neg heq]
      exact h.file c'
  fits := by
    intro c' r' hr'
    rw [setRecords] at hr'
    split at hr'
    · rcases mem_append.1 hr' with hr' | hr'
      · exact h.fits c r' hr'
      · rw [mem_singleton.1 hr']
        exact hfits
    · exact h.fits c' r' hr'
  ids := by
    intro c'
    rw [setRecords]
    split
    · rw [List.map_append, List.map_singleton]
      refine List.Nodup.append (h.ids c) (List.nodup_singleton _) ?_
      rintro id hid hlast
      obtain ⟨r', hr', rfl⟩ := mem_map.1 hid
      exact hnew r' hr' (mem_singleton.1 hlast)
    · exact h.ids c'
  named := by
    intro c' hne
    rw [setRecords] at hne
    split at hne
    · next heq => exact heq ▸ hname
    · exact h.named c' hne

/-- A crash leaves a front of a file. -/
theorem tear (hget : dir.get (collectionPath c) = some bytes) (kept : Nat) :
    FilesInv (dir.insert (collectionPath c) (bytes.take kept))
      (setRecords records c (wholeRecords Record.encode kept (records c))) where
  file := by
    intro c'
    by_cases heq : c' = c
    · subst heq
      obtain ⟨rest, htorn, hfile⟩ := h.file c'
      rw [hget] at hfile
      obtain rfl : bytes = logOf Record.encode (records c') ++ rest := hfile
      obtain ⟨rest', htorn', hcut⟩ := recordFormat.take_log htorn (h.fits c') kept
      refine ⟨rest', htorn', ?_⟩
      rw [get_insert, if_pos rfl, setRecords, if_pos rfl]
      exact hcut
    · have hpath : collectionPath c' ≠ collectionPath c := fun hp => heq (collectionPath_injective hp)
      rw [get_insert, if_neg hpath, setRecords, if_neg heq]
      exact h.file c'
  fits := by
    intro c' r' hr'
    rw [setRecords] at hr'
    split at hr'
    · exact h.fits c r' ((wholeRecords_front kept (records c)).mem hr')
    · exact h.fits c' r' hr'
  ids := by
    intro c'
    rw [setRecords]
    split
    · exact (h.ids c).sublist ((wholeRecords_front kept (records c)).sublist.map _)
    · exact h.ids c'
  named := by
    intro c' hne
    rw [setRecords] at hne
    split at hne
    · next heq =>
      refine heq ▸ h.named c fun hnil => hne ?_
      rw [hnil]
      rfl
    · exact h.named c' hne

end

theorem initial : FilesInv .empty fun _ => [] :=
  ⟨fun _ => ⟨[], .inl rfl, rfl⟩, nofun, fun _ => List.nodup_nil, fun _ h => absurd rfl h⟩

end FilesInv

theorem OffsetsInv.append {offsets : Offsets} {records : String → List Record} (h : OffsetsInv offsets records)
    {c : String} {r : Record} (hnew : ∀ r' ∈ records c, r'.id ≠ r.id) {bytes : Bytes}
    (hwhole : bytes = logOf Record.encode (records c)) :
    OffsetsInv (offsets.insert c (((offsets.get c).getD .empty).insert r.id bytes.length))
      (setRecords records c (records c ++ [r])) := by
  intro c' r' q hr'
  rw [setRecords] at hr'
  split at hr'
  · next heq =>
    subst heq
    rw [get_insert, if_pos rfl, bind_some, get_insert]
    rw [placed_append, mem_append] at hr'
    rcases hr' with hold | hlast
    · rw [if_neg (hnew r' (mem_of_mem_placed hold))]
      have hget := h c' r' q hold
      cases hindex : offsets.get c' with
      | none =>
        rw [hindex] at hget
        cases hget
      | some index =>
        rw [hindex] at hget
        exact hget
    · obtain ⟨rfl, rfl⟩ := Prod.mk.inj (mem_singleton.1 hlast)
      rw [if_pos rfl, hwhole, Nat.zero_add]
  · next hne =>
    rw [get_insert, if_neg hne]
    exact h c' r' q hr'

/-! ### Runs of both versions -/

section Engine

variable {σ : Type} {e : Engine σ} {offsets : σ → Offsets}

/-- A version of the store treats the files and the offsets as version 1 does. -/
structure Engine.Appends (e : Engine σ) (offsets : σ → Offsets) : Prop where
  openDir : ∀ dir, offsets (e.openDir dir) = openOffsets dir
  insert : ∀ dir store collection id doc,
    ((e.insert dir store collection id doc).1, offsets (e.insert dir store collection id doc).2) =
      appendDocument dir (offsets store) collection id doc
  createIndex : ∀ dir store collection field store', e.createIndex dir store collection field = some store' →
    offsets store' = offsets store
  get : ∀ dir store collection id, e.get dir store collection id = getDocument dir (offsets store) collection id

/-- The files are in order, and so are the offsets of the store that has them open. -/
structure Inv (offsets : σ → Offsets) (w : World σ) : Prop where
  files : FilesInv w.dir w.records
  offsets : ∀ store, w.store = some store → OffsetsInv (offsets store) w.records

/-- Every step keeps the invariant, an insertion if it is behind complete documents. -/
theorem Inv.step (he : e.Appends offsets) {w w' : World σ} {op : Op} (h : Inv offsets w) (hok : BehindWhole w op)
    (hstep : DocumentDb.step e w op = some w') : Inv offsets w' := by
  cases op with
  | openDir =>
    simp only [DocumentDb.step] at hstep
    split at hstep
    · cases hstep
      refine ⟨h.files, fun store hstore => ?_⟩
      obtain rfl := some_inj.1 hstore
      rw [he.openDir]
      exact h.files.openOffsets
    · cases hstep
  | insert c id doc =>
    simp only [DocumentDb.step] at hstep
    split at hstep
    · next store hstore =>
      obtain ⟨⟨-, hnew⟩, hstep⟩ := Option.ite_none_right_eq_some.1 hstep
      cases hstep
      obtain ⟨hwhole, hname, hfits⟩ := hok
      have hinsert := he.insert w.dir store c id doc.value
      obtain ⟨hdir, hoffsets⟩ := Prod.mk.inj hinsert
      refine ⟨?_, fun store' hstore' => ?_⟩
      · rw [hdir]
        exact h.files.append hname (r := ⟨id, doc⟩) hfits hnew hwhole
      · obtain rfl := some_inj.1 hstore'
        rw [hoffsets]
        exact (h.offsets store hstore).append (r := ⟨id, doc⟩) hnew hwhole
    · cases hstep
  | createIndex c field =>
    obtain ⟨store, hstore, hstep⟩ := bind_eq_some_iff.1 hstep
    obtain ⟨store', hcreate, rfl⟩ := map_eq_some_iff.1 hstep
    refine ⟨h.files, fun store'' hstore' => ?_⟩
    obtain rfl := some_inj.1 hstore'
    rw [he.createIndex _ _ _ _ _ hcreate]
    exact h.offsets store hstore
  | close =>
    simp only [DocumentDb.step] at hstep
    split at hstep
    · cases hstep
      exact ⟨h.files, nofun⟩
    · cases hstep
  | tear c kept =>
    simp only [DocumentDb.step] at hstep
    split at hstep
    · next bytes hstore hget =>
      cases hstep
      refine ⟨h.files.tear hget kept, fun store hrunning => ?_⟩
      rw [hstore] at hrunning
      cases hrunning
    · cases hstep

theorem Inv.of_run (he : e.Appends offsets) {w : World σ}
    (h : ReachableIf (DocumentDb.step e) BehindWhole (World.initial σ) w) : Inv offsets w :=
  h.invariant ⟨FilesInv.initial, nofun⟩ fun _ _ _ _ hinv hok hstep => hinv.step he hok hstep

end Engine

theorem V1.engine_appends : V1.engine.Appends V1.DocumentStore.offsets :=
  ⟨fun _ => rfl, fun _ _ _ _ _ => rfl, nofun, fun _ _ _ _ => rfl⟩

theorem V2.engine_appends (numberString : Number → String) :
    (V2.engine numberString).Appends V2.DocumentStore.offsets :=
  ⟨fun _ => rfl, fun _ _ _ _ _ => rfl, fun _ _ _ _ _ h => some_inj.1 h ▸ rfl, fun _ _ _ _ => rfl⟩

theorem V1.returned {w : World V1.DocumentStore} {store : V1.DocumentStore}
    (h : Inv V1.DocumentStore.offsets w) (hstore : w.store = some store) : Returned V1.engine w store where
  get := fun _ _ hr => h.files.getDocument (h.offsets store hstore) hr
  find := fun _ _ hr _ hmatches _ => ⟨_, rfl, h.files.mem_scanDocuments hr hmatches⟩

/-! ### Secondary indexes -/

/-- The value of a field of a document. -/
def fieldOf (field : String) (doc : Value) : Option Value :=
  doc.asObject.bind (SortedList.find · field)

theorem indexKey_eq (numberString : Number → String) {v v' : Value} (h : v.eq v' = true) (hzero : ¬ OtherZero v v') :
    indexKey numberString v = indexKey numberString v' := by
  cases v with
  | number m =>
    cases v' with
    | number n =>
      rcases Number.eq_iff.1 h with rfl | ⟨a, b, rfl, rfl, ha, hb⟩
      · rfl
      · have heq : a = b := by
          by_contra hne
          exact hzero ⟨hne, ha, hb⟩
        rw [heq]
    | _ => cases h
  | null =>
    cases v' with
    | null => rfl
    | _ => cases h
  | bool b =>
    cases v' with
    | bool b' => rw [eq_of_beq (show (b == b') = true from h)]
    | _ => cases h
  | string s =>
    cases v' with
    | string t => rw [eq_of_beq (show (s == t) = true from h)]
    | _ => cases h
  | array items =>
    cases v' with
    | array items' => rfl
    | _ => cases h
  | object fields =>
    cases v' with
    | object fields' => rfl
    | _ => cases h

theorem fieldOf_of_matchesFilter {doc : Value} {filter : Filter} (h : matchesFilter doc filter = true)
    {field : String} {expected : Value} (hmem : (field, expected) ∈ filter) :
    ∃ actual, fieldOf field doc = some actual ∧ actual.eq expected = true := by
  rw [matchesFilter, if_neg (List.ne_nil_of_mem hmem)] at h
  split at h
  · cases h
  · next obj hobj =>
    have hfield := List.all_eq_true.1 h _ hmem
    dsimp only at hfield
    split at hfield
    · next actual hactual => exact ⟨actual, by rw [fieldOf, hobj, bind_some, hactual], hfield⟩
    · cases hfield

namespace V2

variable {numberString : Number → String}

/-- The index of a field has the ids of the documents with a value for it, each under the key of its value. -/
structure Indexes (numberString : Number → String) (field : String) (rs : List Record) (index : FieldIndex) : Prop where
  complete : ∀ r ∈ rs, ∀ v, fieldOf field r.stored = some v →
    ∃ ids, index.get (indexKey numberString v) = some ids ∧ r.id ∈ ids
  sound : ∀ key ids, index.get key = some ids → ∀ id ∈ ids, ∃ r ∈ rs, r.id = id

/-- The key of a field of a document. -/
def fieldKey (numberString : Number → String) (field : String) (doc : Value) : Option String :=
  (fieldOf field doc).map (indexKey numberString)

/-- An index has, under each key, the ids of the documents whose field has that key, in their order. The documents are
those that `read` reads of the records. -/
def Lists (numberString : Number → String) (read : Record → Value) (field : String) (rs : List Record)
    (index : FieldIndex) : Prop :=
  ∀ key, (index.get key).getD [] = (rs.filter fun r => fieldKey numberString field (read r) = some key).map Record.id

section Lists

variable {read : Record → Value} {field : String} {rs : List Record} {index : FieldIndex}

/-- A document is added to an index. -/
theorem Lists.add (h : Lists numberString read field rs index) {r : Record} {doc : Value}
    (hkey : fieldKey numberString field doc = fieldKey numberString field (read r)) :
    Lists numberString read field (rs ++ [r]) (addToIndex numberString field index r.id doc) := by
  intro key
  rw [List.filter_append, List.map_append, ← h key, List.filter_singleton, ← hkey, addToIndex]
  cases hfield : fieldOf field doc with
  | none =>
    have hnone : doc.asObject.bind (SortedList.find · field) = none := hfield
    rw [hnone, fieldKey, hfield]
    exact (append_nil _).symm
  | some val =>
    have hsome : doc.asObject.bind (SortedList.find · field) = some val := hfield
    rw [hsome, fieldKey, hfield, Option.map_some]
    dsimp only
    rw [get_insert]
    by_cases heq : key = indexKey numberString val
    · rw [if_pos heq, heq, decide_eq_true rfl]
      rfl
    · rw [if_neg heq, decide_eq_false fun h => heq (some_inj.1 h).symm]
      exact (append_nil _).symm

theorem lists_of_records (field : String) (rs : List Record) : Lists numberString read field rs
    (rs.foldl (fun index r => addToIndex numberString field index r.id (read r)) .empty) := by
  induction rs using List.reverseRecOn with
  | nil => exact fun _ => rfl
  | append_singleton rs r ih =>
    rw [List.foldl_append]
    exact ih.add rfl

theorem Lists.indexes (h : Lists numberString Record.stored field rs index) : Indexes numberString field rs index where
  complete := by
    intro r hr v hv
    have hkey : fieldKey numberString field r.stored = some (indexKey numberString v) := by rw [fieldKey, hv]; rfl
    have hmem : r.id ∈ (rs.filter fun r =>
        fieldKey numberString field r.stored = some (indexKey numberString v)).map Record.id :=
      List.mem_map_of_mem (List.mem_filter.2 ⟨hr, decide_eq_true hkey⟩)
    rw [← h] at hmem
    cases hget : index.get (indexKey numberString v) with
    | none =>
      rw [hget] at hmem
      exact absurd hmem not_mem_nil
    | some ids =>
      rw [hget] at hmem
      exact ⟨ids, rfl, hmem⟩
  sound := by
    intro key ids hids id hid
    have hlist := h key
    rw [hids, getD_some] at hlist
    rw [hlist] at hid
    obtain ⟨r, hr, hid⟩ := mem_map.1 hid
    exact ⟨r, List.mem_of_mem_filter hr, hid⟩

end Lists

/-- Every index has the complete documents of its collection. -/
def IndexInv (numberString : Number → String) (store : DocumentStore) (records : String → List Record) : Prop :=
  ∀ c fields, store.indexes.get c = some fields → ∀ field index, fields.get field = some index →
    Indexes numberString field (records c) index

/-- Every index lists the documents of its collection. -/
def ListInv (numberString : Number → String) (read : Record → Value) (store : DocumentStore)
    (records : String → List Record) : Prop :=
  ∀ c fields, store.indexes.get c = some fields → ∀ field index, fields.get field = some index →
    Lists numberString read field (records c) index

section ListInv

variable {read : Record → Value} {store : DocumentStore} {records : String → List Record}

theorem ListInv.createIndex {dir : Dir} (h : ListInv numberString read store records) (hscan : ∀ c,
      scan ((dir.get (collectionPath c)).getD []) =
        (placed Record.encode 0 (records c)).map fun p => ((p.1.id, read p.1), p.2)) (c field : String) :
    ListInv numberString read (createIndex numberString dir store c field) records := by
  intro c' fields' hfields' field' index' hindex'
  rw [V2.createIndex, get_insert] at hfields'
  split at hfields'
  · next heq =>
    subst heq
    obtain rfl := some_inj.1 hfields'
    rw [get_insert] at hindex'
    split at hindex'
    · next hfield =>
      subst hfield
      obtain rfl := some_inj.1 hindex'
      have hbuilt := @lists_of_records numberString read field' (records c')
      rw [← @map_fst_placed _ _ Record.encode 0 (records c'), List.foldl_map, map_fst_placed] at hbuilt
      have hfile := hscan c'
      cases hget : dir.get (collectionPath c') with
      | none =>
        rw [hget] at hfile
        have hnil : placed Record.encode 0 (records c') = [] := List.map_eq_nil_iff.1 hfile.symm
        rw [hnil] at hbuilt
        exact hbuilt
      | some bytes =>
        rw [hget, getD_some] at hfile
        dsimp only
        rw [hfile, List.foldl_map]
        exact hbuilt
    · cases hold : store.indexes.get c' with
      | none =>
        rw [hold] at hindex'
        cases hindex'
      | some fields =>
        rw [hold] at hindex'
        exact h c' fields hold field' index' hindex'
  · exact h c' fields' hfields' field' index' hindex'

theorem ListInv.insert (h : ListInv numberString read store records) (dir : Dir) (c : String) {r : Record}
    (hkeys : ∀ field, fieldKey numberString field r.stored = fieldKey numberString field (read r)) :
    ListInv numberString read (insert numberString dir store c r.id r.doc.value).2
      (setRecords records c (records c ++ [r])) := by
  intro c' fields' hfields' field' index' hindex'
  have hother : ∀ fields, store.indexes.get c' = some fields → c' ≠ c → fields.get field' = some index' →
      Lists numberString read field' (setRecords records c (records c ++ [r]) c') index' := by
    intro fields hfields hne hindex
    rw [setRecords, if_neg hne]
    exact h c' fields hfields field' index' hindex
  rw [V2.insert] at hfields'
  dsimp only at hfields'
  split at hfields'
  · next fields hfields =>
    rw [get_insert] at hfields'
    split at hfields'
    · next heq =>
      subst heq
      obtain rfl := some_inj.1 hfields'
      rw [get_mapEntries] at hindex'
      obtain ⟨index, hindex, rfl⟩ := map_eq_some_iff.1 hindex'
      rw [setRecords, if_pos rfl]
      exact (h c' fields hfields field' index hindex).add (hkeys field')
    · next hne => exact hother fields' hfields' hne hindex'
  · next hnone =>
    refine hother fields' hfields' (fun heq => ?_) hindex'
    rw [heq, hnone] at hfields'
    cases hfields'

end ListInv

theorem IndexInv.of_run {w : World DocumentStore}
    (h : ReachableIf (step (engine numberString)) BehindWhole (World.initial _) w) :
    ∀ store, w.store = some store → IndexInv numberString store w.records := by
  suffices hlists : ∀ store, w.store = some store → ListInv numberString Record.stored store w.records from
    fun store hstore c fields hfields field index hindex =>
      (hlists store hstore c fields hfields field index hindex).indexes
  refine ReachableIf.invariant (I := fun w => ∀ store, w.store = some store →
      ListInv numberString Record.stored store w.records)
    (fun _ h => by cases h) (fun w op w' hreach hinv hok hstep store hstore => ?_) h
  have hfiles := (Inv.of_run (engine_appends numberString) hreach).files
  cases op with
  | openDir =>
    simp only [step] at hstep
    split at hstep
    · cases hstep
      obtain rfl := some_inj.1 hstore
      exact nofun
    · cases hstep
  | insert c id doc =>
    simp only [step] at hstep
    split at hstep
    · next before hbefore =>
      obtain ⟨-, hstep⟩ := Option.ite_none_right_eq_some.1 hstep
      cases hstep
      obtain rfl := some_inj.1 hstore
      exact (hinv before hbefore).insert w.dir c (r := ⟨id, doc⟩) fun _ => rfl
    · cases hstep
  | createIndex c field =>
    obtain ⟨before, hbefore, hstep⟩ := bind_eq_some_iff.1 hstep
    obtain ⟨after, hcreate, rfl⟩ := map_eq_some_iff.1 hstep
    obtain rfl := some_inj.1 hstore
    obtain rfl := some_inj.1 hcreate
    exact (hinv before hbefore).createIndex hfiles.scan_file c field
  | close =>
    simp only [step] at hstep
    split at hstep
    · cases hstep
      cases hstore
    · cases hstep
  | tear c kept =>
    simp only [step] at hstep
    split at hstep
    · next bytes hnone hget =>
      cases hstep
      rw [hnone] at hstore
      cases hstore
    · cases hstep

theorem fetch_of_records {dir : Dir} {store : DocumentStore} {records : String → List Record}
    (hfiles : FilesInv dir records) (hoffsets : OffsetsInv store.offsets records) (c : String) (filter : Filter)
    {ids : List DocId} (hids : ∀ id ∈ ids, ∃ r ∈ records c, r.id = id) : ∃ docs, fetch dir store c filter ids = .ok docs
      ∧ ∀ r ∈ records c, r.id ∈ ids → matchesFilter r.stored filter = true → r.stored ∈ docs := by
  induction ids with
  | nil => exact ⟨[], rfl, fun _ _ h => absurd h not_mem_nil⟩
  | cons id ids ih =>
    obtain ⟨⟨r, hr, rfl⟩, hrest⟩ := List.forall_mem_cons.1 hids
    obtain ⟨docs, hdocs, hmem⟩ := ih hrest
    have hget : get dir store c r.id = .ok (some r.stored) := hfiles.getDocument hoffsets hr
    rw [fetch, hget, hdocs]
    refine ⟨_, rfl, fun r' hr' hid hmatches => ?_⟩
    rcases mem_cons.1 hid with hid | hid
    · have hget' : get dir store c r'.id = .ok (some r'.stored) := hfiles.getDocument hoffsets hr'
      rw [hid, hget] at hget'
      have hsame : r.stored = r'.stored := some_inj.1 (Except.ok.inj hget')
      refine List.mem_append_left _ ?_
      rw [hsame, Option.filter_some, if_pos hmatches]
      exact mem_singleton.2 rfl
    · exact List.mem_append_right _ (hmem r' hr' hid hmatches)

/-- Version 2 returns every complete document. -/
theorem returned {w : World DocumentStore} {store : DocumentStore} (h : Inv DocumentStore.offsets w)
    (hstore : w.store = some store) (hindex : IndexInv numberString store w.records) :
    Returned (engine numberString) w store where
  get := fun _ _ hr => h.files.getDocument (h.offsets store hstore) hr
  find := by
    intro c r hr filter hmatches hzeros
    show ∃ docs, find numberString w.dir store c filter = .ok docs ∧ r.stored ∈ docs
    rw [find]
    dsimp only
    split
    · next index expected hindexed =>
      obtain ⟨fields, hfields, hfirst⟩ := bind_eq_some_iff.1 hindexed
      obtain ⟨⟨field, expected'⟩, hmem, hfound⟩ := List.exists_of_findSome?_eq_some hfirst
      obtain ⟨index', hindex', heq⟩ := map_eq_some_iff.1 hfound
      obtain ⟨rfl, rfl⟩ := Prod.mk.inj heq
      have hok := hindex c fields hfields field index' hindex'
      have hhas : hasIndex store c field = true := by rw [hasIndex, hfields, bind_some, hindex']; rfl
      -- the document has the key of the expected value
      obtain ⟨actual, hactual, hequal⟩ := fieldOf_of_matchesFilter hmatches hmem
      have hkey := indexKey_eq numberString hequal (hzeros field expected' actual hmem hhas hactual)
      obtain ⟨ids, hids, hid⟩ := hok.complete r hr actual hactual
      rw [← hkey, hids]
      obtain ⟨docs, hdocs, hreturned⟩ :=
        fetch_of_records h.files (h.offsets store hstore) c filter (hok.sound _ ids hids)
      exact ⟨docs, hdocs, hreturned r hr hid hmatches⟩
    · exact ⟨_, rfl, h.files.mem_scanDocuments hr hmatches⟩

end V2

/-! ### Runs -/

/-- **Every complete document is returned** by both versions, in every run in which documents are inserted behind
complete documents only. -/
theorem documents_survive (numberString : Number → String) :
    (∀ (w : World V1.DocumentStore) store, ReachableIf (step V1.engine) BehindWhole (World.initial _) w →
      w.store = some store → Returned V1.engine w store)
    ∧ ∀ (w : World V2.DocumentStore) store,
      ReachableIf (step (V2.engine numberString)) BehindWhole (World.initial _) w →
      w.store = some store → Returned (V2.engine numberString) w store := by
  constructor
  · exact fun w store h hstore => V1.returned (Inv.of_run V1.engine_appends h) hstore
  · intro w store h hstore
    exact V2.returned (Inv.of_run (V2.engine_appends numberString) h) hstore (V2.IndexInv.of_run h store hstore)

/-- A document with one field. -/
def nameDoc (name : String) : Json where
  value := .object [("name", .string name)]
  sorted := ⟨List.pairwise_singleton _ _, trivial, trivial⟩

def aliceId : DocId := "0f8fad5b-d9cb-469f-a165-70867728950e"

def bobId : DocId := "7c9e6679-7425-40de-944b-e07fc1f90ae7"

def carolId : DocId := "9b2f6a44-3c1d-4e8a-8f57-2d1a0c6be934"

/-- Two documents are inserted, and a crash leaves the second in part. -/
def tornSecond : List Op :=
  [.openDir, .insert "users" aliceId (nameDoc "Alice"), .insert "users" bobId (nameDoc "Bob"), .close,
    .tear "users" 150, .openDir]

/-- After that run the store is open, the first document is returned, and documents go on in another collection. -/
theorem documents_survive_torn_second :
    (∃ w store, ReachableIf (step V1.engine) BehindWhole (World.initial _) w ∧ w.store = some store
      ∧ (w.records "users").map Record.id = [aliceId] ∧ (w.records "orders").map Record.id = [carolId]
      ∧ Returned V1.engine w store)
    ∧ ∃ w store, ReachableIf (step (V2.engine fun _ => "")) BehindWhole (World.initial _) w ∧ w.store = some store
      ∧ (w.records "users").map Record.id = [aliceId] ∧ (w.records "orders").map Record.id = [carolId]
      ∧ Returned (V2.engine fun _ => "") w store := by
  constructor
  · have hrun : (execIf (step V1.engine) (fun w op => decide (BehindWhole w op)) (World.initial _)
        (tornSecond ++ [.insert "orders" carolId (nameDoc "Carol")])).map (fun w =>
          decide (w.store.isSome ∧ (w.records "users").map Record.id = [aliceId]
            ∧ (w.records "orders").map Record.id = [carolId])) = some true := by decide
    obtain ⟨w, hs, hfacts⟩ := map_eq_some_iff.1 hrun
    obtain ⟨hopen, husers, horders⟩ := of_decide_eq_true hfacts
    obtain ⟨store, hstore⟩ := isSome_iff_exists.1 hopen
    have hreach : ReachableIf (step V1.engine) BehindWhole (World.initial _) w :=
      ReachableIf.init.execIf (fun _ _ => of_decide_eq_true) hs
    exact ⟨w, store, hreach, hstore, husers, horders, (documents_survive fun _ => "").1 w store hreach hstore⟩
  · have hrun : (execIf (step (V2.engine fun _ => "")) (fun w op => decide (BehindWhole w op)) (World.initial _)
        (tornSecond ++ [.createIndex "orders" "name", .insert "orders" carolId (nameDoc "Carol")])).map (fun w =>
          decide (w.store.isSome ∧ (w.records "users").map Record.id = [aliceId]
            ∧ (w.records "orders").map Record.id = [carolId])) = some true := by rfl
    obtain ⟨w, hs, hfacts⟩ := map_eq_some_iff.1 hrun
    obtain ⟨hopen, husers, horders⟩ := of_decide_eq_true hfacts
    obtain ⟨store, hstore⟩ := isSome_iff_exists.1 hopen
    have hreach : ReachableIf (step (V2.engine fun _ => "")) BehindWhole (World.initial _) w :=
      ReachableIf.init.execIf (fun _ _ => of_decide_eq_true) hs
    exact ⟨w, store, hreach, hstore, husers, horders, (documents_survive _).2 w store hreach hstore⟩

/-- The id that is embedded in a document. -/
def embeddedId (doc : Value) : Option String :=
  match fieldOf "_id" doc with
  | some (.string id) => some id
  | _ => none

/-- After that run a third document is inserted behind the part of the second. -/
def insertBehindTorn : List Op :=
  tornSecond ++ [.insert "users" carolId (nameDoc "Carol")]

theorem V2.find_nil (numberString : Number → String) (dir : Dir) (store : DocumentStore) (c : String) :
    find numberString dir store c [] = .ok (scanDocuments dir c []) := by
  rw [find]
  cases store.indexes.get c <;> rfl

theorem not_returned_of_run {σ : Type} {e : Engine σ}
    (hfind : ∀ dir store c, e.find dir store c [] = .ok (scanDocuments dir c []))
    (hrun : (exec (step e) (World.initial _) insertBehindTorn).map (fun w =>
      decide (w.store.isSome ∧ (w.records "users").map (fun r => embeddedId r.stored) = [some aliceId, some carolId]
        ∧ (scanDocuments w.dir "users" []).map embeddedId = [some aliceId])) = some true) :
    ∃ w store, Reachable (step e) (World.initial _) w ∧ w.store = some store ∧ ¬ Returned e w store := by
  obtain ⟨w, hs, hfacts⟩ := map_eq_some_iff.1 hrun
  obtain ⟨hopen, hrecords, hscan⟩ := of_decide_eq_true hfacts
  obtain ⟨store, hstore⟩ := isSome_iff_exists.1 hopen
  obtain ⟨r, hr, hid⟩ := mem_map.1 (hrecords ▸ (by decide : some carolId ∈ [some aliceId, some carolId]))
  refine ⟨w, store, reachable_of_exec hs, hstore, fun h => ?_⟩
  obtain ⟨docs, hdocs, hmem⟩ := h.find "users" r hr [] rfl nofun
  rw [hfind] at hdocs
  obtain rfl := Except.ok.inj hdocs
  have hscanned := List.mem_map_of_mem (f := embeddedId) hmem
  rw [hscan, hid] at hscanned
  revert hscanned
  decide

/-- **A document behind a torn record is lost** to `find`, in both versions. -/
theorem insert_behind_torn_lost :
    (∃ w store, Reachable (step V1.engine) (World.initial _) w ∧ w.store = some store ∧ ¬ Returned V1.engine w store)
    ∧ ∃ w store, Reachable (step (V2.engine fun _ => "")) (World.initial _) w ∧ w.store = some store
      ∧ ¬ Returned (V2.engine fun _ => "") w store :=
  ⟨not_returned_of_run (fun _ _ _ => rfl) (by decide +kernel),
    not_returned_of_run (V2.find_nil _) (by decide +kernel)⟩

end SystemDesignLabs.DocumentDb
