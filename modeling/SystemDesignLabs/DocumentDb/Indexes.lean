import SystemDesignLabs.DocumentDb.TornTail

/-!
# Indexes are transparent

An index has the ids of the documents in the order of the file, each under the key of what is read of its field
(`Lists`), if `insert`, which takes the key from the document it is given, and `create_index`, which takes it from
the file, agree on it. Then `find` is `full_scan` for a filter that compares no field with the other zero.
-/

namespace SystemDesignLabs.DocumentDb

open Core

namespace Record

/-- The document that is read of a record. -/
def loaded (r : Record) : Value :=
  match decodePayload (encodePayload r.id r.stored) with
  | .ok p => p.2
  | .error _ => .null

/-- The record is read back under its id. -/
structure Reads (r : Record) : Prop where
  length : (encodePayload r.id r.stored).length < 256 ^ 4
  payload : decodePayload (encodePayload r.id r.stored) = .ok (r.id, r.loaded)

theorem loaded_of_fits {r : Record} (h : r.fits = true) : r.loaded = r.stored := by
  rw [loaded, decodePayload_stored h]

end Record

namespace V2

/-- The record is read back, each field with the key that it was inserted with. -/
structure Kept (numberString : Number → String) (r : Record) : Prop extends r.Reads where
  keys : ∀ field, fieldKey numberString field r.stored = fieldKey numberString field r.loaded

/-- Documents are inserted that the file keeps, and indexes are created. -/
def Keeping (numberString : Number → String) (_ : World DocumentStore) : Op → Prop
  | .insert _ id doc => Kept numberString ⟨id, doc⟩
  | .createIndex _ _ => True
  | _ => False

/-- A store that was opened on an empty directory. -/
def opened : World DocumentStore :=
  ⟨.empty, some (openDir .empty), fun _ => []⟩

variable {numberString : Number → String}

theorem Kept.of_fits {r : Record} (h : r.fits = true) : Kept numberString r where
  length := (Record.fits_iff.1 h).2.2.2
  payload := by rw [Record.loaded_of_fits h, Record.decodePayload_stored h]
  keys := fun field => by rw [Record.loaded_of_fits h]

/-- The records of a file without a torn part. -/
def keptFormat : RecordFormat Record (String × Value) Byte where
  Valid := Record.Reads
  encode := Record.encode
  decode := readRecord
  read := fun r => (r.id, r.loaded)
  encode_ne_nil := Record.encode_ne_nil
  decode_encode := fun r rest h => by
    rw [readRecord, Record.encode, decodeDocument_encodeDocument h.length, h.payload]
    rfl
  decode_front := fun r front h hfront hne => by
    obtain ⟨what, hwhat⟩ := Record.decodeDocument_front h.length hfront hne
    rw [readRecord, hwhat]

/-! ### Runs -/

/-- The files are the records, and the store has their offsets and lists them in its indexes. -/
structure Intact (numberString : Number → String) (w : World DocumentStore) (store : DocumentStore) : Prop where
  file : ∀ c, (w.dir.get (collectionPath c)).getD [] = logOf Record.encode (w.records c)
  kept : ∀ c, ∀ r ∈ w.records c, Kept numberString r
  offsets : OffsetsInv store.offsets w.records
  indexes : ListInv numberString Record.loaded store w.records

namespace Intact

variable {w w' : World DocumentStore} {store : DocumentStore} {c : String}

section

variable (h : Intact numberString w store)
include h

theorem scan_eq (c : String) : scan ((w.dir.get (collectionPath c)).getD []) =
    (placed Record.encode 0 (w.records c)).map fun p => ((p.1.id, p.1.loaded), p.2) := by
  have hscan := keptFormat.scanRecords_log (.inl rfl) fun r hr => (h.kept c r hr).toReads
  rw [List.append_nil] at hscan
  rw [h.file c]
  exact hscan

theorem scanDocuments_eq (c : String) (filter : Filter) :
    scanDocuments w.dir c filter = ((w.records c).map Record.loaded).filter fun doc => matchesFilter doc filter := by
  have hdocs := congrArg (List.map fun p => p.1.2) (h.scan_eq c)
  rw [List.map_map] at hdocs
  have hloaded : (w.records c).map Record.loaded =
      (scan ((w.dir.get (collectionPath c)).getD [])).map fun p => p.1.2 := by
    rw [hdocs]
    conv_lhs => rw [← @map_fst_placed _ _ Record.encode 0 (w.records c), List.map_map]
    rfl
  rw [scanDocuments, hloaded]
  cases w.dir.get (collectionPath c) <;> rfl

theorem get_eq {r : Record} (hr : r ∈ w.records c) :
    get w.dir store c r.id = .ok (some r.loaded) := by
  obtain ⟨q, hq⟩ := @exists_placed _ _ Record.encode _ _ hr 0
  obtain ⟨-, rest, hdrop⟩ := drop_log hq []
  rw [List.append_nil, ← h.file c, Nat.sub_zero] at hdrop
  rw [get, getDocument, h.offsets c r q hq]
  cases hget : w.dir.get (collectionPath c) with
  | none =>
    rw [hget, Option.getD_none, List.drop_nil] at hdrop
    exact absurd (List.append_eq_nil_iff.1 hdrop.symm).1 r.encode_ne_nil
  | some bytes =>
    rw [hget, Option.getD_some] at hdrop
    have hkept := h.kept c r hr
    dsimp only
    rw [readAt_record hkept.length hkept.payload hdrop]
    rfl

theorem fetch_eq (filter : Filter) {rs : List Record}
    (hrs : ∀ r ∈ rs, r ∈ w.records c) : fetch w.dir store c filter (rs.map Record.id) =
      .ok ((rs.map Record.loaded).filter fun doc => matchesFilter doc filter) := by
  induction rs with
  | nil => rfl
  | cons r rs ih =>
    obtain ⟨hr, hrest⟩ := List.forall_mem_cons.1 hrs
    rw [List.map_cons, List.map_cons, List.filter_cons, fetch, h.get_eq hr, ih hrest]
    show Except.ok _ = _
    rw [Option.filter_some]
    split <;> rfl

theorem insert (c : String) {r : Record} (hr : Kept numberString r)
    (hnew : ∀ r' ∈ w.records c, r'.id ≠ r.id) :
    Intact numberString ⟨(V2.insert numberString w.dir store c r.id r.doc.value).1,
        some (V2.insert numberString w.dir store c r.id r.doc.value).2, setRecords w.records c (w.records c ++ [r])⟩
      (V2.insert numberString w.dir store c r.id r.doc.value).2 where
  file := by
    intro c'
    show ((w.dir.insert _ _).get _).getD [] = logOf Record.encode (setRecords w.records c (w.records c ++ [r]) c')
    rw [SortedMap.get_insert, setRecords]
    by_cases heq : c' = c
    · rw [if_pos (congrArg collectionPath heq), if_pos heq, h.file c, logOf_append, logOf_cons, logOf_nil,
        List.append_nil]
      rfl
    · rw [if_neg fun hp => heq (collectionPath_injective hp), if_neg heq]
      exact h.file c'
  kept := by
    intro c' r' hr'
    dsimp only [setRecords] at hr'
    split at hr'
    · rcases List.mem_append.1 hr' with hold | hlast
      · exact h.kept c r' hold
      · exact List.mem_singleton.1 hlast ▸ hr
    · exact h.kept c' r' hr'
  offsets := h.offsets.append hnew (h.file c)
  indexes := h.indexes.insert w.dir c hr.keys

theorem createIndex (c field : String) :
    Intact numberString { w with store := some (V2.createIndex numberString w.dir store c field) }
      (V2.createIndex numberString w.dir store c field) where
  file := h.file
  kept := h.kept
  offsets := h.offsets
  indexes := h.indexes.createIndex h.scan_eq c field

end

theorem of_run (h : ReachableIf (step (engine numberString)) (Keeping numberString) opened w) :
    ∃ store, w.store = some store ∧ Intact numberString w store := by
  induction h with
  | init => exact ⟨_, rfl, ⟨fun _ => rfl, nofun, nofun, nofun⟩⟩
  | step op _ hok hstep ih =>
    obtain ⟨store, hstore, hintact⟩ := ih
    cases op with
    | insert c id doc =>
      simp only [step, hstore] at hstep
      obtain ⟨⟨-, hnew⟩, hstep⟩ := Option.ite_none_right_eq_some.1 hstep
      cases hstep
      exact ⟨_, rfl, hintact.insert c (r := ⟨id, doc⟩) hok hnew⟩
    | createIndex c field =>
      simp only [step, hstore] at hstep
      cases hstep
      exact ⟨_, rfl, hintact.createIndex c field⟩
    | _ => exact hok.elim

end Intact

/-- **Indexes are transparent** in every run whose documents are kept, for every filter that compares no indexed field
of a document that it matches with the other zero. -/
theorem indexes_transparent {w : World DocumentStore} {store : DocumentStore}
    (h : ReachableIf (step (engine numberString)) (Keeping numberString) opened w) (hstore : w.store = some store)
    {c : String} {filter : Filter} (hzeros : ∀ r ∈ w.records c, matchesFilter r.loaded filter = true →
      ZerosAgree (engine numberString) store c filter r.loaded) :
    find numberString w.dir store c filter = .ok (scanDocuments w.dir c filter) := by
  obtain ⟨store', hstore', hintact⟩ := Intact.of_run h
  obtain rfl := Option.some_inj.1 (hstore.symm.trans hstore')
  rw [find]
  dsimp only
  split
  · next index expected hindexed =>
    obtain ⟨fields, hfields, hfirst⟩ := Option.bind_eq_some_iff.1 hindexed
    obtain ⟨⟨field, expected'⟩, hmem, hfound⟩ := List.exists_of_findSome?_eq_some hfirst
    obtain ⟨index', hindex', heq⟩ := Option.map_eq_some_iff.1 hfound
    obtain ⟨rfl, rfl⟩ := Prod.mk.inj heq
    have hhas : hasIndex store c field = true := by rw [hasIndex, hfields, Option.bind_some, hindex']; rfl
    have hids := hintact.indexes c fields hfields field index' hindex' (indexKey numberString expected')
    have hfetch := hintact.fetch_eq filter fun r (hr : r ∈ (w.records c).filter fun r =>
      fieldKey numberString field r.loaded = some (indexKey numberString expected')) => List.mem_of_mem_filter hr
    -- a document that matches has the key of the expected value
    have hkeyed : ∀ r ∈ w.records c, matchesFilter r.loaded filter = true →
        fieldKey numberString field r.loaded = some (indexKey numberString expected') := by
      intro r hr hmatches
      obtain ⟨actual, hactual, hequal⟩ := fieldOf_of_matchesFilter hmatches hmem
      rw [fieldKey, hactual, Option.map_some,
        indexKey_eq numberString hequal (hzeros r hr hmatches field expected' actual hmem hhas hactual)]
    have hsame : (((w.records c).filter fun r => fieldKey numberString field r.loaded =
        some (indexKey numberString expected')).map Record.loaded).filter (fun doc => matchesFilter doc filter) =
          scanDocuments w.dir c filter := by
      rw [hintact.scanDocuments_eq, List.filter_map, List.filter_map, List.filter_filter]
      congr 1
      refine List.filter_congr fun r hr => ?_
      cases hmatches : ((fun doc => matchesFilter doc filter) ∘ Record.loaded) r with
      | false => rfl
      | true => rw [Bool.true_and, decide_eq_true (hkeyed r hr hmatches)]
    rw [hsame, ← hids] at hfetch
    cases hget : index'.get (indexKey numberString expected') with
    | none =>
      rw [hget] at hfetch
      exact hfetch
    | some ids =>
      rw [hget] at hfetch
      exact hfetch
  · rfl

/-- An index on the name, and then Alice. -/
theorem indexes_transparent_alice : ∃ w store,
    ReachableIf (step (engine fun _ => "")) (Keeping fun _ => "") opened w ∧ w.store = some store ∧
      find (fun _ => "") w.dir store "users" [("name", .string "Alice")] =
        .ok (scanDocuments w.dir "users" [("name", .string "Alice")]) := by
  have hfits : (⟨aliceId, nameDoc "Alice"⟩ : Record).fits = true := by decide
  have hnew : IsNewId [] aliceId := by decide
  have hfirst : ReachableIf (step (engine fun _ => "")) (Keeping fun _ => "") opened
      ⟨.empty, some (createIndex (fun _ => "") .empty (openDir .empty) "users" "name"), fun _ => []⟩ :=
    .step (.createIndex "users" "name") .init trivial rfl
  have hreach := hfirst.step (Op.insert "users" aliceId (nameDoc "Alice")) (Kept.of_fits hfits)
    (if_pos hnew : (if IsNewId [] aliceId then some _ else none) = some _)
  refine ⟨_, _, hreach, rfl, indexes_transparent hreach rfl fun r _ _ field expected actual hmem _ _ hzero => ?_⟩
  obtain ⟨rfl, rfl⟩ := Prod.mk.inj (List.mem_singleton.1 hmem)
  cases actual with
  | number n => cases n <;> exact hzero
  | _ => exact hzero

/-- **A document that is no object is not found by its id** once there is an index on the ids. -/
theorem indexed_id_lost : ∃ w store, exec (step (engine fun _ => "")) opened
    [.createIndex "flags" "_id", .insert "flags" aliceId ⟨.bool true, trivial⟩] = some w ∧ w.store = some store ∧
      find (fun _ => "") w.dir store "flags" [("_id", .string aliceId)] = .ok [] ∧
      (scanDocuments w.dir "flags" [("_id", .string aliceId)]).length = 1 := by
  have hnew : IsNewId [] aliceId := by decide
  have hrun : exec (step (engine fun _ => "")) opened
      [.createIndex "flags" "_id", .insert "flags" aliceId ⟨.bool true, trivial⟩] = some _ :=
    (if_pos hnew : (if IsNewId [] aliceId then some _ else none) = some _)
  exact ⟨_, _, hrun, rfl, rfl, rfl⟩

end V2

end SystemDesignLabs.DocumentDb
