import SystemDesignLabs.KvCache.Aof

/-!
# The lines that `serde_json` writes

`serde` writes a log record in the layout of `serde_json::to_string`: the tag first, then the fields in the
order of their declaration, without white space, with quotes, backslashes and control characters escaped.
Its reader takes exactly these lines. That is all an undamaged file has, so `serde` is lawful, and results
about lawful JSON libraries are about a library that exists.
-/

namespace SystemDesignLabs.KvCache.Serde

open List Option Core

/-! ### Texts -/

def hexDigit (n : Nat) : Char := if n < 10 then Char.ofNat (n + 48) else Char.ofNat (n + 87)

def hexValue (c : Char) : Nat := if c.toNat < 58 then c.toNat - 48 else c.toNat - 87

/-- One character of a text. -/
def escape (c : Char) : List Char :=
  if c = '"' then ['\\', '"']
  else if c = '\\' then ['\\', '\\']
  else if c.toNat < 0x20 then
    match c.toNat with
    | 8 => ['\\', 'b']
    | 9 => ['\\', 't']
    | 10 => ['\\', 'n']
    | 12 => ['\\', 'f']
    | 13 => ['\\', 'r']
    | n => ['\\', 'u', '0', '0', hexDigit (n / 16), hexDigit (n % 16)]
  else [c]

/-- Read one character of a text. -/
def unescape : List Char → Option (Char × List Char)
  | '\\' :: 'b' :: cs => some ('\x08', cs)
  | '\\' :: 't' :: cs => some ('\t', cs)
  | '\\' :: 'n' :: cs => some ('\n', cs)
  | '\\' :: 'f' :: cs => some ('\x0C', cs)
  | '\\' :: 'r' :: cs => some ('\r', cs)
  | '\\' :: 'u' :: '0' :: '0' :: a :: b :: cs => some (Char.ofNat (hexValue a * 16 + hexValue b), cs)
  | '\\' :: '"' :: cs => some ('"', cs)
  | '\\' :: '\\' :: cs => some ('\\', cs)
  | '\\' :: _ => none
  | c :: cs => some (c, cs)
  | [] => none

/-- A text with its closing quote. -/
def writeText (s : String) : List Char := s.toList.flatMap escape ++ ['"']

/-- Read at most `n` characters up to the closing quote. -/
def readChars : Nat → List Char → Option (List Char × List Char)
  | _, '"' :: cs => some ([], cs)
  | 0, _ => none
  | n + 1, cs =>
    match unescape cs with
    | some (c, cs) => (readChars n cs).map fun r => (c :: r.1, r.2)
    | none => none

def readText (cs : List Char) : Option (String × List Char) :=
  (readChars cs.length cs).map fun r => (String.ofList r.1, r.2)

theorem unescape_escape (c : Char) (rest : List Char) : unescape (escape c ++ rest) = some (c, rest) := by
  by_cases hquote : c = '"'
  · subst hquote
    rfl
  by_cases hslash : c = '\\'
  · subst hslash
    rfl
  by_cases hcontrol : c.toNat < 0x20
  · have hcontrols : ∀ n < 0x20, unescape (escape (Char.ofNat n) ++ rest) = some (Char.ofNat n, rest) := by
      intro n hn
      interval_cases n <;> rfl
    have hchar := hcontrols c.toNat hcontrol
    rwa [Char.ofNat_toNat] at hchar
  · rw [escape, if_neg hquote, if_neg hslash, if_neg hcontrol, singleton_append, unescape]
    all_goals simp [hslash]

theorem escape_head (c : Char) : ∃ a as, escape c = a :: as ∧ a ≠ '"' := by
  rw [escape]
  split
  · exact ⟨_, _, rfl, by decide⟩
  · rename_i hquote
    split
    · exact ⟨_, _, rfl, by decide⟩
    · split
      · split <;> exact ⟨_, _, rfl, by decide⟩
      · exact ⟨_, _, rfl, hquote⟩

theorem readText_writeText (s : String) (rest : List Char) : readText (writeText s ++ rest) = some (s, rest) := by
  have hread : ∀ (cs : List Char) (n : Nat), cs.length ≤ n →
      readChars n (cs.flatMap escape ++ '"' :: rest) = some (cs, rest) := by
    intro cs
    induction cs with
    | nil =>
      intro n _
      cases n <;> rfl
    | cons c cs ih =>
      intro n hn
      obtain ⟨n, rfl⟩ := Nat.exists_eq_add_one.2 (Nat.lt_of_lt_of_le (Nat.succ_pos _) hn)
      obtain ⟨a, as, ha, hquote⟩ := escape_head c
      have hchar := unescape_escape c (cs.flatMap escape ++ '"' :: rest)
      rw [flatMap_cons, append_assoc]
      rw [ha, cons_append] at hchar ⊢
      rw [readChars, hchar]
      · simp only [ih n (Nat.le_of_succ_le_succ hn), map_some]
      · intro cs' h
        exact hquote (cons.inj h).1
  have hlength : s.toList.length ≤ (writeText s ++ rest).length := by
    rw [writeText, length_append, length_append]
    have hescape : s.toList.length ≤ (s.toList.flatMap escape).length := by
      generalize s.toList = cs
      induction cs with
      | nil => exact Nat.le_refl 0
      | cons c cs ih =>
        obtain ⟨a, as, ha, -⟩ := escape_head c
        rw [flatMap_cons, length_append, ha, length_cons, length_cons]
        omega
    omega
  have hwrite : writeText s ++ rest = s.toList.flatMap escape ++ '"' :: rest := by
    rw [writeText, append_assoc, singleton_append]
  rw [readText, hwrite, hread _ _ (hwrite ▸ hlength), map_some, String.ofList_toList]

/-! ### Numbers -/

def writeSecs (secs : UInt64) : List Char := Nat.toDigits 10 secs.toNat

def readSecs (cs : List Char) : UInt64 × List Char :=
  (UInt64.ofNat (Nat.ofDigitChars 10 (cs.takeWhile Char.isDigit) 0), cs.dropWhile Char.isDigit)

def writeTtl : Option UInt64 → List Char
  | none => "null".toList
  | some secs => writeSecs secs

def readTtl (cs : List Char) : Option UInt64 × List Char :=
  match cs with
  | 'n' :: 'u' :: 'l' :: 'l' :: cs => (none, cs)
  | cs => (some (readSecs cs).1, (readSecs cs).2)

theorem readSecs_writeSecs (secs : UInt64) {c : Char} (hc : c.isDigit = false) (rest : List Char) :
    readSecs (writeSecs secs ++ c :: rest) = (secs, c :: rest) := by
  have hdigits : ∀ d ∈ writeSecs secs, d.isDigit = true := fun d hd =>
    Nat.isDigit_of_mem_toDigits (by decide) (by decide) hd
  rw [readSecs, takeWhile_append_of_pos hdigits, dropWhile_append_of_pos hdigits,
    takeWhile_cons_of_neg (by simp [hc]), dropWhile_cons_of_neg (by simp [hc]), append_nil,
    writeSecs, Nat.ofDigitChars_ten_toDigits, UInt64.ofNat_toNat]

theorem readTtl_writeTtl (ttlSecs : Option UInt64) {c : Char} (hc : c.isDigit = false) (rest : List Char) :
    readTtl (writeTtl ttlSecs ++ c :: rest) = (ttlSecs, c :: rest) := by
  cases ttlSecs with
  | none => rfl
  | some secs =>
    have hread := readSecs_writeSecs secs hc rest
    rw [writeTtl]
    cases hwrite : writeSecs secs with
    | nil => exact absurd hwrite Nat.toDigits_ne_nil
    | cons d ds =>
      have hdigit : d.isDigit = true :=
        Nat.isDigit_of_mem_toDigits (b := 10) (n := secs.toNat) (by decide) (by decide)
          (show d ∈ writeSecs secs from hwrite ▸ mem_cons_self)
      rw [hwrite, cons_append] at hread
      rw [cons_append, readTtl, hread]
      intro cs' h
      rw [(cons.inj h).1] at hdigit
      exact absurd hdigit (by decide)

/-! ### Records -/

/-- Read a fixed text. -/
def expect (text : String) (cs : List Char) : Option (List Char) := cs.dropPrefix? text.toList

def setTag : String := "\x7b\"op\":\"set\",\"key\":\""

def delTag : String := "\x7b\"op\":\"del\",\"key\":\""

def expireTag : String := "\x7b\"op\":\"expire\",\"key\":\""

def valueTag : String := ",\"value\":\""

def ttlTag : String := ",\"ttl_secs\":"

def writeRecord : AofRecord → List Char
  | .set key value ttlSecs => setTag.toList ++ (writeText key ++ (valueTag.toList ++
      (writeText value ++ (ttlTag.toList ++ (writeTtl ttlSecs ++ ['\x7d'])))))
  | .del key => delTag.toList ++ (writeText key ++ ['\x7d'])
  | .expire key ttlSecs =>
    expireTag.toList ++ (writeText key ++ (ttlTag.toList ++ (writeSecs ttlSecs ++ ['\x7d'])))

/-- The end of an object. -/
def readEnd (r : AofRecord) : List Char → Option (AofRecord × List Char)
  | '\x7d' :: cs => some (r, cs)
  | _ => none

/-- Read the fields of a `set`. -/
def readSet (cs : List Char) : Option (AofRecord × List Char) := do
  let cs ← expect setTag cs
  let key ← readText cs
  let cs ← expect valueTag key.2
  let value ← readText cs
  let cs ← expect ttlTag value.2
  readEnd (.set key.1 value.1 (readTtl cs).1) (readTtl cs).2

def readDel (cs : List Char) : Option (AofRecord × List Char) := do
  let cs ← expect delTag cs
  let key ← readText cs
  readEnd (.del key.1) key.2

def readExpire (cs : List Char) : Option (AofRecord × List Char) := do
  let cs ← expect expireTag cs
  let key ← readText cs
  let cs ← expect ttlTag key.2
  readEnd (.expire key.1 (readSecs cs).1) (readSecs cs).2

def readRecord (cs : List Char) : Option (AofRecord × List Char) :=
  (readSet cs).or ((readDel cs).or (readExpire cs))

/-! ### What is written is read -/

theorem expect_append (text : String) (rest : List Char) : expect text (text.toList ++ rest) = some rest :=
  dropPrefix?_append_of_beq rest (by simp)

theorem readRecord_writeRecord (r : AofRecord) (rest : List Char) :
    readRecord (writeRecord r ++ rest) = some (r, rest) := by
  -- the tags differ in the name of the operation, so only the reader of its own tag takes a line
  cases r with
  | set key value ttlSecs =>
    have hset : readSet (writeRecord (.set key value ttlSecs) ++ rest) = some (.set key value ttlSecs, rest) := by
      simp only [writeRecord, readSet, append_assoc, expect_append, readText_writeText, bind_eq_bind,
        bind_some, singleton_append, readTtl_writeTtl ttlSecs (c := '\x7d') (by decide) rest, readEnd]
    rw [readRecord, hset]
    rfl
  | del key =>
    have hdel : readDel (writeRecord (.del key) ++ rest) = some (.del key, rest) := by
      simp only [writeRecord, readDel, append_assoc, expect_append, readText_writeText, bind_eq_bind,
        bind_some, singleton_append, readEnd]
    have hset : readSet (writeRecord (.del key) ++ rest) = none := rfl
    rw [readRecord, hset, hdel]
    rfl
  | expire key ttlSecs =>
    have hexpire : readExpire (writeRecord (.expire key ttlSecs) ++ rest) = some (.expire key ttlSecs, rest) := by
      simp only [writeRecord, readExpire, append_assoc, expect_append, readText_writeText,
        bind_eq_bind, bind_some, singleton_append,
        readSecs_writeSecs ttlSecs (c := '\x7d') (by decide) rest, readEnd]
    have hset : readSet (writeRecord (.expire key ttlSecs) ++ rest) = none := rfl
    have hdel : readDel (writeRecord (.expire key ttlSecs) ++ rest) = none := rfl
    rw [readRecord, hset, hdel, hexpire]
    rfl

theorem writeRecord_front {r r' : AofRecord} (h : writeRecord r' <+: writeRecord r) : r' = r := by
  obtain ⟨rest, hrest⟩ := h
  have hread := readRecord_writeRecord r []
  rw [append_nil, ← hrest, readRecord_writeRecord] at hread
  exact congrArg Prod.fst (some.inj hread)

theorem plain_of_all {cs : List Char} (h : cs.all (fun d => 0x20 ≤ d.toNat) = true) : ∀ d ∈ cs, 0x20 ≤ d.toNat :=
  fun d hd => of_decide_eq_true (all_eq_true.1 h d hd)

theorem escape_plain (c : Char) : ∀ d ∈ escape c, 0x20 ≤ d.toNat := by
  by_cases hcontrol : c.toNat < 0x20
  · have hcontrols : ∀ n < 0x20, (escape (Char.ofNat n)).all (fun d => 0x20 ≤ d.toNat) = true := by decide
    have hchar := hcontrols c.toNat hcontrol
    rw [Char.ofNat_toNat] at hchar
    exact plain_of_all hchar
  · intro d hd
    rw [escape, if_neg hcontrol] at hd
    split at hd
    · exact plain_of_all (by decide) d hd
    · split at hd
      · exact plain_of_all (by decide) d hd
      · rw [mem_singleton.1 hd]
        exact Nat.not_lt.1 hcontrol

theorem writeText_plain (s : String) : ∀ c ∈ writeText s, 0x20 ≤ c.toNat := by
  intro c hc
  rcases mem_append.1 hc with hc | hc
  · obtain ⟨d, -, hc⟩ := mem_flatMap.1 hc
    exact escape_plain d c hc
  · rw [mem_singleton.1 hc]
    decide

theorem writeSecs_plain (secs : UInt64) : ∀ c ∈ writeSecs secs, 0x20 ≤ c.toNat := by
  intro c hc
  have hdigit : c.isDigit = true := Nat.isDigit_of_mem_toDigits (by decide) (by decide) hc
  rw [Char.isDigit, Bool.and_eq_true, decide_eq_true_eq] at hdigit
  exact Nat.le_trans (by decide) (UInt32.le_iff_toNat_le.1 hdigit.1)

theorem writeRecord_plain (r : AofRecord) : ∀ c ∈ writeRecord r, 0x20 ≤ c.toNat := by
  have hall : [setTag, delTag, expireTag, valueTag, ttlTag, "\x7d"].all
      (fun tag => tag.toList.all fun c => 0x20 ≤ c.toNat) = true := by rfl
  have htags : ∀ tag ∈ [setTag, delTag, expireTag, valueTag, ttlTag, "\x7d"], ∀ c ∈ tag.toList, 0x20 ≤ c.toNat :=
    fun tag htag => plain_of_all (all_eq_true.1 hall tag htag)
  simp only [forall_mem_cons] at htags
  obtain ⟨hset, hdel, hexpire, hvalue, httl, hend, -⟩ := htags
  cases r with
  | set key value ttlSecs =>
    have hsecs : ∀ c ∈ writeTtl ttlSecs, 0x20 ≤ c.toNat := by
      cases ttlSecs with
      | none => exact plain_of_all (by rfl)
      | some secs => exact writeSecs_plain secs
    simp only [writeRecord, forall_mem_append]
    exact ⟨hset, writeText_plain key, hvalue, writeText_plain value, httl, hsecs, hend⟩
  | del key =>
    simp only [writeRecord, forall_mem_append]
    exact ⟨hdel, writeText_plain key, hend⟩
  | expire key ttlSecs =>
    simp only [writeRecord, forall_mem_append]
    exact ⟨hexpire, writeText_plain key, httl, writeSecs_plain ttlSecs, hend⟩

theorem writeRecord_isObject (r : AofRecord) : ∃ cs, writeRecord r = '\x7b' :: (cs ++ ['\x7d']) := by
  have hobject : ∀ (tag : String) (fields : List Char), tag.toList = '\x7b' :: tag.toList.tail →
      ∃ cs, tag.toList ++ (fields ++ ['\x7d']) = '\x7b' :: (cs ++ ['\x7d']) := by
    intro tag fields htag
    refine ⟨tag.toList.tail ++ fields, ?_⟩
    rw [htag, cons_append, tail_cons, append_assoc]
  cases r with
  | set key value ttlSecs =>
    have h := hobject setTag (writeText key ++ (valueTag.toList ++ (writeText value ++ (ttlTag.toList ++
      writeTtl ttlSecs)))) (by rfl)
    simpa only [writeRecord, append_assoc] using h
  | del key => exact hobject delTag (writeText key) (by rfl)
  | expire key ttlSecs =>
    have h := hobject expireTag (writeText key ++ (ttlTag.toList ++ writeSecs ttlSecs)) (by rfl)
    simpa only [writeRecord, append_assoc] using h

/-- The JSON library on the lines that it writes. -/
def serde : AofJson where
  toString := fun r => String.ofList (writeRecord r)
  fromStr := fun s =>
    match readRecord s.toList with
    | some (r, []) => if writeRecord r = s.toList then some r else none
    | _ => none

/-- A library with the promised behaviour. -/
theorem lawful_serde : serde.Lawful where
  roundTrip := by
    intro r
    have hread := readRecord_writeRecord r []
    rw [append_nil] at hread
    simp only [serde, String.toList_ofList, hread, if_pos]
  isObject := by
    intro r
    rw [serde, String.toList_ofList]
    exact writeRecord_isObject r
  escaped := by
    intro r
    rw [serde, String.toList_ofList]
    exact writeRecord_plain r
  unfinished := by
    intro r cs hcs hne
    rw [serde, String.toList_ofList] at hcs hne
    simp only [serde, String.toList_ofList]
    split
    · rename_i r' hr'
      split
      · rename_i hwrite
        rw [← hwrite] at hcs hne
        exact absurd (congrArg writeRecord (writeRecord_front hcs)) hne
      · rfl
    · rfl

end SystemDesignLabs.KvCache.Serde
