import Mathlib

/-!
# JSON documents of natural numbers and plain texts

Documents made of natural numbers, texts that JSON writes without escapes, arrays and objects. `dump` lays
a document out with an indentation of two, as `json.dump(..., indent=2)` does; `load` is the recursive
descent parser, which skips white space between tokens. Numbers with a sign, a fraction or an exponent,
`true`, `false`, `null` and escapes are outside of this fragment, and `load` does not read them.
`load_dump` is the round trip.
-/

namespace SystemDesignLabs.Core

open List

/-- The characters that JSON writes as they are: printable ASCII except the quote and the backslash. -/
def isPlainChar (c : Char) : Bool := 0x20 ≤ c.toNat && c.toNat < 0x7F && c != '"' && c != '\\'

/-- A text without escapes. -/
structure PlainText where
  chars : List Char
  plain : ∀ c ∈ chars, isPlainChar c
  deriving DecidableEq

inductive Json where
  | num (n : Nat)
  | str (text : PlainText)
  | arr (items : List Json)
  | obj (members : List (PlainText × Json))

namespace Json

/-- A new line at the indentation of a level. -/
def newline (level : Nat) : List Char := '\n' :: List.replicate (2 * level) ' '

def quote (text : PlainText) : List Char := '"' :: (text.chars ++ ['"'])

mutual

/-- The layout of a document at a level. -/
def dump (level : Nat) : Json → List Char
  | num n => Nat.toDigits 10 n
  | str text => quote text
  | arr [] => ['[', ']']
  | arr (item :: items) => '[' :: (newline (level + 1) ++ (dump (level + 1) item ++ dumpItems level items))
  | obj [] => ['\x7b', '\x7d']
  | obj ((key, value) :: members) =>
    '\x7b' :: (newline (level + 1) ++ (quote key ++ (':' :: ' ' :: (dump (level + 1) value ++
      dumpMembers level members))))

/-- The further items of an array and its end. -/
def dumpItems (level : Nat) : List Json → List Char
  | [] => newline level ++ [']']
  | item :: items => ',' :: (newline (level + 1) ++ (dump (level + 1) item ++ dumpItems level items))

/-- The further members of an object and its end. -/
def dumpMembers (level : Nat) : List (PlainText × Json) → List Char
  | [] => newline level ++ ['\x7d']
  | (key, value) :: members =>
    ',' :: (newline (level + 1) ++ (quote key ++ (':' :: ' ' :: (dump (level + 1) value ++
      dumpMembers level members))))

end

/-- White space between tokens. -/
def isSpace (c : Char) : Bool := c = ' ' || c = '\t' || c = '\n' || c = '\r'

def skip (cs : List Char) : List Char := cs.dropWhile isSpace

/-- The text up to the closing quote, if nothing in it is escaped. -/
def readText (cs : List Char) : Option (PlainText × List Char) :=
  match cs.dropWhile isPlainChar with
  | '"' :: rest => some (⟨cs.takeWhile isPlainChar, fun _ h => List.mem_takeWhile_imp h⟩, rest)
  | _ => none

/-- The number in front. It has no leading zeros. -/
def readNumber (cs : List Char) : Option (Json × List Char) :=
  let n := Nat.ofDigitChars 10 (cs.takeWhile Char.isDigit) 0
  if Nat.toDigits 10 n = cs.takeWhile Char.isDigit then some (num n, cs.dropWhile Char.isDigit) else none

mutual

/-- The document in front and the rest. Each call takes one character at least, which bounds their number. -/
def parse : Nat → List Char → Option (Json × List Char)
  | 0, _ => none
  | _ + 1, '"' :: cs => (readText cs).map fun r => (str r.1, r.2)
  | fuel + 1, '[' :: cs =>
    match skip cs with
    | ']' :: rest => some (arr [], rest)
    | cs => (parseItems fuel cs).map fun r => (arr r.1, r.2)
  | fuel + 1, '\x7b' :: cs =>
    match skip cs with
    | '\x7d' :: rest => some (obj [], rest)
    | cs => (parseMembers fuel cs).map fun r => (obj r.1, r.2)
  | _ + 1, cs => readNumber cs

/-- The items of an array up to its end, at least one. -/
def parseItems : Nat → List Char → Option (List Json × List Char)
  | 0, _ => none
  | fuel + 1, cs =>
    match parse fuel cs with
    | none => none
    | some (item, cs) =>
      match skip cs with
      | ']' :: rest => some ([item], rest)
      | ',' :: cs => (parseItems fuel (skip cs)).map fun r => (item :: r.1, r.2)
      | _ => none

/-- The members of an object up to its end, at least one. -/
def parseMembers : Nat → List Char → Option (List (PlainText × Json) × List Char)
  | fuel + 1, '"' :: cs =>
    match readText cs with
    | none => none
    | some (key, cs) =>
      match skip cs with
      | ':' :: cs =>
        match parse fuel (skip cs) with
        | none => none
        | some (value, cs) =>
          match skip cs with
          | '\x7d' :: rest => some ([(key, value)], rest)
          | ',' :: cs => (parseMembers fuel (skip cs)).map fun r => ((key, value) :: r.1, r.2)
          | _ => none
      | _ => none
  | _, _ => none

end

/-- Read a whole text as one document. -/
def load (cs : List Char) : Option Json :=
  match parse (cs.length + 1) (skip cs) with
  | some (document, rest) => if skip rest = [] then some document else none
  | none => none

/-! ### Reading tokens back -/

theorem skip_newline (level : Nat) {c : Char} (hc : isSpace c = false) (cs : List Char) :
    skip (newline level ++ c :: cs) = c :: cs := by
  have hspace : ∀ a ∈ newline level, isSpace a = true := by
    intro a ha
    rcases mem_cons.1 ha with rfl | ha
    · rfl
    · rw [eq_of_mem_replicate ha]
      rfl
  rw [skip, dropWhile_append_of_pos hspace, dropWhile_cons_of_neg (by simp [hc])]

theorem skip_cons {c : Char} (hc : isSpace c = false) (cs : List Char) : skip (c :: cs) = c :: cs :=
  dropWhile_cons_of_neg (by simp [hc])

theorem readText_quote (text : PlainText) (rest : List Char) :
    readText (text.chars ++ ('"' :: rest)) = some (text, rest) := by
  have hdrop : (text.chars ++ ('"' :: rest)).dropWhile isPlainChar = '"' :: rest := by
    rw [dropWhile_append_of_pos text.plain, dropWhile_cons_of_neg (by decide)]
  have htake : (text.chars ++ ('"' :: rest)).takeWhile isPlainChar = text.chars := by
    rw [takeWhile_append_of_pos text.plain, takeWhile_cons_of_neg (by decide), append_nil]
  rw [readText, hdrop]
  simp only [htake]

theorem readNumber_toDigits (n : Nat) {rest : List Char} (hrest : ∀ c ∈ rest.head?, c.isDigit = false) :
    readNumber (Nat.toDigits 10 n ++ rest) = some (num n, rest) := by
  have hdigits : ∀ c ∈ Nat.toDigits 10 n, c.isDigit = true := fun c hc =>
    Nat.isDigit_of_mem_toDigits (by decide) (by decide) hc
  have hstop : rest.takeWhile Char.isDigit = [] ∧ rest.dropWhile Char.isDigit = rest := by
    cases rest with
    | nil => exact ⟨rfl, rfl⟩
    | cons c rest =>
      have hc := hrest c rfl
      exact ⟨takeWhile_cons_of_neg (by simp [hc]), dropWhile_cons_of_neg (by simp [hc])⟩
  have htake : (Nat.toDigits 10 n ++ rest).takeWhile Char.isDigit = Nat.toDigits 10 n := by
    rw [takeWhile_append_of_pos hdigits, hstop.1, append_nil]
  have hdrop : (Nat.toDigits 10 n ++ rest).dropWhile Char.isDigit = rest := by
    rw [dropWhile_append_of_pos hdigits, hstop.2]
  rw [readNumber, htake, hdrop, Nat.ofDigitChars_ten_toDigits, if_pos rfl]

theorem dump_head (level : Nat) (j : Json) : ∃ c cs, dump level j = c :: cs ∧ isSpace c = false ∧
    c ≠ ']' ∧ c ≠ '}' := by
  cases j with
  | num n =>
    cases h : Nat.toDigits 10 n with
    | nil => exact absurd h Nat.toDigits_ne_nil
    | cons c cs =>
      have hdigit : c.isDigit = true :=
        Nat.isDigit_of_mem_toDigits (b := 10) (n := n) (by decide) (by decide) (h ▸ List.mem_cons_self)
      refine ⟨c, cs, by rw [dump, h], ?_, ?_, ?_⟩
      · rw [Bool.eq_false_iff]
        intro hspace
        simp only [isSpace, Bool.or_eq_true, decide_eq_true_eq] at hspace
        rcases hspace with ((rfl | rfl) | rfl) | rfl <;> exact absurd hdigit (by decide)
      · rintro rfl
        exact absurd hdigit (by decide)
      · rintro rfl
        exact absurd hdigit (by decide)
  | str text => exact ⟨'"', _, rfl, by decide, by decide, by decide⟩
  | arr items =>
    cases items with
    | nil => exact ⟨'[', _, rfl, by decide, by decide, by decide⟩
    | cons item items => exact ⟨'[', _, rfl, by decide, by decide, by decide⟩
  | obj members =>
    cases members with
    | nil => exact ⟨'{', _, rfl, by decide, by decide, by decide⟩
    | cons member members => exact ⟨'{', _, rfl, by decide, by decide, by decide⟩

theorem skip_newline_dump (level level' : Nat) (j : Json) (cs : List Char) :
    skip (newline level ++ (dump level' j ++ cs)) = dump level' j ++ cs := by
  obtain ⟨c, cs', hc, hspace, -, -⟩ := dump_head level' j
  rw [hc, cons_append, skip_newline level hspace]

theorem length_dump_pos (level : Nat) (j : Json) : 0 < (dump level j).length := by
  obtain ⟨c, cs, hc, -⟩ := dump_head level j
  rw [hc]
  exact Nat.succ_pos _

/-! ### The round trip -/

section Parse

variable {fuel : Nat} {cs rest : List Char}

theorem parse_array {j : Json} {level : Nat} (hcs : skip cs = dump level j ++ rest) :
    parse (fuel + 1) ('[' :: cs) = (parseItems fuel (dump level j ++ rest)).map fun r => (arr r.1, r.2) := by
  obtain ⟨c, cs', hc, -, hclose, -⟩ := dump_head level j
  rw [hc, List.cons_append] at hcs ⊢
  rw [parse, hcs]
  split
  · exact absurd (List.cons.inj ‹_›).1 hclose
  · rfl

theorem parse_object {key : PlainText} (hcs : skip cs = quote key ++ rest) :
    parse (fuel + 1) ('\x7b' :: cs) = (parseMembers fuel (quote key ++ rest)).map fun r => (obj r.1, r.2) := by
  rw [parse, hcs]
  rfl

theorem parseItems_last {item : Json} {cs' : List Char} (hitem : parse fuel cs = some (item, cs'))
    (hcs' : skip cs' = ']' :: rest) : parseItems (fuel + 1) cs = some ([item], rest) := by
  rw [parseItems, hitem]
  simp only [hcs']

theorem parseItems_next {item : Json} {cs' : List Char} (hitem : parse fuel cs = some (item, cs'))
    (hcs' : skip cs' = ',' :: rest) :
    parseItems (fuel + 1) cs = (parseItems fuel (skip rest)).map fun r => (item :: r.1, r.2) := by
  rw [parseItems, hitem]
  simp only [hcs']

theorem parseMembers_last {key : PlainText} {value : Json} {cs' : List Char}
    (hvalue : parse fuel (skip cs) = some (value, cs')) (hcs' : skip cs' = '\x7d' :: rest) :
    parseMembers (fuel + 1) (quote key ++ (':' :: cs)) = some ([(key, value)], rest) := by
  have hkey := readText_quote key (':' :: cs)
  rw [quote, cons_append, append_assoc, singleton_append, parseMembers, hkey]
  simp only [skip_cons (c := ':') (by decide), hvalue, hcs']

theorem parseMembers_next {key : PlainText} {value : Json} {cs' : List Char}
    (hvalue : parse fuel (skip cs) = some (value, cs')) (hcs' : skip cs' = ',' :: rest) :
    parseMembers (fuel + 1) (quote key ++ (':' :: cs)) =
      (parseMembers fuel (skip rest)).map fun r => ((key, value) :: r.1, r.2) := by
  have hkey := readText_quote key (':' :: cs)
  rw [quote, cons_append, append_assoc, singleton_append, parseMembers, hkey]
  simp only [skip_cons (c := ':') (by decide), hvalue, hcs']

end Parse

theorem dumpItems_head (level : Nat) (items : List Json) (rest : List Char) :
    ∀ c ∈ (dumpItems level items ++ rest).head?, c.isDigit = false := by
  cases items with
  | nil =>
    rintro c ⟨rfl⟩
    decide
  | cons item items =>
    rintro c ⟨rfl⟩
    decide

theorem dumpMembers_head (level : Nat) (members : List (PlainText × Json)) (rest : List Char) :
    ∀ c ∈ (dumpMembers level members ++ rest).head?, c.isDigit = false := by
  cases members with
  | nil =>
    rintro c ⟨rfl⟩
    decide
  | cons member members =>
    rintro c ⟨rfl⟩
    decide

theorem skip_newline_quote (level : Nat) (text : PlainText) (cs : List Char) :
    skip (newline level ++ (quote text ++ cs)) = quote text ++ cs :=
  skip_newline level (by decide) _

theorem skip_space_dump (level : Nat) (j : Json) (cs : List Char) :
    skip (' ' :: (dump level j ++ cs)) = dump level j ++ cs := by
  obtain ⟨c, cs', hc, hspace, -, -⟩ := dump_head level j
  rw [hc, cons_append, skip, dropWhile_cons_of_pos (by decide)]
  exact skip_cons hspace _

theorem parse_num {level n fuel : Nat} {rest : List Char} (hrest : ∀ c ∈ rest.head?, c.isDigit = false) :
    parse (fuel + 1) (dump level (num n) ++ rest) = some (num n, rest) := by
  have hread := readNumber_toDigits n hrest
  obtain ⟨c, cs, hc, -⟩ := dump_head level (num n)
  have hdigit : c.isDigit = true := by
    apply Nat.isDigit_of_mem_toDigits (b := 10) (n := n) (by decide) (by decide)
    rw [dump] at hc
    rw [hc]
    exact mem_cons_self
  rw [← hread, ← dump.eq_1 level n, hc, cons_append, parse]
  all_goals
    intro cs' heq
    rw [(cons.inj heq).1] at hdigit
    exact absurd hdigit (by decide)

/-- A document in front is read, if the next character does not go on with a number. The calls are bounded
by the length of the text. -/
def Reads (level : Nat) (j : Json) : Prop :=
  ∀ (fuel : Nat) (rest : List Char), (dump level j).length ≤ fuel →
    (∀ c ∈ rest.head?, c.isDigit = false) → parse fuel (dump level j ++ rest) = some (j, rest)

theorem parseItems_dump {level : Nat} {items : List Json} {item : Json} (hitem : Reads (level + 1) item)
    (hitems : ∀ i ∈ items, Reads (level + 1) i) (fuel : Nat) (rest : List Char)
    (hfuel : (dump (level + 1) item ++ dumpItems level items).length ≤ fuel) :
    parseItems fuel (dump (level + 1) item ++ (dumpItems level items ++ rest)) = some (item :: items, rest) := by
  rw [length_append] at hfuel
  induction items generalizing item fuel with
  | nil =>
    rw [dumpItems, length_append, length_singleton] at hfuel
    obtain ⟨fuel, rfl⟩ := Nat.exists_eq_add_one.2 (show 0 < fuel by omega)
    refine parseItems_last (hitem fuel _ (by omega) (dumpItems_head level [] rest)) ?_
    rw [dumpItems, append_assoc]
    exact skip_newline level (by decide) rest
  | cons next items ih =>
    obtain ⟨hnext, hitems⟩ := forall_mem_cons.1 hitems
    rw [dumpItems, length_cons, length_append, length_append] at hfuel
    obtain ⟨fuel, rfl⟩ := Nat.exists_eq_add_one.2 (show 0 < fuel by omega)
    have hread := ih hnext hitems fuel (by omega)
    have hskip : skip (dumpItems level (next :: items) ++ rest) =
        ',' :: (newline (level + 1) ++ (dump (level + 1) next ++ (dumpItems level items ++ rest))) := by
      rw [dumpItems, cons_append, append_assoc, append_assoc]
      exact skip_cons (by decide) _
    rw [parseItems_next (hitem fuel _ (by omega) (dumpItems_head level (next :: items) rest)) hskip,
      skip_newline_dump, hread]
    rfl

theorem parseMembers_dump {level : Nat} {members : List (PlainText × Json)} {key : PlainText} {value : Json}
    (hvalue : Reads (level + 1) value) (hmembers : ∀ m ∈ members, Reads (level + 1) m.2) (fuel : Nat)
    (rest : List Char) (hfuel : (dump (level + 1) value ++ dumpMembers level members).length < fuel) :
    parseMembers fuel (quote key ++ (':' :: ' ' :: (dump (level + 1) value ++
      (dumpMembers level members ++ rest)))) = some ((key, value) :: members, rest) := by
  rw [length_append] at hfuel
  induction members generalizing key value fuel with
  | nil =>
    obtain ⟨fuel, rfl⟩ := Nat.exists_eq_add_one.2 (show 0 < fuel by omega)
    have hread := hvalue fuel _ (by omega) (dumpMembers_head level [] rest)
    rw [← skip_space_dump] at hread
    refine parseMembers_last hread ?_
    rw [dumpMembers, append_assoc]
    exact skip_newline level (by decide) rest
  | cons member members ih =>
    obtain ⟨key', value'⟩ := member
    obtain ⟨hnext, hmembers⟩ := forall_mem_cons.1 hmembers
    rw [dumpMembers, length_cons, length_append, length_append, length_cons,
      length_cons, length_append] at hfuel
    obtain ⟨fuel, rfl⟩ := Nat.exists_eq_add_one.2 (show 0 < fuel by omega)
    have hread := hvalue fuel _ (by omega) (dumpMembers_head level ((key', value') :: members) rest)
    have hnext : Reads (level + 1) value' := hnext
    have hrest : parseMembers fuel (quote key' ++ (':' :: ' ' :: (dump (level + 1) value' ++
        (dumpMembers level members ++ rest)))) = some ((key', value') :: members, rest) :=
      ih hnext hmembers fuel (by omega)
    have hskip : skip (dumpMembers level ((key', value') :: members) ++ rest) =
        ',' :: (newline (level + 1) ++ (quote key' ++ (':' :: ' ' :: (dump (level + 1) value' ++
          (dumpMembers level members ++ rest))))) := by
      rw [dumpMembers, cons_append, append_assoc, append_assoc, cons_append,
        cons_append, append_assoc]
      exact skip_cons (by decide) _
    rw [← skip_space_dump] at hread
    rw [parseMembers_next hread hskip, skip_newline_quote, hrest]
    rfl

mutual

theorem reads : ∀ (j : Json) (level : Nat), Reads level j
  | num n, level => fun fuel rest hfuel hrest => by
    obtain ⟨fuel, rfl⟩ := Nat.exists_eq_add_one.2 (Nat.lt_of_lt_of_le (length_dump_pos _ _) hfuel)
    exact parse_num hrest
  | str text, level => fun fuel rest hfuel _ => by
    obtain ⟨fuel, rfl⟩ := Nat.exists_eq_add_one.2 (Nat.lt_of_lt_of_le (length_dump_pos _ _) hfuel)
    rw [dump, quote, cons_append, append_assoc, singleton_append, parse, readText_quote]
    rfl
  | arr [], level => fun fuel rest hfuel _ => by
    obtain ⟨fuel, rfl⟩ := Nat.exists_eq_add_one.2 (Nat.lt_of_lt_of_le (length_dump_pos _ _) hfuel)
    rfl
  | arr (item :: items), level => fun fuel rest hfuel _ => by
    have hread := parseItems_dump (reads item (level + 1)) (readsItems items (level + 1))
    obtain ⟨fuel, rfl⟩ := Nat.exists_eq_add_one.2 (Nat.lt_of_lt_of_le (length_dump_pos _ _) hfuel)
    rw [dump, length_cons, length_append] at hfuel
    rw [dump, cons_append, append_assoc, append_assoc,
      parse_array (skip_newline_dump _ _ _ _), hread fuel rest (by omega)]
    rfl
  | obj [], level => fun fuel rest hfuel _ => by
    obtain ⟨fuel, rfl⟩ := Nat.exists_eq_add_one.2 (Nat.lt_of_lt_of_le (length_dump_pos _ _) hfuel)
    rfl
  | obj ((key, value) :: members), level => fun fuel rest hfuel _ => by
    have hread := @parseMembers_dump level members key value (reads value (level + 1))
      (readsMembers members (level + 1))
    obtain ⟨fuel, rfl⟩ := Nat.exists_eq_add_one.2 (Nat.lt_of_lt_of_le (length_dump_pos _ _) hfuel)
    rw [dump, length_cons, length_append, length_append, length_cons,
      length_cons] at hfuel
    rw [dump, cons_append, append_assoc, append_assoc,
      parse_object (skip_newline_quote _ _ _), cons_append, cons_append, append_assoc,
      hread fuel rest (by omega)]
    rfl

theorem readsItems : ∀ (items : List Json) (level : Nat), ∀ i ∈ items, Reads level i
  | [], _ => fun _ h => nomatch h
  | item :: items, level => forall_mem_cons.2 ⟨reads item level, readsItems items level⟩

theorem readsMembers : ∀ (members : List (PlainText × Json)) (level : Nat), ∀ m ∈ members, Reads level m.2
  | [], _ => fun _ h => nomatch h
  | (_, value) :: members, level =>
    forall_mem_cons.2 ⟨reads value level, readsMembers members level⟩

end

/-- A document that was written is read back. -/
theorem load_dump (j : Json) : load (dump 0 j) = some j := by
  obtain ⟨c, cs, hc, hspace, -, -⟩ := dump_head 0 j
  have hskip : skip (dump 0 j) = dump 0 j ++ [] := by rw [hc, skip_cons hspace, append_nil]
  rw [load, hskip, reads j 0 _ [] (Nat.le_succ _) (fun c hc => nomatch hc)]
  rfl

end Json

end SystemDesignLabs.Core
