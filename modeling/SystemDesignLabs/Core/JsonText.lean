import SystemDesignLabs.Core.Text

/-!
# The text of a JSON value

JSON values with string keys, and the text that `json.dumps` writes for them: one line, `", "` between items, `": "`
behind a key, everything but printable ASCII as `\uXXXX`. With `sort_keys` an object is written in the order of its
keys; an object stands here in that order, so that equal dicts are one value. A number is an integer or a float, and
a float is given by its `repr`, which reads back as the same float.

The text determines the value (`dumps_injective`).
-/

namespace SystemDesignLabs.Core

open List (all_eq_true append_assoc append_nil cons cons_append flatMap_cons forall_mem_cons mem_cons)

namespace JsonText

/-- The characters of numbers and of the three names. -/
def isWordChar (c : Char) : Bool := c.isAlphanum || c = '+' || c = '-' || c = '.'

/-- Digits, with a point or an exponent, or one of the three special values. -/
def isFloatText (cs : List Char) : Bool :=
  (cs.all fun c => c.isDigit || c = '+' || c = '-' || c = '.' || c = 'e') && cs.any (fun c => c = '.' || c = 'e')
    || cs = ['N', 'a', 'N'] || cs = ['I', 'n', 'f', 'i', 'n', 'i', 't', 'y']
    || cs = ['-', 'I', 'n', 'f', 'i', 'n', 'i', 't', 'y']

/-- A float, given by its text. -/
structure FloatText where
  chars : List Char
  isFloat : isFloatText chars = true
  deriving DecidableEq

inductive Scalar where
  | null
  | bool (b : Bool)
  | int (n : Int)
  | float (f : FloatText)
  deriving DecidableEq

end JsonText

/-- A value made of dicts with string keys, lists, strings and scalars. The members of an object stand in the order
of their keys. -/
inductive JsonValue where
  | scalar (s : JsonText.Scalar)
  | str (text : List Char)
  | arr (items : List JsonValue)
  | obj (members : List (List Char × JsonValue))

namespace JsonText

def Scalar.text : Scalar → List Char
  | .null => ['n', 'u', 'l', 'l']
  | .bool true => ['t', 'r', 'u', 'e']
  | .bool false => ['f', 'a', 'l', 's', 'e']
  | .int (.ofNat n) => Nat.toDigits 10 n
  | .int (.negSucc n) => '-' :: Nat.toDigits 10 (n + 1)
  | .float f => f.chars

/-- Four digits of base 16. -/
def hex4 (n : Nat) : List Char :=
  [Nat.digitChar (n / 4096 % 16), Nat.digitChar (n / 256 % 16), Nat.digitChar (n / 16 % 16), Nat.digitChar (n % 16)]

def unicodeEscape (n : Nat) : List Char := '\\' :: 'u' :: hex4 n

/-- A character as JSON writes it. Above `U+FFFF` it is two surrogates. -/
def escape (c : Char) : List Char :=
  if c = '"' then ['\\', '"']
  else if c = '\\' then ['\\', '\\']
  else if c = '\n' then ['\\', 'n']
  else if c = '\r' then ['\\', 'r']
  else if c = '\t' then ['\\', 't']
  else if c = '\x08' then ['\\', 'b']
  else if c = '\x0c' then ['\\', 'f']
  else if 0x20 ≤ c.toNat ∧ c.toNat ≤ 0x7E then [c]
  else if c.toNat < 0x10000 then unicodeEscape c.toNat
  else unicodeEscape (0xD800 + (c.toNat - 0x10000) / 0x400) ++
    unicodeEscape (0xDC00 + (c.toNat - 0x10000) % 0x400)

def quote (text : List Char) : List Char := '"' :: (text.flatMap escape ++ ['"'])

mutual

/-- `json.dumps(value, sort_keys=True)`. -/
def dumps : JsonValue → List Char
  | .scalar s => s.text
  | .str text => quote text
  | .arr [] => ['[', ']']
  | .arr (item :: items) => '[' :: (dumps item ++ dumpsItems items)
  | .obj [] => ['\x7b', '\x7d']
  | .obj ((key, value) :: members) => '\x7b' :: (quote key ++ (':' :: ' ' :: (dumps value ++ dumpsMembers members)))

/-- The further items of a list and its end. -/
def dumpsItems : List JsonValue → List Char
  | [] => [']']
  | item :: items => ',' :: ' ' :: (dumps item ++ dumpsItems items)

/-- The further members of an object and its end. -/
def dumpsMembers : List (List Char × JsonValue) → List Char
  | [] => ['\x7d']
  | (key, value) :: members =>
    ',' :: ' ' :: (quote key ++ (':' :: ' ' :: (dumps value ++ dumpsMembers members)))

end

/-! ## Scalars -/

variable {c : Char}

theorem isWordChar_of_isDigit (h : c.isDigit = true) : isWordChar c = true := by
  simp [isWordChar, Char.isAlphanum, h]

theorem FloatText.cases (f : FloatText) : ((∀ c ∈ f.chars, c.isDigit = true ∨ c = '+' ∨ c = '-' ∨ c = '.' ∨ c = 'e') ∧
        ∃ c ∈ f.chars, c = '.' ∨ c = 'e')
      ∨ f.chars = ['N', 'a', 'N'] ∨ f.chars = ['I', 'n', 'f', 'i', 'n', 'i', 't', 'y']
      ∨ f.chars = ['-', 'I', 'n', 'f', 'i', 'n', 'i', 't', 'y'] := by
  have h := f.isFloat
  simp only [isFloatText, Bool.or_eq_true, Bool.and_eq_true, all_eq_true, List.any_eq_true,
    decide_eq_true_eq, or_assoc] at h
  exact h

theorem Scalar.text_word (s : Scalar) : s.text ≠ [] ∧ ∀ c ∈ s.text, isWordChar c = true := by
  cases s with
  | null => exact ⟨by decide, all_eq_true.1 (by decide)⟩
  | bool b => cases b <;> exact ⟨by decide, all_eq_true.1 (by decide)⟩
  | int n =>
    cases n with
    | ofNat n => exact ⟨Nat.toDigits_ne_nil, fun c hc => isWordChar_of_isDigit (isDigit_of_mem_toDigits hc)⟩
    | negSucc n =>
      refine ⟨List.cons_ne_nil _ _, fun c hc => ?_⟩
      rcases mem_cons.1 hc with rfl | hc
      · decide
      · exact isWordChar_of_isDigit (isDigit_of_mem_toDigits hc)
  | float f =>
    show f.chars ≠ [] ∧ ∀ c ∈ f.chars, isWordChar c = true
    rcases f.cases with ⟨hall, c, hc, -⟩ | h | h | h
    · refine ⟨List.ne_nil_of_mem hc, fun c hc => ?_⟩
      rcases hall c hc with h | rfl | rfl | rfl | rfl
      · exact isWordChar_of_isDigit h
      all_goals decide
    · rw [h]
      exact ⟨by decide, all_eq_true.1 (by decide)⟩
    · rw [h]
      exact ⟨by decide, all_eq_true.1 (by decide)⟩
    · rw [h]
      exact ⟨by decide, all_eq_true.1 (by decide)⟩

theorem FloatText.ne_text (f : FloatText) {cs : List Char} (hcs : ∀ c ∈ cs, c.isDigit = true ∨ c = '-') :
    f.chars ≠ cs := by
  rintro rfl
  rcases f.cases with ⟨-, c, hc, h⟩ | h | h | h
  · rcases h with rfl | rfl
    · exact absurd (hcs _ hc) (by decide)
    · exact absurd (hcs _ hc) (by decide)
  all_goals
    rw [h] at hcs
    have hall := all_eq_true.2 fun c hc => decide_eq_true (hcs c hc)
    exact absurd hall (by decide)

theorem isDigit_or_of_mem_int {n : Int} (h : c ∈ (Scalar.int n).text) : c.isDigit = true ∨ c = '-' := by
  cases n with
  | ofNat n => exact .inl (isDigit_of_mem_toDigits h)
  | negSucc n =>
    rcases mem_cons.1 h with rfl | h
    · exact .inr rfl
    · exact .inl (isDigit_of_mem_toDigits h)

theorem Scalar.text_int (n : Int) : (Scalar.int n).text = n.repr.toList := by
  rw [toList_repr]
  cases n <;> rfl

theorem Scalar.int_text_injective {n m : Int} (h : (Scalar.int n).text = (Scalar.int m).text) : n = m := by
  rw [text_int, text_int] at h
  exact repr_injective (String.toList_inj.1 h)

theorem Scalar.text_name (s : Scalar) (hint : ∀ n, s ≠ .int n) (hfloat : ∀ f, s ≠ .float f) :
    ∃ c cs, s.text = c :: cs ∧ (c = 'n' ∨ c = 't' ∨ c = 'f') := by
  cases s with
  | null => exact ⟨_, _, rfl, .inl rfl⟩
  | bool b =>
    cases b with
    | true => exact ⟨_, _, rfl, .inr (.inl rfl)⟩
    | false => exact ⟨_, _, rfl, .inr (.inr rfl)⟩
  | int n => exact absurd rfl (hint n)
  | float f => exact absurd rfl (hfloat f)

theorem Scalar.number_head {s : Scalar} (h : (∃ n, s = .int n) ∨ ∃ f, s = .float f) {cs : List Char}
    (htext : s.text = c :: cs) : ¬ (c = 'n' ∨ c = 't' ∨ c = 'f') := by
  rcases h with ⟨n, rfl⟩ | ⟨f, rfl⟩
  · have hc : c ∈ (Scalar.int n).text := htext ▸ List.mem_cons_self
    rcases isDigit_or_of_mem_int hc with hd | rfl
    · rintro (rfl | rfl | rfl) <;> exact absurd hd (by decide)
    · decide
  · have htext : f.chars = c :: cs := htext
    rcases f.cases with ⟨hall, -⟩ | h | h | h
    · rcases hall c (htext ▸ List.mem_cons_self) with hd | rfl | rfl | rfl | rfl
      · rintro (rfl | rfl | rfl) <;> exact absurd hd (by decide)
      all_goals decide
    all_goals
      rw [htext] at h
      rw [(cons.inj h).1]
      decide

/-- The text of a scalar determines it. -/
theorem Scalar.text_injective {s s' : Scalar} (h : s.text = s'.text) : s = s' := by
  have hname : ∀ {s s' : Scalar}, s.text = s'.text → (∀ n, s ≠ .int n) → (∀ f, s ≠ .float f) →
      ((∃ n, s' = .int n) ∨ ∃ f, s' = .float f) → False := by
    intro s s' h hint hfloat hnumber
    obtain ⟨c, cs, htext, hc⟩ := Scalar.text_name s hint hfloat
    exact Scalar.number_head hnumber (h.symm.trans htext) hc
  cases s with
  | int n =>
    cases s' with
    | int m => rw [Scalar.int_text_injective h]
    | float f => exact absurd h.symm (f.ne_text fun c hc => isDigit_or_of_mem_int hc)
    | null => exact (hname h.symm nofun nofun (.inl ⟨n, rfl⟩)).elim
    | bool b => exact (hname h.symm nofun nofun (.inl ⟨n, rfl⟩)).elim
  | float f =>
    cases s' with
    | int m => exact absurd h (f.ne_text fun c hc => isDigit_or_of_mem_int hc)
    | float g =>
      obtain ⟨chars, hf⟩ := f
      obtain ⟨chars', hg⟩ := g
      have heq : chars = chars' := h
      subst heq
      rfl
    | null => exact (hname h.symm nofun nofun (.inr ⟨f, rfl⟩)).elim
    | bool b => exact (hname h.symm nofun nofun (.inr ⟨f, rfl⟩)).elim
  | null =>
    cases s' with
    | int m => exact (hname h nofun nofun (.inl ⟨m, rfl⟩)).elim
    | float g => exact (hname h nofun nofun (.inr ⟨g, rfl⟩)).elim
    | null => rfl
    | bool b => cases b <;> exact absurd h (by decide)
  | bool b =>
    cases s' with
    | int m => exact (hname h nofun nofun (.inl ⟨m, rfl⟩)).elim
    | float g => exact (hname h nofun nofun (.inr ⟨g, rfl⟩)).elim
    | null => cases b <;> exact absurd h (by decide)
    | bool b' => cases b <;> cases b' <;> first | rfl | exact absurd h (by decide)

/-! ## Strings -/

/-- The value of a digit of base 16. -/
def hexValue (c : Char) : Nat := if c.isDigit then c.toNat - 48 else c.toNat - 87

/-- The number of an escape. -/
def readUnicode : List Char → Option (Nat × List Char)
  | '\\' :: 'u' :: a :: b :: c :: d :: rest =>
    some (hexValue a * 4096 + hexValue b * 256 + hexValue c * 16 + hexValue d, rest)
  | _ => none

/-- The character of an escape, or of two of them. -/
def readEscape (cs : List Char) : Option (Char × List Char) :=
  (readUnicode cs).bind fun r =>
    if 0xD800 ≤ r.1 ∧ r.1 < 0xDC00 then
      (readUnicode r.2).map fun r' => (Char.ofNat (0x10000 + (r.1 - 0xD800) * 0x400 + (r'.1 - 0xDC00)), r'.2)
    else some (Char.ofNat r.1, r.2)

/-- The character in front of a text, written as JSON does. -/
def unescape (cs : List Char) : Option (Char × List Char) :=
  match cs with
  | '\\' :: 'u' :: _ => readEscape cs
  | '\\' :: '"' :: rest => some ('"', rest)
  | '\\' :: '\\' :: rest => some ('\\', rest)
  | '\\' :: 'n' :: rest => some ('\n', rest)
  | '\\' :: 'r' :: rest => some ('\r', rest)
  | '\\' :: 't' :: rest => some ('\t', rest)
  | '\\' :: 'b' :: rest => some ('\x08', rest)
  | '\\' :: 'f' :: rest => some ('\x0c', rest)
  | c :: rest => some (c, rest)
  | [] => none

theorem hexValue_digitChar {d : Nat} (h : d < 16) : hexValue (Nat.digitChar d) = d := by
  have hall : ∀ d < 16, hexValue (Nat.digitChar d) = d := by decide
  exact hall d h

theorem readUnicode_escape {n : Nat} (h : n < 0x10000) (rest : List Char) :
    readUnicode (unicodeEscape n ++ rest) = some (n, rest) := by
  show some (_, rest) = _
  rw [hexValue_digitChar (Nat.mod_lt _ (by decide)), hexValue_digitChar (Nat.mod_lt _ (by decide)),
    hexValue_digitChar (Nat.mod_lt _ (by decide)), hexValue_digitChar (Nat.mod_lt _ (by decide))]
  congr 2
  omega

theorem unescape_unicode (n : Nat) (rest : List Char) :
    unescape (unicodeEscape n ++ rest) = readEscape (unicodeEscape n ++ rest) := rfl

theorem toNat_lt (c : Char) : c.toNat < 0xD800 ∨ (0xDFFF < c.toNat ∧ c.toNat < 0x110000) := c.valid

/-- The character that was written is read back. -/
theorem unescape_escape (c : Char) (rest : List Char) : unescape (escape c ++ rest) = some (c, rest) := by
  by_cases hquote : c = '"'
  · subst hquote
    rfl
  by_cases hslash : c = '\\'
  · subst hslash
    rfl
  by_cases hn : c = '\n'
  · subst hn
    rfl
  by_cases hr : c = '\r'
  · subst hr
    rfl
  by_cases ht : c = '\t'
  · subst ht
    rfl
  by_cases hb : c = '\x08'
  · subst hb
    rfl
  by_cases hf : c = '\x0c'
  · subst hf
    rfl
  rw [escape, if_neg hquote, if_neg hslash, if_neg hn, if_neg hr, if_neg ht, if_neg hb, if_neg hf]
  by_cases hplain : 0x20 ≤ c.toNat ∧ c.toNat ≤ 0x7E
  · rw [if_pos hplain, List.singleton_append, unescape]
    all_goals
      rintro _ rfl
      exact absurd rfl hslash
  rw [if_neg hplain]
  have hvalid := toNat_lt c
  by_cases hbelow : c.toNat < 0x10000
  · have hsurrogate : ¬ (0xD800 ≤ c.toNat ∧ c.toNat < 0xDC00) := by omega
    rw [if_pos hbelow, unescape_unicode, readEscape, readUnicode_escape hbelow, Option.bind_some,
      if_neg hsurrogate, Char.ofNat_toNat]
  · have hhigh : 0xD800 + (c.toNat - 0x10000) / 0x400 < 0x10000 := by omega
    have hlow : 0xDC00 + (c.toNat - 0x10000) % 0x400 < 0x10000 := by omega
    have hsurrogate : 0xD800 ≤ 0xD800 + (c.toNat - 0x10000) / 0x400 ∧
        0xD800 + (c.toNat - 0x10000) / 0x400 < 0xDC00 := by omega
    have hback : 0x10000 + (0xD800 + (c.toNat - 0x10000) / 0x400 - 0xD800) * 0x400 +
        (0xDC00 + (c.toNat - 0x10000) % 0x400 - 0xDC00) = c.toNat := by omega
    rw [if_neg hbelow, append_assoc, unescape_unicode, readEscape, readUnicode_escape hhigh, Option.bind_some,
      if_pos hsurrogate, readUnicode_escape hlow, Option.map_some, hback, Char.ofNat_toNat]

theorem escape_head (c : Char) : ∃ d cs, escape c = d :: cs ∧ d ≠ '"' := by
  by_cases hquote : c = '"'
  · subst hquote
    exact ⟨_, _, rfl, by decide⟩
  rw [escape, if_neg hquote]
  repeat' split
  all_goals first | exact ⟨_, _, rfl, hquote⟩ | exact ⟨_, _, rfl, by decide⟩

theorem flatMap_escape_determined {s s' r r' : List Char}
    (h : s.flatMap escape ++ '"' :: r = s'.flatMap escape ++ '"' :: r') : s = s' ∧ r = r' := by
  induction s generalizing s' with
  | nil =>
    cases s' with
    | nil => exact ⟨rfl, (cons.inj h).2⟩
    | cons c' s' =>
      obtain ⟨d, cs, hescape, hd⟩ := escape_head c'
      rw [flatMap_cons, hescape] at h
      exact absurd (cons.inj h).1.symm hd
  | cons c s ih =>
    cases s' with
    | nil =>
      obtain ⟨d, cs, hescape, hd⟩ := escape_head c
      rw [flatMap_cons, hescape] at h
      exact absurd (cons.inj h).1 hd
    | cons c' s' =>
      rw [flatMap_cons, flatMap_cons, append_assoc, append_assoc] at h
      have hread := congrArg unescape h
      rw [unescape_escape, unescape_escape, Option.some_inj, Prod.mk.injEq] at hread
      obtain ⟨hs, hr⟩ := ih hread.2
      exact ⟨by rw [hread.1, hs], hr⟩

theorem quote_append (s r : List Char) : quote s ++ r = '"' :: (s.flatMap escape ++ '"' :: r) := by
  rw [quote, cons_append, append_assoc, List.singleton_append]

/-- The text between quotes is determined, and what follows it. -/
theorem quote_determined {s s' r r' : List Char} (h : quote s ++ r = quote s' ++ r') : s = s' ∧ r = r' := by
  rw [quote_append, quote_append] at h
  exact flatMap_escape_determined (cons.inj h).2

/-! ## Values -/

/-- What follows a value does not go on with a word. -/
def Stops (r : List Char) : Prop := ∀ c ∈ r.head?, isWordChar c = false

theorem word_determined {w w' r r' : List Char} (hw : ∀ c ∈ w, isWordChar c = true)
    (hw' : ∀ c ∈ w', isWordChar c = true) (hr : Stops r) (hr' : Stops r') (h : w ++ r = w' ++ r') :
    w = w' ∧ r = r' := by
  have htake : ∀ {w r : List Char}, (∀ c ∈ w, isWordChar c = true) → Stops r →
      (w ++ r).takeWhile isWordChar = w := by
    intro w r hw hr
    rw [List.takeWhile_append_of_pos hw]
    cases r with
    | nil => rw [List.takeWhile_nil, append_nil]
    | cons c r => rw [List.takeWhile_cons_of_neg (by rw [hr c rfl]; exact Bool.false_ne_true), append_nil]
  have heq : w = w' := by
    rw [← htake hw hr, h, htake hw' hr']
  subst heq
  exact ⟨rfl, List.append_cancel_left h⟩

/-- The kinds of values. -/
def kind : JsonValue → Nat
  | .scalar _ => 0
  | .str _ => 1
  | .arr _ => 2
  | .obj _ => 3

/-- The kind that a first character tells. -/
def kindOf (c : Char) : Nat := if c = '"' then 1 else if c = '[' then 2 else if c = '\x7b' then 3 else 0

theorem kindOf_of_isWordChar (h : isWordChar c = true) : kindOf c = 0 ∧ c ≠ ']' := by
  have hne : ∀ d, isWordChar d = false → c ≠ d := by
    rintro d hd rfl
    exact absurd (h.symm.trans hd) Bool.false_ne_true.symm
  rw [kindOf, if_neg (hne '"' (by decide)), if_neg (hne '[' (by decide)), if_neg (hne '\x7b' (by decide))]
  exact ⟨rfl, hne ']' (by decide)⟩

theorem dumps_head (j : JsonValue) : ∃ c cs, dumps j = c :: cs ∧ kindOf c = kind j ∧ c ≠ ']' := by
  cases j with
  | scalar s =>
    obtain ⟨hne, hword⟩ := s.text_word
    obtain ⟨c, cs, hc⟩ := List.exists_cons_of_ne_nil hne
    exact ⟨c, cs, by rw [dumps, hc], kindOf_of_isWordChar (hword c (hc ▸ List.mem_cons_self))⟩
  | str text => exact ⟨_, _, by rw [dumps, quote], rfl, by decide⟩
  | arr items =>
    cases items with
    | nil => exact ⟨_, _, by rw [dumps], rfl, by decide⟩
    | cons item items => exact ⟨_, _, by rw [dumps], rfl, by decide⟩
  | obj members =>
    cases members with
    | nil => exact ⟨_, _, by rw [dumps], rfl, by decide⟩
    | cons member members => exact ⟨_, _, by rw [dumps], rfl, by decide⟩

variable {r r' : List Char}

theorem kind_eq {j j' : JsonValue} (h : dumps j ++ r = dumps j' ++ r') : kind j = kind j' := by
  obtain ⟨c, cs, hc, hkind, -⟩ := dumps_head j
  obtain ⟨c', cs', hc', hkind', -⟩ := dumps_head j'
  rw [hc, hc'] at h
  rw [← hkind, ← hkind', (cons.inj h).1]

/-- The text of a value in front determines it, and what follows it. -/
def Determined (j : JsonValue) : Prop :=
  ∀ (j' : JsonValue) (r r' : List Char), dumps j ++ r = dumps j' ++ r' → Stops r → Stops r' → j = j' ∧ r = r'

theorem stops_items (items : List JsonValue) (r : List Char) : Stops (dumpsItems items ++ r) := by
  cases items with
  | nil =>
    rintro c ⟨rfl⟩
    decide
  | cons item items =>
    rintro c ⟨rfl⟩
    decide

theorem stops_members (members : List (List Char × JsonValue)) (r : List Char) : Stops (dumpsMembers members ++ r) := by
  cases members with
  | nil =>
    rintro c ⟨rfl⟩
    decide
  | cons member members =>
    rintro c ⟨rfl⟩
    decide

theorem dumpsItems_determined {items items' : List JsonValue} (hitems : ∀ i ∈ items, Determined i)
    (h : dumpsItems items ++ r = dumpsItems items' ++ r') : items = items' ∧ r = r' := by
  induction items generalizing items' with
  | nil =>
    cases items' with
    | nil => exact ⟨rfl, (cons.inj h).2⟩
    | cons item' items' => exact absurd (cons.inj h).1 (by decide)
  | cons item items ih =>
    cases items' with
    | nil => exact absurd (cons.inj h).1 (by decide)
    | cons item' items' =>
      obtain ⟨hitem, hitems⟩ := forall_mem_cons.1 hitems
      simp only [dumpsItems, cons_append, append_assoc, cons.injEq, true_and] at h
      obtain ⟨rfl, hrest⟩ := hitem item' _ _ h (stops_items items r) (stops_items items' r')
      obtain ⟨rfl, hr⟩ := ih hitems hrest
      exact ⟨rfl, hr⟩

theorem dumpsMembers_determined {members members' : List (List Char × JsonValue)}
    (hmembers : ∀ m ∈ members, Determined m.2) (h : dumpsMembers members ++ r = dumpsMembers members' ++ r') :
    members = members' ∧ r = r' := by
  induction members generalizing members' with
  | nil =>
    cases members' with
    | nil => exact ⟨rfl, (cons.inj h).2⟩
    | cons member' members' => exact absurd (cons.inj h).1 (by decide)
  | cons member members ih =>
    cases members' with
    | nil => exact absurd (cons.inj h).1 (by decide)
    | cons member' members' =>
      obtain ⟨hmember, hmembers⟩ := forall_mem_cons.1 hmembers
      simp only [dumpsMembers, cons_append, append_assoc, cons.injEq, true_and] at h
      obtain ⟨hkey, hvalue⟩ := quote_determined h
      simp only [cons.injEq, true_and] at hvalue
      obtain ⟨hval, hrest⟩ := hmember member'.2 _ _ hvalue (stops_members members r) (stops_members members' r')
      obtain ⟨rfl, hr⟩ := ih hmembers hrest
      exact ⟨by rw [Prod.ext hkey hval], hr⟩

theorem determined_scalar (s : Scalar) : Determined (.scalar s) := by
  intro j' r r' h hr hr'
  have hkind := kind_eq h
  cases j' with
  | scalar s' =>
    obtain ⟨htext, hrest⟩ := word_determined s.text_word.2 s'.text_word.2 hr hr' h
    exact ⟨by rw [Scalar.text_injective htext], hrest⟩
  | str text' => cases hkind
  | arr items' => cases hkind
  | obj members' => cases hkind

theorem determined_str (text : List Char) : Determined (.str text) := by
  intro j' r r' h _ _
  have hkind := kind_eq h
  cases j' with
  | str text' =>
    rw [dumps, dumps] at h
    obtain ⟨htext, hr⟩ := quote_determined h
    exact ⟨by rw [htext], hr⟩
  | scalar s' => cases hkind
  | arr items' => cases hkind
  | obj members' => cases hkind

theorem determined_arr {items : List JsonValue} (hitems : ∀ i ∈ items, Determined i) : Determined (.arr items) := by
  intro j' r r' h _ _
  have hkind := kind_eq h
  cases j' with
  | arr items' =>
    cases items with
    | nil =>
      cases items' with
      | nil => exact ⟨rfl, (cons.inj (cons.inj h).2).2⟩
      | cons item' items' =>
        obtain ⟨c, cs, hc, -, hclose⟩ := dumps_head item'
        rw [dumps, dumps, hc] at h
        exact absurd (cons.inj (cons.inj h).2).1.symm hclose
    | cons item items =>
      cases items' with
      | nil =>
        obtain ⟨c, cs, hc, -, hclose⟩ := dumps_head item
        rw [dumps, dumps, hc] at h
        exact absurd (cons.inj (cons.inj h).2).1 hclose
      | cons item' items' =>
        simp only [dumps, cons_append, append_assoc, cons.injEq, true_and] at h
        obtain ⟨heq, hr⟩ := @dumpsItems_determined r r' _ (item' :: items') hitems (by
          simp only [dumpsItems, cons_append, append_assoc, h])
        exact ⟨congrArg _ heq, hr⟩
  | scalar s' => cases hkind
  | str text' => cases hkind
  | obj members' => cases hkind

theorem determined_obj {members : List (List Char × JsonValue)} (hmembers : ∀ m ∈ members, Determined m.2) :
    Determined (.obj members) := by
  intro j' r r' h _ _
  have hkind := kind_eq h
  cases j' with
  | obj members' =>
    cases members with
    | nil =>
      cases members' with
      | nil => exact ⟨rfl, (cons.inj (cons.inj h).2).2⟩
      | cons member' members' =>
        rw [dumps, dumps, quote] at h
        exact absurd (cons.inj (cons.inj h).2).1 (by decide)
    | cons member members =>
      cases members' with
      | nil =>
        rw [dumps, dumps, quote] at h
        exact absurd (cons.inj (cons.inj h).2).1 (by decide)
      | cons member' members' =>
        simp only [dumps, cons_append, append_assoc, cons.injEq, true_and] at h
        obtain ⟨heq, hr⟩ := @dumpsMembers_determined r r' _ (member' :: members') hmembers (by
          simp only [dumpsMembers, cons_append, append_assoc, h])
        exact ⟨congrArg _ heq, hr⟩
  | scalar s' => cases hkind
  | str text' => cases hkind
  | arr items' => cases hkind

mutual

theorem determined : ∀ j : JsonValue, Determined j
  | .scalar s => determined_scalar s
  | .str text => determined_str text
  | .arr items => determined_arr (determinedItems items)
  | .obj members => determined_obj (determinedMembers members)

theorem determinedItems : ∀ items : List JsonValue, ∀ i ∈ items, Determined i
  | [], _, h => absurd h List.not_mem_nil
  | item :: items, i, h => (forall_mem_cons (p := Determined)).2 ⟨determined item, determinedItems items⟩ i h

theorem determinedMembers : ∀ members : List (List Char × JsonValue), ∀ m ∈ members, Determined m.2
  | [], _, h => absurd h List.not_mem_nil
  | (_, value) :: members, m, h =>
    (forall_mem_cons (p := fun m : List Char × JsonValue => Determined m.2)).2
      ⟨determined value, determinedMembers members⟩ m h

end

/-- The text of a value determines the value. -/
theorem dumps_injective {j j' : JsonValue} (h : dumps j = dumps j') : j = j' := by
  have hstops : Stops [] := fun c hc => nomatch hc
  refine (determined j j' [] [] ?_ hstops hstops).1
  rw [append_nil, append_nil, h]

end JsonText

end SystemDesignLabs.Core
