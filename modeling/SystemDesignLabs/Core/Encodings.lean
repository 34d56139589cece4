import Mathlib

/-!
# UTF-8

The bytes of a text and the two ways to read bytes as text: `fromUtf8` fails on bytes that are not the
encoding of a text, `decodeReplace` never fails and puts U+FFFD in the place of each part that no character
starts with. Both read the bytes of a text back exactly (`fromUtf8_utf8Bytes`, `decodeReplace_utf8Bytes`).
-/

namespace SystemDesignLabs.Core

open List Option

open String (utf8EncodeChar length_utf8EncodeChar)

/-- The UTF-8 bytes of a text. -/
def utf8Bytes (s : String) : List UInt8 := s.toByteArray.data.toList

/-- The characters of bytes that are the encodings of at most `n` characters. -/
def strictChars : Nat → List UInt8 → Option (List Char)
  | _, [] => some []
  | 0, _ :: _ => none
  | n + 1, b :: bs =>
    match ByteArray.utf8DecodeChar? ⟨(b :: bs).toArray⟩ 0 with
    | some c => (strictChars n ((b :: bs).drop c.utf8Size)).map (c :: ·)
    | none => none

/-- The text with these UTF-8 bytes, if there is one. Each character takes at least one byte. -/
def fromUtf8 (bs : List UInt8) : Option String := (strictChars bs.length bs).map String.ofList

/-- May `second` follow `first` in the encoding of a character of three or four bytes? -/
def isSecondByte (first second : UInt8) : Bool :=
  0x80 ≤ second && second ≤ 0xBF && !(first == 0xE0 && second < 0xA0) && !(first == 0xED && 0x9F < second) &&
    !(first == 0xF0 && second < 0x90) && !(first == 0xF4 && 0x8F < second)

/-- The number of bytes that one replacement character stands for, where no character starts: the longest
front that some encoding of a character starts with, at least one byte. -/
def replacedLength : List UInt8 → Nat
  | first :: second :: third :: _ =>
    if 0xE0 ≤ first && first ≤ 0xF4 && isSecondByte first second then
      if 0xF0 ≤ first && 0x80 ≤ third && third ≤ 0xBF then 3 else 2
    else 1
  | [first, second] => if 0xE0 ≤ first && first ≤ 0xF4 && isSecondByte first second then 2 else 1
  | _ => 1

/-- The characters of the first `n` encodings or replaced parts. -/
def decodeChars : Nat → List UInt8 → List Char
  | 0, _ => []
  | _ + 1, [] => []
  | n + 1, b :: bs =>
    match ByteArray.utf8DecodeChar? ⟨(b :: bs).toArray⟩ 0 with
    | some c => c :: decodeChars n ((b :: bs).drop c.utf8Size)
    | none => '\uFFFD' :: decodeChars n ((b :: bs).drop (replacedLength (b :: bs)))

/-- `bytes.decode("utf-8", errors="replace")`. -/
def decodeReplace (bs : List UInt8) : String := String.ofList (decodeChars bs.length bs)

theorem utf8Bytes_append (s t : String) : utf8Bytes (s ++ t) = utf8Bytes s ++ utf8Bytes t := by
  rw [utf8Bytes, String.toByteArray_append, ByteArray.data_append, Array.toList_append]
  rfl

theorem data_utf8Encode_singleton (c : Char) : [c].utf8Encode.data.toList = utf8EncodeChar c := by
  simp [utf8Encode_singleton]

theorem utf8DecodeChar_append (c : Char) (bs : List UInt8) :
    ByteArray.utf8DecodeChar? ⟨(utf8EncodeChar c ++ bs).toArray⟩ 0 = some c := by
  have hbytes : (⟨(utf8EncodeChar c ++ bs).toArray⟩ : ByteArray) = [c].utf8Encode ++ ⟨bs.toArray⟩ := by
    apply ByteArray.ext
    rw [ByteArray.data_append, ← data_utf8Encode_singleton]
    simp
  rw [hbytes, utf8DecodeChar?_utf8Encode_singleton_append]

theorem utf8EncodeChar_eq_cons (c : Char) : ∃ b bs, utf8EncodeChar c = b :: bs := by
  cases h : utf8EncodeChar c with
  | nil => exact absurd h String.utf8EncodeChar_ne_nil
  | cons b bs => exact ⟨b, bs, rfl⟩

theorem decodeChars_cons (n : Nat) (c : Char) (bs : List UInt8) :
    decodeChars (n + 1) (utf8EncodeChar c ++ bs) = c :: decodeChars n bs := by
  obtain ⟨b, rest, hc⟩ := utf8EncodeChar_eq_cons c
  have hread := utf8DecodeChar_append c bs
  have hdrop : (utf8EncodeChar c ++ bs).drop c.utf8Size = bs := by rw [← length_utf8EncodeChar, drop_left]
  rw [hc, cons_append] at hread hdrop ⊢
  simp only [decodeChars, hread, hdrop]

theorem strictChars_cons (n : Nat) (c : Char) (bs : List UInt8) :
    strictChars (n + 1) (utf8EncodeChar c ++ bs) = (strictChars n bs).map (c :: ·) := by
  obtain ⟨b, rest, hc⟩ := utf8EncodeChar_eq_cons c
  have hread := utf8DecodeChar_append c bs
  have hdrop : (utf8EncodeChar c ++ bs).drop c.utf8Size = bs := by rw [← length_utf8EncodeChar, drop_left]
  rw [hc, cons_append] at hread hdrop ⊢
  simp only [strictChars, hread, hdrop]

theorem utf8Bytes_eq_flatMap (s : String) : utf8Bytes s = s.toList.flatMap utf8EncodeChar := by
  have hchars : ∀ cs : List Char, cs.utf8Encode.data.toList = cs.flatMap utf8EncodeChar := by
    intro cs
    induction cs with
    | nil => rw [utf8Encode_nil]; rfl
    | cons c cs ih =>
      rw [utf8Encode_cons, ByteArray.data_append, Array.toList_append, ih, data_utf8Encode_singleton, flatMap_cons]
  rw [← hchars, String.utf8Encode_toList, utf8Bytes]

variable {bs : List UInt8}

theorem length_le_of_utf8EncodeChar {c : Char} {n : Nat} (h : (utf8EncodeChar c ++ bs).length ≤ n) :
    ∃ m, n = m + 1 ∧ bs.length ≤ m := by
  have hpos := c.utf8Size_pos
  rw [length_append, length_utf8EncodeChar] at h
  exact ⟨n - 1, by omega, by omega⟩

/-- The bytes of a text are decoded exactly, without a replacement. -/
theorem decodeReplace_utf8Bytes (s : String) : decodeReplace (utf8Bytes s) = s := by
  have hchars : ∀ (cs : List Char) (n : Nat), (cs.flatMap utf8EncodeChar).length ≤ n →
      decodeChars n (cs.flatMap utf8EncodeChar) = cs := by
    intro cs
    induction cs with
    | nil =>
      intro n _
      cases n <;> rfl
    | cons c cs ih =>
      intro n hn
      obtain ⟨m, rfl, hm⟩ := length_le_of_utf8EncodeChar hn
      rw [flatMap_cons, decodeChars_cons, ih m hm]
  rw [decodeReplace, utf8Bytes_eq_flatMap, hchars _ _ (Nat.le_refl _), String.ofList_toList]

/-- The bytes of a text are read strictly as that text. -/
theorem fromUtf8_utf8Bytes (s : String) : fromUtf8 (utf8Bytes s) = some s := by
  have hchars : ∀ (cs : List Char) (n : Nat), (cs.flatMap utf8EncodeChar).length ≤ n →
      strictChars n (cs.flatMap utf8EncodeChar) = some cs := by
    intro cs
    induction cs with
    | nil =>
      intro n _
      cases n <;> rfl
    | cons c cs ih =>
      intro n hn
      obtain ⟨m, rfl, hm⟩ := length_le_of_utf8EncodeChar hn
      rw [flatMap_cons, strictChars_cons, ih m hm, map_some]
  rw [fromUtf8, utf8Bytes_eq_flatMap, hchars _ _ (Nat.le_refl _), map_some, String.ofList_toList]

theorem fromUtf8_toFin (s : String) : fromUtf8 (((utf8Bytes s).map UInt8.toFin).map UInt8.ofFin) = some s := by
  have hmap : ((utf8Bytes s).map UInt8.toFin).map UInt8.ofFin = utf8Bytes s := by
    rw [List.map_map]
    exact map_id _
  rw [hmap, fromUtf8_utf8Bytes]

/-! ### Bytes that are a text -/

theorem eq_append_of_utf8DecodeChar {c : Char} (h : ByteArray.utf8DecodeChar? ⟨bs.toArray⟩ 0 = some c) :
    bs = utf8EncodeChar c ++ bs.drop c.utf8Size := by
  have hfront : utf8EncodeChar c = bs.take c.utf8Size := by
    have hextract := String.toByteArray_utf8EncodeChar_of_utf8DecodeChar?_eq_some h
    have hlist := congrArg (fun b : ByteArray => b.data.toList) hextract
    simpa using hlist
  rw [hfront, take_append_drop]

theorem utf8Bytes_of_fromUtf8 {s : String} (h : fromUtf8 bs = some s) : utf8Bytes s = bs := by
  have hchars : ∀ (n : Nat) (bs : List UInt8) (cs : List Char), strictChars n bs = some cs →
      cs.flatMap utf8EncodeChar = bs := by
    intro n
    induction n with
    | zero =>
      intro bs cs h
      cases bs with
      | nil =>
        cases h
        rfl
      | cons b bs => exact nomatch h
    | succ n ih =>
      intro bs cs h
      cases bs with
      | nil =>
        cases h
        rfl
      | cons b bs =>
        rw [strictChars] at h
        split at h
        · rename_i c hc
          obtain ⟨cs', hcs', rfl⟩ := map_eq_some_iff.1 h
          rw [flatMap_cons, ih _ _ hcs', ← eq_append_of_utf8DecodeChar hc]
        · exact nomatch h
  obtain ⟨cs, hcs, rfl⟩ := map_eq_some_iff.1 h
  rw [utf8Bytes_eq_flatMap, String.toList_ofList, hchars _ _ _ hcs]

theorem fromUtf8_front {rest : List UInt8} {s t : String} (h : fromUtf8 bs = some s)
    (ht : bs ++ rest = utf8Bytes t) : s.toList <+: t.toList := by
  have hbytes : s.toList.utf8Encode ++ ⟨rest.toArray⟩ = t.toList.utf8Encode := by
    apply ByteArray.ext
    apply Array.toList_inj.1
    rw [ByteArray.data_append, Array.toList_append, String.utf8Encode_toList, String.utf8Encode_toList]
    exact (congrArg (· ++ rest) (utf8Bytes_of_fromUtf8 h)).trans ht
  exact isPrefix_of_utf8Encode_append_eq_utf8Encode _ hbytes

theorem eq_of_mem_utf8EncodeChar {c : Char} {b : UInt8} (h : b ∈ utf8EncodeChar c) (hb : b.toNat < 0x80) :
    c.toNat = b.toNat := by
  have hnat : ∀ n, b = UInt8.ofNat n → b.toNat = n % 256 := fun n hn => hn ▸ UInt8.toNat_ofNat'
  show c.val.toNat = b.toNat
  simp only [utf8EncodeChar] at h
  split at h
  · have hbyte := hnat _ (mem_singleton.1 h)
    omega
  · split at h
    · simp only [mem_cons, not_mem_nil, or_false] at h
      rcases h with h | h <;> have hbyte := hnat _ h <;> omega
    · split at h
      · simp only [mem_cons, not_mem_nil, or_false] at h
        rcases h with h | h | h <;> have hbyte := hnat _ h <;> omega
      · simp only [mem_cons, not_mem_nil, or_false] at h
        rcases h with h | h | h | h <;> have hbyte := hnat _ h <;> omega

/-!
## Base64

`b64encode` writes three bytes as four characters of the standard alphabet and pads the last group.
`b64decode` is the decoder that skips characters outside the alphabet: it keeps the number of characters
of the current group, the bits of the last one that are not yet in a byte, and the number of padding
characters. It reads back what was encoded (`b64decode_b64encode`).
-/

/-- The character that stands for six bits. -/
def b64Char (v : Nat) : Char :=
  if v < 26 then Char.ofNat (v + 65)
  else if v < 52 then Char.ofNat (v + 71)
  else if v < 62 then Char.ofNat (v - 4)
  else if v = 62 then '+'
  else '/'

/-- The six bits that a character of the alphabet stands for. -/
def b64Value (c : Char) : Option Nat :=
  if 65 ≤ c.toNat ∧ c.toNat ≤ 90 then some (c.toNat - 65)
  else if 97 ≤ c.toNat ∧ c.toNat ≤ 122 then some (c.toNat - 71)
  else if 48 ≤ c.toNat ∧ c.toNat ≤ 57 then some (c.toNat + 4)
  else if c = '+' then some 62
  else if c = '/' then some 63
  else none

/-- The characters of a byte string, in groups of four. -/
def b64encode : List UInt8 → List Char
  | x :: y :: z :: bs =>
    b64Char (x.toNat / 4) :: b64Char (x.toNat % 4 * 16 + y.toNat / 16) ::
      b64Char (y.toNat % 16 * 4 + z.toNat / 64) :: b64Char (z.toNat % 64) :: b64encode bs
  | [x, y] => [b64Char (x.toNat / 4), b64Char (x.toNat % 4 * 16 + y.toNat / 16), b64Char (y.toNat % 16 * 4), '=']
  | [x] => [b64Char (x.toNat / 4), b64Char (x.toNat % 4 * 16), '=', '=']
  | [] => []

/-- The byte that the character at a place of its group completes, and the bits that are left over. -/
def b64Step (leftchar v : Nat) : Nat → List UInt8 × Nat
  | 0 => ([], v)
  | 1 => ([UInt8.ofNat (leftchar * 4 + v / 16)], v % 16)
  | 2 => ([UInt8.ofNat (leftchar * 16 + v / 4)], v % 4)
  | _ => ([UInt8.ofNat (leftchar * 64 + v)], 0)

/-- The decoder: `quadPos` characters of the group are read, `leftchar` are the bits that are left over,
`pads` padding characters came last. Padding that completes a group ends the input. -/
def b64Loop (quadPos leftchar pads : Nat) : List Char → Option (List UInt8)
  | [] => if quadPos = 0 then some [] else none
  | c :: cs =>
    if c = '=' then
      if 2 ≤ quadPos ∧ 4 ≤ quadPos + (pads + 1) then some []
      else b64Loop quadPos leftchar (if 2 ≤ quadPos then pads + 1 else pads) cs
    else match b64Value c with
      | none => b64Loop quadPos leftchar pads cs
      | some v =>
        let next := b64Step leftchar v quadPos
        (b64Loop ((quadPos + 1) % 4) next.2 0 cs).map (next.1 ++ ·)

def b64decode (cs : List Char) : Option (List UInt8) := b64Loop 0 0 0 cs

theorem b64Char_spec : ∀ v : Fin 64, b64Value (b64Char v) = some v.val ∧ b64Char v ≠ '=' := by
  decide

theorem b64Loop_b64Char {quadPos leftchar pads : Nat} {cs : List Char} {v : Nat} (hv : v < 64) :
    b64Loop quadPos leftchar pads (b64Char v :: cs) =
      (b64Loop ((quadPos + 1) % 4) (b64Step leftchar v quadPos).2 0 cs).map ((b64Step leftchar v quadPos).1 ++ ·) := by
  obtain ⟨hvalue, hpad⟩ := b64Char_spec ⟨v, hv⟩
  rw [b64Loop, if_neg hpad, hvalue]

theorem ofNat_eq_of_toNat {n : Nat} {x : UInt8} (h : n = x.toNat) : UInt8.ofNat n = x := by
  rw [h, UInt8.ofNat_toNat]

theorem b64Loop_group (x y z : UInt8) (bs : List UInt8) :
    b64decode (b64encode (x :: y :: z :: bs)) = (b64decode (b64encode bs)).map ([x, y, z] ++ ·) := by
  have hx := x.toNat_lt
  have hy := y.toNat_lt
  have hz := z.toNat_lt
  rw [b64decode, b64encode, b64Loop_b64Char (by omega), b64Loop_b64Char (by omega), b64Loop_b64Char (by omega),
    b64Loop_b64Char (by omega)]
  simp only [b64Step, Option.map_map]
  rw [ofNat_eq_of_toNat (x := x) (by omega), ofNat_eq_of_toNat (x := y) (by omega),
    ofNat_eq_of_toNat (x := z) (by omega)]
  rfl

/-- What was encoded is read back. -/
theorem b64decode_b64encode (bs : List UInt8) : b64decode (b64encode bs) = some bs := by
  induction bs using b64encode.induct with
  | case1 x y z bs ih =>
    rw [b64Loop_group, ih]
    rfl
  | case2 x y =>
    have hx := x.toNat_lt
    have hy := y.toNat_lt
    rw [b64decode, b64encode, b64Loop_b64Char (by omega), b64Loop_b64Char (by omega),
      b64Loop_b64Char (by omega)]
    simp only [b64Step]
    rw [ofNat_eq_of_toNat (x := x) (by omega), ofNat_eq_of_toNat (x := y) (by omega)]
    rfl
  | case3 x =>
    have hx := x.toNat_lt
    rw [b64decode, b64encode, b64Loop_b64Char (by omega), b64Loop_b64Char (by omega)]
    simp only [b64Step]
    rw [ofNat_eq_of_toNat (x := x) (by omega)]
    rfl
  | case4 => rfl

end SystemDesignLabs.Core
