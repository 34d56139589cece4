import Mathlib

/-!
# Chunked transfer encoding

`decodeChunked` of the HTTP server and the body that `writeResponseV1` writes of a chunked response. A chunk is its
size in hexadecimal, an extension, and as many bytes; a size of zero ends the body. The size is a signed number that
`make` allocates before a byte of the chunk has arrived, so that decoding is lossless and yet panics on some streams:
`chunked_iff` says on which.
-/

namespace SystemDesignLabs.HttpServer

open List

/-- What `make` can allocate: a length is an `int64`. -/
structure Runtime where
  maxAlloc : Nat
  representable : maxAlloc < 2 ^ 63

/-- How `decodeChunked` fails: with an error, or in `make`. -/
inductive Failure where
  /-- `"chunked: read size"` -/
  | readSize
  /-- `"chunked: bad size"` -/
  | badSize (sizeLine : List UInt8)
  /-- `"chunked: read chunk"` -/
  | readChunk
  | panic
  deriving DecidableEq

/-- `ReadString('\n')`: the text up to a line feed and the rest; `none` is `io.EOF`. -/
def readString (r : List UInt8) : Option (List UInt8 × List UInt8) :=
  match r.dropWhile (· ≠ 10) with
  | [] => none
  | b :: rest => some (r.takeWhile (· ≠ 10) ++ [b], rest)

/-- What `ReadString` leaves where its result is dropped. -/
def skipLine (r : List UInt8) : List UInt8 :=
  (r.dropWhile (· ≠ 10)).tail

/-- `strings.TrimRight(s, "\r\n")`. -/
def trimRight (s : List UInt8) : List UInt8 :=
  s.rdropWhile fun b => b = 13 ∨ b = 10

/-- A size line without the extension behind its first semicolon. -/
def cutExtension (s : List UInt8) : List UInt8 :=
  s.takeWhile (· ≠ 59)

/-- The characters of `unicode.IsSpace` in UTF-8. -/
def spaces : List (List UInt8) :=
  [9, 10, 11, 12, 13, 32, 0x85, 0xA0, 0x1680, 0x2000, 0x2001, 0x2002, 0x2003, 0x2004, 0x2005, 0x2006, 0x2007, 0x2008,
    0x2009, 0x200A, 0x2028, 0x2029, 0x202F, 0x205F, 0x3000].map fun n => String.utf8EncodeChar (Char.ofNat n)

/-- A text without the given characters in front, as many as there may be. -/
def dropFront (chars : List (List UInt8)) : Nat → List UInt8 → List UInt8
  | 0, s => s
  | k + 1, s => match chars.find? (·.isPrefixOf s) with
    | some char => dropFront chars k (s.drop char.length)
    | none => s

/-- `strings.TrimSpace`. -/
def trimSpace (s : List UInt8) : List UInt8 :=
  let front := dropFront spaces s.length s
  (dropFront (spaces.map reverse) front.length front.reverse).reverse

def hexValue (b : UInt8) : Option Nat :=
  if 48 ≤ b ∧ b ≤ 57 then some (b.toNat - 48)
  else if 97 ≤ b ∧ b ≤ 102 then some (b.toNat - 87)
  else if 65 ≤ b ∧ b ≤ 70 then some (b.toNat - 55)
  else none

def hexNumber (s : List UInt8) : Option Nat :=
  s.foldlM (fun n b => (hexValue b).map (n * 16 + ·)) 0

/-- `strconv.ParseInt(s, 16, 64)`. -/
def parseInt (s : List UInt8) : Option Int :=
  let digits := if s.head? = some 45 ∨ s.head? = some 43 then s.tail else s
  if digits = [] then none
  else match hexNumber digits with
    | none => none
    | some n =>
      if s.head? = some 45 then if n ≤ 2 ^ 63 then some (-n) else none
      else if n < 2 ^ 63 then some n else none

/-- The size that a line declares. -/
def sizeOf (sizeLine : List UInt8) : Option Int :=
  parseInt (trimSpace (cutExtension (trimRight sizeLine)))

theorem length_readString {r line rest : List UInt8} (h : readString r = some (line, rest)) :
    rest.length < r.length := by
  rw [readString] at h
  split at h
  · cases h
  · next hdrop =>
    cases h
    have hle := (dropWhile_suffix (l := r) (· ≠ 10)).length_le
    rw [hdrop] at hle
    exact hle

theorem length_skipLine_le (r : List UInt8) : (skipLine r).length ≤ r.length :=
  ((tail_suffix _).trans (dropWhile_suffix _)).length_le

/-- The loop of `decodeChunked`, with what was assembled so far. It returns what is left of the stream, too. -/
def decodeLoop (g : Runtime) (r out : List UInt8) : Except Failure (List UInt8 × List UInt8) :=
  match _hread : readString r with
  | none => .error .readSize
  | some (line, rest) =>
    match sizeOf line with
    | none => .error (.badSize (cutExtension (trimRight line)))
    | some n =>
      if n = 0 then .ok (out, skipLine rest)
      else if n < 0 ∨ g.maxAlloc < n then .error .panic
      else if rest.length < n.toNat then .error .readChunk
      else decodeLoop g (skipLine (rest.drop n.toNat)) (out ++ rest.take n.toNat)
termination_by r.length
decreasing_by
  have hlt := length_readString _hread
  have hle := length_skipLine_le (rest.drop n.toNat)
  rw [length_drop] at hle
  omega

def decodeChunked (g : Runtime) (r : List UInt8) : Except Failure (List UInt8 × List UInt8) :=
  decodeLoop g r []

/-! ## What is sent -/

/-- `%x`. -/
def hexText (n : Nat) : List UInt8 :=
  (Nat.toDigits 16 n).map fun c => UInt8.ofNat c.toNat

/-- What stands between a size and the end of its line: nothing, or a semicolon and any bytes but a line feed. -/
structure Extension where
  bytes : List UInt8
  semicolon : ∀ b ∈ bytes.head?, b = 59
  oneLine : 10 ∉ bytes

/-- A chunk that is not empty and fits into memory. -/
structure Chunk (g : Runtime) where
  data : List UInt8
  ext : Extension
  nonempty : data ≠ []
  allocated : data.length ≤ g.maxAlloc

/-- The line of a size. -/
def sizeLine (n : Nat) (ext : Extension) : List UInt8 :=
  hexText n ++ ext.bytes ++ [13, 10]

def Chunk.bytes {g : Runtime} (c : Chunk g) : List UInt8 :=
  sizeLine c.data.length c.ext ++ c.data ++ [13, 10]

/-- Chunks and the last one, of size zero. -/
def encode {g : Runtime} (chunks : List (Chunk g)) (last : Extension) : List UInt8 :=
  chunks.flatMap Chunk.bytes ++ sizeLine 0 last ++ [13, 10]

/-- What `writeResponseV1` writes after the headers of a chunked response. -/
def writeBody (body : List UInt8) : List UInt8 :=
  (if 0 < body.length then hexText body.length ++ [13, 10] ++ body ++ [13, 10] else []) ++ [48, 13, 10, 13, 10]

/-! ## Which streams panic -/

/-- The size line in front of a stream, and what follows it. -/
def readSize (r : List UInt8) : Option (Int × List UInt8) :=
  (readString r).bind fun p => (sizeOf p.1).map (·, p.2)

/-- A stream begins with a chunk, and this is what follows. -/
def Passes (g : Runtime) (r r' : List UInt8) : Prop :=
  ∃ n rest, readSize r = some (n, rest) ∧ 0 < n ∧ n ≤ g.maxAlloc ∧ n.toNat ≤ rest.length ∧
    r' = skipLine (rest.drop n.toNat)

/-- No size line that stands behind chunks of the stream declares less than nothing or more than can be allocated. -/
def Allocatable (g : Runtime) (r : List UInt8) : Prop :=
  ∀ r', Relation.ReflTransGen (Passes g) r r' → ∀ n rest, readSize r' = some (n, rest) → 0 ≤ n ∧ n ≤ g.maxAlloc

variable {g : Runtime} {r line rest out : List UInt8} {n : Int}

theorem allocatable_iff : Allocatable g r ↔ (∀ n rest, readSize r = some (n, rest) → 0 ≤ n ∧ n ≤ g.maxAlloc) ∧
    ∀ r', Passes g r r' → Allocatable g r' := by
  constructor
  · intro h
    exact ⟨h r .refl, fun r' hpass r'' hmore => h r'' (.head hpass hmore)⟩
  · rintro ⟨hhere, hnext⟩ r' hreach
    rcases hreach.cases_head with rfl | ⟨r'', hpass, hmore⟩
    · exact hhere
    · exact hnext r'' hpass r' hmore

theorem readSize_some (hread : readString r = some (line, rest)) (hsize : sizeOf line = some n) :
    readSize r = some (n, rest) := by
  rw [readSize, hread, Option.bind_some, hsize, Option.map_some]

/-- A stream that does not begin with a chunk is judged by its first line. -/
theorem allocatable_of_stops (h : ∀ n rest, readSize r = some (n, rest) →
    n = 0 ∨ 0 < n ∧ n ≤ g.maxAlloc ∧ rest.length < n.toNat) : Allocatable g r := by
  rw [allocatable_iff]
  refine ⟨fun n rest hsize => ?_, ?_⟩
  · have hstop := h n rest hsize
    omega
  · rintro r' ⟨n, rest, hsize, hpos, -, hlong, -⟩
    have hstop := h n rest hsize
    omega

/-- The decoder panics just on the streams with a size line that cannot be allocated. -/
theorem decodeLoop_safe_iff (r out : List UInt8) : decodeLoop g r out ≠ .error .panic ↔ Allocatable g r := by
  fun_induction decodeLoop g r out with
  | case1 r out hread =>
    refine iff_of_true nofun (allocatable_of_stops fun n rest hsize => ?_)
    rw [readSize, hread] at hsize
    cases hsize
  | case2 r out line rest hread hnone =>
    refine iff_of_true nofun (allocatable_of_stops fun n rest hsize => ?_)
    rw [readSize, hread, Option.bind_some, hnone] at hsize
    cases hsize
  | case3 r out line rest hread hsize =>
    refine iff_of_true nofun (allocatable_of_stops fun n rest hn => .inl ?_)
    cases (readSize_some hread hsize).symm.trans hn
    rfl
  | case4 r out line rest hread n hsize hzero hbad =>
    refine iff_of_false (fun hne => hne rfl) fun halloc => ?_
    have hfine := halloc r .refl n rest (readSize_some hread hsize)
    omega
  | case5 r out line rest hread n hsize hzero hbad hshort =>
    refine iff_of_true nofun (allocatable_of_stops fun n' rest' hn => .inr ?_)
    cases (readSize_some hread hsize).symm.trans hn
    omega
  | case6 r out line rest hread n hsize hzero hbad hlong ih =>
    have hchunk := readSize_some hread hsize
    rw [ih, allocatable_iff (r := r)]
    refine ⟨fun halloc => ⟨fun n' rest' hn => ?_, ?_⟩, fun h => ?_⟩
    · cases hchunk.symm.trans hn
      omega
    · rintro r' ⟨n', rest', hn, -, -, -, rfl⟩
      cases hchunk.symm.trans hn
      exact halloc
    · exact h.2 _ ⟨n, rest, hchunk, by omega, by omega, by omega, rfl⟩

/-! ## What is sent is decoded -/

theorem hexValue_digitChar {d : Nat} (h : d < 16) : hexValue (UInt8.ofNat d.digitChar.toNat) = some d := by
  have hall : ∀ d < 16, hexValue (UInt8.ofNat d.digitChar.toNat) = some d := by decide
  exact hall d h

theorem hexNumber_concat (s : List UInt8) (b : UInt8) :
    hexNumber (s ++ [b]) = (hexNumber s).bind fun n => (hexValue b).map (n * 16 + ·) := by
  rw [hexNumber, foldlM_append]
  simp only [foldlM_cons, foldlM_nil, bind_pure]
  rfl

/-- A printed size is read back, and has only digits. -/
theorem hexText_spec (n : Nat) :
    hexNumber (hexText n) = some n ∧ ∀ b ∈ hexText n, (hexValue b).isSome = true := by
  induction n using Nat.strong_induction_on with
  | h n ih =>
    by_cases hlt : n < 16
    · have hvalue := hexValue_digitChar hlt
      rw [hexText, Nat.toDigits_of_lt_base hlt, map_singleton]
      refine ⟨(hexNumber_concat [] _).trans ?_, forall_mem_singleton.2 (by rw [hvalue, Option.isSome_some])⟩
      show (hexValue _).map (0 * 16 + ·) = _
      rw [hvalue, Option.map_some, Nat.zero_mul, Nat.zero_add]
    · obtain ⟨hnumber, hdigits⟩ := ih (n / 16) (by omega)
      have hvalue := hexValue_digitChar (Nat.mod_lt n (show 16 > 0 by decide))
      have hsplit : hexText n = hexText (n / 16) ++ [UInt8.ofNat (n % 16).digitChar.toNat] := by
        rw [hexText, Nat.toDigits_of_base_le (by decide) (Nat.not_lt.1 hlt), map_append]
        rfl
      rw [hsplit, hexNumber_concat, hnumber, Option.bind_some, hvalue, Option.map_some]
      refine ⟨congrArg some (by omega), forall_mem_append.2 ⟨hdigits, forall_mem_singleton.2 ?_⟩⟩
      rw [hvalue, Option.isSome_some]

theorem readString_line (hline : 10 ∉ line) (rest : List UInt8) :
    readString (line ++ 10 :: rest) = some (line ++ [10], rest) ∧ skipLine (line ++ 10 :: rest) = rest := by
  have hall : ∀ b ∈ line, decide (b ≠ 10) = true := fun b hb => decide_eq_true fun heq => hline (heq ▸ hb)
  have hdrop : (line ++ 10 :: rest).dropWhile (· ≠ 10) = 10 :: rest := dropWhile_append_of_pos hall
  have htake : (line ++ 10 :: rest).takeWhile (· ≠ 10) = line ++ [] := takeWhile_append_of_pos hall
  rw [readString, skipLine, hdrop, htake, append_nil]
  exact ⟨rfl, rfl⟩

/-- A text that ends in no trimmed byte stays when what follows it is trimmed. -/
theorem rdropWhile_append_of_last {p : UInt8 → Bool} {front : List UInt8} {b : UInt8} (hb : p b = false)
    (back : List UInt8) : (front ++ [b] ++ back).rdropWhile p = front ++ [b] ++ back.rdropWhile p := by
  induction back using reverseRecOn with
  | nil => rw [append_nil, rdropWhile_concat_neg _ _ _ (by simp [hb]), rdropWhile_nil, append_nil]
  | append_singleton back c ih =>
    rw [← append_assoc]
    by_cases hc : p c = true
    · rw [rdropWhile_concat_pos _ _ _ hc, rdropWhile_concat_pos _ _ _ hc, ih]
    · rw [rdropWhile_concat_neg _ _ _ hc, rdropWhile_concat_neg _ _ _ hc, append_assoc]

/-- No character that begins with another byte than a hexadecimal digit is dropped in front of one. -/
theorem dropFront_of_hex {chars : List (List UInt8)}
    (hchars : ∀ char ∈ chars, char ≠ [] ∧ char.head?.bind hexValue = none) {b : UInt8}
    (hb : (hexValue b).isSome = true) (k : Nat) (s : List UInt8) : dropFront chars k (b :: s) = b :: s := by
  cases k with
  | zero => rfl
  | succ k =>
    have hnone : chars.find? (·.isPrefixOf (b :: s)) = none := by
      refine find?_eq_none.2 fun char hchar hprefix => ?_
      obtain ⟨hne, hhex⟩ := hchars char hchar
      obtain ⟨c, char, rfl⟩ := exists_cons_of_ne_nil hne
      obtain ⟨rfl, -⟩ := cons_prefix_cons.1 (List.isPrefixOf_iff_prefix.1 hprefix)
      have hhex' : hexValue c = none := hhex
      rw [hhex'] at hb
      exact nomatch hb
    rw [dropFront, hnone]

theorem hexText_ne_nil (n : Nat) : hexText n ≠ [] := fun hnil => Nat.toDigits_ne_nil (map_eq_nil_iff.1 hnil)

theorem trimSpace_hexText (n : Nat) : trimSpace (hexText n) = hexText n := by
  have hdigits := (hexText_spec n).2
  have hne := hexText_ne_nil n
  generalize hexText n = s at hdigits hne
  obtain ⟨b, s', rfl⟩ := exists_cons_of_ne_nil hne
  obtain ⟨c, t, ht⟩ := exists_cons_of_ne_nil (reverse_ne_nil_iff.2 hne)
  have hc : c ∈ b :: s' := mem_reverse.1 (ht ▸ mem_cons_self)
  rw [trimSpace, dropFront_of_hex (by decide) (hdigits b mem_cons_self)]
  simp only [ht]
  rw [dropFront_of_hex (by decide) (hdigits c hc), ← ht, reverse_reverse]

theorem not_mem_hexText {b : UInt8} (hb : hexValue b = none) (n : Nat) : b ∉ hexText n := fun hmem => by
  have hsome := (hexText_spec n).2 b hmem
  rw [hb] at hsome
  cases hsome

/-- What `TrimRight` leaves of a size line. -/
theorem trimRight_sizeLine (n : Nat) (ext : Extension) :
    trimRight (sizeLine n ext) = hexText n ++ trimRight (ext.bytes ++ [13, 10]) := by
  rw [sizeLine, append_assoc]
  rcases eq_nil_or_concat' (hexText n) with hnil | ⟨front, b, hlast⟩
  · rw [hnil, nil_append, nil_append]
  · have hmem : b ∈ hexText n := hlast ▸ mem_concat_self
    have hkept : decide (b = 13 ∨ b = 10) = false := decide_eq_false (by
      rintro (rfl | rfl)
      · exact not_mem_hexText rfl n hmem
      · exact not_mem_hexText rfl n hmem)
    rw [hlast]
    exact rdropWhile_append_of_last hkept _

/-- The size of a line is read back, whatever the extension. -/
theorem sizeOf_sizeLine {n : Nat} (hn : n < 2 ^ 63) (ext : Extension) : sizeOf (sizeLine n ext) = some (n : Int) := by
  have hdigits : ∀ b ∈ hexText n, decide (b ≠ 59) = true := fun b hb =>
    decide_eq_true fun heq => not_mem_hexText rfl n (heq ▸ hb)
  have hext : (trimRight (ext.bytes ++ [13, 10])).takeWhile (· ≠ 59) = [] := by
    have hsemi := ext.semicolon
    cases hbytes : ext.bytes with
    | nil => decide
    | cons b bytes =>
      obtain rfl : b = 59 := hsemi b (by rw [hbytes]; rfl)
      have hkept : trimRight ([] ++ [59] ++ (bytes ++ [13, 10])) = _ := rdropWhile_append_of_last (by decide) _
      exact congrArg (takeWhile _) hkept
  have hcut : cutExtension (trimRight (sizeLine n ext)) = hexText n := by
    rw [trimRight_sizeLine, cutExtension, takeWhile_append_of_pos hdigits, hext, append_nil]
  have hhead : ∀ b, hexValue b = none → (hexText n).head? ≠ some b := fun b hb heq =>
    not_mem_hexText hb n (mem_of_head? heq)
  rw [sizeOf, hcut, trimSpace_hexText, parseInt, if_neg (not_or.2 ⟨hhead 45 rfl, hhead 43 rfl⟩)]
  simp only [if_neg (hexText_ne_nil n), (hexText_spec n).1, if_neg (hhead 45 rfl), if_pos hn]

theorem readString_sizeLine (n : Nat) (ext : Extension) (rest : List UInt8) :
    readString (sizeLine n ext ++ rest) = some (sizeLine n ext, rest) := by
  have hline : 10 ∉ hexText n ++ ext.bytes ++ [13] := by
    simp only [mem_append, mem_singleton]
    rintro ((hmem | hmem) | heq)
    · exact not_mem_hexText rfl n hmem
    · exact ext.oneLine hmem
    · exact absurd heq (by decide)
  have hsplit : sizeLine n ext = hexText n ++ ext.bytes ++ [13] ++ [10] := by
    rw [sizeLine, append_assoc _ [13] [10]]
    rfl
  rw [hsplit, append_assoc _ [10] rest]
  exact (readString_line hline rest).1

theorem skipLine_crlf (rest : List UInt8) : skipLine ([13, 10] ++ rest) = rest :=
  (@readString_line [13] (by decide) rest).2

/-- One round of the loop. -/
theorem decodeLoop_of_size (hread : readString r = some (line, rest)) (hsize : sizeOf line = some n) :
    decodeLoop g r out = if n = 0 then .ok (out, skipLine rest) else if n < 0 ∨ g.maxAlloc < n then .error .panic
      else if rest.length < n.toNat then .error .readChunk
      else decodeLoop g (skipLine (rest.drop n.toNat)) (out ++ rest.take n.toNat) := by
  rw [decodeLoop]
  split
  · next hnone => exact nomatch hnone.symm.trans hread
  · next hsome =>
    cases hsome.symm.trans hread
    rw [hsize]

theorem decodeLoop_encode (chunks : List (Chunk g)) (last : Extension) (rest out : List UInt8) :
    decodeLoop g (encode chunks last ++ rest) out = .ok (out ++ chunks.flatMap Chunk.data, rest) := by
  induction chunks generalizing out with
  | nil =>
    have hsplit : encode ([] : List (Chunk g)) last ++ rest = sizeLine 0 last ++ ([13, 10] ++ rest) := by
      rw [encode, flatMap_nil, nil_append, append_assoc]
    rw [hsplit, decodeLoop_of_size (readString_sizeLine 0 last _) (sizeOf_sizeLine (by decide) last),
      if_pos Int.natCast_zero, skipLine_crlf, flatMap_nil, append_nil]
  | cons c chunks ih =>
    have hlt := Nat.lt_of_le_of_lt c.allocated g.representable
    have hpos := length_pos_iff.2 c.nonempty
    have hmax := c.allocated
    have hsplit : encode (c :: chunks) last ++ rest =
        sizeLine c.data.length c.ext ++ (c.data ++ ([13, 10] ++ (encode chunks last ++ rest))) := by
      simp only [encode, flatMap_cons, Chunk.bytes, append_assoc]
    rw [hsplit, decodeLoop_of_size (readString_sizeLine _ c.ext _) (sizeOf_sizeLine hlt c.ext), if_neg (by omega),
      if_neg (by omega), Int.toNat_natCast, if_neg (by rw [length_append]; omega), drop_left, take_left, skipLine_crlf, ih,
      flatMap_cons, append_assoc]

/-- What `writeResponseV1` writes is one chunk, or none. -/
theorem decodeChunked_writeBody {body : List UInt8} (hbody : body.length ≤ g.maxAlloc) (rest : List UInt8) :
    decodeChunked g (writeBody body ++ rest) = .ok (body, rest) := by
  let none : Extension := ⟨[], nofun, nofun⟩
  have hzero : hexText 0 = [48] := rfl
  rw [writeBody]
  split
  · next hpos =>
    have hchunk := decodeLoop_encode [(⟨body, none, length_pos_iff.1 hpos, hbody⟩ : Chunk g)] none rest []
    simp only [encode, flatMap_singleton, Chunk.bytes, sizeLine, hzero, none, append_assoc, nil_append] at hchunk
    simp only [append_assoc, decodeChunked]
    exact hchunk
  · next hnil =>
    obtain rfl := length_eq_zero_iff.1 (Nat.eq_zero_of_not_pos hnil)
    exact decodeLoop_encode ([] : List (Chunk g)) none rest []

/-- **When chunked decoding is lossless and safe**: what is sent is always decoded, up to the byte behind it, and a
stream does not panic exactly when the sizes on it can be allocated. -/
theorem chunked_iff (g : Runtime) : (∀ (body : { body : List UInt8 // body.length ≤ g.maxAlloc }) (rest : List UInt8),
      decodeChunked g (writeBody body ++ rest) = .ok (body, rest)) ∧
    (∀ (chunks : List (Chunk g)) (last : Extension) (rest : List UInt8),
      decodeChunked g (encode chunks last ++ rest) = .ok (chunks.flatMap Chunk.data, rest)) ∧
    ∀ r, decodeChunked g r ≠ .error .panic ↔ Allocatable g r :=
  ⟨fun body => decodeChunked_writeBody body.2, fun chunks last rest => decodeLoop_encode chunks last rest [],
    fun r => decodeLoop_safe_iff r []⟩

/-- **A chunk of -1 bytes and one of more than can be allocated panic.** -/
theorem negative_size_panics : decodeChunked ⟨2 ^ 48, by decide⟩ [45, 49, 13, 10] = .error .panic ∧
    decodeChunked ⟨2 ^ 48, by decide⟩ [55, 102, 102, 102, 102, 102, 102, 102, 102, 102, 102, 102, 102, 102, 102, 102, 13,
      10] = .error .panic :=
  ⟨decodeLoop_of_size rfl (show sizeOf _ = some (-1) by decide),
    decodeLoop_of_size rfl (show sizeOf _ = some (2 ^ 63 - 1) by decide)⟩

end SystemDesignLabs.HttpServer
