import SystemDesignLabs.KvCache.RespParser

/-!
# Framing of RESP commands

`encodeCommand` is a command as an array of bulk strings. The parser reads it back, whatever follows it
(`parseCommand_encodeCommand`); on a part of it the parser asks for more, since its decisions are final. So a pipeline
is read command by command.
-/

namespace SystemDesignLabs.KvCache

open List Core

/-- A number in decimal with the end of its line. -/
def header (n : Nat) : List UInt8 := utf8Bytes n.repr ++ [13, 10]

/-- The bytes of a bulk string. -/
def bulkBytes (s : String) : List UInt8 := 36 :: (header (utf8Bytes s).length ++ (utf8Bytes s ++ [13, 10]))

def encodeCommand (args : List String) : List UInt8 := 42 :: (header args.length ++ args.flatMap bulkBytes)

/-- What a `Vec<String>` can hold: no more strings than fit in its capacity, each of at most `isize::MAX` bytes. -/
structure Holdable (args : List String) : Prop where
  count : args.length ≤ maxCapacity
  lengths : ∀ s ∈ args, (utf8Bytes s).length < 2 ^ 63

/-! ### Headers -/

theorem crlfPosition_append {line : List UInt8} (h : 13 ∉ line) (rest : List UInt8) :
    crlfPosition (line ++ 13 :: 10 :: rest) = some line.length := by
  induction line with
  | nil => rfl
  | cons b line ih =>
    rw [mem_cons, not_or] at h
    obtain ⟨hb, hline⟩ := h
    have hno : ¬ (b = 13 ∧ (line ++ 13 :: 10 :: rest).head? = some 10) := fun hboth => hb hboth.1.symm
    rw [cons_append, crlfPosition, if_neg hno, ih hline]
    rfl

theorem cr_notMem_repr (n : Nat) : 13 ∉ utf8Bytes n.repr := by
  intro h
  rw [utf8Bytes_eq_flatMap, Nat.toList_repr] at h
  obtain ⟨c, hc, hbyte⟩ := mem_flatMap.1 h
  have hcode := eq_of_mem_utf8EncodeChar hbyte (by decide)
  have hdigit := toNat_of_mem_toDigits hc
  have h13 : (13 : UInt8).toNat = 13 := rfl
  omega

/-- A header is read as its line. -/
theorem readLine_header (front : List UInt8) (n : Nat) (rest : List UInt8) :
    readLine (front ++ (header n ++ rest)) front.length = some (n.repr, front.length + (header n).length) := by
  have hline : header n ++ rest = utf8Bytes n.repr ++ 13 :: 10 :: rest := by
    rw [header, append_assoc]
    rfl
  rw [readLine, drop_left, hline, crlfPosition_append (cr_notMem_repr n)]
  dsimp only
  rw [take_left, fromUtf8_utf8Bytes, Option.map_some, header, length_append]
  rfl

theorem parseI64_repr {n : Nat} (h : n < 2 ^ 63) : parseI64 n.repr = some (n : Int) := by
  have hvalue : digitsValue (Nat.toDigits 10 n) = some n := by
    have hall : (Nat.toDigits 10 n).all Char.isDigit = true := all_eq_true.2 fun c hc => isDigit_of_mem_toDigits hc
    rw [digitsValue, if_pos ⟨Nat.toDigits_ne_nil, hall⟩, Nat.ofDigitChars_ten_toDigits]
  have hrange : -2 ^ 63 ≤ (n : Int) ∧ (n : Int) < 2 ^ 63 := by omega
  rw [parseI64, Nat.toList_repr]
  -- the first character is a digit, not a sign
  cases hdigits : Nat.toDigits 10 n with
  | nil => exact absurd hdigits Nat.toDigits_ne_nil
  | cons c cs =>
    have hc : c.isDigit = true := isDigit_of_mem_toDigits (hdigits ▸ mem_cons_self)
    rw [hdigits] at hvalue
    split
    · next heq => exact absurd ((cons.inj heq).1 ▸ hc) (by decide)
    · next heq => exact absurd ((cons.inj heq).1 ▸ hc) (by decide)
    · rw [hvalue]
      exact Option.filter_eq_some_iff.2 ⟨rfl, decide_eq_true hrange⟩

/-! ### Commands -/

theorem parseArgs_bulkBytes {s : String} (hs : (utf8Bytes s).length < 2 ^ 63) (front rest : List UInt8) (n : Nat)
    (args : List String) : parseArgs (front ++ (bulkBytes s ++ rest)) (n + 1) front.length args =
      parseArgs ((front ++ bulkBytes s) ++ rest) n (front ++ bulkBytes s).length (args ++ [s]) := by
  have hbuf : front ++ (bulkBytes s ++ rest) =
      (front ++ [36]) ++ (header (utf8Bytes s).length ++ ((utf8Bytes s ++ [13, 10]) ++ rest)) := by
    simp [bulkBytes]
  have hbuf' : front ++ (bulkBytes s ++ rest) =
      ((front ++ [36]) ++ header (utf8Bytes s).length) ++ (utf8Bytes s ++ ([13, 10] ++ rest)) := by
    simp [bulkBytes]
  have hdollar : (front ++ (bulkBytes s ++ rest))[front.length]? = some 36 := by
    rw [getElem?_append_right (Nat.le_refl _), Nat.sub_self]
    rfl
  have hline : readLine (front ++ (bulkBytes s ++ rest)) (front.length + 1) =
      some ((utf8Bytes s).length.repr, ((front ++ [36]) ++ header (utf8Bytes s).length).length) := by
    have h := readLine_header (front ++ [36]) (utf8Bytes s).length ((utf8Bytes s ++ [13, 10]) ++ rest)
    rw [← hbuf, length_append, length_singleton] at h
    rw [h, length_append, length_append, length_singleton]
  have hlength : ((front ++ [36]) ++ header (utf8Bytes s).length).length + (utf8Bytes s).length + 2 =
      (front ++ bulkBytes s).length := by
    simp only [bulkBytes, length_append, length_cons, length_nil]
    omega
  have hbytes : ((front ++ (bulkBytes s ++ rest)).take
      (((front ++ [36]) ++ header (utf8Bytes s).length).length + (utf8Bytes s).length)).drop
        ((front ++ [36]) ++ header (utf8Bytes s).length).length = utf8Bytes s := by
    rw [hbuf', take_length_add_append, drop_left, take_left]
  have hlong : ¬ (front ++ (bulkBytes s ++ rest)).length <
      ((front ++ [36]) ++ header (utf8Bytes s).length).length + (utf8Bytes s).length + 2 := by
    rw [hlength, ← append_assoc, length_append]
    omega
  rw [parseArgs, hdollar]
  dsimp only
  rw [if_pos rfl, hline]
  dsimp only
  rw [parseI64_repr hs]
  dsimp only
  rw [if_neg (by omega), Int.toNat_natCast, if_neg hlong, hbytes, fromUtf8_utf8Bytes]
  dsimp only
  rw [hlength, append_assoc]

theorem parseArgs_encoded {args : List String} (h : ∀ s ∈ args, (utf8Bytes s).length < 2 ^ 63)
    (front rest : List UInt8) (acc : List String) :
    parseArgs (front ++ (args.flatMap bulkBytes ++ rest)) args.length front.length acc =
      .complete (acc ++ args) (front.length + (args.flatMap bulkBytes).length) := by
  induction args generalizing front acc with
  | nil =>
    rw [append_nil]
    rfl
  | cons s args ih =>
    obtain ⟨hs, hargs⟩ := forall_mem_cons.1 h
    rw [flatMap_cons, append_assoc, length_cons, parseArgs_bulkBytes hs, ih hargs, length_append,
      length_append, Nat.add_assoc, append_assoc]
    rfl

theorem parseCommand_encodeCommand {args : List String} (h : Holdable args) (rest : List UInt8) :
    parseCommand (encodeCommand args ++ rest) = .complete args (encodeCommand args).length := by
  have hlt : args.length < 2 ^ 63 := Nat.lt_of_le_of_lt h.count (by decide)
  have hbuf : encodeCommand args ++ rest = [42] ++ (header args.length ++ (args.flatMap bulkBytes ++ rest)) := by
    simp [encodeCommand]
  have hargs := parseArgs_encoded h.lengths ([42] ++ header args.length) rest []
  have hline := readLine_header [42] args.length (args.flatMap bulkBytes ++ rest)
  have hone : ([42] : List UInt8).length = 1 := rfl
  rw [← hbuf, hone] at hline
  rw [append_assoc, ← hbuf, nil_append] at hargs
  show parseArray (encodeCommand args ++ rest) = _
  rw [parseArray, hline]
  dsimp only
  rw [parseI64_repr hlt]
  dsimp only
  rw [if_neg (by omega), Int.toNat_natCast, if_neg (Nat.not_lt.2 h.count)]
  rw [length_append, hone] at hargs
  rw [hargs, encodeCommand, length_cons, length_append]
  congr 1
  omega

/-- **Commands are framed.** A command is read from its encoding, on every proper front of it the parser asks for more,
and a pipeline of commands is read one by one. -/
theorem commands_framed {cmds : List (List String)} (h : ∀ args ∈ cmds, Holdable args) (rest : List UInt8) :
    (∀ args ∈ cmds, parseCommand (encodeCommand args ++ rest) = .complete args (encodeCommand args).length ∧
      ∀ front, front <+: encodeCommand args → front ≠ encodeCommand args → parseCommand front = .incomplete) ∧
    ((∀ args n, parseCommand rest ≠ .complete args n) →
      Items parseCommand (cmds.flatMap encodeCommand ++ rest) cmds rest) := by
  refine ⟨fun args hargs => ⟨parseCommand_encodeCommand (h args hargs) rest, fun front hfront hne => ?_⟩, fun hrest => ?_⟩
  · obtain ⟨missing, hmissing⟩ := hfront
    by_contra hdecided
    have hstable := parseCommand_incremental.stable hdecided missing
    have hwhole := parseCommand_encodeCommand (h args hargs) []
    rw [append_nil] at hwhole
    rw [hmissing, hwhole] at hstable
    have hlen := (parseCommand_incremental.consumes _ _ _ hstable.symm).2
    rw [← hmissing, length_append] at hlen
    have hnil : missing = [] := eq_nil_of_length_eq_zero (by omega)
    exact hne (by rw [← hmissing, hnil, append_nil])
  · induction cmds with
    | nil => exact .stop hrest
    | cons args cmds ih =>
      obtain ⟨hargs, hcmds⟩ := forall_mem_cons.1 h
      rw [flatMap_cons, append_assoc]
      refine .item (parseCommand_encodeCommand hargs _) ?_
      rw [drop_left]
      exact ih hcmds

/-- The commands `GET k` and `*`, the second one with an argument of a line break. -/
theorem commands_framed_two : Items parseCommand ([["GET", "k"], ["*", "\r\n"]].flatMap encodeCommand ++ [])
    [["GET", "k"], ["*", "\r\n"]] [] := by
  refine (commands_framed ?_ []).2 nofun
  simp only [forall_mem_cons]
  refine ⟨⟨by decide, ?_⟩, ⟨by decide, ?_⟩, nofun⟩ <;> decide

end SystemDesignLabs.KvCache
