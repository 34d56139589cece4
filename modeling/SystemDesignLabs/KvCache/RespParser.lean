import SystemDesignLabs.KvCache.Resp

/-!
# The RESP parser decides incrementally

A line ends at the first `\r\n` of the buffer, a bulk string where its length says: what follows does not
matter (`parseCommand_incremental`). Without `\r\n` the parser asks for more.
-/

namespace SystemDesignLabs.KvCache

open Core

section Lines

variable {buf buf' : List UInt8}

theorem crlfPosition_of_prefix {pos : Nat} (h : crlfPosition buf = some pos) :
    pos + 2 ≤ buf.length ∧ ∀ buf', buf.take (pos + 2) <+: buf' → crlfPosition buf' = some pos := by
  induction buf generalizing pos with
  | nil => cases h
  | cons b rest ih =>
    rw [crlfPosition] at h
    split at h
    · rename_i hb
      cases h
      obtain ⟨rest, rfl⟩ := List.head?_eq_some_iff.1 hb.2
      refine ⟨by rw [List.length_cons, List.length_cons]; omega, ?_⟩
      rintro _ ⟨t, rfl⟩
      exact if_pos ⟨hb.1, rfl⟩
    · rename_i hb
      obtain ⟨pos, hpos, rfl⟩ := Option.map_eq_some_iff.1 h
      obtain ⟨hlen, hfound⟩ := ih hpos
      refine ⟨by rw [List.length_cons]; omega, ?_⟩
      rintro _ ⟨t, rfl⟩
      have hrest : (rest.take (pos + 2) ++ t).head? = rest.head? := by
        cases rest with
        | nil => cases hpos
        | cons b' rest => rfl
      rw [show pos + 1 + 2 = pos + 2 + 1 from rfl, List.take_succ_cons, List.cons_append,
        crlfPosition, hrest, if_neg hb, hfound _ (List.prefix_append _ _)]
      rfl

theorem exists_of_crlfPosition {pos : Nat} (h : crlfPosition buf = some pos) :
    ∃ front back, buf = front ++ 13 :: 10 :: back ∧ front.length = pos := by
  induction buf generalizing pos with
  | nil => cases h
  | cons b rest ih =>
    rw [crlfPosition] at h
    split at h
    · rename_i hb
      cases h
      obtain ⟨rest, rfl⟩ := List.head?_eq_some_iff.1 hb.2
      exact ⟨[], rest, by rw [hb.1]; rfl, rfl⟩
    · obtain ⟨pos, hpos, rfl⟩ := Option.map_eq_some_iff.1 h
      obtain ⟨front, back, rfl, rfl⟩ := ih hpos
      exact ⟨b :: front, back, rfl, rfl⟩

theorem readLine_of_prefix {start : Nat} {line : String × Nat} (hstart : start ≤ buf.length)
    (h : readLine buf start = some line) : start + 2 ≤ line.2 ∧ line.2 ≤ buf.length ∧
      ∀ buf', buf.take line.2 <+: buf' → readLine buf' start = some line := by
  rw [readLine] at h
  split at h
  · cases h
  · rename_i pos hpos
    obtain ⟨hlen, hfound⟩ := crlfPosition_of_prefix hpos
    obtain ⟨text, htext, rfl⟩ := Option.map_eq_some_iff.1 h
    rw [List.length_drop] at hlen
    dsimp only
    refine ⟨by omega, by omega, ?_⟩
    rintro _ ⟨t, rfl⟩
    have hdrop : (buf.take (start + pos + 2) ++ t).drop start
        = (buf.drop start).take (pos + 2) ++ t := by
      rw [List.drop_append_of_le_length (by rw [List.length_take]; omega), List.drop_take]
      congr 2
      omega
    have htake : ((buf.drop start).take (pos + 2) ++ t).take pos = (buf.drop start).take pos := by
      rw [List.take_append_of_le_length (by rw [List.length_take, List.length_drop]; omega),
        List.take_take, Nat.min_eq_left (by omega)]
    rw [readLine, hdrop, hfound _ (List.prefix_append _ _)]
    dsimp only
    rw [htake, htext]
    rfl

theorem crlfPosition_drop (h : crlfPosition buf = none) (k : Nat) : crlfPosition (buf.drop k) = none := by
  induction k generalizing buf with
  | zero => exact h
  | succ k ih =>
    cases buf with
    | nil => exact h
    | cons b rest =>
      rw [List.drop_succ_cons]
      rw [crlfPosition] at h
      split at h
      · cases h
      · exact ih (Option.map_eq_none_iff.1 h)

theorem readLine_eq_none (h : crlfPosition buf = none) (start : Nat) : readLine buf start = none := by
  rw [readLine]
  rw [crlfPosition_drop h]

end Lines

section Arguments

variable {buf : List UInt8} {n pos : Nat} {args : List String}

/-- What `parseArgs` does with the next argument: it asks for more, or fails whatever follows, or goes on
behind the argument in any buffer that goes up to its end. -/
theorem parseArgs_step : parseArgs buf (n + 1) pos args = .incomplete ∨
    (∃ e, ∀ t, parseArgs (buf ++ t) (n + 1) pos args = .error e) ∨
    ∃ pos' s, pos < pos' ∧ pos' ≤ buf.length ∧ ∀ buf', buf.take pos' <+: buf' →
      parseArgs buf' (n + 1) pos args = parseArgs buf' n pos' (args ++ [s]) := by
  cases hb : buf[pos]? with
  | none =>
    left
    rw [parseArgs, hb]
  | some b =>
    have hlt := (List.getElem?_eq_some_iff.1 hb).1
    have hget : ∀ t, (buf ++ t)[pos]? = some b := fun t => by
      rw [List.getElem?_append_left hlt, hb]
    have hgetTake : ∀ (pos' : Nat) (t : List UInt8), pos < pos' →
        (buf.take pos' ++ t)[pos]? = some b := fun pos' t hpos' => by
      rw [List.getElem?_append_left (by rw [List.length_take]; omega),
        List.getElem?_take_of_lt hpos', hb]
    by_cases hdollar : b = 36
    · cases hline : readLine buf (pos + 1) with
      | none =>
        left
        simp only [parseArgs, hb, if_pos hdollar, hline]
      | some line =>
        obtain ⟨lenStr, afterDollar⟩ := line
        obtain ⟨hafter, hafterLe, hread⟩ := readLine_of_prefix hlt hline
        dsimp only at hafter hafterLe hread
        have hlines : ∀ t, readLine (buf ++ t) (pos + 1) = some (lenStr, afterDollar) := fun t =>
          hread _ ((List.take_prefix _ _).trans (List.prefix_append _ _))
        cases hlen : parseI64 lenStr with
        | none =>
          right
          left
          refine ⟨.message ("invalid bulk length '" ++ lenStr ++ "'"), fun t => ?_⟩
          simp only [parseArgs, hget, if_pos hdollar, hlines, hlen]
        | some len =>
          by_cases hneg : len < 0
          · right
            right
            refine ⟨afterDollar, "", by omega, hafterLe, ?_⟩
            rintro _ ⟨t, rfl⟩
            simp only [parseArgs, hgetTake afterDollar t (by omega), if_pos hdollar,
              hread _ (List.prefix_append _ t), hlen, if_pos hneg]
          · by_cases hshort : buf.length < afterDollar + len.toNat + 2
            · left
              simp only [parseArgs, hb, if_pos hdollar, hline, hlen, if_neg hneg, if_pos hshort]
            · -- the argument is there, and what follows it is not looked at
              right
              cases hs : fromUtf8 ((buf.take (afterDollar + len.toNat)).drop afterDollar) with
              | none =>
                left
                refine ⟨.message "non-UTF8 argument", fun t => ?_⟩
                have hlong : ¬ (buf ++ t).length < afterDollar + len.toNat + 2 := by
                  rw [List.length_append]
                  omega
                have htake : (buf ++ t).take (afterDollar + len.toNat)
                    = buf.take (afterDollar + len.toNat) :=
                  List.take_append_of_le_length (by omega)
                simp only [parseArgs, hget, if_pos hdollar, hlines, hlen, if_neg hneg, if_neg hlong, htake, hs]
              | some s =>
                right
                refine ⟨afterDollar + len.toNat + 2, s, by omega, by omega, ?_⟩
                rintro _ ⟨t, rfl⟩
                have hlong : ¬ (buf.take (afterDollar + len.toNat + 2) ++ t).length
                    < afterDollar + len.toNat + 2 := by
                  rw [List.length_append, List.length_take]
                  omega
                have htake : (buf.take (afterDollar + len.toNat + 2) ++ t).take
                    (afterDollar + len.toNat) = buf.take (afterDollar + len.toNat) := by
                  rw [List.take_append_of_le_length (by rw [List.length_take]; omega),
                    List.take_take, Nat.min_eq_left (by omega)]
                have hprefix : buf.take afterDollar
                    <+: buf.take (afterDollar + len.toNat + 2) ++ t :=
                  (List.take_prefix_take_left (by omega)).trans (List.prefix_append _ _)
                simp only [parseArgs, hgetTake (afterDollar + len.toNat + 2) t (by omega),
                  if_pos hdollar, hread _ hprefix, hlen, if_neg hneg, if_neg hlong, htake, hs]
    · right
      left
      refine ⟨.message "expected bulk string in array", fun t => ?_⟩
      simp only [parseArgs, hget, if_neg hdollar]

theorem parseArgs_failure {e : ParseError} (h : parseArgs buf n pos args = .error e)
    (more : List UInt8) : parseArgs (buf ++ more) n pos args = .error e := by
  induction n generalizing pos args with
  | zero => cases h
  | succ n ih =>
    rcases @parseArgs_step buf n pos args with hnone | ⟨e', he⟩ | ⟨pos', s, -, -, hgo⟩
    · rw [hnone] at h
      cases h
    · have hself := he []
      rw [List.append_nil, h] at hself
      rw [he, hself]
    · rw [hgo _ (List.take_prefix _ _)] at h
      rw [hgo _ ((List.take_prefix _ _).trans (List.prefix_append _ _)), ih h]

theorem parseArgs_of_prefix (hpos : pos ≤ buf.length) {as : List String} {m : Nat}
    (h : parseArgs buf n pos args = .complete as m) : pos ≤ m ∧ m ≤ buf.length ∧
      ∀ buf', buf.take m <+: buf' → parseArgs buf' n pos args = .complete as m := by
  induction n generalizing pos args with
  | zero =>
    rw [parseArgs] at h
    cases h
    exact ⟨le_refl _, hpos, fun _ _ => rfl⟩
  | succ n ih =>
    rcases @parseArgs_step buf n pos args with hnone | ⟨e, he⟩ | ⟨pos', s, hlt, hpos', hgo⟩
    · rw [hnone] at h
      cases h
    · have hself := he []
      rw [List.append_nil, h] at hself
      cases hself
    · rw [hgo _ (List.take_prefix _ _)] at h
      obtain ⟨hle, hlen, hrest⟩ := ih hpos' h
      refine ⟨by omega, hlen, fun buf' hbuf' => ?_⟩
      rw [hgo _ ((List.take_prefix_take_left hle).trans hbuf'), hrest _ hbuf']

end Arguments

section Commands

variable {buf : List UInt8}

theorem parseArray_failure (hne : buf ≠ []) {e : ParseError} (h : parseArray buf = .error e)
    (more : List UInt8) : parseArray (buf ++ more) = .error e := by
  rw [parseArray] at h
  split at h
  · cases h
  · rename_i countStr afterStar hline
    obtain ⟨-, -, hread⟩ := readLine_of_prefix (List.length_pos_of_ne_nil hne) hline
    rw [parseArray, hread _ ((List.take_prefix _ _).trans (List.prefix_append _ _))]
    dsimp only
    split at h
    · exact h
    · split at h
      · cases h
      · rename_i hneg
        rw [if_neg hneg]
        split at h
        · rename_i hlarge
          rw [if_pos hlarge]
          exact h
        · rename_i hfits
          rw [if_neg hfits]
          exact parseArgs_failure h more

theorem parseArray_of_prefix (hne : buf ≠ []) {as : List String} {m : Nat}
    (h : parseArray buf = .complete as m) : 0 < m ∧ m ≤ buf.length ∧
      ∀ buf', buf.take m <+: buf' → parseArray buf' = .complete as m := by
  rw [parseArray] at h
  split at h
  · cases h
  · rename_i countStr afterStar hline
    obtain ⟨hlt, hle, hread⟩ := readLine_of_prefix (List.length_pos_of_ne_nil hne) hline
    dsimp only at hlt hle hread
    split at h
    · cases h
    · rename_i count hcount
      split at h
      · rename_i hneg
        cases h
        refine ⟨by omega, hle, fun buf' hbuf' => ?_⟩
        rw [parseArray, hread _ hbuf']
        dsimp only
        rw [hcount]
        exact if_pos hneg
      · rename_i hneg
        split at h
        · cases h
        · rename_i hfits
          obtain ⟨hm, hlen, hargs⟩ := parseArgs_of_prefix hle h
          refine ⟨by omega, hlen, fun buf' hbuf' => ?_⟩
          rw [parseArray, hread _ ((List.take_prefix_take_left hm).trans hbuf')]
          dsimp only
          rw [hcount]
          dsimp only
          rw [if_neg hneg, if_neg hfits, hargs _ hbuf']

theorem parseInline_of_prefix {as : List String} {m : Nat} (h : parseInline buf = .complete as m) :
    0 < m ∧ m ≤ buf.length ∧ ∀ buf', buf.take m <+: buf' → parseInline buf' = .complete as m := by
  rw [parseInline] at h
  split at h
  · cases h
  · rename_i line consumed hline
    cases h
    obtain ⟨hlt, hle, hread⟩ := readLine_of_prefix (Nat.zero_le _) hline
    refine ⟨by omega, hle, fun buf' hbuf' => ?_⟩
    rw [parseInline, hread _ hbuf']

theorem parseInline_ne_error (e : ParseError) : parseInline buf ≠ .error e := by
  rw [parseInline]
  split
  · exact nofun
  · exact nofun

theorem parseCommand_cons (b : UInt8) (rest : List UInt8) : parseCommand (b :: rest)
    = if b = 42 then parseArray (b :: rest) else parseInline (b :: rest) := rfl

/-- The parser decides incrementally. -/
theorem parseCommand_incremental : Incremental parseCommand where
  nil := rfl
  consumes := by
    intro s a n h
    cases s with
    | nil => cases h
    | cons b rest =>
      rw [parseCommand_cons] at h
      split at h
      · obtain ⟨hpos, hle, -⟩ := parseArray_of_prefix (List.cons_ne_nil _ _) h
        exact ⟨hpos, hle⟩
      · obtain ⟨hpos, hle, -⟩ := parseInline_of_prefix h
        exact ⟨hpos, hle⟩
  item := by
    intro s a n h s' hs'
    cases s with
    | nil => cases h
    | cons b rest =>
      -- the buffer has the same first byte
      have hcons : 0 < n → ∃ rest', s' = b :: rest' := by
        intro hpos
        obtain ⟨t, rfl⟩ := hs'
        obtain ⟨m, rfl⟩ := Nat.exists_eq_succ_of_ne_zero (Nat.ne_of_gt hpos)
        exact ⟨_, rfl⟩
      rw [parseCommand_cons] at h
      split at h
      · rename_i hb
        obtain ⟨hpos, -, hread⟩ := parseArray_of_prefix (List.cons_ne_nil _ _) h
        obtain ⟨rest', rfl⟩ := hcons hpos
        rw [parseCommand_cons, if_pos hb]
        exact hread _ hs'
      · rename_i hb
        obtain ⟨hpos, -, hread⟩ := parseInline_of_prefix h
        obtain ⟨rest', rfl⟩ := hcons hpos
        rw [parseCommand_cons, if_neg hb]
        exact hread _ hs'
  failure := by
    intro s e h t
    cases s with
    | nil => cases h
    | cons b rest =>
      rw [parseCommand_cons] at h
      split at h
      · rename_i hb
        rw [List.cons_append, parseCommand_cons, if_pos hb]
        exact parseArray_failure (List.cons_ne_nil _ _) h t
      · exact absurd h (parseInline_ne_error e)

theorem parseCommand_eq_incomplete (h : crlfPosition buf = none) : parseCommand buf = .incomplete := by
  cases buf with
  | nil => rfl
  | cons b rest =>
    rw [parseCommand]
    split
    · rw [parseArray, readLine_eq_none h]
    · rw [parseInline, readLine_eq_none h]

end Commands

end SystemDesignLabs.KvCache
