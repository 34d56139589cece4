import Mathlib

/-!
# Framed records

A framing writes each record as a nonempty string that can be read back from the front of any longer
string. A log is the concatenation of its frames. What a reader of frames sees in an arbitrary string
is a list of records and a rest that begins with no frame (`Splits`), and there is only one such
split. Everything about torn logs follows from that: appending to a string never changes the records in
front of it (`Splits.front`).
-/

namespace SystemDesignLabs.Core

open List

universe u v

/-- How records are written and read. `Valid` marks the records that the format can carry. -/
structure Framing (α : Type u) (β : Type v) where
  Valid : α → Prop
  encode : α → List β
  decode : List β → Option (α × List β)
  encode_ne_nil : ∀ a, encode a ≠ []
  decode_encode : ∀ a rest, Valid a → decode (encode a ++ rest) = some (a, rest)
  decode_sound : ∀ s a rest, decode s = some (a, rest) → Valid a ∧ s = encode a ++ rest

namespace Framing

variable {α : Type u} {β : Type v} (F : Framing α β)

/-- The log with the given records. -/
def encodeAll (as : List α) : List β := as.flatMap F.encode

@[simp] theorem encodeAll_nil : F.encodeAll [] = [] := rfl

@[simp] theorem encodeAll_cons (a : α) (as : List α) : F.encodeAll (a :: as) = F.encode a ++ F.encodeAll as := rfl

@[simp] theorem encodeAll_append (as bs : List α) : F.encodeAll (as ++ bs) = F.encodeAll as ++ F.encodeAll bs := by
  rw [encodeAll, flatMap_append]
  rfl

/-- The string `s` reads as the records `as`, and `rest` begins with no frame. -/
structure Splits (s : List β) (as : List α) (rest : List β) : Prop where
  eq : s = F.encodeAll as ++ rest
  valid : ∀ a ∈ as, F.Valid a
  stuck : F.decode rest = none

variable {F}

theorem Splits.nil {s : List β} (h : F.decode s = none) : F.Splits s [] s :=
  ⟨rfl, fun _ ha => absurd ha not_mem_nil, h⟩

theorem Splits.cons {s rest t : List β} {a : α} {as : List α} (h : F.decode s = some (a, t))
    (ht : F.Splits t as rest) : F.Splits s (a :: as) rest := by
  obtain ⟨ha, hs⟩ := F.decode_sound s a t h
  refine ⟨?_, ?_, ht.stuck⟩
  · rw [hs, ht.eq, encodeAll_cons, append_assoc]
  · exact forall_mem_cons.2 ⟨ha, ht.valid⟩

theorem decode_nil : F.decode [] = none := by
  cases h : F.decode [] with
  | none => rfl
  | some p =>
    have hs := (F.decode_sound [] p.1 p.2 h).2
    exact absurd (append_eq_nil_iff.1 hs.symm).1 (F.encode_ne_nil p.1)

theorem splits_encodeAll {as : List α} (h : ∀ a ∈ as, F.Valid a) : F.Splits (F.encodeAll as) as [] :=
  ⟨(append_nil _).symm, h, decode_nil⟩

/-- Frames in front of a string are what its reader sees first. -/
theorem Splits.front {s rest t : List β} {as cs : List α} (h : F.Splits s cs rest)
    (hv : ∀ a ∈ as, F.Valid a) (hs : s = F.encodeAll as ++ t) : as <+: cs := by
  induction as generalizing s cs with
  | nil => exact nil_prefix
  | cons a as ih =>
    obtain ⟨ha, hv⟩ := forall_mem_cons.1 hv
    rw [encodeAll_cons, append_assoc] at hs
    have hd : F.decode s = some (a, F.encodeAll as ++ t) := by
      rw [hs]
      exact F.decode_encode a _ ha
    cases cs with
    | nil =>
      have hrest : s = rest := h.eq
      rw [hrest, h.stuck] at hd
      exact absurd hd (by simp)
    | cons c cs =>
      have hc := forall_mem_cons.1 h.valid
      have hd' : F.decode s = some (c, F.encodeAll cs ++ rest) := by
        rw [h.eq, encodeAll_cons, append_assoc]
        exact F.decode_encode c _ hc.1
      rw [hd, Option.some.injEq, Prod.mk.injEq] at hd'
      obtain ⟨rfl, htail⟩ := hd'
      have hcs : F.Splits (F.encodeAll cs ++ rest) cs rest := ⟨rfl, hc.2, h.stuck⟩
      exact cons_prefix_cons.2 ⟨rfl, ih hcs hv htail.symm⟩

theorem Splits.unique {s rest rest' : List β} {as as' : List α} (h : F.Splits s as rest)
    (h' : F.Splits s as' rest') : as = as' ∧ rest = rest' := by
  have h1 := h'.front h.valid h.eq
  have h2 := h.front h'.valid h'.eq
  have has : as = as' := h1.eq_of_length_le h2.length_le
  subst has
  exact ⟨rfl, append_cancel_left (h.eq.symm.trans h'.eq)⟩

theorem exists_splits (s : List β) : ∃ as rest, F.Splits s as rest := by
  induction hn : s.length using Nat.strong_induction_on generalizing s with
  | _ n ih =>
    cases hd : F.decode s with
    | none => exact ⟨[], s, .nil hd⟩
    | some p =>
      obtain ⟨a, t⟩ := p
      have hs := (F.decode_sound s a t hd).2
      have hpos : 0 < (F.encode a).length := length_pos_of_ne_nil (F.encode_ne_nil a)
      have hlt : t.length < n := by
        rw [← hn, hs, length_append]
        omega
      obtain ⟨as, rest, has⟩ := ih t.length hlt t rfl
      exact ⟨a :: as, rest, .cons hd has⟩

end Framing

/-!
## Logs of self-delimiting records

A log is the concatenation of its records. `scanRecords` reads records from the front until one cannot be
decoded, and notes where each began. A decoder may read more strings than an encoder writes, so what is asked
of a `RecordFormat` is only that a written record is read back whatever follows, and that no proper front of
one is read. A log whose last record is torn is then read up to the torn record (`scanRecords_log`), every
front of a log is a log with a torn record again (`take_log`), and a record is found where it began
(`drop_log`).
-/

universe w

variable {α : Type u} {γ : Type v} {β : Type w}

/-! #### Reading -/

/-- Read records from position `pos` on, with the position of each: at most `fuel` records. A decoder gives what
it reads and how much of the string it takes. -/
def scanFrom (decode : List β → Option (γ × Nat)) : Nat → Nat → List β → List (γ × Nat)
  | 0, _, _ => []
  | _ + 1, _, [] => []
  | fuel + 1, pos, b :: bs =>
    match decode (b :: bs) with
    | some (r, consumed) => (r, pos) :: scanFrom decode fuel (pos + consumed) ((b :: bs).drop consumed)
    | none => []

/-- Read records from the front, until one cannot be decoded. -/
def scanRecords (decode : List β → Option (γ × Nat)) (s : List β) : List (γ × Nat) :=
  scanFrom decode s.length 0 s

/-! #### Writing -/

/-- The log of some records. -/
def logOf (encode : α → List β) (as : List α) : List β := as.flatMap encode

/-- The records, and where each begins. -/
def placed (encode : α → List β) : Nat → List α → List (α × Nat)
  | _, [] => []
  | pos, a :: as => (a, pos) :: placed encode (pos + (encode a).length) as

/-- The records that lie within the first `n` units of their log. -/
def wholeRecords (encode : α → List β) : Nat → List α → List α
  | _, [] => []
  | n, a :: as => if (encode a).length ≤ n then a :: wholeRecords encode (n - (encode a).length) as else []

variable {encode : α → List β}

@[simp] theorem logOf_nil : logOf encode [] = [] := rfl

@[simp] theorem logOf_cons (a : α) (as : List α) : logOf encode (a :: as) = encode a ++ logOf encode as := rfl

theorem logOf_append (as bs : List α) : logOf encode (as ++ bs) = logOf encode as ++ logOf encode bs :=
  flatMap_append

theorem placed_append (pos : Nat) (as bs : List α) : placed encode pos (as ++ bs) =
    placed encode pos as ++ placed encode (pos + (logOf encode as).length) bs := by
  induction as generalizing pos with
  | nil => rfl
  | cons a as ih =>
    rw [cons_append, placed, placed, ih, logOf_cons, length_append, Nat.add_assoc]
    rfl

@[simp] theorem map_fst_placed (pos : Nat) (as : List α) : (placed encode pos as).map Prod.fst = as := by
  induction as generalizing pos with
  | nil => rfl
  | cons a as ih => rw [placed, map_cons, ih]

variable {as : List α}

theorem exists_placed {a : α} (h : a ∈ as) (pos : Nat) : ∃ q, (a, q) ∈ placed encode pos as := by
  rw [← @map_fst_placed α β encode pos as] at h
  obtain ⟨⟨b, q⟩, hb, rfl⟩ := mem_map.1 h
  exact ⟨q, hb⟩

theorem mem_of_mem_placed {a : α} {pos q : Nat} (h : (a, q) ∈ placed encode pos as) : a ∈ as := by
  rw [← @map_fst_placed α β encode pos as]
  exact mem_map_of_mem h

theorem wholeRecords_front (n : Nat) (as : List α) : wholeRecords encode n as <+: as := by
  induction as generalizing n with
  | nil => exact nil_prefix
  | cons a as ih =>
    rw [wholeRecords]
    split
    · exact cons_prefix_cons.2 ⟨rfl, ih _⟩
    · exact nil_prefix

/-- A record is found where it began. -/
theorem drop_log {a : α} {pos q : Nat} (h : (a, q) ∈ placed encode pos as) (rest : List β) :
    pos ≤ q ∧ ∃ rest', (logOf encode as ++ rest).drop (q - pos) = encode a ++ rest' := by
  induction as generalizing pos with
  | nil => cases h
  | cons b as ih =>
    rw [logOf_cons, append_assoc]
    rcases mem_cons.1 h with heq | h
    · cases heq
      exact ⟨Nat.le_refl _, _, by rw [Nat.sub_self, drop_zero]⟩
    · obtain ⟨hle, rest', hdrop⟩ := ih h
      have hsplit : q - pos = (encode b).length + (q - (pos + (encode b).length)) := by omega
      refine ⟨by omega, rest', ?_⟩
      rw [hsplit, drop_length_add_append, hdrop]

/-! #### Offset tables -/

/-- Where the records begin. -/
def starts (encode : α → List β) (pos : Nat) (as : List α) : List Nat := (placed encode pos as).map Prod.snd

@[simp] theorem length_starts (pos : Nat) (as : List α) : (starts encode pos as).length = as.length := by
  rw [starts, length_map, ← length_map (f := Prod.fst), map_fst_placed]

theorem starts_append (pos : Nat) (as bs : List α) : starts encode pos (as ++ bs) =
    starts encode pos as ++ starts encode (pos + (logOf encode as).length) bs := by
  rw [starts, placed_append, map_append]
  rfl

theorem getElem?_starts {i : Nat} (h : i < as.length) (pos : Nat) :
    (starts encode pos as)[i]? = some (pos + (logOf encode (as.take i)).length) := by
  have hsplit : as = as.take i ++ as[i] :: as.drop (i + 1) := by simp
  have hlen : (starts encode pos (as.take i)).length = i := by
    rw [length_starts, length_take_of_le (Nat.le_of_lt h)]
  conv_lhs => rw [hsplit, starts_append, getElem?_append_right (Nat.le_of_eq hlen), hlen, Nat.sub_self]
  rfl

theorem nodup_starts (hne : ∀ a, encode a ≠ []) (pos : Nat) (as : List α) : (starts encode pos as).Nodup := by
  have habove : ∀ (as : List α) (pos : Nat), ∀ q ∈ starts encode pos as, pos ≤ q := by
    intro as
    induction as with
    | nil => exact fun pos q hq => absurd hq not_mem_nil
    | cons a as ih =>
      intro pos q hq
      rcases mem_cons.1 hq with rfl | hq
      · exact Nat.le_refl _
      · exact Nat.le_trans (Nat.le_add_right _ _) (ih _ q hq)
  induction as generalizing pos with
  | nil => exact nodup_nil
  | cons a as ih =>
    refine nodup_cons.2 ⟨fun hmem => ?_, ih _⟩
    have hpos := length_pos_iff.2 (hne a)
    have hle := habove as _ _ hmem
    omega

theorem slice_log {a : α} {i : Nat} (h : as[i]? = some a) (rest : List β) :
    (logOf encode as ++ rest).drop (logOf encode (as.take i)).length =
      encode a ++ (logOf encode (as.drop (i + 1)) ++ rest) := by
  obtain ⟨hi, rfl⟩ := List.getElem?_eq_some_iff.1 h
  have hsplit : as = as.take i ++ as[i] :: as.drop (i + 1) := by simp
  conv_lhs => rw [hsplit, logOf_append, logOf_cons]
  rw [take_append_of_le_length (by simp; omega), take_take, Nat.min_self, append_assoc, drop_left,
    append_assoc]

/-! #### Formats -/

/-- A format of records. `read a` is what a reader gets for `a`; `Valid` marks what the format can carry. -/
structure RecordFormat (α : Type u) (γ : Type v) (β : Type w) where
  Valid : α → Prop
  encode : α → List β
  decode : List β → Option (γ × Nat)
  read : α → γ
  encode_ne_nil : ∀ a, encode a ≠ []
  decode_encode : ∀ a rest, Valid a → decode (encode a ++ rest) = some (read a, (encode a).length)
  decode_front : ∀ a front, Valid a → front <+: encode a → front ≠ encode a → decode front = none

namespace RecordFormat

variable {F : RecordFormat α γ β}

/-- Nothing, or a proper front of a record. -/
def Torn (F : RecordFormat α γ β) (rest : List β) : Prop :=
  rest = [] ∨ ∃ a, F.Valid a ∧ rest <+: F.encode a ∧ rest ≠ F.encode a

variable {rest : List β}

/-- A log is read up to its torn record, each record with its position. -/
theorem scanFrom_log (hrest : F.Torn rest) (hv : ∀ a ∈ as, F.Valid a) (pos : Nat) {fuel : Nat}
    (h : (logOf F.encode as ++ rest).length ≤ fuel) : scanFrom F.decode fuel pos (logOf F.encode as ++ rest) =
      (placed F.encode pos as).map fun p => (F.read p.1, p.2) := by
  induction as generalizing pos fuel with
  | nil =>
    rw [logOf_nil, nil_append] at h ⊢
    cases fuel with
    | zero => rfl
    | succ fuel =>
      cases rest with
      | nil => rfl
      | cons b bs =>
        rcases hrest with hnil | ⟨a, ha, hfront, hne⟩
        · cases hnil
        · rw [scanFrom, F.decode_front a _ ha hfront hne]
          rfl
  | cons a as ih =>
    obtain ⟨ha, has⟩ := forall_mem_cons.1 hv
    rw [logOf_cons, append_assoc] at h ⊢
    have hread := F.decode_encode a (logOf F.encode as ++ rest) ha
    obtain ⟨b, bs, hb⟩ := exists_cons_of_ne_nil (F.encode_ne_nil a)
    rw [length_append] at h
    have hlen : (F.encode a).length = bs.length + 1 := by rw [hb, length_cons]
    cases fuel with
    | zero => omega
    | succ fuel =>
      have hcons : F.encode a ++ (logOf F.encode as ++ rest) = b :: (bs ++ (logOf F.encode as ++ rest)) := by
        rw [hb, cons_append]
      rw [hcons] at hread
      rw [hcons, scanFrom, hread, ← hcons]
      dsimp only
      rw [drop_left, ih has _ (by omega), placed, map_cons]

theorem scanRecords_log (hrest : F.Torn rest) (hv : ∀ a ∈ as, F.Valid a) :
    scanRecords F.decode (logOf F.encode as ++ rest) = (placed F.encode 0 as).map fun p => (F.read p.1, p.2) :=
  scanFrom_log hrest hv 0 (Nat.le_refl _)

/-- Every front of a log is a log with a torn record, of the records that lie within it. -/
theorem take_log (hrest : F.Torn rest) (hv : ∀ a ∈ as, F.Valid a) (n : Nat) :
    ∃ rest', F.Torn rest' ∧ (logOf F.encode as ++ rest).take n = logOf F.encode (wholeRecords F.encode n as) ++ rest' := by
  induction as generalizing n with
  | nil =>
    refine ⟨rest.take n, ?_, rfl⟩
    rcases hrest with rfl | ⟨a, ha, hfront, hne⟩
    · exact .inl take_nil
    · have hprefix := (List.take_prefix n rest).trans hfront
      refine .inr ⟨a, ha, hprefix, fun heq => hne ?_⟩
      have hlen := heq ▸ (List.take_prefix n rest).length_le
      exact hfront.eq_of_length_le hlen
  | cons a as ih =>
    obtain ⟨ha, has⟩ := forall_mem_cons.1 hv
    rw [logOf_cons, append_assoc, wholeRecords]
    split
    · next hle =>
      obtain ⟨rest', htorn, hcut⟩ := ih has (n - (F.encode a).length)
      refine ⟨rest', htorn, ?_⟩
      rw [take_append, take_of_length_le hle, hcut, logOf_cons, append_assoc]
    · next hlt =>
      have hfront : (F.encode a).take n <+: F.encode a := take_prefix _ _
      refine ⟨(F.encode a).take n, .inr ⟨a, ha, hfront, fun heq => hlt ?_⟩, ?_⟩
      · have hlen := congrArg length heq
        rw [length_take] at hlen
        omega
      · rw [take_append, Nat.sub_eq_zero_of_le (Nat.le_of_not_le hlt), take_zero, append_nil]
        rfl

end RecordFormat

end SystemDesignLabs.Core
