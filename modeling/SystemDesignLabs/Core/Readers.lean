import SystemDesignLabs.Core.Fallible

/-!
# Readers

A reader takes a value off the front of its input and returns the rest, or it fails. A format says which forms stand
for which values. `Reads bad read F X` relates the two: the reader accepts exactly the forms of `F`, whatever follows
them, and fails in one of the `bad` ways exactly on the inputs in `X`. The rules put the format of a sequence and of a
counted loop together from those of its parts, and with it the inputs on which the loop fails.
-/

namespace SystemDesignLabs.Core

universe u

variable {ε α β γ : Type u}

/-- Takes a value off the front. -/
abbrev Reader (ε β α : Type u) := List β → Except ε (α × List β)

/-! ### Formats -/

/-- The input begins with a form of some value, and what follows is as the value says. -/
def After (F P : α → List β → Prop) (data : List β) : Prop :=
  ∃ a form rest, F a form ∧ data = form ++ rest ∧ P a rest

/-- Two forms in a row, the second one of a format that depends on the first value. -/
def FollowedBy (F : α → List β → Prop) (G : α → γ → List β → Prop) (c : γ) (form : List β) : Prop :=
  ∃ a front back, F a front ∧ G a c back ∧ form = front ++ back

/-- As many forms in a row. -/
def Counted (F : α → List β → Prop) (n : Nat) (as : List α) (form : List β) : Prop :=
  ∃ forms, List.Forall₂ F as forms ∧ as.length = n ∧ form = forms.flatten

/-- Behind fewer than `n` forms, the input is as `P` says. -/
def AfterFewer (F : α → List β → Prop) (n : Nat) (P : List β → Prop) (data : List β) : Prop :=
  ∃ m, m < n ∧ After (Counted F m) (fun _ => P) data

theorem after_congr {F P Q : α → List β → Prop} (h : ∀ a rest, P a rest ↔ Q a rest) (data : List β) :
    After F P data ↔ After F Q data := by
  refine exists_congr fun a => exists_congr fun form => exists_congr fun rest => ?_
  rw [h]

variable {F : α → List β → Prop}

theorem counted_zero {as : List α} {form : List β} : Counted F 0 as form ↔ as = [] ∧ form = [] := by
  constructor
  · rintro ⟨forms, hforms, hlen, rfl⟩
    cases List.length_eq_zero_iff.1 hlen
    cases hforms
    exact ⟨rfl, rfl⟩
  · rintro ⟨rfl, rfl⟩
    exact ⟨[], .nil, rfl, rfl⟩

theorem counted_succ {n : Nat} {as : List α} {form : List β} :
    Counted F (n + 1) as form ↔ ∃ a as' front back, F a front ∧ Counted F n as' back ∧
      as = a :: as' ∧ form = front ++ back := by
  constructor
  · rintro ⟨forms, hforms, hlen, rfl⟩
    cases hforms with
    | nil => cases hlen
    | @cons a front as' forms hfront hforms =>
      exact ⟨a, as', front, forms.flatten, hfront, ⟨forms, hforms, Nat.succ.inj hlen, rfl⟩, rfl, rfl⟩
  · rintro ⟨a, as', front, back, hfront, ⟨forms, hforms, hlen, rfl⟩, rfl, rfl⟩
    exact ⟨front :: forms, .cons hfront hforms, congrArg Nat.succ hlen, rfl⟩

theorem not_afterFewer_zero {P : List β → Prop} {data : List β} :
    ¬ AfterFewer F 0 P data := fun ⟨_, h, _⟩ => absurd h (Nat.not_lt_zero _)

theorem afterFewer_succ {n : Nat} {P : List β → Prop} {data : List β} :
    AfterFewer F (n + 1) P data ↔ P data ∨ After F (fun _ => AfterFewer F n P) data := by
  constructor
  · rintro ⟨m, hm, as, form, rest, hcounted, rfl, hrest⟩
    cases m with
    | zero =>
      obtain ⟨-, rfl⟩ := counted_zero.1 hcounted
      exact .inl hrest
    | succ m =>
      obtain ⟨a, as', front, back, hfront, hback, -, rfl⟩ := counted_succ.1 hcounted
      exact .inr ⟨a, front, back ++ rest, hfront, List.append_assoc .., m, Nat.lt_of_succ_lt_succ hm, as', back, rest,
        hback, rfl, hrest⟩
  · rintro (h | ⟨a, front, rest, hfront, rfl, m, hm, as, back, rest', hback, rfl, hrest⟩)
    · exact ⟨0, Nat.succ_pos n, [], [], data, counted_zero.2 ⟨rfl, rfl⟩, rfl, h⟩
    · exact ⟨m + 1, Nat.succ_lt_succ hm, a :: as, front ++ back, rest',
        counted_succ.2 ⟨a, as, front, back, hfront, hback, rfl, rfl⟩, (List.append_assoc ..).symm, hrest⟩

/-! ### What a reader accepts, and where it fails -/

/-- The reader accepts the forms of `F`, and fails in a bad way on the inputs in `X`. -/
structure Reads (bad : ε → Prop) (read : Reader ε β α) (F : α → List β → Prop) (X : List β → Prop) : Prop where
  complete : ∀ {a form}, F a form → ∀ rest, read (form ++ rest) = .ok (a, rest)
  sound : ∀ {data a rest}, read data = .ok (a, rest) → ∃ form, F a form ∧ data = form ++ rest
  fails_iff : ∀ data, X data ↔ ∃ e, bad e ∧ read data = .error e

/-- Read as many values. -/
def readMany (read : Reader ε β α) : Nat → Reader ε β (List α)
  | 0, data => .ok ([], data)
  | n + 1, data => do
    let (a, data) ← read data
    let (as, data) ← readMany read n data
    .ok (a :: as, data)

namespace Reads

variable {bad : ε → Prop} {read : Reader ε β α} {F : α → List β → Prop} {X : List β → Prop}

theorem congr (h : Reads bad read F X) {F' : α → List β → Prop} {X' : List β → Prop}
    (hF : ∀ a form, F' a form ↔ F a form) (hX : ∀ data, X' data ↔ X data) : Reads bad read F' X' where
  complete := fun hform => h.complete ((hF _ _).1 hform)
  sound := fun hread =>
    let ⟨form, hform, hdata⟩ := h.sound hread
    ⟨form, (hF _ _).2 hform, hdata⟩
  fails_iff := fun data => (hX data).trans (h.fails_iff data)

theorem pure (bad : ε → Prop) (a : α) :
    Reads bad (fun data : List β => (.ok (a, data) : Except ε (α × List β))) (fun b form => b = a ∧ form = [])
      fun _ => False where
  complete := by
    rintro _ _ ⟨rfl, rfl⟩ rest
    rfl
  sound := by
    intro data b rest h
    cases h
    exact ⟨[], ⟨rfl, rfl⟩, rfl⟩
  fails_iff := fun data => ⟨False.elim, fun ⟨_, _, h⟩ => nomatch h⟩

theorem throw {e : ε} (he : ¬ bad e) :
    Reads bad (fun _ : List β => (.error e : Except ε (α × List β))) (fun _ _ => False) fun _ => False where
  complete := fun h => h.elim
  sound := fun h => nomatch h
  fails_iff := by
    intro data
    refine ⟨False.elim, ?_⟩
    rintro ⟨e', he', h⟩
    cases h
    exact he he'

theorem call {x : Except ε α} {P : α → Prop} {Q : Prop} (hok : ∀ a, x = .ok a ↔ P a)
    (herror : Q ↔ ∃ e, bad e ∧ x = .error e) (g : α → γ) :
    Reads bad (fun data : List β => x >>= fun a => .ok (g a, data)) (fun c form => form = [] ∧ ∃ a, P a ∧ c = g a)
      fun _ => Q where
  complete := by
    rintro _ _ ⟨rfl, a, ha, rfl⟩ rest
    rw [(hok a).2 ha]
    rfl
  sound := by
    intro data c rest h
    obtain ⟨a, ha, h⟩ := bind_eq_ok.1 h
    cases h
    exact ⟨[], ⟨rfl, a, (hok a).1 ha, rfl⟩, rfl⟩
  fails_iff := by
    intro data
    rw [herror]
    refine exists_congr fun e => and_congr_right fun _ => ?_
    cases x with
    | error e' =>
      constructor
      · intro h
        cases h
        rfl
      · intro h
        cases h
        rfl
    | ok a =>
      constructor
      · intro h
        cases h
      · intro h
        cases h

theorem bind_ok_iff (h : Reads bad read F X) (next : α → List β → Except ε γ) {data : List β} {c : γ} :
    (read data >>= fun p => next p.1 p.2) = .ok c ↔ After F (fun a rest => next a rest = .ok c) data := by
  rw [bind_eq_ok]
  constructor
  · rintro ⟨⟨a, rest⟩, hread, hnext⟩
    obtain ⟨form, hform, rfl⟩ := h.sound hread
    exact ⟨a, form, rest, hform, rfl, hnext⟩
  · rintro ⟨a, form, rest, hform, rfl, hnext⟩
    exact ⟨(a, rest), h.complete hform rest, hnext⟩

variable {Y : α → List β → Prop}

/-- What follows a reader fails where the reader does, or behind what the reader accepts. -/
theorem bind_fails_iff (h : Reads bad read F X) (next : α → List β → Except ε γ)
    (hnext : ∀ a rest, Y a rest ↔ ∃ e, bad e ∧ next a rest = .error e) (data : List β) :
    X data ∨ After F Y data ↔ ∃ e, bad e ∧ (read data >>= fun p => next p.1 p.2) = .error e := by
  rw [h.fails_iff]
  cases hread : read data with
  | error e =>
    constructor
    · rintro (⟨e', he', herror⟩ | ⟨a, form, rest, hform, rfl, -⟩)
      · cases herror
        exact ⟨e, he', rfl⟩
      · rw [h.complete hform] at hread
        cases hread
    · rintro ⟨e', he', herror⟩
      cases herror
      exact .inl ⟨e, he', rfl⟩
  | ok p =>
    obtain ⟨a, rest⟩ := p
    rw [ok_bind, ← hnext]
    constructor
    · rintro (⟨e', -, herror⟩ | ⟨a', form, rest', hform, rfl, hrest⟩)
      · cases herror
      · rw [h.complete hform] at hread
        cases hread
        exact hrest
    · intro hrest
      obtain ⟨form, hform, rfl⟩ := h.sound hread
      exact .inr ⟨a, form, rest, hform, rfl, hrest⟩

theorem bind_fails_iff_of_safe (h : Reads bad read F fun _ => False) (next : α → List β → Except ε γ)
    (hnext : ∀ a rest, Y a rest ↔ ∃ e, bad e ∧ next a rest = .error e) (data : List β) :
    After F Y data ↔ ∃ e, bad e ∧ (read data >>= fun p => next p.1 p.2) = .error e := by
  rw [← h.bind_fails_iff next hnext, false_or]

theorem map_fails_iff (h : Reads bad read F X) (g : α → γ) (data : List β) :
    X data ↔ ∃ e, bad e ∧ (read data >>= fun p => .ok (g p.1)) = .error e := by
  have hend : ∀ (a : α) (rest : List β), False ↔ ∃ e, bad e ∧ (.ok (g a) : Except ε γ) = .error e := by
    intro a rest
    refine ⟨False.elim, ?_⟩
    rintro ⟨_, _, h⟩
    cases h
  rw [← h.bind_fails_iff (fun a _ => .ok (g a)) hend]
  constructor
  · exact .inl
  · rintro (hfails | ⟨_, _, _, _, _, hfalse⟩)
    · exact hfails
    · exact hfalse.elim

variable {G : α → γ → List β → Prop} {next : α → Reader ε β γ}

/-- One reader after another. -/
theorem bind (h : Reads bad read F X) (hnext : ∀ a, Reads bad (next a) (G a) (Y a)) :
    Reads bad (fun data => read data >>= fun p => next p.1 p.2) (FollowedBy F G)
      fun data => X data ∨ After F Y data where
  complete := by
    rintro c _ ⟨a, front, back, hfront, hback, rfl⟩ rest
    exact (h.bind_ok_iff fun a => next a).2 ⟨a, front, back ++ rest, hfront, List.append_assoc .., (hnext a).complete hback rest⟩
  sound := by
    intro data c rest hread
    obtain ⟨a, front, mid, hfront, rfl, hsecond⟩ := (h.bind_ok_iff fun a => next a).1 hread
    obtain ⟨back, hback, rfl⟩ := (hnext a).sound hsecond
    exact ⟨front ++ back, ⟨a, front, back, hfront, hback, rfl⟩, (List.append_assoc ..).symm⟩
  fails_iff := h.bind_fails_iff (fun a => next a) fun a => (hnext a).fails_iff

theorem bindSafe (h : Reads bad read F fun _ => False) (hnext : ∀ a, Reads bad (next a) (G a) (Y a)) :
    Reads bad (fun data => read data >>= fun p => next p.1 p.2) (FollowedBy F G) (After F Y) :=
  (h.bind hnext).congr (fun _ _ => Iff.rfl) fun _ => (or_iff_right id).symm

theorem map (h : Reads bad read F X) (g : α → γ) :
    Reads bad (fun data => read data >>= fun p => .ok (g p.1, p.2)) (fun c form => ∃ a, F a form ∧ c = g a) X := by
  refine (h.bind fun a => .pure bad (g a)).congr (fun c form => ?_) fun data => ?_
  · constructor
    · rintro ⟨a, hform, rfl⟩
      exact ⟨a, form, [], hform, ⟨rfl, rfl⟩, (List.append_nil _).symm⟩
    · rintro ⟨a, front, _, hfront, ⟨rfl, rfl⟩, rfl⟩
      exact ⟨a, (List.append_nil front).symm ▸ hfront, rfl⟩
  · constructor
    · exact .inl
    · rintro (hfails | ⟨_, _, _, _, _, hfalse⟩)
      · exact hfails
      · exact hfalse.elim

/-- A counted loop fails where one of its rounds does. -/
theorem many (h : Reads bad read F X) (n : Nat) : Reads bad (readMany read n) (Counted F n) (AfterFewer F n X) := by
  induction n with
  | zero =>
    exact (Reads.pure bad []).congr (fun _ _ => counted_zero) fun _ => ⟨not_afterFewer_zero, False.elim⟩
  | succ n ih =>
    refine (h.bind fun a => ih.map (a :: ·)).congr (fun as form => ?_) fun data => afterFewer_succ
    rw [counted_succ]
    constructor
    · rintro ⟨a, as', front, back, hfront, hback, rfl, rfl⟩
      exact ⟨a, front, back, hfront, ⟨as', hback, rfl⟩, rfl⟩
    · rintro ⟨a, front, back, hfront, ⟨as', hback, rfl⟩, rfl⟩
      exact ⟨a, as', front, back, hfront, hback, rfl, rfl⟩

end Reads

end SystemDesignLabs.Core
