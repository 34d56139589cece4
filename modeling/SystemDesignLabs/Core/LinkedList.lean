import Mathlib

/-!
# Doubly linked lists

Cells under addresses, each with the addresses of its two neighbours. `ListAt` says that all cells form one list,
whose second cell may point back to another address than that of the first one. A cell that is inserted behind another
one joins the list there; behind the first cell it also repairs that pointer (`ListAt.insertFirst`), behind a later
one it leaves it (`ListAt.insertRest`).
-/

namespace SystemDesignLabs.Core

open List Option

universe u

/-- The neighbours of a cell. -/
@[ext] structure Links (P : Type u) where
  prev : Option P
  next : Option P
  deriving DecidableEq

variable {P : Type u}

/-- The cells under the addresses follow each other, and the first one points back to `back`. -/
def LinkedFrom (cells : P → Option (Links P)) : Option P → List P → Prop
  | _, [] => True
  | back, p :: ps => cells p = some ⟨back, ps.head?⟩ ∧ LinkedFrom cells (some p) ps

section Linked

variable {cells cells' : P → Option (Links P)} {back : Option P} {ps : List P} {p q r : P} {l : Links P}

section

variable (h : LinkedFrom cells back ps)
include h

theorem LinkedFrom.congr (heq : ∀ p ∈ ps, cells' p = cells p) :
    LinkedFrom cells' back ps := by
  induction ps generalizing back with
  | nil => trivial
  | cons p ps ih =>
    rw [forall_mem_cons] at heq
    exact ⟨heq.1.trans h.1, ih h.2 heq.2⟩

theorem LinkedFrom.next (hp : p ∈ ps) (hl : cells p = some l)
    (hq : l.next = some q) : q ∈ ps ∧ ∃ l', cells q = some l' ∧ l'.prev = some p := by
  induction ps generalizing back with
  | nil => exact absurd hp not_mem_nil
  | cons x ps ih =>
    rcases mem_cons.1 hp with rfl | hmem
    · have hhead : ps.head? = some q := by
        rw [h.1] at hl
        rw [← hq, ← some_inj.1 hl]
      cases ps with
      | nil => exact absurd hhead (some_ne_none q).symm
      | cons y ps =>
        cases hhead
        exact ⟨mem_cons_of_mem _ mem_cons_self, _, h.2.1, rfl⟩
    · obtain ⟨hmem', hback⟩ := ih h.2 hmem
      exact ⟨mem_cons_of_mem x hmem', hback⟩

theorem LinkedFrom.next_ne (hnodup : ps.Nodup) (hp : p ∈ ps) (hl : cells p = some l) :
    l.next ≠ some p := by
  induction ps generalizing back with
  | nil => exact absurd hp not_mem_nil
  | cons x ps ih =>
    obtain ⟨hx, hnodup⟩ := nodup_cons.1 hnodup
    rcases mem_cons.1 hp with rfl | hmem
    · rw [h.1] at hl
      cases hl
      exact fun hhead => hx (mem_of_mem_head? hhead)
    · exact ih h.2 hnodup hmem

theorem LinkedFrom.prev (hq : q ∈ ps) (hl : cells q = some l)
    (hp : l.prev = some p) : (back = some p ∧ ps.head? = some q)
      ∨ p ∈ ps ∧ ∃ l', cells p = some l' ∧ l'.next = some q := by
  induction ps generalizing back with
  | nil => exact absurd hq not_mem_nil
  | cons x ps ih =>
    rcases mem_cons.1 hq with rfl | hmem
    · rw [h.1] at hl
      cases hl
      exact .inl ⟨hp, rfl⟩
    · rcases ih h.2 hmem with ⟨hx, hhead⟩ | ⟨hmem', hnext⟩
      · cases hx
        exact .inr ⟨mem_cons_self, _, h.1, hhead⟩
      · exact .inr ⟨mem_cons_of_mem x hmem', hnext⟩

end

/-- A new cell `r` behind the cell `p`, whose neighbours were `l`. -/
structure Inserted (cells : P → Option (Links P)) (p : P) (l : Links P) (r : P)
    (cells' : P → Option (Links P)) : Prop where
  before : cells' p = some ⟨l.prev, some r⟩
  new : cells' r = some ⟨some p, l.next⟩
  after : ∀ q, l.next = some q → cells' q = (cells q).map fun l' => ⟨some r, l'.next⟩
  other : ∀ q, q ≠ p → q ≠ r → l.next ≠ some q → cells' q = cells q

theorem Inserted.rest (hi : Inserted cells p l r cells') (h : LinkedFrom cells back ps) (hnext : l.next = ps.head?)
    (hnodup : ps.Nodup) (hp : p ∉ ps) (hr : r ∉ ps) : LinkedFrom cells' (some r) ps := by
  cases ps with
  | nil => trivial
  | cons q ps =>
    obtain ⟨hq, hnodup⟩ := nodup_cons.1 hnodup
    refine ⟨by rw [hi.after q hnext, h.1]; rfl, h.2.congr fun x hx => hi.other x ?_ ?_ ?_⟩
    · rintro rfl
      exact hp (mem_cons_of_mem q hx)
    · rintro rfl
      exact hr (mem_cons_of_mem q hx)
    · rw [hnext]
      rintro ⟨⟩
      exact hq hx

/-- The list with `r` behind `p`. -/
def insertAfter [DecidableEq P] (p r : P) : List P → List P
  | [] => []
  | q :: qs => if q = p then q :: r :: qs else q :: insertAfter p r qs

theorem head?_insertAfter [DecidableEq P] (p r : P) (ps : List P) : (insertAfter p r ps).head? = ps.head? := by
  cases ps with
  | nil => rfl
  | cons q qs =>
    rw [insertAfter]
    split <;> rfl

theorem perm_insertAfter [DecidableEq P] (hp : p ∈ ps) (r : P) : (insertAfter p r ps).Perm (r :: ps) := by
  induction ps with
  | nil => exact absurd hp not_mem_nil
  | cons q qs ih =>
    rw [insertAfter]
    split
    · exact Perm.swap r q qs
    · next hne =>
        have hqs : p ∈ qs := (mem_cons.1 hp).resolve_left (Ne.symm hne)
        exact ((ih hqs).cons q).trans (Perm.swap r q qs)

/-- A cell inserted behind a cell of the list joins it. -/
theorem LinkedFrom.insert [DecidableEq P] (h : LinkedFrom cells back ps) (hi : Inserted cells p l r cells')
    (hl : cells p = some l) (hnodup : ps.Nodup) (hp : p ∈ ps) (hr : r ∉ ps) :
    LinkedFrom cells' back (insertAfter p r ps) := by
  induction ps generalizing back with
  | nil => exact absurd hp not_mem_nil
  | cons x ps ih =>
    obtain ⟨hx, hnodup⟩ := nodup_cons.1 hnodup
    rw [mem_cons, not_or] at hr
    rw [insertAfter]
    split
    · next heq =>
        subst heq
        have hlinks := some_inj.1 (hl.symm.trans h.1)
        subst hlinks
        exact ⟨hi.before, hi.new, hi.rest h.2 rfl hnodup hx hr.2⟩
    · next hne =>
        have hmem : p ∈ ps := (mem_cons.1 hp).resolve_left (Ne.symm hne)
        refine ⟨?_, ih h.2 hnodup hmem hr.2⟩
        -- the successor of `p` comes later in the list, so that this cell is not changed
        have hnext : l.next ≠ some x := fun heq => hx (h.2.next hmem hl heq).1
        rw [head?_insertAfter, hi.other x hne (Ne.symm hr.1) hnext]
        exact h.1

/-! ## The list of all cells -/

/-- All cells, in the order of the list: the first one and those behind it. The second one points back to `back`. -/
structure ListAt (cells : P → Option (Links P)) (first : P) (back : Option P) (rest : List P) : Prop where
  head : cells first = some ⟨none, rest.head?⟩
  linked : LinkedFrom cells back rest
  nodup : (first :: rest).Nodup
  complete : ∀ p, (cells p).isSome → p ∈ first :: rest

namespace ListAt

variable {first : P} {rest : List P}

theorem linkedFrom (h : ListAt cells first (some first) rest) : LinkedFrom cells none (first :: rest) :=
  ⟨h.head, h.linked⟩

theorem mem (h : ListAt cells first back rest) (hl : cells p = some l) : p ∈ first :: rest :=
  h.complete p (isSome_of_eq_some hl)

/-- In a list whose second cell points back to the first one, the two pointers are inverse. -/
theorem next_iff (h : ListAt cells first (some first) rest) (hl : cells p = some l) :
    l.next = some q ↔ ∃ l', cells q = some l' ∧ l'.prev = some p := by
  constructor
  · exact fun hq => (h.linkedFrom.next (h.mem hl) hl hq).2
  · rintro ⟨l', hq, hp⟩
    rcases h.linkedFrom.prev (h.mem hq) hq hp with ⟨hnone, -⟩ | ⟨-, l'', hp', hnext⟩
    · exact absurd hnone (some_ne_none p).symm
    · rw [hl] at hp'
      cases hp'
      exact hnext

theorem neighbour (h : ListAt cells first (some first) rest) (hl : cells p = some l)
    (hq : l.prev = some q ∨ l.next = some q) : ∃ l', cells q = some l' := by
  rcases hq with hprev | hnext
  · rcases h.linkedFrom.prev (h.mem hl) hl hprev with ⟨hnone, -⟩ | ⟨-, l', hq, -⟩
    · exact absurd hnone (some_ne_none q).symm
    · exact ⟨l', hq⟩
  · obtain ⟨l', hq, -⟩ := (h.next_iff hl).1 hnext
    exact ⟨l', hq⟩

section

variable (h : ListAt cells first back rest)
include h

theorem next (hl : cells p = some l) (hq : l.next = some q) :
    q ≠ p ∧ ∃ l', cells q = some l' := by
  rcases mem_cons.1 (h.mem hl) with rfl | hmem
  · rw [h.head] at hl
    cases hl
    have hmem := mem_of_mem_head? hq
    refine ⟨fun heq => (nodup_cons.1 h.nodup).1 (heq ▸ hmem), ?_⟩
    have hlinked := h.linked
    cases rest with
    | nil => exact absurd hmem not_mem_nil
    | cons x rest =>
      cases hq
      exact ⟨_, hlinked.1⟩
  · obtain ⟨-, l', hl', -⟩ := h.linked.next hmem hl hq
    refine ⟨?_, l', hl'⟩
    rintro rfl
    exact h.linked.next_ne (nodup_cons.1 h.nodup).2 hmem hl hq

theorem not_mem (hr : cells r = none) : r ∉ first :: rest := by
  have hcells : ∀ {ps : List P} {back : Option P}, LinkedFrom cells back ps → r ∉ ps := by
    intro ps
    induction ps with
    | nil => exact fun _ => not_mem_nil
    | cons p ps ih =>
      intro back hlinked hmem
      rcases mem_cons.1 hmem with rfl | hmem
      · exact absurd (hr.symm.trans hlinked.1) (some_ne_none _).symm
      · exact ih hlinked.2 hmem
  intro hmem
  rcases mem_cons.1 hmem with rfl | hmem
  · exact absurd (hr.symm.trans h.head) (some_ne_none _).symm
  · exact hcells h.linked hmem

theorem complete_inserted (hi : Inserted cells p l r cells')
    (hl : cells p = some l) (hq : (cells' q).isSome) : q ∈ r :: first :: rest := by
  by_cases hqr : q = r
  · exact mem_cons.2 (.inl hqr)
  · refine mem_cons_of_mem r (h.complete q ?_)
    by_cases hqp : q = p
    · rw [hqp, hl]
      rfl
    · by_cases hnext : l.next = some q
      · rw [hi.after q hnext, isSome_map] at hq
        exact hq
      · rw [hi.other q hqp hqr hnext] at hq
        exact hq

/-- A cell inserted behind the first one is the second one, and points back to the first one. -/
theorem insertFirst (hi : Inserted cells first l r cells')
    (hl : cells first = some l) (hr : cells r = none) : ListAt cells' first (some first) (r :: rest) := by
  have hlinks := some_inj.1 (hl.symm.trans h.head)
  have hnew := h.not_mem hr
  obtain ⟨hfirst, hrest⟩ := nodup_cons.1 h.nodup
  rw [mem_cons, not_or] at hnew
  refine ⟨?_, ⟨?_, hi.rest h.linked ?_ hrest hfirst hnew.2⟩, ?_, fun q hq => ?_⟩
  · rw [hi.before, hlinks]
    rfl
  · rw [hi.new, hlinks]
  · rw [hlinks]
  · refine nodup_cons.2 ⟨?_, nodup_cons.2 ⟨hnew.2, hrest⟩⟩
    rw [mem_cons, not_or]
    exact ⟨Ne.symm hnew.1, hfirst⟩
  · exact (Perm.swap first r rest).mem_iff.1 (h.complete_inserted hi hl hq)

/-- A cell inserted behind a later one leaves the pointer of the second cell as it is. -/
theorem insertRest [DecidableEq P] (hi : Inserted cells p l r cells')
    (hl : cells p = some l) (hr : cells r = none) (hp : p ∈ rest) :
    ListAt cells' first back (insertAfter p r rest) := by
  have hnew := h.not_mem hr
  obtain ⟨hfirst, hrest⟩ := nodup_cons.1 h.nodup
  have hperm : (first :: insertAfter p r rest).Perm (r :: first :: rest) :=
    ((perm_insertAfter hp r).cons first).trans (Perm.swap r first rest)
  rw [mem_cons, not_or] at hnew
  refine ⟨?_, h.linked.insert hi hl hrest hp hnew.2, ?_, fun q hq => ?_⟩
  · have hne : first ≠ p := fun heq => hfirst (heq ▸ hp)
    have hnext : l.next ≠ some first := fun heq => hfirst (h.linked.next hp hl heq).1
    rw [head?_insertAfter, hi.other first hne (Ne.symm hnew.1) hnext]
    exact h.head
  · rw [hperm.nodup_iff, nodup_cons, mem_cons, not_or]
    exact ⟨hnew, h.nodup⟩
  · exact hperm.mem_iff.2 (h.complete_inserted hi hl hq)

end

end ListAt

end Linked

end SystemDesignLabs.Core
