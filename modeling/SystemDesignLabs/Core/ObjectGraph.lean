import SystemDesignLabs.Core.Slots

/-!
# Objects that refer to each other

Reachability, and marking by a worklist. `Reaches` is reachability along a relation from some starting
points. The slots of a heap hold objects that list handles of other objects (`Refers`); handles may dangle.
`Marking.markFrom` marks what can be reached from a handle, stopping at objects that are marked already;
when the marks are closed under reference, the new marks are exactly those of the reachable objects
(`Marking.markFrom_spec`), and so are the marks after marking from several handles (`Marking.markAll_spec`).
-/

namespace SystemDesignLabs.Core

open List Slots

universe u

/-! ## Reachability -/

section Reaches

variable {α : Type u} {edge edge' : α → α → Prop} {start start' : α → Prop}

/-- The point can be reached along the relation from a starting point. -/
def Reaches (edge : α → α → Prop) (start : α → Prop) (x : α) : Prop :=
  ∃ r, start r ∧ Relation.ReflTransGen edge r x

theorem Reaches.of_start {x : α} (h : start x) : Reaches edge start x := ⟨x, h, .refl⟩

theorem Reaches.step {x y : α} (h : Reaches edge start x) (hedge : edge x y) : Reaches edge start y := by
  obtain ⟨r, hr, hpath⟩ := h
  exact ⟨r, hr, hpath.tail hedge⟩

/-- What holds of the starting points and is carried along the relation holds of what is reached. -/
theorem Reaches.rule {P : α → Prop} (hstart : ∀ x, start x → P x)
    (hstep : ∀ x y, Reaches edge start x → P x → edge x y → P y) {x : α} (h : Reaches edge start x) : P x := by
  obtain ⟨r, hr, hpath⟩ := h
  induction hpath with
  | refl => exact hstart r hr
  | tail hpath hedge ih => exact hstep _ _ ⟨r, hr, hpath⟩ ih hedge

theorem Reaches.mono (hstart : ∀ x, start x → Reaches edge' start' x)
    (hedge : ∀ x y, edge x y → edge' x y) {x : α} (h : Reaches edge start x) : Reaches edge' start' x :=
  h.rule hstart fun _ _ _ hx he => hx.step (hedge _ _ he)

end Reaches

/-- The object in slot `x` lists the handle `y`. -/
def Refers {α : Type u} (refs : α → List Nat) (s : Slots α) (x y : Nat) : Prop :=
  ∃ a, s.get x = some a ∧ y ∈ refs a

/-! ## Marking -/

/-- Objects with references and a mark. -/
structure Marking (α : Type u) where
  refs : α → List Nat
  marked : α → Bool
  mark : α → α
  marked_mark : ∀ a, marked (mark a) = true
  refs_mark : ∀ a, refs (mark a) = refs a

namespace Marking

variable {α : Type u} (M : Marking α)

/-- The loop over the worklist, and the worklist that is left. -/
def loop : Nat → Slots α → List Nat → Slots α × List Nat
  | 0, s, worklist => (s, worklist)
  | fuel + 1, s, worklist =>
    match worklist.getLast? with
    | none => (s, worklist)
    | some h =>
      match s.get h with
      | none => loop fuel s worklist.dropLast
      | some a =>
        if M.marked a then loop fuel s worklist.dropLast
        else loop fuel (s.adjust h M.mark) (worklist.dropLast ++ M.refs a)

/-- The references that a slot can still add to a worklist. -/
def pendingOf : Option α → Nat
  | none => 0
  | some a => if M.marked a then 0 else (M.refs a).length

/-- The references that can still be added to a worklist. -/
def pending (s : Slots α) : Nat := (s.objects.map M.pendingOf).sum

/-- Mark from one handle. -/
def markFrom (s : Slots α) (start : Nat) : Slots α := (M.loop (1 + M.pending s) s [start]).1

/-- Mark from several handles, one after the other. -/
def markAll (s : Slots α) (starts : List Nat) : Slots α := starts.foldl M.markFrom s

/-- The slot holds a marked object. -/
def IsMarked (s : Slots α) (h : Nat) : Prop := ∃ a, s.get h = some a ∧ M.marked a = true

variable {M}

/-! ### The loop ends -/

variable {s : Slots α}

theorem pending_adjust {h : Nat} {a : α} (hget : s.get h = some a) (hunmarked : M.marked a = false) :
    M.pending (s.adjust h M.mark) + (M.refs a).length = M.pending s := by
  have hlist : ∀ (l : List (Option α)) (h : Nat), l[h]? = some (some a) →
      ((l.modify h (Option.map M.mark)).map M.pendingOf).sum + (M.refs a).length =
        (l.map M.pendingOf).sum := by
    intro l
    induction l with
    | nil =>
      intro h hl
      exact absurd hl (by simp)
    | cons o l ih =>
      intro h hl
      cases h with
      | zero =>
        cases hl
        simp only [modify_zero_cons, map_cons, sum_cons, Option.map_some, pendingOf,
          M.marked_mark, hunmarked, if_true, Bool.false_eq_true, if_false]
        omega
      | succ h =>
        have hrest := ih h hl
        simp only [modify_succ_cons, map_cons, sum_cons]
        omega
  exact hlist s.objects h (get_eq_some.1 hget)

variable {worklist : List Nat}

theorem loop_done (fuel : Nat) (hfuel : worklist.length + M.pending s ≤ fuel) : (M.loop fuel s worklist).2 = [] := by
  induction fuel generalizing s worklist with
  | zero =>
    have hzero : worklist.length = 0 := by omega
    exact length_eq_zero_iff.1 hzero
  | succ fuel ih =>
    rw [loop]
    cases hlast : worklist.getLast? with
    | none => exact getLast?_eq_none_iff.1 hlast
    | some h =>
      obtain ⟨init, rfl⟩ := getLast?_eq_some_iff.1 hlast
      rw [length_append, length_singleton] at hfuel
      dsimp only
      rw [dropLast_concat]
      cases hget : s.get h with
      | none => exact ih (by omega)
      | some a =>
        dsimp only
        split
        · exact ih (by omega)
        · rename_i hmarked
          have hpending := pending_adjust hget (Bool.not_eq_true _ ▸ hmarked)
          refine ih ?_
          rw [length_append]
          omega

theorem sound_loop (fuel : Nat) (hs : s.Sound) : (M.loop fuel s worklist).1.Sound := by
  induction fuel generalizing s worklist with
  | zero => exact hs
  | succ fuel ih =>
    rw [loop]
    cases worklist.getLast? with
    | none => exact hs
    | some h =>
      dsimp only
      cases s.get h with
      | none => exact ih hs
      | some a =>
        dsimp only
        split
        · exact ih hs
        · exact ih (sound_adjust hs _ _)

theorem sound_markAll (starts : List Nat) (hs : s.Sound) : (M.markAll s starts).Sound := by
  induction starts generalizing s with
  | nil => exact hs
  | cons start starts ih => exact ih (sound_loop _ hs)

/-! ### What is marked -/

/-- The marks of the second heap are closed under reference, up to the worklist; they were made at
handles that can be reached from the starting points. -/
structure Progress (s₀ : Slots α) (start : Nat → Prop) (s : Slots α) (worklist : List Nat) : Prop where
  same : ∀ h, s.get h = s₀.get h ∨ ∃ a, s₀.get h = some a ∧ M.marked a = false ∧
    s.get h = some (M.mark a) ∧ Reaches (Refers M.refs s₀) start h
  work : ∀ h ∈ worklist, Reaches (Refers M.refs s₀) start h
  seen : ∀ h, start h → s₀.get h ≠ none → M.IsMarked s h ∨ h ∈ worklist
  closed : ∀ x y, M.IsMarked s x → Refers M.refs s₀ x y → s₀.get y ≠ none →
    M.IsMarked s y ∨ y ∈ worklist

theorem isMarked_adjust {h k : Nat} (hmarked : M.IsMarked s k) : M.IsMarked (s.adjust h M.mark) k := by
  obtain ⟨a, hget, ha⟩ := hmarked
  rw [IsMarked, get_adjust]
  by_cases heq : k = h
  · subst heq
    rw [if_pos rfl, hget]
    exact ⟨M.mark a, rfl, M.marked_mark a⟩
  · rw [if_neg heq]
    exact ⟨a, hget, ha⟩

variable {start : Nat → Prop}

variable {s₀ : Slots α}

theorem Progress.drop {init : List Nat} {h : Nat} (hp : M.Progress s₀ start s (init ++ [h]))
    (hskip : s₀.get h = none ∨ M.IsMarked s h) : M.Progress s₀ start s init := by
  have hdrop : ∀ k, s₀.get k ≠ none → M.IsMarked s k ∨ k ∈ init ++ [h] → M.IsMarked s k ∨ k ∈ init := by
    intro k hk hcase
    rw [mem_append, mem_singleton] at hcase
    obtain hmarked | hmem | rfl := hcase
    · exact .inl hmarked
    · exact .inr hmem
    · exact .inl (hskip.resolve_left hk)
  exact ⟨hp.same, fun k hk => hp.work k (mem_append_left _ hk), fun k hk hlive => hdrop k hlive (hp.seen k hk hlive),
    fun x y hx href hlive => hdrop y hlive (hp.closed x y hx href hlive)⟩

theorem Progress.mark {init : List Nat} {h : Nat} {a : α} (hp : M.Progress s₀ start s (init ++ [h]))
    (hget : s.get h = some a) (hunmarked : M.marked a = false) :
    M.Progress s₀ start (s.adjust h M.mark) (init ++ M.refs a) := by
  have hreached : Reaches (Refers M.refs s₀) start h :=
    hp.work h (mem_append_right _ (mem_singleton_self h))
  have hget₀ : s₀.get h = some a := by
    obtain hsame | ⟨a₀, -, -, hmark, -⟩ := hp.same h
    · rw [← hsame, hget]
    · rw [hget] at hmark
      rw [Option.some.inj hmark, M.marked_mark] at hunmarked
      exact absurd hunmarked (by decide)
  have hmarked : M.IsMarked (s.adjust h M.mark) h := by
    refine ⟨M.mark a, ?_, M.marked_mark a⟩
    rw [get_adjust, if_pos rfl, hget]
    rfl
  have hcase : ∀ k, M.IsMarked s k ∨ k ∈ init ++ [h] →
      M.IsMarked (s.adjust h M.mark) k ∨ k ∈ init ++ M.refs a := by
    intro k hk
    rw [mem_append, mem_singleton] at hk
    obtain hk | hk | rfl := hk
    · exact .inl (isMarked_adjust hk)
    · exact .inr (mem_append_left _ hk)
    · exact .inl hmarked
  refine ⟨?_, ?_, fun k hk hlive => hcase k (hp.seen k hk hlive), ?_⟩
  · intro k
    rw [get_adjust]
    by_cases heq : k = h
    · subst heq
      rw [if_pos rfl, hget]
      exact .inr ⟨a, hget₀, hunmarked, rfl, hreached⟩
    · rw [if_neg heq]
      exact hp.same k
  · intro k hk
    obtain hk | hk := mem_append.1 hk
    · exact hp.work k (mem_append_left _ hk)
    · exact hreached.step ⟨a, hget₀, hk⟩
  · intro x y hx href hlive
    by_cases heq : x = h
    · subst heq
      obtain ⟨a', hget', hy⟩ := href
      rw [hget₀] at hget'
      cases hget'
      exact .inr (mem_append_right _ hy)
    · obtain ⟨b, hb, hbm⟩ := hx
      rw [get_adjust, if_neg heq] at hb
      exact hcase y (hp.closed x y ⟨b, hb, hbm⟩ href hlive)

theorem Progress.loop (fuel : Nat) (hp : M.Progress s₀ start s worklist) :
    M.Progress s₀ start (M.loop fuel s worklist).1 (M.loop fuel s worklist).2 := by
  induction fuel generalizing s worklist with
  | zero => exact hp
  | succ fuel ih =>
    rw [Marking.loop]
    cases hlast : worklist.getLast? with
    | none => exact hp
    | some h =>
      obtain ⟨init, rfl⟩ := getLast?_eq_some_iff.1 hlast
      dsimp only
      rw [dropLast_concat]
      cases hget : s.get h with
      | none =>
        refine ih (hp.drop (.inl ?_))
        obtain hsame | ⟨a₀, -, -, hmark, -⟩ := hp.same h
        · rw [← hsame, hget]
        · rw [hget] at hmark
          exact absurd hmark (by simp)
      | some a =>
        dsimp only
        split
        · rename_i hmarked
          exact ih (hp.drop (.inr ⟨a, hget, hmarked⟩))
        · rename_i hmarked
          exact ih (hp.mark hget (Bool.not_eq_true _ ▸ hmarked))

/-- The second heap is the first one with the marks of the reached objects added. -/
structure Marks (s : Slots α) (reached : Nat → Prop) (s' : Slots α) : Prop where
  same : ∀ h, s'.get h = s.get h ∨
    ∃ a, s.get h = some a ∧ M.marked a = false ∧ s'.get h = some (M.mark a)
  marked : ∀ h, M.IsMarked s' h ↔ M.IsMarked s h ∨ s.get h ≠ none ∧ reached h

/-- The marks are closed under reference. -/
def Closed (M : Marking α) (s : Slots α) : Prop :=
  ∀ x y, M.IsMarked s x → Refers M.refs s x y → s.get y ≠ none → M.IsMarked s y

/-- Marking from a handle marks what can be reached from it. -/
theorem markFrom_spec (hclosed : M.Closed s) (start : Nat) :
    M.Marks s (Reaches (Refers M.refs s) (· = start)) (M.markFrom s start) := by
  have hinit : M.Progress s (· = start) s [start] :=
    ⟨fun h => .inl rfl, fun h hh => .of_start (mem_singleton.1 hh),
      fun h hh _ => .inr (mem_singleton.2 hh), fun x y hx href hlive => .inl (hclosed x y hx href hlive)⟩
  have hp := hinit.loop (1 + M.pending s)
  have hdone : (M.loop (1 + M.pending s) s [start]).2 = [] := loop_done _ (Nat.le_refl _)
  rw [hdone] at hp
  refine ⟨fun h => (hp.same h).imp_right fun ⟨a, ha, hfalse, hmark, _⟩ => ⟨a, ha, hfalse, hmark⟩, ?_⟩
  intro h
  constructor
  · rintro ⟨a, hget, ha⟩
    obtain hsame | ⟨a₀, hget₀, -, -, hreached⟩ := hp.same h
    · exact .inl ⟨a, hsame ▸ hget, ha⟩
    · exact .inr ⟨by rw [hget₀]; simp, hreached⟩
  · rintro (⟨a, hget, ha⟩ | ⟨hlive, hreached⟩)
    · obtain hsame | ⟨a₀, -, -, hmark, -⟩ := hp.same h
      · exact ⟨a, hsame.trans hget, ha⟩
      · exact ⟨_, hmark, M.marked_mark a₀⟩
    · -- Along a path every object is live, except perhaps the last one.
      refine hreached.rule (P := fun x => s.get x ≠ none → M.IsMarked _ x) ?_ ?_ hlive
      · intro x hx hlive
        exact (hp.seen x hx hlive).resolve_right not_mem_nil
      · intro x y _ hx href hlive
        obtain ⟨a, hget, -⟩ := id href
        exact (hp.closed x y (hx (by rw [hget]; simp)) href hlive).resolve_right not_mem_nil

theorem Marks.refers_iff {s' : Slots α} {reached : Nat → Prop} (h : M.Marks s reached s') (x y : Nat) :
    Refers M.refs s' x y ↔ Refers M.refs s x y := by
  obtain hsame | ⟨a, ha, -, hmark⟩ := h.same x
  · rw [Refers, Refers, hsame]
  · rw [Refers, Refers, ha, hmark]
    simp only [Option.some.injEq, exists_eq_left', M.refs_mark]

theorem Marks.get_eq_none {s' : Slots α} {reached : Nat → Prop} (h : M.Marks s reached s') (x : Nat) :
    s'.get x = none ↔ s.get x = none := by
  obtain hsame | ⟨a, ha, -, hmark⟩ := h.same x
  · rw [hsame]
  · rw [ha, hmark]
    simp

/-- Marking from several handles. -/
theorem markAll_spec (starts : List Nat) (hclosed : M.Closed s) :
    M.Marks s (Reaches (Refers M.refs s) (· ∈ starts)) (M.markAll s starts) ∧ M.Closed (M.markAll s starts) := by
  induction starts generalizing s with
  | nil =>
    refine ⟨⟨fun h => .inl rfl, fun h => ?_⟩, hclosed⟩
    constructor
    · exact .inl
    · rintro (hmarked | ⟨-, r, hr, -⟩)
      · exact hmarked
      · exact absurd hr not_mem_nil
  | cons start starts ih =>
    have hfirst := markFrom_spec hclosed start
    have hclosed₁ : M.Closed (M.markFrom s start) := by
      intro x y hx href hlive
      rw [hfirst.refers_iff] at href
      rw [Ne, hfirst.get_eq_none] at hlive
      rw [hfirst.marked] at hx ⊢
      obtain hx | ⟨-, hx⟩ := hx
      · exact .inl (hclosed x y hx href hlive)
      · exact .inr ⟨hlive, hx.step href⟩
    obtain ⟨hrest, hclosed₂⟩ := ih hclosed₁
    have hedges : Refers M.refs (M.markFrom s start) = Refers M.refs s := by
      funext x y
      exact propext (hfirst.refers_iff x y)
    rw [hedges] at hrest
    refine ⟨⟨?_, ?_⟩, hclosed₂⟩
    · intro h
      obtain hsame | ⟨a, ha, hfalse, hmark⟩ := hrest.same h
      · exact (hfirst.same h).imp (fun h₁ => hsame.trans h₁)
          fun ⟨a, ha, hfalse, h₁⟩ => ⟨a, ha, hfalse, hsame.trans h₁⟩
      · obtain hsame | ⟨b, -, -, hmark₁⟩ := hfirst.same h
        · exact .inr ⟨a, hsame ▸ ha, hfalse, hmark⟩
        · -- Nothing is marked twice.
          rw [hmark₁, Option.some.injEq] at ha
          rw [← ha, M.marked_mark] at hfalse
          exact absurd hfalse (by decide)
    · intro h
      have hlive : (M.markFrom s start).get h ≠ none ↔ s.get h ≠ none :=
        not_congr (hfirst.get_eq_none h)
      have hcons : Reaches (Refers M.refs s) (· ∈ start :: starts) h ↔
          Reaches (Refers M.refs s) (· = start) h ∨ Reaches (Refers M.refs s) (· ∈ starts) h := by
        simp only [Reaches, mem_cons, or_and_right, exists_or]
      rw [markAll, foldl_cons, ← markAll, hrest.marked, hfirst.marked, hlive, or_assoc, ← and_or_left, hcons]

/-- Marking and sweeping keep exactly the objects that can be reached, when none is marked before. -/
theorem get_swept (hunmarked : ∀ h a, s.get h = some a → M.marked a = false) (starts : List Nat)
    (settle : α → α) (h : Nat) (b : α) :
    (((M.markAll s starts).sweep fun a => !M.marked a).mapAll settle).get h = some b ↔
      ∃ a, s.get h = some a ∧ Reaches (Refers M.refs s) (· ∈ starts) h ∧ settle (M.mark a) = b := by
  have hnot : ∀ h, ¬ M.IsMarked s h := fun h ⟨a, hget, ha⟩ => absurd ((hunmarked h a hget).symm.trans ha) (by decide)
  obtain ⟨hmarks, -⟩ := M.markAll_spec starts (fun x _ hx => absurd hx (hnot x))
  have hmarked := hmarks.marked h
  rw [or_iff_right (hnot h)] at hmarked
  rw [get_mapAll, get_sweep]
  obtain hsame | ⟨a, ha, -, hmark⟩ := hmarks.same h
  · -- The object was not marked, so it was not reached and is swept.
    rw [hsame]
    cases hget : s.get h with
    | none => simp
    | some a =>
      rw [Option.filter_some, hunmarked h a hget]
      constructor
      · exact nofun
      · rintro ⟨-, -, hreached, -⟩
        obtain ⟨b, hb, hm⟩ := hmarked.2 ⟨by rw [hget]; simp, hreached⟩
        rw [hsame] at hb
        exact absurd ((hunmarked h b hb).symm.trans hm) (by decide)
  · have hreached := (hmarked.1 ⟨_, hmark, M.marked_mark a⟩).2
    rw [hmark, Option.filter_some, M.marked_mark, ha]
    constructor
    · exact fun hb => ⟨a, rfl, hreached, Option.some_inj.1 hb⟩
    · rintro ⟨_, ⟨⟩, -, rfl⟩
      rfl

end Marking

end SystemDesignLabs.Core
