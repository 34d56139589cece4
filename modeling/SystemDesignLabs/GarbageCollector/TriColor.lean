import SystemDesignLabs.GarbageCollector.Incremental

/-!
# The tri-color invariant

The invariant of `IncrementalGc` during a cycle (`TriColor`), through every operation of the collector and
the mutator, and what it gives when the cycle ends.
-/

namespace SystemDesignLabs.GarbageCollector

open List (mem_append mem_singleton mem_singleton_self nodup_append not_mem_nil)
open Option (bind_eq_some_iff filter map_eq_some_iff some)

open Core Slots

namespace IncrementalGc

variable {gc gc' : IncrementalGc} {h k x y : Nat} {c c' : Color}

/-- The object in slot `x` lists the handle `y`. -/
def Links (gc : IncrementalGc) (x y : Nat) : Prop := Refers TriObject.refs gc.heap x y

/-- The slot is full. -/
def Live (gc : IncrementalGc) (h : Nat) : Prop := gc.heap.get h ≠ none

instance (gc : IncrementalGc) (h : Nat) : Decidable (gc.Live h) := inferInstanceAs (Decidable (_ ≠ _))

theorem HasColor.live (hc : gc.HasColor h c) : gc.Live h := by
  intro hnone
  rw [HasColor, hnone] at hc
  exact absurd hc (by simp)

theorem HasColor.unique (hc : gc.HasColor h c) (hc' : gc.HasColor h c') : c = c' :=
  some.inj (hc.symm.trans hc')

theorem Links.live (hl : gc.Links x y) : gc.Live x := by
  obtain ⟨o, ho, -⟩ := hl
  rw [Live, ho]
  simp

theorem Live.hasColor (hl : gc.Live h) : ∃ c, gc.HasColor h c := by
  obtain ⟨o, ho⟩ := Option.ne_none_iff_exists'.1 hl
  exact ⟨o.color, by rw [HasColor, ho]; rfl⟩

/-! ### Painting and queueing -/

theorem hasColor_paint : (gc.paint h c).HasColor k c' ↔ if k = h then gc.Live h ∧ c = c' else gc.HasColor k c' := by
  rw [HasColor, paint, get_adjust]
  split
  · rw [Live]
    cases gc.heap.get h with
    | none => simp
    | some o => simp
  · rfl

variable {f : TriObject → TriObject}

theorem links_adjust (hf : ∀ o, (f o).refs = o.refs) :
    Refers TriObject.refs (gc.heap.adjust h f) x y ↔ gc.Links x y := by
  rw [Links, Refers, Refers, get_adjust]
  split
  · rename_i heq
    subst heq
    cases gc.heap.get x with
    | none => simp
    | some o => simp [hf]
  · rfl

theorem links_paint : (gc.paint h c).Links x y ↔ gc.Links x y := links_adjust fun _ => rfl

theorem live_adjust : (gc.heap.adjust h f).get k ≠ none ↔ gc.Live k := by
  rw [get_adjust, Live]
  split
  · rename_i heq
    subst heq
    rw [Ne, Option.map_eq_none_iff]
  · rfl

@[simp] theorem heap_enqueue : (gc.enqueue h).heap = gc.heap := by
  rw [enqueue]
  split
  · rfl
  · rfl

theorem worklist_enqueue : (gc.enqueue h).worklist = if h ∈ gc.worklist then gc.worklist else gc.worklist ++ [h] := by
  rw [enqueue]
  split
  · rfl
  · rfl

theorem worklist_paint : (gc.paint h c).worklist = gc.worklist := rfl

theorem mem_enqueue : k ∈ (gc.enqueue h).worklist ↔ k ∈ gc.worklist ∨ k = h := by
  rw [enqueue]
  split
  · rename_i hmem
    exact ⟨.inl, fun hk => hk.elim id fun heq => heq ▸ hmem⟩
  · rw [mem_append, mem_singleton]

theorem nodup_enqueue (hn : gc.worklist.Nodup) : (gc.enqueue h).worklist.Nodup := by
  rw [enqueue]
  split
  · exact hn
  · rename_i hmem
    rw [nodup_append]
    refine ⟨hn, List.nodup_singleton h, ?_⟩
    rintro a ha b hb rfl
    exact hmem (mem_singleton.1 hb ▸ ha)

/-- Colors change, but no object gets white, and nothing else changes. -/
structure Recolored (gc gc' : IncrementalGc) : Prop where
  links : ∀ x y, gc'.Links x y ↔ gc.Links x y
  live : ∀ x, gc'.Live x ↔ gc.Live x
  white : ∀ x, gc'.HasColor x .white → gc.HasColor x .white
  roots : gc'.roots = gc.roots
  inProgress : gc'.gcInProgress = gc.gcInProgress
  sound : gc.heap.Sound → gc'.heap.Sound

theorem Recolored.refl (gc : IncrementalGc) : Recolored gc gc :=
  ⟨fun _ _ => .rfl, fun _ => .rfl, fun _ => id, rfl, rfl, id⟩

theorem Recolored.trans {gc₁ : IncrementalGc} (h : Recolored gc gc₁) (h' : Recolored gc₁ gc') : Recolored gc gc' :=
  ⟨fun x y => (h'.links x y).trans (h.links x y), fun x => (h'.live x).trans (h.live x), fun x hx => h.white x (h'.white
    x hx), h'.roots.trans h.roots, h'.inProgress.trans h.inProgress, fun hs => h'.sound (h.sound hs)⟩

theorem recolored_paint (gc : IncrementalGc) (h : Nat) (hc : c ≠ .white) : Recolored gc (gc.paint h c) := by
  refine ⟨fun _ _ => links_paint, fun _ => live_adjust, ?_, rfl, rfl, fun hs => sound_adjust hs _ _⟩
  intro x hx
  rw [hasColor_paint] at hx
  split at hx
  · exact absurd hx.2 hc
  · exact hx

theorem recolored_enqueue (gc : IncrementalGc) (h : Nat) : Recolored gc (gc.enqueue h) := by
  rw [enqueue]
  split
  · exact .refl gc
  · exact ⟨fun _ _ => .rfl, fun _ => .rfl, fun _ => id, rfl, rfl, id⟩

/-! ### The invariant of a cycle -/

/-- What the marking of a cycle may color: what could be reached at `begin`, from the roots or from a
touched handle. -/
def Found (begun : IncrementalGc) (touched : List Nat) (x : Nat) : Prop :=
  Reaches begun.Links (fun r => r ∈ begun.roots ∨ r ∈ touched) x

/-- The invariant, up to one grey object `extra` that is being scanned. -/
structure TriColor (begun : IncrementalGc) (touched : List Nat) (extra : Nat → Prop)
    (gc : IncrementalGc) : Prop where
  nodup : gc.worklist.Nodup
  fresh : ∀ h, extra h → h ∉ gc.worklist
  grey : ∀ h, gc.HasColor h .grey ↔ h ∈ gc.worklist ∨ extra h
  black : ∀ x y, gc.HasColor x .black → gc.Links x y → ¬ gc.HasColor y .white
  origin : ∀ x, gc.Live x → ¬ gc.HasColor x .white → Found begun touched x
  links : ∀ x y, gc.Links x y → y ∈ touched ∨ begun.Links x y

variable {begun : IncrementalGc} {touched touched' : List Nat} {extra : Nat → Prop}

theorem Found.mono (hsub : ∀ r ∈ touched, r ∈ touched') (hx : Found begun touched x) : Found begun touched' x :=
  Reaches.mono (fun _ hr => .of_start (hr.imp_right (hsub _))) (fun _ _ he => he) hx

section

variable (ht : TriColor begun touched extra gc)
include ht

theorem TriColor.found_of_links (hx : Found begun touched x)
    (hl : gc.Links x y) : Found begun touched y :=
  (ht.links x y hl).elim (fun hy => .of_start (.inr hy)) fun hb => hx.step hb

/-- Shading keeps the invariant, and leaves the object not white. -/
theorem triColor_shadeGrey (hfound : Found begun touched h) :
    TriColor begun touched extra (gc.shadeGrey h) ∧ Recolored gc (gc.shadeGrey h) ∧
      ¬ (gc.shadeGrey h).HasColor h .white := by
  rw [shadeGrey]
  by_cases hwhite : gc.HasColor h .white
  · rw [if_pos hwhite]
    have hre : Recolored gc ((gc.paint h .grey).enqueue h) :=
      (recolored_paint gc h (by decide)).trans (recolored_enqueue _ _)
    have hcolor : ∀ k c, ((gc.paint h .grey).enqueue h).HasColor k c ↔
        if k = h then .grey = c else gc.HasColor k c := by
      intro k c
      rw [HasColor, heap_enqueue]
      refine hasColor_paint.trans ?_
      split
      · exact ⟨And.right, fun hc => ⟨hwhite.live, hc⟩⟩
      · rfl
    refine ⟨⟨nodup_enqueue ht.nodup, ?_, ?_, ?_, ?_, ?_⟩, hre, ?_⟩
    · intro k hk hmem
      obtain hmem | rfl := mem_enqueue.1 hmem
      · exact ht.fresh k hk hmem
      · have hgrey := (ht.grey k).2 (.inr hk)
        exact absurd (hgrey.unique hwhite) (by decide)
    · intro k
      rw [hcolor, mem_enqueue]
      by_cases hk : k = h
      · simp [hk]
      · rw [if_neg hk, ht.grey]
        simp [hk, paint]
    · intro x y hx hl hy
      rw [hcolor] at hx
      split at hx
      · exact absurd hx (by decide)
      · exact ht.black x y hx ((hre.links x y).1 hl) (hre.white y hy)
    · intro x hx hnot
      by_cases hxh : x = h
      · exact hxh ▸ hfound
      · rw [hcolor, if_neg hxh] at hnot
        exact ht.origin x ((hre.live x).1 hx) hnot
    · exact fun x y hl => ht.links x y ((hre.links x y).1 hl)
    · rw [hcolor, if_pos rfl]
      decide
  · rw [if_neg hwhite]
    exact ⟨ht, .refl gc, hwhite⟩

theorem triColor_shadeAll {hs : List Nat}
    (hfound : ∀ h ∈ hs, Found begun touched h) :
    TriColor begun touched extra (hs.foldl shadeGrey gc) ∧ Recolored gc (hs.foldl shadeGrey gc) ∧
      ∀ h ∈ hs, ¬ (hs.foldl shadeGrey gc).HasColor h .white := by
  induction hs generalizing gc with
  | nil => exact ⟨ht, .refl gc, fun h hh => absurd hh not_mem_nil⟩
  | cons h hs ih =>
    obtain ⟨hh, hhs⟩ := List.forall_mem_cons.1 hfound
    obtain ⟨ht₁, hre₁, hwhite₁⟩ := triColor_shadeGrey ht hh
    obtain ⟨ht₂, hre₂, hwhite₂⟩ := ih ht₁ hhs
    refine ⟨ht₂, hre₁.trans hre₂, List.forall_mem_cons.2 ⟨?_, hwhite₂⟩⟩
    exact fun hw => hwhite₁ (hre₂.white h hw)

end

/-- Scanning a grey object keeps the invariant. -/
theorem triColor_scan (ht : TriColor begun touched (· = h) gc) :
    TriColor begun touched (fun _ => False) (gc.scan h) ∧ Recolored gc (gc.scan h) := by
  have hgrey : gc.HasColor h .grey := (ht.grey h).2 (.inr rfl)
  have hfound : Found begun touched h := by
    refine ht.origin h hgrey.live fun hw => ?_
    exact absurd (hgrey.unique hw) (by decide)
  have hrefs : ∀ y, y ∈ gc.refsOf h ↔ gc.Links h y := by
    intro y
    rw [refsOf, Links, Refers]
    cases gc.heap.get h with
    | none => simp
    | some o => simp
  obtain ⟨ht₁, hre₁, hwhite₁⟩ := triColor_shadeAll ht fun y hy =>
    ht.found_of_links hfound ((hrefs y).1 hy)
  have hlive : ((gc.refsOf h).foldl shadeGrey gc).Live h := (hre₁.live h).2 hgrey.live
  have hre : Recolored gc (gc.scan h) := hre₁.trans (recolored_paint _ h (by decide))
  refine ⟨⟨ht₁.nodup, fun _ => False.elim, ?_, ?_, ?_, ?_⟩, hre⟩
  · intro k
    rw [scan, hasColor_paint, or_false]
    by_cases hk : k = h
    · subst hk
      rw [if_pos rfl]
      -- The object was taken off the worklist, and shading does not put it back.
      exact ⟨fun hc => absurd hc.2 (by decide), fun hmem => absurd hmem (ht₁.fresh k rfl)⟩
    · rw [if_neg hk, ht₁.grey, or_iff_left hk]
      rfl
  · intro x y hx hl hy
    rw [scan, hasColor_paint] at hx
    have hl₁ := links_paint.1 hl
    have hy₁ := (recolored_paint _ h (by decide)).white y hy
    split at hx
    · rename_i hxh
      subst hxh
      exact hwhite₁ y ((hrefs y).2 ((hre₁.links x y).1 hl₁)) hy₁
    · exact ht₁.black x y hx hl₁ hy₁
  · intro x hx hnot
    by_cases hxh : x = h
    · exact hxh ▸ hfound
    · rw [scan, hasColor_paint, if_neg hxh] at hnot
      exact ht₁.origin x (live_adjust.1 hx) hnot
  · exact fun x y hl => ht₁.links x y (links_paint.1 hl)

/-- The loop of `step` keeps the invariant. -/
theorem triColor_step (n : Nat) (ht : TriColor begun touched (fun _ => False) gc) :
    TriColor begun touched (fun _ => False) (gc.step n) ∧ Recolored gc (gc.step n) := by
  induction n generalizing gc with
  | zero => exact ⟨ht, .refl gc⟩
  | succ n ih =>
    rw [step]
    cases hlast : gc.worklist.getLast? with
    | none => exact ⟨ht, .refl gc⟩
    | some h =>
      obtain ⟨init, hinit⟩ := List.getLast?_eq_some_iff.1 hlast
      have hdrop : gc.worklist.dropLast = init := by
        rw [hinit, List.dropLast_concat]
      have hnodup := ht.nodup
      rw [hinit, nodup_append] at hnodup
      have hpopped : TriColor begun touched (· = h) { gc with worklist := gc.worklist.dropLast } := by
        rw [hdrop]
        refine ⟨hnodup.1, ?_, ?_, ht.black, ht.origin, ht.links⟩
        · rintro k rfl hmem
          exact hnodup.2.2 k hmem k (mem_singleton_self k) rfl
        · intro k
          refine (ht.grey k).trans ?_
          rw [hinit, or_false, mem_append, mem_singleton]
      obtain ⟨ht₁, hre₁⟩ := triColor_scan hpopped
      obtain ⟨ht₂, hre₂⟩ := ih ht₁
      have hre₀ : Recolored gc { gc with worklist := gc.worklist.dropLast } :=
        ⟨fun _ _ => .rfl, fun _ => .rfl, fun _ => id, rfl, rfl, id⟩
      exact ⟨ht₂, (hre₀.trans hre₁).trans hre₂⟩

/-! ### The operations -/

theorem links_mapAll (hf : ∀ o, (f o).refs = o.refs) : Refers TriObject.refs (gc.heap.mapAll f) x y ↔ gc.Links x y := by
  rw [Links, Refers, Refers, get_mapAll]
  cases gc.heap.get x with
  | none => simp
  | some o => simp [hf]

/-- A cycle begins with the invariant. -/
theorem triColor_begin (gc : IncrementalGc) : TriColor gc [] (fun _ => False) gc.begin ∧ gc.begin.gcInProgress = true ∧
      (gc.heap.Sound → gc.begin.heap.Sound) := by
  have hwhite : ∀ x c, HasColor { gc with
      heap := gc.heap.mapAll fun o => { o with color := .white }
      worklist := []
      gcInProgress := true } x c → c = .white := by
    intro x c hc
    rw [HasColor] at hc
    dsimp only at hc
    rw [get_mapAll] at hc
    cases hget : gc.heap.get x with
    | none =>
      rw [hget] at hc
      exact absurd hc (by simp)
    | some o =>
      rw [hget] at hc
      exact (some.inj hc).symm
  have hinit : TriColor gc [] (fun _ => False) { gc with
      heap := gc.heap.mapAll fun o => { o with color := .white }
      worklist := []
      gcInProgress := true } := by
    refine ⟨List.nodup_nil, fun _ => False.elim, ?_, ?_, ?_, ?_⟩
    · intro x
      rw [or_false]
      exact ⟨fun hc => absurd (hwhite x _ hc) (by decide), fun hm => absurd hm not_mem_nil⟩
    · exact fun x y hx => absurd (hwhite x _ hx) (by decide)
    · intro x hx hnot
      obtain ⟨c, hc⟩ := hx.hasColor
      exact absurd (hwhite x c hc ▸ hc) hnot
    · exact fun x y hl =>
        .inr ((links_mapAll (f := fun o => { o with color := .white }) fun _ => rfl).1 hl)
  have hroots : ∀ r ∈ gc.roots, Found gc [] r := fun r hr => .of_start (.inl hr)
  obtain ⟨ht, hre, -⟩ := triColor_shadeAll hinit hroots
  exact ⟨ht, hre.inProgress, fun hs => hre.sound (sound_mapAll hs _)⟩

theorem TriColor.touch (ht : TriColor begun touched extra gc) (hsub : ∀ r ∈ touched, r ∈ touched') :
    TriColor begun touched' extra gc :=
  ⟨ht.nodup, ht.fresh, ht.grey, ht.black, fun x hx hnot => (ht.origin x hx hnot).mono hsub,
    fun x y hl => (ht.links x y hl).imp_left (hsub y)⟩

/-- An allocation during a cycle keeps the invariant: the new object is grey. -/
theorem triColor_alloc (hs : gc.heap.Sound) (hp : gc.gcInProgress = true)
    (ht : TriColor begun touched (fun _ => False) gc) (value : GcValue) :
    TriColor begun (touched ++ (gc.alloc value).1 :: value.refs) (fun _ => False) (gc.alloc value).2 := by
  have hold : ¬ gc.Live (gc.alloc value).1 := by
    rw [Live, not_not]
    exact get_alloc_fst hs _
  have hget : ∀ k, (gc.alloc value).2.heap.get k =
      if k = (gc.alloc value).1 then some ⟨value, .grey⟩ else gc.heap.get k := by
    intro k
    rw [alloc, hp]
    exact get_alloc hs _ k
  have hwork : (gc.alloc value).2.worklist = gc.worklist ++ [(gc.alloc value).1] := by
    rw [alloc, hp]
    rfl
  have hcolor : ∀ k c, (gc.alloc value).2.HasColor k c ↔
      if k = (gc.alloc value).1 then .grey = c else gc.HasColor k c := by
    intro k c
    rw [HasColor, hget]
    split
    · exact Option.some_inj
    · rfl
  have hlinks : ∀ x y, (gc.alloc value).2.Links x y →
      x = (gc.alloc value).1 ∧ y ∈ value.refs ∨ gc.Links x y := by
    rintro x y ⟨o, ho, hy⟩
    rw [hget] at ho
    split at ho
    · rename_i hx
      cases ho
      exact .inl ⟨hx, hy⟩
    · exact .inr ⟨o, ho, hy⟩
  have hnew : ∀ y, y = (gc.alloc value).1 ∨ y ∈ value.refs →
      y ∈ touched ++ (gc.alloc value).1 :: value.refs :=
    fun y hy => List.mem_append_right _ (List.mem_cons.2 hy)
  have hmore : ∀ r ∈ touched, r ∈ touched ++ (gc.alloc value).1 :: value.refs :=
    fun r hr => List.mem_append_left _ hr
  refine ⟨?_, fun _ => False.elim, ?_, ?_, ?_, ?_⟩
  · rw [hwork, nodup_append]
    refine ⟨ht.nodup, List.nodup_singleton _, ?_⟩
    rintro a ha b hb rfl
    rw [mem_singleton] at hb
    subst hb
    exact hold ((ht.grey _).2 (.inl ha)).live
  · intro k
    rw [hcolor, hwork, or_false, mem_append, mem_singleton]
    by_cases hk : k = (gc.alloc value).1
    · simp [hk]
    · rw [if_neg hk, ht.grey, or_false]
      exact ⟨.inl, fun hcase => hcase.resolve_right hk⟩
  · intro x y hx hl hy
    rw [hcolor] at hx hy
    split at hx
    · exact absurd hx (by decide)
    · rename_i hxh
      split at hy
      · exact absurd hy (by decide)
      · obtain ⟨heq, -⟩ | hl := hlinks x y hl
        · exact hxh heq
        · exact ht.black x y hx hl hy
  · intro x hx hnot
    by_cases hxh : x = (gc.alloc value).1
    · exact .of_start (.inr (hnew x (.inl hxh)))
    · rw [hcolor, if_neg hxh] at hnot
      rw [Live, hget, if_neg hxh] at hx
      exact (ht.origin x hx hnot).mono hmore
  · intro x y hl
    obtain ⟨-, hy⟩ | hl := hlinks x y hl
    · exact .inl (hnew y (.inr hy))
    · exact (ht.links x y hl).imp_left (hmore y)

theorem links_written {source target : Nat}
    (hl : Refers TriObject.refs (gc.heap.adjust source fun o => { o with value := o.value.addRef target }) x y) :
    gc.Links x y ∨ x = source ∧ y = target := by
  obtain ⟨o, ho, hy⟩ := hl
  rw [get_adjust] at ho
  split at ho
  · rename_i hx
    obtain ⟨o₀, ho₀, rfl⟩ := map_eq_some_iff.1 ho
    subst hx
    obtain hy | rfl := GcValue.mem_addRef.1 hy
    · exact .inl ⟨o₀, ho₀, hy⟩
    · exact .inr ⟨rfl, rfl⟩
  · exact .inl ⟨o, ho, hy⟩

theorem triColor_link {source target : Nat} (ht : TriColor begun touched extra gc)
    (htarget : target ∈ touched) (hcolor : ∀ k c, gc'.HasColor k c ↔ gc.HasColor k c)
    (hwork : gc'.worklist = gc.worklist) (hlive : ∀ k, gc'.Live k → gc.Live k)
    (hlinks : ∀ x y, gc'.Links x y → gc.Links x y ∨ x = source ∧ y = target)
    (hbarrier : gc.HasColor source .black → ¬ gc.HasColor target .white) : TriColor begun touched extra gc' := by
  refine ⟨hwork ▸ ht.nodup, ?_, ?_, ?_, ?_, ?_⟩
  · intro k hk
    rw [hwork]
    exact ht.fresh k hk
  · intro k
    rw [hcolor, hwork]
    exact ht.grey k
  · intro x y hx hl hy
    rw [hcolor] at hx hy
    obtain hl | ⟨rfl, rfl⟩ := hlinks x y hl
    · exact ht.black x y hx hl hy
    · exact hbarrier hx hy
  · intro x hx hnot
    rw [hcolor] at hnot
    exact ht.origin x (hlive x hx) hnot
  · intro x y hl
    obtain hl | ⟨-, rfl⟩ := hlinks x y hl
    · exact ht.links x y hl
    · exact .inl htarget

/-- The write barrier keeps the invariant. -/
theorem triColor_writeRef (hp : gc.gcInProgress = true)
    (ht : TriColor begun touched (fun _ => False) gc) (source target : Nat) :
    TriColor begun (touched ++ [target]) (fun _ => False) (gc.writeRef source target) := by
  have htarget : target ∈ touched ++ [target] := List.mem_append_right _ (mem_singleton_self target)
  have ht₁ : TriColor begun (touched ++ [target]) (fun _ => False) gc :=
    ht.touch fun r hr => List.mem_append_left _ hr
  rw [writeRef]
  generalize hwritten : ({ gc with
    heap := gc.heap.adjust source fun o => { o with value := o.value.addRef target } } :
      IncrementalGc) = written
  have hcolor : ∀ k c, written.HasColor k c ↔ gc.HasColor k c := by
    intro k c
    rw [← hwritten, HasColor, HasColor]
    dsimp only
    rw [get_adjust]
    split
    · rename_i hk
      subst hk
      rw [Option.map_map]
      rfl
    · rfl
  have hlive : ∀ k, written.Live k → gc.Live k := by
    intro k hk
    rw [← hwritten] at hk
    exact live_adjust.1 hk
  have hlinks : ∀ x y, written.Links x y → gc.Links x y ∨ x = source ∧ y = target := by
    intro x y hl
    rw [← hwritten] at hl
    exact links_written hl
  have hwork : written.worklist = gc.worklist := by rw [← hwritten]
  have hprogress : written.gcInProgress = true := by rw [← hwritten]; exact hp
  rw [hprogress, if_neg (by decide)]
  split
  · rename_i hboth
    have hwhite : gc.HasColor target .white := (hcolor target .white).1 hboth.2
    obtain ⟨ht₂, hre, hnot⟩ := triColor_shadeGrey ht₁ (.of_start (.inr htarget))
    have hshade : gc.shadeGrey target = (gc.paint target .grey).enqueue target := if_pos hwhite
    rw [hshade] at ht₂ hre hnot
    have hbarrier : ((gc.paint target .grey).enqueue target).HasColor source .black →
        ¬ ((gc.paint target .grey).enqueue target).HasColor target .white := fun _ => hnot
    refine triColor_link ht₂ htarget ?_ ?_ ?_ ?_ hbarrier
    · intro k c
      rw [HasColor, HasColor, heap_enqueue, heap_enqueue]
      refine hasColor_paint.trans (Iff.trans ?_ hasColor_paint.symm)
      split
      · exact and_congr_left fun _ => ⟨fun _ => hwhite.live, fun _ => hboth.2.live⟩
      · exact hcolor k c
    · rw [worklist_enqueue, worklist_enqueue, worklist_paint, worklist_paint, hwork]
    · intro k hk
      refine (hre.live k).2 (hlive k ?_)
      rw [Live, heap_enqueue] at hk
      exact live_adjust.1 hk
    · intro x y hl
      rw [Links, heap_enqueue] at hl
      exact (hlinks x y (links_paint.1 hl)).imp_left (hre.links x y).2
  · rename_i hnot
    refine triColor_link ht₁ htarget hcolor hwork hlive hlinks fun hblack hwhite => ?_
    exact hnot ⟨(hcolor source .black).2 hblack, (hcolor target .white).2 hwhite⟩

theorem sound_writeRef (hs : gc.heap.Sound) (source target : Nat) : (gc.writeRef source target).heap.Sound := by
  have hwritten := sound_adjust hs source fun o => { o with value := o.value.addRef target }
  rw [writeRef]
  dsimp only
  split
  · exact hwritten
  · split
    · rw [heap_enqueue]
      exact sound_adjust hwritten _ _
    · exact hwritten

theorem idle_writeRef (hp : gc.gcInProgress = false) (source target : Nat) :
    (gc.writeRef source target).gcInProgress = false ∧ (gc.writeRef source target).worklist = gc.worklist := by
  rw [writeRef]
  dsimp only
  rw [if_pos hp]
  exact ⟨hp, rfl⟩

theorem inProgress_writeRef (source target : Nat) : (gc.writeRef source target).gcInProgress = gc.gcInProgress := by
  rw [writeRef]
  dsimp only
  split
  · rfl
  · split
    · exact (recolored_enqueue _ _).inProgress
    · rfl

theorem addRoot_frame (gc : IncrementalGc) (h : Nat) : (gc.addRoot h).heap = gc.heap ∧
    (gc.addRoot h).worklist = gc.worklist ∧ (gc.addRoot h).gcInProgress = gc.gcInProgress := by
  rw [addRoot]
  split
  · exact ⟨rfl, rfl, rfl⟩
  · exact ⟨rfl, rfl, rfl⟩

theorem TriColor.frame (ht : TriColor begun touched extra gc) (hheap : gc'.heap = gc.heap)
    (hwork : gc'.worklist = gc.worklist) : TriColor begun touched extra gc' := by
  cases gc
  cases gc'
  cases hheap
  cases hwork
  exact ⟨ht.nodup, ht.fresh, ht.grey, ht.black, ht.origin, ht.links⟩

end IncrementalGc

/-! ## Runs -/

namespace World

open IncrementalGc

/-- The slots are sound, the worklist is empty between cycles, and the tri-color invariant holds in
them. -/
structure Invariant (w : World) : Prop where
  sound : w.gc.heap.Sound
  idle : w.gc.gcInProgress = false → w.gc.worklist = []
  triColor : w.gc.gcInProgress = true → TriColor w.begun w.touched (fun _ => False) w.gc

theorem invariant_start : start.Invariant :=
  ⟨sound_empty, fun _ => rfl, fun h => absurd h (by decide)⟩

/-- Every operation keeps the invariant. -/
theorem invariant_step {w w' : World} {op : Op} (h : w.Invariant) (hs : w.step op = some w') : w'.Invariant := by
  cases op with
  | begin =>
    cases hs
    obtain ⟨ht, hp, hsound⟩ := triColor_begin w.gc
    exact ⟨hsound h.sound, fun hidle => absurd (hp.symm.trans hidle) (by decide), fun _ => ht⟩
  | step n =>
    cases hs
    cases hp : w.gc.gcInProgress with
    | true =>
      obtain ⟨ht, hre⟩ := triColor_step n (h.triColor hp)
      exact ⟨hre.sound h.sound,
        fun hidle => absurd (hidle.symm.trans (hre.inProgress.trans hp)) (by decide), fun _ => ht⟩
    | false =>
      -- The worklist is empty, so nothing is scanned.
      have hsame : w.gc.step n = w.gc := by
        cases n with
        | zero => rfl
        | succ n =>
          rw [IncrementalGc.step, h.idle hp]
          rfl
      refine ⟨?_, ?_, ?_⟩
      · dsimp only
        rw [hsame]
        exact h.sound
      · dsimp only
        rw [hsame]
        exact h.idle
      · dsimp only
        rw [hsame]
        exact h.triColor
  | alloc value =>
    cases hs
    have hp : (w.gc.alloc value).2.gcInProgress = w.gc.gcInProgress := rfl
    refine ⟨sound_alloc h.sound _, ?_, ?_⟩
    · intro hidle
      have hidle : w.gc.gcInProgress = false := hidle
      dsimp only
      rw [IncrementalGc.alloc, hidle]
      exact h.idle hidle
    · exact fun hprogress => triColor_alloc h.sound hprogress (h.triColor hprogress) value
  | writeRef source target =>
    cases hs
    refine ⟨sound_writeRef h.sound source target, ?_, ?_⟩
    · intro hidle
      have hidle := (inProgress_writeRef source target).symm.trans hidle
      exact (idle_writeRef hidle source target).2.trans (h.idle hidle)
    · intro hprogress
      have hprogress := (inProgress_writeRef source target).symm.trans hprogress
      exact triColor_writeRef hprogress (h.triColor hprogress) source target
  | addRoot r =>
    cases hs
    obtain ⟨hheap, hwork, hp⟩ := addRoot_frame w.gc r
    refine ⟨?_, ?_, ?_⟩
    · dsimp only
      rw [hheap]
      exact h.sound
    · exact fun hidle => hwork.trans (h.idle (hp.symm.trans hidle))
    · intro hprogress
      exact ((h.triColor (hp.symm.trans hprogress)).touch fun x hx => List.mem_append_left _ hx).frame hheap hwork
  | removeRoot r =>
    cases hs
    exact ⟨h.sound, h.idle, fun hp => (h.triColor hp).frame rfl rfl⟩
  | finish =>
    simp only [step] at hs
    split at hs
    · rename_i hempty
      cases hs
      exact ⟨sound_sweep h.sound _, fun _ => hempty, fun hp => absurd hp (by simp [finish])⟩
    · exact absurd hs (by simp)

theorem black_of_reaches {w : World} (h : w.Invariant) (hp : w.gc.gcInProgress = true)
    (hempty : w.gc.worklist = []) (hroots : ∀ r ∈ w.gc.roots, ¬ w.gc.HasColor r .white) {x : Nat}
    (hx : Reaches w.gc.Links (· ∈ w.gc.roots) x) (hlive : w.gc.Live x) : w.gc.HasColor x .black := by
  have ht := h.triColor hp
  have hblack : ∀ y, w.gc.Live y → ¬ w.gc.HasColor y .white → w.gc.HasColor y .black := by
    intro y hy hnot
    obtain ⟨c, hc⟩ := hy.hasColor
    cases c with
    | white => exact absurd hc hnot
    | black => exact hc
    | grey =>
      have hmem := (ht.grey y).1 hc
      rw [hempty, or_false] at hmem
      exact absurd hmem not_mem_nil
  refine hx.rule (P := fun y => w.gc.Live y → w.gc.HasColor y .black) ?_ ?_ hlive
  · exact fun r hr hr' => hblack r hr' (hroots r hr)
  · exact fun y z _ hy hl hz => hblack z hz (ht.black y z (hy hl.live) hl)

theorem eq_of_reaches_lone {gc : IncrementalGc} {start : Nat → Prop} {r x : Nat}
    (hstart : ∀ y, start y → y = r) (hrefs : (gc.heap.get r).map TriObject.refs = some [])
    (hx : Reaches gc.Links start x) : x = r := by
  refine hx.rule hstart ?_
  rintro y z - rfl ⟨o, ho, hz⟩
  rw [ho, Option.map_some, some.injEq] at hrefs
  exact absurd (hrefs ▸ hz) not_mem_nil

/-- **Incremental collection is safe, and exact up to what the mutator touched.** After every run:
during a cycle no black object refers to a white one, and the grey objects are those in the worklist; a
`finish` that ends a cycle keeps every object that can be reached from the roots, when no root is white;
and it frees every object that could not be reached at `begin`, neither from the roots nor from a handle
that was touched since. -/
theorem incremental_sweeps {w : World} (hreach : Reachable step start w) :
    (w.gc.gcInProgress = true →
      (∀ x y, w.gc.HasColor x .black → w.gc.Links x y → ¬ w.gc.HasColor y .white) ∧
      ∀ x, w.gc.HasColor x .grey ↔ x ∈ w.gc.worklist) ∧
    ∀ w', w.gc.gcInProgress = true → w.step .finish = some w' →
      ((∀ r ∈ w.gc.roots, ¬ w.gc.HasColor r .white) →
        ∀ x, Reaches w.gc.Links (· ∈ w.gc.roots) x → w'.gc.heap.get x = w.gc.heap.get x) ∧
      ∀ x, w.begun.Live x →
        ¬ Reaches w.begun.Links (fun r => r ∈ w.begun.roots ∨ r ∈ w.touched) x →
        w'.gc.heap.get x = none := by
  have h : w.Invariant := by
    refine hreach.invariant (I := Invariant) invariant_start ?_
    intro w op w' _ h _ hs
    exact invariant_step h hs
  refine ⟨?_, ?_⟩
  · intro hp
    have ht := h.triColor hp
    exact ⟨ht.black, fun x => (ht.grey x).trans (or_iff_left id)⟩
  · intro w' hp hs
    simp only [step] at hs
    split at hs
    · rename_i hempty
      cases hs
      have hswept : ∀ x, w.gc.finish.heap.get x =
          (w.gc.heap.get x).filter fun o => !decide (o.color = .white) := get_sweep w.gc.heap _
      refine ⟨?_, ?_⟩
      · intro hroots x hx
        dsimp only
        rw [hswept]
        cases hget : w.gc.heap.get x with
        | none => rfl
        | some o =>
          have hblack := black_of_reaches h hp hempty hroots hx (by rw [Live, hget]; simp)
          rw [HasColor, hget] at hblack
          have hcolor : o.color = .black := some.inj hblack
          simp [filter, hcolor]
      · intro x _ hnot
        dsimp only
        rw [hswept]
        cases hget : w.gc.heap.get x with
        | none => rfl
        | some o =>
          have hwhite : w.gc.HasColor x .white := by
            by_contra hcolor
            exact hnot ((h.triColor hp).origin x (by rw [Live, hget]; simp) hcolor)
          rw [HasColor, hget] at hwhite
          have hcolor : o.color = .white := some.inj hwhite
          simp [filter, hcolor]
    · exact absurd hs (by simp)

/-- Three objects, one of them a root and another one a parent of the third; a cycle has begun and scanned
the root. -/
def scannedRoot : List Op :=
  [.alloc ⟨[], []⟩, .alloc ⟨[], []⟩, .alloc ⟨[], []⟩, .writeRef 1 2, .addRoot 0, .begin, .step 10]

/-- The parent is written into the root, and the marking ends. -/
def parentWritten : List Op := scannedRoot ++ [.writeRef 0 1, .step 10]

/-- An object is made a root after the cycle began. -/
def rootedLate : List Op := [.alloc ⟨[], []⟩, .begin, .addRoot 0]

theorem incremental_sweeps_unreachable : ∃ w w' : World, exec step start scannedRoot = some w ∧
    w.step .finish = some w' ∧ w'.gc.heap.get 0 = w.gc.heap.get 0 ∧ w'.gc.heap.get 2 = none := by
  have hrun : (exec step start scannedRoot).bind (fun w => (w.step .finish).map fun _ => decide (w.gc.gcInProgress =
      true ∧ w.gc.roots = [0] ∧ w.begun.roots = [0] ∧ w.touched = [] ∧ (w.begun.heap.get 0).map TriObject.refs = some []
      ∧ w.begun.heap.get 2 ≠ none ∧ ¬ w.gc.HasColor 0 .white)) = some true := by
    rfl
  obtain ⟨w, hw, hstep⟩ := bind_eq_some_iff.1 hrun
  obtain ⟨w', hs, hfacts⟩ := map_eq_some_iff.1 hstep
  obtain ⟨hp, hroots, hbegun, htouched, hrefs, hlive, hcolor⟩ := of_decide_eq_true hfacts
  obtain ⟨hkept, hfreed⟩ := (incremental_sweeps (reachable_of_exec hw)).2 w' hp hs
  refine ⟨w, w', hw, hs, ?_, hfreed 2 hlive ?_⟩
  · refine hkept ?_ 0 (.of_start (hroots ▸ mem_singleton_self 0))
    intro r hr
    rw [hroots, mem_singleton] at hr
    exact hr ▸ hcolor
  · -- The root has no references, so nothing else could be reached at `begin`.
    intro hreached
    have hzero : 2 = 0 := by
      refine eq_of_reaches_lone (fun r hr => ?_) hrefs hreached
      rw [hbegun, htouched] at hr
      exact hr.elim mem_singleton.1 fun h => absurd h not_mem_nil
    exact absurd hzero (by decide)

/-- The object below the written one could not be reached at `begin` and was not touched, and survives. A
root that was added during the cycle is freed, and so is one that is allocated and swept outside a
cycle. -/
theorem child_survives :
    (∃ w w' : World, exec step start parentWritten = some w ∧ w.gc.gcInProgress = true ∧
      w.step .finish = some w' ∧ w.begun.Live 2 ∧
      ¬ Reaches w.begun.Links (· ∈ w.begun.roots) 2 ∧ 2 ∉ w.touched ∧ w'.gc.Live 2) ∧
    (∃ w w' : World, exec step start rootedLate = some w ∧ w.gc.gcInProgress = true ∧
      w.step .finish = some w' ∧ Reaches w.gc.Links (· ∈ w.gc.roots) 0 ∧ w.gc.Live 0 ∧
      ¬ w'.gc.Live 0) ∧
    ∃ w w' : World, exec step start [.alloc ⟨[], []⟩, .addRoot 0] = some w ∧
      w.step .finish = some w' ∧ Reaches w.gc.Links (· ∈ w.gc.roots) 0 ∧ w.gc.Live 0 ∧
      ¬ w'.gc.Live 0 := by
  have hrun₁ : (exec step start parentWritten).bind (fun w => (w.step .finish).map fun w' => decide (w.gc.gcInProgress =
      true ∧ w.begun.Live 2 ∧ w.begun.roots = [0] ∧ (w.begun.heap.get 0).map TriObject.refs = some [] ∧ 2 ∉ w.touched ∧
      w'.gc.Live 2)) =
      some true := by
    rfl
  have hrun₂ : (exec step start rootedLate).bind (fun w => (w.step .finish).map fun w' =>
      decide (w.gc.gcInProgress = true ∧ w.gc.roots = [0] ∧ w.gc.Live 0 ∧ ¬ w'.gc.Live 0)) =
      some true := by
    rfl
  have hrun₃ : (exec step start [.alloc ⟨[], []⟩, .addRoot 0]).bind (fun w => (w.step .finish).map fun w' => decide
      (w.gc.roots = [0] ∧ w.gc.Live 0 ∧ ¬ w'.gc.Live 0)) = some true := by
    rfl
  refine ⟨?_, ?_, ?_⟩
  · obtain ⟨w, hw, hstep⟩ := bind_eq_some_iff.1 hrun₁
    obtain ⟨w', hs, hfacts⟩ := map_eq_some_iff.1 hstep
    obtain ⟨hp, hlive, hroots, hrefs, hnot, hlive'⟩ := of_decide_eq_true hfacts
    refine ⟨w, w', hw, hp, hs, hlive, ?_, hnot, hlive'⟩
    intro hreached
    have hzero : 2 = 0 :=
      eq_of_reaches_lone (fun r hr => mem_singleton.1 (hroots ▸ hr)) hrefs hreached
    exact absurd hzero (by decide)
  · obtain ⟨w, hw, hstep⟩ := bind_eq_some_iff.1 hrun₂
    obtain ⟨w', hs, hfacts⟩ := map_eq_some_iff.1 hstep
    obtain ⟨hp, hroots, hlive, hdead⟩ := of_decide_eq_true hfacts
    exact ⟨w, w', hw, hp, hs, .of_start (hroots ▸ mem_singleton_self 0), hlive, hdead⟩
  · obtain ⟨w, hw, hstep⟩ := bind_eq_some_iff.1 hrun₃
    obtain ⟨w', hs, hfacts⟩ := map_eq_some_iff.1 hstep
    obtain ⟨hroots, hlive, hdead⟩ := of_decide_eq_true hfacts
    exact ⟨w, w', hw, hs, .of_start (hroots ▸ mem_singleton_self 0), hlive, hdead⟩

end World

end SystemDesignLabs.GarbageCollector
