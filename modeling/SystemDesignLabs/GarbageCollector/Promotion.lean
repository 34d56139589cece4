import SystemDesignLabs.GarbageCollector.Incremental

/-!
# What a collection of two generations keeps

`minor_gc` keeps the nursery objects that its own roots reach and that stay below the age of promotion; it
moves the older ones to empty tenured slots (`minorGc_spec`), and `major_gc` also keeps the tenured roots
(`majorGc_spec`). So a collection loses nothing exactly when no reachable object is promoted or is
out of reach of the roots of `minor_gc` (`keeps_iff`).
-/

namespace SystemDesignLabs.GarbageCollector

open Core Slots

namespace GenHeap

variable {g : GenHeap}

theorem foldl_markFrom (starts : List Nat) (g : GenHeap) :
    starts.foldl markFrom g = { g with heap := genMarking.markAll g.heap starts } := by
  induction starts generalizing g with
  | nil => rfl
  | cons start starts ih => exact ih _

/-- No object is marked. -/
def Unmarked (g : GenHeap) : Prop := ∀ h o, g.heap.get h = some o → o.marked = false

theorem Unmarked.congr {g' : GenHeap} (hu : g.Unmarked) (hheap : g'.heap = g.heap) : g'.Unmarked := by
  intro h o ho
  rw [hheap] at ho
  exact hu h o ho

/-- A collection keeps exactly the objects that can be reached, one collection older. -/
theorem sweep_spec (hu : g.Unmarked) (starts : List Nat) (h : Nat) (o : GenObject) :
    ({ g with heap := genMarking.markAll g.heap starts } : GenHeap).sweep.heap.get h = some o ↔
      ∃ o₀, g.heap.get h = some o₀ ∧ Reaches (Refers GenObject.refs g.heap) (· ∈ starts) h ∧
        o = { o₀ with age := o₀.age + 1 } := by
  have hswept := genMarking.get_swept hu starts (fun o => { o with marked := false, age := o.age + 1 }) h o
  refine hswept.trans ⟨fun ⟨a, ha, hreached, hsettled⟩ => ⟨a, ha, hreached, ?_⟩,
    fun ⟨a, ha, hreached, hsettled⟩ => ⟨a, ha, hreached, ?_⟩⟩
  all_goals
    have hfalse := hu h a ha
    cases a
    cases hfalse
    exact hsettled.symm

theorem unmarked_alloc (hs : g.heap.Sound) (hu : g.Unmarked) (value : GcValue) : (g.alloc value).2.Unmarked := by
  intro h o ho
  rw [alloc] at ho
  dsimp only at ho
  rw [get_alloc hs] at ho
  split at ho
  · exact Option.some.inj ho ▸ rfl
  · exact hu h o ho

theorem heap_addRoot (g : GenHeap) (h : Nat) : (g.addRoot h).heap = g.heap := by
  rw [addRoot]
  split
  · rfl
  · rfl

theorem unmarked_sweep (g : GenHeap) : g.sweep.Unmarked := by
  intro h o ho
  rw [sweep, get_mapAll] at ho
  obtain ⟨o₀, -, rfl⟩ := Option.map_eq_some_iff.1 ho
  rfl

theorem sound_sweep (hs : g.heap.Sound) : g.sweep.heap.Sound :=
  Slots.sound_mapAll (Slots.sound_sweep hs _) _

/-! ### Draining -/

theorem drainPromoted_eq (hs : g.heap.Sound) : g.drainPromoted = ((g.heap.select isPromoted).filterMap g.heap.get,
      { g with heap := g.heap.sweep isPromoted }) := by
  have hfree := freeList_sweep hs isPromoted
    (q := fun i => (g.heap.objects.map (Option.filter fun o => !isPromoted o))[i]? = some none) fun _ => .rfl
  rw [drainPromoted, filterMap_select]
  exact congrArg (Prod.mk _) (congrArg (GenHeap.mk · g.roots) (congrArg (Slots.mk _) hfree.symm))

theorem heap_foldl_alloc (values : List GcValue) (g : GenHeap) : values.foldl (fun g value => (g.alloc value).2) g =
      { g with heap := (g.heap.allocAll (values.map .fresh)).2 } := by
  induction values generalizing g with
  | nil => rfl
  | cons value values ih => exact ih _

end GenHeap

/-! ## One collection -/

namespace GenWorld

open GenHeap

variable {w w' : GenWorld} {n t : Nat} {o : GenObject}

/-- The slots are sound, nothing is marked between collections, and the recorded references are references
of tenured objects. -/
structure Invariant (w : GenWorld) : Prop where
  nurserySound : w.heap.nursery.heap.Sound
  tenuredSound : w.heap.tenured.heap.Sound
  nurseryUnmarked : w.heap.nursery.Unmarked
  tenuredUnmarked : w.heap.tenured.Unmarked
  recorded : ∀ t n, (t, n) ∈ w.recorded → n ∈ w.heap.tenuredRefs t

theorem mem_tenuredRefs {h : GenerationalHeap} : n ∈ h.tenuredRefs t ↔ ∃ o, h.tenured.get t = some o ∧ n ∈ o.refs := by
  rw [GenerationalHeap.tenuredRefs]
  cases h.tenured.get t with
  | none => simp
  | some o => simp

/-- The handles from which `minor_gc` marks. -/
def minorRoots (w : GenWorld) : List Nat :=
  w.heap.nursery.roots ++ w.heap.rememberedSet.flatMap w.heap.tenuredRefs

theorem mem_minorRoots : n ∈ w.minorRoots ↔ w.MinorRoot n := by
  rw [minorRoots, List.mem_append, List.mem_flatMap, MinorRoot]

theorem sweptNursery_eq (w : GenWorld) : w.heap.sweptNursery =
    ({ w.heap.nursery with heap := genMarking.markAll w.heap.nursery.heap w.minorRoots } : GenHeap).sweep := by
  rw [GenerationalHeap.sweptNursery]
  dsimp only
  rw [← List.foldl_flatMap, ← List.foldl_append, foldl_markFrom]
  rfl

theorem get_sweptNursery (h : w.Invariant) : w.heap.sweptNursery.heap.get n = some o ↔
    ∃ o₀, w.heap.nursery.get n = some o₀ ∧ w.MinorReached n ∧ o = { o₀ with age := o₀.age + 1 } := by
  rw [sweptNursery_eq, sweep_spec h.nurseryUnmarked]
  have hreached : Reaches (Refers GenObject.refs w.heap.nursery.heap) (· ∈ w.minorRoots) n ↔
      w.MinorReached n := by
    rw [MinorReached]
    simp only [mem_minorRoots]
  rw [hreached]
  rfl

theorem sound_sweptNursery (h : w.Invariant) : w.heap.sweptNursery.heap.Sound := by
  rw [sweptNursery_eq]
  exact sound_sweep (g := { w.heap.nursery with heap := genMarking.markAll w.heap.nursery.heap w.minorRoots })
    (genMarking.sound_markAll w.minorRoots h.nurserySound)

theorem nursery_minorGc (h : w.Invariant) : w.heap.minorGc.nursery =
    { w.heap.sweptNursery with heap := w.heap.sweptNursery.heap.sweep isPromoted } := by
  rw [GenerationalHeap.minorGc]
  dsimp only
  rw [drainPromoted_eq (sound_sweptNursery h)]

theorem tenured_minorGc (w : GenWorld) : w.heap.minorGc.tenured = { w.heap.tenured with
      heap := (w.heap.tenured.heap.allocAll (w.heap.sweptNursery.drainPromoted.1.map fun o => .fresh o.value)).2 } := by
  rw [GenerationalHeap.minorGc]
  dsimp only
  have hvalues := heap_foldl_alloc (w.heap.sweptNursery.drainPromoted.1.map (·.value)) w.heap.tenured
  rw [List.foldl_map, List.map_map] at hvalues
  exact hvalues

section

variable (h : w.Invariant)
include h

theorem mem_promoted : n ∈ w.promoted ↔ ∃ o, w.heap.nursery.get n = some o ∧
    w.MinorReached n ∧ promotionThreshold ≤ o.age + 1 := by
  rw [promoted, mem_select]
  simp only [get_sweptNursery h, isPromoted, decide_eq_true_iff]
  constructor
  · rintro ⟨-, ⟨o, ho, hreached, rfl⟩, hage⟩
    exact ⟨o, ho, hreached, hage⟩
  · rintro ⟨o, ho, hreached, hage⟩
    exact ⟨_, ⟨o, ho, hreached, rfl⟩, hage⟩

/-- `minor_gc` keeps in the nursery what its roots reach and what is not promoted. -/
theorem get_nursery_minorGc : w.heap.minorGc.nursery.get n = some o ↔
    ∃ o₀, w.heap.nursery.get n = some o₀ ∧ w.MinorReached n ∧ o₀.age + 1 < promotionThreshold ∧
      o = { o₀ with age := o₀.age + 1 } := by
  rw [nursery_minorGc h, GenHeap.get, get_sweep, Option.filter_eq_some_iff, get_sweptNursery h]
  constructor
  · rintro ⟨⟨o₀, ho₀, hreached, rfl⟩, hage⟩
    refine ⟨o₀, ho₀, hreached, ?_, rfl⟩
    simpa [isPromoted] using hage
  · rintro ⟨o₀, ho₀, hreached, hage, rfl⟩
    refine ⟨⟨o₀, ho₀, hreached, rfl⟩, ?_⟩
    simpa [isPromoted] using hage

theorem get_tenured_minorGc (ho : w.heap.tenured.get t = some o) :
    w.heap.minorGc.tenured.get t = some o := by
  rw [tenured_minorGc]
  exact (allocAll_spec _ h.tenuredSound).2.1 t o ho

theorem relocate_of_not_mem (hn : n ∉ w.promoted) : w.relocate (.nursery n) = .nursery n := by
  have hnone : w.promotedTo[w.promoted.idxOf n]? = none := by
    rw [List.getElem?_eq_none_iff, List.idxOf_eq_length hn, promotedTo, length_allocAll,
      List.length_map, drainPromoted_eq (sound_sweptNursery h)]
    exact List.length_filterMap_le _ _
  rw [relocate, hnone]

/-- A promoted object is moved to a tenured slot that was empty, with its value. -/
theorem relocate_of_mem (hn : n ∈ w.promoted) : ∃ t o,
    w.relocate (.nursery n) = .tenured t ∧ w.heap.tenured.get t = none ∧
      w.heap.nursery.get n = some o ∧ w.heap.minorGc.tenured.get t = some (.fresh o.value) := by
  obtain ⟨o, ho, hreached, -⟩ := (mem_promoted h).1 hn
  have hswept : w.heap.sweptNursery.heap.get n = some { o with age := o.age + 1 } :=
    (get_sweptNursery h).2 ⟨o, ho, hreached, rfl⟩
  have hdrained : w.heap.sweptNursery.drainPromoted.1[w.promoted.idxOf n]? =
      some { o with age := o.age + 1 } := by
    rw [drainPromoted_eq (sound_sweptNursery h), getElem?_filterMap_select, ← promoted, List.getElem?_idxOf hn]
    exact hswept
  have hlt : w.promoted.idxOf n < w.promotedTo.length := by
    rw [promotedTo, length_allocAll, List.length_map]
    exact (List.getElem?_eq_some_iff.1 hdrained).1
  obtain ⟨-, -, hnew⟩ := allocAll_spec
    (w.heap.sweptNursery.drainPromoted.1.map fun o => .fresh o.value) h.tenuredSound
  obtain ⟨hdead, hget⟩ := hnew _ _ (List.getElem?_eq_getElem hlt)
  refine ⟨_, o, ?_, hdead, ho, ?_⟩
  · rw [relocate, List.getElem?_eq_getElem hlt]
  · rw [tenured_minorGc]
    refine hget.trans ?_
    rw [List.getElem?_map, hdrained]
    rfl

end

/-- What a collection does to the nursery and to the objects that are tenured roots. -/
structure Collected (w w' : GenWorld) : Prop where
  nurseryRoots : w'.heap.nursery.roots = w.heap.nursery.roots
  tenuredRoots : w'.heap.tenured.roots = w.heap.tenured.roots
  nursery : ∀ n o, w'.heap.nursery.get n = some o ↔ ∃ o₀, w.heap.nursery.get n = some o₀ ∧
    w.MinorReached n ∧ o₀.age + 1 < promotionThreshold ∧ o = { o₀ with age := o₀.age + 1 }
  tenured : ∀ t o, t ∈ w.heap.tenured.roots → w.heap.tenured.get t = some o →
    ∃ o', w'.heap.tenured.get t = some o' ∧ o'.value = o.value
  recorded : ∀ t n, t ∈ w.heap.tenured.roots → w.heap.tenured.get t ≠ none →
    ((t, n) ∈ w'.recorded ↔ (t, n) ∈ w.recorded)

section

variable (h : w.Invariant)
include h

theorem collected_minorGc (hs : w.step .minorGc = some w') : Collected w w' := by
  cases hs
  refine ⟨?_, ?_, fun n o => get_nursery_minorGc h, ?_, fun _ _ _ _ => .rfl⟩
  · dsimp only
    rw [nursery_minorGc h, sweptNursery_eq]
    rfl
  · dsimp only
    rw [tenured_minorGc]
  · exact fun t o _ ho => ⟨o, get_tenured_minorGc h ho, rfl⟩

theorem invariant_minorGc (hs : w.step .minorGc = some w') : w'.Invariant := by
  cases hs
  refine ⟨?_, ?_, ?_, ?_, ?_⟩
  · dsimp only
    rw [nursery_minorGc h]
    exact sound_sweep (sound_sweptNursery h) _
  · dsimp only
    rw [tenured_minorGc]
    exact (allocAll_spec _ h.tenuredSound).1
  · intro n o ho
    obtain ⟨o₀, ho₀, -, -, rfl⟩ := (get_nursery_minorGc h).1 ho
    exact h.nurseryUnmarked n o₀ ho₀
  · intro t o ho
    dsimp only at ho
    rw [tenured_minorGc] at ho
    obtain ho | hmem := mem_of_get_allocAll _ h.tenuredSound ho
    · exact h.tenuredUnmarked t o ho
    · obtain ⟨_, -, rfl⟩ := List.mem_map.1 hmem
      rfl
  · intro t n hmem
    obtain ⟨o, ho, hn⟩ := mem_tenuredRefs.1 (h.recorded t n hmem)
    exact mem_tenuredRefs.2 ⟨o, get_tenured_minorGc h ho, hn⟩

theorem get_tenured_majorGc : w.heap.majorGc.tenured.get t = some o ↔
    ∃ o₀, w.heap.minorGc.tenured.get t = some o₀ ∧
      Reaches (Refers GenObject.refs w.heap.minorGc.tenured.heap) (· ∈ w.heap.tenured.roots) t ∧
      o = { o₀ with age := o₀.age + 1 } := by
  have hroots := (collected_minorGc h rfl).tenuredRoots
  dsimp only at hroots
  rw [GenerationalHeap.majorGc]
  dsimp only
  rw [foldl_markFrom, hroots]
  exact sweep_spec (invariant_minorGc h rfl).tenuredUnmarked _ _ _

theorem collected_majorGc (hs : w.step .majorGc = some w') : Collected w w' := by
  have hminor := collected_minorGc h rfl
  cases hs
  have htenured : ∀ t o, t ∈ w.heap.tenured.roots → w.heap.tenured.get t = some o →
      ∃ o', w.heap.majorGc.tenured.get t = some o' ∧ o'.value = o.value := by
    intro t o ht ho
    exact ⟨_, (get_tenured_majorGc h).2 ⟨o, get_tenured_minorGc h ho, .of_start ht, rfl⟩, rfl⟩
  refine ⟨hminor.nurseryRoots, ?_, hminor.nursery, htenured, ?_⟩
  · refine Eq.trans ?_ hminor.tenuredRoots
    dsimp only
    rw [GenerationalHeap.majorGc]
    dsimp only
    rw [foldl_markFrom]
    rfl
  · intro t n ht hlive
    obtain ⟨o, ho⟩ := Option.ne_none_iff_exists'.1 hlive
    obtain ⟨o', ho', -⟩ := htenured t o ht ho
    dsimp only
    rw [List.mem_filter, ho']
    exact and_iff_left rfl

theorem invariant_majorGc (hs : w.step .majorGc = some w') : w'.Invariant := by
  have hminor := invariant_minorGc h rfl
  cases hs
  have htenured : w.heap.majorGc.tenured = ({ w.heap.minorGc.tenured with
      heap := genMarking.markAll w.heap.minorGc.tenured.heap w.heap.minorGc.tenured.roots } : GenHeap).sweep := by
    rw [GenerationalHeap.majorGc]
    dsimp only
    rw [foldl_markFrom]
  refine ⟨hminor.nurserySound, ?_, hminor.nurseryUnmarked, ?_, ?_⟩
  · dsimp only
    rw [htenured]
    exact GenHeap.sound_sweep (genMarking.sound_markAll _ hminor.tenuredSound)
  · dsimp only
    rw [htenured]
    exact unmarked_sweep _
  · intro t n hmem
    obtain ⟨hmem, hlive⟩ := List.mem_filter.1 hmem
    obtain ⟨o, ho⟩ := Option.isSome_iff_exists.1 hlive
    obtain ⟨o₀, ho₀, -, rfl⟩ := (get_tenured_majorGc h).1 ho
    obtain ⟨o, ho', hn⟩ := mem_tenuredRefs.1 (hminor.recorded t n hmem)
    cases ho₀.symm.trans ho'
    exact mem_tenuredRefs.2 ⟨_, ho, hn⟩

end

/-! ## Runs -/

theorem invariant_start : start.Invariant := by
  have hnone : ∀ h, (empty : Slots GenObject).get h = none := fun _ => rfl
  refine ⟨sound_empty, sound_empty, ?_, ?_, fun _ _ h => absurd h List.not_mem_nil⟩
  · exact fun h o ho => absurd ((hnone h).symm.trans ho) (by simp)
  · exact fun h o ho => absurd ((hnone h).symm.trans ho) (by simp)

/-- Every operation keeps the invariant. -/
theorem invariant_step {op : GenOp} (h : w.Invariant) (hs : w.step op = some w') : w'.Invariant := by
  cases op with
  | alloc value =>
    cases hs
    exact ⟨sound_alloc h.nurserySound _, h.tenuredSound,
      unmarked_alloc h.nurserySound h.nurseryUnmarked value, h.tenuredUnmarked, h.recorded⟩
  | allocTenured value =>
    cases hs
    refine ⟨h.nurserySound, sound_alloc h.tenuredSound _, h.nurseryUnmarked,
      unmarked_alloc h.tenuredSound h.tenuredUnmarked value, ?_⟩
    intro t n hmem
    obtain ⟨o, ho, hn⟩ := mem_tenuredRefs.1 (h.recorded t n hmem)
    exact mem_tenuredRefs.2 ⟨o, get_alloc_of_some h.tenuredSound _ ho, hn⟩
  | addNurseryRoot r =>
    cases hs
    have hheap := heap_addRoot w.heap.nursery r
    exact ⟨hheap ▸ h.nurserySound, h.tenuredSound, h.nurseryUnmarked.congr hheap, h.tenuredUnmarked, h.recorded⟩
  | addTenuredRoot r =>
    cases hs
    have hheap := heap_addRoot w.heap.tenured r
    refine ⟨h.nurserySound, hheap ▸ h.tenuredSound, h.nurseryUnmarked, h.tenuredUnmarked.congr hheap, ?_⟩
    intro t n hmem
    obtain ⟨o, ho, hn⟩ := mem_tenuredRefs.1 (h.recorded t n hmem)
    exact mem_tenuredRefs.2 ⟨o, (congrArg (Slots.get · t) hheap).trans ho, hn⟩
  | removeNurseryRoot r =>
    cases hs
    exact ⟨h.nurserySound, h.tenuredSound, h.nurseryUnmarked, h.tenuredUnmarked, h.recorded⟩
  | removeTenuredRoot r =>
    cases hs
    exact ⟨h.nurserySound, h.tenuredSound, h.nurseryUnmarked, h.tenuredUnmarked, h.recorded⟩
  | writeBarrier t n =>
    cases hs
    have hget : ∀ k, (w.heap.writeBarrier t n).tenured.get k = if k = t then
        (w.heap.tenured.get t).map fun o => { o with value := o.value.addRef n }
        else w.heap.tenured.get k := get_adjust _ _ _
    have hkept : ∀ k m, m ∈ w.heap.tenuredRefs k → m ∈ (w.heap.writeBarrier t n).tenuredRefs k := by
      intro k m hm
      obtain ⟨o, ho, hm⟩ := mem_tenuredRefs.1 hm
      rw [mem_tenuredRefs, hget]
      split
      · rename_i hk
        rw [← hk, ho]
        exact ⟨_, rfl, GcValue.mem_addRef.2 (.inl hm)⟩
      · exact ⟨o, ho, hm⟩
    refine ⟨h.nurserySound, sound_adjust h.tenuredSound _ _, h.nurseryUnmarked, ?_, ?_⟩
    · intro k o ho
      have ho := (hget k).symm.trans ho
      split at ho
      · obtain ⟨o₀, ho₀, rfl⟩ := Option.map_eq_some_iff.1 ho
        exact h.tenuredUnmarked t o₀ ho₀
      · exact h.tenuredUnmarked k o ho
    · intro k m hmem
      dsimp only at hmem ⊢
      split at hmem
      · rename_i hlive
        obtain hmem | hmem := List.mem_append.1 hmem
        · exact hkept k m (h.recorded k m hmem)
        · cases List.mem_singleton.1 hmem
          obtain ⟨o, ho⟩ := Option.isSome_iff_exists.1 hlive
          rw [mem_tenuredRefs, hget, if_pos rfl, ho]
          exact ⟨_, rfl, GcValue.mem_addRef.2 (.inr rfl)⟩
      · exact hkept k m (h.recorded k m hmem)
  | minorGc => exact invariant_minorGc h hs
  | majorGc => exact invariant_majorGc h hs

/-! ## What is kept -/

theorem live_of_edge {x y : Loc} (hedge : w.Edge x y) : w.object y ≠ none := by
  cases x <;> cases y
  · exact hedge.2
  · exact hedge.elim
  · exact hedge.2
  · exact hedge.elim

variable {x : Loc}

theorem not_edge_tenured : ¬ w.Edge x (.tenured t) := by
  cases x <;> exact id

theorem root_of_reaches_tenured (hx : Reaches w.Edge w.Root (.tenured t)) : w.Root (.tenured t) := by
  obtain ⟨r, hr, hpath⟩ := hx
  obtain rfl | ⟨y, -, hedge⟩ := hpath.cases_tail
  · exact hr
  · exact absurd hedge not_edge_tenured

theorem live_of_reaches (hx : Reaches w.Edge w.Root x) : w.object x ≠ none :=
  hx.rule (fun x (hr : w.Root x) => hr.1) fun _ _ _ _ => live_of_edge

theorem Stays.relocate_eq (h : w.Invariant) (hstays : w.Stays) (hx : Reaches w.Edge w.Root x) : w.relocate x = x := by
  cases x with
  | tenured t => rfl
  | nursery n =>
    refine relocate_of_not_mem h fun hn => ?_
    obtain ⟨o, ho, -, hage⟩ := (mem_promoted h).1 hn
    exact absurd (hstays n o hx ho).2 (Nat.not_lt.2 hage)

theorem Stays.object_eq (hc : Collected w w') (hstays : w.Stays) (hx : Reaches w.Edge w.Root x) :
    ∃ o o', w.object x = some o ∧ w'.object x = some o' ∧ o'.value = o.value := by
  obtain ⟨o, ho⟩ := Option.ne_none_iff_exists'.1 (live_of_reaches hx)
  cases x with
  | tenured t =>
    obtain ⟨o', ho', hvalue⟩ := hc.tenured t o (root_of_reaches_tenured hx).2 ho
    exact ⟨o, o', ho, ho', hvalue⟩
  | nursery n =>
    obtain ⟨hreached, hage⟩ := hstays n o hx ho
    exact ⟨o, _, ho, (hc.nursery n _).2 ⟨o, ho, hreached, hage, rfl⟩, rfl⟩

theorem Stays.edge_iff (hc : Collected w w') (hstays : w.Stays) {y : Loc}
    (hx : Reaches w.Edge w.Root x) : w'.Edge x y ↔ w.Edge x y := by
  have hback : ∀ n, w'.heap.nursery.get n ≠ none → w.heap.nursery.get n ≠ none := by
    intro n hlive
    obtain ⟨o', ho'⟩ := Option.ne_none_iff_exists'.1 hlive
    obtain ⟨o, ho, -⟩ := (hc.nursery n o').1 ho'
    rw [ho]
    simp
  have hforth : ∀ n, w.Edge x (.nursery n) → w'.heap.nursery.get n ≠ none := by
    intro n hedge
    obtain ⟨_, o', -, ho', -⟩ := hstays.object_eq hc (hx.step hedge)
    exact fun hnone => absurd (hnone.symm.trans ho') (by simp)
  obtain ⟨o, o', ho, ho', hvalue⟩ := hstays.object_eq hc hx
  cases y with
  | tenured t => exact iff_of_false not_edge_tenured not_edge_tenured
  | nursery n =>
    cases x with
    | nursery m =>
      have hrefs : Refers GenObject.refs w'.heap.nursery.heap m n ↔
          Refers GenObject.refs w.heap.nursery.heap m n := by
        have hget : w.heap.nursery.heap.get m = some o := ho
        have hget' : w'.heap.nursery.heap.get m = some o' := ho'
        rw [Refers, Refers, hget, hget']
        simp only [Option.some.injEq, exists_eq_left', GenObject.refs, hvalue]
      exact ⟨fun hedge => ⟨hrefs.1 hedge.1, hback n hedge.2⟩, fun hedge => ⟨hrefs.2 hedge.1, hforth n hedge⟩⟩
    | tenured t =>
      have hroot := root_of_reaches_tenured hx
      have hrecorded := hc.recorded t n hroot.2 hroot.1
      exact ⟨fun hedge => ⟨hrecorded.1 hedge.1, hback n hedge.2⟩, fun hedge => ⟨hrecorded.2 hedge.1, hforth n hedge⟩⟩

/-- A collection loses nothing exactly when every reachable object stays. -/
theorem keeps_iff (h : w.Invariant) (hc : Collected w w') : w.Keeps w' ↔ w.Stays := by
  constructor
  · rintro hkeeps n o ⟨r, hr, hpath⟩ ho
    obtain ⟨-, hpath', hdata, -⟩ := hkeeps r (.nursery n) hr hpath
    by_cases hn : n ∈ w.promoted
    · -- A promoted object would be in a new tenured slot, which nothing refers to.
      obtain ⟨t, _, hrelocate, hdead, -⟩ := relocate_of_mem h hn
      rw [hrelocate] at hpath'
      obtain rfl | ⟨y, -, hedge⟩ := hpath'.cases_tail
      · exact absurd hdead hr.1
      · exact absurd hedge not_edge_tenured
    · have hget : w.object (.nursery n) = some o := ho
      rw [relocate_of_not_mem h hn, hget] at hdata
      obtain ⟨o', ho', -⟩ := Option.map_eq_some_iff.1 hdata
      obtain ⟨o₀, ho₀, hreached, hage, -⟩ := (hc.nursery n o').1 ho'
      cases ho.symm.trans ho₀
      exact ⟨hreached, hage⟩
  · intro hstays r x hr hpath
    have hx : Reaches w.Edge w.Root x := ⟨r, hr, hpath⟩
    have hpath' : ∀ y, Relation.ReflTransGen w.Edge r y → Relation.ReflTransGen w'.Edge r y := by
      intro y hy
      induction hy with
      | refl => exact .refl
      | tail hy hedge ih => exact ih.tail ((hstays.edge_iff hc ⟨r, hr, hy⟩).2 hedge)
    obtain ⟨o, o', ho, ho', hvalue⟩ := hstays.object_eq hc hx
    rw [hstays.relocate_eq h hx]
    refine ⟨⟨?_, ?_⟩, hpath' x hpath, ?_, ?_⟩
    · obtain ⟨_, o', -, ho', -⟩ := hstays.object_eq hc (.of_start hr)
      rw [ho']
      simp
    · cases r with
      | nursery n => exact hc.nurseryRoots ▸ hr.2
      | tenured t => exact hc.tenuredRoots ▸ hr.2
    · rw [ho, ho', Option.map_some, Option.map_some, hvalue]
    · intro z
      rw [hstays.edge_iff hc hx]
      constructor
      · intro hedge
        exact ⟨z, hedge, hstays.relocate_eq h (hx.step hedge)⟩
      · rintro ⟨y, hedge, rfl⟩
        rw [hstays.relocate_eq h (hx.step hedge)]
        exact hedge

/-- **A collection loses nothing exactly when every reachable object stays in the nursery and can be
reached from the roots of `minor_gc`.** This holds for both collections, in every state that a run
reaches. -/
theorem collection_keeps_iff (hreach : Reachable step start w) {op : GenOp}
    (hop : op = .minorGc ∨ op = .majorGc) (hs : w.step op = some w') : w.Keeps w' ↔ w.Stays := by
  have h : w.Invariant := by
    refine hreach.invariant (I := Invariant) invariant_start ?_
    intro w op w' _ h _ hs
    exact invariant_step h hs
  obtain rfl | rfl := hop
  · exact keeps_iff h (collected_minorGc h hs)
  · exact keeps_iff h (collected_majorGc h hs)

/-- A tenured root refers to an object in the nursery. -/
def rootedTenured : List GenOp :=
  [.allocTenured ⟨[], []⟩, .addTenuredRoot 0, .alloc ⟨[7], []⟩, .writeBarrier 0 0]

theorem collection_keeps_iff_remembered : ∃ w w' : GenWorld, exec step start rootedTenured = some w ∧
    w.step .minorGc = some w' ∧ w.Keeps w' := by
  have hrun : (exec step start rootedTenured).bind (fun w => (w.step .minorGc).map fun _ => decide
      (w.heap.nursery.heap.objects = [some (.fresh ⟨[7], []⟩)] ∧ w.heap.rememberedSet = [0] ∧ w.heap.tenuredRefs 0 =
      [0])) = some true := by
    rfl
  obtain ⟨w, hw, hstep⟩ := Option.bind_eq_some_iff.1 hrun
  obtain ⟨w', hs, hfacts⟩ := Option.map_eq_some_iff.1 hstep
  obtain ⟨hobjects, hremembered, hrefs⟩ := of_decide_eq_true hfacts
  refine ⟨w, w', hw, hs, (collection_keeps_iff (reachable_of_exec hw) (.inl rfl) hs).2 ?_⟩
  intro n o _ ho
  have hn : n < 1 := by
    have hlt := lt_length_of_get ho
    rw [hobjects] at hlt
    exact hlt
  obtain rfl : n = 0 := Nat.lt_one_iff.1 hn
  refine ⟨.of_start (.inr ⟨0, ?_, ?_⟩), ?_⟩
  · exact hremembered ▸ List.mem_singleton_self 0
  · exact hrefs ▸ List.mem_singleton_self 0
  · rw [GenHeap.get, Slots.get, hobjects] at ho
    cases ho
    decide

/-- An object that survived one collection is promoted by the next one, and nothing can be reached any
more; and a reference that was recorded before a `major_gc` does not protect its object from the next
`minor_gc`. -/
theorem promotion_loses :
    (∃ w w' : GenWorld,
      exec step start [.alloc ⟨[7], []⟩, .addNurseryRoot 0, .minorGc] = some w ∧
      w.step .minorGc = some w' ∧ w.Root (.nursery 0) ∧ (∀ r, ¬ w'.Root r) ∧
      w'.heap.tenured.get 0 = some (.fresh ⟨[7], []⟩) ∧ ¬ w.Keeps w') ∧
    ∃ w w' : GenWorld, exec step start (rootedTenured ++ [.majorGc]) = some w ∧
      w.step .minorGc = some w' ∧ w.Root (.tenured 0) ∧ w.Edge (.tenured 0) (.nursery 0) ∧
      w'.object (.nursery 0) = none ∧ ¬ w.Keeps w' := by
  have hrun₁ : (exec step start [.alloc ⟨[7], []⟩, .addNurseryRoot 0, .minorGc]).bind (fun w => (w.step .minorGc).map
      fun w' => decide (w.heap.nursery.roots = [0] ∧ w.heap.nursery.get 0 ≠ none ∧ w'.heap.nursery.roots = [0] ∧
      w'.heap.nursery.get 0 = none ∧ w'.heap.tenured.roots = [] ∧ w'.heap.tenured.get 0 = some (.fresh ⟨[7],
      []⟩))) = some true := by
    rfl
  have hrun₂ : (exec step start (rootedTenured ++ [.majorGc])).bind (fun w => (w.step .minorGc).map fun w' => decide
      (w.heap.tenured.roots = [0] ∧ w.heap.tenured.get 0 ≠ none ∧ w.recorded = [(0, 0)] ∧ w.heap.nursery.get 0 ≠ none ∧
      w.relocate (.nursery 0) = .nursery 0 ∧ w'.heap.nursery.get 0 = none)) = some true := by
    rfl
  refine ⟨?_, ?_⟩
  · obtain ⟨w, hw, hstep⟩ := Option.bind_eq_some_iff.1 hrun₁
    obtain ⟨w', hs, hfacts⟩ := Option.map_eq_some_iff.1 hstep
    obtain ⟨hroots, hlive, hroots', hdead, htenured, hpromoted⟩ := of_decide_eq_true hfacts
    have hroot : w.Root (.nursery 0) := ⟨hlive, hroots ▸ List.mem_singleton_self 0⟩
    have hnone : ∀ r, ¬ w'.Root r := by
      rintro (n | t) ⟨hlive', hmem⟩
      · have hmem : n ∈ w'.heap.nursery.roots := hmem
        rw [hroots', List.mem_singleton] at hmem
        exact hlive' (hmem ▸ hdead)
      · have hmem : t ∈ w'.heap.tenured.roots := hmem
        rw [htenured] at hmem
        exact absurd hmem List.not_mem_nil
    exact ⟨w, w', hw, hs, hroot, hnone, hpromoted, fun hkeeps => hnone _ (hkeeps _ _ hroot .refl).1⟩
  · obtain ⟨w, hw, hstep⟩ := Option.bind_eq_some_iff.1 hrun₂
    obtain ⟨w', hs, hfacts⟩ := Option.map_eq_some_iff.1 hstep
    obtain ⟨hroots, hlive, hrecorded, hnursery, hrelocate, hdead⟩ := of_decide_eq_true hfacts
    have hroot : w.Root (.tenured 0) := ⟨hlive, hroots ▸ List.mem_singleton_self 0⟩
    have hedge : w.Edge (.tenured 0) (.nursery 0) := ⟨hrecorded ▸ List.mem_singleton_self _, hnursery⟩
    have hdead : w'.object (.nursery 0) = none := hdead
    have hnursery : w.object (.nursery 0) ≠ none := hnursery
    refine ⟨w, w', hw, hs, hroot, hedge, hdead, fun hkeeps => ?_⟩
    obtain ⟨-, -, hdata, -⟩ := hkeeps _ _ hroot (.single hedge)
    rw [hrelocate, hdead] at hdata
    exact hnursery (Option.map_eq_none_iff.1 hdata.symm)

end GenWorld

end SystemDesignLabs.GarbageCollector
