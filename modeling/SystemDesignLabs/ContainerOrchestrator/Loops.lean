import SystemDesignLabs.ContainerOrchestrator.Bookkeeping
import SystemDesignLabs.Core.Fallible

/-!
# The loops over pods

`addPods` appends entries with consecutive indices to those of the deployment and `terminatePods`
removes entries. A rolling update alternates the two: after `k` rounds it has started the smaller of
`R` and `k * maxSurge` new pods and terminated the smaller of the old ones and `k * maxUnavailable`.
Between equal replica counts the number of pods is extreme after the two halves of a round, which
reduces the promised bounds to two inequalities (`surge_upper`, `surge_lower`).
-/

namespace SystemDesignLabs.ContainerOrchestrator

open Function (update update_idem update_self)

open Core

/-! ## Entries of one ReplicaSet -/

/-- The entries are those of a ReplicaSet: consecutive indices under one serial number, all with its
image. -/
def Indexed (serial : Nat) (image : Name) (es : List Entry) : Prop :=
  ∀ (i : Nat) (e : Entry), es[i]? = some e → e.serial = serial ∧ e.index = i ∧ e.image = image

theorem Indexed.nil (serial : Nat) (image : Name) : Indexed serial image [] := by
  intro i e h
  cases h

variable {es : List Entry} {serial : Nat} {image : Name}

section

variable (h : Indexed serial image es)
include h

theorem Indexed.concat {e : Entry} (hserial : e.serial = serial)
    (hindex : e.index = es.length) (himage : e.image = image) : Indexed serial image (es ++ [e]) := by
  intro i e' hget
  rcases Nat.lt_trichotomy i es.length with hlt | heq | hgt
  · rw [List.getElem?_append_left hlt] at hget
    exact h i e' hget
  · subst heq
    rw [List.getElem?_concat_length, Option.some.injEq] at hget
    subst hget
    exact ⟨hserial, hindex, himage⟩
  · rw [List.getElem?_eq_none (by rw [List.length_append, List.length_singleton]; omega)] at hget
    cases hget

theorem Indexed.take (n : Nat) : Indexed serial image (es.take n) := by
  intro i e hget
  rw [List.getElem?_take] at hget
  split at hget
  · exact h i e hget
  · cases hget

theorem Indexed.of_mem {e : Entry} (he : e ∈ es) :
    e.serial = serial ∧ e.index < es.length ∧ e.image = image := by
  obtain ⟨i, hget⟩ := List.mem_iff_getElem?.1 he
  obtain ⟨hserial, hindex, himage⟩ := h i e hget
  exact ⟨hserial, hindex ▸ (List.getElem?_eq_some_iff.1 hget).1, himage⟩

end

/-! ## Creating pods -/

/-- The steps of a call that are new lie between two numbers of pods. -/
def StepsWithin (c c' : Controller) (lo hi : Nat) : Prop :=
  ∀ x ∈ c'.steps, x ∈ c.steps ∨ ((lo : Int) ≤ x ∧ x ≤ (hi : Int))

theorem StepsWithin.refl (c : Controller) (lo hi : Nat) : StepsWithin c c lo hi :=
  fun _ hx => .inl hx

variable {lo hi lo' hi' lo'' hi'' : Nat}

theorem StepsWithin.trans {c c' c'' : Controller} (h : StepsWithin c c' lo hi)
    (h' : StepsWithin c' c'' lo' hi') (hlo : lo'' ≤ lo) (hlo' : lo'' ≤ lo') (hhi : hi ≤ hi'')
    (hhi' : hi' ≤ hi'') : StepsWithin c c'' lo'' hi'' := by
  intro x hx
  rcases h' x hx with hx | hx
  · rcases h x hx with hx | hx
    · exact .inl hx
    · exact .inr (by omega)
  · exact .inr (by omega)

variable {own : Name → List Entry}

variable {c : Controller}

theorem stepsWithin_note (h : Inv c own) (d : Name) :
    StepsWithin c (c.note d) (own d).length (own d).length := by
  intro x hx
  rcases List.mem_append.1 hx with hx | hx
  · exact .inl hx
  · rw [List.mem_singleton.1 hx, h.live d]
    exact .inr ⟨le_refl _, le_refl _⟩

theorem Inv.note (h : Inv c own) (d : Name) : Inv (c.note d) own :=
  h.congr rfl rfl rfl

theorem frame_note (c : Controller) (d : Name) : Frame c (c.note d) :=
  ⟨rfl, rfl, rfl⟩

/-- What a loop over the pods of a deployment leaves behind: new books that differ from the old ones at
this deployment only. -/
structure Rebooked (c c' : Controller) (own : Name → List Entry) (d : Name) (es : List Entry)
    (lo hi : Nat) : Prop where
  inv : Inv c' (Function.update own d es)
  frame : Frame c c'
  steps : StepsWithin c c' lo hi

variable {d : Name}

theorem Rebooked.trans {c c' c'' : Controller} {es' : List Entry} (h : Rebooked c c' own d es lo hi)
    (h' : Rebooked c' c'' (Function.update own d es) d es' lo' hi') (hlo : lo'' ≤ lo) (hlo' : lo'' ≤ lo')
    (hhi : hi ≤ hi'') (hhi' : hi' ≤ hi'') : Rebooked c c'' own d es' lo'' hi'' := by
  refine ⟨?_, h.frame.trans h'.frame, h.steps.trans h'.steps hlo hlo' hhi hhi'⟩
  have hinv := h'.inv
  rwa [update_idem] at hinv

theorem Rebooked.mono {c c' : Controller} (h : Rebooked c c' own d es lo hi)
    (hlo : lo' ≤ lo) (hhi : hi ≤ hi') : Rebooked c c' own d es lo' hi' := by
  refine ⟨h.inv, h.frame, fun x hx => ?_⟩
  rcases h.steps x hx with hx | hx
  · exact .inl hx
  · exact .inr (by omega)

theorem Rebooked.refl (h : Inv c own) (hes : own d = es) (lo hi : Nat) :
    Rebooked c c own d es lo hi := by
  subst hes
  exact ⟨by rwa [Function.update_eq_self], Frame.refl c, StepsWithin.refl c lo hi⟩

section Add

variable {d : Deployment} {serial : Nat}

/-- The creation loop appends entries to those of its ReplicaSet. The names are new unless the
other pods of the deployment bear the same serial number. -/
theorem addPods_spec {base : List Entry} {n : Nat} (hfresh : n ≠ 0 → ∀ e ∈ base, e.serial ≠ serial)
    {c c' : Controller} {ids' : List Nat}
    (h : Inv c own) (hown : own d.name = base ++ es) (hindexed : Indexed serial d.image es)
    (hadd : addPods d (rsName d.name serial) n c (es.map Entry.id) = .ok (c', ids')) :
    ∃ es', Rebooked c c' own d.name (base ++ es') (own d.name).length ((own d.name).length + n) ∧
      Indexed serial d.image es' ∧ es'.map Entry.id = ids' ∧ es'.length = es.length + n ∧ es <+: es' := by
  induction n generalizing c own es with
  | zero =>
    rw [addPods] at hadd
    cases hadd
    exact ⟨es, .refl h hown _ _, hindexed, rfl, rfl, List.prefix_rfl⟩
  | succ n ih =>
    rw [addPods] at hadd
    obtain ⟨c₁, hlaunch, hadd⟩ := bind_eq_ok.1 hadd
    let e : Entry := ⟨c.heap.length, serial, es.length, d.image, d.request⟩
    have hl : Launched c c₁ d.name e := by
      refine launched ?_
      rw [← hlaunch, List.length_map]
      rfl
    have hnew : ∀ e' ∈ own d.name, e'.serial = e.serial → e'.index ≠ e.index := by
      intro e' he' hserial
      rw [hown] at he'
      rcases List.mem_append.1 he' with he' | he'
      · exact absurd hserial (hfresh (Nat.succ_ne_zero n) e' he')
      · exact Nat.ne_of_lt (hindexed.of_mem he').2.1
    have hinv := h.launch rfl hnew hl
    have hes : own d.name ++ [e] = base ++ (es ++ [e]) := by
      rw [hown, List.append_assoc]
    rw [hes] at hinv
    have hfirst : Rebooked c (c₁.note d.name) own d.name (base ++ (es ++ [e]))
        (own d.name).length ((own d.name).length + 1) := by
      refine ⟨hinv.note _, hl.frame.trans (frame_note _ _), ?_⟩
      intro x hx
      rcases stepsWithin_note hinv d.name x hx with hx | hx
      · exact .inl (hl.steps ▸ hx)
      · rw [Function.update_self, ← hes, List.length_append, List.length_singleton] at hx
        exact .inr (by omega)
    have hids : es.map Entry.id ++ [c.heap.length] = (es ++ [e]).map Entry.id := by
      rw [List.map_append]
      rfl
    rw [hids] at hadd
    obtain ⟨es', hrest, hindexed', hids', hlen, hprefix⟩ :=
      ih (fun _ => hfresh (Nat.succ_ne_zero n)) hfirst.inv (update_self _ _ _)
        (hindexed.concat rfl rfl rfl) hadd
    have hcount : (update own d.name (base ++ (es ++ [e])) d.name).length
        = (own d.name).length + 1 := by
      rw [Function.update_self, ← hes, List.length_append, List.length_singleton]
    rw [hcount] at hrest
    refine ⟨es', hfirst.trans hrest (le_refl _) ?_ ?_ ?_, hindexed', hids', ?_, (List.prefix_append _ _).trans hprefix⟩
    · omega
    · omega
    · omega
    · rw [hlen, List.length_append, List.length_singleton]
      omega

end Add

/-! ## Terminating pods -/

/-- The termination loop removes the entries of pods that request nothing. -/
theorem terminatePods_spec {base : List Entry} {dead : List Entry} (h : Inv c own)
    (hown : (own d).Perm (dead ++ base)) (hzero : ∀ e ∈ dead, e.request = 0) :
    Rebooked c (terminatePods d (dead.map Entry.id) c) own d base base.length (own d).length := by
  induction dead generalizing c own with
  | nil =>
    exact ⟨h.perm hown, Frame.refl c, StepsWithin.refl c _ _⟩
  | cons e dead ih =>
    obtain ⟨hzeroE, hzero⟩ := List.forall_mem_cons.1 hzero
    have hlen := hown.length_eq
    rw [List.length_append, List.length_cons] at hlen
    have hinv : Inv (c.terminate e.id) (update own d (dead ++ base)) := by
      have hinv := (h.perm hown).terminate (update_self _ _ _) hzeroE
      rwa [update_idem] at hinv
    have hfirst : Rebooked c ((c.terminate e.id).note d) own d (dead ++ base)
        base.length (own d).length := by
      have hr := ((h.perm hown).terminated (d := d) (e := e)
        (by rw [update_self]; exact List.mem_cons_self)).1
      refine ⟨hinv.note _, hr.frame.trans (frame_note _ _), ?_⟩
      intro x hx
      rcases stepsWithin_note hinv d x hx with hx | hx
      · exact .inl (hr.steps ▸ hx)
      · rw [update_self, List.length_append] at hx
        exact .inr (by omega)
    have hrest := ih hfirst.inv (by rw [update_self]) hzero
    rw [update_self, List.length_append] at hrest
    refine hfirst.trans hrest (le_refl _) (le_refl _) (le_refl _) ?_
    omega

/-! ## Rolling updates -/

section Update

variable {d : Deployment} {serial : Nat} {maxSurge maxUnavailable : Int} {total lo hi : Nat}

theorem min_surge (r s k : Nat) : min r (k * s) + min s (r - min r (k * s)) = min r ((k + 1) * s) := by
  rw [Nat.succ_mul]
  omega

theorem rounds_done {k : Nat} {c : Controller} {old : List Entry}
    (h : Inv c own) (hown : own d.name = old ++ es) (hindexed : Indexed serial d.image es)
    (hold : old.length = total - k * maxUnavailable.toNat) (hnil : old.length = 0)
    (hes : es.length = min d.replicas.toNat (k * maxSurge.toNat)) (hlo : lo ≤ min d.replicas.toNat (k * maxSurge.toNat)
      + (total - k * maxUnavailable.toNat)) : ∃ es', Rebooked c c own d.name es' lo hi ∧ Indexed serial d.image es' ∧
      es'.map Entry.id = es.map Entry.id ∧ es'.length ≤ d.replicas.toNat ∧ lo ≤ es'.length := by
  rw [List.eq_nil_of_length_eq_zero hnil, List.nil_append] at hown
  exact ⟨es, .refl h hown _ _, hindexed, rfl, by omega, by omega⟩

variable {c c' : Controller}

/-- The rounds of a rolling update replace all old pods. Before round `k` the smaller of `R` and
`k * maxSurge` new pods exist and `total - k * maxUnavailable` old ones are left, so that bounds on
these numbers are bounds on the steps. -/
theorem updateRounds_spec
    (hlo : ∀ k, lo ≤ min d.replicas.toNat (k * maxSurge.toNat) + (total - k * maxUnavailable.toNat))
    (hhi : ∀ k, min d.replicas.toNat ((k + 1) * maxSurge.toNat) + (total - k * maxUnavailable.toNat) ≤ hi)
    {n k : Nat} {old : List Entry} {ids' : List Nat} (h : Inv c own)
    (hown : own d.name = old ++ es) (hindexed : Indexed serial d.image es) (hzero : ∀ e ∈ old, e.request = 0)
    (hfresh : min maxSurge.toNat d.replicas.toNat ≠ 0 → ∀ e ∈ old, e.serial ≠ serial)
    (hu : old.length ≠ 0 → 0 < maxUnavailable) (hfuel : old.length ≤ n)
    (hold : old.length = total - k * maxUnavailable.toNat) (hes : es.length = min d.replicas.toNat (k * maxSurge.toNat))
    (hrun : updateRounds d (rsName d.name serial) maxSurge maxUnavailable n c (old.map Entry.id) (es.map Entry.id) = .ok (c', ids')) :
    ∃ es', Rebooked c c' own d.name es' lo hi ∧ Indexed serial d.image es' ∧
      es'.map Entry.id = ids' ∧ es'.length ≤ d.replicas.toNat ∧ lo ≤ es'.length := by
  induction n generalizing k c own old es with
  | zero =>
    rw [updateRounds] at hrun
    cases hrun
    exact rounds_done h hown hindexed hold (Nat.le_zero.1 hfuel) hes (hlo k)
  | succ n ih =>
    rw [updateRounds, List.length_map] at hrun
    split at hrun
    · rename_i hnil
      cases hrun
      exact rounds_done h hown hindexed hold hnil hes (hlo k)
    · rename_i hne
      rw [List.length_map] at hrun
      obtain ⟨⟨c₁, ids₁⟩, hadd, hrun⟩ := bind_eq_ok.1 hrun
      have hsome : min maxSurge.toNat (d.replicas.toNat - es.length) ≠ 0 →
          ∀ e ∈ old, e.serial ≠ serial := fun hne => hfresh (by omega)
      obtain ⟨es₁, hadded, hindexed₁, rfl, hlen₁, -⟩ := addPods_spec hsome h hown hindexed hadd
      have hcount : (own d.name).length = old.length + es.length := by
        rw [hown, List.length_append]
      have hes₁ : es₁.length = min d.replicas.toNat ((k + 1) * maxSurge.toNat) := by
        rw [hlen₁, hes, min_surge]
      have hloNow := hlo k
      have hhiNow := hhi k
      have hadded : Rebooked c c₁ own d.name (old ++ es₁) lo hi :=
        hadded.mono (by omega) (by omega)
      let dead := old.take maxUnavailable.toNat
      let left := old.drop maxUnavailable.toNat
      have hleft : left.length = total - (k + 1) * maxUnavailable.toNat := by
        rw [List.length_drop, hold, Nat.succ_mul]
        omega
      have hpos := hu hne
      have hfuelNext : left.length ≤ n := by
        rw [List.length_drop]
        omega
      have hperm : (update own d.name (old ++ es₁) d.name).Perm
          (dead ++ (left ++ es₁)) := by
        rw [update_self, ← List.append_assoc, List.take_append_drop]
      have hloNext := hlo (k + 1)
      have hended := terminatePods_spec hadded.inv hperm fun e he => hzero e (List.mem_of_mem_take he)
      rw [update_self, List.length_append, List.length_append, hes₁, hleft] at hended
      have hround := hadded.trans hended (le_refl lo) (by omega) (le_refl hi) (by omega)
      rw [← List.map_take, ← List.map_drop] at hrun
      obtain ⟨es', hrest, hresult⟩ := ih hround.inv (update_self _ _ _) hindexed₁
        (fun e he => hzero e (List.mem_of_mem_drop he))
        (fun hne e he => hfresh hne e (List.mem_of_mem_drop he)) (fun _ => hpos) hfuelNext hleft
        hes₁ hrun
      exact ⟨es', hround.trans hrest (le_refl _) (le_refl _) (le_refl _) (le_refl _), hresult⟩

variable {oldRS : ReplicaSet} {old : Deployment}

theorem maxUnavailable_pos (hrs : c.replicaSets old.name = some oldRS) (hne : oldRS.pods.length ≠ 0)
    (hcall : c.rollingUpdate old d = .ok c') : 0 < atLeastOne d.updateStrategy.maxUnavailable := by
  rw [Controller.rollingUpdate, hrs] at hcall
  dsimp only at hcall
  split at hcall
  · cases hcall
  · have hnonzero : atLeastOne d.updateStrategy.maxUnavailable ≠ 0 := by
      rw [atLeastOne]
      split <;> omega
    omega

/-- A rolling update leaves the pods of the new ReplicaSet only, provided that the old pods request
nothing and that the names of the new ones are not theirs. -/
theorem rollingUpdate_spec (h : Inv c own)
    (hrs : c.replicaSets old.name = some oldRS) (hids : (own d.name).map Entry.id = oldRS.pods)
    (hlen : (own d.name).length = total) (hzero : ∀ e ∈ own d.name, e.request = 0)
    (hfresh : min (atLeastOne d.updateStrategy.maxSurge).toNat d.replicas.toNat ≠ 0 → ∀ e ∈ own d.name, e.serial ≠ oldRS.generation + 1)
    (hlo : ∀ k, lo ≤ min d.replicas.toNat (k * (atLeastOne d.updateStrategy.maxSurge).toNat) + (total - k * (atLeastOne d.updateStrategy.maxUnavailable).toNat))
    (hhi : ∀ k, min d.replicas.toNat ((k + 1) * (atLeastOne d.updateStrategy.maxSurge).toNat) + (total - k * (atLeastOne d.updateStrategy.maxUnavailable).toNat) ≤ hi)
    (hR : d.replicas.toNat ≤ hi) (hcall : c.rollingUpdate old d = .ok c') :
    ∃ es c₁, Rebooked { c with window := promised old d } c₁ own d.name es lo hi ∧
      Indexed (oldRS.generation + 1) d.image es ∧ es.length = d.replicas.toNat ∧ c' = { c₁ with
        replicaSets := Function.update c₁.replicaSets d.name (some ⟨rsName d.name
          (oldRS.generation + 1), d.image, d.replicas, es.map Entry.id, oldRS.generation + 1⟩) } := by
  have hpodsLen : (own d.name).length = oldRS.pods.length := by
    rw [← hids, List.length_map]
  have hu : (own d.name).length ≠ 0 → 0 < atLeastOne d.updateStrategy.maxUnavailable := fun hne =>
    maxUnavailable_pos hrs (hpodsLen ▸ hne) hcall
  rw [Controller.rollingUpdate, hrs] at hcall
  dsimp only at hcall
  split at hcall
  · cases hcall
  obtain ⟨⟨c₁, ids₁⟩, hrounds, hcall⟩ := bind_eq_ok.1 hcall
  obtain ⟨⟨c₂, ids₂⟩, hfill, hcall⟩ := bind_eq_ok.1 hcall
  cases hcall
  rw [← hids] at hrounds
  have hinv : Inv { c with window := promised old d } own := h.congr rfl rfl rfl
  have hfuel : (own d.name).length ≤ ((own d.name).map Entry.id).length := by
    rw [List.length_map]
  have hstart : (own d.name).length
      = total - 0 * (atLeastOne d.updateStrategy.maxUnavailable).toNat := by
    rw [hlen, Nat.zero_mul, Nat.sub_zero]
  have hnone : ([] : List Entry).length
      = min d.replicas.toNat (0 * (atLeastOne d.updateStrategy.maxSurge).toNat) := by
    rw [Nat.zero_mul, Nat.min_zero, List.length_nil]
  obtain ⟨es₁, hreplaced, hindexed₁, rfl, hle, hloEnd⟩ := updateRounds_spec hlo hhi hinv
    (List.append_nil _).symm (Indexed.nil _ _) hzero hfresh hu hfuel hstart hnone hrounds
  rw [List.length_map] at hfill
  obtain ⟨es₂, hfilled, hindexed₂, rfl, hlen₂, -⟩ := addPods_spec
    (fun _ _ he => absurd he List.not_mem_nil) hreplaced.inv
    ((Function.update_self _ _ _).trans (List.nil_append _).symm) hindexed₁ hfill
  rw [Function.update_self, List.nil_append] at hfilled
  exact ⟨es₂, c₂, hreplaced.trans hfilled (le_refl lo) hloEnd (le_refl hi) (by omega), hindexed₂,
    by omega, rfl⟩

theorem rollingUpdate_steps (hrs : c.replicaSets old.name = some oldRS) (hpods : oldRS.pods = [])
    (hR : d.replicas.toNat = 0) (hcall : c.rollingUpdate old d = .ok c') : c'.steps = c.steps := by
  rw [Controller.rollingUpdate, hrs] at hcall
  dsimp only at hcall
  rw [hpods, hR] at hcall
  split at hcall
  · cases hcall
  · cases hcall
    rfl

end Update

/-! ## Surge and unavailability -/

/-- When the surge keeps within its bounds: `s` new pods against `u` old ones in a round. With a
larger surge only what is left of the update after the first termination may exceed `s`; with a
larger `u` the gap grows by `u - s` in a round. -/
def surgeFits (R s u : Nat) : Prop :=
  R = 0 ∨ (0 < s ∧ (s ≤ u ∨ R ≤ s + u) ∧
    (u ≤ s ∨ (R / u * (u - s) ≤ u ∧ R ≤ (R / u + 1) * s + u)))

instance (R s u : Nat) : Decidable (surgeFits R s u) :=
  inferInstanceAs (Decidable (_ ∨ _))

theorem surge_upper {R s u : Nat} (h : s ≤ u ∨ R ≤ s + u) (k : Nat) : min R ((k + 1) * s) + (R - k * u) ≤ R + s := by
  rw [Nat.succ_mul]
  rcases h with hsu | hR
  · have hmul : k * s ≤ k * u := Nat.mul_le_mul_left k hsu
    omega
  · cases k with
    | zero => omega
    | succ k =>
      have hmul : u ≤ (k + 1) * u := Nat.le_mul_of_pos_left u (Nat.succ_pos k)
      omega

theorem surge_lower {R s u : Nat} (h : u ≤ s ∨ (R / u * (u - s) ≤ u ∧ R ≤ (R / u + 1) * s + u)) (k : Nat) :
    R - u ≤ min R (k * s) + (R - k * u) := by
  rcases h with hus | ⟨hgap, hlast⟩
  · have hmul : k * u ≤ k * s := Nat.mul_le_mul_left k hus
    omega
  · rcases Nat.lt_or_ge (R / u) k with hlt | hge
    · -- the old pods are all gone
      have hmul : (R / u + 1) * s ≤ k * s := Nat.mul_le_mul_right s hlt
      omega
    · have hmul : k * (u - s) ≤ R / u * (u - s) := Nat.mul_le_mul_right _ hge
      rw [Nat.mul_sub] at hmul
      omega

end SystemDesignLabs.ContainerOrchestrator
