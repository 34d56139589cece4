import SystemDesignLabs.ContainerOrchestrator.Loops
import SystemDesignLabs.Core.TransitionSystem

/-!
# Convergence to the declared state

`Converged` is the promise: for each deployment `Pods()` lists as many pods of its image as declared,
these are the pods of its ReplicaSet, no node has lost resources, and an update between equal replica
counts has stayed within its bounds. The controller does not keep it: no call gives the resources of a
terminated pod back to its node, the first update of a deployment reuses the names of the pods it
replaces, a replacement of a failed pod does not join the ReplicaSet, and a surge that is larger or
smaller than `maxUnavailable` drifts from the bounds (`updated_state_not_converged`). In runs whose
calls stay clear of these four (`Sound`) every state reached is as promised (`converged`).
-/

namespace SystemDesignLabs.ContainerOrchestrator

open Option (map_eq_some_iff some)
open Function (update update_of_ne update_self)

open Core Controller

/-! ## The promise -/

/-- The pods that `Pods()` lists for a deployment. -/
def Controller.podsOf (c : Controller) (owner : Name) : List Nat :=
  c.listedIds.filter fun id => ((c.heap[id]?).map Pod.owner) == some owner

/-- A deployment is as declared. -/
structure Deployed (c : Controller) (owner : Name) (d : Deployment) : Prop where
  count : ((c.podsOf owner).length : Int) = d.replicas
  image : ∀ id ∈ c.podsOf owner, ∃ pod, c.heap[id]? = some pod ∧ pod.image = d.image
  replicaSet : ∃ rs, c.replicaSets owner = some rs ∧ (c.podsOf owner).Perm rs.pods

/-- The steps of the last update are within the bounds that its strategy promises. -/
def Bounded (c : Controller) : Prop :=
  ∀ lo hi, c.window = some (lo, hi) → ∀ x ∈ c.steps, lo ≤ x ∧ x ≤ hi

/-- The controller has converged to the declared state. -/
structure Converged (c : Controller) : Prop where
  deployed : ∀ owner d, c.deployments owner = some d → Deployed c owner d
  allocatable : ∀ n ∈ c.nodes, n.allocatable = (c.used n).sub n.capacity
  bounded : Bounded c

/-! ## The condition -/

/-- An update of a deployment whose pods request nothing, so that terminating them leaves no resources
behind, with new names, and with a strategy that keeps within its bounds. -/
def updateSound (c : Controller) (existing d : Deployment) (rs : ReplicaSet) : Prop :=
  0 ≤ d.replicas ∧
  (rs.pods = [] ∨ ((∀ id ∈ rs.pods, c.requestOf id = 0) ∧
    (rs.generation ≠ 0 ∨ d.replicas = 0 ∨ d.updateStrategy.maxSurge < 0))) ∧
  (existing.replicas = d.replicas → surgeFits d.replicas.toNat
    (atLeastOne d.updateStrategy.maxSurge).toNat (atLeastOne d.updateStrategy.maxUnavailable).toNat)

instance (c : Controller) (existing d : Deployment) (rs : ReplicaSet) :
    Decidable (updateSound c existing d rs) :=
  inferInstanceAs (Decidable (_ ∧ _ ∧ _))

/-- A scaling that terminates only pods that request nothing. -/
def scaleSound (c : Controller) (d : Deployment) (rs : ReplicaSet) : Prop :=
  ∀ id ∈ rs.pods.drop d.replicas.toNat, c.requestOf id = 0

instance (c : Controller) (d : Deployment) (rs : ReplicaSet) : Decidable (scaleSound c d rs) :=
  inferInstanceAs (Decidable (∀ id ∈ rs.pods.drop d.replicas.toNat, c.requestOf id = 0))

/-- The condition on an `Apply`, given what is recorded for the deployment. -/
def applySound (c : Controller) (d : Deployment) : Option Deployment → Option ReplicaSet → Prop
  | some existing, some rs =>
    if existing.image ≠ d.image then updateSound c existing d rs else scaleSound c d rs
  | _, _ => 0 ≤ d.replicas

instance (c : Controller) (d : Deployment) :
    ∀ existing rs, Decidable (applySound c d existing rs)
  | some existing, some rs => inferInstanceAs (Decidable
      (if existing.image ≠ d.image then updateSound c existing d rs else scaleSound c d rs))
  | none, _ => inferInstanceAs (Decidable (0 ≤ d.replicas))
  | some _, none => inferInstanceAs (Decidable (0 ≤ d.replicas))

/-- The condition on a call. -/
def Sound (c : Controller) : Op → Prop
  | .apply d => applySound c d (c.deployments d.name) (c.replicaSets d.name)
  | .markPodFailed _ => True
  | .replaceFailedPods _ _ => ∀ id ∈ c.listedIds, c.isFailed id = false

instance (c : Controller) : ∀ op, Decidable (Sound c op)
  | .apply d => inferInstanceAs (Decidable (applySound c d _ _))
  | .markPodFailed _ => inferInstanceAs (Decidable True)
  | .replaceFailedPods _ _ => inferInstanceAs (Decidable (∀ _ ∈ _, _))

/-! ## The invariant -/

/-- A deployment and its ReplicaSet agree with the entries. -/
structure Settled (own : Name → List Entry) (owner : Name) (d : Deployment) (rs : ReplicaSet) :
    Prop where
  name : d.name = owner
  rsName : rs.name = rsName owner (max 1 rs.generation)
  ids : (own owner).map Entry.id = rs.pods
  indexed : Indexed (max 1 rs.generation) d.image (own owner)
  count : ((own owner).length : Int) = d.replicas

/-- Between calls the books agree with what is declared. -/
structure Stable (c : Controller) (own : Name → List Entry) : Prop where
  inv : Inv c own
  settled : ∀ owner d, c.deployments owner = some d →
    ∃ rs, c.replicaSets owner = some rs ∧ Settled own owner d rs
  undeclared : ∀ owner, c.deployments owner = none → own owner = []

section Stable

variable {c c' : Controller} {own : Name → List Entry}

theorem Inv.podsOf_perm (h : Inv c own) (owner : Name) : (c.podsOf owner).Perm ((own owner).map Entry.id) := by
  have hnodup : (c.podsOf owner).Nodup := (List.nodup_range.filter _).filter _
  refine (List.perm_ext_iff_of_nodup hnodup (h.nodup owner)).2 fun id => ?_
  rw [podsOf, List.mem_filter, listedIds, List.mem_filter, List.mem_range, List.mem_map]
  constructor
  · rintro ⟨⟨-, hl⟩, howner⟩
    obtain ⟨d, e, he, rfl⟩ := h.entry_of_listed hl
    obtain ⟨status, -, hheap, -⟩ := h.entry d e he
    rw [hheap] at howner
    have hd : d = owner := some.inj (beq_iff_eq.1 howner)
    exact ⟨e, hd ▸ he, rfl⟩
  · rintro ⟨e, he, rfl⟩
    obtain ⟨status, -, hheap, -⟩ := h.entry owner e he
    refine ⟨⟨h.entry_lt he, h.listed_entry he⟩, ?_⟩
    rw [hheap]
    exact beq_iff_eq.2 rfl

theorem converged_of_stable (h : Stable c own) (hb : Bounded c) : Converged c := by
  refine ⟨?_, h.inv.resources, hb⟩
  intro owner d hd
  obtain ⟨rs, hrs, hsettled⟩ := h.settled owner d hd
  have hperm := h.inv.podsOf_perm owner
  refine ⟨?_, ?_, rs, hrs, hsettled.ids ▸ hperm⟩
  · rw [hperm.length_eq, List.length_map]
    exact hsettled.count
  · intro id hid
    obtain ⟨e, he, rfl⟩ := List.mem_map.1 (hperm.mem_iff.1 hid)
    obtain ⟨status, -, hheap, -⟩ := h.inv.entry owner e he
    exact ⟨_, hheap, (hsettled.indexed.of_mem he).2.2⟩

/-- The state that `Apply` hands on. -/
def Controller.declared (c : Controller) (d : Deployment) : Controller :=
  { c with deployments := Function.update c.deployments d.name (some d), steps := [], window := none }

/-- A call that settles the deployment it declares keeps the books stable. -/
theorem Stable.apply (h : Stable c own) {d : Deployment} (rs : ReplicaSet) {es : List Entry}
    (hinv : Inv c' (Function.update own d.name es))
    (hdeployments : c'.deployments = Function.update c.deployments d.name (some d))
    (hreplicaSets : c'.replicaSets = Function.update c.replicaSets d.name (some rs))
    (hname : rs.name = rsName d.name (max 1 rs.generation)) (hids : es.map Entry.id = rs.pods)
    (hindexed : Indexed (max 1 rs.generation) d.image es) (hcount : (es.length : Int) = d.replicas) :
    Stable c' (Function.update own d.name es) := by
  refine ⟨hinv, ?_, ?_⟩
  · intro owner d' hd'
    rw [hdeployments] at hd'
    rw [hreplicaSets]
    by_cases howner : owner = d.name
    · subst howner
      rw [update_self, some.injEq] at hd'
      subst hd'
      refine ⟨rs, update_self _ _ _, rfl, hname, ?_, ?_, ?_⟩
      · rwa [update_self]
      · rwa [update_self]
      · rwa [update_self]
    · rw [update_of_ne howner] at hd' ⊢
      obtain ⟨rs', hrs', hsettled⟩ := h.settled owner d' hd'
      have hown := update_of_ne howner es own
      refine ⟨rs', hrs', hsettled.name, hsettled.rsName, ?_, ?_, ?_⟩
      · rw [hown]
        exact hsettled.ids
      · rw [hown]
        exact hsettled.indexed
      · rw [hown]
        exact hsettled.count
  · intro owner hnone
    rw [hdeployments] at hnone
    by_cases howner : owner = d.name
    · subst howner
      rw [update_self] at hnone
      cases hnone
    · rw [update_of_ne howner] at hnone ⊢
      exact h.undeclared owner hnone

theorem bounded_of_window_none (h : c.window = none) : Bounded c := by
  intro lo hi hw
  rw [h] at hw
  cases hw

theorem Stable.create (h : Stable c own) {d : Deployment} (hnone : c.deployments d.name = none)
    (hok : 0 ≤ d.replicas) (hcall : (c.declared d).createReplicaSet d = .ok c') :
    ∃ own', Stable c' own' ∧ Bounded c' := by
  rw [createReplicaSet] at hcall
  obtain ⟨⟨c₁, ids⟩, hadd, hcall⟩ := bind_eq_ok.1 hcall
  cases hcall
  have hinv : Inv (c.declared d) own := h.inv.congr rfl rfl rfl
  have hown : own d.name = [] ++ [] := h.undeclared _ hnone
  obtain ⟨es, hbooks, hindexed, rfl, hlen, -⟩ := addPods_spec
    (fun _ _ he => absurd he List.not_mem_nil) hinv hown (Indexed.nil 1 d.image) hadd
  rw [List.nil_append] at hbooks
  rw [List.length_nil, Nat.zero_add] at hlen
  have hreplicaSets := hbooks.frame.replicaSets
  refine ⟨_, h.apply ⟨rsName d.name 1, d.image, d.replicas, es.map Entry.id, 0⟩
    (hbooks.inv.congr rfl rfl rfl) hbooks.frame.deployments ?_ rfl rfl hindexed (by omega),
    bounded_of_window_none hbooks.frame.window⟩
  show update c₁.replicaSets d.name _ = update c.replicaSets d.name _
  rw [hreplicaSets]
  rfl

variable {existing d : Deployment} {rs : ReplicaSet}

section

variable (h : Stable c own)
include h

theorem Stable.scale (hexisting : c.deployments d.name = some existing)
    (hrs : c.replicaSets d.name = some rs) (himage : existing.image = d.image) (hok : scaleSound c d rs)
    (hcall : (c.declared d).scaleReplicaSet d = .ok c') : ∃ own', Stable c' own' ∧ Bounded c' := by
  obtain ⟨rs', hrs', hsettled⟩ := h.settled _ _ hexisting
  rw [hrs, some.injEq] at hrs'
  subst hrs'
  have hinv : Inv (c.declared d) own := h.inv.congr rfl rfl rfl
  have hindexed : Indexed (max 1 rs.generation) d.image (own d.name) := himage ▸ hsettled.indexed
  rw [scaleReplicaSet] at hcall
  rw [show (c.declared d).replicaSets d.name = some rs from hrs] at hcall
  dsimp only at hcall
  split at hcall
  · cases hcall
  rename_i hpos
  obtain ⟨⟨c₁, ids⟩, hadd, hcall⟩ := bind_eq_ok.1 hcall
  cases hcall
  rw [hsettled.rsName, ← hsettled.ids, List.length_map] at hadd
  obtain ⟨es, hbooks, hindexed', rfl, hlen, hprefix⟩ := addPods_spec
    (fun _ _ he => absurd he List.not_mem_nil) hinv (List.nil_append _).symm hindexed hadd
  rw [List.nil_append] at hbooks
  have hperm : (update own d.name es d.name).Perm
      ((es.drop d.replicas.toNat).reverse ++ es.take d.replicas.toNat) := by
    rw [update_self]
    have hswap : es.Perm (es.drop d.replicas.toNat ++ es.take d.replicas.toNat) := by
      have happ := @List.perm_append_comm _ (es.take d.replicas.toNat) (es.drop d.replicas.toNat)
      rwa [List.take_append_drop] at happ
    exact hswap.trans ((List.reverse_perm _).symm.append_right _)
  have hzero : ∀ e ∈ (es.drop d.replicas.toNat).reverse, e.request = 0 := by
    intro e he
    rw [List.mem_reverse] at he
    rcases Nat.lt_or_ge (own d.name).length d.replicas.toNat with hlt | hge
    · -- pods were added, and none is beyond the count
      rw [List.drop_eq_nil_of_le (by omega)] at he
      cases he
    · have hes : own d.name = es := hprefix.eq_of_length (by omega)
      subst hes
      have hmem : e.id ∈ rs.pods.drop d.replicas.toNat := by
        rw [← hsettled.ids, ← List.map_drop]
        exact List.mem_map_of_mem he
      rw [← h.inv.requestOf_entry (List.mem_of_mem_drop he)]
      exact hok _ hmem
  have hended := terminatePods_spec hbooks.inv hperm hzero
  rw [List.map_reverse, List.map_drop] at hended
  have hinv' := hended.inv
  rw [Function.update_idem] at hinv'
  have hframe := hbooks.frame.trans hended.frame
  have hreplicaSets := hframe.replicaSets
  refine ⟨_, h.apply { rs with
      pods := (es.map Entry.id).take d.replicas.toNat }
    (hinv'.congr rfl rfl rfl) hframe.deployments ?_ hsettled.rsName List.map_take
    (hindexed'.take _) ?_, bounded_of_window_none hframe.window⟩
  · show update (terminatePods d.name _ c₁).replicaSets d.name _
      = update c.replicaSets d.name _
    rw [hreplicaSets]
    rfl
  · rw [List.length_take]
    omega

theorem Stable.replaceable (hsettled : Settled own d.name existing rs)
    (hok : updateSound c existing d rs) : (∀ e ∈ own d.name, e.request = 0) ∧
      (min (atLeastOne d.updateStrategy.maxSurge).toNat d.replicas.toNat ≠ 0 →
        ∀ e ∈ own d.name, e.serial ≠ rs.generation + 1) := by
  rcases hok.2.1 with hnil | ⟨hzero, hnames⟩
  · have hown : own d.name = [] := List.map_eq_nil_iff.1 (hsettled.ids.trans hnil)
    rw [hown]
    exact ⟨fun _ he => absurd he List.not_mem_nil, fun _ _ he => absurd he List.not_mem_nil⟩
  · refine ⟨fun e he => ?_, fun hcreates e he => ?_⟩
    · rw [← h.inv.requestOf_entry he]
      exact hzero _ (hsettled.ids ▸ List.mem_map_of_mem he)
    · have hserial := (hsettled.indexed.of_mem he).1
      rcases hnames with hgeneration | hnone | hnosurge
      · omega
      · omega
      · rw [atLeastOne, if_neg (by omega)] at hcreates
        omega

theorem Stable.update (hexisting : c.deployments d.name = some existing)
    (hrs : c.replicaSets d.name = some rs) (hok : updateSound c existing d rs)
    (hcall : (c.declared d).rollingUpdate existing d = .ok c') : ∃ own', Stable c' own' ∧ Bounded c' := by
  obtain ⟨rs', hrs', hsettled⟩ := h.settled _ _ hexisting
  rw [hrs, some.injEq] at hrs'
  subst hrs'
  obtain ⟨hzero, hfresh⟩ := h.replaceable hsettled hok
  obtain ⟨hR, -, hfits⟩ := hok
  have hinv : Inv (c.declared d) own := h.inv.congr rfl rfl rfl
  have hold : (c.declared d).replicaSets existing.name = some rs := by
    rw [hsettled.name]
    exact hrs
  -- whatever the bounds are, the books are stable, and the steps are within the bounds
  have hstable : ∀ lo hi : Nat,
      (∀ k, lo ≤ min d.replicas.toNat (k * (atLeastOne d.updateStrategy.maxSurge).toNat)
        + ((own d.name).length - k * (atLeastOne d.updateStrategy.maxUnavailable).toNat)) →
      (∀ k, min d.replicas.toNat ((k + 1) * (atLeastOne d.updateStrategy.maxSurge).toNat)
        + ((own d.name).length - k * (atLeastOne d.updateStrategy.maxUnavailable).toNat) ≤ hi) →
      d.replicas.toNat ≤ hi → ∃ own', Stable c' own' ∧ c'.window = promised existing d ∧
        ∀ x ∈ c'.steps, (lo : Int) ≤ x ∧ x ≤ (hi : Int) := by
    intro lo hi hlo hhi hRhi
    obtain ⟨es, c₁, hbooks, hindexed, hlen, rfl⟩ :=
      rollingUpdate_spec hinv hold hsettled.ids rfl hzero hfresh hlo hhi hRhi hcall
    have hserial : max 1 (rs.generation + 1) = rs.generation + 1 := by omega
    have hreplicaSets := hbooks.frame.replicaSets
    refine ⟨_, h.apply ⟨rsName d.name (rs.generation + 1), d.image, d.replicas, es.map Entry.id, rs.generation + 1⟩
      (hbooks.inv.congr rfl rfl rfl) hbooks.frame.deployments ?_ ?_ rfl ?_ ?_, hbooks.frame.window, ?_⟩
    · show update c₁.replicaSets d.name _ = update c.replicaSets d.name _
      rw [hreplicaSets]
      rfl
    · rw [hserial]
    · rwa [hserial]
    · omega
    · intro x hx
      rcases hbooks.steps x hx with hx | hx
      · cases hx
      · exact hx
  by_cases hequal : existing.replicas = d.replicas
  · have hcount := hsettled.count
    have hlen : (own d.name).length = d.replicas.toNat := by omega
    have hpods : rs.pods.length = d.replicas.toNat := by
      rw [← hsettled.ids, List.length_map, hlen]
    by_cases hzeroR : d.replicas.toNat = 0
    · -- there is nothing to replace and nothing to create
      obtain ⟨own', hst, -⟩ := hstable 0 (d.replicas.toNat + (own d.name).length)
        (fun _ => Nat.zero_le _) (fun k => by omega) (Nat.le_add_right _ _)
      have hsteps := rollingUpdate_steps hold (List.eq_nil_of_length_eq_zero (hpods.trans hzeroR))
        hzeroR hcall
      refine ⟨own', hst, fun lo hi _ x hx => ?_⟩
      rw [hsteps] at hx
      cases hx
    · obtain ⟨hs, hupper, hlower⟩ := (hfits hequal).resolve_left hzeroR
      have hu := maxUnavailable_pos hold (hpods ▸ hzeroR) hcall
      rw [hlen] at hstable
      obtain ⟨own', hst, hwindow, hsteps⟩ := hstable _ _ (surge_lower hlower) (surge_upper hupper)
        (Nat.le_add_right _ _)
      refine ⟨own', hst, fun lo hi hw x hx => ?_⟩
      have hx := hsteps x hx
      rw [hwindow, promised, if_pos hequal, some.injEq, Prod.mk.injEq] at hw
      omega
  · obtain ⟨own', hst, hwindow, -⟩ := hstable 0 (d.replicas.toNat + (own d.name).length)
      (fun _ => Nat.zero_le _) (fun k => by omega) (Nat.le_add_right _ _)
    refine ⟨own', hst, bounded_of_window_none ?_⟩
    rw [hwindow, promised, if_neg hequal]

theorem Stable.of_apply
    (hok : applySound c d (c.deployments d.name) (c.replicaSets d.name))
    (hcall : c.apply d = .ok c') : ∃ own', Stable c' own' ∧ Bounded c' := by
  rw [Controller.apply] at hcall
  cases hexisting : c.deployments d.name with
  | none =>
    rw [hexisting] at hok hcall
    exact h.create hexisting hok hcall
  | some existing =>
    obtain ⟨rs, hrs, -⟩ := h.settled _ _ hexisting
    rw [hexisting] at hok hcall
    rw [hrs] at hok
    dsimp only at hcall
    rw [applySound] at hok
    split at hcall
    · rename_i himage
      rw [if_pos himage] at hok
      exact h.update hexisting hrs hok hcall
    · rename_i himage
      rw [if_neg himage] at hok
      exact h.scale hexisting hrs (not_not.1 himage) hok hcall

theorem Stable.markPodFailed (name : Name) : Stable (c.markPodFailed name) own := by
  rw [Controller.markPodFailed]
  split
  · exact h
  · rename_i id hp
    obtain ⟨d, e, he, rfl, -⟩ := h.inv.listed name id hp
    exact ⟨h.inv.setFailed he, h.settled, h.undeclared⟩

end

theorem replaceFailedPods_eq {order nanos : List Nat} (hperm : order.Perm c.listedIds)
    (hok : ∀ id ∈ c.listedIds, c.isFailed id = false) : c.replaceFailedPods order nanos = .ok c := by
  have hnone : order.filter c.isFailed = [] := by
    refine List.filter_eq_nil_iff.2 fun id hid => ?_
    rw [hok id (hperm.mem_iff.1 hid)]
    exact Bool.false_ne_true
  rw [replaceFailedPods, hnone]
  rfl

/-- A sound call keeps the books stable and the bounds. -/
theorem step_stable (h : Stable c own) (hb : Bounded c) {op : Op} (hok : Sound c op)
    (hstep : step c op = some c') : ∃ own', Stable c' own' ∧ Bounded c' := by
  rw [step] at hstep
  split at hstep
  · rename_i r hcall
    cases hstep
    cases op with
    | apply d => exact h.of_apply hok (some.inj hcall)
    | markPodFailed name =>
      cases hcall
      refine ⟨own, h.markPodFailed name, ?_⟩
      rw [markPodFailed]
      split
      · exact hb
      · exact hb
    | replaceFailedPods order nanos =>
      rw [call] at hcall
      split at hcall
      · rename_i hperm
        rw [replaceFailedPods_eq hperm hok] at hcall
        cases hcall
        exact ⟨own, h, hb⟩
      · cases hcall
  · cases hstep

theorem stable_start (capacities : List Resources) : Stable (Controller.start capacities) (fun _ => []) := by
  refine ⟨⟨?_, ?_, ?_, ?_, ?_, ?_⟩, ?_, ?_⟩
  · intro d e he
    cases he
  · intro name id hp
    cases hp
  · intro d
    rfl
  · intro d
    exact List.nodup_nil
  · intro n hn id hid
    obtain ⟨capacity, -, rfl⟩ := List.mem_map.1 hn
    cases hid
  · intro n hn
    obtain ⟨capacity, -, rfl⟩ := List.mem_map.1 hn
    simp [Node.fresh, used, Resources.sub, Resources.total]
  · intro owner d hd
    cases hd
  · intro owner _
    rfl

end Stable

/-- **In a run of sound calls every state reached is as promised.** -/
theorem converged {capacities : List Resources} {c : Controller}
    (h : ReachableIf step Sound (Controller.start capacities) c) : Converged c := by
  have hinv : ∃ own, Stable c own ∧ Bounded c := by
    refine h.invariant (I := fun c => ∃ own, Stable c own ∧ Bounded c) ?_ ?_
    · exact ⟨_, stable_start capacities, bounded_of_window_none rfl⟩
    · rintro c op c' - ⟨own, hst, hb⟩ hok hstep
      exact step_stable hst hb hok hstep
  obtain ⟨own, hst, hb⟩ := hinv
  exact converged_of_stable hst hb

/-- A deployment `a` that creates, updates, scales and loses pods that request nothing, next to a
deployment `b` whose pods do request something. -/
theorem converged_two_deployments : ∃ c, ReachableIf step Sound (Controller.start [⟨4, 4⟩]) c ∧
    c.replicaSets ['b'] ≠ none ∧ c.steps = [3, 2, 3, 2] ∧ c.window = some (1, 3) ∧ Converged c := by
  let zero : Resources := ⟨0, 0⟩
  let ops : List Op := [.apply ⟨['a'], ['x'], 0, ⟨0, 0⟩, zero⟩,
    .apply ⟨['a'], ['y'], 3, ⟨0, 0⟩, zero⟩, .apply ⟨['a'], ['y'], 2, ⟨0, 0⟩, zero⟩,
    .apply ⟨['b'], ['x'], 1, ⟨0, 0⟩, ⟨1, 1⟩⟩, .apply ⟨['b'], ['x'], 2, ⟨0, 0⟩, ⟨1, 1⟩⟩,
    .markPodFailed "a-rs-1-0".toList, .apply ⟨['a'], ['z'], 2, ⟨0, 0⟩, zero⟩,
    .replaceFailedPods [5, 6, 3, 4] []]
  have hrun : (execIf step (fun c op => decide (Sound c op)) (start [⟨4, 4⟩]) ops).map
      (fun c => decide (c.replicaSets ['b'] ≠ none ∧ c.steps = [3, 2, 3, 2] ∧
        c.window = some (1, 3))) = some true := by decide
  obtain ⟨c, hc, hfacts⟩ := map_eq_some_iff.1 hrun
  obtain ⟨hb, hsteps, hwindow⟩ := of_decide_eq_true hfacts
  have hreach := ReachableIf.init.execIf (fun _ _ => of_decide_eq_true) hc
  exact ⟨c, hreach, hb, hsteps, hwindow, converged hreach⟩

/-- **The promise is not kept.** The first update of a deployment gives the new pod the name of the old
one, so that terminating the old pod takes the new one out of the map. -/
theorem updated_state_not_converged : ¬ ∀ (capacities : List Resources) (c : Controller),
    Reachable step (Controller.start capacities) c → Converged c := by
  intro h
  have hrun : (exec step (start [⟨4, 4⟩])
      [.apply ⟨['a'], ['x'], 1, ⟨1, 1⟩, ⟨1, 1⟩⟩, .apply ⟨['a'], ['y'], 1, ⟨1, 1⟩, ⟨1, 1⟩⟩]).map
      (fun c => decide ((c.deployments ['a']).map Deployment.replicas = some 1 ∧
        c.podsOf ['a'] = [])) = some true := by rfl
  obtain ⟨c, hc, hfacts⟩ := map_eq_some_iff.1 hrun
  obtain ⟨hdeclared, hnone⟩ := of_decide_eq_true hfacts
  obtain ⟨d, hd, hone⟩ := map_eq_some_iff.1 hdeclared
  have hcount := ((h _ c (reachable_of_exec hc)).deployed ['a'] d hd).count
  rw [hnone, hone] at hcount
  exact absurd hcount (by decide)

end SystemDesignLabs.ContainerOrchestrator
