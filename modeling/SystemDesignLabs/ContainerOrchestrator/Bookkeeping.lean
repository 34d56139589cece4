import SystemDesignLabs.ContainerOrchestrator.Controller
import SystemDesignLabs.Core.Text

/-!
# The bookkeeping of pods

The controller records a pod in four places. The abstract view is a list of entries for each
deployment, `own`: the pods that are its own and not terminating, each with the number of the
ReplicaSet and the index its name is made of. `Inv` says how the heap, the map and the nodes agree with
it. Launching a pod under a new name appends an entry (`Inv.launch`); terminating a pod removes its entry
if the pod requests nothing, since no node gets its resources back (`Inv.terminate`).
-/

namespace SystemDesignLabs.ContainerOrchestrator

open Function (update update_of_ne update_self)

open Core Controller

/-! ## Names -/

theorem dash_notMem_toDigits (n : Nat) : '-' ∉ Nat.toDigits 10 n := by
  intro h
  have hlow := (toNat_of_mem_toDigits h).1
  exact absurd hlow (by decide)

theorem podName_injective {d d' : Name} {serial serial' index index' : Nat}
    (h : podName (rsName d serial) index = podName (rsName d' serial') index') :
    d = d' ∧ serial = serial' ∧ index = index' := by
  obtain ⟨hrs, hindex⟩ :=
    eq_of_append_cons_eq h (dash_notMem_toDigits _) (dash_notMem_toDigits _)
  have hsplit : ∀ (d : Name) (n : Nat),
      rsName d n = (d ++ ['-', 'r', 's']) ++ '-' :: Nat.toDigits 10 n := by
    intro d n
    rw [rsName, List.append_assoc]
    rfl
  rw [hsplit, hsplit] at hrs
  obtain ⟨hd, hserial⟩ :=
    eq_of_append_cons_eq hrs (dash_notMem_toDigits _) (dash_notMem_toDigits _)
  exact ⟨List.append_cancel_right hd, toDigits_injective hserial, toDigits_injective hindex⟩

/-! ## Resources -/

namespace Resources

/-- The sum of requests. -/
def total (rs : List Resources) : Resources :=
  rs.foldr (fun a b => a + b) 0

theorem ext_iff' {a b : Resources} : a = b ↔ a.cpu = b.cpu ∧ a.memoryMB = b.memoryMB := by
  cases a
  cases b
  exact Resources.mk.injEq _ _ _ _ ▸ Iff.rfl

@[simp] theorem add_cpu (a b : Resources) : (a + b).cpu = a.cpu + b.cpu := rfl
@[simp] theorem add_memoryMB (a b : Resources) : (a + b).memoryMB = a.memoryMB + b.memoryMB := rfl
@[simp] theorem zero_cpu : (0 : Resources).cpu = 0 := rfl
@[simp] theorem zero_memoryMB : (0 : Resources).memoryMB = 0 := rfl

theorem zero_add (a : Resources) : 0 + a = a := by
  simp [ext_iff']

theorem add_assoc (a b c : Resources) : a + b + c = a + (b + c) := by
  simp [ext_iff', Int.add_assoc]

theorem total_append (rs rs' : List Resources) : total (rs ++ rs') = total rs + total rs' := by
  induction rs with
  | nil => exact (zero_add _).symm
  | cons r rs ih =>
    show r + total (rs ++ rs') = r + total rs + total rs'
    rw [ih, add_assoc]

theorem total_filter_congr {α : Type} {f f' : α → Resources} {p p' : α → Bool} {l : List α}
    (h : ∀ a ∈ l, (p a = p' a ∧ f a = f' a) ∨ (f a = 0 ∧ f' a = 0)) :
    total ((l.filter p).map f) = total ((l.filter p').map f') := by
  induction l with
  | nil => rfl
  | cons a l ih =>
    have ih := ih fun b hb => h b (List.mem_cons_of_mem _ hb)
    rcases h a List.mem_cons_self with ⟨hp, hf⟩ | ⟨hf, hf'⟩
    · rw [List.filter_cons, List.filter_cons, hp]
      split
      · show f a + total _ = f' a + total _
        rw [hf, ih]
      · exact ih
    · have hdrop : ∀ (p : α → Bool) (f : α → Resources), f a = 0 →
          total (((a :: l).filter p).map f) = total ((l.filter p).map f) := by
        intro p f hf
        rw [List.filter_cons]
        split
        · show f a + total _ = _
          rw [hf, zero_add]
        · rfl
      rw [hdrop p f hf, hdrop p' f' hf', ih]

end Resources

/-- The request of a pod. -/
def Controller.requestOf (c : Controller) (id : Nat) : Resources :=
  match c.heap[id]? with
  | none => 0
  | some pod => pod.request

/-- The requests of the pods on a node that are listed by `Pods()`. -/
def Controller.used (c : Controller) (n : Node) : Resources :=
  Resources.total ((n.pods.filter c.listed).map c.requestOf)

/-! ## The invariant -/

/-- What is known about a pod of a deployment. -/
structure Entry where
  id : Nat
  serial : Nat
  index : Nat
  image : Name
  request : Resources

/-- The pod of an entry. -/
def Entry.pod (e : Entry) (owner : Name) (status : PodStatus) : Pod where
  name := podName (rsName owner e.serial) e.index
  image := e.image
  status := status
  request := e.request
  owner := owner

theorem live_pod {e : Entry} {d d' : Name} {status : PodStatus} (hst : status ≠ .terminating) :
    Pod.live d' (e.pod d status) = decide (d = d') := by
  have hstatus : decide ((e.pod d status).status ≠ .terminating) = true := decide_eq_true hst
  rw [Pod.live, hstatus, Bool.and_true]
  rfl

/-- The heap, the map and the nodes agree with the entries. -/
structure Inv (c : Controller) (own : Name → List Entry) : Prop where
  entry : ∀ d, ∀ e ∈ own d, ∃ status, status ≠ .terminating ∧
    c.heap[e.id]? = some (e.pod d status) ∧ c.pods (podName (rsName d e.serial) e.index) = some e.id
  listed : ∀ name id, c.pods name = some id → ∃ d, ∃ e ∈ own d, e.id = id ∧
    podName (rsName d e.serial) e.index = name
  live : ∀ d, c.liveCount d = (own d).length
  nodup : ∀ d, ((own d).map Entry.id).Nodup
  placed : ∀ n ∈ c.nodes, ∀ id ∈ n.pods, id < c.heap.length
  resources : ∀ n ∈ c.nodes, n.allocatable = (c.used n).sub n.capacity

section Steps

variable {c c' : Controller} {own : Name → List Entry} {d : Name}

section

variable (h : Inv c own)
include h

theorem Inv.congr (hheap : c'.heap = c.heap) (hnodes : c'.nodes = c.nodes)
    (hpods : c'.pods = c.pods) : Inv c' own := by
  obtain ⟨heap, nodes, _, _, pods, _, _⟩ := c
  obtain ⟨heap', nodes', _, _, pods', _, _⟩ := c'
  cases hheap
  cases hnodes
  cases hpods
  exact ⟨h.entry, h.listed, h.live, h.nodup, h.placed, h.resources⟩

theorem Inv.entry_lt {e : Entry} (he : e ∈ own d) : e.id < c.heap.length := by
  obtain ⟨_, -, hheap, -⟩ := h.entry d e he
  exact (List.getElem?_eq_some_iff.1 hheap).1

theorem Inv.listed_entry {e : Entry} (he : e ∈ own d) : c.listed e.id = true := by
  obtain ⟨status, -, hheap, hpods⟩ := h.entry d e he
  rw [Controller.listed, hheap]
  exact decide_eq_true hpods

theorem Inv.requestOf_entry {e : Entry} (he : e ∈ own d) : c.requestOf e.id = e.request := by
  obtain ⟨status, -, hheap, -⟩ := h.entry d e he
  rw [requestOf, hheap]
  rfl

theorem Inv.entry_of_listed {id : Nat} (hl : c.listed id = true) : ∃ d, ∃ e ∈ own d, e.id = id := by
  rw [Controller.listed] at hl
  split at hl
  · cases hl
  · obtain ⟨d, e, he, hid, -⟩ := h.listed _ _ (of_decide_eq_true hl)
    exact ⟨d, e, he, hid⟩

theorem Inv.pods_eq_none {serial index : Nat}
    (hnew : ∀ e ∈ own d, e.serial = serial → e.index ≠ index) : c.pods (podName (rsName d serial) index) = none := by
  cases hp : c.pods (podName (rsName d serial) index) with
  | none => rfl
  | some id =>
    obtain ⟨d', e, he, -, hname⟩ := h.listed _ _ hp
    obtain ⟨rfl, hserial, hindex⟩ := podName_injective hname
    exact absurd hindex (hnew e he hserial)

end

end Steps

theorem schedule_eq_some {request : Resources} {id : Nat} {nodes nodes' : List Node}
    (h : schedule request id nodes = some nodes') :
    ∀ n' ∈ nodes', n' ∈ nodes ∨ ∃ n ∈ nodes, n' = n.addPod request id := by
  induction nodes generalizing nodes' with
  | nil => cases h
  | cons n rest ih =>
    rw [schedule] at h
    split at h
    · cases h
      intro n' hn'
      rcases List.mem_cons.1 hn' with rfl | hn'
      · exact .inr ⟨n, List.mem_cons_self, rfl⟩
      · exact .inl (List.mem_cons_of_mem _ hn')
    · obtain ⟨rest', hrest, rfl⟩ := Option.map_eq_some_iff.1 h
      intro n' hn'
      rcases List.mem_cons.1 hn' with rfl | hn'
      · exact .inl List.mem_cons_self
      · rcases ih hrest n' hn' with hold | ⟨m, hm, hnew⟩
        · exact .inl (List.mem_cons_of_mem _ hold)
        · exact .inr ⟨m, List.mem_cons_of_mem _ hm, hnew⟩

/-! ## Launching a pod -/

/-- What the operations on single pods leave alone. -/
structure Frame (c c' : Controller) : Prop where
  deployments : c'.deployments = c.deployments
  replicaSets : c'.replicaSets = c.replicaSets
  window : c'.window = c.window

theorem Frame.refl (c : Controller) : Frame c c :=
  ⟨rfl, rfl, rfl⟩

theorem Frame.trans {c c' c'' : Controller} (h : Frame c c') (h' : Frame c' c'') : Frame c c'' :=
  ⟨h'.deployments.trans h.deployments, h'.replicaSets.trans h.replicaSets, h'.window.trans h.window⟩

section Launch

variable {c c' : Controller} {own : Name → List Entry} {d : Name} {e : Entry}

/-- The effect of launching the pod of an entry. -/
structure Launched (c c' : Controller) (d : Name) (e : Entry) : Prop where
  heap : c'.heap = c.heap ++ [e.pod d .running]
  nodes : schedule e.request c.heap.length c.nodes = some c'.nodes
  pods : c'.pods
    = Function.update c.pods (podName (rsName d e.serial) e.index) (some c.heap.length)
  frame : Frame c c'
  steps : c'.steps = c.steps

theorem launched (h : c.launch (e.pod d .pending) = .ok c') : Launched c c' d e := by
  rw [launch] at h
  split at h
  · cases h
  · rename_i nodes hnodes
    cases h
    exact ⟨rfl, hnodes, rfl, ⟨rfl, rfl, rfl⟩, rfl⟩

theorem mem_update_append {d' : Name} {e' : Entry} (h : e' ∈ own d') :
    e' ∈ Function.update own d (own d ++ [e]) d' := by
  by_cases hd : d' = d
  · subst hd
    rw [update_self]
    exact List.mem_append_left _ h
  · rwa [update_of_ne hd]

theorem listed_launch (hnew : c.pods (podName (rsName d e.serial) e.index) = none)
    (hl : Launched c c' d e) {id : Nat} (hid : id < c.heap.length) :
    c'.listed id = c.listed id ∧ c'.requestOf id = c.requestOf id := by
  have hheap : c'.heap[id]? = c.heap[id]? := by
    rw [hl.heap, List.getElem?_append_left hid]
  rw [listed, listed, requestOf, requestOf, hheap]
  refine ⟨?_, rfl⟩
  cases hpod : c.heap[id]? with
  | none => rfl
  | some pod =>
    refine decide_eq_decide.2 ?_
    rw [hl.pods]
    by_cases hname : pod.name = podName (rsName d e.serial) e.index
    · -- the pod of that name was not listed, and now another one is
      rw [hname, update_self, hnew, Option.some.injEq]
      exact ⟨fun heq => by omega, fun heq => by cases heq⟩
    · rw [update_of_ne hname]

/-- Launching a pod under a new name appends its entry. -/
theorem Inv.launch (h : Inv c own) (hid : e.id = c.heap.length)
    (hnew : ∀ e' ∈ own d, e'.serial = e.serial → e'.index ≠ e.index)
    (hl : Launched c c' d e) : Inv c' (Function.update own d (own d ++ [e])) := by
  have hnone := h.pods_eq_none hnew
  have hlisted := fun id (hlt : id < c.heap.length) => listed_launch hnone hl hlt
  have hplaced := schedule_eq_some hl.nodes
  refine ⟨?_, ?_, ?_, ?_, ?_, ?_⟩
  · intro d' e' he'
    rw [hl.heap, hl.pods]
    have hold : e' ∈ own d' → ∃ status, status ≠ PodStatus.terminating ∧
        (c.heap ++ [e.pod d .running])[e'.id]? = some (e'.pod d' status) ∧
        update c.pods (podName (rsName d e.serial) e.index) (some c.heap.length)
          (podName (rsName d' e'.serial) e'.index) = some e'.id := by
      intro hmem
      obtain ⟨status, hst, hheap, hpods⟩ := h.entry d' e' hmem
      refine ⟨status, hst, ?_, ?_⟩
      · rw [List.getElem?_append_left (h.entry_lt hmem), hheap]
      · rw [update_of_ne, hpods]
        intro hname
        rw [hname, hnone] at hpods
        cases hpods
    by_cases hd : d' = d
    · subst hd
      rw [update_self] at he'
      rcases List.mem_append.1 he' with hmem | hmem
      · exact hold hmem
      · rw [List.mem_singleton.1 hmem]
        refine ⟨.running, by decide, ?_, ?_⟩
        · rw [hid]
          exact List.getElem?_concat_length
        · rw [update_self, hid]
    · rw [update_of_ne hd] at he'
      exact hold he'
  · intro name id hp
    rw [hl.pods] at hp
    by_cases hname : name = podName (rsName d e.serial) e.index
    · subst hname
      rw [update_self, Option.some.injEq] at hp
      refine ⟨d, e, ?_, hid.trans hp, rfl⟩
      rw [update_self]
      exact List.mem_append_right _ (List.mem_singleton_self _)
    · rw [update_of_ne hname] at hp
      obtain ⟨d', e', he', hid', hname'⟩ := h.listed name id hp
      exact ⟨d', e', mem_update_append he', hid', hname'⟩
  · intro d'
    have hlive := h.live d'
    rw [liveCount] at hlive ⊢
    rw [hl.heap, List.countP_append, hlive]
    by_cases hd : d' = d
    · subst hd
      rw [update_self, List.length_append]
      simp [Pod.live, Entry.pod]
    · rw [update_of_ne hd]
      have hd' : ¬ d = d' := fun heq => hd heq.symm
      simp [Pod.live, Entry.pod, hd']
  · intro d'
    by_cases hd : d' = d
    · subst hd
      rw [update_self, List.map_append, List.map_singleton, hid]
      refine List.nodup_append.2 ⟨h.nodup d', List.nodup_singleton _, ?_⟩
      intro i hi j hj
      obtain ⟨e', he', rfl⟩ := List.mem_map.1 hi
      rw [List.mem_singleton.1 hj]
      exact Nat.ne_of_lt (h.entry_lt he')
    · rw [update_of_ne hd]
      exact h.nodup d'
  · intro n' hn' id hmem
    rw [hl.heap, List.length_append, List.length_singleton]
    rcases hplaced n' hn' with hn | ⟨n, hn, rfl⟩
    · exact Nat.lt_succ_of_lt (h.placed n' hn id hmem)
    · rcases List.mem_append.1 hmem with hmem | hmem
      · exact Nat.lt_succ_of_lt (h.placed n hn id hmem)
      · rw [List.mem_singleton.1 hmem]
        exact Nat.lt_succ_self _
  · -- the pods that were there count as before
    have hused : ∀ n ∈ c.nodes,
        Resources.total ((n.pods.filter c'.listed).map c'.requestOf) = c.used n := fun n hn =>
      Resources.total_filter_congr fun id hmem => .inl (hlisted id (h.placed n hn id hmem))
    have hlast : c'.heap[c.heap.length]? = some (e.pod d .running) := by
      rw [hl.heap]
      exact List.getElem?_concat_length
    have hlastListed : c'.listed c.heap.length = true := by
      rw [Controller.listed, hlast]
      refine decide_eq_true ?_
      rw [hl.pods]
      exact update_self _ _ _
    have hlastRequest : c'.requestOf c.heap.length = e.request := by
      rw [requestOf, hlast]
      rfl
    intro n' hn'
    rcases hplaced n' hn' with hn | ⟨n, hn, rfl⟩
    · rw [used, hused n' hn]
      exact h.resources n' hn
    · have hsum : c'.used (n.addPod e.request c.heap.length) = c.used n + e.request := by
        have hfilter : (n.pods ++ [c.heap.length]).filter c'.listed
            = n.pods.filter c'.listed ++ [c.heap.length] := by
          rw [List.filter_append, List.filter_cons_of_pos hlastListed, List.filter_nil]
        rw [used, Node.addPod, hfilter, List.map_append, Resources.total_append, hused n hn,
          List.map_singleton, hlastRequest]
        simp [Resources.total, Resources.ext_iff']
      rw [hsum]
      have hres := h.resources n hn
      simp only [Node.addPod, Resources.sub, Resources.ext_iff', Resources.add_cpu, Resources.add_memoryMB] at hres ⊢
      omega

end Launch

/-! ## Changing the status of a pod -/

theorem modify_eq_set_of_getElem? {α : Type} {l : List α} {i : Nat} {a : α} (h : l[i]? = some a)
    (f : α → α) : l.modify i f = l.set i (f a) := by
  refine List.ext_getElem? fun j => ?_
  rw [List.getElem?_modify, List.getElem?_set]
  by_cases hij : i = j
  · subst hij
    obtain ⟨hlt, rfl⟩ := List.getElem?_eq_some_iff.1 h
    simp [hlt]
  · simp [hij]

section Status

variable {c c' : Controller} {own : Name → List Entry} {d : Name} {e : Entry}

theorem Inv.eq_of_id_eq (h : Inv c own) (he : e ∈ own d) {d' : Name} {e' : Entry}
    (he' : e' ∈ own d') (hid : e'.id = e.id) : d' = d ∧ e' = e := by
  obtain ⟨status, -, hheap, -⟩ := h.entry d e he
  obtain ⟨status', -, hheap', -⟩ := h.entry d' e' he'
  rw [hid, hheap] at hheap'
  have howner : d = d' := congrArg Pod.owner (Option.some.inj hheap')
  subst howner
  exact ⟨rfl, List.inj_on_of_nodup_map (h.nodup d) he' he hid⟩

theorem Inv.name_ne (h : Inv c own) (he : e ∈ own d) {d' : Name} {e' : Entry} (he' : e' ∈ own d') (hid : e'.id ≠ e.id) :
    podName (rsName d' e'.serial) e'.index ≠ podName (rsName d e.serial) e.index := by
  intro hname
  obtain ⟨_, -, -, hpods⟩ := h.entry d e he
  obtain ⟨_, -, -, hpods'⟩ := h.entry d' e' he'
  rw [hname, hpods] at hpods'
  exact hid (Option.some.inj hpods').symm

/-- The pod of an entry has a new status. -/
structure Restatused (c c' : Controller) (d : Name) (e : Entry) (status : PodStatus) : Prop where
  heap : c'.heap = c.heap.set e.id (e.pod d status)
  nodes : c'.nodes = c.nodes
  frame : Frame c c'
  steps : c'.steps = c.steps

theorem Inv.restatused (h : Inv c own) (he : e ∈ own d) (status : PodStatus) :
    Restatused c (c.setStatus e.id status) d e status ∧ (c.setStatus e.id status).pods = c.pods := by
  obtain ⟨_, -, hheap, -⟩ := h.entry d e he
  exact ⟨⟨modify_eq_set_of_getElem? hheap _, rfl, ⟨rfl, rfl, rfl⟩, rfl⟩, rfl⟩

theorem Inv.terminated (h : Inv c own) (he : e ∈ own d) : Restatused c (c.terminate e.id) d e .terminating ∧
      (c.terminate e.id).pods = Function.update c.pods (podName (rsName d e.serial) e.index) none := by
  obtain ⟨_, -, hheap, -⟩ := h.entry d e he
  rw [terminate, hheap]
  exact ⟨⟨modify_eq_set_of_getElem? hheap _, rfl, ⟨rfl, rfl, rfl⟩, rfl⟩, rfl⟩

theorem Restatused.getElem? {status : PodStatus} (hr : Restatused c c' d e status)
    (h : Inv c own) (he : e ∈ own d) (id : Nat) : (c'.heap[id]?).map (fun pod => (pod.name, pod.request))
      = (c.heap[id]?).map fun pod => (pod.name, pod.request) := by
  obtain ⟨_, -, hheap, -⟩ := h.entry d e he
  have hlt := h.entry_lt he
  rw [hr.heap, List.getElem?_set]
  by_cases hid : e.id = id
  · subst hid
    simp only [if_pos, hlt, hheap, Option.map_some]
    rfl
  · rw [if_neg hid]

theorem listed_eq (c : Controller) (id : Nat) : c.listed id = ((c.heap[id]?).map fun pod => (pod.name, pod.request)).any
      fun x => decide (c.pods x.1 = some id) := by
  rw [listed]
  cases c.heap[id]? <;> rfl

theorem requestOf_eq (c : Controller) (id : Nat) : c.requestOf id
    = (((c.heap[id]?).map fun pod => (pod.name, pod.request)).map Prod.snd).getD 0 := by
  rw [requestOf]
  cases c.heap[id]? <;> rfl

theorem Restatused.requestOf {status : PodStatus} (hr : Restatused c c' d e status) (h : Inv c own)
    (he : e ∈ own d) (id : Nat) : c'.requestOf id = c.requestOf id := by
  rw [requestOf_eq, requestOf_eq, hr.getElem? h he]

/-- Marking a pod as failed changes nothing in the books. -/
theorem Inv.setFailed (h : Inv c own) (he : e ∈ own d) : Inv (c.setStatus e.id .failed) own := by
  obtain ⟨hr, hpods⟩ := h.restatused he .failed
  have hlt := h.entry_lt he
  have hlisted : ∀ id, (c.setStatus e.id .failed).listed id = c.listed id := fun id => by
    rw [listed_eq, listed_eq, hr.getElem? h he, hpods]
  refine ⟨?_, ?_, ?_, h.nodup, ?_, ?_⟩
  · intro d' e' he'
    obtain ⟨status, hst, hheap, hp⟩ := h.entry d' e' he'
    rw [hr.heap, hpods, List.getElem?_set]
    by_cases hid : e.id = e'.id
    · obtain ⟨rfl, rfl⟩ := h.eq_of_id_eq he he' hid.symm
      exact ⟨.failed, by decide, by rw [if_pos rfl, if_pos hlt], hp⟩
    · exact ⟨status, hst, by rw [if_neg hid, hheap], hp⟩
  · rw [hpods]
    exact h.listed
  · intro d'
    obtain ⟨status, hst, hheap, -⟩ := h.entry d e he
    have hget : c.heap[e.id] = e.pod d status := (List.getElem?_eq_some_iff.1 hheap).2
    have hsame : Pod.live d' (e.pod d .failed) = Pod.live d' (e.pod d status) := by
      rw [live_pod (by decide), live_pod hst]
    have hpos : Pod.live d' (e.pod d status) = true → 0 < c.heap.countP (Pod.live d') := fun hp =>
      List.countP_pos_iff.2 ⟨_, List.mem_of_getElem? hheap, hp⟩
    rw [← h.live d', liveCount, liveCount, hr.heap, List.countP_set hlt, hget, hsame]
    split
    · have := hpos ‹_›
      omega
    · omega
  · rw [hr.nodes, hr.heap, List.length_set]
    exact h.placed
  · rw [hr.nodes]
    intro n hn
    have hused : (c.setStatus e.id .failed).used n = c.used n :=
      Resources.total_filter_congr fun id _ => .inl ⟨hlisted id, hr.requestOf h he id⟩
    rw [hused]
    exact h.resources n hn

theorem Inv.perm (h : Inv c own) {es : List Entry} (hperm : (own d).Perm es) : Inv c (Function.update own d es) := by
  have hmem : ∀ d' e', e' ∈ update own d es d' ↔ e' ∈ own d' := by
    intro d' e'
    by_cases hd : d' = d
    · subst hd
      rw [update_self]
      exact hperm.mem_iff.symm
    · rw [update_of_ne hd]
  refine ⟨?_, ?_, ?_, ?_, h.placed, h.resources⟩
  · intro d' e' he'
    exact h.entry d' e' ((hmem d' e').1 he')
  · intro name id hp
    obtain ⟨d', e', he', hid, hname⟩ := h.listed name id hp
    exact ⟨d', e', (hmem d' e').2 he', hid, hname⟩
  · intro d'
    rw [h.live d']
    by_cases hd : d' = d
    · subst hd
      rw [update_self]
      exact hperm.length_eq
    · rw [update_of_ne hd]
  · intro d'
    by_cases hd : d' = d
    · subst hd
      rw [update_self]
      exact (hperm.map Entry.id).nodup_iff.1 (h.nodup d')
    · rw [update_of_ne hd]
      exact h.nodup d'

/-- Terminating a pod that requests nothing removes its entry. -/
theorem Inv.terminate (h : Inv c own) {back : List Entry} (hown : own d = e :: back)
    (hzero : e.request = 0) : Inv (c.terminate e.id) (Function.update own d back) := by
  have he : e ∈ own d := by
    rw [hown]
    exact List.mem_cons_self
  obtain ⟨hr, hpods⟩ := h.terminated he
  have hlt := h.entry_lt he
  have hnodup := h.nodup d
  rw [hown, List.map_cons, List.nodup_cons] at hnodup
  -- the entries that are left are those with another index
  have hleft : ∀ d' e', e' ∈ update own d back d' ↔ e' ∈ own d' ∧ e'.id ≠ e.id := by
    intro d' e'
    by_cases hd : d' = d
    · subst hd
      rw [Function.update_self, hown, List.mem_cons]
      constructor
      · intro hmem
        exact ⟨.inr hmem, fun hid => hnodup.1 (hid ▸ List.mem_map_of_mem hmem)⟩
      · rintro ⟨rfl | hmem, hne⟩
        · exact absurd rfl hne
        · exact hmem
    · rw [update_of_ne hd]
      exact ⟨fun hmem => ⟨hmem, fun hid => hd (h.eq_of_id_eq he hmem hid).1⟩, fun hmem => hmem.1⟩
  refine ⟨?_, ?_, ?_, ?_, ?_, ?_⟩
  · intro d' e' he'
    obtain ⟨hmem, hne⟩ := (hleft d' e').1 he'
    obtain ⟨status, hst, hheap, hp⟩ := h.entry d' e' hmem
    refine ⟨status, hst, ?_, ?_⟩
    · rw [hr.heap, List.getElem?_set_ne (Ne.symm hne), hheap]
    · rw [hpods, update_of_ne (h.name_ne he hmem hne), hp]
  · intro name id hp
    rw [hpods] at hp
    by_cases hname : name = podName (rsName d e.serial) e.index
    · rw [hname, update_self] at hp
      cases hp
    · rw [update_of_ne hname] at hp
      obtain ⟨d', e', he', rfl, hname'⟩ := h.listed name id hp
      refine ⟨d', e', (hleft d' e').2 ⟨he', fun hid => hname ?_⟩, rfl, hname'⟩
      obtain ⟨rfl, rfl⟩ := h.eq_of_id_eq he he' hid
      exact hname'.symm
  · intro d'
    obtain ⟨status, hst, hheap, -⟩ := h.entry d e he
    have hget : c.heap[e.id] = e.pod d status := (List.getElem?_eq_some_iff.1 hheap).2
    have hlive := h.live d'
    rw [liveCount] at hlive ⊢
    rw [hr.heap, List.countP_set hlt, hget, hlive]
    by_cases hd : d' = d
    · subst hd
      rw [update_self, hown]
      simp [Pod.live, Entry.pod, hst]
    · rw [update_of_ne hd]
      have hd' : ¬ d = d' := fun heq => hd heq.symm
      simp [Pod.live, Entry.pod, hd']
  · intro d'
    by_cases hd : d' = d
    · subst hd
      rw [update_self]
      exact hnodup.2
    · rw [update_of_ne hd]
      exact h.nodup d'
  · rw [hr.nodes, hr.heap, List.length_set]
    exact h.placed
  · rw [hr.nodes]
    intro n hn
    have hused : (c.terminate e.id).used n = c.used n := by
      refine Resources.total_filter_congr fun id _ => ?_
      have hreq := hr.requestOf h he id
      by_cases hid : id = e.id
      · -- the pod is not listed any more, but it has requested nothing
        subst hid
        rw [hreq, h.requestOf_entry he]
        exact .inr ⟨hzero, hzero⟩
      · refine .inl ⟨?_, hreq⟩
        rw [listed_eq, listed_eq, hr.getElem? h he, hpods]
        cases hheap : c.heap[id]? with
        | none => rfl
        | some pod =>
          refine decide_eq_decide.2 ?_
          by_cases hname : pod.name = podName (rsName d e.serial) e.index
          · obtain ⟨_, -, -, hp⟩ := h.entry d e he
            show update c.pods _ none pod.name = some id ↔ c.pods pod.name = some id
            rw [hname, update_self, hp]
            constructor
            · intro heq
              cases heq
            · intro heq
              exact absurd (Option.some.inj heq).symm hid
          · show update c.pods _ none pod.name = some id ↔ c.pods pod.name = some id
            rw [update_of_ne hname]
    rw [hused]
    exact h.resources n hn

end Status

end SystemDesignLabs.ContainerOrchestrator
