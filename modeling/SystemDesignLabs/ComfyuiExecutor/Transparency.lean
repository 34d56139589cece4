import SystemDesignLabs.ComfyuiExecutor.Workflow

/-!
# Caching is transparent

What a key determines (`payload_injective`, `inputs_eq_of_hash`), the invariant of the cache, that a run keeps it and
gives what it would give without a cache (`runNodes_eq`), and the same for sequences of calls.
-/

namespace SystemDesignLabs.ComfyuiExecutor

open List Core JsonText SortedMap

/-! ## What a key determines -/

theorem eq_of_entries {V : Type} {m m' : SortedMap Name V} (h : m.entries = m'.entries) : m = m' := by
  obtain ⟨entries, sorted⟩ := m
  obtain ⟨entries', sorted'⟩ := m'
  have heq : entries = entries' := h
  subst heq
  rfl

theorem payload_injective {nodeType nodeType' : Name} {params params' : Dict} {hashes hashes' : SortedMap Name Name}
    (h : payload nodeType params hashes = payload nodeType' params' hashes') :
    nodeType = nodeType' ∧ params = params' ∧ hashes = hashes' := by
  have hobj := dumps_injective h
  simp only [JsonValue.obj.injEq, cons.injEq, Prod.mk.injEq, JsonValue.str.injEq, true_and, and_true] at hobj
  obtain ⟨hhashes, htype, hparams⟩ := hobj
  have hinj : Function.Injective fun p : Name × Name => (p.1, JsonValue.str p.2) := by
    rintro ⟨k, v⟩ ⟨k', v'⟩ heq
    simp only [Prod.mk.injEq, JsonValue.str.injEq] at heq
    rw [heq.1, heq.2]
  exact ⟨htype, eq_of_entries hparams, eq_of_entries (map_injective_iff.2 hinj hhashes)⟩

theorem eq_of_map_eq {A B : Type} {f : A → B} {l l' : List A} (hf : ∀ a ∈ l, ∀ b ∈ l', f a = f b → a = b)
    (h : l.map f = l'.map f) : l = l' := by
  induction l generalizing l' with
  | nil => exact (map_eq_nil_iff.1 h.symm).symm
  | cons a l ih =>
    cases l' with
    | nil => exact absurd h (cons_ne_nil _ _)
    | cons b l' =>
      rw [map_cons, map_cons, cons.injEq] at h
      rw [hf a mem_cons_self b mem_cons_self h.1,
        ih (fun a ha b hb => hf a (mem_cons_of_mem _ ha) b (mem_cons_of_mem _ hb)) h.2]

section Cache

variable {E : Type} {execute : Name → Dict → Dict → Except E Dict} {hexdigest : List Char → List Char}
  {ex ex' : CachingExecutor} {inputs inputs' : Dict}

/-- The values of the inputs were hashed. -/
def Hashed (ex : CachingExecutor) (inputs : Dict) : Prop := ∀ p ∈ inputs.entries, dumps p.2 ∈ ex.contents

/-- The digests of the inputs determine the inputs. -/
theorem inputs_eq_of_hash (h : NoCollisions hexdigest ex) (hin : Hashed ex inputs) (hin' : Hashed ex inputs')
    (heq : hashInputs hexdigest inputs = hashInputs hexdigest inputs') : inputs = inputs' := by
  refine eq_of_entries (eq_of_map_eq (fun p hp q hq hpq => ?_) (congrArg entries heq))
  rw [Prod.mk.injEq] at hpq
  have htext := h.contents _ (hin p hp) _ (hin' q hq) hpq.2
  exact Prod.ext hpq.1 (dumps_injective htext)

/-- Every output of the cache is what a node computes whose key it is stored under. -/
def CacheInv (execute : Name → Dict → Dict → Except E Dict) (hexdigest : List Char → List Char)
    (ex : CachingExecutor) : Prop :=
  ∀ key output, ex.cache.get key = some output → ∃ (node : Node) (inputs : Dict),
    key = nodeCacheKey hexdigest node.nodeType node.params (hashInputs hexdigest inputs) ∧
      payload node.nodeType node.params (hashInputs hexdigest inputs) ∈ ex.payloads ∧ Hashed ex inputs ∧
        execute node.nodeType node.params inputs = .ok output

/-- More texts were hashed. -/
def Grows (ex ex' : CachingExecutor) : Prop := ex.contents ⊆ ex'.contents ∧ ex.payloads ⊆ ex'.payloads

theorem Grows.refl (ex : CachingExecutor) : Grows ex ex := ⟨Subset.refl _, Subset.refl _⟩

theorem Grows.trans {ex'' : CachingExecutor} (h : Grows ex ex') (h' : Grows ex' ex'') : Grows ex ex'' :=
  ⟨Subset.trans h.1 h'.1, Subset.trans h.2 h'.2⟩

theorem Grows.before {ex'' : CachingExecutor} (h : Grows ex' ex'') (hcontents : ex.contents ⊆ ex'.contents)
    (hpayloads : ex.payloads ⊆ ex'.payloads) : Grows ex ex'' :=
  ⟨Subset.trans hcontents h.1, Subset.trans hpayloads h.2⟩

theorem NoCollisions.of_grows (h : NoCollisions hexdigest ex') (hgrows : Grows ex ex') : NoCollisions hexdigest ex :=
  ⟨fun a ha b hb => h.contents a (hgrows.1 ha) b (hgrows.1 hb),
    fun a ha b hb => h.payloads a (hgrows.2 ha) b (hgrows.2 hb)⟩

theorem grows_computeKey (ex : CachingExecutor) (nodeId : Name) (node : Node) (inputs : Dict) :
    Grows ex (ex.computeKey hexdigest nodeId node inputs).2 :=
  ⟨subset_append_left _ _, subset_append_left _ _⟩

theorem hashed_computeKey (ex : CachingExecutor) (nodeId : Name) (node : Node) (inputs : Dict) :
    Hashed (ex.computeKey hexdigest nodeId node inputs).2 inputs ∧
      payload node.nodeType node.params (hashInputs hexdigest inputs) ∈
        (ex.computeKey hexdigest nodeId node inputs).2.payloads :=
  ⟨fun p hp => mem_append_right _ (mem_map.2 ⟨p, hp, rfl⟩), mem_append_right _ mem_cons_self⟩

theorem CacheInv.mono (h : CacheInv execute hexdigest ex) (hgrows : Grows ex ex')
    (hcache : ∀ key output, ex'.cache.get key = some output → ex.cache.get key = some output) :
    CacheInv execute hexdigest ex' := by
  intro key output hget
  obtain ⟨node, inputs, hkey, hpayload, hhashed, hexec⟩ := h key output (hcache key output hget)
  exact ⟨node, inputs, hkey, hgrows.2 hpayload, fun p hp => hgrows.1 (hhashed p hp), hexec⟩

variable {output : Dict}

/-- A hit is what the node would compute. -/
theorem CacheInv.hit (h : CacheInv execute hexdigest ex) (hcoll : NoCollisions hexdigest ex) {node : Node}
    (hhashed : Hashed ex inputs)
    (hpayload : payload node.nodeType node.params (hashInputs hexdigest inputs) ∈ ex.payloads)
    (hget : ex.cache.get (nodeCacheKey hexdigest node.nodeType node.params (hashInputs hexdigest inputs)) = some output) :
    execute node.nodeType node.params inputs = .ok output := by
  obtain ⟨node', inputs', hkey, hpayload', hhashed', hexec⟩ := h _ _ hget
  obtain ⟨htype, hparams, hhashes⟩ := payload_injective (hcoll.payloads _ hpayload _ hpayload' hkey)
  have hinputs := inputs_eq_of_hash hcoll hhashed hhashed' hhashes
  rw [htype, hparams, hinputs, hexec]

theorem CacheInv.insert (h : CacheInv execute hexdigest ex) {node : Node} (hhashed : Hashed ex inputs)
    (hpayload : payload node.nodeType node.params (hashInputs hexdigest inputs) ∈ ex.payloads)
    (hexec : execute node.nodeType node.params inputs = .ok output)
    (hex' : ex'.cache = ex.cache.insert (nodeCacheKey hexdigest node.nodeType node.params (hashInputs hexdigest inputs)) output)
    (hgrows : Grows ex ex') : CacheInv execute hexdigest ex' := by
  intro key output' hget
  rw [hex', get_insert] at hget
  split at hget
  · next hkey =>
    cases hget
    exact ⟨node, inputs, hkey, hgrows.2 hpayload, fun p hp => hgrows.1 (hhashed p hp), hexec⟩
  · obtain ⟨node', inputs', hkey', hpayload', hhashed', hexec'⟩ := h key output' hget
    exact ⟨node', inputs', hkey', hgrows.2 hpayload', fun p hp => hgrows.1 (hhashed' p hp), hexec'⟩

/-! ## Runs -/

theorem grows_runNodes (g : WorkflowGraph) (order : List Name) (results : SortedMap Name Dict)
    (ex : CachingExecutor) : Grows ex (ex.runNodes execute hexdigest g order results).2 := by
  induction order generalizing results ex with
  | nil => exact Grows.refl ex
  | cons nodeId order ih =>
    rw [CachingExecutor.runNodes]
    cases g.getNode nodeId with
    | none => exact Grows.refl ex
    | some node =>
      have hkey := @grows_computeKey hexdigest ex nodeId node (g.gatherInputs results nodeId)
      simp only
      split
      · exact Grows.before (ih _ _) hkey.1 hkey.2
      · split
        · exact hkey
        · exact Grows.before (ih _ _) hkey.1 hkey.2

/-- The nodes give what they would give without a cache. -/
theorem runNodes_eq (g : WorkflowGraph) (order : List Name) (results : SortedMap Name Dict)
    (h : CacheInv execute hexdigest ex)
    (hcoll : NoCollisions hexdigest (ex.runNodes execute hexdigest g order results).2) :
    (ex.runNodes execute hexdigest g order results).1 = g.executeNodes execute order results ∧
      CacheInv execute hexdigest (ex.runNodes execute hexdigest g order results).2 := by
  induction order generalizing results ex with
  | nil => exact ⟨rfl, h⟩
  | cons nodeId order ih =>
    rw [CachingExecutor.runNodes] at hcoll ⊢
    rw [WorkflowGraph.executeNodes]
    cases hnode : g.getNode nodeId with
    | none => exact ⟨rfl, h⟩
    | some node =>
      rw [hnode] at hcoll
      generalize g.gatherInputs results nodeId = inputs at hcoll ⊢
      have hgrows := @grows_computeKey hexdigest ex nodeId node inputs
      obtain ⟨hhashed, hpayload⟩ := @hashed_computeKey hexdigest ex nodeId node inputs
      have hinv : CacheInv execute hexdigest (ex.computeKey hexdigest nodeId node inputs).2 :=
        h.mono hgrows fun _ _ hget => hget
      have hkey : (ex.computeKey hexdigest nodeId node inputs).1 =
        nodeCacheKey hexdigest node.nodeType node.params (hashInputs hexdigest inputs) := rfl
      simp only [hkey] at hcoll ⊢
      generalize (ex.computeKey hexdigest nodeId node inputs).2 = ex₁ at *
      cases hget : ex₁.cache.get
          (nodeCacheKey hexdigest node.nodeType node.params (hashInputs hexdigest inputs)) with
      | some cached =>
        simp only [hget] at hcoll ⊢
        -- the digest determines what the node was given
        have hbefore := hcoll.of_grows (grows_runNodes g order (results.insert nodeId cached)
          { ex₁ with cacheHits := ex₁.cacheHits + 1 })
        have hhit := hinv.hit ⟨hbefore.contents, hbefore.payloads⟩ hhashed hpayload hget
        rw [hhit]
        exact ih (results.insert nodeId cached) (hinv.mono (Grows.refl ex₁) fun _ _ h => h) hcoll
      | none =>
        simp only [hget] at hcoll ⊢
        cases hexec : execute node.nodeType node.params inputs with
        | error e => exact ⟨rfl, hinv.mono (Grows.refl ex₁) fun _ _ h => h⟩
        | ok output =>
          simp only [hexec] at hcoll ⊢
          exact ih (results.insert nodeId output)
            (hinv.insert hhashed hpayload hexec rfl (Grows.refl ex₁)) hcoll

theorem grows_call (ex : CachingExecutor) (op : Op) : Grows ex (call execute hexdigest ex op).2 := by
  cases op with
  | run g =>
    show Grows ex (ex.run execute hexdigest g).2
    rw [CachingExecutor.run]
    cases g.topologicalOrder with
    | error e => exact Grows.refl ex
    | ok order => exact grows_runNodes g order empty ex
  | invalidateNode g nodeId => exact Grows.refl ex

theorem get_eraseNodes {key : Name} (affected : List Name) {cache : SortedMap Name Dict}
    (h : (affected.foldl (fun cache nid =>
      match ex.nodeKeys.get nid with
      | some key => if key = [] then cache else cache.erase key
      | none => cache) cache).get key = some output) : cache.get key = some output := by
  induction affected generalizing cache with
  | nil => exact h
  | cons nid affected ih =>
    have hcache := ih h
    simp only at hcache
    split at hcache
    · split at hcache
      · exact hcache
      · rw [get_erase] at hcache
        exact (Option.ite_none_left_eq_some.1 hcache).2
    · exact hcache

theorem get_invalidateNode {g : WorkflowGraph} {nodeId key : Name}
    (h : (ex.invalidateNode g nodeId).cache.get key = some output) : ex.cache.get key = some output := get_eraseNodes _ h

/-- A call returns what it would return without a cache. -/
theorem call_eq (h : CacheInv execute hexdigest ex) (op : Op)
    (hcoll : NoCollisions hexdigest (call execute hexdigest ex op).2) :
    (call execute hexdigest ex op).1 = op.uncached execute ∧
      CacheInv execute hexdigest (call execute hexdigest ex op).2 := by
  cases op with
  | run g =>
    have hcoll : NoCollisions hexdigest (ex.run execute hexdigest g).2 := hcoll
    show some (ex.run execute hexdigest g).1 = some (g.executeWorkflow execute) ∧
      CacheInv execute hexdigest (ex.run execute hexdigest g).2
    rw [CachingExecutor.run] at hcoll ⊢
    rw [WorkflowGraph.executeWorkflow]
    cases hord : g.topologicalOrder (E := E) with
    | error e => exact ⟨rfl, h⟩
    | ok order =>
      rw [hord] at hcoll
      obtain ⟨hresults, hinv⟩ := runNodes_eq g order empty h hcoll
      exact ⟨congrArg some hresults, hinv⟩
  | invalidateNode g nodeId => exact ⟨rfl, h.mono (Grows.refl ex) fun _ _ => get_invalidateNode⟩

theorem grows_callAll (ops : List Op) (ex : CachingExecutor) : Grows ex (callAll execute hexdigest ops ex).2 := by
  induction ops generalizing ex with
  | nil => exact Grows.refl ex
  | cons op ops ih => exact (grows_call ex op).trans (ih _)

theorem callAll_eq (h : CacheInv execute hexdigest ex) (ops : List Op)
    (hcoll : NoCollisions hexdigest (callAll execute hexdigest ops ex).2) :
    (callAll execute hexdigest ops ex).1 = ops.map (Op.uncached execute) := by
  induction ops generalizing ex with
  | nil => rfl
  | cons op ops ih =>
    obtain ⟨hresult, hinv⟩ := call_eq h op (hcoll.of_grows (grows_callAll ops _))
    exact congrArg₂ cons hresult (ih hinv hcoll)

end Cache

section Main

variable {E : Type} (execute : Name → Dict → Dict → Except E Dict) (hexdigest : List Char → List Char)

end Main

/-! ## A cached run -/

/-- Two of the node types: `LoadText` and `SaveResult`. -/
def textNodes (nodeType : Name) (params inputs : Dict) : Except Unit Dict :=
  if nodeType = "LoadText".toList then
    .ok (SortedMap.empty.insert "text".toList ((params.get "text".toList).getD (.str [])))
  else if nodeType = "SaveResult".toList then .ok inputs
  else .error ()

/-- A text and where it is saved, under the given ids. -/
def textGraph (load save : Name) (h : load ≠ save) : WorkflowGraph where
  nodes := [(load, ⟨"LoadText".toList, SortedMap.empty.insert "text".toList (.str "a cat".toList)⟩),
    (save, ⟨"SaveResult".toList, SortedMap.empty⟩)]
  edges := [⟨load, "text".toList, save, "text".toList⟩]
  nodup := List.nodup_cons.2 ⟨fun hmem => h (List.mem_singleton.1 hmem), List.nodup_singleton save⟩
  edges_mem := fun e he => by
    rw [List.mem_singleton.1 he]
    exact ⟨List.mem_cons_self, List.mem_cons_of_mem _ List.mem_cons_self⟩

/-- The SHA-256 of the three texts that the runs of these graphs hash. -/
def textDigests (text : List Char) : List Char :=
  if text = "\"a cat\"".toList then "207fe2a0613b0db691e96426743de093be4859b199658d2b05d8d79ced42ce7d".toList
  else if text = "\x7b\"input_hashes\": \x7b\x7d, \"node_type\": \"LoadText\", \"params\": \x7b\"text\": \"a cat\"\x7d\x7d".toList
  then "0aa58d554d61320b3a0b0070c2b1e0f6a300237e9986f34d49787b03dcdfe6dd".toList
  else if text = "\x7b\"input_hashes\": \x7b\"text\": \"207fe2a0613b0db6\"\x7d, \"node_type\": \"SaveResult\", \"params\": \x7b\x7d\x7d".toList
  then "fa42bd182ee09ff8016728111810afc0deca31c5118b5c0f0ca2f89fd2f67268".toList
  else text

/-- A run, an invalidation, the run of another graph that hits the cache once, and a third run. -/
def textCalls : List Op :=
  [.run (textGraph ['n'] ['m'] (by decide)), .invalidateNode (textGraph ['n'] ['m'] (by decide)) ['m'],
    .run (textGraph ['a'] ['b'] (by decide)), .run (textGraph ['n'] ['m'] (by decide))]

instance (hexdigest : List Char → List Char) (ex : CachingExecutor) : Decidable (NoCollisions hexdigest ex) :=
  decidable_of_iff ((∀ a ∈ ex.contents, ∀ b ∈ ex.contents, (hexdigest a).take 16 = (hexdigest b).take 16 → a = b) ∧
    ∀ a ∈ ex.payloads, ∀ b ∈ ex.payloads, hexdigest a = hexdigest b → a = b)
    ⟨fun h => ⟨h.1, h.2⟩, fun h => ⟨h.contents, h.payloads⟩⟩

end SystemDesignLabs.ComfyuiExecutor
