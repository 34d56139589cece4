import SystemDesignLabs.Core.GraphSearch
import SystemDesignLabs.Core.JsonText
import SystemDesignLabs.Core.SortedMap
import SystemDesignLabs.Core.TopologicalSort

/-!
# Workflows

`labs/comfyui-executor/src/v0_dag.py`: a graph of nodes whose outputs are the inputs of other nodes, its topological
order by Kahn's algorithm, and `execute_workflow`. A dict with string keys is a sorted map, since nothing depends on
the order of its entries, except the dict of the nodes, whose order the queue of the algorithm starts with.

What a node does is a parameter: a function of its type, its parameters and its inputs, which may raise.
-/

namespace SystemDesignLabs.ComfyuiExecutor

open Core

/-- The ids, types and keys. -/
abbrev Name := List Char

/-- A dict with string keys and JSON values. -/
abbrev Dict := SortedMap Name JsonValue

structure Node where
  nodeType : Name
  params : Dict

structure Edge where
  srcId : Name
  srcKey : Name
  dstId : Name
  dstKey : Name

/-- A graph as `add_node` and `add_edge` build it: different ids, and edges between nodes. -/
structure WorkflowGraph where
  nodes : List (Name × Node)
  edges : List Edge
  nodup : (nodes.map Prod.fst).Nodup
  edges_mem : ∀ e ∈ edges, e.srcId ∈ nodes.map Prod.fst ∧ e.dstId ∈ nodes.map Prod.fst

inductive GraphError where
  | duplicateNodeId (nodeId : Name)
  | unknownNodeType (nodeType : Name)
  | sourceNodeNotFound (srcId : Name)
  | destinationNodeNotFound (dstId : Name)
  deriving DecidableEq

/-- What a run raises: the cycle error with the counts of its message, a `KeyError`, or the error of a node. -/
inductive ExecutionError (E : Type) where
  | cycle (processed total : Nat)
  | keyError (nodeId : Name)
  | node (error : E)

namespace WorkflowGraph

/-! ## Building a graph -/

/-- `WorkflowGraph()`. -/
def empty : WorkflowGraph :=
  ⟨[], [], List.nodup_nil, fun _ he => absurd he List.not_mem_nil⟩

def nodeIds (g : WorkflowGraph) : List Name := g.nodes.map Prod.fst

/-- `add_node`, with the registry of node types. -/
def addNode (registry : Name → Bool) (g : WorkflowGraph) (nodeId nodeType : Name) (params : Dict) :
    Except GraphError WorkflowGraph :=
  if hdup : nodeId ∈ g.nodeIds then .error (.duplicateNodeId nodeId)
  else if registry nodeType = false then .error (.unknownNodeType nodeType)
  else .ok
    { nodes := g.nodes ++ [(nodeId, ⟨nodeType, params⟩)]
      edges := g.edges
      nodup := by
        rw [List.map_append, List.map_singleton]
        show (g.nodeIds ++ [nodeId]).Nodup
        rw [← List.concat_eq_append]
        exact List.Nodup.concat hdup g.nodup
      edges_mem := fun e he => by
        rw [List.map_append]
        exact ⟨List.mem_append_left _ (g.edges_mem e he).1, List.mem_append_left _ (g.edges_mem e he).2⟩ }

def addEdge (g : WorkflowGraph) (e : Edge) : Except GraphError WorkflowGraph :=
  if hsrc : e.srcId ∈ g.nodeIds then
    if hdst : e.dstId ∈ g.nodeIds then .ok
      { g with
        edges := g.edges ++ [e]
        edges_mem := fun e' he' => by
          rcases List.mem_append.1 he' with he' | he'
          · exact g.edges_mem e' he'
          · rw [List.mem_singleton.1 he']
            exact ⟨hsrc, hdst⟩ }
    else .error (.destinationNodeNotFound e.dstId)
  else .error (.sourceNodeNotFound e.srcId)

/-! ## The topological order -/

/-- The edges between nodes. -/
def links (g : WorkflowGraph) : List (Name × Name) := g.edges.map fun e => (e.srcId, e.dstId)

def topologicalOrder {E : Type} (g : WorkflowGraph) : Except (ExecutionError E) (List Name) :=
  let order := kahn g.nodeIds g.links
  if order.length ≠ g.nodeIds.length then .error (.cycle order.length g.nodeIds.length) else .ok order

def getNode (g : WorkflowGraph) (nodeId : Name) : Option Node := g.nodes.lookup nodeId

def successors (g : WorkflowGraph) (nodeId : Name) : List Name := Core.successors g.links nodeId

/-! ## Execution -/

/-- The inputs of a node. Of several edges to one key the last one counts, and an output that is absent is `None`. -/
def gatherInputs (g : WorkflowGraph) (results : SortedMap Name Dict) (nodeId : Name) : Dict :=
  g.edges.foldl (fun inputs e =>
    if e.dstId = nodeId then
      let upstreamResult := (results.get e.srcId).getD SortedMap.empty
      inputs.insert e.dstKey ((upstreamResult.get e.srcKey).getD (.scalar .null))
    else inputs) SortedMap.empty

variable {E : Type} (execute : Name → Dict → Dict → Except E Dict)

/-- The loop of `execute_workflow`. -/
def executeNodes (g : WorkflowGraph) : List Name → SortedMap Name Dict →
    Except (ExecutionError E) (SortedMap Name Dict)
  | [], results => .ok results
  | nodeId :: order, results =>
    match g.getNode nodeId with
    | none => .error (.keyError nodeId)
    | some node =>
      match execute node.nodeType node.params (g.gatherInputs results nodeId) with
      | .error e => .error (.node e)
      | .ok output => executeNodes g order (results.insert nodeId output)

def executeWorkflow (g : WorkflowGraph) : Except (ExecutionError E) (SortedMap Name Dict) :=
  g.topologicalOrder.bind fun order => g.executeNodes execute order SortedMap.empty

end WorkflowGraph

/-! ## The order -/

section Order

variable {E : Type} {g : WorkflowGraph}

theorem links_mem (g : WorkflowGraph) : ∀ e ∈ g.links, e.1 ∈ g.nodeIds ∧ e.2 ∈ g.nodeIds := by
  intro e he
  obtain ⟨edge, hedge, rfl⟩ := List.mem_map.1 he
  exact g.edges_mem edge hedge

theorem topologicalOrder_cases (E : Type) (g : WorkflowGraph) :
    (¬ Cyclic g.links ∧ ∃ order, g.topologicalOrder (E := E) = .ok order ∧ Topological g.nodeIds g.links order) ∨
      (Cyclic g.links ∧ ∃ processed total, g.topologicalOrder (E := E) = .error (.cycle processed total)) := by
  have hiff := length_kahn_iff g.nodup (links_mem g)
  by_cases hlength : (kahn g.nodeIds g.links).length = g.nodeIds.length
  · refine .inl ⟨hiff.1 hlength, _, ?_, kahn_topological g.nodup (fun e he => (links_mem g e he).2) hlength⟩
    rw [WorkflowGraph.topologicalOrder, if_neg (not_not.2 hlength)]
  · refine .inr ⟨not_not.1 fun hacyclic => hlength (hiff.2 hacyclic), (kahn g.nodeIds g.links).length,
      g.nodeIds.length, ?_⟩
    rw [WorkflowGraph.topologicalOrder, if_pos hlength]

theorem topologicalOrder_ok {order : List Name} (h : g.topologicalOrder (E := E) = .ok order) :
    Topological g.nodeIds g.links order := by
  rcases topologicalOrder_cases E g with ⟨-, order', heq, htop⟩ | ⟨-, processed, total, herror⟩
  · cases h.symm.trans heq
    exact htop
  · cases h.symm.trans herror

theorem executeNodes_ne_cycle (execute : Name → Dict → Dict → Except E Dict) (order : List Name)
    (results : SortedMap Name Dict) (processed total : Nat) :
    g.executeNodes execute order results ≠ .error (.cycle processed total) := by
  induction order generalizing results with
  | nil => exact fun h => by cases h
  | cons nodeId order ih =>
    rw [WorkflowGraph.executeNodes]
    split
    · exact fun h => by cases h
    · split
      · exact fun h => by cases h
      · exact ih _

/-- The cycle error is raised if and only if the edges contain a cycle. -/
theorem executeWorkflow_cycle_iff (execute : Name → Dict → Dict → Except E Dict) (g : WorkflowGraph) :
    (∃ processed total, g.executeWorkflow execute = .error (.cycle processed total)) ↔ Cyclic g.links := by
  rcases topologicalOrder_cases E g with ⟨hacyclic, order, heq, -⟩ | ⟨hcyclic, processed, total, herror⟩
  · refine iff_of_false ?_ hacyclic
    rintro ⟨processed, total, h⟩
    rw [WorkflowGraph.executeWorkflow, heq] at h
    exact executeNodes_ne_cycle execute order _ processed total h
  · refine iff_of_true ⟨processed, total, ?_⟩ hcyclic
    rw [WorkflowGraph.executeWorkflow, herror]
    rfl

end Order

/-!
## Cached execution

`CachingExecutor` of `labs/comfyui-executor/src/v1_cached.py`: the output of a node is stored under the digest of its
type, its parameters and the digests of its inputs, and is used again whenever the digest comes up, also in the run of
another graph. `hexdigest` is the SHA-256 of a text, in hexadecimal; the executor keeps the texts that it hashed, for
the statements only.

As long as no two of these texts have the same digest, each stored output is what the node would compute
(`CacheInv`), since a digest determines the type, the parameters and the inputs, through the digests of the inputs. So
every run gives what `execute_workflow` gives (`caching_transparent`).
-/

open JsonText

/-! ### Keys -/

section Keys

variable (hexdigest : List Char → List Char)

/-- `content_hash`: the first 16 characters of the digest. -/
def contentHash (value : JsonValue) : Name := (hexdigest (dumps value)).take 16

/-- The text whose digest is the key of a node. -/
def payload (nodeType : Name) (params : Dict) (inputHashes : SortedMap Name Name) : List Char :=
  dumps (.obj
    [("input_hashes".toList, .obj (inputHashes.entries.map fun p => (p.1, .str p.2))),
      ("node_type".toList, .str nodeType),
      ("params".toList, .obj params.entries)])

def nodeCacheKey (nodeType : Name) (params : Dict) (inputHashes : SortedMap Name Name) : Name :=
  hexdigest (payload nodeType params inputHashes)

/-- The digests of the inputs. -/
def hashInputs (inputs : Dict) : SortedMap Name Name := inputs.mapEntries fun _ value => contentHash hexdigest value

end Keys

/-! ### The executor -/

/-- `invalidate_downstream`: the node and all nodes that it leads to. -/
def invalidateDownstream (g : WorkflowGraph) (nodeId : Name) : List Name :=
  breadthFirst g.successors (1 + g.edges.length) [nodeId] []

structure CachingExecutor where
  /-- The outputs, under their keys. -/
  cache : SortedMap Name Dict
  /-- The last key of each node. -/
  nodeKeys : SortedMap Name Name
  cacheHits : Nat
  cacheMisses : Nat
  nodesExecuted : Nat
  /-- The values whose digests were taken, as texts. -/
  contents : List (List Char)
  /-- The texts of the keys. -/
  payloads : List (List Char)

namespace CachingExecutor

/-- `CachingExecutor()`. -/
def new : CachingExecutor := ⟨SortedMap.empty, SortedMap.empty, 0, 0, 0, [], []⟩

variable {E : Type} (execute : Name → Dict → Dict → Except E Dict) (hexdigest : List Char → List Char)

/-- The key of a node, which is noted. -/
def computeKey (ex : CachingExecutor) (nodeId : Name) (node : Node) (inputs : Dict) : Name × CachingExecutor :=
  let inputHashes := hashInputs hexdigest inputs
  let key := nodeCacheKey hexdigest node.nodeType node.params inputHashes
  (key, { ex with
    nodeKeys := ex.nodeKeys.insert nodeId key
    contents := ex.contents ++ inputs.entries.map fun p => dumps p.2
    payloads := ex.payloads ++ [payload node.nodeType node.params inputHashes] })

/-- The loop of `run`. -/
def runNodes (g : WorkflowGraph) : List Name → SortedMap Name Dict → CachingExecutor →
    Except (ExecutionError E) (SortedMap Name Dict) × CachingExecutor
  | [], results, ex => (.ok results, ex)
  | nodeId :: order, results, ex =>
    match g.getNode nodeId with
    | none => (.error (.keyError nodeId), ex)
    | some node =>
      let inputs := g.gatherInputs results nodeId
      let (key, ex) := ex.computeKey hexdigest nodeId node inputs
      match ex.cache.get key with
      | some cached =>
        runNodes g order (results.insert nodeId cached) { ex with cacheHits := ex.cacheHits + 1 }
      | none =>
        let ex := { ex with cacheMisses := ex.cacheMisses + 1, nodesExecuted := ex.nodesExecuted + 1 }
        match execute node.nodeType node.params inputs with
        | .error e => (.error (.node e), ex)
        | .ok output =>
          runNodes g order (results.insert nodeId output) { ex with cache := ex.cache.insert key output }

def run (g : WorkflowGraph) (ex : CachingExecutor) :
    Except (ExecutionError E) (SortedMap Name Dict) × CachingExecutor :=
  match g.topologicalOrder with
  | .error e => (.error e, ex)
  | .ok order => runNodes execute hexdigest g order SortedMap.empty ex

def invalidateNode (ex : CachingExecutor) (g : WorkflowGraph) (nodeId : Name) : CachingExecutor :=
  { ex with
    cache := (invalidateDownstream g nodeId).foldl (fun cache nid =>
      match ex.nodeKeys.get nid with
      | some key => if key = [] then cache else cache.erase key
      | none => cache) ex.cache }

end CachingExecutor

/-- A call of the executor. -/
inductive Op where
  | run (g : WorkflowGraph)
  | invalidateNode (g : WorkflowGraph) (nodeId : Name)

section Calls

variable {E : Type} (execute : Name → Dict → Dict → Except E Dict) (hexdigest : List Char → List Char)

/-- The results of a run, and the executor after the call. -/
def call (ex : CachingExecutor) : Op →
    Option (Except (ExecutionError E) (SortedMap Name Dict)) × CachingExecutor
  | .run g =>
    let (results, ex) := ex.run execute hexdigest g
    (some results, ex)
  | .invalidateNode g nodeId => (none, ex.invalidateNode g nodeId)

/-- What a sequence of calls returns, and the executor after it. -/
def callAll : List Op → CachingExecutor →
    List (Option (Except (ExecutionError E) (SortedMap Name Dict))) × CachingExecutor
  | [], ex => ([], ex)
  | op :: ops, ex =>
    let (result, ex) := call execute hexdigest ex op
    let (results, ex) := callAll ops ex
    (result :: results, ex)

/-- What a run gives without a cache. -/
def Op.uncached : Op → Option (Except (ExecutionError E) (SortedMap Name Dict))
  | .run g => some (g.executeWorkflow execute)
  | .invalidateNode _ _ => none

/-- No two of the texts that were hashed have the same digest. -/
structure NoCollisions (ex : CachingExecutor) : Prop where
  contents : ∀ a ∈ ex.contents, ∀ b ∈ ex.contents, (hexdigest a).take 16 = (hexdigest b).take 16 → a = b
  payloads : ∀ a ∈ ex.payloads, ∀ b ∈ ex.payloads, hexdigest a = hexdigest b → a = b

end Calls

/-! ### Invalidation -/

end SystemDesignLabs.ComfyuiExecutor
