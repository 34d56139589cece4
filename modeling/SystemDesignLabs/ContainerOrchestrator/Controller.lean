import Mathlib

/-!
# The deployment controller

`deployment.go` and the part of `pod.go` it uses. Pods are shared by pointer between the controller's
map, the slice of a ReplicaSet and the slice of a node, so that the model keeps them in a heap and the
other places hold indices into it. A call that returns an error, panics or never returns yields a
`Failure`; a run consists of calls that return nil.

The creation loops of `createReplicaSet`, `rollingUpdate` and `scaleReplicaSet` differ only in their
bounds: pods are named after the ReplicaSet and the length of its slice (`addPods`).

History variables: a pod's deployment (`owner`), and the numbers of the deployment's pods that are not
terminating after each step of the last `Apply` (`steps`), with the bounds that a rolling update
between equal replica counts promises for them (`window`).
-/

namespace SystemDesignLabs.ContainerOrchestrator

/-- The names of pods, ReplicaSets, deployments and images. -/
abbrev Name := List Char

/-! ## Pods and nodes -/

inductive PodStatus where
  | pending
  | running
  | failed
  | terminating
  deriving DecidableEq, Repr

structure Resources where
  cpu : Int
  memoryMB : Int
  deriving DecidableEq, Repr

namespace Resources

instance : Zero Resources := ⟨⟨0, 0⟩⟩

instance : Add Resources := ⟨fun a b => ⟨a.cpu + b.cpu, a.memoryMB + b.memoryMB⟩⟩

def fits (r available : Resources) : Bool :=
  decide (r.cpu ≤ available.cpu) && decide (r.memoryMB ≤ available.memoryMB)

/-- `Sub`: `available` minus `r`. -/
def sub (r available : Resources) : Resources :=
  ⟨available.cpu - r.cpu, available.memoryMB - r.memoryMB⟩

end Resources

structure Pod where
  name : Name
  image : Name
  status : PodStatus
  request : Resources
  owner : Name
  deriving DecidableEq, Repr

/-- `Node`; `pods` are indices into the heap. -/
structure Node where
  capacity : Resources
  allocatable : Resources
  pods : List Nat
  deriving DecidableEq, Repr

/-- A node as it is registered: nothing is placed on it. -/
def Node.fresh (capacity : Resources) : Node :=
  ⟨capacity, capacity, []⟩

/-- `AddPod` on a node that the request fits on. -/
def Node.addPod (n : Node) (request : Resources) (id : Nat) : Node :=
  { n with allocatable := request.sub n.allocatable, pods := n.pods ++ [id] }

/-- `Schedule`: the first node that the request fits on takes the pod. -/
def schedule (request : Resources) (id : Nat) : List Node → Option (List Node)
  | [] => none
  | n :: rest =>
    if request.fits n.allocatable then some (n.addPod request id :: rest)
    else (schedule request id rest).map fun rest => n :: rest

/-! ## Deployments -/

structure RollingUpdate where
  maxSurge : Int
  maxUnavailable : Int
  deriving DecidableEq, Repr

structure Deployment where
  name : Name
  image : Name
  replicas : Int
  updateStrategy : RollingUpdate
  request : Resources
  deriving DecidableEq, Repr

/-- `ReplicaSet`; `pods` are indices into the heap. -/
structure ReplicaSet where
  name : Name
  image : Name
  replicas : Int
  pods : List Nat
  generation : Nat
  deriving DecidableEq, Repr

/-- `DeploymentController` with the nodes of its scheduler. -/
structure Controller where
  heap : List Pod
  nodes : List Node
  deployments : Name → Option Deployment
  replicaSets : Name → Option ReplicaSet
  pods : Name → Option Nat
  steps : List Int
  window : Option (Int × Int)

/-- `NewDeploymentController` over nodes of these capacities. -/
def Controller.start (capacities : List Resources) : Controller where
  heap := []
  nodes := capacities.map Node.fresh
  deployments := fun _ => none
  replicaSets := fun _ => none
  pods := fun _ => none
  steps := []
  window := none

/-- Why a call does not return nil. -/
inductive Failure where
  /-- No node has capacity for the pod. -/
  | noCapacity (pod : Name)
  /-- The slice of pods is indexed at -1. -/
  | panics
  /-- The loop of `rollingUpdate` makes no progress. -/
  | endless
  deriving DecidableEq, Repr

/-! ## Names -/

/-- `fmt.Sprintf("%s-rs-%d", deployment, serial)`. -/
def rsName (deployment : Name) (serial : Nat) : Name :=
  deployment ++ '-' :: 'r' :: 's' :: '-' :: Nat.toDigits 10 serial

/-- `fmt.Sprintf("%s-%d", rs, index)`. -/
def podName (rs : Name) (index : Nat) : Name :=
  rs ++ '-' :: Nat.toDigits 10 index

/-- `fmt.Sprintf("%s-replacement-%d", failed, nanos)`. -/
def replacementName (failed : Name) (nanos : Nat) : Name :=
  failed ++ "-replacement-".toList ++ Nat.toDigits 10 nanos

/-! ## Single pods -/

/-- Whether `Pods()` lists a pod. -/
def Controller.listed (c : Controller) (id : Nat) : Bool :=
  match c.heap[id]? with
  | none => false
  | some pod => decide (c.pods pod.name = some id)

/-- Whether a pod belongs to a deployment and is not terminating. -/
def Pod.live (owner : Name) (pod : Pod) : Bool :=
  decide (pod.owner = owner) && decide (pod.status ≠ .terminating)

/-- The number of pods of a deployment that are not terminating. -/
def Controller.liveCount (c : Controller) (owner : Name) : Nat :=
  c.heap.countP (Pod.live owner)

/-- The history records the number of the deployment's pods that are not terminating. -/
def Controller.note (c : Controller) (owner : Name) : Controller :=
  { c with steps := c.steps ++ [(c.liveCount owner : Int)] }

/-- A new pod is scheduled and put into the map. -/
def Controller.launch (c : Controller) (pod : Pod) : Except Failure Controller :=
  match schedule pod.request c.heap.length c.nodes with
  | none => .error (.noCapacity pod.name)
  | some nodes =>
    .ok { c with
      heap := c.heap ++ [{ pod with status := .running }]
      nodes := nodes
      pods := Function.update c.pods pod.name (some c.heap.length) }

/-- A pod gets a status. -/
def Controller.setStatus (c : Controller) (id : Nat) (status : PodStatus) : Controller :=
  { c with heap := c.heap.modify id fun pod => { pod with status := status } }

/-- A pod is marked as terminating and taken out of the map. -/
def Controller.terminate (c : Controller) (id : Nat) : Controller :=
  match c.heap[id]? with
  | none => c
  | some pod =>
    { c.setStatus id .terminating with pods := Function.update c.pods pod.name none }

/-! ## The loops over pods -/

/-- The pod that the loops create for a deployment. -/
def Deployment.pod (d : Deployment) (rs : Name) (index : Nat) : Pod where
  name := podName rs index
  image := d.image
  status := .pending
  request := d.request
  owner := d.name

/-- `n` rounds of a creation loop, `ids` being the slice of the ReplicaSet. -/
def addPods (d : Deployment) (rs : Name) : Nat → Controller → List Nat →
    Except Failure (Controller × List Nat)
  | 0, c, ids => .ok (c, ids)
  | n + 1, c, ids =>
    (c.launch (d.pod rs ids.length)).bind fun c' =>
      addPods d rs n (c'.note d.name) (ids ++ [c.heap.length])

/-- The loop that terminates a list of pods. -/
def terminatePods (owner : Name) : List Nat → Controller → Controller
  | [], c => c
  | id :: rest, c => terminatePods owner rest ((c.terminate id).note owner)

/-! ## Apply -/

def Controller.createReplicaSet (c : Controller) (d : Deployment) : Except Failure Controller :=
  (addPods d (rsName d.name 1) d.replicas.toNat c []).bind fun r =>
    .ok { r.1 with
      replicaSets := Function.update r.1.replicaSets d.name
        (some ⟨rsName d.name 1, d.image, d.replicas, r.2, 0⟩) }

/-- A parameter of the strategy; zero is read as one. -/
def atLeastOne (n : Int) : Int :=
  if n = 0 then 1 else n

/-- The rounds of `rollingUpdate`: new pods as far as the surge goes, then old ones are terminated.
`rest` are the old pods that are left and `ids` the slice of the new ReplicaSet. With a positive
`maxUnavailable` every round terminates a pod, so that as many rounds as old pods are enough. -/
def updateRounds (d : Deployment) (rs : Name) (maxSurge maxUnavailable : Int) :
    Nat → Controller → List Nat → List Nat → Except Failure (Controller × List Nat)
  | 0, c, _, ids => .ok (c, ids)
  | n + 1, c, rest, ids =>
    if rest.length = 0 then .ok (c, ids)
    else
      (addPods d rs (min maxSurge.toNat (d.replicas.toNat - ids.length)) c ids).bind fun r =>
        updateRounds d rs maxSurge maxUnavailable n
          (terminatePods d.name (rest.take maxUnavailable.toNat) r.1)
          (rest.drop maxUnavailable.toNat) r.2

/-- The bounds that the strategy promises for an update between equal replica counts. -/
def promised (old new : Deployment) : Option (Int × Int) :=
  if old.replicas = new.replicas then
    some (new.replicas - atLeastOne new.updateStrategy.maxUnavailable,
      new.replicas + atLeastOne new.updateStrategy.maxSurge)
  else none

def Controller.rollingUpdate (c : Controller) (old new : Deployment) : Except Failure Controller :=
  match c.replicaSets old.name with
  | none => c.createReplicaSet new
  | some oldRS =>
    let maxSurge := atLeastOne new.updateStrategy.maxSurge
    let maxUnavailable := atLeastOne new.updateStrategy.maxUnavailable
    let rs := rsName new.name (oldRS.generation + 1)
    let c : Controller := { c with window := promised old new }
    if maxUnavailable < 0 ∧ oldRS.pods.length ≠ 0 then .error .endless
    else
      (updateRounds new rs maxSurge maxUnavailable oldRS.pods.length c oldRS.pods []).bind fun r =>
        -- the pods that the surge did not produce
        (addPods new rs (new.replicas.toNat - r.2.length) r.1 r.2).bind fun f =>
          .ok { f.1 with
            replicaSets := Function.update f.1.replicaSets new.name
              (some ⟨rs, new.image, new.replicas, f.2, oldRS.generation + 1⟩) }

/-- `scaleReplicaSet`; the ReplicaSet is updated in place. -/
def Controller.scaleReplicaSet (c : Controller) (d : Deployment) : Except Failure Controller :=
  match c.replicaSets d.name with
  | none => c.createReplicaSet d
  | some rs =>
    if d.replicas < 0 then .error .panics
    else
      (addPods d rs.name (d.replicas.toNat - rs.pods.length) c rs.pods).bind fun r =>
        -- pods beyond the count are terminated from the end of the slice
        let c := terminatePods d.name (r.2.drop d.replicas.toNat).reverse r.1
        .ok { c with
          replicaSets := Function.update c.replicaSets d.name
            (some { rs with pods := r.2.take d.replicas.toNat }) }

def Controller.apply (c : Controller) (d : Deployment) : Except Failure Controller :=
  let c' : Controller := { c with
    deployments := Function.update c.deployments d.name (some d), steps := [], window := none }
  match c.deployments d.name with
  | none => c'.createReplicaSet d
  | some existing =>
    if existing.image ≠ d.image then c'.rollingUpdate existing d else c'.scaleReplicaSet d

/-! ## Failed pods -/

def Controller.markPodFailed (c : Controller) (name : Name) : Controller :=
  match c.pods name with
  | none => c
  | some id => c.setStatus id .failed

/-- Whether a pod is marked as failed. -/
def Controller.isFailed (c : Controller) (id : Nat) : Bool :=
  match c.heap[id]? with
  | none => false
  | some pod => decide (pod.status = .failed)

/-- The replacement loop of `ReplaceFailedPods`; `nanos` are the readings of the clock. -/
def replacePods : List Nat → List Nat → Controller → Except Failure Controller
  | [], _, c => .ok c
  | id :: rest, nanos, c =>
    match c.heap[id]? with
    | none => replacePods rest nanos.tail c
    | some failed =>
      let c : Controller := { c with pods := Function.update c.pods failed.name none }
      (c.launch { failed with
        name := replacementName failed.name (nanos.headD 0), status := .pending }).bind
        fun c => replacePods rest nanos.tail c

/-- The pods that the map holds. -/
def Controller.listedIds (c : Controller) : List Nat :=
  (List.range c.heap.length).filter c.listed

/-- `ReplaceFailedPods`, the map being walked in the order `order`. -/
def Controller.replaceFailedPods (c : Controller) (order nanos : List Nat) :
    Except Failure Controller :=
  replacePods (order.filter c.isFailed) nanos c

/-! ## Runs -/

/-- A call on the controller. -/
inductive Op where
  | apply (d : Deployment)
  | markPodFailed (name : Name)
  | replaceFailedPods (order nanos : List Nat)
  deriving DecidableEq, Repr

/-- What a call returns, the order of a map being one in which it can be walked. -/
def Controller.call (c : Controller) : Op → Option (Except Failure Controller)
  | .apply d => some (c.apply d)
  | .markPodFailed name => some (.ok (c.markPodFailed name))
  | .replaceFailedPods order nanos =>
    if order.Perm c.listedIds then some (c.replaceFailedPods order nanos) else none

/-- A call that returns nil. -/
def step (c : Controller) (op : Op) : Option Controller :=
  match c.call op with
  | some (.ok c') => some c'
  | _ => none

end SystemDesignLabs.ContainerOrchestrator
