import SystemDesignLabs.Core.SortedLists
import SystemDesignLabs.Core.SortedMap
import SystemDesignLabs.Core.TransitionSystem

/-!
# The hash rings

`HashRing` (v0) and `VNodeRing` (v1) of `labs/consistent-hashing/pkg/ring/ring.go`. `hash32`, the first four
bytes of a digest, is a parameter. Both rings keep a sorted slice of positions, which may hold one position
several times, and a map with one owner for each position. They differ in the labels that they hash for a
node, and in how they take the positions of a node away.
-/

namespace SystemDesignLabs.ConsistentHashing

open Core

/-- A position on the ring, a `uint32`. -/
abbrev Position := Fin (2 ^ 32)

structure Node where
  name : String
  addr : String
  deriving DecidableEq

/-- The fields that both rings have. -/
structure Ring where
  positions : List Position
  nodeMap : SortedMap Position Node
  nodes : SortedMap String Node
  deriving DecidableEq

namespace Ring

variable (hash32 : String → Position)

/-- A ring without nodes. -/
def empty : Ring := ⟨[], .empty, .empty⟩

/-- The body of `AddNode`: nothing if the name is taken, otherwise a position for each label. -/
def addNode (labels : List String) (r : Ring) (n : Node) : Ring :=
  match r.nodes.get n.name with
  | some _ => r
  | none =>
    { positions := sortByKey (fun p => p) (r.positions ++ labels.map hash32)
      nodeMap := labels.foldl (fun m label => m.insert (hash32 label) n) r.nodeMap
      nodes := r.nodes.insert n.name n }

/-- The body of `GetNode`: the first position from the hash of the key on, or the first one. -/
def getNode (r : Ring) (key : String) : Option Node :=
  if r.positions.length = 0 then none
  else
    let h := hash32 key
    let idx := search r.positions.length (fromOn r.positions h)
    let idx := if idx = r.positions.length then 0 else idx
    r.positions[idx]?.bind r.nodeMap.get

end Ring

/-! ## v0 -/

/-- `HashRing`. The field `vnodes` is the constant 1, which nothing reads. -/
structure HashRing extends Ring
  deriving DecidableEq

namespace HashRing

variable (hash32 : String → Position)

def new : HashRing := ⟨.empty⟩

def addNode (r : HashRing) (n : Node) : HashRing := ⟨r.toRing.addNode hash32 [n.name] n⟩

/-- `HashRing.RemoveNode`: the position leaves the map, and the slice loses the first position from it
on. -/
def removeNode (r : HashRing) (name : String) : HashRing :=
  match r.nodes.get name with
  | none => r
  | some _ =>
    let pos := hash32 name
    let idx := search r.positions.length (fromOn r.positions pos)
    { positions :=
        if idx < r.positions.length then r.positions.take idx ++ r.positions.drop (idx + 1) else r.positions
      nodeMap := r.nodeMap.erase pos
      nodes := r.nodes.erase name }

def getNode (r : HashRing) (key : String) : Option Node := r.toRing.getNode hash32 key

end HashRing

/-! ## v1 -/

structure VNodeRing extends Ring where
  vnodesN : Nat
  deriving DecidableEq

def vnodeKey (name : String) (i : Nat) : String := name ++ "#" ++ toString i

/-- The labels that `VNodeRing` hashes for a node. -/
def vnodeKeys (vnodesN : Nat) (name : String) : List String := (List.range vnodesN).map (vnodeKey name)

namespace VNodeRing

variable (hash32 : String → Position)

def newVNode (vnodesN : Int) : VNodeRing := ⟨.empty, if vnodesN < 1 then 1 else vnodesN.toNat⟩

def addNode (r : VNodeRing) (n : Node) : VNodeRing :=
  { r with toRing := r.toRing.addNode hash32 (vnodeKeys r.vnodesN n.name) n }

/-- `VNodeRing.RemoveNode`: the positions of all labels leave the map and the slice. -/
def removeNode (r : VNodeRing) (name : String) : VNodeRing :=
  match r.nodes.get name with
  | none => r
  | some _ =>
    let toRemove := (vnodeKeys r.vnodesN name).map hash32
    { r with
      positions := r.positions.filter fun p => p ∉ toRemove
      nodeMap := r.nodeMap.eraseAll toRemove
      nodes := r.nodes.erase name }

def getNode (r : VNodeRing) (key : String) : Option Node := r.toRing.getNode hash32 key

end VNodeRing

/-! ## Runs -/

/-- The operations that change a ring. -/
inductive Op where
  | addNode (n : Node)
  | removeNode (name : String)
  deriving DecidableEq

/-- One operation on a `HashRing`. -/
def HashRing.step (hash32 : String → Position) (r : HashRing) : Op → Option HashRing
  | .addNode n => some (r.addNode hash32 n)
  | .removeNode name => some (r.removeNode hash32 name)

/-- One operation on a `VNodeRing`. -/
def VNodeRing.step (hash32 : String → Position) (r : VNodeRing) : Op → Option VNodeRing
  | .addNode n => some (r.addNode hash32 n)
  | .removeNode name => some (r.removeNode hash32 name)

end SystemDesignLabs.ConsistentHashing
