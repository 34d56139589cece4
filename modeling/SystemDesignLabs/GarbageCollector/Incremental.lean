import SystemDesignLabs.Core.ObjectGraph
import SystemDesignLabs.Core.TransitionSystem

/-!
# Incremental marking

The `IncrementalGc` of `labs/garbage-collector/src/v2.rs`, with the mutator between any two steps of a
cycle. The world also remembers the collector as it was at the last `begin`, and the handles that since
then were made roots, were written as references, or were allocated or listed by an allocated object.

During a cycle no black object refers to a white one, and the worklist has exactly the grey objects. So
`finish` frees nothing that is reachable when no root is white, and it frees all objects that could not be
reached at `begin`, neither from the roots nor from a handle that the mutator touched since
(`incremental_sweeps`). An object below a touched one survives the cycle, as it must when it becomes
reachable through it (`child_survives`).
-/

namespace SystemDesignLabs.GarbageCollector

open Core

structure GcValue where
  data : List UInt8
  refs : List Nat
  deriving DecidableEq

/-- Add a handle to the references, if it is not there. -/
def GcValue.addRef (v : GcValue) (target : Nat) : GcValue :=
  if target ∈ v.refs then v else { v with refs := v.refs ++ [target] }

theorem GcValue.mem_addRef {v : GcValue} {target x : Nat} : x ∈ (v.addRef target).refs ↔ x ∈ v.refs ∨ x = target := by
  rw [addRef]
  split
  · rename_i hmem
    exact ⟨.inl, fun hx => hx.elim id fun heq => heq ▸ hmem⟩
  · rw [List.mem_append, List.mem_singleton]

inductive Color where
  | white
  | grey
  | black
  deriving DecidableEq

structure TriObject where
  value : GcValue
  color : Color
  deriving DecidableEq

/-- The references of an object. -/
def TriObject.refs (o : TriObject) : List Nat := o.value.refs

/-- `IncrementalGc`; the slots are `objects` and `free_list`. -/
structure IncrementalGc where
  heap : Slots TriObject
  roots : List Nat
  worklist : List Nat
  gcInProgress : Bool
  deriving DecidableEq

namespace IncrementalGc

def new : IncrementalGc := ⟨.empty, [], [], false⟩

/-- `alloc`: the handle, and the collector afterwards. -/
def alloc (gc : IncrementalGc) (value : GcValue) : Nat × IncrementalGc :=
  let color := if gc.gcInProgress then Color.grey else .white
  let out := gc.heap.alloc ⟨value, color⟩
  (out.1, { gc with
    heap := out.2
    worklist := if gc.gcInProgress then gc.worklist ++ [out.1] else gc.worklist })

def addRoot (gc : IncrementalGc) (h : Nat) : IncrementalGc :=
  if h ∈ gc.roots then gc else { gc with roots := gc.roots ++ [h] }

def removeRoot (gc : IncrementalGc) (h : Nat) : IncrementalGc :=
  { gc with roots := gc.roots.filter (· ≠ h) }

/-- The slot holds an object of this color. -/
def HasColor (gc : IncrementalGc) (h : Nat) (c : Color) : Prop := (gc.heap.get h).map (·.color) = some c

instance (gc : IncrementalGc) (h : Nat) (c : Color) : Decidable (gc.HasColor h c) :=
  inferInstanceAs (Decidable (_ = _))

/-- Color an object. -/
def paint (gc : IncrementalGc) (h : Nat) (c : Color) : IncrementalGc :=
  { gc with heap := gc.heap.adjust h fun o => { o with color := c } }

/-- Add a handle to the worklist, if it is not there. -/
def enqueue (gc : IncrementalGc) (h : Nat) : IncrementalGc :=
  if h ∈ gc.worklist then gc else { gc with worklist := gc.worklist ++ [h] }

def shadeGrey (gc : IncrementalGc) (h : Nat) : IncrementalGc :=
  if gc.HasColor h .white then (gc.paint h .grey).enqueue h else gc

def writeRef (gc : IncrementalGc) (source target : Nat) : IncrementalGc :=
  let written := { gc with heap := gc.heap.adjust source fun o => { o with value := o.value.addRef target } }
  if written.gcInProgress = false then written
  else if written.HasColor source .black ∧ written.HasColor target .white then
    (written.paint target .grey).enqueue target
  else written

def begin (gc : IncrementalGc) : IncrementalGc :=
  gc.roots.foldl shadeGrey
    { gc with
      heap := gc.heap.mapAll fun o => { o with color := .white }
      worklist := []
      gcInProgress := true }

/-- The references of an object; a dangling handle has none. -/
def refsOf (gc : IncrementalGc) (h : Nat) : List Nat := ((gc.heap.get h).map TriObject.refs).getD []

/-- One turn of the loop of `step`, with the handle that was popped. -/
def scan (gc : IncrementalGc) (h : Nat) : IncrementalGc :=
  ((gc.refsOf h).foldl shadeGrey gc).paint h .black

def step : Nat → IncrementalGc → IncrementalGc
  | 0, gc => gc
  | n + 1, gc =>
    match gc.worklist.getLast? with
    | none => gc
    | some h => step n ({ gc with worklist := gc.worklist.dropLast }.scan h)

def finish (gc : IncrementalGc) : IncrementalGc :=
  { gc with
    heap := gc.heap.sweep (·.color = .white)
    gcInProgress := false }

end IncrementalGc

/-! ## Runs -/

/-- The collector, what it was at the last `begin`, and the handles that were touched since. -/
structure World where
  gc : IncrementalGc
  begun : IncrementalGc
  touched : List Nat
  deriving DecidableEq

/-- The operations. -/
inductive Op where
  | begin
  | step (n : Nat)
  | alloc (value : GcValue)
  | writeRef (source target : Nat)
  | addRoot (h : Nat)
  | removeRoot (h : Nat)
  | finish
  deriving DecidableEq

namespace World

/-- A new collector. -/
def start : World := ⟨.new, .new, []⟩

/-- One operation. `finish` is called only when the worklist is empty. -/
def step (w : World) : Op → Option World
  | .begin => some ⟨w.gc.begin, w.gc, []⟩
  | .step n => some { w with gc := w.gc.step n }
  | .alloc value =>
    let out := w.gc.alloc value
    some { w with
      gc := out.2
      touched := w.touched ++ out.1 :: value.refs }
  | .writeRef source target =>
    some { w with
      gc := w.gc.writeRef source target
      touched := w.touched ++ [target] }
  | .addRoot h => some { w with gc := w.gc.addRoot h, touched := w.touched ++ [h] }
  | .removeRoot h => some { w with gc := w.gc.removeRoot h }
  | .finish => if w.gc.worklist = [] then some { w with gc := w.gc.finish } else none

end World

/-!
## The generational heap

The `GenerationalHeap` of `labs/garbage-collector/src/v1.rs`: a nursery and a tenured generation, each with
its own handles and roots, the write barrier with the remembered set, and the two collections. The world
also remembers the references that the write barrier recorded.

A collection leaves the lists of roots as they are. `GenWorld.Keeps` says that it loses nothing: what can
be reached from an entry of these lists can be reached from the same entry afterwards, at the place where
it is then, with the same data and the same referents. A promoted object is moved to the tenured
generation, but the roots and references to it are not, nor are its own references remembered.
-/

def promotionThreshold : Nat := 2

structure GenObject where
  value : GcValue
  age : Nat
  marked : Bool
  deriving DecidableEq

/-- A new object. -/
def GenObject.fresh (value : GcValue) : GenObject := ⟨value, 0, false⟩

/-- The references of an object. -/
def GenObject.refs (o : GenObject) : List Nat := o.value.refs

/-- The marks of `GenObject`. -/
def genMarking : Marking GenObject where
  refs := GenObject.refs
  marked := GenObject.marked
  mark o := { o with marked := true }
  marked_mark _ := rfl
  refs_mark _ := rfl

/-- `GenHeap`; the slots are `objects` and `free_list`. -/
structure GenHeap where
  heap : Slots GenObject
  roots : List Nat
  deriving DecidableEq

namespace GenHeap

def new : GenHeap := ⟨.empty, []⟩

/-- `GenHeap::alloc`: the handle, and the generation afterwards. -/
def alloc (g : GenHeap) (value : GcValue) : Nat × GenHeap :=
  let out := g.heap.alloc (.fresh value)
  (out.1, { g with heap := out.2 })

def get (g : GenHeap) (h : Nat) : Option GenObject := g.heap.get h

def addRoot (g : GenHeap) (h : Nat) : GenHeap :=
  if h ∈ g.roots then g else { g with roots := g.roots ++ [h] }

def removeRoot (g : GenHeap) (h : Nat) : GenHeap := { g with roots := g.roots.filter (· ≠ h) }

def markFrom (g : GenHeap) (start : Nat) : GenHeap := { g with heap := genMarking.markFrom g.heap start }

def sweep (g : GenHeap) : GenHeap :=
  { g with heap := (g.heap.sweep fun o => !o.marked).mapAll fun o =>
      { o with marked := false, age := o.age + 1 } }

/-- The test of `drain_promoted`. -/
def isPromoted (o : GenObject) : Bool := promotionThreshold ≤ o.age

/-- `GenHeap::drain_promoted`: the objects, and the generation afterwards. -/
def drainPromoted (g : GenHeap) : List GenObject × GenHeap :=
  let objects := g.heap.objects.map (Option.filter fun o => !isPromoted o)
  let freeList := (List.range objects.length).foldl
    (fun freeList i => if objects[i]? = some none ∧ i ∉ freeList then freeList ++ [i] else freeList)
    g.heap.freeList
  (g.heap.objects.filterMap (Option.filter isPromoted), { g with heap := ⟨objects, freeList⟩ })

end GenHeap

structure GenerationalHeap where
  nursery : GenHeap
  tenured : GenHeap
  rememberedSet : List Nat
  deriving DecidableEq

namespace GenerationalHeap

def new : GenerationalHeap := ⟨.new, .new, []⟩

/-- The references of a tenured object; a dangling handle has none. -/
def tenuredRefs (h : GenerationalHeap) (t : Nat) : List Nat := ((h.tenured.get t).map GenObject.refs).getD []

/-- `write_barrier_tenured_to_nursery`. -/
def writeBarrier (h : GenerationalHeap) (t n : Nat) : GenerationalHeap :=
  { h with
    tenured := { h.tenured with
      heap := h.tenured.heap.adjust t fun o => { o with value := o.value.addRef n } }
    rememberedSet := if t ∈ h.rememberedSet then h.rememberedSet else h.rememberedSet ++ [t] }

/-- The nursery of `minor_gc` after the marking and the sweep. -/
def sweptNursery (h : GenerationalHeap) : GenHeap :=
  let marked := h.nursery.roots.foldl GenHeap.markFrom h.nursery
  (h.rememberedSet.foldl (fun nursery t => (h.tenuredRefs t).foldl GenHeap.markFrom nursery) marked).sweep

def minorGc (h : GenerationalHeap) : GenerationalHeap :=
  let drained := h.sweptNursery.drainPromoted
  let tenured := drained.1.foldl (fun tenured o => (tenured.alloc o.value).2) h.tenured
  { h with
    nursery := drained.2
    tenured := tenured
    rememberedSet := h.rememberedSet.filter fun t => (tenured.get t).isSome }

def majorGc (h : GenerationalHeap) : GenerationalHeap :=
  let minor := h.minorGc
  { minor with
    tenured := (minor.tenured.roots.foldl GenHeap.markFrom minor.tenured).sweep
    rememberedSet := [] }

end GenerationalHeap

/-! ### Runs -/

/-- The heap, and the references that the write barrier wrote into a tenured object that is still
there. -/
structure GenWorld where
  heap : GenerationalHeap
  recorded : List (Nat × Nat)
  deriving DecidableEq

/-- The operations. -/
inductive GenOp where
  | alloc (value : GcValue)
  | allocTenured (value : GcValue)
  | addNurseryRoot (h : Nat)
  | addTenuredRoot (h : Nat)
  | removeNurseryRoot (h : Nat)
  | removeTenuredRoot (h : Nat)
  | writeBarrier (t n : Nat)
  | minorGc
  | majorGc
  deriving DecidableEq

/-- A handle of one of the generations. -/
inductive Loc where
  | nursery (h : Nat)
  | tenured (t : Nat)
  deriving DecidableEq

namespace GenWorld

/-- A new heap. -/
def start : GenWorld := ⟨.new, []⟩

/-- One operation. -/
def step (w : GenWorld) : GenOp → Option GenWorld
  | .alloc value => some { w with heap := { w.heap with nursery := (w.heap.nursery.alloc value).2 } }
  | .allocTenured value => some { w with heap := { w.heap with tenured := (w.heap.tenured.alloc value).2 } }
  | .addNurseryRoot h => some { w with heap := { w.heap with nursery := w.heap.nursery.addRoot h } }
  | .addTenuredRoot h => some { w with heap := { w.heap with tenured := w.heap.tenured.addRoot h } }
  | .removeNurseryRoot h => some { w with heap := { w.heap with nursery := w.heap.nursery.removeRoot h } }
  | .removeTenuredRoot h => some { w with heap := { w.heap with tenured := w.heap.tenured.removeRoot h } }
  | .writeBarrier t n => some
      { heap := w.heap.writeBarrier t n
        recorded := if (w.heap.tenured.get t).isSome then w.recorded ++ [(t, n)] else w.recorded }
  | .minorGc => some { w with heap := w.heap.minorGc }
  | .majorGc => some
      { heap := w.heap.majorGc
        recorded := w.recorded.filter fun r => (w.heap.majorGc.tenured.get r.1).isSome }

/-! ### What a collection has to keep -/

/-- The object at a handle. -/
def object (w : GenWorld) : Loc → Option GenObject
  | .nursery h => w.heap.nursery.get h
  | .tenured t => w.heap.tenured.get t

/-- The handle is an entry of the roots of its generation, and has an object. -/
def Root (w : GenWorld) (x : Loc) : Prop :=
  w.object x ≠ none ∧
    match x with
    | .nursery h => h ∈ w.heap.nursery.roots
    | .tenured t => t ∈ w.heap.tenured.roots

/-- The first object refers to the second one, by a nursery reference or by a recorded reference. -/
def Edge (w : GenWorld) : Loc → Loc → Prop
  | .nursery h, .nursery n => Refers GenObject.refs w.heap.nursery.heap h n ∧ w.heap.nursery.get n ≠ none
  | .tenured t, .nursery n => (t, n) ∈ w.recorded ∧ w.heap.nursery.get n ≠ none
  | _, .tenured _ => False

/-- The handles of the nursery that the next collection promotes, in order. -/
def promoted (w : GenWorld) : List Nat := w.heap.sweptNursery.heap.select GenHeap.isPromoted

/-- The tenured handles that they get. -/
def promotedTo (w : GenWorld) : List Nat :=
  (w.heap.tenured.heap.allocAll (w.heap.sweptNursery.drainPromoted.1.map fun o => .fresh o.value)).1

/-- Where the next collection puts an object. -/
def relocate (w : GenWorld) : Loc → Loc
  | .nursery h =>
    match w.promotedTo[w.promoted.idxOf h]? with
    | some t => .tenured t
    | none => .nursery h
  | .tenured t => .tenured t

/-- The collection loses nothing that can be reached from a root. -/
def Keeps (w w' : GenWorld) : Prop :=
  ∀ r x, w.Root r → Relation.ReflTransGen w.Edge r x →
    w'.Root r ∧ Relation.ReflTransGen w'.Edge r (w.relocate x) ∧
      (w'.object (w.relocate x)).map (·.value.data) = (w.object x).map (·.value.data) ∧
      ∀ z, w'.Edge (w.relocate x) z ↔ ∃ y, w.Edge x y ∧ w.relocate y = z

/-- The roots of `minor_gc`: the nursery roots, and the references of the remembered objects. -/
def MinorRoot (w : GenWorld) (n : Nat) : Prop :=
  n ∈ w.heap.nursery.roots ∨ ∃ t ∈ w.heap.rememberedSet, n ∈ w.heap.tenuredRefs t

/-- The nursery object can be reached from the roots of `minor_gc`. -/
def MinorReached (w : GenWorld) (n : Nat) : Prop :=
  Reaches (Refers GenObject.refs w.heap.nursery.heap) w.MinorRoot n

/-- Every nursery object that can be reached from a root can be reached from the roots of `minor_gc`, and
does not get to the age of promotion. -/
def Stays (w : GenWorld) : Prop :=
  ∀ n o, Reaches w.Edge w.Root (.nursery n) → w.heap.nursery.get n = some o →
    w.MinorReached n ∧ o.age + 1 < promotionThreshold

end GenWorld

end SystemDesignLabs.GarbageCollector
