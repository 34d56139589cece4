import SystemDesignLabs.GarbageCollector.Incremental

/-!
# Stop-the-world collection

The `Heap` of `labs/garbage-collector/src/v0.rs`. Between the calls no object is marked and the free list has the
empty slots, so that a collection frees exactly what cannot be reached from the roots (`collect_exact`).
-/

namespace SystemDesignLabs.GarbageCollector

open Core Slots

structure GcObject where
  value : GcValue
  marked : Bool
  deriving DecidableEq

/-- The references of an object. -/
def GcObject.refs (o : GcObject) : List Nat := o.value.refs

/-- The marks of `GcObject`. -/
def heapMarking : Marking GcObject where
  refs := GcObject.refs
  marked := GcObject.marked
  mark o := { o with marked := true }
  marked_mark _ := rfl
  refs_mark _ := rfl

structure GcStats where
  objectsBefore : Nat
  objectsAfter : Nat
  freed : Nat
  collections : Nat
  deriving DecidableEq

/-- `Heap`; the slots are `objects` and `free_list`. -/
structure Heap where
  heap : Slots GcObject
  roots : List Nat
  stats : GcStats
  deriving DecidableEq

namespace Heap

def new : Heap := ⟨.empty, [], ⟨0, 0, 0, 0⟩⟩

/-- `alloc`: the handle, and the heap afterwards. -/
def alloc (s : Heap) (value : GcValue) : Nat × Heap :=
  let out := s.heap.alloc ⟨value, false⟩
  (out.1, { s with heap := out.2 })

def addRoot (s : Heap) (h : Nat) : Heap :=
  if h ∈ s.roots then s else { s with roots := s.roots ++ [h] }

def removeRoot (s : Heap) (h : Nat) : Heap :=
  { s with roots := s.roots.filter (· ≠ h) }

def get (s : Heap) (h : Nat) : Option GcObject := s.heap.get h

def addRef (s : Heap) (source target : Nat) : Heap :=
  { s with heap := s.heap.adjust source fun o => { o with value := o.value.addRef target } }

def liveCount (s : Heap) : Nat := s.heap.objects.countP Option.isSome

/-- `collect`: every root is marked from, and then the unmarked objects are freed and the marks of the others cleared. -/
def collect (s : Heap) : Heap :=
  let marked := heapMarking.markAll s.heap s.roots
  let swept := (marked.sweep fun o => !o.marked).mapAll fun o => { o with marked := false }
  let after := { s with heap := swept }
  { after with stats :=
      ⟨s.liveCount, after.liveCount, s.stats.freed + (marked.select fun o => !o.marked).length,
        s.stats.collections + 1⟩ }

/-! ### Runs -/

/-- The calls. -/
inductive Call where
  | alloc (value : GcValue)
  | addRef (source target : Nat)
  | addRoot (h : Nat)
  | removeRoot (h : Nat)
  | collect
  deriving DecidableEq

/-- The heap after a call. -/
def call (s : Heap) : Call → Heap
  | .alloc value => (s.alloc value).2
  | .addRef source target => s.addRef source target
  | .addRoot h => s.addRoot h
  | .removeRoot h => s.removeRoot h
  | .collect => s.collect

/-- The heap after a sequence of calls. -/
def run (calls : List Call) : Heap :=
  calls.foldl call new

/-- A handle can be reached from the roots. -/
def Reachable (s : Heap) (h : Nat) : Prop :=
  Reaches (Refers GcObject.refs s.heap) (· ∈ s.roots) h

/-- The free list has the empty slots, and no object is marked. -/
structure Clean (s : Heap) : Prop where
  sound : s.heap.Sound
  unmarked : ∀ h o, s.get h = some o → o.marked = false

variable {s : Heap}

theorem Clean.get_collect (hs : s.Clean) (h : Nat) (o : GcObject) :
    s.collect.get h = some o ↔ s.get h = some o ∧ s.Reachable h := by
  have hswept := heapMarking.get_swept hs.unmarked s.roots (fun o => { o with marked := false }) h o
  refine hswept.trans ⟨?_, fun ⟨hget, hreached⟩ => ⟨o, hget, hreached, ?_⟩⟩
  · rintro ⟨a, ha, hreached, hsettled⟩
    have hfalse := hs.unmarked h a ha
    obtain ⟨value, marked⟩ := a
    cases hfalse
    exact ⟨hsettled ▸ ha, hreached⟩
  · have hfalse := hs.unmarked h o hget
    obtain ⟨value, marked⟩ := o
    cases hfalse
    rfl

theorem Clean.call (hs : s.Clean) (c : Call) : (s.call c).Clean := by
  cases c with
  | alloc value =>
    refine ⟨sound_alloc hs.sound _, fun h o ho => ?_⟩
    have hget := ho
    rw [Heap.call, get, Heap.alloc, get_alloc hs.sound] at hget
    split at hget
    · exact Option.some_inj.1 hget ▸ rfl
    · exact hs.unmarked h o hget
  | addRef source target =>
    refine ⟨sound_adjust hs.sound _ _, fun h o ho => ?_⟩
    have hget := ho
    rw [Heap.call, get, Heap.addRef, get_adjust] at hget
    split at hget
    · obtain ⟨a, ha, rfl⟩ := Option.map_eq_some_iff.1 hget
      exact hs.unmarked source a ha
    · exact hs.unmarked h o hget
  | addRoot h =>
    rw [Heap.call, Heap.addRoot]
    split
    · exact hs
    · exact ⟨hs.sound, hs.unmarked⟩
  | removeRoot h => exact ⟨hs.sound, hs.unmarked⟩
  | collect =>
    exact ⟨sound_mapAll (sound_sweep (heapMarking.sound_markAll _ hs.sound) _) _,
      fun h o ho => hs.unmarked h o ((hs.get_collect h o).1 ho).1⟩

theorem clean_run (calls : List Call) : (run calls).Clean := by
  rw [run]
  induction calls using List.reverseRecOn with
  | nil => exact ⟨sound_empty, nofun⟩
  | append_singleton calls c ih =>
    rw [List.foldl_append]
    exact ih.call c

/-- **Collections are exact.** After every sequence of calls a collection keeps, as they are and without a mark, the
objects that can be reached from the roots and no others. The free list has the empty slots, each once, so that no
allocation returns the handle of an object. -/
theorem collect_exact (calls : List Call) :
    (∀ h o, (run calls).collect.get h = some o ↔ (run calls).get h = some o ∧ (run calls).Reachable h) ∧
      (∀ h o, (run calls).get h = some o → o.marked = false) ∧ (run calls).heap.freeList.Nodup ∧
      (∀ i, i ∈ (run calls).heap.freeList ↔ (run calls).heap.objects[i]? = some none) ∧
      ∀ value, (run calls).get ((run calls).alloc value).1 = none :=
  have hclean := clean_run calls
  ⟨hclean.get_collect, hclean.unmarked, hclean.sound.nodup, hclean.sound.mem_iff,
    fun _ => get_alloc_fst hclean.sound _⟩

/-- A cycle without a root is freed, and its slots are used again. -/
example : (run [.alloc ⟨[], []⟩, .alloc ⟨[], [0]⟩, .addRef 0 1, .collect, .alloc ⟨[7], [9]⟩]).heap =
    ⟨[none, some ⟨⟨[7], [9]⟩, false⟩], [0]⟩ := by decide

end Heap

end SystemDesignLabs.GarbageCollector
