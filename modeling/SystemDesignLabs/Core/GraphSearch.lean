import Mathlib

/-!
# Search in a graph

A search with a stack and a list of visited nodes. `mem_graphSearch` says that the search visits what is reachable
from its stack, `graphSearch_isSome` that it ends: each node pushes its successors once.
-/

namespace SystemDesignLabs.Core

open List Option

universe u

variable {α : Type u} [DecidableEq α]

/-- Visit what is reachable from the stack; `none` when `fuel` runs out. -/
def graphSearch (succs : α → List α) : Nat → List α → List α → Option (List α)
  | _, [], visited => some visited
  | 0, _ :: _, _ => none
  | fuel + 1, x :: stack, visited =>
    if x ∈ visited then graphSearch succs fuel stack visited
    else graphSearch succs fuel (succs x ++ stack) (x :: visited)

/-- One node is a successor of another. -/
def Succ (succs : α → List α) (x y : α) : Prop :=
  y ∈ succs x

variable {succs : α → List α} {fuel : Nat} {stack visited result : List α}

/-- What the visited nodes lead to is visited or on the stack. -/
def Frontier (succs : α → List α) (visited stack : List α) : Prop :=
  ∀ x ∈ visited, ∀ y ∈ succs x, y ∈ visited ∨ y ∈ stack

omit [DecidableEq α] in
theorem Frontier.path (hfrontier : Frontier succs visited stack) {x y : α} (hx : x ∈ visited)
    (h : Relation.ReflTransGen (Succ succs) x y) :
    y ∈ visited ∨ ∃ z ∈ stack, Relation.ReflTransGen (Succ succs) z y := by
  induction h with
  | refl => exact .inl hx
  | tail _ hstep ih =>
    rcases ih with hmem | ⟨z, hz, hpath⟩
    · rcases hfrontier _ hmem _ hstep with hy | hy
      · exact .inl hy
      · exact .inr ⟨_, hy, .refl⟩
    · exact .inr ⟨z, hz, hpath.tail hstep⟩

omit [DecidableEq α] in
theorem Frontier.pop {x : α} (hfrontier : Frontier succs visited (x :: stack)) (hx : x ∈ visited) :
    Frontier succs visited stack := by
  intro a ha b hb
  rcases hfrontier a ha b hb with hb | hb
  · exact .inl hb
  · rcases mem_cons.1 hb with rfl | hb
    · exact .inl hx
    · exact .inr hb

omit [DecidableEq α] in
theorem Frontier.push {x : α} (hfrontier : Frontier succs visited (x :: stack)) :
    Frontier succs (x :: visited) (succs x ++ stack) := by
  intro a ha b hb
  rcases mem_cons.1 ha with rfl | ha
  · exact .inr (mem_append_left stack hb)
  · rcases hfrontier a ha b hb with hb | hb
    · exact .inl (mem_cons_of_mem x hb)
    · rcases mem_cons.1 hb with rfl | hb
      · exact .inl mem_cons_self
      · exact .inr (mem_append_right _ hb)

/-- A search visits what its stack reaches. -/
theorem mem_graphSearch_of_frontier (h : graphSearch succs fuel stack visited = some result)
    (hfrontier : Frontier succs visited stack) (y : α) :
    y ∈ result ↔ y ∈ visited ∨ ∃ x ∈ stack, Relation.ReflTransGen (Succ succs) x y := by
  induction fuel generalizing stack visited with
  | zero =>
    cases stack with
    | nil =>
      obtain rfl := some_inj.1 h
      simp
    | cons x stack => cases h
  | succ fuel ih =>
    cases stack with
    | nil =>
      obtain rfl := some_inj.1 h
      simp
    | cons x stack =>
      rw [graphSearch] at h
      split at h
      · next hx =>
        rw [ih h (hfrontier.pop hx)]
        constructor
        · rintro (hy | ⟨z, hz, hpath⟩)
          · exact .inl hy
          · exact .inr ⟨z, mem_cons_of_mem x hz, hpath⟩
        · rintro (hy | ⟨z, hz, hpath⟩)
          · exact .inl hy
          · rcases mem_cons.1 hz with rfl | hz
            · exact (hfrontier.pop hx).path hx hpath
            · exact .inr ⟨z, hz, hpath⟩
      · rw [ih h hfrontier.push]
        constructor
        · rintro (hy | ⟨z, hz, hpath⟩)
          · rcases mem_cons.1 hy with rfl | hy
            · exact .inr ⟨y, mem_cons_self, .refl⟩
            · exact .inl hy
          · rcases mem_append.1 hz with hz | hz
            · exact .inr ⟨x, mem_cons_self, hpath.head hz⟩
            · exact .inr ⟨z, mem_cons_of_mem x hz, hpath⟩
        · rintro (hy | ⟨z, hz, hpath⟩)
          · exact .inl (mem_cons_of_mem x hy)
          · rcases mem_cons.1 hz with rfl | hz
            · -- the node itself is visited now, its successors are on the stack
              rcases Relation.ReflTransGen.cases_head hpath with rfl | ⟨b, hb, hpath⟩
              · exact .inl mem_cons_self
              · exact .inr ⟨b, mem_append_left stack hb, hpath⟩
            · exact .inr ⟨z, mem_append_right _ hz, hpath⟩

theorem mem_graphSearch (h : graphSearch succs fuel stack [] = some result) (y : α) :
    y ∈ result ↔ ∃ x ∈ stack, Relation.ReflTransGen (Succ succs) x y := by
  rw [mem_graphSearch_of_frontier h fun _ hx => absurd hx not_mem_nil]
  exact or_iff_right not_mem_nil

theorem graphSearch_nodup (h : graphSearch succs fuel stack visited = some result) (hvisited : visited.Nodup) :
    result.Nodup := by
  induction fuel generalizing stack visited with
  | zero =>
    cases stack with
    | nil => exact some_inj.1 h ▸ hvisited
    | cons x stack => cases h
  | succ fuel ih =>
    cases stack with
    | nil => exact some_inj.1 h ▸ hvisited
    | cons x stack =>
      rw [graphSearch] at h
      split at h
      · exact ih h hvisited
      · exact ih h (nodup_cons.2 ⟨‹_›, hvisited⟩)

/-- The successors of the nodes that were not visited yet. -/
def pushes (succs : α → List α) (nodes : Finset α) (visited : List α) : Nat :=
  ∑ x ∈ nodes.filter (· ∉ visited), (succs x).length

theorem pushes_cons {nodes : Finset α} {x : α} (hx : x ∈ nodes) (hnew : x ∉ visited) :
    pushes succs nodes (x :: visited) + (succs x).length = pushes succs nodes visited := by
  have hfilter : nodes.filter (· ∉ x :: visited) = (nodes.filter (· ∉ visited)).erase x := by
    ext y
    simp only [Finset.mem_filter, Finset.mem_erase, mem_cons, not_or]
    tauto
  rw [pushes, hfilter, Finset.sum_erase_add _ _ (Finset.mem_filter.2 ⟨hx, hnew⟩), pushes]

/-- A search ends, when only the nodes of a finite set have successors. -/
theorem graphSearch_isSome {nodes : Finset α} (hnodes : ∀ x ∉ nodes, succs x = [])
    (hfuel : stack.length + pushes succs nodes visited ≤ fuel) : (graphSearch succs fuel stack visited).isSome := by
  induction fuel generalizing stack visited with
  | zero =>
    have hstack : stack = [] := eq_nil_of_length_eq_zero (by omega)
    subst hstack
    rfl
  | succ fuel ih =>
    cases stack with
    | nil => rfl
    | cons x stack =>
      rw [length_cons] at hfuel
      rw [graphSearch]
      split
      · exact ih (by omega)
      · next hnew =>
        refine ih ?_
        rw [length_append]
        by_cases hx : x ∈ nodes
        · have hpushes := @pushes_cons α _ succs visited nodes x hx hnew
          omega
        · have hsame : pushes succs nodes (x :: visited) = pushes succs nodes visited := by
            have hfilter : nodes.filter (· ∉ x :: visited) = nodes.filter (· ∉ visited) := by
              refine Finset.filter_congr fun y hy => ?_
              rw [mem_cons, not_or, and_iff_right (ne_of_mem_of_not_mem hy hx)]
            rw [pushes, hfilter, pushes]
          rw [hsame, hnodes x hx, length_nil]
          omega

/-! ## Breadth first -/

/-- Visit what is reachable from the queue, in the order of the distance. -/
def breadthFirst (succs : α → List α) : Nat → List α → List α → List α
  | _, [], visited => visited.reverse
  | 0, _ :: _, visited => visited.reverse
  | fuel + 1, x :: queue, visited =>
    if x ∈ visited then breadthFirst succs fuel queue visited
    else breadthFirst succs fuel (queue ++ (succs x).filter (· ∉ x :: visited)) (x :: visited)

end SystemDesignLabs.Core
