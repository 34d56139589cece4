import Mathlib

/-!
# A list of tasks in progress

Each step of a concurrent system is a step of one task, which goes on in another state or ends. `proceed` is
the list after such a step; the other tasks stay (`proceed_split`).
-/

namespace SystemDesignLabs.Core

open List Option

universe u v

variable {α : Type u} {l : List α} {k : Nat} {a : α}

/-- The tasks after the one at place `k` has gone on as `next`, or has ended. -/
def proceed (l : List α) (k : Nat) : Option α → List α
  | some a => l.set k a
  | none => l.eraseIdx k

/-- A task and the others, before and after its step. -/
theorem proceed_split (h : l[k]? = some a) :
    ∃ front back, l = front ++ a :: back ∧ ∀ next, proceed l k next = front ++ (next.toList ++ back) := by
  obtain ⟨hlt, rfl⟩ := List.getElem?_eq_some_iff.1 h
  refine ⟨l.take k, l.drop (k + 1), ?_, fun next => ?_⟩
  · rw [← drop_eq_getElem_cons hlt, take_append_drop]
  · cases next with
    | some b => exact set_eq_take_append_cons_drop.trans (if_pos hlt)
    | none => exact eraseIdx_eq_take_drop_succ l k

variable {next : Option α}

theorem nodup_proceed {K : Type v} {owner : α → K} (h : l[k]? = some a) (hl : (l.map owner).Nodup)
    (hnext : ∀ b ∈ next, owner b = owner a) :
    ((proceed l k next).map owner).Nodup ∧ ∀ b ∈ proceed l k next, b ∈ next ∨ (b ∈ l ∧ owner b ≠ owner a) := by
  obtain ⟨front, back, rfl, hproceed⟩ := proceed_split h
  rw [hproceed]
  rw [map_append, map_cons] at hl
  have hmiddle := perm_middle.nodup_iff.1 hl
  obtain ⟨hother, hrest⟩ := nodup_cons.1 hmiddle
  rw [← map_append] at hother hrest
  constructor
  · cases next with
    | none => exact hrest
    | some b =>
      rw [map_append, toList_some, singleton_append, map_cons, hnext b rfl]
      exact hl
  · intro b hb
    rcases mem_append.1 hb with hb | hb
    · exact .inr ⟨mem_append_left _ hb, fun heq => hother (heq ▸ mem_map_of_mem (mem_append_left _ hb))⟩
    · rcases mem_append.1 hb with hb | hb
      · exact .inl (mem_toList.1 hb)
      · exact .inr ⟨mem_append_right _ (mem_cons_of_mem _ hb),
          fun heq => hother (heq ▸ mem_map_of_mem (mem_append_right _ hb))⟩

theorem mem_proceed (h : l[k]? = some a) {b : α} (hb : b ∈ l) (hne : b ≠ a) : b ∈ proceed l k next := by
  obtain ⟨front, back, rfl, hproceed⟩ := proceed_split h
  rw [hproceed]
  rcases mem_append.1 hb with hb | hb
  · exact mem_append_left _ hb
  · exact mem_append_right _ (mem_append_right _ ((mem_cons.1 hb).resolve_left hne))

theorem mem_proceed_next (h : l[k]? = some a) {b : α} (hb : b ∈ next) : b ∈ proceed l k next := by
  obtain ⟨front, back, rfl, hproceed⟩ := proceed_split h
  rw [hproceed]
  exact mem_append_right _ (mem_append_left _ (mem_toList.2 hb))

end SystemDesignLabs.Core
