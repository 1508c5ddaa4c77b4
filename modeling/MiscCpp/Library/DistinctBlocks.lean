import Mathlib.Data.List.Infix
import Mathlib.Data.List.Nodup
import Mathlib.Tactic.Common

/-!
# Blocks without repetitions

A list is read from left to right, and a block ends in front of the first element that is in it
already. This element is left out, and the next block begins behind it. The blocks are sublists
without repetitions (`infix_of_mem_blocks`, `nodup_of_mem_blocks`), but not always longest ones.
-/

namespace DistinctBlocks

variable {α : Type*} [DecidableEq α] {b s v : List α} {c : α}

/-- The blocks of `s` behind what has been read of the first one. -/
def cut : List α → List α → List (List α)
  | b, [] => [b]
  | b, c :: s => if c ∈ b then b :: cut [] s else cut (b ++ [c]) s

/-- The blocks that a scan cuts a list into. -/
def blocks (s : List α) : List (List α) := cut [] s

/-- Every further block has its elements once. -/
theorem nodup_of_mem_cut (hb : b.Nodup) (hv : v ∈ cut b s) : v.Nodup := by
  induction s generalizing b with
  | nil => exact List.mem_singleton.1 hv ▸ hb
  | cons c s ih =>
    rw [cut] at hv
    split at hv
    next =>
      rcases List.mem_cons.1 hv with rfl | hv
      · exact hb
      · exact ih List.nodup_nil hv
    next hc =>
      have hnodup := (List.nodup_concat b c).2 ⟨hc, hb⟩
      rw [List.concat_eq_append] at hnodup
      exact ih hnodup hv

/-- Every further block is a stretch of the list. -/
theorem infix_of_mem_cut (hv : v ∈ cut b s) : v <:+: b ++ s := by
  induction s generalizing b with
  | nil =>
    obtain rfl := List.mem_singleton.1 hv
    exact (List.prefix_append v []).isInfix
  | cons c s ih =>
    rw [cut] at hv
    split at hv
    · rcases List.mem_cons.1 hv with rfl | hv
      · exact (List.prefix_append v (c :: s)).isInfix
      · refine (ih hv).trans ⟨b ++ [c], [], ?_⟩
        rw [List.append_nil, List.nil_append, List.append_assoc]
        rfl
    · have h := ih hv
      rwa [List.append_assoc] at h

theorem nodup_of_mem_blocks (hv : v ∈ blocks s) : v.Nodup := nodup_of_mem_cut List.nodup_nil hv

theorem infix_of_mem_blocks (hv : v ∈ blocks s) : v <:+: s := infix_of_mem_cut hv

/-- The first block goes on with what has been read of it. -/
theorem exists_mem_cut (b s : List α) : ∃ v ∈ cut b s, b.length ≤ v.length := by
  induction s generalizing b with
  | nil => exact ⟨b, List.mem_cons_self, le_rfl⟩
  | cons c s ih =>
    rw [cut]
    split
    · exact ⟨b, List.mem_cons_self, le_rfl⟩
    · obtain ⟨v, hv, hle⟩ := ih (b ++ [c])
      exact ⟨v, hv, le_trans (by rw [List.length_append]; omega) hle⟩

/-- The lengths of the sublists without repetitions. -/
def lengths (s : List α) : Set ℕ := {k | ∃ v, v <:+: s ∧ v.Nodup ∧ v.length = k}

end DistinctBlocks
