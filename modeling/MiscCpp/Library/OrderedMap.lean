import Mathlib.Data.List.Sort
import Mathlib.Tactic.Common

/-!
# Maps to sets, in order

A map with ordered keys whose values are sets of ordered elements, as the list of its pairs. The
entries are the elements with their keys. They are in the order of the keys and then of the
elements, and none of them is there twice (`pairwise_entries`), so an element that is inserted again
changes nothing.
-/

/-- Keys and sets are in order, and no set is empty. -/
structure SetMap (κ α : Type*) [LinearOrder κ] [LinearOrder α] where
  pairs : List (κ × List α)
  keys : pairs.Pairwise fun p q ↦ p.1 < q.1
  sets : ∀ p ∈ pairs, p.2 ≠ [] ∧ p.2.Pairwise (· < ·)

namespace SetMap

variable {κ α : Type*} [LinearOrder κ] [LinearOrder α] {k : κ} {a : α} {s : List α}
  {l : List (κ × List α)} {p : κ × List α} {m : SetMap κ α} {e : κ × α}

/-! ### Inserting -/

/-- An element goes to its place in the set, unless it is there. -/
def insertSet (a : α) (s : List α) : List α := if a ∈ s then s else s.orderedInsert (· ≤ ·) a

/-- The set of the key `k` gets the element `a`; a new key goes to its place. -/
def insertPairs (k : κ) (a : α) : List (κ × List α) → List (κ × List α)
  | [] => [(k, insertSet a [])]
  | p :: l =>
    if k < p.1 then (k, insertSet a []) :: p :: l
    else if p.1 < k then p :: insertPairs k a l
    else (p.1, insertSet a p.2) :: l

theorem mem_insertSet {b : α} : b ∈ insertSet a s ↔ b = a ∨ b ∈ s := by
  rw [insertSet]
  split
  next h => exact ⟨Or.inr, fun hb ↦ hb.elim (fun hba ↦ hba ▸ h) id⟩
  next => exact List.mem_orderedInsert (· ≤ ·)

theorem pairwise_insertSet (h : s.Pairwise (· < ·)) : (insertSet a s).Pairwise (· < ·) := by
  rw [insertSet]
  split
  next => exact h
  next ha =>
    have hnodup : (s.orderedInsert (· ≤ ·) a).Nodup :=
      (List.perm_orderedInsert (· ≤ ·) a s).nodup_iff.2
        (List.nodup_cons.2 ⟨ha, h.imp fun hlt ↦ hlt.ne⟩)
    have hle := (h.imp fun hlt ↦ hlt.le).orderedInsert a s
    exact (hle.and hnodup).imp fun h ↦ lt_of_le_of_ne h.1 h.2

/-- The keys that come out are `k` and the ones that go in. -/
theorem key_of_mem_insertPairs (hp : p ∈ insertPairs k a l) : p.1 = k ∨ ∃ q ∈ l, p.1 = q.1 := by
  induction l with
  | nil => exact Or.inl (congrArg Prod.fst (List.mem_singleton.1 hp))
  | cons q l ih =>
    rw [insertPairs] at hp
    split at hp
    · rcases List.mem_cons.1 hp with rfl | hp
      · exact Or.inl rfl
      · exact Or.inr ⟨p, hp, rfl⟩
    split at hp
    · rcases List.mem_cons.1 hp with rfl | hp
      · exact Or.inr ⟨p, List.mem_cons_self, rfl⟩
      · exact (ih hp).imp_right fun ⟨r, hr, heq⟩ ↦ ⟨r, List.mem_cons_of_mem q hr, heq⟩
    · rcases List.mem_cons.1 hp with rfl | hp
      · exact Or.inr ⟨q, List.mem_cons_self, rfl⟩
      · exact Or.inr ⟨p, List.mem_cons_of_mem q hp, rfl⟩

theorem pairwise_insertPairs (h : l.Pairwise fun p q ↦ p.1 < q.1) :
    (insertPairs k a l).Pairwise fun p q ↦ p.1 < q.1 := by
  induction l with
  | nil => exact List.pairwise_singleton _ _
  | cons q l ih =>
    obtain ⟨hq, hl⟩ := List.pairwise_cons.1 h
    rw [insertPairs]
    split
    next hlt =>
      refine List.pairwise_cons.2 ⟨fun p hp ↦ ?_, h⟩
      rcases List.mem_cons.1 hp with rfl | hp
      · exact hlt
      · exact hlt.trans (hq p hp)
    next =>
    split
    next hlt =>
      refine List.pairwise_cons.2 ⟨fun p hp ↦ ?_, ih hl⟩
      rcases key_of_mem_insertPairs hp with heq | ⟨r, hr, heq⟩
      · exact heq ▸ hlt
      · exact heq ▸ hq r hr
    next => exact List.pairwise_cons.2 ⟨hq, hl⟩

/-- Inserting keeps the sets in order and leaves none of them empty. -/
theorem sets_insertPairs (h : ∀ p ∈ l, p.2 ≠ [] ∧ p.2.Pairwise (· < ·)) :
    ∀ p ∈ insertPairs k a l, p.2 ≠ [] ∧ p.2.Pairwise (· < ·) := by
  have hset {s : List α} (hs : s.Pairwise (· < ·)) :
      insertSet a s ≠ [] ∧ (insertSet a s).Pairwise (· < ·) :=
    ⟨List.ne_nil_of_mem (mem_insertSet.2 (Or.inl rfl)), pairwise_insertSet hs⟩
  induction l with
  | nil => exact List.forall_mem_singleton.2 (hset List.Pairwise.nil)
  | cons q l ih =>
    obtain ⟨hq, hl⟩ := List.forall_mem_cons.1 h
    rw [insertPairs]
    split
    · exact List.forall_mem_cons.2 ⟨hset List.Pairwise.nil, h⟩
    split
    · exact List.forall_mem_cons.2 ⟨hq, ih hl⟩
    · exact List.forall_mem_cons.2 ⟨hset hq.2, hl⟩

/-- The map without keys. -/
def empty : SetMap κ α := ⟨[], List.Pairwise.nil, fun _ h ↦ absurd h List.not_mem_nil⟩

/-- `m[k].insert(a)` -/
def insertAt (m : SetMap κ α) (k : κ) (a : α) : SetMap κ α :=
  ⟨insertPairs k a m.pairs, pairwise_insertPairs m.keys, sets_insertPairs m.sets⟩

/-! ### Entries -/

/-- The elements of the pairs, with their keys. -/
def entriesOf (l : List (κ × List α)) : List (κ × α) :=
  l.flatMap fun p ↦ p.2.map fun a ↦ (p.1, a)

/-- The elements with their keys, in the order of the iteration. -/
def entries (m : SetMap κ α) : List (κ × α) := entriesOf m.pairs

omit [LinearOrder κ] [LinearOrder α] in
theorem entriesOf_cons (p : κ × List α) (l : List (κ × List α)) :
    entriesOf (p :: l) = (p.2.map fun a ↦ (p.1, a)) ++ entriesOf l := List.flatMap_cons

omit [LinearOrder κ] [LinearOrder α] in
theorem mem_map_key {k' : κ} : (k', a) ∈ s.map (fun a ↦ (k, a)) ↔ k' = k ∧ a ∈ s := by
  rw [List.mem_map]
  constructor
  · rintro ⟨b, hb, heq⟩
    obtain ⟨rfl, rfl⟩ := Prod.mk.inj heq
    exact ⟨rfl, hb⟩
  · rintro ⟨rfl, ha⟩
    exact ⟨a, ha, rfl⟩

/-- Inserting adds the entry and nothing else. -/
theorem mem_entriesOf_insertPairs {k' : κ} {b : α} :
    (k', b) ∈ entriesOf (insertPairs k a l) ↔ (k', b) = (k, a) ∨ (k', b) ∈ entriesOf l := by
  have hnew : k' = k ∧ b ∈ insertSet a [] ↔ (k', b) = (k, a) := by
    rw [mem_insertSet, Prod.mk.injEq, or_iff_left List.not_mem_nil]
  induction l with
  | nil =>
    rw [insertPairs, entriesOf_cons, List.mem_append, mem_map_key, hnew]
  | cons q l ih =>
    rw [insertPairs]
    split
    · rw [entriesOf_cons, List.mem_append, mem_map_key, hnew]
    split
    · rw [entriesOf_cons, List.mem_append, entriesOf_cons, List.mem_append]
      exact (or_congr_right ih).trans or_left_comm
    next hle hge =>
      have heq : q.1 = k := le_antisymm (not_lt.1 hle) (not_lt.1 hge)
      rw [entriesOf_cons, List.mem_append, mem_map_key, entriesOf_cons, List.mem_append,
        mem_map_key, mem_insertSet, heq, Prod.mk.injEq, and_or_left, or_assoc]

/-- **The entries** after an insertion. -/
theorem mem_entries_insertAt : e ∈ (m.insertAt k a).entries ↔ e = (k, a) ∨ e ∈ m.entries :=
  mem_entriesOf_insertPairs

/-- Every key has an entry. -/
theorem exists_mem_entries (hp : p ∈ m.pairs) : ∃ a, (p.1, a) ∈ m.entries := by
  obtain ⟨a, ha⟩ := List.exists_mem_of_ne_nil _ (m.sets p hp).1
  exact ⟨a, List.mem_flatMap.2 ⟨p, hp, List.mem_map_of_mem ha⟩⟩

/-- **The order** of the entries. -/
theorem pairwise_entries (m : SetMap κ α) :
    m.entries.Pairwise fun p q ↦ p.1 < q.1 ∨ p.1 = q.1 ∧ p.2 < q.2 := by
  rw [entries, entriesOf, List.pairwise_flatMap]
  refine ⟨fun p hp ↦ ?_, m.keys.imp fun hlt a ha b hb ↦ ?_⟩
  · rw [List.pairwise_map]
    exact (m.sets p hp).2.imp fun hlt ↦ Or.inr ⟨rfl, hlt⟩
  · obtain ⟨x, -, rfl⟩ := List.mem_map.1 ha
    obtain ⟨y, -, rfl⟩ := List.mem_map.1 hb
    exact Or.inl hlt

theorem nodup_entries (m : SetMap κ α) : m.entries.Nodup := by
  refine m.pairwise_entries.imp fun {p q} h ↦ ?_
  rintro rfl
  rcases h with h | ⟨-, h⟩
  · exact lt_irrefl _ h
  · exact lt_irrefl _ h

end SetMap
